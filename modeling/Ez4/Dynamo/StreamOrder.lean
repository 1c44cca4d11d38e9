import Ez4.Dynamo.StreamPlaces

/-! # The order of the records

Each step keeps the places of the consumer, so long as a shard is opened after
its parent, and no iterator is lost in a shard of which nothing was read. -/
namespace Ez4.Dynamo.Stream
open Ez4.Library StreamConsumer

variable {p after : StreamConsumer} {id : ShardId} {event : StreamEvent}

/-- The condition on the steps: a shard gets no records while its cursor is to start at its
tip, such a cursor loses its iterator only while nothing comes after it, and a discovery opens
a shard only when its parent is known. -/
def KeepsOrder (p : StreamConsumer) : StreamEvent → Prop
  | .appendRecord id => ∀ c ∈ p.openShards, c.shardId = id →
    ¬ (c.iterator = none ∧ c.sequenceNumber = none ∧ c.iteratorType = .latest)
  | .getRecords .expired =>
    match p.task with
    | .reading shardId _ => ∀ c ∈ p.openShards, c.shardId = shardId → c.sequenceNumber = none →
      c.iteratorType = .latest → c.iterator = some (p.recordsOf shardId)
    | _ => True
  | .openShard =>
    match p.task with
    | .opening .trimHorizon (shard :: _) =>
      shard.id ∈ p.knownShards ∨ ∀ parent ∈ shard.parent, parent ∈ p.knownShards
    | _ => True
  | _ => True

/-! ## Steps that change the task alone -/

section
variable {task : Task} {discover failing : Bool}

theorem place_of_not_isHanding (h : p.task.isHanding = false) (c : ShardCursor) :
    p.place c = p.resume c := by
  unfold place
  split
  · rename_i htask
    rw [htask] at h
    cases h
  · rfl

theorem IsKept.of_task (h : IsKept p) (hnot : p.task.isHanding = false)
    (hnot' : task.isHanding = false)
    (hlisted : ∀ shard ∈ task.shards, ∃ now, p.stream.get shard.id = some now ∧ shard.Becomes now)
    (hstart : p.startedWith = none → p.task.isOfStart = true → task.isOfStart = true)
    (hpoll : p.task.isOfPoll = true → task.isOfPoll = true) :
    IsKept { p with task, discover, failing } where
  isSound := ⟨h.isSound.isRooted, h.isSound.known, h.isSound.nodup, h.isSound.opened, hlisted⟩
  isStarting hstarted := by
    obtain ⟨hnone, hhanded, hcursors, hclosed, htask⟩ := h.isStarting hstarted
    exact ⟨hnone, hhanded, hcursors, hclosed, hstart hnone htask⟩
  isInOrder hstarted hstopped := by
    obtain ⟨hknown, hancestors, hclosed, hcursors, -, htask⟩ := h.isInOrder hstarted hstopped
    refine ⟨hknown, hancestors, hclosed, fun c hc => ?_, fun _ _ _ _ _ hhanding => ?_, hpoll htask⟩
    · have hplace := hcursors c hc
      rw [place_of_not_isHanding hnot] at hplace
      rw [place_of_not_isHanding (p := { p with task, discover, failing }) hnot']
      exact inPlace_mono hplace (grows_refl _) rfl rfl
    · dsimp only at hhanding
      rw [hhanding] at hnot'
      cases hnot'

end

/-- The end of a poll, which is not in the loop over records. -/
theorem IsKept.endPoll (h : IsKept p) (hnot : p.task.isHanding = false)
    (hstart : p.startedWith = none → p.task.isOfStart = false) : IsKept p.endPoll := by
  unfold StreamConsumer.endPoll
  refine h.of_task hnot ?_ ?_
    (fun hnone htask => absurd ((hstart hnone).symm.trans htask) (by decide)) fun _ => ?_
  · cases p.stopped <;> rfl
  · intro shard hshard
    cases hstopped : p.stopped <;> rw [hstopped] at hshard <;> cases hshard
  · cases p.stopped <;> rfl

/-! ## The start -/

/-- The consumer when `startStreamConsumer` returns: nothing is to be handed over yet. -/
theorem isInOrder_start (hsound : IsSound p) (h : IsStarting p) :
    IsInOrder { p with startedWith := some p.stream, task := .waiting } := by
  have hstart : ∀ id shard, p.stream.get id = some shard →
      startOf { p with startedWith := some p.stream, task := .waiting } id = shard.records := by
    intro id shard hget
    change ((p.stream.get id).map (·.records)).getD 0 = shard.records
    rw [hget]
    rfl
  have hread : ∀ id shard, p.stream.get id = some shard → shard.ended = true →
      IsRead { p with startedWith := some p.stream, task := .waiting } id := by
    intro id shard hget hended
    refine ⟨shard, hget, hended, fun j hj hlt => ?_⟩
    rw [hstart id shard hget] at hj
    exact absurd hlt (Nat.not_lt.mpr hj)
  refine ⟨fun r hr => ?_, fun id _ ancestor hancestor => ?_, fun id hid hopen => ?_,
    fun c hc => ?_, fun _ _ _ _ _ htask => ?_, rfl⟩
  · dsimp only at hr
    rw [h.handed] at hr
    cases hr
  · obtain ⟨shard, hget, hended⟩ := hancestor.ended hsound.isRooted
    exact hread ancestor shard hget hended
  · obtain ⟨shard, hget, hended⟩ := h.closed id hid hopen
    exact hread id shard hget hended
  · obtain ⟨hsequence, htype, iterator, shard, hiterator, hget, hle⟩ := h.cursors c hc
    have hplace : place { p with startedWith := some p.stream, task := .waiting } c = iterator := by
      change resume _ c = iterator
      rw [resume, hiterator]
      rfl
    rw [hplace]
    refine ⟨fun j hj hlt => ?_, fun j hj => ?_, fun n hn => ?_, fun _ htrim => ?_,
      ⟨shard, hget, hle⟩⟩
    · rw [hstart _ shard hget] at hj
      omega
    · dsimp only at hj
      rw [h.handed] at hj
      cases hj
    · rw [hsequence] at hn
      cases hn
    · rw [htype] at htrim
      cases htrim
  · cases htask

/-- The end of a discovery. -/
theorem isKept_endDiscovery (h : IsKept p) {iteratorType : ShardIteratorType}
    (htask : p.task = .describing iteratorType [] ∨ p.task = .opening iteratorType []) :
    IsKept (p.endDiscovery iteratorType) := by
  have hnot : p.task.isHanding = false := by
    rcases htask with htask | htask <;> rw [htask] <;> rfl
  cases iteratorType with
  | trimHorizon =>
    have hstart : p.task.isOfStart = false := by
      rcases htask with htask | htask <;> rw [htask] <;> rfl
    exact h.of_task hnot rfl (fun shard hshard => by cases hshard)
      (fun _ htask' => absurd (hstart.symm.trans htask') (by decide)) fun _ => rfl
  | latest =>
    have hpoll : p.task.isOfPoll = false := by
      rcases htask with htask | htask <;> rw [htask] <;> rfl
    refine ⟨⟨h.isSound.isRooted, h.isSound.known, h.isSound.nodup, h.isSound.opened,
      fun _ hshard => (nomatch hshard)⟩, fun hstarted => (nomatch hstarted), fun _ hstopped => ?_⟩
    cases hstarted : p.startedWith with
    | none => exact isInOrder_start h.isSound (h.isStarting hstarted)
    | some shards =>
      have hin := h.isInOrder (by rw [hstarted]; rfl) hstopped
      exact absurd (hpoll.symm.trans hin.task) (by decide)

/-! ## Opening a shard -/

theorem isOpen_iff : p.isOpen id = true ↔ ∃ c ∈ p.openShards, c.shardId = id := by
  simp [isOpen]

/-- A shard that was not known is not open. -/
theorem IsSound.not_mem_ids (h : IsSound p) (hid : id ∉ p.knownShards) :
    id ∉ p.openShards.map (·.shardId) := by
  intro hmem
  obtain ⟨c, hc, rfl⟩ := List.mem_map.mp hmem
  exact hid (h.opened c hc)

/-- The consumer with a new shard that it knows, and a cursor for it unless it ended. -/
theorem IsSound.open (h : IsSound p) {cursors : List ShardCursor} {now : Shard}
    (hid : id ∉ p.knownShards) (hget : p.stream.get id = some now)
    (hcursors : cursors = [] ∨ ∃ c, cursors = [c] ∧ c.shardId = id)
    {task : Task} (hlisted : ∀ shard ∈ task.shards, shard ∈ p.task.shards) :
    IsSound { p with
      task
      knownShards := p.knownShards ++ [id]
      openShards := p.openShards ++ cursors } where
  isRooted := h.isRooted
  known other hother := by
    rcases List.mem_append.mp hother with hother | hother
    · exact h.known other hother
    · rw [List.mem_singleton.mp hother]
      exact Option.isSome_iff_exists.mpr ⟨now, hget⟩
  nodup := by
    dsimp only
    rcases hcursors with rfl | ⟨c, rfl, rfl⟩
    · rw [List.append_nil]
      exact h.nodup
    · rw [List.map_append]
      refine List.nodup_append.mpr ⟨h.nodup, by simp, fun other hother new hnew => ?_⟩
      rintro rfl
      rw [List.map_singleton, List.mem_singleton] at hnew
      exact h.not_mem_ids hid (hnew ▸ hother)
  opened c hc := by
    rcases List.mem_append.mp hc with hold | hnew
    · exact List.mem_append_left _ (h.opened c hold)
    · rcases hcursors with rfl | ⟨c', rfl, rfl⟩
      · cases hnew
      · rw [List.mem_singleton.mp hnew]
        exact List.mem_append_right _ (List.mem_singleton_self _)
  listed shard hshard := h.listed shard (hlisted shard hshard)

section
variable {shard now : Shard} {shards : Shards}

theorem isStarting_open (h : IsStarting p) {cursor : ShardCursor} (hnow : p.stream.get id = some now)
    (hid : cursor.shardId = id) (hsequence : cursor.sequenceNumber = none)
    (htype : cursor.iteratorType = .latest) (hiterator : cursor.iterator = some now.records) :
    IsStarting { p with
      task := .opening .latest shards
      knownShards := p.knownShards ++ [id]
      openShards := p.openShards ++ [cursor] } where
  notStarted := h.notStarted
  handed := h.handed
  cursors c hc := by
    rcases List.mem_append.mp hc with hc | hc
    · exact h.cursors c hc
    · rw [List.mem_singleton.mp hc, hid]
      exact ⟨hsequence, htype, _, now, hiterator, hnow, Nat.le_refl _⟩
  closed other hother hopen := by
    have hnotopen : ¬ ∃ c ∈ p.openShards ++ [cursor], c.shardId = other := by
      rw [← isOpen_iff (p := { p with
        task := .opening .latest shards
        knownShards := p.knownShards ++ [id]
        openShards := p.openShards ++ [cursor] }), hopen]
      decide
    rcases List.mem_append.mp hother with hother | hother
    · refine h.closed other hother (eq_false_of_ne_true fun hopen' => hnotopen ?_)
      obtain ⟨c, hc, hsame⟩ := isOpen_iff.mp hopen'
      exact ⟨c, List.mem_append_left _ hc, hsame⟩
    · rw [List.mem_singleton.mp hother] at hnotopen
      exact absurd ⟨cursor, List.mem_append_right _ (List.mem_singleton_self _), hid⟩ hnotopen
  task := rfl

theorem isStarting_skip (h : IsStarting p) (hnow : p.stream.get id = some now)
    (hended : now.ended = true) :
    IsStarting { p with
      task := .opening .latest shards
      knownShards := p.knownShards ++ [id] } where
  notStarted := h.notStarted
  handed := h.handed
  cursors := h.cursors
  closed other hother hopen := by
    rcases List.mem_append.mp hother with hother | hother
    · exact h.closed other hother hopen
    · rw [List.mem_singleton.mp hother]
      exact ⟨now, hnow, hended⟩
  task := rfl

/-- A shard is opened after the start, once its parent is read. -/
theorem isInOrder_open (h : IsInOrder p) (hnot : p.task.isHanding = false)
    (hid : id ∉ p.knownShards) (hnow : p.stream.get id = some now)
    (hparent : ∀ parent, now.parent = some parent →
      parent ∈ p.knownShards ∧ p.isOpen parent = false) {cursor : ShardCursor}
    (hsame : cursor.shardId = id) (hsequence : cursor.sequenceNumber = none)
    (hiterator : cursor.iterator = some 0) :
    IsInOrder { p with
      task := .opening .trimHorizon shards
      knownShards := p.knownShards ++ [id]
      openShards := p.openShards ++ [cursor] } := by
  have hread : ∀ {other}, p.IsRead other → IsRead { p with
      task := .opening .trimHorizon shards
      knownShards := p.knownShards ++ [id]
      openShards := p.openShards ++ [cursor] } other :=
    fun h => isRead_mono h (grows_refl _) rfl (List.Subset.refl _)
  refine ⟨fun r hr => List.mem_append_left _ (h.handedKnown r hr),
    fun other hother ancestor hancestor => hread ?_, fun other hother hopen => hread ?_,
    fun c hc => ?_, fun _ _ _ _ _ htask => (nomatch htask), rfl⟩
  · rcases List.mem_append.mp hother with hother | hother
    · exact h.ancestors other hother ancestor hancestor
    · obtain rfl := List.mem_singleton.mp hother
      have habove : ∃ parent, now.parent = some parent := by
        cases hancestor with
        | parent hget hparent' | above hget hparent' =>
          rw [Option.some.inj (hnow.symm.trans hget)]
          exact ⟨_, hparent'⟩
      obtain ⟨parent, habove⟩ := habove
      obtain ⟨hknown, hclosed⟩ := hparent parent habove
      rcases hancestor.of_parent hnow habove with rfl | hfurther
      · exact h.closed _ hknown hclosed
      · exact h.ancestors parent hknown ancestor hfurther
  · have hnotopen : ¬ ∃ c ∈ p.openShards ++ [cursor], c.shardId = other := by
      rw [← isOpen_iff (p := { p with
        task := .opening .trimHorizon shards
        knownShards := p.knownShards ++ [id]
        openShards := p.openShards ++ [cursor] }), hopen]
      decide
    rcases List.mem_append.mp hother with hother | hother
    · refine h.closed other hother (eq_false_of_ne_true fun hopen' => hnotopen ?_)
      obtain ⟨c, hc, hsame⟩ := isOpen_iff.mp hopen'
      exact ⟨c, List.mem_append_left _ hc, hsame⟩
    · rw [List.mem_singleton.mp hother] at hnotopen
      exact absurd ⟨cursor, List.mem_append_right _ (List.mem_singleton_self _), hsame⟩ hnotopen
  · rcases List.mem_append.mp hc with hc | hc
    · have hplace := h.cursors c hc
      rw [place_of_not_isHanding hnot] at hplace
      exact inPlace_mono hplace (grows_refl _) rfl rfl
    · -- nothing of the new shard was handed over
      obtain rfl := List.mem_singleton.mp hc
      have hplace : place { p with
          task := .opening .trimHorizon shards
          knownShards := p.knownShards ++ [id]
          openShards := p.openShards ++ [c] } c = 0 := by
        change resume _ c = 0
        rw [resume, hiterator]
        rfl
      rw [hplace]
      refine ⟨fun j _ hlt => absurd hlt (Nat.not_lt_zero _), fun j hj => ?_, fun n hn => ?_,
        fun _ _ => rfl, ⟨now, hsame ▸ hnow, Nat.zero_le _⟩⟩
      · exact absurd (hsame ▸ h.handedKnown _ hj) hid
      · rw [hsequence] at hn
        cases hn

/-- A turn of the loop of `discoverShards`. -/
theorem isKept_openShard (h : IsKept p) {iteratorType : ShardIteratorType}
    (htask : p.task = .opening iteratorType (shard :: shards))
    (hok : KeepsOrder p .openShard) (hstep : p.openShard iteratorType shard shards = some after) :
    IsKept after := by
  have hnot : p.task.isHanding = false := by rw [htask]; rfl
  have hlisted : ∀ other ∈ (Task.opening iteratorType shards).shards, other ∈ p.task.shards := by
    rw [htask]
    exact fun other hother => List.mem_cons_of_mem _ hother
  obtain ⟨now, hnow, hbecomes⟩ := h.isSound.listed shard (by rw [htask]; exact List.mem_cons_self)
  have hskip : IsKept { p with task := .opening iteratorType shards } := by
    refine h.of_task hnot rfl (fun other hother => h.isSound.listed other (hlisted other hother)) ?_ ?_
    · rw [htask]
      cases iteratorType <;> exact fun _ => id
    · rw [htask]
      cases iteratorType <;> exact id
  unfold StreamConsumer.openShard at hstep
  dsimp only at hstep
  split at hstep
  · exact Option.some.inj hstep ▸ hskip
  · rename_i hknown
    have hknown : shard.id ∉ p.knownShards := fun hmem => hknown (List.contains_iff_mem.mpr hmem)
    split at hstep
    · exact Option.some.inj hstep ▸ hskip
    · rename_i hparent
      split at hstep
      · -- it ended before the start
        rename_i hended
        obtain ⟨rfl, hended⟩ := hended
        obtain rfl := Option.some.inj hstep
        refine ⟨?_, fun hstarted => ?_, fun hstarted hstopped => ?_⟩
        · have hsound := h.isSound.open hknown hnow (.inl rfl) hlisted
          rwa [List.append_nil] at hsound
        · exact isStarting_skip (h.isStarting hstarted) hnow (hbecomes.ended hended).1
        · have hpoll := (h.isInOrder hstarted hstopped).task
          rw [htask] at hpoll
          cases hpoll
      · obtain ⟨now', hnow', rfl⟩ := Option.map_eq_some_iff.mp hstep
        obtain rfl := Option.some.inj (hnow.symm.trans hnow')
        refine ⟨h.isSound.open hknown hnow (.inr ⟨_, rfl, rfl⟩) hlisted, fun hstarted => ?_,
          fun hstarted hstopped => ?_⟩
        · have hstarting := h.isStarting hstarted
          have htype : iteratorType = .latest := by
            have hstart := hstarting.task
            rw [htask] at hstart
            cases iteratorType with
            | latest => rfl
            | trimHorizon => cases hstart
          subst htype
          exact isStarting_open hstarting hnow rfl rfl rfl rfl
        · have hin := h.isInOrder hstarted hstopped
          have htype : iteratorType = .trimHorizon := by
            have hpoll := hin.task
            rw [htask] at hpoll
            cases iteratorType with
            | latest => cases hpoll
            | trimHorizon => rfl
          subst htype
          refine isInOrder_open hin hnot hknown hnow (fun parent habove => ?_) rfl rfl rfl
          rw [hbecomes.parent] at habove
          rw [habove] at hparent
          refine ⟨?_, eq_false_of_ne_true hparent⟩
          unfold KeepsOrder at hok
          dsimp only at hok
          rw [htask] at hok
          exact (hok.resolve_left hknown) parent habove

end

/-! ## Reading a shard -/

theorem mem_of_cursor {c : ShardCursor} (h : p.cursor id = some c) :
    c ∈ p.openShards ∧ c.shardId = id :=
  ⟨List.mem_of_find?_eq_some h, by simpa using List.find?_some h⟩

/-- Cursors that are changed in place keep the shards that are open. -/
structure ChangesCursor (p after : StreamConsumer) (id : ShardId) (change : ShardCursor → ShardCursor) :
    Prop where
  stream : after.stream = p.stream
  known : after.knownShards = p.knownShards
  started : after.startedWith = p.startedWith
  shards : after.openShards =
    p.openShards.map fun cursor => if cursor.shardId = id then change cursor else cursor
  shardId : ∀ c, c.shardId = id → (change c).shardId = id

section
variable {change : ShardCursor → ShardCursor}

theorem ChangesCursor.ids (h : ChangesCursor p after id change) :
    after.openShards.map (·.shardId) = p.openShards.map (·.shardId) := by
  rw [h.shards, List.map_map]
  refine List.map_congr_left fun c _ => ?_
  dsimp only [Function.comp_apply]
  split
  · rename_i hsame
    rw [h.shardId c hsame, hsame]
  · rfl

theorem ChangesCursor.isOpen (h : ChangesCursor p after id change) (other : ShardId) :
    after.isOpen other = p.isOpen other := by
  have hany : ∀ q : StreamConsumer,
      q.isOpen other = (q.openShards.map (·.shardId)).any (· = other) := by
    intro q
    rw [List.any_map]
    rfl
  rw [hany, hany, h.ids]

theorem ChangesCursor.isSound (h : ChangesCursor p after id change) (hsound : IsSound p)
    (hlisted : after.task.shards = []) : IsSound after where
  isRooted := by
    rw [h.stream]
    exact hsound.isRooted
  known other hother := by
    rw [h.stream]
    exact hsound.known other (h.known ▸ hother)
  nodup := by
    rw [h.ids]
    exact hsound.nodup
  opened c hc := by
    have hmem := List.mem_map_of_mem (f := ShardCursor.shardId) hc
    rw [h.ids] at hmem
    obtain ⟨c', hc', hsame⟩ := List.mem_map.mp hmem
    rw [h.known, ← hsame]
    exact hsound.opened c' hc'
  listed shard hshard := by
    rw [hlisted] at hshard
    cases hshard

/-- What is kept of a consumer in order whose cursor changes: what its task and the place of
the cursor are is left. -/
theorem ChangesCursor.isInOrder (h : ChangesCursor p after id change) (hin : IsInOrder p)
    (hhanded : p.handed ⊆ after.handed)
    (hknown : ∀ r ∈ after.handed, r.1 ∈ p.knownShards)
    (hcursors : ∀ c ∈ p.openShards,
      if c.shardId = id then after.InPlace (change c) (after.place (change c))
      else after.InPlace c (after.place c))
    (hhanding : ∀ shardId next last closed cursors,
      after.task = .handing shardId next last closed cursors →
        IsHanding after shardId next last closed) (hpoll : after.task.isOfPoll = true) :
    IsInOrder after where
  handedKnown r hr := by
    rw [h.known]
    exact hknown r hr
  ancestors other hother ancestor hancestor := by
    rw [h.known] at hother
    rw [h.stream] at hancestor
    refine isRead_mono (hin.ancestors other hother ancestor hancestor) ?_ h.started hhanded
    rw [h.stream]
    exact grows_refl _
  closed other hother hopen := by
    rw [h.known] at hother
    rw [h.isOpen] at hopen
    refine isRead_mono (hin.closed other hother hopen) ?_ h.started hhanded
    rw [h.stream]
    exact grows_refl _
  cursors c hc := by
    rw [h.shards] at hc
    obtain ⟨old, hold, rfl⟩ := List.mem_map.mp hc
    have hplace := hcursors old hold
    split
    · rename_i hsame
      rwa [if_pos hsame] at hplace
    · rename_i hne
      rwa [if_neg hne] at hplace
  handing := hhanding
  task := hpoll

end

theorem resume_of_iterator {c : ShardCursor} {iterator : Nat} (h : c.iterator = some iterator) :
    p.resume c = iterator := by
  rw [resume, h]
  rfl

/-- A cursor that only takes or loses its iterator. -/
theorem inPlace_iterator {c c' : ShardCursor} {place : Nat} (h : p.InPlace c place)
    (hstream : after.stream = p.stream) (hstarted : after.startedWith = p.startedWith)
    (hhanded : after.handed = p.handed) (hid : c'.shardId = c.shardId)
    (hsequence : c'.sequenceNumber = c.sequenceNumber) (htype : c'.iteratorType = c.iteratorType) :
    after.InPlace c' place := by
  have hafter : after.InPlace c place := by
    refine inPlace_mono h ?_ hstarted hhanded
    rw [hstream]
    exact grows_refl _
  obtain ⟨hupTo, hbelow, hseq, hfirst, hwithin⟩ := hafter
  refine ⟨?_, ?_, ?_, ?_, ?_⟩
  · rw [hid]
    exact hupTo
  · rw [hid]
    exact hbelow
  · rw [hsequence]
    exact hseq
  · rw [hsequence, htype]
    exact hfirst
  · rw [hid]
    exact hwithin

theorem changesCursor_updateCursor (cursor : ShardCursor) (task : Task) :
    ChangesCursor p { p.updateCursor cursor with task } cursor.shardId fun _ => cursor :=
  ⟨rfl, rfl, rfl, rfl, fun _ _ => rfl⟩

/-- A step of a poll that changes a cursor. -/
theorem IsKept.of_changes (h : IsKept p) {change : ShardCursor → ShardCursor}
    (hchanges : ChangesCursor p after id change) (hstart : p.task.isOfStart = false)
    (hlisted : after.task.shards = []) (hstopped : after.stopped = p.stopped)
    (hin : p.stopped = false → IsInOrder p → IsInOrder after) : IsKept after where
  isSound := hchanges.isSound h.isSound hlisted
  isStarting hstarted := by
    rw [hchanges.started] at hstarted
    exact absurd (hstart.symm.trans (h.isStarting hstarted).task) (by decide)
  isInOrder hstarted hgoes := by
    rw [hchanges.started] at hstarted
    rw [hstopped] at hgoes
    exact hin hgoes (h.isInOrder hstarted hgoes)

/-- Two cursors of one shard are the same. -/
theorem IsSound.eq_of_shardId (h : IsSound p) {c c' : ShardCursor} (hc : c ∈ p.openShards)
    (hc' : c' ∈ p.openShards) (hsame : c.shardId = c'.shardId) : c = c' :=
  List.inj_on_of_nodup_map h.nodup hc hc' hsame

/-- What is kept where a cursor takes or loses its iterator and no place changes. -/
theorem isInOrder_of_iterator (hsound : IsSound p) (hin : IsInOrder p) {cursor cursor' : ShardCursor}
    (hmem : cursor ∈ p.openShards)
    (hchanges : ChangesCursor p after cursor.shardId fun _ => cursor')
    (hhanded : after.handed = p.handed) (hsequence : cursor'.sequenceNumber = cursor.sequenceNumber)
    (htype : cursor'.iteratorType = cursor.iteratorType)
    (hplace : after.place cursor' = p.place cursor)
    (hplaces : ∀ c, c.shardId ≠ cursor.shardId → after.place c = p.place c)
    (hhanding : ∀ shardId next last closed cursors,
      after.task = .handing shardId next last closed cursors →
        IsHanding after shardId next last closed) (hpoll : after.task.isOfPoll = true) :
    IsInOrder after := by
  refine hchanges.isInOrder hin (by rw [hhanded]; exact List.Subset.refl _)
    (by rw [hhanded]; exact hin.handedKnown) (fun c hc => ?_) hhanding hpoll
  have hkept := hin.cursors c hc
  split
  · rename_i hsame
    obtain rfl := hsound.eq_of_shardId hc hmem hsame
    rw [hplace]
    exact inPlace_iterator hkept hchanges.stream hchanges.started hhanded
      (hchanges.shardId c rfl) hsequence htype
  · rename_i hne
    rw [hplaces c hne]
    exact inPlace_iterator hkept hchanges.stream hchanges.started hhanded rfl rfl rfl

/-- The new iterator of a cursor starts where the old one would have gone on. -/
theorem isKept_takeIterator (h : IsKept p) {cursors : List ShardId}
    (htask : p.task = .reading id cursors) (hstep : p.takeIterator id = some after) :
    IsKept after := by
  have hplaces : ∀ {q : StreamConsumer} (c : ShardCursor), q.task = p.task → q.place c = q.resume c :=
    fun c hq => place_of_not_isHanding (by rw [hq, htask]; rfl) c
  unfold StreamConsumer.takeIterator at hstep
  obtain ⟨cursor, hcursor, hrest⟩ := Option.bind_eq_some_iff.mp hstep
  obtain ⟨shard, hshard, hlast⟩ := Option.bind_eq_some_iff.mp hrest
  obtain ⟨hnone, hafter⟩ := Option.ite_none_left_eq_some.mp hlast
  obtain rfl := Option.some.inj hafter
  clear hstep hrest hlast hafter
  obtain ⟨hmem, rfl⟩ := mem_of_cursor hcursor
  have hchanges := changesCursor_updateCursor (p := p)
    { cursor with iterator := some (getShardIterator shard.records cursor) } p.task
  have hresume : p.resume cursor = getShardIterator shard.records cursor := by
    have hnone : cursor.iterator = none := by simpa using hnone
    rw [resume, hnone, recordsOf_eq hshard]
    rfl
  refine h.of_changes hchanges (by rw [htask]; rfl) (congrArg Task.shards htask) rfl fun _ hin => ?_
  refine isInOrder_of_iterator h.isSound hin hmem hchanges rfl rfl rfl ?_ (fun c _ => ?_)
    (fun _ _ _ _ _ hhanding => ?_) hin.task
  · refine (hplaces _ rfl).trans (.trans ?_ (hplaces cursor rfl).symm)
    rw [hresume, resume_of_iterator rfl]
  · exact (hplaces c rfl).trans (hplaces c rfl).symm
  · cases htask.symm.trans hhanding

/-- What a cursor is left with by an answer, and what is to be handed over. -/
theorem isHanding_of_answer (hin : IsInOrder p) (hnot : p.task.isHanding = false)
    {cursors : List ShardId} (htask : p.task = .reading id cursors) {cursor : ShardCursor}
    {shard : Shard} {iterator : Nat} {answer : RecordsAnswer} (hmem : cursor ∈ p.openShards)
    (hid : cursor.shardId = id) (hshard : p.stream.get id = some shard)
    (hiterator : cursor.iterator = some iterator) (hanswers : shard.answers iterator answer = true)
    (hok : KeepsOrder p (.getRecords answer)) (task : Task) :
    (settleAnswer cursor iterator answer).1.shardId = id ∧
      (settleAnswer cursor iterator answer).1.sequenceNumber = cursor.sequenceNumber ∧
      (settleAnswer cursor iterator answer).1.iteratorType = cursor.iteratorType ∧
      IsHanding { p.updateCursor (settleAnswer cursor iterator answer).1 with task } id iterator
        (iterator + (settleAnswer cursor iterator answer).2.1)
        (settleAnswer cursor iterator answer).2.2 := by
  have hplace := hin.cursors cursor hmem
  rw [place_of_not_isHanding hnot, resume_of_iterator hiterator] at hplace
  have hupdated : ∀ c : ShardCursor, c.shardId = id → c ∈ (p.updateCursor c).openShards :=
    fun c hc => List.mem_map.mpr ⟨cursor, hmem, if_pos (hid.trans hc.symm)⟩
  cases answer with
  | notFound | trimmed => cases hanswers
  | records count isLast =>
    obtain ⟨hle, hlast⟩ := Bool.and_eq_true_iff.mp hanswers
    refine ⟨hid, rfl, rfl, Nat.le_add_right _ _, ⟨shard, hshard, of_decide_eq_true hle, ?_⟩,
      _, hupdated _ hid, hid, ?_⟩
    · intro hclosed
      obtain rfl : isLast = true := hclosed
      obtain ⟨hended, hsame⟩ := Bool.and_eq_true_iff.mp hlast
      exact ⟨hended, of_decide_eq_true hsame⟩
    · intro hclosed
      obtain rfl : isLast = false := hclosed
      exact .inl rfl
  | expired =>
    obtain ⟨found, hfound, hwithin⟩ := hplace.within
    obtain rfl := Option.some.inj (hshard.symm.trans (hid ▸ hfound))
    refine ⟨hid, rfl, rfl, Nat.le_refl _, ⟨shard, hshard, hwithin, fun hclosed => nomatch hclosed⟩,
      _, hupdated _ hid, hid, fun _ => .inr ⟨rfl, ?_⟩⟩
    -- where a new iterator starts
    change getShardIterator (p.recordsOf cursor.shardId) { cursor with iterator := none } = iterator
    unfold getShardIterator
    cases hsequence : cursor.sequenceNumber with
    | some sequenceNumber => exact (hplace.sequence sequenceNumber hsequence).symm
    | none =>
      cases htype : cursor.iteratorType with
      | trimHorizon => exact (hplace.first hsequence htype).symm
      | latest =>
        unfold KeepsOrder at hok
        dsimp only at hok
        rw [htask] at hok
        have hsame := hok cursor hmem hid hsequence htype
        rw [hiterator] at hsame
        rw [hid]
        exact (Option.some.inj hsame).symm

theorem isKept_getRecords (h : IsKept p) {cursors : List ShardId}
    (htask : p.task = .reading id cursors) {answer : RecordsAnswer}
    (hok : KeepsOrder p (.getRecords answer)) (hstep : p.getRecords id cursors answer = some after) :
    IsKept after := by
  have hnot : p.task.isHanding = false := by rw [htask]; rfl
  unfold StreamConsumer.getRecords at hstep
  obtain ⟨cursor, hcursor, hstep⟩ := Option.bind_eq_some_iff.mp hstep
  obtain ⟨shard, hshard, hstep⟩ := Option.bind_eq_some_iff.mp hstep
  obtain ⟨iterator, hiterator, hstep⟩ := Option.bind_eq_some_iff.mp hstep
  obtain ⟨hanswers, hstep⟩ := Option.ite_none_right_eq_some.mp hstep
  obtain ⟨hmem, hid⟩ := mem_of_cursor hcursor
  have hsettled := fun hin => isHanding_of_answer (p := p) hin hnot htask hmem hid hshard hiterator
    hanswers hok (.handing id iterator (iterator + (settleAnswer cursor iterator answer).2.1)
      (settleAnswer cursor iterator answer).2.2 cursors)
  have hsame : (settleAnswer cursor iterator answer).1.shardId = cursor.shardId := by
    cases answer <;> rfl
  have hchanges := changesCursor_updateCursor (p := p) (settleAnswer cursor iterator answer).1
    (.handing id iterator (iterator + (settleAnswer cursor iterator answer).2.1)
      (settleAnswer cursor iterator answer).2.2 cursors)
  rw [hsame] at hchanges
  obtain rfl := Option.some.inj hstep
  refine h.of_changes hchanges (by rw [htask]; rfl) rfl rfl fun _ hin => ?_
  obtain ⟨-, hsequence, htype, hhanding⟩ := hsettled hin
  refine isInOrder_of_iterator h.isSound hin hmem hchanges rfl hsequence htype ?_ (fun c hne => ?_)
    (fun _ _ _ _ _ hafter => ?_) rfl
  · rw [place_of_not_isHanding hnot, resume_of_iterator hiterator]
    exact if_pos (hsame.trans hid)
  · rw [place_of_not_isHanding hnot]
    exact if_neg (hid ▸ hne)
  · obtain ⟨rfl, rfl, rfl, rfl, rfl⟩ := Task.handing.inj hafter
    exact hhanding

/-! ## Handing records over -/

section
variable {next last : Nat} {closed : Bool} {cursors : List ShardId}

theorem place_of_handing (htask : p.task = .handing id next last closed cursors) {c : ShardCursor}
    (hid : c.shardId = id) : p.place c = next := by
  rw [place, htask]
  exact if_pos hid

theorem place_of_handing_ne (htask : p.task = .handing id next last closed cursors)
    {c : ShardCursor} (hid : c.shardId ≠ id) : p.place c = p.resume c := by
  rw [place, htask]
  exact if_neg hid

/-- A shard whose last records were handed over is read. -/
theorem isRead_of_handing (hin : IsInOrder p)
    (htask : p.task = .handing id last last true cursors) : p.IsRead id := by
  obtain ⟨-, ⟨shard, hget, -, hended⟩, c, hc, rfl, -⟩ := hin.handing _ _ _ _ _ htask
  have hplace := hin.cursors c hc
  rw [place_of_handing htask rfl] at hplace
  obtain ⟨hended, hlast⟩ := hended rfl
  exact ⟨shard, hget, hended, fun j hj hlt => hplace.upTo j hj (hlast ▸ hlt)⟩

theorem isInOrder_close (hin : IsInOrder p)
    (htask : p.task = .handing id last last true cursors) :
    IsInOrder { p with
      openShards := p.openShards.filter (·.shardId ≠ id)
      discover := true
      task := .polling cursors } := by
  have hread : ∀ {other}, p.IsRead other → IsRead { p with
      openShards := p.openShards.filter (·.shardId ≠ id)
      discover := true
      task := .polling cursors } other :=
    fun h => isRead_mono h (grows_refl _) rfl (List.Subset.refl _)
  refine ⟨hin.handedKnown, fun other hother ancestor hancestor =>
    hread (hin.ancestors other hother ancestor hancestor), fun other hother hopen => hread ?_,
    fun c hc => ?_, fun _ _ _ _ _ hhanding => (nomatch hhanding), rfl⟩
  · by_cases hsame : other = id
    · exact hsame ▸ isRead_of_handing hin htask
    · refine hin.closed other hother (eq_false_of_ne_true fun hopen' => ?_)
      obtain ⟨c, hc, rfl⟩ := isOpen_iff.mp hopen'
      have hstill : isOpen { p with
          openShards := p.openShards.filter (·.shardId ≠ id)
          discover := true
          task := .polling cursors } c.shardId = true :=
        isOpen_iff.mpr ⟨c, List.mem_filter.mpr ⟨hc, by simpa using hsame⟩, rfl⟩
      exact absurd (hstill.symm.trans hopen) (by decide)
  · obtain ⟨hc, hne⟩ := List.mem_filter.mp hc
    have hplace := hin.cursors c hc
    rw [place_of_handing_ne htask (by simpa using hne)] at hplace
    exact inPlace_mono hplace (grows_refl _) rfl rfl

theorem isInOrder_goOn (hsound : IsSound p) (hin : IsInOrder p)
    (htask : p.task = .handing id last last false cursors) :
    IsInOrder { p with task := .polling cursors } := by
  obtain ⟨-, -, open', hopen', hid, hresume⟩ := hin.handing _ _ _ _ _ htask
  have hlast : p.resume open' = last :=
    (hresume rfl).elim (fun hiterator => resume_of_iterator hiterator) And.right
  refine ⟨hin.handedKnown, fun other hother ancestor hancestor =>
    isRead_mono (hin.ancestors other hother ancestor hancestor) (grows_refl _) rfl
      (List.Subset.refl _), fun other hother hopen =>
    isRead_mono (hin.closed other hother hopen) (grows_refl _) rfl (List.Subset.refl _),
    fun c hc => ?_, fun _ _ _ _ _ hhanding => (nomatch hhanding), rfl⟩
  have hplace := hin.cursors c hc
  have hsame : p.place c = p.resume c := by
    by_cases heq : c.shardId = id
    · obtain rfl := hsound.eq_of_shardId hc hopen' (heq.trans hid.symm)
      rw [place_of_handing htask heq, hlast]
    · exact place_of_handing_ne htask heq
  rw [hsame] at hplace
  exact inPlace_mono hplace (grows_refl _) rfl rfl

theorem isKept_endRecords (h : IsKept p) (htask : p.task = .handing id last last closed cursors) :
    IsKept (p.endRecords id closed cursors) := by
  have hstarting : ∀ {q : StreamConsumer}, q.startedWith = p.startedWith →
      q.startedWith = none → IsStarting q := by
    intro q hsame hnone
    have hstart := (h.isStarting (hsame.symm.trans hnone)).task
    rw [htask] at hstart
    cases hstart
  have hsound := h.isSound
  unfold endRecords
  cases closed with
  | true =>
    refine ⟨⟨hsound.isRooted, hsound.known, ?_, fun c hc => hsound.opened c (List.mem_filter.mp hc).1,
      fun _ hshard => (nomatch hshard)⟩, hstarting rfl,
      fun hstarted hstopped => isInOrder_close (h.isInOrder hstarted hstopped) htask⟩
    exact hsound.nodup.sublist (List.filter_sublist.map _)
  | false =>
    exact ⟨⟨hsound.isRooted, hsound.known, hsound.nodup, hsound.opened,
      fun _ hshard => (nomatch hshard)⟩, hstarting rfl,
      fun hstarted hstopped => isInOrder_goOn hsound (h.isInOrder hstarted hstopped) htask⟩

/-- A record is handed over at the place of its cursor, which goes on by one. -/
theorem isKept_handRecord (h : IsKept p) (htask : p.task = .handing id next last closed cursors)
    (hne : next ≠ last) :
    IsKept { p.handRecord id next with task := .handing id (next + 1) last closed cursors } := by
  have hchanges : ChangesCursor p
      { p.handRecord id next with task := .handing id (next + 1) last closed cursors } id
      fun c => { c with sequenceNumber := some next } :=
    ⟨rfl, rfl, rfl, rfl, fun _ hid => hid⟩
  refine h.of_changes hchanges (by rw [htask]; rfl) rfl rfl fun _ hin => ?_
  obtain ⟨hle, ⟨shard, hget, hlast, hended⟩, open', hopen', hid, hresume⟩ :=
    hin.handing _ _ _ _ _ htask
  refine hchanges.isInOrder hin (List.subset_append_left _ _) (fun r hr => ?_) (fun c hc => ?_)
    (fun _ _ _ _ _ hhanding => ?_) rfl
  · rcases List.mem_append.mp hr with hr | hr
    · exact hin.handedKnown r hr
    · rw [List.mem_singleton.mp hr, ← hid]
      exact h.isSound.opened open' hopen'
  · have hplace := hin.cursors c hc
    split
    · rename_i hsame
      rw [place_of_handing htask hsame] at hplace
      rw [place_of_handing (p := { p.handRecord id next with
        task := .handing id (next + 1) last closed cursors })
        (c := { c with sequenceNumber := some next }) rfl hsame]
      refine ⟨fun j hj hlt => ?_, fun j hj => ?_, fun n hn => ?_, fun hnone => (nomatch hnone),
        ⟨shard, hsame ▸ hget, by omega⟩⟩
      · rcases Nat.lt_succ_iff_lt_or_eq.mp hlt with hlt | rfl
        · exact List.mem_append_left _ (hplace.upTo j hj hlt)
        · exact List.mem_append_right _ (List.mem_singleton.mpr (by rw [← hsame]))
      · rcases List.mem_append.mp hj with hj | hj
        · exact Nat.lt_succ_of_lt (hplace.below j hj)
        · obtain ⟨-, rfl⟩ := Prod.mk.inj (List.mem_singleton.mp hj)
          exact Nat.lt_succ_self _
      · exact congrArg (· + 1) (Option.some.inj hn)
    · rename_i hother
      rw [place_of_handing_ne htask hother] at hplace
      rw [place_of_handing_ne (p := { p.handRecord id next with
        task := .handing id (next + 1) last closed cursors }) rfl hother]
      refine ⟨fun j hj hlt => List.mem_append_left _ (hplace.upTo j hj hlt), fun j hj => ?_,
        hplace.sequence, hplace.first, hplace.within⟩
      rcases List.mem_append.mp hj with hj | hj
      · exact hplace.below j hj
      · exact absurd (Prod.mk.inj (List.mem_singleton.mp hj)).1 hother
  · obtain ⟨rfl, rfl, rfl, rfl, rfl⟩ := Task.handing.inj hhanding
    refine ⟨by omega, ⟨shard, hget, hlast, hended⟩, { open' with sequenceNumber := some next },
      List.mem_map.mpr ⟨open', hopen', if_pos hid⟩, hid, fun hclosed => ?_⟩
    exact .inl ((hresume hclosed).resolve_right fun hlast => hne hlast.1)

end

end Ez4.Dynamo.Stream
