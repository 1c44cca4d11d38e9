import Ez4.Dynamo.Upsert

/-! # What an upsert reports

Whatever other writers do between its requests, an upsert reports what it did,
if and only if its second update finds an item to change. When that item does
not match the filters, or is gone again, nothing was written and
`{ inserted: false }` is returned all the same. -/
namespace Ez4.Dynamo.Upsert
open Ez4.Library

variable {K I R V : Type} [DecidableEq K] {query : UpsertOneInput K I R V}

/-- What the call knows at each stage. -/
def Known (query : UpsertOneInput K I R V) (s : State K I R) : Prop :=
  match s.stage with
  | .insertOnly => s.log = [] ∧ query.hasUpdateData = false
  | .firstUpdate => s.log = []
  | .insert => s.log = []
  | .secondUpdate => ∃ key item other, query.insertStatement = some (key, item) ∧
    s.log = [.found key other]
  | _ => True

theorem known_start (query : UpsertOneInput K I R V) (table : K → Option I) :
    Known query (upsertOne query table).init := by
  show Known query { table, stage := query.start }
  unfold UpsertOneInput.start
  by_cases h : (query.select.isNone && !query.hasUpdateData) = true
  · rw [if_pos h]
    rw [Bool.and_eq_true, Bool.not_eq_true'] at h
    exact ⟨rfl, h.2⟩
  · rw [if_neg h]
    exact rfl

theorem truthful_start (query : UpsertOneInput K I R V) (table : K → Option I) :
    Truthful query (upsertOne query table).init := by
  show Truthful query { table, stage := query.start }
  unfold UpsertOneInput.start
  split <;> trivial

/-! ## One request -/

/-- What one insert does. -/
inductive Inserting (query : UpsertOneInput K I R V) (s : State K I R) :
    Option Bool × State K I R → Prop
  | thrown : Inserting query s (none, s)
  | inserted {key : K} {item : I} : query.insertStatement = some (key, item) →
    Inserting query s (some true,
      { s with table := put s.table key (some item), log := s.log ++ [.inserted key item] })
  | duplicate {key : K} {item other : I} : query.insertStatement = some (key, item) →
    Inserting query s (some false, { s with log := s.log ++ [.found key other] })

theorem tryInsertOne_inserting (query : UpsertOneInput K I R V) (s : State K I R) :
    Inserting query s (tryInsertOne query s) := by
  unfold tryInsertOne
  cases hstatement : query.insertStatement with
  | none => exact .thrown
  | some statement =>
    obtain ⟨key, item⟩ := statement
    dsimp only
    cases s.table key with
    | none => exact .inserted hstatement
    | some other => exact .duplicate hstatement

/-- What one update does. -/
inductive Updating (query : UpsertOneInput K I R V) (s : State K I R) :
    Option (Option (Option R)) × State K I R → Prop
  | thrown : query.updateStatement = none → Updating query s (none, s)
  | missed {statement : UpdateStatement K I} : query.updateStatement = some statement →
    (¬ ∃ item, s.table statement.key = some item ∧ statement.matching item = true) →
      Updating query s (some none, s)
  | updated {statement : UpdateStatement K I} {item current : I} {record : Option R} :
    query.updateStatement = some statement → s.table statement.key = some item →
      statement.matching item = true → Updating query s (some (some record),
        { s with
          table := put s.table statement.key (some current)
          log := s.log ++ [.updated statement.key item] })

theorem tryUpdateOne_updating (query : UpsertOneInput K I R V) (s : State K I R) :
    Updating query s (tryUpdateOne query s) := by
  unfold tryUpdateOne
  cases hstatement : query.updateStatement with
  | none => exact .thrown hstatement
  | some statement =>
    dsimp only
    cases htable : s.table statement.key with
    | none => exact .missed hstatement (by simp [htable])
    | some item =>
      dsimp only
      by_cases hmatch : statement.matching item = true
      · rw [if_pos hmatch]
        exact .updated hstatement htable hmatch
      · rw [if_neg hmatch]
        exact .missed hstatement (by simp [htable, hmatch])

/-- The stage after the answer of each request. -/
def answered (query : UpsertOneInput K I R V) (s : State K I R) : State K I R :=
  match s.stage with
  | .insertOnly =>
    { (tryInsertOne query s).2 with stage := match (tryInsertOne query s).1 with
      | none => .thrown
      | some inserted => .returned { inserted } }
  | .firstUpdate =>
    { (tryUpdateOne query s).2 with stage := match (tryUpdateOne query s).1 with
      | none => .thrown
      | some none => .insert
      | some (some record) => .returned { inserted := false, record } }
  | .insert =>
    { (tryInsertOne query s).2 with stage := match (tryInsertOne query s).1 with
      | none => .thrown
      | some true =>
        .returned { inserted := true, record := query.select.map fun _ => query.insertRecord }
      | some false => .secondUpdate }
  | .secondUpdate =>
    { (tryUpdateOne query s).2 with stage := match (tryUpdateOne query s).1 with
      | none => .thrown
      | some updated => .returned { inserted := false, record := updated.join } }
  | _ => s

theorem eq_answered {s t : State K I R} (h : request query s = some t) : t = answered query s := by
  unfold request at h
  unfold answered
  cases hs : s.stage with
  | returned result => rw [hs] at h; exact absurd h (by simp)
  | thrown => rw [hs] at h; exact absurd h (by simp)
  | _ => rw [hs] at h; exact (Option.some.inj h).symm

theorem answered_insertOnly {s : State K I R} (hs : s.stage = .insertOnly)
    (hknown : Known query s) : Known query (answered query s) ∧ Truthful query (answered query s) := by
  rw [Known, hs] at hknown
  have hi := tryInsertOne_inserting query s
  unfold answered
  rw [hs]
  dsimp only
  generalize tryInsertOne query s = result at hi ⊢
  cases hi with
  | thrown => exact ⟨trivial, trivial⟩
  | inserted hstatement =>
    exact ⟨trivial, _, _, hstatement, List.mem_append_right _ List.mem_cons_self⟩
  | duplicate hstatement =>
    exact ⟨trivial, .inr ⟨hknown.2, _, _, _, hstatement,
      List.mem_append_right _ List.mem_cons_self⟩⟩

theorem answered_firstUpdate {s : State K I R} (hs : s.stage = .firstUpdate)
    (hknown : Known query s) : Known query (answered query s) ∧ Truthful query (answered query s) := by
  rw [Known, hs] at hknown
  have hu := tryUpdateOne_updating query s
  unfold answered
  rw [hs]
  dsimp only
  generalize tryUpdateOne query s = result at hu ⊢
  cases hu with
  | thrown hstatement => exact ⟨trivial, trivial⟩
  | missed hstatement hno => exact ⟨hknown, trivial⟩
  | updated hstatement htable hmatch =>
    exact ⟨trivial, .inl ⟨_, _, hstatement, hmatch, List.mem_append_right _ List.mem_cons_self⟩⟩

theorem answered_insert {s : State K I R} (hs : s.stage = .insert)
    (hknown : Known query s) : Known query (answered query s) ∧ Truthful query (answered query s) := by
  rw [Known, hs] at hknown
  have hi := tryInsertOne_inserting query s
  unfold answered
  rw [hs]
  dsimp only
  generalize tryInsertOne query s = result at hi ⊢
  cases hi with
  | thrown => exact ⟨trivial, trivial⟩
  | inserted hstatement =>
    exact ⟨trivial, _, _, hstatement, List.mem_append_right _ List.mem_cons_self⟩
  | duplicate hstatement => exact ⟨⟨_, _, _, hstatement, by rw [hknown]; rfl⟩, trivial⟩

/-- The second update is reported whether it was made or not. -/
theorem answered_secondUpdate {s : State K I R} (hs : s.stage = .secondUpdate)
    (hknown : Known query s) : Known query (answered query s) ∧
      (Truthful query (answered query s) ↔ SecondUpdateMatches query s .request) := by
  rw [Known, hs] at hknown
  obtain ⟨key, item, other, hinsert, hlog⟩ := hknown
  have hu := tryUpdateOne_updating query s
  unfold answered SecondUpdateMatches
  rw [hs]
  simp only [forall_const]
  generalize tryUpdateOne query s = result at hu ⊢
  cases hu with
  | thrown hstatement =>
    refine ⟨trivial, iff_of_true trivial fun _ statement h => ?_⟩
    rw [hstatement] at h
    exact absurd h (by simp)
  | @missed statement hstatement hno =>
    refine ⟨trivial, ?_⟩
    constructor
    · -- nothing was updated, so there was nothing to update
      rintro (⟨_, _, _, _, hmem⟩ | ⟨hnone, -⟩) hdata
      · rw [hlog, List.mem_singleton] at hmem
        exact absurd hmem (by simp)
      · exact absurd (hnone.symm.trans hdata) (by simp)
    · intro hall
      refine .inr ⟨?_, key, item, other, hinsert, hlog ▸ List.mem_cons_self⟩
      by_contra hdata
      exact hno (hall (by simpa using hdata) statement hstatement)
  | @updated statement current _ record hstatement htable hmatch =>
    refine ⟨trivial, iff_of_true (.inl ⟨statement, current, hstatement, hmatch,
      List.mem_append_right _ List.mem_cons_self⟩) fun _ statement' heq => ?_⟩
    obtain rfl := Option.some.inj (hstatement.symm.trans heq)
    exact ⟨current, htable, hmatch⟩

/-! ## One action -/

theorem known_step {s t : State K I R} {action : Action K I} (hknown : Known query s)
    (h : step query s action = some t) : Known query t := by
  cases action with
  | request =>
    have heq := eq_answered h
    cases hs : s.stage with
    | insertOnly => exact heq ▸ (answered_insertOnly hs hknown).1
    | firstUpdate => exact heq ▸ (answered_firstUpdate hs hknown).1
    | insert => exact heq ▸ (answered_insert hs hknown).1
    | secondUpdate => exact heq ▸ (answered_secondUpdate hs hknown).1
    | returned result =>
      rw [step, request, hs] at h
      exact absurd h (by simp)
    | thrown =>
      rw [step, request, hs] at h
      exact absurd h (by simp)
  | fail applied =>
    obtain ⟨u, -, rfl⟩ := Option.map_eq_some_iff.mp h
    trivial
  | write key item =>
    obtain rfl := Option.some.inj h
    exact hknown

/-- A step keeps what is reported true exactly when it meets the condition. -/
theorem truthful_step {s t : State K I R} {action : Action K I} (hknown : Known query s)
    (h : step query s action = some t) :
    Truthful query t ↔ Truthful query s ∧ SecondUpdateMatches query s action := by
  cases action with
  | request =>
    have heq := eq_answered h
    have hfirst : ∀ stage, s.stage = stage → stage ≠ .secondUpdate → Truthful query s →
        Truthful query t → (Truthful query t ↔
          Truthful query s ∧ SecondUpdateMatches query s .request) := by
      intro stage hs hne hbefore hafter
      exact iff_of_true hafter ⟨hbefore, fun hsecond => absurd (hs.symm.trans hsecond) hne⟩
    have hsilent : (∀ result, s.stage ≠ .returned result) → Truthful query s := by
      intro hnot
      unfold Truthful
      split
      · exact absurd ‹_› (hnot _)
      · trivial
    cases hs : s.stage with
    | insertOnly =>
      exact hfirst _ hs (by simp) (hsilent (by simp [hs])) (heq ▸ (answered_insertOnly hs hknown).2)
    | firstUpdate =>
      exact hfirst _ hs (by simp) (hsilent (by simp [hs])) (heq ▸ (answered_firstUpdate hs hknown).2)
    | insert =>
      exact hfirst _ hs (by simp) (hsilent (by simp [hs])) (heq ▸ (answered_insert hs hknown).2)
    | secondUpdate =>
      rw [heq, (answered_secondUpdate hs hknown).2, and_iff_right (hsilent (by simp [hs]))]
    | returned result =>
      rw [step, request, hs] at h
      exact absurd h (by simp)
    | thrown =>
      rw [step, request, hs] at h
      exact absurd h (by simp)
  | fail applied =>
    obtain ⟨u, hrequest, rfl⟩ := Option.map_eq_some_iff.mp h
    have hbefore : Truthful query s := by
      unfold Truthful
      cases hs : s.stage <;> try trivial
      rw [request, hs] at hrequest
      exact absurd hrequest (by simp)
    exact iff_of_true trivial ⟨hbefore, trivial⟩
  | write key item =>
    obtain rfl := Option.some.inj h
    exact (and_iff_left trivial).symm

/-- **An upsert reports what it did** if and only if its second update, when it
is sent, finds an item that matches (or has nothing to update), whatever other
writers do. -/
theorem truthful_iff (query : UpsertOneInput K I R V) (table : K → Option I)
    (actions : List (Action K I)) (s : State K I R)
    (h : (upsertOne query table).run actions (upsertOne query table).init = some s) :
    Truthful query s ↔
      (upsertOne query table).Meets (SecondUpdateMatches query) actions
        (upsertOne query table).init := by
  rw [Machine.run_iff_meets (I := Known query) (fun _ _ _ => known_step)
    (fun _ _ _ => truthful_step) (known_start query table) h,
    and_iff_right (truthful_start query table)]

namespace Sample

/-- `{ insert: { id: 'abc', … }, update: { foo: 2 }, where: { id: 'abc', version: 1 } }`,
for items of a version and a `foo`. -/
def versioned : UpsertOneInput String (Nat × Nat) Nat Nat where
  update := [("foo", some 2)]
  insertRecord := 0
  insertStatement := some ("abc", (1, 0))
  updateStatement := some
    { key := "abc", matching := fun item => item.1 == 1, change := fun item => (item.1, 2) }

/-- Another writer inserts the item in between. -/
def raced : List (Action String (Nat × Nat)) :=
  [.request, .write "abc" (some (1, 7)), .request, .request]

/-- The item of the other writer is updated. -/
theorem updated_reported : ∃ s,
    (upsertOne versioned fun _ => none).run raced (upsertOne versioned fun _ => none).init =
        some s ∧
      s.stage = .returned { inserted := false } ∧ s.table "abc" = some (1, 2) ∧
        Truthful versioned s := by
  refine ⟨_, rfl, rfl, rfl, (truthful_iff versioned (fun _ => none) raced _ rfl).mpr ?_⟩
  refine ⟨fun h => absurd h (by decide), trivial, fun h => absurd h (by decide), ?_, trivial⟩
  intro _ _ statement hstatement
  obtain rfl := Option.some.inj hstatement
  exact ⟨(1, 7), rfl, rfl⟩

/-- The item is there and does not match: nothing is written, and no error tells. -/
theorem not_updated_reported : ∃ s,
    (upsertOne versioned fun _ => some (2, 7)).run [.request, .request, .request]
        (upsertOne versioned fun _ => some (2, 7)).init = some s ∧
      s.stage = .returned { inserted := false } ∧ s.log = [.found "abc" (2, 7)] ∧
        s.table = (fun _ => some (2, 7)) ∧ versioned.hasUpdateData = true ∧ ¬ Truthful versioned s := by
  refine ⟨_, rfl, rfl, rfl, rfl, rfl, ?_⟩
  rintro (⟨statement, item, _, _, hmem⟩ | ⟨hnone, -⟩)
  · have hmem' : Entry.updated statement.key item ∈ [Entry.found "abc" (2, 7)] := hmem
    exact absurd (List.mem_singleton.mp hmem') (by simp)
  · exact absurd hnone (by decide)

end Sample

end Ez4.Dynamo.Upsert
