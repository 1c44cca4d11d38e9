import Ez4.Dynamo.StreamConsumer

/-! # How the shards grow

A shard keeps its parent, and its records once it ended. So the ancestors of
a shard, which all ended before it was made, are the same from then on. -/
namespace Ez4.Dynamo.Stream
open Ez4.Library

variable {shards before after : Shards} {id other : ShardId} {shard : Shard}

theorem id_of_get (h : shards.get id = some shard) : shard.id = id := by
  simpa using List.find?_some h

theorem get_modify (shards : Shards) (id : ShardId) {f : Shard → Shard} (hid : ∀ s, (f s).id = s.id)
    (other : ShardId) : (shards.modify id f).get other =
      (shards.get other).map fun shard => if other = id then f shard else shard := by
  induction shards with
  | nil => rfl
  | cons shard rest ih =>
    have hhead : (if shard.id = id then f shard else shard).id = shard.id := by
      split
      · exact hid shard
      · rfl
    have hcons : Shards.modify (shard :: rest) id f =
        (if shard.id = id then f shard else shard) :: Shards.modify rest id f := rfl
    rw [hcons, Shards.get, Shards.get, List.find?_cons, List.find?_cons, hhead]
    by_cases hsame : shard.id = other
    · simp [hsame]
    · simpa [Shards.get, hsame] using ih

theorem records_modify {f : Shard → Shard} (hid : ∀ s, (f s).id = s.id)
    (h : other ≠ id ∨ ∀ s, (f s).records = s.records) :
    ((shards.modify id f).get other).map (·.records) = (shards.get other).map (·.records) := by
  rw [get_modify shards id hid, Option.map_map]
  refine congrArg (Option.map · _) (funext fun shard => ?_)
  dsimp only [Function.comp_apply]
  split
  · rename_i hsame
    exact h.resolve_left (fun hne => hne hsame) shard
  · rfl

theorem get_append (shards : Shards) (shard : Shard) (other : ShardId) :
    Shards.get (shards ++ [shard]) other =
      (shards.get other <|> if shard.id = other then some shard else none) := by
  rw [Shards.get, Shards.get, List.find?_append]
  cases shards.find? (·.id = other) with
  | some found => rfl
  | none =>
    by_cases hsame : shard.id = other
    · simp [hsame]
    · simp [hsame]

/-- What a shard may become. -/
structure Shard.Becomes (shard now : Shard) : Prop where
  parent : now.parent = shard.parent
  records : shard.records ≤ now.records
  ended : shard.ended = true → now.ended = true ∧ now.records = shard.records

/-- Every shard is still there. -/
def Grows (before after : Shards) : Prop :=
  ∀ id shard, before.get id = some shard → ∃ now, after.get id = some now ∧ shard.Becomes now

theorem grows_refl (shards : Shards) : Grows shards shards :=
  fun _ shard h => ⟨shard, h, rfl, Nat.le_refl _, fun h => ⟨h, rfl⟩⟩

/-- Every parent is a shard that ended. -/
def IsRooted (shards : Shards) : Prop :=
  ∀ id shard parent, shards.get id = some shard → shard.parent = some parent →
    ∃ above, shards.get parent = some above ∧ above.ended = true

inductive IsAncestor (shards : Shards) (ancestor : ShardId) : ShardId → Prop
  | parent {id : ShardId} {shard : Shard} : shards.get id = some shard →
    shard.parent = some ancestor → IsAncestor shards ancestor id
  | above {id parent : ShardId} {shard : Shard} : shards.get id = some shard →
    shard.parent = some parent → IsAncestor shards ancestor parent → IsAncestor shards ancestor id

/-- An ancestor is a shard that ended. -/
theorem IsAncestor.ended {ancestor : ShardId} (hrooted : IsRooted shards)
    (h : IsAncestor shards ancestor id) :
    ∃ above, shards.get ancestor = some above ∧ above.ended = true := by
  induction h with
  | parent hget hparent => exact hrooted _ _ _ hget hparent
  | above _ _ _ ih => exact ih

theorem IsAncestor.of_parent {ancestor parent : ShardId} (h : IsAncestor shards ancestor id)
    (hget : shards.get id = some shard) (hparent : shard.parent = some parent) :
    ancestor = parent ∨ IsAncestor shards ancestor parent := by
  cases h with
  | parent hget' hparent' =>
    obtain rfl := Option.some.inj (hget.symm.trans hget')
    exact .inl (Option.some.inj (hparent'.symm.trans hparent))
  | above hget' hparent' hrest =>
    obtain rfl := Option.some.inj (hget.symm.trans hget')
    exact .inr (Option.some.inj (hparent'.symm.trans hparent) ▸ hrest)

/-- The ancestors of a shard that is there stay the same. -/
theorem IsAncestor.of_grows {ancestor : ShardId} (hgrows : Grows before after)
    (hrooted : IsRooted before) (hthere : (before.get id).isSome = true)
    (h : IsAncestor after ancestor id) : IsAncestor before ancestor id := by
  induction h with
  | parent hget hparent =>
    obtain ⟨old, hold⟩ := Option.isSome_iff_exists.mp hthere
    obtain ⟨now, hnow, hbecomes⟩ := hgrows _ _ hold
    obtain rfl := Option.some.inj (hnow.symm.trans hget)
    exact .parent hold (hbecomes.parent.symm.trans hparent)
  | above hget hparent _ ih =>
    obtain ⟨old, hold⟩ := Option.isSome_iff_exists.mp hthere
    obtain ⟨now, hnow, hbecomes⟩ := hgrows _ _ hold
    obtain rfl := Option.some.inj (hnow.symm.trans hget)
    have hparent := hbecomes.parent.symm.trans hparent
    obtain ⟨above, habove, -⟩ := hrooted _ _ _ hold hparent
    exact .above hold hparent (ih (Option.isSome_iff_exists.mpr ⟨above, habove⟩))

/-! ## What the surroundings do -/

theorem get_addShard {parent : Option ShardId} (h : before.addShard id parent = some after) :
    before.get id = none ∧
      (∀ above, parent = some above → ∃ shard, before.get above = some shard ∧ shard.ended = true) ∧
      ∀ other, after.get other =
        if other = id then some { id := id, parent := parent } else before.get other := by
  unfold Shards.addShard at h
  split at h
  · cases h
  · rename_i hnone
    split at h
    · rename_i hparent
      obtain rfl := Option.some.inj h
      have hnone : before.get id = none := by simpa using hnone
      refine ⟨hnone, fun above habove => ?_, fun other => ?_⟩
      · rw [habove] at hparent
        simpa [Option.any_eq_true] using hparent
      · rw [get_append]
        by_cases hsame : other = id
        · rw [if_pos hsame, hsame, hnone]
          simp
        · rw [if_neg hsame]
          simp [Ne.symm hsame]
    · cases h

theorem grows_addShard {parent : Option ShardId} (h : before.addShard id parent = some after) :
    Grows before after := by
  obtain ⟨hnone, -, hget⟩ := get_addShard h
  intro other shard hother
  have hne : other ≠ id := by
    rintro rfl
    rw [hnone] at hother
    cases hother
  refine ⟨shard, ?_, rfl, Nat.le_refl _, fun h => ⟨h, rfl⟩⟩
  rw [hget, if_neg hne]
  exact hother

theorem isRooted_addShard {parent : Option ShardId} (hrooted : IsRooted before)
    (h : before.addShard id parent = some after) : IsRooted after := by
  obtain ⟨hnone, hparent, hget⟩ := get_addShard h
  have hkeeps : ∀ other shard, before.get other = some shard → after.get other = some shard := by
    intro other shard hother
    have hne : other ≠ id := by
      rintro rfl
      rw [hnone] at hother
      cases hother
    rw [hget, if_neg hne]
    exact hother
  intro other shard above hother habove
  rw [hget] at hother
  split at hother
  · obtain rfl := Option.some.inj hother
    obtain ⟨found, hfound, hended⟩ := hparent above habove
    exact ⟨found, hkeeps above found hfound, hended⟩
  · obtain ⟨found, hfound, hended⟩ := hrooted other shard above hother habove
    exact ⟨found, hkeeps above found hfound, hended⟩

theorem grows_modify {f : Shard → Shard} (hid : ∀ s, (f s).id = s.id)
    (hbecomes : ∀ shard, before.get id = some shard → shard.Becomes (f shard)) :
    Grows before (before.modify id f) := by
  intro other shard hother
  refine ⟨_, by rw [get_modify before id hid, hother]; rfl, ?_⟩
  split
  · rename_i hsame
    exact hbecomes shard (hsame ▸ hother)
  · exact ⟨rfl, Nat.le_refl _, fun h => ⟨h, rfl⟩⟩

theorem isRooted_modify {f : Shard → Shard} (hrooted : IsRooted before) (hid : ∀ s, (f s).id = s.id)
    (hbecomes : ∀ shard, before.get id = some shard → shard.Becomes (f shard)) :
    IsRooted (before.modify id f) := by
  have hgrows := grows_modify hid hbecomes
  intro other shard above hother habove
  rw [get_modify before id hid] at hother
  obtain ⟨old, hold, rfl⟩ := Option.map_eq_some_iff.mp hother
  obtain ⟨now, hnow, hbecomes'⟩ := hgrows other old hold
  have hsame : now = if other = id then f old else old := by
    rw [get_modify before id hid, hold] at hnow
    exact (Option.some.inj hnow).symm
  have hparent : old.parent = some above := by
    rw [← hbecomes'.parent, hsame]
    exact habove
  obtain ⟨found, hfound, hended⟩ := hrooted other old above hold hparent
  obtain ⟨now', hnow', hafter⟩ := hgrows above found hfound
  exact ⟨now', hnow', (hafter.ended hended).1⟩

theorem appendRecord_eq (h : before.appendRecord id = some after) :
    ∃ shard, before.get id = some shard ∧ shard.ended = false ∧
      after = before.modify id fun shard => { shard with records := shard.records + 1 } := by
  unfold Shards.appendRecord at h
  split at h
  · rename_i shard hshard
    split at h
    · cases h
    · rename_i hopen
      exact ⟨shard, hshard, eq_false_of_ne_true hopen, (Option.some.inj h).symm⟩
  · cases h

theorem endShard_eq (h : before.endShard id = some after) :
    after = before.modify id fun shard => { shard with ended := true } := by
  unfold Shards.endShard at h
  split at h
  · exact (Option.some.inj h).symm
  · cases h

theorem becomes_append {shard : Shard} (h : shard.ended = false) :
    shard.Becomes { shard with records := shard.records + 1 } :=
  ⟨rfl, Nat.le_succ _, fun hended => absurd (hended.symm.trans h) (by decide)⟩

theorem becomes_end (shard : Shard) : shard.Becomes { shard with ended := true } :=
  ⟨rfl, Nat.le_refl _, fun _ => ⟨rfl, rfl⟩⟩

/-- An event of the surroundings. -/
structure Evolves (before after : Shards) : Prop where
  grows : Grows before after
  isRooted : IsRooted before → IsRooted after

theorem evolves_addShard {parent : Option ShardId} (h : before.addShard id parent = some after) :
    Evolves before after := ⟨grows_addShard h, fun hrooted => isRooted_addShard hrooted h⟩

theorem evolves_appendRecord (h : before.appendRecord id = some after) : Evolves before after := by
  obtain ⟨shard, hshard, hopen, rfl⟩ := appendRecord_eq h
  have hbecomes : ∀ s, before.get id = some s → s.Becomes { s with records := s.records + 1 } := by
    intro s hs
    obtain rfl := Option.some.inj (hshard.symm.trans hs)
    exact becomes_append hopen
  exact ⟨grows_modify (fun _ => rfl) hbecomes,
    fun hrooted => isRooted_modify hrooted (fun _ => rfl) hbecomes⟩

theorem evolves_endShard (h : before.endShard id = some after) : Evolves before after := by
  obtain rfl := endShard_eq h
  exact ⟨grows_modify (fun _ => rfl) fun s _ => becomes_end s,
    fun hrooted => isRooted_modify hrooted (fun _ => rfl) fun s _ => becomes_end s⟩

end Ez4.Dynamo.Stream
