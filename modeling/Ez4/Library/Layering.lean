import Mathlib.Data.List.Nodup
import Mathlib.Data.Set.Finite.Basic
import Mathlib.Data.Fintype.Card
import Mathlib.Logic.Relation

/-! # Layers of a dependency graph

Items with keys, each needing some keys. `layers` takes round after round all
the items whose needs are met, until a round finds none. What the rounds reach
is the least set closed under "all needs met" (`Grounded`), so they reach
everything exactly when the needs resolve and have no cycle. -/

namespace Ez4.Library.Layering

section
variable {α κ : Type} (key : α → κ) (needs : α → List κ)

/-- Some item with key `x` needs `y`. -/
def Needs (items : List α) (x y : κ) : Prop := ∃ a ∈ items, key a = x ∧ y ∈ needs a

/-- Every need is the key of an item. -/
def Resolved (items : List α) : Prop := ∀ a ∈ items, ∀ k ∈ needs a, k ∈ items.map key

/-- No key needs itself, directly or not. -/
def Acyclic (items : List α) : Prop := ∀ x, ¬ Relation.TransGen (Needs key needs items) x x

/-- The keys whose needs bottom out: the least set holding the key of every
item all of whose needs it holds. -/
inductive Grounded (items : List α) : κ → Prop
  | intro {a : α} (ha : a ∈ items) (h : ∀ k ∈ needs a, Grounded items k) : Grounded items (key a)

end

section
variable {α κ : Type} {key : α → κ} {needs : α → List κ} {items : List α}

theorem Grounded.mem {k : κ} (h : Grounded key needs items k) : k ∈ items.map key := by
  cases h with
  | intro ha _ => exact List.mem_map_of_mem ha

theorem Grounded.acc (hn : (items.map key).Nodup) {k : κ} (h : Grounded key needs items k) :
    Acc (fun y x => Needs key needs items x y) k := by
  induction h with
  | intro ha _ ih =>
    refine ⟨_, ?_⟩
    rintro y ⟨b, hb, hkey, hy⟩
    rw [List.inj_on_of_nodup_map hn hb ha hkey] at hy
    exact ih y hy

theorem not_transGen_of_acc {r : κ → κ → Prop} {x : κ} (h : Acc (fun y x => r x y) x) :
    ¬ Relation.TransGen r x x := by
  have hacc : Acc (Relation.TransGen fun y x => r x y) x := h.transGen
  induction hacc with
  | intro x _ ih =>
    intro hx
    have hx' : Relation.TransGen (fun y x => r x y) x x := Relation.transGen_swap.mp hx
    exact ih x hx' (h.inv_of_transGen hx') hx

/-- Grounded keys are on no cycle. -/
theorem acyclic_of_grounded (hn : (items.map key).Nodup)
    (h : ∀ a ∈ items, Grounded key needs items (key a)) : Acyclic key needs items := by
  intro x hx
  obtain ⟨y, ⟨a, ha, rfl, _⟩, _⟩ := Relation.TransGen.head'_iff.mp hx
  exact not_transGen_of_acc ((h a ha).acc hn) hx

theorem resolved_of_grounded (hn : (items.map key).Nodup)
    (h : ∀ a ∈ items, Grounded key needs items (key a)) : Resolved key needs items := by
  intro a ha k hk
  have hg := h a ha
  generalize hx : key a = x at hg
  cases hg with
  | @intro b hb hneeds =>
    rw [List.inj_on_of_nodup_map hn ha hb hx] at hk
    exact (hneeds k hk).mem

/-- Needs that resolve and have no cycle bottom out. -/
theorem grounded_of_acyclic [DecidableEq κ] (hr : Resolved key needs items)
    (hc : Acyclic key needs items) : ∀ a ∈ items, Grounded key needs items (key a) := by
  let Key := { k : κ // k ∈ items.map key }
  let below : Key → Key → Prop := fun y x => Relation.TransGen (Needs key needs items) x.1 y.1
  have : IsTrans Key below := ⟨fun _ _ _ hab hbc => hbc.trans hab⟩
  have : Std.Irrefl below := ⟨fun x hx => hc x.1 hx⟩
  have : Finite Key := (List.finite_toSet (items.map key)).to_subtype
  have hwf : WellFounded below := Finite.wellFounded_of_trans_of_irrefl below
  have hall : ∀ x : Key, Grounded key needs items x.1 := by
    intro x
    induction x using hwf.induction with
    | _ x ih =>
      obtain ⟨a, ha, hax⟩ := List.mem_map.mp x.2
      rw [← hax]
      refine .intro ha fun k hk => ?_
      exact ih ⟨k, hr a ha k hk⟩ (.single ⟨a, ha, hax, hk⟩)
  exact fun a ha => hall ⟨key a, List.mem_map_of_mem ha⟩

/-- Everything is grounded exactly when the needs resolve without a cycle. -/
theorem all_grounded_iff [DecidableEq κ] (hn : (items.map key).Nodup) :
    (∀ a ∈ items, Grounded key needs items (key a)) ↔
      Resolved key needs items ∧ Acyclic key needs items :=
  ⟨fun h => ⟨resolved_of_grounded hn h, acyclic_of_grounded hn h⟩,
    fun h => grounded_of_acyclic h.1 h.2⟩

end

/-! ## The rounds -/

section
variable {α κ : Type} [DecidableEq κ] (key : α → κ) (needs : α → List κ)

/-- The items not visited yet whose needs all are. -/
def ready (items : List α) (visited : List κ) : List α :=
  items.filter fun a => !visited.contains (key a) && (needs a).all fun k => visited.contains k

/-- Rounds of ready items, each visited before the next round. -/
def layers (items : List α) : Nat → List κ → List (List α)
  | 0, _ => []
  | fuel + 1, visited =>
    let layer := ready key needs items visited
    if layer.isEmpty then [] else layer :: layers items fuel (visited ++ layer.map key)

end

section
variable {α κ : Type} [DecidableEq κ] {key : α → κ} {needs : α → List κ} {items : List α}

theorem mem_ready {visited : List κ} {a : α} :
    a ∈ ready key needs items visited ↔
      a ∈ items ∧ key a ∉ visited ∧ ∀ k ∈ needs a, k ∈ visited := by
  simp [ready]

theorem layers_succ {fuel : Nat} {visited : List κ} :
    layers key needs items (fuel + 1) visited =
      if (ready key needs items visited).isEmpty then []
      else ready key needs items visited ::
        layers key needs items fuel (visited ++ (ready key needs items visited).map key) := rfl

theorem layers_ne_nil {fuel : Nat} {visited : List κ} :
    ∀ layer ∈ layers key needs items fuel visited, layer ≠ [] := by
  induction fuel generalizing visited with
  | zero => simp [layers]
  | succ fuel ih =>
    rw [layers_succ]
    split
    · simp
    · rename_i hne
      intro layer hl
      rcases List.mem_cons.mp hl with rfl | hl
      · simpa using hne
      · exact ih layer hl

/-- Where an item of a layer comes from: it was not visited before, and each
of its needs was, or is the key of an item of an earlier layer. -/
theorem layers_get {fuel : Nat} {visited : List κ} {i : Nat} {layer : List α}
    (h : (layers key needs items fuel visited)[i]? = some layer) {a : α} (ha : a ∈ layer) :
    a ∈ items ∧ key a ∉ visited ∧
      ∀ k ∈ needs a, k ∈ visited ∨
        ∃ j < i, ∃ earlier, (layers key needs items fuel visited)[j]? = some earlier ∧
          ∃ b ∈ earlier, key b = k := by
  induction fuel generalizing visited i with
  | zero => simp [layers] at h
  | succ fuel ih =>
    rw [layers_succ] at h ⊢
    split at h
    · simp at h
    · rename_i hne
      rw [if_neg hne]
      cases i with
      | zero =>
        simp only [List.getElem?_cons_zero, Option.some.injEq] at h
        subst h
        obtain ⟨hi, hv, hneeds⟩ := mem_ready.mp ha
        exact ⟨hi, hv, fun k hk => .inl (hneeds k hk)⟩
      | succ i =>
        rw [List.getElem?_cons_succ] at h
        obtain ⟨hi, hv, hneeds⟩ := ih h
        rw [List.mem_append, not_or] at hv
        refine ⟨hi, hv.1, fun k hk => ?_⟩
        rcases hneeds k hk with hk | ⟨j, hj, earlier, he, hb⟩
        · rcases List.mem_append.mp hk with hk | hk
          · exact .inl hk
          · obtain ⟨b, hb, hbk⟩ := List.mem_map.mp hk
            exact .inr ⟨0, by omega, _, rfl, b, hb, hbk⟩
        · exact .inr ⟨j + 1, by omega, earlier, by simpa using he, hb⟩

/-- No key is taken twice. -/
theorem layers_nodup {fuel : Nat} {visited : List κ} (hn : (items.map key).Nodup) :
    ((layers key needs items fuel visited).flatten.map key).Nodup := by
  induction fuel generalizing visited with
  | zero => simp [layers]
  | succ fuel ih =>
    rw [layers_succ]
    split
    · simp
    · rw [List.flatten_cons, List.map_append, List.nodup_append]
      refine ⟨hn.sublist (List.filter_sublist.map key), ih, ?_⟩
      intro x hx y hy hxy
      subst hxy
      obtain ⟨a, ha, rfl⟩ := List.mem_map.mp hy
      obtain ⟨layer, hl, hal⟩ := List.mem_flatten.mp ha
      obtain ⟨i, hi⟩ := List.getElem?_of_mem hl
      exact (layers_get hi hal).2.1 (List.mem_append_right _ hx)

theorem count_ready_lt {visited : List κ} (h : ready key needs items visited ≠ []) :
    (items.filter fun a => !(visited ++ (ready key needs items visited).map key).contains
        (key a)).length <
      (items.filter fun a => !visited.contains (key a)).length := by
  obtain ⟨a, ha⟩ := List.exists_mem_of_ne_nil _ h
  obtain ⟨hi, hv, _⟩ := mem_ready.mp ha
  have hsub : (items.filter fun b =>
        !(visited ++ (ready key needs items visited).map key).contains (key b)) =
      (items.filter fun b => !visited.contains (key b)).filter fun b =>
        !((ready key needs items visited).map key).contains (key b) := by
    rw [List.filter_filter]
    apply List.filter_congr
    intro b _
    by_cases hb : key b ∈ visited <;>
      by_cases hr : key b ∈ (ready key needs items visited).map key <;> simp [hb, hr]
  rw [hsub]
  apply List.length_filter_lt_length_iff_exists.mpr
  refine ⟨a, List.mem_filter.mpr ⟨hi, by simpa using hv⟩, ?_⟩
  simpa using ⟨a, ha, rfl⟩

/-- With a round for each unvisited item, the rounds end because nothing is
ready any more. -/
theorem ready_layers {fuel : Nat} {visited : List κ}
    (hf : (items.filter fun a => !visited.contains (key a)).length ≤ fuel) :
    ready key needs items
      (visited ++ (layers key needs items fuel visited).flatten.map key) = [] := by
  induction fuel generalizing visited with
  | zero =>
    have hnone : items.filter (fun a => !visited.contains (key a)) = [] := by
      simpa using hf
    rw [List.eq_nil_iff_forall_not_mem]
    intro a ha
    obtain ⟨hi, hv, _⟩ := mem_ready.mp ha
    simp only [layers, List.flatten_nil, List.map_nil, List.append_nil] at hv
    have : a ∈ items.filter (fun a => !visited.contains (key a)) :=
      List.mem_filter.mpr ⟨hi, by simpa using hv⟩
    rw [hnone] at this; simp at this
  | succ fuel ih =>
    rw [layers_succ]
    split
    · rename_i he
      simpa using he
    · rename_i hne
      have hlt := count_ready_lt (by simpa using hne : ready key needs items visited ≠ [])
      have := @ih (visited ++ (ready key needs items visited).map key) (by omega)
      simpa [List.append_assoc] using this

/-- **The rounds reach exactly the grounded keys.** -/
theorem mem_layers_iff {fuel : Nat} (hf : items.length ≤ fuel) {k : κ} :
    k ∈ (layers key needs items fuel []).flatten.map key ↔ Grounded key needs items k := by
  constructor
  · intro hk
    obtain ⟨a, ha, rfl⟩ := List.mem_map.mp hk
    obtain ⟨layer, hl, hal⟩ := List.mem_flatten.mp ha
    obtain ⟨i, hi⟩ := List.getElem?_of_mem hl
    clear hk ha hl
    -- strong induction on the layer's position: the needs lie in earlier layers
    induction i using Nat.strongRecOn generalizing a layer with
    | _ i ih =>
      obtain ⟨hitem, _, hneeds⟩ := layers_get hi hal
      refine .intro hitem fun k hk => ?_
      rcases hneeds k hk with hk | ⟨j, hj, earlier, he, b, hb, rfl⟩
      · simp at hk
      · exact ih j hj b earlier hb he
  · intro hk
    have hend := @ready_layers _ _ _ key needs items fuel [] (by simpa using hf)
    rw [List.nil_append] at hend
    induction hk with
    | @intro a ha _ ih =>
      by_contra hnot
      have : a ∈ ready key needs items
          ((layers key needs items fuel []).flatten.map key) :=
        mem_ready.mpr ⟨ha, hnot, ih⟩
      rw [hend] at this; simp at this

/-- **The rounds take every item exactly when the needs resolve without a
cycle.** -/
theorem layers_complete_iff {fuel : Nat} (hf : items.length ≤ fuel)
    (hn : (items.map key).Nodup) :
    (layers key needs items fuel []).flatten.length = items.length ↔
      Resolved key needs items ∧ Acyclic key needs items := by
  have hsub : (layers key needs items fuel []).flatten.map key ⊆ items.map key := by
    intro k hk
    exact ((mem_layers_iff hf).mp hk).mem
  have hnodup := @layers_nodup _ _ _ key needs items fuel [] hn
  rw [← all_grounded_iff hn]
  constructor
  · intro hlen a ha
    have hperm : (layers key needs items fuel []).flatten.map key |>.Perm (items.map key) :=
      (hnodup.subperm hsub).perm_of_length_le (by rw [List.length_map, List.length_map, hlen])
    exact (mem_layers_iff hf).mp (hperm.symm.subset (List.mem_map_of_mem ha))
  · intro h
    have hsub' : items.map key ⊆ (layers key needs items fuel []).flatten.map key := by
      intro k hk
      obtain ⟨a, ha, rfl⟩ := List.mem_map.mp hk
      exact (mem_layers_iff hf).mpr (h a ha)
    have h1 := (hnodup.subperm hsub).length_le
    have h2 := (hn.subperm hsub').length_le
    simp only [List.length_map] at h1 h2
    omega

end

/-! ## Numbered layers -/

section
variable {α κ : Type} {key : α → κ}

/-- Each key with the number of its layer, counted from `start`. -/
def stamped (key : α → κ) : List (List α) → Nat → List (κ × Nat)
  | [], _ => []
  | layer :: rest, start => layer.map (fun a => (key a, start)) ++ stamped key rest (start + 1)

theorem stamped_keys (ls : List (List α)) (start : Nat) :
    (stamped key ls start).map Prod.fst = ls.flatten.map key := by
  induction ls generalizing start with
  | nil => rfl
  | cons layer rest ih => simp [stamped, ih, Function.comp_def]

theorem mem_stamped {ls : List (List α)} {start : Nat} {k : κ} {n : Nat} :
    (k, n) ∈ stamped key ls start ↔
      ∃ i layer, ls[i]? = some layer ∧ n = start + i ∧ ∃ a ∈ layer, key a = k := by
  induction ls generalizing start with
  | nil => simp [stamped]
  | cons layer rest ih =>
    simp only [stamped, List.mem_append, List.mem_map, Prod.mk.injEq, ih]
    constructor
    · rintro (⟨a, ha, rfl, rfl⟩ | ⟨i, l, hl, rfl, hk⟩)
      · exact ⟨0, layer, rfl, rfl, a, ha, rfl⟩
      · exact ⟨i + 1, l, by simpa using hl, by omega, hk⟩
    · rintro ⟨i, l, hl, rfl, a, ha, rfl⟩
      cases i with
      | zero =>
        simp only [List.getElem?_cons_zero, Option.some.injEq] at hl
        exact .inl ⟨a, hl ▸ ha, rfl, rfl⟩
      | succ i =>
        exact .inr ⟨i, l, by simpa using hl, by omega, a, ha, rfl⟩

/-- The numbers in use have no gap. -/
theorem stamped_contiguous {ls : List (List α)} (hne : ∀ layer ∈ ls, layer ≠ []) {start n m : Nat}
    {k : κ} (h : (k, n) ∈ stamped key ls start) (hs : start ≤ m) (hm : m ≤ n) :
    ∃ j, (j, m) ∈ stamped key ls start := by
  obtain ⟨i, layer, hl, rfl, _⟩ := mem_stamped.mp h
  have hi : i < ls.length := (List.getElem?_eq_some_iff.mp hl).1
  have hlt : m - start < ls.length := by omega
  obtain ⟨a, ha⟩ := List.exists_mem_of_ne_nil _ (hne _ (List.getElem_mem hlt))
  exact ⟨key a, mem_stamped.mpr
    ⟨m - start, ls[m - start], List.getElem?_eq_getElem hlt, by omega, a, ha, rfl⟩⟩

/-- The last number is below `start` plus the number of layers. -/
theorem stamped_lt {ls : List (List α)} {start n : Nat} {k : κ}
    (h : (k, n) ∈ stamped key ls start) : start ≤ n ∧ n < start + ls.length := by
  obtain ⟨i, layer, hl, rfl, _⟩ := mem_stamped.mp h
  have hi : i < ls.length := (List.getElem?_eq_some_iff.mp hl).1
  omega

/-- The number before the next free one is in use. -/
theorem stamped_last {ls : List (List α)} (hne : ∀ layer ∈ ls, layer ≠ []) {start n : Nat}
    (hs : start ≤ n) (hn : n < start + ls.length) : ∃ k, (k, n) ∈ stamped key ls start := by
  have hlt : n - start < ls.length := by omega
  obtain ⟨a, ha⟩ := List.exists_mem_of_ne_nil _ (hne _ (List.getElem_mem hlt))
  exact ⟨key a, mem_stamped.mpr
    ⟨n - start, ls[n - start], List.getElem?_eq_getElem hlt, by omega, a, ha, rfl⟩⟩

/-- An item's needs are numbered below it. -/
theorem stamped_needs [DecidableEq κ] {needs : α → List κ} {items : List α} {fuel start n : Nat} (hn : (items.map key).Nodup) {a : α} (ha : a ∈ items)
    (h : (key a, n) ∈ stamped key (layers key needs items fuel []) start) :
    ∀ k ∈ needs a, ∃ m < n, (k, m) ∈ stamped key (layers key needs items fuel []) start := by
  obtain ⟨i, layer, hl, rfl, b, hb, hkey⟩ := mem_stamped.mp h
  obtain ⟨hitem, _, hneeds⟩ := layers_get hl hb
  rw [List.inj_on_of_nodup_map hn hitem ha hkey] at hneeds
  intro k hk
  rcases hneeds k hk with hk | ⟨j, hj, earlier, he, hc⟩
  · simp at hk
  · exact ⟨start + j, by omega, mem_stamped.mpr ⟨j, earlier, he, rfl, hc⟩⟩

end

end Ez4.Library.Layering
