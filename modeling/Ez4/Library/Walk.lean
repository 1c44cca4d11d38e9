import Mathlib.Algebra.GroupWithZero.Nat
import Mathlib.Control.Traversable.Basic
import Mathlib.Data.List.Nodup
import Mathlib.Logic.Relation

/-! # Depth-first walks that stop at the first bad node

`walk` visits what a node leads to, each key once, and answers whether it met
no bad key. The keys it visited are its state. The fuel counts nested calls:
each one visits a key, so there are no more of them than nodes. -/

namespace Ez4.Library.Walk

section
variable {α κ : Type} (key : α → κ) (next : α → List α) (bad : κ → Bool)

/-- A node on the way: one not visited yet is judged, and then walked from. -/
def visit [DecidableEq κ] (walkFrom : α → StateM (List κ) Bool) (b : α) :
    StateM (List κ) Bool := do
  let visited ← get
  if visited.contains (key b) then pure true
  else
    set (visited ++ [key b])
    if bad (key b) then pure false else walkFrom b

def walk [DecidableEq κ] : Nat → α → StateM (List κ) Bool
  | 0, _ => pure true
  | fuel + 1, a => (next a).allM (visit key bad (walk fuel))

/-- The walk may take this step. -/
def Leads (a b : α) : Prop := b ∈ next a

/-- How many nodes are not visited. -/
def unvisited [DecidableEq κ] (items : List α) (visited : List κ) : Nat :=
  items.countP fun b => key b ∉ visited

/-- What a walk through the nodes of `l` has come to: all that was good leads
to visited nodes only, or a bad one was met. -/
structure Covers (items l : List α) (visited : List κ) (out : Bool × List κ) : Prop where
  sub : visited ⊆ out.2
  mem : out.1 = true → ∀ b ∈ l, key b ∈ out.2
  good : out.1 = true → ∀ b ∈ items, key b ∈ out.2 → key b ∉ visited →
    bad (key b) = false ∧ ∀ c ∈ next b, key c ∈ out.2
  met : out.1 = false → ∃ b ∈ l, ∃ c, Relation.ReflTransGen (Leads next) b c ∧ bad (key c) = true

end

section
variable {α κ : Type} {key : α → κ} {next : α → List α} {bad : κ → Bool} {items : List α}

theorem Covers.nil (visited : List κ) :
    Covers key next bad items [] visited (true, visited) :=
  ⟨List.Subset.refl _, by simp, fun _ b _ hm hnot => absurd hm hnot, by simp⟩

theorem Covers.cons {b : α} {l : List α} {visited : List κ} {first rest : Bool × List κ}
    (hb : Covers key next bad items [b] visited first) (hok : first.1 = true)
    (hl : Covers key next bad items l first.2 rest) :
    Covers key next bad items (b :: l) visited rest := by
  refine ⟨List.Subset.trans hb.sub hl.sub, fun hr c hc => ?_, fun hr c hc hm hnew => ?_, fun hr => ?_⟩
  · rcases List.mem_cons.mp hc with rfl | hc
    · exact hl.sub (hb.mem hok c (by simp))
    · exact hl.mem hr c hc
  · by_cases hfirst : key c ∈ first.2
    · obtain ⟨hgood, hnext⟩ := hb.good hok c hc hfirst hnew
      exact ⟨hgood, fun x hx => hl.sub (hnext x hx)⟩
    · exact hl.good hr c hc hm hfirst
  · obtain ⟨c, hc, hmet⟩ := hl.met hr
    exact ⟨c, List.mem_cons_of_mem _ hc, hmet⟩

/-- A walk that met a bad node goes no further. -/
theorem Covers.stop {b : α} {l : List α} {visited : List κ} {first : Bool × List κ}
    (hb : Covers key next bad items [b] visited first) (hbad : first.1 = false) :
    Covers key next bad items (b :: l) visited first := by
  refine ⟨hb.sub, by simp [hbad], by simp [hbad], fun h => ?_⟩
  obtain ⟨c, hc, hmet⟩ := hb.met h
  obtain rfl := List.mem_singleton.mp hc
  exact ⟨c, List.mem_cons_self, hmet⟩

variable [DecidableEq κ]

theorem unvisited_mono {visited more : List κ} (h : visited ⊆ more) :
    unvisited key items more ≤ unvisited key items visited := by
  refine List.countP_mono_left fun b _ hb => ?_
  simp only [decide_eq_true_eq] at hb ⊢
  exact fun hm => hb (h hm)

/-- Visiting a node leaves fewer of them. -/
theorem unvisited_lt {visited : List κ} {b : α} (hb : b ∈ items) (hnew : key b ∉ visited) :
    unvisited key items (visited ++ [key b]) < unvisited key items visited := by
  obtain ⟨l, r, rfl⟩ := List.append_of_mem hb
  have hmono : ∀ items, unvisited key items (visited ++ [key b]) ≤ unvisited key items visited :=
    fun _ => unvisited_mono (List.subset_append_left visited [key b])
  have hl := hmono l
  have hr := hmono r
  simp only [unvisited, List.countP_append, List.countP_cons] at hl hr ⊢
  rw [if_neg (by simp), if_pos (by simpa using hnew)]
  omega

/-- The loop over the nodes a node leads to. -/
theorem Covers.allM {step : α → StateM (List κ) Bool} {bound : Nat} {l : List α}
    (hstep : ∀ b ∈ l, ∀ visited, unvisited key items visited < bound →
      Covers key next bad items [b] visited ((step b).run visited)) {visited : List κ}
    (hv : unvisited key items visited < bound) :
    Covers key next bad items l visited ((l.allM step).run visited) := by
  induction l generalizing visited with
  | nil => exact .nil visited
  | cons b l ih =>
    have hfirst := hstep b List.mem_cons_self visited hv
    have hrun : ((b :: l).allM step).run visited =
        if ((step b).run visited).1 then (l.allM step).run ((step b).run visited).2
        else ((step b).run visited) := by
      rw [List.allM]
      change ((match ((step b).run visited).1 with
        | true => l.allM step
        | false => pure false : StateM (List κ) Bool)).run ((step b).run visited).2 = _
      cases hok : ((step b).run visited).1 with
      | true => rfl
      | false => exact Prod.ext hok.symm rfl
    rw [hrun]
    split
    · rename_i hok
      refine hfirst.cons hok (ih (fun c hc => hstep c (List.mem_cons_of_mem _ hc)) ?_)
      exact Nat.lt_of_le_of_lt (unvisited_mono hfirst.sub) hv
    · rename_i hbad
      exact hfirst.stop (by simpa using hbad)

theorem visit_seen {walkFrom : α → StateM (List κ) Bool} {b : α} {visited : List κ}
    (h : key b ∈ visited) : (visit key bad walkFrom b).run visited = (true, visited) := by
  have hc : visited.contains (key b) = true := by simpa using h
  change StateT.run (if visited.contains (key b) = true then _ else _) visited = _
  rw [if_pos hc]
  rfl

theorem visit_new {walkFrom : α → StateM (List κ) Bool} {b : α} {visited : List κ}
    (h : key b ∉ visited) : (visit key bad walkFrom b).run visited =
      if bad (key b) then (false, visited ++ [key b])
      else (walkFrom b).run (visited ++ [key b]) := by
  have hc : ¬ visited.contains (key b) = true := by simpa using h
  change StateT.run (if visited.contains (key b) = true then _ else _) visited = _
  rw [if_neg hc]
  cases hbad : bad (key b) with
  | true => rw [if_pos rfl]; rfl
  | false => rw [if_neg Bool.false_ne_true]; rfl

section
variable (hnext : ∀ a, ∀ b ∈ next a, b ∈ items) (hkeys : (items.map key).Nodup)
include hnext hkeys

/-- **A walk with enough fuel covers what its node leads to.** -/
theorem walk_covers {fuel : Nat} (a : α) {visited : List κ}
    (hv : unvisited key items visited < fuel) :
    Covers key next bad items (next a) visited ((walk key next bad fuel a).run visited) := by
  induction fuel generalizing a visited with
  | zero => exact absurd hv (Nat.not_lt_zero _)
  | succ fuel ih =>
    refine Covers.allM (fun b hb visited hv => ?_) hv
    have hitem := hnext a b hb
    by_cases hseen : key b ∈ visited
    · rw [visit_seen hseen]
      exact ⟨List.Subset.refl _, by simpa using hseen, fun _ c _ hm hnot => absurd hm hnot, by simp⟩
    rw [visit_new hseen]
    cases hbad : bad (key b) with
    | true => exact ⟨List.subset_append_left _ _, by simp, by simp, fun _ => ⟨b, by simp, b, .refl, hbad⟩⟩
    | false =>
      have hfewer := unvisited_lt hitem hseen
      have hwalk := ih b (Nat.lt_of_lt_of_le hfewer (Nat.le_of_lt_succ hv))
      have hmem : key b ∈ visited ++ [key b] := by simp
      refine ⟨List.Subset.trans (List.subset_append_left _ _) hwalk.sub, fun _ c hc => ?_,
        fun hok c hc hm hnew => ?_, fun hmet => ?_⟩
      · obtain rfl := List.mem_singleton.mp hc
        exact hwalk.sub hmem
      · by_cases hcb : key c = key b
        · obtain rfl := List.inj_on_of_nodup_map hkeys hc hitem hcb
          exact ⟨hbad, hwalk.mem hok⟩
        · exact hwalk.good hok c hc hm (by simp [hnew, hcb])
      · obtain ⟨c, hc, x, hx, hbadx⟩ := hwalk.met hmet
        exact ⟨b, by simp, x, .head hc hx, hbadx⟩

/-- **The answer of a walk.** -/
theorem walk_iff {fuel : Nat} (hf : items.length < fuel) (a : α) :
    (walk key next bad fuel a).run' [] = true ↔
      ∀ b, Relation.TransGen (Leads next) a b → bad (key b) = false := by
  have hv : unvisited key items [] < fuel := Nat.lt_of_le_of_lt List.countP_le_length hf
  have hcovers : Covers key next bad items (next a) [] ((walk key next bad fuel a).run []) :=
    walk_covers hnext hkeys a hv
  have hrun : (walk key next bad fuel a).run' [] = ((walk key next bad fuel a).run []).1 := rfl
  rw [hrun]
  constructor
  · intro hok b hb
    -- what the node leads to is an item, was visited, and is good
    suffices h : b ∈ items ∧ key b ∈ ((walk key next bad fuel a).run []).2 from
      (hcovers.good hok b h.1 h.2 (by simp)).1
    induction hb with
    | single hb => exact ⟨hnext _ _ hb, hcovers.mem hok _ hb⟩
    | tail _ hc ih => exact ⟨hnext _ _ hc, (hcovers.good hok _ ih.1 ih.2 (by simp)).2 _ hc⟩
  · intro hgood
    by_contra hbad
    obtain ⟨b, hb, c, hc, hmet⟩ := hcovers.met (eq_false_of_ne_true hbad)
    rw [hgood c (.head' hb hc)] at hmet
    cases hmet

end

end

end Ez4.Library.Walk
