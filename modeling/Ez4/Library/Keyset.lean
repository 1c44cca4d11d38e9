import Mathlib.Data.List.Basic
import Mathlib.Data.List.Sort

/-! # Keyset pagination

A list in a strict order is read page by page: each page starts right after
the last element of the page before. The order is lexicographic over criteria
that each rank some values equal. -/

namespace Ez4.Library

/-- A total preorder that can be decided. -/
structure Criterion (α : Type) where
  le : α → α → Bool
  total : ∀ a b, le a b ∨ le b a
  trans : ∀ {a b c}, le a b → le b c → le a c

namespace Criterion

variable {α β : Type}

/-- Neither of the two comes first. -/
def same (c : Criterion α) (a b : α) : Bool := c.le a b && c.le b a

def before (c : Criterion α) (a b : α) : Bool := !c.le b a

def reverse (c : Criterion α) : Criterion α where
  le a b := c.le b a
  total a b := c.total b a
  trans hab hbc := c.trans hbc hab

/-- Comparing elements by what a function reads from them. -/
def on (c : Criterion α) (f : β → α) : Criterion β where
  le a b := c.le (f a) (f b)
  total a b := c.total (f a) (f b)
  trans hab hbc := c.trans hab hbc

/-- Every element ranks like every other. -/
def indifferent (α : Type) : Criterion α where
  le _ _ := true
  total _ _ := Or.inl rfl
  trans _ _ := rfl

variable (c : Criterion α) {a b d : α}

theorem same_refl (a : α) : c.same a a = true := by
  have h := c.total a a
  simpa [same] using h

theorem same_comm : c.same a b = c.same b a := Bool.and_comm _ _

theorem same_trans (hab : c.same a b = true) (hbd : c.same b d = true) :
    c.same a d = true := by
  simp only [same, Bool.and_eq_true] at hab hbd ⊢
  exact ⟨c.trans hab.1 hbd.1, c.trans hbd.2 hab.2⟩

theorem before_trans (hab : c.before a b = true) (hbd : c.before b d = true) :
    c.before a d = true := by
  simp only [before, Bool.not_eq_true'] at hab hbd ⊢
  have hba : c.le a b = true := (c.total a b).resolve_right (by simp [hab])
  by_contra hda
  have hda : c.le d a = true := by simpa using hda
  exact absurd (c.trans hda hba) (by simp [hbd])

theorem before_of_same_left (hab : c.same a b = true) :
    c.before a d = c.before b d := by
  simp only [same, Bool.and_eq_true] at hab
  have h : c.le d a = true ↔ c.le d b = true :=
    ⟨fun h => c.trans h hab.1, fun h => c.trans h hab.2⟩
  exact congrArg Bool.not (Bool.eq_iff_iff.mpr h)

theorem before_of_same_right (hbd : c.same b d = true) :
    c.before a b = c.before a d := by
  simp only [same, Bool.and_eq_true] at hbd
  have h : c.le b a = true ↔ c.le d a = true :=
    ⟨fun h => c.trans hbd.2 h, fun h => c.trans hbd.1 h⟩
  exact congrArg Bool.not (Bool.eq_iff_iff.mpr h)

theorem not_same_of_before (h : c.before a b = true) : c.same a b = false := by
  simp only [before, Bool.not_eq_true'] at h
  simp [same, h]

theorem before_or_before (h : c.same a b = false) :
    c.before a b = true ∨ c.before b a = true := by
  simp only [same, Bool.and_eq_false_iff] at h
  simp only [before, Bool.not_eq_true']
  exact h.symm

end Criterion

/-! ## The lexicographic order -/

section Lexicographic

variable {α : Type}

/-- Every criterion ranks the two alike. -/
def lexSame (cs : List (Criterion α)) (a b : α) : Bool := cs.all fun c => c.same a b

/-- The first criterion that tells the two apart puts `a` first. -/
def lexBefore : List (Criterion α) → α → α → Bool
  | [], _, _ => false
  | c :: cs, a, b => if c.same a b then lexBefore cs a b else c.before a b

@[simp] theorem lexBefore_nil (a b : α) : lexBefore [] a b = false := rfl

@[simp] theorem lexSame_nil (a b : α) : lexSame [] a b = true := rfl

@[simp] theorem lexSame_cons (c : Criterion α) (cs : List (Criterion α)) (a b : α) :
    lexSame (c :: cs) a b = (c.same a b && lexSame cs a b) := rfl

variable {cs : List (Criterion α)} {c : Criterion α} {a b d : α}

theorem lexBefore_cons_of_same (h : c.same a b = true) :
    lexBefore (c :: cs) a b = lexBefore cs a b := by simp [lexBefore, h]

theorem lexBefore_cons_of_differ (h : c.same a b = false) :
    lexBefore (c :: cs) a b = c.before a b := by simp [lexBefore, h]

theorem lexSame_comm : lexSame cs a b = lexSame cs b a := by
  unfold lexSame
  congr 1
  funext c
  exact c.same_comm

theorem lexBefore_irrefl (cs : List (Criterion α)) (a : α) : lexBefore cs a a = false := by
  induction cs with
  | nil => rfl
  | cons c cs ih => rw [lexBefore_cons_of_same (c.same_refl a), ih]

theorem lexBefore_trans (hab : lexBefore cs a b = true) (hbd : lexBefore cs b d = true) :
    lexBefore cs a d = true := by
  induction cs with
  | nil => simp at hab
  | cons c cs ih =>
    cases hsab : c.same a b with
    | true =>
      cases hsbd : c.same b d with
      | true =>
        rw [lexBefore_cons_of_same hsab] at hab
        rw [lexBefore_cons_of_same hsbd] at hbd
        rw [lexBefore_cons_of_same (c.same_trans hsab hsbd)]
        exact ih hab hbd
      | false =>
        rw [lexBefore_cons_of_differ hsbd, ← c.before_of_same_left hsab] at hbd
        rw [lexBefore_cons_of_differ (c.not_same_of_before hbd)]
        exact hbd
    | false =>
      rw [lexBefore_cons_of_differ hsab] at hab
      have had : c.before a d = true := by
        cases hsbd : c.same b d with
        | true => rwa [← c.before_of_same_right hsbd]
        | false =>
          rw [lexBefore_cons_of_differ hsbd] at hbd
          exact c.before_trans hab hbd
      rw [lexBefore_cons_of_differ (c.not_same_of_before had)]
      exact had

/-- Two elements that some criterion tells apart are ordered. -/
theorem lexBefore_total (h : lexSame cs a b = false) :
    lexBefore cs a b = true ∨ lexBefore cs b a = true := by
  induction cs with
  | nil => simp at h
  | cons c cs ih =>
    cases hs : c.same a b with
    | true =>
      rw [lexBefore_cons_of_same hs, lexBefore_cons_of_same (c.same_comm ▸ hs)]
      exact ih (by simpa [hs] using h)
    | false =>
      rw [lexBefore_cons_of_differ hs, lexBefore_cons_of_differ (c.same_comm ▸ hs)]
      exact c.before_or_before hs

theorem not_lexBefore_of_same (h : lexSame cs a b = true) : lexBefore cs a b = false := by
  induction cs with
  | nil => rfl
  | cons c cs ih =>
    simp only [lexSame_cons, Bool.and_eq_true] at h
    rw [lexBefore_cons_of_same h.1, ih h.2]

theorem lexBefore_asymm (h : lexBefore cs a b = true) : lexBefore cs b a = false := by
  cases hba : lexBefore cs b a with
  | false => rfl
  | true => exact absurd (lexBefore_trans h hba) (by simp [lexBefore_irrefl])

/-- `a` comes first exactly when it does for a criterion all of whose
predecessors rank the two alike. -/
theorem lexBefore_iff_exists :
    lexBefore cs a b = true ↔
      ∃ i, ∃ h : i < cs.length, lexSame (cs.take i) a b = true ∧ (cs.get ⟨i, h⟩).before a b = true := by
  induction cs with
  | nil => simp
  | cons c cs ih =>
    cases hs : c.same a b with
    | true =>
      rw [lexBefore_cons_of_same hs, ih]
      constructor
      · intro ⟨i, hi, hsame, hbefore⟩
        exact ⟨i + 1, Nat.succ_lt_succ hi, by simp [hs, hsame], hbefore⟩
      · intro ⟨i, hi, hsame, hbefore⟩
        cases i with
        | zero => simp [c.not_same_of_before hbefore] at hs
        | succ i => exact ⟨i, Nat.lt_of_succ_lt_succ hi, by simpa [hs] using hsame, hbefore⟩
    | false =>
      rw [lexBefore_cons_of_differ hs]
      constructor
      · intro h
        exact ⟨0, Nat.succ_pos _, rfl, h⟩
      · intro ⟨i, hi, hsame, hbefore⟩
        cases i with
        | zero => exact hbefore
        | succ i => simp [hs] at hsame

/-- What comes first is not behind for the leading criteria. -/
theorem lexBefore_take (k : Nat) (h : lexBefore cs a b = true) :
    lexSame (cs.take k) a b = true ∨ lexBefore (cs.take k) a b = true := by
  induction cs generalizing k with
  | nil => simp at h
  | cons c cs ih =>
    cases k with
    | zero => exact Or.inl rfl
    | succ k =>
      rw [List.take_succ_cons]
      cases hs : c.same a b with
      | true =>
        rw [lexBefore_cons_of_same hs] at h ⊢
        simpa [hs] using ih k h
      | false =>
        rw [lexBefore_cons_of_differ hs] at h ⊢
        exact Or.inr h

/-- The lexicographic order over the criteria. -/
def lexicographic (cs : List (Criterion α)) : Criterion α where
  le a b := !lexBefore cs b a
  total a b := by
    simp only [Bool.not_eq_true']
    cases h : lexBefore cs b a with
    | false => exact Or.inl rfl
    | true => exact Or.inr (lexBefore_asymm h)
  trans := by
    intro a b d hab hbd
    simp only [Bool.not_eq_true'] at hab hbd ⊢
    by_contra hda
    have hda : lexBefore cs d a = true := by simpa using hda
    cases hs : lexSame cs a b with
    | true =>
      cases hsbd : lexSame cs b d with
      | true =>
        have hda' : lexSame cs d a = true := by
          refine List.all_eq_true.mpr fun c hc => ?_
          rw [c.same_comm]
          exact c.same_trans (List.all_eq_true.mp hs c hc) (List.all_eq_true.mp hsbd c hc)
        simp [not_lexBefore_of_same hda'] at hda
      | false =>
        have h : lexBefore cs b d = true :=
          (lexBefore_total hsbd).resolve_right (by simp [hbd])
        have hba := lexBefore_trans h hda
        simp [not_lexBefore_of_same (lexSame_comm ▸ hs)] at hba
    | false =>
      have h : lexBefore cs a b = true := (lexBefore_total hs).resolve_right (by simp [hab])
      have hdb := lexBefore_trans hda h
      simp [hbd] at hdb

theorem lexBefore_append (first second : List (Criterion α)) (a b : α) :
    lexBefore (first ++ second) a b =
      if lexSame first a b then lexBefore second a b else lexBefore first a b := by
  induction first with
  | nil => rfl
  | cons c first ih =>
    cases hs : c.same a b with
    | true =>
      rw [List.cons_append, lexBefore_cons_of_same hs, ih, lexSame_cons, hs, Bool.true_and,
        lexBefore_cons_of_same hs]
    | false =>
      rw [List.cons_append, lexBefore_cons_of_differ hs, lexSame_cons, hs, Bool.false_and,
        if_neg Bool.false_ne_true, lexBefore_cons_of_differ hs]

/-- A sorted list whose elements are all told apart is in strict order. -/
theorem pairwise_lexBefore {l : List α} (hl : l.Pairwise fun a b => (lexicographic cs).le a b)
    (hd : l.Pairwise fun a b => lexSame cs a b = false) :
    l.Pairwise fun a b => lexBefore cs a b = true := by
  refine (hl.and hd).imp fun {a b} h => ?_
  refine (lexBefore_total h.2).resolve_right ?_
  have hle : (!lexBefore cs b a) = true := h.1
  simpa using hle

end Lexicographic

/-! ## Reading on from a position -/

section Positions

variable {α : Type} {before : α → α → Bool} {l : List α}

/-- In a strict order, what comes after an element is the rest of the list. -/
theorem filter_before_eq_drop (hirrefl : ∀ a, before a a = false)
    (htrans : ∀ {a b d}, before a b = true → before b d = true → before a d = true)
    (hl : l.Pairwise fun a b => before a b = true) {i : Nat} (hi : i < l.length) :
    l.filter (before (l.get ⟨i, hi⟩)) = l.drop (i + 1) := by
  induction l generalizing i with
  | nil => simp at hi
  | cons a rest ih =>
    have ⟨ha, hrest⟩ := List.pairwise_cons.mp hl
    cases i with
    | zero =>
      rw [List.filter_cons_of_neg (by simp [hirrefl])]
      exact List.filter_eq_self.mpr ha
    | succ i =>
      have hi' : i < rest.length := Nat.lt_of_succ_lt_succ hi
      have hmem : rest.get ⟨i, hi'⟩ ∈ rest := List.get_mem _ _
      have hback : before (rest.get ⟨i, hi'⟩) a ≠ true := by
        intro hback
        have := htrans (ha _ hmem) hback
        simp [hirrefl] at this
      show (a :: rest).filter (before (rest.get ⟨i, hi'⟩)) = rest.drop (i + 1)
      rw [List.filter_cons_of_neg hback, ih hrest hi']

end Positions

/-! ## Pages -/

section Pages

variable {α : Type} {take : Nat} {l : List α} {pages : List (List α)}

/-- The pages of at most `take` elements a list is read in. -/
inductive Paged (take : Nat) : List α → List (List α) → Prop
  | last {l : List α} (h : l.length ≤ take) : Paged take l [l]
  | next {l : List α} {pages : List (List α)} (h : take < l.length)
      (rest : Paged take (l.drop take) pages) : Paged take l (l.take take :: pages)

theorem Paged.exists (htake : 0 < take) (l : List α) : ∃ pages, Paged take l pages := by
  induction hn : l.length using Nat.strong_induction_on generalizing l with
  | _ n ih =>
    by_cases h : take < l.length
    · obtain ⟨pages, hpages⟩ := ih _ (by rw [List.length_drop]; omega) (l.drop take) rfl
      exact ⟨_, .next h hpages⟩
    · exact ⟨_, .last (Nat.le_of_not_lt h)⟩

theorem Paged.ne_nil (h : Paged take l pages) : pages ≠ [] := by
  cases h <;> simp

theorem Paged.flatten_eq (h : Paged take l pages) : pages.flatten = l := by
  induction h with
  | last h => simp
  | next h rest ih => rw [List.flatten_cons, ih, List.take_append_drop]

theorem Paged.length_of_mem_dropLast (h : Paged take l pages) {page : List α}
    (hpage : page ∈ pages.dropLast) : page.length = take := by
  induction h with
  | last h => simp at hpage
  | next h rest ih =>
    rw [List.dropLast_cons_of_ne_nil rest.ne_nil] at hpage
    cases List.mem_cons.mp hpage with
    | inl heq => rw [heq, List.length_take, Nat.min_eq_left (Nat.le_of_lt h)]
    | inr hmem => exact ih hmem

end Pages

end Ez4.Library
