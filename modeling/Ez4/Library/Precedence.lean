import Mathlib.Order.BoundedOrder.Lattice
import Ez4.Library.Lexing

/-! # Conditions as SQL reads them

`read` reads a condition with the precedence of SQL: `NOT` over `AND` over
`OR`, whatever is written between them above all three, and each `BETWEEN` with
an `AND` of its own. Formulas take values in any lattice with a negation, such
as the three truth values of SQL. -/

namespace Ez4.Library.Precedence
open Lexing

/-! ## Formulas -/

inductive Formula (α : Type)
  | atom (a : α)
  | neg (f : Formula α)
  | conj (fs : List (Formula α))
  | disj (fs : List (Formula α))

section
variable {α L : Type} [Lattice L] [BoundedOrder L] (neg : L → L) (v : α → L)

mutual

def Formula.eval : Formula α → L
  | .atom a => v a
  | .neg f => neg f.eval
  | .conj fs => evalAll fs
  | .disj fs => evalAny fs

def evalAll : List (Formula α) → L
  | [] => ⊤
  | f :: fs => f.eval ⊓ evalAll fs

def evalAny : List (Formula α) → L
  | [] => ⊥
  | f :: fs => f.eval ⊔ evalAny fs

end

theorem evalAll_append (fs gs : List (Formula α)) :
    evalAll neg v (fs ++ gs) = evalAll neg v fs ⊓ evalAll neg v gs := by
  induction fs with
  | nil => simp [evalAll]
  | cons f fs ih => rw [List.cons_append, evalAll, evalAll, ih, inf_assoc]

theorem evalAny_append (fs gs : List (Formula α)) :
    evalAny neg v (fs ++ gs) = evalAny neg v fs ⊔ evalAny neg v gs := by
  induction fs with
  | nil => simp [evalAny]
  | cons f fs ih => rw [List.cons_append, evalAny, evalAny, ih, sup_assoc]

/-- The meet of some values. -/
def infAll (xs : List L) : L := xs.foldr (· ⊓ ·) ⊤

/-- The join of some values. -/
def supAll (xs : List L) : L := xs.foldr (· ⊔ ·) ⊥

theorem evalAll_eq (fs : List (Formula α)) :
    evalAll neg v fs = infAll (fs.map (Formula.eval neg v)) := by
  induction fs with
  | nil => rfl
  | cons f fs ih => rw [evalAll, ih]; rfl

theorem evalAny_eq (fs : List (Formula α)) :
    evalAny neg v fs = supAll (fs.map (Formula.eval neg v)) := by
  induction fs with
  | nil => rfl
  | cons f fs ih => rw [evalAny, ih]; rfl

end

/-! ## Reading -/

def isKeyword (keyword : String) : Tree → Bool
  | .leaf (.word chars) => chars.map Char.toUpper == keyword.toList
  | _ => false

/-- The pieces between the `OR`s. -/
def splitOr : List Tree → List (List Tree)
  | [] => [[]]
  | tree :: rest =>
    if isKeyword "OR" tree then [] :: splitOr rest
    else match splitOr rest with
      | [] => [[tree]]
      | piece :: pieces => (tree :: piece) :: pieces

/-- The pieces between the `AND`s. The flag tells whether a `BETWEEN` still has
none. -/
def splitAnd : Bool → List Tree → List (List Tree)
  | _, [] => [[]]
  | between, tree :: rest =>
    if isKeyword "AND" tree && !between then [] :: splitAnd false rest
    else match splitAnd (isKeyword "BETWEEN" tree || between && !isKeyword "AND" tree) rest with
      | [] => [[tree]]
      | piece :: pieces => (tree :: piece) :: pieces

/-- The condition made of what `unit` reads between the `AND`s and `OR`s. -/
def readWith (unit : List Tree → Formula (List Tree)) (trees : List Tree) : Formula (List Tree) :=
  .disj ((splitOr trees).map fun piece => .conj ((splitAnd false piece).map unit))

/-- What stands between two of `AND` and `OR`. -/
def readUnit : Nat → List Tree → Formula (List Tree)
  | 0, trees => .atom trees
  | fuel + 1, trees =>
    match trees with
    | [.group inner] => readWith (readUnit fuel) inner
    | tree :: rest => if isKeyword "NOT" tree then .neg (readUnit fuel rest) else .atom trees
    | [] => .atom []

/-- How many negations and parentheses can be opened. -/
def size (trees : List Tree) : Nat := (flattenAll trees).length

def read (trees : List Tree) : Formula (List Tree) := readWith (readUnit (size trees)) trees

/-! ## Pieces that are not split -/

/-- Whether a `BETWEEN` is left without its `AND`, when no `AND` is free. -/
def andEnd : Bool → List Tree → Option Bool
  | between, [] => some between
  | between, tree :: rest =>
    if isKeyword "AND" tree && !between then none
    else andEnd (isKeyword "BETWEEN" tree || between && !isKeyword "AND" tree) rest

/-- No `OR` and no `AND` of it is free. -/
structure Sealed (trees : List Tree) : Prop where
  noOr : ∀ tree ∈ trees, isKeyword "OR" tree = false
  noAnd : andEnd false trees = some false

theorem andEnd_append (between : Bool) (a b : List Tree) :
    andEnd between (a ++ b) = (andEnd between a).bind fun between => andEnd between b := by
  induction a generalizing between with
  | nil => rfl
  | cons tree a ih =>
    rw [List.cons_append, andEnd, andEnd]
    split
    · rfl
    · exact ih _

theorem Sealed.append {a b : List Tree} (ha : Sealed a) (hb : Sealed b) : Sealed (a ++ b) := by
  refine ⟨fun tree ht => ?_, ?_⟩
  · rcases List.mem_append.mp ht with ht | ht
    · exact ha.noOr tree ht
    · exact hb.noOr tree ht
  · rw [andEnd_append, ha.noAnd]
    exact hb.noAnd

/-- A tree that is none of the keywords that split. -/
def isPlain (tree : Tree) : Bool :=
  !isKeyword "OR" tree && !isKeyword "AND" tree && !isKeyword "BETWEEN" tree

/-- Plain trees leave a `BETWEEN` as it is. -/
theorem andEnd_plain {trees : List Tree} (h : ∀ tree ∈ trees, isPlain tree = true) (between : Bool) :
    andEnd between trees = some between := by
  induction trees with
  | nil => rfl
  | cons tree rest ih =>
    have hplain := h tree List.mem_cons_self
    simp only [isPlain, Bool.and_eq_true, Bool.not_eq_true'] at hplain
    rw [andEnd, hplain.1.2, hplain.2]
    simpa using ih fun t ht => h t (List.mem_cons_of_mem _ ht)

theorem Sealed.of_plain {trees : List Tree} (h : ∀ tree ∈ trees, isPlain tree = true) :
    Sealed trees := by
  refine ⟨fun tree ht => ?_, ?_⟩
  · have := h tree ht
    simp only [isPlain, Bool.and_eq_true, Bool.not_eq_true'] at this
    exact this.1.1
  · exact andEnd_plain h false

theorem splitOr_ne_nil (trees : List Tree) : splitOr trees ≠ [] := by
  cases trees with
  | nil => simp [splitOr]
  | cons tree rest =>
    rw [splitOr]
    split
    · simp
    · split <;> simp

theorem splitOr_append {a : List Tree} (h : ∀ tree ∈ a, isKeyword "OR" tree = false)
    (rest : List Tree) {piece : List Tree} {pieces : List (List Tree)}
    (hrest : splitOr rest = piece :: pieces) : splitOr (a ++ rest) = (a ++ piece) :: pieces := by
  induction a with
  | nil => exact hrest
  | cons tree a ih =>
    rw [List.cons_append, splitOr, h tree List.mem_cons_self,
      ih fun t ht => h t (List.mem_cons_of_mem _ ht)]
    simp

theorem splitAnd_append {between after : Bool} {a : List Tree} (h : andEnd between a = some after)
    (rest : List Tree) {piece : List Tree} {pieces : List (List Tree)}
    (hrest : splitAnd after rest = piece :: pieces) :
    splitAnd between (a ++ rest) = (a ++ piece) :: pieces := by
  induction a generalizing between with
  | nil =>
    obtain rfl := Option.some.inj h
    exact hrest
  | cons tree a ih =>
    rw [andEnd] at h
    split at h
    · cases h
    · rename_i hsplit
      rw [List.cons_append, splitAnd, if_neg hsplit, ih h]
      rfl

theorem intercalate_cons_cons {β : Type} (sep a b : List β) (l : List (List β)) :
    List.intercalate sep (a :: b :: l) = a ++ (sep ++ List.intercalate sep (b :: l)) := by
  simp [List.intercalate, List.intersperse]

def andWord : Tree := .leaf (.word ['A', 'N', 'D'])

def orWord : Tree := .leaf (.word ['O', 'R'])

def notWord : Tree := .leaf (.word ['N', 'O', 'T'])

theorem splitAnd_intercalate {pieces : List (List Tree)} (hne : pieces ≠ [])
    (h : ∀ piece ∈ pieces, Sealed piece) :
    splitAnd false (List.intercalate [andWord] pieces) = pieces := by
  induction pieces with
  | nil => exact absurd rfl hne
  | cons piece pieces ih =>
    have hpiece := (h piece List.mem_cons_self).noAnd
    cases pieces with
    | nil =>
      have := splitAnd_append hpiece [] rfl
      simpa [List.intercalate] using this
    | cons next pieces =>
      have hrest := ih (by simp) fun p hp => h p (List.mem_cons_of_mem _ hp)
      have hsplit : splitAnd false ([andWord] ++ List.intercalate [andWord] (next :: pieces)) =
          [] :: next :: pieces := by
        rw [List.singleton_append, splitAnd, if_pos (by decide), hrest]
      rw [intercalate_cons_cons, splitAnd_append hpiece _ hsplit, List.append_nil]

theorem splitOr_intercalate {pieces : List (List Tree)} (hne : pieces ≠ [])
    (h : ∀ piece ∈ pieces, ∀ tree ∈ piece, isKeyword "OR" tree = false) :
    splitOr (List.intercalate [orWord] pieces) = pieces := by
  induction pieces with
  | nil => exact absurd rfl hne
  | cons piece pieces ih =>
    have hpiece := h piece List.mem_cons_self
    cases pieces with
    | nil =>
      have := splitOr_append hpiece [] rfl
      simpa [List.intercalate] using this
    | cons next pieces =>
      have hrest := ih (by simp) fun p hp => h p (List.mem_cons_of_mem _ hp)
      have hsplit : splitOr ([orWord] ++ List.intercalate [orWord] (next :: pieces)) =
          [] :: next :: pieces := by
        rw [List.singleton_append, splitOr, if_pos (by decide), hrest]
      rw [intercalate_cons_cons, splitOr_append hpiece _ hsplit, List.append_nil]

theorem noOr_intercalate {pieces : List (List Tree)} (h : ∀ piece ∈ pieces, Sealed piece) :
    ∀ tree ∈ List.intercalate [andWord] pieces, isKeyword "OR" tree = false := by
  induction pieces with
  | nil => simp [List.intercalate]
  | cons piece pieces ih =>
    intro tree ht
    have hpiece := (h piece List.mem_cons_self).noOr
    cases pieces with
    | nil =>
      have : tree ∈ piece := by simpa [List.intercalate] using ht
      exact hpiece tree this
    | cons next pieces =>
      rw [intercalate_cons_cons] at ht
      rcases List.mem_append.mp ht with ht | ht
      · exact hpiece tree ht
      · rcases List.mem_append.mp ht with ht | ht
        · obtain rfl := List.mem_singleton.mp ht
          decide
        · exact ih (fun p hp => h p (List.mem_cons_of_mem _ hp)) tree ht

/-! ## What a condition means wherever it stands -/

section
variable {L : Type} [Lattice L] [BoundedOrder L] (neg : L → L) (v : List Tree → L)

/-- Between two of `AND` and `OR`, the trees have this value. -/
structure UnitValue (trees : List Tree) (x : L) : Prop where
  noSplit : Sealed trees
  value : ∀ fuel, size trees ≤ fuel → (readUnit fuel trees).eval neg v = x

/-- In parentheses, or alone, the trees have this value. -/
def Value (trees : List Tree) (x : L) : Prop :=
  ∀ fuel, size trees ≤ fuel → (readWith (readUnit fuel) trees).eval neg v = x

variable {neg v}

theorem size_append (a b : List Tree) : size (a ++ b) = size a + size b := by simp [size]

theorem size_group (inner : List Tree) : size [.group inner] = size inner + 2 := by
  simp [size, flattenAll, Tree.flatten]

theorem size_le_intercalate {sep : List Tree} {pieces : List (List Tree)} {piece : List Tree}
    (h : piece ∈ pieces) : size piece ≤ size (List.intercalate sep pieces) := by
  induction pieces with
  | nil => cases h
  | cons first pieces ih =>
    cases pieces with
    | nil =>
      obtain rfl := List.mem_singleton.mp h
      simp [List.intercalate]
    | cons next pieces =>
      rw [intercalate_cons_cons, size_append, size_append]
      rcases List.mem_cons.mp h with rfl | h
      · omega
      · have := ih h
        omega

/-- **A chain of `AND`s** is the meet of its members. -/
theorem Value.all {units : List (List Tree × L)} (hne : units ≠ [])
    (h : ∀ unit ∈ units, UnitValue neg v unit.1 unit.2) :
    Value neg v (List.intercalate [andWord] (units.map Prod.fst)) (infAll (units.map Prod.snd)) := by
  intro fuel hfuel
  have hne' : units.map Prod.fst ≠ [] := by simpa using hne
  have hsealed : ∀ piece ∈ units.map Prod.fst, Sealed piece := by
    intro piece hp
    obtain ⟨unit, hu, rfl⟩ := List.mem_map.mp hp
    exact (h unit hu).noSplit
  have hor : splitOr (List.intercalate [andWord] (units.map Prod.fst)) =
      [List.intercalate [andWord] (units.map Prod.fst)] := by
    have := splitOr_append (noOr_intercalate hsealed) [] rfl
    simpa using this
  rw [readWith, hor, List.map_singleton, splitAnd_intercalate hne' hsealed, Formula.eval, evalAny,
    evalAny, sup_bot_eq, Formula.eval, evalAll_eq, List.map_map, List.map_map]
  congr 1
  refine List.map_congr_left fun unit hu => ?_
  exact (h unit hu).value fuel ((size_le_intercalate (List.mem_map_of_mem hu)).trans hfuel)

/-- **Chains of `AND`s** with `OR`s between them are the join of the chains. -/
theorem Value.any_chains {chains : List (List (List Tree × L))} (hne : chains ≠ [])
    (h : ∀ chain ∈ chains, chain ≠ [] ∧ ∀ unit ∈ chain, UnitValue neg v unit.1 unit.2) :
    Value neg v
      (List.intercalate [orWord] (chains.map fun chain =>
        List.intercalate [andWord] (chain.map Prod.fst)))
      (supAll (chains.map fun chain => infAll (chain.map Prod.snd))) := by
  intro fuel hfuel
  have hsealed : ∀ chain ∈ chains, ∀ piece ∈ chain.map Prod.fst, Sealed piece := by
    intro chain hchain piece hp
    obtain ⟨unit, hu, rfl⟩ := List.mem_map.mp hp
    exact ((h chain hchain).2 unit hu).noSplit
  rw [readWith, splitOr_intercalate (by simpa using hne), Formula.eval, evalAny_eq, List.map_map,
    List.map_map]
  · congr 1
    refine List.map_congr_left fun chain hchain => ?_
    obtain ⟨hchain_ne, hunits⟩ := h chain hchain
    rw [Function.comp_apply, Function.comp_apply,
      splitAnd_intercalate (by simpa using hchain_ne) (hsealed chain hchain), Formula.eval,
      evalAll_eq, List.map_map, List.map_map]
    congr 1
    refine List.map_congr_left fun unit hu => ?_
    refine (hunits unit hu).value fuel (le_trans ?_ hfuel)
    exact (size_le_intercalate (List.mem_map_of_mem hu)).trans
      (size_le_intercalate (List.mem_map.mpr ⟨chain, hchain, rfl⟩))
  · intro piece hp
    obtain ⟨chain, hchain, rfl⟩ := List.mem_map.mp hp
    exact noOr_intercalate (hsealed chain hchain)

/-- **A chain of `OR`s** is the join of its members. -/
theorem Value.any {units : List (List Tree × L)} (hne : units ≠ [])
    (h : ∀ unit ∈ units, UnitValue neg v unit.1 unit.2) :
    Value neg v (List.intercalate [orWord] (units.map Prod.fst)) (supAll (units.map Prod.snd)) := by
  have hchains : ∀ chain ∈ units.map fun unit => [unit],
      chain ≠ [] ∧ ∀ unit ∈ chain, UnitValue neg v unit.1 unit.2 := by
    intro chain hchain
    obtain ⟨unit, hu, rfl⟩ := List.mem_map.mp hchain
    exact ⟨by simp, by simpa using h unit hu⟩
  have hany := Value.any_chains (by simpa using hne) hchains
  simpa [List.map_map, Function.comp_def, List.intercalate, infAll] using hany

/-! ## Any fuel will do -/

theorem size_of_mem_splitOr {trees piece : List Tree} (h : piece ∈ splitOr trees) :
    size piece ≤ size trees := by
  induction trees generalizing piece with
  | nil =>
    obtain rfl := List.mem_singleton.mp h
    exact Nat.le_refl _
  | cons tree rest ih =>
    have hcons : ∀ l, size (tree :: l) = size [tree] + size l := fun l => size_append [tree] l
    rw [splitOr] at h
    split at h
    · rcases List.mem_cons.mp h with rfl | h
      · simp [size, flattenAll]
      · have := ih h
        rw [hcons rest]
        omega
    · split at h
      · rename_i hnil
        exact absurd hnil (splitOr_ne_nil rest)
      · rename_i first pieces hsplit
        rw [hcons rest]
        rcases List.mem_cons.mp h with rfl | h
        · have := ih (hsplit ▸ List.mem_cons_self)
          rw [hcons]
          omega
        · have := ih (hsplit ▸ List.mem_cons_of_mem _ h)
          omega

theorem splitAnd_ne_nil (between : Bool) (trees : List Tree) : splitAnd between trees ≠ [] := by
  cases trees with
  | nil => simp [splitAnd]
  | cons tree rest =>
    rw [splitAnd]
    split
    · simp
    · split <;> simp

theorem size_of_mem_splitAnd {between : Bool} {trees piece : List Tree}
    (h : piece ∈ splitAnd between trees) : size piece ≤ size trees := by
  induction trees generalizing between piece with
  | nil =>
    obtain rfl := List.mem_singleton.mp h
    exact Nat.le_refl _
  | cons tree rest ih =>
    have hcons : ∀ l, size (tree :: l) = size [tree] + size l := fun l => size_append [tree] l
    rw [splitAnd] at h
    split at h
    · rcases List.mem_cons.mp h with rfl | h
      · simp [size, flattenAll]
      · have := ih h
        rw [hcons rest]
        omega
    · split at h
      · rename_i hnil
        exact absurd hnil (splitAnd_ne_nil _ rest)
      · rename_i first pieces hsplit
        rw [hcons rest]
        rcases List.mem_cons.mp h with rfl | h
        · have := ih (hsplit ▸ List.mem_cons_self)
          rw [hcons]
          omega
        · have := ih (hsplit ▸ List.mem_cons_of_mem _ h)
          omega

theorem readWith_congr {unit unit' : List Tree → Formula (List Tree)} {trees : List Tree}
    (h : ∀ piece, size piece ≤ size trees → unit piece = unit' piece) :
    readWith unit trees = readWith unit' trees := by
  rw [readWith, readWith]
  congr 1
  refine List.map_congr_left fun piece hp => ?_
  congr 1
  refine List.map_congr_left fun part hpart => ?_
  exact h part ((size_of_mem_splitAnd hpart).trans (size_of_mem_splitOr hp))

theorem readUnit_stable {trees : List Tree} {n m : Nat} (hn : size trees ≤ n)
    (hm : size trees ≤ m) : readUnit n trees = readUnit m trees := by
  induction n generalizing m trees with
  | zero =>
    have hnil : trees = [] := by
      cases trees with
      | nil => rfl
      | cons tree rest => cases tree <;> simp [size, flattenAll, Tree.flatten] at hn
    subst hnil
    cases m <;> simp only [readUnit]
  | succ n ih =>
    cases trees with
    | nil => cases m <;> simp only [readUnit]
    | cons tree rest =>
      have hcons : size (tree :: rest) = size [tree] + size rest := size_append [tree] rest
      have hone : 1 ≤ size [tree] := by cases tree <;> simp [size, flattenAll, Tree.flatten]
      obtain ⟨m, rfl⟩ : ∃ k, m = k + 1 := ⟨m - 1, by omega⟩
      by_cases hgroup : ∃ inner, tree = .group inner ∧ rest = []
      · obtain ⟨inner, rfl, rfl⟩ := hgroup
        rw [size_group] at hn hm
        rw [readUnit, readUnit]
        exact readWith_congr fun piece hp => ih (by omega) (by omega)
      · rw [readUnit, readUnit]
        · have hrest : readUnit n rest = readUnit m rest := ih (by omega) (by omega)
          rw [hrest]
        · rintro inner ⟨⟩ rfl
          exact hgroup ⟨inner, rfl, rfl⟩
        · rintro inner ⟨⟩ rfl
          exact hgroup ⟨inner, rfl, rfl⟩

theorem UnitValue.alone {trees : List Tree} {x : L} (h : UnitValue neg v trees x) :
    Value neg v trees x := by
  have hone : ∀ unit ∈ [(trees, x)], UnitValue neg v unit.1 unit.2 := by simpa using h
  have hall := Value.all (by simp) hone
  simpa [List.intercalate, infAll] using hall

/-- Parentheses keep the value. -/
theorem Value.group {trees : List Tree} {x : L} (h : Value neg v trees x) :
    UnitValue neg v [.group trees] x := by
  refine ⟨Sealed.of_plain (by simp [isPlain, isKeyword]), fun fuel hfuel => ?_⟩
  rw [size_group] at hfuel
  obtain ⟨fuel, rfl⟩ : ∃ n, fuel = n + 1 := ⟨fuel - 1, by omega⟩
  rw [readUnit]
  exact h fuel (by omega)

theorem UnitValue.negated {trees : List Tree} {x : L} (h : UnitValue neg v trees x)
    (hne : trees ≠ []) : UnitValue neg v (notWord :: trees) (neg x) := by
  have hword : Sealed [notWord] := .of_plain (by decide)
  refine ⟨hword.append h.noSplit, fun fuel hfuel => ?_⟩
  have hsize : size (notWord :: trees) = size trees + 1 := by
    rw [← List.singleton_append, size_append, Nat.add_comm]
    rfl
  rw [hsize] at hfuel
  obtain ⟨fuel, rfl⟩ : ∃ n, fuel = n + 1 := ⟨fuel - 1, by omega⟩
  obtain ⟨tree, rest, rfl⟩ := List.exists_cons_of_ne_nil hne
  have hread : readUnit (fuel + 1) (notWord :: tree :: rest) = .neg (readUnit fuel (tree :: rest)) := by
    rw [readUnit, if_pos (by decide)]
    simp
  rw [hread, Formula.eval, h.value fuel (by omega)]

/-- What is neither negated nor in parentheses is an atom. -/
theorem UnitValue.atom {trees : List Tree} (h : Sealed trees)
    (hnot : ∀ tree ∈ trees.head?, isKeyword "NOT" tree = false)
    (hgroup : ∀ inner, trees ≠ [.group inner]) : UnitValue neg v trees (v trees) := by
  refine ⟨h, fun fuel _ => ?_⟩
  have hread : readUnit fuel trees = .atom trees := by
    cases fuel with
    | zero => rw [readUnit]
    | succ fuel =>
      cases trees with
      | nil => rw [readUnit]
      | cons tree rest =>
        rw [readUnit, if_neg (by simp [hnot tree rfl])]
        rintro inner ⟨⟩ rfl
        exact hgroup inner rfl
  rw [hread, Formula.eval]

/-- What is read of the trees is their value. -/
theorem Value.of_read (trees : List Tree) : Value neg v trees ((read trees).eval neg v) := by
  intro fuel hfuel
  rw [Precedence.read, readWith_congr fun piece hp =>
    readUnit_stable (hp.trans hfuel) (hp.trans (Nat.le_refl (size trees)))]

theorem Value.read {trees : List Tree} {x : L} (h : Value neg v trees x) :
    (read trees).eval neg v = x := h _ (Nat.le_refl _)

end

end Ez4.Library.Precedence
