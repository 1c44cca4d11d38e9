import Ez4.Distribution.RewritePattern

/-! # What a compiled rewrite pattern matches

The expression of a pattern, and the cuts it goes through. -/
namespace Ez4.Distribution
open Ez4.Library Regexp

/-! ## Expressions -/

def literals (text : Text) : List Regex := text.map fun u => .one (.unit u)

namespace Piece

/-- The expression of a piece, when the next group has the number. -/
def regex (number : Nat) : Piece → Regex
  | literal u => .one (.unit u)
  | star => .group number (inOrder [.plus .any])
  | options [] => .empty
  | options (text :: more) =>
    alternatives (inOrder (literals text)) (more.map fun other => inOrder (literals other))

def groups : Piece → Nat
  | star => 1
  | literal _ | options _ => 0

/-- A piece with options has at least one. -/
def HasOptions : Piece → Prop
  | options texts => texts ≠ []
  | literal _ | star => True

theorem IsPlain.hasOptions {piece : Piece} (h : piece.IsPlain) : piece.HasOptions := by
  cases piece with
  | literal _ | star => trivial
  | options texts => exact h.1

end Piece

def groupsOf (pieces : List Piece) : Nat := (pieces.map Piece.groups).sum

def piecesRegex (number : Nat) : List Piece → List Regex
  | [] => []
  | p :: pieces => p.regex number :: piecesRegex (number + p.groups) pieces

/-- What ends the lookahead of a negation. -/
def completion (last : Bool) : Regex := if last then .atEnd else .one (.unit slash)

def extraction (last : Bool) : UnitSet := if last then .any else .except slash

namespace Element

def regex (number : Nat) : Element → List Regex
  | piece p => [p.regex number]
  | negation pieces last =>
    [.notAhead (inOrder (piecesRegex number pieces ++ [completion last])),
      .group (number + groupsOf pieces) (inOrder [.plus (extraction last)])]

def groups : Element → Nat
  | piece p => p.groups
  | negation pieces _ => groupsOf pieces + 1

end Element

def elementsRegex (number : Nat) : List Element → List Regex
  | [] => []
  | e :: elements => e.regex number ++ elementsRegex (number + e.groups) elements

/-! ## Cuts of an expression -/

/-- A star takes no line terminator. -/
def Piece.TakesOnLine (p : Piece) (w : Text) : Prop :=
  p.Takes w ∧ (p = .star → ∀ u ∈ w, isLineTerminator u = false)

def IsMatchedOnLine (pieces : List Piece) (w : Text) : Prop :=
  ∃ texts, List.Forall₂ Piece.TakesOnLine pieces texts ∧ texts.flatten = w

/-- What an element takes when the rest of the path follows. No negation is matched by a text that
ends at the end of the path or, where it is not the last one, at any later slash. -/
def Element.TakesBefore : Element → Text → Text → Prop
  | piece p, w, _ => p.TakesOnLine w
  | negation pieces true, w, rest =>
    w ≠ [] ∧ (∀ u ∈ w, isLineTerminator u = false) ∧ ¬ IsMatchedOnLine pieces (w ++ rest)
  | negation pieces false, w, rest =>
    w ≠ [] ∧ slash ∉ w ∧ ∀ v, v ++ [slash] <+: w ++ rest → ¬ IsMatchedOnLine pieces v

inductive IsCarefulCut : List Element → List Text → Text → Prop
  | nil : IsCarefulCut [] [] []
  | cons {e : Element} {elements : List Element} {w : Text} {texts : List Text} {rest : Text}
      (h : e.TakesBefore w rest) (hrest : IsCarefulCut elements texts rest) :
      IsCarefulCut (e :: elements) (w :: texts) (w ++ rest)

variable {p q : Position} {piece : Piece} {pieces : List Piece} {elements : List Element}
  {number : Nat}
  {w rest : Text}

theorem isMatchedOnLine_cons : IsMatchedOnLine (piece :: pieces) w ↔
    ∃ a b, piece.TakesOnLine a ∧ IsMatchedOnLine pieces b ∧ w = a ++ b := by
  constructor
  · rintro ⟨texts, h, rfl⟩
    obtain ⟨a, texts, ha, htexts, rfl⟩ := List.forall₂_cons_left_iff.mp h
    exact ⟨a, _, ha, ⟨texts, htexts, rfl⟩, rfl⟩
  · rintro ⟨a, b, ha, ⟨texts, htexts, rfl⟩, rfl⟩
    exact ⟨a :: texts, .cons ha htexts, rfl⟩

/-! ## Pieces -/

/-- The position after a piece, whose group has what a star took. -/
def Piece.taken (piece : Piece) (number : Nat) (w : Text) (p : Position) : Position :=
  match piece with
  | .star => p.capture w number
  | .literal _ | .options _ => p

@[simp] theorem Piece.rest_taken : (piece.taken number w p).rest = p.rest := by
  cases piece <;> rfl

@[simp] theorem Piece.index_taken : (piece.taken number w p).index = p.index := by
  cases piece <;> rfl

theorem mem_results_literals : q ∈ results (inOrder (literals w)) p ↔
    ∃ rest, p.rest = w ++ rest ∧ q = p.after w rest := by
  rw [results_inOrder]
  exact mem_through_units

theorem mem_results_star {set : UnitSet} : q ∈ results (.group number (inOrder [.plus set])) p ↔
    ∃ w rest, w ≠ [] ∧ (∀ u ∈ w, set.has u = true) ∧ p.rest = w ++ rest ∧
      q = (p.after w rest).capture w number := by
  have hsame : results (.group number (inOrder [.plus set])) p =
      results (.group number (.plus set)) p := by
    have hinner : results (inOrder [.plus set]) p = results (.plus set) p := by
      rw [results_inOrder, through_singleton]
    simp only [results_group, hinner]
  rw [hsame, mem_results_group_plus]

/-- The expression of a piece goes through the texts the piece takes. -/
theorem mem_piece_regex (number : Nat) (hoptions : piece.HasOptions) :
    q ∈ results (piece.regex number) p ↔
    ∃ w rest, piece.TakesOnLine w ∧ p.rest = w ++ rest ∧
        q = piece.taken number w (p.after w rest) := by
  cases piece with
  | literal u =>
    rw [Piece.regex, mem_results_one]
    simp only [Piece.TakesOnLine, Piece.Takes, Piece.taken, UnitSet.has, beq_iff_eq]
    constructor
    · rintro ⟨v, rest, rfl, hrest, rfl⟩
      exact ⟨[v], rest, ⟨rfl, fun h => by cases h⟩, hrest, rfl⟩
    · rintro ⟨w, rest, ⟨rfl, -⟩, hrest, rfl⟩
      exact ⟨u, rest, rfl, hrest, rfl⟩
  | star =>
    rw [Piece.regex, mem_results_star]
    simp only [Piece.TakesOnLine, Piece.Takes, Piece.taken, UnitSet.has, Bool.not_eq_true',
      forall_const, and_assoc]
  | options texts =>
    cases texts with
    | nil => exact absurd rfl hoptions
    | cons text more =>
      rw [Piece.regex, mem_results_alternatives]
      have hmem : (∃ s ∈ inOrder (literals text) :: more.map
        (fun other => inOrder (literals other)),
          q ∈ results s p) ↔ ∃ w ∈ text :: more, q ∈ results (inOrder (literals w)) p := by
        simp only [List.mem_cons, exists_eq_or_imp, List.mem_map, exists_exists_and_eq_and]
      rw [hmem]
      simp only [mem_results_literals, Piece.TakesOnLine, Piece.Takes, Piece.taken]
      constructor
      · rintro ⟨w, hw, rest, hrest, rfl⟩
        exact ⟨w, rest, ⟨hw, fun h => by cases h⟩, hrest, rfl⟩
      · rintro ⟨w, rest, ⟨hw, -⟩, hrest, rfl⟩
        exact ⟨w, hw, rest, hrest, rfl⟩

/-- The expressions of some pieces go through the texts they match. -/
theorem exists_piecesRegex (number : Nat) (hoptions : ∀ piece ∈ pieces, piece.HasOptions) :
    (∃ q ∈ through (piecesRegex number pieces) p, q.rest = rest) ↔
      ∃ w, IsMatchedOnLine pieces w ∧ p.rest = w ++ rest := by
  induction pieces generalizing number p with
  | nil =>
    simp only [piecesRegex, through, List.mem_singleton, exists_eq_left]
    constructor
    · intro h
      exact ⟨[], ⟨[], .nil, rfl⟩, h⟩
    · rintro ⟨w, ⟨texts, htexts, rfl⟩, h⟩
      rw [List.forall₂_nil_left_iff.mp htexts] at h
      exact h
  | cons piece pieces ih =>
    obtain ⟨hpiece, hpieces⟩ := List.forall_mem_cons.mp hoptions
    simp only [piecesRegex, mem_through_cons, isMatchedOnLine_cons]
    constructor
    · rintro ⟨q, ⟨m, hm, hq⟩, hrest⟩
      obtain ⟨a, more, ha, hmore, rfl⟩ := (mem_piece_regex number hpiece).mp hm
      obtain ⟨b, hb, hsplit⟩ := (ih _ hpieces).mp ⟨q, hq, hrest⟩
      rw [Piece.rest_taken, Position.rest_after] at hsplit
      exact ⟨a ++ b, ⟨a, b, ha, hb, rfl⟩, by rw [hmore, hsplit, List.append_assoc]⟩
    · rintro ⟨w, ⟨a, b, ha, hb, rfl⟩, hsplit⟩
      rw [List.append_assoc] at hsplit
      have hm := (mem_piece_regex number hpiece).mpr ⟨a, b ++ rest, ha, hsplit, rfl⟩
      obtain ⟨q, hq, hrest⟩ := (ih (number + piece.groups) hpieces).mpr
        ⟨b, hb, (Piece.rest_taken (p := p.after a (b ++ rest))).trans (Position.rest_after ..)⟩
      exact ⟨q, ⟨_, hm, hq⟩, hrest⟩

/-! ## Elements -/

namespace Element

def HasOptions : Element → Prop
  | .piece p => p.HasOptions
  | .negation pieces _ => ∀ p ∈ pieces, p.HasOptions

/-- The position after an element, whose own group has what it took. -/
def taken (e : Element) (number : Nat) (w : Text) (p : Position) : Position :=
  match e with
  | .piece piece => piece.taken number w p
  | .negation pieces _ => p.capture w (number + groupsOf pieces)

end Element

variable {e : Element} {last : Bool}

@[simp] theorem Element.rest_taken : (e.taken number w p).rest = p.rest := by
  cases e with
  | piece piece => exact Piece.rest_taken
  | negation pieces last => rfl

@[simp] theorem Element.index_taken : (e.taken number w p).index = p.index := by
  cases e with
  | piece piece => exact Piece.index_taken
  | negation pieces last => rfl

theorem Element.captures_taken_of_lt {k : Nat} (h : k < number) :
    (e.taken number w p).captures k = p.captures k := by
  cases e with
  | piece piece =>
    cases piece with
    | literal _ | options _ => rfl
    | star => exact put_of_ne _ _ _ (by omega)
  | negation pieces last => exact put_of_ne _ _ _ (by omega)

/-- The lookahead of a negation finds a text up to the end, or up to any slash. -/
theorem exists_lookahead (number : Nat) (hoptions : ∀ piece ∈ pieces, piece.HasOptions) :
    (∃ m, m ∈ results (inOrder (piecesRegex number pieces ++ [completion last])) p) ↔
      ∃ v, IsMatchedOnLine pieces v ∧ if last then p.rest = v else v ++ [slash] <+: p.rest := by
  simp only [results_inOrder, mem_through_append, through_singleton]
  cases last with
  | true =>
    constructor
    · rintro ⟨m, q, hq, hm⟩
      obtain ⟨hend, rfl⟩ := mem_results_atEnd.mp hm
      obtain ⟨v, hv, hsplit⟩ := (exists_piecesRegex number hoptions).mp ⟨m, hq, hend⟩
      exact ⟨v, hv, by rw [if_pos rfl, hsplit, List.append_nil]⟩
    · rintro ⟨v, hv, hsplit⟩
      rw [if_pos rfl] at hsplit
      obtain ⟨q, hq, hend⟩ := (exists_piecesRegex (p := p) number hoptions).mpr
        ⟨v, hv, by rw [hsplit, List.append_nil]⟩
      exact ⟨q, q, hq, mem_results_atEnd.mpr ⟨hend, rfl⟩⟩
  | false =>
    constructor
    · rintro ⟨m, q, hq, hm⟩
      obtain ⟨u, more, hu, hslash, rfl⟩ := mem_results_one.mp hm
      obtain rfl : u = slash := by simpa [UnitSet.has] using hu
      obtain ⟨v, hv, hsplit⟩ := (exists_piecesRegex number hoptions).mp ⟨q, hq, hslash⟩
      refine ⟨v, hv, ?_⟩
      rw [if_neg (by decide)]
      exact ⟨more, by rw [hsplit, List.append_assoc, List.singleton_append]⟩
    · rintro ⟨v, hv, hsplit⟩
      rw [if_neg (by decide)] at hsplit
      obtain ⟨more, hmore⟩ := hsplit
      obtain ⟨q, hq, hslash⟩ := (exists_piecesRegex (p := p) number hoptions).mpr
        ⟨v, hv, by rw [← hmore, List.append_assoc, List.singleton_append]⟩
      exact ⟨_, q, hq, mem_results_one.mpr ⟨slash, more, by simp [UnitSet.has], hslash, rfl⟩⟩

/-- The expressions of an element go through the texts the element takes. -/
theorem mem_element_regex (number : Nat) (hoptions : e.HasOptions) :
    q ∈ through (e.regex number) p ↔
    ∃ w rest, e.TakesBefore w rest ∧ p.rest = w ++ rest ∧
        q = e.taken number w (p.after w rest) := by
  cases e with
  | piece piece =>
    rw [Element.regex, through_singleton, mem_piece_regex number hoptions]
    rfl
  | negation pieces last =>
    have hahead : (∀ m, m ∉ results (inOrder (piecesRegex number pieces ++ [completion last])) p) ↔
        ∀ v, (if last then p.rest = v else v ++ [slash] <+: p.rest) →
          ¬ IsMatchedOnLine pieces v := by
      rw [← not_exists, exists_lookahead number hoptions]
      simp only [not_exists, not_and]
      exact forall_congr' fun v => imp_not_comm
    rw [Element.regex, mem_through_cons]
    simp only [mem_results_notAhead, through_singleton, mem_results_star, hahead]
    cases last with
    | true =>
      constructor
      · rintro ⟨m, ⟨hno, rfl⟩, w, rest, hw, hline, hsplit, rfl⟩
        exact ⟨w, rest, ⟨hw, by simpa [extraction, UnitSet.has] using hline,
          hno _ hsplit⟩, hsplit, rfl⟩
      · rintro ⟨w, rest, ⟨hw, hline, hno⟩, hsplit, rfl⟩
        refine ⟨p, ⟨fun v hv => ?_, rfl⟩, w, rest, hw,
          by simpa [extraction, UnitSet.has] using hline,
          hsplit, rfl⟩
        rw [if_pos rfl] at hv
        rw [← hv, hsplit]
        exact hno
    | false =>
      constructor
      · rintro ⟨m, ⟨hno, rfl⟩, w, rest, hw, hslash, hsplit, rfl⟩
        refine ⟨w, rest, ⟨hw, fun hmem => ?_, fun v hv => hno v ?_⟩, hsplit, rfl⟩
        · simpa [extraction, UnitSet.has] using hslash slash hmem
        · rw [if_neg (by decide), hsplit]
          exact hv
      · rintro ⟨w, rest, ⟨hw, hslash, hno⟩, hsplit, rfl⟩
        refine ⟨p, ⟨fun v hv => hno v ?_, rfl⟩, w, rest, hw, fun u hu => ?_, hsplit, rfl⟩
        · rw [if_neg (by decide), hsplit] at hv
          exact hv
        · have hne : u ≠ slash := fun he => hslash (he ▸ hu)
          simpa [extraction, UnitSet.has] using hne

/-! ## Whole patterns -/

/-- The first group is one of a lookahead. -/
def hidesFirst : List Element → Bool
  | .piece .star :: _ => false
  | .negation pieces _ :: _ => pieces.contains .star
  | .piece (.literal _) :: elements | .piece (.options _) :: elements => hidesFirst elements
  | [] => false

theorem groupsOf_eq_zero_iff : groupsOf pieces = 0 ↔ pieces.contains .star = false := by
  induction pieces with
  | nil => simp [groupsOf]
  | cons piece pieces ih =>
    have hsum : groupsOf (piece :: pieces) = piece.groups + groupsOf pieces := rfl
    rw [hsum]
    cases piece with
    | star => simp [Piece.groups]
    | literal u => simpa [Piece.groups] using ih
    | options texts => simpa [Piece.groups] using ih

/-- What goes through the elements cuts what is left of the path, and the first group that is
opened after the position is that of the first star or negation, unless a lookahead has it. -/
theorem isCarefulCut_of_mem (hoptions : ∀ e ∈ elements, e.HasOptions)
    (h : q ∈ through (elementsRegex number elements ++ [.atEnd]) p) :
    ∃ texts, IsCarefulCut elements texts p.rest ∧ q.index = p.index + p.rest.length ∧
      (∀ k < number, q.captures k = p.captures k) ∧
      q.captures number = if hidesFirst elements then p.captures number
        else (firstTaken elements texts).or (p.captures number) := by
  induction elements generalizing number p with
  | nil =>
    rw [elementsRegex, List.nil_append, through_singleton] at h
    obtain ⟨hend, rfl⟩ := mem_results_atEnd.mp h
    refine ⟨[], ?_, ?_, fun _ _ => rfl, rfl⟩
    · rw [hend]
      exact .nil
    · rw [hend]
      rfl
  | cons e elements ih =>
    obtain ⟨he, helements⟩ := List.forall_mem_cons.mp hoptions
    rw [elementsRegex, List.append_assoc] at h
    obtain ⟨m, hm, hq⟩ := mem_through_append.mp h
    obtain ⟨w, rest, htakes, hsplit, rfl⟩ := (mem_element_regex number he).mp hm
    obtain ⟨texts, hcut, hindex, hkept, hfirst⟩ := ih helements hq
    rw [Element.rest_taken, Position.rest_after] at hcut hindex
    have hearlier : ∀ k < number, q.captures k = p.captures k := fun k hk => by
      rw [hkept k (by omega), Element.captures_taken_of_lt hk]
      rfl
    refine ⟨w :: texts, hsplit ▸ .cons htakes hcut, ?_, hearlier, ?_⟩
    · rw [hindex, hsplit, Element.index_taken, Position.index_after, List.length_append,
        Nat.add_assoc]
    · cases e with
      | piece piece =>
        cases piece with
        | literal _ | options _ => exact hfirst
        | star =>
          rw [hkept number (by simp [Element.groups, Piece.groups])]
          exact put_self _ _ _
      | negation pieces last =>
        rw [hkept number (by simp only [Element.groups]; omega)]
        change put p.captures (number + groupsOf pieces) (some w) number = _
        cases hstar : pieces.contains .star with
        | true =>
          have hne : groupsOf pieces ≠ 0 := fun hzero => by
            rw [groupsOf_eq_zero_iff.mp hzero] at hstar
            cases hstar
          rw [put_of_ne _ _ _ (by omega), hidesFirst, hstar, if_pos rfl]
        | false =>
          rw [groupsOf_eq_zero_iff.mpr hstar, Nat.add_zero, put_self, hidesFirst, hstar,
            if_neg (by decide)]
          rfl

/-- The expressions go through every careful cut. -/
theorem exists_mem_of_isCarefulCut (number : Nat) {texts : List Text}
    (h : IsCarefulCut elements texts rest)
    (hoptions : ∀ e ∈ elements, e.HasOptions) (hrest : p.rest = rest) :
    ∃ q, q ∈ through (elementsRegex number elements ++ [.atEnd]) p := by
  induction h generalizing number p with
  | nil =>
    refine ⟨p, ?_⟩
    rw [elementsRegex, List.nil_append, through_singleton]
    exact mem_results_atEnd.mpr ⟨hrest, rfl⟩
  | @cons e _ _ _ _ htakes _ ih =>
    obtain ⟨he, helements⟩ := List.forall_mem_cons.mp hoptions
    have hm := (mem_element_regex number he).mpr ⟨_, _, htakes, hrest, rfl⟩
    obtain ⟨q, hq⟩ := ih (number + e.groups) helements
      (Element.rest_taken.trans (Position.rest_after ..))
    refine ⟨q, ?_⟩
    rw [elementsRegex, List.append_assoc]
    exact mem_through_append.mpr ⟨_, hm, hq⟩

/-- The expression of a pattern with these elements. -/
def patternRegex (elements : List Element) : Regex :=
  inOrder (.atStart :: (elementsRegex 1 elements ++ [.atEnd]))

theorem exec_patternRegex (path : Text) : exec (patternRegex elements) path =
    (through (elementsRegex 1 elements ++ [.atEnd]) ⟨0, path, fun _ => none⟩).head?.map fun q =>
      put q.captures 0 (some (path.take q.index)) := by
  rw [patternRegex, exec_atStart, matchAt, results_inOrder]
  simp only [through, results_atStart, if_pos, List.flatMap_singleton, Nat.sub_zero]

/-- **A compiled pattern matches the paths that have a careful cut.** -/
theorem exec_patternRegex_isSome_iff (hoptions : ∀ e ∈ elements, e.HasOptions) (path : Text) :
    (exec (patternRegex elements) path).isSome = true ↔
      ∃ texts, IsCarefulCut elements texts path := by
  rw [exec_patternRegex, Option.isSome_map, List.isSome_head?]
  constructor
  · intro h
    obtain ⟨q, hq⟩ := List.exists_mem_of_ne_nil _ (by simpa using h)
    obtain ⟨texts, hcut, -⟩ := isCarefulCut_of_mem hoptions hq
    exact ⟨texts, hcut⟩
  · rintro ⟨texts, hcut⟩
    obtain ⟨q, hq⟩ := exists_mem_of_isCarefulCut 1 (p := ⟨0, path, fun _ => none⟩) hcut hoptions rfl
    simpa using List.ne_nil_of_mem hq

/-- Group 0 is the whole path, and group 1 what the first star or negation takes in a careful cut,
unless it is one of a lookahead. -/
theorem exec_patternRegex_eq_some (hoptions : ∀ e ∈ elements, e.HasOptions) {path : Text}
    {matched : Captures}
    (h : exec (patternRegex elements) path = some matched) :
    matched 0 = some path ∧ ∃ texts, IsCarefulCut elements texts path ∧
      matched 1 = if hidesFirst elements then none else firstTaken elements texts := by
  rw [exec_patternRegex] at h
  obtain ⟨q, hq, rfl⟩ := Option.map_eq_some_iff.mp h
  obtain ⟨texts, hcut, hindex, -, hfirst⟩ := isCarefulCut_of_mem hoptions (List.mem_of_mem_head? hq)
  refine ⟨?_, texts, hcut, ?_⟩
  · rw [put_self, hindex, Nat.zero_add, List.take_length]
  · rw [put_of_ne _ _ _ (by decide), hfirst, Option.or_none]

end Ez4.Distribution
