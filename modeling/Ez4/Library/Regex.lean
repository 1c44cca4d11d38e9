import Ez4.Library.PartialMap
import Mathlib.Data.List.TakeWhile
import Mathlib.Algebra.GroupWithZero.Nat

/-! # Backtracking regular expressions

Expressions with groups and negative lookaheads over the units of a text. The
results of an expression at a position are all its matches, in the order a
backtracking matcher tries them. -/
namespace Ez4.Library.Regexp

/-- The UTF-16 units of a text. -/
abbrev Text := List Nat

/-- What `.` does not match. -/
def isLineTerminator (u : Nat) : Bool := u == 0x0A || u == 0x0D || u == 0x2028 || u == 0x2029

inductive UnitSet
  | unit (u : Nat)
  | any
  | except (u : Nat)
deriving DecidableEq, Repr

def UnitSet.has : UnitSet → Nat → Bool
  | .unit u, v => v == u
  | .any, v => !isLineTerminator v
  | .except u, v => v != u

inductive Regex
  | empty
  | one (set : UnitSet)
  | plus (set : UnitSet)
  | seq (first second : Regex)
  | or (first second : Regex)
  | group (number : Nat) (inner : Regex)
  | notAhead (inner : Regex)
  | atStart
  | atEnd
deriving DecidableEq, Repr

abbrev Captures := Nat → Option Text

structure Position where
  index : Nat
  rest : Text
  captures : Captures

namespace Position

variable (p : Position) (w rest : Text) (number : Nat)

/-- The position after a text, with what is left. -/
def after : Position := { p with index := p.index + w.length, rest }

def capture : Position := { p with captures := put p.captures number (some w) }

@[simp] theorem rest_after : (p.after w rest).rest = rest := rfl

@[simp] theorem index_after : (p.after w rest).index = p.index + w.length := rfl

@[simp] theorem captures_after : (p.after w rest).captures = p.captures := rfl

@[simp] theorem rest_capture : (p.capture w number).rest = p.rest := rfl

@[simp] theorem index_capture : (p.capture w number).index = p.index := rfl

@[simp] theorem captures_capture :
    (p.capture w number).captures = put p.captures number (some w) := rfl

end Position

def results : Regex → Position → List Position
  | .empty, p => [p]
  | .one set, p =>
    match p.rest with
    | u :: rest => if set.has u then [p.after [u] rest] else []
    | [] => []
  | .plus set, p =>
    -- the longest run first
    (List.range (p.rest.takeWhile set.has).length).reverse.map fun k =>
      p.after (p.rest.take (k + 1)) (p.rest.drop (k + 1))
  | .seq first second, p => (results first p).flatMap (results second)
  | .or first second, p => results first p ++ results second p
  | .group number inner, p =>
    (results inner p).map fun q => q.capture (p.rest.take (q.index - p.index)) number
  | .notAhead inner, p => if (results inner p).isEmpty then [p] else []
  | .atStart, p => if p.index = 0 then [p] else []
  | .atEnd, p => if p.rest.isEmpty then [p] else []

/-- The match at an index, with the whole match as group 0. -/
def matchAt (r : Regex) (index : Nat) (rest : Text) : Option Captures :=
  (results r ⟨index, rest, fun _ => none⟩).head?.map fun q =>
    put q.captures 0 (some (rest.take (q.index - index)))

def execFrom (r : Regex) (index : Nat) : Text → Option Captures
  | [] => matchAt r index []
  | u :: rest => (matchAt r index (u :: rest)).or (execFrom r (index + 1) rest)

/-- The match at the first index that has one. -/
def exec (r : Regex) (text : Text) : Option Captures := execFrom r 0 text

/-! ## Equations -/

variable {p q : Position} {r s : Regex} {items more : List Regex} {set : UnitSet} {number : Nat}

@[simp] theorem results_empty : results .empty p = [p] := rfl

@[simp] theorem results_seq : results (.seq r s) p = (results r p).flatMap (results s) := rfl

@[simp] theorem results_or : results (.or r s) p = results r p ++ results s p := rfl

theorem results_one_nil (h : p.rest = []) : results (.one set) p = [] := by
  cases p
  cases h
  rfl

theorem results_one_cons {u : Nat} {rest : Text} (h : p.rest = u :: rest) :
    results (.one set) p = if set.has u then [p.after [u] rest] else [] := by
  cases p
  cases h
  rfl

theorem results_plus : results (.plus set) p =
    (List.range (p.rest.takeWhile set.has).length).reverse.map fun k =>
      p.after (p.rest.take (k + 1)) (p.rest.drop (k + 1)) := rfl

theorem results_group : results (.group number r) p =
    (results r p).map fun q => q.capture (p.rest.take (q.index - p.index)) number := rfl

theorem results_notAhead : results (.notAhead r) p =
    if (results r p).isEmpty then [p] else [] := rfl

theorem results_atStart : results .atStart p = if p.index = 0 then [p] else [] := rfl

theorem results_atEnd : results .atEnd p = if p.rest.isEmpty then [p] else [] := rfl

/-! ## Sequences and alternatives -/

def inOrder (items : List Regex) : Regex := items.foldl .seq .empty

def alternatives (first : Regex) (more : List Regex) : Regex := more.foldl .or first

/-- The results of some expressions one after the other. -/
def through : List Regex → Position → List Position
  | [], p => [p]
  | r :: rest, p => (results r p).flatMap (through rest)

theorem results_foldl_seq :
    results (items.foldl .seq r) p = (results r p).flatMap (through items) := by
  induction items generalizing r with
  | nil => simp [through]
  | cons item items ih =>
    rw [List.foldl_cons, ih, results_seq, List.flatMap_assoc]
    rfl

theorem results_inOrder : results (inOrder items) p = through items p := by
  rw [inOrder, results_foldl_seq, results_empty, List.flatMap_singleton]

theorem mem_through_cons :
    q ∈ through (r :: items) p ↔ ∃ m ∈ results r p, q ∈ through items m := List.mem_flatMap

theorem mem_through_append :
    q ∈ through (items ++ more) p ↔ ∃ m ∈ through items p, q ∈ through more m := by
  induction items generalizing p with
  | nil => simp [through]
  | cons item items ih =>
    rw [List.cons_append, mem_through_cons]
    simp only [ih, mem_through_cons]
    constructor
    · rintro ⟨m, hm, n, hn, hq⟩; exact ⟨n, ⟨m, hm, hn⟩, hq⟩
    · rintro ⟨n, ⟨m, hm, hn⟩, hq⟩; exact ⟨m, hm, n, hn, hq⟩

theorem through_singleton : through [r] p = results r p := by
  simp [through]

theorem mem_results_alternatives :
    q ∈ results (alternatives r more) p ↔ ∃ s ∈ r :: more, q ∈ results s p := by
  unfold alternatives
  induction more generalizing r with
  | nil => simp
  | cons s more ih =>
    rw [List.foldl_cons, ih]
    simp only [List.mem_cons, exists_eq_or_imp, results_or, List.mem_append, or_assoc]

/-! ## What is matched -/

theorem mem_results_one : q ∈ results (.one set) p ↔
    ∃ u rest, set.has u = true ∧ p.rest = u :: rest ∧ q = p.after [u] rest := by
  cases hrest : p.rest with
  | nil => simp [results_one_nil hrest]
  | cons u rest =>
    rw [results_one_cons hrest]
    constructor
    · intro h
      obtain ⟨hu, h⟩ := List.mem_ite_nil_right.mp h
      exact ⟨u, rest, hu, rfl, List.mem_singleton.mp h⟩
    · rintro ⟨v, more, hv, hcons, rfl⟩
      obtain ⟨rfl, rfl⟩ := List.cons.inj hcons
      exact List.mem_ite_nil_right.mpr ⟨hv, List.mem_singleton_self _⟩

/-- A text is matched unit for unit. -/
theorem mem_through_units {w : Text} : q ∈ through (w.map fun u => .one (.unit u)) p ↔
    ∃ rest, p.rest = w ++ rest ∧ q = p.after w rest := by
  induction w generalizing p with
  | nil =>
    rw [List.map_nil, through, List.mem_singleton]
    constructor
    · rintro rfl; exact ⟨_, rfl, rfl⟩
    · rintro ⟨rest, rfl, rfl⟩; rfl
  | cons u w ih =>
    rw [List.map_cons, mem_through_cons]
    constructor
    · rintro ⟨m, hm, hq⟩
      obtain ⟨v, rest, hv, hrest, rfl⟩ := mem_results_one.mp hm
      obtain ⟨more, rfl, rfl⟩ := ih.mp hq
      obtain rfl : v = u := by simpa [UnitSet.has] using hv
      refine ⟨more, hrest, ?_⟩
      simp [Position.after, Nat.add_comm, Nat.add_left_comm]
    · rintro ⟨rest, hrest, rfl⟩
      refine ⟨p.after [u] (w ++ rest), mem_results_one.mpr
        ⟨u, _, by simp [UnitSet.has], hrest, rfl⟩,
        ih.mpr ⟨rest, rfl, ?_⟩⟩
      simp [Position.after, Nat.add_comm, Nat.add_left_comm]

/-- A run of one or more units of the set. -/
theorem mem_results_plus : q ∈ results (.plus set) p ↔
    ∃ w rest, w ≠ [] ∧ (∀ u ∈ w, set.has u = true) ∧ p.rest = w ++ rest ∧ q = p.after w rest := by
  simp only [results_plus, List.mem_map, List.mem_reverse, List.mem_range]
  constructor
  · rintro ⟨k, hk, rfl⟩
    have hlength : (p.rest.takeWhile set.has).length ≤ p.rest.length :=
      (List.takeWhile_prefix set.has).length_le
    refine ⟨p.rest.take (k + 1), p.rest.drop (k + 1), ?_, fun u hu => ?_,
      (List.take_append_drop _ _).symm, rfl⟩
    · intro hnil
      rw [← List.length_eq_zero_iff, List.length_take] at hnil
      omega
    · have hpre : p.rest.take (k + 1) <+: p.rest.takeWhile set.has :=
        List.prefix_of_prefix_length_le (List.take_prefix _ _) (List.takeWhile_prefix _)
          (by rw [List.length_take]; omega)
      exact List.mem_takeWhile_imp (hpre.subset hu)
  · rintro ⟨w, rest, hw, hall, hrest, rfl⟩
    have hpos : 0 < w.length := List.length_pos_iff.mpr hw
    have hrun : w.length ≤ (p.rest.takeWhile set.has).length := by
      rw [hrest, List.takeWhile_append_of_pos hall, List.length_append]
      omega
    refine ⟨w.length - 1, by omega, ?_⟩
    rw [Nat.sub_add_cancel hpos, hrest, List.take_left, List.drop_left]

theorem mem_results_group_plus : q ∈ results (.group number (.plus set)) p ↔
    ∃ w rest, w ≠ [] ∧ (∀ u ∈ w, set.has u = true) ∧ p.rest = w ++ rest ∧
      q = (p.after w rest).capture w number := by
  rw [results_group, List.mem_map]
  constructor
  · rintro ⟨m, hm, rfl⟩
    obtain ⟨w, rest, hw, hall, hrest, rfl⟩ := mem_results_plus.mp hm
    refine ⟨w, rest, hw, hall, hrest, ?_⟩
    rw [Position.index_after, Nat.add_sub_cancel_left, hrest, List.take_left]
  · rintro ⟨w, rest, hw, hall, hrest, rfl⟩
    refine ⟨_, mem_results_plus.mpr ⟨w, rest, hw, hall, hrest, rfl⟩, ?_⟩
    rw [Position.index_after, Nat.add_sub_cancel_left, hrest, List.take_left]

theorem mem_results_notAhead :
    q ∈ results (.notAhead r) p ↔ (∀ m, m ∉ results r p) ∧ q = p := by
  rw [results_notAhead, List.mem_ite_nil_right, List.isEmpty_iff, List.eq_nil_iff_forall_not_mem,
    List.mem_singleton]

theorem mem_results_atEnd : q ∈ results .atEnd p ↔ p.rest = [] ∧ q = p := by
  rw [results_atEnd, List.mem_ite_nil_right, List.isEmpty_iff, List.mem_singleton]

/-- An expression that starts with `^` is matched at the start of the text. -/
theorem exec_atStart {text : Text} :
    exec (inOrder (.atStart :: items)) text = matchAt (inOrder (.atStart :: items)) 0 text := by
  have hlater : ∀ (rest : Text) (index : Nat),
      execFrom (inOrder (.atStart :: items)) (index + 1) rest = none := by
    intro rest
    have hnone : ∀ index rest, matchAt (inOrder (.atStart :: items)) (index + 1) rest = none := by
      intro index rest
      simp [matchAt, results_inOrder, through, results_atStart]
    induction rest with
    | nil => exact fun index => hnone index []
    | cons u rest ih =>
      intro index
      rw [execFrom, hnone, ih]
      rfl
  cases text with
  | nil => rfl
  | cons u rest => rw [exec, execFrom, hlater, Option.or_none]

end Ez4.Library.Regexp

/-! ## The notation

A part of the notation of JavaScript: units, escapes of the syntax's own units,
`.` and `[^u]` alone or followed by `+`, alternatives, groups, negative
lookaheads and the two ends. Other texts are not read. -/

namespace Ez4.Library.Regexp

/-- The units that stand for themselves after a backslash alone. -/
def syntaxUnits : Text := "^$\\.*+?()[]{}|".toList.map Char.toNat

def isSyntax (u : Nat) : Bool := syntaxUnits.contains u

inductive Token
  | item (r : Regex)
  | openGroup
  | openPlain
  | openNotAhead
  | bar
  | close
deriving DecidableEq, Repr

/-- The token a text starts with, and how long it is. -/
def nextToken : Text → Option (Nat × Token)
  | [] => none
  | u :: rest =>
    if u = '\\'.toNat then
      match rest with
      | v :: _ => if isSyntax v then some (2, .item (.one (.unit v))) else none
      | [] => none
    else if u = '('.toNat then
      if rest.head? = some '?'.toNat then
        match rest with
        | _ :: v :: _ =>
          if v = '!'.toNat then some (3, .openNotAhead)
          else if v = ':'.toNat then some (3, .openPlain)
          else none
        | _ => none
      else some (1, .openGroup)
    else if u = '.'.toNat then
      if rest.head? = some '+'.toNat then some (2, .item (.plus .any))
      else some (1, .item (.one .any))
    else if u = '['.toNat then
      match rest with
      | v :: w :: x :: more =>
        if v = '^'.toNat ∧ x = ']'.toNat ∧ !isSyntax w then
          if more.head? = some '+'.toNat then some (5, .item (.plus (.except w)))
          else some (4, .item (.one (.except w)))
        else none
      | _ => none
    else if u = ')'.toNat then some (1, .close)
    else if u = '|'.toNat then some (1, .bar)
    else if u = '^'.toNat then some (1, .item .atStart)
    else if u = '$'.toNat then some (1, .item .atEnd)
    else if isSyntax u then none
    else some (1, .item (.one (.unit u)))

/-- The units of a token that was read are skipped. -/
def lexFrom : Nat → Text → Option (List Token)
  | _, [] => some []
  | skip + 1, _ :: rest => lexFrom skip rest
  | 0, u :: rest =>
    match nextToken (u :: rest) with
    | some (length, token) => (lexFrom (length - 1) rest).map (token :: ·)
    | none => none

def lex (text : Text) : Option (List Token) := lexFrom 0 text

inductive FrameKind
  | group (number : Nat)
  | plain
  | notAhead
deriving DecidableEq, Repr

/-- What is read so far between two parentheses. -/
structure Frame where
  kind : FrameKind
  alternatives : Option Regex := none
  sequence : Regex := .empty
deriving DecidableEq, Repr

namespace Frame

variable (f : Frame) (item : Regex)

def add : Frame := { f with sequence := .seq f.sequence item }

def regex : Regex :=
  match f.alternatives with
  | none => f.sequence
  | some r => .or r f.sequence

def bar : Frame := { f with alternatives := some f.regex, sequence := .empty }

def close : Regex :=
  match f.kind with
  | .group number => .group number f.regex
  | .plain => f.regex
  | .notAhead => .notAhead f.regex

end Frame

/-- The groups are numbered as they are opened. -/
def parse : List Token → Nat → Frame → List Frame → Option Regex
  | [], _, top, [] => some top.regex
  | [], _, _, _ :: _ => none
  | .item r :: rest, next, top, stack => parse rest next (top.add r) stack
  | .openGroup :: rest, next, top, stack =>
    parse rest (next + 1) { kind := .group next } (top :: stack)
  | .openPlain :: rest, next, top, stack => parse rest next { kind := .plain } (top :: stack)
  | .openNotAhead :: rest, next, top, stack => parse rest next { kind := .notAhead } (top :: stack)
  | .bar :: rest, next, top, stack => parse rest next top.bar stack
  | .close :: rest, next, top, parent :: stack => parse rest next (parent.add top.close) stack
  | .close :: _, _, _, [] => none

/-- `new RegExp(text)` -/
def ofText (text : Text) : Option Regex :=
  (lex text).bind fun tokens => parse tokens 1 { kind := .plain } []

/-! ## Texts that are read as some tokens -/

variable {text more piece : Text} {tokens others : List Token} {token : Token} {u : Nat}

theorem lexFrom_skip (rest : Text) : lexFrom piece.length (piece ++ rest) = lex rest := by
  induction piece with
  | nil => rfl
  | cons u piece ih => rw [List.length_cons, List.cons_append, lexFrom, ih]

/-- The text is read as the tokens, whatever comes after it. -/
def Lexes (text : Text) (tokens : List Token) : Prop :=
  ∀ rest, lex (text ++ rest) = (lex rest).map (tokens ++ ·)

theorem Lexes.nil : Lexes [] [] := fun _ => Option.map_id'.symm

theorem Lexes.append (h : Lexes text tokens) (hmore : Lexes more others) :
    Lexes (text ++ more) (tokens ++ others) := by
  intro rest
  rw [List.append_assoc, h, hmore, Option.map_map]
  congr 1
  funext ts
  exact (List.append_assoc ..).symm

theorem Lexes.of_nextToken
    (h : ∀ rest, nextToken (u :: piece ++ rest) = some (piece.length + 1, token)) :
    Lexes (u :: piece) [token] := by
  intro rest
  have hnext := h rest
  rw [List.cons_append] at hnext ⊢
  rw [lex, lexFrom, hnext]
  exact congrArg (Option.map _) (lexFrom_skip rest)

theorem Lexes.flatMap {α : Type} {source : α → Text} {read : α → List Token} {items : List α}
    (h : ∀ item ∈ items, Lexes (source item) (read item)) :
    Lexes (items.flatMap source) (items.flatMap read) := by
  induction items with
  | nil => exact .nil
  | cons item items ih =>
    obtain ⟨hitem, hitems⟩ := List.forall_mem_cons.mp h
    exact hitem.append (ih hitems)

/-- A whole text that is read as the tokens. -/
theorem Lexes.lex_eq (h : Lexes text tokens) : lex text = some tokens := by
  have hall := h []
  rw [List.append_nil] at hall
  rw [hall]
  exact congrArg some (List.append_nil _)

end Ez4.Library.Regexp

/-! ## Replacing what is found -/

namespace Ez4.Library

/-- `found` says how long the piece at the start of a text is, and what replaces it. The units of
a piece that was found are skipped. -/
def replaceFrom (found : List Nat → Option (Nat × List Nat)) : Nat → List Nat → List Nat
  | _, [] => []
  | skip + 1, _ :: rest => replaceFrom found skip rest
  | 0, u :: rest =>
    match found (u :: rest) with
    | some (length, replacement) => replacement ++ replaceFrom found (length - 1) rest
    | none => u :: replaceFrom found 0 rest

def replaceAll (found : List Nat → Option (Nat × List Nat)) (text : List Nat) : List Nat :=
  replaceFrom found 0 text

variable {found other : List Nat → Option (Nat × List Nat)}
  {piece rest replacement : List Nat} {u : Nat}

@[simp] theorem replaceAll_nil : replaceAll found [] = [] := rfl

theorem replaceFrom_skip :
    replaceFrom found piece.length (piece ++ rest) = replaceAll found rest := by
  induction piece with
  | nil => rfl
  | cons u piece ih => rw [List.length_cons, List.cons_append, replaceFrom, ih]

/-- A unit where nothing is found is kept. -/
theorem replaceAll_keep (h : found (u :: rest) = none) :
    replaceAll found (u :: rest) = u :: replaceAll found rest := by
  rw [replaceAll, replaceFrom, h]
  rfl

theorem replaceAll_found
    (hfound : found (u :: piece ++ rest) = some (piece.length + 1, replacement)) :
    replaceAll found (u :: piece ++ rest) = replacement ++ replaceAll found rest := by
  rw [List.cons_append] at hfound ⊢
  rw [replaceAll, replaceFrom, hfound]
  exact congrArg (replacement ++ ·) replaceFrom_skip

end Ez4.Library
