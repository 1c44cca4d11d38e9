import Ez4.Distribution.Rewrite

/-! # What a rewrite pattern says

Patterns as they are meant: segments of literal text, stars and options, which
may be negated, and how a path is cut by them. -/
namespace Ez4.Distribution
open Ez4.Library Regexp

/-! ## Patterns -/

inductive Piece
  | literal (u : Nat)
  | star
  | options (texts : List Text)
deriving DecidableEq, Repr

namespace Piece

/-- A brace that opens is the start of some options. -/
def IsPlain : Piece → Prop
  | literal u => u ≠ slash ∧ u ≠ '*'.toNat ∧ u ≠ '{'.toNat
  | star => True
  | options texts => texts ≠ [] ∧ ∀ text ∈ texts, text ≠ [] ∧
    ∀ u ∈ text, u ≠ slash ∧ u ≠ '*'.toNat ∧ u ≠ '|'.toNat ∧ u ≠ '}'.toNat

def write : Piece → Text
  | literal u => [u]
  | star => ascii "*"
  | options texts => ascii "\x7b" ++ (ascii "|").intercalate texts ++ ascii "\x7d"

/-- The texts that stand for the piece in a path. -/
def Takes : Piece → Text → Prop
  | literal u, w => w = [u]
  | star, w => w ≠ []
  | options texts, w => w ∈ texts

end Piece

structure Segment where
  negated : Bool
  pieces : List Piece
  plain : ∀ p ∈ pieces, p.IsPlain
  /-- The mark of a negation is no literal text where a segment starts. -/
  unmarked : negated = false → pieces.head? ≠ some (.literal '!'.toNat)

def Segment.write (s : Segment) : Text :=
  (if s.negated then ascii "!" else []) ++ s.pieces.flatMap Piece.write

structure Pattern where
  segments : List Segment
  nonempty : segments ≠ []

def Pattern.write (pattern : Pattern) : Text :=
  (ascii "/").intercalate (pattern.segments.map Segment.write)

/-! ## Cuts -/

/-- The text is matched by the pieces one after the other. -/
def IsMatchedBy (pieces : List Piece) (w : Text) : Prop :=
  ∃ texts, List.Forall₂ Piece.Takes pieces texts ∧ texts.flatten = w

/-- A piece of a segment, a slash between two, or a whole negated segment. -/
inductive Element
  | piece (p : Piece)
  | negation (pieces : List Piece) (last : Bool)
deriving DecidableEq, Repr

def Segment.elements (s : Segment) (last : Bool) : List Element :=
  if s.negated then [.negation s.pieces last] else s.pieces.map .piece

def elementsOf : List Segment → List Element
  | [] => []
  | [s] => s.elements true
  | s :: rest => s.elements false ++ .piece (.literal slash) :: elementsOf rest

theorem mem_elements {e : Element} {s : Segment} {last : Bool} (h : e ∈ s.elements last) :
    (∃ piece ∈ s.pieces, e = .piece piece) ∨ e = .negation s.pieces last := by
  rw [Segment.elements] at h
  split at h
  · exact .inr (List.mem_singleton.mp h)
  · obtain ⟨piece, hpiece, rfl⟩ := List.mem_map.mp h
    exact .inl ⟨piece, hpiece, rfl⟩

theorem mem_elementsOf {e : Element} {segments : List Segment} (h : e ∈ elementsOf segments) :
    e = .piece (.literal slash) ∨ ∃ (s : Segment) (last : Bool), e ∈ s.elements last := by
  induction segments with
  | nil => exact absurd h List.not_mem_nil
  | cons s segments ih =>
    cases segments with
    | nil => exact .inr ⟨s, true, h⟩
    | cons t segments =>
      rcases List.mem_append.mp h with h | h
      · exact .inr ⟨s, false, h⟩
      · rcases List.mem_cons.mp h with h | h
        · exact .inl h
        · exact ih h

def Pattern.elements (pattern : Pattern) : List Element := elementsOf pattern.segments

def Element.Takes : Element → Text → Prop
  | piece p, w => p.Takes w
  | negation pieces last, w => w ≠ [] ∧ (last = false → slash ∉ w) ∧ ¬ IsMatchedBy pieces w

/-- The path is cut as the pattern says. -/
def IsCut (elements : List Element) (texts : List Text) (path : Text) : Prop :=
  List.Forall₂ Element.Takes elements texts ∧ texts.flatten = path

/-- What is taken by the first star outside the negations or the first negated segment. -/
def firstTaken : List Element → List Text → Option Text
  | .piece .star :: _, w :: _ | .negation _ _ :: _, w :: _ => some w
  | .piece (.literal _) :: elements, _ :: texts | .piece (.options _) :: elements, _ :: texts =>
    firstTaken elements texts
  | _, _ => none

/-- The path is matched if and only if it can be cut, and a target is filled in with the texts of
a cut. -/
structure MatchesAsSaid (pattern : Pattern) (path : Text) : Prop where
  isMatched : (execPattern pattern.write path).isSome = true ↔
    ∃ texts, IsCut pattern.elements texts path
  fills : ∀ matched, execPattern pattern.write path = some matched →
    ∃ texts, IsCut pattern.elements texts path ∧ ∀ target,
      let value := fun index => if index = 0 then path else
        if index = 1 then (firstTaken pattern.elements texts).getD (toText (matched 1))
        else toText (matched index)
      Cloudfront.applyTargetVariables target matched = fillIn value target ∧
      Local.applyTargetVariables target matched = fillIn value target

end Ez4.Distribution
