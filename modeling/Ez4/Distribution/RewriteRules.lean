import Ez4.Distribution.CompiledExpression

/-! # When a rewrite rule matches what its pattern says

The compiled pattern goes through the careful cuts only, and the cuts of a path
are all careful where no negation has a star. -/
namespace Ez4.Distribution
open Ez4.Library Regexp

variable {pieces : List Piece} {elements : List Element} {texts : List Text} {w path : Text}

theorem execPattern_write (pattern : Pattern) (path : Text) :
    execPattern pattern.write path = exec (patternRegex pattern.elements) path := by
  rw [execPattern, ofText_compileRewritePattern]
  rfl

/-! ## Texts on one line -/

def IsOnLine (w : Text) : Prop := ∀ u ∈ w, isLineTerminator u = false

theorem isMatchedBy_of_onLine (h : IsMatchedOnLine pieces w) : IsMatchedBy pieces w := by
  obtain ⟨texts, htexts, rfl⟩ := h
  exact ⟨texts, htexts.imp fun _ _ htakes => htakes.1, rfl⟩

theorem isMatchedOnLine_of_isOnLine (hline : IsOnLine w) (h : IsMatchedBy pieces w) :
    IsMatchedOnLine pieces w := by
  obtain ⟨texts, htexts, rfl⟩ := h
  refine ⟨texts, ?_, rfl⟩
  induction htexts with
  | nil => exact .nil
  | cons htakes _ ih =>
    refine .cons ⟨htakes, fun _ u hu => hline u ?_⟩ (ih fun u hu => hline u ?_)
    · exact List.mem_append_left _ hu
    · exact List.mem_append_right _ hu

/-! ## What comes after a negation -/

/-- The last negation ends the pattern, and a slash comes after any other one. -/
def AreSeparated : List Element → Prop
  | [] => True
  | .piece _ :: elements => AreSeparated elements
  | .negation _ true :: elements => elements = []
  | .negation _ false :: elements =>
    elements.head? = some (.piece (.literal slash)) ∧ AreSeparated elements

theorem areSeparated_pieces (pieces : List Piece) :
    AreSeparated (pieces.map .piece ++ elements) ↔ AreSeparated elements := by
  induction pieces with
  | nil => exact Iff.rfl
  | cons piece pieces ih => exact ih

theorem areSeparated_elementsOf (segments : List Segment) : AreSeparated (elementsOf segments) := by
  induction segments with
  | nil => trivial
  | cons s segments ih =>
    cases segments with
    | nil =>
      rw [elementsOf, Segment.elements]
      split
      · exact rfl
      · rw [← List.append_nil (List.map _ _)]
        exact (areSeparated_pieces s.pieces).mpr trivial
    | cons t segments =>
      change AreSeparated (s.elements false ++ .piece (.literal slash) ::
        elementsOf (t :: segments))
      rw [Segment.elements]
      split
      · exact ⟨rfl, ih⟩
      · exact (areSeparated_pieces s.pieces).mpr ih

/-! ## Careful cuts -/

/-- On one line, a careful cut is a cut. -/
theorem isCut_of_isCarefulCut (hseparated : AreSeparated elements) (hline : IsOnLine path)
    (h : IsCarefulCut elements texts path) : IsCut elements texts path := by
  induction h with
  | nil => exact ⟨.nil, rfl⟩
  | @cons e elements w texts rest htakes hrest ih =>
    have hw : IsOnLine w := fun u hu => hline u (List.mem_append_left _ hu)
    have hlater : IsOnLine rest := fun u hu => hline u (List.mem_append_right _ hu)
    cases e with
    | piece piece =>
      obtain ⟨hforall, rfl⟩ := ih hseparated hlater
      exact ⟨.cons htakes.1 hforall, rfl⟩
    | negation pieces last =>
      cases last with
      | true =>
        obtain rfl : elements = [] := hseparated
        cases hrest
        obtain ⟨hne, -, hno⟩ := htakes
        rw [List.append_nil] at hno
        refine ⟨.cons ⟨hne, fun h => absurd h (by decide), fun hmatched => hno ?_⟩ .nil, rfl⟩
        exact isMatchedOnLine_of_isOnLine hw hmatched
      | false =>
        obtain ⟨hforall, hflatten⟩ := ih hseparated.2 hlater
        obtain ⟨hne, hslash, hno⟩ := htakes
        refine ⟨.cons ⟨hne, fun _ => hslash, fun hmatched => ?_⟩ hforall,
          congrArg (w ++ ·) hflatten⟩
        -- the slash after the segment is the first one that the lookahead comes to
        obtain ⟨more, rfl⟩ : ∃ more, rest = [slash] ++ more := by
          cases hrest with
          | nil => exact absurd hseparated.1 (by decide)
          | cons hfirst _ =>
            obtain rfl := Option.some.inj hseparated.1
            exact ⟨_, by rw [hfirst.1]⟩
        refine hno w ?_ (isMatchedOnLine_of_isOnLine hw hmatched)
        rw [← List.append_assoc]
        exact List.prefix_append _ _

/-! ## Negations without stars -/

/-- No negation has a star. -/
def AreStarless (elements : List Element) : Prop :=
  ∀ pieces last, .negation pieces last ∈ elements → .star ∉ pieces

theorem slash_not_mem_of_starless (hplain : ∀ piece ∈ pieces, piece.IsPlain)
    (hstarless : .star ∉ pieces)
    (h : IsMatchedBy pieces w) : slash ∉ w := by
  obtain ⟨texts, htexts, rfl⟩ := h
  induction htexts with
  | nil => exact List.not_mem_nil
  | @cons piece text _ _ htakes _ ih =>
    obtain ⟨hpiece, hpieces⟩ := List.forall_mem_cons.mp hplain
    have hlater := ih hpieces fun h => hstarless (List.mem_cons_of_mem _ h)
    rw [List.flatten_cons, List.mem_append, not_or]
    refine ⟨?_, hlater⟩
    cases piece with
    | star => exact absurd List.mem_cons_self hstarless
    | literal u =>
      rw [show text = [u] from htakes, List.mem_singleton]
      exact hpiece.1.symm
    | options texts => exact fun h => ((hpiece.2 text htakes).2 _ h).1 rfl

/-- Two texts without slashes, each before a slash of the same path, are the same. -/
theorem eq_of_prefix {v w rest : Text} (hv : slash ∉ v) (hw : slash ∉ w)
    (h : v ++ [slash] <+: w ++ slash :: rest) : v = w := by
  obtain ⟨more, hmore⟩ := h
  rw [List.append_assoc, List.singleton_append] at hmore
  have htake : ∀ (u : Text) (later : Text), slash ∉ u →
      (u ++ slash :: later).takeWhile (· ≠ slash) = u := by
    intro u later hu
    have hpos : ∀ a ∈ u, decide (a ≠ slash) = true := fun a ha =>
      decide_eq_true fun h => hu (h ▸ ha)
    rw [List.takeWhile_append_of_pos hpos, List.takeWhile_cons_of_neg (by decide), List.append_nil]
  rw [← htake v more hv, hmore, htake w rest hw]

def ArePlain (elements : List Element) : Prop :=
  ∀ pieces last, .negation pieces last ∈ elements → ∀ piece ∈ pieces, piece.IsPlain

theorem arePlain_elements (pattern : Pattern) : ArePlain pattern.elements := by
  intro pieces last h
  rcases mem_elementsOf h with h | ⟨s, last, h⟩
  · cases h
  · rcases mem_elements h with ⟨piece, -, h⟩ | h
    · cases h
    · obtain ⟨rfl, -⟩ := Element.negation.inj h
      exact s.plain

/-- Where no negation has a star, a cut on one line is careful. -/
theorem isCarefulCut_of_isCut (hseparated : AreSeparated elements) (hplain : ArePlain elements)
    (hstarless : AreStarless elements) (hline : IsOnLine path) (h : IsCut elements texts path) :
    IsCarefulCut elements texts path := by
  obtain ⟨hforall, rfl⟩ := h
  induction hforall with
  | nil => exact .nil
  | @cons e w elements texts htakes hforall ih =>
    have hw : IsOnLine w := fun u hu => hline u (List.mem_append_left _ hu)
    have hlater : IsOnLine texts.flatten := fun u hu => hline u (List.mem_append_right _ hu)
    have hplainLater : ArePlain elements := fun _ _ h => hplain _ _ (List.mem_cons_of_mem _ h)
    have hstarlessLater : AreStarless elements := fun _ _ h =>
      hstarless _ _ (List.mem_cons_of_mem _ h)
    cases e with
    | piece piece =>
      exact .cons ⟨htakes, fun _ => hw⟩ (ih hseparated hplainLater hstarlessLater hlater)
    | negation pieces last =>
      obtain ⟨hne, hslash, hno⟩ := htakes
      cases last with
      | true =>
        obtain rfl : elements = [] := hseparated
        cases hforall
        refine .cons ⟨hne, hw, fun h => hno (isMatchedBy_of_onLine ?_)⟩ .nil
        rwa [List.flatten_nil, List.append_nil] at h
      | false =>
        obtain ⟨hhead, hseparated⟩ := hseparated
        refine .cons ⟨hne, hslash rfl, fun v hv hmatched => hno ?_⟩
          (ih hseparated hplainLater hstarlessLater hlater)
        have hmatched := isMatchedBy_of_onLine hmatched
        have hvslash := slash_not_mem_of_starless (hplain _ _ List.mem_cons_self)
          (hstarless _ _ List.mem_cons_self) hmatched
        obtain ⟨more, hmore⟩ : ∃ more, texts.flatten = slash :: more := by
          cases hforall with
          | nil => exact absurd hhead (by decide)
          | cons hfirst _ =>
            obtain rfl := Option.some.inj hhead
            exact ⟨_, by rw [List.flatten_cons, show _ = [slash] from hfirst]; rfl⟩
        rw [hmore] at hv
        rwa [← eq_of_prefix hvslash (hslash rfl) hv]

/-! ## Rules -/

/-- What the first lookahead captures is not what the first negation takes. -/
theorem exists_firstTaken (hhides : hidesFirst elements = true)
    (h : List.Forall₂ Element.Takes elements texts) : ∃ w, firstTaken elements texts = some w := by
  induction h with
  | nil => cases hhides
  | @cons e w elements texts _ _ ih =>
    cases e with
    | piece piece =>
      cases piece with
      | star => cases hhides
      | literal _ | options _ => exact ih hhides
    | negation pieces last => exact ⟨w, rfl⟩

/-- The pattern does with the path what it says: no star of a negation runs past the segment, no
star comes to a line terminator, and the first negation has no star of its own unless what it
takes is the text of a group without a match. -/
structure IsWithinReach (pattern : Pattern) (path : Text) : Prop where
  taken : ∀ texts, IsCut pattern.elements texts path →
    ∃ texts, IsCarefulCut pattern.elements texts path
  refused : ∀ texts, IsCarefulCut pattern.elements texts path → IsCut pattern.elements texts path
  first : hidesFirst pattern.elements = true → ∀ texts, IsCarefulCut pattern.elements texts path →
    ∃ texts, IsCut pattern.elements texts path ∧
      firstTaken pattern.elements texts = some (ascii "undefined")

theorem hidesFirst_of_starless (hstarless : AreStarless elements) :
    hidesFirst elements = false := by
  induction elements with
  | nil => rfl
  | cons e elements ih =>
    have hlater : AreStarless elements := fun _ _ h => hstarless _ _ (List.mem_cons_of_mem _ h)
    cases e with
    | piece piece =>
      cases piece with
      | star => rfl
      | literal _ | options _ => exact ih hlater
    | negation pieces last => simpa [hidesFirst] using hstarless pieces last List.mem_cons_self

/-- Every path on one line is within reach of a pattern whose negations have no star. -/
theorem isWithinReach_of_starless (pattern : Pattern) (hstarless : AreStarless pattern.elements)
    (hline : IsOnLine path) : IsWithinReach pattern path where
  taken texts hcut := ⟨texts, isCarefulCut_of_isCut (areSeparated_elementsOf _)
    (arePlain_elements pattern) hstarless hline hcut⟩
  refused _ := isCut_of_isCarefulCut (areSeparated_elementsOf _) hline
  first hhides := by
    rw [hidesFirst_of_starless hstarless] at hhides
    cases hhides

theorem fillIn_reference (value : Nat → Text) : fillIn value (ascii "$1") = value 1 := by
  change value 1 ++ [] = value 1
  rw [List.append_nil]

theorem isMatched_of_isWithinReach {pattern : Pattern} (h : IsWithinReach pattern path) :
    (execPattern pattern.write path).isSome = true ↔
      ∃ texts, IsCut pattern.elements texts path := by
  rw [execPattern_write, exec_patternRegex_isSome_iff (hasOptions_elements pattern)]
  constructor
  · rintro ⟨texts, hcut⟩; exact ⟨texts, h.refused texts hcut⟩
  · rintro ⟨texts, hcut⟩; exact h.taken texts hcut

theorem fills_of_isWithinReach {pattern : Pattern} (h : IsWithinReach pattern path)
    {matched : Captures}
    (hexec : execPattern pattern.write path = some matched) :
    ∃ texts, IsCut pattern.elements texts path ∧ ∀ index, toText (matched index) =
      if index = 0 then path
      else if index = 1 then (firstTaken pattern.elements texts).getD (toText (matched 1))
      else toText (matched index) := by
  rw [execPattern_write] at hexec
  obtain ⟨hwhole, texts, hcut, hone⟩ := exec_patternRegex_eq_some
    (hasOptions_elements pattern) hexec
  have hvalues : ∀ found : List Text,
      (firstTaken pattern.elements found).getD (toText (matched 1)) = toText (matched 1) →
      ∀ index, toText (matched index) = if index = 0 then path
        else if index = 1 then (firstTaken pattern.elements found).getD (toText (matched 1))
        else toText (matched index) := by
    intro found hfound index
    split
    · next hzero =>
      rw [hzero, hwhole]
      rfl
    · split
      · next hindex => rw [hindex, hfound]
      · rfl
  cases hhides : hidesFirst pattern.elements with
  | true =>
    rw [hhides, if_pos rfl] at hone
    obtain ⟨found, hfound, hfirst⟩ := h.first hhides texts hcut
    refine ⟨found, hfound, hvalues found ?_⟩
    rw [hfirst, hone]
    rfl
  | false =>
    rw [hhides, if_neg (by decide)] at hone
    refine ⟨texts, h.refused texts hcut, hvalues texts ?_⟩
    rw [hone, toText]
    cases firstTaken pattern.elements texts <;> rfl

theorem matchesAsSaid_of_isWithinReach {pattern : Pattern} (h : IsWithinReach pattern path) :
    MatchesAsSaid pattern path where
  isMatched := isMatched_of_isWithinReach h
  fills matched hexec := by
    obtain ⟨texts, hcut, hvalues⟩ := fills_of_isWithinReach h hexec
    have hvalue := funext hvalues
    exact ⟨texts, hcut, fun target =>
      ⟨congrArg (fillIn · target) hvalue, congrArg (fillIn · target) hvalue⟩⟩

theorem isWithinReach_of_matchesAsSaid {pattern : Pattern} (hline : IsOnLine path)
    (h : MatchesAsSaid pattern path) : IsWithinReach pattern path := by
  have hexec : (execPattern pattern.write path).isSome = true ↔
      ∃ texts, IsCarefulCut pattern.elements texts path := by
    rw [execPattern_write, exec_patternRegex_isSome_iff (hasOptions_elements pattern)]
  refine ⟨fun texts hcut => hexec.mp (h.isMatched.mpr ⟨texts, hcut⟩),
    fun texts => isCut_of_isCarefulCut (areSeparated_elementsOf _) hline,
      fun hhides texts hcut => ?_⟩
  obtain ⟨matched, hmatched⟩ := Option.isSome_iff_exists.mp (hexec.mpr ⟨texts, hcut⟩)
  obtain ⟨found, hfound, hfills⟩ := h.fills matched hmatched
  obtain ⟨w, hw⟩ := exists_firstTaken hhides hfound.1
  refine ⟨found, hfound, ?_⟩
  rw [execPattern_write] at hmatched
  obtain ⟨-, _, -, hone⟩ := exec_patternRegex_eq_some (hasOptions_elements pattern) hmatched
  rw [hhides, if_pos rfl] at hone
  have htarget := (hfills (ascii "$1")).1
  rw [Cloudfront.applyTargetVariables, fillIn_reference, fillIn_reference, if_neg (by decide),
    if_pos rfl, hw, hone] at htarget
  rw [hw]
  exact congrArg some htarget.symm

/-- **A rewrite rule matches what its pattern says within its reach only**, which is every path on
one line for a pattern whose negations have no star. -/
theorem matchesAsSaid_withinReach (pattern : Pattern) (path : Text) :
    (IsWithinReach pattern path → MatchesAsSaid pattern path) ∧
      (IsOnLine path → MatchesAsSaid pattern path → IsWithinReach pattern path) ∧
      (AreStarless pattern.elements → IsOnLine path → MatchesAsSaid pattern path) :=
  ⟨matchesAsSaid_of_isWithinReach, isWithinReach_of_matchesAsSaid, fun hstarless hline =>
    matchesAsSaid_of_isWithinReach (isWithinReach_of_starless pattern hstarless hline)⟩

namespace Sample

def plainSegment (text : Text) (hplain : ∀ u ∈ text, (Piece.literal u).IsPlain)
    (hunmarked : text.head? ≠ some '!'.toNat) : Segment where
  negated := false
  pieces := text.map .literal
  plain := List.forall_mem_map.mpr hplain
  unmarked _ h := hunmarked (by simpa using h)

def emptySegment : Segment := plainSegment [] (by simp) (by decide)

/-- `!a` -/
def noA : Segment where
  negated := true
  pieces := [.literal 'a'.toNat]
  plain := by simp [Piece.IsPlain, slash]
  unmarked h := by cases h

/-- `!a*` -/
def noAs : Segment where
  negated := true
  pieces := [.literal 'a'.toNat, .star]
  plain := by simp [Piece.IsPlain, slash]
  unmarked h := by cases h

def star : Segment where
  negated := false
  pieces := [.star]
  plain := by simp [Piece.IsPlain]
  unmarked _ := by decide

/-- `/!a/*` -/
def anyButA : Pattern := ⟨[emptySegment, noA, star], by decide⟩

/-- `/!a*/*` -/
def anyButAs : Pattern := ⟨[emptySegment, noAs, star], by decide⟩

theorem starless_anyButA : AreStarless anyButA.elements := by
  intro pieces last h
  obtain ⟨rfl, -⟩ : pieces = [.literal 'a'.toNat] ∧ last = false := by
    simpa [Pattern.elements, anyButA, elementsOf, Segment.elements, emptySegment, noA, star,
      plainSegment] using h
  decide

theorem anyButA_matches : MatchesAsSaid anyButA (ascii "/b/c") ∧
    (execPattern anyButA.write (ascii "/b/c")).isSome = true :=
  ⟨(matchesAsSaid_withinReach _ _).1 (isWithinReach_of_starless _ starless_anyButA
    (by unfold IsOnLine; decide)),
    by decide +kernel⟩

/-- The path can be cut after `/a`, which `a*` does not match, but the star comes to the next
slash. -/
theorem anyButAs_refuses : ¬ ∀ (pattern : Pattern) (path : Text), MatchesAsSaid pattern path := by
  intro h
  have hcut : IsCut anyButAs.elements [ascii "/", ascii "a", ascii "/", ascii "b/c"]
      (ascii "/a/b/c") := by
    refine ⟨.cons rfl (.cons ⟨by decide, by decide, ?_⟩
      (.cons rfl (.cons (List.cons_ne_nil _ _) .nil))), rfl⟩
    rintro ⟨texts, hforall, hflatten⟩
    obtain ⟨u, texts, rfl, hmore, rfl⟩ := List.forall₂_cons_left_iff.mp hforall
    obtain ⟨w, texts, hw, hnil, rfl⟩ := List.forall₂_cons_left_iff.mp hmore
    rw [List.forall₂_nil_left_iff.mp hnil] at hflatten
    have hnone : w = [] := by simpa [ascii] using hflatten
    exact hw hnone
  have hexec : (execPattern anyButAs.write (ascii "/a/b/c")).isSome = false := by decide +kernel
  have hmatched := (h anyButAs (ascii "/a/b/c")).isMatched.mpr ⟨_, hcut⟩
  rw [hexec] at hmatched
  cases hmatched

end Sample

end Ez4.Distribution
