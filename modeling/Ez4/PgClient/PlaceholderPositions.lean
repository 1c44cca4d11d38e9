import Mathlib.Data.List.TakeDrop
import Mathlib.Data.Nat.Init
import Ez4.PgClient.Placeholders

/-! # Where placeholders are written

The places of a text where the name of a parameter stands after a colon, whether
they are inside quotes or a cast, and which of them the expression finds. -/
namespace Ez4.PgClient.Placeholders
open Ez4.Utils

/-! ## Places of a text -/

inductive Quote
  | outside
  | literal
  | identifier
deriving DecidableEq

/-- A doubled quote ends the quoted text and begins it again. -/
def Quote.step : Quote → Char → Quote
  | .outside, c => if c = '\'' then .literal else if c = '"' then .identifier else .outside
  | .literal, c => if c = '\'' then .outside else .literal
  | .identifier, c => if c = '"' then .outside else .identifier

/-- The place is outside quoted literals and quoted identifiers. -/
def Outside (text : List Char) (i : Nat) : Prop := (text.take i).foldl Quote.step .outside = .outside

instance (text : List Char) (i : Nat) : Decidable (Outside text i) :=
  inferInstanceAs (Decidable (_ = _))

/-- The colon at the place is the second one of a cast. -/
def AfterColon (text : List Char) (i : Nat) : Prop := ∃ j, i = j + 1 ∧ text[j]? = some ':'

/-- No more of a name follows. -/
def EndsName (after : List Char) : Prop := ∀ c ∈ after.head?, isWord c = false

/-- A colon followed by the name, which ends there. -/
def Stands (text : List Char) (i : Nat) (name : List Char) : Prop :=
  ∃ before after, text = before ++ ':' :: (name ++ after) ∧ before.length = i ∧ EndsName after

/-- A name as the expression takes it. -/
def IsName (name : List Char) : Prop := name ≠ [] ∧ ∀ c ∈ name, isWord c = true

/-! ## Matches -/

theorem word_ne_colon {c : Char} (h : isWord c = true) : c ≠ ':' := by
  rintro rfl
  exact absurd h (by decide)

theorem takeWhile_append_name {name after : List Char} (hname : ∀ c ∈ name, isWord c = true)
    (hafter : EndsName after) : (name ++ after).takeWhile isWord = name ∧
      (name ++ after).dropWhile isWord = after := by
  rw [List.takeWhile_append_of_pos hname, List.dropWhile_append_of_pos hname]
  cases after with
  | nil => exact ⟨List.append_nil name, rfl⟩
  | cons c after =>
    have hc := hafter c rfl
    rw [List.takeWhile_cons_of_neg (by rw [hc]; exact Bool.false_ne_true),
      List.dropWhile_cons_of_neg (by rw [hc]; exact Bool.false_ne_true), List.append_nil]
    exact ⟨rfl, rfl⟩

theorem isName_takeWhile {text : List Char} (h : text.takeWhile isWord ≠ []) :
    IsName (text.takeWhile isWord) := ⟨h, fun _ hc => List.mem_takeWhile_imp hc⟩

theorem endsName_dropWhile (text : List Char) : EndsName (text.dropWhile isWord) := by
  intro c hc
  have hnot := List.head?_dropWhile_not isWord text
  rw [Option.mem_def.mp hc] at hnot
  exact hnot

/-- What follows a colon as a name ends only once. -/
theorem name_unique {name name' after after' : List Char} (hname : IsName name) (hname' : IsName name')
    (hafter : EndsName after) (hafter' : EndsName after') (h : name ++ after = name' ++ after') :
    name = name' := by
  rw [← (takeWhile_append_name hname.2 hafter).1, h, (takeWhile_append_name hname'.2 hafter').1]

theorem matchArrayCast_some {text type : List Char} (h : matchArrayCast text = some type) :
    IsName type ∧ ∃ rest, text = castChars type ++ rest := by
  unfold matchArrayCast at h
  split at h
  · rename_i rest
    split at h
    · rename_i first word after hword hafter
      obtain rfl := Option.some.inj h
      refine ⟨hword ▸ isName_takeWhile (by rw [hword]; exact List.cons_ne_nil _ _), after, ?_⟩
      have hrest := List.takeWhile_append_dropWhile (p := isWord) (l := rest)
      rw [hword, hafter] at hrest
      simp [castChars, ← hrest]
    · cases h
  · cases h

/-- A match is a colon, a name that ends after it, and the cast that follows it, if any. -/
theorem matchOccurrence_some {text : List Char} {occurrence : Occurrence}
    (h : matchOccurrence text = some occurrence) : IsName occurrence.fieldName ∧
      (∀ type, occurrence.arrayCast = some type → IsName type) ∧
      ∃ after, text = ':' :: (occurrence.fieldName ++ after) ∧ EndsName after ∧
        ∃ rest, after = occurrence.cast ++ rest := by
  unfold matchOccurrence at h
  split at h
  · rename_i rest
    split at h
    · cases h
    · rename_i first name hname
      obtain rfl := Option.some.inj h
      have hrest := List.takeWhile_append_dropWhile (p := isWord) (l := rest)
      refine ⟨hname ▸ isName_takeWhile (by rw [hname]; exact List.cons_ne_nil _ _),
        fun type htype => (matchArrayCast_some htype).1, rest.dropWhile isWord, ?_,
        endsName_dropWhile rest, ?_⟩
      · show ':' :: rest = ':' :: ((first :: name) ++ rest.dropWhile isWord)
        rw [← hname, hrest]
      · unfold Occurrence.cast
        cases hcast : matchArrayCast (rest.dropWhile isWord) with
        | none => exact ⟨_, rfl⟩
        | some type =>
          obtain ⟨-, after, hafter⟩ := matchArrayCast_some hcast
          exact ⟨after, hafter⟩
  · cases h

theorem matchOccurrence_name {name after : List Char} (hname : IsName name) (hafter : EndsName after) :
    ∃ occurrence, matchOccurrence (':' :: (name ++ after)) = some occurrence := by
  unfold matchOccurrence
  simp only [(takeWhile_append_name hname.2 hafter).1]
  cases name with
  | nil => exact absurd rfl hname.1
  | cons first name => exact ⟨_, rfl⟩

/-! ## Fragments -/

/-- What the expression makes of a text. -/
inductive Scans : List Char → List Fragment → Prop
  | nil : Scans [] []
  | char {c : Char} {rest : List Char} {found : List Fragment}
      (unmatched : matchOccurrence (c :: rest) = none) (further : Scans rest found) :
      Scans (c :: rest) (.char c :: found)
  | found {occurrence : Occurrence} {rest : List Char} {found : List Fragment}
      (matched : matchOccurrence (occurrence.chars ++ rest) = some occurrence)
      (further : Scans rest found) :
      Scans (occurrence.chars ++ rest) (.found occurrence :: found)

theorem fragments_drop (taken : Nat) (text : List Char) :
    fragments taken text = fragments 0 (text.drop taken) := by
  induction text generalizing taken with
  | nil => rw [List.drop_nil, fragments, fragments]
  | cons c rest ih =>
    cases taken with
    | zero => rfl
    | succ taken => rw [fragments, ih, List.drop_succ_cons]

theorem scans_fragments (text : List Char) : Scans text (fragments 0 text) := by
  induction hn : text.length using Nat.strong_induction_on generalizing text with
  | _ n ih =>
    cases text with
    | nil => exact .nil
    | cons c rest =>
      rw [fragments]
      cases hmatch : matchOccurrence (c :: rest) with
      | none => exact .char hmatch (ih _ (hn ▸ Nat.lt_succ_self _) rest rfl)
      | some occurrence =>
        obtain ⟨-, -, after, htext, -, further, rfl⟩ := matchOccurrence_some hmatch
        have hchars : c :: rest = occurrence.chars ++ further := by
          rw [htext, Occurrence.chars, List.cons_append, List.cons_append, List.append_assoc]
        have hrest : rest.drop (occurrence.chars.length - 1) = further := by
          have hdrop := congrArg (List.drop occurrence.chars.length) hchars
          rw [List.drop_left] at hdrop
          exact hdrop
        have hlength := congrArg List.length hchars
        rw [List.length_append, Occurrence.chars, List.cons_append, List.length_cons, List.length_cons] at hlength
        rw [List.length_cons] at hn
        rw [hchars] at hmatch ⊢
        show Scans _ (.found occurrence :: fragments (occurrence.chars.length - 1) rest)
        rw [fragments_drop, hrest]
        exact .found hmatch (ih _ (by omega) further rfl)

/-- The fragment starts at the place. -/
def At (found : List Fragment) (i : Nat) (fragment : Fragment) : Prop :=
  ∃ before after, found = before ++ fragment :: after ∧ (before.flatMap Fragment.chars).length = i

theorem At.here {fragment : Fragment} {found : List Fragment} : At (fragment :: found) 0 fragment :=
  ⟨[], found, rfl, rfl⟩

theorem At.after {fragment other : Fragment} {found : List Fragment} {i : Nat} (h : At found i fragment) :
    At (other :: found) (other.chars.length + i) fragment := by
  obtain ⟨before, after, rfl, rfl⟩ := h
  exact ⟨other :: before, after, rfl, by rw [List.flatMap_cons, List.length_append]⟩

theorem At.cases {fragment other : Fragment} {found : List Fragment} {i : Nat}
    (h : At (other :: found) i fragment) :
    fragment = other ∧ i = 0 ∨ ∃ j, i = other.chars.length + j ∧ At found j fragment := by
  obtain ⟨before, after, hfound, rfl⟩ := h
  cases before with
  | nil =>
    obtain ⟨rfl, rfl⟩ := List.cons.inj hfound
    exact .inl ⟨rfl, rfl⟩
  | cons first before =>
    obtain ⟨rfl, rfl⟩ := List.cons.inj hfound
    exact .inr ⟨_, by rw [List.flatMap_cons, List.length_append], before, after, rfl, rfl⟩

namespace Scans

variable {text : List Char} {found : List Fragment}

theorem chars (h : Scans text found) : found.flatMap Fragment.chars = text := by
  induction h with
  | nil => rfl
  | char _ _ ih => rw [List.flatMap_cons, ih]; rfl
  | found _ _ ih => rw [List.flatMap_cons, ih]; rfl

theorem stands_append {name front : List Char} {i : Nat} (h : Stands text i name) :
    Stands (front ++ text) (front.length + i) name := by
  obtain ⟨before, after, rfl, rfl, hafter⟩ := h
  exact ⟨front ++ before, after, (List.append_assoc ..).symm, List.length_append, hafter⟩

/-- The expression finds names that stand in the text. -/
theorem stands (h : Scans text found) {i : Nat} {occurrence : Occurrence}
    (hat : At found i (.found occurrence)) :
    IsName occurrence.fieldName ∧ Stands text i occurrence.fieldName := by
  induction h generalizing i with
  | nil =>
    obtain ⟨before, after, hnil, -⟩ := hat
    cases before <;> cases hnil
  | @char c rest _ _ _ ih =>
    rcases hat.cases with ⟨heq, -⟩ | ⟨j, rfl, hj⟩
    · cases heq
    · have hstands : Stands ([c] ++ rest) _ occurrence.fieldName := stands_append (ih hj).2
      exact ⟨(ih hj).1, hstands⟩
  | found matched _ ih =>
    rcases hat.cases with ⟨heq, rfl⟩ | ⟨j, rfl, hj⟩
    · obtain rfl := Fragment.found.inj heq
      obtain ⟨hname, -, after, htext, hafter, -⟩ := matchOccurrence_some matched
      exact ⟨hname, [], after, htext, rfl, hafter⟩
    · exact ⟨(ih hj).1, stands_append (ih hj).2⟩

/-- A name in the middle of a match would stand after the two colons of its cast. -/
theorem not_inside {occurrence : Occurrence} {before after name more rest : List Char}
    (hfield : IsName occurrence.fieldName)
    (htype : ∀ type, occurrence.arrayCast = some type → IsName type) (hname : IsName name)
    (hcolon : ∀ b, before ≠ b ++ [':']) (hne : before ≠ [])
    (hchars : occurrence.chars = before ++ ':' :: after) (hafter : name ++ more = after ++ rest) :
    False := by
  cases before with
  | nil => exact hne rfl
  | cons first before =>
    obtain rfl : ':' = first := (List.cons.inj hchars).1
    have hchars : occurrence.fieldName ++ occurrence.cast = before ++ ':' :: after :=
      (List.cons.inj hchars).2
    have hno : ∀ {word : List Char}, IsName word → ':' ∉ word :=
      fun hword hm => word_ne_colon (hword.2 _ hm) rfl
    -- the name of the match has no colon, so the second one is in its cast
    obtain ⟨front, rfl, hcast⟩ : ∃ front, before = occurrence.fieldName ++ front ∧
        occurrence.cast = front ++ ':' :: after := by
      rcases List.append_eq_append_iff.mp hchars with h | ⟨front, hfront, hcast⟩
      · exact h
      · cases front with
        | nil => exact ⟨[], by simpa using hfront.symm, hcast.symm⟩
        | cons c front =>
          obtain ⟨rfl, -⟩ := List.cons.inj hcast
          exact absurd (hfront ▸ List.mem_append_right before List.mem_cons_self) (hno hfield)
    unfold Occurrence.cast at hcast
    cases hsome : occurrence.arrayCast with
    | none =>
      rw [hsome] at hcast
      cases front <;> cases hcast
    | some type =>
      rw [hsome] at hcast
      match front, hcast with
      | [], hcast =>
        obtain ⟨-, rfl⟩ := List.cons.inj hcast
        cases name with
        | nil => exact hname.1 rfl
        | cons c name =>
          obtain ⟨rfl, -⟩ := List.cons.inj hafter
          exact hno hname List.mem_cons_self
      | [c], hcast =>
        obtain ⟨rfl, -⟩ := List.cons.inj hcast
        exact hcolon (':' :: occurrence.fieldName) rfl
      | c :: d :: front, hcast =>
        have hcast : type ++ ['[', ']'] = front ++ ':' :: after :=
          (List.cons.inj (List.cons.inj hcast).2).2
        have hm : ':' ∈ type ++ ['[', ']'] := hcast ▸ List.mem_append_right front List.mem_cons_self
        rcases List.mem_append.mp hm with hm | hm
        · exact hno (htype type hsome) hm
        · exact absurd hm (by decide)

/-- A name that stands in the text, not in a cast, is found there. -/
theorem finds (h : Scans text found) {before after name : List Char} (hname : IsName name)
    (hafter : EndsName after) (hcolon : ∀ b, before ≠ b ++ [':'])
    (htext : text = before ++ ':' :: (name ++ after)) :
    ∃ occurrence, occurrence.fieldName = name ∧ At found before.length (.found occurrence) := by
  induction h generalizing before with
  | nil => cases before <;> cases htext
  | char unmatched _ ih =>
    cases before with
    | nil =>
      obtain ⟨occurrence, hmatch⟩ := matchOccurrence_name hname hafter
      rw [htext, List.nil_append, hmatch] at unmatched
      cases unmatched
    | cons first before =>
      obtain ⟨occurrence, hfield, hat⟩ := ih
        (fun b hb => hcolon (first :: b) (congrArg (first :: ·) hb)) (List.cons.inj htext).2
      refine ⟨occurrence, hfield, ?_⟩
      rw [List.length_cons, Nat.add_comm]
      exact hat.after
  | @found occurrence rest found matched _ ih =>
    obtain ⟨hfield, htype, end', hend, hafter', -⟩ := matchOccurrence_some matched
    have hfirst : before = [] → ∃ occurrence', occurrence'.fieldName = name ∧
        At (.found occurrence :: found) before.length (.found occurrence') := by
      rintro rfl
      refine ⟨occurrence, ?_, .here⟩
      have hnames := (List.cons.inj (hend.symm.trans htext)).2
      exact name_unique hfield hname hafter' hafter hnames
    have hlater : ∀ before', before = occurrence.chars ++ before' →
        rest = before' ++ ':' :: (name ++ after) → ∃ occurrence', occurrence'.fieldName = name ∧
          At (.found occurrence :: found) before.length (.found occurrence') := by
      rintro before' rfl hrest
      obtain ⟨occurrence', hname', hat⟩ := ih
        (fun b hb => hcolon (occurrence.chars ++ b) (by rw [hb, List.append_assoc])) hrest
      refine ⟨occurrence', hname', ?_⟩
      rw [List.length_append]
      exact hat.after
    rcases List.append_eq_append_iff.mp htext with ⟨before', hbefore, hrest⟩ | ⟨inside, hchars, hrest⟩
    · exact hlater before' hbefore hrest
    · cases inside with
      | nil => exact hlater [] (by simpa using hchars.symm) hrest.symm
      | cons c inside =>
        obtain rfl : ':' = c := (List.cons.inj hrest).1
        have hrest : name ++ after = inside ++ rest := (List.cons.inj hrest).2
        by_cases hne : before = []
        · exact hfirst hne
        · exact (not_inside hfield htype hname hcolon hne hchars hrest).elim

end Scans

/-- The places of the names that the expression finds, and no others outside casts. -/
theorem found_of_stands {text name : List Char} {i : Nat} (hname : IsName name)
    (h : Stands text i name) (hcolon : ¬AfterColon text i) :
    ∃ occurrence, occurrence.fieldName = name ∧ At (fragments 0 text) i (.found occurrence) := by
  obtain ⟨before, after, htext, rfl, hafter⟩ := h
  refine (scans_fragments text).finds hname hafter (fun b hb => hcolon ⟨b.length, ?_, ?_⟩) htext
  · rw [hb, List.length_append, List.length_singleton]
  · rw [htext, hb, List.append_assoc, List.getElem?_append_right (Nat.le_refl _), Nat.sub_self]
    rfl

theorem stands_of_found {text : List Char} {i : Nat} {occurrence : Occurrence}
    (h : At (fragments 0 text) i (.found occurrence)) :
    IsName occurrence.fieldName ∧ Stands text i occurrence.fieldName :=
  (scans_fragments text).stands h

end Ez4.PgClient.Placeholders
