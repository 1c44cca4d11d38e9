import Ez4.Distribution.RewriteMatches

/-! # The text a rewrite pattern is compiled to

The three replacements, piece by piece, and the expression their text is read as. -/
namespace Ez4.Distribution
open Ez4.Library Regexp

variable {text rest : Text} {b u : Nat} {found : Text → Option (Nat × Text)} {pieces : List Piece}
  {piece : Piece}

/-! ## Escaping -/

def escapeUnit (u : Nat) : Text := if escapedUnits.contains u then [backslash, u] else [u]

def escape (text : Text) : Text := text.flatMap escapeUnit

theorem escape_cons : escape (u :: text) = escapeUnit u ++ escape text := rfl

theorem escape_append (more : Text) : escape (text ++ more) = escape text ++ escape more :=
  List.flatMap_append

theorem replaceAll_findEscaped : replaceAll findEscaped text = escape text := by
  induction text with
  | nil => rfl
  | cons u text ih =>
    rw [escape_cons, escapeUnit]
    cases hspecial : escapedUnits.contains u with
    | true =>
      have hspecial : findEscaped (u :: [] ++ text) = some (1, [backslash, u]) := by
        simp only [findEscaped, List.cons_append, hspecial]
        rfl
      have hfound := replaceAll_found hspecial
      rw [List.cons_append, List.nil_append] at hfound
      rw [if_pos rfl, hfound, ih]
    | false =>
      rw [if_neg (by decide), replaceAll_keep (by simp only [findEscaped, hspecial]; rfl), ih]
      rfl

/-- An escaped text does not start with a unit that is escaped. -/
theorem head_escape (hb : escapedUnits.contains b = true) (hne : b ≠ backslash)
    (hrest : rest.head? ≠ some b) : (escape text ++ rest).head? ≠ some b := by
  cases text with
  | nil => exact hrest
  | cons u text =>
    rw [escape_cons, escapeUnit]
    cases hspecial : escapedUnits.contains u with
    | true => exact fun h => hne (Option.some.inj h).symm
    | false =>
      intro h
      obtain rfl : u = b := Option.some.inj h
      rw [hb] at hspecial
      cases hspecial

/-- What is looked for starts with a backslash and a unit that the text does not have. -/
theorem replaceAll_escape (hb : escapedUnits.contains b = true) (hne : b ≠ backslash)
    (hpair : ∀ u text, (u = backslash → text.head? ≠ some b) → found (u :: text) = none)
    (htext : b ∉ text) (hrest : rest.head? ≠ some b) :
    replaceAll found (escape text ++ rest) = escape text ++ replaceAll found rest := by
  induction text with
  | nil => rfl
  | cons u text ih =>
    obtain ⟨hu, htext⟩ := not_or.mp (mt List.mem_cons.mpr htext)
    have hhead : (escape text ++ rest).head? ≠ some b := head_escape hb hne hrest
    have hkeep : replaceAll found (u :: (escape text ++ rest)) =
        u :: (escape text ++ replaceAll found rest) := by
      rw [replaceAll_keep (hpair u _ fun _ => hhead), ih htext]
    rw [escape_cons, escapeUnit]
    cases escapedUnits.contains u with
    | true =>
      change replaceAll found (backslash :: u :: (escape text ++ rest)) = _
      have hne : ¬ (u :: (escape text ++ rest)).head? = some b := fun h =>
        hu (Option.some.inj h).symm
      rw [replaceAll_keep (hpair _ _ fun _ => hne), hkeep]
      rfl
    | false => exact hkeep

theorem findCapture_eq_none (h : u = backslash → text.head? ≠ some '*'.toNat) :
    findCapture (u :: text) = none := by
  cases text with
  | nil => rfl
  | cons v text =>
    rw [findCapture, if_neg]
    rintro ⟨hu, rfl⟩
    exact h hu rfl

theorem findOptions_eq_none (h : u = backslash → text.head? ≠ some '{'.toNat) :
    findOptions (u :: text) = none := by
  cases text with
  | nil => rfl
  | cons v text =>
    rw [findOptions, if_neg]
    rintro ⟨hu, rfl⟩
    exact h hu rfl

/-! ## Stars -/

/-- The text of a piece after the first two replacements. -/
def Piece.captured : Piece → Text
  | .star => ascii "(.+)"
  | .literal u => escapeUnit u
  | .options texts => escape (Piece.write (.options texts))

theorem mem_intercalate {separator : Text} {texts : List Text}
    (h : u ∈ separator.intercalate texts) :
    u ∈ separator ∨ ∃ text ∈ texts, u ∈ text := by
  induction texts with
  | nil => exact absurd h List.not_mem_nil
  | cons text texts ih =>
    cases texts with
    | nil =>
      rw [List.intercalate_singleton] at h
      exact .inr ⟨text, List.mem_singleton_self _, h⟩
    | cons other texts =>
      simp only [List.intercalate_cons_cons, List.mem_append] at h
      rcases h with (h | h) | h
      · exact .inr ⟨text, List.mem_cons_self, h⟩
      · exact .inl h
      · refine (ih h).imp_right fun hmem => ?_
        obtain ⟨piece, hmem, hu⟩ := hmem
        exact ⟨piece, List.mem_cons_of_mem _ hmem, hu⟩

theorem not_mem_write_options {texts : List Text} (hplain : Piece.IsPlain (.options texts)) :
    '*'.toNat ∉ Piece.write (.options texts) := by
  intro h
  rcases List.mem_append.mp h with h | h
  · rcases List.mem_append.mp h with h | h
    · exact absurd h (by decide)
    · rcases mem_intercalate h with h | ⟨text, htext, h⟩
      · exact absurd h (by decide)
      · exact ((hplain.2 text htext).2 _ h).2.1 rfl
  · exact absurd h (by decide)

theorem replaceAll_findCapture (hplain : ∀ piece ∈ pieces, piece.IsPlain) :
    replaceAll findCapture (escape (pieces.flatMap Piece.write)) =
      pieces.flatMap Piece.captured := by
  induction pieces with
  | nil => rfl
  | cons piece pieces ih =>
    obtain ⟨hpiece, hpieces⟩ := List.forall_mem_cons.mp hplain
    rw [List.flatMap_cons, List.flatMap_cons, escape_append, ← ih hpieces]
    have hhead : (escape (pieces.flatMap Piece.write)).head? ≠ some '*'.toNat := by
      rw [← List.append_nil (escape _)]
      exact head_escape (by decide) (by decide) (by decide)
    have hescape : ∀ text : Text, '*'.toNat ∉ text →
        replaceAll findCapture (escape text ++ escape (pieces.flatMap Piece.write)) =
          escape text ++ replaceAll findCapture (escape (pieces.flatMap Piece.write)) :=
      fun text htext => replaceAll_escape (by decide) (by decide)
        (fun _ _ => findCapture_eq_none) htext hhead
    cases piece with
    | star =>
      have hfound : findCapture (backslash :: ['*'.toNat] ++ escape (pieces.flatMap Piece.write)) =
        some (2, ascii "(.+)") := rfl
      exact replaceAll_found hfound
    | literal u =>
      have h := hescape [u] fun h => hpiece.2.1 (List.mem_singleton.mp h).symm
      simpa [escape, Piece.write, Piece.captured] using h
    | options texts => exact hescape _ (not_mem_write_options hpiece)

/-! ## Options -/

/-- The text of a piece in the compiled pattern. -/
def Piece.source : Piece → Text
  | .star => ascii "(.+)"
  | .literal u => escapeUnit u
  | .options texts => ascii "(?:" ++ (ascii "|").intercalate (texts.map escape) ++ ascii ")"

theorem splitBars_cons (h : u = backslash → text.head? ≠ some '|'.toNat) :
    splitBars (u :: text) = (splitBars text).modifyHead (u :: ·) :=
  if_neg fun hboth => h hboth.1 hboth.2

theorem splitBars_bar : splitBars (backslash :: '|'.toNat :: text) = [] :: splitBars text := by
  rw [splitBars, splitBarsFrom, if_pos ⟨rfl, rfl⟩]
  rfl

/-- The pieces of an escaped text without a bar before some rest. -/
theorem splitBars_escape (htext : '|'.toNat ∉ text) (hrest : rest.head? ≠ some '|'.toNat) :
    splitBars (escape text ++ rest) = (splitBars rest).modifyHead (escape text ++ ·) := by
  induction text with
  | nil => exact (List.modifyHead_id).symm ▸ rfl
  | cons u text ih =>
    obtain ⟨hu, htext⟩ := not_or.mp (mt List.mem_cons.mpr htext)
    have hhead : (escape text ++ rest).head? ≠ some '|'.toNat :=
      head_escape (by decide) (by decide) hrest
    have hkeep : splitBars (u :: (escape text ++ rest)) =
        (splitBars rest).modifyHead (u :: escape text ++ ·) := by
      rw [splitBars_cons fun _ => hhead, ih htext, List.modifyHead_modifyHead]
      rfl
    rw [escape_cons, escapeUnit]
    cases escapedUnits.contains u with
    | true =>
      have hne : (u :: (escape text ++ rest)).head? ≠ some '|'.toNat :=
        fun h => hu (Option.some.inj h).symm
      change splitBars (backslash :: u :: (escape text ++ rest)) = _
      rw [splitBars_cons fun _ => hne, hkeep, List.modifyHead_modifyHead]
      rfl
    | false => exact hkeep

theorem splitBars_intercalate {texts : List Text} (hne : texts ≠ [])
    (htexts : ∀ text ∈ texts, '|'.toNat ∉ text) :
    splitBars (escape ((ascii "|").intercalate texts)) = texts.map escape := by
  induction texts with
  | nil => exact absurd rfl hne
  | cons text texts ih =>
    obtain ⟨htext, htexts⟩ := List.forall_mem_cons.mp htexts
    cases texts with
    | nil =>
      have h : splitBars (escape text ++ []) = _ := splitBars_escape htext (by decide)
      rw [List.append_nil] at h
      rw [List.intercalate_singleton, h]
      simp [splitBars, splitBarsFrom]
    | cons other texts =>
      have hbar : escape (ascii "|" ++ (ascii "|").intercalate (other :: texts)) =
          backslash :: '|'.toNat :: escape ((ascii "|").intercalate (other :: texts)) := rfl
      have hhead : (escape (ascii "|" ++ (ascii "|").intercalate (other :: texts))).head? ≠
          some '|'.toNat := fun h => absurd (Option.some.inj h) (by decide)
      rw [List.intercalate_cons_cons, List.append_assoc, escape_append,
        splitBars_escape htext hhead,
        hbar, splitBars_bar, ih (List.cons_ne_nil _ _) htexts]
      simp

theorem mem_escape (h : u ∈ escape text) : u = backslash ∨ u ∈ text := by
  obtain ⟨v, hv, hu⟩ := List.mem_flatMap.mp h
  rw [escapeUnit] at hu
  split at hu
  · rcases List.mem_cons.mp hu with rfl | hu
    · exact .inl rfl
    · exact .inr (List.mem_singleton.mp hu ▸ hv)
  · exact .inr (List.mem_singleton.mp hu ▸ hv)

theorem escape_ne_nil (h : text ≠ []) : escape text ≠ [] := by
  cases text with
  | nil => exact absurd rfl h
  | cons u text =>
    rw [escape_cons, escapeUnit]
    split <;> exact List.cons_ne_nil _ _

theorem intercalate_ne_nil {separator : Text} {texts : List Text} (hne : texts ≠ [])
    (htexts : ∀ text ∈ texts, text ≠ []) : separator.intercalate texts ≠ [] := by
  cases texts with
  | nil => exact absurd rfl hne
  | cons text texts =>
    have htext := htexts text List.mem_cons_self
    cases texts with
    | nil => rwa [List.intercalate_singleton]
    | cons other texts =>
      rw [List.intercalate_cons_cons]
      exact List.append_ne_nil_of_left_ne_nil (List.append_ne_nil_of_left_ne_nil htext _) _

/-- Options are found as a whole, up to the first brace that closes. -/
theorem findOptions_options {texts : List Text} (hplain : Piece.IsPlain (.options texts)) :
    findOptions (Piece.captured (.options texts) ++ rest) =
      some ((Piece.captured (.options texts)).length, Piece.source (.options texts)) := by
  obtain ⟨hne, htexts⟩ := hplain
  set inner := escape ((ascii "|").intercalate texts) with hinner
  have hcaptured : Piece.captured (.options texts) ++ rest =
      backslash :: '{'.toNat :: ((inner ++ [backslash]) ++ '}'.toNat :: rest) := by
    rw [Piece.captured, Piece.write, escape_append, escape_append, List.append_assoc,
      List.append_assoc,
      List.append_assoc inner]
    rfl
  have hlength : (Piece.captured (.options texts)).length = inner.length + 4 := by
    have h := congrArg List.length hcaptured
    simp only [List.length_append, List.length_cons, List.length_nil] at h
    omega
  have hopen : ∀ u ∈ inner ++ [backslash], decide (u ≠ '}'.toNat) = true := by
    intro u hu
    rw [decide_eq_true_eq]
    rintro rfl
    rcases List.mem_append.mp hu with hu | hu
    · rcases mem_escape hu with hu | hu
      · exact absurd hu (by decide)
      · rcases mem_intercalate hu with hu | ⟨text, htext, hu⟩
        · exact absurd hu (by decide)
        · exact ((htexts text htext).2 _ hu).2.2.2 rfl
    · exact absurd hu (by decide)
  have hrun : ((inner ++ [backslash]) ++ '}'.toNat :: rest).takeWhile (· ≠ '}'.toNat) =
      inner ++ [backslash] := by
    rw [List.takeWhile_append_of_pos hopen, List.takeWhile_cons_of_neg (by decide), List.append_nil]
  have hclose : ((inner ++ [backslash]) ++ '}'.toNat :: rest).dropWhile (· ≠ '}'.toNat) ≠ [] := by
    rw [List.dropWhile_append_of_pos hopen, List.dropWhile_cons_of_neg (by decide)]
    exact List.cons_ne_nil _ _
  have hpos : 0 < inner.length :=
    List.length_pos_iff.mpr (escape_ne_nil (intercalate_ne_nil hne fun text htext =>
      (htexts text htext).1))
  have hoptions : (splitBars inner).filter (· ≠ []) = texts.map escape := by
    rw [hinner, splitBars_intercalate hne fun text htext hu =>
      ((htexts text htext).2 _ hu).2.2.1 rfl]
    refine List.filter_eq_self.mpr fun piece hpiece => ?_
    obtain ⟨text, htext, rfl⟩ := List.mem_map.mp hpiece
    exact decide_eq_true (escape_ne_nil (htexts text htext).1)
  rw [hcaptured, findOptions, if_pos ⟨rfl, rfl⟩]
  simp only [hrun]
  rw [if_pos ⟨hclose, List.getLast?_concat,
    by rw [List.length_append]; exact Nat.succ_le_succ hpos⟩,
    List.dropLast_concat, hoptions, hlength, List.length_append]
  rfl

theorem head_captured (hplain : ∀ piece ∈ pieces, piece.IsPlain) :
    (pieces.flatMap Piece.captured).head? ≠ some '{'.toNat := by
  cases pieces with
  | nil => exact fun h => by cases h
  | cons piece pieces =>
    have hpiece := hplain piece List.mem_cons_self
    cases piece with
    | star => exact fun h => absurd (Option.some.inj h) (by decide)
    | options texts => exact fun h => absurd (Option.some.inj h) (by decide)
    | literal u =>
      rw [List.flatMap_cons, Piece.captured, escapeUnit]
      split
      · exact fun h => absurd (Option.some.inj h) (by decide)
      · exact fun h => hpiece.2.2 (Option.some.inj h)

theorem replaceAll_findOptions (hplain : ∀ piece ∈ pieces, piece.IsPlain) :
    replaceAll findOptions (pieces.flatMap Piece.captured) = pieces.flatMap Piece.source := by
  induction pieces with
  | nil => rfl
  | cons piece pieces ih =>
    obtain ⟨hpiece, hpieces⟩ := List.forall_mem_cons.mp hplain
    rw [List.flatMap_cons, List.flatMap_cons, ← ih hpieces]
    cases piece with
    | star =>
      have hkeep : ∀ (u : Nat) (text : Text), u ≠ backslash →
          replaceAll findOptions (u :: text) = u :: replaceAll findOptions text :=
        fun u text hu => replaceAll_keep (findOptions_eq_none fun h => absurd h hu)
      have hstar : ascii "(.+)" = [40, 46, 43, 41] := by decide
      rw [Piece.captured, Piece.source, hstar]
      simp only [List.cons_append, List.nil_append]
      rw [hkeep _ _ (by decide), hkeep _ _ (by decide), hkeep _ _ (by decide),
        hkeep _ _ (by decide)]
    | literal u =>
      have htext : '{'.toNat ∉ [u] := fun h => hpiece.2.2 (List.mem_singleton.mp h).symm
      have h := replaceAll_escape (by decide) (by decide) (fun _ _ => findOptions_eq_none) htext
        (head_captured hpieces)
      rwa [escape, List.flatMap_singleton] at h
    | options texts =>
      have hfound := @findOptions_options (pieces.flatMap Piece.captured) texts hpiece
      obtain ⟨u, more, hcons⟩ : ∃ u more, Piece.captured (.options texts) = u :: more :=
        ⟨backslash, _, rfl⟩
      rw [hcons] at hfound ⊢
      exact replaceAll_found hfound

/-! ## Segments -/

def completionText (last : Bool) : Text := if last then ascii "$" else ascii "/"

def extractionText (last : Bool) : Text := if last then ascii "." else ascii "[^/]"

/-- The text of an element in the compiled pattern. -/
def Element.source : Element → Text
  | .piece p => p.source
  | .negation pieces last => ascii "(?!" ++ pieces.flatMap Piece.source ++ completionText last ++
    ascii ")(" ++ extractionText last ++ ascii "+)"

theorem head_write (hplain : ∀ piece ∈ pieces, piece.IsPlain)
    (hunmarked : pieces.head? ≠ some (.literal '!'.toNat)) :
    (pieces.flatMap Piece.write).head? ≠ some '!'.toNat := by
  cases pieces with
  | nil => exact fun h => by cases h
  | cons piece pieces =>
    cases piece with
    | star => exact fun h => absurd (Option.some.inj h) (by decide)
    | options texts => exact fun h => absurd (Option.some.inj h) (by decide)
    | literal u =>
      intro h
      obtain rfl : u = '!'.toNat := Option.some.inj h
      exact hunmarked rfl

theorem compileSegment_write (s : Segment) (last : Bool) :
    compileSegment s.write last = (s.elements last).flatMap Element.source := by
  have hpieces : replaceAll findOptions (replaceAll findCapture (replaceAll findEscaped
      (s.pieces.flatMap Piece.write))) = s.pieces.flatMap Piece.source := by
    rw [replaceAll_findEscaped, replaceAll_findCapture s.plain, replaceAll_findOptions s.plain]
  cases hnegated : s.negated with
  | true =>
    have hwrite : s.write = '!'.toNat :: s.pieces.flatMap Piece.write := by
      rw [Segment.write, hnegated]
      rfl
    rw [compileSegment, hwrite, Segment.elements, hnegated, if_pos rfl, List.flatMap_singleton]
    simp only [List.head?_cons, if_true, List.drop_one, List.tail_cons, hpieces]
    rfl
  | false =>
    have hwrite : s.write = s.pieces.flatMap Piece.write := by
      rw [Segment.write, hnegated]
      rfl
    have hhead := head_write s.plain (s.unmarked hnegated)
    rw [compileSegment, hwrite, Segment.elements, hnegated]
    simp only [hhead, if_false, hpieces, Bool.false_eq_true, List.flatMap_map]
    rfl

theorem slash_not_mem_write (s : Segment) : slash ∉ s.write := by
  intro h
  rcases List.mem_append.mp h with h | h
  · split at h
    · exact absurd h (by decide)
    · exact absurd h List.not_mem_nil
  · obtain ⟨piece, hpiece, h⟩ := List.mem_flatMap.mp h
    have hplain := s.plain piece hpiece
    cases piece with
    | star => exact absurd h (by decide)
    | literal u => exact hplain.1 (List.mem_singleton.mp h).symm
    | options texts =>
      rcases List.mem_append.mp h with h | h
      · rcases List.mem_append.mp h with h | h
        · exact absurd h (by decide)
        · rcases mem_intercalate h with h | ⟨text, htext, h⟩
          · exact absurd h (by decide)
          · exact ((hplain.2 text htext).2 _ h).1 rfl
      · exact absurd h (by decide)

theorem mapIdx_last {α β : Type} (f : α → Bool → β) (a b : α) (l : List α) :
    (a :: b :: l).mapIdx (fun i x => f x ((a :: b :: l).length == i + 1)) =
      f a false :: (b :: l).mapIdx (fun i x => f x ((b :: l).length == i + 1)) := by
  rw [List.mapIdx_cons]
  congr 1
  congr 1
  funext i x
  congr 1
  simp

/-- The segments are compiled one by one, the last one as such. -/
theorem intercalate_compiled {segments : List Segment} (hne : segments ≠ []) :
    (ascii "/").intercalate ((segments.map Segment.write).mapIdx fun i part =>
      compileSegment part ((segments.map Segment.write).length == i + 1)) =
      (elementsOf segments).flatMap Element.source := by
  induction segments with
  | nil => exact absurd rfl hne
  | cons s segments ih =>
    cases segments with
    | nil =>
      rw [List.map_singleton, List.mapIdx_singleton, List.intercalate_singleton]
      exact compileSegment_write s true
    | cons t segments =>
      have hslash : Element.source (.piece (.literal slash)) = ascii "/" := by decide
      have helements : elementsOf (s :: t :: segments) =
          s.elements false ++ .piece (.literal slash) :: elementsOf (t :: segments) := rfl
      rw [List.map_cons, List.map_cons, mapIdx_last, List.intercalate_cons_of_ne_nil (by simp),
        ← List.map_cons, ih (List.cons_ne_nil _ _), compileSegment_write, helements,
        List.flatMap_append, List.flatMap_cons, hslash, List.append_assoc]

/-- **The text a pattern is compiled to.** -/
theorem compileRewritePattern_write (pattern : Pattern) : compileRewritePattern pattern.write =
    ascii "^" ++ pattern.elements.flatMap Element.source ++ ascii "$" := by
  have hsplit : pattern.write.splitOn slash = pattern.segments.map Segment.write := by
    refine List.splitOn_intercalate slash (fun text htext => ?_) ?_
    · obtain ⟨s, -, rfl⟩ := List.mem_map.mp htext
      exact slash_not_mem_write s
    · simpa using pattern.nonempty
  rw [compileRewritePattern]
  simp only [hsplit]
  rw [intercalate_compiled pattern.nonempty]
  rfl

end Ez4.Distribution
