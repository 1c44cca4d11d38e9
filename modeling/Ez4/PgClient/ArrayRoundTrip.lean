import Ez4.PgClient.ArrayValue

/-! # Reading what Postgres writes

The pattern finds each element of a written array as a whole, and the elements
fill the same nested arrays. -/
namespace Ez4.PgClient.ArrayValue

/-! ## The matches of a text -/

theorem length_le_of_readQuoted {text quoted rest : List Char}
    (h : readQuoted text = some (quoted, rest)) : rest.length ≤ text.length := by
  fun_induction readQuoted text generalizing quoted with
  | case1 => cases h
  | case2 after =>
    obtain ⟨-, rfl⟩ := Prod.mk.inj (Option.some.inj h)
    exact Nat.le_succ _
  | case3 => cases h
  | case4 c after hline ih =>
    obtain ⟨⟨inner, last⟩, hread, hsame⟩ := Option.map_eq_some_iff.mp h
    obtain ⟨-, rfl⟩ := Prod.mk.inj hsame
    exact Nat.le_trans (ih hread) (Nat.le_add_right _ 2)
  | case5 => cases h
  | case6 c after hquote hescape hbackslash ih =>
    obtain ⟨⟨inner, last⟩, hread, hsame⟩ := Option.map_eq_some_iff.mp h
    obtain ⟨-, rfl⟩ := Prod.mk.inj hsame
    exact Nat.le_trans (ih hread) (Nat.le_succ _)

/-- More turns than characters find nothing more. -/
theorem matchElements_eq {times other : Nat} {text : List Char} (h : text.length ≤ times)
    (hother : text.length ≤ other) : matchElements times text = matchElements other text := by
  induction times generalizing other text with
  | zero =>
    obtain rfl := List.length_eq_zero_iff.mp (Nat.le_zero.mp h)
    cases other <;> rfl
  | succ times ih =>
    cases text with
    | nil => cases other <;> rfl
    | cons c rest =>
      cases other with
      | zero => cases hother
      | succ other =>
        have h : rest.length ≤ times := Nat.le_of_succ_le_succ h
        have hother : rest.length ≤ other := Nat.le_of_succ_le_succ hother
        rw [matchElements, matchElements, ih h hother]
        have hdrop : (rest.dropWhile isUnquoted).length ≤ rest.length :=
          (List.dropWhile_suffix isUnquoted).length_le
        rw [ih (Nat.le_trans hdrop h) (Nat.le_trans hdrop hother)]
        split
        · cases hread : readQuoted rest with
          | none => rfl
          | some found =>
            have hless := length_le_of_readQuoted hread
            exact congrArg (_ :: ·) (ih (Nat.le_trans hless h) (Nat.le_trans hless hother))
        · rfl

section
variable {c : Char} {text rest : List Char}

theorem matchAll_brace (hbrace : c = '{' ∨ c = '}') :
    matchAll (c :: rest) = .brace c :: matchAll rest := by
  have hquote : c ≠ '"' := by
    rintro rfl
    exact absurd hbrace (by decide)
  change matchElements (rest.length + 1) (c :: rest) = _
  rw [matchElements, if_neg hquote, if_pos hbrace]
  rfl

theorem matchAll_comma : matchAll (',' :: rest) = matchAll rest := by
  change matchElements (rest.length + 1) (',' :: rest) = _
  rw [matchElements, if_neg (by decide), if_neg (by decide), if_pos rfl]
  rfl

/-- A text without a quote around it is found up to what ends it. -/
theorem matchAll_unquoted (hnonempty : text ≠ []) (htext : ∀ c ∈ text, isUnquoted c = true)
    (hstop : rest.takeWhile isUnquoted = []) :
    matchAll (text ++ rest) = .unquoted text :: matchAll rest := by
  cases text with
  | nil => exact absurd rfl hnonempty
  | cons c more =>
    obtain ⟨hc, hmore⟩ := List.forall_mem_cons.mp htext
    have hnot : c ≠ ',' ∧ c ≠ '{' ∧ c ≠ '}' ∧ c ≠ '"' := by simpa [isUnquoted] using hc
    obtain ⟨hcomma, hopen, hclose, hquote⟩ := hnot
    have htake : (more ++ rest).takeWhile isUnquoted = more := by
      rw [List.takeWhile_append_of_pos hmore, hstop, List.append_nil]
    have hdrop : (more ++ rest).dropWhile isUnquoted = rest := by
      have hsplit := List.takeWhile_append_dropWhile (p := isUnquoted) (l := more ++ rest)
      rw [htake] at hsplit
      exact List.append_cancel_left hsplit
    change matchElements ((more ++ rest).length + 1) (c :: (more ++ rest)) = _
    rw [matchElements, if_neg hquote, if_neg (not_or.mpr ⟨hopen, hclose⟩), if_neg hcomma, htake,
      hdrop, matchAll, matchElements_eq (by simp) (Nat.le_refl _)]

/-! ## Quoted texts -/

theorem readQuoted_escape (text rest : List Char) :
    readQuoted (text.flatMap escape ++ '"' :: rest) = some (text.flatMap escape, rest) := by
  induction text with
  | nil => rfl
  | cons c text ih =>
    rw [List.flatMap_cons, List.append_assoc]
    by_cases hescaped : c = '"' ∨ c = '\\'
    · have hline : isLineTerminator c = false := by
        rcases hescaped with rfl | rfl <;> decide
      rw [escape, if_pos hescaped]
      change readQuoted ('\\' :: c :: (text.flatMap escape ++ '"' :: rest)) = _
      rw [readQuoted, if_neg (by rw [hline]; decide), ih]
      rfl
    · obtain ⟨hquote, hbackslash⟩ := not_or.mp hescaped
      rw [escape, if_neg hescaped]
      change readQuoted (c :: (text.flatMap escape ++ '"' :: rest)) = _
      rw [readQuoted, if_neg hbackslash, ih]
      · rfl
      · exact hquote
      · exact fun _ _ h => absurd h hbackslash

theorem unescape_escape (text : List Char) : unescape (text.flatMap escape) = text := by
  induction text with
  | nil => rfl
  | cons c text ih =>
    rw [List.flatMap_cons]
    by_cases hescaped : c = '"' ∨ c = '\\'
    · have hline : isLineTerminator c = false := by
        rcases hescaped with rfl | rfl <;> decide
      rw [escape, if_pos hescaped]
      change unescape ('\\' :: c :: text.flatMap escape) = _
      rw [unescape, if_neg (by rw [hline]; decide), ih]
    · rw [escape, if_neg hescaped]
      change unescape (c :: text.flatMap escape) = _
      rw [unescape, ih]
      exact fun _ _ h => absurd h (not_or.mp hescaped).2

theorem matchAll_quoted (text rest : List Char) :
    matchAll ('"' :: (text.flatMap escape ++ '"' :: rest)) =
      .quoted (text.flatMap escape) :: matchAll rest := by
  change matchElements ((text.flatMap escape ++ '"' :: rest).length + 1) _ = _
  rw [matchElements, if_pos rfl, readQuoted_escape]
  exact congrArg (_ :: ·) (matchElements_eq (by simp; omega) (Nat.le_refl _))

end

/-! ## The matches of an array -/

mutual

/-- What the pattern finds in a written element. -/
def elementMatches : Element String → List Match
  | .null => [.unquoted "NULL".toList]
  | .value text =>
    if needsQuotes text.toList then [.quoted (text.toList.flatMap escape)] else [.unquoted text.toList]
  | .array elements => .brace '{' :: (elementsMatches elements ++ [.brace '}'])

def elementsMatches : List (Element String) → List Match
  | [] => []
  | element :: rest => elementMatches element ++ elementsMatches rest

end

/-- A text that needs no quotes has characters that the pattern takes together. -/
theorem of_needsQuotes_eq_false {text : List Char} (h : needsQuotes text = false) :
    text ≠ [] ∧ text ≠ "NULL".toList ∧ ∀ c ∈ text, isUnquoted c = true := by
  rw [needsQuotes, Bool.or_eq_false_iff, Bool.or_eq_false_iff] at h
  obtain ⟨⟨hempty, hnull⟩, hspecial⟩ := h
  refine ⟨fun hnil => ?_, fun hsame => ?_, fun c hc => ?_⟩
  · rw [hnil] at hempty
    cases hempty
  · rw [hsame] at hnull
    exact absurd hnull (by decide)
  · have hplain := List.any_eq_false.mp hspecial c hc
    simp only [Bool.or_eq_true, decide_eq_true_eq, not_or] at hplain
    have hnone : c ∉ [',', '{', '}', '"'] := fun hmem => hplain.1 (by
      simp only [List.mem_cons, List.not_mem_nil, or_false] at hmem ⊢
      tauto)
    exact decide_eq_true hnone

theorem matchAll_writeText (text : String) {rest : List Char}
    (hstop : rest.takeWhile isUnquoted = []) :
    matchAll (writeText text.toList ++ rest) = elementMatches (.value text) ++ matchAll rest := by
  rw [elementMatches, writeText]
  cases hquotes : needsQuotes text.toList with
  | true =>
    rw [if_pos rfl, if_pos rfl]
    have hquoted := matchAll_quoted text.toList rest
    simpa using hquoted
  | false =>
    obtain ⟨hnonempty, -, htext⟩ := of_needsQuotes_eq_false hquotes
    rw [if_neg (by decide), if_neg (by decide)]
    exact matchAll_unquoted hnonempty htext hstop

mutual

/-- **The pattern finds an element as a whole.** -/
theorem matchAll_writeElement {rest : List Char} (hstop : rest.takeWhile isUnquoted = []) :
    (element : Element String) →
      matchAll (writeElement element ++ rest) = elementMatches element ++ matchAll rest
  | .null => by
    rw [writeElement, elementMatches]
    exact matchAll_unquoted (by decide) (List.all_eq_true.mp (by decide)) hstop
  | .value text => by
    rw [writeElement]
    exact matchAll_writeText text hstop
  | .array elements => by
    have hinner : matchAll (writeElements elements ++ '}' :: rest) = _ :=
      matchAll_writeElements (by rfl) elements
    rw [writeElement, elementMatches]
    change matchAll ('{' :: ((writeElements elements ++ ['}']) ++ rest)) = _
    rw [matchAll_brace (.inl rfl), List.append_assoc]
    change _ :: matchAll (writeElements elements ++ '}' :: rest) = _
    rw [hinner, matchAll_brace (.inr rfl)]
    simp

theorem matchAll_writeElements {rest : List Char} (hstop : rest.takeWhile isUnquoted = []) :
    (elements : List (Element String)) →
      matchAll (writeElements elements ++ rest) = elementsMatches elements ++ matchAll rest
  | [] => rfl
  | [element] => by
    have helement := matchAll_writeElement hstop element
    simpa [writeElements, elementsMatches] using helement
  | element :: next :: more => by
    have helement :
        matchAll (writeElement element ++ ',' :: (writeElements (next :: more) ++ rest)) = _ :=
      matchAll_writeElement (by rfl) element
    have hmore := matchAll_writeElements hstop (next :: more)
    rw [matchAll_comma, hmore] at helement
    rw [writeElements, elementsMatches]
    simpa using helement

end

/-! ## Filling the arrays -/

section
variable {β : Type} (parseElement : String → β)

theorem take_value (p : Parsing β) (text : String) :
    (elementMatches (.value text)).foldl (Parsing.take parseElement) p =
      p.push (.value (parseElement text)) := by
  rw [elementMatches]
  cases hquotes : needsQuotes text.toList with
  | true =>
    rw [if_pos rfl]
    change p.push (.value (parseElement (String.ofList (unescape (text.toList.flatMap escape))))) = _
    rw [unescape_escape, String.ofList_toList]
  | false =>
    rw [if_neg (by decide)]
    change p.push (if text.toList = "NULL".toList then .null
      else .value (parseElement (String.ofList text.toList))) = _
    rw [if_neg (of_needsQuotes_eq_false hquotes).2.1, String.ofList_toList]

mutual

/-- **The matches of an element fill in the element.** -/
theorem take_elementMatches : (element : Element String) → ∀ p : Parsing β,
    (elementMatches element).foldl (Parsing.take parseElement) p =
      p.push (mapElement parseElement element)
  | .null, p => by
    rw [elementMatches, mapElement]
    change p.push (if "NULL".toList = "NULL".toList then _ else _) = _
    rw [if_pos rfl]
  | .value text, p => by
    rw [mapElement]
    exact take_value parseElement p text
  | .array elements, p => by
    have hinner := take_elementsMatches elements { current := [], parents := p.current :: p.parents }
    rw [elementMatches, List.foldl_cons, List.foldl_append]
    change [Match.brace '}'].foldl (Parsing.take parseElement)
      ((elementsMatches elements).foldl (Parsing.take parseElement)
        { current := [], parents := p.current :: p.parents }) = _
    rw [hinner, mapElement]
    rfl

theorem take_elementsMatches : (elements : List (Element String)) → ∀ p : Parsing β,
    (elementsMatches elements).foldl (Parsing.take parseElement) p =
      { p with current := p.current ++ mapElements parseElement elements }
  | [], p => by
    rw [elementsMatches, mapElements, List.append_nil]
    rfl
  | element :: rest, p => by
    rw [elementsMatches, List.foldl_append, take_elementMatches element p,
      take_elementsMatches rest _, mapElements]
    change { p with current := (p.current ++ [_]) ++ _ : Parsing β } = _
    rw [List.append_assoc]
    rfl

end

end

/-! ## The bounds -/

theorem not_mem_natToString (n : Nat) : '{' ∉ (toString n).toList := by
  intro hmem
  rw [Nat.toString_eq_ofList_toDigits, String.toList_ofList] at hmem
  exact absurd (Nat.isDigit_of_mem_toDigits (by decide) (by decide) hmem) (by decide)

theorem not_mem_toString (n : Int) : '{' ∉ (toString n).toList := by
  cases n with
  | ofNat n => exact not_mem_natToString n
  | negSucc n =>
    change '{' ∉ ("-" ++ toString (n + 1)).toList
    rw [String.toList_append, List.mem_append, not_or]
    exact ⟨by decide, not_mem_natToString _⟩

theorem not_mem_writeBounds (bounds : List (Int × Int)) : '{' ∉ writeBounds bounds := by
  unfold writeBounds
  split
  · exact List.not_mem_nil
  · rw [List.mem_append, not_or]
    refine ⟨fun hmem => ?_, by decide⟩
    obtain ⟨⟨lower, upper⟩, -, hmem⟩ := List.mem_flatMap.mp hmem
    have hmem : '{' ∈ (toString lower).toList ∨ '{' ∈ (toString upper).toList := by
      simpa using hmem
    exact hmem.elim (not_mem_toString lower) (not_mem_toString upper)

/-- The bounds are left out. -/
theorem fromBrace_append {bounds rest : List Char} (h : '{' ∉ bounds) :
    fromBrace (bounds ++ '{' :: rest) = '{' :: rest := by
  have hbounds : ∀ c ∈ bounds, decide (c ≠ '{') = true := fun c hc => decide_eq_true fun hsame =>
    h (hsame ▸ hc)
  rw [fromBrace, if_pos (by simp), List.dropWhile_append_of_pos hbounds]
  rfl

/-- **An array that Postgres wrote is read as the same array, with its texts parsed.** -/
theorem parseArrayValue_writeArray {β : Type} (parseElement : String → β)
    (bounds : List (Int × Int)) (elements : List (Element String)) :
    parseArrayValue (writeArray bounds elements) parseElement =
      some (mapElement parseElement (.array elements)) := by
  have hmatches : matchAll (writeElement (.array elements)) = elementMatches (.array elements) := by
    have hwhole : matchAll (writeElement (.array elements) ++ []) = _ :=
      matchAll_writeElement rfl (.array elements)
    simpa [matchAll, matchElements] using hwhole
  have hbrace : fromBrace (writeBounds bounds ++ writeElement (.array elements)) =
      writeElement (.array elements) := by
    rw [writeElement]
    exact fromBrace_append (not_mem_writeBounds bounds)
  rw [parseArrayValue, writeArray, String.toList_ofList, hbrace, hmatches, take_elementMatches]
  rfl

end Ez4.PgClient.ArrayValue
