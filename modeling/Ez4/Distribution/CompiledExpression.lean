import Ez4.Distribution.CompiledPattern

/-! # The expression a rewrite pattern is compiled to

The text of a compiled pattern, read back as a regular expression. -/
namespace Ez4.Distribution
open Ez4.Library Regexp

variable {text more rest : Text} {pieces : List Piece} {u number : Nat} {top : Frame}
  {stack : List Frame}

/-! ## Tokens -/

def unitToken (u : Nat) : Token := .item (.one (.unit u))

theorem isSyntax_of_escaped (h : escapedUnits.contains u = true) : isSyntax u = true := by
  have hsubset : ∀ v ∈ escapedUnits, isSyntax v = true := by decide
  exact hsubset u (List.contains_iff_mem.mp h)

theorem escaped_of_isSyntax (h : isSyntax u = true) : escapedUnits.contains u = true := by
  have hsubset : ∀ v ∈ syntaxUnits, escapedUnits.contains v = true := by decide
  exact hsubset u (List.contains_iff_mem.mp h)

/-- A unit is read as itself, escaped where it has to be. -/
theorem lexes_escapeUnit (u : Nat) : Lexes (escapeUnit u) [unitToken u] := by
  rw [escapeUnit]
  cases hspecial : escapedUnits.contains u with
  | true =>
    refine Lexes.of_nextToken fun rest => ?_
    change nextToken (backslash :: u :: rest) = _
    rw [nextToken, if_pos (show backslash = '\\'.toNat from rfl)]
    simp only [isSyntax_of_escaped hspecial, if_true]
    rfl
  | false =>
    have hne : ∀ v, isSyntax v = true → u ≠ v := by
      rintro v hv rfl
      rw [escaped_of_isSyntax hv] at hspecial
      cases hspecial
    have hoptions : isSyntax u = false := by
      rw [← Bool.not_eq_true]
      exact fun h => hne u h rfl
    refine Lexes.of_nextToken fun rest => ?_
    change nextToken (u :: rest) = _
    unfold nextToken
    dsimp only
    rw [if_neg (hne _ (by decide)), if_neg (hne _ (by decide)), if_neg (hne _ (by decide)),
      if_neg (hne _ (by decide)), if_neg (hne _ (by decide)), if_neg (hne _ (by decide)),
      if_neg (hne _ (by decide)), if_neg (hne _ (by decide)), hoptions]
    rfl

theorem lexes_escape (text : Text) : Lexes (escape text) (text.map unitToken) := by
  have h : Lexes (text.flatMap escapeUnit) (text.flatMap fun u => [unitToken u]) :=
    .flatMap fun u _ => lexes_escapeUnit u
  rwa [← List.map_eq_flatMap] at h

theorem lexes_bar : Lexes (ascii "|") [.bar] := .of_nextToken fun _ => rfl

theorem lexes_close : Lexes (ascii ")") [.close] := .of_nextToken fun _ => rfl

theorem lexes_openPlain : Lexes (ascii "(?:") [.openPlain] := .of_nextToken fun _ => rfl

theorem lexes_openNotAhead : Lexes (ascii "(?!") [.openNotAhead] := .of_nextToken fun _ => rfl

theorem lexes_anyPlus : Lexes (ascii ".+") [.item (.plus .any)] := .of_nextToken fun _ => rfl

theorem lexes_exceptPlus : Lexes (ascii "[^/]+") [.item (.plus (.except slash))] :=
  .of_nextToken fun _ => rfl

theorem lexes_atStart : Lexes (ascii "^") [.item .atStart] := .of_nextToken fun _ => rfl

theorem lexes_atEnd : Lexes (ascii "$") [.item .atEnd] := .of_nextToken fun _ => rfl

/-! ## Elements -/

def starTokens (set : UnitSet) : List Token := [.openGroup, .item (.plus set), .close]

def Piece.tokens : Piece → List Token
  | .star => starTokens .any
  | .literal u => [unitToken u]
  | .options [] => [.openPlain, .close]
  | .options (text :: more) =>
    .openPlain :: (text.map unitToken ++ more.flatMap fun other =>
      .bar :: other.map unitToken) ++ [.close]

def Element.tokens : Element → List Token
  | .piece p => p.tokens
  | .negation pieces last =>
    .openNotAhead :: (pieces.flatMap Piece.tokens ++ [.item (completion last), .close] ++
      starTokens (extraction last))

theorem intercalate_eq_flatMap {separator : Text} {texts : List Text} :
    separator.intercalate (text :: texts) = text ++ texts.flatMap (separator ++ ·) := by
  induction texts generalizing text with
  | nil => simp
  | cons other texts ih => simp only [List.intercalate_cons_cons, ih, List.flatMap_cons,
      List.append_assoc]

/-- A parenthesis opens a group unless a question mark comes after it. -/
theorem lexes_openGroup {tokens : List Token} (hu : u ≠ '?'.toNat) (h : Lexes (u :: text) tokens) :
    Lexes ('('.toNat :: u :: text) (.openGroup :: tokens) := by
  intro rest
  have hnext : nextToken ('('.toNat :: u :: (text ++ rest)) = some (1, .openGroup) := by
    have hhead : (u :: (text ++ rest)).head? ≠ some '?'.toNat := fun h => hu (Option.some.inj h)
    unfold nextToken
    dsimp only
    rw [if_neg (by decide), if_pos rfl, if_neg hhead]
  have hinner := h rest
  rw [List.cons_append] at hinner
  rw [List.cons_append, List.cons_append, lex, lexFrom, hnext]
  change (lex (u :: (text ++ rest))).map _ = _
  rw [hinner, Option.map_map]
  rfl

theorem lexes_groupAny : Lexes (ascii "(.+)") (starTokens .any) :=
  lexes_openGroup (by decide) (lexes_anyPlus.append lexes_close)

theorem lexes_groupExcept : Lexes (ascii "([^/]+)") (starTokens (.except slash)) :=
  lexes_openGroup (by decide) (lexes_exceptPlus.append lexes_close)

theorem lexes_piece (piece : Piece) (hoptions : piece.HasOptions) :
    Lexes piece.source piece.tokens := by
  cases piece with
  | star => exact lexes_groupAny
  | literal u => exact lexes_escapeUnit u
  | options texts =>
    cases texts with
    | nil => exact absurd rfl hoptions
    | cons text more =>
      rw [Piece.source, List.map_cons, intercalate_eq_flatMap, List.flatMap_map]
      refine (lexes_openPlain.append ((lexes_escape text).append
        (.flatMap fun other _ => ?_))).append
        lexes_close
      exact lexes_bar.append (lexes_escape other)

/-- The end of a negation, with its group. -/
theorem lexes_completion (last : Bool) :
    Lexes (completionText last ++ (ascii ")(" ++ (extractionText last ++ ascii "+)")))
      ([.item (completion last), .close] ++ starTokens (extraction last)) := by
  cases last with
  | true => exact (lexes_atEnd.append lexes_close).append lexes_groupAny
  | false => exact ((lexes_escapeUnit slash).append lexes_close).append lexes_groupExcept

theorem lexes_element (e : Element) (hoptions : e.HasOptions) : Lexes e.source e.tokens := by
  cases e with
  | piece piece => exact lexes_piece piece hoptions
  | negation pieces last =>
    have hpieces : Lexes (pieces.flatMap Piece.source) (pieces.flatMap Piece.tokens) :=
      .flatMap fun piece hpiece => lexes_piece piece (hoptions piece hpiece)
    have h := lexes_openNotAhead.append (hpieces.append (lexes_completion last))
    simp only [Element.source, Element.tokens, List.append_assoc] at h ⊢
    exact h

/-! ## Frames -/

/-- The frame with some more expressions. -/
def addAll (top : Frame) (items : List Regex) : Frame :=
  { top with sequence := items.foldl .seq top.sequence }

theorem addAll_append (items others : List Regex) :
    addAll top (items ++ others) = addAll (addAll top items) others := by
  simp only [addAll, List.foldl_append]

theorem parse_units (text : Text) (ts : List Token) :
    parse (text.map unitToken ++ ts) number top stack =
      parse ts number (addAll top (literals text)) stack := by
  induction text generalizing top with
  | nil => rfl
  | cons u text ih => exact ih

/-- The alternatives after the first one. -/
theorem parse_bars (more : List Text) (ts : List Token) :
    ∃ f : Frame, f.kind = top.kind ∧
      f.regex = alternatives top.regex (more.map fun other => inOrder (literals other)) ∧
      parse (more.flatMap (fun other => .bar :: other.map unitToken) ++ ts) number top stack =
        parse ts number f stack := by
  induction more generalizing top with
  | nil => exact ⟨top, rfl, rfl, rfl⟩
  | cons other more ih =>
    obtain ⟨f, hkind, hregex, hparse⟩ := @ih (addAll top.bar (literals other))
    refine ⟨f, hkind, hregex, ?_⟩
    rw [List.flatMap_cons, List.append_assoc, List.cons_append, parse, parse_units, hparse]

theorem parse_star (set : UnitSet) (ts : List Token) :
    parse (starTokens set ++ ts) number top stack =
      parse ts (number + 1) (top.add (.group number (inOrder [.plus set]))) stack := rfl

theorem parse_piece (piece : Piece) (hoptions : piece.HasOptions) (ts : List Token) :
    parse (piece.tokens ++ ts) number top stack =
      parse ts (number + piece.groups) (top.add (piece.regex number)) stack := by
  cases piece with
  | star => exact parse_star .any ts
  | literal u => rfl
  | options texts =>
    cases texts with
    | nil => exact absurd rfl hoptions
    | cons text more =>
      simp only [Piece.tokens, List.cons_append, List.nil_append, List.append_assoc,
        parse, parse_units]
      obtain ⟨f, hkind, hregex, hparse⟩ := @parse_bars number
        (addAll { kind := .plain } (literals text))
        (top :: stack) more (.close :: ts)
      rw [hparse, parse]
      have hclose : f.close = Piece.regex number (.options (text :: more)) := by
        rw [Frame.close, hkind]
        exact hregex
      rw [hclose]
      rfl

theorem parse_pieces {pieces : List Piece} (hoptions : ∀ piece ∈ pieces, piece.HasOptions)
    (ts : List Token) :
    parse (pieces.flatMap Piece.tokens ++ ts) number top stack =
      parse ts (number + groupsOf pieces) (addAll top (piecesRegex number pieces)) stack := by
  induction pieces generalizing number top with
  | nil => rfl
  | cons piece pieces ih =>
    obtain ⟨hpiece, hpieces⟩ := List.forall_mem_cons.mp hoptions
    rw [List.flatMap_cons, List.append_assoc, parse_piece piece hpiece, ih hpieces, Nat.add_assoc]
    rfl

theorem parse_element (e : Element) (hoptions : e.HasOptions) (ts : List Token) :
    parse (e.tokens ++ ts) number top stack =
      parse ts (number + e.groups) (addAll top (e.regex number)) stack := by
  cases e with
  | piece piece => exact parse_piece piece hoptions ts
  | negation pieces last =>
    simp only [Element.tokens, List.cons_append, List.append_assoc, parse, List.nil_append]
    rw [parse_pieces hoptions, parse, parse, parse_star]
    have hclose : ((addAll { kind := .notAhead } (piecesRegex number pieces)).add
        (completion last)).close =
          .notAhead (inOrder (piecesRegex number pieces ++ [completion last])) := by
      rw [inOrder, List.foldl_append]
      rfl
    rw [hclose]
    rfl

theorem parse_elements {elements : List Element} (hoptions : ∀ e ∈ elements, e.HasOptions)
    (ts : List Token) :
    parse (elements.flatMap Element.tokens ++ ts) number top stack =
      parse ts (number + (elements.map Element.groups).sum)
        (addAll top (elementsRegex number elements))
        stack := by
  induction elements generalizing number top with
  | nil => rfl
  | cons e elements ih =>
    obtain ⟨he, helements⟩ := List.forall_mem_cons.mp hoptions
    rw [List.flatMap_cons, List.append_assoc, parse_element e he, ih helements, elementsRegex,
      addAll_append, List.map_cons, List.sum_cons, Nat.add_assoc]

theorem hasOptions_elements (pattern : Pattern) : ∀ e ∈ pattern.elements, e.HasOptions := by
  intro e he
  rcases mem_elementsOf he with rfl | ⟨s, last, he⟩
  · trivial
  · rcases mem_elements he with ⟨piece, hpiece, rfl⟩ | rfl
    · exact (s.plain piece hpiece).hasOptions
    · exact fun piece hpiece => (s.plain piece hpiece).hasOptions

/-- **A compiled pattern is read as the expression of its elements.** -/
theorem ofText_compileRewritePattern (pattern : Pattern) :
    ofText (compileRewritePattern pattern.write) = some (patternRegex pattern.elements) := by
  have helements : Lexes (pattern.elements.flatMap Element.source)
      (pattern.elements.flatMap Element.tokens) :=
    .flatMap fun e he => lexes_element e (hasOptions_elements pattern e he)
  have htokens := ((lexes_atStart.append helements).append lexes_atEnd).lex_eq
  rw [ofText, compileRewritePattern_write, htokens]
  change parse _ 1 _ [] = _
  rw [List.append_assoc, List.singleton_append, parse, parse_elements (hasOptions_elements pattern)]
  simp only [parse, patternRegex, inOrder, List.foldl_cons, List.foldl_append]
  rfl

end Ez4.Distribution
