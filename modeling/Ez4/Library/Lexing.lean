import Mathlib.Data.List.Basic

/-! # Words, quotes and parentheses

The surface of a query text: words of letters and digits, quoted texts in which
a doubled quote stands for one, symbols of one character, and parentheses, which
`trees` pairs up. `Lexes` says what a text reads as wherever it stands, so that
what two texts read as adds up. -/

namespace Ez4.Library.Lexing

inductive Lexeme
  | word (chars : List Char)
  | quoted (quote : Char) (chars : List Char)
  | symbol (char : Char)
  /-- A quoted text that the end cuts off. -/
  | unclosed
deriving DecidableEq

inductive Token
  | left
  | right
  | lexeme (lexeme : Lexeme)
deriving DecidableEq

/-- Where the lexer is. -/
inductive Mode
  | start
  | word (chars : List Char)
  | quoted (quote : Char) (chars : List Char)
  /-- After a quote, which ends the text unless another one follows. -/
  | afterQuote (quote : Char) (chars : List Char)
deriving DecidableEq

def isWordChar (c : Char) : Bool := c.isAlphanum || c == '_' || c == '$' || decide (0x80 ≤ c.val)

def isQuote (c : Char) : Bool := c == '\'' || c == '"'

/-- What was read when the text goes on with something else, or ends. -/
def flush : Mode → List Token
  | .start => []
  | .word chars => [.lexeme (.word chars)]
  | .quoted _ _ => [.lexeme .unclosed]
  | .afterQuote quote chars => [.lexeme (.quoted quote chars)]

/-- A character after nothing that it could go on with. -/
def begin (c : Char) : List Token × Mode :=
  if c = '(' then ([.left], .start)
  else if c = ')' then ([.right], .start)
  else if c.isWhitespace then ([], .start)
  else if isWordChar c then ([], .word [c])
  else if isQuote c then ([], .quoted c [])
  else ([.lexeme (.symbol c)], .start)

def step (mode : Mode) (c : Char) : List Token × Mode :=
  match mode with
  | .quoted quote chars =>
    if c = quote then ([], .afterQuote quote chars) else ([], .quoted quote (chars ++ [c]))
  | .word chars =>
    if isWordChar c then ([], .word (chars ++ [c]))
    else (flush mode ++ (begin c).1, (begin c).2)
  | .afterQuote quote chars =>
    if c = quote then ([], .quoted quote (chars ++ [c]))
    else (flush mode ++ (begin c).1, (begin c).2)
  | .start => begin c

def lex : Mode → List Char → List Token
  | mode, [] => flush mode
  | mode, c :: rest => (step mode c).1 ++ lex (step mode c).2 rest

/-- What is read of a text that goes on, and where it leaves the lexer. -/
def scan : Mode → List Char → List Token × Mode
  | mode, [] => ([], mode)
  | mode, c :: rest =>
    ((step mode c).1 ++ (scan (step mode c).2 rest).1, (scan (step mode c).2 rest).2)

theorem lex_append (mode : Mode) (text rest : List Char) :
    lex mode (text ++ rest) = (scan mode text).1 ++ lex (scan mode text).2 rest := by
  induction text generalizing mode with
  | nil => rfl
  | cons c text ih =>
    rw [List.cons_append, lex, scan, ih]
    simp

theorem scan_append (mode : Mode) (text rest : List Char) :
    scan mode (text ++ rest) = ((scan mode text).1 ++ (scan (scan mode text).2 rest).1,
      (scan (scan mode text).2 rest).2) := by
  induction text generalizing mode with
  | nil => rfl
  | cons c text ih =>
    rw [List.cons_append, scan, ih, scan]
    simp

/-! ## What a text reads as -/

/-- What may follow a word or a quoted text without going on with it. -/
def Boundary (rest : List Char) : Prop :=
  ∀ c ∈ rest.head?, isWordChar c = false ∧ isQuote c = false

instance : (rest : List Char) → Decidable (Boundary rest)
  | [] => isTrue nofun
  | c :: _ =>
    decidable_of_iff (isWordChar c = false ∧ isQuote c = false)
      ⟨fun h _ hc => Option.some.inj hc ▸ h, fun h => h c rfl⟩

/-- The text reads as these tokens wherever a boundary follows. -/
def Lexes (text : List Char) (tokens : List Token) : Prop :=
  ∀ rest, Boundary rest → lex .start (text ++ rest) = tokens ++ lex .start rest

/-- The text reads as these tokens, whatever follows. -/
def Closed (text : List Char) (tokens : List Token) : Prop := scan .start text = (tokens, .start)

instance (text : List Char) (tokens : List Token) : Decidable (Closed text tokens) :=
  inferInstanceAs (Decidable (_ = _))

theorem Boundary.nil : Boundary [] := by simp [Boundary]

theorem Boundary.append {text rest : List Char} (h : Boundary text) (hr : Boundary rest) :
    Boundary (text ++ rest) := by
  cases text with
  | nil => exact hr
  | cons c text => exact h

theorem lex_boundary {mode : Mode} {rest : List Char} (h : Boundary rest)
    (hmode : ∀ quote chars, mode ≠ .quoted quote chars)
    (hquote : ∀ quote chars, mode = .afterQuote quote chars → isQuote quote = true) :
    lex mode rest = flush mode ++ lex .start rest := by
  cases rest with
  | nil => simp [lex, flush]
  | cons c rest =>
    obtain ⟨hword, hq⟩ := h c rfl
    cases mode with
    | start => simp [flush]
    | word chars => simp [lex, step, hword]
    | quoted quote chars => exact absurd rfl (hmode quote chars)
    | afterQuote quote chars =>
      have hne : c ≠ quote := by
        rintro rfl
        rw [hquote _ _ rfl] at hq
        cases hq
      simp [lex, step, hne]

theorem Closed.lexes {text : List Char} {tokens : List Token} (h : Closed text tokens) :
    Lexes text tokens := by
  intro rest _
  rw [lex_append, h]

/-- A text that ends in a word. -/
theorem Lexes.of_scan {text chars : List Char} {tokens : List Token}
    (h : scan .start text = (tokens, .word chars)) :
    Lexes text (tokens ++ [.lexeme (.word chars)]) := by
  intro rest hrest
  rw [lex_append, h, lex_boundary hrest (by simp) (by simp)]
  simp [flush]

theorem Lexes.append {a b : List Char} {ta tb : List Token} (ha : Lexes a ta) (hb : Lexes b tb)
    (hboundary : Boundary b) : Lexes (a ++ b) (ta ++ tb) := by
  intro rest hrest
  rw [List.append_assoc, ha _ (hboundary.append hrest), hb _ hrest, List.append_assoc]

theorem Closed.append {a b : List Char} {ta tb : List Token} (ha : Closed a ta)
    (hb : Lexes b tb) : Lexes (a ++ b) (ta ++ tb) := by
  intro rest hrest
  rw [List.append_assoc, lex_append, ha, hb _ hrest, List.append_assoc]

theorem lex_of_lexes {text : List Char} {tokens : List Token} (h : Lexes text tokens) :
    lex .start text = tokens := by
  have := h [] .nil
  simpa [lex, flush] using this

/-- The text with each quote doubled. -/
def doubleQuotes (quote : Char) (chars : List Char) : List Char :=
  chars.flatMap fun c => if c = quote then [quote, quote] else [c]

theorem doubleQuotes_of_not_mem {quote : Char} {chars : List Char} (h : quote ∉ chars) :
    doubleQuotes quote chars = chars := by
  rw [doubleQuotes, List.flatMap_congr (g := fun c => [c]), List.flatMap_singleton']
  intro c hc
  rw [if_neg (ne_of_mem_of_not_mem hc h)]

theorem scan_doubleQuotes (quote : Char) (read chars : List Char) :
    scan (.quoted quote read) (doubleQuotes quote chars) = ([], .quoted quote (read ++ chars)) := by
  induction chars generalizing read with
  | nil => simp [doubleQuotes, scan]
  | cons c chars ih =>
    have hcons : doubleQuotes quote (c :: chars) =
        (if c = quote then [quote, quote] else [c]) ++ doubleQuotes quote chars := rfl
    have hone : scan (.quoted quote read) (if c = quote then [quote, quote] else [c]) =
        ([], .quoted quote (read ++ [c])) := by
      by_cases hc : c = quote
      · subst hc
        simp [scan, step]
      · simp [scan, step, hc]
    rw [hcons, scan_append, hone, ih]
    simp

/-- **A quoted text is read back.** -/
theorem Lexes.quoted {quote : Char} (hquote : isQuote quote = true) (chars : List Char) :
    Lexes (quote :: (doubleQuotes quote chars ++ [quote])) [.lexeme (.quoted quote chars)] := by
  have hbegin : begin quote = ([], .quoted quote []) := by
    rcases (by simpa [isQuote] using hquote : quote = '\'' ∨ quote = '"') with rfl | rfl <;> decide
  intro rest hrest
  rw [List.cons_append, List.append_assoc, lex, step, hbegin, lex_append, scan_doubleQuotes]
  simp only [List.nil_append, List.cons_append, lex, step, if_true]
  rw [lex_boundary hrest (by simp) (by rintro _ _ ⟨⟩; exact hquote)]
  rfl

theorem begin_word {c : Char} (h : isWordChar c = true) : begin c = ([], .word [c]) := by
  have h1 : c ≠ '(' := by rintro rfl; revert h; decide
  have h2 : c ≠ ')' := by rintro rfl; revert h; decide
  have h3 : c.isWhitespace = false := by
    by_contra hw
    simp only [Char.isWhitespace, Bool.not_eq_false, Bool.or_eq_true, decide_eq_true_eq] at hw
    rcases hw with ((rfl | rfl) | rfl) | rfl <;> revert h <;> decide
  rw [begin, if_neg h1, if_neg h2, if_neg (by simp [h3]), if_pos h]

/-! ## Texts without quotes -/

section Unquoted

variable {ok : Char → Prop}

/-- A word or a symbol of such characters. -/
def Lexeme.MadeOf (ok : Char → Prop) : Lexeme → Prop
  | .word chars => ∀ c ∈ chars, ok c
  | .symbol c => ok c
  | _ => False

def Mode.MadeOf (ok : Char → Prop) : Mode → Prop
  | .start => True
  | .word chars => ∀ c ∈ chars, ok c
  | _ => False

theorem flush_made {mode : Mode} (h : mode.MadeOf ok) :
    ∃ lexemes : List Lexeme, flush mode = lexemes.map .lexeme ∧
      (∀ lexeme ∈ lexemes, lexeme.MadeOf ok) ∧ (mode ≠ .start → lexemes ≠ []) := by
  cases mode with
  | start => exact ⟨[], rfl, by simp, by simp⟩
  | word chars => exact ⟨[.word chars], rfl, List.forall_mem_singleton.mpr h, by simp⟩
  | quoted quote chars => cases h
  | afterQuote quote chars => cases h

/-- Each of them goes on with a word, or stands for itself. -/
theorem begin_made {c : Char}
    (hok : c ≠ '(' ∧ c ≠ ')' ∧ c.isWhitespace = false ∧ isQuote c = false) :
    begin c = ([], .word [c]) ∨ begin c = ([.lexeme (.symbol c)], .start) := by
  obtain ⟨h1, h2, h3, h4⟩ := hok
  by_cases hw : isWordChar c = true
  · exact .inl (begin_word hw)
  · right
    rw [begin, if_neg h1, if_neg h2, if_neg (by simp [h3]), if_neg hw, if_neg (by simp [h4])]

theorem lex_made (hok : ∀ c, ok c → c ≠ '(' ∧ c ≠ ')' ∧ c.isWhitespace = false ∧ isQuote c = false)
    {text : List Char} (h : ∀ c ∈ text, ok c) (mode : Mode) (hmode : mode.MadeOf ok) :
    (scan mode text).2.MadeOf ok ∧ ∃ lexemes : List Lexeme, lex mode text = lexemes.map .lexeme ∧
      (∀ lexeme ∈ lexemes, lexeme.MadeOf ok) ∧ (mode ≠ .start ∨ text ≠ [] → lexemes ≠ []) := by
  induction text generalizing mode with
  | nil =>
    obtain ⟨lexemes, heq, hmade, hne⟩ := flush_made hmode
    exact ⟨hmode, lexemes, heq, hmade, fun h => hne (h.resolve_right (by simp))⟩
  | cons c text ih =>
    have hc := h c List.mem_cons_self
    have ih := ih fun d hd => h d (List.mem_cons_of_mem _ hd)
    obtain ⟨before, hbefore, hbmade, -⟩ := flush_made hmode
    -- the character goes on with the word
    by_cases hword : (∃ chars, mode = .word chars) ∧ isWordChar c = true
    · obtain ⟨⟨chars, rfl⟩, hw⟩ := hword
      have hnext : (Mode.word (chars ++ [c])).MadeOf ok := by
        intro d hd
        rcases List.mem_append.mp hd with hd | hd
        · exact hmode d hd
        · exact List.mem_singleton.mp hd ▸ hc
      obtain ⟨hlast, lexemes, heq, hmade, hne⟩ := ih _ hnext
      rw [scan, lex, step, if_pos hw]
      exact ⟨hlast, lexemes, by simpa using heq, hmade, fun _ => hne (by simp)⟩
    -- or something begins with it
    have hstep : step mode c = (flush mode ++ (begin c).1, (begin c).2) := by
      cases mode with
      | start => rfl
      | word chars => rw [step, if_neg fun hw => hword ⟨⟨chars, rfl⟩, hw⟩]
      | quoted quote chars => cases hmode
      | afterQuote quote chars => cases hmode
    rw [scan, lex, hstep, hbefore]
    rcases begin_made (hok c hc) with hb | hb <;> rw [hb]
    · have hnext : (Mode.word [c]).MadeOf ok := by simpa [Mode.MadeOf] using hc
      obtain ⟨hlast, lexemes, heq, hmade, hne⟩ := ih _ hnext
      refine ⟨hlast, before ++ lexemes, by simp [heq], ?_, fun _ => by simp [hne]⟩
      exact fun lexeme hl => (List.mem_append.mp hl).elim (hbmade lexeme) (hmade lexeme)
    · obtain ⟨hlast, lexemes, heq, hmade, -⟩ := ih .start trivial
      refine ⟨hlast, before ++ .symbol c :: lexemes, by simp [heq], ?_, fun _ => by simp⟩
      intro lexeme hl
      rcases List.mem_append.mp hl with hl | hl
      · exact hbmade lexeme hl
      · rcases List.mem_cons.mp hl with rfl | hl
        · exact hc
        · exact hmade lexeme hl

/-- **A text without quotes, blanks and parentheses** reads as words and symbols. -/
theorem Lexes.made
    (hok : ∀ c, ok c → c ≠ '(' ∧ c ≠ ')' ∧ c.isWhitespace = false ∧ isQuote c = false)
    {text : List Char} (h : ∀ c ∈ text, ok c) (hne : text ≠ []) :
    ∃ lexemes : List Lexeme, Lexes text (lexemes.map .lexeme) ∧
      (∀ lexeme ∈ lexemes, lexeme.MadeOf ok) ∧ lexemes ≠ [] := by
  obtain ⟨hlast, lexemes, heq, hmade, hlexemes⟩ := lex_made hok h .start trivial
  refine ⟨lexemes, fun rest hrest => ?_, hmade, hlexemes (.inr hne)⟩
  have hflush : lex (scan .start text).2 rest =
      flush (scan .start text).2 ++ lex .start rest := by
    refine lex_boundary hrest ?_ ?_ <;> intro quote chars hmode <;> rw [hmode] at hlast <;>
      cases hlast
  have hlex := lex_append .start text []
  rw [List.append_nil, lex] at hlex
  rw [lex_append, hflush, ← List.append_assoc, ← hlex, heq]

end Unquoted

/-! ## Trees -/

/-- A lexeme, or what stands in a pair of parentheses. -/
inductive Tree
  | leaf (lexeme : Lexeme)
  | group (trees : List Tree)

mutual

def Tree.flatten : Tree → List Token
  | .leaf lexeme => [.lexeme lexeme]
  | .group trees => .left :: (flattenAll trees ++ [.right])

def flattenAll : List Tree → List Token
  | [] => []
  | tree :: rest => tree.flatten ++ flattenAll rest

end

@[simp] theorem flattenAll_append (a b : List Tree) :
    flattenAll (a ++ b) = flattenAll a ++ flattenAll b := by
  induction a with
  | nil => rfl
  | cons tree a ih => simp [flattenAll, ih]

/-- Pairs up the parentheses. The stack holds what was read in each open one,
the innermost first. -/
def pair : List Token → List (List Tree) → Option (List Tree)
  | [], [top] => some top
  | [], _ => none
  | .left :: rest, stack => pair rest ([] :: stack)
  | .right :: rest, top :: below :: stack => pair rest ((below ++ [.group top]) :: stack)
  | .right :: _, _ => none
  | .lexeme lexeme :: rest, top :: stack => pair rest ((top ++ [.leaf lexeme]) :: stack)
  | .lexeme _ :: _, [] => none

/-- What a text reads as, when its parentheses match. -/
def trees (text : List Char) : Option (List Tree) := pair (lex .start text) [[]]

mutual

theorem pair_tree (tree : Tree) (rest : List Token) (top : List Tree) (stack : List (List Tree)) :
    pair (tree.flatten ++ rest) (top :: stack) = pair rest ((top ++ [tree]) :: stack) := by
  cases tree with
  | leaf lexeme => rfl
  | group trees =>
    have h := pair_flattenAll trees (.right :: rest) [] (top :: stack)
    simp only [Tree.flatten, List.cons_append, List.append_assoc, List.nil_append, pair] at h ⊢
    exact h
theorem pair_flattenAll (trees : List Tree) (rest : List Token) (top : List Tree)
    (stack : List (List Tree)) :
    pair (flattenAll trees ++ rest) (top :: stack) = pair rest ((top ++ trees) :: stack) := by
  cases trees with
  | nil => simp [flattenAll]
  | cons tree trees =>
    rw [flattenAll, List.append_assoc, pair_tree tree, pair_flattenAll trees]
    simp

end

/-- **Trees are read back.** -/
theorem trees_of_lexes {text : List Char} {ts : List Tree} (h : Lexes text (flattenAll ts)) :
    trees text = some ts := by
  rw [trees, lex_of_lexes h]
  have := pair_flattenAll ts [] [] []
  simpa [pair] using this

end Ez4.Library.Lexing
