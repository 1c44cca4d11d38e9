import Ez4.Library.Precedence

/-! # Conditions with markers

A `?` in a text stands for a value. `fill` puts a lexeme in the place of each of
them, in their order. A part is a text with the lexemes of its markers, and the
value that it has where it stands in a condition. -/

namespace Ez4.Library.Markers
open Lexing Precedence

/-! ## Filling -/

def isMarker : Token → Bool
  | .lexeme (.symbol c) => c == '?'
  | _ => false

def count (tokens : List Token) : Nat := tokens.countP isMarker

def fill : List Token → List Lexeme → List Token
  | [], _ => []
  | token :: rest, [] => token :: fill rest []
  | token :: rest, lexeme :: lexemes =>
    if isMarker token then .lexeme lexeme :: fill rest lexemes
    else token :: fill rest (lexeme :: lexemes)

@[simp] theorem fill_nil (tokens : List Token) : fill tokens [] = tokens := by
  induction tokens with
  | nil => rfl
  | cons token rest ih => rw [fill, ih]

theorem fill_append {a : List Token} {la : List Lexeme} (h : count a = la.length) (b : List Token)
    (lb : List Lexeme) : fill (a ++ b) (la ++ lb) = fill a la ++ fill b lb := by
  induction a generalizing la with
  | nil =>
    obtain rfl := List.length_eq_zero_iff.mp h.symm
    rfl
  | cons token a ih =>
    rw [count, List.countP_cons] at h
    by_cases hmarker : isMarker token = true
    · rw [if_pos hmarker] at h
      obtain ⟨lexeme, la, rfl⟩ := List.exists_cons_of_length_eq_add_one h.symm
      rw [List.cons_append, List.cons_append, fill, fill, if_pos hmarker, if_pos hmarker,
        ih (Nat.succ.inj h), List.cons_append]
    · rw [if_neg hmarker, Nat.add_zero] at h
      cases la with
      | nil =>
        have := ih h
        rw [List.nil_append, fill_nil] at this ⊢
        cases lb with
        | nil => simp
        | cons lexeme lb => rw [List.cons_append, fill, if_neg hmarker, this, List.cons_append]
      | cons lexeme la =>
        rw [List.cons_append, List.cons_append, fill, fill, if_neg hmarker, if_neg hmarker,
          ← List.cons_append, ih h, List.cons_append]

/-- How values are written: as lexemes that are no keywords of a condition. -/
structure Literals (V : Type) where
  lexeme : V → Lexeme
  plain : ∀ value, isPlain (.leaf (lexeme value)) = true
  positive : ∀ value, isKeyword "NOT" (.leaf (lexeme value)) = false

/-- What a filled text reads as, when its parentheses match. -/
def filledTrees (text : List Char) (lexemes : List Lexeme) : Option (List Tree) :=
  pair (fill (lex .start text) lexemes) [[]]

/-- The text reads as these tokens when it is filled, wherever a boundary follows. -/
def Fills (text : List Char) (lexemes : List Lexeme) (filled : List Token) : Prop :=
  ∃ tokens, Lexes text tokens ∧ count tokens = lexemes.length ∧ fill tokens lexemes = filled

/-- The same whatever follows. -/
def FillsClosed (text : List Char) (lexemes : List Lexeme) (filled : List Token) : Prop :=
  ∃ tokens, Closed text tokens ∧ count tokens = lexemes.length ∧ fill tokens lexemes = filled

section
variable {a b text : List Char} {la lb lexemes : List Lexeme} {ta tb filled : List Token}

theorem FillsClosed.fills (h : FillsClosed text lexemes filled) : Fills text lexemes filled := by
  obtain ⟨tokens, hclosed, hcount, hfill⟩ := h
  exact ⟨tokens, hclosed.lexes, hcount, hfill⟩

theorem Fills.of_lexes {tokens : List Token} (h : Lexes text tokens) (hcount : count tokens = 0) :
    Fills text [] tokens := ⟨tokens, h, hcount, fill_nil tokens⟩

theorem FillsClosed.of_closed {tokens : List Token} (h : Closed text tokens)
    (hcount : count tokens = 0) : FillsClosed text [] tokens := ⟨tokens, h, hcount, fill_nil tokens⟩

theorem count_append (a b : List Token) : count (a ++ b) = count a + count b := by
  simp [count, List.countP_append]

theorem Fills.append (ha : Fills a la ta) (hb : Fills b lb tb) (hboundary : Boundary b) :
    Fills (a ++ b) (la ++ lb) (ta ++ tb) := by
  obtain ⟨tokens, hlexes, hcount, rfl⟩ := ha
  obtain ⟨tokens', hlexes', hcount', rfl⟩ := hb
  refine ⟨tokens ++ tokens', hlexes.append hlexes' hboundary, ?_, fill_append hcount _ _⟩
  rw [count_append, List.length_append, hcount, hcount']

theorem FillsClosed.append (ha : FillsClosed a la ta) (hb : Fills b lb tb) :
    Fills (a ++ b) (la ++ lb) (ta ++ tb) := by
  obtain ⟨tokens, hclosed, hcount, rfl⟩ := ha
  obtain ⟨tokens', hlexes, hcount', rfl⟩ := hb
  refine ⟨tokens ++ tokens', hclosed.append hlexes, ?_, fill_append hcount _ _⟩
  rw [count_append, List.length_append, hcount, hcount']

/-- **A filled text reads as its trees**, and has a marker for each lexeme. -/
theorem Fills.trees {ts : List Tree} (h : Fills text lexemes (flattenAll ts)) :
    count (lex .start text) = lexemes.length ∧ filledTrees text lexemes = some ts := by
  obtain ⟨tokens, hlexes, hcount, hfill⟩ := h
  rw [filledTrees, lex_of_lexes hlexes]
  refine ⟨hcount, ?_⟩
  rw [hfill]
  have := pair_flattenAll ts [] [] []
  simpa [pair] using this

/-- What keeps two texts apart. -/
structure Separator (text : List Char) (ts : List Tree) : Prop where
  nonempty : text ≠ []
  boundary : Boundary text
  closed : FillsClosed text [] (flattenAll ts)

theorem Separator.boundary_append (h : Separator text ts) (rest : List Char) :
    Boundary (text ++ rest) := by
  obtain ⟨c, chars, rfl⟩ := List.exists_cons_of_ne_nil h.nonempty
  exact h.boundary

theorem Fills.separated {ts ts' separators : List Tree} (ha : Fills a la (flattenAll ts))
    (hs : Separator text separators) (hb : Fills b lb (flattenAll ts')) :
    Fills (a ++ (text ++ b)) (la ++ lb) (flattenAll (ts ++ (separators ++ ts'))) := by
  rw [flattenAll_append, flattenAll_append]
  exact ha.append (hs.closed.append hb) (hs.boundary_append b)

/-- A text with something around it that ends in a closing parenthesis. -/
theorem Fills.wrapped {ts : List Tree} {opening : List Char} (before : List Tree)
    (hopening : FillsClosed opening [] (flattenAll before ++ [.left]))
    (h : Fills text lexemes (flattenAll ts)) :
    Fills (opening ++ (text ++ [')'])) lexemes (flattenAll (before ++ [.group ts])) := by
  have hclosing : Fills [')'] [] [Token.right] := .of_lexes (Closed.lexes (by decide)) rfl
  have hfills := hopening.append (h.append hclosing (by decide))
  simpa [flattenAll, Tree.flatten] using hfills

end

/-! ## Parts of a condition -/

structure Part (L : Type) where
  text : List Char
  lexemes : List Lexeme
  value : L

section
variable {L : Type} [Lattice L] [BoundedOrder L] (neg : L → L) (v : List Tree → L)

/-- It has its value between any two of `AND` and `OR`. -/
def IsUnit (part : Part L) : Prop :=
  ∃ ts, ts ≠ [] ∧ Fills part.text part.lexemes (flattenAll ts) ∧ UnitValue neg v ts part.value

/-- It is made of such parts with `AND`s between them. -/
def IsChain (part : Part L) : Prop :=
  ∃ units : List (List Tree × L), units ≠ [] ∧
    Fills part.text part.lexemes (flattenAll (List.intercalate [andWord] (units.map Prod.fst))) ∧
    (∀ unit ∈ units, UnitValue neg v unit.1 unit.2) ∧ infAll (units.map Prod.snd) = part.value

/-- The parts one after the other. -/
def joined (separator : List Char) (value : List L → L) (parts : List (Part L)) : Part L where
  text := List.intercalate separator (parts.map Part.text)
  lexemes := parts.flatMap Part.lexemes
  value := value (parts.map Part.value)

variable {neg v} {part : Part L} {parts : List (Part L)}

theorem IsUnit.chain (h : IsUnit neg v part) : IsChain neg v part := by
  obtain ⟨ts, hne, hfills, hvalue⟩ := h
  refine ⟨[(ts, part.value)], by simp, ?_, by simpa using hvalue, by simp [infAll]⟩
  simpa [List.intercalate] using hfills

theorem infAll_append (xs ys : List L) : infAll (xs ++ ys) = infAll xs ⊓ infAll ys := by
  induction xs with
  | nil => simp [infAll]
  | cons x xs ih =>
    have hcons : ∀ l : List L, infAll (x :: l) = x ⊓ infAll l := fun _ => rfl
    rw [List.cons_append, hcons, hcons, ih, inf_assoc]

theorem intercalate_append {β : Type} (separator : List β) {a b : List (List β)} (ha : a ≠ [])
    (hb : b ≠ []) : List.intercalate separator (a ++ b) =
      List.intercalate separator a ++ (separator ++ List.intercalate separator b) := by
  induction a with
  | nil => exact absurd rfl ha
  | cons first a ih =>
    cases a with
    | nil =>
      obtain ⟨next, b, rfl⟩ := List.exists_cons_of_ne_nil hb
      rw [List.singleton_append, intercalate_cons_cons]
      simp [List.intercalate]
    | cons next a =>
      rw [List.cons_append, List.cons_append, intercalate_cons_cons, ← List.cons_append,
        ih (by simp), intercalate_cons_cons]
      simp

theorem separator_and : Separator " AND ".toList [andWord] :=
  ⟨by decide, by decide, .of_closed (by decide) (by decide)⟩

theorem separator_or : Separator " OR ".toList [orWord] :=
  ⟨by decide, by decide, .of_closed (by decide) (by decide)⟩

/-- **Chains with `AND`s between them** are a chain. -/
theorem isChain_and (hne : parts ≠ []) (h : ∀ part ∈ parts, IsChain neg v part) :
    IsChain neg v (joined " AND ".toList infAll parts) := by
  induction parts with
  | nil => exact absurd rfl hne
  | cons part parts ih =>
    obtain ⟨units, hunits, hfills, hvalues, hvalue⟩ := h part List.mem_cons_self
    cases parts with
    | nil =>
      refine ⟨units, hunits, ?_, hvalues, ?_⟩
      · simpa [joined, List.intercalate] using hfills
      · simp [joined, infAll, ← hvalue]
    | cons next parts =>
      obtain ⟨units', hunits', hfills', hvalues', hvalue'⟩ :=
        ih (by simp) fun p hp => h p (List.mem_cons_of_mem _ hp)
      refine ⟨units ++ units', by simp [hunits], ?_, ?_, ?_⟩
      · rw [List.map_append, intercalate_append _ (by simpa using hunits) (by simpa using hunits')]
        have hboth := hfills.separated separator_and hfills'
        simpa only [joined, List.map_cons, intercalate_cons_cons, List.flatMap_cons] using hboth
      · intro unit hu
        exact (List.mem_append.mp hu).elim (hvalues unit) (hvalues' unit)
      · rw [List.map_append, infAll_append, hvalue, hvalue']
        rfl

/-- The parts read one by one, and what they read as between `OR`s. -/
theorem fills_or {chains : List (List (List Tree × L))} (hne : parts ≠ [])
    (h : List.Forall₂ (fun (part : Part L) chain => Fills part.text part.lexemes
      (flattenAll (List.intercalate [andWord] (chain.map Prod.fst)))) parts chains) :
    Fills (joined " OR ".toList supAll parts).text (joined " OR ".toList supAll parts).lexemes
      (flattenAll (List.intercalate [orWord] (chains.map fun chain =>
        List.intercalate [andWord] (chain.map Prod.fst)))) := by
  induction h with
  | nil => exact absurd rfl hne
  | @cons part chain parts chains hhead htail ih =>
    cases htail with
    | nil => simpa [joined, List.intercalate] using hhead
    | @cons next chain' parts chains hnext htail =>
      have hboth := hhead.separated separator_or (ih (by simp))
      simpa only [joined, List.map_cons, intercalate_cons_cons, List.flatMap_cons] using hboth

theorem exists_chains (h : ∀ part ∈ parts, IsChain neg v part) :
    ∃ chains : List (List (List Tree × L)),
      List.Forall₂ (fun (part : Part L) chain => Fills part.text part.lexemes
        (flattenAll (List.intercalate [andWord] (chain.map Prod.fst)))) parts chains ∧
      (∀ chain ∈ chains, chain ≠ [] ∧ ∀ unit ∈ chain, UnitValue neg v unit.1 unit.2) ∧
      (chains.map fun chain => infAll (chain.map Prod.snd)) = parts.map Part.value := by
  induction parts with
  | nil => exact ⟨[], .nil, by simp, rfl⟩
  | cons part parts ih =>
    obtain ⟨units, hunits, hfills, hvalues, hvalue⟩ := h part List.mem_cons_self
    obtain ⟨chains, hall, hchains, hmap⟩ := ih fun p hp => h p (List.mem_cons_of_mem _ hp)
    refine ⟨units :: chains, .cons hfills hall, ?_, by rw [List.map_cons, hvalue, hmap]; rfl⟩
    exact List.forall_mem_cons.mpr ⟨⟨hunits, hvalues⟩, hchains⟩

/-- What stands in parentheses. -/
def Part.wrapped (opening : List Char) (part : Part L) (value : L) : Part L :=
  { part with text := opening ++ (part.text ++ [')']), value }

/-- **Chains with `OR`s between them**, in parentheses. -/
theorem isUnit_or (hne : parts ≠ []) (h : ∀ part ∈ parts, IsChain neg v part) :
    IsUnit neg v ((joined " OR ".toList supAll parts).wrapped ['('] (supAll (parts.map Part.value))) := by
  obtain ⟨chains, hall, hchains, hvalues⟩ := exists_chains h
  have hne' : chains ≠ [] := by
    rintro rfl
    cases hall
    exact hne rfl
  refine ⟨[.group _], by simp, (fills_or hne hall).wrapped [] ?_, ?_⟩
  · exact .of_closed (by decide) (by decide)
  · have hvalue := (Value.any_chains hne' hchains).group
    rwa [hvalues] at hvalue

/-- A chain has its value in parentheses, and where it stands alone. -/
theorem IsChain.value (h : IsChain neg v part) :
    ∃ ts, Fills part.text part.lexemes (flattenAll ts) ∧ Value neg v ts part.value := by
  obtain ⟨units, hunits, hfills, hvalues, hvalue⟩ := h
  exact ⟨_, hfills, hvalue ▸ Value.all hunits hvalues⟩

theorem IsChain.group (h : IsChain neg v part) : IsUnit neg v (part.wrapped ['('] part.value) := by
  obtain ⟨ts, hfills, hvalue⟩ := h.value
  exact ⟨[.group ts], by simp, hfills.wrapped [] (.of_closed (by decide) (by decide)), hvalue.group⟩

theorem IsChain.negated (h : IsChain neg v part) :
    IsUnit neg v (part.wrapped "NOT (".toList (neg part.value)) := by
  obtain ⟨ts, hfills, hvalue⟩ := h.value
  exact ⟨[notWord, .group ts], by simp,
    hfills.wrapped [notWord] (.of_closed (by decide) (by decide)), hvalue.group.negated (by simp)⟩

/-- **What is read of a chain** has its value. -/
theorem IsChain.read (h : IsChain neg v part) :
    count (lex .start part.text) = part.lexemes.length ∧
      ∃ ts, filledTrees part.text part.lexemes = some ts ∧
        (Precedence.read ts).eval neg v = part.value := by
  obtain ⟨ts, hfills, hvalue⟩ := h.value
  exact ⟨hfills.trees.1, ts, hfills.trees.2, hvalue.read⟩

end

end Ez4.Library.Markers
