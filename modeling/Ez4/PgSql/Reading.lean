import Mathlib.Tactic.IntervalCases
import Ez4.Library.Alike
import Ez4.Library.Precedence
import Ez4.PgSql.Conditions

/-! # How the texts of the operations read

Each text that an operation writes for an operand that is not raw SQL, read as
trees: its quotes and parentheses close, and what stands between them is no
keyword that could split a condition. -/
namespace Ez4.PgSql
open Library Library.Lexing Library.Precedence

variable {Q W : Type}

/-! ## Texts and trees -/

def Text.chars (text : Text W) : List Char := text.flatMap fun piece => piece.render.toList

theorem Text.render_toList (text : Text W) : text.render.toList = text.chars := by
  rw [Text.render, String.toList_join, List.flatMap_map]
  rfl

@[simp] theorem chars_append (a b : Text W) :
    Text.chars (a ++ b : Text W) = a.chars ++ b.chars := by simp [Text.chars]

@[simp] theorem chars_sql (text : String) : (sql text : Text W).chars = text.toList := by
  simp [Text.chars, sql, Piece.render]

/-- What a text reads as; nothing when its quotes or parentheses do not close. -/
def treesOf (text : Text W) : List Tree := (trees text.render.toList).getD []

def Reads (text : Text W) (ts : List Tree) : Prop := Lexes text.chars (flattenAll ts)

namespace Reads

variable {a b : Text W} {ta tb ts : List Tree}

theorem treesOf_eq (h : Reads a ta) : treesOf a = ta := by
  rw [treesOf, Text.render_toList, trees_of_lexes h, Option.getD_some]

/-- A text that goes on with something else than a word or a quoted text. -/
theorem append (ha : Reads a ta) (hb : Reads b tb) (hboundary : Boundary b.chars) :
    Reads (a ++ b) (ta ++ tb) := by
  rw [Reads, chars_append, flattenAll_append]
  exact Lexes.append ha hb hboundary

/-- A text after one that nothing goes on with. -/
theorem follow (ha : Closed a.chars (flattenAll ta)) (hb : Reads b tb) :
    Reads (a ++ b) (ta ++ tb) := by
  rw [Reads, chars_append, flattenAll_append]
  exact ha.append hb

/-- What stands in a pair of parentheses. -/
theorem wrapped (before after : List Tree) {opening closing : Text W}
    (hopening : Closed opening.chars (flattenAll before ++ [.left])) (h : Reads a ta)
    (hclosing : Lexes closing.chars (.right :: flattenAll after))
    (hboundary : Boundary closing.chars) :
    Reads (opening ++ a ++ closing) (before ++ .group ta :: after) := by
  have hlexes := hopening.append (Lexes.append h hclosing hboundary)
  have htokens : flattenAll (before ++ .group ta :: after) =
      flattenAll before ++ [.left] ++ (flattenAll ta ++ .right :: flattenAll after) := by
    simp [flattenAll, Tree.flatten]
  rw [Reads, chars_append, chars_append, List.append_assoc, htokens]
  exact hlexes

end Reads

/-- A text that ends in a word. -/
theorem Reads.of_scan {text : String} (before : List Tree) (last : List Char)
    (h : scan .start text.toList = (flattenAll before, .word last)) :
    Reads (sql text : Text W) (before ++ [.leaf (.word last)]) := by
  rw [Reads, chars_sql, flattenAll_append]
  exact Lexes.of_scan h

/-- What stands between two texts and keeps them apart. -/
structure Separates (separator : Text W) (ts : List Tree) : Prop where
  nonempty : separator.chars ≠ []
  boundary : Boundary separator.chars
  closed : Closed separator.chars (flattenAll ts)

theorem Separates.of_literal {separator : String} {ts : List Tree} (hne : separator.toList ≠ [])
    (hb : Boundary separator.toList) (hc : Closed separator.toList (flattenAll ts)) :
    Separates (sql separator : Text W) ts :=
  ⟨by rwa [chars_sql], by rwa [chars_sql], by rwa [chars_sql]⟩

theorem Separates.boundary_append {separator b : Text W} {ts : List Tree}
    (h : Separates separator ts) : Boundary (separator ++ b : Text W).chars := by
  rw [chars_append]
  rcases hc : separator.chars with - | ⟨c, rest⟩
  · exact absurd hc h.nonempty
  · have := h.boundary
    rw [hc] at this
    exact this

theorem Reads.separated {a b separator : Text W} {ta tb ts : List Tree} (ha : Reads a ta)
    (hs : Separates separator ts) (hb : Reads b tb) :
    Reads (a ++ separator ++ b) (ta ++ ts ++ tb) := by
  rw [List.append_assoc, List.append_assoc]
  exact ha.append (Reads.follow hs.closed hb) hs.boundary_append

theorem join_cons_cons (separator : String) (a b : Text W) (texts : List (Text W)) :
    join separator (a :: b :: texts) = a ++ sql separator ++ join separator (b :: texts) := by
  rw [join, intercalate_cons_cons, ← List.append_assoc]
  rfl

theorem Reads.joined {separator : String} {ts : List Tree}
    (hs : Separates (sql separator : Text W) ts) {texts : List (Text W)}
    (h : ∀ text ∈ texts, Reads text (treesOf text)) :
    Reads (join separator texts) (List.intercalate ts (texts.map treesOf)) := by
  induction texts with
  | nil => exact Closed.lexes rfl
  | cons text texts ih =>
    have htext := h text List.mem_cons_self
    cases texts with
    | nil => simpa [join, List.intercalate] using htext
    | cons next texts =>
      have hrest := ih fun t ht => h t (List.mem_cons_of_mem _ ht)
      rw [join_cons_cons, List.map_cons, List.map_cons, intercalate_cons_cons, ← List.append_assoc]
      exact htext.separated hs hrest

/-! ## Terms -/

/-- A text that stands on a side of an operator: none of its trees is a keyword
of a condition. -/
structure Term (text : Text W) : Prop where
  reads : Reads text (treesOf text)
  nonempty : treesOf text ≠ []
  plain : ∀ tree ∈ treesOf text, isPlain tree = true
  notNegated : ∀ tree ∈ (treesOf text).head?, isKeyword "NOT" tree = false

namespace Term

variable {a b : Text W} {ts : List Tree}

theorem of_reads (h : Reads a ts) (hne : ts ≠ []) (hplain : ∀ tree ∈ ts, isPlain tree = true)
    (hnot : ∀ tree ∈ ts.head?, isKeyword "NOT" tree = false) : Term a := by
  have := h.treesOf_eq
  subst this
  exact ⟨h, hne, hplain, hnot⟩

theorem head_append {ta : List Tree} (hne : ta ≠ [])
    (hnot : ∀ tree ∈ ta.head?, isKeyword "NOT" tree = false) :
    ∀ tree ∈ (ta ++ ts).head?, isKeyword "NOT" tree = false := by
  obtain ⟨tree, rest, rfl⟩ := List.exists_cons_of_ne_nil hne
  exact hnot

/-- Two terms with what stands between them. -/
theorem separated {separator : Text W} (ha : Term a) (hs : Separates separator ts)
    (hplain : ∀ tree ∈ ts, isPlain tree = true) (hb : Term b) : Term (a ++ separator ++ b) := by
  have hreads := ha.reads.separated hs hb.reads
  refine of_reads hreads (by simp [ha.nonempty]) ?_ ?_
  · intro tree ht
    rcases List.mem_append.mp ht with ht | ht
    · rcases List.mem_append.mp ht with ht | ht
      · exact ha.plain tree ht
      · exact hplain tree ht
    · exact hb.plain tree ht
  · rw [List.append_assoc]
    exact head_append ha.nonempty ha.notNegated

/-- A term with something after it. -/
theorem append (ha : Term a) (hb : Reads b ts) (hboundary : Boundary b.chars)
    (hplain : ∀ tree ∈ ts, isPlain tree = true) : Term (a ++ b) := by
  refine of_reads (ha.reads.append hb hboundary) (by simp [ha.nonempty]) ?_
    (head_append ha.nonempty ha.notNegated)
  intro tree ht
  rcases List.mem_append.mp ht with ht | ht
  · exact ha.plain tree ht
  · exact hplain tree ht

/-- A lexeme that is no keyword. -/
theorem leaf (lexeme : Lexeme) (h : Lexes a.chars [.lexeme lexeme])
    (hplain : isPlain (.leaf lexeme) = true) (hnot : isKeyword "NOT" (.leaf lexeme) = false) :
    Term a :=
  @of_reads _ _ [.leaf lexeme] h (by simp) (by simpa using hplain) (by simpa using hnot)

theorem congr (h : a.chars = b.chars) (hb : Term b) : Term a := by
  have hreads : Reads a (treesOf b) := by
    rw [Reads, h]
    exact hb.reads
  exact of_reads hreads hb.nonempty hb.plain hb.notNegated

end Term

/-! ## Names, keys and values -/

theorem toList_replaceAll (text : String) (replaced : Char → Bool) (other : Char → List Char) :
    (replaceAll text replaced other).toList =
      text.toList.flatMap fun c => if replaced c then other c else [c] := by
  rw [replaceAll, String.toList_ofList]

theorem term_quoted {a : Text W} (quote : Char) (chars : List Char) (hquote : isQuote quote = true)
    (h : a.chars = quote :: (doubleQuotes quote chars ++ [quote])) : Term a :=
  Term.leaf _ (by rw [h]; exact Lexes.quoted hquote chars) rfl rfl

theorem term_escapeSqlText (text : String) : Term (sql (escapeSqlText text) : Text W) := by
  refine term_quoted '\'' text.toList rfl ?_
  rw [chars_sql, escapeSqlText, String.toList_append, String.toList_append, toList_replaceAll]
  simp [doubleQuotes]

theorem term_escapeSqlName (name : String) : Term (sql (escapeSqlName name) : Text W) := by
  rw [escapeSqlName]
  split
  · rename_i hname
    subst hname
    refine Term.leaf (.symbol '*') ?_ rfl rfl
    rw [chars_sql]
    exact Closed.lexes (by decide)
  · refine term_quoted '"' name.toList rfl ?_
    rw [chars_sql, String.toList_append, String.toList_append, toList_replaceAll]
    simp [doubleQuotes]

theorem chars_join (separator : String) (texts : List (Text W)) :
    (join separator texts).chars = List.intercalate separator.toList (texts.map Text.chars) := by
  induction texts with
  | nil => rfl
  | cons text texts ih =>
    cases texts with
    | nil => simp [join, List.intercalate]
    | cons next texts =>
      rw [join_cons_cons, chars_append, chars_append, ih, chars_sql, List.map_cons, List.map_cons,
        List.map_cons, intercalate_cons_cons, List.append_assoc]

/-- Something in parentheses. -/
theorem Reads.group {a : Text W} {ts : List Tree} (h : Reads a ts) :
    Reads (sql "(" ++ a ++ sql ")") [.group ts] := by
  refine Reads.wrapped [] [] ?_ h ?_ ?_ <;> rw [chars_sql]
  · decide
  · exact Closed.lexes (by decide)
  · decide

theorem term_group {a : Text W} {ts : List Tree} (h : Reads a ts) :
    Term (sql "(" ++ a ++ sql ")") :=
  Term.of_reads h.group (by simp) (by simp [isPlain, isKeyword]) (by simp [isKeyword])

theorem reads_backslash :
    Reads (sql "chr(92)" : Text W) [.leaf (.word "chr".toList), .group [.leaf (.word "92".toList)]] := by
  rw [Reads, chars_sql]
  exact Closed.lexes (by decide)

theorem term_escapeSqlKey (key : String) : Term (sql (escapeSqlKey key) : Text W) := by
  rw [escapeSqlKey]
  split
  · exact term_escapeSqlText key
  · generalize htokens : (List.splitOn '\\' key.toList).mapIdx _ = tokens
    have hsame : (sql ("(" ++ " || ".intercalate tokens.flatten ++ ")") : Text W).chars =
        Text.chars (sql "(" ++ join " || " (tokens.flatten.map sql) ++ sql ")" : Text W) := by
      simp only [chars_sql, chars_append, String.toList_append, String.toList_intercalate,
        chars_join, List.map_map]
      congr 3
      exact List.map_congr_left fun token _ => (chars_sql token).symm
    have hreads : ∀ text ∈ tokens.flatten.map (sql : String → Text W), Reads text (treesOf text) := by
      intro text htext
      obtain ⟨token, htoken, rfl⟩ := List.mem_map.mp htext
      obtain ⟨part, hpart, htoken⟩ := List.mem_flatten.mp htoken
      rw [← htokens] at hpart
      obtain ⟨index, hindex, rfl⟩ := List.mem_mapIdx.mp hpart
      rcases List.mem_append.mp htoken with h | h <;> split at h
      · rw [List.mem_singleton.mp h, reads_backslash.treesOf_eq]
        exact reads_backslash
      · cases h
      · cases h
      · rw [List.mem_singleton.mp h]
        exact (term_escapeSqlText _).reads
    have hseparates : Separates (sql " || " : Text W) [.leaf (.symbol '|'), .leaf (.symbol '|')] :=
      .of_literal (by decide) (by decide) (by decide)
    exact (term_group (Reads.joined hseparates hreads)).congr hsame

/-! ## Columns -/

/-- Two terms with a symbol, or several of them, in between. -/
theorem Term.symbol {a b : Text W} (ha : Term a) (separator : String) (chars : List Char)
    (hs : Separates (sql separator : Text W) (chars.map fun c => .leaf (.symbol c))) (hb : Term b) :
    Term (a ++ sql separator ++ b) := by
  refine ha.separated hs (fun tree ht => ?_) hb
  obtain ⟨c, -, rfl⟩ := List.mem_map.mp ht
  rfl

theorem term_mergeSqlPath {column : String} {path : Option (Text W)} {key : Text W}
    (hpath : ∀ text ∈ path, Term text) (hkey : Term key) : Term (mergeSqlPath column path key) := by
  cases path with
  | none => exact term_escapeSqlName column
  | some path =>
    have hopen : Separates (sql "[" : Text W) [.leaf (.symbol '[')] :=
      .of_literal (by decide) (by decide) (by decide)
    have hclose : Reads (sql "]" : Text W) [.leaf (.symbol ']')] := by
      rw [Reads, chars_sql]
      exact Closed.lexes (by decide)
    refine ((hpath path rfl).symbol "[" ['['] hopen hkey).append hclose ?_ (by decide)
    rw [chars_sql]
    decide

theorem term_mergeSqlJsonPath {column : String} {path : Option (Text W)} {key : Text W}
    (hpath : ∀ text ∈ path, Term text) (hkey : Term key) (text : Bool) :
    Term (mergeSqlJsonPath column path text key) := by
  cases path with
  | none => exact term_escapeSqlName column
  | some path =>
    cases text with
    | true =>
      exact (hpath path rfl).symbol "->>" ['-', '>', '>']
        (.of_literal (by decide) (by decide) (by decide)) hkey
    | false =>
      exact (hpath path rfl).symbol "->" ['-', '>']
        (.of_literal (by decide) (by decide) (by decide)) hkey

theorem term_mergeSqlAlias {column : Text W} (h : Term column) (alias? : Option String) :
    Term (mergeSqlAlias column alias?) := by
  unfold mergeSqlAlias
  split
  · split
    · exact h
    · exact (term_escapeSqlName _).symbol "." ['.']
        (.of_literal (by decide) (by decide) (by decide)) h
  · exact h

theorem term_columnOf (context : SqlOperationContext Q W) (schema : Option Schema.AnySchema)
    (field : String) (hpath : ∀ text ∈ context.path, Term text) :
    Term (columnOf context schema field).path := by
  have hname : Term (columnOf context schema field).name := by
    simp only [columnOf]
    split
    · exact term_mergeSqlJsonPath hpath (term_escapeSqlKey field) true
    · exact term_mergeSqlPath hpath (term_escapeSqlKey field)
  simp only [columnOf] at hname ⊢
  split
  · exact hname
  · exact term_mergeSqlAlias hname context.alias?

/-! ## Operands -/

theorem plain_of_made {ok : Char → Prop} (hok : ∀ c, ok c → c.toUpper ∉ ['O', 'D', 'B'])
    {lexeme : Lexeme} (h : lexeme.MadeOf ok) :
    isPlain (.leaf lexeme) = true ∧ isKeyword "NOT" (.leaf lexeme) = false := by
  have hkey : ∀ keyword : String, (∃ c ∈ keyword.toList, c ∈ ['O', 'D', 'B']) →
      isKeyword keyword (.leaf lexeme) = false := by
    intro keyword ⟨c, hc, hin⟩
    cases lexeme with
    | word chars =>
      rw [isKeyword, beq_eq_false_iff_ne]
      intro heq
      rw [← heq] at hc
      obtain ⟨d, hd, rfl⟩ := List.mem_map.mp hc
      exact hok d (h d hd) hin
    | _ => rfl
  refine ⟨?_, hkey "NOT" ⟨'O', by decide, by decide⟩⟩
  rw [isPlain, hkey "OR" ⟨'O', by decide, by decide⟩,
    hkey "AND" ⟨'D', by decide, by decide⟩, hkey "BETWEEN" ⟨'B', by decide, by decide⟩]
  rfl

/-- A text of digits and such. -/
theorem term_made {ok : Char → Prop}
    (hok : ∀ c, ok c → (c ≠ '(' ∧ c ≠ ')' ∧ c.isWhitespace = false ∧ isQuote c = false) ∧
      c.toUpper ∉ ['O', 'D', 'B'])
    {a : Text W} (h : ∀ c ∈ a.chars, ok c) (hne : a.chars ≠ []) : Term a := by
  obtain ⟨lexemes, hlexes, hmade, hlexemes⟩ := Lexes.made (fun c hc => (hok c hc).1) h hne
  have hflatten : ∀ l : List Lexeme, flattenAll (l.map .leaf) = l.map .lexeme := by
    intro l
    induction l with
    | nil => rfl
    | cons lexeme l ih => simp [flattenAll, Tree.flatten, ih]
  have hreads : Reads a (lexemes.map .leaf) := by
    rw [Reads, hflatten]
    exact hlexes
  have hplain := fun lexeme hl => plain_of_made (fun c hc => (hok c hc).2) (hmade lexeme hl)
  refine Term.of_reads hreads (by simpa using hlexemes) ?_ ?_
  · intro tree ht
    obtain ⟨lexeme, hl, rfl⟩ := List.mem_map.mp ht
    exact (hplain lexeme hl).1
  · intro tree ht
    obtain ⟨lexeme, hl, rfl⟩ := List.mem_map.mp (List.mem_of_mem_head? ht)
    exact (hplain lexeme hl).2

theorem mem_digits {c : Char} (h : c.isDigit = true) :
    c ∈ ['0', '1', '2', '3', '4', '5', '6', '7', '8', '9'] := by
  obtain ⟨hlow, hhigh⟩ : 48 ≤ c.toNat ∧ c.toNat ≤ 57 := by
    simp only [Char.isDigit, Bool.and_eq_true, decide_eq_true_eq] at h
    exact h
  have hc : c = Char.ofNat c.toNat := (Char.ofNat_toNat c).symm
  generalize c.toNat = n at hlow hhigh hc
  subst hc
  interval_cases n <;> decide

/-- The characters of numbers and placeholders. -/
def IsNumberChar (c : Char) : Prop :=
  c = ':' ∨ (c.isDigit || ['-', '+', '.', 'e', 'N', 'a', 'I', 'n', 'f', 'i', 't', 'y'].contains c) = true

theorem isNumberChar_spec (c : Char) (h : IsNumberChar c) :
    (c ≠ '(' ∧ c ≠ ')' ∧ c.isWhitespace = false ∧ isQuote c = false) ∧
      c.toUpper ∉ ['O', 'D', 'B'] := by
  have hmem : c ∈ [':', '0', '1', '2', '3', '4', '5', '6', '7', '8', '9', '-', '+', '.', 'e', 'N',
      'a', 'I', 'n', 'f', 'i', 't', 'y'] := by
    rcases h with rfl | h
    · decide
    · rcases Bool.or_eq_true_iff.mp h with h | h
      · have := mem_digits h
        simp only [List.mem_cons, List.not_mem_nil, or_false] at this ⊢
        tauto
      · have := List.contains_iff_mem.mp h
        simp only [List.mem_cons, List.not_mem_nil, or_false] at this ⊢
        tauto
  have hall : [':', '0', '1', '2', '3', '4', '5', '6', '7', '8', '9', '-', '+', '.', 'e', 'N', 'a',
      'I', 'n', 'f', 'i', 't', 'y'].all (fun c => decide ((c ≠ '(' ∧ c ≠ ')' ∧
        c.isWhitespace = false ∧ isQuote c = false) ∧ c.toUpper ∉ ['O', 'D', 'B'])) = true := rfl
  exact of_decide_eq_true (List.all_eq_true.mp hall c hmem)

theorem term_number (value : NumberText) : Term (sql value.text : Text W) := by
  refine term_made isNumberChar_spec (fun c hc => .inr (value.chars c ?_)) ?_
  · rwa [chars_sql] at hc
  · rw [chars_sql]
    exact fun h => value.nonempty (String.toList_eq_nil_iff.mp h)

theorem term_placeholder (index : Nat) (value : W) : Term [.placeholder index value] := by
  have hchars : Text.chars [Piece.placeholder index value] = ':' :: Nat.toDigits 10 index := by
    simp [Text.chars, Piece.render, String.toList_append, toString]
  refine term_made isNumberChar_spec ?_ (by simp [hchars])
  rw [hchars]
  intro c hc
  rcases List.mem_cons.mp hc with rfl | hc
  · exact .inl rfl
  · exact .inr (by simp [Nat.isDigit_of_mem_toDigits (by decide) (by decide) hc])

/-- SQL written by the caller. -/
def SqlOperand.isRaw : SqlOperand Q → Bool
  | raw _ => true
  | reference source => match source.column with
    | .generated _ => true
    | .name _ => false
  | _ => false

theorem term_word {a : Text W} (word : String) (h : a.chars = word.toList)
    (hscan : scan .start word.toList = ([], .word word.toList))
    (hplain : isPlain (.leaf (.word word.toList)) = true)
    (hnot : isKeyword "NOT" (.leaf (.word word.toList)) = false) : Term a :=
  Term.leaf (.word word.toList) (by rw [h]; exact Lexes.of_scan hscan) hplain hnot

theorem term_reference {reference : ColumnReference}
    (h : (SqlOperand.reference reference : SqlOperand Q).isRaw = false) :
    Term (reference.build : Text W) := by
  obtain ⟨sourceAlias, column, alias?⟩ := reference
  cases column with
  | generated text => simp [SqlOperand.isRaw] at h
  | name column =>
    have hcolumn := term_mergeSqlAlias (term_escapeSqlName column : Term (_ : Text W)) sourceAlias
    simp only [ColumnReference.build]
    split
    · split
      · exact hcolumn
      · have has : Separates (sql " AS " : Text W) [.leaf (.word "AS".toList)] :=
          .of_literal (by decide) (by decide) (by decide)
        exact hcolumn.separated has (by decide) (term_escapeSqlName _)
    · exact hcolumn

theorem yields_escapeSqlData (runtime : Runtime Q W) (data : SqlOperand Q) :
    Yields (escapeSqlData runtime data) Term := by
  cases data with
  | number value => exact .pure (term_number value)
  | boolean value =>
    refine .pure ?_
    cases value with
    | true => exact term_word "true" (by simp) (by decide) (by decide) (by decide)
    | false => exact term_word "false" (by simp) (by decide) (by decide) (by decide)
  | undefined => exact .throw _
  | _ => exact .pure (term_escapeSqlText _)

section
variable {context : SqlOperationContext Q W} {schema : Option Schema.AnySchema}

theorem yields_getOperandValue {operand : SqlOperand Q} (h : operand.isRaw = false) (encode : Bool) :
    Yields (getOperandValue context schema operand encode) Term := by
  unfold getOperandValue
  split
  · cases h
  · exact .pure (term_reference h)
  · split
    · exact yields_escapeSqlData _ _
    · refine .after fun index => .after fun _ => .pure (term_placeholder _ _)

theorem yields_getOperandPattern {operand : SqlOperand Q} (h : operand.isRaw = false) :
    Yields (getOperandPattern context schema operand) Term := by
  unfold getOperandPattern
  split
  · exact yields_getOperandValue rfl false
  · exact yields_getOperandValue h false

theorem yields_getOperandArray (operands : List (SqlOperand Q)) :
    Yields (getOperandArray context schema operands) fun text? => ∀ text ∈ text?, Term text := by
  unfold getOperandArray
  split
  · split
    · exact .pure (by simp)
    · refine .after fun scope => ?_
      dsimp only
      split
      · exact .pure (by simp)
      · refine .after fun _ => .after fun _ => .pure ?_
        simpa using term_placeholder _ _
  · exact .pure (by simp)

theorem castOf_mem {schema : Schema.AnySchema} {type : String} (h : castOf schema = some type) :
    type ∈ ["bool", "int", "dec", "timestamptz", "date", "time"] := by
  cases schema with
  | boolean _ => cases h; simp
  | number schema =>
    simp only [castOf, Option.some.injEq] at h
    split at h <;> subst h <;> simp
  | string schema =>
    simp only [castOf] at h
    split at h
    · cases h; simp
    · split at h
      · cases h; simp
      · split at h
        · cases h; simp
        · cases h
  | _ => cases h

theorem term_cast {column : Text W} (h : Term column) {type : String}
    (htype : type ∈ ["bool", "int", "dec", "timestamptz", "date", "time"]) :
    Term (sql "(" ++ column ++ sql ")::" ++ sql type) := by
  have hcast : ∀ type ∈ ["bool", "int", "dec", "timestamptz", "date", "time"],
      scan .start (")::".toList ++ type.toList) =
          ([.right, .lexeme (.symbol ':'), .lexeme (.symbol ':')], .word type.toList) ∧
        Boundary (")::".toList ++ type.toList) ∧ isPlain (.leaf (.word type.toList)) = true := by
    decide
  obtain ⟨hscan, hboundary, hplain⟩ := hcast type htype
  have hreads := @Reads.wrapped _ column _ []
    [.leaf (.symbol ':'), .leaf (.symbol ':'), .leaf (.word type.toList)] (sql "(")
    (sql ")::" ++ sql type) (by rw [chars_sql]; decide) h.reads
    (by rw [chars_append, chars_sql, chars_sql]; exact Lexes.of_scan hscan)
    (by rw [chars_append, chars_sql, chars_sql]; exact hboundary)
  rw [List.append_assoc]
  refine Term.of_reads hreads (by simp) ?_ (by simp [isKeyword])
  simpa [isPlain, isKeyword] using hplain

theorem term_getOperandColumn {column : Text W} (h : Term column) :
    Term (getOperandColumn context schema column) := by
  unfold getOperandColumn
  split
  · exact h
  · split
    · rename_i type htype
      obtain ⟨schema, -, hcast⟩ := Option.bind_eq_some_iff.mp htype
      exact term_cast h (castOf_mem hcast)
    · exact h

theorem term_wrapped {a : Text W} (h : Term a) (opening word : String) (hplain : isPlain (.leaf (.word word.toList)) = true)
    (hnot : isKeyword "NOT" (.leaf (.word word.toList)) = false)
    (hopening : Closed opening.toList [.lexeme (.word word.toList), .left]) :
    Term (sql opening ++ a ++ sql ")") := by
  have hreads : Reads (sql opening ++ a ++ sql ")") ([.leaf (.word word.toList)] ++ [.group (treesOf a)]) := by
    refine Reads.wrapped [.leaf (.word word.toList)] [] ?_ h.reads ?_ ?_ <;> rw [chars_sql]
    · exact hopening
    · exact Closed.lexes (by decide)
    · decide
  refine Term.of_reads hreads (by simp) ?_ (by simpa using hnot)
  simp [isKeyword, isPlain] at hplain ⊢
  exact hplain

theorem term_flagged {column : Text W} (h : Term column) : Term (flagged context column) := by
  unfold flagged
  split
  · unfold getOperandFunction
    split
    · exact term_wrapped h "COUNT(" "COUNT" (by decide) (by decide) (by decide)
    · split
      · exact term_wrapped h "LOWER(" "LOWER" (by decide) (by decide) (by decide)
      · exact h
  · exact h

end

end Ez4.PgSql
