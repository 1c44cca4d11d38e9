import Mathlib.Data.List.Basic

/-! # Array values of a result

`parseArrayValue` and its `ARRAY_ELEMENT_PATTERN` (`driver/utils/results.ts`),
beside what Postgres writes for an array. The nested arrays are objects that the
code fills in place: here an open array is kept apart from its parents until it
is closed. -/
namespace Ez4.PgClient.ArrayValue

/-- An element of an array: `null`, a value or an array. -/
inductive Element (α : Type)
  | null
  | value (value : α)
  | array (elements : List (Element α))
deriving Repr

/-! ## The pattern -/

/-- What `.` does not match. -/
def isLineTerminator (c : Char) : Bool := c ∈ ['\n', '\r', '\u2028', '\u2029']

/-- `[^,{}"]` -/
def isUnquoted (c : Char) : Bool := c ∉ [',', '{', '}', '"']

/-- `((?:[^"\\]|\\.)*)"`: the group, and the text after the quote. No character of the group can
be the quote that ends it. -/
def readQuoted : List Char → Option (List Char × List Char)
  | [] => none
  | '"' :: rest => some ([], rest)
  | '\\' :: c :: rest =>
    if isLineTerminator c then none
    else (readQuoted rest).map fun (quoted, rest) => ('\\' :: c :: quoted, rest)
  | c :: rest =>
    if c = '\\' then none else (readQuoted rest).map fun (quoted, rest) => (c :: quoted, rest)

inductive Match
  | quoted (quoted : List Char)
  | unquoted (unquoted : List Char)
  | brace (brace : Char)
deriving DecidableEq, Repr

/-- `matchAll`, on so many characters at most. Where no alternative matches, it goes on at the
next character. -/
def matchElements : Nat → List Char → List Match
  | 0, _ | _, [] => []
  | times + 1, c :: rest =>
    if c = '"' then
      match readQuoted rest with
      | some (quoted, rest) => .quoted quoted :: matchElements times rest
      | none => matchElements times rest
    else if c = '{' ∨ c = '}' then .brace c :: matchElements times rest
    else if c = ',' then matchElements times rest
    else .unquoted (c :: rest.takeWhile isUnquoted) ::
      matchElements times (rest.dropWhile isUnquoted)

def matchAll (text : List Char) : List Match := matchElements text.length text

/-- `quoted.replaceAll(/\\(.)/g, '$1')` -/
def unescape : List Char → List Char
  | '\\' :: c :: rest => if isLineTerminator c then '\\' :: unescape (c :: rest) else c :: unescape rest
  | c :: rest => c :: unescape rest
  | [] => []

/-! ## Parsing -/

/-- The array that is filled, and those around it from the inside out. -/
structure Parsing (β : Type) where
  current : List (Element β) := []
  parents : List (List (Element β)) := []

namespace Parsing

variable {β : Type} (parseElement : String → β) (p : Parsing β)

def push (element : Element β) : Parsing β := { p with current := p.current ++ [element] }

/-- Once there is no parent left, the array that is filled is the root. -/
def close : Parsing β :=
  match p.parents with
  | parent :: parents => { current := parent ++ [.array p.current], parents }
  | [] => p

/-- A turn of the loop of `parseArrayValue`. -/
def take : Match → Parsing β
  | .brace brace =>
    if brace = '{' then { current := [], parents := p.current :: p.parents } else p.close
  | .quoted quoted => p.push (.value (parseElement (String.ofList (unescape quoted))))
  | .unquoted unquoted =>
    p.push (if unquoted = "NULL".toList then .null else .value (parseElement (String.ofList unquoted)))

/-- The root, where an array that was not closed is in its parent all the same. -/
def root : List (Element β) :=
  p.parents.foldl (fun inner parent => parent ++ [.array inner]) p.current

end Parsing

/-- `value.substring(value.indexOf('{'))` -/
def fromBrace (value : List Char) : List Char :=
  if '{' ∈ value then value.dropWhile (· ≠ '{') else value

def parseArrayValue {β : Type} (value : String) (parseElement : String → β) : Option (Element β) :=
  ((matchAll (fromBrace value.toList)).foldl (Parsing.take parseElement) {}).root.head?

/-! ## Writing -/

/-- What Postgres takes for white space. -/
def isSpace (c : Char) : Bool := c ∈ [' ', '\t', '\n', '\r', '\x0b', '\x0c']

def needsQuotes (text : List Char) : Bool :=
  text.isEmpty || decide (text.map Char.toLower = "null".toList) ||
    text.any fun c => decide (c ∈ ['{', '}', '"', '\\', ',']) || isSpace c

def escape (c : Char) : List Char := if c = '"' ∨ c = '\\' then ['\\', c] else [c]

def writeText (text : List Char) : List Char :=
  if needsQuotes text then '"' :: text.flatMap escape ++ ['"'] else text

mutual

def writeElement : Element String → List Char
  | .null => "NULL".toList
  | .value text => writeText text.toList
  | .array elements => '{' :: writeElements elements ++ ['}']

/-- Elements with commas between them. -/
def writeElements : List (Element String) → List Char
  | [] => []
  | element :: rest =>
    writeElement element ++ if rest.isEmpty then [] else ',' :: writeElements rest

end

/-- The bounds of each dimension, such as `[0:1]=`, where they are not the usual ones. -/
def writeBounds (bounds : List (Int × Int)) : List Char :=
  if bounds.isEmpty then []
  else
    bounds.flatMap (fun (lower, upper) =>
      '[' :: (toString lower).toList ++ ':' :: (toString upper).toList ++ [']']) ++ ['=']

/-- An array as Postgres writes it. -/
def writeArray (bounds : List (Int × Int)) (elements : List (Element String)) : String :=
  String.ofList (writeBounds bounds ++ writeElement (.array elements))

mutual

/-- The same element with a function applied to its values. -/
def mapElement {α β : Type} (f : α → β) : Element α → Element β
  | .null => .null
  | .value value => .value (f value)
  | .array elements => .array (mapElements f elements)

def mapElements {α β : Type} (f : α → β) : List (Element α) → List (Element β)
  | [] => []
  | element :: rest => mapElement f element :: mapElements f rest

end

example : (parseArrayValue "[0:1]={1,NULL}" String.length).isSome = true := by decide +kernel

end Ez4.PgClient.ArrayValue
