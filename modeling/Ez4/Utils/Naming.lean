import Mathlib.Data.List.Basic

/-! # Naming styles

The letter cases of the string utilities. -/

namespace Ez4.Utils

/-- The variables of the loop over the characters of a name. -/
structure NormalizeState where
  output : List (List Char) := []
  pieces : List Char := []
  split : Bool := false
  uppercase : Nat := 0

/-- The body of the loop, with the characters that follow. The end of the text
counts as a lower-case letter: there the code tests the text `undefined`. -/
def NormalizeState.step (st : NormalizeState) (character : Char) (rest : List Char) :
    NormalizeState :=
  let hasPieces := !st.pieces.isEmpty
  let flushed := { st with output := st.output ++ [st.pieces], pieces := [] }
  if character.isLower || character.isDigit then
    let st := if st.split then flushed else st
    { st with pieces := st.pieces ++ [character], split := false, uppercase := 0 }
  else if character == '-' || character == '_' || character == ' ' then
    { st with split := hasPieces && !rest.isEmpty, uppercase := 0 }
  else if character.isUpper then
    let nextIsLower := match rest with
      | [] => true
      | next :: _ => next.isLower
    let st :=
      if hasPieces && (st.uppercase == 0 || (1 < st.uppercase && nextIsLower)) then flushed else st
    { st with pieces := st.pieces ++ [character], split := false, uppercase := st.uppercase + 1 }
  else st

def NormalizeState.loop (st : NormalizeState) : List Char → NormalizeState
  | [] => st
  | character :: rest => (st.step character rest).loop rest

/-- The words of a name: its letters and digits, cut at separators and at
changes of case. -/
def normalize (text : String) : List (List Char) :=
  let st := NormalizeState.loop {} text.toList
  if st.pieces.isEmpty then st.output else st.output ++ [st.pieces]

/-- `toSnakeCase` -/
def toSnakeCase (text : String) : String :=
  String.ofList (['_'].intercalate ((normalize text).map (·.map Char.toLower)))

/-- `toKebabCase` -/
def toKebabCase (text : String) : String :=
  String.ofList (['-'].intercalate ((normalize text).map (·.map Char.toLower)))

/-- `capitalizeString` -/
def capitalizeString : List Char → List Char
  | [] => []
  | first :: rest => first.toUpper :: rest.map Char.toLower

/-- `toCamelCase` -/
def toCamelCase (text : String) : String :=
  match normalize text with
  | [] => ""
  | first :: rest =>
    String.ofList (first.map Char.toLower ++ (rest.map capitalizeString).flatten)

/-- `toPascalCase` -/
def toPascalCase (text : String) : String :=
  String.ofList ((normalize text).map capitalizeString).flatten

/-- `toSnakeCase(text).split('_')`: no word has an underscore, and a name
without words has the empty one. -/
def snakeWords (text : String) : List (List Char) :=
  match normalize text with
  | [] => [[]]
  | words => words.map (·.map Char.toLower)

example : toSnakeCase "userAccounts:HTTPServer" = "user_accounts_http_server" := by decide

example : toCamelCase "user_accounts-HTTPServer" = "userAccountsHttpServer" := by decide

end Ez4.Utils
