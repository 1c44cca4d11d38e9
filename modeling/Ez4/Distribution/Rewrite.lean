import Ez4.Library.Regex

/-! # Rewrite rules of a distribution

`compileRewritePattern`, and what the deployed viewer function and the local
distribution fill into a target. Texts are lists of UTF-16 units. -/
namespace Ez4.Distribution
open Ez4.Library Regexp

def ascii (text : String) : Text := text.toList.map Char.toNat

def backslash : Nat := '\\'.toNat

def slash : Nat := '/'.toNat

/-! ## Patterns -/

def escapedUnits : Text := ascii ".*+?^${}()|[]\\"

/-- `ESCAPED_PATTERN`, replaced by `\$&`. -/
def findEscaped : Text → Option (Nat × Text)
  | u :: _ => if escapedUnits.contains u then some (1, [backslash, u]) else none
  | [] => none

/-- `CAPTURE_PATTERN` -/
def findCapture : Text → Option (Nat × Text)
  | u :: v :: _ => if u = backslash ∧ v = '*'.toNat then some (2, ascii "(.+)") else none
  | _ => none

/-- The pieces between the separators `\|`, of which the second unit is skipped. -/
def splitBarsFrom : Bool → Text → List Text
  | _, [] => [[]]
  | true, _ :: rest => splitBarsFrom false rest
  | false, u :: rest =>
    if u = backslash ∧ rest.head? = some '|'.toNat then [] :: splitBarsFrom true rest
    else (splitBarsFrom false rest).modifyHead (u :: ·)

/-- `group.split('\\|')` -/
def splitBars (group : Text) : List Text := splitBarsFrom false group

/-- `OPTIONS_PATTERN`: what stands between the braces is all that has no closing one. -/
def findOptions : Text → Option (Nat × Text)
  | u :: v :: rest =>
    if u = backslash ∧ v = '{'.toNat then
      let run := rest.takeWhile (· ≠ '}'.toNat)
      if rest.dropWhile (· ≠ '}'.toNat) ≠ [] ∧ run.getLast? = some backslash ∧ 2 ≤ run.length then
        let options := (splitBars run.dropLast).filter (· ≠ [])
        some (run.length + 3, ascii "(?:" ++ (ascii "|").intercalate options ++ ascii ")")
      else none
    else none
  | _ => none

def compileSegment (pathPattern : Text) (finalize : Bool) : Text :=
  let negation := pathPattern.head? = some '!'.toNat
  let body := if negation then pathPattern.drop 1 else pathPattern
  let pathRegex := replaceAll findOptions (replaceAll findCapture (replaceAll findEscaped body))
  if negation then
    let extraction := if finalize then ascii "." else ascii "[^/]"
    let completion := if finalize then ascii "$" else ascii "/"
    ascii "(?!" ++ pathRegex ++ completion ++ ascii ")(" ++ extraction ++ ascii "+)"
  else pathRegex

def compileRewritePattern (pattern : Text) : Text :=
  let parts := pattern.splitOn slash
  let regex := parts.mapIdx fun pathIndex pathPattern =>
    compileSegment pathPattern (parts.length == pathIndex + 1)
  ascii "^" ++ (ascii "/").intercalate regex ++ ascii "$"

/-- `new RegExp(pattern).exec(path)` for a compiled pattern. -/
def execPattern (pattern path : Text) : Option Captures :=
  (ofText (compileRewritePattern pattern)).bind (exec · path)

/-! ## Targets -/

/-- `Number(index)` for the digits of a reference. -/
def numberOf (digits : Text) : Nat := digits.foldl (fun n u => 10 * n + (u - '0'.toNat)) 0

/-- `/\$([0-1]+)/g`, replaced by a text for the number. -/
def findReference (value : Nat → Text) : Text → Option (Nat × Text)
  | u :: rest =>
    let digits := rest.takeWhile fun v => v = '0'.toNat ∨ v = '1'.toNat
    if u = '$'.toNat ∧ digits ≠ [] then some (digits.length + 1, value (numberOf digits)) else none
  | [] => none

def fillIn (value : Nat → Text) (target : Text) : Text := replaceAll (findReference value) target

/-- What a variable is as a text. -/
def toText (value? : Option Text) : Text := value?.getD (ascii "undefined")

/-- The deployed viewer function, where `replaceAll` takes the text of what its callback returns. -/
def Cloudfront.applyTargetVariables (target : Text) (matched : Captures) : Text :=
  fillIn (fun index => toText (matched index)) target

/-- The local distribution, where the callback makes a text of it. -/
def Local.applyTargetVariables (target : Text) (matched : Captures) : Text :=
  fillIn (fun index => toText (matched index)) target

end Ez4.Distribution
