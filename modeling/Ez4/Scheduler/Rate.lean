import Ez4.Library.Binary64
import Ez4.Library.Machine

/-! # Schedules with a rate

`parseRateExpression`, `getNextRateTime` and `getBoundedDate`
(`utils/expression.ts`), the units of `utils/time.ts` and the timer that
`scheduleTimerEvent` (`handlers/timer.ts`) sets for each run. Numbers are those
of 64 bits, dates are milliseconds. What `new Date` makes of a text is a
parameter. -/
namespace Ez4.Scheduler.Rate
open Ez4.Library

/-! ## Dates -/

/-- The last millisecond that is a date. -/
def maxTime : Int := 8640000000000000

/-- A valid date. -/
abbrev Time := { time : Int // |time| ≤ maxTime }

/-- `getTime` -/
def getTime (date : Time) : Binary64 := .finite date.1

inductive JsDate
  | invalid
  | valid (time : Time)
deriving DecidableEq

/-- `new Date`, of a number -/
def newDate : Binary64 → JsDate
  | .finite value =>
    -- the fraction of a millisecond is cut off
    let time := Int.tdiv value.num value.den
    if h : |time| ≤ maxTime then .valid ⟨time, h⟩ else .invalid
  | _ => .invalid

def getBoundedDate (time : Binary64) (endTime : Option Time) : Option JsDate :=
  match endTime with
  | none => some (newDate time)
  | some last => if time.le (getTime last) then some (newDate time) else none

structure ExpressionOptions where
  startDate : Option String := none
  endDate : Option String := none

/-- `dateTime` is the time of the date that a text denotes, if it is valid. -/
def getOptionalTime (dateTime : String → Option Time) : Option String → Except String (Option Time)
  | none | some "" => .ok none
  | some date =>
    match dateTime date with
    | none => .error s!"Date '{date}' isn't valid."
    | some time => .ok (some time)

/-! ## The expression -/

def oneSecond : Nat := 1000

def oneMinute : Nat := 60 * oneSecond

def oneHour : Nat := 60 * oneMinute

def oneDay : Nat := 24 * oneHour

def timeUnits : List (String × Nat) :=
  [("second", oneSecond), ("seconds", oneSecond), ("minute", oneMinute), ("minutes", oneMinute),
    ("hour", oneHour), ("hours", oneHour), ("day", oneDay), ("days", oneDay)]

/-- `\s` -/
def isSpace (c : Char) : Bool :=
  c ∈ [' ', '\t', '\n', '\r', '\x0b', '\x0c', '\u00a0', '\u1680', '\u2028', '\u2029', '\u202f',
    '\u205f', '\u3000', '\ufeff'] || ('\u2000' ≤ c && c ≤ '\u200a')

/-- Letters in lower case. -/
def lower (text : List Char) : String := String.ofList (text.map Char.toLower)

/-- The units of the regular expression, which ignores case. -/
def rateUnits : List String := ["minute", "minutes", "hour", "hours", "day", "days"]

/-- The two groups of the regular expression. No part can match what the next
part starts with, so each one takes all it can. -/
def matchRate (input : String) : Option (List Char × List Char) :=
  let text := input.toList
  let rest := (text.drop 5).dropWhile isSpace
  let digits := rest.takeWhile Char.isDigit
  let rest := rest.dropWhile Char.isDigit
  let spaces := rest.takeWhile isSpace
  let rest := rest.dropWhile isSpace
  let unit := rest.takeWhile Char.isAlpha
  let rest := (rest.dropWhile Char.isAlpha).dropWhile isSpace
  if lower (text.take 5) = "rate(" ∧ digits ≠ [] ∧ spaces ≠ [] ∧ lower unit ∈ rateUnits ∧
      rest = [')'] then
    some (digits, unit)
  else none

/-- The number that digits denote. -/
def parseDigits (digits : List Char) : Nat :=
  digits.foldl (fun number digit => 10 * number + (digit.toNat - '0'.toNat)) 0

/-- `parseInt`, of digits -/
def parseInt (digits : List Char) : Binary64 := .ofRat (parseDigits digits)

/-- `time * TimeUnits[unit]`. An undefined factor is no number. -/
def getInterval (time : Binary64) (unit : List Char) : Binary64 :=
  match timeUnits.lookup (String.ofList unit) with
  | some milliseconds => time.mul (.finite milliseconds)
  | none => .nan

def getNextRateTime (interval : Binary64) (currentTime : Time) (startTime : Option Time) :
    Binary64 :=
  match startTime with
  | none => (getTime currentTime).add interval
  | some start =>
    if currentTime.1 < start.1 then getTime start
    else
      let count := (((getTime currentTime).sub (getTime start)).div interval).floor
      (getTime start).add ((count.add (.finite 1)).mul interval)

/-- An expression of the type `rate`. -/
structure ExpressionResult where
  /-- The number and the unit of the text. -/
  value : Binary64 × List Char
  getNextDate : Time → Option JsDate

def parseRateExpression (dateTime : String → Option Time) (input : String)
    (options : ExpressionOptions) : Except String (Option ExpressionResult) :=
  match matchRate input with
  | none => .ok none
  | some (digits, unit) => do
    let time := parseInt digits
    let interval := getInterval time unit
    let startTime ← getOptionalTime dateTime options.startDate
    let endTime ← getOptionalTime dateTime options.endDate
    return some {
      value := (time, unit)
      getNextDate := fun currentDate =>
        getBoundedDate (getNextRateTime interval currentDate startTime) endTime }

/-! ## The timer -/

inductive Stage
  /-- The schedule is not started. -/
  | idle
  /-- A timer is set for the date. -/
  | waiting (nextDate : JsDate)
  /-- There are no upcoming runs. -/
  | ended
  /-- The timer threw, its date has no text. -/
  | crashed
deriving DecidableEq

structure TimerState where
  stage : Stage := .idle
  /-- The valid dates for which a timer was set, the last one first, each with
  the time when it was set. The code keeps no such list: it is for statements only. -/
  runs : List (Time × Time) := []

/-- `scheduleTimerEvent`, with a current date and the time of the clock. -/
def scheduleTimerEvent (schedule : ExpressionResult) (s : TimerState) (currentDate now : Time) :
    TimerState :=
  match schedule.getNextDate currentDate with
  | none => { s with stage := .ended }
  | some .invalid => { s with stage := .waiting .invalid }
  | some (.valid date) => { stage := .waiting (.valid date), runs := (now, date) :: s.runs }

/-- The current date of the next run, where there is one. -/
def nextCurrent (s : TimerState) (now : Time) : Option Time :=
  match s.stage with
  | .idle => some now
  | .waiting (.valid nextDate) => some (max nextDate now)
  | _ => none

/-- The schedule is started, or its timer fires, when the clock shows `now`.
Nothing is assumed of the clock. -/
def step (schedule : ExpressionResult) (s : TimerState) (now : Time) : Option TimerState :=
  match s.stage, nextCurrent s now with
  | _, some current => some (scheduleTimerEvent schedule s current now)
  -- `toISOString` throws
  | .waiting .invalid, none => some { s with stage := .crashed }
  | _, none => none

def timer (schedule : ExpressionResult) : Machine TimerState Time where
  init := {}
  step := step schedule

end Ez4.Scheduler.Rate
