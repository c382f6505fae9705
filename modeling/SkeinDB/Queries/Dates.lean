import SkeinDB.Calendar.Gregorian
import SkeinDB.Codec.Checked
import SkeinDB.Sessions.BinaryRows

/-!
# Dates and times

`skeindb/src/engine.rs`: dates and times are parsed from the text of a literal, turned into days and
seconds, and formatted again. The operators of machine integers are checked, as in a build with
overflow checks: where one leaves the range of its type, such a build panics and the others go on
with the wrapped number.
-/
namespace SkeinDB.Queries
open SkeinDB.Calendar SkeinDB.Codec SkeinDB.Sessions SkeinDB.Tables SkeinDB.Text

section Integers

def FitsI32 (v : ℤ) : Prop := -2 ^ 31 ≤ v ∧ v < 2 ^ 31

def FitsI64 (v : ℤ) : Prop := -2 ^ 63 ≤ v ∧ v < 2 ^ 63

instance (v : ℤ) : Decidable (FitsI32 v) := inferInstanceAs (Decidable (_ ∧ _))

instance (v : ℤ) : Decidable (FitsI64 v) := inferInstanceAs (Decidable (_ ∧ _))

/-- The result of an operator on `i32`. -/
def i32 (v : ℤ) : Except Fault ℤ := if FitsI32 v then .ok v else .error .arithmeticOverflow

/-- The result of an operator on `i64`. -/
def i64 (v : ℤ) : Except Fault ℤ := if FitsI64 v then .ok v else .error .arithmeticOverflow

/-- `as i32` -/
def asI32 (v : ℤ) : ℤ := (v + 2 ^ 31) % 2 ^ 32 - 2 ^ 31

/-- `as u8` -/
def asU8 (v : ℤ) : ℕ := (v % 256).toNat

/-- `saturating_mul` of `i64`. -/
def saturatingMul (a b : ℤ) : ℤ := max (-2 ^ 63) (min (a * b) (2 ^ 63 - 1))

end Integers

section Parsing

abbrev MySqlDateParts := Date

structure MySqlTimeParts where
  hour : ℕ
  minute : ℕ
  second : ℕ
  deriving DecidableEq, Repr

def mysqlIsLeapYear (year : ℤ) : Bool :=
  (year.tmod 4 == 0 && year.tmod 100 != 0) || year.tmod 400 == 0

def mysqlDaysInMonth (year : ℤ) (month : ℕ) : ℕ :=
  match month with
  | 1 | 3 | 5 | 7 | 8 | 10 | 12 => 31
  | 4 | 6 | 9 | 11 => 30
  | 2 => if mysqlIsLeapYear year then 29 else 28
  | _ => 0

def parseDigits (digits : List Char) : Option ℕ :=
  if digits = [] ∨ ¬ digits.all Char.isDigit then none
  else some (digits.foldl (fun n c => n * 10 + (c.toNat - 48)) 0)

/-- `str::parse::<i32>`. -/
def parseI32 : List Char → Option ℤ
  | '-' :: digits => (parseDigits digits).bind fun n => if n ≤ 2 ^ 31 then some (-n : ℤ) else none
  | '+' :: digits => (parseDigits digits).bind fun n => if n < 2 ^ 31 then some (n : ℤ) else none
  | digits => (parseDigits digits).bind fun n => if n < 2 ^ 31 then some (n : ℤ) else none

/-- `str::parse::<u8>`. -/
def parseU8 : List Char → Option ℕ
  | '+' :: digits => (parseDigits digits).bind fun n => if n < 256 then some n else none
  | digits => (parseDigits digits).bind fun n => if n < 256 then some n else none

/-- `str::split` at a character. -/
def splitAtChar (sep : Char) : List Char → List (List Char)
  | [] => [[]]
  | c :: chars =>
    if c = sep then [] :: splitAtChar sep chars
    else (splitAtChar sep chars).modifyHead (c :: ·)

/-- `str::split_once` at a character. -/
def splitOnceAt (sep : Char) (chars : List Char) : Option (List Char × List Char) :=
  match chars.span (· != sep) with
  | (_, []) => none
  | (before, _ :: after) => some (before, after)

def trimChars (chars : List Char) : List Char := (Values.trim (.ofList chars)).toList

def mysqlParseDateParts (text : List Char) : Option MySqlDateParts :=
  match splitAtChar '-' (trimChars text) with
  | [year, month, day] => do
    let year ← parseI32 year
    let month ← parseU8 month
    let day ← parseU8 day
    if ¬ (1 ≤ month ∧ month ≤ 12) then none
    else if day = 0 ∨ day > mysqlDaysInMonth year month then none
    else some { year, month, day }
  | _ => none

/-- The seconds of a time end before a fraction and before an offset from UTC. -/
def withoutOffset (text : List Char) : Except Fault (List Char) :=
  let trimmed := trimChars text
  let trimmed := if trimmed.getLast? = some 'Z' then trimmed.dropLast else trimmed
  let trimmed := trimmed.takeWhile (· != '.')
  if (utf8 trimmed)[8]? = some 43 ∨ (utf8 trimmed)[8]? = some 45 then
    match takeBytes 8 trimmed with
    | some front => .ok front
    | none => .error .outOfBounds
  else .ok trimmed

def mysqlParseTimeParts (text : List Char) : Except Fault (Option MySqlTimeParts) := do
  let trimmed ← withoutOffset text
  return match splitAtChar ':' trimmed with
    | [hour, minute, second] => do
      let hour ← parseU8 hour
      let minute ← parseU8 minute
      let second ← parseU8 second
      if hour > 23 ∨ minute > 59 ∨ second > 59 then none else some { hour, minute, second }
    | _ => none

variable (fmt : Formats)

def mysqlParseDateTimeLitParts (lit : Lit) :
    Except Fault (Option (Option MySqlDateParts × Option MySqlTimeParts)) :=
  match litToStringForLike fmt lit with
  | none => .ok none
  | some text =>
    let trimmed := trimChars text.toList
    if trimmed = [] then .ok none
    else
      match (splitOnceAt 'T' trimmed).or (splitOnceAt ' ' trimmed) with
      | some (dateText, timeText) =>
        match mysqlParseDateParts (trimChars dateText) with
        | none => .ok none
        | some date => do
          let time ← mysqlParseTimeParts (trimChars timeText)
          return time.map fun time => (some date, some time)
      | none =>
        if '-' ∈ trimmed then
          .ok ((mysqlParseDateParts trimmed).map fun date => (some date, none))
        else if ':' ∈ trimmed then do
          let time ← mysqlParseTimeParts trimmed
          return time.map fun time => (none, some time)
        else .ok none

end Parsing

section Conversion

/-- `if v >= 0 { v } else { v - k }` -/
def downShift (check : ℤ → Except Fault ℤ) (v k : ℤ) : Except Fault ℤ :=
  if 0 ≤ v then .ok v else check (v - k)

def mysqlDaysFromCivil (date : MySqlDateParts) : Except Fault ℤ := do
  let year ← i32 (date.year - if date.month ≤ 2 then 1 else 0)
  let shifted ← downShift i32 year 399
  let era := shifted.tdiv 400
  let cycles ← i32 (era * 400)
  let yearOfEra ← i32 (year - cycles)
  -- no month and no day of a `u8` takes these out of `i32`
  let monthDays := 153 * (date.month + if date.month > 2 then (-3 : ℤ) else 9) + 2
  let dayOfYear := monthDays.tdiv 5 + date.day - 1
  let dayOfEra ← i32
    (yearOfEra * 365 + yearOfEra.tdiv 4 - yearOfEra.tdiv 100 + dayOfYear)
  i64 (era * 146097 + dayOfEra - 719468)

def mysqlCivilFromDays (days : ℤ) : Except Fault MySqlDateParts := do
  let days ← i64 (days + 719468)
  let shifted ← downShift i64 days 146096
  let era := shifted.tdiv 146097
  let dayOfEra := days - era * 146097
  let yearOfEra := (dayOfEra - dayOfEra.tdiv 1460 + dayOfEra.tdiv 36524 -
    dayOfEra.tdiv 146096).tdiv 365
  let cycles ← i32 (asI32 era * 400)
  let year ← i32 (asI32 yearOfEra + cycles)
  let dayOfYear := dayOfEra - (365 * yearOfEra + yearOfEra.tdiv 4 - yearOfEra.tdiv 100)
  let monthPrime := (5 * dayOfYear + 2).tdiv 153
  let day := asU8 (dayOfYear - (153 * monthPrime + 2).tdiv 5 + 1)
  let month := asU8 (monthPrime + if monthPrime < 10 then 3 else -9)
  let year ← i32 (year + if month ≤ 2 then 1 else 0)
  return { year, month, day }

def mysqlDatetimePartsFromUnixSeconds (seconds : ℤ) :
    Except Fault (MySqlDateParts × MySqlTimeParts) := do
  let secondsOfDay := seconds % 86400
  let date ← mysqlCivilFromDays (seconds / 86400)
  return (date,
    { hour := asU8 (secondsOfDay.tdiv 3600)
      minute := asU8 ((secondsOfDay.tmod 3600).tdiv 60)
      second := asU8 (secondsOfDay.tmod 60) })

/-- `{:0width$}` of an integer. -/
def showPadded (width : ℕ) (v : ℤ) : String :=
  let digits := Nat.repr v.natAbs
  let sign := if v < 0 then "-" else ""
  sign ++ .ofList (List.replicate (width - sign.length - digits.length) '0') ++ digits

def mysqlFormatDateParts (date : MySqlDateParts) : String :=
  showPadded 4 date.year ++ "-" ++ showPadded 2 date.month ++ "-" ++ showPadded 2 date.day

def mysqlFormatTimeParts (time : MySqlTimeParts) : String :=
  showPadded 2 time.hour ++ ":" ++ showPadded 2 time.minute ++ ":" ++ showPadded 2 time.second

def mysqlFormatDatetimeParts (date : MySqlDateParts) (time : MySqlTimeParts) : String :=
  mysqlFormatDateParts date ++ " " ++ mysqlFormatTimeParts time

end Conversion

section Interval

/-- The units that an interval is given in. -/
inductive IntervalUnit
  | year
  | quarter
  | month
  | week
  | day
  | hour
  | minute
  | second
  deriving DecidableEq, Repr

def mysqlNormalizeIntervalUnit (unit : String) : String :=
  let normalized := (trimChars unit.toList).map Char.toLower
  .ofList (if "sql_tsi_".toList <+: normalized then normalized.drop 8 else normalized)

def intervalUnit (unit : String) : Option IntervalUnit :=
  match mysqlNormalizeIntervalUnit unit with
  | "year" => some .year
  | "quarter" => some .quarter
  | "month" => some .month
  | "week" => some .week
  | "day" => some .day
  | "hour" => some .hour
  | "minute" => some .minute
  | "second" => some .second
  | _ => none

def mysqlAddMonths (date : MySqlDateParts) (months : ℤ) : Except Fault (Option MySqlDateParts) := do
  let totalMonths ← i64 (date.year * 12 + date.month - 1 + months)
  let year := totalMonths / 12
  if FitsI32 year then
    let month := asU8 (totalMonths % 12) + 1
    return some { year, month, day := min date.day (mysqlDaysInMonth year month) }
  else return none

/-- The seconds of a unit that is not counted in months. -/
def IntervalUnit.factor : IntervalUnit → ℤ
  | .week => 86400 * 7
  | .day => 86400
  | .hour => 3600
  | .minute => 60
  | _ => 1

/-- The seconds from the start of the year 1970 to the target, if `i64` holds them all. -/
def targetSeconds (days : ℤ) (time : MySqlTimeParts) (unit : IntervalUnit) (amount : ℤ) :
    Option ℤ := do
  let base ← checkedI64 (days * 86400)
  let base ← checkedI64 (base + time.hour * 3600)
  let base ← checkedI64 (base + time.minute * 60)
  let base ← checkedI64 (base + time.second)
  let offset ← checkedI64 (amount * unit.factor)
  checkedI64 (base + offset)

/-- The date and the time after an interval. -/
def addInterval (date : MySqlDateParts) (time : MySqlTimeParts) (unit : IntervalUnit)
    (amount : ℤ) : Except Fault (Option (MySqlDateParts × MySqlTimeParts)) :=
  match unit with
  | .year => return (← mysqlAddMonths date (saturatingMul amount 12)).map (·, time)
  | .quarter => return (← mysqlAddMonths date (saturatingMul amount 3)).map (·, time)
  | .month => return (← mysqlAddMonths date amount).map (·, time)
  | .week | .day | .hour | .minute | .second => do
    let days ← mysqlDaysFromCivil date
    match targetSeconds days time unit amount with
    | none => return none
    | some target => return some (← mysqlDatetimePartsFromUnixSeconds target)

/-- The literal of a result: a date has a time if it had one or if the unit is part of a day. -/
def intervalLit (hadTime : Bool) (unit : IntervalUnit) (next : MySqlDateParts × MySqlTimeParts) :
    Lit :=
  if hadTime || unit = .hour || unit = .minute || unit = .second then
    .datetime (mysqlFormatDatetimeParts next.1 next.2)
  else .date (mysqlFormatDateParts next.1)

variable (fmt : Formats)

def mysqlDatetimeAddIntervalLit (value : Lit) (unit : String) (amount : ℤ) :
    Except Fault (Option Lit) := do
  match ← mysqlParseDateTimeLitParts fmt value with
  | some (some date, time) =>
    match intervalUnit unit with
    | none => return none
    | some unit =>
      return (← addInterval date (time.getD ⟨0, 0, 0⟩) unit amount).map
        (intervalLit time.isSome unit)
  | _ => return none

end Interval

end SkeinDB.Queries
