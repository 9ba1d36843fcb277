import Coast.Base.Number
import Mathlib.Algebra.BigOperators.Group.List.Basic

/-!
# Time stamps

A time stamp is kept as the components of its date and time, each in a signed `char`, and is converted to seconds
and back. Functions that read a table have no result where they would read beside it.
-/

namespace Coast.Time

/-! ### Tables -/

def MIN : Nat := 60

def HOUR : Nat := MIN * 60

def DAY : Nat := 24 * HOUR

def YEAR : Nat := 365 * DAY

def MDAYS : List Nat := [31, 28, 31, 30, 31, 30, 31, 31, 30, 31, 30, 31]

def weekDayCenturyCorrect : List Int := [4, 2, 0, 6]

def weekDayMonthCorrectNoLeap : List Int := [0, 3, 3, 6, 1, 4, 6, 2, 5, 0, 3, 5]

def weekDayMonthCorrectLeap : List Int := [6, 2, 3, 6, 1, 4, 6, 2, 5, 0, 3, 5]

def monthes : List Bytes :=
  ["---", "Jan", "Feb", "Mar", "Apr", "May", "Jun", "Jul", "Aug", "Sep", "Oct", "Nov", "Dec"].map ascii

def days : List Bytes := ["Sun", "Mon", "Tue", "Wed", "Thu", "Fri", "Sat"].map ascii

/-- `table[i]`. -/
def entry {α : Type} (table : List α) (i : Int) : Option α := if 0 ≤ i then table[i.toNat]? else none

/-- A remainder of C is 0 when that of `Int` is. -/
def isLeap (iYear : Int) : Bool := iYear % 4 == 0 && (iYear % 100 != 0 || iYear % 400 == 0)

/-- The conversion of a `long` to the `int` that `IsLeap` takes. -/
def asInt (n : Nat) : Int := (n : Int).bmod (2 ^ 32)

def lyfa (theyear : Int) (mindex : Nat) : Nat := if mindex = 1 ∧ isLeap theyear then 1 else 0

/-! ### The components -/

structure IntTimeRep where
  eCent : Int8
  eYear : Int8
  eMonth : Int8
  eDay : Int8
  eHour : Int8
  eMin : Int8
  eSec : Int8
  fStructPos : UInt8
  deriving DecidableEq

namespace IntTimeRep

def reset : IntTimeRep := ⟨0, 0, 0, 0, 0, 0, 0, 0⟩

def ofComponents (iCent iYear iMonth iDay iHour iMin iSec : Int8) : IntTimeRep := ⟨iCent, iYear, iMonth, iDay, iHour, iMin, iSec, 7⟩

def cData (r : IntTimeRep) : List Int8 := [r.eCent, r.eYear, r.eMonth, r.eDay, r.eHour, r.eMin, r.eSec]

def year (r : IntTimeRep) : Int := r.eCent.toInt * 100 + r.eYear.toInt

def setTime (iHour iMin iSec : UInt8) (r : IntTimeRep) : Bool × IntTimeRep :=
  if iHour ≤ 23 ∧ iMin ≤ 59 ∧ iSec ≤ 59 then
    (true, { r with eHour := iHour.toInt8, eMin := iMin.toInt8, eSec := iSec.toInt8 })
  else (false, r)

def change (pos : Nat) (f : Int8 → Int8) (r : IntTimeRep) : IntTimeRep :=
  match pos with
  | 0 => { r with eCent := f r.eCent }
  | 1 => { r with eYear := f r.eYear }
  | 2 => { r with eMonth := f r.eMonth }
  | 3 => { r with eDay := f r.eDay }
  | 4 => { r with eHour := f r.eHour }
  | 5 => { r with eMin := f r.eMin }
  | 6 => { r with eSec := f r.eSec }
  | _ => r

def addCharacter (r : IntTimeRep) (c : UInt8) : IntTimeRep :=
  let added := r.change (r.fStructPos >>> 1).toNat fun item =>
    Int8.ofInt ((Int8.ofInt (item.toInt * 10)).toInt + (charInt c - charInt '0'.toUInt8))
  { added with fStructPos := r.fStructPos + 1 }

def isValidDate (r : IntTimeRep) : Bool :=
  !(r.year < 1970 || 2037 < r.year || r.eMonth.toInt < 1 || 12 < r.eMonth.toInt || r.eDay.toInt < 1 || 31 < r.eDay.toInt ||
    r.eHour.toInt < 0 || 23 < r.eHour.toInt || r.eMin.toInt < 0 || 59 < r.eMin.toInt || r.eSec.toInt < 0 || 59 < r.eSec.toInt ||
    (r.eMonth.toInt == 2 && decide ((if isLeap r.year then 29 else 28) < r.eDay.toInt)) ||
    ((r.eMonth.toInt == 4 || r.eMonth.toInt == 6 || r.eMonth.toInt == 9 || r.eMonth.toInt == 11) && decide (30 < r.eDay.toInt)))

/-- `ZFNUM`, for a number that is not negative. -/
def zfnum (num : Int) : Bytes :=
  if num ≤ 9 then ['0'.toUInt8, UInt8.ofNat (48 + num.toNat)] else [UInt8.ofNat (48 + num.toNat / 10), UInt8.ofNat (48 + num.toNat % 10)]

def asString (r : IntTimeRep) : Bytes :=
  longText r.year ++ zfnum r.eMonth.toInt ++ zfnum r.eDay.toInt ++ zfnum r.eHour.toInt ++ zfnum r.eMin.toInt ++ zfnum r.eSec.toInt

def asTimeT (r : IntTimeRep) : Int :=
  if r.isValidDate then
    (r.year - 1970) * YEAR + ((r.year - 1) / 4 - 1969 / 4) * DAY +
      ((MDAYS.take (r.eMonth.toInt - 1).toNat).map fun days => (days * DAY : Nat)).sum +
      (if 2 < r.eMonth.toInt ∧ isLeap r.year then (DAY : Int) else 0) + (r.eDay.toInt - 1) * DAY +
      (r.eHour.toInt * HOUR + r.eMin.toInt * MIN + r.eSec.toInt)
  else 0

def yearDays (y : Nat) : Nat := if isLeap (asInt y) then 366 else 365

def countYears : Nat → Nat → Nat → Nat × Nat
  | 0, y, days => (y, days)
  | fuel + 1, y, days => if yearDays y ≤ days then countYears fuel (y + 1) (days - yearDays y) else (y, days)

def countMonths (y : Nat) : List Nat → Nat → Nat → Nat × Nat
  | [], i, days => (i, days)
  | m :: months, i, days =>
    if m + lyfa (asInt y) i ≤ days then countMonths y months (i + 1) (days - (m + lyfa (asInt y) i)) else (i, days)

def initFromTimeT (lTime : Nat) (r : IntTimeRep) : IntTimeRep :=
  let rem := lTime % DAY
  let (y, days) := countYears (lTime / DAY / 365 + 1) 1970 (lTime / DAY)
  let (i, days) := countMonths y MDAYS 0 days
  { r with
    eCent := Int8.ofInt (y / 100 : Nat)
    eYear := Int8.ofInt (y % 100 : Nat)
    eMonth := Int8.ofInt (i + 1 : Nat)
    eDay := Int8.ofInt (days + 1 : Nat)
    eHour := Int8.ofInt (rem / HOUR : Nat)
    eMin := Int8.ofInt (rem % HOUR / 60 : Nat)
    eSec := Int8.ofInt (rem % HOUR % 60 : Nat) }

/-! ### Weeks -/

def weekday (r : IntTimeRep) : Option Int := do
  let century ← entry weekDayCenturyCorrect (r.eCent.toInt - 17)
  let month ← entry (if isLeap r.year then weekDayMonthCorrectLeap else weekDayMonthCorrectNoLeap) (r.eMonth.toInt - 1)
  some ((century + r.eYear.toInt + r.eYear.toInt.tdiv 4 + month + r.eDay.toInt).tmod 7)

def daysOfMonths (theyear : Int) : Nat → Option Nat
  | 0 => some 0
  | i + 1 => do
    let lDay ← daysOfMonths theyear i
    let month ← MDAYS[i]?
    some (lDay + (month + lyfa theyear i))

def dayOfYear (r : IntTimeRep) : Option Int :=
  (daysOfMonths r.eYear.toInt (r.eMonth.toInt - 1).toNat).map fun lDay : Nat => lDay + r.eDay.toInt

def unadjustedWeek (aFirstOfYearDOW lDayOfYearZ : Int) : Int :=
  let lDeltaDays := (8 - aFirstOfYearDOW).tmod 7
  if aFirstOfYearDOW = 1 then 1 + lDayOfYearZ.tdiv 7
  else if aFirstOfYearDOW = 5 ∨ aFirstOfYearDOW = 6 ∨ aFirstOfYearDOW = 0 then (lDayOfYearZ + (7 - lDeltaDays)).tdiv 7
  else if aFirstOfYearDOW = 2 ∨ aFirstOfYearDOW = 3 ∨ aFirstOfYearDOW = 4 then 1 + (lDayOfYearZ + (7 - lDeltaDays)).tdiv 7
  else 1 + lDayOfYearZ.tdiv 7

def weekOfYear (r : IntTimeRep) : Option Int := do
  let day ← r.dayOfYear
  let weekday ← r.weekday
  let aFirstOfYearDOW := (weekday + 7 - (day - 1).tmod 7).tmod 7
  let lWeek := unadjustedWeek aFirstOfYearDOW (day - 1)
  if 52 < lWeek then
    let aEndOfYearDOW := if isLeap r.eYear.toInt then (aFirstOfYearDOW + 1).tmod 7 else aFirstOfYearDOW
    some (if aEndOfYearDOW = 1 ∨ aEndOfYearDOW = 2 ∨ aEndOfYearDOW = 3 then 1 else lWeek)
  else some lWeek

end IntTimeRep

/-! ### The stamp -/

structure TimeStamp where
  fTimeStruct : IntTimeRep
  deriving DecidableEq

namespace TimeStamp

open IntTimeRep

def asLong (s : TimeStamp) : Int := s.fTimeStruct.asTimeT

def isValid (s : TimeStamp) : Bool := s.fTimeStruct.isValidDate

def isEqual (s isEqual : TimeStamp) : Bool := s.asLong == isEqual.asLong

def asString (s : TimeStamp) : Bytes := if s.isValid then s.fTimeStruct.asString else []

def setTimeT (lTime : Int) : TimeStamp := ⟨if 0 ≤ lTime then initFromTimeT lTime.toNat reset else reset⟩

def pattern : Bytes := ascii "19700101000000"

/-- A round of the loop of `IntDoInit`, with `lExtCount` and `lAddCount`. -/
def intDoInitRound (externalTimeRep : Bytes) (s : IntTimeRep × Nat × Nat) (i : Nat) : IntTimeRep × Nat × Nat :=
  if s.2.2 < 14 then
    match externalTimeRep[i]? with
    | some c => if isdigit c then (s.1.addCharacter c, s.2.1 + 1, s.2.2 + 1) else s
    | none => (s.1.addCharacter (pattern.getD s.2.2 0), s.2.1, s.2.2 + 1)
  else s

def intDoInit (externalTimeRep : Bytes) : TimeStamp :=
  let s := (List.range 14).foldl (intDoInitRound externalTimeRep) (reset, 0, 0)
  if s.2.1 < 4 then ⟨reset⟩ else ⟨s.1⟩

/-- `TimeStamp(utc)`. -/
def ofTimeT (utc : Int) : TimeStamp := setTimeT utc

/-- `TimeStamp(externalTimeRep)`. -/
def ofString (externalTimeRep : Bytes) : TimeStamp := intDoInit externalTimeRep

def intSet (aRep : IntTimeRep) (s : TimeStamp) : TimeStamp := if aRep.isValidDate then ⟨aRep⟩ else s

/-- The constructor from components, which leaves the stamp as it is made when they are not valid. -/
def ofComponents (iCent iYear iMonth iDay iHour iMin iSec : Int8) : TimeStamp :=
  intSet (IntTimeRep.ofComponents iCent iYear iMonth iDay iHour iMin iSec) ⟨reset⟩

def setTime (iHour iMin iSec : UInt8) (s : TimeStamp) : TimeStamp := ⟨(s.fTimeStruct.setTime iHour iMin iSec).2⟩

def add (s : TimeStamp) (deltasecs : Int64) : TimeStamp := ofTimeT (Int64.ofInt s.asLong + deltasecs).toInt

/-- `operator-`. -/
def sub (s : TimeStamp) (deltasecs : Int64) : TimeStamp := ofTimeT (Int64.ofInt s.asLong - deltasecs).toInt

/-- `operator+=`. -/
def addAssign (s : TimeStamp) (deltasecs : Int64) : TimeStamp := setTimeT (Int64.ofInt s.asLong + deltasecs).toInt

/-- `operator-=`. -/
def subAssign (s : TimeStamp) (deltasecs : Int64) : TimeStamp := s.addAssign (-deltasecs)

def max : TimeStamp := ofComponents 20 37 12 31 23 59 59

def weekday (s : TimeStamp) : Option Int := s.fTimeStruct.weekday

def dayOfYear (s : TimeStamp) : Option Int := s.fTimeStruct.dayOfYear

def weekOfYear (s : TimeStamp) : Option Int := s.fTimeStruct.weekOfYear

def monthName (s : TimeStamp) : Option Bytes := entry monthes s.fTimeStruct.eMonth.toInt

def dayName (s : TimeStamp) : Option Bytes := s.weekday.bind (entry days)

end TimeStamp

end Coast.Time
