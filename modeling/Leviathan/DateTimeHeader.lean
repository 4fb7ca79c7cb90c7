import Leviathan.CStrings
import Leviathan.CTypes

/-! The date and time in front of a log line: how the logger writes it (`CLogger::setDateTimeFormat` in
comLogger.cpp, `CDateTime::setString` in comDateTime.cpp) and how the analyzer reads it
(`parsingDateTimeExp` and `parsingTimeLog` in Utility.cpp). -/
namespace Leviathan.DateTime

/-- DT_TYPE. -/
inductive DTType
  | none
  | sec
  | millisec
  | microsec
  | nanosec
  deriving DecidableEq

/-- DT_FORMAT, with the last field as a parameter. -/
inductive DTFormat
  | none
  | yyyymmddhhmmss (last : DTType)
  | yymmddhhmmss (last : DTType)
  | ddhhmmss
  deriving DecidableEq

structure STLogDateTimeExp where
  bBracketEnclosed : Bool
  -- NUL for no delimiter
  cDateDelimeter : Char
  bTimeDelimeter : Bool
  nYearLen : ℕ
  nLastType : DTType
  deriving DecidableEq

/-- The digits of the fraction. -/
def DTType.digits : DTType → ℕ
  | .none | .sec => 0
  | .millisec => 3
  | .microsec => 6
  | .nanosec => 9

def lastFormat : DTType → List Char
  | .none | .sec => []
  | .millisec => ['.', '%', '0', '3', 'd']
  | .microsec => ['.', '%', '0', '6', 'd']
  | .nanosec => ['.', '%', '0', '9', 'd']

def delimeter (c : Char) : List Char := if c = '\x00' then [] else [c]

-- the part of the header format behind the year
def restFormat (e : STLogDateTimeExp) : List Char :=
  delimeter e.cDateDelimeter ++ ['%', '0', '2', 'd'] ++ delimeter e.cDateDelimeter ++
  ['%', '0', '2', 'd', ' '] ++
  (if e.bTimeDelimeter then
    ['%', '0', '2', 'd', ':', '%', '0', '2', 'd', ':', '%', '0', '2', 'd']
  else ['%', '0', '2', 'd', '%', '0', '2', 'd', '%', '0', '2', 'd']) ++
  lastFormat e.nLastType ++ (if e.bBracketEnclosed then [']'] else [])

/-- `setDateTimeFormat`: `m_szHeaderFormat` and `m_nDateTimeFormat`, which keeps its old value when the
last type is none of the four.  Without a year length the first character becomes NUL. -/
def setDateTimeFormat (e : STLogDateTimeExp) (m_nDateTimeFormat : DTFormat) : List Char × DTFormat :=
  let bracket := if e.bBracketEnclosed then ['['] else []
  if e.nYearLen = 4 then
    (bracket ++ ['%', '0', '4', 'd'] ++ restFormat e,
      if e.nLastType = .none then m_nDateTimeFormat else .yyyymmddhhmmss e.nLastType)
  else if e.nYearLen = 2 then
    (bracket ++ ['%', 's'] ++ restFormat e,
      if e.nLastType = .none then m_nDateTimeFormat else .yymmddhhmmss e.nLastType)
  else (if e.bBracketEnclosed then [] else restFormat e, .none)

/-- The fields of `m_tm` and `m_tmval` that are printed. -/
structure CDateTime where
  tm_year : ℕ
  tm_mon : ℕ
  tm_mday : ℕ
  tm_hour : ℕ
  tm_min : ℕ
  tm_sec : ℕ
  tv_nsec : ℕ

inductive Arg
  | num (n : ℕ)
  | text (s : List Char)

/-- `%0wd`. -/
def padded (w n : ℕ) : List Char :=
  List.replicate (w-(Nat.toDigits 10 n).length) '0' ++ Nat.toDigits 10 n

/-- `sprintf` for the conversions that a header format has; anything else after a percent sign, and a
conversion without its argument, is undefined. -/
def sprintf : List Char → List Arg → Except Fault (List Char)
  | [], _ => .ok []
  | '%' :: '%' :: f, args => do return '%' :: (← sprintf f args)
  | '%' :: 's' :: f, .text s :: args => do return s ++ (← sprintf f args)
  | '%' :: '0' :: w :: 'd' :: f, .num n :: args =>
    do return padded (w.toNat - '0'.toNat) n ++ (← sprintf f args)
  | '%' :: _, _ => .error .outOfBounds
  | c :: f, args => do return c :: (← sprintf f args)

/-- `setString`; `pyear+2` is what stands behind the first two digits of the year. -/
def setString (t : CDateTime) (pFormat : List Char) (nFormat : DTFormat) :
    Except Fault (List Char) :=
  let clock := [.num t.tm_hour, .num t.tm_min, .num t.tm_sec]
  let date := .num t.tm_mon :: .num t.tm_mday :: clock
  let year := .num t.tm_year
  let pyear := .text ((Nat.toDigits 10 t.tm_year).drop 2)
  match nFormat with
  | .ddhhmmss => sprintf pFormat (.num t.tm_mday :: clock)
  | .yymmddhhmmss .sec => sprintf pFormat (pyear :: date)
  | .yymmddhhmmss _ => sprintf pFormat (pyear :: date ++ [.num t.tv_nsec])
  | .yyyymmddhhmmss .sec => sprintf pFormat (year :: date)
  | .yyyymmddhhmmss _ | .none => sprintf pFormat (year :: date ++ [.num t.tv_nsec])

structure STDateTimeExp where
  nDateStart : ℕ
  nTimeStart : ℕ
  cDateDelimeter : Char
  cTimeDelimeter : Char
  nYearLen : ℕ
  nMonthLen : ℕ
  nDateLen : ℕ
  nHourLen : ℕ
  nMinuteLen : ℕ
  nSecLen : ℕ
  nLastLen : ℕ
  deriving DecidableEq

def STDateTimeExp.zero : STDateTimeExp := ⟨0, 0, '\x00', '\x00', 0, 0, 0, 0, 0, 0, 0⟩

/-- The loop of `parsingDateTimeExp` from position `nPos` on.  A digit ends it. -/
def parseExp : ℕ → STDateTimeExp → Bool → List Char → Bool × STDateTimeExp
  | _, e, bSuccess, [] => (bSuccess, e)
  | nPos, e, bSuccess, c :: s =>
    if c = 'y' then
      parseExp (nPos+1)
        { e with
          nDateStart := if e.nYearLen = 0 then nPos else e.nDateStart
          nYearLen := e.nYearLen+1 } bSuccess s
    else if c = 'm' then
      parseExp (nPos+1)
        (if nPos < 8 then { e with nMonthLen := e.nMonthLen+1 }
        else { e with nMinuteLen := e.nMinuteLen+1 }) bSuccess s
    else if c = 'd' then parseExp (nPos+1) { e with nDateLen := e.nDateLen+1 } bSuccess s
    else if c = 'h' then
      parseExp (nPos+1)
        { e with
          nTimeStart := if e.nHourLen = 0 then nPos else e.nTimeStart
          nHourLen := e.nHourLen+1 } bSuccess s
    else if c = 's' then parseExp (nPos+1) { e with nSecLen := e.nSecLen+1 } true s
    else if c.isDigit then (true, { e with nLastLen := (atoi (c :: s)).toNat })
    else
      parseExp (nPos+1)
        (if nPos < 8 then { e with cDateDelimeter := c } else { e with cTimeDelimeter := c }) bSuccess s

def parsingDateTimeExp (pExp : List Char) : Bool × STDateTimeExp := parseExp 0 .zero false pExp

structure STDTime where
  nYear : ℤ
  nMonth : ℤ
  nDay : ℤ
  nHour : ℤ
  nMinute : ℤ
  nSec : ℤ
  nLast : ℤ
  deriving DecidableEq

/-- `strncpy` of `nLen` characters to `szBuf`, a NUL behind them, and `atoi`; `szBuf` has 8 bytes.
Nothing is read for no characters, wherever `pPos` is. -/
def field (pLog : List Char) (pPos nLen : ℕ) : Except Fault ℤ :=
  if nLen < 8 ∧ (nLen = 0 ∨ pPos ≤ pLog.length) then .ok (atoi ((pLog.drop pPos).take nLen))
  else .error .outOfBounds

def parsingTimeLog (pLog : List Char) (e : STDateTimeExp) : Except Fault STDTime := do
  let nDateDelimeter := if e.cDateDelimeter = '\x00' then 0 else 1
  let nTimeDelimeter := if e.cTimeDelimeter = '\x00' then 0 else 1
  let pPos := e.nDateStart
  let nYear ← field pLog pPos e.nYearLen
  let pPos := pPos+(e.nYearLen+nDateDelimeter)
  let nMonth ← field pLog pPos e.nMonthLen
  let pPos := pPos+(e.nMonthLen+nDateDelimeter)
  let nDay ← field pLog pPos e.nDateLen
  let pPos := e.nTimeStart
  let nHour ← field pLog pPos e.nHourLen
  let pPos := pPos+(e.nHourLen+nTimeDelimeter)
  let nMinute ← field pLog pPos e.nMinuteLen
  let pPos := pPos+(e.nMinuteLen+nTimeDelimeter)
  let nSec ← field pLog pPos e.nSecLen
  let pPos := pPos+(e.nSecLen+nTimeDelimeter)
  let nLast ← field pLog pPos e.nLastLen
  return ⟨nYear, nMonth, nDay, nHour, nMinute, nSec, nLast⟩

/-- The expression that spells the format, a letter for each position and the digits of the fraction as
their number. -/
def spell (e : STLogDateTimeExp) : List Char :=
  (if e.bBracketEnclosed then ['['] else []) ++ List.replicate e.nYearLen 'y' ++
  delimeter e.cDateDelimeter ++ ['m', 'm'] ++ delimeter e.cDateDelimeter ++ ['d', 'd', ' '] ++
  (if e.bTimeDelimeter then ['h', 'h', ':', 'm', 'm', ':', 's', 's'] else ['h', 'h', 'm', 'm', 's', 's']) ++
  '.' :: Nat.toDigits 10 e.nLastType.digits ++ (if e.bBracketEnclosed then [']'] else [])

/-- The header for the time `t`, read with the expression that spells its format. -/
def roundTrip (e : STLogDateTimeExp) (t : CDateTime) : Except Fault STDTime := do
  let format := setDateTimeFormat e .none
  let header ← setString t format.1 format.2
  parsingTimeLog header (parsingDateTimeExp (spell e)).2

def getDaysPerMonth (nMonth nYear : ℕ) : ℕ :=
  if nMonth = 2 then
    if nYear%400 = 0 then 29 else if nYear%4 = 0 ∧ nYear%100 ≠ 0 then 29 else 28
  else [0, 31, 28, 31, 30, 31, 30, 31, 31, 30, 31, 30, 31].getD nMonth 0

/-- A calendar time with a year of four digits and a fraction of `k` digits. -/
structure Valid (k : ℕ) (t : CDateTime) : Prop where
  year : 1000 ≤ t.tm_year ∧ t.tm_year ≤ 9999
  mon : 1 ≤ t.tm_mon ∧ t.tm_mon ≤ 12
  mday : 1 ≤ t.tm_mday ∧ t.tm_mday ≤ getDaysPerMonth t.tm_mon t.tm_year
  hour : t.tm_hour ≤ 23
  min : t.tm_min ≤ 59
  sec : t.tm_sec ≤ 59
  nsec : t.tv_nsec < 10^k

-- what the header shows of the time
def shown (e : STLogDateTimeExp) (t : CDateTime) : STDTime :=
  ⟨if e.nYearLen = 4 then t.tm_year else (t.tm_year%100 : ℕ), t.tm_mon, t.tm_mday, t.tm_hour, t.tm_min,
    t.tm_sec, t.tv_nsec⟩

/-- The reader gives back every time that the header can show. -/
def ReadsBack (e : STLogDateTimeExp) : Prop :=
  ∀ t, Valid e.nLastType.digits t → roundTrip e t = .ok (shown e t)

end Leviathan.DateTime
