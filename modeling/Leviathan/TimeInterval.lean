import Leviathan.LogTime

/-! `getTimeInterval` and `getMiliseconds` (LogAnalyzer, Utility.cpp): the difference of two times, field by
field from the fraction on, and its milliseconds. -/
namespace Leviathan.LogTime

open DateTime CFileTime

section Model

/-- The result of an operation on `int`s; beyond the range of `int` it has no meaning. -/
def inInt (z : ℤ) : Except Fault ℤ := if -2^31 ≤ z ∧ z < 2^31 then .ok z else .error .outOfBounds

/-- The loop that multiplies `nValue` by ten, `k` times. -/
def timesTen : ℕ → ℤ → Except Fault ℤ
  | 0, nValue => .ok nValue
  | k+1, nValue => do
    let nValue ← inInt (nValue*10)
    timesTen k nValue

/-- `getDaysPerMonth`, with the bounds of its table. -/
def daysPerMonth (nMonth nYear : ℤ) : Except Fault ℤ :=
  if 0 ≤ nMonth ∧ nMonth ≤ 12 then .ok (getDaysPerMonth nMonth.toNat nYear.natAbs)
  else .error .outOfBounds

/-- A field of the difference, and what is taken off the next field of `pTime2`.  When the field `n2` of
`pTime2` is less than the field `n1` of `pTime1`, the minuend is `nMore+nBase`. -/
def fieldInterval (n2 n1 nMore nBase : ℤ) : Except Fault (ℤ × ℤ) :=
  if n2 < n1 then do
    let n ← inInt (nMore+nBase)
    let n ← inInt (n-n1)
    return (n, 1)
  else do
    let n ← inInt (n2-n1)
    return (n, 0)

/-- The power of ten that a fraction of `pTime2` below the one of `pTime1` borrows. -/
def lastBase (nLastLen : ℕ) (nLast2 nLast1 : ℤ) : Except Fault ℤ :=
  if nLast2 < nLast1 then timesTen nLastLen 1 else .ok 0

/-- The days that a day of `pTime2` below the one of `pTime1` borrows. -/
def dayBase (pTime1 : STDTime) (nDay2 : ℤ) : Except Fault ℤ :=
  if nDay2 < pTime1.nDay then daysPerMonth pTime1.nMonth pTime1.nYear else .ok 0

/-- `getTimeInterval`: what is left in `*pTime2`, and `*pTimeTarget`. -/
def getTimeInterval (nLastLen : ℕ) (pTime1 pTime2 : STDTime) : Except Fault (STDTime × STDTime) := do
  let nValue ← lastBase nLastLen pTime2.nLast pTime1.nLast
  let (nLast, c) ← fieldInterval pTime2.nLast pTime1.nLast pTime2.nLast nValue
  let nSec2 ← inInt (pTime2.nSec-c)
  let (nSec, c) ← fieldInterval nSec2 pTime1.nSec nSec2 60
  let nMinute2 ← inInt (pTime2.nMinute-c)
  let (nMinute, c) ← fieldInterval nMinute2 pTime1.nMinute nMinute2 60
  let nHour2 ← inInt (pTime2.nHour-c)
  let (nHour, c) ← fieldInterval nHour2 pTime1.nHour nHour2 24
  let nDay2 ← inInt (pTime2.nDay-c)
  let nDays ← dayBase pTime1 nDay2
  let (nDay, c) ← fieldInterval nDay2 pTime1.nDay nDay2 nDays
  let nMonth2 ← inInt (pTime2.nMonth-c)
  -- here the minuend is `pTime2->nDay + 12`
  let (nMonth, c) ← fieldInterval nMonth2 pTime1.nMonth nDay2 12
  let nYear2 ← inInt (pTime2.nYear-c)
  let nYear ← inInt (nYear2-pTime1.nYear)
  return (⟨nYear2, nMonth2, nDay2, nHour2, nMinute2, nSec2, pTime2.nLast⟩,
    ⟨nYear, nMonth, nDay, nHour, nMinute, nSec, nLast⟩)

/-- What a field adds to `nRes`, which is left as it is for 0. -/
def milisecondsOf (n nUnit : ℤ) : Except Fault ℤ := if n ≠ 0 then inInt (n*nUnit) else .ok 0

/-- `getMiliseconds`; `nValue` is what the variable of that name holds when it is not set. -/
def getMiliseconds (nValue : ℤ) (pTime : STDTime) (nLastLen : ℕ) : Except Fault ℤ := do
  let nRes ← milisecondsOf pTime.nHour 3600000
  let nMinutes ← milisecondsOf pTime.nMinute 60000
  let nRes ← inInt (nRes+nMinutes)
  let nSecs ← milisecondsOf pTime.nSec 1000
  let nRes ← inInt (nRes+nSecs)
  let nValue :=
    if nLastLen = 3 then pTime.nLast
    else if nLastLen = 6 then pTime.nLast.tdiv 1000
    else if nLastLen = 9 then pTime.nLast.tdiv 1000000
    else nValue
  inInt (nRes+nValue)

end Model

section Difference

/-- What a field takes off the next one. -/
def taken (n2 n1 : ℤ) : ℤ := if n2 < n1 then 1 else 0

def digit (n2 n1 nMore nBase : ℤ) : ℤ := if n2 < n1 then nMore+nBase-n1 else n2-n1

variable (k : ℕ) (t1 t2 : STDTime)

/-- `*pTime2` after the call. -/
def lessened : STDTime :=
  let nSec := t2.nSec-taken t2.nLast t1.nLast
  let nMinute := t2.nMinute-taken nSec t1.nSec
  let nHour := t2.nHour-taken nMinute t1.nMinute
  let nDay := t2.nDay-taken nHour t1.nHour
  let nMonth := t2.nMonth-taken nDay t1.nDay
  let nYear := t2.nYear-taken nMonth t1.nMonth
  ⟨nYear, nMonth, nDay, nHour, nMinute, nSec, t2.nLast⟩

/-- The length of the month of a time. -/
def monthLength (t : STDTime) : ℤ := getDaysPerMonth t.nMonth.toNat t.nYear.natAbs

def difference : STDTime :=
  let t2' := lessened t1 t2
  ⟨t2'.nYear-t1.nYear, digit t2'.nMonth t1.nMonth t2'.nDay 12,
    digit t2'.nDay t1.nDay t2'.nDay (monthLength t1), digit t2'.nHour t1.nHour t2'.nHour 24,
    digit t2'.nMinute t1.nMinute t2'.nMinute 60, digit t2'.nSec t1.nSec t2'.nSec 60,
    digit t2.nLast t1.nLast t2.nLast (10^k)⟩

/-- A calendar time with a fraction of `k` digits. -/
structure ValidTime (t : STDTime) : Prop where
  year : 0 ≤ t.nYear ∧ t.nYear < 2^31
  month : 1 ≤ t.nMonth ∧ t.nMonth ≤ 12
  day : 1 ≤ t.nDay ∧ t.nDay ≤ monthLength t
  hour : 0 ≤ t.nHour ∧ t.nHour ≤ 23
  minute : 0 ≤ t.nMinute ∧ t.nMinute ≤ 59
  sec : 0 ≤ t.nSec ∧ t.nSec ≤ 59
  last : 0 ≤ t.nLast ∧ t.nLast < 10^k ∧ t.nLast < 2^31

end Difference

section Evaluation

theorem inInt_of_range (z : ℤ) (hl : -2^31 ≤ z) (hu : z < 2^31) : inInt z = .ok z := if_pos ⟨hl, hu⟩

theorem timesTen_eq (k : ℕ) (n : ℤ) (hn : 0 ≤ n) (h : n*10^k < 2^31) : timesTen k n = .ok (n*10^k) := by
  induction k generalizing n with
  | zero => rw [timesTen, pow_zero, mul_one]
  | succ k ih =>
    have hpow : (1 : ℤ) ≤ 10^k := one_le_pow₀ (by norm_num)
    have hsplit : n*10^(k+1) = n*10*10^k := by
      rw [pow_succ']
      ring
    rw [hsplit] at h ⊢
    have hle : n*10 ≤ n*10*10^k := le_mul_of_one_le_right (by omega) hpow
    rw [timesTen, inInt_of_range _ (by omega) (by omega), ok_bind]
    exact ih (n*10) (by omega) h

-- The tenth power of ten is no `int`.
theorem timesTen_error (k : ℕ) (hk : 10 ≤ k) : timesTen k 1 = .error .outOfBounds := by
  obtain ⟨d, rfl⟩ := Nat.exists_eq_add_of_le' hk
  rfl

theorem fieldInterval_eq (n2 n1 nMore nBase : ℤ) (hmore : n2 < n1 → -2^31 ≤ nMore+nBase ∧
    nMore+nBase < 2^31 ∧ -2^31 ≤ nMore+nBase-n1 ∧ nMore+nBase-n1 < 2^31)
    (hrest : n1 ≤ n2 → n2-n1 < 2^31) :
    fieldInterval n2 n1 nMore nBase = .ok (digit n2 n1 nMore nBase, taken n2 n1) := by
  unfold fieldInterval digit taken
  split_ifs with h
  · obtain ⟨h1, h2, h3, h4⟩ := hmore h
    rw [inInt_of_range _ h1 h2, ok_bind, inInt_of_range _ h3 h4, ok_bind]
    rfl
  · have hle := not_lt.mp h
    rw [inInt_of_range _ (by omega) (hrest hle), ok_bind]
    rfl

theorem taken_cases (n2 n1 : ℤ) : n2 < n1 ∧ taken n2 n1 = 1 ∨ n1 ≤ n2 ∧ taken n2 n1 = 0 := by
  unfold taken
  split_ifs with h
  · exact Or.inl ⟨h, rfl⟩
  · exact Or.inr ⟨not_lt.mp h, rfl⟩

theorem taken_bounds (n2 n1 : ℤ) : 0 ≤ taken n2 n1 ∧ taken n2 n1 ≤ 1 := by
  rcases taken_cases n2 n1 with h | h <;> omega

theorem inInt_sub_taken (n m2 m1 : ℤ) (hl : -2^31 < n) (hu : n < 2^31) :
    inInt (n-taken m2 m1) = .ok (n-taken m2 m1) := by
  have h := taken_bounds m2 m1
  exact inInt_of_range _ (by omega) (by omega)

theorem monthLength_bounds (t : STDTime) : 0 ≤ monthLength t ∧ monthLength t ≤ 31 := by
  have hle : getDaysPerMonth t.nMonth.toNat t.nYear.natAbs ≤ 31 := by
    unfold getDaysPerMonth
    split_ifs
    · omega
    · omega
    · omega
    · by_cases hm : t.nMonth.toNat ≤ 12
      · interval_cases t.nMonth.toNat <;> decide
      · rw [List.getD_eq_getElem?_getD, List.getElem?_eq_none (by simp; omega)]
        decide
  unfold monthLength
  omega

variable (k : ℕ) (t1 t2 : STDTime)

/-- No field of the time that is left is lessened by more than one. -/
structure Lessened (t t' : STDTime) : Prop where
  year : t.nYear-1 ≤ t'.nYear ∧ t'.nYear ≤ t.nYear
  month : t.nMonth-1 ≤ t'.nMonth ∧ t'.nMonth ≤ t.nMonth
  day : t.nDay-1 ≤ t'.nDay ∧ t'.nDay ≤ t.nDay
  hour : t.nHour-1 ≤ t'.nHour ∧ t'.nHour ≤ t.nHour
  minute : t.nMinute-1 ≤ t'.nMinute ∧ t'.nMinute ≤ t.nMinute
  sec : t.nSec-1 ≤ t'.nSec ∧ t'.nSec ≤ t.nSec

theorem sub_taken (n m2 m1 : ℤ) : n-1 ≤ n-taken m2 m1 ∧ n-taken m2 m1 ≤ n := by
  have h := taken_bounds m2 m1
  omega

theorem lessened_bounds : Lessened t2 (lessened t1 t2) where
  year := sub_taken _ _ _
  month := sub_taken _ _ _
  day := sub_taken _ _ _
  hour := sub_taken _ _ _
  minute := sub_taken _ _ _
  sec := sub_taken _ _ _

variable (h1 : ValidTime k t1) (h2 : ValidTime k t2)

include h1 h2

-- The fraction, where a power of ten is needed only if it is borrowed from the seconds.
theorem lastInterval_eq (hk : k ≤ 9 ∨ t1.nLast ≤ t2.nLast) :
    ∃ nValue, lastBase k t2.nLast t1.nLast = .ok nValue ∧
      fieldInterval t2.nLast t1.nLast t2.nLast nValue =
        .ok (digit t2.nLast t1.nLast t2.nLast (10^k), taken t2.nLast t1.nLast) := by
  have hl1 := h1.last
  have hl2 := h2.last
  by_cases hlt : t2.nLast < t1.nLast
  · have hpow : (10 : ℤ)^k ≤ 10^9 := pow_le_pow_right₀ (by norm_num) (by omega)
    refine ⟨10^k, ?_, fieldInterval_eq _ _ _ _ (by omega) (by omega)⟩
    rw [lastBase, if_pos hlt, timesTen_eq k 1 (by omega) (by omega), one_mul]
  · refine ⟨0, if_neg hlt, ?_⟩
    rw [fieldInterval_eq _ _ _ _ (fun h => absurd h hlt) (by omega), digit, digit, if_neg hlt, if_neg hlt]

theorem daysInterval_eq (nDay2 : ℤ) (hl : t2.nDay-1 ≤ nDay2) (hu : nDay2 ≤ t2.nDay) :
    ∃ nDays, dayBase t1 nDay2 = .ok nDays ∧
      fieldInterval nDay2 t1.nDay nDay2 nDays =
        .ok (digit nDay2 t1.nDay nDay2 (monthLength t1), taken nDay2 t1.nDay) := by
  have hd1 := h1.day
  have hd2 := h2.day
  have hm1 := monthLength_bounds t1
  have hm2 := monthLength_bounds t2
  by_cases hlt : nDay2 < t1.nDay
  · refine ⟨monthLength t1, ?_, fieldInterval_eq _ _ _ _ (by omega) (by omega)⟩
    have hmonth := h1.month
    rw [dayBase, if_pos hlt, daysPerMonth, if_pos (by omega), monthLength]
  · refine ⟨0, if_neg hlt, ?_⟩
    rw [fieldInterval_eq _ _ _ _ (fun h => absurd h hlt) (by omega), digit, digit, if_neg hlt, if_neg hlt]

theorem getTimeInterval_eq (hk : k ≤ 9 ∨ t1.nLast ≤ t2.nLast) :
    getTimeInterval k t1 t2 = .ok (lessened t1 t2, difference k t1 t2) := by
  obtain ⟨nValue, hvalue, hlast⟩ := lastInterval_eq k t1 t2 h1 h2 hk
  have hl := lessened_bounds t1 t2
  have hy1 := h1.year
  have hy2 := h2.year
  have hs1 := h1.sec
  have hs2 := h2.sec
  have hi1 := h1.minute
  have hi2 := h2.minute
  have hh1 := h1.hour
  have hh2 := h2.hour
  have hd1 := h1.day
  have hd2 := h2.day
  have hm1 := h1.month
  have hm2 := h2.month
  have hlen1 := monthLength_bounds t1
  have hlen2 := monthLength_bounds t2
  have field (n2 n1 nMore nBase : ℤ) (h : -10^6 < n2 ∧ n2 < 10^6 ∧ -10^6 < n1 ∧ n1 < 10^6 ∧
      -10^6 < nMore+nBase ∧ nMore+nBase < 10^6) :
      fieldInterval n2 n1 nMore nBase = .ok (digit n2 n1 nMore nBase, taken n2 n1) :=
    fieldInterval_eq n2 n1 nMore nBase (by omega) (by omega)
  obtain ⟨nDays, hdays, hday⟩ :=
    daysInterval_eq k t1 t2 h1 h2 (lessened t1 t2).nDay hl.day.1 hl.day.2
  have hsec : inInt (t2.nSec-taken t2.nLast t1.nLast) = .ok (lessened t1 t2).nSec :=
    inInt_sub_taken _ _ _ (by omega) (by omega)
  have hminute : inInt (t2.nMinute-taken (lessened t1 t2).nSec t1.nSec) =
      .ok (lessened t1 t2).nMinute := inInt_sub_taken _ _ _ (by omega) (by omega)
  have hhour : inInt (t2.nHour-taken (lessened t1 t2).nMinute t1.nMinute) =
      .ok (lessened t1 t2).nHour := inInt_sub_taken _ _ _ (by omega) (by omega)
  have hdate : inInt (t2.nDay-taken (lessened t1 t2).nHour t1.nHour) =
      .ok (lessened t1 t2).nDay := inInt_sub_taken _ _ _ (by omega) (by omega)
  have hmonth : inInt (t2.nMonth-taken (lessened t1 t2).nDay t1.nDay) =
      .ok (lessened t1 t2).nMonth := inInt_sub_taken _ _ _ (by omega) (by omega)
  have hyear : inInt (t2.nYear-taken (lessened t1 t2).nMonth t1.nMonth) =
      .ok (lessened t1 t2).nYear := inInt_sub_taken _ _ _ (by omega) (by omega)
  have hlast2 := hl.year
  rw [getTimeInterval, hvalue, ok_bind, hlast, ok_bind]
  dsimp only
  rw [hsec, ok_bind, field _ _ _ _ (by have := hl.sec; omega), ok_bind]
  dsimp only
  rw [hminute, ok_bind, field _ _ _ _ (by have := hl.minute; omega), ok_bind]
  dsimp only
  rw [hhour, ok_bind, field _ _ _ _ (by have := hl.hour; omega), ok_bind]
  dsimp only
  rw [hdate, ok_bind, hdays, ok_bind, hday, ok_bind]
  dsimp only
  rw [hmonth, ok_bind, field _ _ _ _ (by have := hl.month; have := hl.day; omega), ok_bind]
  dsimp only
  rw [hyear, ok_bind, inInt_of_range _ (by omega) (by omega), ok_bind]
  rfl

end Evaluation

section Miliseconds

variable (k : ℕ) (t1 t2 : STDTime)

/-- The time of day in units of the fraction. -/
def timeOfDay (t : STDTime) : ℤ := ((t.nHour*60+t.nMinute)*60+t.nSec)*10^k+t.nLast

/-- The fields of a difference below the days are in their ranges. -/
structure TimeInRange (t : STDTime) : Prop where
  hour : 0 ≤ t.nHour ∧ t.nHour < 24
  minute : 0 ≤ t.nMinute ∧ t.nMinute < 60
  sec : 0 ≤ t.nSec ∧ t.nSec < 60
  last : 0 ≤ t.nLast ∧ t.nLast < 10^k

-- Subtraction of digits in a base, with what the digit before has taken off already.
theorem digit_spec (n2 n1 nBase : ℤ) (h2 : -1 ≤ n2 ∧ n2 < nBase) (h1 : 0 ≤ n1 ∧ n1 < nBase) :
    (0 ≤ digit n2 n1 n2 nBase ∧ digit n2 n1 n2 nBase < nBase) ∧
      n1+digit n2 n1 n2 nBase = n2+nBase*taken n2 n1 := by
  unfold digit taken
  split_ifs <;> omega

variable (h1 : ValidTime k t1) (h2 : ValidTime k t2)

include h1 h2

-- The digits of a difference, from the fraction up to the hours.
theorem digit_last : (0 ≤ (difference k t1 t2).nLast ∧ (difference k t1 t2).nLast < 10^k) ∧
    t1.nLast+(difference k t1 t2).nLast = t2.nLast+10^k*taken t2.nLast t1.nLast := by
  have hl1 := h1.last
  have hl2 := h2.last
  exact digit_spec _ _ _ (by omega) (by omega)

theorem digit_sec : (0 ≤ (difference k t1 t2).nSec ∧ (difference k t1 t2).nSec < 60) ∧
    t1.nSec+(difference k t1 t2).nSec =
      (lessened t1 t2).nSec+60*taken (lessened t1 t2).nSec t1.nSec := by
  have hl := (lessened_bounds t1 t2).sec
  have hs1 := h1.sec
  have hs2 := h2.sec
  exact digit_spec _ _ _ (by omega) (by omega)

theorem digit_minute : (0 ≤ (difference k t1 t2).nMinute ∧ (difference k t1 t2).nMinute < 60) ∧
    t1.nMinute+(difference k t1 t2).nMinute =
      (lessened t1 t2).nMinute+60*taken (lessened t1 t2).nMinute t1.nMinute := by
  have hl := (lessened_bounds t1 t2).minute
  have hi1 := h1.minute
  have hi2 := h2.minute
  exact digit_spec _ _ _ (by omega) (by omega)

theorem digit_hour : (0 ≤ (difference k t1 t2).nHour ∧ (difference k t1 t2).nHour < 24) ∧
    t1.nHour+(difference k t1 t2).nHour =
      (lessened t1 t2).nHour+24*taken (lessened t1 t2).nHour t1.nHour := by
  have hl := (lessened_bounds t1 t2).hour
  have hh1 := h1.hour
  have hh2 := h2.hour
  exact digit_spec _ _ _ (by omega) (by omega)

theorem timeInRange_difference : TimeInRange k (difference k t1 t2) where
  hour := (digit_hour k t1 t2 h1 h2).1
  minute := (digit_minute k t1 t2 h1 h2).1
  sec := (digit_sec k t1 t2 h1 h2).1
  last := (digit_last k t1 t2 h1 h2).1

theorem timeOfDay_difference : timeOfDay k (difference k t1 t2) =
    (timeOfDay k t2-timeOfDay k t1)%(86400*10^k) := by
  have elast := (digit_last k t1 t2 h1 h2).2
  have esec := (digit_sec k t1 t2 h1 h2).2
  have eminute := (digit_minute k t1 t2 h1 h2).2
  have ehour := (digit_hour k t1 t2 h1 h2).2
  have hsum : timeOfDay k (difference k t1 t2) = timeOfDay k t2-timeOfDay k t1+
      86400*10^k*taken (lessened t1 t2).nHour t1.nHour := by
    unfold timeOfDay
    have e1 : (lessened t1 t2).nSec = t2.nSec-taken t2.nLast t1.nLast := rfl
    have e2 : (lessened t1 t2).nMinute = t2.nMinute-taken (lessened t1 t2).nSec t1.nSec := rfl
    have e3 : (lessened t1 t2).nHour = t2.nHour-taken (lessened t1 t2).nMinute t1.nMinute := rfl
    linear_combination 3600*10^k*ehour+60*10^k*eminute+10^k*esec+elast+3600*10^k*e3+60*10^k*e2+10^k*e1
  have hrange := timeInRange_difference k t1 t2 h1 h2
  obtain ⟨hh, hi, hs, hf⟩ := hrange
  have hpow : (0 : ℤ) < 10^k := by positivity
  have hlow : 0 ≤ timeOfDay k (difference k t1 t2) := by
    have hclock : 0 ≤ ((difference k t1 t2).nHour*60+(difference k t1 t2).nMinute)*60+
        (difference k t1 t2).nSec := by omega
    exact add_nonneg (mul_nonneg hclock hpow.le) hf.1
  have hhigh : timeOfDay k (difference k t1 t2) < 86400*10^k := by
    have hclock : ((difference k t1 t2).nHour*60+(difference k t1 t2).nMinute)*60+
        (difference k t1 t2).nSec ≤ 86399 := by omega
    calc
      timeOfDay k (difference k t1 t2) ≤ 86399*10^k+(difference k t1 t2).nLast :=
        add_le_add_left (mul_le_mul_of_nonneg_right hclock hpow.le) _
      _ < 86400*10^k := by omega
  rw [← Int.emod_eq_of_lt hlow hhigh, hsum, Int.add_mul_emod_self_left]

omit h1 h2 in
theorem milisecondsOf_eq (n nUnit : ℤ) (hn : 0 ≤ n*nUnit) (hu : n*nUnit < 2^31) :
    milisecondsOf n nUnit = .ok (n*nUnit) := by
  unfold milisecondsOf
  split_ifs with h
  · exact inInt_of_range _ (by omega) hu
  · rw [not_not.mp h, zero_mul]

omit h1 h2 in
theorem getMiliseconds_eq (hk : k = 3 ∨ k = 6 ∨ k = 9) (nValue : ℤ) (t : STDTime)
    (h : TimeInRange k t) : getMiliseconds nValue t k = .ok (timeOfDay k t/10^(k-3)) := by
  obtain ⟨hh, hi, hs, hf⟩ := h
  rw [getMiliseconds, milisecondsOf_eq _ _ (by omega) (by omega), ok_bind,
    milisecondsOf_eq _ _ (by omega) (by omega), ok_bind, inInt_of_range _ (by omega) (by omega), ok_bind,
    milisecondsOf_eq _ _ (by omega) (by omega), ok_bind, inInt_of_range _ (by omega) (by omega), ok_bind]
  unfold timeOfDay
  rcases hk with rfl | rfl | rfl
  · norm_num at hf ⊢
    rw [inInt_of_range _ (by omega) (by omega)]
    apply congrArg Except.ok
    ring
  · norm_num at hf ⊢
    rw [Int.tdiv_eq_ediv_of_nonneg hf.1, inInt_of_range _ (by omega) (by omega)]
    apply congrArg Except.ok
    omega
  · norm_num at hf ⊢
    rw [Int.tdiv_eq_ediv_of_nonneg hf.1, inInt_of_range _ (by omega) (by omega)]
    apply congrArg Except.ok
    omega

/-- The milliseconds of a difference are those between the two times of day, and the clock fields of the
difference are in their ranges; no `int` overflows. -/
theorem getMiliseconds_of_getTimeInterval (hk : k = 3 ∨ k = 6 ∨ k = 9) (nValue : ℤ) :
    ∃ t2' r, getTimeInterval k t1 t2 = .ok (t2', r) ∧ TimeInRange k r ∧
      getMiliseconds nValue r k =
        .ok ((timeOfDay k t2-timeOfDay k t1)%(86400*10^k)/10^(k-3)) := by
  have hrange := timeInRange_difference k t1 t2 h1 h2
  refine ⟨_, _, getTimeInterval_eq k t1 t2 h1 h2 (Or.inl (by omega)), hrange, ?_⟩
  rw [getMiliseconds_eq k hk nValue _ hrange, timeOfDay_difference k t1 t2 h1 h2]

-- from a second before midnight to five milliseconds after it
omit h1 h2 in
theorem getMiliseconds_of_getTimeInterval_midnight :
    ∃ t2' r, getTimeInterval 3 ⟨2020, 2, 29, 23, 59, 59, 0⟩ ⟨2020, 3, 1, 0, 0, 0, 5⟩ = .ok (t2', r) ∧
      TimeInRange 3 r ∧ getMiliseconds 0 r 3 = .ok 1005 :=
  getMiliseconds_of_getTimeInterval 3 ⟨2020, 2, 29, 23, 59, 59, 0⟩ ⟨2020, 3, 1, 0, 0, 0, 5⟩
    (by constructor <;> decide) (by constructor <;> decide) (Or.inl rfl) 0

end Miliseconds

section Calendar

variable (k : ℕ) (t1 t2 : STDTime)

/-- What a field of a sum carries over to the next one. -/
def carried (n nBase : ℤ) : ℤ := if nBase ≤ n then 1 else 0

/-- Year, month and day of a time with a difference added and `c` days carried over; the days are carried
over with the length of the month that the time is in. -/
def addDate (t d : STDTime) (c : ℤ) : ℤ × ℤ × ℤ :=
  let nDay := t.nDay+d.nDay+c
  let nMonth := t.nMonth+d.nMonth+carried nDay (monthLength t+1)
  let nYear := t.nYear+d.nYear+carried nMonth 13
  (nYear, nMonth-12*carried nMonth 13, nDay-monthLength t*carried nDay (monthLength t+1))

/-- A time with a difference added, field by field. -/
def addInterval (t d : STDTime) : STDTime :=
  let nLast := t.nLast+d.nLast
  let nSec := t.nSec+d.nSec+carried nLast (10^k)
  let nMinute := t.nMinute+d.nMinute+carried nSec 60
  let nHour := t.nHour+d.nHour+carried nMinute 60
  let date := addDate t d (carried nHour 24)
  ⟨date.1, date.2.1, date.2.2, nHour-24*carried nHour 24, nMinute-60*carried nMinute 60,
    nSec-60*carried nSec 60, nLast-10^k*carried nLast (10^k)⟩

structure InRange (t : STDTime) : Prop extends TimeInRange k t where
  year : 0 ≤ t.nYear
  month : 0 ≤ t.nMonth ∧ t.nMonth < 12
  day : 0 ≤ t.nDay ∧ t.nDay < 31

/-- The call answers a difference of ordinary fields that leads from the first time to the second. -/
def IsInterval : Prop :=
  ∃ t2' r, getTimeInterval k t1 t2 = .ok (t2', r) ∧ InRange k r ∧ addInterval k t1 r = t2

def dayTime (t : STDTime) : ℤ ×ₗ ℤ ×ₗ ℤ ×ₗ ℤ :=
  toLex (t.nHour, toLex (t.nMinute, toLex (t.nSec, t.nLast)))

def monthTime (t : STDTime) : ℤ ×ₗ ℤ ×ₗ ℤ ×ₗ ℤ ×ₗ ℤ := toLex (t.nDay, dayTime t)

def yearTime (t : STDTime) : ℤ ×ₗ ℤ ×ₗ ℤ ×ₗ ℤ ×ₗ ℤ ×ₗ ℤ := toLex (t.nMonth, monthTime t)

/-- 1 where the first value is the less one, 0 else. -/
def less {α : Type} [LinearOrder α] (x y : α) : ℤ := if x < y then 1 else 0

/-- The powers of ten are no more than an `int` holds, the days reach the end of a month or no day of the
month of `t1` is passed over, and the month that is borrowed from is by chance the day. -/
structure Exact : Prop where
  power : k ≤ 9 ∨ t1.nLast ≤ t2.nLast
  day : monthTime t2 < monthTime t1 ∨ t2.nDay ≤ monthLength t1
  month : yearTime t2 < yearTime t1 →
    t2.nDay-less (dayTime t2) (dayTime t1) = t2.nMonth-less (monthTime t2) (monthTime t1)

theorem taken_less {α : Type} [LinearOrder α] (n2 n1 : ℤ) (x y : α) :
    taken (n2-less x y) n1 = less (toLex (n2, x)) (toLex (n1, y)) := by
  unfold taken less
  simp only [Prod.Lex.toLex_lt_toLex]
  by_cases hxy : x < y
  · simp only [hxy, if_true, and_true]
    split_ifs <;> omega
  · simp only [hxy, if_false, and_false, or_false, sub_zero]

-- What the hour, the day and the month take off the next field.
theorem taken_hour : taken (lessened t1 t2).nHour t1.nHour = less (dayTime t2) (dayTime t1) := by
  have hsec := taken_less t2.nSec t1.nSec t2.nLast t1.nLast
  have hminute := taken_less t2.nMinute t1.nMinute (toLex (t2.nSec, t2.nLast)) (toLex (t1.nSec, t1.nLast))
  rw [← hsec] at hminute
  have hhour := taken_less t2.nHour t1.nHour (toLex (t2.nMinute, toLex (t2.nSec, t2.nLast)))
    (toLex (t1.nMinute, toLex (t1.nSec, t1.nLast)))
  rw [← hminute] at hhour
  exact hhour

theorem taken_day : taken (lessened t1 t2).nDay t1.nDay = less (monthTime t2) (monthTime t1) := by
  have h := taken_less t2.nDay t1.nDay (dayTime t2) (dayTime t1)
  rw [← taken_hour] at h
  exact h

theorem taken_month : taken (lessened t1 t2).nMonth t1.nMonth = less (yearTime t2) (yearTime t1) := by
  have h := taken_less t2.nMonth t1.nMonth (monthTime t2) (monthTime t1)
  rw [← taken_day] at h
  exact h

theorem lessened_day : (lessened t1 t2).nDay = t2.nDay-less (dayTime t2) (dayTime t1) := by
  rw [← taken_hour]
  rfl

theorem lessened_month : (lessened t1 t2).nMonth = t2.nMonth-less (monthTime t2) (monthTime t1) := by
  rw [← taken_day]
  rfl

theorem less_bounds {α : Type} [LinearOrder α] (x y : α) : 0 ≤ less x y ∧ less x y ≤ 1 := by
  unfold less
  split_ifs <;> omega

theorem carried_of_le (n nBase : ℤ) (h : nBase ≤ n) : carried n nBase = 1 := if_pos h

theorem carried_of_lt (n nBase : ℤ) (h : n < nBase) : carried n nBase = 0 := if_neg (not_le.mpr h)

theorem less_eq_one_iff {α : Type} [LinearOrder α] (x y : α) : less x y = 1 ↔ x < y := by
  unfold less
  split_ifs with h <;> simp [h]

-- A sum of digits carries over what their difference has taken.
theorem carried_digit (m c n1 nBase : ℤ) (hm : 0 ≤ m ∧ m < nBase) (hc : 0 ≤ c ∧ c ≤ 1)
    (h1 : 0 ≤ n1 ∧ n1 < nBase) :
    carried (n1+digit (m-c) n1 (m-c) nBase+c) nBase = taken (m-c) n1 ∧
      n1+digit (m-c) n1 (m-c) nBase+c-nBase*taken (m-c) n1 = m := by
  have hspec := (digit_spec (m-c) n1 nBase (by omega) h1).2
  have htaken := taken_cases (m-c) n1
  unfold carried
  rcases htaken with ⟨-, ht⟩ | ⟨-, ht⟩
  · rw [ht] at hspec ⊢
    rw [if_pos (by omega)]
    omega
  · rw [ht] at hspec ⊢
    rw [if_neg (by omega)]
    omega

variable (h1 : ValidTime k t1) (h2 : ValidTime k t2)

include h1 h2

/-- The clock fields come back in the sum. -/
theorem addInterval_difference : addInterval k t1 (difference k t1 t2) =
    { t2 with
      nYear := (addDate t1 (difference k t1 t2) (less (dayTime t2) (dayTime t1))).1
      nMonth := (addDate t1 (difference k t1 t2) (less (dayTime t2) (dayTime t1))).2.1
      nDay := (addDate t1 (difference k t1 t2) (less (dayTime t2) (dayTime t1))).2.2 } := by
  have hl1 := h1.last
  have hl2 := h2.last
  have hlast := carried_digit t2.nLast 0 t1.nLast (10^k) (by omega) (by omega) (by omega)
  rw [sub_zero, add_zero] at hlast
  have hsec := carried_digit t2.nSec (taken t2.nLast t1.nLast) t1.nSec 60 (by have := h2.sec; omega)
    (taken_bounds _ _) (by have := h1.sec; omega)
  have hminute := carried_digit t2.nMinute (taken (lessened t1 t2).nSec t1.nSec) t1.nMinute 60
    (by have := h2.minute; omega) (taken_bounds _ _) (by have := h1.minute; omega)
  have hhour := carried_digit t2.nHour (taken (lessened t1 t2).nMinute t1.nMinute) t1.nHour 24
    (by have := h2.hour; omega) (taken_bounds _ _) (by have := h1.hour; omega)
  have hdate : taken (t2.nHour-taken (lessened t1 t2).nMinute t1.nMinute) t1.nHour =
      less (dayTime t2) (dayTime t1) := taken_hour t1 t2
  have elast : (difference k t1 t2).nLast = digit t2.nLast t1.nLast t2.nLast (10^k) := rfl
  have esec : (difference k t1 t2).nSec = digit (t2.nSec-taken t2.nLast t1.nLast) t1.nSec
      (t2.nSec-taken t2.nLast t1.nLast) 60 := rfl
  have eminute : (difference k t1 t2).nMinute =
      digit (t2.nMinute-taken (lessened t1 t2).nSec t1.nSec) t1.nMinute
        (t2.nMinute-taken (lessened t1 t2).nSec t1.nSec) 60 := rfl
  have ehour : (difference k t1 t2).nHour =
      digit (t2.nHour-taken (lessened t1 t2).nMinute t1.nMinute) t1.nHour
        (t2.nHour-taken (lessened t1 t2).nMinute t1.nMinute) 24 := rfl
  have csec : taken (t2.nSec-taken t2.nLast t1.nLast) t1.nSec = taken (lessened t1 t2).nSec t1.nSec := rfl
  have cminute : taken (t2.nMinute-taken (lessened t1 t2).nSec t1.nSec) t1.nMinute =
      taken (lessened t1 t2).nMinute t1.nMinute := rfl
  unfold addInterval
  dsimp only
  rw [elast, hlast.1, hlast.2, esec, hsec.1, hsec.2, csec, eminute, hminute.1, hminute.2, cminute, ehour,
    hhour.1, hhour.2, hdate]

-- The date comes back where the carried days and months are those that were borrowed.
theorem addDate_iff : addDate t1 (difference k t1 t2) (less (dayTime t2) (dayTime t1)) =
    (t2.nYear, t2.nMonth, t2.nDay) ↔
      (monthTime t2 < monthTime t1 ∨ t2.nDay ≤ monthLength t1) ∧
      (yearTime t2 < yearTime t1 →
        t2.nDay-less (dayTime t2) (dayTime t1) = t2.nMonth-less (monthTime t2) (monthTime t1)) := by
  have hd1 := h1.day
  have hd2 := h2.day
  have hm1 := h1.month
  have hm2 := h2.month
  have eday := lessened_day t1 t2
  have emonth := lessened_month t1 t2
  have eyear : (difference k t1 t2).nYear = t2.nYear-less (yearTime t2) (yearTime t1)-t1.nYear := by
    rw [← taken_month]
    rfl
  have hday : (difference k t1 t2).nDay =
      digit (lessened t1 t2).nDay t1.nDay (lessened t1 t2).nDay (monthLength t1) := rfl
  have hmonth : (difference k t1 t2).nMonth =
      digit (lessened t1 t2).nMonth t1.nMonth (lessened t1 t2).nDay 12 := rfl
  have hc := less_bounds (dayTime t2) (dayTime t1)
  have htakenDay := taken_cases (lessened t1 t2).nDay t1.nDay
  have htakenMonth := taken_cases (lessened t1 t2).nMonth t1.nMonth
  rw [taken_day] at htakenDay
  rw [taken_month] at htakenMonth
  rw [← less_eq_one_iff (monthTime t2), ← less_eq_one_iff (yearTime t2)]
  unfold addDate
  simp only [Prod.mk.injEq]
  rw [eyear, hday, hmonth, eday, emonth]
  rw [eday] at htakenDay
  rw [emonth] at htakenMonth
  generalize less (dayTime t2) (dayTime t1) = c3 at *
  generalize less (monthTime t2) (monthTime t1) = c4 at *
  generalize less (yearTime t2) (yearTime t1) = c5 at *
  rcases htakenDay with ⟨hlt, rfl⟩ | ⟨hge, rfl⟩
  · have hsum : t1.nDay+digit (t2.nDay-c3) t1.nDay (t2.nDay-c3) (monthLength t1)+c3 =
        t2.nDay+monthLength t1 := by
      rw [digit, if_pos hlt]
      ring
    rw [hsum, carried_of_le (t2.nDay+monthLength t1) _ (by omega)]
    unfold digit carried
    split_ifs <;> omega
  · have hsum : t1.nDay+digit (t2.nDay-c3) t1.nDay (t2.nDay-c3) (monthLength t1)+c3 = t2.nDay := by
      rw [digit, if_neg (not_lt.mpr hge)]
      ring
    rw [hsum]
    by_cases hlen : t2.nDay ≤ monthLength t1
    · rw [carried_of_lt t2.nDay _ (by omega)]
      unfold digit carried
      split_ifs <;> omega
    · -- the sum passes the end of the month, and the day is another one
      rw [carried_of_le t2.nDay _ (by omega)]
      omega

omit h1 h2 in
theorem year_le (hle : t1 ≤ t2) : t1.nYear ≤ t2.nYear-less (yearTime t2) (yearTime t1) := by
  have hnot := not_lt.mpr hle
  rw [lt_iff] at hnot
  simp only [calendar, Prod.Lex.toLex_lt_toLex, toLex_inj, Prod.mk.injEq] at hnot
  unfold less
  split_ifs with h
  · simp only [yearTime, monthTime, dayTime, Prod.Lex.toLex_lt_toLex] at h
    omega
  · omega

theorem inRange_difference (hle : t1 ≤ t2) (h : Exact k t1 t2) : InRange k (difference k t1 t2) := by
  have hd1 := h1.day
  have hd2 := h2.day
  have hm1 := h1.month
  have hm2 := h2.month
  have hlen := monthLength_bounds t1
  have hlen2 := monthLength_bounds t2
  have hl := lessened_bounds t1 t2
  have hlday := hl.day
  have hlmonth := hl.month
  refine { toTimeInRange := timeInRange_difference k t1 t2 h1 h2, year := ?_, month := ?_, day := ?_ }
  · have hyear := year_le t1 t2 hle
    rw [← taken_month] at hyear
    exact sub_nonneg.mpr hyear
  · change 0 ≤ digit (lessened t1 t2).nMonth t1.nMonth (lessened t1 t2).nDay 12 ∧
      digit (lessened t1 t2).nMonth t1.nMonth (lessened t1 t2).nDay 12 < 12
    unfold digit
    split_ifs with hborrow
    · have hlt : yearTime t2 < yearTime t1 := by
        rw [← less_eq_one_iff, ← taken_month]
        exact if_pos hborrow
      have hsame := h.month hlt
      have eday := lessened_day t1 t2
      have emonth := lessened_month t1 t2
      omega
    · omega
  · change 0 ≤ digit (lessened t1 t2).nDay t1.nDay (lessened t1 t2).nDay (monthLength t1) ∧
      digit (lessened t1 t2).nDay t1.nDay (lessened t1 t2).nDay (monthLength t1) < 31
    unfold digit
    split_ifs <;> omega

omit h1 h2 in
-- Ten digits and more are too many for the power of ten.
theorem getTimeInterval_error (hk : ¬(k ≤ 9 ∨ t1.nLast ≤ t2.nLast)) :
    getTimeInterval k t1 t2 = .error .outOfBounds := by
  rw [not_or, not_le, not_le] at hk
  rw [getTimeInterval, lastBase, if_pos hk.2, timesTen_error k hk.1]
  rfl

/-- The difference of two times leads from the first to the second exactly when its power of ten is an `int`,
no day past the end of the first month is counted, and no month is borrowed, or the one that is equals the
day it is mistaken for. -/
theorem isInterval_iff (hle : t1 ≤ t2) : IsInterval k t1 t2 ↔ Exact k t1 t2 := by
  by_cases hk : k ≤ 9 ∨ t1.nLast ≤ t2.nLast
  · have hrun := getTimeInterval_eq k t1 t2 h1 h2 hk
    have hdate := addDate_iff k t1 t2 h1 h2
    have hadd := addInterval_difference k t1 t2 h1 h2
    constructor
    · rintro ⟨t2', r, hr, -, hsum⟩
      obtain ⟨-, rfl⟩ := Prod.mk.inj (Except.ok.inj (hrun.symm.trans hr))
      rw [hadd] at hsum
      have hyear := congrArg STDTime.nYear hsum
      have hmonth := congrArg STDTime.nMonth hsum
      have hday := congrArg STDTime.nDay hsum
      have hcond := hdate.mp (Prod.ext hyear (Prod.ext hmonth hday))
      exact ⟨hk, hcond.1, hcond.2⟩
    · intro h
      refine ⟨_, _, hrun, inRange_difference k t1 t2 h1 h2 hle h, ?_⟩
      rw [hadd, hdate.mpr ⟨h.day, h.month⟩]
  · constructor
    · rintro ⟨t2', r, hr, -⟩
      rw [getTimeInterval_error k t1 t2 hk] at hr
      cases hr
    · intro h
      exact absurd h.power hk

-- over the end of a leap February
omit h1 h2 in
theorem isInterval_iff_february :
    IsInterval 3 ⟨2020, 2, 29, 23, 59, 59, 0⟩ ⟨2020, 3, 1, 0, 0, 0, 5⟩ :=
  (isInterval_iff 3 ⟨2020, 2, 29, 23, 59, 59, 0⟩ ⟨2020, 3, 1, 0, 0, 0, 5⟩
    (by constructor <;> decide) (by constructor <;> decide) (by decide)).mpr
    ⟨Or.inl (by decide), Or.inl (by decide), fun h => absurd h (by decide)⟩

-- from November to February, and from the tenth of February to the end of March
omit h1 h2 in
theorem not_isInterval_months :
    ¬IsInterval 3 ⟨2020, 11, 5, 0, 0, 0, 0⟩ ⟨2021, 2, 20, 0, 0, 0, 0⟩ ∧
    ¬IsInterval 3 ⟨2021, 2, 10, 0, 0, 0, 0⟩ ⟨2021, 3, 31, 0, 0, 0, 0⟩ := by
  constructor
  · rintro ⟨t2', r, hr, hrange, -⟩
    obtain ⟨-, rfl⟩ := Prod.mk.inj (Except.ok.inj hr)
    exact absurd hrange.month (by decide)
  · rintro ⟨t2', r, hr, -, hsum⟩
    obtain ⟨-, rfl⟩ := Prod.mk.inj (Except.ok.inj hr)
    exact absurd (congrArg STDTime.nMonth hsum) (by decide)

end Calendar

end Leviathan.LogTime
