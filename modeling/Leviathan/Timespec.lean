import Leviathan.CTypes

/-! Differences and sums of `struct timespec` (`Misc`, comDateTime.h and .cpp), on both kinds of systems:
with a division, and with a loop that subtracts. -/
namespace Leviathan.Misc

section Model

def nanosecPerSec : ℕ := 1000000000

def microsecPerSec : ℕ := 1000000

def millisecPerSec : ℕ := 1000

-- `true` for the branches under `WIN32`
variable (WIN32 : Bool)

/-- The width of a `long`. -/
def longBits : ℕ := if WIN32 then 32 else 64

def long (z : ℤ) : ℤ := z.bmod (2^longBits WIN32)

def time_t (z : ℤ) : ℤ := z.bmod (2^64)

structure Timespec where
  tv_sec : ℤ
  tv_nsec : ℤ
  range : -2^63 ≤ tv_sec ∧ tv_sec < 2^63
  deriving DecidableEq

theorem time_t_range (z : ℤ) : -2^63 ≤ time_t z ∧ time_t z < 2^63 :=
  ⟨Int.le_bmod (by decide), Int.bmod_lt (by decide)⟩

def timespec_diff (start stop : Timespec) (unit : ℕ) : Timespec :=
  if long WIN32 (stop.tv_nsec-start.tv_nsec) < 0 then
    { tv_sec := time_t (time_t (stop.tv_sec-start.tv_sec)-1)
      tv_nsec := long WIN32 (long WIN32 (stop.tv_nsec-start.tv_nsec)+unit)
      range := time_t_range _ }
  else
    { tv_sec := time_t (stop.tv_sec-start.tv_sec)
      tv_nsec := long WIN32 (stop.tv_nsec-start.tv_nsec)
      range := time_t_range _ }

/-- The loop of `__div_u64_rem` and `__div_u32_rem`, for at most `k` tests. -/
def divLoop (divisor : ℕ) : ℕ → ℕ → ℕ → Except Fault (ℕ × ℕ)
  | 0, _, _ => .error .diverges
  | k+1, dividend, ret =>
    if divisor ≤ dividend then divLoop divisor k (dividend-divisor) (u32 (ret+1))
    else .ok (ret, dividend)

/-- `__div_u64_rem` and `__div_u32_rem`, which differ in the width of the dividend: the answer and the
remainder.  The loop does not end for 0, and the division is undefined. -/
def divRem (dividend divisor : ℕ) : Except Fault (ℕ × ℕ) :=
  if WIN32 then
    if divisor = 0 then .error .diverges else .ok (u32 (dividend/divisor), dividend%divisor)
  else divLoop divisor (dividend+1) dividend 0

def _div_u64_rem (dividend divisor : ℕ) : Except Fault (ℕ × ℕ) := divRem WIN32 dividend divisor

def _div_u32_rem (dividend divisor : ℕ) : Except Fault (ℕ × ℕ) := divRem WIN32 dividend divisor

/-- What the three functions that add a number of units do; the sum is an unsigned number of `bits`. -/
def timespecAdd (bits unit : ℕ) (a : Timespec) (n : ℕ) : Except Fault Timespec := do
  let (ret, rem) ← divRem WIN32 ((a.tv_nsec+n)%2^bits).toNat unit
  return { tv_sec := time_t (a.tv_sec+ret), tv_nsec := long WIN32 rem, range := time_t_range _ }

def timespec_add_nanosec : Timespec → ℕ → Except Fault Timespec := timespecAdd WIN32 64 nanosecPerSec

def timespec_add_microsec : Timespec → ℕ → Except Fault Timespec :=
  timespecAdd WIN32 (longBits WIN32) microsecPerSec

def timespec_add_milisec : Timespec → ℕ → Except Fault Timespec :=
  timespecAdd WIN32 (longBits WIN32) millisecPerSec

def timespec_diff_nanos (start stop : Timespec) : Timespec := timespec_diff WIN32 start stop nanosecPerSec

def timespec_diff_microsec (start stop : Timespec) : Timespec :=
  timespec_diff WIN32 start stop microsecPerSec

def timespec_diff_millisec (start stop : Timespec) : Timespec :=
  timespec_diff WIN32 start stop millisecPerSec

end Model

namespace Timespec

/-- The fraction is less than a second. -/
def Normal (unit : ℕ) (t : Timespec) : Prop := 0 ≤ t.tv_nsec ∧ t.tv_nsec < unit

/-- The time in units of the fraction. -/
def count (unit : ℕ) (t : Timespec) : ℤ := t.tv_sec*unit+t.tv_nsec

/-- The first time is not the later one. -/
def Before (start stop : Timespec) : Prop :=
  start.tv_sec < stop.tv_sec ∨ (start.tv_sec = stop.tv_sec ∧ start.tv_nsec ≤ stop.tv_nsec)

end Timespec

section Division

variable (WIN32 : Bool) (dividend divisor : ℕ)

-- The loop counts the quotient modulo 2^32.
theorem divLoop_eq (hd : 1 ≤ divisor) (k ret : ℕ) (hk : dividend < k) (hret : ret < 2^32) :
    divLoop divisor k dividend ret = .ok (u32 (ret+dividend/divisor), dividend%divisor) := by
  induction k generalizing dividend ret with
  | zero => omega
  | succ k ih =>
    rw [divLoop]
    split_ifs with hle
    · have hquot : dividend/divisor = (dividend-divisor)/divisor+1 := Nat.div_eq_sub_div hd hle
      have hcount : u32 (u32 (ret+1)+(dividend-divisor)/divisor) = u32 (ret+dividend/divisor) := by
        rw [u32, u32, Nat.mod_add_mod, hquot, u32, add_right_comm, add_assoc]
      rw [ih (dividend-divisor) (u32 (ret+1)) (by omega) (Nat.mod_lt _ (by decide)), hcount,
        Nat.mod_eq_sub_mod hle]
    · rw [Nat.div_eq_of_lt (not_le.mp hle), Nat.mod_eq_of_lt (not_le.mp hle), Nat.add_zero,
        u32_of_lt ret hret]

/-- Both variants answer the quotient, as far as it fits, and the remainder. -/
theorem divRem_eq (hd : 1 ≤ divisor) :
    divRem WIN32 dividend divisor = .ok (u32 (dividend/divisor), dividend%divisor) := by
  rw [divRem]
  cases WIN32 with
  | true => rw [if_pos rfl, if_neg (by omega)]
  | false =>
    rw [if_neg Bool.false_ne_true, divLoop_eq dividend divisor hd _ 0 (Nat.lt_succ_self _) (by decide),
      Nat.zero_add]

end Division

section Inverse

variable (WIN32 : Bool)

theorem long_of_range (z : ℤ) (hl : -2^31 ≤ z) (hu : z < 2^31) : long WIN32 z = z := by
  rw [long]
  cases WIN32 with
  | true => exact i32_of_range z hl hu
  | false =>
    show z.bmod (2^64) = z
    exact Int.bmod_eq_of_le (by norm_num; omega) (by norm_num; omega)

theorem time_t_of_range (z : ℤ) (hl : -2^63 ≤ z) (hu : z < 2^63) : time_t z = z := by
  rw [time_t]
  exact Int.bmod_eq_of_le (by norm_num; omega) (by norm_num; omega)

variable (unit : ℕ) (hunit : unit ≤ nanosecPerSec) (start stop : Timespec) (hstart : start.Normal unit)
variable (hstop : stop.Normal unit) (hle : start.Before stop) (hsec : stop.tv_sec-start.tv_sec < 2^32)

include hunit hstart hstop hle hsec

theorem diff_normal : (timespec_diff WIN32 start stop unit).Normal unit ∧
    0 ≤ (timespec_diff WIN32 start stop unit).tv_sec ∧
    (timespec_diff WIN32 start stop unit).count unit = stop.count unit-start.count unit := by
  obtain ⟨hs0, hs1⟩ := hstart
  obtain ⟨ht0, ht1⟩ := hstop
  rw [nanosecPerSec] at hunit
  rw [Timespec.Before] at hle
  have hlong := long_of_range WIN32 (stop.tv_nsec-start.tv_nsec) (by omega) (by omega)
  rw [timespec_diff, hlong]
  split_ifs with hborrow
  · have hone : 0 ≤ stop.tv_sec-start.tv_sec-1 := by omega
    have hdiff := time_t_of_range (stop.tv_sec-start.tv_sec) (by omega) (by omega)
    have hless := time_t_of_range (stop.tv_sec-start.tv_sec-1) (by omega) (by omega)
    have hlast := long_of_range WIN32 (stop.tv_nsec-start.tv_nsec+unit) (by omega) (by omega)
    simp only [Timespec.Normal, Timespec.count, hdiff, hless, hlast]
    exact ⟨⟨by omega, by omega⟩, hone, by ring⟩
  · have hdiff := time_t_of_range (stop.tv_sec-start.tv_sec) (by omega) (by omega)
    simp only [Timespec.Normal, Timespec.count, hdiff]
    exact ⟨⟨by omega, by omega⟩, by omega, by ring⟩

-- The sum is the whole seconds in units and the fraction of the later time.
theorem add_count (bits : ℕ) (n : ℕ) (hn : (n : ℤ) = stop.count unit-start.count unit)
    (hbits : start.tv_nsec+n < 2^bits) : timespecAdd WIN32 bits unit start n = .ok stop := by
  obtain ⟨hs0, hs1⟩ := hstart
  obtain ⟨ht0, ht1⟩ := hstop
  rw [nanosecPerSec] at hunit
  rw [Timespec.Before] at hle
  have hrange := stop.range
  obtain ⟨secs, hsecs⟩ : ∃ secs : ℕ, (secs : ℤ) = stop.tv_sec-start.tv_sec :=
    ⟨(stop.tv_sec-start.tv_sec).toNat, Int.toNat_of_nonneg (by omega)⟩
  obtain ⟨frac, hfrac⟩ : ∃ frac : ℕ, (frac : ℤ) = stop.tv_nsec := ⟨_, Int.toNat_of_nonneg ht0⟩
  have hlt : frac < unit := by omega
  have hsum : ((start.tv_nsec+n)%2^bits).toNat = unit*secs+frac := by
    have hcount : start.tv_nsec+n = ((unit*secs+frac : ℕ) : ℤ) := by
      rw [hn, Timespec.count, Timespec.count]
      push_cast
      rw [hsecs, hfrac]
      ring
    rw [Int.emod_eq_of_lt (by omega) hbits, hcount, Int.toNat_natCast]
  have hquot : (unit*secs+frac)/unit = secs := by
    rw [Nat.mul_add_div (by omega), Nat.div_eq_of_lt hlt, Nat.add_zero]
  have hrem : (unit*secs+frac)%unit = frac := by
    rw [Nat.mul_add_mod, Nat.mod_eq_of_lt hlt]
  have htotal : time_t (start.tv_sec+secs) = stop.tv_sec := by
    rw [hsecs, time_t_of_range _ (by omega) (by omega)]
    ring
  have hlong : long WIN32 frac = stop.tv_nsec := by
    rw [long_of_range WIN32 frac (by omega) (by omega), hfrac]
  rw [timespecAdd, hsum, divRem_eq WIN32 _ unit (by omega), hquot, hrem, u32_of_lt secs (by omega),
    ok_bind]
  simp only [htotal, hlong]
  rfl

end Inverse

/-- The difference of two times with less than 2^32 seconds between them, added to the first, is the
second; and the two variants of the division agree where the quotient is an `unsigned int`. -/
theorem diff_add_inverse :
    (∀ (WIN32 : Bool) (start stop : Timespec), start.Normal nanosecPerSec → stop.Normal nanosecPerSec →
      start.Before stop → stop.tv_sec-start.tv_sec < 2^32 →
      (timespec_diff_nanos WIN32 start stop).Normal nanosecPerSec ∧
      ∃ d : ℕ, d < 2^64 ∧ (d : ℤ) = (timespec_diff_nanos WIN32 start stop).count nanosecPerSec ∧
        (d : ℤ) = stop.count nanosecPerSec-start.count nanosecPerSec ∧
        timespec_add_nanosec WIN32 start d = .ok stop) ∧
    ∀ dividend divisor : ℕ, dividend < 2^64 → 1 ≤ divisor → divisor < 2^32 →
      dividend/divisor < 2^32 →
      _div_u64_rem false dividend divisor = .ok (dividend/divisor, dividend%divisor) ∧
      _div_u64_rem true dividend divisor = .ok (dividend/divisor, dividend%divisor) := by
  constructor
  · intro WIN32 start stop hstart hstop hle hsec
    obtain ⟨hnormal, hpos, hcount⟩ :=
      diff_normal WIN32 nanosecPerSec le_rfl start stop hstart hstop hle hsec
    obtain ⟨d, hd⟩ : ∃ d : ℕ, (d : ℤ) = stop.count nanosecPerSec-start.count nanosecPerSec := by
      refine ⟨_, Int.toNat_of_nonneg ?_⟩
      rw [← hcount, Timespec.count]
      exact add_nonneg (mul_nonneg hpos (Nat.cast_nonneg _)) hnormal.1
    have hsum : start.tv_nsec+d < 2^64 := by
      obtain ⟨ht0, ht1⟩ := hstop
      rw [hd, Timespec.count, Timespec.count]
      rw [nanosecPerSec] at ht1 ⊢
      omega
    have hnsec := hstart.1
    exact ⟨hnormal, d, by omega, hd.trans hcount.symm, hd,
      add_count WIN32 nanosecPerSec le_rfl start stop hstart hstop hle hsec 64 d hd hsum⟩
  · intro dividend divisor _ hd _ hquot
    have heq (WIN32 : Bool) : _div_u64_rem WIN32 dividend divisor =
        .ok (dividend/divisor, dividend%divisor) := by
      rw [_div_u64_rem, divRem_eq WIN32 dividend divisor hd, u32_of_lt _ hquot]
    exact ⟨heq false, heq true⟩

theorem diff_add_inverse_borrow :
    ((∃ d : ℕ, d < 2^64 ∧
        (d : ℤ) = (timespec_diff_nanos false ⟨1, 999999999, by decide⟩ ⟨3, 5, by decide⟩).count
          nanosecPerSec ∧
        timespec_add_nanosec false ⟨1, 999999999, by decide⟩ d = .ok ⟨3, 5, by decide⟩) ∧
      _div_u64_rem false 17 5 = .ok (3, 2)) := by
  obtain ⟨hinverse, hdivision⟩ := diff_add_inverse
  have hnormal : Timespec.Normal nanosecPerSec ⟨1, 999999999, by decide⟩ := by
    simp [Timespec.Normal, nanosecPerSec]
  have hnormal' : Timespec.Normal nanosecPerSec ⟨3, 5, by decide⟩ := by
    simp [Timespec.Normal, nanosecPerSec]
  obtain ⟨-, d, hd, hcount, -, hadd⟩ := hinverse false _ _ hnormal hnormal' (by simp [Timespec.Before])
    (by norm_num)
  exact ⟨⟨d, hd, hcount, hadd⟩,
    (hdivision 17 5 (by decide) (by decide) (by decide) (by decide)).1⟩

end Leviathan.Misc
