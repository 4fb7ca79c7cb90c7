import Mathlib.Data.Int.Log
import Mathlib.Data.Rat.Floor
import Mathlib.Tactic

/-! Rounding of exact values to a binary floating-point format, half to even.  The exponent is not bounded,
so values must lie well inside the range of the format. -/
namespace Leviathan.FloatRound

section Model

/-- The nearest integer, the even one of two. -/
def roundEven (q : ℚ) : ℤ :=
  if 2*(q-⌊q⌋) < 1 then ⌊q⌋
  else if 1 < 2*(q-⌊q⌋) then ⌊q⌋+1
  else if ⌊q⌋%2 = 0 then ⌊q⌋
  else ⌊q⌋+1

-- the number of bits behind the leading one
variable (p : ℕ)

/-- The distance of the values around `q`. -/
def ulp (q : ℚ) : ℚ := (2 : ℚ)^(Int.log 2 |q|-p)

def round (q : ℚ) : ℚ := roundEven (q/ulp p q)*ulp p q

end Model

section Exact

variable (p : ℕ) (q : ℚ)

theorem roundEven_intCast (z : ℤ) : roundEven (z : ℚ) = z := by
  rw [roundEven, Int.floor_intCast, sub_self, mul_zero, if_pos zero_lt_one]

theorem ulp_pos : 0 < ulp p q := zpow_pos (by norm_num) _

/-- A value is kept exactly when it is a multiple of the distance of the values around it. -/
theorem round_eq_self_iff : round p q = q ↔ ∃ z : ℤ, q = z*ulp p q := by
  constructor
  · exact fun h => ⟨roundEven (q/ulp p q), h.symm⟩
  · rintro ⟨z, hz⟩
    have hdiv : q/ulp p q = z := (div_eq_iff (ulp_pos p q).ne').mpr hz
    rw [round, hdiv, roundEven_intCast]
    exact hz.symm

theorem ulp_intCast (z : ℤ) : ulp p z = (2 : ℚ)^((Nat.log 2 z.natAbs : ℤ)-p) := by
  rw [ulp, ← Int.cast_abs, Int.abs_eq_natAbs, Int.cast_natCast, Int.log_natCast]

/-- An integer is kept exactly when the bits that the format has no room for are 0. -/
theorem round_intCast_iff (z : ℤ) : round p z = z ↔ 2^(Nat.log 2 z.natAbs-p) ∣ z.natAbs := by
  rw [round_eq_self_iff, ulp_intCast]
  rcases le_total p (Nat.log 2 z.natAbs) with hle | hle
  · have hexp : (2 : ℚ)^((Nat.log 2 z.natAbs : ℤ)-p) = ((2^(Nat.log 2 z.natAbs-p) : ℕ) : ℤ) := by
      rw [← Int.natCast_sub hle, zpow_natCast]
      push_cast
      rfl
    rw [hexp, ← Int.natCast_dvd]
    constructor
    · rintro ⟨d, hd⟩
      exact ⟨d, by rw [mul_comm]; exact_mod_cast hd⟩
    · rintro ⟨d, hd⟩
      exact ⟨d, by rw [mul_comm]; exact_mod_cast hd⟩
  · rw [Nat.sub_eq_zero_of_le hle, pow_zero]
    apply iff_of_true _ (one_dvd _)
    refine ⟨z*2^(p-Nat.log 2 z.natAbs), ?_⟩
    have hcancel : ((2 : ℚ)^(p-Nat.log 2 z.natAbs))*(2 : ℚ)^((Nat.log 2 z.natAbs : ℤ)-p) = 1 := by
      rw [← zpow_natCast, ← zpow_add₀ (by norm_num), Int.natCast_sub hle, sub_add_sub_cancel, sub_self,
        zpow_zero]
    push_cast
    rw [mul_assoc, hcancel, mul_one]

theorem round_small (z : ℤ) (h : z.natAbs < 2^(p+1)) : round p z = z := by
  have hlog : Nat.log 2 z.natAbs ≤ p :=
    Nat.lt_succ_iff.mp (Nat.log_lt_of_lt_pow' (Nat.succ_ne_zero p) h)
  rw [round_intCast_iff, Nat.sub_eq_zero_of_le hlog, pow_zero]
  exact one_dvd _

end Exact

end Leviathan.FloatRound
