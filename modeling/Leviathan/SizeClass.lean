import Leviathan.CTypes

/-! The size classes of `comBufPool.h`: class `k` holds blocks of `2^k` bytes. -/
namespace Leviathan

/-- The last class with a pool, `IDX_BUF_2m`. -/
def idxBuf2m : ℕ := 21

def idxBufMax : ℕ := 22

def g_nSizeList : List ℕ :=
  [1, 2, 4, 8, 16, 32, 64, 128, 256, 512, 1024, 2048, 4096, 8192, 16384, 32768, 65536, 131072,
    262144, 524288, 1048576, 2097152]

def getSizeByIndex (nIdx : ℕ) : ℕ := g_nSizeList.getD nIdx 0

/-- `getIndex(s)` for a positive `s`: `m` is the exponent of `s` as a double. -/
def getIndex (s : ℕ) : ℕ :=
  let m := Nat.log2 s
  m+(if s &&& (s-(1 <<< m)) ≠ 0 then 1 else 0)

theorem getSizeByIndex_eq (k : ℕ) (hk : k < idxBufMax) : getSizeByIndex k = 2^k := by
  unfold idxBufMax at hk
  interval_cases k <;> rfl

-- Below its leading bit a number agrees with what is left when that bit is taken off.
theorem and_sub_leading (s m : ℕ) (hl : 2^m ≤ s) (hu : s < 2^(m+1)) : s &&& (s-2^m) = s-2^m := by
  have hr : s-2^m < 2^m := by
    rw [pow_succ] at hu
    omega
  apply Nat.eq_of_testBit_eq
  intro i
  rw [Nat.testBit_and]
  rcases lt_or_ge i m with hi | hi
  · have hs : s.testBit i = (s-2^m).testBit i := by
      conv_lhs => rw [show s = 2^m+(s-2^m) by omega]
      exact Nat.testBit_two_pow_add_gt hi _
    rw [hs, Bool.and_self]
  · have hz : (s-2^m).testBit i = false :=
      Nat.testBit_lt_two_pow (hr.trans_le (Nat.pow_le_pow_right (by decide) hi))
    rw [hz, Bool.and_false]

theorem getIndex_spec (s : ℕ) (hs : 1 ≤ s) :
    (s = 2^(Nat.log2 s) ∧ getIndex s = Nat.log2 s) ∨
      (2^(Nat.log2 s) < s ∧ s < 2^(Nat.log2 s+1) ∧ getIndex s = Nat.log2 s+1) := by
  have hl : 2^(Nat.log2 s) ≤ s := Nat.log2_self_le (by omega)
  have hu : s < 2^(Nat.log2 s+1) := Nat.lt_log2_self
  have hand : s &&& (s-(1 <<< Nat.log2 s)) = s-2^(Nat.log2 s) := by
    rw [Nat.one_shiftLeft]
    exact and_sub_leading s _ hl hu
  rcases hl.lt_or_eq with h | h
  · refine Or.inr ⟨h, hu, ?_⟩
    simp only [getIndex, hand]
    rw [if_pos (by omega)]
  · refine Or.inl ⟨h.symm, ?_⟩
    simp only [getIndex, hand]
    rw [if_neg (by omega), Nat.add_zero]

-- `getIndex` is the least class that is large enough.
theorem getIndex_isLeast (s : ℕ) (hs : 1 ≤ s) : IsLeast {k | s ≤ 2^k} (getIndex s) := by
  rcases getIndex_spec s hs with ⟨he, hi⟩ | ⟨hl, hu, hi⟩
  · rw [hi]
    refine ⟨he.le, fun k hk => ?_⟩
    exact (Nat.pow_le_pow_iff_right (by decide)).mp (he ▸ hk : 2^(Nat.log2 s) ≤ 2^k)
  · rw [hi]
    refine ⟨hu.le, fun k hk => ?_⟩
    exact (Nat.pow_lt_pow_iff_right (by decide)).mp (hl.trans_le hk)

theorem le_two_pow_getIndex (s : ℕ) (hs : 1 ≤ s) : s ≤ 2^(getIndex s) := (getIndex_isLeast s hs).1

@[simp] theorem getIndex_two_pow (k : ℕ) : getIndex (2^k) = k := by
  have h := getIndex_isLeast (2^k) Nat.one_le_two_pow
  exact le_antisymm (h.2 (show 2^k ≤ 2^k from le_rfl)) ((Nat.pow_le_pow_iff_right (by decide)).mp h.1)

-- `getIndex(1)` is class 0, the class that never has a pool.
theorem getIndex_eq_zero_iff (s : ℕ) (hs : 1 ≤ s) : getIndex s = 0 ↔ s = 1 := by
  constructor
  · intro h
    have hle := le_two_pow_getIndex s hs
    rw [h] at hle
    omega
  · rintro rfl
    exact getIndex_two_pow 0

end Leviathan
