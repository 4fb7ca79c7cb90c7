import Mathlib.Tactic

/-! The search that walks once around `n` cells from a start position and stops
at the first free one. -/
namespace Leviathan

/-- Look at most `k` cells from position `i` on, going back to 0 at the end. -/
def scanFrom (n : ℕ) (free : ℕ → Bool) : ℕ → ℕ → Option ℕ
  | 0, _ => none
  | k+1, i =>
    let i' := if n ≤ i then 0 else i
    if free i' then some i' else scanFrom n free k (i'+1)

theorem wrapped_index_eq_mod (n i : ℕ) (hi : i ≤ n) :
    (if n ≤ i then 0 else i) = i%n := by
  rcases hi.lt_or_eq with h | h
  · rw [if_neg (by omega), Nat.mod_eq_of_lt h]
  · rw [if_pos h.ge, h, Nat.mod_self]

-- A start behind the cells is the start at cell 0.
theorem scanFrom_wrap (n : ℕ) (free : ℕ → Bool) (k i : ℕ) (hi : n ≤ i) :
    scanFrom n free k i = scanFrom n free k 0 := by
  cases k with
  | zero => rfl
  | succ k =>
    have hzero : (if n ≤ 0 then 0 else 0) = 0 := ite_self 0
    simp only [scanFrom, if_pos hi, hzero]

-- The scan returns the first free cell in circular order.
theorem scanFrom_some (n : ℕ) (free : ℕ → Bool) (hn : 0 < n) (k i j : ℕ) (hi : i ≤ n)
    (h : scanFrom n free k i = some j) :
    ∃ d < k, j = (i+d)%n ∧ free j = true ∧ ∀ e < d, free ((i+e)%n) = false := by
  induction k generalizing i with
  | zero => cases h
  | succ k ih =>
    simp only [scanFrom, wrapped_index_eq_mod n i hi] at h
    by_cases hf : free (i%n) = true
    · rw [if_pos hf] at h
      cases h
      exact ⟨0, by omega, rfl, hf, fun e he => absurd he (by omega)⟩
    · rw [if_neg hf] at h
      have hlt : i%n < n := Nat.mod_lt i hn
      obtain ⟨d, hd, hj, hfj, hb⟩ := ih (i%n+1) hlt h
      have hmod (e : ℕ) : (i%n+1+e)%n = (i+(e+1))%n := by
        rw [add_assoc, Nat.mod_add_mod, add_comm 1 e]
      refine ⟨d+1, by omega, by rw [hj, hmod], hfj, ?_⟩
      intro e he
      cases e with
      | zero => simpa using hf
      | succ e => rw [← hmod]; exact hb e (by omega)

-- A full turn that finds nothing has seen every cell taken.
theorem scanFrom_none (n : ℕ) (free : ℕ → Bool) (hn : 0 < n) (k i : ℕ) (hi : i ≤ n)
    (h : scanFrom n free k i = none) : ∀ d < k, free ((i+d)%n) = false := by
  induction k generalizing i with
  | zero => intro d hd; omega
  | succ k ih =>
    simp only [scanFrom, wrapped_index_eq_mod n i hi] at h
    by_cases hf : free (i%n) = true
    · rw [if_pos hf] at h
      cases h
    · rw [if_neg hf] at h
      intro d hd
      cases d with
      | zero => simpa using hf
      | succ d =>
        have hb := ih (i%n+1) (Nat.mod_lt i hn) h d (by omega)
        rwa [add_assoc, Nat.mod_add_mod, add_comm 1 d] at hb

-- The scan stays inside the array and stops on a free cell.
theorem scanFrom_free (n : ℕ) (free : ℕ → Bool) (hn : 0 < n) (k i j : ℕ) (hi : i ≤ n)
    (h : scanFrom n free k i = some j) : j < n ∧ free j = true := by
  obtain ⟨d, _, hj, hf, _⟩ := scanFrom_some n free hn k i j hi h
  exact ⟨hj ▸ Nat.mod_lt _ hn, hf⟩

-- Over a full turn, nothing found means nothing free.
theorem scanFrom_full_turn (n : ℕ) (free : ℕ → Bool) (i : ℕ) (hi : i ≤ n)
    (h : scanFrom n free n i = none) : ∀ j < n, free j = false := by
  intro j hj
  have hn : 0 < n := by omega
  have hb := scanFrom_none n free hn n i hi h ((j+(n-i%n))%n) (Nat.mod_lt _ hn)
  have hlt := Nat.mod_lt i hn
  have he : (i+(j+(n-i%n))%n)%n = j := by
    rw [Nat.add_mod_mod, ← Nat.mod_add_mod, show i%n+(j+(n-i%n)) = j+n by omega,
      Nat.add_mod_right, Nat.mod_eq_of_lt hj]
  rwa [he] at hb

-- What is found is free and among the cells, from any start.
theorem scanFrom_inside (n : ℕ) (free : ℕ → Bool) (hn : 0 < n) (k i j : ℕ)
    (h : scanFrom n free k i = some j) : j < n ∧ free j = true := by
  rcases le_total i n with hi | hi
  · exact scanFrom_free n free hn k i j hi h
  · rw [scanFrom_wrap n free k i hi] at h
    exact scanFrom_free n free hn k 0 j (Nat.zero_le n) h

-- A free cell is found from any start.
theorem scanFrom_finds (n : ℕ) (free : ℕ → Bool) (i : ℕ) (hfree : ∃ j < n, free j = true) :
    ∃ j, (j < n ∧ free j = true) ∧ scanFrom n free n i = some j := by
  obtain ⟨c, hc, hfc⟩ := hfree
  cases hfound : scanFrom n free n i with
  | none =>
    have htaken : free c = false := by
      rcases le_total i n with hi | hi
      · exact scanFrom_full_turn n free i hi hfound c hc
      · rw [scanFrom_wrap n free n i hi] at hfound
        exact scanFrom_full_turn n free 0 (Nat.zero_le n) hfound c hc
    rw [htaken] at hfc
    cases hfc
  | some j => exact ⟨j, scanFrom_inside n free (by omega) n i j hfound, rfl⟩

end Leviathan
