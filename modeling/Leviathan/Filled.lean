import Mathlib.Tactic

/-! Arrays that are filled from the front: some elements, and a default value in all cells behind them. -/
namespace Leviathan

variable {α : Type*}

/-- `n` cells, with `xs` in the first ones and `d` in the others. -/
structure Filled (d : α) (n : ℕ) (cells xs : List α) : Prop where
  le : xs.length ≤ n
  eq : cells = xs ++ List.replicate (n-xs.length) d

namespace Filled

variable (d : α) (n : ℕ) (cells xs : List α)

theorem empty : Filled d n (List.replicate n d) [] := ⟨Nat.zero_le n, rfl⟩

variable (h : Filled d n cells xs)

include h

theorem length : cells.length = n := by
  have hle := h.le
  rw [h.eq, List.length_append, List.length_replicate]
  omega

theorem getElem?_ge (i : ℕ) (hi : xs.length ≤ i) (hn : i < n) : cells[i]? = some d := by
  rw [h.eq, List.getElem?_append_right hi, List.getElem?_replicate, if_pos (by omega)]

theorem take : cells.take xs.length = xs := by
  rw [h.eq, List.take_left]

-- The next element goes to the first cell with the default value.
theorem set (x : α) (hroom : xs.length < n) : Filled d n (cells.set xs.length x) (xs ++ [x]) := by
  have hlen : (xs ++ [x]).length = xs.length+1 := by
    rw [List.length_append, List.length_singleton]
  have hrest : n-xs.length = (n-(xs.length+1))+1 := by omega
  refine ⟨hlen.le.trans hroom, ?_⟩
  rw [h.eq, List.set_append_right _ _ le_rfl, Nat.sub_self, hrest, List.replicate_succ, List.set_cons_zero,
    hlen, List.append_assoc, List.singleton_append]

-- More cells behind the array.
theorem grow (k : ℕ) : Filled d (n+k) (cells ++ List.replicate k d) xs := by
  have hle := h.le
  have hsplit : n+k-xs.length = (n-xs.length)+k := by omega
  refine ⟨hle.trans (Nat.le_add_right n k), ?_⟩
  rw [h.eq, hsplit, List.replicate_add, List.append_assoc]

end Filled

end Leviathan
