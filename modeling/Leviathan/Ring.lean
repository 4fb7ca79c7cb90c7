import Mathlib.Data.Option.Basic
import Mathlib.Logic.Function.Basic
import Mathlib.Tactic

/-! A ring of `n` cells: the elements from `front` on, one behind the other and on from cell 0 behind the
last cell. -/
namespace Leviathan.Ring

variable {α : Type*}

/-- The cell behind cell `i`. -/
def next (n i : ℕ) : ℕ := if i+1 = n then 0 else i+1

/-- From `front` on the cells hold the elements of `xs` and then nothing. -/
structure Holds (n : ℕ) (cell : ℕ → Option α) (front : ℕ) (xs : List α) : Prop where
  le : xs.length ≤ n
  front_lt : front < n
  cells : ∀ i < n, cell ((front+i)%n) = xs[i]?

variable (n : ℕ) (cell : ℕ → Option α) (front : ℕ) (xs : List α)

theorem next_eq_mod (i : ℕ) (hi : i < n) : next n i = (i+1)%n := by
  unfold next
  split_ifs with hend
  · rw [hend, Nat.mod_self]
  · rw [Nat.mod_eq_of_lt (by omega)]

theorem next_lt (i : ℕ) (hi : i < n) : next n i < n := by
  rw [next_eq_mod n i hi]
  exact Nat.mod_lt _ (by omega)

-- Different distances from the front lead to different cells.
theorem cell_ne (i j : ℕ) (hi : i < n) (hj : j < n) (hij : i ≠ j) : (front+i)%n ≠ (front+j)%n := by
  intro h
  have hmod : i%n = j%n := Nat.ModEq.add_left_cancel' front h
  rw [Nat.mod_eq_of_lt hi, Nat.mod_eq_of_lt hj] at hmod
  exact hij hmod

theorem holds_empty (hn : 0 < n) : Holds n (fun _ => (none : Option α)) 0 [] :=
  ⟨Nat.zero_le n, hn, fun _ _ => rfl⟩

variable (h : Holds n cell front xs)

include h

theorem Holds.head : cell front = xs.head? := by
  have hcell := h.cells 0 (Nat.zero_lt_of_lt h.front_lt)
  rwa [Nat.add_zero, Nat.mod_eq_of_lt h.front_lt, ← List.head?_eq_getElem?] at hcell

-- The cell behind the last element is empty, unless the ring is full.
theorem Holds.back_free (hroom : xs.length < n) : cell ((front+xs.length)%n) = none := by
  rw [h.cells _ hroom]
  exact List.getElem?_eq_none le_rfl

theorem Holds.push (a : α) (hroom : xs.length < n) :
    Holds n (Function.update cell ((front+xs.length)%n) (some a)) front (xs ++ [a]) := by
  refine ⟨?_, h.front_lt, ?_⟩
  · rw [List.length_append, List.length_singleton]
    exact hroom
  · intro i hi
    by_cases heq : i = xs.length
    · rw [heq, Function.update_self, List.getElem?_concat_length]
    · rw [Function.update_of_ne (cell_ne n front i _ hi hroom heq), h.cells i hi]
      rcases lt_or_gt_of_ne heq with hlt | hgt
      · rw [List.getElem?_append_left hlt]
      · rw [List.getElem?_eq_none hgt.le, List.getElem?_eq_none]
        rw [List.length_append, List.length_singleton]
        exact hgt

theorem Holds.pop (hne : xs ≠ []) :
    Holds n (Function.update cell front none) (next n front) xs.tail := by
  have hpos : 0 < xs.length := List.length_pos_iff.mpr hne
  have hle := h.le
  refine ⟨by rw [List.length_tail]; omega, next_lt n front h.front_lt, ?_⟩
  intro i hi
  have hindex : (next n front+i)%n = (front+(i+1))%n := by
    rw [next_eq_mod n front h.front_lt, Nat.mod_add_mod]
    congr 1
    omega
  rw [hindex, List.getElem?_tail]
  rcases Nat.lt_or_ge (i+1) n with hlt | hge
  · have hother : (front+(i+1))%n ≠ front := by
      have hcell := cell_ne n front (i+1) 0 hlt (by omega) (Nat.succ_ne_zero i)
      rwa [Nat.add_zero front, Nat.mod_eq_of_lt h.front_lt] at hcell
    rw [Function.update_of_ne hother, h.cells (i+1) hlt]
  · -- once around the ring, to the cell that has been emptied
    obtain rfl : n = i+1 := by omega
    rw [Nat.add_mod_right, Nat.mod_eq_of_lt h.front_lt, Function.update_self,
      List.getElem?_eq_none hle]

-- The cell behind the last element goes on with a push and stays with a pop.
omit h in
theorem back_push (k : ℕ) (hn : 0 < n) : next n ((front+k)%n) = (front+(k+1))%n := by
  rw [next_eq_mod n _ (Nat.mod_lt _ hn), Nat.mod_add_mod, Nat.add_assoc]

omit h in
theorem back_pop (k : ℕ) (hfront : front < n) : (next n front+k)%n = (front+(k+1))%n := by
  rw [next_eq_mod n front hfront, Nat.mod_add_mod, Nat.add_assoc, Nat.add_comm 1 k]

end Leviathan.Ring
