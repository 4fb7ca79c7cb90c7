import Mathlib.Data.List.Induction
import Mathlib.Order.Bounds.Basic

/-! A running minimum and maximum: a value that lowers the minimum is not compared with the maximum
any more. -/
namespace Leviathan.RunningBounds

variable {α : Type*} [LinearOrder α]

def widen (s : α × α) (x : α) : α × α :=
  if x < s.1 then (x, s.2) else if s.2 < x then (s.1, x) else s

/-- The least and the greatest of the values. -/
structure Bounds (s : α × α) (xs : List α) : Prop where
  least : IsLeast {x | x ∈ xs} s.1
  greatest : IsGreatest {x | x ∈ xs} s.2

variable (s : α × α) (a x : α) (xs : List α)

theorem bounds_single : Bounds (a, a) [a] := by
  constructor
  · exact ⟨List.mem_singleton_self a, fun x hx => (List.mem_singleton.mp hx).ge⟩
  · exact ⟨List.mem_singleton_self a, fun x hx => (List.mem_singleton.mp hx).le⟩

-- The minimum is at most the maximum, so a value below the one is not above the other.
theorem Bounds.widen (h : Bounds s xs) : Bounds (widen s x) (xs ++ [x]) := by
  have hle : s.1 ≤ s.2 := h.least.2 h.greatest.1
  have hold (y : α) (hy : y ∈ xs) : y ∈ xs ++ [x] := List.mem_append_left _ hy
  have hnew : x ∈ xs ++ [x] := List.mem_append_right _ (List.mem_singleton_self x)
  have hmem (y : α) (hy : y ∈ xs ++ [x]) : s.1 ≤ y ∧ y ≤ s.2 ∨ y = x := by
    rw [List.mem_append, List.mem_singleton] at hy
    exact hy.imp_left (fun hy => ⟨h.least.2 hy, h.greatest.2 hy⟩)
  unfold RunningBounds.widen
  split_ifs with hlt hgt
  · refine ⟨⟨hnew, fun y hy => ?_⟩, ⟨hold _ h.greatest.1, fun y hy => ?_⟩⟩
    · exact (hmem y hy).elim (fun hy => hlt.le.trans hy.1) (fun hy => hy.ge)
    · exact (hmem y hy).elim And.right (fun hy => hy.le.trans (hlt.le.trans hle))
  · refine ⟨⟨hold _ h.least.1, fun y hy => ?_⟩, ⟨hnew, fun y hy => ?_⟩⟩
    · exact (hmem y hy).elim And.left (fun hy => (hle.trans hgt.le).trans hy.ge)
    · exact (hmem y hy).elim (fun hy => hy.2.trans hgt.le) (fun hy => hy.le)
  · refine ⟨⟨hold _ h.least.1, fun y hy => ?_⟩, ⟨hold _ h.greatest.1, fun y hy => ?_⟩⟩
    · exact (hmem y hy).elim And.left (fun hy => (not_lt.mp hlt).trans hy.ge)
    · exact (hmem y hy).elim And.right (fun hy => hy.le.trans (not_lt.mp hgt))

/-- From one value on, the run ends at the bounds of this value and the others. -/
theorem foldl_bounds : Bounds (xs.foldl widen (a, a)) (a :: xs) := by
  induction xs using List.reverseRecOn with
  | nil => exact bounds_single a
  | append_singleton xs x ih =>
    rw [List.foldl_append, List.foldl_cons, List.foldl_nil]
    exact ih.widen _ x _

end Leviathan.RunningBounds
