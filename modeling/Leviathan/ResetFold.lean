import Mathlib.Data.List.Induction
import Mathlib.Order.Bounds.Basic
import Mathlib.Order.MinMax

/-! A running minimum or maximum whose marked values stand for "nothing yet": the next value replaces them, whatever
it is. -/
namespace Leviathan.ResetFold

variable {α : Type*} [LinearOrder α] (unset : α → Prop) [DecidablePred unset]

def resetMin (a b : α) : α := if unset a then b else min a b

def resetMax (a b : α) : α := if unset a then b else max a b

variable (a m : α) (xs : List α)

theorem resetMin_or (b : α) : resetMin unset a b = a ∨ resetMin unset a b = b := by
  unfold resetMin
  split_ifs
  · exact Or.inr rfl
  · exact min_choice a b

theorem resetMax_or (b : α) : resetMax unset a b = a ∨ resetMax unset a b = b := by
  unfold resetMax
  split_ifs
  · exact Or.inr rfl
  · exact max_choice a b

theorem foldl_concat (b : α) :
    (xs ++ [b]).foldl (resetMin unset) a = resetMin unset (xs.foldl (resetMin unset) a) b := by
  rw [List.foldl_append, List.foldl_cons, List.foldl_nil]

-- The first value replaces the start, so the result is one of the values.
theorem foldl_mem (ha : unset a) (hne : xs ≠ []) : xs.foldl (resetMin unset) a ∈ xs := by
  induction xs using List.reverseRecOn with
  | nil => exact absurd rfl hne
  | append_singleton xs b ih =>
    rw [foldl_concat, List.mem_append, List.mem_singleton]
    by_cases hxs : xs = []
    · subst hxs
      exact Or.inr (if_pos ha)
    · apply (resetMin_or unset _ b).imp_left
      intro heq
      rw [heq]
      exact ih hxs

/-- The running minimum ends at the least value exactly when that value is not marked, or comes last. -/
theorem foldl_eq_least_iff (ha : unset a) (hm : IsLeast {x | x ∈ xs} m) :
    xs.foldl (resetMin unset) a = m ↔ ¬unset m ∨ xs.getLast? = some m := by
  induction xs using List.reverseRecOn generalizing m with
  | nil => exact absurd hm.1 List.not_mem_nil
  | append_singleton xs b ih =>
    rw [foldl_concat, List.getLast?_concat, Option.some_inj]
    have hleast (x : α) (hx : x ∈ xs) : m ≤ x := hm.2 (List.mem_append_left _ hx)
    have hmb : m ≤ b := hm.2 (List.mem_append_right _ (List.mem_singleton_self b))
    by_cases hxs : xs = []
    · subst hxs
      have hb : m = b := List.mem_singleton.mp hm.1
      rw [List.foldl_nil, resetMin, if_pos ha, hb]
      exact iff_of_true rfl (Or.inr rfl)
    have hmem := foldl_mem unset a xs ha hxs
    by_cases hbm : b = m
    · -- the value comes last, and is taken in either way
      apply iff_of_true _ (Or.inr hbm)
      rw [resetMin, hbm]
      split_ifs
      · rfl
      · exact min_eq_right (hleast _ hmem)
    · have hin : m ∈ xs := by
        apply (List.mem_append.mp hm.1).resolve_right
        intro h
        exact hbm (List.mem_singleton.mp h).symm
      have hlt : m < b := lt_of_le_of_ne hmb (Ne.symm hbm)
      have hrun := ih m ⟨hin, hleast⟩
      rw [or_iff_left hbm]
      constructor
      · intro h hunset
        rw [resetMin] at h
        split_ifs at h with hs
        · exact hbm h
        · have hsm : xs.foldl (resetMin unset) a = m := by
            rcases min_choice (xs.foldl (resetMin unset) a) b with hl | hr
            · exact hl.symm.trans h
            · exact absurd (hr.symm.trans h) hbm
          exact hs (hsm ▸ hunset)
      · intro hunset
        rw [hrun.mpr (Or.inl hunset), resetMin, if_neg hunset]
        exact min_eq_left hmb

/-- The order of the values does not matter exactly when the least one is not marked, or is the only
value. -/
theorem foldl_perm_iff (ha : unset a) (hm : IsLeast {x | x ∈ xs} m) :
    (∀ ys : List α, ys.Perm xs → ys.foldl (resetMin unset) a = m) ↔ ¬unset m ∨ ∀ x ∈ xs, x = m := by
  have hperm (ys : List α) (h : ys.Perm xs) : IsLeast {x | x ∈ ys} m :=
    ⟨h.mem_iff.mpr hm.1, fun x hx => hm.2 (h.mem_iff.mp hx)⟩
  constructor
  · intro hall
    by_contra hnot
    rw [not_or, not_not, not_forall] at hnot
    obtain ⟨hunset, x, hx⟩ := hnot
    rw [Classical.not_imp] at hx
    obtain ⟨hxs, hne⟩ := hx
    obtain ⟨s, t, rfl⟩ := List.append_of_mem hxs
    have hlast : (s ++ t ++ [x]).Perm (s ++ x :: t) := by
      rw [List.append_assoc]
      exact (List.perm_append_singleton x t).append_left s
    rcases (foldl_eq_least_iff unset a m _ ha (hperm _ hlast)).mp (hall _ hlast) with h | h
    · exact h hunset
    · rw [List.getLast?_concat] at h
      exact hne (Option.some.inj h)
  · intro hcond ys hys
    apply (foldl_eq_least_iff unset a m ys ha (hperm ys hys)).mpr
    apply hcond.imp_right
    intro hsame
    have hne : ys ≠ [] := List.ne_nil_of_mem (hperm ys hys).1
    rw [List.getLast?_eq_some_getLast hne, hsame _ (hys.mem_iff.mp (List.getLast_mem hne))]

-- In the reverse order the minimum is the maximum.
theorem resetMin_dual : @resetMin αᵒᵈ _ unset ‹_› = resetMax unset := rfl

theorem foldl_eq_greatest_iff (ha : unset a) (hm : IsGreatest {x | x ∈ xs} m) :
    xs.foldl (resetMax unset) a = m ↔ ¬unset m ∨ xs.getLast? = some m := by
  rw [← resetMin_dual]
  exact @foldl_eq_least_iff αᵒᵈ _ unset ‹_› a m xs ha hm

theorem foldl_max_perm_iff (ha : unset a) (hm : IsGreatest {x | x ∈ xs} m) :
    (∀ ys : List α, ys.Perm xs → ys.foldl (resetMax unset) a = m) ↔ ¬unset m ∨ ∀ x ∈ xs, x = m := by
  rw [← resetMin_dual]
  exact @foldl_perm_iff αᵒᵈ _ unset ‹_› a m xs ha hm

end Leviathan.ResetFold
