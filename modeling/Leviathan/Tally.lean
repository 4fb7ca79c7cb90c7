import Mathlib.Algebra.BigOperators.Group.List.Lemmas
import Mathlib.Algebra.GroupWithZero.Nat
import Mathlib.Data.Finset.Card
import Mathlib.Data.List.Dedup

/-! Counting how often each value of a list occurs: one entry for each value, in the order in which
they first came up. -/
namespace Leviathan.Tally

variable {α β : Type*}

/-- `keys` are the values of `xs`, each once. -/
structure Distinct (keys xs : List α) : Prop where
  nodup : keys.Nodup
  mem_iff : ∀ v, v ∈ keys ↔ v ∈ xs

theorem distinct_nil : Distinct ([] : List α) [] := ⟨List.nodup_nil, fun _ => Iff.rfl⟩

theorem Distinct.again (keys xs : List α) (v : α) (h : Distinct keys xs) (hv : v ∈ xs) :
    Distinct keys (xs ++ [v]) := by
  refine ⟨h.nodup, fun w => ?_⟩
  rw [h.mem_iff, List.mem_append, List.mem_singleton]
  constructor
  · exact Or.inl
  · intro hw
    apply hw.elim id
    intro heq
    rwa [heq]

theorem Distinct.first (keys xs : List α) (v : α) (h : Distinct keys xs) (hv : v ∉ xs) :
    Distinct (keys ++ [v]) (xs ++ [v]) := by
  refine ⟨?_, fun w => ?_⟩
  · rw [List.nodup_append]
    refine ⟨h.nodup, List.nodup_singleton v, ?_⟩
    intro w hw u hu heq
    rw [List.mem_singleton.mp hu] at heq
    exact hv ((h.mem_iff v).mp (heq ▸ hw))
  · rw [List.mem_append, List.mem_append, h.mem_iff]

section Entries

variable [DecidableEq α]

/-- The entry of each key, made of the key and its count. -/
def entries (f : α → ℕ → β) (keys xs : List α) : List β := keys.map (fun v => f v (xs.count v))

variable (f : α → ℕ → β) (keys xs : List α) (v : α)

theorem length_entries : (entries f keys xs).length = keys.length := List.length_map _

theorem getElem?_entries (i : ℕ) :
    (entries f keys xs)[i]? = keys[i]?.map (fun v => f v (xs.count v)) := List.getElem?_map

variable (h : Distinct keys xs)

include h

-- A value that has an entry changes the count there.
theorem Distinct.entries_again (i : ℕ) (hi : keys[i]? = some v) :
    entries f keys (xs ++ [v]) = (entries f keys xs).set i (f v (xs.count v+1)) := by
  apply List.ext_getElem?
  intro j
  rw [List.getElem?_set, getElem?_entries, length_entries]
  obtain ⟨hlt, hget⟩ := List.getElem?_eq_some_iff.mp hi
  by_cases hij : i = j
  · subst hij
    rw [if_pos rfl, if_pos hlt, hi, Option.map_some, List.count_append, List.count_singleton_self]
  · rw [if_neg hij, getElem?_entries]
    apply Option.map_congr
    intro w hw
    have hne : w ≠ v := by
      intro heq
      obtain ⟨hj, hwj⟩ := List.getElem?_eq_some_iff.mp hw
      exact hij ((h.nodup.getElem_inj_iff).mp (hget.trans (heq ▸ hwj.symm)))
    rw [List.count_append, List.count_singleton, if_neg (by simpa using Ne.symm hne), Nat.add_zero]

-- A new value gets the next entry.
theorem Distinct.entries_first (hv : v ∉ xs) :
    entries f (keys ++ [v]) (xs ++ [v]) = entries f keys xs ++ [f v 1] := by
  rw [entries, List.map_append, List.map_singleton, List.count_append, List.count_singleton_self,
    List.count_eq_zero_of_not_mem hv, Nat.zero_add]
  congr 1
  apply List.map_congr_left
  intro w hw
  have hne : v ≠ w := fun heq => hv ((h.mem_iff v).mp (heq ▸ hw))
  rw [List.count_append, List.count_singleton, if_neg (by simpa using hne), Nat.add_zero]

theorem Distinct.perm_dedup : keys.Perm xs.dedup := by
  rw [List.perm_ext_iff_of_nodup h.nodup (List.nodup_dedup xs)]
  intro w
  rw [h.mem_iff, List.mem_dedup]

theorem Distinct.card : keys.length = xs.toFinset.card := by
  rw [List.card_toFinset, (h.perm_dedup keys xs).length_eq]

/-- The counts add up to the number of values. -/
theorem Distinct.sum_count : (keys.map (fun v => xs.count v)).sum = xs.length := by
  rw [((h.perm_dedup keys xs).map _).sum_eq]
  exact List.sum_map_count_dedup_eq_length xs

end Entries

end Leviathan.Tally
