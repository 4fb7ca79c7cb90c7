import Mathlib.Data.List.GetD
import Mathlib.Data.List.Range
import Mathlib.Data.Multiset.AddSub
import Mathlib.Tactic

/-! Cells that hold at most one object each: what lies in the first `n` of them, what a store and a
removal do to it, and the walk from one object to the next. -/
namespace Leviathan.Slots

variable {α : Type*} (n : ℕ) (cell : ℕ → Option α)

/-- The objects in the first `n` cells, in the order of the cells. -/
def contents : List α := (List.range n).filterMap cell

theorem contents_succ : contents (n+1) cell = contents n cell ++ (cell n).toList := by
  rw [contents, List.range_succ, List.filterMap_append]
  apply congrArg (contents n cell ++ ·)
  cases h : cell n with
  | none => simp [h]
  | some a => simp [h]

theorem contents_congr (cell' : ℕ → Option α) (h : ∀ i < n, cell i = cell' i) :
    contents n cell = contents n cell' := by
  apply List.filterMap_congr
  intro i hi
  exact h i (List.mem_range.mp hi)

theorem mem_contents (a : α) : a ∈ contents n cell ↔ ∃ i < n, cell i = some a := by
  simp [contents]

theorem contents_none : contents n (fun _ => (none : Option α)) = [] := by
  apply List.filterMap_eq_nil_iff.mpr
  intro i _
  rfl

theorem length_contents_le : (contents n cell).length ≤ n := by
  calc (contents n cell).length ≤ (List.range n).length := List.length_filterMap_le _ _
    _ = n := List.length_range

-- Cells without an object at the end count for nothing.
theorem contents_add (k : ℕ) (h : ∀ i, n ≤ i → i < n+k → cell i = none) :
    contents (n+k) cell = contents n cell := by
  induction k with
  | zero => rfl
  | succ k ih =>
    rw [← add_assoc, contents_succ, h (n+k) (by omega) (by omega), ih (fun i hi hk => h i hi (by omega))]
    exact List.append_nil _

section Change

variable (i : ℕ) (hi : i < n) (a : α)

include hi

-- The other cells, with cell `i` as it was or with another content.
theorem contents_update (o : Option α) : ∃ rest : Multiset α,
    (contents n cell : Multiset α) = rest+((cell i).toList : Multiset α) ∧
      (contents n (Function.update cell i o) : Multiset α) = rest+(o.toList : Multiset α) := by
  induction n with
  | zero => omega
  | succ n ih =>
    rw [contents_succ, contents_succ, ← Multiset.coe_add, ← Multiset.coe_add]
    by_cases hin : i = n
    · subst hin
      have hsame : contents i (Function.update cell i o) = contents i cell := by
        apply contents_congr
        intro j hj
        exact Function.update_of_ne hj.ne _ _
      rw [hsame, Function.update_self]
      exact ⟨_, rfl, rfl⟩
    · obtain ⟨rest, hold, hnew⟩ := ih (by omega)
      rw [hold, hnew, Function.update_of_ne (Ne.symm hin)]
      exact ⟨rest+((cell n).toList : Multiset α), add_right_comm _ _ _, add_right_comm _ _ _⟩

theorem contents_put (hfree : cell i = none) :
    (contents n (Function.update cell i (some a)) : Multiset α) = a ::ₘ contents n cell := by
  obtain ⟨rest, hold, hnew⟩ := contents_update n cell i hi (some a)
  rw [hold, hnew, hfree]
  exact (add_comm _ _).trans (congrArg (a ::ₘ ·) (add_zero rest).symm)

theorem contents_take (htaken : cell i = some a) :
    (contents n cell : Multiset α) = a ::ₘ contents n (Function.update cell i none) := by
  obtain ⟨rest, hold, hnew⟩ := contents_update n cell i hi none
  rw [hold, hnew, htaken]
  exact (add_comm _ _).trans (congrArg (a ::ₘ ·) (add_zero rest).symm)

theorem length_put (hfree : cell i = none) :
    (contents n (Function.update cell i (some a))).length = (contents n cell).length+1 := by
  have hput := congrArg Multiset.card (contents_put n cell i hi a hfree)
  simpa using hput

theorem length_take (htaken : cell i = some a) :
    (contents n cell).length = (contents n (Function.update cell i none)).length+1 := by
  have htake := congrArg Multiset.card (contents_take n cell i hi a htaken)
  simpa using htake

-- A cell that holds an object may hold another one.
theorem length_update (htaken : cell i ≠ none) :
    (contents n (Function.update cell i (some a))).length = (contents n cell).length := by
  obtain ⟨b, hb⟩ := Option.ne_none_iff_exists'.mp htaken
  obtain ⟨rest, hold, hnew⟩ := contents_update n cell i hi (some a)
  rw [hb] at hold
  have hcard := congrArg Multiset.card hold
  have hcard' := congrArg Multiset.card hnew
  simp only [Multiset.coe_card, Multiset.card_add, Option.toList_some, List.length_singleton] at hcard hcard'
  rw [hcard, hcard']

end Change

-- Without a free cell there are `n` objects.
theorem length_contents_of_taken (h : ∀ i < n, cell i ≠ none) : (contents n cell).length = n := by
  induction n with
  | zero => rfl
  | succ n ih =>
    obtain ⟨a, ha⟩ := Option.ne_none_iff_exists'.mp (h n (Nat.lt_succ_self n))
    rw [contents_succ, List.length_append, ih (fun i hi => h i (Nat.lt_succ_of_lt hi)), ha]
    rfl

theorem exists_free (h : (contents n cell).length < n) : ∃ i < n, cell i = none := by
  by_contra hno
  have htaken : ∀ i < n, cell i ≠ none := fun i hi hfree => hno ⟨i, hi, hfree⟩
  have hfull := length_contents_of_taken n cell htaken
  omega

-- With a free cell there are fewer.
theorem length_contents_lt (i : ℕ) (hi : i < n) (hfree : cell i = none) :
    (contents n cell).length < n := by
  induction n with
  | zero => omega
  | succ n ih =>
    rw [contents_succ, List.length_append]
    by_cases hin : i = n
    · have hle := length_contents_le n cell
      rw [← hin, hfree, hin]
      exact Nat.lt_succ_of_le hle
    · have hlt := ih (by omega)
      cases cell n with
      | none => exact Nat.lt_succ_of_lt hlt
      | some a => exact Nat.succ_lt_succ hlt

section Array

variable (a : List (Option α))

-- The cells of an array after a store.
theorem getD_set (i : ℕ) (hi : i < a.length) (o : Option α) :
    (fun j => (a.set i o).getD j none) = Function.update (fun j => a.getD j none) i o := by
  ext1 j
  rw [Function.update_apply]
  by_cases h : j = i
  · rw [if_pos h, h, List.getD_eq_getElem?_getD, List.getElem?_set_self hi]
    rfl
  · rw [if_neg h, List.getD_eq_getElem?_getD, List.getElem?_set_ne (Ne.symm h),
      List.getD_eq_getElem?_getD]

-- Empty cells behind an array change none of them.
theorem getD_append_none (k : ℕ) :
    (fun j => (a ++ List.replicate k none).getD j none) = fun j => a.getD j none := by
  ext1 j
  rcases lt_or_ge j a.length with hj | hj
  · rw [List.getD_append _ _ _ _ hj]
  · rw [List.getD_append_right _ _ _ _ hj, List.getD_eq_default _ _ hj, List.getD_eq_getElem?_getD,
      List.getElem?_replicate]
    split_ifs <;> rfl

theorem getD_replicate_none (k : ℕ) : (fun j => (List.replicate k none).getD j (none : Option α)) =
    fun _ => none := getD_append_none [] k

end Array

section Walk

/-- The first object from cell `i` on, with `k` cells left, and its cell. -/
def nextFrom : ℕ → ℕ → Option (ℕ × α)
  | 0, _ => none
  | k+1, i =>
    match cell i with
    | some a => some (i, a)
    | none => nextFrom k (i+1)

/-- The first object from cell `i` on. -/
def next (i : ℕ) : Option (ℕ × α) := nextFrom cell (n-i) i

end Walk

/-- The first `n` cells with a set flag. -/
def marked (flag : ℕ → Bool) : Finset ℕ := (Finset.range n).filter (fun i => flag i = true)

section Marked

variable (flag : ℕ → Bool)

theorem mem_marked (i : ℕ) : i ∈ marked n flag ↔ i < n ∧ flag i = true := by
  rw [marked, Finset.mem_filter, Finset.mem_range]

theorem card_marked_le : (marked n flag).card ≤ n := by
  calc (marked n flag).card ≤ (Finset.range n).card := Finset.card_filter_le _ _
    _ = n := Finset.card_range n

theorem marked_none (h : ∀ i < n, flag i = false) : marked n flag = ∅ := by
  apply Finset.filter_eq_empty_iff.mpr
  intro i hi
  rw [h i (Finset.mem_range.mp hi)]
  exact Bool.false_ne_true

-- All flags are set when there are `n` of them.
theorem card_marked_eq_iff : (marked n flag).card = n ↔ ∀ i < n, flag i = true := by
  have hcard := Finset.card_filter_eq_iff (s := Finset.range n) (p := fun i => flag i = true)
  rw [Finset.card_range] at hcard
  exact hcard.trans ⟨fun h i hi => h i (Finset.mem_range.mpr hi), fun h i hi => h i (Finset.mem_range.mp hi)⟩

variable (i : ℕ) (hi : i < n)

theorem marked_clear : marked n (Function.update flag i false) = (marked n flag).erase i := by
  ext j
  rw [mem_marked, Finset.mem_erase, mem_marked, Function.update_apply]
  by_cases hj : j = i
  · simp [hj]
  · simp [hj]

include hi

theorem marked_set : marked n (Function.update flag i true) = insert i (marked n flag) := by
  ext j
  rw [mem_marked, Finset.mem_insert, mem_marked, Function.update_apply]
  by_cases hj : j = i
  · simp [hj, hi]
  · simp [hj]

theorem card_marked_set (hfree : flag i = false) :
    (marked n (Function.update flag i true)).card = (marked n flag).card+1 := by
  rw [marked_set n flag i hi, Finset.card_insert_of_notMem]
  rw [mem_marked, hfree]
  exact fun h => Bool.false_ne_true h.2

theorem card_marked_clear (hset : flag i = true) :
    (marked n flag).card = (marked n (Function.update flag i false)).card+1 := by
  rw [marked_clear, Finset.card_erase_add_one]
  exact (mem_marked n flag i).mpr ⟨hi, hset⟩

section Count

-- A counter of the set flags, whose values up to `n` are not wrapped.
variable (wrap : ℤ → ℤ) (hwrap : ∀ z : ℤ, 0 ≤ z → z ≤ n → wrap z = z) (use : ℤ)
variable (huse : use = (marked n flag).card)

include hwrap huse

theorem count_set (hfree : flag i = false) :
    wrap (use+1) = (marked n (Function.update flag i true)).card := by
  have hcard := card_marked_set n flag i hi hfree
  have hle := card_marked_le n (Function.update flag i true)
  rw [hwrap _ (by omega) (by omega), huse, hcard]
  push_cast
  rfl

theorem count_clear (hset : flag i = true) :
    wrap (use-1) = (marked n (Function.update flag i false)).card := by
  have hcard := card_marked_clear n flag i hi hset
  have hle := card_marked_le n flag
  rw [hwrap _ (by omega) (by omega), huse, hcard]
  push_cast
  ring

end Count

end Marked

-- The cells that hold their own number where the flag is set.
theorem contents_flags (flag : ℕ → Bool) :
    contents n (fun i => if flag i then some i else none) = (List.range n).filter flag := by
  have hguard : (fun i => if flag i then some i else none) = Option.guard (fun i => flag i) := by
    ext1 i
    rw [Option.guard]
  rw [contents, hguard, List.filterMap_eq_filter]

theorem sorted_flags (flag : ℕ → Bool) :
    (contents n (fun i => if flag i then some i else none)).Pairwise (· < ·) := by
  rw [contents_flags]
  exact List.pairwise_lt_range.filter flag

/-- The walk that goes on behind every position it is told finds the objects of the list one by one
and then comes to its end. -/
inductive Visits {P : Type*} (nextOf : P → Option (P × α)) (behind : P → P) : P → List α → Prop
  | done (p : P) (h : nextOf p = none) : Visits nextOf behind p []
  | found (p q : P) (a : α) (xs : List α) (h : nextOf p = some (q, a))
      (hxs : Visits nextOf behind (behind q) xs) : Visits nextOf behind p (a :: xs)

section Walk

variable {P : Type*} (nextOf : P → Option (P × α)) (behind : P → P)

-- A walk depends on its position only through what is found from there.
theorem visits_congr (p q : P) (xs : List α) (hpq : nextOf p = nextOf q)
    (h : Visits nextOf behind p xs) : Visits nextOf behind q xs := by
  cases h with
  | done _ hp => exact Visits.done q (hpq.symm.trans hp)
  | found _ r a xs hp hxs => exact Visits.found q r a xs (hpq.symm.trans hp) hxs

theorem next_eq (i : ℕ) (hi : i < n) : next n cell i =
    match cell i with
    | some a => some (i, a)
    | none => next n cell (i+1) := by
  have hrest : n-i = (n-(i+1))+1 := by omega
  rw [next, hrest]
  rfl

theorem visits_from (k i : ℕ) (hn : i+k = n) :
    Visits (next n cell) (· + 1) i ((List.range' i k).filterMap cell) := by
  induction k generalizing i with
  | zero =>
    apply Visits.done
    rw [next, ← hn, add_zero, Nat.sub_self]
    rfl
  | succ k ih =>
    have hnext := next_eq n cell i (by omega)
    have htail := ih (i+1) (by omega)
    rw [List.range'_succ]
    cases hi : cell i with
    | some a =>
      rw [List.filterMap_cons_some hi]
      rw [hi] at hnext
      exact Visits.found i i a _ hnext htail
    | none =>
      rw [List.filterMap_cons_none hi]
      rw [hi] at hnext
      exact visits_congr _ _ (i+1) i _ hnext.symm htail

section Rows

variable (row : ℕ → ℕ → Option (ℕ × α)) (nextIn : ℕ × ℕ → Option ((ℕ × ℕ) × ℕ × α)) (m : ℕ)
variable (hnext : ∀ i < m, ∀ j, nextIn (i, j) =
  match row i j with
  | some (l, a) => some ((i, l), i, a)
  | none => nextIn (i+1, 0))

include hnext

-- The walk through a row, and then on from the next one.
theorem visits_row (i j : ℕ) (hi : i < m) (xs : List α) (ys : List (ℕ × α))
    (hxs : Visits (row i) (· + 1) j xs)
    (hys : Visits nextIn (fun q => (q.1, q.2+1)) (i+1, 0) ys) :
    Visits nextIn (fun q => (q.1, q.2+1)) (i, j) (xs.map (i, ·) ++ ys) := by
  induction hxs with
  | done j hend =>
    have hsame := hnext i hi j
    rw [hend] at hsame
    exact visits_congr _ _ (i+1, 0) (i, j) ys hsame.symm hys
  | found j l a xs hfound hrest ih =>
    have hhead := hnext i hi j
    rw [hfound] at hhead
    exact Visits.found (i, j) (i, l) (i, a) _ hhead ih

-- The walk through all the rows.
theorem visits_rows (hend : nextIn (m, 0) = none) (xs : ℕ → List α)
    (hxs : ∀ i < m, Visits (row i) (· + 1) 0 (xs i)) (k i : ℕ) (hk : i+k = m) :
    Visits nextIn (fun q => (q.1, q.2+1)) (i, 0)
      ((List.range' i k).flatMap (fun i => (xs i).map (i, ·))) := by
  induction k generalizing i with
  | zero =>
    obtain rfl : i = m := hk
    exact Visits.done (i, 0) hend
  | succ k ih =>
    have hi : i < m := by omega
    exact visits_row row nextIn m hnext i 0 hi (xs i) _ (hxs i hi) (ih (i+1) (by omega))

end Rows

-- The walk from the start finds what the cells hold, in the order of the cells.
theorem visits_contents : Visits (next n cell) (· + 1) 0 (contents n cell) := by
  rw [contents, List.range_eq_range']
  exact visits_from n cell n 0 (zero_add n)

theorem next_some (i j : ℕ) (a : α) (h : next n cell i = some (j, a)) :
    (i ≤ j ∧ j < n) ∧ cell j = some a := by
  have hfrom (k : ℕ) : ∀ i, nextFrom cell k i = some (j, a) → (i ≤ j ∧ j < i+k) ∧ cell j = some a := by
    induction k with
    | zero => exact fun i h => nomatch h
    | succ k ih =>
      intro i h
      rw [nextFrom] at h
      cases hi : cell i with
      | some b =>
        rw [hi] at h
        obtain ⟨rfl, rfl⟩ := Prod.mk.inj (Option.some.inj h)
        exact ⟨by omega, hi⟩
      | none =>
        rw [hi] at h
        obtain ⟨hj, ha⟩ := ih (i+1) h
        exact ⟨by omega, ha⟩
  obtain ⟨hj, ha⟩ := hfrom (n-i) i h
  exact ⟨by omega, ha⟩

-- Nothing is found from the start where the cells hold nothing.
theorem next_none_iff : next n cell 0 = none ↔ contents n cell = [] := by
  have hvisits := visits_contents n cell
  generalize contents n cell = xs at hvisits ⊢
  constructor
  · intro hnone
    cases hvisits with
    | done _ _ => rfl
    | found _ q a xs h _ => rw [hnone] at h; cases h
  · intro hempty
    subst hempty
    cases hvisits with
    | done _ h => exact h

end Walk

end Leviathan.Slots
