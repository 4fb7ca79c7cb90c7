import Leviathan.CTypes

/-! `SortEx` (comQSort.cpp): a selection sort that moves the least and the greatest record of the
range to its ends in the same pass. -/
namespace Leviathan.QSort

structure STSortData (P : Type) where
  nValue : ℕ
  p : P
  deriving DecidableEq

section Model

variable {α P : Type}

def load (arr : Array α) (i : ℕ) : Except Fault α :=
  match arr[i]? with
  | some x => .ok x
  | none => .error .outOfBounds

def store (arr : Array α) (i : ℕ) (x : α) : Except Fault (Array α) :=
  if i < arr.size then .ok (arr.setIfInBounds i x) else .error .outOfBounds

/-- The search for the least and the greatest record, with `k` cells left from `j` on. -/
def minMaxLoop (arr : Array (STSortData P)) : ℕ → ℕ → ℕ → ℕ → Except Fault (ℕ × ℕ)
  | 0, _, nMin, nMax => .ok (nMin, nMax)
  | k+1, j, nMin, nMax => do
    let x ← load arr j
    if x.nValue < (← load arr nMin).nValue then minMaxLoop arr k (j+1) j nMax
    else if (← load arr nMax).nValue < x.nValue then minMaxLoop arr k (j+1) nMin j
    else minMaxLoop arr k (j+1) nMin nMax

-- the copies at the end of a pass
def exchange (arr : Array α) (left right nMin nMax : ℕ) : Except Fault (Array α) :=
  if left = nMax then do
    let stVal2 ← load arr nMax
    if right = nMin then
      let arr ← store arr left (← load arr nMin)
      store arr right stVal2
    else
      let stVal1 ← load arr right
      let arr ← store arr left (← load arr nMin)
      let arr ← store arr right stVal2
      store arr nMin stVal1
  else if left = nMin then do
    let stVal1 ← load arr right
    let arr ← store arr right (← load arr nMax)
    store arr nMax stVal1
  else if right = nMin then do
    let stVal1 ← load arr left
    let stVal2 ← load arr nMin
    let arr ← store arr right (← load arr nMax)
    let arr ← store arr left stVal2
    store arr nMax stVal1
  else if right = nMax then do
    let stVal1 ← load arr left
    let arr ← store arr left (← load arr nMin)
    store arr nMin stVal1
  else do
    let stVal1 ← load arr left
    let stVal2 ← load arr right
    let arr ← store arr right (← load arr nMax)
    let arr ← store arr left (← load arr nMin)
    let arr ← store arr nMin stVal1
    store arr nMax stVal2

/-- The passes of `SortEx`, with `k` of them left. -/
def sortLoop : ℕ → ℕ → ℕ → Array (STSortData P) → Except Fault (Array (STSortData P))
  | 0, _, _, arr => .ok arr
  | k+1, left, right, arr => do
    let (nMin, nMax) ← minMaxLoop arr (right-left) (left+1) left left
    if nMin = nMax then return arr
    let arr ← exchange arr left right nMin nMax
    sortLoop k (left+1) (right-1) arr

def SortEx (arr : Array (STSortData P)) (nCount : ℤ) : Except Fault (Array (STSortData P)) :=
  sortLoop (nCount >>> (1 : ℕ)).toNat 0 (nCount-1).toNat arr

end Model

section Exchange

variable {α : Type} (arr : Array α)

theorem load_eq (i : ℕ) (hi : i < arr.size) : load arr i = .ok arr[i] := by
  rw [load, Array.getElem?_eq_getElem hi]

theorem store_eq (i : ℕ) (x : α) (hi : i < arr.size) : store arr i x = .ok (arr.setIfInBounds i x) :=
  if_pos hi

-- In every case the least record goes to the left end first, and then the greatest one to the right
-- end, from where it is by then.
theorem exchange_eq (left right nMin nMax : ℕ) (hl : left < right) (hr : right < arr.size)
    (hmin : left ≤ nMin ∧ nMin ≤ right) (hmax : left ≤ nMax ∧ nMax ≤ right) (hne : nMin ≠ nMax) :
    exchange arr left right nMin nMax = .ok ((arr.swapIfInBounds left nMin).swapIfInBounds right
      (if nMax = left then nMin else nMax)) := by
  have h1 : left < arr.size := by omega
  have h2 : nMin < arr.size := by omega
  have h3 : nMax < arr.size := by omega
  unfold exchange
  split_ifs <;>
    simp only [load_eq, store_eq, ok_bind, Array.size_setIfInBounds, h1, h2, h3, hr] <;>
    apply congrArg Except.ok <;> apply Array.ext <;> grind

end Exchange

section Sorting

variable {P : Type} (arr arr' : Array (STSortData P))

/-- The value of the record at `i`. -/
def key (i : ℕ) : ℕ := (arr[i]?.map STSortData.nValue).getD 0

theorem key_eq (i : ℕ) (hi : i < arr.size) : key arr i = arr[i].nValue := by
  rw [key, Array.getElem?_eq_getElem hi]
  rfl

theorem key_swap (a b i : ℕ) (ha : a < arr.size) (hb : b < arr.size) :
    key (arr.swapIfInBounds a b) i =
      if i = a then key arr b else if i = b then key arr a else key arr i := by
  by_cases hi : i < arr.size
  · rw [key_eq _ i (by simpa using hi), key_eq arr a ha, key_eq arr b hb, key_eq arr i hi,
      Array.getElem_swapIfInBounds]
    simp only [ha, hb, and_true]
    split_ifs <;> rfl
  · unfold key
    rw [Array.getElem?_eq_none (by simpa using hi), if_neg (by omega), if_neg (by omega),
      Array.getElem?_eq_none (by omega)]

/-- `nMin` and `nMax` are where the least and the greatest record of the cells from `left` up to `j`
lie. -/
structure Extremal (left j nMin nMax : ℕ) : Prop where
  min_mem : left ≤ nMin ∧ nMin < j
  max_mem : left ≤ nMax ∧ nMax < j
  min_le : ∀ i, left ≤ i → i < j → key arr nMin ≤ key arr i
  le_max : ∀ i, left ≤ i → i < j → key arr i ≤ key arr nMax

-- One more cell.
theorem Extremal.step (left j nMin nMax a b : ℕ) (h : Extremal arr left j nMin nMax)
    (hmem : (a = nMin ∨ a = j) ∧ (b = nMax ∨ b = j))
    (hmin : key arr a ≤ key arr nMin ∧ key arr a ≤ key arr j)
    (hmax : key arr nMax ≤ key arr b ∧ key arr j ≤ key arr b) : Extremal arr left (j+1) a b := by
  have hmin_mem := h.min_mem
  have hmax_mem := h.max_mem
  refine ⟨by omega, by omega, ?_, ?_⟩
  · intro i hl hi
    rcases Nat.lt_succ_iff_lt_or_eq.mp hi with hi | rfl
    · exact hmin.1.trans (h.min_le i hl hi)
    · exact hmin.2
  · intro i hl hi
    rcases Nat.lt_succ_iff_lt_or_eq.mp hi with hi | rfl
    · exact (h.le_max i hl hi).trans hmax.1
    · exact hmax.2

theorem minMaxLoop_spec (left k j nMin nMax : ℕ) (h : Extremal arr left j nMin nMax)
    (hsize : j+k ≤ arr.size) :
    ∃ a b, minMaxLoop arr k j nMin nMax = .ok (a, b) ∧ Extremal arr left (j+k) a b := by
  induction k generalizing j nMin nMax with
  | zero => exact ⟨nMin, nMax, rfl, h⟩
  | succ k ih =>
    have hmin := h.min_mem
    have hmax := h.max_mem
    have hle := (h.min_le nMin hmin.1 hmin.2).trans (h.le_max nMin hmin.1 hmin.2)
    have hj : j < arr.size := by omega
    have hloop : minMaxLoop arr (k+1) j nMin nMax =
        if key arr j < key arr nMin then minMaxLoop arr k (j+1) j nMax
        else if key arr nMax < key arr j then minMaxLoop arr k (j+1) nMin j
        else minMaxLoop arr k (j+1) nMin nMax := by
      rw [minMaxLoop, load_eq arr j hj, ok_bind, load_eq arr nMin (by omega), ok_bind,
        load_eq arr nMax (by omega), key_eq arr j hj, key_eq arr nMin (by omega),
        key_eq arr nMax (by omega)]
      rfl
    have hj1 : j+1+k = j+(k+1) := by
      omega
    rw [hloop, ← hj1]
    split_ifs with hlt hgt
    · apply ih _ _ _ _ (by omega)
      exact h.step arr left j nMin nMax j nMax ⟨Or.inr rfl, Or.inl rfl⟩ ⟨hlt.le, le_rfl⟩
        ⟨le_rfl, hlt.le.trans hle⟩
    · apply ih _ _ _ _ (by omega)
      exact h.step arr left j nMin nMax nMin j ⟨Or.inl rfl, Or.inr rfl⟩ ⟨le_rfl, by omega⟩
        ⟨hgt.le, le_rfl⟩
    · apply ih _ _ _ _ (by omega)
      exact h.step arr left j nMin nMax nMin nMax ⟨Or.inl rfl, Or.inl rfl⟩ ⟨le_rfl, by omega⟩
        ⟨le_rfl, by omega⟩

/-- The cells outside the range have their final records. -/
def EndsSorted (left right n : ℕ) : Prop :=
  ∀ a b, a < b → b < n → a < left ∨ right < b → key arr a ≤ key arr b

/-- The same records in another order, and nothing new from cell `n` on. -/
structure Rearranged (n : ℕ) : Prop where
  size : arr'.size = arr.size
  perm : arr'.toList.Perm arr.toList
  same : ∀ i, n ≤ i → arr'[i]? = arr[i]?

theorem Rearranged.refl (n : ℕ) : Rearranged arr arr n := ⟨rfl, List.Perm.refl _, fun _ _ => rfl⟩

theorem Rearranged.trans (arr'' : Array (STSortData P)) (n : ℕ) (h : Rearranged arr arr' n)
    (h' : Rearranged arr' arr'' n) : Rearranged arr arr'' n :=
  ⟨h'.size.trans h.size, h'.perm.trans h.perm, fun i hi => (h'.same i hi).trans (h.same i hi)⟩

theorem rearranged_swap (a b n : ℕ) (ha : a < n) (hb : b < n) (hn : n ≤ arr.size) :
    Rearranged arr (arr.swapIfInBounds a b) n := by
  refine ⟨Array.size_swapIfInBounds, ?_, ?_⟩
  · rw [Array.swapIfInBounds_def, dif_pos (by omega), dif_pos (by omega)]
    exact Array.perm_iff_toList_perm.mp (Array.swap_perm (by omega) (by omega))
  · intro i hi
    by_cases hsize : i < arr.size
    · rw [Array.getElem?_eq_getElem (by simpa using hsize), Array.getElem?_eq_getElem hsize,
        Array.getElem_swapIfInBounds_of_ne_of_ne (by omega) (by omega)]
    · rw [Array.getElem?_eq_none (by simpa using hsize), Array.getElem?_eq_none (by omega)]

theorem exchange_spec (left right nMin nMax n : ℕ) (hn : left+right+1 = n) (hl : left < right)
    (hsize : n ≤ arr.size) (h : Extremal arr left (right+1) nMin nMax) (hne : nMin ≠ nMax)
    (hends : EndsSorted arr left right n) :
    ∃ arr', exchange arr left right nMin nMax = .ok arr' ∧ Rearranged arr arr' n ∧
      EndsSorted arr' (left+1) (right-1) n := by
  have hmin := h.min_mem
  have hmax := h.max_mem
  have heq := exchange_eq arr left right nMin nMax hl (by omega) (by omega) (by omega) hne
  generalize hq : (if nMax = left then nMin else nMax) = q at heq
  have hq' : left < q ∧ q ≤ right := by
    split_ifs at hq <;> omega
  have hswap := rearranged_swap arr left nMin n (by omega) (by omega) hsize
  refine ⟨_, heq, hswap.trans arr _ _ n
    (rearranged_swap _ right q n (by omega) (by omega) (by rw [hswap.size]; exact hsize)), ?_⟩
  have hkey (i : ℕ) : key ((arr.swapIfInBounds left nMin).swapIfInBounds right q) i =
      if i = right then key (arr.swapIfInBounds left nMin) q
      else if i = q then key (arr.swapIfInBounds left nMin) right
      else key (arr.swapIfInBounds left nMin) i := by
    apply key_swap <;> rw [hswap.size] <;> omega
  simp only [key_swap arr left nMin _ (by omega) (by omega : nMin < arr.size)] at hkey
  have hout (i : ℕ) (hi : i < left ∨ right < i) :
      key ((arr.swapIfInBounds left nMin).swapIfInBounds right q) i = key arr i := by
    rw [hkey i, if_neg (by omega), if_neg (by omega), if_neg (by omega), if_neg (by omega)]
  have hleft : key ((arr.swapIfInBounds left nMin).swapIfInBounds right q) left = key arr nMin := by
    rw [hkey left, if_neg (by omega), if_neg (by omega), if_pos rfl]
  have hright : key ((arr.swapIfInBounds left nMin).swapIfInBounds right q) right = key arr nMax := by
    grind
  have hin (i : ℕ) (hi : left ≤ i ∧ i ≤ right) : ∃ j, (left ≤ j ∧ j ≤ right) ∧
      key ((arr.swapIfInBounds left nMin).swapIfInBounds right q) i = key arr j := by
    rw [hkey i]
    split_ifs <;> exact ⟨_, by omega, rfl⟩
  have hrange (i : ℕ) (hi : left ≤ i ∧ i ≤ right) :
      key arr nMin ≤ key ((arr.swapIfInBounds left nMin).swapIfInBounds right q) i ∧
      key ((arr.swapIfInBounds left nMin).swapIfInBounds right q) i ≤ key arr nMax := by
    obtain ⟨j, hj, hkeyj⟩ := hin i hi
    rw [hkeyj]
    exact ⟨h.min_le j hj.1 (by omega), h.le_max j hj.1 (by omega)⟩
  intro a b hab hb hcase
  rcases lt_or_ge a left with ha | ha
  · rw [hout a (Or.inl ha)]
    by_cases hbin : left ≤ b ∧ b ≤ right
    · obtain ⟨j, hj, hkeyj⟩ := hin b hbin
      rw [hkeyj]
      exact hends a j (by omega) (by omega) (Or.inl ha)
    · rw [hout b (by omega)]
      exact hends a b hab hb (Or.inl ha)
  · rcases lt_or_ge right b with hbr | hbr
    · rw [hout b (Or.inr hbr)]
      by_cases hain : a ≤ right
      · obtain ⟨j, hj, hkeyj⟩ := hin a ⟨ha, hain⟩
        rw [hkeyj]
        exact hends j b (by omega) hb (Or.inr hbr)
      · rw [hout a (by omega)]
        exact hends a b hab hb (Or.inr hbr)
    · rcases hcase with hal | hbr'
      · rw [show a = left by omega, hleft]
        exact (hrange b ⟨by omega, hbr⟩).1
      · rw [show b = right by omega, hright]
        exact (hrange a ⟨ha, by omega⟩).2

-- Between the ends everything is equal.
theorem endsSorted_equal (left right m n : ℕ) (h : Extremal arr left (right+1) m m)
    (hends : EndsSorted arr left right n) : EndsSorted arr n n n := by
  intro a b hab hb _
  by_cases hmid : left ≤ a ∧ b ≤ right
  · exact (h.le_max a hmid.1 (by omega)).trans (h.min_le b (by omega) (by omega))
  · exact hends a b hab hb (by omega)

theorem sortLoop_spec (k left right n : ℕ) (hn : left+right+1 = n) (hk : left+k = n/2)
    (hsize : n ≤ arr.size) (hends : EndsSorted arr left right n) :
    ∃ arr', sortLoop k left right arr = .ok arr' ∧ Rearranged arr arr' n ∧ EndsSorted arr' n n n := by
  induction k generalizing left right arr with
  | zero =>
    refine ⟨arr, rfl, Rearranged.refl arr n, ?_⟩
    intro a b hab hb _
    exact hends a b hab hb (by omega)
  | succ k ih =>
    have hstart : Extremal arr left (left+1) left left := by
      refine ⟨by omega, by omega, ?_, ?_⟩
      · intro i hl hi
        rw [show i = left by omega]
      · intro i hl hi
        rw [show i = left by omega]
    obtain ⟨nMin, nMax, hloop, hext⟩ := minMaxLoop_spec arr left (right-left) (left+1) left left hstart
      (by omega)
    rw [show left+1+(right-left) = right+1 by omega] at hext
    rw [sortLoop, hloop, ok_bind]
    by_cases heq : nMin = nMax
    · subst heq
      refine ⟨arr, if_pos rfl, Rearranged.refl arr n, ?_⟩
      exact endsSorted_equal arr left right nMin n hext hends
    · obtain ⟨arr1, hex, hrearr, hends1⟩ :=
        exchange_spec arr left right nMin nMax n hn (by omega) hsize hext heq hends
      obtain ⟨arr2, hrec, hrearr2, hsorted⟩ := ih arr1 (left+1) (right-1) (by omega) (by omega)
        (by rw [hrearr.size]; exact hsize) hends1
      refine ⟨arr2, ?_, hrearr.trans arr arr1 arr2 n hrearr2, hsorted⟩
      dsimp only
      rw [if_neg heq, hex, ok_bind, hrec]

theorem SortEx_spec (nCount : ℤ) (h : nCount ≤ arr.size) :
    ∃ arr', SortEx arr nCount = .ok arr' ∧ Rearranged arr arr' nCount.toNat ∧
      EndsSorted arr' nCount.toNat nCount.toNat nCount.toNat := by
  have hhalf : (nCount >>> (1 : ℕ)).toNat = nCount.toNat/2 := by
    rw [Int.shiftRight_eq_div_pow]
    omega
  rw [SortEx, hhalf]
  rcases Nat.eq_zero_or_pos nCount.toNat with h0 | hpos
  · rw [h0]
    refine ⟨arr, rfl, Rearranged.refl arr 0, ?_⟩
    intro a b _ hb
    omega
  · apply sortLoop_spec arr _ 0 _ _ (by omega) (by omega) (by omega)
    intro a b hab hb hcase
    omega

theorem Rearranged.drop_eq (n : ℕ) (h : Rearranged arr arr' n) :
    arr'.toList.drop n = arr.toList.drop n := by
  apply List.ext_getElem?
  intro i
  rw [List.getElem?_drop, List.getElem?_drop, Array.getElem?_toList, Array.getElem?_toList]
  exact h.same _ (Nat.le_add_right _ _)

theorem Rearranged.take_perm (n : ℕ) (h : Rearranged arr arr' n) :
    (arr'.toList.take n).Perm (arr.toList.take n) := by
  have hperm := h.perm
  rw [← List.take_append_drop n arr'.toList, ← List.take_append_drop n arr.toList,
    h.drop_eq arr arr' n] at hperm
  exact (List.perm_append_right_iff _).mp hperm

theorem EndsSorted.take_pairwise (n : ℕ) (h : EndsSorted arr n n n) :
    (arr.toList.take n).Pairwise (fun x y => x.nValue ≤ y.nValue) := by
  rw [List.pairwise_iff_getElem]
  intro i j hi hj hij
  simp only [List.length_take, Array.length_toList, lt_min_iff] at hi hj
  have hle := h i j hij hj.1 (Or.inl hi.1)
  rw [key_eq arr i hi.2, key_eq arr j hj.2] at hle
  simpa using hle

/-- `SortEx` sorts the first `nCount` records and leaves the others alone. -/
theorem SortEx_sorts (nCount : ℤ) (h : nCount ≤ arr.size) :
    ∃ arr', SortEx arr nCount = .ok arr' ∧
      (arr'.toList.take nCount.toNat).Pairwise (fun x y => x.nValue ≤ y.nValue) ∧
      (arr'.toList.take nCount.toNat).Perm (arr.toList.take nCount.toNat) ∧
      arr'.toList.drop nCount.toNat = arr.toList.drop nCount.toNat := by
  obtain ⟨arr', hrun, hrearr, hsorted⟩ := SortEx_spec arr nCount h
  exact ⟨arr', hrun, hsorted.take_pairwise arr' _, hrearr.take_perm arr arr' _,
    hrearr.drop_eq arr arr' _⟩

theorem SortEx_sorts_three :
    (3 : ℤ) ≤ (#[⟨5, 0⟩, ⟨1, 1⟩, ⟨3, 2⟩, ⟨0, 3⟩] : Array (STSortData ℕ)).size ∧
    SortEx #[⟨5, 0⟩, ⟨1, 1⟩, ⟨3, 2⟩, ⟨0, 3⟩] 3 = .ok #[⟨1, 1⟩, ⟨3, 2⟩, ⟨5, 0⟩, ⟨0, 3⟩] ∧
    ∃ arr', SortEx #[⟨5, 0⟩, ⟨1, 1⟩, ⟨3, 2⟩, ⟨0, 3⟩] 3 = .ok arr' ∧
      (arr'.toList.take 3).Pairwise (fun x y : STSortData ℕ => x.nValue ≤ y.nValue) := by
  refine ⟨by decide, by decide, ?_⟩
  obtain ⟨arr', hrun, hsorted, -⟩ := SortEx_sorts
    (#[⟨5, 0⟩, ⟨1, 1⟩, ⟨3, 2⟩, ⟨0, 3⟩] : Array (STSortData ℕ)) 3 (by decide)
  exact ⟨arr', hrun, hsorted⟩

end Sorting

section Retag

variable {α β P Q : Type}

theorem load_map (f : α → β) (arr : Array α) (i : ℕ) : load (arr.map f) i = f <$> load arr i := by
  unfold load
  rw [Array.getElem?_map]
  cases arr[i]? <;> rfl

theorem store_map (f : α → β) (arr : Array α) (i : ℕ) (x : α) :
    store (arr.map f) i (f x) = Array.map f <$> store arr i x := by
  unfold store
  rw [Array.size_map]
  split_ifs
  · rw [← Array.map_setIfInBounds]
    rfl
  · rfl

theorem exchange_map (f : α → β) (arr : Array α) (left right nMin nMax : ℕ) :
    exchange (arr.map f) left right nMin nMax = Array.map f <$> exchange arr left right nMin nMax := by
  unfold exchange
  split_ifs <;> simp only [load_map, store_map, bind_map_left, map_bind]

variable (f : STSortData P → STSortData Q) (hf : ∀ x, (f x).nValue = x.nValue)

include hf

theorem minMaxLoop_map (arr : Array (STSortData P)) (k j nMin nMax : ℕ) :
    minMaxLoop (arr.map f) k j nMin nMax = minMaxLoop arr k j nMin nMax := by
  induction k generalizing j nMin nMax with
  | zero => rfl
  | succ k ih => simp only [minMaxLoop, load_map, bind_map_left, hf, ih]

theorem sortLoop_map (k left right : ℕ) (arr : Array (STSortData P)) :
    sortLoop k left right (arr.map f) = Array.map f <$> sortLoop k left right arr := by
  induction k generalizing left right arr with
  | zero => rfl
  | succ k ih =>
    simp only [sortLoop, minMaxLoop_map f hf, map_bind]
    congr 1
    funext m
    split_ifs
    · rfl
    · simp only [exchange_map, bind_map_left, map_bind, ih]

-- `SortEx` looks at the values only: what hangs on them is carried along.
theorem SortEx_map (arr : Array (STSortData P)) (nCount : ℤ) :
    SortEx (arr.map f) nCount = Array.map f <$> SortEx arr nCount := sortLoop_map f hf _ _ _ arr

end Retag

end Leviathan.QSort
