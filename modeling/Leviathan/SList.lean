import Leviathan.CTypes
import Leviathan.CircularScan

/-! `CSList` (comList.h, comList.cpp): a growing array of pointers in which NULL marks a free slot. -/
namespace Leviathan

def unitAddSize : ℕ := 10

/-- The largest `int` that is reached from a capacity in steps of `UNIT_ADD_SIZE`. -/
def largestMax (m_nMax : ℕ) : ℕ := m_nMax+unitAddSize*((2^31-1-m_nMax)/unitAddSize)

theorem le_largestMax (m_nMax : ℕ) : m_nMax ≤ largestMax m_nMax := Nat.le_add_right _ _

theorem unitAddSize_le_largestMax (m_nMax : ℕ) : 2^31-unitAddSize ≤ largestMax m_nMax := by
  unfold largestMax unitAddSize
  omega

theorem largestMax_add (m_nMax : ℕ) (h : m_nMax+unitAddSize < 2^31) :
    largestMax (m_nMax+unitAddSize) = largestMax m_nMax := by
  unfold largestMax unitAddSize at *
  omega

theorem largestMax_of_over (m_nMax : ℕ) (h : 2^31 ≤ m_nMax+unitAddSize) : largestMax m_nMax = m_nMax := by
  unfold largestMax unitAddSize at *
  omega

/-- The fields of `CSList`.  A slot is `none` where the array holds NULL. -/
structure CSList (β : Type) where
  m_pArray : List (Option β)
  m_nUse : ℤ
  m_nLast : ℕ
  m_nMax : ℕ
  m_nObjAllocType : EAllocType

namespace CSList

variable {β : Type}

def init : CSList β := ⟨[], 0, 0, 0, .none⟩

def slot (l : CSList β) (i : ℕ) : Option β := l.m_pArray.getD i none

/-- `__alloc`: a larger array with the old slots in front; `ok` is the outcome of `calloc`.
The returned number is the new capacity, 0 on failure. -/
def _alloc (l : CSList β) (nMaxCount : ℕ) (ok : Bool) : CSList β × ℕ :=
  if nMaxCount ≤ l.m_nMax then (l, l.m_nMax)
  else if ok then
    ({ l with m_pArray := l.m_pArray ++ List.replicate (nMaxCount-l.m_nMax) none }, nMaxCount)
  else (l, 0)

def alloc (l : CSList β) (nMaxCount : ℕ) (type : EAllocType) (ok : Bool) : CSList β :=
  let r := _alloc { l with m_nObjAllocType := type } nMaxCount ok
  { r.1 with m_nMax := r.2 }

/-- The code at `ADD_SUCCESS`. -/
def addSuccess (l : CSList β) (nIdx : ℕ) (obj : β) : CSList β :=
  { l with m_nUse := l.m_nUse+1, m_pArray := l.m_pArray.set nIdx (some obj), m_nLast := l.m_nLast+1 }

/-- `push_back` of a list whose larger capacity is an `int`: the index stored to, or `none` where the
function returns false.  `m_nLast` counts the pushes and is used as an index without a bounds check. -/
def pushBackInt (l : CSList β) (obj : β) (ok : Bool) : Except Fault (CSList β × Option ℕ) :=
  if (l.m_nMax : ℤ) ≤ l.m_nUse then
    let r := l._alloc (l.m_nMax+unitAddSize) ok
    if r.2 = 0 then .ok (l, none)
    else .ok (addSuccess { r.1 with m_nMax := l.m_nMax+unitAddSize } l.m_nMax obj, some l.m_nMax)
  else if l.m_nMax ≤ l.m_nLast then .error .outOfBounds
  else if (l.slot l.m_nLast).isNone then .ok (addSuccess l l.m_nLast obj, some l.m_nLast)
  else
    match scanFrom l.m_nMax (fun i => (l.slot i).isNone) l.m_nMax l.m_nLast with
    | some nIdx => .ok (addSuccess l nIdx obj, some nIdx)
    | none => .ok (l, none)

/-- `push_back`.  A capacity that has become negative is one that `__alloc` takes for smaller than the old
one, so that slot `m_nMax` is written behind the old array. -/
def pushBack (l : CSList β) (obj : β) (ok : Bool) : Except Fault (CSList β × Option ℕ) :=
  if (l.m_nMax : ℤ) ≤ l.m_nUse ∧ 2^31 ≤ l.m_nMax+unitAddSize then .error .outOfBounds
  else l.pushBackInt obj ok

def getObj (l : CSList β) (i : ℤ) : Option β :=
  if isInclude i l.m_nMax then l.slot i.toNat else none

/-- The loop of `getNext` with `k` slots left. -/
def getNextLoop (l : CSList β) : ℕ → ℕ → ℕ × Option β
  | 0, i => (i, none)
  | k+1, i =>
    match l.slot i with
    | some p => (i, some p)
    | none => getNextLoop l k (i+1)

/-- `getNext`: the final value of `*pIdx` and the pointer found. -/
def getNext (l : CSList β) (i : ℕ) : ℕ × Option β := l.getNextLoop (l.m_nMax-i) i

def _DEL (l : CSList β) (i : ℕ) : CSList β :=
  { l with m_pArray := l.m_pArray.set i none, m_nUse := l.m_nUse-1 }

/-- `del(int, bool)`: the list, the answer, and the object that was freed. -/
def delAt (l : CSList β) (i : ℤ) (bDeepDelete : Bool) : CSList β × Bool × Option β :=
  if isInclude i l.m_nMax then
    (l._DEL i.toNat, true,
      if bDeepDelete && isAbleToDelete l.m_nObjAllocType then l.slot i.toNat else none)
  else (l, false, none)

/-- The slots below `k` are taken, the others are free, and `m_nUse` and `m_nLast` are `k`. -/
structure Dense (l : CSList β) (k : ℕ) : Prop where
  length : l.m_pArray.length = l.m_nMax
  use : l.m_nUse = k
  last : l.m_nLast = k
  taken : ∀ i < k, (l.slot i).isSome
  free : ∀ i, k ≤ i → l.slot i = none
  le_max : k ≤ l.m_nMax

theorem slot_set (l : CSList β) (i j : ℕ) (o : Option β) (hi : i < l.m_pArray.length) :
    (l.m_pArray.set i o).getD j none = if j = i then o else l.slot j := by
  by_cases h : j = i
  · subst h
    simp [List.getD_eq_getElem?_getD, hi]
  · have hne : ¬i = j := fun e => h e.symm
    simp [slot, List.getD_eq_getElem?_getD, h, hne]

theorem slot_append_none (a : List (Option β)) (d j : ℕ) :
    (a ++ List.replicate d none).getD j none = a.getD j none := by
  simp only [List.getD_eq_getElem?_getD, List.getElem?_append, List.getElem?_replicate]
  by_cases h : j < a.length
  · simp [h]
  · rw [if_neg h]
    split <;> simp [List.getElem?_eq_none (not_lt.mp h)]

-- A fresh list is dense and empty.
theorem dense_alloc (n : ℕ) (type : EAllocType) :
    Dense ((init : CSList β).alloc n type true) 0 := by
  unfold alloc _alloc init
  by_cases h : n = 0
  · subst h
    constructor <;> simp [slot]
  · constructor <;> simp [slot, h, List.getD_eq_getElem?_getD, List.getElem?_replicate]
    intro i
    split <;> rfl

theorem dense_addSuccess (l : CSList β) (k : ℕ) (obj : β) (h : Dense l k) (hk : k < l.m_nMax) :
    Dense (l.addSuccess k obj) (k+1) := by
  have hlt : k < l.m_pArray.length := by rw [h.length]; exact hk
  have hslot (i : ℕ) : (l.addSuccess k obj).slot i = if i = k then some obj else l.slot i :=
    slot_set l k i (some obj) hlt
  constructor
  · simpa [addSuccess] using h.length
  · simp [addSuccess, h.use]
  · simp [addSuccess, h.last]
  · intro i hi
    rw [hslot]
    split
    · rfl
    · exact h.taken i (by omega)
  · intro i hi
    rw [hslot, if_neg (by omega)]
    exact h.free i (by omega)
  · exact hk

-- On a dense list `push_back` fills the next slot, and the array is enlarged when it is full.
theorem pushBackInt_dense (l : CSList β) (k : ℕ) (obj : β) (h : Dense l k) :
    ∃ l', l.pushBackInt obj true = .ok (l', some k) ∧ Dense l' (k+1) ∧
      (∀ i, l'.slot i = if i = k then some obj else l.slot i) ∧
      l'.m_nMax = if k = l.m_nMax then l.m_nMax+unitAddSize else l.m_nMax := by
  by_cases hk : k = l.m_nMax
  · -- the array is full: the new object goes to the first of the added slots
    have hge : (l.m_nMax : ℤ) ≤ l.m_nUse := by rw [h.use, hk]
    have hnot : ¬l.m_nMax+unitAddSize ≤ l.m_nMax := by unfold unitAddSize; omega
    let g : CSList β := { l with
      m_pArray := l.m_pArray ++ List.replicate unitAddSize none, m_nMax := l.m_nMax+unitAddSize }
    have hslot (i : ℕ) : g.slot i = l.slot i := slot_append_none _ _ _
    have hg : Dense g k := by
      refine ⟨by simp [g, h.length], h.use, h.last, ?_, ?_, ?_⟩
      · intro i hi
        rw [hslot]
        exact h.taken i hi
      · intro i hi
        rw [hslot]
        exact h.free i hi
      · exact h.le_max.trans (Nat.le_add_right _ _)
    have hlt : k < g.m_nMax := by show k < l.m_nMax+unitAddSize; unfold unitAddSize; omega
    refine ⟨g.addSuccess k obj, ?_, dense_addSuccess g k obj hg hlt, ?_, (if_pos hk).symm⟩
    · rw [pushBackInt, if_pos hge]
      have hr : l._alloc (l.m_nMax+unitAddSize) true =
          ({ l with m_pArray := l.m_pArray ++ List.replicate unitAddSize none },
            l.m_nMax+unitAddSize) := by
        rw [_alloc, if_neg hnot, if_pos rfl, Nat.add_sub_cancel_left]
      rw [hr]
      dsimp only
      rw [if_neg (by unfold unitAddSize; omega), hk]
    · intro i
      have hset := slot_set g k i (some obj) (by rw [hg.length]; exact hlt)
      rw [hslot] at hset
      exact hset
  · have hlt : k < l.m_nMax := lt_of_le_of_ne h.le_max hk
    refine ⟨l.addSuccess k obj, ?_, dense_addSuccess l k obj h hlt, ?_, (if_neg hk).symm⟩
    · have hslot : (l.slot l.m_nLast).isNone = true := by rw [h.last, h.free k le_rfl]; rfl
      rw [pushBackInt, if_neg (by rw [h.use]; omega), if_neg (by rw [h.last]; omega), if_pos hslot,
        h.last]
    · exact fun i => slot_set l k i (some obj) (by rw [h.length]; exact hlt)

/-- The objects in the list are `xs`, in this order. -/
structure Holds (l : CSList β) (xs : List β) : Prop where
  dense : Dense l xs.length
  slot : ∀ i, l.slot i = xs[i]?

theorem holds_alloc (n : ℕ) (type : EAllocType) : Holds ((init : CSList β).alloc n type true) [] :=
  ⟨dense_alloc n type, fun i => (dense_alloc n type).free i (Nat.zero_le i)⟩

theorem pushBackInt_holds (l : CSList β) (xs : List β) (obj : β) (h : Holds l xs) :
    ∃ l', l.pushBackInt obj true = .ok (l', some xs.length) ∧ Holds l' (xs ++ [obj]) ∧
      l'.m_nMax = if xs.length = l.m_nMax then l.m_nMax+unitAddSize else l.m_nMax := by
  obtain ⟨l', hpush, hdense, hslot, hmax⟩ := pushBackInt_dense l xs.length obj h.dense
  refine ⟨l', hpush, ⟨by simpa using hdense, ?_⟩, hmax⟩
  intro i
  rw [hslot, h.slot, List.getElem?_append]
  grind

theorem Holds.of_pushBack (l : CSList β) (xs : List β) (obj : β) (h : Holds l xs)
    (r : CSList β × Option ℕ) (hr : l.pushBack obj true = .ok r) :
    r.2 = some xs.length ∧ Holds r.1 (xs ++ [obj]) := by
  obtain ⟨l', hpush, hholds, -⟩ := pushBackInt_holds l xs obj h
  rw [pushBack, hpush] at hr
  split_ifs at hr
  cases hr
  exact ⟨rfl, hholds⟩

-- The next object finds room until the capacity would have to become a larger number than an `int` holds.
theorem pushBack_holds (l : CSList β) (xs : List β) (obj : β) (h : Holds l xs)
    (hroom : xs.length < largestMax l.m_nMax) :
    ∃ l', l.pushBack obj true = .ok (l', some xs.length) ∧ Holds l' (xs ++ [obj]) ∧
      largestMax l'.m_nMax = largestMax l.m_nMax := by
  obtain ⟨l', hpush, hholds, hmax⟩ := pushBackInt_holds l xs obj h
  have hint (hfull : xs.length = l.m_nMax) : l.m_nMax+unitAddSize < 2^31 := by
    by_contra hover
    rw [largestMax_of_over l.m_nMax (not_lt.mp hover)] at hroom
    exact absurd hfull hroom.ne
  have hnot : ¬((l.m_nMax : ℤ) ≤ l.m_nUse ∧ 2^31 ≤ l.m_nMax+unitAddSize) := fun hover => by
    have huse := h.dense.use
    have hle := h.dense.le_max
    have hsmall := hint (by omega)
    omega
  refine ⟨l', (if_neg hnot).trans hpush, hholds, ?_⟩
  rw [hmax]
  split_ifs with hfull
  · exact largestMax_add l.m_nMax (hint hfull)
  · rfl

theorem pushBack_over (l : CSList β) (xs : List β) (obj : β) (ok : Bool) (h : Holds l xs)
    (hover : largestMax l.m_nMax ≤ xs.length) : l.pushBack obj ok = .error .outOfBounds := by
  have huse := h.dense.use
  have hle := h.dense.le_max
  have hlargest := le_largestMax l.m_nMax
  refine if_pos ⟨by omega, ?_⟩
  by_contra hint
  have hmore := le_largestMax (l.m_nMax+unitAddSize)
  rw [largestMax_add l.m_nMax (not_le.mp hint), unitAddSize] at hmore
  omega

/-- The list holds `xs`, and its capacity can become `largest`. -/
structure HoldsUpTo (largest : ℕ) (l : CSList β) (xs : List β) : Prop where
  holds : Holds l xs
  largest : largestMax l.m_nMax = largest

theorem holdsUpTo_alloc (n : ℕ) (type : EAllocType) :
    HoldsUpTo (largestMax n) ((init : CSList β).alloc n type true) [] := by
  refine ⟨holds_alloc n type, congrArg largestMax ?_⟩
  simp only [alloc, _alloc, init, Nat.le_zero]
  split_ifs with h
  · exact h.symm
  · rfl

theorem HoldsUpTo.pushBack {largest : ℕ} {l : CSList β} {xs : List β} (h : HoldsUpTo largest l xs)
    (obj : β) (hroom : xs.length < largest) :
    ∃ l', l.pushBack obj true = .ok (l', some xs.length) ∧ HoldsUpTo largest l' (xs ++ [obj]) := by
  obtain ⟨l', hpush, hholds, hlargest⟩ := pushBack_holds l xs obj h.holds (h.largest ▸ hroom)
  exact ⟨l', hpush, hholds, hlargest.trans h.largest⟩

-- What `getNext` returns is the content of the slot it stops at.
theorem getNextLoop_some (l : CSList β) (k i : ℕ) (p : β) (h : (l.getNextLoop k i).2 = some p) :
    l.slot (l.getNextLoop k i).1 = some p := by
  induction k generalizing i with
  | zero => cases h
  | succ k ih =>
    unfold getNextLoop at h ⊢
    cases hs : l.slot i with
    | none =>
      simp only [hs] at h
      exact ih (i+1) h
    | some q =>
      simp only [hs] at h
      exact hs.trans h

theorem getNext_some (l : CSList β) (i : ℕ) (p : β) (h : (l.getNext i).2 = some p) :
    l.slot (l.getNext i).1 = some p :=
  getNextLoop_some l _ i p h

-- On a list without objects `getNext` finds nothing.
theorem getNext_empty (l : CSList β) (h : ∀ i, l.slot i = none) (i : ℕ) : (l.getNext i).2 = none := by
  cases hp : (l.getNext i).2 with
  | none => rfl
  | some p =>
    have hs := l.getNext_some i p hp
    rw [h] at hs
    cases hs

end CSList

end Leviathan
