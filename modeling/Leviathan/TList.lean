import Mathlib.Data.List.GetD
import Leviathan.CTypes
import Leviathan.CircularScan

/-! `CTList` (comTList.h): a growing array of pointers for one thread, in which NULL marks a free
slot. -/
namespace Leviathan

def tListAddSize : ℕ := 64

structure CTList (β : Type) where
  m_pArray : List (Option β)
  m_nUse : ℤ
  m_nLast : ℕ
  m_nDelIdx : ℕ
  m_nMax : ℕ

namespace CTList

variable {β : Type}

def init : CTList β := ⟨[], 0, 0, 0, 0⟩

def slot (l : CTList β) (i : ℕ) : Option β := l.m_pArray.getD i none

-- `__alloc`: the new slots stand behind the old ones; 0 when `calloc` fails
def _alloc (l : CTList β) (nMaxCount : ℕ) (ok : Bool) : CTList β × ℕ :=
  if ok then
    ({ l with m_pArray := l.m_pArray ++ List.replicate (nMaxCount-l.m_nMax) none }, nMaxCount)
  else (l, 0)

def alloc (l : CTList β) (nMaxCount : ℕ) (ok : Bool) : CTList β :=
  let r := l._alloc nMaxCount ok
  { r.1 with m_nMax := r.2 }

def addSuccess (l : CTList β) (nIdx : ℕ) (obj : β) : CTList β :=
  { l with m_nUse := l.m_nUse+1, m_pArray := l.m_pArray.set nIdx (some obj), m_nLast := l.m_nLast+1 }

/-- `IsExist`. -/
def isExist [DecidableEq β] (l : CTList β) (p : β) : Bool := decide (some p ∈ l.m_pArray.take l.m_nMax)

/-- `push_back`: the index stored to, or `none` where it returns false.  `m_nLast` only grows, and it
is an index without a bounds check while the list has room. -/
def pushBack (l : CTList β) (obj : β) (ok : Bool) : Except Fault (CTList β × Option ℕ) :=
  if (l.m_nMax : ℤ) ≤ l.m_nUse then
    let r := l._alloc (l.m_nMax+tListAddSize) ok
    if r.2 = 0 then .ok (l, none)
    else .ok (addSuccess { r.1 with m_nMax := l.m_nMax+tListAddSize } l.m_nMax obj, some l.m_nMax)
  else if l.m_nMax ≤ l.m_nLast then .error .outOfBounds
  else if (l.slot l.m_nLast).isNone then .ok (addSuccess l l.m_nLast obj, some l.m_nLast)
  else
    match scanFrom l.m_nMax (fun i => (l.slot i).isNone) l.m_nMax l.m_nLast with
    | some nIdx => .ok (addSuccess l nIdx obj, some nIdx)
    | none => .ok (l, none)

def _DEL (l : CTList β) (i : ℕ) : CTList β :=
  { l with m_pArray := l.m_pArray.set i none, m_nUse := l.m_nUse-1, m_nDelIdx := i }

/-- `del(T *)`: the first slot that holds the pointer is emptied. -/
def del [DecidableEq β] (l : CTList β) (p : β) : CTList β × Bool :=
  let i := (l.m_pArray.take l.m_nMax).idxOf (some p)
  if i < l.m_nMax then (l._DEL i, true) else (l, false)

/-- The array has `m_nMax` slots, `m_nUse` of them are taken, and no object stands in two. -/
structure WF (l : CTList β) : Prop where
  length : l.m_pArray.length = l.m_nMax
  use : l.m_nUse = l.m_pArray.countP Option.isSome
  inj : ∀ i j p, l.slot i = some p → l.slot j = some p → i = j

variable (l : CTList β)

theorem mem_iff_slot (p : β) : some p ∈ l.m_pArray ↔ ∃ i, l.slot i = some p := by
  unfold slot
  rw [List.mem_iff_getElem?]
  constructor
  · rintro ⟨i, hi⟩
    exact ⟨i, by simp [List.getD_eq_getElem?_getD, hi]⟩
  · rintro ⟨i, hi⟩
    refine ⟨i, ?_⟩
    rw [List.getD_eq_getElem?_getD] at hi
    cases h : l.m_pArray[i]? with
    | none => simp [h] at hi
    | some o =>
      rw [h] at hi
      exact congrArg some hi

theorem isExist_iff [DecidableEq β] (h : l.WF) (p : β) : l.isExist p = true ↔ some p ∈ l.m_pArray := by
  unfold isExist
  rw [← h.length, List.take_length]
  exact decide_eq_true_iff

theorem slot_set (a : List (Option β)) (i j : ℕ) (o : Option β) (hi : i < a.length) :
    (a.set i o).getD j none = if j = i then o else a.getD j none := by
  by_cases h : j = i
  · subst h
    simp [List.getD_eq_getElem?_getD, hi]
  · have hne : ¬i = j := fun e => h e.symm
    simp [List.getD_eq_getElem?_getD, h, hne]

theorem addSuccess_slot (h : l.WF) (i j : ℕ) (p : β) (hi : i < l.m_nMax) :
    (l.addSuccess i p).slot j = if j = i then some p else l.slot j := by
  exact slot_set l.m_pArray i j (some p) (by rw [h.length]; exact hi)

theorem wf_addSuccess (h : l.WF) (i : ℕ) (p : β) (hi : i < l.m_nMax) (hfree : l.slot i = none)
    (hp : some p ∉ l.m_pArray) : (l.addSuccess i p).WF := by
  have hlt : i < l.m_pArray.length := by
    rw [h.length]
    exact hi
  have hnone : l.m_pArray[i] = none := by
    rw [← hfree, slot, List.getD_eq_getElem _ _ hlt]
  have hnot (j : ℕ) : l.slot j ≠ some p := by
    intro hj
    exact hp ((mem_iff_slot l p).mpr ⟨j, hj⟩)
  constructor
  · simpa [addSuccess] using h.length
  · simp only [addSuccess]
    rw [List.countP_set hlt, hnone, h.use]
    simp
  · intro j k q hj hk
    rw [addSuccess_slot l h i j p hi] at hj
    rw [addSuccess_slot l h i k p hi] at hk
    split at hj
    · rename_i hji
      cases hj
      split at hk
      · rename_i hki
        rw [hji, hki]
      · exact absurd hk (hnot k)
    · split at hk
      · cases hk
        exact absurd hj (hnot j)
      · exact h.inj j k q hj hk

theorem mem_addSuccess (h : l.WF) (i : ℕ) (p q : β) (hi : i < l.m_nMax) (hfree : l.slot i = none) :
    some q ∈ (l.addSuccess i p).m_pArray ↔ q = p ∨ some q ∈ l.m_pArray := by
  rw [mem_iff_slot, mem_iff_slot]
  simp only [addSuccess_slot l h i _ p hi]
  constructor
  · rintro ⟨j, hj⟩
    split at hj
    · cases hj
      exact Or.inl rfl
    · exact Or.inr ⟨j, hj⟩
  · rintro (rfl | ⟨j, hj⟩)
    · exact ⟨i, if_pos rfl⟩
    · refine ⟨j, ?_⟩
      rw [if_neg]
      · exact hj
      · rintro rfl
        simp [hfree] at hj

-- the list after `__alloc` inside `push_back`
def grow : CTList β :=
  { l with
    m_pArray := l.m_pArray ++ List.replicate tListAddSize none
    m_nMax := l.m_nMax+tListAddSize }

theorem grow_slot (j : ℕ) : l.grow.slot j = l.slot j := by
  unfold grow slot
  simp only [List.getD_eq_getElem?_getD, List.getElem?_append, List.getElem?_replicate]
  by_cases h : j < l.m_pArray.length
  · simp [h]
  · rw [if_neg h]
    split <;> simp [List.getElem?_eq_none (not_lt.mp h)]

theorem wf_grow (h : l.WF) : l.grow.WF := by
  constructor
  · simp [grow, h.length]
  · simp [grow, h.use, List.countP_append, List.countP_replicate]
  · intro i j p hi hj
    rw [grow_slot] at hi hj
    exact h.inj i j p hi hj

theorem mem_grow (q : β) : some q ∈ l.grow.m_pArray ↔ some q ∈ l.m_pArray := by
  simp [grow]

theorem exists_free (h : l.WF) (huse : l.m_nUse < l.m_nMax) : ∃ i < l.m_nMax, l.slot i = none := by
  by_contra hall
  push Not at hall
  have hfull : l.m_pArray.countP Option.isSome = l.m_pArray.length := by
    apply List.countP_eq_length.mpr
    intro o ho
    obtain ⟨i, hi, rfl⟩ := List.getElem_of_mem ho
    have hs := hall i (by rw [← h.length]; exact hi)
    rw [slot, List.getD_eq_getElem _ _ hi] at hs
    exact Option.isSome_iff_ne_none.mpr hs
  rw [h.use, hfull, h.length] at huse
  omega

/-- `push_back` of a new object adds it and nothing else, if it does not leave the array and a larger
array can be had when the list is full. -/
theorem pushBack_spec (h : l.WF) (p : β) (ok : Bool) (hp : some p ∉ l.m_pArray)
    (hok : (l.m_nMax : ℤ) ≤ l.m_nUse → ok = true) (hlast : l.m_nUse < l.m_nMax → l.m_nLast < l.m_nMax) :
    ∃ l' i, l.pushBack p ok = .ok (l', some i) ∧ l'.WF ∧
      ∀ q, some q ∈ l'.m_pArray ↔ q = p ∨ some q ∈ l.m_pArray := by
  unfold pushBack
  by_cases hfull : (l.m_nMax : ℤ) ≤ l.m_nUse
  · have hi : l.m_nMax < l.grow.m_nMax := by
      simp [grow, tListAddSize]
    have hfree : l.grow.slot l.m_nMax = none := by
      rw [grow_slot, slot, List.getD_eq_default]
      exact h.length.le
    refine ⟨l.grow.addSuccess l.m_nMax p, l.m_nMax, ?_, ?_, ?_⟩
    · rw [if_pos hfull]
      simp [_alloc, hok hfull, grow, tListAddSize]
    · exact wf_addSuccess l.grow (wf_grow l h) l.m_nMax p hi hfree (by rw [mem_grow]; exact hp)
    · intro q
      rw [mem_addSuccess l.grow (wf_grow l h) l.m_nMax p q hi hfree, mem_grow]
  · have hroom : l.m_nUse < l.m_nMax := not_le.mp hfull
    have hin := hlast hroom
    have hadd (i : ℕ) (hi : i < l.m_nMax) (hfree : l.slot i = none) :
        (l.addSuccess i p).WF ∧
          ∀ q, some q ∈ (l.addSuccess i p).m_pArray ↔ q = p ∨ some q ∈ l.m_pArray := by
      exact ⟨wf_addSuccess l h i p hi hfree hp, fun q => mem_addSuccess l h i p q hi hfree⟩
    rw [if_neg hfull, if_neg (by omega)]
    by_cases hs : (l.slot l.m_nLast).isNone = true
    · rw [if_pos hs]
      exact ⟨_, _, rfl, hadd l.m_nLast hin (Option.isNone_iff_eq_none.mp hs)⟩
    · rw [if_neg hs]
      cases hscan : scanFrom l.m_nMax (fun i => (l.slot i).isNone) l.m_nMax l.m_nLast with
      | some i =>
        obtain ⟨hi, hfree⟩ := scanFrom_free l.m_nMax _ (by omega) l.m_nMax l.m_nLast i hin.le hscan
        exact ⟨_, _, rfl, hadd i hi (Option.isNone_iff_eq_none.mp hfree)⟩
      | none =>
        obtain ⟨i, hi, hfree⟩ := exists_free l h hroom
        have htaken := scanFrom_full_turn l.m_nMax _ l.m_nLast hin.le hscan i hi
        simp [hfree] at htaken

/-- `del` takes the object out and leaves the others. -/
theorem del_spec [DecidableEq β] (h : l.WF) (p : β) : (l.del p).1.WF ∧
    ∀ q, some q ∈ (l.del p).1.m_pArray ↔ q ≠ p ∧ some q ∈ l.m_pArray := by
  have htake : l.m_pArray.take l.m_nMax = l.m_pArray := by
    rw [← h.length, List.take_length]
  unfold del
  simp only [htake]
  by_cases hp : some p ∈ l.m_pArray
  · have hlt : l.m_pArray.idxOf (some p) < l.m_pArray.length := List.idxOf_lt_length_of_mem hp
    have hat : l.slot (l.m_pArray.idxOf (some p)) = some p := by
      rw [slot, List.getD_eq_getElem _ _ hlt]
      exact List.getElem_idxOf hlt
    rw [if_pos (by rw [← h.length]; exact hlt)]
    generalize l.m_pArray.idxOf (some p) = i at hlt hat
    have hslot (j : ℕ) : (l._DEL i).slot j = if j = i then none else l.slot j := by
      exact slot_set l.m_pArray i j none hlt
    have hget : l.m_pArray[i] = some p := by
      rw [← hat, slot, List.getD_eq_getElem _ _ hlt]
    constructor
    · constructor
      · simpa [_DEL] using h.length
      · have hpos : 0 < l.m_pArray.countP Option.isSome := by
          exact List.countP_pos_iff.mpr ⟨some p, hp, rfl⟩
        simp only [_DEL]
        rw [List.countP_set hlt, hget, h.use]
        simp
        omega
      · intro j k q hj hk
        rw [hslot] at hj hk
        split at hj
        · cases hj
        · split at hk
          · cases hk
          · exact h.inj j k q hj hk
    · intro q
      rw [mem_iff_slot, mem_iff_slot]
      simp only [hslot]
      constructor
      · rintro ⟨j, hj⟩
        split at hj
        · cases hj
        · rename_i hji
          refine ⟨?_, j, hj⟩
          rintro rfl
          exact hji (h.inj j i q hj hat)
      · rintro ⟨hne, j, hj⟩
        refine ⟨j, ?_⟩
        rw [if_neg]
        · exact hj
        · rintro rfl
          exact hne (Option.some.inj (hj.symm.trans hat))
  · rw [if_neg]
    · refine ⟨h, fun q => ⟨fun hq => ⟨?_, hq⟩, fun hq => hq.2⟩⟩
      rintro rfl
      exact hp hq
    · rw [← h.length, List.idxOf_lt_length_iff]
      exact hp

end CTList
end Leviathan
