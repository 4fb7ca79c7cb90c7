import Leviathan.FileFilter
import Leviathan.Runs

/-! `CStringList` (comMString.h, comMString.cpp): a growing list of strings, from which any can be deleted.
The allocation in `newIdx` succeeds, and the list has fewer strings than an `int` can count. -/
namespace Leviathan.StringList

open FileFilter (Text)
open Runs

section Model

/-- All fields of `CStringList`. -/
structure CStringList extends FileFilter.CStringList where
  m_nDelIdx : ℕ

/-- `alloc`. -/
def alloc (nMaxCount : ℕ) : CStringList := ⟨FileFilter.CStringList.alloc nMaxCount, 0⟩

def slotOf (l : FileFilter.CStringList) (i : ℕ) : Option Text := l.m_pList.getD i none

variable (l : CStringList)

def slot (i : ℕ) : Option Text := slotOf l.toCStringList i

def push_back (pString : Text) : Except Fault CStringList := do
  let base ← l.toCStringList.push_back pString
  return { l with toCStringList := base }

def add_new (pString : Text) : Except Fault CStringList :=
  match l.m_pList[l.m_nDelIdx]? with
  | none => .error .outOfBounds
  | some none => .ok { l with toCStringList := l.toCStringList.add pString l.m_nDelIdx }
  | some (some _) =>
    .ok { l with toCStringList := l.toCStringList.newIdx.1.add pString l.toCStringList.newIdx.2 }

def _DEL (i : ℕ) : CStringList :=
  match slot l i with
  | none => l
  | some _ => { l with m_pList := l.m_pList.set i none, m_nDelIdx := i, m_nUseCnt := l.m_nUseCnt-1 }

/-- `del(int i)`. -/
def delAt (i : ℤ) : CStringList × Bool :=
  if isInclude i l.m_nListCnt then (_DEL l i.toNat, true) else (l, false)

/-- `del(CmString *p)`, with the address or NULL. -/
def del (p : Option ℤ) : CStringList × Bool :=
  match (List.range l.m_nListCnt).find? (fun i => (slot l i).map Text.addr = p) with
  | some i => (_DEL l i, true)
  | none => (l, false)

/-- The loop of `__getNext` with `k` places left: the index where it stops, and the string. -/
def getNextFrom : ℕ → ℕ → ℕ × Option Text
  | 0, i => (i, none)
  | k+1, i =>
    match slot l i with
    | some p => (i, some p)
    | none => getNextFrom k (i+1)

def getNext (i : ℕ) : ℕ × Option Text := getNextFrom l (l.m_nListCnt-i) i

/-- The loop of `reportErrorList` over `getNext`, for at most `k` strings. -/
def enumerateFrom : ℕ → ℕ → List Text
  | 0, _ => []
  | k+1, i =>
    match getNext l i with
    | (i, some p) => p :: enumerateFrom k (i+1)
    | (_, none) => []

def enumerate : List Text := enumerateFrom l l.m_nListCnt 0

/-- The functions that change the list. -/
inductive Call
  | push_back (pString : Text)
  | add_new (pString : Text)
  | delAt (i : ℤ)
  | del (p : Option ℤ)

def call : Call → Except Fault CStringList
  | .push_back pString => push_back l pString
  | .add_new pString => add_new l pString
  | .delAt i => .ok (delAt l i).1
  | .del p => .ok (del l p).1

def step (c : Call) : Option CStringList := (call l c).toOption

end Model

/-- A string is put into a free place of the array, and nothing else changes. -/
def Stored (l : CStringList) (t : Text) (l' : CStringList) : Prop :=
  ∃ i < l'.m_nListCnt, slot l i = none ∧ slot l' i = some t ∧ ∀ j ≠ i, slot l' j = slot l j

/-- Nothing changes, or a place of the array is made free. -/
def Removed (l l' : CStringList) : Prop :=
  l' = l ∨ ∃ i < l.m_nListCnt, slot l' i = none ∧ ∀ j ≠ i, slot l' j = slot l j

/-- The call stays inside the array and overwrites nothing. -/
def Right (l : CStringList) (c : Call) : Prop :=
  ∃ l', call l c = .ok l' ∧
    match c with
    | .push_back t | .add_new t => Stored l t l'
    | .delAt _ | .del _ => Removed l l'

/-- A push finds the last place that was used before the end of the array. -/
def HasPlace (l : CStringList) : Call → Prop
  | .push_back _ => l.m_nLast < l.m_nListCnt
  | .add_new _ | .delAt _ | .del _ => True

/-- What every call keeps. -/
structure Inv (l : CStringList) : Prop where
  length : l.m_pList.length = l.m_nListCnt
  last : l.m_nLast ≤ l.m_nListCnt
  delIdx : l.m_nDelIdx < l.m_nListCnt

section Add

variable (b : FileFilter.CStringList)

theorem slotOf_add (t : Text) (i j : ℕ) (hi : i < b.m_pList.length) :
    slotOf (b.add t i) j = if j = i then some t else slotOf b j := by
  unfold slotOf FileFilter.CStringList.add
  rw [List.getD_eq_getElem?_getD, List.getD_eq_getElem?_getD, List.getElem?_set]
  by_cases hij : i = j
  · rw [if_pos hij, if_pos hij.symm, if_pos hi]
    rfl
  · rw [if_neg hij, if_neg (Ne.symm hij)]

theorem slotOf_of_getElem? (i : ℕ) (o : Option Text) (h : b.m_pList[i]? = some o) :
    i < b.m_pList.length ∧ slotOf b i = o := by
  obtain ⟨hi, -⟩ := List.getElem?_eq_some_iff.mp h
  apply And.intro hi
  rw [slotOf, List.getD_eq_getElem?_getD, h]
  rfl

/-- `newIdx` answers a free place of the array, which it may have made longer. -/
structure NewPlace (b' : FileFilter.CStringList) (i : ℕ) : Prop where
  inside : i < b'.m_nListCnt
  length : b'.m_pList.length = b'.m_nListCnt
  free : slotOf b i = none
  same : ∀ j, slotOf b' j = slotOf b j
  grown : b.m_nListCnt ≤ b'.m_nListCnt

theorem newPlace_newIdx (hlen : b.m_pList.length = b.m_nListCnt) (hpos : 0 < b.m_nListCnt) :
    NewPlace b b.newIdx.1 b.newIdx.2 := by
  unfold FileFilter.CStringList.newIdx
  split
  · next i hi =>
    obtain ⟨hlt, hfree⟩ := scanFrom_inside _ _ hpos _ _ _ hi
    exact ⟨hlt, hlen, Option.isNone_iff_eq_none.mp hfree, fun j => rfl, le_refl _⟩
  · refine ⟨?_, ?_, ?_, ?_, Nat.le_add_right _ _⟩
    · exact Nat.lt_add_of_pos_right (by decide)
    · rw [List.length_append, List.length_replicate, hlen]
    · rw [slotOf, List.getD_eq_getElem?_getD, List.getElem?_eq_none hlen.le]
      rfl
    · intro j
      unfold slotOf
      rw [List.getD_eq_getElem?_getD, List.getD_eq_getElem?_getD, List.getElem?_append]
      split_ifs with hj
      · rfl
      · rw [List.getElem?_eq_none (not_lt.mp hj), List.getElem?_replicate]
        split_ifs <;> rfl

end Add

section Calls

variable (l l' : CStringList) (h : Inv l)

include h

-- A string in a free place of the array keeps the invariant.
theorem stored_add (b : FileFilter.CStringList) (t : Text) (i : ℕ)
    (hnew : NewPlace l.toCStringList b i) :
    Stored l t { l with toCStringList := b.add t i } ∧ Inv { l with toCStringList := b.add t i } := by
  have hslot (j : ℕ) : slot { l with toCStringList := b.add t i } j =
      if j = i then some t else slot l j := by
    rw [slot, slotOf_add b t i j (hnew.length ▸ hnew.inside), hnew.same, slot]
  constructor
  · refine ⟨i, hnew.inside, hnew.free, ?_, fun j hj => ?_⟩
    · rw [hslot, if_pos rfl]
    · rw [hslot, if_neg hj]
  · constructor
    · exact List.length_set.trans hnew.length
    · exact hnew.inside
    · exact h.delIdx.trans_le hnew.grown

theorem stored_place (t : Text) (i : ℕ) (hi : l.m_pList[i]? = some none) :
    Stored l t { l with toCStringList := l.toCStringList.add t i } ∧
      Inv { l with toCStringList := l.toCStringList.add t i } := by
  obtain ⟨hlt, hfree⟩ := slotOf_of_getElem? l.toCStringList i none hi
  exact stored_add l h l.toCStringList t i ⟨h.length ▸ hlt, h.length, hfree, fun j => rfl, le_refl _⟩

theorem stored_newIdx (t : Text) :
    Stored l t { l with toCStringList := l.toCStringList.newIdx.1.add t l.toCStringList.newIdx.2 } ∧
      Inv { l with toCStringList := l.toCStringList.newIdx.1.add t l.toCStringList.newIdx.2 } :=
  stored_add l h _ t _ (newPlace_newIdx l.toCStringList h.length (Nat.zero_lt_of_lt h.delIdx))

theorem push_back_spec (t : Text) (hlast : l.m_nLast < l.m_nListCnt) :
    ∃ l', push_back l t = .ok l' ∧ Stored l t l' ∧ Inv l' := by
  have hlt : l.m_nLast < l.m_pList.length := h.length ▸ hlast
  cases hget : l.m_pList[l.m_nLast] with
  | none =>
    have hsome : l.m_pList[l.m_nLast]? = some none := by rw [List.getElem?_eq_getElem hlt, hget]
    refine ⟨_, ?_, stored_place l h t _ hsome⟩
    rw [push_back, FileFilter.CStringList.push_back, hsome]
    rfl
  | some p =>
    have hsome : l.m_pList[l.m_nLast]? = some (some p) := by rw [List.getElem?_eq_getElem hlt, hget]
    refine ⟨_, ?_, stored_newIdx l h t⟩
    rw [push_back, FileFilter.CStringList.push_back, hsome]
    rfl

theorem push_back_error (t : Text) (hlast : ¬l.m_nLast < l.m_nListCnt) :
    push_back l t = .error .outOfBounds := by
  have hnone : l.m_pList[l.m_nLast]? = none := by
    apply List.getElem?_eq_none
    rw [h.length]
    exact not_lt.mp hlast
  rw [push_back, FileFilter.CStringList.push_back, hnone]
  rfl

theorem add_new_spec (t : Text) : ∃ l', add_new l t = .ok l' ∧ Stored l t l' ∧ Inv l' := by
  have hlt : l.m_nDelIdx < l.m_pList.length := h.length ▸ h.delIdx
  cases hget : l.m_pList[l.m_nDelIdx] with
  | none =>
    have hsome : l.m_pList[l.m_nDelIdx]? = some none := by rw [List.getElem?_eq_getElem hlt, hget]
    refine ⟨_, ?_, stored_place l h t _ hsome⟩
    rw [add_new, hsome]
  | some p =>
    have hsome : l.m_pList[l.m_nDelIdx]? = some (some p) := by rw [List.getElem?_eq_getElem hlt, hget]
    refine ⟨_, ?_, stored_newIdx l h t⟩
    rw [add_new, hsome]

theorem _DEL_spec (i : ℕ) (hi : i < l.m_nListCnt) : Removed l (_DEL l i) ∧ Inv (_DEL l i) := by
  unfold _DEL
  split
  · exact ⟨Or.inl rfl, h⟩
  · constructor
    · right
      refine ⟨i, hi, ?_, fun j hj => ?_⟩
      · rw [slot, slotOf, List.getD_eq_getElem?_getD, List.getElem?_set_self (by rw [h.length]; exact hi)]
        rfl
      · rw [slot, slotOf, List.getD_eq_getElem?_getD, List.getElem?_set_ne (Ne.symm hj)]
        rfl
    · exact ⟨List.length_set.trans h.length, h.last, hi⟩

theorem delAt_spec (i : ℤ) : Removed l (delAt l i).1 ∧ Inv (delAt l i).1 := by
  unfold delAt
  split_ifs with hi
  · rw [isInclude_iff] at hi
    exact _DEL_spec l h i.toNat (by omega)
  · exact ⟨Or.inl rfl, h⟩

theorem del_spec (p : Option ℤ) : Removed l (del l p).1 ∧ Inv (del l p).1 := by
  unfold del
  split
  · next i hi => exact _DEL_spec l h i (List.mem_range.mp (List.mem_of_find?_eq_some hi))
  · exact ⟨Or.inl rfl, h⟩

/-- A call with a place is right, and keeps the invariant. -/
theorem call_spec (c : Call) (hc : HasPlace l c) : Right l c ∧ ∀ l', step l c = some l' → Inv l' := by
  have keeps (r : CStringList) (hr : call l c = .ok r) (hinv : Inv r) :
      ∀ l', step l c = some l' → Inv l' := by
    intro l' hl'
    rw [step, hr] at hl'
    obtain rfl := Option.some.inj hl'
    exact hinv
  cases c with
  | push_back t =>
    obtain ⟨r, hr, hstored, hinv⟩ := push_back_spec l h t hc
    exact ⟨⟨r, hr, hstored⟩, keeps r hr hinv⟩
  | add_new t =>
    obtain ⟨r, hr, hstored, hinv⟩ := add_new_spec l h t
    exact ⟨⟨r, hr, hstored⟩, keeps r hr hinv⟩
  | delAt i =>
    obtain ⟨hremoved, hinv⟩ := delAt_spec l h i
    exact ⟨⟨_, rfl, hremoved⟩, keeps _ rfl hinv⟩
  | del p =>
    obtain ⟨hremoved, hinv⟩ := del_spec l h p
    exact ⟨⟨_, rfl, hremoved⟩, keeps _ rfl hinv⟩

theorem right_iff_hasPlace (c : Call) : Right l c ↔ HasPlace l c := by
  apply Iff.intro _ (fun hc => (call_spec l h c hc).1)
  intro hright
  cases c with
  | push_back t =>
    by_contra hlast
    obtain ⟨r, hr, -⟩ := hright
    rw [call, push_back_error l h t hlast] at hr
    cases hr
  | add_new t => trivial
  | delAt i => trivial
  | del p => trivial

end Calls

section Enumeration

variable (l : CStringList)

-- From a place on, the next string and the strings behind it are all there are.
theorem getNextFrom_spec (k i : ℕ) : (List.range' i k).filterMap (slot l) =
    match getNextFrom l k i with
    | (j, some p) => p :: (List.range' (j+1) (i+k-(j+1))).filterMap (slot l)
    | (_, none) => [] := by
  induction k generalizing i with
  | zero => rfl
  | succ k ih =>
    rw [List.range'_succ, List.filterMap_cons, getNextFrom]
    cases hslot : slot l i with
    | none =>
      dsimp only
      rw [ih (i+1), Nat.add_right_comm, Nat.add_assoc]
    | some p =>
      dsimp only
      rw [Nat.add_sub_add_left, Nat.add_comm k 1, Nat.add_sub_cancel_left]

theorem getNextFrom_le (k i : ℕ) : i ≤ (getNextFrom l k i).1 := by
  induction k generalizing i with
  | zero => exact le_refl i
  | succ k ih =>
    rw [getNextFrom]
    cases slot l i with
    | none => exact (Nat.le_succ i).trans (ih (i+1))
    | some p => exact le_refl i

theorem enumerateFrom_eq (k i : ℕ) (hk : l.m_nListCnt ≤ i+k) :
    enumerateFrom l k i = (List.range' i (l.m_nListCnt-i)).filterMap (slot l) := by
  induction k generalizing i with
  | zero =>
    have hzero : l.m_nListCnt-i = 0 := by omega
    rw [hzero]
    rfl
  | succ k ih =>
    have hle := getNextFrom_le l (l.m_nListCnt-i) i
    rw [getNextFrom_spec, enumerateFrom, getNext]
    rcases hnext : getNextFrom l (l.m_nListCnt-i) i with ⟨j, _ | p⟩
    · rfl
    · rw [hnext] at hle
      dsimp only at hle ⊢
      rw [ih (j+1) (by omega)]
      have hcount : l.m_nListCnt-(j+1) = i+(l.m_nListCnt-i)-(j+1) := by omega
      rw [hcount]

/-- `getNext` yields the strings of the list, in the order of their places. -/
theorem enumerate_eq : enumerate l = (List.range l.m_nListCnt).filterMap (slot l) := by
  rw [enumerate, enumerateFrom_eq l _ 0 (by omega), Nat.sub_zero, List.range_eq_range']

end Enumeration

section Pushes

/-- The strings are the first ones of an array of `n` places. -/
structure Pushed (n : ℕ) (l : CStringList) (ts : List Text) : Prop where
  inv : Inv l
  count : l.m_nListCnt = n
  last : l.m_nLast = ts.length
  slots : ∀ i, slot l i = ts[i]?

variable (n : ℕ) (l : CStringList) (us ts : List Text)

theorem inv_alloc (hn : 1 ≤ n) : Inv (alloc n) := ⟨List.length_replicate, Nat.zero_le n, hn⟩

theorem pushed_alloc (hn : 1 ≤ n) : Pushed n (alloc n) [] := by
  refine ⟨inv_alloc n hn, rfl, rfl, fun i => ?_⟩
  rw [slot, slotOf, alloc, FileFilter.CStringList.alloc, List.getD_eq_getElem?_getD, List.getElem?_replicate]
  split_ifs <;> rfl

theorem Pushed.push (h : Pushed n l us) (t : Text) (hlt : us.length < n) :
    ∃ l', step l (.push_back t) = some l' ∧ Pushed n l' (us ++ [t]) := by
  have hlast : l.m_nLast < l.m_pList.length := by
    rw [h.last, h.inv.length, h.count]
    exact hlt
  have hfree : l.m_pList[l.m_nLast]? = some none := by
    have hslot := h.slots l.m_nLast
    have hnone : us[l.m_nLast]? = none := List.getElem?_eq_none h.last.ge
    rw [hnone, slot, slotOf, List.getD_eq_getElem?_getD, List.getElem?_eq_getElem hlast,
      Option.getD_some] at hslot
    rw [List.getElem?_eq_getElem hlast, hslot]
  refine ⟨{ l with toCStringList := l.toCStringList.add t l.m_nLast }, ?_,
    (stored_place l h.inv t _ hfree).2, h.count, ?_, fun i => ?_⟩
  · rw [step, call, push_back, FileFilter.CStringList.push_back, hfree]
    rfl
  · rw [List.length_append, List.length_singleton, ← h.last]
    rfl
  · have hbase : slotOf l.toCStringList i = us[i]? := h.slots i
    rw [slot, slotOf_add _ t _ i hlast, hbase, h.last]
    split_ifs with hi
    · rw [hi, List.getElem?_append_right le_rfl, Nat.sub_self]
      rfl
    · rcases lt_or_gt_of_ne hi with hi | hi
      · rw [List.getElem?_append_left hi]
      · rw [List.getElem?_eq_none hi.le, List.getElem?_eq_none]
        rw [List.length_append, List.length_singleton]
        exact hi

theorem Pushed.enumerate_eq (h : Pushed n l us) (hle : us.length ≤ n) : enumerate l = us := by
  have hall (vs : List Text) (d : ℕ) : (List.range (vs.length+d)).filterMap (fun i => vs[i]?) = vs := by
    induction vs generalizing d with
    | nil => simp
    | cons v vs ih =>
      rw [List.length_cons, Nat.add_right_comm, List.range_succ_eq_map, List.filterMap_cons,
        List.filterMap_map]
      exact congrArg (List.cons v) (ih d)
  obtain ⟨d, rfl⟩ := Nat.exists_eq_add_of_le hle
  have hslots : slot l = fun i => us[i]? := funext h.slots
  rw [StringList.enumerate_eq, h.count, hslots, hall us d]

-- Strings are pushed as long as there are places.
theorem Pushed.run (h : Pushed n l us) (hle : us.length+ts.length ≤ n) :
    ∃ l', runFrom step l (ts.map .push_back) = some l' ∧ Pushed n l' (us ++ ts) := by
  induction ts generalizing l us with
  | nil =>
    rw [List.append_nil]
    exact ⟨l, rfl, h⟩
  | cons t ts ih =>
    rw [List.length_cons] at hle
    obtain ⟨l1, hstep, h1⟩ := h.push n l us t (by omega)
    obtain ⟨l', hrun, h'⟩ := ih l1 (us ++ [t]) h1 (by
      rw [List.length_append, List.length_singleton]
      omega)
    rw [List.append_assoc, List.singleton_append] at h'
    exact ⟨l', (runFrom_cons_iff _ _ _ _ _).mpr ⟨l1, hstep, hrun⟩, h'⟩

theorem Pushed.along_iff (h : Pushed n l us) (hle : us.length ≤ n) :
    Along step HasPlace l (ts.map .push_back) ↔ us.length+ts.length ≤ n := by
  induction ts generalizing l us with
  | nil => exact iff_of_true trivial hle
  | cons t ts ih =>
    have hplace : HasPlace l (.push_back t) ↔ us.length < n := by
      rw [HasPlace, h.last, h.count]
    rw [List.length_cons]
    constructor
    · intro hal
      obtain ⟨l1, hstep, h1⟩ := h.push n l us t (hplace.mp hal.1)
      have hrest := (ih l1 (us ++ [t]) h1 (by
        rw [List.length_append, List.length_singleton]
        exact hplace.mp hal.1)).mp (hal.2 l1 hstep)
      rw [List.length_append, List.length_singleton] at hrest
      omega
    · intro hsum
      obtain ⟨l1, hstep, h1⟩ := h.push n l us t (by omega)
      refine ⟨hplace.mpr (by omega), fun l2 hl2 => ?_⟩
      obtain rfl := Option.some.inj (hstep.symm.trans hl2)
      apply (ih l1 (us ++ [t]) h1 _).mpr
      · rw [List.length_append, List.length_singleton]
        omega
      · rw [List.length_append, List.length_singleton]
        omega

end Pushes

section Results

variable (n : ℕ) (hn : 1 ≤ n)

include hn

theorem along_right_iff_hasPlace (calls : List Call) :
    Along step Right (alloc n) calls ↔ Along step HasPlace (alloc n) calls := by
  apply along_iff_of_invariant step (fun _ _ => True) Right HasPlace Inv
  · intro l c l' hl _ hc hstep
    exact (call_spec l hl c hc).2 l' hstep
  · exact fun l c hl _ => right_iff_hasPlace l hl c
  · exact inv_alloc n hn
  · exact along_of_forall step _ (fun _ _ => trivial) _ _

theorem along_pushes_iff (ts : List Text) :
    Along step Right (alloc n) (ts.map .push_back) ↔ ts.length ≤ n := by
  rw [along_right_iff_hasPlace n hn, (pushed_alloc n hn).along_iff n _ [] ts (Nat.zero_le n),
    List.length_nil, Nat.zero_add]

/-- All calls of a run are right exactly when no push comes behind the end of the array; strings that are
only pushed are as many as were allocated for, and are yielded in order. -/
theorem stringList_right_iff (calls : List Call) (ts : List Text) :
    (Along step Right (alloc n) calls ↔ Along step HasPlace (alloc n) calls) ∧
    (Along step Right (alloc n) (ts.map .push_back) ↔ ts.length ≤ n) ∧
    (ts.length ≤ n → ∃ l, runFrom step (alloc n) (ts.map .push_back) = some l ∧ enumerate l = ts) := by
  refine ⟨along_right_iff_hasPlace n hn calls, along_pushes_iff n hn ts, fun hle => ?_⟩
  obtain ⟨l, hrun, hl⟩ := (pushed_alloc n hn).run n _ [] ts (by rwa [List.length_nil, Nat.zero_add])
  rw [List.nil_append] at hl
  exact ⟨l, hrun, hl.enumerate_eq n l ts hle⟩

end Results

/-- A string at an address. -/
def textAt (addr : ℤ) : Text := ⟨addr, ⟨[110], CString.noNul_n⟩⟩

theorem stringList_right_iff_two : ∃ l, runFrom step (alloc 2)
    ([textAt 1, textAt 2].map .push_back) = some l ∧ enumerate l = [textAt 1, textAt 2] :=
  (stringList_right_iff 2 (by decide) [] [textAt 1, textAt 2]).2.2 (by decide)

-- a second push on a list of one place
theorem not_right_behind_end :
    ¬Along step Right (alloc 1) [.push_back (textAt 1), .push_back (textAt 2)] := by
  intro h
  exact absurd ((along_pushes_iff 1 le_rfl [textAt 1, textAt 2]).mp h) (by decide)

end Leviathan.StringList
