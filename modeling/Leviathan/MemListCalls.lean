import Leviathan.CircularScan
import Leviathan.MemList
import Leviathan.Runs

/-! `CMemList` (comTList.h) as one thread sees it: each call is a function on the list. -/
namespace Leviathan.CMemList

variable {Obj : Type}

section Model

variable (l : CMemList Obj)

def flagAt (i : ℤ) : Except Fault ℕ :=
  if isInclude i l.m_nMaxCount then .ok (l.m_nFlagArray i) else .error .outOfBounds

/-- The code at `ADD_SUCCESS`.  No other thread sees the flag at 1. -/
def addSuccess (o : Obj) (nAddIdx : ℤ) : Except Fault (CMemList Obj × ℤ) :=
  if isInclude nAddIdx l.m_nMaxCount then
    .ok ({ (l.setPtr nAddIdx o).setFlag nAddIdx 2 with m_nCurCount := i32 (l.m_nCurCount+1) }, nAddIdx)
  else .error .outOfBounds

/-- The loop of `add`, with `k` rounds left.  After the last one the code falls through to
`ADD_SUCCESS`. -/
def addLoop (o : Obj) : ℕ → ℤ → Except Fault (CMemList Obj × ℤ)
  | 0, nAddIdx => l.addSuccess o nAddIdx
  | k+1, nAddIdx =>
    if (l.m_nMaxCount : ℤ) ≤ l.m_nCurCount then .ok (l, -1)
    else do
      let nAddIdx := if nAddIdx = l.m_nMaxCount then 0 else nAddIdx
      if (← l.flagAt nAddIdx) = 0 then l.addSuccess o nAddIdx else addLoop o k (nAddIdx+1)

/-- `add`: the list and the index, or -1 where it is full. -/
def add (o : Obj) : Except Fault (CMemList Obj × ℤ) :=
  if 0 ≤ l.m_nEmptyFirstIdx then do
    if (← l.flagAt l.m_nEmptyFirstIdx) = 0 then
      let claimed : CMemList Obj := { l with m_nEmptyFirstIdx := -1 }
      claimed.addSuccess o l.m_nEmptyFirstIdx
    else l.addLoop o l.m_nMaxCount l.m_nCurCount
  else l.addLoop o l.m_nMaxCount l.m_nCurCount

def _del (i : ℤ) : CMemList Obj :=
  { l.setFlag i 0 with
    m_nEmptyFirstIdx :=
      if l.m_nEmptyFirstIdx < 0 ∨ i < l.m_nEmptyFirstIdx then i else l.m_nEmptyFirstIdx
    m_nCurCount := i32 (l.m_nCurCount-1) }

/-- `del(T *)`, with `k` cells left from `i` on.  It looks at the pointers only, also at those of free
cells. -/
def delFrom [DecidableEq Obj] (o : Obj) : ℕ → ℕ → CMemList Obj × Bool
  | 0, _ => (l, false)
  | k+1, i => if l.m_pArray i = some o then (l._del i, true) else delFrom o k (i+1)

def del [DecidableEq Obj] (o : Obj) : CMemList Obj × Bool := l.delFrom o l.m_nMaxCount 0

/-- `del(int)`. -/
def delIndex (i : ℤ) : CMemList Obj := if isInclude i l.m_nMaxCount then l._del i else l

/-- `getNext`, with `k` cells left from `i` on: the cell it stops at, and the pointer in it. -/
def nextFrom (l : CMemList Obj) : ℕ → ℕ → Option (ℕ × Obj)
  | 0, _ => none
  | k+1, i =>
    if l.m_nFlagArray i = 2 then (l.m_pArray i).map (fun o => (i, o)) else nextFrom l k (i+1)

def getNext (l : CMemList Obj) (i : ℕ) : Option (ℕ × Obj) := l.nextFrom (l.m_nMaxCount-i) i

end Model

/-- Cell `i` is free. -/
def Free (l : CMemList Obj) (i : ℤ) : Prop := (0 ≤ i ∧ i < l.m_nMaxCount) ∧ l.m_nFlagArray i = 0

/-- Cell `i` holds the object `o`. -/
def HoldsAt (l : CMemList Obj) (i : ℤ) (o : Obj) : Prop :=
  (0 ≤ i ∧ i < l.m_nMaxCount) ∧ l.m_nFlagArray i = 2 ∧ l.m_pArray i = some o

/-- The object `o` is in the list. -/
def Listed (l : CMemList Obj) (o : Obj) : Prop := ∃ i, HoldsAt l i o

inductive Call (Obj : Type)
  | add (o : Obj)
  | del (o : Obj)
  | delIndex (i : ℤ)

/-- One call; a fault ends the run. -/
def call [DecidableEq Obj] (l : CMemList Obj) : Call Obj → Option (CMemList Obj)
  | .add o => (l.add o).toOption.map Prod.fst
  | .del o => some (l.del o).1
  | .delIndex i => some (l.delIndex i)

/-- The list can be reached from a cleared one by `add` and `del`. -/
def Reached [DecidableEq Obj] (l : CMemList Obj) : Prop :=
  ∃ l₀ as, Runs.runFrom call (clear l₀) as = some l

/-- `m_nEmptyFirstIdx` is -1 or names a free cell, and cell 0 is free only when it is named. -/
structure HintOk (l : CMemList Obj) : Prop where
  free : 0 ≤ l.m_nEmptyFirstIdx → l.m_nEmptyFirstIdx < l.m_nMaxCount →
    l.m_nFlagArray l.m_nEmptyFirstIdx = 0
  range : l.m_nEmptyFirstIdx = 0 ∨ l.m_nEmptyFirstIdx < l.m_nMaxCount
  first : l.m_nEmptyFirstIdx ≠ 0 → l.m_nFlagArray 0 ≠ 0

section Hint

variable (l : CMemList Obj)

/-- The list after a store to cell `i`. -/
def stored (o : Obj) (i : ℤ) : CMemList Obj :=
  { (l.setPtr i o).setFlag i 2 with m_nCurCount := i32 (l.m_nCurCount+1) }

theorem addSuccess_eq (o : Obj) (i : ℤ) (hi : 0 ≤ i ∧ i < l.m_nMaxCount) :
    l.addSuccess o i = .ok (l.stored o i, i) := if_pos ((isInclude_iff _ _).mpr hi)

theorem addSuccess_ok (o : Obj) (i : ℤ) (r : CMemList Obj × ℤ) (h : l.addSuccess o i = .ok r) :
    (0 ≤ i ∧ i < l.m_nMaxCount) ∧ r = (l.stored o i, i) := by
  by_cases hi : isInclude i l.m_nMaxCount = true
  · rw [addSuccess, if_pos hi] at h
    exact ⟨(isInclude_iff _ _).mp hi, (Except.ok.inj h).symm⟩
  · rw [addSuccess, if_neg hi] at h
    cases h

theorem flagAt_eq (i : ℤ) (hi : 0 ≤ i ∧ i < l.m_nMaxCount) : l.flagAt i = .ok (l.m_nFlagArray i) :=
  if_pos ((isInclude_iff _ _).mpr hi)

theorem flagAt_error (i : ℤ) (hi : ¬(0 ≤ i ∧ i < l.m_nMaxCount)) : l.flagAt i = .error .outOfBounds :=
  if_neg (fun h => hi ((isInclude_iff _ _).mp h))

-- What a loop that does not fault has done: nothing, or a store to a cell.
theorem addLoop_ok (o : Obj) (k : ℕ) (i : ℤ) (r : CMemList Obj × ℤ) (h : l.addLoop o k i = .ok r) :
    r = (l, -1) ∨ ∃ j : ℤ, (0 ≤ j ∧ j < l.m_nMaxCount) ∧ r = (l.stored o j, j) := by
  induction k generalizing i with
  | zero => exact Or.inr ⟨i, addSuccess_ok l o i r h⟩
  | succ k ih =>
    rw [addLoop] at h
    by_cases hfull : (l.m_nMaxCount : ℤ) ≤ l.m_nCurCount
    · rw [if_pos hfull] at h
      exact Or.inl (Except.ok.inj h).symm
    · rw [if_neg hfull] at h
      obtain ⟨flag, -, h⟩ := (bind_eq_ok _ _ _).mp h
      by_cases hflag : flag = 0
      · rw [if_pos hflag] at h
        exact Or.inr ⟨_, addSuccess_ok l o _ r h⟩
      · rw [if_neg hflag] at h
        exact ih _ h

-- The hint of an allowed list is taken without a look at the other cells.
theorem add_hint (h : HintOk l) (o : Obj) (r : CMemList Obj × ℤ) (hpos : 0 ≤ l.m_nEmptyFirstIdx)
    (hadd : l.add o = .ok r) : l.m_nEmptyFirstIdx < l.m_nMaxCount ∧
      r = (({ l with m_nEmptyFirstIdx := -1 } : CMemList Obj).stored o l.m_nEmptyFirstIdx,
        l.m_nEmptyFirstIdx) := by
  rw [add, if_pos hpos] at hadd
  by_cases hi : l.m_nEmptyFirstIdx < l.m_nMaxCount
  · rw [flagAt_eq l _ ⟨hpos, hi⟩, ok_bind, if_pos (h.free hpos hi)] at hadd
    exact ⟨hi, (addSuccess_ok _ _ _ _ hadd).2⟩
  · rw [flagAt_error l _ (fun hr => hi hr.2)] at hadd
    cases hadd

theorem add_scan (o : Obj) (hneg : l.m_nEmptyFirstIdx < 0) :
    l.add o = l.addLoop o l.m_nMaxCount l.m_nCurCount := if_neg (not_le.mpr hneg)

theorem hintOk_clear : HintOk (clear l) := by
  refine ⟨?_, Or.inl rfl, fun hne => absurd rfl hne⟩
  intro _ hlt
  exact if_pos ((isInclude_iff _ _).mpr ⟨le_rfl, hlt⟩)

theorem flag_stored (o : Obj) (i j : ℤ) :
    (l.stored o i).m_nFlagArray j = if j = i then 2 else l.m_nFlagArray j :=
  Function.update_apply _ _ _ _

theorem hintOk_add (o : Obj) (r : CMemList Obj × ℤ) (h : HintOk l) (hadd : l.add o = .ok r) :
    HintOk r.1 := by
  rcases le_or_gt 0 l.m_nEmptyFirstIdx with hpos | hneg
  · obtain ⟨hlt, rfl⟩ := add_hint l h o r hpos hadd
    have hminus : (0 : ℤ) ≤ -1 → False := by
      decide
    have hlow : (-1 : ℤ) < l.m_nMaxCount := by
      omega
    refine ⟨fun h0 => (hminus h0).elim, Or.inr hlow, fun _ => ?_⟩
    rw [flag_stored]
    split_ifs with hfirst
    · decide
    · exact h.first (fun h0 => hfirst h0.symm)
  · rw [add_scan l o hneg] at hadd
    rcases addLoop_ok l o _ _ r hadd with rfl | ⟨j, -, rfl⟩
    · exact h
    · refine ⟨fun h0 => absurd h0 (not_le.mpr hneg), h.range, fun hne => ?_⟩
      rw [flag_stored]
      split_ifs
      · decide
      · exact h.first hne

theorem hintOk_del (i : ℤ) (h : HintOk l) (hi : 0 ≤ i ∧ i < l.m_nMaxCount) : HintOk (l._del i) := by
  have hflag (j : ℤ) : (l._del i).m_nFlagArray j = if j = i then 0 else l.m_nFlagArray j :=
    Function.update_apply _ _ _ _
  have hhint : (l._del i).m_nEmptyFirstIdx =
    if l.m_nEmptyFirstIdx < 0 ∨ i < l.m_nEmptyFirstIdx then i else l.m_nEmptyFirstIdx := rfl
  have hmax : (l._del i).m_nMaxCount = l.m_nMaxCount := rfl
  have hrange := h.range
  refine ⟨?_, ?_, ?_⟩ <;> rw [hhint]
  · intro _ hlt
    rw [hflag]
    by_cases hless : l.m_nEmptyFirstIdx < 0 ∨ i < l.m_nEmptyFirstIdx
    · rw [if_pos hless, if_pos rfl]
    · rw [if_neg hless] at hlt ⊢
      split_ifs
      · rfl
      · exact h.free (by omega) hlt
  · rw [hmax]
    split_ifs <;> omega
  · intro hne
    have hold : l.m_nEmptyFirstIdx ≠ 0 ∧ 0 ≠ i := by
      split_ifs at hne <;> omega
    rw [hflag, if_neg hold.2]
    exact h.first hold.1

variable [DecidableEq Obj]

theorem delFrom_cases (o : Obj) (k i : ℕ) : (l.delFrom o k i).1 = l ∨
    ∃ j, (i ≤ j ∧ j < i+k) ∧ l.m_pArray j = some o ∧ (l.delFrom o k i).1 = l._del j := by
  induction k generalizing i with
  | zero => exact Or.inl rfl
  | succ k ih =>
    rw [delFrom]
    by_cases hp : l.m_pArray i = some o
    · rw [if_pos hp]
      exact Or.inr ⟨i, by omega, hp, rfl⟩
    · rw [if_neg hp]
      rcases ih (i+1) with heq | ⟨j, hj, hpj, heq⟩
      · exact Or.inl heq
      · exact Or.inr ⟨j, by omega, hpj, heq⟩

theorem hintOk_call (l' : CMemList Obj) (c : Call Obj) (h : HintOk l) (hc : l.call c = some l') :
    HintOk l' := by
  cases c with
  | add o =>
    obtain ⟨r, hr, rfl⟩ := Option.map_eq_some_iff.mp hc
    cases hadd : l.add o with
    | error e =>
      rw [hadd] at hr
      cases hr
    | ok r' =>
      rw [hadd] at hr
      obtain rfl := Option.some.inj hr
      exact hintOk_add l o r' h hadd
  | del o =>
    obtain rfl := Option.some.inj hc
    rcases delFrom_cases l o l.m_nMaxCount 0 with heq | ⟨j, hj, -, heq⟩
    · rw [del, heq]
      exact h
    · rw [del, heq]
      exact hintOk_del l j h (by omega)
  | delIndex i =>
    obtain rfl := Option.some.inj hc
    rw [delIndex]
    split_ifs with hi
    · exact hintOk_del l i h ((isInclude_iff _ _).mp hi)
    · exact h

theorem hintOk_reached (h : Reached l) : HintOk l := by
  obtain ⟨l₀, as, hrun⟩ := h
  exact Runs.runFrom_invariant call HintOk (fun s a t hs ha => hintOk_call s t a hs ha) _ _ as
    (hintOk_clear l₀) hrun

end Hint

section Scan

variable (l : CMemList Obj)

-- With room in the count the loop is the search around the cells.
theorem addLoop_of_scan (o : Obj) (hroom : l.m_nCurCount < l.m_nMaxCount) (k i j : ℕ)
    (hi : i ≤ l.m_nMaxCount) (hn : 0 < l.m_nMaxCount)
    (hscan : scanFrom l.m_nMaxCount (fun c => l.m_nFlagArray c == 0) k i = some j) :
    l.addLoop o k i = .ok (l.stored o j, j) := by
  induction k generalizing i with
  | zero => cases hscan
  | succ k ih =>
    have hwrap : (if (i : ℤ) = l.m_nMaxCount then 0 else (i : ℤ)) =
        ((if l.m_nMaxCount ≤ i then 0 else i : ℕ) : ℤ) := by
      split_ifs <;> omega
    rw [scanFrom] at hscan
    rw [addLoop, if_neg (not_le.mpr hroom)]
    dsimp only at hscan ⊢
    rw [hwrap]
    generalize hc : (if l.m_nMaxCount ≤ i then 0 else i) = c at hscan ⊢
    have hlt : c < l.m_nMaxCount := by
      split_ifs at hc <;> omega
    rw [flagAt_eq l c (by omega), ok_bind]
    by_cases hfree : l.m_nFlagArray c = 0
    · rw [if_pos (by simpa using hfree)] at hscan
      obtain rfl := Option.some.inj hscan
      rw [if_pos hfree]
      exact addSuccess_eq l o c (by omega)
    · rw [if_neg (by simpa using hfree)] at hscan
      rw [if_neg hfree]
      exact_mod_cast ih (c+1) (by omega) hscan

-- A free cell is found from any start in the array.
theorem addLoop_finds (o : Obj) (i : ℕ) (hi : i ≤ l.m_nMaxCount) (hroom : l.m_nCurCount < l.m_nMaxCount)
    (hfree : ∃ c, Free l c) :
    ∃ j : ℕ, Free l j ∧ l.addLoop o l.m_nMaxCount i = .ok (l.stored o j, j) := by
  obtain ⟨c, ⟨hc0, hc⟩, hflag⟩ := hfree
  have hn : 0 < l.m_nMaxCount := by omega
  cases hscan : scanFrom l.m_nMaxCount (fun c => l.m_nFlagArray c == 0) l.m_nMaxCount i with
  | none =>
    have htaken := scanFrom_full_turn _ _ i hi hscan c.toNat (by omega)
    rw [Int.toNat_of_nonneg hc0, hflag] at htaken
    cases htaken
  | some j =>
    obtain ⟨hj, hfj⟩ := scanFrom_free _ _ hn _ i j hi hscan
    exact ⟨j, ⟨by omega, by simpa using hfj⟩, addLoop_of_scan l o hroom _ i j hi hn hscan⟩

-- A negative count starts the loop before the array.
theorem addLoop_negative (o : Obj) (hroom : l.m_nCurCount < l.m_nMaxCount) (k : ℕ) (i : ℤ)
    (hi : i < 0) : l.addLoop o k i = .error .outOfBounds := by
  cases k with
  | zero => exact if_neg (fun h => not_le.mpr hi ((isInclude_iff _ _).mp h).1)
  | succ k =>
    rw [addLoop, if_neg (not_le.mpr hroom), if_neg (by omega)]
    dsimp only
    rw [flagAt_error l i (by omega)]
    rfl

-- Once cell 0 is taken the loop does not answer 0.
theorem addLoop_ne_zero (o : Obj) (hfirst : l.m_nFlagArray 0 ≠ 0) (k : ℕ) (i : ℤ) (hi : 0 ≤ i)
    (hk : 0 < k ∨ 0 < i) (r : CMemList Obj × ℤ) (h : l.addLoop o k i = .ok r) : r.2 ≠ 0 := by
  induction k generalizing i with
  | zero =>
    obtain ⟨-, rfl⟩ := addSuccess_ok l o i r h
    show i ≠ 0
    omega
  | succ k ih =>
    rw [addLoop] at h
    by_cases hfull : (l.m_nMaxCount : ℤ) ≤ l.m_nCurCount
    · rw [if_pos hfull] at h
      obtain rfl := Except.ok.inj h
      exact (by decide : (-1 : ℤ) ≠ 0)
    · rw [if_neg hfull] at h
      dsimp only at h
      generalize hc : (if i = l.m_nMaxCount then 0 else i) = c at h
      have hc0 : 0 ≤ c := by
        split_ifs at hc <;> omega
      obtain ⟨flag, hflag, h⟩ := (bind_eq_ok _ _ _).mp h
      by_cases hzero : flag = 0
      · rw [if_pos hzero] at h
        obtain ⟨hr, rfl⟩ := addSuccess_ok l o c r h
        rw [flagAt_eq l c hr] at hflag
        rintro rfl
        exact hfirst ((Except.ok.inj hflag).trans hzero)
      · rw [if_neg hzero] at h
        exact ih (c+1) (by omega) (Or.inr (by omega)) h

end Scan

/-- The objects `xs` lie in the first cells, and nothing has been deleted since `clear`. -/
structure Filled (l : CMemList Obj) (xs : List Obj) : Prop where
  count : l.m_nCurCount = xs.length
  le_max : xs.length ≤ l.m_nMaxCount
  max : 0 < l.m_nMaxCount ∧ l.m_nMaxCount < 2^31
  hint : l.m_nEmptyFirstIdx = if xs = [] then 0 else -1
  flag : ∀ i : ℕ, i < l.m_nMaxCount → l.m_nFlagArray i = if i < xs.length then 2 else 0
  ptr : ∀ (i : ℕ) (h : i < xs.length), l.m_pArray i = some xs[i]

section Del

variable [DecidableEq Obj] (l : CMemList Obj) (o : Obj)

-- `del` frees the first cell with the pointer.
theorem del_first (i : ℕ) (hi : i < l.m_nMaxCount) (hp : l.m_pArray i = some o)
    (hfirst : ∀ j < i, l.m_pArray (j : ℕ) ≠ some o) : l.del o = (l._del i, true) := by
  have hfrom (k : ℕ) : ∀ j : ℕ, j ≤ i → i < j+k → l.delFrom o k j = (l._del i, true) := by
    induction k with
    | zero =>
      intro j hj hjk
      omega
    | succ k ih =>
      intro j hj hjk
      rw [delFrom]
      rcases hj.lt_or_eq with hlt | heq
      · rw [if_neg (hfirst j hlt)]
        exact ih (j+1) hlt (by omega)
      · rw [heq, if_pos hp]
  exact hfrom l.m_nMaxCount 0 (Nat.zero_le _) (by omega)

end Del

section Filled

variable (l : CMemList Obj) (xs : List Obj) (h : Filled l xs)

theorem filled_clear (hmax : 0 < l.m_nMaxCount ∧ l.m_nMaxCount < 2^31) : Filled (clear l) [] := by
  refine ⟨rfl, Nat.zero_le _, hmax, rfl, ?_, fun i hi => absurd hi (Nat.not_lt_zero i)⟩
  intro i hi
  have hin : isInclude (i : ℤ) l.m_nMaxCount = true := by
    have hlt : i < l.m_nMaxCount := hi
    rw [isInclude_iff]
    omega
  exact if_pos hin

include h

theorem holdsAt_filled (i : ℤ) (o : Obj) : HoldsAt l i o ↔ ∃ k : ℕ, i = k ∧ xs[k]? = some o := by
  constructor
  · rintro ⟨⟨hi0, hi⟩, hflag, hptr⟩
    obtain ⟨k, rfl⟩ := Int.eq_ofNat_of_zero_le hi0
    rw [h.flag k (by omega)] at hflag
    split_ifs at hflag with hk
    rw [h.ptr k hk] at hptr
    exact ⟨k, rfl, by rw [List.getElem?_eq_getElem hk, hptr]⟩
  · rintro ⟨k, rfl, hk⟩
    obtain ⟨hlt, rfl⟩ := List.getElem?_eq_some_iff.mp hk
    have hmax := h.le_max
    refine ⟨by omega, ?_, h.ptr k hlt⟩
    rw [h.flag k (by omega), if_pos hlt]

theorem listed_filled (o : Obj) : Listed l o ↔ o ∈ xs := by
  rw [List.mem_iff_getElem?]
  constructor
  · rintro ⟨i, hi⟩
    obtain ⟨k, -, hk⟩ := (holdsAt_filled l xs h i o).mp hi
    exact ⟨k, hk⟩
  · rintro ⟨k, hk⟩
    exact ⟨k, (holdsAt_filled l xs h k o).mpr ⟨k, rfl, hk⟩⟩

theorem filled_stored (o : Obj) (hroom : xs.length < l.m_nMaxCount) :
    Filled (({ l with m_nEmptyFirstIdx := -1 } : CMemList Obj).stored o xs.length) (xs ++ [o]) := by
  have hflag (i : ℕ) :
      (({ l with m_nEmptyFirstIdx := -1 } : CMemList Obj).stored o xs.length).m_nFlagArray i =
      if i = xs.length then 2 else l.m_nFlagArray i := by
    rw [flag_stored]
    norm_cast
  have hptr (i : ℕ) :
      (({ l with m_nEmptyFirstIdx := -1 } : CMemList Obj).stored o xs.length).m_pArray i =
      if i = xs.length then some o else l.m_pArray i := by
    refine (Function.update_apply _ _ _ _).trans ?_
    norm_cast
  have hmax := h.max
  refine ⟨?_, ?_, hmax, ?_, ?_, ?_⟩
  · show i32 (l.m_nCurCount+1) = _
    rw [h.count, i32_of_range _ (by omega) (by omega), List.length_append]
    rfl
  · rw [List.length_append]
    exact hroom
  · rw [if_neg (by simp)]
    rfl
  · intro i hi
    rw [hflag, h.flag i hi, List.length_append, List.length_singleton]
    split_ifs <;> omega
  · intro i hi
    rw [hptr]
    rw [List.length_append, List.length_singleton] at hi
    split_ifs with heq
    · simp [heq]
    · rw [h.ptr i (by omega), List.getElem_append_left]

-- The next object goes behind the others.
theorem add_filled (o : Obj) (hroom : xs.length < l.m_nMaxCount) : l.add o =
    .ok (({ l with m_nEmptyFirstIdx := -1 } : CMemList Obj).stored o xs.length, xs.length) := by
  by_cases hxs : xs = []
  · subst hxs
    have hhint : l.m_nEmptyFirstIdx = 0 := h.hint
    have hflag : l.m_nFlagArray 0 = 0 := h.flag 0 hroom
    rw [add, hhint, if_pos le_rfl, flagAt_eq l 0 ⟨le_rfl, by omega⟩, ok_bind, if_pos hflag]
    exact addSuccess_eq _ o 0 ⟨le_rfl, Nat.cast_pos.mpr h.max.1⟩
  · have hhint : l.m_nEmptyFirstIdx = -1 := h.hint.trans (if_neg hxs)
    have hcount : l.m_nCurCount < l.m_nMaxCount := by
      rw [h.count]
      omega
    have hscan : scanFrom l.m_nMaxCount (fun c => l.m_nFlagArray c == 0) l.m_nMaxCount xs.length =
        some xs.length := by
      obtain ⟨n, hn⟩ : ∃ n, l.m_nMaxCount = n+1 := ⟨l.m_nMaxCount-1, by omega⟩
      have hfree := h.flag xs.length hroom
      rw [if_neg (lt_irrefl _)] at hfree
      rw [hn] at hroom ⊢
      simp [scanFrom, hfree, show ¬n+1 ≤ xs.length by omega]
    have hloop := addLoop_of_scan l o hcount _ _ _ h.le_max h.max.1 hscan
    rw [← h.count] at hloop
    have hsame : ({ l with m_nEmptyFirstIdx := -1 } : CMemList Obj) = l := by
      rw [← hhint]
    rw [add_scan l o (by rw [hhint]; decide), hsame, ← h.count]
    exact hloop

theorem add_full (o : Obj) (hxs : xs ≠ []) (hfull : xs.length = l.m_nMaxCount) :
    l.add o = .ok (l, -1) := by
  have hhint : l.m_nEmptyFirstIdx = -1 := h.hint.trans (if_neg hxs)
  obtain ⟨n, hn⟩ : ∃ n, l.m_nMaxCount = n+1 := ⟨l.m_nMaxCount-1, by have := h.max.1; omega⟩
  rw [add_scan l o (by rw [hhint]; decide), hn, addLoop, if_pos (by rw [h.count, hfull])]

theorem getNext_filled (i : ℕ) : l.getNext i = xs[i]?.map (fun o => (i, o)) := by
  have hmax := h.le_max
  by_cases hi : i < xs.length
  · obtain ⟨n, hn⟩ : ∃ n, l.m_nMaxCount-i = n+1 := ⟨l.m_nMaxCount-i-1, by omega⟩
    have hflag := h.flag i (by omega)
    rw [if_pos hi] at hflag
    rw [getNext, hn, nextFrom, if_pos hflag, h.ptr i hi, List.getElem?_eq_getElem hi]
  · have hnone (k : ℕ) : ∀ j, xs.length ≤ j → j+k ≤ l.m_nMaxCount → l.nextFrom k j = none := by
      induction k with
      | zero => exact fun _ _ _ => rfl
      | succ k ih =>
        intro j hj hjk
        have hflag := h.flag j (by omega)
        rw [if_neg (by omega)] at hflag
        rw [nextFrom, hflag, if_neg (by decide)]
        exact ih (j+1) (by omega) (by omega)
    rw [List.getElem?_eq_none (by omega), Option.map_none, getNext]
    rcases le_total i l.m_nMaxCount with hle | hgt
    · exact hnone _ i (by omega) (by omega)
    · rw [Nat.sub_eq_zero_of_le hgt]
      rfl

-- Without an object twice in the list `del` finds the cell of the object.
theorem del_filled [DecidableEq Obj] (hnodup : xs.Nodup) (i : ℕ) (hi : i < xs.length) :
    l.del xs[i] = (l._del i, true) := by
  apply del_first l xs[i] i (hi.trans_le h.le_max) (h.ptr i hi)
  intro j hj hobj
  rw [h.ptr j (hj.trans hi)] at hobj
  exact hj.ne ((List.Nodup.getElem_inj_iff hnodup).mp (Option.some.inj hobj))

end Filled

end Leviathan.CMemList
