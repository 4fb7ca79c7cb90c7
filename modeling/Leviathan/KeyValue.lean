import Leviathan.BetweenConfig
import Leviathan.IntValue
import Leviathan.RunningBounds
import Leviathan.Tally

/-! `CAnalyzer_KeyValue` (LogAnalyzer, Analyzer_KeyValue.cpp): how often each value of a key occurs in
the lines of a type, and the bounds of the values. -/
namespace Leviathan

namespace CSList

variable {β : Type}

/-- The object that the pointer at `i` leads to becomes `obj`. -/
def store (l : CSList β) (i : ℕ) (obj : β) : CSList β :=
    { l with m_pArray := l.m_pArray.set i (some obj) }

theorem store_holds (l : CSList β) (xs : List β) (h : Holds l xs) (i : ℕ) (obj : β)
    (hi : i < xs.length) :
    Holds (l.store i obj) (xs.set i obj) := by
  have hlt : i < l.m_pArray.length := by
    rw [h.dense.length]
    exact hi.trans_le h.dense.le_max
  have hslot (j : ℕ) : (l.store i obj).slot j = (xs.set i obj)[j]? := by
    rw [List.getElem?_set, if_pos hi, ← h.slot]
    exact (slot_set l i j (some obj) hlt).trans (by simp [eq_comm])
  refine ⟨⟨?_, ?_, ?_, ?_, ?_, ?_⟩, hslot⟩
  · rw [store, List.length_set]
    exact h.dense.length
  · rw [List.length_set]
    exact h.dense.use
  · rw [List.length_set]
    exact h.dense.last
  · intro j hj
    rw [hslot, List.getElem?_eq_getElem hj]
    rfl
  · intro j hj
    rw [hslot, List.getElem?_eq_none hj]
  · rw [List.length_set]
    exact h.dense.le_max

theorem HoldsUpTo.store {largest : ℕ} (l : CSList β) (xs : List β) (h : HoldsUpTo largest l xs) (i : ℕ)
    (obj : β) (hi : i < xs.length) : HoldsUpTo largest (l.store i obj) (xs.set i obj) :=
  ⟨store_holds l xs h.holds i obj hi, h.largest⟩

end CSList

namespace KeyValue

open CmString IntValue RunningBounds Tally

section Model

structure STAnalyzer1_UnitData where
  nValue : ℤ
  nTotCount : ℤ
  deriving DecidableEq

structure STAnalyzer1_Line where
  pKeyword : CString
  nTotalLine : ℤ
  nTotCnt_expected : ℤ
  nMax : ℤ
  nMin : ℤ
  pValueKey : Option CString
  m_pUnitDataList : Option (CSList STAnalyzer1_UnitData)

/-- A line type of the configuration: the arguments of `initLine`. -/
structure LineConfig where
  pLineStartKey : CString
  pValueKey : Option CString
  nTotCnt_expected : ℤ

/-- `initLine`. -/
def initLine (m_pLineList : CSList STAnalyzer1_Line) (c : LineConfig) :
    Except Fault (CSList STAnalyzer1_Line) := do
  let pSTLine : STAnalyzer1_Line :=
    { pKeyword := c.pLineStartKey
      nTotalLine := 0
      nTotCnt_expected := c.nTotCnt_expected
      nMax := 0
      nMin := 0
      pValueKey := c.pValueKey
      m_pUnitDataList := c.pValueKey.map (fun _ => CSList.init.alloc 24 .alloc true) }
  let (m_pLineList, _) ← m_pLineList.pushBack pSTLine true
  return m_pLineList

/-- The list that `initConfig` makes, for the line types that have a start key. -/
def initConfig (nCount : ℕ) (config : List LineConfig) : Except Fault (CSList STAnalyzer1_Line) :=
  config.foldlM initLine (CSList.init.alloc nCount .alloc true)

/-- The loop of `getUnitData` with `k` indices left: where the value is, and its data. -/
def getUnitDataFrom (pUnitList : CSList STAnalyzer1_UnitData) (nValue : ℤ) :
    ℕ → ℕ → Option (ℕ × STAnalyzer1_UnitData)
  | 0, _ => none
  | k+1, i =>
    match pUnitList.getObj i with
    | none => none
    | some pUnitData =>
      if pUnitData.nValue = nValue then some (i, pUnitData)
      else getUnitDataFrom pUnitList nValue k (i+1)

def getUnitData (pUnitList : CSList STAnalyzer1_UnitData) (nValue : ℤ) :
    Option (ℕ × STAnalyzer1_UnitData) :=
  getUnitDataFrom pUnitList nValue (pUnitList.m_nMax+1) 0

/-- `pRes->nTotCount++`. -/
def countUp (pRes : STAnalyzer1_UnitData) : STAnalyzer1_UnitData :=
  { pRes with nTotCount := i32 (pRes.nTotCount+1) }

def setUnitData (pUnitList : CSList STAnalyzer1_UnitData) (nValue : ℤ) :
    Except Fault (CSList STAnalyzer1_UnitData) :=
  match getUnitData pUnitList nValue with
  | some (i, pRes) => .ok (pUnitList.store i (countUp pRes))
  | none => do
    let (pUnitList, nIdx) ← pUnitList.pushBack ⟨nValue, 0⟩ true
    match nIdx with
    | some i => return pUnitList.store i (countUp ⟨nValue, 0⟩)
    -- the data is in no list
    | none => return pUnitList

-- what `atoi` answers for a number that no `int` holds
variable (atoiOver : List UInt8 → ℤ)

/-- The end of `setLine`: the line count and the bounds. -/
def setBounds (nValue : ℤ) (pSTLine : STAnalyzer1_Line) : STAnalyzer1_Line :=
  let pSTLine := { pSTLine with nTotalLine := i32 (pSTLine.nTotalLine+1) }
  if nValue < pSTLine.nMin then { pSTLine with nMin := nValue }
  else if pSTLine.nMax < nValue then { pSTLine with nMax := nValue }
  else pSTLine

/-- `setLine`; `nValue` is what the variable of this name holds before it is set. -/
def setLine (p : List UInt8) (nValue : ℤ) (pSTLine : STAnalyzer1_Line) :
    Except Fault STAnalyzer1_Line :=
  match pSTLine.pValueKey with
  | none => .ok (setBounds nValue pSTLine)
  | some pValueKey => do
    let nValue ← getIntValue atoiOver p pValueKey.chars
    match pSTLine.m_pUnitDataList with
    | none => .error .nullRead
    | some pUnitList =>
      let pUnitList ← setUnitData pUnitList nValue
      return setBounds nValue { pSTLine with m_pUnitDataList := some pUnitList }

/-- A line of a file, and what `nValue` in `setLine` holds by chance for the line type at each index. -/
structure Input where
  p : CString
  nValue : ℕ → ℤ

/-- One line type in the loop of `parsingLine`. -/
def visit (e : Input) (i : ℕ) (pLine : STAnalyzer1_Line) : Except Fault STAnalyzer1_Line :=
  match ehstrstr e.p pLine.pKeyword with
  | none => .ok pLine
  | some pKeyPos => setLine atoiOver (e.p.chars.drop pKeyPos.toNat) (e.nValue i) pLine

/-- The loop of `parsingLine` with `k` indices left. -/
def parsingLineFrom (e : Input) : ℕ → ℕ → CSList STAnalyzer1_Line →
    Except Fault (CSList STAnalyzer1_Line)
  | 0, _, m_pLineList => .ok m_pLineList
  | k+1, i, m_pLineList =>
    match m_pLineList.getObj i with
    | none => .ok m_pLineList
    | some pLine => do
      let pLine ← visit atoiOver e i pLine
      parsingLineFrom e k (i+1) (m_pLineList.store i pLine)

/-- `parsingLine`, which always answers true; without a configuration there is no list. -/
def parsingLine (m_pLineList : Option (CSList STAnalyzer1_Line)) (e : Input) :
    Except Fault (Option (CSList STAnalyzer1_Line)) :=
  match m_pLineList with
  | none => .ok none
  | some l => (parsingLineFrom atoiOver e (l.m_nMax+1) 0 l).map some

/-- The analyzer on the lines of a file. -/
def parsingLines (nCount : ℕ) (config : List LineConfig) (lines : List Input) :
    Except Fault (Option (CSList STAnalyzer1_Line)) := do
  let m_pLineList ← initConfig nCount config
  lines.foldlM (parsingLine atoiOver) (some m_pLineList)

/-- What a line type takes from a line that it matches: the answer of `getIntValue`, or without a
value key what `nValue` holds. -/
def lineValue (c : LineConfig) (i : ℕ) (e : Input) : Except Fault (Option ℤ) :=
  match ehstrstr e.p c.pLineStartKey with
  | none => .ok none
  | some pKeyPos =>
    match c.pValueKey with
    | none => .ok (some (e.nValue i))
    | some pValueKey => (getIntValue atoiOver (e.p.chars.drop pKeyPos.toNat) pValueKey.chars).map some

/-- The values of the lines that match the type at index `i`. -/
def values (c : LineConfig) (i : ℕ) (lines : List Input) : List ℤ :=
  lines.filterMap (fun e => (lineValue atoiOver c i e).toOption.join)

end Model

/-- `getIntValue` returns for each line and each type that it matches. -/
def Reads (atoiOver : List UInt8 → ℤ) (config : List LineConfig) (lines : List Input) : Prop :=
  ∀ i c, config[i]? = some c → ∀ e ∈ lines, ∃ o, lineValue atoiOver c i e = .ok o

/-- Each value has one entry, with the number of its occurrences. -/
structure Histogram (units : List STAnalyzer1_UnitData) (vs : List ℤ) : Prop where
  distinct : (units.map (fun u => u.nValue)).Nodup
  count : ∀ u ∈ units, u.nTotCount = vs.count u.nValue
  occurs : ∀ v, v ∈ units.map (fun u => u.nValue) ↔ v ∈ vs

/-- The bounds of a type with a value key are those of its values, and the others stay 0. -/
def Exact (c : LineConfig) (vs : List ℤ) (pLine : STAnalyzer1_Line) : Prop :=
  match c.pValueKey with
  | some _ => ∀ m M, IsLeast {v | v ∈ vs} m → IsGreatest {v | v ∈ vs} M → pLine.nMin = m ∧
    pLine.nMax = M
  | none => pLine.nMin = 0 ∧ pLine.nMax = 0

/-- Zero is between the values of a type with a value key; for the others nothing but 0 is left in
`nValue`. -/
def AroundZero (c : LineConfig) (vs : List ℤ) : Prop :=
  match c.pValueKey with
  | some _ => ∀ m M, IsLeast {v | v ∈ vs} m → IsGreatest {v | v ∈ vs} M → m ≤ 0 ∧ 0 ≤ M
  | none => ∀ v ∈ vs, v = 0

/-- The unit list of every type with a value key has room for its values: behind them the capacity would
have to become a number that no `int` holds, and `push_back` writes behind the array. -/
def Roomy (config : List LineConfig) (vs : LineConfig → ℕ → List ℤ) : Prop :=
  ∀ i c, config[i]? = some c → c.pValueKey.isSome → (vs c i).toFinset.card ≤ largestMax 24

example : largestMax 24 = 2147483644 := by decide

def unitOf (v : ℤ) (n : ℕ) : STAnalyzer1_UnitData := ⟨v, i32 n⟩

section Units

variable (l : CSList STAnalyzer1_UnitData) (xs : List STAnalyzer1_UnitData) (v : ℤ)

theorem getUnitDataFrom_spec (h : CSList.Holds l xs) (k i : ℕ) (hk : xs.length < i+k) :
    (∃ j u, getUnitDataFrom l v k i = some (j, u) ∧ xs[j]? = some u ∧ u.nValue = v) ∨
      getUnitDataFrom l v k i = none ∧ ∀ u ∈ xs.drop i, u.nValue ≠ v := by
  induction k generalizing i with
  | zero =>
    apply Or.inr
    rw [List.drop_eq_nil_of_le (by omega)]
    exact ⟨rfl, fun u hu => absurd hu List.not_mem_nil⟩
  | succ k ih =>
    rw [getUnitDataFrom, CSList.getObj_holds l xs h]
    by_cases hi : i < xs.length
    · rw [List.getElem?_eq_getElem hi]
      dsimp only
      by_cases hv : xs[i].nValue = v
      · rw [if_pos hv]
        exact Or.inl ⟨i, xs[i], rfl, List.getElem?_eq_getElem hi, hv⟩
      · rw [if_neg hv]
        apply (ih (i+1) (by omega)).imp_right
        rintro ⟨hnone, hrest⟩
        refine ⟨hnone, fun u hu => ?_⟩
        rw [List.drop_eq_getElem_cons hi, List.mem_cons] at hu
        exact hu.elim (fun heq => heq ▸ hv) (hrest u)
    · rw [List.getElem?_eq_none (by omega), List.drop_eq_nil_of_le (by omega)]
      exact Or.inr ⟨rfl, fun u hu => absurd hu List.not_mem_nil⟩

theorem getUnitData_spec (h : CSList.Holds l xs) :
    (∃ j u, getUnitData l v = some (j, u) ∧ xs[j]? = some u ∧ u.nValue = v) ∨
      getUnitData l v = none ∧ ∀ u ∈ xs, u.nValue ≠ v := by
  have hle := h.dense.le_max
  exact getUnitDataFrom_spec l xs v h (l.m_nMax+1) 0 (by omega)

theorem countUp_unitOf (n : ℕ) : countUp (unitOf v n) = unitOf v (n+1) := by
  rw [countUp, unitOf, unitOf, i32_i32_add, Nat.cast_add, Nat.cast_one]

section SetUnitData

variable (keys vs : List ℤ) (hd : Distinct keys vs)
  (h : CSList.HoldsUpTo (largestMax 24) l (entries unitOf keys vs))

include hd h

-- A value that has its entry is counted there.
theorem setUnitData_again (j : ℕ) (u : STAnalyzer1_UnitData) (hget : getUnitData l v = some (j, u))
    (hj : (entries unitOf keys vs)[j]? = some u) (hu : u.nValue = v) :
    ∃ l', setUnitData l v = .ok l' ∧ Distinct keys (vs ++ [v]) ∧
      CSList.HoldsUpTo (largestMax 24) l' (entries unitOf keys (vs ++ [v])) := by
  obtain ⟨w, hw, rfl⟩ := Option.map_eq_some_iff.mp ((getElem?_entries unitOf keys vs j).symm.trans hj)
  obtain rfl : w = v := hu
  have hmem : w ∈ vs := (hd.mem_iff w).mp (List.mem_of_getElem? hw)
  have hlt : j < (entries unitOf keys vs).length := (List.getElem?_eq_some_iff.mp hj).1
  refine ⟨l.store j (countUp (unitOf w (vs.count w))), ?_, hd.again keys vs w hmem, ?_⟩
  · rw [setUnitData, hget]
  · rw [hd.entries_again unitOf keys vs w j hw, ← countUp_unitOf]
    exact h.store l _ j _ hlt

-- A new one gets the entry behind the others, if there is room.
theorem setUnitData_first (hget : getUnitData l v = none) (hmem : v ∉ vs)
    (hroom : keys.length < largestMax 24) :
    ∃ l', setUnitData l v = .ok l' ∧
      CSList.HoldsUpTo (largestMax 24) l' (entries unitOf (keys ++ [v]) (vs ++ [v])) := by
  have hlen := length_entries unitOf keys vs
  obtain ⟨l', hpush, hl'⟩ := h.pushBack ⟨v, 0⟩ (hlen.trans_lt hroom)
  refine ⟨l'.store keys.length (countUp ⟨v, 0⟩), ?_, ?_⟩
  · rw [setUnitData, hget]
    dsimp only
    rw [hpush, ok_bind, hlen]
    rfl
  · have hstore := hl'.store l' _ keys.length (countUp ⟨v, 0⟩)
      (by rw [List.length_append, hlen, List.length_singleton]; omega)
    rw [hd.entries_first unitOf keys vs v hmem]
    rwa [List.set_append_right _ _ hlen.le, hlen, Nat.sub_self, List.set_cons_zero] at hstore

omit hd in
theorem setUnitData_over (hget : getUnitData l v = none) (hfull : largestMax 24 ≤ keys.length) :
    setUnitData l v = .error .outOfBounds := by
  have hlen := length_entries unitOf keys vs
  rw [setUnitData, hget]
  dsimp only
  rw [CSList.pushBack_over l _ ⟨v, 0⟩ true h.holds (by rw [h.largest, hlen]; exact hfull)]
  rfl

-- The list has an entry for each value so far, and then for the new value too, if there is room.
theorem setUnitData_spec :
    (∃ l' keys', setUnitData l v = .ok l' ∧ Distinct keys' (vs ++ [v]) ∧
      CSList.HoldsUpTo (largestMax 24) l' (entries unitOf keys' (vs ++ [v]))) ∨
    (largestMax 24 < (vs ++ [v]).toFinset.card ∧ setUnitData l v = .error .outOfBounds) := by
  rcases getUnitData_spec l _ v h.holds with ⟨j, u, hget, hj, hu⟩ | ⟨hget, hnone⟩
  · obtain ⟨l', hset⟩ := setUnitData_again l v keys vs hd h j u hget hj hu
    exact Or.inl ⟨l', keys, hset⟩
  · have hmem : v ∉ vs := by
      intro hv
      have hkey := List.mem_map_of_mem (f := fun w => unitOf w (vs.count w)) ((hd.mem_iff v).mpr hv)
      exact hnone _ hkey rfl
    have hfirst := hd.first keys vs v hmem
    rcases lt_or_ge keys.length (largestMax 24) with hroom | hfull
    · obtain ⟨l', hset, hl'⟩ := setUnitData_first l v keys vs hd h hget hmem hroom
      exact Or.inl ⟨l', keys ++ [v], hset, hfirst, hl'⟩
    · refine Or.inr ⟨?_, setUnitData_over l v keys vs h hget hfull⟩
      rw [← hfirst.card _ _, List.length_append, List.length_singleton]
      exact Nat.lt_succ_of_le hfull

end SetUnitData

end Units

section Lines

/-- What a line type has come to after the lines with the values `vs`. -/
structure Tracks (c : LineConfig) (vs : List ℤ) (pLine : STAnalyzer1_Line) : Prop where
  keyword : pLine.pKeyword = c.pLineStartKey
  valueKey : pLine.pValueKey = c.pValueKey
  total : pLine.nTotalLine = i32 vs.length
  bounds : (pLine.nMin, pLine.nMax) = vs.foldl widen (0, 0)
  units : c.pValueKey.isSome → ∃ l keys, pLine.m_pUnitDataList = some l ∧ Distinct keys vs ∧
    CSList.HoldsUpTo (largestMax 24) l (entries unitOf keys vs)

/-- The list has the line types of the configuration, each with its values. -/
def Kept (config : List LineConfig) (vs : LineConfig → ℕ → List ℤ) (l : CSList STAnalyzer1_Line) :
    Prop :=
  ∃ xs, CSList.Holds l xs ∧ xs.length = config.length ∧
    ∀ i c, config[i]? = some c → ∃ pLine, xs[i]? = some pLine ∧ Tracks c (vs c i) pLine

variable (atoiOver : List UInt8 → ℤ) (c : LineConfig) (vs : List ℤ) (pLine : STAnalyzer1_Line)

theorem setBounds_tracks (v : ℤ) (units : Option (CSList STAnalyzer1_UnitData)) (h : Tracks c vs pLine)
    (hunits : c.pValueKey.isSome → ∃ l keys, units = some l ∧ Distinct keys (vs ++ [v]) ∧
      CSList.HoldsUpTo (largestMax 24) l (entries unitOf keys (vs ++ [v]))) :
    Tracks c (vs ++ [v]) (setBounds v { pLine with m_pUnitDataList := units }) := by
  have htotal : i32 (pLine.nTotalLine+1) = i32 (vs ++ [v]).length := by
    rw [h.total, i32_i32_add, List.length_append, List.length_singleton, Nat.cast_add, Nat.cast_one]
  have hbounds : (vs ++ [v]).foldl widen (0, 0) = widen (pLine.nMin, pLine.nMax) v := by
    rw [List.foldl_append, ← h.bounds, List.foldl_cons, List.foldl_nil]
  unfold setBounds
  unfold widen at hbounds
  dsimp only at hbounds ⊢
  split_ifs at hbounds ⊢
  · exact ⟨h.keyword, h.valueKey, htotal, hbounds.symm, hunits⟩
  · exact ⟨h.keyword, h.valueKey, htotal, hbounds.symm, hunits⟩
  · exact ⟨h.keyword, h.valueKey, htotal, hbounds.symm, hunits⟩

-- A line that does not match changes nothing.
theorem visit_tracks (e : Input) (i : ℕ) (h : Tracks c vs pLine) (o : Option ℤ)
    (ho : lineValue atoiOver c i e = .ok o) :
    (∃ pLine', visit atoiOver e i pLine = .ok pLine' ∧ Tracks c (vs ++ o.toList) pLine') ∨
    ((c.pValueKey.isSome ∧ largestMax 24 < (vs ++ o.toList).toFinset.card) ∧
      visit atoiOver e i pLine = .error .outOfBounds) := by
  unfold lineValue at ho
  unfold visit
  rw [h.keyword]
  cases hkey : ehstrstr e.p c.pLineStartKey with
  | none =>
    rw [hkey] at ho
    cases ho
    exact Or.inl ⟨pLine, rfl, by rwa [Option.toList_none, List.append_nil]⟩
  | some pKeyPos =>
    rw [hkey] at ho
    dsimp only at ho ⊢
    unfold setLine
    rw [h.valueKey]
    cases hval : c.pValueKey with
    | none =>
      rw [hval] at ho
      cases ho
      refine Or.inl ⟨_, rfl, setBounds_tracks c vs pLine _ pLine.m_pUnitDataList h (fun hs => ?_)⟩
      rw [hval] at hs
      cases hs
    | some pValueKey =>
      rw [hval] at ho
      obtain ⟨v, hv, rfl⟩ := (map_eq_ok _ _ _).mp ho
      obtain ⟨l, keys, hl, hd, hholds⟩ := h.units (by rw [hval]; rfl)
      dsimp only
      rw [hv, ok_bind, hl]
      dsimp only
      rcases setUnitData_spec l v keys vs hd hholds with ⟨l', keys', hset, hd', hholds'⟩ | ⟨hfew, hset⟩
      · refine Or.inl ⟨setBounds v { pLine with m_pUnitDataList := some l' }, ?_, ?_⟩
        · rw [hset, ok_bind, ← hval, ← h.valueKey]
          rfl
        · exact setBounds_tracks c vs pLine v (some l') h (fun _ => ⟨l', keys', rfl, hd', hholds'⟩)
      · refine Or.inr ⟨⟨rfl, hfew⟩, ?_⟩
        rw [hset]
        rfl

theorem values_single (i : ℕ) (e : Input) (o : Option ℤ) (ho : lineValue atoiOver c i e = .ok o) :
    values atoiOver c i [e] = o.toList := by
  rw [values, List.filterMap_cons, ho]
  cases o <;> rfl

theorem values_cons (i : ℕ) (e : Input) (lines : List Input) :
    values atoiOver c i (e :: lines) = values atoiOver c i [e] ++ values atoiOver c i lines := by
  rw [values, ← List.singleton_append, List.filterMap_append]
  rfl

end Lines

section Run

variable (atoiOver : List UInt8 → ℤ) (config : List LineConfig)

theorem Kept.congr (vs vs' : LineConfig → ℕ → List ℤ) (l : CSList STAnalyzer1_Line)
    (h : Kept config vs l)
    (heq : ∀ c, ∀ i < config.length, vs c i = vs' c i) : Kept config vs' l := by
  obtain ⟨xs, hholds, hlen, hall⟩ := h
  refine ⟨xs, hholds, hlen, fun i c hc => ?_⟩
  rw [← heq c i (List.getElem?_eq_some_iff.mp hc).1]
  exact hall i c hc

theorem Kept.roomy (vs : LineConfig → ℕ → List ℤ) (l : CSList STAnalyzer1_Line)
    (h : Kept config vs l) : Roomy config vs := by
  intro i c hc hkey
  obtain ⟨xs, -, -, hall⟩ := h
  obtain ⟨pLine, -, htracks⟩ := hall i c hc
  obtain ⟨units, keys, -, hd, hholds⟩ := htracks.units hkey
  have hle := hholds.holds.dense.le_max.trans (le_largestMax units.m_nMax)
  rwa [hholds.largest, length_entries, hd.card keys _] at hle

theorem Roomy.of_append (vs ws : LineConfig → ℕ → List ℤ)
    (h : Roomy config (fun c j => vs c j ++ ws c j)) : Roomy config vs := by
  intro i c hc hkey
  refine le_trans (Finset.card_le_card ?_) (h i c hc hkey)
  rw [List.toFinset_append]
  exact Finset.subset_union_left

-- One line type takes in a line.
theorem Kept.store (vs vs' : LineConfig → ℕ → List ℤ) (l : CSList STAnalyzer1_Line) (i : ℕ)
    (c : LineConfig) (pLine : STAnalyzer1_Line) (h : Kept config vs l) (hc : config[i]? = some c)
    (htracks : Tracks c (vs' c i) pLine) (hsame : ∀ c j, j ≠ i → vs' c j = vs c j) :
    Kept config vs' (l.store i pLine) := by
  obtain ⟨xs, hholds, hlen, hall⟩ := h
  have hi : i < xs.length := hlen ▸ (List.getElem?_eq_some_iff.mp hc).1
  refine ⟨xs.set i pLine, CSList.store_holds l xs hholds i pLine hi, ?_, fun j d hd => ?_⟩
  · rw [List.length_set, hlen]
  · rcases eq_or_ne j i with rfl | hij
    · obtain rfl : c = d := Option.some.inj (hc.symm.trans hd)
      exact ⟨pLine, List.getElem?_set_self hi, htracks⟩
    · obtain ⟨pOther, hother, ht⟩ := hall j d hd
      refine ⟨pOther, (List.getElem?_set_ne hij.symm).trans hother, ?_⟩
      rwa [hsame d j hij]

-- The line types below `i` have taken in the line already.
theorem parsingLineFrom_kept (vs : LineConfig → ℕ → List ℤ) (e : Input)
    (hread : Reads atoiOver config [e])
    (k i : ℕ) (l : CSList STAnalyzer1_Line) (hk : config.length < i+k)
    (h : Kept config (fun c j => if j < i then vs c j ++ values atoiOver c j [e] else vs c j) l) :
    (∃ l', parsingLineFrom atoiOver e k i l = .ok l' ∧
      Kept config (fun c j => vs c j ++ values atoiOver c j [e]) l') ∨
    (¬Roomy config (fun c j => vs c j ++ values atoiOver c j [e]) ∧
      parsingLineFrom atoiOver e k i l = .error .outOfBounds) := by
  induction k generalizing i l with
  | zero =>
    refine Or.inl ⟨l, rfl, h.congr config _ _ l (fun c j hj => ?_)⟩
    exact if_pos (by omega)
  | succ k ih =>
    obtain ⟨xs, hholds, hlen, hall⟩ := id h
    rw [parsingLineFrom, CSList.getObj_holds l xs hholds]
    by_cases hi : i < config.length
    · have hc : config[i]? = some config[i] := List.getElem?_eq_getElem hi
      obtain ⟨pLine, hline, htracks⟩ := hall i _ hc
      obtain ⟨o, ho⟩ := hread i _ hc e (List.mem_singleton_self e)
      dsimp only at htracks
      rw [if_neg (lt_irrefl i)] at htracks
      rw [hline]
      dsimp only
      rcases visit_tracks atoiOver _ _ pLine e i htracks o ho with
        ⟨pLine', hvisit, htracks'⟩ | ⟨⟨hkey, hmany⟩, hvisit⟩
      · rw [hvisit, ok_bind]
        apply ih (i+1) _ (by omega)
        refine h.store config _ _ l i _ pLine' hc ?_ (fun c j hij => ?_)
        · rw [if_pos (Nat.lt_succ_self i), values_single atoiOver _ i e o ho]
          exact htracks'
        · have hiff : j < i+1 ↔ j < i := by omega
          simp only [hiff]
      · refine Or.inr ⟨fun hroomy => ?_, by rw [hvisit]; rfl⟩
        rw [← values_single atoiOver _ i e o ho] at hmany
        exact absurd (hroomy i _ hc hkey) (not_le.mpr hmany)
    · rw [List.getElem?_eq_none (by omega)]
      refine Or.inl ⟨l, rfl, h.congr config _ _ l (fun c j hj => ?_)⟩
      exact if_pos (by omega)

theorem parsingLine_kept (vs : LineConfig → ℕ → List ℤ) (e : Input) (hread : Reads atoiOver config [e])
    (l : CSList STAnalyzer1_Line) (h : Kept config vs l) :
    (∃ l', parsingLine atoiOver (some l) e = .ok (some l') ∧
      Kept config (fun c j => vs c j ++ values atoiOver c j [e]) l') ∨
    (¬Roomy config (fun c j => vs c j ++ values atoiOver c j [e]) ∧
      parsingLine atoiOver (some l) e = .error .outOfBounds) := by
  have hmax : config.length ≤ l.m_nMax := by
    obtain ⟨xs, hholds, hlen, -⟩ := h
    rw [← hlen]
    exact hholds.dense.le_max
  rw [parsingLine]
  rcases parsingLineFrom_kept atoiOver config vs e hread (l.m_nMax+1) 0 l (by omega)
    (h.congr config _ _ l (fun c j _ => (if_neg (Nat.not_lt_zero j)).symm)) with
    ⟨l', hrun, hkept⟩ | ⟨hcrowded, hrun⟩
  · exact Or.inl ⟨l', by rw [hrun]; rfl, hkept⟩
  · exact Or.inr ⟨hcrowded, by rw [hrun]; rfl⟩

theorem foldlM_kept (lines : List Input) (vs : LineConfig → ℕ → List ℤ)
    (hread : Reads atoiOver config lines) (l : CSList STAnalyzer1_Line) (h : Kept config vs l) :
    (∃ l', lines.foldlM (parsingLine atoiOver) (some l) = .ok (some l') ∧
      Kept config (fun c j => vs c j ++ values atoiOver c j lines) l') ∨
    (¬Roomy config (fun c j => vs c j ++ values atoiOver c j lines) ∧
      lines.foldlM (parsingLine atoiOver) (some l) = .error .outOfBounds) := by
  induction lines generalizing vs l with
  | nil => exact Or.inl ⟨l, rfl, h.congr config _ _ l (fun c j _ => (List.append_nil _).symm)⟩
  | cons e lines ih =>
    have hhead : Reads atoiOver config [e] := by
      intro i c hc e' he
      exact hread i c hc e' (List.mem_cons.mpr (Or.inl (List.mem_singleton.mp he)))
    have htail : Reads atoiOver config lines :=
      fun i c hc e' he => hread i c hc e' (List.mem_cons_of_mem e he)
    have hvalues : (fun c j => vs c j ++ values atoiOver c j (e :: lines)) =
        fun c j => vs c j ++ values atoiOver c j [e] ++ values atoiOver c j lines := by
      funext c j
      rw [values_cons atoiOver c j e lines, List.append_assoc]
    rw [hvalues, List.foldlM_cons]
    rcases parsingLine_kept atoiOver config vs e hhead l h with ⟨l', hstep, hkept⟩ | ⟨hcrowded, hstep⟩
    · rw [hstep, ok_bind]
      exact ih _ htail l' hkept
    · rw [hstep]
      exact Or.inr ⟨fun hroomy => hcrowded (hroomy.of_append config _ _), rfl⟩

-- A new line type is all zero.
theorem initLine_kept (nCount : ℕ) (done : List LineConfig) (c : LineConfig)
    (hroom : done.length < nCount) (l : CSList STAnalyzer1_Line)
    (hlargest : largestMax l.m_nMax = largestMax nCount) (h : Kept done (fun _ _ => []) l) :
    ∃ l', initLine l c = .ok l' ∧ largestMax l'.m_nMax = largestMax nCount ∧
      Kept (done ++ [c]) (fun _ _ => []) l' := by
  obtain ⟨xs, hholds, hlen, hall⟩ := h
  let pSTLine : STAnalyzer1_Line :=
    ⟨c.pLineStartKey, 0, c.nTotCnt_expected, 0, 0, c.pValueKey,
      c.pValueKey.map (fun _ => CSList.init.alloc 24 .alloc true)⟩
  have hless : xs.length < largestMax l.m_nMax := by
    rw [hlargest, hlen]
    exact hroom.trans_le (le_largestMax nCount)
  obtain ⟨l', hpush, hholds', hlargest'⟩ := CSList.pushBack_holds l xs pSTLine hholds hless
  refine ⟨l', ?_, hlargest'.trans hlargest, xs ++ [pSTLine], hholds', ?_, ?_⟩
  · rw [initLine, hpush]
    rfl
  · rw [List.length_append, List.length_append, hlen]
    rfl
  · intro i c' hc'
    rw [List.getElem?_append] at hc' ⊢
    rw [hlen]
    split_ifs at hc' ⊢ with hi
    · exact hall i c' hc'
    · have hzero : i-done.length = 0 := by
        have hlt := (List.getElem?_eq_some_iff.mp hc').1
        rw [List.length_singleton] at hlt
        omega
      rw [hzero] at hc' ⊢
      cases hc'
      refine ⟨pSTLine, rfl, rfl, rfl, (i32_natCast 0 (by decide)).symm, rfl, fun hs => ?_⟩
      obtain ⟨key, hkey⟩ := Option.isSome_iff_exists.mp hs
      refine ⟨CSList.init.alloc 24 .alloc true, [], ?_, distinct_nil, CSList.holdsUpTo_alloc 24 .alloc⟩
      show c.pValueKey.map _ = _
      rw [hkey]
      rfl

-- There are no more line types than `LINE_COUNT` says.
theorem initConfig_kept (nCount : ℕ) (hcount : config.length ≤ nCount) :
    ∃ l, initConfig nCount config = .ok l ∧ Kept config (fun _ _ => []) l := by
  have hrun (rest done : List LineConfig) (hfits : done.length+rest.length ≤ nCount)
      (l : CSList STAnalyzer1_Line) (hlargest : largestMax l.m_nMax = largestMax nCount)
      (h : Kept done (fun _ _ => []) l) :
      ∃ l', rest.foldlM initLine l = .ok l' ∧ Kept (done ++ rest) (fun _ _ => []) l' := by
    induction rest generalizing done l with
    | nil => exact ⟨l, rfl, by rwa [List.append_nil]⟩
    | cons c rest ih =>
      rw [List.length_cons] at hfits
      obtain ⟨l', hinit, hlargest', hkept⟩ := initLine_kept nCount done c (by omega) l hlargest h
      obtain ⟨l'', hfold, hkept'⟩ := ih (done ++ [c])
        (by rw [List.length_append, List.length_singleton]; omega) l' hlargest' hkept
      refine ⟨l'', ?_, ?_⟩
      · rw [List.foldlM_cons, hinit, ok_bind, hfold]
      · rwa [List.append_assoc] at hkept'
  have hempty := CSList.holdsUpTo_alloc (β := STAnalyzer1_Line) nCount .alloc
  refine hrun config [] (by rwa [List.length_nil, Nat.zero_add]) _ hempty.largest
    ⟨[], hempty.holds, rfl, fun i c hc => ?_⟩
  cases hc

/-- The line types after all lines, or one line type too many values for its list. -/
theorem parsingLines_outcome (nCount : ℕ) (hcount : config.length ≤ nCount) (lines : List Input)
    (hread : Reads atoiOver config lines) :
    (∃ l, parsingLines atoiOver nCount config lines = .ok (some l) ∧
      Kept config (fun c j => values atoiOver c j lines) l) ∨
    (¬Roomy config (fun c j => values atoiOver c j lines) ∧
      parsingLines atoiOver nCount config lines = .error .outOfBounds) := by
  obtain ⟨l, hinit, hkept⟩ := initConfig_kept config nCount hcount
  rw [parsingLines, hinit, ok_bind]
  exact foldlM_kept atoiOver config lines _ hread l hkept

/-- What there is to say about the line type at index `i` after a run, when it says that the list has room
as well. -/
theorem parsingLines_iff (nCount : ℕ) (hcount : config.length ≤ nCount) (lines : List Input)
    (hread : Reads atoiOver config lines) (i : ℕ) (c : LineConfig) (hc : config[i]? = some c)
    (P : STAnalyzer1_Line → Prop) (Q : Prop)
    (hPQ : ∀ pLine, Tracks c (values atoiOver c i lines) pLine → (P pLine ↔ Q)) :
    (∃ l pLine, parsingLines atoiOver nCount config lines = .ok (some l) ∧ l.getObj i = some pLine ∧
      P pLine) ↔ Roomy config (fun c j => values atoiOver c j lines) ∧ Q := by
  rcases parsingLines_outcome atoiOver config nCount hcount lines hread with
    ⟨l, hrun, hkept⟩ | ⟨hcrowded, hrun⟩
  · rw [and_iff_right (hkept.roomy config _ l)]
    obtain ⟨xs, hholds, -, hall⟩ := hkept
    obtain ⟨pLine, hline, htracks⟩ := hall i c hc
    have hobj : l.getObj i = some pLine := (CSList.getObj_holds l xs hholds i).trans hline
    constructor
    · rintro ⟨l', pLine', hrun', hobj', hp⟩
      cases hrun.symm.trans hrun'
      cases hobj.symm.trans hobj'
      exact (hPQ pLine htracks).mp hp
    · exact fun hq => ⟨l, pLine, hrun, hobj, (hPQ pLine htracks).mpr hq⟩
  · refine iff_of_false ?_ (fun h => hcrowded h.1)
    rintro ⟨l, pLine, hrun', -⟩
    cases hrun.symm.trans hrun'

end Run

section Histogram

variable (c : LineConfig) (vs : List ℤ) (pLine : STAnalyzer1_Line) (h : Tracks c vs pLine)

include h

theorem Tracks.histogram (hkey : c.pValueKey.isSome) (hfew : vs.length < 2^31) :
    ∃ l, pLine.m_pUnitDataList = some l ∧ Histogram l.objects vs ∧
      (l.objects.map (fun u => u.nTotCount)).sum = pLine.nTotalLine := by
  obtain ⟨l, keys, hl, hd, hholds⟩ := h.units hkey
  have hcount (v : ℤ) : i32 (vs.count v) = vs.count v :=
    i32_natCast _ (lt_of_le_of_lt List.count_le_length hfew)
  have hkeys : (entries unitOf keys vs).map (fun u => u.nValue) = keys := by
    rw [entries, List.map_map]
    exact List.map_id' keys
  have hcounts : (entries unitOf keys vs).map (fun u => u.nTotCount) =
      (keys.map (fun v => vs.count v)).map (fun n : ℕ => (n : ℤ)) := by
    rw [entries, List.map_map, List.map_map]
    apply List.map_congr_left
    intro v _
    rw [Function.comp_apply, Function.comp_apply, ← hcount, unitOf]
  refine ⟨l, hl, ?_⟩
  rw [CSList.objects_holds l _ hholds.holds]
  refine ⟨⟨?_, ?_, ?_⟩, ?_⟩
  · rw [hkeys]
    exact hd.nodup
  · intro u hu
    obtain ⟨v, -, rfl⟩ := List.mem_map.mp hu
    rw [unitOf, hcount]
  · rw [hkeys]
    exact hd.mem_iff
  · rw [hcounts, ← Nat.cast_list_sum, hd.sum_count keys vs, h.total, i32_natCast _ hfew]

-- The bounds start at 0, so that they are those of 0 and the values.
theorem Tracks.exact_iff : Exact c vs pLine ↔ AroundZero c vs := by
  have hb : Bounds (pLine.nMin, pLine.nMax) (0 :: vs) := h.bounds ▸ foldl_bounds 0 vs
  have hmin : pLine.nMin ≤ 0 := hb.least.2 List.mem_cons_self
  have hmax : 0 ≤ pLine.nMax := hb.greatest.2 List.mem_cons_self
  unfold Exact AroundZero
  cases c.pValueKey with
  | some key =>
    dsimp only
    apply forall_congr'
    intro m
    apply forall_congr'
    intro M
    apply imp_congr_right
    intro hm
    apply imp_congr_right
    intro hM
    constructor
    · rintro ⟨rfl, rfl⟩
      exact ⟨hmin, hmax⟩
    · intro ⟨hm0, hM0⟩
      have hleast : IsLeast {v | v ∈ 0 :: vs} m := by
        refine ⟨List.mem_cons_of_mem 0 hm.1, fun v hv => ?_⟩
        exact (List.mem_cons.mp hv).elim (fun heq => heq ▸ hm0) (fun hv => hm.2 hv)
      have hgreatest : IsGreatest {v | v ∈ 0 :: vs} M := by
        refine ⟨List.mem_cons_of_mem 0 hM.1, fun v hv => ?_⟩
        exact (List.mem_cons.mp hv).elim (fun heq => heq ▸ hM0) (fun hv => hM.2 hv)
      exact ⟨hb.least.unique hleast, hb.greatest.unique hgreatest⟩
  | none =>
    constructor
    · intro ⟨h0, h1⟩ v hv
      have hl : pLine.nMin ≤ v := hb.least.2 (List.mem_cons_of_mem 0 hv)
      have hu : v ≤ pLine.nMax := hb.greatest.2 (List.mem_cons_of_mem 0 hv)
      omega
    · intro hall
      constructor
      · exact (List.mem_cons.mp hb.least.1).elim id (hall _)
      · exact (List.mem_cons.mp hb.greatest.1).elim id (hall _)

end Histogram

section Claims

variable (atoiOver : List UInt8 → ℤ) (nCount : ℕ) (config : List LineConfig)
  (hcount : config.length ≤ nCount) (lines : List Input) (hread : Reads atoiOver config lines)
  (i : ℕ) (c : LineConfig) (hc : config[i]? = some c)

include hcount hread hc

/-- The unit list of a line type has an entry for each value of the matching lines and for no other,
with their number, and the numbers add up to `nTotalLine`, exactly when no unit list gets more values than
it has room for. -/
theorem histogram_exact_iff (hkey : c.pValueKey.isSome)
    (hfew : (values atoiOver c i lines).length < 2^31) :
    (∃ l pLine, parsingLines atoiOver nCount config lines = .ok (some l) ∧ l.getObj i = some pLine ∧
      ∃ pUnitList, pLine.m_pUnitDataList = some pUnitList ∧
        Histogram pUnitList.objects (values atoiOver c i lines) ∧
        (pUnitList.objects.map (fun u => u.nTotCount)).sum = pLine.nTotalLine) ↔
    Roomy config (fun c j => values atoiOver c j lines) := by
  rw [parsingLines_iff atoiOver config nCount hcount lines hread i c hc _ True
    (fun pLine htracks => iff_of_true (htracks.histogram c _ pLine hkey hfew) trivial)]
  exact and_iff_left trivial

/-- `nMin` and `nMax` are exact when zero is between the values and no unit list gets more values than it
has room for. -/
theorem bounds_exact_iff :
    (∃ l pLine, parsingLines atoiOver nCount config lines = .ok (some l) ∧ l.getObj i = some pLine ∧
      Exact c (values atoiOver c i lines) pLine) ↔
    Roomy config (fun c j => values atoiOver c j lines) ∧ AroundZero c (values atoiOver c i lines) :=
  parsingLines_iff atoiOver config nCount hcount lines hread i c hc _ _
    (fun pLine htracks => htracks.exact_iff c _ pLine)

end Claims

section Lines

/-- The start key and the value key `n`. -/
def lineN : LineConfig := ⟨⟨[110], CString.noNul_n⟩, some ⟨[110], CString.noNul_n⟩, 0⟩

theorem noNul_seven : (0 : UInt8) ∉ [110, 91, 55, 93] := by decide

/-- `n[7]` and `n[3]`. -/
def seven : Input := ⟨⟨[110, 91, 55, 93], noNul_seven⟩, fun _ => 0⟩

def three : Input := ⟨⟨[110, 91, 51, 93], by decide⟩, fun _ => 0⟩

theorem reads_lineN : Reads (fun _ => 0) [lineN] [seven, three, seven] := by
  intro i c hc e he
  have hi : i = 0 := by
    have hlt := (List.getElem?_eq_some_iff.mp hc).1
    rw [List.length_singleton] at hlt
    omega
  subst hi
  cases hc
  have hok : ∀ e ∈ [seven, three, seven], (lineValue (fun _ => 0) lineN 0 e).toBool = true := by
    intro e he
    simp only [List.mem_cons, List.not_mem_nil, or_false] at he
    rcases he with rfl | rfl | rfl <;> decide
  cases ho : lineValue (fun _ => 0) lineN 0 e with
  | ok o => exact ⟨o, rfl⟩
  | error f =>
    have h := hok e he
    rw [ho] at h
    cases h

-- Three lines have at most three values.
theorem roomy_lineN : Roomy [lineN] (fun c j => values (fun _ => 0) c j [seven, three, seven]) := by
  intro i c hc _
  obtain ⟨hi, rfl⟩ := List.getElem?_eq_some_iff.mp hc
  refine (List.toFinset_card_le _).trans ((List.length_filterMap_le _ _).trans ?_)
  show 3 ≤ largestMax 24
  decide

theorem histogram_exact_iff_seven : ∃ l pLine,
    parsingLines (fun _ => 0) 1 [lineN] [seven, three, seven] = .ok (some l) ∧
      l.getObj (0 : ℕ) = some pLine ∧ ∃ pUnitList, pLine.m_pUnitDataList = some pUnitList ∧
      Histogram pUnitList.objects (values (fun _ => 0) lineN 0 [seven, three, seven]) ∧
      (pUnitList.objects.map (fun u => u.nTotCount)).sum = pLine.nTotalLine :=
  (histogram_exact_iff (fun _ => 0) 1 [lineN] le_rfl [seven, three, seven] reads_lineN 0 lineN rfl rfl
    (by decide)).mpr roomy_lineN

theorem bounds_exact_iff_seven : (∃ l pLine,
    parsingLines (fun _ => 0) 1 [lineN] [seven, three, seven] = .ok (some l) ∧
      l.getObj (0 : ℕ) = some pLine ∧
      Exact lineN (values (fun _ => 0) lineN 0 [seven, three, seven]) pLine) ↔
    Roomy [lineN] (fun c j => values (fun _ => 0) c j [seven, three, seven]) ∧
      AroundZero lineN (values (fun _ => 0) lineN 0 [seven, three, seven]) :=
  bounds_exact_iff (fun _ => 0) 1 [lineN] le_rfl [seven, three, seven] reads_lineN 0 lineN rfl

/-- The values 7, 3 and 7 leave the minimum at 0. -/
theorem not_bounds_exact : ¬∀ (atoiOver : List UInt8 → ℤ) (nCount : ℕ) (config : List LineConfig)
    (lines : List Input), config.length ≤ nCount → Reads atoiOver config lines →
    ∀ (i : ℕ) (c : LineConfig), config[i]? = some c →
    ∃ l pLine, parsingLines atoiOver nCount config lines = .ok (some l) ∧ l.getObj i = some pLine ∧
      Exact c (values atoiOver c i lines) pLine := by
  intro h
  have hzero := ((parsingLines_iff (fun _ => 0) [lineN] 1 le_rfl [seven, three, seven] reads_lineN 0 lineN
    rfl _ _ (fun pLine htracks => htracks.exact_iff lineN _ pLine)).mp
      (h (fun _ => 0) 1 [lineN] [seven, three, seven] le_rfl reads_lineN 0 lineN rfl)).2
  have hvs : values (fun _ => 0) lineN 0 [seven, three, seven] = [7, 3, 7] := by decide
  rw [hvs] at hzero
  have hthree : IsLeast {v : ℤ | v ∈ [7, 3, 7]} 3 := ⟨by decide, by intro v hv; simp at hv; omega⟩
  have hseven : IsGreatest {v : ℤ | v ∈ [7, 3, 7]} 7 := ⟨by decide, by intro v hv; simp at hv; omega⟩
  exact absurd (hzero 3 7 hthree hseven).1 (by decide)

end Lines

section Many

open Buffers

/-- The code of a digit of a number. -/
def digitCode (c : Char) : UInt8 := c.toNat.toUInt8

theorem digitCode_toNat (n : ℕ) (c : Char) (hc : c ∈ Nat.toDigits 10 n) :
    (digitCode c).toNat = c.toNat ∧ 48 ≤ c.toNat ∧ c.toNat ≤ 57 := by
  have hdigit := Nat.isDigit_of_mem_toDigits (b := 10) (by decide) (by decide) hc
  simp only [Char.isDigit, Bool.and_eq_true, decide_eq_true_eq] at hdigit
  have hlow : 48 ≤ c.toNat := hdigit.1
  have hhigh : c.toNat ≤ 57 := hdigit.2
  refine ⟨?_, hlow, hhigh⟩
  show c.toNat%256 = c.toNat
  omega

theorem decimal_nat (k : ℕ) : decimal k = (Nat.toDigits 10 k).map digitCode := by
  rw [decimal, if_neg (by omega), List.nil_append, Int.natAbs_natCast]
  rfl

theorem isNDigit_decimal (k : ℕ) : isNDigit (decimal k) = false := by
  rw [isNDigit, List.any_eq_false, decimal_nat]
  intro ch hch
  obtain ⟨c, hc, rfl⟩ := List.mem_map.mp hch
  obtain ⟨hcode, hlow, hhigh⟩ := digitCode_toNat k c hc
  simp only [isDigit, Bool.not_eq_true', Bool.not_eq_false, Bool.and_eq_true, decide_eq_true_eq,
    UInt8.le_iff_toNat_le, hcode]
  exact ⟨hlow, hhigh⟩

theorem number_decimal (k : ℕ) : number (decimal k) = k := by
  have hfold (cs : List Char) (hcs : ∀ c ∈ cs, (digitCode c).toNat = c.toNat) (n : ℕ) :
      (cs.map digitCode).foldl (fun n c => n*10+(c.toNat-48)) n = Nat.ofDigitChars 10 cs n := by
    induction cs generalizing n with
    | nil => rfl
    | cons c cs ih =>
      rw [List.map_cons, List.foldl_cons, ih (fun d hd => hcs d (List.mem_cons_of_mem c hd)),
        hcs c List.mem_cons_self, Nat.ofDigitChars_cons, Nat.mul_comm n 10]
      rfl
  rw [decimal_nat, number, hfold _ (fun c hc => (digitCode_toNat k c hc).1), Nat.ofDigitChars_ten_toDigits]

theorem noNul_lineOf (k : ℕ) : (0 : UInt8) ∉ 110 :: 91 :: (decimal k ++ [93]) := by
  have hnoNul := decimal_noNul k
  simp [hnoNul]

/-- The line `n[k]`. -/
def lineOf (k : ℕ) : Input := ⟨⟨110 :: 91 :: (decimal k ++ [93]), noNul_lineOf k⟩, fun _ => 0⟩

theorem bracketed_lineOf (k : ℕ) : Bracketed (110 :: 91 :: (decimal k ++ [93])) (decimal k) := by
  refine ⟨[110], [], rfl, by decide, fun hmem => ?_⟩
  rw [decimal_nat] at hmem
  obtain ⟨c, hc, h93⟩ := List.mem_map.mp hmem
  obtain ⟨hcode, -, hhigh⟩ := digitCode_toNat k c hc
  rw [h93] at hcode
  have htoNat : (93 : UInt8).toNat = 93 := rfl
  omega

-- An `int` has at most ten digits, which fit `szBuf`.
theorem lineValue_lineOf (k : ℕ) (hk : k < 2^31) :
    lineValue (fun _ => 0) lineN 0 (lineOf k) = .ok (some k) := by
  have hlen : (decimal k).length ≤ 10 := by
    rw [decimal_nat, List.length_map]
    exact (Nat.length_toDigits_le_iff (by decide) (by decide)).mpr (by omega)
  have hi32 : i32 (decimal k).length = (decimal k).length := i32_natCast _ (by omega)
  have hone : intLen [110] = 1 := i32_natCast 1 (by decide)
  have hkey : ehstrstr (lineOf k).p lineN.pLineStartKey = some 0 := by
    show search [110] (intLen [110]) _ (110 :: _) 0 0 = some 0
    have hfirst : (110 : UInt8) = [110].getD 0 0 := rfl
    rw [search, if_pos hfirst, if_pos (by rw [hone]; decide)]
    rfl
  have hstrstr : strstr [110] (110 :: 91 :: (decimal k ++ [93])) = some (110 :: 91 :: (decimal k ++ [93])) :=
    rfl
  have hvalue : getIntValue (fun _ => 0) (110 :: 91 :: (decimal k ++ [93])) [110] = .ok (k : ℤ) := by
    rw [getIntValue, hstrstr]
    dsimp only
    rw [valueFrom_bracketed _ _ _ (bracketed_lineOf k), hi32,
      if_pos ⟨Int.natCast_nonneg _, by unfold sizeofSzBuf; omega⟩, Int.toNat_natCast, List.take_length,
      valueOf_digits _ _ (isNDigit_decimal k) (by rwa [number_decimal]), number_decimal]
  rw [lineValue, hkey]
  exact congrArg (fun r => r.map some) hvalue

section Lines

variable (n : ℕ) (hn : n ≤ 2^31)

include hn

theorem reads_linesOf : Reads (fun _ => 0) [lineN] ((List.range n).map lineOf) := by
  intro i c hc e he
  have hi : i = 0 := by
    have hlt := (List.getElem?_eq_some_iff.mp hc).1
    rw [List.length_singleton] at hlt
    omega
  subst hi
  cases hc
  obtain ⟨k, hk, rfl⟩ := List.mem_map.mp he
  exact ⟨_, lineValue_lineOf k ((List.mem_range.mp hk).trans_le hn)⟩

theorem values_linesOf : values (fun _ => 0) lineN 0 ((List.range n).map lineOf) =
    (List.range n).map (fun k : ℕ => (k : ℤ)) := by
  rw [values, List.filterMap_map, ← List.filterMap_eq_map]
  apply List.filterMap_congr
  intro k hk
  rw [Function.comp_apply, lineValue_lineOf k ((List.mem_range.mp hk).trans_le hn)]
  rfl

theorem card_linesOf : (values (fun _ => 0) lineN 0 ((List.range n).map lineOf)).toFinset.card = n := by
  rw [values_linesOf n hn, List.toFinset_card_of_nodup, List.length_map, List.length_range]
  exact (List.nodup_map_iff Nat.cast_injective).mpr List.nodup_range

end Lines

/-- The lines `n[0]`, `n[1]` and so on to `n[2147483644]`, one value more than the unit list has room
for. -/
theorem not_histogram_exact : ¬∀ (atoiOver : List UInt8 → ℤ) (nCount : ℕ) (config : List LineConfig)
    (lines : List Input), config.length ≤ nCount → Reads atoiOver config lines →
    ∀ (i : ℕ) (c : LineConfig), config[i]? = some c → c.pValueKey.isSome →
    (values atoiOver c i lines).length < 2^31 →
    ∃ l pLine, parsingLines atoiOver nCount config lines = .ok (some l) ∧ l.getObj i = some pLine ∧
      ∃ pUnitList, pLine.m_pUnitDataList = some pUnitList ∧
        Histogram pUnitList.objects (values atoiOver c i lines) ∧
        (pUnitList.objects.map (fun u => u.nTotCount)).sum = pLine.nTotalLine := by
  intro h
  obtain ⟨n, hn⟩ : ∃ n, n = 2147483645 := ⟨_, rfl⟩
  have hint : n ≤ 2^31 := by omega
  have hfew : (values (fun _ => 0) lineN 0 ((List.range n).map lineOf)).length < 2^31 := by
    rw [values_linesOf n hint, List.length_map, List.length_range]
    omega
  obtain ⟨l, pLine, hrun, -⟩ :=
    h (fun _ => 0) 1 [lineN] _ le_rfl (reads_linesOf n hint) 0 lineN rfl rfl hfew
  rcases parsingLines_outcome (fun _ => 0) [lineN] 1 le_rfl _ (reads_linesOf n hint) with
    ⟨l', -, hkept⟩ | ⟨-, herror⟩
  · have hcard := hkept.roomy [lineN] _ l' 0 lineN rfl rfl
    rw [card_linesOf n hint, hn] at hcard
    exact absurd hcard (by decide)
  · rw [hrun] at herror
    cases herror

end Many

end KeyValue

end Leviathan
