import Leviathan.CTypes
import Leviathan.RunningBounds
import Mathlib.Data.List.ProdSigma

/-! `CAnalyzer_DateTime::calculate` (LogAnalyzer, Analyzer_DateTime.cpp): how far the counts of a
minute are from the number that is sent in each 100 milliseconds. -/
namespace Leviathan.TimeSlots

open RunningBounds

section Model

/-- A minute: the lines of it, the result of `calculate`, and the lines in each tenth of a second. -/
structure STMTime where
  nCnt : ℕ
  nTotal : ℤ
  nMin : ℤ
  nMax : ℤ
  nAvg : ℤ
  milliCnt_100 : Fin 60 → Fin 10 → ℤ

/-- The variables of `calculate`, with the `nTotal` that it counts up. -/
structure Accumulated where
  nTotal : ℤ
  nMin : ℤ
  nMax : ℤ
  CumulativeValue : ℤ
  isFirst : Bool

/-- One deviation. -/
def Accumulated.add (a : Accumulated) (nRes : ℤ) : Accumulated :=
  let a := { a with nTotal := i32 (a.nTotal+1) }
  let a :=
    if nRes < a.nMin then { a with nMin := nRes }
    else if a.nMax < nRes then { a with nMax := nRes }
    else a
  let a := if a.isFirst then { a with nMin := nRes, nMax := nRes, isFirst := false } else a
  { a with CumulativeValue := i32 (a.CumulativeValue+nRes) }

variable (m_nSendUnitCnt : ℤ)

/-- One bucket in the loops of `calculate`. -/
def visitBucket (a : Accumulated) (milliCnt : ℤ) : Accumulated :=
  if milliCnt = 0 then a
  else
    let nRes := i32 (milliCnt-m_nSendUnitCnt)
    if nRes = 0 then a else a.add (if nRes < 0 then i32 (-nRes) else nRes)

def calculate (pMTime : STMTime) : STMTime :=
  let a := (List.finRange 60).foldl
    (fun a i =>
      (List.finRange 10).foldl (fun a j => visitBucket m_nSendUnitCnt a (pMTime.milliCnt_100 i j)) a)
    ⟨pMTime.nTotal, 0, 0, 0, true⟩
  if a.nTotal = 0 then { pMTime with nTotal := a.nTotal }
  else
    { pMTime with
      nTotal := a.nTotal
      nAvg := a.CumulativeValue.tdiv a.nTotal
      nMin := a.nMin
      nMax := a.nMax }

/-- The buckets that are not empty and have another count than the expected one. -/
def deviating (pMTime : STMTime) : Finset (Fin 60 × Fin 10) :=
  Finset.univ.filter (fun b =>
    pMTime.milliCnt_100 b.1 b.2 ≠ 0 ∧ pMTime.milliCnt_100 b.1 b.2 ≠ m_nSendUnitCnt)

def deviation (pMTime : STMTime) (b : Fin 60 × Fin 10) : ℤ :=
  |pMTime.milliCnt_100 b.1 b.2-m_nSendUnitCnt|

end Model

/-- What `calculate` has come to after the deviations `ds`. -/
structure Accumulated.After (a : Accumulated) (ds : List ℤ) : Prop where
  total : a.nTotal = ds.length
  sum : a.CumulativeValue = ds.sum
  first : a.isFirst = true ↔ ds = []
  bounds : ds ≠ [] → Bounds (a.nMin, a.nMax) ds

section Step

variable (a : Accumulated) (ds : List ℤ) (d : ℤ)

-- The first deviation sets both bounds, whatever the comparisons before have done.
theorem Accumulated.add_first (h : a.isFirst = true) :
    a.add d = ⟨i32 (a.nTotal+1), d, d, i32 (a.CumulativeValue+d), false⟩ := by
  unfold Accumulated.add
  by_cases hmin : d < a.nMin
  · simp [hmin, h]
  · by_cases hmax : a.nMax < d
    · simp [hmin, hmax, h]
    · simp [hmin, hmax, h]

theorem Accumulated.add_next (h : a.isFirst = false) :
    a.add d = ⟨i32 (a.nTotal+1), (widen (a.nMin, a.nMax) d).1, (widen (a.nMin, a.nMax) d).2,
      i32 (a.CumulativeValue+d), false⟩ := by
  unfold Accumulated.add widen
  by_cases hmin : d < a.nMin
  · simp [hmin, h]
  · by_cases hmax : a.nMax < d
    · simp [hmin, hmax, h]
    · simp [hmin, hmax, h]

theorem Accumulated.After.add (h : a.After ds) (hlen : (ds.length : ℤ)+1 < 2^31) (hl : 0 ≤ ds.sum+d)
    (hu : ds.sum+d < 2^31) : (a.add d).After (ds ++ [d]) := by
  have htotal : i32 (a.nTotal+1) = (ds ++ [d]).length := by
    rw [h.total, List.length_append, List.length_singleton, Nat.cast_add, Nat.cast_one]
    exact i32_of_range _ (by omega) hlen
  have hsum : i32 (a.CumulativeValue+d) = (ds ++ [d]).sum := by
    rw [h.sum, List.sum_append, List.sum_singleton]
    exact i32_of_range _ (by omega) hu
  by_cases hds : ds = []
  · have hfirst : a.isFirst = true := h.first.mpr hds
    rw [a.add_first d hfirst]
    refine ⟨htotal, hsum, by simp, fun _ => ?_⟩
    rw [hds]
    exact bounds_single d
  · have hfirst : a.isFirst = false := by
      rw [← Bool.not_eq_true, h.first]
      exact hds
    rw [a.add_next d hfirst]
    exact ⟨htotal, hsum, by simp, fun _ => (h.bounds hds).widen _ d ds⟩

end Step

section Run

variable (m_nSendUnitCnt : ℤ) (cells : List ℤ)

/-- The deviations of a list of buckets. -/
def deviations : List ℤ :=
  (cells.filter (fun n => n ≠ 0 ∧ n ≠ m_nSendUnitCnt)).map (fun n => |n-m_nSendUnitCnt|)

theorem deviations_pos (d : ℤ) (hd : d ∈ deviations m_nSendUnitCnt cells) : 0 < d := by
  obtain ⟨n, hn, rfl⟩ := List.mem_map.mp hd
  have hne := (of_decide_eq_true (List.mem_filter.mp hn).2).2
  exact abs_pos.mpr (sub_ne_zero.mpr hne)

theorem length_le_sum (ds : List ℤ) (h : ∀ d ∈ ds, 0 < d) : (ds.length : ℤ) ≤ ds.sum := by
  have hle := List.card_nsmul_le_sum ds 1 (fun d hd => h d hd)
  rwa [nsmul_one] at hle

theorem visitBucket_eq (a : Accumulated) (n : ℤ)
    (hn : n ≠ 0 → n ≠ m_nSendUnitCnt → |n-m_nSendUnitCnt| < 2^31) : visitBucket m_nSendUnitCnt a n =
      if n ≠ 0 ∧ n ≠ m_nSendUnitCnt then a.add |n-m_nSendUnitCnt| else a := by
  unfold visitBucket
  by_cases h0 : n = 0
  · rw [if_pos h0, if_neg (fun h => h.1 h0)]
  rw [if_neg h0]
  by_cases hu : n = m_nSendUnitCnt
  · rw [hu, sub_self, if_neg (fun h : m_nSendUnitCnt ≠ 0 ∧ m_nSendUnitCnt ≠ m_nSendUnitCnt => h.2 rfl)]
    rfl
  have habs := abs_lt.mp (hn h0 hu)
  have hres : i32 (n-m_nSendUnitCnt) = n-m_nSendUnitCnt := i32_of_range _ (by omega) (by omega)
  rw [if_pos (And.intro h0 hu)]
  dsimp only
  rw [hres, if_neg (sub_ne_zero.mpr hu)]
  by_cases hneg : n-m_nSendUnitCnt < 0
  · rw [if_pos hneg, i32_of_range _ (by omega) (by omega), abs_of_neg hneg]
  · rw [if_neg hneg, abs_of_nonneg (not_lt.mp hneg)]

theorem foldl_visitBucket (hsum : (deviations m_nSendUnitCnt cells).sum < 2^31) :
    (cells.foldl (visitBucket m_nSendUnitCnt) ⟨0, 0, 0, 0, true⟩).After
      (deviations m_nSendUnitCnt cells) := by
  induction cells using List.reverseRecOn with
  | nil => exact ⟨rfl, rfl, iff_of_true rfl rfl, fun h => absurd rfl h⟩
  | append_singleton cells n ih =>
    have hpos := deviations_pos m_nSendUnitCnt cells
    have happ : deviations m_nSendUnitCnt (cells ++ [n]) =
        deviations m_nSendUnitCnt cells ++ deviations m_nSendUnitCnt [n] := by
      rw [deviations, List.filter_append, List.map_append]
      rfl
    rw [happ, List.sum_append] at hsum
    have hlen := length_le_sum _ hpos
    have hn := length_le_sum _ (deviations_pos m_nSendUnitCnt [n])
    have hcells := ih (by omega)
    rw [List.foldl_append, List.foldl_cons, List.foldl_nil, happ]
    by_cases hdev : n ≠ 0 ∧ n ≠ m_nSendUnitCnt
    · have hone : deviations m_nSendUnitCnt [n] = [|n-m_nSendUnitCnt|] := by
        simp [deviations, hdev]
      rw [hone, List.sum_singleton] at hsum
      have habs : 0 < |n-m_nSendUnitCnt| := abs_pos.mpr (sub_ne_zero.mpr hdev.2)
      rw [visitBucket_eq m_nSendUnitCnt _ n (fun _ _ => by omega), if_pos hdev, hone]
      exact hcells.add _ _ _ (by omega) (by omega) hsum
    · have hone : deviations m_nSendUnitCnt [n] = [] := by
        rw [deviations, List.filter_cons_of_neg (by rwa [decide_eq_true_iff]), List.filter_nil,
          List.map_nil]
      rw [visitBucket_eq m_nSendUnitCnt _ n (fun h0 hu => absurd ⟨h0, hu⟩ hdev), if_neg hdev, hone,
        List.append_nil]
      exact hcells

end Run

section Claim

variable (m_nSendUnitCnt : ℤ) (pMTime : STMTime)

/-- The places of the buckets, in the order of the two loops. -/
def places : List (Fin 60 × Fin 10) := List.finRange 60 ×ˢ List.finRange 10

theorem nodup_places : places.Nodup := (List.nodup_finRange 60).product (List.nodup_finRange 10)

theorem mem_places (b : Fin 60 × Fin 10) : b ∈ places :=
  List.mem_product.mpr ⟨List.mem_finRange b.1, List.mem_finRange b.2⟩

def cells : List ℤ := places.map (fun b => pMTime.milliCnt_100 b.1 b.2)

theorem foldl_cells (a : Accumulated) : (List.finRange 60).foldl (fun a i => (List.finRange 10).foldl
    (fun a j => visitBucket m_nSendUnitCnt a (pMTime.milliCnt_100 i j)) a) a =
      (cells pMTime).foldl (visitBucket m_nSendUnitCnt) a := by
  rw [cells, List.foldl_map]
  show _ = ((List.finRange 60).flatMap (fun i => (List.finRange 10).map (Prod.mk i))).foldl _ a
  rw [List.foldl_flatMap]
  simp only [List.foldl_map]

/-- The places of the deviating buckets, in the order of the loops. -/
def deviatingPlaces : List (Fin 60 × Fin 10) :=
  places.filter (fun b => pMTime.milliCnt_100 b.1 b.2 ≠ 0 ∧
    pMTime.milliCnt_100 b.1 b.2 ≠ m_nSendUnitCnt)

theorem toFinset_deviatingPlaces :
    (deviatingPlaces m_nSendUnitCnt pMTime).toFinset = deviating m_nSendUnitCnt pMTime := by
  ext b
  rw [List.mem_toFinset, deviatingPlaces, List.mem_filter, deviating, Finset.mem_filter,
    decide_eq_true_iff,
    and_iff_right (mem_places b), and_iff_right (Finset.mem_univ b)]

theorem deviations_cells : deviations m_nSendUnitCnt (cells pMTime) =
    (deviatingPlaces m_nSendUnitCnt pMTime).map (deviation m_nSendUnitCnt pMTime) := by
  rw [deviations, cells, List.filter_map, List.map_map]
  rfl

theorem nodup_deviatingPlaces : (deviatingPlaces m_nSendUnitCnt pMTime).Nodup := nodup_places.filter _

/-- From zeroed statistics, `calculate` counts the deviating buckets, and finds the least, the
greatest and the truncated mean of their deviations. -/
theorem calculate_exact (hzero : pMTime.nTotal = 0)
    (hsum : ∑ b ∈ deviating m_nSendUnitCnt pMTime, deviation m_nSendUnitCnt pMTime b < 2^31) :
    (calculate m_nSendUnitCnt pMTime).nTotal = (deviating m_nSendUnitCnt pMTime).card ∧
    (0 < (calculate m_nSendUnitCnt pMTime).nTotal →
      IsLeast {d | ∃ b ∈ deviating m_nSendUnitCnt pMTime, deviation m_nSendUnitCnt pMTime b = d}
        (calculate m_nSendUnitCnt pMTime).nMin ∧
      IsGreatest {d | ∃ b ∈ deviating m_nSendUnitCnt pMTime, deviation m_nSendUnitCnt pMTime b = d}
        (calculate m_nSendUnitCnt pMTime).nMax ∧
      (calculate m_nSendUnitCnt pMTime).nAvg =
        (∑ b ∈ deviating m_nSendUnitCnt pMTime, deviation m_nSendUnitCnt pMTime b).tdiv
          (deviating m_nSendUnitCnt pMTime).card) := by
  have hfin := toFinset_deviatingPlaces m_nSendUnitCnt pMTime
  have hnodup := nodup_deviatingPlaces m_nSendUnitCnt pMTime
  have hds := deviations_cells m_nSendUnitCnt pMTime
  have hlist : (deviations m_nSendUnitCnt (cells pMTime)).sum =
      ∑ b ∈ deviating m_nSendUnitCnt pMTime, deviation m_nSendUnitCnt pMTime b := by
    rw [hds, ← hfin, List.sum_toFinset _ hnodup]
  have hcard : (deviations m_nSendUnitCnt (cells pMTime)).length =
      (deviating m_nSendUnitCnt pMTime).card := by
    rw [hds, List.length_map, ← hfin, List.toFinset_card_of_nodup hnodup]
  have hset : {d | d ∈ deviations m_nSendUnitCnt (cells pMTime)} =
      {d | ∃ b ∈ deviating m_nSendUnitCnt pMTime, deviation m_nSendUnitCnt pMTime b = d} := by
    ext d
    simp only [Set.mem_ofPred_eq, hds, List.mem_map, ← hfin, List.mem_toFinset]
  have hafter := foldl_visitBucket m_nSendUnitCnt (cells pMTime) (hlist ▸ hsum)
  rw [← hset, ← hlist, ← hcard]
  unfold calculate
  rw [foldl_cells, hzero]
  dsimp only
  by_cases hnil : deviations m_nSendUnitCnt (cells pMTime) = []
  · have htotal := hafter.total
    rw [hnil] at htotal ⊢
    rw [htotal]
    exact ⟨rfl, fun h => absurd h (lt_irrefl 0)⟩
  · have hne : ((deviations m_nSendUnitCnt (cells pMTime)).length : ℤ) ≠ 0 := by
      intro h
      exact hnil (List.length_eq_zero_iff.mp (Int.natCast_eq_zero.mp h))
    have hbounds := hafter.bounds hnil
    rw [hafter.total, if_neg hne, hafter.sum]
    exact ⟨rfl, fun _ => ⟨hbounds.least, hbounds.greatest, rfl⟩⟩

/-- The lines of a minute, in four of its tenths of a second. -/
def counts : ℕ → ℕ → ℤ
  | 0, 0 => 7
  | 0, 1 => 3
  | 0, 2 => 1
  | 59, 9 => 4
  | _, _ => 0

def fifteenLines : STMTime := ⟨15, 0, 0, 0, 0, fun i j => counts i j⟩

-- Three lines are expected, so three buckets deviate and one does not.
example : (calculate 3 fifteenLines).nTotal = 3 ∧ (calculate 3 fifteenLines).nMin = 1 ∧
    (calculate 3 fifteenLines).nMax = 4 ∧ (calculate 3 fifteenLines).nAvg = 2 := by decide +kernel

theorem calculate_exact_fifteenLines :
    (calculate 3 fifteenLines).nTotal = (deviating 3 fifteenLines).card ∧
    (0 < (calculate 3 fifteenLines).nTotal →
      IsLeast {d | ∃ b ∈ deviating 3 fifteenLines, deviation 3 fifteenLines b = d}
        (calculate 3 fifteenLines).nMin ∧
      IsGreatest {d | ∃ b ∈ deviating 3 fifteenLines, deviation 3 fifteenLines b = d}
        (calculate 3 fifteenLines).nMax ∧
      (calculate 3 fifteenLines).nAvg =
        (∑ b ∈ deviating 3 fifteenLines, deviation 3 fifteenLines b).tdiv
          (deviating 3 fifteenLines).card) :=
  calculate_exact 3 fifteenLines rfl (by decide +kernel)

end Claim

end Leviathan.TimeSlots
