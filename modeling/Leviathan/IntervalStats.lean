import Leviathan.CTypes
import Leviathan.FloatRound

/-! `STInterval` and `getAvg` (LogAnalyzer, global.h and Utility.cpp): the last values, and an average of
every 600. -/
namespace Leviathan.IntervalStats

section Model

def avgCount : ℕ := 600

def maxAvgCount : ℕ := 4096

structure STInterval where
  nIntervalIdx : ℕ
  nAvgIdx : ℕ
  nInterval : Fin avgCount → ℚ
  nAvg : Fin maxAvgCount → ℚ

/-- The `float` nearest to a value. -/
def toFloat (q : ℚ) : ℚ := FloatRound.round 23 q

def getAvg {nCount : ℕ} (pNum : Fin nCount → ℚ) : ℚ :=
  toFloat ((List.ofFn pNum).foldl (fun fSum x => toFloat (fSum+x)) 0/nCount)

def write {n : ℕ} (a : Fin n → ℚ) (i : ℕ) (v : ℚ) : Except Fault (Fin n → ℚ) :=
  if h : i < n then .ok (Function.update a ⟨i, h⟩ v) else .error .outOfBounds

/-- When the values are full, their average is taken, and they start over. -/
def average (p : STInterval) : Except Fault STInterval :=
  if p.nIntervalIdx = avgCount then do
    let nAvg ← write p.nAvg p.nAvgIdx (getAvg p.nInterval)
    return { p with nAvg := nAvg, nAvgIdx := p.nAvgIdx+1, nIntervalIdx := 0 }
  else .ok p

/-- What `CAnalyzer_Average::parsingLine` and `CAnalyzer_BetweenLines::parsingClass` do with a value. -/
def record (p : STInterval) (v : ℚ) : Except Fault STInterval := do
  let nInterval ← write p.nInterval p.nIntervalIdx v
  average { p with nInterval := nInterval, nIntervalIdx := p.nIntervalIdx+1 }

/-- `calloc`. -/
def STInterval.zero : STInterval := ⟨0, 0, fun _ => 0, fun _ => 0⟩

end Model

/-- The next value is written inside the arrays. -/
structure Room (p : STInterval) : Prop where
  interval : p.nIntervalIdx < avgCount
  avg : p.nIntervalIdx+1 = avgCount → p.nAvgIdx < maxAvgCount

/-- `p'` is `p` with `v` as the next value, and with a further average where the values are full. -/
structure Appended (p : STInterval) (v : ℚ) (p' : STInterval) : Prop where
  room : Room p
  interval : ∀ i, p'.nInterval i = if i.val = p.nIntervalIdx then v else p.nInterval i
  index : p'.nIntervalIdx = (p.nIntervalIdx+1)%avgCount
  avgIndex : p'.nAvgIdx = if p.nIntervalIdx+1 = avgCount then p.nAvgIdx+1 else p.nAvgIdx
  avg : ∀ i, p'.nAvg i =
    if p.nIntervalIdx+1 = avgCount ∧ i.val = p.nAvgIdx then getAvg p'.nInterval else p.nAvg i

section Record

variable (p p' : STInterval) (v : ℚ)

theorem write_eq {n : ℕ} (a : Fin n → ℚ) (i : ℕ) (h : i < n) :
    write a i v = .ok (Function.update a ⟨i, h⟩ v) := dif_pos h

theorem write_error {n : ℕ} (a : Fin n → ℚ) (i : ℕ) (h : ¬i < n) : write a i v = .error .outOfBounds :=
  dif_neg h

theorem update_apply {n : ℕ} (a : Fin n → ℚ) (i : ℕ) (h : i < n) (j : Fin n) :
    Function.update a ⟨i, h⟩ v j = if j.val = i then v else a j := by
  rw [Function.update_apply]
  exact if_congr Fin.ext_iff rfl rfl

theorem Appended.unique (q : STInterval) (h : Appended p v p') (hq : Appended p v q) : p' = q := by
  have hinterval : p'.nInterval = q.nInterval := by
    ext i
    rw [h.interval, hq.interval]
  have havg : p'.nAvg = q.nAvg := by
    ext i
    rw [h.avg, hq.avg, hinterval]
  have hindex := h.index.trans hq.index.symm
  have havgIndex := h.avgIndex.trans hq.avgIndex.symm
  cases p'
  cases q
  simp_all only

theorem record_of_room (h : Room p) : ∃ q, record p v = .ok q ∧ Appended p v q := by
  have hlt := h.interval
  by_cases hfull : p.nIntervalIdx+1 = avgCount
  · have havg := h.avg hfull
    rw [record, write_eq v _ _ hlt, ok_bind, average, if_pos hfull, write_eq _ _ _ havg, ok_bind]
    refine ⟨_, rfl, h, fun i => update_apply v _ _ hlt i, ?_, ?_, fun i => ?_⟩
    · rw [hfull, Nat.mod_self]
    · rw [if_pos hfull]
    · apply (update_apply _ _ _ havg i).trans
      exact if_congr (and_iff_right hfull).symm rfl rfl
  · rw [record, write_eq v _ _ hlt, ok_bind, average, if_neg hfull]
    refine ⟨_, rfl, h, fun i => update_apply v _ _ hlt i, ?_, ?_, fun i => ?_⟩
    · rw [Nat.mod_eq_of_lt (by omega)]
    · rw [if_neg hfull]
    · rw [if_neg (fun hi => hfull hi.1)]

theorem record_of_not_room (h : ¬Room p) : record p v = .error .outOfBounds := by
  by_cases hlt : p.nIntervalIdx < avgCount
  · have hfull : p.nIntervalIdx+1 = avgCount ∧ ¬p.nAvgIdx < maxAvgCount := by
      by_contra hno
      exact h ⟨hlt, fun hfull => by_contra (fun hge => hno ⟨hfull, hge⟩)⟩
    rw [record, write_eq v _ _ hlt, ok_bind, average, if_pos hfull.1, write_error _ _ _ hfull.2]
    rfl
  · rw [record, write_error v _ _ hlt]
    rfl

theorem record_eq_ok_iff : record p v = .ok p' ↔ Appended p v p' := by
  by_cases h : Room p
  · obtain ⟨q, hq, happ⟩ := record_of_room p v h
    rw [hq, Except.ok.injEq]
    constructor
    · intro heq
      rwa [← heq]
    · exact fun h' => happ.unique p q v p' h'
  · rw [record_of_not_room p v h]
    apply iff_of_false _ (fun h' => h h'.room)
    intro heq
    cases heq

-- The value can be read back from where it was written.
theorem Appended.value (w : ℚ) (h : Appended p v p') (h' : Appended p w p') : v = w := by
  have hv := h.interval ⟨p.nIntervalIdx, h.room.interval⟩
  have hw := h'.interval ⟨p.nIntervalIdx, h.room.interval⟩
  rw [if_pos rfl] at hv hw
  rw [← hv, hw]

theorem Appended.ne (h : Appended p v p') : p' ≠ p := by
  intro heq
  have hindex := h.index
  have hlt := h.room.interval
  rw [heq] at hindex
  unfold avgCount at hindex hlt
  omega

end Record

section Counting

/-- The number of values that the arrays hold, and those that a last average takes. -/
def capacity : ℕ := avgCount*(maxAvgCount+1)

/-- `k` values have been written since the arrays were empty. -/
structure Counts (p : STInterval) (k : ℕ) : Prop where
  index : p.nIntervalIdx = k%avgCount
  avgIndex : p.nAvgIdx = k/avgCount
  bound : k < capacity

theorem counts_zero : Counts STInterval.zero 0 := ⟨rfl, rfl, by decide⟩

variable (p p' : STInterval) (v : ℚ) (k : ℕ) (h : Counts p k)

include h

theorem Counts.room_iff : Room p ↔ k+1 < capacity := by
  obtain ⟨hindex, havg, hbound⟩ := h
  unfold capacity at hbound ⊢
  constructor
  · intro hroom
    have hfull := hroom.avg
    rw [hindex, havg] at hfull
    unfold avgCount maxAvgCount at *
    omega
  · intro hlt
    constructor
    · rw [hindex]
      exact Nat.mod_lt k (by decide)
    · rw [hindex, havg]
      unfold avgCount maxAvgCount at *
      omega

theorem Counts.appended (ha : Appended p v p') : Counts p' (k+1) := by
  have hlt := (h.room_iff p k).mp ha.room
  obtain ⟨hindex, havg, -⟩ := h
  refine ⟨?_, ?_, hlt⟩
  · rw [ha.index, hindex, Nat.mod_add_mod]
  · rw [ha.avgIndex, hindex, havg]
    unfold avgCount
    split_ifs <;> omega

end Counting

end Leviathan.IntervalStats
