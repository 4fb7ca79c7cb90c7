import Leviathan.SizeClass
import Leviathan.CircularScan

/-! `CBufPool` (comBufPool.h, comBufPool.cpp), used by one thread: one chunk cut into slots of
`2^m_nShift` bytes, with a flag for each slot.  Addresses are integers; the offsets into the
chunk are computed in `int`, as in the source. -/
namespace Leviathan

/-- The fields of `CBufPool` that its functions read. -/
structure CBufPool where
  m_nFlagArray : ℕ → Bool
  m_nUseCnt : ℤ
  m_nLastCount : ℕ
  m_nAllocCount : ℕ
  m_nShift : ℕ
  m_pChunk : ℤ
  m_pEnd : ℤ

namespace CBufPool

/-- The offset `i << m_nShift` as an `int`. -/
def offset (nShift i : ℕ) : ℤ := i32 ((i <<< nShift : ℕ) : ℤ)

/-- `alloc(nShift, nMaxCount)` with a chunk at `pChunk`. -/
def alloc (nShift nMaxCount : ℕ) (pChunk : ℤ) : CBufPool where
  m_nFlagArray := fun _ => false
  m_nUseCnt := 0
  m_nLastCount := 0
  m_nAllocCount := nMaxCount
  m_nShift := nShift
  m_pChunk := pChunk
  m_pEnd := pChunk+offset nShift (nMaxCount-1)

def isIncludeAddress (p : CBufPool) (a : ℤ) : Bool := decide (p.m_pChunk ≤ a) && decide (a ≤ p.m_pEnd)

/-- Slot `i` is taken. -/
def take (p : CBufPool) (i : ℕ) : CBufPool :=
  { p with
    m_nFlagArray := Function.update p.m_nFlagArray i true
    m_nUseCnt := i32 (p.m_nUseCnt+1)
    m_nLastCount := i }

/-- `newMem`: the slot taken, or `none` where the function goes on to `calloc`. -/
def newMem (p : CBufPool) : CBufPool × Option ℕ :=
  if p.m_nUseCnt = p.m_nAllocCount then (p, none)
  else
    match scanFrom p.m_nAllocCount (fun i => !p.m_nFlagArray i) p.m_nAllocCount p.m_nLastCount with
    | some i => (p.take i, some i)
    | none => (p, none)

/-- The pointer `newMem` returns for slot `i`. -/
def getMem (p : CBufPool) (i : ℕ) : ℤ := p.m_pChunk+offset p.m_nShift i

/-- Slot `i` is given back. -/
def release (p : CBufPool) (i : ℕ) : CBufPool :=
  { p with
    m_nFlagArray := Function.update p.m_nFlagArray i false
    m_nUseCnt := i32 (p.m_nUseCnt-1)
    m_nLastCount := i }

/-- `delMem(p)`: the pool afterwards and the pointer given to `free`, if any. -/
def delMem (p : CBufPool) (pUsedMem : ℤ) : CBufPool × Option ℤ :=
  if p.isIncludeAddress pUsedMem = false then (p, some pUsedMem)
  else
    let nPos := i32 (pUsedMem-p.m_pChunk)
    let nIdx := nPos >>> p.m_nShift
    if pUsedMem = p.m_pChunk+nPos then (p.release nIdx.toNat, none) else (p, none)

/-- Every slot's offset fits an `int`. -/
def Fits (nShift nMaxCount : ℕ) : Prop := (nMaxCount-1)*2^nShift < 2^31

/-- What `alloc` fixes and no later call changes. -/
structure Layout (p : CBufPool) (nShift nMaxCount : ℕ) (pChunk : ℤ) : Prop where
  shift : p.m_nShift = nShift
  count : p.m_nAllocCount = nMaxCount
  chunk : p.m_pChunk = pChunk
  endAddr : p.m_pEnd = pChunk+offset nShift (nMaxCount-1)
  last : p.m_nLastCount < nMaxCount

theorem layout_alloc (s n : ℕ) (c : ℤ) (hn : n ≠ 0) : Layout (alloc s n c) s n c :=
  ⟨rfl, rfl, rfl, rfl, Nat.pos_of_ne_zero hn⟩

theorem offset_eq (s n i : ℕ) (hf : Fits s n) (hi : i < n) : offset s i = i*2^s := by
  have hle : i*2^s ≤ (n-1)*2^s := Nat.mul_le_mul_right _ (by omega)
  unfold Fits at hf
  unfold offset
  rw [Nat.shiftLeft_eq, i32_natCast _ (by omega)]
  push_cast
  rfl

-- The slot `newMem` takes is one of the pool.
theorem newMem_slot (p : CBufPool) (s n : ℕ) (c : ℤ) (i : ℕ) (h : Layout p s n c)
    (hr : p.newMem.2 = some i) : i < n ∧ p.m_nFlagArray i = false ∧ p.newMem.1 = p.take i := by
  unfold newMem at hr ⊢
  split at hr
  · cases hr
  · rename_i hne
    rw [if_neg hne]
    cases hs : scanFrom p.m_nAllocCount (fun i => !p.m_nFlagArray i) p.m_nAllocCount
        p.m_nLastCount with
    | none =>
      rw [hs] at hr
      cases hr
    | some j =>
      rw [hs] at hr
      cases hr
      rw [h.count] at hs
      have hf := scanFrom_free n _ (Nat.zero_lt_of_lt h.last) n _ i h.last.le hs
      exact ⟨hf.1, by simpa using hf.2, rfl⟩

theorem newMem_none (p : CBufPool) (hr : p.newMem.2 = none) : p.newMem.1 = p := by
  unfold newMem at hr ⊢
  split
  · rfl
  · split
    · simp_all
    · rfl

theorem layout_newMem (p : CBufPool) (s n : ℕ) (c : ℤ) (h : Layout p s n c) :
    Layout p.newMem.1 s n c := by
  cases hr : p.newMem.2 with
  | none =>
    rw [newMem_none p hr]
    exact h
  | some i =>
    obtain ⟨hi, _, he⟩ := newMem_slot p s n c i h hr
    rw [he]
    exact ⟨h.shift, h.count, h.chunk, h.endAddr, hi⟩

theorem layout_release (p : CBufPool) (s n : ℕ) (c : ℤ) (i : ℕ) (h : Layout p s n c) (hi : i < n) :
    Layout (p.release i) s n c :=
  ⟨h.shift, h.count, h.chunk, h.endAddr, hi⟩

-- Freeing the pointer of a slot clears exactly that slot.
theorem delMem_slot (p : CBufPool) (s n : ℕ) (c : ℤ) (i : ℕ) (h : Layout p s n c) (hf : Fits s n)
    (hi : i < n) : p.delMem (c+i*2^s) = (p.release i, none) := by
  have hpow : (0:ℤ) < 2^s := by positivity
  have hle : (i:ℤ)*2^s ≤ ((n-1 : ℕ):ℤ)*2^s :=
    mul_le_mul_of_nonneg_right (by exact_mod_cast Nat.le_sub_one_of_lt hi) hpow.le
  have hnn : (0:ℤ) ≤ i*2^s := by positivity
  have hlt : (i:ℤ)*2^s < 2^31 := hle.trans_lt (by exact_mod_cast hf)
  have hin : p.isIncludeAddress (c+i*2^s) = true := by
    simp only [isIncludeAddress, h.chunk, h.endAddr, offset_eq s n (n-1) hf (by omega),
      Bool.and_eq_true, decide_eq_true_eq]
    exact ⟨by linarith, by linarith⟩
  have hpos : i32 (c+i*2^s-p.m_pChunk) = i*2^s := by
    rw [h.chunk, add_sub_cancel_left]
    exact i32_of_range _ (by linarith) hlt
  have hidx : ((i:ℤ)*2^s) >>> p.m_nShift = i := by
    rw [h.shift, Int.shiftRight_eq_div_pow]
    exact_mod_cast Nat.mul_div_cancel i (Nat.two_pow_pos s)
  unfold delMem
  rw [if_neg (by simp [hin])]
  simp only [hpos, hidx, Int.toNat_natCast]
  rw [h.chunk, if_pos rfl]

-- Freeing a block outside the chunk gives it to `free` and changes no flag.
theorem delMem_heap (p : CBufPool) (s n : ℕ) (c a : ℤ) (h : Layout p s n c) (hf : Fits s n)
    (ha : a < c ∨ c+n*2^s ≤ a) : p.delMem a = (p, some a) := by
  have hlast := h.last
  have hpow : (0:ℤ) < 2^s := by positivity
  have hstep : ((n-1 : ℕ):ℤ)*2^s < n*2^s :=
    mul_lt_mul_of_pos_right (by omega) hpow
  have hout : p.isIncludeAddress a = false := by
    simp only [isIncludeAddress, h.chunk, h.endAddr, offset_eq s n (n-1) hf (by omega),
      Bool.and_eq_false_iff, decide_eq_false_iff_not, not_le]
    rcases ha with ha | ha
    · exact Or.inl ha
    · exact Or.inr (by linarith)
  rw [delMem, if_pos hout]

/-- A pool from which slots 0 to `j-1` were taken, one after the other, and none given back. -/
structure Filled (p : CBufPool) (s n : ℕ) (c : ℤ) (j : ℕ) : Prop where
  layout : Layout p s n c
  flags : ∀ i, p.m_nFlagArray i = decide (i < j)
  use : p.m_nUseCnt = j
  last : p.m_nLastCount = j-1

theorem filled_alloc (s n : ℕ) (c : ℤ) (hn : n ≠ 0) : Filled (alloc s n c) s n c 0 :=
  ⟨layout_alloc s n c hn, fun _ => rfl, rfl, rfl⟩

-- The scan of `newMem` on a filled pool stops at the next slot.
theorem scan_filled (p : CBufPool) (s n : ℕ) (c : ℤ) (j : ℕ) (h : Filled p s n c j) (hj : j < n) :
    scanFrom n (fun i => !p.m_nFlagArray i) n p.m_nLastCount = some j := by
  have hlast := h.layout.last
  have hfree (i : ℕ) : (!p.m_nFlagArray i) = false ↔ i < j := by
    rw [h.flags]
    simp
  cases hs : scanFrom n (fun i => !p.m_nFlagArray i) n p.m_nLastCount with
  | none =>
    have ht := (hfree j).mp (scanFrom_full_turn n _ _ hlast.le hs j hj)
    exact absurd ht (lt_irrefl j)
  | some i =>
    obtain ⟨d, _, hi, hfi, hb⟩ := scanFrom_some n _ (by omega) n _ i hlast.le hs
    rw [h.last] at hi hb
    have hge : j ≤ i := by
      by_contra hlt
      rw [(hfree i).mpr (by omega)] at hfi
      cases hfi
    -- slot `j` is one step past the last slot taken, so the scan cannot go beyond it
    have hd : ¬(if j = 0 then 0 else 1) < d := by
      intro hlt
      have hp := hb _ hlt
      have he : (j-1+(if j = 0 then 0 else 1))%n = j := by
        rw [Nat.mod_eq_of_lt] <;> split <;> omega
      rw [he] at hp
      exact lt_irrefl j ((hfree j).mp hp)
    have hi' : i = j-1+d := by
      rw [hi]
      apply Nat.mod_eq_of_lt
      split at hd <;> omega
    congr 1
    split at hd <;> omega

theorem newMem_filled (p : CBufPool) (s n : ℕ) (c : ℤ) (j : ℕ) (h : Filled p s n c j) (hj : j < n)
    (hj31 : j+1 < 2^31) : p.newMem = (p.take j, some j) ∧ Filled (p.take j) s n c (j+1) := by
  have hne : ¬p.m_nUseCnt = p.m_nAllocCount := by
    rw [h.use, h.layout.count]
    omega
  constructor
  · unfold newMem
    rw [if_neg hne, h.layout.count, scan_filled p s n c j h hj]
  · refine ⟨⟨h.layout.shift, h.layout.count, h.layout.chunk, h.layout.endAddr, hj⟩, ?_, ?_, rfl⟩
    · intro i
      simp only [take, Function.update_apply, h.flags]
      by_cases hi : i = j
      · simp [hi]
      · rw [if_neg hi]
        congr 1
        exact propext ⟨fun _ => by omega, fun _ => by omega⟩
    · simp only [take, h.use]
      exact_mod_cast i32_natCast (j+1) hj31

-- Where the offsets do not fit, slot `2^(31-s)` has a pointer below the chunk.
theorem offset_overflow (s : ℕ) (hs : s ≤ 31) : offset s (2^(31-s)) = -2^31 := by
  unfold offset
  rw [Nat.shiftLeft_eq, ← pow_add, Nat.sub_add_cancel hs]
  decide

end CBufPool

end Leviathan
