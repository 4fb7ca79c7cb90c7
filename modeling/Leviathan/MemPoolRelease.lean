import Leviathan.MemPool
import Leviathan.PoolSlot

/-! `delMem` of `CMemPool` (comMemPool.h) and `CBMemPool` (comBMemPool.h) by address: which blocks of
the heap are taken for elements of the chunk. -/
namespace Leviathan

/-- A block of one element that has nothing in common with a chunk of `n` elements at `c`. -/
def Outside (sz n : ℕ) (c a : ℤ) : Prop := a+sz ≤ c ∨ c+n*sz ≤ a

/-- What `delMem` does to the flags and the use count of a pool with `n` elements. -/
def release (n : ℕ) (flags : ℕ → Bool) (use nIdx : ℤ) : (ℕ → Bool) × ℤ :=
  if isInclude nIdx n then (Function.update flags nIdx.toNat false, i32 (use-1)) else (flags, use)

/-- Flags and use count after `delMem` of a pointer `a`: for a block outside the chunk they are as
before, and for an element of the chunk exactly its flag is cleared. -/
def Releases (sz n : ℕ) (c a : ℤ) (flags : ℕ → Bool) (use : ℤ) (r : (ℕ → Bool) × ℤ) : Prop :=
  (Outside sz n c a → r = (flags, use)) ∧
    ∀ i < n, a = c+i*sz → r = (Function.update flags i false, i32 (use-1))

theorem CMemPool.delMem_release (p : CMemPool) (d : ℤ) :
    ((p.delMem d).1.m_nFlagArray, (p.delMem d).1.m_nUseCnt) =
      release p.m_nAllocCount p.m_nFlagArray p.m_nUseCnt (i32 d) := by
  rw [delMem, release]
  split_ifs <;> rfl

theorem CBMemPool.delMem_release (p : CBMemPool) (sz : ℕ) (a : ℤ) :
    ((p.delMem sz a).1.m_nFlagArray, (p.delMem sz a).1.m_nUseCnt) =
      release p.m_nAllocCount p.m_nFlagArray p.m_nUseCnt (i32 (ptrDiff sz a p.m_pChunk)) := by
  rw [delMem, release]
  split_ifs <;> rfl

-- An `int` that is no negative number is the number it comes from, modulo 2^32.
theorem i32_nonneg_iff (d : ℤ) : 0 ≤ i32 d ↔ d%2^32 < 2^31 := by
  rw [i32, Int.bmod_def]
  split_ifs <;> omega

theorem i32_eq_emod (d : ℤ) (hd : 0 ≤ i32 d) : i32 d = d%2^32 := by
  have hlt := (i32_nonneg_iff d).mp hd
  rw [i32, Int.bmod_def, if_pos (by omega)]
  rfl

theorem include_i32_iff (n : ℕ) (hn : n < 2^31) (d : ℤ) :
    isInclude (i32 d) n = true ↔ d%2^32 < n := by
  rw [isInclude_iff]
  constructor
  · rintro ⟨hpos, hlt⟩
    rwa [i32_eq_emod d hpos] at hlt
  · intro hlt
    have hpos := (i32_nonneg_iff d).mpr (by omega)
    exact ⟨hpos, (i32_eq_emod d hpos).trans_lt hlt⟩

theorem outside_iff (sz n : ℕ) (hsz : 1 ≤ sz) (c d : ℤ) :
    Outside sz n c (c+d*sz) ↔ d < 0 ∨ n ≤ d := by
  have hpos : (0 : ℤ) < sz := by omega
  apply or_congr
  · calc c+d*sz+sz ≤ c ↔ (d+1)*sz ≤ 0*sz := by
          rw [add_mul, one_mul, zero_mul]
          constructor <;> intro h <;> linarith
      _ ↔ d+1 ≤ 0 := mul_le_mul_iff_left₀ hpos
      _ ↔ d < 0 := Int.add_one_le_iff
  · calc c+n*sz ≤ c+d*sz ↔ n*sz ≤ d*(sz : ℤ) := add_le_add_iff_left c
      _ ↔ n ≤ d := mul_le_mul_iff_left₀ hpos

section Release

variable (n : ℕ) (hn : n < 2^31) (flags : ℕ → Bool) (use d : ℤ)

include hn

-- A use count that goes down is another one, also where it wraps.
theorem release_same_iff : release n flags use (i32 d) = (flags, use) ↔ ¬d%2^32 < n := by
  rw [← include_i32_iff n hn d, release]
  split_ifs with hin
  · refine iff_of_false (fun hsame => ?_) (not_not_intro hin)
    have huse : i32 (use-1) = use := (Prod.mk.inj hsame).2
    rw [i32, Int.bmod_def] at huse
    split_ifs at huse <;> omega
  · exact iff_of_true rfl hin

theorem release_own (i : ℕ) (hi : i < n) :
    release n flags use (i32 i) = (Function.update flags i false, i32 (use-1)) := by
  have hin : isInclude (i : ℤ) n = true := by
    rw [isInclude_iff]
    omega
  rw [i32_natCast i (hi.trans hn), release, if_pos hin, Int.toNat_natCast]

theorem releases_iff (sz : ℕ) (hsz : 1 ≤ sz) (c : ℤ) :
    Releases sz n c (c+d*sz) flags use (release n flags use (i32 (ptrDiff sz (c+d*sz) c))) ↔
      (d < 0 ∨ n ≤ d → n ≤ d%2^32) := by
  rw [ptrDiff_element sz hsz c d, Releases, release_same_iff n hn flags use, not_lt,
    outside_iff sz n hsz c d]
  refine ⟨And.left, fun hout => ⟨hout, fun i hi ha => ?_⟩⟩
  have hmul : d*sz = i*sz := add_left_cancel ha
  obtain rfl : d = i := mul_right_cancel₀ (by omega) hmul
  exact release_own n hn flags use i hi

end Release

/-- A block at a distance of `d` elements is taken for one of a pool of `n` elements exactly when `d`,
without all but its last 32 bits, is below `n`. -/
theorem heap_releases_iff (sz : ℕ) (hsz : 1 ≤ sz) (c d : ℤ) (p : CMemPool) (q : CBMemPool)
    (hp : p.m_nAllocCount < 2^31) (hq : q.m_nAllocCount < 2^31) :
    (Releases sz p.m_nAllocCount c (c+d*sz) p.m_nFlagArray p.m_nUseCnt
        ((p.delMem (ptrDiff sz (c+d*sz) c)).1.m_nFlagArray,
          (p.delMem (ptrDiff sz (c+d*sz) c)).1.m_nUseCnt) ↔
      (d < 0 ∨ p.m_nAllocCount ≤ d → p.m_nAllocCount ≤ d%2^32)) ∧
    (Releases sz q.m_nAllocCount q.m_pChunk (q.m_pChunk+d*sz) q.m_nFlagArray q.m_nUseCnt
        ((q.delMem sz (q.m_pChunk+d*sz)).1.m_nFlagArray,
          (q.delMem sz (q.m_pChunk+d*sz)).1.m_nUseCnt) ↔
      (d < 0 ∨ q.m_nAllocCount ≤ d → q.m_nAllocCount ≤ d%2^32)) := by
  rw [CMemPool.delMem_release, CBMemPool.delMem_release]
  exact ⟨releases_iff _ hp _ _ d sz hsz c, releases_iff _ hq _ _ d sz hsz q.m_pChunk⟩

/-- Pools with eight elements, of which the first one is taken. -/
def oneTaken : CMemPool := (CMemPool.alloc 8).newMem.1

def oneTakenB : CBMemPool := (CBMemPool.zeroed 8 4096).take 0

example : (CBMemPool.alloc 8 8 4096).map (fun p => p.take 0) = .ok oneTakenB := rfl

theorem heap_releases_near :
    Releases 8 8 4096 (4096+9*8) oneTaken.m_nFlagArray oneTaken.m_nUseCnt
        ((oneTaken.delMem (ptrDiff 8 (4096+9*8) 4096)).1.m_nFlagArray,
          (oneTaken.delMem (ptrDiff 8 (4096+9*8) 4096)).1.m_nUseCnt) :=
  (heap_releases_iff 8 (by decide) 4096 9 oneTaken oneTakenB (by decide) (by decide)).1.mpr
    (fun _ => by decide)

-- A block 2^32 elements behind the chunk clears the flag of element 0.
theorem not_heap_releases_far :
    Outside 8 8 4096 (4096+2^32*8) ∧ oneTaken.m_nFlagArray 0 = true ∧
    (oneTaken.delMem (ptrDiff 8 (4096+2^32*8) 4096)).1.m_nFlagArray 0 = false ∧
    ¬Releases 8 8 4096 (4096+2^32*8) oneTaken.m_nFlagArray oneTaken.m_nUseCnt
      ((oneTaken.delMem (ptrDiff 8 (4096+2^32*8) 4096)).1.m_nFlagArray,
        (oneTaken.delMem (ptrDiff 8 (4096+2^32*8) 4096)).1.m_nUseCnt) ∧
    ¬Releases 8 8 4096 (4096+2^32*8) oneTakenB.m_nFlagArray oneTakenB.m_nUseCnt
      ((oneTakenB.delMem 8 (4096+2^32*8)).1.m_nFlagArray,
        (oneTakenB.delMem 8 (4096+2^32*8)).1.m_nUseCnt) := by
  have hout : Outside 8 8 4096 (4096+2^32*8) := Or.inr (by decide)
  refine ⟨hout, rfl, rfl, fun h => ?_, fun h => ?_⟩
  · have huse := (Prod.mk.inj (h.1 hout)).2
    revert huse
    decide
  · have huse := (Prod.mk.inj (h.1 hout)).2
    revert huse
    decide

end Leviathan
