import Leviathan.CTypes
import Leviathan.CircularScan

/-! `CMemPool` (comMemPool.h) as one thread sees it: a chunk of `m_nAllocCount` elements with an
atomic flag for each.  An element is named by its index in the chunk. -/
namespace Leviathan

structure CMemPool where
  m_nFlagArray : ℕ → Bool
  m_nUseCnt : ℤ
  m_nLastCount : ℕ
  m_nAllocCount : ℕ

namespace CMemPool

-- `alloc(n)` ends with `clear`, which resets both counters and every flag
def alloc (nMaxCount : ℕ) : CMemPool := ⟨fun _ => false, 0, 0, nMaxCount⟩

/-- Element `i` is claimed, counted and remembered as the last one. -/
def claim (p : CMemPool) (i : ℕ) : CMemPool :=
  { p with
    m_nFlagArray := Function.update p.m_nFlagArray i true
    m_nUseCnt := i32 (p.m_nUseCnt+1)
    m_nLastCount := i }

def scan (p : CMemPool) : Option ℕ :=
  scanFrom p.m_nAllocCount (fun i => !p.m_nFlagArray i) p.m_nAllocCount p.m_nLastCount

-- the index of the element, or `none` where the element comes from `__unit_alloc`
def newMem (p : CMemPool) : CMemPool × Option ℕ :=
  if p.m_nUseCnt = p.m_nAllocCount then (p, none)
  else
    match p.scan with
    | some i => (p.claim i, some i)
    | none => (p, none)

-- `newMem(int *nKey)`: a full pool sets the key to -1 and is scanned all the same; `none` is NULL
def newMemKey (p : CMemPool) : CMemPool × Option ℕ :=
  match p.scan with
  | some i => (p.claim i, some i)
  | none => (p, none)

-- `delMem(p)` for a pointer `d` elements after the chunk; false where it goes to the heap
def delMem (p : CMemPool) (d : ℤ) : CMemPool × Bool :=
  let nIdx := i32 d
  if isInclude nIdx p.m_nAllocCount then
    ({ p with
        m_nFlagArray := Function.update p.m_nFlagArray nIdx.toNat false
        m_nUseCnt := i32 (p.m_nUseCnt-1) }, true)
  else (p, false)

/-- `getUseMem`: the element when its flag is set. -/
def getUseMem (p : CMemPool) (nKey : ℤ) : Option ℕ :=
  if isInclude nKey p.m_nAllocCount && p.m_nFlagArray nKey.toNat then some nKey.toNat else none

-- On a pool without any element in use the first call takes element 0.
theorem newMem_alloc (n : ℕ) (hn : 1 ≤ n) : (alloc n).newMem = ((alloc n).claim 0, some 0) := by
  obtain ⟨m, rfl⟩ : ∃ m, n = m+1 := ⟨n-1, by omega⟩
  have hne : ¬(alloc (m+1)).m_nUseCnt = ((alloc (m+1)).m_nAllocCount : ℤ) := by
    show ¬(0:ℤ) = ((m+1 : ℕ):ℤ)
    omega
  have hs : (alloc (m+1)).scan = some 0 := by simp [scan, alloc, scanFrom]
  rw [newMem, if_neg hne, hs]

end CMemPool

end Leviathan
