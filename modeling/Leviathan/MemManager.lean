import Leviathan.BufPool
import Leviathan.Runs

/-! `CMemManager` (comMemManager.h, comMemManager.cpp): one buffer pool for each size class and
the C heap for everything else.  A run of a client keeps the blocks it holds; the address that
`calloc` answers is part of the label of a step. -/
namespace Leviathan

structure STBufConf where
  nMaxList : ℕ → ℕ

structure CMemManager where
  m_pBufList : ℕ → Option CBufPool
  m_nOverMaxIdx : ℕ

/-- Where a block comes from. -/
inductive Origin
  | pool (nIdx i : ℕ)
  | heap (size : ℕ)
  deriving DecidableEq

/-- A block: the pointer the client gets, and its origin. -/
structure Block where
  pValue : ℤ
  origin : Origin

namespace CMemManager

/-- `alloc`, when every allocation in it succeeds: class `i` has a pool when it is configured. -/
def alloc (conf : STBufConf) (chunk : ℕ → ℤ) : CMemManager where
  m_pBufList := fun i =>
    if 1 ≤ i ∧ i < idxBufMax ∧ conf.nMaxList i ≠ 0 then
      some (CBufPool.alloc i (conf.nMaxList i) (chunk i))
    else none
  m_nOverMaxIdx := 0

/-- The pool that the test of `__newBuf` and `delBufByIndex` finds for class `nIdx`. -/
def poolOf (m : CMemManager) (nIdx : ℕ) : Option CBufPool :=
  if idxBuf2m < nIdx then none else m.m_pBufList nIdx

/-- `__newBuf(nIdx, size)`; `a` is the address `calloc` answers if it is called. -/
def _newBuf (m : CMemManager) (nIdx size : ℕ) (a : ℤ) : CMemManager × Block :=
  match m.poolOf nIdx with
  | none =>
    ({ m with m_nOverMaxIdx := max m.m_nOverMaxIdx nIdx },
      ⟨a, .heap (if size = 0 then 1 <<< nIdx else size)⟩)
  | some p =>
    let r := p.newMem
    ({ m with m_pBufList := Function.update m.m_pBufList nIdx (some r.1) },
      match r.2 with
      | some i => ⟨p.getMem i, .pool nIdx i⟩
      | none => ⟨a, .heap (getSizeByIndex p.m_nShift)⟩)

/-- `delBufByIndex(pBuf, nIdx)`: the manager and the pointer given to `free`, if any. -/
def delBufByIndex (m : CMemManager) (pBuf : ℤ) (nIdx : ℕ) : CMemManager × Option ℤ :=
  match m.poolOf nIdx with
  | none => (m, if pBuf = 0 then none else some pBuf)
  | some p =>
    let r := p.delMem pBuf
    ({ m with m_pBufList := Function.update m.m_pBufList nIdx (some r.1) }, r.2)

def newBuf (m : CMemManager) (nSize : ℕ) (a : ℤ) : CMemManager × Block :=
  m._newBuf (getIndex nSize) nSize a

/-- `newBuf(nSize, pIndex)`: also the class stored through `pIndex`. -/
def newBufIndex (m : CMemManager) (nSize : ℕ) (a : ℤ) : (CMemManager × Block) × ℕ :=
  (m._newBuf (getIndex nSize) nSize a, getIndex nSize)

structure STBuf where
  pValue : ℤ
  nIdx : ℕ

/-- `newBuf(nSize, pBuf)`: the block an `STBuf` holds is released first. -/
def newBufInto (m : CMemManager) (nSize : ℕ) (pBuf : STBuf) (a : ℤ) :
    (CMemManager × Block) × STBuf :=
  let m := if pBuf.pValue = 0 then m else (m.delBufByIndex pBuf.pValue pBuf.nIdx).1
  let r := m._newBuf (getIndex nSize) 0 a
  (r, ⟨r.2.pValue, getIndex nSize⟩)

def newString (m : CMemManager) (pString : CString) (a : ℤ) : CMemManager × Block :=
  m._newBuf (getIndex (pString.strlen+1)) 0 a

def delBuf (m : CMemManager) (pBuf : ℤ) (nSize : ℕ) : CMemManager × Option ℤ :=
  m.delBufByIndex pBuf (getIndex nSize)

def delBufSt (m : CMemManager) (pRes : STBuf) : (CMemManager × Option ℤ) × STBuf :=
  (m.delBufByIndex pRes.pValue pRes.nIdx, ⟨0, 0⟩)

/-- `delString(pString)` of a buffer that holds the text `text`. -/
def delString (m : CMemManager) (pString : ℤ) (text : CString) (nIdx : ℕ) : CMemManager × Option ℤ :=
  if nIdx ≠ 0 then m.delBufByIndex pString nIdx
  else m.delBufByIndex pString (getIndex (text.strlen+1))

end CMemManager

end Leviathan
