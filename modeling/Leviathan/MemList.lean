import Leviathan.CTypes

/-! `CMemList` (comTList.h): an array of object pointers with an atomic flag for each cell.  The
flag is 0 for a free cell, 1 for a claimed one and 2 for one that holds an object. -/
namespace Leviathan

-- the indices are C `int`s, so that an index before the array can be named
structure CMemList (Obj : Type) where
  m_pArray : ℤ → Option Obj
  m_nFlagArray : ℤ → ℕ
  m_nCurCount : ℤ
  m_nEmptyFirstIdx : ℤ
  m_nMaxCount : ℕ

namespace CMemList

variable {Obj : Type}

-- `clear()` keeps the old pointers
def clear (l : CMemList Obj) : CMemList Obj :=
  { l with
    m_nFlagArray := fun i => if isInclude i l.m_nMaxCount then 0 else l.m_nFlagArray i
    m_nCurCount := 0
    m_nEmptyFirstIdx := 0 }

def setFlag (l : CMemList Obj) (i : ℤ) (nVal : ℕ) : CMemList Obj :=
  { l with m_nFlagArray := Function.update l.m_nFlagArray i nVal }

def setPtr (l : CMemList Obj) (i : ℤ) (o : Obj) : CMemList Obj :=
  { l with m_pArray := Function.update l.m_pArray i (some o) }

end CMemList

end Leviathan
