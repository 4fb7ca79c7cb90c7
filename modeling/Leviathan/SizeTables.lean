import Leviathan.MString

/-! The places that index `g_nSizeList` or `nMaxList` with a class from `getIndex` without the test that
`__newBuf` and `delBufByIndex` make: `CmString`, `CMemManager::init` and `CRedisList::getRedisContents`
(NWSessionManager.cpp). -/
namespace Leviathan

open Buffers

section Model

/-- `reserve`. -/
def CmString.reserve (s : CmString) (fill : ℕ → UInt8) (n : ℤ) : Except Fault CmString := do
  let capacity ← readSizeByIndex s.m_nSftIdx
  if (capacity : ℤ) > n then return s
  else inNewBuf fill (getIndex n.toNat) []

/-- `init(TCHAR *, int)`, from the size `nSize` on that `getStrToInt` has read. -/
def CMemManager.init (nMaxList : List ℤ) (nSize : ℕ) (nCount : ℤ) : Except Fault (List ℤ × ℕ) :=
  if nSize ≠ 0 then
    let nIdx := getIndex nSize
    match nMaxList[nIdx]? with
    | none => .error .outOfBounds
    | some n => .ok (nMaxList.set nIdx (i32 (n+nCount)), nSize)
  else .ok (nMaxList, nSize)

structure CRedisList where
  m_pArgv : List (Option CString)
  m_nUse : ℕ
  m_nLast : ℕ
  m_pRedisFullContents : Option (List UInt8)
  -- the length of all texts, an `int` whose overflow shows as a fault of `getRedisContents`; once they are
  -- put together the class of their buffer
  m_nContentsIdx : ℕ

namespace CRedisList

/-- The loop of `getRedisContents` from argument `i` on. -/
def print (m_nUse nSize : ℕ) :
    List (Option CString) → ℕ → ℕ → List UInt8 → Except Fault (ℕ × List UInt8)
  | [], _, nPos, buf => .ok (nPos, buf)
  | none :: _, _, _, _ => .error .nullRead
  | some str :: m_pArgv, i, nPos, buf => do
    let buf ← strcpy buf nPos (str.chars ++ [32])
    let nPos := nPos+(str.strlen+1)
    if m_nUse = i then return (nPos, buf)
    else if nPos ≥ nSize then return (nPos, buf)
    else print m_nUse nSize m_pArgv (i+1) nPos buf

variable (l : CRedisList)

/-- The size that `getRedisContents` asks for. -/
def nSize : ℕ :=
  (if l.m_pRedisFullContents.isSome then 0 else l.m_nContentsIdx)+l.m_nUse+128

/-- `getRedisContents` up to the read of the table; `newBuf` answers a buffer of the size asked for. -/
def fillContents (newBuf : ℕ → Option (List UInt8)) : Except Fault (Option CRedisList) := do
  let nSize ← toInt l.nSize
  match newBuf nSize with
  | none => return none
  | some buf =>
    let r ← print l.m_nUse nSize (l.m_pArgv.take l.m_nLast) 0 0 buf
    let buf ← store r.2 r.1 [0]
    return some { l with m_pRedisFullContents := some buf, m_nContentsIdx := getIndex nSize }

/-- `getRedisContents`: the list and the answer. -/
def getRedisContents (newBuf : ℕ → Option (List UInt8)) : Except Fault (CRedisList × ℕ) := do
  match ← l.fillContents newBuf with
  | none => return ({ l with m_pRedisFullContents := none, m_nContentsIdx := getIndex l.nSize }, 0)
  | some l =>
    let nSize ← readSizeByIndex l.m_nContentsIdx
    return (l, nSize)

end CRedisList

end Model

/-- The call ends without an access outside the memory that it owns. -/
def Defined {α : Type} (x : Except Fault α) : Prop := ∃ r, x = .ok r

/-- A string whose class is the one of `size`, with the text `str` in a buffer of the class. -/
structure OfSize (s : CmString) (size : ℕ) (str : List UInt8) : Prop where
  index : s.m_nSftIdx = getIndex size
  bytes : s.bytes = 2^getIndex size
  text : s.c_str = .ok str

section Tables

variable (size : ℕ) (s : CmString) (fill : ℕ → UInt8) (str : List UInt8)

/-- The classes of the tables are those of the sizes up to two megabytes. -/
theorem getIndex_lt_iff (hpos : 1 ≤ size) : getIndex size < idxBufMax ↔ size ≤ 2097152 := by
  have hleast := getIndex_isLeast size hpos
  constructor
  · intro h
    calc
      size ≤ 2^getIndex size := hleast.1
      _ ≤ 2^21 := Nat.pow_le_pow_right (by decide) (Nat.le_of_lt_succ h)
  · intro h
    exact Nat.lt_succ_of_le (hleast.2 h)

theorem defined_bind {α β : Type} (x : Except Fault α) (f : α → Except Fault β)
    (h : Defined (x >>= f)) : Defined x := by
  obtain ⟨r, hr⟩ := h
  obtain ⟨a, ha, -⟩ := (bind_eq_ok x f r).mp hr
  exact ⟨a, ha⟩

theorem readSizeByIndex_defined_iff (hpos : 1 ≤ size) :
    Defined (readSizeByIndex (getIndex size)) ↔ size ≤ 2097152 := by
  rw [← getIndex_lt_iff size hpos, readSizeByIndex]
  constructor
  · rintro ⟨r, hr⟩
    by_contra hge
    rw [if_neg hge] at hr
    cases hr
  · intro hlt
    exact ⟨_, if_pos hlt⟩

theorem OfSize.holds (h : OfSize s size str) (hpos : 1 ≤ size) (hle : size ≤ 2097152) :
    s.Holds str := by
  have hk : s.m_nSftIdx < idxBufMax := by
    rw [h.index]
    exact (getIndex_lt_iff size hpos).mpr hle
  have hcap : s.bytes = getSizeByIndex s.m_nSftIdx := by
    rw [getSizeByIndex_eq _ hk, h.bytes, h.index]
  refine ⟨h.text, hcap, hk, ?_⟩
  obtain ⟨rest, hbuf, -⟩ := (CmString.c_str_eq_ok_iff s str).mp h.text
  rw [← hcap, CmString.bytes, hbuf, Option.getD_some, List.length_append, List.length_cons]
  omega

theorem assign_defined_iff (h : OfSize s size str) (hpos : 1 ≤ size) (str' : CString)
    (hsize : str'.strlen+1 ≤ 2097152) : Defined (s.assign fill str') ↔ size ≤ 2097152 := by
  constructor
  · rintro ⟨r, hr⟩
    obtain ⟨n, -, hr⟩ := (bind_eq_ok _ _ _).mp hr
    by_cases hzero : s.m_nSftIdx = 0
    · have hone := (getIndex_eq_zero_iff size hpos).mp (h.index ▸ hzero)
      omega
    · rw [if_pos hzero, h.index] at hr
      exact (readSizeByIndex_defined_iff size hpos).mp (defined_bind _ _ ⟨r, hr⟩)
  · intro hle
    obtain ⟨s', hs', -⟩ := CmString.assign_holds s fill str str' (h.holds size s str hpos hle) hsize
    exact ⟨s', hs'⟩

theorem append_defined_iff (h : OfSize s size str) (hpos : 1 ≤ size) (str' : CString)
    (hsize : str.length+str'.strlen+1 ≤ 2097152) :
    Defined (s.append fill str') ↔ size ≤ 2097152 := by
  constructor
  · rintro ⟨r, hr⟩
    obtain ⟨rest, hbuf, -⟩ := (CmString.c_str_eq_ok_iff s str).mp h.text
    rw [CmString.append, hbuf] at hr
    obtain ⟨old, -, hr⟩ := (bind_eq_ok _ _ _).mp hr
    obtain ⟨nLen, -, hr⟩ := (bind_eq_ok _ _ _).mp hr
    obtain ⟨nOLen, -, hr⟩ := (bind_eq_ok _ _ _).mp hr
    obtain ⟨n, -, hr⟩ := (bind_eq_ok _ _ _).mp hr
    rw [h.index] at hr
    exact (readSizeByIndex_defined_iff size hpos).mp (defined_bind _ _ ⟨r, hr⟩)
  · intro hle
    obtain ⟨s', hs', -⟩ := CmString.append_holds s fill str str' (h.holds size s str hpos hle) hsize
    exact ⟨s', hs'⟩

theorem reserve_defined_iff (h : OfSize s size str) (hpos : 1 ≤ size) (n : ℤ) (hn : n ≤ 2097152) :
    Defined (s.reserve fill n) ↔ size ≤ 2097152 := by
  have hread := readSizeByIndex_defined_iff size hpos
  constructor
  · intro hdef
    rw [CmString.reserve, h.index] at hdef
    exact hread.mp (defined_bind _ _ hdef)
  · intro hle
    obtain ⟨capacity, hcap⟩ := hread.mpr hle
    have hlarge : 0 < capacity := by
      unfold readSizeByIndex at hcap
      have hk := (getIndex_lt_iff size hpos).mpr hle
      rw [if_pos hk, getSizeByIndex_eq _ hk] at hcap
      rw [← Except.ok.inj hcap]
      exact Nat.two_pow_pos _
    rw [CmString.reserve, h.index, hcap, ok_bind]
    split_ifs with hfits
    · exact ⟨s, rfl⟩
    · obtain ⟨hk, hroom⟩ := CmString.getIndex_lt n.toNat (by omega) (by omega)
      obtain ⟨s', hs', -⟩ := CmString.inNewBuf_holds fill [] _ hk List.not_mem_nil
        (by rw [List.length_nil]; omega)
      exact ⟨s', hs'⟩

theorem init_defined_iff (hpos : 1 ≤ size) (nMaxList : List ℤ) (hlen : nMaxList.length = idxBufMax)
    (nCount : ℤ) : Defined (CMemManager.init nMaxList size nCount) ↔ size ≤ 2097152 := by
  rw [← getIndex_lt_iff size hpos, CMemManager.init, if_pos (by omega), ← hlen]
  constructor
  · rintro ⟨r, hr⟩
    by_contra hge
    have hnone : nMaxList[getIndex size]? = none := List.getElem?_eq_none (by omega)
    dsimp only at hr
    rw [hnone] at hr
    cases hr
  · intro hlt
    dsimp only
    rw [List.getElem?_eq_getElem hlt]
    exact ⟨_, rfl⟩

theorem getRedisContents_defined_iff (l l' : CRedisList) (newBuf : ℕ → Option (List UInt8))
    (hsize : l.nSize = size) (hpos : 1 ≤ size) (hfill : l.fillContents newBuf = .ok (some l')) :
    Defined (l.getRedisContents newBuf) ↔ size ≤ 2097152 := by
  have hidx : l'.m_nContentsIdx = getIndex size := by
    obtain ⟨n, hn, h⟩ := (bind_eq_ok _ _ _).mp hfill
    have hnsize : n = size := by
      unfold toInt at hn
      split_ifs at hn
      rw [← hsize]
      exact (Except.ok.inj hn).symm
    cases hbuf : newBuf n with
    | none =>
      rw [hbuf] at h
      cases h
    | some buf =>
      rw [hbuf] at h
      obtain ⟨r, -, h⟩ := (bind_eq_ok _ _ _).mp h
      obtain ⟨buf', -, h⟩ := (bind_eq_ok _ _ _).mp h
      rw [← Option.some.inj (Except.ok.inj h), hnsize]
  rw [← readSizeByIndex_defined_iff size hpos, CRedisList.getRedisContents, hfill, ok_bind, ← hidx]
  constructor
  · exact defined_bind _ _
  · rintro ⟨n, hn⟩
    refine ⟨(l', n), ?_⟩
    dsimp only
    rw [hn, ok_bind]
    rfl

/-- The reads and the write of the five functions stay in their tables exactly for the classes of sizes
up to two megabytes. -/
theorem tables_defined_iff (size : ℕ) (hpos : 1 ≤ size) :
    (∀ s str, OfSize s size str → ∀ fill,
      (∀ str' : CString, str'.strlen+1 ≤ 2097152 → (Defined (s.assign fill str') ↔ size ≤ 2097152)) ∧
      (∀ str' : CString, str.length+str'.strlen+1 ≤ 2097152 →
        (Defined (s.append fill str') ↔ size ≤ 2097152)) ∧
      ∀ n ≤ 2097152, Defined (s.reserve fill n) ↔ size ≤ 2097152) ∧
    (∀ nMaxList : List ℤ, nMaxList.length = idxBufMax → ∀ nCount,
      Defined (CMemManager.init nMaxList size nCount) ↔ size ≤ 2097152) ∧
    ∀ (l l' : CRedisList) (newBuf : ℕ → Option (List UInt8)), l.nSize = size →
      l.fillContents newBuf = .ok (some l') →
      (Defined (l.getRedisContents newBuf) ↔ size ≤ 2097152) := by
  refine ⟨?_, ?_, ?_⟩
  · intro s str h fill
    refine ⟨?_, ?_, ?_⟩
    · exact assign_defined_iff size s fill str h hpos
    · exact append_defined_iff size s fill str h hpos
    · exact reserve_defined_iff size s fill str h hpos
  · exact init_defined_iff size hpos
  · intro l l' newBuf hsize hfill
    exact getRedisContents_defined_iff size l l' newBuf hsize hpos hfill

theorem tables_defined_iff_two_megabytes :
    Defined (CMemManager.init (List.replicate idxBufMax 0) 2097152 1) :=
  ((tables_defined_iff 2097152 (by decide)).2.1 _ List.length_replicate 1).mpr le_rfl

-- one byte more
theorem not_defined_over : ¬getIndex 2097153 < idxBufMax ∧
    CMemManager.init (List.replicate idxBufMax 0) 2097153 1 = .error .outOfBounds := by
  decide

end Tables

end Leviathan
