import Leviathan.FieldList
import Leviathan.LineBuffer

/-! `CFileUtil::fileToFieldRecord` (comFileUtil.cpp): the lines of a file, each as a list of its
fields. -/
namespace Leviathan.FieldRecord

open FileLines (g_rc linesOf LineBuf copyLine)
open FieldList (getFieldList pushText eq_of_chars)
open FileFilter (CStringList)

section Model

/-- A block of `nSize` bytes, with the text that was copied to it. -/
structure Block where
  nSize : ℕ
  text : CString

structure STStrInfo where
  pSource : CString
  pTarget : Block
  aBufSize : ℕ

def tcscpy (pTarget : Block) (text : CString) : Except Fault Block :=
  if text.strlen+1 ≤ pTarget.nSize then .ok { pTarget with text } else .error .outOfBounds

def take (s : CString) (n : ℕ) : CString := ⟨s.chars.take n, fun h => s.noNul (List.mem_of_mem_take h)⟩

/-- `getIndex` of an `unsigned int`; the exponent of a double that is not positive makes a class
below 0. -/
def indexOf (nSize : ℕ) : ℕ := if 0 < i32 nSize then getIndex (i32 nSize).toNat else 0

/-- The zeroed `STBuf` for a size of class `nIdx`. -/
def fileBuf (nIdx : ℕ) : LineBuf :=
  if 0 < nIdx then (FileLines.newBufByIndex nIdx).getD ⟨none, nIdx⟩ else ⟨none, 0⟩

/-- `readNalloc` into a zeroed `STBuf`: the text that it then has. -/
def readNalloc (content : CString) : Except Fault CString := do
  let nSize := u32 content.strlen
  let _ ← copyLine (fileBuf (indexOf (nSize+1))) (take content nSize).chars
  return take content nSize

-- the classes that have a pool, and the addresses of the copies of the words of each line
variable (pooled : ℕ → Bool) (addr : ℕ → ℕ → ℤ)

/-- `newBuf`: a block of the pool of its class, or one of the size asked for. -/
def newBuf (nSize : ℕ) : Block :=
  ⟨if pooled (getIndex nSize) then 2^getIndex nSize else nSize, ⟨[], CString.noNul_nil⟩⟩

/-- The target of `getNextLine`: a new block when that at hand is too small. -/
def growTarget (pInfo : STStrInfo) (nBufSize : ℕ) : STStrInfo :=
  if pInfo.aBufSize < nBufSize then
    { pInfo with pTarget := newBuf pooled (nBufSize+1024), aBufSize := nBufSize+1024 }
  else pInfo

def getNextLine (pInfo : STStrInfo) : Except Fault (STStrInfo × ℕ) := do
  let line := pInfo.pSource.takeWhile (fun c => c ≠ g_rc)
  if line.strlen = pInfo.pSource.strlen then
    -- the size does not count the NUL behind the text
    let pInfo := growTarget pooled pInfo line.strlen
    let pTarget ← tcscpy pInfo.pTarget line
    return ({ pInfo with pTarget }, 0)
  else
    -- here the `'\n'` becomes the NUL
    let nSize := line.strlen+1
    let pInfo := growTarget pooled pInfo nSize
    let pTarget ← tcscpy pInfo.pTarget line
    return ({ pInfo with pTarget, pSource := pInfo.pSource.drop nSize }, nSize)

/-- The loop of `fileToFieldRecord` from line `i` on: its answer, and the list of the lines. At
`ERROR_PROC` the objects of the list are deleted, and their pointers stay in it. -/
def recordLoop (ch : UInt8) :
    ℕ → ℕ → STStrInfo → CSList CStringList → Except Fault (Bool × CSList CStringList)
  | 0, _, _, _ => .error .diverges
  | fuel+1, i, stInfo, pLineList => do
    let (stInfo, nSize) ← getNextLine pooled stInfo
    if nSize = 0 then return (true, pLineList)
    else
      let (bres, pList) ← getFieldList (pushText (addr i)) stInfo.pTarget.text ch (CStringList.alloc 10)
      if bres then
        match ← pLineList.pushBack pList true with
        | (pLineList, some _) => recordLoop ch fuel (i+1) stInfo pLineList
        | (pLineList, none) => return (false, pLineList)
      else return (false, pLineList)

/-- `fileToFieldRecord`; the file is `none` when it cannot be opened. -/
def fileToFieldRecord (file : Option CString) (pLineList : CSList CStringList) (ch : UInt8) :
    Except Fault (Bool × CSList CStringList) :=
  match file with
  | none => .ok (false, pLineList)
  | some content => do
    let source ← readNalloc content
    if source.strlen = 0 then return (false, pLineList)
    else recordLoop pooled addr ch (source.strlen+1) 0 ⟨source, newBuf pooled 4096, 4096⟩ pLineList

end Model

variable (pooled : ℕ → Bool) (addr : ℕ → ℕ → ℤ) (ch : UInt8)

/-- `getFieldList` makes `pList` of line `i`. -/
def Splits (i : ℕ) (line : List UInt8) (pList : CStringList) : Prop :=
  ∃ text : CString, text.chars = line ∧
    getFieldList (pushText (addr i)) text ch (CStringList.alloc 10) = .ok (true, pList)

/-- The lists are those of the lines, of which the first one is line `i`. -/
def RecordsFrom (i : ℕ) (lines : List (List UInt8)) (lists : List CStringList) : Prop :=
  lists.length = lines.length ∧
    ∀ j line pList, lines[j]? = some line → lists[j]? = some pList → Splits addr ch (i+j) line pList

/-- The call stays in its buffers and leaves one record for each line, in order. -/
def RecordPerLine (content : CString) (pLineList : CSList CStringList) : Prop :=
  ∃ l lists, fileToFieldRecord pooled addr (some content) pLineList ch = .ok (true, l) ∧ l.Holds lists ∧
    RecordsFrom addr ch 0 (linesOf content.chars) lists

section Lines

variable (text line rest : List UInt8)

-- A text without a line that lacks its `'\n'`.
theorem ended_iff : (line ++ g_rc :: rest = [] ∨ (line ++ g_rc :: rest).getLast? = some g_rc) ↔
    (rest = [] ∨ rest.getLast? = some g_rc) := by
  by_cases hrest : rest = []
  · rw [hrest]
    exact iff_of_true (Or.inr (List.getLast?_concat ..)) (Or.inl rfl)
  · rw [FileLines.getLast_terminated line rest hrest]
    exact or_congr (iff_of_false (by simp) hrest) Iff.rfl

theorem linesOf_length : (linesOf text).length =
    text.count g_rc+(if text = [] ∨ text.getLast? = some g_rc then 0 else 1) := by
  induction hn : text.length using Nat.strong_induction_on generalizing text with
  | _ n ih =>
    subst hn
    rcases FileLines.first_line text with hno | ⟨line, rest, rfl, hline⟩
    · have hlast : text.getLast? ≠ some g_rc := fun h => hno (List.mem_of_getLast? h)
      rw [List.count_eq_zero.mpr hno]
      by_cases hnil : text = []
      · rw [if_pos (Or.inl hnil), hnil]
        rfl
      · rw [if_neg (not_or.mpr ⟨hnil, hlast⟩), FileLines.linesOf_unterminated text hno hnil]
        rfl
    · have hlt : rest.length < (line ++ g_rc :: rest).length := by
        rw [List.length_append, List.length_cons]
        omega
      rw [FileLines.linesOf_terminated line rest hline, List.length_cons, ih _ hlt rest rfl,
        List.count_append, List.count_eq_zero.mpr hline, List.count_cons_self,
        if_congr (ended_iff line rest) rfl rfl]
      omega

end Lines

theorem RecordsFrom.cons (i : ℕ) (line : List UInt8) (pList : CStringList)
    (lines : List (List UInt8)) (lists : List CStringList) (hsplit : Splits addr ch i line pList)
    (h : RecordsFrom addr ch (i+1) lines lists) :
    RecordsFrom addr ch i (line :: lines) (pList :: lists) := by
  refine ⟨congrArg Nat.succ h.1, fun j line' pList' hj hp => ?_⟩
  cases j with
  | zero =>
    cases hj
    cases hp
    exact hsplit
  | succ j =>
    have hs := h.2 j line' pList' hj hp
    rwa [Nat.add_right_comm i 1 j] at hs

section Target

/-- There are as many bytes as `aBufSize` says. -/
def Roomy (pInfo : STStrInfo) : Prop := 1 ≤ pInfo.aBufSize ∧ pInfo.aBufSize ≤ pInfo.pTarget.nSize

variable (pInfo : STStrInfo) (hroom : Roomy pInfo)

theorem newBuf_room (n : ℕ) (hn : 1 ≤ n) : n ≤ (newBuf pooled n).nSize := by
  unfold newBuf
  dsimp only
  split_ifs
  · exact le_two_pow_getIndex n hn
  · exact le_rfl

theorem roomy_newBuf (source : CString) (n : ℕ) (hn : 1 ≤ n) : Roomy ⟨source, newBuf pooled n, n⟩ :=
  ⟨hn, newBuf_room pooled n hn⟩

theorem growTarget_room (n : ℕ) (hroom : Roomy pInfo) : Roomy (growTarget pooled pInfo n) ∧
    n ≤ (growTarget pooled pInfo n).pTarget.nSize := by
  unfold growTarget
  split_ifs with hlt
  · have hnew := newBuf_room pooled (n+1024) (by omega)
    have hpos : 1 ≤ n+1024 := le_add_left (by decide)
    exact ⟨⟨hpos, hnew⟩, (Nat.le_add_right n 1024).trans hnew⟩
  · exact ⟨hroom, (not_lt.mp hlt).trans hroom.2⟩

-- What a line leaves does not depend on the target.
theorem growTarget_source (n : ℕ) : (growTarget pooled pInfo n).pSource = pInfo.pSource := by
  unfold growTarget
  split_ifs <;> rfl

-- A call that does not find a `'\n'` answers 0, if it stays in its buffer.
theorem getNextLine_end (h : g_rc ∉ pInfo.pSource.chars) (r : STStrInfo × ℕ)
    (hr : getNextLine pooled pInfo = .ok r) : r.2 = 0 := by
  have hline : (pInfo.pSource.takeWhile (fun c => c ≠ g_rc)).strlen = pInfo.pSource.strlen := by
    apply congrArg List.length
    exact takeWhile_ne_self g_rc _ h
  rw [getNextLine, if_pos hline] at hr
  obtain ⟨pTarget, -, hr⟩ := (bind_eq_ok _ _ _).mp hr
  cases hr
  rfl

include hroom

theorem getNextLine_nil (h : pInfo.pSource.chars = []) :
    ∃ pInfo', getNextLine pooled pInfo = .ok (pInfo', 0) := by
  have hline : (pInfo.pSource.takeWhile (fun c => c ≠ g_rc)).strlen = 0 := by
    rw [CString.strlen, CString.takeWhile_chars, h]
    rfl
  have hsource : pInfo.pSource.strlen = 0 := by
    rw [CString.strlen, h]
    rfl
  obtain ⟨⟨hone, hle⟩, -⟩ := growTarget_room pooled pInfo 0 hroom
  rw [getNextLine, if_pos (hline.trans hsource.symm), hline]
  dsimp only
  rw [tcscpy, hline, if_pos (hone.trans hle)]
  exact ⟨_, rfl⟩

theorem getNextLine_line (line rest : List UInt8) (h : pInfo.pSource.chars = line ++ g_rc :: rest)
    (hline : g_rc ∉ line) :
    ∃ pInfo', getNextLine pooled pInfo = .ok (pInfo', line.length+1) ∧ Roomy pInfo' ∧
      pInfo'.pSource.chars = rest ∧ pInfo'.pTarget.text.chars = line := by
  have htake : (pInfo.pSource.takeWhile (fun c => c ≠ g_rc)).chars = line := by
    rw [CString.takeWhile_chars, h]
    exact takeWhile_ne_append g_rc line rest hline
  have hlen : (pInfo.pSource.takeWhile (fun c => c ≠ g_rc)).strlen = line.length :=
      congrArg List.length htake
  have hne : line.length ≠ pInfo.pSource.strlen := by
    rw [CString.strlen, h, List.length_append, List.length_cons]
    omega
  obtain ⟨hroom', hfit⟩ := growTarget_room pooled pInfo (line.length+1) hroom
  rw [getNextLine, if_neg (hlen ▸ hne), hlen]
  dsimp only
  rw [tcscpy, hlen, if_pos hfit, ok_bind]
  refine ⟨_, rfl, hroom', ?_, htake⟩
  rw [CString.drop_chars, growTarget_source, h, ← List.drop_drop, List.drop_left]
  rfl

end Target

section Loop

variable (stInfo : STStrInfo) (hroom : Roomy stInfo) (l : CSList CStringList) (lists : List CStringList)
  (hl : l.Holds lists)

include hroom hl

-- A line is copied, split and added to the list; the loop goes on with a true answer only.
theorem recordLoop_line (fuel i : ℕ) (line rest : List UInt8)
    (h : stInfo.pSource.chars = line ++ g_rc :: rest) (hline : g_rc ∉ line) :
    ∃ stInfo', Roomy stInfo' ∧ stInfo'.pSource.chars = rest ∧
      ∀ r, recordLoop pooled addr ch (fuel+1) i stInfo l = .ok (true, r) ↔
        ∃ pList l', Splits addr ch i line pList ∧ l.pushBack pList true = .ok (l', some lists.length) ∧
          recordLoop pooled addr ch fuel (i+1) stInfo' l' = .ok (true, r) := by
  obtain ⟨stInfo', hnext, hroom', hrest, htext⟩ :=
      getNextLine_line pooled stInfo hroom line rest h hline
  refine ⟨stInfo', hroom', hrest, fun r => ?_⟩
  rw [recordLoop, hnext, ok_bind]
  dsimp only
  rw [if_neg (Nat.succ_ne_zero line.length)]
  constructor
  · intro hr
    obtain ⟨⟨bres, pList⟩, hsplit, hr⟩ := (bind_eq_ok _ _ _).mp hr
    cases bres with
    | false => cases hr
    | true =>
      dsimp only at hr
      rw [if_pos rfl] at hr
      obtain ⟨⟨l', nIdx⟩, hpush, hr⟩ := (bind_eq_ok _ _ _).mp hr
      obtain ⟨rfl, -⟩ := hl.of_pushBack l lists pList _ hpush
      exact ⟨pList, l', ⟨stInfo'.pTarget.text, htext, hsplit⟩, hpush, hr⟩
  · rintro ⟨pList, l', ⟨text, hchars, hsplit⟩, hpush, hr⟩
    rw [eq_of_chars stInfo'.pTarget.text text (htext.trans hchars.symm), hsplit, ok_bind]
    dsimp only
    rw [if_pos rfl, hpush]
    exact hr

theorem recordLoop_count (fuel i : ℕ) (r : CSList CStringList)
    (hr : recordLoop pooled addr ch fuel i stInfo l = .ok (true, r)) :
    ∃ more, r.Holds (lists ++ more) ∧ more.length = stInfo.pSource.chars.count g_rc := by
  induction fuel generalizing stInfo l lists i with
  | zero => cases hr
  | succ fuel ih =>
    rcases FileLines.first_line stInfo.pSource.chars with hno | ⟨line, rest, h, hline⟩
    · rw [recordLoop] at hr
      obtain ⟨⟨stInfo', nSize⟩, hnext, hr⟩ := (bind_eq_ok _ _ _).mp hr
      cases getNextLine_end pooled stInfo hno _ hnext
      cases hr
      refine ⟨[], by rwa [List.append_nil], ?_⟩
      rw [List.count_eq_zero.mpr hno]
      rfl
    · obtain ⟨stInfo', hroom', hrest, hloop⟩ :=
        recordLoop_line pooled addr ch stInfo hroom l lists hl fuel i line rest h hline
      obtain ⟨pList, l', -, hpush, hr'⟩ := (hloop r).mp hr
      obtain ⟨-, hl'⟩ := hl.of_pushBack l lists pList _ hpush
      obtain ⟨more, hmore, hlen⟩ := ih stInfo' hroom' l' _ hl' (i+1) hr'
      refine ⟨pList :: more, ?_, ?_⟩
      · rwa [List.append_assoc] at hmore
      · rw [List.length_cons, hlen, hrest, h, List.count_append, List.count_eq_zero.mpr hline,
          List.count_cons_self, Nat.zero_add]

omit hl in
-- A line takes at least one character and one slot.
theorem recordLoop_records (largest : ℕ) (hl : l.HoldsUpTo largest lists)
    (hlargest : lists.length+stInfo.pSource.strlen ≤ largest)
    (fuel i : ℕ) (hfuel : stInfo.pSource.strlen < fuel)
    (hend : stInfo.pSource.chars = [] ∨ stInfo.pSource.chars.getLast? = some g_rc)
    (hsplit : ∀ j line, (linesOf stInfo.pSource.chars)[j]? = some line →
      ∃ pList, Splits addr ch (i+j) line pList) :
    ∃ r more, recordLoop pooled addr ch fuel i stInfo l = .ok (true, r) ∧ r.Holds (lists ++ more) ∧
      RecordsFrom addr ch i (linesOf stInfo.pSource.chars) more := by
  induction fuel generalizing stInfo l lists i with
  | zero => omega
  | succ fuel ih =>
    rcases FileLines.first_line stInfo.pSource.chars with hno | ⟨line, rest, h, hline⟩
    · have hnil : stInfo.pSource.chars = [] :=
          hend.resolve_right (fun h => hno (List.mem_of_getLast? h))
      obtain ⟨stInfo', hnext⟩ := getNextLine_nil pooled stInfo hroom hnil
      refine ⟨l, [], ?_, (List.append_nil lists).symm ▸ hl.holds, ?_⟩
      · rw [recordLoop, hnext, ok_bind]
        rfl
      · rw [hnil]
        exact ⟨rfl, fun j line pList hj => by cases hj⟩
    · obtain ⟨stInfo', hroom', hrest, hloop⟩ :=
        recordLoop_line pooled addr ch stInfo hroom l lists hl.holds fuel i line rest h hline
      have hlines : linesOf stInfo.pSource.chars = line :: linesOf rest := by
        rw [h, FileLines.linesOf_terminated line rest hline]
      rw [hlines] at hsplit ⊢
      obtain ⟨pList, hpList⟩ := hsplit 0 line rfl
      have hlen : stInfo.pSource.strlen = line.length+1+stInfo'.pSource.strlen := by
        rw [CString.strlen, h, CString.strlen, hrest, List.length_append, List.length_cons]
        omega
      obtain ⟨l', hpush, hl'⟩ := hl.pushBack pList (by omega)
      have hlt : stInfo'.pSource.strlen < fuel := by omega
      have hlargest' : (lists ++ [pList]).length+stInfo'.pSource.strlen ≤ largest := by
        rw [List.length_append, List.length_singleton]
        omega
      have hend' : stInfo'.pSource.chars = [] ∨ stInfo'.pSource.chars.getLast? = some g_rc := by
        rw [hrest, ← ended_iff line, ← h]
        exact hend
      have hsplit' (j : ℕ) (line' : List UInt8)
          (hj : (linesOf stInfo'.pSource.chars)[j]? = some line') :
          ∃ pList, Splits addr ch (i+1+j) line' pList := by
        rw [hrest] at hj
        obtain ⟨pList', hs⟩ := hsplit (j+1) line' hj
        exact ⟨pList', by rwa [Nat.add_right_comm i 1 j]⟩
      obtain ⟨r, more, hr, hmore, hrecords⟩ := ih stInfo' hroom' l' _ hl' hlargest' (i+1) hlt hend' hsplit'
      rw [hrest] at hrecords
      refine ⟨r, pList :: more, (hloop r).mpr ⟨pList, l', hpList, hpush, hr⟩, ?_, ?_⟩
      · rwa [List.append_assoc] at hmore
      · exact hrecords.cons addr ch i line pList _ more hpList

end Loop

section Claim

variable (content : CString)

theorem fileBuf_class (nIdx : ℕ) (h : (fileBuf nIdx).pValue ≠ none) : (fileBuf nIdx).nIdx ≤ 30 := by
  unfold fileBuf FileLines.newBufByIndex at h ⊢
  split_ifs at h ⊢ with hpos hlt
  · exact Nat.le_of_lt_succ hlt
  · exact absurd rfl h
  · exact Nat.zero_le 30

theorem copyLine_fits (buf buf' : LineBuf) (line : List UInt8) (h : copyLine buf line = .ok buf') :
    buf.pValue ≠ none ∧ line.length+1 ≤ 2^buf.nIdx := by
  unfold copyLine at h
  split at h
  · cases h
  · rename_i text htext
    split_ifs at h with hfit
    exact ⟨by simp [htext], hfit⟩

theorem indexOf_of_lt (nSize : ℕ) (hpos : 0 < nSize) (hlt : nSize < 2^31) :
    indexOf nSize = getIndex nSize := by
  rw [indexOf, i32_natCast nSize hlt, if_pos (by omega), Int.toNat_natCast]

-- The buffer holds what the 32 bits of the size count, up to the last class that has a block.
theorem readNalloc_ok (source : CString) (h : readNalloc content = .ok source) :
    source.chars = content.chars.take (u32 content.strlen) ∧ u32 content.strlen < 2^30 := by
  obtain ⟨buf, hcopy, hsource⟩ := (bind_eq_ok _ _ _).mp h
  cases hsource
  refine ⟨rfl, ?_⟩
  obtain ⟨hsome, hfit⟩ := copyLine_fits _ _ _ hcopy
  have hlen : (take content (u32 content.strlen)).chars.length = u32 content.strlen :=
    List.length_take_of_le (Nat.mod_le _ _)
  rw [hlen] at hfit
  exact hfit.trans (Nat.pow_le_pow_right (by decide) (fileBuf_class _ hsome))

theorem readNalloc_small (hpos : 1 ≤ content.strlen) (hlt : content.strlen < 2^30) :
    readNalloc content = .ok content := by
  have hu : u32 content.strlen = content.strlen := u32_of_lt _ (by omega)
  have htake : take content content.strlen = content := eq_of_chars _ _ List.take_length
  have hidx : indexOf (content.strlen+1) = getIndex (content.strlen+1) :=
      indexOf_of_lt _ (by omega) (by omega)
  have hclass : getIndex (content.strlen+1) ≤ 30 :=
    (getIndex_isLeast (content.strlen+1) (by omega)).2 (show content.strlen+1 ≤ 2^30 by omega)
  have hzero : getIndex (content.strlen+1) ≠ 0 := by
    rw [Ne, getIndex_eq_zero_iff _ (by omega)]
    omega
  have hbuf : fileBuf (getIndex (content.strlen+1)) = ⟨some [], getIndex (content.strlen+1)⟩ := by
    rw [fileBuf, if_pos (by omega), FileLines.newBufByIndex, if_pos (by omega)]
    rfl
  have hfit : content.chars.length+1 ≤ 2^getIndex (content.strlen+1) := le_two_pow_getIndex _ (by omega)
  rw [readNalloc, hu, hidx, hbuf, htake, copyLine, if_pos hfit]
  rfl

theorem fileToFieldRecord_some (source : CString) (hread : readNalloc content = .ok source)
    (l : CSList CStringList) (hne : source.strlen ≠ 0) :
    fileToFieldRecord pooled addr (some content) l ch =
      recordLoop pooled addr ch (source.strlen+1) 0 ⟨source, newBuf pooled 4096, 4096⟩ l := by
  rw [fileToFieldRecord, hread, ok_bind, if_neg hne]

variable (l : CSList CStringList) (hl : l.Holds [])

include hl

theorem recordPerLine_of_end (hend : content.chars.getLast? = some g_rc) (hlt : content.strlen < 2^30)
    (hsplit : ∀ i line, (linesOf content.chars)[i]? = some line →
      ∃ pList, Splits addr ch i line pList) :
    RecordPerLine pooled addr ch content l := by
  have hne : content.strlen ≠ 0 := by
    intro h0
    rw [List.length_eq_zero_iff.mp h0] at hend
    cases hend
  have hread := readNalloc_small content (Nat.one_le_iff_ne_zero.mpr hne) hlt
  have hlargest : ([] : List CStringList).length+content.strlen ≤ largestMax l.m_nMax := by
    have hle := unitAddSize_le_largestMax l.m_nMax
    rw [List.length_nil]
    unfold unitAddSize at hle
    omega
  obtain ⟨r, lists, hr, hlists, hrecords⟩ := recordLoop_records pooled addr ch
    ⟨content, newBuf pooled 4096, 4096⟩ (roomy_newBuf pooled content 4096 (by decide)) l []
    (largestMax l.m_nMax) ⟨hl, rfl⟩ hlargest (content.strlen+1) 0 (Nat.lt_succ_self _) (Or.inr hend) (fun j line hj => by
      rw [Nat.zero_add]
      exact hsplit j line hj)
  refine ⟨r, lists, ?_, hlists, hrecords⟩
  rw [fileToFieldRecord_some pooled addr ch content content hread l hne, hr]

theorem end_of_recordPerLine (h : RecordPerLine pooled addr ch content l) :
    content.chars.getLast? = some g_rc ∧ content.strlen < 2^30 := by
  obtain ⟨r, lists, hr, hlists, hlen, -⟩ := h
  rw [fileToFieldRecord] at hr
  obtain ⟨source, hread, hr⟩ := (bind_eq_ok _ _ _).mp hr
  obtain ⟨hsource, hlt⟩ := readNalloc_ok content source hread
  split_ifs at hr with hzero
  · cases hr
  obtain ⟨more, hmore, hcount⟩ := recordLoop_count pooled addr ch
    ⟨source, newBuf pooled 4096, 4096⟩ (roomy_newBuf pooled source 4096 (by decide)) l [] hl _ 0 r hr
  have hsame : lists = more := List.ext_getElem? (fun i => (hlists.slot i).symm.trans (hmore.slot i))
  -- the `'\n'`s that were read are as many as there are lines
  have hsplit : (content.chars.take (u32 content.strlen)).count g_rc +
      (content.chars.drop (u32 content.strlen)).count g_rc = content.chars.count g_rc := by
    rw [← List.count_append, List.take_append_drop]
  rw [hsame, hcount, hsource, linesOf_length] at hlen
  have hne : content.chars ≠ [] := by
    intro hnil
    apply hzero
    rw [CString.strlen, hsource, hnil, List.take_nil]
    rfl
  have hend : content.chars.getLast? = some g_rc := by
    by_contra hend
    rw [if_neg (not_or.mpr ⟨hne, hend⟩)] at hlen
    omega
  rw [if_pos (Or.inr hend)] at hlen
  have hrest : content.chars.drop (u32 content.strlen) = [] := by
    by_contra hrest
    have hmem : g_rc ∈ content.chars.drop (u32 content.strlen) := by
      apply List.mem_of_getLast?
      rwa [List.getLast?_drop, if_neg (mt List.drop_eq_nil_iff.mpr hrest)]
    have hpos := List.count_pos_iff.mpr hmem
    omega
  exact ⟨hend, (List.drop_eq_nil_iff.mp hrest).trans_lt hlt⟩

omit hl in
/-- There is one record for each line exactly when the last line has its `'\n'` and the file is no
larger than the largest block. -/
theorem recordPerLine_iff (hl : l.Holds [])
    (hsplit : ∀ i line, (linesOf content.chars)[i]? = some line →
      ∃ pList, Splits addr ch i line pList) :
    RecordPerLine pooled addr ch content l ↔ content.chars.getLast? = some g_rc ∧
      content.strlen < 2^30 :=
  ⟨end_of_recordPerLine pooled addr ch content l hl,
    fun h => recordPerLine_of_end pooled addr ch content l hl h.1 h.2 hsplit⟩

omit hl in
/-- The lines `a;b` and `c`. -/
theorem recordPerLine_iff_two : RecordPerLine (fun _ => false) (fun _ _ => 0) 59
    ⟨[97, 59, 98, 10, 99, 10], by decide⟩ (CSList.init.alloc 512 .none true) :=
  (recordPerLine_iff (fun _ => false) (fun _ _ => 0) 59 ⟨[97, 59, 98, 10, 99, 10], by decide⟩
    (CSList.init.alloc 512 .none true) (CSList.holds_alloc 512 .none) (by
      intro i line hi
      match i with
      | 0 =>
        cases hi
        exact ⟨_, ⟨[97, 59, 98], by decide⟩, rfl, rfl⟩
      | 1 =>
        cases hi
        exact ⟨_, ⟨[99], by decide⟩, rfl, rfl⟩)).mpr (by decide)

omit hl in
/-- Of the lines `a` and `b`, without a `'\n'` at the end, only the first one gets a record. -/
theorem not_recordPerLine : ¬∀ (pooled : ℕ → Bool) (addr : ℕ → ℕ → ℤ) (ch : UInt8) (content : CString)
    (l : CSList CStringList), content.chars ≠ [] → l.Holds [] →
    (∀ i line, (linesOf content.chars)[i]? = some line → ∃ pList, Splits addr ch i line pList) →
    RecordPerLine pooled addr ch content l := by
  intro h
  have hrecords := h (fun _ => false) (fun _ _ => 0) 59 ⟨[97, 10, 98], by decide⟩
    (CSList.init.alloc 512 .none true) (by decide) (CSList.holds_alloc 512 .none) (by
      intro i line hi
      match i with
      | 0 =>
        cases hi
        exact ⟨_, ⟨[97], by decide⟩, rfl, rfl⟩
      | 1 =>
        cases hi
        exact ⟨_, ⟨[98], by decide⟩, rfl, rfl⟩)
  exact absurd (end_of_recordPerLine _ _ 59 _ _ (CSList.holds_alloc 512 .none) hrecords).1 (by decide)

end Claim

end Leviathan.FieldRecord
