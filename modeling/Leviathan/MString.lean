import Leviathan.Buffers
import Leviathan.MemManagerPairing

/-! `CmString` (comMString.h, comMString.cpp): a text in a buffer of a size class.  What a new buffer
holds before the first write is part of the call. -/
namespace Leviathan

open Buffers

structure CmString where
  -- the bytes of the buffer, `none` for NULL
  m_pValue : Option (List UInt8)
  m_nSftIdx : ℕ
  deriving DecidableEq

/-- The result of an `int` computation; beyond the range of `int` it has no meaning. -/
def toInt (n : ℕ) : Except Fault ℕ := if n < 2^31 then .ok n else .error .outOfBounds

/-- `getSizeByIndex` with the read of `g_nSizeList`. -/
def readSizeByIndex (nIdx : ℕ) : Except Fault ℕ :=
  if nIdx < idxBufMax then .ok (getSizeByIndex nIdx) else .error .outOfBounds

/-- `newBufByIndex`, which has no size for class 31. -/
def newBufByIndex (fill : ℕ → UInt8) (nIdx : ℕ) : Except Fault (List UInt8) :=
  if nIdx < 31 then .ok ((List.range (2^nIdx)).map fill) else .error .nullWrite

namespace CmString

section Model

variable (s : CmString) (fill : ℕ → UInt8)

/-- `STRING_SIZE`; a `TCHAR` has one byte. -/
def stringSize (str : CString) : Except Fault ℕ := toInt (str.strlen+1)

/-- What `_tcslen(m_pValue)` and the copies from `m_pValue` read. -/
def c_str : Except Fault (List UInt8) :=
  match s.m_pValue with
  | none => .error .nullRead
  | some buf => text buf

/-- A new buffer of class `nIdx` with a string in it. -/
def inNewBuf (nIdx : ℕ) (str : List UInt8) : Except Fault CmString := do
  let m_pValue ← newBufByIndex fill nIdx
  let m_pValue ← strcpy m_pValue 0 str
  return ⟨some m_pValue, nIdx⟩

def void : CmString := ⟨none, 0⟩

/-- `CmString(const TCHAR *)`. -/
def ofText (str : CString) : Except Fault CmString := do
  let size ← stringSize str
  inNewBuf fill (getIndex size) str.chars

/-- `CmString(int)`; `getIndex` has no meaning for 0. -/
def ofSize (size : ℕ) : Except Fault CmString := do
  let size ← toInt size
  if size = 0 then .error .outOfBounds else inNewBuf fill (getIndex size) []

/-- `CmString(const CmString &)` and `CmString(const CmString *)`. -/
def copy : Except Fault CmString := do
  let str ← s.c_str
  inNewBuf fill s.m_nSftIdx str

/-- `operator=`. -/
def assign (str : CString) : Except Fault CmString := do
  let size ← stringSize str
  if s.m_nSftIdx ≠ 0 then
    let capacity ← readSizeByIndex s.m_nSftIdx
    if capacity > size then
      match s.m_pValue with
      | none => .error .nullWrite
      | some m_pValue =>
        let m_pValue ← strcpy m_pValue 0 str.chars
        return { s with m_pValue := some m_pValue }
    else inNewBuf fill (getIndex size) str.chars
  else inNewBuf fill (getIndex size) str.chars

def append (str : CString) : Except Fault CmString := do
  match s.m_pValue with
  | none => .error .nullRead
  | some m_pValue =>
    let old ← text m_pValue
    let nLen ← toInt str.strlen
    let nOLen ← toInt old.length
    let size ← toInt (nLen+nOLen+1)
    let capacity ← readSizeByIndex s.m_nSftIdx
    if capacity > size then
      let m_pValue ← strcpy m_pValue nOLen str.chars
      return { s with m_pValue := some m_pValue }
    else
      let newIdx := getIndex size
      let newBuf ← newBufByIndex fill newIdx
      let newBuf ← strcpy newBuf 0 old
      let newBuf ← strcpy newBuf nOLen str.chars
      return ⟨some newBuf, newIdx⟩

def push_back (c : UInt8) : Except Fault CmString :=
  match s.m_pValue with
  | none => .ok s
  | some m_pValue => do
    let str ← text m_pValue
    let m_pValue ← store m_pValue str.length [c]
    return { s with m_pValue := some m_pValue }

def pop_back : Except Fault CmString :=
  match s.m_pValue with
  | none => .ok s
  | some m_pValue => do
    let str ← text m_pValue
    let m_pValue ← store m_pValue ((str.length : ℤ)-1) [0]
    return { s with m_pValue := some m_pValue }

/-- The constructors but for the copy, which `Call.copy` stands for. -/
inductive Ctor
  | void
  | text (str : CString)
  | size (size : ℕ)

inductive Call
  | copy
  | assign (str : CString)
  | append (str : CString)
  | push_back (c : UInt8)
  | pop_back

def construct : Ctor → Except Fault CmString
  | .void => .ok void
  | .text str => ofText fill str
  | .size size => ofSize fill size

/-- A call, with what a buffer allocated by it holds. -/
def call (a : Call × (ℕ → UInt8)) : Except Fault CmString :=
  match a.1 with
  | .copy => s.copy a.2
  | .assign str => s.assign a.2 str
  | .append str => s.append a.2 str
  | .push_back c => s.push_back c
  | .pop_back => s.pop_back

def step (a : Call × (ℕ → UInt8)) : Option CmString := (s.call a).toOption

end Model

/-- The text that a constructor is for. -/
def Ctor.means : Ctor → List UInt8
  | .text str => str.chars
  | _ => []

/-- The text that a call is to leave. -/
def Call.means (str : List UInt8) : Call → List UInt8
  | .copy => str
  | .assign str' => str'.chars
  | .append str' => str ++ str'.chars
  | .push_back c => str ++ [c]
  | .pop_back => str.dropLast

def means (c : Ctor) (calls : List (Call × (ℕ → UInt8))) : List UInt8 :=
  calls.foldl (fun str a => a.1.means str) c.means

/-- The bytes of the buffer. -/
def bytes (s : CmString) : ℕ := (s.m_pValue.getD []).length

/-- The string holds `str` in a buffer of its class that has room for it. -/
structure Holds (s : CmString) (str : List UInt8) : Prop where
  text : s.c_str = .ok str
  capacity : s.bytes = getSizeByIndex s.m_nSftIdx
  index : s.m_nSftIdx < idxBufMax
  room : str.length+1 ≤ getSizeByIndex s.m_nSftIdx

section Buffer

variable (s s' : CmString) (fill : ℕ → UInt8) (str : List UInt8) (k : ℕ)

theorem toInt_of_lt (n : ℕ) (hn : n < 2^31) : toInt n = .ok n := if_pos hn

theorem readSizeByIndex_eq (hk : k < idxBufMax) : readSizeByIndex k = .ok (2^k) := by
  rw [readSizeByIndex, if_pos hk, getSizeByIndex_eq k hk]

theorem newBufByIndex_ok (buf : List UInt8) (h : newBufByIndex fill k = .ok buf) :
    buf.length = 2^k := by
  unfold newBufByIndex at h
  split_ifs at h
  obtain rfl := Except.ok.inj h
  rw [List.length_map, List.length_range]

theorem newBufByIndex_of_lt (hk : k < idxBufMax) :
    ∃ buf, newBufByIndex fill k = .ok buf ∧ buf.length = 2^k := by
  have hok : newBufByIndex fill k = .ok ((List.range (2^k)).map fill) :=
    if_pos (hk.trans (by decide))
  exact ⟨_, hok, newBufByIndex_ok fill k _ hok⟩

/-- A block that the memory manager answers for the class has room for the model's buffer. -/
theorem newBufByIndex_fresh (conf : STBufConf) (chunk : ℕ → ℤ) (m : CMemManager) (a : ℤ)
    (hf : MemClient.PoolsFit conf) (hm : MemClient.MgrOk conf chunk m) (buf : List UInt8)
    (h : newBufByIndex fill k = .ok buf) :
    MemClient.FreshOk conf chunk (m._newBuf k 0 a).2 buf.length := by
  have hspec := MemClient.newBuf_spec m (2^k) 0 a hf hm Nat.one_le_two_pow (Or.inl rfl)
  rw [getIndex_two_pow] at hspec
  rw [newBufByIndex_ok fill k buf h]
  exact hspec.2

-- A copy to the start of a buffer is what the buffer shows from then on.
theorem strcpy_text (buf r : List UInt8) (h : strcpy buf 0 str = .ok r) :
    ∃ rest, r = str ++ 0 :: rest ∧ r.length = buf.length := by
  obtain ⟨⟨-, hlt⟩, hlen⟩ := strcpy_ok buf str 0 r h
  obtain ⟨rest, -, hr⟩ := strcpy_first buf str (by omega)
  rw [h] at hr
  exact ⟨rest, Except.ok.inj hr, hlen⟩

theorem c_str_eq_ok_iff : s.c_str = .ok str ↔
    ∃ rest, s.m_pValue = some (str ++ 0 :: rest) ∧ 0 ∉ str := by
  unfold c_str
  cases s.m_pValue with
  | none => simp
  | some buf =>
    rw [text_eq_ok_iff]
    constructor
    · rintro ⟨rest, rfl, hno⟩
      exact ⟨rest, rfl, hno⟩
    · rintro ⟨rest, hbuf, hno⟩
      exact ⟨rest, Option.some.inj hbuf, hno⟩

theorem inNewBuf_text (hno : 0 ∉ str) (h : inNewBuf fill k str = .ok s') :
    s'.c_str = .ok str ∧ s'.bytes = 2^k ∧ s'.m_nSftIdx = k := by
  unfold inNewBuf at h
  obtain ⟨new, hnew, h⟩ := (bind_eq_ok _ _ _).mp h
  obtain ⟨buf, hbuf, h⟩ := (bind_eq_ok _ _ _).mp h
  obtain rfl := Except.ok.inj h
  obtain ⟨rest, rfl, hlen⟩ := strcpy_text str new buf hbuf
  refine ⟨(c_str_eq_ok_iff _ _).mpr ⟨rest, rfl, hno⟩, ?_, rfl⟩
  exact hlen.trans (newBufByIndex_ok fill k new hnew)

theorem inNewBuf_holds (hk : k < idxBufMax) (hno : 0 ∉ str) (hlen : str.length+1 ≤ 2^k) :
    ∃ s', inNewBuf fill k str = .ok s' ∧ s'.Holds str := by
  obtain ⟨new, hnew, hsize⟩ := newBufByIndex_of_lt fill k hk
  obtain ⟨rest, -, hbuf⟩ := strcpy_first new str (by omega)
  have hok : inNewBuf fill k str = .ok ⟨some (str ++ 0 :: rest), k⟩ := by
    rw [inNewBuf, hnew, ok_bind, hbuf, ok_bind]
    rfl
  obtain ⟨htext, hbytes, -⟩ := inNewBuf_text _ fill str k hno hok
  refine ⟨_, hok, htext, ?_, hk, ?_⟩
  · rw [hbytes, getSizeByIndex_eq k hk]
  · rw [getSizeByIndex_eq k hk]
    exact hlen

theorem Holds.noNul (h : s.Holds str) : 0 ∉ str := by
  obtain ⟨rest, -, hno⟩ := (c_str_eq_ok_iff s str).mp h.text
  exact hno

-- A buffer whose end may change shows another string of the same class.
theorem holds_of_value (rest : List UInt8) (hno : 0 ∉ str) (hk : k < idxBufMax)
    (hlen : (str ++ 0 :: rest).length = 2^k) : Holds ⟨some (str ++ 0 :: rest), k⟩ str := by
  have hsize := getSizeByIndex_eq k hk
  refine ⟨(c_str_eq_ok_iff _ _).mpr ⟨rest, rfl, hno⟩, hlen.trans hsize.symm, hk, ?_⟩
  rw [List.length_append, List.length_cons] at hlen
  change str.length+1 ≤ getSizeByIndex k
  omega

theorem getIndex_lt (size : ℕ) (h1 : 1 ≤ size) (h2 : size ≤ 2097152) :
    getIndex size < idxBufMax ∧ size ≤ 2^getIndex size := by
  have hle : getIndex size ≤ 21 := (getIndex_isLeast size h1).2 h2
  exact ⟨Nat.lt_succ_of_le hle, le_two_pow_getIndex size h1⟩

end Buffer

section Calls

variable (s : CmString) (fill : ℕ → UInt8) (str : List UInt8) (str' : CString)

theorem copy_holds (h : s.Holds str) : ∃ s', s.copy fill = .ok s' ∧ s'.Holds str := by
  have hroom := h.room
  rw [getSizeByIndex_eq _ h.index] at hroom
  rw [copy, h.text, ok_bind]
  exact inNewBuf_holds fill str _ h.index (h.noNul s str) hroom

theorem inIndex_holds (h : str.length+1 ≤ 2097152) (hno : 0 ∉ str) :
    ∃ s', inNewBuf fill (getIndex (str.length+1)) str = .ok s' ∧ s'.Holds str := by
  obtain ⟨hk, hle⟩ := getIndex_lt (str.length+1) (by omega) h
  exact inNewBuf_holds fill str _ hk hno hle

theorem assign_holds (h : s.Holds str) (hsize : str'.strlen+1 ≤ 2097152) :
    ∃ s', s.assign fill str' = .ok s' ∧ s'.Holds str'.chars := by
  have hnew := inIndex_holds fill str'.chars hsize str'.noNul
  have hint : stringSize str' = .ok (str'.strlen+1) := toInt_of_lt _ (by omega)
  obtain ⟨rest, hbuf, -⟩ := (c_str_eq_ok_iff s str).mp h.text
  have hcap := h.capacity
  have hk := h.index
  rw [bytes, hbuf, getSizeByIndex_eq _ hk, Option.getD_some] at hcap
  rw [assign, hint, ok_bind]
  by_cases hzero : s.m_nSftIdx = 0
  · rw [if_neg (not_not.mpr hzero)]
    exact hnew
  · rw [if_pos hzero, readSizeByIndex_eq _ hk, ok_bind]
    by_cases hfits : 2^s.m_nSftIdx > str'.strlen+1
    · -- the old buffer
      obtain ⟨rest', hlen, hput⟩ := strcpy_first (str ++ 0 :: rest) str'.chars
        (by rw [hcap]; exact lt_trans (Nat.lt_succ_self _) hfits)
      rw [if_pos hfits, hbuf]
      dsimp only
      rw [hput, ok_bind]
      refine ⟨_, rfl, holds_of_value str'.chars _ rest' str'.noNul hk ?_⟩
      rw [List.length_append, List.length_cons]
      omega
    · rw [if_neg hfits]
      exact hnew

theorem append_holds (h : s.Holds str) (hsize : str.length+str'.strlen+1 ≤ 2097152) :
    ∃ s', s.append fill str' = .ok s' ∧ s'.Holds (str ++ str'.chars) := by
  have hno := h.noNul s str
  have hno' : 0 ∉ str ++ str'.chars := by
    rw [List.mem_append, not_or]
    exact ⟨hno, str'.noNul⟩
  have hlen' : (str ++ str'.chars).length = str.length+str'.strlen := List.length_append
  obtain ⟨rest, hbuf, -⟩ := (c_str_eq_ok_iff s str).mp h.text
  have hcap := h.capacity
  have hk := h.index
  rw [bytes, hbuf, getSizeByIndex_eq _ hk, Option.getD_some, List.length_append,
    List.length_cons] at hcap
  rw [append, hbuf]
  dsimp only
  rw [text_append rest str hno, ok_bind, toInt_of_lt _ (by omega), ok_bind,
    toInt_of_lt _ (by omega), ok_bind, toInt_of_lt _ (by omega), ok_bind,
    readSizeByIndex_eq _ hk, ok_bind]
  by_cases hfits : 2^s.m_nSftIdx > str'.strlen+str.length+1
  · -- behind the text in the old buffer
    obtain ⟨rest', hrest, hput⟩ := strcpy_append (0 :: rest) str'.chars str.length str rfl
      (by rw [List.length_cons]; change str'.strlen < _; omega)
    rw [if_pos hfits, hput, ok_bind]
    refine ⟨_, rfl, holds_of_value _ _ rest' hno' hk ?_⟩
    rw [List.length_append, List.length_cons, hlen']
    rw [List.length_cons] at hrest
    change rest'.length+str'.strlen+1 = rest.length+1 at hrest
    omega
  · -- both strings in a new buffer, the second one over the end of the first
    obtain ⟨hk', hle⟩ := getIndex_lt (str'.strlen+str.length+1) (by omega) (by omega)
    obtain ⟨new, hnew, hnewlen⟩ := newBufByIndex_of_lt fill _ hk'
    obtain ⟨rest₁, hrest₁, hput₁⟩ := strcpy_first new str (by omega)
    obtain ⟨rest₂, hrest₂, hput₂⟩ := strcpy_append (0 :: rest₁) str'.chars str.length str rfl
      (by rw [List.length_cons]; change str'.strlen < _; omega)
    rw [if_neg hfits, hnew, ok_bind, hput₁, ok_bind, hput₂, ok_bind]
    refine ⟨_, rfl, holds_of_value _ _ rest₂ hno' hk' ?_⟩
    rw [List.length_append, List.length_cons, hlen']
    rw [List.length_cons] at hrest₂
    change rest₂.length+str'.strlen+1 = rest₁.length+1 at hrest₂
    omega

/-- The constructors and calls that only assign and append. -/
def Ctor.Builds : Ctor → Prop
  | .void => False
  | .text _ => True
  | .size n => 1 ≤ n ∧ n ≤ 2097152

def Call.Builds : Call → Prop
  | .copy | .assign _ | .append _ => True
  | .push_back _ | .pop_back => False

theorem construct_holds (c : Ctor) (hc : c.Builds) (hsize : c.means.length+1 ≤ 2097152) :
    ∃ s, construct fill c = .ok s ∧ s.Holds c.means := by
  cases c with
  | void => exact False.elim hc
  | text str =>
    change str.strlen+1 ≤ 2097152 at hsize
    have hint : stringSize str = .ok (str.strlen+1) := toInt_of_lt _ (by omega)
    rw [construct, ofText, hint, ok_bind]
    exact inIndex_holds fill str.chars hsize str.noNul
  | size size =>
    obtain ⟨hpos, hle⟩ := hc
    obtain ⟨hk, hroom⟩ := getIndex_lt size hpos hle
    rw [construct, ofSize, toInt_of_lt _ (by omega), ok_bind, if_neg (by omega)]
    exact inNewBuf_holds fill [] _ hk List.not_mem_nil (by rw [List.length_nil]; omega)

-- The step lemma.
theorem call_holds (a : Call × (ℕ → UInt8)) (h : s.Holds str) (ha : a.1.Builds)
    (hsize : (a.1.means str).length+1 ≤ 2097152) :
    ∃ s', s.call a = .ok s' ∧ s'.Holds (a.1.means str) := by
  obtain ⟨c, fill⟩ := a
  cases c with
  | copy => exact copy_holds s fill str h
  | assign str' => exact assign_holds s fill str str' h hsize
  | append str' =>
    apply append_holds s fill str str' h
    rw [Call.means, List.length_append] at hsize
    exact hsize
  | push_back c => exact False.elim ha
  | pop_back => exact False.elim ha

end Calls

section Runs

/-- The string after a constructor and a list of calls. -/
def run (c : Ctor) (fill : ℕ → UInt8) (calls : List (Call × (ℕ → UInt8))) : Except Fault CmString := do
  let s ← construct fill c
  calls.foldlM call s

theorem foldlM_holds (s : CmString) (str : List UInt8) (calls : List (Call × (ℕ → UInt8)))
    (h : s.Holds str) (hcalls : ∀ a ∈ calls, a.1.Builds)
    (hsize : ∀ pre, pre <+: calls →
      (pre.foldl (fun str a => a.1.means str) str).length+1 ≤ 2097152) :
    ∃ s', calls.foldlM call s = .ok s' ∧ s'.Holds (calls.foldl (fun str a => a.1.means str) str) := by
  induction calls generalizing s str with
  | nil => exact ⟨s, rfl, h⟩
  | cons a calls ih =>
    have hfirst := hsize [a] (List.prefix_cons_inj a |>.mpr List.nil_prefix)
    obtain ⟨s₁, hs₁, h₁⟩ := call_holds s str a h (hcalls a List.mem_cons_self) hfirst
    rw [List.foldlM_cons, hs₁, ok_bind]
    apply ih s₁ _ h₁
    · intro b hb
      exact hcalls b (List.mem_cons_of_mem a hb)
    · intro pre hpre
      exact hsize (a :: pre) (List.prefix_cons_inj a |>.mpr hpre)

/-- Every assignment and every append leaves the right text, in a buffer of the class that the object
names and with room for the text. -/
theorem holds_of_builds (c : Ctor) (fill : ℕ → UInt8) (calls : List (Call × (ℕ → UInt8)))
    (hc : c.Builds) (hcalls : ∀ a ∈ calls, a.1.Builds)
    (hsize : ∀ pre, pre <+: calls → (means c pre).length+1 ≤ 2097152) :
    ∀ pre, pre <+: calls → ∃ s, run c fill pre = .ok s ∧ s.Holds (means c pre) := by
  intro pre hpre
  obtain ⟨s, hs, h⟩ := construct_holds fill c hc (hsize [] List.nil_prefix)
  rw [run, hs, ok_bind]
  apply foldlM_holds s c.means pre h
  · intro a ha
    exact hcalls a (hpre.subset ha)
  · intro pre' hpre'
    exact hsize pre' (hpre'.trans hpre)

-- A longer text, a shorter one in the same buffer, and a text appended to it.
theorem holds_of_builds_reused : ∃ s,
    run (.text ⟨[97], by decide⟩) (fun _ => 7)
      [(.assign ⟨[98, 99, 100, 101], by decide⟩, fun _ => 7), (.assign ⟨[102], by decide⟩, fun _ => 7),
        (.append ⟨[103, 104], by decide⟩, fun _ => 7)] = .ok s ∧
    s.Holds [102, 103, 104] := by
  apply holds_of_builds (.text ⟨[97], by decide⟩) (fun _ => 7)
    [(.assign ⟨[98, 99, 100, 101], by decide⟩, fun _ => 7), (.assign ⟨[102], by decide⟩, fun _ => 7),
      (.append ⟨[103, 104], by decide⟩, fun _ => 7)] trivial ?_ ?_ _ List.prefix_rfl
  · intro a ha
    simp only [List.mem_cons, List.not_mem_nil, or_false] at ha
    rcases ha with rfl | rfl | rfl <;> trivial
  · intro pre hpre
    rw [← List.mem_inits] at hpre
    revert pre
    decide

end Runs

end CmString

end Leviathan
