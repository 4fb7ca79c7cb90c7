import Leviathan.CircularScan
import Leviathan.FileList
import Leviathan.StringSearch

/-! The filter for file names, `filter_stringCompare` (comFileUtil.cpp), with the word list that
`CFileUtil::getFieldList` makes of the filter string. -/
namespace Leviathan

namespace CString

variable (s : CString)

def takeWhile (p : UInt8 → Bool) : CString :=
  ⟨s.chars.takeWhile p, fun h => s.noNul ((List.takeWhile_sublist p).mem h)⟩

def dropWhile (p : UInt8 → Bool) : CString :=
  ⟨s.chars.dropWhile p, fun h => s.noNul ((List.dropWhile_sublist p).mem h)⟩

def drop (n : ℕ) : CString := ⟨s.chars.drop n, fun h => s.noNul (List.mem_of_mem_drop h)⟩

@[simp] theorem takeWhile_chars (p : UInt8 → Bool) : (s.takeWhile p).chars = s.chars.takeWhile p := rfl

@[simp] theorem dropWhile_chars (p : UInt8 → Bool) : (s.dropWhile p).chars = s.chars.dropWhile p := rfl

@[simp] theorem drop_chars (n : ℕ) : (s.drop n).chars = s.chars.drop n := rfl

end CString

namespace FileFilter

section Model

/-- A text in memory, with its address. -/
structure Text where
  addr : ℤ
  str : CString

structure CStringList where
  m_pList : List (Option Text)
  m_nListCnt : ℕ
  m_nLast : ℕ
  m_nUseCnt : ℕ

namespace CStringList

/-- `alloc`. -/
def alloc (nMaxCount : ℕ) : CStringList := ⟨List.replicate nMaxCount none, nMaxCount, 0, 0⟩

def unitAddSize : ℕ := 32

variable (l : CStringList)

/-- `newIdx`: a free place, in a longer array when there is none. -/
def newIdx : CStringList × ℕ :=
  match scanFrom l.m_nListCnt (fun i => (l.m_pList.getD i none).isNone) l.m_nListCnt l.m_nLast with
  | some nIdx => (l, nIdx)
  | none =>
    ({ l with
        m_pList := l.m_pList ++ List.replicate unitAddSize none
        m_nListCnt := l.m_nListCnt+unitAddSize }, l.m_nListCnt)

/-- `__add`. -/
def add (pString : Text) (nIdx : ℕ) : CStringList :=
  { l with
    m_pList := l.m_pList.set nIdx (some pString)
    m_nLast := nIdx+1
    m_nUseCnt := l.m_nUseCnt+1 }

/-- `push_back`, which reads the place behind the last word whether the array has it or not. -/
def push_back (pString : Text) : Except Fault CStringList :=
  match l.m_pList[l.m_nLast]? with
  | none => .error .outOfBounds
  | some none => .ok (l.add pString l.m_nLast)
  | some (some _) => .ok (l.newIdx.1.add pString l.newIdx.2)

end CStringList

def CH_TAB : UInt8 := 9

def CH_SPC : UInt8 := 32

def CH_DELIMITER : UInt8 := 59

def isBlank (c : UInt8) : Bool := c = CH_SPC || c = CH_TAB

def sizeofWord : ℕ := 512

variable (addr : ℕ → ℤ)

/-- The loop of `getFieldList`, with at most `k` characters left; `addr` gives the addresses of the
buffers that the words are copied to. -/
def getFieldListFrom (cSeparator : UInt8) :
    ℕ → CString → CStringList → Except Fault CStringList
  | 0, _, pList => .ok pList
  | k+1, pRecord, pList =>
    if pRecord.chars = [] then .ok pList
    else
      let pRecord := pRecord.dropWhile isBlank
      let word := pRecord.takeWhile (fun c => c ≠ cSeparator)
      if word.strlen < sizeofWord then do
        let pList ← pList.push_back ⟨addr pList.m_nUseCnt, word⟩
        -- without a separator this was the last word
        if pRecord.strlen = word.strlen then return pList
        else getFieldListFrom cSeparator k (pRecord.drop (word.strlen+1)) pList
      else .error .outOfBounds

def getFieldList (pRecord : CString) (cSeparator : UInt8) (pList : CStringList) :
    Except Fault CStringList :=
  if cSeparator = 0 then pList.push_back ⟨addr pList.m_nUseCnt, pRecord⟩
  else getFieldListFrom addr cSeparator pRecord.strlen pRecord pList

/-- `CmString::compare(const TCHAR *, E_OPERATOR)`. -/
def compare (m_pValue str : Text) (eOP : EOperator) : Bool :=
  match eOP with
  | .EQ => str.addr = m_pValue.addr
  | .NE => str.addr ≠ m_pValue.addr
  | .SUBSET => (CmString.ehstrstr m_pValue.str str.str).isSome
  | .NSUBSET => (CmString.ehstrstr m_pValue.str str.str).isNone
  | _ => false

/-- The loop of `filter_stringCompare` over the words that `getNext` finds. -/
def anyWord (pFile : Text) (eOP : EOperator) : List (Option Text) → Bool
  | [] => false
  | none :: words => anyWord pFile eOP words
  | some filter :: words => if compare filter pFile eOP then true else anyWord pFile eOP words

def filter_stringCompare (pFile : Text) (pData : Option CString) (pRes : Option CStringList)
    (eOP : EOperator) : Except Fault Bool :=
  match pRes with
  | some filterList => .ok (anyWord pFile eOP (filterList.m_pList.take filterList.m_nListCnt))
  | none =>
    match pData with
    | none => .ok true
    | some pFilter => do
      let filterList ← getFieldList addr pFilter CH_DELIMITER (CStringList.alloc 4)
      return anyWord pFile eOP (filterList.m_pList.take filterList.m_nListCnt)

end Model

/-- The words of a filter string: what stands between the separators, without leading blanks.  A
separator ends a word, so there is none behind the last one. -/
def words (filter : List UInt8) : List (List UInt8) :=
  let fields := filter.splitOn CH_DELIMITER
  (if fields.getLast? = some [] then fields.dropLast else fields).map (fun w => w.dropWhile isBlank)

section Words

variable (w rest : List UInt8)

theorem words_nil : words [] = [] := rfl

theorem words_last (hw : CH_DELIMITER ∉ w) (hne : w ≠ []) : words w = [w.dropWhile isBlank] := by
  have hlast : ([w] : List (List UInt8)).getLast? ≠ some [] := by
    simpa using hne
  rw [words, List.splitOn_eq_singleton hw, if_neg hlast, List.map_singleton]

theorem words_append (hw : CH_DELIMITER ∉ w) :
    words (w ++ CH_DELIMITER :: rest) = w.dropWhile isBlank :: words rest := by
  have hne := List.splitOn_ne_nil CH_DELIMITER rest
  have hlast : (w :: rest.splitOn CH_DELIMITER).getLast? = (rest.splitOn CH_DELIMITER).getLast? := by
    rw [List.getLast?_cons_of_ne_nil hne]
  have hdrop : (w :: rest.splitOn CH_DELIMITER).dropLast = w :: (rest.splitOn CH_DELIMITER).dropLast :=
    List.dropLast_cons_of_ne_nil hne
  unfold words
  rw [List.splitOn_append_cons_self_of_not_mem hw]
  dsimp only
  rw [hlast, hdrop]
  split_ifs
  · exact List.map_cons
  · exact List.map_cons

theorem dropWhile_append_of_neg {α : Type} (p : α → Bool) (c : α) (w rest : List α)
    (hc : p c = false) : (w ++ c :: rest).dropWhile p = w.dropWhile p ++ c :: rest := by
  induction w with
  | nil => rw [List.nil_append, List.dropWhile_cons_of_neg (by rw [hc]; decide)]; rfl
  | cons a w ih =>
    by_cases ha : p a = true
    · rw [List.cons_append, List.dropWhile_cons_of_pos ha, List.dropWhile_cons_of_pos ha, ih]
    · rw [List.cons_append, List.dropWhile_cons_of_neg ha, List.dropWhile_cons_of_neg ha]
      rfl

/-- One pass of the loop of `getFieldList` reads the first word, and leaves the others to the rest. -/
theorem words_step (f r : CString) (hne : f.chars ≠ []) (hr : r = f.dropWhile isBlank) :
    (r.strlen = (r.takeWhile (fun c => c ≠ CH_DELIMITER)).strlen ∧
      words f.chars = [(r.takeWhile (fun c => c ≠ CH_DELIMITER)).chars]) ∨
    (r.strlen ≠ (r.takeWhile (fun c => c ≠ CH_DELIMITER)).strlen ∧
      (r.drop ((r.takeWhile (fun c => c ≠ CH_DELIMITER)).strlen+1)).strlen < f.strlen ∧
      words f.chars = (r.takeWhile (fun c => c ≠ CH_DELIMITER)).chars ::
        words (r.drop ((r.takeWhile (fun c => c ≠ CH_DELIMITER)).strlen+1)).chars) := by
  obtain ⟨w, hno, hw⟩ : ∃ w : List UInt8, CH_DELIMITER ∉ w ∧
      (f.chars = w ∨ ∃ rest, f.chars = w ++ CH_DELIMITER :: rest) := by
    by_cases hmem : CH_DELIMITER ∈ f.chars
    · obtain ⟨w, rest, hf, hno⟩ := List.eq_append_cons_of_mem hmem
      exact ⟨w, hno, Or.inr ⟨rest, hf⟩⟩
    · exact ⟨f.chars, hmem, Or.inl rfl⟩
  have hword : CH_DELIMITER ∉ w.dropWhile isBlank := fun hc => hno ((List.dropWhile_sublist _).mem hc)
  subst hr
  simp only [CString.strlen, CString.takeWhile_chars, CString.drop_chars, CString.dropWhile_chars]
  rcases hw with hw | ⟨rest, hw⟩
  · left
    rw [hw, takeWhile_ne_self _ _ hword, words_last w hno (hw ▸ hne)]
    exact ⟨rfl, rfl⟩
  · right
    have htake := takeWhile_ne_append CH_DELIMITER (w.dropWhile isBlank) rest hword
    have hdrop : (w.dropWhile isBlank ++ CH_DELIMITER :: rest).drop ((w.dropWhile isBlank).length+1) =
        rest := by
      rw [List.drop_append, List.drop_eq_nil_of_le (by omega), Nat.add_sub_cancel_left]
      rfl
    rw [hw, dropWhile_append_of_neg isBlank CH_DELIMITER w rest rfl, htake, hdrop,
      words_append w rest hno, List.length_append, List.length_append, List.length_cons]
    exact ⟨by omega, by omega, rfl⟩

end Words

section List

variable (addr : ℕ → ℤ)

/-- The list holds the words in its first places. -/
structure Filled (l : CStringList) (ts : List Text) : Prop where
  list : l.m_pList = ts.map some ++ List.replicate (4-ts.length) none
  count : l.m_nListCnt = 4
  last : l.m_nLast = ts.length
  use : l.m_nUseCnt = ts.length
  room : ts.length ≤ 4

/-- The word list and the buffer for one word have room. -/
def Fits (ws : List (List UInt8)) : Prop := ws.length ≤ 4 ∧ ∀ w ∈ ws, w.length < sizeofWord

theorem filled_alloc : Filled (CStringList.alloc 4) [] := ⟨rfl, rfl, rfl, rfl, by decide⟩

theorem push_back_filled (l : CStringList) (ts : List Text) (t : Text) (h : Filled l ts)
    (hroom : ts.length < 4) : ∃ l', l.push_back t = .ok l' ∧ Filled l' (ts ++ [t]) := by
  obtain ⟨d, hd⟩ : ∃ d, 4-ts.length = d+1 := ⟨3-ts.length, by omega⟩
  have hlen : (ts ++ [t]).length = ts.length+1 := List.length_append
  have hget : l.m_pList[l.m_nLast]? = some none := by
    rw [h.list, h.last, List.getElem?_append_right (by rw [List.length_map]), List.length_map,
      Nat.sub_self, hd]
    rfl
  refine ⟨l.add t l.m_nLast, by rw [CStringList.push_back, hget], ?_, h.count, ?_, ?_, ?_⟩
  · have hset : (ts.map some ++ List.replicate (4-ts.length) none).set ts.length (some t) =
        ts.map some ++ some t :: List.replicate d none := by
      rw [List.set_append_right _ _ (by rw [List.length_map]), List.length_map, Nat.sub_self, hd]
      rfl
    have hd' : 4-(ts ++ [t]).length = d := by
      omega
    rw [CStringList.add, h.last, h.list, hset, hd', List.map_append, List.append_assoc]
    rfl
  · rw [hlen, ← h.last]
    rfl
  · rw [hlen, ← h.use]
    rfl
  · omega

-- The fifth word has no place to look at.
theorem push_back_full (l : CStringList) (ts : List Text) (t : Text) (h : Filled l ts)
    (hfull : ts.length = 4) : l.push_back t = .error .outOfBounds := by
  have hget : l.m_pList[l.m_nLast]? = none := by
    rw [h.list, h.last, hfull]
    apply List.getElem?_eq_none
    rw [List.length_append, List.length_map, hfull]
    simp
  rw [CStringList.push_back, hget]

-- A pass of the loop with a word that fits its buffer.
theorem getFieldListFrom_succ (k : ℕ) (f w : CString) (l : CStringList) (hne : f.chars ≠ [])
    (hw : w = (f.dropWhile isBlank).takeWhile (fun c => c ≠ CH_DELIMITER))
    (hshort : w.strlen < sizeofWord) : getFieldListFrom addr CH_DELIMITER (k+1) f l =
      l.push_back ⟨addr l.m_nUseCnt, w⟩ >>= fun l' =>
        if (f.dropWhile isBlank).strlen = w.strlen then .ok l'
        else getFieldListFrom addr CH_DELIMITER k ((f.dropWhile isBlank).drop (w.strlen+1)) l' := by
  subst hw
  rw [getFieldListFrom, if_neg hne]
  exact if_pos hshort

theorem getFieldListFrom_long (k : ℕ) (f w : CString) (l : CStringList) (hne : f.chars ≠ [])
    (hw : w = (f.dropWhile isBlank).takeWhile (fun c => c ≠ CH_DELIMITER))
    (hlong : ¬w.strlen < sizeofWord) :
    getFieldListFrom addr CH_DELIMITER (k+1) f l = .error .outOfBounds := by
  subst hw
  rw [getFieldListFrom, if_neg hne]
  exact if_neg hlong

/-- What the loop adds to a list that holds `ts`. -/
theorem getFieldListFrom_ok (k : ℕ) (f : CString) (l : CStringList) (ts : List Text) (h : Filled l ts)
    (hk : f.strlen ≤ k) (hroom : ts.length+(words f.chars).length ≤ 4)
    (hshort : ∀ w ∈ words f.chars, w.length < sizeofWord) :
    ∃ l' ts', getFieldListFrom addr CH_DELIMITER k f l = .ok l' ∧ Filled l' (ts ++ ts') ∧
      ts'.map (fun t => t.str.chars) = words f.chars ∧ ∀ t ∈ ts', ∃ i, t.addr = addr i := by
  induction k generalizing f l ts with
  | zero =>
    have hnil : f.chars = [] := List.length_eq_zero_iff.mp (Nat.le_zero.mp hk)
    refine ⟨l, [], rfl, by rwa [List.append_nil], ?_, fun t ht => by cases ht⟩
    rw [hnil, words_nil, List.map_nil]
  | succ k ih =>
    by_cases hnil : f.chars = []
    · refine ⟨l, [], ?_, by rwa [List.append_nil], ?_, fun t ht => by cases ht⟩
      · rw [getFieldListFrom, if_pos hnil]
      · rw [hnil, words_nil, List.map_nil]
    · obtain ⟨w, hw⟩ : ∃ w, w = (f.dropWhile isBlank).takeWhile (fun c => c ≠ CH_DELIMITER) := ⟨_, rfl⟩
      have hstep := words_step f _ hnil rfl
      rw [← hw] at hstep
      rcases hstep with ⟨hend, hwords⟩ | ⟨hmore, hlt, hwords⟩
      · rw [hwords] at hroom hshort ⊢
        have hlast : ts.length < 4 := by
          rw [List.length_singleton] at hroom
          omega
        obtain ⟨l', hpush, hl'⟩ := push_back_filled l ts ⟨addr l.m_nUseCnt, w⟩ h hlast
        refine ⟨l', [⟨addr l.m_nUseCnt, w⟩], ?_, hl', rfl, ?_⟩
        · rw [getFieldListFrom_succ addr k f w l hnil hw (hshort _ List.mem_cons_self), hpush, ok_bind,
            if_pos hend]
        · intro t ht
          rw [List.mem_singleton.mp ht]
          exact ⟨_, rfl⟩
      · rw [hwords] at hroom hshort ⊢
        rw [List.length_cons] at hroom
        obtain ⟨l', hpush, hl'⟩ := push_back_filled l ts ⟨addr l.m_nUseCnt, w⟩ h (by omega)
        obtain ⟨l'', ts', hrun, hl'', hmap, haddr⟩ := ih _ l' _ hl' (by omega)
          (by rw [List.length_append, List.length_singleton]; omega)
          (fun v hv => hshort v (List.mem_cons_of_mem _ hv))
        refine ⟨l'', ⟨addr l.m_nUseCnt, w⟩ :: ts', ?_, ?_, ?_, ?_⟩
        · rw [getFieldListFrom_succ addr k f w l hnil hw (hshort _ List.mem_cons_self), hpush, ok_bind,
            if_neg hmore, hrun]
        · rw [List.append_cons]
          exact hl''
        · rw [List.map_cons, hmap]
        · intro t ht
          rcases List.mem_cons.mp ht with rfl | ht
          · exact ⟨_, rfl⟩
          · exact haddr t ht

theorem getFieldListFrom_error (k : ℕ) (f : CString) (l : CStringList) (ts : List Text)
    (h : Filled l ts) (hk : f.strlen ≤ k) (hover : ¬(ts.length+(words f.chars).length ≤ 4 ∧
      ∀ w ∈ words f.chars, w.length < sizeofWord)) :
    getFieldListFrom addr CH_DELIMITER k f l = .error .outOfBounds := by
  have hroom := h.room
  induction k generalizing f l ts with
  | zero =>
    have hnil : f.chars = [] := List.length_eq_zero_iff.mp (Nat.le_zero.mp hk)
    rw [hnil] at hover
    exact absurd ⟨hroom, fun w hw => by cases hw⟩ hover
  | succ k ih =>
    by_cases hnil : f.chars = []
    · rw [hnil] at hover
      exact absurd ⟨hroom, fun w hw => by cases hw⟩ hover
    · obtain ⟨w, hw⟩ : ∃ w, w = (f.dropWhile isBlank).takeWhile (fun c => c ≠ CH_DELIMITER) := ⟨_, rfl⟩
      have hstep := words_step f _ hnil rfl
      rw [← hw] at hstep
      by_cases hshort : w.strlen < sizeofWord
      · rw [getFieldListFrom_succ addr k f w l hnil hw hshort]
        rcases hroom.lt_or_eq with hlt4 | hfull
        · obtain ⟨l', hpush, hl'⟩ := push_back_filled l ts ⟨addr l.m_nUseCnt, w⟩ h hlt4
          have hlen : (ts ++ [⟨addr l.m_nUseCnt, w⟩] : List Text).length = ts.length+1 :=
            List.length_append
          rw [hpush, ok_bind]
          rcases hstep with ⟨-, hwords⟩ | ⟨hmore, hlt, hwords⟩
          · -- the last word has its place
            rw [hwords] at hover
            refine absurd ⟨hlt4, ?_⟩ hover
            intro v hv
            rw [List.mem_singleton.mp hv]
            exact hshort
          · rw [if_neg hmore]
            apply ih _ l' _ hl' (by omega) ?_ (by omega)
            rintro ⟨hcount, hrest⟩
            apply hover
            rw [hwords]
            refine ⟨by rw [List.length_cons]; omega, ?_⟩
            intro v hv
            rcases List.mem_cons.mp hv with rfl | hv
            · exact hshort
            · exact hrest v hv
        · rw [push_back_full l ts _ h hfull]
          rfl
      · exact getFieldListFrom_long addr k f w l hnil hw hshort

/-- `getFieldList` makes the words of the filter string into a list of four exactly when they fit. -/
theorem getFieldList_spec (f : CString) :
    (Fits (words f.chars) → ∃ l ts, getFieldList addr f CH_DELIMITER (CStringList.alloc 4) = .ok l ∧
      Filled l ts ∧ ts.map (fun t => t.str.chars) = words f.chars ∧ ∀ t ∈ ts, ∃ i, t.addr = addr i) ∧
    (¬Fits (words f.chars) →
      getFieldList addr f CH_DELIMITER (CStringList.alloc 4) = .error .outOfBounds) := by
  rw [getFieldList, if_neg (by decide)]
  constructor
  · rintro ⟨hcount, hshort⟩
    exact getFieldListFrom_ok addr f.strlen f _ [] filled_alloc le_rfl (by simpa using hcount) hshort
  · intro hover
    apply getFieldListFrom_error addr f.strlen f _ [] filled_alloc le_rfl
    simpa [Fits] using hover

end List

section Search

variable (t name : CString)

/-- What the scan of `ehstrstr` meets: the compared part of the pattern behind failed attempts. -/
def Met (w : List UInt8) : Prop :=
  ∃ pre rest, w = pre ++ (CmString.compared name.chars (CmString.intLen name.chars) ++ rest) ∧
    CmString.Attempts (CmString.compared name.chars (CmString.intLen name.chars)) pre

/-- The name occurs in the word, with nothing but failed attempts before it. -/
def Found (w : List UInt8) : Prop :=
  name.chars ≠ [] ∧ ∃ o, name.chars <+: w.drop o ∧ CmString.Attempts name.chars (w.take o)

theorem isSome_iff_met (hname : name.chars ≠ []) :
    (CmString.ehstrstr t name).isSome = true ↔ Met name t.chars := by
  have hnone := CmString.ehstrstr_eq_none_iff t name hname
  rw [Option.isSome_iff_ne_none, Ne, hnone, not_not]
  rfl

-- The search compares the NUL of an empty pattern with the characters of the text.
theorem ehstrstr_empty (hname : name.chars = []) : CmString.ehstrstr t name = none := by
  have hsearch (text : List UInt8) (hno : 0 ∉ text) (pPos : ℕ) :
      CmString.search [] 0 (fun p => (p : ℤ)) text pPos 0 = none := by
    induction text generalizing pPos with
    | nil => rfl
    | cons c text ih =>
      rw [List.mem_cons, not_or] at hno
      have hc : ¬c = ([] : List UInt8).getD 0 0 := fun h => hno.1 h.symm
      rw [CmString.search, if_neg hc]
      exact ih hno.2 (pPos+1)
  rw [CmString.ehstrstr, hname]
  exact hsearch t.chars t.noNul 0

theorem met_iff_found (hname : name.chars ≠ []) (hlen : name.strlen < 2^31) (w : List UInt8) :
    Met name w ↔ Found name w := by
  rw [Met, Found, CmString.compared_eq name hlen]
  constructor
  · rintro ⟨pre, rest, rfl, hatt⟩
    refine ⟨hname, pre.length, ?_, ?_⟩
    · rw [List.drop_left]
      exact List.prefix_append _ _
    · rw [List.take_left]
      exact hatt
  · rintro ⟨-, o, ⟨rest, hrest⟩, hatt⟩
    exact ⟨w.take o, rest, by rw [hrest, List.take_append_drop], hatt⟩

theorem Found.occurs (w : List UInt8) (h : Found name w) : name.chars <:+: w := by
  obtain ⟨-, o, hpre, -⟩ := h
  exact hpre.isInfix.trans (List.drop_suffix o w).isInfix

/-- The scan answers for short words as the texts say exactly when no word has the name and none meets
it, or one has it behind failed attempts. -/
theorem met_right_iff (ws : List (List UInt8)) (hshort : ∀ w ∈ ws, w.length < sizeofWord) :
    ((name.chars ≠ [] ∧ ∃ w ∈ ws, Met name w) ↔ ∃ w ∈ ws, name.chars <:+: w) ↔
      ((∀ w ∈ ws, ¬name.chars <:+: w ∧ ¬Met name w) ∨ ∃ w ∈ ws, Found name w) := by
  by_cases hocc : ∃ w ∈ ws, name.chars <:+: w
  · obtain ⟨v, hv, hinfix⟩ := hocc
    have hlen : name.strlen < 2^31 := by
      have hle := hinfix.length_le
      have hlt := hshort v hv
      change name.chars.length < 2^31
      unfold sizeofWord at hlt
      omega
    constructor
    · intro h
      obtain ⟨hname, w, hw, hmet⟩ := h.mpr ⟨v, hv, hinfix⟩
      exact Or.inr ⟨w, hw, (met_iff_found name hname hlen w).mp hmet⟩
    · rintro (hno | ⟨w, hw, hfound⟩)
      · exact absurd hinfix (hno v hv).1
      · refine ⟨fun _ => ⟨v, hv, hinfix⟩, fun _ => ⟨hfound.1, w, hw, ?_⟩⟩
        exact (met_iff_found name hfound.1 hlen w).mpr hfound
  · have hno : ∀ w ∈ ws, ¬name.chars <:+: w := fun w hw h => hocc ⟨w, hw, h⟩
    constructor
    · intro h
      refine Or.inl fun w hw => ⟨hno w hw, fun hmet => ?_⟩
      have hname : name.chars ≠ [] := by
        intro hnil
        apply hno w hw
        rw [hnil]
        exact List.nil_infix
      exact hocc (h.mp ⟨hname, w, hw, hmet⟩)
    · rintro (hmiss | ⟨w, hw, hfound⟩)
      · constructor
        · rintro ⟨-, w, hw, hmet⟩
          exact absurd hmet (hmiss w hw).2
        · intro h
          exact absurd h hocc
      · exact absurd (hfound.occurs name w) (hno w hw)

-- A pattern without `c` is met behind every text that ends in `c`: no attempt goes on past it.
theorem attempts_behind (q pre : List UInt8) (c : UInt8) (hc : c ∉ q) :
    ∃ pre' rest, pre ++ [c] ++ q = pre' ++ (q ++ rest) ∧ CmString.Attempts q pre' := by
  induction hn : pre.length using Nat.strong_induction_on generalizing pre with
  | _ n ih =>
    rcases CmString.prefix_cases q (pre ++ [c]) with
      ⟨rest, hrest⟩ | ⟨k, x, rest, hk, hx, htext⟩ | ⟨k, hk, htext⟩
    · refine ⟨[], rest ++ q, ?_, .nil⟩
      rw [← hrest, List.nil_append, List.append_assoc]
    · -- the rest of the text is empty or ends in `c` too
      rcases List.eq_nil_or_concat rest with rfl | ⟨pre', y, rfl⟩
      · refine ⟨q.take k ++ [x], [], ?_, .cons k x [] hk hx .nil⟩
        rw [htext, List.append_nil]
      · rw [List.concat_eq_append] at htext
        obtain ⟨rfl, hy⟩ := List.append_inj' (htext.trans
          (List.append_assoc (q.take k) (x :: pre') [y]).symm) rfl
        obtain rfl := List.singleton_inj.mp hy
        have hshort : pre'.length < n := by
          rw [← hn, List.length_append, List.length_cons]
          omega
        obtain ⟨pre'', rest, heq, hatt⟩ := ih pre'.length hshort pre' rfl
        refine ⟨q.take k ++ x :: pre'', rest, ?_, .cons k x pre'' hk hx hatt⟩
        calc
          q.take k ++ x :: pre' ++ [c] ++ q = q.take k ++ x :: (pre' ++ [c] ++ q) := by
            simp only [List.append_assoc, List.cons_append]
          _ = q.take k ++ x :: pre'' ++ (q ++ rest) := by
            rw [heq, List.append_assoc, List.cons_append]
    · have hmem : c ∈ q.take k := by
        rw [← htext]
        exact List.mem_append_right _ List.mem_cons_self
      exact absurd (List.mem_of_mem_take hmem) hc

end Search

section Filter

variable (addr : ℕ → ℤ) (pFile : Text) (filter : CString)

theorem anyWord_filled (eOP : EOperator) (l : CStringList) (ts : List Text) (h : Filled l ts) :
    anyWord pFile eOP (l.m_pList.take l.m_nListCnt) = ts.any (fun t => compare t pFile eOP) := by
  have hend (n : ℕ) : anyWord pFile eOP (List.replicate n none) = false := by
    induction n with
    | zero => rfl
    | succ n ih => exact ih
  have hall (ts : List Text) (n : ℕ) : anyWord pFile eOP (ts.map some ++ List.replicate n none) =
      ts.any (fun t => compare t pFile eOP) := by
    induction ts with
    | nil => exact hend n
    | cons t ts ih =>
      rw [List.map_cons, List.cons_append, anyWord, List.any_cons, ih]
      cases compare t pFile eOP <;> rfl
  have hlen : l.m_pList.length = 4 := by
    have hroom := h.room
    rw [h.list, List.length_append, List.length_map, List.length_replicate]
    omega
  rw [h.count, List.take_of_length_le hlen.le, h.list, hall]

/-- The filter asks the words one after the other. -/
theorem filter_spec (eOP : EOperator) :
    (Fits (words filter.chars) → ∃ ts : List Text,
      ts.map (fun t => t.str.chars) = words filter.chars ∧ (∀ t ∈ ts, ∃ i, t.addr = addr i) ∧
      filter_stringCompare addr pFile (some filter) none eOP =
        .ok (ts.any (fun t => compare t pFile eOP))) ∧
    (¬Fits (words filter.chars) →
      filter_stringCompare addr pFile (some filter) none eOP = .error .outOfBounds) := by
  obtain ⟨hok, herror⟩ := getFieldList_spec addr filter
  constructor
  · intro hfits
    obtain ⟨l, ts, hrun, hfilled, hmap, haddr⟩ := hok hfits
    refine ⟨ts, hmap, haddr, ?_⟩
    rw [filter_stringCompare, hrun, ok_bind, anyWord_filled pFile eOP l ts hfilled]
    rfl
  · intro hfits
    rw [filter_stringCompare, herror hfits]
    rfl

/-- The filter answers as the texts say: the name is one of the words, is not the only word, or occurs
in one of the words. -/
def EqRight : Prop :=
  filter_stringCompare addr pFile (some filter) none .EQ =
    .ok (decide (pFile.str.chars ∈ words filter.chars))

def NeRight (w : List UInt8) : Prop :=
  filter_stringCompare addr pFile (some filter) none .NE = .ok (decide (pFile.str.chars ≠ w))

def SubsetRight : Prop :=
  filter_stringCompare addr pFile (some filter) none .SUBSET =
    .ok (decide (∃ w ∈ words filter.chars, pFile.str.chars <:+: w))

variable (haddr : ∀ i, pFile.addr ≠ addr i)

include haddr

theorem eqRight_iff : EqRight addr pFile filter ↔
    Fits (words filter.chars) ∧ pFile.str.chars ∉ words filter.chars := by
  obtain ⟨hok, herror⟩ := filter_spec addr pFile filter .EQ
  unfold EqRight
  by_cases hfits : Fits (words filter.chars)
  · obtain ⟨ts, -, hts, hrun⟩ := hok hfits
    have hany : ts.any (fun t => compare t pFile .EQ) = false := by
      rw [List.any_eq_false]
      intro t ht
      obtain ⟨i, hi⟩ := hts t ht
      simp [compare, hi, haddr i]
    rw [hrun, hany]
    simp [hfits]
  · rw [herror hfits]
    simp [hfits]

theorem neRight_iff (w : List UInt8) (hw : words filter.chars = [w]) : NeRight addr pFile filter w ↔
    Fits (words filter.chars) ∧ pFile.str.chars ≠ w := by
  obtain ⟨hok, herror⟩ := filter_spec addr pFile filter .NE
  unfold NeRight
  by_cases hfits : Fits (words filter.chars)
  · obtain ⟨ts, hmap, hts, hrun⟩ := hok hfits
    obtain ⟨t, rfl⟩ : ∃ t, ts = [t] := by
      apply List.length_eq_one_iff.mp
      rw [← List.length_map, hmap, hw, List.length_singleton]
    have hany : [t].any (fun t => compare t pFile .NE) = true := by
      obtain ⟨i, hi⟩ := hts t List.mem_cons_self
      simp [compare, hi, haddr i]
    rw [hrun, hany]
    simp [hfits]
  · rw [herror hfits]
    simp [hfits]

omit haddr in
theorem subsetRight_iff : SubsetRight addr pFile filter ↔
    Fits (words filter.chars) ∧
      ((∀ w ∈ words filter.chars, ¬pFile.str.chars <:+: w ∧ ¬Met pFile.str w) ∨
        ∃ w ∈ words filter.chars, Found pFile.str w) := by
  obtain ⟨hok, herror⟩ := filter_spec addr pFile filter .SUBSET
  unfold SubsetRight
  by_cases hfits : Fits (words filter.chars)
  · obtain ⟨ts, hmap, -, hrun⟩ := hok hfits
    have hany : ts.any (fun t => compare t pFile .SUBSET) = true ↔
        pFile.str.chars ≠ [] ∧ ∃ w ∈ words filter.chars, Met pFile.str w := by
      rw [← hmap, List.any_eq_true]
      by_cases hname : pFile.str.chars = []
      · simp [compare, ehstrstr_empty _ _ hname, hname]
      · simp [compare, isSome_iff_met _ _ hname, hname]
    have hright := met_right_iff pFile.str (words filter.chars) hfits.2
    rw [and_iff_right hfits, ← hright, ← hany, hrun, Except.ok.injEq, Bool.eq_iff_iff,
      decide_eq_true_iff]
  · rw [herror hfits]
    simp [hfits]

/-- For a name that is in other memory than the words, `EQ` and `NE` are right exactly when the name is
none of the words, and `SUBSET` where the scan is; all of them when the words fit. -/
theorem filter_right_iff :
    (EqRight addr pFile filter ↔
      Fits (words filter.chars) ∧ pFile.str.chars ∉ words filter.chars) ∧
    (∀ w, words filter.chars = [w] → (NeRight addr pFile filter w ↔
      Fits (words filter.chars) ∧ pFile.str.chars ≠ w)) ∧
    (SubsetRight addr pFile filter ↔ Fits (words filter.chars) ∧
      ((∀ w ∈ words filter.chars, ¬pFile.str.chars <:+: w ∧ ¬Met pFile.str w) ∨
        ∃ w ∈ words filter.chars, Found pFile.str w)) :=
  ⟨eqRight_iff addr pFile filter haddr, neRight_iff addr pFile filter haddr,
    subsetRight_iff addr pFile filter⟩

omit addr pFile filter haddr in
theorem filter_right_iff_other :
    EqRight (fun i => i+1) ⟨0, ⟨[97], by decide⟩⟩ ⟨[98, 59, 99], by decide⟩ :=
  (filter_right_iff (fun i => i+1) ⟨0, ⟨[97], by decide⟩⟩ ⟨[98, 59, 99], by decide⟩
    (fun i => by change (0 : ℤ) ≠ i+1; omega)).1.mpr (by unfold Fits; decide)

-- A name that is a word, and one that starts over inside a word.
omit addr pFile filter haddr in
theorem not_filter_right :
    ¬EqRight (fun i => i+1) ⟨0, ⟨[97], by decide⟩⟩ ⟨[97], by decide⟩ ∧
    ¬SubsetRight (fun i => i+1) ⟨0, ⟨[97, 98], by decide⟩⟩ ⟨[97, 97, 98], by decide⟩ := by
  unfold EqRight SubsetRight
  decide

end Filter

section DeleteProc

variable (addr : ℕ → ℤ)

/-- The filter that `checkDeleteProc` gives to `GetFileList`, which splits `m_szFName` once and asks
with the list for each of the files. -/
def deleteFilter (m_szFName : CString) (pFileName : Text) : Except Fault Bool := do
  let filterList ← getFieldList addr m_szFName CH_DELIMITER (CStringList.alloc 4)
  filter_stringCompare addr pFileName (some m_szFName) (some filterList) .NSUBSET

-- The list may be made before the call or by it.
theorem deleteFilter_eq (m_szFName : CString) (pFileName : Text) :
    deleteFilter addr m_szFName pFileName =
      filter_stringCompare addr pFileName (some m_szFName) none .NSUBSET := rfl

/-- A filter string that is one word. -/
structure OneWord (filter : CString) : Prop where
  short : filter.strlen < sizeofWord
  noDelimiter : CH_DELIMITER ∉ filter.chars
  noBlank : ∀ c, filter.chars.head? = some c → isBlank c = false

theorem words_oneWord (filter : CString) (h : OneWord filter) (hne : filter.chars ≠ []) :
    words filter.chars = [filter.chars] := by
  rw [words_last filter.chars h.noDelimiter hne]
  obtain ⟨c, rest, hc⟩ := List.exists_cons_of_ne_nil hne
  have hblank : isBlank c = false := h.noBlank c (by rw [hc]; rfl)
  rw [hc, List.dropWhile_cons_of_neg (by rw [hblank]; decide)]

theorem deleteFilter_false (filter : CString) (h : OneWord filter) (hne : filter.chars ≠ [])
    (pFile : Text) (hname : pFile.str.chars ≠ []) (hmet : Met pFile.str filter.chars) :
    filter_stringCompare addr pFile (some filter) none .NSUBSET = .ok false := by
  have hwords := words_oneWord filter h hne
  have hfits : Fits (words filter.chars) := by
    rw [hwords]
    refine ⟨by simp, ?_⟩
    intro w hw
    rw [List.mem_singleton.mp hw]
    exact h.short
  obtain ⟨ts, hmap, -, hrun⟩ := (filter_spec addr pFile filter .NSUBSET).1 hfits
  have hany : ts.any (fun t => compare t pFile .NSUBSET) = false := by
    rw [List.any_eq_false]
    intro t ht
    have hword : t.str.chars = filter.chars := by
      have hmem : t.str.chars ∈ ts.map (fun t => t.str.chars) := List.mem_map_of_mem ht
      rw [hmap, hwords] at hmem
      exact List.mem_singleton.mp hmem
    have hsome := (isSome_iff_met t.str pFile.str hname).mpr (hword ▸ hmet)
    rw [compare, Bool.not_eq_true, Option.isNone_eq_false_iff]
    exact hsome
  rw [hrun, hany]

/-- The current log file, a name behind a path that ends in the separator, is kept under its bare name
and under its full path. -/
theorem current_log_kept (g_s : UInt8) (d n m_szFName : CString)
    (hd : d.chars.getLast? = some g_s) (hn : n.chars ≠ []) (hsep : g_s ∉ n.chars)
    (hname : m_szFName.chars = d.chars ++ n.chars) (hword : OneWord m_szFName) (a : ℤ) :
    filter_stringCompare addr ⟨a, n⟩ (some m_szFName) none .NSUBSET = .ok false ∧
    filter_stringCompare addr ⟨a, m_szFName⟩ (some m_szFName) none .NSUBSET = .ok false ∧
    deleteFilter addr m_szFName ⟨a, n⟩ = .ok false ∧
    deleteFilter addr m_szFName ⟨a, m_szFName⟩ = .ok false := by
  have hne : m_szFName.chars ≠ [] := by
    rw [hname]
    exact List.append_ne_nil_of_right_ne_nil _ hn
  have hshort := hword.short
  have hlen : n.strlen ≤ m_szFName.strlen := by
    rw [CString.strlen, CString.strlen, hname, List.length_append]
    omega
  unfold sizeofWord at hshort
  have hbare : Met n m_szFName.chars := by
    obtain ⟨d', hd'⟩ := List.getLast?_eq_some_iff.mp hd
    rw [Met, CmString.compared_eq n (by omega), hname, hd']
    exact attempts_behind n.chars d' g_s hsep
  have hfull : Met m_szFName m_szFName.chars := by
    rw [Met, CmString.compared_eq m_szFName (by omega)]
    exact ⟨[], [], by rw [List.append_nil, List.nil_append], .nil⟩
  have hkeptBare := deleteFilter_false addr m_szFName hword hne ⟨a, n⟩ hn hbare
  have hkeptFull := deleteFilter_false addr m_szFName hword hne ⟨a, m_szFName⟩ hne hfull
  rw [deleteFilter_eq, deleteFilter_eq]
  exact ⟨hkeptBare, hkeptFull, hkeptBare, hkeptFull⟩

-- the directory `a\` and the file `b`
theorem current_log_kept_ab :
    filter_stringCompare (fun i => i+1) ⟨0, ⟨[98], by decide⟩⟩
      (some ⟨[97, 92, 98], by decide⟩) none .NSUBSET = .ok false :=
  (current_log_kept (fun i => i+1) 92 ⟨[97, 92], by decide⟩ ⟨[98], by decide⟩
    ⟨[97, 92, 98], by decide⟩ rfl (by decide) (by decide) rfl
    ⟨by decide, by decide, fun c hc => by obtain rfl := Option.some.inj hc; rfl⟩ 0).1

end DeleteProc

end FileFilter

end Leviathan
