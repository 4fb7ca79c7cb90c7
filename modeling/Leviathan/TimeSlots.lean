import Leviathan.Buffers
import Leviathan.DateTimeHeader
import Leviathan.Deviation
import Leviathan.StringSearch

/-! `CAnalyzer_DateTime` (LogAnalyzer, Analyzer_DateTime.cpp): tables that count the lines of each
minute, indexed by the times that are read from the lines. -/
namespace Leviathan.TimeSlots

open Buffers CmString DateTime

section Model

/-- `calloc`. -/
def STMTime.zero : STMTime := ⟨0, 0, 0, 0, 0, fun _ _ => 0⟩

/-- The hours of a day, those with lines with their minutes. -/
abbrev TimeSlot : Type := Fin 24 → Option (Fin 60 → STMTime)

structure CAnalyzer_DateTime where
  m_nSendUnitCnt : ℤ
  m_pTimeSlot : Option TimeSlot
  m_pTimeSlot2 : Option TimeSlot
  m_pDTE2 : Option STDateTimeExp

/-- What `initConfig` reads from its section. -/
structure Config where
  SEND_UNIT_COUNT : ℤ
  IS_USE_SECOND_TIMESTAMP : ℤ
  SECOND_DATETIME_EXPRESSION : List Char
  SECOND_TIMESTAMP_KEYWORD : List Char

/-- `initTimeSlot`. -/
def initTimeSlot : Option TimeSlot := some (fun _ => none)

def initConfig (c : Config) : Bool × CAnalyzer_DateTime :=
  let a : CAnalyzer_DateTime := ⟨c.SEND_UNIT_COUNT, initTimeSlot, none, none⟩
  if c.IS_USE_SECOND_TIMESTAMP = 0 ∨ c.SECOND_DATETIME_EXPRESSION = [] then (true, a)
  else
    let a := { a with m_pDTE2 := some (parsingDateTimeExp c.SECOND_DATETIME_EXPRESSION).2 }
    -- an expression that is not accepted is kept, but there is no table for it
    if (parsingDateTimeExp c.SECOND_DATETIME_EXPRESSION).1 then
      (c.SECOND_TIMESTAMP_KEYWORD ≠ [], { a with m_pTimeSlot2 := initTimeSlot })
    else (true, a)

/-- An index of an array of `n` elements. -/
def index (n : ℕ) (i : ℤ) : Except Fault (Fin n) :=
  if h : 0 ≤ i ∧ i < n then .ok ⟨i.toNat, by omega⟩ else .error .outOfBounds

/-- `nCnt++`, and the bucket. -/
def STMTime.count (pMTime : STMTime) (i : Fin 60) (j : Fin 10) : STMTime :=
  { pMTime with
    nCnt := u32 (pMTime.nCnt+1)
    milliCnt_100 := Function.update pMTime.milliCnt_100 i
      (Function.update (pMTime.milliCnt_100 i) j (i32 (pMTime.milliCnt_100 i j+1))) }

/-- The common body of `addDataToTimeSlot` and `addDataToTimeSlot2`. -/
def addData (m_pTimeSlot : Option TimeSlot) (pTime : STDTime) : Except Fault (Option TimeSlot) :=
  match m_pTimeSlot with
  | none => .error .nullRead
  | some slots => do
    let nHourIdx ← index 24 pTime.nHour
    let pSlot := (slots nHourIdx).getD (fun _ => STMTime.zero)
    let nMinuteIdx ← index 60 pTime.nMinute
    let nSec ← index 60 pTime.nSec
    let nLast ← index 10 (pTime.nLast.tdiv 100)
    return some (Function.update slots nHourIdx
      (some (Function.update pSlot nMinuteIdx ((pSlot nMinuteIdx).count nSec nLast))))

def addDataToTimeSlot (a : CAnalyzer_DateTime) (pTime : STDTime) : Except Fault CAnalyzer_DateTime := do
  let m_pTimeSlot ← addData a.m_pTimeSlot pTime
  return { a with m_pTimeSlot := m_pTimeSlot }

def addDataToTimeSlot2 (a : CAnalyzer_DateTime) (pTime : STDTime) :
    Except Fault CAnalyzer_DateTime := do
  let m_pTimeSlot2 ← addData a.m_pTimeSlot2 pTime
  return { a with m_pTimeSlot2 := m_pTimeSlot2 }

def textOf (p : List UInt8) : List Char := p.map (fun c => Char.ofNat c.toNat)

/-- The text in front of the second time. -/
def collectionTime : CString := ⟨lit "collectionTime=", by decide⟩

/-- `parsingLine`, which always answers true; `pDTE` is the one of `g_stConfig`. -/
def parsingLine (pDTE : STDateTimeExp) (a : CAnalyzer_DateTime) (pLine : CString) :
    Except Fault CAnalyzer_DateTime := do
  let stTime ← parsingTimeLog (textOf pLine.chars) pDTE
  let a ← addDataToTimeSlot a stTime
  match a.m_pDTE2 with
  | none => return a
  | some m_pDTE2 =>
    match ehstrstr pLine collectionTime with
    -- `NULL + 1` passes the check for NULL
    | none => .error .nullRead
    | some pNext =>
      let stTime ← parsingTimeLog (textOf (pLine.chars.drop (pNext.toNat+1))) m_pDTE2
      addDataToTimeSlot2 a stTime

/-- The loops of `report` over a table. -/
def reportSlots (m_nSendUnitCnt : ℤ) (pMTimeList : Option TimeSlot) : Except Fault (Option TimeSlot) :=
  match pMTimeList with
  | none => .error .nullRead
  | some slots =>
    .ok (some (fun i => (slots i).map (fun pSlot j =>
      if (pSlot j).nCnt = 0 then pSlot j else calculate m_nSendUnitCnt (pSlot j))))

/-- `report`, without what it prints. -/
def report (a : CAnalyzer_DateTime) : Except Fault CAnalyzer_DateTime := do
  let m_pTimeSlot ← reportSlots a.m_nSendUnitCnt a.m_pTimeSlot
  let m_pTimeSlot2 ← reportSlots a.m_nSendUnitCnt a.m_pTimeSlot2
  return { a with m_pTimeSlot := m_pTimeSlot, m_pTimeSlot2 := m_pTimeSlot2 }

/-- The lines counted for a minute of the day. -/
def cntAt (slots : TimeSlot) (b : Fin 24 × Fin 60) : ℕ :=
  match slots b.1 with
  | none => 0
  | some pSlot => (pSlot b.2).nCnt

/-- The sum of `nCnt` over a table. -/
def total : Option TimeSlot → ℕ
  | none => 0
  | some slots => ∑ b, cntAt slots b

end Model

/-- All lines and the report stay inside allocated tables, and the first one counts every line. -/
def StaysInside (pDTE : STDateTimeExp) (a : CAnalyzer_DateTime) (lines : List CString) : Prop :=
  ∃ a', lines.foldlM (parsingLine pDTE) a = .ok a' ∧ (∃ a'', report a' = .ok a'') ∧
    total a'.m_pTimeSlot = lines.length

section Columns

variable (e : STDateTimeExp) (text : List Char)

def delimeterLen (c : Char) : ℕ := if c = '\x00' then 0 else 1

def monthAt : ℕ := e.nDateStart+(e.nYearLen+delimeterLen e.cDateDelimeter)

def dayAt : ℕ := monthAt e+(e.nMonthLen+delimeterLen e.cDateDelimeter)

def minuteAt : ℕ := e.nTimeStart+(e.nHourLen+delimeterLen e.cTimeDelimeter)

def secAt : ℕ := minuteAt e+(e.nMinuteLen+delimeterLen e.cTimeDelimeter)

def lastAt : ℕ := secAt e+(e.nSecLen+delimeterLen e.cTimeDelimeter)

/-- The number in `nLen` columns from `pPos` on. -/
def column (pPos nLen : ℕ) : ℤ := atoi ((text.drop pPos).take nLen)

/-- What an expression reads from a text. -/
def columns : STDTime where
  nYear := column text e.nDateStart e.nYearLen
  nMonth := column text (monthAt e) e.nMonthLen
  nDay := column text (dayAt e) e.nDateLen
  nHour := column text e.nTimeStart e.nHourLen
  nMinute := column text (minuteAt e) e.nMinuteLen
  nSec := column text (secAt e) e.nSecLen
  nLast := column text (lastAt e) e.nLastLen

/-- A field has at most 7 columns, and starts in the text when it has one. -/
def InText (pPos nLen : ℕ) : Prop := nLen < 8 ∧ (nLen = 0 ∨ pPos ≤ text.length)

instance (pPos nLen : ℕ) : Decidable (InText text pPos nLen) := inferInstanceAs (Decidable (_ ∧ _))

/-- The seven fields of an expression can be read from a text. -/
structure Fits : Prop where
  year : InText text e.nDateStart e.nYearLen
  month : InText text (monthAt e) e.nMonthLen
  day : InText text (dayAt e) e.nDateLen
  hour : InText text e.nTimeStart e.nHourLen
  minute : InText text (minuteAt e) e.nMinuteLen
  sec : InText text (secAt e) e.nSecLen
  last : InText text (lastAt e) e.nLastLen

/-- The columns of a text hold a time of day, with a fraction below 1000. -/
structure InTables : Prop extends Fits e text where
  hourRange : 0 ≤ column text e.nTimeStart e.nHourLen ∧ column text e.nTimeStart e.nHourLen < 24
  minuteRange : 0 ≤ column text (minuteAt e) e.nMinuteLen ∧ column text (minuteAt e) e.nMinuteLen < 60
  secRange : 0 ≤ column text (secAt e) e.nSecLen ∧ column text (secAt e) e.nSecLen < 60
  lastRange : -100 < column text (lastAt e) e.nLastLen ∧ column text (lastAt e) e.nLastLen < 1000

end Columns

/-- There is a second time with a valid expression, every line has both its times in the range of the
tables, and no minute has `2^32` lines. -/
structure Covered (pDTE : STDateTimeExp) (c : Config) (lines : List CString) : Prop where
  used : c.IS_USE_SECOND_TIMESTAMP ≠ 0
  expression : c.SECOND_DATETIME_EXPRESSION ≠ []
  accepted : (parsingDateTimeExp c.SECOND_DATETIME_EXPRESSION).1 = true
  first : ∀ line ∈ lines, InTables pDTE (textOf line.chars)
  second : ∀ line ∈ lines, ∃ pNext, ehstrstr line collectionTime = some pNext ∧
    InTables (parsingDateTimeExp c.SECOND_DATETIME_EXPRESSION).2
      (textOf (line.chars.drop (pNext.toNat+1)))
  few : ∀ h m : ℕ, h < 24 → m < 60 → lines.countP (fun line =>
    column (textOf line.chars) pDTE.nTimeStart pDTE.nHourLen = h ∧
    column (textOf line.chars) (minuteAt pDTE) pDTE.nMinuteLen = m) < 2^32

section Read

variable (e : STDateTimeExp) (text : List Char)

theorem field_eq (pPos nLen : ℕ) (h : InText text pPos nLen) :
    field text pPos nLen = .ok (column text pPos nLen) := if_pos h

theorem inText_of_field (pPos nLen : ℕ) (n : ℤ) (h : field text pPos nLen = .ok n) :
    InText text pPos nLen := by
  by_contra hcond
  unfold InText at hcond
  rw [field, if_neg hcond] at h
  cases h

theorem parsingTimeLog_eq (h : Fits e text) : parsingTimeLog text e = .ok (columns e text) := by
  show (field text e.nDateStart e.nYearLen >>= fun nYear =>
    field text (monthAt e) e.nMonthLen >>= fun nMonth =>
    field text (dayAt e) e.nDateLen >>= fun nDay => field text e.nTimeStart e.nHourLen >>= fun nHour =>
    field text (minuteAt e) e.nMinuteLen >>= fun nMinute =>
    field text (secAt e) e.nSecLen >>= fun nSec =>
    field text (lastAt e) e.nLastLen >>= fun nLast =>
    (.ok ⟨nYear, nMonth, nDay, nHour, nMinute, nSec, nLast⟩ : Except Fault STDTime)) = _
  rw [field_eq text _ _ h.year, ok_bind, field_eq text _ _ h.month, ok_bind,
    field_eq text _ _ h.day, ok_bind, field_eq text _ _ h.hour, ok_bind,
    field_eq text _ _ h.minute, ok_bind, field_eq text _ _ h.sec, ok_bind,
    field_eq text _ _ h.last, ok_bind]
  rfl

theorem fits_of_parsingTimeLog (t : STDTime) (h : parsingTimeLog text e = .ok t) : Fits e text := by
  obtain ⟨nYear, hyear, h⟩ := (bind_eq_ok _ _ _).mp h
  obtain ⟨nMonth, hmonth, h⟩ := (bind_eq_ok _ _ _).mp h
  obtain ⟨nDay, hday, h⟩ := (bind_eq_ok _ _ _).mp h
  obtain ⟨nHour, hhour, h⟩ := (bind_eq_ok _ _ _).mp h
  obtain ⟨nMinute, hminute, h⟩ := (bind_eq_ok _ _ _).mp h
  obtain ⟨nSec, hsec, h⟩ := (bind_eq_ok _ _ _).mp h
  obtain ⟨nLast, hlast, -⟩ := (bind_eq_ok _ _ _).mp h
  exact ⟨inText_of_field text _ _ _ hyear, inText_of_field text _ _ _ hmonth,
    inText_of_field text _ _ _ hday, inText_of_field text _ _ _ hhour,
    inText_of_field text _ _ _ hminute, inText_of_field text _ _ _ hsec,
    inText_of_field text _ _ _ hlast⟩

end Read

section Count

/-- A time that has its place in a table. -/
structure InRange (t : STDTime) : Prop where
  hour : 0 ≤ t.nHour ∧ t.nHour < 24
  minute : 0 ≤ t.nMinute ∧ t.nMinute < 60
  sec : 0 ≤ t.nSec ∧ t.nSec < 60
  last : -100 < t.nLast ∧ t.nLast < 1000

/-- The times of one minute of the day. -/
def AtMinute (b : Fin 24 × Fin 60) (t : STDTime) : Prop := t.nHour = b.1 ∧ t.nMinute = b.2

instance (b : Fin 24 × Fin 60) (t : STDTime) : Decidable (AtMinute b t) :=
  inferInstanceAs (Decidable (_ ∧ _))

/-- The table has counted the times. -/
def Counted (times : List STDTime) (slots : TimeSlot) : Prop :=
  ∀ b, cntAt slots b = u32 (times.countP (fun t => AtMinute b t))

theorem index_ok (n : ℕ) (i : ℤ) (k : Fin n) : index n i = .ok k ↔ i = k := by
  unfold index
  split_ifs with h
  · rw [Except.ok.injEq, Fin.ext_iff]
    show i.toNat = k.val ↔ i = k.val
    omega
  · apply iff_of_false
    · intro he
      cases he
    · intro he
      have hk := k.isLt
      omega

theorem index_of_range (n : ℕ) (i : ℤ) (h : 0 ≤ i ∧ i < n) : ∃ k : Fin n, index n i = .ok k ∧ i = k :=
  ⟨⟨i.toNat, by omega⟩, dif_pos h, (Int.toNat_of_nonneg h.1).symm⟩

theorem tdiv_range (n : ℤ) : (0 ≤ n.tdiv 100 ∧ n.tdiv 100 < 10) ↔ -100 < n ∧ n < 1000 := by
  rcases le_or_gt 0 n with h | h
  · rw [Int.tdiv_eq_ediv_of_nonneg h]
    omega
  · have hneg : n.tdiv 100 = -((-n)/100) := by
      rw [← Int.tdiv_eq_ediv_of_nonneg (by omega), Int.neg_tdiv, neg_neg]
    rw [hneg]
    omega

variable (slots : TimeSlot) (t : STDTime)

theorem atMinute_iff (h : Fin 24) (m : Fin 60) (hh : t.nHour = h) (hm : t.nMinute = m)
    (b : Fin 24 × Fin 60) :
    AtMinute b t ↔ b = (h, m) := by
  rw [AtMinute, hh, hm, Prod.ext_iff, Fin.ext_iff, Fin.ext_iff]
  dsimp only
  omega

/-- The table after one more line. -/
def countedUp (h : Fin 24) (m i : Fin 60) (j : Fin 10) : TimeSlot :=
  Function.update slots h (some (Function.update ((slots h).getD (fun _ => STMTime.zero)) m
    (((slots h).getD (fun _ => STMTime.zero) m).count i j)))

theorem cntAt_countedUp (h : Fin 24) (m i : Fin 60) (j : Fin 10) (b : Fin 24 × Fin 60) :
    cntAt (countedUp slots h m i j) b =
      if b = (h, m) then u32 (cntAt slots b+1) else cntAt slots b := by
  obtain ⟨h', m'⟩ := b
  unfold cntAt countedUp
  dsimp only
  by_cases hh : h' = h
  · subst hh
    rw [Function.update_self]
    dsimp only
    by_cases hm : m' = m
    · subst hm
      rw [Function.update_self, if_pos rfl]
      cases slots h' <;> rfl
    · rw [Function.update_of_ne hm, if_neg (fun he => hm (Prod.mk.inj he).2)]
      cases slots h' <;> rfl
  · rw [Function.update_of_ne hh, if_neg (fun he => hh (Prod.mk.inj he).1)]

theorem addData_counted (ht : InRange t) : ∃ slots', addData (some slots) t = .ok (some slots') ∧
    ∀ times, Counted times slots → Counted (times ++ [t]) slots' := by
  obtain ⟨h, hh, hhour⟩ := index_of_range 24 t.nHour ht.hour
  obtain ⟨m, hm, hminute⟩ := index_of_range 60 t.nMinute ht.minute
  obtain ⟨i, hi, -⟩ := index_of_range 60 t.nSec ht.sec
  obtain ⟨j, hj, -⟩ := index_of_range 10 (t.nLast.tdiv 100) ((tdiv_range t.nLast).mpr ht.last)
  refine ⟨countedUp slots h m i j, ?_, ?_⟩
  · unfold addData
    dsimp only
    rw [hh, ok_bind, hm, ok_bind, hi, ok_bind, hj, ok_bind]
    rfl
  · intro times hcount b
    have hat := atMinute_iff t h m hhour hminute b
    rw [cntAt_countedUp, hcount b, List.countP_append, List.countP_singleton]
    by_cases hb : b = (h, m)
    · rw [if_pos hb, if_pos (decide_eq_true (hat.mpr hb)), u32, u32, u32, Nat.mod_add_mod]
    · rw [if_neg hb, if_neg (by rwa [decide_eq_true_iff, hat]), Nat.add_zero]

theorem inRange_of_addData (s : Option TimeSlot) (h : addData (some slots) t = .ok s) : InRange t := by
  obtain ⟨k, hk, h⟩ := (bind_eq_ok _ _ _).mp h
  obtain ⟨m, hm, h⟩ := (bind_eq_ok _ _ _).mp h
  obtain ⟨i, hi, h⟩ := (bind_eq_ok _ _ _).mp h
  obtain ⟨j, hj, -⟩ := (bind_eq_ok _ _ _).mp h
  have hhour := (index_ok _ _ _).mp hk
  have hminute := (index_ok _ _ _).mp hm
  have hsec := (index_ok _ _ _).mp hi
  have hlast := (index_ok _ _ _).mp hj
  exact ⟨by omega, by omega, by omega, (tdiv_range t.nLast).mp (by omega)⟩

-- Each time belongs to one minute of the day.
theorem sum_countP (times : List STDTime) (h : ∀ t ∈ times, InRange t) :
    ∑ b, times.countP (fun t => AtMinute b t) = times.length := by
  induction times with
  | nil => simp
  | cons t times ih =>
    have ht := h t List.mem_cons_self
    obtain ⟨k, -, hk⟩ := index_of_range 24 t.nHour ht.hour
    obtain ⟨m, -, hm⟩ := index_of_range 60 t.nMinute ht.minute
    simp only [List.countP_cons, decide_eq_true_eq, atMinute_iff t k m hk hm]
    rw [Finset.sum_add_distrib, ih (fun t' ht' => h t' (List.mem_cons_of_mem t ht')),
      Finset.sum_ite_eq' Finset.univ,
      if_pos (Finset.mem_univ _), List.length_cons]

/-- The table counts every time when no minute has too many. -/
theorem total_eq_iff (times : List STDTime) (h : ∀ t ∈ times, InRange t)
    (hcount : Counted times slots) :
    total (some slots) = times.length ↔ ∀ b, times.countP (fun t => AtMinute b t) < 2^32 := by
  have hle (b : Fin 24 × Fin 60) (_ : b ∈ Finset.univ) :
      cntAt slots b ≤ times.countP (fun t => AtMinute b t) :=
    (hcount b).trans_le (Nat.mod_le _ _)
  rw [total, ← sum_countP times h, Finset.sum_eq_sum_iff_of_le hle]
  apply forall_congr'
  intro b
  rw [forall_prop_of_true (Finset.mem_univ b), hcount b, u32]
  constructor
  · intro heq
    rw [← heq]
    exact Nat.mod_lt _ (by decide)
  · exact Nat.mod_eq_of_lt

end Count

section Run

variable (pDTE e2 : STDateTimeExp)

/-- Both times of a line are in the range of the tables. -/
def LineFits (line : CString) : Prop :=
  InTables pDTE (textOf line.chars) ∧ ∃ pNext, ehstrstr line collectionTime = some pNext ∧
    InTables e2 (textOf (line.chars.drop (pNext.toNat+1)))

/-- The analyzer with both tables, of which the first has counted the times. -/
structure Ready (times : List STDTime) (a : CAnalyzer_DateTime) : Prop where
  dte2 : a.m_pDTE2 = some e2
  first : ∃ slots, a.m_pTimeSlot = some slots ∧ Counted times slots
  second : ∃ slots, a.m_pTimeSlot2 = some slots

theorem inTables_iff (e : STDateTimeExp) (text : List Char) :
    InTables e text ↔ Fits e text ∧ InRange (columns e text) :=
  ⟨fun h => ⟨h.toFits, h.hourRange, h.minuteRange, h.secRange, h.lastRange⟩,
    fun h => ⟨h.1, h.2.hour, h.2.minute, h.2.sec, h.2.last⟩⟩

variable (times : List STDTime) (a : CAnalyzer_DateTime) (line : CString) (lines : List CString)

theorem parsingLine_fits (h : Ready e2 times a) (hline : LineFits pDTE e2 line) :
    ∃ a', parsingLine pDTE a line = .ok a' ∧
      Ready e2 (times ++ [columns pDTE (textOf line.chars)]) a' := by
  obtain ⟨hfirst, pNext, hnext, hsecond⟩ := hline
  obtain ⟨slots, hslots, hcount⟩ := h.first
  obtain ⟨slots2, hslots2⟩ := h.second
  obtain ⟨slots', hadd, hcount'⟩ := addData_counted slots _ ((inTables_iff _ _).mp hfirst).2
  obtain ⟨slots2', hadd2, -⟩ := addData_counted slots2 _ ((inTables_iff _ _).mp hsecond).2
  refine ⟨{ a with m_pTimeSlot := some slots', m_pTimeSlot2 := some slots2' }, ?_, ?_⟩
  · rw [parsingLine, parsingTimeLog_eq _ _ hfirst.toFits, ok_bind, addDataToTimeSlot, hslots,
      hadd, ok_bind]
    show (match a.m_pDTE2 with
      | none => _
      | some m_pDTE2 => _) = _
    rw [h.dte2]
    dsimp only
    rw [hnext]
    dsimp only
    rw [parsingTimeLog_eq _ _ hsecond.toFits, ok_bind, addDataToTimeSlot2]
    dsimp only
    rw [hslots2, hadd2]
    rfl
  · exact ⟨h.dte2, ⟨slots', rfl, hcount' times hcount⟩, ⟨slots2', rfl⟩⟩

theorem fits_of_parsingLine (h : Ready e2 times a) (a' : CAnalyzer_DateTime)
    (hrun : parsingLine pDTE a line = .ok a') : LineFits pDTE e2 line := by
  obtain ⟨slots, hslots, -⟩ := h.first
  obtain ⟨slots2, hslots2⟩ := h.second
  obtain ⟨t, ht, htail⟩ := (bind_eq_ok _ _ _).mp hrun
  obtain ⟨b, hb, hlast⟩ := (bind_eq_ok _ _ _).mp htail
  obtain ⟨s, hs, hsb⟩ := (bind_eq_ok _ _ _).mp hb
  cases hsb
  dsimp only at hlast
  rw [h.dte2] at hlast
  dsimp only at hlast
  have hfits := fits_of_parsingTimeLog _ _ t ht
  rw [parsingTimeLog_eq _ _ hfits] at ht
  cases ht
  rw [hslots] at hs
  refine ⟨(inTables_iff _ _).mpr ⟨hfits, inRange_of_addData _ _ s hs⟩, ?_⟩
  cases hnext : ehstrstr line collectionTime with
  | none =>
    rw [hnext] at hlast
    cases hlast
  | some pNext =>
    rw [hnext] at hlast
    obtain ⟨t2, ht2, hadd⟩ := (bind_eq_ok _ _ _).mp hlast
    obtain ⟨s2, hs2, -⟩ := (bind_eq_ok _ _ _).mp hadd
    have hfits2 := fits_of_parsingTimeLog _ _ t2 ht2
    rw [parsingTimeLog_eq _ _ hfits2] at ht2
    cases ht2
    dsimp only at hs2
    rw [hslots2] at hs2
    exact ⟨pNext, rfl, (inTables_iff _ _).mpr ⟨hfits2, inRange_of_addData _ _ s2 hs2⟩⟩

theorem foldlM_fits (h : Ready e2 times a) (hall : ∀ line ∈ lines, LineFits pDTE e2 line) :
    ∃ a', lines.foldlM (parsingLine pDTE) a = .ok a' ∧
      Ready e2 (times ++ lines.map (fun line => columns pDTE (textOf line.chars))) a' := by
  induction lines generalizing times a with
  | nil => exact ⟨a, rfl, by rwa [List.map_nil, List.append_nil]⟩
  | cons line lines ih =>
    obtain ⟨b, hstep, hb⟩ := parsingLine_fits pDTE e2 times a line h (hall line List.mem_cons_self)
    obtain ⟨a', hrun, ha'⟩ := ih _ b hb (fun l hl => hall l (List.mem_cons_of_mem line hl))
    refine ⟨a', ?_, ?_⟩
    · rw [List.foldlM_cons, hstep, ok_bind, hrun]
    · rwa [List.append_assoc] at ha'

theorem fits_of_foldlM (h : Ready e2 times a) (a' : CAnalyzer_DateTime)
    (hrun : lines.foldlM (parsingLine pDTE) a = .ok a') : ∀ line ∈ lines, LineFits pDTE e2 line := by
  induction lines generalizing times a with
  | nil => exact fun line hline => absurd hline List.not_mem_nil
  | cons line lines ih =>
    rw [List.foldlM_cons] at hrun
    obtain ⟨b, hstep, hrun⟩ := (bind_eq_ok _ _ _).mp hrun
    have hline := fits_of_parsingLine pDTE e2 times a line h b hstep
    obtain ⟨b', hstep', hb⟩ := parsingLine_fits pDTE e2 times a line h hline
    rw [hstep] at hstep'
    cases hstep'
    intro l hl
    exact (List.mem_cons.mp hl).elim (fun heq => heq ▸ hline) (ih _ b hb hrun l)

-- Without a second table the report reads through NULL, whatever the lines are.
theorem foldlM_noTable (ha : a.m_pTimeSlot2 = none) (a' : CAnalyzer_DateTime)
    (hrun : lines.foldlM (parsingLine pDTE) a = .ok a') : a'.m_pTimeSlot2 = none := by
  induction lines generalizing a with
  | nil =>
    cases hrun
    exact ha
  | cons line lines ih =>
    rw [List.foldlM_cons] at hrun
    obtain ⟨b, hstep, hrun⟩ := (bind_eq_ok _ _ _).mp hrun
    apply ih b _ hrun
    obtain ⟨t, -, hstep⟩ := (bind_eq_ok _ _ _).mp hstep
    obtain ⟨a1, hfirst, hstep⟩ := (bind_eq_ok _ _ _).mp hstep
    obtain ⟨s, -, hfirst⟩ := (bind_eq_ok _ _ _).mp hfirst
    cases hfirst
    dsimp only at hstep
    split at hstep
    · cases hstep
      exact ha
    · split at hstep
      · cases hstep
      · obtain ⟨t2, -, hstep⟩ := (bind_eq_ok _ _ _).mp hstep
        obtain ⟨s2, hs2, -⟩ := (bind_eq_ok _ _ _).mp hstep
        dsimp only at hs2
        rw [ha] at hs2
        cases hs2

theorem report_noTable (ha : a.m_pTimeSlot2 = none) (a' : CAnalyzer_DateTime) : report a ≠ .ok a' := by
  intro h
  obtain ⟨s, -, h⟩ := (bind_eq_ok _ _ _).mp h
  obtain ⟨s2, h2, -⟩ := (bind_eq_ok _ _ _).mp h
  rw [ha] at h2
  cases h2

theorem report_ready (h : Ready e2 times a) : ∃ a', report a = .ok a' := by
  obtain ⟨slots, hslots, -⟩ := h.first
  obtain ⟨slots2, hslots2⟩ := h.second
  unfold report
  rw [hslots, hslots2]
  exact ⟨_, rfl⟩

end Run

section Claim

variable (pDTE : STDateTimeExp) (c : Config) (lines : List CString)

theorem initConfig_ready (hused : c.IS_USE_SECOND_TIMESTAMP ≠ 0)
    (hexp : c.SECOND_DATETIME_EXPRESSION ≠ [])
    (hok : (parsingDateTimeExp c.SECOND_DATETIME_EXPRESSION).1 = true) :
    Ready (parsingDateTimeExp c.SECOND_DATETIME_EXPRESSION).2 [] (initConfig c).2 := by
  unfold initConfig
  rw [if_neg (not_or.mpr ⟨hused, hexp⟩), if_pos hok]
  exact ⟨rfl, ⟨fun _ => none, rfl, fun _ => rfl⟩, ⟨_, rfl⟩⟩

theorem initConfig_noTable (h : ¬(c.IS_USE_SECOND_TIMESTAMP ≠ 0 ∧ c.SECOND_DATETIME_EXPRESSION ≠ [] ∧
    (parsingDateTimeExp c.SECOND_DATETIME_EXPRESSION).1 = true)) :
    (initConfig c).2.m_pTimeSlot2 = none := by
  unfold initConfig
  split_ifs with hno hok
  · rfl
  · exact absurd ⟨(not_or.mp hno).1, (not_or.mp hno).2, hok⟩ h
  · rfl

theorem countP_columns (b : Fin 24 × Fin 60) :
    (lines.map (fun line => columns pDTE (textOf line.chars))).countP (fun t => AtMinute b t) =
      lines.countP (fun line => column (textOf line.chars) pDTE.nTimeStart pDTE.nHourLen = (b.1 : ℕ) ∧
        column (textOf line.chars) (minuteAt pDTE) pDTE.nMinuteLen = (b.2 : ℕ)) := by
  rw [List.countP_map]
  rfl

theorem not_staysInside_noTable (h : ¬(c.IS_USE_SECOND_TIMESTAMP ≠ 0 ∧
    c.SECOND_DATETIME_EXPRESSION ≠ [] ∧
    (parsingDateTimeExp c.SECOND_DATETIME_EXPRESSION).1 = true)) :
    ¬StaysInside pDTE (initConfig c).2 lines := by
  rintro ⟨a', hrun, ⟨a'', hreport⟩, -⟩
  have hnone := foldlM_noTable pDTE _ lines (initConfig_noTable c h) a' hrun
  exact report_noTable a' hnone a'' hreport

/-- The analyzer stays inside its tables exactly when both exist and the columns of all lines are in
their range. -/
theorem staysInside_iff : StaysInside pDTE (initConfig c).2 lines ↔ Covered pDTE c lines := by
  by_cases hc : c.IS_USE_SECOND_TIMESTAMP ≠ 0 ∧ c.SECOND_DATETIME_EXPRESSION ≠ [] ∧
      (parsingDateTimeExp c.SECOND_DATETIME_EXPRESSION).1 = true
  · have hready := initConfig_ready c hc.1 hc.2.1 hc.2.2
    have htotal (a' : CAnalyzer_DateTime)
        (ha' : Ready (parsingDateTimeExp c.SECOND_DATETIME_EXPRESSION).2
        ([] ++ lines.map (fun line => columns pDTE (textOf line.chars))) a')
        (hall : ∀ line ∈ lines,
          LineFits pDTE (parsingDateTimeExp c.SECOND_DATETIME_EXPRESSION).2 line) :
        total a'.m_pTimeSlot = lines.length ↔ ∀ b : Fin 24 × Fin 60, lines.countP (fun line =>
          column (textOf line.chars) pDTE.nTimeStart pDTE.nHourLen = (b.1 : ℕ) ∧
          column (textOf line.chars) (minuteAt pDTE) pDTE.nMinuteLen = (b.2 : ℕ)) < 2^32 := by
      obtain ⟨slots, hslots, hcount⟩ := ha'.first
      rw [List.nil_append] at hcount
      have hrange : ∀ t ∈ lines.map (fun line => columns pDTE (textOf line.chars)), InRange t := by
        intro t ht
        obtain ⟨line, hline, rfl⟩ := List.mem_map.mp ht
        exact ((inTables_iff _ _).mp (hall line hline).1).2
      have hiff := total_eq_iff slots _ hrange hcount
      simp only [countP_columns, List.length_map] at hiff
      rw [hslots, hiff]
    constructor
    · rintro ⟨a', hrun, -, hsum⟩
      have hall := fits_of_foldlM pDTE _ [] _ lines hready a' hrun
      obtain ⟨b, hrun', hb⟩ := foldlM_fits pDTE _ [] _ lines hready hall
      rw [hrun] at hrun'
      cases hrun'
      have hfew := (htotal a' hb hall).mp hsum
      exact ⟨hc.1, hc.2.1, hc.2.2, fun line hline => (hall line hline).1,
        fun line hline => (hall line hline).2,
        fun h m hh hm => hfew (⟨h, hh⟩, ⟨m, hm⟩)⟩
    · intro h
      have hall (line : CString) (hline : line ∈ lines) :
          LineFits pDTE (parsingDateTimeExp c.SECOND_DATETIME_EXPRESSION).2 line :=
        ⟨h.first line hline, h.second line hline⟩
      obtain ⟨a', hrun, ha'⟩ := foldlM_fits pDTE _ [] _ lines hready hall
      refine ⟨a', hrun, report_ready _ _ a' ha', (htotal a' ha' hall).mpr (fun b => ?_)⟩
      exact h.few b.1 b.2 b.1.isLt b.2.isLt
  · apply iff_of_false
    · exact not_staysInside_noTable pDTE c lines hc
    · exact fun h => hc ⟨h.used, h.expression, h.accepted⟩

/-- `yyyy-mm-dd hh:mm:ss.3`. -/
def milliExp : List Char :=
  ['y', 'y', 'y', 'y', '-', 'm', 'm', '-', 'd', 'd', ' ', 'h', 'h', ':', 'm', 'm', ':', 's',
    's', '.', '3']

/-- A line with both times, ten minutes apart. -/
def collected : CString :=
  ⟨lit "2019-08-09 10:12:19.661 collectionTime=2019-08-09T10:02:19.661", by decide⟩

theorem staysInside_iff_collected :
    StaysInside (parsingDateTimeExp milliExp).2 (initConfig ⟨3, 1, milliExp, ['c']⟩).2 [collected] := by
  apply (staysInside_iff _ _ _).mpr
  refine ⟨by decide, by decide, by decide, ?_, ?_, ?_⟩
  · intro line hline
    cases List.mem_singleton.mp hline
    exact ⟨⟨by decide, by decide, by decide, by decide, by decide, by decide, by decide⟩,
      by decide, by decide, by decide, by decide⟩
  · intro line hline
    cases List.mem_singleton.mp hline
    exact ⟨38, by decide,
      ⟨by decide, by decide, by decide, by decide, by decide, by decide, by decide⟩,
      by decide, by decide, by decide, by decide⟩
  · intro h m _ _
    exact lt_of_le_of_lt List.countP_le_length (by decide)

/-- Without a second time the report reads through a table that is NULL. -/
theorem not_staysInside : ¬∀ (pDTE : STDateTimeExp) (c : Config) (lines : List CString),
    (initConfig c).1 = true → StaysInside pDTE (initConfig c).2 lines := by
  intro h
  have hc : ¬((0 : ℤ) ≠ 0 ∧ milliExp ≠ [] ∧ (parsingDateTimeExp milliExp).1 = true) :=
      fun hne => hne.1 rfl
  exact not_staysInside_noTable _ ⟨3, 0, milliExp, ['c']⟩ _ hc
    (h (parsingDateTimeExp milliExp).2 ⟨3, 0, milliExp, ['c']⟩ [collected] rfl)

end Claim

end Leviathan.TimeSlots
