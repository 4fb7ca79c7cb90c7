import Leviathan.DateTimeRead
import Leviathan.FileOrder
import Mathlib.Data.Prod.Lex

/-! `CFileTime` (comDateTime.cpp): how a calendar time becomes a file time, and how two file times are
compared. -/
namespace Leviathan

open DateTime

namespace DateTime

theorem IsField.append {s t : List Char} {k l m n : ℕ} (hs : IsField s k m) (ht : IsField t l n) :
    IsField (s ++ t) (k+l) (m*10^l+n) := by
  constructor
  · rw [List.length_append, hs.length, ht.length]
  · intro c hc
    rcases List.mem_append.mp hc with hc | hc
    · exact hs.digits c hc
    · exact ht.digits c hc
  · rw [DateTime.value, Nat.ofDigitChars_append, Nat.ofDigitChars_eq_ofDigitChars_zero]
    change 10^t.length*DateTime.value s+DateTime.value t = m*10^l+n
    rw [ht.length, hs.value, ht.value, Nat.mul_comm]

end DateTime

namespace CFileTime

section Model

/-- `%0wd` for an `int`. -/
def paddedInt (w : ℕ) (z : ℤ) : List Char :=
  if z < 0 then '-' :: padded (w-1) z.natAbs else padded w z.natAbs

/-- `_stprintf` to a buffer of `size` characters. -/
def print (size : ℕ) (s : List Char) : Except Fault (List Char) :=
  if s.length < size then .ok s else .error .outOfBounds

/-- `atoi`, which has no meaning for a number that an `int` does not hold. -/
def readInt (s : List Char) : Except Fault ℤ :=
  if -2^31 ≤ atoi s ∧ atoi s < 2^31 then .ok (atoi s) else .error .outOfBounds

def unsigned (z : ℤ) : ℕ := (z%2^32).toNat

/-- `szDate` in `setFileTime`. -/
def sizeofSzDate : ℕ := 16

/-- `setFileTime(STDTime *)`: the file time, and what the call returns. -/
def setFileTime (t : STDTime) : Except Fault (CFileTime × ℤ) := do
  let szDate ← print sizeofSzDate (paddedInt 2 t.nMonth ++ paddedInt 2 t.nDay ++
    paddedInt 2 t.nHour ++ paddedInt 2 t.nMinute ++ paddedInt 2 t.nSec)
  let nDateTime ← readInt szDate
  let szDate ← print sizeofSzDate (paddedInt 4 t.nYear)
  let nYear ← readInt szDate
  return (⟨unsigned nYear, unsigned nDateTime⟩, i32 (unsigned nDateTime))

def isCompare (t pCompare : CFileTime) (eOP : EOperator) : Bool :=
  match eOP with
  | .EQ =>
    if pCompare.getYear = t.m_nYear ∧ pCompare.getDateTime = t.m_nDateTime then true else false
  | .NE =>
    if pCompare.getYear ≠ t.m_nYear ∧ pCompare.getDateTime ≠ t.m_nDateTime then true else false
  | .GT =>
    if pCompare.getYear < t.m_nYear then true
    else if pCompare.getYear > t.m_nYear then false
    else if pCompare.getDateTime < t.m_nDateTime then true else false
  | .LT =>
    if pCompare.getYear > t.m_nYear then true
    else if pCompare.getYear < t.m_nYear then false
    else if pCompare.getDateTime > t.m_nDateTime then true else false
  | .GE =>
    if pCompare.getYear < t.m_nYear then true
    else if pCompare.getYear > t.m_nYear then false
    else if pCompare.getDateTime ≤ t.m_nDateTime then true else false
  | .LE =>
    if pCompare.getYear > t.m_nYear then true
    else if pCompare.getYear < t.m_nYear then false
    else if pCompare.getDateTime ≥ t.m_nDateTime then true else false
  | _ => false

end Model

/-- What `Compare` answers for two values that compare so. -/
def answer : Ordering → EOperator
  | .lt => .LT
  | .eq => .EQ
  | .gt => .GT

/-- The answers of `Compare` that an operator stands for. -/
def denotes : EOperator → List EOperator
  | .EQ => [.EQ]
  | .NE => [.GT, .LT]
  | .GT => [.GT]
  | .LT => [.LT]
  | .GE => [.GT, .EQ]
  | .LE => [.LT, .EQ]
  | _ => []

/-- The operators that compare times. -/
def comparisons : List EOperator := [.EQ, .NE, .GT, .LT, .GE, .LE]

section Order

variable (x y : CFileTime)

/-- The two numbers of a file time, the year first. -/
def key (t : CFileTime) : ℕ ×ₗ ℕ := toLex (t.m_nYear, t.m_nDateTime)

theorem key_lt_iff : key x < key y ↔
    x.m_nYear < y.m_nYear ∨ x.m_nYear = y.m_nYear ∧ x.m_nDateTime < y.m_nDateTime :=
  Prod.Lex.toLex_lt_toLex

theorem Compare_eq_answer : x.Compare y = answer (cmp (key x) (key y)) := by
  have hlt := key_lt_iff x y
  have hgt := key_lt_iff y x
  unfold Compare getYear getDateTime cmp cmpUsing
  simp only [hlt, hgt]
  split_ifs <;> first | rfl | omega

/-- The two numbers differ both or not at all. -/
def DifferAlike : Prop := x.m_nYear = y.m_nYear ↔ x.m_nDateTime = y.m_nDateTime

-- Both numbers have to differ, where one is enough for `Compare`.
theorem isCompare_NE : x.isCompare y .NE = true ↔
    x.m_nYear ≠ y.m_nYear ∧ x.m_nDateTime ≠ y.m_nDateTime := by
  unfold isCompare getYear getDateTime
  split_ifs <;> simp <;> omega

theorem Compare_NE : x.Compare y = .GT ∨ x.Compare y = .LT ↔
    x.m_nYear ≠ y.m_nYear ∨ x.m_nDateTime ≠ y.m_nDateTime := by
  unfold Compare getYear getDateTime
  split_ifs <;> simp <;> omega

theorem Compare_cases : x.Compare y = .EQ ∨ x.Compare y = .LT ∨ x.Compare y = .GT := by
  unfold Compare
  split_ifs <;> simp

end Order

/-- The two interfaces agree on the operator. -/
def Agree (x y : CFileTime) (op : EOperator) : Prop :=
  x.isCompare y op = true ↔ x.Compare y ∈ denotes op

/-- Each operator and its negation answer differently. -/
def Negated (x y : CFileTime) (op op' : EOperator) : Prop := x.isCompare y op = !x.isCompare y op'

theorem agree_of_ne (x y : CFileTime) (op : EOperator) (hop : op ∈ comparisons) (hne : op ≠ .NE) :
    Agree x y op := by
  unfold Agree Compare getYear getDateTime
  cases op with
  | EQ =>
    rw [isCompare, getYear, getDateTime]
    split_ifs <;> simp [denotes] <;> omega
  | NE => exact absurd rfl hne
  | GT =>
    rw [isCompare, getYear, getDateTime]
    split_ifs <;> simp [denotes] <;> omega
  | LT =>
    rw [isCompare, getYear, getDateTime]
    split_ifs <;> simp [denotes] <;> omega
  | GE =>
    rw [isCompare, getYear, getDateTime]
    split_ifs <;> simp [denotes] <;> omega
  | LE =>
    rw [isCompare, getYear, getDateTime]
    split_ifs <;> simp [denotes] <;> omega
  | _ => simp [comparisons] at hop

theorem negated_iff (x y : CFileTime) (op op' : EOperator) :
    Negated x y op op' ↔ (x.isCompare y op = true ↔ ¬x.isCompare y op' = true) := by
  unfold Negated
  cases x.isCompare y op <;> cases x.isCompare y op' <;> simp

-- Where an operator agrees, its negation is one whose answers are all the others.
theorem negated_iff_agree (x y : CFileTime) (op op' : EOperator) (h' : Agree x y op')
    (hothers : x.Compare y ∈ denotes op ↔ ¬x.Compare y ∈ denotes op') :
    Negated x y op op' ↔ Agree x y op := by
  unfold Agree at h'
  rw [negated_iff, h', ← hothers, Agree]

theorem agree_NE_iff (x y : CFileTime) : Agree x y .NE ↔ DifferAlike x y := by
  have hmem : x.Compare y ∈ denotes .NE ↔ x.Compare y = .GT ∨ x.Compare y = .LT := by
    simp [denotes]
  rw [Agree, isCompare_NE, hmem, Compare_NE, DifferAlike]
  tauto

theorem isCompare_agrees_iff (x y : CFileTime) :
    (∀ op ∈ comparisons, Agree x y op ↔ (op = .NE → DifferAlike x y)) ∧
    (Negated x y .NE .EQ ↔ DifferAlike x y) ∧ Negated x y .GE .LT ∧ Negated x y .LE .GT := by
  have hc := Compare_cases x y
  have hagree (op : EOperator) (hop : op ∈ comparisons) (hne : op ≠ .NE) := agree_of_ne x y op hop hne
  refine ⟨?_, ?_, ?_, ?_⟩
  · intro op hop
    by_cases hne : op = .NE
    · subst hne
      simpa using agree_NE_iff x y
    · simpa [hne] using hagree op hop hne
  · rw [← agree_NE_iff]
    apply negated_iff_agree x y .NE .EQ (hagree .EQ (by decide) (by decide))
    rcases hc with h | h | h <;> simp [denotes, h]
  · apply (negated_iff_agree x y .GE .LT (hagree .LT (by decide) (by decide)) ?_).mpr
    · exact hagree .GE (by decide) (by decide)
    · rcases hc with h | h | h <;> simp [denotes, h]
  · apply (negated_iff_agree x y .LE .GT (hagree .GT (by decide) (by decide)) ?_).mpr
    · exact hagree .LE (by decide) (by decide)
    · rcases hc with h | h | h <;> simp [denotes, h]

-- two times of one year
theorem isCompare_NE_misses : ¬Agree ⟨2024, 101000000⟩ ⟨2024, 102000000⟩ .NE ∧
    ¬Negated ⟨2024, 101000000⟩ ⟨2024, 102000000⟩ .NE .EQ := by
  unfold Agree Negated
  decide

section Packing

/-- Year, month, day, hour, minute and second; the first difference decides. -/
def calendar (t : STDTime) : ℤ ×ₗ ℤ ×ₗ ℤ ×ₗ ℤ ×ₗ ℤ ×ₗ ℤ :=
  toLex (t.nYear, toLex (t.nMonth, toLex (t.nDay, toLex (t.nHour, toLex (t.nMinute, t.nSec)))))

structure Calendar (t : STDTime) : Prop where
  year : 0 ≤ t.nYear ∧ t.nYear ≤ 9999
  month : 1 ≤ t.nMonth ∧ t.nMonth ≤ 12
  day : 1 ≤ t.nDay ∧ t.nDay ≤ 31
  hour : 0 ≤ t.nHour ∧ t.nHour ≤ 23
  minute : 0 ≤ t.nMinute ∧ t.nMinute ≤ 59
  sec : 0 ≤ t.nSec ∧ t.nSec ≤ 59

/-- Two digits a field, the month first. -/
def packed (t : STDTime) : ℕ :=
  (((t.nMonth.toNat*10^2+t.nDay.toNat)*10^2+t.nHour.toNat)*10^2+t.nMinute.toNat)*10^2+t.nSec.toNat

def fileTime (t : STDTime) : CFileTime := ⟨t.nYear.toNat, packed t⟩

theorem isField_paddedInt (w : ℕ) (z : ℤ) (hw : 0 < w) (h0 : 0 ≤ z) (hz : z < 10^w) :
    IsField (paddedInt w z) w z.toNat := by
  have habs : z.natAbs = z.toNat := by
    omega
  have hlt : z.toNat < 10^w := by
    zify
    omega
  rw [paddedInt, if_neg (not_lt.mpr h0), habs]
  exact isField_padded w _ hw hlt

theorem readInt_field (s : List Char) (len n : ℕ) (hs : IsField s len n) (hlen : 0 < len)
    (hn : n < 2^31) : readInt s = .ok n := by
  have hne : s ≠ [] := by
    apply List.ne_nil_of_length_pos
    rw [hs.length]
    exact hlen
  have hatoi : atoi s = n := by
    rw [← List.append_nil s, atoi_digits s [] hne hs.digits (fun c hc => by cases hc), hs.value]
  rw [readInt, hatoi, if_pos]
  omega

theorem unsigned_natCast (n : ℕ) (hn : n < 2^31) : unsigned n = n := by
  unfold unsigned
  omega

theorem packed_le (t : STDTime) (h : Calendar t) : packed t ≤ 1231235959 := by
  obtain ⟨-, hm, hd, hh, hmin, hs⟩ := h
  unfold packed
  omega

theorem cmp_congr {α β : Type} [LinearOrder α] [LinearOrder β] (a b : α) (c d : β)
    (hlt : a < b ↔ c < d) (hgt : b < a ↔ d < c) : cmp a b = cmp c d := by
  unfold cmp cmpUsing
  simp only [hlt, hgt]

/-- The ten characters spell the five fields as one number. -/
theorem setFileTime_eq (t : STDTime) (h : Calendar t) :
    setFileTime t = .ok (fileTime t, (packed t : ℤ)) := by
  have hle := packed_le t h
  obtain ⟨hy, hm, hd, hh, hmin, hs⟩ := h
  have hdate : IsField (paddedInt 2 t.nMonth ++ paddedInt 2 t.nDay ++ paddedInt 2 t.nHour ++
      paddedInt 2 t.nMinute ++ paddedInt 2 t.nSec) 10 (packed t) := by
    have hmonth := isField_paddedInt 2 t.nMonth (by decide) (by omega) (by omega)
    have hday := isField_paddedInt 2 t.nDay (by decide) (by omega) (by omega)
    have hhour := isField_paddedInt 2 t.nHour (by decide) (by omega) (by omega)
    have hminute := isField_paddedInt 2 t.nMinute (by decide) (by omega) (by omega)
    have hsec := isField_paddedInt 2 t.nSec (by decide) (by omega) (by omega)
    exact (((hmonth.append hday).append hhour).append hminute).append hsec
  have hyear := isField_paddedInt 4 t.nYear (by decide) hy.1 (by omega)
  have hprint (s : List Char) (len n : ℕ) (h : IsField s len n) (hlen : len < 16) :
      print sizeofSzDate s = .ok s := if_pos (by rw [h.length]; exact hlen)
  have hi32 : i32 (packed t : ℤ) = packed t := i32_natCast _ (by omega)
  rw [setFileTime, hprint _ _ _ hdate (by decide), ok_bind,
    readInt_field _ _ _ hdate (by decide) (by omega), ok_bind, hprint _ _ _ hyear (by decide), ok_bind,
    readInt_field _ _ _ hyear (by decide) (by omega), ok_bind, unsigned_natCast _ (by omega),
    unsigned_natCast _ (by omega), hi32]
  rfl

-- A digit in front of numbers below the base decides first.
theorem digit_lt_iff (base a b m n : ℕ) (hm : m < base) (hn : n < base) :
    a*base+m < b*base+n ↔ a < b ∨ a = b ∧ m < n := by
  rcases lt_trichotomy a b with hlt | heq | hgt
  · have hmul := Nat.mul_le_mul_right base (Nat.succ_le_of_lt hlt)
    rw [Nat.succ_mul] at hmul
    omega
  · subst heq
    omega
  · have hmul := Nat.mul_le_mul_right base (Nat.succ_le_of_lt hgt)
    rw [Nat.succ_mul] at hmul
    omega

theorem packed_eq (t : STDTime) : packed t =
    t.nMonth.toNat*10^8+(t.nDay.toNat*10^6+(t.nHour.toNat*10^4+
      (t.nMinute.toNat*10^2+t.nSec.toNat))) := by
  unfold packed
  ring

theorem packed_lt_iff (a b : STDTime) (ha : Calendar a) (hb : Calendar b) :
    packed a < packed b ↔ a.nMonth < b.nMonth ∨ a.nMonth = b.nMonth ∧
      (a.nDay < b.nDay ∨ a.nDay = b.nDay ∧
        (a.nHour < b.nHour ∨ a.nHour = b.nHour ∧
          (a.nMinute < b.nMinute ∨ a.nMinute = b.nMinute ∧ a.nSec < b.nSec))) := by
  obtain ⟨-, hm, hd, hh, hmin, hs⟩ := ha
  obtain ⟨-, hm', hd', hh', hmin', hs'⟩ := hb
  rw [packed_eq, packed_eq, digit_lt_iff (10^8) _ _ _ _ (by omega) (by omega),
    digit_lt_iff (10^6) _ _ _ _ (by omega) (by omega),
    digit_lt_iff (10^4) _ _ _ _ (by omega) (by omega), digit_lt_iff (10^2) _ _ _ _ (by omega) (by omega)]
  have hlt (x y : ℤ) (hx : 0 ≤ x) (hy : 0 ≤ y) : x.toNat < y.toNat ↔ x < y := by
    omega
  have heq (x y : ℤ) (hx : 0 ≤ x) (hy : 0 ≤ y) : x.toNat = y.toNat ↔ x = y := by
    omega
  rw [hlt _ _ (by omega) (by omega), heq _ _ (by omega) (by omega), hlt _ _ (by omega) (by omega),
    heq _ _ (by omega) (by omega), hlt _ _ hh.1 hh'.1, heq _ _ hh.1 hh'.1, hlt _ _ hmin.1 hmin'.1,
    heq _ _ hmin.1 hmin'.1, hlt _ _ hs.1 hs'.1]

theorem calendar_lt_iff (a b : STDTime) (ha : Calendar a) (hb : Calendar b) :
    calendar a < calendar b ↔ key (fileTime a) < key (fileTime b) := by
  have hyear : a.nYear.toNat < b.nYear.toNat ↔ a.nYear < b.nYear := by
    have hy := ha.year
    have hy' := hb.year
    omega
  have hsame : a.nYear.toNat = b.nYear.toNat ↔ a.nYear = b.nYear := by
    have hy := ha.year
    have hy' := hb.year
    omega
  rw [key_lt_iff, fileTime, fileTime, packed_lt_iff a b ha hb, hyear, hsame]
  simp only [calendar, Prod.Lex.toLex_lt_toLex]

theorem Compare_of_setFileTime (a b : STDTime) (ha : Calendar a) (hb : Calendar b) :
    ∃ x y : CFileTime, setFileTime a = .ok (x, (x.m_nDateTime : ℤ)) ∧
      setFileTime b = .ok (y, (y.m_nDateTime : ℤ)) ∧
      x.Compare y = answer (cmp (calendar a) (calendar b)) := by
  refine ⟨fileTime a, fileTime b, setFileTime_eq a ha, setFileTime_eq b hb, ?_⟩
  rw [Compare_eq_answer, cmp_congr _ _ _ _ (calendar_lt_iff a b ha hb) (calendar_lt_iff b a hb ha)]

theorem Compare_of_setFileTime_second :
    ∃ x y : CFileTime, setFileTime ⟨2024, 12, 31, 23, 59, 58, 0⟩ = .ok (x, (x.m_nDateTime : ℤ)) ∧
      setFileTime ⟨2024, 12, 31, 23, 59, 59, 0⟩ = .ok (y, (y.m_nDateTime : ℤ)) ∧
      x.Compare y = .LT := by
  have hlt : calendar ⟨2024, 12, 31, 23, 59, 58, 0⟩ < calendar ⟨2024, 12, 31, 23, 59, 59, 0⟩ := by
    simp [calendar, Prod.Lex.toLex_lt_toLex]
  have h := Compare_of_setFileTime ⟨2024, 12, 31, 23, 59, 58, 0⟩ ⟨2024, 12, 31, 23, 59, 59, 0⟩
    (by constructor <;> decide) (by constructor <;> decide)
  rw [(cmp_eq_lt_iff _ _).mpr hlt] at h
  exact h

end Packing

end CFileTime

end Leviathan
