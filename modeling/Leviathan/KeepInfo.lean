import Leviathan.IntValue
import Leviathan.Timespec

/-! How long a logger keeps its files: the text `GetKeepInfo` reads, and the limit `checkDeleteProc` takes
from it (CLogger, comLogger.cpp). -/
namespace Leviathan.KeepInfo
open IntValue (isNDigit number)

section Model

def sizeofSzBuf : ℕ := 32

/-- The members that the two functions use; of the list it counts whether it is allocated. -/
structure CLogger where
  m_pLogFileListForDelete : Bool
  m_nDeleteInterval : ℤ

inductive Message
  /-- `GetKeepInfo nStrLen < 2` -/
  | tooShort
  /-- `pValue:` and the text -/
  | pValue (text : List UInt8)

/-- What a call answers, what it prints and the logger behind it. -/
structure Outcome where
  answer : Bool
  printed : Option Message
  logger : CLogger

def CLogger.refuse (l : CLogger) (message : Message) : Outcome where
  answer := false
  printed := some message
  logger := l

def unitSecond : UInt8 → Option ℕ
  | 115 | 83 => some 1
  | 109 | 77 => some 60
  | 104 | 72 => some (60*60)
  | 100 | 68 => some (60*60*24)
  | _ => none

-- what `atoi` answers for a number that no `int` holds
variable (atoiOver : List UInt8 → ℤ)

/-- What `GetKeepInfo` does with the digits and the unit that it has taken apart. -/
def CLogger.keep (l : CLogger) (pValue szBuf : List UInt8) (chKeepFileUnit : UInt8) : Outcome :=
  if isNDigit szBuf then l.refuse (.pValue pValue)
  else if IntValue.atoi atoiOver szBuf < 0 then l.refuse (.pValue pValue)
  else
    match unitSecond chKeepFileUnit with
    | none => l.refuse (.pValue pValue)
    | some nUnitSecond =>
      { answer := true
        printed := none
        logger :=
          { m_pLogFileListForDelete := true
            m_nDeleteInterval := i32 (IntValue.atoi atoiOver szBuf*nUnitSecond) } }

def CLogger.getKeepInfo (l : CLogger) (pValue : List UInt8) : Except Fault Outcome :=
  -- `strcpy` to the local buffer
  if sizeofSzBuf ≤ pValue.length then .error .outOfBounds
  else if pValue.length < 2 then .ok (l.refuse .tooShort)
  else .ok (l.keep atoiOver pValue pValue.dropLast (pValue.getLastD 0))

/-- The `basic` of `checkDeleteProc` at the time `t`: files that are not younger are deleted. -/
def CLogger.basic (l : CLogger) (t : ℤ) : ℤ := Misc.time_t (t-l.m_nDeleteInterval)

end Model

/-- Digits and a unit, and the number of seconds they stand for. -/
def Spells (pValue : List UInt8) (secs : ℕ) : Prop :=
  ∃ digits ch unit, pValue = digits ++ [ch] ∧ digits ≠ [] ∧ isNDigit digits = false ∧
    unitSecond ch = some unit ∧ secs = number digits*unit

/-- Accepted are the durations that an `int` holds; then the interval is the duration, and no limit is in
the future. -/
structure Exact (pValue : List UInt8) (o : Outcome) : Prop where
  answer : o.answer = true ↔ ∃ secs, Spells pValue secs ∧ secs < 2^31
  interval : o.answer = true → ∀ secs, Spells pValue secs → o.logger.m_nDeleteInterval = secs
  nonneg : o.answer = true → 0 ≤ o.logger.m_nDeleteInterval
  limit : o.answer = true → ∀ t, -1 ≤ t → t < 2^63 → o.logger.basic t ≤ t

/-- `GetKeepInfo` reads a text exactly, whatever `atoi` does beyond the range of an `int`. -/
def Right (pValue : List UInt8) : Prop :=
  ∀ (atoiOver : List UInt8 → ℤ) (l : CLogger),
    ∃ o, l.getKeepInfo atoiOver pValue = .ok o ∧ Exact pValue o

section Read

variable (atoiOver : List UInt8 → ℤ) (l : CLogger) (pValue digits : List UInt8) (ch : UInt8)

theorem unitSecond_pos (unit : ℕ) (h : unitSecond ch = some unit) : 1 ≤ unit := by
  unfold unitSecond at h
  split at h <;> cases h <;> norm_num

theorem spells_unique (secs secs' : ℕ) (h : Spells pValue secs) (h' : Spells pValue secs') :
    secs = secs' := by
  obtain ⟨digits, ch, unit, hvalue, -, -, hunit, rfl⟩ := h
  obtain ⟨digits', ch', unit', hvalue', -, -, hunit', rfl⟩ := h'
  obtain ⟨rfl, hch⟩ := List.append_inj' (hvalue.symm.trans hvalue') rfl
  rw [List.singleton_inj] at hch
  rw [hch, hunit'] at hunit
  cases hunit
  rfl

theorem spells_append (secs : ℕ) (hne : digits ≠ []) : Spells (digits ++ [ch]) secs ↔
    isNDigit digits = false ∧ ∃ unit, unitSecond ch = some unit ∧ secs = number digits*unit := by
  constructor
  · rintro ⟨digits', ch', unit, hvalue, -, hdigits, hunit, hsecs⟩
    obtain ⟨rfl, hch⟩ := List.append_inj' hvalue rfl
    rw [List.singleton_inj] at hch
    subst hch
    exact ⟨hdigits, unit, hunit, hsecs⟩
  · rintro ⟨hdigits, unit, hunit, hsecs⟩
    exact ⟨digits, ch, unit, rfl, hne, hdigits, hunit, hsecs⟩

theorem getKeepInfo_append (hne : digits ≠ []) (hlen : digits.length+1 < sizeofSzBuf) :
    l.getKeepInfo atoiOver (digits ++ [ch]) = .ok (l.keep atoiOver (digits ++ [ch]) digits ch) := by
  have hpos := List.length_pos_of_ne_nil hne
  rw [CLogger.getKeepInfo, List.length_append, List.length_singleton, if_neg (by omega),
    if_neg (by omega), List.dropLast_concat, List.getLastD_concat]

theorem keep_refused (szBuf : List UInt8) (h : (l.keep atoiOver pValue szBuf ch).answer = false) :
    l.keep atoiOver pValue szBuf ch = l.refuse (.pValue pValue) := by
  rw [CLogger.keep] at h ⊢
  split_ifs at h ⊢
  · rfl
  · rfl
  · cases hunit : unitSecond ch with
    | none => rfl
    | some unit =>
      rw [hunit] at h
      exact absurd h Bool.false_ne_true.symm

/-- A call that is refused prints why and leaves the logger as it is. -/
theorem getKeepInfo_refused (o : Outcome) (h : l.getKeepInfo atoiOver pValue = .ok o)
    (ho : o.answer = false) : o.logger = l ∧ o.printed ≠ none := by
  rw [CLogger.getKeepInfo] at h
  split_ifs at h
  · cases h
    exact ⟨rfl, Option.some_ne_none _⟩
  · cases h
    rw [keep_refused atoiOver l pValue _ _ ho]
    exact ⟨rfl, Option.some_ne_none _⟩

-- The interval is the product of two `int`s, wrapped around.
theorem keep_accepted (unit : ℕ) (hdigits : isNDigit digits = false) (hunit : unitSecond ch = some unit)
    (hnum : 0 ≤ IntValue.atoi atoiOver digits) :
    (l.keep atoiOver pValue digits ch).answer = true ∧
    (l.keep atoiOver pValue digits ch).logger.m_nDeleteInterval =
      i32 (IntValue.atoi atoiOver digits*unit) := by
  rw [CLogger.keep, hdigits, if_neg Bool.false_ne_true, if_neg (not_lt.mpr hnum), hunit]
  exact ⟨rfl, rfl⟩

theorem keep_answer (hne : digits ≠ [])
    (h : (l.keep atoiOver pValue digits ch).answer = true) : ∃ secs, Spells (digits ++ [ch]) secs := by
  rw [CLogger.keep] at h
  split_ifs at h with hdigits
  · exact absurd h Bool.false_ne_true
  · exact absurd h Bool.false_ne_true
  · cases hunit : unitSecond ch with
    | none =>
      rw [hunit] at h
      exact absurd h Bool.false_ne_true
    | some unit =>
      have hdigits' := Bool.eq_false_of_not_eq_true hdigits
      exact ⟨_, (spells_append digits ch _ hne).mpr ⟨hdigits', unit, hunit, rfl⟩⟩

theorem basic_le (hnonneg : 0 ≤ l.m_nDeleteInterval) (hint : l.m_nDeleteInterval < 2^31) (t : ℤ)
    (hl : -1 ≤ t) (hu : t < 2^63) : l.basic t ≤ t := by
  rw [CLogger.basic, Misc.time_t_of_range _ (by omega) (by omega)]
  omega

end Read

section Right

variable (digits : List UInt8) (ch : UInt8)

theorem right_short (pValue : List UInt8) (hshort : pValue.length < 2) :
    Right pValue ∧ ∀ secs, ¬Spells pValue secs := by
  have hnone (secs : ℕ) : ¬Spells pValue secs := by
    rintro ⟨digits, ch, -, hvalue, hne, -⟩
    have hpos := List.length_pos_of_ne_nil hne
    rw [hvalue, List.length_append, List.length_singleton] at hshort
    omega
  apply And.intro _ hnone
  intro atoiOver l
  refine ⟨l.refuse .tooShort, ?_,
    iff_of_false Bool.false_ne_true (fun ⟨secs, hsecs, _⟩ => hnone secs hsecs),
    fun h => absurd h Bool.false_ne_true, fun h => absurd h Bool.false_ne_true,
    fun h => absurd h Bool.false_ne_true⟩
  rw [CLogger.getKeepInfo, if_neg (by rw [sizeofSzBuf]; omega), if_pos hshort]

theorem right_append (hne : digits ≠ []) (hlen : digits.length+1 < sizeofSzBuf)
    (hint : ∀ secs, Spells (digits ++ [ch]) secs → secs < 2^31) : Right (digits ++ [ch]) := by
  intro atoiOver l
  refine ⟨_, getKeepInfo_append atoiOver l digits ch hne hlen, ?_⟩
  by_cases hspells : ∃ secs, Spells (digits ++ [ch]) secs
  · obtain ⟨secs, hsecs⟩ := hspells
    have hlt := hint secs hsecs
    obtain ⟨hdigits, unit, hunit, rfl⟩ := (spells_append digits ch secs hne).mp hsecs
    have hnum : IntValue.atoi atoiOver digits = number digits :=
      if_pos ((Nat.le_mul_of_pos_right _ (unitSecond_pos ch unit hunit)).trans_lt hlt)
    obtain ⟨hanswer, hinterval⟩ := keep_accepted atoiOver l (digits ++ [ch]) digits ch unit hdigits
      hunit (by rw [hnum]; exact Nat.cast_nonneg _)
    have hexact : (l.keep atoiOver (digits ++ [ch]) digits ch).logger.m_nDeleteInterval =
        ((number digits*unit : ℕ) : ℤ) := by
      rw [hinterval, hnum, ← Nat.cast_mul, i32_natCast _ hlt]
    refine ⟨iff_of_true hanswer ⟨_, hsecs, hlt⟩, fun _ secs hsecs' => ?_, fun _ => ?_, fun _ t => ?_⟩
    · rw [hexact, spells_unique _ _ _ hsecs hsecs']
    · rw [hexact]
      exact Nat.cast_nonneg _
    · apply basic_le
      · rw [hexact]
        exact Nat.cast_nonneg _
      · rw [hexact]
        exact_mod_cast hlt
  · have hanswer : (l.keep atoiOver (digits ++ [ch]) digits ch).answer ≠ true :=
      fun h => hspells (keep_answer atoiOver l (digits ++ [ch]) digits ch hne h)
    exact ⟨iff_of_false hanswer (fun ⟨secs, hsecs, _⟩ => hspells ⟨secs, hsecs⟩),
      fun h => absurd h hanswer, fun h => absurd h hanswer, fun h => absurd h hanswer⟩

-- A number beyond the range of an `int` may be read as 0, another is accepted with a wrapped interval.
theorem not_right_append (hne : digits ≠ []) (hlen : digits.length+1 < sizeofSzBuf) (secs : ℕ)
    (hsecs : Spells (digits ++ [ch]) secs) (hlarge : 2^31 ≤ secs) : ¬Right (digits ++ [ch]) := by
  intro h
  obtain ⟨hdigits, unit, hunit, -⟩ := (spells_append digits ch secs hne).mp hsecs
  obtain ⟨o, ho, hexact⟩ := h (fun _ => 0) ⟨false, 0⟩
  rw [getKeepInfo_append _ _ digits ch hne hlen] at ho
  cases ho
  have hnum : 0 ≤ IntValue.atoi (fun _ => 0) digits := by
    rw [IntValue.atoi]
    split_ifs
    · exact Nat.cast_nonneg _
    · exact le_rfl
  have hanswer := (keep_accepted (fun _ => 0) ⟨false, 0⟩ (digits ++ [ch]) digits ch unit hdigits hunit
    hnum).1
  obtain ⟨secs', hsecs', hlt⟩ := hexact.answer.mp hanswer
  rw [spells_unique _ _ _ hsecs' hsecs] at hlt
  omega

end Right

/-- `GetKeepInfo` is exact for the texts that do not stand for 2^31 seconds or more. -/
theorem getKeepInfo_right_iff (pValue : CString) (hlen : pValue.strlen < sizeofSzBuf) :
    Right pValue.chars ↔ ∀ secs, Spells pValue.chars secs → secs < 2^31 := by
  rw [CString.strlen] at hlen
  by_cases hshort : pValue.chars.length < 2
  · obtain ⟨hright, hnone⟩ := right_short pValue.chars hshort
    exact iff_of_true hright (fun secs hsecs => absurd hsecs (hnone secs))
  · obtain ⟨digits, ch, hvalue⟩ : ∃ digits ch, pValue.chars = digits ++ [ch] :=
      ⟨_, _, (List.dropLast_append_getLast (List.ne_nil_of_length_pos (by omega))).symm⟩
    rw [hvalue] at hlen hshort ⊢
    rw [List.length_append, List.length_singleton] at hlen hshort
    have hne : digits ≠ [] := List.ne_nil_of_length_pos (by omega)
    refine ⟨fun h secs hsecs => ?_, right_append digits ch hne hlen⟩
    by_contra hlarge
    exact not_right_append digits ch hne hlen secs hsecs (not_lt.mp hlarge) h

-- three days
theorem getKeepInfo_right_iff_days : Right [51, 100] ↔ ∀ secs, Spells [51, 100] secs → secs < 2^31 :=
  getKeepInfo_right_iff ⟨[51, 100], by decide⟩ (by decide)

-- 24856 days are more seconds than an `int` holds
theorem not_right_days : ¬Right [50, 52, 56, 53, 54, 100] :=
  not_right_append [50, 52, 56, 53, 54] 100 (by decide) (by decide) 2147558400
    ⟨[50, 52, 56, 53, 54], 100, 86400, rfl, by decide, by decide, rfl, by decide⟩ (by norm_num)

end Leviathan.KeepInfo
