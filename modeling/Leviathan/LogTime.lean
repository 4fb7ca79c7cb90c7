import Leviathan.FileTime
import Leviathan.ResetFold

/-! `setBeginningTime` and `setEndingTime` (LogAnalyzer, Utility.cpp): the start and the end of a log, kept
while its times come in. -/
namespace Leviathan.LogTime

open DateTime CFileTime ResetFold

section Model

/-- `setBeginningTime` and `setEndingTime`, which keep the target where it compares as `eKeep`, take the new
time where it compares as `eTake`, and of two times in one second the fraction that `isBetter` prefers.
A target at hour 0 counts as not set. -/
def setTime (eKeep eTake : EOperator) (isBetter : ℤ → ℤ → Bool) (pTarget pNewTime : STDTime) :
    Except Fault STDTime :=
  if pTarget.nHour = 0 then .ok pNewTime
  else do
    let (targetDT, _) ← setFileTime pTarget
    let (newDT, _) ← setFileTime pNewTime
    let eRes := targetDT.Compare newDT
    if eRes = eKeep then return pTarget
    else if eRes = eTake then return pNewTime
    else if eRes = .EQ then
      if isBetter pNewTime.nLast pTarget.nLast then return { pTarget with nLast := pNewTime.nLast }
      else return pTarget
    else return pTarget

def setBeginningTime : STDTime → STDTime → Except Fault STDTime :=
  setTime .LT .GT (fun nNew nTarget => nNew < nTarget)

def setEndingTime : STDTime → STDTime → Except Fault STDTime :=
  setTime .GT .LT (fun nNew nTarget => nTarget < nNew)

/-- The target in `g_stConfig` before the first line. -/
def zero : STDTime := ⟨0, 0, 0, 0, 0, 0, 0⟩

end Model

section Order

/-- Year, month, day, hour, minute, second and fraction; the first difference decides. -/
def moment (t : STDTime) : (ℤ ×ₗ ℤ ×ₗ ℤ ×ₗ ℤ ×ₗ ℤ ×ₗ ℤ) ×ₗ ℤ := toLex (calendar t, t.nLast)

theorem moment_injective : Function.Injective moment := by
  intro a b h
  obtain ⟨y, mo, d, hh, mi, s, l⟩ := a
  obtain ⟨y', mo', d', hh', mi', s', l'⟩ := b
  simpa [moment, calendar, and_assoc] using h

instance : LinearOrder STDTime := LinearOrder.lift' moment moment_injective

theorem lt_iff (a b : STDTime) :
    a < b ↔ calendar a < calendar b ∨ calendar a = calendar b ∧ a.nLast < b.nLast :=
  Prod.Lex.toLex_lt_toLex

-- A time with the fraction of another one in the same second is that one.
theorem with_nLast (a b : STDTime) (h : calendar a = calendar b) :
    { a with nLast := b.nLast } = b := by
  apply moment_injective
  exact congrArg (fun c => toLex (c, b.nLast)) h

/-- No time has been taken in yet, as the code sees it. -/
def Unset (t : STDTime) : Prop := t.nHour = 0

instance : DecidablePred Unset := fun t => inferInstanceAs (Decidable (t.nHour = 0))

theorem compare_eq (a b : STDTime) (ha : Calendar a) (hb : Calendar b) :
    (fileTime a).Compare (fileTime b) = answer (cmp (calendar a) (calendar b)) := by
  rw [Compare_eq_answer, cmp_congr _ _ _ _ (calendar_lt_iff a b ha hb) (calendar_lt_iff b a hb ha)]

section Step

variable (a b : STDTime) (hb : Calendar b)

theorem setTime_unset (eKeep eTake : EOperator) (isBetter : ℤ → ℤ → Bool) (hu : Unset a) :
    setTime eKeep eTake isBetter a b = .ok b := if_pos hu

include hb

theorem setTime_set (eKeep eTake : EOperator) (isBetter : ℤ → ℤ → Bool) (hu : ¬Unset a)
    (ha : Calendar a) : setTime eKeep eTake isBetter a b =
      .ok (if answer (cmp (calendar a) (calendar b)) = eKeep then a
        else if answer (cmp (calendar a) (calendar b)) = eTake then b
        else if answer (cmp (calendar a) (calendar b)) = .EQ then
          if isBetter b.nLast a.nLast then { a with nLast := b.nLast } else a
        else a) := by
  have hset : ¬a.nHour = 0 := hu
  rw [setTime, if_neg hset, setFileTime_eq a ha, ok_bind]
  dsimp only
  rw [setFileTime_eq b hb, ok_bind]
  dsimp only
  rw [compare_eq a b ha hb]
  generalize answer (cmp (calendar a) (calendar b)) = answered
  split_ifs <;> rfl

theorem setBeginningTime_eq (ha : Unset a ∨ Calendar a) :
    setBeginningTime a b = .ok (resetMin Unset a b) := by
  by_cases hu : Unset a
  · rw [setBeginningTime, setTime_unset a b _ _ _ hu, resetMin, if_pos hu]
  rw [setBeginningTime, setTime_set a b hb _ _ _ hu (ha.resolve_left hu), resetMin, if_neg hu]
  apply congrArg Except.ok
  rcases lt_trichotomy (calendar a) (calendar b) with hlt | heq | hgt
  · have hab : a < b := (lt_iff a b).mpr (Or.inl hlt)
    rw [(cmp_eq_lt_iff _ _).mpr hlt, min_eq_left hab.le]
    rfl
  · rw [(cmp_eq_eq_iff _ _).mpr heq, with_nLast a b heq]
    have hlast : b < a ↔ b.nLast < a.nLast := by
      rw [lt_iff, heq, or_iff_right (lt_irrefl _), and_iff_right rfl]
    rw [min_comm, min_def_lt]
    simp only [hlast, decide_eq_true_eq]
    rfl
  · have hba : b < a := (lt_iff b a).mpr (Or.inl hgt)
    rw [(cmp_eq_gt_iff _ _).mpr hgt, min_eq_right hba.le]
    rfl

theorem setEndingTime_eq (ha : Unset a ∨ Calendar a) :
    setEndingTime a b = .ok (resetMax Unset a b) := by
  by_cases hu : Unset a
  · rw [setEndingTime, setTime_unset a b _ _ _ hu, resetMax, if_pos hu]
  rw [setEndingTime, setTime_set a b hb _ _ _ hu (ha.resolve_left hu), resetMax, if_neg hu]
  apply congrArg Except.ok
  rcases lt_trichotomy (calendar a) (calendar b) with hlt | heq | hgt
  · have hab : a < b := (lt_iff a b).mpr (Or.inl hlt)
    rw [(cmp_eq_lt_iff _ _).mpr hlt, max_eq_right hab.le]
    rfl
  · rw [(cmp_eq_eq_iff _ _).mpr heq, with_nLast a b heq]
    have hlast : a < b ↔ a.nLast < b.nLast := by
      rw [lt_iff, heq, or_iff_right (lt_irrefl _), and_iff_right rfl]
    rw [max_def_lt]
    simp only [hlast, decide_eq_true_eq]
    rfl
  · have hba : b < a := (lt_iff b a).mpr (Or.inl hgt)
    rw [(cmp_eq_gt_iff _ _).mpr hgt, max_eq_left hba.le]
    rfl

end Step

end Order

section Fold

variable (times : List STDTime) (m : STDTime) (hv : ∀ t ∈ times, Calendar t)

include hv

-- Every target but the first is one of the times, and so a calendar time.
theorem foldlM_eq (f : STDTime → STDTime → Except Fault STDTime) (g : STDTime → STDTime → STDTime)
    (hf : ∀ a b, Unset a ∨ Calendar a → Calendar b → f a b = .ok (g a b))
    (hg : ∀ a b, g a b = a ∨ g a b = b) (a : STDTime) (ha : Unset a ∨ Calendar a) :
    times.foldlM f a = .ok (times.foldl g a) := by
  induction times generalizing a with
  | nil => rfl
  | cons b times ih =>
    have hb := hv b List.mem_cons_self
    rw [List.foldlM_cons, hf a b ha hb, ok_bind, List.foldl_cons]
    apply ih (fun t ht => hv t (List.mem_cons_of_mem b ht))
    rcases hg a b with h | h
    · rw [h]
      exact ha
    · rw [h]
      exact Or.inr hb

theorem beginning_eq : times.foldlM setBeginningTime zero =
    .ok (times.foldl (resetMin Unset) zero) :=
  foldlM_eq times hv _ _ (fun a b ha hb => setBeginningTime_eq a b hb ha)
    (fun a b => resetMin_or Unset a b) zero (Or.inl rfl)

theorem ending_eq : times.foldlM setEndingTime zero = .ok (times.foldl (resetMax Unset) zero) :=
  foldlM_eq times hv _ _ (fun a b ha hb => setEndingTime_eq a b hb ha)
    (fun a b => resetMax_or Unset a b) zero (Or.inl rfl)

/-- The start is the earliest time exactly when that is not in the hour after midnight, or comes last; it is
so in every order exactly when it is not in that hour, or the only time.  The same holds for the end. -/
theorem extremes_iff :
    (IsLeast {t | t ∈ times} m →
      (times.foldlM setBeginningTime zero = .ok m ↔ m.nHour ≠ 0 ∨ times.getLast? = some m) ∧
      ((∀ times' : List STDTime, times'.Perm times → times'.foldlM setBeginningTime zero = .ok m) ↔
        m.nHour ≠ 0 ∨ ∀ t ∈ times, t = m)) ∧
    (IsGreatest {t | t ∈ times} m →
      (times.foldlM setEndingTime zero = .ok m ↔ m.nHour ≠ 0 ∨ times.getLast? = some m) ∧
      ((∀ times' : List STDTime, times'.Perm times → times'.foldlM setEndingTime zero = .ok m) ↔
        m.nHour ≠ 0 ∨ ∀ t ∈ times, t = m)) := by
  have hperm (times' : List STDTime) (h : times'.Perm times) : ∀ t ∈ times', Calendar t :=
    fun t ht => hv t (h.mem_iff.mp ht)
  have hzero : Unset zero := rfl
  constructor
  · intro hm
    constructor
    · rw [beginning_eq times hv, Except.ok.injEq]
      exact foldl_eq_least_iff Unset zero m times hzero hm
    · apply Iff.trans _ (foldl_perm_iff Unset zero m times hzero hm)
      apply forall₂_congr
      intro times' h
      rw [beginning_eq times' (hperm times' h), Except.ok.injEq]
  · intro hm
    constructor
    · rw [ending_eq times hv, Except.ok.injEq]
      exact foldl_eq_greatest_iff Unset zero m times hzero hm
    · apply Iff.trans _ (foldl_max_perm_iff Unset zero m times hzero hm)
      apply forall₂_congr
      intro times' h
      rw [ending_eq times' (hperm times' h), Except.ok.injEq]

omit hv in
theorem extremes_iff_morning :
    [⟨2020, 1, 1, 9, 0, 0, 0⟩, ⟨2020, 1, 1, 8, 0, 0, 5⟩].foldlM setBeginningTime zero =
      .ok ⟨2020, 1, 1, 8, 0, 0, 5⟩ := by
  have h := extremes_iff [⟨2020, 1, 1, 9, 0, 0, 0⟩, ⟨2020, 1, 1, 8, 0, 0, 5⟩] ⟨2020, 1, 1, 8, 0, 0, 5⟩
    (by simp only [List.forall_mem_cons]; refine ⟨?_, ?_, ?_⟩ <;> first | (constructor <;> decide) | simp)
  apply (h.1 ⟨by simp, ?_⟩).1.mpr (Or.inl (by decide))
  intro t ht
  rcases List.mem_pair.mp ht with rfl | rfl <;> decide

-- five seconds after midnight, and an hour later; ten minutes after midnight, and the evening before
omit hv in
theorem not_extreme_after_midnight :
    [⟨2020, 1, 1, 0, 0, 5, 0⟩, ⟨2020, 1, 1, 1, 0, 0, 0⟩].foldlM setBeginningTime zero =
      .ok ⟨2020, 1, 1, 1, 0, 0, 0⟩ ∧
    (⟨2020, 1, 1, 0, 0, 5, 0⟩ : STDTime) < ⟨2020, 1, 1, 1, 0, 0, 0⟩ ∧
    [⟨2020, 1, 2, 0, 10, 0, 0⟩, ⟨2020, 1, 1, 23, 0, 0, 0⟩].foldlM setEndingTime zero =
      .ok ⟨2020, 1, 1, 23, 0, 0, 0⟩ ∧
    (⟨2020, 1, 1, 23, 0, 0, 0⟩ : STDTime) < ⟨2020, 1, 2, 0, 10, 0, 0⟩ := by
  refine ⟨rfl, ?_, rfl, ?_⟩ <;> decide

end Fold

end Leviathan.LogTime
