import Leviathan.MemListCalls

/-! `CScheduler` and `schedulerLoop` (comCore.h, comCore.cpp): the timer thread, which wakes up,
compares the clock with its goal and runs the callbacks of the time list. -/
namespace Leviathan

structure STIntervalInfo (Obj Fn : Type) where
  nThreadIdx : ℤ
  nFlag : ℤ
  nInterval : ℕ
  nCur : ℕ
  nGoal : ℕ
  pObj : Option Obj
  pFunction : Fn

/-- The scheduler; `R` are the addresses of the timer records. -/
structure CScheduler (R : Type) where
  m_pTimeList : CMemList R
  m_nMilliSecWait : ℤ
  m_nMillSecHalf : ℤ
  m_nMillSecGoal : ℕ

namespace CScheduler

section Model

variable {R Obj Fn : Type}

/-- `TICKTIME_MILLISEC` plus an `int`. -/
def addTicks (nTicks : ℕ) (nMilliSec : ℤ) : ℕ := ((nTicks+nMilliSec)%2^32).toNat

def init (m_pTimeList : CMemList R) (nMilliSecWait : ℤ) (CURRENT_TIME : ℕ) : CScheduler R where
  m_pTimeList := m_pTimeList
  m_nMilliSecWait := nMilliSecWait
  m_nMillSecHalf := nMilliSecWait.tdiv 2
  m_nMillSecGoal := addTicks CURRENT_TIME nMilliSecWait

def setGoal (s : CScheduler R) : CScheduler R :=
  { s with m_nMillSecGoal := addTicks s.m_nMillSecGoal s.m_nMilliSecWait }

/-- What a callback does to the timer records. -/
abbrev Callback (R Obj Fn : Type) : Type := R → (R → STIntervalInfo Obj Fn) → R → STIntervalInfo Obj Fn

variable [DecidableEq R] (pFunction : Callback R Obj Fn)

/-- The loop of a round, at most `k` records from cell `idx` on. -/
def roundLoop : ℕ → ℕ → CMemList R × (R → STIntervalInfo Obj Fn) →
    CMemList R × (R → STIntervalInfo Obj Fn)
  | 0, _, s => s
  | k+1, idx, (list, info) =>
    match list.getNext idx with
    | none => (list, info)
    | some (i, pData) =>
      if (info pData).nFlag = 0 then roundLoop k (i+1) ((list.del pData).1, info)
      else roundLoop k (i+1) (list, pFunction pData info)

/-- A round: every record that is not cancelled gets its callback, the others leave the list. -/
def round (s : CScheduler R) (info : R → STIntervalInfo Obj Fn) :
    CScheduler R × (R → STIntervalInfo Obj Fn) :=
  let r := roundLoop pFunction s.m_pTimeList.m_nMaxCount 0 (s.m_pTimeList, info)
  ({ s with m_pTimeList := r.1 }, r.2)

/-- What the thread works on; `rounds` counts the rounds it has run. -/
structure Thread (R Obj Fn : Type) where
  pBasic : CScheduler R
  info : R → STIntervalInfo Obj Fn
  millisecSleep : ℤ
  rounds : ℕ

/-- `schedulerLoop` at the tick `cur`. -/
def schedulerLoop (p : Thread R Obj Fn) (cur : ℕ) : Thread R Obj Fn :=
  let diff := i32 (u32Sub p.pBasic.m_nMillSecGoal cur)
  if 1 < diff then { p with millisecSleep := diff }
  else
    let r := p.pBasic.round pFunction p.info
    ⟨r.1.setGoal, r.2, r.1.m_nMillSecHalf, p.rounds+1⟩

end Model

section Time

variable {R Obj Fn : Type} [DecidableEq R]

/-- A wake-up at a time, of which the thread sees the tick, and what the callbacks do then. -/
def wakeUp (p : Thread R Obj Fn) (a : ℕ × Callback R Obj Fn) : Option (Thread R Obj Fn) :=
  some (schedulerLoop a.2 p (u32 a.1))

/-- The time at which round `k` is due. -/
def due (start w k : ℕ) : ℕ := start+k*w

/-- The wake-up is less than `2^31` ms away from the pending goal. -/
def Near (start w : ℕ) (p : Thread R Obj Fn) (a : ℕ × Callback R Obj Fn) : Prop :=
  |(a.1 : ℤ)-due start w (p.rounds+1)| < 2^31

instance (start w : ℕ) (p : Thread R Obj Fn) (a : ℕ × Callback R Obj Fn) :
    Decidable (Near start w p a) :=
  inferInstanceAs (Decidable (_ < _))

/-- From one ms before the goal on a wake-up runs one round and moves the goal by `w`; an earlier one
only sets the time to sleep to what is left. -/
structure Punctual (start w : ℕ) (p : Thread R Obj Fn) (a : ℕ × Callback R Obj Fn) : Prop where
  goal : p.pBasic.m_nMillSecGoal = u32 (due start w (p.rounds+1))
  late : due start w (p.rounds+1) ≤ a.1+1 →
    wakeUp p a = some ⟨(p.pBasic.round a.2 p.info).1.setGoal, (p.pBasic.round a.2 p.info).2,
      p.pBasic.m_nMillSecHalf, p.rounds+1⟩ ∧
    (p.pBasic.round a.2 p.info).1.setGoal.m_nMillSecGoal = u32 (due start w (p.rounds+1)+w)
  early : a.1+1 < due start w (p.rounds+1) →
    wakeUp p a = some { p with millisecSleep := (due start w (p.rounds+1) : ℤ)-a.1 }

-- The difference of two ticks, read as an `int`, is that of the times they stand for.
theorem i32_u32Sub (goal t : ℕ) (h : |(t : ℤ)-goal| < 2^31) :
    i32 (u32Sub (u32 goal) (u32 t)) = (goal : ℤ)-t := by
  rw [abs_lt] at h
  dsimp only [i32, Int.bmod, u32Sub, u32]
  split_ifs <;> omega

theorem addTicks_u32 (t w : ℕ) : addTicks (u32 t) w = u32 (t+w) := by
  unfold addTicks u32
  omega

variable (start w : ℕ)

/-- The goal is the tick of the time at which the next round is due. -/
def OnTime (p : Thread R Obj Fn) : Prop :=
  p.pBasic.m_nMilliSecWait = w ∧ p.pBasic.m_nMillSecGoal = u32 (due start w (p.rounds+1))

theorem due_succ (k : ℕ) : due start w (k+1) = due start w k+w := by
  unfold due
  ring

-- A round leaves the goal and the period alone.
theorem round_wait (s : CScheduler R) (pFunction : Callback R Obj Fn)
    (info : R → STIntervalInfo Obj Fn) :
    (s.round pFunction info).1.m_nMilliSecWait = s.m_nMilliSecWait ∧
    (s.round pFunction info).1.m_nMillSecGoal = s.m_nMillSecGoal := ⟨rfl, rfl⟩

theorem punctual_of_onTime (p : Thread R Obj Fn) (a : ℕ × Callback R Obj Fn) (h : OnTime start w p)
    (hnear : Near start w p a) : Punctual start w p a := by
  have hdiff := i32_u32Sub _ a.1 hnear
  refine ⟨h.2, ?_, ?_⟩
  · intro hlate
    refine ⟨?_, ?_⟩
    · rw [wakeUp, schedulerLoop, h.2, hdiff, if_neg (by omega)]
      rfl
    · rw [setGoal, (round_wait p.pBasic a.2 p.info).1, (round_wait p.pBasic a.2 p.info).2, h.1, h.2]
      exact addTicks_u32 _ _
  · intro hearly
    rw [wakeUp, schedulerLoop, h.2, hdiff, if_pos (by omega)]

theorem onTime_wakeUp (p p' : Thread R Obj Fn) (a : ℕ × Callback R Obj Fn) (h : OnTime start w p)
    (hnear : Near start w p a) (hstep : wakeUp p a = some p') : OnTime start w p' := by
  have hpunctual := punctual_of_onTime start w p a h hnear
  rcases Nat.lt_or_ge (a.1+1) (due start w (p.rounds+1)) with hearly | hlate
  · rw [hpunctual.early hearly] at hstep
    obtain rfl := Option.some.inj hstep
    exact h
  · obtain ⟨hwake, hgoal⟩ := hpunctual.late hlate
    rw [hwake] at hstep
    obtain rfl := Option.some.inj hstep
    refine ⟨h.1, hgoal.trans ?_⟩
    rw [due_succ start w (p.rounds+1)]

/-- The scheduler neither drifts nor runs early: all along a run of wake-ups that come within `2^31` ms
of the pending goal, each of them is punctual. -/
theorem punctual_along (list : CMemList R) (info : R → STIntervalInfo Obj Fn) (millisecSleep : ℤ)
    (as : List (ℕ × Callback R Obj Fn))
    (hnear : Runs.Along wakeUp (Near start w) ⟨init list w (u32 start), info, millisecSleep, 0⟩ as) :
    Runs.Along wakeUp (Punctual start w) ⟨init list w (u32 start), info, millisecSleep, 0⟩ as := by
  apply Runs.along_of_invariant wakeUp (Near start w) (Punctual start w) (OnTime start w)
  · exact fun p a p' h hn hs => onTime_wakeUp start w p p' a h hn hs
  · exact fun p a h hn => punctual_of_onTime start w p a h hn
  · refine ⟨rfl, (addTicks_u32 start w).trans ?_⟩
    rw [due, Nat.zero_add, Nat.one_mul]
  · exact hnear

/-- A thread without records that starts 5 ms before the tick wraps, with a period of 10 ms. -/
def wrapThread : Thread ℕ ℕ ℕ :=
  ⟨init (CMemList.clear ⟨fun _ => none, fun _ => 0, 0, 0, 4⟩) (10 : ℕ) (u32 (2^32-5)),
    fun _ => ⟨0, 0, 0, 0, 0, none, 0⟩, 5, 0⟩

/-- Wake-ups before the wrap, just before the goal, and late. -/
def wrapTimes : List (ℕ × Callback ℕ ℕ ℕ) :=
  [(2^32-1, fun _ info => info), (2^32+4, fun _ info => info), (2^32+30, fun _ info => info)]

theorem punctual_along_wrap : Runs.Along wakeUp (Near (2^32-5) 10) wrapThread wrapTimes ∧
    Runs.Along wakeUp (Punctual (2^32-5) 10) wrapThread wrapTimes := by
  have hnear : Runs.Along wakeUp (Near (2^32-5) 10) wrapThread wrapTimes := by
    decide
  exact ⟨hnear, punctual_along (2^32-5) 10 _ _ 5 wrapTimes hnear⟩

end Time

end CScheduler

end Leviathan
