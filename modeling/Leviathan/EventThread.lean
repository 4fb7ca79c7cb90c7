import Leviathan.Runs

/-! The event thread (`CComQueueThread`, comCore.h) with its manual-reset event (win32_mtsync.h):
any number of threads in `putQueue`, and `ProcThread` with `eventThreadLoop`, one step for each access
to the queue, to the event or to `bActive`.  The queue is a first-in first-out list. -/
namespace Leviathan.EventThread

/-- Where a thread stands in `putQueue`. -/
inductive Producer (T : Type)
  | idle
  -- `bActive` was seen, the push comes
  | ready (x : T)
  -- between the push and `SetEvent`
  | pushed
  deriving DecidableEq

/-- Where `ProcThread` stands. -/
inductive Consumer
  | test
  | wait
  | reset
  | pop
  | done
  deriving DecidableEq

-- `put` and `handled` record what was pushed and what went to `fpProc`, the last one last
structure State (P T : Type) where
  queue : List T
  event : Bool
  bActive : Bool
  consumer : Consumer
  producers : P → Producer T
  put : List T
  handled : List T

inductive Act (P T : Type)
  | putQueue (p : P) (x : T)
  | push (p : P)
  | signal (p : P)
  -- `sendSignal` without a push, as in `resume`
  | sendSignal
  | quit
  | consume

variable {P T : Type}

/-- One step of the consumer; `wait` is INFINITE, so it returns only when the event is set. -/
def consume (s : State P T) : Option (State P T) :=
  match s.consumer with
  | .test => some { s with consumer := if s.bActive then .wait else .done }
  | .wait => if s.event then some { s with consumer := .reset } else none
  | .reset => some { s with event := false, consumer := .pop }
  | .pop =>
    match s.queue with
    | [] => some { s with consumer := .test }
    | x :: l => some { s with queue := l, handled := s.handled ++ [x] }
  | .done => none

def step [DecidableEq P] (s : State P T) : Act P T → Option (State P T)
  | .putQueue p x =>
    match s.producers p with
    | .idle =>
      some (if s.bActive then { s with producers := Function.update s.producers p (.ready x) } else s)
    | _ => none
  | .push p =>
    match s.producers p with
    | .ready x =>
      some { s with
        queue := s.queue ++ [x]
        put := s.put ++ [x]
        producers := Function.update s.producers p .pushed }
    | _ => none
  | .signal p =>
    match s.producers p with
    | .pushed => some { s with event := true, producers := Function.update s.producers p .idle }
    | _ => none
  | .sendSignal => some { s with event := true }
  | .quit => some { s with bActive := false }
  | .consume => consume s

def start (bActive : Bool) : State P T where
  queue := []
  event := false
  bActive := bActive
  consumer := .test
  producers := fun _ => .idle
  put := []
  handled := []

/-- The consumer sleeps, and nobody is about to wake it. -/
def Blocked (s : State P T) : Prop :=
  s.consumer = .wait ∧ s.event = false ∧ ∀ p, s.producers p ≠ .pushed

/-- Once the consumer has found the queue empty, whatever is in the queue came with a signal that has
not been taken back, or is about to come with one. -/
def Announced (s : State P T) : Prop :=
  s.consumer = .test ∨ s.consumer = .wait → s.queue ≠ [] →
    s.event = true ∨ ∃ p, s.producers p = .pushed

theorem announced_start (bActive : Bool) : Announced (start bActive : State P T) := by
  intro _ hq
  exact absurd rfl hq

theorem queue_nil_of_announced (s : State P T) (h : Announced s) (hb : Blocked s) : s.queue = [] := by
  by_contra hq
  rcases h (Or.inr hb.1) hq with he | ⟨p, hp⟩
  · exact Bool.false_ne_true (hb.2.1.symm.trans he)
  · exact hb.2.2 p hp

theorem announced_consume (s t : State P T) (h : Announced s) (hs : consume s = some t) :
    Announced t := by
  unfold consume at hs
  split at hs
  · rename_i hc
    cases hs
    intro _ hq
    exact h (Or.inl hc) hq
  · obtain ⟨_, hs⟩ := Option.ite_none_right_eq_some.mp hs
    cases hs
    rintro (hc | hc) <;> cases hc
  · cases hs
    rintro (hc | hc) <;> cases hc
  · rename_i hc
    split at hs
    · rename_i hq
      cases hs
      intro _ hne
      exact absurd hq hne
    · cases hs
      rintro (hp | hp) <;> exact Consumer.noConfusion (hc.symm.trans hp)
  · cases hs

theorem handled_consume (s t : State P T) (h : s.handled ++ s.queue = s.put)
    (hs : consume s = some t) : t.handled ++ t.queue = t.put := by
  unfold consume at hs
  split at hs
  · cases hs
    exact h
  · obtain ⟨_, hs⟩ := Option.ite_none_right_eq_some.mp hs
    cases hs
    exact h
  · cases hs
    exact h
  · split at hs
    · cases hs
      exact h
    · rename_i hq
      cases hs
      rw [hq] at h
      simpa using h
  · cases hs

variable [DecidableEq P]

-- Everything that one step can do.
theorem step_cases (s t : State P T) (a : Act P T) (hs : step s a = some t) :
    t = s ∨
    (∃ p x, s.producers p = .idle ∧
      t = { s with producers := Function.update s.producers p (.ready x) }) ∨
    (∃ p x, s.producers p = .ready x ∧
      t = { s with
        queue := s.queue ++ [x]
        put := s.put ++ [x]
        producers := Function.update s.producers p .pushed }) ∨
    (∃ p, s.producers p = .pushed ∧
      t = { s with event := true, producers := Function.update s.producers p .idle }) ∨
    t = { s with event := true } ∨ t = { s with bActive := false } ∨ consume s = some t := by
  cases a with
  | putQueue p x =>
    cases hp : s.producers p with
    | idle =>
      simp only [step, hp, Option.some.injEq] at hs
      by_cases hact : s.bActive = true
      · rw [if_pos hact] at hs
        exact Or.inr (Or.inl ⟨p, x, hp, hs.symm⟩)
      · rw [if_neg hact] at hs
        exact Or.inl hs.symm
    | ready y => simp [step, hp] at hs
    | pushed => simp [step, hp] at hs
  | push p =>
    cases hp : s.producers p with
    | ready x =>
      simp only [step, hp, Option.some.injEq] at hs
      exact Or.inr (Or.inr (Or.inl ⟨p, x, hp, hs.symm⟩))
    | idle => simp [step, hp] at hs
    | pushed => simp [step, hp] at hs
  | signal p =>
    cases hp : s.producers p with
    | pushed =>
      simp only [step, hp, Option.some.injEq] at hs
      exact Or.inr (Or.inr (Or.inr (Or.inl ⟨p, hp, hs.symm⟩)))
    | idle => simp [step, hp] at hs
    | ready x => simp [step, hp] at hs
  | sendSignal =>
    cases hs
    simp
  | quit =>
    cases hs
    simp
  | consume => exact Or.inr (Or.inr (Or.inr (Or.inr (Or.inr (Or.inr hs)))))

theorem announced_step (s t : State P T) (a : Act P T) (h : Announced s) (hs : step s a = some t) :
    Announced t := by
  rcases step_cases s t a hs with
    rfl | ⟨p, x, hp, rfl⟩ | ⟨p, x, _, rfl⟩ | ⟨p, _, rfl⟩ | rfl | rfl | hs
  · exact h
  · -- the thread that goes on was idle, so it was not the one that owes a signal
    intro hc hq
    rcases h hc hq with he | ⟨q, hpushed⟩
    · exact Or.inl he
    · have hne : q ≠ p := by
        rintro rfl
        simp [hp] at hpushed
      exact Or.inr ⟨q, (Function.update_of_ne hne _ _).trans hpushed⟩
  · intro _ _
    exact Or.inr ⟨p, Function.update_self p _ _⟩
  · intro _ _
    exact Or.inl rfl
  · intro _ _
    exact Or.inl rfl
  · exact h
  · exact announced_consume s t h hs

theorem handled_step (s t : State P T) (a : Act P T) (h : s.handled ++ s.queue = s.put)
    (hs : step s a = some t) : t.handled ++ t.queue = t.put := by
  rcases step_cases s t a hs with
    rfl | ⟨p, x, hp, rfl⟩ | ⟨p, x, _, rfl⟩ | ⟨p, _, rfl⟩ | rfl | rfl | hs
  · exact h
  · exact h
  · rw [← List.append_assoc, h]
  · exact h
  · exact h
  · exact h
  · exact handled_consume s t h hs

/-- In every interleaving of producers and consumer, when the consumer sleeps without a signal and no
producer is between its push and its signal, the queue is empty. -/
theorem queue_empty_of_blocked (bActive : Bool) (acts : List (Act P T)) (s : State P T)
    (hr : Runs.runFrom step (start bActive) acts = some s) (hb : Blocked s) : s.queue = [] := by
  have h := Runs.runFrom_invariant step Announced (fun u a t hu ht => announced_step u t a hu ht)
    (start bActive) s acts (announced_start bActive) hr
  exact queue_nil_of_announced s h hb

-- one event is pushed while the consumer tests `bActive`, and is handled before it sleeps again
theorem queue_empty_one_event : ∃ s : State Unit ℕ,
    Runs.runFrom step (start true) [.putQueue () 7, .push (), .consume, .signal (), .consume, .consume,
      .consume, .consume, .consume] = some s ∧ Blocked s ∧ s.queue = [] := by
  refine ⟨_, rfl, ⟨rfl, rfl, by decide⟩, ?_⟩
  exact queue_empty_of_blocked true [.putQueue () 7, .push (), .consume, .signal (), .consume,
    .consume, .consume, .consume, .consume] _ rfl ⟨rfl, rfl, by decide⟩

/-- Nothing is lost and the order is kept: when the consumer sleeps, every event that was put has been
handled. -/
theorem handled_all_of_blocked (bActive : Bool) (acts : List (Act P T)) (s : State P T)
    (hr : Runs.runFrom step (start bActive) acts = some s) (hb : Blocked s) : s.handled = s.put := by
  have hq := Runs.runFrom_invariant step (fun s => s.handled ++ s.queue = s.put)
    (fun u a t hu ht => handled_step u t a hu ht) (start bActive) s acts rfl hr
  have he := Runs.runFrom_invariant step Announced
    (fun u a t hu ht => announced_step u t a hu ht) (start bActive) s acts
    (announced_start bActive) hr
  rwa [queue_nil_of_announced s he hb, List.append_nil] at hq

end Leviathan.EventThread
