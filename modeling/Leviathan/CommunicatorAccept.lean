import Leviathan.Communicator
import Leviathan.Runs

/-! What a session that waits in AcceptEx owns.  `comproc_close` closes the handle and returns the
slot, and calls `bindAccept` on the same object without a `createSocket` in between. -/
namespace Leviathan.Communicator

variable {S : Type} [DecidableEq S]

/-- The sessions, with a record of the calls of `bindAccept` that no accept completion has answered.
The record says what the caller was told: `bindAccept` looks for an error only where AcceptEx returns
TRUE, so a call on INVALID_SOCKET reports CERROR_NONE like any other.  `armed` of a session says what the
system has: an AcceptEx that was called on a socket.  The sessions that are armed are among these. -/
structure Accepting (S : Type) where
  sess : S → Session
  pending : S → Bool

namespace Accepting

-- the record after a step that was taken in `s`
def pendingAfter (s : Accepting S) : Act S → S → Bool
  | .event i (.accept _ _ _ _) => Function.update s.pending i false
  | .event i .closeComplete =>
    Function.update s.pending i (s.pending i || (s.sess i).m_sockStatus .accepted)
  | _ => s.pending

def step (s : Accepting S) (a : Act S) : Option (Accepting S) :=
  (Communicator.step s.sess a).map (fun t => ⟨t, s.pendingAfter a⟩)

/-- The sessions that `prepareAccept` leaves. -/
def start : Accepting S := ⟨Communicator.start, fun _ => true⟩

/-- Every session that waits for an accept has its slot and a socket. -/
def Live (s : Accepting S) : Prop :=
  ∀ i, s.pending i = true → (s.sess i).used = true ∧ (s.sess i).m_socket = true

end Accepting

namespace Session

-- What the functions that are not a close completion keep of one session.
structure Keeps (s t : Session) : Prop where
  accepted : t.m_sockStatus .accepted = s.m_sockStatus .accepted
  used : t.used = s.used
  armed : t.armed = s.armed
  m_socket : s.m_sockStatus .connected = false → t.m_socket = s.m_socket
  connected : s.m_sockStatus .connected = false → t.m_sockStatus .connected = false

theorem Keeps.refl (s : Session) : s.Keeps s := by
  constructor <;> simp

theorem Keeps.trans (s t u : Session) (hst : s.Keeps t) (htu : t.Keeps u) : s.Keeps u := by
  constructor
  · exact htu.accepted.trans hst.accepted
  · exact htu.used.trans hst.used
  · exact htu.armed.trans hst.armed
  · intro hc
    exact (htu.m_socket (hst.connected hc)).trans (hst.m_socket hc)
  · intro hc
    exact htu.connected (hst.connected hc)

theorem keeps_putRTSQueue (s : Session) (queued : Bool) : s.Keeps (s.putRTSQueue queued) := by
  unfold putRTSQueue
  split
  · constructor <;> simp
  · exact Keeps.refl s

theorem keeps_setSocketStatus (s : Session) (st : SockStatus) (ha : st ≠ .accepted)
    (hc : st ≠ .connected) : s.Keeps (s.setSocketStatus st) := by
  constructor
  · exact Function.update_of_ne ha.symm true s.m_sockStatus
  · rfl
  · rfl
  · intro _
    rfl
  · intro hs
    exact (Function.update_of_ne hc.symm true s.m_sockStatus).trans hs

theorem closeSocket_accepted (s : Session) :
    s.closeSocket.m_sockStatus .accepted = s.m_sockStatus .accepted := by
  unfold closeSocket
  by_cases hm : s.m_socket = true
  · simp [hm, delSocketStatus]
  · simp [hm]

theorem closeSocket_used (s : Session) : s.closeSocket.used = s.used := by
  unfold closeSocket
  by_cases hm : s.m_socket = true
  · simp [hm, delSocketStatus]
  · simp [hm]

theorem closeSocket_armed (s : Session) : s.closeSocket.armed = s.armed := by
  unfold closeSocket
  by_cases hm : s.m_socket = true
  · simp [hm, delSocketStatus]
  · simp [hm]

-- only a connected session loses its socket here
theorem keeps_socketShutdown (s : Session) (queued : Bool) : s.Keeps (s.socketShutdown queued) := by
  unfold socketShutdown
  split
  · rename_i hc
    have hne : s.m_sockStatus .connected ≠ false := by
      simp [hc]
    constructor
    · cases queued with
      | true => simp [putRTSQueue, delSocketStatus]
      | false => simp [closeSocket_accepted, delSocketStatus]
    · cases queued with
      | true => simp [putRTSQueue, delSocketStatus]
      | false => simp [closeSocket_used, delSocketStatus]
    · cases queued with
      | true => simp [putRTSQueue, delSocketStatus]
      | false => simp [closeSocket_armed, delSocketStatus]
    · intro h
      exact absurd h hne
    · intro h
      exact absurd h hne
  · exact Keeps.refl s

theorem keeps_timeout (s : Session) (expired queued : Bool) : s.Keeps (s.timeout expired queued) := by
  unfold timeout
  split
  · apply Keeps.trans s (s.setSocketStatus .closeTimeout)
    · exact keeps_setSocketStatus s .closeTimeout (by decide) (by decide)
    · exact keeps_socketShutdown _ queued
  · exact Keeps.refl s

theorem comproc_accept_accepted (s : Session) (doAccept bindRecv : Bool) (nAddIdx : ℤ)
    (queued : Bool) : (s.comproc_accept doAccept bindRecv nAddIdx queued).m_sockStatus .accepted =
      s.m_sockStatus .accepted := by
  have hset : Function.update s.m_sockStatus .connected true .accepted =
      s.m_sockStatus .accepted := by
    simp
  unfold comproc_accept
  dsimp only
  split
  · split
    · split
      · split <;> exact hset
      · exact (keeps_socketShutdown _ queued).accepted.trans (by split <;> exact hset)
    · rw [(keeps_socketShutdown _ queued).accepted, (keeps_socketShutdown _ queued).accepted]
      exact hset
  · exact hset

theorem comproc_close_accepted (s : Session) :
    s.comproc_close.m_sockStatus .accepted = s.m_sockStatus .accepted := by
  unfold comproc_close
  by_cases ha : s.m_sockStatus .accepted = true
  · simp [ha, closeSocket_accepted, bindAccept]
  · simp [ha, closeSocket_accepted]

-- the slot of an accepted session is returned
theorem comproc_close_used (s : Session) (ha : s.m_sockStatus .accepted = true) :
    s.comproc_close.used = false := by
  unfold comproc_close
  simp [ha, closeSocket_accepted, bindAccept]

-- the AcceptEx has been answered
theorem comproc_accept_armed (s : Session) (doAccept bindRecv : Bool) (nAddIdx : ℤ) (queued : Bool) :
    (s.comproc_accept doAccept bindRecv nAddIdx queued).armed = false := by
  unfold comproc_accept
  dsimp only
  split
  · split
    · split
      · split <;> rfl
      · exact (keeps_socketShutdown _ queued).armed.trans (by split <;> rfl)
    · rw [(keeps_socketShutdown _ queued).armed, (keeps_socketShutdown _ queued).armed]
      rfl
  · rfl

-- there is no socket for a new one
theorem comproc_close_armed (s : Session) (h : s.comproc_close.armed = true) : s.armed = true := by
  have hclosed (u : Session) : u.closeSocket.m_socket = false := by
    unfold closeSocket
    cases hm : u.m_socket <;> simp [hm, delSocketStatus]
  unfold comproc_close at h
  by_cases ha : s.m_sockStatus .accepted = true
  · simpa [ha, closeSocket_accepted, closeSocket_armed, bindAccept, hclosed] using h
  · simpa [ha, closeSocket_accepted, closeSocket_armed] using h

/-- What one event does to a session and to the record of its `bindAccept`. -/
theorem step_cases (s t : Session) (e : Event) (hs : s.step e = some t) :
    (∃ d b n q, e = .accept d b n q ∧
      t.m_sockStatus .accepted = s.m_sockStatus .accepted ∧ t.armed = false) ∨
    (e = .closeComplete ∧ t = s.comproc_close) ∨
    ((∀ d b n q, e ≠ .accept d b n q) ∧ e ≠ .closeComplete ∧ s.Keeps t) := by
  cases e with
  | accept d b n q =>
    obtain ⟨_, hs⟩ := Option.ite_none_right_eq_some.mp hs
    cases hs
    exact Or.inl ⟨d, b, n, q, rfl, comproc_accept_accepted s d b n q, comproc_accept_armed s d b n q⟩
  | closeComplete =>
    obtain ⟨_, hs⟩ := Option.ite_none_right_eq_some.mp hs
    cases hs
    exact Or.inr (Or.inl ⟨rfl, rfl⟩)
  | recvFail queued =>
    cases hs
    exact Or.inr (Or.inr ⟨by simp, by simp, keeps_socketShutdown s queued⟩)
  | sendFail queued =>
    obtain ⟨_, hs⟩ := Option.ite_none_right_eq_some.mp hs
    cases hs
    exact Or.inr (Or.inr ⟨by simp, by simp, keeps_putRTSQueue s queued⟩)
  | sendCompleteFail queued =>
    cases hs
    have hk : s.Keeps (if s.m_sockStatus .connected then s.socketShutdown queued else s) := by
      split
      · exact keeps_socketShutdown s queued
      · exact Keeps.refl s
    exact Or.inr (Or.inr ⟨by simp, by simp, hk⟩)
  | close queued =>
    cases hs
    have hk : s.Keeps
        (if s.used then (s.setSocketStatus .closeNormal).socketShutdown queued else s) := by
      split
      · apply Keeps.trans s (s.setSocketStatus .closeNormal)
        · exact keeps_setSocketStatus s .closeNormal (by decide) (by decide)
        · exact keeps_socketShutdown _ queued
      · exact Keeps.refl s
    exact Or.inr (Or.inr ⟨by simp, by simp, hk⟩)

theorem step_accepted (s t : Session) (e : Event) (hs : s.step e = some t) :
    t.m_sockStatus .accepted = s.m_sockStatus .accepted := by
  rcases step_cases s t e hs with ⟨_, _, _, _, _, hacc, _⟩ | ⟨_, rfl⟩ | ⟨_, _, hk⟩
  · exact hacc
  · exact comproc_close_accepted s
  · exact hk.accepted

end Session

namespace Accepting

theorem accepted_step (s t : Accepting S) (a : Act S)
    (h : ∀ i, (s.sess i).m_sockStatus .accepted = true) (hs : s.step a = some t) :
    ∀ i, (t.sess i).m_sockStatus .accepted = true := by
  obtain ⟨u, hu, rfl⟩ := Option.map_eq_some_iff.mp hs
  cases a with
  | timeoutProcess expired queued =>
    cases hu
    intro i
    exact (Session.keeps_timeout (s.sess i) (expired i) (queued i)).accepted.trans (h i)
  | event i e =>
    obtain ⟨v, hv, rfl⟩ := Option.map_eq_some_iff.mp hu
    apply (Function.forall_update_iff s.sess (fun _ w => w.m_sockStatus .accepted = true)).mpr
    exact ⟨(Session.step_accepted (s.sess i) v e hv).trans (h i), fun j _ => h j⟩

-- a session of `prepareAccept` never loses its SOCK_STATUS_ACCEPTED
theorem accepted_run (acts : List (Act S)) (s : Accepting S)
    (hr : Runs.runFrom step start acts = some s) :
    ∀ i, (s.sess i).m_sockStatus .accepted = true := by
  apply Runs.runFrom_invariant step (fun s => ∀ i, (s.sess i).m_sockStatus .accepted = true)
    (fun u a t hu ht => accepted_step u t a hu ht) start s acts
  · intro i
    simp [start, Communicator.start, Session.prepared]
  · exact hr

-- what an event that is no accept and no close makes of the record
theorem pendingAfter_other (s : Accepting S) (i : S) (e : Session.Event) (ha : ∀ d b n q, e ≠ .accept d b n q)
    (hc : e ≠ .closeComplete) : s.pendingAfter (.event i e) = s.pending := by
  unfold pendingAfter
  split
  · rename_i heq
    cases heq
    exact absurd rfl (ha _ _ _ _)
  · rename_i heq
    cases heq
    exact absurd rfl hc
  · rfl

theorem armed_step (s t : Accepting S) (a : Act S) (h : ∀ i, (s.sess i).armed = true → s.pending i = true)
    (hs : s.step a = some t) : ∀ i, (t.sess i).armed = true → t.pending i = true := by
  obtain ⟨u, hu, rfl⟩ := Option.map_eq_some_iff.mp hs
  cases a with
  | timeoutProcess expired queued =>
    cases hu
    intro i hi
    exact h i ((Session.keeps_timeout (s.sess i) (expired i) (queued i)).armed.symm.trans hi)
  | event i e =>
    obtain ⟨v, hv, rfl⟩ := Option.map_eq_some_iff.mp hu
    intro j hj
    dsimp only at hj ⊢
    rcases Session.step_cases (s.sess i) v e hv with
      ⟨d, b, n, q, rfl, -, harmed⟩ | ⟨rfl, rfl⟩ | ⟨hna, hnc, hk⟩
    · by_cases hji : j = i
      · subst hji
        rw [Function.update_self, harmed] at hj
        cases hj
      · rw [Function.update_of_ne hji] at hj
        exact (Function.update_of_ne hji _ _).trans (h j hj)
    · by_cases hji : j = i
      · subst hji
        rw [Function.update_self] at hj
        rw [pendingAfter, Function.update_self, h j (Session.comproc_close_armed _ hj), Bool.true_or]
      · rw [Function.update_of_ne hji] at hj
        exact (Function.update_of_ne hji _ _).trans (h j hj)
    · rw [s.pendingAfter_other i e hna hnc]
      by_cases hji : j = i
      · subst hji
        rw [Function.update_self, hk.armed] at hj
        exact h j hj
      · rw [Function.update_of_ne hji] at hj
        exact h j hj

/-- An AcceptEx that is outstanding is one that a caller of `bindAccept` has been told of. -/
theorem pending_of_armed (acts : List (Act S)) (s : Accepting S)
    (hr : Runs.runFrom step start acts = some s) (i : S) (hi : (s.sess i).armed = true) :
    s.pending i = true := by
  have hinv := Runs.runFrom_invariant step
    (fun s : Accepting S => ∀ i, (s.sess i).armed = true → s.pending i = true)
    (fun u a t hu ht => armed_step u t a hu ht) start s acts (fun _ _ => rfl) hr
  exact hinv i hi

-- The close completion returns the slot of the session that it puts in AcceptEx.
theorem not_live_closeComplete (s t : Accepting S) (i : S)
    (ha : (s.sess i).m_sockStatus .accepted = true)
    (hs : s.step (.event i .closeComplete) = some t) : ¬t.Live := by
  obtain ⟨u, hu, rfl⟩ := Option.map_eq_some_iff.mp hs
  obtain ⟨v, hv, rfl⟩ := Option.map_eq_some_iff.mp hu
  obtain ⟨_, hv⟩ := Option.ite_none_right_eq_some.mp hv
  cases hv
  intro hl
  have hp : s.pendingAfter (.event i .closeComplete) i = true := by
    simp [pendingAfter, ha]
  have hu := (hl i hp).1
  simp only [Function.update_self] at hu
  rw [Session.comproc_close_used (s.sess i) ha] at hu
  exact Bool.false_ne_true hu

-- One session: while it waits it is not connected, and nothing but a close takes from it.
structure Inv (s : Session) (pending : Bool) : Prop where
  used : pending = true → s.used = true
  m_socket : pending = true → s.m_socket = true
  connected : pending = true → s.m_sockStatus .connected = false

theorem Inv.keeps (s t : Session) (pending : Bool) (h : Inv s pending) (hk : s.Keeps t) :
    Inv t pending := by
  constructor
  · intro hp
    exact hk.used.trans (h.used hp)
  · intro hp
    exact (hk.m_socket (h.connected hp)).trans (h.m_socket hp)
  · intro hp
    exact hk.connected (h.connected hp)

/-- No OP_CLOSE completion is processed in this step. -/
def NoClose (_ : Accepting S) (a : Act S) : Prop := ∀ i, a ≠ .event i .closeComplete

theorem inv_step (s t : Accepting S) (a : Act S) (h : ∀ i, Inv (s.sess i) (s.pending i))
    (ha : NoClose s a) (hs : s.step a = some t) : ∀ i, Inv (t.sess i) (t.pending i) := by
  obtain ⟨u, hu, rfl⟩ := Option.map_eq_some_iff.mp hs
  cases a with
  | timeoutProcess expired queued =>
    cases hu
    intro i
    exact (h i).keeps _ _ _ (Session.keeps_timeout (s.sess i) (expired i) (queued i))
  | event i e =>
    obtain ⟨v, hv, rfl⟩ := Option.map_eq_some_iff.mp hu
    intro j
    rcases Session.step_cases (s.sess i) v e hv with
      ⟨d, b, n, q, rfl, -⟩ | ⟨rfl, -⟩ | ⟨hna, hnc, hk⟩
    · by_cases hj : j = i
      · subst hj
        simp only [pendingAfter, Function.update_self]
        constructor <;> simp
      · simp only [pendingAfter, Function.update_of_ne hj]
        exact h j
    · exact absurd rfl (ha i)
    · rw [s.pendingAfter_other i e hna hnc]
      by_cases hj : j = i
      · subst hj
        simp only [Function.update_self]
        exact (h j).keeps _ _ _ hk
      · simp only [Function.update_of_ne hj]
        exact h j

theorem along_noClose (s : Accepting S) (acts : List (Act S))
    (h : ∀ i, .event i .closeComplete ∉ acts) : Runs.Along step NoClose s acts := by
  induction acts generalizing s with
  | nil => trivial
  | cons a acts ih =>
    constructor
    · rintro i rfl
      exact h i List.mem_cons_self
    · intro t _
      apply ih t
      intro i hi
      exact h i (List.mem_cons_of_mem a hi)

theorem live_of_noClose (acts : List (Act S)) (s : Accepting S)
    (h : ∀ i, .event i .closeComplete ∉ acts) (hr : Runs.runFrom step start acts = some s) :
    s.Live := by
  have hinv : ∀ i, Inv (s.sess i) (s.pending i) := by
    apply Runs.runFrom_guarded_invariant step NoClose (fun s => ∀ i, Inv (s.sess i) (s.pending i))
      (fun u a t hu ha ht => inv_step u t a hu ha ht) start s acts _ (along_noClose start acts h) hr
    intro i
    constructor <;> simp [start, Communicator.start, Session.prepared]
  intro i hp
  exact ⟨(hinv i).used hp, (hinv i).m_socket hp⟩

/-- In every run from `prepareAccept`, every session that waits for an accept is live in all the
states passed, exactly when the run processes no close completion. -/
theorem live_throughout_iff (acts : List (Act S)) (s : Accepting S)
    (hr : Runs.runFrom step start acts = some s) :
    (∀ as bs t, acts = as ++ bs → Runs.runFrom step start as = some t → t.Live) ↔
      ∀ i, .event i .closeComplete ∉ acts := by
  constructor
  · intro hl i hi
    obtain ⟨as, bs, rfl⟩ := List.append_of_mem hi
    obtain ⟨u, hu, hr⟩ := (Runs.runFrom_append_iff step start s as _).mp hr
    obtain ⟨t, ht, -⟩ := (Runs.runFrom_cons_iff step u s _ bs).mp hr
    have hpre : Runs.runFrom step start (as ++ [.event i .closeComplete]) = some t := by
      apply (Runs.runFrom_append_iff step start t as _).mpr
      exact ⟨u, hu, (Runs.runFrom_cons_iff step u t _ []).mpr ⟨t, ht, rfl⟩⟩
    apply not_live_closeComplete u t i (accepted_run as u hu i) ht
    exact hl (as ++ [.event i .closeComplete]) bs t (by simp) hpre
  · rintro h as bs t rfl ht
    apply live_of_noClose as t _ ht
    intro i hi
    exact h i (List.mem_append_left bs hi)

-- two peers connect, one of them is read to its end and is about to be closed
theorem live_throughout_two_sessions : ∃ s : Accepting (Fin 2),
    Runs.runFrom step start [.event 0 (.accept true true 1 true), .event 0 (.recvFail true),
      .event 1 (.accept true true 2 true)] = some s ∧
    ∀ as bs t, [Act.event (0 : Fin 2) (.accept true true 1 true), .event 0 (.recvFail true),
      .event 1 (.accept true true 2 true)] = as ++ bs →
      Runs.runFrom step start as = some t → t.Live := by
  refine ⟨_, rfl, ?_⟩
  apply (live_throughout_iff _ _ rfl).mpr
  simp

/-- A peer that connects and goes away leaves a session that waits on INVALID_SOCKET with its slot
given back. -/
theorem not_live_after_close : ¬∀ (acts : List (Act Unit)) (s : Accepting Unit),
    Runs.runFrom step start acts = some s → s.Live := by
  intro h
  have hl := h [.event () (.accept true true 1 true), .event () (.recvFail true),
    .event () .closeComplete] _ rfl () rfl
  exact absurd hl (by decide)

end Accepting
end Leviathan.Communicator
