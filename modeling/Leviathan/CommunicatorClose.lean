import Leviathan.Communicator
import Leviathan.Runs

/-! When a connection is closed once.  `socketShutdown` posts behind the CONNECTED bit, `Send` posts
behind nothing; the close is unique as long as nobody posts while a close waits in the queue. -/
namespace Leviathan.Communicator

namespace Session

variable (s : Session)

/-- Neither the pool, the connect list nor the queue refers to the session. -/
def Gone : Prop := s.used = false ∧ s.listed = 0 ∧ s.waiting = 0

/-- What holds of one session as long as no OP_CLOSE is posted behind another. -/
structure Inv : Prop where
  accepted : s.m_sockStatus .accepted = true
  waiting_le : s.waiting ≤ 1
  listed_le : s.listed ≤ 1
  posted_le : s.posted ≤ 1
  closed_le : s.closed ≤ 1
  of_posted : s.posted = 1 → s.waiting = 1 ∨ s.closed = 1
  of_closed : s.closed = 1 → s.m_sockStatus .connected = false ∧ s.Gone
  of_connected : s.m_sockStatus .connected = true → s.m_socket = true ∨ s.Gone
  of_armed : s.armed = true →
    s.m_sockStatus .connected = false ∧ s.listed = 0 ∧ (s.m_socket = true ∨ s.Gone)

/-- The event finds CONNECTED set and posts, or it is a failed send, which always posts. -/
def Event.posts : Event → Prop
  | .accept doAccept bindRecv nAddIdx queued =>
    doAccept ∧ s.m_socket ∧ (bindRecv → nAddIdx = 0) ∧ queued
  | .recvFail queued | .sendCompleteFail queued => s.m_sockStatus .connected ∧ queued
  | .sendFail queued => queued
  | .close queued => s.used ∧ s.m_sockStatus .connected ∧ queued
  | .closeComplete => False

instance (e : Event) : Decidable (e.posts s) :=
  match e with
  | .accept _ _ _ _ => inferInstanceAs (Decidable (_ ∧ _ ∧ _ ∧ _))
  | .recvFail _ | .sendCompleteFail _ => inferInstanceAs (Decidable (_ ∧ _))
  | .sendFail _ => inferInstanceAs (Decidable (_ = true))
  | .close _ => inferInstanceAs (Decidable (_ ∧ _ ∧ _))
  | .closeComplete => instDecidableFalse

variable {s}

theorem Inv.closed_eq_zero (h : s.Inv) (hc : s.m_sockStatus .connected = true ∨ ¬s.Gone) :
    s.closed = 0 := by
  have hle := h.closed_le
  have hne : s.closed ≠ 1 := by
    intro h1
    obtain ⟨hf, hg⟩ := h.of_closed h1
    rcases hc with hc | hc
    · exact Bool.false_ne_true (hf.symm.trans hc)
    · exact hc hg
  omega

theorem Inv.armed_eq_false (h : s.Inv) (hc : s.m_sockStatus .connected = true) : s.armed = false := by
  by_contra ha
  obtain ⟨hf, -⟩ := h.of_armed (Bool.eq_true_of_not_eq_false ha)
  exact Bool.false_ne_true (hf.symm.trans hc)

-- every posting path: nothing waits, and the last close has been forgotten
theorem Inv.posted_eq_zero (h : s.Inv) (hw : s.waiting = 0) (hc : s.closed = 0) : s.posted = 0 := by
  have hle := h.posted_le
  have hne : s.posted ≠ 1 := by
    intro h1
    rcases h.of_posted h1 with h2 | h2 <;> omega
  omega

theorem setSocketStatus_connected (s : Session) (st : SockStatus) (hst : st ≠ .connected) :
    (s.setSocketStatus st).m_sockStatus .connected = s.m_sockStatus .connected := by
  exact Function.update_of_ne hst.symm true s.m_sockStatus

theorem Inv.setSocketStatus (h : s.Inv) (st : SockStatus) (hst : st ≠ .connected) :
    (s.setSocketStatus st).Inv := by
  have hcon := setSocketStatus_connected s st hst
  refine ⟨?_, h.waiting_le, h.listed_le, h.posted_le, h.closed_le, h.of_posted, ?_, ?_, ?_⟩
  · simp [Session.setSocketStatus, Function.update_apply, h.accepted]
  · rw [hcon]
    exact h.of_closed
  · rw [hcon]
    exact h.of_connected
  · rw [hcon]
    exact h.of_armed

theorem closeSocket_eq (s : Session) : s.closeSocket =
    { s with
      m_socket := false
      m_sockStatus := fun st => s.m_sockStatus st && !(s.m_socket && st = .connected) } := by
  obtain ⟨m_socket, m_sockStatus, used, listed, waiting, armed, posted, closed⟩ := s
  cases m_socket with
  | false => simp [closeSocket]
  | true =>
    simp only [closeSocket, delSocketStatus, if_true, Session.mk.injEq, and_true, true_and]
    ext st
    by_cases hst : st = .connected <;> simp [hst]

theorem socketShutdown_connected (s : Session) (queued : Bool) :
    (s.socketShutdown queued).m_sockStatus .connected = false := by
  unfold Session.socketShutdown
  split
  · cases queued with
    | true => simp [Session.putRTSQueue, delSocketStatus]
    | false => simp [closeSocket_eq, delSocketStatus]
  · rename_i hc
    exact Bool.eq_false_of_not_eq_true hc

theorem socketShutdown_socketShutdown (s : Session) (queued again : Bool) :
    (s.socketShutdown queued).socketShutdown again = s.socketShutdown queued := by
  rw [Session.socketShutdown.eq_1 (s.socketShutdown queued)]
  exact if_neg (by simp [socketShutdown_connected])

theorem Inv.socketShutdown (h : s.Inv) (queued : Bool)
    (hw : s.m_sockStatus .connected ∧ queued → s.waiting = 0) : (s.socketShutdown queued).Inv := by
  unfold Session.socketShutdown
  split
  · rename_i hc
    have hcl := h.closed_eq_zero (Or.inl hc)
    have ha := h.armed_eq_false hc
    cases queued with
    | true =>
      have hw0 := hw ⟨hc, rfl⟩
      have hp := h.posted_eq_zero hw0 hcl
      constructor <;>
        simp [Session.putRTSQueue, delSocketStatus, h.accepted, h.listed_le, hw0, hp, hcl, ha]
    | false =>
      rw [if_neg Bool.false_ne_true, closeSocket_eq]
      constructor <;> simp [delSocketStatus, h.accepted, h.listed_le, h.waiting_le, h.posted_le, hcl, ha]
      intro hp
      simpa [hcl] using h.of_posted hp
  · exact h

-- a post without a look at the bit
theorem Inv.putRTSQueue (h : s.Inv) (queued : Bool) (hg : ¬s.Gone) (hw : queued → s.waiting = 0) :
    (s.putRTSQueue queued).Inv := by
  cases queued with
  | false => exact h
  | true =>
    have hcl := h.closed_eq_zero (Or.inr hg)
    have hp := h.posted_eq_zero (hw rfl) hcl
    have hm (hc : s.m_socket = true ∨ s.Gone) : s.m_socket = true := by
      exact hc.resolve_right hg
    refine ⟨h.accepted, ?_, h.listed_le, ?_, h.closed_le, ?_, ?_, ?_, ?_⟩
    · simp [Session.putRTSQueue, hw]
    · simp [Session.putRTSQueue, hp]
    · simp [Session.putRTSQueue, hw]
    · intro h1
      exact absurd (hcl.symm.trans h1) Nat.zero_ne_one
    · intro hc
      exact Or.inl (hm (h.of_connected hc))
    · intro ha
      obtain ⟨hc, hl, hs⟩ := h.of_armed ha
      exact ⟨hc, hl, Or.inl (hm hs)⟩

-- Whatever was posted, processing it leaves a session that nothing refers to.
theorem Inv.comproc_close (h : s.Inv) (hw : 0 < s.waiting) : s.comproc_close.Inv := by
  have hw1 : s.waiting = 1 := by
    exact le_antisymm h.waiting_le hw
  have hng : ¬s.Gone := by
    intro hg
    exact absurd hg.2.2 hw.ne'
  have hcl := h.closed_eq_zero (Or.inr hng)
  have hcon : s.m_sockStatus .connected = true → s.m_socket = true := by
    intro hc
    exact (h.of_connected hc).resolve_right hng
  have hl : s.listed - 1 = 0 := by
    exact Nat.sub_eq_zero_of_le h.listed_le
  unfold Session.comproc_close
  simp only [h.accepted, if_true, closeSocket_eq]
  constructor <;> simp [bindAccept, Gone, h.accepted, h.posted_le, hw1, hcl, hl]
  · exact hcon
  · intro _
    exact hcon

-- the state of `doAccept`
theorem Inv.doAccept (h : s.Inv) (ha : s.armed = true) :
    ({ s with armed := false, posted := 0, closed := 0 }.setSocketStatus .connected).Inv := by
  obtain ⟨-, -, hs⟩ := h.of_armed ha
  have hacc : Function.update s.m_sockStatus .connected true .accepted = true := by
    rw [Function.update_of_ne (by decide), h.accepted]
  refine ⟨hacc, h.waiting_le, h.listed_le, Nat.zero_le 1, Nat.zero_le 1, ?_, ?_, fun _ => hs, ?_⟩ <;>
    simp [Session.setSocketStatus]

theorem Inv.addList (h : s.Inv) (hm : s.m_socket = true) (hl : s.listed = 0) (ha : s.armed = false)
    (hc : s.closed = 0) : { s with listed := s.listed+1 }.Inv := by
  refine ⟨h.accepted, h.waiting_le, ?_, h.posted_le, h.closed_le, h.of_posted, ?_, ?_, ?_⟩
  · simp [hl]
  · simp [hc]
  · intro _
    exact Or.inl hm
  · simp [ha]

theorem Inv.comproc_accept (h : s.Inv) (ha : s.armed = true) (doAccept bindRecv : Bool) (nAddIdx : ℤ)
    (queued : Bool) (hw : (Event.accept doAccept bindRecv nAddIdx queued).posts s → s.waiting = 0) :
    (s.comproc_accept doAccept bindRecv nAddIdx queued).Inv := by
  have hl := (h.of_armed ha).2.1
  have h1 := h.doAccept ha
  unfold Session.comproc_accept
  dsimp only
  split
  · rename_i hd
    obtain ⟨hd, hm⟩ := Bool.and_eq_true_iff.mp hd
    split
    · have h2 := h1.addList hm hl rfl rfl
      by_cases hfull : nAddIdx = -1
      · rw [if_pos hfull, if_pos (by omega)]
        exact h1
      · rw [if_neg hfull]
        by_cases h0 : nAddIdx = 0
        · rw [if_neg (not_not.mpr h0)]
          exact h2.socketShutdown queued (fun hq => hw ⟨hd, hm, fun _ => h0, hq.2⟩)
        · rw [if_pos h0]
          exact h2
    · rename_i hb
      rw [socketShutdown_socketShutdown]
      exact h1.socketShutdown queued (fun hq => hw ⟨hd, hm, fun h => absurd h hb, hq.2⟩)
  · exact h1

-- One event keeps the invariant when it does not post behind a close that waits.
theorem Inv.step (h : s.Inv) (e : Event) (hw : e.posts s → s.waiting = 0) (t : Session)
    (hs : s.step e = some t) : t.Inv := by
  cases e with
  | accept doAccept bindRecv nAddIdx queued =>
    obtain ⟨ha, hs⟩ := Option.ite_none_right_eq_some.mp hs
    cases hs
    exact h.comproc_accept ha doAccept bindRecv nAddIdx queued hw
  | recvFail queued =>
    cases hs
    exact h.socketShutdown queued hw
  | sendFail queued =>
    obtain ⟨hu, hs⟩ := Option.ite_none_right_eq_some.mp hs
    cases hs
    refine h.putRTSQueue queued ?_ hw
    rintro ⟨hu', hl, -⟩
    rcases hu with hu | hu
    · exact Bool.false_ne_true (hu'.symm.trans hu)
    · omega
  | sendCompleteFail queued =>
    cases hs
    split
    · exact h.socketShutdown queued hw
    · exact h
  | close queued =>
    cases hs
    split
    · rename_i hu
      apply (h.setSocketStatus .closeNormal (by decide)).socketShutdown
      rintro ⟨hc, hq⟩
      exact hw ⟨hu, hc, hq⟩
    · exact h
  | closeComplete =>
    obtain ⟨hp, hs⟩ := Option.ite_none_right_eq_some.mp hs
    cases hs
    exact h.comproc_close hp

theorem Inv.timeout (h : s.Inv) (expired queued : Bool)
    (hw : 0 < s.listed ∧ expired ∧ s.m_sockStatus .connected ∧ queued → s.waiting = 0) :
    (s.timeout expired queued).Inv := by
  unfold Session.timeout
  split
  · rename_i he
    apply (h.setSocketStatus .closeTimeout (by decide)).socketShutdown
    rintro ⟨hc, hq⟩
    exact hw ⟨he.1, he.2, hc, hq⟩
  · exact h

theorem inv_prepared : prepared.Inv := by
  constructor <;> simp [prepared]

variable (s) in
/-- A close that waits was posted behind the bit: the session is not connected any more, and no AcceptEx
is outstanding on it. -/
structure Guarded : Prop where
  connected : 0 < s.waiting → s.m_sockStatus .connected = false
  armed : 0 < s.waiting → s.armed = false

theorem guarded_of_waiting (h : s.waiting = 0) : s.Guarded :=
  ⟨fun hw => absurd h hw.ne', fun hw => absurd h hw.ne'⟩

theorem Guarded.waiting_eq_zero (h : s.Guarded) (hc : s.m_sockStatus .connected = true ∨ s.armed = true) :
    s.waiting = 0 := by
  by_contra hw
  rcases hc with hc | hc
  · exact Bool.false_ne_true ((h.connected (Nat.pos_of_ne_zero hw)).symm.trans hc)
  · exact Bool.false_ne_true ((h.armed (Nat.pos_of_ne_zero hw)).symm.trans hc)

theorem socketShutdown_armed (s : Session) (queued : Bool) :
    (s.socketShutdown queued).armed = s.armed := by
  unfold Session.socketShutdown
  split
  · cases queued with
    | true => rfl
    | false => simp [closeSocket_eq, delSocketStatus]
  · rfl

-- the guarded post
theorem Guarded.socketShutdown (h : s.Guarded) (queued : Bool)
    (ha : s.m_sockStatus .connected = true → s.armed = false) : (s.socketShutdown queued).Guarded := by
  refine ⟨fun _ => socketShutdown_connected s queued, fun hw => ?_⟩
  rw [socketShutdown_armed]
  by_cases hc : s.m_sockStatus .connected = true
  · exact ha hc
  · rw [Session.socketShutdown, if_neg hc] at hw
    exact h.armed hw

theorem Guarded.setSocketStatus (h : s.Guarded) (st : SockStatus) (hst : st ≠ .connected) :
    (s.setSocketStatus st).Guarded :=
  ⟨fun hw => (setSocketStatus_connected s st hst).trans (h.connected hw), h.armed⟩

-- `Close` and the timeout set a status of their own before they shut the socket down.
theorem Guarded.setSocketStatus_socketShutdown (h : s.Guarded) (hi : s.Inv) (st : SockStatus)
    (hst : st ≠ .connected) (queued : Bool) : ((s.setSocketStatus st).socketShutdown queued).Guarded := by
  apply (h.setSocketStatus st hst).socketShutdown
  rw [setSocketStatus_connected s st hst]
  exact hi.armed_eq_false

theorem Guarded.comproc_accept (h : s.Guarded) (ha : s.armed = true) (doAccept bindRecv : Bool)
    (nAddIdx : ℤ) (queued : Bool) : (s.comproc_accept doAccept bindRecv nAddIdx queued).Guarded := by
  have hw := h.waiting_eq_zero (Or.inr ha)
  -- `doAccept` has answered the AcceptEx
  have hshut (u : Session) (hu : u.waiting = 0) (hua : u.armed = false) :
      (u.socketShutdown queued).Guarded := (guarded_of_waiting hu).socketShutdown queued (fun _ => hua)
  unfold Session.comproc_accept
  dsimp only
  split
  · split
    · split
      · split
        · exact guarded_of_waiting hw
        · exact guarded_of_waiting hw
      · apply hshut
        · split <;> exact hw
        · split <;> rfl
    · rw [socketShutdown_socketShutdown]
      exact hshut _ hw rfl
  · exact guarded_of_waiting hw

-- Of the events only a failed send may post behind a close that waits.
theorem Guarded.step (h : s.Guarded) (hi : s.Inv) (e : Event) (he : e ≠ .sendFail true) (t : Session)
    (hs : s.step e = some t) : (e.posts s → s.waiting = 0) ∧ t.Guarded := by
  have ha (hc : s.m_sockStatus .connected = true) : s.armed = false := hi.armed_eq_false hc
  cases e with
  | accept doAccept bindRecv nAddIdx queued =>
    obtain ⟨harmed, hs⟩ := Option.ite_none_right_eq_some.mp hs
    cases hs
    exact ⟨fun _ => h.waiting_eq_zero (Or.inr harmed),
      h.comproc_accept harmed doAccept bindRecv nAddIdx queued⟩
  | recvFail queued =>
    cases hs
    exact ⟨fun hp => h.waiting_eq_zero (Or.inl hp.1), h.socketShutdown queued ha⟩
  | sendFail queued =>
    have hq : queued = false := by
      cases queued with
      | true => exact absurd rfl he
      | false => rfl
    obtain ⟨-, hs⟩ := Option.ite_none_right_eq_some.mp hs
    cases hs
    rw [hq]
    exact ⟨fun hp => absurd hp Bool.false_ne_true, h⟩
  | sendCompleteFail queued =>
    cases hs
    refine ⟨fun hp => h.waiting_eq_zero (Or.inl hp.1), ?_⟩
    split
    · exact h.socketShutdown queued ha
    · exact h
  | close queued =>
    cases hs
    refine ⟨fun hp => h.waiting_eq_zero (Or.inl hp.2.1), ?_⟩
    split
    · exact h.setSocketStatus_socketShutdown hi .closeNormal (by decide) queued
    · exact h
  | closeComplete =>
    obtain ⟨hw, hs⟩ := Option.ite_none_right_eq_some.mp hs
    cases hs
    refine ⟨fun hp => hp.elim, guarded_of_waiting ?_⟩
    unfold Session.comproc_close
    simp only [hi.accepted, if_true, closeSocket_eq]
    simpa [bindAccept] using Nat.sub_eq_zero_of_le hi.waiting_le

theorem Guarded.timeout (h : s.Guarded) (hi : s.Inv) (expired queued : Bool) :
    (s.timeout expired queued).Guarded := by
  unfold Session.timeout
  split
  · exact h.setSocketStatus_socketShutdown hi .closeTimeout (by decide) queued
  · exact h

end Session

variable {S : Type} [DecidableEq S]

/-- No session gets a second OP_CLOSE while one waits for it. -/
def PostsAlone (s : S → Session) : Act S → Prop
  | .event i e => e.posts (s i) → (s i).waiting = 0
  | .timeoutProcess expired queued => ∀ i,
    0 < (s i).listed ∧ expired i ∧ (s i).m_sockStatus .connected ∧ queued i → (s i).waiting = 0

instance [Fintype S] (s : S → Session) (a : Act S) : Decidable (PostsAlone s a) :=
  match a with
  | .event _ _ => inferInstanceAs (Decidable (_ → _))
  | .timeoutProcess _ _ => inferInstanceAs (Decidable (∀ _, _ → _))

theorem inv_step (s t : S → Session) (a : Act S) (h : ∀ i, (s i).Inv) (ha : PostsAlone s a)
    (hs : step s a = some t) : ∀ i, (t i).Inv := by
  cases a with
  | event i e =>
    obtain ⟨u, hu, rfl⟩ := Option.map_eq_some_iff.mp hs
    apply (Function.forall_update_iff s (fun _ v => v.Inv)).mpr
    exact ⟨(h i).step e ha u hu, fun j _ => h j⟩
  | timeoutProcess expired queued =>
    cases hs
    intro i
    exact (h i).timeout (expired i) (queued i) (ha i)

/-- No `Send` whose error is hard posts a close in a run: then none is posted behind another, since all
the other posts are guarded. -/
theorem postsAlone_of_no_sendFail (acts : List (Act S)) (s t : S → Session)
    (hno : ∀ i, .event i (.sendFail true) ∉ acts) (hs : ∀ i, (s i).Inv ∧ (s i).Guarded)
    (hr : Runs.runFrom step s acts = some t) : Runs.Along step PostsAlone s acts := by
  induction acts generalizing s with
  | nil => trivial
  | cons a acts ih =>
    obtain ⟨u, hu, hr⟩ := (Runs.runFrom_cons_iff step s t a acts).mp hr
    have hno' (i : S) : Act.event i (.sendFail true) ∉ acts := fun hi => hno i (List.mem_cons_of_mem a hi)
    have hstep : PostsAlone s a ∧ ∀ i, (u i).Guarded := by
      cases a with
      | event i e =>
        have he : e ≠ .sendFail true := by
          rintro rfl
          exact hno i List.mem_cons_self
        obtain ⟨v, hv, rfl⟩ := Option.map_eq_some_iff.mp hu
        obtain ⟨hposts, hguarded⟩ := (hs i).2.step (hs i).1 e he v hv
        refine ⟨hposts, (Function.forall_update_iff s (fun _ w => w.Guarded)).mpr ?_⟩
        exact ⟨hguarded, fun j _ => (hs j).2⟩
      | timeoutProcess expired queued =>
        cases hu
        exact ⟨fun i hi => (hs i).2.waiting_eq_zero (Or.inl hi.2.2.1),
          fun i => (hs i).2.timeout (hs i).1 (expired i) (queued i)⟩
    refine ⟨hstep.1, fun u' hu' => ?_⟩
    obtain rfl := Option.some.inj (hu.symm.trans hu')
    exact ih u hno' (fun i => ⟨inv_step s u a (fun j => (hs j).1) hstep.1 hu i, hstep.2 i⟩) hr

/-- In every order of the events each connection is closed at most once, if nobody posts a close
behind another. -/
theorem closedOnce_of_postsAlone (acts : List (Act S)) (s : S → Session)
    (hg : Runs.Along step PostsAlone start acts) (hr : Runs.runFrom step start acts = some s) :
    ClosedOnce s := by
  have hinv : ∀ i, (s i).Inv := by
    refine Runs.runFrom_guarded_invariant step PostsAlone (fun s => ∀ i, (s i).Inv) ?_ start s acts
      (fun _ => Session.inv_prepared) hg hr
    intro u a t hu ha ht
    exact inv_step u t a hu ha ht
  intro i
  exact ⟨(hinv i).posted_le, (hinv i).closed_le⟩

-- one session is refused by the peer and one by the clock, and both are closed
theorem closedOnce_two_sessions : ∃ s : Fin 2 → Session,
    Runs.runFrom step start [.event 0 (.accept true true 1 true), .event 1 (.accept true true 2 true),
      .event 0 (.sendFail true), .timeoutProcess (fun i => i = 1) (fun _ => true),
      .event 1 (.recvFail true), .event 0 .closeComplete, .event 1 .closeComplete] = some s ∧
    (s 0).posted = 1 ∧ (s 1).closed = 1 ∧ ClosedOnce s := by
  refine ⟨_, rfl, rfl, rfl, ?_⟩
  exact closedOnce_of_postsAlone
    [.event 0 (.accept true true 1 true), .event 1 (.accept true true 2 true),
      .event 0 (.sendFail true), .timeoutProcess (fun i => i = 1) (fun _ => true),
      .event 1 (.recvFail true), .event 0 .closeComplete, .event 1 .closeComplete] _ (by decide) rfl

/-- Two sends that fail before the first close is processed. -/
theorem not_closedOnce_two_sends : ¬∀ (acts : List (Act Unit)) (s : Unit → Session),
    Runs.runFrom step start acts = some s → ClosedOnce s := by
  intro h
  have htwo := (h [.event () (.accept true true 1 true), .event () (.sendFail true),
    .event () (.sendFail true)] _ rfl ()).1
  exact absurd htwo (by decide)

end Leviathan.Communicator
