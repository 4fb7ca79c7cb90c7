import Leviathan.Communicator
import Leviathan.Runs
import Leviathan.SessionPool

/-! The way of a SOCKETDATA through `CNWCommunicator::Send` and `Send2`, `CNWSocket::Send` and
`comproc_sendComplete` (NWCommunicator.cpp, NWSocket.cpp). -/
namespace Leviathan.Communicator

variable {S : Type} [DecidableEq S]

/-- A descriptor with its address; `pData` is `none` for NULL and `pObj` says whether a logger comes
with the data. -/
structure SOCKETDATA (S : Type) where
  pMem : ℤ
  lpClient : S
  nTotLen : ℕ
  pData : Option ℤ
  pObj : Bool
  deriving DecidableEq

/-- What WSASend answers; WSAEWOULDBLOCK takes the branch of WSA_IO_PENDING.  A hard error posts an
OP_CLOSE, which the queue takes or refuses. -/
inductive WSASendResult
  | done
  | pending
  | error (queued : Bool)
  deriving DecidableEq

-- `held` are the descriptors from `newSockData` that `returnSockData` has not seen, `inflight` those
-- that the system has; `freed` lists the calls of `delBuf` for data to send, the last one first
structure Sends (S : Type) where
  sess : S → Session
  m_lpSendData : S → Option (SOCKETDATA S)
  mgr : CSessionManager
  held : List ℤ
  inflight : List (SOCKETDATA S)
  freed : List (Option ℤ × ℕ)
  logged : List (Option ℤ)

namespace Sends

def delBuf (s : Sends S) (pBuf : Option ℤ) (nSize : ℕ) : Sends S :=
  { s with freed := (pBuf, nSize) :: s.freed }

-- `newSockData()`; `heap` is what `calloc` answers when the pool has no descriptor
def newSockData (s : Sends S) (heap : Option ℤ) : Option (Sends S × ℤ) :=
  match s.mgr.m_pDataMemMgr.newMem.2, heap with
  | none, none => none
  | _, _ =>
    let r := s.mgr.newSockData (heap.getD 0)
    some ({ s with mgr := r.1, held := r.2 :: s.held }, r.2)

def returnSockData (s : Sends S) (pMem : ℤ) : Sends S :=
  { s with mgr := s.mgr.returnSockData pMem, held := s.held.erase pMem }

-- `clear()`: the descriptor of the failed send stays with the session, without its data
def clear (s : Sends S) (i : S) : Sends S :=
  match s.m_lpSendData i with
  | none => s
  | some d =>
    match d.pData with
    | none => s
    | some p =>
      let d' := { d with pData := none, nTotLen := 0 }
      { s with m_lpSendData := Function.update s.m_lpSendData i (some d') }.delBuf (some p) d.nTotLen

/-- Session `i` goes on to `t`.  Where it lost its socket on the way, `closeSocket` has closed the
handle and cleared the session. -/
def setSession (s : Sends S) (i : S) (t : Session) : Sends S :=
  let u := { s with sess := Function.update s.sess i t }
  if (s.sess i).m_socket && !t.m_socket then u.clear i else u

/-- `CNWSocket::Send`. -/
def socketSend (s : Sends S) (i : S) (pMsg : ℤ) (nLen : ℕ) (pMem : ℤ) (pObj : Bool)
    (res : WSASendResult) : Sends S :=
  let lpSendData : SOCKETDATA S := ⟨pMem, i, nLen, some pMsg, pObj⟩
  match res with
  | .done | .pending => { s with inflight := lpSendData :: s.inflight }
  | .error queued =>
    { s with m_lpSendData := Function.update s.m_lpSendData i (some lpSendData) }.setSession i
      ((s.sess i).putRTSQueue queued)

-- `getUsedSession`, `newSockData` and `CNWSocket::Send`
def sendWith (s : Sends S) (pBuf : ℤ) (nLen : ℕ) (pObj : Bool) (i : S) (heap : Option ℤ)
    (res : WSASendResult) : Sends S :=
  if (s.sess i).used then
    match s.newSockData heap with
    | some (s, pMem) => s.socketSend i pBuf nLen pMem pObj res
    | none => s
  else s

/-- `CNWCommunicator::Send`. -/
def Send (s : Sends S) (pBuf : ℤ) (nLen : ℕ) (i : S) (heap : Option ℤ) (res : WSASendResult) :
    Sends S :=
  s.sendWith pBuf nLen false i heap res

/-- `CNWCommunicator::Send2`; the logger may be NULL. -/
def Send2 (s : Sends S) (pBuf : ℤ) (nLen : ℕ) (p : Bool) (i : S) (heap : Option ℤ)
    (res : WSASendResult) : Sends S :=
  s.sendWith pBuf nLen p i heap res

-- the completion of a send that moved no byte counts as failed
def failed (bSuccess : Bool) (bytesTrans : ℕ) : Bool := !bSuccess || bytesTrans == 0

/-- `comproc_sendComplete` for the descriptor `d`, which the system has given back. -/
def comproc_sendComplete (s : Sends S) (d : SOCKETDATA S) (bSuccess : Bool) (bytesTrans : ℕ)
    (queued : Bool) : Sends S :=
  if failed bSuccess bytesTrans && (s.sess d.lpClient).m_sockStatus .connected then
    s.setSession d.lpClient ((s.sess d.lpClient).socketShutdown queued)
  else
    let s :=
      if !failed bSuccess bytesTrans && d.pObj then { s with logged := d.pData :: s.logged } else s
    let s := s.delBuf d.pData (d.nTotLen+1)
    { s with m_lpSendData := Function.update s.m_lpSendData d.lpClient none }.returnSockData d.pMem

/-- The calls and the completions; `session` and `timeout` are what else happens to a session. -/
inductive Op (S : Type)
  | send (pBuf : ℤ) (nLen : ℕ) (i : S) (heap : Option ℤ) (res : WSASendResult)
  | send2 (pBuf : ℤ) (nLen : ℕ) (p : Bool) (i : S) (heap : Option ℤ) (res : WSASendResult)
  | sendComplete (d : SOCKETDATA S) (bSuccess : Bool) (bytesTrans : ℕ) (queued : Bool)
  | session (i : S) (e : Session.Event)
  | timeout (i : S) (expired queued : Bool)

def step (s : Sends S) : Op S → Option (Sends S)
  | .send pBuf nLen i heap res => some (s.Send pBuf nLen i heap res)
  | .send2 pBuf nLen p i heap res => some (s.Send2 pBuf nLen p i heap res)
  | .sendComplete d bSuccess bytesTrans queued =>
    if d ∈ s.inflight then
      some ({ s with inflight := s.inflight.erase d }.comproc_sendComplete d bSuccess bytesTrans queued)
    else none
  -- the sends have their own labels
  | .session _ (.sendFail _) | .session _ (.sendCompleteFail _) => none
  | .session i e => ((s.sess i).step e).map (s.setSession i)
  | .timeout i expired queued => some (s.setSession i ((s.sess i).timeout expired queued))

def start (sess : S → Session) (mgr : CSessionManager) : Sends S where
  sess := sess
  m_lpSendData := fun _ => none
  mgr := mgr
  held := []
  inflight := []
  freed := []
  logged := []

def leaksSend (s : Sends S) (i : S) (heap : Option ℤ) (res : WSASendResult) : Bool :=
  (s.sess i).used && (s.newSockData heap).isSome &&
    match res with
    | .error _ => true
    | _ => false

/-- The two branches that keep a descriptor for good: the hard error of WSASend, and the failed
completion that finds its session connected. -/
def leaks (s : Sends S) : Op S → Bool
  | .send _ _ i heap res | .send2 _ _ _ i heap res => s.leaksSend i heap res
  | .sendComplete d bSuccess bytesTrans _ =>
    failed bSuccess bytesTrans && (s.sess d.lpClient).m_sockStatus .connected
  | .session _ _ | .timeout _ _ _ => false

-- The descriptors that are out are those in flight and the `lost` ones.
def Accounted (s : Sends S) (lost : List ℤ) : Prop :=
  s.held.Perm (s.inflight.map SOCKETDATA.pMem ++ lost)

variable (s t : Sends S)

theorem clear_cases (i : S) : s.clear i = s ∨
    ∃ d p, s.m_lpSendData i = some d ∧ d.pData = some p ∧ s.clear i =
      { s with
        m_lpSendData := Function.update s.m_lpSendData i (some { d with pData := none, nTotLen := 0 })
        freed := (some p, d.nTotLen) :: s.freed } := by
  unfold clear
  cases hd : s.m_lpSendData i with
  | none => exact Or.inl rfl
  | some d =>
    cases hp : d.pData with
    | none =>
      left
      simp only [hp]
    | some p =>
      right
      refine ⟨d, p, rfl, hp, ?_⟩
      simp only [hp, delBuf]

@[simp] theorem setSession_held (i : S) (u : Session) : (s.setSession i u).held = s.held := by
  unfold setSession
  dsimp only
  split
  · rcases clear_cases { s with sess := Function.update s.sess i u } i with h | ⟨_, _, _, _, h⟩ <;>
      rw [h]
  · rfl

@[simp] theorem setSession_inflight (i : S) (u : Session) :
    (s.setSession i u).inflight = s.inflight := by
  unfold setSession
  dsimp only
  split
  · rcases clear_cases { s with sess := Function.update s.sess i u } i with h | ⟨_, _, _, _, h⟩ <;>
      rw [h]
  · rfl

omit [DecidableEq S] in
theorem newSockData_eq (heap : Option ℤ) (pMem : ℤ) (h : s.newSockData heap = some (t, pMem)) :
    t = { s with mgr := t.mgr, held := pMem :: s.held } := by
  unfold newSockData at h
  split at h
  · cases h
  · cases h
    rfl

theorem accounted_sendWith (lost : List ℤ) (h : s.Accounted lost) (pBuf : ℤ) (nLen : ℕ) (pObj : Bool)
    (i : S) (heap : Option ℤ) (res : WSASendResult) :
    ∃ lost', (s.sendWith pBuf nLen pObj i heap res).Accounted lost' ∧
      lost'.length = lost.length + (s.leaksSend i heap res).toNat := by
  unfold sendWith leaksSend
  by_cases hu : (s.sess i).used = true
  · rw [if_pos hu, hu, Bool.true_and]
    rcases hn : s.newSockData heap with _ | ⟨t, pMem⟩
    · exact ⟨lost, h, rfl⟩
    · have ht := newSockData_eq s t heap pMem hn
      have hfl : t.inflight = s.inflight := by
        rw [ht]
      have hnew : t.held.Perm (pMem :: (s.inflight.map SOCKETDATA.pMem ++ lost)) := by
        rw [ht]
        exact h.cons pMem
      cases res with
      | error queued =>
        refine ⟨pMem :: lost, ?_, rfl⟩
        unfold Accounted
        simp only [socketSend, setSession_held, setSession_inflight]
        rw [hfl]
        exact hnew.trans List.perm_middle.symm
      | done | pending =>
        refine ⟨lost, ?_, rfl⟩
        unfold Accounted
        simp only [socketSend, hfl, List.map_cons, List.cons_append]
        exact hnew
  · rw [if_neg hu]
    exact ⟨lost, h, by simp [hu]⟩

theorem accounted_sendComplete (lost : List ℤ) (h : s.Accounted lost) (d : SOCKETDATA S)
    (hd : d ∈ s.inflight) (bSuccess : Bool) (bytesTrans : ℕ) (queued : Bool) :
    ∃ lost', ({ s with inflight := s.inflight.erase d }.comproc_sendComplete d bSuccess bytesTrans
        queued).Accounted lost' ∧
      lost'.length = lost.length + (s.leaks (.sendComplete d bSuccess bytesTrans queued)).toNat := by
  have hsplit : s.held.Perm (d.pMem :: ((s.inflight.erase d).map SOCKETDATA.pMem ++ lost)) := by
    apply h.trans
    exact ((List.perm_cons_erase hd).map SOCKETDATA.pMem).append_right lost
  unfold comproc_sendComplete leaks
  split
  · rename_i hl
    refine ⟨d.pMem :: lost, ?_, by simp [hl]⟩
    unfold Accounted
    simp only [setSession_held, setSession_inflight]
    exact hsplit.trans List.perm_middle.symm
  · rename_i hl
    refine ⟨lost, ?_, by simp [hl]⟩
    have herase : (s.held.erase d.pMem).Perm ((s.inflight.erase d).map SOCKETDATA.pMem ++ lost) := by
      have he := hsplit.erase d.pMem
      rwa [List.erase_cons_head] at he
    unfold Accounted
    dsimp only [returnSockData, delBuf]
    split <;> exact herase

-- One step loses a descriptor where `leaks` says so, and nowhere else.
theorem accounted_step (lost : List ℤ) (op : Op S) (h : s.Accounted lost) (hs : s.step op = some t) :
    ∃ lost', t.Accounted lost' ∧ lost'.length = lost.length + (s.leaks op).toNat := by
  have hkeep (i : S) (u : Session) : (s.setSession i u).Accounted lost := by
    unfold Accounted
    rw [setSession_held, setSession_inflight]
    exact h
  cases op with
  | send pBuf nLen i heap res =>
    cases hs
    exact accounted_sendWith s lost h pBuf nLen false i heap res
  | send2 pBuf nLen p i heap res =>
    cases hs
    exact accounted_sendWith s lost h pBuf nLen p i heap res
  | sendComplete d bSuccess bytesTrans queued =>
    obtain ⟨hd, hs⟩ := Option.ite_none_right_eq_some.mp hs
    cases hs
    exact accounted_sendComplete s lost h d hd bSuccess bytesTrans queued
  | session i e =>
    have hmap : ((s.sess i).step e).map (s.setSession i) = some t := by
      cases e with
      | sendFail queued | sendCompleteFail queued => cases hs
      | _ => exact hs
    obtain ⟨u, _, rfl⟩ := Option.map_eq_some_iff.mp hmap
    exact ⟨lost, hkeep i u, rfl⟩
  | timeout i expired queued =>
    cases hs
    exact ⟨lost, hkeep i _, rfl⟩

-- Over a run the lost descriptors only grow, and they stay the same as long as no step leaks.
theorem accounted_run (lost : List ℤ) (ops : List (Op S)) (h : s.Accounted lost)
    (hr : Runs.runFrom step s ops = some t) :
    ∃ lost', t.Accounted lost' ∧ lost.length ≤ lost'.length ∧
      (lost'.length = lost.length ↔ Runs.Along step (fun u op => u.leaks op = false) s ops) := by
  induction ops generalizing s lost with
  | nil =>
    cases hr
    exact ⟨lost, h, le_refl _, iff_of_true rfl trivial⟩
  | cons op ops ih =>
    obtain ⟨u, hu, hr⟩ := (Runs.runFrom_cons_iff step s t op ops).mp hr
    obtain ⟨lost₁, h₁, hlen₁⟩ := accounted_step s u lost op h hu
    obtain ⟨lost₂, h₂, hle₂, hiff₂⟩ := ih u lost₁ h₁ hr
    refine ⟨lost₂, h₂, by omega, ?_⟩
    have halong : Runs.Along step (fun u op => u.leaks op = false) s (op :: ops) ↔
        s.leaks op = false ∧ Runs.Along step (fun u op => u.leaks op = false) u ops := by
      simp [Runs.Along, hu]
    rw [halong, ← hiff₂]
    cases hl : s.leaks op with
    | true =>
      rw [hl, Bool.toNat_true] at hlen₁
      simp only [Bool.true_eq_false, false_and, iff_false]
      omega
    | false =>
      rw [hl, Bool.toNat_false] at hlen₁
      simp only [true_and]
      omega

/-- In every run of sends, completions and other events, as many descriptors are out as sends are
outstanding exactly when no send ended in a hard error and no completion failed on a session that was
still connected. -/
theorem conserved_iff_no_leak (sess : S → Session) (mgr : CSessionManager) (ops : List (Op S))
    (t : Sends S) (hr : Runs.runFrom step (start sess mgr) ops = some t) :
    t.held.length = t.inflight.length ↔
      Runs.Along step (fun s op => s.leaks op = false) (start sess mgr) ops := by
  obtain ⟨lost, h, -, hiff⟩ := accounted_run (start sess mgr) t [] ops (List.Perm.refl []) hr
  have hlen : t.held.length = t.inflight.length + lost.length := by
    have hl := h.length_eq
    rwa [List.length_append, List.length_map] at hl
  rw [← hiff, hlen, List.length_nil]
  omega

-- Two sends go out and come back, the second after its session was shut down.
theorem conserved_two_sends : ∃ t : Sends Unit,
    Runs.runFrom step (start (fun _ => .prepared) ⟨.alloc 1, .alloc 2, [0]⟩)
      [.session () (.accept true true 1 true), .send 40 7 () none .pending,
        .send2 80 3 true () none .done, .sendComplete ⟨1, (), 3, some 80, true⟩ true 3 true,
        .session () (.close true), .sendComplete ⟨0, (), 7, some 40, false⟩ false 0 true] = some t ∧
    t.freed = [(some 40, 8), (some 80, 4)] ∧ t.held.length = t.inflight.length := by
  refine ⟨_, rfl, rfl, ?_⟩
  exact (conserved_iff_no_leak (fun _ => .prepared) ⟨.alloc 1, .alloc 2, [0]⟩
    [.session () (.accept true true 1 true), .send 40 7 () none .pending,
      .send2 80 3 true () none .done, .sendComplete ⟨1, (), 3, some 80, true⟩ true 3 true,
      .session () (.close true), .sendComplete ⟨0, (), 7, some 40, false⟩ false 0 true] _ rfl).mpr
    (by decide)

/-- One send that WSASend refuses: no completion will come, and the descriptor stays out. -/
theorem not_conserved_hard_error : ¬∀ (ops : List (Op Unit)) (t : Sends Unit),
    Runs.runFrom step (start (fun _ => .prepared) ⟨.alloc 1, .alloc 2, [0]⟩) ops = some t →
    t.held.length = t.inflight.length := by
  intro h
  have hlen := h [.session () (.accept true true 1 true), .send 40 7 () none (.error true)] _ rfl
  exact absurd hlen (by decide)

end Sends
end Leviathan.Communicator
