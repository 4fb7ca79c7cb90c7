import Leviathan.CTypes

/-! How `CNWCommunicator` (NWCommunicator.cpp) and `CNWSocket` (NWSocket.cpp) close a connection.
The sessions of the pool do not touch each other's data, so the state is a family of sessions. -/
namespace Leviathan.Communicator

inductive SockStatus
  | accepted
  | connected
  | closeTimeout
  | closeNormal
  deriving DecidableEq

/-- One session with what the system holds of it: its slot in the pool, its entries in the connect
list, the OP_CLOSE completions that wait for it, and whether an AcceptEx is outstanding on it.
`posted` and `closed` count the OP_CLOSE posted and processed since the last `doAccept`. -/
structure Session where
  -- false for INVALID_SOCKET
  m_socket : Bool
  m_sockStatus : SockStatus → Bool
  used : Bool
  listed : ℕ
  waiting : ℕ
  armed : Bool
  posted : ℕ
  closed : ℕ

namespace Session

def setSocketStatus (s : Session) (st : SockStatus) : Session :=
  { s with m_sockStatus := Function.update s.m_sockStatus st true }

def delSocketStatus (s : Session) (st : SockStatus) : Session :=
  { s with m_sockStatus := Function.update s.m_sockStatus st false }

-- `putRTSQueue(OP_CLOSE, this)`; it does nothing when the queue refuses
def putRTSQueue (s : Session) (queued : Bool) : Session :=
  if queued then { s with waiting := s.waiting+1, posted := s.posted+1 } else s

def closeSocket (s : Session) : Session :=
  if s.m_socket then { s with m_socket := false }.delSocketStatus .connected else s

def socketShutdown (s : Session) (queued : Bool) : Session :=
  if s.m_sockStatus .connected then
    let s := s.delSocketStatus .connected
    if queued then s.putRTSQueue true else s.closeSocket
  else s

-- an AcceptEx needs a socket to accept on
def bindAccept (s : Session) : Session := { s with armed := s.armed || s.m_socket }

/-- `comproc_accept`.  The connection begins with `doAccept`, which can only succeed when there is a
socket to register; index 0 of the connect list counts as a failure, -1 does not. -/
def comproc_accept (s : Session) (doAccept bindRecv : Bool) (nAddIdx : ℤ) (queued : Bool) : Session :=
  let s := { s with armed := false, posted := 0, closed := 0 }.setSocketStatus .connected
  if doAccept && s.m_socket then
    if bindRecv then
      let s := if nAddIdx = -1 then s else { s with listed := s.listed+1 }
      if nAddIdx ≠ 0 then s else s.socketShutdown queued
    -- `RecvPacket` has shut the session down already
    else (s.socketShutdown queued).socketShutdown queued
  else s

def comproc_close (s : Session) : Session :=
  let s := { s with waiting := s.waiting-1, closed := s.closed+1 }
  -- procAtonceClose
  let s := if s.m_sockStatus .accepted then { s with listed := s.listed-1 } else s
  let s := s.closeSocket
  let s := if s.m_sockStatus .accepted then { s with used := false } else s
  if s.m_sockStatus .accepted then s.bindAccept else s

/-- What can happen to one session.  The Booleans and the index are what the system calls answer. -/
inductive Event
  | accept (doAccept bindRecv : Bool) (nAddIdx : ℤ) (queued : Bool)
  | recvFail (queued : Bool)
  -- a send to this session or to all, and a hard error from WSASend
  | sendFail (queued : Bool)
  | sendCompleteFail (queued : Bool)
  | close (queued : Bool)
  | closeComplete

def step (s : Session) : Event → Option Session
  | .accept doAccept bindRecv nAddIdx queued =>
    if s.armed then some (s.comproc_accept doAccept bindRecv nAddIdx queued) else none
  | .recvFail queued => some (s.socketShutdown queued)
  | .sendFail queued =>
    -- `Send` and `Send2` look at the slot, `broadcastToAllSession` at the list
    if s.used ∨ 0 < s.listed then some (s.putRTSQueue queued) else none
  | .sendCompleteFail queued =>
    some (if s.m_sockStatus .connected then s.socketShutdown queued else s)
  | .close queued =>
    some (if s.used then (s.setSocketStatus .closeNormal).socketShutdown queued else s)
  | .closeComplete => if 0 < s.waiting then some s.comproc_close else none

-- the body of the loop of `timeoutProcess`
def timeout (s : Session) (expired queued : Bool) : Session :=
  if 0 < s.listed ∧ expired then (s.setSocketStatus .closeTimeout).socketShutdown queued else s

/-- A session of `prepareAccept`. -/
def prepared : Session where
  m_socket := true
  m_sockStatus := fun st => st = .accepted
  used := true
  listed := 0
  waiting := 0
  armed := true
  posted := 0
  closed := 0

end Session

inductive Act (S : Type)
  | event (i : S) (e : Session.Event)
  | timeoutProcess (expired queued : S → Bool)

variable {S : Type} [DecidableEq S]

def step (s : S → Session) : Act S → Option (S → Session)
  | .event i e => ((s i).step e).map (Function.update s i)
  | .timeoutProcess expired queued => some (fun i => (s i).timeout (expired i) (queued i))

def start : S → Session := fun _ => .prepared

/-- At most one OP_CLOSE is posted, and at most one processed, for each connection. -/
def ClosedOnce (s : S → Session) : Prop := ∀ i, (s i).posted ≤ 1 ∧ (s i).closed ≤ 1

end Leviathan.Communicator
