import Leviathan.SendData

/-! `broadcastToAllSession` (NWCommunicator.cpp) hands one buffer to a send for every session of the
connect list, and each completion decides for itself whether to release it. -/
namespace Leviathan.Communicator.Sends

variable {S : Type} [DecidableEq S]

/-- One send completion, as the queue reports it. -/
structure Completion (S : Type) where
  d : SOCKETDATA S
  bSuccess : Bool
  bytesTrans : ℕ
  queued : Bool

def Completion.op (c : Completion S) : Op S := .sendComplete c.d c.bSuccess c.bytesTrans c.queued

def Completion.failed (c : Completion S) : Bool := Sends.failed c.bSuccess c.bytesTrans

-- how often `delBuf` was called for this buffer
def released (s : Sends S) (pBuf : ℤ) : ℕ := s.freed.countP (fun f => f.1 = some pBuf)

end Leviathan.Communicator.Sends
