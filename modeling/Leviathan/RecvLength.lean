import Leviathan.CTypes
import Leviathan.Wire

/-! Receiving length-prefixed packets: `recvProc_length` and `MakePacketHeader` (comSocket.cpp), the
receive half of `CNWSocket` (NWSocket.cpp) and `comproc_recvComplete` (NWCommunicator.cpp). -/
namespace Leviathan

namespace Recv

open Wire

def PACKET_HEADER_SIZE : ℕ := 4

/-- The bytes `MakePacketHeader` writes: `nDataSize` and the message. -/
def packet (msg : List UInt8) : List UInt8 := bytesLE PACKET_HEADER_SIZE msg.length ++ msg

-- `none` is the return value 0: the packet does not fit the destination
def makePacketHeader (msg : List UInt8) (nBufSize : ℕ) : Option (List UInt8) :=
  if PACKET_HEADER_SIZE+msg.length > nBufSize then none else some (packet msg)

/-- The stream of the messages. -/
def stream (msgs : List (List UInt8)) : List UInt8 := msgs.flatMap packet

/-- The receive descriptor and the fields of the socket that go with it. -/
structure CNWSocket where
  -- the first four bytes of the SOCKETDATA: the low half of OVERLAPPED.Internal
  Internal : ℕ
  pData : List UInt8
  nTotLen : ℕ
  nCurLen : ℕ
  m_nAddLen : ℕ
  -- the WSABUF of the outstanding WSARecv, as an offset in `pData` and a length
  wsaBuf : ℕ × ℕ

def STATUS_PENDING : ℕ := 0x103
def STATUS_SUCCESS : ℕ := 0

namespace CNWSocket

def recvPacket (s : CNWSocket) (nRecvSize : ℕ) : CNWSocket :=
  { s with Internal := STATUS_PENDING, nCurLen := s.m_nAddLen, wsaBuf := (s.m_nAddLen, nRecvSize) }

-- the buffer is there from the first call on
def bindRecv (s : CNWSocket) : CNWSocket :=
  { s with m_nAddLen := 0, pData := List.replicate s.nTotLen 0, Internal := 0 }.recvPacket s.nTotLen

/-- After `doAccept`: the first `bindRecv` takes a buffer of `g_nRecvBufSize` bytes. -/
def accepted (g_nRecvBufSize : ℕ) : CNWSocket :=
  (CNWSocket.mk 0 [] g_nRecvBufSize 0 0 (0, 0)).bindRecv

def changeRecvBuf (s : CNWSocket) (nNewSize : ℕ) : Except Fault CNWSocket :=
  if s.nCurLen ≤ nNewSize ∧ s.nCurLen ≤ s.pData.length then
    .ok { s with
      pData := s.pData.take s.nCurLen ++ List.replicate (nNewSize-s.nCurLen) 0
      m_nAddLen := s.nCurLen
      nTotLen := nNewSize }
  else .error .outOfBounds

-- `SETREMAINDATA(pData+p, nSize)`
def setRemainData (s : CNWSocket) (p nSize : ℕ) : Except Fault CNWSocket :=
  match slice s.pData p nSize with
  | some rest =>
    .ok { s with pData := rest ++ List.replicate (s.nTotLen-nSize) 0, m_nAddLen := nSize }
  | none => .error .outOfBounds

/-- WSARecv completes with the bytes `chunk`; `comproc_recvComplete` then sets `nCurLen`. -/
def completed (s : CNWSocket) (chunk : List UInt8) : Except Fault CNWSocket :=
  match writeAt s.pData s.wsaBuf.1 chunk with
  | some buf => .ok { s with Internal := STATUS_SUCCESS, pData := buf, nCurLen := chunk.length }
  | none => .error .outOfBounds

end CNWSocket

/-- What `fpProcess` is given: `nSize` bytes from `p` on. -/
def process (buf : List UInt8) (p nSize : ℕ) : Except Fault (List UInt8) :=
  match slice buf p nSize with
  | some bs => .ok bs
  | none => .error .outOfBounds

-- `((stPacketHeader *)p)->nDataSize`
def header (buf : List UInt8) (p : ℕ) : Except Fault ℕ :=
  match slice buf p PACKET_HEADER_SIZE with
  | some bs => .ok (ofBytesLE bs)
  | none => .error .outOfBounds

/-- The packet loop, with the header of the packet at `pPacket` already read: how many bytes are
processed in all and what `fpProcess` was given. -/
def packetLoop (buf : List UInt8) (nCurLen : ℕ) :
    ℕ → ℕ → ℕ → ℕ → Except Fault (ℕ × List (List UInt8))
  | 0, _, _, _ => .error .diverges
  | fuel+1, nProcCompleteLen, pPacket, nDataSize =>
    let nPacketLen := u32 (PACKET_HEADER_SIZE+nDataSize)
    if u32 (nProcCompleteLen+nPacketLen) ≤ nCurLen then do
      let body := pPacket+PACKET_HEADER_SIZE
      let payload ← process buf body nDataSize
      let next ← header buf (body+nDataSize)
      let (nDone, calls) ←
        packetLoop buf nCurLen fuel (u32 (nProcCompleteLen+nPacketLen)) (body+nDataSize) next
      return (nDone, payload :: calls)
    else return (nProcCompleteLen, [])

/-- `recvProc_length`; the first header is read from the SOCKETDATA itself, not from its buffer. -/
def recvProc_length (s : CNWSocket) : Except Fault (CNWSocket × List (List UInt8)) := do
  let nPacketLen := u32 (PACKET_HEADER_SIZE+s.Internal)
  if s.nTotLen < nPacketLen then
    let s' ← s.changeRecvBuf (u32 (nPacketLen+1024))
    return (s'.recvPacket (u32Sub nPacketLen s.nCurLen), [])
  else
    let (nProcCompleteLen, calls) ← packetLoop s.pData s.nCurLen (s.nCurLen+1) 0 0 s.Internal
    let nRemainLen := u32Sub s.nCurLen nProcCompleteLen
    if nRemainLen ≠ 0 then
      let s' ← s.setRemainData nProcCompleteLen nRemainLen
      return (s'.recvPacket (u32Sub s.nTotLen nRemainLen), calls)
    else return (s.bindRecv, calls)

def comproc_recvComplete (s : CNWSocket) (chunk : List UInt8) :
    Except Fault (CNWSocket × List (List UInt8)) := do
  recvProc_length (← s.completed chunk)

/-- The payloads handed to `fpProcess` over a list of completions. -/
def receive : CNWSocket → List (List UInt8) → Except Fault (List (List UInt8))
  | _, [] => .ok []
  | s, chunk :: chunks => do
    let (s', calls) ← comproc_recvComplete s chunk
    let more ← receive s' chunks
    return calls ++ more

/-- Every completion brings at least one byte and at most what was asked for. -/
def Admissible : CNWSocket → List (List UInt8) → Prop
  | _, [] => True
  | s, chunk :: chunks =>
    chunk ≠ [] ∧ chunk.length ≤ s.wsaBuf.2 ∧
      ∀ s' calls, comproc_recvComplete s chunk = .ok (s', calls) → Admissible s' chunks

end Recv

end Leviathan
