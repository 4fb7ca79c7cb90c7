import Leviathan.CStrings
import Leviathan.FileLines
import Leviathan.RecvLength

/-! Receiving packets whose length is spelled in decimal: `parsing_stringSize` and `recvProc_string`
(comSocket.cpp) under `comproc_recvComplete`. -/
namespace Leviathan.RecvString

open Recv

def charOf (b : UInt8) : Char := Char.ofNat b.toNat

/-- `%d` as bytes. -/
def decimal (n : ℕ) : List UInt8 := (Nat.toDigits 10 n).map (fun c => c.toNat.toUInt8)

def comma : UInt8 := 44

-- "10,dataString"
def packet (payload : List UInt8) : List UInt8 := decimal payload.length ++ comma :: payload

def stream (payloads : List (List UInt8)) : List UInt8 := payloads.flatMap packet

/-- `parsing_stringSize` with `g_pEndDelimeter` ",": the header length and `*pPacketLen`, or `none` for
the return value 0.  A buffer without a NUL is searched past its end, and `szSize` has 32 bytes. -/
def parsing_stringSize (pPacket : List UInt8) : Except Fault (Option (ℕ × ℕ)) :=
  match FileLines.ehstrstr (pPacket.takeWhile (fun b => b ≠ 0)) [comma] with
  | none => if 0 ∈ pPacket then .ok none else .error .outOfBounds
  | some nLen =>
    if nLen < 32 then
      let nSize := atoi ((pPacket.take nLen).map charOf)
      .ok (some (nLen+1, ((nLen+1+nSize)%2^32).toNat))
    else .error .outOfBounds

/-- One call of `fpProcess`; the pointer is counted from NULL. -/
structure Call where
  pPacket : ℕ
  nDataSize : ℕ
  deriving DecidableEq

/-- What can be read through it: nothing, unless nothing is to be read. -/
def Call.data (c : Call) : Option (List UInt8) := if c.nDataSize = 0 then some [] else none

/-- The packet loop.  `pPacket` starts as NULL, and the next header is read at the start of the buffer
again; the bytes processed in all and the calls. -/
def packetLoop (pData : List UInt8) (nCurLen : ℕ) :
    ℕ → ℕ → ℕ → ℕ → ℕ → Except Fault (ℕ × List Call)
  | 0, _, _, _, _ => .error .diverges
  | fuel+1, nProcCompleteLen, pPacket, headerLen, nPacketLen =>
    if u32 (nProcCompleteLen+nPacketLen) ≤ nCurLen then do
      let nDataSize := u32Sub nPacketLen headerLen
      let call := Call.mk (pPacket+headerLen) nDataSize
      let next := pPacket+headerLen+nDataSize
      if next ≠ 0 then
        match ← parsing_stringSize pData with
        | none => return (u32 (nProcCompleteLen+nPacketLen), [call])
        | some (headerLen, nPacketLen') =>
          let (nDone, calls) ← packetLoop pData nCurLen fuel (u32 (nProcCompleteLen+nPacketLen)) next
            headerLen nPacketLen'
          return (nDone, call :: calls)
      else return (u32 (nProcCompleteLen+nPacketLen), [call])
    else return (nProcCompleteLen, [])

-- RECV_END_PROC
def recvEnd (s : CNWSocket) (nProcCompleteLen : ℕ) (calls : List Call) :
    Except Fault (CNWSocket × List Call) := do
  let nRemainLen := u32Sub s.nCurLen nProcCompleteLen
  if nRemainLen ≠ 0 then
    let s' ← s.setRemainData nProcCompleteLen nRemainLen
    return (s'.recvPacket (u32Sub s.nTotLen nRemainLen), calls)
  else return (s.bindRecv, calls)

def recvProc_string (s : CNWSocket) : Except Fault (CNWSocket × List Call) := do
  match ← parsing_stringSize s.pData with
  | none => recvEnd s 0 []
  | some (headerLen, nPacketLen) =>
    if s.nTotLen < nPacketLen then
      let s' ← s.changeRecvBuf (u32 (nPacketLen+1024))
      return (s'.recvPacket (u32Sub nPacketLen s.nCurLen), [])
    else
      let (nProcCompleteLen, calls) ←
        packetLoop s.pData s.nCurLen (s.nCurLen+1) 0 0 headerLen nPacketLen
      recvEnd s nProcCompleteLen calls

def comproc_recvComplete (s : CNWSocket) (chunk : List UInt8) :
    Except Fault (CNWSocket × List Call) := do
  recvProc_string (← s.completed chunk)

/-- The calls of `fpProcess` over a list of completions. -/
def receive : CNWSocket → List (List UInt8) → Except Fault (List Call)
  | _, [] => .ok []
  | s, chunk :: chunks => do
    let (s', calls) ← comproc_recvComplete s chunk
    let more ← receive s' chunks
    return calls ++ more

/-- Every completion brings at least one byte and at most what was asked for. -/
def Admissible : CNWSocket → List (List UInt8) → Prop
  | _, [] => True
  | s, chunk :: chunks =>
    chunk ≠ [] ∧ chunk.length ≤ s.wsaBuf.2 ∧
      ∀ s' calls, comproc_recvComplete s chunk = .ok (s', calls) → Admissible s' chunks

/-- The completions hand out the payloads, in order and with their lengths. -/
def Delivers (s : CNWSocket) (chunks payloads : List (List UInt8)) : Prop :=
  ∃ calls, receive s chunks = .ok calls ∧
    calls.map (fun c => (c.data, c.nDataSize)) = payloads.map (fun p => (some p, p.length))

end Leviathan.RecvString
