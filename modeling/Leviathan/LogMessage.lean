import Leviathan.Buffers
import Leviathan.SizeClass

/-! The entry points of the logger that put a message into the queue (comLogger.cpp), and the size class
under which `CSTLogger::GetQueue` (comCore.cpp) releases it. -/
namespace Leviathan.LogMessage

open Buffers

/-- What a logging call looks at; `setHeader` is the text that `setHeader` writes for a level. -/
structure Logger where
  isLogEnable : Bool
  m_nLogLevel : ℤ
  setHeader : ℤ → CString

/-- Whether `newBuf` answers NULL, and what lies in a new buffer and in the arrays of a call. -/
structure Env where
  isNull : Bool
  heap : ℕ → UInt8
  stack : ℕ → UInt8

/-- A buffer in the queue, with the size that was passed to `newBuf`. -/
structure Queued where
  nSize : ℤ
  pBuf : List UInt8

def maxLogBufLen : ℕ := 8192

def lenLogHeader : ℕ := 64

-- " %s "
def spaced (s : List UInt8) : List UInt8 := lit " " ++ s ++ lit " "

def packetHeader (first second : String) (nSocket nPacketSize nKind : ℤ) : List UInt8 :=
  lit first ++ decimal nSocket ++ lit second ++ decimal nPacketSize ++ lit "] PKIdx[" ++
  decimal nKind ++ lit "] "

/-- `fmtStr[nKind]` with its three arguments. -/
def fmtStr (nKind nSocket nPacketSize : ℤ) : List UInt8 :=
  if nKind = 0 then packetHeader " nSIdx[" "] Send [" nSocket nPacketSize nKind
  else if nKind = 1 then packetHeader " nSIdx[" "] Recv [" nSocket nPacketSize nKind
  else if nKind = 2 then packetHeader " nSIdx[" "] send Queue [" nSocket nPacketSize nKind
  else if nKind = 3 then packetHeader " nSIdx[" "] recv Queue [" nSocket nPacketSize nKind
  else packetHeader " Undefind nkind[" "] [" nSocket nPacketSize nKind

/-- What `WritePacket` prints behind the header. -/
def packetText (nKind nSocket nPacketSize : ℤ) : List UInt8 :=
  fmtStr (if nKind < 0 ∨ 4 < nKind then 4 else nKind) nSocket nPacketSize

section Model

variable (kind : Vsnprintf) (env : Env) (lg : Logger)

/-- The tests at the start of a call with a level. -/
def ifActive (level : ℤ) (proc : Except Fault (Option Queued)) : Except Fault (Option Queued) :=
  if lg.isLogEnable = false then .ok none
  else if level < lg.m_nLogLevel then .ok none
  else proc

def localArray (n : ℕ) : List UInt8 := (List.range n).map env.stack

/-- `newBuf`; the code of a size below 1 leaves the table of pools. -/
def newBuf (nSize : ℤ) : Except Fault (Option (List UInt8)) :=
  if 1 ≤ nSize then .ok (if env.isNull then none else some ((List.range nSize.toNat).map env.heap))
  else .error .outOfBounds

/-- The line end and the NUL behind a message. -/
def endLine (pBuf : List UInt8) (totlen : ℤ) : Except Fault (List UInt8) := do
  let pBuf ← store pBuf totlen [10]
  store pBuf (totlen+1) [0]

/-- `setHeader` into an array of `n` bytes, and the text `s` behind it. -/
def openHeader (n : ℕ) (level : ℤ) (s : List UInt8) : Except Fault (List UInt8) := do
  let header ← strcpy (localArray env n) 0 (lg.setHeader level).chars
  strcpy header (lg.setHeader level).strlen s

-- the header of `Log`, with the caller's text behind it
def logHeader (level : ℤ) : Option CString → Except Fault (List UInt8)
  | none => strcpy (localArray env maxLogBufLen) 0 (lg.setHeader level).chars
  | some header => openHeader env lg maxLogBufLen level header.chars

def logTail (pBuf : List UInt8) (off : ℤ) : Option CString → Except Fault (List UInt8)
  | none => .ok pBuf
  | some tail => strcpy pBuf off tail.chars

/-- The length of a text that may be left out. -/
def optLen (s : Option CString) : ℕ := (s.map CString.strlen).getD 0

/-- `Log`. -/
def log (level : ℤ) (body : CString) (header tail : Option CString) (bToFile : Bool) :
    Except Fault (Option Queued) :=
  ifActive lg level do
    let headerBuf ← logHeader env lg level header
    let headerLen := i32 ((lg.setHeader level).strlen+i32 (optLen header))
    let bodyLen := i32 body.strlen
    let totlen := i32 (i32 (headerLen+bodyLen)+i32 (optLen tail))
    match ← newBuf env (i32 (totlen+2)) with
    | none => return none
    | some pBuf =>
      let pBuf ← strcpy pBuf 0 (← text headerBuf)
      let pBuf ← strcpy pBuf headerLen body.chars
      let pBuf ← logTail pBuf (headerLen+bodyLen) tail
      let pBuf ← endLine pBuf totlen
      return if bToFile then none else some ⟨i32 (totlen+2), pBuf⟩

/-- The calls with a format: `sFormat` is printed behind the header, and `ap` makes the message of the
two. -/
def putFormat (level : ℤ) (sFormat : List UInt8) (ap : List UInt8 → CString) :
    Except Fault (Option Queued) :=
  ifActive lg level do
    let header ← openHeader env lg 512 level sFormat
    let (msgBuf, nLen) ← vsnprintf kind (localArray env maxLogBufLen) (maxLogBufLen-1)
      (ap (← text header)).chars
    match ← newBuf env (i32 (nLen+2)) with
    | none => return none
    | some pBuf =>
      let pBuf ← strcpy pBuf 0 (← text msgBuf)
      let pBuf ← endLine pBuf nLen
      return some ⟨i32 (nLen+2), pBuf⟩

/-- `PutLogQueue(int, const char *, ...)`. -/
def putLogQueue (level : ℤ) (szFormat : CString) (ap : List UInt8 → CString) :
    Except Fault (Option Queued) :=
  putFormat kind env lg level (spaced szFormat.chars) ap

/-- `__debugLog`: " %s, %d, %s ". -/
def debugLog (level : ℤ) (szFunc : CString) (nLine : ℤ) (szFormat : CString)
    (ap : List UInt8 → CString) : Except Fault (Option Queued) :=
  putFormat kind env lg level
    (spaced (szFunc.chars ++ lit ", " ++ decimal nLine ++ lit ", " ++ szFormat.chars)) ap

/-- `PutLogQueue(int, TCHAR *)`. -/
def putLogQueueBody (level : ℤ) (pBody : CString) : Except Fault (Option Queued) :=
  ifActive lg level do
    let header ← strcpy (localArray env 512) 0 (lg.setHeader level).chars
    let nLen2 : ℤ := (lg.setHeader level).strlen
    let nLen := i32 (i32 pBody.strlen+nLen2)
    match ← newBuf env (i32 (nLen+2)) with
    | none => return none
    | some pBuf =>
      let pBuf ← strcpy pBuf 0 (← text header)
      let pBuf ← strcpy pBuf nLen2 pBody.chars
      let pBuf ← endLine pBuf nLen
      return some ⟨i32 (nLen+2), pBuf⟩

/-- `PutLogQueue(TCHAR *)`. -/
def putLogQueueData (pData : CString) : Except Fault (Option Queued) :=
  if lg.isLogEnable = false then .ok none
  else do
    let nLen := i32 pData.strlen
    match ← newBuf env (i32 (nLen+1)) with
    | none => return none
    | some pBuf =>
      let pBuf ← strcpy pBuf 0 pData.chars
      let pBuf ← store pBuf (nLen+1) [0]
      return some ⟨i32 (nLen+1), pBuf⟩

/-- The loop of `WritePacket` from byte `i` on, `k` rounds. -/
def packetLoop (szBuffer : List UInt8) : ℕ → ℕ → ℤ → List UInt8 → Except Fault (List UInt8)
  | 0, _, _, pBuf => .ok pBuf
  | k+1, i, nLen, pBuf =>
    match szBuffer[i]? with
    | none => .error .outOfBounds
    | some b => do
      let pBuf ← strcpy pBuf nLen (hexByte b ++ [32])
      packetLoop szBuffer k (i+1) (nLen+3) pBuf

/-- What `WritePacket` writes into the buffer for the queue. -/
def fillPacket (szBuffer header : List UInt8) (nPacketSize nLen nTotLen : ℤ) (pBuf : List UInt8) :
    Except Fault (List UInt8) := do
  let pBuf ← strcpy pBuf 0 (← text header)
  let pBuf ← packetLoop szBuffer (nPacketSize%2^32).toNat 0 nLen pBuf
  endLine pBuf nTotLen

/-- `WritePacket`; `szBuffer` is all that can be read from its address on. -/
def writePacket (nLevel nKind nSocket : ℤ) (szBuffer : List UInt8) (nPacketSize : ℤ) :
    Except Fault (Option Queued) :=
  ifActive lg nLevel do
    let fmt := packetText nKind nSocket nPacketSize
    let header ← openHeader env lg lenLogHeader nLevel fmt
    let nLen : ℤ := (lg.setHeader nLevel).strlen+fmt.length
    let nLCompare := i32 (← text szBuffer).length
    let nTotLen := i32 (nLen+nLCompare)
    match ← newBuf env (i32 (nTotLen+2)) with
    | none => return none
    | some pBuf =>
      let pBuf ← fillPacket szBuffer header nPacketSize nLen nTotLen pBuf
      return some ⟨i32 (nTotLen+2), pBuf⟩

inductive Call
  | log (level : ℤ) (body : CString) (header tail : Option CString) (bToFile : Bool)
  | putLogQueue (level : ℤ) (szFormat : CString) (ap : List UInt8 → CString)
  | putLogQueueBody (level : ℤ) (pBody : CString)
  | putLogQueueData (pData : CString)
  | debugLog (level : ℤ) (szFunc : CString) (nLine : ℤ) (szFormat : CString)
    (ap : List UInt8 → CString)
  | writePacket (nLevel nKind nSocket : ℤ) (szBuffer : List UInt8) (nPacketSize : ℤ)

def run : Call → Except Fault (Option Queued)
  | .log level body header tail bToFile => log env lg level body header tail bToFile
  | .putLogQueue level szFormat ap => putLogQueue kind env lg level szFormat ap
  | .putLogQueueBody level pBody => putLogQueueBody env lg level pBody
  | .putLogQueueData pData => putLogQueueData env lg pData
  | .debugLog level szFunc nLine szFormat ap => debugLog kind env lg level szFunc nLine szFormat ap
  | .writePacket nLevel nKind nSocket szBuffer nPacketSize =>
    writePacket env lg nLevel nKind nSocket szBuffer nPacketSize

/-- The size that `GetQueue` passes to `delBuf` for a text. -/
def delSize (s : List UInt8) : ℤ := i32 (i32 s.length+1)

end Model

/-- The logger takes messages of the level. -/
def Active (lg : Logger) (level : ℤ) : Prop := lg.isLogEnable = true ∧ lg.m_nLogLevel ≤ level

/-- The text in a queued buffer ends within the size, and is released to the class of the buffer. -/
structure Released (m : Queued) : Prop where
  within : (m.pBuf.length : ℤ) = m.nSize
  released : ∃ s, text m.pBuf = .ok s ∧ getIndex (delSize s).toNat = getIndex m.nSize.toNat

/-- Whatever `newBuf` answers and the buffers hold, the call stays in its buffers, and what it queues is
released to the right class. -/
def Safe (kind : Vsnprintf) (lg : Logger) (c : Call) : Prop :=
  ∀ env, ∃ q, run kind env lg c = .ok q ∧ ∀ m, q = some m → Released m

end Leviathan.LogMessage
