import Leviathan.LogKept
import Leviathan.LoggerCommands
import Leviathan.QueueOrder

/-! From the threads that log to the files (comLogger.cpp, comCore.cpp): `PutLogQueue` pushes a text,
and the writer thread goes round in `loggerLoop`, where `IsCommand` carries out the commands,
`GetQueue` and `porcLoggerDisable` hand the texts to `LogPrint`, and `TimeProc` changes the files.  One
step for each access to the flag, and for each call of a queue and each use of the files: no call of
`push` or `pop` of a queue overlaps another one, `procLoggerEnable` of the thread in `initLogger` overlaps
none of the writer's steps, and the allocations of rings succeed. -/
namespace Leviathan.LogDelivery

open LogRotation (System OpenCalls DeleteCalls Clock stepOk)

open LoggerCommands (Code)

/-- Where the writer thread stands. -/
inductive Writer
  | command
  -- in the loop of `porcLoggerDisable`, and behind it
  | drain
  | close
  -- in the loop of `GetQueue`
  | queue
  | time
  deriving DecidableEq

/-- A text that the writer has popped: whether there was an open file for it, and the loop. -/
structure Taken where
  text : List Char
  isOpen : Bool
  isDrained : Bool

-- `accepted` records what was pushed, `taken` what was popped
structure State (P : Type) where
  sys : System
  isLogEnable : Bool
  -- a text that a thread is about to push
  callers : P → Option (List Char)
  m_sLogQueue : CQueueS (List Char)
  m_pComandList : CQueueS Code
  writer : Writer
  accepted : List (List Char)
  taken : List Taken

inductive Act (P : Type)
  -- the test of the flag in `PutLogQueue`
  | putLogQueue (p : P) (pBuf : List Char)
  | putQueue (p : P)
  -- the two halves of `setLoggerEnable` and `setLoggerDisable`
  | setLogFlag (isLogEnable : Bool)
  | pushCommand (c : Code)
  -- `procLoggerEnable` of the thread that calls `initLogger`
  | initLogger (calls : OpenCalls) (pushed : Bool)
  | tick (now : Clock)
  | timeElsewhere
  | write (calls : OpenCalls) (del : DeleteCalls) (pushed : Bool)

section Model

variable {P : Type} (gmtime : ℕ → DateTime.STDTime) (addr : ℕ → ℤ)

/-- A step of the files. -/
def onFiles (s : State P) (a : LogRotation.Act) : Option (State P) :=
  (stepOk gmtime addr s.sys a).map (fun sys => { s with sys })

/-- `procLoggerEnable`. -/
def procLoggerEnable (s : State P) (calls : OpenCalls) (pushed : Bool) : Option (State P) :=
  if s.isLogEnable then some s
  else (onFiles gmtime addr s (.enable calls pushed)).map
    (fun t => { t with isLogEnable := !s.sys.isListed && pushed })

/-- There is a file for `LogPrint`. -/
def isWritable (s : System) : Bool := s.logger.m_hFile.isSome && s.logger.isLogOpen

/-- A pass of the two loops: the text is printed and its buffer released. -/
def handle (s : State P) (pData : List Char) (isDrained : Bool) : Option (State P) :=
  (onFiles gmtime addr s (.print pData)).map
    (fun t => { t with taken := t.taken ++ [⟨pData, isWritable s.sys, isDrained⟩] })

/-- One step of the writer thread. -/
def write (s : State P) (calls : OpenCalls) (del : DeleteCalls) (pushed : Bool) :
    Option (State P) :=
  match s.writer with
  | .command =>
    match s.m_pComandList.pop with
    | .error _ => none
    | .ok (m_pComandList, none) =>
      some { s with m_pComandList, writer := if s.sys.isListed then .queue else .time }
    | .ok (m_pComandList, some .enable) =>
      procLoggerEnable gmtime addr { s with m_pComandList } calls pushed
    | .ok (m_pComandList, some .disable) => some { s with m_pComandList, writer := .drain }
  | .drain =>
    match s.m_sLogQueue.pop with
    | .error _ => none
    | .ok (m_sLogQueue, none) => some { s with m_sLogQueue, writer := .close }
    | .ok (m_sLogQueue, some pData) => handle gmtime addr { s with m_sLogQueue } pData true
  | .close =>
    (onFiles gmtime addr s .disable).map (fun t => { t with isLogEnable := false, writer := .command })
  | .queue =>
    match s.m_sLogQueue.pop with
    | .error _ => none
    | .ok (m_sLogQueue, none) => some { s with m_sLogQueue, writer := .time }
    | .ok (m_sLogQueue, some pData) => handle gmtime addr { s with m_sLogQueue } pData false
  | .time => (onFiles gmtime addr s (.timeProc calls del)).map (fun t => { t with writer := .command })

def step [DecidableEq P] (s : State P) : Act P → Option (State P)
  | .putLogQueue p pBuf =>
    match s.callers p with
    | none =>
      some (if s.isLogEnable then { s with callers := Function.update s.callers p (some pBuf) } else s)
    | some _ => none
  | .putQueue p =>
    match s.callers p with
    | none => none
    | some pBuf =>
      match s.m_sLogQueue.push pBuf with
      | .error _ => none
      | .ok (m_sLogQueue, _) =>
        some { s with
          callers := Function.update s.callers p none
          m_sLogQueue
          accepted := s.accepted ++ [pBuf] }
  | .setLogFlag isLogEnable => some { s with isLogEnable }
  | .pushCommand c =>
    match s.m_pComandList.push c with
    | .error _ => none
    | .ok (m_pComandList, _) => some { s with m_pComandList }
  | .initLogger calls pushed => procLoggerEnable gmtime addr s calls pushed
  | .tick now => onFiles gmtime addr s (.tick now)
  | .timeElsewhere => onFiles gmtime addr s .timeElsewhere
  | .write calls del pushed => write gmtime addr s calls del pushed

/-- A logger before `initLogger`, with a queue for `nMax` texts. -/
def start (sys : System) (nMax : ℕ) : State P where
  sys := sys
  isLogEnable := false
  callers := fun _ => none
  m_sLogQueue := CQueueS.init.alloc nMax .bufPool
  m_pComandList := CQueueS.init.alloc 10 .none
  writer := .command
  accepted := []
  taken := []

end Model

section Files

open LogRotation

variable {gmtime : ℕ → DateTime.STDTime} {addr : ℕ → ℤ}

/-- The directory is made and the file opened whenever the logger asks for it. -/
def Opens (calls : OpenCalls) : Prop := calls.makeDirectory = true ∧ calls.fopen = true

instance (calls : OpenCalls) : Decidable (Opens calls) := inferInstanceAs (Decidable (_ ∧ _))

/-- Nothing is printed, and the list of loggers is left alone. -/
def Quiet (s t : System) : Prop := t.isListed = s.isListed ∧ t.printed = s.printed

theorem Quiet.trans {s t u : System} (h : Quiet s t) (h' : Quiet t u) : Quiet s u :=
  ⟨h'.1.trans h.1, h'.2.trans h.2⟩

/-- `IS_LOG_OPEN` stands for an open file. -/
def Flagged (s : System) : Prop := s.logger.isLogOpen = true → s.logger.m_hFile.isSome = true

theorem flagged_closed (s : System) (d : Disk) (hs : Flagged s) : Flagged (closed s d) := by
  intro h
  obtain ⟨hopen, hnone⟩ := Bool.and_eq_true_iff.mp h
  have hsome := hs hopen
  rw [Option.isNone_iff_eq_none.mp hnone] at hsome
  cases hsome

theorem flagged_step (s t : System) (a : LogRotation.Act) (hs : Flagged s)
    (h : LogRotation.step gmtime addr s a = .ok t) : Flagged t := by
  have hadvance : Flagged (advance s a) := by
    cases a <;> exact hs
  have hparts := parts_step s t a h
  clear h
  generalize advance s a = u at hadvance hparts
  induction hparts with
  | refl => exact hadvance
  | tail _ hpart ih =>
    cases hpart with
    | book | write => exact ih
    | close => exact flagged_closed _ _ ih
    | putAway => exact flagged_closed _ _ ih
    | next | reopen => exact fun _ => rfl
    | delete _ pList calls hinterval hlist hdel =>
      obtain ⟨-, basic, pList', -, -, rfl⟩ := deleteOld_eq_ok gmtime _ _ pList calls hdel
      exact ih

end Files

section Delivering

variable {P : Type} {gmtime : ℕ → DateTime.STDTime} {addr : ℕ → ℤ}

/-- The texts have no percent signs, and files can be opened. -/
def Allowed : Act P → Prop
  | .putLogQueue _ pBuf => '%' ∉ pBuf
  | .initLogger calls _ => Opens calls
  | .write calls _ _ => Opens calls
  | .putQueue _ | .setLogFlag _ | .pushCommand _ | .tick _ | .timeElsewhere => True

instance (a : Act P) : Decidable (Allowed a) :=
  match a with
  | .putLogQueue _ _ => inferInstanceAs (Decidable (¬_))
  | .initLogger _ _ | .write _ _ _ => inferInstanceAs (Decidable (Opens _))
  | .putQueue _ | .setLogFlag _ | .pushCommand _ | .tick _ | .timeElsewhere =>
    inferInstanceAs (Decidable True)

/-- The texts that the writer has taken are those that the queue hands out; they have been written if there
was an open file; and there was one except in the loop of `porcLoggerDisable`. -/
structure Delivering (nMax : ℕ) (s : State P) : Prop where
  serves : s.m_sLogQueue.Serves nMax s.accepted (s.taken.map Taken.text)
  printed : s.sys.printed.map LogRotation.Print.text =
    (s.taken.filter Taken.isOpen).map Taken.text
  isOpen : ∀ x ∈ s.taken, x.isOpen = true ∨ x.isDrained = true
  flagged : Flagged s.sys
  -- a listed logger has its file, and `GetQueue` is at a listed logger
  listed : s.sys.isListed = true → isWritable s.sys = true
  queueing : s.writer = .queue → s.sys.isListed = true
  plain : ∀ x ∈ s.accepted, '%' ∉ x
  callers : ∀ p x, s.callers p = some x → '%' ∉ x

variable {nMax : ℕ}

-- A step of the files that writes nothing, after which the writer may be elsewhere.
theorem Delivering.onFiles {s : State P} {sys : System} {a : LogRotation.Act} (hs : Delivering nMax s)
    (h : LogRotation.step gmtime addr s.sys a = .ok sys) (hprinted : sys.printed = s.sys.printed)
    (hlisted : sys.isListed = true → isWritable sys = true) (writer : Writer) (isLogEnable : Bool)
    (hqueue : writer = .queue → sys.isListed = true) :
    Delivering nMax { s with sys, writer, isLogEnable } := by
  refine ⟨hs.serves, ?_, hs.isOpen, flagged_step _ _ _ hs.flagged h, hlisted, hqueue, hs.plain,
    hs.callers⟩
  rw [← hs.printed, hprinted]

-- A pop that answers NULL, after which the writer goes on elsewhere.
theorem Delivering.pop_none {s : State P} {m_sLogQueue : CQueueS (List Char)} (hs : Delivering nMax s)
    (hpop : s.m_sLogQueue.pop = .ok (m_sLogQueue, none)) (writer : Writer) (hwriter : writer ≠ .queue) :
    Delivering nMax { s with m_sLogQueue, writer } := by
  have hserves := hs.serves.pop hpop
  rw [Option.toList_none, List.append_nil] at hserves
  exact { hs with
    serves := hserves
    queueing := fun hq => absurd hq hwriter }

end Delivering

end Leviathan.LogDelivery
