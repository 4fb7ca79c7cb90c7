import Leviathan.Runs
import Leviathan.TList

/-! How a logger is enabled and disabled (comCore.cpp): `setLoggerEnable` and `setLoggerDisable` write
the flag and push a command, and the writer thread takes the commands in `IsCommand` and carries them
out.  One step for each access to what the threads share; the command queue is a first-in first-out
list, and a flag of `m_nLogFlag` is written in one step. -/
namespace Leviathan.LoggerCommands

/-- `nCommandCode`. -/
inductive Code
  | enable
  | disable
  deriving DecidableEq

/-- The flags of a logger that the commands look at, and whether its file is open. -/
structure CLogger where
  isLogEnable : Bool
  isLogOpen : Bool
  isLogSetComplete : Bool
  m_hFile : Bool

namespace CLogger

-- `OpenLogger`; `ok` when the directory and the file could be opened
def openLogger (l : CLogger) (ok : Bool) : CLogger :=
  if ok then { l with m_hFile := true, isLogOpen := true }
  else { l with m_hFile := false, isLogOpen := l.isLogOpen && !l.m_hFile }

def disable (l : CLogger) : CLogger :=
  { l with isLogEnable := false, m_hFile := false, isLogOpen := l.isLogOpen && !l.m_hFile }

end CLogger

-- between the flag and the push of a call
inductive Caller
  | idle
  | pushing (c : Code)
  deriving DecidableEq

/-- Where the writer stands: in `IsCommand`, in `procLoggerEnable` or in `porcLoggerDisable`. -/
inductive Writer (L : Type)
  | pop
  | enTest (p : L)
  | enOpen (p : L)
  | enExist (p : L)
  | enSet (p : L)
  | diDisable (p : L)
  | diDel (p : L)
  | diClear (p : L)
  -- `push_back` has left its array
  | fault
  deriving DecidableEq

-- the calls on one logger follow each other; `last` records the last of them
structure State (L : Type) where
  loggers : L → CLogger
  callers : L → Caller
  last : L → Option Code
  queue : List (Code × L)
  m_pLoggerList : CTList L
  writer : Writer L

inductive Act (L : Type)
  | call (p : L) (c : Code)
  -- `newBuf` may fail, and then there is no command
  | push (p : L) (newBuf : Bool)
  | write (fopen calloc : Bool)

variable {L : Type} [DecidableEq L]

def setLogger (s : State L) (p : L) (l : CLogger) : State L :=
  { s with loggers := Function.update s.loggers p l }

/-- One step of the writer thread. -/
def write (s : State L) (fopen calloc : Bool) : Option (State L) :=
  match s.writer with
  | .pop =>
    match s.queue with
    | [] => some s
    | (.enable, p) :: q => some { s with queue := q, writer := .enTest p }
    | (.disable, p) :: q => some { s with queue := q, writer := .diDisable p }
  | .enTest p =>
    if (s.loggers p).isLogEnable then some { s with writer := .pop }
    else if (s.loggers p).isLogOpen then some { s with writer := .enExist p }
    else if (s.loggers p).isLogSetComplete then some { s with writer := .enOpen p }
    else some { s with writer := .pop }
  | .enOpen p =>
    some { setLogger s p ((s.loggers p).openLogger fopen) with writer := .enExist p }
  | .enExist p =>
    if s.m_pLoggerList.isExist p then some { s with writer := .pop }
    else
      match s.m_pLoggerList.pushBack p calloc with
      | .ok (l, some _) => some { s with m_pLoggerList := l, writer := .enSet p }
      | .ok (l, none) => some { s with m_pLoggerList := l, writer := .pop }
      | .error _ => some { s with writer := .fault }
  | .enSet p => some { setLogger s p { s.loggers p with isLogEnable := true } with writer := .pop }
  | .diDisable p => some { setLogger s p (s.loggers p).disable with writer := .diDel p }
  | .diDel p =>
    some { s with m_pLoggerList := (s.m_pLoggerList.del p).1, writer := .diClear p }
  | .diClear p => some { setLogger s p { s.loggers p with isLogEnable := false } with writer := .pop }
  | .fault => none

def step (s : State L) : Act L → Option (State L)
  | .call p c =>
    match s.callers p with
    | .idle =>
      some { setLogger s p { s.loggers p with isLogEnable := c = .enable } with
        callers := Function.update s.callers p (.pushing c)
        last := Function.update s.last p (some c) }
    | .pushing _ => none
  | .push p newBuf =>
    match s.callers p with
    | .idle => none
    | .pushing c =>
      some { s with
        callers := Function.update s.callers p .idle
        queue := if newBuf then s.queue ++ [(c, p)] else s.queue }
  | .write fopen calloc => write s fopen calloc

/-- The place of the writer as one logger sees it. -/
inductive Point
  | away
  | enTest
  | enOpen
  | enExist
  | enSet
  | diDisable
  | diDel
  | diClear
  deriving DecidableEq

def point (w : Writer L) (p : L) : Point :=
  match w with
  | .enTest q => if q = p then .enTest else .away
  | .enOpen q => if q = p then .enOpen else .away
  | .enExist q => if q = p then .enExist else .away
  | .enSet q => if q = p then .enSet else .away
  | .diDisable q => if q = p then .diDisable else .away
  | .diDel q => if q = p then .diDel else .away
  | .diClear q => if q = p then .diClear else .away
  | .pop | .fault => .away

def Point.todo : Point → List Code
  | .away => []
  | .enTest | .enOpen | .enExist | .enSet => [.enable]
  | .diDisable | .diDel | .diClear => [.disable]

def Caller.todo : Caller → List Code
  | .idle => []
  | .pushing c => [c]

/-- The commands for `p` that are not finished: the one in the writer's hands, those in the queue and
the one that its caller is about to push. -/
def todo (s : State L) (p : L) : List Code :=
  (point s.writer p).todo ++ ((s.queue.filter (fun c => c.2 = p)).map Prod.fst ++ (s.callers p).todo)

/-- Nothing is under way, and a listed logger is enabled. -/
structure Rest (s : State L) : Prop where
  callers : ∀ p, s.callers p = .idle
  last : ∀ p, s.last p = none
  queue : s.queue = []
  writer : s.writer = .pop
  list : s.m_pLoggerList.WF
  enabled : ∀ p, s.m_pLoggerList.isExist p = true → (s.loggers p).isLogEnable = true

/-- The list and the flag are what the last call asked for. -/
def Converged (s : State L) (p : L) : Prop :=
  ∀ c, s.last p = some c →
    (s.m_pLoggerList.isExist p = true ↔ c = .enable) ∧
    ((s.loggers p).isLogEnable = true ↔ c = .enable)

-- the writer at `w` does not take a branch that drops its command
def KeptAt (s : State L) (calloc : Bool) : Writer L → Prop
  | .enTest p => (s.loggers p).isLogSetComplete = true → (s.loggers p).isLogEnable = true →
    s.m_pLoggerList.isExist p = true
  | .enExist p => s.m_pLoggerList.isExist p = false →
    ((s.m_pLoggerList.m_nMax : ℤ) ≤ s.m_pLoggerList.m_nUse → calloc = true) ∧
    (s.m_pLoggerList.m_nUse < s.m_pLoggerList.m_nMax →
      s.m_pLoggerList.m_nLast < s.m_pLoggerList.m_nMax)
  | _ => True

instance (s : State L) (calloc : Bool) (w : Writer L) : Decidable (KeptAt s calloc w) :=
  match w with
  | .enTest _ => inferInstanceAs (Decidable (_ → _ → _))
  | .enExist _ => inferInstanceAs (Decidable (_ → _ ∧ _))
  | .pop | .enOpen _ | .enSet _ | .diDisable _ | .diDel _ | .diClear _ | .fault => instDecidableTrue

/-- No command is dropped: an enable command does not find the flag set for a logger that is not in
the list, `push_back` has room inside its array, and memory is there. -/
def Kept (s : State L) : Act L → Prop
  | .call _ _ => True
  | .push _ newBuf => newBuf = true
  | .write _ calloc => KeptAt s calloc s.writer

instance (s : State L) (a : Act L) : Decidable (Kept s a) :=
  match a with
  | .call _ _ => instDecidableTrue
  | .push _ newBuf => inferInstanceAs (Decidable (newBuf = true))
  | .write _ calloc => inferInstanceAs (Decidable (KeptAt s calloc s.writer))

end Leviathan.LoggerCommands
