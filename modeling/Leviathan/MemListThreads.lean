import Leviathan.MemList

/-! `CMemList` under any number of threads that call `add`, `pop` and `del(int)`.  Each operation on
an `atomic_nr` and each access to a plain field is one step. -/
namespace Leviathan.MemListThreads

inductive Ret (Obj : Type)
  | added (nAddIdx : ℤ)
  | popped (pRes : Option Obj)
  | deleted
  deriving DecidableEq

/-- Where a thread is: each point is named after the access it is about to make.  `_del` carries
what its caller returns. -/
inductive Pc (Obj : Type)
  | idle (ret : Option (Ret Obj))
  | addEmpty (o : Obj)
  | addHintFlag (o : Obj) (i : ℤ)
  | addHintCas (o : Obj) (i : ℤ)
  | addHintClear (o : Obj) (i : ℤ)
  | addCount (o : Obj)
  | addFull (o : Obj) (i : ℤ) (j : ℕ)
  | addFlag (o : Obj) (i : ℤ) (j : ℕ)
  | addCas (o : Obj) (i : ℤ) (j : ℕ)
  | addStore (o : Obj) (i : ℤ)
  | addSet (i : ℤ)
  | addInc (i : ℤ)
  | popFlag (i : ℕ)
  | popCas (i : ℕ)
  | popRead (i : ℤ)
  | delSet (ret : Ret Obj) (i : ℤ)
  | delEmpty (ret : Ret Obj) (i : ℤ)
  | delLess (ret : Ret Obj) (i : ℤ)
  | delHint (ret : Ret Obj) (i : ℤ)
  | delDec (ret : Ret Obj) (i : ℤ)
  | delClear (ret : Ret Obj) (i : ℤ)
  deriving DecidableEq

variable {Obj : Type}

/-- The list, and for each cell the object that was added there and not yet popped or deleted. -/
structure Mem (Obj : Type) where
  list : CMemList Obj
  live : ℤ → Option Obj

namespace Mem

def store (m : Mem Obj) (i : ℤ) (o : Obj) : Mem Obj :=
  ⟨m.list.setPtr i o, Function.update m.live i (some o)⟩

def setFlag (m : Mem Obj) (i : ℤ) (nVal : ℕ) : Mem Obj := ⟨m.list.setFlag i nVal, m.live⟩

-- the flag goes from 2 to 1: from here on the object is out of the list
def takeOut (m : Mem Obj) (i : ℤ) : Mem Obj :=
  ⟨m.list.setFlag i 1, Function.update m.live i none⟩

def setHint (m : Mem Obj) (i : ℤ) : Mem Obj := ⟨{ m.list with m_nEmptyFirstIdx := i }, m.live⟩

def addCount (m : Mem Obj) (d : ℤ) : Mem Obj :=
  ⟨{ m.list with m_nCurCount := i32 (m.list.m_nCurCount+d) }, m.live⟩

end Mem

-- the end of one round of the scan in `add`; after the last one the code falls through to
-- `ADD_SUCCESS` with the index it has reached
def addNext (n : ℕ) (o : Obj) (i : ℤ) (j : ℕ) : Pc Obj :=
  if j+1 < n then .addFull o (i+1) (j+1) else .addStore o (i+1)

def popNext (n i : ℕ) : Pc Obj := if i+1 < n then .popFlag (i+1) else .idle (some (.popped none))

/-- The cells a thread uses in its next step. -/
def usedIndex : Pc Obj → List ℤ
  | .addHintFlag _ i | .addHintCas _ i | .addFlag _ i _ | .addCas _ i _ | .addStore _ i
  | .addSet i | .popRead i | .delSet _ i | .delClear _ i => [i]
  | .popFlag i | .popCas i => [(i:ℤ)]
  | .idle _ | .addEmpty _ | .addHintClear _ _ | .addCount _ | .addFull _ _ _ | .addInc _
  | .delEmpty _ _ | .delLess _ _ | .delHint _ _ | .delDec _ _ => []

def threadStep (m : Mem Obj) : Pc Obj → Mem Obj × Pc Obj
  | .idle ret => (m, .idle ret)
  | .addEmpty o =>
    let i := m.list.m_nEmptyFirstIdx
    (m, if 0 ≤ i then .addHintFlag o i else .addCount o)
  | .addHintFlag o i => (m, if m.list.m_nFlagArray i = 0 then .addHintCas o i else .addCount o)
  | .addHintCas o i =>
    if m.list.m_nFlagArray i = 0 then (m.setFlag i 1, .addHintClear o i) else (m, .addCount o)
  | .addHintClear o i => (m.setHint (-1), .addStore o i)
  | .addCount o => (m, .addFull o m.list.m_nCurCount 0)
  | .addFull o i j =>
    let n := m.list.m_nMaxCount
    (m, if (n:ℤ) ≤ m.list.m_nCurCount then .idle (some (.added (-1)))
      else .addFlag o (if i = n then 0 else i) j)
  | .addFlag o i j =>
    (m, if m.list.m_nFlagArray i = 0 then .addCas o i j else addNext m.list.m_nMaxCount o i j)
  | .addCas o i j =>
    if m.list.m_nFlagArray i = 0 then (m.setFlag i 1, .addStore o i)
    else (m, addNext m.list.m_nMaxCount o i j)
  | .addStore o i => (m.store i o, .addSet i)
  | .addSet i => (m.setFlag i 2, .addInc i)
  | .addInc i => (m.addCount 1, .idle (some (.added i)))
  | .popFlag i => (m, if m.list.m_nFlagArray i = 2 then .popCas i else popNext m.list.m_nMaxCount i)
  | .popCas i =>
    if m.list.m_nFlagArray i = 2 then (m.takeOut i, .popRead i)
    else (m, popNext m.list.m_nMaxCount i)
  | .popRead i => (m, .delSet (.popped (m.list.m_pArray i)) i)
  -- in `pop` the flag is 1 already; in `del(int)` this is where the object goes
  | .delSet ret i => (m.takeOut i, .delEmpty ret i)
  | .delEmpty ret i =>
    (m, if m.list.m_nEmptyFirstIdx < 0 then .delHint ret i else .delLess ret i)
  | .delLess ret i => (m, if i < m.list.m_nEmptyFirstIdx then .delHint ret i else .delDec ret i)
  | .delHint ret i => (m.setHint i, .delDec ret i)
  | .delDec ret i => (m.addCount (-1), .delClear ret i)
  | .delClear ret i => (m.setFlag i 0, .idle (some ret))

structure State (T Obj : Type) where
  mem : Mem Obj
  thr : T → Pc Obj

inductive Act (T Obj : Type)
  | callAdd (t : T) (o : Obj)
  | callPop (t : T)
  | callDel (t : T) (i : ℤ)
  | run (t : T)

def inRange (n : ℕ) (i : ℤ) : Prop := 0 ≤ i ∧ i < n

instance (n : ℕ) (i : ℤ) : Decidable (inRange n i) := inferInstanceAs (Decidable (_ ∧ _))

def isIdle : Pc Obj → Bool
  | .idle _ => true
  | _ => false

variable {T : Type} [DecidableEq T]

-- the loop of `pop` is entered because `m_nMaxCount` is at least 1
def step (s : State T Obj) : Act T Obj → Option (State T Obj)
  | .callAdd t o =>
    if isIdle (s.thr t) then some { s with thr := Function.update s.thr t (.addEmpty o) } else none
  | .callPop t =>
    if isIdle (s.thr t) then some { s with thr := Function.update s.thr t (.popFlag 0) } else none
  | .callDel t i =>
    -- only occupied cells are deleted
    if isIdle (s.thr t) ∧ inRange s.mem.list.m_nMaxCount i ∧ s.mem.list.m_nFlagArray i = 2 then
      some { s with thr := Function.update s.thr t (.delSet .deleted i) }
    else none
  | .run t =>
    -- an access outside the arrays has no meaning and no successor
    if ∀ i ∈ usedIndex (s.thr t), inRange s.mem.list.m_nMaxCount i then
      let r := threadStep s.mem (s.thr t)
      some ⟨r.1, Function.update s.thr t r.2⟩
    else none

-- a list of which nothing is known but its size, after `clear()`
def start (l : CMemList Obj) : State T Obj := ⟨⟨l.clear, fun _ => none⟩, fun _ => .idle none⟩

/-- Every access is inside the arrays, an object is stored only where no live object is, and
every live object is still in its cell. -/
structure Safe (s : State T Obj) : Prop where
  used_inRange : ∀ t, ∀ i ∈ usedIndex (s.thr t), inRange s.mem.list.m_nMaxCount i
  store_vacant : ∀ t o i, s.thr t = .addStore o i → s.mem.live i = none
  live_kept : ∀ i o, s.mem.live i = some o → s.mem.list.m_pArray i = some o

/-- What the next step of a thread has to find: the start index of a scan inside the list, a free
cell at the end of a scan at the latest, and in `del(int)` an object that is still there. -/
def PcSound (l : CMemList Obj) : Pc Obj → Prop
  | .addCount _ => 0 ≤ l.m_nCurCount ∧ l.m_nCurCount ≤ l.m_nMaxCount
  | .addFlag _ i j | .addCas _ i j => j+1 = l.m_nMaxCount → l.m_nFlagArray i = 0
  | .delSet .deleted i => l.m_nFlagArray i = 2
  | _ => True

instance (l : CMemList Obj) : (pc : Pc Obj) → Decidable (PcSound l pc)
  | .addCount _ => inferInstanceAs (Decidable (_ ∧ _))
  | .addFlag _ _ _ | .addCas _ _ _ => inferInstanceAs (Decidable (_ → _))
  | .delSet .deleted _ => inferInstanceAs (Decidable (_ = _))
  | .delSet (.added _) _ | .delSet (.popped _) _ | .idle _ | .addEmpty _ | .addHintFlag _ _
  | .addHintCas _ _ | .addHintClear _ _ | .addFull _ _ _ | .addStore _ _ | .addSet _ | .addInc _
  | .popFlag _ | .popCas _ | .popRead _ | .delEmpty _ _ | .delLess _ _ | .delHint _ _ | .delDec _ _
  | .delClear _ _ => isTrue trivial

def Sound (s : State T Obj) : Act T Obj → Prop
  | .callAdd _ _ | .callPop _ | .callDel _ _ => True
  | .run t => PcSound s.mem.list (s.thr t)

instance (s : State T Obj) : (a : Act T Obj) → Decidable (Sound s a)
  | .callAdd _ _ | .callPop _ | .callDel _ _ => isTrue trivial
  | .run t => inferInstanceAs (Decidable (PcSound s.mem.list (s.thr t)))

end Leviathan.MemListThreads
