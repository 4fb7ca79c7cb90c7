import Leviathan.SList
import Leviathan.Fifo

/-! `STCOMQueue` and `CQueueS` (comQueue.h, comQueue.cpp): a list of rings of growing size.
A ring is reached through its address, since the newest ring is both `m_pQueue` and an entry
of `m_pQueueList`. -/
namespace Leviathan

structure STCOMQueue (α : Type) where
  nLast : ℕ
  nFront : ℕ
  nMax : ℕ
  nUse : ℤ
  pList : List (Option α)

namespace STCOMQueue

variable {α : Type}

def init : STCOMQueue α := ⟨0, 0, 0, 0, []⟩

def pop (q : STCOMQueue α) : STCOMQueue α :=
  { q with
    pList := q.pList.set q.nFront none
    nFront := if q.nFront+1 = q.nMax then 0 else q.nFront+1
    nUse := q.nUse-1 }

def push (q : STCOMQueue α) (pData : α) : STCOMQueue α :=
  { q with
    pList := q.pList.set q.nLast (some pData)
    nLast := if q.nLast+1 = q.nMax then 0 else q.nLast+1
    nUse := q.nUse+1 }

def isFull (q : STCOMQueue α) : Bool := decide ((q.nMax : ℤ) = q.nUse)

def capacity (q : STCOMQueue α) : ℕ := q.nMax

def front (q : STCOMQueue α) : Option α := q.pList.getD q.nFront none

theorem mem_push (q : STCOMQueue α) (x y : α) (h : some x ∈ (q.push y).pList) :
    some x ∈ q.pList ∨ x = y := by
  rcases List.mem_or_eq_of_mem_set h with h | h
  · exact Or.inl h
  · exact Or.inr (Option.some.inj h)

theorem mem_of_front (q : STCOMQueue α) (x : α) (h : q.front = some x) : some x ∈ q.pList := by
  unfold front at h
  rw [List.getD_eq_getElem?_getD] at h
  cases hg : q.pList[q.nFront]? with
  | none =>
    rw [hg] at h
    cases h
  | some o =>
    rw [hg] at h
    exact List.mem_of_getElem? (hg.trans (congrArg some h))

end STCOMQueue

/-- The fields of `CQueueS`, with the rings that are allocated.  `next` is the address the
next `new` returns.  The locks are left out: one thread never waits for itself. -/
structure CQueueS (α : Type) where
  m_nObjAllocType : EAllocType
  m_nRealloc : ℤ
  m_pQueue : Option ℕ
  m_pQueueList : Option (CSList ℕ)
  rings : ℕ → Option (STCOMQueue α)
  next : ℕ

namespace CQueueS

variable {α : Type}

def init : CQueueS α := ⟨.none, 0, none, none, fun _ => none, 0⟩

/-- `destroy` of a ring; the elements themselves are not objects of this class. -/
def destroy (q : CQueueS α) (pQueue : ℕ) : CQueueS α :=
  { q with rings := Function.update q.rings pQueue none }

/-- `__realloc`, with allocations that succeed: the address of an empty ring. -/
def _realloc (q : CQueueS α) (nMaxCount : ℕ) : CQueueS α × ℕ :=
  ({ q with
      rings := Function.update q.rings q.next
        (some { (STCOMQueue.init : STCOMQueue α) with
          pList := List.replicate nMaxCount none, nMax := nMaxCount })
      next := q.next+1
      m_nRealloc := 0 }, q.next)

/-- `alloc`: the first ring becomes `m_pQueue`; only `push` enters rings in `m_pQueueList`. -/
def alloc (q : CQueueS α) (nMaxCount : ℕ) (type : EAllocType) : CQueueS α :=
  let l := q.m_pQueueList.getD (CSList.init.alloc 12 .new true)
  let q := { q with m_pQueueList := some l }
  let q := match q.m_pQueue with
    | some a => q.destroy a
    | none => q
  let r := _realloc { q with m_nObjAllocType := type } nMaxCount
  { r.1 with m_pQueue := some r.2 }

/-- The ring behind a pointer. -/
def deref (q : CQueueS α) (p : Option ℕ) : Except Fault (ℕ × STCOMQueue α) :=
  match p with
  | none => .error .nullRead
  | some a =>
    match q.rings a with
    | none => .error .wildWrite
    | some r => .ok (a, r)

/-- The branch of `push` that finds the newest ring full.  The list has an entry for each ring, and since
the rings double in size there are fewer than 32 whose size is an `int`. -/
def grow (q : CQueueS α) (cap : ℕ) : Except Fault (CQueueS α) :=
  -- `atomic_compare_exchange(1, 0)` answers the old count
  if q.m_nRealloc ≠ 0 then .ok q
  else
    let r := _realloc { q with m_nRealloc := 1 } (cap*2)
    match r.1.m_pQueueList with
    | none => .error .nullRead
    | some l =>
      match l.pushBackInt r.2 true with
      | .error e => .error e
      | .ok (l', _) => .ok { r.1 with m_pQueue := some r.2, m_pQueueList := some l' }

def push (q : CQueueS α) (pData : α) : Except Fault (CQueueS α × Bool) := do
  let q ← if q.m_nRealloc ≠ 0 then pure q
    else do
      let (_, cur) ← q.deref q.m_pQueue
      if cur.isFull then q.grow cur.capacity else pure q
  let (a, ring) ← q.deref q.m_pQueue
  return ({ q with rings := Function.update q.rings a (some (ring.push pData)) }, true)

/-- `pop`: the first ring of the list; a ring found empty is deleted unless it is the last. -/
def pop (q : CQueueS α) : Except Fault (CQueueS α × Option α) :=
  match q.m_pQueueList with
  | none => .error .nullRead
  | some l =>
    match l.getNext 0 with
    | (_, none) => .ok (q, none)
    | (nIdx, some a) => do
      let (a, ring) ← q.deref (some a)
      match ring.front with
      | some x => return ({ q with rings := Function.update q.rings a (some ring.pop) }, some x)
      | none =>
        if 1 < l.m_nUse then
          let (l', _, freed) := l.delAt nIdx true
          let q := { q with m_pQueueList := some l' }
          match freed with
          | some b => return (q.destroy b, none)
          | none => return (q, none)
        else return (q, none)

/-- The answers to a list of operations. -/
def runOps (q : CQueueS α) : List (Fifo.Op α) → Except Fault (List (Fifo.Res α))
  | [] => .ok []
  | .push p :: ops => do
    let (q, b) ← q.push p
    let rs ← runOps q ops
    return .pushed b :: rs
  | .pop :: ops => do
    let (q, r) ← q.pop
    let rs ← runOps q ops
    return .popped r :: rs

end CQueueS

end Leviathan
