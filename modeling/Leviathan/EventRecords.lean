import Leviathan.Ownership
import Leviathan.QueueOrder
import Leviathan.TimerPool

/-! Events (comCore.cpp, comCore.h): `putEvent` takes a record from `m_pEventPool`, fills it in and pushes
it to the queue of a thread, and that thread, in `eventThreadLoop`, pops it, calls its function and gives
it back.  Any number of threads put events for `nCount` threads that handle them.  One step for each call
of the pool or of a queue, and for each field that is stored: no call of `push` or `pop` of a queue overlaps
another one, and the allocations of rings succeed. -/
namespace Leviathan.EventRecords

open Ownership

open TimerPool (Rec PoolOk)

open CQueueS (Backlog)

structure STEvent (O F : Type) where
  nThreadIdx : ℕ
  nValue : ℤ
  pObj : O
  pObj2 : O
  fpProc : F

/-- Where a thread stands in `putEvent`. -/
inductive Producer (O F : Type)
  | idle
  -- the thread has been found, `newEvent` comes
  | entered (e : STEvent O F)
  -- `k` fields of the record have been stored
  | filling (e : STEvent O F) (pEvent : Rec) (k : ℕ)
  -- `bActive` was seen, the push comes
  | pushing (e : STEvent O F) (pEvent : Rec)
  -- `bActive` was not seen, `delEvent` comes
  | failing (pEvent : Rec)

/-- Where a thread stands in `eventThreadLoop`. -/
inductive Consumer
  | idle
  -- the call of `fpProc` comes, and behind it `delEvent`
  | popped (pEvent : Rec)
  | called (pEvent : Rec)
  deriving DecidableEq

/-- `m_pEventPool`, with the records that `__unit_alloc` takes from the C heap: those in use, their
number so far, and how far from the chunk they lie. -/
structure EventPool where
  pool : CMemPool
  calloced : ℕ → Bool
  nCalloc : ℕ
  distance : ℕ → ℤ

-- `put` records what was pushed for a thread, `handled` what its functions were called with
structure State (P O F : Type) where
  nCount : ℕ
  m_pEventPool : EventPool
  records : Rec → STEvent O F
  m_sEventQueue : ℕ → CQueueS Rec
  bActive : ℕ → Bool
  producers : P → Producer O F
  consumers : ℕ → Consumer
  put : ℕ → List (STEvent O F)
  handled : ℕ → List (STEvent O F)

inductive Act (P O F : Type)
  | putEvent (p : P) (nValue : ℤ) (pObj pObj2 : O) (fp : F) (nThreadIdx : ℤ)
  -- the next step of `putEvent`; a `calloc` in it succeeds or fails
  | produce (p : P) (calloc : Bool)
  | consume (t : ℕ)
  -- a thread is started or told to quit
  | setActive (t : ℕ) (bActive : Bool)

namespace EventPool

variable (m : EventPool)

/-- `newEvent`. -/
def newEvent (calloc : Bool) : EventPool × Option Rec :=
  match m.pool.newMem with
  | (pool, some i) => ({ m with pool }, some (.chunk i))
  | (pool, none) =>
    if calloc then
      ({ m with
          pool
          calloced := Function.update m.calloced m.nCalloc true
          nCalloc := m.nCalloc+1 }, some (.heap m.nCalloc))
    else ({ m with pool }, none)

/-- `delEvent`. -/
def delEvent (p : Rec) : EventPool :=
  match p with
  | .chunk i => { m with pool := (m.pool.delMem i).1 }
  | .heap n =>
    let r := m.pool.delMem (m.distance n)
    { m with
      pool := r.1
      calloced := if r.2 then m.calloced else Function.update m.calloced n false }

end EventPool

section Model

variable {P O F : Type}

/-- The stores of `putEvent`, in its order. -/
def store (e : STEvent O F) (r : STEvent O F) : ℕ → STEvent O F
  | 0 => { r with fpProc := e.fpProc }
  | 1 => { r with pObj := e.pObj }
  | 2 => { r with pObj2 := e.pObj2 }
  | 3 => { r with nThreadIdx := e.nThreadIdx }
  | _ => { r with nValue := e.nValue }

variable [DecidableEq P] (s : State P O F)

def setProducer (p : P) (c : Producer O F) : State P O F :=
  { s with producers := Function.update s.producers p c }

def setConsumer (t : ℕ) (c : Consumer) : State P O F :=
  { s with consumers := Function.update s.consumers t c }

/-- A step of a thread in `putEvent`. -/
def produce (p : P) (calloc : Bool) : Option (State P O F) :=
  match s.producers p with
  | .idle => none
  | .entered e =>
    match s.m_pEventPool.newEvent calloc with
    | (m_pEventPool, some pEvent) => some (setProducer { s with m_pEventPool } p (.filling e pEvent 0))
    | (m_pEventPool, none) => some (setProducer { s with m_pEventPool } p .idle)
  | .filling e pEvent k =>
    if k < 5 then
      some (setProducer { s with
        records := Function.update s.records pEvent (store e (s.records pEvent) k) } p
        (.filling e pEvent (k+1)))
    else if s.bActive e.nThreadIdx then some (setProducer s p (.pushing e pEvent))
    else some (setProducer s p (.failing pEvent))
  | .pushing e pEvent =>
    match (s.m_sEventQueue e.nThreadIdx).push pEvent with
    | .error _ => none
    | .ok (q, _) =>
      some (setProducer { s with
        m_sEventQueue := Function.update s.m_sEventQueue e.nThreadIdx q
        put := Function.update s.put e.nThreadIdx (s.put e.nThreadIdx ++ [e]) } p .idle)
  | .failing pEvent =>
    some (setProducer { s with m_pEventPool := s.m_pEventPool.delEvent pEvent } p .idle)

/-- A step of a thread in `eventThreadLoop`. -/
def consume (t : ℕ) : Option (State P O F) :=
  match s.consumers t with
  | .idle =>
    match (s.m_sEventQueue t).pop with
    | .error _ => none
    | .ok (q, none) => some { s with m_sEventQueue := Function.update s.m_sEventQueue t q }
    | .ok (q, some pEvent) =>
      some (setConsumer { s with m_sEventQueue := Function.update s.m_sEventQueue t q } t (.popped pEvent))
  | .popped pEvent =>
    some (setConsumer { s with
      handled := Function.update s.handled t (s.handled t ++ [s.records pEvent]) } t (.called pEvent))
  | .called pEvent =>
    some (setConsumer { s with m_pEventPool := s.m_pEventPool.delEvent pEvent } t .idle)

def step (s : State P O F) : Act P O F → Option (State P O F)
  | .putEvent p nValue pObj pObj2 fp nThreadIdx =>
    match s.producers p with
    | .idle =>
      let nThreadIdx := if nThreadIdx < 0 then 0 else nThreadIdx.toNat
      -- `getObj` answers NULL for any other index
      if nThreadIdx < s.nCount then
        some (setProducer s p (.entered ⟨nThreadIdx, nValue, pObj, pObj2, fp⟩))
      else some s
    | _ => none
  | .produce p calloc => produce s p calloc
  | .consume t => consume s t
  | .setActive t bActive => some { s with bActive := Function.update s.bActive t bActive }

/-- The threads before their first event: the queue of thread `t` was made for `size t` events, and the
pool for `nMax` records. -/
def start (nCount nMax : ℕ) (size : ℕ → ℕ) (distance : ℕ → ℤ) (records : Rec → STEvent O F) :
    State P O F where
  nCount := nCount
  m_pEventPool := ⟨CMemPool.alloc nMax, fun _ => false, 0, distance⟩
  records := records
  m_sEventQueue := fun t => CQueueS.init.alloc (size t) .none
  bActive := fun _ => false
  producers := fun _ => .idle
  consumers := fun _ => .idle
  put := fun _ => []
  handled := fun _ => []

end Model

section Pool

/-- The record has been taken and not been given back. -/
def InUse (m : EventPool) : Rec → Prop
  | .chunk i => i < m.pool.m_nAllocCount ∧ m.pool.m_nFlagArray i = true
  | .heap n => m.calloced n = true

/-- The pool counts its records, and no record of the heap is taken for one of the chunk. -/
structure Good (m : EventPool) : Prop where
  ok : PoolOk m.pool
  fresh : ∀ n, m.calloced n = true → n < m.nCalloc
  apart : ∀ n, isInclude (i32 (m.distance n)) m.pool.m_nAllocCount = false

variable (m m' : EventPool)

theorem newEvent_some (calloc : Bool) (r : Rec) (h : Good m) (hnew : m.newEvent calloc = (m', some r)) :
    Good m' ∧ ¬InUse m r ∧ ∀ x, InUse m' x ↔ x = r ∨ InUse m x := by
  unfold EventPool.newEvent at hnew
  rcases TimerPool.newMem_spec _ h.ok with ⟨i, hmem, hi, hfree⟩ | ⟨hmem, -⟩
  · rw [hmem] at hnew
    obtain ⟨rfl, hr⟩ := Prod.mk.inj hnew
    obtain rfl := Option.some.inj hr
    refine ⟨⟨TimerPool.poolOk_claim _ i h.ok hi hfree, h.fresh, h.apart⟩, fun hin => ?_, fun x => ?_⟩
    · exact Bool.false_ne_true (hfree.symm.trans hin.2)
    · cases x with
      | chunk j =>
        by_cases hj : j = i
        · simp [InUse, CMemPool.claim, hj, hi]
        · simp [InUse, CMemPool.claim, hj]
      | heap n => simp [InUse]
  · rw [hmem] at hnew
    cases calloc with
    | false => cases (Prod.mk.inj hnew).2
    | true =>
      obtain ⟨rfl, hr⟩ := Prod.mk.inj hnew
      obtain rfl := Option.some.inj hr
      refine ⟨⟨h.ok, fun n hn => ?_, h.apart⟩, fun hin => lt_irrefl _ (h.fresh _ hin), fun x => ?_⟩
      · dsimp only at hn ⊢
        by_cases heq : n = m.nCalloc
        · omega
        · rw [Function.update_of_ne heq] at hn
          exact Nat.lt_succ_of_lt (h.fresh n hn)
      · cases x with
        | chunk j => simp [InUse]
        | heap n =>
          by_cases hn : n = m.nCalloc
          · simp [InUse, hn]
          · simp [InUse, hn]

-- Where there is no record, nothing has changed.
theorem newEvent_none (calloc : Bool) (h : Good m) (hnew : m.newEvent calloc = (m', none)) : m' = m := by
  unfold EventPool.newEvent at hnew
  rcases TimerPool.newMem_spec _ h.ok with ⟨i, hmem, -, -⟩ | ⟨hmem, -⟩
  · rw [hmem] at hnew
    cases hnew
  · rw [hmem] at hnew
    cases calloc with
    | false => exact (Prod.mk.inj hnew).1.symm
    | true => cases (Prod.mk.inj hnew).2

theorem poolOk_delMem (p : CMemPool) (i : ℕ) (h : PoolOk p) (hi : i < p.m_nAllocCount)
    (hused : p.m_nFlagArray i = true) : p.delMem i = ({ p with
      m_nFlagArray := Function.update p.m_nFlagArray i false
      m_nUseCnt := i32 (p.m_nUseCnt-1) }, true) ∧ PoolOk (p.delMem i).1 := by
  have hsize := h.size
  have hidx : i32 (i : ℤ) = i := i32_of_range _ (by omega) (by omega)
  have hin : isInclude (i : ℤ) p.m_nAllocCount = true := (isInclude_iff _ _).mpr ⟨by omega, by omega⟩
  have hdel : p.delMem i = ({ p with
      m_nFlagArray := Function.update p.m_nFlagArray i false
      m_nUseCnt := i32 (p.m_nUseCnt-1) }, true) := by
    rw [CMemPool.delMem, hidx, if_pos hin, Int.toNat_natCast]
  refine ⟨hdel, ?_⟩
  rw [hdel]
  have hset : (Finset.range p.m_nAllocCount).filter
      (fun j => Function.update p.m_nFlagArray i false j = true) =
      ((Finset.range p.m_nAllocCount).filter (fun j => p.m_nFlagArray j = true)).erase i := by
    ext j
    rw [Finset.mem_erase, Finset.mem_filter, Finset.mem_filter, Function.update_apply]
    by_cases hj : j = i
    · simp [hj]
    · simp [hj]
  have hmem : i ∈ (Finset.range p.m_nAllocCount).filter (fun j => p.m_nFlagArray j = true) :=
    Finset.mem_filter.mpr ⟨Finset.mem_range.mpr hi, hused⟩
  have hpos := Finset.card_pos.mpr ⟨i, hmem⟩
  have hle : ((Finset.range p.m_nAllocCount).filter (fun j => p.m_nFlagArray j = true)).card ≤
      p.m_nAllocCount := (Finset.card_filter_le _ _).trans (Finset.card_range _).le
  have hcount := h.count
  refine ⟨hsize, h.last, ?_⟩
  show i32 (p.m_nUseCnt-1) = _
  rw [hset, Finset.card_erase_of_mem hmem, i32_of_range _ (by omega) (by omega)]
  omega

theorem delEvent_spec (r : Rec) (h : Good m) (hused : InUse m r) :
    Good (m.delEvent r) ∧ ∀ x, InUse (m.delEvent r) x ↔ InUse m x ∧ x ≠ r := by
  cases r with
  | chunk i =>
    obtain ⟨hdel, hok⟩ := poolOk_delMem m.pool i h.ok hused.1 hused.2
    rw [EventPool.delEvent]
    rw [hdel] at hok ⊢
    refine ⟨⟨hok, h.fresh, h.apart⟩, fun x => ?_⟩
    cases x with
    | chunk j =>
      by_cases hj : j = i
      · simp [InUse, hj]
      · simp [InUse, hj]
    | heap n => simp [InUse]
  | heap n =>
    have hdel : m.pool.delMem (m.distance n) = (m.pool, false) := by
      rw [CMemPool.delMem, if_neg (Bool.eq_false_iff.mp (h.apart n))]
    have hpool : m.delEvent (.heap n) = { m with calloced := Function.update m.calloced n false } := by
      rw [EventPool.delEvent, hdel]
      rfl
    rw [hpool]
    refine ⟨⟨h.ok, fun k hk => ?_, h.apart⟩, fun x => ?_⟩
    · dsimp only at hk
      by_cases hkn : k = n
      · rw [hkn, Function.update_self] at hk
        cases hk
      · rw [Function.update_of_ne hkn] at hk
        exact h.fresh k hk
    · cases x with
      | chunk j => simp [InUse]
      | heap k =>
        by_cases hk : k = n
        · simp [InUse, hk]
        · simp [InUse, hk]

end Pool

section Custody

variable {P O F : Type}

/-- The record that the thread will push or give back. -/
def Producer.owned : Producer O F → List Rec
  | .idle | .entered _ => []
  | .filling _ pEvent _ | .pushing _ pEvent | .failing pEvent => [pEvent]

def Consumer.owned : Consumer → List Rec
  | .idle => []
  | .popped pEvent | .called pEvent => [pEvent]

/-- The event that has been popped for a call that is still to come. -/
def Consumer.pending (records : Rec → STEvent O F) : Consumer → List (STEvent O F)
  | .popped pEvent => [records pEvent]
  | .idle | .called _ => []

inductive Owner (P : Type)
  | producer (p : P)
  | queue (t : ℕ)
  | consumer (t : ℕ)
  deriving DecidableEq

/-- Who is going to push a record, pop it or give it back. -/
def own (s : State P O F) (b : ℕ → Backlog Rec) : Owner P → List Rec
  | .producer p => (s.producers p).owned
  | .queue t => (b t).content
  | .consumer t => (s.consumers t).owned

/-- The first `k` stores have been made. -/
structure Agree (e r : STEvent O F) (k : ℕ) : Prop where
  fpProc : 0 < k → r.fpProc = e.fpProc
  pObj : 1 < k → r.pObj = e.pObj
  pObj2 : 2 < k → r.pObj2 = e.pObj2
  nThreadIdx : 3 < k → r.nThreadIdx = e.nThreadIdx
  nValue : 4 < k → r.nValue = e.nValue

theorem agree_store (e r : STEvent O F) (k : ℕ) (hk : k < 5) (h : Agree e r k) :
    Agree e (store e r k) (k+1) := by
  obtain ⟨hproc, hobj, hobj2, hidx, hvalue⟩ := h
  interval_cases k
  · exact ⟨fun _ => rfl, nofun, nofun, nofun, nofun⟩
  · exact ⟨fun _ => hproc Nat.zero_lt_one, fun _ => rfl, by omega, by omega, by omega⟩
  · exact ⟨fun _ => hproc (by omega), fun _ => hobj (by omega), fun _ => rfl, by omega, by omega⟩
  · exact ⟨fun _ => hproc (by omega), fun _ => hobj (by omega), fun _ => hobj2 (by omega), fun _ => rfl,
      by omega⟩
  · exact ⟨fun _ => hproc (by omega), fun _ => hobj (by omega), fun _ => hobj2 (by omega),
      fun _ => hidx (by omega), fun _ => rfl⟩

theorem Agree.eq {e r : STEvent O F} {k : ℕ} (h : Agree e r k) (hk : ¬k < 5) : r = e := by
  obtain ⟨hproc, hobj, hobj2, hidx, hvalue⟩ := h
  cases r
  cases e
  rw [STEvent.mk.injEq]
  exact ⟨hidx (by omega), hvalue (by omega), hobj (by omega), hobj2 (by omega), hproc (by omega)⟩

/-- What a thread in `putEvent` has stored, and where it is going to push it. -/
def Producer.Filled (nCount : ℕ) (records : Rec → STEvent O F) : Producer O F → Prop
  | .idle | .failing _ => True
  | .entered e => e.nThreadIdx < nCount
  | .filling e pEvent k => e.nThreadIdx < nCount ∧ Agree e (records pEvent) k
  | .pushing e pEvent => e.nThreadIdx < nCount ∧ records pEvent = e

/-- Every record in use has one owner, the queues hold what was put and not yet handled, and no queue of
a thread that is not there is used. -/
structure Held (size : ℕ → ℕ) (s : State P O F) (b : ℕ → Backlog Rec) : Prop where
  represents : ∀ t, CQueueS.Represents (size t) (s.m_sEventQueue t) (b t)
  past : ∀ t, CQueueS.Past (size t) ((b t).map s.records) (s.put t)
    (s.handled t ++ (s.consumers t).pending s.records)
  exclusive : Exclusive (own s b)
  used : ∀ r, InUse s.m_pEventPool r ↔ Owned (own s b) r
  good : Good s.m_pEventPool
  filled : ∀ p, (s.producers p).Filled s.nCount s.records
  idle : ∀ t, s.nCount ≤ t → s.put t = []

variable [DecidableEq P] {size : ℕ → ℕ} {s : State P O F} {b : ℕ → Backlog Rec}

theorem own_setProducer (s : State P O F) (b : ℕ → Backlog Rec) (p : P) (c : Producer O F) :
    own (setProducer s p c) b = Function.update (own s b) (.producer p) c.owned := by
  funext o
  cases o with
  | producer q =>
    by_cases hq : q = p
    · simp [own, setProducer, hq]
    · simp [own, setProducer, hq]
  | queue t => rfl
  | consumer t => rfl

theorem own_setConsumer (s : State P O F) (b : ℕ → Backlog Rec) (t : ℕ) (c : Consumer) :
    own (setConsumer s t c) b = Function.update (own s b) (.consumer t) c.owned := by
  funext o
  cases o with
  | producer q => rfl
  | queue u => rfl
  | consumer u =>
    by_cases hu : u = t
    · simp [own, setConsumer, hu]
    · simp [own, setConsumer, hu]

theorem own_queue (s : State P O F) (b : ℕ → Backlog Rec) (t : ℕ) (c : Backlog Rec) :
    own s (Function.update b t c) = Function.update (own s b) (.queue t) c.content := by
  funext o
  cases o with
  | producer q => rfl
  | queue u =>
    by_cases hu : u = t
    · simp [own, hu]
    · simp [own, hu]
  | consumer u => rfl

omit [DecidableEq P] in
theorem Producer.Filled.congr {nCount : ℕ} {records records' : Rec → STEvent O F} {c : Producer O F}
    (h : c.Filled nCount records) (hsame : ∀ r ∈ c.owned, records' r = records r) :
    c.Filled nCount records' := by
  cases c with
  | idle | entered | failing => exact h
  | filling e r k =>
    rw [Producer.Filled, hsame r List.mem_cons_self]
    exact h
  | pushing e r =>
    rw [Producer.Filled, hsame r List.mem_cons_self]
    exact h

omit [DecidableEq P] in
theorem Consumer.pending_congr {records records' : Rec → STEvent O F} (c : Consumer)
    (hsame : ∀ r ∈ c.owned, records' r = records r) : c.pending records' = c.pending records := by
  cases c with
  | idle | called => rfl
  | popped r => rw [Consumer.pending, Consumer.pending, hsame r List.mem_cons_self]

theorem filled_update (producers : P → Producer O F) (nCount : ℕ) (records : Rec → STEvent O F) (p : P)
    (c : Producer O F) (hs : ∀ q ≠ p, (producers q).Filled nCount records) (hc : c.Filled nCount records)
    (q : P) : (Function.update producers p c q).Filled nCount records := by
  by_cases hq : q = p
  · rw [hq, Function.update_self]
    exact hc
  · rw [Function.update_of_ne hq]
    exact hs q hq

-- A thread in `putEvent` goes on with the record it has, or without one.
theorem Held.setProducer (h : Held size s b) (p : P) (c : Producer O F)
    (howned : c.owned = (s.producers p).owned) (hc : c.Filled s.nCount s.records) :
    Held size (setProducer s p c) b := by
  have hown : own (EventRecords.setProducer s p c) b = own s b := by
    rw [own_setProducer, howned]
    exact Function.update_eq_self _ _
  refine ⟨h.represents, h.past, ?_, fun r => ?_, h.good, ?_, h.idle⟩
  · rw [hown]
    exact h.exclusive
  · rw [hown]
    exact h.used r
  · exact filled_update s.producers s.nCount s.records p c (fun q _ => h.filled q) hc

-- A thread takes a record from the pool.
theorem Held.newEvent (h : Held size s b) (p : P) (e : STEvent O F) (hp : s.producers p = .entered e)
    (calloc : Bool) (m : EventPool) (r : Rec) (hnew : s.m_pEventPool.newEvent calloc = (m, some r)) :
    Held size (EventRecords.setProducer { s with m_pEventPool := m } p (.filling e r 0)) b := by
  obtain ⟨hgood, hfree, hused⟩ := newEvent_some _ m calloc r h.good hnew
  have hnone : own s b (.producer p) = [] := by
    rw [own, hp]
    rfl
  have hown : own (EventRecords.setProducer { s with m_pEventPool := m } p (.filling e r 0)) b =
      Function.update (own s b) (.producer p) (r :: own s b (.producer p)) := by
    rw [own_setProducer, hnone]
    rfl
  have hidx : e.nThreadIdx < s.nCount := by
    have hfilled := h.filled p
    rwa [hp] at hfilled
  refine ⟨h.represents, h.past, ?_, fun x => ?_, hgood, ?_, h.idle⟩
  · rw [hown]
    exact h.exclusive.acquire _ r fun o ho => hfree ((h.used r).mpr ⟨o, ho⟩)
  · rw [hown, owned_acquire, ← h.used]
    exact hused x
  · exact filled_update s.producers s.nCount s.records p _ (fun q _ => h.filled q)
      ⟨hidx, nofun, nofun, nofun, nofun, nofun⟩

-- A store changes a record that nobody else has.
theorem Held.store (h : Held size s b) (p : P) (e : STEvent O F) (r : Rec) (k : ℕ)
    (hp : s.producers p = .filling e r k) (hk : k < 5) :
    Held size (EventRecords.setProducer { s with
      records := Function.update s.records r (store e (s.records r) k) } p (.filling e r (k+1))) b := by
  have hp' : own s b (.producer p) = [r] := by
    rw [own, hp]
    rfl
  have hown : own (EventRecords.setProducer { s with
      records := Function.update s.records r (EventRecords.store e (s.records r) k) } p
      (.filling e r (k+1))) b = own s b := by
    rw [own_setProducer]
    exact (congrArg (Function.update (own s b) (.producer p)) hp'.symm).trans (Function.update_eq_self _ _)
  have hsame (o : Owner P) (ho : o ≠ .producer p) (x : Rec) (hx : x ∈ own s b o) :
      Function.update s.records r (EventRecords.store e (s.records r) k) x = s.records x := by
    refine Function.update_of_ne ?_ _ _
    rintro rfl
    exact h.exclusive.disjoint (.producer p) o ho.symm x (hp' ▸ List.mem_cons_self) hx
  have hfilled := h.filled p
  rw [hp] at hfilled
  have hstored : Agree e (Function.update s.records r (EventRecords.store e (s.records r) k) r) (k+1) := by
    rw [Function.update_self]
    exact agree_store e _ k hk hfilled.2
  refine ⟨h.represents, fun t => ?_, ?_, fun x => ?_, h.good, ?_, h.idle⟩
  · have hmap := (b t).map_congr _ s.records (hsame (.queue t) nofun)
    have hpending := (s.consumers t).pending_congr (hsame (.consumer t) nofun)
    have hpast := h.past t
    rw [← hmap, ← hpending] at hpast
    exact hpast
  · rw [hown]
    exact h.exclusive
  · rw [hown]
    exact h.used x
  · refine filled_update s.producers s.nCount _ p _ (fun q hq => ?_) ⟨hfilled.1, hstored⟩
    exact (h.filled q).congr (hsame (.producer q) fun heq => hq (Owner.producer.inj heq))

-- A push hands the record over to the queue.
theorem Held.push (h : Held size s b) (p : P) (e : STEvent O F) (r : Rec) (hp : s.producers p = .pushing e r)
    (hsize : 1 ≤ size e.nThreadIdx) (q : CQueueS Rec) (ok : Bool)
    (hpush : (s.m_sEventQueue e.nThreadIdx).push r = .ok (q, ok)) :
    Held size (EventRecords.setProducer { s with
      m_sEventQueue := Function.update s.m_sEventQueue e.nThreadIdx q
      put := Function.update s.put e.nThreadIdx (s.put e.nThreadIdx ++ [e]) } p .idle)
      (Function.update b e.nThreadIdx ((b e.nThreadIdx).push (size e.nThreadIdx) r)) := by
  obtain ⟨hidx, hfilled⟩ : e.nThreadIdx < s.nCount ∧ s.records r = e := by
    have hfilled := h.filled p
    rwa [hp] at hfilled
  generalize ht : e.nThreadIdx = t at hidx hsize hpush ⊢
  have hp' : own s b (.producer p) = [r] := by
    rw [own, hp]
    rfl
  have hne : (Owner.producer p : Owner P) ≠ .queue t := nofun
  have hown : own (EventRecords.setProducer { s with
      m_sEventQueue := Function.update s.m_sEventQueue t q
      put := Function.update s.put t (s.put t ++ [e]) } p .idle)
      (Function.update b t ((b t).push (size t) r)) =
      Function.update (Function.update (own s b) (.producer p) []) (.queue t)
        ((b t).push (size t) r).content := by
    rw [own_setProducer, own_queue, Function.update_comm hne.symm]
    rfl
  -- the record goes from the thread that pushes it to the queue
  have hgive : [r].Perm (own s b (.producer p)) := .of_eq hp'.symm
  have htake : ((b t).push (size t) r).content.Perm (r :: own s b (.queue t)) := by
    rw [Backlog.content_push]
    exact List.perm_append_singleton r _
  refine ⟨fun u => ?_, fun u => ?_, ?_, fun x => ?_, h.good, ?_, fun u hu => ?_⟩
  · show CQueueS.Represents (size u) (Function.update s.m_sEventQueue t q u) (Function.update b t _ u)
    by_cases hut : u = t
    · subst hut
      rw [Function.update_self, Function.update_self]
      exact (CQueueS.push_represents _ _ q hsize _ r ok (h.represents u) hpush).2
    · rw [Function.update_of_ne hut, Function.update_of_ne hut]
      exact h.represents u
  · show CQueueS.Past (size u) ((Function.update b t _ u).map s.records)
      (Function.update s.put t (s.put t ++ [e]) u) (s.handled u ++ (s.consumers u).pending s.records)
    by_cases hut : u = t
    · subst hut
      rw [Function.update_self, Function.update_self, Backlog.map_push, hfilled]
      exact (h.past u).push e
    · rw [Function.update_of_ne hut, Function.update_of_ne hut]
      exact h.past u
  · rw [hown]
    exact h.exclusive.move _ _ hne r [] _ hgive htake
  · rw [hown, owned_move h.exclusive _ _ hne r [] _ hgive htake]
    exact h.used x
  · exact filled_update s.producers s.nCount s.records p _ (fun q _ => h.filled q) trivial
  · show Function.update s.put t (s.put t ++ [e]) u = []
    have hut : u ≠ t := fun heq => absurd hidx (not_lt.mpr (heq ▸ hu))
    rw [Function.update_of_ne hut]
    exact h.idle u hu

-- A pop that finds nothing, or deletes a ring.
theorem Held.pop_none (h : Held size s b) (t : ℕ) (q : CQueueS Rec)
    (hpop : (s.m_sEventQueue t).pop = .ok (q, none)) :
    Held size { s with m_sEventQueue := Function.update s.m_sEventQueue t q }
      (Function.update b t (b t).pop.1) := by
  obtain ⟨q', hpop', hrepresents⟩ := CQueueS.pop_represents _ _ _ (h.represents t)
  obtain ⟨rfl, hnone⟩ := Prod.mk.inj (Except.ok.inj (hpop.symm.trans hpop'))
  have hown : own s (Function.update b t (b t).pop.1) = own s b := by
    rw [own_queue, Backlog.content_pop_none _ hnone.symm]
    exact Function.update_eq_self _ _
  refine ⟨fun u => ?_, fun u => ?_, ?_, fun x => ?_, h.good, h.filled, h.idle⟩
  · show CQueueS.Represents (size u) (Function.update s.m_sEventQueue t q u) (Function.update b t _ u)
    by_cases hut : u = t
    · subst hut
      rw [Function.update_self, Function.update_self]
      exact hrepresents
    · rw [Function.update_of_ne hut, Function.update_of_ne hut]
      exact h.represents u
  · by_cases hut : u = t
    · subst hut
      obtain ⟨hmap, hval⟩ := (b u).map_pop s.records
      have hpast := (h.past u).pop
      rw [← hmap, ← hval, ← hnone, Option.map_none, Option.toList_none, List.append_nil] at hpast
      rw [Function.update_self]
      exact hpast
    · rw [Function.update_of_ne hut]
      exact h.past u
  · exact hown ▸ h.exclusive
  · exact (h.used x).trans (by rw [← hown]; rfl)

-- A pop hands the record over to the thread.
theorem Held.pop_some (h : Held size s b) (t : ℕ) (ht : s.consumers t = .idle) (q : CQueueS Rec) (r : Rec)
    (hpop : (s.m_sEventQueue t).pop = .ok (q, some r)) :
    Held size (EventRecords.setConsumer { s with
      m_sEventQueue := Function.update s.m_sEventQueue t q } t (.popped r))
      (Function.update b t (b t).pop.1) := by
  obtain ⟨q', hpop', hrepresents⟩ := CQueueS.pop_represents _ _ _ (h.represents t)
  obtain ⟨rfl, hsome⟩ := Prod.mk.inj (Except.ok.inj (hpop.symm.trans hpop'))
  have hne : (Owner.queue t : Owner P) ≠ .consumer t := nofun
  have hown : own (EventRecords.setConsumer { s with
      m_sEventQueue := Function.update s.m_sEventQueue t q } t (.popped r))
      (Function.update b t (b t).pop.1) =
      Function.update (Function.update (own s b) (.queue t) (b t).pop.1.content) (.consumer t) [r] := by
    rw [own_setConsumer, own_queue]
    rfl
  have hgive : (r :: (b t).pop.1.content).Perm (own s b (.queue t)) := by
    have hperm := (b t).content_pop
    rw [← hsome] at hperm
    exact hperm.symm
  have htake : [r].Perm (r :: own s b (.consumer t)) := by
    rw [own, ht]
    exact .refl _
  refine ⟨fun u => ?_, fun u => ?_, ?_, fun x => ?_, h.good, h.filled, h.idle⟩
  · show CQueueS.Represents (size u) (Function.update s.m_sEventQueue t q u) (Function.update b t _ u)
    by_cases hut : u = t
    · subst hut
      rw [Function.update_self, Function.update_self]
      exact hrepresents
    · rw [Function.update_of_ne hut, Function.update_of_ne hut]
      exact h.represents u
  · show CQueueS.Past (size u) ((Function.update b t _ u).map s.records) (s.put u)
      (s.handled u ++ (Function.update s.consumers t (.popped r) u).pending s.records)
    by_cases hut : u = t
    · subst hut
      obtain ⟨hmap, hval⟩ := (b u).map_pop s.records
      have hpast := (h.past u).pop
      rw [← hmap, ← hval, ← hsome, ht, Consumer.pending, List.append_nil] at hpast
      rw [Function.update_self, Function.update_self]
      exact hpast
    · rw [Function.update_of_ne hut, Function.update_of_ne hut]
      exact h.past u
  · rw [hown]
    exact h.exclusive.move _ _ hne r _ [r] hgive htake
  · rw [hown, owned_move h.exclusive _ _ hne r _ [r] hgive htake]
    exact h.used x

-- The function of the record is called, with what is in it.
theorem Held.call (h : Held size s b) (t : ℕ) (r : Rec) (ht : s.consumers t = .popped r) :
    Held size (EventRecords.setConsumer { s with
      handled := Function.update s.handled t (s.handled t ++ [s.records r]) } t (.called r)) b := by
  have ht' : own s b (.consumer t) = [r] := by
    rw [own, ht]
    rfl
  have hown : own (EventRecords.setConsumer { s with
      handled := Function.update s.handled t (s.handled t ++ [s.records r]) } t (.called r)) b =
      own s b := by
    rw [own_setConsumer]
    exact (congrArg (Function.update (own s b) (.consumer t)) ht'.symm).trans (Function.update_eq_self _ _)
  refine ⟨h.represents, fun u => ?_, ?_, fun x => ?_, h.good, h.filled, h.idle⟩
  · show CQueueS.Past (size u) ((b u).map s.records) (s.put u)
      (Function.update s.handled t (s.handled t ++ [s.records r]) u ++
        (Function.update s.consumers t (.called r) u).pending s.records)
    by_cases hut : u = t
    · subst hut
      have hpast := h.past u
      rw [ht] at hpast
      rw [Function.update_self, Function.update_self, Consumer.pending, List.append_nil]
      exact hpast
    · rw [Function.update_of_ne hut, Function.update_of_ne hut]
      exact h.past u
  · rw [hown]
    exact h.exclusive
  · rw [hown]
    exact h.used x

theorem Held.delEvent (h : Held size s b) (o : Owner P) (r : Rec) (ho : own s b o = [r]) :
    Good (s.m_pEventPool.delEvent r) ∧ Exclusive (Function.update (own s b) o []) ∧
      ∀ x, InUse (s.m_pEventPool.delEvent r) x ↔ Owned (Function.update (own s b) o []) x := by
  have hmem : r ∈ own s b o := ho ▸ List.mem_cons_self
  obtain ⟨hgood, hused⟩ := delEvent_spec _ r h.good ((h.used r).mpr ⟨o, hmem⟩)
  refine ⟨hgood, h.exclusive.shrink o [] List.nodup_nil nofun, fun x => ?_⟩
  rw [hused, owned_release h.exclusive o r x [] (.of_eq ho.symm), h.used]

-- A push that fails gives the record back.
theorem Held.fail (h : Held size s b) (p : P) (r : Rec) (hp : s.producers p = .failing r) :
    Held size (EventRecords.setProducer { s with m_pEventPool := s.m_pEventPool.delEvent r } p .idle) b := by
  obtain ⟨hgood, hexclusive, hused⟩ := h.delEvent (.producer p) r (by rw [own, hp]; rfl)
  have hown : own (EventRecords.setProducer { s with m_pEventPool := s.m_pEventPool.delEvent r } p .idle) b =
      Function.update (own s b) (.producer p) [] := own_setProducer ..
  refine ⟨h.represents, h.past, hown ▸ hexclusive, fun x => ?_, hgood, ?_, h.idle⟩
  · rw [hown]
    exact hused x
  · exact filled_update s.producers s.nCount s.records p _ (fun q _ => h.filled q) trivial

-- So does the thread, behind the call.
theorem Held.finish (h : Held size s b) (t : ℕ) (r : Rec) (ht : s.consumers t = .called r) :
    Held size (EventRecords.setConsumer { s with m_pEventPool := s.m_pEventPool.delEvent r } t .idle) b := by
  obtain ⟨hgood, hexclusive, hused⟩ := h.delEvent (.consumer t) r (by rw [own, ht]; rfl)
  have hown : own (EventRecords.setConsumer { s with m_pEventPool := s.m_pEventPool.delEvent r } t .idle) b =
      Function.update (own s b) (.consumer t) [] := own_setConsumer ..
  refine ⟨h.represents, fun u => ?_, hown ▸ hexclusive, fun x => ?_, hgood, h.filled, h.idle⟩
  · show CQueueS.Past (size u) ((b u).map s.records) (s.put u)
      (s.handled u ++ (Function.update s.consumers t .idle u).pending s.records)
    by_cases hut : u = t
    · subst hut
      have hpast := h.past u
      rw [ht] at hpast
      rw [Function.update_self]
      exact hpast
    · rw [Function.update_of_ne hut]
      exact h.past u
  · rw [hown]
    exact hused x

end Custody

section Run

variable {P O F : Type} [DecidableEq P] {size : ℕ → ℕ}

theorem held_produce (hsize : ∀ t, 1 ≤ size t) (s s' : State P O F) (b : ℕ → Backlog Rec) (p : P)
    (calloc : Bool) (h : Held size s b) (hstep : produce s p calloc = some s') :
    ∃ b', Held size s' b' ∧ s'.nCount = s.nCount := by
  cases hp : s.producers p with
  | idle =>
    rw [produce, hp] at hstep
    cases hstep
  | entered e =>
    rw [produce, hp] at hstep
    cases hnew : s.m_pEventPool.newEvent calloc with
    | mk m r =>
      simp only [hnew] at hstep
      cases r with
      | some r =>
        cases hstep
        exact ⟨b, h.newEvent p e hp calloc m r hnew, rfl⟩
      | none =>
        cases hstep
        rw [newEvent_none _ m calloc h.good hnew]
        exact ⟨b, h.setProducer p .idle (by rw [hp]; rfl) trivial, rfl⟩
  | filling e r k =>
    have hfilled := h.filled p
    rw [hp] at hfilled
    rw [produce, hp] at hstep
    dsimp only at hstep
    split_ifs at hstep with hk hactive
    · cases hstep
      exact ⟨b, h.store p e r k hp hk, rfl⟩
    · cases hstep
      exact ⟨b, h.setProducer p (.pushing e r) (by rw [hp]; rfl) ⟨hfilled.1, hfilled.2.eq hk⟩, rfl⟩
    · cases hstep
      exact ⟨b, h.setProducer p (.failing r) (by rw [hp]; rfl) trivial, rfl⟩
  | pushing e r =>
    rw [produce, hp] at hstep
    cases hpush : (s.m_sEventQueue e.nThreadIdx).push r with
    | error f =>
      simp only [hpush] at hstep
      cases hstep
    | ok q =>
      simp only [hpush] at hstep
      cases hstep
      exact ⟨_, h.push p e r hp (hsize _) q.1 q.2 hpush, rfl⟩
  | failing r =>
    rw [produce, hp] at hstep
    cases hstep
    exact ⟨b, h.fail p r hp, rfl⟩

theorem held_consume (s s' : State P O F) (b : ℕ → Backlog Rec) (t : ℕ) (h : Held size s b)
    (hstep : consume s t = some s') : ∃ b', Held size s' b' ∧ s'.nCount = s.nCount := by
  cases ht : s.consumers t with
  | idle =>
    rw [consume, ht] at hstep
    cases hpop : (s.m_sEventQueue t).pop with
    | error f =>
      simp only [hpop] at hstep
      cases hstep
    | ok q =>
      obtain ⟨q, r⟩ := q
      simp only [hpop] at hstep
      cases r with
      | none =>
        cases hstep
        exact ⟨_, h.pop_none t q hpop, rfl⟩
      | some r =>
        cases hstep
        exact ⟨_, h.pop_some t ht q r hpop, rfl⟩
  | popped r =>
    rw [consume, ht] at hstep
    cases hstep
    exact ⟨b, h.call t r ht, rfl⟩
  | called r =>
    rw [consume, ht] at hstep
    cases hstep
    exact ⟨b, h.finish t r ht, rfl⟩

/-- Every step keeps the custody of the records. -/
theorem held_step (hsize : ∀ t, 1 ≤ size t) (s s' : State P O F) (b : ℕ → Backlog Rec) (a : Act P O F)
    (h : Held size s b) (hstep : step s a = some s') :
    ∃ b', Held size s' b' ∧ s'.nCount = s.nCount := by
  cases a with
  | putEvent p nValue pObj pObj2 fp nThreadIdx =>
    cases hp : s.producers p with
    | idle =>
      simp only [step, hp] at hstep
      split_ifs at hstep with hneg hidx hidx
      · cases hstep
        exact ⟨b, h.setProducer p _ (by rw [hp]; rfl) hidx, rfl⟩
      · cases hstep
        exact ⟨b, h, rfl⟩
      · cases hstep
        exact ⟨b, h.setProducer p _ (by rw [hp]; rfl) hidx, rfl⟩
      · cases hstep
        exact ⟨b, h, rfl⟩
    | entered | filling | pushing | failing =>
      simp only [step, hp] at hstep
      cases hstep
  | produce p calloc => exact held_produce hsize s s' b p calloc h hstep
  | consume t => exact held_consume s s' b t h hstep
  | setActive t bActive =>
    cases hstep
    exact ⟨b, ⟨h.represents, h.past, h.exclusive, h.used, h.good, h.filled, h.idle⟩, rfl⟩

variable {nCount nMax : ℕ} {distance : ℕ → ℤ} {records : Rec → STEvent O F}

omit [DecidableEq P] in
theorem held_start (hsize : ∀ t, 1 ≤ size t) (hmax : nMax < 2^31)
    (hapart : ∀ n, isInclude (i32 (distance n)) nMax = false) :
    Held size (start (P := P) nCount nMax size distance records) fun _ => .first [] := by
  have hown : own (start (P := P) nCount nMax size distance records) (fun _ => .first []) =
      fun _ => [] := by
    funext o
    cases o <;> rfl
  refine ⟨fun t => CQueueS.represents_alloc _ (hsize t) .none, fun t => CQueueS.past_start _, ?_,
    fun r => ?_, ⟨TimerPool.poolOk_alloc nMax hmax, nofun, hapart⟩, fun p => trivial, fun t _ => rfl⟩
  · rw [hown]
    exact exclusive_empty
  · rw [hown]
    refine ⟨fun hr => ?_, fun hr => absurd hr (owned_empty r)⟩
    cases r with
    | chunk i => exact absurd hr.2 Bool.false_ne_true
    | heap n => exact absurd hr Bool.false_ne_true

/-- No thread is in `putEvent` or holds a record, and all that can be handled has been. -/
structure Quiet (size : ℕ → ℕ) (s : State P O F) : Prop where
  producers : ∀ p, s.producers p = .idle
  consumers : ∀ t, s.consumers t = .idle
  handled : ∀ t, s.handled t = (s.put t).drop (size t)

omit [DecidableEq P] in
theorem Held.quiet {s : State P O F} {b : ℕ → Backlog Rec} (h : Held size s b) (hquiet : Quiet size s) :
    {r | InUse s.m_pEventPool r}.Finite ∧ {r | InUse s.m_pEventPool r}.ncard =
      ∑ t ∈ Finset.range s.nCount, min (size t) (s.put t).length := by
  have hcontent (t : ℕ) : (b t).content.length = min (size t) (s.put t).length := by
    have hpast := h.past t
    rw [hquiet.consumers t, Consumer.pending, List.append_nil, hquiet.handled t] at hpast
    have hwaiting : ((b t).map s.records).waiting = [] :=
      List.append_cancel_left (hpast.drop.symm.trans (List.append_nil _).symm)
    have hkept := hpast.length_kept
    rw [Backlog.waiting_map] at hwaiting
    rw [Backlog.kept_map, List.length_map] at hkept
    rw [Backlog.content, List.map_eq_nil_iff.mp hwaiting, List.append_nil, hkept]
  have hset : {r | InUse s.m_pEventPool r} = {r | Owned (own s b) r} := Set.ext h.used
  let queues : Finset (Owner P) := (Finset.range s.nCount).map ⟨Owner.queue, fun _ _ => Owner.queue.inj⟩
  obtain ⟨hfinite, hcard⟩ := h.exclusive.ncard_owned queues fun o ho => by
    cases o with
    | producer p =>
      rw [own, hquiet.producers p]
      rfl
    | consumer t =>
      rw [own, hquiet.consumers t]
      rfl
    | queue t =>
      have hle : s.nCount ≤ t := by
        by_contra hlt
        exact ho (Finset.mem_map.mpr ⟨t, Finset.mem_range.mpr (not_le.mp hlt), rfl⟩)
      refine List.length_eq_zero_iff.mp ((hcontent t).trans ?_)
      rw [h.idle t hle, List.length_nil, Nat.min_zero]
  rw [hset]
  refine ⟨hfinite, hcard.trans ((Finset.sum_map ..).trans ?_)⟩
  exact Finset.sum_congr rfl fun t _ => hcontent t

/-- In every run the functions of a thread are called in order, once for each event that was put for it
and with the values it was put with, but for the first `size t` events; and when nothing is going on, the
records of exactly these are still in use. -/
theorem events_handled (hsize : ∀ t, 1 ≤ size t) (hmax : nMax < 2^31)
    (hapart : ∀ n, isInclude (i32 (distance n)) nMax = false) (acts : List (Act P O F)) (s : State P O F)
    (hrun : Runs.runFrom step (start nCount nMax size distance records) acts = some s) :
    (∀ t, s.handled t <+: (s.put t).drop (size t)) ∧
    (Quiet size s → {r | InUse s.m_pEventPool r}.Finite ∧ {r | InUse s.m_pEventPool r}.ncard =
      ∑ t ∈ Finset.range nCount, min (size t) (s.put t).length) := by
  obtain ⟨⟨b, hb⟩, hcount⟩ := Runs.runFrom_invariant step
    (fun s => (∃ b, Held size s b) ∧ s.nCount = nCount) (fun s a s' hs ha => by
      obtain ⟨⟨b, hb⟩, hcount⟩ := hs
      obtain ⟨b', hb', hsame⟩ := held_step hsize s s' b a hb ha
      exact ⟨⟨b', hb'⟩, hsame.trans hcount⟩) _ s acts ⟨⟨_, held_start hsize hmax hapart⟩, rfl⟩ hrun
  refine ⟨fun t => ?_, fun hquiet => ?_⟩
  · rw [(hb.past t).drop, List.append_assoc]
    exact List.prefix_append _ _
  · rw [← hcount]
    exact hb.quiet hquiet

/-- One thread puts two events, the second one in a record of the heap, and both the rings are used. -/
def twoEvents : List (Act Unit ℕ ℕ) :=
  let put : List (Act Unit ℕ ℕ) := .putEvent () 7 1 2 3 (-1) :: List.replicate 8 (.produce () true)
  .setActive 0 true :: put ++ put ++ List.replicate 4 (.consume 0)

theorem events_handled_twoEvents : ∃ s : State Unit ℕ ℕ,
    Runs.runFrom step (start 1 1 (fun _ => 1) (fun _ => -1) fun _ => ⟨0, 0, 0, 0, 0⟩) twoEvents = some s ∧
    (∀ t, s.handled t <+: (s.put t).drop 1) ∧
    (Quiet (fun _ => 1) s → {r | InUse s.m_pEventPool r}.Finite ∧ {r | InUse s.m_pEventPool r}.ncard =
      ∑ t ∈ Finset.range 1, min 1 (s.put t).length) := by
  have hsome : (Runs.runFrom step (start 1 1 (fun _ => 1) (fun _ => -1) fun _ => ⟨0, 0, 0, 0, 0⟩)
      twoEvents).isSome = true := by
    decide +kernel
  obtain ⟨s, hs⟩ := Option.isSome_iff_exists.mp hsome
  exact ⟨s, hs, events_handled (fun _ => le_rfl) (by norm_num) (fun _ => by decide) twoEvents s hs⟩

end Run

end Leviathan.EventRecords
