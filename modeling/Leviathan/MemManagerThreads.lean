import Leviathan.BufPoolThreads
import Leviathan.MemManagerPairing

/-! `CMemManager` (comMemManager.h, comMemManager.cpp) under any number of threads: `__newBuf`, which all
the calls for a buffer come down to, and `delBufByIndex`.  In a pool the threads take the steps of
`CBufPool`; `calloc` and `free` are one step each.  A thread gives back the blocks that it got itself, and
asks for classes up to 30 (`1 << 31` is negative). -/
namespace Leviathan.MemManagerThreads

open CMemManager MemClient Ownership

section Model

/-- Where a thread is; `n` is the number of bytes that it has asked for. -/
inductive Pc
  | idle
  -- `if (m_nOverMaxIdx < nIdx) m_nOverMaxIdx = nIdx`
  | readOver (nIdx n : ℕ)
  | setOver (nIdx n : ℕ)
  | inPool (nIdx n : ℕ) (pc : BufPoolThreads.Pc)
  | calloc (nIdx n size : ℕ)
  | free (a : ℤ)

/-- A block that was returned to a thread, with the class and the bytes that it had asked for. -/
structure Held where
  block : Block
  nIdx : ℕ
  n : ℕ

structure Thread where
  pc : Pc
  held : List Held

/-- The blocks of the heap are those that `calloc` has answered and that were not given to `free`. -/
structure State (T : Type) where
  mgr : CMemManager
  heap : List (ℤ × ℕ)
  thr : T → Thread

def atPool (nIdx n : ℕ) (pc : BufPoolThreads.Pc) : Pc := if pc = .idle then .idle else .inPool nIdx n pc

/-- The first step of `__newBuf`. -/
def newEntry (m : CMemManager) (nIdx n : ℕ) : Pc :=
  match m.poolOf nIdx with
  | none => .readOver nIdx n
  | some _ => .inPool nIdx n .readLast

/-- The first step of `delBufByIndex`. -/
def delEntry (m : CMemManager) (pBuf : ℤ) (nIdx : ℕ) : Pc :=
  match m.poolOf nIdx with
  | none => if pBuf = 0 then .idle else .free pBuf
  | some p => (BufPoolThreads.delMemEntry p pBuf).elim (.free pBuf) (atPool nIdx 0)

/-- The next step of a thread, unless it is about to call `calloc` or `free`. -/
def threadStep (m : CMemManager) (th : Thread) : CMemManager × Thread :=
  match th.pc with
  | .idle | .calloc _ _ _ | .free _ => (m, th)
  | .readOver nIdx n =>
    (m, { th with pc := if m.m_nOverMaxIdx < nIdx then .setOver nIdx n else .calloc nIdx n n })
  | .setOver nIdx n => ({ m with m_nOverMaxIdx := nIdx }, { th with pc := .calloc nIdx n n })
  | .inPool nIdx n pc =>
    match m.poolOf nIdx with
    | none => (m, th)
    | some p =>
      if pc = .newAlloc then (m, { th with pc := .calloc nIdx n (getSizeByIndex p.m_nShift) })
      else
        let r := BufPoolThreads.threadStep p ⟨pc, []⟩
        ({ m with m_pBufList := Function.update m.m_pBufList nIdx (some r.1) },
          ⟨atPool nIdx n r.2.pc,
            r.2.held.map (fun i => ⟨⟨p.getMem i, .pool nIdx i⟩, nIdx, n⟩) ++ th.held⟩)

/-- A call of `__newBuf` and one of `delBufByIndex` for the block at position `j`; an answer of `calloc`,
which is NULL or an address. -/
inductive Act (T : Type)
  | callNew (t : T) (nIdx size : ℕ)
  | callDel (t : T) (j : ℕ)
  | run (t : T)
  | calloc (t : T) (a : Option ℤ)
  | free (t : T)

variable (conf : STBufConf) (chunk : ℕ → ℤ) {T : Type} [DecidableEq T]

/-- No block of the heap, and no chunk, is at the `size` bytes from `a` on. -/
def fresh (heap : List (ℤ × ℕ)) (a : ℤ) (size : ℕ) : Bool :=
  heapFree conf chunk a size && heap.all (fun b => decide (a+size ≤ b.1) || decide (b.1+b.2 ≤ a))

def step (s : State T) : Act T → Option (State T)
  | .callNew t nIdx size =>
    match (s.thr t).pc with
    | .idle =>
      if nIdx ≤ 30 ∧ size ≤ 2^nIdx then
        let n := if size = 0 then 1 <<< nIdx else size
        some { s with thr := Function.update s.thr t { s.thr t with pc := newEntry s.mgr nIdx n } }
      else none
    | _ => none
  | .callDel t j =>
    match (s.thr t).pc, (s.thr t).held[j]? with
    | .idle, some h =>
      some { s with
        thr := Function.update s.thr t
          ⟨delEntry s.mgr h.block.pValue h.nIdx, (s.thr t).held.eraseIdx j⟩ }
    | _, _ => none
  | .run t =>
    let r := threadStep s.mgr (s.thr t)
    some { s with mgr := r.1, thr := Function.update s.thr t r.2 }
  | .calloc t a =>
    match (s.thr t).pc with
    | .calloc nIdx n size =>
      match a with
      | none => some { s with thr := Function.update s.thr t { s.thr t with pc := .idle } }
      | some a =>
        if fresh conf chunk s.heap a size then
          some { s with
            heap := (a, size) :: s.heap
            thr := Function.update s.thr t ⟨.idle, ⟨⟨a, .heap size⟩, nIdx, n⟩ :: (s.thr t).held⟩ }
        else none
    | _ => none
  | .free t =>
    match (s.thr t).pc with
    | .free a =>
      some { s with
        heap := s.heap.filter (fun b => b.1 ≠ a)
        thr := Function.update s.thr t { s.thr t with pc := .idle } }
    | _ => none

def start : State T := ⟨CMemManager.alloc conf chunk, [], fun _ => ⟨.idle, []⟩⟩

end Model

/-- The slots of pool `k` that are among the blocks. -/
def slotIn (k : ℕ) (h : Held) : Option ℕ :=
  match h.block.origin with
  | .pool nIdx i => if nIdx = k then some i else none
  | .heap _ => none

def addressIn (h : Held) : Option ℤ :=
  match h.block.origin with
  | .pool _ _ => none
  | .heap _ => some h.block.pValue

/-- The number of bytes of a block. -/
def length (h : Held) : ℕ :=
  match h.block.origin with
  | .pool nIdx _ => 2^nIdx
  | .heap size => size

section Pools

variable (k : ℕ)

def pointIn : Pc → BufPoolThreads.Pc
  | .inPool nIdx _ pc => if nIdx = k then pc else .idle
  | .idle | .readOver _ _ | .setOver _ _ | .calloc _ _ _ | .free _ => .idle

/-- What pool `k` knows of a thread. -/
def poolThread (th : Thread) : BufPoolThreads.Thread := ⟨pointIn k th.pc, th.held.filterMap (slotIn k)⟩

theorem pointIn_atPool (n : ℕ) (pc : BufPoolThreads.Pc) : pointIn k (atPool k n pc) = pc := by
  unfold atPool
  split_ifs with hpc
  · exact hpc.symm
  · exact if_pos rfl

theorem pointIn_other (nIdx n : ℕ) (pc : BufPoolThreads.Pc) (hk : nIdx ≠ k) :
    pointIn k (atPool nIdx n pc) = .idle := by
  unfold atPool
  split_ifs
  · rfl
  · exact if_neg hk

-- What a thread holds already makes no difference to its next step.
theorem threadStep_held (p : CBufPool) (pc : BufPoolThreads.Pc) (l : List ℕ) :
    BufPoolThreads.threadStep p ⟨pc, l⟩ = ((BufPoolThreads.threadStep p ⟨pc, []⟩).1,
      ⟨(BufPoolThreads.threadStep p ⟨pc, []⟩).2.pc,
        (BufPoolThreads.threadStep p ⟨pc, []⟩).2.held ++ l⟩) := by
  cases pc with
  | cas i j =>
    simp only [BufPoolThreads.threadStep]
    split_ifs <;> rfl
  | idle | readLast | readUse | readFlag | incUse | setLast | clearFirst | newAlloc | initFlag | decUse
  | setHint => rfl

theorem threadStep_got (p : CBufPool) (pc : BufPoolThreads.Pc) (i : ℕ)
    (h : i ∈ (BufPoolThreads.threadStep p ⟨pc, []⟩).2.held) : pc = .clearFirst i := by
  cases pc with
  | cas i j =>
    simp only [BufPoolThreads.threadStep] at h
    split_ifs at h <;> exact absurd h List.not_mem_nil
  | clearFirst j => rw [List.mem_singleton.mp h]
  | idle | readLast | readUse | readFlag | incUse | setLast | newAlloc | initFlag | decUse
  | setHint => exact absurd h List.not_mem_nil

end Pools

variable (conf : STBufConf) (chunk : ℕ → ℤ) {T : Type} [DecidableEq T]

/-- Each pool is as its own threads would have left it. -/
structure PoolsOk [Fintype T] (m : CMemManager) (thr : T → Thread) : Prop where
  pool : ∀ k, Configured conf k → ∃ p, m.m_pBufList k = some p ∧
    BufPoolThreads.Inv k (conf.nMaxList k) (chunk k) ⟨p, fun t => poolThread k (thr t)⟩
  absent : ∀ k, ¬Configured conf k → m.m_pBufList k = none

section Pools

variable [Fintype T] {conf chunk} {m : CMemManager} {thr : T → Thread} (t : T) (th : Thread)

omit [DecidableEq T] in
theorem PoolsOk.poolOf_eq (h : PoolsOk conf chunk m thr) (k : ℕ) : m.poolOf k = m.m_pBufList k := by
  have hok : MgrOk conf chunk m := by
    refine ⟨fun j hj => ?_, h.absent⟩
    obtain ⟨p, hp, hinv⟩ := h.pool j hj
    exact ⟨p, hp, hinv.layout⟩
  exact MemClient.poolOf_eq m k hok

omit [DecidableEq T] in
theorem PoolsOk.configured (h : PoolsOk conf chunk m thr) (k : ℕ) (p : CBufPool)
    (hp : m.poolOf k = some p) : Configured conf k ∧
      BufPoolThreads.Inv k (conf.nMaxList k) (chunk k) ⟨p, fun t => poolThread k (thr t)⟩ := by
  rw [h.poolOf_eq] at hp
  have hk : Configured conf k := by
    by_contra hk
    rw [h.absent k hk] at hp
    cases hp
  obtain ⟨q, hq, hinv⟩ := h.pool k hk
  obtain rfl := Option.some.inj (hp.symm.trans hq)
  exact ⟨hk, hinv⟩

-- No pool notices what the thread does.
theorem PoolsOk.unnoticed (h : PoolsOk conf chunk m thr) (o : ℕ)
    (hth : ∀ k, poolThread k th = poolThread k (thr t)) :
    PoolsOk conf chunk { m with m_nOverMaxIdx := o } (Function.update thr t th) := by
  refine ⟨fun k hk => ?_, h.absent⟩
  obtain ⟨p, hp, hinv⟩ := h.pool k hk
  refine ⟨p, hp, ?_⟩
  change BufPoolThreads.Inv _ _ _ ⟨p, poolThread k ∘ Function.update thr t th⟩
  rw [Function.comp_update, hth]
  change BufPoolThreads.Inv _ _ _
    ⟨p, Function.update (fun u => poolThread k (thr u)) t (poolThread k (thr t))⟩
  rw [Function.update_eq_self]
  exact hinv

-- The thread moves in one pool.
theorem PoolsOk.move (h : PoolsOk conf chunk m thr) (k : ℕ) (hk : Configured conf k) (p : CBufPool)
    (hp : BufPoolThreads.Inv k (conf.nMaxList k) (chunk k)
      ⟨p, Function.update (fun u => poolThread k (thr u)) t (poolThread k th)⟩)
    (hother : ∀ j, j ≠ k → poolThread j th = poolThread j (thr t)) :
    PoolsOk conf chunk { m with m_pBufList := Function.update m.m_pBufList k (some p) }
      (Function.update thr t th) := by
  constructor
  · intro j hj
    by_cases hjk : j = k
    · subst hjk
      refine ⟨p, Function.update_self .., ?_⟩
      change BufPoolThreads.Inv _ _ _ ⟨p, poolThread j ∘ Function.update thr t th⟩
      rw [Function.comp_update]
      exact hp
    · obtain ⟨q, hq, hinv⟩ := h.pool j hj
      refine ⟨q, (Function.update_of_ne hjk _ _).trans hq, ?_⟩
      change BufPoolThreads.Inv _ _ _ ⟨q, poolThread j ∘ Function.update thr t th⟩
      rw [Function.comp_update, hother j hjk]
      change BufPoolThreads.Inv _ _ _
        ⟨q, Function.update (fun u => poolThread j (thr u)) t (poolThread j (thr t))⟩
      rw [Function.update_eq_self]
      exact hinv
  · intro j hj
    have hjk : j ≠ k := fun heq => hj (heq ▸ hk)
    exact (Function.update_of_ne hjk _ _).trans (h.absent j hj)

-- The pool itself stays as it is.
theorem PoolsOk.move_same (h : PoolsOk conf chunk m thr) (k : ℕ) (hk : Configured conf k) (p : CBufPool)
    (hpool : m.m_pBufList k = some p)
    (hp : BufPoolThreads.Inv k (conf.nMaxList k) (chunk k)
      ⟨p, Function.update (fun u => poolThread k (thr u)) t (poolThread k th)⟩)
    (hother : ∀ j, j ≠ k → poolThread j th = poolThread j (thr t)) :
    PoolsOk conf chunk m (Function.update thr t th) := by
  have hmove := h.move t th k hk p hp hother
  rw [Function.update_eq_self_iff.mpr hpool.symm] at hmove
  exact hmove

theorem PoolsOk.newEntry (h : PoolsOk conf chunk m thr) (nIdx n : ℕ) (hpc : (thr t).pc = .idle) :
    PoolsOk conf chunk m (Function.update thr t { thr t with pc := newEntry m nIdx n }) := by
  rw [newEntry.eq_def]
  cases hpool : m.poolOf nIdx with
  | none =>
    refine h.unnoticed t _ m.m_nOverMaxIdx fun k => ?_
    rw [poolThread, poolThread, hpc]
    rfl
  | some p =>
    obtain ⟨hk, hinv⟩ := h.configured nIdx p hpool
    refine h.move_same t _ nIdx hk p ((h.poolOf_eq nIdx).symm.trans hpool) ?_ fun j hj => ?_
    · have hidle : (poolThread nIdx (thr t)).pc = .idle := by
        rw [poolThread, hpc]
        rfl
      have hnew := BufPoolThreads.inv_newMem _ t hinv hidle
      have hself : poolThread nIdx { thr t with pc := .inPool nIdx n .readLast } =
          { poolThread nIdx (thr t) with pc := .readLast } := by
        rw [poolThread, pointIn, if_pos rfl]
        rfl
      rw [hself]
      exact hnew
    · rw [poolThread, poolThread, hpc, pointIn, if_neg hj.symm]
      rfl

end Pools

/-- A block is where its origin says, and has room for what was asked for. -/
def HeldOk (heap : List (ℤ × ℕ)) (h : Held) : Prop :=
  h.n ≤ length h ∧
    match h.block.origin with
    | .pool k i => h.nIdx = k ∧ Configured conf k ∧ i < conf.nMaxList k ∧ h.block.pValue = chunk k+i*2^k
    | .heap size => (h.block.pValue, size) ∈ heap

/-- What a thread knows between two steps. -/
def PcOk : Pc → Prop
  | .inPool k n _ => Configured conf k ∧ n ≤ 2^k
  | .readOver _ n | .setOver _ n => 1 ≤ n
  | .calloc _ n size => n ≤ size ∧ 1 ≤ size
  | .idle | .free _ => True

/-- The blocks of the heap lie apart, outside the chunks. -/
structure HeapOk (heap : List (ℤ × ℕ)) : Prop where
  apart : heap.Pairwise (fun b b' : ℤ × ℕ => b.1+b.2 ≤ b'.1 ∨ b'.1+b'.2 ≤ b.1)
  outside : ∀ b ∈ heap, 1 ≤ b.2 ∧ heapFree conf chunk b.1 b.2 = true

section Calls

variable [Fintype T] {conf chunk} {m : CMemManager} {thr : T → Thread} (t : T)

-- The list without the block at one position.
theorem eraseIdx_split {α : Type} (l : List α) (j : ℕ) (x : α) (h : l[j]? = some x) :
    ∃ pre post, l = pre ++ x :: post ∧ l.eraseIdx j = pre ++ post := by
  obtain ⟨hj, rfl⟩ := List.getElem?_eq_some_iff.mp h
  refine ⟨l.take j, l.drop (j+1), ?_, List.eraseIdx_eq_take_drop_succ l j⟩
  rw [List.getElem_cons_drop, List.take_append_drop]

omit [DecidableEq T] in
/-- The first step of `delBufByIndex` on a block: it goes where the block has come from. -/
theorem delEntry_eq (h : PoolsOk conf chunk m thr) (hf : PoolsFit conf) (heap : List (ℤ × ℕ))
    (hheap : HeapOk conf chunk heap) (b : Held) (hb : HeldOk conf chunk heap b) :
    delEntry m b.block.pValue b.nIdx =
      match b.block.origin with
      | .pool k i => .inPool k 0 (.initFlag i)
      | .heap _ => .free b.block.pValue := by
  obtain ⟨⟨a, origin⟩, nIdx, n⟩ := b
  obtain ⟨-, hb⟩ := hb
  dsimp only at hb
  cases origin with
  | pool k i =>
    obtain ⟨rfl, hk, hi, ha⟩ := hb
    obtain ⟨p, hp, hinv⟩ := h.pool _ hk
    have hentry := BufPoolThreads.delMemEntry_slot p i hinv.layout (hf _ hk.1 hk.2.1) hi
    rw [delEntry, h.poolOf_eq, hp]
    dsimp only
    rw [ha, hentry]
    rfl
  | heap size =>
    obtain ⟨hsize, hout⟩ := hheap.outside _ hb
    dsimp only at hsize hout
    rw [delEntry]
    cases hpool : m.poolOf nIdx with
    | none =>
      have ha : a ≠ 0 := by
        simp only [heapFree, Bool.and_eq_true, decide_eq_true_eq] at hout
        exact hout.1
      exact if_neg ha
    | some p =>
      obtain ⟨hk, hinv⟩ := h.configured nIdx p hpool
      have hentry := BufPoolThreads.delMemEntry_heap p a hinv.layout (hf _ hk.1 hk.2.1)
        (heapFree_outside a size nIdx hsize hk hout)
      dsimp only
      rw [hentry]
      rfl

theorem PoolsOk.delEntry (h : PoolsOk conf chunk m thr) (hf : PoolsFit conf) (heap : List (ℤ × ℕ))
    (hheap : HeapOk conf chunk heap) (hpc : (thr t).pc = .idle) (j : ℕ) (b : Held)
    (hj : (thr t).held[j]? = some b) (hb : HeldOk conf chunk heap b) :
    PoolsOk conf chunk m
      (Function.update thr t ⟨delEntry m b.block.pValue b.nIdx, (thr t).held.eraseIdx j⟩) := by
  obtain ⟨pre, post, hheld, herase⟩ := eraseIdx_split _ j b hj
  rw [delEntry_eq h hf heap hheap b hb, herase]
  obtain ⟨⟨a, origin⟩, nIdx, n⟩ := b
  obtain ⟨-, hb⟩ := hb
  have hidle (k : ℕ) : (poolThread k (thr t)).pc = .idle := by
    rw [poolThread, hpc]
    rfl
  -- the pools that the block is not from
  have hsame (k : ℕ) (hslot : slotIn k ⟨⟨a, origin⟩, nIdx, n⟩ = none) :
      (pre ++ post).filterMap (slotIn k) = (thr t).held.filterMap (slotIn k) := by
    rw [hheld, List.filterMap_append, List.filterMap_append, List.filterMap_cons_none hslot]
  dsimp only at hb
  cases origin with
  | pool k i =>
    obtain ⟨rfl, hk, -, -⟩ := hb
    obtain ⟨p, hp, hinv⟩ := h.pool _ hk
    dsimp only
    refine h.move_same t _ _ hk p hp ?_ fun l hl => ?_
    · have hslot : slotIn nIdx ⟨⟨a, .pool nIdx i⟩, nIdx, n⟩ = some i := if_pos rfl
      have hperm : (i :: (pre ++ post).filterMap (slotIn nIdx)).Perm
          (poolThread nIdx (thr t)).held := by
        rw [poolThread, hheld, List.filterMap_append, List.filterMap_append,
          List.filterMap_cons_some hslot]
        exact List.perm_middle.symm
      have hdel := BufPoolThreads.inv_delMem _ t hinv (hidle nIdx) i _ hperm
      rw [poolThread, pointIn, if_pos rfl]
      exact hdel
    · rw [poolThread, pointIn, if_neg hl.symm, hsame l (if_neg hl.symm), ← hidle l]
      rfl
  | heap size =>
    refine h.unnoticed t _ m.m_nOverMaxIdx fun k => ?_
    rw [poolThread, hsame k rfl]
    dsimp only [pointIn]
    rw [← hidle k]
    rfl

-- The slots that a step has handed out, as a pool sees them.
theorem filterMap_slotIn (p : CBufPool) (nIdx n j : ℕ) (l : List ℕ) :
    (l.map (fun i => (⟨⟨p.getMem i, .pool nIdx i⟩, nIdx, n⟩ : Held))).filterMap (slotIn j) =
      if j = nIdx then l else [] := by
  rw [List.filterMap_map]
  split_ifs with hj
  · subst hj
    have hsome : slotIn j ∘ (fun i => (⟨⟨p.getMem i, .pool j i⟩, j, n⟩ : Held)) = some :=
      funext fun i => if_pos rfl
    rw [hsome, List.filterMap_some]
  · exact List.filterMap_eq_nil_iff.mpr fun i _ => if_neg (Ne.symm hj)

-- A step in a pool.
theorem PoolsOk.threadStep (h : PoolsOk conf chunk m thr) :
    PoolsOk conf chunk (threadStep m (thr t)).1 (Function.update thr t (threadStep m (thr t)).2) := by
  have hnone : PoolsOk conf chunk m (Function.update thr t (thr t)) := by
    rw [Function.update_eq_self]
    exact h
  rw [threadStep.eq_def]
  cases hpc : (thr t).pc with
  | idle | calloc | free => exact hnone
  | readOver nIdx n =>
    refine h.unnoticed t _ m.m_nOverMaxIdx fun k => ?_
    rw [poolThread, poolThread, hpc]
    dsimp only
    split_ifs <;> rfl
  | setOver nIdx n =>
    refine h.unnoticed t _ nIdx fun k => ?_
    rw [poolThread, poolThread, hpc]
    rfl
  | inPool nIdx n pc =>
    dsimp only
    cases hpool : m.poolOf nIdx with
    | none => exact hnone
    | some p =>
      obtain ⟨hk, hinv⟩ := h.configured nIdx p hpool
      have hview : poolThread nIdx (thr t) = ⟨pc, (thr t).held.filterMap (slotIn nIdx)⟩ := by
        rw [poolThread, hpc, pointIn, if_pos rfl]
      have hother (j : ℕ) (hj : j ≠ nIdx) : pointIn j (thr t).pc = .idle := by
        rw [hpc, pointIn, if_neg hj.symm]
      have hrun := BufPoolThreads.inv_run _ t hinv
      dsimp only at hrun
      rw [hview, threadStep_held] at hrun
      dsimp only
      split_ifs with hnew
      · -- the pool had no slot, and the thread goes to the heap
        subst hnew
        refine h.move_same t _ nIdx hk p ((h.poolOf_eq nIdx).symm.trans hpool) hrun fun j hj => ?_
        rw [poolThread, poolThread, hother j hj]
        rfl
      · refine h.move t _ nIdx hk _ ?_ fun j hj => ?_
        · rw [poolThread, pointIn_atPool, List.filterMap_append, filterMap_slotIn, if_pos rfl]
          exact hrun
        · rw [poolThread, pointIn_other j nIdx n _ hj.symm, List.filterMap_append, filterMap_slotIn,
            if_neg hj, poolThread, hother j hj]
          rfl

end Calls

def pcAddress : Pc → List ℤ
  | .free a => [a]
  | .idle | .readOver _ _ | .setOver _ _ | .inPool _ _ _ | .calloc _ _ _ => []

/-- The blocks of the heap that belong to a thread, until it has given them to `free`. -/
def addresses (th : Thread) : List ℤ := pcAddress th.pc ++ th.held.filterMap addressIn

structure Inv [Fintype T] (s : State T) : Prop where
  pools : PoolsOk conf chunk s.mgr s.thr
  heap : HeapOk conf chunk s.heap
  exclusive : Exclusive (fun t => addresses (s.thr t))
  listed : ∀ a, (∃ size, (a, size) ∈ s.heap) ↔ Owned (fun t => addresses (s.thr t)) a
  pc : ∀ t, PcOk conf (s.thr t).pc
  held : ∀ t, ∀ h ∈ (s.thr t).held, HeldOk conf chunk s.heap h

section Steps

variable [Fintype T] {conf chunk} (s : State T) (t : T)

-- Thread `t` moves: what has to be shown about it, and about the blocks of the others.
theorem inv_move (m : CMemManager) (heap : List (ℤ × ℕ)) (th : Thread) (h : Inv conf chunk s)
    (hpools : PoolsOk conf chunk m (Function.update s.thr t th)) (hheap : HeapOk conf chunk heap)
    (hex : Exclusive (Function.update (fun u => addresses (s.thr u)) t (addresses th)))
    (hlisted : ∀ a, (∃ size, (a, size) ∈ heap) ↔
      Owned (Function.update (fun u => addresses (s.thr u)) t (addresses th)) a)
    (hpc : PcOk conf th.pc) (hheld : ∀ b ∈ th.held, HeldOk conf chunk heap b)
    (hothers : ∀ u, u ≠ t → ∀ b ∈ (s.thr u).held, HeldOk conf chunk heap b) :
    Inv conf chunk ⟨m, heap, Function.update s.thr t th⟩ := by
  have hall (P : Thread → Prop) (ht : P th) (ho : ∀ u, u ≠ t → P (s.thr u)) :
      ∀ u, P (Function.update s.thr t th u) :=
    (Function.forall_update_iff s.thr (fun _ => P)).mpr ⟨ht, ho⟩
  have hcomp : (fun u => addresses (Function.update s.thr t th u)) =
      Function.update (fun u => addresses (s.thr u)) t (addresses th) :=
    Function.comp_update addresses s.thr t th
  refine ⟨hpools, hheap, ?_, ?_, ?_, ?_⟩
  · rw [hcomp]
    exact hex
  · rw [hcomp]
    exact hlisted
  · exact hall (fun x => PcOk conf x.pc) hpc fun u _ => h.pc u
  · exact hall (fun x => ∀ b ∈ x.held, HeldOk conf chunk heap b) hheld hothers

-- The heap stays, and so does what the thread has of it.
theorem inv_same (m : CMemManager) (th : Thread) (h : Inv conf chunk s)
    (hpools : PoolsOk conf chunk m (Function.update s.thr t th))
    (haddr : (addresses th).Perm (addresses (s.thr t))) (hpc : PcOk conf th.pc)
    (hheld : ∀ b ∈ th.held, HeldOk conf chunk s.heap b) :
    Inv conf chunk ⟨m, s.heap, Function.update s.thr t th⟩ :=
  inv_move s t m s.heap th h hpools h.heap (h.exclusive.perm t _ haddr)
    (fun a => (h.listed a).trans (owned_perm t _ haddr a).symm) hpc hheld fun u _ => h.held u

theorem inv_callNew (h : Inv conf chunk s) (hpc : (s.thr t).pc = .idle) (nIdx n : ℕ) (hn : 1 ≤ n)
    (hle : n ≤ 2^nIdx) : Inv conf chunk
      { s with thr := Function.update s.thr t { s.thr t with pc := newEntry s.mgr nIdx n } } := by
  refine inv_same s t s.mgr _ h (h.pools.newEntry t nIdx n hpc) ?_ ?_ (h.held t)
  · rw [addresses, addresses, hpc, newEntry]
    cases s.mgr.poolOf nIdx <;> exact List.Perm.refl _
  · rw [newEntry]
    cases hpool : s.mgr.poolOf nIdx with
    | none => exact hn
    | some p => exact ⟨(h.pools.configured nIdx p hpool).1, hle⟩

theorem inv_callDel (h : Inv conf chunk s) (hf : PoolsFit conf) (hpc : (s.thr t).pc = .idle) (j : ℕ)
    (b : Held) (hj : (s.thr t).held[j]? = some b) : Inv conf chunk
      { s with
        thr := Function.update s.thr t
          ⟨delEntry s.mgr b.block.pValue b.nIdx, (s.thr t).held.eraseIdx j⟩ } := by
  have hb := h.held t b (List.mem_of_getElem? hj)
  have hpools := h.pools.delEntry t hf s.heap h.heap hpc j b hj hb
  have hentry := delEntry_eq h.pools hf s.heap h.heap b hb
  obtain ⟨pre, post, hheld, herase⟩ := eraseIdx_split _ j b hj
  refine inv_same s t s.mgr _ h hpools ?_ ?_ fun x hx => h.held t x (List.mem_of_mem_eraseIdx hx)
  · rw [addresses, addresses, hpc, herase, hheld, hentry, List.filterMap_append, List.filterMap_append]
    obtain ⟨⟨a, origin⟩, nIdx, n⟩ := b
    cases origin with
    | pool k i =>
      rw [List.filterMap_cons_none (by rfl)]
      exact List.Perm.refl _
    -- the address moves from the blocks that are held to the program point
    | heap size =>
      have hsome : addressIn ⟨⟨a, .heap size⟩, nIdx, n⟩ = some a := rfl
      rw [List.filterMap_cons_some hsome]
      change (a :: (pre.filterMap addressIn ++ post.filterMap addressIn)).Perm
        (pre.filterMap addressIn ++ a :: post.filterMap addressIn)
      exact List.perm_middle.symm
  · rw [hentry]
    obtain ⟨⟨a, origin⟩, nIdx, n⟩ := b
    cases origin with
    | pool k i => exact ⟨hb.2.2.1, Nat.zero_le _⟩
    | heap size => trivial

-- What a step does to the thread: it comes to another point, or gets a slot.
omit [DecidableEq T] in
theorem threadStep_cases {m : CMemManager} {thr : T → Thread} (h : PoolsOk conf chunk m thr)
    (th : Thread) (hok : PcOk conf th.pc) :
    (∃ pc, (threadStep m th).2 = { th with pc := pc } ∧ pcAddress pc = pcAddress th.pc ∧ PcOk conf pc) ∨
      ∃ nIdx n i p, th.pc = .inPool nIdx n (.clearFirst i) ∧ m.poolOf nIdx = some p ∧
        (threadStep m th).2 = ⟨.idle, ⟨⟨p.getMem i, .pool nIdx i⟩, nIdx, n⟩ :: th.held⟩ := by
  obtain ⟨pc, held⟩ := th
  cases pc with
  | idle | calloc | free => exact Or.inl ⟨_, rfl, rfl, hok⟩
  | readOver nIdx n =>
    refine Or.inl ⟨_, rfl, ?_, ?_⟩
    · split_ifs <;> rfl
    · split_ifs
      · exact hok
      · exact ⟨le_rfl, hok⟩
  | setOver nIdx n => exact Or.inl ⟨_, rfl, rfl, le_rfl, hok⟩
  | inPool nIdx n pc =>
    rw [threadStep.eq_def]
    dsimp only
    cases hpool : m.poolOf nIdx with
    | none => exact Or.inl ⟨_, rfl, rfl, hok⟩
    | some p =>
      dsimp only
      split_ifs with hnew
      · obtain ⟨hk, hinv⟩ := h.configured nIdx p hpool
        refine Or.inl ⟨_, rfl, rfl, ?_⟩
        rw [PcOk, hinv.layout.shift, getSizeByIndex_eq nIdx hk.2.1]
        exact ⟨hok.2, Nat.one_le_two_pow⟩
      · cases hgot : (BufPoolThreads.threadStep p ⟨pc, []⟩).2.held with
        | nil =>
          refine Or.inl ⟨_, rfl, ?_, ?_⟩
          · unfold atPool
            split_ifs <;> rfl
          · unfold atPool
            split_ifs
            · trivial
            · exact hok
        | cons i l =>
          have hclear := threadStep_got p pc i (hgot ▸ List.mem_cons_self)
          subst hclear
          cases hgot
          exact Or.inr ⟨nIdx, n, i, p, rfl, hpool, rfl⟩

theorem inv_run (h : Inv conf chunk s) (hf : PoolsFit conf) : Inv conf chunk
    { s with
      mgr := (threadStep s.mgr (s.thr t)).1
      thr := Function.update s.thr t (threadStep s.mgr (s.thr t)).2 } := by
  have hpools := h.pools.threadStep t
  rcases threadStep_cases h.pools (s.thr t) (h.pc t) with
    ⟨pc, hth, haddr, hok⟩ | ⟨nIdx, n, i, p, hpc, hpool, hth⟩
  · rw [hth] at hpools ⊢
    refine inv_same s t _ _ h hpools ?_ hok (h.held t)
    rw [addresses, addresses, haddr]
  · have hok := h.pc t
    rw [hpc] at hok
    obtain ⟨hk, hinv⟩ := h.pools.configured nIdx p hpool
    have hi : i < conf.nMaxList nIdx := by
      refine hinv.used_lt t i ?_
      dsimp only
      rw [poolThread, hpc, pointIn, if_pos rfl]
      exact List.mem_cons_self
    rw [hth] at hpools ⊢
    refine inv_same s t _ _ h hpools ?_ trivial (List.forall_mem_cons.mpr ⟨⟨hok.2, ?_⟩, h.held t⟩)
    · rw [addresses, addresses, hpc, List.filterMap_cons_none (by rfl)]
      exact List.Perm.refl _
    · refine ⟨rfl, hk, hi, ?_⟩
      dsimp only
      rw [CBufPool.getMem, hinv.layout.chunk, hinv.layout.shift,
        CBufPool.offset_eq _ _ _ (hf _ hk.1 hk.2.1) hi]

theorem fresh_iff (heap : List (ℤ × ℕ)) (a : ℤ) (size : ℕ) : fresh conf chunk heap a size = true ↔
    heapFree conf chunk a size = true ∧ ∀ b ∈ heap, a+size ≤ b.1 ∨ b.1+b.2 ≤ a := by
  simp [fresh]

-- No pool notices a call of `calloc` or `free`.
theorem PoolsOk.outside {m : CMemManager} {thr : T → Thread} (h : PoolsOk conf chunk m thr)
    (th : Thread) (hpc : ∀ k, pointIn k (thr t).pc = .idle) (hpc' : ∀ k, pointIn k th.pc = .idle)
    (hheld : ∀ k, th.held.filterMap (slotIn k) = (thr t).held.filterMap (slotIn k)) :
    PoolsOk conf chunk m (Function.update thr t th) := by
  refine h.unnoticed t th m.m_nOverMaxIdx fun k => ?_
  rw [poolThread, poolThread, hpc, hpc', hheld]

-- `calloc` answers NULL, or an address where nothing is.
theorem inv_callocNull (h : Inv conf chunk s) (nIdx n size : ℕ)
    (hpc : (s.thr t).pc = .calloc nIdx n size) :
    Inv conf chunk { s with thr := Function.update s.thr t { s.thr t with pc := .idle } } := by
  refine inv_same s t s.mgr _ h (h.pools.outside t _ ?_ (fun _ => rfl) fun _ => rfl) ?_ trivial
    (h.held t)
  · rw [hpc]
    exact fun _ => rfl
  · rw [addresses, addresses, hpc]
    exact List.Perm.refl _

theorem inv_calloc (h : Inv conf chunk s) (nIdx n size : ℕ) (hpc : (s.thr t).pc = .calloc nIdx n size)
    (a : ℤ) (hfresh : fresh conf chunk s.heap a size = true) : Inv conf chunk
      { s with
        heap := (a, size) :: s.heap
        thr := Function.update s.thr t ⟨.idle, ⟨⟨a, .heap size⟩, nIdx, n⟩ :: (s.thr t).held⟩ } := by
  obtain ⟨hfree, hapart⟩ := (fresh_iff _ _ _).mp hfresh
  obtain ⟨hle, hsize⟩ : n ≤ size ∧ 1 ≤ size := by
    have hok := h.pc t
    rw [hpc] at hok
    exact hok
  have hnew : ∀ u, a ∉ addresses (s.thr u) := by
    intro u hu
    obtain ⟨size', hmem⟩ := (h.listed a).mpr ⟨u, hu⟩
    have hpos := (h.heap.outside _ hmem).1
    rcases hapart _ hmem with hlt | hlt <;> dsimp only at hlt hpos <;> omega
  have haddr : addresses ⟨.idle, ⟨⟨a, .heap size⟩, nIdx, n⟩ :: (s.thr t).held⟩ =
      a :: addresses (s.thr t) := by
    rw [addresses, addresses, hpc]
    rfl
  have hmono (b : Held) (hb : HeldOk conf chunk s.heap b) :
      HeldOk conf chunk ((a, size) :: s.heap) b := by
    obtain ⟨⟨a', origin⟩, nIdx', n'⟩ := b
    cases origin with
    | pool k i => exact hb
    | heap size' => exact ⟨hb.1, List.mem_cons_of_mem _ hb.2⟩
  refine inv_move s t s.mgr _ _ h (h.pools.outside t _ ?_ (fun _ => rfl) fun _ => rfl) ?_ ?_
    (fun x => ?_) trivial (List.forall_mem_cons.mpr ⟨⟨hle, List.mem_cons_self⟩, fun b hb => hmono b (h.held t b hb)⟩)
    fun u _ b hb => hmono b (h.held u b hb)
  · rw [hpc]
    exact fun _ => rfl
  · exact ⟨List.pairwise_cons.mpr ⟨hapart, h.heap.apart⟩,
      List.forall_mem_cons.mpr ⟨⟨hsize, hfree⟩, h.heap.outside⟩⟩
  · rw [haddr]
    exact h.exclusive.acquire t a hnew
  · rw [haddr, owned_acquire, ← h.listed]
    constructor
    · rintro ⟨size', hmem⟩
      rcases List.mem_cons.mp hmem with heq | hmem
      · exact Or.inl (congrArg Prod.fst heq)
      · exact Or.inr ⟨size', hmem⟩
    · rintro (rfl | ⟨size', hmem⟩)
      · exact ⟨size, List.mem_cons_self⟩
      · exact ⟨size', List.mem_cons_of_mem _ hmem⟩

theorem inv_free (h : Inv conf chunk s) (a : ℤ) (hpc : (s.thr t).pc = .free a) : Inv conf chunk
    { s with
      heap := s.heap.filter (fun b => b.1 ≠ a)
      thr := Function.update s.thr t { s.thr t with pc := .idle } } := by
  have haddr : addresses (s.thr t) = a :: (s.thr t).held.filterMap addressIn := by
    rw [addresses, hpc]
    rfl
  have hmem (b : ℤ × ℕ) : b ∈ s.heap.filter (fun b => b.1 ≠ a) ↔ b ∈ s.heap ∧ b.1 ≠ a := by
    rw [List.mem_filter, decide_eq_true_iff]
  -- the blocks that are held are not the one that goes
  have hkeep (u : T) (b : Held) (hb : b ∈ (s.thr u).held) :
      HeldOk conf chunk (s.heap.filter (fun b => b.1 ≠ a)) b := by
    have hok := h.held u b hb
    obtain ⟨⟨a', origin⟩, nIdx', n'⟩ := b
    cases origin with
    | pool k i => exact hok
    | heap size' =>
      refine ⟨hok.1, (hmem _).mpr ⟨hok.2, ?_⟩⟩
      rintro rfl
      exact h.exclusive.not_mem_rest (fun u => (s.thr u).held.filterMap addressIn)
        (fun u x hx => List.mem_append_right _ hx) t a' haddr u (List.mem_filterMap.mpr ⟨_, hb, rfl⟩)
  refine inv_move s t s.mgr _ _ h (h.pools.outside t _ ?_ (fun _ => rfl) fun _ => rfl) ?_ ?_
    (fun x => ?_) trivial (fun b => hkeep t b) fun u _ b => hkeep u b
  · rw [hpc]
    exact fun _ => rfl
  · exact ⟨h.heap.apart.filter _, fun b hb => h.heap.outside b ((hmem b).mp hb).1⟩
  · have hnodup := h.exclusive.nodup t
    rw [haddr] at hnodup
    refine h.exclusive.shrink t _ (List.nodup_cons.mp hnodup).2 fun x hx => ?_
    rw [haddr]
    exact List.mem_cons_of_mem a hx
  · have hrelease := owned_release h.exclusive t a x ((s.thr t).held.filterMap addressIn)
      (.of_eq haddr.symm)
    change _ ↔ Owned (Function.update _ t ((s.thr t).held.filterMap addressIn)) x
    rw [hrelease, ← h.listed]
    constructor
    · rintro ⟨size, hsize⟩
      obtain ⟨hin, hne⟩ := (hmem _).mp hsize
      exact ⟨⟨size, hin⟩, hne⟩
    · rintro ⟨⟨size, hin⟩, hne⟩
      exact ⟨size, (hmem _).mpr ⟨hin, hne⟩⟩

theorem inv_step (hf : PoolsFit conf) (a : Act T) (s' : State T) (h : Inv conf chunk s)
    (hs : step conf chunk s a = some s') : Inv conf chunk s' := by
  cases a with
  | callNew t nIdx size =>
    rw [step] at hs
    cases hpc : (s.thr t).pc <;> simp only [hpc] at hs <;> try cases hs
    obtain ⟨⟨-, hle⟩, hs⟩ := Option.ite_none_right_eq_some.mp hs
    cases hs
    refine inv_callNew s t h hpc nIdx _ ?_ ?_
    · split_ifs
      · rw [Nat.one_shiftLeft]
        exact Nat.one_le_two_pow
      · omega
    · split_ifs
      · rw [Nat.one_shiftLeft]
      · exact hle
  | callDel t j =>
    rw [step] at hs
    cases hpc : (s.thr t).pc <;> simp only [hpc] at hs <;> try cases hs
    cases hj : (s.thr t).held[j]? with
    | none =>
      rw [hj] at hs
      cases hs
    | some b =>
      rw [hj] at hs
      cases hs
      exact inv_callDel s t h hf hpc j b hj
  | run t =>
    cases hs
    exact inv_run s t h hf
  | calloc t a =>
    rw [step] at hs
    cases hpc : (s.thr t).pc <;> simp only [hpc] at hs <;> try cases hs
    cases a with
    | none =>
      cases hs
      exact inv_callocNull s t h _ _ _ hpc
    | some a =>
      obtain ⟨hfresh, hs⟩ := Option.ite_none_right_eq_some.mp hs
      cases hs
      exact inv_calloc s t h _ _ _ hpc a hfresh
  | free t =>
    rw [step] at hs
    cases hpc : (s.thr t).pc <;> simp only [hpc] at hs <;> try cases hs
    exact inv_free s t h _ hpc

omit [DecidableEq T] in
theorem inv_start : Inv conf chunk (start conf chunk : State T) := by
  refine ⟨⟨fun k hk => ?_, fun k hk => if_neg hk⟩, ⟨List.Pairwise.nil, nofun⟩, exclusive_empty,
    fun a => ?_, fun _ => trivial, fun _ => nofun⟩
  · exact ⟨_, if_pos hk, BufPoolThreads.inv_alloc hk.2.2⟩
  · exact iff_of_false (fun ⟨_, hmem⟩ => List.not_mem_nil hmem) (owned_empty a)

end Steps

end Leviathan.MemManagerThreads
