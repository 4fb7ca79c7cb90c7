import Leviathan.BufPool
import Leviathan.Ownership
import Leviathan.Runs

/-! `CBufPool` (comBufPool.h, comBufPool.cpp) under any number of threads in `newMem` and `delMem`.
Each operation on an `atomic_nr` and each access to `m_nLastCount` is one step; between two steps of a
thread any other thread may move. -/
namespace Leviathan.BufPoolThreads

open Ownership

/-- Where a thread is, named after the access it is about to make.  At `newAlloc` there was no slot for
it. -/
inductive Pc
  | idle
  | readLast
  | readUse (i : ℕ)
  | readFlag (i j : ℕ)
  | cas (i j : ℕ)
  | incUse (i : ℕ)
  | setLast (i : ℕ)
  | clearFirst (i : ℕ)
  | newAlloc
  | initFlag (i : ℕ)
  | decUse (i : ℕ)
  | setHint (i : ℕ)
  deriving DecidableEq

/-- A thread and the slots that were returned to it and that it has not given back. -/
structure Thread where
  pc : Pc
  held : List ℕ

-- the head of the loop in `newMem`
def loopHead (n i j : ℕ) : Pc := if j < n then .readFlag (if n ≤ i then 0 else i) j else .newAlloc

/-- The next step of a thread. -/
def threadStep (p : CBufPool) (th : Thread) : CBufPool × Thread :=
  match th.pc with
  | .idle => (p, th)
  | .readLast => (p, { th with pc := .readUse p.m_nLastCount })
  | .readUse i =>
    (p, { th with
      pc := if p.m_nUseCnt = p.m_nAllocCount then .newAlloc else loopHead p.m_nAllocCount i 0 })
  | .readFlag i j =>
    (p, { th with pc := if p.m_nFlagArray i then loopHead p.m_nAllocCount (i+1) (j+1) else .cas i j })
  | .cas i j =>
    if p.m_nFlagArray i then (p, { th with pc := loopHead p.m_nAllocCount (i+1) (j+1) })
    else ({ p with m_nFlagArray := Function.update p.m_nFlagArray i true }, { th with pc := .incUse i })
  | .incUse i => ({ p with m_nUseCnt := i32 (p.m_nUseCnt+1) }, { th with pc := .setLast i })
  | .setLast i => ({ p with m_nLastCount := i }, { th with pc := .clearFirst i })
  -- `pRes[0] = 0`
  | .clearFirst i => (p, ⟨.idle, i :: th.held⟩)
  | .newAlloc => (p, { th with pc := .idle })
  | .initFlag i =>
    ({ p with m_nFlagArray := Function.update p.m_nFlagArray i false }, { th with pc := .decUse i })
  | .decUse i => ({ p with m_nUseCnt := i32 (p.m_nUseCnt-1) }, { th with pc := .setHint i })
  | .setHint i => ({ p with m_nLastCount := i }, { th with pc := .idle })

/-- Where `delMem` goes with the pointer `a`, after the tests that need no shared data; `none` for
`free`. -/
def delMemEntry (p : CBufPool) (a : ℤ) : Option Pc :=
  if p.isIncludeAddress a = false then none
  else
    let nPos := i32 (a-p.m_pChunk)
    let nIdx := nPos >>> p.m_nShift
    some (if a = p.m_pChunk+nPos then .initFlag nIdx.toNat else .idle)

structure State (T : Type) where
  pool : CBufPool
  thr : T → Thread

/-- The slots that a thread uses in its next step. -/
def usedIndex : Pc → List ℕ
  | .readFlag i _ | .cas i _ | .incUse i | .setLast i | .clearFirst i | .initFlag i | .decUse i
  | .setHint i => [i]
  | .idle | .readLast | .readUse _ | .newAlloc => []

/-- A slot belongs to a thread from the successful exchange until `delMem` clears its flag. -/
def pcOwned : Pc → List ℕ
  | .incUse i | .setLast i | .clearFirst i | .initFlag i => [i]
  | .idle | .readLast | .readUse _ | .readFlag _ _ | .cas _ _ | .newAlloc | .decUse _ | .setHint _ => []

def owned (th : Thread) : List ℕ := pcOwned th.pc ++ th.held

-- a slot is counted from the increment until the decrement
def pcCounted : Pc → ℤ
  | .setLast _ | .clearFirst _ | .initFlag _ | .decUse _ => 1
  | .idle | .readLast | .readUse _ | .readFlag _ _ | .cas _ _ | .incUse _ | .newAlloc | .setHint _ => 0

def counted (th : Thread) : ℤ := pcCounted th.pc+th.held.length

variable {T : Type} [DecidableEq T]

/-- The threads of a pool that `alloc` has set up. -/
structure Inv [Fintype T] (k n : ℕ) (c : ℤ) (s : State T) : Prop where
  layout : s.pool.Layout k n c
  flagged : Flagged s.pool.m_nFlagArray (fun t => owned (s.thr t))
  owned_lt : ∀ t, ∀ i ∈ owned (s.thr t), i < n
  used_lt : ∀ t, ∀ i ∈ usedIndex (s.thr t).pc, i < n
  count : s.pool.m_nUseCnt = i32 (∑ t, counted (s.thr t))

section Steps

variable [Fintype T] {k n : ℕ} {c : ℤ} (s : State T) (t : T)

omit [DecidableEq T] in
theorem inv_alloc (hn : n ≠ 0) :
    Inv k n c (⟨CBufPool.alloc k n c, fun _ => ⟨.idle, []⟩⟩ : State T) := by
  refine ⟨CBufPool.layout_alloc k n c hn, ⟨exclusive_empty, fun i => ?_⟩, fun t i hi => ?_,
    fun t i hi => ?_, ?_⟩
  · exact iff_of_false Bool.false_ne_true (owned_empty i)
  · exact absurd hi List.not_mem_nil
  · exact absurd hi List.not_mem_nil
  · have hz : (∑ t : T, counted ((fun _ => ⟨.idle, []⟩ : T → Thread) t)) = 0 :=
      Finset.sum_eq_zero fun t _ => rfl
    rw [hz]
    rfl

-- Thread `t` moves: what has to be shown about it.
theorem inv_move (p : CBufPool) (th : Thread) (h : Inv k n c s) (hlayout : p.Layout k n c)
    (hflag : Flagged p.m_nFlagArray (Function.update (fun u => owned (s.thr u)) t (owned th)))
    (hlt : ∀ i ∈ owned th, i < n) (hused : ∀ i ∈ usedIndex th.pc, i < n)
    (hcnt : p.m_nUseCnt = i32 ((∑ u, counted (s.thr u))+(counted th-counted (s.thr t)))) :
    Inv k n c ⟨p, Function.update s.thr t th⟩ := by
  have hall (P : Thread → Prop) (ht : P th) (ho : ∀ u, P (s.thr u)) :
      ∀ u, P (Function.update s.thr t th u) :=
    (Function.forall_update_iff s.thr (fun _ => P)).mpr ⟨ht, fun u _ => ho u⟩
  refine ⟨hlayout, ?_, ?_, ?_, ?_⟩
  · change Flagged _ (owned ∘ Function.update s.thr t th)
    rw [Function.comp_update]
    exact hflag
  · exact hall (fun x => ∀ i ∈ owned x, i < n) hlt h.owned_lt
  · exact hall (fun x => ∀ i ∈ usedIndex x.pc, i < n) hused h.used_lt
  · change p.m_nUseCnt = i32 (∑ u, (counted ∘ Function.update s.thr t th) u)
    rw [Function.comp_update, sum_update_int]
    exact hcnt

-- The counter and the hint change, the thread owns what it has owned.
theorem inv_counter (use : ℤ) (last : ℕ) (th : Thread) (h : Inv k n c s)
    (hown : (owned th).Perm (owned (s.thr t))) (hused : ∀ i ∈ usedIndex th.pc, i < n) (hlast : last < n)
    (hcnt : use = i32 ((∑ u, counted (s.thr u))+(counted th-counted (s.thr t)))) :
    Inv k n c ⟨{ s.pool with m_nUseCnt := use, m_nLastCount := last }, Function.update s.thr t th⟩ :=
  inv_move s t _ th h ⟨h.layout.shift, h.layout.count, h.layout.chunk, h.layout.endAddr, hlast⟩
    (h.flagged.perm t _ hown) (fun i hi => h.owned_lt t i (hown.mem_iff.mp hi)) hused hcnt

-- The thread goes on with what it has; only the hint changes.
theorem inv_setLast (last : ℕ) (th : Thread) (h : Inv k n c s) (hown : (owned th).Perm (owned (s.thr t)))
    (hc : counted th = counted (s.thr t)) (hused : ∀ i ∈ usedIndex th.pc, i < n) (hlast : last < n) :
    Inv k n c ⟨{ s.pool with m_nLastCount := last }, Function.update s.thr t th⟩ := by
  refine inv_counter s t s.pool.m_nUseCnt last th h hown hused hlast ?_
  rw [h.count, hc, sub_self, add_zero]

-- The counter goes up or down with what the thread counts.
theorem inv_addUse (d : ℤ) (pc pc' : Pc) (h : Inv k n c s) (hpc : (s.thr t).pc = pc)
    (hown : pcOwned pc' = pcOwned pc) (hc : pcCounted pc' = pcCounted pc+d)
    (hused : ∀ i ∈ usedIndex pc', i < n) :
    Inv k n c ⟨{ s.pool with m_nUseCnt := i32 (s.pool.m_nUseCnt+d) },
      Function.update s.thr t { s.thr t with pc := pc' }⟩ := by
  refine inv_counter s t _ s.pool.m_nLastCount _ h (.of_eq ?_) hused h.layout.last ?_
  · rw [owned, owned, hown, hpc]
  · have hd : counted { s.thr t with pc := pc' }-counted (s.thr t) = d := by
      rw [counted, counted, hc, hpc]
      ring
    rw [h.count, i32_i32_add, hd]

-- A step that only moves the program point.
theorem inv_goto (pc pc' : Pc) (h : Inv k n c s) (hpc : (s.thr t).pc = pc)
    (hown : pcOwned pc' = pcOwned pc) (hc : pcCounted pc' = pcCounted pc) (hused : ∀ i ∈ usedIndex pc', i < n) :
    Inv k n c ⟨s.pool, Function.update s.thr t { s.thr t with pc := pc' }⟩ := by
  refine inv_setLast s t s.pool.m_nLastCount _ h (.of_eq ?_) ?_ hused h.layout.last
  · rw [owned, owned, hown, hpc]
  · rw [counted, counted, hc, hpc]

-- Going to the head of the loop.
theorem inv_loopHead (pc : Pc) (i j : ℕ) (h : Inv k n c s) (hpc : (s.thr t).pc = pc)
    (hown : pcOwned pc = []) (hc : pcCounted pc = 0) :
    Inv k n c ⟨s.pool, Function.update s.thr t { s.thr t with pc := loopHead n i j }⟩ := by
  have hn : 0 < n := Nat.zero_lt_of_lt h.layout.last
  unfold loopHead
  split_ifs with hj hi
  · apply inv_goto s t pc (.readFlag 0 j) h hpc hown.symm hc.symm
    simpa [usedIndex] using hn
  · apply inv_goto s t pc (.readFlag i j) h hpc hown.symm hc.symm
    simpa [usedIndex] using hi
  · apply inv_goto s t pc .newAlloc h hpc hown.symm hc.symm
    simp [usedIndex]

-- The exchange finds the flag clear: the slot was nobody's, and is not counted yet.
theorem inv_acquire (i j : ℕ) (h : Inv k n c s) (hpc : (s.thr t).pc = .cas i j)
    (hflag : s.pool.m_nFlagArray i = false) :
    Inv k n c ⟨{ s.pool with m_nFlagArray := Function.update s.pool.m_nFlagArray i true },
      Function.update s.thr t { s.thr t with pc := .incUse i }⟩ := by
  have hused := h.used_lt t
  rw [hpc] at hused
  have hown : owned { s.thr t with pc := .incUse i } = i :: owned (s.thr t) := by
    rw [owned, owned, hpc]
    rfl
  refine inv_move s t _ _ h ?_ ?_ ?_ hused ?_
  · exact ⟨h.layout.shift, h.layout.count, h.layout.chunk, h.layout.endAddr, h.layout.last⟩
  · rw [hown]
    exact h.flagged.acquire t i hflag
  · rw [hown]
    exact List.forall_mem_cons.mpr ⟨hused i List.mem_cons_self, h.owned_lt t⟩
  · rw [h.count, counted, counted, hpc]
    simp [pcCounted]

-- `delMem` clears the flag; the slot is counted until the decrement.
theorem inv_release (i : ℕ) (h : Inv k n c s) (hpc : (s.thr t).pc = .initFlag i) :
    Inv k n c ⟨{ s.pool with m_nFlagArray := Function.update s.pool.m_nFlagArray i false },
      Function.update s.thr t { s.thr t with pc := .decUse i }⟩ := by
  have hused := h.used_lt t
  rw [hpc] at hused
  have hown : owned (s.thr t) = i :: (s.thr t).held := by
    rw [owned, hpc]
    rfl
  refine inv_move s t _ _ h ?_ ?_ ?_ hused ?_
  · exact ⟨h.layout.shift, h.layout.count, h.layout.chunk, h.layout.endAddr, h.layout.last⟩
  · exact h.flagged.release t i _ (.of_eq hown.symm)
  · exact fun x hx => h.owned_lt t x (hown ▸ List.mem_cons_of_mem i hx)
  · rw [h.count, counted, counted, hpc]
    simp [pcCounted]

theorem inv_run (h : Inv k n c s) :
    Inv k n c ⟨(threadStep s.pool (s.thr t)).1,
      Function.update s.thr t (threadStep s.pool (s.thr t)).2⟩ := by
  have hused : ∀ i ∈ usedIndex (s.thr t).pc, i < n := h.used_lt t
  have hlayout := h.layout
  cases hpc : (s.thr t).pc with
  | idle =>
    simp only [threadStep, hpc]
    rw [Function.update_eq_self]
    exact h
  | readLast =>
    simp only [threadStep, hpc]
    apply inv_goto s t _ (.readUse s.pool.m_nLastCount) h hpc rfl rfl
    simp [usedIndex]
  | readUse i =>
    simp only [threadStep, hpc]
    split_ifs
    · apply inv_goto s t _ .newAlloc h hpc rfl rfl
      simp [usedIndex]
    · rw [hlayout.count]
      exact inv_loopHead s t _ i 0 h hpc rfl rfl
  | readFlag i j =>
    rw [hpc] at hused
    simp only [threadStep, hpc]
    split_ifs
    · rw [hlayout.count]
      exact inv_loopHead s t _ (i+1) (j+1) h hpc rfl rfl
    · exact inv_goto s t _ (.cas i j) h hpc rfl rfl hused
  | cas i j =>
    simp only [threadStep, hpc]
    split_ifs with hflag
    · rw [hlayout.count]
      exact inv_loopHead s t _ (i+1) (j+1) h hpc rfl rfl
    · exact inv_acquire s t i j h hpc (Bool.eq_false_iff.mpr hflag)
  | incUse i =>
    rw [hpc] at hused
    simp only [threadStep, hpc]
    exact inv_addUse s t 1 _ (.setLast i) h hpc rfl rfl hused
  | setLast i =>
    rw [hpc] at hused
    simp only [threadStep, hpc]
    refine inv_setLast s t i _ h (.of_eq ?_) ?_ hused (hused i List.mem_cons_self)
    · rw [owned, owned, hpc]
      rfl
    · rw [counted, counted, hpc]
      rfl
  | clearFirst i =>
    simp only [threadStep, hpc]
    refine inv_setLast s t s.pool.m_nLastCount _ h (.of_eq ?_) ?_ (fun _ hx => absurd hx List.not_mem_nil) hlayout.last
    · rw [owned, owned, hpc]
      rfl
    · -- the slot that the point counted is now one of those that are held
      rw [counted, counted, hpc]
      simp [pcCounted, add_comm]
  | newAlloc =>
    simp only [threadStep, hpc]
    apply inv_goto s t _ .idle h hpc rfl rfl
    simp [usedIndex]
  | initFlag i =>
    simp only [threadStep, hpc]
    exact inv_release s t i h hpc
  | decUse i =>
    rw [hpc] at hused
    simp only [threadStep, hpc]
    exact inv_addUse s t (-1) _ (.setHint i) h hpc rfl rfl hused
  | setHint i =>
    rw [hpc] at hused
    simp only [threadStep, hpc]
    refine inv_setLast s t i _ h (.of_eq ?_) ?_ (fun _ hx => absurd hx List.not_mem_nil) (hused i List.mem_cons_self)
    · rw [owned, owned, hpc]
      rfl
    · rw [counted, counted, hpc]
      rfl

-- A thread calls `newMem`, or `delMem` for a slot that it holds.
theorem inv_newMem (h : Inv k n c s) (hpc : (s.thr t).pc = .idle) :
    Inv k n c ⟨s.pool, Function.update s.thr t { s.thr t with pc := .readLast }⟩ := by
  apply inv_goto s t .idle .readLast h hpc rfl rfl
  simp [usedIndex]

theorem inv_delMem (h : Inv k n c s) (hpc : (s.thr t).pc = .idle) (i : ℕ) (l : List ℕ)
    (hl : (i :: l).Perm (s.thr t).held) :
    Inv k n c ⟨s.pool, Function.update s.thr t ⟨.initFlag i, l⟩⟩ := by
  have hheld : owned (s.thr t) = (s.thr t).held := by
    rw [owned, hpc]
    rfl
  have hi : i < n := h.owned_lt t i (hheld ▸ hl.mem_iff.mp List.mem_cons_self)
  refine inv_counter s t _ _ _ h (hheld ▸ hl) (List.forall_mem_singleton.mpr hi) h.layout.last ?_
  have hlen : ((s.thr t).held.length : ℤ) = l.length+1 := by
    exact_mod_cast hl.length_eq.symm
  rw [h.count, counted, counted, hpc, hlen]
  simp [pcCounted, add_comm]

-- The pointers of the slots are told from those of the heap.
theorem delMemEntry_slot (p : CBufPool) (i : ℕ) (h : p.Layout k n c) (hf : CBufPool.Fits k n)
    (hi : i < n) :
    delMemEntry p (c+i*2^k) = some (.initFlag i) := by
  have hle : (i:ℤ)*2^k ≤ ((n-1 : ℕ):ℤ)*2^k :=
    mul_le_mul_of_nonneg_right (by exact_mod_cast Nat.le_sub_one_of_lt hi) (by positivity)
  have hnn : (0:ℤ) ≤ i*2^k := by positivity
  have hlt : (i:ℤ)*2^k < 2^31 := hle.trans_lt (by exact_mod_cast hf)
  have hin : p.isIncludeAddress (c+i*2^k) = true := by
    simp only [CBufPool.isIncludeAddress, h.chunk, h.endAddr, CBufPool.offset_eq k n (n-1) hf (by omega),
      Bool.and_eq_true, decide_eq_true_eq]
    exact ⟨by linarith, by linarith⟩
  have hpos : i32 (c+i*2^k-p.m_pChunk) = i*2^k := by
    rw [h.chunk, add_sub_cancel_left]
    exact i32_of_range _ (by linarith) hlt
  have hidx : ((i:ℤ)*2^k) >>> p.m_nShift = i := by
    rw [h.shift, Int.shiftRight_eq_div_pow]
    exact_mod_cast Nat.mul_div_cancel i (Nat.two_pow_pos k)
  rw [delMemEntry, if_neg (by simp [hin])]
  simp only [hpos, hidx, Int.toNat_natCast]
  rw [h.chunk, if_pos rfl]

theorem delMemEntry_heap (p : CBufPool) (a : ℤ) (h : p.Layout k n c) (hf : CBufPool.Fits k n)
    (ha : a < c ∨ c+n*2^k ≤ a) : delMemEntry p a = none := by
  have hdel := CBufPool.delMem_heap p k n c a h hf ha
  rw [delMemEntry, if_pos]
  by_contra hin
  rw [CBufPool.delMem, if_neg hin] at hdel
  dsimp only at hdel
  split_ifs at hdel with hpos
  · cases congrArg Prod.snd hdel
  · cases congrArg Prod.snd hdel

end Steps

section Alone

/-- `l` steps of one thread that nobody interrupts. -/
def alone (l : ℕ) (p : CBufPool) (th : Thread) : CBufPool × Thread :=
  (fun x => threadStep x.1 x.2)^[l] (p, th)

-- what a call that found `r` leaves behind
def afterScan (p : CBufPool) (held : List ℕ) : Option ℕ → CBufPool × Thread
  | some r => (p.take r, ⟨.idle, r :: held⟩)
  | none => (p, ⟨.idle, held⟩)

theorem alone_add (l m : ℕ) (p : CBufPool) (th : Thread) :
    alone (m+l) p th = alone m (alone l p th).1 (alone l p th).2 :=
  Function.iterate_add_apply _ m l (p, th)

theorem alone_loopHead (p : CBufPool) (held : List ℕ) (d i j : ℕ) (hd : j+d = p.m_nAllocCount) :
    ∃ l, alone l p ⟨loopHead p.m_nAllocCount i j, held⟩ =
      afterScan p held (scanFrom p.m_nAllocCount (fun x => !p.m_nFlagArray x) d i) := by
  induction d generalizing i j with
  | zero =>
    refine ⟨1, ?_⟩
    rw [loopHead, if_neg (by omega)]
    rfl
  | succ d ih =>
    rw [loopHead, if_pos (by omega), scanFrom]
    set r := if p.m_nAllocCount ≤ i then 0 else i with hr
    cases hf : p.m_nFlagArray r with
    | false =>
      -- the flag, the exchange, the counter, the hint and the first byte
      refine ⟨5, ?_⟩
      simp [alone, threadStep, hf, afterScan, CBufPool.take]
    | true =>
      obtain ⟨l, hl⟩ := ih (r+1) (j+1) (by omega)
      refine ⟨l+1, ?_⟩
      have hone : alone 1 p ⟨.readFlag r j, held⟩ =
          (p, ⟨loopHead p.m_nAllocCount (r+1) (j+1), held⟩) := by
        simp [alone, threadStep, hf]
      rw [alone_add, hone, hl]
      simp

/-- A call that nobody interrupts does what the function does. -/
theorem alone_newMem (p : CBufPool) (held : List ℕ) :
    ∃ l, alone l p ⟨.readLast, held⟩ = (p.newMem.1, ⟨.idle, p.newMem.2.toList ++ held⟩) := by
  by_cases hfull : p.m_nUseCnt = p.m_nAllocCount
  · refine ⟨3, ?_⟩
    simp [alone, threadStep, CBufPool.newMem, hfull]
  · obtain ⟨l, hl⟩ := alone_loopHead p held p.m_nAllocCount p.m_nLastCount 0 (Nat.zero_add _)
    refine ⟨l+2, ?_⟩
    have htwo : alone 2 p ⟨.readLast, held⟩ =
        (p, ⟨loopHead p.m_nAllocCount p.m_nLastCount 0, held⟩) := by
      simp [alone, threadStep, hfull]
    rw [alone_add, htwo, hl, CBufPool.newMem, if_neg hfull]
    cases scanFrom p.m_nAllocCount (fun x => !p.m_nFlagArray x) p.m_nAllocCount p.m_nLastCount with
    | none => rfl
    | some r => rfl

theorem alone_delMem (p : CBufPool) (held : List ℕ) (a : ℤ) :
    ∃ l, (delMemEntry p a).elim (p, some a)
      (fun pc => ((alone l p ⟨pc, held⟩).1, none)) = p.delMem a := by
  refine ⟨3, ?_⟩
  rw [delMemEntry, CBufPool.delMem]
  split_ifs with hout
  · rfl
  · dsimp only
    split_ifs with hpos
    · rfl
    · rfl

end Alone

end Leviathan.BufPoolThreads
