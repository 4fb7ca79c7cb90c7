import Leviathan.MemPool
import Leviathan.Ownership
import Leviathan.Runs

/-! `CMemPool` under any number of threads.  Each operation on an `atomic_nr` and each access to
`m_nLastCount` is one step; between two steps of a thread any other thread may move. -/
namespace Leviathan.MemPoolThreads

open Ownership

/-- Where a thread is in `newMem()`, `newMem(int *)` (`key`) or `delMem`: each point is named
after the access it is about to make. -/
inductive Pc
  | idle
  | readLast (key : Bool)
  | readUse (key : Bool) (i : ℕ)
  | readFlag (key : Bool) (i j : ℕ)
  | cas (key : Bool) (i j : ℕ)
  | incUse (i : ℕ)
  | setLast (i : ℕ)
  | initFlag (i : ℕ)
  | decUse
  deriving DecidableEq

/-- A thread and the slots that were returned to it and that it has not given back. -/
structure Thread where
  pc : Pc
  held : List ℕ

-- the head of the scan: the index goes back to 0 at the end, the counter stops the loop
def loopHead (n : ℕ) (key : Bool) (i j : ℕ) : Pc :=
  if j < n then .readFlag key (if n ≤ i then 0 else i) j else .idle

/-- The next step of a thread. -/
def threadStep (p : CMemPool) (th : Thread) : CMemPool × Thread :=
  match th.pc with
  | .idle => (p, th)
  | .readLast key => (p, { th with pc := .readUse key p.m_nLastCount })
  | .readUse key i =>
    -- only `newMem()` goes to the heap at once when the pool is full
    if p.m_nUseCnt = p.m_nAllocCount ∧ key = false then (p, { th with pc := .idle })
    else (p, { th with pc := loopHead p.m_nAllocCount key i 0 })
  | .readFlag key i j =>
    if p.m_nFlagArray i then (p, { th with pc := loopHead p.m_nAllocCount key (i+1) (j+1) })
    else (p, { th with pc := .cas key i j })
  | .cas key i j =>
    if p.m_nFlagArray i then (p, { th with pc := loopHead p.m_nAllocCount key (i+1) (j+1) })
    else ({ p with m_nFlagArray := Function.update p.m_nFlagArray i true }, { th with pc := .incUse i })
  | .incUse i => ({ p with m_nUseCnt := i32 (p.m_nUseCnt+1) }, { th with pc := .setLast i })
  | .setLast i => ({ p with m_nLastCount := i }, ⟨.idle, i :: th.held⟩)
  | .initFlag i =>
    ({ p with m_nFlagArray := Function.update p.m_nFlagArray i false }, { th with pc := .decUse })
  | .decUse => ({ p with m_nUseCnt := i32 (p.m_nUseCnt-1) }, { th with pc := .idle })

-- the index test of `delMem(p)` needs no access to shared data
def delMemEntry (n : ℕ) (d : ℤ) : Pc :=
  if isInclude (i32 d) n then .initFlag (i32 d).toNat else .idle

structure State (T : Type) where
  pool : CMemPool
  thr : T → Thread

inductive Act (T : Type)
  | callNew (t : T) (key : Bool)
  | callDel (t : T) (i : ℕ)
  | run (t : T)

variable {T : Type} [DecidableEq T]

/-- A call starts only when the thread is in no other call, and `delMem` only for a slot that
the thread holds. -/
def step (s : State T) : Act T → Option (State T)
  | .callNew t key =>
    if (s.thr t).pc = .idle then
      some { s with thr := Function.update s.thr t ⟨.readLast key, (s.thr t).held⟩ }
    else none
  | .callDel t i =>
    if (s.thr t).pc = .idle ∧ i ∈ (s.thr t).held then
      some { s with
        thr := Function.update s.thr t
          ⟨delMemEntry s.pool.m_nAllocCount i, (s.thr t).held.erase i⟩ }
    else none
  | .run t =>
    let r := threadStep s.pool (s.thr t)
    some ⟨r.1, Function.update s.thr t r.2⟩

def start (n : ℕ) : State T := ⟨CMemPool.alloc n, fun _ => ⟨.idle, []⟩⟩

/-- The indices a thread uses in its next step. -/
def usedIndex : Pc → List ℕ
  | .readFlag _ i _ | .cas _ i _ | .incUse i | .setLast i | .initFlag i => [i]
  | .idle | .readLast _ | .readUse _ _ | .decUse => []

/-- A slot belongs to a thread from the successful exchange until `delMem` clears its flag. -/
def pcOwned : Pc → List ℕ
  | .incUse i | .setLast i | .initFlag i => [i]
  | .idle | .readLast _ | .readUse _ _ | .readFlag _ _ _ | .cas _ _ _ | .decUse => []

def owned (th : Thread) : List ℕ := pcOwned th.pc ++ th.held

/-- No slot has two owners, every index is in range, and between calls the counter is the number
of slots the threads hold. -/
structure Safe [Fintype T] (n : ℕ) (s : State T) : Prop where
  exclusive : Exclusive (fun t => owned (s.thr t))
  owned_lt : ∀ t, ∀ i ∈ owned (s.thr t), i < n
  used_lt : ∀ t, ∀ i ∈ usedIndex (s.thr t).pc, i < n
  count : (∀ t, (s.thr t).pc = .idle) → s.pool.m_nUseCnt = ∑ t, ((s.thr t).held.length : ℤ)

-- a slot is counted from the increment until the decrement
def pcCounted : Pc → ℤ
  | .setLast _ | .initFlag _ | .decUse => 1
  | .idle | .readLast _ | .readUse _ _ | .readFlag _ _ _ | .cas _ _ _ | .incUse _ => 0

def counted (th : Thread) : ℤ := pcCounted th.pc+th.held.length

/-- The start position of a scan that has not begun. -/
def pendingStart : Pc → List ℕ
  | .readUse _ i => [i]
  | _ => []

structure Inv [Fintype T] (n : ℕ) (s : State T) : Prop where
  size : s.pool.m_nAllocCount = n
  exclusive : Exclusive (fun t => owned (s.thr t))
  flagged : ∀ t, ∀ i ∈ owned (s.thr t), s.pool.m_nFlagArray i = true
  owned_lt : ∀ t, ∀ i ∈ owned (s.thr t), i < n
  used_lt : ∀ t, ∀ i ∈ usedIndex (s.thr t).pc, i < n
  start_lt : ∀ t, ∀ i ∈ pendingStart (s.thr t).pc, i < n
  last_lt : s.pool.m_nLastCount < n
  count : s.pool.m_nUseCnt = i32 (∑ t, counted (s.thr t))

variable [Fintype T] {n : ℕ}

omit [DecidableEq T] in
theorem inv_start (hn : 1 ≤ n) : Inv n (start n : State T) := by
  refine ⟨rfl, exclusive_empty, ?_, ?_, ?_, ?_, hn, ?_⟩
  · intro t i hi
    exact absurd hi List.not_mem_nil
  · intro t i hi
    exact absurd hi List.not_mem_nil
  · intro t i hi
    exact absurd hi List.not_mem_nil
  · intro t i hi
    exact absurd hi List.not_mem_nil
  · have hz : (∑ t : T, counted ((start n : State T).thr t)) = 0 :=
      Finset.sum_eq_zero (fun t _ => rfl)
    rw [hz]
    rfl

-- Thread `t` moves: what has to be shown about it, and about the flags of the others.
theorem inv_move (s : State T) (t : T) (p : CMemPool) (th : Thread) (h : Inv n s)
    (hsize : p.m_nAllocCount = n)
    (hex : Exclusive (Function.update (fun u => owned (s.thr u)) t (owned th)))
    (hfo : ∀ u, u ≠ t → ∀ i ∈ owned (s.thr u), p.m_nFlagArray i = true)
    (hft : ∀ i ∈ owned th, p.m_nFlagArray i = true)
    (hlt : ∀ i ∈ owned th, i < n) (hused : ∀ i ∈ usedIndex th.pc, i < n)
    (hstart : ∀ i ∈ pendingStart th.pc, i < n) (hlast : p.m_nLastCount < n)
    (hcnt : p.m_nUseCnt = i32 ((∑ u, counted (s.thr u))+(counted th-counted (s.thr t)))) :
    Inv n ⟨p, Function.update s.thr t th⟩ := by
  have hall (P : Thread → Prop) (ht : P th) (ho : ∀ u, u ≠ t → P (s.thr u)) :
      ∀ u, P (Function.update s.thr t th u) := by
    exact (Function.forall_update_iff s.thr (fun _ => P)).mpr ⟨ht, ho⟩
  refine ⟨hsize, ?_, ?_, ?_, ?_, ?_, hlast, ?_⟩
  · show Exclusive (owned ∘ Function.update s.thr t th)
    rw [Function.comp_update]
    exact hex
  · exact hall (fun x => ∀ i ∈ owned x, p.m_nFlagArray i = true) hft hfo
  · exact hall (fun x => ∀ i ∈ owned x, i < n) hlt (fun u _ => h.owned_lt u)
  · exact hall (fun x => ∀ i ∈ usedIndex x.pc, i < n) hused (fun u _ => h.used_lt u)
  · exact hall (fun x => ∀ i ∈ pendingStart x.pc, i < n) hstart (fun u _ => h.start_lt u)
  · show p.m_nUseCnt = i32 (∑ u, (counted ∘ Function.update s.thr t th) u)
    rw [Function.comp_update, sum_update_int]
    exact hcnt

-- A step that only moves the program point.
theorem inv_goto (s : State T) (t : T) (pc : Pc) (h : Inv n s)
    (hown : pcOwned pc = pcOwned (s.thr t).pc) (hc : pcCounted pc = pcCounted (s.thr t).pc)
    (hused : ∀ i ∈ usedIndex pc, i < n) (hstart : ∀ i ∈ pendingStart pc, i < n) :
    Inv n ⟨s.pool, Function.update s.thr t { s.thr t with pc := pc }⟩ := by
  have ho : owned { s.thr t with pc := pc } = owned (s.thr t) := by simp only [owned, hown]
  refine inv_move s t s.pool _ h h.size ?_ ?_ ?_ ?_ hused hstart h.last_lt ?_
  · rw [ho, Function.update_eq_self]
    exact h.exclusive
  · exact fun u _ => h.flagged u
  · rw [ho]
    exact h.flagged t
  · rw [ho]
    exact h.owned_lt t
  · rw [h.count]
    simp only [counted, hc, sub_self, add_zero]

-- Between two points that own and count the same.
theorem inv_leave (s : State T) (t : T) (pc pc' : Pc) (h : Inv n s) (hpc : (s.thr t).pc = pc)
    (hown : pcOwned pc' = pcOwned pc) (hc : pcCounted pc' = pcCounted pc)
    (hused : ∀ i ∈ usedIndex pc' ++ pendingStart pc', i < n) :
    Inv n ⟨s.pool, Function.update s.thr t { s.thr t with pc := pc' }⟩ := by
  apply inv_goto s t pc' h
  · rw [hpc, hown]
  · rw [hpc, hc]
  · intro i hi
    exact hused i (List.mem_append_left _ hi)
  · intro i hi
    exact hused i (List.mem_append_right _ hi)

theorem loopHead_cases (key : Bool) (i j : ℕ) :
    loopHead n key i j = .idle ∨ ∃ i' < n, loopHead n key i j = .readFlag key i' j := by
  unfold loopHead
  split
  · rename_i hj
    refine Or.inr ⟨_, ?_, rfl⟩
    split <;> omega
  · exact Or.inl rfl

-- Going to the head of the scan.
theorem inv_loopHead (s : State T) (t : T) (pc : Pc) (key : Bool) (i j : ℕ) (h : Inv n s)
    (hpc : (s.thr t).pc = pc) (hown : pcOwned pc = []) (hc : pcCounted pc = 0) :
    Inv n ⟨s.pool, Function.update s.thr t { s.thr t with pc := loopHead n key i j }⟩ := by
  rcases loopHead_cases (n := n) key i j with he | ⟨i', hi', he⟩
  · rw [he]
    apply inv_leave s t pc .idle h hpc hown.symm hc.symm
    simp [usedIndex, pendingStart]
  · rw [he]
    apply inv_leave s t pc (.readFlag key i' j) h hpc hown.symm hc.symm
    simpa [usedIndex, pendingStart] using hi'

-- The exchange succeeds: the slot was nobody's, because every owned slot has its flag set.
theorem inv_acquire (s : State T) (t : T) (key : Bool) (i j : ℕ) (h : Inv n s)
    (hpc : (s.thr t).pc = .cas key i j) (hf : s.pool.m_nFlagArray i = false) :
    Inv n ⟨{ s.pool with m_nFlagArray := Function.update s.pool.m_nFlagArray i true },
      Function.update s.thr t { s.thr t with pc := .incUse i }⟩ := by
  have hfree : ∀ u, i ∉ owned (s.thr u) := by
    intro u hi
    have ht : s.pool.m_nFlagArray i = true := h.flagged u i hi
    rw [hf] at ht
    exact Bool.false_ne_true ht
  have hi : i < n := h.used_lt t i (by simp [hpc, usedIndex])
  have hown : owned { s.thr t with pc := .incUse i } = i :: owned (s.thr t) := by
    simp [owned, pcOwned, hpc]
  have hkeep (k : ℕ) (hk : s.pool.m_nFlagArray k = true) :
      Function.update s.pool.m_nFlagArray i true k = true := by
    by_cases hki : k = i
    · rw [hki, Function.update_self]
    · rwa [Function.update_of_ne hki]
  refine inv_move s t _ _ h h.size ?_ ?_ ?_ ?_ ?_ ?_ h.last_lt ?_
  · rw [hown]
    exact h.exclusive.acquire t i hfree
  · intro u _ k hk
    exact hkeep k (h.flagged u k hk)
  · intro k hk
    rw [hown] at hk
    rcases List.mem_cons.mp hk with rfl | hk
    · exact Function.update_self ..
    · exact hkeep k (h.flagged t k hk)
  · intro k hk
    rw [hown] at hk
    rcases List.mem_cons.mp hk with rfl | hk
    · exact hi
    · exact h.owned_lt t k hk
  · simpa [usedIndex] using hi
  · simp [pendingStart]
  · rw [h.count]
    simp [counted, pcCounted, hpc]

-- `delMem` clears the flag: only the thread itself loses a slot.
theorem inv_release (s : State T) (t : T) (i : ℕ) (h : Inv n s)
    (hpc : (s.thr t).pc = .initFlag i) :
    Inv n ⟨{ s.pool with m_nFlagArray := Function.update s.pool.m_nFlagArray i false },
      Function.update s.thr t { s.thr t with pc := .decUse }⟩ := by
  have howned : owned (s.thr t) = i :: (s.thr t).held := by simp [owned, pcOwned, hpc]
  have hown : owned { s.thr t with pc := .decUse } = (s.thr t).held := by simp [owned, pcOwned]
  have hnd : (i :: (s.thr t).held).Nodup := howned ▸ h.exclusive.nodup t
  have hmem (k : ℕ) (hk : k ∈ (s.thr t).held) : k ∈ owned (s.thr t) := by
    rw [howned]
    exact List.mem_cons_of_mem i hk
  refine inv_move s t _ _ h h.size ?_ ?_ ?_ ?_ ?_ ?_ h.last_lt ?_
  · rw [hown]
    exact h.exclusive.shrink t _ (List.nodup_cons.mp hnd).2 hmem
  · intro u hu k hk
    -- the slot is owned by `t`, so it is none of `u`'s
    have hne : k ≠ i := by
      rintro rfl
      refine h.exclusive.disjoint t u hu.symm k ?_ hk
      rw [howned]
      exact List.mem_cons_self
    show Function.update s.pool.m_nFlagArray i false k = true
    rw [Function.update_of_ne hne]
    exact h.flagged u k hk
  · intro k hk
    rw [hown] at hk
    have hne : k ≠ i := by
      rintro rfl
      exact (List.nodup_cons.mp hnd).1 hk
    show Function.update s.pool.m_nFlagArray i false k = true
    rw [Function.update_of_ne hne]
    exact h.flagged t k (hmem k hk)
  · intro k hk
    rw [hown] at hk
    exact h.owned_lt t k (hmem k hk)
  · simp [usedIndex]
  · simp [pendingStart]
  · rw [h.count]
    simp [counted, pcCounted, hpc]

-- The counter and the hint change, the thread keeps what it owns.
theorem inv_counter (s : State T) (t : T) (c : ℤ) (last : ℕ) (th : Thread) (h : Inv n s)
    (hown : owned th = owned (s.thr t)) (hused : ∀ i ∈ usedIndex th.pc, i < n)
    (hstart : pendingStart th.pc = []) (hlast : last < n)
    (hcnt : c = i32 ((∑ u, counted (s.thr u))+(counted th-counted (s.thr t)))) :
    Inv n ⟨{ s.pool with m_nUseCnt := c, m_nLastCount := last }, Function.update s.thr t th⟩ := by
  refine inv_move s t _ th h h.size ?_ ?_ ?_ ?_ hused ?_ hlast hcnt
  · rw [hown, Function.update_eq_self]
    exact h.exclusive
  · exact fun u _ => h.flagged u
  · rw [hown]
    exact h.flagged t
  · rw [hown]
    exact h.owned_lt t
  · simp [hstart]

theorem inv_run (s : State T) (t : T) (h : Inv n s) :
    Inv n ⟨(threadStep s.pool (s.thr t)).1,
      Function.update s.thr t (threadStep s.pool (s.thr t)).2⟩ := by
  have hsize := h.size
  cases hpc : (s.thr t).pc with
  | idle =>
    simp only [threadStep, hpc]
    rw [Function.update_eq_self]
    exact h
  | readLast key =>
    simp only [threadStep, hpc]
    apply inv_leave s t _ (.readUse key s.pool.m_nLastCount) h hpc rfl rfl
    simpa [usedIndex, pendingStart] using h.last_lt
  | readUse key i =>
    simp only [threadStep, hpc]
    split
    · apply inv_leave s t _ .idle h hpc rfl rfl
      simp [usedIndex, pendingStart]
    · rw [hsize]
      exact inv_loopHead s t _ key i 0 h hpc rfl rfl
  | readFlag key i j =>
    simp only [threadStep, hpc]
    split
    · rw [hsize]
      exact inv_loopHead s t _ key (i+1) (j+1) h hpc rfl rfl
    · apply inv_leave s t _ (.cas key i j) h hpc rfl rfl
      simpa [usedIndex, pendingStart] using h.used_lt t i (by simp [hpc, usedIndex])
  | cas key i j =>
    simp only [threadStep, hpc]
    split
    · rw [hsize]
      exact inv_loopHead s t _ key (i+1) (j+1) h hpc rfl rfl
    · rename_i hf
      exact inv_acquire s t key i j h hpc (Bool.eq_false_iff.mpr hf)
  | incUse i =>
    simp only [threadStep, hpc]
    refine inv_counter s t _ s.pool.m_nLastCount _ h (by simp [owned, pcOwned, hpc]) ?_ rfl
      h.last_lt ?_
    · simpa [usedIndex] using h.used_lt t i (by simp [hpc, usedIndex])
    · rw [h.count, i32_i32_add]
      simp [counted, pcCounted, hpc]
  | setLast i =>
    simp only [threadStep, hpc]
    have hi : i < n := h.used_lt t i (by simp [hpc, usedIndex])
    refine inv_counter s t s.pool.m_nUseCnt i _ h (by simp [owned, pcOwned, hpc])
      (by simp [usedIndex]) rfl hi ?_
    rw [h.count]
    simp [counted, pcCounted, hpc]
    congr 1
    ring
  | initFlag i =>
    simp only [threadStep, hpc]
    exact inv_release s t i h hpc
  | decUse =>
    simp only [threadStep, hpc]
    refine inv_counter s t _ s.pool.m_nLastCount _ h (by simp [owned, pcOwned, hpc])
      (by simp [usedIndex]) rfl h.last_lt ?_
    rw [h.count, sub_eq_add_neg, i32_i32_add]
    simp [counted, pcCounted, hpc]

theorem inv_callNew (s : State T) (t : T) (key : Bool) (h : Inv n s)
    (hpc : (s.thr t).pc = .idle) :
    Inv n ⟨s.pool, Function.update s.thr t ⟨.readLast key, (s.thr t).held⟩⟩ := by
  apply inv_leave s t .idle (.readLast key) h hpc rfl rfl
  simp [usedIndex, pendingStart]

theorem delMemEntry_of_lt (i : ℕ) (hn : n < 2^31) (hi : i < n) :
    delMemEntry n i = .initFlag i := by
  have hw : i32 (i:ℤ) = i := i32_natCast i (by omega)
  have hin : isInclude (i32 (i:ℤ)) n = true := by
    rw [hw, isInclude_iff]
    omega
  rw [delMemEntry, if_pos hin, hw, Int.toNat_natCast]

theorem inv_callDel (s : State T) (t : T) (i : ℕ) (hn : n < 2^31) (h : Inv n s)
    (hpc : (s.thr t).pc = .idle) (hi : i ∈ (s.thr t).held) :
    Inv n ⟨s.pool, Function.update s.thr t ⟨delMemEntry n i, (s.thr t).held.erase i⟩⟩ := by
  have howned : owned (s.thr t) = (s.thr t).held := by simp [owned, pcOwned, hpc]
  have hlt : i < n := h.owned_lt t i (howned.symm ▸ hi)
  have hperm : (s.thr t).held.Perm (i :: (s.thr t).held.erase i) := List.perm_cons_erase hi
  have hmem (k : ℕ) (hk : k ∈ i :: (s.thr t).held.erase i) : k ∈ owned (s.thr t) := by
    rw [howned]
    exact hperm.mem_iff.mpr hk
  have hnd : (s.thr t).held.Nodup := howned ▸ h.exclusive.nodup t
  rw [delMemEntry_of_lt i hn hlt]
  refine inv_move s t s.pool _ h h.size ?_ ?_ ?_ ?_ ?_ ?_ h.last_lt ?_
  · exact h.exclusive.shrink t _ (hperm.nodup_iff.mp hnd) hmem
  · exact fun u _ => h.flagged u
  · exact fun k hk => h.flagged t k (hmem k hk)
  · exact fun k hk => h.owned_lt t k (hmem k hk)
  · simpa [usedIndex] using hlt
  · simp [pendingStart]
  · have hlen : ((s.thr t).held.length : ℤ) = ((s.thr t).held.erase i).length+1 := by
      exact_mod_cast hperm.length_eq
    rw [h.count]
    simp only [counted, pcCounted, hpc, hlen]
    congr 1
    ring

theorem inv_step (hn : n < 2^31) (s : State T) (a : Act T) (s' : State T) (h : Inv n s)
    (hs : step s a = some s') : Inv n s' := by
  cases a with
  | callNew t key =>
    obtain ⟨hpc, hs⟩ := Option.ite_none_right_eq_some.mp hs
    cases hs
    exact inv_callNew s t key h hpc
  | callDel t i =>
    obtain ⟨⟨hpc, hi⟩, hs⟩ := Option.ite_none_right_eq_some.mp hs
    cases hs
    rw [h.size]
    exact inv_callDel s t i hn h hpc hi
  | run t =>
    cases hs
    exact inv_run s t h

omit [DecidableEq T] in
theorem safe_of_inv (hn : n < 2^31) (s : State T) (h : Inv n s) : Safe n s := by
  refine ⟨h.exclusive, h.owned_lt, h.used_lt, ?_⟩
  intro hidle
  have hown (t : T) : owned (s.thr t) = (s.thr t).held := by simp [owned, pcOwned, hidle t]
  have hsum : ∑ t, counted (s.thr t) = ((∑ t, (owned (s.thr t)).length : ℕ) : ℤ) := by
    rw [Nat.cast_sum]
    apply Finset.sum_congr rfl
    intro t _
    simp [counted, pcCounted, hidle t, hown t]
  have hle : ∑ t, (owned (s.thr t)).length ≤ n := h.exclusive.sum_length_le n h.owned_lt
  rw [h.count, hsum, i32_natCast _ (by omega), Nat.cast_sum]
  exact Finset.sum_congr rfl (fun t _ => by rw [hown t])

/-- In every interleaving no slot has two holders, every index is inside the chunk, and the
counter is the number of held slots whenever no call is in progress. -/
theorem newMem_delMem_safe (hn : 1 ≤ n) (hmax : n < 2^31) (acts : List (Act T)) (s : State T)
    (hr : Runs.runFrom step (start n) acts = some s) : Safe n s :=
  safe_of_inv hmax s (Runs.runFrom_invariant step (Inv n) (inv_step hmax) _ s acts (inv_start hn) hr)

local instance twoThreads : NeZero 2 := ⟨two_ne_zero⟩

-- two threads race for slot 0; the loser of the exchange takes slot 1, and slot 0 comes back
def race : List (Act (Fin 2)) :=
  [.callNew 0 false, .callNew 1 true, .run 0, .run 1, .run 0, .run 1, .run 0, .run 1, .run 1,
    .run 0, .run 0, .run 0, .run 1, .run 1, .callDel 1 0, .run 1, .run 1]

theorem newMem_delMem_safe_race :
    ∃ s, Runs.runFrom step (start 2) race = some s ∧ Safe 2 s := by
  have hsome : (Runs.runFrom step (start 2) race).isSome := by decide
  obtain ⟨s, hs⟩ := Option.isSome_iff_exists.mp hsome
  exact ⟨s, hs, newMem_delMem_safe (by decide) (by decide) race s hs⟩

section Alone

/-- `k` steps of one thread that nobody interrupts. -/
def alone (k : ℕ) (p : CMemPool) (th : Thread) : CMemPool × Thread :=
  (fun x => threadStep x.1 x.2)^[k] (p, th)

-- what a call that found `r` leaves behind
def afterScan (p : CMemPool) (held : List ℕ) : Option ℕ → CMemPool × Thread
  | some r => (p.claim r, ⟨.idle, r :: held⟩)
  | none => (p, ⟨.idle, held⟩)

theorem alone_add (k l : ℕ) (p : CMemPool) (th : Thread) :
    alone (l+k) p th = alone l (alone k p th).1 (alone k p th).2 :=
  Function.iterate_add_apply _ l k (p, th)

theorem alone_loopHead (p : CMemPool) (key : Bool) (held : List ℕ) (k i j : ℕ)
    (hk : j+k = p.m_nAllocCount) :
    ∃ l, alone l p ⟨loopHead p.m_nAllocCount key i j, held⟩ =
      afterScan p held (scanFrom p.m_nAllocCount (fun x => !p.m_nFlagArray x) k i) := by
  induction k generalizing i j with
  | zero =>
    refine ⟨0, ?_⟩
    rw [loopHead, if_neg (by omega)]
    rfl
  | succ k ih =>
    rw [loopHead, if_pos (by omega), scanFrom]
    set r := if p.m_nAllocCount ≤ i then 0 else i with hr
    cases hf : p.m_nFlagArray r with
    | false =>
      -- the flag, the exchange, the counter and the hint
      refine ⟨4, ?_⟩
      simp [alone, threadStep, hf, afterScan, CMemPool.claim]
    | true =>
      obtain ⟨l, hl⟩ := ih (r+1) (j+1) (by omega)
      refine ⟨l+1, ?_⟩
      have h1 : alone 1 p ⟨.readFlag key r j, held⟩ =
          (p, ⟨loopHead p.m_nAllocCount key (r+1) (j+1), held⟩) := by
        simp [alone, threadStep, hf]
      rw [alone_add, h1, hl]
      simp

-- What follows the test for a full pool is the same for both overloads.
theorem alone_scan (p : CMemPool) (key : Bool) (held : List ℕ)
    (hgo : ¬(p.m_nUseCnt = p.m_nAllocCount ∧ key = false)) :
    ∃ l, alone l p ⟨.readLast key, held⟩ =
      (p.newMemKey.1, ⟨.idle, p.newMemKey.2.toList ++ held⟩) := by
  obtain ⟨l, hl⟩ := alone_loopHead p key held p.m_nAllocCount p.m_nLastCount 0 (by omega)
  refine ⟨l+2, ?_⟩
  have h2 : alone 2 p ⟨.readLast key, held⟩ =
      (p, ⟨loopHead p.m_nAllocCount key p.m_nLastCount 0, held⟩) := by
    show threadStep p ⟨.readUse key p.m_nLastCount, held⟩ = _
    exact if_neg hgo
  rw [alone_add, h2, hl, CMemPool.newMemKey, CMemPool.scan]
  cases scanFrom p.m_nAllocCount (fun x => !p.m_nFlagArray x) p.m_nAllocCount p.m_nLastCount with
  | none => rfl
  | some r => rfl

-- A call that nobody interrupts does what the sequential function does.
theorem alone_newMemKey (p : CMemPool) (held : List ℕ) :
    ∃ l, alone l p ⟨.readLast true, held⟩ =
      (p.newMemKey.1, ⟨.idle, p.newMemKey.2.toList ++ held⟩) :=
  alone_scan p true held (by simp)

theorem alone_newMem (p : CMemPool) (held : List ℕ) :
    ∃ l, alone l p ⟨.readLast false, held⟩ =
      (p.newMem.1, ⟨.idle, p.newMem.2.toList ++ held⟩) := by
  by_cases hfull : p.m_nUseCnt = p.m_nAllocCount
  · refine ⟨2, ?_⟩
    simp [alone, threadStep, CMemPool.newMem, hfull]
  · have hkey : p.newMem = p.newMemKey := by
      rw [CMemPool.newMem, if_neg hfull, CMemPool.newMemKey]
    rw [hkey]
    exact alone_scan p false held (fun h => hfull h.1)

end Alone

end Leviathan.MemPoolThreads
