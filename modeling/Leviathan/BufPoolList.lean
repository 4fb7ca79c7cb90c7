import Leviathan.BufPoolRuns

/-! `CBufPool::newMemList` and the calls that free several buffers (comBufPool.cpp): which buffers a run
of consecutive ones takes, and what is left when it breaks off. -/
namespace Leviathan.CBufPool

section Model

/-- Slot `i` is taken, without a change of `m_nLastCount`. -/
def mark (p : CBufPool) (i : ℕ) : CBufPool :=
  { p with
    m_nFlagArray := Function.update p.m_nFlagArray i true
    m_nUseCnt := i32 (p.m_nUseCnt+1) }

/-- Slot `i` is given back if it is taken. -/
def unmark (p : CBufPool) (i : ℕ) : CBufPool :=
  if p.m_nFlagArray i then
    { p with
      m_nFlagArray := Function.update p.m_nFlagArray i false
      m_nUseCnt := i32 (p.m_nUseCnt-1) }
  else p

/-- The first loop of `newMemList`, with `k` rounds left: the pool and `nLastLoopCnt`. -/
def claimLoop (p : CBufPool) : ℕ → ℕ → CBufPool × ℕ
  | 0, _ => (p, 0)
  | k+1, idx =>
    if p.m_nAllocCount ≤ idx then (p, 0)
    else if p.m_nFlagArray idx then (p, 0)
    else
      let r := claimLoop (p.mark idx) k (idx+1)
      (r.1, r.2+1)

/-- Its second loop, with `k` rounds left. -/
def unmarkLoop (p : CBufPool) : ℕ → ℕ → CBufPool
  | 0, _ => p
  | k+1, idx => unmarkLoop (p.unmark idx) k (idx+1)

/-- `newMemList`.  The second loop runs from `m_nLastCount` up to `nLastLoopCnt`. -/
def newMemList (p : CBufPool) (nCount : ℤ) : CBufPool × Bool :=
  if (p.m_nAllocCount : ℤ) < i32 (p.m_nUseCnt+nCount) then (p, false)
  else
    let r := p.claimLoop nCount.toNat p.m_nLastCount
    if (r.2 : ℤ) = nCount then ({ r.1 with m_nLastCount := p.m_nLastCount+r.2 }, true)
    else (r.1.unmarkLoop (r.2-p.m_nLastCount) p.m_nLastCount, false)

/-- The loop of `delMem(p, nCount)`, with `k` rounds left; `false` where it returns in front of the end. -/
def freeLoop (p : CBufPool) : ℕ → ℕ → CBufPool × Bool
  | 0, _ => (p, true)
  | k+1, nIdx => if p.m_nAllocCount ≤ nIdx then (p, false) else freeLoop (p.unmark nIdx) k (nIdx+1)

/-- `delMem(p, nCount)`, for a pointer that is not in front of the chunk. -/
def delMemList (p : CBufPool) (pUsedMem : ℤ) (nCount : ℤ) : CBufPool :=
  let nPos := i32 (pUsedMem-p.m_pChunk)
  let nIdx := (nPos >>> p.m_nShift).toNat
  if pUsedMem ≠ p.m_pChunk+nPos then p
  else
    let r := p.freeLoop nCount.toNat nIdx
    if r.2 then { r.1 with m_nLastCount := (nIdx+nCount.toNat-nCount).toNat } else r.1

/-- `clear()`. -/
def clear (p : CBufPool) : CBufPool :=
  { p with
    m_nFlagArray := fun i => if i < p.m_nAllocCount then false else p.m_nFlagArray i
    m_nUseCnt := 0
    m_nLastCount := 0 }

end Model

inductive Op
  | newMem
  | delMem (pUsedMem : ℤ)
  | newMemList (nCount : ℤ)
  | delMemList (pUsedMem nCount : ℤ)
  | clear

def op (p : CBufPool) : Op → Option CBufPool
  | .newMem => some p.newMem.1
  | .delMem pUsedMem => some (p.delMem pUsedMem).1
  | .newMemList nCount => some (p.newMemList nCount).1
  | .delMemList pUsedMem nCount => some (p.delMemList pUsedMem nCount)
  | .clear => some p.clear

/-- A pointer into the chunk is given back while its buffer is out, and none in front of the chunk is
the first of several. -/
def Legal (p : CBufPool) : Op → Prop
  | .delMem pUsedMem => p.isIncludeAddress pUsedMem = true →
      p.m_nFlagArray (((pUsedMem-p.m_pChunk) >>> p.m_nShift).toNat) = true
  | .delMemList pUsedMem _ => p.m_pChunk ≤ pUsedMem
  | _ => True

instance (p : CBufPool) : (o : Op) → Decidable (Legal p o)
  | .delMem pUsedMem => inferInstanceAs (Decidable (p.isIncludeAddress pUsedMem = true →
      p.m_nFlagArray (((pUsedMem-p.m_pChunk) >>> p.m_nShift).toNat) = true))
  | .delMemList pUsedMem _ => inferInstanceAs (Decidable (p.m_pChunk ≤ pUsedMem))
  | .newMem | .newMemList _ | .clear => isTrue trivial

/-- The pool can be reached from `alloc` by legal calls. -/
def Reached (p : CBufPool) : Prop :=
  ∃ s n c ops, (1 ≤ n ∧ n < 2^31) ∧ Runs.Along op Legal (alloc s n c) ops ∧
    Runs.runFrom op (alloc s n c) ops = some p

/-- The use count is the number of the set flags. -/
structure Counted (s n : ℕ) (c : ℤ) (p : CBufPool) : Prop where
  shift : p.m_nShift = s
  count : p.m_nAllocCount = n
  chunk : p.m_pChunk = c
  endAddr : p.m_pEnd = c+offset s (n-1)
  use : p.m_nUseCnt = (Slots.marked n p.m_nFlagArray).card

/-- `newMemList` takes the `nCount` slots from `m_nLastCount` on, or nothing. -/
def AllOrNothing (p : CBufPool) (nCount : ℕ) : Prop :=
  let r := p.newMemList nCount
  (r.2 = true →
    (∀ i, p.m_nLastCount ≤ i → i < p.m_nLastCount+nCount →
      i < p.m_nAllocCount ∧ p.m_nFlagArray i = false) ∧
    (∀ i, r.1.m_nFlagArray i =
      if p.m_nLastCount ≤ i ∧ i < p.m_nLastCount+nCount then true else p.m_nFlagArray i) ∧
    r.1.m_nUseCnt = p.m_nUseCnt+nCount) ∧
  (r.2 = false → r.1.m_nFlagArray = p.m_nFlagArray ∧ r.1.m_nUseCnt = p.m_nUseCnt)

/-- Nothing has to be undone, or the second loop undoes all of it: the count is refused at once, all the
slots are free, the first one is not, or it is slot 0. -/
def Undone (p : CBufPool) (nCount : ℕ) : Prop :=
  (p.m_nAllocCount : ℤ) < i32 (p.m_nUseCnt+nCount) ∨
    (∀ i, p.m_nLastCount ≤ i → i < p.m_nLastCount+nCount →
      i < p.m_nAllocCount ∧ p.m_nFlagArray i = false) ∨
    ¬(p.m_nLastCount < p.m_nAllocCount ∧ p.m_nFlagArray p.m_nLastCount = false) ∨
    p.m_nLastCount = 0

section Counted

variable (s n : ℕ) (c : ℤ) (p : CBufPool) (hn : n < 2^31) (h : Counted s n c p)

include hn h

theorem counted_mark (i : ℕ) (hi : i < n) (hfree : p.m_nFlagArray i = false) :
    Counted s n c (p.mark i) :=
  ⟨h.shift, h.count, h.chunk, h.endAddr, Slots.count_set n _ i hi i32 (i32_upTo n hn) _ h.use hfree⟩

theorem use_mark (i : ℕ) (hi : i < n) (hfree : p.m_nFlagArray i = false) :
    (p.mark i).m_nUseCnt = p.m_nUseCnt+1 := by
  rw [(counted_mark s n c p hn h i hi hfree).use, h.use]
  exact_mod_cast Slots.card_marked_set n p.m_nFlagArray i hi hfree

theorem counted_release (i : ℕ) (hi : i < n) (hset : p.m_nFlagArray i = true) :
    Counted s n c (p.release i) :=
  ⟨h.shift, h.count, h.chunk, h.endAddr, Slots.count_clear n _ i hi i32 (i32_upTo n hn) _ h.use hset⟩

theorem counted_unmark (i : ℕ) (hi : i < n) : Counted s n c (p.unmark i) := by
  rw [unmark]
  split_ifs with hset
  · have hrelease := counted_release s n c p hn h i hi hset
    exact ⟨h.shift, h.count, h.chunk, h.endAddr, hrelease.use⟩
  · exact h

end Counted

theorem flag_unmark (p : CBufPool) (i j : ℕ) :
    (p.unmark i).m_nFlagArray j = if j = i then false else p.m_nFlagArray j := by
  rw [unmark]
  by_cases hset : p.m_nFlagArray i = true
  · rw [if_pos hset]
    exact Function.update_apply _ _ _ _
  · rw [if_neg hset]
    split_ifs with hj
    · rw [hj]
      exact Bool.eq_false_iff.mpr hset
    · rfl

/-- The first loop has taken the `m` free slots from `i` on, and gone no further. -/
structure Claimed (s n : ℕ) (c : ℤ) (p : CBufPool) (k i : ℕ) (q : CBufPool) (m : ℕ) : Prop where
  counted : Counted s n c q
  le : m ≤ k
  free : ∀ j, i ≤ j → j < i+m → j < n ∧ p.m_nFlagArray j = false
  flags : ∀ j, q.m_nFlagArray j = if i ≤ j ∧ j < i+m then true else p.m_nFlagArray j
  use : q.m_nUseCnt = p.m_nUseCnt+m
  stop : m < k → ¬(i+m < n ∧ p.m_nFlagArray (i+m) = false)

theorem claimed_none (s n : ℕ) (c : ℤ) (p : CBufPool) (h : Counted s n c p) (k i : ℕ)
    (hstop : 0 < k → ¬(i < n ∧ p.m_nFlagArray i = false)) : Claimed s n c p k i p 0 := by
  refine ⟨h, Nat.zero_le k, fun j hj hlt => ?_, fun j => ?_, (add_zero _).symm, hstop⟩
  · omega
  · rw [if_neg (by omega)]

-- One slot more in front of those that the rest of the loop takes.
theorem claimed_mark (s n : ℕ) (c : ℤ) (p q : CBufPool) (hn : n < 2^31) (h : Counted s n c p)
    (k i m : ℕ) (hi : i < n) (hfree : p.m_nFlagArray i = false)
    (hrest : Claimed s n c (p.mark i) k (i+1) q m) : Claimed s n c p (k+1) i q (m+1) := by
  have hflag (j : ℕ) : (p.mark i).m_nFlagArray j = if j = i then true else p.m_nFlagArray j :=
    Function.update_apply _ _ _ _
  refine ⟨hrest.counted, Nat.succ_le_succ hrest.le, fun j hj hlt => ?_, fun j => ?_, ?_, ?_⟩
  · rcases hj.lt_or_eq with hj | rfl
    · have hfree' := hrest.free j hj (by omega)
      rw [hflag, if_neg (by omega)] at hfree'
      exact hfree'
    · exact ⟨hi, hfree⟩
  · rw [hrest.flags, hflag]
    split_ifs <;> first | rfl | omega
  · rw [hrest.use, use_mark s n c p hn h i hi hfree]
    push_cast
    ring
  · intro hlt
    have hstop := hrest.stop (by omega)
    rw [hflag, if_neg (by omega), add_right_comm i 1 m] at hstop
    exact hstop

theorem claimLoop_claimed (s n : ℕ) (c : ℤ) (p : CBufPool) (hn : n < 2^31) (h : Counted s n c p)
    (k i : ℕ) : Claimed s n c p k i (p.claimLoop k i).1 (p.claimLoop k i).2 := by
  induction k generalizing p i with
  | zero => exact claimed_none s n c p h 0 i (fun hlt => absurd hlt (lt_irrefl 0))
  | succ k ih =>
    rw [claimLoop, h.count]
    split_ifs with hout hset
    · exact claimed_none s n c p h (k+1) i (fun _ hin => absurd hin.1 (not_lt.mpr hout))
    · exact claimed_none s n c p h (k+1) i (fun _ hin => Bool.false_ne_true (hin.2.symm.trans hset))
    · have hi : i < n := not_le.mp hout
      have hfree : p.m_nFlagArray i = false := Bool.eq_false_iff.mpr hset
      have hmark := counted_mark s n c p hn h i hi hfree
      exact claimed_mark s n c p _ hn h k i _ hi hfree (ih (p.mark i) hmark (i+1))

theorem unmarkLoop_spec (s n : ℕ) (c : ℤ) (p : CBufPool) (hn : n < 2^31) (h : Counted s n c p)
    (k i : ℕ) (hk : i+k ≤ n) : Counted s n c (p.unmarkLoop k i) ∧
      ∀ j, (p.unmarkLoop k i).m_nFlagArray j =
        if i ≤ j ∧ j < i+k then false else p.m_nFlagArray j := by
  induction k generalizing p i with
  | zero =>
    refine ⟨h, fun j => ?_⟩
    rw [if_neg (by omega)]
    rfl
  | succ k ih =>
    obtain ⟨hcounted, hflags⟩ := ih (p.unmark i) (counted_unmark s n c p hn h i (by omega)) (i+1) (by omega)
    refine ⟨hcounted, fun j => ?_⟩
    rw [unmarkLoop, hflags, flag_unmark]
    split_ifs <;> first | rfl | omega

section Calls

variable (s n : ℕ) (c : ℤ) (p : CBufPool) (hn : 1 ≤ n ∧ n < 2^31) (h : Counted s n c p)

-- What happens after the first loop of `newMemList`.
theorem newMemList_eq (nCount : ℤ) (hearly : ¬(p.m_nAllocCount : ℤ) < i32 (p.m_nUseCnt+nCount)) :
    p.newMemList nCount =
      if ((p.claimLoop nCount.toNat p.m_nLastCount).2 : ℤ) = nCount then
        ({ (p.claimLoop nCount.toNat p.m_nLastCount).1 with
            m_nLastCount := p.m_nLastCount+(p.claimLoop nCount.toNat p.m_nLastCount).2 }, true)
      else
        ((p.claimLoop nCount.toNat p.m_nLastCount).1.unmarkLoop
          ((p.claimLoop nCount.toNat p.m_nLastCount).2-p.m_nLastCount) p.m_nLastCount, false) :=
  if_neg hearly

-- The second loop stays among the slots that the first one has seen.
theorem claimed_in_range (q : CBufPool) (k i m : ℕ) (hq : Claimed s n c p k i q m) :
    i+(m-i) ≤ n ∨ m-i = 0 := by
  by_cases hm : m = 0
  · right
    omega
  · left
    have hlast := (hq.free (i+m-1) (by omega) (by omega)).1
    omega

include hn

theorem counted_unmarkLoop (q : CBufPool) (k i m : ℕ) (hq : Claimed s n c p k i q m) :
    Counted s n c (q.unmarkLoop (m-i) i) ∧
      ∀ j, (q.unmarkLoop (m-i) i).m_nFlagArray j =
        if i ≤ j ∧ j < i+(m-i) then false else q.m_nFlagArray j := by
  rcases claimed_in_range s n c p q k i m hq with hrange | hzero
  · exact unmarkLoop_spec s n c q hn.2 hq.counted (m-i) i hrange
  · rw [hzero]
    refine ⟨hq.counted, fun j => ?_⟩
    rw [if_neg (by omega)]
    rfl

include h

theorem counted_newMem : Counted s n c p.newMem.1 := by
  rw [newMem]
  split_ifs
  · exact h
  · split
    · rename_i i hscan
      rw [h.count] at hscan
      obtain ⟨hi, hfree⟩ := scanFrom_inside n _ hn.1 n p.m_nLastCount i hscan
      have hmark := counted_mark s n c p hn.2 h i hi (by simpa using hfree)
      exact ⟨h.shift, h.count, h.chunk, h.endAddr, hmark.use⟩
    · exact h

theorem counted_newMemList (nCount : ℤ) : Counted s n c (p.newMemList nCount).1 := by
  by_cases hearly : (p.m_nAllocCount : ℤ) < i32 (p.m_nUseCnt+nCount)
  · rw [newMemList, if_pos hearly]
    exact h
  · have hclaimed := claimLoop_claimed s n c p hn.2 h nCount.toNat p.m_nLastCount
    rw [newMemList_eq p nCount hearly]
    split_ifs
    · have hcounted := hclaimed.counted
      exact ⟨hcounted.shift, hcounted.count, hcounted.chunk, hcounted.endAddr, hcounted.use⟩
    · exact (counted_unmarkLoop s n c p hn _ _ _ _ hclaimed).1

theorem counted_freeLoop (k i : ℕ) : Counted s n c (p.freeLoop k i).1 := by
  induction k generalizing p i with
  | zero => exact h
  | succ k ih =>
    rw [freeLoop, h.count]
    split_ifs with hout
    · exact h
    · exact ih (p.unmark i) (counted_unmark s n c p hn.2 h i (not_le.mp hout)) (i+1)

theorem counted_delMemList (a nCount : ℤ) : Counted s n c (p.delMemList a nCount) := by
  rw [delMemList]
  dsimp only
  split_ifs
  · exact h
  · have hfree := counted_freeLoop s n c p hn h nCount.toNat
      ((i32 (a-p.m_pChunk) >>> p.m_nShift).toNat)
    exact ⟨hfree.shift, hfree.count, hfree.chunk, hfree.endAddr, hfree.use⟩
  · exact counted_freeLoop s n c p hn h _ _

-- A pointer up to the last buffer belongs to a slot of the pool.
theorem index_of_included (a : ℤ) (ha : p.isIncludeAddress a = true) :
    i32 (a-p.m_pChunk) = a-p.m_pChunk ∧ ((a-p.m_pChunk) >>> p.m_nShift).toNat < n := by
  rw [isIncludeAddress, Bool.and_eq_true, decide_eq_true_eq, decide_eq_true_eq, h.chunk, h.endAddr] at ha
  obtain ⟨hlow, hhigh⟩ := ha
  have hoffset : offset s (n-1) ≤ ((n-1 : ℕ) : ℤ)*2^s := by
    rw [offset, Nat.shiftLeft_eq]
    refine (i32_le _ (Int.natCast_nonneg _)).trans ?_
    push_cast
    exact le_rfl
  have hlt : offset s (n-1) < 2^31 := i32_lt _
  rw [h.chunk, h.shift]
  refine ⟨i32_of_range _ (by omega) (by omega), ?_⟩
  rw [Int.shiftRight_eq_div_pow]
  have hpow : (0:ℤ) < 2^s := by positivity
  have hdiv : (a-c)/(2^s : ℕ) ≤ ((n-1 : ℕ) : ℤ) := by
    apply Int.ediv_le_of_le_mul (by positivity)
    push_cast
    linarith
  omega

theorem counted_delMem (a : ℤ) (hlegal : p.isIncludeAddress a = true →
    p.m_nFlagArray (((a-p.m_pChunk) >>> p.m_nShift).toNat) = true) : Counted s n c (p.delMem a).1 := by
  rw [delMem]
  split_ifs with hout
  · exact h
  · have ha : p.isIncludeAddress a = true := by simpa using hout
    obtain ⟨hpos, hlt⟩ := index_of_included s n c p hn h a ha
    dsimp only
    split_ifs
    · rw [hpos]
      exact counted_release s n c p hn.2 h _ hlt (hlegal ha)
    · exact h

omit hn in
theorem counted_clear : Counted s n c p.clear := by
  refine ⟨h.shift, h.count, h.chunk, h.endAddr, ?_⟩
  have hempty : Slots.marked n p.clear.m_nFlagArray = ∅ := by
    apply Slots.marked_none
    intro i hi
    exact if_pos (h.count.symm ▸ hi)
  rw [hempty]
  rfl

-- The step lemma.
theorem counted_op (o : Op) (q : CBufPool) (hlegal : Legal p o) (hq : p.op o = some q) :
    Counted s n c q := by
  cases o with
  | newMem => exact Option.some.inj hq ▸ counted_newMem s n c p hn h
  | delMem a => exact Option.some.inj hq ▸ counted_delMem s n c p hn h a hlegal
  | newMemList nCount => exact Option.some.inj hq ▸ counted_newMemList s n c p hn h nCount
  | delMemList a nCount => exact Option.some.inj hq ▸ counted_delMemList s n c p hn h a nCount
  | clear => exact Option.some.inj hq ▸ counted_clear s n c p h

end Calls

theorem counted_alloc (s n : ℕ) (c : ℤ) : Counted s n c (alloc s n c) := by
  have hempty : Slots.marked n (alloc s n c).m_nFlagArray = ∅ := Slots.marked_none n _ (fun _ _ => rfl)
  refine ⟨rfl, rfl, rfl, rfl, ?_⟩
  rw [hempty]
  rfl

theorem counted_reached (p : CBufPool) (h : Reached p) :
    ∃ s n c, (1 ≤ n ∧ n < 2^31) ∧ Counted s n c p := by
  obtain ⟨s, n, c, ops, hn, hlegal, hrun⟩ := h
  refine ⟨s, n, c, hn, ?_⟩
  apply Runs.runFrom_guarded_invariant op Legal (Counted s n c) _ _ p ops (counted_alloc s n c) hlegal hrun
  intro q o r hq ho hr
  exact counted_op s n c q hn hq o r ho hr

section AllOrNothing

variable (s n : ℕ) (c : ℤ) (p q : CBufPool) (nCount m : ℕ) (hn : 1 ≤ n ∧ n < 2^31)
variable (h : Counted s n c p) (hq : Claimed s n c p nCount p.m_nLastCount q m)

include hn hq

-- Only from slot 0 on does the second loop come to the slots that the first one has taken.
theorem undone_iff : (q.unmarkLoop (m-p.m_nLastCount) p.m_nLastCount).m_nFlagArray = p.m_nFlagArray ↔
    m = 0 ∨ p.m_nLastCount = 0 := by
  obtain ⟨-, hflags⟩ := counted_unmarkLoop s n c p hn q nCount p.m_nLastCount m hq
  constructor
  · intro heq
    by_contra hneither
    -- the last slot taken is behind the last one that is given back
    have hlast := hq.free (p.m_nLastCount+m-1) (by omega) (by omega)
    have hset : (q.unmarkLoop (m-p.m_nLastCount) p.m_nLastCount).m_nFlagArray (p.m_nLastCount+m-1) =
        true := by
      rw [hflags, if_neg (by omega), hq.flags, if_pos (by omega)]
    rw [heq, hlast.2] at hset
    cases hset
  · intro hzero
    ext1 j
    rw [hflags, hq.flags]
    split_ifs with hback htaken
    · exact (hq.free j hback.1 (by omega)).2.symm
    · omega
    · rfl

include h

theorem use_of_flags (hflags : (q.unmarkLoop (m-p.m_nLastCount) p.m_nLastCount).m_nFlagArray =
    p.m_nFlagArray) : (q.unmarkLoop (m-p.m_nLastCount) p.m_nLastCount).m_nUseCnt = p.m_nUseCnt := by
  obtain ⟨hcounted, -⟩ := counted_unmarkLoop s n c p hn q nCount p.m_nLastCount m hq
  rw [hcounted.use, hflags, h.use]

end AllOrNothing

theorem allOrNothing_false (p q : CBufPool) (nCount : ℕ) (hq : p.newMemList nCount = (q, false)) :
    AllOrNothing p nCount ↔ q.m_nFlagArray = p.m_nFlagArray ∧ q.m_nUseCnt = p.m_nUseCnt := by
  simp [AllOrNothing, hq]

/-- On every pool that legal calls can reach, `newMemList` takes all the slots or none exactly when
nothing has to be undone or the first slot is slot 0. -/
theorem allOrNothing_iff (p : CBufPool) (hp : Reached p) (nCount : ℕ) (hpos : 1 ≤ nCount) :
    AllOrNothing p nCount ↔ Undone p nCount := by
  obtain ⟨s, n, c, hn, h⟩ := counted_reached p hp
  have hq := claimLoop_claimed s n c p hn.2 h nCount p.m_nLastCount
  by_cases hearly : (p.m_nAllocCount : ℤ) < i32 (p.m_nUseCnt+nCount)
  · have hrefuse : p.newMemList nCount = (p, false) := by
      rw [newMemList, if_pos hearly]
    exact iff_of_true ((allOrNothing_false p p nCount hrefuse).mpr ⟨rfl, rfl⟩) (Or.inl hearly)
  · have hlist := newMemList_eq p nCount hearly
    rw [Int.toNat_natCast] at hlist
    generalize p.claimLoop nCount p.m_nLastCount = r at hq hlist
    obtain ⟨q, m⟩ := r
    dsimp only at hq hlist
    rcases hq.le.lt_or_eq with hlt | hall
    · have hne : ¬(m : ℤ) = nCount := by omega
      rw [if_neg hne] at hlist
      rw [allOrNothing_false p _ nCount hlist]
      have hnotall : ¬∀ i, p.m_nLastCount ≤ i → i < p.m_nLastCount+nCount →
          i < p.m_nAllocCount ∧ p.m_nFlagArray i = false := by
        intro hfree
        rw [h.count] at hfree
        exact hq.stop hlt (hfree (p.m_nLastCount+m) (by omega) (by omega))
      have hundone : Undone p nCount ↔ m = 0 ∨ p.m_nLastCount = 0 := by
        have hfirst : ¬(p.m_nLastCount < p.m_nAllocCount ∧ p.m_nFlagArray p.m_nLastCount = false) ↔
            m = 0 := by
          rw [h.count]
          constructor
          · intro htaken
            by_contra hm
            exact htaken (hq.free p.m_nLastCount le_rfl (by omega))
          · intro hm
            have hstop := hq.stop hlt
            rwa [hm, add_zero] at hstop
        rw [Undone, hfirst]
        exact ⟨fun hu => (hu.resolve_left hearly).resolve_left hnotall, fun hu => Or.inr (Or.inr hu)⟩
      rw [hundone, ← undone_iff s n c p q nCount m hn hq]
      exact ⟨And.left, fun heq => ⟨heq, use_of_flags s n c p q nCount m hn h hq heq⟩⟩
    · subst hall
      rw [if_pos rfl] at hlist
      have hfree := hq.free
      rw [← h.count] at hfree
      refine iff_of_true ?_ (Or.inr (Or.inl hfree))
      simp only [AllOrNothing, hlist]
      exact ⟨fun _ => ⟨hfree, hq.flags, hq.use⟩, fun hf => nomatch hf⟩

/-- Three buffers that have all been taken and given back, the last one last. -/
def allFree : CBufPool :=
  let p := (alloc 4 3 4096).newMem.1.newMem.1.newMem.1
  (((p.delMem 4096).1.delMem 4112).1.delMem 4128).1

theorem reached_allFree : Reached allFree :=
  ⟨4, 3, 4096, [.newMem, .newMem, .newMem, .delMem 4096, .delMem 4112, .delMem 4128], by decide, by decide,
    rfl⟩

theorem allOrNothing_allFree : AllOrNothing allFree 1 := by
  apply (allOrNothing_iff allFree reached_allFree 1 (by decide)).mpr
  refine Or.inr (Or.inl fun i hle hlt => ?_)
  obtain rfl : i = 2 := le_antisymm (Nat.le_of_lt_succ hlt) hle
  exact ⟨by decide, rfl⟩

-- Slot 2 is taken and stays so, although the call answers false.
theorem not_allOrNothing_allFree : Reached allFree ∧ (allFree.newMemList 2).2 = false ∧
    (allFree.newMemList 2).1.m_nFlagArray 2 = true ∧ ¬AllOrNothing allFree 2 := by
  refine ⟨reached_allFree, rfl, rfl, fun hall => ?_⟩
  have hflags := (hall.2 rfl).1
  have hleaked : true = false := congrFun hflags 2
  cases hleaked

end Leviathan.CBufPool
