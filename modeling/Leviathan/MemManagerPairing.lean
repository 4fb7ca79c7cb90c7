import Leviathan.MemManager

/-! A client of `CMemManager`: it obtains blocks in the four ways the class offers and gives
back the ones it holds.  The release side recomputes the size class; the question is whether it
reaches the pool slot, or the heap, that the block came from. -/
namespace Leviathan.MemClient

open CMemManager

/-- How a block was obtained, with what the client was told about it. -/
inductive Form
  | size
  | index (nIdx : ℕ)
  | st (buf : STBuf)
  | str (text : CString)

/-- A block in the client's hands. -/
structure Held where
  block : Block
  nSize : ℕ
  form : Form

structure Client where
  mgr : CMemManager
  held : List Held

/-- The calls of a client.  `a` is the address `calloc` answers, should it be called; `j` is the
position of a held block. -/
inductive Call
  | newBuf (nSize : ℕ) (a : ℤ)
  | newBufIndex (nSize : ℕ) (a : ℤ)
  | newBufInto (nSize : ℕ) (j : Option ℕ) (a : ℤ)
  | newString (s : CString) (a : ℤ)
  | delBuf (j : ℕ)
  | del (j : ℕ)

variable (conf : STBufConf) (chunk : ℕ → ℤ)

/-- Class `k` has a pool. -/
def Configured (k : ℕ) : Prop := 1 ≤ k ∧ k < idxBufMax ∧ conf.nMaxList k ≠ 0

/-- The `size` bytes at `a` lie outside the chunk of every pool. -/
def heapFree (a : ℤ) (size : ℕ) : Bool :=
  decide (a ≠ 0) && (List.range idxBufMax).all (fun k =>
    decide (k = 0) || decide (conf.nMaxList k = 0) || decide (a+size ≤ chunk k) ||
      decide (chunk k+conf.nMaxList k*2^k ≤ a))

/-- The block is entered among the held ones; a heap block must lie outside the chunks. -/
def keepBlock (held : List Held) (r : CMemManager × Block) (nSize : ℕ) (form : Form) : Option Client :=
  match r.2.origin with
  | .pool _ _ => some ⟨r.1, ⟨r.2, nSize, form⟩ :: held⟩
  | .heap size =>
    if heapFree conf chunk r.2.pValue size then some ⟨r.1, ⟨r.2, nSize, form⟩ :: held⟩ else none

/-- The release call that fits the way a block was obtained. -/
def releaseOwn (m : CMemManager) (h : Held) : CMemManager × Option ℤ :=
  match h.form with
  | .size => m.delBuf h.block.pValue h.nSize
  | .index nIdx => m.delBufByIndex h.block.pValue nIdx
  | .st buf => (m.delBufSt buf).1
  | .str text => m.delString h.block.pValue text 0

/-- Sizes from 1 to `2^30`. -/
def sizeOk (nSize : ℕ) : Bool := decide (1 ≤ nSize) && decide (nSize ≤ 2^30)

def step (c : Client) : Call → Option Client
  | .newBuf n a => if sizeOk n then keepBlock conf chunk c.held (c.mgr.newBuf n a) n .size else none
  | .newBufIndex n a =>
    if sizeOk n then
      let r := c.mgr.newBufIndex n a
      keepBlock conf chunk c.held r.1 n (.index r.2)
    else none
  | .newBufInto n none a =>
    if sizeOk n then
      let r := c.mgr.newBufInto n ⟨0, 0⟩ a
      keepBlock conf chunk c.held r.1 n (.st r.2)
    else none
  | .newBufInto n (some j) a =>
    match c.held[j]? with
    | some ⟨_, _, .st buf⟩ =>
      if sizeOk n then
        let r := c.mgr.newBufInto n buf a
        keepBlock conf chunk (c.held.eraseIdx j) r.1 n (.st r.2)
      else none
    | _ => none
  | .newString s a =>
    if sizeOk (s.strlen+1) then
      keepBlock conf chunk c.held (c.mgr.newString s a) (s.strlen+1) (.str s)
    else none
  | .delBuf j =>
    c.held[j]?.map (fun h => ⟨(c.mgr.delBuf h.block.pValue h.nSize).1, c.held.eraseIdx j⟩)
  | .del j => c.held[j]?.map (fun h => ⟨(releaseOwn c.mgr h).1, c.held.eraseIdx j⟩)

def start : Client := ⟨CMemManager.alloc conf chunk, []⟩

/-- The block has room for `nSize` bytes at its origin. -/
def HasRoom (m : CMemManager) (b : Block) (nSize : ℕ) : Prop :=
  match b.origin with
  | .heap size => nSize ≤ size
  | .pool k i => ∃ p, m.m_pBufList k = some p ∧ i < p.m_nAllocCount ∧
      b.pValue = p.m_pChunk+i*2^p.m_nShift ∧ nSize ≤ 2^p.m_nShift

/-- The outcome `r` of a release clears the flag of the block's slot, or gives the block to
`free` and leaves the pools alone. -/
def ReleasesOrigin (m : CMemManager) (b : Block) (r : CMemManager × Option ℤ) : Prop :=
  match b.origin with
  | .heap _ => r = (m, some b.pValue)
  | .pool k i => ∃ p, m.m_pBufList k = some p ∧
      r = ({ m with m_pBufList := Function.update m.m_pBufList k (some (p.release i)) }, none)

/-- The size classes of allocation and release agree. -/
def PairsUp : Prop :=
  (∀ n, 1 ≤ n → n ≤ 2^30 → IsLeast {k | n ≤ 2^k} (getIndex n)) ∧
  ∀ calls c, Runs.runFrom (step conf chunk) (start conf chunk) calls = some c →
    ∀ h ∈ c.held, HasRoom c.mgr h.block h.nSize ∧
      ReleasesOrigin c.mgr h.block (c.mgr.delBuf h.block.pValue h.nSize) ∧
      ReleasesOrigin c.mgr h.block (releaseOwn c.mgr h)

/-- Each configured pool has the layout `alloc` gave it; there are no other pools. -/
structure MgrOk (m : CMemManager) : Prop where
  pool : ∀ k, Configured conf k →
    ∃ p, m.m_pBufList k = some p ∧ p.Layout k (conf.nMaxList k) (chunk k)
  none : ∀ k, ¬Configured conf k → m.m_pBufList k = none

/-- The origin of a block of `nSize` bytes, and the class that its release will compute. -/
def BlockOk (b : Block) (nSize : ℕ) : Prop :=
  match b.origin with
  | .heap size => nSize ≤ size ∧ heapFree conf chunk b.pValue size = true
  | .pool k i => k = getIndex nSize ∧ Configured conf k ∧ i < conf.nMaxList k ∧
      b.pValue = chunk k+i*2^k

-- before anything is known about the place of a heap block
def FreshOk (b : Block) (nSize : ℕ) : Prop :=
  match b.origin with
  | .heap size => nSize ≤ size
  | .pool _ _ => BlockOk conf chunk b nSize

structure HeldOk (h : Held) : Prop where
  pos : 1 ≤ h.nSize
  block : BlockOk conf chunk h.block h.nSize
  index : ∀ k, h.form = .index k → k = getIndex h.nSize
  st : ∀ b, h.form = .st b → b = ⟨h.block.pValue, getIndex h.nSize⟩
  str : ∀ s, h.form = .str s → h.nSize = s.strlen+1

/-- Every pool's offsets fit an `int`. -/
def PoolsFit : Prop := ∀ k, 1 ≤ k → k < idxBufMax → CBufPool.Fits k (conf.nMaxList k)

structure ClientOk (c : Client) : Prop where
  mgr : MgrOk conf chunk c.mgr
  held : ∀ h ∈ c.held, HeldOk conf chunk h

variable {conf chunk}

theorem mgrOk_alloc : MgrOk conf chunk (CMemManager.alloc conf chunk) := by
  constructor
  · intro k hk
    exact ⟨_, if_pos hk, CBufPool.layout_alloc _ _ _ hk.2.2⟩
  · intro k hk
    exact if_neg hk

theorem mgrOk_update (m : CMemManager) (k : ℕ) (p : CBufPool) (hm : MgrOk conf chunk m)
    (hk : Configured conf k) (hp : p.Layout k (conf.nMaxList k) (chunk k)) (o : ℕ) :
    MgrOk conf chunk ⟨Function.update m.m_pBufList k (some p), o⟩ := by
  constructor
  · intro j hj
    by_cases hjk : j = k
    · subst hjk
      exact ⟨p, Function.update_self _ _ _, hp⟩
    · obtain ⟨q, hq, hl⟩ := hm.pool j hj
      exact ⟨q, (Function.update_of_ne hjk _ _).trans hq, hl⟩
  · intro j hj
    have hjk : j ≠ k := fun e => hj (e ▸ hk)
    exact (Function.update_of_ne hjk _ _).trans (hm.none j hj)

theorem poolOf_eq (m : CMemManager) (k : ℕ) (hm : MgrOk conf chunk m) :
    m.poolOf k = m.m_pBufList k := by
  unfold poolOf
  split
  · rename_i h
    refine (hm.none k (fun hk => ?_)).symm
    have hlt := hk.2.1
    unfold idxBuf2m at h
    unfold idxBufMax at hlt
    omega
  · rfl

-- Outside the chunk of a configured pool.
theorem heapFree_outside (a : ℤ) (size k : ℕ) (hs : 1 ≤ size) (hk : Configured conf k)
    (h : heapFree conf chunk a size = true) : a < chunk k ∨ chunk k+conf.nMaxList k*2^k ≤ a := by
  simp only [heapFree, Bool.and_eq_true, List.all_eq_true, List.mem_range, Bool.or_eq_true,
    decide_eq_true_eq] at h
  have hk0 : k ≠ 0 := by have := hk.1; omega
  rcases h.2 k hk.2.1 with ((h0 | h0) | h0) | h0
  · exact absurd h0 hk0
  · exact absurd h0 hk.2.2
  · exact Or.inl (by omega)
  · exact Or.inr h0

-- What `__newBuf` returns for a size of class `getIndex nSize`.
theorem newBuf_spec (m : CMemManager) (nSize size : ℕ) (a : ℤ) (hf : PoolsFit conf)
    (hm : MgrOk conf chunk m) (hn : 1 ≤ nSize) (hs : size = 0 ∨ size = nSize) :
    MgrOk conf chunk (m._newBuf (getIndex nSize) size a).1 ∧
      FreshOk conf chunk (m._newBuf (getIndex nSize) size a).2 nSize := by
  have hle := le_two_pow_getIndex nSize hn
  by_cases hk : Configured conf (getIndex nSize)
  · obtain ⟨p, hp, hl⟩ := hm.pool _ hk
    have hlay := p.layout_newMem _ _ _ hl
    cases hr : p.newMem.2 with
    | none =>
      simp only [_newBuf, poolOf_eq m _ hm, hp, hr]
      refine ⟨mgrOk_update m _ _ hm hk hlay _, ?_⟩
      show nSize ≤ getSizeByIndex p.m_nShift
      rw [hl.shift, getSizeByIndex_eq _ hk.2.1]
      exact hle
    | some i =>
      simp only [_newBuf, poolOf_eq m _ hm, hp, hr]
      refine ⟨mgrOk_update m _ _ hm hk hlay _, ?_⟩
      have hi := (p.newMem_slot _ _ _ i hl hr).1
      refine ⟨rfl, hk, hi, ?_⟩
      simp only [CBufPool.getMem, hl.chunk, hl.shift]
      rw [CBufPool.offset_eq _ _ _ (hf _ hk.1 hk.2.1) hi]
  · simp only [_newBuf, poolOf_eq m _ hm, hm.none _ hk]
    refine ⟨⟨hm.pool, hm.none⟩, ?_⟩
    show nSize ≤ if size = 0 then 1 <<< getIndex nSize else size
    rcases hs with rfl | rfl
    · rw [if_pos rfl, Nat.one_shiftLeft]
      exact hle
    · split
      · omega
      · exact le_rfl

-- Releasing a block by its class reaches its origin.
theorem delBufByIndex_spec (m : CMemManager) (b : Block) (nSize : ℕ) (hf : PoolsFit conf)
    (hm : MgrOk conf chunk m) (hn : 1 ≤ nSize) (hb : BlockOk conf chunk b nSize) :
    ReleasesOrigin m b (m.delBufByIndex b.pValue (getIndex nSize)) := by
  obtain ⟨a, o⟩ := b
  cases o with
  | pool k i =>
    obtain ⟨rfl, hk, hi, hp⟩ := hb
    obtain ⟨p, hpool, hl⟩ := hm.pool _ hk
    refine ⟨p, hpool, ?_⟩
    simp only at hp
    simp only [delBufByIndex, poolOf_eq m _ hm, hpool, hp,
      p.delMem_slot _ _ _ i hl (hf _ hk.1 hk.2.1) hi]
  | heap size =>
    obtain ⟨hle, hfree⟩ := hb
    simp only at hfree
    by_cases hk : Configured conf (getIndex nSize)
    · obtain ⟨p, hpool, hl⟩ := hm.pool _ hk
      have hout := heapFree_outside a size _ (by omega) hk hfree
      have hsame : Function.update m.m_pBufList (getIndex nSize) (some p) = m.m_pBufList :=
        Function.update_eq_self_iff.mpr hpool.symm
      simp only [ReleasesOrigin, delBufByIndex, poolOf_eq m _ hm, hpool,
        p.delMem_heap _ _ _ a hl (hf _ hk.1 hk.2.1) hout, hsame]
    · have ha : a ≠ 0 := by
        simp only [heapFree, Bool.and_eq_true, decide_eq_true_eq] at hfree
        exact hfree.1
      simp only [ReleasesOrigin, delBufByIndex, poolOf_eq m _ hm, hm.none _ hk, if_neg ha]

-- The release call that belongs to a held block computes the block's class.
theorem releaseOwn_eq (m : CMemManager) (h : Held) (ho : HeldOk conf chunk h) :
    releaseOwn m h = m.delBufByIndex h.block.pValue (getIndex h.nSize) := by
  cases hfm : h.form with
  | size => simp only [releaseOwn, hfm, delBuf]
  | index k =>
    simp only [releaseOwn, hfm]
    rw [ho.index k hfm]
  | st b =>
    simp only [releaseOwn, hfm, delBufSt]
    rw [ho.st b hfm]
  | str s =>
    simp only [releaseOwn, hfm, delString]
    rw [if_neg (by simp), ho.str s hfm]

theorem hasRoom_of_ok (m : CMemManager) (b : Block) (nSize : ℕ) (hm : MgrOk conf chunk m)
    (hn : 1 ≤ nSize) (hb : BlockOk conf chunk b nSize) : HasRoom m b nSize := by
  obtain ⟨a, o⟩ := b
  cases o with
  | heap size => exact hb.1
  | pool k i =>
    obtain ⟨rfl, hk, hi, hp⟩ := hb
    obtain ⟨p, hpool, hl⟩ := hm.pool _ hk
    refine ⟨p, hpool, by rw [hl.count]; exact hi, ?_, ?_⟩
    · rw [hl.chunk, hl.shift]
      exact hp
    · rw [hl.shift]
      exact le_two_pow_getIndex nSize hn

-- A release that reaches its origin leaves the manager in order.
theorem mgrOk_release (m : CMemManager) (b : Block) (nSize : ℕ) (r : CMemManager × Option ℤ)
    (hm : MgrOk conf chunk m) (hb : BlockOk conf chunk b nSize) (h : ReleasesOrigin m b r) :
    MgrOk conf chunk r.1 := by
  obtain ⟨a, o⟩ := b
  cases o with
  | heap size =>
    simp only [ReleasesOrigin] at h
    rw [h]
    exact hm
  | pool k i =>
    obtain ⟨_, hk, hi, _⟩ := hb
    obtain ⟨p, hp, hr⟩ := h
    obtain ⟨q, hq, hl⟩ := hm.pool k hk
    have hpq : q = p := Option.some.inj (hq.symm.trans hp)
    rw [hr]
    exact mgrOk_update m k _ hm hk (p.layout_release _ _ _ i (hpq ▸ hl) hi) _

theorem keepBlock_ok (held : List Held) (r : CMemManager × Block) (n : ℕ) (form : Form) (c : Client)
    (hheld : ∀ h ∈ held, HeldOk conf chunk h) (hn : 1 ≤ n)
    (hr : MgrOk conf chunk r.1 ∧ FreshOk conf chunk r.2 n)
    (hi : ∀ k, form = .index k → k = getIndex n)
    (hs : ∀ b, form = .st b → b = ⟨r.2.pValue, getIndex n⟩)
    (ht : ∀ s, form = .str s → n = s.strlen+1)
    (h : keepBlock conf chunk held r n form = some c) : ClientOk conf chunk c := by
  obtain ⟨hm, hb⟩ := hr
  have hok (hblock : BlockOk conf chunk r.2 n) (hc : c = ⟨r.1, ⟨r.2, n, form⟩ :: held⟩) :
      ClientOk conf chunk c := by
    subst hc
    refine ⟨hm, fun x hx => ?_⟩
    rcases List.mem_cons.mp hx with rfl | hx
    · exact ⟨hn, hblock, hi, hs, ht⟩
    · exact hheld x hx
  unfold FreshOk at hb
  cases ho : r.2.origin with
  | pool k i =>
    simp only [keepBlock, ho, Option.some.injEq] at h
    simp only [ho] at hb
    exact hok hb h.symm
  | heap size =>
    simp only [keepBlock, ho] at h
    simp only [ho] at hb
    split at h
    · rename_i hfree
      refine hok ?_ (Option.some.inj h).symm
      simp only [BlockOk, ho]
      exact ⟨hb, hfree⟩
    · cases h

theorem clientOk_release (c : Client) (j : ℕ) (x : Held) (hf : PoolsFit conf)
    (hc : ClientOk conf chunk c) (hx : c.held[j]? = some x) :
    ClientOk conf chunk
      ⟨(c.mgr.delBufByIndex x.block.pValue (getIndex x.nSize)).1, c.held.eraseIdx j⟩ := by
  have ho := hc.held x (List.mem_of_getElem? hx)
  refine ⟨mgrOk_release _ _ _ _ hc.mgr ho.block
    (delBufByIndex_spec _ _ _ hf hc.mgr ho.pos ho.block), fun y hy => ?_⟩
  exact hc.held y (List.mem_of_mem_eraseIdx hy)

-- One call of the client.
theorem clientOk_step (c c' : Client) (call : Call) (hf : PoolsFit conf)
    (hc : ClientOk conf chunk c) (h : step conf chunk c call = some c') :
    ClientOk conf chunk c' := by
  have hpos (n : ℕ) (hs : sizeOk n = true) : 1 ≤ n := by
    simp only [sizeOk, Bool.and_eq_true, decide_eq_true_eq] at hs
    exact hs.1
  cases call with
  | newBuf n a =>
    obtain ⟨hs, h⟩ := Option.ite_none_right_eq_some.mp h
    have hnew := newBuf_spec c.mgr n n a hf hc.mgr (hpos n hs) (Or.inr rfl)
    exact keepBlock_ok _ _ _ _ _ hc.held (hpos n hs) hnew (by simp) (by simp) (by simp) h
  | newBufIndex n a =>
    obtain ⟨hs, h⟩ := Option.ite_none_right_eq_some.mp h
    have hnew := newBuf_spec c.mgr n n a hf hc.mgr (hpos n hs) (Or.inr rfl)
    exact keepBlock_ok _ _ _ _ _ hc.held (hpos n hs) hnew (by simp [newBufIndex]) (by simp) (by simp) h
  | newBufInto n j a =>
    cases j with
    | none =>
      obtain ⟨hs, h⟩ := Option.ite_none_right_eq_some.mp h
      have hnew := newBuf_spec c.mgr n 0 a hf hc.mgr (hpos n hs) (Or.inl rfl)
      exact keepBlock_ok _ _ _ _ _ hc.held (hpos n hs) hnew (by simp) (by simp [newBufInto]) (by simp) h
    | some j =>
      simp only [step] at h
      split at h
      · rename_i b n₀ buf hx
        obtain ⟨hs, h⟩ := Option.ite_none_right_eq_some.mp h
        have hbuf := (hc.held _ (List.mem_of_getElem? hx)).st buf rfl
        have hrel := clientOk_release c j _ hf hc hx
        -- the block the `STBuf` held goes back before the new one is taken
        have hm : MgrOk conf chunk (if buf.pValue = 0 then c.mgr
            else (c.mgr.delBufByIndex buf.pValue buf.nIdx).1) := by
          split
          · exact hc.mgr
          · rw [hbuf]
            exact hrel.mgr
        have hnew := newBuf_spec _ n 0 a hf hm (hpos n hs) (Or.inl rfl)
        exact keepBlock_ok _ _ _ _ _ hrel.held (hpos n hs) hnew (by simp) (by simp [newBufInto])
          (by simp) h
      · cases h
  | newString s a =>
    obtain ⟨hs, h⟩ := Option.ite_none_right_eq_some.mp h
    have hnew := newBuf_spec c.mgr _ 0 a hf hc.mgr (hpos _ hs) (Or.inl rfl)
    exact keepBlock_ok _ _ _ _ _ hc.held (hpos _ hs) hnew (by simp) (by simp) (by simp) h
  | delBuf j =>
    simp only [step, Option.map_eq_some_iff] at h
    obtain ⟨x, hx, rfl⟩ := h
    exact clientOk_release c j x hf hc hx
  | del j =>
    simp only [step, Option.map_eq_some_iff] at h
    obtain ⟨x, hx, rfl⟩ := h
    rw [releaseOwn_eq c.mgr x (hc.held x (List.mem_of_getElem? hx))]
    exact clientOk_release c j x hf hc hx

-- With pools whose offsets fit, every block a client ever holds has room and is released to
-- its origin.
theorem pairsUp_of_fit (hf : PoolsFit conf) : PairsUp conf chunk := by
  refine ⟨fun n hn _ => getIndex_isLeast n hn, fun calls c hr x hx => ?_⟩
  have hc : ClientOk conf chunk c := Runs.runFrom_invariant (step conf chunk) (ClientOk conf chunk)
    (fun s a t hs ht => clientOk_step s t a hf hs ht) _ c calls
    ⟨mgrOk_alloc, by simp [start]⟩ hr
  have ho := hc.held x hx
  have hrel := delBufByIndex_spec _ _ _ hf hc.mgr ho.pos ho.block
  refine ⟨hasRoom_of_ok _ _ _ hc.mgr ho.pos ho.block, hrel, ?_⟩
  rw [releaseOwn_eq _ _ ho]
  exact hrel

-- Blocks of class `k` taken one after the other come from slots 0, 1, 2, ... of its pool.
theorem run_fills (chunk : ℕ → ℤ) (k : ℕ) (hk : Configured conf k) (j : ℕ) (hj : j ≤ conf.nMaxList k)
    (hj31 : j < 2^31) : ∃ c p,
      Runs.runFrom (step conf chunk) (start conf chunk) (List.replicate j (.newBuf (2^k) 1)) = some c ∧
      c.mgr.m_pBufList k = some p ∧ p.Filled k (conf.nMaxList k) (chunk k) j ∧
      ∀ i < j, ⟨⟨chunk k+CBufPool.offset k i, .pool k i⟩, 2^k, .size⟩ ∈ c.held := by
  induction j with
  | zero =>
    exact ⟨_, _, rfl, if_pos hk, CBufPool.filled_alloc _ _ _ hk.2.2, fun i hi => absurd hi (by omega)⟩
  | succ j ih =>
    obtain ⟨c, p, hr, hp, hfill, hheld⟩ := ih (by omega) (by omega)
    obtain ⟨hnew, hfill'⟩ := p.newMem_filled _ _ _ j hfill (by omega) hj31
    have hk22 : k < 22 := hk.2.1
    have hpool : c.mgr.poolOf k = some p := by
      rw [poolOf, if_neg (by unfold idxBuf2m; omega), hp]
    have hsize : sizeOk (2^k) = true := by
      simp only [sizeOk, Bool.and_eq_true, decide_eq_true_eq]
      exact ⟨Nat.one_le_two_pow, Nat.pow_le_pow_right (by decide) (by omega)⟩
    have hblock : c.mgr.newBuf (2^k) 1 =
        ({ c.mgr with m_pBufList := Function.update c.mgr.m_pBufList k (some (p.take j)) },
          ⟨chunk k+CBufPool.offset k j, .pool k j⟩) := by
      simp only [newBuf, _newBuf, getIndex_two_pow, hpool, hnew, CBufPool.getMem,
        hfill.layout.chunk, hfill.layout.shift]
    refine ⟨⟨{ c.mgr with m_pBufList := Function.update c.mgr.m_pBufList k (some (p.take j)) },
      ⟨⟨chunk k+CBufPool.offset k j, .pool k j⟩, 2^k, .size⟩ :: c.held⟩, p.take j, ?_,
      Function.update_self _ _ _, hfill', ?_⟩
    · rw [List.replicate_succ', Runs.runFrom_append_iff]
      refine ⟨c, hr, ?_⟩
      simp only [Runs.runFrom, step, hsize, if_true, hblock, keepBlock, Option.bind_some]
    · intro i hi
      rcases Nat.lt_succ_iff_lt_or_eq.mp hi with hlt | rfl
      · exact List.mem_cons_of_mem _ (hheld i hlt)
      · exact List.mem_cons_self

variable (conf chunk)

/-- Allocation and release agree, on every run of a client, exactly when the offset of the last
slot of every pool fits an `int`. -/
theorem pairsUp_iff_pools_fit : PairsUp conf chunk ↔ PoolsFit conf := by
  refine ⟨fun h k hk1 hk22 => ?_, pairsUp_of_fit⟩
  by_contra hbad
  unfold CBufPool.Fits at hbad
  have hk : Configured conf k := by
    refine ⟨hk1, hk22, fun h0 => hbad ?_⟩
    rw [h0, Nat.zero_sub, Nat.zero_mul]
    decide
  have h22 : k < 22 := hk22
  have hmul : 2^(31-k)*2^k = 2^31 := by rw [← pow_add, Nat.sub_add_cancel (by omega)]
  have hlt : 2^(31-k) ≤ conf.nMaxList k-1 := by
    by_contra hgt
    exact hbad ((Nat.mul_lt_mul_of_pos_right (not_le.mp hgt) (Nat.two_pow_pos k)).trans_eq hmul)
  have hpow : 2^(31-k) ≤ 2^30 := Nat.pow_le_pow_right (by decide) (by omega)
  have hne := hk.2.2
  obtain ⟨c, p, hr, hp, hfill, hheld⟩ := run_fills chunk k hk (2^(31-k)+1)
    (by omega) (by omega)
  obtain ⟨q, hq, _, hptr, _⟩ := (h.2 _ c hr _ (hheld (2^(31-k)) (by omega))).1
  have hpq : p = q := Option.some.inj (hp.symm.trans hq)
  subst hpq
  simp only [hfill.layout.chunk, hfill.layout.shift, CBufPool.offset_overflow k (by omega)] at hptr
  have hcast : ((2^(31-k) : ℕ):ℤ)*2^k = 2^31 := by exact_mod_cast hmul
  rw [hcast] at hptr
  omega

/-- A pool of 1025 blocks of 2 MB. -/
def conf1025 : STBufConf := ⟨fun k => if k = 21 then 1025 else 0⟩

/-- The first block of that pool is given to `free` when it is released. -/
theorem not_pairsUp_1025 : ¬PairsUp conf1025 (fun _ => 65536) := by
  intro h
  have hr : Runs.runFrom (step conf1025 (fun _ => 65536)) (start conf1025 (fun _ => 65536))
      [.newBuf 2097152 1] = some ⟨((CMemManager.alloc conf1025 (fun _ => 65536)).newBuf 2097152 1).1,
        [⟨⟨65536, .pool 21 0⟩, 2097152, .size⟩]⟩ := rfl
  obtain ⟨p, _, hp⟩ := (h.2 _ _ hr _ (List.mem_singleton.mpr rfl)).2.1
  have hfreed := congrArg Prod.snd hp
  cases hfreed

end Leviathan.MemClient
