import Leviathan.MemManagerThreads

/-! What the threads that share a `CMemManager` can rely on, whichever of them moves when. -/
namespace Leviathan.MemManagerThreads

open CMemManager MemClient Ownership

variable (conf : STBufConf) (chunk : ℕ → ℤ) {T : Type} [DecidableEq T]

/-- The addresses of the bytes of a block. -/
def bytes (h : Held) : List ℤ := (List.range (length h)).map (fun d : ℕ => h.block.pValue+d)

/-- `calloc` has answered chunks that lie apart. -/
def ChunksApart : Prop := ∀ j k, Configured conf j → Configured conf k → j ≠ k →
  chunk j+conf.nMaxList j*2^j ≤ chunk k ∨ chunk k+conf.nMaxList k*2^k ≤ chunk j

/-- What holds whichever thread moves when: no byte belongs to two blocks, every block has room for what
was asked for, the stores into the pools stay inside, and only a block of the heap is given to `free`, once.
Between the calls a pool's flags and its counter are about the slots that are held, and the heap has the
other blocks that are held. -/
structure Safe [Fintype T] (s : State T) : Prop where
  room : ∀ t, ∀ b ∈ (s.thr t).held, b.n ≤ length b
  apart : Exclusive (fun t => (s.thr t).held.flatMap bytes)
  index : ∀ t k n pc, (s.thr t).pc = .inPool k n pc →
    ∀ i ∈ BufPoolThreads.usedIndex pc, i < conf.nMaxList k
  store : ∀ t k n i, (s.thr t).pc = .inPool k n (.clearFirst i) →
    ∀ u, chunk k+i*2^k ∉ (s.thr u).held.flatMap bytes
  free : ∀ t a, (s.thr t).pc = .free a →
    (∃ size, (a, size) ∈ s.heap) ∧ ∀ u, a ∉ (s.thr u).held.filterMap addressIn
  pools : (∀ t, (s.thr t).pc = .idle) → ∀ k, Configured conf k → ∃ p, s.mgr.m_pBufList k = some p ∧
    (∀ i, p.m_nFlagArray i = true ↔ Owned (fun t => (s.thr t).held.filterMap (slotIn k)) i) ∧
    p.m_nUseCnt = ∑ t, (((s.thr t).held.filterMap (slotIn k)).length : ℤ)
  heap : (∀ t, (s.thr t).pc = .idle) → ∀ a,
    (∃ size, (a, size) ∈ s.heap) ↔ Owned (fun t => (s.thr t).held.filterMap addressIn) a

/-- Two blocks with nothing in common. -/
structure Distinct (b c : Held) : Prop where
  slot : ∀ k, Configured conf k → ∀ i, slotIn k b = some i → ∀ j, slotIn k c = some j → i ≠ j
  address : ∀ x, addressIn b = some x → ∀ y, addressIn c = some y → x ≠ y

section Apart

variable {conf chunk}

theorem mem_bytes (b : Held) (x : ℤ) :
    x ∈ bytes b ↔ b.block.pValue ≤ x ∧ x < b.block.pValue+length b := by
  rw [bytes, List.mem_map]
  constructor
  · rintro ⟨d, hd, rfl⟩
    rw [List.mem_range] at hd
    omega
  · rintro ⟨hle, hlt⟩
    exact ⟨(x-b.block.pValue).toNat, List.mem_range.mpr (by omega), by omega⟩

theorem nodup_bytes (b : Held) : (bytes b).Nodup := by
  refine List.nodup_range.map fun x y hxy => ?_
  exact_mod_cast add_left_cancel hxy

-- A slot lies in its chunk, and apart from the others.
theorem slot_bounds (c : ℤ) (n k i : ℕ) (hi : i < n) : c ≤ c+i*2^k ∧ c+i*2^k+(2^k : ℕ) ≤ c+n*2^k := by
  have hpos : (0:ℤ) ≤ i*2^k := by positivity
  have hnext : ((i:ℤ)+1)*2^k ≤ n*2^k :=
    mul_le_mul_of_nonneg_right (by exact_mod_cast hi) (by positivity)
  push_cast
  constructor <;> linarith

theorem slots_apart (c : ℤ) (k i j : ℕ) (hij : i ≠ j) :
    c+i*2^k+(2^k : ℕ) ≤ c+j*2^k ∨ c+j*2^k+(2^k : ℕ) ≤ c+i*2^k := by
  rcases hij.lt_or_gt with hlt | hlt
  · exact Or.inl (slot_bounds c j k i hlt).2
  · exact Or.inr (slot_bounds c i k j hlt).2

theorem heapFree_apart (a : ℤ) (size k : ℕ) (hk : Configured conf k)
    (h : heapFree conf chunk a size = true) :
    a+size ≤ chunk k ∨ chunk k+conf.nMaxList k*2^k ≤ a := by
  simp only [heapFree, Bool.and_eq_true, List.all_eq_true, List.mem_range, Bool.or_eq_true,
    decide_eq_true_eq] at h
  have hk0 : k ≠ 0 := by
    have hpos := hk.1
    omega
  rcases h.2 k hk.2.1 with ((h0 | h0) | h0) | h0
  · exact absurd h0 hk0
  · exact absurd h0 hk.2.2
  · exact Or.inl h0
  · exact Or.inr h0

-- Two blocks with nothing in common lie apart.
theorem Distinct.apart (hchunks : ChunksApart conf chunk) (heap : List (ℤ × ℕ))
    (hheap : HeapOk conf chunk heap) (b c : Held) (hne : Distinct conf b c) (hb : HeldOk conf chunk heap b)
    (hc : HeldOk conf chunk heap c) : b.block.pValue+length b ≤ c.block.pValue ∨
      c.block.pValue+length c ≤ b.block.pValue := by
  obtain ⟨⟨x, origin⟩, nIdx, n⟩ := b
  obtain ⟨⟨y, origin'⟩, nIdx', n'⟩ := c
  cases origin with
  | pool k i =>
    obtain ⟨-, -, hk, hi, hx⟩ := hb
    dsimp only at hx
    cases origin' with
    | pool l j =>
      obtain ⟨-, -, hl, hj, hy⟩ := hc
      dsimp only at hy
      dsimp only [length]
      rw [hx, hy]
      by_cases hkl : k = l
      · subst hkl
        exact slots_apart _ k i j (hne.slot k hk i (if_pos rfl) j (if_pos rfl))
      · have hin := slot_bounds (chunk k) _ k i hi
        have hin' := slot_bounds (chunk l) _ l j hj
        rcases hchunks k l hk hl hkl with h | h <;> omega
    | heap size =>
      have hin := slot_bounds (chunk k) _ k i hi
      have hout := heapFree_apart y size k hk (hheap.outside _ hc.2).2
      dsimp only [length]
      rw [hx]
      omega
  | heap size =>
    cases origin' with
    | pool l j =>
      obtain ⟨-, -, hl, hj, hy⟩ := hc
      dsimp only at hy
      have hin := slot_bounds (chunk l) _ l j hj
      have hout := heapFree_apart x size l hl (hheap.outside _ hb.2).2
      dsimp only [length]
      rw [hy]
      omega
    | heap size' =>
      have hxy : x ≠ y := hne.address x rfl y rfl
      have hsymm : Std.Symm (fun b b' : ℤ × ℕ => b.1+b.2 ≤ b'.1 ∨ b'.1+b'.2 ≤ b.1) :=
        ⟨fun _ _ => Or.symm⟩
      exact hheap.apart.forall hb.2 hc.2 fun heq => hxy (congrArg Prod.fst heq)

theorem Distinct.bytes (hchunks : ChunksApart conf chunk) (heap : List (ℤ × ℕ))
    (hheap : HeapOk conf chunk heap) (b c : Held) (hne : Distinct conf b c) (hb : HeldOk conf chunk heap b)
    (hc : HeldOk conf chunk heap c) : (bytes b).Disjoint (bytes c) := by
  intro x hx hx'
  rw [mem_bytes] at hx hx'
  rcases hne.apart hchunks heap hheap b c hb hc with h | h <;> omega

variable [Fintype T] (s : State T)

omit [DecidableEq T] in
theorem Inv.pairwise (h : Inv conf chunk s) (t : T) : (s.thr t).held.Pairwise (Distinct conf) := by
  have haddr := (List.nodup_append.mp (h.exclusive.nodup t)).2.1
  have hslot (k : ℕ) (hk : Configured conf k) : ((s.thr t).held.filterMap (slotIn k)).Nodup := by
    obtain ⟨p, -, hinv⟩ := h.pools.pool k hk
    exact (List.nodup_append.mp (hinv.flagged.exclusive.nodup t)).2.1
  refine List.pairwise_iff_getElem.mpr fun i j hi hj hij => ⟨fun k hk => ?_, ?_⟩
  · exact List.pairwise_iff_getElem.mp (List.pairwise_filterMap.mp (hslot k hk)) i j hi hj hij
  · exact List.pairwise_iff_getElem.mp (List.pairwise_filterMap.mp haddr) i j hi hj hij

omit [DecidableEq T] in
theorem Inv.distinct (h : Inv conf chunk s) (t u : T) (htu : t ≠ u) (b c : Held)
    (hb : b ∈ (s.thr t).held) (hc : c ∈ (s.thr u).held) : Distinct conf b c := by
  constructor
  · rintro k hk i hi j hj rfl
    obtain ⟨p, -, hinv⟩ := h.pools.pool k hk
    exact hinv.flagged.exclusive.disjoint t u htu i
      (List.mem_append_right _ (List.mem_filterMap.mpr ⟨b, hb, hi⟩))
      (List.mem_append_right _ (List.mem_filterMap.mpr ⟨c, hc, hj⟩))
  · rintro x hx y hy rfl
    exact h.exclusive.disjoint t u htu x
      (List.mem_append_right _ (List.mem_filterMap.mpr ⟨b, hb, hx⟩))
      (List.mem_append_right _ (List.mem_filterMap.mpr ⟨c, hc, hy⟩))

omit [DecidableEq T] in
theorem Inv.apart (h : Inv conf chunk s) (hchunks : ChunksApart conf chunk) :
    Exclusive (fun t => (s.thr t).held.flatMap bytes) := by
  constructor
  · intro t
    refine List.nodup_flatMap.mpr ⟨fun b _ => nodup_bytes b, ?_⟩
    refine (h.pairwise s t).imp_of_mem fun hb hc hne => ?_
    exact hne.bytes hchunks s.heap h.heap _ _ (h.held t _ hb) (h.held t _ hc)
  · intro t u htu x hx hx'
    obtain ⟨b, hb, hxb⟩ := List.mem_flatMap.mp hx
    obtain ⟨c, hc, hxc⟩ := List.mem_flatMap.mp hx'
    exact (h.distinct s t u htu b c hb hc).bytes hchunks s.heap h.heap b c (h.held t b hb)
      (h.held u c hc) hxb hxc

omit [DecidableEq T] in
-- The slot whose first byte is cleared is nobody else's yet.
theorem Inv.store (h : Inv conf chunk s) (hchunks : ChunksApart conf chunk) (t : T) (k n i : ℕ)
    (hpc : (s.thr t).pc = .inPool k n (.clearFirst i)) (u : T) :
    chunk k+i*2^k ∉ (s.thr u).held.flatMap bytes := by
  intro hmem
  obtain ⟨c, hc, hx⟩ := List.mem_flatMap.mp hmem
  have hok := h.pc t
  rw [hpc] at hok
  obtain ⟨p, -, hinv⟩ := h.pools.pool k hok.1
  have hview : BufPoolThreads.owned (poolThread k (s.thr t)) =
      i :: (s.thr t).held.filterMap (slotIn k) := by
    rw [poolThread, hpc, pointIn, if_pos rfl]
    rfl
  have hi : i < conf.nMaxList k := by
    refine hinv.owned_lt t i ?_
    dsimp only
    rw [hview]
    exact List.mem_cons_self
  have hnew : HeldOk conf chunk s.heap ⟨⟨chunk k+i*2^k, .pool k i⟩, k, 0⟩ :=
    ⟨Nat.zero_le _, rfl, hok.1, hi, rfl⟩
  have hne : Distinct conf ⟨⟨chunk k+i*2^k, .pool k i⟩, k, 0⟩ c := by
    refine ⟨fun l hl i' hi' j hj => ?_, fun x hx => absurd hx.symm (Option.some_ne_none x)⟩
    obtain ⟨rfl, heq⟩ := Option.ite_none_right_eq_some.mp hi'
    obtain rfl := Option.some.inj heq
    rintro rfl
    exact hinv.flagged.exclusive.not_mem_rest (fun u => (s.thr u).held.filterMap (slotIn k))
      (fun u x hx => List.mem_append_right _ hx) t i hview u (List.mem_filterMap.mpr ⟨c, hc, hj⟩)
  refine hne.bytes hchunks s.heap h.heap _ c hnew (h.held u c hc) ((mem_bytes _ _).mpr ⟨le_rfl, ?_⟩) hx
  have hpos : 0 < 2^k := Nat.two_pow_pos k
  dsimp only [length]
  omega

omit [DecidableEq T] in
-- The block that a thread gives to `free` is one of the heap, and nobody holds it.
theorem Inv.free (h : Inv conf chunk s) (t : T) (a : ℤ) (hpc : (s.thr t).pc = .free a) :
    (∃ size, (a, size) ∈ s.heap) ∧ ∀ u, a ∉ (s.thr u).held.filterMap addressIn := by
  have haddr : addresses (s.thr t) = a :: (s.thr t).held.filterMap addressIn := by
    rw [addresses, hpc]
    rfl
  refine ⟨(h.listed a).mpr ⟨t, ?_⟩, h.exclusive.not_mem_rest _
    (fun u x hx => List.mem_append_right _ hx) t a haddr⟩
  dsimp only
  rw [haddr]
  exact List.mem_cons_self

omit [DecidableEq T] in
-- Between the calls a pool's flags and its counter are about the slots that are held.
theorem Inv.idle_pool (h : Inv conf chunk s) (hf : PoolsFit conf) (hidle : ∀ t, (s.thr t).pc = .idle)
    (k : ℕ) (hk : Configured conf k) : ∃ p, s.mgr.m_pBufList k = some p ∧
      (∀ i, p.m_nFlagArray i = true ↔ Owned (fun t => (s.thr t).held.filterMap (slotIn k)) i) ∧
      p.m_nUseCnt = ∑ t, (((s.thr t).held.filterMap (slotIn k)).length : ℤ) := by
  obtain ⟨p, hp, hinv⟩ := h.pools.pool k hk
  have hpoint (t : T) : pointIn k (s.thr t).pc = .idle := by rw [hidle t]; rfl
  have hown : (fun t => BufPoolThreads.owned (poolThread k (s.thr t))) =
      fun t => (s.thr t).held.filterMap (slotIn k) := by
    funext t
    rw [BufPoolThreads.owned, poolThread, hpoint]
    rfl
  have hflagged := hinv.flagged
  rw [hown] at hflagged
  have hlt := hinv.owned_lt
  refine ⟨p, hp, hflagged.flag, ?_⟩
  have hsum : ∑ t, BufPoolThreads.counted (poolThread k (s.thr t)) =
      ((∑ t, ((s.thr t).held.filterMap (slotIn k)).length : ℕ) : ℤ) := by
    rw [Nat.cast_sum]
    refine Finset.sum_congr rfl fun t _ => ?_
    rw [BufPoolThreads.counted, poolThread, hpoint]
    exact zero_add _
  -- the counter does not wrap: there are no more slots than fit in the chunk
  have hle : ∑ t, ((s.thr t).held.filterMap (slotIn k)).length ≤ conf.nMaxList k :=
    hflagged.exclusive.sum_length_le _ fun t i hi => hlt t i (List.mem_append_right _ hi)
  have hfit := hf k hk.1 hk.2.1
  have htwo : 2 ≤ 2^k := Nat.le_self_pow (Nat.one_le_iff_ne_zero.mp hk.1) 2
  have hmul : (conf.nMaxList k-1)*2 ≤ (conf.nMaxList k-1)*2^k := Nat.mul_le_mul_left _ htwo
  have hcount := hinv.count
  dsimp only at hcount
  rw [hcount, hsum, i32_natCast _ ?_, Nat.cast_sum]
  unfold CBufPool.Fits at hfit
  omega

omit [DecidableEq T] in
-- Between the calls the heap has the blocks that are held.
theorem Inv.idle_heap (h : Inv conf chunk s) (hidle : ∀ t, (s.thr t).pc = .idle) (a : ℤ) :
    (∃ size, (a, size) ∈ s.heap) ↔ Owned (fun t => (s.thr t).held.filterMap addressIn) a := by
  rw [h.listed a]
  refine exists_congr fun t => ?_
  dsimp only
  rw [addresses, hidle t]
  rfl

omit [DecidableEq T] in
theorem safe_of_inv (hf : PoolsFit conf) (hchunks : ChunksApart conf chunk) (h : Inv conf chunk s) :
    Safe conf chunk s := by
  refine ⟨fun t b hb => (h.held t b hb).1, h.apart s hchunks, fun t k n pc hpc i hi => ?_,
    h.store s hchunks, h.free s, h.idle_pool s hf, h.idle_heap s⟩
  have hok := h.pc t
  rw [hpc] at hok
  obtain ⟨p, -, hinv⟩ := h.pools.pool k hok.1
  refine hinv.used_lt t i ?_
  dsimp only
  rw [poolThread, hpc, pointIn, if_pos rfl]
  exact hi

end Apart

/-- The buffers of `CMemManager` in the hands of any number of threads. -/
theorem newBuf_delBuf_safe [Fintype T] (hf : PoolsFit conf) (hchunks : ChunksApart conf chunk)
    (acts : List (Act T)) (s : State T)
    (hr : Runs.runFrom (step conf chunk) (start conf chunk) acts = some s) : Safe conf chunk s :=
  safe_of_inv s hf hchunks
    (Runs.runFrom_invariant (step conf chunk) (Inv conf chunk) (fun s a s' => inv_step s hf a s') _ s
      acts inv_start hr)

/-- Class 3 has one slot. -/
def oneSlot : STBufConf := ⟨fun k => if k = 3 then 1 else 0⟩

-- two threads race for the slot; the loser goes to the heap, and both blocks come back
def race : List (Act Bool) :=
  [.callNew false 3 0, .callNew true 3 7, .run false, .run true, .run false, .run true, .run false,
    .run true, .run true, .run false, .run false, .run true, .run true, .run true,
    .calloc false (some 64), .callDel false 0, .free false, .callDel true 0, .run true]

theorem newBuf_delBuf_safe_race : ∃ s, Runs.runFrom (step oneSlot (fun _ => 1000))
    (start oneSlot (fun _ => 1000)) race = some s ∧ Safe oneSlot (fun _ => 1000) s := by
  have hsome : (Runs.runFrom (step oneSlot (fun _ => 1000)) (start oneSlot (fun _ => 1000))
      race).isSome := by decide
  obtain ⟨s, hs⟩ := Option.isSome_iff_exists.mp hsome
  have hone (k : ℕ) (hk : Configured oneSlot k) : k = 3 := by
    by_contra hne
    exact hk.2.2 (if_neg hne)
  refine ⟨s, hs, newBuf_delBuf_safe oneSlot (fun _ => 1000) (fun k _ _ => ?_)
    (fun j k hj hk hjk => ?_) race s hs⟩
  · unfold CBufPool.Fits oneSlot
    dsimp only
    split_ifs <;> simp
  · exact absurd ((hone j hj).trans (hone k hk).symm) hjk

end Leviathan.MemManagerThreads
