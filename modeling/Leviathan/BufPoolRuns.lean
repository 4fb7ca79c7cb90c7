import Leviathan.BufPool
import Leviathan.Runs
import Leviathan.Slots

/-! `CBufPool` (comBufPool.h, comBufPool.cpp) in the hands of one thread: the buffers that are out at
any time, whatever was taken and given back before. -/
namespace Leviathan.CBufPool

/-- A pool, and the pointers that are out: buffers of the chunk and blocks of the heap. -/
structure Client where
  pool : CBufPool
  bufs : Finset ℤ
  blocks : Finset ℤ

inductive Call
  | newMem (pBlock : Option ℤ)
  | delMem (pUsedMem : ℤ)

namespace Client

/-- One call.  `pBlock` is what `calloc` answers, where `newMem` gets to it. -/
def step (k : Client) : Call → Option Client
  | .newMem pBlock =>
    match k.pool.newMem with
    | (p, some i) => some { k with pool := p, bufs := insert (k.pool.getMem i) k.bufs }
    | (p, none) => some { k with pool := p, blocks := k.blocks ∪ pBlock.toFinset }
  | .delMem pUsedMem =>
    some
      { pool := (k.pool.delMem pUsedMem).1
        bufs := k.bufs.erase pUsedMem
        blocks := k.blocks.erase pUsedMem }

/-- Only pointers that are out are given back, and a block of the heap is not in the chunk, which is
at `c` and has `n` buffers of `2^s` bytes. -/
def Allowed (s n : ℕ) (c : ℤ) (k : Client) : Call → Prop
  | .newMem pBlock => ∀ a ∈ pBlock, a+getSizeByIndex s ≤ c ∨ c+n*getSizeByIndex s ≤ a
  | .delMem pUsedMem => pUsedMem ∈ k.bufs ∨ pUsedMem ∈ k.blocks

instance (s n : ℕ) (c : ℤ) (k : Client) : (e : Call) → Decidable (Allowed s n c k e)
  | .newMem pBlock => inferInstanceAs (Decidable
      (∀ a ∈ pBlock, a+getSizeByIndex s ≤ c ∨ c+n*getSizeByIndex s ≤ a))
  | .delMem pUsedMem => inferInstanceAs (Decidable (pUsedMem ∈ k.bufs ∨ pUsedMem ∈ k.blocks))

/-- The buffers that are out are those of the set flags, and the use count is their number. -/
structure Sound (s n : ℕ) (c : ℤ) (k : Client) : Prop where
  layout : Layout k.pool s n c
  use : k.pool.m_nUseCnt = (Slots.marked n k.pool.m_nFlagArray).card
  bufs : k.bufs = (Slots.marked n k.pool.m_nFlagArray).image (fun i : ℕ => c+i*2^s)
  blocks : ∀ a ∈ k.blocks, a+2^s ≤ c ∨ c+n*2^s ≤ a

section Step

variable (s n : ℕ) (c : ℤ) (k : Client)

theorem addr_injective : Function.Injective (fun i : ℕ => c+i*2^s) := by
  intro i j hij
  have hpow : (0:ℤ) < 2^s := by positivity
  have hmul : (i:ℤ)*2^s = j*2^s := add_left_cancel hij
  exact Int.ofNat.inj (mul_right_cancel₀ hpow.ne' hmul)

-- A slot ends where a later one begins, or before it.
theorem slot_below (i j : ℕ) (hij : i < j) : c+i*2^s+2^s ≤ c+j*2^s := by
  have hpow : (0:ℤ) < 2^s := by positivity
  have hij' : (i:ℤ)+1 ≤ j := by exact_mod_cast hij
  calc c+i*2^s+2^s = c+(i+1)*2^s := by ring
    _ ≤ c+j*2^s := add_le_add_right (mul_le_mul_of_nonneg_right hij' hpow.le) c

theorem slot_inside (i : ℕ) (hi : i < n) : c ≤ c+i*2^s ∧ c+i*2^s+2^s ≤ c+n*2^s :=
  ⟨le_add_of_nonneg_right (by positivity), slot_below s c i n hi⟩

section Out

variable (h : Sound s n c k)

include h

theorem newMem_full (hfull : k.pool.newMem.2 = none) : ∀ i < n, k.pool.m_nFlagArray i = true := by
  have hlast := h.layout.last
  rw [newMem, h.layout.count] at hfull
  split_ifs at hfull with huse
  · apply (Slots.card_marked_eq_iff n k.pool.m_nFlagArray).mp
    have hcard := h.use
    omega
  · split at hfull
    · cases hfull
    · rename_i hscan
      intro i hi
      have htaken := scanFrom_full_turn n _ _ hlast.le hscan i hi
      simpa using htaken

-- A buffer that is out is the one of a set flag.
theorem mem_bufs (a : ℤ) (ha : a ∈ k.bufs) :
    ∃ i < n, k.pool.m_nFlagArray i = true ∧ a = c+i*2^s := by
  rw [h.bufs, Finset.mem_image] at ha
  obtain ⟨i, hi, rfl⟩ := ha
  obtain ⟨hlt, hset⟩ := (Slots.mem_marked n _ i).mp hi
  exact ⟨i, hlt, hset, rfl⟩

-- A slot whose flag is not set is at no address that is out.
theorem slot_not_out (i : ℕ) (hi : i < n) (hfree : k.pool.m_nFlagArray i = false) :
    c+(i:ℤ)*2^s ∉ k.bufs ∧ c+(i:ℤ)*2^s ∉ k.blocks := by
  constructor
  · intro hbuf
    obtain ⟨j, -, hset, hsame⟩ := mem_bufs s n c k h _ hbuf
    obtain rfl := addr_injective s c hsame
    rw [hfree] at hset
    cases hset
  · intro hblock
    have hpow : (0:ℤ) < 2^s := by positivity
    obtain ⟨hlow, hhigh⟩ := slot_inside s n c i hi
    rcases h.blocks _ hblock with hout | hout <;> linarith

theorem card_bufs : k.pool.m_nUseCnt = k.bufs.card := by
  rw [h.use, h.bufs, Finset.card_image_of_injective _ (addr_injective s c)]

theorem buf_inside (a : ℤ) (ha : a ∈ k.bufs) : c ≤ a ∧ a+2^s ≤ c+n*2^s := by
  obtain ⟨i, hi, -, rfl⟩ := mem_bufs s n c k h a ha
  exact slot_inside s n c i hi

theorem buf_not_block (a : ℤ) (ha : a ∈ k.bufs) : a ∉ k.blocks := by
  intro hblock
  have hpow : (0:ℤ) < 2^s := by positivity
  have hin := buf_inside s n c k h a ha
  have hout := h.blocks a hblock
  rcases hout with hout | hout <;> linarith [hin.1, hin.2]

theorem bufs_disjoint (a b : ℤ) (ha : a ∈ k.bufs) (hb : b ∈ k.bufs) (hab : a ≠ b) :
    a+2^s ≤ b ∨ b+2^s ≤ a := by
  obtain ⟨i, -, -, rfl⟩ := mem_bufs s n c k h a ha
  obtain ⟨j, -, -, rfl⟩ := mem_bufs s n c k h b hb
  rcases lt_trichotomy i j with hij | hij | hij
  · exact Or.inl (slot_below s c i j hij)
  · exact absurd (congrArg (fun i : ℕ => c+i*2^s) hij) hab
  · exact Or.inr (slot_below s c j i hij)

end Out

variable (hf : n*2^s < 2^31)

include hf

theorem fits_of_bytes : Fits s n := by
  have hle : (n-1)*2^s ≤ n*2^s := Nat.mul_le_mul_right _ (Nat.sub_le n 1)
  exact hle.trans_lt hf

theorem count_lt : n < 2^31 := by
  calc n ≤ n*2^s := Nat.le_mul_of_pos_right n (Nat.two_pow_pos s)
    _ < 2^31 := hf

variable (h : Sound s n c k)

include h

theorem getMem_eq (i : ℕ) (hi : i < n) : k.pool.getMem i = c+i*2^s := by
  rw [getMem, h.layout.chunk, h.layout.shift, offset_eq s n i (fits_of_bytes s n hf) hi]

theorem delMem_buf (a : ℤ) (ha : a ∈ k.bufs) : ∃ i < n, k.pool.m_nFlagArray i = true ∧ a = c+i*2^s ∧
    k.pool.delMem a = (k.pool.release i, none) := by
  obtain ⟨i, hi, hset, rfl⟩ := mem_bufs s n c k h a ha
  exact ⟨i, hi, hset, rfl, delMem_slot k.pool s n c i h.layout (fits_of_bytes s n hf) hi⟩

theorem delMem_block (a : ℤ) (ha : a ∈ k.blocks) : k.pool.delMem a = (k.pool, some a) := by
  have hpow : (0:ℤ) < 2^s := by positivity
  apply delMem_heap k.pool s n c a h.layout (fits_of_bytes s n hf)
  rcases h.blocks a ha with hout | hout
  · left
    linarith
  · exact Or.inr hout

theorem sound_take (i : ℕ) (hi : i < n) (hfree : k.pool.m_nFlagArray i = false) :
    Sound s n c { k with pool := k.pool.take i, bufs := insert (k.pool.getMem i) k.bufs } := by
  refine ⟨⟨h.layout.shift, h.layout.count, h.layout.chunk, h.layout.endAddr, hi⟩, ?_, ?_, h.blocks⟩
  · exact Slots.count_set n _ i hi i32 (i32_upTo n (count_lt s n hf)) _ h.use hfree
  · show insert (k.pool.getMem i) k.bufs =
      (Slots.marked n (Function.update k.pool.m_nFlagArray i true)).image (fun i : ℕ => c+i*2^s)
    rw [Slots.marked_set n k.pool.m_nFlagArray i hi, Finset.image_insert, getMem_eq s n c k hf h i hi,
      h.bufs]

theorem sound_release (i : ℕ) (hi : i < n) (hset : k.pool.m_nFlagArray i = true) :
    Sound s n c
      { pool := k.pool.release i
        bufs := k.bufs.erase (c+i*2^s)
        blocks := k.blocks.erase (c+i*2^s) } := by
  refine ⟨layout_release k.pool s n c i h.layout hi, ?_, ?_, ?_⟩
  · exact Slots.count_clear n _ i hi i32 (i32_upTo n (count_lt s n hf)) _ h.use hset
  · show k.bufs.erase (c+i*2^s) =
      (Slots.marked n (Function.update k.pool.m_nFlagArray i false)).image (fun i : ℕ => c+i*2^s)
    rw [Slots.marked_clear, Finset.image_erase (addr_injective s c), h.bufs]
  · intro a ha
    exact h.blocks a (Finset.mem_of_mem_erase ha)

-- The step lemma.
theorem sound_step (hs : s < g_nSizeList.length) (e : Call) (t : Client) (hallowed : Allowed s n c k e)
    (ht : k.step e = some t) : Sound s n c t := by
  cases e with
  | newMem pBlock =>
    rw [step] at ht
    cases hnew : k.pool.newMem with
    | mk p r =>
      rw [hnew] at ht
      cases r with
      | some i =>
        obtain rfl := Option.some.inj ht
        obtain ⟨hi, hfree, hpool⟩ := newMem_slot k.pool s n c i h.layout (by rw [hnew])
        rw [hnew] at hpool
        subst hpool
        exact sound_take s n c k hf h i hi hfree
      | none =>
        obtain rfl := Option.some.inj ht
        have hpool := newMem_none k.pool (by rw [hnew])
        rw [hnew] at hpool
        subst hpool
        refine ⟨h.layout, h.use, h.bufs, fun a ha => ?_⟩
        rcases Finset.mem_union.mp ha with ha | ha
        · exact h.blocks a ha
        · have hout := hallowed a (Option.mem_toFinset.mp ha)
          rw [getSizeByIndex_eq s hs] at hout
          exact_mod_cast hout
  | delMem a =>
    obtain rfl := Option.some.inj ht
    rcases hallowed with ha | ha
    · obtain ⟨i, hi, hset, rfl, hdel⟩ := delMem_buf s n c k hf h a ha
      rw [hdel]
      exact sound_release s n c k hf h i hi hset
    · have hbuf : a ∉ k.bufs := fun hbuf => buf_not_block s n c k h a hbuf ha
      rw [delMem_block s n c k hf h a ha, Finset.erase_eq_of_notMem hbuf]
      exact ⟨h.layout, h.use, h.bufs, fun b hb => h.blocks b (Finset.mem_of_mem_erase hb)⟩

end Step

/-- What a pool of `n` buffers of `2^s` bytes at `c` promises for the pointers that are out; the one that
the next call answers is not among them. -/
structure Right (s n : ℕ) (c : ℤ) (k : Client) : Prop where
  use : k.pool.m_nUseCnt = (Slots.marked n k.pool.m_nFlagArray).card
  card : k.pool.m_nUseCnt = k.bufs.card
  fresh : ∀ i, k.pool.newMem.2 = some i → i < n ∧ k.pool.m_nFlagArray i = false ∧
    k.pool.newMem.1.m_nFlagArray = Function.update k.pool.m_nFlagArray i true ∧
    k.pool.getMem i = c+i*2^s ∧ k.pool.getMem i ∉ k.bufs ∧ k.pool.getMem i ∉ k.blocks
  inside : ∀ a ∈ k.bufs, c ≤ a ∧ a+2^s ≤ c+n*2^s
  disjoint : ∀ a ∈ k.bufs, ∀ b ∈ k.bufs, a ≠ b → a+2^s ≤ b ∨ b+2^s ≤ a
  fallback : k.pool.newMem.2 = none → ∀ i < n, k.pool.m_nFlagArray i = true
  delBuf : ∀ a ∈ k.bufs, ∃ i < n, a = c+i*2^s ∧ k.pool.m_nFlagArray i = true ∧
    (k.pool.delMem a).1.m_nFlagArray = Function.update k.pool.m_nFlagArray i false ∧
    (k.pool.delMem a).2 = none
  delBlock : ∀ a ∈ k.blocks, (k.pool.delMem a).1.m_nFlagArray = k.pool.m_nFlagArray ∧
    (k.pool.delMem a).2 = some a

theorem right_of_sound (s n : ℕ) (c : ℤ) (k : Client) (hf : n*2^s < 2^31) (h : Sound s n c k) :
    Right s n c k := by
  refine ⟨h.use, card_bufs s n c k h, ?_, buf_inside s n c k h, ?_, newMem_full s n c k h, ?_, ?_⟩
  · intro i hnew
    obtain ⟨hi, hfree, hpool⟩ := newMem_slot k.pool s n c i h.layout hnew
    obtain ⟨hbuf, hblock⟩ := slot_not_out s n c k h i hi hfree
    rw [hpool, getMem_eq s n c k hf h i hi]
    exact ⟨hi, hfree, rfl, rfl, hbuf, hblock⟩
  · intro a ha b hb hab
    exact bufs_disjoint s n c k h a b ha hb hab
  · intro a ha
    obtain ⟨i, hi, hset, hai, hdel⟩ := delMem_buf s n c k hf h a ha
    rw [hdel]
    exact ⟨i, hi, hai, hset, rfl, rfl⟩
  · intro a ha
    rw [delMem_block s n c k hf h a ha]
    exact ⟨rfl, rfl⟩

theorem sound_alloc (s n : ℕ) (c : ℤ) (hn : 1 ≤ n) :
    Sound s n c { pool := alloc s n c, bufs := ∅, blocks := ∅ } := by
  have hempty : Slots.marked n (alloc s n c).m_nFlagArray = ∅ := Slots.marked_none n _ (fun _ _ => rfl)
  refine ⟨layout_alloc s n c (by omega), ?_, ?_, fun a ha => absurd ha (Finset.notMem_empty a)⟩
  · rw [hempty]
    rfl
  · rw [hempty]
    rfl

end Client

open Client

end Leviathan.CBufPool
