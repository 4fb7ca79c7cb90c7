import Leviathan.BufPoolRuns

/-! `CSBufPool` (comBufPool.h, comBufPool.cpp): a pool whose flags are packed eight to a byte, with
the bit helpers of comTypes.h, and whose buffers are given back by key. -/
namespace Leviathan

section Model

/-- The helpers take the low three bits of the number for the mask. -/
def flagMask (n : ℕ) : UInt8 := UInt8.ofNat (n &&& 7)

def isBitSet_flag (n : ℕ) (p : ℕ → UInt8) : Bool := p (n >>> 3) &&& flagMask n ≠ 0

def bitClear_flag (n : ℕ) (p : ℕ → UInt8) : ℕ → UInt8 :=
  Function.update p (n >>> 3) (p (n >>> 3) &&& ~~~flagMask n)

def bitSet_flag (n : ℕ) (p : ℕ → UInt8) : ℕ → UInt8 :=
  Function.update p (n >>> 3) (p (n >>> 3) ||| flagMask n)

structure CSBufPool where
  m_nUseCnt : ℤ
  m_nAllocCount : ℕ
  m_nFlagArray : ℕ → UInt8
  m_nShift : ℕ
  m_pChunk : ℤ

namespace CSBufPool

/-- `alloc`, which reads the size of a buffer from `g_nSizeList`, with a chunk at `pChunk`. -/
def alloc (nShift nMaxCount : ℕ) (pChunk : ℤ) : Except Fault CSBufPool :=
  if nShift < g_nSizeList.length then .ok ⟨0, nMaxCount, fun _ => 0, nShift, pChunk⟩
  else .error .outOfBounds

variable (p : CSBufPool)

def getMem (i : ℕ) : ℤ := p.m_pChunk+CBufPool.offset p.m_nShift i

/-- The loop of `newMem`, with `k` passes left; `i` stays where it is. -/
def scan : ℕ → ℕ → Option ℕ
  | 0, _ => none
  | k+1, i =>
    let i := if i ≥ p.m_nAllocCount then 0 else i
    if !isBitSet_flag i p.m_nFlagArray then some i else scan k i

/-- `newMem(&key)`: the key, `none` where the function goes on to `calloc` and the key is -1. -/
def newMem : CSBufPool × Option ℕ :=
  if p.m_nUseCnt = p.m_nAllocCount then (p, none)
  else
    match p.scan p.m_nAllocCount p.m_nUseCnt.toNat with
    | some i =>
      ({ p with
          m_nUseCnt := i32 (p.m_nUseCnt+1)
          m_nFlagArray := bitSet_flag i p.m_nFlagArray }, some i)
    | none => (p, none)

/-- `delMemByIdx`: the pool, the pointer given to `free`, if any, and the answer. -/
def delMemByIdx (pUsedMem nIdx : ℤ) : CSBufPool × Option ℤ × Bool :=
  if isInclude nIdx p.m_nAllocCount = false then (p, some pUsedMem, false)
  else if pUsedMem = p.getMem nIdx.toNat then
    ({ p with
        m_nUseCnt := i32 (p.m_nUseCnt-1)
        m_nFlagArray := bitClear_flag nIdx.toNat p.m_nFlagArray }, none, true)
  else (p, none, false)

/-- A pool with the keys of the buffers that are out, and the blocks of the heap. -/
structure Client where
  pool : CSBufPool
  keys : List ℕ
  blocks : Multiset ℤ

/-- A `newMem` with the address `calloc` answers if it is called, and a `delMemByIdx` of a buffer of the
pool and of a block of the heap. -/
inductive Call
  | newMem (pBlock : ℤ)
  | delBuf (nKey : ℕ)
  | delBlock (pBlock : ℤ)

namespace Client

variable (k : Client)

/-- Only what is out is given back. -/
def step : Call → Option Client
  | .newMem pBlock =>
    match k.pool.newMem with
    | (p, some i) => some { k with pool := p, keys := i :: k.keys }
    | (p, none) => some { k with pool := p, blocks := pBlock ::ₘ k.blocks }
  | .delBuf nKey =>
    if nKey ∈ k.keys then
      some { k with
        pool := (k.pool.delMemByIdx (k.pool.getMem nKey) nKey).1
        keys := k.keys.erase nKey }
    else none
  | .delBlock pBlock =>
    if pBlock ∈ k.blocks then
      some { k with
        pool := (k.pool.delMemByIdx pBlock (-1)).1
        blocks := k.blocks.erase pBlock }
    else none

end Client

end CSBufPool

end Model

section Flags

/-- Setting or clearing the bit of one of `n` elements leaves the bits of the others as they are. -/
def Independent (n : ℕ) (p : ℕ → UInt8) : Prop :=
  ∀ i < n, ∀ j < n, j ≠ i → isBitSet_flag j (bitSet_flag i p) = isBitSet_flag j p ∧
    isBitSet_flag j (bitClear_flag i p) = isBitSet_flag j p

variable (i j : ℕ) (p : ℕ → UInt8)

theorem or_and_flag (a b c : UInt8) : (a ||| b) &&& c = (a &&& c) ||| (b &&& c) :=
  UInt8.toBitVec_inj.mp BitVec.and_or_distrib_right

theorem byte_zero (hi : i < 8) : i >>> 3 = 0 := by
  rw [Nat.shiftRight_eq_div_pow]
  omega

theorem isBitSet_of_byte (hi : i < 8) : isBitSet_flag i p = decide (p 0 &&& flagMask i ≠ 0) := by
  rw [isBitSet_flag, byte_zero i hi]

theorem bitSet_byte (hi : i < 8) : bitSet_flag i p 0 = p 0 ||| flagMask i := by
  rw [bitSet_flag, byte_zero i hi, Function.update_self]

theorem bitClear_byte (hi : i < 8) : bitClear_flag i p 0 = p 0 &&& ~~~flagMask i := by
  rw [bitClear_flag, byte_zero i hi, Function.update_self]

-- The masks of three elements have no bit in common.
theorem independent_of_le (n : ℕ) (hn : n ≤ 3) : Independent n p := by
  intro i hi j hj hij
  have hi3 : i < 3 := by omega
  have hj3 : j < 3 := by omega
  have hdisjoint : ∀ i < 3, ∀ j < 3, j ≠ i → flagMask i &&& flagMask j = 0 := by
    decide
  have hkeep : ∀ i < 3, ∀ j < 3, j ≠ i → ~~~flagMask i &&& flagMask j = flagMask j := by
    decide
  rw [isBitSet_of_byte j _ (by omega), isBitSet_of_byte j _ (by omega),
    isBitSet_of_byte j _ (by omega), bitSet_byte i p (by omega), bitClear_byte i p (by omega),
    or_and_flag, hdisjoint i hi3 j hj3 hij, UInt8.or_zero, UInt8.and_assoc, hkeep i hi3 j hj3 hij]
  exact ⟨rfl, rfl⟩

-- Setting the bit of element 3 sets the one of element 1, and clearing it clears that one.
theorem independent_iff (n : ℕ) : Independent n p ↔ n ≤ 3 := by
  constructor
  · intro h
    by_contra hn
    obtain ⟨hset, hclear⟩ := h 3 (by omega) 1 (by omega) (by decide)
    have hone : isBitSet_flag 1 (bitSet_flag 3 p) = true := by
      rw [isBitSet_of_byte 1 _ (by decide), bitSet_byte 3 p (by decide), or_and_flag,
        decide_eq_true_eq]
      intro hzero
      exact absurd (UInt8.or_eq_zero_iff.mp hzero).2 (by decide)
    have hzero : isBitSet_flag 1 (bitClear_flag 3 p) = false := by
      have hmask : ~~~flagMask 3 &&& flagMask 1 = 0 := by
        decide
      rw [isBitSet_of_byte 1 _ (by decide), bitClear_byte 3 p (by decide), UInt8.and_assoc, hmask,
        UInt8.and_zero]
      rfl
    rw [hset, ← hclear, hzero] at hone
    cases hone
  · exact independent_of_le p n

end Flags

namespace CSBufPool.Client

/-- What a pool of `n` elements promises for the keys that are out. -/
structure Right (n : ℕ) (k : Client) : Prop where
  distinct : k.keys.Nodup
  inside : ∀ i ∈ k.keys, i < n
  use : k.pool.m_nUseCnt = (Slots.marked n (fun i => isBitSet_flag i k.pool.m_nFlagArray)).card
  independent : Independent n k.pool.m_nFlagArray
  fallback : k.pool.newMem.2 = none → ∀ i < n, i ∈ k.keys

/-- Only the first three elements are ever out, and the first byte tells which of the second and the
third are. -/
structure Inv (n : ℕ) (k : Client) : Prop where
  count : k.pool.m_nAllocCount = n
  use : k.pool.m_nUseCnt = k.keys.length
  nodup : k.keys.Nodup
  low : ∀ i ∈ k.keys, i < 3
  inside : ∀ i ∈ k.keys, i < n
  flags : k.pool.m_nFlagArray 0 =
    (if 1 ∈ k.keys then flagMask 1 else 0) ||| (if 2 ∈ k.keys then flagMask 2 else 0)

section Step

variable (n : ℕ) (k : Client) (h : Inv n k)

include h

theorem length_keys : k.keys.length = (if 0 ∈ k.keys then 1 else 0)+(if 1 ∈ k.keys then 1 else 0)+
    (if 2 ∈ k.keys then 1 else 0) := by
  have hset : k.keys.toFinset = (Finset.range 3).filter (· ∈ k.keys) := by
    ext i
    rw [List.mem_toFinset, Finset.mem_filter, Finset.mem_range]
    exact ⟨fun hi => ⟨h.low i hi, hi⟩, And.right⟩
  rw [← List.toFinset_card_of_nodup h.nodup, hset, Finset.card_filter, Finset.sum_range_succ,
    Finset.sum_range_succ, Finset.sum_range_one]

theorem length_le : k.keys.length ≤ n := by
  have hsub : k.keys.toFinset ⊆ Finset.range n := by
    intro i hi
    exact Finset.mem_range.mpr (h.inside i (List.mem_toFinset.mp hi))
  calc
    k.keys.length = k.keys.toFinset.card := (List.toFinset_card_of_nodup h.nodup).symm
    _ ≤ (Finset.range n).card := Finset.card_le_card hsub
    _ = n := Finset.card_range n

-- The bits that are read for the first four elements.
theorem isBitSet_eq (i : ℕ) (hi : i < 4) : isBitSet_flag i k.pool.m_nFlagArray =
    (decide (1 ∈ k.keys ∧ (i = 1 ∨ i = 3)) || decide (2 ∈ k.keys ∧ (i = 2 ∨ i = 3))) := by
  rw [isBitSet_of_byte i _ (by omega), h.flags]
  by_cases h1 : 1 ∈ k.keys <;> by_cases h2 : 2 ∈ k.keys <;> simp only [h1, h2, if_true, if_false] <;>
    interval_cases i <;> decide

-- The search looks at one element only, the one whose number is the use count.
theorem newMem_eq (hn : 1 ≤ n) : k.pool.newMem =
    if k.keys.length = n ∨ isBitSet_flag k.keys.length k.pool.m_nFlagArray = true then (k.pool, none)
    else
      ({ k.pool with
          m_nUseCnt := i32 (k.pool.m_nUseCnt+1)
          m_nFlagArray := bitSet_flag k.keys.length k.pool.m_nFlagArray }, some k.keys.length) := by
  have hle := length_le n k h
  have hscan (passes i : ℕ) (hi : i < n) : k.pool.scan passes i =
      if passes = 0 ∨ isBitSet_flag i k.pool.m_nFlagArray = true then none else some i := by
    induction passes with
    | zero => rfl
    | succ passes ih =>
      have hnot : ¬i ≥ k.pool.m_nAllocCount := by
        rw [h.count]
        omega
      rw [scan, if_neg hnot, ih]
      cases isBitSet_flag i k.pool.m_nFlagArray <;> simp
  by_cases hfull : k.keys.length = n
  · rw [newMem, h.use, h.count, hfull, if_pos rfl, if_pos (Or.inl rfl)]
  · have hne : ¬k.pool.m_nUseCnt = k.pool.m_nAllocCount := by
      rw [h.use, h.count]
      exact_mod_cast hfull
    rw [newMem, if_neg hne, h.use, h.count, Int.toNat_natCast, hscan n _ (by omega)]
    by_cases hbit : isBitSet_flag k.keys.length k.pool.m_nFlagArray = true
    · rw [if_pos (Or.inr hbit), if_pos (Or.inr hbit)]
    · have hnone : ¬(n = 0 ∨ isBitSet_flag k.keys.length k.pool.m_nFlagArray = true) := by
        rw [not_or]
        exact ⟨by omega, hbit⟩
      have hboth : ¬(k.keys.length = n ∨ isBitSet_flag k.keys.length k.pool.m_nFlagArray = true) := by
        rw [not_or]
        exact ⟨hfull, hbit⟩
      rw [if_neg hnone, if_neg hboth, ← h.use, ← h.count]

-- An element that is handed out is none of those that are out, and one of the first three.
theorem fresh_key (hbit : isBitSet_flag k.keys.length k.pool.m_nFlagArray = false) :
    k.keys.length < 3 ∧ k.keys.length ∉ k.keys := by
  have hlen := length_keys n k h
  have hlt : k.keys.length < 4 := by
    split_ifs at hlen <;> omega
  rw [isBitSet_eq n k h _ hlt] at hbit
  generalize k.keys.length = l at *
  interval_cases l
  · refine ⟨by decide, fun h0 => ?_⟩
    rw [if_pos h0] at hlen
    omega
  · refine ⟨by decide, fun h1 => ?_⟩
    simp [h1] at hbit
  · refine ⟨by decide, fun h2 => ?_⟩
    simp [h2] at hbit
  · split_ifs at hlen with h0 h1 h2 <;> simp_all

theorem inv_take (hn : 1 ≤ n) (p : CSBufPool) (i : ℕ) (hnew : k.pool.newMem = (p, some i)) :
    Inv n { k with pool := p, keys := i :: k.keys } := by
  rw [newMem_eq n k h hn] at hnew
  split_ifs at hnew with hfull
  · cases (Prod.mk.inj hnew).2
  · obtain ⟨rfl, hi⟩ := Prod.mk.inj hnew
    obtain rfl := Option.some.inj hi
    obtain ⟨hne, hbit⟩ := not_or.mp hfull
    obtain ⟨hlt, hfresh⟩ := fresh_key n k h (Bool.eq_false_iff.mpr hbit)
    have hle := length_le n k h
    refine ⟨h.count, ?_, List.nodup_cons.mpr ⟨hfresh, h.nodup⟩, ?_, ?_, ?_⟩
    · calc
        i32 (k.pool.m_nUseCnt+1) = i32 (k.keys.length+1) := by rw [h.use]
        _ = k.keys.length+1 := i32_of_range _ (by omega) (by omega)
        _ = ((k.keys.length :: k.keys).length : ℕ) := by rw [List.length_cons, Nat.cast_succ]
    · intro j hj
      rcases List.mem_cons.mp hj with rfl | hj
      · exact hlt
      · exact h.low j hj
    · intro j hj
      rcases List.mem_cons.mp hj with rfl | hj
      · omega
      · exact h.inside j hj
    · have hbyte := bitSet_byte k.keys.length k.pool.m_nFlagArray (by omega)
      rw [h.flags] at hbyte
      apply hbyte.trans
      simp only [List.mem_cons]
      generalize k.keys.length = l at hlt hfresh
      interval_cases l <;> by_cases h1 : 1 ∈ k.keys <;> by_cases h2 : 2 ∈ k.keys <;>
        simp only [h1, h2] <;> decide

theorem inv_delBuf (i : ℕ) (hi : i ∈ k.keys) :
    Inv n { k with
      pool := (k.pool.delMemByIdx (k.pool.getMem i) i).1
      keys := k.keys.erase i } := by
  have hlow := h.low i hi
  have hpool : (k.pool.delMemByIdx (k.pool.getMem i) i).1 =
      { k.pool with
        m_nUseCnt := i32 (k.pool.m_nUseCnt-1)
        m_nFlagArray := bitClear_flag i k.pool.m_nFlagArray } := by
    have hin : ¬isInclude i k.pool.m_nAllocCount = false := by
      rw [h.count]
      simp [isInclude, h.inside i hi]
    rw [delMemByIdx, if_neg hin, Int.toNat_natCast, if_pos rfl]
  have hpos : 1 ≤ k.keys.length := List.length_pos_of_mem hi
  have hle := length_keys n k h
  rw [hpool]
  refine ⟨h.count, ?_, h.nodup.erase i, ?_, ?_, ?_⟩
  · calc
      i32 (k.pool.m_nUseCnt-1) = i32 (k.keys.length-1) := by rw [h.use]
      _ = k.keys.length-1 := i32_of_range _ (by omega) (by split_ifs at hle <;> omega)
      _ = ((k.keys.erase i).length : ℕ) := by rw [List.length_erase_of_mem hi, Nat.cast_pred hpos]
  · intro j hj
    exact h.low j (List.mem_of_mem_erase hj)
  · intro j hj
    exact h.inside j (List.mem_of_mem_erase hj)
  · have hbyte := bitClear_byte i k.pool.m_nFlagArray (by omega)
    rw [h.flags] at hbyte
    apply hbyte.trans
    simp only [h.nodup.mem_erase_iff]
    interval_cases i <;> by_cases h1 : 1 ∈ k.keys <;> by_cases h2 : 2 ∈ k.keys <;>
      simp only [h1, h2] <;> decide

theorem inv_step (hn : 1 ≤ n) (a : Call) (k' : Client) (hstep : k.step a = some k') : Inv n k' := by
  cases a with
  | newMem pBlock =>
    rw [step] at hstep
    cases hnew : k.pool.newMem with
    | mk p r =>
      rw [hnew] at hstep
      cases r with
      | some i =>
        obtain rfl := Option.some.inj hstep
        exact inv_take n k h hn p i hnew
      | none =>
        obtain rfl := Option.some.inj hstep
        have hpool : p = k.pool := by
          rw [newMem_eq n k h hn] at hnew
          split_ifs at hnew
          · exact (Prod.mk.inj hnew).1.symm
          · cases (Prod.mk.inj hnew).2
        subst hpool
        exact ⟨h.count, h.use, h.nodup, h.low, h.inside, h.flags⟩
  | delBuf i =>
    rw [step] at hstep
    split_ifs at hstep with hi
    obtain rfl := Option.some.inj hstep
    exact inv_delBuf n k h i hi
  | delBlock pBlock =>
    rw [step] at hstep
    split_ifs at hstep
    obtain rfl := Option.some.inj hstep
    have hpool : (k.pool.delMemByIdx pBlock (-1)).1 = k.pool := by
      have hout : isInclude (-1) k.pool.m_nAllocCount = false := rfl
      rw [delMemByIdx, if_pos hout]
    rw [hpool]
    exact ⟨h.count, h.use, h.nodup, h.low, h.inside, h.flags⟩

-- An element of the first three is marked when it is out, but for the first one.
theorem isBitSet_iff (i : ℕ) (hi : i < 3) :
    isBitSet_flag i k.pool.m_nFlagArray = true ↔ i ≠ 0 ∧ i ∈ k.keys := by
  rw [isBitSet_eq n k h i (by omega)]
  interval_cases i <;> simp

theorem card_marked (hn : n ≤ 3) :
    (Slots.marked n (fun i => isBitSet_flag i k.pool.m_nFlagArray)).card =
      (k.keys.toFinset.erase 0).card := by
  apply congrArg Finset.card
  ext i
  rw [Slots.mem_marked, Finset.mem_erase, List.mem_toFinset]
  constructor
  · intro hi
    exact (isBitSet_iff n k h i (by omega)).mp hi.2
  · intro hi
    exact ⟨h.inside i hi.2, (isBitSet_iff n k h i (h.low i hi.2)).mpr hi⟩

theorem use_iff (hn : n ≤ 3) : k.pool.m_nUseCnt =
    (Slots.marked n (fun i => isBitSet_flag i k.pool.m_nFlagArray)).card ↔ 0 ∉ k.keys := by
  rw [h.use, card_marked n k h hn, Nat.cast_inj, ← List.toFinset_card_of_nodup h.nodup]
  constructor
  · intro heq hmem
    have hlt := Finset.card_erase_lt_of_mem (List.mem_toFinset.mpr hmem)
    omega
  · intro hmem
    have hnot : 0 ∉ k.keys.toFinset := by
      rwa [List.mem_toFinset]
    rw [Finset.erase_eq_of_notMem hnot]

theorem length_lt (hn : 1 ≤ n) (hzero : 0 ∉ k.keys) : k.keys.length < n := by
  have hsub : k.keys.toFinset ⊆ (Finset.range n).erase 0 := by
    intro i hi
    have hmem := List.mem_toFinset.mp hi
    exact Finset.mem_erase.mpr ⟨fun h0 => hzero (h0 ▸ hmem), Finset.mem_range.mpr (h.inside i hmem)⟩
  calc
    k.keys.length = k.keys.toFinset.card := (List.toFinset_card_of_nodup h.nodup).symm
    _ ≤ ((Finset.range n).erase 0).card := Finset.card_le_card hsub
    _ < (Finset.range n).card := Finset.card_erase_lt_of_mem (Finset.mem_range.mpr hn)
    _ = n := Finset.card_range n

theorem fallback_iff (hn : 1 ≤ n) (hsmall : n ≤ 3) (hzero : 0 ∉ k.keys) :
    (k.pool.newMem.2 = none → ∀ i < n, i ∈ k.keys) ↔ k.keys.length ∉ k.keys := by
  have hlt := length_lt n k h hn hzero
  have hbit := isBitSet_iff n k h k.keys.length (by omega)
  rw [newMem_eq n k h hn]
  constructor
  · intro hall hmem
    have hset := hbit.mpr ⟨fun h0 => hzero (h0 ▸ hmem), hmem⟩
    rw [if_pos (Or.inr hset)] at hall
    exact hzero (hall rfl 0 hn)
  · intro hmem hnone
    have hfree : ¬(k.keys.length = n ∨ isBitSet_flag k.keys.length k.pool.m_nFlagArray = true) := by
      rw [hbit, not_or]
      exact ⟨by omega, fun hset => hmem hset.2⟩
    rw [if_neg hfree] at hnone
    cases hnone

theorem right_iff (hn : 1 ≤ n) :
    Right n k ↔ n ≤ 3 ∧ 0 ∉ k.keys ∧ k.keys.length ∉ k.keys := by
  constructor
  · intro hright
    have hsmall := (independent_iff k.pool.m_nFlagArray n).mp hright.independent
    have hzero := (use_iff n k h hsmall).mp hright.use
    exact ⟨hsmall, hzero, (fallback_iff n k h hn hsmall hzero).mp hright.fallback⟩
  · intro hcond
    obtain ⟨hsmall, hzero, hnext⟩ := hcond
    exact {
      distinct := h.nodup
      inside := h.inside
      use := (use_iff n k h hsmall).mpr hzero
      independent := (independent_iff k.pool.m_nFlagArray n).mpr hsmall
      fallback := (fallback_iff n k h hn hsmall hzero).mpr hnext }

end Step

theorem inv_alloc (s n : ℕ) (pChunk : ℤ) (p : CSBufPool) (halloc : alloc s n pChunk = .ok p) :
    Inv n ⟨p, [], 0⟩ := by
  rw [alloc] at halloc
  split_ifs at halloc
  obtain rfl := Except.ok.inj halloc
  exact {
    count := rfl
    use := rfl
    nodup := List.nodup_nil
    low := fun i hi => absurd hi List.not_mem_nil
    inside := fun i hi => absurd hi List.not_mem_nil
    flags := by
      rw [if_neg List.not_mem_nil, if_neg List.not_mem_nil]
      rfl }

/-- The keys are exclusive in every run.  The count, the bits and the search are as they should be
at the states where a pool of three elements at the most has neither its first element out nor the one
the count points at. -/
theorem keys_exclusive_iff (s n : ℕ) (hn : 1 ≤ n) (pChunk : ℤ) (p : CSBufPool)
    (halloc : alloc s n pChunk = .ok p) (calls : List Call) (k : Client)
    (hrun : Runs.runFrom step ⟨p, [], 0⟩ calls = some k) :
    (k.keys.Nodup ∧ ∀ i ∈ k.keys, i < n) ∧
      (Right n k ↔ n ≤ 3 ∧ 0 ∉ k.keys ∧ k.keys.length ∉ k.keys) := by
  have hinv := Runs.runFrom_invariant step (Inv n)
    (fun k a k' h hstep => inv_step n k h hn a k' hstep) ⟨p, [], 0⟩ k calls
    (inv_alloc s n pChunk p halloc) hrun
  exact ⟨⟨hinv.nodup, hinv.inside⟩, right_iff n k hinv hn⟩

-- Of a full pool of three the elements 0 and 1 are given back.
theorem keys_exclusive_iff_three : ∃ k,
    (k.keys = [2] ∧ k.keys.Nodup ∧ ∀ i ∈ k.keys, i < 3) ∧
      (Right 3 k ↔ 3 ≤ 3 ∧ 0 ∉ k.keys ∧ k.keys.length ∉ k.keys) :=
  have h := keys_exclusive_iff 0 3 (by decide) 4096 _ rfl
    [.newMem 0, .newMem 0, .newMem 0, .delBuf 0, .delBuf 1] _ rfl
  ⟨_, ⟨rfl, h.1⟩, h.2⟩

-- The fourth `newMem` goes to the heap, although element 3 is not out.
theorem not_right_four : ¬∀ (p : CSBufPool) (k : Client), alloc 0 4 4096 = .ok p →
    Runs.runFrom step ⟨p, [], 0⟩ [.newMem 0, .newMem 0, .newMem 0] = some k → Right 4 k := by
  intro hall
  have hright := hall _ _ rfl rfl
  have hheap := hright.fallback (by decide) 3 (by decide)
  exact absurd hheap (by decide)

end CSBufPool.Client

end Leviathan
