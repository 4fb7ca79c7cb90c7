import Leviathan.CTypes
import Mathlib.Tactic.Linarith

/-! Reading a file into blocks: `CFileUtil::getFileSize2`, `readLoop` and `nextReadLoop`
(comFileUtil.cpp).  A file that cannot be opened is `none`.  `ftell` answers a `long` of 64 bits, which is
cut to an `int`; on Windows, where it has 32 bits, this is so for files below 2 GiB. -/
namespace Leviathan.ChunkedRead

section Model

/-- The size from `nPos` on, and the number of blocks that is stored through `pLoopLen`. -/
def getFileSize2 (file : Option (List UInt8)) (nMaxBuf nPos : ℤ) : Option (ℤ × ℤ) :=
  file.map fun content =>
    let nTotSize := i32 (i32 content.length-nPos)
    let nLoopLen := nTotSize.tdiv nMaxBuf
    (nTotSize, if nLoopLen*nMaxBuf < nTotSize then nLoopLen+1 else nLoopLen)

/-- `fread` of as many characters as `nCount` is as a `size_t`. -/
def fread (nCount : ℤ) (pFile : List UInt8) : List UInt8 := pFile.take (nCount%2^64).toNat

/-- The loop of `readLoop` and `nextReadLoop` with `k` blocks left: the texts of the blocks, and the
sum of their lengths. A block has `nMaxBuf` characters. -/
def readBlocks (nMaxBuf ntotSize : ℤ) : ℕ → ℤ → List UInt8 → Except Fault (List (List UInt8) × ℤ)
  | 0, nTot, _ => .ok ([], nTot)
  | k+1, nTot, pFile =>
    -- the last block takes the rest
    let block := fread (if k = 0 then i32 (ntotSize-nTot) else i32 (nMaxBuf-1)) pFile
    -- the text and the NUL behind it
    if (block.length : ℤ)+1 ≤ nMaxBuf then do
      let (blocks, nTot) ← readBlocks nMaxBuf ntotSize k (i32 (nTot+block.length))
          (pFile.drop block.length)
      return (block :: blocks, nTot)
    else .error .outOfBounds

def readLoop (file : Option (List UInt8)) (nLoopCnt nMaxBuf ntotSize : ℤ) :
    Except Fault (List (List UInt8) × ℤ) :=
  match file with
  | none => .ok ([], 0)
  | some content => readBlocks nMaxBuf ntotSize nLoopCnt.toNat 0 content

/-- `nextReadLoop`, whose `fseek` does nothing when `nPos` is negative. -/
def nextReadLoop (file : Option (List UInt8)) (nLoopCnt nMaxBuf nPos ntotSize : ℤ) :
    Except Fault (List (List UInt8) × ℤ) :=
  match file with
  | none => .ok ([], 0)
  | some content => readBlocks nMaxBuf ntotSize nLoopCnt.toNat 0 (content.drop nPos.toNat)

end Model

/-- The blocks have room for their texts, which are the content together. -/
def Reads (r : Except Fault (List (List UInt8) × ℤ)) (nMaxBuf : ℤ) (content : List UInt8) : Prop :=
  ∃ blocks nTot, r = .ok (blocks, nTot) ∧ (∀ block ∈ blocks, (block.length : ℤ) ≤ nMaxBuf-1) ∧
    blocks.flatten = content

/-- `readLoop` with what `getFileSize2` counts. -/
def ReadsFile (content : List UInt8) (nMaxBuf : ℤ) : Prop :=
  ∃ ntotSize nLoopCnt, getFileSize2 (some content) nMaxBuf 0 = some (ntotSize, nLoopCnt) ∧
    Reads (readLoop (some content) nLoopCnt nMaxBuf ntotSize) nMaxBuf content

/-- `nextReadLoop` with what `getFileSize2` counts. -/
def ReadsFileFrom (content : List UInt8) (nMaxBuf nPos : ℤ) : Prop :=
  ∃ ntotSize nLoopCnt, getFileSize2 (some content) nMaxBuf nPos = some (ntotSize, nLoopCnt) ∧
    Reads (nextReadLoop (some content) nLoopCnt nMaxBuf nPos ntotSize) nMaxBuf (content.drop nPos.toNat)

/-- The length is an `int`, and the blocks that hold one character less than `nMaxBuf` have room
for it. -/
def Fits (t : ℕ) (nMaxBuf : ℤ) : Prop :=
  t = 0 ∨ (t < 2^31 ∧ (t : ℤ)%nMaxBuf ≠ 0 ∧ (t : ℤ)/nMaxBuf+(t : ℤ)%nMaxBuf < nMaxBuf)

section Blocks

variable (b n : ℕ) (hb' : b+1 < 2^31) (hn : n < 2^31)

theorem fread_natCast (m : ℕ) (hm : m < 2^31) (text : List UInt8) :
    fread (i32 m) text = text.take m := by
  have hmod : (m : ℤ)%2^64 = m := Int.emod_eq_of_lt (by omega) (by omega)
  rw [fread, i32_natCast m hm, hmod, Int.toNat_natCast]

include hn

-- The last block, with `m` characters still to read from a text that has them.
theorem readBlocks_last (m : ℕ) (text : List UInt8) (hm : m ≤ n) (htext : m ≤ text.length) :
    readBlocks (b+1 : ℕ) n 1 (n-m : ℕ) text =
      if m ≤ b then .ok ([text.take m], (n : ℤ)) else .error .outOfBounds := by
  have hcount : (n : ℤ)-(n-m : ℕ) = m := by
    omega
  have hlen : (text.take m).length = m := List.length_take_of_le htext
  rw [readBlocks, if_pos rfl, hcount, fread_natCast m (by omega)]
  dsimp only
  rw [hlen]
  by_cases hmb : m ≤ b
  · have hsum : i32 ((n-m : ℕ)+m) = n := by
      rw [← Nat.cast_add, Nat.sub_add_cancel hm]
      exact i32_natCast n hn
    rw [if_pos (by omega), if_pos hmb, hsum]
    rfl
  · rw [if_neg (by omega), if_neg hmb]

include hb'

-- A block before the last one.
theorem readBlocks_full (k m : ℕ) (text : List UInt8) (hm : m ≤ n) (hbm : b ≤ m)
    (htext : m ≤ text.length) :
    readBlocks (b+1 : ℕ) n (k+2) (n-m : ℕ) text =
      readBlocks (b+1 : ℕ) n (k+1) (n-(m-b) : ℕ) (text.drop b) >>=
        fun r => .ok (text.take b :: r.1, r.2) := by
  have hcount : ((b+1 : ℕ) : ℤ)-1 = b := by
    omega
  have hlen : (text.take b).length = b := List.length_take_of_le (hbm.trans htext)
  have hsum : i32 ((n-m : ℕ)+b) = (n-(m-b) : ℕ) := by
    rw [← Nat.cast_add, i32_natCast _ (by omega)]
    omega
  rw [readBlocks, if_neg (Nat.succ_ne_zero k), hcount, fread_natCast b (by omega)]
  dsimp only
  rw [hlen, if_pos (by omega), hsum]
  rfl

-- The blocks are filled one by one, and the last one may be too small for the rest.
theorem readBlocks_reads (k m : ℕ) (text : List UInt8) (hm : m ≤ n) (hk : k*b < m)
    (htext : m ≤ text.length) :
    if m ≤ (k+1)*b then Reads (readBlocks (b+1 : ℕ) n (k+1) (n-m : ℕ) text) (b+1 : ℕ) (text.take m)
    else readBlocks (b+1 : ℕ) n (k+1) (n-m : ℕ) text = .error .outOfBounds := by
  induction k generalizing m text with
  | zero =>
    rw [readBlocks_last b n hn m text hm htext, Nat.zero_add, Nat.one_mul]
    split_ifs with hmb
    · refine ⟨[text.take m], n, rfl, fun block hblock => ?_, List.flatten_singleton⟩
      rw [List.mem_singleton.mp hblock, List.length_take_of_le htext]
      omega
    · rfl
  | succ k ih =>
    have hexpand : (k+1)*b = k*b+b := Nat.succ_mul k b
    have hexpand' : (k+1+1)*b = (k+1)*b+b := Nat.succ_mul (k+1) b
    have hdrop : m-b ≤ (text.drop b).length := by
      rw [List.length_drop]
      omega
    have hrest := ih (m-b) (text.drop b) (by omega) (by omega) hdrop
    rw [readBlocks_full b n hb' hn k m text hm (by omega) htext]
    split_ifs with hfit
    · rw [if_pos (by omega)] at hrest
      obtain ⟨blocks, nTot, hr, hroom, hflat⟩ := hrest
      refine ⟨text.take b :: blocks, nTot, by rw [hr]; rfl, fun block hblock => ?_, ?_⟩
      · rcases List.mem_cons.mp hblock with rfl | hblock
        · rw [List.length_take]
          omega
        · exact hroom block hblock
      · rw [List.flatten_cons, hflat, ← List.take_add]
        congr 1
        omega
    · rw [if_neg (by omega)] at hrest
      rw [hrest]
      rfl

end Blocks

section Count

variable (M : ℤ) (hM : 2 ≤ M)

include hM

-- The number of blocks for a size that is not positive.
theorem count_nonpos (n : ℤ) (hn : n ≤ 0) : n.tdiv M ≤ 0 ∧ ¬n.tdiv M*M < n := by
  have hneg : n.tdiv M = -((-n)/M) := by
    rw [← Int.tdiv_eq_ediv_of_nonneg (by omega), Int.neg_tdiv, neg_neg]
  have hdiv := Int.mul_ediv_self_le (show M ≠ 0 by omega) (x := -n)
  have hpos : 0 ≤ (-n)/M := Int.ediv_nonneg (by omega) (by omega)
  rw [hneg]
  constructor
  · omega
  · rw [neg_mul, mul_comm]
    omega

-- For a positive size it is rounded up.
theorem count_pos (n : ℤ) (hn : 0 < n) :
    ∃ k : ℕ, (if n.tdiv M*M < n then n.tdiv M+1 else n.tdiv M) = (k+1 : ℕ) ∧ k*M < n ∧ n ≤ (k+1)*M := by
  have hdiv : n/M*M+n%M = n := Int.ediv_mul_add_emod n M
  have hlt := Int.emod_lt_of_pos n (show 0 < M by omega)
  have hnonneg := Int.emod_nonneg n (show M ≠ 0 by omega)
  have hq : 0 ≤ n/M := Int.ediv_nonneg hn.le (by omega)
  rw [Int.tdiv_eq_ediv_of_nonneg hn.le]
  split_ifs with hrem
  · refine ⟨(n/M).toNat, by omega, ?_, ?_⟩
    · rwa [Int.toNat_of_nonneg hq]
    · rw [Int.toNat_of_nonneg hq, Int.add_mul]
      omega
  · have hexact : n/M*M = n := by
      omega
    have hpos : 0 < n/M := by
      by_contra hzero
      rw [show n/M = 0 by omega, zero_mul] at hexact
      omega
    have hpred : ((n/M-1).toNat : ℤ) = n/M-1 := Int.toNat_of_nonneg (by omega)
    refine ⟨(n/M-1).toNat, by omega, ?_, ?_⟩
    · rw [hpred, Int.sub_mul, hexact]
      omega
    · rw [hpred, Int.sub_add_cancel, hexact]

-- The room of `k+1` blocks, in quotient and remainder.
theorem room_iff (n : ℤ) (k : ℕ) (hl : k*M < n) (hu : n ≤ (k+1)*M) :
    n ≤ (k+1)*(M-1) ↔ n%M ≠ 0 ∧ n/M+n%M < M := by
  have hdiv : n/M*M+n%M = n := Int.ediv_mul_add_emod n M
  have hlt := Int.emod_lt_of_pos n (show 0 < M by omega)
  have hnonneg := Int.emod_nonneg n (show M ≠ 0 by omega)
  have hexpand : ((k : ℤ)+1)*(M-1) = k*M+M-k-1 := by
    ring
  have hnext : ((k : ℤ)+1)*M = k*M+M := by
    ring
  by_cases hzero : n%M = 0
  · have hq : (k : ℤ) < n/M := by
      apply lt_of_mul_lt_mul_right _ (show 0 ≤ M by omega)
      omega
    have hmul : ((k : ℤ)+1)*M ≤ n/M*M := Int.mul_le_mul_of_nonneg_right hq (by omega)
    constructor
    · intro h
      omega
    · exact fun h => absurd hzero h.1
  · have hle : (k : ℤ) ≤ n/M := by
      apply Int.lt_add_one_iff.mp
      apply lt_of_mul_lt_mul_right _ (show 0 ≤ M by omega)
      rw [Int.add_mul]
      omega
    have hge : n/M ≤ (k : ℤ) := by
      apply Int.lt_add_one_iff.mp
      apply lt_of_mul_lt_mul_right _ (show 0 ≤ M by omega)
      omega
    have hq : n/M = k := le_antisymm hge hle
    rw [hq] at hdiv ⊢
    rw [hexpand]
    omega

end Count

section Claim

variable (content : List UInt8) (nMaxBuf nPos : ℤ) (hM : 2 ≤ nMaxBuf) (hM' : nMaxBuf < 2^31)

theorem readsFile_zero : ReadsFile content nMaxBuf ↔ ReadsFileFrom content nMaxBuf 0 := Iff.rfl

theorem reads_ok_iff (blocks : List (List UInt8)) (nTot : ℤ) :
    Reads (.ok (blocks, nTot)) nMaxBuf content ↔
      (∀ block ∈ blocks, (block.length : ℤ) ≤ nMaxBuf-1) ∧ blocks.flatten = content := by
  constructor
  · rintro ⟨blocks', nTot', hr, h⟩
    cases hr
    exact h
  · exact fun h => ⟨blocks, nTot, rfl, h⟩

theorem readsFileFrom_counted (ntotSize nLoopCnt : ℤ)
    (hget : getFileSize2 (some content) nMaxBuf nPos = some (ntotSize, nLoopCnt)) :
    ReadsFileFrom content nMaxBuf nPos ↔
      Reads (nextReadLoop (some content) nLoopCnt nMaxBuf nPos ntotSize) nMaxBuf
        (content.drop nPos.toNat) := by
  constructor
  · rintro ⟨n, k, hnk, h⟩
    rw [hget] at hnk
    cases hnk
    exact h
  · exact fun h => ⟨ntotSize, nLoopCnt, hget, h⟩

include hM

-- Without characters to read there are no blocks.
theorem readsFileFrom_nonpos (ntotSize : ℤ) (hsize : i32 (i32 content.length-nPos) = ntotSize)
    (hn : ntotSize ≤ 0) :
    ReadsFileFrom content nMaxBuf nPos ↔ content.drop nPos.toNat = [] := by
  obtain ⟨hcount, hmul⟩ := count_nonpos nMaxBuf hM ntotSize hn
  have hget : getFileSize2 (some content) nMaxBuf nPos = some (ntotSize, ntotSize.tdiv nMaxBuf) := by
    rw [getFileSize2, Option.map_some, hsize]
    dsimp only
    rw [if_neg hmul]
  have hread : nextReadLoop (some content) (ntotSize.tdiv nMaxBuf) nMaxBuf nPos ntotSize =
      .ok ([], 0) := by
    rw [nextReadLoop, Int.toNat_of_nonpos hcount, readBlocks]
  rw [readsFileFrom_counted content nMaxBuf nPos _ _ hget, hread, reads_ok_iff, eq_comm]
  apply and_iff_right
  intro block hblock
  cases hblock

include hM'

theorem readsFileFrom_pos (n : ℕ) (hsize : i32 (i32 content.length-nPos) = n) (hn : 0 < n)
    (hlen : n ≤ (content.drop nPos.toNat).length) : ReadsFileFrom content nMaxBuf nPos ↔
      n = (content.drop nPos.toNat).length ∧ (n : ℤ)%nMaxBuf ≠ 0 ∧
        (n : ℤ)/nMaxBuf+(n : ℤ)%nMaxBuf < nMaxBuf := by
  have hn' : n < 2^31 := by
    have hlt := i32_lt (i32 content.length-nPos)
    omega
  obtain ⟨b, rfl⟩ : ∃ b : ℕ, nMaxBuf = (b+1 : ℕ) := ⟨(nMaxBuf-1).toNat, by omega⟩
  obtain ⟨k, hcount, hl, hu⟩ := count_pos (b+1 : ℕ) hM n (by omega)
  have hget : getFileSize2 (some content) (b+1 : ℕ) nPos = some ((n : ℤ), ((k+1 : ℕ) : ℤ)) := by
    rw [getFileSize2, Option.map_some, hsize]
    dsimp only
    rw [hcount]
  have hexpand : ((k*(b+1 : ℕ) : ℕ) : ℤ) = k*(b+1 : ℕ) := Nat.cast_mul k (b+1)
  have hless : k*b ≤ k*(b+1) := Nat.mul_le_mul_left k (Nat.le_succ b)
  have hreads := readBlocks_reads b n (by omega) hn' k n (content.drop nPos.toNat) le_rfl
      (by omega) hlen
  have hroom : n ≤ (k+1)*b ↔ (n : ℤ)%(b+1 : ℕ) ≠ 0 ∧
      (n : ℤ)/(b+1 : ℕ)+(n : ℤ)%(b+1 : ℕ) < (b+1 : ℕ) := by
    have hcast : ((k : ℤ)+1)*((b+1 : ℕ)-1) = ((k+1)*b : ℕ) := by
      push_cast
      ring
    rw [← room_iff (b+1 : ℕ) hM n k hl hu, hcast, Nat.cast_le]
  rw [Nat.sub_self, Nat.cast_zero] at hreads
  have hread : nextReadLoop (some content) (k+1 : ℕ) (b+1 : ℕ) nPos n =
      readBlocks (b+1 : ℕ) n (k+1) 0 (content.drop nPos.toNat) := by
    rw [nextReadLoop, Int.toNat_natCast]
  rw [readsFileFrom_counted content (b+1 : ℕ) nPos _ _ hget, hread, ← hroom]
  split_ifs at hreads with hfit
  · obtain ⟨blocks, nTot, hr, hblocks, hflat⟩ := hreads
    rw [hr, reads_ok_iff, hflat, List.take_eq_self_iff, and_iff_left hfit, and_iff_right hblocks]
    exact ⟨fun hle => le_antisymm hlen hle, fun hall => hall.ge⟩
  · apply iff_of_false
    · rintro ⟨blocks, nTot, hr, -⟩
      rw [hreads] at hr
      cases hr
    · exact fun h => hfit h.2

theorem readsFileFrom_iff (hpos : 0 ≤ nPos) (hpos' : nPos < 2^31) :
    ReadsFileFrom content nMaxBuf nPos ↔ Fits (content.length-nPos.toNat) nMaxBuf := by
  obtain ⟨p, rfl⟩ := Int.eq_ofNat_of_zero_le hpos
  have hlen : (content.drop p).length = content.length-p := List.length_drop
  have hsize : i32 (i32 content.length-p) = i32 (content.length-p) := by
    rw [sub_eq_add_neg, i32_i32_add, ← sub_eq_add_neg]
  have hsmall (h : (content.length : ℤ)-p < 2^31) : i32 (content.length-p) = content.length-p :=
    i32_of_range _ (by omega) h
  rw [Int.toNat_natCast]
  rcases le_or_gt (i32 (content.length-p)) 0 with hneg | hgt
  · rw [readsFileFrom_nonpos content nMaxBuf p hM _ hsize hneg, Int.toNat_natCast,
      ← List.length_eq_zero_iff, hlen]
    constructor
    · exact Or.inl
    · rintro (hzero | ⟨hlt, -, -⟩)
      · exact hzero
      · rw [hsmall (by omega)] at hneg
        omega
  · obtain ⟨n, hn⟩ := Int.eq_ofNat_of_zero_le hgt.le
    have hle : n ≤ content.length-p := by
      by_cases hp : p ≤ content.length
      · have hi := i32_le (content.length-p) (by omega)
        omega
      · rw [hsmall (by omega)] at hgt
        omega
    rw [readsFileFrom_pos content nMaxBuf p hM hM' n (hsize.trans hn) (by omega)
      (by rwa [Int.toNat_natCast, hlen]),
      Int.toNat_natCast, hlen]
    constructor
    · rintro ⟨rfl, hfit⟩
      have hlt := i32_lt (content.length-p)
      exact Or.inr ⟨by omega, hfit⟩
    · rintro (hzero | ⟨hlt, hfit⟩)
      · omega
      · have hsame : n = content.length-p := by
          rw [hsmall (by omega)] at hn
          omega
        exact ⟨hsame, hsame ▸ hfit⟩

/-- The blocks that `getFileSize2` counts hold the file exactly when its length fits them, also from a
position on. -/
theorem reads_iff_fits (hpos : 0 ≤ nPos) (hpos' : nPos < 2^31) :
    (ReadsFile content nMaxBuf ↔ Fits content.length nMaxBuf) ∧
      (ReadsFileFrom content nMaxBuf nPos ↔ Fits (content.length-nPos.toNat) nMaxBuf) :=
  ⟨readsFileFrom_iff content nMaxBuf 0 hM hM' le_rfl (by decide),
    readsFileFrom_iff content nMaxBuf nPos hM hM' hpos hpos'⟩

omit hM hM' in
/-- Five characters in blocks of four. -/
theorem reads_iff_fits_five : ReadsFile [97, 98, 99, 100, 101] 4 ∧
    ReadsFileFrom [97, 98, 99, 100, 101] 4 0 :=
  have h := reads_iff_fits [97, 98, 99, 100, 101] 4 0 (by decide) (by decide) le_rfl (by decide)
  have hfits : Fits 5 4 := Or.inr (by decide)
  ⟨h.1.mpr hfits, h.2.mpr hfits⟩

omit hM hM' in
/-- Two characters are put in one block of two. -/
theorem not_reads : ¬∀ (content : List UInt8) (nMaxBuf nPos : ℤ), content ≠ [] → 2 ≤ nMaxBuf →
    nMaxBuf < 2^31 →
    0 ≤ nPos → nPos < 2^31 → ReadsFile content nMaxBuf ∧ ReadsFileFrom content nMaxBuf nPos := by
  intro h
  have hreads := (h [97, 98] 2 0 (by decide) (by decide) (by decide) le_rfl (by decide)).1
  rw [readsFile_zero, readsFileFrom_iff [97, 98] 2 0 (by decide) (by decide) le_rfl
    (by decide)] at hreads
  rcases hreads with hzero | ⟨-, hrem, -⟩
  · cases hzero
  · exact hrem rfl

end Claim

end Leviathan.ChunkedRead
