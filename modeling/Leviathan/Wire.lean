import Mathlib.Tactic

/-! Bytes in a buffer: little-endian numbers, reading a range, writing a range. -/
namespace Leviathan.Wire

/-- The `w` low bytes of `n`, least significant first. -/
def bytesLE : ℕ → ℕ → List UInt8
  | 0, _ => []
  | w+1, n => UInt8.ofNat n :: bytesLE w (n/256)

def ofBytesLE : List UInt8 → ℕ
  | [] => 0
  | b :: bs => b.toNat+256*ofBytesLE bs

@[simp] theorem length_bytesLE (w n : ℕ) : (bytesLE w n).length = w := by
  induction w generalizing n with
  | zero => rfl
  | succ w ih => rw [bytesLE, List.length_cons, ih]

theorem ofBytesLE_bytesLE (w n : ℕ) (hn : n < 256^w) : ofBytesLE (bytesLE w n) = n := by
  induction w generalizing n with
  | zero =>
    rw [pow_zero] at hn
    show 0 = n
    omega
  | succ w ih =>
    have hdiv : n/256 < 256^w := by
      rw [pow_succ] at hn
      exact Nat.div_lt_of_lt_mul (by omega)
    have hlow : (UInt8.ofNat n).toNat = n%256 := UInt8.toNat_ofNat'
    rw [bytesLE, ofBytesLE, ih _ hdiv, hlow]
    omega

theorem ofBytesLE_replicate_zero (w : ℕ) : ofBytesLE (List.replicate w 0) = 0 := by
  induction w with
  | zero => rfl
  | succ w ih =>
    rw [List.replicate_succ, ofBytesLE, ih]
    rfl

variable {α : Type*}

/-- `n` cells from position `p` on, when all of them are inside the buffer. -/
def slice (buf : List α) (p n : ℕ) : Option (List α) :=
  if p+n ≤ buf.length then some ((buf.drop p).take n) else none

/-- The buffer with `bs` at position `p`, when it fits. -/
def writeAt (buf : List α) (p : ℕ) (bs : List α) : Option (List α) :=
  if p+bs.length ≤ buf.length then some (buf.take p ++ bs ++ buf.drop (p+bs.length)) else none

theorem slice_append (pre bs post : List α) :
    slice (pre ++ (bs ++ post)) pre.length bs.length = some bs := by
  have hle : pre.length+bs.length ≤ (pre ++ (bs ++ post)).length := by
    simp only [List.length_append]
    omega
  rw [slice, if_pos hle, List.drop_left, List.take_left]

theorem length_of_slice (buf bs : List α) (p n : ℕ) (h : slice buf p n = some bs) :
    p+n ≤ buf.length ∧ bs.length = n := by
  obtain ⟨hle, h⟩ := Option.ite_none_right_eq_some.mp h
  cases h
  refine ⟨hle, ?_⟩
  rw [List.length_take, List.length_drop]
  omega

theorem writeAt_zero (bs buf : List α) (h : bs.length ≤ buf.length) :
    writeAt buf 0 bs = some (bs ++ buf.drop bs.length) := by
  rw [writeAt, if_pos (by omega)]
  simp

theorem length_of_writeAt (buf bs buf' : List α) (p : ℕ) (h : writeAt buf p bs = some buf') :
    buf'.length = buf.length := by
  obtain ⟨hle, h⟩ := Option.ite_none_right_eq_some.mp h
  cases h
  simp only [List.length_append, List.length_take, List.length_drop]
  omega

end Leviathan.Wire
