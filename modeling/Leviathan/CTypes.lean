import Mathlib.Data.List.TakeWhile
import Mathlib.Tactic

/-! The C types and the small inline functions of `comTypes.h` that the classes share. -/
namespace Leviathan

/-- What the program does where C++ gives no meaning to the access. -/
inductive Fault
  | nullWrite
  | nullRead
  | outOfBounds
  | uninitRead
  | wildWrite
  | diverges
  deriving DecidableEq, Repr

theorem ok_bind {ε α β : Type} (a : α) (f : α → Except ε β) : ((.ok a : Except ε α) >>= f) = f a :=
  rfl

theorem bind_eq_ok {ε α β : Type} (x : Except ε α) (f : α → Except ε β) (r : β) :
    (x >>= f) = .ok r ↔ ∃ a, x = .ok a ∧ f a = .ok r := by
  cases x <;> simp [bind, Except.bind]

theorem map_eq_ok {ε α β : Type} (x : Except ε α) (f : α → β) (r : β) :
    x.map f = .ok r ↔ ∃ a, x = .ok a ∧ f a = r := by
  cases x <;> simp [Except.map]

/-- A 32-bit `int`: the value of `z` after wrap-around. -/
def i32 (z : ℤ) : ℤ := z.bmod (2^32)

/-- A 32-bit `unsigned int`. -/
def u32 (n : ℕ) : ℕ := n%2^32

theorem i32_of_range (z : ℤ) (hl : -2^31 ≤ z) (hu : z < 2^31) : i32 z = z := by
  unfold i32
  exact Int.bmod_eq_of_le (by norm_num; omega) (by norm_num; omega)

theorem i32_lt (z : ℤ) : i32 z < 2^31 := Int.bmod_lt (by decide)

theorem i32_le (z : ℤ) (hz : 0 ≤ z) : i32 z ≤ z := by
  unfold i32
  rw [Int.bmod_def]
  split_ifs <;> omega

theorem i32_upTo (n : ℕ) (hn : n < 2^31) (z : ℤ) (hl : 0 ≤ z) (hu : z ≤ n) : i32 z = z :=
  i32_of_range z (by omega) (by omega)

theorem i32_natCast (n : ℕ) (hn : n < 2^31) : i32 n = n :=
  i32_of_range n (by omega) (by exact_mod_cast hn)

theorem i32_i32_add (a b : ℤ) : i32 (i32 a+b) = i32 (a+b) := Int.bmod_add_bmod

/-- The difference of two `unsigned int`s. -/
def u32Sub (a b : ℕ) : ℕ := u32 (a+2^32-b)

theorem u32_of_lt (n : ℕ) (hn : n < 2^32) : u32 n = n := Nat.mod_eq_of_lt hn

theorem u32Sub_of_le (a b : ℕ) (hab : b ≤ a) (ha : a < 2^32) : u32Sub a b = a-b := by
  rw [u32Sub, u32]
  omega

/-- `E_ALLOC_TYPE`: how the objects held by a container were allocated. -/
inductive EAllocType
  | none
  | memPool
  | new
  | alloc
  | bufPool
  | newArray
  deriving DecidableEq, Repr

/-- `ISABLETODELETE`: the kinds after `eAlloc_Type_MemPool` are freed by the container. -/
def isAbleToDelete : EAllocType → Bool
  | .none | .memPool => false
  | .new | .alloc | .bufPool | .newArray => true

def isInclude (i max : ℤ) : Bool := decide (0 ≤ i) && decide (i < max)

@[simp] theorem isInclude_iff (i max : ℤ) : isInclude i max = true ↔ 0 ≤ i ∧ i < max := by
  simp [isInclude]

/-- A NUL-terminated string: its characters, without the terminator. -/
structure CString where
  chars : List UInt8
  noNul : (0 : UInt8) ∉ chars
  deriving DecidableEq

def CString.strlen (s : CString) : ℕ := s.chars.length

-- the empty string and the names "a", "b" and "n"
theorem CString.noNul_nil : (0 : UInt8) ∉ [] := List.not_mem_nil

theorem CString.noNul_a : (0 : UInt8) ∉ [97] := by decide

theorem CString.noNul_b : (0 : UInt8) ∉ [98] := by decide

theorem CString.noNul_n : (0 : UInt8) ∉ [110] := by decide

section Cut

variable {α : Type} [DecidableEq α] (x : α) (l rest : List α) (h : x ∉ l)

include h

theorem all_ne : ∀ c ∈ l, decide (c ≠ x) = true := by
  intro c hc
  apply decide_eq_true
  intro hcx
  exact h (hcx ▸ hc)

-- A list is cut at the first occurrence of a value.
theorem takeWhile_ne_append : (l ++ x :: rest).takeWhile (fun c => c ≠ x) = l := by
  rw [List.takeWhile_append_of_pos (all_ne x l h), List.takeWhile_cons_of_neg (by simp), List.append_nil]

theorem takeWhile_ne_self : l.takeWhile (fun c => c ≠ x) = l :=
  List.takeWhile_eq_self_iff.mpr (all_ne x l h)

end Cut

end Leviathan
