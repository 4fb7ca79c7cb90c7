import Leviathan.Buffers
import Leviathan.IntValue

/-! Sizes that are written as a number and a unit (`getStrToInt` of CMemManager, comMemManager.cpp).  The
digits are gathered in a local buffer whose bytes are what the stack held before. -/
namespace Leviathan.SizeString
open Buffers
open IntValue (isDigit isNDigit isDigit_of_isNDigit number)

section Model

def sizeofSzNum : ℕ := 32

/-- The local variables of `getStrToInt`. -/
structure Scan where
  szNum : List UInt8
  i : ℕ
  cUnit : UInt8

def scan : List UInt8 → Scan → Except Fault Scan
  | [], s => .ok s
  | c :: pPos, s =>
    if isDigit c then do
      let szNum ← store s.szNum s.i [c]
      scan pPos { szNum := szNum, i := s.i+1, cUnit := s.cUnit }
    else scan pPos { szNum := s.szNum, i := s.i, cUnit := c }

def isspace (b : UInt8) : Bool := b = 32 || (9 ≤ b && b ≤ 13)

-- what `atoi` answers for a number that no `int` holds
variable (atoiOver : List UInt8 → ℤ)

/-- `atoi` behind the sign: it reads up to the first character that is no digit, and past the buffer where
there is none. -/
def atoiDigits (negative : Bool) (buf : List UInt8) : Except Fault ℤ :=
  if isNDigit buf then
    let digits := buf.takeWhile isDigit
    if negative then
      .ok (if number digits ≤ 2^31 then -(number digits : ℤ) else atoiOver (45 :: digits))
    else .ok (IntValue.atoi atoiOver digits)
  else .error .outOfBounds

/-- `atoi` on a buffer. -/
def _ttoi (buf : List UInt8) : Except Fault ℤ :=
  match buf.dropWhile isspace with
  | [] => .error .outOfBounds
  | 45 :: rest => atoiDigits atoiOver true rest
  | 43 :: rest => atoiDigits atoiOver false rest
  | rest => atoiDigits atoiOver false rest

/-- The number in units, and the character that is printed because it is no unit. -/
def scale (cUnit : UInt8) (nRes : ℤ) : ℤ × Option UInt8 :=
  match cUnit with
  | 0 => (nRes, none)
  | 107 | 75 => (i32 (nRes*1024), none)
  | 109 | 77 => (i32 (i32 (nRes*1024)*1024), none)
  | 103 | 71 => (i32 (i32 (i32 (nRes*1024)*1024)*1024), none)
  | cUnit => (nRes, some cUnit)

/-- `getStrToInt` with what the stack holds at the place of the local buffer. -/
def getStrToInt (stack pData : List UInt8) : Except Fault (ℤ × Option UInt8) := do
  let s ← scan pData { szNum := stack, i := 0, cUnit := 0 }
  let nRes ← _ttoi atoiOver s.szNum
  return scale s.cUnit nRes

end Model

/-- The number of bytes in a unit; without one the number stands for itself. -/
def factor : Option UInt8 → Option ℕ
  | none => some 1
  | some 107 | some 75 => some (2^10)
  | some 109 | some 77 => some (2^20)
  | some 103 | some 71 => some (2^30)
  | _ => none

/-- A size: up to ten digits and perhaps a unit, less than 2^31 bytes. -/
structure Size where
  digits : List UInt8
  unit : Option UInt8
  bytes : ℕ
  nonempty : 1 ≤ digits.length
  short : digits.length ≤ 10
  isNumber : isNDigit digits = false
  isSize : ∃ f, factor unit = some f ∧ bytes = number digits*f
  isInt : bytes < 2^31

namespace Size

def chars (s : Size) : List UInt8 := s.digits ++ s.unit.toList

/-- The size is read exactly where the byte of the buffer behind the digits is `b`, whatever the others
are. -/
def ReadBefore (s : Size) (b : UInt8) : Prop :=
  ∀ (atoiOver : List UInt8 → ℤ) (stack : List UInt8), stack.length = sizeofSzNum →
    stack[s.digits.length]? = some b → getStrToInt atoiOver stack s.chars = .ok (s.bytes, none)

end Size

section Scan

theorem isDigit_of_mem (digits : List UInt8) (h : isNDigit digits = false) (c : UInt8) (hc : c ∈ digits) :
    isDigit c = true := by
  rw [isNDigit, List.any_eq_false] at h
  simpa using h c hc

theorem isNDigit_append (digits rest : List UInt8) (h : isNDigit digits = false) :
    isNDigit (digits ++ rest) = isNDigit rest := by
  rw [isNDigit] at h
  rw [isNDigit, List.any_append, h, Bool.false_or, isNDigit]

theorem isDigit_factor (u : UInt8) (f : ℕ) (hf : factor (some u) = some f) : isDigit u = false := by
  unfold factor at hf
  split at hf <;> simp_all [isDigit]

-- Digits go one behind the other into the buffer.
theorem scan_digits (digits tail held rest : List UInt8) (cUnit : UInt8) (h : isNDigit digits = false)
    (hlen : digits.length ≤ rest.length) :
    scan (digits ++ tail) { szNum := held ++ rest, i := held.length, cUnit := cUnit } =
      scan tail { szNum := held ++ digits ++ rest.drop digits.length, i := held.length+digits.length,
                  cUnit := cUnit } := by
  induction digits generalizing held rest with
  | nil => rw [List.nil_append, List.append_nil, List.length_nil, List.drop_zero, Nat.add_zero]
  | cons c digits ih =>
    rw [isNDigit, List.any_cons, Bool.or_eq_false_iff] at h
    have hc : isDigit c = true := by simpa using h.1
    rw [List.length_cons] at hlen
    have hstore := store_append rest held [c] held.length rfl (by rw [List.length_singleton]; omega)
    rw [List.length_singleton] at hstore
    have hnext := ih (held ++ [c]) (rest.drop 1) h.2 (by rw [List.length_drop]; omega)
    rw [List.length_append, List.length_singleton] at hnext
    rw [List.cons_append, scan, if_pos hc, hstore, ok_bind, hnext, List.drop_drop, List.append_assoc held,
      List.singleton_append, List.length_cons, Nat.add_assoc, Nat.add_comm 1]

theorem scan_unit (unit : Option UInt8) (f : ℕ) (hf : factor unit = some f) (szNum : List UInt8) (i : ℕ) :
    scan unit.toList { szNum := szNum, i := i, cUnit := 0 } =
      .ok { szNum := szNum, i := i, cUnit := unit.getD 0 } := by
  cases unit with
  | none => rfl
  | some u =>
    rw [Option.toList_some, scan, isDigit_factor u f hf, if_neg Bool.false_ne_true]
    rfl

end Scan

section Read

variable (atoiOver : List UInt8 → ℤ)

-- The first character of the buffer is a digit, so that nothing is skipped and there is no sign.
theorem _ttoi_digits (digits rest : List UInt8) (hne : 1 ≤ digits.length) (h : isNDigit digits = false)
    (b : UInt8) (hb : isDigit b = false) :
    _ttoi atoiOver (digits ++ b :: rest) = .ok (IntValue.atoi atoiOver digits) := by
  obtain ⟨c, ds, rfl⟩ := List.exists_cons_of_length_pos hne
  have hc := isDigit_of_isNDigit _ h c List.mem_cons_self
  have hspace : isspace c = false := by
    apply Bool.eq_false_of_not_eq_true
    intro hs
    rw [isspace, Bool.or_eq_true, Bool.and_eq_true, decide_eq_true_eq, decide_eq_true_eq,
      decide_eq_true_eq, UInt8.le_iff_toNat_le, UInt8.le_iff_toNat_le] at hs
    rcases hs with rfl | hs
    · exact absurd hc (by decide)
    · have hle : c.toNat ≤ 13 := hs.2
      omega
  have htake : ((c :: ds) ++ b :: rest).takeWhile isDigit = c :: ds := by
    rw [List.takeWhile_append_of_pos (isDigit_of_mem _ h), List.takeWhile_cons_of_neg (by simp [hb]),
      List.append_nil]
  have hend : isNDigit ((c :: ds) ++ b :: rest) = true := by
    rw [isNDigit_append _ _ h, isNDigit, List.any_cons, hb, Bool.not_false, Bool.true_or]
  have hread : atoiDigits atoiOver false ((c :: ds) ++ b :: rest) =
      .ok (IntValue.atoi atoiOver (c :: ds)) := by
    rw [atoiDigits, if_pos hend]
    simp only [htake]
    rfl
  have hminus : c ≠ 45 := by
    rintro rfl
    exact absurd hc (by decide)
  have hplus : c ≠ 43 := by
    rintro rfl
    exact absurd hc (by decide)
  rw [← hread, _ttoi, List.cons_append, List.dropWhile_cons_of_neg (by simp [hspace])]
  split
  · rename_i heq
    cases heq
  · rename_i heq
    exact absurd (List.cons.inj heq).1 hminus
  · rename_i heq
    exact absurd (List.cons.inj heq).1 hplus
  · rfl

theorem i32_i32_mul (a b : ℤ) : i32 (i32 a*b) = i32 (a*b) := Int.bmod_mul_bmod

theorem scale_eq (unit : Option UInt8) (f : ℕ) (hf : factor unit = some f) (n : ℤ) (hl : -2^31 ≤ n)
    (hu : n < 2^31) : scale (unit.getD 0) n = (i32 (n*f), none) := by
  unfold factor at hf
  split at hf
  all_goals cases hf
  · rw [Nat.cast_one, mul_one, i32_of_range n hl hu]
    rfl
  all_goals
    simp only [Option.getD_some, scale, i32_i32_mul]
    norm_num [mul_assoc]

theorem factor_range (unit : Option UInt8) (f : ℕ) (hf : factor unit = some f) : 1 ≤ f ∧ f ≤ 2^30 := by
  unfold factor at hf
  split at hf <;> cases hf <;> norm_num

/-- What is read: the digits of the text, and those that the stack held behind them. -/
theorem getStrToInt_eq (s : Size) (stack more rest : List UInt8) (b : UInt8)
    (hlen : stack.length = sizeofSzNum) (hdrop : stack.drop s.digits.length = more ++ b :: rest)
    (hmore : isNDigit more = false) (hb : isDigit b = false) :
    getStrToInt atoiOver stack s.chars =
      .ok (scale (s.unit.getD 0) (IntValue.atoi atoiOver (s.digits ++ more))) := by
  obtain ⟨f, hf, -⟩ := s.isSize
  have hshort := s.short
  have hscan := scan_digits s.digits s.unit.toList [] stack 0 s.isNumber
    (by rw [hlen, sizeofSzNum]; omega)
  rw [List.nil_append, List.length_nil, Nat.zero_add, List.nil_append, hdrop, scan_unit _ f hf,
    ← List.append_assoc] at hscan
  rw [getStrToInt, Size.chars, hscan, ok_bind]
  have hread := _ttoi_digits atoiOver (s.digits ++ more) rest
    (by rw [List.length_append]; exact Nat.le_add_right_of_le s.nonempty)
    (by rw [isNDigit_append _ _ s.isNumber, hmore]) b hb
  simp only [hread]
  rfl

end Read

namespace Size

variable (s : Size) (b : UInt8)

theorem readBefore_of_not_digit (hb : isDigit b = false) : s.ReadBefore b := by
  intro atoiOver stack hlen hstack
  obtain ⟨f, hf, hbytes⟩ := s.isSize
  have hint := s.isInt
  have hnum : number s.digits < 2^31 := by
    rw [hbytes] at hint
    exact (Nat.le_mul_of_pos_right _ (factor_range _ f hf).1).trans_lt hint
  have hdrop : stack.drop s.digits.length = [] ++ b :: stack.drop (s.digits.length+1) := by
    obtain ⟨hi, rfl⟩ := List.getElem?_eq_some_iff.mp hstack
    exact List.drop_eq_getElem_cons hi
  rw [getStrToInt_eq atoiOver s stack [] _ b hlen hdrop rfl hb, List.append_nil, IntValue.atoi,
    if_pos hnum, scale_eq _ f hf _ (by omega) (by exact_mod_cast hnum), ← Nat.cast_mul, ← hbytes, i32_natCast _ hint]

/-- A stack with two bytes and a NUL behind the digits. -/
def staleStack (b e : UInt8) : List UInt8 :=
  List.replicate s.digits.length 0 ++ ([b, e] ++ 0 :: List.replicate (29-s.digits.length) 0)

theorem i32_add_ne (z : ℤ) (f : ℕ) (hpos : 1 ≤ f) (hle : f ≤ 2^30) : i32 (z+f) ≠ i32 z := by
  intro h
  have hmod := congrArg (fun w => w%((2^32 : ℕ) : ℤ)) h
  simp only [i32, Int.bmod_emod] at hmod
  omega

-- Of two digits behind the next one at most one gives the right answer.
theorem not_readBefore_of_digit (hb : isDigit b = true) : ¬s.ReadBefore b := by
  intro h
  obtain ⟨f, hf, -⟩ := s.isSize
  have hshort := s.short
  have hread (e : UInt8) (d : ℕ) (he : isDigit e = true) (hd : e.toNat-48 = d) :
      i32 ((number (s.digits ++ [b])*10+d : ℕ)*f) = s.bytes := by
    have hlen : (s.staleStack b e).length = sizeofSzNum := by
      simp only [staleStack, List.length_append, List.length_cons, List.length_replicate, sizeofSzNum,
        List.length_nil]
      omega
    have hdrop : (s.staleStack b e).drop s.digits.length =
        [b, e] ++ 0 :: List.replicate (29-s.digits.length) 0 := List.drop_left' List.length_replicate
    have hat : (s.staleStack b e)[s.digits.length]? = some b := by
      rw [staleStack, List.getElem?_append_right (le_of_eq List.length_replicate), List.length_replicate,
        Nat.sub_self]
      rfl
    have hcall := h (fun ds => i32 (number ds)) _ hlen hat
    have hatoi : IntValue.atoi (fun ds => i32 (number ds)) (s.digits ++ [b, e]) =
        i32 (number (s.digits ++ [b])*10+d : ℕ) := by
      have hnumber : number (s.digits ++ [b, e]) = number (s.digits ++ [b])*10+d := by
        simp only [number, List.foldl_append, List.foldl_cons, List.foldl_nil, hd]
      rw [IntValue.atoi, hnumber]
      split_ifs with hint
      · exact (i32_natCast _ hint).symm
      · rfl
    rw [getStrToInt_eq _ s _ [b, e] _ 0 hlen hdrop (by simp [isNDigit, hb, he]) rfl, hatoi,
      scale_eq _ f hf _ (Int.le_bmod (by decide)) (i32_lt _), i32_i32_mul,
      Except.ok.injEq, Prod.mk.injEq] at hcall
    exact hcall.1
  have hzero := hread 48 0 (by decide) (by decide)
  have hone := hread 49 1 (by decide) (by decide)
  obtain ⟨hpos, hle⟩ := factor_range _ f hf
  -- the two products differ by the unit
  rw [Nat.cast_succ, add_mul, one_mul] at hone
  exact i32_add_ne _ f hpos hle (hone.trans hzero.symm)

/-- A size is read exactly when the stack does not continue its digits. -/
theorem readBefore_iff : s.ReadBefore b ↔ isDigit b = false := by
  cases hb : isDigit b with
  | false => exact iff_of_true (s.readBefore_of_not_digit b hb) rfl
  | true => exact iff_of_false (s.not_readBefore_of_digit b hb) Bool.noConfusion

/-- The size `1`. -/
def one : Size where
  digits := [49]
  unit := none
  bytes := 1
  nonempty := by decide
  short := by decide
  isNumber := by decide
  isSize := ⟨1, rfl, rfl⟩
  isInt := by decide

-- with a `1` behind its digit it is read as 11
theorem not_readBefore_one : ¬∀ b, one.ReadBefore b := by
  intro h
  have hcall := h 49 (fun _ => 0) (0 :: 49 :: List.replicate 30 0) rfl rfl
  have heleven : getStrToInt (fun _ => 0) (0 :: 49 :: List.replicate 30 0) one.chars =
    .ok (11, none) := rfl
  rw [heleven, Except.ok.injEq, Prod.mk.injEq] at hcall
  exact absurd hcall.1 (by decide)

end Size

end Leviathan.SizeString
