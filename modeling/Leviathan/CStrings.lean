import Mathlib.Tactic

/-! Numbers in C strings: what `atoi` reads and what `%d` prints. -/
namespace Leviathan

-- `isspace` in the C locale
def isSpace (c : Char) : Bool := c = ' ' || ('\t'.toNat ≤ c.toNat && c.toNat ≤ '\r'.toNat)

/-- The number that the leading digits spell. -/
def leadingNumber (s : List Char) : ℕ := Nat.ofDigitChars 10 (s.takeWhile Char.isDigit) 0

/-- `atoi` for a number that an `int` holds. -/
def atoi (s : List Char) : ℤ :=
  match s.dropWhile isSpace with
  | '-' :: t => -(leadingNumber t : ℤ)
  | '+' :: t => leadingNumber t
  | t => leadingNumber t

theorem atoi_of_digit (c : Char) (s : List Char) (hc : c.isDigit = true) :
    atoi (c :: s) = leadingNumber (c :: s) := by
  have hspace : isSpace c = false := by
    simp only [Char.isDigit, Bool.and_eq_true, decide_eq_true_eq] at hc
    have h0 : 48 ≤ c.toNat := by
      exact hc.1
    unfold isSpace
    have hne : c ≠ ' ' := by
      rintro rfl
      exact absurd h0 (by decide)
    have hlt : 13 < c.toNat := by
      omega
    simp [hne, hlt]
  have hm : c ≠ '-' := by
    rintro rfl
    exact absurd hc (by decide)
  have hp : c ≠ '+' := by
    rintro rfl
    exact absurd hc (by decide)
  unfold atoi
  rw [List.dropWhile_cons_of_neg (by simp [hspace])]
  split
  · rename_i h
    cases h
    exact absurd rfl hm
  · rename_i h
    cases h
    exact absurd rfl hp
  · rfl

end Leviathan
