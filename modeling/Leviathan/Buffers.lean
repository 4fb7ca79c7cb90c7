import Leviathan.CTypes

/-! Byte buffers of a fixed size, and the functions of the C library that write strings into them. -/
namespace Leviathan.Buffers

/-- A store of consecutive bytes from an offset on. -/
def store (buf : List UInt8) (off : ℤ) (bytes : List UInt8) : Except Fault (List UInt8) :=
  if 0 ≤ off ∧ off+bytes.length ≤ buf.length then
    .ok (buf.take off.toNat ++ bytes ++ buf.drop (off.toNat+bytes.length))
  else .error .outOfBounds

def strcpy (buf : List UInt8) (off : ℤ) (s : List UInt8) : Except Fault (List UInt8) :=
  store buf off (s ++ [0])

/-- The string in a buffer; without a NUL the read goes past the end. -/
def text (buf : List UInt8) : Except Fault (List UInt8) :=
  if 0 ∈ buf then .ok (buf.takeWhile (fun b => b ≠ 0)) else .error .outOfBounds

/-- What `vsnprintf` does with a message that does not fit: it cuts it off and answers the full length,
or it leaves out the NUL and answers -1. -/
inductive Vsnprintf
  | fullLength
  | minusOne
  deriving DecidableEq

/-- `vsnprintf(buf, n, ..)` for a message and its answer. -/
def vsnprintf (kind : Vsnprintf) (buf : List UInt8) (n : ℕ) (msg : List UInt8) :
    Except Fault (List UInt8 × ℤ) :=
  match kind with
  | .fullLength => do
    let buf ← store buf 0 (msg.take (n-1) ++ [0])
    return (buf, if msg.length < 2^31 then msg.length else -1)
  | .minusOne =>
    if msg.length < n then do
      let buf ← store buf 0 (msg ++ [0])
      return (buf, msg.length)
    else do
      let buf ← store buf 0 (msg.take n)
      return (buf, if msg.length = n then n else -1)

/-- The bytes of a string literal. -/
def lit (s : String) : List UInt8 := s.toList.map (fun c => c.toNat.toUInt8)

/-- `%d`. -/
def decimal (z : ℤ) : List UInt8 :=
  (if z < 0 then [45] else []) ++ (Nat.toDigits 10 z.natAbs).map (fun c => c.toNat.toUInt8)

/-- `%02x`. -/
def hexByte (b : UInt8) : List UInt8 :=
  [Nat.digitChar (b.toNat/16), Nat.digitChar (b.toNat%16)].map (fun c => c.toNat.toUInt8)

section Store

variable (buf rest s bytes : List UInt8) (off : ℤ)

theorem store_error (h : ¬(0 ≤ off ∧ off+bytes.length ≤ buf.length)) :
    store buf off bytes = .error .outOfBounds := if_neg h

theorem store_ok (r : List UInt8) (h : store buf off bytes = .ok r) :
    (0 ≤ off ∧ off+bytes.length ≤ buf.length) ∧ r.length = buf.length := by
  by_cases hin : 0 ≤ off ∧ off+bytes.length ≤ buf.length
  · rw [store, if_pos hin] at h
    obtain rfl := Except.ok.inj h
    refine ⟨hin, ?_⟩
    rw [List.length_append, List.length_append, List.length_take, List.length_drop]
    omega
  · rw [store_error _ _ _ hin] at h
    cases h

theorem store_append (hoff : off = s.length) (h : bytes.length ≤ rest.length) :
    store (s ++ rest) off bytes = .ok (s ++ bytes ++ rest.drop bytes.length) := by
  subst hoff
  rw [store, if_pos, Int.toNat_natCast, List.take_left, List.drop_append, Nat.add_sub_cancel_left,
    List.drop_eq_nil_of_le (Nat.le_add_right _ _), List.nil_append]
  rw [List.length_append]
  exact ⟨by omega, by omega⟩

-- A store behind a part of the buffer leaves that part alone.
theorem store_behind (hoff : (s.length : ℤ) ≤ off) (r : List UInt8)
    (h : store (s ++ rest) off bytes = .ok r) : ∃ rest', r = s ++ rest' := by
  have hin := (store_ok _ _ _ r h).1
  rw [store, if_pos hin] at h
  obtain rfl := Except.ok.inj h
  rw [List.take_append, List.take_of_length_le (by omega), List.append_assoc, List.append_assoc]
  exact ⟨_, rfl⟩

-- A store into the first part of a buffer leaves the rest of it alone.
theorem store_append_left (r : List UInt8) (h : store buf off bytes = .ok r) :
    store (buf ++ s) off bytes = .ok (r ++ s) := by
  have hin := (store_ok _ _ _ r h).1
  rw [store, if_pos hin] at h
  cases h
  rw [store, if_pos ⟨hin.1, by rw [List.length_append]; push_cast; omega⟩,
    List.take_append_of_le_length (by omega), List.drop_append_of_le_length (by omega), List.append_assoc,
    List.append_assoc, List.append_assoc]

theorem text_append (h : 0 ∉ s) : text (s ++ 0 :: rest) = .ok s := by
  rw [text, if_pos (List.mem_append_right _ List.mem_cons_self), takeWhile_ne_append 0 s rest h]

-- The string in a buffer is what stands in front of the first NUL.
theorem text_eq_ok_iff (t : List UInt8) : text buf = .ok t ↔ ∃ rest, buf = t ++ 0 :: rest ∧ 0 ∉ t := by
  constructor
  · intro h
    by_cases h0 : 0 ∈ buf
    · rw [text, if_pos h0] at h
      obtain rfl := Except.ok.inj h
      have hno : 0 ∉ buf.takeWhile (fun b => b ≠ 0) := by
        intro hmem
        have hall := List.all_takeWhile (p := fun b : UInt8 => decide (b ≠ 0)) (l := buf)
        simpa using List.all_eq_true.mp hall 0 hmem
      have hsplit := List.takeWhile_append_dropWhile (p := fun b : UInt8 => decide (b ≠ 0)) (l := buf)
      cases hd : buf.dropWhile (fun b => b ≠ 0) with
      | nil =>
        rw [hd, List.append_nil] at hsplit
        rw [hsplit] at hno
        exact absurd h0 hno
      | cons b rest =>
        have hb : b = 0 := by
          have hhead := List.head?_dropWhile_not (fun b : UInt8 => decide (b ≠ 0)) buf
          rw [hd] at hhead
          simpa using hhead
        rw [hd, hb] at hsplit
        exact ⟨rest, hsplit.symm, hno⟩
    · rw [text, if_neg h0] at h
      cases h
  · rintro ⟨rest, rfl, hno⟩
    exact text_append rest t hno

-- A string goes behind what is there.
theorem strcpy_append (t : List UInt8) (hoff : off = t.length) (h : s.length < rest.length) :
    ∃ rest', rest'.length+s.length+1 = rest.length ∧
      strcpy (t ++ rest) off s = .ok (t ++ s ++ 0 :: rest') := by
  have hlen : (s ++ [(0 : UInt8)]).length = s.length+1 := by
    rw [List.length_append, List.length_singleton]
  refine ⟨rest.drop (s.length+1), ?_, ?_⟩
  · rw [List.length_drop]
    omega
  · rw [strcpy, store_append _ _ _ _ hoff (by omega), hlen]
    simp

theorem strcpy_first (h : s.length < buf.length) :
    ∃ rest, rest.length+s.length+1 = buf.length ∧ strcpy buf 0 s = .ok (s ++ 0 :: rest) :=
  strcpy_append buf s 0 [] rfl h

theorem strcpy_ok (r : List UInt8) (h : strcpy buf off s = .ok r) :
    (0 ≤ off ∧ off+s.length < buf.length) ∧ r.length = buf.length := by
  obtain ⟨⟨h0, hlt⟩, hlen⟩ := store_ok _ _ _ r h
  rw [List.length_append, List.length_singleton] at hlt
  push_cast at hlt
  exact ⟨⟨h0, by omega⟩, hlen⟩

end Store

section Formats

-- A message shorter than the bound arrives whole, with either kind.
theorem vsnprintf_fits (kind : Vsnprintf) (buf msg : List UInt8) (n : ℕ) (hn : n ≤ buf.length)
    (hmsg : msg.length < n) (hsize : n < 2^31) :
    ∃ rest, vsnprintf kind buf n msg = .ok (msg ++ 0 :: rest, msg.length) := by
  obtain ⟨rest, -, hput⟩ := strcpy_first buf msg (by omega)
  refine ⟨rest, ?_⟩
  rw [strcpy] at hput
  cases kind with
  | fullLength =>
    rw [vsnprintf, List.take_of_length_le (by omega), hput, ok_bind, if_pos (by omega)]
    rfl
  | minusOne =>
    rw [vsnprintf, if_pos hmsg, hput, ok_bind]
    rfl

theorem fullLength_cut (buf msg : List UInt8) (n : ℕ) (hn : n ≤ buf.length) (hpos : 0 < n)
    (hmsg : n ≤ msg.length) :
    ∃ rest, vsnprintf .fullLength buf n msg =
      .ok (msg.take (n-1) ++ 0 :: rest, if msg.length < 2^31 then msg.length else -1) := by
  obtain ⟨rest, -, hput⟩ := strcpy_first buf (msg.take (n-1)) (by rw [List.length_take]; omega)
  refine ⟨rest, ?_⟩
  rw [strcpy] at hput
  rw [vsnprintf, hput, ok_bind]
  rfl

-- With the other kind only what was in the buffer before can end the message.
theorem minusOne_cut (buf msg : List UInt8) (n : ℕ) (hn : n ≤ buf.length) (hmsg : n ≤ msg.length) :
    vsnprintf .minusOne buf n msg =
      .ok (msg.take n ++ buf.drop n, if msg.length = n then n else -1) := by
  have hlen : (msg.take n).length = n := List.length_take_of_le hmsg
  have hput : store buf 0 (msg.take n) = .ok ([] ++ msg.take n ++ buf.drop (msg.take n).length) :=
    store_append buf [] (msg.take n) 0 rfl (by rw [hlen]; exact hn)
  rw [vsnprintf, if_neg (not_lt.mpr hmsg), hput, ok_bind, hlen, List.nil_append]
  rfl

theorem digit_ne_zero (n : ℕ) : (Nat.digitChar n).toNat.toUInt8 ≠ 0 := by
  rcases Nat.lt_or_ge n 36 with hlt | hge
  · interval_cases n <;> decide
  · have hstar : Nat.digitChar n = '*' := by
      unfold Nat.digitChar
      simp only [show ∀ k, k < 36 → n ≠ k from fun k hk => by omega, Nat.reduceLT, if_false]
    rw [hstar]
    decide

theorem hexByte_noNul (b : UInt8) : 0 ∉ hexByte b := by
  intro h
  rw [hexByte, List.mem_map] at h
  obtain ⟨c, hc, h0⟩ := h
  rcases List.mem_pair.mp hc with rfl | rfl
  · exact digit_ne_zero _ h0
  · exact digit_ne_zero _ h0

theorem decimal_noNul (z : ℤ) : 0 ∉ decimal z := by
  intro h
  rw [decimal, List.mem_append] at h
  rcases h with hsign | hdigits
  · split_ifs at hsign
    · exact absurd (List.mem_singleton.mp hsign) (by decide)
    · cases hsign
  · obtain ⟨c, hc, h0⟩ := List.mem_map.mp hdigits
    have hdigit := Nat.isDigit_of_mem_toDigits (b := 10) (by decide) (by decide) hc
    simp only [Char.isDigit, Bool.and_eq_true, decide_eq_true_eq] at hdigit
    have hlow : 48 ≤ c.toNat := hdigit.1
    have hhigh : c.toNat ≤ 57 := hdigit.2
    have hzero : c.toNat%256 = 0 := congrArg UInt8.toNat h0
    omega

end Formats

end Leviathan.Buffers
