import Leviathan.FileLines

/-! `ehstrstr` and `CmString::find`, `find_next` (comMString.cpp): the search for a pattern that
starts over behind the character at which a match breaks off. -/
namespace Leviathan

namespace CmString

section Model

/-- The two loops of the three functions: `text` is what `pPos` points at, `nIdx` the part of the
pattern that has matched so far, and `hit` the value returned when all of it has. -/
def search (str : List UInt8) (nLen : ℤ) (hit : ℕ → ℤ) : List UInt8 → ℕ → ℕ → Option ℤ
  | [], _, _ => none
  | c :: text, pPos, nIdx =>
    if c = str.getD nIdx 0 then
      if nLen ≤ nIdx+1 then some (hit pPos) else search str nLen hit text (pPos+1) (nIdx+1)
    else search str nLen hit text (pPos+1) 0

/-- `(int)strlen(str)`. -/
def intLen (str : List UInt8) : ℤ := i32 str.length

/-- `ehstrstr`: the position of the last character of the match. -/
def ehstrstr (pTarget psubstr : CString) : Option ℤ :=
  search psubstr.chars (intLen psubstr.chars) (fun pPos => pPos) pTarget.chars 0 0

def find_next (m_pValue str : CString) (index : ℕ) : Option ℤ :=
  search str.chars (intLen str.chars) (fun pPos => pPos+1) (m_pValue.chars.drop index) index 0

def find (m_pValue str : CString) (index : ℕ) : Option ℤ :=
  search str.chars (intLen str.chars) (fun pPos => pPos+1-intLen str.chars)
    (m_pValue.chars.drop index) index 0

end Model

/-- `o` is where `s` occurs in `t` first. -/
def FirstAt (s t : List UInt8) (o : ℕ) : Prop := s <+: t.drop o ∧ ∀ i < o, ¬s <+: t.drop i

instance (s t : List UInt8) (o : ℕ) : Decidable (FirstAt s t o) := inferInstanceAs (Decidable (_ ∧ _))

/-- `ehstrstr` finds the last character of the first occurrence, and nothing when there is none; `find`
and `find_next` find the start and the end of what it finds. -/
def FindsFirst (t s : CString) : Prop :=
  (∀ o, FirstAt s.chars t.chars o → ehstrstr t s = some ((o : ℤ)+s.strlen-1)) ∧
  ((∀ o, ¬s.chars <+: t.chars.drop o) → ehstrstr t s = none) ∧
  find t s 0 = (ehstrstr t s).map (fun e : ℤ => e+1-s.strlen) ∧
  find_next t s 0 = (ehstrstr t s).map (fun e : ℤ => e+1)

section Attempts

variable {α : Type}

/-- A text that consists of failed attempts at `q`: each is a proper prefix of `q` and a character that
does not continue it. -/
inductive Attempts (q : List α) : List α → Prop
  | nil : Attempts q []
  | cons (k : ℕ) (c : α) (text : List α) (hk : k < q.length) (hc : c ≠ q[k]) (h : Attempts q text) :
      Attempts q (q.take k ++ c :: text)

-- A text starts with the pattern, or an attempt fails, or the text ends in it.
theorem prefix_cases (q text : List α) : q <+: text ∨
    (∃ k c rest, ∃ hk : k < q.length, c ≠ q[k] ∧ text = q.take k ++ c :: rest) ∨
    ∃ k < q.length, text = q.take k := by
  induction q generalizing text with
  | nil => exact Or.inl (List.nil_prefix)
  | cons a q ih =>
    cases text with
    | nil => exact Or.inr (Or.inr ⟨0, by simp, rfl⟩)
    | cons c text =>
      by_cases hc : c = a
      · subst hc
        rcases ih text with hpre | ⟨k, d, rest, hk, hd, rfl⟩ | ⟨k, hk, rfl⟩
        · exact Or.inl (List.prefix_cons_inj c |>.mpr hpre)
        · exact Or.inr (Or.inl ⟨k+1, d, rest, by simpa using hk, hd, rfl⟩)
        · exact Or.inr (Or.inr ⟨k+1, by simpa using hk, rfl⟩)
      · exact Or.inr (Or.inl ⟨0, c, text, by simp, hc, rfl⟩)

end Attempts

section Search

variable (str : List UInt8) (nLen : ℤ) (hit : ℕ → ℤ)

/-- The part of the pattern that the loop compares. -/
def compared (str : List UInt8) (nLen : ℤ) : List UInt8 := str.take (max 1 nLen.toNat)

variable (hlen : (compared str nLen).length = max 1 nLen.toNat)

include hlen

theorem getD_compared (k : ℕ) (hk : k < (compared str nLen).length) :
    str.getD k 0 = (compared str nLen)[k] := by
  have hstr : k < str.length := by
    have hle : (compared str nLen).length ≤ str.length := List.length_take_le' _ _
    omega
  simp [compared, List.getD_eq_getElem?_getD, hstr]

-- A prefix of the pattern is passed over.
theorem search_take (k : ℕ) (hk : k < (compared str nLen).length) (text : List UInt8) (pPos : ℕ) :
    search str nLen hit ((compared str nLen).take k ++ text) pPos 0 =
      search str nLen hit text (pPos+k) k := by
  induction k generalizing text with
  | zero => rfl
  | succ k ih =>
    have hk' : k < (compared str nLen).length := by omega
    rw [← List.take_append_getElem hk', List.append_assoc, ih hk', List.singleton_append, search,
      getD_compared str nLen hlen k hk', if_pos rfl, if_neg (by omega), Nat.add_assoc]

-- An attempt that fails costs its characters.
theorem search_fail (k : ℕ) (hk : k < (compared str nLen).length) (c : UInt8)
    (hc : c ≠ (compared str nLen)[k]) (text : List UInt8) (pPos : ℕ) :
    search str nLen hit ((compared str nLen).take k ++ c :: text) pPos 0 =
      search str nLen hit text (pPos+k+1) 0 := by
  rw [search_take str nLen hit hlen k hk, search, getD_compared str nLen hlen k hk, if_neg hc]

theorem search_hit (text : List UInt8) (pPos : ℕ) :
    search str nLen hit (compared str nLen ++ text) pPos 0 =
      some (hit (pPos+(compared str nLen).length-1)) := by
  obtain ⟨k, hk⟩ : ∃ k, (compared str nLen).length = k+1 := ⟨(compared str nLen).length-1, by omega⟩
  have hk' : k < (compared str nLen).length := by omega
  have hsplit : compared str nLen ++ text =
      (compared str nLen).take k ++ (compared str nLen)[k] :: text := by
    conv_lhs => rw [← List.take_length (l := compared str nLen), hk, ← List.take_append_getElem hk']
    rw [List.append_assoc, List.singleton_append]
  rw [hsplit, search_take str nLen hit hlen k hk', search, getD_compared str nLen hlen k hk',
    if_pos rfl, if_pos (by omega), hk]
  rfl

theorem search_attempts (pre rest : List UInt8) (h : Attempts (compared str nLen) pre) (pPos : ℕ) :
    search str nLen hit (pre ++ (compared str nLen ++ rest)) pPos 0 =
      some (hit (pPos+pre.length+(compared str nLen).length-1)) := by
  induction h generalizing pPos with
  | nil => exact search_hit str nLen hit hlen rest pPos
  | cons k c text hk hc _ ih =>
    have hpos : pPos+k+1+text.length = pPos+((compared str nLen).take k ++ c :: text).length := by
      rw [List.length_append, List.length_cons, List.length_take_of_le hk.le]
      omega
    rw [List.append_assoc, List.cons_append, search_fail str nLen hit hlen k hk c hc, ih, hpos]

-- Every text is cut into attempts until the pattern is met; the induction is on its length.
theorem attempts_or_none (text : List UInt8) (pPos : ℕ) :
    (∃ pre rest, text = pre ++ (compared str nLen ++ rest) ∧ Attempts (compared str nLen) pre) ∨
      search str nLen hit text pPos 0 = none := by
  induction hn : text.length using Nat.strong_induction_on generalizing text pPos with
  | _ n ih =>
    rcases prefix_cases (compared str nLen) text with
      ⟨rest, rfl⟩ | ⟨k, c, rest, hk, hc, rfl⟩ | ⟨k, hk, rfl⟩
    · exact Or.inl ⟨[], rest, rfl, .nil⟩
    · have hshort : rest.length < n := by
        rw [← hn, List.length_append, List.length_cons]
        omega
      rcases ih rest.length hshort rest (pPos+k+1) rfl with ⟨pre, rest', rfl, h⟩ | hnone
      · refine Or.inl ⟨_, rest', ?_, .cons k c pre hk hc h⟩
        rw [List.append_assoc, List.cons_append]
      · exact Or.inr ((search_fail str nLen hit hlen k hk c hc rest pPos).trans hnone)
    · have htake := search_take str nLen hit hlen k hk [] pPos
      rw [List.append_nil] at htake
      exact Or.inr htake

end Search

section Results

variable (t s : CString)

theorem search_map (str : List UInt8) (nLen : ℤ) (hit : ℕ → ℤ) (g : ℤ → ℤ) (text : List UInt8)
    (pPos nIdx : ℕ) : search str nLen (fun p => g (hit p)) text pPos nIdx =
      (search str nLen hit text pPos nIdx).map g := by
  induction text generalizing pPos nIdx with
  | nil => rfl
  | cons c text ih =>
    unfold search
    split_ifs
    · rfl
    · exact ih _ _
    · exact ih _ _

theorem find_zero : find t s 0 = (ehstrstr t s).map (fun e : ℤ => e+1-intLen s.chars) :=
  search_map s.chars (intLen s.chars) (fun p => p) (fun e => e+1-intLen s.chars) t.chars 0 0

theorem find_next_zero : find_next t s 0 = (ehstrstr t s).map (fun e : ℤ => e+1) :=
  search_map s.chars (intLen s.chars) (fun p => p) (fun e => e+1) t.chars 0 0

theorem intLen_eq_iff : intLen s.chars = s.strlen ↔ s.strlen < 2^31 := by
  constructor
  · intro h
    have hlt : i32 s.chars.length < 2^31 := by
      have hmod := Int.bmod_lt (x := s.chars.length) (m := 2^32) (by norm_num)
      unfold i32
      omega
    unfold intLen at h
    omega
  · exact i32_natCast _

theorem length_compared (hs : s.chars ≠ []) :
    (compared s.chars (intLen s.chars)).length = max 1 (intLen s.chars).toNat := by
  have hpos : 0 < s.chars.length := List.length_pos_of_ne_nil hs
  have hle : i32 s.chars.length ≤ s.chars.length := by
    dsimp only [i32, Int.bmod]
    split_ifs <;> omega
  rw [compared, List.length_take]
  unfold intLen
  omega

-- The line reader's search, which keeps the length as it is, agrees with this one below `2^31`.
theorem ehstrstr_eq_lines (hlen : s.strlen < 2^31) :
    ehstrstr t s = (FileLines.ehstrstr t.chars s.chars).map (fun e : ℕ => (e : ℤ)) := by
  have hloop (text : List UInt8) (pPos nIdx : ℕ) :
      search s.chars (intLen s.chars) (fun p => p) text pPos nIdx =
        (FileLines.ehstrstrFrom s.chars text nIdx pPos).map (fun e : ℕ => (e : ℤ)) := by
    induction text generalizing pPos nIdx with
    | nil => rfl
    | cons c text ih =>
      have hcond : intLen s.chars ≤ nIdx+1 ↔ s.chars.length ≤ nIdx+1 := by
        rw [(intLen_eq_iff s).mpr hlen]
        exact_mod_cast Iff.rfl
      unfold search FileLines.ehstrstrFrom
      simp only [hcond]
      split_ifs
      · rfl
      · exact ih _ _
      · exact ih _ _
  exact hloop t.chars 0 0

theorem ehstrstr_eq_some (hs : s.chars ≠ []) (pre rest : List UInt8)
    (ht : t.chars = pre ++ (compared s.chars (intLen s.chars) ++ rest))
    (h : Attempts (compared s.chars (intLen s.chars)) pre) :
    ehstrstr t s = some ((pre.length+(compared s.chars (intLen s.chars)).length-1 : ℕ) : ℤ) := by
  have hrun := search_attempts s.chars (intLen s.chars) (fun p => p) (length_compared s hs) pre rest h 0
  rw [Nat.zero_add] at hrun
  rw [ehstrstr, ht, hrun]

theorem ehstrstr_eq_none_iff (hs : s.chars ≠ []) : ehstrstr t s = none ↔
    ¬∃ pre rest, t.chars = pre ++ (compared s.chars (intLen s.chars) ++ rest) ∧
      Attempts (compared s.chars (intLen s.chars)) pre := by
  constructor
  · rintro hnone ⟨pre, rest, ht, h⟩
    rw [ehstrstr_eq_some t s hs pre rest ht h] at hnone
    cases hnone
  · intro hno
    rcases attempts_or_none s.chars (intLen s.chars) (fun p => p) (length_compared s hs) t.chars 0
      with hex | hnone
    · exact absurd hex hno
    · exact hnone

theorem compared_eq (hlen : s.strlen < 2^31) : compared s.chars (intLen s.chars) = s.chars := by
  rw [compared, (intLen_eq_iff s).mpr hlen, List.take_of_length_le]
  exact le_max_right _ _

theorem FirstAt.unique (str text : List UInt8) (o o' : ℕ) (h : FirstAt str text o)
    (h' : FirstAt str text o') : o = o' := by
  rcases lt_trichotomy o o' with hlt | heq | hgt
  · exact absurd h.1 (h'.2 o hlt)
  · exact heq
  · exact absurd h'.1 (h.2 o' hgt)

-- A search that ends with an occurrence has only failed before it.
theorem attempts_of_ehstrstr (hs : s.chars ≠ []) (hlen : s.strlen < 2^31) (o : ℕ)
    (hrun : ehstrstr t s = some ((o+s.strlen-1 : ℕ) : ℤ)) : Attempts s.chars (t.chars.take o) := by
  have hpos : 0 < s.strlen := List.length_pos_of_ne_nil hs
  have hmet : ∃ pre rest, t.chars = pre ++ (compared s.chars (intLen s.chars) ++ rest) ∧
      Attempts (compared s.chars (intLen s.chars)) pre := by
    by_contra hno
    rw [(ehstrstr_eq_none_iff t s hs).mpr hno] at hrun
    cases hrun
  obtain ⟨pre, rest, ht, hatt⟩ := hmet
  rw [ehstrstr_eq_some t s hs pre rest ht hatt, compared_eq s hlen, Option.some.injEq] at hrun
  rw [compared_eq s hlen] at hatt
  have hchars : s.chars.length = s.strlen := rfl
  have hpre : pre.length = o := by
    omega
  rw [← hpre, ht, List.take_left]
  exact hatt

-- An occurrence behind failed attempts is met.
theorem ehstrstr_of_attempts (hs : s.chars ≠ []) (hlen : s.strlen < 2^31) (o : ℕ)
    (hocc : s.chars <+: t.chars.drop o) (hatt : Attempts s.chars (t.chars.take o)) :
    ehstrstr t s = some ((o+s.strlen-1 : ℕ) : ℤ) := by
  obtain ⟨rest, hrest⟩ := hocc
  have hle : o ≤ t.chars.length := by
    by_contra hgt
    rw [List.drop_eq_nil_of_le (by omega)] at hrest
    exact hs (List.append_eq_nil_iff.mp hrest).1
  have ht : t.chars = t.chars.take o ++ (compared s.chars (intLen s.chars) ++ rest) := by
    rw [compared_eq s hlen, hrest, List.take_append_drop]
  have hrun := ehstrstr_eq_some t s hs _ rest ht (by rw [compared_eq s hlen]; exact hatt)
  rw [compared_eq s hlen, List.length_take_of_le hle] at hrun
  exact hrun

/-- The search is right exactly for the patterns that do not occur and are not met, and for those that
are short enough for an `int` and have nothing but failed attempts before their first occurrence. -/
theorem findsFirst_iff (hs : s.chars ≠ []) : FindsFirst t s ↔
    ((∀ o, ¬s.chars <+: t.chars.drop o) ∧
      ¬∃ pre rest, t.chars = pre ++ (compared s.chars (intLen s.chars) ++ rest) ∧
        Attempts (compared s.chars (intLen s.chars)) pre) ∨
    (s.strlen < 2^31 ∧ ∃ o, FirstAt s.chars t.chars o ∧ Attempts s.chars (t.chars.take o)) := by
  have hpos : 0 < s.strlen := List.length_pos_of_ne_nil hs
  have hlast (o : ℕ) : (o : ℤ)+s.strlen-1 = ((o+s.strlen-1 : ℕ) : ℤ) := by
    omega
  constructor
  · rintro ⟨hsome, hnone, hfind, -⟩
    by_cases hocc : ∃ o, s.chars <+: t.chars.drop o
    · have hfirst : FirstAt s.chars t.chars (Nat.find hocc) :=
        ⟨Nat.find_spec hocc, fun i hi => Nat.find_min hocc hi⟩
      have hrun := hsome _ hfirst
      have hlen : s.strlen < 2^31 := by
        rw [find_zero, hrun, Option.map_some, Option.map_some, Option.some.injEq] at hfind
        apply (intLen_eq_iff s).mp
        omega
      rw [hlast] at hrun
      exact Or.inr ⟨hlen, _, hfirst, attempts_of_ehstrstr t s hs hlen _ hrun⟩
    · have hno : ∀ o, ¬s.chars <+: t.chars.drop o := fun o ho => hocc ⟨o, ho⟩
      exact Or.inl ⟨hno, (ehstrstr_eq_none_iff t s hs).mp (hnone hno)⟩
  · rintro (⟨hno, hmet⟩ | ⟨hlen, o, hfirst, hatt⟩)
    · have hrun := (ehstrstr_eq_none_iff t s hs).mpr hmet
      refine ⟨fun o ho => absurd ho.1 (hno o), fun _ => hrun, ?_, find_next_zero t s⟩
      rw [find_zero, hrun, Option.map_none, Option.map_none]
    · refine ⟨?_, ?_, ?_, find_next_zero t s⟩
      · intro o' ho'
        rw [ho'.unique _ _ o' o hfirst, ehstrstr_of_attempts t s hs hlen o hfirst.1 hatt, hlast]
      · intro hno
        exact absurd hfirst.1 (hno o)
      · rw [find_zero, (intLen_eq_iff s).mpr hlen]

theorem findsFirst_iff_overlap : ([97, 97] : List UInt8) ≠ [] ∧
    FindsFirst ⟨[97, 98, 97, 97], by decide⟩ ⟨[97, 97], by decide⟩ := by
  refine ⟨by decide, (findsFirst_iff _ _ (by decide)).mpr (Or.inr ⟨by decide, 2, by decide, ?_⟩)⟩
  exact .cons 1 98 [] (by decide) (by decide) .nil

-- The scan does not go back to the second `a` of `aab` to look for `ab`.
theorem not_findsFirst_aab :
    ¬FindsFirst ⟨[97, 97, 98], by decide⟩ ⟨[97, 98], by decide⟩ := by
  intro h
  have hrun := h.1 1 (by decide)
  have hnone : ehstrstr ⟨[97, 97, 98], by decide⟩ ⟨[97, 98], by decide⟩ = none := by
    decide
  rw [hnone] at hrun
  cases hrun

theorem search_shift (str : List UInt8) (nLen : ℤ) (hit : ℕ → ℤ) (text : List UInt8)
    (d pPos nIdx : ℕ) : search str nLen hit text (d+pPos) nIdx =
      search str nLen (fun p => hit (d+p)) text pPos nIdx := by
  induction text generalizing pPos nIdx with
  | nil => rfl
  | cons c text ih =>
    unfold search
    split_ifs
    · rfl
    · exact ih (pPos+1) (nIdx+1)
    · exact ih (pPos+1) 0

-- A search from an index on is a search in the rest of the text.
theorem find_index (index : ℕ) : find t s index = (find ⟨t.chars.drop index, fun h =>
    t.noNul (List.mem_of_mem_drop h)⟩ s 0).map (fun e : ℤ => index+e) := by
  have hshift := search_shift s.chars (intLen s.chars) (fun p => p+1-intLen s.chars)
    (t.chars.drop index) index 0 0
  have hhit : (fun p : ℕ => ((index+p : ℕ) : ℤ)+1-intLen s.chars) =
      fun p : ℕ => (index : ℤ)+(p+1-intLen s.chars) := by
    funext p
    push_cast
    ring
  rw [Nat.add_zero, hhit, search_map] at hshift
  exact hshift

end Results

end CmString

end Leviathan
