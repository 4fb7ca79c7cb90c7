import Leviathan.CTypes
import Mathlib.Data.List.Infix

/-! `getIntValue` (LogAnalyzer, Utility.cpp): the number in brackets behind a keyword of a log line.  A
position in a text is what is left of the text from there on. -/
namespace Leviathan.IntValue

section Model

/-- `IS_DIGIT`. -/
def isDigit (ch : UInt8) : Bool := 48 ≤ ch && ch ≤ 57

/-- `IS_NDIGIT`: there is a character that is no digit. -/
def isNDigit (p : List UInt8) : Bool := p.any (fun ch => !isDigit ch)

def strstr (pKey : List UInt8) : List UInt8 → Option (List UInt8)
  | [] => if pKey = [] then some [] else none
  | c :: text => if pKey.isPrefixOf (c :: text) then some (c :: text) else strstr pKey text

def strchr (ch : UInt8) : List UInt8 → Option (List UInt8)
  | [] => none
  | c :: text => if c = ch then some (c :: text) else strchr ch text

/-- The number that digits spell. -/
def number (digits : List UInt8) : ℕ := digits.foldl (fun n c => n*10+(c.toNat-48)) 0

def sizeofSzBuf : ℕ := 24

-- what `atoi` answers for a number that no `int` holds
variable (atoiOver : List UInt8 → ℤ)

def atoi (digits : List UInt8) : ℤ := if number digits < 2^31 then number digits else atoiOver digits

/-- What is answered for the text in `szBuf`. -/
def valueOf (szBuf : List UInt8) : ℤ := if isNDigit szBuf then -1 else atoi atoiOver szBuf

/-- What `getIntValue` does from the key on. -/
def valueFrom (p : List UInt8) : Except Fault ℤ :=
  match strchr 91 p with
  -- `NULL + 1` is given to the next `strchr`
  | none => .error .nullRead
  | some p =>
    let p := p.tail
    match strchr 93 p with
    | none => .ok (-1)
    | some p2 =>
      let nLen := i32 ((p.length : ℤ)-p2.length)
      if 0 ≤ nLen ∧ nLen < sizeofSzBuf then .ok (valueOf atoiOver (p.take nLen.toNat))
      else .error .outOfBounds

def getIntValue (pSorceString pKey : List UInt8) : Except Fault ℤ :=
  match strstr pKey pSorceString with
  | none => .ok (-1)
  | some p => valueFrom atoiOver p

end Model

/-- `w` is the text between the first `[` of a text and the next `]`. -/
def Bracketed (text w : List UInt8) : Prop :=
  ∃ u v, text = u ++ 91 :: (w ++ 93 :: v) ∧ 91 ∉ u ∧ 93 ∉ w

/-- `post` is what follows the first occurrence of `key` in a line. -/
def Behind (line key post : List UInt8) : Prop :=
  ∃ pre, line = pre ++ (key ++ post) ∧ ∀ o < pre.length, ¬key <+: line.drop o

/-- `r` is -1 where no text in brackets follows or it is no number, and the number it spells where an `int`
holds that. -/
structure Answers (post : List UInt8) (r : ℤ) : Prop where
  missing : (¬∃ w, Bracketed post w) → r = -1
  text : ∀ w, Bracketed post w → isNDigit w = true → r = -1
  digits : ∀ w, Bracketed post w → isNDigit w = false → number w < 2^31 → r = number w

section Digits

theorem isDigit_of_isNDigit (digits : List UInt8) (h : isNDigit digits = false) (c : UInt8)
    (hc : c ∈ digits) : 48 ≤ c.toNat ∧ c.toNat ≤ 57 := by
  rw [isNDigit, List.any_eq_false] at h
  simpa [isDigit, UInt8.le_iff_toNat_le] using h c hc

theorem number_lt (digits : List UInt8) (h : isNDigit digits = false) : number digits < 10^digits.length := by
  have hfrom (ds : List UInt8) (n : ℕ) (hd : ∀ c ∈ ds, c.toNat ≤ 57) :
      ds.foldl (fun n c => n*10+(c.toNat-48)) n < (n+1)*10^ds.length := by
    induction ds generalizing n with
    | nil => simp
    | cons c ds ih =>
      have hc := hd c List.mem_cons_self
      rw [List.foldl_cons, List.length_cons]
      calc
        ds.foldl (fun n c => n*10+(c.toNat-48)) (n*10+(c.toNat-48))
          < (n*10+(c.toNat-48)+1)*10^ds.length := ih _ (fun d hd' => hd d (List.mem_cons_of_mem c hd'))
        _ ≤ ((n+1)*10)*10^ds.length := by
          apply Nat.mul_le_mul_right
          omega
        _ = (n+1)*10^(ds.length+1) := by
          rw [pow_succ]
          ring
  have hall := hfrom digits 0 (fun c hc => (isDigit_of_isNDigit digits h c hc).2)
  rwa [Nat.zero_add, Nat.one_mul] at hall

end Digits

section Search

variable (key text : List UInt8) (ch : UInt8)

theorem strchr_eq_none_iff : strchr ch text = none ↔ ch ∉ text := by
  induction text with
  | nil => exact iff_of_true rfl List.not_mem_nil
  | cons c text ih =>
    rw [strchr]
    by_cases hc : c = ch
    · subst hc
      rw [if_pos rfl]
      exact iff_of_false (Option.some_ne_none _) (fun h => h List.mem_cons_self)
    · rw [if_neg hc, ih, List.mem_cons, not_or]
      exact (and_iff_right (Ne.symm hc)).symm

theorem strchr_append (u v : List UInt8) (hu : ch ∉ u) : strchr ch (u ++ ch :: v) = some (ch :: v) := by
  induction u with
  | nil => exact if_pos rfl
  | cons c u ih =>
    rw [List.mem_cons, not_or] at hu
    rw [List.cons_append, strchr, if_neg (Ne.symm hu.1)]
    exact ih hu.2

theorem occurs_at (line pre post : List UInt8) (h : line = pre ++ (key ++ post)) :
    key <+: line.drop pre.length := by
  rw [h, List.drop_left]
  exact List.prefix_append key post

-- What a search finds is the first occurrence.
theorem strstr_spec (line : List UInt8) :
    (strstr key line = none → ∀ o, ¬key <+: line.drop o) ∧
    ∀ p, strstr key line = some p → ∃ post, p = key ++ post ∧ Behind line key post := by
  induction line with
  | nil =>
    rw [strstr]
    split_ifs with hkey
    · apply And.intro False.elim
      intro p hp
      refine ⟨[], ?_, [], ?_, fun o ho => absurd ho (Nat.not_lt_zero o)⟩
      · rw [← Option.some.inj hp, hkey, List.append_nil]
      · rw [hkey]
        rfl
    · apply And.intro _ (fun p => False.elim)
      intro _ o ho
      rw [List.drop_nil, List.prefix_nil] at ho
      exact hkey ho
  | cons c line ih =>
    rw [strstr]
    split_ifs with hkey
    · apply And.intro False.elim
      intro p hp
      obtain ⟨post, hpost⟩ := List.isPrefixOf_iff_prefix.mp hkey
      rw [← Option.some.inj hp]
      exact ⟨post, hpost.symm, [], hpost.symm, fun o ho => absurd ho (Nat.not_lt_zero o)⟩
    · have hc : ¬key <+: c :: line := fun h => hkey (List.isPrefixOf_iff_prefix.mpr h)
      constructor
      · intro h o
        cases o with
        | zero => exact hc
        | succ o => exact ih.1 h o
      · intro p hp
        obtain ⟨post, hpost, pre, hline, hfirst⟩ := ih.2 p hp
        refine ⟨post, hpost, c :: pre, congrArg (List.cons c) hline, ?_⟩
        intro o ho
        cases o with
        | zero => exact hc
        | succ o => exact hfirst o (Nat.lt_of_succ_lt_succ ho)

theorem strstr_eq_none_iff (line : List UInt8) :
    strstr key line = none ↔ ∀ o, ¬key <+: line.drop o := by
  apply Iff.intro (strstr_spec key line).1
  intro h
  by_contra hne
  obtain ⟨p, hp⟩ := Option.ne_none_iff_exists'.mp hne
  obtain ⟨post, -, pre, hline, -⟩ := (strstr_spec key line).2 p hp
  exact h pre.length (occurs_at key line pre post hline)

theorem behind_unique (line post post' : List UInt8) (h : Behind line key post)
    (h' : Behind line key post') : post = post' := by
  obtain ⟨pre, hline, hfirst⟩ := h
  obtain ⟨pre', hline', hfirst'⟩ := h'
  have hlen : pre.length = pre'.length := by
    apply Nat.le_antisymm
    · exact not_lt.mp (fun hlt => hfirst _ hlt (occurs_at key line pre' post' hline'))
    · exact not_lt.mp (fun hlt => hfirst' _ hlt (occurs_at key line pre post hline))
  have hrest := (List.append_inj (hline.symm.trans hline') hlen).2
  exact List.append_cancel_left hrest

theorem strstr_of_behind (line post : List UInt8) (h : Behind line key post) :
    strstr key line = some (key ++ post) := by
  have hne : strstr key line ≠ none := by
    intro hnone
    obtain ⟨pre, hline, -⟩ := h
    exact (strstr_eq_none_iff key line).mp hnone pre.length (occurs_at key line pre post hline)
  obtain ⟨p, hp⟩ := Option.ne_none_iff_exists'.mp hne
  obtain ⟨post', hp', hbehind⟩ := (strstr_spec key line).2 p hp
  rw [hp, hp', behind_unique key line post post' h hbehind]

end Search

section Brackets

variable (text : List UInt8)

theorem bracketed_unique (w w' : List UInt8) (h : Bracketed text w) (h' : Bracketed text w') :
    w = w' := by
  obtain ⟨u, v, htext, hu, hw⟩ := h
  obtain ⟨u', v', htext', hu', hw'⟩ := h'
  have hrest : w ++ 93 :: v = w' ++ 93 :: v' := by
    have hopen := strchr_append 91 u (w ++ 93 :: v) hu
    rw [← htext, htext', strchr_append 91 u' _ hu', Option.some.injEq, List.cons_inj_right] at hopen
    exact hopen.symm
  have hend : 93 :: v = 93 :: v' := by
    have hclose := strchr_append 93 w v hw
    rw [hrest, strchr_append 93 w' v' hw', Option.some.injEq] at hclose
    exact hclose.symm
  rw [hend] at hrest
  exact List.append_cancel_right hrest

-- No bracket opens, or the one that opens first is not closed, or there is a text in brackets.
theorem bracketed_cases : 91 ∉ text ∨
    (∃ u rest, text = u ++ 91 :: rest ∧ 91 ∉ u ∧ 93 ∉ rest) ∨ ∃ w, Bracketed text w := by
  by_cases hopen : 91 ∈ text
  · obtain ⟨u, rest, htext, hu⟩ := List.eq_append_cons_of_mem hopen
    right
    by_cases hclose : 93 ∈ rest
    · obtain ⟨w, v, hrest, hw⟩ := List.eq_append_cons_of_mem hclose
      exact Or.inr ⟨w, u, v, htext.trans (by rw [hrest]), hu, hw⟩
    · exact Or.inl ⟨u, rest, htext, hu, hclose⟩
  · exact Or.inl hopen

theorem bracketed_append (key w : List UInt8) (h : Bracketed text w) :
    ∃ w', Bracketed (key ++ text) w' := by
  obtain ⟨u, v, htext, hu, hw⟩ := h
  have hmem : (91 : UInt8) ∈ key ++ u ++ [91] := by simp
  obtain ⟨u', rest, heq, hu'⟩ := List.eq_append_cons_of_mem hmem
  have hclose : (93 : UInt8) ∈ rest ++ (w ++ 93 :: v) := by simp
  obtain ⟨w', v', hrest, hw'⟩ := List.eq_append_cons_of_mem hclose
  refine ⟨w', u', v', ?_, hu', hw'⟩
  calc
    key ++ text = key ++ u ++ [91] ++ (w ++ 93 :: v) := by
      rw [htext]
      simp only [List.append_assoc, List.cons_append, List.nil_append]
    _ = u' ++ 91 :: (w' ++ 93 :: v') := by
      rw [heq, ← hrest, List.append_assoc, List.cons_append]

theorem bracketed_append_iff (key w : List UInt8) (hkey : 91 ∉ key) :
    Bracketed (key ++ text) w ↔ Bracketed text w := by
  have behind (w : List UInt8) (h : Bracketed text w) : Bracketed (key ++ text) w := by
    obtain ⟨u, v, htext, hu, hw⟩ := h
    refine ⟨key ++ u, v, ?_, ?_, hw⟩
    · rw [htext, List.append_assoc]
    · rw [List.mem_append, not_or]
      exact ⟨hkey, hu⟩
  apply Iff.intro _ (behind w)
  rintro ⟨u, v, htext, hu, hw⟩
  rcases List.append_eq_append_iff.mp htext with ⟨a, hua, hta⟩ | ⟨a, hkeya, hta⟩
  · refine ⟨a, v, hta, fun h => hu ?_, hw⟩
    rw [hua]
    exact List.mem_append_right key h
  · cases a with
    | nil => exact ⟨[], v, hta.symm, List.not_mem_nil, hw⟩
    | cons c a =>
      rw [List.cons_append, List.cons.injEq] at hta
      apply absurd _ hkey
      rw [hkeya, hta.1]
      exact List.mem_append_right u List.mem_cons_self

end Brackets

/-- `read` is the number in brackets behind a key, digit for digit or not; where that is none, or has other
characters, `read` has them too. -/
structure SameNumber (post read : List UInt8) : Prop where
  missing : (¬∃ w, Bracketed post w) → isNDigit read = true
  text : ∀ w, Bracketed post w → isNDigit w = true → isNDigit read = true
  digits : ∀ w, Bracketed post w → isNDigit w = false → number w < 2^31 →
    isNDigit read = false ∧ number read = number w

/-- The line from the key on, the key included, has a `[`; the text from there to the next `]`, if any, fits
`szBuf`; and it is the number behind the key, which a bracket in the key may hide. -/
structure Readable (key post : List UInt8) : Prop where
  opening : 91 ∈ key ++ post
  short : ∀ w, Bracketed (key ++ post) w → 0 ≤ i32 w.length ∧ i32 w.length < sizeofSzBuf
  same : ∀ w, Bracketed (key ++ post) w → SameNumber post (w.take (i32 w.length).toNat)

/-- `getIntValue` returns, with -1 where the key does not occur, and else with what the text behind its
first occurrence says. -/
def Right (line key : List UInt8) : Prop :=
  ∀ atoiOver : List UInt8 → ℤ, ∃ r, getIntValue atoiOver line key = .ok r ∧
    ((∀ o, ¬key <+: line.drop o) → r = -1) ∧ ∀ post, Behind line key post → Answers post r

section Value

variable (atoiOver : List UInt8 → ℤ) (key post text w : List UInt8)

theorem valueFrom_unopened (h : 91 ∉ text) : valueFrom atoiOver text = .error .nullRead := by
  rw [valueFrom, (strchr_eq_none_iff text 91).mpr h]

theorem valueFrom_unclosed (u : List UInt8) (hu : 91 ∉ u) (h : 93 ∉ text) :
    valueFrom atoiOver (u ++ 91 :: text) = .ok (-1) := by
  rw [valueFrom, strchr_append 91 u text hu]
  dsimp only
  rw [List.tail_cons, (strchr_eq_none_iff text 93).mpr h]

theorem valueFrom_bracketed (h : Bracketed text w) : valueFrom atoiOver text =
    if 0 ≤ i32 w.length ∧ i32 w.length < sizeofSzBuf then
      .ok (valueOf atoiOver (w.take (i32 w.length).toNat)) else .error .outOfBounds := by
  obtain ⟨u, v, rfl, hu, hw⟩ := h
  rw [valueFrom, strchr_append 91 u _ hu]
  dsimp only
  rw [List.tail_cons, strchr_append 93 w v hw]
  dsimp only
  have hlen : (((w ++ 93 :: v).length : ℕ) : ℤ)-((93 :: v).length : ℕ) = w.length := by
    rw [List.length_append]
    push_cast
    ring
  rw [hlen]
  apply ite_congr rfl _ (fun _ => rfl)
  intro hfit
  have hle : (i32 w.length).toNat ≤ w.length := by
    have hi := i32_le w.length (Int.natCast_nonneg _)
    omega
  rw [List.take_append_of_le_length hle]

theorem valueOf_digits (h : isNDigit w = false) (hint : number w < 2^31) :
    valueOf atoiOver w = number w := by
  rw [valueOf, h, if_neg Bool.false_ne_true, atoi, if_pos hint]

-- Whatever `atoi` answers beyond the range of `int`, the value of a text is the answer for what is behind
-- the key exactly when the text is the same number.
theorem answers_valueOf_iff (read : List UInt8) :
    (∀ atoiOver, Answers post (valueOf atoiOver read)) ↔ SameNumber post read := by
  constructor
  · intro h
    have hnone (h0 : valueOf (fun _ => 0) read = -1) : isNDigit read = true := by
      by_contra hd
      rw [valueOf, if_neg hd, atoi] at h0
      split_ifs at h0
    refine ⟨fun hm => hnone ((h _).missing hm), fun w hw ht => hnone ((h _).text w hw ht), ?_⟩
    intro w hw hd hint
    have hval := (h (fun _ => -1)).digits w hw hd hint
    have hpos := Int.natCast_nonneg (number w)
    rw [valueOf] at hval
    by_cases hr : isNDigit read = true
    · rw [if_pos hr] at hval
      omega
    rw [if_neg hr, atoi] at hval
    by_cases hover : number read < 2^31
    · rw [if_pos hover] at hval
      exact ⟨Bool.eq_false_of_not_eq_true hr, by exact_mod_cast hval⟩
    · rw [if_neg hover] at hval
      omega
  · intro h atoiOver
    have hnone (hr : isNDigit read = true) : valueOf atoiOver read = -1 := if_pos hr
    refine ⟨fun hm => hnone (h.missing hm), fun w hw ht => hnone (h.text w hw ht), ?_⟩
    intro w hw hd hint
    obtain ⟨hr, heq⟩ := h.digits w hw hd hint
    rw [valueOf_digits atoiOver read hr (by rw [heq]; exact hint), heq]

-- A bracket that is not closed leaves nothing to read, in the key or behind it.
theorem not_bracketed_unclosed (u rest : List UInt8) (hu : 91 ∉ u) (hrest : 93 ∉ rest) :
    ¬∃ w, Bracketed (u ++ 91 :: rest) w := by
  rintro ⟨w, u', v, htext, hu', hw⟩
  have hopen := strchr_append 91 u rest hu
  rw [htext, strchr_append 91 u' _ hu', Option.some.injEq, List.cons_inj_right] at hopen
  apply hrest
  rw [← hopen]
  exact List.mem_append_right w List.mem_cons_self

theorem Bracketed.opening (h : Bracketed text w) : 91 ∈ text := by
  obtain ⟨u, v, htext, -⟩ := h
  rw [htext]
  exact List.mem_append_right u List.mem_cons_self

theorem readable_iff_sameNumber (h : Bracketed (key ++ post) w)
    (hfit : 0 ≤ i32 w.length ∧ i32 w.length < sizeofSzBuf) :
    Readable key post ↔ SameNumber post (w.take (i32 w.length).toNat) := by
  constructor
  · exact fun hr => hr.same w h
  · intro hsame
    refine ⟨h.opening _ _, fun w' hw' => ?_, fun w' hw' => ?_⟩
    · rw [bracketed_unique _ w' w hw' h]
      exact hfit
    · rw [bracketed_unique _ w' w hw' h]
      exact hsame

theorem answers_valueFrom_iff :
    (∀ atoiOver, ∃ r, valueFrom atoiOver (key ++ post) = .ok r ∧ Answers post r) ↔ Readable key post := by
  have faults (f : Fault) (hf : valueFrom (fun _ => 0) (key ++ post) = .error f) :
      ¬∀ atoiOver, ∃ r, valueFrom atoiOver (key ++ post) = .ok r ∧ Answers post r := by
    intro h
    obtain ⟨r, hr, -⟩ := h (fun _ => 0)
    rw [hf] at hr
    cases hr
  rcases bracketed_cases (key ++ post) with hopen | ⟨u, rest, htext, hu, hrest⟩ | ⟨w, hw⟩
  · exact iff_of_false (faults _ (valueFrom_unopened _ _ hopen)) (fun h => hopen h.opening)
  · have hnone : ¬∃ w, Bracketed (key ++ post) w := by
      rw [htext]
      exact not_bracketed_unclosed u rest hu hrest
    have hpost (w : List UInt8) (h : Bracketed post w) : False := hnone (bracketed_append post key w h)
    apply iff_of_true
    · intro atoiOver
      refine ⟨-1, ?_, fun _ => rfl, fun w hw _ => rfl, fun w hw _ _ => (hpost w hw).elim⟩
      rw [htext, valueFrom_unclosed atoiOver rest u hu hrest]
    · refine ⟨?_, fun w hw => absurd ⟨w, hw⟩ hnone, fun w hw => absurd ⟨w, hw⟩ hnone⟩
      rw [htext]
      exact List.mem_append_right u List.mem_cons_self
  · have hfrom (atoiOver : List UInt8 → ℤ) := valueFrom_bracketed atoiOver (key ++ post) w hw
    by_cases hfit : 0 ≤ i32 w.length ∧ i32 w.length < sizeofSzBuf
    · rw [readable_iff_sameNumber key post w hw hfit, ← answers_valueOf_iff]
      apply forall_congr'
      intro atoiOver
      rw [hfrom, if_pos hfit]
      simp only [Except.ok.injEq, exists_eq_left']
    · apply iff_of_false (faults .outOfBounds _) (fun h => hfit (h.short w hw))
      rw [hfrom, if_neg hfit]

-- A key without a bracket in a line shorter than 2^31: only what is behind it counts.
theorem readable_iff (hkey : 91 ∉ key) (hpost : post.length < 2^31) : Readable key post ↔
    91 ∈ post ∧ ∀ w, Bracketed post w → w.length < sizeofSzBuf := by
  have hlen (w : List UInt8) (h : Bracketed post w) : i32 w.length = w.length := by
    obtain ⟨u, v, htext, -⟩ := h
    apply i32_natCast
    rw [htext] at hpost
    simp only [List.length_append, List.length_cons] at hpost
    omega
  have hmem : 91 ∈ key ++ post ↔ 91 ∈ post := by
    rw [List.mem_append]
    exact or_iff_right hkey
  have hiff (w : List UInt8) := bracketed_append_iff post key w hkey
  constructor
  · intro h
    refine ⟨hmem.mp h.opening, fun w hw => ?_⟩
    have hshort := (h.short w ((hiff w).mpr hw)).2
    rw [hlen w hw] at hshort
    exact_mod_cast hshort
  · rintro ⟨hopen, hshort⟩
    refine ⟨hmem.mpr hopen, fun w hw => ?_, fun w hw => ?_⟩
    · rw [hiff] at hw
      rw [hlen w hw]
      exact ⟨Int.natCast_nonneg _, by exact_mod_cast hshort w hw⟩
    · rw [hiff] at hw
      rw [hlen w hw, Int.toNat_natCast, List.take_length]
      refine ⟨fun hm => absurd ⟨w, hw⟩ hm, fun w' hw' ht => ?_, fun w' hw' hd _ => ?_⟩
      · rwa [bracketed_unique post w w' hw hw']
      · rw [bracketed_unique post w w' hw hw']
        exact ⟨hd, rfl⟩

end Value

/-- `getIntValue` is right exactly when the line is readable from the first occurrence of the key on. -/
theorem getIntValue_right_iff (line key : CString) : Right line.chars key.chars ↔
    ∀ post, Behind line.chars key.chars post → Readable key.chars post := by
  obtain ⟨line, -⟩ := line
  obtain ⟨key, -⟩ := key
  dsimp only
  by_cases hocc : ∃ post, Behind line key post
  · obtain ⟨post, hpost⟩ := hocc
    have hstr := strstr_of_behind key line post hpost
    have hsome : ¬∀ o, ¬key <+: line.drop o := by
      rw [← strstr_eq_none_iff, hstr]
      exact Option.some_ne_none _
    have hall (P : List UInt8 → Prop) : (∀ post, Behind line key post → P post) ↔ P post := by
      apply Iff.intro (fun h => h post hpost)
      intro h post' hpost'
      rwa [behind_unique key line post' post hpost' hpost]
    rw [hall, ← answers_valueFrom_iff]
    apply forall_congr'
    intro atoiOver
    apply exists_congr
    intro r
    rw [hall, getIntValue, hstr, and_iff_right (fun h => absurd h hsome)]
  · have hnone : strstr key line = none := by
      by_contra hne
      obtain ⟨p, hp⟩ := Option.ne_none_iff_exists'.mp hne
      obtain ⟨post, -, hpost⟩ := (strstr_spec key line).2 p hp
      exact hocc ⟨post, hpost⟩
    apply iff_of_true
    · intro atoiOver
      refine ⟨-1, ?_, fun _ => rfl, fun post hpost => absurd ⟨post, hpost⟩ hocc⟩
      rw [getIntValue, hnone]
    · exact fun post hpost => absurd ⟨post, hpost⟩ hocc

-- a line that ends in its key, and 24 digits in brackets
theorem not_right_unbracketed :
    ¬Right [110] [110] ∧ ¬Right (110 :: 91 :: (List.replicate 24 48 ++ [93])) [110] := by
  constructor
  · intro h
    obtain ⟨r, hr, -⟩ := h (fun _ => 0)
    have hfault : getIntValue (fun _ => 0) [110] [110] = .error .nullRead := rfl
    rw [hfault] at hr
    cases hr
  · intro h
    obtain ⟨r, hr, -⟩ := h (fun _ => 0)
    have hfault : getIntValue (fun _ => 0) (110 :: 91 :: (List.replicate 24 48 ++ [93])) [110] =
      .error .outOfBounds := rfl
    rw [hfault] at hr
    cases hr

end Leviathan.IntValue
