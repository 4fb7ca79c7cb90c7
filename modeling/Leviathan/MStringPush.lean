import Leviathan.MString

/-! `push_back` and `pop_back` of `CmString`: one stores over the terminator, the other over the last
character. -/
namespace Leviathan.CmString

open Buffers

section Model

variable (s : CmString)

/-- The byte of the buffer at an index. -/
def byte (i : ℕ) : UInt8 := (s.m_pValue.getD []).getD i 0

/-- `push_back` and `pop_back` on a string in their domain: the old text and one character more, the old
text without its last character. -/
def Right (a : Call × (ℕ → UInt8)) : Prop :=
  match a.1, s.c_str with
  | .push_back c, .ok str =>
    c ≠ 0 → str.length+1 < s.bytes → (s.push_back c >>= c_str) = .ok (str ++ [c])
  | .pop_back, .ok str => str ≠ [] → (s.pop_back >>= c_str) = .ok str.dropLast
  | _, _ => True

/-- `push_back` finds a NUL behind the terminator. -/
def NulBehind (a : Call × (ℕ → UInt8)) : Prop :=
  match a.1, s.c_str with
  | .push_back c, .ok str => c ≠ 0 → str.length+1 < s.bytes → s.byte (str.length+1) = 0
  | _, _ => True

/-- `push_back` has a character and room for it, `pop_back` has a character to remove. -/
def InDomain (a : Call × (ℕ → UInt8)) : Prop :=
  match a.1, s.c_str with
  | .push_back c, .ok str => c ≠ 0 ∧ str.length+1 < s.bytes
  | .pop_back, .ok str => str ≠ []
  | _, _ => True

/-- The string shows `str`, or has no buffer. -/
def Shows (str : List UInt8) : Prop := ∀ buf, s.m_pValue = some buf → text buf = .ok str

end Model

section Step

variable (s s' : CmString) (fill : ℕ → UInt8) (str rest : List UInt8) (c : UInt8)

theorem push_back_eq (hbuf : s.m_pValue = some (str ++ 0 :: rest)) (hno : 0 ∉ str) :
    s.push_back c = .ok { s with m_pValue := some (str ++ c :: rest) } := by
  have hput : store (str ++ 0 :: rest) str.length [c] = .ok (str ++ [c] ++ rest) :=
    store_append (0 :: rest) str [c] str.length rfl (Nat.succ_pos _)
  rw [push_back, hbuf]
  dsimp only
  rw [text_append rest str hno, ok_bind, hput, ok_bind, List.append_assoc, List.singleton_append]
  rfl

theorem pop_back_eq (hbuf : s.m_pValue = some (str ++ 0 :: rest)) (hno : 0 ∉ str) (hne : str ≠ []) :
    s.pop_back = .ok { s with m_pValue := some (str.dropLast ++ 0 :: 0 :: rest) } := by
  have hpos := List.length_pos_of_ne_nil hne
  have hlen : ((str.length : ℤ)-1) = str.dropLast.length := by
    rw [List.length_dropLast]
    omega
  have hsplit : str ++ 0 :: rest = str.dropLast ++ str.getLast hne :: 0 :: rest := by
    calc
      str ++ 0 :: rest = (str.dropLast ++ [str.getLast hne]) ++ 0 :: rest := by
        rw [List.dropLast_append_getLast hne]
      _ = str.dropLast ++ str.getLast hne :: 0 :: rest := by
        rw [List.append_assoc, List.singleton_append]
  have hput : store (str ++ 0 :: rest) ((str.length : ℤ)-1) [0] =
      .ok (str.dropLast ++ [0] ++ 0 :: rest) := by
    rw [hsplit]
    exact store_append (str.getLast hne :: 0 :: rest) str.dropLast [0] _ hlen (Nat.succ_pos _)
  rw [pop_back, hbuf]
  dsimp only
  rw [text_append rest str hno, ok_bind, hput, ok_bind, List.append_assoc, List.singleton_append]
  rfl

-- The stored character ends the text exactly when a NUL comes after it.
theorem text_push_iff (hno : 0 ∉ str) (hc : c ≠ 0) (b : UInt8) :
    text (str ++ c :: b :: rest) = .ok (str ++ [c]) ↔ b = 0 := by
  have hsplit : str ++ c :: b :: rest = (str ++ [c]) ++ b :: rest := by
    rw [List.append_assoc, List.singleton_append]
  rw [hsplit, text_eq_ok_iff]
  constructor
  · rintro ⟨rest', heq, -⟩
    have htail := List.append_cancel_left heq
    exact (List.cons.inj htail).1
  · rintro rfl
    refine ⟨rest, rfl, ?_⟩
    rw [List.mem_append, List.mem_singleton, not_or]
    exact ⟨hno, hc.symm⟩

theorem push_back_text_iff (hbuf : s.m_pValue = some (str ++ 0 :: rest)) (hno : 0 ∉ str) (hc : c ≠ 0)
    (hroom : str.length+1 < s.bytes) :
    (s.push_back c >>= c_str) = .ok (str ++ [c]) ↔ s.byte (str.length+1) = 0 := by
  have hlen : s.bytes = str.length+(rest.length+1) := by
    rw [bytes, hbuf, Option.getD_some, List.length_append, List.length_cons]
  cases rest with
  | nil =>
    rw [List.length_nil] at hlen
    omega
  | cons b rest =>
    have hbyte : s.byte (str.length+1) = b := by
      rw [byte, hbuf, Option.getD_some, List.getD_eq_getElem?_getD,
        List.getElem?_append_right (by omega), Nat.add_sub_cancel_left]
      rfl
    rw [push_back_eq s str (b :: rest) c hbuf hno, ok_bind, hbyte]
    exact text_push_iff str rest c hno hc b

theorem pop_back_text (hbuf : s.m_pValue = some (str ++ 0 :: rest)) (hno : 0 ∉ str) (hne : str ≠ []) :
    (s.pop_back >>= c_str) = .ok str.dropLast := by
  rw [pop_back_eq s str rest hbuf hno hne, ok_bind]
  exact text_append (0 :: rest) str.dropLast (fun h => hno (List.mem_of_mem_dropLast h))

theorem right_iff_nulBehind (a : Call × (ℕ → UInt8)) : s.Right a ↔ s.NulBehind a := by
  obtain ⟨call, fill⟩ := a
  cases hstr : s.c_str with
  | error f => cases call <;> simp [Right, NulBehind, hstr]
  | ok str =>
    obtain ⟨rest, hbuf, hno⟩ := (c_str_eq_ok_iff s str).mp hstr
    cases call with
    | push_back c =>
      simp only [Right, NulBehind, hstr]
      constructor
      · intro h hc hroom
        exact (push_back_text_iff s str rest c hbuf hno hc hroom).mp (h hc hroom)
      · intro h hc hroom
        exact (push_back_text_iff s str rest c hbuf hno hc hroom).mpr (h hc hroom)
    | pop_back =>
      simp only [Right, NulBehind, hstr, iff_true]
      intro hne
      exact pop_back_text s str rest hbuf hno hne
    | _ => simp [Right, NulBehind]

theorem shows_of_c_str (h : s.c_str = .ok str) : s.Shows str := by
  intro buf hbuf
  rw [c_str, hbuf] at h
  exact h

theorem Shows.c_str_eq (h : s.Shows str) (str' : List UInt8) (hstr : s.c_str = .ok str') :
    str' = str := by
  obtain ⟨rest, hbuf, -⟩ := (c_str_eq_ok_iff s str').mp hstr
  rw [c_str, hbuf] at hstr
  exact Except.ok.inj (hstr.symm.trans (h _ hbuf))

theorem assign_shows (str' : CString) (h : s.assign fill str' = .ok s') : s'.Shows str'.chars := by
  have hnew (size : ℕ) (h : inNewBuf fill (getIndex size) str'.chars = .ok s') :
      s'.Shows str'.chars :=
    shows_of_c_str s' _ (inNewBuf_text s' fill _ _ str'.noNul h).1
  unfold assign at h
  obtain ⟨size, -, h⟩ := (bind_eq_ok _ _ _).mp h
  split_ifs at h
  · obtain ⟨capacity, -, h⟩ := (bind_eq_ok _ _ _).mp h
    split_ifs at h
    · cases hbuf : s.m_pValue with
      | none =>
        rw [hbuf] at h
        cases h
      | some buf =>
        rw [hbuf] at h
        obtain ⟨r, hr, h⟩ := (bind_eq_ok _ _ _).mp h
        obtain rfl := Except.ok.inj h
        obtain ⟨rest, rfl, -⟩ := strcpy_text str'.chars buf r hr
        apply shows_of_c_str
        exact text_append rest str'.chars str'.noNul
    · exact hnew size h
  · exact hnew size h

-- What a copy behind the text of a buffer leaves.
theorem strcpy_behind (str' r : List UInt8) (h : strcpy (str ++ 0 :: rest) str.length str' = .ok r) :
    ∃ rest', r = str ++ str' ++ 0 :: rest' := by
  obtain ⟨⟨-, hlt⟩, -⟩ := strcpy_ok _ _ _ r h
  rw [List.length_append] at hlt
  obtain ⟨rest', -, hput⟩ := strcpy_append (0 :: rest) str' str.length str rfl (by omega)
  exact ⟨rest', Except.ok.inj (h.symm.trans hput)⟩

theorem append_shows (str' : CString) (hs : s.Shows str) (h : s.append fill str' = .ok s') :
    s'.Shows (str ++ str'.chars) := by
  have hshow (k : ℕ) (rest : List UInt8) (hno : 0 ∉ str) :
      Shows ⟨some (str ++ str'.chars ++ 0 :: rest), k⟩ (str ++ str'.chars) := by
    apply shows_of_c_str
    apply text_append
    rw [List.mem_append, not_or]
    exact ⟨hno, str'.noNul⟩
  unfold append at h
  cases hbuf : s.m_pValue with
  | none =>
    rw [hbuf] at h
    cases h
  | some buf =>
    rw [hbuf] at h
    obtain ⟨rest, rfl, hno⟩ := (text_eq_ok_iff buf str).mp (hs buf hbuf)
    dsimp only at h
    rw [text_append rest str hno, ok_bind] at h
    obtain ⟨nLen, -, h⟩ := (bind_eq_ok _ _ _).mp h
    obtain ⟨nOLen, hint, h⟩ := (bind_eq_ok _ _ _).mp h
    have hlen : nOLen = str.length := by
      unfold toInt at hint
      split_ifs at hint
      exact (Except.ok.inj hint).symm
    subst hlen
    obtain ⟨size, -, h⟩ := (bind_eq_ok _ _ _).mp h
    obtain ⟨capacity, -, h⟩ := (bind_eq_ok _ _ _).mp h
    split_ifs at h
    · obtain ⟨r, hr, h⟩ := (bind_eq_ok _ _ _).mp h
      obtain rfl := Except.ok.inj h
      obtain ⟨rest', rfl⟩ := strcpy_behind str rest str'.chars r hr
      exact hshow _ rest' hno
    · obtain ⟨new, -, h⟩ := (bind_eq_ok _ _ _).mp h
      obtain ⟨r, hr, h⟩ := (bind_eq_ok _ _ _).mp h
      obtain ⟨r', hr', h⟩ := (bind_eq_ok _ _ _).mp h
      obtain rfl := Except.ok.inj h
      obtain ⟨rest₁, rfl, -⟩ := strcpy_text str new r hr
      obtain ⟨rest', rfl⟩ := strcpy_behind str rest₁ str'.chars r' hr'
      exact hshow _ rest' hno

theorem shows_of_none (hbuf : s.m_pValue = none) : s.Shows str := by
  intro buf hsome
  rw [hbuf] at hsome
  cases hsome

theorem Shows.c_str_ok (hs : s.Shows str) (buf : List UInt8) (hbuf : s.m_pValue = some buf) :
    s.c_str = .ok str := by
  rw [c_str, hbuf]
  exact hs buf hbuf

theorem push_back_shows (hs : s.Shows str) (hdomain : s.InDomain (.push_back c, fill))
    (hnul : s.NulBehind (.push_back c, fill)) (h : s.push_back c = .ok s') :
    s'.Shows (str ++ [c]) := by
  cases hbuf : s.m_pValue with
  | none =>
    rw [push_back, hbuf] at h
    obtain rfl := Except.ok.inj h
    exact shows_of_none s _ hbuf
  | some buf =>
    have hstr := hs.c_str_ok s str buf hbuf
    simp only [InDomain, NulBehind, hstr] at hdomain hnul
    obtain ⟨rest, hval, hno⟩ := (c_str_eq_ok_iff s str).mp hstr
    have htext := (push_back_text_iff s str rest c hval hno hdomain.1 hdomain.2).mpr
      (hnul hdomain.1 hdomain.2)
    rw [h, ok_bind] at htext
    exact shows_of_c_str s' _ htext

theorem pop_back_shows (hs : s.Shows str) (hdomain : s.InDomain (.pop_back, fill))
    (h : s.pop_back = .ok s') : s'.Shows str.dropLast := by
  cases hbuf : s.m_pValue with
  | none =>
    rw [pop_back, hbuf] at h
    obtain rfl := Except.ok.inj h
    exact shows_of_none s _ hbuf
  | some buf =>
    have hstr := hs.c_str_ok s str buf hbuf
    simp only [InDomain, hstr] at hdomain
    obtain ⟨rest, hval, hno⟩ := (c_str_eq_ok_iff s str).mp hstr
    have htext := pop_back_text s str rest hval hno hdomain
    rw [h, ok_bind] at htext
    exact shows_of_c_str s' _ htext

-- The step lemma.
theorem call_shows (a : Call × (ℕ → UInt8)) (hs : s.Shows str) (hdomain : s.InDomain a)
    (hnul : s.NulBehind a) (hcall : s.call a = .ok s') : s'.Shows (a.1.means str) := by
  obtain ⟨call, fill⟩ := a
  cases call with
  | copy =>
    obtain ⟨str', hstr, hnew⟩ := (bind_eq_ok _ _ _).mp hcall
    obtain ⟨-, -, hno⟩ := (c_str_eq_ok_iff s str').mp hstr
    obtain rfl := hs.c_str_eq s str str' hstr
    exact shows_of_c_str s' str' (inNewBuf_text s' fill str' _ hno hnew).1
  | assign str' => exact assign_shows s s' fill str' hcall
  | append str' => exact append_shows s s' fill str str' hs hcall
  | push_back c => exact push_back_shows s s' fill str c hs hdomain hnul hcall
  | pop_back => exact pop_back_shows s s' fill str hs hdomain hcall

end Step

section Runs

theorem construct_shows (k : Ctor) (fill : ℕ → UInt8) (s : CmString)
    (hs : construct fill k = .ok s) : s.Shows k.means := by
  cases k with
  | void =>
    obtain rfl := Except.ok.inj hs
    intro buf hbuf
    cases hbuf
  | text str =>
    obtain ⟨size, -, hnew⟩ := (bind_eq_ok _ _ _).mp hs
    exact shows_of_c_str s str.chars (inNewBuf_text s fill str.chars _ str.noNul hnew).1
  | size n =>
    obtain ⟨size, -, hnew⟩ := (bind_eq_ok _ _ _).mp hs
    split_ifs at hnew
    exact shows_of_c_str s [] (inNewBuf_text s fill [] _ List.not_mem_nil hnew).1

theorem shows_of_run (s s' : CmString) (str : List UInt8) (calls : List (Call × (ℕ → UInt8)))
    (hs : s.Shows str) (hrun : Runs.runFrom step s calls = some s')
    (hdomain : Runs.Along step InDomain s calls) (hnul : Runs.Along step NulBehind s calls) :
    s'.Shows (calls.foldl (fun str a => a.1.means str) str) := by
  induction calls generalizing s str with
  | nil =>
    obtain rfl := Option.some.inj hrun
    exact hs
  | cons a calls ih =>
    obtain ⟨s₁, hstep, hrun⟩ := (Runs.runFrom_cons_iff step s s' a calls).mp hrun
    have hcall : s.call a = .ok s₁ := by
      unfold step at hstep
      cases hc : s.call a with
      | error f =>
        rw [hc] at hstep
        cases hstep
      | ok s₂ =>
        rw [hc] at hstep
        exact congrArg Except.ok (Option.some.inj hstep)
    have h₁ := call_shows s s₁ str a hs hdomain.1 hnul.1 hcall
    exact ih s₁ _ h₁ hrun (hdomain.2 s₁ hstep) (hnul.2 s₁ hstep)

/-- A push or a pop is right all along a run exactly when every push finds a NUL behind the terminator;
then the text is the one that the calls mean. -/
theorem push_pop_right_iff (k : Ctor) (fill : ℕ → UInt8) (s : CmString)
    (hs : construct fill k = .ok s) (calls : List (Call × (ℕ → UInt8))) :
    (Runs.Along step Right s calls ↔ Runs.Along step NulBehind s calls) ∧
    ∀ s', Runs.runFrom step s calls = some s' → Runs.Along step InDomain s calls →
      Runs.Along step NulBehind s calls → s'.Shows (means k calls) := by
  constructor
  · apply Runs.along_iff_of_invariant step (fun _ _ => True) Right NulBehind (fun _ => True)
    · exact fun _ _ _ _ _ _ _ => trivial
    · exact fun s a _ _ => right_iff_nulBehind s a
    · trivial
    · exact Runs.along_of_forall step _ (fun _ _ => trivial) s calls
  · intro s' hrun hdomain hnul
    exact shows_of_run s s' k.means calls (construct_shows k fill s hs) hrun hdomain hnul

theorem push_pop_right_iff_behind_nul :
    construct (fun _ => 0) (.text ⟨[97, 98], by decide⟩) = .ok ⟨some [97, 98, 0, 0], 2⟩ ∧
    Runs.Along step Right ⟨some [97, 98, 0, 0], 2⟩
      [(.push_back 99, fun _ => 0), (.pop_back, fun _ => 0)] := by
  have hs : construct (fun _ => 0) (.text ⟨[97, 98], by decide⟩) = .ok ⟨some [97, 98, 0, 0], 2⟩ := rfl
  refine ⟨hs, ?_⟩
  apply (push_pop_right_iff _ _ _ hs _).1.mpr
  refine ⟨?_, fun t ht => ⟨?_, fun t ht => trivial⟩⟩
  · intro _ _
    rfl
  · obtain rfl := Option.some.inj ht
    trivial

-- The character behind the one that is stored was left by the longer text.
theorem not_right_reused :
    construct (fun _ => 0) (.text ⟨[97, 98, 99, 100, 101], by decide⟩) =
      .ok ⟨some [97, 98, 99, 100, 101, 0, 0, 0], 3⟩ ∧
    ¬Runs.Along step Right ⟨some [97, 98, 99, 100, 101, 0, 0, 0], 3⟩
      [(.assign ⟨[97], by decide⟩, fun _ => 0), (.push_back 120, fun _ => 0)] := by
  refine ⟨rfl, fun halong => ?_⟩
  have h : (push_back ⟨some [97, 0, 99, 100, 101, 0, 0, 0], 3⟩ 120 >>= c_str) = .ok [97, 120] :=
    Runs.along_after step Right _ _ [(.assign ⟨[97], by decide⟩, fun _ => 0)] [] _ rfl halong
      (by decide) (by decide)
  have hshown : (push_back ⟨some [97, 0, 99, 100, 101, 0, 0, 0], 3⟩ 120 >>= c_str) =
      .ok [97, 120, 99, 100, 101] := rfl
  rw [hshown] at h
  cases h

end Runs

end Leviathan.CmString
