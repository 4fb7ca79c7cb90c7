import Leviathan.LineBuffer
import Mathlib.Data.List.GetD
import Mathlib.Data.List.TakeDrop

/-! `CFileProc::FileProc2` (LogAnalyzer, FileProc.cpp): a file whose records end with a key, read
record by record. -/
namespace Leviathan.FileLines

section Model

/-- The loop of `FileProc2`: the texts given to `parsingLine`, which always accepts. -/
def fileProc2 : ℕ → STLine → Except Fault (List (List UInt8))
  | 0, _ => .error .diverges
  | fuel+1, m_szLine => do
    let (m_szLine, nSize) ← getNextLine m_szLine
    if nSize = 0 then return []
    else
      match m_szLine.m_szLineBuf.pValue with
      | none => .error .nullRead
      | some text =>
        let more ← fileProc2 fuel m_szLine
        return text :: more

end Model

/-- The records of a content: each ends with the first occurrence of the key in it, and the last one
may lack the key. -/
inductive Records (key : List UInt8) : List UInt8 → List (List UInt8) → Prop
  | nil : Records key [] []
  | last (record : List UInt8) (hne : record ≠ []) (h : ¬key <:+: record) : Records key record [record]
  | cons (record rest : List UInt8) (records : List (List UInt8)) (hend : key <:+ record)
      (hfirst : ¬key <:+: record.dropLast) (h : Records key rest records) :
      Records key (record ++ rest) (record :: records)

/-- `parsingLine` gets each record once and in order, up to its end key or a part of that. -/
def PassesRecords (key : List UInt8) (l : STLine) (records : List (List UInt8)) : Prop :=
  ∃ fuel texts, fileProc2 fuel l = .ok texts ∧
    List.Forall₂ (fun text record => text <+: record ∧ record.length ≤ text.length+key.length)
      texts records

/-- The text is made of `n` pieces, in which the key occurs at the end at most. -/
inductive Covered (key : List UInt8) : ℕ → List UInt8 → Prop
  | nil : Covered key 0 []
  | cons (n : ℕ) (piece rest : List UInt8) (h : ¬key <:+: piece.dropLast) (hrest : Covered key n rest) :
      Covered key (n+1) (piece ++ rest)

section Cover

variable (key : List UInt8) (hkey : key ≠ [])

theorem Records.covered (content : List UInt8) (records : List (List UInt8))
    (h : Records key content records) :
    Covered key records.length content := by
  induction h with
  | nil => exact Covered.nil
  | last record hne h =>
    have hdrop : ¬key <:+: record.dropLast :=
        fun hin => h (hin.trans (List.dropLast_prefix record).isInfix)
    have hone := Covered.cons 0 record [] hdrop Covered.nil
    rwa [List.append_nil] at hone
  | cons record rest records hend hfirst h ih => exact Covered.cons _ record rest hfirst ih

theorem Covered.pos (n : ℕ) (text : List UInt8) (h : Covered key n text) (hne : text ≠ []) : 0 < n := by
  cases h with
  | nil => exact absurd rfl hne
  | cons n piece rest hpiece hrest => exact Nat.succ_pos n

include hkey

theorem Covered.succ (n : ℕ) (text : List UInt8) (h : Covered key n text) : Covered key (n+1) text :=
  Covered.cons n [] text (fun hin => hkey (List.infix_nil.mp hin)) h

-- A text without its first characters needs no more pieces.
theorem Covered.drop (n : ℕ) (text : List UInt8) (h : Covered key n text) (j : ℕ) :
    Covered key n (text.drop j) := by
  induction h generalizing j with
  | nil =>
    rw [List.drop_nil]
    exact Covered.nil
  | cons n piece rest hpiece hrest ih =>
    by_cases hj : j ≤ piece.length
    · rw [List.drop_append_of_le_length hj]
      apply Covered.cons n _ rest _ hrest
      intro hin
      apply hpiece
      rw [List.dropLast_drop_eq_drop_dropLast] at hin
      exact hin.trans (List.drop_suffix j piece.dropLast).isInfix
    · rw [List.drop_append, List.drop_eq_nil_of_le (by omega), List.nil_append]
      exact (ih (j-piece.length)).succ key hkey

-- Behind an occurrence of the key there is one piece less: the key cannot lie inside the first piece.
theorem Covered.behind (n : ℕ) (text : List UInt8) (h : Covered key n text) (e : ℕ)
    (he : e ≤ text.length) (hend : key <:+ text.take e) : 1 ≤ n ∧ Covered key (n-1) (text.drop e) := by
  cases h with
  | nil =>
    rw [List.take_nil] at hend
    exact absurd (List.suffix_nil.mp hend) hkey
  | cons n piece rest hpiece hrest =>
    refine ⟨Nat.le_add_left 1 n, ?_⟩
    have hle : piece.length ≤ e := by
      by_contra hlt
      apply hpiece
      have htake : (piece ++ rest).take e = piece.dropLast.take e := by
        rw [List.take_append_of_le_length (by omega), List.dropLast_eq_take, List.take_take,
          min_eq_left (by omega)]
      rw [htake] at hend
      exact hend.isInfix.trans (List.take_prefix e piece.dropLast).isInfix
    rw [List.drop_append, List.drop_eq_nil_of_le hle, List.nil_append]
    exact hrest.drop key hkey n rest _

end Cover

section Search

variable (key : List UInt8)

-- What `ehstrstr` finds is an occurrence of the key, of which `k` characters stand behind `pre`
-- already.
theorem ehstrstrFrom_suffix (pre text : List UInt8) (k e : ℕ) (hk : k < key.length)
    (hpre : key.take k <:+ pre) (h : ehstrstrFrom key text k pre.length = some e) :
    key <:+ (pre ++ text).take (e+1) := by
  induction text generalizing pre k with
  | nil => cases h
  | cons c text ih =>
    rw [ehstrstrFrom] at h
    have happ : pre ++ c :: text = (pre ++ [c]) ++ text := by
      rw [List.append_assoc, List.singleton_append]
    have hlen : (pre ++ [c]).length = pre.length+1 := by rw [List.length_append, List.length_singleton]
    rw [happ]
    split_ifs at h with hc hdone
    · cases h
      have hkey : key = key.take k ++ [c] := by
        rw [hc, List.getD_eq_getElem _ _ hk, List.take_concat_get' _ _ hk, List.take_of_length_le hdone]
      rw [← hlen, List.take_left, hkey]
      exact List.suffix_append_self_iff.mpr hpre
    · apply ih (pre ++ [c]) (k+1) (by omega) _ (hlen ▸ h)
      rw [← List.take_concat_get' _ _ hk, ← List.getD_eq_getElem _ 0 hk, ← hc]
      exact List.suffix_append_self_iff.mpr hpre
    · apply ih (pre ++ [c]) 0 (by omega) _ (hlen ▸ h)
      rw [List.take_zero]
      exact List.nil_suffix

theorem findEnd_suffix (hkey : key ≠ []) (l : STLine) (hl : l.pEnd = some key) (nSize : ℕ)
    (h : findEnd l = .ok (some nSize)) : key <:+ l.pSource.take (nSize+1) := by
  unfold findEnd at h
  split_ifs at h with hskip
  rw [hl] at h
  obtain ⟨e, he, rfl⟩ := Option.map_eq_some_iff.mp (Except.ok.inj h)
  have hsuffix := ehstrstrFrom_suffix key [] (l.pSource.drop l.nSkipLen) 0 e
      (List.length_pos_iff.mpr hkey)
    List.nil_suffix he
  rw [List.nil_append, List.take_drop] at hsuffix
  exact hsuffix.trans (List.drop_suffix _ _)

-- A call that answers a length leaves a rest of the text behind the key.
theorem getNextLine_advances (l l' : STLine) (nSize : ℕ) (h : getNextLine l = .ok (l', nSize))
    (h0 : nSize ≠ 0) :
    findEnd l = .ok (some nSize) ∧ l'.pSource = l.pSource.drop (nSize+1) ∧ l'.pSource ≠ [] ∧
      l'.pEnd = l.pEnd := by
  rw [getNextLine] at h
  obtain ⟨o, ho, h⟩ := (bind_eq_ok _ _ _).mp h
  cases o with
  | none =>
    dsimp only at h
    split_ifs at h
    · cases h
      exact absurd rfl h0
    · obtain ⟨b, -, h⟩ := (bind_eq_ok _ _ _).mp h
      cases h
      exact absurd rfl h0
  | some n =>
    dsimp only at h
    split at h
    · cases h
      exact absurd rfl h0
    · obtain ⟨b, -, h⟩ := (bind_eq_ok _ _ _).mp h
      split_ifs at h with hrest
      · cases h
        exact absurd rfl h0
      · cases h
        exact ⟨ho, rfl, hrest, rfl⟩

-- Each text that is passed takes a piece, and at least one is left over.
theorem fileProc2_lt (hkey : key ≠ []) (fuel n : ℕ) (l : STLine) (hl : l.pEnd = some key)
    (hcover : Covered key n l.pSource) (hne : l.pSource ≠ []) (texts : List (List UInt8))
    (h : fileProc2 fuel l = .ok texts) : texts.length < n := by
  induction fuel generalizing n l texts with
  | zero => cases h
  | succ fuel ih =>
    obtain ⟨⟨l', nSize⟩, hnext, h⟩ := (bind_eq_ok _ _ _).mp h
    dsimp only at h
    split_ifs at h with h0
    · cases h
      exact hcover.pos key n _ hne
    · obtain ⟨hend, hsource, hrest, hkeep⟩ := getNextLine_advances l l' nSize hnext h0
      have hlt := findEnd_lt l nSize hend
      obtain ⟨hpos, hcover'⟩ :=
        hcover.behind key hkey n _ (nSize+1) hlt (findEnd_suffix key hkey l hl nSize hend)
      split at h
      · cases h
      · obtain ⟨more, hmore, h⟩ := (bind_eq_ok _ _ _).mp h
        cases h
        have hless := ih (n-1) l' (hkeep.trans hl) (hsource ▸ hcover') hrest more hmore
        rw [List.length_cons]
        omega

end Search

section Claim

variable (key : List UInt8) (hkey : key ≠ []) (content : CString) (hne : content.chars ≠ [])
  (records : List (List UInt8)) (h : Records key content.chars records) (buf : LineBuf) (nSkipLen : ℕ)

include hkey hne h

theorem texts_lt_records (fuel : ℕ) (texts : List (List UInt8))
    (hrun : fileProc2 fuel ⟨content.chars, buf, some key, nSkipLen⟩ = .ok texts) :
    texts.length < records.length :=
  fileProc2_lt key hkey fuel records.length _ rfl (h.covered key _ records) hne texts hrun

/-- `FileProc2` passes all records of no file that has one. -/
theorem not_passesRecords : ¬PassesRecords key ⟨content.chars, buf, some key, nSkipLen⟩ records := by
  rintro ⟨fuel, texts, hrun, hall⟩
  exact (texts_lt_records key hkey content hne records h buf nSkipLen fuel texts hrun).ne hall.length_eq

end Claim

section TwoRecords

/-- The file `a#b#` with the key `#`. -/
def twoRecords : CString := ⟨[97, 35, 98, 35], by decide⟩

theorem records_twoRecords : Records [35] twoRecords.chars [[97, 35], [98, 35]] :=
  Records.cons [97, 35] [98, 35] [[98, 35]] (by decide) (by decide)
    (Records.cons [98, 35] [] [] (by decide) (by decide) Records.nil)

theorem not_passesRecords_twoRecords :
    ¬PassesRecords [35] ⟨twoRecords.chars, ⟨none, 0⟩, some [35], 0⟩ [[97, 35], [98, 35]] :=
  not_passesRecords [35] (by decide) twoRecords (by decide) _ records_twoRecords ⟨none, 0⟩ 0

/-- Of `a#b#` only the first record is passed. -/
theorem not_forall_passesRecords : ¬∀ (key : List UInt8) (content : CString)
    (records : List (List UInt8)),
    key ≠ [] → content.chars ≠ [] → Records key content.chars records →
    PassesRecords key ⟨content.chars, ⟨none, 0⟩, some key, 0⟩ records := by
  intro hall
  obtain ⟨fuel, texts, hrun, hpass⟩ :=
    hall [35] twoRecords [[97, 35], [98, 35]] (by decide) (by decide) records_twoRecords
  have hlt := texts_lt_records [35] (by decide) twoRecords (by decide) _ records_twoRecords
      ⟨none, 0⟩ 0 fuel
    texts hrun
  exact hlt.ne hpass.length_eq

end TwoRecords

end Leviathan.FileLines
