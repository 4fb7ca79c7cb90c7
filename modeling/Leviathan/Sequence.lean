import Leviathan.IntValue

/-! `CAnalyzer_Sequence` (LogAnalyzer, Analyzer_Sequence.cpp): the lines at which the numbers of a keyword do
not go up by one. -/
namespace Leviathan.Sequence

open IntValue

section Model

/-- A keyword, with the lines that are in error for it, in a list that only grows. -/
structure STAnalyzer_Seq where
  pKeyword : Option CString
  nPrevSequenceNumber : ℤ
  m_pErrorLineList : List CString
  deriving DecidableEq

-- what `atoi` answers for a number that no `int` holds
variable (atoiOver : List UInt8 → ℤ)

/-- The body of the loop; neither of the numbers that are subtracted is negative. -/
def parsingEntry (pLine : CString) (pStruct : STAnalyzer_Seq) : Except Fault STAnalyzer_Seq :=
  match pStruct.pKeyword with
  | none => .ok pStruct
  | some pKeyword => do
    let nValue ← getIntValue atoiOver pLine.chars pKeyword.chars
    if nValue < 0 then return pStruct
    else return { pStruct with
      nPrevSequenceNumber := nValue
      m_pErrorLineList :=
        if nValue-pStruct.nPrevSequenceNumber ≠ 1 then pStruct.m_pErrorLineList ++ [pLine]
        else pStruct.m_pErrorLineList }

/-- `parsingLine` over the entries of `m_pKeySeqList`. -/
def parsingLine (pLine : CString) (m_pKeySeqList : List STAnalyzer_Seq) :
    Except Fault (Bool × List STAnalyzer_Seq) := do
  let m_pKeySeqList ← m_pKeySeqList.mapM (parsingEntry atoiOver pLine)
  return (true, m_pKeySeqList)

/-- The entry that `initConfig` makes for a keyword. -/
def newEntry (keyword : CString) : STAnalyzer_Seq := ⟨some keyword, 0, []⟩

/-- Lines that are parsed one after the other. -/
def parsingLines (lines : List CString) (m_pKeySeqList : List STAnalyzer_Seq) :
    Except Fault (List STAnalyzer_Seq) :=
  lines.foldlM (fun m_pKeySeqList pLine => (parsingLine atoiOver pLine m_pKeySeqList).map Prod.snd)
    m_pKeySeqList

end Model

section Gaps

-- the number that a line has for a keyword, negative if it has none
variable (number : CString → CString → ℤ) (key : CString)

/-- The number on the last of some lines that has one, and 0 where none has. -/
def previous (lines : List CString) : ℤ :=
  ((lines.map (fun line => number line key)).filter (fun n => 0 ≤ n)).getLast?.getD 0

/-- After `lines`, a line has a number other than the next one. -/
def Gap (lines : List CString) (line : CString) : Prop :=
  0 ≤ number line key ∧ number line key ≠ 1+previous number key lines

instance (lines : List CString) (line : CString) : Decidable (Gap number key lines line) :=
  inferInstanceAs (Decidable (_ ∧ _))

/-- The lines that have a number other than the next one, in order. -/
def gaps (lines : List CString) : List CString :=
  (List.range lines.length).filterMap (fun i =>
    lines[i]?.filter (fun line => Gap number key (lines.take i) line))

theorem previous_append (lines : List CString) (line : CString) :
    previous number key (lines ++ [line]) =
      if 0 ≤ number line key then number line key else previous number key lines := by
  unfold previous
  rw [List.map_append, List.filter_append, List.map_singleton, List.filter_singleton]
  split_ifs with h
  · rw [decide_eq_true h, cond_true, List.getLast?_append]
    rfl
  · rw [decide_eq_false h, cond_false, List.append_nil]

theorem gaps_append (lines : List CString) (line : CString) :
    gaps number key (lines ++ [line]) =
      gaps number key lines ++ if Gap number key lines line then [line] else [] := by
  unfold gaps
  rw [List.length_append, List.length_singleton, List.range_succ, List.filterMap_append]
  apply congrArg₂
  · apply List.filterMap_congr
    intro i hi
    have hlt := List.mem_range.mp hi
    rw [List.getElem?_append_left hlt, List.take_append_of_le_length hlt.le]
  · rw [List.filterMap_cons, List.getElem?_append_right le_rfl, Nat.sub_self, List.take_left,
      List.getElem?_cons_zero, Option.filter_some]
    split_ifs with h h' h'
    · rfl
    · exact absurd (of_decide_eq_true h) h'
    · exact absurd (decide_eq_true h') h
    · rfl

end Gaps

section Lines

variable (atoiOver : List UInt8 → ℤ) (number : CString → CString → ℤ)

/-- The entry of a keyword after some lines. -/
def entryAfter (lines : List CString) (key : CString) : STAnalyzer_Seq :=
  ⟨some key, previous number key lines, gaps number key lines⟩

theorem parsingEntry_after (lines : List CString) (line key : CString)
    (h : getIntValue atoiOver line.chars key.chars = .ok (number line key)) :
    parsingEntry atoiOver line (entryAfter number lines key) =
      .ok (entryAfter number (lines ++ [line]) key) := by
  rw [entryAfter, entryAfter, parsingEntry, previous_append, gaps_append]
  dsimp only
  rw [h, ok_bind]
  by_cases hneg : number line key < 0
  · have hgap : ¬Gap number key lines line := fun hg => absurd hg.1 (not_le.mpr hneg)
    rw [if_pos hneg, if_neg (not_le.mpr hneg), if_neg hgap, List.append_nil]
    rfl
  · have hle := not_lt.mp hneg
    have hgap : number line key-previous number key lines ≠ 1 ↔ Gap number key lines line := by
      rw [Gap, and_iff_right hle]
      omega
    rw [if_neg hneg, if_pos hle]
    simp only [hgap]
    split_ifs
    · rfl
    · rw [List.append_nil]
      rfl

theorem mapM_eq_ok {α β : Type} (f : α → Except Fault β) (g : α → β) (xs : List α)
    (h : ∀ x ∈ xs, f x = .ok (g x)) : xs.mapM f = .ok (xs.map g) := by
  induction xs with
  | nil => rfl
  | cons x xs ih =>
    rw [List.forall_mem_cons] at h
    rw [List.mapM_cons, h.1, ok_bind, ih h.2, ok_bind]
    rfl

theorem parsingLine_after (lines keywords : List CString) (line : CString)
    (h : ∀ key ∈ keywords, getIntValue atoiOver line.chars key.chars = .ok (number line key)) :
    parsingLine atoiOver line (keywords.map (entryAfter number lines)) =
      .ok (true, keywords.map (entryAfter number (lines ++ [line]))) := by
  have hall : (keywords.map (entryAfter number lines)).mapM (parsingEntry atoiOver line) =
      .ok (keywords.map (entryAfter number (lines ++ [line]))) := by
    rw [List.mapM_map]
    apply mapM_eq_ok
    intro key hkey
    exact parsingEntry_after atoiOver number lines line key (h key hkey)
  rw [parsingLine, hall, ok_bind]
  rfl

/-- Where every number is read, the lines in error for a keyword are its gaps, whatever the other keywords
are. -/
theorem parsingLines_eq (keywords lines : List CString)
    (h : ∀ line ∈ lines, ∀ key ∈ keywords,
      getIntValue atoiOver line.chars key.chars = .ok (number line key)) :
    parsingLines atoiOver lines (keywords.map newEntry) = .ok (keywords.map (entryAfter number lines)) := by
  induction lines using List.reverseRecOn with
  | nil => rfl
  | append_singleton lines line ih =>
    have hbefore := ih (fun l hl => h l (List.mem_append_left [line] hl))
    have hline := h line (List.mem_append_right lines (List.mem_singleton_self line))
    rw [parsingLines] at hbefore ⊢
    rw [List.foldlM_append, hbefore, ok_bind, List.foldlM_cons, parsingLine_after _ _ _ _ _ hline]
    rfl

/-- The keyword `n`, and a line with a digit for it. -/
def keywordN : CString := ⟨[110], by decide⟩

def lineN (ch : UInt8) (hch : 0 ∉ [110, 91, ch, 93]) : CString := ⟨[110, 91, ch, 93], hch⟩

/-- What `getIntValue` answers, and -1 where it does not return. -/
def numberOf (line key : CString) : ℤ :=
  match getIntValue (fun _ => 0) line.chars key.chars with
  | .ok n => n
  | .error _ => -1

-- of the numbers 1, 3 and 4, the second one is in error
theorem parsingLines_eq_one_three_four :
    parsingLines (fun _ => 0) [lineN 49 (by decide), lineN 51 (by decide), lineN 52 (by decide)]
        [newEntry keywordN] = .ok [⟨some keywordN, 4, [lineN 51 (by decide)]⟩] := by
  apply (parsingLines_eq (fun _ => 0) numberOf [keywordN] _ _).trans
  · decide
  · decide

end Lines

end Leviathan.Sequence
