import Leviathan.FileLinesRead
import Leviathan.Runs

/-! The line buffer of `CFileUtil::getNextLine(STLine *)` over a sequence of calls, with any end key
and skip length. -/
namespace Leviathan.FileLines

open Runs

section Model

/-- The buffer and the text of the copy that a call makes, if it comes to one. -/
def copyOf (l : STLine) : Option (LineBuf × List UInt8) :=
  match findEnd l with
  | .error _ => none
  | .ok (some nSize) =>
    (growLineBuf l.m_szLineBuf (getIndex (nSize+1))).map (fun buf => (buf, l.pSource.take nSize))
  | .ok none => if l.pSource = [] then none else some (l.m_szLineBuf, l.pSource)

/-- A call. -/
def callStep (l : STLine) (_ : Unit) : Option STLine := (getNextLine l).toOption.map Prod.fst

/-- The pieces that an end key and a skip length cut a text into: their lengths, and what is left
without an end. There is no answer for what is left when the search in it starts behind its NUL. -/
def pieces (pEnd : Option (List UInt8)) (nSkipLen : ℕ) : ℕ → List UInt8 → List ℕ × Option (List UInt8)
  | 0, _ => ([], none)
  | fuel+1, text =>
    match findEnd ⟨text, ⟨none, 0⟩, pEnd, nSkipLen⟩ with
    | .error _ => ([], none)
    | .ok none => ([], some text)
    | .ok (some nSize) =>
      -- `pSource` stays at the last piece, so that nothing is searched behind it
      if text.drop (nSize+1) = [] then ([nSize], some [])
      else
        (nSize :: (pieces pEnd nSkipLen fuel (text.drop (nSize+1))).1,
          (pieces pEnd nSkipLen fuel (text.drop (nSize+1))).2)

end Model

/-- The search of a call starts in the text, and its copy goes to a buffer that has room for the line
and a NUL. -/
structure Roomy (l : STLine) : Prop where
  search : ∃ o, findEnd l = .ok o
  copy : ∀ buf line, copyOf l = some (buf, line) → buf.pValue ≠ none ∧ line.length+1 ≤ 2^buf.nIdx

/-- This holds for all calls of any sequence. -/
def AlwaysRoomy (l : STLine) : Prop := ∀ calls : List Unit, Along callStep (fun l _ => Roomy l) l calls

/-- The first piece is not empty when there is no buffer yet, no search starts behind the text, and what
is left without an end fits the class that the pieces before it have led to. -/
structure PiecesFit (nIdx : ℕ) (p : List ℕ × Option (List UInt8)) : Prop where
  first : nIdx = 0 → p.1.head? ≠ some 0
  last : ∀ k, p.1.foldlM classAfterLine nIdx = some k →
    ∃ rest, p.2 = some rest ∧ (rest ≠ [] → rest.length < 2^k)

section Calls

theorem ehstrstrFrom_lt (key text : List UInt8) (k p e : ℕ) (h : ehstrstrFrom key text k p = some e) :
    p ≤ e ∧ e < p+text.length := by
  induction text generalizing k p with
  | nil => cases h
  | cons c text ih =>
    rw [ehstrstrFrom] at h
    rw [List.length_cons]
    split_ifs at h
    · cases h
      omega
    · have hle := ih (k+1) (p+1) h
      omega
    · have hle := ih 0 (p+1) h
      omega

variable (l : STLine)

theorem findEnd_lt (nSize : ℕ) (h : findEnd l = .ok (some nSize)) : nSize < l.pSource.length := by
  unfold findEnd at h
  split_ifs at h with hskip
  obtain ⟨n, hn, rfl⟩ := Option.map_eq_some_iff.mp (Except.ok.inj h)
  have hlt : n < (l.pSource.drop l.nSkipLen).length := by
    split at hn
    · have hle := ehstrstrFrom_lt _ _ 0 0 n hn
      omega
    · exact (List.findIdx?_eq_some_iff_findIdx_eq.mp hn).1
  rw [List.length_drop] at hlt
  omega

-- The calls of the three cases, when the copy has room.
theorem getNextLine_piece (nSize : ℕ) (ho : findEnd l = .ok (some nSize)) (buf : LineBuf)
    (hb : growLineBuf l.m_szLineBuf (getIndex (nSize+1)) = some buf) (hroom : Roomy l) :
    callStep l () = some { l with
      m_szLineBuf := ⟨some (l.pSource.take nSize), buf.nIdx⟩
      pSource := if l.pSource.drop (nSize+1) = [] then l.pSource else l.pSource.drop (nSize+1) } := by
  have hcopy : copyOf l = some (buf, l.pSource.take nSize) := by
    rw [copyOf, ho]
    dsimp only
    rw [hb]
    rfl
  obtain ⟨hsome, hfit⟩ := hroom.copy _ _ hcopy
  obtain ⟨old, hold⟩ := Option.ne_none_iff_exists'.mp hsome
  have hline : copyLine buf (l.pSource.take nSize) = .ok ⟨some (l.pSource.take nSize), buf.nIdx⟩ := by
    rw [copyLine, hold]
    exact if_pos hfit
  rw [callStep, getNextLine, ho, ok_bind]
  dsimp only
  rw [hb]
  dsimp only
  rw [hline, ok_bind]
  split_ifs <;> rfl

theorem getNextLine_noBuffer (nSize : ℕ) (ho : findEnd l = .ok (some nSize))
    (hb : growLineBuf l.m_szLineBuf (getIndex (nSize+1)) = none) :
    callStep l () = some { l with m_szLineBuf := ⟨none, 0⟩ } := by
  rw [callStep, getNextLine, ho, ok_bind]
  dsimp only
  rw [hb]
  rfl

theorem getNextLine_rest (ho : findEnd l = .ok none) (hne : l.pSource ≠ []) (hroom : Roomy l) :
    callStep l () = some { l with m_szLineBuf := ⟨some l.pSource, l.m_szLineBuf.nIdx⟩ } := by
  have hcopy : copyOf l = some (l.m_szLineBuf, l.pSource) := by
    rw [copyOf, ho]
    exact if_neg hne
  obtain ⟨hsome, hfit⟩ := hroom.copy _ _ hcopy
  obtain ⟨old, hold⟩ := Option.ne_none_iff_exists'.mp hsome
  rw [callStep, getNextLine, ho, ok_bind]
  dsimp only
  rw [if_neg hne, copyLine, hold]
  dsimp only
  rw [if_pos hfit]
  rfl

theorem alwaysRoomy_iff : AlwaysRoomy l ↔ Roomy l ∧ ∀ l', callStep l () = some l' → AlwaysRoomy l' := by
  constructor
  · intro h
    exact ⟨(h [()]).1, fun l' hl' calls => (h (() :: calls)).2 l' hl'⟩
  · rintro ⟨hroom, hnext⟩ calls
    cases calls with
    | nil => trivial
    | cons a calls => exact ⟨hroom, fun l' hl' => hnext l' hl' calls⟩

-- A call that changes nothing any more can be repeated.
theorem alwaysRoomy_of_fixed (hroom : Roomy l) (hstep : callStep l () = some l) : AlwaysRoomy l := by
  intro calls
  apply along_of_invariant callStep (fun _ _ => True) _ (fun s => s = l) _ _ l calls rfl
    (along_of_forall _ _ (fun _ _ => trivial) l calls)
  · rintro s a t rfl - ht
    exact (Option.some.inj (hstep.symm.trans ht)).symm
  · rintro s a rfl -
    exact hroom

end Calls

section Claim

variable (l : STLine) (hsane : l.m_szLineBuf.Sane)

theorem not_alwaysRoomy_of_error (f : Fault) (ho : findEnd l = .error f) : ¬AlwaysRoomy l := by
  intro h
  obtain ⟨o, hok⟩ := ((alwaysRoomy_iff l).mp h).1.search
  rw [ho] at hok
  cases hok

theorem alwaysRoomy_nil (ho : findEnd l = .ok none) (hnil : l.pSource = []) : AlwaysRoomy l := by
  apply alwaysRoomy_of_fixed
  · refine ⟨⟨none, ho⟩, fun buf line h => ?_⟩
    rw [copyOf, ho] at h
    dsimp only at h
    rw [if_pos hnil] at h
    cases h
  · rw [callStep, getNextLine, ho, ok_bind]
    dsimp only
    rw [if_pos hnil]
    rfl

include hsane

theorem roomy_rest_iff (ho : findEnd l = .ok none) (hne : l.pSource ≠ []) :
    Roomy l ↔ l.pSource.length < 2^l.m_szLineBuf.nIdx := by
  have hcopy : copyOf l = some (l.m_szLineBuf, l.pSource) := by
    rw [copyOf, ho]
    exact if_neg hne
  constructor
  · exact fun h => (h.copy _ _ hcopy).2
  · intro hlt
    refine ⟨⟨none, ho⟩, fun buf line h => ?_⟩
    rw [hcopy] at h
    cases h
    refine ⟨fun hnull => ?_, hlt⟩
    have hpos := List.length_pos_iff.mpr hne
    rw [hsane.mp hnull, pow_zero] at hlt
    omega

-- The last piece has no end: all calls from there on copy it to the buffer at hand.
theorem alwaysRoomy_rest_iff (ho : findEnd l = .ok none) (hne : l.pSource ≠ []) :
    AlwaysRoomy l ↔ l.pSource.length < 2^l.m_szLineBuf.nIdx := by
  rw [alwaysRoomy_iff, roomy_rest_iff l hsane ho hne]
  apply and_iff_left_of_imp
  intro hlt l' hl'
  have hroom := (roomy_rest_iff l hsane ho hne).mpr hlt
  rw [getNextLine_rest l ho hne hroom] at hl'
  cases hl'
  have hpos : l.m_szLineBuf.nIdx ≠ 0 := by
    intro h0
    have hlen := List.length_pos_iff.mpr hne
    rw [h0, pow_zero] at hlt
    omega
  let l1 : STLine := { l with m_szLineBuf := ⟨some l.pSource, l.m_szLineBuf.nIdx⟩ }
  have hroom1 : Roomy l1 := (roomy_rest_iff l1 (by simp [l1, LineBuf.Sane, hpos]) ho hne).mpr hlt
  exact alwaysRoomy_of_fixed l1 hroom1 (getNextLine_rest l1 ho hne hroom1)

-- There is room for a piece with an end as soon as there is a buffer at all.
theorem roomy_piece_iff (nSize : ℕ) (ho : findEnd l = .ok (some nSize)) :
    Roomy l ↔ ∀ k, classAfterLine l.m_szLineBuf.nIdx nSize = some k → k ≠ 0 := by
  obtain ⟨hclass, hgrow⟩ := growLineBuf_spec l.m_szLineBuf nSize hsane
  rw [← hclass]
  have hlen : (l.pSource.take nSize).length = nSize := by
    have hlt := findEnd_lt l nSize ho
    rw [List.length_take]
    omega
  have hcopy : copyOf l = (growLineBuf l.m_szLineBuf (getIndex (nSize+1))).map
      (fun buf => (buf, l.pSource.take nSize)) := by
    rw [copyOf, ho]
  have hroomy : Roomy l ↔
      ∀ buf line, copyOf l = some (buf, line) → buf.pValue ≠ none ∧ line.length+1 ≤ 2^buf.nIdx :=
    ⟨fun h => h.copy, fun h => ⟨⟨some nSize, ho⟩, h⟩⟩
  rw [hroomy, hcopy]
  cases hb : growLineBuf l.m_szLineBuf (getIndex (nSize+1)) with
  | none =>
    apply iff_of_true
    · intro buf line h
      cases h
    · intro k hk
      cases hk
  | some buf =>
    obtain ⟨hsane', hfit⟩ := hgrow buf hb
    constructor
    · intro h k hk
      cases hk
      exact mt hsane'.mpr (h buf _ rfl).1
    · intro h buf' line hline
      cases hline
      rw [hlen]
      exact ⟨mt hsane'.mp (h buf.nIdx rfl), hfit⟩

theorem callStep_noBuffer (nSize : ℕ) (ho : findEnd l = .ok (some nSize))
    (hclass : classAfterLine l.m_szLineBuf.nIdx nSize = none) :
    Roomy l ∧ callStep l () = some { l with m_szLineBuf := ⟨none, 0⟩ } := by
  constructor
  · apply (roomy_piece_iff l hsane nSize ho).mpr
    rw [hclass]
    intro k hk
    cases hk
  · apply getNextLine_noBuffer l nSize ho
    rw [← Option.map_eq_none_iff, (growLineBuf_spec l.m_szLineBuf nSize hsane).1, hclass]

theorem alwaysRoomy_noBuffer (nSize : ℕ) (ho : findEnd l = .ok (some nSize))
    (hclass : classAfterLine l.m_szLineBuf.nIdx nSize = none) : AlwaysRoomy l := by
  obtain ⟨hroom, hstep⟩ := callStep_noBuffer l hsane nSize ho hclass
  apply (alwaysRoomy_iff l).mpr ⟨hroom, fun l' hl' => ?_⟩
  rw [hstep] at hl'
  cases hl'
  -- the class is still too large for a new buffer
  have hclass0 : classAfterLine 0 nSize = none := by
    unfold classAfterLine at hclass ⊢
    split_ifs at hclass with hlt hfit
    rw [if_pos (by omega), if_neg hfit]
  obtain ⟨hroom0, hstep0⟩ := callStep_noBuffer { l with m_szLineBuf := ⟨none, 0⟩ }
      (by simp [LineBuf.Sane]) nSize ho hclass0
  exact alwaysRoomy_of_fixed _ hroom0 hstep0

theorem callStep_piece (nSize k : ℕ) (ho : findEnd l = .ok (some nSize))
    (hclass : classAfterLine l.m_szLineBuf.nIdx nSize = some k) (hk : k ≠ 0) :
    Roomy l ∧ callStep l () = some { l with
      m_szLineBuf := ⟨some (l.pSource.take nSize), k⟩
      pSource := if l.pSource.drop (nSize+1) = [] then l.pSource else l.pSource.drop (nSize+1) } := by
  have hroom : Roomy l := by
    apply (roomy_piece_iff l hsane nSize ho).mpr
    rw [hclass]
    intro k' hk'
    cases hk'
    exact hk
  obtain ⟨buf, hb, hbk⟩ :=
    Option.map_eq_some_iff.mp ((growLineBuf_spec l.m_szLineBuf nSize hsane).1.trans hclass)
  refine ⟨hroom, ?_⟩
  rw [← hbk]
  exact getNextLine_piece l nSize ho buf hb hroom

omit hsane in
-- A second piece of this size finds a buffer that is large enough.
theorem classAfterLine_again (nIdx nSize k : ℕ) (hclass : classAfterLine nIdx nSize = some k) :
    classAfterLine k nSize = some k := by
  unfold classAfterLine at hclass ⊢
  split_ifs at hclass with hlt hfit
  · cases hclass
    rw [if_neg (by omega)]
  · cases hclass
    rw [if_neg hlt]

-- A piece with an end: the last one is copied again and again, and behind another one the text goes on.
theorem alwaysRoomy_piece_iff (nSize k : ℕ) (ho : findEnd l = .ok (some nSize))
    (hclass : classAfterLine l.m_szLineBuf.nIdx nSize = some k) : AlwaysRoomy l ↔ k ≠ 0 ∧
      (l.pSource.drop (nSize+1) ≠ [] → AlwaysRoomy { l with
        m_szLineBuf := ⟨some (l.pSource.take nSize), k⟩, pSource := l.pSource.drop (nSize+1) }) := by
  rw [alwaysRoomy_iff, roomy_piece_iff l hsane nSize ho, hclass]
  have hk : (∀ k', some k = some k' → k' ≠ 0) ↔ k ≠ 0 :=
    ⟨fun h => h k rfl, fun h k' hk' => (Option.some.inj hk') ▸ h⟩
  rw [hk]
  apply and_congr_right
  intro hk0
  obtain ⟨-, hnext⟩ := callStep_piece l hsane nSize k ho hclass hk0
  rw [hnext]
  by_cases hrest : l.pSource.drop (nSize+1) = []
  · rw [if_pos hrest]
    apply iff_of_true _ (fun hne => absurd hrest hne)
    intro l' hl'
    cases hl'
    let l1 : STLine := { l with m_szLineBuf := ⟨some (l.pSource.take nSize), k⟩ }
    obtain ⟨hroom1, hstep1⟩ := callStep_piece l1 (by simp [l1, LineBuf.Sane, hk0]) nSize k ho
      (classAfterLine_again _ nSize k hclass) hk0
    have hrest1 : l1.pSource.drop (nSize+1) = [] := hrest
    rw [if_pos hrest1] at hstep1
    exact alwaysRoomy_of_fixed l1 hroom1 hstep1
  · rw [if_neg hrest]
    constructor
    · intro h _
      exact h _ rfl
    · intro h l' hl'
      cases hl'
      exact h hrest

omit hsane in
theorem piecesFit_rest_iff (nIdx : ℕ) (text : List UInt8) :
    PiecesFit nIdx ([], some text) ↔ (text ≠ [] → text.length < 2^nIdx) := by
  constructor
  · intro h
    obtain ⟨rest, hrest, hfit⟩ := h.last nIdx rfl
    cases hrest
    exact hfit
  · intro h
    refine ⟨fun _ => by simp, fun k hk => ?_⟩
    cases hk
    exact ⟨text, rfl, h⟩

omit hsane in
theorem not_piecesFit_behind (nIdx : ℕ) : ¬PiecesFit nIdx ([], none) := by
  intro h
  obtain ⟨rest, hrest, -⟩ := h.last nIdx rfl
  cases hrest

omit hsane in
theorem piecesFit_cons_iff (nIdx nSize : ℕ) (sizes : List ℕ) (text : Option (List UInt8)) (k : ℕ)
    (hclass : classAfterLine nIdx nSize = some k) :
    PiecesFit nIdx (nSize :: sizes, text) ↔ k ≠ 0 ∧ PiecesFit k (sizes, text) := by
  have hzero : k ≠ 0 ↔ (nIdx = 0 → nSize ≠ 0) := by
    have hidx := getIndex_eq_zero_iff (nSize+1) (by omega)
    unfold classAfterLine at hclass
    split_ifs at hclass with hgt hfit
    · cases hclass
      omega
    · cases hclass
      omega
  have hfold : (nSize :: sizes).foldlM classAfterLine nIdx = sizes.foldlM classAfterLine k := by
    rw [List.foldlM_cons, hclass]
    rfl
  constructor
  · intro h
    have hk : k ≠ 0 := hzero.mpr (fun h0 hs => h.first h0 (by rw [hs]; rfl))
    refine ⟨hk, fun h0 => absurd h0 hk, fun k' hk' => ?_⟩
    exact h.last k' (hfold.trans hk')
  · rintro ⟨hk, h⟩
    refine ⟨fun h0 hs => hzero.mp hk h0 (Option.some.inj hs), fun k' hk' => ?_⟩
    exact h.last k' (hfold.symm.trans hk')

omit hsane in
-- Behind a piece for which there is no buffer nothing is copied any more.
theorem piecesFit_noBuffer (nIdx nSize : ℕ) (hclass : classAfterLine nIdx nSize = none)
    (sizes : List ℕ) (text : Option (List UInt8)) : PiecesFit nIdx (nSize :: sizes, text) := by
  have hne : nIdx = 0 → nSize ≠ 0 := by
    rintro h0 rfl
    rw [h0] at hclass
    cases hclass
  have hfold : (nSize :: sizes).foldlM classAfterLine nIdx = none := by
    rw [List.foldlM_cons, hclass]
    rfl
  refine ⟨fun h0 h => hne h0 (Option.some.inj h), fun k hk => ?_⟩
  rw [hfold] at hk
  cases hk

theorem alwaysRoomy_iff_piecesFit (fuel : ℕ) (hfuel : l.pSource.length < fuel) :
    AlwaysRoomy l ↔ PiecesFit l.m_szLineBuf.nIdx (pieces l.pEnd l.nSkipLen fuel l.pSource) := by
  induction fuel generalizing l with
  | zero => omega
  | succ fuel ih =>
    have hend : findEnd ⟨l.pSource, ⟨none, 0⟩, l.pEnd, l.nSkipLen⟩ = findEnd l := rfl
    rw [pieces, hend]
    cases ho : findEnd l with
    | error f =>
      exact iff_of_false (not_alwaysRoomy_of_error l f ho) (not_piecesFit_behind _)
    | ok o =>
      cases o with
      | none =>
        dsimp only
        by_cases hnil : l.pSource = []
        · exact iff_of_true (alwaysRoomy_nil l ho hnil)
            ((piecesFit_rest_iff _ _).mpr (fun h => absurd hnil h))
        · rw [alwaysRoomy_rest_iff l hsane ho hnil, piecesFit_rest_iff, forall_prop_of_true hnil]
      | some nSize =>
        dsimp only
        have hlt := findEnd_lt l nSize ho
        cases hclass : classAfterLine l.m_szLineBuf.nIdx nSize with
        | none =>
          apply iff_of_true (alwaysRoomy_noBuffer l hsane nSize ho hclass)
          split_ifs
          · exact piecesFit_noBuffer _ nSize hclass [] (some [])
          · exact piecesFit_noBuffer _ nSize hclass _ _
        | some k =>
          rw [alwaysRoomy_piece_iff l hsane nSize k ho hclass]
          by_cases hrest : l.pSource.drop (nSize+1) = []
          · rw [if_pos hrest, piecesFit_cons_iff _ _ _ _ k hclass, hrest]
            apply and_congr_right
            intro hk0
            exact iff_of_true (fun h => absurd rfl h)
              ((piecesFit_rest_iff _ []).mpr (fun h => absurd rfl h))
          · rw [if_neg hrest, piecesFit_cons_iff _ _ _ _ k hclass, forall_prop_of_true hrest]
            apply and_congr_right
            intro hk0
            apply ih
            · simp [LineBuf.Sane, hk0]
            · rw [List.length_drop]
              omega

omit hsane in
/-- From a zeroed `STLine`, the buffer is always large enough exactly for the files whose pieces fit. -/
theorem lineBuffer_roomy_iff (content : CString) (pEnd : Option (List UInt8)) (nSkipLen : ℕ) :
    AlwaysRoomy ⟨content.chars, ⟨none, 0⟩, pEnd, nSkipLen⟩ ↔
      PiecesFit 0 (pieces pEnd nSkipLen (content.strlen+1) content.chars) :=
  alwaysRoomy_iff_piecesFit _ (by simp [LineBuf.Sane]) _ (Nat.lt_succ_self _)

omit hsane in
/-- A single line without `'\n'` is copied to NULL. -/
theorem not_lineBuffer_roomy : ¬∀ (content : CString) (pEnd : Option (List UInt8)) (nSkipLen : ℕ),
    AlwaysRoomy ⟨content.chars, ⟨none, 0⟩, pEnd, nSkipLen⟩ := by
  intro h
  have hroom := (h ⟨[97, 98], by decide⟩ none 0 [()]).1
  exact (hroom.copy ⟨none, 0⟩ [97, 98] rfl).1 rfl

end Claim

end Leviathan.FileLines
