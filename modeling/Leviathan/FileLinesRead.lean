import Leviathan.FileLines

namespace Leviathan.FileLines

/-- The class of the line buffer after a line of `nSize` characters. -/
def classAfterLine (nIdx nSize : ℕ) : Option ℕ :=
  if nIdx < getIndex (nSize+1) then
    if getIndex (nSize+1)+1 < 31 then some (getIndex (nSize+1)+1) else none
  else some nIdx

/-- The class of the line buffer after some terminated lines. -/
def classAfter : ℕ → List (List UInt8) → Option ℕ
  | nIdx, [] => some nIdx
  | nIdx, line :: lines => (classAfterLine nIdx line.length).bind (classAfter · lines)

/-- The lines of the text that end with a `'\n'`. -/
def terminatedLines (content : List UInt8) : List (List UInt8) :=
  if content.getLast? = some g_rc then linesOf content else (linesOf content).dropLast

/-- The files that are read right, when the line buffer has class `nIdx` (0: none yet): there is no
blank line before the last one, the terminated lines leave a buffer behind, and a last line
without `'\n'` fits it. -/
structure Readable (nIdx : ℕ) (content : List UInt8) : Prop where
  nonempty : content ≠ []
  blank : [] ∉ (linesOf content).dropLast
  buffer : ∃ k, classAfter nIdx (terminatedLines content) = some k ∧ k ≠ 0 ∧
    (content.getLast? ≠ some g_rc → ∀ line ∈ (linesOf content).getLast?, line.length+1 ≤ 2^k)

theorem linesOf_terminated (line rest : List UInt8) (h : g_rc ∉ line) :
    linesOf (line ++ g_rc :: rest) = line :: linesOf rest := by
  induction line with
  | nil => simp [linesOf]
  | cons c line ih =>
    obtain ⟨hc, hline⟩ := not_or.mp (mt List.mem_cons.mpr h)
    simp only [List.cons_append, linesOf, ih hline, if_neg (Ne.symm hc)]

theorem linesOf_unterminated (line : List UInt8) (h : g_rc ∉ line) (hne : line ≠ []) :
    linesOf line = [line] := by
  induction line with
  | nil => exact absurd rfl hne
  | cons c line ih =>
    obtain ⟨hc, hline⟩ := not_or.mp (mt List.mem_cons.mpr h)
    by_cases hl : line = []
    · subst hl
      simp [linesOf, Ne.symm hc]
    · simp only [linesOf, ih hline hl, if_neg (Ne.symm hc)]

-- A text has no `'\n'`, or it is a first line and a rest.
theorem first_line (text : List UInt8) :
    g_rc ∉ text ∨ ∃ line rest, text = line ++ g_rc :: rest ∧ g_rc ∉ line := by
  by_cases h : g_rc ∈ text
  · obtain ⟨line, rest, rfl, hline⟩ := List.eq_append_cons_of_mem h
    exact Or.inr ⟨line, rest, rfl, hline⟩
  · exact Or.inl h

theorem getLast_terminated (line rest : List UInt8) (hrest : rest ≠ []) :
    (line ++ g_rc :: rest).getLast? = rest.getLast? := by
  rw [List.getLast?_append_of_ne_nil _ (by simp), List.getLast?_cons_of_ne_nil hrest]

theorem findEnd_line (line rest : List UInt8) (buf : LineBuf) (h : g_rc ∉ line) :
    findEnd ⟨line ++ g_rc :: rest, buf, none, 0⟩ = .ok (some line.length) := by
  have hidx : (line ++ g_rc :: rest).findIdx? (· == g_rc) = some line.length := by
    rw [List.findIdx?_append, List.findIdx?_eq_none_iff.mpr, List.findIdx?_cons]
    · simp
    · intro c hc
      exact beq_false_of_ne (fun he => h (he ▸ hc))
  simp [findEnd, hidx]

/-- A buffer is NULL exactly when its class is 0. -/
def LineBuf.Sane (buf : LineBuf) : Prop := buf.pValue = none ↔ buf.nIdx = 0

theorem copyLine_ok (buf : LineBuf) (line : List UInt8) (hb : buf.Sane) (h0 : buf.nIdx ≠ 0)
    (hfit : line.length+1 ≤ 2^buf.nIdx) : copyLine buf line = .ok ⟨some line, buf.nIdx⟩ := by
  have hsome : buf.pValue ≠ none := fun hn => h0 (hb.mp hn)
  obtain ⟨old, hold⟩ := Option.ne_none_iff_exists'.mp hsome
  simp [copyLine, hold, hfit]

-- The buffer for a terminated line: its class, and room for the line unless there is none.
theorem growLineBuf_spec (buf : LineBuf) (nSize : ℕ) (hb : buf.Sane) :
    (growLineBuf buf (getIndex (nSize+1))).map LineBuf.nIdx = classAfterLine buf.nIdx nSize ∧
      ∀ buf', growLineBuf buf (getIndex (nSize+1)) = some buf' → buf'.Sane ∧ nSize+1 ≤ 2^buf'.nIdx := by
  have hle : nSize+1 ≤ 2^getIndex (nSize+1) := le_two_pow_getIndex (nSize+1) (by omega)
  unfold growLineBuf newBufByIndex classAfterLine
  split
  · split
    · refine ⟨rfl, ?_⟩
      rintro buf' ⟨⟩
      refine ⟨by simp [LineBuf.Sane], hle.trans ?_⟩
      exact Nat.pow_le_pow_right (by decide) (Nat.le_succ _)
    · exact ⟨rfl, by simp⟩
  · rename_i hge
    refine ⟨rfl, ?_⟩
    rintro buf' ⟨⟩
    exact ⟨hb, hle.trans (Nat.pow_le_pow_right (by decide) (by omega))⟩

theorem getNextLine_line (line rest : List UInt8) (buf : LineBuf) (h : g_rc ∉ line) :
    getNextLine ⟨line ++ g_rc :: rest, buf, none, 0⟩ =
      (match growLineBuf buf (getIndex (line.length+1)) with
      | none => .ok (⟨line ++ g_rc :: rest, ⟨none, 0⟩, none, 0⟩, 0)
      | some buf' => copyLine buf' line >>= fun b =>
        if rest = [] then .ok (⟨line ++ g_rc :: rest, b, none, 0⟩, 0)
        else .ok (⟨rest, b, none, 0⟩, line.length)) := by
  have htake : (line ++ g_rc :: rest).take line.length = line := List.take_left
  have hdrop : (line ++ g_rc :: rest).drop (line.length+1) = rest := by
    rw [← List.drop_drop, List.drop_left]
    rfl
  rw [getNextLine, findEnd_line line rest buf h, ok_bind]
  simp only [htake, hdrop]
  rfl

theorem classAfterLine_ne_zero (nIdx : ℕ) (line : List UInt8) (k : ℕ) (hline : line ≠ [])
    (hk : classAfterLine nIdx line.length = some k) : k ≠ 0 := by
  have hpos : 0 < line.length := List.length_pos_iff.mpr hline
  have hidx : getIndex (line.length+1) ≠ 0 := by
    intro h0
    have := (getIndex_eq_zero_iff (line.length+1) (by omega)).mp h0
    omega
  unfold classAfterLine at hk
  split at hk
  · split at hk
    · cases hk
      omega
    · cases hk
  · cases hk
    omega

end Leviathan.FileLines
