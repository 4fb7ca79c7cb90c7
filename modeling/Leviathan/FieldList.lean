import Leviathan.FileFilter

/-! `CFileUtil::getFieldList` (comFileUtil.cpp) for any separator and any list that takes the words. -/
namespace Leviathan.FieldList

open FileFilter (isBlank sizeofWord dropWhile_append_of_neg)

section Model

-- the list, and its `push_back`: `none` where that answers false
variable {σ : Type} (push_back : σ → CString → Except Fault (Option σ))

/-- The loop of `getFieldList`, with at most `k` characters left: its answer, and the list. -/
def getFieldListFrom (cSeparator : UInt8) : ℕ → CString → σ → Except Fault (Bool × σ)
  | 0, _, pList => .ok (true, pList)
  | k+1, pRecord, pList =>
    if pRecord.chars = [] then .ok (true, pList)
    else
      let pRecord := pRecord.dropWhile isBlank
      let word := pRecord.takeWhile (fun c => c ≠ cSeparator)
      if word.strlen < sizeofWord then do
        match ← push_back pList word with
        | none => return (false, pList)
        | some pList =>
          -- without a separator this was the last word
          if pRecord.strlen = word.strlen then return (true, pList)
          else getFieldListFrom cSeparator k (pRecord.drop (word.strlen+1)) pList
      else .error .outOfBounds

def getFieldList (pRecord : CString) (cSeparator : UInt8) (pList : σ) : Except Fault (Bool × σ) :=
  if cSeparator = 0 then do
    match ← push_back pList pRecord with
    | none => return (false, pList)
    | some pList => return (true, pList)
  else getFieldListFrom push_back cSeparator pRecord.strlen pRecord pList

/-- A list of texts that takes every word at its end. -/
def append (words : List (List UInt8)) (word : CString) : Except Fault (Option (List (List UInt8))) :=
  .ok (some (words ++ [word.chars]))

/-- `push_back` of a `CStringList`, which never answers false; `addr` gives the addresses of the
copies. -/
def pushText (addr : ℕ → ℤ) (pList : FileFilter.CStringList) (word : CString) :
    Except Fault (Option FileFilter.CStringList) :=
  (pList.push_back ⟨addr pList.m_nUseCnt, word⟩).map some

end Model

section Filter

variable (addr : ℕ → ℤ) (cSeparator : UInt8) (pRecord : CString) (pList : FileFilter.CStringList)

theorem getFieldListFrom_filter (k : ℕ) : FileFilter.getFieldListFrom addr cSeparator k pRecord pList =
    (getFieldListFrom (pushText addr) cSeparator k pRecord pList).map Prod.snd := by
  induction k generalizing pRecord pList with
  | zero => rfl
  | succ k ih =>
    rw [FileFilter.getFieldListFrom, getFieldListFrom]
    by_cases hnil : pRecord.chars = []
    · rw [if_pos hnil, if_pos hnil]
      rfl
    · rw [if_neg hnil, if_neg hnil]
      dsimp only
      by_cases hshort : ((pRecord.dropWhile isBlank).takeWhile (fun c => c ≠ cSeparator)).strlen <
          sizeofWord
      · rw [if_pos hshort, if_pos hshort, pushText]
        cases pList.push_back
            ⟨addr pList.m_nUseCnt, (pRecord.dropWhile isBlank).takeWhile (fun c => c ≠ cSeparator)⟩ with
        | error fault => rfl
        | ok pList' =>
          by_cases hend : (pRecord.dropWhile isBlank).strlen =
              ((pRecord.dropWhile isBlank).takeWhile (fun c => c ≠ cSeparator)).strlen
          · simp only [Except.map, ok_bind, if_pos hend]
            rfl
          · simp only [Except.map, ok_bind, if_neg hend]
            exact ih _ pList'
      · rw [if_neg hshort, if_neg hshort]
        rfl

/-- The filter for file names splits its string with the list of texts. -/
theorem getFieldList_filter : FileFilter.getFieldList addr pRecord cSeparator pList =
    (getFieldList (pushText addr) pRecord cSeparator pList).map Prod.snd := by
  unfold FileFilter.getFieldList getFieldList
  split_ifs
  · rw [pushText]
    cases pList.push_back ⟨addr pList.m_nUseCnt, pRecord⟩ <;> rfl
  · exact getFieldListFrom_filter addr cSeparator pRecord pList pRecord.strlen

end Filter

/-- The fields joined by the separator. -/
def joined (cSeparator : UInt8) (fields : List CString) : List UInt8 :=
  [cSeparator].intercalate (fields.map (fun f => f.chars))

/-- What is left of the fields: leading blanks go, and a last field that is empty is no word. -/
def wordsOf (fields : List CString) : List (List UInt8) :=
  (if fields.getLast?.map (fun f => f.chars) = some [] then fields.dropLast else fields).map
    (fun f => f.chars.dropWhile isBlank)

section Words

variable (f g : CString) (fields : List CString)

theorem wordsOf_single (hne : f.chars ≠ []) : wordsOf [f] = [f.chars.dropWhile isBlank] := by
  rw [wordsOf, if_neg]
  · rfl
  · exact fun h => hne (Option.some.inj h)

theorem wordsOf_cons :
    wordsOf (f :: g :: fields) = f.chars.dropWhile isBlank :: wordsOf (g :: fields) := by
  unfold wordsOf
  rw [List.getLast?_cons_cons, List.dropLast_cons_of_ne_nil (List.cons_ne_nil g fields)]
  split_ifs
  · exact List.map_cons
  · exact List.map_cons

end Words

section Pass

variable {σ : Type} (push_back : σ → CString → Except Fault (Option σ)) (cSeparator : UInt8)
  (hblank : isBlank cSeparator = false) (k : ℕ) (pRecord f : CString) (pList pList' : σ)
  (hf : cSeparator ∉ f.chars) (hshort : f.strlen < sizeofWord)
  (hpush : ∀ word : CString, word.chars = f.chars.dropWhile isBlank →
    push_back pList word = .ok (some pList'))

theorem eq_of_chars (s t : CString) (h : s.chars = t.chars) : s = t := by
  cases s
  cases t
  cases h
  rfl

include hf

theorem no_separator : cSeparator ∉ f.chars.dropWhile isBlank :=
  fun hc => hf ((List.dropWhile_sublist _).mem hc)

include hshort hpush

omit hf in
-- One pass of the loop, with the word that it finds.
theorem getFieldListFrom_pass (hne : pRecord.chars ≠ [])
    (hword : (pRecord.chars.dropWhile isBlank).takeWhile (fun c => c ≠ cSeparator) =
      f.chars.dropWhile isBlank) :
    getFieldListFrom push_back cSeparator (k+1) pRecord pList =
      if (pRecord.dropWhile isBlank).strlen = (f.chars.dropWhile isBlank).length then .ok (true, pList')
      else getFieldListFrom push_back cSeparator k
        ((pRecord.dropWhile isBlank).drop ((f.chars.dropWhile isBlank).length+1)) pList' := by
  have hlen : ((pRecord.dropWhile isBlank).takeWhile (fun c => c ≠ cSeparator)).strlen =
      (f.chars.dropWhile isBlank).length := congrArg List.length hword
  have hfit : (f.chars.dropWhile isBlank).length < sizeofWord :=
    lt_of_le_of_lt (List.dropWhile_sublist _).length_le hshort
  rw [getFieldListFrom, if_neg hne]
  dsimp only
  rw [hlen, if_pos hfit, hpush _ hword, ok_bind]
  rfl

-- A field at the end of the record.
theorem getFieldListFrom_last (hrec : pRecord.chars = f.chars) (hne : f.chars ≠ []) :
    getFieldListFrom push_back cSeparator (k+1) pRecord pList = .ok (true, pList') := by
  have hword : (pRecord.chars.dropWhile isBlank).takeWhile (fun c => c ≠ cSeparator) =
      f.chars.dropWhile isBlank := by
    rw [hrec]
    exact takeWhile_ne_self cSeparator _ (no_separator cSeparator f hf)
  rw [getFieldListFrom_pass push_back cSeparator k pRecord f pList pList' hshort hpush
    (hrec ▸ hne) hword]
  apply if_pos
  rw [CString.strlen, CString.dropWhile_chars, hrec]

include hblank

-- A field with a separator behind it.
theorem getFieldListFrom_field (rest : CString)
    (hrec : pRecord.chars = f.chars ++ cSeparator :: rest.chars) :
    getFieldListFrom push_back cSeparator (k+1) pRecord pList =
      getFieldListFrom push_back cSeparator k rest pList' := by
  have hdrop : pRecord.chars.dropWhile isBlank =
      f.chars.dropWhile isBlank ++ cSeparator :: rest.chars := by
    rw [hrec, dropWhile_append_of_neg isBlank cSeparator _ _ hblank]
  have hword : (pRecord.chars.dropWhile isBlank).takeWhile (fun c => c ≠ cSeparator) =
      f.chars.dropWhile isBlank := by
    rw [hdrop]
    exact takeWhile_ne_append cSeparator _ rest.chars (no_separator cSeparator f hf)
  have hne : pRecord.chars ≠ [] := by
    rw [hrec]
    exact List.append_ne_nil_of_right_ne_nil _ (List.cons_ne_nil _ _)
  have hrest : (pRecord.dropWhile isBlank).drop ((f.chars.dropWhile isBlank).length+1) = rest := by
    apply eq_of_chars
    rw [CString.drop_chars, CString.dropWhile_chars, hdrop, ← List.drop_drop, List.drop_left]
    rfl
  rw [getFieldListFrom_pass push_back cSeparator k pRecord f pList pList' hshort hpush hne hword,
    if_neg, hrest]
  rw [CString.strlen, CString.dropWhile_chars, hdrop, List.length_append, List.length_cons]
  omega

end Pass

section Claim

variable (cSeparator : UInt8) (hsep : cSeparator ≠ 0) (hblank : isBlank cSeparator = false)

theorem joined_cons (f g : CString) (fields : List CString) :
    joined cSeparator (f :: g :: fields) =
      f.chars ++ cSeparator :: joined cSeparator (g :: fields) := by
  unfold joined
  rw [List.map_cons, List.map_cons, List.intercalate_cons_cons, List.append_assoc,
    List.singleton_append]

-- A record behind its first field.
theorem exists_rest (f g : CString) (fields : List CString) (pRecord : CString)
    (hrec : pRecord.chars = joined cSeparator (f :: g :: fields)) :
    ∃ rest : CString, rest.chars = joined cSeparator (g :: fields) ∧
      pRecord.chars = f.chars ++ cSeparator :: rest.chars ∧
      pRecord.strlen = f.strlen+(rest.strlen+1) := by
  rw [joined_cons] at hrec
  have hlen : pRecord.strlen = f.strlen+((joined cSeparator (g :: fields)).length+1) := by
    rw [CString.strlen, hrec, List.length_append, List.length_cons]
    rfl
  refine ⟨⟨joined cSeparator (g :: fields), fun h0 => pRecord.noNul ?_⟩, rfl, hrec, hlen⟩
  rw [hrec]
  exact List.mem_append_right _ (List.mem_cons_of_mem _ h0)

include hblank

-- The fields come one by one, whatever words the list has already.
theorem getFieldListFrom_joined (fields : List CString) (hne : fields ≠ [])
    (hfree : ∀ f ∈ fields, cSeparator ∉ f.chars) (hshort : ∀ f ∈ fields, f.strlen < sizeofWord) (k : ℕ)
    (pRecord : CString) (hk : pRecord.strlen ≤ k) (hrec : pRecord.chars = joined cSeparator fields)
    (words : List (List UInt8)) :
    getFieldListFrom append cSeparator k pRecord words = .ok (true, words ++ wordsOf fields) := by
  induction fields generalizing k pRecord words with
  | nil => exact absurd rfl hne
  | cons f fields ih =>
    have hf := hfree f List.mem_cons_self
    have hlen := hshort f List.mem_cons_self
    have hpush (word : CString) (hword : word.chars = f.chars.dropWhile isBlank) :
        append words word = .ok (some (words ++ [f.chars.dropWhile isBlank])) := by
      rw [append, hword]
    cases fields with
    | nil =>
      have hrecf : pRecord.chars = f.chars := by
        rw [hrec, joined, List.map_singleton, List.intercalate_singleton]
      by_cases hnil : f.chars = []
      · -- an empty last field ends the loop
        have hwords : wordsOf [f] = [] := by
          have hlast : [f].getLast?.map (fun f => f.chars) = some [] := congrArg some hnil
          rw [wordsOf, if_pos hlast]
          rfl
        rw [hwords, List.append_nil]
        cases k with
        | zero => rfl
        | succ k => rw [getFieldListFrom, if_pos (hrecf.trans hnil)]
      · have hpos := List.length_pos_iff.mpr hnil
        have hpos' : 0 < pRecord.strlen := by rwa [CString.strlen, hrecf]
        obtain ⟨k, rfl⟩ := Nat.exists_eq_succ_of_ne_zero (hpos'.trans_le hk).ne'
        rw [wordsOf_single f hnil]
        exact getFieldListFrom_last append cSeparator k pRecord f words _ hf hlen hpush hrecf hnil
    | cons g fields =>
      obtain ⟨rest, hrest, hchars, hlenrec⟩ := exists_rest cSeparator f g fields pRecord hrec
      obtain ⟨k, rfl⟩ := Nat.exists_eq_succ_of_ne_zero (show k ≠ 0 by omega)
      rw [getFieldListFrom_field append cSeparator hblank k pRecord f words _ hf hlen hpush rest hchars,
        ih (List.cons_ne_nil g fields) (fun x hx => hfree x (List.mem_cons_of_mem f hx))
          (fun x hx => hshort x (List.mem_cons_of_mem f hx)) k rest (by omega) hrest,
        wordsOf_cons, List.append_assoc, List.singleton_append]

include hsep

/-- The words of a record are its fields without leading blanks, except for a last field that is
empty. -/
theorem getFieldList_joined (fields : List CString) (hne : fields ≠ [])
    (hfree : ∀ f ∈ fields, cSeparator ∉ f.chars) (hshort : ∀ f ∈ fields, f.strlen < sizeofWord)
    (pRecord : CString) (hrec : pRecord.chars = joined cSeparator fields) :
    getFieldList append pRecord cSeparator [] = .ok (true, wordsOf fields) := by
  rw [getFieldList, if_neg hsep]
  exact getFieldListFrom_joined cSeparator hblank fields hne hfree hshort _ pRecord le_rfl hrec []

omit hsep hblank in
/-- The record `a,, ` with a blank last field. -/
theorem getFieldList_joined_three :
    getFieldList append ⟨[97, 44, 44, 32], by decide⟩ 44 [] = .ok (true,
      wordsOf [⟨[97], by decide⟩, ⟨[], by decide⟩, ⟨[32], by decide⟩]) :=
  getFieldList_joined 44 (by decide) (by decide) [⟨[97], by decide⟩, ⟨[], by decide⟩, ⟨[32], by decide⟩]
    (by decide) (by decide) (by decide) ⟨[97, 44, 44, 32], by decide⟩ (by decide)

end Claim

end Leviathan.FieldList
