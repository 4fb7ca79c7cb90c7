import Leviathan.Buffers
import Leviathan.StringHash

/-! The text that `hash_string` puts together (`add_string`, hash.c), in a block that grows by a fixed
number of bytes. -/
namespace Leviathan.AddString
open Buffers

section Model

def bufUnitLen : ℕ := 256

/-- `struct dynBuf`: the block, and the size it was allocated with. -/
structure DynBuf where
  buf : Option (List UInt8)
  blen : ℕ

def empty : DynBuf := { buf := none, blen := 0 }

-- whether an allocation of a size succeeds, and the byte that fresh memory holds at an offset
variable (granted : ℕ → Bool) (fill : ℕ → UInt8)

/-- `realloc`; `malloc` for no block. -/
def realloc (buf : List UInt8) (size : ℕ) : Option (List UInt8) :=
  if granted size then
    some (buf.take size ++ (List.range (size-buf.length)).map (fun i => fill (buf.length+i)))
  else none

/-- The loop of `add_string`, for at most `k` rounds: the block is not kept when it cannot grow. -/
def grow (str : List UInt8) : ℕ → DynBuf → Except Fault DynBuf
  | 0, _ => .error .diverges
  | k+1, stBuf =>
    match stBuf.buf with
    | none => .ok stBuf
    | some buf => do
      let held ← text buf
      if stBuf.blen < held.length+str.length then
        let size := stBuf.blen+bufUnitLen
        match realloc granted fill buf size with
        | none => return { buf := none, blen := stBuf.blen }
        | some buf => grow str k { buf := some buf, blen := size }
      else return stBuf

/-- The empty string in a first block. -/
def start (stBuf : DynBuf) : DynBuf :=
  match stBuf.buf with
  | some _ => stBuf
  | none =>
    match realloc granted fill [] bufUnitLen with
    | none => stBuf
    | some buf => { buf := some (buf.set 0 0), blen := bufUnitLen }

/-- `add_string`, and whether it answers 1. -/
def addString (stBuf : DynBuf) (str : Option (List UInt8)) : Except Fault (DynBuf × Bool) :=
  match str with
  | none => .ok (stBuf, true)
  | some str => do
    let stBuf ← grow granted fill str (str.length+1) (start granted fill stBuf)
    match stBuf.buf with
    | none => return (stBuf, true)
    | some buf =>
      -- `strcat`
      let held ← text buf
      let buf ← strcpy buf held.length str
      return ({ buf := some buf, blen := stBuf.blen }, false)

/-- A sequence of calls, whatever they answer. -/
def addStrings (strs : List (Option (List UInt8))) : Except Fault DynBuf :=
  strs.foldlM (fun stBuf str => (addString granted fill stBuf str).map Prod.fst) empty

/-- What `hash_string` does with an entry: four calls, whose answers are gathered. -/
def addEntry (s : DynBuf × Bool) (np : List UInt8 × List UInt8) : Except Fault (DynBuf × Bool) :=
  if s.2 then .ok s
  else
    [np.1, [61], np.2, [10]].foldlM (fun s str => do
      let (stBuf, res) ← addString granted fill s.1 (some str)
      return (stBuf, s.2 || res)) s

def hashString (h : StringHash.Hash) : Except Fault (Option (List UInt8)) := do
  let s ← (StringHash.entries h).foldlM (addEntry granted fill) (empty, false)
  return s.1.buf

end Model

/-- The added strings, one behind the other; NULL adds nothing. -/
def concat (strs : List (Option CString)) : List UInt8 :=
  strs.flatMap (fun str => (str.map CString.chars).getD [])

def calls (strs : List (Option CString)) : List (Option (List UInt8)) := strs.map (Option.map CString.chars)

/-- The text `t` is in the block, whose size leaves room for the NUL. -/
def Holds (stBuf : DynBuf) (t : List UInt8) : Prop :=
  match stBuf.buf with
  | none => t = []
  | some buf => text buf = .ok t ∧ t.length+1 ≤ stBuf.blen

/-- Where every allocation succeeds, each call leaves the strings so far in the block. -/
def NeverOverruns (strs : List (Option CString)) : Prop :=
  ∀ (fill : ℕ → UInt8) (pre : List (Option CString)), pre <+: strs →
    ∃ stBuf, addStrings (fun _ => true) fill (calls pre) = .ok stBuf ∧ Holds stBuf (concat pre)

/-- A length that is no positive multiple of the unit. -/
def Fits (n : ℕ) : Prop := n = 0 ∨ ¬bufUnitLen ∣ n

instance (n : ℕ) : Decidable (Fits n) := inferInstanceAs (Decidable (_ ∨ _))

/-- The state behind calls that fitted: the block is the smallest that the text leaves room in. -/
def Built (stBuf : DynBuf) (t : List UInt8) : Prop :=
  Fits t.length ∧ ((stBuf = empty ∧ t = []) ∨
    ∃ rest, stBuf.buf = some (t ++ 0 :: rest) ∧ stBuf.blen = bufUnitLen*(t.length/bufUnitLen+1) ∧
      (t ++ 0 :: rest).length = stBuf.blen)

section Step

variable (fill : ℕ → UInt8) (t s rest : List UInt8)

theorem realloc_longer (buf : List UInt8) (size : ℕ) (h : buf.length ≤ size) :
    ∃ more, (buf ++ more).length = size ∧ realloc (fun _ => true) fill buf size = some (buf ++ more) := by
  refine ⟨(List.range (size-buf.length)).map (fun i => fill (buf.length+i)), ?_, ?_⟩
  · rw [List.length_append, List.length_map, List.length_range]
    omega
  · rw [realloc, if_pos rfl, List.take_of_length_le h]

/-- One round of the loop. -/
theorem grow_round (ht : 0 ∉ t) (k blen : ℕ) (hlen : (t ++ 0 :: rest).length = blen) :
    if blen < t.length+s.length then
      ∃ more, (t ++ 0 :: (rest ++ more)).length = blen+bufUnitLen ∧
        grow (fun _ => true) fill s (k+1) { buf := some (t ++ 0 :: rest), blen := blen } =
          grow (fun _ => true) fill s k { buf := some (t ++ 0 :: (rest ++ more)), blen := blen+bufUnitLen }
    else grow (fun _ => true) fill s (k+1) { buf := some (t ++ 0 :: rest), blen := blen } =
      .ok { buf := some (t ++ 0 :: rest), blen := blen } := by
  split_ifs with hgrow
  · obtain ⟨more, hmore, hrealloc⟩ := realloc_longer fill (t ++ 0 :: rest) (blen+bufUnitLen) (by omega)
    rw [List.append_assoc, List.cons_append] at hmore hrealloc
    refine ⟨more, hmore, ?_⟩
    simp only [grow, text_append rest t ht, ok_bind, if_pos hgrow, hrealloc]
  · simp only [grow, text_append rest t ht, ok_bind, if_neg hgrow]
    rfl

/-- The block grows in units to the first size that is not less than both lengths together. -/
theorem grow_spec (ht : 0 ∉ t) (k b : ℕ) (hlen : (t ++ 0 :: rest).length = bufUnitLen*b)
    (hk : t.length+s.length ≤ bufUnitLen*(b+k)) (m : ℕ)
    (hm : m = max b ((t.length+s.length+(bufUnitLen-1))/bufUnitLen)) :
    ∃ rest', (t ++ 0 :: rest').length = bufUnitLen*m ∧
      grow (fun _ => true) fill s (k+1) { buf := some (t ++ 0 :: rest), blen := bufUnitLen*b } =
        .ok { buf := some (t ++ 0 :: rest'), blen := bufUnitLen*m } := by
  induction k generalizing b rest with
  | zero =>
    have hround := grow_round fill t s rest ht 0 _ hlen
    rw [bufUnitLen] at *
    rw [if_neg (by omega)] at hround
    obtain rfl : m = b := by omega
    exact ⟨rest, hlen, hround⟩
  | succ k ih =>
    have hround := grow_round fill t s rest ht (k+1) _ hlen
    split_ifs at hround with hgrow
    · obtain ⟨more, hmore, hnext⟩ := hround
      rw [← Nat.mul_succ] at hmore hnext
      rw [hnext]
      apply ih (rest ++ more) (b+1) hmore
      · rw [bufUnitLen] at *
        omega
      · rw [bufUnitLen] at *
        omega
    · obtain rfl : m = b := by
        rw [bufUnitLen] at *
        omega
      exact ⟨rest, hlen, hround⟩

theorem start_built (stBuf : DynBuf) (h : Built stBuf t) : ∃ rest,
    (t ++ 0 :: rest).length = bufUnitLen*(t.length/bufUnitLen+1) ∧
    start (fun _ => true) fill stBuf =
      { buf := some (t ++ 0 :: rest), blen := bufUnitLen*(t.length/bufUnitLen+1) } := by
  rcases h.2 with ⟨rfl, rfl⟩ | ⟨rest, hbuf, hblen, hlen⟩
  · obtain ⟨more, hmore, hrealloc⟩ := realloc_longer fill [] bufUnitLen (Nat.zero_le _)
    obtain ⟨c, rest, rfl⟩ := List.exists_cons_of_length_pos (l := more) (by
      rw [List.nil_append, bufUnitLen] at hmore
      omega)
    refine ⟨rest, hmore, ?_⟩
    simp only [start, empty, hrealloc]
    rfl
  · refine ⟨rest, hlen.trans hblen, ?_⟩
    obtain ⟨buf, blen⟩ := stBuf
    dsimp only at hbuf hblen
    rw [hbuf, hblen]
    rfl

-- The size that is reached leaves room for the NUL unless it is the length itself.
theorem size_of_fits (n n' m : ℕ) (hle : n ≤ n') (hn : Fits n)
    (hm : m = max (n/bufUnitLen+1) ((n'+(bufUnitLen-1))/bufUnitLen)) :
    if Fits n' then m = n'/bufUnitLen+1 else bufUnitLen*m = n' := by
  split_ifs with hfits
  · rw [Fits] at hn hfits
    rw [bufUnitLen] at *
    omega
  · rw [Fits] at hn hfits
    rw [bufUnitLen] at *
    omega

/-- A call from a state that was built: it adds its string, or the NUL goes behind the block. -/
theorem addString_built (stBuf : DynBuf) (ht : 0 ∉ t) (h : Built stBuf t) :
    if Fits (t.length+s.length) then
      ∃ stBuf', addString (fun _ => true) fill stBuf (some s) = .ok (stBuf', false) ∧ Built stBuf' (t ++ s)
    else addString (fun _ => true) fill stBuf (some s) = .error .outOfBounds := by
  obtain ⟨rest, hlen, hstart⟩ := start_built fill t stBuf h
  obtain ⟨m, hm⟩ : ∃ m, m = max (t.length/bufUnitLen+1) ((t.length+s.length+(bufUnitLen-1))/bufUnitLen) :=
    ⟨_, rfl⟩
  have hsize := size_of_fits t.length (t.length+s.length) m (Nat.le_add_right _ _) h.1 hm
  obtain ⟨rest', hlen', hgrow⟩ := grow_spec fill t s rest ht s.length _ hlen
    (by rw [bufUnitLen]; omega) m hm
  have hcall : addString (fun _ => true) fill stBuf (some s) =
      strcpy (t ++ 0 :: rest') t.length s >>= fun buf =>
        .ok ({ buf := some buf, blen := bufUnitLen*m }, false) := by
    simp only [addString, hstart, hgrow, ok_bind, text_append rest' t ht]
    rfl
  rw [List.length_append] at hlen'
  split_ifs at hsize ⊢ with hfits
  · obtain ⟨more, hmore, hput⟩ := strcpy_append (0 :: rest') s t.length t rfl
      (by rw [hsize, bufUnitLen] at hlen'; omega)
    refine ⟨_, by rw [hcall, hput, ok_bind], by rwa [List.length_append], Or.inr ⟨more, rfl, ?_, ?_⟩⟩
    · rw [hsize, List.length_append]
    · simp only [List.length_append, List.length_cons] at *
      omega
  · rw [hcall, strcpy, store_error]
    · rfl
    · simp only [List.length_append, List.length_cons, List.length_nil] at *
      omega

end Step

section Run

variable (fill : ℕ → UInt8) (strs : List (Option CString))

theorem concat_noNul : 0 ∉ concat strs := by
  intro h
  obtain ⟨str, -, hstr⟩ := List.mem_flatMap.mp h
  cases str with
  | none => cases hstr
  | some str => exact str.noNul hstr

theorem concat_append (str : Option CString) :
    concat (strs ++ [str]) = concat strs ++ (str.map CString.chars).getD [] := by
  rw [concat, List.flatMap_append, List.flatMap_singleton, concat]

theorem addStrings_append (granted : ℕ → Bool) (str : Option CString) (stBuf : DynBuf)
    (h : addStrings granted fill (calls strs) = .ok stBuf) :
    addStrings granted fill (calls (strs ++ [str])) =
      (addString granted fill stBuf (str.map CString.chars)).map Prod.fst := by
  rw [addStrings] at h
  rw [addStrings, calls, List.map_append, List.foldlM_append, ← calls, h, ok_bind]
  simp only [List.map_cons, List.map_nil, List.foldlM_cons, List.foldlM_nil, bind_pure]

/-- Calls whose strings fit one after the other build their text. -/
theorem addStrings_built (h : ∀ pre, pre <+: strs → Fits (concat pre).length) :
    ∃ stBuf, addStrings (fun _ => true) fill (calls strs) = .ok stBuf ∧ Built stBuf (concat strs) := by
  induction strs using List.reverseRecOn with
  | nil => exact ⟨empty, rfl, Or.inl rfl, Or.inl ⟨rfl, rfl⟩⟩
  | append_singleton strs str ih =>
    obtain ⟨stBuf, hrun, hbuilt⟩ := ih (fun pre hpre => h pre (hpre.trans (List.prefix_append _ _)))
    have hfits := h _ (List.prefix_refl _)
    rw [addStrings_append fill strs _ str stBuf hrun]
    rw [concat_append] at hfits ⊢
    cases str with
    | none =>
      rw [Option.map_none, Option.getD_none, List.append_nil]
      exact ⟨stBuf, rfl, hbuilt⟩
    | some str =>
      have hstep := addString_built fill (concat strs) str.chars stBuf (concat_noNul strs) hbuilt
      rw [Option.map_some, Option.getD_some, List.length_append] at hfits
      rw [if_pos hfits] at hstep
      obtain ⟨stBuf', hcall, hbuilt'⟩ := hstep
      exact ⟨stBuf', by rw [Option.map_some, hcall]; rfl, hbuilt'⟩

theorem holds_of_built (stBuf : DynBuf) (t : List UInt8) (ht : 0 ∉ t) (h : Built stBuf t) :
    Holds stBuf t := by
  rcases h.2 with ⟨rfl, rfl⟩ | ⟨rest, hbuf, -, hlen⟩
  · exact rfl
  · rw [Holds, hbuf]
    refine ⟨text_append rest t ht, ?_⟩
    rw [← hlen, List.length_append, List.length_cons]
    omega

-- The first call whose strings do not fit writes behind the block.
theorem not_neverOverruns (pre : List (Option CString)) (str : Option CString)
    (hpre : pre ++ [str] <+: strs) (hfits : ∀ p, p <+: pre → Fits (concat p).length)
    (hfull : ¬Fits (concat (pre ++ [str])).length) : ¬NeverOverruns strs := by
  intro h
  obtain ⟨stBuf, hrun, hbuilt⟩ := addStrings_built (fun _ => 0) pre hfits
  obtain ⟨stBuf', hcall, -⟩ := h (fun _ => 0) _ hpre
  rw [addStrings_append _ pre _ str stBuf hrun] at hcall
  rw [concat_append] at hfull
  cases str with
  | none =>
    rw [Option.map_none, Option.getD_none, List.append_nil] at hfull
    exact hfull hbuilt.1
  | some str =>
    have hstep := addString_built (fun _ => 0) (concat pre) str.chars stBuf (concat_noNul pre) hbuilt
    rw [Option.map_some, Option.getD_some, List.length_append] at hfull
    rw [if_neg hfull] at hstep
    rw [Option.map_some, hstep] at hcall
    cases hcall

end Run

/-- The block is never overrun exactly when no strings from the first one on have a positive multiple of
the unit as their length. -/
theorem neverOverruns_iff (strs : List (Option CString)) : NeverOverruns strs ↔
    ∀ pre, pre <+: strs → Fits (concat pre).length := by
  constructor
  · intro h pre hpre
    -- all that are as short at once
    suffices hall : ∀ p, p <+: pre → Fits (concat p).length from hall pre (List.prefix_refl pre)
    induction pre using List.reverseRecOn with
    | nil =>
      intro p hp
      rw [List.prefix_nil.mp hp]
      exact Or.inl rfl
    | append_singleton pre str ih =>
      have hfits := ih ((List.prefix_append _ _).trans hpre)
      intro p hp
      rcases List.prefix_concat_iff.mp hp with rfl | hp
      · by_contra hfull
        exact not_neverOverruns strs pre str hpre hfits hfull h
      · exact hfits p hp
  · intro h fill pre hpre
    obtain ⟨stBuf, hrun, hbuilt⟩ := addStrings_built fill pre (fun p hp => h p (hp.trans hpre))
    exact ⟨stBuf, hrun, holds_of_built stBuf _ (concat_noNul pre) hbuilt⟩

-- a string of 256 letters
theorem not_neverOverruns_unit :
    ¬NeverOverruns
      [some ⟨List.replicate 256 97, fun h => absurd (List.eq_of_mem_replicate h) (by decide)⟩] := by
  apply not_neverOverruns _ [] _ (List.prefix_refl _)
  · intro p hp
    rw [List.prefix_nil.mp hp]
    exact Or.inl rfl
  · rw [List.nil_append, concat, List.flatMap_singleton, Option.map_some, Option.getD_some,
      List.length_replicate]
    decide

section HashString

variable (fill : ℕ → UInt8)

/-- The strings that `hash_string` adds for its entries. -/
def pieces (es : List (List UInt8 × List UInt8)) : List (List UInt8) :=
  es.flatMap (fun np => [np.1, [61], np.2, [10]])

theorem flatten_pieces (es : List (List UInt8 × List UInt8)) :
    (pieces es).flatten = es.flatMap (fun e => e.1 ++ 61 :: e.2 ++ [10]) := by
  induction es with
  | nil => rfl
  | cons e es ih =>
    rw [pieces, List.flatMap_cons, List.flatten_append, ← pieces, ih, List.flatMap_cons]
    simp

/-- The calls for an entry, and all others in a row. -/
theorem addPieces_built (strs : List (List UInt8)) (stBuf : DynBuf) (t : List UInt8) (ht : 0 ∉ t)
    (hnul : ∀ str ∈ strs, 0 ∉ str) (h : Built stBuf t)
    (hfits : ∀ pre, pre <+: strs → Fits (t ++ pre.flatten).length) :
    ∃ stBuf', strs.foldlM (fun s str => do
        let (stBuf, res) ← addString (fun _ => true) fill s.1 (some str)
        return (stBuf, s.2 || res)) (stBuf, false) = (.ok (stBuf', false) : Except Fault (DynBuf × Bool)) ∧
      Built stBuf' (t ++ strs.flatten) := by
  induction strs generalizing stBuf t with
  | nil =>
    rw [List.flatten_nil, List.append_nil]
    exact ⟨stBuf, rfl, h⟩
  | cons str strs ih =>
    have hstep := addString_built fill t str stBuf ht h
    have hfirst := hfits [str] (List.prefix_append [str] strs)
    rw [List.flatten_singleton, List.length_append] at hfirst
    rw [if_pos hfirst] at hstep
    obtain ⟨stBuf', hcall, hbuilt⟩ := hstep
    have hnul' := List.forall_mem_cons.mp hnul
    obtain ⟨stBuf'', hrun, hbuilt'⟩ := ih stBuf' (t ++ str)
      (fun hmem => (List.mem_append.mp hmem).elim ht hnul'.1) hnul'.2 hbuilt (fun pre hpre => by
        rw [List.append_assoc, ← List.flatten_cons]
        exact hfits (str :: pre) ((List.prefix_cons_inj str).mpr hpre))
    refine ⟨stBuf'', ?_, ?_⟩
    · rw [List.foldlM_cons, hcall, ok_bind]
      exact hrun
    · rw [List.flatten_cons, ← List.append_assoc]
      exact hbuilt'

theorem addEntries_built (es : List (List UInt8 × List UInt8)) (stBuf : DynBuf) (t : List UInt8)
    (ht : 0 ∉ t) (hnul : ∀ str ∈ pieces es, 0 ∉ str) (h : Built stBuf t)
    (hfits : ∀ pre, pre <+: pieces es → Fits (t ++ pre.flatten).length) :
    ∃ stBuf', es.foldlM (addEntry (fun _ => true) fill) (stBuf, false) = .ok (stBuf', false) ∧
      Built stBuf' (t ++ (pieces es).flatten) := by
  induction es generalizing stBuf t with
  | nil =>
    rw [pieces, List.flatMap_nil, List.flatten_nil, List.append_nil]
    exact ⟨stBuf, rfl, h⟩
  | cons np es ih =>
    have hcons : pieces (np :: es) = [np.1, [61], np.2, [10]] ++ pieces es := List.flatMap_cons
    rw [hcons] at hnul hfits ⊢
    have hentry : ∀ str ∈ [np.1, [61], np.2, [10]], 0 ∉ str :=
      fun str hstr => hnul str (List.mem_append_left _ hstr)
    obtain ⟨stBuf', hcall, hbuilt⟩ := addPieces_built fill [np.1, [61], np.2, [10]] stBuf t ht hentry h
      (fun pre hpre => hfits pre (hpre.trans (List.prefix_append _ _)))
    have ht' : 0 ∉ t ++ [np.1, [61], np.2, [10]].flatten := by
      intro hmem
      rcases List.mem_append.mp hmem with hmem | hmem
      · exact ht hmem
      · obtain ⟨str, hstr, hmem⟩ := List.mem_flatten.mp hmem
        exact hentry str hstr hmem
    obtain ⟨stBuf'', hrun, hbuilt'⟩ := ih stBuf' _ ht'
      (fun str hstr => hnul str (List.mem_append_right _ hstr)) hbuilt (fun pre hpre => by
        rw [List.append_assoc, ← List.flatten_append]
        exact hfits _ ((List.prefix_append_right_inj _).mpr hpre))
    refine ⟨stBuf'', ?_, ?_⟩
    · rw [List.foldlM_cons, addEntry, if_neg Bool.false_ne_true, hcall, ok_bind]
      exact hrun
    · rw [List.flatten_append, ← List.append_assoc]
      exact hbuilt'

/-- Where no strings fill the block exactly, `hash_string` answers the text of the map. -/
theorem hashString_text (h : StringHash.Hash) (hnul : ∀ str ∈ pieces (StringHash.entries h), 0 ∉ str)
    (hfits : ∀ pre, pre <+: pieces (StringHash.entries h) → Fits pre.flatten.length) :
    (StringHash.hashString h = none ∧ hashString (fun _ => true) fill h = .ok none) ∨
    ∃ t buf, StringHash.hashString h = some t ∧ hashString (fun _ => true) fill h = .ok (some buf) ∧
      text buf = .ok t := by
  obtain ⟨stBuf, hrun, hbuilt⟩ := addEntries_built fill (StringHash.entries h) empty [] List.not_mem_nil
    hnul ⟨Or.inl rfl, Or.inl ⟨rfl, rfl⟩⟩ hfits
  rw [List.nil_append] at hbuilt
  have hcall : hashString (fun _ => true) fill h = .ok stBuf.buf := by
    rw [hashString, hrun, ok_bind]
    rfl
  rw [hcall, StringHash.hashString, ← flatten_pieces]
  by_cases hempty : StringHash.entries h = []
  · rw [hempty] at hrun
    cases hrun
    exact Or.inl ⟨if_pos hempty, rfl⟩
  · rcases hbuilt.2 with ⟨-, hnil⟩ | ⟨rest, hbuf, -⟩
    · obtain ⟨np, es, hes⟩ := List.exists_cons_of_ne_nil hempty
      rw [hes, flatten_pieces, List.flatMap_cons] at hnil
      simp at hnil
    · refine Or.inr ⟨_, _, if_neg hempty, congrArg Except.ok hbuf, text_append rest _ ?_⟩
      intro hmem
      obtain ⟨str, hstr, hmem⟩ := List.mem_flatten.mp hmem
      exact hnul str hstr hmem

end HashString

end Leviathan.AddString
