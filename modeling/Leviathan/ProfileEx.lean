import Leviathan.Buffers
import Leviathan.ConfigParse

/-! `GetPrivateProfileStringEX` (comProfileutil.c), which looks a value up in a file line by line.  The line
buffer keeps what earlier lines have left in it. -/
namespace Leviathan.ProfileEx
open Buffers
open Profile (isBlank fgets)

section Model

def delspace (szdata : List UInt8) : Except Fault (List UInt8) := do
  let str ← text szdata
  strcpy szdata 0 (str.filter (fun c => !isBlank c))

/-- `strtok` for a single delimiter, at an offset of the buffer: the token, and the buffer with a NUL behind
it. -/
def strtok (delim : UInt8) (data : List UInt8) (off : ℕ) :
    Except Fault (List UInt8 × Option (List UInt8)) := do
  let rest := (data.drop off).dropWhile (fun c => c = delim)
  let pTok := rest.takeWhile (fun c => c ≠ delim ∧ c ≠ 0)
  let behind := rest.drop pTok.length
  -- a store past the end where the token does not end in the buffer
  let data ← store data ((data.length : ℤ)-behind.length) [0]
  return (data, if pTok = [] then none else some pTok)

/-- The name in a header line, copied to `str_sec`. -/
def header (str : List UInt8) : Except Fault (List UInt8) :=
  -- without a `]` the length is that of a null pointer
  if 93 ∉ str then .error .nullRead
  else
    let str_sec := str.takeWhile (fun c => c ≠ 93)
    if str_sec.length+3 < 128 then .ok str_sec else .error .outOfBounds

/-- The two tokens of an entry line.  The second is looked for behind as many characters as the first one
has, wherever that began. -/
def parse (data : List UInt8) : Except Fault (List UInt8 × Option (List UInt8 × Option (List UInt8))) := do
  let data ← delspace data
  let (data, pTok) ← strtok 61 data 0
  match pTok with
  | none => return (data, none)
  | some pTok =>
    let (data, value) ← strtok 10 data (pTok.length+1)
    return (data, some (pTok, value))

/-- The number that is answered, if any, and the text that the caller finds. -/
structure Reply where
  answer : Option ℕ
  pRet : List UInt8

variable (sect key initVal pRet : List UInt8)

/-- The reply for the line with the key.  Without a value only the parameter `pRet` is set to the default. -/
def found (value : Option (List UInt8)) : Reply :=
  match value with
  | none => { answer := some initVal.length, pRet := pRet }
  | some value => { answer := some value.length, pRet := value }

/-- The loop, for at most `k` calls of `fgets`. -/
def loop : ℕ → List UInt8 → List UInt8 → Bool → Except Fault Reply
  | 0, _, _, _ => .error .diverges
  | k+1, fp, data, bchk =>
    match fgets 255 fp with
    | none => .ok { answer := some initVal.length, pRet := initVal }
    | some (line, fp) => do
      let data ← strcpy data 0 line
      if data.head? = some 35 ∨ data.head? = some 59 then loop k fp data bchk
      else if data.head? = some 91 then
        let str ← text data
        let str_sec ← header str.tail
        loop k fp data (bchk || str_sec = sect)
      else if bchk then
        let (data, pParse) ← parse data
        match pParse with
        | none => loop k fp data bchk
        | some (pTok, value) =>
          if pTok = key then return found initVal pRet value else loop k fp data bchk
      else loop k fp data bchk

/-- `GetPrivateProfileStringEX`, with what the stack holds in the line buffer; `file` is the text of the
file, if it can be opened. -/
def getPrivateProfileStringEX (data : List UInt8) (file : Option (List UInt8)) : Except Fault Reply :=
  match file with
  | none => .ok { answer := none, pRet := pRet }
  | some fp => loop sect key initVal pRet (fp.length+1) fp data false

end Model

section Spec

/-- The text in front of the first NUL. -/
def chars (l : List UInt8) : List UInt8 := l.takeWhile (fun c => c ≠ 0)

/-- The text without its blanks. -/
def squeeze (l : List UInt8) : List UInt8 := (chars l).filter (fun c => !isBlank c)

def isComment (l : List UInt8) : Bool := l.head? = some 35 || l.head? = some 59

def isHeader (l : List UInt8) : Bool := l.head? = some 91

def sectionName (l : List UInt8) : List UInt8 := (chars l).tail.takeWhile (fun c => c ≠ 93)

/-- The lines of a file, each with its newline, which only the last one may lack. -/
structure Lines (lines : List (List UInt8)) : Prop where
  ended : ∀ l ∈ lines.dropLast, l.getLast? = some 10
  whole : ∀ l ∈ lines, l ≠ [] ∧ 10 ∉ l.dropLast
  short : ∀ l ∈ lines, (l.takeWhile (fun c => c ≠ 10)).length < 254
  closed : ∀ l ∈ lines, isHeader l = true → 93 ∈ chars l

/-- The entries behind a header of the section and in front of the next header. -/
def sectionLines (sect : List UInt8) : Bool → List (List UInt8) → List (List UInt8)
  | _, [] => []
  | inside, l :: lines =>
    if isComment l then sectionLines sect inside lines
    else if isHeader l then sectionLines sect (sectionName l = sect) lines
    else if inside then l :: sectionLines sect inside lines
    else sectionLines sect inside lines

/-- A text that is not the default is the value of the key in the section.  A call that is undefined, as
those are on a header whose name does not fit `str_sec`, answers no text. -/
def Respects (lines : List (List UInt8)) (sect key : CString) : Prop :=
  ∀ (initVal pRet : CString) (data : List UInt8) (r : Reply), data.length = 256 →
    getPrivateProfileStringEX sect.chars key.chars initVal.chars pRet.chars data
      (some lines.flatten) = .ok r →
    r.pRet ≠ initVal.chars →
    ∃ l ∈ sectionLines sect.chars false lines, squeeze l = key.chars ++ 61 :: r.pRet

def keyOf (l : List UInt8) : Option (List UInt8) :=
  let pTok := ((squeeze l).dropWhile (fun c => c = 61)).takeWhile (fun c => c ≠ 61)
  if pTok = [] then none else some pTok

/-- The second token of a line that is read into an empty buffer. -/
def valueOf (l : List UInt8) : Option (List UInt8) :=
  match parse (l ++ [0]) with
  | .ok (_, some (_, value)) => value
  | _ => none

/-- The first entry with the key behind the first header of the section, and the lines behind it.  Other
headers make no difference, but a long one ends the search. -/
def deciding (sect key : List UInt8) : Bool → List (List UInt8) → Option (List UInt8 × List (List UInt8))
  | _, [] => none
  | bchk, l :: lines =>
    if isComment l then deciding sect key bchk lines
    else if isHeader l then
      if (sectionName l).length+3 < 128 then deciding sect key (bchk || sectionName l = sect) lines
      else none
    else if bchk && keyOf l = some key then some (l, lines)
    else deciding sect key bchk lines

/-- The value that is found is that of an entry of the section. -/
def Kept (sect key : List UInt8) (lines : List (List UInt8)) : Prop :=
  ∀ D rest, deciding sect key false lines = some (D, rest) →
    ∃ v, valueOf D = some v ∧ ∃ l ∈ sectionLines sect false lines, squeeze l = key ++ 61 :: v

end Spec

section Tokens

-- How `strtok` divides a buffer.
theorem strtok_divided (delim : UInt8) (pre delims pTok tail : List UInt8) (c : UInt8)
    (hdelims : ∀ b ∈ delims, b = delim) (htok : ∀ b ∈ pTok, b ≠ delim ∧ b ≠ 0)
    (hc : c = 0 ∨ (c = delim ∧ pTok ≠ [])) (hdelim : delim ≠ 0) :
    strtok delim (pre ++ (delims ++ (pTok ++ c :: tail))) pre.length =
      .ok (pre ++ (delims ++ (pTok ++ 0 :: tail)), if pTok = [] then none else some pTok) := by
  have hrest : (delims ++ (pTok ++ c :: tail)).dropWhile (fun b => b = delim) = pTok ++ c :: tail := by
    rw [List.dropWhile_append_of_pos (fun b hb => decide_eq_true (hdelims b hb))]
    cases pTok with
    | nil =>
      have hc0 : c = 0 := by simpa using hc
      rw [List.nil_append, List.dropWhile_cons_of_neg]
      simpa [hc0] using hdelim.symm
    | cons b pTok =>
      rw [List.cons_append, List.dropWhile_cons_of_neg]
      simpa using (htok b List.mem_cons_self).1
  have htake : (pTok ++ c :: tail).takeWhile (fun b => b ≠ delim ∧ b ≠ 0) = pTok := by
    rw [List.takeWhile_append_of_pos (fun b hb => decide_eq_true (htok b hb)), List.takeWhile_cons_of_neg,
      List.append_nil]
    rcases hc with rfl | ⟨rfl, -⟩ <;> simp
  have hoff : ((pre ++ (delims ++ (pTok ++ c :: tail))).length : ℤ)-(c :: tail).length =
      (pre ++ (delims ++ pTok)).length := by
    simp only [List.length_append, List.length_cons]
    omega
  have hstore := store_append (c :: tail) (pre ++ (delims ++ pTok)) [0] _ hoff (by simp)
  rw [List.append_assoc, List.append_assoc, List.append_assoc, List.append_assoc, List.append_assoc]
    at hstore
  rw [strtok, List.drop_left, hrest, htake, List.drop_left, hstore]
  rfl

-- The first character that a property fails for.
theorem exists_break (p : UInt8 → Prop) (w : List UInt8) (b : UInt8) (hb : b ∈ w) (hp : ¬p b) :
    ∃ u c v, w = u ++ c :: v ∧ (∀ a ∈ u, p a) ∧ ¬p c := by
  induction w with
  | nil => exact absurd hb List.not_mem_nil
  | cons a w ih =>
    by_cases ha : p a
    · have hw : b ∈ w := (List.mem_cons.mp hb).resolve_left (fun h => hp (h ▸ ha))
      obtain ⟨u, c, v, rfl, hu, hc⟩ := ih hw
      exact ⟨a :: u, c, v, rfl, List.forall_mem_cons.mpr ⟨ha, hu⟩, hc⟩
    · exact ⟨[], a, w, rfl, fun _ h => absurd h List.not_mem_nil, ha⟩

theorem exists_divided (delim : UInt8) (w : List UInt8) (h : 0 ∈ w) (hdelim : delim ≠ 0) :
    ∃ delims pTok c tail, w = delims ++ (pTok ++ c :: tail) ∧ (∀ b ∈ delims, b = delim) ∧
      (∀ b ∈ pTok, b ≠ delim ∧ b ≠ 0) ∧ (c = 0 ∨ (c = delim ∧ pTok ≠ [])) := by
  obtain ⟨delims, a, v, rfl, hdelims, ha⟩ := exists_break (fun b => b = delim) w 0 h hdelim.symm
  have hmem : 0 ∈ a :: v := by
    rcases List.mem_append.mp h with h0 | h0
    · exact absurd (hdelims 0 h0) hdelim.symm
    · exact h0
  obtain ⟨pTok, c, tail, hsplit, htok, hc⟩ :=
    exists_break (fun b => b ≠ delim ∧ b ≠ 0) (a :: v) 0 hmem (fun h => h.2 rfl)
  refine ⟨delims, pTok, c, tail, by rw [hsplit], hdelims, htok, ?_⟩
  by_cases h0 : c = 0
  · exact Or.inl h0
  · have hcd : c = delim := by
      by_contra hcd
      exact hc ⟨hcd, h0⟩
    refine Or.inr ⟨hcd, ?_⟩
    rintro rfl
    exact ha ((List.cons.inj hsplit).1.trans hcd)

/-- A token is found in a buffer that ends with a NUL. -/
theorem strtok_ended (delim : UInt8) (data : List UInt8) (off : ℕ) (hoff : off < data.length)
    (hlast : data.getLast? = some 0) (hdelim : delim ≠ 0) :
    ∃ data' pTok, strtok delim data off = .ok (data', pTok) ∧ data'.length = data.length ∧
      data'.getLast? = some 0 := by
  obtain ⟨init, rfl⟩ := List.getLast?_eq_some_iff.mp hlast
  rw [List.length_append, List.length_singleton] at hoff
  have hmem : 0 ∈ (init ++ [0]).drop off := by
    rw [List.drop_append_of_le_length (by omega)]
    exact List.mem_append_right _ List.mem_cons_self
  obtain ⟨delims, pTok, c, tail, hdrop, hdelims, htok, hc⟩ := exists_divided delim _ hmem hdelim
  have hpre : ((init ++ [0]).take off).length = off := List.length_take_of_le (by simp; omega)
  have hsplit : init ++ [0] = (init ++ [0]).take off ++ (delims ++ (pTok ++ c :: tail)) := by
    rw [← hdrop, List.take_append_drop]
  have hcall := strtok_divided delim ((init ++ [0]).take off) delims pTok tail c hdelims htok hc hdelim
  rw [hpre, ← hsplit] at hcall
  refine ⟨_, _, hcall, ?_, ?_⟩
  · have hlen := congrArg List.length hsplit
    simp only [List.length_append, List.length_cons] at hlen ⊢
    omega
  · rw [hsplit] at hlast
    rw [← List.append_assoc, ← List.append_assoc] at hlast ⊢
    cases tail with
    | nil => exact List.getLast?_concat
    | cons b tail =>
      rw [List.getLast?_append_of_ne_nil _ (List.cons_ne_nil _ _), List.getLast?_cons_cons] at hlast ⊢
      exact hlast

/-- What stands behind the string that is divided is left as it is. -/
theorem strtok_append (delim : UInt8) (data s : List UInt8) (off : ℕ) (data' : List UInt8)
    (pTok : Option (List UInt8)) (h : strtok delim data off = .ok (data', pTok)) :
    strtok delim (data ++ s) off = .ok (data' ++ s, pTok) := by
  obtain ⟨stored, hstore, heq⟩ := (bind_eq_ok _ _ _).mp h
  cases heq
  have hin := (store_ok _ _ _ _ hstore).1
  rw [List.length_singleton, List.length_drop] at hin
  generalize hrest : (data.drop off).dropWhile (fun c => c = delim) = rest at hin hstore
  generalize htok : rest.takeWhile (fun c => c ≠ delim ∧ c ≠ 0) = tok at hin hstore
  have hlt : tok.length < rest.length := by omega
  have hoff : off ≤ data.length := by
    by_contra hge
    rw [List.drop_eq_nil_of_le (by omega), List.dropWhile_nil] at hrest
    rw [← hrest] at hlt
    exact absurd hlt (Nat.not_lt_zero _)
  have hrest' : ((data ++ s).drop off).dropWhile (fun c => c = delim) = rest ++ s := by
    rw [List.drop_append_of_le_length hoff, List.dropWhile_append, hrest, if_neg]
    rw [List.isEmpty_iff]
    rintro rfl
    exact absurd hlt (Nat.not_lt_zero _)
  have htok' : (rest ++ s).takeWhile (fun c => c ≠ delim ∧ c ≠ 0) = tok := by
    rw [List.takeWhile_append, htok, if_neg (by omega)]
  have hpos : ((data ++ s).length : ℤ)-((rest ++ s).drop tok.length).length =
      (data.length : ℤ)-(rest.drop tok.length).length := by
    rw [List.drop_append_of_le_length hlt.le, List.length_append, List.length_append]
    push_cast
    ring
  simp only [strtok, hrest', htok', hpos, store_append_left _ s _ _ _ hstore]
  rfl

end Tokens

section Entries

variable (l s : List UInt8)

theorem chars_append (m : List UInt8) : chars (l ++ 0 :: m) = chars l := by
  rw [chars, chars, List.takeWhile_append]
  split_ifs with hlen
  · rw [List.takeWhile_cons_of_neg (by decide), List.append_nil]
    exact (List.takeWhile_prefix _).eq_of_length hlen |>.symm
  · rfl

theorem squeeze_sublist : (squeeze l).Sublist l :=
  (List.filter_sublist).trans (List.takeWhile_sublist _)

theorem squeeze_noNul : 0 ∉ squeeze l := by
  intro h
  have h0 := List.mem_takeWhile_imp (List.mem_filter.mp h).1
  simp at h0

theorem text_line (m : List UInt8) : text (l ++ 0 :: m) = .ok (chars l) := by
  rw [← chars_append l m]
  exact if_pos (List.mem_append_right _ List.mem_cons_self)

/-- The text without its blanks comes in front of what is left of the line. -/
theorem delspace_line : delspace (l ++ 0 :: s) =
    .ok (squeeze l ++ 0 :: (l ++ 0 :: s).drop ((squeeze l).length+1)) := by
  have hlen := (squeeze_sublist l).length_le
  rw [delspace, text_line, ok_bind]
  show strcpy _ 0 (squeeze l) = _
  rw [strcpy, store, if_pos]
  · simp
  · simp only [List.length_append, List.length_cons, List.length_nil]
    omega

theorem keyOf_eq_some (k : List UInt8) (h : keyOf l = some k) :
    ((squeeze l).dropWhile (fun c => c = 61)).takeWhile (fun c => c ≠ 61) = k := by
  rw [keyOf] at h
  split_ifs at h
  exact Option.some.inj h

theorem takeWhile_ended (u : List UInt8) (h : 0 ∉ u) :
    (u ++ [0]).takeWhile (fun c => c ≠ 61 ∧ c ≠ 0) = u.takeWhile (fun c => c ≠ 61) := by
  induction u with
  | nil => rfl
  | cons c u ih =>
    rw [List.mem_cons, not_or] at h
    rw [List.cons_append, List.takeWhile_cons, List.takeWhile_cons, ih h.2]
    simp only [Ne.symm h.1, ne_eq, not_false_eq_true, and_true]

theorem strtok_squeeze (w : List UInt8) (pTok : Option (List UInt8))
    (h : strtok 61 (squeeze l ++ [0]) 0 = .ok (w, pTok)) : pTok = keyOf l := by
  obtain ⟨stored, -, heq⟩ := (bind_eq_ok _ _ _).mp h
  have hrest : (squeeze l ++ [0]).dropWhile (fun c => c = 61) =
      (squeeze l).dropWhile (fun c => c = 61) ++ [0] := by
    rw [List.dropWhile_append]
    split_ifs with hnil
    · rw [List.isEmpty_iff.mp hnil]
      rfl
    · rfl
  have htok : ((squeeze l).dropWhile (fun c => c = 61) ++ [0]).takeWhile (fun c => c ≠ 61 ∧ c ≠ 0) =
      ((squeeze l).dropWhile (fun c => c = 61)).takeWhile (fun c => c ≠ 61) :=
    takeWhile_ended _ (fun h0 => squeeze_noNul l ((List.dropWhile_sublist _).mem h0))
  rw [List.drop_zero, hrest, htok] at heq
  exact (congrArg Prod.snd (Except.ok.inj heq)).symm

/-- The first token of a line is its key. -/
theorem strtok_key (m : List UInt8) : ∃ w, strtok 61 (squeeze l ++ 0 :: m) 0 = .ok (w, keyOf l) ∧
    w.length = (squeeze l ++ 0 :: m).length ∧
    ((squeeze l ++ 0 :: m).getLast? = some 0 → w.getLast? = some 0) := by
  obtain ⟨w, pTok, hcall, hlen, hlast⟩ :=
    strtok_ended 61 (squeeze l ++ [0]) 0 (by simp) List.getLast?_concat (by decide)
  obtain rfl := strtok_squeeze l w pTok hcall
  have hall := strtok_append 61 _ m 0 w _ hcall
  rw [List.append_assoc, List.singleton_append] at hall
  refine ⟨w ++ m, hall, ?_, fun hm => ?_⟩
  · simp only [List.length_append, List.length_cons, List.length_nil] at hlen ⊢
    omega
  · cases m with
    | nil => rwa [List.append_nil]
    | cons b m =>
      rw [List.getLast?_append_of_ne_nil _ (List.cons_ne_nil _ _)] at hm ⊢
      rwa [List.getLast?_cons_cons] at hm

theorem keyOf_length (k : List UInt8) (h : keyOf l = some k) : k.length ≤ l.length := by
  rw [← keyOf_eq_some l k h]
  exact ((List.takeWhile_sublist _).trans ((List.dropWhile_sublist _).trans (squeeze_sublist l))).length_le

/-- An entry line is parsed where the buffer ends with a NUL behind the key. -/
theorem parse_line (hlast : (l ++ 0 :: s).getLast? = some 0)
    (hk : ∀ k, keyOf l = some k → k.length < l.length+s.length) :
    ∃ w value, parse (l ++ 0 :: s) = .ok (w, (keyOf l).map (fun k => (k, value))) ∧
      w.length = (l ++ 0 :: s).length ∧ w.getLast? = some 0 := by
  have hsub := (squeeze_sublist l).length_le
  obtain ⟨w, hkey, hlen, hended⟩ := strtok_key l ((l ++ 0 :: s).drop ((squeeze l).length+1))
  have hlen' : w.length = (l ++ 0 :: s).length := by
    rw [hlen]
    simp only [List.length_append, List.length_cons, List.length_drop]
    omega
  have hlast' : w.getLast? = some 0 := by
    apply hended
    rw [← List.singleton_append, ← List.append_assoc, List.getLast?_append, List.getLast?_drop]
    split_ifs
    · exact List.getLast?_concat
    · rw [hlast]
      rfl
  cases hkeyOf : keyOf l with
  | none =>
    refine ⟨w, none, ?_, hlen', hlast'⟩
    rw [parse, delspace_line, ok_bind, hkey, ok_bind, hkeyOf]
    rfl
  | some k =>
    obtain ⟨w', value, hvalue, hlen'', hlast''⟩ := strtok_ended 10 w (k.length+1)
      (by rw [hlen', List.length_append, List.length_cons]; have := hk k hkeyOf; omega) hlast' (by decide)
    refine ⟨w', value, ?_, hlen''.trans hlen', hlast''⟩
    rw [parse, delspace_line, ok_bind, hkey, ok_bind, hkeyOf]
    simp only [hvalue]
    rfl

/-- What is behind the line does not matter where it is parsed without it. -/
theorem parse_append (w : List UInt8) (r : Option (List UInt8 × Option (List UInt8)))
    (h : parse (l ++ [0]) = .ok (w, r)) : parse (l ++ 0 :: s) = .ok (w ++ s, r) := by
  have hlen := (squeeze_sublist l).length_le
  have hdrop : squeeze l ++ 0 :: (l ++ 0 :: s).drop ((squeeze l).length+1) =
      squeeze l ++ 0 :: (l ++ [0]).drop ((squeeze l).length+1) ++ s := by
    have hle : (squeeze l).length+1 ≤ (l ++ [(0 : UInt8)]).length := by
      rw [List.length_append, List.length_singleton]
      omega
    rw [← List.singleton_append (l := s), ← List.append_assoc l, List.drop_append_of_le_length hle,
      List.append_assoc, List.cons_append]
  obtain ⟨w', hkey, -⟩ := strtok_key l ((l ++ [0]).drop ((squeeze l).length+1))
  rw [parse, delspace_line, ok_bind, hkey, ok_bind] at h
  rw [parse, delspace_line, ok_bind, hdrop, strtok_append 61 _ s 0 w' _ hkey, ok_bind]
  cases hkeyOf : keyOf l with
  | none =>
    rw [hkeyOf] at h
    cases h
    rfl
  | some k =>
    rw [hkeyOf] at h
    obtain ⟨⟨w'', value⟩, hvalue, heq⟩ := (bind_eq_ok _ _ _).mp h
    cases heq
    simp only [strtok_append 10 w' s _ _ _ hvalue]
    rfl

theorem parse_key (w : List UInt8) (r : Option (List UInt8 × Option (List UInt8)))
    (h : parse (l ++ 0 :: s) = .ok (w, r)) : r.map Prod.fst = keyOf l := by
  obtain ⟨w', hkey, -⟩ := strtok_key l ((l ++ 0 :: s).drop ((squeeze l).length+1))
  rw [parse, delspace_line, ok_bind, hkey, ok_bind] at h
  cases hkeyOf : keyOf l with
  | none =>
    rw [hkeyOf] at h
    cases h
    rfl
  | some k =>
    rw [hkeyOf] at h
    obtain ⟨⟨w'', value⟩, -, heq⟩ := (bind_eq_ok _ _ _).mp h
    cases heq
    rfl

end Entries

section File

variable (l : List UInt8) (lines : List (List UInt8))

theorem Lines.tail (h : Lines (l :: lines)) : Lines lines where
  ended b hb := by
    apply h.ended b
    cases lines with
    | nil => exact absurd hb List.not_mem_nil
    | cons c lines => exact List.mem_cons_of_mem _ hb
  whole b hb := h.whole b (List.mem_cons_of_mem _ hb)
  short b hb := h.short b (List.mem_cons_of_mem _ hb)
  closed b hb := h.closed b (List.mem_cons_of_mem _ hb)

theorem Lines.newline (h : Lines (l :: lines)) (hne : lines ≠ []) : l.getLast? = some 10 := by
  apply h.ended l
  rw [List.dropLast_cons_of_ne_nil hne]
  exact List.mem_cons_self

/-- `fgets` reads the lines one by one. -/
theorem Lines.fgets (h : Lines (l :: lines)) :
    Profile.fgets 255 (l :: lines).flatten = some (l, lines.flatten) ∧ l.length ≤ 254 := by
  obtain ⟨hne, hinit⟩ := h.whole l List.mem_cons_self
  have hshort := h.short l List.mem_cons_self
  have hne' : (l :: lines).flatten ≠ [] := by
    rw [List.flatten_cons]
    exact List.append_ne_nil_of_left_ne_nil hne _
  rw [Profile.fgets, if_neg hne', List.flatten_cons]
  by_cases hnl : l.getLast? = some 10
  · obtain ⟨u, rfl⟩ := List.getLast?_eq_some_iff.mp hnl
    rw [List.dropLast_concat] at hinit
    rw [takeWhile_ne_append 10 u [] hinit] at hshort
    rw [List.append_assoc, List.singleton_append, Profile.fgetsTake_line u _ _ hinit hshort]
    refine ⟨rfl, ?_⟩
    rw [List.length_append, List.length_singleton]
    omega
  · have hlines : lines = [] := by
      by_contra hlines
      exact hnl (h.newline l lines hlines)
    have hno : 10 ∉ l := by
      intro hmem
      rw [← List.dropLast_append_getLast hne, List.mem_append, List.mem_singleton] at hmem
      rcases hmem with hmem | hmem
      · exact hinit hmem
      · exact hnl (by rw [List.getLast?_eq_some_getLast hne, ← hmem])
    rw [takeWhile_ne_self 10 l hno] at hshort
    subst hlines
    rw [List.flatten_nil, List.append_nil, Profile.fgetsTake_last l _ hno (by omega)]
    exact ⟨rfl, by omega⟩

-- A line that is not longer than its key has neither blanks nor a value.
theorem keyOf_bare (k : List UInt8) (hk : keyOf l = some k) (hlen : l.length ≤ k.length) :
    squeeze l = l ∧ k = l := by
  have hkey : k.Sublist (squeeze l) := by
    rw [← keyOf_eq_some l k hk]
    exact (List.takeWhile_sublist _).trans (List.dropWhile_sublist _)
  exact ⟨(squeeze_sublist l).eq_of_length_le (hlen.trans hkey.length_le),
    (hkey.trans (squeeze_sublist l)).eq_of_length_le hlen⟩

theorem keyOf_lt (hnl : l.getLast? = some 10) (k : List UInt8) (hk : keyOf l = some k) :
    k.length < l.length := by
  by_contra hlen
  have hmem : 10 ∈ squeeze l := by
    rw [(keyOf_bare l k hk (not_lt.mp hlen)).1]
    exact List.mem_of_getLast? hnl
  exact absurd (List.mem_filter.mp hmem).2 (by decide)

-- The buffer behind a call of `fgets`.
theorem strcpy_line (data : List UInt8) (h : l.length < data.length) :
    strcpy data 0 l = .ok (l ++ 0 :: data.drop (l.length+1)) := by
  rw [strcpy, store, if_pos]
  · simp
  · rw [List.length_append, List.length_singleton]
    omega

section Loop

variable (sect key initVal pRet : List UInt8)

/-- One round of the loop. -/
theorem loop_line (h : Lines (l :: lines)) (k : ℕ) (data : List UInt8) (bchk : Bool)
    (hdata : data.length = 256) (next : List UInt8) (hnext : next = l ++ 0 :: data.drop (l.length+1)) :
    loop sect key initVal pRet (k+1) (l :: lines).flatten data bchk =
      if isComment l then loop sect key initVal pRet k lines.flatten next bchk
      else if isHeader l then do
        let str_sec ← header (chars l).tail
        loop sect key initVal pRet k lines.flatten next (bchk || str_sec = sect)
      else if bchk then do
        let (next, pParse) ← parse next
        match pParse with
        | none => loop sect key initVal pRet k lines.flatten next bchk
        | some (pTok, value) =>
          if pTok = key then return found initVal pRet value
          else loop sect key initVal pRet k lines.flatten next bchk
      else loop sect key initVal pRet k lines.flatten next bchk := by
  obtain ⟨hfgets, hlen⟩ := h.fgets
  have hhead : next.head? = l.head? := by
    rw [hnext]
    cases l with
    | nil => exact absurd rfl (h.whole [] List.mem_cons_self).1
    | cons c l => rfl
  rw [loop, hfgets]
  have htext : text next = .ok (chars l) := by
    rw [hnext, text_line]
  simp only [strcpy_line l data (by omega), ok_bind, ← hnext, hhead, isComment, isHeader, htext,
    Bool.or_eq_true, decide_eq_true_eq]

theorem overwrite_data (w data : List UInt8) (hdata : data.length = 256) (hlen : w.length < 256) :
    (w ++ data.drop w.length).length = 256 ∧ (w ++ data.drop w.length).getLast? = data.getLast? := by
  have hne : data.drop w.length ≠ [] := by
    apply List.ne_nil_of_length_pos
    rw [List.length_drop]
    omega
  constructor
  · rw [List.length_append, List.length_drop]
    omega
  · rw [List.getLast?_append_of_ne_nil _ hne, List.getLast?_drop, if_neg (by omega)]

theorem next_data (data : List UInt8) (hdata : data.length = 256) (hlen : l.length ≤ 254) :
    (l ++ 0 :: data.drop (l.length+1)).length = 256 ∧
    (l ++ 0 :: data.drop (l.length+1)).getLast? = data.getLast? := by
  have hw : (l ++ [(0 : UInt8)]).length = l.length+1 := by
    rw [List.length_append, List.length_singleton]
  have hnext := overwrite_data (l ++ [0]) data hdata (by omega)
  rwa [hw, List.append_assoc, List.singleton_append] at hnext

theorem header_line (hhead : isHeader l = true) (hclosed : 93 ∈ chars l) : header (chars l).tail =
    if (sectionName l).length+3 < 128 then .ok (sectionName l) else .error .outOfBounds := by
  rw [header, if_neg]
  · rfl
  · cases l with
    | nil => cases hclosed
    | cons c l =>
      have hc : c = 91 := by simpa [isHeader] using hhead
      subst hc
      rw [chars, List.takeWhile_cons_of_pos (by decide)] at hclosed ⊢
      exact not_not.mpr ((List.mem_cons.mp hclosed).resolve_left (by decide))

theorem loop_nil (k : ℕ) (data : List UInt8) (bchk : Bool) (r : Reply)
    (h : loop sect key initVal pRet k [] data bchk = .ok r) : r.pRet = initVal := by
  cases k with
  | zero => cases h
  | succ k =>
    cases h
    rfl

section Entry

variable (h : Lines (l :: lines)) (k : ℕ) (data : List UInt8) (hdata : data.length = 256)
  (hcomment : isComment l = false) (hhead : isHeader l = false) (hkey : keyOf l ≠ some key)

include h hdata hcomment hhead hkey

-- An entry with another key that can be parsed.
theorem loop_other (w : List UInt8) (pParse : Option (List UInt8 × Option (List UInt8)))
    (hparse : parse (l ++ 0 :: data.drop (l.length+1)) = .ok (w, pParse)) :
    loop sect key initVal pRet (k+1) (l :: lines).flatten data true =
      loop sect key initVal pRet k lines.flatten w true := by
  have hfst := parse_key l _ w pParse hparse
  rw [loop_line l lines sect key initVal pRet h k data true hdata _ rfl, hcomment, hhead, hparse]
  cases pParse with
  | none => rfl
  | some p =>
    have hne : p.1 ≠ key := by
      rintro rfl
      exact hkey hfst.symm
    exact if_neg hne

/-- An entry with another key is passed; only behind the last line the parse may leave the buffer. -/
theorem entry_pass :
    (∃ data', data'.length = 256 ∧ data'.getLast? = data.getLast? ∧
      ∀ initVal pRet, loop sect key initVal pRet (k+1) (l :: lines).flatten data true =
        loop sect key initVal pRet k lines.flatten data' true) ∨
    (lines = [] ∧ ∀ initVal pRet r,
      loop sect key initVal pRet (k+1) (l :: lines).flatten data true = .ok r → r.pRet = initVal) := by
  by_cases hlines : lines = []
  · refine Or.inr ⟨hlines, fun initVal pRet r hr => ?_⟩
    cases hparse : parse (l ++ 0 :: data.drop (l.length+1)) with
    | error e =>
      rw [loop_line l lines sect key initVal pRet h k data true hdata _ rfl, hcomment, hhead, hparse] at hr
      cases hr
    | ok p =>
      rw [loop_other l lines sect key initVal pRet h k data hdata hcomment hhead hkey p.1 p.2 hparse,
        hlines] at hr
      exact loop_nil sect key initVal pRet k p.1 true r hr
  · obtain ⟨w, value, hparse, hwlen, -⟩ := parse_line l [] List.getLast?_concat
      (keyOf_lt l (h.newline l lines hlines))
    rw [List.length_append, List.length_singleton] at hwlen
    have hshort := h.fgets.2
    obtain ⟨hlen, hlast⟩ := overwrite_data w data hdata (by omega)
    rw [hwlen] at hlen hlast
    exact Or.inl ⟨_, hlen, hlast, fun initVal pRet =>
      loop_other l lines sect key initVal pRet h k data hdata hcomment hhead hkey _ _
        (parse_append l _ w _ hparse)⟩

end Entry

/-- A line that does not decide is passed, or nothing behind it decides. -/
theorem loop_pass (h : Lines (l :: lines)) (k : ℕ) (data : List UInt8) (bchk : Bool)
    (hdata : data.length = 256)
    (hpass : isComment l = true ∨ isHeader l = true ∨ bchk = false ∨ keyOf l ≠ some key) :
    (∃ data' bchk', data'.length = 256 ∧ data'.getLast? = data.getLast? ∧
      deciding sect key bchk (l :: lines) = deciding sect key bchk' lines ∧
      ∀ initVal pRet, loop sect key initVal pRet (k+1) (l :: lines).flatten data bchk =
        loop sect key initVal pRet k lines.flatten data' bchk') ∨
    (deciding sect key bchk (l :: lines) = none ∧
      ∀ initVal pRet r, loop sect key initVal pRet (k+1) (l :: lines).flatten data bchk = .ok r →
        r.pRet = initVal) := by
  obtain ⟨hlen, hlast⟩ := next_data l data hdata h.fgets.2
  have hline (initVal pRet : List UInt8) :=
    loop_line l lines sect key initVal pRet h k data bchk hdata _ rfl
  by_cases hcomment : isComment l = true
  · simp only [hline, deciding, if_pos hcomment]
    exact Or.inl ⟨_, bchk, hlen, hlast, rfl, fun _ _ => rfl⟩
  by_cases hhead : isHeader l = true
  · simp only [hline, deciding, if_neg hcomment, if_pos hhead,
      header_line l hhead (h.closed l List.mem_cons_self hhead)]
    split_ifs
    · exact Or.inl ⟨_, _, hlen, hlast, rfl, fun _ _ => rfl⟩
    · refine Or.inr ⟨rfl, fun _ _ r hr => ?_⟩
      cases hr
  cases bchk with
  | false =>
    simp only [hline, deciding, if_neg hcomment, if_neg hhead, Bool.false_and, if_neg Bool.false_ne_true]
    exact Or.inl ⟨_, false, hlen, hlast, rfl, fun _ _ => rfl⟩
  | true =>
    have hkey : keyOf l ≠ some key := by
      simpa [hcomment, hhead] using hpass
    have hdec : deciding sect key true (l :: lines) = deciding sect key true lines := by
      simp [deciding, hcomment, hhead, hkey]
    rw [hdec]
    rcases entry_pass l lines sect key h k data hdata (Bool.eq_false_iff.mpr hcomment)
      (Bool.eq_false_iff.mpr hhead) hkey with ⟨data', hlen', hlast', hloop⟩ | ⟨hlines, hdefault⟩
    · exact Or.inl ⟨data', true, hlen', hlast', rfl, hloop⟩
    · rw [hlines] at hdefault ⊢
      exact Or.inr ⟨rfl, hdefault⟩

/-- Where no line decides, only the default is answered. -/
theorem loop_missing (h : Lines lines) (k : ℕ) (data : List UInt8) (bchk : Bool)
    (hdata : data.length = 256) (hnone : deciding sect key bchk lines = none) (r : Reply)
    (hr : loop sect key initVal pRet k lines.flatten data bchk = .ok r) : r.pRet = initVal := by
  induction lines generalizing k data bchk with
  | nil => exact loop_nil sect key initVal pRet k data bchk r hr
  | cons l lines ih =>
    cases k with
    | zero => cases hr
    | succ k =>
      have hpass : isComment l = true ∨ isHeader l = true ∨ bchk = false ∨ keyOf l ≠ some key := by
        by_contra hno
        simp only [not_or, Bool.not_eq_true, Bool.not_eq_false, not_not] at hno
        obtain ⟨hcomment, hhead, rfl, hkey⟩ := hno
        simp [deciding, hcomment, hhead, hkey] at hnone
      rcases loop_pass l lines sect key h k data bchk hdata hpass with
        ⟨data', bchk', hdata', -, hdec, hloop⟩ | ⟨-, hdefault⟩
      · rw [hloop] at hr
        exact ih h.tail k data' bchk' hdata' (hdec ▸ hnone) hr
      · exact hdefault initVal pRet r hr

/-- The loop reaches the line that decides, with something behind it in the buffer. -/
theorem loop_deciding (h : Lines lines) (k : ℕ) (data : List UInt8) (bchk : Bool)
    (hdata : data.length = 256) (hk : lines.length < k) (D : List UInt8) (rest : List (List UInt8))
    (hD : deciding sect key bchk lines = some (D, rest)) :
    ∃ s, (D ++ 0 :: s).length = 256 ∧ D.length ≤ 254 ∧ (D ++ 0 :: s).getLast? = data.getLast? ∧
      ∀ initVal pRet w value, parse (D ++ 0 :: s) = .ok (w, some (key, value)) →
        loop sect key initVal pRet k lines.flatten data bchk = .ok (found initVal pRet value) := by
  induction lines generalizing k data bchk with
  | nil => cases hD
  | cons l lines ih =>
    obtain ⟨k, rfl⟩ : ∃ j, k = j+1 := ⟨k-1, by omega⟩
    rw [List.length_cons] at hk
    by_cases hpass : isComment l = true ∨ isHeader l = true ∨ bchk = false ∨ keyOf l ≠ some key
    · rcases loop_pass l lines sect key h k data bchk hdata hpass with
        ⟨data', bchk', hdata', hlast, hdec, hloop⟩ | ⟨hnone, -⟩
      · simp only [hloop, ← hlast]
        exact ih h.tail k data' bchk' hdata' (by omega) (hdec ▸ hD)
      · rw [hnone] at hD
        cases hD
    · simp only [not_or, Bool.not_eq_true, Bool.not_eq_false, not_not] at hpass
      obtain ⟨hcomment, hhead, rfl, hkey⟩ := hpass
      have hl : D = l := by
        simp only [deciding, hcomment, hhead, hkey] at hD
        exact (Prod.ext_iff.mp (Option.some.inj hD)).1.symm
      subst hl
      obtain ⟨hlen, hlast⟩ := next_data D data hdata h.fgets.2
      refine ⟨data.drop (D.length+1), hlen, h.fgets.2, hlast, fun initVal pRet w value hparse => ?_⟩
      rw [loop_line D lines sect key initVal pRet h k data true hdata _ rfl, hcomment, hhead, hparse]
      exact if_pos rfl

end Loop

end File

section Search

variable (sect key : List UInt8)

theorem mem_of_mem_sectionLines (lines : List (List UInt8)) (inside : Bool) (l : List UInt8)
    (hl : l ∈ sectionLines sect inside lines) : l ∈ lines := by
  induction lines generalizing inside with
  | nil => exact hl
  | cons b lines ih =>
    rw [sectionLines] at hl
    split_ifs at hl
    · exact List.mem_cons_of_mem _ (ih _ hl)
    · exact List.mem_cons_of_mem _ (ih _ hl)
    · rcases List.mem_cons.mp hl with rfl | hl
      · exact List.mem_cons_self
      · exact List.mem_cons_of_mem _ (ih _ hl)
    · exact List.mem_cons_of_mem _ (ih _ hl)

/-- What decides is an entry with the key, and no such entry of the section is in front of it. -/
theorem deciding_first (lines : List (List UInt8)) (bchk : Bool) (D : List UInt8)
    (rest : List (List UInt8)) (hD : deciding sect key bchk lines = some (D, rest)) :
    keyOf D = some key ∧ (∃ pre, lines = pre ++ D :: rest) ∧
      ∀ inside l, (inside = true → bchk = true) → l ∈ sectionLines sect inside lines →
        keyOf l = some key → l ∈ D :: rest := by
  induction lines generalizing bchk with
  | nil => cases hD
  | cons b lines ih =>
    have hpass (bchk' : Bool) (hD' : deciding sect key bchk' lines = some (D, rest)) :
        keyOf D = some key ∧ (∃ pre, b :: lines = pre ++ D :: rest) ∧
          ∀ inside l, (inside = true → bchk' = true) → l ∈ sectionLines sect inside lines →
            keyOf l = some key → l ∈ D :: rest := by
      obtain ⟨hkey, ⟨pre, hpre⟩, hfirst⟩ := ih bchk' hD'
      exact ⟨hkey, ⟨b :: pre, by rw [hpre]; rfl⟩, hfirst⟩
    rw [deciding] at hD
    split_ifs at hD with hcomment hhead hlong hentry
    · obtain ⟨hkey, hpre, hfirst⟩ := hpass bchk hD
      refine ⟨hkey, hpre, fun inside l hin hl => ?_⟩
      rw [sectionLines, if_pos hcomment] at hl
      exact hfirst inside l hin hl
    · obtain ⟨hkey, hpre, hfirst⟩ := hpass _ hD
      refine ⟨hkey, hpre, fun inside l _ hl => ?_⟩
      rw [sectionLines, if_neg hcomment, if_pos hhead] at hl
      refine hfirst _ l (fun hname => ?_) hl
      rw [hname, Bool.or_true]
    · cases hD
      rw [Bool.and_eq_true, decide_eq_true_eq] at hentry
      exact ⟨hentry.2, ⟨[], rfl⟩, fun inside l _ hl _ => mem_of_mem_sectionLines sect _ inside l hl⟩
    · obtain ⟨hkey, hpre, hfirst⟩ := hpass bchk hD
      refine ⟨hkey, hpre, fun inside l hin hl hlkey => ?_⟩
      rw [sectionLines, if_neg hcomment, if_neg hhead] at hl
      split_ifs at hl with hinside
      · rcases List.mem_cons.mp hl with rfl | hl
        · exact absurd hlkey (by simpa [hin hinside] using hentry)
        · exact hfirst inside l hin hl hlkey
      · exact hfirst inside l hin hl hlkey

theorem keyOf_entry (l v : List UInt8) (hne : key ≠ []) (hno : 61 ∉ key) (h : squeeze l = key ++ 61 :: v) :
    keyOf l = some key := by
  have hskip : (key ++ 61 :: v).dropWhile (fun c => c = 61) = key ++ 61 :: v := by
    obtain ⟨c, cs, rfl⟩ := List.exists_cons_of_ne_nil hne
    rw [List.cons_append, List.dropWhile_cons_of_neg]
    simpa using all_ne 61 _ hno c List.mem_cons_self
  rw [keyOf, h, hskip, takeWhile_ne_append 61 key v hno, if_neg hne]

theorem key_of_keyOf (l : List UInt8) (h : keyOf l = some key) : key ≠ [] ∧ 61 ∉ key := by
  have htok := keyOf_eq_some l key h
  constructor
  · rintro rfl
    rw [keyOf, if_pos htok] at h
    cases h
  · intro hmem
    rw [← htok] at hmem
    exact absurd (List.mem_takeWhile_imp hmem) (by decide)

end Search

section Respects

variable (lines : List (List UInt8)) (h : Lines lines) (sect key : CString)

theorem Lines.count_le (h : Lines lines) : lines.length ≤ lines.flatten.length := by
  induction lines with
  | nil => exact le_rfl
  | cons l lines ih =>
    have hpos := List.length_pos_of_ne_nil (h.whole l List.mem_cons_self).1
    have htail := ih h.tail
    rw [List.flatten_cons, List.length_append, List.length_cons]
    omega

include h

theorem respects_of_kept (hkept : Kept sect.chars key.chars lines) : Respects lines sect key := by
  intro initVal pRet data r hdata hcall hne
  have hcount := h.count_le
  cases hD : deciding sect.chars key.chars false lines with
  | none =>
    exact absurd (loop_missing lines _ _ _ _ h _ data false hdata hD r hcall) hne
  | some p =>
    obtain ⟨D, rest⟩ := p
    obtain ⟨v, hv, hl⟩ := hkept D rest hD
    obtain ⟨hkey, -⟩ := deciding_first _ _ lines false D rest hD
    obtain ⟨w, hparse⟩ : ∃ w, parse (D ++ [0]) = .ok (w, some (key.chars, some v)) := by
      rw [valueOf] at hv
      split at hv
      · rename_i w k value hparse
        have hfst := parse_key D [] w _ hparse
        rw [hkey, Option.map_some, Option.some.injEq] at hfst
        exact ⟨w, by rw [hparse, ← hfst, hv]⟩
      · cases hv
    obtain ⟨s, -, -, -, hloop⟩ := loop_deciding lines sect.chars key.chars h (lines.flatten.length+1) data
      false hdata (by omega) D rest hD
    have hfound := hloop initVal.chars pRet.chars _ _ (parse_append D s w _ hparse)
    have hr := hcall.symm.trans hfound
    cases hr
    exact hl

theorem newline_of_rest (pre rest : List (List UInt8)) (D : List UInt8) (hpre : lines = pre ++ D :: rest)
    (hrest : rest ≠ []) : D.getLast? = some 10 := by
  apply h.ended D
  rw [hpre, List.dropLast_append_of_ne_nil (List.cons_ne_nil _ _), List.dropLast_cons_of_ne_nil hrest]
  exact List.mem_append_right _ List.mem_cons_self

/-- What the caller finds when the line that decides has the second token `value` and the line buffer held
nothing but zeros. -/
theorem reply_of_deciding (D : List UInt8) (rest : List (List UInt8))
    (hD : deciding sect.chars key.chars false lines = some (D, rest)) :
    ∃ value, (key.chars.length < D.length → value = valueOf D) ∧
      ∀ initVal pRet : CString, getPrivateProfileStringEX sect.chars key.chars initVal.chars pRet.chars
        (List.replicate 256 0) (some lines.flatten) = .ok (found initVal.chars pRet.chars value) := by
  have hcount := h.count_le
  have hkey := (deciding_first _ _ lines false D rest hD).1
  obtain ⟨s, hslen, hDlen, hlast, hloop⟩ := loop_deciding lines sect.chars key.chars h
    (lines.flatten.length+1) (List.replicate 256 0) false List.length_replicate (by omega) D rest hD
  rw [List.length_append, List.length_cons] at hslen
  have hshort := keyOf_length D key.chars hkey
  obtain ⟨w, value, hparse, -⟩ := parse_line D s hlast (by
    intro k hk
    rw [hkey] at hk
    cases hk
    omega)
  rw [hkey, Option.map_some] at hparse
  refine ⟨value, fun hlt => ?_, fun initVal pRet => hloop _ _ w value hparse⟩
  obtain ⟨w', value', hparse', -⟩ := parse_line D [] List.getLast?_concat (by
    intro k hk
    rw [hkey] at hk
    cases hk
    exact hlt)
  have hsame := parse_append D s w' _ hparse'
  rw [hparse, hkey, Option.map_some] at hsame
  have hvalue : valueOf D = value' := by
    rw [valueOf, hparse', hkey]
    rfl
  rw [hvalue]
  cases hsame
  rfl

theorem kept_of_respects (hresp : Respects lines sect key) : Kept sect.chars key.chars lines := by
  intro D rest hD
  obtain ⟨hkey, ⟨pre, hpre⟩, hfirst⟩ := deciding_first _ _ lines false D rest hD
  obtain ⟨hne, hno⟩ := key_of_keyOf key.chars D hkey
  obtain ⟨value, hvalue, hcall⟩ := reply_of_deciding lines h sect key D rest hD
  cases value with
  | none =>
    -- the caller's own text, longer than any line
    have hlong : (0 : UInt8) ∉ List.replicate (lines.flatten.length+1) 1 := by
      intro hmem
      exact absurd (List.eq_of_mem_replicate hmem) (by decide)
    obtain ⟨l, hl, hentry⟩ := hresp ⟨[], by decide⟩ ⟨_, hlong⟩ _ _ List.length_replicate (hcall _ _)
      (List.cons_ne_nil 1 (List.replicate lines.flatten.length 1))
    have hle := ((squeeze_sublist l).trans (List.sublist_flatten_of_mem
      (mem_of_mem_sectionLines _ lines false l hl))).length_le
    rw [hentry, found, List.length_append, List.length_cons, List.length_replicate] at hle
    omega
  | some v =>
    obtain ⟨initVal, hinit⟩ : ∃ initVal : CString, v ≠ initVal.chars := by
      by_cases hv : v = []
      · exact ⟨⟨[1], by decide⟩, by rw [hv]; exact (List.cons_ne_nil _ _).symm⟩
      · exact ⟨⟨[], by decide⟩, hv⟩
    obtain ⟨l, hl, hentry⟩ := hresp initVal ⟨[], by decide⟩ _ _ List.length_replicate (hcall _ _) hinit
    rcases lt_or_ge key.chars.length D.length with hlt | hbare
    · exact ⟨v, (hvalue hlt).symm, l, hl, hentry⟩
    · -- the last line of the file, so that no entry of the section is behind it
      have hrest : rest = [] := by
        by_contra hrest
        exact absurd (keyOf_lt D (newline_of_rest lines h pre rest D hpre hrest) _ hkey) (not_lt.mpr hbare)
      have hlkey := keyOf_entry key.chars l v hne hno hentry
      have hmem := hfirst false l id hl hlkey
      rw [hrest, List.mem_singleton] at hmem
      subst hmem
      have hlen := congrArg List.length hentry
      rw [(keyOf_bare l key.chars hkey hbare).1, List.length_append, List.length_cons] at hlen
      omega

end Respects

/-- A call respects the sections of a file exactly when the first entry that it takes for one of the
section has a value that the key has in the section. -/
theorem respects_iff (lines : List (List UInt8)) (h : Lines lines) (sect key : CString) :
    Respects lines sect key ↔ Kept sect.chars key.chars lines :=
  ⟨kept_of_respects lines h sect key, respects_of_kept lines h sect key⟩

-- `[A]`, `x=1`, `[B]` and `k=v`
def otherSection : List (List UInt8) :=
  [[91, 65, 93, 10], [120, 61, 49, 10], [91, 66, 93, 10], [107, 61, 118, 10]]

theorem otherSection_lines : Lines otherSection where
  ended := by decide
  whole := by decide
  short := by decide
  closed := by decide

theorem respects_iff_other : Respects otherSection ⟨[66], by decide⟩ ⟨[107], by decide⟩ ↔
    Kept [66] [107] otherSection :=
  respects_iff otherSection otherSection_lines ⟨[66], by decide⟩ ⟨[107], by decide⟩

-- the key of section `B` is found for section `A`
theorem not_respects_other : ¬Respects otherSection ⟨[65], by decide⟩ ⟨[107], by decide⟩ := by
  intro h
  have hD : deciding [65] [107] false otherSection = some ([107, 61, 118, 10], []) := by decide
  obtain ⟨v, -, hv⟩ := kept_of_respects otherSection otherSection_lines _ _ h _ _ hD
  have hlines : sectionLines [65] false otherSection = [[120, 61, 49, 10]] := by decide
  rw [hlines] at hv
  obtain ⟨l, hl, hentry⟩ := hv
  rw [List.mem_singleton.mp hl] at hentry
  exact absurd (List.cons.inj hentry).1 (by decide)

end Leviathan.ProfileEx
