import Leviathan.IntValue
import Leviathan.IntervalStats
import Leviathan.StringSearch

/-! `CAnalyzer_Average` (LogAnalyzer, Analyzer_Average.cpp): the number that a line has for the first keyword
in it. -/
namespace Leviathan.Average

open CmString IntValue IntervalStats

section Model

/-- A keyword as `initConfig` takes it from `szBuf[128]`: not empty, and shorter than that. -/
structure Keyword extends CString where
  ne : chars ≠ []
  short : chars.length < 128

structure STAnalyzer_Avg where
  pKeyword : Option Keyword
  stInterval : STInterval

/-- The keyword of an entry, and the position that `ehstrstr` answers for it. -/
def find (pLine : CString) (pStruct : STAnalyzer_Avg) : Option (Keyword × ℤ) :=
  pStruct.pKeyword.bind (fun pKeyword =>
    (ehstrstr pLine pKeyword.toCString).map (fun pPos => (pKeyword, pPos)))

-- what `atoi` answers for a number that no `int` holds
variable (atoiOver : List UInt8 → ℤ)

/-- The code at `FIND_SUCCESS`. -/
def findSuccess (pLine : CString) (pStruct : STAnalyzer_Avg) (pKeyword : Keyword) (pPos : ℤ) :
    Except Fault STAnalyzer_Avg := do
  let nValue ← getIntValue atoiOver (pLine.chars.drop pPos.toNat) pKeyword.chars
  let stInterval ← record pStruct.stInterval (toFloat nValue)
  return { pStruct with stInterval := stInterval }

/-- `parsingLine` over the entries of `m_pKeyAvgList`. -/
def parsingLine (pLine : CString) : List STAnalyzer_Avg → Except Fault (Bool × List STAnalyzer_Avg)
  | [] => .ok (false, [])
  | pStruct :: rest =>
    match find pLine pStruct with
    | some (pKeyword, pPos) => do
      let pStruct ← findSuccess atoiOver pLine pStruct pKeyword pPos
      return (true, pStruct :: rest)
    | none => do
      let (bRes, rest) ← parsingLine pLine rest
      return (bRes, pStruct :: rest)

end Model

/-- `a` is the first entry whose keyword occurs in the line, once, with a number of one to nine digits in
brackets behind it. -/
structure FirstMatch (line : CString) (before : List STAnalyzer_Avg) (a : STAnalyzer_Avg)
    (K : Keyword) (pre digits post : List UInt8) : Prop where
  keyword : a.pKeyword = some K
  earlier : ∀ b ∈ before, ∀ k ∈ b.pKeyword, ∀ o, ¬k.chars <+: line.chars.drop o
  text : line.chars = pre ++ (K.chars ++ 91 :: (digits ++ 93 :: post))
  once : ∀ o, K.chars <+: line.chars.drop o → o = pre.length
  digit : isNDigit digits = false
  length : 1 ≤ digits.length ∧ digits.length ≤ 9

/-- `parsingLine` appends `v` to the values of `a`, and leaves all else as it is. -/
def Records (atoiOver : List UInt8 → ℤ) (line : CString) (before : List STAnalyzer_Avg)
    (a : STAnalyzer_Avg) (after : List STAnalyzer_Avg) (v : ℚ) : Prop :=
  ∃ p', parsingLine atoiOver line (before ++ a :: after) =
      .ok (true, before ++ { a with stInterval := p' } :: after) ∧ Appended a.stInterval v p'

/-- A `float` has the 24 bits that `v` needs. -/
def FitsFloat (v : ℕ) : Prop := 2^(Nat.log 2 v-23) ∣ v

instance : DecidablePred FitsFloat := fun v => inferInstanceAs (Decidable (2^(Nat.log 2 v-23) ∣ v))

theorem toFloat_natCast_iff (v : ℕ) : toFloat (v : ℤ) = (v : ℚ) ↔ FitsFloat v := by
  have hround := FloatRound.round_intCast_iff 23 v
  rw [Int.natAbs_natCast] at hround
  exact_mod_cast hround

section Search

variable (line : CString) (K : Keyword)

theorem Keyword.strlen_lt : K.strlen < 2^31 := by
  have hshort := K.short
  have hlen : K.strlen = K.chars.length := rfl
  omega

-- What `ehstrstr` meets is an occurrence, and it answers where that ends.
theorem occurs_of_ehstrstr (e : ℤ) (h : ehstrstr line K.toCString = some e) :
    ∃ o, K.chars <+: line.chars.drop o ∧ e = ((o+K.chars.length-1 : ℕ) : ℤ) := by
  have hcomp := compared_eq K.toCString K.strlen_lt
  have hmet : ∃ pre rest, line.chars = pre ++ (K.chars ++ rest) ∧ Attempts K.chars pre := by
    by_contra hno
    rw [← hcomp] at hno
    rw [(ehstrstr_eq_none_iff line K.toCString K.ne).mpr hno] at h
    cases h
  obtain ⟨pre, rest, ht, hatt⟩ := hmet
  have hsome := ehstrstr_eq_some line K.toCString K.ne pre rest (by rw [hcomp, ht]) (by rwa [hcomp])
  rw [h, hcomp, Option.some.injEq] at hsome
  exact ⟨pre.length, occurs_at K.chars line.chars pre rest ht, hsome⟩

theorem attempts_single (c : UInt8) (pre : List UInt8) (h : c ∉ pre) : Attempts [c] pre := by
  induction pre with
  | nil => exact .nil
  | cons d pre ih =>
    rw [List.mem_cons, not_or] at h
    exact .cons 0 d pre zero_lt_one (Ne.symm h.1) (ih h.2)

end Search

section Line

variable (atoiOver : List UInt8 → ℤ) (line : CString)

theorem find_eq_none (a : STAnalyzer_Avg)
    (h : ∀ k ∈ a.pKeyword, ∀ o, ¬k.chars <+: line.chars.drop o) : find line a = none := by
  unfold find
  cases hk : a.pKeyword with
  | none => rfl
  | some k =>
    rw [Option.bind_some, Option.map_eq_none_iff, Option.eq_none_iff_forall_not_mem]
    intro e he
    obtain ⟨o, ho, -⟩ := occurs_of_ehstrstr line k e he
    exact h k hk o ho

theorem parsingLine_skip (before rest : List STAnalyzer_Avg) (h : ∀ b ∈ before, find line b = none) :
    parsingLine atoiOver line (before ++ rest) =
      (parsingLine atoiOver line rest).map (fun r => (r.1, before ++ r.2)) := by
  induction before with
  | nil =>
    rw [List.nil_append]
    cases parsingLine atoiOver line rest <;> rfl
  | cons b before ih =>
    rw [List.forall_mem_cons] at h
    rw [List.cons_append, parsingLine, h.1]
    dsimp only
    rw [ih h.2]
    cases parsingLine atoiOver line rest <;> rfl

variable (before after : List STAnalyzer_Avg) (a : STAnalyzer_Avg) (K : Keyword)
  (pre digits post : List UInt8) (h : FirstMatch line before a K pre digits post)

include h

theorem FirstMatch.skip (rest : List STAnalyzer_Avg) : parsingLine atoiOver line (before ++ rest) =
    (parsingLine atoiOver line rest).map (fun r => (r.1, before ++ r.2)) :=
  parsingLine_skip atoiOver line before rest (fun b hb => find_eq_none line b (h.earlier b hb))

theorem FirstMatch.occurs : K.chars <+: line.chars.drop pre.length :=
  occurs_at K.chars line.chars pre _ h.text

-- Where the search meets the keyword, it answers its last character.
theorem FirstMatch.met (e : ℤ) (he : ehstrstr line K.toCString = some e) :
    e = ((pre.length+K.chars.length-1 : ℕ) : ℤ) := by
  obtain ⟨o, hocc, heq⟩ := occurs_of_ehstrstr line K e he
  rw [heq, h.once o hocc]

theorem FirstMatch.parsingLine_eq : parsingLine atoiOver line (before ++ a :: after) =
    match ehstrstr line K.toCString with
    | some pPos => do
      let a ← findSuccess atoiOver line a K pPos
      return (true, before ++ a :: after)
    | none => do
      let (bRes, rest) ← parsingLine atoiOver line after
      return (bRes, before ++ a :: rest) := by
  rw [h.skip, parsingLine, find, h.keyword, Option.bind_some]
  cases ehstrstr line K.toCString with
  | none =>
    rw [Option.map_none]
    dsimp only
    cases parsingLine atoiOver line after <;> rfl
  | some pPos =>
    rw [Option.map_some]
    dsimp only
    cases findSuccess atoiOver line a K pPos <;> rfl

theorem FirstMatch.met_single (hlen : K.chars.length = 1) :
    ehstrstr line K.toCString = some (pre.length : ℤ) := by
  obtain ⟨c, hc⟩ := List.length_eq_one_iff.mp hlen
  have hpre : line.chars.take pre.length = pre := by
    rw [h.text, List.take_left]
  have hnot : c ∉ pre := by
    intro hmem
    obtain ⟨u, v, huv, -⟩ := List.eq_append_cons_of_mem hmem
    have hearly := h.once u.length (by
      rw [h.text, huv, List.append_assoc, List.drop_left, hc]
      exact List.prefix_append [c] _)
    rw [huv, List.length_append, List.length_cons] at hearly
    omega
  have hrun := ehstrstr_of_attempts line K.toCString K.ne K.strlen_lt pre.length h.occurs (by
    rw [hpre, hc]
    exact attempts_single c pre hnot)
  have hlen' : K.strlen = 1 := hlen
  rw [hrun, hlen', Nat.add_sub_cancel]

-- The keyword is no bracket, which would stand twice.
theorem FirstMatch.bracketed (hlen : K.chars.length = 1) :
    Bracketed (K.chars ++ 91 :: (digits ++ 93 :: post)) digits := by
  obtain ⟨c, hc⟩ := List.length_eq_one_iff.mp hlen
  refine ⟨K.chars, post, rfl, ?_, ?_⟩
  · intro hmem
    rw [hc, List.mem_singleton] at hmem
    have hsecond := h.once (pre.length+1) (by
      rw [h.text, hc, ← hmem, ← List.drop_drop, List.drop_left]
      exact List.prefix_append [91] _)
    omega
  · intro hmem
    have hd := isDigit_of_isNDigit digits h.digit 93 hmem
    exact absurd hd.2 (by decide)

-- From a single character on, the number behind it is read.
theorem FirstMatch.value_single (hlen : K.chars.length = 1) :
    getIntValue atoiOver (line.chars.drop pre.length) K.chars = .ok (number digits) := by
  have hl := h.length
  have hlt : number digits < 2^31 := by
    calc
      number digits < 10^digits.length := number_lt digits h.digit
      _ ≤ 10^9 := Nat.pow_le_pow_right (by norm_num) hl.2
      _ < 2^31 := by norm_num
  have hbehind : Behind (K.chars ++ 91 :: (digits ++ 93 :: post)) K.chars
      (91 :: (digits ++ 93 :: post)) := ⟨[], rfl, fun o ho => absurd ho (Nat.not_lt_zero o)⟩
  have hi : i32 digits.length = digits.length := i32_natCast _ (by omega)
  have hfits : 0 ≤ (digits.length : ℤ) ∧ (digits.length : ℤ) < sizeofSzBuf := by
    unfold sizeofSzBuf
    omega
  have hbracketed := h.bracketed line before a K pre digits post hlen
  rw [h.text, List.drop_left, getIntValue, strstr_of_behind _ _ _ hbehind]
  dsimp only
  rw [valueFrom_bracketed atoiOver _ digits hbracketed, hi, if_pos hfits, Int.toNat_natCast,
    List.take_length, valueOf_digits atoiOver digits h.digit hlt]

-- Behind the first character of a longer keyword it does not occur again.
theorem FirstMatch.value_long (hlen : K.chars.length ≠ 1) :
    getIntValue atoiOver (line.chars.drop (pre.length+K.chars.length-1)) K.chars = .ok (-1) := by
  have hpos := List.length_pos_of_ne_nil K.ne
  rw [getIntValue, (strstr_eq_none_iff _ _).mpr]
  intro o hocc
  rw [List.drop_drop] at hocc
  have heq := h.once _ hocc
  omega

theorem FirstMatch.records_of_value (pPos : ℤ) (nValue : ℤ)
    (hpos : ehstrstr line K.toCString = some pPos)
    (hval : getIntValue atoiOver (line.chars.drop pPos.toNat) K.chars = .ok nValue) (v : ℚ) :
    Records atoiOver line before a after v ↔ toFloat nValue = v ∧ Room a.stInterval := by
  have hline : parsingLine atoiOver line (before ++ a :: after) =
      (record a.stInterval (toFloat nValue)).map
        (fun p => (true, before ++ { a with stInterval := p } :: after)) := by
    rw [h.parsingLine_eq, hpos]
    dsimp only
    rw [findSuccess, hval, ok_bind]
    cases record a.stInterval (toFloat nValue) <;> rfl
  constructor
  · rintro ⟨p', hp', happ⟩
    apply And.intro _ happ.room
    rw [hline] at hp'
    obtain ⟨q, hq, heq⟩ := (map_eq_ok _ _ _).mp hp'
    rw [Prod.mk.injEq, List.append_cancel_left_eq, List.cons.injEq, STAnalyzer_Avg.mk.injEq] at heq
    have happq := (record_eq_ok_iff _ _ _).mp hq
    rw [heq.2.1.2] at happq
    exact happq.value _ _ _ _ happ
  · rintro ⟨rfl, hroom⟩
    obtain ⟨q, hq, happ⟩ := record_of_room a.stInterval (toFloat nValue) hroom
    refine ⟨q, ?_, happ⟩
    rw [hline, hq]
    rfl

theorem FirstMatch.records_of_single (hlen : K.chars.length = 1) (v : ℚ) :
    Records atoiOver line before a after v ↔
      toFloat (number digits : ℤ) = v ∧ Room a.stInterval := by
  have hval := h.value_single atoiOver line before a K pre digits post hlen
  exact h.records_of_value atoiOver line before after a K pre digits post pre.length _
    (h.met_single line before a K pre digits post hlen) hval v

-- Of a longer keyword -1 is recorded, or nothing where the search misses it.
theorem FirstMatch.length_eq_one (v : ℕ) (hrec : Records atoiOver line before a after v) :
    K.chars.length = 1 := by
  by_contra hlen
  cases hfind : ehstrstr line K.toCString with
  | none =>
    obtain ⟨p', hp', happ⟩ := hrec
    rw [h.parsingLine_eq, hfind] at hp'
    dsimp only at hp'
    obtain ⟨r, -, hr⟩ := (bind_eq_ok _ _ _).mp hp'
    have hrest := List.append_cancel_left (congrArg Prod.snd (Except.ok.inj hr))
    apply happ.ne
    exact (congrArg STAnalyzer_Avg.stInterval (List.cons.inj hrest).1).symm
  | some pPos =>
    have hmet := h.met line before a K pre digits post pPos hfind
    have hval := h.value_long atoiOver line before a K pre digits post hlen
    rw [← Int.toNat_natCast (pre.length+K.chars.length-1), ← hmet] at hval
    rw [h.records_of_value atoiOver line before after a K pre digits post pPos _ hfind hval] at hrec
    have hneg : toFloat (-1 : ℤ) = (-1 : ℤ) := FloatRound.round_small 23 (-1) (by decide)
    rw [hneg] at hrec
    have hnat : (-1 : ℤ) = v := by exact_mod_cast hrec.1
    omega

/-- The number is recorded exactly when the keyword is a single character, the number is a `float`, and the
arrays of the keyword have room. -/
theorem records_iff : Records atoiOver line before a after (number digits) ↔
    K.chars.length = 1 ∧ FitsFloat (number digits) ∧ Room a.stInterval := by
  constructor
  · intro hrec
    have hlen := h.length_eq_one atoiOver line before after a K pre digits post _ hrec
    rw [h.records_of_single atoiOver line before after a K pre digits post hlen] at hrec
    exact ⟨hlen, (toFloat_natCast_iff _).mp hrec.1, hrec.2⟩
  · rintro ⟨hlen, hfits, hroom⟩
    rw [h.records_of_single atoiOver line before after a K pre digits post hlen]
    exact ⟨(toFloat_natCast_iff _).mpr hfits, hroom⟩

omit h in
theorem records_iff_seven : Records (fun _ => 0) ⟨[110, 91, 55, 93], by decide⟩ []
    ⟨some ⟨⟨[110], by decide⟩, by decide, by decide⟩, STInterval.zero⟩ [] (number [55]) := by
  apply (records_iff (fun _ => 0) _ [] [] _ _ [] [55] []
    ⟨rfl, by simp, rfl, ?_, rfl, by decide⟩).mpr
  · exact ⟨rfl, by decide, (counts_zero.room_iff _ _).mpr (by decide)⟩
  · intro o ho
    rcases o with _ | _ | _ | _ | o <;> simp at ho ⊢

-- the keyword `no` in the line `no[7]`
omit h in
theorem not_records_two_characters : ¬Records (fun _ => 0) ⟨[110, 111, 91, 55, 93], by decide⟩ []
    ⟨some ⟨⟨[110, 111], by decide⟩, by decide, by decide⟩, STInterval.zero⟩ [] (number [55]) := by
  intro hrec
  have hmatch : FirstMatch ⟨[110, 111, 91, 55, 93], by decide⟩ []
      ⟨some ⟨⟨[110, 111], by decide⟩, by decide, by decide⟩, STInterval.zero⟩
      ⟨⟨[110, 111], by decide⟩, by decide, by decide⟩ [] [55] [] := by
    refine ⟨rfl, by simp, rfl, ?_, rfl, by decide⟩
    intro o ho
    rcases o with _ | _ | _ | _ | _ | o <;> simp at ho ⊢
  have hlen := hmatch.length_eq_one (fun _ => 0) _ [] [] _ _ [] [55] [] _ hrec
  exact absurd hlen (by decide)

end Line

end Leviathan.Average
