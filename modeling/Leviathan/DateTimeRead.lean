import Leviathan.DateTimeHeader

/-! For which header formats the analyzer reads back what the logger writes. -/
namespace Leviathan.DateTime

def AllDigits (s : List Char) : Prop := ∀ c ∈ s, c.isDigit = true

def value (s : List Char) : ℕ := Nat.ofDigitChars 10 s 0

/-- The next character, if there is one, ends a number. -/
def EndsNumber (s : List Char) : Prop := ∀ c, s.head? = some c → c.isDigit = false

theorem atoi_digits (b c : List Char) (hne : b ≠ []) (hb : AllDigits b) (hc : EndsNumber c) :
    atoi (b ++ c) = value b := by
  obtain ⟨d, b, rfl⟩ := List.exists_cons_of_ne_nil hne
  rw [List.cons_append, atoi_of_digit d (b ++ c) (hb d List.mem_cons_self)]
  unfold leadingNumber value
  rw [← List.cons_append, List.takeWhile_append_of_pos hb]
  cases c with
  | nil => simp
  | cons x c =>
    rw [List.takeWhile_cons_of_neg]
    · rw [List.append_nil]
    · rw [hc x rfl]
      exact Bool.false_ne_true

theorem endsNumber_take (c : List Char) (n : ℕ) (hc : EndsNumber c) : EndsNumber (c.take n) := by
  intro x hx
  cases n with
  | zero => simp at hx
  | succ n =>
    cases c with
    | nil => simp at hx
    | cons y c => exact hc x (by simpa using hx)

/-- The text from this position on. -/
structure At (pLog : List Char) (pPos : ℕ) (s : List Char) : Prop where
  le : pPos ≤ pLog.length
  drop : pLog.drop pPos = s

theorem At.skip (pLog a s : List Char) (p q : ℕ) (h : At pLog p (a ++ s)) (hq : q = p+a.length) :
    At pLog q s := by
  have hlen : pLog.length = p+(a ++ s).length := by
    rw [← h.drop, List.length_drop]
    have hle := h.le
    omega
  constructor
  · rw [hlen, List.length_append]
    omega
  · rw [hq, ← List.drop_drop, h.drop, List.drop_left]

-- A field that holds a number and perhaps something behind it.
theorem At.field (pLog b c : List Char) (pPos nLen : ℕ) (h : At pLog pPos (b ++ c)) (hne : b ≠ [])
    (hb : AllDigits b) (hlen : b.length ≤ nLen) (h8 : nLen < 8) (hc : nLen = b.length ∨ EndsNumber c) :
    field pLog pPos nLen = .ok (value b : ℤ) := by
  have htake : (pLog.drop pPos).take nLen = b ++ c.take (nLen-b.length) := by
    rw [h.drop, List.take_append, List.take_of_length_le hlen]
  have hend : EndsNumber (c.take (nLen-b.length)) := by
    rcases hc with hc | hc
    · rw [hc, Nat.sub_self]
      intro x hx
      simp at hx
    · exact endsNumber_take c _ hc
  rw [DateTime.field, if_pos ⟨h8, Or.inr h.le⟩, htake, atoi_digits b _ hne hb hend]

theorem padded_spec (w n : ℕ) (hw : 0 < w) (hn : n < 10^w) :
    (padded w n).length = w ∧ AllDigits (padded w n) ∧ value (padded w n) = n := by
  have hlen : (Nat.toDigits 10 n).length ≤ w := by
    exact (Nat.length_toDigits_le_iff (by decide) hw).mpr hn
  refine ⟨?_, ?_, ?_⟩
  · rw [padded, List.length_append, List.length_replicate]
    omega
  · intro c hc
    rcases List.mem_append.mp hc with hc | hc
    · rw [List.eq_of_mem_replicate hc]
      rfl
    · exact Nat.isDigit_of_mem_toDigits (by decide) (by decide) hc
  · rw [value, padded, Nat.ofDigitChars_append, Nat.ofDigitChars_replicate_zero, Nat.mul_zero,
      Nat.ofDigitChars_toDigits (by decide) (by decide)]

-- the last two digits of a year
theorem year_spec (y : ℕ) (h : 1000 ≤ y ∧ y ≤ 9999) :
    ((Nat.toDigits 10 y).drop 2).length = 2 ∧ AllDigits ((Nat.toDigits 10 y).drop 2) ∧
      value ((Nat.toDigits 10 y).drop 2) = y%100 := by
  have hsplit : Nat.toDigits 10 y =
      Nat.toDigits 10 (y/100) ++ (Nat.toDigits 10 (y/10%10) ++ Nat.toDigits 10 (y%10)) := by
    have h1 := Nat.toDigits_append_toDigits (b := 10) (n := y/10) (d := y%10) (by decide) (by omega)
      (by omega)
    have h2 := Nat.toDigits_append_toDigits (b := 10) (n := y/100) (d := y/10%10) (by decide)
      (by omega) (by omega)
    calc
      Nat.toDigits 10 y = Nat.toDigits 10 (10*(y/10)+y%10) := by
        rw [Nat.div_add_mod]
      _ = Nat.toDigits 10 (10*(y/100)+y/10%10) ++ Nat.toDigits 10 (y%10) := by
        rw [← h1, show 10*(y/100)+y/10%10 = y/10 by omega]
      _ = Nat.toDigits 10 (y/100) ++ (Nat.toDigits 10 (y/10%10) ++ Nat.toDigits 10 (y%10)) := by
        rw [← h2, List.append_assoc]
  have hfront : (Nat.toDigits 10 (y/100)).length = 2 := by
    have hle := (Nat.length_toDigits_le_iff (b := 10) (n := y/100) (k := 2) (by decide)
      (by decide)).mpr (by omega)
    have hgt : ¬(Nat.toDigits 10 (y/100)).length ≤ 1 := by
      rw [Nat.length_toDigits_le_iff (by decide) (by decide)]
      omega
    omega
  have hdrop : (Nat.toDigits 10 y).drop 2 = Nat.toDigits 10 (y/10%10) ++ Nat.toDigits 10 (y%10) := by
    rw [hsplit, ← hfront, List.drop_left]
  have hone (d : ℕ) (hd : d < 10) : Nat.toDigits 10 d = [d.digitChar] := by
    exact Nat.toDigits_of_lt_base hd
  have hd1 : y/10%10 < 10 := by omega
  have hd2 : y%10 < 10 := by omega
  refine ⟨?_, ?_, ?_⟩
  · rw [hdrop, hone _ hd1, hone _ hd2]
    rfl
  · intro c hc
    exact Nat.isDigit_of_mem_toDigits (by decide) (by decide) (List.mem_of_mem_drop hc)
  · rw [hdrop, value, Nat.ofDigitChars_append, Nat.ofDigitChars_toDigits (by decide) (by decide),
      hone _ hd2, Nat.ofDigitChars_cons_digitChar_of_lt_ten hd2]
    simp [Nat.ofDigitChars]
    omega

/-- A number as text, with its place in the header. -/
structure IsField (s : List Char) (len n : ℕ) : Prop where
  length : s.length = len
  digits : AllDigits s
  value : value s = n

theorem isField_padded (w n : ℕ) (hw : 0 < w) (hn : n < 10^w) : IsField (padded w n) w n := by
  obtain ⟨hlen, hdigits, hval⟩ := padded_spec w n hw hn
  exact ⟨hlen, hdigits, hval⟩

theorem At.number (pLog b c : List Char) (pPos nLen len n : ℕ) (h : At pLog pPos (b ++ c))
    (hb : IsField b len n) (h0 : 0 < len) (hlen : len ≤ nLen) (h8 : nLen < 8)
    (hc : nLen = len ∨ EndsNumber c) : DateTime.field pLog pPos nLen = .ok (n : ℤ) := by
  have hblen := hb.length
  rw [← hb.value]
  apply h.field pLog b c pPos nLen
  · apply List.ne_nil_of_length_pos
    omega
  · exact hb.digits
  · omega
  · exact h8
  · rw [hblen]
    exact hc

/-- An expression that finds the columns of a header with time delimiters. -/
structure FitsHeader (x : STDateTimeExp) (nBra nYearLen nDelim nLastLen : ℕ) : Prop where
  dateDelim : (if x.cDateDelimeter = '\x00' then 0 else 1) = nDelim
  timeDelim : x.cTimeDelimeter ≠ '\x00'
  dateStart : x.nDateStart = nBra
  timeStart : x.nTimeStart = nBra+nYearLen+2*nDelim+5
  year : x.nYearLen = nYearLen
  month : x.nMonthLen = 2
  -- the day may be read together with the blank behind it
  day : 2 ≤ x.nDateLen ∧ x.nDateLen < 8
  hour : x.nHourLen = 2
  minute : x.nMinuteLen = 2
  sec : x.nSecLen = 2
  last : x.nLastLen = nLastLen

/-- A header with time delimiters, read with an expression that fits it. -/
theorem read_layout (x : STDateTimeExp) (bra year dl mon mday hour min sec last ket : List Char)
    (y mo d h mi s l nYearLen nLastLen : ℕ) (hx : FitsHeader x bra.length nYearLen dl.length nLastLen)
    (hyear : 0 < nYearLen ∧ nYearLen < 8) (hlast : 0 < nLastLen ∧ nLastLen < 8)
    (hy : IsField year nYearLen y) (hmo : IsField mon 2 mo) (hd : IsField mday 2 d)
    (hh : IsField hour 2 h) (hmi : IsField min 2 mi) (hs : IsField sec 2 s)
    (hl : IsField last nLastLen l) :
    parsingTimeLog (bra ++ (year ++ (dl ++ (mon ++ (dl ++ (mday ++ (' ' :: (hour ++ (':' :: (min ++
      (':' :: (sec ++ ('.' :: (last ++ ket)))))))))))))) x =
      .ok ⟨y, mo, d, h, mi, s, l⟩ := by
  have hcolon : (if x.cTimeDelimeter = '\x00' then 0 else 1) = 1 := if_neg hx.timeDelim
  have hylen := hy.length
  have hmolen := hmo.length
  have hdlen := hd.length
  have hhlen := hh.length
  have hmilen := hmi.length
  have hslen := hs.length
  unfold parsingTimeLog
  rw [hx.dateDelim, hcolon, hx.dateStart, hx.timeStart, hx.year, hx.month, hx.hour, hx.minute, hx.sec,
    hx.last]
  generalize hlog : bra ++ (year ++ (dl ++ (mon ++ (dl ++ (mday ++ (' ' :: (hour ++ (':' :: (min ++
    (':' :: (sec ++ ('.' :: (last ++ ket))))))))))))) = pLog
  have a0 : At pLog 0 (bra ++ (year ++ (dl ++ (mon ++ (dl ++ (mday ++ ([' '] ++ (hour ++ ([':'] ++
      (min ++ ([':'] ++ (sec ++ (['.'] ++ (last ++ ket)))))))))))))) := by
    exact ⟨Nat.zero_le _, hlog.symm⟩
  have a1 := a0.skip _ _ _ _ bra.length (by omega)
  have a2 := (a1.skip _ _ _ _ _ rfl).skip _ _ _ _ (bra.length+(nYearLen+dl.length)) (by omega)
  have a3 := (a2.skip _ _ _ _ _ rfl).skip _ _ _ _ (bra.length+(nYearLen+dl.length)+(2+dl.length))
    (by omega)
  have a4 := (a3.skip _ _ _ _ _ rfl).skip _ _ _ _ (bra.length+nYearLen+2*dl.length+5) (by
    simp only [List.length_singleton]
    omega)
  have a5 := (a4.skip _ _ _ _ _ rfl).skip _ _ _ _ (bra.length+nYearLen+2*dl.length+5+(2+1)) (by
    simp only [List.length_singleton]
    omega)
  have a6 := (a5.skip _ _ _ _ _ rfl).skip _ _ _ _ (bra.length+nYearLen+2*dl.length+5+(2+1)+(2+1)) (by
    simp only [List.length_singleton]
    omega)
  have a7 := (a6.skip _ _ _ _ _ rfl).skip _ _ _ _
    (bra.length+nYearLen+2*dl.length+5+(2+1)+(2+1)+(2+1)) (by
      simp only [List.length_singleton]
      omega)
  have h1 := a1.number _ _ _ _ nYearLen _ _ hy hyear.1 le_rfl hyear.2 (Or.inl rfl)
  have h2 := a2.number _ _ _ _ 2 _ _ hmo (by decide) le_rfl (by decide) (Or.inl rfl)
  have h3 := a3.number _ _ _ _ x.nDateLen _ _ hd (by decide) hx.day.1 hx.day.2 (Or.inr (by
    intro c hc
    cases hc
    rfl))
  have h4 := a4.number _ _ _ _ 2 _ _ hh (by decide) le_rfl (by decide) (Or.inl rfl)
  have h5 := a5.number _ _ _ _ 2 _ _ hmi (by decide) le_rfl (by decide) (Or.inl rfl)
  have h6 := a6.number _ _ _ _ 2 _ _ hs (by decide) le_rfl (by decide) (Or.inl rfl)
  have h7 := a7.number _ _ _ _ nLastLen _ _ hl hlast.1 le_rfl hlast.2 (Or.inl rfl)
  simp only [h1, h2, h3, h4, h5, h6, h7, ok_bind]
  rfl

theorem sprintf_char (c : Char) (f r : List Char) (args : List Arg) (hc : c ≠ '%')
    (h : sprintf f args = .ok r) : sprintf (c :: f) args = .ok (c :: r) := by
  rw [sprintf]
  · rw [h]
    rfl
  all_goals
    intros
    contradiction

theorem sprintf_delimeter (c : Char) (f r : List Char) (args : List Arg) (hc : c ≠ '%')
    (h : sprintf f args = .ok r) : sprintf (delimeter c ++ f) args = .ok (delimeter c ++ r) := by
  unfold delimeter
  split
  · exact h
  · exact sprintf_char c f r args hc h

theorem sprintf_num (w : Char) (n : ℕ) (f r : List Char) (args : List Arg)
    (h : sprintf f args = .ok r) :
    sprintf ('%' :: '0' :: w :: 'd' :: f) (.num n :: args) =
      .ok (padded (w.toNat - '0'.toNat) n ++ r) := by
  simp only [sprintf, h, ok_bind]
  rfl

theorem sprintf_text (t f r : List Char) (args : List Arg) (h : sprintf f args = .ok r) :
    sprintf ('%' :: 's' :: f) (.text t :: args) = .ok (t ++ r) := by
  simp only [sprintf, h, ok_bind]
  rfl

-- the year as the header shows it
def yearText (e : STLogDateTimeExp) (t : CDateTime) : List Char :=
  if e.nYearLen = 4 then padded 4 t.tm_year else (Nat.toDigits 10 t.tm_year).drop 2

def bra (e : STLogDateTimeExp) : List Char := if e.bBracketEnclosed then ['['] else []

def ket (e : STLogDateTimeExp) : List Char := if e.bBracketEnclosed then [']'] else []

/-- The formats of a year and a fraction. -/
structure Dated (e : STLogDateTimeExp) : Prop where
  year : e.nYearLen = 2 ∨ e.nYearLen = 4
  last : e.nLastType = .millisec ∨ e.nLastType = .microsec ∨ e.nLastType = .nanosec

theorem sprintf_last (e : STLogDateTimeExp) (h : Dated e) (t : CDateTime) :
    sprintf (lastFormat e.nLastType ++ ket e) [.num t.tv_nsec] =
      .ok ('.' :: (padded e.nLastType.digits t.tv_nsec ++ ket e)) := by
  have hket : sprintf (ket e) [] = .ok (ket e) := by
    unfold ket
    split <;> rfl
  rcases h.last with hl | hl | hl <;> rw [hl] <;>
    exact sprintf_char '.' _ _ _ (by decide) (sprintf_num _ t.tv_nsec _ _ _ hket)

-- what stands between hour, minute and second
def colon (e : STLogDateTimeExp) : List Char := if e.bTimeDelimeter then [':'] else []

theorem sprintf_colon (e : STLogDateTimeExp) (f r : List Char) (args : List Arg)
    (h : sprintf f args = .ok r) : sprintf (colon e ++ f) args = .ok (colon e ++ r) := by
  unfold colon
  split
  · exact sprintf_char ':' f r args (by decide) h
  · exact h

theorem restFormat_eq (e : STLogDateTimeExp) : restFormat e =
    delimeter e.cDateDelimeter ++ ('%' :: '0' :: '2' :: 'd' :: (delimeter e.cDateDelimeter ++
      ('%' :: '0' :: '2' :: 'd' :: ' ' :: '%' :: '0' :: '2' :: 'd' :: (colon e ++
      ('%' :: '0' :: '2' :: 'd' :: (colon e ++ ('%' :: '0' :: '2' :: 'd' ::
      (lastFormat e.nLastType ++ ket e)))))))) := by
  unfold restFormat colon ket
  cases e.bTimeDelimeter <;> simp

theorem sprintf_rest (e : STLogDateTimeExp) (h : Dated e) (t : CDateTime)
    (hd : e.cDateDelimeter ≠ '%') :
    sprintf (restFormat e)
      [.num t.tm_mon, .num t.tm_mday, .num t.tm_hour, .num t.tm_min, .num t.tm_sec, .num t.tv_nsec] =
    .ok (delimeter e.cDateDelimeter ++ (padded 2 t.tm_mon ++ (delimeter e.cDateDelimeter ++
      (padded 2 t.tm_mday ++ (' ' :: (padded 2 t.tm_hour ++ (colon e ++ (padded 2 t.tm_min ++
      (colon e ++ (padded 2 t.tm_sec ++
      ('.' :: (padded e.nLastType.digits t.tv_nsec ++ ket e)))))))))))) := by
  have hlast := sprintf_last e h t
  rw [restFormat_eq]
  apply sprintf_delimeter _ _ _ _ hd
  apply sprintf_num '2'
  apply sprintf_delimeter _ _ _ _ hd
  apply sprintf_num '2'
  apply sprintf_char _ _ _ _ (by decide)
  apply sprintf_num '2'
  apply sprintf_colon
  apply sprintf_num '2'
  apply sprintf_colon
  apply sprintf_num '2'
  exact hlast

/-- The header as text. -/
theorem setString_eq (e : STLogDateTimeExp) (h : Dated e) (t : CDateTime)
    (hd : e.cDateDelimeter ≠ '%') :
    setString t (setDateTimeFormat e .none).1 (setDateTimeFormat e .none).2 =
    .ok (bra e ++ (yearText e t ++ (delimeter e.cDateDelimeter ++ (padded 2 t.tm_mon ++
      (delimeter e.cDateDelimeter ++ (padded 2 t.tm_mday ++ (' ' :: (padded 2 t.tm_hour ++
      (colon e ++ (padded 2 t.tm_min ++ (colon e ++ (padded 2 t.tm_sec ++
      ('.' :: (padded e.nLastType.digits t.tv_nsec ++ ket e)))))))))))))) := by
  have hrest := sprintf_rest e h t hd
  have hbra (f r : List Char) (args : List Arg) (hf : sprintf f args = .ok r) :
      sprintf (bra e ++ f) args = .ok (bra e ++ r) := by
    unfold bra
    split
    · exact sprintf_char '[' f r args (by decide) hf
    · exact hf
  have hargs : setString t (setDateTimeFormat e .none).1 (setDateTimeFormat e .none).2 =
      sprintf (setDateTimeFormat e .none).1 (if e.nYearLen = 4 then
        [.num t.tm_year, .num t.tm_mon, .num t.tm_mday, .num t.tm_hour, .num t.tm_min, .num t.tm_sec,
          .num t.tv_nsec]
      else [.text ((Nat.toDigits 10 t.tm_year).drop 2), .num t.tm_mon, .num t.tm_mday, .num t.tm_hour,
        .num t.tm_min, .num t.tm_sec, .num t.tv_nsec]) := by
    rcases h.year with hy | hy <;> rcases h.last with hl | hl | hl <;>
      simp [setDateTimeFormat, setString, hy, hl]
  rw [hargs]
  rcases h.year with hy | hy
  · simp only [setDateTimeFormat, yearText, hy, show (2 : ℕ) ≠ 4 by decide, if_true, if_false,
      List.append_assoc]
    exact hbra _ _ _ (sprintf_text _ _ _ _ hrest)
  · simp only [setDateTimeFormat, yearText, hy, if_true, List.append_assoc]
    exact hbra _ _ _ (sprintf_num '4' _ _ _ _ hrest)

/-- A date delimiter that means nothing to `printf` and to the expression. -/
structure Plain (c : Char) : Prop where
  ne_nul : c ≠ '\x00'
  ne_percent : c ≠ '%'
  notMem : c ∉ ['y', 'm', 'd', 'h', 's']
  notDigit : c.isDigit = false

def timeSpell (e : STLogDateTimeExp) : List Char :=
  ' ' :: ((if e.bTimeDelimeter then ['h', 'h', ':', 'm', 'm', ':', 's', 's']
    else ['h', 'h', 'm', 'm', 's', 's']) ++ '.' :: (Nat.toDigits 10 e.nLastType.digits ++ ket e))

theorem spell_eq (e : STLogDateTimeExp) : spell e =
    bra e ++ (List.replicate e.nYearLen 'y' ++ (delimeter e.cDateDelimeter ++ ('m' :: 'm' ::
      (delimeter e.cDateDelimeter ++ ('d' :: 'd' :: timeSpell e))))) := by
  simp [spell, timeSpell, bra, ket]

theorem blank_notDigit : ' '.isDigit = false := rfl

theorem colon_notDigit : ':'.isDigit = false := rfl

theorem dot_notDigit : '.'.isDigit = false := rfl

theorem dot_ne_nul : '.' ≠ '\x00' := by decide

theorem bracket_notDigit : '['.isDigit = false := rfl

-- From column 8 on the expression of the time is read as it is meant.
theorem parse_time (e : STLogDateTimeExp) (h : Dated e) (nPos : ℕ) (x : STDateTimeExp) (b : Bool)
    (hpos : 8 ≤ nPos) (hx : x.nHourLen = 0) :
    parseExp nPos x b (timeSpell e) =
      (true, { x with
        nTimeStart := nPos+1
        cTimeDelimeter := '.'
        nHourLen := 2
        nMinuteLen := x.nMinuteLen+2
        nSecLen := x.nSecLen+2
        nLastLen := e.nLastType.digits }) := by
  have hlt (k : ℕ) : ¬nPos+k < 8 := by
    omega
  have hlt0 : ¬nPos < 8 := hlt 0
  have hlast (k : ℕ) (hk : k = e.nLastType.digits) :
      ∃ c s, Nat.toDigits 10 k ++ ket e = c :: s ∧ c.isDigit = true ∧ (atoi (c :: s)).toNat = k ∧
        c ∉ ['y', 'm', 'd', 'h', 's'] := by
    unfold ket
    rcases h.last with hl | hl | hl <;> rw [hk, hl] <;> split <;>
      exact ⟨_, _, rfl, rfl, rfl, by decide⟩
  obtain ⟨c, s, hcs, hdigit, hval, hmem⟩ := hlast _ rfl
  simp only [List.mem_cons, List.not_mem_nil, or_false, not_or] at hmem
  obtain ⟨h1, h2, h3, h4, h5⟩ := hmem
  unfold timeSpell
  rw [hcs]
  cases e.bTimeDelimeter <;>
    simp [parseExp, hlt, hlt0, hx, hdigit, hval, h1, h2, h3, h4, h5, Nat.add_assoc, blank_notDigit,
      colon_notDigit, dot_notDigit]

theorem parse_plain (e : STLogDateTimeExp) (h : Dated e) (hp : Plain e.cDateDelimeter) :
    (parsingDateTimeExp (spell e)).2 =
      ⟨(bra e).length, (bra e).length+e.nYearLen+7, e.cDateDelimeter, '.', e.nYearLen, 2, 2, 2, 2, 2,
        e.nLastType.digits⟩ := by
  have hmem := hp.notMem
  simp only [List.mem_cons, List.not_mem_nil, or_false, not_or] at hmem
  obtain ⟨h1, h2, h3, h4, h5⟩ := hmem
  have hdelim : delimeter e.cDateDelimeter = [e.cDateDelimeter] := if_neg hp.ne_nul
  rw [spell_eq, hdelim]
  unfold parsingDateTimeExp bra
  rcases h.year with hy | hy <;> cases e.bBracketEnclosed <;>
    simp [hy, parseExp, List.replicate, h1, h2, h3, h4, h5, hp.notDigit, STDateTimeExp.zero,
      bracket_notDigit, parse_time e h]

theorem parse_none (e : STLogDateTimeExp) (h : Dated e) (hd : e.cDateDelimeter = '\x00')
    (hy : e.nYearLen = 4) (hb : e.bBracketEnclosed = false) :
    (parsingDateTimeExp (spell e)).2 =
      ⟨0, 9, '\x00', '.', 4, 2, 2, 2, 2, 2, e.nLastType.digits⟩ := by
  have hdelim : delimeter e.cDateDelimeter = [] := if_pos hd
  rw [spell_eq, hdelim]
  simp [parsingDateTimeExp, bra, hb, hy, parseExp, List.replicate, STDateTimeExp.zero,
    parse_time e h]

-- The second delimiter counts as a column of the day.
theorem parse_d (e : STLogDateTimeExp) (h : Dated e) (hd : e.cDateDelimeter = 'd')
    (hb : e.bBracketEnclosed = true) :
    (parsingDateTimeExp (spell e)).2 =
      ⟨1, e.nYearLen+8, '[', '.', e.nYearLen, 2, 4, 2, 2, 2, e.nLastType.digits⟩ := by
  have hdelim : delimeter e.cDateDelimeter = ['d'] := by
    rw [hd]
    rfl
  rw [spell_eq, hdelim]
  rcases h.year with hy | hy <;>
    simp [parsingDateTimeExp, bra, hb, hy, parseExp, List.replicate, STDateTimeExp.zero,
      bracket_notDigit, parse_time e h]

/-- The formats that the analyzer reads. -/
def Readable (e : STLogDateTimeExp) : Prop :=
  e.nLastType ≠ .nanosec ∧ e.bTimeDelimeter = true ∧
  if e.cDateDelimeter = '\x00' then e.nYearLen = 4 ∧ e.bBracketEnclosed = false
  else if e.cDateDelimeter = 'd' then e.bBracketEnclosed = true
  else e.cDateDelimeter ∉ ['%', 'y', 'm', 'h', 's'] ∧ e.cDateDelimeter.isDigit = false

instance (e : STLogDateTimeExp) : Decidable (Readable e) := by
  unfold Readable
  infer_instance

theorem isField_year (e : STLogDateTimeExp) (h : Dated e) (t : CDateTime)
    (ht : 1000 ≤ t.tm_year ∧ t.tm_year ≤ 9999) :
    IsField (yearText e t) e.nYearLen (if e.nYearLen = 4 then t.tm_year else t.tm_year%100) := by
  unfold yearText
  rcases h.year with hy | hy
  · obtain ⟨hlen, hdigits, hval⟩ := year_spec t.tm_year ht
    rw [hy, if_neg (by decide), if_neg (by decide)]
    exact ⟨hlen, hdigits, hval⟩
  · rw [hy, if_pos rfl, if_pos rfl]
    apply isField_padded _ _ (by decide)
    omega

theorem mday_le (m y : ℕ) : getDaysPerMonth m y ≤ 31 := by
  unfold getDaysPerMonth
  split
  · split_ifs <;> omega
  · by_cases hm : m < 13
    · interval_cases m <;> decide
    · rw [List.getD_eq_getElem?_getD, List.getElem?_eq_none (by simpa using hm)]
      exact Nat.zero_le 31

-- An expression that fits the header gives back what the header shows.
theorem roundTrip_of_fits (e : STLogDateTimeExp) (h : Dated e) (t : CDateTime)
    (ht : Valid e.nLastType.digits t) (hlast : e.nLastType ≠ .nanosec)
    (hcolon : e.bTimeDelimeter = true) (hpercent : e.cDateDelimeter ≠ '%')
    (hx : FitsHeader (parsingDateTimeExp (spell e)).2 (bra e).length e.nYearLen
      (delimeter e.cDateDelimeter).length e.nLastType.digits) :
    roundTrip e t = .ok (shown e t) := by
  have hc : colon e = [':'] := by
    rw [colon, hcolon]
    rfl
  have htext := setString_eq e h t hpercent
  rw [hc] at htext
  have hmday := mday_le t.tm_mon t.tm_year
  have hyear := h.year
  have hdigits : 0 < e.nLastType.digits ∧ e.nLastType.digits < 8 := by
    rcases h.last with hl | hl | hl
    · rw [hl]
      decide
    · rw [hl]
      decide
    · exact absurd hl hlast
  have hread := read_layout (parsingDateTimeExp (spell e)).2 (bra e) (yearText e t)
    (delimeter e.cDateDelimeter) (padded 2 t.tm_mon) (padded 2 t.tm_mday) (padded 2 t.tm_hour)
    (padded 2 t.tm_min) (padded 2 t.tm_sec) (padded e.nLastType.digits t.tv_nsec) (ket e) _ t.tm_mon
    t.tm_mday t.tm_hour t.tm_min t.tm_sec t.tv_nsec e.nYearLen e.nLastType.digits hx (by omega) hdigits
    (isField_year e h t ht.year) (isField_padded _ _ (by decide) (by have := ht.mon; omega))
    (isField_padded _ _ (by decide) (by have := ht.mday; omega))
    (isField_padded _ _ (by decide) (by have := ht.hour; omega))
    (isField_padded _ _ (by decide) (by have := ht.min; omega))
    (isField_padded _ _ (by decide) (by have := ht.sec; omega))
    (isField_padded _ _ hdigits.1 ht.nsec)
  simp only [roundTrip, htext, ok_bind]
  rw [shown]
  rcases h.year with hy | hy
  · simpa [hy] using hread
  · simpa [hy] using hread

-- The formats without a date delimiter, with 'd' and with a plain one.
theorem fitsHeader_none (e : STLogDateTimeExp) (h : Dated e) (hd : e.cDateDelimeter = '\x00')
    (hy : e.nYearLen = 4) (hb : e.bBracketEnclosed = false) :
    FitsHeader (parsingDateTimeExp (spell e)).2 (bra e).length e.nYearLen
      (delimeter e.cDateDelimeter).length e.nLastType.digits := by
  have hbra : bra e = [] := by
    rw [bra, hb]
    rfl
  have hdelim : delimeter e.cDateDelimeter = [] := if_pos hd
  rw [parse_none e h hd hy hb, hbra, hdelim, hy]
  exact ⟨rfl, dot_ne_nul, rfl, rfl, rfl, rfl, ⟨le_rfl, show 2 < 8 by decide⟩, rfl, rfl, rfl, rfl⟩

theorem fitsHeader_d (e : STLogDateTimeExp) (h : Dated e) (hd : e.cDateDelimeter = 'd')
    (hb : e.bBracketEnclosed = true) :
    FitsHeader (parsingDateTimeExp (spell e)).2 (bra e).length e.nYearLen
      (delimeter e.cDateDelimeter).length e.nLastType.digits := by
  have hbra : bra e = ['['] := by
    rw [bra, hb]
    rfl
  have hdelim : delimeter e.cDateDelimeter = ['d'] := by
    rw [hd]
    rfl
  rw [parse_d e h hd hb, hbra, hdelim]
  have hstart : e.nYearLen+8 = 1+e.nYearLen+2*1+5 := by
    omega
  exact ⟨rfl, dot_ne_nul, rfl, hstart, rfl, rfl, show 2 ≤ 4 ∧ 4 < 8 by decide, rfl, rfl, rfl, rfl⟩

theorem fitsHeader_plain (e : STLogDateTimeExp) (h : Dated e) (hp : Plain e.cDateDelimeter) :
    FitsHeader (parsingDateTimeExp (spell e)).2 (bra e).length e.nYearLen
      (delimeter e.cDateDelimeter).length e.nLastType.digits := by
  have hdelim : delimeter e.cDateDelimeter = [e.cDateDelimeter] := if_neg hp.ne_nul
  rw [parse_plain e h hp, hdelim]
  exact ⟨if_neg hp.ne_nul, dot_ne_nul, rfl, rfl, rfl, rfl, ⟨le_rfl, show 2 < 8 by decide⟩, rfl, rfl,
    rfl, rfl⟩

theorem readsBack_of_readable (e : STLogDateTimeExp) (h : Dated e) (hr : Readable e) : ReadsBack e := by
  intro t ht
  obtain ⟨hlast, hcolon, hdate⟩ := hr
  by_cases hnul : e.cDateDelimeter = '\x00'
  · rw [if_pos hnul] at hdate
    exact roundTrip_of_fits e h t ht hlast hcolon (by rw [hnul]; decide)
      (fitsHeader_none e h hnul hdate.1 hdate.2)
  · rw [if_neg hnul] at hdate
    by_cases hd : e.cDateDelimeter = 'd'
    · rw [if_pos hd] at hdate
      exact roundTrip_of_fits e h t ht hlast hcolon (by rw [hd]; decide) (fitsHeader_d e h hd hdate)
    · rw [if_neg hd] at hdate
      have hp : Plain e.cDateDelimeter := by
        refine ⟨hnul, ?_, ?_, hdate.2⟩
        · intro hc
          apply hdate.1
          rw [hc]
          decide
        · intro hmem
          apply hdate.1
          simp only [List.mem_cons, List.not_mem_nil, or_false] at hmem ⊢
          tauto
      exact roundTrip_of_fits e h t ht hlast hcolon hp.ne_percent (fitsHeader_plain e h hp)

-- The time that a format is tried on: no two of its fields agree.
def trial (k : DTType) : CDateTime := ⟨2011, 12, 13, 14, 25, 36, 123456789/10^(9-k.digits)⟩

theorem trial_valid (k : DTType) : Valid k.digits (trial k) := by
  cases k <;> constructor <;> decide

-- The characters that mean something to `printf` or to the expression, the digits aside.
def special : List Char := ['\x00', '%', 'y', 'm', 'd', 'h', 's']

def trialFits (e : STLogDateTimeExp) : Bool :=
  (roundTrip e (trial e.nLastType)).toOption = some (shown e (trial e.nLastType))

theorem trial_special_all : special.all (fun c => [true, false].all (fun b => [true, false].all (fun t =>
    [2, 4].all (fun y => [DTType.millisec, .microsec, .nanosec].all (fun k =>
      decide (Readable ⟨b, c, t, y, k⟩) || !trialFits ⟨b, c, t, y, k⟩))))) = true := by
  decide +kernel

theorem trial_special (e : STLogDateTimeExp) (h : Dated e) (hc : e.cDateDelimeter ∈ special)
    (hr : ¬Readable e) : trialFits e = false := by
  have hyear : e.nYearLen ∈ [2, 4] := by
    simpa using h.year
  have hlast : e.nLastType ∈ [DTType.millisec, .microsec, .nanosec] := by
    simpa using h.last
  have hall := List.all_eq_true.mp trial_special_all e.cDateDelimeter hc
  have hall := List.all_eq_true.mp hall e.bBracketEnclosed (by simp)
  have hall := List.all_eq_true.mp hall e.bTimeDelimeter (by simp)
  have hall := List.all_eq_true.mp hall e.nYearLen hyear
  have hall := List.all_eq_true.mp hall e.nLastType hlast
  rw [decide_eq_false hr] at hall
  simpa using hall

theorem parsingTimeLog_ok (pLog : List Char) (x : STDateTimeExp) (r : STDTime)
    (h : parsingTimeLog pLog x = .ok r) :
    x.nLastLen < 8 ∧ field pLog (x.nDateStart+(x.nYearLen+if x.cDateDelimeter = '\x00' then 0 else 1))
      x.nMonthLen = .ok r.nMonth ∧
    field pLog (x.nTimeStart+(x.nHourLen+if x.cTimeDelimeter = '\x00' then 0 else 1))
      x.nMinuteLen = .ok r.nMinute := by
  unfold parsingTimeLog at h
  obtain ⟨nYear, -, h⟩ := (bind_eq_ok _ _ _).mp h
  obtain ⟨nMonth, hmon, h⟩ := (bind_eq_ok _ _ _).mp h
  obtain ⟨nDay, -, h⟩ := (bind_eq_ok _ _ _).mp h
  obtain ⟨nHour, -, h⟩ := (bind_eq_ok _ _ _).mp h
  obtain ⟨nMinute, hmin, h⟩ := (bind_eq_ok _ _ _).mp h
  obtain ⟨nSec, -, h⟩ := (bind_eq_ok _ _ _).mp h
  obtain ⟨nLast, hlast, h⟩ := (bind_eq_ok _ _ _).mp h
  cases h
  refine ⟨?_, hmon, hmin⟩
  by_contra hlen
  rw [field, if_neg (fun hcond => hlen hcond.1)] at hlast
  cases hlast

-- A digit ends the expression, so that no column is left for the month.
theorem parse_digit (e : STLogDateTimeExp) (h : Dated e) (hd : e.cDateDelimeter.isDigit = true) :
    (parsingDateTimeExp (spell e)).2.nMonthLen = 0 := by
  have hne (c : Char) (hc : c.isDigit = false) : e.cDateDelimeter ≠ c := by
    rintro rfl
    rw [hd] at hc
    cases hc
  have hdelim : delimeter e.cDateDelimeter = [e.cDateDelimeter] := if_neg (hne '\x00' rfl)
  rw [spell_eq, hdelim]
  unfold parsingDateTimeExp bra
  rcases h.year with hy | hy <;> cases e.bBracketEnclosed <;>
    simp [hy, parseExp, List.replicate, hne 'y' rfl, hne 'm' rfl, hne 'd' rfl, hne 'h' rfl, hne 's' rfl,
      hd, STDateTimeExp.zero, bracket_notDigit]

-- A field without columns is zero wherever it lies.
theorem field_zero (pLog : List Char) (nPos : ℕ) (n : ℤ) (h : field pLog nPos 0 = .ok n) : n = 0 := by
  rw [field, if_pos ⟨by decide, Or.inl rfl⟩] at h
  exact (Except.ok.inj h).symm

theorem month_with_digit (e : STLogDateTimeExp) (h : Dated e) (hd : e.cDateDelimeter.isDigit = true)
    (t : CDateTime) (r : STDTime) (hr : roundTrip e t = .ok r) : r.nMonth = 0 := by
  obtain ⟨header, -, hread⟩ := (bind_eq_ok _ _ _).mp hr
  have hmon := (parsingTimeLog_ok _ _ _ hread).2.1
  rw [parse_digit e h hd] at hmon
  exact field_zero _ _ _ hmon

-- Without colons the dot of the fraction is still a time delimiter, and the minute is read from its
-- second digit on.
theorem minute_without_colon (e : STLogDateTimeExp) (h : Dated e) (hp : Plain e.cDateDelimeter)
    (hcolon : e.bTimeDelimeter = false) (r : STDTime)
    (hr : roundTrip e (trial e.nLastType) = .ok r) : r.nMinute = 53 := by
  have htext := setString_eq e h (trial e.nLastType) hp.ne_percent
  have hc : colon e = [] := by
    rw [colon, hcolon]
    rfl
  have hdelim : delimeter e.cDateDelimeter = [e.cDateDelimeter] := if_neg hp.ne_nul
  have hclock : padded 2 12 = ['1', '2'] ∧ padded 2 13 = ['1', '3'] ∧ padded 2 14 = ['1', '4'] ∧
      padded 2 25 = ['2', '5'] ∧ padded 2 36 = ['3', '6'] := ⟨rfl, rfl, rfl, rfl, rfl⟩
  obtain ⟨hmon, hmday, hhour, hminute, hsec⟩ := hclock
  rw [show (trial e.nLastType).tm_mon = 12 from rfl, show (trial e.nLastType).tm_mday = 13 from rfl,
    show (trial e.nLastType).tm_hour = 14 from rfl, show (trial e.nLastType).tm_min = 25 from rfl,
    show (trial e.nLastType).tm_sec = 36 from rfl] at htext
  rw [hc, hdelim, hmon, hmday, hhour, hminute, hsec] at htext
  simp only [roundTrip, htext, ok_bind] at hr
  have hmin := (parsingTimeLog_ok _ _ _ hr).2.2
  rw [parse_plain e h hp] at hmin
  simp only [if_neg dot_ne_nul] at hmin
  have hylen := (isField_year e h (trial e.nLastType) (trial_valid e.nLastType).year).length
  generalize '.' :: (padded e.nLastType.digits (trial e.nLastType).tv_nsec ++ ket e) = tail at hmin
  generalize hlog : bra e ++ (yearText e (trial e.nLastType) ++ _) = pLog at hmin
  have a0 : At pLog 0 (bra e ++ (yearText e (trial e.nLastType) ++ ([e.cDateDelimeter, '1', '2',
      e.cDateDelimeter, '1', '3', ' ', '1', '4', '2'] ++ (['5', '3'] ++ '6' :: tail)))) := by
    exact ⟨Nat.zero_le _, hlog.symm⟩
  have a1 := (a0.skip _ _ _ _ _ rfl).skip _ _ _ _ _ rfl
  have a2 := a1.skip _ _ _ _ ((bra e).length+e.nYearLen+7+(2+1)) (by
    rw [hylen]
    simp only [List.length_cons, List.length_nil]
    omega)
  have hdigits : AllDigits ['5', '3'] := List.all_eq_true.mp (by decide)
  have hread := a2.number _ _ _ _ 2 2 53 ⟨rfl, hdigits, rfl⟩ (by decide) le_rfl (by decide) (Or.inl rfl)
  rw [hread] at hmin
  exact (Except.ok.inj hmin).symm

theorem mem_of_not_plain (c : Char) (h : ¬Plain c) (hd : c.isDigit = false) : c ∈ special := by
  by_contra hmem
  simp only [special, List.mem_cons, List.not_mem_nil, or_false, not_or] at hmem
  apply h
  refine ⟨hmem.1, hmem.2.1, ?_, hd⟩
  simp only [List.mem_cons, List.not_mem_nil, or_false, not_or]
  exact hmem.2.2

theorem readable_of_plain (e : STLogDateTimeExp) (hp : Plain e.cDateDelimeter)
    (hlast : e.nLastType ≠ .nanosec) (hcolon : e.bTimeDelimeter = true) : Readable e := by
  have hmem := hp.notMem
  have hpercent := hp.ne_percent
  simp only [List.mem_cons, List.not_mem_nil, or_false, not_or] at hmem
  refine ⟨hlast, hcolon, ?_⟩
  rw [if_neg hp.ne_nul, if_neg hmem.2.2.1]
  refine ⟨?_, hp.notDigit⟩
  simp only [List.mem_cons, List.not_mem_nil, or_false, not_or]
  tauto

theorem not_readsBack (e : STLogDateTimeExp) (h : Dated e) (hr : ¬Readable e) : ¬ReadsBack e := by
  intro hback
  have hback := hback (trial e.nLastType) (trial_valid e.nLastType)
  by_cases hp : Plain e.cDateDelimeter
  · by_cases hlast : e.nLastType = .nanosec
    · -- the nine digits of the fraction do not fit into the buffer
      rw [roundTrip, setString_eq e h _ hp.ne_percent] at hback
      have hlen := (parsingTimeLog_ok _ _ _ hback).1
      rw [parse_plain e h hp, hlast] at hlen
      exact absurd hlen (show ¬9 < 8 by decide)
    · have hcolon : e.bTimeDelimeter = false := by
        by_contra hcolon
        exact hr (readable_of_plain e hp hlast (by simpa using hcolon))
      have hmin := minute_without_colon e h hp hcolon _ hback
      exact absurd hmin (by simp [shown, trial])
  · by_cases hd : e.cDateDelimeter.isDigit = true
    · have hmon := month_with_digit e h hd _ _ hback
      exact absurd hmon (by simp [shown, trial])
    · have hfits := trial_special e h (mem_of_not_plain e.cDateDelimeter hp (by simpa using hd)) hr
      rw [trialFits, hback] at hfits
      exact absurd hfits (by simp [Except.toOption])

/-- The analyzer reads back what the logger writes exactly in the readable formats. -/
theorem readsBack_iff_readable (e : STLogDateTimeExp) (h : Dated e) : ReadsBack e ↔ Readable e := by
  constructor
  · intro hback
    by_contra hr
    exact not_readsBack e h hr hback
  · exact readsBack_of_readable e h

theorem readsBack_slash_millisec :
    Dated ⟨true, '/', true, 4, .millisec⟩ ∧ ReadsBack ⟨true, '/', true, 4, .millisec⟩ := by
  have hdated : Dated ⟨true, '/', true, 4, .millisec⟩ := ⟨Or.inr rfl, Or.inl rfl⟩
  exact ⟨hdated, (readsBack_iff_readable _ hdated).mpr (by decide)⟩

theorem not_readsBack_nanosec :
    ¬∀ e : STLogDateTimeExp, (e.nYearLen = 2 ∨ e.nYearLen = 4) →
      (e.nLastType = .millisec ∨ e.nLastType = .microsec ∨ e.nLastType = .nanosec) → ReadsBack e := by
  intro hall
  have hback := hall ⟨true, '/', true, 4, .nanosec⟩ (Or.inr rfl) (Or.inr (Or.inr rfl))
  have hread := hback (trial .nanosec) (trial_valid .nanosec)
  have hfault : (roundTrip ⟨true, '/', true, 4, .nanosec⟩ (trial .nanosec)).toOption = none := by
    decide +kernel
  rw [hread] at hfault
  cases hfault

end Leviathan.DateTime
