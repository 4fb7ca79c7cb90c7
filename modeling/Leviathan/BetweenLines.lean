import Leviathan.IntervalStats
import Leviathan.Runs
import Leviathan.StringSearch
import Leviathan.TimeInterval

/-! `CAnalyzer_BetweenLines` (LogAnalyzer, Analyzer_BetweenLines.cpp): the time from a line with one keyword to
a line with another.  All classes read the one time of the line in `g_stConfig`. -/
namespace Leviathan.BetweenLines

open CmString CFileTime DateTime IntervalStats LogTime Runs

section Model

/-- `E_BETWEEN_POS`. -/
inductive EBetweenPos
  | line1
  | line2
  deriving DecidableEq

structure STBetween_Class where
  pKeyword : EBetweenPos → Option CString
  stPreTime : STDTime
  stInterval : STInterval

/-- Whether `ehstrstr` meets the keyword; a keyword may be NULL. -/
def hit (pLine : CString) (pKeyword : Option CString) : Except Fault Bool :=
  match pKeyword with
  | none => .error .nullRead
  | some psubstr => .ok (ehstrstr pLine psubstr).isSome

-- what `nValue` in `getMiliseconds` holds when it is not set, and the digits of a fraction
variable (nValue : ℤ) (nLastLen : ℕ)

/-- The interval up to the line, which `getTimeInterval` takes off from the time of the line. -/
def endClass (stCurTime : STDTime) (pClass : STBetween_Class) :
    Except Fault (STDTime × STBetween_Class) := do
  let (stCurTime, stRes) ← getTimeInterval nLastLen pClass.stPreTime stCurTime
  let n ← getMiliseconds nValue stRes nLastLen
  let stInterval ← record pClass.stInterval (toFloat n)
  return (stCurTime, { pClass with stInterval := stInterval })

/-- `parsingClass`: what is left in `stCurTime`, and the class. -/
def parsingClass (pLine : CString) (stCurTime : STDTime) (pClass : STBetween_Class) :
    Except Fault (STDTime × STBetween_Class) := do
  let bLine1 ← hit pLine (pClass.pKeyword .line1)
  if bLine1 then return (stCurTime, { pClass with stPreTime := stCurTime })
  else
    let bLine2 ← hit pLine (pClass.pKeyword .line2)
    if bLine2 then endClass nValue nLastLen stCurTime pClass
    else return (stCurTime, pClass)

/-- `parsingLine` over the classes of `m_pClassList`. -/
def parsingLine (pLine : CString) :
    STDTime → List STBetween_Class → Except Fault (STDTime × List STBetween_Class)
  | stCurTime, [] => .ok (stCurTime, [])
  | stCurTime, pClass :: rest => do
    let (stCurTime, pClass) ← parsingClass nValue nLastLen pLine stCurTime pClass
    let (stCurTime, rest) ← parsingLine pLine stCurTime rest
    return (stCurTime, pClass :: rest)

/-- A line, and the time that `FileProc` reads from it into `stCurTime`. -/
structure TimedLine where
  text : CString
  time : STDTime

/-- A line of a file. -/
def step (classes : List STBetween_Class) (line : TimedLine) : Option (List STBetween_Class) :=
  match parsingLine nValue nLastLen line.text line.time classes with
  | .ok (_, classes) => some classes
  | .error _ => none

end Model

/-- The line ends an interval of the class. -/
def Ends (line : CString) (c : STBetween_Class) : Prop :=
  hit line (c.pKeyword .line1) = .ok false ∧ hit line (c.pKeyword .line2) = .ok true

/-- No field of `t1` is greater than the one of `t2`, so that a difference borrows nothing. -/
structure NoBorrow (t1 t2 : STDTime) : Prop where
  last : t1.nLast ≤ t2.nLast
  sec : t1.nSec ≤ t2.nSec
  minute : t1.nMinute ≤ t2.nMinute
  hour : t1.nHour ≤ t2.nHour
  day : t1.nDay ≤ t2.nDay
  month : t1.nMonth ≤ t2.nMonth

instance (line : CString) (c : STBetween_Class) : Decidable (Ends line c) :=
  inferInstanceAs (Decidable (_ ∧ _))

instance (t1 t2 : STDTime) : Decidable (NoBorrow t1 t2) :=
  decidable_of_iff (t1.nLast ≤ t2.nLast ∧ t1.nSec ≤ t2.nSec ∧ t1.nMinute ≤ t2.nMinute ∧
      t1.nHour ≤ t2.nHour ∧ t1.nDay ≤ t2.nDay ∧ t1.nMonth ≤ t2.nMonth)
    ⟨fun ⟨hl, hs, hi, hh, hd, hm⟩ => ⟨hl, hs, hi, hh, hd, hm⟩,
      fun h => ⟨h.last, h.sec, h.minute, h.hour, h.day, h.month⟩⟩

section Time

variable (t1 t2 : STDTime)

theorem inInt_ok (z n : ℤ) (h : inInt z = .ok n) : n = z := by
  unfold inInt at h
  split_ifs at h
  exact (Except.ok.inj h).symm

theorem fieldInterval_ok (n2 n1 nMore nBase : ℤ) (r : ℤ × ℤ)
    (h : fieldInterval n2 n1 nMore nBase = .ok r) : r.2 = taken n2 n1 := by
  unfold fieldInterval at h
  unfold taken
  split_ifs at h ⊢
  · obtain ⟨n, -, h⟩ := (bind_eq_ok _ _ _).mp h
    obtain ⟨m, -, h⟩ := (bind_eq_ok _ _ _).mp h
    exact (congrArg Prod.snd (Except.ok.inj h)).symm
  · obtain ⟨m, -, h⟩ := (bind_eq_ok _ _ _).mp h
    exact (congrArg Prod.snd (Except.ok.inj h)).symm

-- Whatever the times are, the fields of the second one are lessened by what is borrowed.
theorem getTimeInterval_time (k : ℕ) (r : STDTime × STDTime) (h : getTimeInterval k t1 t2 = .ok r) :
    r.1 = lessened t1 t2 := by
  unfold getTimeInterval at h
  obtain ⟨nValue, -, h⟩ := (bind_eq_ok _ _ _).mp h
  obtain ⟨last, hlast, h⟩ := (bind_eq_ok _ _ _).mp h
  obtain ⟨nSec, hsec, h⟩ := (bind_eq_ok _ _ _).mp h
  obtain ⟨sec, hsec', h⟩ := (bind_eq_ok _ _ _).mp h
  obtain ⟨nMinute, hminute, h⟩ := (bind_eq_ok _ _ _).mp h
  obtain ⟨minute, hminute', h⟩ := (bind_eq_ok _ _ _).mp h
  obtain ⟨nHour, hhour, h⟩ := (bind_eq_ok _ _ _).mp h
  obtain ⟨hour, hhour', h⟩ := (bind_eq_ok _ _ _).mp h
  obtain ⟨nDay, hday, h⟩ := (bind_eq_ok _ _ _).mp h
  obtain ⟨nDays, -, h⟩ := (bind_eq_ok _ _ _).mp h
  obtain ⟨day, hday', h⟩ := (bind_eq_ok _ _ _).mp h
  obtain ⟨nMonth, hmonth, h⟩ := (bind_eq_ok _ _ _).mp h
  obtain ⟨month, hmonth', h⟩ := (bind_eq_ok _ _ _).mp h
  obtain ⟨nYear, hyear, h⟩ := (bind_eq_ok _ _ _).mp h
  obtain ⟨year, -, h⟩ := (bind_eq_ok _ _ _).mp h
  have hs := inInt_ok _ _ hsec
  have hi := inInt_ok _ _ hminute
  have hh := inInt_ok _ _ hhour
  have hd := inInt_ok _ _ hday
  have hm := inInt_ok _ _ hmonth
  have hy := inInt_ok _ _ hyear
  rw [fieldInterval_ok _ _ _ _ _ hlast] at hs
  rw [fieldInterval_ok _ _ _ _ _ hsec', hs] at hi
  rw [fieldInterval_ok _ _ _ _ _ hminute', hi] at hh
  rw [fieldInterval_ok _ _ _ _ _ hhour', hh] at hd
  rw [fieldInterval_ok _ _ _ _ _ hday', hd] at hm
  rw [fieldInterval_ok _ _ _ _ _ hmonth', hm] at hy
  rw [← Except.ok.inj h, hs, hi, hh, hd, hm, hy]
  rfl

theorem taken_eq_zero_iff (n2 n1 : ℤ) : taken n2 n1 = 0 ↔ n1 ≤ n2 := by
  rcases taken_cases n2 n1 with h | h <;> omega

theorem sub_taken_eq_iff (n n2 n1 : ℤ) : n-taken n2 n1 = n ↔ n1 ≤ n2 := by
  rw [sub_eq_self, taken_eq_zero_iff]

theorem lessened_eq_iff : lessened t1 t2 = t2 ↔ NoBorrow t1 t2 := by
  constructor
  · intro h
    have hsec : (lessened t1 t2).nSec = t2.nSec := congrArg STDTime.nSec h
    have hminute : (lessened t1 t2).nMinute = t2.nMinute := congrArg STDTime.nMinute h
    have hhour : (lessened t1 t2).nHour = t2.nHour := congrArg STDTime.nHour h
    have hday : (lessened t1 t2).nDay = t2.nDay := congrArg STDTime.nDay h
    have hmonth : (lessened t1 t2).nMonth = t2.nMonth := congrArg STDTime.nMonth h
    have hyear : (lessened t1 t2).nYear = t2.nYear := congrArg STDTime.nYear h
    constructor
    · exact (sub_taken_eq_iff _ _ _).mp hsec
    · rw [← hsec]
      exact (sub_taken_eq_iff _ _ _).mp hminute
    · rw [← hminute]
      exact (sub_taken_eq_iff _ _ _).mp hhour
    · rw [← hhour]
      exact (sub_taken_eq_iff _ _ _).mp hday
    · rw [← hday]
      exact (sub_taken_eq_iff _ _ _).mp hmonth
    · rw [← hmonth]
      exact (sub_taken_eq_iff _ _ _).mp hyear
  · intro h
    have hlast := (taken_eq_zero_iff _ _).mpr h.last
    have hsec := (taken_eq_zero_iff _ _).mpr h.sec
    have hminute := (taken_eq_zero_iff _ _).mpr h.minute
    have hhour := (taken_eq_zero_iff _ _).mpr h.hour
    have hday := (taken_eq_zero_iff _ _).mpr h.day
    have hmonth := (taken_eq_zero_iff _ _).mpr h.month
    simp only [lessened, hlast, hsec, hminute, hhour, hday, hmonth, sub_zero]

theorem lessened_le : lessened t1 t2 ≤ t2 := by
  have h := lessened_bounds t1 t2
  have hcal : calendar (lessened t1 t2) ≤ calendar t2 := by
    apply Prod.Lex.toLex_mono
    refine ⟨h.year.2, ?_⟩
    apply Prod.Lex.toLex_mono
    refine ⟨h.month.2, ?_⟩
    apply Prod.Lex.toLex_mono
    refine ⟨h.day.2, ?_⟩
    apply Prod.Lex.toLex_mono
    refine ⟨h.hour.2, ?_⟩
    apply Prod.Lex.toLex_mono
    exact ⟨h.minute.2, h.sec.2⟩
  have hmoment : moment (lessened t1 t2) ≤ moment t2 := by
    apply Prod.Lex.toLex_mono
    exact ⟨hcal, le_refl _⟩
  exact hmoment

end Time

section Line

variable (nValue : ℤ) (nLastLen : ℕ) (line : CString) (t t' : STDTime)

-- The three things that a line can do to a class.
theorem parsingClass_cases (c c' : STBetween_Class)
    (h : parsingClass nValue nLastLen line t c = .ok (t', c')) :
    (hit line (c.pKeyword .line1) = .ok true ∧ t' = t ∧ c' = { c with stPreTime := t }) ∨
    (Ends line c ∧ endClass nValue nLastLen t c = .ok (t', c')) ∨
    (hit line (c.pKeyword .line1) = .ok false ∧ hit line (c.pKeyword .line2) = .ok false ∧ t' = t ∧
      c' = c) := by
  obtain ⟨b1, h1, h⟩ := (bind_eq_ok _ _ _).mp h
  cases b1 with
  | true =>
    have hr := Prod.mk.inj (Except.ok.inj h)
    exact Or.inl ⟨h1, hr.1.symm, hr.2.symm⟩
  | false =>
    obtain ⟨b2, h2, h⟩ := (bind_eq_ok _ _ _).mp h
    right
    cases b2 with
    | true => exact Or.inl ⟨⟨h1, h2⟩, h⟩
    | false =>
      have hr := Prod.mk.inj (Except.ok.inj h)
      exact Or.inr ⟨h1, h2, hr.1.symm, hr.2.symm⟩

-- What is left of the time of a line that ends an interval, and what is recorded.
theorem endClass_cases (c c' : STBetween_Class) (h : endClass nValue nLastLen t c = .ok (t', c')) :
    t' = lessened c.stPreTime t ∧ ∃ (v : ℚ) (p : STInterval),
      record c.stInterval v = .ok p ∧ c' = { c with stInterval := p } := by
  obtain ⟨r, hr, h⟩ := (bind_eq_ok _ _ _).mp h
  obtain ⟨n, -, h⟩ := (bind_eq_ok _ _ _).mp h
  obtain ⟨p, hp, h⟩ := (bind_eq_ok _ _ _).mp h
  have heq := Prod.mk.inj (Except.ok.inj h)
  exact ⟨heq.1.symm.trans (getTimeInterval_time c.stPreTime t nLastLen r hr), _, p, hp, heq.2.symm⟩

theorem parsingClass_time (c c' : STBetween_Class)
    (h : parsingClass nValue nLastLen line t c = .ok (t', c')) :
    t' ≤ t ∧ (t' = t ↔ (Ends line c → NoBorrow c.stPreTime t)) := by
  have no_end (b : Bool) (h1 : hit line (c.pKeyword .line1) = .ok b)
      (h2 : b = false → hit line (c.pKeyword .line2) = .ok false) : ¬Ends line c := by
    intro he
    rw [he.1, Except.ok.injEq] at h1
    have h2' := h2 h1.symm
    rw [he.2] at h2'
    cases h2'
  rcases parsingClass_cases nValue nLastLen line t t' c c' h with
    ⟨h1, rfl, -⟩ | ⟨hends, hend⟩ | ⟨h1, h2, rfl, -⟩
  · have hno := no_end true h1 (fun h => absurd h.symm Bool.false_ne_true)
    exact ⟨le_refl _, iff_of_true rfl (fun he => absurd he hno)⟩
  · obtain ⟨ht, -⟩ := endClass_cases nValue nLastLen t t' c c' hend
    rw [ht]
    apply And.intro (lessened_le _ _)
    rw [lessened_eq_iff]
    exact ⟨fun hb _ => hb, fun hb => hb hends⟩
  · have hno := no_end false h1 (fun _ => h2)
    exact ⟨le_refl _, iff_of_true rfl (fun he => absurd he hno)⟩

theorem parsingLine_cons (c : STBetween_Class) (cs : List STBetween_Class)
    (r : STDTime × List STBetween_Class) :
    parsingLine nValue nLastLen line t (c :: cs) = .ok r ↔
      ∃ u c' cs', parsingClass nValue nLastLen line t c = .ok (u, c') ∧
        parsingLine nValue nLastLen line u cs = .ok (r.1, cs') ∧ r.2 = c' :: cs' := by
  rw [parsingLine, bind_eq_ok]
  constructor
  · rintro ⟨⟨u, c'⟩, hc, h⟩
    obtain ⟨⟨v, cs'⟩, hcs, h⟩ := (bind_eq_ok _ _ _).mp h
    obtain rfl := Except.ok.inj h
    exact ⟨u, c', cs', hc, hcs, rfl⟩
  · rintro ⟨u, c', cs', hc, hcs, hr⟩
    refine ⟨(u, c'), hc, (bind_eq_ok _ _ _).mpr ⟨(r.1, cs'), hcs, ?_⟩⟩
    exact congrArg Except.ok (Prod.ext rfl hr.symm)

/-- A line is never made later, and keeps its time exactly when no class that it ends borrows. -/
theorem parsingLine_time (cs cs' : List STBetween_Class)
    (h : parsingLine nValue nLastLen line t cs = .ok (t', cs')) :
    t' ≤ t ∧ (t' = t ↔ ∀ c ∈ cs, Ends line c → NoBorrow c.stPreTime t) := by
  induction cs generalizing t cs' with
  | nil =>
    have hr := Prod.mk.inj (Except.ok.inj h)
    rw [hr.1]
    exact ⟨le_refl _, iff_of_true rfl (fun c hc => absurd hc List.not_mem_nil)⟩
  | cons c cs ih =>
    obtain ⟨u, c', cs', hc, hcs, -⟩ := (parsingLine_cons _ _ _ _ _ _ _).mp h
    obtain ⟨hle, hiff⟩ := parsingClass_time nValue nLastLen line t u c c' hc
    obtain ⟨hle', hiff'⟩ := ih u cs' hcs
    apply And.intro (hle'.trans hle)
    rw [List.forall_mem_cons, ← hiff]
    constructor
    · intro heq
      have hu : u = t := le_antisymm hle (heq ▸ hle')
      rw [hu] at hiff'
      exact ⟨hu, hiff'.mp heq⟩
    · rintro ⟨hu, hcs⟩
      rw [hu] at hiff'
      exact hiff'.mpr hcs

-- While the time stays as it is, each class does what it does alone.
theorem parsingLine_alone (cs cs' : List STBetween_Class)
    (h : parsingLine nValue nLastLen line t cs = .ok (t, cs')) :
    List.Forall₂ (fun c c' => parsingLine nValue nLastLen line t [c] = .ok (t, [c'])) cs cs' := by
  induction cs generalizing cs' with
  | nil =>
    have hr := Prod.mk.inj (Except.ok.inj h)
    rw [← hr.2]
    exact .nil
  | cons c cs ih =>
    obtain ⟨u, c', cs'', hc, hcs, hr⟩ := (parsingLine_cons _ _ _ _ _ _ _).mp h
    have hu : u = t := le_antisymm (parsingClass_time nValue nLastLen line t u c c' hc).1
      (parsingLine_time nValue nLastLen line u t cs cs'' hcs).1
    rw [hu] at hc hcs
    obtain rfl : cs' = c' :: cs'' := hr
    refine .cons ?_ (ih cs'' hcs)
    exact (parsingLine_cons _ _ _ _ _ _ _).mpr ⟨t, c', [], hc, rfl, rfl⟩

end Line

section Runs

variable (nValue : ℤ) (nLastLen : ℕ)

/-- The line leaves `stCurTime` as it is. -/
def KeepsTime (cs : List STBetween_Class) (line : TimedLine) : Prop :=
  ∃ cs', parsingLine nValue nLastLen line.text line.time cs = .ok (line.time, cs')

/-- Every class that ends with the line began at a time none of whose fields is greater. -/
def Unborrowed (cs : List STBetween_Class) (line : TimedLine) : Prop :=
  ∀ c ∈ cs, Ends line.text c → NoBorrow c.stPreTime line.time

instance (cs : List STBetween_Class) (line : TimedLine) : Decidable (Unborrowed cs line) :=
  inferInstanceAs (Decidable (∀ c ∈ cs, _))

/-- Each class comes out of the lines as it does without the other ones, and no line changes the time. -/
structure Independent (cs : List STBetween_Class) (lines : List TimedLine)
    (cs' : List STBetween_Class) : Prop where
  alone : List.Forall₂ (fun c c' => runFrom (step nValue nLastLen) [c] lines = some [c']) cs cs'
  time : Along (step nValue nLastLen) (KeepsTime nValue nLastLen) cs lines

theorem step_eq_some_iff (cs cs' : List STBetween_Class) (line : TimedLine) :
    step nValue nLastLen cs line = some cs' ↔
      ∃ t', parsingLine nValue nLastLen line.text line.time cs = .ok (t', cs') := by
  unfold step
  split
  · next t' cs'' heq =>
    rw [Option.some.injEq]
    constructor
    · rintro rfl
      exact ⟨t', heq⟩
    · rintro ⟨u, hu⟩
      rw [heq] at hu
      exact congrArg Prod.snd (Except.ok.inj hu)
  · next f heq =>
    apply iff_of_false (fun h => absurd h.symm (Option.some_ne_none _))
    rintro ⟨u, hu⟩
    rw [heq] at hu
    cases hu

theorem keepsTime_iff (cs cs' : List STBetween_Class) (line : TimedLine)
    (h : step nValue nLastLen cs line = some cs') :
    KeepsTime nValue nLastLen cs line ↔ Unborrowed cs line := by
  obtain ⟨t', ht'⟩ := (step_eq_some_iff _ _ _ _ _).mp h
  have htime := (parsingLine_time nValue nLastLen _ _ _ _ _ ht').2
  constructor
  · rintro ⟨cs'', hkeep⟩
    rw [ht'] at hkeep
    exact htime.mp (congrArg Prod.fst (Except.ok.inj hkeep))
  · intro hb
    rw [htime.mpr hb] at ht'
    exact ⟨cs', ht'⟩

theorem step_alone (cs cs' : List STBetween_Class) (line : TimedLine)
    (h : step nValue nLastLen cs line = some cs') (hkeep : KeepsTime nValue nLastLen cs line) :
    List.Forall₂ (fun c c' => step nValue nLastLen [c] line = some [c']) cs cs' := by
  obtain ⟨t', ht'⟩ := (step_eq_some_iff _ _ _ _ _).mp h
  obtain ⟨cs'', hcs⟩ := hkeep
  have heq : cs' = cs'' := by
    rw [ht'] at hcs
    exact congrArg Prod.snd (Except.ok.inj hcs)
  rw [heq]
  apply (parsingLine_alone nValue nLastLen _ _ _ _ hcs).imp
  intro c c' hc
  exact (step_eq_some_iff _ _ _ _ _).mpr ⟨_, hc⟩

theorem run_alone (cs cs' : List STBetween_Class) (lines : List TimedLine)
    (h : runFrom (step nValue nLastLen) cs lines = some cs')
    (hkeep : Along (step nValue nLastLen) (KeepsTime nValue nLastLen) cs lines) :
    List.Forall₂ (fun c c' => runFrom (step nValue nLastLen) [c] lines = some [c']) cs cs' := by
  induction lines generalizing cs with
  | nil =>
    obtain rfl := Option.some.inj h
    exact List.forall₂_same.mpr (fun c _ => rfl)
  | cons line lines ih =>
    obtain ⟨ds, hstep, hrun⟩ := (runFrom_cons_iff _ _ _ _ _).mp h
    have hfirst := step_alone nValue nLastLen cs ds line hstep hkeep.1
    have hrest := ih ds hrun (hkeep.2 ds hstep)
    rw [List.forall₂_iff_get] at hfirst hrest ⊢
    refine ⟨hfirst.1.trans hrest.1, fun i hi hi' => ?_⟩
    exact (runFrom_cons_iff _ _ _ _ _).mpr ⟨_, hfirst.2 i hi (hfirst.1 ▸ hi),
      hrest.2 i (hfirst.1 ▸ hi) hi'⟩

theorem along_keepsTime_iff (cs cs' : List STBetween_Class) (lines : List TimedLine)
    (h : runFrom (step nValue nLastLen) cs lines = some cs') :
    Along (step nValue nLastLen) (KeepsTime nValue nLastLen) cs lines ↔
      Along (step nValue nLastLen) Unborrowed cs lines := by
  induction lines generalizing cs with
  | nil => exact Iff.rfl
  | cons line lines ih =>
    obtain ⟨ds, hstep, hrun⟩ := (runFrom_cons_iff _ _ _ _ _).mp h
    have hrest := ih ds hrun
    apply and_congr (keepsTime_iff nValue nLastLen cs ds line hstep)
    constructor
    · intro hk t ht
      obtain rfl := Option.some.inj (hstep.symm.trans ht)
      exact hrest.mp (hk ds hstep)
    · intro hk t ht
      obtain rfl := Option.some.inj (hstep.symm.trans ht)
      exact hrest.mpr (hk ds hstep)

/-- Over all the lines that are read, the classes are independent exactly when no class ends with a line
whose time has a field less than that of its beginning. -/
theorem classes_independent_iff (cs cs' : List STBetween_Class) (lines : List TimedLine)
    (h : runFrom (step nValue nLastLen) cs lines = some cs') :
    Independent nValue nLastLen cs lines cs' ↔ Along (step nValue nLastLen) Unborrowed cs lines := by
  rw [← along_keepsTime_iff nValue nLastLen cs cs' lines h]
  constructor
  · exact fun hind => hind.time
  · exact fun htime => ⟨run_alone nValue nLastLen cs cs' lines h htime, htime⟩

/-- A class that runs from `a` to `b`, from a time on. -/
def classAB (stPreTime : STDTime) : STBetween_Class where
  pKeyword
    | .line1 => some ⟨[97], CString.noNul_a⟩
    | .line2 => some ⟨[98], CString.noNul_b⟩
  stPreTime := stPreTime
  stInterval := STInterval.zero

def lineAt (c : UInt8) (hc : 0 ∉ [c]) (nMinute nSec : ℤ) : TimedLine :=
  ⟨⟨[c], hc⟩, ⟨2020, 1, 2, 10, nMinute, nSec, 0⟩⟩

theorem classes_independent_iff_half_minute : ∃ cs', Independent 0 3 [classAB zero, classAB zero]
    [lineAt 97 (by decide) 0 30, lineAt 98 (by decide) 1 40] cs' := by
  refine ⟨_, (classes_independent_iff 0 3 [classAB zero, classAB zero] _
    [lineAt 97 (by decide) 0 30, lineAt 98 (by decide) 1 40] rfl).mpr ?_⟩
  decide

-- Of two classes that begin at 10:00:30 and end at 10:01:10, the second one is given 86380 seconds.
theorem not_independent_two_classes :
    (¬∃ cs', Independent 0 3 [classAB zero, classAB zero]
      [lineAt 97 (by decide) 0 30, lineAt 98 (by decide) 1 10] cs') ∧
    ∃ c c', runFrom (step 0 3) [classAB zero] [lineAt 97 (by decide) 0 30, lineAt 98 (by decide) 1 10] =
        some [c] ∧
      runFrom (step 0 3) [classAB zero, classAB zero]
        [lineAt 97 (by decide) 0 30, lineAt 98 (by decide) 1 10] = some [c, c'] ∧
      c.stInterval.nInterval ⟨0, by decide⟩ = 40000 ∧
      c'.stInterval.nInterval ⟨0, by decide⟩ = 86380000 := by
  constructor
  · rintro ⟨cs', h⟩
    obtain ⟨ds, hds⟩ := (h.time.2 _ rfl).1
    have hunborrowed : Unborrowed _ _ := (parsingLine_time 0 3 _ _ _ _ _ hds).2.mp rfl
    exact absurd hunborrowed (by decide)
  · refine ⟨_, _, rfl, rfl, ?_, ?_⟩
    · exact FloatRound.round_small 23 40000 (by decide)
    · have hbits : 2^(Nat.log 2 (86380000 : ℤ).natAbs-23) ∣ (86380000 : ℤ).natAbs := by norm_num
      exact (FloatRound.round_intCast_iff 23 86380000).mpr hbits

end Runs

end Leviathan.BetweenLines
