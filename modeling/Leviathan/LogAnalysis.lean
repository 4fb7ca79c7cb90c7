import Leviathan.BetweenLines
import Leviathan.ExtractNToFile
import Leviathan.FileLinesRead
import Leviathan.FileOrder
import Leviathan.KeyValue
import Leviathan.Relay
import Leviathan.Sequence
import Leviathan.TimeSlots

/-! The analysis of the files of a directory (LogAnalyzer: DirectoryProc.cpp, FileProc.cpp, handler.cpp):
the files are read in the order of month to second of their times, and each line goes from one analyzer of
`m_pAnalyzerList` to the next.  Of the analyzers only `CAnalyzer_Average` rejects lines, those in which
`ehstrstr` finds none of its keywords; then the rest of the file is skipped.  The configuration has an
expression for the time and neither an end key, with which `FileProc2` reads the files, nor a length to
skip. -/
namespace Leviathan.LogAnalysis

open CmString DateTime FileLines

open Average (Keyword STAnalyzer_Avg)

inductive EAnlysorType
  | keyValue
  | extractNToFile
  | dateTime
  | betweenLines
  | average
  | sequence
  deriving DecidableEq

/-- The indices of `m_pAnalyzerList`. -/
def order : List EAnlysorType :=
  [.keyValue, .extractNToFile, .dateTime, .betweenLines, .average, .sequence]

/-- What an analyzer keeps from line to line. -/
def State : EAnlysorType → Type
  | .keyValue => Option (CSList KeyValue.STAnalyzer1_Line)
  | .extractNToFile => ExtractNToFile.CAnalyzer_ExtractNToFile
  | .dateTime => TimeSlots.CAnalyzer_DateTime
  | .betweenLines => List BetweenLines.STBetween_Class
  -- `m_pKeyAvgList`, which is NULL when no keyword is configured
  | .average => Option (List STAnalyzer_Avg)
  | .sequence => List Sequence.STAnalyzer_Seq

/-- `g_stConfig.pDTE`, and what is not determined by the code: what `atoi` answers for a number that no
`int` holds, and what the local variables `nValue` hold that are not set. -/
structure Env where
  pDTE : STDateTimeExp
  atoiOver : List UInt8 → ℤ
  keyValue : CString → ℕ → ℤ
  nValue : ℤ

structure Analysis where
  stStartTime : STDTime
  stEndTime : STDTime
  stCurTime : STDTime
  m_szLineBuf : LineBuf
  m_pAnalyzerList : (t : EAnlysorType) → Option (State t)

section Model

variable (env : Env)

/-- The `parsingLine` of each analyzer, with what is left in `g_stConfig.stCurTime`. -/
def parsingLine (t : EAnlysorType) (pLine : CString) (stCurTime : STDTime) (st : State t) :
    Except Fault (Bool × STDTime × State t) :=
  match t with
  | .keyValue => do
    let st ← KeyValue.parsingLine env.atoiOver st ⟨pLine, env.keyValue pLine⟩
    return (true, stCurTime, st)
  | .extractNToFile => do
    let st ← ExtractNToFile.parsingLine st pLine
    return (true, stCurTime, st)
  | .dateTime => do
    let st ← TimeSlots.parsingLine env.pDTE st pLine
    return (true, stCurTime, st)
  | .betweenLines => do
    let (stCurTime, st) ← BetweenLines.parsingLine env.nValue env.pDTE.nLastLen pLine stCurTime st
    return (true, stCurTime, st)
  | .average =>
    match st with
    | none => .error .nullRead
    | some m_pKeyAvgList => do
      let (bRes, m_pKeyAvgList) ← Average.parsingLine env.atoiOver pLine m_pKeyAvgList
      return (bRes, stCurTime, some m_pKeyAvgList)
  | .sequence => do
    let (bRes, st) ← Sequence.parsingLine env.atoiOver pLine st
    return (bRes, stCurTime, st)

/-- The text in a buffer, up to the first NUL. -/
def stringAt (p : List UInt8) : CString :=
  ⟨p.takeWhile (· ≠ 0), fun h => by simpa using List.mem_takeWhile_imp h⟩

def timeOf (pLine : CString) : Except Fault STDTime :=
  parsingTimeLog (TimeSlots.textOf pLine.chars) env.pDTE

/-- The loop of `FileProc`; false where a line is rejected. -/
def lineLoop : ℕ → STLine → Analysis → Except Fault (Bool × Analysis)
  | 0, _, _ => .error .diverges
  | fuel+1, m_szLine, a => do
    let (m_szLine, nLineSize) ← getNextLine m_szLine
    match m_szLine.m_szLineBuf.pValue with
    | none => .error .nullRead
    | some pNextLine =>
      let stCurTime ← timeOf env (stringAt pNextLine)
      let (bRes, stCurTime, m_pAnalyzerList) ←
        Relay.pass (parsingLine env) (stringAt pNextLine) order stCurTime a.m_pAnalyzerList
      let a := { a with stCurTime, m_szLineBuf := m_szLine.m_szLineBuf, m_pAnalyzerList }
      if bRes = false then return (false, a)
      else if nLineSize = 0 then return (true, a)
      else lineLoop fuel m_szLine a

/-- `FileProc` on a file; `pLineEndKey` is NULL and `nSkippingLen` 0. -/
def fileProc (content : CString) (a : Analysis) : Except Fault Analysis := do
  let stTime ← timeOf env content
  let stStartTime ← LogTime.setBeginningTime a.stStartTime stTime
  let (bRes, a) ← lineLoop env (content.strlen+1) ⟨content.chars, a.m_szLineBuf, none, 0⟩
    { a with stStartTime }
  if bRes then
    let stEndTime ← LogTime.setEndingTime a.stEndTime a.stCurTime
    return { a with stEndTime }
  else return a

-- what `readNalloc` reads; nothing for an empty file, or one that cannot be opened
variable (readNalloc : STFileInfoEx → Option CString)

/-- What there is to analyze in a record of the list. -/
def contentOf (pFileInfo : STFileInfoEx) : Option CString :=
  if pFileInfo.stat = 'F' then readNalloc pFileInfo else none

/-- The loop of `proc` over the sorted records. -/
def procFiles : List STFileInfoEx → Analysis → Except Fault Analysis
  | [], a => .ok a
  | pFileInfo :: files, a =>
    match contentOf readNalloc pFileInfo with
    | none => procFiles files a
    | some content => do
      let a ← fileProc env content a
      procFiles files a

/-- `proc`, from what `GetFileList` has found on. -/
def proc (newBuf : ℤ → Option (Array (QSort.STSortData STFileInfoEx)))
    (found : CFileUtil.STFileList × ℕ) (a : Analysis) : Except Fault (Bool × Analysis) := do
  let r ← CDirectoryProc.getTimeAscendingFileList newBuf found
  if r.2 = 0 then return (false, a)
  else
    let a ← procFiles env readNalloc (CDirectoryProc.returned r) a
    return (true, a)

end Model

section Lines

/-- A file of lines that are not empty and not very long, each of which has its `'\n'`. -/
structure Plain (content : List UInt8) : Prop where
  last : content.getLast? = some g_rc
  blank : [] ∉ linesOf content
  short : ∀ line ∈ linesOf content, line.length < 2^29

theorem Plain.first_line {content : List UInt8} (h : Plain content) :
    ∃ line rest, content = line ++ g_rc :: rest ∧ g_rc ∉ line ∧ line ≠ [] ∧ line.length < 2^29 ∧
      (rest ≠ [] → Plain rest) := by
  rcases FileLines.first_line content with hno | ⟨line, rest, rfl, hline⟩
  · exact absurd (List.mem_of_getLast? h.last) hno
  · have hlines := linesOf_terminated line rest hline
    refine ⟨line, rest, rfl, hline, ?_, ?_, fun hrest => ⟨?_, ?_, ?_⟩⟩
    · rintro rfl
      exact h.blank (hlines ▸ List.mem_cons_self)
    · exact h.short line (hlines ▸ List.mem_cons_self)
    · rw [← getLast_terminated line rest hrest]
      exact h.last
    · exact fun hblank => h.blank (hlines ▸ List.mem_cons_of_mem line hblank)
    · exact fun x hx => h.short x (hlines ▸ List.mem_cons_of_mem line hx)

-- Whatever the buffer has been, there is one for the line.
theorem getNextLine_plain (line rest : List UInt8) (buf : LineBuf) (hb : buf.Sane) (h : g_rc ∉ line)
    (hne : line ≠ []) (hshort : line.length < 2^29) :
    ∃ k, k ≠ 0 ∧ getNextLine ⟨line ++ g_rc :: rest, buf, none, 0⟩ =
      .ok (if rest = [] then (⟨line ++ g_rc :: rest, ⟨some line, k⟩, none, 0⟩, 0)
        else (⟨rest, ⟨some line, k⟩, none, 0⟩, line.length)) := by
  have hidx : getIndex (line.length+1) ≤ 29 := (getIndex_isLeast _ (Nat.succ_pos _)).2 hshort
  obtain ⟨hclass, hgrow⟩ := growLineBuf_spec buf line.length hb
  obtain ⟨k, hk⟩ : ∃ k, classAfterLine buf.nIdx line.length = some k := by
    unfold classAfterLine
    rw [if_pos (by omega : getIndex (line.length+1)+1 < 31)]
    split_ifs
    · exact ⟨_, rfl⟩
    · exact ⟨_, rfl⟩
  have hk0 := classAfterLine_ne_zero _ line k hne hk
  rw [hk] at hclass
  obtain ⟨buf', hbuf', rfl⟩ := Option.map_eq_some_iff.mp hclass
  obtain ⟨hb', hfit⟩ := hgrow buf' hbuf'
  refine ⟨_, hk0, ?_⟩
  rw [getNextLine_line line rest buf h, hbuf']
  dsimp only
  rw [copyLine_ok buf' line hb' hk0 hfit, ok_bind]
  split_ifs <;> rfl

end Lines

section Analyzers

variable (env : Env) (keys : List (Option Keyword))

/-- `ehstrstr`, which may miss one, finds a keyword of `CAnalyzer_Average` in the line. -/
def hasKey (line : CString) : Bool :=
  keys.any (fun key => (key.bind (fun k => ehstrstr line k.toCString)).isSome)

/-- The analyzers that reject a line. -/
def Rejects : EAnlysorType → CString → Prop
  | .average, line => hasKey keys line = false
  | .keyValue, _ | .extractNToFile, _ | .dateTime, _ | .betweenLines, _ | .sequence, _ => False

instance (t : EAnlysorType) (line : CString) : Decidable (Rejects keys t line) :=
  match t with
  | .average => inferInstanceAs (Decidable (_ = _))
  | .keyValue | .extractNToFile | .dateTime | .betweenLines | .sequence => inferInstanceAs (Decidable False)

/-- The keywords of `CAnalyzer_Average` are `keys`. -/
def Keyed (st : Option (List STAnalyzer_Avg)) : Prop := ∀ l ∈ st, l.map STAnalyzer_Avg.pKeyword = keys

def Kept (t : EAnlysorType) (st : State t) : Prop :=
  match t with
  | .average => Keyed keys st
  | .keyValue | .extractNToFile | .dateTime | .betweenLines | .sequence => True

-- The keywords stay, and only a line without any of them is rejected.
theorem average_parsingLine (line : CString) (l : List STAnalyzer_Avg) (r : Bool × List STAnalyzer_Avg)
    (h : Average.parsingLine env.atoiOver line l = .ok r) :
    r.2.map STAnalyzer_Avg.pKeyword = l.map STAnalyzer_Avg.pKeyword ∧
      r.1 = hasKey (l.map STAnalyzer_Avg.pKeyword) line := by
  induction l generalizing r with
  | nil =>
    cases h
    exact ⟨rfl, rfl⟩
  | cons a rest ih =>
    have hmeets : (Average.find line a).isSome =
        (a.pKeyword.bind (fun k => ehstrstr line k.toCString)).isSome := by
      rw [Average.find]
      cases a.pKeyword with
      | none => rfl
      | some k => exact Option.isSome_map
    rw [Average.parsingLine] at h
    rw [List.map_cons, hasKey, List.any_cons, ← hmeets]
    cases hfind : Average.find line a with
    | some kp =>
      simp only [hfind] at h
      obtain ⟨b, hb, h⟩ := (bind_eq_ok _ _ _).mp h
      obtain ⟨v, -, hb⟩ := (bind_eq_ok _ _ _).mp hb
      obtain ⟨p, -, hb⟩ := (bind_eq_ok _ _ _).mp hb
      cases hb
      cases h
      exact ⟨rfl, rfl⟩
    | none =>
      simp only [hfind] at h
      obtain ⟨q, hq, h⟩ := (bind_eq_ok _ _ _).mp h
      obtain ⟨hkeys, hres⟩ := ih q hq
      cases h
      exact ⟨congrArg (a.pKeyword :: ·) hkeys, hres.trans (Bool.false_or _).symm⟩

theorem refusing : Relay.Refusing (parsingLine env) (Kept keys) (Rejects keys) := by
  intro t line c st r hkept h
  cases t with
  | average =>
    cases st with
    | none => cases h
    | some l =>
      obtain ⟨q, hq, h⟩ := (bind_eq_ok _ _ _).mp h
      cases h
      obtain ⟨hkeys, hres⟩ := average_parsingLine env line l q hq
      have hl : l.map STAnalyzer_Avg.pKeyword = keys := hkept l rfl
      rw [hl] at hkeys hres
      refine ⟨fun l' hl' => ?_, by rw [hres]; rfl⟩
      obtain rfl := Option.some.inj hl'
      exact hkeys
  | keyValue | extractNToFile | dateTime | betweenLines =>
    obtain ⟨q, -, h⟩ := (bind_eq_ok _ _ _).mp h
    cases h
    exact ⟨trivial, iff_of_false nofun id⟩
  | sequence =>
    obtain ⟨q, hq, h⟩ := (bind_eq_ok _ _ _).mp h
    obtain ⟨l, -, hq⟩ := (bind_eq_ok _ _ _).mp hq
    cases hq
    cases h
    exact ⟨trivial, iff_of_false nofun id⟩

-- `CAnalyzer_BetweenLines` alone uses the time that `FileProc` has read.
theorem indifferent (t : EAnlysorType) (ht : t ≠ .betweenLines) :
    Relay.Indifferent (parsingLine env) t := by
  intro line c st r h
  cases t with
  | betweenLines => exact absurd rfl ht
  | average =>
    cases st with
    | none => cases h
    | some l =>
      obtain ⟨q, hq, h⟩ := (bind_eq_ok _ _ _).mp h
      cases h
      refine ⟨rfl, fun d => ?_⟩
      show (Average.parsingLine env.atoiOver line l >>= _) = _
      rw [hq]
      rfl
  | keyValue | extractNToFile | dateTime | sequence =>
    obtain ⟨q, hq, h⟩ := (bind_eq_ok _ _ _).mp h
    cases h
    refine ⟨rfl, fun d => ?_⟩
    rw [parsingLine, hq]
    rfl

end Analyzers

/-- The keywords of `CAnalyzer_Average`. -/
def keysOf (a : Analysis) : List (Option Keyword) :=
  (a.m_pAnalyzerList .average).elim []
    (fun st : Option (List STAnalyzer_Avg) => (st.getD []).map STAnalyzer_Avg.pKeyword)

def linesIn (content : CString) : List CString := (linesOf content.chars).map stringAt

/-- The lines of a file that an analyzer gets: the last of them is the first one that has none of the
keywords of `CAnalyzer_Average`, and `CAnalyzer_Sequence`, which stands behind it, does not get that one. -/
def linesFor (a : Analysis) (t : EAnlysorType) (lines : List CString) : List CString :=
  if (a.m_pAnalyzerList .average).isSome then
    lines.takeWhile (hasKey (keysOf a)) ++
      if t = .sequence then [] else (lines.dropWhile (hasKey (keysOf a))).take 1
  else lines

/-- The lines that an analyzer gets of all the files. -/
def given (readNalloc : STFileInfoEx → Option CString) (a : Analysis) (t : EAnlysorType)
    (files : List STFileInfoEx) : List CString :=
  files.flatMap (fun pFileInfo =>
    (contentOf readNalloc pFileInfo).elim [] (fun content => linesFor a t (linesIn content)))

section Seen

variable (keys : List (Option Keyword)) (present : EAnlysorType → Bool) (line : CString)

theorem passes_iff : Relay.Passes (Rejects keys) present order line ↔
    (present .average = true → hasKey keys line = true) := by
  simp [Relay.Passes, order, Rejects]

theorem reaches_iff (t : EAnlysorType) : Relay.Reaches (Rejects keys) present order t line ↔
    (t = .sequence → present .average = true → hasKey keys line = true) := by
  cases t <;> simp [Relay.Reaches, order, Rejects]

-- What gets through to the analyzers when `CAnalyzer_Average` is there, and when it is not.
theorem seen_eq (a : Analysis) (t : EAnlysorType) (lines : List CString) :
    Relay.seen (Rejects (keysOf a)) (fun t => (a.m_pAnalyzerList t).isSome) order t lines =
      linesFor a t lines := by
  rw [linesFor]
  split_ifs with havg hseq
  · subst hseq
    rw [List.append_nil]
    induction lines with
    | nil => rfl
    | cons line lines ih =>
      rw [Relay.seen, List.takeWhile_cons]
      simp only [passes_iff, reaches_iff, havg, forall_const]
      cases hasKey (keysOf a) line with
      | true => simp [ih]
      | false => simp
  · induction lines with
    | nil => rfl
    | cons line lines ih =>
      rw [Relay.seen, List.takeWhile_cons, List.dropWhile_cons]
      simp only [passes_iff, reaches_iff, havg, hseq, forall_const, false_imp_iff, if_true]
      cases hasKey (keysOf a) line with
      | true => simp [ih]
      | false => simp
  · exact Relay.seen_of_passes _ _ _ _ _ fun line _ =>
      (passes_iff _ _ line).mpr fun hpresent => absurd hpresent havg

end Seen

section Runs

variable (env : Env)

/-- The time that `FileProc` reads at the beginning of a line. -/
def timeAt (pLine : CString) : STDTime := (timeOf env pLine).toOption.getD LogTime.zero

theorem lineLoop_plain (fuel : ℕ) (content : List UInt8) (h : Plain content) (buf : LineBuf) (hb : buf.Sane)
    (a : Analysis) (r : Bool × Analysis) (hr : lineLoop env fuel ⟨content, buf, none, 0⟩ a = .ok r) :
    r.2.m_szLineBuf.Sane ∧ ∃ c, Relay.batch (parsingLine env) (timeAt env) order
      ((linesOf content).map stringAt) a.stCurTime a.m_pAnalyzerList =
        .ok (r.1, c, r.2.m_pAnalyzerList) := by
  induction fuel generalizing content buf a with
  | zero => cases hr
  | succ fuel ih =>
    obtain ⟨line, rest, rfl, hline, hne, hshort, hrest⟩ := h.first_line
    obtain ⟨k, hk, hnext⟩ := getNextLine_plain line rest buf hb hline hne hshort
    have hsane : (⟨some line, k⟩ : LineBuf).Sane := iff_of_false (Option.some_ne_none line) hk
    rw [lineLoop, hnext, ok_bind] at hr
    rw [linesOf_terminated line rest hline, List.map_cons, Relay.batch]
    by_cases hlast : rest = []
    · rw [if_pos hlast] at hr
      obtain ⟨t, ht, hr⟩ := (bind_eq_ok _ _ _).mp hr
      have htime : timeAt env (stringAt line) = t := by rw [timeAt, ht]; rfl
      obtain ⟨⟨b, c, list⟩, hpass, hr⟩ := (bind_eq_ok _ _ _).mp hr
      rw [htime, hpass, ok_bind]
      subst hlast
      cases b with
      | false =>
        cases hr
        exact ⟨hsane, c, rfl⟩
      | true =>
        cases hr
        exact ⟨hsane, _, rfl⟩
    · rw [if_neg hlast] at hr
      obtain ⟨t, ht, hr⟩ := (bind_eq_ok _ _ _).mp hr
      have htime : timeAt env (stringAt line) = t := by rw [timeAt, ht]; rfl
      obtain ⟨⟨b, c, list⟩, hpass, hr⟩ := (bind_eq_ok _ _ _).mp hr
      rw [htime, hpass, ok_bind]
      cases b with
      | false =>
        cases hr
        exact ⟨hsane, c, rfl⟩
      | true =>
        have hsize : line.length ≠ 0 := fun h0 => hne (List.length_eq_zero_iff.mp h0)
        dsimp only at hr
        rw [if_neg (fun h : true = false => Bool.false_ne_true h.symm), if_neg hsize] at hr
        exact ih rest (hrest hlast) ⟨some line, k⟩ hsane _ hr

theorem fileProc_plain (content : CString) (h : Plain content.chars) (a a' : Analysis)
    (ha : a.m_szLineBuf.Sane) (hr : fileProc env content a = .ok a') :
    a'.m_szLineBuf.Sane ∧ ∃ b c, Relay.batch (parsingLine env) (timeAt env) order (linesIn content)
      a.stCurTime a.m_pAnalyzerList = .ok (b, c, a'.m_pAnalyzerList) := by
  obtain ⟨stTime, -, hr⟩ := (bind_eq_ok _ _ _).mp hr
  obtain ⟨stStartTime, -, hr⟩ := (bind_eq_ok _ _ _).mp hr
  obtain ⟨⟨b, a₁⟩, hloop, hr⟩ := (bind_eq_ok _ _ _).mp hr
  obtain ⟨hsane, c, hbatch⟩ := lineLoop_plain env _ _ h _ ha _ _ hloop
  cases b with
  | false =>
    cases hr
    exact ⟨hsane, _, c, hbatch⟩
  | true =>
    obtain ⟨stEndTime, -, hr⟩ := (bind_eq_ok _ _ _).mp hr
    cases hr
    exact ⟨hsane, _, c, hbatch⟩

variable (readNalloc : STFileInfoEx → Option CString) (keys : List (Option Keyword))
  (present : EAnlysorType → Bool)

theorem order_nodup : order.Nodup := by decide

theorem mem_order (t : EAnlysorType) : t ∈ order := by
  cases t <;> decide

-- One file: each analyzer treats what it gets of it as if it were the only one.
theorem fileProc_given (content : CString) (h : Plain content.chars) (a a' : Analysis)
    (ha : a.m_szLineBuf.Sane) (hs : Relay.Standing present (Kept keys) a.m_pAnalyzerList)
    (hr : fileProc env content a = .ok a') :
    a'.m_szLineBuf.Sane ∧ Relay.Standing present (Kept keys) a'.m_pAnalyzerList ∧
      ∀ t st, a.m_pAnalyzerList t = some st → ∃ st', a'.m_pAnalyzerList t = some st' ∧
        Relay.alone (parsingLine env) (timeAt env) t
          (Relay.seen (Rejects keys) present order t (linesIn content)) st = .ok st' := by
  obtain ⟨hsane, b, c, hbatch⟩ := fileProc_plain env content h a a' ha hr
  have hfile := Relay.batch_spec (parsingLine env) (timeAt env) (Kept keys) (Rejects keys) present order
    .betweenLines (refusing env keys) (indifferent env) order_nodup _ _ _ hs _ hbatch
  exact ⟨hsane, hfile.standing, fun t st hst => hfile.treated t (mem_order t) st hst⟩

theorem procFiles_given (files : List STFileInfoEx)
    (hplain : ∀ f ∈ files, ∀ content ∈ contentOf readNalloc f, Plain content.chars) (a a' : Analysis)
    (ha : a.m_szLineBuf.Sane) (hs : Relay.Standing present (Kept keys) a.m_pAnalyzerList)
    (hr : procFiles env readNalloc files a = .ok a') (t : EAnlysorType) (st : State t)
    (hst : a.m_pAnalyzerList t = some st) :
    ∃ st', a'.m_pAnalyzerList t = some st' ∧ Relay.alone (parsingLine env) (timeAt env) t
      (files.flatMap (fun f => (contentOf readNalloc f).elim []
        (fun content => Relay.seen (Rejects keys) present order t (linesIn content)))) st = .ok st' := by
  induction files generalizing a st with
  | nil =>
    cases hr
    exact ⟨st, hst, rfl⟩
  | cons f files ih =>
    rw [List.forall_mem_cons] at hplain
    rw [procFiles] at hr
    rw [List.flatMap_cons]
    cases hcontent : contentOf readNalloc f with
    | none =>
      simp only [hcontent] at hr
      exact ih hplain.2 a ha hs hr st hst
    | some content =>
      simp only [hcontent] at hr
      obtain ⟨a₁, hfile, hr⟩ := (bind_eq_ok _ _ _).mp hr
      obtain ⟨ha₁, hs₁, halone⟩ :=
        fileProc_given env keys present content (hplain.1 content hcontent) a a₁ ha hs hfile
      obtain ⟨st₁, hst₁, hone⟩ := halone t st hst
      obtain ⟨st₂, hst₂, hrest⟩ := ih hplain.2 a₁ ha₁ hs₁ hr st₁ hst₁
      exact ⟨st₂, hst₂, Relay.alone_append _ _ t _ _ _ _ _ hone hrest⟩

end Runs

section TwoFiles

/-- Lines that begin with the hour, in one digit. -/
def hours : Env := ⟨⟨0, 0, '\x00', '\x00', 0, 0, 0, 1, 0, 0, 0⟩, fun _ => 0, fun _ _ => 0, 0⟩

/-- Two files of four bytes; the second is the older one. -/
def twoFiles : List STFileInfoEx :=
  [⟨['8'], 'F', ⟨2024, 102000000⟩, 4⟩, ⟨['7'], 'F', ⟨2024, 101000000⟩, 4⟩]

theorem noNul_text (c : UInt8) (h : c ≠ 0) : (0 : UInt8) ∉ [c, 32, 97, 10] := by
  simp [h.symm]

/-- The line "7 a" or "8 a". -/
def readTwo (f : STFileInfoEx) : Option CString :=
  if f.fname = ['7'] then some ⟨[55, 32, 97, 10], noNul_text 55 nofun⟩
  else some ⟨[56, 32, 97, 10], noNul_text 56 nofun⟩

theorem noNul_a : (0 : UInt8) ∉ [97] := by
  simp

theorem short_a : [(97 : UInt8)].length < 128 := by
  simp

/-- The keyword "a", to be logged. -/
def configA : List ExtractNToFile.KeywordConfig :=
  [⟨some ⟨⟨[97], noNul_a⟩, List.cons_ne_nil 97 [], short_a⟩, 1⟩]

/-- `CAnalyzer_Average` has no keyword, and so rejects every line. -/
def start : Analysis where
  stStartTime := LogTime.zero
  stEndTime := LogTime.zero
  stCurTime := LogTime.zero
  m_szLineBuf := ⟨none, 0⟩
  m_pAnalyzerList := fun t =>
    match t with
    | .extractNToFile => ExtractNToFile.initConfig configA (some [])
    | .average => some (some [])
    | .keyValue | .dateTime | .betweenLines | .sequence => none

def found : CSList STFileInfoEx := ⟨twoFiles.map some, 2, 2, 2, .alloc⟩

theorem lists_found : CFileUtil.Lists (some found) twoFiles := by
  have hslot (i : ℕ) : found.slot i = twoFiles[i]? := by
    rw [CSList.slot, found, List.getD_eq_getElem?_getD, List.getElem?_map]
    cases twoFiles[i]? <;> rfl
  refine ⟨⟨rfl, rfl, rfl, by decide, fun i hi => ?_, le_rfl⟩, hslot⟩
  rw [hslot]
  exact List.getElem?_eq_none hi

theorem plain_readTwo (f : STFileInfoEx) (content : CString) (h : content ∈ contentOf readTwo f) :
    Plain content.chars := by
  unfold contentOf readTwo at h
  split_ifs at h
  · cases h
    exact ⟨rfl, by decide, by decide⟩
  · cases h
    exact ⟨rfl, by decide, by decide⟩
  · cases h

/-- A run over them. -/
theorem proc_twoFiles : ∃ a', proc hours readTwo (CDirectoryProc.exactBuf ⟨[], 'F', ⟨0, 0⟩, 0⟩)
    (⟨[], 0, some found⟩, twoFiles.length) start = .ok (true, a') := by
  have hrun : (proc hours readTwo (CDirectoryProc.exactBuf ⟨[], 'F', ⟨0, 0⟩, 0⟩)
      (⟨[], 0, some found⟩, twoFiles.length) start).map Prod.fst = .ok true := rfl
  cases hproc : proc hours readTwo (CDirectoryProc.exactBuf ⟨[], 'F', ⟨0, 0⟩, 0⟩)
      (⟨[], 0, some found⟩, twoFiles.length) start with
  | error e =>
    rw [hproc] at hrun
    cases hrun
  | ok r =>
    rw [hproc] at hrun
    exact ⟨r.2, congrArg Except.ok (Prod.ext (Except.ok.inj hrun) rfl)⟩

end TwoFiles

/-- The records `l` in the order of `getDateTime`, which has no year. -/
structure Ascending (l files : List STFileInfoEx) : Prop where
  perm : files.Perm l
  sorted : files.Pairwise (fun x y => x.stFileTime.m_nDateTime ≤ y.stFileTime.m_nDateTime)

section Directory

variable (newBuf : ℤ → Option (Array (QSort.STSortData STFileInfoEx))) (root : List Char) (nFlag : ℕ)
  (pList : Option (CSList STFileInfoEx)) (l : List STFileInfoEx)

-- A call that ends returns all the records, unless it returns none.
theorem returned_of_ok (hl : CFileUtil.Lists pList l)
    (r : Option (Array (QSort.STSortData STFileInfoEx)) × ℤ)
    (h : CDirectoryProc.getTimeAscendingFileList newBuf (⟨root, nFlag, pList⟩, l.length) = .ok r)
    (hr : r.2 ≠ 0) : Ascending l (CDirectoryProc.returned r) := by
  have hne : l ≠ [] := by
    rintro rfl
    cases h
    exact hr rfl
  cases pList with
  | none => exact absurd hl hne
  | some pList =>
    have hholds : pList.Holds l := hl
    cases hbuf : newBuf (i32 (CDirectoryProc.sizeofSTSortData*l.length)) with
    | none =>
      -- without a buffer the count is 0
      rw [CDirectoryProc.getTimeAscendingFileList, if_neg (by simpa using hne)] at h
      dsimp only at h
      rw [hholds.dense.use, hbuf] at h
      cases h
      exact absurd rfl hr
    | some buf =>
      -- a smaller buffer would be written behind its end
      have hsize : l.length ≤ buf.size := by
        by_contra hsmall
        rw [CDirectoryProc.getTimeAscendingFileList, if_neg (by simpa using hne)] at h
        dsimp only at h
        rw [hholds.dense.use, hbuf] at h
        dsimp only at h
        rw [Int.toNat_natCast, CDirectoryProc.fill_error pList l hholds l.length 0 (Nat.zero_add _) buf
          (Nat.zero_le _) (by omega)] at h
        cases h
      obtain ⟨arr, arr', -, hcells, -, hrearr, hends, hok⟩ :=
        CDirectoryProc.getTimeAscendingFileList_eq pList l newBuf buf root nFlag hholds hne hbuf hsize
      obtain rfl := Except.ok.inj (hok.symm.trans h)
      have hperm := hrearr.take_perm arr arr' _
      rw [hcells] at hperm
      have htime : ∀ s ∈ arr'.toList.take l.length, s.nValue = s.p.stFileTime.m_nDateTime := by
        intro s hs
        obtain ⟨f, -, rfl⟩ := List.mem_map.mp (hperm.mem_iff.mp hs)
        rfl
      have hmap : (l.map CDirectoryProc.sortData).map QSort.STSortData.p = l := by
        rw [List.map_map]
        exact List.map_id l
      constructor
      · have hback := hperm.map QSort.STSortData.p
        rw [hmap] at hback
        exact hback
      · rw [CDirectoryProc.returned, List.pairwise_map]
        apply (hends.take_pairwise arr' l.length).imp_of_mem
        intro x y hx hy hle
        rw [htime x hx, htime y hy] at hle
        exact_mod_cast hle

variable (env : Env) (readNalloc : STFileInfoEx → Option CString) (a a' : Analysis)

-- An analysis that ends has gone through all the records.
theorem procFiles_of_proc (hl : CFileUtil.Lists pList l)
    (h : proc env readNalloc newBuf (⟨root, nFlag, pList⟩, l.length) a = .ok (true, a')) :
    ∃ files, Ascending l files ∧ procFiles env readNalloc files a = .ok a' := by
  obtain ⟨r, hr, h⟩ := (bind_eq_ok _ _ _).mp h
  split_ifs at h with hr0
  · cases h
  obtain ⟨a₁, hfiles, h⟩ := (bind_eq_ok _ _ _).mp h
  cases h
  exact ⟨_, returned_of_ok newBuf root nFlag pList l hl r hr hr0, hfiles⟩

-- At the start the analyzers are those that there are, and the keywords are the ones configured.
theorem standing : Relay.Standing (fun t => (a.m_pAnalyzerList t).isSome) (Kept (keysOf a))
    a.m_pAnalyzerList := by
  refine ⟨fun _ => rfl, fun t st hst => ?_⟩
  cases t with
  | average =>
    intro keys hkeys
    have hkeys : st = some keys := hkeys
    rw [keysOf, hst, hkeys]
    rfl
  | keyValue | extractNToFile | dateTime | betweenLines | sequence => trivial

theorem procFiles_lines (files : List STFileInfoEx)
    (hplain : ∀ f ∈ files, ∀ content ∈ contentOf readNalloc f, Plain content.chars)
    (ha : a.m_szLineBuf.Sane) (h : procFiles env readNalloc files a = .ok a') (t : EAnlysorType)
    (st : State t) (hst : a.m_pAnalyzerList t = some st) :
    ∃ st', a'.m_pAnalyzerList t = some st' ∧
      Relay.alone (parsingLine env) (timeAt env) t (given readNalloc a t files) st = .ok st' := by
  have hgiven := procFiles_given env readNalloc (keysOf a) _ files hplain a a' ha (standing a) h t st hst
  simp only [seen_eq] at hgiven
  exact hgiven

/-- When the analysis of a directory ends, every analyzer has treated the lines that it is given of the
files, in the order of `getDateTime`, as if it were the only one. -/
theorem lines_given (hl : CFileUtil.Lists pList l)
    (hplain : ∀ f ∈ l, ∀ content ∈ contentOf readNalloc f, Plain content.chars) (ha : a.m_szLineBuf.Sane)
    (h : proc env readNalloc newBuf (⟨root, nFlag, pList⟩, l.length) a = .ok (true, a')) :
    ∃ files, Ascending l files ∧
      ∀ t st, a.m_pAnalyzerList t = some st → ∃ st', a'.m_pAnalyzerList t = some st' ∧
        Relay.alone (parsingLine env) (timeAt env) t (given readNalloc a t files) st = .ok st' := by
  obtain ⟨files, hasc, hfiles⟩ :=
    procFiles_of_proc newBuf root nFlag pList l env readNalloc a a' hl h
  exact ⟨files, hasc, procFiles_lines env readNalloc a a' files
    (fun f hf => hplain f (hasc.perm.mem_iff.mp hf)) ha hfiles⟩

theorem lines_given_twoFiles : ∃ a' : Analysis, ∃ files, Ascending twoFiles files ∧
    ∀ t st, start.m_pAnalyzerList t = some st → ∃ st', a'.m_pAnalyzerList t = some st' ∧
      Relay.alone (parsingLine hours) (timeAt hours) t (given readTwo start t files) st = .ok st' := by
  obtain ⟨a', h⟩ := proc_twoFiles
  exact ⟨a', lines_given _ [] 0 (some found) twoFiles hours readTwo start a' lists_found
    (fun f _ => plain_readTwo f) (iff_of_true rfl rfl) h⟩

-- `CAnalyzer_ExtractNToFile` by itself.
theorem alone_extract (lines : List CString) (st : ExtractNToFile.CAnalyzer_ExtractNToFile) :
    Relay.alone (parsingLine env) (timeAt env) .extractNToFile lines st =
      lines.foldlM ExtractNToFile.parsingLine st := by
  change lines.foldlM _ st = _
  congr 1
  funext st line
  change Except.map _ (ExtractNToFile.parsingLine st line >>= _) = _
  cases ExtractNToFile.parsingLine st line <;> rfl

/-- The counts and the log that `CAnalyzer_ExtractNToFile` ends with: each keyword counts the lines given
in which `ehstrstr` finds it, and those of the keywords to be logged are in the log, in their order. -/
theorem extract_counts (hl : CFileUtil.Lists pList l)
    (hplain : ∀ f ∈ l, ∀ content ∈ contentOf readNalloc f, Plain content.chars) (ha : a.m_szLineBuf.Sane)
    (config : List ExtractNToFile.KeywordConfig) (pExtractLog : Option (List CString))
    (hinit : a.m_pAnalyzerList .extractNToFile = ExtractNToFile.initConfig config pExtractLog)
    (h : proc env readNalloc newBuf (⟨root, nFlag, pList⟩, l.length) a = .ok (true, a')) :
    ∃ files, Ascending l files ∧
      ∀ st, ExtractNToFile.initConfig config pExtractLog = some st → a'.m_pAnalyzerList .extractNToFile =
        some (ExtractNToFile.after st (given readNalloc a .extractNToFile files)) := by
  obtain ⟨files, hasc, hfiles⟩ :=
    procFiles_of_proc newBuf root nFlag pList l env readNalloc a a' hl h
  refine ⟨files, hasc, fun st hst => ?_⟩
  obtain ⟨st', hst', halone⟩ := procFiles_lines env readNalloc a a' files
    (fun f hf => hplain f (hasc.perm.mem_iff.mp hf)) ha hfiles .extractNToFile st (hinit.trans hst)
  have hready := ExtractNToFile.ready_initConfig config pExtractLog st hst
  rw [alone_extract, ExtractNToFile.foldlM_parsingLine st _ hready] at halone
  exact hst'.trans (congrArg some (Except.ok.inj halone).symm)

theorem extract_counts_twoFiles : ∃ a' : Analysis, ∃ files, Ascending twoFiles files ∧
    ∀ st, ExtractNToFile.initConfig configA (some []) = some st → a'.m_pAnalyzerList .extractNToFile =
      some (ExtractNToFile.after st (given readTwo start .extractNToFile files)) := by
  obtain ⟨a', h⟩ := proc_twoFiles
  exact ⟨a', extract_counts _ [] 0 (some found) twoFiles hours readTwo start a' lists_found
    (fun f _ => plain_readTwo f) (iff_of_true rfl rfl) configA (some []) rfl h⟩

end Directory

end Leviathan.LogAnalysis
