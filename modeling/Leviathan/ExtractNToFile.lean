import Leviathan.Average

/-! `CAnalyzer_ExtractNToFile` (LogAnalyzer, Analyzer_ExtractNToFile.cpp): how many lines each keyword is
found in, and the lines of some of the keywords in a log of their own. -/
namespace Leviathan.ExtractNToFile

open CmString

open Average (Keyword)

section Model

structure STAnalyzer_Extract where
  pKeyword : Option Keyword
  nTotalCount : ℤ
  bLog : Bool

/-- The list of the keywords, and the lines that were handed to `LogPrint` of `m_pExtractReport`. -/
structure CAnalyzer_ExtractNToFile where
  m_pKeyList : List STAnalyzer_Extract
  m_pExtractReport : Option (List CString)

/-- A pair KEYWORD_i, IS_LINE_TO_LOG_i; without a keyword the configuration is refused. -/
structure KeywordConfig where
  KEYWORD : Option Keyword
  IS_LINE_TO_LOG : ℤ

def newEntry (pKeyword : Keyword) (nRes : ℤ) : STAnalyzer_Extract := ⟨some pKeyword, 0, nRes ≠ 0⟩

/-- The loop of `initConfig`; `none` where it gives up. -/
def initKeys : List KeywordConfig → Option (List STAnalyzer_Extract)
  | [] => some []
  | c :: config =>
    match c.KEYWORD with
    | none => none
    | some pKeyword => (initKeys config).map (newEntry pKeyword c.IS_LINE_TO_LOG :: ·)

/-- `initConfig`, with the log that `g_stConfig` has for the extracted lines. -/
def initConfig (config : List KeywordConfig) (pExtractLog : Option (List CString)) :
    Option CAnalyzer_ExtractNToFile :=
  match initKeys config with
  | none => none
  | some m_pKeyList =>
    if m_pKeyList.any STAnalyzer_Extract.bLog then
      pExtractLog.map (fun pLog => ⟨m_pKeyList, some pLog⟩)
    else some ⟨m_pKeyList, none⟩

/-- Whether `ehstrstr` finds the keyword of the entry. -/
def isFound (pLine : CString) (pStruct : STAnalyzer_Extract) : Bool :=
  match pStruct.pKeyword with
  | none => false
  | some pKeyword => (ehstrstr pLine pKeyword.toCString).isSome

/-- The call of `LogPrint` for an entry whose keyword has been found. -/
def logLine (pLine : CString) (pStruct : STAnalyzer_Extract) (pLog : Option (List CString)) :
    Except Fault (Option (List CString)) :=
  if pStruct.bLog then
    match pLog with
    | none => .error .nullRead
    | some lines => .ok (some (lines ++ [pLine]))
  else .ok pLog

/-- The loop of `parsingLine`. -/
def parsingKeys (pLine : CString) : List STAnalyzer_Extract → Option (List CString) →
    Except Fault (List STAnalyzer_Extract × Option (List CString))
  | [], pLog => .ok ([], pLog)
  | pStruct :: rest, pLog => do
    if isFound pLine pStruct then
      let pLog ← logLine pLine pStruct pLog
      let (rest, pLog) ← parsingKeys pLine rest pLog
      return ({ pStruct with nTotalCount := i32 (pStruct.nTotalCount+1) } :: rest, pLog)
    else
      let (rest, pLog) ← parsingKeys pLine rest pLog
      return (pStruct :: rest, pLog)

/-- `parsingLine`, which always answers true. -/
def parsingLine (a : CAnalyzer_ExtractNToFile) (pLine : CString) :
    Except Fault CAnalyzer_ExtractNToFile := do
  let (m_pKeyList, m_pExtractReport) ← parsingKeys pLine a.m_pKeyList a.m_pExtractReport
  return { m_pKeyList, m_pExtractReport }

end Model

/-- The entry when some more lines have been parsed. -/
def counted (lines : List CString) (e : STAnalyzer_Extract) : STAnalyzer_Extract :=
  { e with nTotalCount := i32 (e.nTotalCount+lines.countP (fun line => isFound line e)) }

/-- A line is logged once for each keyword that is to be logged and found in it. -/
def logged (es : List STAnalyzer_Extract) (line : CString) : List CString :=
  List.replicate (es.countP (fun e => isFound line e && e.bLog)) line

/-- The analyzer after some lines. -/
def after (a : CAnalyzer_ExtractNToFile) (lines : List CString) : CAnalyzer_ExtractNToFile where
  m_pKeyList := a.m_pKeyList.map (counted lines)
  m_pExtractReport := a.m_pExtractReport.map (· ++ lines.flatMap (logged a.m_pKeyList))

/-- The counts are `int`s, and there is a log if a keyword is to be logged. -/
structure Ready (a : CAnalyzer_ExtractNToFile) : Prop where
  count : ∀ e ∈ a.m_pKeyList, i32 e.nTotalCount = e.nTotalCount
  log : a.m_pExtractReport = none → ∀ e ∈ a.m_pKeyList, e.bLog = false

section Entries

variable (line : CString)

theorem logged_cons (e : STAnalyzer_Extract) (es : List STAnalyzer_Extract) : logged (e :: es) line =
    (if isFound line e && e.bLog then [line] else []) ++ logged es line := by
  rw [logged, List.countP_cons, Nat.add_comm]
  split_ifs
  · exact List.replicate_add 1 _ line
  · rw [Nat.zero_add, List.nil_append, logged]

theorem counted_found (e : STAnalyzer_Extract) (h : isFound line e = true) :
    counted [line] e = { e with nTotalCount := i32 (e.nTotalCount+1) } := by
  have hone : [line].countP (fun line => isFound line e) = 1 := List.countP_cons_of_pos h
  rw [counted, hone]
  rfl

theorem counted_missed (e : STAnalyzer_Extract) (hcount : i32 e.nTotalCount = e.nTotalCount)
    (h : isFound line e = false) : counted [line] e = e := by
  have hnone : [line].countP (fun line => isFound line e) = 0 :=
    List.countP_cons_of_neg (Bool.eq_false_iff.mp h)
  rw [counted, hnone, Nat.cast_zero, add_zero, hcount]

theorem logLine_eq (e : STAnalyzer_Extract) (pLog : Option (List CString))
    (hlog : pLog = none → e.bLog = false) :
    logLine line e pLog = .ok (pLog.map (· ++ if e.bLog then [line] else [])) := by
  unfold logLine
  cases hbLog : e.bLog with
  | false => cases pLog <;> simp
  | true =>
    cases pLog with
    | none => cases hbLog.symm.trans (hlog rfl)
    | some lines => rfl

theorem parsingKeys_eq (es : List STAnalyzer_Extract) (pLog : Option (List CString))
    (hcount : ∀ e ∈ es, i32 e.nTotalCount = e.nTotalCount)
    (hlog : pLog = none → ∀ e ∈ es, e.bLog = false) :
    parsingKeys line es pLog = .ok (es.map (counted [line]), pLog.map (· ++ logged es line)) := by
  induction es generalizing pLog with
  | nil => cases pLog <;> simp [parsingKeys, logged]
  | cons e es ih =>
    rw [List.forall_mem_cons] at hcount
    rw [parsingKeys, List.map_cons]
    cases hfound : isFound line e with
    | false =>
      have hrest := ih pLog hcount.2 fun hnone => (List.forall_mem_cons.mp (hlog hnone)).2
      rw [if_neg Bool.false_ne_true, hrest, ok_bind, counted_missed line e hcount.1 hfound, logged_cons,
        hfound]
      rfl
    | true =>
      have hone := logLine_eq line e pLog fun hnone => (List.forall_mem_cons.mp (hlog hnone)).1
      have hrest := ih (pLog.map (· ++ if e.bLog then [line] else [])) hcount.2 fun hnone =>
        (List.forall_mem_cons.mp (hlog (Option.map_eq_none_iff.mp hnone))).2
      rw [if_pos rfl, hone, ok_bind, hrest, ok_bind, counted_found line e hfound, logged_cons, hfound,
        Bool.true_and]
      cases pLog with
      | none => rfl
      | some lines => simp only [Option.map_some, List.append_assoc, pure, Except.pure]

end Entries

section Lines

theorem counted_append (xs ys : List CString) (e : STAnalyzer_Extract) :
    counted ys (counted xs e) = counted (xs ++ ys) e := by
  have hsame : (fun line => isFound line (counted xs e)) = fun line => isFound line e := rfl
  have hsum := i32_i32_add (e.nTotalCount+xs.countP (fun line => isFound line e))
    (ys.countP (fun line => isFound line e))
  rw [counted, hsame, counted, counted]
  dsimp only
  rw [hsum, List.countP_append, Nat.cast_add, add_assoc]

theorem logged_counted (xs : List CString) (es : List STAnalyzer_Extract) :
    logged (es.map (counted xs)) = logged es := by
  funext line
  rw [logged, List.countP_map]
  rfl

theorem ready_after (a : CAnalyzer_ExtractNToFile) (lines : List CString) (h : Ready a) :
    Ready (after a lines) := by
  refine ⟨fun e he => ?_, fun hnone e he => ?_⟩
  · obtain ⟨e, -, rfl⟩ := List.mem_map.mp he
    have hsame := i32_i32_add (e.nTotalCount+lines.countP (fun line => isFound line e)) 0
    rw [add_zero, add_zero] at hsame
    exact hsame
  · obtain ⟨e, hmem, rfl⟩ := List.mem_map.mp he
    exact h.log (Option.map_eq_none_iff.mp hnone) e hmem

theorem after_append (a : CAnalyzer_ExtractNToFile) (xs ys : List CString) :
    after (after a xs) ys = after a (xs ++ ys) := by
  have hcomp : counted ys ∘ counted xs = counted (xs ++ ys) := funext (counted_append xs ys)
  rw [after, after, after, List.map_map, hcomp, logged_counted, List.flatMap_append]
  dsimp only
  rw [Option.map_map]
  congr 2
  funext log
  exact List.append_assoc log _ _

theorem after_nil (a : CAnalyzer_ExtractNToFile) (h : Ready a) : after a [] = a := by
  have hkeys : a.m_pKeyList.map (counted []) = a.m_pKeyList := by
    refine (List.map_congr_left fun e he => ?_).trans (List.map_id _)
    rw [counted, List.countP_nil, Nat.cast_zero, add_zero, h.count e he, id]
  have hlog : a.m_pExtractReport.map (· ++ ([] : List CString)) = a.m_pExtractReport := by
    cases a.m_pExtractReport <;> simp
  rw [after, hkeys, List.flatMap_nil, hlog]

theorem parsingLine_eq (a : CAnalyzer_ExtractNToFile) (line : CString) (h : Ready a) :
    parsingLine a line = .ok (after a [line]) := by
  rw [parsingLine, parsingKeys_eq line _ _ h.count h.log, ok_bind, after, List.flatMap_singleton]
  rfl

/-- Each keyword counts the lines that it is found in, and the lines that are to be logged are logged in
their order. -/
theorem foldlM_parsingLine (a : CAnalyzer_ExtractNToFile) (lines : List CString) (h : Ready a) :
    lines.foldlM parsingLine a = .ok (after a lines) := by
  induction lines using List.reverseRecOn with
  | nil => rw [after_nil a h, List.foldlM_nil]; rfl
  | append_singleton lines line ih =>
    rw [List.foldlM_append, ih, ok_bind, List.foldlM_cons, parsingLine_eq _ line (ready_after a lines h),
      ok_bind, after_append]
    rfl

-- What `initConfig` leaves is ready, and all counts are 0.
theorem initKeys_spec (config : List KeywordConfig) (es : List STAnalyzer_Extract)
    (h : initKeys config = some es) :
    es.map STAnalyzer_Extract.pKeyword = config.map KeywordConfig.KEYWORD ∧
      ∀ e ∈ es, e.nTotalCount = 0 := by
  induction config generalizing es with
  | nil =>
    cases h
    exact ⟨rfl, nofun⟩
  | cons c config ih =>
    rw [initKeys] at h
    cases hkey : c.KEYWORD with
    | none =>
      rw [hkey] at h
      cases h
    | some pKeyword =>
      rw [hkey] at h
      obtain ⟨rest, hrest, rfl⟩ := Option.map_eq_some_iff.mp h
      obtain ⟨hkeys, hzero⟩ := ih rest hrest
      refine ⟨?_, List.forall_mem_cons.mpr ⟨rfl, hzero⟩⟩
      rw [List.map_cons, List.map_cons, hkeys, hkey]
      rfl

theorem ready_initConfig (config : List KeywordConfig) (pExtractLog : Option (List CString))
    (a : CAnalyzer_ExtractNToFile) (h : initConfig config pExtractLog = some a) : Ready a := by
  unfold initConfig at h
  cases hkeys : initKeys config with
  | none =>
    rw [hkeys] at h
    cases h
  | some es =>
    have hzero := (initKeys_spec config es hkeys).2
    simp only [hkeys] at h
    split_ifs at h with hany
    · obtain ⟨pLog, -, rfl⟩ := Option.map_eq_some_iff.mp h
      refine ⟨fun e he => ?_, nofun⟩
      rw [hzero e he]
      rfl
    · cases h
      refine ⟨fun e he => ?_, fun _ e he => ?_⟩
      · rw [hzero e he]
        rfl
      · exact Bool.eq_false_iff.mpr fun hlog => hany (List.any_eq_true.mpr ⟨e, he, hlog⟩)

end Lines

end Leviathan.ExtractNToFile
