import Leviathan.DelDirectory
import Leviathan.FileFilter
import Leviathan.FileTime
import Leviathan.Volume

/-! The files of a logger (comLogger.cpp, with `TimeProc` of comCore.cpp): `OpenLogger` and
`__openLogger` open them, `LogPrint` writes to them, `checkChangeProc` goes on to the next one at a new
day or hour or when the file has grown too large, and `checkDeleteProc` removes the old ones.  As compiled
for Windows, where `FILEMOVE` is `MoveFile`, which leaves a file of the new name alone (`rename` of the
other systems replaces it), and where comFileUtil.cpp lists directories. -/
namespace Leviathan.LogRotation

open CFileUtil (tcscpy g_s)

/-- The flag of `m_nLogFlag` that `_setLoggerBasic` sets. -/
inductive LogType
  | daily
  | hourly
  | file
  deriving DecidableEq

/-- The year 10000 begins. -/
def endOfTime : ℕ := 253402300800

/-- What the clock shows: `time(NULL)` and the parts of the local time
that `TimeProc` reads. -/
structure Clock where
  time : ℕ
  date : ℕ
  hour : ℕ
  minute : ℕ
  mday : ℕ
  time_lt : time < endOfTime
  date_lt : date < 10^8
  hour_lt : hour < 24

structure STTodayTime where
  date : ℕ
  hour : ℕ
  minute : ℕ
  mday : ℕ

abbrev Disk := Volume (List Char) Char

/-- The members that the configuration sets. -/
structure LogConfig where
  logType : LogType
  m_pLogDir : List Char
  m_pLogName : List Char
  m_szFileExtension : List Char
  m_nSizeLimit : ℕ
  m_nDeleteInterval : ℕ

structure CLogger extends LogConfig where
  isLogOpen : Bool
  m_nSeq : ℕ
  m_nLogSize : ℕ
  -- the file that the stream is open on
  m_hFile : Option ℕ
  m_szFName : List Char
  -- `m_pLogFileListForDelete->pList`
  pList : Option (List STFileInfoEx)

/-- A text that `LogPrint` has written, the file and the time. -/
structure Print where
  file : ℕ
  text : List Char
  time : ℕ

/-- A logger, the disk that it alone uses, and what the writer thread goes by. -/
structure System where
  logger : CLogger
  -- in `m_pLoggerList`
  isListed : Bool
  gs_today_time : STTodayTime
  now : Clock
  disk : Disk
  -- everything written, in order
  printed : List Print

/-- Whether the calls of `__openLogger` succeed. -/
structure OpenCalls where
  move : Bool
  makeDirectory : Bool
  fopen : Bool

/-- Whether the calls of `checkDeleteProc` succeed, and the names that the enumeration meets (fewer than a
`CSList` has room for), if there is a directory for it. -/
structure DeleteCalls where
  found : Option (List (List Char))
  isDirectory : Bool
  tremove : List Char → Bool

/-- `LOG_FLAG_DAYCHANGE`, `LOG_FLAG_HOURCHANGE` and `LOG_FLAG_MINCHANGE`. -/
structure Flags where
  day : Bool
  hour : Bool
  minute : Bool

section Names

variable (l : LogConfig) (today : STTodayTime)

/-- The name of the current file. -/
def fileName : List Char :=
  match l.logType with
  | .daily =>
    l.m_pLogDir ++ (Nat.toDigits 10 today.date ++ '_' :: l.m_pLogName ++ '.' :: l.m_szFileExtension)
  | .hourly =>
    l.m_pLogDir ++ (Nat.toDigits 10 today.date ++ g_s :: l.m_pLogName ++
      '_' :: DateTime.padded 2 today.hour ++ '.' :: l.m_szFileExtension)
  | .file => l.m_pLogDir ++ (l.m_pLogName ++ '.' :: l.m_szFileExtension)

/-- The name under which a file is put away. -/
def seqName (nSeq : ℕ) : List Char :=
  match l.logType with
  | .daily =>
    l.m_pLogDir ++ (Nat.toDigits 10 today.date ++ '_' :: l.m_pLogName ++ '_' :: Nat.toDigits 10 nSeq ++
      '.' :: l.m_szFileExtension)
  | .hourly =>
    l.m_pLogDir ++ (Nat.toDigits 10 today.date ++ g_s :: l.m_pLogName ++
      '_' :: DateTime.padded 2 today.hour ++ '_' :: Nat.toDigits 10 nSeq ++
      '.' :: l.m_szFileExtension)
  | .file =>
    l.m_pLogDir ++ (l.m_pLogName ++ '_' :: Nat.toDigits 10 nSeq ++ '.' :: l.m_szFileExtension)

end Names

section Open

/-- `renameFile`, when `MoveFile` does not fail for a reason of its own. -/
def renameFile (d : Disk) (pOldFileName pNewFileName : List Char) (move : Bool) : Disk :=
  if move then d.moveFile pOldFileName pNewFileName else d

-- the first lines of `__openLogger`, and `disable`
def closeFile (l : CLogger) : CLogger :=
  { l with
    isLogOpen := l.isLogOpen && l.m_hFile.isNone
    m_hFile := none }

/-- The second half of `__openLogger`: `fopen` with "a+". -/
def openFile (s : System) (pFileName : List Char) (calls : OpenCalls) : System :=
  if calls.makeDirectory then
    if calls.fopen then
      let (disk, file) := s.disk.openAppend pFileName s.now.time
      { s with
        disk
        logger := { s.logger with
          m_hFile := some file
          m_nLogSize := 0
          isLogOpen := true } }
    else s
  else s

/-- `__openLogger`. -/
def openLogger (s : System) (pFileName : List Char) (nSeq : ℕ) (calls : OpenCalls) :
    Except Fault System :=
  let s := { s with logger := closeFile s.logger }
  if nSeq ≠ 0 then
    let disk := renameFile s.disk s.logger.m_szFName pFileName calls.move
    .ok (openFile { s with disk } s.logger.m_szFName calls)
  else if calls.makeDirectory ∧ calls.fopen then do
    let m_szFName ← tcscpy 256 pFileName
    let s := openFile s pFileName calls
    return { s with logger := { s.logger with m_szFName } }
  else .ok (openFile s pFileName calls)

/-- `OpenLogger`. -/
def OpenLogger (s : System) (calls : OpenCalls) : Except Fault System := do
  let szBuf ← tcscpy 128 (fileName s.logger.toLogConfig s.gs_today_time)
  openLogger s szBuf 0 calls

/-- `procLoggerEnable` for a logger that is not enabled; `push_back` succeeds or fails. -/
def procLoggerEnable (s : System) (calls : OpenCalls) (pushed : Bool) : Except Fault System :=
  (if s.logger.isLogOpen then .ok s else OpenLogger s calls).map
    (fun s => { s with isListed := s.isListed || pushed })

/-- `disable`. -/
def disable (s : System) : System :=
  { s with logger := closeFile s.logger }

end Open

section Print

/-- `fprintf` to the open file. -/
def writeFile (s : System) (file : ℕ) (text : List Char) : Except Fault System :=
  if h : file < s.disk.next then
    .ok { s with
      disk := s.disk.append file h text s.now.time
      printed := s.printed ++ [⟨file, text, s.now.time⟩] }
  else .error .wildWrite

/-- `LogPrint(TCHAR *)`; the text is the format of `fprintf`. -/
def LogPrint (s : System) (pLog : List Char) : Except Fault System :=
  match s.logger.m_hFile with
  | none => .ok s
  | some file =>
    if s.logger.isLogOpen then do
      let text ← DateTime.sprintf pLog []
      writeFile s file text
    else .ok s

/-- `addLogSize`. -/
def addLogSize (s : System) (nLen : ℕ) : System :=
  { s with logger := { s.logger with m_nLogSize := u32 (s.logger.m_nLogSize+nLen) } }

end Print

section Delete

-- `gmtime`, and where `getFieldList` puts the words of a filter
variable (gmtime : ℕ → DateTime.STDTime) (addr : ℕ → ℤ)

/-- The characters of a path as bytes. -/
def toCString (s : List Char) : CString :=
  ⟨(s.map (fun c => c.toNat.toUInt8)).takeWhile (fun b => b ≠ 0), fun h => by
    simpa using List.mem_takeWhile_imp h⟩

/-- The filter of `checkDeleteProc` for the names of the enumeration. -/
def isOther (m_szFName pFile : List Char) : Except Fault Bool :=
  FileFilter.filter_stringCompare addr ⟨0, toCString pFile⟩ (some (toCString m_szFName)) none .NSUBSET

/-- `GetFileList` with this filter: the records of the files it finds. -/
def GetFileList (s : System) : List (List Char) → Except Fault (List STFileInfoEx)
  | [] => .ok []
  | pFile :: found =>
    match s.disk.file pFile with
    | none => GetFileList s found
    | some i => do
      let stFileTime ← CFileTime.setFileTime (gmtime (s.disk.time i))
      let keep ← isOther addr s.logger.m_szFName pFile
      let pList ← GetFileList s found
      return if keep then ⟨pFile, 'F', stFileTime.1, (s.disk.content i).length⟩ :: pList else pList

/-- `delDirectory` with a filter for the time: the records that are left, and the disk. -/
def delDirectory (basic : CFileTime) (tremove : List Char → Bool) :
    List STFileInfoEx → Disk → List STFileInfoEx × Disk
  | [], d => ([], d)
  | pFileInfo :: pList, d =>
    if pFileInfo.stFileTime.isCompare basic .LE ∧ tremove pFileInfo.fname ∧
        (d.file pFileInfo.fname).isSome then
      delDirectory basic tremove pList (d.remove pFileInfo.fname)
    else
      let (pList, d) := delDirectory basic tremove pList d
      (pFileInfo :: pList, d)

/-- `delDirectory`, which first looks whether there is the directory. -/
def removeOld (s : System) (pList : List STFileInfoEx) (calls : DeleteCalls) (basic : CFileTime) :
    List STFileInfoEx × Disk :=
  if calls.isDirectory then delDirectory basic calls.tremove pList s.disk else (pList, s.disk)

/-- The second half of `checkDeleteProc`, with a list; an empty list is freed. -/
def deleteOld (s : System) (pList : List STFileInfoEx) (calls : DeleteCalls) : Except Fault System :=
  if s.now.time < s.logger.m_nDeleteInterval then .error .nullRead
  else do
    let basic ← CFileTime.setFileTime (gmtime (s.now.time-s.logger.m_nDeleteInterval))
    let rest := removeOld s pList calls basic.1
    return { s with
      disk := rest.2
      logger := { s.logger with
        pList := if calls.isDirectory ∧ rest.1 = [] then none else some rest.1 } }

/-- `checkDeleteProc`. -/
def checkDeleteProc (s : System) (calls : DeleteCalls) : Except Fault System :=
  match s.logger.pList with
  | some pList => deleteOld gmtime s pList calls
  | none =>
    match calls.found with
    | none => .ok s
    -- the search fails, and the loop goes over a record that has not been written
    | some [] => .error .uninitRead
    | some found => do
      let pList ← GetFileList gmtime addr s found.dedup
      if pList = [] then return s else deleteOld gmtime s pList calls

end Delete

section Change

variable (gmtime : ℕ → DateTime.STDTime) (addr : ℕ → ℤ)

-- `m_nSeq++`
def addSeq (s : System) : System := { s with logger := { s.logger with m_nSeq := s.logger.m_nSeq+1 } }

/-- `procFileSizeOver`; `m_nSeq` is an `int`. -/
def procFileSizeOver (s : System) (calls : OpenCalls) : Except Fault System :=
  if s.logger.m_nSeq+1 < 2^31 then do
    let szFile ← tcscpy 128 (seqName s.logger.toLogConfig s.gs_today_time (s.logger.m_nSeq+1))
    openLogger (addSeq s) szFile (s.logger.m_nSeq+1) calls
  else .error .outOfBounds

/-- The test of the size in `checkChangeProc`. -/
def checkSize (s : System) (calls : OpenCalls) : Except Fault System :=
  if s.logger.m_nSizeLimit ≠ 0 ∧ s.logger.m_nSizeLimit < s.logger.m_nLogSize then
    procFileSizeOver s calls
  else .ok s

/-- The branches of `checkChangeProc` that open the next file. -/
def isNextFile (l : LogConfig) (nFlag : Flags) : Bool :=
  match l.logType with
  | .daily => nFlag.day
  | .hourly => nFlag.hour
  | .file => false

/-- `checkChangeProc`. -/
def checkChangeProc (s : System) (nFlag : Flags) (calls : OpenCalls) (del : DeleteCalls) :
    Except Fault System :=
  if isNextFile s.logger.toLogConfig nFlag then do
    let szFile ← tcscpy 512 (fileName s.logger.toLogConfig s.gs_today_time)
    let s ← openLogger s szFile 0 calls
    return { s with logger := { s.logger with m_nSeq := 0 } }
  else do
    let s ← checkSize s calls
    if s.logger.m_nDeleteInterval ≠ 0 then checkDeleteProc gmtime addr s del else return s

/-- The flags of `TimeProc`. -/
def flags (today : STTodayTime) (now : Clock) : Flags where
  day := now.mday ≠ today.mday
  hour := now.hour ≠ today.hour
  minute := now.minute ≠ today.minute

/-- What `TimeProc` makes of `gs_today_time`: the date is read again when the day is another one. -/
def setToday (today : STTodayTime) (now : Clock) : STTodayTime where
  date := if now.mday ≠ today.mday then now.date else today.date
  hour := now.hour
  minute := now.minute
  mday := now.mday

/-- `TimeProc`, with the logger in the list or not. -/
def TimeProc (s : System) (calls : OpenCalls) (del : DeleteCalls) : Except Fault System :=
  let nFlag := flags s.gs_today_time s.now
  let s := { s with gs_today_time := setToday s.gs_today_time s.now }
  if (nFlag.day || nFlag.hour || nFlag.minute) && s.isListed then
    checkChangeProc gmtime addr s nFlag calls del
  else .ok s

end Change

inductive Act
  | tick (now : Clock)
  | enable (calls : OpenCalls) (pushed : Bool)
  -- `LogPrint` and `addLogSize`
  | print (pLog : List Char)
  | timeProc (calls : OpenCalls) (del : DeleteCalls)
  -- `TimeProc` of another writer thread
  | timeElsewhere
  | disable

section Run

variable (gmtime : ℕ → DateTime.STDTime) (addr : ℕ → ℤ)

def step (s : System) : Act → Except Fault System
  | .tick now => .ok { s with now }
  | .enable calls pushed => procLoggerEnable s calls pushed
  | .print pLog => do return addLogSize (← LogPrint s pLog) (pLog.length+1)
  | .timeProc calls del => TimeProc gmtime addr s calls del
  | .timeElsewhere => .ok { s with gs_today_time := setToday s.gs_today_time s.now }
  | .disable => .ok { disable s with isListed := false }

/-- The step, when nothing in it is undefined. -/
def stepOk (s : System) (a : Act) : Option System := (step gmtime addr s a).toOption

end Run

section Open

/-- What `__openLogger` leaves when it does not open a file. -/
def closed (s : System) (d : Disk) : System := { s with disk := d, logger := closeFile s.logger }

/-- What it leaves when it opens one. -/
def opened (s : System) (d : Disk) (m_szFName : List Char) : System :=
  { s with
    disk := (d.openAppend m_szFName s.now.time).1
    logger := { s.logger with
      m_hFile := some (d.openAppend m_szFName s.now.time).2
      m_nLogSize := 0
      isLogOpen := true
      m_szFName } }

theorem tcscpy_eq_ok (nSize : ℕ) (r r' : List Char) (h : tcscpy nSize r = .ok r') :
    r' = r ∧ r.length < nSize := by
  unfold tcscpy at h
  split_ifs at h with hlen
  exact ⟨(Except.ok.inj h).symm, hlen⟩

/-- `__openLogger` puts the current file away first when there is a sequence number, and opens the name
that it had. -/
theorem openLogger_cases (s t : System) (pFileName : List Char) (nSeq : ℕ) (calls : OpenCalls)
    (h : openLogger s pFileName nSeq calls = .ok t) :
    ∃ d name, (nSeq = 0 ∧ d = s.disk ∧ name = pFileName ∨
        nSeq ≠ 0 ∧ d = renameFile s.disk s.logger.m_szFName pFileName calls.move ∧
          name = s.logger.m_szFName) ∧
      (t = closed s d ∨ t = opened s d name) := by
  unfold openLogger openFile at h
  by_cases hSeq : nSeq = 0
  · refine ⟨s.disk, pFileName, Or.inl ⟨hSeq, rfl, rfl⟩, ?_⟩
    rw [if_neg (not_not.mpr hSeq)] at h
    by_cases hcalls : calls.makeDirectory ∧ calls.fopen
    · rw [if_pos hcalls, if_pos hcalls.1, if_pos hcalls.2] at h
      obtain ⟨szFName, hcopy, ht⟩ := (bind_eq_ok _ _ _).mp h
      rw [(tcscpy_eq_ok _ _ _ hcopy).1] at ht
      exact Or.inr (Except.ok.inj ht).symm
    · rw [if_neg hcalls] at h
      split_ifs at h with hdir hopen
      · exact absurd ⟨hdir, hopen⟩ hcalls
      · exact Or.inl (Except.ok.inj h).symm
      · exact Or.inl (Except.ok.inj h).symm
  · refine ⟨_, _, Or.inr ⟨hSeq, rfl, rfl⟩, ?_⟩
    rw [if_pos hSeq] at h
    split_ifs at h
    · exact Or.inr (Except.ok.inj h).symm
    · exact Or.inl (Except.ok.inj h).symm
    · exact Or.inl (Except.ok.inj h).symm

end Open

section Parts

variable (gmtime : ℕ → DateTime.STDTime) (addr : ℕ → ℤ)

/-- What the steps are made of, apart from the clock. -/
inductive Part : System → System → Prop
  | book (s : System) (isListed : Bool) (m_nSeq m_nLogSize : ℕ) :
    Part s { s with isListed, logger := { s.logger with m_nSeq, m_nLogSize } }
  | close (s : System) : Part s (closed s s.disk)
  | next (s : System) : Part s (opened s s.disk (fileName s.logger.toLogConfig s.gs_today_time))
  | putAway (s : System) (move : Bool) (nSeq : ℕ) :
    Part s (closed s (renameFile s.disk s.logger.m_szFName
      (seqName s.logger.toLogConfig s.gs_today_time nSeq) move))
  | reopen (s : System) : Part s (opened s s.disk s.logger.m_szFName)
  | write (s : System) (file : ℕ) (text : List Char) (hfile : s.logger.m_hFile = some file)
    (h : file < s.disk.next) :
    Part s { s with
      disk := s.disk.append file h text s.now.time
      printed := s.printed ++ [⟨file, text, s.now.time⟩] }
  | delete (s t : System) (pList : List STFileInfoEx) (calls : DeleteCalls)
    (hinterval : s.logger.m_nDeleteInterval ≠ 0)
    (hlist : s.logger.pList = some pList ∨
      s.logger.pList = none ∧ ∃ found, GetFileList gmtime addr s (List.dedup found) = .ok pList)
    (h : deleteOld gmtime s pList calls = .ok t) : Part s t

/-- Parts of a step, one after the other. -/
abbrev Parts := Relation.ReflTransGen (Part gmtime addr)

variable {gmtime addr}

theorem parts_openNext (s t : System) (calls : OpenCalls)
    (h : openLogger s (fileName s.logger.toLogConfig s.gs_today_time) 0 calls = .ok t) :
    Parts gmtime addr s t := by
  obtain ⟨d, name, ⟨-, rfl, rfl⟩ | ⟨hSeq, -⟩, rfl | rfl⟩ := openLogger_cases s t _ _ _ h
  · exact .single (.close s)
  · exact .single (.next s)
  · exact absurd rfl hSeq
  · exact absurd rfl hSeq

theorem parts_procFileSizeOver (s t : System) (calls : OpenCalls)
    (h : procFileSizeOver s calls = .ok t) : Parts gmtime addr s t := by
  unfold procFileSizeOver at h
  split_ifs at h
  obtain ⟨szFile, hprint, h⟩ := (bind_eq_ok _ _ _).mp h
  rw [(tcscpy_eq_ok _ _ _ hprint).1] at h
  have hseq : Part gmtime addr s (addSeq s) := .book s s.isListed _ s.logger.m_nLogSize
  obtain ⟨d, name, ⟨hSeq, -⟩ | ⟨-, rfl, rfl⟩, ht⟩ := openLogger_cases _ t _ _ _ h
  · exact absurd hSeq (Nat.succ_ne_zero _)
  · have hput : Part gmtime addr (addSeq s) _ := .putAway (addSeq s) calls.move (s.logger.m_nSeq+1)
    rcases ht with rfl | rfl
    · exact .tail (.single hseq) hput
    · exact .tail (.tail (.single hseq) hput) (.reopen _)

theorem parts_checkDeleteProc (s t : System) (calls : DeleteCalls)
    (hinterval : s.logger.m_nDeleteInterval ≠ 0) (h : checkDeleteProc gmtime addr s calls = .ok t) :
    Parts gmtime addr s t := by
  unfold checkDeleteProc at h
  split at h
  · rename_i pList hlist
    exact .single (.delete s t pList calls hinterval (Or.inl hlist) h)
  · rename_i hlist
    split at h
    · cases h
      exact .refl
    · cases h
    · rename_i found _ _
      obtain ⟨pList, hget, h⟩ := (bind_eq_ok _ _ _).mp h
      split_ifs at h
      · cases h
        exact .refl
      · exact .single (.delete s t pList calls hinterval (Or.inr ⟨hlist, found, hget⟩) h)

theorem parts_checkSize (s t : System) (calls : OpenCalls) (h : checkSize s calls = .ok t) :
    Parts gmtime addr s t := by
  unfold checkSize at h
  split_ifs at h
  · exact parts_procFileSizeOver s t calls h
  · cases h
    exact .refl

theorem parts_checkChangeProc (s t : System) (nFlag : Flags) (calls : OpenCalls) (del : DeleteCalls)
    (h : checkChangeProc gmtime addr s nFlag calls del = .ok t) : Parts gmtime addr s t := by
  unfold checkChangeProc at h
  by_cases hnext : isNextFile s.logger.toLogConfig nFlag = true
  · rw [if_pos hnext] at h
    obtain ⟨szFile, hprint, h⟩ := (bind_eq_ok _ _ _).mp h
    rw [(tcscpy_eq_ok _ _ _ hprint).1] at h
    obtain ⟨u, hopen, h⟩ := (bind_eq_ok _ _ _).mp h
    cases h
    exact .tail (parts_openNext s u calls hopen) (.book u u.isListed 0 u.logger.m_nLogSize)
  · rw [if_neg hnext] at h
    obtain ⟨u, hsize, h⟩ := (bind_eq_ok _ _ _).mp h
    have hu : Parts gmtime addr s u := parts_checkSize s u calls hsize
    split_ifs at h with hinterval
    · exact hu.trans (parts_checkDeleteProc u t del hinterval h)
    · cases h
      exact hu

theorem parts_LogPrint (s t : System) (pLog : List Char) (h : LogPrint s pLog = .ok t) :
    Parts gmtime addr s t := by
  unfold LogPrint at h
  split at h
  · cases h
    exact .refl
  · rename_i file hfile
    split_ifs at h
    · obtain ⟨text, -, h⟩ := (bind_eq_ok _ _ _).mp h
      unfold writeFile at h
      split_ifs at h with hlt
      cases h
      exact .single (.write s file text hfile hlt)
    · cases h
      exact .refl

/-- What a step does before its parts: the clock goes on, or `gs_today_time` is set. -/
def advance (s : System) : Act → System
  | .tick now => { s with now }
  | .timeProc _ _ | .timeElsewhere => { s with gs_today_time := setToday s.gs_today_time s.now }
  | .enable _ _ | .print _ | .disable => s

theorem parts_step (s t : System) (a : Act) (h : step gmtime addr s a = .ok t) :
    Parts gmtime addr (advance s a) t := by
  cases a with
  | tick now | timeElsewhere =>
    cases h
    exact .refl
  | enable calls pushed =>
    obtain ⟨u, hopen, rfl⟩ := (map_eq_ok _ _ _).mp h
    have hu : Parts gmtime addr s u := by
      split_ifs at hopen
      · cases hopen
        exact .refl
      · obtain ⟨szBuf, hprint, hopen⟩ := (bind_eq_ok _ _ _).mp hopen
        rw [(tcscpy_eq_ok _ _ _ hprint).1] at hopen
        exact parts_openNext s u calls hopen
    exact .tail hu (.book u _ u.logger.m_nSeq u.logger.m_nLogSize)
  | print pLog =>
    obtain ⟨u, hprint, h⟩ := (bind_eq_ok _ _ _).mp h
    cases h
    exact .tail (parts_LogPrint s u pLog hprint) (.book u u.isListed u.logger.m_nSeq _)
  | timeProc calls del =>
    unfold step TimeProc at h
    dsimp only at h
    split_ifs at h
    · exact parts_checkChangeProc _ t _ calls del h
    · cases h
      exact .refl
  | disable =>
    cases h
    exact .tail (.single (.close s)) (.book (closed s s.disk) false s.logger.m_nSeq s.logger.m_nLogSize)

end Parts

end Leviathan.LogRotation
