import Leviathan.SList

/-! `CFileUtil::GetFileList` (comFileUtil.cpp), with the Windows functions of comFileTypes.h. -/
namespace Leviathan

inductive EOperator
  | none
  | EQ
  | NE
  | GT
  | LT
  | GE
  | LE
  | SUBSET
  | NSUBSET
  | MAX
  deriving DecidableEq, Repr

/-- A file time: the year, and month to second as one decimal number. -/
structure CFileTime where
  m_nYear : ℕ
  m_nDateTime : ℕ
  deriving DecidableEq

structure STFileInfoEx where
  fname : List Char
  stat : Char
  stFileTime : CFileTime
  nSize : ℕ
  deriving DecidableEq

/-- `WIN32_FIND_DATA`; the write time is given as `CFileTime::setFileTime` reads it. -/
structure JFILEDATA where
  cFileName : List Char
  dwFileAttributes : ℕ
  ftLastWriteTime : CFileTime
  nFileSizeLow : ℕ
  deriving DecidableEq

/-- The file system: the attributes of a path, and what matches a search pattern. -/
structure FileSystem where
  GetFileAttributes : List Char → ℕ
  find : List Char → List JFILEDATA

namespace CFileUtil

section Model

def SAVE_FULLPATH : ℕ := 1

def HAS_DIRNAME : ℕ := 2

def DIR_RECURSIVE : ℕ := 4

def FILE_ATTRIBUTE_DIRECTORY : ℕ := 0x10

/-- The separator of paths. -/
def g_s : Char := '\\'

structure STFileList where
  root : List Char
  nFlag : ℕ
  pList : Option (CSList STFileInfoEx)

variable (fs : FileSystem) (pFilter : Option (List Char → CFileTime → Bool))

def com_isDirectory (dir : List Char) : Bool := fs.GetFileAttributes dir == FILE_ATTRIBUTE_DIRECTORY

def jISDIR (file : JFILEDATA) : Bool := file.dwFileAttributes &&& FILE_ATTRIBUTE_DIRECTORY != 0

/-- A string written to a local buffer of `nSize` characters. -/
def tcscpy (nSize : ℕ) (s : List Char) : Except Fault (List Char) :=
  if s.length < nSize then .ok s else .error .outOfBounds

/-- `IsExistDirectory(dirName)`: the search pattern it leaves in `dirName`. -/
def IsExistDirectory (dirName : List Char) : Except Fault (Option (List Char)) := do
  if com_isDirectory fs dirName then return some (← tcscpy 128 (dirName ++ ['*', '.', '*']))
  return none

def appendFileList (flist : Option (CSList STFileInfoEx)) (fname : List Char) (ftype : Char)
    (pFileTime : CFileTime) (nSize : ℕ) : Except Fault (CSList STFileInfoEx) := do
  let fList := flist.getD (CSList.init.alloc 64 .alloc true)
  let (fList, _) ← fList.pushBack ⟨fname, ftype, pFileTime, nSize⟩ true
  return fList

/-- The end of a pass: the filter, and the new record. -/
def filterNAppend (acc : Option (CSList STFileInfoEx) × ℕ) (pFileName : List Char) (nStat : Char)
    (file : JFILEDATA) : Except Fault (Option (CSList STFileInfoEx) × ℕ) := do
  if pFilter.all (fun pFunc => pFunc pFileName file.ftLastWriteTime) then
    let fList ← appendFileList acc.1 pFileName nStat file.ftLastWriteTime file.nFileSizeLow
    return (some fList, acc.2+1)
  return acc

/-- The recursive call `sub` for a sub-directory; `acc` is `pResult->pList` and `nCount`. -/
def subDir (sub : STFileList → Except Fault (STFileList × ℕ)) (szFullPathName : List Char) (nFlag : ℕ)
    (acc : Option (CSList STFileInfoEx) × ℕ) : Except Fault (Option (CSList STFileInfoEx) × ℕ) :=
  if nFlag &&& DIR_RECURSIVE ≠ 0 then do
    let (stSubDir, n) ← sub ⟨szFullPathName, nFlag, acc.1⟩
    -- A list that exists already is one object, which the call has extended.
    return (if acc.1.isSome || acc.2+n != 0 then stSubDir.pList else acc.1, acc.2+n)
  else .ok acc

/-- One pass of the loop. -/
def visit (sub : STFileList → Except Fault (STFileList × ℕ)) (root : List Char) (nFlag : ℕ)
    (acc : Option (CSList STFileInfoEx) × ℕ) (file : JFILEDATA) :
    Except Fault (Option (CSList STFileInfoEx) × ℕ) :=
  if file.cFileName = ['.'] ∨ file.cFileName = ['.', '.'] then .ok acc
  else if jISDIR file then do
    let szFullPathName ← tcscpy 256 (root ++ file.cFileName ++ [g_s])
    let acc ← subDir sub szFullPathName nFlag acc
    if nFlag &&& HAS_DIRNAME ≠ 0 then
      filterNAppend pFilter acc
        (if nFlag &&& SAVE_FULLPATH ≠ 0 then szFullPathName else file.cFileName) 'D' file
    else return acc
  else if nFlag &&& SAVE_FULLPATH ≠ 0 then do
    let szFullPathName ← tcscpy 256 (root ++ file.cFileName)
    filterNAppend pFilter acc szFullPathName 'F' file
  else filterNAppend pFilter acc file.cFileName 'F' file

/-- `GetFileList`; the fuel bounds the depth of the recursion. -/
def GetFileList : ℕ → STFileList → Except Fault (STFileList × ℕ)
  | 0, _ => .error .diverges
  | fuel+1, pResult => do
    let dirName ← tcscpy 128 pResult.root
    match ← IsExistDirectory fs dirName with
    | none => return (pResult, 0)
    | some dirName =>
      -- Without a match `com_findFirstFile` answers INVALID_HANDLE_VALUE, the largest address, which
      -- `0 >= dir` does not catch, and the first pass looks at a record that nothing has been written to.
      if fs.find dirName = [] then .error .uninitRead
      else
        let acc ← (fs.find dirName).foldlM
          (visit pFilter (GetFileList fuel) pResult.root pResult.nFlag) (pResult.pList, 0)
        return ({ pResult with pList := acc.1 }, acc.2)

end Model

/-- What a directory contains, in the order of the enumeration. -/
inductive Entries
  | nil
  | file (d : JFILEDATA) (rest : Entries)
  | dir (d : JFILEDATA) (children rest : Entries)

namespace Entries

def data : Entries → List JFILEDATA
  | nil => []
  | file d rest => d :: rest.data
  | dir d _ rest => d :: rest.data

def depth : Entries → ℕ
  | nil => 0
  | file _ rest => rest.depth
  | dir _ children rest => max (children.depth+1) rest.depth

/-- The entries with the directories they lie in; those of a sub-directory, when they are asked for,
come before it. -/
def located (recursive : Bool) (root : List Char) : Entries → List (List Char × JFILEDATA)
  | nil => []
  | file d rest => (root, d) :: rest.located recursive root
  | dir d children rest =>
    (if recursive then children.located recursive (root ++ d.cFileName ++ [g_s]) else []) ++
      (root, d) :: rest.located recursive root

end Entries

/-- The directory `root` can be searched and has the entries `data`, besides itself and its parent. -/
structure DirectoryAt (fs : FileSystem) (root : List Char) (data : List JFILEDATA) : Prop where
  directory : com_isDirectory fs root = true
  fits : root.length+3 < 128
  entries : (fs.find (root ++ ['*', '.', '*'])).filter
    (fun d => decide ¬(d.cFileName = ['.'] ∨ d.cFileName = ['.', '.'])) = data

theorem DirectoryAt.noDots {fs : FileSystem} {root : List Char} {data : List JFILEDATA}
    (h : DirectoryAt fs root data) : ∀ d ∈ data, ¬(d.cFileName = ['.'] ∨ d.cFileName = ['.', '.']) := by
  intro d hd
  rw [← h.entries] at hd
  exact of_decide_eq_true (List.mem_filter.mp hd).2

/-- Below `root` the file system is the tree `es`, and all paths fit the buffers. -/
def Mounted (fs : FileSystem) (root : List Char) : Entries → Prop
  | .nil => True
  | .file d rest => jISDIR d = false ∧ (root ++ d.cFileName).length < 256 ∧ Mounted fs root rest
  | .dir d children rest => jISDIR d = true ∧
    DirectoryAt fs (root ++ d.cFileName ++ [g_s]) children.data ∧
    Mounted fs (root ++ d.cFileName ++ [g_s]) children ∧ Mounted fs root rest

/-- The record of an entry `d` of the directory `root`. -/
def record (nFlag : ℕ) (root : List Char) (d : JFILEDATA) : STFileInfoEx where
  fname := if nFlag &&& SAVE_FULLPATH = 0 then d.cFileName
    else root ++ d.cFileName ++ if jISDIR d then [g_s] else []
  stat := if jISDIR d then 'D' else 'F'
  stFileTime := d.ftLastWriteTime
  nSize := d.nFileSizeLow

/-- Every file is wanted, a directory only with `HAS_DIRNAME`; and the filter has to let it pass. -/
def wanted (pFilter : Option (List Char → CFileTime → Bool)) (nFlag : ℕ) (r : STFileInfoEx) : Bool :=
  (r.stat = 'F' || nFlag &&& HAS_DIRNAME != 0) &&
    pFilter.all (fun pFunc => pFunc r.fname r.stFileTime)

/-- The records of the tree `es` at `root`. -/
def records (pFilter : Option (List Char → CFileTime → Bool)) (nFlag : ℕ) (root : List Char)
    (es : Entries) : List STFileInfoEx :=
  ((es.located (nFlag &&& DIR_RECURSIVE != 0) root).map (fun e => record nFlag e.1 e.2)).filter
    (wanted pFilter nFlag)

/-- The list holds `xs`; it does not exist before the first record. -/
def Lists (pList : Option (CSList STFileInfoEx)) (xs : List STFileInfoEx) : Prop :=
  match pList with
  | none => xs = []
  | some l => l.Holds xs

/-- Something matches in every directory that is searched below `root`, if only the directory itself and
its parent. -/
def Matched (fs : FileSystem) (recursive : Bool) (root : List Char) : Entries → Prop
  | .nil => True
  | .file _ rest => Matched fs recursive root rest
  | .dir d children rest =>
    (recursive = true → fs.find (root ++ d.cFileName ++ [g_s] ++ ['*', '.', '*']) ≠ [] ∧
      Matched fs recursive (root ++ d.cFileName ++ [g_s]) children) ∧
    Matched fs recursive root rest

section Enumeration

variable (fs : FileSystem) (pFilter : Option (List Char → CFileTime → Bool)) (nFlag : ℕ)

/-- The list holds `xs` and can grow as far as a list of 64 objects. -/
def Built (pList : Option (CSList STFileInfoEx)) (xs : List STFileInfoEx) : Prop :=
  match pList with
  | none => xs = []
  | some l => l.HoldsUpTo (largestMax 64) xs

theorem Built.lists (pList : Option (CSList STFileInfoEx)) (xs : List STFileInfoEx)
    (h : Built pList xs) : Lists pList xs := by
  cases pList with
  | none => exact h
  | some l => exact CSList.HoldsUpTo.holds h

theorem Built.getD (pList : Option (CSList STFileInfoEx)) (xs : List STFileInfoEx)
    (h : Built pList xs) :
    (pList.getD (CSList.init.alloc 64 .alloc true)).HoldsUpTo (largestMax 64) xs := by
  cases pList with
  | none =>
    rw [show xs = [] from h]
    exact CSList.holdsUpTo_alloc 64 .alloc
  | some l => exact h

theorem Built.length_le (pList : Option (CSList STFileInfoEx)) (xs : List STFileInfoEx)
    (h : Built pList xs) : xs.length ≤ largestMax 64 := by
  have hl := Built.getD pList xs h
  rw [← hl.largest]
  exact hl.holds.dense.le_max.trans (le_largestMax _)

/-- The records `new` have been put after `xs`, and counted, exactly if everything that is searched for
them has a match and the list has room for them. -/
def Appended (matched : Prop) (r : Except Fault (Option (CSList STFileInfoEx) × ℕ))
    (xs new : List STFileInfoEx) (n : ℕ) : Prop :=
  ((matched ∧ xs.length+new.length ≤ largestMax 64) ∧
    ∃ pList, r = .ok (pList, n+new.length) ∧ Built pList (xs ++ new)) ∨
  (¬(matched ∧ xs.length+new.length ≤ largestMax 64) ∧ ∃ e, r = .error e)

-- Nothing is searched for and nothing is put.
theorem appended_nil (pList : Option (CSList STFileInfoEx)) (xs : List STFileInfoEx) (n : ℕ)
    (h : Built pList xs) : Appended True (.ok (pList, n)) xs [] n :=
  Or.inl ⟨⟨trivial, Built.length_le pList xs h⟩, pList, rfl, by rwa [List.append_nil]⟩

theorem appendFileList_built (pList : Option (CSList STFileInfoEx)) (xs : List STFileInfoEx)
    (r : STFileInfoEx) (h : Built pList xs) (hroom : xs.length < largestMax 64) :
    ∃ l, appendFileList pList r.fname r.stat r.stFileTime r.nSize = .ok l ∧
      Built (some l) (xs ++ [r]) := by
  obtain ⟨l, hpush, hl⟩ := (Built.getD pList xs h).pushBack r hroom
  refine ⟨l, ?_, hl⟩
  rw [appendFileList, hpush, ok_bind]
  rfl

theorem appendFileList_over (pList : Option (CSList STFileInfoEx)) (xs : List STFileInfoEx)
    (r : STFileInfoEx) (h : Built pList xs) (hfull : largestMax 64 ≤ xs.length) :
    appendFileList pList r.fname r.stat r.stFileTime r.nSize = .error .outOfBounds := by
  have hl := Built.getD pList xs h
  rw [appendFileList, CSList.pushBack_over _ xs r true hl.holds (hl.largest.symm ▸ hfull)]
  rfl

theorem appendFileList_appended (pList : Option (CSList STFileInfoEx)) (n : ℕ)
    (xs : List STFileInfoEx) (r : STFileInfoEx) (h : Built pList xs) :
    Appended True ((appendFileList pList r.fname r.stat r.stFileTime r.nSize).map
      (fun fList => (some fList, n+1))) xs [r] n := by
  rcases lt_or_ge xs.length (largestMax 64) with hroom | hfull
  · obtain ⟨l, happend, hl⟩ := appendFileList_built pList xs r h hroom
    exact Or.inl ⟨⟨trivial, hroom⟩, some l, by rw [happend]; rfl, hl⟩
  · refine Or.inr ⟨fun hfits => absurd hfits.2 (not_le.mpr (Nat.lt_succ_of_le hfull)), .outOfBounds, ?_⟩
    rw [appendFileList_over pList xs r h hfull]
    rfl

theorem filterNAppend_appended (pList : Option (CSList STFileInfoEx)) (n : ℕ)
    (xs : List STFileInfoEx) (root : List Char) (d : JFILEDATA) (h : Built pList xs)
    (hkind : jISDIR d = true → nFlag &&& HAS_DIRNAME ≠ 0) :
    Appended True
      (filterNAppend pFilter (pList, n) (record nFlag root d).fname (record nFlag root d).stat d)
      xs ([record nFlag root d].filter (wanted pFilter nFlag)) n := by
  have hwanted : wanted pFilter nFlag (record nFlag root d) =
      pFilter.all (fun pFunc => pFunc (record nFlag root d).fname d.ftLastWriteTime) := by
    unfold wanted
    have hstat : (decide ((record nFlag root d).stat = 'F') || nFlag &&& HAS_DIRNAME != 0) = true := by
      by_cases hd : jISDIR d = true
      · simp [hkind hd]
      · simp [record, hd]
    rw [hstat, Bool.true_and]
    rfl
  unfold filterNAppend
  by_cases hpass : pFilter.all (fun pFunc => pFunc (record nFlag root d).fname d.ftLastWriteTime) = true
  · rw [if_pos hpass, List.filter_cons_of_pos (by rw [hwanted, hpass])]
    exact appendFileList_appended pList n xs (record nFlag root d) h
  · rw [if_neg hpass, List.filter_cons_of_neg (by rw [hwanted]; exact hpass)]
    exact appended_nil pList xs n h

theorem Appended.bind {s t : Prop} {r : Except Fault (Option (CSList STFileInfoEx) × ℕ)}
    {f : Option (CSList STFileInfoEx) × ℕ → Except Fault (Option (CSList STFileInfoEx) × ℕ)}
    {xs a b : List STFileInfoEx} {n : ℕ} (hr : Appended s r xs a n)
    (hf : ∀ pList, Built pList (xs ++ a) → Appended t (f (pList, n+a.length)) (xs ++ a) b (n+a.length)) :
    Appended (s ∧ t) (r >>= f) xs (a ++ b) n := by
  have hlen : xs.length+(a ++ b).length = (xs ++ a).length+b.length := by
    rw [List.length_append, List.length_append, Nat.add_assoc]
  rcases hr with ⟨⟨hs, -⟩, pList, hok, hl⟩ | ⟨hbad, e, herror⟩
  · rw [hok, ok_bind]
    rcases hf pList hl with ⟨⟨ht, hfits⟩, pList', hok', hl'⟩ | ⟨hbad, e, herror⟩
    · refine Or.inl ⟨⟨⟨hs, ht⟩, hlen.trans_le hfits⟩, pList', ?_, ?_⟩
      · rw [hok', List.length_append, Nat.add_assoc]
      · rwa [← List.append_assoc]
    · exact Or.inr ⟨fun h => hbad ⟨h.1.2, hlen.symm.trans_le h.2⟩, e, herror⟩
  · refine Or.inr ⟨fun h => hbad ⟨h.1.1, le_trans ?_ h.2⟩, e, by rw [herror]; rfl⟩
    rw [List.length_append]
    omega

-- Only what is searched for counts.
theorem Appended.congr {s t : Prop} {r : Except Fault (Option (CSList STFileInfoEx) × ℕ)}
    {xs new : List STFileInfoEx} {n : ℕ} (hr : Appended s r xs new n) (hst : s ↔ t) :
    Appended t r xs new n :=
  propext hst ▸ hr

theorem records_file (root : List Char) (d : JFILEDATA) (rest : Entries) :
    records pFilter nFlag root (.file d rest) =
      [record nFlag root d].filter (wanted pFilter nFlag) ++ records pFilter nFlag root rest := by
  simp only [records, Entries.located, List.map_cons, ← List.filter_append, List.singleton_append]

theorem records_dir (root : List Char) (d : JFILEDATA) (children rest : Entries) :
    records pFilter nFlag root (.dir d children rest) =
      (if nFlag &&& DIR_RECURSIVE ≠ 0 then
        records pFilter nFlag (root ++ d.cFileName ++ [g_s]) children else []) ++
      ([record nFlag root d].filter (wanted pFilter nFlag) ++ records pFilter nFlag root rest) := by
  unfold records
  by_cases hrec : nFlag &&& DIR_RECURSIVE = 0
  · simp [Entries.located, hrec, ← List.filter_append]
  · simp [Entries.located, hrec, ← List.filter_append]

/-- What a call of `GetFileList` for the directory `root` with the entries `es` has to do. -/
def Enumerates (matched : Prop) (call : STFileList → Except Fault (STFileList × ℕ)) (root : List Char)
    (new : List STFileInfoEx) : Prop :=
  ∀ pList xs, Built pList xs →
    ((matched ∧ xs.length+new.length ≤ largestMax 64) ∧ ∃ pList',
      call ⟨root, nFlag, pList⟩ = .ok (⟨root, nFlag, pList'⟩, new.length) ∧ Built pList' (xs ++ new)) ∨
    (¬(matched ∧ xs.length+new.length ≤ largestMax 64) ∧ ∃ e, call ⟨root, nFlag, pList⟩ = .error e)

theorem tcscpy_eq (nSize : ℕ) (s : List Char) (h : s.length < nSize) : tcscpy nSize s = .ok s :=
  if_pos h

-- The record of the entry itself, and then the entries after it.
theorem visit_file (sub : STFileList → Except Fault (STFileList × ℕ)) (root : List Char) (d : JFILEDATA)
    (hdot : ¬(d.cFileName = ['.'] ∨ d.cFileName = ['.', '.'])) (hfile : jISDIR d = false)
    (hfits : (root ++ d.cFileName).length < 256) (pList : Option (CSList STFileInfoEx))
    (xs : List STFileInfoEx) (n : ℕ) (h : Built pList xs) :
    Appended True (visit pFilter sub root nFlag (pList, n) d) xs
      ([record nFlag root d].filter (wanted pFilter nFlag)) n := by
  have happ := filterNAppend_appended pFilter nFlag pList n xs root d h (by simp [hfile])
  simp only [visit, if_neg hdot, hfile, Bool.false_eq_true, if_false]
  by_cases hfull : nFlag &&& SAVE_FULLPATH = 0
  · simpa [record, hfile, hfull] using happ
  · simpa [record, hfile, hfull, tcscpy_eq _ _ hfits, ok_bind] using happ

theorem subDir_appended (sub : STFileList → Except Fault (STFileList × ℕ)) (matched : Prop)
    (root : List Char) (below : List STFileInfoEx)
    (hsub : nFlag &&& DIR_RECURSIVE ≠ 0 → Enumerates nFlag matched sub root below)
    (pList : Option (CSList STFileInfoEx)) (xs : List STFileInfoEx) (n : ℕ) (h : Built pList xs) :
    Appended (nFlag &&& DIR_RECURSIVE ≠ 0 → matched) (subDir sub root nFlag (pList, n)) xs
      (if nFlag &&& DIR_RECURSIVE ≠ 0 then below else []) n := by
  unfold subDir
  split_ifs with hrec
  · have hmatched : (nFlag &&& DIR_RECURSIVE ≠ 0 → matched) ↔ matched := forall_prop_of_true hrec
    rw [hmatched]
    rcases hsub hrec pList xs h with ⟨hfits, pList', hok, hl⟩ | ⟨hbad, e, herror⟩
    · refine Or.inl ⟨hfits, ?_⟩
      rw [hok, ok_bind]
      dsimp only
      by_cases hsome : (pList.isSome || n+below.length != 0) = true
      · rw [if_pos hsome]
        exact ⟨pList', rfl, hl⟩
      · rw [if_neg hsome]
        have hzero : pList = none ∧ n = 0 ∧ below = [] := by
          simpa using hsome
        refine ⟨pList, rfl, ?_⟩
        rw [hzero.2.2, List.append_nil]
        exact h
    · exact Or.inr ⟨hbad, e, by rw [herror]; rfl⟩
  · exact (appended_nil pList xs n h).congr ⟨fun _ hr => absurd hr hrec, fun _ => trivial⟩

theorem visit_dir (sub : STFileList → Except Fault (STFileList × ℕ)) (matched : Prop) (root : List Char)
    (d : JFILEDATA) (hdot : ¬(d.cFileName = ['.'] ∨ d.cFileName = ['.', '.'])) (hdir : jISDIR d = true)
    (hfits : (root ++ d.cFileName ++ [g_s]).length < 256) (below : List STFileInfoEx)
    (hsub : nFlag &&& DIR_RECURSIVE ≠ 0 →
      Enumerates nFlag matched sub (root ++ d.cFileName ++ [g_s]) below)
    (pList : Option (CSList STFileInfoEx)) (xs : List STFileInfoEx) (n : ℕ) (h : Built pList xs) :
    Appended (nFlag &&& DIR_RECURSIVE ≠ 0 → matched) (visit pFilter sub root nFlag (pList, n) d) xs
      ((if nFlag &&& DIR_RECURSIVE ≠ 0 then below else []) ++
        [record nFlag root d].filter (wanted pFilter nFlag)) n := by
  have hbelow := subDir_appended nFlag sub matched _ below hsub pList xs n h
  simp only [visit, if_neg hdot, hdir, if_true, tcscpy_eq _ _ hfits, ok_bind]
  refine (hbelow.bind ?_).congr (and_iff_left trivial)
  intro pList' hl
  by_cases hname : nFlag &&& HAS_DIRNAME = 0
  · rw [if_neg (by simpa using hname)]
    have hnone : [record nFlag root d].filter (wanted pFilter nFlag) = [] := by
      simp [record, wanted, hdir, hname]
    rw [hnone]
    exact appended_nil pList' _ _ hl
  · rw [if_pos hname]
    have happ (m : ℕ) := filterNAppend_appended pFilter nFlag pList' m _ root d hl (fun _ => hname)
    by_cases hfull : nFlag &&& SAVE_FULLPATH = 0
    · simpa [record, hdir, hfull] using happ _
    · simpa [record, hdir, hfull] using happ _

/-- The loop of a call with `fuel` left for the calls in it. -/
def loop (fuel : ℕ) (root : List Char) (acc : Option (CSList STFileInfoEx) × ℕ)
    (files : List JFILEDATA) : Except Fault (Option (CSList STFileInfoEx) × ℕ) :=
  files.foldlM (visit pFilter (GetFileList fs pFilter fuel) root nFlag) acc

-- A call passes the entries for the directory and its parent over.
theorem foldlM_visit_find (fuel : ℕ) (root : List Char) (acc : Option (CSList STFileInfoEx) × ℕ)
    (data : List JFILEDATA) (hdir : DirectoryAt fs root data) :
    (fs.find (root ++ ['*', '.', '*'])).foldlM
      (visit pFilter (GetFileList fs pFilter fuel) root nFlag) acc =
      loop fs pFilter nFlag fuel root acc data := by
  rw [loop, ← hdir.entries, List.foldlM_filter]
  congr 1
  funext acc d
  by_cases hdot : d.cFileName = ['.'] ∨ d.cFileName = ['.', '.']
  · rw [visit, if_pos hdot, if_neg (by rw [decide_eq_true_iff]; exact not_not.mpr hdot)]
    rfl
  · rw [if_pos (decide_eq_true hdot)]

theorem enumerates_succ (matched : Prop) (fuel : ℕ) (root : List Char) (es : Entries)
    (hdir : DirectoryAt fs root es.data)
    (hloop : ∀ pList xs, Built pList xs →
      Appended matched (loop fs pFilter nFlag fuel root (pList, 0) es.data) xs
        (records pFilter nFlag root es) 0) :
    Enumerates nFlag (fs.find (root ++ ['*', '.', '*']) ≠ [] ∧ matched)
      (GetFileList fs pFilter (fuel+1)) root (records pFilter nFlag root es) := by
  intro pList xs hl
  have hfits := hdir.fits
  have hpattern : IsExistDirectory fs root = .ok (some (root ++ ['*', '.', '*'])) := by
    rw [IsExistDirectory, if_pos hdir.directory, tcscpy_eq _ _ (by simpa using hfits), ok_bind]
    rfl
  have hroot : root.length < 128 := by
    omega
  rw [GetFileList, tcscpy_eq _ _ hroot, ok_bind]
  dsimp only
  rw [hpattern, ok_bind]
  dsimp only
  by_cases hfind : fs.find (root ++ ['*', '.', '*']) = []
  · rw [if_pos hfind]
    exact Or.inr ⟨fun h => h.1.1 hfind, _, rfl⟩
  rw [if_neg hfind, foldlM_visit_find fs pFilter nFlag fuel root _ es.data hdir]
  rcases hloop pList xs hl with ⟨⟨hmatched, hfits⟩, pList', hok, hl'⟩ | ⟨hbad, e, herror⟩
  · refine Or.inl ⟨⟨⟨hfind, hmatched⟩, hfits⟩, pList', ?_, hl'⟩
    rw [hok, ok_bind, Nat.zero_add]
    rfl
  · exact Or.inr ⟨fun h => hbad ⟨h.1.2, h.2⟩, e, by rw [herror]; rfl⟩

-- Induction on the tree: a sub-directory's call has one level less to go.
theorem loop_appended (es : Entries) (fuel : ℕ) (hfuel : es.depth ≤ fuel) (root : List Char)
    (hm : Mounted fs root es)
    (hdot : ∀ d ∈ es.data, ¬(d.cFileName = ['.'] ∨ d.cFileName = ['.', '.']))
    (pList : Option (CSList STFileInfoEx)) (xs : List STFileInfoEx) (n : ℕ) (hl : Built pList xs) :
    Appended (Matched fs (nFlag &&& DIR_RECURSIVE != 0) root es)
      (loop fs pFilter nFlag fuel root (pList, n) es.data) xs (records pFilter nFlag root es) n := by
  induction es generalizing fuel root pList xs n with
  | nil => exact appended_nil pList xs n hl
  | file d rest ih =>
    obtain ⟨hfile, hfits, hrest⟩ := hm
    rw [records_file, loop, Entries.data, List.foldlM_cons]
    have hvisit := visit_file pFilter nFlag (GetFileList fs pFilter fuel) root d
      (hdot d List.mem_cons_self) hfile hfits pList xs n hl
    refine (hvisit.bind ?_).congr (and_iff_right trivial)
    intro pList' hl'
    exact ih fuel hfuel root hrest (fun e he => hdot e (List.mem_cons_of_mem d he)) pList' _ _ hl'
  | dir d children rest ihc ih =>
    obtain ⟨hdir, hat, hchildren, hrest⟩ := hm
    obtain ⟨hdeep, hfuel⟩ := max_le_iff.mp hfuel
    obtain ⟨fuel, rfl⟩ : ∃ k, fuel = k+1 := ⟨fuel-1, by omega⟩
    have hfits := hat.fits
    have hcall := enumerates_succ fs pFilter nFlag _ fuel _ children hat
      (fun pl ys h => ihc fuel (by omega) _ hchildren hat.noDots pl ys 0 h)
    rw [records_dir, ← List.append_assoc, loop, Entries.data, List.foldlM_cons]
    have hvisit := visit_dir pFilter nFlag (GetFileList fs pFilter (fuel+1)) _ root d
      (hdot d List.mem_cons_self) hdir (by omega) _ (fun _ => hcall) pList xs n hl
    refine (hvisit.bind ?_).congr (and_congr_left' (by rw [bne_iff_ne]))
    intro pList' hl'
    exact ih (fuel+1) hfuel root hrest (fun e he => hdot e (List.mem_cons_of_mem d he)) pList' _ _ hl'

/-- `GetFileList` lists the directory tree at `root`, with one record for each file, and for each directory
that is asked for, which the filter lets pass, exactly when something matches in every directory that is
searched, if only the directory itself and its parent, and the list has room for the records. -/
theorem GetFileList_enumerates_iff (root : List Char) (es : Entries) (hat : DirectoryAt fs root es.data)
    (hm : Mounted fs root es) (fuel : ℕ) (hfuel : es.depth < fuel) :
    (∃ pList, GetFileList fs pFilter fuel ⟨root, nFlag, none⟩ =
      .ok (⟨root, nFlag, pList⟩, (records pFilter nFlag root es).length) ∧
      Lists pList (records pFilter nFlag root es)) ↔
    (fs.find (root ++ ['*', '.', '*']) ≠ [] ∧ Matched fs (nFlag &&& DIR_RECURSIVE != 0) root es) ∧
      (records pFilter nFlag root es).length ≤ largestMax 64 := by
  obtain ⟨fuel, rfl⟩ : ∃ k, fuel = k+1 := ⟨fuel-1, by omega⟩
  have hcall := enumerates_succ fs pFilter nFlag _ fuel root es hat
    (fun pl ys h => loop_appended fs pFilter nFlag es fuel (by omega) root hm hat.noDots pl ys 0 h)
    none [] rfl
  rw [List.length_nil, Nat.zero_add] at hcall
  rcases hcall with ⟨hfits, pList, hok, hl⟩ | ⟨hbad, e, herror⟩
  · exact iff_of_true ⟨pList, hok, Built.lists pList _ hl⟩ hfits
  · refine iff_of_false ?_ hbad
    rintro ⟨pList, hok, -⟩
    rw [herror] at hok
    cases hok

example : largestMax 64 = 2147483644 := by decide

/-- A directory with a file and a sub-directory, and a file in that one. -/
def sampleFs : FileSystem where
  GetFileAttributes := fun path =>
    if path = ['r', '\\'] ∨ path = ['r', '\\', 'd', '\\'] then 0x10 else 0x20
  find := fun pattern =>
    if pattern = ['r', '\\', '*', '.', '*'] then
      [⟨['.'], 0x10, ⟨2020, 0⟩, 0⟩, ⟨['.', '.'], 0x10, ⟨2020, 0⟩, 0⟩, ⟨['d'], 0x10, ⟨2020, 5⟩, 0⟩,
        ⟨['a'], 0x20, ⟨2020, 7⟩, 3⟩]
    else if pattern = ['r', '\\', 'd', '\\', '*', '.', '*'] then [⟨['b'], 0x20, ⟨2021, 1⟩, 9⟩]
    else []

theorem GetFileList_enumerates_iff_sample :
    ∃ pList, GetFileList sampleFs none 2 ⟨['r', '\\'], DIR_RECURSIVE ||| HAS_DIRNAME, none⟩ =
      .ok (⟨['r', '\\'], DIR_RECURSIVE ||| HAS_DIRNAME, pList⟩, 3) ∧
    Lists pList [⟨['b'], 'F', ⟨2021, 1⟩, 9⟩, ⟨['d'], 'D', ⟨2020, 5⟩, 0⟩, ⟨['a'], 'F', ⟨2020, 7⟩, 3⟩] :=
  (GetFileList_enumerates_iff sampleFs none (DIR_RECURSIVE ||| HAS_DIRNAME) ['r', '\\']
    (.dir ⟨['d'], 0x10, ⟨2020, 5⟩, 0⟩ (.file ⟨['b'], 0x20, ⟨2021, 1⟩, 9⟩ .nil)
      (.file ⟨['a'], 0x20, ⟨2020, 7⟩, 3⟩ .nil))
    ⟨by decide, by decide, by decide⟩
    ⟨by decide, ⟨by decide, by decide, by decide⟩, ⟨by decide, by decide, trivial⟩,
      by decide, by decide, trivial⟩
    2 (by decide)).mpr ⟨⟨by decide, fun _ => ⟨by decide, trivial⟩, trivial⟩, by decide⟩

/-- A drive whose root directory is empty: it has no entries for itself and a parent either. -/
def emptyDrive : FileSystem where
  GetFileAttributes := fun _ => 0x10
  find := fun _ => []

theorem not_enumerates_emptyDrive :
    DirectoryAt emptyDrive ['e', ':', '\\'] [] ∧ Mounted emptyDrive ['e', ':', '\\'] .nil ∧
      ¬∃ pList, GetFileList emptyDrive none 1 ⟨['e', ':', '\\'], 0, none⟩ =
        .ok (⟨['e', ':', '\\'], 0, pList⟩, 0) ∧ Lists pList [] := by
  refine ⟨⟨by decide, by decide, rfl⟩, trivial, ?_⟩
  rintro ⟨pList, hok, -⟩
  cases hok

end Enumeration

end CFileUtil

end Leviathan
