import Leviathan.StringHash

/-! The profile functions of comProfileutil.c that are compiled on other systems than Windows: a
configuration file in memory, and the store of the current one. -/
namespace Leviathan.Profile

/-- `isspace` for a character below 0x80, in the C locale. -/
def isBlank (b : UInt8) : Bool := b &&& 0x80 = 0 && (b = 32 || (9 ≤ b && b ≤ 13))

def trimString (str : List UInt8) : List UInt8 :=
  ((str.dropWhile isBlank).reverse.dropWhile isBlank).reverse

/-- The characters that `fgets` takes with room for `k`, and what is left of the file. -/
def fgetsTake : ℕ → List UInt8 → List UInt8 × List UInt8
  | 0, fp => ([], fp)
  | _+1, [] => ([], [])
  | k+1, c :: fp =>
    if c = 10 then ([c], fp)
    else
      let r := fgetsTake k fp
      (c :: r.1, r.2)

def fgets (n : ℕ) (fp : List UInt8) : Option (List UInt8 × List UInt8) :=
  if fp = [] then none else some (fgetsTake (n-1) fp)

structure SectEntry (H : Type) where
  name : List UInt8
  h : H

/-- `ConfEntry`; `maxEntry` is the number of the sections. -/
structure ConfEntry (H : Type) where
  filename : List UInt8
  curEntryIdx : ℤ
  sections : List (SectEntry H)
  inRange : curEntryIdx < sections.length
  nodup : (sections.map SectEntry.name).Nodup

namespace ConfEntry

variable {H : Type} (ce : ConfEntry H)

def findSection (secName : List UInt8) : Option ℕ := ce.sections.findIdx? (fun s => s.name = secName)

theorem findSection_eq_some (secName : List UInt8) (i : ℕ) (h : ce.findSection secName = some i) :
    ∃ hi : i < ce.sections.length, ce.sections[i].name = secName := by
  obtain ⟨hi, hname, -⟩ := List.findIdx?_eq_some_iff_getElem.mp h
  exact ⟨hi, of_decide_eq_true hname⟩

theorem findSection_eq_none (secName : List UInt8) (h : ce.findSection secName = none) :
    secName ∉ ce.sections.map SectEntry.name := by
  rw [List.mem_map]
  rintro ⟨s, hs, hname⟩
  exact absurd hname (of_decide_eq_false (List.findIdx?_eq_none_iff.mp h s hs))

/-- No section is the current one. -/
def closed : ConfEntry H where
  filename := ce.filename
  curEntryIdx := -1
  sections := ce.sections
  inRange := by omega
  nodup := ce.nodup

def currentSectionSet (secName : List UInt8) : ConfEntry H × Bool :=
  match h : ce.findSection secName with
  | none => (ce.closed, false)
  | some i =>
    (⟨ce.filename, i, ce.sections, by exact_mod_cast (ce.findSection_eq_some secName i h).1, ce.nodup⟩,
      true)

variable (M : StringMap H)

/-- A section without entries behind the others. -/
def append (secName : List UInt8) (h : ce.findSection secName = none) : ConfEntry H where
  filename := ce.filename
  curEntryIdx := ce.sections.length
  sections := ce.sections ++ [⟨secName, M.hash_new⟩]
  inRange := by
    rw [List.length_append]
    simp
  nodup := by
    rw [List.map_append, List.nodup_append]
    refine ⟨ce.nodup, List.nodup_singleton _, ?_⟩
    rintro a ha b hb rfl
    obtain rfl := List.mem_singleton.mp hb
    exact ce.findSection_eq_none _ h ha

def entryNew (secName : List UInt8) : ConfEntry H × Bool :=
  if secName = [] then (ce.closed, false)
  else
    match h : ce.findSection secName with
    | none => (ce.append M secName h, true)
    | some _ => ((ce.currentSectionSet secName).1, true)

theorem map_name_modify (i : ℕ) (f : SectEntry H → SectEntry H) (hf : ∀ s, (f s).name = s.name) :
    (ce.sections.modify i f).map SectEntry.name = ce.sections.map SectEntry.name := by
  apply List.ext_getElem?
  intro j
  rw [List.getElem?_map, List.getElem?_map, List.getElem?_modify]
  cases ce.sections[j]? with
  | none => rfl
  | some s =>
    by_cases hij : i = j
    · simp [hij, hf]
    · simp [hij]

/-- `hash_add` for the current section. -/
def hashAdd (key val : List UInt8) : ConfEntry H where
  filename := ce.filename
  curEntryIdx := ce.curEntryIdx
  sections := ce.sections.modify ce.curEntryIdx.toNat (fun s => { s with h := M.hash_add s.h key val })
  inRange := by
    rw [List.length_modify]
    exact ce.inRange
  nodup := by
    rw [ce.map_name_modify _ (fun s => { s with h := M.hash_add s.h key val }) (fun _ => rfl)]
    exact ce.nodup

/-- A line `key=val`.  For an empty value the code also looks at the character in front of it. -/
def parseEntry (data : List UInt8) : ConfEntry H :=
  if 61 ∈ data then
    let key := data.takeWhile (fun c => c ≠ 61)
    let val := (data.dropWhile (fun c => c ≠ 61)).tail
    if val ≠ [] then
      let key := trimString key
      let val := trimString val
      let val := if val.getLast? = some 10 then val.dropLast else val
      if val ≠ [] then ce.hashAdd M key val else ce
    else ce
  else ce

/-- What the loop of `_parse_config_entry` does with a line. -/
def parseLine (data : List UInt8) : ConfEntry H :=
  if data.head? = some 35 then ce
  else if data.head? = some 91 then
    if 93 ∈ data.tail then (ce.entryNew M (data.tail.takeWhile (fun c => c ≠ 93))).1 else ce.closed
  else if 0 ≤ ce.curEntryIdx then ce.parseEntry M data
  else ce

/-- The loop, for at most `k` lines; a NUL ends the line that has been read. -/
def parseLoop : ℕ → List UInt8 → ConfEntry H → ConfEntry H
  | 0, _, ce => ce
  | k+1, fp, ce =>
    match fgets 256 fp with
    | none => ce
    | some (data, fp) => parseLoop k fp (ce.parseLine M (data.takeWhile (fun c => c ≠ 0)))

/-- `_parse_config_entry` for a file with the text `fp`; every line takes a character at least. -/
def parseConfigEntry (fp : List UInt8) : ConfEntry H := parseLoop M fp.length fp ce

/-- `confEntryNew`, for a file with the text `fp`; a missing file has none. -/
def confEntryNew (filename fp : List UInt8) : ConfEntry H :=
  parseConfigEntry ⟨filename, -1, [], by simp, List.nodup_nil⟩ M fp

def confEntryGet (field : List UInt8) : Option (List UInt8) :=
  if ce.curEntryIdx < 0 then none
  else (ce.sections[ce.curEntryIdx.toNat]?).bind (fun s => M.hash_lookup s.h field)

/-- `confEntryPut`; without a current section it writes in front of the array. -/
def confEntryPut (field value : List UInt8) : Except Fault (ConfEntry H) :=
  if 0 ≤ ce.curEntryIdx then .ok (ce.hashAdd M field value) else .error .outOfBounds

/-- The text that `confEntrySave` writes. -/
def confEntrySave : List UInt8 :=
  ce.sections.flatMap (fun s => 91 :: s.name ++ [93, 10] ++ (M.hash_string s.h).getD [] ++ [10])

end ConfEntry

/-- The files, and the static variables. -/
structure Store (H : Type) where
  files : List UInt8 → List UInt8
  _confWork : Option (ConfEntry H)
  _section : List UInt8
  _bWrite : Bool

namespace Store

variable {H : Type} (M : StringMap H) (st : Store H)

/-- `_confWork` is saved when it has been changed, and freed. -/
def dropWork : Store H where
  files :=
    match st._confWork, st._bWrite with
    | some ce, true => Function.update st.files ce.filename (ce.confEntrySave M)
    | _, _ => st.files
  _confWork := none
  _section := []
  _bWrite := false

/-- `newB`; `stale` is whether `stat` fails or finds the file newer than what was read. -/
def isNew (stale : Bool) (fName : List UInt8) : Bool :=
  match st._confWork with
  | none => false
  | some ce => ce.filename ≠ fName || stale

/-- `setProfileSection` up to the point where `_confWork` is the entry of the file. -/
def openFile (stale : Bool) (fName : List UInt8) : Store H × ConfEntry H :=
  let st := if st.isNew stale fName then st.dropWork M else st
  match st._confWork with
  | none =>
    let ce := ConfEntry.confEntryNew M fName (st.files fName)
    ({ st with _confWork := some ce, _section := [], _bWrite := false }, ce)
  | some ce => (st, ce)

/-- `strcpy` to `_section`, an array of 128 characters. -/
def setSection (sec : List UInt8) : Except Fault (Store H) :=
  if sec.length < 128 then .ok { st with _section := sec } else .error .outOfBounds

def setProfileSection (stale : Bool) (sec fName : List UInt8) :
    Except Fault (Store H × ConfEntry H × Bool) :=
  let (st, ce) := st.openFile M stale fName
  if st._section ≠ sec then
    let (ce, found) := ce.currentSectionSet sec
    if found then do
      let st ← setSection { st with _confWork := some ce } sec
      return (st, ce, true)
    else .ok ({ st with _confWork := some ce, _section := [] }, ce, false)
  else .ok (st, ce, true)

/-- `GetPrivateProfileString`: what is written to `pRet`, and the answer.  The whole value is written,
whatever `len` is, so `pRet` is taken to have room for it. -/
def getPrivateProfileString (stale : Bool) (sec key : List UInt8) (initVal : Option (List UInt8))
    (len : ℕ) (fName : List UInt8) : Except Fault (Store H × List UInt8 × ℕ) := do
  let (st, ce, found) ← st.setProfileSection M stale sec fName
  let pRes := if found then (ce.confEntryGet M key).or initVal else initVal
  return (st, pRes.getD [], (pRes.map List.length).getD len)

/-- `PutPrivateProfileString`. -/
def putPrivateProfileString (stale : Bool) (sec key val fName : List UInt8) :
    Except Fault (Store H) := do
  let (st, ce, found) ← st.setProfileSection M stale sec fName
  if found then
    let ce ← ce.confEntryPut M key val
    return { st with _confWork := some ce, _bWrite := true }
  else
    let (ce, isNew) := ce.entryNew M sec
    if isNew then
      let st ← st.setSection sec
      let ce ← ce.confEntryPut M key val
      return { st with _confWork := some ce, _bWrite := true }
    else return { st with _confWork := some ce, _section := [] }

/-- `SavePrivateProfile`. -/
def savePrivateProfile : Store H :=
  match st._confWork, st._bWrite with
  | some ce, true =>
    { st with files := Function.update st.files ce.filename (ce.confEntrySave M), _bWrite := false }
  | _, _ => st

end Store

end Leviathan.Profile
