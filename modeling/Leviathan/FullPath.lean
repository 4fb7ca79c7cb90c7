import Leviathan.CTypes

/-! A path taken apart (`detachFullPath`, comLogger.cpp, and `CFileUtil::CheckDirName`): the directory, the
name of the file and its extension. -/
namespace Leviathan.FullPath

section Model

-- `true` for the branches under `WIN32`
variable (WIN32 : Bool)

def g_s : UInt8 := if WIN32 then 92 else 47

def fromChar : UInt8 := if WIN32 then 47 else 92

def checkDirName (dirName : List UInt8) : List UInt8 :=
  dirName.map (fun c => if c = fromChar WIN32 then g_s WIN32 else c)

/-- `strrchr`: what stands in front of the last `ch`, and what stands behind it. -/
def strrchr (ch : UInt8) : List UInt8 → Option (List UInt8 × List UInt8)
  | [] => none
  | c :: text =>
    match strrchr ch text with
    | some (u, v) => some (c :: u, v)
    | none => if c = ch then some ([], text) else none

/-- `log`. -/
def g_szLogExtension : List UInt8 := [108, 111, 103]

variable (g_pWorkDir : List UInt8)

/-- `changeToAbsolutePathFile` for a buffer of a given size that holds the text `ret`. -/
def changeToAbsolutePathFile (size : ℕ) (ret path : List UInt8) : Except Fault (List UInt8) :=
  -- the copy in `szBuf`
  if 1024 ≤ path.length then .error .outOfBounds
  else
    match path with
    | 126 :: pBuf =>
      let res := g_pWorkDir ++ pBuf.dropWhile (fun c => c = 92 || c = 47)
      if size ≤ res.length then .error .outOfBounds else .ok res
    | _ => .ok ret

/-- The answer, the texts that are written, and the path that is left. -/
structure Detached where
  answer : Bool
  dir : Option (List UInt8)
  name : Option (List UInt8)
  Extension : Option (List UInt8)
  fullpath : List UInt8

/-- The end of `detachFullPath`: an empty name is not written. -/
def named (dir pBuf Extension fullpath : List UInt8) : Detached where
  answer := !pBuf.isEmpty
  dir := some dir
  name := if pBuf = [] then none else some pBuf
  Extension := some Extension
  fullpath := fullpath

/-- `detachFullPath` from the search for the directory on. -/
def detach (pFullPath : List UInt8) : Detached :=
  match strrchr (g_s WIN32) pFullPath with
  | none => { answer := false, dir := none, name := none, Extension := none, fullpath := pFullPath }
  | some (dirs, pBuf) =>
    let dir := dirs ++ [g_s WIN32]
    -- the search goes through the whole path
    match strrchr 46 pFullPath with
    | none => named dir pBuf g_szLogExtension pFullPath
    | some (cut, pRear) =>
      let name := ((cut ++ 0 :: pRear).drop dir.length).takeWhile (fun c => c ≠ 0)
      named dir name (if pRear = [] then g_szLogExtension else pRear) cut

/-- `detachFullPath`, and the path that is printed with `fullpath[%s] is not correct`.  Behind a `~` the
path in a local buffer is taken apart. -/
def detachFullPath (fullpath : List UInt8) : Except Fault (Detached × Option (List UInt8)) := do
  let r ←
    if fullpath.head? = some 126 then do
      let szDir ← changeToAbsolutePathFile g_pWorkDir 256 [] fullpath
      pure { detach WIN32 szDir with fullpath := fullpath }
    else pure (detach WIN32 (checkDirName WIN32 fullpath))
  return (r, if r.answer then none else some r.fullpath)

end Model

/-- A path with a separator whose last part is not empty and does not start with a dot. -/
structure LogPath (WIN32 : Bool) where
  chars : List UInt8
  noNul : 0 ∉ chars
  noTilde : chars.head? ≠ some 126
  dirs : List UInt8
  file : List UInt8
  split : checkDirName WIN32 chars = dirs ++ g_s WIN32 :: file
  noSep : g_s WIN32 ∉ file
  nonempty : file ≠ []
  noDot : file.head? ≠ some 46

section Parts

variable {WIN32 : Bool} (p : LogPath WIN32) (dir name Extension : List UInt8)

/-- The parts put together are the path. -/
structure Lossless : Prop where
  ending : dir.getLast? = some (g_s WIN32)
  noSep : g_s WIN32 ∉ name
  extension : g_s WIN32 ∉ Extension
  dotted : (∃ u v, p.file = u ++ 46 :: v ∧ v ≠ []) →
    dir ++ name ++ 46 :: Extension = checkDirName WIN32 p.chars
  plain : 46 ∉ p.file → dir ++ name = checkDirName WIN32 p.chars

/-- As `Lossless`, but only the last dot counts: where nothing is behind it the extension is the default.
The extension of a name without a dot is left open where the directory has one. -/
structure Parts : Prop where
  ending : dir.getLast? = some (g_s WIN32)
  noSep : g_s WIN32 ∉ name
  extension : 46 ∈ p.file ∨ 46 ∉ p.dirs → g_s WIN32 ∉ Extension
  dotted : 46 ∈ p.file → p.file.getLast? ≠ some 46 →
    dir ++ name ++ 46 :: Extension = checkDirName WIN32 p.chars
  dotLast : p.file.getLast? = some 46 →
    dir ++ name ++ [46] = checkDirName WIN32 p.chars ∧ Extension = g_szLogExtension
  plain : 46 ∉ p.file → dir ++ name = checkDirName WIN32 p.chars

/-- What is written when `detachFullPath` answers true satisfies `P`. -/
def Writes (P : List UInt8 → List UInt8 → List UInt8 → Prop) : Prop :=
  ∀ g_pWorkDir r, detachFullPath WIN32 g_pWorkDir p.chars = .ok r → r.1.answer = true →
    ∃ dir name Extension, r.1.dir = some dir ∧ r.1.name = some name ∧ r.1.Extension = some Extension ∧
      P dir name Extension

end Parts

section Search

variable (ch : UInt8) (u v : List UInt8)

theorem strrchr_eq_none (h : ch ∉ v) : strrchr ch v = none := by
  induction v with
  | nil => rfl
  | cons c v ih =>
    rw [List.mem_cons, not_or] at h
    simp only [strrchr, ih h.2]
    exact if_neg (Ne.symm h.1)

theorem strrchr_append (h : ch ∉ v) : strrchr ch (u ++ ch :: v) = some (u, v) := by
  induction u with
  | nil =>
    simp only [List.nil_append, strrchr, strrchr_eq_none ch v h, if_true]
  | cons c u ih => simp only [List.cons_append, strrchr, ih]

-- The last occurrence of a character.
theorem exists_last (text : List UInt8) (h : ch ∈ text) : ∃ u v, text = u ++ ch :: v ∧ ch ∉ v := by
  obtain ⟨v, u, hrev, hv⟩ := List.eq_append_cons_of_mem (List.mem_reverse.mpr h)
  refine ⟨u.reverse, v.reverse, ?_, fun hmem => hv (List.mem_reverse.mp hmem)⟩
  rw [← List.reverse_reverse text, hrev, List.reverse_append, List.reverse_cons, List.append_assoc,
    List.singleton_append]

end Search

namespace LogPath

variable {WIN32 : Bool} (p : LogPath WIN32)

theorem sep_ne : g_s WIN32 ≠ 46 ∧ g_s WIN32 ≠ 0 := by
  cases WIN32 <;> decide

theorem path_noNul : 0 ∉ checkDirName WIN32 p.chars := by
  rw [checkDirName, List.mem_map]
  rintro ⟨c, hc, hzero⟩
  split_ifs at hzero
  · exact sep_ne.2 hzero
  · exact p.noNul (hzero ▸ hc)

theorem file_noNul : 0 ∉ p.file := by
  intro h
  have hpath := p.path_noNul
  rw [p.split] at hpath
  exact hpath (List.mem_append_right _ (List.mem_cons_of_mem _ h))

theorem find_dir : strrchr (g_s WIN32) (checkDirName WIN32 p.chars) = some (p.dirs, p.file) := by
  rw [p.split]
  exact strrchr_append _ _ _ p.noSep

/-- The dot is in the name of the file. -/
theorem detach_dotted (u v : List UInt8) (hfile : p.file = u ++ 46 :: v) (hv : 46 ∉ v) :
    detach WIN32 (checkDirName WIN32 p.chars) =
      named (p.dirs ++ [g_s WIN32]) u (if v = [] then g_szLogExtension else v)
        (p.dirs ++ g_s WIN32 :: u) := by
  have hnul := p.file_noNul
  rw [hfile] at hnul
  have hpath : checkDirName WIN32 p.chars = (p.dirs ++ [g_s WIN32] ++ u) ++ 46 :: v := by
    rw [p.split, hfile, List.append_assoc, List.append_assoc, List.singleton_append]
  have hdot : strrchr 46 (checkDirName WIN32 p.chars) = some (p.dirs ++ [g_s WIN32] ++ u, v) := by
    rw [hpath]
    exact strrchr_append _ _ _ hv
  simp only [detach, p.find_dir, hdot]
  rw [List.append_assoc _ u, List.drop_left,
    takeWhile_ne_append 0 u v (fun h => hnul (List.mem_append_left _ h)), List.append_assoc,
    List.singleton_append]

/-- Neither the name nor the directory has a dot. -/
theorem detach_plain (hfile : 46 ∉ p.file) (hdirs : 46 ∉ p.dirs) :
    detach WIN32 (checkDirName WIN32 p.chars) =
      named (p.dirs ++ [g_s WIN32]) p.file g_szLogExtension (checkDirName WIN32 p.chars) := by
  have hdot : strrchr 46 (checkDirName WIN32 p.chars) = none := by
    rw [p.split]
    apply strrchr_eq_none
    rw [List.mem_append, List.mem_cons, not_or, not_or]
    exact ⟨hdirs, Ne.symm sep_ne.1, hfile⟩
  simp only [detach, p.find_dir, hdot]

/-- The dot that is found is in the directory: all that is behind it goes to the extension. -/
theorem detach_dirDot (u v : List UInt8) (hfile : 46 ∉ p.file) (hdirs : p.dirs = u ++ 46 :: v)
    (hv : 46 ∉ v) : detach WIN32 (checkDirName WIN32 p.chars) =
      named (p.dirs ++ [g_s WIN32]) p.file (v ++ g_s WIN32 :: p.file) u := by
  have hpath : checkDirName WIN32 p.chars = u ++ 46 :: (v ++ g_s WIN32 :: p.file) := by
    rw [p.split, hdirs, List.append_assoc, List.cons_append]
  have hdot : strrchr 46 (checkDirName WIN32 p.chars) = some (u, v ++ g_s WIN32 :: p.file) := by
    rw [hpath]
    apply strrchr_append
    rw [List.mem_append, List.mem_cons, not_or, not_or]
    exact ⟨hv, Ne.symm sep_ne.1, hfile⟩
  have hdrop : (u ++ 0 :: (v ++ g_s WIN32 :: p.file)).drop (p.dirs ++ [g_s WIN32]).length = p.file := by
    have hlen : (p.dirs ++ [g_s WIN32]).length = (u ++ 0 :: (v ++ [g_s WIN32])).length := by
      simp only [hdirs, List.length_append, List.length_cons, List.length_nil]
      omega
    have hsplit : u ++ 0 :: (v ++ g_s WIN32 :: p.file) = (u ++ 0 :: (v ++ [g_s WIN32])) ++ p.file := by
      simp
    rw [hlen, hsplit, List.drop_left]
  simp only [detach, p.find_dir, hdot, hdrop]
  rw [takeWhile_ne_self 0 p.file p.file_noNul, if_neg (by simp)]

theorem detachFullPath_eq (g_pWorkDir dir name Extension left : List UInt8) (hne : name ≠ [])
    (h : detach WIN32 (checkDirName WIN32 p.chars) = named dir name Extension left) :
    detachFullPath WIN32 g_pWorkDir p.chars = .ok (named dir name Extension left, none) ∧
      (named dir name Extension left).answer = true ∧
      (named dir name Extension left).name = some name := by
  have hanswer : (named dir name Extension left).answer = true := by
    rw [named, Bool.not_eq_true', List.isEmpty_eq_false_iff]
    exact hne
  refine ⟨?_, hanswer, if_neg hne⟩
  rw [detachFullPath, if_neg p.noTilde, h]
  show Except.ok (_, if (named dir name Extension left).answer = true then none else some _) = _
  rw [if_pos hanswer]

/-- The three ways a path is taken apart. -/
theorem detach_cases : ∃ dir name Extension left, name ≠ [] ∧
    detach WIN32 (checkDirName WIN32 p.chars) = named dir name Extension left ∧
    Parts p dir name Extension ∧ (46 ∉ p.file → 46 ∈ p.dirs → g_s WIN32 ∈ Extension) := by
  have hending : (p.dirs ++ [g_s WIN32]).getLast? = some (g_s WIN32) := List.getLast?_concat
  have hext : g_s WIN32 ∉ g_szLogExtension := by
    cases WIN32 <;> decide
  by_cases hfile : 46 ∈ p.file
  · obtain ⟨u, v, hsplit, hv⟩ := exists_last 46 p.file hfile
    have hnoSep := p.noSep
    rw [hsplit, List.mem_append, List.mem_cons, not_or, not_or] at hnoSep
    have hne : u ≠ [] := by
      rintro rfl
      have hhead := p.noDot
      rw [hsplit] at hhead
      exact hhead rfl
    have hjoin : p.dirs ++ [g_s WIN32] ++ u ++ 46 :: v = checkDirName WIN32 p.chars := by
      rw [p.split, hsplit, List.append_assoc, List.append_assoc, List.singleton_append]
    refine ⟨_, u, _, _, hne, p.detach_dotted u v hsplit hv, ⟨hending, hnoSep.1, fun _ => ?_,
      fun _ hlast => ?_, fun hlast => ?_, fun h => absurd hfile h⟩, fun h => absurd hfile h⟩
    · split_ifs
      · exact hext
      · exact hnoSep.2.2
    · have hv : v ≠ [] := by
        rintro rfl
        rw [hsplit] at hlast
        exact hlast List.getLast?_concat
      rw [if_neg hv, hjoin]
    · have hv : v = [] := by
        by_contra hv'
        rw [hsplit, List.getLast?_append_of_ne_nil _ (List.cons_ne_nil _ _),
          List.getLast?_cons_of_ne_nil hv'] at hlast
        exact hv (List.mem_of_getLast? hlast)
      subst hv
      exact ⟨hjoin, if_pos rfl⟩
  · have hjoin : p.dirs ++ [g_s WIN32] ++ p.file = checkDirName WIN32 p.chars := by
      rw [p.split, List.append_assoc, List.singleton_append]
    have hlast : p.file.getLast? ≠ some 46 := fun h => hfile (List.mem_of_getLast? h)
    by_cases hdirs : 46 ∈ p.dirs
    · obtain ⟨u, v, hsplit, hv⟩ := exists_last 46 p.dirs hdirs
      exact ⟨_, p.file, _, _, p.nonempty, p.detach_dirDot u v hfile hsplit hv, ⟨hending, p.noSep,
        fun h => absurd h (not_or.mpr ⟨hfile, not_not.mpr hdirs⟩), fun h => absurd h hfile,
        fun h => absurd h hlast, fun _ => hjoin⟩,
        fun _ _ => List.mem_append_right _ List.mem_cons_self⟩
    · exact ⟨_, p.file, _, _, p.nonempty, p.detach_plain hfile hdirs, ⟨hending, p.noSep, fun _ => hext,
        fun h => absurd h hfile, fun h => absurd h hlast, fun _ => hjoin⟩, fun _ h => absurd h hdirs⟩

end LogPath

/-- `detachFullPath` takes every such path apart. -/
theorem detachFullPath_parts (WIN32 : Bool) (p : LogPath WIN32) (g_pWorkDir : List UInt8) :
    ∃ r dir name Extension, detachFullPath WIN32 g_pWorkDir p.chars = .ok (r, none) ∧ r.answer = true ∧
      r.dir = some dir ∧ r.name = some name ∧ r.Extension = some Extension ∧
      Parts p dir name Extension := by
  obtain ⟨dir, name, Extension, left, hne, hdetach, hparts, -⟩ := p.detach_cases
  obtain ⟨hcall, hanswer, hname⟩ := p.detachFullPath_eq g_pWorkDir dir name Extension left hne hdetach
  exact ⟨_, dir, name, Extension, hcall, hanswer, rfl, hname, rfl, hparts⟩

section Lossless

variable {WIN32 : Bool} (p : LogPath WIN32) (dir name Extension : List UInt8)

theorem writes_iff (left : List UInt8) (hne : name ≠ [])
    (h : detach WIN32 (checkDirName WIN32 p.chars) = named dir name Extension left)
    (P : List UInt8 → List UInt8 → List UInt8 → Prop) : Writes p P ↔ P dir name Extension := by
  have hcall (g_pWorkDir : List UInt8) := p.detachFullPath_eq g_pWorkDir dir name Extension left hne h
  constructor
  · intro hwrites
    obtain ⟨hok, hanswer, hname⟩ := hcall []
    obtain ⟨dir', name', Extension', hd, hn, he, hP⟩ := hwrites [] _ hok hanswer
    dsimp only at hn
    rw [hname] at hn
    cases hd
    cases hn
    cases he
    exact hP
  · intro hP g_pWorkDir r hok _
    obtain ⟨hok', -, hname⟩ := hcall g_pWorkDir
    rw [hok'] at hok
    cases hok
    exact ⟨dir, name, Extension, rfl, hname, rfl, hP⟩

-- A dot at the end is lost; this breaks the rule for the other dots of the name.
theorem lossless_iff_of_parts (h : Parts p dir name Extension) : Lossless p dir name Extension ↔
    g_s WIN32 ∉ Extension ∧ ∀ u, p.file = u ++ [46] → 46 ∉ u := by
  constructor
  · refine fun hl => ⟨hl.extension, fun u hfile hu => ?_⟩
    obtain ⟨a, b, hab⟩ := List.append_of_mem hu
    have hdotted := hl.dotted ⟨a, b ++ [46], by rw [hfile, hab]; simp, by simp⟩
    obtain ⟨hdot, hext⟩ := h.dotLast (by rw [hfile]; exact List.getLast?_concat)
    have hlen := congrArg List.length (hdotted.trans hdot.symm)
    rw [hext, g_szLogExtension] at hlen
    simp only [List.length_append, List.length_cons, List.length_nil] at hlen
    omega
  · rintro ⟨hext, hdot⟩
    refine ⟨h.ending, h.noSep, hext, fun ⟨u, v, hfile, hv⟩ => ?_, h.plain⟩
    apply h.dotted (hfile ▸ List.mem_append_right _ List.mem_cons_self)
    intro hlast
    obtain ⟨w, hw⟩ := List.getLast?_eq_some_iff.mp hlast
    apply hdot w hw
    obtain ⟨v', hv'⟩ : ∃ v', v = v' ++ [46] := by
      rw [hfile, List.getLast?_append_of_ne_nil _ (List.cons_ne_nil _ _),
        List.getLast?_cons_of_ne_nil hv] at hlast
      exact List.getLast?_eq_some_iff.mp hlast
    have hwu : w = u ++ 46 :: v' := by
      rw [hfile, hv', ← List.cons_append, ← List.append_assoc] at hw
      exact (List.append_inj_left' hw rfl).symm
    rw [hwu]
    exact List.mem_append_right _ List.mem_cons_self

/-- The parts put together are the path exactly when a path without a dot in its name has none in its
directory either, and a name that ends in a dot has no other. -/
theorem writes_lossless_iff : Writes p (Lossless p) ↔
    (46 ∈ p.file ∨ 46 ∉ p.dirs) ∧ ∀ u, p.file = u ++ [46] → 46 ∉ u := by
  obtain ⟨dir, name, Extension, left, hne, hdetach, hparts, hsep⟩ := p.detach_cases
  rw [writes_iff p dir name Extension left hne hdetach, lossless_iff_of_parts p dir name Extension hparts]
  refine and_congr_left fun _ => ⟨fun h => ?_, hparts.extension⟩
  by_contra hno
  rw [not_or, not_not] at hno
  exact h (hsep hno.1 hno.2)

end Lossless

/-- `/a.b.`. -/
def dotPath : LogPath false where
  chars := [47, 97, 46, 98, 46]
  noNul := by decide
  noTilde := by decide
  dirs := []
  file := [97, 46, 98, 46]
  split := rfl
  noSep := by decide
  nonempty := by decide
  noDot := by decide

/-- `/a.b/c`. -/
def dirPath : LogPath false where
  chars := [47, 97, 46, 98, 47, 99]
  noNul := by decide
  noTilde := by decide
  dirs := [47, 97, 46, 98]
  file := [99]
  split := rfl
  noSep := by decide
  nonempty := by decide
  noDot := by decide

theorem not_writes_lossless :
    ¬Writes dotPath (Lossless dotPath) ∧ ¬Writes dirPath (Lossless dirPath) := by
  constructor
  · intro h
    exact ((writes_lossless_iff dotPath).mp h).2 [97, 46, 98] rfl (by decide)
  · intro h
    exact absurd ((writes_lossless_iff dirPath).mp h).1 (by decide)

end Leviathan.FullPath
