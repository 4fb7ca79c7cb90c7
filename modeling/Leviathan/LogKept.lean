import Leviathan.DateTimeRead
import Leviathan.LogRotation
import Leviathan.Runs

/-! A logger that deletes nothing loses nothing: whatever it puts away and opens, and whichever of its
calls fail, each text stays where `LogPrint` has written it. -/
namespace Leviathan

namespace Volume

variable {N B : Type} [DecidableEq N] (v : Volume N B) (a b : N) (i : ℕ)

theorem moveFile_content : (v.moveFile a b).content = v.content := by
  unfold moveFile
  split_ifs
  · exact rename_content v a b
  · rfl

theorem Named.moveFile (h : v.Named i) : (v.moveFile a b).Named i := by
  unfold Volume.moveFile
  split_ifs with hb
  · exact h.rename v a b i hb
  · exact h

end Volume

namespace LogRotation

/-- The texts written to a file, in order. -/
def writtenTo (printed : List Print) (i : ℕ) : List Char :=
  (printed.filter (fun p => p.file = i)).flatMap Print.text

theorem writtenTo_append (ps qs : List Print) (i : ℕ) :
    writtenTo (ps ++ qs) i = writtenTo ps i ++ writtenTo qs i := by
  rw [writtenTo, List.filter_append, List.flatMap_append]
  rfl

section RenameFile

variable (d : Disk) (pOld pNew : List Char) (move : Bool)

theorem renameFile_content : (renameFile d pOld pNew move).content = d.content := by
  cases move with
  | false => rfl
  | true => exact d.moveFile_content pOld pNew

theorem renameFile_named (i : ℕ) (h : d.Named i) : (renameFile d pOld pNew move).Named i := by
  cases move with
  | false => exact h
  | true => exact h.moveFile d pOld pNew i

end RenameFile

section Delete

variable (gmtime : ℕ → DateTime.STDTime)

theorem delDirectory_content (basic : CFileTime) (tremove : List Char → Bool)
    (pList : List STFileInfoEx) (d : Disk) :
    (delDirectory basic tremove pList d).2.content = d.content := by
  induction pList generalizing d with
  | nil => rfl
  | cons r pList ih =>
    rw [delDirectory]
    split_ifs
    · exact ih (d.remove r.fname)
    · exact ih d

/-- What `deleteOld` leaves. -/
theorem deleteOld_eq_ok (s t : System) (pList : List STFileInfoEx) (calls : DeleteCalls)
    (h : deleteOld gmtime s pList calls = .ok t) :
    s.logger.m_nDeleteInterval ≤ s.now.time ∧ ∃ basic pList',
      CFileTime.setFileTime (gmtime (s.now.time-s.logger.m_nDeleteInterval)) = .ok basic ∧
      (pList' = none ∨ pList' = some (removeOld s pList calls basic.1).1) ∧
      t = { s with
        disk := (removeOld s pList calls basic.1).2
        logger := { s.logger with pList := pList' } } := by
  unfold deleteOld at h
  split_ifs at h with hearly
  obtain ⟨basic, hbasic, h⟩ := (bind_eq_ok _ _ _).mp h
  cases h
  refine ⟨Nat.le_of_not_lt hearly, basic, _, hbasic, ?_, rfl⟩
  split_ifs
  · exact Or.inl rfl
  · exact Or.inr rfl

theorem removeOld_content (s : System) (pList : List STFileInfoEx) (calls : DeleteCalls)
    (basic : CFileTime) : (removeOld s pList calls basic).2.content = s.disk.content := by
  unfold removeOld
  split_ifs
  · exact delDirectory_content basic calls.tremove pList s.disk
  · rfl

end Delete

section Written

variable {gmtime : ℕ → DateTime.STDTime} {addr : ℕ → ℤ}

/-- What has been written since `s` stands at the ends of its files. -/
def Written (s t : System) : Prop :=
  ∃ ps, t.printed = s.printed ++ ps ∧ ∀ i, t.disk.content i = s.disk.content i ++ writtenTo ps i

theorem Written.of_eq {s t : System} (hprinted : t.printed = s.printed)
    (hcontent : t.disk.content = s.disk.content) : Written s t :=
  ⟨[], by rw [hprinted, List.append_nil], fun i => by rw [hcontent]; exact (List.append_nil _).symm⟩

theorem Written.trans {s t u : System} (h : Written s t) (h' : Written t u) : Written s u := by
  obtain ⟨ps, hps, hs⟩ := h
  obtain ⟨qs, hqs, ht⟩ := h'
  refine ⟨ps ++ qs, by rw [hqs, hps, List.append_assoc], fun i => ?_⟩
  rw [ht, hs, writtenTo_append, List.append_assoc]

-- Whatever happens to the names, the contents only grow by what is written.
theorem written_part (s t : System) (h : Part gmtime addr s t) : Written s t := by
  cases h with
  | book | close => exact .of_eq rfl rfl
  | next => exact .of_eq rfl (s.disk.openAppend_content _ _)
  | reopen => exact .of_eq rfl (s.disk.openAppend_content _ _)
  | putAway move nSeq => exact .of_eq rfl (renameFile_content _ _ _ _)
  | write file text hfile hlt =>
    refine ⟨_, rfl, fun i => ?_⟩
    by_cases hi : i = file
    · subst hi
      have htext : writtenTo [⟨i, text, s.now.time⟩] i = text := by
        simp [writtenTo]
      rw [htext]
      exact Function.update_self i _ _
    · have htext : writtenTo [⟨file, text, s.now.time⟩] i = [] := by
        simp [writtenTo, Ne.symm hi]
      rw [htext, List.append_nil]
      exact Function.update_of_ne hi _ _
  | delete _ pList calls hinterval hlist hdel =>
    obtain ⟨-, basic, pList', -, -, rfl⟩ := deleteOld_eq_ok gmtime s t pList calls hdel
    exact .of_eq rfl (removeOld_content s pList calls basic.1)

theorem written_step (s t : System) (a : Act) (h : step gmtime addr s a = .ok t) : Written s t := by
  have hadvance : Written s (advance s a) := by
    cases a <;> exact .of_eq rfl rfl
  have hparts := parts_step s t a h
  clear h
  generalize advance s a = u at hadvance hparts
  induction hparts with
  | refl => exact hadvance
  | tail _ hpart ih => exact ih.trans (written_part _ _ hpart)

end Written

section Kept

variable {gmtime : ℕ → DateTime.STDTime} {addr : ℕ → ℤ}

/-- The stream is open on the file that has the name `m_szFName`. -/
def Held (s : System) : Prop := ∀ i, s.logger.m_hFile = some i → s.disk.file s.logger.m_szFName = some i

theorem held_closed (s : System) (d : Disk) : Held (closed s d) := fun i hi => by cases hi

theorem held_opened (s : System) (d : Disk) (name : List Char) : Held (opened s d name) := by
  intro i hi
  cases hi
  exact (d.openAppend_file name name s.now.time).trans (if_pos rfl)

/-- Nothing that had a name in `s₀`, or has been written to since, is without one. -/
structure Keeping (s₀ s : System) : Prop where
  interval : s.logger.m_nDeleteInterval = 0
  held : Held s
  named : ∀ i, s₀.disk.Named i → s.disk.Named i
  printed : ∀ p ∈ s.printed, s.disk.Named p.file

-- A new state of the stream and the disk, with the texts that were there.
theorem Keeping.set {s₀ s t : System} (h : Keeping s₀ s)
    (hinterval : t.logger.m_nDeleteInterval = s.logger.m_nDeleteInterval) (hheld : Held t)
    (hprinted : t.printed = s.printed) (hnamed : ∀ i, s.disk.Named i → t.disk.Named i) :
    Keeping s₀ t := by
  refine ⟨hinterval.trans h.interval, hheld, fun i hi => hnamed i (h.named i hi), ?_⟩
  rw [hprinted]
  exact fun p hp => hnamed p.file (h.printed p hp)

theorem keeping_part (s₀ s t : System) (hs : Keeping s₀ s) (h : Part gmtime addr s t) :
    Keeping s₀ t := by
  cases h with
  | book => exact hs.set rfl hs.held rfl (fun i hi => hi)
  | close => exact hs.set rfl (held_closed s s.disk) rfl (fun i hi => hi)
  | next => exact hs.set rfl (held_opened s s.disk _) rfl (fun i hi => hi.openAppend s.disk _ i _)
  | reopen => exact hs.set rfl (held_opened s s.disk _) rfl (fun i hi => hi.openAppend s.disk _ i _)
  | putAway move nSeq =>
    exact hs.set rfl (held_closed s _) rfl (fun i hi => renameFile_named s.disk _ _ move i hi)
  | write file text hfile hlt =>
    refine ⟨hs.interval, hs.held, hs.named, fun p hp => ?_⟩
    rcases List.mem_append.mp hp with hp | hp
    · exact hs.printed p hp
    · obtain rfl := List.mem_singleton.mp hp
      exact ⟨_, hs.held file hfile⟩
  | delete _ pList calls hinterval hlist hdel => exact absurd hs.interval hinterval

theorem keeping_step (s₀ s t : System) (a : Act) (hs : Keeping s₀ s)
    (h : step gmtime addr s a = .ok t) : Keeping s₀ t := by
  have hadvance : Keeping s₀ (advance s a) := by
    cases a <;> exact hs.set rfl hs.held rfl (fun i hi => hi)
  have hparts := parts_step s t a h
  clear h
  generalize advance s a = u at hadvance hparts
  induction hparts with
  | refl => exact hadvance
  | tail _ hpart ih => exact keeping_part s₀ _ _ ih hpart

theorem stepOk_eq_some (s t : System) (a : Act) (h : stepOk gmtime addr s a = some t) :
    step gmtime addr s a = .ok t := by
  unfold stepOk at h
  cases hstep : step gmtime addr s a with
  | error e =>
    rw [hstep] at h
    cases h
  | ok u =>
    rw [hstep] at h
    cases h
    rfl

theorem written_run (s t : System) (acts : List Act)
    (hrun : Runs.runFrom (stepOk gmtime addr) s acts = some t) : Written s t :=
  Runs.runFrom_invariant (stepOk gmtime addr) (Written s)
    (fun u a v hu hstep => hu.trans (written_step u v a (stepOk_eq_some u v a hstep)))
    s t acts (.of_eq rfl rfl) hrun

theorem keeping_start (s : System) (hclosed : s.logger.m_hFile = none)
    (hinterval : s.logger.m_nDeleteInterval = 0) (hprinted : s.printed = []) : Keeping s s := by
  refine ⟨hinterval, fun i hi => ?_, fun i hi => hi, fun p hp => ?_⟩
  · rw [hclosed] at hi
    cases hi
  · rw [hprinted] at hp
    cases hp

/-- A logger that deletes nothing, and starts with no file open: whatever happens, a file that has a
name keeps one, every text written is in a file with a name, and each file holds what it held and the
texts written to it, in order. -/
theorem nothing_lost (s t : System) (acts : List Act) (hclosed : s.logger.m_hFile = none)
    (hinterval : s.logger.m_nDeleteInterval = 0) (hprinted : s.printed = [])
    (hrun : Runs.runFrom (stepOk gmtime addr) s acts = some t) :
    (∀ i, s.disk.Named i → t.disk.Named i) ∧ (∀ p ∈ t.printed, t.disk.Named p.file) ∧
      ∀ i, t.disk.content i = s.disk.content i ++ writtenTo t.printed i := by
  have hstart := keeping_start s hclosed hinterval hprinted
  have hkeep : Keeping s t := Runs.runFrom_invariant (stepOk gmtime addr) (Keeping s)
    (fun u a v hu hstep => keeping_step s u v a hu (stepOk_eq_some u v a hstep)) s t acts hstart hrun
  obtain ⟨ps, hps, hcontent⟩ := written_run s t acts hrun
  rw [hprinted, List.nil_append] at hps
  exact ⟨hkeep.named, hkeep.printed, hps ▸ hcontent⟩

section Sample

/-- A logger with one file, and an old file on its disk. -/
def smallLog (m_nDeleteInterval : ℕ) : LogConfig :=
  ⟨.file, ['D', '\\'], ['a'], ['l'], 1, m_nDeleteInterval⟩

theorem newYear_date : 19700101 < 10^8 := by decide

theorem newYear_hour : 0 < 24 := by decide

theorem first_time : 1000 < endOfTime := by decide

theorem second_time : 1100 < endOfTime := by decide

def newYear (time minute : ℕ) (h : time < endOfTime) : Clock where
  time := time
  date := 19700101
  hour := 0
  minute := minute
  mday := 1
  time_lt := h
  date_lt := newYear_date
  hour_lt := newYear_hour

def smallSystem (m_nDeleteInterval : ℕ) : System where
  logger := { smallLog m_nDeleteInterval with
    isLogOpen := false
    m_nSeq := 0
    m_nLogSize := 0
    m_hFile := none
    m_szFName := ['D', '\\', 'a', '.', 'l']
    pList := none }
  isListed := false
  gs_today_time := ⟨19700101, 0, 16, 1⟩
  now := newYear 1000 16 first_time
  disk := (Volume.empty _ _).create ['D', '\\', 'b'] 1
  printed := []

/-- A text is written, its file put away, old files deleted, and another text written. -/
def smallRun : List Act :=
  [.enable ⟨true, true, true⟩ true, .print ['x'], .tick (newYear 1100 18 second_time),
    .timeProc ⟨true, true, true⟩
      ⟨some [['D', '\\', 'b'], ['D', '\\', 'a', '_', '1', '.', 'l']], true, fun _ => true⟩,
    .print ['y']]

/-- A `gmtime` with months of 31 days, which is right in January 1970. -/
def longMonths (t : ℕ) : DateTime.STDTime where
  nYear := (1970+t/60/60/24/31/12 : ℕ)
  nMonth := (1+t/60/60/24/31%12 : ℕ)
  nDay := (1+t/60/60/24%31 : ℕ)
  nHour := (t/60/60%24 : ℕ)
  nMinute := (t/60%60 : ℕ)
  nSec := (t%60 : ℕ)
  nLast := 0

end Sample

theorem nothing_lost_putAway : ∃ t,
    Runs.runFrom (stepOk longMonths (fun _ => 1)) (smallSystem 0) smallRun = some t ∧
    (∀ i, (smallSystem 0).disk.Named i → t.disk.Named i) ∧ (∀ p ∈ t.printed, t.disk.Named p.file) ∧
    ∀ i, t.disk.content i = (smallSystem 0).disk.content i ++ writtenTo t.printed i := by
  have hsome :
      (Runs.runFrom (stepOk longMonths (fun _ => 1)) (smallSystem 0) smallRun).isSome = true := by
    decide +kernel
  obtain ⟨t, ht⟩ := Option.isSome_iff_exists.mp hsome
  exact ⟨t, ht, nothing_lost (smallSystem 0) t smallRun rfl rfl rfl ht⟩

end Kept

end LogRotation

end Leviathan
