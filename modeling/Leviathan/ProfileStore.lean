import Leviathan.ConfigRoundTrip
import Leviathan.Simulation

/-! The profile store reads what was written: `GetPrivateProfileString`, `PutPrivateProfileString` and
`SavePrivateProfile` against a map from file, section and key. -/
namespace Leviathan.Profile.Store

open Ini

/-- The calls; `stale` is the outcome of the `stat` checks, were they made. -/
inductive Op
  | get (stale : Bool) (sec key : List UInt8) (initVal : Option (List UInt8)) (len : ℕ)
    (fName : List UInt8)
  | put (stale : Bool) (sec key val fName : List UInt8)
  | save

/-- The values of all files. -/
abbrev Files : Type := List UInt8 → Values

section Steps

variable {H : Type} (M : StringMap H)

/-- A call, and for `get` the text and the length it returns. -/
def step (st : Store H) : Op → Except Fault (Store H × Option (List UInt8 × ℕ))
  | .get stale sec key initVal len fName => do
    let r ← st.getPrivateProfileString M stale sec key initVal len fName
    return (r.1, some r.2)
  | .put stale sec key val fName => do
    let st ← st.putPrivateProfileString M stale sec key val fName
    return (st, none)
  | .save => .ok (st.savePrivateProfile M, none)

/-- The same on the map: a get answers the value of the key, or the default. -/
def mapStep (a : Files) : Op → Files × Option (List UInt8 × ℕ)
  | .get _ sec key initVal len fName =>
    let pRes := (a fName sec key).or initVal
    (a, some (pRes.getD [], (pRes.map List.length).getD len))
  | .put _ sec key val fName =>
    (Function.update a fName (withValue (a fName) sec key val), none)
  | .save => (a, none)

/-- `_section` names a section. -/
def SectionArg (sec : List UInt8) : Prop := sec ≠ [] ∧ sec.length < 128

def OpOk : Op → Prop
  | .get _ sec _ _ _ _ => SectionArg sec
  | .put _ sec key val _ => SectionArg sec ∧ SectionOk sec ∧ EntryOk isBlank key val
  | .save => True

/-- The value that a call puts to the key. -/
def Op.putTo (fName sec key : List UInt8) : Op → Option (List UInt8)
  | .put _ sec' key' val fName' => if fName = fName' ∧ sec = sec' ∧ key = key' then some val else none
  | _ => none

/-- The value that was put last. -/
def latest (fName sec key : List UInt8) (ops : List Op) : Option (List UInt8) :=
  ops.reverse.findSome? (Op.putTo fName sec key)

/-- The entry in memory has the values of its file; `_section` is its current section, and the file is
behind only while `_bWrite` is set. -/
structure Cached (st : Store H) (a : Files) (ce : ConfEntry H) : Prop where
  value : ce.value M = a ce.filename
  sound : ce.Sound M
  current : st._section ≠ [] → ce.current = some st._section
  clean : st._bWrite = false → Holds isBlank (st.files ce.filename) (a ce.filename)

/-- The store has the values `a`. -/
structure Inv (st : Store H) (a : Files) : Prop where
  cached : ∀ ce, st._confWork = some ce → Cached M st a ce
  others : ∀ f, (∀ ce, st._confWork = some ce → ce.filename ≠ f) → Holds isBlank (st.files f) (a f)

end Steps

section Open

variable {H : Type} (M : StringMap H) (st : Store H) (a : Files)

-- Once the entry has been written, every file has its values.
theorem files_save (h : Inv M st a) (ce : ConfEntry H) (hwork : st._confWork = some ce)
    (f : List UInt8) :
    Holds isBlank (Function.update st.files ce.filename (ce.confEntrySave M) f) (a f) := by
  have hcached := h.cached ce hwork
  by_cases hf : f = ce.filename
  · rw [hf, Function.update_self, ← hcached.value]
    exact ce.save_holds M hcached.sound
  · rw [Function.update_of_ne hf]
    refine h.others f (fun ce' hce' => ?_)
    rw [hwork] at hce'
    obtain rfl := Option.some.inj hce'
    exact Ne.symm hf

theorem dropWork_files (h : Inv M st a) (f : List UInt8) :
    Holds isBlank ((st.dropWork M).files f) (a f) := by
  unfold dropWork
  cases hwork : st._confWork with
  | none => exact h.others f (fun ce hce => by rw [hwork] at hce; cases hce)
  | some ce =>
    cases hwrite : st._bWrite with
    | true => exact files_save M st a h ce hwork f
    | false =>
      by_cases hf : ce.filename = f
      · subst hf
        exact (h.cached ce hwork).clean hwrite
      · refine h.others f (fun ce' hce' => ?_)
        rw [hwork] at hce'
        obtain rfl := Option.some.inj hce'
        exact hf

-- Opening a file changes no values.
theorem openFile_spec (h : Inv M st a) (stale : Bool) (fName : List UInt8) :
    ∃ st' ce, st.openFile M stale fName = (st', ce) ∧ st'._confWork = some ce ∧ ce.filename = fName ∧
      Inv M st' a := by
  have hload (st₁ : Store H) (hfiles : ∀ f, Holds isBlank (st₁.files f) (a f)) :
      (ConfEntry.confEntryNew M fName (st₁.files fName)).filename = fName ∧
        Inv M ⟨st₁.files, some (ConfEntry.confEntryNew M fName (st₁.files fName)), [], false⟩ a := by
    obtain ⟨hvalue, hsound, hfile⟩ := ConfEntry.confEntryNew_holds M fName _ _ (hfiles fName)
    refine ⟨hfile, ?_, fun f _ => hfiles f⟩
    rintro ce hce
    obtain rfl := Option.some.inj hce
    refine ⟨?_, hsound, fun hne => absurd rfl hne, fun _ => hfiles _⟩
    rw [hvalue, hfile]
  unfold openFile
  by_cases hnew : st.isNew stale fName = true
  · rw [if_pos hnew]
    obtain ⟨hfile, hinv⟩ := hload (st.dropWork M) (dropWork_files M st a h)
    exact ⟨_, _, rfl, rfl, hfile, hinv⟩
  · rw [if_neg hnew]
    dsimp only
    cases hwork : st._confWork with
    | none =>
      dsimp only
      obtain ⟨hfile, hinv⟩ := hload st
        (fun f => h.others f (fun ce hce => by rw [hwork] at hce; cases hce))
      exact ⟨_, _, rfl, rfl, hfile, hinv⟩
    | some ce =>
      refine ⟨st, ce, rfl, hwork, ?_, h⟩
      rw [isNew, hwork] at hnew
      by_contra hne
      exact hnew (by simp [hne])

end Open

section Section

variable {H : Type} (M : StringMap H) (st : Store H) (a : Files)

-- Another current section, with `_section` for it, is all the same to the values.
theorem inv_moved (h : Inv M st a) (ce ce' : ConfEntry H) (hwork : st._confWork = some ce)
    (hmoved : ce.Moved ce') (sec : List UInt8) (hsec : sec ≠ [] → ce'.current = some sec) :
    Inv M { st with _confWork := some ce', _section := sec } a := by
  have hcached := h.cached ce hwork
  have hvalue : ce'.value M = ce.value M := by
    unfold ConfEntry.value
    rw [hmoved.sections]
  constructor
  · rintro t ht
    obtain rfl := Option.some.inj ht
    refine ⟨?_, ⟨?_, ?_⟩, hsec, ?_⟩
    · rw [hvalue, hmoved.filename]
      exact hcached.value
    · rw [hmoved.sections]
      exact hcached.sound.sections
    · rw [hvalue]
      exact hcached.sound.values
    · rw [hmoved.filename]
      exact hcached.clean
  · intro f hf
    refine h.others f (fun t ht => ?_)
    rw [hwork] at ht
    obtain rfl := Option.some.inj ht
    exact hmoved.filename ▸ hf ce' rfl

/-- `setProfileSection` finds the section, or the section has no values. -/
theorem setProfileSection_spec (h : Inv M st a) (stale : Bool) (sec fName : List UInt8)
    (harg : SectionArg sec) :
    ∃ st' ce found, st.setProfileSection M stale sec fName = .ok (st', ce, found) ∧
      st'._confWork = some ce ∧ ce.filename = fName ∧ Inv M st' a ∧
      (found = true → ce.current = some sec ∧ st'._section = sec) ∧
      (found = false → ∀ key, ce.value M sec key = none) := by
  obtain ⟨st₁, ce, hopen, hwork, hfile, hinv⟩ := openFile_spec M st a h stale fName
  unfold setProfileSection
  rw [hopen]
  dsimp only
  by_cases hsame : st₁._section = sec
  · rw [if_neg (not_not.mpr hsame)]
    refine ⟨st₁, ce, true, rfl, hwork, hfile, hinv, fun _ => ⟨?_, hsame⟩,
      fun hfalse => absurd hfalse (by decide)⟩
    have hcurrent := (hinv.cached ce hwork).current (by rw [hsame]; exact harg.1)
    rw [hcurrent, hsame]
  · rw [if_pos hsame]
    cases hfind : ce.findSection sec with
    | none =>
      rw [ce.currentSectionSet_none sec hfind]
      refine ⟨_, ce.closed, false, rfl, rfl, hfile, ?_, fun htrue => absurd htrue (by decide),
        fun _ key => ?_⟩
      · exact inv_moved M st₁ a hinv ce ce.closed hwork ⟨rfl, rfl⟩ [] (fun hne => absurd rfl hne)
      · exact ce.value_eq_none M sec hfind key
    | some i =>
      obtain ⟨ce', heq, hmoved, hreading⟩ := ce.currentSectionSet_some M sec i hfind
      have hcurrent : ce'.current = some sec := congrArg Prod.fst hreading
      rw [heq]
      refine ⟨{ st₁ with _confWork := some ce', _section := sec }, ce', true, ?_, rfl,
        hmoved.filename.trans hfile, ?_, fun _ => ⟨hcurrent, rfl⟩,
        fun hfalse => absurd hfalse (by decide)⟩
      · dsimp only
        rw [if_pos rfl, setSection, if_pos harg.2]
        rfl
      · exact inv_moved M st₁ a hinv ce ce' hwork hmoved sec (fun _ => hcurrent)

end Section

section Calls

variable {H : Type} (M : StringMap H) (st : Store H) (a : Files)

theorem get_spec (h : Inv M st a) (stale : Bool) (sec key : List UInt8) (initVal : Option (List UInt8))
    (len : ℕ) (fName : List UInt8) (harg : SectionArg sec) :
    ∃ st', st.getPrivateProfileString M stale sec key initVal len fName =
      .ok (st', (((a fName sec key).or initVal).getD []),
        (((a fName sec key).or initVal).map List.length).getD len) ∧ Inv M st' a := by
  obtain ⟨st', ce, found, hset, hwork, hfile, hinv, htrue, hfalse⟩ :=
    setProfileSection_spec M st a h stale sec fName harg
  have hvalue := (hinv.cached ce hwork).value
  rw [hfile] at hvalue
  refine ⟨st', ?_, hinv⟩
  rw [getPrivateProfileString, hset, ok_bind]
  dsimp only
  cases found with
  | true =>
    rw [if_pos rfl, ce.confEntryGet_eq M key, (htrue rfl).1, ← hvalue]
    rfl
  | false =>
    rw [if_neg (by decide), ← hvalue, hfalse rfl key]
    rfl

-- An entry for the current section, in memory only.
theorem inv_put (h : Inv M st a) (ce ce' : ConfEntry H) (hwork : st._confWork = some ce)
    (sec key val : List UInt8) (hfile : ce'.filename = ce.filename) (hvalue : ce'.value M = ce.value M)
    (hsound : ce'.Sound M) (hcurrent : ce'.current = some sec) (hentry : EntryOk isBlank key val) :
    Inv M ⟨st.files, some (ce'.hashAdd M key val), sec, true⟩
      (Function.update a ce.filename (withValue (a ce.filename) sec key val)) := by
  have hcached := h.cached ce hwork
  have hreading := ce'.hashAdd_reading M sec key val hcurrent
  have hadd : (ce'.hashAdd M key val).filename = ce.filename := hfile
  constructor
  · rintro t ht
    obtain rfl := Option.some.inj ht
    refine ⟨?_, ce'.sound_hashAdd M hsound sec key val hcurrent hentry, fun _ => ?_,
      fun hw => Bool.noConfusion hw⟩
    · rw [hadd, Function.update_self, ← hcached.value, ← hvalue]
      exact congrArg Prod.snd hreading
    · exact congrArg Prod.fst hreading
  · intro f hf
    have hne : f ≠ ce.filename := fun heq => hf _ rfl (hadd.trans heq.symm)
    rw [Function.update_of_ne hne]
    refine h.others f (fun t ht => ?_)
    rw [hwork] at ht
    obtain rfl := Option.some.inj ht
    exact Ne.symm hne

theorem put_spec (h : Inv M st a) (stale : Bool) (sec key val fName : List UInt8)
    (harg : SectionArg sec) (hsec : SectionOk sec) (hentry : EntryOk isBlank key val) :
    ∃ st', st.putPrivateProfileString M stale sec key val fName = .ok st' ∧
      Inv M st' (Function.update a fName (withValue (a fName) sec key val)) := by
  obtain ⟨st', ce, found, hset, hwork, hfile, hinv, htrue, -⟩ :=
    setProfileSection_spec M st a h stale sec fName harg
  have hsound := (hinv.cached ce hwork).sound
  rw [putPrivateProfileString, hset, ok_bind]
  dsimp only
  subst hfile
  cases found with
  | true =>
    obtain ⟨hcurrent, hsame⟩ := htrue rfl
    subst hsame
    refine ⟨⟨st'.files, some (ce.hashAdd M key val), st'._section, true⟩, ?_, ?_⟩
    · rw [if_pos rfl, ConfEntry.confEntryPut, if_pos (ce.current_nonneg _ hcurrent), ok_bind]
      rfl
    · exact inv_put M st' a hinv ce ce hwork _ key val rfl rfl hsound hcurrent hentry
  | false =>
    obtain ⟨ce', heq, hfile', hreading, -⟩ := ce.entryNew_reading M sec hsec.ne
    have hcurrent : ce'.current = some sec := congrArg Prod.fst hreading
    have hsound' : ce'.Sound M := by
      have hnew := ce.sound_entryNew M hsound sec hsec
      rw [heq] at hnew
      exact hnew
    refine ⟨⟨st'.files, some (ce'.hashAdd M key val), sec, true⟩, ?_, ?_⟩
    · rw [if_neg (by decide), heq]
      dsimp only
      rw [if_pos rfl, setSection, if_pos harg.2, ok_bind, ConfEntry.confEntryPut,
        if_pos (ce'.current_nonneg sec hcurrent), ok_bind]
      rfl
    · exact inv_put M st' a hinv ce ce' hwork sec key val hfile' (congrArg Prod.snd hreading) hsound'
        hcurrent hentry

theorem save_spec (h : Inv M st a) : Inv M (st.savePrivateProfile M) a := by
  unfold savePrivateProfile
  cases hwork : st._confWork with
  | none => exact h
  | some ce =>
    cases hwrite : st._bWrite with
    | false => exact h
    | true =>
      have hcached := h.cached ce hwork
      have hfiles := files_save M st a h ce hwork
      refine ⟨?_, fun f _ => hfiles f⟩
      intro t ht
      have hsame : some ce = some t := ht
      obtain rfl := Option.some.inj hsame
      exact ⟨hcached.value, hcached.sound, hcached.current, fun _ => hfiles _⟩

theorem step_spec (op : Op) (h : Inv M st a) (hop : OpOk op) :
    ∃ st' o, step M st op = .ok (st', o) ∧ Inv M st' (mapStep a op).1 ∧ (mapStep a op).2 = o := by
  cases op with
  | get stale sec key initVal len fName =>
    obtain ⟨st', hget, hinv⟩ := get_spec M st a h stale sec key initVal len fName hop
    refine ⟨st', _, ?_, hinv, rfl⟩
    rw [step, hget]
    rfl
  | put stale sec key val fName =>
    obtain ⟨harg, hsec, hentry⟩ := hop
    obtain ⟨st', hput, hinv⟩ := put_spec M st a h stale sec key val fName harg hsec hentry
    refine ⟨st', none, ?_, hinv, rfl⟩
    rw [step, hput]
    rfl
  | save => exact ⟨_, none, rfl, save_spec M st a h, rfl⟩

end Calls

section Runs

variable {H : Type} (M : StringMap H)

/-- No entry has been read. -/
def start (files : List UInt8 → List UInt8) : Store H := ⟨files, none, [], false⟩

theorem inv_start (files : List UInt8 → List UInt8) (initial : Files)
    (hfiles : ∀ f, Holds isBlank (files f) (initial f)) : Inv M (start files) initial := by
  refine ⟨fun ce hce => ?_, fun f _ => hfiles f⟩
  have hnone : (none : Option (ConfEntry H)) = some ce := hce
  cases hnone

theorem guarded_of_forall (a : Files) (ops : List Op) (hops : ∀ op ∈ ops, OpOk op) :
    Simulation.Guarded mapStep (fun _ => OpOk) a ops := by
  induction ops generalizing a with
  | nil => trivial
  | cons op ops ih =>
    refine ⟨hops op List.mem_cons_self, ih _ (fun op' hop' => ?_)⟩
    exact hops op' (List.mem_cons_of_mem _ hop')

theorem mapStep_value (a : Files) (op : Op) (fName sec key : List UInt8) :
    (mapStep a op).1 fName sec key = (op.putTo fName sec key).or (a fName sec key) := by
  cases op with
  | get stale sec' key' initVal len fName' => rfl
  | put stale sec' key' val fName' =>
    rw [mapStep, Op.putTo]
    dsimp only
    by_cases hf : fName = fName'
    · subst hf
      rw [Function.update_self, withValue]
      by_cases hkey : sec = sec' ∧ key = key'
      · rw [if_pos hkey, if_pos ⟨rfl, hkey⟩]
        rfl
      · rw [if_neg hkey, if_neg (fun h => hkey h.2)]
        rfl
    · rw [Function.update_of_ne hf, if_neg (fun h => hf h.1)]
      rfl
  | save => rfl

theorem latest_cons (op : Op) (ops : List Op) (fName sec key : List UInt8) :
    latest fName sec key (op :: ops) = (latest fName sec key ops).or (op.putTo fName sec key) := by
  rw [latest, List.reverse_cons, List.findSome?_append, List.findSome?_singleton]
  rfl

-- The map has what was put last.
theorem absRun_value (a : Files) (ops : List Op) (fName sec key : List UInt8) :
    (Simulation.absRun mapStep a ops).1 fName sec key =
      (latest fName sec key ops).or (a fName sec key) := by
  induction ops generalizing a with
  | nil => rfl
  | cons op ops ih =>
    calc (Simulation.absRun mapStep (mapStep a op).1 ops).1 fName sec key
        = (latest fName sec key ops).or ((mapStep a op).1 fName sec key) := ih _
      _ = (latest fName sec key ops).or ((op.putTo fName sec key).or (a fName sec key)) := by
          rw [mapStep_value]
      _ = (latest fName sec key (op :: ops)).or (a fName sec key) := by
          rw [latest_cons, Option.or_assoc]

/-- Every get of a run answers the value that was put last, or what the file held at first, or the
default. -/
theorem get_latest (files : List UInt8 → List UInt8) (initial : Files)
    (hfiles : ∀ f, Holds isBlank (files f) (initial f)) (ops : List Op) (hops : ∀ op ∈ ops, OpOk op) :
    ∃ st os, Simulation.run (step M) (start files) ops = .ok (st, os) ∧
      ∀ (pre post : List Op) (stale : Bool) (sec key : List UInt8) (initVal : Option (List UInt8))
        (len : ℕ) (fName : List UInt8), ops = pre ++ .get stale sec key initVal len fName :: post →
      ∃ pRes, pRes = ((latest fName sec key pre).or (initial fName sec key)).or initVal ∧
        os[pre.length]? = some (some (pRes.getD [], (pRes.map List.length).getD len)) := by
  obtain ⟨st, os, hrun, -, hos⟩ := Simulation.run_simulates (step_spec M) (start files) initial ops
    (inv_start M files initial hfiles) (guarded_of_forall initial ops hops)
  have heq : (Simulation.absRun mapStep initial ops).2 = os := List.forall₂_eq_eq_eq ▸ hos
  refine ⟨st, os, hrun, ?_⟩
  rintro pre post stale sec key initVal len fName rfl
  refine ⟨_, rfl, ?_⟩
  rw [← heq, Simulation.absRun_getElem, mapStep]
  dsimp only
  rw [absRun_value]

open StringHash Buffers ConfEntry

/-- A value goes to the file "f"; after a get from the file "g" it is read back. -/
def sampleOps : List Op :=
  [.put true (lit "[a") (lit "k") (lit "[x]=#") (lit "f"),
    .get true (lit "s") (lit "k") (some (lit "default")) 8 (lit "g"),
    .get false (lit "[a") (lit "k") none 8 (lit "f")]

theorem get_latest_sample : ∃ st os,
    Simulation.run (step hashModule) (start (fun _ => [])) sampleOps = .ok (st, os) ∧
      os[1]? = some (some (lit "default", 7)) ∧ os[2]? = some (some (lit "[x]=#", 5)) := by
  have hops : ∀ op ∈ sampleOps, OpOk op := by
    intro op hop
    simp only [sampleOps, List.mem_cons, List.not_mem_nil, or_false] at hop
    rcases hop with rfl | rfl | rfl
    · exact ⟨⟨by decide, by decide⟩, sectionOk_sample, entryOk_sample⟩
    · exact ⟨by decide, by decide⟩
    · exact ⟨by decide, by decide⟩
  obtain ⟨st, os, hrun, hget⟩ := get_latest hashModule (fun _ => []) (fun _ _ _ => none)
    (fun _ => ⟨[], by simp, rfl, Or.inl rfl⟩) sampleOps hops
  obtain ⟨_, rfl, hfirst⟩ := hget [.put true (lit "[a") (lit "k") (lit "[x]=#") (lit "f")]
    [.get false (lit "[a") (lit "k") none 8 (lit "f")] _ _ _ _ _ _ rfl
  obtain ⟨_, rfl, hsecond⟩ := hget [.put true (lit "[a") (lit "k") (lit "[x]=#") (lit "f"),
    .get true (lit "s") (lit "k") (some (lit "default")) 8 (lit "g")] [] _ _ _ _ _ _ rfl
  exact ⟨st, os, hrun, hfirst, hsecond⟩

end Runs

end Leviathan.Profile.Store
