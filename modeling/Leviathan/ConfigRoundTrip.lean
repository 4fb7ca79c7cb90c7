import Leviathan.Buffers
import Leviathan.ConfigParse

/-! `confEntrySave` and `_parse_config_entry`: what is saved is read back. -/
namespace Leviathan.Profile.ConfEntry

open Ini Buffers

variable {H : Type} (M : StringMap H) (ce : ConfEntry H)

section Save

/-- A section as it is saved. -/
def sectionText (s : SectEntry H) : List UInt8 :=
  91 :: s.name ++ [93, 10] ++ (M.hash_string s.h).getD [] ++ [10]

theorem fileText_sectionLines (s : SectEntry H) (entries : List (List UInt8 × List UInt8))
    (hprint : (M.hash_string s.h).getD [] = entries.flatMap (fun e => e.1 ++ 61 :: e.2 ++ [10])) :
    fileText (sectionLines s.name entries) = sectionText M s := by
  rw [sectionText, hprint, fileText, sectionLines, List.cons_append, List.flatMap_cons,
    List.flatMap_append, List.flatMap_map]
  simp [Line.text]

theorem wellFormed_sectionLines (name : List UInt8) (entries : List (List UInt8 × List UInt8))
    (hname : SectionOk name) (hentries : ∀ k v, (k, v) ∈ entries → EntryOk isBlank k v) :
    ∀ l ∈ sectionLines name entries, WellFormed isBlank l := by
  have hnil : Plain [] := ⟨List.not_mem_nil, List.not_mem_nil⟩
  have hpad : Pad isBlank [] := by
    intro c hc
    cases hc
  intro l hl
  rw [sectionLines, List.cons_append, List.mem_cons, List.mem_append, List.mem_map,
    List.mem_singleton] at hl
  rcases hl with rfl | ⟨⟨k, v⟩, he, rfl⟩ | rfl
  · refine ⟨⟨hname, hnil⟩, ?_⟩
    have hshort := hname.short
    simp only [Line.text, List.length_append, List.length_cons, List.length_nil]
    omega
  · obtain ⟨hk, hv, hshort⟩ := hentries k v he
    refine ⟨⟨hk, hv, hpad, hpad, hpad, hpad⟩, ?_⟩
    simp only [Line.text, List.length_append, List.length_cons, List.length_nil]
    omega
  · exact ⟨⟨hnil, Or.inr ⟨List.not_mem_nil, fun h => by cases h⟩⟩, by decide⟩

/-- A section that is printed gives every key the value of its map. -/
theorem foldl_sectionLines (s : SectEntry H) (entries : List (List UInt8 × List UInt8)) (r : Reading)
    (hnodup : (entries.map Prod.fst).Nodup)
    (hmem : ∀ k v, (k, v) ∈ entries ↔ M.hash_lookup s.h k = some v) :
    ∃ m, (sectionLines s.name entries).foldl Reading.line r = (some s.name, m) ∧
      (∀ key, m s.name key = (M.hash_lookup s.h key).or (r.2 s.name key)) ∧
      ∀ sec key, sec ≠ s.name → m sec key = r.2 sec key := by
  obtain ⟨m, hfold, hother, hin, hout⟩ := foldl_entries entries s.name r.2 hnodup
  refine ⟨m, ?_, ?_, hother⟩
  · rw [sectionLines, List.cons_append, List.foldl_cons, List.foldl_append]
    exact congrArg (fun r => Reading.line r (.other [])) hfold
  · intro key
    cases hkey : M.hash_lookup s.h key with
    | some v =>
      rw [hin key v ((hmem key v).mpr hkey)]
      rfl
    | none =>
      rw [hout key]
      · rfl
      · intro hk
        obtain ⟨⟨k, v⟩, he, rfl⟩ := List.mem_map.mp hk
        rw [(hmem k v).mp he] at hkey
        cases hkey

-- By induction over the sections: what the ones that are left print is put over what was read.
theorem lines_of_sections (sections : List (SectEntry H)) (hnodup : (sections.map SectEntry.name).Nodup)
    (hname : ∀ s ∈ sections, SectionOk s.name)
    (hentry : ∀ s ∈ sections, ∀ k v, M.hash_lookup s.h k = some v → EntryOk isBlank k v) :
    ∃ lines, (∀ l ∈ lines, WellFormed isBlank l) ∧ fileText lines = sections.flatMap (sectionText M) ∧
      ∀ (r : Reading) (sec key : List UInt8), (lines.foldl Reading.line r).2 sec key =
        ((sections.find? (fun s => s.name = sec)).bind (fun s => M.hash_lookup s.h key)).or
          (r.2 sec key) := by
  induction sections with
  | nil => exact ⟨[], by simp, rfl, fun _ _ _ => rfl⟩
  | cons s sections ih =>
    rw [List.map_cons, List.nodup_cons] at hnodup
    obtain ⟨lines, hwf, htext, hfold⟩ := ih hnodup.2
      (fun t ht => hname t (List.mem_cons_of_mem _ ht))
      (fun t ht => hentry t (List.mem_cons_of_mem _ ht))
    obtain ⟨entries, hkeys, hmem, hprint⟩ := M.prints s.h
    have hself : List.Mem s (s :: sections) := List.mem_cons_self
    refine ⟨sectionLines s.name entries ++ lines, ?_, ?_, ?_⟩
    · intro l hl
      rcases List.mem_append.mp hl with hl | hl
      · exact wellFormed_sectionLines s.name entries (hname s hself)
          (fun k v he => hentry s hself k v ((hmem k v).mp he)) l hl
      · exact hwf l hl
    · rw [fileText, List.flatMap_append, List.flatMap_cons, ← htext]
      exact congrArg (· ++ fileText lines) (fileText_sectionLines M s entries hprint)
    · intro r sec key
      obtain ⟨m, hline, hown, hother⟩ := foldl_sectionLines M s entries r hkeys hmem
      rw [List.foldl_append, hline, hfold, List.find?_cons]
      by_cases hsec : s.name = sec
      · subst hsec
        have hnone : sections.find? (fun t => t.name = s.name) = none := by
          apply List.find?_eq_none.mpr
          intro t ht hname
          exact hnodup.1 (of_decide_eq_true hname ▸ List.mem_map_of_mem ht)
        rw [hnone, decide_eq_true rfl]
        exact hown key
      · rw [decide_eq_false hsec]
        exact congrArg _ (hother sec key (Ne.symm hsec))

/-- What is saved holds the values of the entry. -/
theorem save_holds (h : ce.Sound M) : Holds isBlank (ce.confEntrySave M) (ce.value M) := by
  have hentry : ∀ s ∈ ce.sections, ∀ k v, M.hash_lookup s.h k = some v → EntryOk isBlank k v := by
    intro s hs k v hv
    obtain ⟨i, hi⟩ := List.mem_iff_getElem?.mp hs
    exact h.values s.name k v ((ce.value_eq M s i hi k).trans hv)
  obtain ⟨lines, hwf, htext, hfold⟩ := lines_of_sections M ce.sections ce.nodup h.sections hentry
  refine ⟨lines, hwf, ?_, Or.inl htext.symm⟩
  funext sec key
  rw [held, hfold, value]
  exact Option.or_none

end Save

section RoundTrip

theorem get_section (sec field : List UInt8) :
    (ce.currentSectionSet sec).1.confEntryGet M field = ce.value M sec field := by
  rw [confEntryGet_eq]
  cases hfind : ce.findSection sec with
  | none =>
    rw [ce.currentSectionSet_none sec hfind, ce.value_eq_none M sec hfind field]
    rfl
  | some i =>
    obtain ⟨ce', heq, -, hreading⟩ := ce.currentSectionSet_some M sec i hfind
    have hcurrent : ce'.current = some sec := congrArg Prod.fst hreading
    have hvalue : ce'.value M = ce.value M := congrArg Prod.snd hreading
    rw [heq]
    dsimp only
    rw [hcurrent, hvalue]
    rfl

/-- Every field of every section of an entry is what it was, after the entry has been saved and the file
has been read into a new entry. -/
theorem save_parse (h : ce.Sound M) (filename sec field : List UInt8) :
    ((confEntryNew M filename (ce.confEntrySave M)).currentSectionSet sec).1.confEntryGet M field =
      (ce.currentSectionSet sec).1.confEntryGet M field := by
  obtain ⟨hvalue, -, -⟩ := confEntryNew_holds M filename _ _ (ce.save_holds M h)
  rw [get_section, get_section, hvalue]

open StringHash

theorem nodup_noNames : ([] : List (List UInt8)).Nodup := List.nodup_nil

/-- A section "[a" with the field "k", whose value looks like a header and like a comment. -/
def sample : ConfEntry Hash :=
  ((⟨[], -1, [], by simp, nodup_noNames⟩ : ConfEntry Hash).entryNew hashModule (lit "[a")).1.hashAdd
    hashModule (lit "k") (lit "[x]=#")

theorem sectionOk_sample : SectionOk (lit "[a") :=
  ⟨by decide, ⟨by decide, by decide⟩, by decide, by decide⟩

theorem entryOk_sample : EntryOk isBlank (lit "k") (lit "[x]=#") := by
  have htrim (s : List UInt8) (hs : s.all (fun c => !isBlank c) = true) : Trimmed isBlank s := by
    have hblank (c : UInt8) (hc : c ∈ s) : isBlank c = false := by
      simpa using List.all_eq_true.mp hs c hc
    exact ⟨fun c hc => hblank c (List.mem_of_head? hc), fun c hc => hblank c (List.mem_of_getLast? hc)⟩
  have hkey : KeyOk isBlank (lit "k") :=
    ⟨by decide, htrim _ (by decide), ⟨by decide, by decide⟩, by decide, by decide, by decide⟩
  have hval : ValueOk isBlank (lit "[x]=#") := ⟨by decide, htrim _ (by decide), by decide, by decide⟩
  exact ⟨hkey, hval, by decide⟩

theorem sound_sample : sample.Sound hashModule := by
  obtain ⟨ce', heq, -, hreading, -⟩ := entryNew_reading hashModule
    (⟨[], -1, [], by simp, List.nodup_nil⟩ : ConfEntry Hash) (lit "[a") (by decide)
  have hsound := sound_entryNew hashModule _ (sound_empty hashModule []) (lit "[a")
    sectionOk_sample
  rw [heq] at hsound
  rw [sample, heq]
  exact ce'.sound_hashAdd hashModule hsound (lit "[a") _ _ (congrArg Prod.fst hreading)
    entryOk_sample

theorem save_parse_sample : sample.Sound hashModule ∧
    ((confEntryNew hashModule [] (sample.confEntrySave hashModule)).currentSectionSet
      (lit "[a")).1.confEntryGet hashModule (lit "k") = some (lit "[x]=#") := by
  refine ⟨sound_sample, ?_⟩
  rw [save_parse hashModule sample sound_sample]
  decide

end RoundTrip

end Leviathan.Profile.ConfEntry
