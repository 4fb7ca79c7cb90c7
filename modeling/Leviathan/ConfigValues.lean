import Leviathan.IniLines
import Leviathan.ProfileUtil

/-! What the operations on a `ConfEntry` do to the values it holds and to the section that is open. -/
namespace Leviathan.Profile.ConfEntry

open Ini

variable {H : Type} (M : StringMap H) (ce : ConfEntry H)

/-- The values of an entry in memory. -/
def value : Values := fun sec key =>
  (ce.sections.find? (fun s => s.name = sec)).bind (fun s => M.hash_lookup s.h key)

/-- The name of the current section. -/
def current : Option (List UInt8) :=
  if ce.curEntryIdx < 0 then none else (ce.sections[ce.curEntryIdx.toNat]?).map SectEntry.name

def reading : Reading := (ce.current, ce.value M)

section Sections

-- A section is found under its own name.
theorem find_section (s : SectEntry H) (i : ℕ) (h : ce.sections[i]? = some s) :
    ce.sections.find? (fun t => t.name = s.name) = some s := by
  obtain ⟨hi, rfl⟩ := List.getElem?_eq_some_iff.mp h
  apply List.find?_eq_some_iff_getElem.mpr
  refine ⟨decide_eq_true rfl, i, hi, rfl, ?_⟩
  intro j hj
  have hne : ce.sections[j].name ≠ ce.sections[i].name := by
    intro hname
    have hinj := List.inj_on_of_nodup_map ce.nodup
    have hsame : ce.sections[j] = ce.sections[i] := hinj (by simp) (by simp) hname
    rw [List.Nodup.getElem_inj_iff (List.Nodup.of_map _ ce.nodup)] at hsame
    omega
  simp [hne]

theorem value_eq (s : SectEntry H) (i : ℕ) (h : ce.sections[i]? = some s) (key : List UInt8) :
    ce.value M s.name key = M.hash_lookup s.h key := by
  rw [value, ce.find_section s i h]
  rfl

theorem value_eq_none (sec : List UInt8) (h : ce.findSection sec = none) (key : List UInt8) :
    ce.value M sec key = none := by
  have hfind : ce.sections.find? (fun s => s.name = sec) = none := by
    apply List.find?_eq_none.mpr
    intro s hs hname
    exact ce.findSection_eq_none sec h (of_decide_eq_true hname ▸ List.mem_map_of_mem hs)
  rw [value, hfind]
  rfl

theorem currentSectionSet_none (sec : List UInt8) (h : ce.findSection sec = none) :
    ce.currentSectionSet sec = (ce.closed, false) := by
  unfold currentSectionSet
  split
  · rfl
  · rename_i hi
    rw [h] at hi
    cases hi

/-- An entry that differs at most in its current section. -/
structure Moved (ce' : ConfEntry H) : Prop where
  filename : ce'.filename = ce.filename
  sections : ce'.sections = ce.sections

theorem currentSectionSet_some (sec : List UInt8) (i : ℕ) (h : ce.findSection sec = some i) :
    ∃ ce', ce.currentSectionSet sec = (ce', true) ∧ ce.Moved ce' ∧
      ce'.reading M = (some sec, ce.value M) := by
  obtain ⟨hi, hname⟩ := ce.findSection_eq_some sec i h
  unfold currentSectionSet
  split
  · rename_i hnone
    rw [h] at hnone
    cases hnone
  · rename_i j hj
    rw [h] at hj
    obtain rfl := Option.some.inj hj
    refine ⟨_, rfl, ⟨rfl, rfl⟩, Prod.ext ?_ rfl⟩
    show (if (i : ℤ) < 0 then none else (ce.sections[(i : ℤ).toNat]?).map SectEntry.name) = some sec
    rw [if_neg (by omega), Int.toNat_natCast, List.getElem?_eq_getElem hi, Option.map_some, hname]

theorem append_reading (sec : List UInt8) (h : ce.findSection sec = none) :
    (ce.append M sec h).reading M = (some sec, ce.value M) := by
  have hsections : (ce.append M sec h).sections =
      ce.sections ++ [(⟨sec, M.hash_new⟩ : SectEntry H)] := rfl
  have hcurrent : (ce.append M sec h).current = some sec := by
    have hidx : (ce.append M sec h).curEntryIdx = ce.sections.length := rfl
    rw [current, hsections, hidx, if_neg (by omega), Int.toNat_natCast,
      List.getElem?_append_right le_rfl, Nat.sub_self]
    rfl
  refine Prod.ext hcurrent ?_
  funext s key
  show (ce.append M sec h).value M s key = ce.value M s key
  rw [value, value, hsections, List.find?_append]
  cases hfind : ce.sections.find? (fun t => t.name = s) with
  | some t => rfl
  | none =>
    by_cases hs : sec = s
    · simp [hs, M.lookup_new]
    · simp [hs]

-- The section that is not there yet has no values.
theorem entryNew_reading (sec : List UInt8) (hsec : sec ≠ []) :
    ∃ ce', ce.entryNew M sec = (ce', true) ∧ ce'.filename = ce.filename ∧
      ce'.reading M = (some sec, ce.value M) ∧
      ∀ s ∈ ce'.sections, s ∈ ce.sections ∨ s.name = sec := by
  unfold entryNew
  rw [if_neg hsec]
  split
  · rename_i hnone
    refine ⟨_, rfl, rfl, ce.append_reading M sec hnone, ?_⟩
    intro s hs
    rcases List.mem_append.mp hs with hold | hnew
    · exact Or.inl hold
    · rw [List.mem_singleton.mp hnew]
      exact Or.inr rfl
  · rename_i i hi
    obtain ⟨ce', heq, hmoved, hreading⟩ := ce.currentSectionSet_some M sec i hi
    rw [heq]
    refine ⟨ce', rfl, hmoved.filename, hreading, ?_⟩
    intro s hs
    rw [hmoved.sections] at hs
    exact Or.inl hs

end Sections

section Entries

theorem find?_modify {α : Type} (l : List α) (i : ℕ) (f : α → α) (p : α → Bool)
    (hp : ∀ x, p (f x) = p x) (hi : ∀ x, l[i]? = some x → p x = false) :
    (l.modify i f).find? p = l.find? p := by
  induction l generalizing i with
  | nil => rw [List.modify_nil]
  | cons x l ih =>
    cases i with
    | zero =>
      have hx := hi x rfl
      rw [List.modify_zero_cons, List.find?_cons, List.find?_cons, hp, hx]
    | succ i =>
      rw [List.modify_succ_cons, List.find?_cons, List.find?_cons, ih i hi]

theorem current_eq (h : 0 ≤ ce.curEntryIdx) :
    ∃ s, ce.sections[ce.curEntryIdx.toNat]? = some s ∧ ce.current = some s.name := by
  have hlt : ce.curEntryIdx.toNat < ce.sections.length := by
    have hrange := ce.inRange
    omega
  refine ⟨_, List.getElem?_eq_getElem hlt, ?_⟩
  rw [current, if_neg (not_lt.mpr h), List.getElem?_eq_getElem hlt]
  rfl

theorem current_nonneg (sec : List UInt8) (h : ce.current = some sec) : 0 ≤ ce.curEntryIdx := by
  by_contra hneg
  rw [current, if_pos (not_le.mp hneg)] at h
  cases h

theorem confEntryGet_eq (field : List UInt8) :
    ce.confEntryGet M field = ce.current.bind (fun sec => ce.value M sec field) := by
  rcases lt_or_ge ce.curEntryIdx 0 with hneg | hpos
  · rw [confEntryGet, if_pos hneg, current, if_pos hneg]
    rfl
  · obtain ⟨s, hs, hcurrent⟩ := ce.current_eq hpos
    rw [confEntryGet, if_neg (not_lt.mpr hpos), hs, hcurrent]
    exact (ce.value_eq M s _ hs field).symm

theorem hashAdd_reading (sec key val : List UInt8) (h : ce.current = some sec) :
    (ce.hashAdd M key val).reading M = (some sec, withValue (ce.value M) sec key val) := by
  obtain ⟨s, hs, hcurrent⟩ := ce.current_eq (ce.current_nonneg sec h)
  rw [hcurrent] at h
  obtain rfl := Option.some.inj h
  have hmod : (ce.hashAdd M key val).sections[ce.curEntryIdx.toNat]? =
      some { s with h := M.hash_add s.h key val } := by
    show (ce.sections.modify _ _)[_]? = _
    rw [List.getElem?_modify, hs]
    simp
  refine Prod.ext ?_ ?_
  · show (ce.hashAdd M key val).current = some s.name
    have hidx : (ce.hashAdd M key val).curEntryIdx = ce.curEntryIdx := rfl
    rw [current, hidx, if_neg (not_lt.mpr (ce.current_nonneg s.name hcurrent)), hmod]
    rfl
  · funext t k
    show (ce.hashAdd M key val).value M t k = withValue (ce.value M) s.name key val t k
    by_cases ht : t = s.name
    · subst ht
      have hvalue := (ce.hashAdd M key val).value_eq M _ _ hmod k
      rw [M.lookup_add] at hvalue
      rw [hvalue, withValue, ce.value_eq M s _ hs k]
      simp
    · have hfind : (ce.hashAdd M key val).sections.find? (fun s => s.name = t) =
          ce.sections.find? (fun s => s.name = t) := by
        refine find?_modify _ _ _ _ (fun _ => rfl) ?_
        intro x hx
        rw [hs] at hx
        obtain rfl := Option.some.inj hx
        exact decide_eq_false (Ne.symm ht)
      rw [withValue, if_neg (fun hand => ht hand.1), value, value, hfind]

end Entries

end Leviathan.Profile.ConfEntry
