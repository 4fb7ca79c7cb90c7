import Mathlib.Tactic

/-! Runs of a partial, deterministic transition function.  A label that is not
enabled in a state has no successor; a run is a list of labels that are all
enabled, one after the other. -/
namespace Leviathan.Runs

variable {S A : Type*} (step : S → A → Option S)

/-- The state after a list of labels, when every one of them is enabled. -/
def runFrom : S → List A → Option S
  | s, [] => some s
  | s, a :: as => (step s a).bind (fun t => runFrom t as)

/-- Every label of the list meets `guard` in the state it is taken in. -/
def Along (guard : S → A → Prop) : S → List A → Prop
  | _, [] => True
  | s, a :: as => guard s a ∧ ∀ t, step s a = some t → Along guard t as

instance decidableAlong (guard : S → A → Prop) [∀ s a, Decidable (guard s a)] :
    ∀ s as, Decidable (Along step guard s as)
  | _, [] => isTrue trivial
  | s, a :: as =>
    match h : step s a with
    | none => decidable_of_iff (guard s a) ⟨fun hg => ⟨hg, by simp [h]⟩, And.left⟩
    | some t =>
      have := decidableAlong guard t as
      decidable_of_iff (guard s a ∧ Along step guard t as)
        ⟨fun hg => ⟨hg.1, by simpa [h] using hg.2⟩, fun hg => ⟨hg.1, hg.2 t h⟩⟩

@[simp] theorem runFrom_nil (s : S) : runFrom step s [] = some s := rfl

theorem runFrom_cons_iff (s t : S) (a : A) (as : List A) :
    runFrom step s (a :: as) = some t ↔
      ∃ u, step s a = some u ∧ runFrom step u as = some t := by
  simp only [runFrom, Option.bind_eq_some_iff]

theorem runFrom_append_iff (s t : S) (as bs : List A) :
    runFrom step s (as ++ bs) = some t ↔
      ∃ u, runFrom step s as = some u ∧ runFrom step u bs = some t := by
  induction as generalizing s with
  | nil => simp
  | cons a as ih =>
    rw [List.cons_append, runFrom_cons_iff]
    constructor
    · rintro ⟨v, hv, h⟩
      obtain ⟨u, hu, ht⟩ := (ih v).mp h
      exact ⟨u, (runFrom_cons_iff step s u a as).mpr ⟨v, hv, hu⟩, ht⟩
    · rintro ⟨u, hu, ht⟩
      obtain ⟨v, hv, h⟩ := (runFrom_cons_iff step s u a as).mp hu
      exact ⟨v, hv, (ih v).mpr ⟨u, h, ht⟩⟩

-- What every guarded step preserves, every guarded run preserves.
theorem runFrom_guarded_invariant (guard : S → A → Prop) (Inv : S → Prop)
    (hstep : ∀ s a t, Inv s → guard s a → step s a = some t → Inv t)
    (s t : S) (as : List A) (hs : Inv s) (hg : Along step guard s as)
    (hr : runFrom step s as = some t) : Inv t := by
  induction as generalizing s with
  | nil =>
    cases hr
    exact hs
  | cons a as ih =>
    obtain ⟨u, hu, hr⟩ := (runFrom_cons_iff step s t a as).mp hr
    exact ih u (hstep s a u hs hg.1 hu) (hg.2 u hu) hr

-- What every step preserves, every run preserves.
theorem runFrom_invariant (Inv : S → Prop)
    (hstep : ∀ s a t, Inv s → step s a = some t → Inv t)
    (s t : S) (as : List A) (hs : Inv s) (hr : runFrom step s as = some t) : Inv t := by
  induction as generalizing s with
  | nil =>
    cases hr
    exact hs
  | cons a as ih =>
    obtain ⟨u, hu, hr⟩ := (runFrom_cons_iff step s t a as).mp hr
    exact ih u (hstep s a u hs hu) hr

-- A guarded run goes to its end when every guarded step has a successor.
theorem runFrom_exists (guard : S → A → Prop) (Inv : S → Prop)
    (hstep : ∀ s a, Inv s → guard s a → ∃ t, step s a = some t ∧ Inv t)
    (s : S) (as : List A) (hs : Inv s) (hg : Along step guard s as) :
    ∃ t, runFrom step s as = some t ∧ Inv t := by
  induction as generalizing s with
  | nil => exact ⟨s, rfl, hs⟩
  | cons a as ih =>
    obtain ⟨u, hu, hinv⟩ := hstep s a hs hg.1
    obtain ⟨t, ht, hinv⟩ := ih u hinv (hg.2 u hu)
    exact ⟨t, (runFrom_cons_iff step s t a as).mpr ⟨u, hu, ht⟩, hinv⟩

-- What an invariant of the guarded steps gives at one step holds all along a guarded run.
theorem along_of_invariant (guard P : S → A → Prop) (Inv : S → Prop)
    (hstep : ∀ s a t, Inv s → guard s a → step s a = some t → Inv t)
    (hP : ∀ s a, Inv s → guard s a → P s a) (s : S) (as : List A) (hs : Inv s)
    (hg : Along step guard s as) : Along step P s as := by
  induction as generalizing s with
  | nil => trivial
  | cons a as ih =>
    refine ⟨hP s a hs hg.1, fun t ht => ?_⟩
    exact ih t (hstep s a t hs hg.1 ht) (hg.2 t ht)

theorem along_of_forall (P : S → A → Prop) (h : ∀ s a, P s a) (s : S) (as : List A) :
    Along step P s as := by
  induction as generalizing s with
  | nil => trivial
  | cons a as ih => exact ⟨h s a, fun t _ => ih t⟩

-- Two properties of steps that agree wherever an invariant holds agree along a run, if the steps that
-- have the second one keep the invariant.
theorem along_iff_of_invariant (guard P Q : S → A → Prop) (Inv : S → Prop)
    (hstep : ∀ s a t, Inv s → guard s a → Q s a → step s a = some t → Inv t)
    (hPQ : ∀ s a, Inv s → guard s a → (P s a ↔ Q s a)) (s : S) (as : List A) (hs : Inv s)
    (hg : Along step guard s as) : Along step P s as ↔ Along step Q s as := by
  induction as generalizing s with
  | nil => exact Iff.rfl
  | cons a as ih =>
    have hhead := hPQ s a hs hg.1
    constructor
    · rintro ⟨hp, htail⟩
      have hq := hhead.mp hp
      exact ⟨hq, fun t ht => (ih t (hstep s a t hs hg.1 hq ht) (hg.2 t ht)).mp (htail t ht)⟩
    · rintro ⟨hq, htail⟩
      exact ⟨hhead.mpr hq, fun t ht => (ih t (hstep s a t hs hg.1 hq ht) (hg.2 t ht)).mpr (htail t ht)⟩

-- What holds along a run holds of the label that comes after its first labels.
theorem along_after (P : S → A → Prop) (s t : S) (as bs : List A) (b : A)
    (hr : runFrom step s as = some t) (h : Along step P s (as ++ b :: bs)) : P t b := by
  induction as generalizing s with
  | nil =>
    obtain rfl := Option.some.inj hr
    exact h.1
  | cons a as ih =>
    obtain ⟨u, hu, hr⟩ := (runFrom_cons_iff step s t a as).mp hr
    exact ih u hr (h.2 u hu)

end Leviathan.Runs
