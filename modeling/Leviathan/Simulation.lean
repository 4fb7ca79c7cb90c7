import Mathlib.Tactic

/-! Forward simulation between a machine that may fail and an abstract one, both answering every
operation.  A guard on the abstract state says which operations may be asked for. -/
namespace Leviathan.Simulation

variable {C A Op Err O P : Type*}

section Runs

variable (cstep : C → Op → Except Err (C × O)) (astep : A → Op → A × P)

/-- The state and the answers after a list of operations. -/
def run : C → List Op → Except Err (C × List O)
  | c, [] => .ok (c, [])
  | c, op :: ops =>
    match cstep c op with
    | .error e => .error e
    | .ok (c', o) =>
      match run c' ops with
      | .error e => .error e
      | .ok (c'', os) => .ok (c'', o :: os)

def absRun : A → List Op → A × List P
  | a, [] => (a, [])
  | a, op :: ops =>
    let r := absRun (astep a op).1 ops
    (r.1, (astep a op).2 :: r.2)

/-- Every operation of the list meets the guard when its turn comes. -/
def Guarded (guard : A → Op → Prop) : A → List Op → Prop
  | _, [] => True
  | a, op :: ops => guard a op ∧ Guarded guard (astep a op).1 ops

-- An operation is answered in the state that the ones before it leave.
theorem absRun_getElem (a : A) (pre post : List Op) (op : Op) :
    (absRun astep a (pre ++ op :: post)).2[pre.length]? = some (astep (absRun astep a pre).1 op).2 := by
  induction pre generalizing a with
  | nil => rfl
  | cons p pre ih => exact ih (astep a p).1

-- What every operation keeps of the state and of the answers given so far, every run keeps.
theorem run_of_history (Inv : C → List (Op × O) → Prop)
    (hstep : ∀ c hist op, Inv c hist →
      ∃ c' o, cstep c op = .ok (c', o) ∧ Inv c' (hist ++ [(op, o)]))
    (c : C) (hist : List (Op × O)) (ops : List Op) (h : Inv c hist) :
    ∃ c' os, run cstep c ops = .ok (c', os) ∧ Inv c' (hist ++ ops.zip os) := by
  induction ops generalizing c hist with
  | nil => exact ⟨c, [], rfl, by rwa [List.zip_nil_left, List.append_nil]⟩
  | cons op ops ih =>
    obtain ⟨c1, o, h1, hInv1⟩ := hstep c hist op h
    obtain ⟨c2, os, h2, hInv2⟩ := ih c1 _ hInv1
    refine ⟨c2, o :: os, ?_, ?_⟩
    · simp only [run, h1, h2]
    · rw [List.zip_cons_cons, List.append_cons]
      exact hInv2

-- Two states that are kept alike by every operation, with the same answer, give the same answers.
theorem run_twins (Alike : C → C → Prop)
    (hstep : ∀ c d op, Alike c d →
      ∃ c' d' o, cstep c op = .ok (c', o) ∧ cstep d op = .ok (d', o) ∧ Alike c' d')
    (c d : C) (ops : List Op) (h : Alike c d) :
    ∃ c' d' os, run cstep c ops = .ok (c', os) ∧ run cstep d ops = .ok (d', os) := by
  induction ops generalizing c d with
  | nil => exact ⟨c, d, [], rfl, rfl⟩
  | cons op ops ih =>
    obtain ⟨c1, d1, o, hc1, hd1, h1⟩ := hstep c d op h
    obtain ⟨c2, d2, os, hc2, hd2⟩ := ih c1 d1 h1
    exact ⟨c2, d2, o :: os, by simp only [run, hc1, hc2], by simp only [run, hd1, hd2]⟩

end Runs

variable {cstep : C → Op → Except Err (C × O)} {astep : A → Op → A × P}
variable {R : C → A → Prop} {guard : A → Op → Prop} {agree : P → O → Prop}

-- From one step to all runs.
theorem run_simulates
    (hstep : ∀ c a op, R c a → guard a op →
      ∃ c' o, cstep c op = .ok (c', o) ∧ R c' (astep a op).1 ∧ agree (astep a op).2 o)
    (c : C) (a : A) (ops : List Op) (hR : R c a) (hg : Guarded astep guard a ops) :
    ∃ c' os, run cstep c ops = .ok (c', os) ∧ R c' (absRun astep a ops).1 ∧
      List.Forall₂ agree (absRun astep a ops).2 os := by
  induction ops generalizing c a with
  | nil => exact ⟨c, [], rfl, hR, List.Forall₂.nil⟩
  | cons op ops ih =>
    obtain ⟨c1, o, h1, hR1, ho⟩ := hstep c a op hR hg.1
    obtain ⟨c2, os, h2, hR2, hos⟩ := ih c1 (astep a op).1 hR1 hg.2
    refine ⟨c2, o :: os, ?_, hR2, List.Forall₂.cons ho hos⟩
    simp only [run, h1, h2]

end Leviathan.Simulation
