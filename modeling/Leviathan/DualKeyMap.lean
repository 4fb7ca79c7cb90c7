import Leviathan.DualKeyRefine

namespace Leviathan.CDKeyHashMap

variable {n1 n2 : ℕ} {m : CDKeyHashMap} {a : PairMap}

theorem step_simulates (h1 : 1 ≤ n1) (hint1 : n1 < 2^31) (h2 : 1 ≤ n2) (hint2 : n2 < 2^31)
    (m : CDKeyHashMap) (a : PairMap) (op : Op) (h : Refines n1 n2 m a) (hg : FreshHashValue a op) :
    ∃ m' nRes, step m op = .ok (m', nRes) ∧ Refines n1 n2 m' (pairStep a op).1 ∧
      (pairStep a op).2.Code nRes := by
  cases op with
  | addKey k1 k2 p =>
    cases ha : a k1 k2 with
    | none =>
      obtain ⟨m', hadd, hr⟩ := addKey_absent h h1 hint1 h2 hint2 k1 k2 p ha
      refine ⟨m', _, by rw [step, hadd], ?_, ?_⟩
      · simpa [pairStep, ha] using hr
      · simp [pairStep, ha, PairMap.Answer.Code]
    | some v =>
      have hadd := addKey_present h h1 h2 k1 k2 p (by simp [ha])
      refine ⟨m, _, by rw [step, hadd], ?_, ?_⟩
      · simpa [pairStep, ha] using h
      · simp [pairStep, ha, PairMap.Answer.Code]
  | addKeyValue k1 k2 v p stale =>
    cases ha : a k1 k2 with
    | none =>
      obtain ⟨m', hadd, hr⟩ := addKeyValue_absent h h1 hint1 h2 hint2 k1 k2 v p stale ha
      refine ⟨m', _, hadd, ?_, ?_⟩
      · simpa [pairStep, ha] using hr
      · simp [pairStep, ha, PairMap.Answer.Code, eHASH_RESULT_SUCESS]
    | some w =>
      have hp : p = 0 := by
        by_contra hp
        rw [hg hp] at ha
        cases ha
      subst hp
      refine ⟨m, _, addKeyValue_present h h1 h2 k1 k2 v stale (by simp [ha]), ?_, ?_⟩
      · simpa [pairStep, ha] using h
      · simp [pairStep, ha, PairMap.Answer.Code]
  | setValue k1 k2 v =>
    cases ha : a k1 k2 with
    | none =>
      have hset := setValue_absent h h1 h2 k1 k2 v ha
      refine ⟨m, _, by rw [step, hset], ?_, ?_⟩
      · simpa [pairStep, ha] using h
      · simp [pairStep, ha, PairMap.Answer.Code]
    | some w =>
      obtain ⟨hcode, hr⟩ := setValue_present h h1 h2 k1 k2 v (by simp [ha])
      refine ⟨(m.setValue k1 k2 v).1, (m.setValue k1 k2 v).2, rfl, ?_, ?_⟩
      · simpa [pairStep, ha] using hr
      · simpa [pairStep, ha, PairMap.Answer.Code] using hcode

theorem getNode_eq (h : Refines n1 n2 m a) (h1 : 1 ≤ n1) (h2 : 1 ≤ n2) (k1 k2 : CString) :
    m.getNode k1 k2 = (a k1 k2).map (fun v => ⟨k2, v⟩) := by
  unfold getNode
  rcases hashLookup_group h h1 k1 with ⟨hl, hf⟩ | ⟨pNode, hl, hf⟩
  · have hv := h.lookup k1 k2
    rw [hf] at hv
    rw [hl, ← hv]
    rfl
  · rw [hl, ← hashLookup_table h h2 k1 k2 pNode.value hf]
    exact CHash.hashLookup_eq_map pNode.value k2

theorem isNode_eq (h : Refines n1 n2 m a) (h1 : 1 ≤ n1) (h2 : 1 ≤ n2) (k1 k2 : CString) :
    m.isNode k1 k2 = (a k1 k2).isSome := by
  have hn : m.isNode k1 k2 = (m.getNode k1 k2).isSome := by
    unfold isNode getNode
    split <;> rfl
  rw [hn, getNode_eq h h1 h2 k1 k2, Option.isSome_map]

/-- Every lookup answers as the map of pairs does. -/
def Answers (m : CDKeyHashMap) (a : PairMap) : Prop :=
  ∀ k1 k2, m.isNode k1 k2 = (a k1 k2).isSome ∧ m.getNode k1 k2 = (a k1 k2).map (fun v => ⟨k2, v⟩)

/-- Over every list of calls in which a table value comes only with a new pair, the hash map does
what the map of pairs does: no call faults, every return code is right, and so is every lookup. -/
theorem run_refines_pairMap (n1 n2 : ℕ) (h1 : 1 ≤ n1) (hint1 : n1 < 2^31) (h2 : 1 ≤ n2)
    (hint2 : n2 < 2^31) (ops : List Op)
    (hg : Simulation.Guarded pairStep FreshHashValue PairMap.empty ops) :
    ∃ m codes, Simulation.run step (new n1 n2) ops = .ok (m, codes) ∧
      Answers m (Simulation.absRun pairStep PairMap.empty ops).1 ∧
      List.Forall₂ PairMap.Answer.Code (Simulation.absRun pairStep PairMap.empty ops).2 codes := by
  obtain ⟨m, codes, hrun, hr, hcodes⟩ := Simulation.run_simulates
    (step_simulates h1 hint1 h2 hint2) (new n1 n2) PairMap.empty ops refines_new hg
  exact ⟨m, codes, hrun, fun k1 k2 => ⟨isNode_eq hr h1 h2 k1 k2, getNode_eq hr h1 h2 k1 k2⟩, hcodes⟩

def keyA : CString := ⟨[97], by decide⟩

def keyB : CString := ⟨[98], by decide⟩

-- tables of one bucket, so that all keys collide
def collidingOps : List Op :=
  [.addKeyValue keyA keyA 5 3 .wild, .addKey keyB keyA 0, .addKeyValue keyA keyA 6 0 .wild,
    .setValue keyB keyB 7, .setValue keyB keyA 8]

theorem run_refines_pairMap_colliding :
    ∃ m codes, Simulation.run step (new 1 1) collidingOps = .ok (m, codes) ∧
      Answers m (Simulation.absRun pairStep PairMap.empty collidingOps).1 ∧
      List.Forall₂ PairMap.Answer.Code
        (Simulation.absRun pairStep PairMap.empty collidingOps).2 codes :=
  run_refines_pairMap 1 1 (by decide) (by decide) (by decide) (by decide) collidingOps
    (by simp [collidingOps, Simulation.Guarded, FreshHashValue, PairMap.empty])

-- the same pair twice, the second time with a table value
def duplicateOps : List Op :=
  [.addKeyValue keyA keyA 5 0 .null, .addKeyValue keyA keyA 6 7 .wild]

/-- The second call writes through the uninitialised pointer instead of only answering. -/
theorem not_run_refines_duplicate : ¬∀ ops : List Op,
    ∃ m codes, Simulation.run step (new 1 1) ops = .ok (m, codes) ∧
      Answers m (Simulation.absRun pairStep PairMap.empty ops).1 ∧
      List.Forall₂ PairMap.Answer.Code (Simulation.absRun pairStep PairMap.empty ops).2 codes := by
  intro h
  obtain ⟨m, codes, hrun, _⟩ := h duplicateOps
  have hnew : Refines 1 1 (new 1 1) PairMap.empty := refines_new
  obtain ⟨m1, hadd, hr⟩ := addKeyValue_absent hnew (by decide) (by decide) (by decide) (by decide)
    keyA keyA 5 0 .null rfl
  have hdup := addKey_present hr (by decide) (by decide) keyA keyA 0 (by simp [PairMap.insert])
  have hwild : m1.addKeyValue keyA keyA 6 7 .wild = .error .wildWrite := by
    rw [addKeyValue, hdup]
    rfl
  simp only [duplicateOps, Simulation.run, step, hadd, hwild] at hrun
  cases hrun

end Leviathan.CDKeyHashMap
