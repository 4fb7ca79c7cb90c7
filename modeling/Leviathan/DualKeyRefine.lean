import Leviathan.DualKeyHash
import Leviathan.Simulation

namespace Leviathan

/-- What the map is for: a value for some pairs of keys. -/
def PairMap : Type := CString → CString → Option ℕ

namespace PairMap

def empty : PairMap := fun _ _ => none

def insert (a : PairMap) (pKey1 pKey2 : CString) (pValue : ℕ) : PairMap :=
  fun k1 k2 => if k1 = pKey1 ∧ k2 = pKey2 then some pValue else a k1 k2

theorem insert_same (a : PairMap) (k1 k2 k : CString) (v : ℕ) :
    a.insert k1 k2 v k1 k = if k = k2 then some v else a k1 k := by
  simp [insert]

theorem insert_other (a : PairMap) (k1 k2 k k' : CString) (v : ℕ) (hk : k ≠ k1) :
    a.insert k1 k2 v k k' = a k k' := by
  simp [insert, hk]

inductive Answer
  | added
  | duplicate
  | updated
  | invalid
  deriving DecidableEq

/-- The return code that stands for an answer; a new key is answered by its bucket number. -/
def Answer.Code : Answer → ℤ → Prop
  | .added, nRes => 0 ≤ nRes
  | .duplicate, nRes => nRes = eHASH_RESULT_DUPLICATE_KEYS
  | .updated, nRes => nRes = eHASH_RESULT_SUCESS
  | .invalid, nRes => nRes = eHASH_RESULT_INVALID_KEY

end PairMap

namespace CDKeyHashMap

inductive Op
  | addKey (pKey1 pKey2 : CString) (pHashValue : ℕ)
  | addKeyValue (pKey1 pKey2 : CString) (pValue pHashValue : ℕ) (stale : Stale)
  | setValue (pKey1 pKey2 : CString) (pValue : ℕ)

def step (m : CDKeyHashMap) : Op → Except Fault (CDKeyHashMap × ℤ)
  | .addKey k1 k2 p => let r := m.addKey k1 k2 p; .ok (r.1, r.2.1)
  | .addKeyValue k1 k2 v p stale => m.addKeyValue k1 k2 v p stale
  | .setValue k1 k2 v => .ok (m.setValue k1 k2 v)

def pairStep (a : PairMap) : Op → PairMap × PairMap.Answer
  | .addKey k1 k2 _ => if (a k1 k2).isSome then (a, .duplicate) else (a.insert k1 k2 0, .added)
  | .addKeyValue k1 k2 v _ _ =>
    if (a k1 k2).isSome then (a, .duplicate) else (a.insert k1 k2 v, .added)
  | .setValue k1 k2 v => if (a k1 k2).isSome then (a.insert k1 k2 v, .updated) else (a, .invalid)

/-- A table value is given to `addKeyValue` only together with a new pair. -/
def FreshHashValue (a : PairMap) : Op → Prop
  | .addKey _ _ _ | .setValue _ _ _ => True
  | .addKeyValue k1 k2 _ pHashValue _ => pHashValue ≠ 0 → a k1 k2 = none

structure Refines (n1 n2 : ℕ) (m : CDKeyHashMap) (a : PairMap) : Prop where
  max1 : m.m_pHashGroup.m_nMaxCount = n1
  max2 : m.m_nMaxCount2 = n2
  tables : ∀ k1 h, m.m_pHashGroup.find k1 = some h → h.m_nMaxCount = n2
  lookup : ∀ k1 k2, (m.m_pHashGroup.find k1).bind (·.find k2) = a k1 k2

variable {n1 n2 : ℕ} {m : CDKeyHashMap} {a : PairMap}

theorem refines_new : Refines n1 n2 (new n1 n2) PairMap.empty :=
  ⟨rfl, rfl, fun _ _ h => (Option.some_ne_none _ h.symm).elim, fun _ _ => rfl⟩

-- What the first lookup of every operation finds.
theorem hashLookup_group (h : Refines n1 n2 m a) (h1 : 1 ≤ n1) (k1 : CString) :
    (m.m_pHashGroup.hashLookup k1 = none ∧ m.m_pHashGroup.find k1 = none) ∨
      ∃ pNode, m.m_pHashGroup.hashLookup k1 = some pNode ∧
        m.m_pHashGroup.find k1 = some pNode.value := by
  have hv := CHash.hashLookup_map_value m.m_pHashGroup k1 (h.max1 ▸ h1)
  cases hl : m.m_pHashGroup.hashLookup k1 with
  | none =>
    rw [hl] at hv
    exact Or.inl ⟨rfl, hv.symm⟩
  | some pNode =>
    rw [hl] at hv
    exact Or.inr ⟨pNode, rfl, hv.symm⟩

-- What the second lookup finds is what the map says.
theorem hashLookup_table (h : Refines n1 n2 m a) (h2 : 1 ≤ n2) (k1 k2 : CString) (t : CHash ℕ)
    (ht : m.m_pHashGroup.find k1 = some t) : (t.hashLookup k2).map STHash_Node.value = a k1 k2 := by
  rw [CHash.hashLookup_map_value t k2 (h.tables k1 t ht ▸ h2), ← h.lookup k1 k2, ht]
  rfl

-- The table of one first key changes.
theorem refines_modifyTable (h : Refines n1 n2 m a) (k1 : CString) (t : CHash ℕ)
    (f : CHash ℕ → CHash ℕ) (a' : PairMap) (ht : m.m_pHashGroup.find k1 = some t)
    (hmax : (f t).m_nMaxCount = n2) (hk : ∀ k2, (f t).find k2 = a' k1 k2)
    (hother : ∀ k k2, k ≠ k1 → a' k k2 = a k k2) : Refines n1 n2 (m.modifyTable k1 f) a' := by
  have hfind (k : CString) : (m.modifyTable k1 f).m_pHashGroup.find k =
      if k = k1 then some (f t) else m.m_pHashGroup.find k := by
    show (m.m_pHashGroup.modify k1 f).find k = _
    rw [CHash.find_modify]
    by_cases hkk : k = k1
    · subst hkk
      rw [if_pos rfl, if_pos rfl, ht]
      rfl
    · rw [if_neg hkk, if_neg hkk]
  refine ⟨h.max1, h.max2, ?_, ?_⟩
  · intro k t' ht'
    rw [hfind] at ht'
    by_cases hkk : k = k1
    · rw [if_pos hkk] at ht'
      cases ht'
      exact hmax
    · rw [if_neg hkk] at ht'
      exact h.tables k t' ht'
  · intro k k2
    rw [hfind]
    by_cases hkk : k = k1
    · subst hkk
      rw [if_pos rfl]
      exact hk k2
    · rw [if_neg hkk, hother k k2 hkk]
      exact h.lookup k k2

-- An empty table for a new first key adds no pair.
theorem refines_addTable (h : Refines n1 n2 m a) (h1 : 1 ≤ n1) (k1 : CString)
    (hk : m.m_pHashGroup.find k1 = none) :
    Refines n1 n2 { m with m_pHashGroup := (m.m_pHashGroup.addNode k1 (CHash.new n2)).1 } a ∧
      (m.m_pHashGroup.addNode k1 (CHash.new n2)).1.find k1 = some (CHash.new n2) := by
  have hmax : 1 ≤ m.m_pHashGroup.m_nMaxCount := h.max1 ▸ h1
  have hfind (k : CString) : (m.m_pHashGroup.addNode k1 (CHash.new n2)).1.find k =
      if k = k1 then some (CHash.new n2) else m.m_pHashGroup.find k := by
    rw [CHash.find_addNode _ _ _ _ hmax]
    by_cases hkk : k = k1
    · subst hkk
      rw [if_pos rfl, if_pos rfl, hk]
      rfl
    · rw [if_neg hkk, if_neg hkk]
  refine ⟨⟨?_, h.max2, ?_, ?_⟩, by rw [hfind, if_pos rfl]⟩
  · rw [CHash.addNode_eq _ _ _ hmax]
    exact h.max1
  · intro k t ht
    simp only [hfind] at ht
    by_cases hkk : k = k1
    · rw [if_pos hkk] at ht
      cases ht
      rfl
    · rw [if_neg hkk] at ht
      exact h.tables k t ht
  · intro k k2
    simp only [hfind]
    by_cases hkk : k = k1
    · subst hkk
      have hnone := h.lookup k k2
      rw [hk] at hnone
      rw [if_pos rfl]
      exact hnone
    · rw [if_neg hkk]
      exact h.lookup k k2

-- The second half of `addKey`, for a pair that is not there.
theorem addKey2_spec (h : Refines n1 n2 m a) (h2 : 1 ≤ n2) (hint : n2 < 2^31) (k1 k2 : CString)
    (t : CHash ℕ) (p : ℕ) (ht : m.m_pHashGroup.find k1 = some t) (hnone : a k1 k2 = none) :
    ∃ m', m.addKey2 k1 k2 t p = (m', ((CHash.new n2 : CHash ℕ).getHashNo k2 : ℤ), true) ∧
      Refines n1 n2 m' (a.insert k1 k2 0) := by
  have htmax := h.tables k1 t ht
  have hlook := h.lookup k1
  rw [ht] at hlook
  set t' := if p ≠ 0 then t.setHashValue p else t with ht'
  have hmax : t'.m_nMaxCount = n2 := by
    rw [ht']
    split <;> exact htmax
  have hfind (k : CString) : t'.find k = a k1 k := by
    rw [← hlook k, ht']
    split <;> rfl
  have hno : t'.getHashNo k2 = (CHash.new n2 : CHash ℕ).getHashNo k2 := by
    rw [CHash.getHashNo, CHash.getHashNo, hmax]
    rfl
  refine ⟨_, ?_, refines_modifyTable h k1 t (fun _ => (t'.addNode k2 0).1) _ ht ?_ ?_ ?_⟩
  · rw [← hno, ← CHash.addNode_code t' k2 0 (hmax ▸ h2) (hmax ▸ hint)]
    rfl
  · show (t'.addNode k2 0).1.m_nMaxCount = n2
    rw [CHash.addNode_eq _ _ _ (hmax ▸ h2)]
    exact hmax
  · intro k
    rw [CHash.find_addNode _ _ _ _ (hmax ▸ h2), PairMap.insert_same, hfind]
    by_cases hk : k = k2
    · rw [if_pos hk, if_pos hk, hk, hnone]
      rfl
    · rw [if_neg hk, if_neg hk]
  · intro k k' hk
    exact PairMap.insert_other a k1 k2 k k' 0 hk

theorem addKey_present (h : Refines n1 n2 m a) (h1 : 1 ≤ n1) (h2 : 1 ≤ n2) (k1 k2 : CString) (p : ℕ)
    (hsome : (a k1 k2).isSome) : m.addKey k1 k2 p = (m, eHASH_RESULT_DUPLICATE_KEYS, false) := by
  unfold addKey
  rcases hashLookup_group h h1 k1 with ⟨hl, hf⟩ | ⟨pNode, hl, hf⟩
  · have hn := h.lookup k1 k2
    rw [hf] at hn
    rw [← hn] at hsome
    cases hsome
  · have hv := hashLookup_table h h2 k1 k2 pNode.value hf
    rw [← hv, Option.isSome_map] at hsome
    rw [hl]
    exact if_pos hsome

theorem addKey_absent (h : Refines n1 n2 m a) (h1 : 1 ≤ n1) (hint1 : n1 < 2^31) (h2 : 1 ≤ n2)
    (hint2 : n2 < 2^31) (k1 k2 : CString) (p : ℕ) (hnone : a k1 k2 = none) :
    ∃ m', m.addKey k1 k2 p = (m', ((CHash.new n2 : CHash ℕ).getHashNo k2 : ℤ), true) ∧
      Refines n1 n2 m' (a.insert k1 k2 0) := by
  have hmax2 := h.max2
  subst hmax2
  unfold addKey
  rcases hashLookup_group h h1 k1 with ⟨hl, hf⟩ | ⟨pNode, hl, hf⟩
  · rw [hl]
    obtain ⟨hr, hnew⟩ := refines_addTable h h1 k1 hf
    have hcode : ¬(m.m_pHashGroup.addNode k1 (CHash.new m.m_nMaxCount2)).2 < 0 := by
      rw [CHash.addNode_code _ _ _ (h.max1 ▸ h1) (h.max1 ▸ hint1)]
      omega
    simp only [if_neg hcode]
    exact addKey2_spec hr h2 hint2 k1 k2 _ p hnew hnone
  · have hv := hashLookup_table h h2 k1 k2 pNode.value hf
    rw [hnone, Option.map_eq_none_iff] at hv
    rw [hl]
    simp only [hv, Option.isSome_none, Bool.false_eq_true, if_false]
    exact addKey2_spec h h2 hint2 k1 k2 _ p hf hnone

-- Writing the value of a pair that is there.
theorem refines_setPair (h : Refines n1 n2 m a) (k1 k2 : CString) (t : CHash ℕ) (v : ℕ)
    (f : CHash ℕ → CHash ℕ) (hf : f t = t.modify k2 (fun _ => v))
    (ht : m.m_pHashGroup.find k1 = some t) (hsome : (a k1 k2).isSome) :
    Refines n1 n2 (m.modifyTable k1 f) (a.insert k1 k2 v) := by
  have hlook := h.lookup k1
  rw [ht] at hlook
  refine refines_modifyTable h k1 t f _ ht ?_ ?_ ?_
  · rw [hf]
    exact h.tables k1 t ht
  · intro k
    rw [hf, CHash.find_modify, PairMap.insert_same]
    by_cases hk : k = k2
    · subst hk
      obtain ⟨w, hw⟩ := Option.isSome_iff_exists.mp hsome
      have hfw : t.find k = some w := (hlook k).trans hw
      rw [if_pos rfl, if_pos rfl, hfw]
      rfl
    · rw [if_neg hk, if_neg hk]
      exact hlook k
  · intro k k' hk
    exact PairMap.insert_other a k1 k2 k k' v hk

-- A pair that is there has a table.
theorem table_of_pair (h : Refines n1 n2 m a) (h1 : 1 ≤ n1) (k1 k2 : CString)
    (hsome : (a k1 k2).isSome) : ∃ pNode, m.m_pHashGroup.hashLookup k1 = some pNode ∧
      m.m_pHashGroup.find k1 = some pNode.value ∧ (pNode.value.find k2).isSome := by
  have hv := h.lookup k1 k2
  rw [← hv] at hsome
  rcases hashLookup_group h h1 k1 with ⟨_, hf⟩ | ⟨pNode, hl, hf⟩
  · rw [hf] at hsome
    cases hsome
  · rw [hf] at hsome
    exact ⟨pNode, hl, hf, hsome⟩

theorem refines_setHashValue (h : Refines n1 n2 m a) (k1 : CString) (t : CHash ℕ) (p : ℕ)
    (ht : m.m_pHashGroup.find k1 = some t) : Refines n1 n2 (m.modifyTable k1 (·.setHashValue p)) a := by
  have hlook := h.lookup k1
  rw [ht] at hlook
  exact refines_modifyTable h k1 t _ a ht (h.tables k1 t ht) hlook (fun _ _ _ => rfl)

theorem addKeyValue_present (h : Refines n1 n2 m a) (h1 : 1 ≤ n1) (h2 : 1 ≤ n2) (k1 k2 : CString)
    (v : ℕ) (stale : Stale) (hsome : (a k1 k2).isSome) :
    m.addKeyValue k1 k2 v 0 stale = .ok (m, eHASH_RESULT_DUPLICATE_KEYS) := by
  rw [addKeyValue, addKey_present h h1 h2 k1 k2 0 hsome]
  rfl

theorem addKeyValue_absent (h : Refines n1 n2 m a) (h1 : 1 ≤ n1) (hint1 : n1 < 2^31) (h2 : 1 ≤ n2)
    (hint2 : n2 < 2^31) (k1 k2 : CString) (v p : ℕ) (stale : Stale) (hnone : a k1 k2 = none) :
    ∃ m', m.addKeyValue k1 k2 v p stale = .ok (m', eHASH_RESULT_SUCESS) ∧
      Refines n1 n2 m' (a.insert k1 k2 v) := by
  obtain ⟨m1, hadd, hr1⟩ := addKey_absent h h1 hint1 h2 hint2 k1 k2 0 hnone
  have hpair : ((a.insert k1 k2 0) k1 k2).isSome := by simp [PairMap.insert]
  set m2 := if p ≠ 0 then m1.modifyTable k1 (·.setHashValue p) else m1 with hm2
  have hr2 : Refines n1 n2 m2 (a.insert k1 k2 0) := by
    obtain ⟨pNode, _, hf, _⟩ := table_of_pair hr1 h1 k1 k2 hpair
    rw [hm2]
    split
    · exact refines_setHashValue hr1 k1 _ p hf
    · exact hr1
  obtain ⟨pNode, hl, hf, hs⟩ := table_of_pair hr2 h1 k1 k2 hpair
  -- the bucket number that `addKey` returned is the one of this table
  have hno : (((CHash.new n2 : CHash ℕ).getHashNo k2 : ℕ) : ℤ).toNat = pNode.value.getHashNo k2 := by
    rw [Int.toNat_natCast, CHash.getHashNo, CHash.getHashNo, hr2.tables k1 _ hf]
    rfl
  have hset : m.addKeyValue k1 k2 v p stale =
      .ok (m2.modifyTable k1 (fun _ => pNode.value.modify k2 (fun _ => v)), eHASH_RESULT_SUCESS) := by
    rw [addKeyValue, hadd]
    simp only [← hm2, hl, hno, CHash.setValueAt_found _ _ _ hs]
    rw [if_pos (Int.natCast_nonneg _)]
  have hinsert : (a.insert k1 k2 0).insert k1 k2 v = a.insert k1 k2 v := by
    funext x y
    by_cases hxy : x = k1 ∧ y = k2 <;> simp [PairMap.insert, hxy]
  refine ⟨_, hset, ?_⟩
  rw [← hinsert]
  exact refines_setPair hr2 k1 k2 pNode.value v _ rfl hf hpair

theorem setValue_present (h : Refines n1 n2 m a) (h1 : 1 ≤ n1) (h2 : 1 ≤ n2) (k1 k2 : CString)
    (v : ℕ) (hsome : (a k1 k2).isSome) :
    (m.setValue k1 k2 v).2 = eHASH_RESULT_SUCESS ∧
      Refines n1 n2 (m.setValue k1 k2 v).1 (a.insert k1 k2 v) := by
  obtain ⟨pNode, hl, hf, _⟩ := table_of_pair h h1 k1 k2 hsome
  have hv := hashLookup_table h h2 k1 k2 pNode.value hf
  have hs : (pNode.value.hashLookup k2).isSome := by
    rw [← Option.isSome_map, hv]
    exact hsome
  have he : m.setValue k1 k2 v =
      (m.modifyTable k1 (·.modify k2 (fun _ => v)), eHASH_RESULT_SUCESS) := by
    rw [setValue, hl]
    exact if_pos hs
  rw [he]
  exact ⟨rfl, refines_setPair h k1 k2 pNode.value v _ rfl hf hsome⟩

theorem setValue_absent (h : Refines n1 n2 m a) (h1 : 1 ≤ n1) (h2 : 1 ≤ n2) (k1 k2 : CString)
    (v : ℕ) (hnone : a k1 k2 = none) : m.setValue k1 k2 v = (m, eHASH_RESULT_INVALID_KEY) := by
  unfold setValue
  rcases hashLookup_group h h1 k1 with ⟨hl, _⟩ | ⟨pNode, hl, hf⟩
  · rw [hl]
  · have hv := hashLookup_table h h2 k1 k2 pNode.value hf
    rw [hnone, Option.map_eq_none_iff] at hv
    rw [hl]
    simp [hv]

end CDKeyHashMap

end Leviathan
