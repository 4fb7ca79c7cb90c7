import Leviathan.DualKeyMap

namespace Leviathan

namespace CHash

variable {β : Type}

theorem key_mem_of_mem_chainModify (pKey : CString) (f : β → β) (chain : List (STHash_Node β))
    (pNode : STHash_Node β) (hp : pNode ∈ chainModify pKey f chain) :
    ∃ pOld ∈ chain, pOld.pKey = pNode.pKey := by
  induction chain with
  | nil => cases hp
  | cons pNext chain ih =>
    rw [chainModify] at hp
    split at hp
    · rcases List.mem_cons.mp hp with rfl | hp
      · exact ⟨pNext, List.mem_cons_self, rfl⟩
      · exact ⟨pNode, List.mem_cons_of_mem _ hp, rfl⟩
    · rcases List.mem_cons.mp hp with rfl | hp
      · exact ⟨pNode, List.mem_cons_self, rfl⟩
      · obtain ⟨pOld, hold, he⟩ := ih hp
        exact ⟨pOld, List.mem_cons_of_mem _ hold, he⟩

theorem keyed_modify (h : CHash β) (pKey : CString) (f : β → β) (hk : h.Keyed) :
    (h.modify pKey f).Keyed := by
  intro i pNode hp
  show h.getHashNo pNode.pKey = i
  replace hp : pNode ∈ Function.update h.m_pHashData (h.getHashNo pKey)
      (chainModify pKey f (h.m_pHashData (h.getHashNo pKey))) i := hp
  by_cases hi : i = h.getHashNo pKey
  · subst hi
    rw [Function.update_self] at hp
    obtain ⟨pOld, hold, he⟩ := key_mem_of_mem_chainModify pKey f _ pNode hp
    rw [← he]
    exact hk _ pOld hold
  · rw [Function.update_of_ne hi] at hp
    exact hk i pNode hp

-- The first node of a bucket answers for its own key.
theorem find_of_getNext (h : CHash β) (pStr : CString) (pNext : STHash_Node β) (hk : h.Keyed)
    (hn : h.getNext pStr = some pNext) : h.find pNext.pKey = some pNext.value := by
  obtain ⟨chain, hc⟩ := List.head?_eq_some_iff.mp hn
  have hno : h.getHashNo pNext.pKey = h.getHashNo pStr := by
    apply hk
    rw [hc]
    exact List.mem_cons_self
  rw [find, hno, hc]
  simp

theorem getNode_map_value (h : CHash β) (pStr : CString) :
    (h.getNode pStr).map STHash_Node.value = h.find pStr := rfl

end CHash

namespace CDKeyHashMap

/-- The maps that calls of `addKey`, `addKeyValue` and `setValue` build from an empty one. -/
inductive Built (n1 n2 : ℕ) : CDKeyHashMap → PairMap → Prop
  | new : Built n1 n2 (new n1 n2) PairMap.empty
  | step (m m' : CDKeyHashMap) (a : PairMap) (op : Op) (nRes : ℤ) : Built n1 n2 m a →
    step m op = .ok (m', nRes) → Built n1 n2 m' (pairStep a op).1

/-- What deletion relies on. -/
structure Shape (n1 n2 : ℕ) (m : CDKeyHashMap) (a : PairMap) : Prop where
  refines : Refines n1 n2 m a
  keyed : m.m_pHashGroup.Keyed
  inhabited : ∀ k1 t, m.m_pHashGroup.find k1 = some t → ∃ k2, (t.find k2).isSome

variable {n1 n2 : ℕ} {m : CDKeyHashMap} {a : PairMap}

theorem keyed_addKey (h1 : 1 ≤ m.m_pHashGroup.m_nMaxCount) (k1 k2 : CString) (p : ℕ)
    (hk : m.m_pHashGroup.Keyed) : (m.addKey k1 k2 p).1.m_pHashGroup.Keyed := by
  unfold addKey
  split
  · split
    · exact hk
    · exact CHash.keyed_modify _ _ _ hk
  · have hadd := CHash.keyed_addNode m.m_pHashGroup k1 (CHash.new m.m_nMaxCount2) h1 hk
    dsimp only
    split
    · exact hadd
    · exact CHash.keyed_modify _ _ _ hadd

-- The table of another first key is not touched.
theorem find_modifyTable_other (k1 k : CString) (f : CHash ℕ → CHash ℕ) (hk : k ≠ k1) :
    (m.modifyTable k1 f).m_pHashGroup.find k = m.m_pHashGroup.find k := by
  show (m.m_pHashGroup.modify k1 f).find k = _
  rw [CHash.find_modify, if_neg hk]

theorem find_addKey_other (h1 : 1 ≤ m.m_pHashGroup.m_nMaxCount) (k1 k2 k : CString) (p : ℕ)
    (hk : k ≠ k1) : (m.addKey k1 k2 p).1.m_pHashGroup.find k = m.m_pHashGroup.find k := by
  unfold addKey
  split
  · split
    · rfl
    · exact find_modifyTable_other k1 k _ hk
  · have hadd : (m.m_pHashGroup.addNode k1 (CHash.new m.m_nMaxCount2)).1.find k =
        m.m_pHashGroup.find k := by
      rw [CHash.find_addNode _ _ _ _ h1, if_neg hk]
    dsimp only
    split
    · exact hadd
    · exact (find_modifyTable_other k1 k _ hk).trans hadd

-- The shape after a call that puts the pair `k1`, `k2` in and touches no other table.
theorem shape_of_pair (h : Shape n1 n2 m a) (m' : CDKeyHashMap) (a' : PairMap) (k1 k2 : CString)
    (hr : Refines n1 n2 m' a') (hk : m'.m_pHashGroup.Keyed) (hpair : (a' k1 k2).isSome)
    (hother : ∀ k, k ≠ k1 → m'.m_pHashGroup.find k = m.m_pHashGroup.find k) :
    Shape n1 n2 m' a' := by
  refine ⟨hr, hk, ?_⟩
  intro k t ht
  by_cases hkk : k = k1
  · subst hkk
    have hv := hr.lookup k k2
    rw [ht] at hv
    rw [← hv] at hpair
    exact ⟨k2, hpair⟩
  · rw [hother k hkk] at ht
    exact h.inhabited k t ht

theorem shape_setHashValue (h : Shape n1 n2 m a) (h1 : 1 ≤ n1) (k : CString) (p : ℕ)
    (hk : (m.m_pHashGroup.hashLookup k).isSome) :
    Shape n1 n2 (m.modifyTable k (·.setHashValue p)) a := by
  obtain ⟨t, ht⟩ : ∃ t, m.m_pHashGroup.find k = some t := by
    rcases hashLookup_group h.refines h1 k with ⟨hl, _⟩ | ⟨pNode, _, hf⟩
    · rw [hl] at hk
      cases hk
    · exact ⟨_, hf⟩
  obtain ⟨k2, hk2⟩ := h.inhabited k t ht
  have hpair : (a k k2).isSome := by
    rw [← h.refines.lookup k k2, ht]
    exact hk2
  exact shape_of_pair h _ a k k2 (refines_setHashValue h.refines k t p ht)
    (CHash.keyed_modify _ _ _ h.keyed) hpair (fun x hx => find_modifyTable_other k x _ hx)

theorem shape_addKey (h : Shape n1 n2 m a) (h1 : 1 ≤ n1) (hint1 : n1 < 2^31) (h2 : 1 ≤ n2)
    (hint2 : n2 < 2^31) (k1 k2 : CString) (p : ℕ) (hnone : a k1 k2 = none) :
    Shape n1 n2 (m.addKey k1 k2 p).1 (a.insert k1 k2 0) := by
  obtain ⟨m', hadd, hr⟩ := addKey_absent h.refines h1 hint1 h2 hint2 k1 k2 p hnone
  have hmax : 1 ≤ m.m_pHashGroup.m_nMaxCount := h.refines.max1 ▸ h1
  refine shape_of_pair h _ _ k1 k2 ?_ (keyed_addKey hmax k1 k2 p h.keyed) (by simp [PairMap.insert])
    (fun k hk => find_addKey_other hmax k1 k2 k p hk)
  rw [hadd]
  exact hr

-- After `addKey`, `addKeyValue` only writes to the table of `k1`.
theorem addKeyValue_frame (m1 : CDKeyHashMap) (k1 k2 : CString) (c : ℤ) (v p : ℕ) (stale : Stale)
    (m' : CDKeyHashMap) (nRes : ℤ) (hadd : m.addKey k1 k2 0 = (m1, c, true))
    (hk : m1.m_pHashGroup.Keyed) (hs : m.addKeyValue k1 k2 v p stale = .ok (m', nRes)) :
    m'.m_pHashGroup.Keyed ∧ ∀ k, k ≠ k1 → m'.m_pHashGroup.find k = m1.m_pHashGroup.find k := by
  simp only [addKeyValue, hadd] at hs
  set m2 := if p ≠ 0 then m1.modifyTable k1 (·.setHashValue p) else m1 with hm2
  have hk2 : m2.m_pHashGroup.Keyed ∧
      ∀ k, k ≠ k1 → m2.m_pHashGroup.find k = m1.m_pHashGroup.find k := by
    rw [hm2]
    split
    · exact ⟨CHash.keyed_modify _ _ _ hk, fun k hkk => find_modifyTable_other k1 k _ hkk⟩
    · exact ⟨hk, fun _ _ => rfl⟩
  split at hs
  · split at hs
    · cases hs
      refine ⟨CHash.keyed_modify _ _ _ hk2.1, fun k hkk => ?_⟩
      exact (find_modifyTable_other k1 k _ hkk).trans (hk2.2 k hkk)
    · obtain ⟨hm, _⟩ := Prod.mk.inj (Except.ok.inj hs)
      rw [← hm]
      exact hk2
  · obtain ⟨hm, _⟩ := Prod.mk.inj (Except.ok.inj hs)
    rw [← hm]
    exact hk2

theorem shape_addKeyValue (h : Shape n1 n2 m a) (h1 : 1 ≤ n1) (hint1 : n1 < 2^31) (h2 : 1 ≤ n2)
    (hint2 : n2 < 2^31) (k1 k2 : CString) (v p : ℕ) (stale : Stale) (m' : CDKeyHashMap) (nRes : ℤ)
    (hs : m.addKeyValue k1 k2 v p stale = .ok (m', nRes)) :
    Shape n1 n2 m' (if (a k1 k2).isSome then a else a.insert k1 k2 v) := by
  cases ha : a k1 k2 with
  | none =>
    obtain ⟨m1, hadd, _⟩ := addKey_absent h.refines h1 hint1 h2 hint2 k1 k2 0 ha
    have hmax : 1 ≤ m.m_pHashGroup.m_nMaxCount := h.refines.max1 ▸ h1
    have hk1 := keyed_addKey hmax k1 k2 0 h.keyed
    have hother := fun k hk => find_addKey_other (m := m) hmax k1 k2 k 0 hk
    rw [hadd] at hk1 hother
    obtain ⟨hk, hframe⟩ := addKeyValue_frame m1 k1 k2 _ v p stale m' nRes hadd hk1 hs
    obtain ⟨m'', hset, hr⟩ := addKeyValue_absent h.refines h1 hint1 h2 hint2 k1 k2 v p stale ha
    rw [hset] at hs
    cases hs
    exact shape_of_pair h _ _ k1 k2 hr hk (by simp [PairMap.insert])
      (fun k hkk => (hframe k hkk).trans (hother k hkk))
  | some w =>
    have hdup := addKey_present h.refines h1 h2 k1 k2 0 (by simp [ha])
    simp only [addKeyValue, hdup] at hs
    by_cases hp : p ≠ 0
    · rw [if_pos hp] at hs
      cases stale with
      | null =>
        cases hs
        exact h
      | wild => cases hs
      | table k =>
        simp only [staleWrite] at hs
        split at hs
        · rename_i hk
          cases hs
          exact shape_setHashValue h h1 k p hk
        · cases hs
    · rw [if_neg hp] at hs
      cases hs
      exact h

theorem shape_setValue (h : Shape n1 n2 m a) (h1 : 1 ≤ n1) (h2 : 1 ≤ n2) (k1 k2 : CString) (v : ℕ) :
    Shape n1 n2 (m.setValue k1 k2 v).1 (if (a k1 k2).isSome then a.insert k1 k2 v else a) := by
  cases ha : a k1 k2 with
  | none =>
    rw [setValue_absent h.refines h1 h2 k1 k2 v ha]
    exact h
  | some w =>
    obtain ⟨_, hr⟩ := setValue_present h.refines h1 h2 k1 k2 v (by simp [ha])
    have hframe : (m.setValue k1 k2 v).1.m_pHashGroup.Keyed ∧
        ∀ k, k ≠ k1 → (m.setValue k1 k2 v).1.m_pHashGroup.find k = m.m_pHashGroup.find k := by
      unfold setValue
      split
      · split
        · exact ⟨CHash.keyed_modify _ _ _ h.keyed, fun k hk => find_modifyTable_other k1 k _ hk⟩
        · exact ⟨h.keyed, fun _ _ => rfl⟩
      · exact ⟨h.keyed, fun _ _ => rfl⟩
    exact shape_of_pair h _ _ k1 k2 hr hframe.1 (by simp [PairMap.insert]) hframe.2

theorem shape_new : Shape n1 n2 (new n1 n2) PairMap.empty := by
  refine ⟨refines_new, ?_, ?_⟩
  · intro i pNode hp
    cases hp
  · intro k t ht
    cases ht

theorem shape_of_built (h1 : 1 ≤ n1) (hint1 : n1 < 2^31) (h2 : 1 ≤ n2) (hint2 : n2 < 2^31)
    (hb : Built n1 n2 m a) : Shape n1 n2 m a := by
  induction hb with
  | new => exact shape_new
  | step m m' a op nRes _ hs ih =>
    cases op with
    | addKey k1 k2 p =>
      cases hs
      cases ha : a k1 k2 with
      | none => simpa [pairStep, ha] using shape_addKey ih h1 hint1 h2 hint2 k1 k2 p ha
      | some w =>
        rw [addKey_present ih.refines h1 h2 k1 k2 p (by simp [ha])]
        simpa [pairStep, ha] using ih
    | addKeyValue k1 k2 v p stale =>
      have hsh := shape_addKeyValue ih h1 hint1 h2 hint2 k1 k2 v p stale m' nRes hs
      cases ha : a k1 k2 <;> simpa [pairStep, ha] using hsh
    | setValue k1 k2 v =>
      have hsh := shape_setValue ih h1 h2 k1 k2 v
      rw [Except.ok.inj hs] at hsh
      cases ha : a k1 k2 <;> simpa [pairStep, ha] using hsh

/-- `deleteNode` answers whether the pair was there, and takes it and nothing else out. -/
def DeletesNode (m : CDKeyHashMap) (k1 k2 : CString) : Prop :=
  ∃ m', m.deleteNode k1 k2 = .ok (m', m.isNode k1 k2) ∧
    ∀ x y, m'.getNode x y = if x = k1 ∧ y = k2 then none else m.getNode x y

/-- `deleteHash` answers whether a pair with this first key was there, and takes all of them and
nothing else out. -/
def DeletesHash (m : CDKeyHashMap) (k1 : CString) : Prop :=
  ∃ m' b, m.deleteHash k1 = .ok (m', b) ∧ (b = true ↔ ∃ k2, m.isNode k1 k2 = true) ∧
    ∀ x y, m'.getNode x y = if x = k1 then none else m.getNode x y

-- The table `deleteNode` looks into is the one of the first key of the bucket.
theorem getNode_first (h : Shape n1 n2 m a) (k1 k2 : CString) (pNext1 : STHash_Node (CHash ℕ))
    (hn : m.m_pHashGroup.getNext k1 = some pNext1) :
    pNext1.value.getNode k2 = none ↔ a pNext1.pKey k2 = none := by
  have hv : (pNext1.value.getNode k2).map STHash_Node.value = a pNext1.pKey k2 := by
    rw [CHash.getNode_map_value, ← h.refines.lookup pNext1.pKey k2,
      CHash.find_of_getNext _ k1 pNext1 h.keyed hn]
    rfl
  rw [← hv, Option.map_eq_none_iff]

theorem deleteNode_cases (h : Shape n1 n2 m a) (k1 k2 : CString) :
    (m.deleteNode k1 k2 = .ok (m, false) ∧
      ∀ pNext1, m.m_pHashGroup.getNext k1 = some pNext1 → a pNext1.pKey k2 = none) ∨
    (m.deleteNode k1 k2 = .error .nullWrite ∧
      ∃ pNext1, m.m_pHashGroup.getNext k1 = some pNext1 ∧ a pNext1.pKey k2 ≠ none) := by
  unfold deleteNode
  cases hn : m.m_pHashGroup.getNext k1 with
  | none => exact Or.inl ⟨rfl, fun _ he => by cases he⟩
  | some pNext1 =>
    have hfirst := getNode_first h k1 k2 pNext1 hn
    cases hg : pNext1.value.getNode k2 with
    | none =>
      refine Or.inl ⟨by simp only [hg], ?_⟩
      rintro _ ⟨⟩
      exact hfirst.mp hg
    | some pCur2 =>
      refine Or.inr ⟨by simp only [hg], pNext1, rfl, ?_⟩
      rw [Ne, ← hfirst, hg]
      simp

theorem deletesNode_iff (h : Shape n1 n2 m a) (h1 : 1 ≤ n1) (h2 : 1 ≤ n2) (k1 k2 : CString) :
    DeletesNode m k1 k2 ↔ a k1 k2 = none ∧
      ∀ pNext1, m.m_pHashGroup.getNext k1 = some pNext1 → a pNext1.pKey k2 = none := by
  have hnode := isNode_eq h.refines h1 h2 k1 k2
  rcases deleteNode_cases h k1 k2 with ⟨hd, hall⟩ | ⟨hd, pNext1, hn, hsome⟩
  · constructor
    · rintro ⟨m', hok, _⟩
      rw [hd] at hok
      obtain ⟨_, hb⟩ := Prod.mk.inj (Except.ok.inj hok)
      rw [hnode] at hb
      exact ⟨Option.not_isSome_iff_eq_none.mp (by simp [← hb]), hall⟩
    · rintro ⟨hnone, _⟩
      refine ⟨m, ?_, ?_⟩
      · rw [hd, hnode, hnone]
        rfl
      · intro x y
        split
        · rename_i hxy
          obtain ⟨rfl, rfl⟩ := hxy
          rw [getNode_eq h.refines h1 h2 x y, hnone]
          rfl
        · rfl
  · refine iff_of_false ?_ (fun hc => hsome (hc.2 pNext1 hn))
    rintro ⟨m', hok, _⟩
    rw [hd] at hok
    cases hok

theorem deletesHash_iff (h : Shape n1 n2 m a) (h1 : 1 ≤ n1) (h2 : 1 ≤ n2) (k1 : CString) :
    DeletesHash m k1 ↔ ∀ k2, a k1 k2 = none := by
  have hfind : (m.m_pHashGroup.getNode k1).map STHash_Node.value = m.m_pHashGroup.find k1 := rfl
  cases hg : m.m_pHashGroup.getNode k1 with
  | none =>
    have hd : m.deleteHash k1 = .ok (m, false) := by rw [deleteHash, hg]
    have hnone (k2 : CString) : a k1 k2 = none := by
      rw [← h.refines.lookup k1 k2, ← hfind, hg]
      rfl
    refine iff_of_true ⟨m, false, hd, ?_, ?_⟩ hnone
    · simp [isNode_eq h.refines h1 h2, hnone]
    · intro x y
      split
      · rename_i hx
        rw [getNode_eq h.refines h1 h2 x y, hx, hnone]
        rfl
      · rfl
  | some pCur =>
    have hd : m.deleteHash k1 = .error .nullWrite := by rw [deleteHash, hg]
    rw [hg] at hfind
    obtain ⟨k2, hk2⟩ := h.inhabited k1 pCur.value hfind.symm
    refine iff_of_false ?_ ?_
    · rintro ⟨m', b, hok, _⟩
      rw [hd] at hok
      cases hok
    · intro hall
      have hv := h.refines.lookup k1 k2
      rw [hall k2, ← hfind] at hv
      rw [show pCur.value.find k2 = none from hv] at hk2
      cases hk2

/-- For every map that the calls build: `deleteNode` does what it should exactly when neither the
pair nor the pair of the first key of its bucket with `k2` is there, and `deleteHash` exactly when
there is no pair with this first key. -/
theorem delete_exact_iff (n1 n2 : ℕ) (h1 : 1 ≤ n1) (hint1 : n1 < 2^31) (h2 : 1 ≤ n2)
    (hint2 : n2 < 2^31) (m : CDKeyHashMap) (a : PairMap) (hb : Built n1 n2 m a) (k1 k2 : CString) :
    (DeletesNode m k1 k2 ↔ a k1 k2 = none ∧
      ∀ pNext1, m.m_pHashGroup.getNext k1 = some pNext1 → a pNext1.pKey k2 = none) ∧
    (DeletesHash m k1 ↔ ∀ k2, a k1 k2 = none) := by
  have h := shape_of_built h1 hint1 h2 hint2 hb
  exact ⟨deletesNode_iff h h1 h2 k1 k2, deletesHash_iff h h1 h2 k1⟩

-- a map with the pair of `keyA` and `keyA` only
def onePair : CDKeyHashMap := ((new 1 1).addKey keyA keyA 0).1

theorem built_onePair : Built 1 1 onePair (PairMap.empty.insert keyA keyA 0) :=
  Built.step _ onePair _ (.addKey keyA keyA 0) ((new 1 1).addKey keyA keyA 0).2.1 Built.new rfl

/-- The first key `keyB` falls into the bucket of `keyA`; nothing is deleted, and the calls say so. -/
theorem delete_exact_onePair : DeletesNode onePair keyB keyB ∧ DeletesHash onePair keyB := by
  have h := delete_exact_iff 1 1 (by decide) (by decide) (by decide) (by decide) onePair _
    built_onePair keyB keyB
  refine ⟨h.1.mpr ⟨by decide, ?_⟩, h.2.mpr ?_⟩
  · intro pNext1 hn
    cases hn
    decide
  · intro k2
    have hne : keyB ≠ keyA := by decide
    simp [PairMap.insert, PairMap.empty, hne]

/-- The only pair of a map cannot be deleted: the unlinking writes through NULL. -/
theorem not_delete_exact_only_pair : ¬∀ (m : CDKeyHashMap) (a : PairMap), Built 1 1 m a →
    ∀ k1 k2, DeletesNode m k1 k2 ∧ DeletesHash m k1 := by
  intro h
  obtain ⟨⟨m', hok, _⟩, _⟩ := h onePair _ built_onePair keyA keyA
  have hd : onePair.deleteNode keyA keyA = .error .nullWrite := rfl
  rw [hd] at hok
  cases hok

end CDKeyHashMap

end Leviathan
