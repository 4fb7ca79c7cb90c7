import Leviathan.Hash
import Leviathan.Runs

/-! `CHash::uniqueAddNode` (comHash.cpp): the walk along the chain compares the key with the one that is
left in the node to be added. -/
namespace Leviathan

def eHASH_RESULT_EMPTY_NODE : ℤ := -4

namespace CHash

variable {β : Type}

section Model

/-- The loop of `uniqueAddNode`, which goes along the chain but reads `own`, the key of the new node:
`none` where it is not a pointer to a text. -/
def meetsKey (own : Option CString) (pKey : CString) : List (STHash_Node β) → Except Fault Bool
  | [] => .ok false
  | _ :: chain =>
    match own with
    | none => .error .nullRead
    | some key => if pKey = key then .ok true else meetsKey own pKey chain

/-- `uniqueAddNode`; `pNext` is the new node, NULL or with the key that it holds before the call. -/
def uniqueAddNode (h : CHash β) (pNext : Option (Option CString)) (pKey : CString) (pData : β) :
    Except Fault (CHash β × ℤ) :=
  let nHashNo := h.getHashNo pKey
  if nHashNo ≥ h.m_nMaxCount then .ok (h, eHASH_RESULT_INVALID_KEY)
  else
    match pNext with
    | none => .ok (h, eHASH_RESULT_EMPTY_NODE)
    | some own => do
      if ← meetsKey own pKey (h.m_pHashData nHashNo) then return (h, eHASH_RESULT_DUPLICATE_KEYS)
      return ({ h with
          m_pHashData := Function.update h.m_pHashData nHashNo
            (h.m_pHashData nHashNo ++ [⟨pKey, pData⟩]) }, i32 nHashNo)

/-- A call with a node that is not in the table: the key it holds, the new key and the value. -/
structure UniqueAdd (β : Type) where
  own : Option CString
  pKey : CString
  pData : β

def uniqueStep (h : CHash β) (a : UniqueAdd β) : Option (CHash β) :=
  (h.uniqueAddNode (some a.own) a.pKey a.pData).toOption.map Prod.fst

end Model

section Spec

variable (h : CHash β)

def InTable (pKey : CString) : Prop := ∃ n, ∃ pNext ∈ h.m_pHashData n, pNext.pKey = pKey

/-- No two nodes of the table have equal keys. -/
def KeysUnique : Prop :=
  (∀ n, ((h.m_pHashData n).map STHash_Node.pKey).Nodup) ∧
  ∀ n m, n ≠ m → ∀ x ∈ h.m_pHashData n, ∀ y ∈ h.m_pHashData m, x.pKey ≠ y.pKey

/-- The call leaves the keys unique.  A key that is in the table is answered as a duplicate, and the
table stays as it is; another one is found from then on, and the lookup of every other key is
unchanged. -/
def AddsUnique (a : UniqueAdd β) : Prop :=
  ∃ h' nCode, h.uniqueAddNode (some a.own) a.pKey a.pData = .ok (h', nCode) ∧ KeysUnique h' ∧
    (nCode = eHASH_RESULT_DUPLICATE_KEYS ↔ InTable h a.pKey) ∧
    (InTable h a.pKey → h' = h) ∧
    (¬InTable h a.pKey → h'.hashLookup a.pKey = some ⟨a.pKey, a.pData⟩ ∧
      ∀ pKey ≠ a.pKey, h'.hashLookup pKey = h.hashLookup pKey)

/-- The chain of the key is empty, or the node holds a key before the call that tells whether the new
key is in the table: the same key when it is, another one when it is not. -/
def OwnKeyTells (a : UniqueAdd β) : Prop :=
  h.m_pHashData (h.getHashNo a.pKey) = [] ∨
    ∃ key, a.own = some key ∧ (key = a.pKey ↔ InTable h a.pKey)

/-- Every node is in the chain of its key, and no key is there twice. -/
structure UniqueTable (max : ℕ) : Prop where
  size : h.m_nMaxCount = max
  home : h.Keyed
  nodup : ∀ n, ((h.m_pHashData n).map STHash_Node.pKey).Nodup

end Spec

section Step

variable (h : CHash β) (max : ℕ) (hmax : 1 ≤ max)

theorem uniqueTable_new : UniqueTable (new max : CHash β) max :=
  ⟨rfl, fun _ _ hx => absurd hx List.not_mem_nil, fun _ => List.nodup_nil⟩

theorem UniqueTable.keysUnique (ht : UniqueTable h max) : KeysUnique h := by
  constructor
  · exact ht.nodup
  intro n m hne x hx y hy hkey
  apply hne
  rw [← ht.home n x hx, ← ht.home m y hy, hkey]

theorem inTable_iff (ht : UniqueTable h max) (pKey : CString) :
    InTable h pKey ↔ pKey ∈ (h.m_pHashData (h.getHashNo pKey)).map STHash_Node.pKey := by
  rw [List.mem_map]
  constructor
  · rintro ⟨n, x, hx, rfl⟩
    rw [ht.home n x hx]
    exact ⟨x, hx, rfl⟩
  · rintro ⟨x, hx, hkey⟩
    exact ⟨_, x, hx, hkey⟩

-- The first node of the chain decides.
theorem uniqueAddNode_eq (a : UniqueAdd β) (hpos : 1 ≤ h.m_nMaxCount) :
    h.uniqueAddNode (some a.own) a.pKey a.pData =
      if h.m_pHashData (h.getHashNo a.pKey) = [] then .ok (h.addNode a.pKey a.pData)
      else match a.own with
        | none => .error .nullRead
        | some key =>
          if a.pKey = key then .ok (h, eHASH_RESULT_DUPLICATE_KEYS)
          else .ok (h.addNode a.pKey a.pData) := by
  have hlt := not_le.mpr (h.getHashNo_lt a.pKey hpos)
  have hother (key : CString) (hne : a.pKey ≠ key) (chain : List (STHash_Node β)) :
      meetsKey (some key) a.pKey chain = .ok false := by
    induction chain with
    | nil => rfl
    | cons x chain ih => rw [meetsKey, if_neg hne, ih]
  rw [uniqueAddNode, if_neg hlt, addNode_eq h a.pKey a.pData hpos]
  cases hchain : h.m_pHashData (h.getHashNo a.pKey) with
  | nil => rfl
  | cons x chain =>
    rw [if_neg (List.cons_ne_nil x chain)]
    cases hown : a.own with
    | none => rfl
    | some key =>
      by_cases hkey : a.pKey = key
      · dsimp only
        rw [meetsKey, if_pos hkey, if_pos hkey]
        rfl
      · dsimp only
        rw [hother key hkey, if_neg hkey]
        rfl

theorem uniqueTable_addNode (pKey : CString) (pData : β) (ht : UniqueTable h max)
    (hpos : 1 ≤ h.m_nMaxCount) (hnew : ¬InTable h pKey) :
    UniqueTable (h.addNode pKey pData).1 max := by
  have hnew' := mt (inTable_iff h max ht pKey).mpr hnew
  rw [addNode_eq h pKey pData hpos]
  constructor
  · exact ht.size
  · rw [← addNode_eq h pKey pData hpos]
    exact keyed_addNode h pKey pData hpos ht.home
  · intro n
    change ((Function.update h.m_pHashData _ _ n).map STHash_Node.pKey).Nodup
    by_cases hn : n = h.getHashNo pKey
    · subst hn
      rw [Function.update_self, List.map_append, List.map_singleton]
      apply List.Nodup.append (ht.nodup _) (List.nodup_singleton _)
      rw [List.disjoint_singleton]
      exact hnew'
    · rw [Function.update_of_ne hn]
      exact ht.nodup n

-- What a lookup answers after a new node, by what the table says about the keys.
theorem hashLookup_addNode (pKey k : CString) (pData : β) (hpos : 1 ≤ h.m_nMaxCount) :
    (h.addNode pKey pData).1.hashLookup k =
      (if k = pKey then (h.find k).or (some pData) else h.find k).map (fun v => ⟨k, v⟩) := by
  have hpos' : 1 ≤ (h.addNode pKey pData).1.m_nMaxCount := by
    rw [addNode_eq h pKey pData hpos]
    exact hpos
  rw [hashLookup_eq_map, hashLookup_map_value _ k hpos', find_addNode h pKey k pData hpos]

theorem find_eq_none (ht : UniqueTable h max) (pKey : CString) (hnew : ¬InTable h pKey) :
    h.find pKey = none := by
  have hnew' := mt (inTable_iff h max ht pKey).mpr hnew
  rw [find, Option.map_eq_none_iff, List.find?_eq_none]
  intro x hx hkey
  exact hnew' (List.mem_map.mpr ⟨x, hx, of_decide_eq_true hkey⟩)

-- A bucket number is never the code of a duplicate.
theorem code_ne_duplicate (pKey : CString) (pData : β) (hpos : 1 ≤ h.m_nMaxCount)
    (hint : h.m_nMaxCount < 2^32) : (h.addNode pKey pData).2 ≠ eHASH_RESULT_DUPLICATE_KEYS := by
  have hlt := h.getHashNo_lt pKey hpos
  rw [addNode_eq h pKey pData hpos]
  dsimp only [eHASH_RESULT_DUPLICATE_KEYS, i32, Int.bmod]
  split_ifs <;> omega

theorem addsUnique_of_new (a : UniqueAdd β) (ht : UniqueTable h max) (hpos : 1 ≤ h.m_nMaxCount)
    (hint : h.m_nMaxCount < 2^32) (hnew : ¬InTable h a.pKey)
    (hrun : h.uniqueAddNode (some a.own) a.pKey a.pData = .ok (h.addNode a.pKey a.pData)) :
    AddsUnique h a := by
  have htable := uniqueTable_addNode h max a.pKey a.pData ht hpos hnew
  refine ⟨(h.addNode a.pKey a.pData).1, (h.addNode a.pKey a.pData).2, hrun, htable.keysUnique _ max, ?_,
    fun hold => absurd hold hnew, fun _ => ⟨?_, ?_⟩⟩
  · constructor
    · intro hcode
      exact absurd hcode (code_ne_duplicate h a.pKey a.pData hpos hint)
    · exact fun hold => absurd hold hnew
  · rw [hashLookup_addNode h a.pKey a.pKey a.pData hpos, if_pos rfl, find_eq_none h max ht a.pKey hnew]
    rfl
  · intro k hk
    rw [hashLookup_addNode h a.pKey k a.pData hpos, if_neg hk, hashLookup_eq_map,
      hashLookup_map_value h k hpos]

-- With an added node the answer is no duplicate.
theorem not_inTable_of_added (a : UniqueAdd β) (hpos : 1 ≤ h.m_nMaxCount)
    (hint : h.m_nMaxCount < 2^32) (hright : AddsUnique h a)
    (hrun : h.uniqueAddNode (some a.own) a.pKey a.pData = .ok (h.addNode a.pKey a.pData)) :
    ¬InTable h a.pKey := by
  obtain ⟨h', nCode, hrun', -, hcode, -⟩ := hright
  obtain ⟨rfl, rfl⟩ := Prod.mk.inj (Except.ok.inj (hrun.symm.trans hrun'))
  rw [← hcode]
  exact code_ne_duplicate h a.pKey a.pData hpos hint

theorem addsUnique_of_duplicate (a : UniqueAdd β) (ht : UniqueTable h max)
    (hrun : h.uniqueAddNode (some a.own) a.pKey a.pData = .ok (h, eHASH_RESULT_DUPLICATE_KEYS)) :
    AddsUnique h a ↔ InTable h a.pKey := by
  constructor
  · rintro ⟨h', nCode, hrun', -, hcode, -⟩
    obtain ⟨-, rfl⟩ := Prod.mk.inj (Except.ok.inj (hrun.symm.trans hrun'))
    exact hcode.mp rfl
  · intro hold
    exact ⟨h, _, hrun, ht.keysUnique h max, iff_of_true rfl hold, fun _ => rfl,
      fun hnew => absurd hold hnew⟩

theorem addsUnique_iff (a : UniqueAdd β) (ht : UniqueTable h max) (hpos : 1 ≤ h.m_nMaxCount)
    (hint : h.m_nMaxCount < 2^32) : AddsUnique h a ↔ OwnKeyTells h a := by
  have heq := uniqueAddNode_eq h a hpos
  by_cases hchain : h.m_pHashData (h.getHashNo a.pKey) = []
  · rw [if_pos hchain] at heq
    have hnew : ¬InTable h a.pKey := by
      rw [inTable_iff h max ht, hchain]
      exact List.not_mem_nil
    exact ⟨fun _ => Or.inl hchain, fun _ => addsUnique_of_new h max a ht hpos hint hnew heq⟩
  · have htells : OwnKeyTells h a ↔ ∃ key, a.own = some key ∧ (key = a.pKey ↔ InTable h a.pKey) :=
      or_iff_right hchain
    rw [if_neg hchain] at heq
    rw [htells]
    cases hown : a.own with
    | none =>
      constructor
      · rintro ⟨h', nCode, hrun, -⟩
        rw [heq, hown] at hrun
        cases hrun
      · rintro ⟨key, hkey, -⟩
        cases hkey
    | some key =>
      have hkeys : (∃ k, some key = some k ∧ (k = a.pKey ↔ InTable h a.pKey)) ↔
          (key = a.pKey ↔ InTable h a.pKey) := by
        simp
      rw [hkeys]
      by_cases hkey : a.pKey = key
      · have hrun : h.uniqueAddNode (some a.own) a.pKey a.pData =
            .ok (h, eHASH_RESULT_DUPLICATE_KEYS) := by
          rw [heq, hown]
          exact if_pos hkey
        rw [addsUnique_of_duplicate h max a ht hrun, ← hkey]
        simp
      · have hrun : h.uniqueAddNode (some a.own) a.pKey a.pData = .ok (h.addNode a.pKey a.pData) := by
          rw [heq, hown]
          exact if_neg hkey
        have hiff : (key = a.pKey ↔ InTable h a.pKey) ↔ ¬InTable h a.pKey := by
          simp [Ne.symm hkey]
        rw [hiff]
        constructor
        · exact fun hright => not_inTable_of_added h a hpos hint hright hrun
        · exact fun hnew => addsUnique_of_new h max a ht hpos hint hnew hrun

-- A call that is right keeps the table in order.
theorem uniqueTable_step (h' : CHash β) (a : UniqueAdd β) (ht : UniqueTable h max)
    (hpos : 1 ≤ h.m_nMaxCount) (hint : h.m_nMaxCount < 2^32) (htells : OwnKeyTells h a)
    (hstep : h.uniqueStep a = some h') : UniqueTable h' max := by
  obtain ⟨h₁, nCode, hrun, -, -, hold, -⟩ := (addsUnique_iff h max a ht hpos hint).mpr htells
  rw [uniqueStep, hrun] at hstep
  obtain rfl := Option.some.inj hstep
  by_cases hin : InTable h a.pKey
  · rw [hold hin]
    exact ht
  · have heq := uniqueAddNode_eq h a hpos
    rw [hrun] at heq
    have hadd : (h₁, nCode) = h.addNode a.pKey a.pData := by
      rcases htells with hnil | ⟨key, hown, hkey⟩
      · rw [if_pos hnil] at heq
        exact Except.ok.inj heq
      · have hne : ¬a.pKey = key := fun h0 => hin (hkey.mp h0.symm)
        rw [hown] at heq
        dsimp only at heq
        rw [if_neg hne, ite_self] at heq
        exact Except.ok.inj heq
    have htable := uniqueTable_addNode h max a.pKey a.pData ht hpos hin
    rw [← hadd] at htable
    exact htable

end Step

/-- From the empty table on, all calls of a run keep the keys unique and answer right exactly when each
of them finds an empty chain or a node whose own key tells whether the new key is in the table. -/
theorem uniqueAddNode_right_iff (max : ℕ) (hpos : 1 ≤ max) (hint : max < 2^32)
    (calls : List (UniqueAdd β)) :
    Runs.Along uniqueStep AddsUnique (new max) calls ↔
      Runs.Along uniqueStep OwnKeyTells (new max) calls := by
  apply Runs.along_iff_of_invariant uniqueStep (fun _ _ => True) AddsUnique OwnKeyTells
    (fun h => UniqueTable h max)
  · intro h a h' ht _ htells hstep
    exact uniqueTable_step h max h' a ht (ht.size ▸ hpos) (ht.size ▸ hint) htells hstep
  · intro h a ht _
    exact addsUnique_iff h max a ht (ht.size ▸ hpos) (ht.size ▸ hint)
  · exact uniqueTable_new max
  · exact Runs.along_of_forall uniqueStep _ (fun _ _ => trivial) _ _

theorem uniqueAddNode_right_iff_two : Runs.Along uniqueStep AddsUnique (new 1 : CHash ℕ)
    [⟨none, ⟨[97], by decide⟩, 1⟩, ⟨some ⟨[97], by decide⟩, ⟨[98], by decide⟩, 2⟩] := by
  apply (uniqueAddNode_right_iff 1 le_rfl (by decide) _).mpr
  refine ⟨Or.inl rfl, fun t ht => ⟨Or.inr ⟨_, rfl, iff_of_false (by decide) ?_⟩, fun _ _ => trivial⟩⟩
  obtain rfl := Option.some.inj ht
  rintro ⟨n, x, hx, hkey⟩
  change x ∈ Function.update (fun _ => []) 0 [⟨⟨[97], by decide⟩, 1⟩] n at hx
  rw [Function.update_apply] at hx
  split_ifs at hx
  · rw [List.mem_singleton.mp hx] at hkey
    exact absurd hkey (by decide)
  · cases hx

-- A zeroed node is enough where the chain is not empty.
theorem not_addsUnique_zeroed : ¬Runs.Along uniqueStep AddsUnique (new 1 : CHash ℕ)
    [⟨none, ⟨[97], by decide⟩, 1⟩, ⟨none, ⟨[98], by decide⟩, 2⟩] := by
  rintro ⟨-, h⟩
  obtain ⟨h', nCode, hrun, -⟩ := (h _ rfl).1
  have hfault : (.error .nullRead : Except Fault (CHash ℕ × ℤ)) = .ok (h', nCode) := hrun
  cases hfault

end CHash

end Leviathan
