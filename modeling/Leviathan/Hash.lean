import Leviathan.CTypes

/-! `CHash` (comHash.cpp): a table of chains.  A chain is the list of its nodes, in the order of
their `next` pointers; what a node's `value` points to is part of the node. -/
namespace Leviathan

def eHASH_RESULT_SUCESS : ℤ := 0
def eHASH_RESULT_DUPLICATE_KEYS : ℤ := -1
def eHASH_RESULT_NOT_FOUND : ℤ := -2
def eHASH_RESULT_INVALID_KEY : ℤ := -3

structure STHash_Node (β : Type) where
  pKey : CString
  value : β

-- `m_pHashValue` is `none` until it is set: the constructor leaves it alone
structure CHash (β : Type) where
  m_nMaxCount : ℕ
  m_pHashData : ℕ → List (STHash_Node β)
  m_pHashValue : Option ℕ

namespace CHash

variable {β : Type}

def new (max : ℕ) : CHash β := ⟨max, fun _ => [], none⟩

-- a `char` is signed: it goes into the sum modulo `2^32`
def signedChar (c : UInt8) : ℕ := if c.toNat < 128 then c.toNat else c.toNat+2^32-256

def getHashNo (h : CHash β) (pStr : CString) : ℕ :=
  let nLen := u32 pStr.strlen
  let key := (pStr.chars.take nLen).foldl (fun key c => u32 (key+(u32 (key <<< 4)+signedChar c))) nLen
  key%h.m_nMaxCount

def hashLookupAt (h : CHash β) (nHashNo : ℕ) (pKey : CString) : Option (STHash_Node β) :=
  if nHashNo ≥ h.m_nMaxCount then none
  else (h.m_pHashData nHashNo).find? (fun pNext => pNext.pKey = pKey)

def hashLookup (h : CHash β) (pKey : CString) : Option (STHash_Node β) :=
  h.hashLookupAt (h.getHashNo pKey) pKey

-- `getNext(pStr)`: the first node of the bucket
def getNext (h : CHash β) (pStr : CString) : Option (STHash_Node β) :=
  (h.m_pHashData (h.getHashNo pStr)).head?

/-- `getNode(pStr, prevNext)`: the predecessor's address goes into the parameter `prevNext` itself,
which is passed by value, so the caller does not see it. -/
def getNode (h : CHash β) (pStr : CString) : Option (STHash_Node β) :=
  (h.m_pHashData (h.getHashNo pStr)).find? (fun pNext => pNext.pKey = pStr)

/-- A write through the pointer to the first node of a chain with this key. -/
def chainModify (pKey : CString) (f : β → β) : List (STHash_Node β) → List (STHash_Node β)
  | [] => []
  | pNext :: chain =>
    if pNext.pKey = pKey then { pNext with value := f pNext.value } :: chain
    else pNext :: chainModify pKey f chain

def modifyAt (h : CHash β) (nHashNo : ℕ) (pKey : CString) (f : β → β) : CHash β :=
  { h with
    m_pHashData := Function.update h.m_pHashData nHashNo (chainModify pKey f (h.m_pHashData nHashNo)) }

def modify (h : CHash β) (pKey : CString) (f : β → β) : CHash β :=
  h.modifyAt (h.getHashNo pKey) pKey f

-- `setValue(nHashNo, pKey, pData)`
def setValueAt (h : CHash β) (nHashNo : ℕ) (pKey : CString) (pData : β) : CHash β × ℤ :=
  if ((h.m_pHashData nHashNo).find? (fun pNext => pNext.pKey = pKey)).isSome then
    (h.modifyAt nHashNo pKey (fun _ => pData), eHASH_RESULT_SUCESS)
  else (h, eHASH_RESULT_NOT_FOUND)

-- the node is there; the new node goes to the end of the chain
def addNode (h : CHash β) (pKey : CString) (pData : β) : CHash β × ℤ :=
  let nHashNo := h.getHashNo pKey
  if nHashNo ≥ h.m_nMaxCount then (h, eHASH_RESULT_INVALID_KEY)
  else
    ({ h with
        m_pHashData := Function.update h.m_pHashData nHashNo (h.m_pHashData nHashNo ++ [⟨pKey, pData⟩]) },
      i32 nHashNo)

def setHashValue (h : CHash β) (p : ℕ) : CHash β := { h with m_pHashValue := some p }

/-- What the table says about a key. -/
def find (h : CHash β) (pKey : CString) : Option β :=
  ((h.m_pHashData (h.getHashNo pKey)).find? (fun pNext => pNext.pKey = pKey)).map STHash_Node.value

theorem getHashNo_lt (h : CHash β) (pStr : CString) (hmax : 1 ≤ h.m_nMaxCount) :
    h.getHashNo pStr < h.m_nMaxCount := Nat.mod_lt _ hmax

theorem hashLookup_map_value (h : CHash β) (pKey : CString) (hmax : 1 ≤ h.m_nMaxCount) :
    (h.hashLookup pKey).map STHash_Node.value = h.find pKey := by
  rw [hashLookup, hashLookupAt, if_neg (not_le.mpr (h.getHashNo_lt pKey hmax)), find]

-- The node that is found has the key that was looked for.
theorem hashLookup_eq_map (h : CHash β) (pKey : CString) :
    h.hashLookup pKey = ((h.hashLookup pKey).map STHash_Node.value).map (fun v => ⟨pKey, v⟩) := by
  cases hl : h.hashLookup pKey with
  | none => rfl
  | some pNode =>
    rw [hashLookup, hashLookupAt] at hl
    split at hl
    · cases hl
    · have hkey : pNode.pKey = pKey := by simpa using List.find?_some hl
      rw [← hkey]
      rfl

@[simp] theorem find_new (max : ℕ) (pKey : CString) : (new max : CHash β).find pKey = none := rfl

@[simp] theorem find_setHashValue (h : CHash β) (p : ℕ) (pKey : CString) :
    (h.setHashValue p).find pKey = h.find pKey := rfl

theorem addNode_eq (h : CHash β) (pKey : CString) (pData : β) (hmax : 1 ≤ h.m_nMaxCount) :
    h.addNode pKey pData = ({ h with
      m_pHashData := Function.update h.m_pHashData (h.getHashNo pKey)
        (h.m_pHashData (h.getHashNo pKey) ++ [⟨pKey, pData⟩]) }, i32 (h.getHashNo pKey)) :=
  if_neg (not_le.mpr (h.getHashNo_lt pKey hmax))

theorem addNode_code (h : CHash β) (pKey : CString) (pData : β) (hmax : 1 ≤ h.m_nMaxCount)
    (hint : h.m_nMaxCount < 2^31) : (h.addNode pKey pData).2 = h.getHashNo pKey := by
  have hlt : h.getHashNo pKey < 2^31 := (h.getHashNo_lt pKey hmax).trans hint
  rw [addNode_eq h pKey pData hmax, i32_natCast (h.getHashNo pKey) hlt]

theorem setValueAt_found (h : CHash β) (pKey : CString) (pData : β) (hf : (h.find pKey).isSome) :
    h.setValueAt (h.getHashNo pKey) pKey pData =
      (h.modify pKey (fun _ => pData), eHASH_RESULT_SUCESS) := by
  rw [find, Option.isSome_map] at hf
  exact if_pos hf

theorem find_chainModify (chain : List (STHash_Node β)) (pKey k : CString) (f : β → β) :
    ((chainModify pKey f chain).find? (fun pNext => pNext.pKey = k)).map STHash_Node.value =
      if k = pKey then ((chain.find? (fun pNext => pNext.pKey = k)).map STHash_Node.value).map f
      else (chain.find? (fun pNext => pNext.pKey = k)).map STHash_Node.value := by
  induction chain with
  | nil => simp [chainModify]
  | cons pNext chain ih =>
    by_cases hn : pNext.pKey = pKey
    · by_cases hk : k = pKey
      · simp [chainModify, hn, hk]
      · have hne : ¬pNext.pKey = k := fun he => hk (he.symm.trans hn)
        simp [chainModify, hn, hk, Ne.symm hk]
    · by_cases hk : pNext.pKey = k
      · have hne : ¬k = pKey := fun he => hn (hk.trans he)
        simp [chainModify, hk, hne]
      · simp only [chainModify, if_neg hn, List.find?_cons, hk, decide_false, ih]

-- Writing a value changes the answer for its key and for no other.
theorem find_modify (h : CHash β) (pKey k : CString) (f : β → β) :
    (h.modify pKey f).find k = if k = pKey then (h.find k).map f else h.find k := by
  show (((Function.update h.m_pHashData (h.getHashNo pKey) _) (h.getHashNo k)).find? _).map _ = _
  by_cases hno : h.getHashNo k = h.getHashNo pKey
  · rw [hno, Function.update_self, find_chainModify, ← hno]
    rfl
  · have hk : ¬k = pKey := fun he => hno (by rw [he])
    rw [Function.update_of_ne hno, if_neg hk]
    rfl

-- Appending a node answers for its key unless an earlier node does.
theorem find_addNode (h : CHash β) (pKey k : CString) (pData : β) (hmax : 1 ≤ h.m_nMaxCount) :
    (h.addNode pKey pData).1.find k =
      if k = pKey then (h.find k).or (some pData) else h.find k := by
  rw [addNode_eq h pKey pData hmax]
  show (((Function.update h.m_pHashData (h.getHashNo pKey) _) (h.getHashNo k)).find? _).map _ = _
  by_cases hno : h.getHashNo k = h.getHashNo pKey
  · rw [hno, Function.update_self, List.find?_append, ← hno]
    by_cases hk : k = pKey
    · subst hk
      rw [if_pos rfl, find]
      cases (h.m_pHashData (h.getHashNo k)).find? (fun pNext => pNext.pKey = k) with
      | none => simp
      | some pNext => rfl
    · simp [find, hk, Ne.symm hk]
  · have hk : ¬k = pKey := fun he => hno (by rw [he])
    rw [Function.update_of_ne hno, if_neg hk]
    rfl

/-- Every node is in the bucket of its key. -/
def Keyed (h : CHash β) : Prop := ∀ i, ∀ pNode ∈ h.m_pHashData i, h.getHashNo pNode.pKey = i

theorem keyed_addNode (h : CHash β) (pKey : CString) (pData : β) (hmax : 1 ≤ h.m_nMaxCount)
    (hk : h.Keyed) : (h.addNode pKey pData).1.Keyed := by
  rw [addNode_eq h pKey pData hmax]
  intro i pNode hp
  dsimp only at hp
  show h.getHashNo pNode.pKey = i
  by_cases hi : i = h.getHashNo pKey
  · subst hi
    rw [Function.update_self] at hp
    rcases List.mem_append.mp hp with hp | hp
    · exact hk _ pNode hp
    · rw [List.mem_singleton.mp hp]
  · rw [Function.update_of_ne hi] at hp
    exact hk i pNode hp

end CHash

end Leviathan
