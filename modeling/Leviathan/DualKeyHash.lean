import Leviathan.Hash

/-! `CDKeyHashMap` (comDualKeyHash.cpp) with external values (`bValInternal` false): a table of
tables.  Keys are copied into the nodes, and every allocation succeeds. -/
namespace Leviathan

structure CDKeyHashMap where
  m_pHashGroup : CHash (CHash ℕ)
  m_nMaxCount2 : ℕ

/-- What the uninitialised local `pHash` of `addKeyValue` holds: NULL, the address of the table of
some first key, or an address that is no table. -/
inductive Stale
  | null
  | table (pKey1 : CString)
  | wild
  deriving DecidableEq

namespace CDKeyHashMap

def new (nKey1Max nKey2Max : ℕ) : CDKeyHashMap := ⟨CHash.new nKey1Max, nKey2Max⟩

/-- A write to the table that the node of `pKey1` points to. -/
def modifyTable (m : CDKeyHashMap) (pKey1 : CString) (f : CHash ℕ → CHash ℕ) : CDKeyHashMap :=
  { m with m_pHashGroup := m.m_pHashGroup.modify pKey1 f }

/-- The second half of `addKey`, with the table of `pKey1` in `pHash`.  The second result says
that `*pTarget` is set. -/
def addKey2 (m : CDKeyHashMap) (pKey1 pKey2 : CString) (pHash : CHash ℕ) (pHashValue : ℕ) :
    CDKeyHashMap × ℤ × Bool :=
  let pHash := if pHashValue ≠ 0 then pHash.setHashValue pHashValue else pHash
  let r := pHash.addNode pKey2 0
  (m.modifyTable pKey1 (fun _ => r.1), r.2, true)

def addKey (m : CDKeyHashMap) (pKey1 pKey2 : CString) (pHashValue : ℕ) : CDKeyHashMap × ℤ × Bool :=
  match m.m_pHashGroup.hashLookup pKey1 with
  | some pNode =>
    if (pNode.value.hashLookup pKey2).isSome then (m, eHASH_RESULT_DUPLICATE_KEYS, false)
    else m.addKey2 pKey1 pKey2 pNode.value pHashValue
  | none =>
    let r := m.m_pHashGroup.addNode pKey1 (CHash.new m.m_nMaxCount2)
    let m := { m with m_pHashGroup := r.1 }
    if r.2 < 0 then (m, r.2, false)
    else m.addKey2 pKey1 pKey2 (CHash.new m.m_nMaxCount2) pHashValue

/-- `pHash->setHashValue(pHashValue)` through the uninitialised pointer. -/
def staleWrite (m : CDKeyHashMap) (stale : Stale) (pHashValue : ℕ) : Except Fault CDKeyHashMap :=
  match stale with
  | .null => .ok m
  | .table k =>
    if (m.m_pHashGroup.hashLookup k).isSome then .ok (m.modifyTable k (·.setHashValue pHashValue))
    else .error .wildWrite
  | .wild => .error .wildWrite

/-- `addKeyValue`: `addKey` is called without `pHashValue`, and does not set `pHash` when it fails. -/
def addKeyValue (m : CDKeyHashMap) (pKey1 pKey2 : CString) (pValue pHashValue : ℕ) (stale : Stale) :
    Except Fault (CDKeyHashMap × ℤ) :=
  match m.addKey pKey1 pKey2 0 with
  | (m, nRes, true) =>
    let m := if pHashValue ≠ 0 then m.modifyTable pKey1 (·.setHashValue pHashValue) else m
    match m.m_pHashGroup.hashLookup pKey1 with
    | some pNode =>
      if 0 ≤ nRes then
        let r := pNode.value.setValueAt nRes.toNat pKey2 pValue
        .ok (m.modifyTable pKey1 (fun _ => r.1), r.2)
      else .ok (m, nRes)
    | none => .ok (m, nRes)
  | (m, nRes, false) =>
    if pHashValue ≠ 0 then (m.staleWrite stale pHashValue).map (·, nRes) else .ok (m, nRes)

-- with external values `delValueBuf` does nothing
def setValue (m : CDKeyHashMap) (pKey1 pKey2 : CString) (pValue : ℕ) : CDKeyHashMap × ℤ :=
  match m.m_pHashGroup.hashLookup pKey1 with
  | some pNode =>
    if (pNode.value.hashLookup pKey2).isSome then
      (m.modifyTable pKey1 (·.modify pKey2 (fun _ => pValue)), eHASH_RESULT_SUCESS)
    else (m, eHASH_RESULT_INVALID_KEY)
  | none => (m, eHASH_RESULT_INVALID_KEY)

def getNode (m : CDKeyHashMap) (pKey1 pKey2 : CString) : Option (STHash_Node ℕ) :=
  match m.m_pHashGroup.hashLookup pKey1 with
  | some pNode => pNode.value.hashLookup pKey2
  | none => none

def isNode (m : CDKeyHashMap) (pKey1 pKey2 : CString) : Bool :=
  match m.m_pHashGroup.hashLookup pKey1 with
  | some pNode => (pNode.value.hashLookup pKey2).isSome
  | none => false

/-- `deleteHash`: `ppPrev` is still NULL when `*ppPrev` is written. -/
def deleteHash (m : CDKeyHashMap) (pKey1 : CString) : Except Fault (CDKeyHashMap × Bool) :=
  match m.m_pHashGroup.getNode pKey1 with
  | some _ => .error .nullWrite
  | none => .ok (m, false)

/-- `deleteNode`: the table it looks into is the one of the first node of the bucket. -/
def deleteNode (m : CDKeyHashMap) (pKey1 pKey2 : CString) : Except Fault (CDKeyHashMap × Bool) :=
  match m.m_pHashGroup.getNext pKey1 with
  | some pNext1 =>
    match pNext1.value.getNode pKey2 with
    | some _ => .error .nullWrite
    | none => .ok (m, false)
  | none => .ok (m, false)

end CDKeyHashMap

end Leviathan
