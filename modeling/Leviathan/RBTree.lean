import Leviathan.CTypes
import Leviathan.RedBlack

/-! The red-black tree of rbtree.cpp: nodes in a memory, linked by pointers to both children and to the
parent.  A null pointer or a freed node cannot be followed, and a failing assertion ends the program.
Loops and recursions that follow pointers have a fuel. -/
namespace Leviathan.RBTree
open RedBlack

inductive RBFault
  | nullDeref
  | dangling
  | assertFailed
  | diverges
  deriving DecidableEq

/-- `node`; `none` is NULL. -/
abbrev Ptr := Option ℕ

/-- `rbtree_node`.  The value is a pointer, so it may be NULL as well. -/
structure RbtreeNode (K V : Type) where
  color : Color
  key : K
  value : Option V
  left : Ptr
  right : Ptr
  parent : Ptr

def RbtreeNode.child {K V : Type} (x : RbtreeNode K V) : Dir → Ptr
  | .left => x.left
  | .right => x.right

def RbtreeNode.setChild {K V : Type} (x : RbtreeNode K V) (p : Ptr) : Dir → RbtreeNode K V
  | .left => { x with left := p }
  | .right => { x with right := p }

/-- `rbtree_t`, with the memory that the nodes are in. -/
structure Rbtree (K V : Type) where
  root : Ptr
  mem : ℕ → Option (RbtreeNode K V)

variable {K V : Type}

def assert (b : Prop) [Decidable b] : Except RBFault Unit :=
  if b then .ok () else .error .assertFailed

-- `&&` of two conditions that read the memory
def andAlso (a b : Except RBFault Bool) : Except RBFault Bool := do
  if ← a then b else return false

namespace Rbtree

def deref (t : Rbtree K V) (n : Ptr) : Except RBFault (RbtreeNode K V) :=
  match n with
  | none => .error .nullDeref
  | some a =>
    match t.mem a with
    | none => .error .dangling
    | some x => .ok x

-- an assignment to fields of `n`
def assign (t : Rbtree K V) (n : Ptr) (f : RbtreeNode K V → RbtreeNode K V) :
    Except RBFault (Rbtree K V) :=
  match n with
  | none => .error .nullDeref
  | some a =>
    match t.mem a with
    | none => .error .dangling
    | some x => .ok { t with mem := Function.update t.mem a (some (f x)) }

def setColor (t : Rbtree K V) (n : Ptr) (c : Color) : Except RBFault (Rbtree K V) :=
  t.assign n (fun x => { x with color := c })

def setParent (t : Rbtree K V) (n p : Ptr) : Except RBFault (Rbtree K V) :=
  t.assign n (fun x => { x with parent := p })

-- `if (n != NULL) n->parent = p`
def adopt (t : Rbtree K V) (n p : Ptr) : Except RBFault (Rbtree K V) :=
  if n ≠ none then t.setParent n p else .ok t

def setChild (t : Rbtree K V) (n : Ptr) (d : Dir) (p : Ptr) : Except RBFault (Rbtree K V) :=
  t.assign n (fun x => x.setChild p d)

def free (t : Rbtree K V) (n : Ptr) : Except RBFault (Rbtree K V) :=
  match n with
  | none => .ok t
  | some a => do
    let _ ← t.deref n
    return { t with mem := Function.update t.mem a none }

def grandparent (t : Rbtree K V) (n : Ptr) : Except RBFault Ptr := do
  assert (n ≠ none)
  let x ← t.deref n
  assert (x.parent ≠ none)
  let y ← t.deref x.parent
  assert (y.parent ≠ none)
  return y.parent

def sibling (t : Rbtree K V) (n : Ptr) : Except RBFault Ptr := do
  assert (n ≠ none)
  let x ← t.deref n
  assert (x.parent ≠ none)
  let y ← t.deref x.parent
  if n = y.left then return y.right else return y.left

def uncle (t : Rbtree K V) (n : Ptr) : Except RBFault Ptr := do
  assert (n ≠ none)
  let x ← t.deref n
  assert (x.parent ≠ none)
  let y ← t.deref x.parent
  assert (y.parent ≠ none)
  t.sibling x.parent

def nodeColor (t : Rbtree K V) (n : Ptr) : Except RBFault Color :=
  match n with
  | none => .ok .black
  | some _ => do return (← t.deref n).color

def verifyProperty1 (t : Rbtree K V) : ℕ → Ptr → Except RBFault Unit
  | 0, _ => .error .diverges
  | fuel+1, n => do
    let c ← t.nodeColor n
    assert (c = .red ∨ c = .black)
    if n = none then return
    verifyProperty1 t fuel (← t.deref n).left
    verifyProperty1 t fuel (← t.deref n).right

def verifyProperty2 (t : Rbtree K V) (root : Ptr) : Except RBFault Unit := do
  assert ((← t.nodeColor root) = .black)

def verifyProperty4 (t : Rbtree K V) : ℕ → Ptr → Except RBFault Unit
  | 0, _ => .error .diverges
  | fuel+1, n => do
    if (← t.nodeColor n) = .red then
      assert ((← t.nodeColor (← t.deref n).left) = .black)
      assert ((← t.nodeColor (← t.deref n).right) = .black)
      assert ((← t.nodeColor (← t.deref n).parent) = .black)
    if n = none then return
    verifyProperty4 t fuel (← t.deref n).left
    verifyProperty4 t fuel (← t.deref n).right

/-- The result is `*path_black_count`. -/
def verifyProperty5Helper (t : Rbtree K V) : ℕ → Ptr → ℤ → ℤ → Except RBFault ℤ
  | 0, _, _, _ => .error .diverges
  | fuel+1, n, black_count, path_black_count => do
    let black_count := if (← t.nodeColor n) = .black then black_count+1 else black_count
    if n = none then
      if path_black_count = -1 then return black_count
      assert (black_count = path_black_count)
      return path_black_count
    let path_black_count ← verifyProperty5Helper t fuel (← t.deref n).left black_count path_black_count
    verifyProperty5Helper t fuel (← t.deref n).right black_count path_black_count

def verifyProperty5 (t : Rbtree K V) (fuel : ℕ) (root : Ptr) : Except RBFault Unit := do
  let _ ← t.verifyProperty5Helper fuel root 0 (-1)

def verifyProperties (t : Rbtree K V) (fuel : ℕ) : Except RBFault Unit := do
  t.verifyProperty1 fuel t.root
  t.verifyProperty2 t.root
  t.verifyProperty4 fuel t.root
  t.verifyProperty5 fuel t.root

end Rbtree

def rbtreeCreate (mem : ℕ → Option (RbtreeNode K V)) (fuel : ℕ) : Except RBFault (Rbtree K V) := do
  let t : Rbtree K V := ⟨none, mem⟩
  t.verifyProperties fuel
  return t

namespace Rbtree

def newNode (t : Rbtree K V) (k : K) (v : Option V) (result : Ptr) (n_color : Color)
    (left right : Ptr) : Except RBFault (Rbtree K V) := do
  let t ← t.assign result (fun x =>
    { x with key := k, value := v, color := n_color, left := left, right := right })
  let t ← t.adopt left result
  let t ← t.adopt right result
  t.setParent result none

def lookupLoop (t : Rbtree K V) (compare : K → K → ℤ) (key : K) : ℕ → Ptr → Except RBFault Ptr
  | 0, _ => .error .diverges
  | fuel+1, n =>
    if n = none then return n
    else do
      let x ← t.deref n
      let comp_result := compare key x.key
      if comp_result = 0 then return n
      else if comp_result < 0 then lookupLoop t compare key fuel x.left
      else
        assert (comp_result > 0)
        lookupLoop t compare key fuel x.right

def lookupNode (t : Rbtree K V) (compare : K → K → ℤ) (fuel : ℕ) (key : K) : Except RBFault Ptr :=
  t.lookupLoop compare key fuel t.root

def rbtreeLookup (t : Rbtree K V) (compare : K → K → ℤ) (fuel : ℕ) (key : K) :
    Except RBFault (Option V) := do
  let n ← t.lookupNode compare fuel key
  if n = none then return none else return (← t.deref n).value

-- the first half of `replace_node`: the root or the parent of the old node points to the new one
def replaceBelow (t : Rbtree K V) (oldn newn : Ptr) : Except RBFault (Rbtree K V) := do
  let x ← t.deref oldn
  if x.parent = none then return { t with root := newn }
  else
    let y ← t.deref x.parent
    if oldn = y.left then t.setChild x.parent .left newn else t.setChild x.parent .right newn

def replaceNode (t : Rbtree K V) (oldn newn : Ptr) : Except RBFault (Rbtree K V) := do
  let t ← t.replaceBelow oldn newn
  t.adopt newn (← t.deref oldn).parent

/-- `rotate_left`, and on the other side `rotate_right`. -/
def rotate (d : Dir) (t : Rbtree K V) (n : Ptr) : Except RBFault (Rbtree K V) := do
  let r := (← t.deref n).child d.flip
  let t ← t.replaceNode n r
  let t ← t.setChild n d.flip ((← t.deref r).child d)
  let t ← t.adopt ((← t.deref r).child d) n
  let t ← t.setChild r d n
  t.setParent n r

def rotateLeft (t : Rbtree K V) (n : Ptr) : Except RBFault (Rbtree K V) := rotate .left t n

def rotateRight (t : Rbtree K V) (n : Ptr) : Except RBFault (Rbtree K V) := rotate .right t n

-- `n == n->parent->left`, and on the other side
def isChild (t : Rbtree K V) (d : Dir) (n : Ptr) : Except RBFault Bool := do
  let x ← t.deref n
  let y ← t.deref x.parent
  return n = y.child d

-- `n->parent == grandparent(n)->left`, and on the other side
def parentIsChild (t : Rbtree K V) (d : Dir) (n : Ptr) : Except RBFault Bool := do
  let x ← t.deref n
  let y ← t.deref (← t.grandparent n)
  return x.parent = y.child d

def insertCase5 (t : Rbtree K V) (n : Ptr) : Except RBFault (Rbtree K V) := do
  let t ← t.setColor (← t.deref n).parent .black
  let t ← t.setColor (← t.grandparent n) .red
  if ← andAlso (t.isChild .left n) (t.parentIsChild .left n) then t.rotateRight (← t.grandparent n)
  else
    assert (← andAlso (t.isChild .right n) (t.parentIsChild .right n))
    t.rotateLeft (← t.grandparent n)

def insertCase4 (t : Rbtree K V) (n : Ptr) : Except RBFault (Rbtree K V) := do
  if ← andAlso (t.isChild .right n) (t.parentIsChild .left n) then
    let t ← t.rotateLeft (← t.deref n).parent
    t.insertCase5 (← t.deref n).left
  else if ← andAlso (t.isChild .left n) (t.parentIsChild .right n) then
    let t ← t.rotateRight (← t.deref n).parent
    t.insertCase5 (← t.deref n).right
  else t.insertCase5 n

-- `again` is the call of `insert_case1`
def insertCase3 (again : Rbtree K V → Ptr → Except RBFault (Rbtree K V)) (t : Rbtree K V) (n : Ptr) :
    Except RBFault (Rbtree K V) := do
  if (← t.nodeColor (← t.uncle n)) = .red then
    let t ← t.setColor (← t.deref n).parent .black
    let t ← t.setColor (← t.uncle n) .black
    let t ← t.setColor (← t.grandparent n) .red
    again t (← t.grandparent n)
  else t.insertCase4 n

def insertCase2 (again : Rbtree K V → Ptr → Except RBFault (Rbtree K V)) (t : Rbtree K V) (n : Ptr) :
    Except RBFault (Rbtree K V) := do
  if (← t.nodeColor (← t.deref n).parent) = .black then return t
  else insertCase3 again t n

def insertCase1 : ℕ → Rbtree K V → Ptr → Except RBFault (Rbtree K V)
  | 0, _, _ => .error .diverges
  | fuel+1, t, n => do
    if (← t.deref n).parent = none then t.setColor n .black
    else insertCase2 (insertCase1 fuel) t n

/-- The loop of `rbtree_insert`.  It gives back the node that the new one was linked to, or nothing when
the key was there and its value has been replaced. -/
def insertLoop (compare : K → K → ℤ) (inserted_node : Ptr) :
    ℕ → Rbtree K V → Ptr → Except RBFault (Rbtree K V × Option Ptr)
  | 0, _, _ => .error .diverges
  | fuel+1, t, n => do
    let new ← t.deref inserted_node
    let x ← t.deref n
    let comp_result := compare new.key x.key
    if comp_result = 0 then
      let t ← t.assign n (fun x => { x with value := new.value })
      return (t, none)
    else if comp_result < 0 then
      if x.left = none then
        let t ← t.setChild n .left inserted_node
        return (t, some n)
      else insertLoop compare inserted_node fuel t x.left
    else
      assert (comp_result > 0)
      if x.right = none then
        let t ← t.setChild n .right inserted_node
        return (t, some n)
      else insertLoop compare inserted_node fuel t x.right

-- what `rbtree_insert` does once the new node is linked
def insertLinked (t : Rbtree K V) (fuel : ℕ) (inserted_node : Ptr) : Except RBFault (Rbtree K V) := do
  let t ← insertCase1 fuel t inserted_node
  t.verifyProperties fuel
  return t

def rbtreeInsert (t : Rbtree K V) (compare : K → K → ℤ) (fuel : ℕ) (inserted_node : Ptr) :
    Except RBFault (Rbtree K V) :=
  if t.root = none then insertLinked { t with root := inserted_node } fuel inserted_node
  else do
    match ← insertLoop compare inserted_node fuel t t.root with
    | (t, none) => return t
    | (t, some n) =>
      let t ← t.setParent inserted_node n
      t.insertLinked fuel inserted_node

def maximumLoop (t : Rbtree K V) : ℕ → Ptr → Except RBFault Ptr
  | 0, _ => .error .diverges
  | fuel+1, n => do
    let x ← t.deref n
    if x.right ≠ none then maximumLoop t fuel x.right else return n

def maximumNode (t : Rbtree K V) (fuel : ℕ) (n : Ptr) : Except RBFault Ptr := do
  assert (n ≠ none)
  t.maximumLoop fuel n

-- `node_color(n->parent) == c`
def parentIs (t : Rbtree K V) (n : Ptr) (c : Color) : Except RBFault Bool := do
  let x ← t.deref n
  return (← t.nodeColor x.parent) = c

-- `node_color(sibling(n)) == c`
def siblingIs (t : Rbtree K V) (n : Ptr) (c : Color) : Except RBFault Bool := do
  return (← t.nodeColor (← t.sibling n)) = c

-- `sibling(n)->left`, and on the other side
def nephew (t : Rbtree K V) (d : Dir) (n : Ptr) : Except RBFault Ptr := do
  let y ← t.deref (← t.sibling n)
  return y.child d

-- `node_color(sibling(n)->left) == c`, and on the other side
def nephewIs (t : Rbtree K V) (d : Dir) (n : Ptr) (c : Color) : Except RBFault Bool := do
  return (← t.nodeColor (← t.nephew d n)) = c

def deleteCase6 (t : Rbtree K V) (n : Ptr) : Except RBFault (Rbtree K V) := do
  let t ← t.setColor (← t.sibling n) (← t.nodeColor (← t.deref n).parent)
  let t ← t.setColor (← t.deref n).parent .black
  if ← t.isChild .left n then
    assert (← t.nephewIs .right n .red)
    let t ← t.setColor (← t.nephew .right n) .black
    t.rotateLeft (← t.deref n).parent
  else
    assert (← t.nephewIs .left n .red)
    let t ← t.setColor (← t.nephew .left n) .black
    t.rotateRight (← t.deref n).parent

def deleteCase5 (t : Rbtree K V) (n : Ptr) : Except RBFault (Rbtree K V) := do
  if ← andAlso (t.isChild .left n) (andAlso (t.siblingIs n .black)
      (andAlso (t.nephewIs .left n .red) (t.nephewIs .right n .black))) then
    let t ← t.setColor (← t.sibling n) .red
    let t ← t.setColor (← t.nephew .left n) .black
    let t ← t.rotateRight (← t.sibling n)
    t.deleteCase6 n
  else if ← andAlso (t.isChild .right n) (andAlso (t.siblingIs n .black)
      (andAlso (t.nephewIs .right n .red) (t.nephewIs .left n .black))) then
    let t ← t.setColor (← t.sibling n) .red
    let t ← t.setColor (← t.nephew .right n) .black
    let t ← t.rotateLeft (← t.sibling n)
    t.deleteCase6 n
  else t.deleteCase6 n

-- the condition of cases 3 and 4: this parent, and no red sibling or nephew
def onlyBlack (t : Rbtree K V) (n : Ptr) (c : Color) : Except RBFault Bool :=
  andAlso (t.parentIs n c) (andAlso (t.siblingIs n .black)
    (andAlso (t.nephewIs .left n .black) (t.nephewIs .right n .black)))

def deleteCase4 (t : Rbtree K V) (n : Ptr) : Except RBFault (Rbtree K V) := do
  if ← t.onlyBlack n .red then
    let t ← t.setColor (← t.sibling n) .red
    t.setColor (← t.deref n).parent .black
  else t.deleteCase5 n

-- `again` is the call of `delete_case1`
def deleteCase3 (again : Rbtree K V → Ptr → Except RBFault (Rbtree K V)) (t : Rbtree K V) (n : Ptr) :
    Except RBFault (Rbtree K V) := do
  if ← t.onlyBlack n .black then
    let t ← t.setColor (← t.sibling n) .red
    again t (← t.deref n).parent
  else t.deleteCase4 n

-- the rotation of case 2
def rotateParent (t : Rbtree K V) (n : Ptr) : Except RBFault (Rbtree K V) := do
  if ← t.isChild .left n then t.rotateLeft (← t.deref n).parent
  else t.rotateRight (← t.deref n).parent

def deleteCase2 (again : Rbtree K V → Ptr → Except RBFault (Rbtree K V)) (t : Rbtree K V) (n : Ptr) :
    Except RBFault (Rbtree K V) := do
  if ← t.siblingIs n .red then
    let t ← t.setColor (← t.deref n).parent .red
    let t ← t.setColor (← t.sibling n) .black
    let t ← t.rotateParent n
    deleteCase3 again t n
  else deleteCase3 again t n

def deleteCase1 : ℕ → Rbtree K V → Ptr → Except RBFault (Rbtree K V)
  | 0, _, _ => .error .diverges
  | fuel+1, t, n => do
    if (← t.deref n).parent = none then return t
    else deleteCase2 (deleteCase1 fuel) t n

-- A black node that is about to go takes the colour of its child.
def rebalance (t : Rbtree K V) (fuel : ℕ) (n child : Ptr) : Except RBFault (Rbtree K V) := do
  if (← t.nodeColor n) = .black then
    let t ← t.setColor n (← t.nodeColor child)
    deleteCase1 fuel t n
  else return t

-- `rbtree_delete` from the node with at most one child on
def unlink (t : Rbtree K V) (fuel : ℕ) (n : Ptr) : Except RBFault (Rbtree K V) := do
  let x ← t.deref n
  assert (x.left = none ∨ x.right = none)
  let child := if x.right = none then x.left else x.right
  let t ← t.rebalance fuel n child
  let t ← t.replaceNode n child
  t.free n

/-- `rbtree_delete` for the node that was found, as far as the final verification. -/
def deleteNode (t : Rbtree K V) (fuel : ℕ) (n : Ptr) : Except RBFault (Rbtree K V) := do
  let x ← t.deref n
  if x.left ≠ none ∧ x.right ≠ none then
    let pred ← t.maximumNode fuel x.left
    let y ← t.deref pred
    let t ← t.assign n (fun x => { x with key := y.key })
    let y ← t.deref pred
    let t ← t.assign n (fun x => { x with value := y.value })
    t.unlink fuel pred
  else t.unlink fuel n

/-- `rbtree_delete` without the final verification. -/
def deleteKey (t : Rbtree K V) (compare : K → K → ℤ) (fuel : ℕ) (key : K) :
    Except RBFault (Rbtree K V) := do
  let n ← t.lookupNode compare fuel key
  if n = none then return t else t.deleteNode fuel n

def rbtreeDelete (t : Rbtree K V) (compare : K → K → ℤ) (fuel : ℕ) (key : K) :
    Except RBFault (Rbtree K V) := do
  let n ← t.lookupNode compare fuel key
  if n = none then return t
  else
    let t ← t.deleteNode fuel n
    t.verifyProperties fuel
    return t

end Rbtree

end Leviathan.RBTree
