import Leviathan.RBTreeInsert
import Leviathan.RBTreeSearch
import Leviathan.RBTreeVerify

/-! The tree as a map from keys to values: lookup and insertion. -/
namespace Leviathan.RBTree
open RedBlack ColorTree Cells SortedKeys

variable {K V : Type}

def pair (x : Entry K V) : K × Option V := (x.key, x.value)

/-- The keys and values of the tree, in order. -/
def contents (T : ColorTree (Entry K V)) : List (K × Option V) := T.toList.map pair

theorem contents_plug (T : ColorTree (Entry K V)) (p : List (Frame (Entry K V))) :
    contents (plug T p) = (before p).map pair ++ (contents T ++ (after p).map pair) := by
  simp [contents, toList_plug]

theorem contents_node (c : Color) (l : ColorTree (Entry K V)) (x : Entry K V)
    (r : ColorTree (Entry K V)) : contents (node c l x r) = contents l ++ pair x :: contents r := by
  simp [contents, toList]

/-- `compare_int`. -/
def compareInt (left right : ℤ) : ℤ := if left < right then -1 else if left > right then 1 else 0

theorem compareInt_compares : Compares compareInt := by
  constructor
  · intro a b
    unfold compareInt
    split_ifs <;> simp <;> omega
  · intro a b
    unfold compareInt
    split_ifs <;> simp <;> omega

/-- What `new_node` makes of a node for the insertion. -/
def fresh (k : K) (v : Option V) : RbtreeNode K V := ⟨.red, k, v, none, none, none⟩

theorem newNode_spec (t : Rbtree K V) (n : ℕ) (k : K) (v : Option V)
    (M : Multiset (ℕ × RbtreeNode K V)) (x : RbtreeNode K V) (h : Owns t.mem ({(n, x)}+M)) :
    Gives (t.newNode k v (some n) .red none none)
      (fun t' => t'.root = t.root ∧ Owns t'.mem ({(n, fresh k v)}+M)) := by
  have hfill := t.assign_owned _ ({(n, { fresh k v with parent := x.parent })}+M) h n x
    (fun x => { x with key := k, value := v, color := .red, left := none, right := none }) (by simp) (by
      rw [fresh]
      abel)
  rw [Rbtree.newNode]
  apply hfill.bind
  rintro t1 ⟨hroot1, h1⟩
  have hparent := t1.assign_owned _ ({(n, fresh k v)}+M) h1 n { fresh k v with parent := x.parent }
    (fun x => { x with parent := none }) (by simp) (by
      rw [fresh]
      abel)
  apply hparent.mono
  rintro t2 ⟨hroot2, h2⟩
  exact ⟨hroot2.trans hroot1, h2⟩

variable [LinearOrder K]

/-- A red-black search tree in memory: the links of all nodes are consistent, in both directions, the
keys are in order, the root is black, no red node has a red child and all paths have the same number of
black nodes.  The cells `m` are the nodes that are not in the tree. -/
structure Valid (t : Rbtree K V) (T : ColorTree (Entry K V)) (m : Multiset (ℕ × RbtreeNode K V)) :
    Prop where
  rep : Rep t T [] m
  sorted : SortedBy Prod.fst (contents T)
  balanced : ∃ k, Balanced T .black k

/-- The map with another value for one key. -/
def updated (l : List (K × Option V)) (k : K) (v : Option V) : List (K × Option V) :=
  l.filter (fun e => e.1 < k) ++ (k, v) :: l.filter (fun e => k < e.1)

/-- What the map says about a key; NULL when it says nothing. -/
def valueOf (l : List (K × Option V)) (k : K) : Option V := (findKey Prod.fst l k).bind Prod.snd

theorem sortedBy_pair (l : List (Entry K V)) :
    SortedBy Prod.fst (l.map pair) ↔ SortedBy Entry.key l := by
  unfold SortedBy
  rw [List.pairwise_map]
  rfl

theorem around_pair (k : K) (a b : List (Entry K V)) (h : Around Entry.key k a b) :
    Around Prod.fst k (a.map pair) (b.map pair) := by
  constructor
  · intro x hx
    obtain ⟨y, hy, rfl⟩ := List.mem_map.mp hx
    exact h.lt y hy
  · intro x hx
    obtain ⟨y, hy, rfl⟩ := List.mem_map.mp hx
    exact h.gt y hy

section Lookup

variable (t : Rbtree K V) (T : ColorTree (Entry K V)) (m : Multiset (ℕ × RbtreeNode K V))
  (compare : K → K → ℤ) (hc : Compares compare) (fuel : ℕ)

include hc

theorem rbtreeLookup_spec (h : Valid t T m) (hfuel : T.toList.length < fuel) (key : K) :
    t.rbtreeLookup compare fuel key = .ok (valueOf (contents T) key) := by
  have hsorted := (sortedBy_pair T.toList).mp h.sorted
  obtain ⟨hroot, -⟩ := (rep_nil t T m).mp h.rep
  rcases lookupLoop_spec t m compare hc key T [] h.rep hsorted fuel hfuel with
    ⟨c, l, x, r, q, rfl, hkey, hloop⟩ | ⟨hnone, hloop⟩
  · have hrep := h.rep
    rw [← rep_plug, List.append_nil] at hrep
    have hderef := deref_branch t q m .left c x l r hrep
    have hcontents : contents (plug (node c l x r) q) =
        ((before q).map pair ++ contents l) ++ pair x :: (contents r ++ (after q).map pair) := by
      rw [contents_plug, contents_node]
      simp
    have hs := h.sorted
    rw [hcontents] at hs
    have hfind := (hs.around _ _ _ (pair x)).findKey_self _ _ _ _ (pair x) rfl
    rw [← hcontents] at hfind
    have hx : (pair x).1 = key := hkey
    rw [hx] at hfind
    simp only [Rbtree.rbtreeLookup, Rbtree.lookupNode, hroot, hloop, ok_bind, reduceCtorEq, if_false,
      hderef, valueOf, hfind]
    rfl
  · have hfind : findKey Prod.fst (contents T) key = none := by
      apply findKey_none
      intro y hy
      obtain ⟨x, hx, rfl⟩ := List.mem_map.mp hy
      exact hnone x hx
    simp only [Rbtree.rbtreeLookup, Rbtree.lookupNode, hroot, hloop, ok_bind, if_true, valueOf, hfind]
    rfl

end Lookup

theorem valueOf_updated (l : List (K × Option V)) (k j : K) (v : Option V) :
    valueOf (updated l k v) j = if j = k then v else valueOf l j := by
  have hcons (b : List (K × Option V)) : ((k, v) :: b).find? (fun e => e.1 = j) =
      if j = k then some (k, v) else findKey Prod.fst b j := by
    by_cases hj : j = k
    · simp [hj]
    · rw [if_neg hj, List.find?_cons_of_neg (by simpa using Ne.symm hj)]
      rfl
  unfold valueOf
  rw [findKey, updated, List.find?_append, hcons]
  rcases lt_trichotomy j k with hj | hj | hj
  · have hlt := findKey_filter Prod.fst l (fun e => decide (e.1 < k)) j (by
      rintro e rfl
      exact decide_eq_true hj)
    have hgt := findKey_filter_none Prod.fst l (fun e => decide (k < e.1)) j (by
      rintro e rfl
      exact decide_eq_false hj.asymm)
    rw [findKey] at hlt
    rw [hlt, hgt, if_neg hj.ne, if_neg hj.ne, Option.or_none]
  · have hlt := findKey_filter_none Prod.fst l (fun e => decide (e.1 < k)) j (by
      rintro e rfl
      exact decide_eq_false hj.not_lt)
    rw [findKey] at hlt
    rw [hlt, if_pos hj, if_pos hj]
    rfl
  · have hlt := findKey_filter_none Prod.fst l (fun e => decide (e.1 < k)) j (by
      rintro e rfl
      exact decide_eq_false hj.asymm)
    have hgt := findKey_filter Prod.fst l (fun e => decide (k < e.1)) j (by
      rintro e rfl
      exact decide_eq_true hj)
    rw [findKey] at hlt
    rw [hlt, hgt, if_neg hj.ne', if_neg hj.ne', Option.none_or]

theorem length_updated (l : List (K × Option V)) (k : K) (v : Option V) :
    (updated l k v).length ≤ l.length+1 := by
  have hle : (l.filter (fun e => e.1 < k)).length+(l.filter (fun e => k < e.1)).length ≤ l.length := by
    induction l with
    | nil => exact le_rfl
    | cons e l ih =>
      rcases lt_trichotomy e.1 k with he | he | he
      · simp [he, he.asymm]
        omega
      · simp [he]
        omega
      · simp [he, he.asymm]
        omega
  rw [updated, List.length_append, List.length_cons]
  omega

section Insert

variable (t : Rbtree K V) (T : ColorTree (Entry K V)) (m : Multiset (ℕ × RbtreeNode K V))
  (compare : K → K → ℤ) (hc : Compares compare) (fuel n : ℕ) (k : K) (v : Option V)

/-- A tree with the entry of the new node, or with its value, that has been verified. -/
def Inserted (t' : Rbtree K V) : Prop :=
  ∃ T' m', Valid t' T' m' ∧ m ≤ m' ∧ contents T' = updated (contents T) k v

-- Everything between the smaller and the greater keys is replaced.
theorem updated_eq (a b c : List (K × Option V)) (h : Around Prod.fst k a b) (hk : ∀ e ∈ c, e.1 = k) :
    updated (a ++ (c ++ b)) k v = a ++ (k, v) :: b := by
  rw [updated, h.filter_lt _ _ _ _ _ hk, h.filter_gt _ _ _ _ _ hk]

theorem sortedBy_updated (a b c : List (K × Option V)) (h : Around Prod.fst k a b)
    (hs : SortedBy Prod.fst (a ++ (c ++ b))) : SortedBy Prod.fst (a ++ (k, v) :: b) := by
  apply h.sortedBy _ _ _ _ _ _ rfl
  apply hs.sublist
  exact List.Sublist.append_left (List.sublist_append_right c b) a

-- The new node at the end of a path, linked in both directions.
theorem insertLinked_spec (p : List (Frame (Entry K V))) (a b : List (K × Option V))
    (hrep : Rep t (node .red .nil ⟨n, k, v⟩ .nil) p m) (hp : Fits p .black 0)
    (ha : (before p).map pair = a) (hb : (after p).map pair = b)
    (hs : SortedBy Prod.fst (a ++ (k, v) :: b)) (hT : updated (contents T) k v = a ++ (k, v) :: b)
    (hfuel : a.length+b.length+1 < fuel) :
    Gives (t.insertLinked fuel (some n)) (Inserted T m k v) := by
  have hbal : Balanced (node .red .nil (⟨n, k, v⟩ : Entry K V) .nil) .red 0 := .red _ _ _ 0 .nil .nil
  have hlen := length_le p
  have halen : (before p).length = a.length := by rw [← ha, List.length_map]
  have hblen : (after p).length = b.length := by rw [← hb, List.length_map]
  have hcase := insertCase1_spec fuel t _ n 0 p m hrep rfl hbal hp (by omega)
  rw [Rbtree.insertLinked]
  apply hcase.bind
  rintro t' ⟨R, j, hrep', hbal', hlist⟩
  have hRlen : R.toList.length = a.length+b.length+1 := by
    rw [hlist]
    simp only [toList, List.length_append, List.length_cons, List.length_nil, halen, hblen]
    omega
  have hcontents : contents R = a ++ (k, v) :: b := by
    calc
      contents R = (before p ++ (⟨n, k, v⟩ : Entry K V) :: after p).map pair := by
        rw [contents, hlist]
        rfl
      _ = (before p).map pair ++ (k, v) :: (after p).map pair := by
        simp [pair]
      _ = a ++ (k, v) :: b := by
        rw [ha, hb]
  rw [verifyProperties_ok t' R m fuel j hrep' (by omega) hbal', ok_bind]
  apply gives_ok
  refine ⟨R, m, ⟨hrep', ?_, j, hbal'⟩, le_rfl, ?_⟩
  · rw [hcontents]
    exact hs
  · rw [hcontents, hT]

theorem insert_empty (h : Valid t .nil ({(n, fresh k v)}+m)) (hfuel : 1 < fuel) :
    Gives (t.rbtreeInsert compare fuel (some n)) (Inserted .nil m k v) := by
  obtain ⟨hroot, howns⟩ := (rep_nil t .nil _).mp h.rep
  have hnull : t.root = none := hroot
  rw [Rbtree.rbtreeInsert, if_pos hnull]
  apply insertLinked_spec _ _ m fuel n k v [] [] []
  · rw [rep_nil]
    refine ⟨rfl, ?_⟩
    rw [cells, zero_add] at howns
    simpa [cells, ptr, link, fresh] using howns
  · exact .nil 0
  · rfl
  · rfl
  · exact List.pairwise_singleton _ _
  · rfl
  · simpa using hfuel

-- The key is there: only the value of its node changes.
theorem inserted_found (c : Color) (l : ColorTree (Entry K V)) (x : Entry K V)
    (r : ColorTree (Entry K V)) (q : List (Frame (Entry K V))) (j : ℕ) (hx : (pair x).1 = k)
    (hs : SortedBy Prod.fst (contents (plug (node c l x r) q)))
    (hbal : Balanced (plug (node c l x r) q) .black j)
    (hrep : Rep t (plug (node c l { x with value := v } r) q) [] ({(n, fresh k v)}+m)) :
    Inserted (plug (node c l x r) q) m k v t := by
  obtain ⟨c', i, hnode, hfits⟩ := fits_of_plug _ q j hbal
  obtain ⟨j', hbal'⟩ := hfits.plug _ q c' i (hnode.relabel _ _ _ _ { x with value := v } _ _)
  have hsplit (y : Entry K V) : contents (plug (node c l y r) q) =
      ((before q).map pair ++ contents l) ++ ([pair y] ++ (contents r ++ (after q).map pair)) := by
    rw [contents_plug, contents_node]
    simp
  rw [hsplit] at hs
  have haround := hs.around _ _ (contents r ++ (after q).map pair) (pair x)
  rw [hx] at haround
  have hupdated := updated_eq k v _ _ [pair x] haround (by simpa using hx)
  rw [← hsplit x] at hupdated
  have hnew : pair { x with value := v } = (k, v) := by
    rw [← hx]
    rfl
  refine ⟨plug (node c l { x with value := v } r) q, _, ⟨hrep, ?_, j', hbal'⟩,
    Multiset.le_add_left _ _, ?_⟩
  · rw [hsplit, hnew]
    exact sortedBy_updated k v _ _ [pair x] haround hs
  · rw [hsplit, hnew, hupdated]
    rfl

-- The key is new: the node is linked to its parent, and the cases follow.
theorem insert_leaf (f : Frame (Entry K V)) (q : List (Frame (Entry K V))) (j : ℕ)
    (hs : SortedBy Prod.fst (contents (plug .nil (f :: q))))
    (hbal : Balanced (plug .nil (f :: q)) .black j)
    (haround : Around Entry.key k (before (f :: q)) (after (f :: q)))
    (hlinked : Linked m n (fresh k v) t (f :: q))
    (hfuel : (plug .nil (f :: q)).toList.length+1 < fuel) :
    Gives (do
      let t ← t.setParent (some n) (some f.val.addr)
      t.insertLinked fuel (some n)) (Inserted (plug .nil (f :: q)) m k v) := by
  obtain ⟨c, i, hnil, hfits⟩ := fits_of_plug _ (f :: q) j hbal
  cases hnil
  have haround' := around_pair k _ _ haround
  have hcontents := contents_plug .nil (f :: q)
  rw [hcontents] at hs
  have hlen : (plug .nil (f :: q)).toList.length =
      (before (f :: q)).length+(after (f :: q)).length := by
    rw [toList_plug]
    simp [toList]
  have hparent := t.assign_owned _ ({(n, { fresh k v with parent := some f.val.addr })}+
    pathCells (some n) (f :: q)+m) hlinked.owns n (fresh k v)
    (fun x => { x with parent := some f.val.addr }) (by simp) (by abel)
  apply hparent.bind
  rintro t' ⟨hroot, howns⟩
  apply insertLinked_spec t' _ m fuel n k v (f :: q) _ _ ⟨hroot.trans hlinked.root, ?_⟩ hfits rfl rfl
  · exact sortedBy_updated k v _ _ [] haround' hs
  · rw [hcontents]
    exact updated_eq k v _ _ [] haround' (by simp)
  · rw [List.length_map, List.length_map]
    omega
  · simpa [cells, ptr, link, fresh, up] using howns

include hc

theorem rbtreeInsert_spec (h : Valid t T ({(n, fresh k v)}+m)) (hfuel : T.toList.length+1 < fuel) :
    Gives (t.rbtreeInsert compare fuel (some n)) (Inserted T m k v) := by
  obtain ⟨hroot, -⟩ := (rep_nil t T _).mp h.rep
  obtain ⟨j, hbal⟩ := h.balanced
  have hsorted := (sortedBy_pair T.toList).mp h.sorted
  by_cases hT : T = .nil
  · subst hT
    exact insert_empty t m compare fuel n k v h (by omega)
  · have hne : ¬t.root = none := by
      rw [hroot]
      exact fun hptr => hT (ptr_eq_none T hptr)
    rw [Rbtree.rbtreeInsert, if_neg hne, hroot]
    rcases insertLoop_spec m compare hc n (fresh k v) t T [] h.rep hT hsorted fuel (by omega) with
      ⟨c, l, x, r, q, t', rfl, hkey, hloop, hrep⟩ | ⟨f, q, t', rfl, haround, hloop, hlinked⟩
    · rw [rep_plug] at hrep
      rw [hloop, ok_bind]
      apply gives_ok
      exact inserted_found t' m n k v c l x r q j hkey h.sorted hbal hrep
    · rw [List.append_nil] at hlinked
      rw [hloop, ok_bind]
      exact insert_leaf t' m fuel n k v f q j h.sorted hbal haround hlinked hfuel

-- `new_node` and `rbtree_insert`, as a caller has them.
theorem insertFresh_spec (x : RbtreeNode K V) (h : Valid t T ({(n, x)}+m))
    (hfuel : T.toList.length+1 < fuel) : Gives (do
      let t ← t.newNode k v (some n) .red none none
      t.rbtreeInsert compare fuel (some n)) (Inserted T m k v) := by
  obtain ⟨hroot, howns⟩ := (rep_nil t T _).mp h.rep
  rw [add_left_comm] at howns
  apply (newNode_spec t n k v _ x howns).bind
  rintro t' ⟨hroot', howns'⟩
  rw [add_left_comm] at howns'
  have h' : Valid t' T ({(n, fresh k v)}+m) :=
    ⟨(rep_nil t' T _).mpr ⟨hroot'.trans hroot, howns'⟩, h.sorted, h.balanced⟩
  exact rbtreeInsert_spec t' T m compare hc fuel n k v h' hfuel

/-- Inserting a fresh node into a valid tree. -/
theorem insert_fresh_valid (x : RbtreeNode K V) (h : Valid t T ({(n, x)}+m))
    (hfuel : T.toList.length+1 < fuel) :
    ∃ t' T' m', (do
        let t ← t.newNode k v (some n) .red none none
        t.rbtreeInsert compare fuel (some n)) = .ok t' ∧
      Valid t' T' m' ∧ m ≤ m' ∧ t'.verifyProperties fuel = .ok () ∧
      contents T' = updated (contents T) k v ∧
      ∀ j, t'.rbtreeLookup compare fuel j = if j = k then .ok v else t.rbtreeLookup compare fuel j := by
  obtain ⟨t', ht', T', m', hvalid, hm, hcontents⟩ :=
    insertFresh_spec t T m compare hc fuel n k v x h hfuel
  obtain ⟨i, hbal⟩ := hvalid.balanced
  have hlen : T'.toList.length < fuel := by
    have hle := length_updated (contents T) k v
    rw [← hcontents, contents, contents, List.length_map, List.length_map] at hle
    omega
  refine ⟨t', T', m', ht', hvalid, hm, verifyProperties_ok t' T' m' fuel i hvalid.rep hlen hbal,
    hcontents, ?_⟩
  intro j
  rw [rbtreeLookup_spec t' T' m' compare hc fuel hvalid hlen, hcontents, valueOf_updated,
    rbtreeLookup_spec t T _ compare hc fuel h (by omega)]
  split <;> rfl

end Insert

section Example

/-- A tree of two nodes, and a third node beside it. -/
def twoNodes : Rbtree ℤ ℕ where
  root := some 1
  mem
    | 1 => some ⟨.black, 1, some 10, none, some 2, none⟩
    | 2 => some ⟨.red, 2, some 20, none, none, some 1⟩
    | 3 => some ⟨.red, 0, none, none, none, none⟩
    | _ => none

def twoNodesTree : ColorTree (Entry ℤ ℕ) :=
  .node .black .nil ⟨1, 1, some 10⟩ (.node .red .nil ⟨2, 2, some 20⟩ .nil)

theorem twoNodes_valid : Valid twoNodes twoNodesTree ({(3, ⟨.red, 0, none, none, none, none⟩)}+0) := by
  constructor
  · rw [rep_nil]
    refine ⟨rfl, ?_, ?_⟩
    · simp [twoNodesTree, cells]
    · simp [twoNodesTree, cells, link, ptr, twoNodes]
  · simp [twoNodesTree, contents, toList, SortedBy, pair]
  · exact ⟨1, .black _ _ _ _ _ 0 .nil (.red _ _ _ 0 .nil .nil)⟩

theorem insert_fresh_three : ∃ t' T' m', (do
      let t ← twoNodes.newNode 3 (some 30) (some 3) .red none none
      t.rbtreeInsert compareInt 4 (some 3)) = .ok t' ∧
    Valid t' T' m' ∧ contents T' = [(1, some 10), (2, some 20), (3, some 30)] ∧
    t'.rbtreeLookup compareInt 4 3 = .ok (some 30) := by
  obtain ⟨t', T', m', hrun, hvalid, -, -, hcontents, hlookup⟩ := insert_fresh_valid twoNodes twoNodesTree 0
    compareInt compareInt_compares 4 3 3 (some 30) _ twoNodes_valid (by decide)
  exact ⟨t', T', m', hrun, hvalid, hcontents, hlookup 3⟩

end Example

end Leviathan.RBTree
