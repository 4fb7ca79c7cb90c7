import Leviathan.RBTreeDelete
import Leviathan.RBTreeMap

/-! Deletion: the key goes, the tree stays balanced, and the root is black except in one case. -/
namespace Leviathan.RBTree
open RedBlack ColorTree Cells SortedKeys

variable {K V : Type}

section Unlink

variable (t : Rbtree K V) (S : ColorTree (Entry K V)) (d : Dir) (c : Color) (y : Entry K V)
  (p : List (Frame (Entry K V))) (m : Multiset (ℕ × RbtreeNode K V)) (fuel : ℕ)

-- The only child takes the place of its parent, which is freed.
theorem replace_free (h : Rep t (branch d c y S .nil) p m) :
    Gives (do
      let t ← t.replaceNode (some y.addr) (ptr S)
      t.free (some y.addr)) (fun t' => Rep t' S p m) := by
  have howns := h.owns
  have hroot := h.root
  rw [ptr_branch] at hroot
  rw [cells_branch, ptr_branch] at howns
  have hreplace := replaceNode_spec t p m y.addr (link d c y (ptr S) none (up p)) S (some y.addr)
    (link_parent d c y _ _ _) hroot (by
      convert howns using 1
      rw [cells, ptr]
      abel)
  apply hreplace.bind
  rintro t1 ⟨hroot1, h1⟩
  have hderef := t1.deref_owned _ h1 y.addr (link d c y (ptr S) none (up p)) (by simp)
  rw [Rbtree.free, hderef, ok_bind]
  apply gives_ok
  refine ⟨hroot1, h1.free y.addr (link d c y (ptr S) none (up p)) _ ?_⟩
  abel

-- A node with at most one child, seen from the side of that child.
theorem child_eq (q : Ptr) : (if (link d c y (ptr S) none q).right = none then
    (link d c y (ptr S) none q).left else (link d c y (ptr S) none q).right) = ptr S := by
  cases d with
  | left => rfl
  | right =>
    cases S with
    | nil => rfl
    | node => rfl

theorem child_balanced (c' : Color) (k : ℕ) (hb : Balanced (branch d c y S .nil) c' k) :
    (c = .red ∧ c' = .red ∧ k = 0 ∧ S = .nil) ∨
      (c = .black ∧ c' = .black ∧ k = 1 ∧ ∃ cs, Balanced S cs 0) := by
  cases d with
  | left =>
    cases hb with
    | red _ _ _ _ hl hr =>
      cases hr
      exact Or.inl ⟨rfl, rfl, rfl, hl.eq_nil⟩
    | black _ _ _ cl cr _ hl hr =>
      cases hr
      exact Or.inr ⟨rfl, rfl, rfl, cl, hl⟩
  | right =>
    cases hb with
    | red _ _ _ _ hl hr =>
      cases hl
      exact Or.inl ⟨rfl, rfl, rfl, hr.eq_nil⟩
    | black _ _ _ cl cr _ hl hr =>
      cases hl
      exact Or.inr ⟨rfl, rfl, rfl, cr, hr⟩

/-- The path above a node that is about to go fits its only child, except at the root, where nothing is
done. -/
theorem rebalance_spec (c' : Color) (k : ℕ) (h : Rep t (branch d c y S .nil) p m)
    (hb : Balanced (branch d c y S .nil) c' k) (hp : Fits p c' k) (hfuel : p.length < fuel) :
    Gives (t.rebalance fuel (some y.addr) (ptr S)) (fun t' => ∃ q c'' cs,
      Rep t' (branch d c'' y S .nil) q m ∧ SameOrder q p ∧ Balanced S cs 0 ∧ (p = [] → q = []) ∧
      (p ≠ [] → Fits q cs 0)) := by
  have hcolor := nodeColor_focus t _ p m h
  rw [ptr_branch, color_branch] at hcolor
  rw [Rbtree.rebalance, hcolor, ok_bind]
  rcases child_balanced S d c y c' k hb with ⟨rfl, rfl, rfl, rfl⟩ | ⟨rfl, rfl, rfl, cs, hS⟩
  · rw [if_neg (by simp)]
    exact gives_ok t _ ⟨p, .red, .black, h, SameOrder.refl p, .nil, id, fun _ => hp.of_red p 0 .black⟩
  · have hchild : Rep t S (⟨d, .black, y, .nil⟩ :: p) m := (rep_fill _ _ _ _ _).mpr h
    rw [if_pos rfl, nodeColor_focus t S _ m hchild, ok_bind, hS.color_eq]
    have hset := setColor_focus t _ p m cs h (by cases d <;> simp [branch])
    rw [ptr_branch, paint_branch] at hset
    apply hset.bind
    intro t1 h1
    apply (deleteCase1_spec fuel t1 _ y.addr 0 p m h1 (ptr_branch _ _ _ _ _) hp hfuel).mono
    rintro t' ⟨q, h', horder, -, hroot, hfits⟩
    exact ⟨q, cs, cs, h', horder, hS, hroot, fun hne => hfits hne cs⟩

theorem unlink_spec (c' : Color) (k : ℕ) (h : Rep t (branch d c y S .nil) p m)
    (hb : Balanced (branch d c y S .nil) c' k) (hp : Fits p c' k) (hfuel : p.length < fuel) :
    Gives (t.unlink fuel (some y.addr)) (fun t' => ∃ q cs, Rep t' S q m ∧ SameOrder q p ∧
      Balanced S cs 0 ∧ (p = [] → q = []) ∧ (p ≠ [] → Fits q cs 0)) := by
  have hderef : t.deref (some y.addr) = .ok (link d c y (ptr S) none (up p)) :=
    deref_branch t p m d c y S .nil h
  have hone : (link d c y (ptr S) none (up p)).left = none ∨
      (link d c y (ptr S) none (up p)).right = none := by
    cases d with
    | left => exact Or.inr rfl
    | right => exact Or.inl rfl
  rw [Rbtree.unlink, hderef, ok_bind, assert, if_pos hone, ok_bind, child_eq S d c y (up p)]
  apply (rebalance_spec t S d c y p m fuel c' k h hb hp hfuel).bind
  rintro t1 ⟨q, c'', cs, h1, horder, hS, hroot, hfits⟩
  apply (replace_free t1 S d c'' y q m h1).mono
  intro t' h'
  exact ⟨q, cs, h', horder, hS, hroot, hfits⟩

end Unlink

/-- What the deletion leaves behind: the same list without one entry, still balanced, but with a red
root when the condition holds. -/
def Erased (a b : List (K × Option V)) (m : Multiset (ℕ × RbtreeNode K V)) (redRoot : Prop)
    (t : Rbtree K V) : Prop :=
  ∃ T c k, Rep t T [] m ∧ Balanced T c k ∧ contents T = a ++ b ∧ (c = .red ↔ redRoot)

section Delete

variable (t : Rbtree K V) (m : Multiset (ℕ × RbtreeNode K V)) (fuel : ℕ) (c : Color)
  (l : ColorTree (Entry K V)) (x : Entry K V) (r : ColorTree (Entry K V))
  (q : List (Frame (Entry K V))) (k : ℕ)

-- A node with both children takes over key and value of its predecessor, which then is the one to go.
theorem deleteNode_copies (h : Rep t (node c l x r) q m) (hl : l ≠ .nil) (hr : r ≠ .nil)
    (hfuel : l.toList.length ≤ fuel) : ∃ c' l' y s t', l = plug (node c' l' y .nil) s ∧ after s = [] ∧
      t.deleteNode fuel (some x.addr) = t'.unlink fuel (some y.addr) ∧
      Rep t' (node c' l' y .nil) (s ++ ⟨.left, c, ⟨x.addr, y.key, y.value⟩, r⟩ :: q) m := by
  have hderef := deref_branch t q m .left c x l r h
  have hpl : ptr l ≠ none := fun hptr => hl (ptr_eq_none l hptr)
  have hpr : ptr r ≠ none := fun hptr => hr (ptr_eq_none r hptr)
  have hleft : Rep t l (⟨.left, c, x, r⟩ :: q) m := (rep_fill _ _ _ _ _).mpr h
  obtain ⟨c', l', y, s, rfl, hafter, hloop⟩ := maximumLoop_spec t m l _ hleft hl fuel hfuel
  -- the path from the predecessor up, whatever the label of the node above it
  have hpred (t : Rbtree K V) (z : Entry K V)
      (hz : Rep t (node c (plug (node c' l' y .nil) s) z r) q m) :
      Rep t (node c' l' y .nil) (s ++ ⟨.left, c, z, r⟩ :: q) m := by
    rw [rep_plug, rep_fill]
    exact hz
  have hderefPred (t : Rbtree K V) (z : Entry K V)
      (hz : Rep t (node c (plug (node c' l' y .nil) s) z r) q m) :=
    deref_branch t _ m .left c' y l' .nil (hpred t z hz)
  obtain ⟨t1, ht1, h1⟩ := assign_focus t q m c _ x { x with key := y.key } r
    (fun x => { x with key := y.key }) h rfl rfl
  obtain ⟨t2, ht2, h2⟩ := assign_focus t1 q m c _ { x with key := y.key } ⟨x.addr, y.key, y.value⟩ r
    (fun x => { x with value := y.value }) h1 rfl rfl
  have hmax : t.maximumNode fuel
      (link .left c x (ptr (plug (node c' l' y .nil) s)) (ptr r) (up q)).left =
      .ok (some y.addr) := by
    rw [Rbtree.maximumNode, assert, link, if_pos hpl, ok_bind, hloop]
  refine ⟨c', l', y, s, t2, rfl, hafter, ?_, hpred t2 _ h2⟩
  calc
    t.deleteNode fuel (some x.addr) = (do
        let t ← t.assign (some x.addr) (fun x => { x with key := y.key })
        let z ← t.deref (some y.addr)
        let t ← t.assign (some x.addr) (fun x => { x with value := z.value })
        t.unlink fuel (some y.addr)) := by
      rw [Rbtree.deleteNode, hderef, ok_bind, if_pos ⟨hpl, hpr⟩, hmax, ok_bind, hderefPred t x h,
        ok_bind]
      rfl
    _ = (do
        let t ← t1.assign (some x.addr) (fun x => { x with value := y.value })
        t.unlink fuel (some y.addr)) := by
      rw [ht1, ok_bind, hderefPred t1 _ h1, ok_bind]
      rfl
    _ = t2.unlink fuel (some y.addr) := by
      rw [ht2, ok_bind]

theorem deleteNode_two (h : Rep t (node c l x r) q m) (hl : l ≠ .nil) (hr : r ≠ .nil)
    (hb : Balanced (plug (node c l x r) q) .black k)
    (hfuel : (plug (node c l x r) q).toList.length < fuel) :
    Gives (t.deleteNode fuel (some x.addr)) (Erased ((before q).map pair ++ contents l)
      (contents r ++ (after q).map pair) m False) := by
  have hlen : (plug (node c l x r) q).toList.length =
      (before q).length+(l.toList.length+(r.toList.length+1)+(after q).length) := by
    simp only [toList_plug, toList, List.length_append, List.length_cons]
  obtain ⟨c', l', y, s, t2, rfl, hafter, hrun, hpred⟩ :=
    deleteNode_copies t m fuel c l x r q h hl hr (by omega)
  rw [hrun]
  -- the colours are as they were, so the path of the predecessor still fits it
  obtain ⟨c₁, i, hnode, hfits⟩ := fits_of_plug _ q k hb
  obtain ⟨j, hb'⟩ := hfits.plug _ q c₁ i (hnode.relabel _ _ _ _ ⟨x.addr, y.key, y.value⟩ _ _)
  have hplug : plug (node c' l' y .nil) (s ++ ⟨.left, c, ⟨x.addr, y.key, y.value⟩, r⟩ :: q) =
      plug (node c (plug (node c' l' y .nil) s) ⟨x.addr, y.key, y.value⟩ r) q := by
    rw [plug_append]
    rfl
  rw [← hplug] at hb'
  obtain ⟨c₂, i', hpredBal, hpredFits⟩ := fits_of_plug _ _ j hb'
  have hfuel' : (s ++ ⟨.left, c, ⟨x.addr, y.key, y.value⟩, r⟩ :: q).length < fuel := by
    have hs := length_le s
    have hq := length_le q
    have hl' : (plug (node c' l' y .nil) s).toList.length =
        (before s).length+(l'.toList.length+1+(after s).length) := by
      simp only [toList_plug, toList, List.length_append, List.length_cons, List.length_nil]
    simp only [List.length_append, List.length_cons]
    omega
  apply (unlink_spec t2 l' .left c' y _ m fuel c₂ i' hpred hpredBal hpredFits hfuel').mono
  rintro t' ⟨q', cs, h', horder, hS, -, hq'⟩
  obtain ⟨j', hfinal⟩ := (hq' (by simp)).plug l' q' cs 0 hS
  refine ⟨plug l' q', .black, j', ?_, hfinal, ?_, by simp⟩
  · rw [← rep_plug, List.append_nil]
    exact h'
  · calc
      contents (plug l' q') = (before (s ++ ⟨.left, c, ⟨x.addr, y.key, y.value⟩, r⟩ :: q)).map pair ++
          (contents l' ++ (after (s ++ ⟨.left, c, ⟨x.addr, y.key, y.value⟩, r⟩ :: q)).map pair) := by
        rw [contents_plug, horder.before, horder.after]
      _ = (before q ++ before s).map pair ++ (contents l' ++
          (after (⟨.left, c, ⟨x.addr, y.key, y.value⟩, r⟩ :: q)).map pair) := by
        rw [before_append, after_append, hafter]
        simp [before]
      _ = _ := by
        rw [contents_plug, hafter]
        simp [after, contents, toList, pair]

-- A node with at most one child goes itself.
theorem deleteNode_one (d : Dir) (S : ColorTree (Entry K V)) (h : Rep t (branch d c x S .nil) q m)
    (hb : Balanced (plug (branch d c x S .nil) q) .black k)
    (hfuel : (plug (branch d c x S .nil) q).toList.length < fuel) :
    Gives (t.deleteNode fuel (some x.addr)) (Erased ((before q).map pair)
      (contents S ++ (after q).map pair) m (q = [] ∧ S ≠ .nil)) := by
  have hderef : t.deref (some x.addr) = .ok (link d c x (ptr S) none (up q)) :=
    deref_branch t q m d c x S .nil h
  have hone : ¬((link d c x (ptr S) none (up q)).left ≠ none ∧
      (link d c x (ptr S) none (up q)).right ≠ none) := by
    cases d with
    | left => exact fun hboth => hboth.2 rfl
    | right => exact fun hboth => hboth.1 rfl
  have hlen : q.length < fuel := by
    have hq := length_le q
    rw [toList_plug] at hfuel
    simp only [List.length_append] at hfuel
    omega
  obtain ⟨c', i, hnode, hfits⟩ := fits_of_plug _ q k hb
  rw [Rbtree.deleteNode, hderef, ok_bind, if_neg hone]
  apply (unlink_spec t S d c x q m fuel c' i h hnode hfits hlen).mono
  rintro t' ⟨q', cs, h', horder, hS, hroot, hq'⟩
  have hcontents : contents (plug S q') =
      (before q).map pair ++ (contents S ++ (after q).map pair) := by
    rw [contents_plug, horder.before, horder.after]
  have hrep : Rep t' (plug S q') [] m := by
    rw [← rep_plug, List.append_nil]
    exact h'
  by_cases hq : q = []
  · rw [hroot hq] at hrep hcontents
    refine ⟨S, cs, 0, hrep, hS, hcontents, ?_⟩
    cases hS <;> simp [hq]
  · obtain ⟨j, hbal⟩ := (hq' hq).plug S q' cs 0 hS
    exact ⟨plug S q', .black, j, hrep, hbal, hcontents, by simp [hq]⟩

end Delete

/-- The root has the key, and it has exactly one child. -/
def RootWithOneChild (key : K) : ColorTree (Entry K V) → Prop
  | .node _ .nil x (.node _ _ _ _) => x.key = key
  | .node _ (.node _ _ _ _) x .nil => x.key = key
  | _ => False

theorem rootWithOneChild_iff (key : K) (c : Color) (l : ColorTree (Entry K V)) (x : Entry K V)
    (r : ColorTree (Entry K V)) : RootWithOneChild key (node c l x r) ↔
      x.key = key ∧ ((l = .nil ∧ r ≠ .nil) ∨ (l ≠ .nil ∧ r = .nil)) := by
  cases l <;> cases r <;> simp [RootWithOneChild]

theorem RootWithOneChild.mem (key : K) (T : ColorTree (Entry K V)) (h : RootWithOneChild key T) :
    ∃ x ∈ T.toList, x.key = key := by
  cases T with
  | nil => cases h
  | node c l x r =>
    refine ⟨x, ?_, ((rootWithOneChild_iff key c l x r).mp h).1⟩
    simp [toList]

variable [LinearOrder K]

-- Only one node has the key.
theorem not_root_of_path (key : K) (c : Color) (l : ColorTree (Entry K V)) (x : Entry K V)
    (r : ColorTree (Entry K V)) (q : List (Frame (Entry K V))) (hq : q ≠ []) (hkey : x.key = key)
    (hs : SortedBy Entry.key (plug (node c l x r) q).toList) :
    ¬RootWithOneChild key (plug (node c l x r) q) := by
  obtain ⟨q', f, rfl⟩ := (List.eq_nil_or_concat' q).resolve_left hq
  have hlist : (plug (node c l x r) (q' ++ [f])).toList =
      (before [f] ++ (before q' ++ l.toList)) ++ x :: (r.toList ++ (after q' ++ after [f])) := by
    rw [toList_plug, before_append, after_append]
    simp [toList]
  rw [hlist] at hs
  have haround := hs.around _ _ _ x
  have hplug : plug (node c l x r) (q' ++ [f]) = f.fill (plug (node c l x r) q') := plug_append _ q' [f]
  intro hroot
  rw [hplug] at hroot
  obtain ⟨d, c', y, U⟩ := f
  cases d with
  | left =>
    have hy := ((rootWithOneChild_iff key c' _ y U).mp hroot).1
    have hlt := haround.gt y (by simp [after])
    rw [hy, hkey] at hlt
    exact lt_irrefl _ hlt
  | right =>
    have hy := ((rootWithOneChild_iff key c' U y _).mp hroot).1
    have hlt := haround.lt y (by simp [before])
    rw [hy, hkey] at hlt
    exact lt_irrefl _ hlt

theorem filter_absent (T : ColorTree (Entry K V)) (key : K) (h : ∀ e ∈ contents T, e.1 ≠ key) :
    (contents T).filter (fun e => e.1 ≠ key) = contents T :=
  List.filter_eq_self.mpr (by simpa using fun a b hab => h (a, b) hab)

theorem length_filtered (R T : ColorTree (Entry K V)) (key : K)
    (h : contents R = (contents T).filter (fun e => e.1 ≠ key)) :
    R.toList.length ≤ T.toList.length := by
  have hle := List.length_filter_le (fun e => e.1 ≠ key) (contents T)
  rwa [← h, contents, contents, List.length_map, List.length_map] at hle

section Key

variable (t : Rbtree K V) (T : ColorTree (Entry K V)) (m : Multiset (ℕ × RbtreeNode K V))
  (compare : K → K → ℤ) (hc : Compares compare) (fuel : ℕ) (key : K)

/-- The node with the key, wherever it is in the tree. -/
theorem deleteNode_spec (c : Color) (l : ColorTree (Entry K V)) (x : Entry K V)
    (r : ColorTree (Entry K V)) (q : List (Frame (Entry K V))) (h : Valid t (plug (node c l x r) q) m)
    (hfuel : (plug (node c l x r) q).toList.length < fuel) :
    Gives (t.deleteNode fuel (some x.addr)) (Erased ((before q).map pair ++ contents l)
      (contents r ++ (after q).map pair) m (RootWithOneChild x.key (plug (node c l x r) q))) := by
  obtain ⟨k, hb⟩ := h.balanced
  have hrep := h.rep
  rw [← rep_plug, List.append_nil] at hrep
  have hs := (sortedBy_pair _).mp h.sorted
  have hroot : RootWithOneChild x.key (plug (node c l x r) q) ↔
      q = [] ∧ ((l = .nil ∧ r ≠ .nil) ∨ (l ≠ .nil ∧ r = .nil)) := by
    by_cases hq : q = []
    · subst hq
      simp [plug, rootWithOneChild_iff]
    · simp [hq, not_root_of_path x.key c l x r q hq rfl hs]
  by_cases hr : r = .nil
  · subst hr
    apply (deleteNode_one t m fuel c x q k .left l hrep hb hfuel).mono
    rintro t' ⟨R, c', j, hR, hbal, hcontents, hred⟩
    refine ⟨R, c', j, hR, hbal, ?_, ?_⟩
    · rw [hcontents]
      simp [contents, toList]
    · rw [hred, hroot]
      simp
  · by_cases hl : l = .nil
    · subst hl
      apply (deleteNode_one t m fuel c x q k .right r hrep hb hfuel).mono
      rintro t' ⟨R, c', j, hR, hbal, hcontents, hred⟩
      refine ⟨R, c', j, hR, hbal, ?_, ?_⟩
      · rw [hcontents]
        simp [contents, toList]
      · rw [hred, hroot]
        simp
    · apply (deleteNode_two t m fuel c l x r q k hrep hl hr hb hfuel).mono
      rintro t' ⟨R, c', j, hR, hbal, hcontents, hred⟩
      refine ⟨R, c', j, hR, hbal, hcontents, ?_⟩
      rw [hred, hroot]
      simp [hl, hr]

include hc

/-- The deletion as far as the final verification. -/
theorem deleteKey_spec (h : Valid t T m) (hfuel : T.toList.length < fuel) :
    (t.lookupNode compare fuel key = .ok none ∧ (∀ e ∈ contents T, e.1 ≠ key)) ∨
    ∃ n, t.lookupNode compare fuel key = .ok (some n) ∧ Gives (t.deleteNode fuel (some n)) (fun t' =>
      ∃ R c k, Rep t' R [] m ∧ Balanced R c k ∧ contents R = (contents T).filter (fun e => e.1 ≠ key) ∧
        (c = .red ↔ RootWithOneChild key T)) := by
  have hsorted := (sortedBy_pair T.toList).mp h.sorted
  obtain ⟨hroot, -⟩ := (rep_nil t T m).mp h.rep
  rw [Rbtree.lookupNode, hroot]
  rcases lookupLoop_spec t m compare hc key T [] h.rep hsorted fuel hfuel with
    ⟨c, l, x, r, q, rfl, hkey, hloop⟩ | ⟨hnone, hloop⟩
  · refine Or.inr ⟨x.addr, hloop, ?_⟩
    apply (deleteNode_spec t m fuel c l x r q h hfuel).mono
    rintro t' ⟨R, c', j, hR, hbal, hcontents, hred⟩
    rw [hkey] at hred
    refine ⟨R, c', j, hR, hbal, ?_, hred⟩
    have hsplit : contents (plug (node c l x r) q) =
        ((before q).map pair ++ contents l) ++ ([pair x] ++ (contents r ++ (after q).map pair)) := by
      rw [contents_plug, contents_node]
      simp
    have hs := h.sorted
    rw [hsplit] at hs
    have haround := hs.around _ _ (contents r ++ (after q).map pair) (pair x)
    have hx : (pair x).1 = key := hkey
    rw [hx] at haround
    rw [hcontents, hsplit, haround.filter_ne _ _ _ _ [pair x] (by simpa using hx)]
  · refine Or.inl ⟨hloop, ?_⟩
    intro e he
    obtain ⟨x, hx, rfl⟩ := List.mem_map.mp he
    exact hnone x hx

/-- A deletion takes away the key, and nothing else, and keeps the order and the balance. -/
theorem deleteKey_removes (h : Valid t T m) (hfuel : T.toList.length < fuel) :
    ∃ t' T', t.deleteKey compare fuel key = .ok t' ∧ Rep t' T' [] m ∧
      contents T' = (contents T).filter (fun e => e.1 ≠ key) ∧ SortedBy Prod.fst (contents T') ∧
      ∃ c k, Balanced T' c k := by
  rcases deleteKey_spec t T m compare hc fuel key h hfuel with
    ⟨hlookup, hnone⟩ | ⟨n, hlookup, t', hdelete, R, c, k, hR, hbal, hcontents, -⟩
  · obtain ⟨k, hbal⟩ := h.balanced
    refine ⟨t, T, ?_, h.rep, (filter_absent T key hnone).symm, h.sorted, .black, k, hbal⟩
    rw [Rbtree.deleteKey, hlookup]
    rfl
  · refine ⟨t', R, ?_, hR, hcontents, ?_, c, k, hbal⟩
    · rw [Rbtree.deleteKey, hlookup, ok_bind, if_neg (by simp), hdelete]
    · rw [hcontents]
      exact h.sorted.sublist _ _ _ (List.filter_sublist)

/-- The deletion passes its verification. -/
theorem rbtreeDelete_spec (h : Valid t T m) (hfuel : T.toList.length < fuel)
    (hnot : ¬RootWithOneChild key T) : Gives (t.rbtreeDelete compare fuel key) (fun t' => ∃ T',
      Valid t' T' m ∧ contents T' = (contents T).filter (fun e => e.1 ≠ key) ∧
      t'.verifyProperties fuel = .ok ()) := by
  rcases deleteKey_spec t T m compare hc fuel key h hfuel with
    ⟨hlookup, hnone⟩ | ⟨n, hlookup, t', hdelete, R, c, k, hR, hbal, hcontents, hred⟩
  · obtain ⟨k, hbal⟩ := h.balanced
    rw [Rbtree.rbtreeDelete, hlookup]
    exact gives_ok t _ ⟨T, h, (filter_absent T key hnone).symm,
      verifyProperties_ok t T m fuel k h.rep hfuel hbal⟩
  · have hc : c = .black := by
      cases c with
      | red => exact absurd (hred.mp rfl) hnot
      | black => rfl
    subst hc
    have hlen := length_filtered R T key hcontents
    have hverify := verifyProperties_ok t' R m fuel k hR (by omega) hbal
    have hs : SortedBy Prod.fst (contents R) := by
      rw [hcontents]
      exact h.sorted.sublist _ _ _ (List.filter_sublist)
    rw [Rbtree.rbtreeDelete, hlookup, ok_bind, if_neg (by simp), hdelete, ok_bind, hverify, ok_bind]
    exact gives_ok t' _ ⟨R, ⟨hR, hs, k, hbal⟩, hcontents, hverify⟩

-- The red child of the root becomes the root and stays red.
theorem rbtreeDelete_red (h : Valid t T m) (hfuel : T.toList.length < fuel)
    (hroot : RootWithOneChild key T) : t.rbtreeDelete compare fuel key = .error .assertFailed := by
  rcases deleteKey_spec t T m compare hc fuel key h hfuel with
    ⟨hlookup, hnone⟩ | ⟨n, hlookup, t', hdelete, R, c, k, hR, hbal, hcontents, hred⟩
  · obtain ⟨x, hx, hkey⟩ := hroot.mem key T
    exact absurd hkey (hnone (pair x) (List.mem_map_of_mem hx))
  · have hlen := length_filtered R T key hcontents
    rw [hred.mpr hroot] at hbal
    have hverify := verifyProperties_red t' R m fuel hR (by omega) hbal.color_eq
    rw [Rbtree.rbtreeDelete, hlookup, ok_bind, if_neg (by simp), hdelete, ok_bind, hverify]
    rfl

/-- A deletion keeps the tree red-black, except when it takes the key of a root with one child. -/
theorem rbtreeDelete_valid_iff (h : Valid t T m) (hfuel : T.toList.length < fuel) :
    (∃ t' T', t.rbtreeDelete compare fuel key = .ok t' ∧ Valid t' T' m ∧
      t'.verifyProperties fuel = .ok ()) ↔ ¬RootWithOneChild key T := by
  constructor
  · rintro ⟨t', T', hrun, -⟩ hroot
    rw [rbtreeDelete_red t T m compare hc fuel key h hfuel hroot] at hrun
    cases hrun
  · intro hnot
    obtain ⟨t', hrun, T', hvalid, -, hverify⟩ :=
      rbtreeDelete_spec t T m compare hc fuel key h hfuel hnot
    exact ⟨t', T', hrun, hvalid, hverify⟩

end Key

section Example

theorem deleteKey_removes_root : ∃ t' T' m, twoNodes.deleteKey compareInt 3 1 = .ok t' ∧
    Rep t' T' [] m ∧ contents T' = [(2, some 20)] := by
  obtain ⟨t', T', hrun, hrep, hcontents, -⟩ := deleteKey_removes twoNodes twoNodesTree _ compareInt
    compareInt_compares 3 1 twoNodes_valid (by decide)
  exact ⟨t', T', _, hrun, hrep, hcontents⟩

theorem rbtreeDelete_valid_leaf : ∃ t' T' m, twoNodes.rbtreeDelete compareInt 3 2 = .ok t' ∧
    Valid t' T' m ∧ t'.verifyProperties 3 = .ok () := by
  have hnot : ¬RootWithOneChild 2 twoNodesTree := by
    intro hroot
    cases hroot
  obtain ⟨t', T', hrun, hvalid⟩ := (rbtreeDelete_valid_iff twoNodes twoNodesTree _ compareInt
    compareInt_compares 3 2 twoNodes_valid (by decide)).mpr hnot
  exact ⟨t', T', _, hrun, hvalid⟩

theorem not_rbtreeDelete_valid : ¬∀ (t : Rbtree ℤ ℕ) (T : ColorTree (Entry ℤ ℕ))
    (m : Multiset (ℕ × RbtreeNode ℤ ℕ)) (fuel : ℕ) (key : ℤ), Valid t T m → T.toList.length < fuel →
      ∃ t' T' m', t.rbtreeDelete compareInt fuel key = .ok t' ∧ Valid t' T' m' := by
  intro hall
  obtain ⟨t', T', m', hrun, -⟩ := hall twoNodes twoNodesTree _ 3 1 twoNodes_valid (by decide)
  have herror : twoNodes.rbtreeDelete compareInt 3 1 = .error .assertFailed := rfl
  rw [herror] at hrun
  cases hrun

end Example

end Leviathan.RBTree
