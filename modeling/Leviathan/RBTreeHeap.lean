import Leviathan.Cells
import Leviathan.RBTree

/-! The memory of a tree: which cells the nodes of a labelled tree and of a path take up, and what the
functions that follow and change a few pointers do to them. -/
namespace Leviathan.RBTree
open RedBlack ColorTree Cells

variable {K V : Type}

structure Entry (K V : Type) where
  addr : ℕ
  key : K
  value : Option V

def ptr : ColorTree (Entry K V) → Ptr
  | .nil => none
  | .node _ _ x _ => some x.addr

/-- The node in memory, seen from side `d`. -/
def link (d : Dir) (c : Color) (x : Entry K V) (near far parent : Ptr) : RbtreeNode K V :=
  match d with
  | .left => ⟨c, x.key, x.value, near, far, parent⟩
  | .right => ⟨c, x.key, x.value, far, near, parent⟩

def cells : Ptr → ColorTree (Entry K V) → Multiset (ℕ × RbtreeNode K V)
  | _, .nil => 0
  | q, .node c l x r =>
    {(x.addr, link .left c x (ptr l) (ptr r) q)}+(cells (some x.addr) l+cells (some x.addr) r)

-- the parent of what stands at the end of the path
def up : List (Frame (Entry K V)) → Ptr
  | [] => none
  | f :: _ => some f.val.addr

/-- The cells of a path whose end points to `q`. -/
def pathCells : Ptr → List (Frame (Entry K V)) → Multiset (ℕ × RbtreeNode K V)
  | _, [] => 0
  | q, f :: p =>
    {(f.val.addr, link f.dir f.color f.val q (ptr f.sib) (up p))}+
      (cells (some f.val.addr) f.sib+pathCells (some f.val.addr) p)

def top : Ptr → List (Frame (Entry K V)) → Ptr
  | q, [] => q
  | _, f :: p => top (some f.val.addr) p

/-- The memory holds the tree `T` at the end of the path `p`, and the further cells `m`. -/
structure Rep (t : Rbtree K V) (T : ColorTree (Entry K V)) (p : List (Frame (Entry K V)))
    (m : Multiset (ℕ × RbtreeNode K V)) : Prop where
  root : t.root = top (ptr T) p
  owns : Owns t.mem (cells (up p) T+pathCells (ptr T) p+m)

theorem ptr_node (c : Color) (l : ColorTree (Entry K V)) (x : Entry K V) (r : ColorTree (Entry K V)) :
    ptr (.node c l x r) = some x.addr := rfl

@[simp] theorem ptr_branch (d : Dir) (c : Color) (x : Entry K V) (a b : ColorTree (Entry K V)) :
    ptr (branch d c x a b) = some x.addr := by
  cases d <;> rfl

theorem ptr_eq_none (T : ColorTree (Entry K V)) (h : ptr T = none) : T = .nil := by
  cases T with
  | nil => rfl
  | node => cases h

theorem cells_branch (q : Ptr) (d : Dir) (c : Color) (x : Entry K V) (a b : ColorTree (Entry K V)) :
    cells q (branch d c x a b) =
      {(x.addr, link d c x (ptr a) (ptr b) q)}+(cells (some x.addr) a+cells (some x.addr) b) := by
  cases d with
  | left => rfl
  | right =>
    rw [add_comm (cells _ a)]
    rfl

theorem rep_fill (t : Rbtree K V) (T : ColorTree (Entry K V)) (f : Frame (Entry K V))
    (p : List (Frame (Entry K V))) (m : Multiset (ℕ × RbtreeNode K V)) :
    Rep t T (f :: p) m ↔ Rep t (f.fill T) p m := by
  have hcells : cells (up (f :: p)) T+pathCells (ptr T) (f :: p) =
      cells (up p) (f.fill T)+pathCells (ptr (f.fill T)) p := by
    rw [Frame.fill, cells_branch, ptr_branch, up, pathCells]
    abel
  constructor
  · intro h
    refine ⟨?_, hcells ▸ h.owns⟩
    rw [Frame.fill, ptr_branch]
    exact h.root
  · intro h
    refine ⟨?_, hcells ▸ h.owns⟩
    have hroot := h.root
    rw [Frame.fill, ptr_branch] at hroot
    exact hroot

-- The whole tree.
theorem rep_nil (t : Rbtree K V) (T : ColorTree (Entry K V)) (m : Multiset (ℕ × RbtreeNode K V)) :
    Rep t T [] m ↔ t.root = ptr T ∧ Owns t.mem (cells none T+m) := by
  constructor
  · intro h
    refine ⟨h.root, ?_⟩
    have howns := h.owns
    rwa [up, pathCells, add_zero] at howns
  · rintro ⟨hroot, h⟩
    refine ⟨hroot, ?_⟩
    rwa [up, pathCells, add_zero]

-- The focus moves to the other child.
theorem rep_swap (t : Rbtree K V) (T S : ColorTree (Entry K V)) (d : Dir) (c : Color) (x : Entry K V)
    (p : List (Frame (Entry K V))) (m : Multiset (ℕ × RbtreeNode K V)) :
    Rep t T (⟨d, c, x, S⟩ :: p) m ↔ Rep t S (⟨d.flip, c, x, T⟩ :: p) m := by
  rw [rep_fill, rep_fill, Frame.fill, Frame.fill, branch_flip]

theorem rep_plug (t : Rbtree K V) (T : ColorTree (Entry K V)) (q p : List (Frame (Entry K V)))
    (m : Multiset (ℕ × RbtreeNode K V)) : Rep t T (q ++ p) m ↔ Rep t (plug T q) p m := by
  induction q generalizing T with
  | nil => rfl
  | cons f q ih => rw [List.cons_append, rep_fill, ih, plug]

/-- The program comes to a state with this property. -/
def Gives (r : Except RBFault (Rbtree K V)) (P : Rbtree K V → Prop) : Prop := ∃ t, r = .ok t ∧ P t

theorem Gives.bind {r : Except RBFault (Rbtree K V)} {P Q : Rbtree K V → Prop}
    {f : Rbtree K V → Except RBFault (Rbtree K V)} (h : Gives r P) (hf : ∀ t, P t → Gives (f t) Q) :
    Gives (r >>= f) Q := by
  obtain ⟨t, rfl, ht⟩ := h
  exact hf t ht

theorem Gives.mono {r : Except RBFault (Rbtree K V)} {P Q : Rbtree K V → Prop} (h : Gives r P)
    (hPQ : ∀ t, P t → Q t) : Gives r Q := by
  obtain ⟨t, hr, ht⟩ := h
  exact ⟨t, hr, hPQ t ht⟩

theorem gives_ok (t : Rbtree K V) (P : Rbtree K V → Prop) (h : P t) : Gives (.ok t) P := ⟨t, rfl, h⟩

namespace Rbtree

theorem deref_owned (t : Rbtree K V) (m : Multiset (ℕ × RbtreeNode K V)) (h : Owns t.mem m) (a : ℕ)
    (x : RbtreeNode K V) (hx : (a, x) ∈ m) : t.deref (some a) = .ok x := by
  have hmem := h.read a x hx
  simp only [deref, hmem]

theorem assign_owned (t : Rbtree K V) (m k : Multiset (ℕ × RbtreeNode K V)) (h : Owns t.mem m) (a : ℕ)
    (x : RbtreeNode K V) (f : RbtreeNode K V → RbtreeNode K V) (hx : (a, x) ∈ m)
    (hk : k+{(a, x)} = m+{(a, f x)}) :
    Gives (t.assign (some a) f) (fun t' => t'.root = t.root ∧ Owns t'.mem k) := by
  have hmem := h.read a x hx
  simp only [assign, hmem]
  apply gives_ok
  exact ⟨rfl, h.write a x (f x) k hx hk⟩

theorem adopt_owned (t : Rbtree K V) (T : ColorTree (Entry K V)) (q q' : Ptr)
    (m : Multiset (ℕ × RbtreeNode K V)) (h : Owns t.mem (cells q T+m)) :
    Gives (t.adopt (ptr T) q')
      (fun t' => t'.root = t.root ∧ Owns t'.mem (cells q' T+m)) := by
  cases T with
  | nil => exact ⟨t, rfl, rfl, h⟩
  | node c l x r =>
    rw [adopt, if_pos (by simp [ptr])]
    apply assign_owned t _ _ h x.addr (link .left c x (ptr l) (ptr r) q)
    · simp [cells]
    · simp only [cells, link]
      abel

theorem nodeColor_owned (t : Rbtree K V) (T : ColorTree (Entry K V)) (q : Ptr)
    (m : Multiset (ℕ × RbtreeNode K V)) (h : Owns t.mem m) (hT : cells q T ≤ m) :
    t.nodeColor (ptr T) = .ok T.color := by
  cases T with
  | nil => rfl
  | node c l x r =>
    have hderef := t.deref_owned m h x.addr (link .left c x (ptr l) (ptr r) q) (by
      apply Multiset.mem_of_le hT
      simp [cells])
    simp only [ptr, nodeColor, hderef, ok_bind]
    rfl

end Rbtree

section Focus

variable (t : Rbtree K V) (T : ColorTree (Entry K V)) (n : ℕ) (f g : Frame (Entry K V))
  (p : List (Frame (Entry K V))) (m : Multiset (ℕ × RbtreeNode K V))

theorem deref_branch (d : Dir) (c : Color) (x : Entry K V) (a b : ColorTree (Entry K V))
    (h : Rep t (branch d c x a b) p m) :
    t.deref (some x.addr) = .ok (link d c x (ptr a) (ptr b) (up p)) := by
  apply t.deref_owned _ h.owns
  rw [cells_branch]
  simp

theorem deref_focus (h : Rep t T p m) (hn : ptr T = some n) :
    ∃ x, t.deref (some n) = .ok x ∧ x.parent = up p := by
  cases T with
  | nil => cases hn
  | node c l x r =>
    cases hn
    exact ⟨_, deref_branch t p m .left c x l r h, rfl⟩

theorem deref_parent (h : Rep t T (f :: p) m) :
    t.deref (some f.val.addr) = .ok (link f.dir f.color f.val (ptr T) (ptr f.sib) (up p)) := by
  exact deref_branch t p m f.dir f.color f.val T f.sib ((rep_fill _ _ _ _ _).mp h)

theorem nodeColor_focus (h : Rep t T p m) : t.nodeColor (ptr T) = .ok T.color := by
  apply t.nodeColor_owned T (up p) _ h.owns
  rw [add_assoc]
  exact Multiset.le_add_right _ _

theorem nodeColor_parent (h : Rep t T (f :: p) m) : t.nodeColor (some f.val.addr) = .ok f.color := by
  have hfill := nodeColor_focus t _ p m ((rep_fill _ _ _ _ _).mp h)
  rwa [Frame.fill, ptr_branch, color_branch] at hfill

theorem nodeColor_sib (h : Rep t T (f :: p) m) : t.nodeColor (ptr f.sib) = .ok f.sib.color := by
  exact nodeColor_focus t f.sib _ m ((rep_swap _ _ _ _ _ _ _ _).mp h)

-- The two children of a node are different.
theorem ptr_sib_ne (h : Rep t T (f :: p) m) (hn : ptr T = some n) : ptr f.sib ≠ some n := by
  intro hs
  obtain ⟨d, c, x, S⟩ := f
  cases T with
  | nil => cases hn
  | node c l y r =>
    cases S with
    | nil => cases hs
    | node c' l' z r' =>
      cases hn
      have hz : z.addr = y.addr := Option.some.inj hs
      apply h.owns.disjoint (cells (some x.addr) (.node c l y r))
        (cells (some x.addr) (.node c' l' z r')) _ y.addr (link .left c y (ptr l) (ptr r) (some x.addr))
        (link .left c' z (ptr l') (ptr r') (some x.addr))
      · simp [cells]
      · rw [← hz]
        simp [cells]
      · rw [up, pathCells, add_assoc]
        apply add_le_add_right
        rw [add_assoc, add_left_comm, add_assoc]
        exact Multiset.le_add_right _ _

theorem link_child (d : Dir) (c : Color) (x : Entry K V) (a b q : Ptr) :
    (link d c x a b q).child d = a ∧ (link d c x a b q).child d.flip = b := by
  cases d <;> exact ⟨rfl, rfl⟩

theorem link_parent (d : Dir) (c : Color) (x : Entry K V) (a b q : Ptr) :
    (link d c x a b q).parent = q := by
  cases d <;> rfl

theorem sibling_eq (h : Rep t T (f :: p) m) (hn : ptr T = some n) :
    t.sibling (some n) = .ok (ptr f.sib) := by
  obtain ⟨x, hx, hparent⟩ := deref_focus t T n (f :: p) m h hn
  have hy := deref_parent t T f p m h
  have hne := ptr_sib_ne t T n f p m h hn
  rw [up] at hparent
  rw [hn] at hy
  obtain ⟨d, c, e, S⟩ := f
  cases d with
  | left => simp [Rbtree.sibling, assert, ok_bind, hx, hparent, hy, link]
  | right => simp [Rbtree.sibling, assert, ok_bind, hx, hparent, hy, link, hne.symm]

theorem isChild_eq (d : Dir) (h : Rep t T (f :: p) m) (hn : ptr T = some n) :
    t.isChild d (some n) = .ok (decide (d = f.dir)) := by
  obtain ⟨x, hx, hparent⟩ := deref_focus t T n (f :: p) m h hn
  have hy := deref_parent t T f p m h
  have hne := ptr_sib_ne t T n f p m h hn
  have hlink := link_child f.dir f.color f.val (ptr T) (ptr f.sib) (up p)
  rw [up] at hparent
  simp only [Rbtree.isChild, hx, hparent, hy, ok_bind]
  by_cases hd : d = f.dir
  · rw [hd, hlink.1, hn]
    simp [pure, Except.pure]
  · rw [Dir.eq_flip_of_ne d f.dir hd, hlink.2]
    have hdir : ¬f.dir.flip = f.dir := by
      rw [← Dir.eq_flip_of_ne d f.dir hd]
      exact hd
    simp [pure, Except.pure, hne.symm, hdir]

theorem grandparent_eq (h : Rep t T (f :: g :: p) m) (hn : ptr T = some n) :
    t.grandparent (some n) = .ok (some g.val.addr) := by
  obtain ⟨x, hx, hparent⟩ := deref_focus t T n (f :: g :: p) m h hn
  have hy := deref_parent t T f (g :: p) m h
  rw [up] at hparent
  simp [Rbtree.grandparent, assert, ok_bind, hx, hparent, hy, link_parent, up, pure, Except.pure]

theorem uncle_eq (h : Rep t T (f :: g :: p) m) (hn : ptr T = some n) :
    t.uncle (some n) = .ok (ptr g.sib) := by
  obtain ⟨x, hx, hparent⟩ := deref_focus t T n (f :: g :: p) m h hn
  have hy := deref_parent t T f (g :: p) m h
  have hs := sibling_eq t (f.fill T) f.val.addr g p m ((rep_fill _ _ _ _ _).mp h) (ptr_branch _ _ _ _ _)
  rw [up] at hparent
  simp [Rbtree.uncle, assert, ok_bind, hx, hparent, hy, link_parent, up, hs]

theorem parentIsChild_eq (d : Dir) (h : Rep t T (f :: g :: p) m) (hn : ptr T = some n) :
    t.parentIsChild d (some n) = .ok (decide (d = g.dir)) := by
  obtain ⟨x, hx, hparent⟩ := deref_focus t T n (f :: g :: p) m h hn
  have hfill := (rep_fill _ _ _ _ _).mp h
  have hg := grandparent_eq t T n f g p m h hn
  have hy := deref_parent t T f (g :: p) m h
  have hz := deref_parent t _ g p m hfill
  have hchild := isChild_eq t (f.fill T) f.val.addr g p m d hfill (ptr_branch _ _ _ _ _)
  rw [up] at hparent
  simp only [Rbtree.isChild, hy, link_parent, up, hz, ok_bind] at hchild
  simp only [Rbtree.parentIsChild, hx, hg, hz, hparent, ok_bind]
  exact hchild

theorem setColor_focus (c : Color) (h : Rep t T p m) (hT : T ≠ .nil) :
    Gives (t.setColor (ptr T) c) (fun t' => Rep t' (T.paint c) p m) := by
  cases T with
  | nil => exact absurd rfl hT
  | node c' l x r =>
    have hassign := t.assign_owned _ (cells (up p) (.node c l x r)+pathCells (some x.addr) p+m) h.owns
      x.addr (link .left c' x (ptr l) (ptr r) (up p)) (fun x => { x with color := c })
      (by simp [cells]) (by
        simp only [cells, link, ptr]
        abel)
    apply hassign.mono
    intro t' ht'
    exact ⟨ht'.1.trans h.root, ht'.2⟩

-- An assignment to key and value.
theorem assign_focus (c : Color) (l : ColorTree (Entry K V)) (x y : Entry K V)
    (r : ColorTree (Entry K V)) (f : RbtreeNode K V → RbtreeNode K V) (h : Rep t (.node c l x r) p m)
    (haddr : y.addr = x.addr)
    (hf : f (link .left c x (ptr l) (ptr r) (up p)) = link .left c y (ptr l) (ptr r) (up p)) :
    Gives (t.assign (some x.addr) f) (fun t' => Rep t' (.node c l y r) p m) := by
  have hroot := h.root
  rw [ptr_node, ← haddr] at hroot
  have hassign := t.assign_owned _ (cells (up p) (.node c l y r)+pathCells (some x.addr) p+m) h.owns
    x.addr (link .left c x (ptr l) (ptr r) (up p)) f (by simp [cells]) (by
      rw [hf]
      simp only [cells, ptr_node, haddr]
      abel)
  apply hassign.mono
  intro t' ht'
  refine ⟨ht'.1.trans hroot, ?_⟩
  rw [ptr_node, haddr]
  exact ht'.2

theorem setColor_parent (d : Dir) (c c' : Color) (x : Entry K V) (S : ColorTree (Entry K V))
    (h : Rep t T (⟨d, c, x, S⟩ :: p) m) :
    Gives (t.setColor (some x.addr) c') (fun t' => Rep t' T (⟨d, c', x, S⟩ :: p) m) := by
  have hfill := (rep_fill _ _ _ _ _).mp h
  have hset := setColor_focus t _ p m c' hfill (by
    cases d <;> simp [Frame.fill, branch])
  rw [Frame.fill, ptr_branch, paint_branch] at hset
  apply hset.mono
  intro t' ht'
  rw [rep_fill]
  exact ht'

theorem setColor_sib (d : Dir) (c c' : Color) (x : Entry K V) (S : ColorTree (Entry K V))
    (h : Rep t T (⟨d, c, x, S⟩ :: p) m) (hS : S ≠ .nil) :
    Gives (t.setColor (ptr S) c') (fun t' => Rep t' T (⟨d, c, x, S.paint c'⟩ :: p) m) := by
  have hswap := (rep_swap _ _ _ _ _ _ _ _).mp h
  apply (setColor_focus t S _ m c' hswap hS).mono
  intro t' ht'
  rw [rep_swap]
  exact ht'

end Focus

section Links

variable (t : Rbtree K V) (p : List (Frame (Entry K V))) (m : Multiset (ℕ × RbtreeNode K V))

theorem setChild_link (d : Dir) (c : Color) (x : Entry K V) (a b q r : Ptr) :
    (link d c x a b q).setChild r d = link d c x r b q ∧
      (link d c x a b q).setChild r d.flip = link d c x a r q := by
  cases d <;> exact ⟨rfl, rfl⟩

theorem link_setParent (d : Dir) (c : Color) (x : Entry K V) (a b q r : Ptr) :
    { link d c x a b q with parent := r } = link d c x a b r := by
  cases d <;> rfl

-- The node above points to `q` instead of `a`.
theorem replaceBelow_owned (a : ℕ) (x : RbtreeNode K V) (q : Ptr) (hx : x.parent = up p)
    (hroot : t.root = top (some a) p) (h : Owns t.mem ({(a, x)}+pathCells (some a) p+m)) :
    Gives (t.replaceBelow (some a) q)
      (fun t' => t'.root = top q p ∧ Owns t'.mem ({(a, x)}+pathCells q p+m)) := by
  have hderef := t.deref_owned _ h a x (by simp)
  rw [Rbtree.replaceBelow, hderef, ok_bind]
  cases p with
  | nil =>
    rw [up] at hx
    rw [if_pos hx]
    exact gives_ok _ _ ⟨rfl, h⟩
  | cons f p =>
    obtain ⟨d, c, e, S⟩ := f
    rw [up] at hx
    have hmem : (e.addr, link d c e (some a) (ptr S) (up p)) ∈
        {(a, x)}+pathCells (some a) (⟨d, c, e, S⟩ :: p)+m := by
      simp [pathCells]
    have hy := t.deref_owned _ h e.addr _ hmem
    have hset := t.assign_owned _ ({(a, x)}+pathCells q (⟨d, c, e, S⟩ :: p)+m) h e.addr _
      (fun y => y.setChild q d) hmem (by
        simp only [pathCells, (setChild_link d c e _ _ _ q).1]
        abel)
    have hne : ptr S ≠ some a := by
      intro hs
      cases S with
      | nil => cases hs
      | node c' l z r =>
        cases hs
        apply h.disjoint {(z.addr, x)} (pathCells (some z.addr) (⟨d, c, e, .node c' l z r⟩ :: p))
          (Multiset.le_add_right _ _) z.addr x (link .left c' z (ptr l) (ptr r) (some e.addr))
        · simp
        · simp [pathCells, cells]
    have hdir : (if some a = (link d c e (some a) (ptr S) (up p)).left then
        t.setChild (some e.addr) .left q else t.setChild (some e.addr) .right q) =
          t.setChild (some e.addr) d q := by
      cases d with
      | left => exact if_pos rfl
      | right => exact if_neg hne.symm
    rw [hx, if_neg (by simp), hy, ok_bind, hdir]
    apply hset.mono
    intro t' ht'
    exact ⟨ht'.1.trans hroot, ht'.2⟩

/-- `replace_node` puts the tree `S` where the node `a` was. -/
theorem replaceNode_spec (a : ℕ) (x : RbtreeNode K V) (S : ColorTree (Entry K V)) (q : Ptr)
    (hx : x.parent = up p) (hroot : t.root = top (some a) p)
    (h : Owns t.mem ({(a, x)}+pathCells (some a) p+(cells q S+m))) :
    Gives (t.replaceNode (some a) (ptr S)) (fun t' => t'.root = top (ptr S) p ∧
      Owns t'.mem ({(a, x)}+pathCells (ptr S) p+(cells (up p) S+m))) := by
  apply (replaceBelow_owned t p _ a x (ptr S) hx hroot h).bind
  intro t' ht'
  have hderef' := t'.deref_owned _ ht'.2 a x (by simp)
  have hset := t'.adopt_owned S q (up p) ({(a, x)}+pathCells (ptr S) p+m) (by
    have howns := ht'.2
    rwa [add_left_comm] at howns)
  rw [hderef', ok_bind, hx]
  apply hset.mono
  intro t'' ht''
  refine ⟨ht''.1.trans ht'.1, ?_⟩
  rw [add_left_comm]
  exact ht''.2

/-- A rotation moves the node that was the child on side `d.flip` above its parent. -/
theorem rotate_spec (d : Dir) (c c' : Color) (x y : Entry K V) (a b e : ColorTree (Entry K V))
    (h : Rep t (branch d c x a (branch d c' y b e)) p m) :
    Gives (Rbtree.rotate d t (some x.addr))
      (fun t' => Rep t' (branch d c' y (branch d c x a b) e) p m) := by
  have hx := deref_branch t p m d c x a _ h
  have howns := h.owns
  have hroot := h.root
  rw [ptr_branch] at hroot
  rw [cells_branch, ptr_branch, ptr_branch] at howns
  rw [ptr_branch] at hx
  have hreplace := replaceNode_spec t p (cells (some x.addr) a+m) x.addr
    (link d c x (ptr a) (some y.addr) (up p)) (branch d c' y b e) (some x.addr)
    (link_parent d c x _ _ _) hroot (by
      convert howns using 1
      abel)
  simp only [Rbtree.rotate, hx, ok_bind, (link_child d c x _ _ _).2]
  rw [ptr_branch] at hreplace
  apply hreplace.bind
  rintro t1 ⟨hroot1, h1⟩
  rw [cells_branch] at h1
  have hy1 := t1.deref_owned _ h1 y.addr (link d c' y (ptr b) (ptr e) (up p)) (by simp)
  rw [hy1, ok_bind, (link_child d c' y _ _ _).1]
  have hset2 := t1.assign_owned _ ({(x.addr, link d c x (ptr a) (ptr b) (up p))}+
    pathCells (some y.addr) p+({(y.addr, link d c' y (ptr b) (ptr e) (up p))}+(cells (some y.addr) b+
    cells (some y.addr) e)+(cells (some x.addr) a+m))) h1 x.addr
    (link d c x (ptr a) (some y.addr) (up p)) (fun x => x.setChild (ptr b) d.flip) (by simp) (by
      rw [(setChild_link d c x _ _ _ (ptr b)).2]
      abel)
  apply hset2.bind
  rintro t2 ⟨hroot2, h2⟩
  have hy2 := t2.deref_owned _ h2 y.addr (link d c' y (ptr b) (ptr e) (up p)) (by simp)
  rw [hy2, ok_bind, (link_child d c' y _ _ _).1]
  have hset3 := t2.adopt_owned b (some y.addr) (some x.addr)
    ({(x.addr, link d c x (ptr a) (ptr b) (up p))}+pathCells (some y.addr) p+
    ({(y.addr, link d c' y (ptr b) (ptr e) (up p))}+cells (some y.addr) e+
    (cells (some x.addr) a+m))) (by
      convert h2 using 1
      abel)
  apply hset3.bind
  rintro t3 ⟨hroot3, h3⟩
  have hset4 := t3.assign_owned _ (cells (some x.addr) b+
    ({(x.addr, link d c x (ptr a) (ptr b) (up p))}+pathCells (some y.addr) p+
    ({(y.addr, link d c' y (some x.addr) (ptr e) (up p))}+cells (some y.addr) e+
    (cells (some x.addr) a+m)))) h3 y.addr (link d c' y (ptr b) (ptr e) (up p))
    (fun y => y.setChild (some x.addr) d) (by simp) (by
      rw [(setChild_link d c' y _ _ _ _).1]
      abel)
  apply hset4.bind
  rintro t4 ⟨hroot4, h4⟩
  have hset5 := t4.assign_owned _ (cells (up p) (branch d c' y (branch d c x a b) e)+
    pathCells (some y.addr) p+m) h4 x.addr (link d c x (ptr a) (ptr b) (up p))
    (fun x => { x with parent := some y.addr }) (by simp) (by
      rw [cells_branch, cells_branch, ptr_branch, link_setParent]
      abel)
  apply hset5.mono
  rintro t5 ⟨hroot5, h5⟩
  refine ⟨?_, ?_⟩
  · calc
      t5.root = t4.root := hroot5
      _ = t3.root := hroot4
      _ = t2.root := hroot3
      _ = t1.root := hroot2
      _ = top (ptr (branch d c' y (branch d c x a b) e)) p := by
        rw [hroot1, ptr_branch]
  · rw [ptr_branch]
    exact h5

end Links

end Leviathan.RBTree
