import Leviathan.RBTreeHeap

/-! The insertion cases: a red node at the end of a path is worked into the tree above it. -/
namespace Leviathan.RBTree
open RedBlack ColorTree Cells

variable {K V : Type}

/-- A red-black tree, as a whole in memory, with these entries in order. -/
def Done (l : List (Entry K V)) (m : Multiset (ℕ × RbtreeNode K V)) (t : Rbtree K V) : Prop :=
  ∃ R k, Rep t R [] m ∧ Balanced R .black k ∧ R.toList = l

section Cases

variable (t : Rbtree K V) (T S U : ColorTree (Entry K V)) (n : ℕ) (x y : Entry K V) (d : Dir)
  (p : List (Frame (Entry K V))) (m : Multiset (ℕ × RbtreeNode K V))

theorem insertCase5_spec (c c' : Color) (h : Rep t T (⟨d, c, x, S⟩ :: ⟨d, c', y, U⟩ :: p) m)
    (hn : ptr T = some n) : Gives (t.insertCase5 (some n))
      (fun t' => Rep t' (branch d .black x T (branch d .red y S U)) p m) := by
  obtain ⟨z, hz, hparent⟩ := deref_focus t T n _ m h hn
  rw [Rbtree.insertCase5, hz, ok_bind, hparent]
  apply (setColor_parent t T _ m d c .black x S h).bind
  intro t1 h1
  rw [grandparent_eq t1 T n _ _ p m h1 hn, ok_bind]
  apply (setColor_parent t1 _ p m d c' .red y U ((rep_fill _ _ _ _ _).mp h1)).bind
  intro t2 h2
  have h2' : Rep t2 T (⟨d, .black, x, S⟩ :: ⟨d, .red, y, U⟩ :: p) m := (rep_fill _ _ _ _ _).mpr h2
  have hchild (e : Dir) := isChild_eq t2 T n _ _ m e h2' hn
  have hparent2 (e : Dir) := parentIsChild_eq t2 T n _ _ _ m e h2' hn
  have hrotate := rotate_spec t2 p m d.flip .red .black y x U S T (by
    rw [branch_flip, branch_flip]
    exact (rep_fill _ _ _ _ _).mp h2)
  rw [branch_flip, branch_flip] at hrotate
  simp only [hchild, hparent2, andAlso, ok_bind, grandparent_eq t2 T n _ _ p m h2' hn]
  cases d with
  | left => exact hrotate
  | right => exact hrotate

theorem insert_outer_balanced (k : ℕ) (hT : Balanced T .red k) (hS : Balanced S .black k)
    (hU : Balanced U .black k) : Balanced (branch d .black x T (branch d .red y S U)) .black (k+1) := by
  exact balanced_black d x _ _ _ _ k hT (balanced_red d y _ _ k hS hU)

-- Case 4 leaves a node that is an outer grandchild as it is.
theorem insertCase4_outer (c c' : Color) (h : Rep t T (⟨d, c, x, S⟩ :: ⟨d, c', y, U⟩ :: p) m)
    (hn : ptr T = some n) : t.insertCase4 (some n) = t.insertCase5 (some n) := by
  have hchild (e : Dir) := isChild_eq t T n _ _ m e h hn
  have hparent (e : Dir) := parentIsChild_eq t T n _ _ _ m e h hn
  simp only [Rbtree.insertCase4, hchild, hparent, andAlso, ok_bind]
  cases d <;> rfl

theorem insertCase4_inner (c c' : Color) (h : Rep t T (⟨d.flip, c, x, S⟩ :: ⟨d, c', y, U⟩ :: p) m)
    (hn : ptr T = some n) : t.insertCase4 (some n) = (do
      let t ← Rbtree.rotate d t (some x.addr)
      t.insertCase5 ((← t.deref (some n)).child d)) := by
  obtain ⟨z, hz, hup⟩ := deref_focus t T n _ m h hn
  have hchild (e : Dir) := isChild_eq t T n _ _ m e h hn
  have hparent (e : Dir) := parentIsChild_eq t T n _ _ _ m e h hn
  simp only [Rbtree.insertCase4, hchild, hparent, andAlso, ok_bind, hz, hup, up]
  cases d <;> rfl

/-- Cases 4 and 5 end the insertion: the red node and its red parent below a black grandparent, whose
other child is black. -/
theorem insertCase4_spec (f g : Frame (Entry K V)) (k : ℕ) (h : Rep t T (f :: g :: p) m)
    (hn : ptr T = some n) (hT : Balanced T .red k) (hf : f.color = .red) (hS : Balanced f.sib .black k)
    (hU : Balanced g.sib .black k) : Gives (t.insertCase4 (some n)) (fun t' =>
      ∃ R, Rep t' R p m ∧ Balanced R .black (k+1) ∧ R.toList = (g.fill (f.fill T)).toList) := by
  obtain ⟨e, c, x, S⟩ := f
  obtain ⟨d, c', y, U⟩ := g
  by_cases hd : e = d
  · subst hd
    rw [insertCase4_outer t T S U n x y e p m c c' h hn]
    apply (insertCase5_spec t T S U n x y e p m c c' h hn).mono
    intro t' h'
    refine ⟨_, h', insert_outer_balanced T S U x y e k hT hS hU, ?_⟩
    exact (toList_rotate e _ _ _ _ x y T S U).symm
  · rw [Dir.eq_flip_of_ne e d hd] at h ⊢
    obtain ⟨z, a, b, rfl, ha, hb⟩ := hT.red_branch d
    rw [ptr_branch] at hn
    cases hn
    rw [insertCase4_inner t _ S U z.addr x y d p m c c' h (ptr_branch _ _ _ _ _)]
    have hrotate := rotate_spec t (⟨d, c', y, U⟩ :: p) m d c .red x z S a b (by
      rw [← branch_flip d c x]
      exact (rep_fill _ _ _ _ _).mp h)
    apply hrotate.bind
    intro t1 h1
    rw [deref_branch t1 _ m d .red z _ b h1, ok_bind, (link_child d .red z _ _ _).1, ptr_branch]
    have h1' : Rep t1 (branch d c x S a) (⟨d, .red, z, b⟩ :: ⟨d, c', y, U⟩ :: p) m :=
      (rep_fill _ _ _ _ _).mpr h1
    apply (insertCase5_spec t1 _ b U x.addr z y d p m .red c' h1' (ptr_branch _ _ _ _ _)).mono
    intro t' h'
    have hc : c = .red := hf
    rw [hc] at h'
    refine ⟨_, h', insert_outer_balanced _ b U z y d k (balanced_red d x S a k hS ha) hb hU, ?_⟩
    cases d <;> simp [Frame.fill, branch, toList, Dir.flip]

-- Case 3 with a red uncle: parent and uncle become black, and the red grandparent is the next node.
theorem insertCase3_red (again : Rbtree K V → Ptr → Except RBFault (Rbtree K V)) (e : Dir)
    (c c' : Color) (h : Rep t T (⟨d, c, x, S⟩ :: ⟨e, c', y, U⟩ :: p) m) (hn : ptr T = some n)
    (hU : U.color = .red) : ∃ t', Rbtree.insertCase3 again t (some n) = again t' (some y.addr) ∧
      Rep t' (branch e .red y (branch d .black x T S) (U.paint .black)) p m := by
  obtain ⟨z, hz, hup⟩ := deref_focus t T n _ m h hn
  have hfill := (rep_fill _ _ _ _ _).mp h
  have hne : U ≠ .nil := by
    rintro rfl
    cases hU
  obtain ⟨t1, ht1, h1⟩ := setColor_parent t T _ m d c .black x S h
  obtain ⟨t2, ht2, h2⟩ := setColor_sib t1 _ p m e c' .black y U ((rep_fill _ _ _ _ _).mp h1) hne
  have h2' : Rep t2 T (⟨d, .black, x, S⟩ :: ⟨e, c', y, U.paint .black⟩ :: p) m :=
    (rep_fill _ _ _ _ _).mpr h2
  obtain ⟨t3, ht3, h3⟩ := setColor_parent t2 _ p m e c' .red y _ h2
  have h3' : Rep t3 T (⟨d, .black, x, S⟩ :: ⟨e, .red, y, U.paint .black⟩ :: p) m :=
    (rep_fill _ _ _ _ _).mpr h3
  refine ⟨t3, ?_, (rep_fill _ _ _ _ _).mp h3⟩
  calc
    Rbtree.insertCase3 again t (some n) = (do
        let t ← t.setColor (some x.addr) .black
        let t ← t.setColor (← t.uncle (some n)) .black
        let t ← t.setColor (← t.grandparent (some n)) .red
        again t (← t.grandparent (some n))) := by
      rw [Rbtree.insertCase3, uncle_eq t T n _ _ p m h hn, ok_bind, nodeColor_sib t _ _ p m hfill,
        ok_bind, if_pos hU, hz, ok_bind, hup, up]
    _ = (do
        let t ← t2.setColor (← t2.grandparent (some n)) .red
        again t (← t.grandparent (some n))) := by
      rw [ht1, ok_bind, uncle_eq t1 T n _ _ p m h1 hn, ok_bind, ht2, ok_bind]
    _ = again t3 (some y.addr) := by
      rw [grandparent_eq t2 T n _ _ p m h2' hn, ok_bind, ht3, ok_bind,
        grandparent_eq t3 T n _ _ p m h3' hn, ok_bind]

theorem insertCase2_eq (again : Rbtree K V → Ptr → Except RBFault (Rbtree K V))
    (t : Rbtree K V) (T S : ColorTree (Entry K V)) (n : ℕ) (d : Dir) (c : Color) (x : Entry K V)
    (p : List (Frame (Entry K V))) (m : Multiset (ℕ × RbtreeNode K V))
    (h : Rep t T (⟨d, c, x, S⟩ :: p) m) (hn : ptr T = some n) :
    Rbtree.insertCase2 again t (some n) =
      if c = .black then .ok t else Rbtree.insertCase3 again t (some n) := by
  obtain ⟨z, hz, hup⟩ := deref_focus t T n _ m h hn
  rw [Rbtree.insertCase2, hz, ok_bind, hup, up, nodeColor_parent t T _ p m h, ok_bind]
  rfl

end Cases

/-- Case 1 with what follows it.  The node is red and may have a red parent; nothing else is wrong. -/
theorem insertCase1_spec (fuel : ℕ) (t : Rbtree K V) (T : ColorTree (Entry K V)) (n k : ℕ)
    (p : List (Frame (Entry K V))) (m : Multiset (ℕ × RbtreeNode K V)) (h : Rep t T p m)
    (hn : ptr T = some n) (hT : Balanced T .red k) (hp : Fits p .black k) (hfuel : p.length < fuel) :
    Gives (Rbtree.insertCase1 fuel t (some n)) (Done (before p ++ (T.toList ++ after p)) m) := by
  induction fuel generalizing t T n k p with
  | zero => omega
  | succ fuel ih =>
    obtain ⟨z, hz, hup⟩ := deref_focus t T n p m h hn
    rw [Rbtree.insertCase1, hz, ok_bind, hup]
    cases hp with
    | nil =>
      rw [up, if_pos rfl, ← hn]
      have hset := setColor_focus t T [] m .black h (by
        rintro rfl
        cases hn)
      apply hset.mono
      intro t' h'
      exact ⟨_, k+1, h', hT.paint_black, by simp [before, after]⟩
    | black d x S p c c' _ hS hp =>
      -- a black parent: nothing to do
      rw [up, if_neg (by simp), insertCase2_eq _ t T S n d _ x p m h hn, if_pos rfl]
      have hfits : Fits (⟨d, .black, x, S⟩ :: p) .red k := .black d x S p .red c' k hS hp
      obtain ⟨j, hj⟩ := hfits.plug T _ _ _ hT
      refine gives_ok t _ ⟨plug T (⟨d, .black, x, S⟩ :: p), j, ?_, hj, toList_plug _ _⟩
      rw [← rep_plug, List.append_nil]
      exact h
    | red d x S p _ hS hp =>
      -- the parent is red, so there is a black grandparent
      cases hp with
      | black d' y U p _ c' _ hU hp =>
        rw [up, if_neg (by simp), insertCase2_eq _ t T S n d _ x _ m h hn, if_neg (by simp)]
        cases c' with
        | red =>
          obtain ⟨t', ht', h'⟩ := insertCase3_red t T S U n x y d p m (Rbtree.insertCase1 fuel) d' _ _ h
            hn hU.color_eq
          rw [ht']
          have hR : Balanced (branch d' .red y (branch d .black x T S) (U.paint .black)) .red (k+1) :=
            balanced_red d' y _ _ _ (balanced_black d x T S _ _ k hT hS) hU.paint_black
          have hagain := ih t' _ y.addr (k+1) p h' (ptr_branch _ _ _ _ _) hR hp (by
            simp only [List.length_cons] at hfuel
            omega)
          apply hagain.mono
          rintro t'' ⟨R, j, hrep, hbal, hlist⟩
          refine ⟨R, j, hrep, hbal, ?_⟩
          rw [hlist, ← toList_plug T (_ :: _ :: p), plug, plug, toList_plug]
          congr 2
          apply toList_branch
          · exact toList_branch d _ _ x _ _ _ _ rfl rfl
          · exact toList_paint _ U
        | black =>
          have hfill := (rep_fill _ _ _ _ _).mp h
          rw [Rbtree.insertCase3, uncle_eq t T n _ _ p m h hn, ok_bind, nodeColor_sib t _ _ p m hfill,
            ok_bind, hU.color_eq, if_neg (by simp)]
          apply (insertCase4_spec t T n p m _ _ k h hn hT rfl hS hU).mono
          rintro t' ⟨R, h', hR, hlist⟩
          obtain ⟨j, hj⟩ := hp.plug R p _ _ hR
          refine ⟨plug R p, j, ?_, hj, ?_⟩
          · rw [← rep_plug, List.append_nil]
            exact h'
          · rw [toList_plug, hlist, ← toList_plug, ← toList_plug]
            rfl

end Leviathan.RBTree
