import Leviathan.RBTreeHeap

/-! The deletion cases: the part at the end of a path has lost a black node, and the path is changed so
that the part fits again. -/
namespace Leviathan.RBTree
open RedBlack ColorTree Cells

variable {K V : Type}

section Nephews

variable (t : Rbtree K V) (T u v : ColorTree (Entry K V)) (n : ℕ) (d e : Dir) (c c' c'' : Color)
  (x y : Entry K V) (p : List (Frame (Entry K V))) (m : Multiset (ℕ × RbtreeNode K V))

theorem parentIs_eq (f : Frame (Entry K V)) (h : Rep t T (f :: p) m) (hn : ptr T = some n) :
    t.parentIs (some n) c = .ok (decide (f.color = c)) := by
  obtain ⟨z, hz, hup⟩ := deref_focus t T n _ m h hn
  rw [Rbtree.parentIs, hz, ok_bind, hup, up, nodeColor_parent t T f p m h, ok_bind]
  rfl

theorem siblingIs_eq (f : Frame (Entry K V)) (h : Rep t T (f :: p) m) (hn : ptr T = some n) :
    t.siblingIs (some n) c = .ok (decide (f.sib.color = c)) := by
  rw [Rbtree.siblingIs, sibling_eq t T n f p m h hn, ok_bind, nodeColor_sib t T f p m h, ok_bind]
  rfl

-- The focus moves to a child of the sibling.
theorem rep_nephew : Rep t T (⟨d, c, x, branch e c' y u v⟩ :: p) m ↔
    Rep t u (⟨e, c', y, v⟩ :: ⟨d.flip, c, x, T⟩ :: p) m := by
  rw [rep_swap, rep_fill t u, Frame.fill]

theorem nephew_eq (h : Rep t T (⟨d, c, x, branch e c' y u v⟩ :: p) m) (hn : ptr T = some n) :
    t.nephew e (some n) = .ok (ptr u) := by
  have hswap := (rep_swap _ _ _ _ _ _ _ _).mp h
  have hy := deref_branch t _ m e c' y u v hswap
  rw [Rbtree.nephew, sibling_eq t T n _ p m h hn, ok_bind, ptr_branch, hy, ok_bind,
    (link_child e c' y _ _ _).1]
  rfl

theorem nephewIs_eq (h : Rep t T (⟨d, c, x, branch e c' y u v⟩ :: p) m) (hn : ptr T = some n) :
    t.nephewIs e (some n) c'' = .ok (decide (u.color = c'')) := by
  have hu := (rep_nephew t T u v d e c c' x y p m).mp h
  rw [Rbtree.nephewIs, nephew_eq t T u v n d e c c' x y p m h hn, ok_bind, nodeColor_focus t u _ m hu,
    ok_bind]
  rfl

theorem setColor_nephew (h : Rep t T (⟨d, c, x, branch e c' y u v⟩ :: p) m) (hu : u ≠ .nil) :
    Gives (t.setColor (ptr u) c'')
      (fun t' => Rep t' T (⟨d, c, x, branch e c' y (u.paint c'') v⟩ :: p) m) := by
  have hfocus := (rep_nephew t T u v d e c c' x y p m).mp h
  apply (setColor_focus t u _ m c'' hfocus hu).mono
  intro t' h'
  exact (rep_nephew t' T _ v d e c c' x y p m).mpr h'

end Nephews

section Cases

variable (t : Rbtree K V) (T a b : ColorTree (Entry K V)) (n : ℕ) (d : Dir) (c c' : Color)
  (x y : Entry K V) (p : List (Frame (Entry K V))) (m : Multiset (ℕ × RbtreeNode K V))

theorem ne_nil_of_red (T : ColorTree (Entry K V)) (h : T.color = .red) : T ≠ .nil := by
  rintro rfl
  cases h

/-- Case 6: the sibling, whose far child is red, takes the place of the parent. -/
theorem deleteCase6_spec (h : Rep t T (⟨d, c, x, branch d c' y a b⟩ :: p) m) (hn : ptr T = some n)
    (hb : b.color = .red) : Gives (t.deleteCase6 (some n))
      (fun t' => Rep t' T (⟨d, .black, x, a⟩ :: ⟨d, c, y, b.paint .black⟩ :: p) m) := by
  obtain ⟨z, hz, hup⟩ := deref_focus t T n _ m h hn
  rw [Rbtree.deleteCase6, sibling_eq t T n _ p m h hn, ok_bind, hz, ok_bind, hup, up,
    nodeColor_parent t T _ p m h, ok_bind]
  have hset := setColor_sib t T p m d c c x _ h (by cases d <;> simp [branch])
  apply hset.bind
  intro t1 h1
  rw [paint_branch] at h1
  obtain ⟨z1, hz1, hup1⟩ := deref_focus t1 T n _ m h1 hn
  rw [hz1, ok_bind, hup1, up]
  apply (setColor_parent t1 T p m d c .black x _ h1).bind
  intro t2 h2
  have hflip := h2
  rw [← branch_flip] at hflip
  have hchild := isChild_eq t2 T n _ p m .left h2 hn
  have hfar := nephew_eq t2 T b a n d d.flip .black c x y p m hflip hn
  have hfarIs := nephewIs_eq t2 T b a n d d.flip .black c .red x y p m hflip hn
  have hpaint := setColor_nephew t2 T b a d d.flip .black c .black x y p m hflip (ne_nil_of_red b hb)
  have hrotate (t3 : Rbtree K V)
      (h3 : Rep t3 T (⟨d, .black, x, branch d.flip c y (b.paint .black) a⟩ :: p) m) :
      Gives (do Rbtree.rotate d t3 (← t3.deref (some n)).parent)
        (fun t' => Rep t' T (⟨d, .black, x, a⟩ :: ⟨d, c, y, b.paint .black⟩ :: p) m) := by
    obtain ⟨z3, hz3, hup3⟩ := deref_focus t3 T n _ m h3 hn
    rw [branch_flip] at h3
    rw [hz3, ok_bind, hup3, up]
    apply (rotate_spec t3 p m d .black c x y T a _ ((rep_fill _ _ _ _ _).mp h3)).mono
    intro t' h'
    rw [rep_fill, rep_fill]
    exact h'
  rw [hchild, ok_bind]
  cases d with
  | left =>
    rw [if_pos (by rfl)]
    simp only [Dir.flip] at hfar hfarIs
    rw [hfarIs, ok_bind, hb]
    simp only [hfar, ok_bind, assert]
    exact hpaint.bind hrotate
  | right =>
    rw [if_neg (by simp)]
    simp only [Dir.flip] at hfar hfarIs
    rw [hfarIs, ok_bind, hb]
    simp only [hfar, ok_bind, assert]
    exact hpaint.bind hrotate

-- Case 5 leaves a sibling with a red far child as it is.
theorem deleteCase5_far (h : Rep t T (⟨d, c, x, branch d c' y a b⟩ :: p) m) (hn : ptr T = some n)
    (hb : b.color = .red) : t.deleteCase5 (some n) = t.deleteCase6 (some n) := by
  have hflip := h
  rw [← branch_flip] at hflip
  have hchild (e : Dir) := isChild_eq t T n _ p m e h hn
  have hsib := siblingIs_eq t T n .black p m _ h hn
  have hnear (e : Color) := nephewIs_eq t T a b n d d c c' e x y p m h hn
  have hfar (e : Color) := nephewIs_eq t T b a n d d.flip c c' e x y p m hflip hn
  rw [hb] at hfar
  cases d <;> simp only [Dir.flip] at hnear hfar <;>
    simp only [Rbtree.deleteCase5, andAlso, hchild, hsib, hnear, hfar, ok_bind] <;>
    cases c' <;> cases a.color <;> rfl

theorem deleteCase5_near (h : Rep t T (⟨d, c, x, branch d .black y a b⟩ :: p) m) (hn : ptr T = some n)
    (ha : a.color = .red) (hb : b.color = .black) : t.deleteCase5 (some n) = (do
      let t ← t.setColor (← t.sibling (some n)) .red
      let t ← t.setColor (← t.nephew d (some n)) .black
      let t ← Rbtree.rotate d.flip t (← t.sibling (some n))
      t.deleteCase6 (some n)) := by
  have hflip := h
  rw [← branch_flip] at hflip
  have hchild (e : Dir) := isChild_eq t T n _ p m e h hn
  have hsib := siblingIs_eq t T n .black p m _ h hn
  have hnear (e : Color) := nephewIs_eq t T a b n d d c .black e x y p m h hn
  have hfar (e : Color) := nephewIs_eq t T b a n d d.flip c .black e x y p m hflip hn
  rw [hb] at hfar
  rw [ha] at hnear
  cases d <;> simp only [Dir.flip] at hnear hfar <;>
    simp only [Rbtree.deleteCase5, andAlso, hchild, hsib, hnear, hfar, ok_bind] <;> rfl

/-- Case 5 turns a sibling with a red near child so that the far child is red. -/
theorem deleteCase5_turn (z : Entry K V) (a₁ a₂ : ColorTree (Entry K V))
    (h : Rep t T (⟨d, c, x, branch d .black y (branch d .red z a₁ a₂) b⟩ :: p) m) (hn : ptr T = some n)
    (hb : b.color = .black) : Gives (t.deleteCase5 (some n)) (fun t' =>
      Rep t' T (⟨d, .black, x, a₁⟩ :: ⟨d, c, z, branch d .black y a₂ b⟩ :: p) m) := by
  rw [deleteCase5_near t T _ b n d c x y p m h hn (color_branch _ _ _ _ _) hb,
    sibling_eq t T n _ p m h hn, ok_bind]
  apply (setColor_sib t T p m d c .red x _ h (by cases d <;> simp [branch])).bind
  intro t1 h1
  rw [paint_branch] at h1
  rw [nephew_eq t1 T _ b n d d c .red x y p m h1 hn, ok_bind]
  have hne := ne_nil_of_red _ (color_branch d .red z a₁ a₂)
  apply (setColor_nephew t1 T _ b d d c .red .black x y p m h1 hne).bind
  intro t2 h2
  rw [paint_branch] at h2
  rw [sibling_eq t2 T n _ p m h2 hn, ok_bind, ptr_branch]
  have hrotate := rotate_spec t2 (⟨d.flip, c, x, T⟩ :: p) m d.flip .red .black y z b a₂ a₁ (by
    rw [branch_flip, branch_flip]
    exact (rep_swap _ _ _ _ _ _ _ _).mp h2)
  apply hrotate.bind
  intro t3 h3
  rw [branch_flip, branch_flip, ← rep_swap] at h3
  have hcase := deleteCase6_spec t3 T a₁ _ n d c .black x z p m h3 hn (color_branch _ _ _ _ _)
  rwa [paint_branch] at hcase

end Cases

/-- The path has been changed so that a part of black height `k` fits, whatever its colour. -/
def Fixed (T : ColorTree (Entry K V)) (p : List (Frame (Entry K V)))
    (m : Multiset (ℕ × RbtreeNode K V)) (k : ℕ) (t : Rbtree K V) : Prop :=
  ∃ q, Rep t T q m ∧ SameOrder q p ∧ ∀ c, Fits q c k

section Chain

variable (t : Rbtree K V) (T : ColorTree (Entry K V)) (n k : ℕ) (d : Dir) (c : Color) (x : Entry K V)
  (S : ColorTree (Entry K V)) (p : List (Frame (Entry K V))) (m : Multiset (ℕ × RbtreeNode K V))

theorem deleteCase5_spec (y : Entry K V) (a b : ColorTree (Entry K V)) (ca cb : Color)
    (h : Rep t T (⟨d, c, x, branch d .black y a b⟩ :: p) m) (hn : ptr T = some n)
    (ha : Balanced a ca k) (hb : Balanced b cb k)
    (hp : Fits (⟨d, c, x, branch d .black y a b⟩ :: p) .black (k+1)) (hred : ca = .red ∨ cb = .red) :
    Gives (t.deleteCase5 (some n)) (Fixed T (⟨d, c, x, branch d .black y a b⟩ :: p) m k) := by
  cases cb with
  | red =>
    rw [deleteCase5_far t T a b n d c .black x y p m h hn hb.color_eq]
    apply (deleteCase6_spec t T a b n d c .black x y p m h hn hb.color_eq).mono
    intro t' h'
    refine ⟨_, h', ?_, ?_⟩
    · apply (sameOrder_rotate d _ _ c .black x y a _ p).trans
      apply sameOrder_sib d _ _ x _ _ _ _ _ (SameOrder.refl p)
      exact toList_branch d _ _ y _ _ _ _ rfl (toList_paint _ b)
    · intro c'
      exact .black d x a _ c' ca k ha (hp.change d c x y _ _ p _ hb.paint_black)
  | black =>
    have hca : ca = .red := by simpa using hred
    rw [hca] at ha
    obtain ⟨z, a₁, a₂, rfl, ha₁, ha₂⟩ := ha.red_branch d
    apply (deleteCase5_turn t T b n d c x y p m z a₁ a₂ h hn hb.color_eq).mono
    intro t' h'
    refine ⟨_, h', ?_, ?_⟩
    · apply (sameOrder_rotate d _ _ c .black x z a₁ _ p).trans
      apply sameOrder_sib d _ _ x _ _ _ _ _ (SameOrder.refl p)
      exact (toList_rotate d _ _ _ _ z y a₁ a₂ b).symm
    · intro c'
      have hfar := balanced_black d y a₂ b _ _ k ha₂ hb
      exact .black d x a₁ _ c' _ k ha₁ (hp.change d c x z _ _ p _ hfar)

-- The condition of cases 3 and 4.
theorem onlyBlack_eq (c' : Color) (y : Entry K V) (a b : ColorTree (Entry K V))
    (h : Rep t T (⟨d, c, x, branch d .black y a b⟩ :: p) m) (hn : ptr T = some n) :
    t.onlyBlack (some n) c' =
      .ok (decide (c = c' ∧ a.color = .black ∧ b.color = .black)) := by
  have hflip := h
  rw [← branch_flip] at hflip
  have hparent := parentIs_eq t T n c' p m _ h hn
  have hsib := siblingIs_eq t T n .black p m _ h hn
  have hnear := nephewIs_eq t T a b n d d c .black .black x y p m h hn
  have hfar := nephewIs_eq t T b a n d d.flip c .black .black x y p m hflip hn
  cases d <;> simp only [Dir.flip] at hnear hfar <;>
    simp only [Rbtree.onlyBlack, andAlso, hparent, hsib, hnear, hfar, ok_bind, color_branch] <;>
    by_cases hc : c = c' <;> cases a.color <;> cases b.color <;>
    simp [hc, pure, Except.pure]

/-- Case 4 with what follows it, when case 3 does not apply. -/
theorem deleteCase4_spec (y : Entry K V) (a b : ColorTree (Entry K V)) (ca cb : Color)
    (h : Rep t T (⟨d, c, x, branch d .black y a b⟩ :: p) m) (hn : ptr T = some n)
    (ha : Balanced a ca k) (hb : Balanced b cb k)
    (hp : Fits (⟨d, c, x, branch d .black y a b⟩ :: p) .black (k+1))
    (hnot : ¬(c = .black ∧ ca = .black ∧ cb = .black)) :
    Gives (t.deleteCase4 (some n)) (Fixed T (⟨d, c, x, branch d .black y a b⟩ :: p) m k) := by
  rw [Rbtree.deleteCase4, onlyBlack_eq t T n d c x p m .red y a b h hn, ok_bind, ha.color_eq,
    hb.color_eq]
  by_cases hall : c = .red ∧ ca = .black ∧ cb = .black
  · obtain ⟨rfl, rfl, rfl⟩ := hall
    rw [if_pos (by simp), sibling_eq t T n _ p m h hn, ok_bind]
    apply (setColor_sib t T p m d .red .red x _ h (by cases d <;> simp [branch])).bind
    intro t1 h1
    rw [paint_branch] at h1
    obtain ⟨z, hz, hup⟩ := deref_focus t1 T n _ m h1 hn
    rw [hz, ok_bind, hup, up]
    apply (setColor_parent t1 T p m d .red .black x _ h1).mono
    intro t' h'
    refine ⟨_, h', ?_, ?_⟩
    · apply sameOrder_sib d _ _ x _ _ _ _ _ (SameOrder.refl p)
      exact toList_branch d _ _ y _ _ _ _ rfl rfl
    · intro c'
      cases hp with
      | red _ _ _ _ _ hs hp =>
        exact .black d x _ p c' .red k (balanced_red d y a b k ha hb) (hp.of_red p _ .black)
  · rw [if_neg (by simpa using hall)]
    apply deleteCase5_spec t T n k d c x p m y a b ca cb h hn ha hb hp
    cases c <;> cases ca <;> cases cb <;> simp_all

/-- Case 3 with what follows it.  The recursion is on a shorter path, whose end lacks a black node as
well. -/
theorem deleteCase3_spec (again : Rbtree K V → Ptr → Except RBFault (Rbtree K V))
    (h : Rep t T (⟨d, c, x, S⟩ :: p) m) (hn : ptr T = some n) (hS : Balanced S .black (k+1))
    (hp : Fits (⟨d, c, x, S⟩ :: p) .black (k+1))
    (hagain : c = .black → ∀ t' T', Rep t' T' p m → ptr T' = some x.addr →
      Gives (again t' (some x.addr))
        (fun t'' => ∃ q, Rep t'' T' q m ∧ SameOrder q p ∧ Fits q .black (k+1))) :
    Gives (Rbtree.deleteCase3 again t (some n)) (Fixed T (⟨d, c, x, S⟩ :: p) m k) := by
  obtain ⟨y, a, b, ca, cb, rfl, ha, hb⟩ := hS.black_branch d
  rw [Rbtree.deleteCase3, onlyBlack_eq t T n d c x p m .black y a b h hn, ok_bind, ha.color_eq,
    hb.color_eq]
  by_cases hall : c = .black ∧ ca = .black ∧ cb = .black
  · obtain ⟨rfl, rfl, rfl⟩ := hall
    rw [if_pos (by simp), sibling_eq t T n _ p m h hn, ok_bind]
    apply (setColor_sib t T p m d .black .red x _ h (by cases d <;> simp [branch])).bind
    intro t1 h1
    rw [paint_branch] at h1
    obtain ⟨z, hz, hup⟩ := deref_focus t1 T n _ m h1 hn
    rw [hz, ok_bind, hup, up]
    have hfill := (rep_fill _ _ _ _ _).mp h1
    apply (hagain rfl t1 _ hfill (ptr_branch _ _ _ _ _)).mono
    rintro t' ⟨q, h', horder, hq⟩
    refine ⟨_, (rep_fill _ _ _ _ _).mpr h', ?_, ?_⟩
    · apply sameOrder_sib d _ _ x _ _ _ _ _ horder
      exact toList_branch d _ _ y _ _ _ _ rfl rfl
    · intro c'
      exact .black d x _ q c' .red k (balanced_red d y a b k ha hb) hq
  · rw [if_neg (by simpa using hall)]
    exact deleteCase4_spec t T n k d c x p m y a b ca cb h hn ha hb hp hall

theorem rotateParent_eq (f : Frame (Entry K V)) (h : Rep t T (f :: p) m) (hn : ptr T = some n) :
    t.rotateParent (some n) = Rbtree.rotate f.dir t (some f.val.addr) := by
  obtain ⟨z, hz, hup⟩ := deref_focus t T n _ m h hn
  have hchild := isChild_eq t T n _ p m .left h hn
  rw [up] at hup
  simp only [Rbtree.rotateParent, hchild, hz, ok_bind, hup]
  cases f.dir <;> rfl

/-- Case 2 with what follows it.  A red sibling is turned above the parent, which becomes red, so that
case 3 does not recurse. -/
theorem deleteCase2_spec (again : Rbtree K V → Ptr → Except RBFault (Rbtree K V)) (cs : Color)
    (h : Rep t T (⟨d, c, x, S⟩ :: p) m) (hn : ptr T = some n) (hS : Balanced S cs (k+1))
    (hp : Fits (⟨d, c, x, S⟩ :: p) .black (k+1))
    (hagain : c = .black → ∀ t' T', Rep t' T' p m → ptr T' = some x.addr →
      Gives (again t' (some x.addr))
        (fun t'' => ∃ q, Rep t'' T' q m ∧ SameOrder q p ∧ Fits q .black (k+1))) :
    Gives (Rbtree.deleteCase2 again t (some n)) (Fixed T (⟨d, c, x, S⟩ :: p) m k) := by
  rw [Rbtree.deleteCase2, siblingIs_eq t T n .red p m _ h hn, ok_bind, hS.color_eq]
  cases cs with
  | black =>
    rw [if_neg (by simp)]
    exact deleteCase3_spec t T n k d c x S p m again h hn hS hp hagain
  | red =>
    obtain ⟨y, a, b, rfl, ha, hb⟩ := hS.red_branch d
    obtain ⟨z, hz, hup⟩ := deref_focus t T n _ m h hn
    rw [if_pos (by simp), hz, ok_bind, hup, up]
    apply (setColor_parent t T p m d c .red x _ h).bind
    intro t1 h1
    rw [sibling_eq t1 T n _ p m h1 hn, ok_bind]
    apply (setColor_sib t1 T p m d .red .black x _ h1 (by cases d <;> simp [branch])).bind
    intro t2 h2
    rw [paint_branch] at h2
    rw [rotateParent_eq t2 T n p m _ h2 hn]
    apply (rotate_spec t2 p m d .red .black x y T a b ((rep_fill _ _ _ _ _).mp h2)).bind
    intro t3 h3
    have h3' : Rep t3 T (⟨d, .red, x, a⟩ :: ⟨d, .black, y, b⟩ :: p) m := by
      rw [rep_fill, rep_fill]
      exact h3
    have hfits : Fits (⟨d, .red, x, a⟩ :: ⟨d, .black, y, b⟩ :: p) .black (k+1) := by
      cases hp with
      | red _ _ _ _ _ hs hp => cases hs.color_eq.symm.trans (color_branch _ _ _ _ _)
      | black _ _ _ _ _ c' _ hs hp => exact .red d x a _ _ ha (.black d y b p .red _ _ hb hp)
    have hcase := deleteCase3_spec t3 T n k d .red x a _ m again h3' hn ha hfits (by simp)
    apply hcase.mono
    rintro t' ⟨q, h', horder, hq⟩
    refine ⟨q, h', horder.trans _ _ _ ?_, hq⟩
    exact sameOrder_rotate d _ _ c .red x y a b p

end Chain

/-- Case 1 with what follows it.  At the root nothing is done; everywhere else the path fits a part of
either colour. -/
theorem deleteCase1_spec (fuel : ℕ) (t : Rbtree K V) (T : ColorTree (Entry K V)) (n k : ℕ)
    (p : List (Frame (Entry K V))) (m : Multiset (ℕ × RbtreeNode K V)) (h : Rep t T p m)
    (hn : ptr T = some n) (hp : Fits p .black (k+1)) (hfuel : p.length < fuel) :
    Gives (Rbtree.deleteCase1 fuel t (some n)) (fun t' => ∃ q, Rep t' T q m ∧ SameOrder q p ∧
      Fits q .black k ∧ (p = [] → q = []) ∧ (p ≠ [] → ∀ c, Fits q c k)) := by
  induction fuel generalizing t T n k p with
  | zero => omega
  | succ fuel ih =>
    obtain ⟨z, hz, hup⟩ := deref_focus t T n p m h hn
    rw [Rbtree.deleteCase1, hz, ok_bind, hup]
    cases p with
    | nil =>
      rw [up, if_pos rfl]
      exact gives_ok t _ ⟨[], h, SameOrder.refl [], .nil k, fun _ => rfl, fun hne => absurd rfl hne⟩
    | cons f p =>
      obtain ⟨d, c, x, S⟩ := f
      rw [up, if_neg (by simp)]
      have hS : ∃ cs, Balanced S cs (k+1) := by
        cases hp with
        | red _ _ _ _ _ hs hp => exact ⟨_, hs⟩
        | black _ _ _ _ _ c' _ hs hp => exact ⟨_, hs⟩
      obtain ⟨cs, hS⟩ := hS
      have hagain (hc : c = .black) (t' : Rbtree K V) (T' : ColorTree (Entry K V)) (h' : Rep t' T' p m)
          (hx : ptr T' = some x.addr) : Gives (Rbtree.deleteCase1 fuel t' (some x.addr))
            (fun t'' => ∃ q, Rep t'' T' q m ∧ SameOrder q p ∧ Fits q .black (k+1)) := by
        subst hc
        cases hp with
        | black _ _ _ _ _ c' _ hs hp =>
          apply (ih t' T' x.addr (k+1) p h' hx hp (by simpa using hfuel)).mono
          rintro t'' ⟨q, hq, horder, hfits, -⟩
          exact ⟨q, hq, horder, hfits⟩
      apply (deleteCase2_spec t T n k d c x S p m _ cs h hn hS hp hagain).mono
      rintro t' ⟨q, h', horder, hq⟩
      exact ⟨q, h', horder, hq .black, by simp, fun _ => hq⟩

end Leviathan.RBTree
