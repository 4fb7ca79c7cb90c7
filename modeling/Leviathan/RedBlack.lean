import Mathlib.Tactic

/-! Red-black trees with labels, and the paths that lead to a place in one.  A node is also seen from one
of its sides, so that a statement about a rotation and its mirror image is made once. -/
namespace Leviathan.RedBlack

inductive Color
  | red
  | black
  deriving DecidableEq

inductive Dir
  | left
  | right
  deriving DecidableEq

def Dir.flip : Dir → Dir
  | .left => .right
  | .right => .left

theorem Dir.eq_flip_of_ne (d e : Dir) (h : d ≠ e) : d = e.flip := by
  cases d <;> cases e <;> first | rfl | exact absurd rfl h

inductive ColorTree (α : Type)
  | nil
  | node (c : Color) (l : ColorTree α) (x : α) (r : ColorTree α)

variable {α : Type}

namespace ColorTree

/-- A missing node counts as black. -/
def color : ColorTree α → Color
  | nil => .black
  | node c _ _ _ => c

def paint (c : Color) : ColorTree α → ColorTree α
  | nil => nil
  | node _ l x r => node c l x r

def toList : ColorTree α → List α
  | nil => []
  | node _ l x r => l.toList ++ x :: r.toList

/-- The node whose child on side `d` is `near`. -/
def branch (d : Dir) (c : Color) (x : α) (near far : ColorTree α) : ColorTree α :=
  match d with
  | .left => node c near x far
  | .right => node c far x near

theorem branch_flip (d : Dir) (c : Color) (x : α) (near far : ColorTree α) :
    branch d.flip c x near far = branch d c x far near := by
  cases d <;> rfl

@[simp] theorem color_branch (d : Dir) (c : Color) (x : α) (near far : ColorTree α) :
    (branch d c x near far).color = c := by
  cases d <;> rfl

@[simp] theorem paint_branch (d : Dir) (c c' : Color) (x : α) (near far : ColorTree α) :
    (branch d c x near far).paint c' = branch d c' x near far := by
  cases d <;> rfl

@[simp] theorem toList_paint (c : Color) (t : ColorTree α) : (t.paint c).toList = t.toList := by
  cases t <;> rfl

-- Colours do not matter for the order.
theorem toList_branch (d : Dir) (c c' : Color) (x : α) (a a' b b' : ColorTree α)
    (ha : a.toList = a'.toList) (hb : b.toList = b'.toList) :
    (branch d c x a b).toList = (branch d c' x a' b').toList := by
  cases d <;> simp [branch, toList, ha, hb]

-- A rotation keeps the order.
theorem toList_rotate (d : Dir) (c₁ c₂ c₃ c₄ : Color) (x y : α) (a b e : ColorTree α) :
    (branch d c₁ y (branch d c₂ x a b) e).toList = (branch d c₃ x a (branch d c₄ y b e)).toList := by
  cases d <;> simp [branch, toList]

/-- No red node has a red child, and every path down has `n` black nodes; the colour is the root's. -/
inductive Balanced : ColorTree α → Color → ℕ → Prop
  | nil : Balanced nil .black 0
  | red (l : ColorTree α) (x : α) (r : ColorTree α) (n : ℕ) (hl : Balanced l .black n)
      (hr : Balanced r .black n) :
    Balanced (node .red l x r) .red n
  | black (l : ColorTree α) (x : α) (r : ColorTree α) (c c' : Color) (n : ℕ) (hl : Balanced l c n)
    (hr : Balanced r c' n) : Balanced (node .black l x r) .black (n+1)

theorem Balanced.color_eq (t : ColorTree α) (c : Color) (n : ℕ) (h : Balanced t c n) : t.color = c := by
  cases h <;> rfl

theorem balanced_red (d : Dir) (x : α) (a b : ColorTree α) (n : ℕ) (ha : Balanced a .black n)
    (hb : Balanced b .black n) : Balanced (branch d .red x a b) .red n := by
  cases d with
  | left => exact .red a x b n ha hb
  | right => exact .red b x a n hb ha

theorem balanced_black (d : Dir) (x : α) (a b : ColorTree α) (c c' : Color) (n : ℕ)
    (ha : Balanced a c n) (hb : Balanced b c' n) : Balanced (branch d .black x a b) .black (n+1) := by
  cases d with
  | left => exact .black a x b c c' n ha hb
  | right => exact .black b x a c' c n hb ha

-- A red tree seen from one side.
theorem Balanced.red_branch (d : Dir) (t : ColorTree α) (n : ℕ) (h : Balanced t .red n) :
    ∃ x a b, t = branch d .red x a b ∧ Balanced a .black n ∧ Balanced b .black n := by
  cases h with
  | red l x r _ hl hr =>
    cases d with
    | left => exact ⟨x, l, r, rfl, hl, hr⟩
    | right => exact ⟨x, r, l, rfl, hr, hl⟩

-- A black tree that is not empty seen from one side.
theorem Balanced.black_branch (d : Dir) (t : ColorTree α) (n : ℕ) (h : Balanced t .black (n+1)) :
    ∃ x a b c c', t = branch d .black x a b ∧ Balanced a c n ∧ Balanced b c' n := by
  cases h with
  | black l x r c c' _ hl hr =>
    cases d with
    | left => exact ⟨x, l, r, c, c', rfl, hl, hr⟩
    | right => exact ⟨x, r, l, c', c, rfl, hr, hl⟩

theorem Balanced.paint_black (t : ColorTree α) (n : ℕ) (h : Balanced t .red n) :
    Balanced (t.paint .black) .black (n+1) := by
  cases h with
  | red l x r _ hl hr => exact .black l x r _ _ n hl hr

-- Labels do not matter for the balance.
theorem Balanced.relabel (c c' : Color) (l : ColorTree α) (x y : α) (r : ColorTree α) (n : ℕ)
    (h : Balanced (node c l x r) c' n) : Balanced (node c l y r) c' n := by
  cases h with
  | red _ _ _ _ hl hr => exact .red l y r n hl hr
  | black _ _ _ cl cr n hl hr => exact .black l y r cl cr n hl hr

theorem Balanced.eq_nil (t : ColorTree α) (h : Balanced t .black 0) : t = .nil := by
  cases h
  rfl

end ColorTree

open ColorTree

/-- A step of a path: the node left behind, the side that the path took and the tree on the other
side. -/
structure Frame (α : Type) where
  dir : Dir
  color : Color
  val : α
  sib : ColorTree α

def Frame.fill (f : Frame α) (t : ColorTree α) : ColorTree α := branch f.dir f.color f.val t f.sib

/-- The whole tree, from a part of it and the path up from there. -/
def plug : ColorTree α → List (Frame α) → ColorTree α
  | t, [] => t
  | t, f :: p => plug (f.fill t) p

theorem plug_append (t : ColorTree α) (q p : List (Frame α)) : plug t (q ++ p) = plug (plug t q) p := by
  induction q generalizing t with
  | nil => rfl
  | cons f q ih => exact ih (f.fill t)

/-- The labels on the left of the path. -/
def before : List (Frame α) → List α
  | [] => []
  | f :: p =>
    match f.dir with
    | .left => before p
    | .right => before p ++ (f.sib.toList ++ [f.val])

def after : List (Frame α) → List α
  | [] => []
  | f :: p =>
    match f.dir with
    | .left => f.val :: f.sib.toList ++ after p
    | .right => after p

theorem toList_plug (t : ColorTree α) (p : List (Frame α)) :
    (plug t p).toList = before p ++ (t.toList ++ after p) := by
  induction p generalizing t with
  | nil => simp [plug, before, after]
  | cons f p ih =>
    rw [plug, ih]
    obtain ⟨d, c, x, s⟩ := f
    cases d <;> simp [before, after, Frame.fill, branch, toList]

theorem before_append (q p : List (Frame α)) : before (q ++ p) = before p ++ before q := by
  induction q with
  | nil => simp [before]
  | cons f q ih =>
    obtain ⟨d, c, x, s⟩ := f
    cases d <;> simp [before, ih]

theorem after_append (q p : List (Frame α)) : after (q ++ p) = after q ++ after p := by
  induction q with
  | nil => simp [after]
  | cons f q ih =>
    obtain ⟨d, c, x, s⟩ := f
    cases d <;> simp [after, ih]

theorem length_le (p : List (Frame α)) : p.length ≤ (before p).length+(after p).length := by
  induction p with
  | nil => simp [before, after]
  | cons f p ih =>
    obtain ⟨d, c, x, s⟩ := f
    cases d <;> simp only [before, after, List.length_cons, List.length_append, List.length_nil] <;>
      omega

/-- Two paths with the same labels on both sides. -/
structure SameOrder (p q : List (Frame α)) : Prop where
  before : before p = before q
  after : after p = after q

theorem SameOrder.refl (p : List (Frame α)) : SameOrder p p := ⟨rfl, rfl⟩

theorem SameOrder.trans (p q r : List (Frame α)) (h : SameOrder p q) (k : SameOrder q r) :
    SameOrder p r := ⟨h.before.trans k.before, h.after.trans k.after⟩

theorem sameOrder_sib (d : Dir) (c c' : Color) (x : α) (s u : ColorTree α) (p q : List (Frame α))
    (hs : s.toList = u.toList) (h : SameOrder p q) :
    SameOrder (⟨d, c, x, s⟩ :: p) (⟨d, c', x, u⟩ :: q) := by
  constructor
  · cases d <;> simp [RedBlack.before, hs, h.before]
  · cases d <;> simp [RedBlack.after, hs, h.after]

-- The sibling takes the place of the node above it.
theorem sameOrder_rotate (d : Dir) (c₁ c₂ c₃ c₄ : Color) (x y : α) (a b : ColorTree α)
    (p : List (Frame α)) :
    SameOrder (⟨d, c₁, x, a⟩ :: ⟨d, c₂, y, b⟩ :: p) (⟨d, c₃, x, branch d c₄ y a b⟩ :: p) := by
  constructor
  · cases d <;> simp [RedBlack.before, branch, toList]
  · cases d <;> simp [RedBlack.after, branch, toList]

theorem SameOrder.append (q q' p p' : List (Frame α)) (hq : SameOrder q q') (hp : SameOrder p p') :
    SameOrder (q ++ p) (q' ++ p') := by
  constructor
  · rw [before_append, before_append, hq.before, hp.before]
  · rw [after_append, after_append, hq.after, hp.after]

/-- A tree of this colour and black height at the end of the path makes a red-black tree with a black
root. -/
inductive Fits : List (Frame α) → Color → ℕ → Prop
  | nil (n : ℕ) : Fits [] .black n
  | red (d : Dir) (x : α) (s : ColorTree α) (p : List (Frame α)) (n : ℕ) (hs : Balanced s .black n)
    (hp : Fits p .red n) : Fits (⟨d, .red, x, s⟩ :: p) .black n
  | black (d : Dir) (x : α) (s : ColorTree α) (p : List (Frame α)) (c c' : Color) (n : ℕ)
    (hs : Balanced s c' n) (hp : Fits p .black (n+1)) : Fits (⟨d, .black, x, s⟩ :: p) c n

-- Above a red node there is a black one, so that a black node would do as well.
theorem Fits.of_red (p : List (Frame α)) (n : ℕ) (h : Fits p .red n) (c : Color) : Fits p c n := by
  cases h with
  | black d x s p _ c' _ hs hp => exact .black d x s p c c' n hs hp

-- Another black sibling, and another label.
theorem Fits.change (d : Dir) (c : Color) (x y : α) (s u : ColorTree α) (p : List (Frame α)) (n : ℕ)
    (h : Fits (⟨d, c, x, s⟩ :: p) .black n) (hu : Balanced u .black n) :
    Fits (⟨d, c, y, u⟩ :: p) .black n := by
  cases h with
  | red _ _ _ _ _ hs hp => exact .red d y u p n hu hp
  | black _ _ _ _ _ c' _ hs hp => exact .black d y u p .black .black n hu hp

theorem Fits.plug (t : ColorTree α) (p : List (Frame α)) (c : Color) (n : ℕ) (ht : Balanced t c n)
    (hp : Fits p c n) : ∃ m, Balanced (plug t p) .black m := by
  induction hp generalizing t with
  | nil n => exact ⟨n, ht⟩
  | red d x s p n hs hp ih => exact ih _ (balanced_red d x t s n ht hs)
  | black d x s p c c' n hs hp ih => exact ih _ (balanced_black d x t s c c' n ht hs)

-- The path to a part of a red-black tree.
theorem fits_of_plug (t : ColorTree α) (p : List (Frame α)) (m : ℕ)
    (h : Balanced (RedBlack.plug t p) .black m) : ∃ c n, Balanced t c n ∧ Fits p c n := by
  induction p generalizing t with
  | nil => exact ⟨.black, m, h, .nil m⟩
  | cons f p ih =>
    obtain ⟨c, n, hb, hfits⟩ := ih (f.fill t) h
    obtain ⟨d, fc, x, s⟩ := f
    cases d with
    | left =>
      cases hb with
      | red _ _ _ _ hl hr => exact ⟨_, _, hl, .red _ x s p n hr hfits⟩
      | black _ _ _ c c' n hl hr => exact ⟨_, _, hl, .black _ x s p c c' n hr hfits⟩
    | right =>
      cases hb with
      | red _ _ _ _ hl hr => exact ⟨_, _, hr, .red _ x s p n hl hfits⟩
      | black _ _ _ c c' n hl hr => exact ⟨_, _, hr, .black _ x s p c' c n hl hfits⟩

end Leviathan.RedBlack
