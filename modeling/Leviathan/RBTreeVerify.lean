import Leviathan.RBTreeHeap

/-! What the verification at the end of an operation finds. -/
namespace Leviathan.RBTree
open RedBlack ColorTree Cells

variable {K V : Type} (t : Rbtree K V) (M : Multiset (ℕ × RbtreeNode K V)) (h : Owns t.mem M)

theorem cells_left_le (q : Ptr) (c : Color) (l : ColorTree (Entry K V)) (x : Entry K V)
    (r : ColorTree (Entry K V)) : cells (some x.addr) l ≤ cells q (.node c l x r) := by
  rw [cells, add_left_comm]
  exact Multiset.le_add_right _ _

theorem cells_right_le (q : Ptr) (c : Color) (l : ColorTree (Entry K V)) (x : Entry K V)
    (r : ColorTree (Entry K V)) : cells (some x.addr) r ≤ cells q (.node c l x r) := by
  rw [cells, ← add_assoc]
  exact Multiset.le_add_left _ _

include h

theorem deref_node (q : Ptr) (c : Color) (l : ColorTree (Entry K V)) (x : Entry K V)
    (r : ColorTree (Entry K V)) (hT : cells q (.node c l x r) ≤ M) :
    t.deref (some x.addr) = .ok (link .left c x (ptr l) (ptr r) q) := by
  apply t.deref_owned M h
  apply Multiset.mem_of_le hT
  simp [cells]

theorem verifyProperty1_ok (T : ColorTree (Entry K V)) (q : Ptr) (fuel : ℕ) (hT : cells q T ≤ M)
    (hfuel : T.toList.length < fuel) : t.verifyProperty1 fuel (ptr T) = .ok () := by
  induction T generalizing q fuel with
  | nil =>
    obtain ⟨fuel, rfl⟩ := Nat.exists_eq_add_of_lt hfuel
    rfl
  | node c l x r ihl ihr =>
    obtain ⟨fuel, rfl⟩ : ∃ f, fuel = f+1 := ⟨fuel-1, by omega⟩
    simp only [toList, List.length_append, List.length_cons] at hfuel
    have hcolor := t.nodeColor_owned _ q M h hT
    have hderef := deref_node t M h q c l x r hT
    have hl := ihl (some x.addr) fuel ((cells_left_le q c l x r).trans hT) (by omega)
    have hr := ihr (some x.addr) fuel ((cells_right_le q c l x r).trans hT) (by omega)
    have hassert : assert ((node c l x r).color = .red ∨ (node c l x r).color = .black) = .ok () := by
      cases c <;> rfl
    rw [ptr] at hcolor ⊢
    simp only [Rbtree.verifyProperty1, hcolor, hderef, hassert, ok_bind, reduceCtorEq, if_false]
    simp only [link, hl, hr, ok_bind]

/-- A red node needs a black parent, which for the root is NULL. -/
theorem verifyProperty4_ok (T : ColorTree (Entry K V)) (q : Ptr) (fuel k : ℕ) (c : Color)
    (hT : cells q T ≤ M) (hfuel : T.toList.length < fuel) (hb : Balanced T c k)
    (hq : c = .red → t.nodeColor q = .ok .black) : t.verifyProperty4 fuel (ptr T) = .ok () := by
  induction hb generalizing q fuel with
  | nil =>
    obtain ⟨fuel, rfl⟩ := Nat.exists_eq_add_of_lt hfuel
    rfl
  | red l x r k hl hr ihl ihr =>
    obtain ⟨fuel, rfl⟩ : ∃ f, fuel = f+1 := ⟨fuel-1, by omega⟩
    simp only [toList, List.length_append, List.length_cons] at hfuel
    have hcolor := t.nodeColor_owned _ q M h hT
    have hderef := deref_node t M h q .red l x r hT
    have hTl := (cells_left_le q .red l x r).trans hT
    have hTr := (cells_right_le q .red l x r).trans hT
    have hcl := t.nodeColor_owned l _ M h hTl
    have hcr := t.nodeColor_owned r _ M h hTr
    have hvl := ihl (some x.addr) fuel hTl (by omega) (by simp)
    have hvr := ihr (some x.addr) fuel hTr (by omega) (by simp)
    rw [hl.color_eq] at hcl
    rw [hr.color_eq] at hcr
    rw [ptr] at hcolor ⊢
    simp only [Rbtree.verifyProperty4, hcolor, hderef, ok_bind, ColorTree.color, if_true]
    simp only [link, hcl, hcr, hq rfl, assert, ok_bind, hvl, hvr, if_true, reduceCtorEq, if_false]
  | black l x r cl cr k hl hr ihl ihr =>
    obtain ⟨fuel, rfl⟩ : ∃ f, fuel = f+1 := ⟨fuel-1, by omega⟩
    simp only [toList, List.length_append, List.length_cons] at hfuel
    have hcolor := t.nodeColor_owned _ q M h hT
    have hderef := deref_node t M h q .black l x r hT
    have hvl := ihl (some x.addr) fuel ((cells_left_le q .black l x r).trans hT) (by omega)
      (fun _ => hcolor)
    have hvr := ihr (some x.addr) fuel ((cells_right_le q .black l x r).trans hT) (by omega)
      (fun _ => hcolor)
    rw [ptr] at hcolor ⊢
    simp only [Rbtree.verifyProperty4, hcolor, hderef, ok_bind, ColorTree.color, reduceCtorEq, if_false]
    simp only [link, hvl, hvr, ok_bind]

/-- Every path ends with the same count, the final NULL included. -/
theorem verifyProperty5Helper_ok (T : ColorTree (Entry K V)) (q : Ptr) (fuel k : ℕ) (c : Color)
    (b path : ℤ) (hT : cells q T ≤ M) (hfuel : T.toList.length < fuel) (hb : Balanced T c k)
    (hpath : path = -1 ∨ path = b+k+1) :
    t.verifyProperty5Helper fuel (ptr T) b path = .ok (b+k+1) := by
  induction hb generalizing q fuel b path with
  | nil =>
    obtain ⟨fuel, rfl⟩ := Nat.exists_eq_add_of_lt hfuel
    rcases hpath with rfl | rfl
    · simp [Rbtree.verifyProperty5Helper, ptr, Rbtree.nodeColor, ok_bind, pure, Except.pure]
    · by_cases hb : b+1 = -1
      · simp [Rbtree.verifyProperty5Helper, ptr, Rbtree.nodeColor, ok_bind, pure, Except.pure, hb]
      · simp [Rbtree.verifyProperty5Helper, ptr, Rbtree.nodeColor, ok_bind, pure, Except.pure, hb,
          assert]
  | red l x r k hl hr ihl ihr =>
    obtain ⟨fuel, rfl⟩ : ∃ f, fuel = f+1 := ⟨fuel-1, by omega⟩
    simp only [toList, List.length_append, List.length_cons] at hfuel
    have hcolor := t.nodeColor_owned _ q M h hT
    have hderef := deref_node t M h q .red l x r hT
    have hvl := ihl (some x.addr) fuel b path ((cells_left_le q .red l x r).trans hT) (by omega) hpath
    have hvr := ihr (some x.addr) fuel b (b+k+1) ((cells_right_le q .red l x r).trans hT) (by omega)
      (Or.inr rfl)
    rw [ptr] at hcolor ⊢
    simp only [Rbtree.verifyProperty5Helper, hcolor, hderef, ok_bind, ColorTree.color, reduceCtorEq,
      if_false]
    simp only [link, hvl, hvr, ok_bind]
  | black l x r cl cr k hl hr ihl ihr =>
    obtain ⟨fuel, rfl⟩ : ∃ f, fuel = f+1 := ⟨fuel-1, by omega⟩
    simp only [toList, List.length_append, List.length_cons] at hfuel
    have hcolor := t.nodeColor_owned _ q M h hT
    have hderef := deref_node t M h q .black l x r hT
    have hsum : b+1+(k : ℤ)+1 = b+((k+1 : ℕ) : ℤ)+1 := by
      push_cast
      ring
    have hvl := ihl (some x.addr) fuel (b+1) path ((cells_left_le q .black l x r).trans hT) (by omega)
      (hsum ▸ hpath)
    have hvr := ihr (some x.addr) fuel (b+1) (b+1+k+1) ((cells_right_le q .black l x r).trans hT)
      (by omega) (Or.inr rfl)
    rw [ptr] at hcolor ⊢
    simp only [Rbtree.verifyProperty5Helper, hcolor, hderef, ok_bind, ColorTree.color, reduceCtorEq,
      if_false, if_true]
    simp only [link, hvl, hvr, ok_bind]
    rw [hsum]

omit h

theorem verifyProperties_ok (T : ColorTree (Entry K V)) (m : Multiset (ℕ × RbtreeNode K V)) (fuel k : ℕ)
    (h : Rep t T [] m) (hfuel : T.toList.length < fuel) (hb : Balanced T .black k) :
    t.verifyProperties fuel = .ok () := by
  obtain ⟨hroot, howns⟩ := (rep_nil t T m).mp h
  have hT : cells none T ≤ cells none T+m := Multiset.le_add_right _ _
  have h1 := verifyProperty1_ok t _ howns T none fuel hT hfuel
  have h2 := t.nodeColor_owned T none _ howns hT
  have h4 := verifyProperty4_ok t _ howns T none fuel k .black hT hfuel hb (by simp)
  have h5 := verifyProperty5Helper_ok t _ howns T none fuel k .black 0 (-1) hT hfuel hb (Or.inl rfl)
  rw [hb.color_eq] at h2
  simp only [Rbtree.verifyProperties, Rbtree.verifyProperty2, Rbtree.verifyProperty5, hroot, h1, h2, h4,
    h5, ok_bind, assert, if_true]
  rfl

theorem verifyProperties_red (T : ColorTree (Entry K V)) (m : Multiset (ℕ × RbtreeNode K V)) (fuel : ℕ)
    (h : Rep t T [] m) (hfuel : T.toList.length < fuel) (hc : T.color = .red) :
    t.verifyProperties fuel = .error .assertFailed := by
  obtain ⟨hroot, howns⟩ := (rep_nil t T m).mp h
  have hT : cells none T ≤ cells none T+m := Multiset.le_add_right _ _
  have h1 := verifyProperty1_ok t _ howns T none fuel hT hfuel
  have h2 := t.nodeColor_owned T none _ howns hT
  rw [hc] at h2
  simp only [Rbtree.verifyProperties, Rbtree.verifyProperty2, hroot, h1, h2, ok_bind]
  rfl

end Leviathan.RBTree
