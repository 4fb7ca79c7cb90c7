import Leviathan.RBTreeHeap
import Leviathan.SortedKeys

/-! The loops that go down the tree: where they stop, as a path to a part of the tree. -/
namespace Leviathan.RBTree
open RedBlack ColorTree Cells SortedKeys

variable {K V : Type}

theorem maximumLoop_spec (t : Rbtree K V) (m : Multiset (ℕ × RbtreeNode K V))
    (T : ColorTree (Entry K V)) (p : List (Frame (Entry K V))) (h : Rep t T p m) (hT : T ≠ .nil)
    (fuel : ℕ) (hfuel : T.toList.length ≤ fuel) :
    ∃ c l y q, plug (node c l y .nil) q = T ∧ after q = [] ∧
      t.maximumLoop fuel (ptr T) = .ok (some y.addr) := by
  induction T generalizing p fuel with
  | nil => exact absurd rfl hT
  | node c l x r ihl ihr =>
    have hderef := deref_branch t p m .left c x l r h
    simp only [toList, List.length_append, List.length_cons] at hfuel
    obtain ⟨fuel, rfl⟩ : ∃ f, fuel = f+1 := ⟨fuel-1, by omega⟩
    simp only [Rbtree.maximumLoop, ptr_node, hderef, ok_bind, link]
    by_cases hr : r = .nil
    · subst hr
      exact ⟨c, l, x, [], rfl, rfl, rfl⟩
    · have hne : ptr r ≠ none := fun hptr => hr (ptr_eq_none r hptr)
      obtain ⟨c', l', y, q, hplug, hafter, hloop⟩ := ihr (⟨.right, c, x, l⟩ :: p)
        ((rep_fill _ _ _ _ _).mpr h) hr fuel (by omega)
      refine ⟨c', l', y, q ++ [⟨.right, c, x, l⟩], ?_, ?_, ?_⟩
      · rw [plug_append, hplug]
        rfl
      · rw [after_append, hafter]
        rfl
      · rw [if_pos hne]
        exact hloop

section Linked

variable (m : Multiset (ℕ × RbtreeNode K V)) (n : ℕ) (new : RbtreeNode K V)

/-- The new node hangs at the end of the path, but does not know its parent yet. -/
structure Linked (t : Rbtree K V) (p : List (Frame (Entry K V))) : Prop where
  root : t.root = top (some n) p
  owns : Owns t.mem ({(n, new)}+pathCells (some n) p+m)

theorem setChild_linked (t : Rbtree K V) (d : Dir) (c : Color) (x : Entry K V)
    (r : ColorTree (Entry K V)) (p : List (Frame (Entry K V)))
    (h : Rep t (branch d c x .nil r) p ({(n, new)}+m)) :
    Gives (t.setChild (some x.addr) d (some n)) (fun t' => Linked m n new t' (⟨d, c, x, r⟩ :: p)) := by
  have howns := h.owns
  have hroot := h.root
  rw [cells_branch, ptr_branch] at howns
  rw [ptr_branch] at hroot
  have hset := t.assign_owned _ ({(n, new)}+pathCells (some n) (⟨d, c, x, r⟩ :: p)+m) howns x.addr
    (link d c x none (ptr r) (up p)) (fun x => x.setChild (some n) d) (by simp [ptr]) (by
      rw [(setChild_link d c x _ _ _ _).1, cells, ptr, pathCells]
      abel)
  apply hset.mono
  rintro t' ⟨hroot', h'⟩
  exact ⟨hroot'.trans hroot, h'⟩

end Linked

variable [LinearOrder K]

/-- `compare` decides a total order of the keys. -/
structure Compares (compare : K → K → ℤ) : Prop where
  neg : ∀ a b, compare a b < 0 ↔ a < b
  zero : ∀ a b, compare a b = 0 ↔ a = b

theorem Compares.pos (compare : K → K → ℤ) (h : Compares compare) (a b : K) (hzero : ¬compare a b = 0)
    (hneg : ¬compare a b < 0) : compare a b > 0 ∧ b < a := by
  refine ⟨by omega, ?_⟩
  rw [h.neg] at hneg
  rw [h.zero] at hzero
  exact lt_of_le_of_ne (not_lt.mp hneg) (Ne.symm hzero)

section Sides

variable (c : Color) (l : ColorTree (Entry K V)) (x : Entry K V) (r : ColorTree (Entry K V))
  (h : SortedBy Entry.key (node c l x r).toList) (key : K)

include h

theorem sorted_left : SortedBy Entry.key l.toList :=
  h.sublist _ _ _ (List.sublist_append_left _ _)

theorem sorted_right : SortedBy Entry.key r.toList :=
  h.sublist _ _ _ ((List.sublist_cons_self _ _).trans (List.sublist_append_right _ _))

-- What is left behind on the way to a smaller key is greater than the key.
theorem around_left (hkey : key < x.key) :
    Around Entry.key key (before [⟨.left, c, x, r⟩]) (after [⟨.left, c, x, r⟩]) := by
  have haround := h.around _ _ _ x
  refine ⟨by simp [before], ?_⟩
  intro y hy
  simp only [after, List.append_nil, List.mem_cons] at hy
  rcases hy with rfl | hy
  · exact hkey
  · exact hkey.trans (haround.gt y hy)

theorem around_right (hkey : x.key < key) :
    Around Entry.key key (before [⟨.right, c, x, l⟩]) (after [⟨.right, c, x, l⟩]) := by
  have haround := h.around _ _ _ x
  refine ⟨?_, by simp [after]⟩
  intro y hy
  simp only [before, List.nil_append, List.mem_append, List.mem_singleton] at hy
  rcases hy with hy | rfl
  · exact (haround.lt y hy).trans hkey
  · exact hkey

end Sides

section Lookup

variable (t : Rbtree K V) (m : Multiset (ℕ × RbtreeNode K V)) (compare : K → K → ℤ)
  (hc : Compares compare) (key : K)

/-- The loop finds the node with the key, or there is none. -/
def Finds (fuel : ℕ) (T : ColorTree (Entry K V)) : Prop :=
  (∃ c l x r q, plug (node c l x r) q = T ∧ x.key = key ∧
    t.lookupLoop compare key fuel (ptr T) = .ok (some x.addr)) ∨
  ((∀ x ∈ T.toList, x.key ≠ key) ∧ t.lookupLoop compare key fuel (ptr T) = .ok none)

-- One step down, on side `d`.
theorem finds_step (fuel : ℕ) (d : Dir) (c : Color) (x : Entry K V) (a b : ColorTree (Entry K V))
    (hside : Around Entry.key key (before [⟨d, c, x, b⟩]) (after [⟨d, c, x, b⟩]))
    (hloop : t.lookupLoop compare key (fuel+1) (some x.addr) = t.lookupLoop compare key fuel (ptr a))
    (ih : Finds t compare key fuel a) : Finds t compare key (fuel+1) (branch d c x a b) := by
  rcases ih with ⟨c', l, y, r, q, hplug, hy, hrec⟩ | ⟨hnone, hrec⟩
  · refine Or.inl ⟨c', l, y, r, q ++ [⟨d, c, x, b⟩], ?_, hy, ?_⟩
    · rw [plug_append, hplug]
      rfl
    · rw [ptr_branch, hloop, hrec]
  · refine Or.inr ⟨?_, ?_⟩
    · have hlist : (branch d c x a b).toList = _ := toList_plug a [⟨d, c, x, b⟩]
      intro y hy
      rw [hlist, List.mem_append, List.mem_append] at hy
      rcases hy with hy | hy | hy
      · exact (hside.lt y hy).ne
      · exact hnone y hy
      · exact (hside.gt y hy).ne'
    · rw [ptr_branch, hloop, hrec]

include hc

theorem lookupLoop_spec (T : ColorTree (Entry K V)) (p : List (Frame (Entry K V))) (h : Rep t T p m)
    (hs : SortedBy Entry.key T.toList) (fuel : ℕ) (hfuel : T.toList.length < fuel) :
    Finds t compare key fuel T := by
  induction T generalizing p fuel with
  | nil =>
    obtain ⟨fuel, rfl⟩ : ∃ f, fuel = f+1 := ⟨fuel-1, by omega⟩
    exact Or.inr ⟨by simp [toList], rfl⟩
  | node c l x r ihl ihr =>
    have hderef := deref_branch t p m .left c x l r h
    simp only [toList, List.length_append, List.length_cons] at hfuel
    obtain ⟨fuel, rfl⟩ : ∃ f, fuel = f+1 := ⟨fuel-1, by omega⟩
    by_cases hzero : compare key x.key = 0
    · refine Or.inl ⟨c, l, x, r, [], rfl, ((hc.zero _ _).mp hzero).symm, ?_⟩
      simp only [Rbtree.lookupLoop, ptr_node, hderef, ok_bind, link, hzero, if_true, reduceCtorEq,
        if_false]
      rfl
    · by_cases hneg : compare key x.key < 0
      · have hlt := (hc.neg _ _).mp hneg
        apply finds_step t compare key fuel .left c x l r (around_left c l x r hs key hlt)
        · simp only [Rbtree.lookupLoop, hderef, ok_bind, link, hzero, hneg, if_true, reduceCtorEq,
            if_false]
        · exact ihl (⟨.left, c, x, r⟩ :: p) ((rep_fill _ _ _ _ _).mpr h) (sorted_left c l x r hs) fuel
            (by omega)
      · obtain ⟨hpos, hgt⟩ := hc.pos compare key x.key hzero hneg
        apply finds_step t compare key fuel .right c x r l (around_right c l x r hs key hgt)
        · simp only [Rbtree.lookupLoop, hderef, ok_bind, link, hzero, hneg, hpos, assert, if_true,
            reduceCtorEq, if_false]
        · exact ihr (⟨.right, c, x, l⟩ :: p) ((rep_fill _ _ _ _ _).mpr h) (sorted_right c l x r hs) fuel
            (by omega)

end Lookup

section Insert

variable (m : Multiset (ℕ × RbtreeNode K V)) (compare : K → K → ℤ) (hc : Compares compare)
  (n : ℕ) (new : RbtreeNode K V)

/-- The loop of the insertion stops at the node with the key, whose value it replaces, or at the place
where the key belongs. -/
def Stops (t : Rbtree K V) (fuel : ℕ) (T : ColorTree (Entry K V)) (p : List (Frame (Entry K V))) :
    Prop :=
  (∃ c l x r q t', plug (node c l x r) q = T ∧ x.key = new.key ∧
    Rbtree.insertLoop compare (some n) fuel t (ptr T) = .ok (t', none) ∧
    Rep t' (node c l { x with value := new.value } r) (q ++ p) ({(n, new)}+m)) ∨
  (∃ f q t', plug .nil (f :: q) = T ∧ Around Entry.key new.key (before (f :: q)) (after (f :: q)) ∧
    Rbtree.insertLoop compare (some n) fuel t (ptr T) = .ok (t', some (some f.val.addr)) ∧
    Linked m n new t' (f :: (q ++ p)))

-- One step down, on side `d`.
theorem stops_step (t : Rbtree K V) (fuel : ℕ) (d : Dir) (c : Color) (x : Entry K V)
    (a b : ColorTree (Entry K V)) (p : List (Frame (Entry K V)))
    (h : Rep t (branch d c x a b) p ({(n, new)}+m))
    (hside : Around Entry.key new.key (before [⟨d, c, x, b⟩]) (after [⟨d, c, x, b⟩]))
    (hloop : Rbtree.insertLoop compare (some n) (fuel+1) t (some x.addr) =
      if ptr a = none then do
        let t ← t.setChild (some x.addr) d (some n)
        return (t, some (some x.addr))
      else Rbtree.insertLoop compare (some n) fuel t (ptr a))
    (ih : a ≠ .nil → Stops m compare n new t fuel a (⟨d, c, x, b⟩ :: p)) :
    Stops m compare n new t (fuel+1) (branch d c x a b) p := by
  by_cases ha : a = .nil
  · subst ha
    obtain ⟨t', ht', hlinked⟩ := setChild_linked m n new t d c x b p h
    refine Or.inr ⟨⟨d, c, x, b⟩, [], t', rfl, hside, ?_, hlinked⟩
    rw [ptr_branch, hloop, ptr, if_pos rfl, ht', ok_bind]
    rfl
  · have hne : ¬ptr a = none := fun hptr => ha (ptr_eq_none a hptr)
    rw [if_neg hne] at hloop
    rcases ih ha with ⟨c', l, y, r, q, t', hplug, hy, hrec, hrep⟩ |
      ⟨f, q, t', hplug, haround, hrec, hlinked⟩
    · refine Or.inl ⟨c', l, y, r, q ++ [⟨d, c, x, b⟩], t', ?_, hy, ?_, ?_⟩
      · rw [plug_append, hplug]
        rfl
      · rw [ptr_branch, hloop, hrec]
      · rw [List.append_assoc]
        exact hrep
    · refine Or.inr ⟨f, q ++ [⟨d, c, x, b⟩], t', ?_, ?_, ?_, ?_⟩
      · rw [← List.cons_append, plug_append, hplug]
        rfl
      · rw [← List.cons_append, before_append, after_append]
        exact haround.append _ _ _ _ _ _ hside
      · rw [ptr_branch, hloop, hrec]
      · rw [List.append_assoc]
        exact hlinked

include hc

theorem insertLoop_spec (t : Rbtree K V) (T : ColorTree (Entry K V)) (p : List (Frame (Entry K V)))
    (h : Rep t T p ({(n, new)}+m)) (hT : T ≠ .nil) (hs : SortedBy Entry.key T.toList) (fuel : ℕ)
    (hfuel : T.toList.length ≤ fuel) : Stops m compare n new t fuel T p := by
  induction T generalizing p fuel with
  | nil => exact absurd rfl hT
  | node c l x r ihl ihr =>
    have hderef := deref_branch t p _ .left c x l r h
    have hnew := t.deref_owned _ h.owns n new (by simp)
    simp only [toList, List.length_append, List.length_cons] at hfuel
    obtain ⟨fuel, rfl⟩ : ∃ f, fuel = f+1 := ⟨fuel-1, by omega⟩
    by_cases hzero : compare new.key x.key = 0
    · have hset := assign_focus t p _ c l x { x with value := new.value } r
        (fun y => { y with value := new.value }) h rfl rfl
      obtain ⟨t', ht', hrep⟩ := hset
      refine Or.inl ⟨c, l, x, r, [], t', rfl, ((hc.zero _ _).mp hzero).symm, ?_, hrep⟩
      simp only [Rbtree.insertLoop, ptr_node, hderef, hnew, ok_bind, link, hzero, if_true]
      rw [ht']
      rfl
    · by_cases hneg : compare new.key x.key < 0
      · have hlt := (hc.neg _ _).mp hneg
        apply stops_step m compare n new t fuel .left c x l r p h
        · exact around_left c l x r hs new.key hlt
        · simp only [Rbtree.insertLoop, hderef, hnew, ok_bind, link, hzero, hneg, if_true, if_false]
        · intro hl
          exact ihl (⟨.left, c, x, r⟩ :: p) ((rep_fill _ _ _ _ _).mpr h) hl (sorted_left c l x r hs) fuel
            (by omega)
      · obtain ⟨hpos, hgt⟩ := hc.pos compare new.key x.key hzero hneg
        apply stops_step m compare n new t fuel .right c x r l p h
        · exact around_right c l x r hs new.key hgt
        · simp only [Rbtree.insertLoop, hderef, hnew, ok_bind, link, hzero, hneg, hpos, assert, if_true,
            if_false]
        · intro hr
          exact ihr (⟨.right, c, x, l⟩ :: p) ((rep_fill _ _ _ _ _).mpr h) hr (sorted_right c l x r hs) fuel
            (by omega)

end Insert

end Leviathan.RBTree
