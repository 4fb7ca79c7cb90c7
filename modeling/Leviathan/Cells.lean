import Mathlib.Data.Multiset.UnionInter
import Mathlib.Tactic

/-! Ownership of the cells of a memory.  Cells are kept in a multiset, so that a structure may be cut into
parts in any way; owning them means that no two share an address and that the memory holds each. -/
namespace Leviathan.Cells

variable {A N : Type*}

structure Owns (mem : A → Option N) (m : Multiset (A × N)) : Prop where
  nodup : (m.map Prod.fst).Nodup
  holds : ∀ x ∈ m, mem x.1 = some x.2

section Read

variable {mem : A → Option N} {m : Multiset (A × N)}

theorem Owns.read (h : Owns mem m) (a : A) (x : N) (hx : (a, x) ∈ m) : mem a = some x :=
  h.holds (a, x) hx

theorem Owns.of_le (h : Owns mem m) (k : Multiset (A × N)) (hk : k ≤ m) : Owns mem k := by
  constructor
  · exact Multiset.nodup_of_le (Multiset.map_le_map hk) h.nodup
  · intro x hx
    exact h.holds x (Multiset.mem_of_le hk hx)

-- Two parts of what is owned have no address in common.
theorem Owns.disjoint (h : Owns mem m) (k l : Multiset (A × N)) (hkl : k+l ≤ m) (a : A) (x y : N)
    (hx : (a, x) ∈ k) (hy : (a, y) ∈ l) : False := by
  have hnodup := (h.of_le _ hkl).nodup
  rw [Multiset.map_add, Multiset.nodup_add] at hnodup
  have hxa : a ∈ k.map Prod.fst := Multiset.mem_map.mpr ⟨(a, x), hx, rfl⟩
  have hya : a ∈ l.map Prod.fst := Multiset.mem_map.mpr ⟨(a, y), hy, rfl⟩
  exact Multiset.disjoint_left.mp hnodup.2.2 hxa hya

end Read

section Write

variable [DecidableEq A] {mem : A → Option N} {m : Multiset (A × N)}

theorem Owns.frame (h : Owns mem m) (a : A) (x : Option N) (ha : a ∉ m.map Prod.fst) :
    Owns (Function.update mem a x) m := by
  refine ⟨h.nodup, ?_⟩
  intro y hy
  rw [Function.update_of_ne]
  · exact h.holds y hy
  · intro he
    exact ha (he ▸ Multiset.mem_map_of_mem Prod.fst hy)

theorem Owns.free (h : Owns mem m) (a : A) (x : N) (k : Multiset (A × N)) (hm : m = {(a, x)}+k) :
    Owns (Function.update mem a none) k := by
  subst hm
  have hk : Owns mem k := h.of_le k (Multiset.le_add_left _ _)
  apply hk.frame
  intro ha
  obtain ⟨⟨b, y⟩, hy, hb⟩ := Multiset.mem_map.mp ha
  dsimp only at hb
  subst hb
  exact h.disjoint {(b, x)} k le_rfl b x y (Multiset.mem_singleton_self _) hy

theorem Owns.alloc (h : Owns mem m) (a : A) (x : N) (ha : a ∉ m.map Prod.fst) :
    Owns (Function.update mem a (some x)) ({(a, x)}+m) := by
  have hframe := h.frame a (some x) ha
  constructor
  · rw [Multiset.singleton_add, Multiset.map_cons, Multiset.nodup_cons]
    exact ⟨ha, h.nodup⟩
  · intro y hy
    rcases Multiset.mem_add.mp hy with hy | hy
    · rw [Multiset.mem_singleton.mp hy, Function.update_self]
    · exact hframe.holds y hy

/-- A write to an owned cell.  What is owned afterwards is stated without subtraction, so that a caller
proves the equation by cancellation. -/
theorem Owns.write (h : Owns mem m) (a : A) (x y : N) (k : Multiset (A × N)) (hx : (a, x) ∈ m)
    (hk : k+{(a, x)} = m+{(a, y)}) : Owns (Function.update mem a (some y)) k := by
  obtain ⟨r, hr⟩ := Multiset.exists_cons_of_mem hx
  have hm : m = {(a, x)}+r := by
    rw [hr, Multiset.singleton_add]
  have hky : k = {(a, y)}+r := by
    apply add_right_cancel (b := {(a, x)})
    rw [hk, hm]
    abel
  have hfree := h.free a x r hm
  have ha : a ∉ r.map Prod.fst := by
    have hnodup := h.nodup
    rw [hr, Multiset.map_cons, Multiset.nodup_cons] at hnodup
    exact hnodup.1
  have halloc := hfree.alloc a y ha
  rwa [Function.update_idem, ← hky] at halloc

end Write

end Leviathan.Cells
