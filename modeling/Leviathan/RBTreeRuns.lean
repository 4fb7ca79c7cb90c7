import Leviathan.RBTreeErase
import Leviathan.Simulation

/-! Whole runs of the tree against the map that it stands for.  A deletion is asked for unless the map
has just two keys and this is one of them, so that the case in which the root turns red is not met. -/
namespace Leviathan.RBTree
open RedBlack ColorTree Cells SortedKeys

variable {K V : Type}

-- A root with one child is the whole tree but for that child.
theorem RootWithOneChild.length (key : K) (T : ColorTree (Entry K V)) (h : RootWithOneChild key T)
    (k : ℕ) (hb : Balanced T .black k) : T.toList.length = 2 := by
  have hchild (S : ColorTree (Entry K V)) (c : Color) (hS : S ≠ .nil) (hbS : Balanced S c 0) :
      S.toList.length = 1 := by
    cases hbS with
    | nil => exact absurd rfl hS
    | red l x r _ hl hr =>
      rw [hl.eq_nil, hr.eq_nil]
      rfl
  cases hb with
  | nil => cases h
  | black l x r c c' n hl hr =>
    rcases ((rootWithOneChild_iff key _ l x r).mp h).2 with ⟨rfl, hne⟩ | ⟨hne, rfl⟩
    · cases hl
      simp [toList, hchild r c' hne hr]
    · cases hr
      simp [toList, hchild l c hne hl]

variable [LinearOrder K]

inductive Op (K V : Type)
  | insert (n : ℕ) (k : K) (v : Option V)
  | delete (k : K)
  | lookup (k : K)

/-- One call, with its answer; NULL for those that have none. -/
def step (compare : K → K → ℤ) (fuel : ℕ) (t : Rbtree K V) :
    Op K V → Except RBFault (Rbtree K V × Option V)
  | .insert n k v => do
    let t ← t.newNode k v (some n) .red none none
    let t ← t.rbtreeInsert compare fuel (some n)
    return (t, none)
  | .delete k => do
    let t ← t.rbtreeDelete compare fuel k
    return (t, none)
  | .lookup k => do
    let v ← t.rbtreeLookup compare fuel k
    return (t, v)

/-- The map, and the nodes that may still be inserted. -/
structure TreeMap (K V : Type) where
  entries : List (K × Option V)
  free : List ℕ

def mapStep (a : TreeMap K V) : Op K V → TreeMap K V × Option V
  | .insert n k v => (⟨updated a.entries k v, a.free.filter (fun i => i ≠ n)⟩, none)
  | .delete k => (⟨a.entries.filter (fun e => e.1 ≠ k), a.free⟩, none)
  | .lookup k => (a, valueOf a.entries k)

/-- What a caller keeps to; the fuel is enough for the number of keys. -/
def Allowed (fuel : ℕ) (a : TreeMap K V) (op : Op K V) : Prop :=
  a.entries.length+1 < fuel ∧
  match op with
  | .insert n _ _ => n ∈ a.free
  | .delete k => a.entries.length = 2 → ∀ e ∈ a.entries, e.1 ≠ k
  | .lookup _ => True

structure Stands (t : Rbtree K V) (a : TreeMap K V) : Prop where
  valid : ∃ T m, Valid t T m ∧ contents T = a.entries ∧ ∀ n ∈ a.free, ∃ x, (n, x) ∈ m

theorem step_simulates (compare : K → K → ℤ) (hc : Compares compare) (fuel : ℕ) (t : Rbtree K V)
    (a : TreeMap K V) (op : Op K V) (h : Stands t a) (hop : Allowed fuel a op) :
    ∃ t' v, step compare fuel t op = .ok (t', v) ∧ Stands t' (mapStep a op).1 ∧
      (mapStep a op).2 = v := by
  obtain ⟨T, m, hvalid, hentries, hfree⟩ := h.valid
  obtain ⟨hfuel, hop⟩ := hop
  have hlen : T.toList.length+1 < fuel := by
    rw [← hentries, contents, List.length_map] at hfuel
    exact hfuel
  cases op with
  | insert n k v =>
    obtain ⟨x, hx⟩ := hfree n hop
    obtain ⟨m₁, rfl⟩ := Multiset.exists_cons_of_mem hx
    rw [← Multiset.singleton_add] at hvalid
    obtain ⟨t', hrun, T', m', hvalid', hm, hcontents⟩ :=
      insertFresh_spec t T m₁ compare hc fuel n k v x hvalid hlen
    obtain ⟨t₁, ht₁, hinsert⟩ := (bind_eq_ok _ _ _).mp hrun
    refine ⟨t', none, ?_, ⟨T', m', hvalid', ?_, ?_⟩, rfl⟩
    · rw [step, ht₁, ok_bind, hinsert]
      rfl
    · rw [hcontents, hentries]
      rfl
    · intro i hi
      obtain ⟨hi, hne⟩ := List.mem_filter.mp hi
      obtain ⟨y, hy⟩ := hfree i hi
      rcases Multiset.mem_cons.mp hy with hy | hy
      · cases hy
        simp at hne
      · exact ⟨y, Multiset.mem_of_le hm hy⟩
  | delete k =>
    obtain ⟨j, hbal⟩ := hvalid.balanced
    have hnot : ¬RootWithOneChild k T := by
      intro hroot
      obtain ⟨x, hx, hkey⟩ := hroot.mem k T
      have htwo := hroot.length k T j hbal
      have hmem : pair x ∈ a.entries := by
        rw [← hentries]
        exact List.mem_map_of_mem hx
      apply hop _ (pair x) hmem hkey
      rw [← hentries, contents, List.length_map, htwo]
    obtain ⟨t', hrun, T', hvalid', hcontents, -⟩ :=
      rbtreeDelete_spec t T m compare hc fuel k hvalid (by omega) hnot
    refine ⟨t', none, ?_, ⟨T', m, hvalid', ?_, hfree⟩, rfl⟩
    · rw [step, hrun]
      rfl
    · rw [hcontents, hentries]
      rfl
  | lookup k =>
    refine ⟨t, valueOf a.entries k, ?_, h, rfl⟩
    rw [step, rbtreeLookup_spec t T m compare hc fuel hvalid (by omega), hentries]
    rfl

/-- Every run of allowed calls goes through without a failing assertion or a bad pointer, and answers as
the map does. -/
theorem runs_as_map (compare : K → K → ℤ) (hc : Compares compare) (fuel : ℕ) (t : Rbtree K V)
    (a : TreeMap K V) (ops : List (Op K V)) (h : Stands t a)
    (hops : Simulation.Guarded mapStep (Allowed fuel) a ops) :
    ∃ t' vs, Simulation.run (step compare fuel) t ops = .ok (t', vs) ∧
      Stands t' (Simulation.absRun mapStep a ops).1 ∧ (Simulation.absRun mapStep a ops).2 = vs := by
  obtain ⟨t', vs, hrun, hstands, hanswers⟩ :=
    Simulation.run_simulates (step_simulates compare hc fuel) t a ops h hops
  exact ⟨t', vs, hrun, hstands, List.forall₂_eq_eq_eq ▸ hanswers⟩

-- The empty tree that `rbtree_create` gives, with the nodes in memory.
theorem rbtreeCreate_stands (mem : ℕ → Option (RbtreeNode K V)) (m : Multiset (ℕ × RbtreeNode K V))
    (h : Owns mem m) (free : List ℕ) (hfree : ∀ n ∈ free, ∃ x, (n, x) ∈ m) (fuel : ℕ) :
    Gives (rbtreeCreate mem (fuel+1)) (fun t => Stands t ⟨[], free⟩) := by
  apply gives_ok
  refine ⟨.nil, m, ⟨(rep_nil _ _ _).mpr ⟨rfl, ?_⟩, List.Pairwise.nil, 0, .nil⟩, rfl, hfree⟩
  rwa [cells, zero_add]

end Leviathan.RBTree
