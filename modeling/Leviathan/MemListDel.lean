import Leviathan.MemListBag

/-! `del(T *)` of `CMemList` (comTList.h) while every object is in the list at most once.  It looks for
the pointer only, and a cell keeps its pointer when it is freed. -/
namespace Leviathan.CMemList

variable {Obj : Type}

/-- A list and the objects that have been added and not deleted since. -/
structure Ledger (Obj : Type) where
  list : CMemList Obj
  live : Finset Obj

inductive AddDel (Obj : Type)
  | add (o : Obj)
  | del (o : Obj)

namespace Ledger

variable [DecidableEq Obj]

def step (s : Ledger Obj) : AddDel Obj → Option (Ledger Obj)
  | .add o => (s.list.add o).toOption.map (fun r =>
      { list := r.1, live := if r.2 = -1 then s.live else insert o s.live })
  | .del o => some { list := (s.list.del o).1, live := s.live.erase o }

/-- Only live objects are deleted, and only others added. -/
def Distinct (s : Ledger Obj) : AddDel Obj → Prop
  | .add o => o ∉ s.live
  | .del o => o ∈ s.live

instance (s : Ledger Obj) : (c : AddDel Obj) → Decidable (s.Distinct c)
  | .add o => inferInstanceAs (Decidable (o ∉ s.live))
  | .del o => inferInstanceAs (Decidable (o ∈ s.live))

/-- The call leaves the array in bounds and the count right, and a deleted object is gone from every
enumeration, which finds the others. -/
def Right (s : Ledger Obj) (c : AddDel Obj) : Prop :=
  ∃ t, s.step c = some t ∧ t.list.m_nCurCount = t.live.card ∧
    match c with
    | .add _ => True
    | .del o => (s.list.del o).2 = true ∧ (∀ i j, t.list.getNext i ≠ some (j, o)) ∧
        ∃ xs, Slots.Visits t.list.getNext (· + 1) 0 xs ∧ ∀ o' ∈ t.live, o' ∈ xs

/-- There is a cell to look at, and the first cell with the pointer to a deleted object is not free. -/
def NoStale (s : Ledger Obj) : AddDel Obj → Prop
  | .add _ => 0 < s.list.m_nMaxCount
  | .del o => ∀ i : ℕ, i < s.list.m_nMaxCount → s.list.m_pArray i = some o →
      (∀ j < i, s.list.m_pArray (j : ℕ) ≠ some o) → s.list.m_nFlagArray i ≠ 0

instance (s : Ledger Obj) : (c : AddDel Obj) → Decidable (s.NoStale c)
  | .add _ => inferInstanceAs (Decidable (0 < s.list.m_nMaxCount))
  | .del o => inferInstanceAs (Decidable (∀ i : ℕ, i < s.list.m_nMaxCount →
      s.list.m_pArray i = some o → (∀ j < i, s.list.m_pArray (j : ℕ) ≠ some o) →
      s.list.m_nFlagArray i ≠ 0))

end Ledger

section Tidy

variable (l : CMemList Obj) (m : Multiset Obj) (h : Tidy l m)

include h

theorem getNext_eq (i : ℕ) : l.getNext i = Slots.next l.m_nMaxCount l.cell i := by
  have hfrom (k : ℕ) : ∀ j, j+k ≤ l.m_nMaxCount → l.nextFrom k j = Slots.nextFrom l.cell k j := by
    induction k with
    | zero => exact fun _ _ => rfl
    | succ k ih =>
      intro j hj
      rw [nextFrom, Slots.nextFrom]
      rcases h.flag j (by omega) with hfree | htaken
      · have hcell : l.cell j = none := (cell_eq_none_iff l m h j (by omega)).mpr hfree
        rw [hcell, hfree]
        exact ih (j+1) (by omega)
      · obtain ⟨o, ho⟩ := Option.ne_none_iff_exists'.mp (h.ptr j (by omega) htaken)
        have hcell : l.cell j = some o := by rw [cell, if_pos htaken, ho]
        rw [hcell, if_pos htaken, ho]
        rfl
  rcases le_total i l.m_nMaxCount with hle | hgt
  · exact hfrom (l.m_nMaxCount-i) i (by omega)
  · rw [getNext, Slots.next, Nat.sub_eq_zero_of_le hgt]
    rfl

theorem mem_iff_cell (o : Obj) : o ∈ m ↔ ∃ i < l.m_nMaxCount, l.cell i = some o := by
  rw [← h.objects]
  exact Slots.mem_contents _ _ o

theorem visits_objects : ∃ xs, Slots.Visits l.getNext (· + 1) 0 xs ∧ (xs : Multiset Obj) = m := by
  refine ⟨Slots.contents l.m_nMaxCount l.cell, ?_, h.objects⟩
  rw [funext (getNext_eq l m h)]
  exact Slots.visits_contents _ _

-- No enumeration returns an object that is in no cell.
theorem getNext_ne (o : Obj) (ho : o ∉ m) (i j : ℕ) : l.getNext i ≠ some (j, o) := by
  intro hnext
  rw [getNext_eq l m h] at hnext
  obtain ⟨⟨-, hj⟩, hcell⟩ := Slots.next_some _ _ _ _ _ hnext
  exact ho ((mem_iff_cell l m h o).mpr ⟨j, hj, hcell⟩)

-- The search for a live object ends at a cell with its pointer.
theorem del_eq [DecidableEq Obj] (o : Obj) (ho : o ∈ m) : ∃ i, i < l.m_nMaxCount ∧ l.m_pArray i = some o ∧
    (∀ j < i, l.m_pArray (j : ℕ) ≠ some o) ∧ l.del o = (l._del i, true) := by
  obtain ⟨c, hc, hcell⟩ := (mem_iff_cell l m h o).mp ho
  have hex : ∃ i : ℕ, l.m_pArray i = some o := by
    rw [cell] at hcell
    split_ifs at hcell
    exact ⟨c, hcell⟩
  have hptr := Nat.find_spec hex
  have hle : Nat.find hex ≤ c := by
    apply Nat.find_min'
    rw [cell] at hcell
    split_ifs at hcell
    exact hcell
  have hfirst (j : ℕ) (hj : j < Nat.find hex) : l.m_pArray (j : ℕ) ≠ some o := Nat.find_min hex hj
  exact ⟨Nat.find hex, by omega, hptr, hfirst, del_first l o _ (by omega) hptr hfirst⟩

end Tidy

namespace Ledger

/-- The cells hold the live objects, each once; a list without a cell holds nothing. -/
structure Exact (s : Ledger Obj) : Prop where
  max : s.list.m_nMaxCount < 2^31
  count : s.list.m_nCurCount = s.live.card
  tidy : 0 < s.list.m_nMaxCount → Tidy s.list s.live.val
  empty : s.list.m_nMaxCount = 0 → s.list.m_nEmptyFirstIdx = 0 ∧ s.live = ∅

theorem exact_clear (l₀ : CMemList Obj) (hmax : l₀.m_nMaxCount < 2^31) :
    Exact { list := clear l₀, live := ∅ } :=
  ⟨hmax, rfl, fun hpos => tidy_clear l₀ ⟨hpos, hmax⟩, fun _ => ⟨rfl, rfl⟩⟩

theorem exact_of_tidy (s : Ledger Obj) (h : Tidy s.list s.live.val) : Exact s :=
  ⟨h.max.2, h.count, fun _ => h, fun hzero => absurd hzero h.max.1.ne'⟩

variable [DecidableEq Obj] (s : Ledger Obj) (h : Exact s)

include h

theorem step_add (o : Obj) (ho : o ∉ s.live) (hpos : 0 < s.list.m_nMaxCount) :
    ∃ t, s.step (.add o) = some t ∧ Exact t := by
  have htidy := h.tidy hpos
  rcases add_tidy s.list _ htidy o with ⟨-, hadd⟩ | ⟨-, g, j, hg, hfree, hadd⟩
  · refine ⟨s, ?_, h⟩
    rw [step, hadd]
    rfl
  · have hj : (j : ℤ) ≠ -1 := by omega
    have hstored := tidy_stored s.list _ htidy o g j hg hfree
    rw [← Finset.insert_val_of_notMem ho] at hstored
    refine ⟨_, ?_, exact_of_tidy { list := _, live := insert o s.live } hstored⟩
    rw [step, hadd]
    exact congrArg some (congrArg (Ledger.mk _) (if_neg hj))

-- The hint 0 of an empty list without a cell is read all the same.
theorem step_add_none (o : Obj) (hzero : s.list.m_nMaxCount = 0) : s.step (.add o) = none := by
  obtain ⟨hhint, -⟩ := h.empty hzero
  rw [step, CMemList.add, hhint, if_pos le_rfl, flagAt_error _ _ (by omega)]
  rfl

theorem right_add_iff (o : Obj) (ho : o ∉ s.live) : Right s (.add o) ↔ NoStale s (.add o) := by
  rcases Nat.eq_zero_or_pos s.list.m_nMaxCount with hzero | hpos
  · refine iff_of_false ?_ (Nat.not_lt.mpr hzero.le)
    rintro ⟨t, ht, -⟩
    rw [step_add_none s h o hzero] at ht
    cases ht
  · obtain ⟨t, ht, hexact⟩ := step_add s h o ho hpos
    exact iff_of_true ⟨t, ht, hexact.count, trivial⟩ hpos

omit [DecidableEq Obj] in
theorem tidy_of_live (o : Obj) (ho : o ∈ s.live) : Tidy s.list s.live.val := by
  apply h.tidy
  by_contra hzero
  obtain ⟨-, hempty⟩ := h.empty (by omega)
  rw [hempty] at ho
  exact absurd ho (Finset.notMem_empty o)

-- Where the first cell with the pointer holds the object, the object goes.
theorem step_del (o : Obj) (ho : o ∈ s.live) (hstale : NoStale s (.del o)) :
    (s.list.del o).2 = true ∧ Tidy (s.list.del o).1 (s.live.erase o).val := by
  have htidy := tidy_of_live s h o ho
  obtain ⟨i, hi, hptr, hfirst, hdel⟩ := del_eq s.list _ htidy o ho
  have hflag : s.list.m_nFlagArray i = 2 := by
    rcases htidy.flag i hi with hfree | htaken
    · exact absurd hfree (hstale i hi hptr hfirst)
    · exact htaken
  have hcell : s.list.cell i = some o := by rw [cell, if_pos hflag, hptr]
  obtain ⟨rest, hrest, htidy'⟩ := tidy_del s.list _ htidy o i hi hcell
  have herase : (s.live.erase o).val = rest := by
    rw [Finset.erase_val, hrest, Multiset.erase_cons_head]
  rw [hdel, herase]
  exact ⟨rfl, htidy'⟩

-- Where it is a free one, the object stays.
theorem del_stale (o : Obj) (ho : o ∈ s.live) (i : ℕ) (hi : i < s.list.m_nMaxCount)
    (hptr : s.list.m_pArray i = some o) (hfirst : ∀ j < i, s.list.m_pArray (j : ℕ) ≠ some o)
    (hfree : s.list.m_nFlagArray i = 0) : ∃ c, (s.list.del o).1.getNext c = some (c, o) := by
  have htidy := tidy_of_live s h o ho
  obtain ⟨c, hc, hcell⟩ := (mem_iff_cell s.list _ htidy o).mp ho
  have hne : (c : ℤ) ≠ i := by
    intro heq
    have hnone := (cell_eq_none_iff s.list _ htidy i hi).mpr hfree
    rw [Int.ofNat.inj heq, hnone] at hcell
    cases hcell
  rw [cell] at hcell
  split_ifs at hcell with htaken
  have hflag : (s.list._del i).m_nFlagArray c = 2 := by rw [flag_del, if_neg hne, htaken]
  have hrest : (s.list._del i).m_nMaxCount-c = s.list.m_nMaxCount-c-1+1 := by
    show s.list.m_nMaxCount-c = s.list.m_nMaxCount-c-1+1
    omega
  refine ⟨c, ?_⟩
  rw [del_first s.list o i hi hptr hfirst, getNext, hrest, nextFrom, if_pos hflag]
  exact congrArg (Option.map _) hcell

theorem right_del_iff (o : Obj) (ho : o ∈ s.live) : Right s (.del o) ↔ NoStale s (.del o) := by
  constructor
  · rintro ⟨t, ht, -, -, hgone, -⟩ i hi hptr hfirst hfree
    obtain ⟨c, hc⟩ := del_stale s h o ho i hi hptr hfirst hfree
    obtain rfl := Option.some.inj ht
    exact hgone c c hc
  · intro hstale
    obtain ⟨htrue, htidy⟩ := step_del s h o ho hstale
    refine ⟨_, rfl, htidy.count, htrue, ?_, ?_⟩
    · intro i j
      exact getNext_ne _ _ htidy o (Finset.notMem_erase o s.live) i j
    · obtain ⟨xs, hvisits, hxs⟩ := visits_objects _ _ htidy
      refine ⟨xs, hvisits, fun o' ho' => ?_⟩
      rw [← Multiset.mem_coe, hxs]
      exact ho'

theorem exact_step (c : AddDel Obj) (t : Ledger Obj) (hdistinct : Distinct s c) (hstale : NoStale s c)
    (ht : s.step c = some t) : Exact t := by
  cases c with
  | add o =>
    obtain ⟨t', ht', hexact⟩ := step_add s h o hdistinct hstale
    obtain rfl := Option.some.inj (ht'.symm.trans ht)
    exact hexact
  | del o =>
    obtain ⟨-, htidy⟩ := step_del s h o hdistinct hstale
    obtain rfl := Option.some.inj ht
    exact exact_of_tidy { list := _, live := s.live.erase o } htidy

end Ledger

open Ledger

variable [DecidableEq Obj]

/-- From `clear()` on, the calls of a run are right exactly when none of the deleted objects has left
its pointer in a free cell in front of its own. -/
theorem del_right_iff (l₀ : CMemList Obj) (hmax : l₀.m_nMaxCount < 2^31) (calls : List (AddDel Obj))
    (hdistinct : Runs.Along step Distinct { list := clear l₀, live := ∅ } calls) :
    Runs.Along step Right { list := clear l₀, live := ∅ } calls ↔
      Runs.Along step NoStale { list := clear l₀, live := ∅ } calls := by
  apply Runs.along_iff_of_invariant step Distinct Right NoStale Exact
  · intro s c t h hd hstale ht
    exact exact_step s h c t hd hstale ht
  · intro s c h hd
    cases c with
    | add o => exact right_add_iff s h o hd
    | del o => exact right_del_iff s h o hd
  · exact exact_clear l₀ hmax
  · exact hdistinct

/-- Four cells that have never been used. -/
def fourCells : CMemList ℕ :=
  { m_pArray := fun _ => none, m_nFlagArray := fun _ => 0, m_nCurCount := 0, m_nEmptyFirstIdx := 0,
    m_nMaxCount := 4 }

theorem del_right_iff_four :
    Runs.Along step Right { list := clear fourCells, live := ∅ } [.add 0, .add 1, .del 1, .del 0] :=
  (del_right_iff fourCells (by decide) _ (by decide)).mpr (by decide)

-- Object 1 is added again behind the cell that it had before.
theorem not_right_added_again :
    Runs.Along step Distinct { list := clear fourCells, live := ∅ }
      [.add 0, .add 1, .add 2, .del 0, .del 1, .add 0, .add 1, .del 1] ∧
    ¬Runs.Along step Right { list := clear fourCells, live := ∅ }
      [.add 0, .add 1, .add 2, .del 0, .del 1, .add 0, .add 1, .del 1] := by
  refine ⟨by decide, fun halong => ?_⟩
  obtain ⟨t, ht, -, -, hgone, -⟩ := Runs.along_after step Right _ _
    [.add 0, .add 1, .add 2, .del 0, .del 1, .add 0, .add 1] [] _ rfl halong
  obtain rfl := Option.some.inj ht
  exact hgone 3 3 rfl

end Leviathan.CMemList
