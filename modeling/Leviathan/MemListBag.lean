import Leviathan.MemListCalls
import Leviathan.Simulation
import Leviathan.Slots

/-! `CMemList` (comTList.h) as a bag of objects, filled by `add` and `setObj` and emptied by `pop`. -/
namespace Leviathan.CMemList

variable {Obj : Type}

section Model

variable (l : CMemList Obj)

/-- `setObj`, as one thread sees it. -/
def setObj (idx : ℤ) (p : Obj) : CMemList Obj × Bool :=
  if !isInclude idx l.m_nMaxCount then (l, false)
  else if l.m_nFlagArray idx = 0 then
    ({ (l.setPtr idx p).setFlag idx 2 with m_nCurCount := i32 (l.m_nCurCount+1) }, true)
  else (l, false)

/-- `pop`, with `k` cells left from `i` on. -/
def popFrom : ℕ → ℕ → CMemList Obj × Option Obj
  | 0, _ => (l, none)
  | k+1, i => if l.m_nFlagArray i = 2 then (l._del i, l.m_pArray i) else popFrom k (i+1)

def pop : CMemList Obj × Option Obj := l.popFrom l.m_nMaxCount 0

/-- The object that cell `i` holds. -/
def cell (i : ℕ) : Option Obj := if l.m_nFlagArray i = 2 then l.m_pArray i else none

/-- The objects in the list. -/
def objects : Multiset Obj := Slots.contents l.m_nMaxCount l.cell

end Model

/-- No cell is claimed, the count is the number of the objects `m` in the cells, and the hint is not
behind the last cell. -/
structure Tidy (l : CMemList Obj) (m : Multiset Obj) : Prop where
  flag : ∀ i : ℕ, i < l.m_nMaxCount → l.m_nFlagArray i = 0 ∨ l.m_nFlagArray i = 2
  ptr : ∀ i : ℕ, i < l.m_nMaxCount → l.m_nFlagArray i = 2 → l.m_pArray i ≠ none
  objects : l.objects = m
  count : l.m_nCurCount = m.card
  hint : l.m_nEmptyFirstIdx < l.m_nMaxCount
  max : 0 < l.m_nMaxCount ∧ l.m_nMaxCount < 2^31

section Cells

variable (l : CMemList Obj)

theorem cell_stored (o : Obj) (h : ℤ) (j : ℕ) :
    (({ l with m_nEmptyFirstIdx := h } : CMemList Obj).stored o j).cell =
      Function.update l.cell j (some o) := by
  ext1 i
  rw [cell, flag_stored, Function.update_apply, cell]
  have hptr : (({ l with m_nEmptyFirstIdx := h } : CMemList Obj).stored o j).m_pArray i =
    if (i : ℤ) = j then some o else l.m_pArray i := Function.update_apply _ _ _ _
  rw [hptr]
  by_cases hij : i = j
  · rw [if_pos (congrArg Nat.cast hij), if_pos rfl, if_pos (congrArg Nat.cast hij), if_pos hij]
  · have hij' : (i : ℤ) ≠ j := fun h => hij (Int.ofNat.inj h)
    rw [if_neg hij', if_neg hij', if_neg hij]

theorem flag_del (i j : ℤ) : (l._del i).m_nFlagArray j = if j = i then 0 else l.m_nFlagArray j :=
  Function.update_apply _ _ _ _

theorem cell_del (j : ℕ) : (l._del j).cell = Function.update l.cell j none := by
  ext1 i
  rw [cell, flag_del, Function.update_apply, cell]
  by_cases hij : i = j
  · rw [if_pos (congrArg Nat.cast hij), if_pos hij]
    rfl
  · have hij' : (i : ℤ) ≠ j := fun h => hij (Int.ofNat.inj h)
    rw [if_neg hij', if_neg hij]
    rfl

-- A list without a taken cell holds nothing.
theorem tidy_empty (hflag : ∀ i : ℕ, i < l.m_nMaxCount → l.m_nFlagArray i = 0)
    (hcount : l.m_nCurCount = 0) (hhint : l.m_nEmptyFirstIdx < l.m_nMaxCount)
    (hmax : 0 < l.m_nMaxCount ∧ l.m_nMaxCount < 2^31) : Tidy l 0 := by
  have hcell (i : ℕ) (hi : i < l.m_nMaxCount) : l.cell i = none := by
    rw [cell, hflag i hi]
    rfl
  refine ⟨fun i hi => Or.inl (hflag i hi), ?_, ?_, hcount, hhint, hmax⟩
  · intro i hi htaken
    rw [hflag i hi] at htaken
    cases htaken
  · have hempty : Slots.contents l.m_nMaxCount l.cell = [] := by
      rw [Slots.contents, List.filterMap_eq_nil_iff]
      intro i hi
      exact hcell i (List.mem_range.mp hi)
    exact congrArg Multiset.ofList hempty

theorem tidy_clear (hmax : 0 < l.m_nMaxCount ∧ l.m_nMaxCount < 2^31) : Tidy (clear l) 0 := by
  apply tidy_empty (clear l) _ rfl (Int.natCast_pos.mpr hmax.1) hmax
  intro i hi
  have hlt : i < l.m_nMaxCount := hi
  apply if_pos
  rw [isInclude_iff]
  omega

end Cells

section Tidy

variable (l : CMemList Obj) (m : Multiset Obj) (h : Tidy l m)

include h

theorem cell_eq_none_iff (i : ℕ) (hi : i < l.m_nMaxCount) : l.cell i = none ↔ l.m_nFlagArray i = 0 := by
  rw [cell]
  rcases h.flag i hi with hfree | htaken
  · rw [hfree]
    exact ⟨fun _ => rfl, fun _ => rfl⟩
  · rw [if_pos htaken, htaken]
    exact ⟨fun hp => absurd hp (h.ptr i hi htaken), fun hf => nomatch hf⟩

theorem card_le_max : m.card ≤ l.m_nMaxCount := by
  rw [← h.objects]
  exact Slots.length_contents_le _ _

-- With fewer objects than cells there is a free cell, and the other way round.
theorem card_lt_iff : m.card < l.m_nMaxCount ↔ ∃ i : ℕ, Free l i := by
  have hcard : m.card = (Slots.contents l.m_nMaxCount l.cell).length := by
    rw [← h.objects]
    rfl
  constructor
  · intro hlt
    obtain ⟨i, hi, hnone⟩ := Slots.exists_free _ _ (hcard.symm.trans_lt hlt)
    exact ⟨i, by omega, (cell_eq_none_iff l m h i hi).mp hnone⟩
  · rintro ⟨i, hi, hflag⟩
    have hi' : i < l.m_nMaxCount := by omega
    rw [hcard]
    apply Slots.length_contents_lt _ _ i hi'
    exact (cell_eq_none_iff l m h i hi').mpr hflag

-- A store to a free cell, with any hint inside the array.
theorem tidy_stored (o : Obj) (g : ℤ) (j : ℕ) (hg : g < l.m_nMaxCount) (hfree : Free l j) :
    Tidy (({ l with m_nEmptyFirstIdx := g } : CMemList Obj).stored o j) (o ::ₘ m) := by
  have hj : j < l.m_nMaxCount := by
    have := hfree.1
    omega
  have hptr (i : ℕ) : (({ l with m_nEmptyFirstIdx := g } : CMemList Obj).stored o j).m_pArray i =
    if (i : ℤ) = j then some o else l.m_pArray i := Function.update_apply _ _ _ _
  refine ⟨?_, ?_, ?_, ?_, hg, h.max⟩
  · intro i hi
    rw [flag_stored]
    split_ifs
    · exact Or.inr rfl
    · exact h.flag i hi
  · intro i hi htaken
    rw [flag_stored] at htaken
    rw [hptr]
    split_ifs at htaken ⊢
    · exact Option.some_ne_none o
    · exact h.ptr i hi htaken
  · have hnone := (cell_eq_none_iff l m h j hj).mpr hfree.2
    rw [← h.objects, objects, objects, cell_stored]
    exact Slots.contents_put _ _ j hj o hnone
  · have hlt := (card_lt_iff l m h).mpr ⟨j, hfree⟩
    have hmax := h.max
    show i32 (l.m_nCurCount+1) = _
    rw [h.count, i32_of_range _ (by omega) (by omega), Multiset.card_cons]
    rfl

-- A removal from a cell that holds `o`.
theorem tidy_del (o : Obj) (j : ℕ) (hj : j < l.m_nMaxCount) (ho : l.cell j = some o) :
    ∃ rest, m = o ::ₘ rest ∧ Tidy (l._del j) rest := by
  have htake := Slots.contents_take l.m_nMaxCount l.cell j hj o ho
  rw [← cell_del] at htake
  refine ⟨(l._del j).objects, h.objects.symm.trans htake, ?_, ?_, rfl, ?_, ?_, h.max⟩
  · intro i hi
    rw [flag_del]
    split_ifs
    · exact Or.inl rfl
    · exact h.flag i hi
  · intro i hi htaken
    rw [flag_del] at htaken
    split_ifs at htaken
    exact h.ptr i hi htaken
  · have hcard : m.card = (l._del j).objects.card+1 := by
      rw [← h.objects, ← Multiset.card_cons o]
      exact congrArg Multiset.card htake
    have hle := card_le_max l m h
    have hmax := h.max
    show i32 (l.m_nCurCount-1) = _
    rw [h.count, i32_of_range _ (by omega) (by omega)]
    omega
  · have hhint := h.hint
    show (if l.m_nEmptyFirstIdx < 0 ∨ (j : ℤ) < l.m_nEmptyFirstIdx then (j : ℤ) else
      l.m_nEmptyFirstIdx) < (l.m_nMaxCount : ℤ)
    split_ifs <;> omega

-- Without a free cell `add` gives up, with one it stores to one.
theorem add_tidy (o : Obj) :
    (m.card = l.m_nMaxCount ∧ l.add o = .ok (l, -1)) ∨
      (m.card < l.m_nMaxCount ∧ ∃ (g : ℤ) (j : ℕ), g < l.m_nMaxCount ∧ Free l j ∧
        l.add o = .ok (({ l with m_nEmptyFirstIdx := g } : CMemList Obj).stored o j, j)) := by
  have hcount := h.count
  have hle := card_le_max l m h
  -- the loop finds a free cell, if there is one
  have hloop : l.add o = l.addLoop o l.m_nMaxCount l.m_nCurCount →
      (m.card = l.m_nMaxCount ∧ l.add o = .ok (l, -1)) ∨
        (m.card < l.m_nMaxCount ∧ ∃ (g : ℤ) (j : ℕ), g < l.m_nMaxCount ∧ Free l j ∧
          l.add o = .ok (({ l with m_nEmptyFirstIdx := g } : CMemList Obj).stored o j, j)) := by
    intro hadd
    rcases hle.lt_or_eq with hlt | hfull
    · right
      refine ⟨hlt, l.m_nEmptyFirstIdx, ?_⟩
      obtain ⟨c, hc⟩ := (card_lt_iff l m h).mp hlt
      obtain ⟨j, hj, hfind⟩ := addLoop_finds l o m.card hle (by omega) ⟨c, hc⟩
      refine ⟨j, h.hint, hj, ?_⟩
      calc l.add o = l.addLoop o l.m_nMaxCount m.card := by rw [hadd, hcount]
        _ = .ok (l.stored o j, j) := hfind
    · left
      refine ⟨hfull, ?_⟩
      obtain ⟨k, hk⟩ : ∃ k, l.m_nMaxCount = k+1 := ⟨l.m_nMaxCount-1, by have := h.max.1; omega⟩
      have hcond : (l.m_nMaxCount : ℤ) ≤ l.m_nCurCount := by omega
      rw [hadd, hk, addLoop, if_pos hcond]
  by_cases hpos : 0 ≤ l.m_nEmptyFirstIdx
  · obtain ⟨j, hj⟩ := Int.eq_ofNat_of_zero_le hpos
    have hhint := h.hint
    have hflag := flagAt_eq l l.m_nEmptyFirstIdx ⟨hpos, hhint⟩
    by_cases hzero : l.m_nFlagArray l.m_nEmptyFirstIdx = 0
    · right
      have hfree : Free l j := by
        rw [hj] at hpos hhint hzero
        exact ⟨⟨hpos, hhint⟩, hzero⟩
      refine ⟨(card_lt_iff l m h).mpr ⟨j, hfree⟩, -1, j, by omega, hfree, ?_⟩
      rw [add, if_pos hpos, hflag, ok_bind, if_pos hzero, hj]
      exact addSuccess_eq _ o j hfree.1
    · apply hloop
      rw [add, if_pos hpos, hflag, ok_bind, if_neg hzero]
  · exact hloop (add_scan l o (not_le.mp hpos))

omit h in
theorem setObj_taken (i : ℤ) (o : Obj) (htaken : ¬Free l i) : l.setObj i o = (l, false) := by
  rw [setObj]
  by_cases hi : isInclude i l.m_nMaxCount = true
  · have hflag : l.m_nFlagArray i ≠ 0 := fun hzero => htaken ⟨(isInclude_iff _ _).mp hi, hzero⟩
    rw [hi, if_neg hflag]
    rfl
  · rw [if_pos (by rw [Bool.eq_false_iff.mpr hi]; rfl)]

omit h in
theorem setObj_free (i : ℤ) (o : Obj) (hfree : Free l i) : l.setObj i o = (l.stored o i, true) := by
  rw [setObj, (isInclude_iff _ _).mpr hfree.1, if_pos hfree.2]
  rfl

-- `pop` takes the first object, or there is none.
theorem popFrom_eq (k i : ℕ) (hk : i+k = l.m_nMaxCount) :
    l.popFrom k i = match Slots.next l.m_nMaxCount l.cell i with
      | some (j, o) => (l._del j, some o)
      | none => (l, none) := by
  induction k generalizing i with
  | zero =>
    rw [Slots.next, ← hk, add_zero, Nat.sub_self]
    rfl
  | succ k ih =>
    have hi : i < l.m_nMaxCount := by omega
    rw [popFrom, Slots.next_eq _ _ i hi]
    rcases h.flag i hi with hfree | htaken
    · have hcell : l.cell i = none := (cell_eq_none_iff l m h i hi).mpr hfree
      rw [hcell, hfree]
      exact ih (i+1) (by omega)
    · obtain ⟨o, ho⟩ := Option.ne_none_iff_exists'.mp (h.ptr i hi htaken)
      have hcell : l.cell i = some o := by rw [cell, if_pos htaken, ho]
      rw [hcell, if_pos htaken, ho]

theorem pop_eq : l.pop = match Slots.next l.m_nMaxCount l.cell 0 with
    | some (j, o) => (l._del j, some o)
    | none => (l, none) := popFrom_eq l m h l.m_nMaxCount 0 (zero_add _)

end Tidy

inductive BagCall (Obj : Type)
  | add (p : Obj)
  | setObj (idx : ℤ) (p : Obj)
  | pop

inductive BagAnswer (Obj : Type)
  | index (i : ℤ)
  | done (b : Bool)
  | obj (o : Option Obj)

def bagCall (l : CMemList Obj) : BagCall Obj → Except Fault (CMemList Obj × BagAnswer Obj)
  | .add p => (l.add p).map (fun r => (r.1, .index r.2))
  | .setObj idx p => .ok ((l.setObj idx p).1, .done (l.setObj idx p).2)
  | .pop => .ok (l.pop.1, .obj l.pop.2)

/-- The object that an answered call has put into the list. -/
def entered : BagCall Obj × BagAnswer Obj → Option Obj
  | (.add p, .index i) => if i = -1 then none else some p
  | (.setObj _ p, .done b) => if b then some p else none
  | _ => none

/-- The object that an answered call has taken out of the list. -/
def popped : BagCall Obj × BagAnswer Obj → Option Obj
  | (.pop, .obj o) => o
  | _ => none

/-- The list answers every call as a bag of `m_nMaxCount` cells does. -/
structure AnswersAsBag (l : CMemList Obj) : Prop where
  add : ∀ p, ∃ r, l.add p = .ok r ∧ (r.2 = -1 ↔ l.objects.card = l.m_nMaxCount) ∧
    (r.2 ≠ -1 → Free l r.2 ∧ HoldsAt r.1 r.2 p)
  setObj : ∀ i p, ((l.setObj i p).2 = true ↔ Free l i) ∧
    ((l.setObj i p).2 = true → HoldsAt (l.setObj i p).1 i p)
  pop : l.pop.2 = none ↔ l.objects = 0
  size : l.m_nCurCount = l.objects.card

/-- What has gone into the list is still there or has been popped. -/
def Balanced (n : ℕ) (l : CMemList Obj) (hist : List (BagCall Obj × BagAnswer Obj)) : Prop :=
  l.m_nMaxCount = n ∧ Tidy l l.objects ∧
    l.objects+(hist.filterMap popped : Multiset Obj) = (hist.filterMap entered : Multiset Obj)

section Bag

variable (l : CMemList Obj) (m : Multiset Obj) (h : Tidy l m)

theorem holdsAt_stored (o : Obj) (g i : ℤ) (hi : 0 ≤ i ∧ i < l.m_nMaxCount) :
    HoldsAt (({ l with m_nEmptyFirstIdx := g } : CMemList Obj).stored o i) i o :=
  ⟨hi, Function.update_self _ _ _, Function.update_self _ _ _⟩

include h

theorem tidy_self : Tidy l l.objects := by
  rw [h.objects]
  exact h

theorem answersAsBag_of_tidy : AnswersAsBag l := by
  have hobjects := h.objects
  refine ⟨?_, ?_, ?_, by rw [hobjects]; exact h.count⟩
  · intro p
    rw [hobjects]
    rcases add_tidy l m h p with ⟨hfull, hadd⟩ | ⟨hlt, g, j, -, hfree, hadd⟩
    · exact ⟨_, hadd, iff_of_true rfl hfull, fun hne => absurd rfl hne⟩
    · have hj : (j : ℤ) ≠ -1 := by omega
      exact ⟨_, hadd, iff_of_false hj hlt.ne, fun _ => ⟨hfree, holdsAt_stored l p g j hfree.1⟩⟩
  · intro i p
    by_cases hfree : Free l i
    · rw [setObj_free l i p hfree]
      exact ⟨iff_of_true rfl hfree, fun _ => holdsAt_stored l p l.m_nEmptyFirstIdx i hfree.1⟩
    · rw [setObj_taken l i p hfree]
      exact ⟨iff_of_false Bool.false_ne_true hfree, fun hf => nomatch hf⟩
  · have hnext := Slots.next_none_iff l.m_nMaxCount l.cell
    rw [pop_eq l m h, objects, Multiset.coe_eq_zero, ← hnext]
    cases Slots.next l.m_nMaxCount l.cell 0 with
    | none => exact iff_of_true rfl rfl
    | some r => exact iff_of_false (Option.some_ne_none _) (Option.some_ne_none _)

end Bag

section Step

variable (n : ℕ) (l : CMemList Obj) (hist : List (BagCall Obj × BagAnswer Obj))

theorem filterMap_snoc {α β : Type} (f : α → Option β) (xs : List α) (x : α) :
    ((xs ++ [x]).filterMap f : Multiset β) = (xs.filterMap f : Multiset β)+((f x).toList : Multiset β) := by
  rw [List.filterMap_append, ← Multiset.coe_add]
  cases hx : f x with
  | none => rw [List.filterMap_cons_none hx]; rfl
  | some b => rw [List.filterMap_cons_some hx]; rfl

theorem cons_eq_add_singleton {α : Type} (a : α) (m : Multiset α) : a ::ₘ m+0 = m+{a} := by
  rw [add_zero, ← Multiset.singleton_add, add_comm]

-- A call changes the objects by what its answer says.
theorem balanced_snoc (c : BagCall Obj) (a : BagAnswer Obj) (l' : CMemList Obj) (m : Multiset Obj)
    (h : Balanced n l hist) (hmax : l'.m_nMaxCount = l.m_nMaxCount) (htidy : Tidy l' m)
    (hchange : m+((popped (c, a)).toList : Multiset Obj) =
      l.objects+((entered (c, a)).toList : Multiset Obj)) : Balanced n l' (hist ++ [(c, a)]) := by
  refine ⟨hmax.trans h.1, tidy_self l' m htidy, ?_⟩
  calc l'.objects+((hist ++ [(c, a)]).filterMap popped : Multiset Obj)
      = m+((hist.filterMap popped : Multiset Obj)+((popped (c, a)).toList : Multiset Obj)) := by
        rw [htidy.objects, filterMap_snoc]
    _ = l.objects+(hist.filterMap popped : Multiset Obj)+((entered (c, a)).toList : Multiset Obj) := by
        rw [add_left_comm, hchange, add_left_comm, ← add_assoc]
    _ = ((hist ++ [(c, a)]).filterMap entered : Multiset Obj) := by
        rw [h.2.2, filterMap_snoc]

theorem balanced_call (c : BagCall Obj) (h : Balanced n l hist) :
    ∃ l' a, l.bagCall c = .ok (l', a) ∧ Balanced n l' (hist ++ [(c, a)]) := by
  have htidy := h.2.1
  cases c with
  | add p =>
    rcases add_tidy l _ htidy p with ⟨-, hadd⟩ | ⟨-, g, j, hg, hfree, hadd⟩
    · refine ⟨l, .index (-1), by rw [bagCall, hadd]; rfl, ?_⟩
      exact balanced_snoc n l hist _ _ l _ h rfl htidy rfl
    · refine ⟨_, .index j, by rw [bagCall, hadd]; rfl, ?_⟩
      have hj : (j : ℤ) ≠ -1 := by omega
      have hin : entered (.add p, .index (j : ℤ)) = some p := by rw [entered, if_neg hj]
      refine balanced_snoc n l hist _ _ _ _ h rfl (tidy_stored l _ htidy p g j hg hfree) ?_
      rw [hin]
      exact cons_eq_add_singleton p l.objects
  | setObj i p =>
    by_cases hfree : Free l i
    · obtain ⟨j, rfl⟩ := Int.eq_ofNat_of_zero_le hfree.1.1
      refine ⟨_, .done true, by rw [bagCall, setObj_free l j p hfree], ?_⟩
      refine balanced_snoc n l hist _ _ _ _ h rfl
        (tidy_stored l _ htidy p l.m_nEmptyFirstIdx j htidy.hint hfree) ?_
      exact cons_eq_add_singleton p l.objects
    · refine ⟨l, .done false, by rw [bagCall, setObj_taken l i p hfree], ?_⟩
      exact balanced_snoc n l hist _ _ l _ h rfl htidy rfl
  | pop =>
    have hpop := pop_eq l _ htidy
    cases hnext : Slots.next l.m_nMaxCount l.cell 0 with
    | none =>
      rw [hnext] at hpop
      refine ⟨l, .obj none, by rw [bagCall, hpop], ?_⟩
      exact balanced_snoc n l hist _ _ l _ h rfl htidy rfl
    | some r =>
      rw [hnext] at hpop
      obtain ⟨⟨-, hj⟩, ho⟩ := Slots.next_some _ _ _ _ _ hnext
      obtain ⟨rest, hrest, htidy'⟩ := tidy_del l _ htidy r.2 r.1 hj ho
      refine ⟨l._del r.1, .obj (some r.2), by rw [bagCall, hpop], ?_⟩
      refine balanced_snoc n l hist _ _ _ _ h rfl htidy' ?_
      rw [hrest]
      exact (cons_eq_add_singleton r.2 rest).symm

end Step

/-- From `clear()` on, `add`, `setObj` and `pop` keep a bag: no call leaves the array, what is in the
list is what was put in and not popped, and every further call is answered as a bag answers it. -/
theorem list_is_bag (l₀ : CMemList Obj) (hmax : 1 ≤ l₀.m_nMaxCount ∧ l₀.m_nMaxCount < 2^31)
    (calls : List (BagCall Obj)) :
    ∃ l answers, Simulation.run bagCall (clear l₀) calls = .ok (l, answers) ∧
      l.m_nMaxCount = l₀.m_nMaxCount ∧
      l.objects+((calls.zip answers).filterMap popped : Multiset Obj) =
        ((calls.zip answers).filterMap entered : Multiset Obj) ∧ AnswersAsBag l := by
  have hstart : Balanced l₀.m_nMaxCount (clear l₀) [] := by
    have htidy := tidy_clear l₀ hmax
    refine ⟨rfl, tidy_self _ _ htidy, ?_⟩
    rw [htidy.objects]
    rfl
  obtain ⟨l, answers, hrun, hn, htidy, hbalance⟩ := Simulation.run_of_history bagCall
    (Balanced l₀.m_nMaxCount) (fun l hist c h => balanced_call _ l hist c h) (clear l₀) [] calls hstart
  exact ⟨l, answers, hrun, hn, hbalance, answersAsBag_of_tidy l _ htidy⟩

/-- Two cells after their use for other objects. -/
def usedCells : CMemList ℕ :=
  { m_pArray := fun i => some i.toNat, m_nFlagArray := fun _ => 2, m_nCurCount := 2,
    m_nEmptyFirstIdx := 1, m_nMaxCount := 2 }

theorem list_is_bag_two : ∃ l answers,
    Simulation.run bagCall (clear usedCells) [.add 5, .setObj 1 6, .add 7, .pop, .add 8] = .ok (l, answers) ∧
      l.m_nMaxCount = 2 ∧
      l.objects+(([.add 5, .setObj 1 6, .add 7, .pop, .add 8].zip answers).filterMap popped : Multiset ℕ) =
        (([.add 5, .setObj 1 6, .add 7, .pop, .add 8].zip answers).filterMap entered : Multiset ℕ) ∧
      AnswersAsBag l :=
  list_is_bag usedCells (by decide) _

end Leviathan.CMemList
