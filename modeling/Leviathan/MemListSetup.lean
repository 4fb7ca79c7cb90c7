import Leviathan.MemListBag

/-! How a `CMemList` (comTList.h) is set up: the constructor and `alloc` run on memory that may hold
anything. -/
namespace Leviathan.CMemList

variable {Obj : Type}

/-- The constructor, in the memory `mem`.  The arrays it sets to NULL are first used after `alloc`. -/
def construct (mem : CMemList Obj) : CMemList Obj := { mem with m_nCurCount := 0 }

/-- `alloc`, where both arrays are allocated: `calloc` clears the pointers, the loop the flags. -/
def alloc (l : CMemList Obj) (nMaxCount : ℕ) : CMemList Obj :=
  { l with m_pArray := fun _ => none, m_nFlagArray := fun _ => 0, m_nMaxCount := nMaxCount }

/-- The list with another hint. -/
def withHint (l : CMemList Obj) (g : ℤ) : CMemList Obj := { l with m_nEmptyFirstIdx := g }

/-- Every sequence of calls stays in the array of both lists, and they answer alike. -/
def Indistinguishable (l₁ l₂ : CMemList Obj) : Prop :=
  ∀ calls, ∃ l₁' l₂' answers, Simulation.run bagCall l₁ calls = .ok (l₁', answers) ∧
    Simulation.run bagCall l₂ calls = .ok (l₂', answers)

/-- Two hints for a list of `n` cells between which no call can tell. -/
def HintsAgree (n : ℕ) (g₁ g₂ : ℤ) : Prop :=
  (g₁ < n ∧ g₂ < n) ∧ (g₁ = g₂ ∨ (g₁ < 0 ∧ g₂ < 0) ∨ n = 1)

instance (n : ℕ) (g₁ g₂ : ℤ) : Decidable (HintsAgree n g₁ g₂) := inferInstanceAs (Decidable (_ ∧ _))

section Alike

/-- The second list is the first one with another hint. -/
structure Twins (n : ℕ) (l₁ l₂ : CMemList Obj) : Prop where
  max : l₁.m_nMaxCount = n
  tidy : Tidy l₁ l₁.objects
  same : l₂ = l₁.withHint l₂.m_nEmptyFirstIdx
  hints : HintsAgree n l₁.m_nEmptyFirstIdx l₂.m_nEmptyFirstIdx

variable (l : CMemList Obj)

theorem tidy_withHint (m : Multiset Obj) (g : ℤ) (h : Tidy l m) (hg : g < l.m_nMaxCount) :
    Tidy (l.withHint g) m := ⟨h.flag, h.ptr, h.objects, h.count, hg, h.max⟩

-- The loop of `add` neither reads the hint nor changes it.
theorem addLoop_withHint (o : Obj) (g : ℤ) (k : ℕ) (i : ℤ) :
    (l.withHint g).addLoop o k i = (l.addLoop o k i).map (fun r => (r.1.withHint g, r.2)) := by
  have hmax : (l.withHint g).m_nMaxCount = l.m_nMaxCount := rfl
  have hcount : (l.withHint g).m_nCurCount = l.m_nCurCount := rfl
  have hflag (c : ℤ) : (l.withHint g).flagAt c = l.flagAt c := rfl
  have hsuccess (i : ℤ) : (l.withHint g).addSuccess o i =
      (l.addSuccess o i).map (fun r => (r.1.withHint g, r.2)) := by
    rw [addSuccess, addSuccess, hmax]
    by_cases hi : isInclude i l.m_nMaxCount = true
    · rw [if_pos hi, if_pos hi]
      rfl
    · rw [if_neg hi, if_neg hi]
      rfl
  induction k generalizing i with
  | zero => exact hsuccess i
  | succ k ih =>
    rw [addLoop, addLoop, hmax, hcount]
    by_cases hfull : (l.m_nMaxCount : ℤ) ≤ l.m_nCurCount
    · rw [if_pos hfull, if_pos hfull]
      rfl
    · rw [if_neg hfull, if_neg hfull]
      dsimp only
      generalize (if i = (l.m_nMaxCount : ℤ) then 0 else i) = c
      rw [hflag]
      cases l.flagAt c with
      | error e => rfl
      | ok flag =>
        rw [ok_bind, ok_bind]
        split_ifs
        · exact hsuccess c
        · exact ih (c+1)

theorem setObj_withHint (g i : ℤ) (o : Obj) :
    (l.withHint g).setObj i o = ((l.setObj i o).1.withHint g, (l.setObj i o).2) := by
  have hfree : Free (l.withHint g) i ↔ Free l i := Iff.rfl
  by_cases h : Free l i
  · rw [setObj_free l i o h, setObj_free _ i o (hfree.mpr h)]
    rfl
  · rw [setObj_taken l i o h, setObj_taken _ i o (fun hg => h (hfree.mp hg))]

theorem twins_withHint (n : ℕ) (m : Multiset Obj) (g : ℤ) (h : Tidy l m) (hmax : l.m_nMaxCount = n)
    (hg : HintsAgree n l.m_nEmptyFirstIdx g) : Twins n l (l.withHint g) :=
  ⟨hmax, tidy_self l m h, rfl, hg⟩

variable (n : ℕ) (l₁ l₂ : CMemList Obj) (h : Twins n l₁ l₂)

include h

theorem tidy_twin : Tidy l₂ l₁.objects := by
  rw [h.same]
  apply tidy_withHint l₁ _ _ h.tidy
  rw [h.max]
  exact h.hints.1.2

-- With one cell there is only one place to store to.
theorem twins_add_one (o : Obj) (hone : n = 1) : ∃ l₁' l₂' i,
    l₁.add o = .ok (l₁', i) ∧ l₂.add o = .ok (l₂', i) ∧ Twins n l₁' l₂' := by
  have htidy := h.tidy
  have htidy₂ := tidy_twin n l₁ l₂ h
  have hmax := h.max
  have hmax₂ : l₂.m_nMaxCount = n := by rw [h.same]; exact hmax
  rcases add_tidy l₁ _ htidy o with ⟨hfull, hadd⟩ | ⟨hlt, g, j, hg, hfree, hadd⟩
  · rcases add_tidy l₂ _ htidy₂ o with ⟨-, hadd₂⟩ | ⟨hlt, -⟩
    · exact ⟨l₁, l₂, -1, hadd, hadd₂, h⟩
    · omega
  · rcases add_tidy l₂ _ htidy₂ o with ⟨hfull, -⟩ | ⟨-, g₂, j₂, hg₂, hfree₂, hadd₂⟩
    · omega
    · have hj : j = 0 := by
        have := hfree.1
        omega
      have hj₂ : j₂ = 0 := by
        have := hfree₂.1
        omega
      subst hj hj₂
      refine ⟨_, _, _, hadd, hadd₂, ?_⟩
      rw [h.same]
      apply twins_withHint _ n _ g₂ (tidy_stored l₁ _ htidy o g 0 hg hfree) hmax
      exact ⟨⟨hmax ▸ hg, hmax₂ ▸ hg₂⟩, Or.inr (Or.inr hone)⟩

theorem twins_add (o : Obj) : ∃ l₁' l₂' i,
    l₁.add o = .ok (l₁', i) ∧ l₂.add o = .ok (l₂', i) ∧ Twins n l₁' l₂' := by
  have hmax := h.max
  have hkept : ∃ r m, l₁.add o = .ok r ∧ Tidy r.1 m ∧ r.1.m_nMaxCount = n := by
    rcases add_tidy l₁ _ h.tidy o with ⟨-, hadd⟩ | ⟨-, g, j, hg, hfree, hadd⟩
    · exact ⟨_, _, hadd, h.tidy, hmax⟩
    · exact ⟨_, _, hadd, tidy_stored l₁ _ h.tidy o g j hg hfree, hmax⟩
  obtain ⟨r, m, hadd, htidy, hmax'⟩ := hkept
  rcases h.hints.2 with heq | ⟨hneg, hneg₂⟩ | hone
  · have hsame : l₂ = l₁ := by
      rw [h.same, ← heq]
      rfl
    have hrefl : HintsAgree n r.1.m_nEmptyFirstIdx r.1.m_nEmptyFirstIdx :=
      ⟨⟨hmax' ▸ htidy.hint, hmax' ▸ htidy.hint⟩, Or.inl rfl⟩
    rw [hsame]
    exact ⟨r.1, r.1, r.2, hadd, hadd, twins_withHint r.1 n m _ htidy hmax' hrefl⟩
  · rw [add_scan l₁ o hneg] at hadd
    have hkeep : r.1.m_nEmptyFirstIdx = l₁.m_nEmptyFirstIdx := by
      rcases addLoop_ok l₁ o _ _ r hadd with rfl | ⟨j, -, rfl⟩ <;> rfl
    have hadd₂ : l₂.add o = .ok (r.1.withHint l₂.m_nEmptyFirstIdx, r.2) := by
      rw [add_scan l₂ o hneg₂, h.same]
      refine (addLoop_withHint l₁ o l₂.m_nEmptyFirstIdx l₁.m_nMaxCount l₁.m_nCurCount).trans ?_
      rw [hadd]
      rfl
    refine ⟨r.1, _, r.2, (add_scan l₁ o hneg).trans hadd, hadd₂, ?_⟩
    apply twins_withHint r.1 n m _ htidy hmax'
    rw [hkeep]
    exact h.hints
  · exact twins_add_one n l₁ l₂ h o hone

theorem twins_setObj (i : ℤ) (o : Obj) : (l₂.setObj i o).2 = (l₁.setObj i o).2 ∧
    Twins n (l₁.setObj i o).1 (l₂.setObj i o).1 := by
  rw [h.same, setObj_withHint]
  refine ⟨rfl, ?_⟩
  by_cases hfree : Free l₁ i
  · obtain ⟨j, rfl⟩ := Int.eq_ofNat_of_zero_le hfree.1.1
    have htidy := tidy_stored l₁ _ h.tidy o l₁.m_nEmptyFirstIdx j h.tidy.hint hfree
    rw [setObj_free l₁ j o hfree]
    exact twins_withHint _ n _ _ htidy h.max h.hints
  · rw [setObj_taken l₁ i o hfree]
    exact twins_withHint _ n _ _ h.tidy h.max h.hints

theorem twins_pop : l₂.pop.2 = l₁.pop.2 ∧ Twins n l₁.pop.1 l₂.pop.1 := by
  have hpop := pop_eq l₁ _ h.tidy
  have hpop₂ := pop_eq l₂ _ (tidy_twin n l₁ l₂ h)
  have hnext : Slots.next l₂.m_nMaxCount l₂.cell 0 = Slots.next l₁.m_nMaxCount l₁.cell 0 := by
    rw [h.same]
    rfl
  rw [hnext] at hpop₂
  rw [hpop, hpop₂]
  cases hfound : Slots.next l₁.m_nMaxCount l₁.cell 0 with
  | none => exact ⟨rfl, h⟩
  | some r =>
    obtain ⟨⟨-, hj⟩, ho⟩ := Slots.next_some _ _ _ _ _ hfound
    obtain ⟨rest, -, htidy⟩ := tidy_del l₁ _ h.tidy r.2 r.1 hj ho
    obtain ⟨rest₂, -, htidy₂⟩ := tidy_del l₂ _ (tidy_twin n l₁ l₂ h) r.2 r.1
      (by rw [h.same]; exact hj) (by rw [h.same]; exact ho)
    have hmax : (l₂._del r.1).m_nMaxCount = n := by
      rw [h.same]
      exact h.max
    refine ⟨rfl, h.max, tidy_self _ _ htidy, ?_, ⟨h.max ▸ htidy.hint, hmax ▸ htidy₂.hint⟩, ?_⟩
    · show l₂._del r.1 = (l₁._del r.1).withHint (l₂._del r.1).m_nEmptyFirstIdx
      rw [h.same]
      rfl
    · show (if l₁.m_nEmptyFirstIdx < 0 ∨ (r.1 : ℤ) < l₁.m_nEmptyFirstIdx then (r.1 : ℤ) else
          l₁.m_nEmptyFirstIdx) =
        (if l₂.m_nEmptyFirstIdx < 0 ∨ (r.1 : ℤ) < l₂.m_nEmptyFirstIdx then (r.1 : ℤ) else
          l₂.m_nEmptyFirstIdx) ∨ _
      rcases h.hints.2 with heq | ⟨hneg, hneg₂⟩ | hone
      · rw [heq]
        exact Or.inl rfl
      · rw [if_pos (Or.inl hneg), if_pos (Or.inl hneg₂)]
        exact Or.inl rfl
      · exact Or.inr (Or.inr hone)

theorem twins_call (c : BagCall Obj) : ∃ l₁' l₂' a,
    l₁.bagCall c = .ok (l₁', a) ∧ l₂.bagCall c = .ok (l₂', a) ∧ Twins n l₁' l₂' := by
  cases c with
  | add o =>
    obtain ⟨l₁', l₂', i, hadd, hadd₂, htwins⟩ := twins_add n l₁ l₂ h o
    exact ⟨l₁', l₂', .index i, by rw [bagCall, hadd]; rfl, by rw [bagCall, hadd₂]; rfl, htwins⟩
  | setObj i o =>
    obtain ⟨hanswer, htwins⟩ := twins_setObj n l₁ l₂ h i o
    exact ⟨_, _, _, rfl, by rw [bagCall, hanswer], htwins⟩
  | pop =>
    obtain ⟨hanswer, htwins⟩ := twins_pop n l₁ l₂ h
    exact ⟨_, _, _, rfl, by rw [bagCall, hanswer], htwins⟩

theorem indistinguishable_of_twins : Indistinguishable l₁ l₂ := by
  intro calls
  exact Simulation.run_twins bagCall (Twins n) (fun c d op hcd => twins_call n c d hcd op) l₁ l₂ calls h

end Alike

section Fresh

/-- A list as the users of the class set it up, in the memory `mem`. -/
def setUp (mem : CMemList Obj) (nMaxCount : ℕ) : CMemList Obj := alloc (construct mem) nMaxCount

theorem add_at_hint (l : CMemList Obj) (o : Obj)
    (hhint : 0 ≤ l.m_nEmptyFirstIdx ∧ l.m_nEmptyFirstIdx < l.m_nMaxCount)
    (hflag : l.m_nFlagArray l.m_nEmptyFirstIdx = 0) : ∃ l', l.add o = .ok (l', l.m_nEmptyFirstIdx) := by
  have hclaimed := addSuccess_eq { l with m_nEmptyFirstIdx := -1 } o l.m_nEmptyFirstIdx hhint
  refine ⟨_, Eq.trans ?_ hclaimed⟩
  rw [add, if_pos hhint.1, flagAt_eq l _ hhint, ok_bind, if_pos hflag]

variable (mem : CMemList Obj) (n : ℕ) (o : Obj)

theorem setUp_add_fault (hg : (n : ℤ) ≤ mem.m_nEmptyFirstIdx) :
    (setUp mem n).add o = .error .outOfBounds := by
  have hpos : 0 ≤ (setUp mem n).m_nEmptyFirstIdx := by
    show 0 ≤ mem.m_nEmptyFirstIdx
    omega
  rw [add, if_pos hpos, flagAt_error _ _ (fun h => not_lt.mpr hg h.2)]
  rfl

theorem setUp_add (hn : 1 ≤ n) (hg : mem.m_nEmptyFirstIdx < n) :
    ∃ l', (setUp mem n).add o = .ok (l', max mem.m_nEmptyFirstIdx 0) := by
  rcases le_or_gt 0 mem.m_nEmptyFirstIdx with hpos | hneg
  · rw [max_eq_left hpos]
    exact add_at_hint (setUp mem n) o ⟨hpos, hg⟩ rfl
  · obtain ⟨k, rfl⟩ : ∃ k, n = k+1 := ⟨n-1, by omega⟩
    have hloop := addLoop_of_scan (setUp mem (k+1)) o (Int.natCast_pos.mpr k.succ_pos) (k+1) 0 0
      (Nat.zero_le _) k.succ_pos rfl
    rw [max_eq_right hneg.le, add_scan (setUp mem (k+1)) o hneg]
    exact ⟨_, hloop⟩

-- An object that comes and goes in cell 1 leaves its mark where the hint was negative.
theorem setUp_probe (hn : 2 ≤ n) (hg : mem.m_nEmptyFirstIdx ≤ 0) :
    ∃ l', Simulation.run bagCall (setUp mem n) [.setObj 1 o, .pop, .add o] =
      .ok (l', [.done true, .obj (some o), .index (if mem.m_nEmptyFirstIdx < 0 then 1 else 0)]) := by
  obtain ⟨k, rfl⟩ : ∃ k, n = k+2 := ⟨n-2, by omega⟩
  have hfree : Free (setUp mem (k+2)) 1 := by
    refine ⟨⟨by decide, ?_⟩, rfl⟩
    show (1 : ℤ) < ((k+2 : ℕ) : ℤ)
    omega
  have hpop : ((setUp mem (k+2)).stored o 1).pop = (((setUp mem (k+2)).stored o 1)._del 1, some o) :=
    rfl
  obtain ⟨l', hadd⟩ : ∃ l', (((setUp mem (k+2)).stored o 1)._del 1).add o =
      .ok (l', if mem.m_nEmptyFirstIdx < 0 then 1 else 0) := by
    have hhint : (((setUp mem (k+2)).stored o 1)._del 1).m_nEmptyFirstIdx =
        if mem.m_nEmptyFirstIdx < 0 then 1 else 0 := by
      show (if mem.m_nEmptyFirstIdx < 0 ∨ 1 < mem.m_nEmptyFirstIdx then 1 else mem.m_nEmptyFirstIdx) = _
      split_ifs <;> omega
    have hmax : (((setUp mem (k+2)).stored o 1)._del 1).m_nMaxCount = k+2 := rfl
    rw [← hhint]
    apply add_at_hint
    · rw [hhint, hmax]
      split_ifs <;> omega
    · rw [flag_del, flag_stored]
      split_ifs <;> rfl
  refine ⟨l', ?_⟩
  simp only [Simulation.run, bagCall, setObj_free _ 1 o hfree, hpop, hadd, Except.map]

end Fresh

/-- Two lists of `n` cells set up in different memories cannot be told apart by any sequence of `add`,
`setObj` and `pop`, all of them in the array, exactly when the hints that were in the memories agree. -/
theorem setUp_indistinguishable_iff (mem₁ mem₂ : CMemList Obj) (n : ℕ) (o : Obj)
    (hn : 1 ≤ n ∧ n < 2^31) :
    Indistinguishable (setUp mem₁ n) (setUp mem₂ n) ↔
      HintsAgree n mem₁.m_nEmptyFirstIdx mem₂.m_nEmptyFirstIdx := by
  constructor
  · intro h
    obtain ⟨_, _, answers, hrun₁, hrun₂⟩ := h [.add o]
    have hlt (mem : CMemList Obj) (l' : CMemList Obj)
        (hrun : Simulation.run bagCall (setUp mem n) [.add o] = .ok (l', answers)) :
        mem.m_nEmptyFirstIdx < n := by
      by_contra hge
      have hfault := setUp_add_fault mem n o (not_lt.mp hge)
      simp only [Simulation.run, bagCall, hfault, Except.map] at hrun
      cases hrun
    have hlt₁ := hlt mem₁ _ hrun₁
    have hlt₂ := hlt mem₂ _ hrun₂
    have hindex (mem : CMemList Obj) (l' : CMemList Obj) (hg : mem.m_nEmptyFirstIdx < n)
        (hrun : Simulation.run bagCall (setUp mem n) [.add o] = .ok (l', answers)) :
        answers = [.index (max mem.m_nEmptyFirstIdx 0)] := by
      obtain ⟨l'', hadd⟩ := setUp_add mem n o hn.1 hg
      simp only [Simulation.run, bagCall, hadd, Except.map] at hrun
      exact (Prod.mk.inj (Except.ok.inj hrun)).2.symm
    have hmax := (hindex mem₁ _ hlt₁ hrun₁).symm.trans (hindex mem₂ _ hlt₂ hrun₂)
    simp only [List.cons.injEq, BagAnswer.index.injEq, and_true] at hmax
    refine ⟨⟨hlt₁, hlt₂⟩, ?_⟩
    by_contra hdiffer
    obtain ⟨_, _, answers', hprobe₁, hprobe₂⟩ := h [.setObj 1 o, .pop, .add o]
    obtain ⟨l₁', hexp₁⟩ := setUp_probe mem₁ n o (by omega) (by omega)
    obtain ⟨l₂', hexp₂⟩ := setUp_probe mem₂ n o (by omega) (by omega)
    rw [hexp₁] at hprobe₁
    rw [hexp₂] at hprobe₂
    have hlast := (Prod.mk.inj (Except.ok.inj hprobe₁)).2.trans
      (Prod.mk.inj (Except.ok.inj hprobe₂)).2.symm
    simp only [List.cons.injEq, BagAnswer.index.injEq, and_true, true_and] at hlast
    split_ifs at hlast <;> omega
  · intro hagree
    apply indistinguishable_of_twins n
    apply twins_withHint (setUp mem₁ n) n 0 mem₂.m_nEmptyFirstIdx _ rfl hagree
    exact tidy_empty _ (fun _ _ => rfl) rfl hagree.1.1 hn

/-- Memory with `g` where the hint will be. -/
def leftover (g : ℤ) : CMemList ℕ :=
  { m_pArray := fun _ => some 9, m_nFlagArray := fun _ => 7, m_nCurCount := -3, m_nEmptyFirstIdx := g,
    m_nMaxCount := 8 }

theorem setUp_indistinguishable_three :
    Indistinguishable (setUp (leftover (-1)) 3) (setUp (leftover (-7)) 3) :=
  (setUp_indistinguishable_iff (leftover (-1)) (leftover (-7)) 3 0 (by decide)).mpr (by decide)

-- The first `add` of all looks at the cell that the memory names, or at cell 0.
theorem not_indistinguishable_leftover :
    (setUp (leftover 5) 1).add 0 = .error .outOfBounds ∧
      ¬Indistinguishable (setUp (leftover 2) 4) (setUp (leftover 0) 4) := by
  refine ⟨rfl, fun h => ?_⟩
  obtain ⟨l₁', l₂', answers, hrun₁, hrun₂⟩ := h [.add 0]
  have hanswers₁ : [.index 2] = answers := (Prod.mk.inj (Except.ok.inj hrun₁)).2
  have hanswers₂ : [.index 0] = answers := (Prod.mk.inj (Except.ok.inj hrun₂)).2
  have hindex : BagAnswer.index (2 : ℤ) = (.index 0 : BagAnswer ℕ) :=
    (List.cons.inj (hanswers₁.trans hanswers₂.symm)).1
  cases hindex

end Leviathan.CMemList
