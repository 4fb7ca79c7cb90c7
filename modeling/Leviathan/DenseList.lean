import Leviathan.PushBack

/-! `CSList` (comList.h, comList.cpp) as a sequence: what the loops over `getObj` up to the first NULL rely
on. -/
namespace Leviathan

variable {β : Type}

namespace CSList

variable (l : CSList β) (xs : List β) (obj : β)

section Push

variable (h : l.Holds xs)

include h

theorem Holds.getObj (i : ℤ) : l.getObj i = if 0 ≤ i then xs[i.toNat]? else none := by
  rw [CSList.getObj]
  by_cases hi : 0 ≤ i ∧ i < l.m_nMax
  · rw [if_pos ((isInclude_iff i l.m_nMax).mpr hi), if_pos hi.1]
    exact h.slot i.toNat
  · rw [if_neg (fun hin => hi ((isInclude_iff i l.m_nMax).mp hin))]
    have hle := h.dense.le_max
    split_ifs with hpos
    · rw [List.getElem?_eq_none (by omega)]
    · rfl

end Push

theorem holds_clear (hlen : l.m_pArray.length = l.m_nMax) : l.clear.1.Holds [] := by
  have harray : l.clear.1.m_pArray = List.replicate l.m_nMax none := by
    rw [clear, List.drop_of_length_le hlen.le, List.append_nil]
  have hslot (i : ℕ) : l.clear.1.slot i = none := by
    rw [CSList.slot, harray]
    exact congrFun (Slots.getD_replicate_none l.m_nMax) i
  refine ⟨⟨?_, rfl, rfl, fun i hi => absurd hi (Nat.not_lt_zero i), fun i _ => hslot i, Nat.zero_le _⟩,
    hslot⟩
  rw [harray]
  exact List.length_replicate

-- The array has `m_nMax` slots, whatever is pushed.
theorem length_pushBack (hlen : l.m_pArray.length = l.m_nMax) (ok : Bool) (r : CSList β × Option ℕ)
    (hr : l.pushBack obj ok = .ok r) : r.1.m_pArray.length = r.1.m_nMax := by
  rw [CSList.pushBack] at hr
  split_ifs at hr
  have hadd (i : ℕ) : (l.addSuccess i obj).m_pArray.length = l.m_nMax := (List.length_set ..).trans hlen
  rcases le_or_gt (l.m_nMax : ℤ) l.m_nUse with hfull | hroom
  · rw [pushBackInt_full l obj ok hfull] at hr
    cases ok with
    | false =>
      obtain rfl := Except.ok.inj hr
      exact hlen
    | true =>
      obtain rfl := Except.ok.inj hr
      show (List.set ..).length = l.m_nMax+unitAddSize
      rw [List.length_set, List.length_append, List.length_replicate, hlen]
  · rcases lt_or_ge l.m_nLast l.m_nMax with hlast | hlast
    · rcases pushBackInt_room l obj ok hroom hlast with hno | ⟨i, -, -, hstored⟩
      · obtain rfl := Except.ok.inj (hno.symm.trans hr)
        exact hlen
      · obtain rfl := Except.ok.inj (hstored.symm.trans hr)
        exact hadd i
    · rw [pushBackInt_behind l obj ok hroom hlast] at hr
      cases hr

end CSList

namespace Tracked

variable [DecidableEq β] (s : Tracked β)

/-- A list of the class, with an array of its capacity. -/
def IsSList : Prop := ∃ l, s.list = .slist l ∧ l.m_pArray.length = l.m_nMax

theorem isSList_step (h : s.IsSList) (c : Call β) (t : Tracked β) (ht : s.step c = some t) :
    t.IsSList := by
  obtain ⟨l, hl, hlen⟩ := h
  have hremove (i : ℕ) : (l._DEL i).m_pArray.length = (l._DEL i).m_nMax := (List.length_set ..).trans hlen
  cases c with
  | pushBack p ok =>
    obtain ⟨r, hr, rfl⟩ := Option.map_eq_some_iff.mp ht
    rw [hl, Container.pushBack] at hr
    cases hpush : l.pushBack p ok with
    | error e =>
      rw [hpush] at hr
      cases hr
    | ok r' =>
      rw [hpush] at hr
      obtain rfl := Option.some.inj hr
      exact ⟨r'.1, rfl, CSList.length_pushBack l p hlen ok r' hpush⟩
  | del p bDeepDelete =>
    obtain rfl := Option.some.inj ht
    refine ⟨(l.del p bDeepDelete).1, congrArg (Container.del p bDeepDelete) hl, ?_⟩
    rw [CSList.del]
    by_cases hi : (l.m_pArray.take l.m_nMax).idxOf (some p) < l.m_nMax
    · rw [if_pos hi]
      exact hremove _
    · rw [if_neg hi]
      exact hlen
  | delAt i bDeepDelete =>
    obtain rfl := Option.some.inj ht
    refine ⟨(l.delAt i bDeepDelete).1, congrArg (Container.delAt i bDeepDelete) hl, ?_⟩
    rw [CSList.delAt]
    by_cases hi : isInclude i l.m_nMax = true
    · rw [if_pos hi]
      exact hremove _
    · rw [if_neg hi]
      exact hlen
  | clear =>
    obtain ⟨c, hc, rfl⟩ := Option.map_eq_some_iff.mp ht
    rw [hl] at hc
    obtain rfl := Option.some.inj hc
    exact ⟨_, rfl, (CSList.holds_clear l hlen).dense.length⟩

/-- The objects are pushed one after the other, and `getObj` finds them again in this order. -/
def IsSequence (ps : List β) : Prop :=
  ∃ t l, Runs.runFrom step s (ps.map (Call.pushBack · true)) = some t ∧ t.list = .slist l ∧
    ∀ i : ℤ, l.getObj i = if 0 ≤ i then ps[i.toNat]? else none

section Pushes

variable (l : CSList β) (xs : List β) (hs : s.list = .slist l)

include hs

theorem step_pushBack (p : β) : s.step (.pushBack p true) = (l.pushBack p true).toOption.map (fun r =>
    { list := .slist r.1, pushed := if r.2.isSome then s.pushed+1 else s.pushed }) := by
  rw [step, hs, Container.pushBack]
  cases l.pushBack p true <;> rfl

variable (largest : ℕ) (h : l.HoldsUpTo largest xs)

include h

theorem step_pushBack_room (p : β) (hroom : xs.length < largest) : ∃ l', l'.HoldsUpTo largest (xs ++ [p]) ∧
    s.step (.pushBack p true) = some { list := .slist l', pushed := s.pushed+1 } := by
  obtain ⟨l', hpush, hl'⟩ := h.pushBack p hroom
  exact ⟨l', hl', by rw [step_pushBack s l hs p, hpush]; rfl⟩

theorem pushes_fit (ps : List β) (hfit : xs.length+ps.length ≤ largest) :
    ∃ t l', Runs.runFrom step s (ps.map (Call.pushBack · true)) = some t ∧ t.list = .slist l' ∧
      l'.Holds (xs ++ ps) := by
  induction ps generalizing s l xs with
  | nil => exact ⟨s, l, rfl, hs, (List.append_nil xs).symm ▸ h.holds⟩
  | cons p ps ih =>
    rw [List.length_cons] at hfit
    obtain ⟨l', hl', hstep⟩ := step_pushBack_room s l xs hs largest h p (by omega)
    obtain ⟨t, l'', hrun, ht, hl''⟩ := ih { list := .slist l', pushed := s.pushed+1 } l' (xs ++ [p]) rfl hl' (by
      rw [List.length_append, List.length_singleton]
      omega)
    rw [List.append_assoc, List.singleton_append] at hl''
    exact ⟨t, l'', (Runs.runFrom_cons_iff step _ _ _ _).mpr ⟨_, hstep, hrun⟩, ht, hl''⟩

-- The capacity would have to become a larger number than an `int` holds.
theorem pushes_over (ps : List β) (hover : largest < xs.length+ps.length) :
    Runs.runFrom step s (ps.map (Call.pushBack · true)) = none := by
  induction ps generalizing s l xs with
  | nil =>
    have hle := h.holds.dense.le_max.trans (le_largestMax l.m_nMax)
    rw [h.largest] at hle
    exact absurd hover (not_lt.mpr hle)
  | cons p ps ih =>
    rw [List.length_cons] at hover
    rw [List.map_cons, Runs.runFrom]
    rcases lt_or_ge xs.length largest with hroom | hfull
    · obtain ⟨l', hl', hstep⟩ := step_pushBack_room s l xs hs largest h p hroom
      rw [hstep, Option.bind_some]
      apply ih _ l' (xs ++ [p]) rfl hl'
      rw [List.length_append, List.length_singleton]
      omega
    · rw [step_pushBack s l hs p, CSList.pushBack_over l xs p true h.holds (h.largest.symm ▸ hfull)]
      rfl

end Pushes

theorem sequence_of_empty (l : CSList β) (hs : s.list = .slist l) (h : l.Holds []) (ps : List β) :
    s.IsSequence ps ↔ ps.length ≤ largestMax l.m_nMax := by
  constructor
  · rintro ⟨t, -, hrun, -⟩
    by_contra hover
    rw [pushes_over s l [] hs _ ⟨h, rfl⟩ ps (by rw [List.length_nil]; omega)] at hrun
    cases hrun
  · intro hfit
    obtain ⟨t, l', hrun, ht, hl'⟩ := pushes_fit s l [] hs _ ⟨h, rfl⟩ ps (by rw [List.length_nil]; omega)
    rw [List.nil_append] at hl'
    exact ⟨t, l', hrun, ht, hl'.getObj l' ps⟩

/-- From `alloc(n)` on, or from a `clear` after any calls, the objects that are pushed are a sequence for
`getObj` exactly when there are no more of them than the largest capacity that is an `int`. -/
theorem isSequence_iff (n : ℕ) (type : EAllocType) (calls : List (Call β))
    (hs : Runs.runFrom step { list := Container.alloc n true (.slist type), pushed := 0 } calls = some s)
    (hstart : calls = [] ∨ ∃ before, calls = before ++ [.clear]) (ps : List β) :
    s.IsSequence ps ↔ ps.length ≤ largestMax s.list.table.max := by
  have hempty : ∃ l, s.list = .slist l ∧ l.Holds [] := by
    rcases hstart with rfl | ⟨before, rfl⟩
    · obtain rfl := Option.some.inj hs
      exact ⟨_, rfl, CSList.holds_alloc n type⟩
    · obtain ⟨u, hu, hclear⟩ := (Runs.runFrom_append_iff step _ _ _ _).mp hs
      obtain ⟨l, hl, hlen⟩ := Runs.runFrom_invariant step IsSList (fun s c t h ht => isSList_step s h c t ht)
        _ u before ⟨_, rfl, (CSList.dense_alloc n type).length⟩ hu
      obtain ⟨v, hv, hlast⟩ := (Runs.runFrom_cons_iff step _ _ _ _).mp hclear
      obtain rfl := Option.some.inj hlast
      obtain ⟨c, hc, rfl⟩ := Option.map_eq_some_iff.mp hv
      rw [hl] at hc
      obtain rfl := Option.some.inj hc
      exact ⟨_, rfl, CSList.holds_clear l hlen⟩
  obtain ⟨l, hl, hholds⟩ := hempty
  have hmax : s.list.table.max = l.m_nMax := by
    rw [hl]
    rfl
  rw [hmax]
  exact sequence_of_empty s l hl hholds ps

theorem isSequence_iff_cleared :
    IsSequence { list := .slist ⟨[none, none], 0, 0, 2, .none⟩, pushed := 0 } [7, 8, 9] :=
  (isSequence_iff _ 2 .none [.pushBack 5 true, .delAt 0 true, .clear] rfl
    (Or.inr ⟨[.pushBack 5 true, .delAt 0 true], rfl⟩) [7, 8, 9]).mpr (by decide)

-- One object more than the largest `int`.
theorem not_isSequence : ¬IsSequence
    ({ list := Container.alloc (2^31-1) true (.slist .none), pushed := 0 } : Tracked ℕ)
    (List.replicate (2^31) 5) := by
  have hlen : (CSList.init.alloc (2^31-1) .none true : CSList ℕ).m_nMax = 2^31-1 := rfl
  rw [sequence_of_empty _ _ rfl (CSList.holds_alloc _ _), List.length_replicate, hlen]
  unfold largestMax unitAddSize
  omega

end Tracked

end Leviathan
