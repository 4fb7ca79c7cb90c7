import Leviathan.Runs
import Leviathan.SList
import Leviathan.Slots
import Leviathan.TList

/-! `push_back` of the two growing lists, `CSList` (comList.h, comList.cpp) and `CTList` (comTList.h):
which slot it takes after any pushes and deletions. -/
namespace Leviathan

variable {β : Type}

section SList

variable (l : CSList β)

/-- `clear`: the list, and the objects that are freed. -/
def CSList.clear : CSList β × List β :=
  ({ l with
      m_pArray := List.replicate l.m_nMax none ++ l.m_pArray.drop l.m_nMax
      m_nUse := 0
      m_nLast := 0 },
    if isAbleToDelete l.m_nObjAllocType then Slots.contents l.m_nMax l.slot else [])

/-- `del(void *, bool)`: the list, the answer, and the object that is freed. -/
def CSList.del [DecidableEq β] (p : β) (bDeepDelete : Bool) : CSList β × Bool × Option β :=
  let i := (l.m_pArray.take l.m_nMax).idxOf (some p)
  if i < l.m_nMax then
    (l._DEL i, true, if bDeepDelete && isAbleToDelete l.m_nObjAllocType then some p else none)
  else (l, false, none)

end SList

/-- What both of them have: the slots, `m_nUse`, `m_nLast` and `m_nMax`. -/
structure Table (β : Type) where
  slots : List (Option β)
  use : ℤ
  last : ℕ
  max : ℕ

namespace Table

variable (t : Table β)

def slot (i : ℕ) : Option β := t.slots.getD i none

def store (i : ℕ) (p : β) : Table β :=
  { t with slots := t.slots.set i (some p), use := t.use+1, last := t.last+1 }

def remove (i : ℕ) : Table β := { t with slots := t.slots.set i none, use := t.use-1 }

def grow (d : ℕ) : Table β := { t with slots := t.slots ++ List.replicate d none, max := t.max+d }

/-- The array has `max` slots, `use` counts the taken ones and `last` the `k` pushes. -/
structure Sound (t : Table β) (k : ℕ) : Prop where
  length : t.slots.length = t.max
  use : t.use = (Slots.contents t.max t.slot).length
  last : t.last = k

theorem sound_empty (n : ℕ) :
    Sound ({ slots := List.replicate n none, use := 0, last := 0, max := n } : Table β) 0 := by
  refine ⟨List.length_replicate, ?_, rfl⟩
  show (0 : ℤ) = (Slots.contents n (fun j => (List.replicate n none).getD j (none : Option β))).length
  rw [Slots.getD_replicate_none, Slots.contents_none]
  rfl

theorem slot_grow (d : ℕ) : (t.grow d).slot = t.slot := Slots.getD_append_none t.slots d

variable (k : ℕ) (h : Sound t k)

include h

theorem slot_none_of_ge (i : ℕ) (hi : t.max ≤ i) : t.slot i = none := by
  rw [slot, List.getD_eq_default]
  rw [h.length]
  exact hi

theorem slot_lt (i : ℕ) (hi : t.slot i ≠ none) : i < t.max := by
  by_contra hge
  exact hi (slot_none_of_ge t k h i (not_lt.mp hge))

-- `m_nUse` has reached `m_nMax` when every slot is taken.
theorem full_iff : (t.max : ℤ) ≤ t.use ↔ ∀ i < t.max, t.slot i ≠ none := by
  rw [h.use]
  constructor
  · intro hfull i hi hfree
    have hlt := Slots.length_contents_lt t.max t.slot i hi hfree
    omega
  · intro htaken
    rw [Slots.length_contents_of_taken t.max t.slot htaken]

theorem sound_store (i : ℕ) (p : β) (hi : i < t.max) (hfree : t.slot i = none) :
    Sound (t.store i p) (k+1) := by
  have hslot : (t.store i p).slot = Function.update t.slot i (some p) :=
    Slots.getD_set t.slots i (h.length ▸ hi) (some p)
  refine ⟨(List.length_set ..).trans h.length, ?_, congrArg (· + 1) h.last⟩
  show t.use+1 = ((Slots.contents t.max (t.store i p).slot).length : ℤ)
  rw [hslot, Slots.length_put t.max t.slot i hi p hfree, h.use]
  push_cast
  rfl

theorem sound_remove (i : ℕ) (hi : t.slot i ≠ none) : Sound (t.remove i) k := by
  have hlt := slot_lt t k h i hi
  obtain ⟨p, hp⟩ := Option.ne_none_iff_exists'.mp hi
  have hslot : (t.remove i).slot = Function.update t.slot i none :=
    Slots.getD_set t.slots i (h.length ▸ hlt) none
  refine ⟨(List.length_set ..).trans h.length, ?_, h.last⟩
  show t.use-1 = ((Slots.contents t.max (t.remove i).slot).length : ℤ)
  rw [hslot, h.use, Slots.length_take t.max t.slot i hlt p hp]
  push_cast
  ring

theorem sound_grow (d : ℕ) : Sound (t.grow d) k := by
  refine ⟨?_, ?_, h.last⟩
  · show (t.slots ++ List.replicate d none).length = t.max+d
    rw [List.length_append, List.length_replicate, h.length]
  · show t.use = ((Slots.contents (t.max+d) (t.grow d).slot).length : ℤ)
    rw [slot_grow, Slots.contents_add t.max t.slot d (fun i hi _ => slot_none_of_ge t k h i hi)]
    exact h.use

end Table

section Lists

-- A full list stores behind its old slots, if the larger array can be had.
theorem CSList.pushBackInt_full (l : CSList β) (obj : β) (ok : Bool)
    (hfull : (l.m_nMax : ℤ) ≤ l.m_nUse) : l.pushBackInt obj ok = if ok then
      .ok (CSList.addSuccess { l with
        m_pArray := l.m_pArray ++ List.replicate unitAddSize none
        m_nMax := l.m_nMax+unitAddSize } l.m_nMax obj, some l.m_nMax)
      else .ok (l, none) := by
  have hlarger : ¬l.m_nMax+unitAddSize ≤ l.m_nMax := by
    rw [unitAddSize]
    omega
  have hne : l.m_nMax+unitAddSize ≠ 0 := Nat.succ_ne_zero _
  rw [CSList.pushBackInt, if_pos hfull, CSList._alloc, if_neg hlarger]
  cases ok with
  | false => rfl
  | true =>
    show (if l.m_nMax+unitAddSize = 0 then _ else _) = _
    rw [if_neg hne, if_pos rfl, Nat.add_sub_cancel_left]
    rfl

theorem CTList.pushBack_full (l : CTList β) (obj : β) (ok : Bool) (hfull : (l.m_nMax : ℤ) ≤ l.m_nUse) :
    l.pushBack obj ok = if ok then .ok (l.grow.addSuccess l.m_nMax obj, some l.m_nMax)
      else .ok (l, none) := by
  have hne : l.m_nMax+tListAddSize ≠ 0 := Nat.succ_ne_zero _
  rw [CTList.pushBack, if_pos hfull, CTList._alloc]
  cases ok with
  | false => rfl
  | true =>
    show (if l.m_nMax+tListAddSize = 0 then _ else _) = _
    rw [if_neg hne, if_pos rfl, Nat.add_sub_cancel_left]
    rfl

-- A free slot is searched from slot `last` on, which is looked at first.
theorem search_cases {L : Type} (slot : ℕ → Option β) (max last : ℕ) (hlast : last < max) (l : L)
    (put : ℕ → L) (r : Except Fault (L × Option ℕ))
    (hr : r = if (slot last).isNone then .ok (put last, some last) else
      match scanFrom max (fun i => (slot i).isNone) max last with
      | some i => .ok (put i, some i)
      | none => .ok (l, none)) :
    r = .ok (l, none) ∨ ∃ i < max, slot i = none ∧ r = .ok (put i, some i) := by
  by_cases hs : (slot last).isNone = true
  · rw [if_pos hs] at hr
    exact Or.inr ⟨last, hlast, Option.isNone_iff_eq_none.mp hs, hr⟩
  · rw [if_neg hs] at hr
    cases hscan : scanFrom max (fun i => (slot i).isNone) max last with
    | none =>
      rw [hscan] at hr
      exact Or.inl hr
    | some i =>
      rw [hscan] at hr
      obtain ⟨hi, hfree⟩ := scanFrom_free max _ (by omega) max last i hlast.le hscan
      exact Or.inr ⟨i, hi, Option.isNone_iff_eq_none.mp hfree, hr⟩

theorem CSList.pushBackInt_room (l : CSList β) (obj : β) (ok : Bool) (hroom : l.m_nUse < l.m_nMax)
    (hlast : l.m_nLast < l.m_nMax) : l.pushBackInt obj ok = .ok (l, none) ∨
      ∃ i < l.m_nMax, l.slot i = none ∧ l.pushBackInt obj ok = .ok (l.addSuccess i obj, some i) := by
  apply search_cases l.slot l.m_nMax l.m_nLast hlast l (fun i => l.addSuccess i obj)
  exact (if_neg (not_le.mpr hroom)).trans (if_neg (not_le.mpr hlast))

theorem CTList.pushBack_room (l : CTList β) (obj : β) (ok : Bool) (hroom : l.m_nUse < l.m_nMax)
    (hlast : l.m_nLast < l.m_nMax) : l.pushBack obj ok = .ok (l, none) ∨
      ∃ i < l.m_nMax, l.slot i = none ∧ l.pushBack obj ok = .ok (l.addSuccess i obj, some i) := by
  apply search_cases l.slot l.m_nMax l.m_nLast hlast l (fun i => l.addSuccess i obj)
  exact (if_neg (not_le.mpr hroom)).trans (if_neg (not_le.mpr hlast))

theorem CSList.pushBackInt_behind (l : CSList β) (obj : β) (ok : Bool) (hroom : l.m_nUse < l.m_nMax)
    (hlast : l.m_nMax ≤ l.m_nLast) : l.pushBackInt obj ok = .error .outOfBounds := by
  rw [CSList.pushBackInt, if_neg (not_le.mpr hroom), if_pos hlast]

theorem CTList.pushBack_behind (l : CTList β) (obj : β) (ok : Bool) (hroom : l.m_nUse < l.m_nMax)
    (hlast : l.m_nMax ≤ l.m_nLast) : l.pushBack obj ok = .error .outOfBounds := by
  rw [CTList.pushBack, if_neg (not_le.mpr hroom), if_pos hlast]

end Lists

/-- One of the two lists. -/
inductive Container (β : Type)
  | slist (l : CSList β)
  | tlist (l : CTList β)

namespace Container

/-- `alloc` on a new list; `type` stands for what it does with its objects. -/
inductive Kind
  | slist (type : EAllocType)
  | tlist

def alloc (nMaxCount : ℕ) (ok : Bool) : Kind → Container β
  | .slist type => .slist (CSList.init.alloc nMaxCount type ok)
  | .tlist => .tlist (CTList.init.alloc nMaxCount ok)

def table : Container β → Table β
  | .slist l => { slots := l.m_pArray, use := l.m_nUse, last := l.m_nLast, max := l.m_nMax }
  | .tlist l => { slots := l.m_pArray, use := l.m_nUse, last := l.m_nLast, max := l.m_nMax }

/-- `push_back`, where `m_nMax` is a 32-bit `int`: a size that has become negative is one for which
`CTList::__alloc` asks `calloc` in vain. -/
def pushBack (obj : β) (ok : Bool) : Container β → Except Fault (Container β × Option ℕ)
  | .slist l => (l.pushBack obj ok).map (fun r => (.slist r.1, r.2))
  | .tlist l =>
    (l.pushBack obj (ok && decide (l.m_nMax+tListAddSize < 2^31))).map (fun r => (.tlist r.1, r.2))

def del [DecidableEq β] (p : β) (bDeepDelete : Bool) : Container β → Container β
  | .slist l => .slist (l.del p bDeepDelete).1
  | .tlist l => .tlist (l.del p).1

/-- `del(int)`. -/
def delAt (i : ℤ) (bDeepDelete : Bool) : Container β → Container β
  | .slist l => .slist (l.delAt i bDeepDelete).1
  | .tlist l => .tlist (if isInclude i l.m_nMax then l._DEL i.toNat else l)

/-- `clear`, which only `CSList` has. -/
def clear : Container β → Option (Container β)
  | .slist l => some (.slist l.clear.1)
  | .tlist _ => none

/-- A larger array has a size that is an `int`. -/
def Grows : Container β → Prop
  | .slist l => l.m_nMax+unitAddSize < 2^31
  | .tlist _ => True

instance (c : Container β) : Decidable c.Grows :=
  match c with
  | .slist l => inferInstanceAs (Decidable (l.m_nMax+unitAddSize < 2^31))
  | .tlist _ => isTrue trivial

section Push

variable (c : Container β) (k : ℕ) (h : c.table.Sound k) (obj : β) (ok : Bool)

/-- What a `push_back` that does not fault has done: nothing, or a store to an empty slot of the list or
of the larger one. -/
def Pushed (c : Container β) (obj : β) (r : Container β × Option ℕ) : Prop :=
  r = (c, none) ∨ ∃ g i, (g = c.table ∨ ∃ d, g = c.table.grow d) ∧ i < g.max ∧ g.slot i = none ∧
    r.1.table = g.store i obj ∧ r.2 = some i

include h

theorem pushBack_full (hfull : (c.table.max : ℤ) ≤ c.table.use) (hgrows : c.Grows) :
    ∃ r, c.pushBack obj ok = .ok r ∧ Pushed c obj r := by
  have hfree (d : ℕ) : (c.table.grow d).slot c.table.max = none := by
    rw [Table.slot_grow]
    exact Table.slot_none_of_ge _ k h _ le_rfl
  cases c with
  | slist l =>
    have hno : ¬((l.m_nMax : ℤ) ≤ l.m_nUse ∧ 2^31 ≤ l.m_nMax+unitAddSize) := fun hover =>
      absurd hgrows (not_lt.mpr hover.2)
    rw [pushBack, CSList.pushBack, if_neg hno, CSList.pushBackInt_full l obj ok hfull]
    cases ok with
    | false => exact ⟨_, rfl, Or.inl rfl⟩
    | true =>
      refine ⟨_, rfl, Or.inr ⟨_, l.m_nMax, Or.inr ⟨unitAddSize, rfl⟩, ?_, hfree unitAddSize, rfl, rfl⟩⟩
      show l.m_nMax < l.m_nMax+unitAddSize
      rw [unitAddSize]
      omega
  | tlist l =>
    rw [pushBack, CTList.pushBack_full l obj _ hfull]
    cases ok && decide (l.m_nMax+tListAddSize < 2^31) with
    | false => exact ⟨_, rfl, Or.inl rfl⟩
    | true =>
      refine ⟨_, rfl, Or.inr ⟨_, l.m_nMax, Or.inr ⟨tListAddSize, rfl⟩, ?_, hfree tListAddSize, rfl, rfl⟩⟩
      show l.m_nMax < l.m_nMax+tListAddSize
      rw [tListAddSize]
      omega

omit h in
theorem pushBack_room (hroom : c.table.use < c.table.max) (hlast : c.table.last < c.table.max) :
    ∃ r, c.pushBack obj ok = .ok r ∧ Pushed c obj r := by
  cases c with
  | slist l =>
    have hno : ¬((l.m_nMax : ℤ) ≤ l.m_nUse ∧ 2^31 ≤ l.m_nMax+unitAddSize) := fun hover =>
      absurd hroom (not_lt.mpr hover.1)
    rw [pushBack, CSList.pushBack, if_neg hno]
    rcases CSList.pushBackInt_room l obj ok hroom hlast with hpush | ⟨i, hi, hfree, hpush⟩
    · exact ⟨_, by rw [hpush]; rfl, Or.inl rfl⟩
    · exact ⟨_, by rw [hpush]; rfl, Or.inr ⟨_, i, Or.inl rfl, hi, hfree, rfl, rfl⟩⟩
  | tlist l =>
    rw [pushBack]
    rcases CTList.pushBack_room l obj (ok && decide (l.m_nMax+tListAddSize < 2^31)) hroom hlast with
      hpush | ⟨i, hi, hfree, hpush⟩
    · exact ⟨_, by rw [hpush]; rfl, Or.inl rfl⟩
    · exact ⟨_, by rw [hpush]; rfl, Or.inr ⟨_, i, Or.inl rfl, hi, hfree, rfl, rfl⟩⟩

omit h in
-- The slot at `m_nLast` is read behind the array, or the size of the larger array is negative.
theorem pushBack_error (hbad : (c.table.use < c.table.max ∧ c.table.max ≤ c.table.last) ∨
    ((c.table.max : ℤ) ≤ c.table.use ∧ ¬c.Grows)) : c.pushBack obj ok = .error .outOfBounds := by
  cases c with
  | slist l =>
    rw [pushBack, CSList.pushBack]
    rcases hbad with ⟨hroom, hlast⟩ | ⟨hfull, hgrows⟩
    · have hno : ¬((l.m_nMax : ℤ) ≤ l.m_nUse ∧ 2^31 ≤ l.m_nMax+unitAddSize) := fun hover =>
        absurd hroom (not_lt.mpr hover.1)
      rw [if_neg hno, CSList.pushBackInt_behind l obj ok hroom hlast]
      rfl
    · rw [if_pos ⟨hfull, not_lt.mp hgrows⟩]
      rfl
  | tlist l =>
    rcases hbad with ⟨hroom, hlast⟩ | ⟨-, hgrows⟩
    · rw [pushBack, CTList.pushBack_behind l obj _ hroom hlast]
      rfl
    · exact absurd trivial hgrows

theorem pushed_of_ok (r : Container β × Option ℕ) (hr : c.pushBack obj ok = .ok r) : Pushed c obj r := by
  have hexists : ∃ r, c.pushBack obj ok = .ok r ∧ Pushed c obj r := by
    rcases le_or_gt (c.table.max : ℤ) c.table.use with hfull | hroom
    · by_cases hgrows : c.Grows
      · exact pushBack_full c k h obj ok hfull hgrows
      · rw [pushBack_error c obj ok (Or.inr ⟨hfull, hgrows⟩)] at hr
        cases hr
    · by_cases hlast : c.table.last < c.table.max
      · exact pushBack_room c obj ok hroom hlast
      · rw [pushBack_error c obj ok (Or.inl ⟨hroom, not_lt.mp hlast⟩)] at hr
        cases hr
  obtain ⟨r', hr', hpushed⟩ := hexists
  obtain rfl := Except.ok.inj (hr.symm.trans hr')
  exact hpushed

-- A store counts as one more push.
theorem sound_pushed (r : Container β × Option ℕ) (hr : Pushed c obj r) :
    r.1.table.Sound (if r.2.isSome then k+1 else k) ∧
      ∀ i, r.2 = some i → i < r.1.table.max ∧ c.table.slot i = none ∧ r.1.table.slot i = some obj := by
  rcases hr with rfl | ⟨g, i, hg, hi, hfree, htable, hindex⟩
  · exact ⟨h, fun i hi => nomatch hi⟩
  · have hsound : g.Sound k := by
      rcases hg with rfl | ⟨d, rfl⟩
      · exact h
      · exact Table.sound_grow c.table k h d
    have hslot : g.slot = c.table.slot := by
      rcases hg with rfl | ⟨d, rfl⟩
      · rfl
      · exact Table.slot_grow c.table d
    have hstored : (g.store i obj).slot i = some obj := by
      have hupdate : (g.store i obj).slot = Function.update g.slot i (some obj) :=
        Slots.getD_set g.slots i (hsound.length ▸ hi) (some obj)
      rw [hupdate, Function.update_self]
    rw [htable, hindex]
    refine ⟨Table.sound_store g k hsound i obj hi hfree, fun j hj => ?_⟩
    obtain rfl := Option.some.inj hj
    exact ⟨hi, hslot ▸ hfree, hstored⟩

end Push

end Container

/-- A list, and the number of the `push_back`s that have stored since it was empty. -/
structure Tracked (β : Type) where
  list : Container β
  pushed : ℕ

namespace Tracked

inductive Call (β : Type)
  | pushBack (p : β) (ok : Bool)
  | del (p : β) (bDeepDelete : Bool)
  | delAt (i : ℤ) (bDeepDelete : Bool)
  | clear

variable [DecidableEq β] (s : Tracked β)

def step : Call β → Option (Tracked β)
  | .pushBack p ok => (s.list.pushBack p ok).toOption.map (fun r =>
      { list := r.1, pushed := if r.2.isSome then s.pushed+1 else s.pushed })
  | .del p bDeepDelete => some { s with list := s.list.del p bDeepDelete }
  | .delAt i bDeepDelete => some { s with list := s.list.delAt i bDeepDelete }
  | .clear => s.list.clear.map (fun c => { list := c, pushed := 0 })

/-- Only objects in the list are deleted. -/
def Present : Call β → Prop
  | .pushBack _ _ => True
  | .del p _ => ∃ i < s.list.table.max, s.list.table.slot i = some p
  | .delAt i _ => 0 ≤ i ∧ s.list.table.slot i.toNat ≠ none
  | .clear => True

/-- `push_back` stays in the array, and where it stores it fills an empty slot of it. -/
def Right : Call β → Prop
  | .pushBack p ok => ∃ r, s.list.pushBack p ok = .ok r ∧ ∀ i, r.2 = some i →
      i < r.1.table.max ∧ s.list.table.slot i = none ∧ r.1.table.slot i = some p
  | _ => True

/-- While there is an empty slot, fewer objects have been pushed than there are slots; without one, a
larger array has a size. -/
def FewPushes : Call β → Prop
  | .pushBack _ _ =>
    ((∃ i < s.list.table.max, s.list.table.slot i = none) → s.pushed < s.list.table.max) ∧
      ((∀ i < s.list.table.max, s.list.table.slot i ≠ none) → s.list.Grows)
  | _ => True

instance : (c : Call β) → Decidable (s.Present c)
  | .pushBack _ _ | .clear => isTrue trivial
  | .del p _ => inferInstanceAs (Decidable (∃ i < s.list.table.max, s.list.table.slot i = some p))
  | .delAt i _ => inferInstanceAs (Decidable (0 ≤ i ∧ s.list.table.slot i.toNat ≠ none))

instance : (c : Call β) → Decidable (s.FewPushes c)
  | .pushBack _ _ => inferInstanceAs (Decidable
      (((∃ i < s.list.table.max, s.list.table.slot i = none) → s.pushed < s.list.table.max) ∧
        ((∀ i < s.list.table.max, s.list.table.slot i ≠ none) → s.list.Grows)))
  | .del _ _ | .delAt _ _ | .clear => isTrue trivial

section Steps

variable (h : s.list.table.Sound s.pushed)

include h

omit [DecidableEq β] in
theorem push_right_iff (p : β) (ok : Bool) :
    s.Right (.pushBack p ok) ↔ s.FewPushes (.pushBack p ok) := by
  have hfull := Table.full_iff s.list.table s.pushed h
  have hlast := h.last
  constructor
  · rintro ⟨r, hr, -⟩
    constructor
    · rintro ⟨i, hi, hfree⟩
      by_contra hge
      have hroom : s.list.table.use < s.list.table.max :=
        not_le.mp (fun hle => hfull.mp hle i hi hfree)
      rw [Container.pushBack_error s.list p ok (Or.inl ⟨hroom, by omega⟩)] at hr
      cases hr
    · intro htaken
      by_contra hgrows
      rw [Container.pushBack_error s.list p ok (Or.inr ⟨hfull.mpr htaken, hgrows⟩)] at hr
      cases hr
  · rintro ⟨hfew, hgrows⟩
    have hpush : ∃ r, s.list.pushBack p ok = .ok r ∧ Container.Pushed s.list p r := by
      rcases le_or_gt (s.list.table.max : ℤ) s.list.table.use with hle | hroom
      · exact Container.pushBack_full s.list s.pushed h p ok hle (hgrows (hfull.mp hle))
      · apply Container.pushBack_room s.list p ok hroom
        rw [hlast]
        apply hfew
        by_contra hnone
        push Not at hnone
        exact not_le.mpr hroom (hfull.mpr hnone)
    obtain ⟨r, hr, hpushed⟩ := hpush
    exact ⟨r, hr, (Container.sound_pushed s.list s.pushed h p r hpushed).2⟩

theorem sound_del (p : β) (bDeepDelete : Bool) :
    (s.list.del p bDeepDelete).table.Sound s.pushed := by
  have hlen := h.length
  have hremove (i : ℕ) (hi : i < s.list.table.max) (hfirst : i = s.list.table.slots.idxOf (some p)) :
      (s.list.table.remove i).Sound s.pushed := by
    apply Table.sound_remove s.list.table s.pushed h i
    have hlt : i < s.list.table.slots.length := hlen ▸ hi
    rw [Table.slot, List.getD_eq_getElem _ _ hlt]
    subst hfirst
    rw [List.getElem_idxOf hlt]
    exact Option.some_ne_none p
  cases hlist : s.list with
  | slist l =>
    rw [hlist] at h hlen hremove
    have htake : l.m_pArray.take l.m_nMax = l.m_pArray := List.take_of_length_le hlen.le
    rw [Container.del, CSList.del, htake]
    by_cases hi : l.m_pArray.idxOf (some p) < l.m_nMax
    · simp only [if_pos hi]
      exact hremove _ hi rfl
    · simp only [if_neg hi]
      exact h
  | tlist l =>
    rw [hlist] at h hlen hremove
    have htake : l.m_pArray.take l.m_nMax = l.m_pArray := List.take_of_length_le hlen.le
    rw [Container.del, CTList.del, htake]
    by_cases hi : l.m_pArray.idxOf (some p) < l.m_nMax
    · simp only [if_pos hi]
      exact hremove _ hi rfl
    · simp only [if_neg hi]
      exact h

omit [DecidableEq β] in
theorem sound_delAt (i : ℤ) (bDeepDelete : Bool) (htaken : s.list.table.slot i.toNat ≠ none) :
    (s.list.delAt i bDeepDelete).table.Sound s.pushed := by
  have hremove := Table.sound_remove s.list.table s.pushed h i.toNat htaken
  cases hlist : s.list with
  | slist l =>
    rw [hlist] at h hremove
    rw [Container.delAt, CSList.delAt]
    by_cases hi : isInclude i l.m_nMax = true
    · rw [if_pos hi]
      exact hremove
    · rw [if_neg hi]
      exact h
  | tlist l =>
    rw [hlist] at h hremove
    rw [Container.delAt]
    split_ifs
    · exact hremove
    · exact h

omit [DecidableEq β] in
theorem sound_clear (c : Container β) (hc : s.list.clear = some c) : c.table.Sound 0 := by
  cases hlist : s.list with
  | slist l =>
    rw [hlist] at h hc
    obtain rfl := Option.some.inj hc
    have hlen : l.m_pArray.length = l.m_nMax := h.length
    rw [CSList.clear, List.drop_of_length_le hlen.le, List.append_nil]
    exact Table.sound_empty l.m_nMax
  | tlist l =>
    rw [hlist] at hc
    cases hc

theorem sound_step (c : Call β) (t : Tracked β) (hpresent : s.Present c) (ht : s.step c = some t) :
    t.list.table.Sound t.pushed := by
  cases c with
  | pushBack p ok =>
    rw [step] at ht
    cases hpush : s.list.pushBack p ok with
    | error e =>
      rw [hpush] at ht
      cases ht
    | ok r =>
      rw [hpush] at ht
      obtain rfl := Option.some.inj ht
      have hpushed := Container.pushed_of_ok s.list s.pushed h p ok r hpush
      exact (Container.sound_pushed s.list s.pushed h p r hpushed).1
  | del p bDeepDelete =>
    obtain rfl := Option.some.inj ht
    exact sound_del s h p bDeepDelete
  | delAt i bDeepDelete =>
    obtain rfl := Option.some.inj ht
    exact sound_delAt s h i bDeepDelete hpresent.2
  | clear =>
    obtain ⟨c, hc, rfl⟩ := Option.map_eq_some_iff.mp ht
    exact sound_clear s h c hc

omit [DecidableEq β] in
theorem right_iff (c : Call β) : s.Right c ↔ s.FewPushes c := by
  cases c with
  | pushBack p ok => exact push_right_iff s h p ok
  | del _ _ => exact Iff.rfl
  | delAt _ _ => exact Iff.rfl
  | clear => exact Iff.rfl

end Steps

omit [DecidableEq β] in
theorem sound_alloc (n : ℕ) (ok : Bool) (kind : Container.Kind) :
    (Container.alloc n ok kind : Container β).table.Sound 0 := by
  cases kind with
  | slist type =>
    rcases Nat.eq_zero_or_pos n with rfl | hpos
    · exact Table.sound_empty 0
    · have hlarger : ¬n ≤ ({ CSList.init with m_nObjAllocType := type } : CSList β).m_nMax :=
        not_le.mpr hpos
      rw [Container.alloc, CSList.alloc, CSList._alloc, if_neg hlarger]
      cases ok with
      | false => exact Table.sound_empty 0
      | true => exact Table.sound_empty n
  | tlist =>
    cases ok with
    | false => exact Table.sound_empty 0
    | true => exact Table.sound_empty n

/-- From `alloc(n)` on, `push_back` of either list stays in the array and fills empty slots all along a
run exactly when it is never called with an empty slot in the array and as many objects pushed since the
list was empty as there are slots. -/
theorem push_back_right_iff (n : ℕ) (ok : Bool) (kind : Container.Kind) (calls : List (Call β))
    (hpresent : Runs.Along step Present { list := Container.alloc n ok kind, pushed := 0 } calls) :
    Runs.Along step Right { list := Container.alloc n ok kind, pushed := 0 } calls ↔
      Runs.Along step FewPushes { list := Container.alloc n ok kind, pushed := 0 } calls := by
  apply Runs.along_iff_of_invariant step Present Right FewPushes (fun s => s.list.table.Sound s.pushed)
  · intro s c t h hp _ ht
    exact sound_step s h c t hp ht
  · intro s c h _
    exact right_iff s h c
  · exact sound_alloc n ok kind
  · exact hpresent

theorem push_back_right_iff_two : Runs.Along step Right
    { list := Container.alloc 2 true (.slist .none), pushed := 0 }
    [.pushBack 5 true, .del 5 true, .pushBack 6 true, .clear, .pushBack 7 true] :=
  (push_back_right_iff 2 true (.slist .none) _ (by decide)).mpr (by decide)

-- The slot freed in front of `m_nLast` is not the one that is read.
theorem not_right_one_slot :
    (Runs.Along step Present { list := Container.alloc 1 true (.slist .new), pushed := 0 }
        [.pushBack 5 true, .del 5 true, .pushBack 6 true] ∧
      ¬Runs.Along step Right { list := Container.alloc 1 true (.slist .new), pushed := 0 }
        [.pushBack 5 true, .del 5 true, .pushBack 6 true]) ∧
    (Runs.Along step Present { list := Container.alloc 1 true .tlist, pushed := 0 }
        [.pushBack 5 true, .del 5 true, .pushBack 6 true] ∧
      ¬Runs.Along step Right { list := Container.alloc 1 true .tlist, pushed := 0 }
        [.pushBack 5 true, .del 5 true, .pushBack 6 true]) := by
  refine ⟨⟨by decide, fun halong => ?_⟩, ⟨by decide, fun halong => ?_⟩⟩
  all_goals
    obtain ⟨r, hr, -⟩ := Runs.along_after step Right _ _ [.pushBack 5 true, .del 5 true] []
      (.pushBack 6 true) rfl halong
    have hfault : (.error .outOfBounds : Except Fault (Container ℕ × Option ℕ)) = .ok r := hr
    cases hfault

end Tracked

end Leviathan
