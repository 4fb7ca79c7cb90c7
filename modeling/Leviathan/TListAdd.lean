import Leviathan.Runs
import Leviathan.Slots
import Leviathan.TList

/-! `CTList` (comTList.h) without `push_back`: `add`, the calls that name an index, and `getNext`. -/
namespace Leviathan.CTList

variable {β : Type}

section Model

variable (l : CTList β)

/-- `add`: the index stored to, or `none` where it returns false.  `m_nLast` counts the stores; as a
start of the search it is a 32-bit `int`.  The larger array can not be had where its size is none. -/
def add (obj : β) (ok : Bool) : Except Fault (CTList β × Option ℕ) :=
  if (l.m_nMax : ℤ) ≤ l.m_nUse then
    let r := l._alloc (l.m_nMax+tListAddSize) (ok && decide (l.m_nMax+tListAddSize < 2^31))
    if r.2 = 0 then .ok (l, none)
    else .ok (addSuccess { r.1 with m_nMax := l.m_nMax+tListAddSize } l.m_nMax obj, some l.m_nMax)
  else if l.m_nMax ≤ l.m_nDelIdx then .error .outOfBounds
  else if (l.slot l.m_nDelIdx).isNone then .ok (addSuccess l l.m_nDelIdx obj, some l.m_nDelIdx)
  else if i32 l.m_nLast < 0 then .error .outOfBounds
  else
    match scanFrom l.m_nMax (fun i => (l.slot i).isNone) l.m_nMax (i32 l.m_nLast).toNat with
    | some nIdx => .ok (addSuccess l nIdx obj, some nIdx)
    | none => .ok (l, none)

/-- `setNewObj`. -/
def setNewObj (idx : ℤ) (p : β) : CTList β × Bool :=
  if isInclude idx l.m_nMax then
    match l.slot idx.toNat with
    | none => (l.addSuccess idx.toNat p, true)
    | some _ => (l, false)
  else (l, false)

/-- `setObj`; `none` is NULL. -/
def setObj (idx : ℤ) (p : Option β) : CTList β × Bool :=
  if isInclude idx l.m_nMax then
    match l.slot idx.toNat, p with
    | none, _ => (l, false)
    | some _, none => (l._DEL idx.toNat, true)
    | some _, some p => ({ l with m_pArray := l.m_pArray.set idx.toNat (some p) }, true)
  else (l, false)

/-- `del(int)`. -/
def delAt (i : ℤ) : CTList β × Bool := if isInclude i l.m_nMax then (l._DEL i.toNat, true) else (l, false)

/-- `getNext`: the next index with an object, and the object. -/
def getNext (i : ℕ) : Option (ℕ × β) := Slots.next l.m_nMax l.slot i

/-- The objects in the list, in the order of the slots. -/
def objects : List β := Slots.contents l.m_nMax l.slot

end Model

/-- The array has `m_nMax` slots, `m_nUse` of them are taken, and the last freed one is in the array. -/
structure Sound (l : CTList β) : Prop where
  length : l.m_pArray.length = l.m_nMax
  use : l.m_nUse = l.objects.length
  freed : l.m_nDelIdx ≤ l.m_nMax-1

section Slot

variable (l : CTList β) (i : ℕ) (hi : i < l.m_pArray.length)

include hi

theorem slot_update (o : Option β) : (fun j => (l.m_pArray.set i o).getD j none) =
    Function.update l.slot i o := Slots.getD_set l.m_pArray i hi o

theorem slot_addSuccess (p : β) : (l.addSuccess i p).slot = Function.update l.slot i (some p) :=
  slot_update l i hi (some p)

theorem slot_DEL : (l._DEL i).slot = Function.update l.slot i none := slot_update l i hi none

end Slot

section Sound

variable (l : CTList β) (h : Sound l)

theorem sound_alloc (n : ℕ) (ok : Bool) : Sound (alloc (init : CTList β) n ok) := by
  cases ok with
  | false => exact ⟨rfl, rfl, Nat.zero_le _⟩
  | true =>
    refine ⟨by simp [alloc, _alloc, init], ?_, Nat.zero_le _⟩
    have hempty : (alloc (init : CTList β) n true).objects = [] := by
      rw [objects, Slots.contents, List.filterMap_eq_nil_iff]
      intro i _
      simp only [slot, alloc, _alloc, init, List.getD_eq_getElem?_getD, List.nil_append, if_true,
        List.getElem?_replicate]
      split_ifs <;> rfl
    rw [hempty]
    rfl

include h

theorem slot_none_of_ge (i : ℕ) (hi : l.m_nMax ≤ i) : l.slot i = none := by
  rw [slot, List.getD_eq_default]
  rw [h.length]
  exact hi

theorem slot_lt (i : ℕ) (p : β) (hp : l.slot i = some p) : i < l.m_nMax := by
  by_contra hge
  rw [slot_none_of_ge l h i (not_lt.mp hge)] at hp
  cases hp

theorem sound_addSuccess (i : ℕ) (p : β) (hi : i < l.m_nMax) (hfree : l.slot i = none) :
    Sound (l.addSuccess i p) := by
  have hlt : i < l.m_pArray.length := h.length ▸ hi
  refine ⟨(List.length_set ..).trans h.length, ?_, h.freed⟩
  have hput := Slots.length_put l.m_nMax l.slot i hi p hfree
  rw [← slot_addSuccess l i hlt p] at hput
  show l.m_nUse+1 = ((Slots.contents l.m_nMax (l.addSuccess i p).slot).length : ℤ)
  rw [hput, h.use, objects]
  push_cast
  rfl

theorem sound_DEL (i : ℕ) (p : β) (hp : l.slot i = some p) : Sound (l._DEL i) := by
  have hi := slot_lt l h i p hp
  have hlt : i < l.m_pArray.length := h.length ▸ hi
  refine ⟨(List.length_set ..).trans h.length, ?_, Nat.le_sub_one_of_lt hi⟩
  have htake := Slots.length_take l.m_nMax l.slot i hi p hp
  rw [← slot_DEL l i hlt] at htake
  show l.m_nUse-1 = ((Slots.contents l.m_nMax (l._DEL i).slot).length : ℤ)
  rw [h.use, objects, htake]
  push_cast
  ring

theorem sound_replace (i : ℕ) (p q : β) (hp : l.slot i = some p) :
    Sound { l with m_pArray := l.m_pArray.set i (some q) } := by
  have hi := slot_lt l h i p hp
  have hlt : i < l.m_pArray.length := h.length ▸ hi
  refine ⟨(List.length_set ..).trans h.length, ?_, h.freed⟩
  have hupdate := Slots.length_update l.m_nMax l.slot i hi q (hp ▸ Option.some_ne_none p)
  rw [← slot_update l i hlt (some q)] at hupdate
  exact h.use.trans (congrArg Nat.cast hupdate.symm)

theorem objects_grow : l.grow.objects = l.objects := by
  have hslot : l.grow.slot = l.slot := funext (grow_slot l)
  have hmax : l.grow.m_nMax = l.m_nMax+tListAddSize := rfl
  rw [objects, hslot, hmax]
  apply Slots.contents_add
  intro i hi _
  exact slot_none_of_ge l h i hi

theorem sound_grow : Sound l.grow := by
  refine ⟨?_, ?_, ?_⟩
  · show (l.m_pArray ++ List.replicate tListAddSize none).length = l.m_nMax+tListAddSize
    rw [List.length_append, List.length_replicate, h.length]
  · rw [objects_grow l h]
    exact h.use
  · have hfreed := h.freed
    show l.m_nDelIdx ≤ l.m_nMax+tListAddSize-1
    omega

end Sound

section Add

/-- The search of `add` starts before the array. -/
def Overrun (l : CTList β) : Prop :=
  l.m_nUse < l.m_nMax ∧ l.slot l.m_nDelIdx ≠ none ∧ i32 l.m_nLast < 0

/-- What `add` does where it does not fault: it fails for want of memory, or stores to an empty slot of
the list or of the larger one. -/
def Added (l : CTList β) (obj : β) (ok : Bool) (r : CTList β × Option ℕ) : Prop :=
  (((l.m_nMax : ℤ) ≤ l.m_nUse ∧ (ok = false ∨ 2^31 ≤ l.m_nMax+tListAddSize)) ∧ r = (l, none)) ∨
    ∃ l' i, (l' = l ∨ l' = l.grow) ∧ l'.Sound ∧ i < l'.m_nMax ∧ l'.slot i = none ∧
      r = (l'.addSuccess i obj, some i)

variable (l : CTList β) (obj : β) (ok : Bool) (h : Sound l)

theorem add_full (hfull : (l.m_nMax : ℤ) ≤ l.m_nUse) :
    l.add obj ok = if ok = true ∧ l.m_nMax+tListAddSize < 2^31 then
      .ok (l.grow.addSuccess l.m_nMax obj, some l.m_nMax) else .ok (l, none) := by
  have hsize : l.m_nMax+tListAddSize-l.m_nMax = tListAddSize := by omega
  have hne : l.m_nMax+tListAddSize ≠ 0 := Nat.succ_ne_zero _
  rw [add, if_pos hfull]
  by_cases hok : ok = true ∧ l.m_nMax+tListAddSize < 2^31
  · have hgrown : (ok && decide (l.m_nMax+tListAddSize < 2^31)) = true := by
      rw [hok.1, decide_eq_true hok.2]
      rfl
    rw [if_pos hok, hgrown]
    show (if l.m_nMax+tListAddSize = 0 then _ else _) = _
    rw [if_neg hne]
    simp only [_alloc, if_pos, hsize]
    rfl
  · have hfail : (ok && decide (l.m_nMax+tListAddSize < 2^31)) = false := by
      rw [Bool.and_eq_false_iff, decide_eq_false_iff_not]
      by_contra hall
      apply hok
      simpa using hall
    rw [if_neg hok, hfail]
    rfl

include h

theorem exists_free_slot (hroom : l.m_nUse < l.m_nMax) : ∃ i < l.m_nMax, l.slot i = none := by
  apply Slots.exists_free
  rw [h.use] at hroom
  exact Int.ofNat_lt.mp hroom

theorem add_room (hroom : l.m_nUse < l.m_nMax) (hover : ¬Overrun l) :
    ∃ i < l.m_nMax, l.slot i = none ∧ l.add obj ok = .ok (l.addSuccess i obj, some i) := by
  have huse := h.use
  have hfreed := h.freed
  have hdel : ¬l.m_nMax ≤ l.m_nDelIdx := by omega
  rw [add, if_neg (not_le.mpr hroom), if_neg hdel]
  by_cases hs : l.slot l.m_nDelIdx = none
  · refine ⟨l.m_nDelIdx, not_le.mp hdel, hs, ?_⟩
    rw [if_pos (Option.isNone_iff_eq_none.mpr hs)]
  · have hlast : ¬i32 l.m_nLast < 0 := fun hneg => hover ⟨hroom, hs, hneg⟩
    rw [if_neg (fun hnone => hs (Option.isNone_iff_eq_none.mp hnone)), if_neg hlast]
    generalize (i32 l.m_nLast).toNat = start
    obtain ⟨i, hi, hscan⟩ := scanFrom_finds l.m_nMax (fun i => (l.slot i).isNone) start
      (by
        obtain ⟨j, hj, hfree⟩ := exists_free_slot l h hroom
        exact ⟨j, hj, Option.isNone_iff_eq_none.mpr hfree⟩)
    rw [hscan]
    exact ⟨i, hi.1, Option.isNone_iff_eq_none.mp hi.2, rfl⟩

theorem add_added (hover : ¬Overrun l) : ∃ r, l.add obj ok = .ok r ∧ Added l obj ok r := by
  rcases le_or_gt (l.m_nMax : ℤ) l.m_nUse with hfull | hroom
  · rw [add_full l obj ok hfull]
    by_cases hok : ok = true ∧ l.m_nMax+tListAddSize < 2^31
    · have hgrow : l.grow.m_nMax = l.m_nMax+tListAddSize := rfl
      have hfree : l.grow.slot l.m_nMax = none := by
        rw [grow_slot]
        exact slot_none_of_ge l h l.m_nMax le_rfl
      rw [if_pos hok]
      refine ⟨_, rfl, Or.inr ⟨l.grow, l.m_nMax, Or.inr rfl, sound_grow l h, ?_, hfree, rfl⟩⟩
      rw [hgrow, tListAddSize]
      omega
    · rw [if_neg hok]
      refine ⟨_, rfl, Or.inl ⟨⟨hfull, ?_⟩, rfl⟩⟩
      by_contra hboth
      apply hok
      simpa using hboth
  · obtain ⟨i, hi, hfree, hadd⟩ := add_room l obj ok h hroom hover
    exact ⟨_, hadd, Or.inr ⟨l, i, Or.inl rfl, h, hi, hfree, rfl⟩⟩

omit h in
theorem add_overrun (hover : Overrun l) : l.add obj ok = .error .outOfBounds := by
  rw [add, if_neg (not_le.mpr hover.1)]
  by_cases hdel : l.m_nMax ≤ l.m_nDelIdx
  · rw [if_pos hdel]
  · rw [if_neg hdel, if_neg (fun hnone => hover.2.1 (Option.isNone_iff_eq_none.mp hnone)),
      if_pos hover.2.2]

end Add

inductive Call (β : Type)
  | add (p : β) (ok : Bool)
  | setNewObj (idx : ℤ) (p : β)
  | setObj (idx : ℤ) (p : Option β)
  | del (p : β)
  | delAt (i : ℤ)

section Calls

variable [DecidableEq β]

/-- One call; a fault ends the run. -/
def call (l : CTList β) : Call β → Option (CTList β)
  | .add p ok => (l.add p ok).toOption.map Prod.fst
  | .setNewObj idx p => some (l.setNewObj idx p).1
  | .setObj idx p => some (l.setObj idx p).1
  | .del p => some (l.del p).1
  | .delAt i => some (l.delAt i).1

/-- Only objects in the list are deleted. -/
def Present (l : CTList β) : Call β → Prop
  | .add _ _ => True
  | .setNewObj _ _ => True
  | .setObj _ _ => True
  | .del p => ∃ i < l.m_nMax, l.slot i = some p
  | .delAt i => 0 ≤ i ∧ l.slot i.toNat ≠ none

/-- `add` has stored `p` to an empty slot and moved nothing, or there was no memory for it. -/
def AddRight (l : CTList β) (p : β) (ok : Bool) : Prop :=
  ∃ l' r, l.add p ok = .ok (l', r) ∧ match r with
    | some i => i < l'.m_nMax ∧ l.slot i = none ∧ l'.slot = Function.update l.slot i (some p)
    | none => l' = l ∧ (l.m_nMax : ℤ) ≤ l.m_nUse ∧ (ok = false ∨ 2^31 ≤ l.m_nMax+tListAddSize)

/-- The call stays in the array and leaves a list that counts its objects and enumerates them. -/
def Right (l : CTList β) (c : Call β) : Prop :=
  (∃ t, l.call c = some t ∧ t.m_pArray.length = t.m_nMax ∧ t.m_nUse = t.objects.length ∧
    Slots.Visits t.getNext (· + 1) 0 t.objects) ∧
  match c with
  | .add p ok => AddRight l p ok
  | _ => True

/-- The search of `add` does not start before the array. -/
def InArray (l : CTList β) : Call β → Prop
  | .add _ _ => ¬Overrun l
  | _ => True

instance (l : CTList β) : (c : Call β) → Decidable (Present l c)
  | .add _ _ | .setNewObj _ _ | .setObj _ _ => isTrue trivial
  | .del p => inferInstanceAs (Decidable (∃ i < l.m_nMax, l.slot i = some p))
  | .delAt i => inferInstanceAs (Decidable (0 ≤ i ∧ l.slot i.toNat ≠ none))

instance (l : CTList β) : Decidable (Overrun l) := inferInstanceAs (Decidable (_ ∧ _ ∧ _))

instance (l : CTList β) : (c : Call β) → Decidable (InArray l c)
  | .add _ _ => inferInstanceAs (Decidable (¬Overrun l))
  | .setNewObj _ _ | .setObj _ _ | .del _ | .delAt _ => isTrue trivial

variable (l : CTList β) (h : Sound l)

include h

omit [DecidableEq β] in
theorem sound_setNewObj (idx : ℤ) (p : β) : Sound (l.setNewObj idx p).1 := by
  rw [setNewObj]
  split_ifs with hidx
  · have hlt : idx.toNat < l.m_nMax := by
      obtain ⟨h0, hi⟩ := (isInclude_iff _ _).mp hidx
      omega
    cases hs : l.slot idx.toNat with
    | none => exact sound_addSuccess l h idx.toNat p hlt hs
    | some q => exact h
  · exact h

omit [DecidableEq β] in
theorem sound_setObj (idx : ℤ) (p : Option β) : Sound (l.setObj idx p).1 := by
  unfold setObj
  split_ifs
  · split
    case h_1 => exact h
    case h_2 q hs => exact sound_DEL l h idx.toNat q hs
    case h_3 q p hs => exact sound_replace l h idx.toNat q p hs
  · exact h

theorem sound_del (p : β) : Sound (l.del p).1 := by
  have htake : l.m_pArray.take l.m_nMax = l.m_pArray := by
    rw [← h.length, List.take_length]
  rw [del]
  split_ifs with hlt
  · rw [htake] at hlt ⊢
    have hlen : l.m_pArray.idxOf (some p) < l.m_pArray.length := h.length ▸ hlt
    apply sound_DEL l h _ p
    rw [slot, List.getD_eq_getElem _ _ hlen]
    exact List.getElem_idxOf hlen
  · exact h

omit [DecidableEq β] in
theorem sound_delAt (i : ℤ) (hi : 0 ≤ i ∧ l.slot i.toNat ≠ none) : Sound (l.delAt i).1 := by
  obtain ⟨p, hp⟩ := Option.ne_none_iff_exists'.mp hi.2
  rw [delAt]
  split_ifs
  · exact sound_DEL l h i.toNat p hp
  · exact h

-- The step lemma: a call that stays in the array keeps the list sound.
theorem sound_call (c : Call β) (t : CTList β) (hpresent : Present l c) (ht : l.call c = some t) :
    Sound t := by
  cases c with
  | add p ok =>
    by_cases hover : Overrun l
    · rw [call, add_overrun l p ok hover] at ht
      cases ht
    · obtain ⟨r, hadd, hadded⟩ := add_added l p ok h hover
      rw [call, hadd] at ht
      obtain rfl := Option.some.inj ht
      rcases hadded with ⟨-, rfl⟩ | ⟨l', i, -, hsound, hi, hfree, rfl⟩
      · exact h
      · exact sound_addSuccess l' hsound i p hi hfree
  | setNewObj idx p => exact Option.some.inj ht ▸ sound_setNewObj l h idx p
  | setObj idx p => exact Option.some.inj ht ▸ sound_setObj l h idx p
  | del p => exact Option.some.inj ht ▸ sound_del l h p
  | delAt i => exact Option.some.inj ht ▸ sound_delAt l h i hpresent

theorem call_enumerates (c : Call β) (t : CTList β) (hpresent : Present l c) (ht : l.call c = some t) :
    ∃ t, l.call c = some t ∧ t.m_pArray.length = t.m_nMax ∧ t.m_nUse = t.objects.length ∧
      Slots.Visits t.getNext (· + 1) 0 t.objects := by
  have hsound := sound_call l h c t hpresent ht
  exact ⟨t, ht, hsound.length, hsound.use, Slots.visits_contents t.m_nMax t.slot⟩

theorem right_iff (c : Call β) (hpresent : Present l c) : Right l c ↔ InArray l c := by
  cases c with
  | add p ok =>
    constructor
    · rintro ⟨⟨t, ht, -⟩, -⟩ hover
      rw [call, add_overrun l p ok hover] at ht
      cases ht
    · intro hover
      obtain ⟨r, hadd, hadded⟩ := add_added l p ok h hover
      have hcall : l.call (.add p ok) = some r.1 := by
        rw [call, hadd]
        rfl
      refine ⟨call_enumerates l h _ r.1 hpresent hcall, r.1, r.2, hadd, ?_⟩
      rcases hadded with ⟨hfull, rfl⟩ | ⟨l', i, hl', hsound, hi, hfree, rfl⟩
      · exact ⟨rfl, hfull⟩
      · have hslot : l'.slot = l.slot := by
          rcases hl' with rfl | rfl
          · rfl
          · exact funext (grow_slot l)
        refine ⟨hi, hslot ▸ hfree, ?_⟩
        show (l'.addSuccess i p).slot = _
        rw [slot_addSuccess l' i (hsound.length ▸ hi) p, hslot]
  | setNewObj idx p => exact iff_of_true ⟨call_enumerates l h _ _ hpresent rfl, trivial⟩ trivial
  | setObj idx p => exact iff_of_true ⟨call_enumerates l h _ _ hpresent rfl, trivial⟩ trivial
  | del p => exact iff_of_true ⟨call_enumerates l h _ _ hpresent rfl, trivial⟩ trivial
  | delAt i => exact iff_of_true ⟨call_enumerates l h _ _ hpresent rfl, trivial⟩ trivial

end Calls

variable [DecidableEq β]

/-- From `alloc(n)` on, every call of a run counts, stores and enumerates as it should exactly when no
search of `add` starts before the array. -/
theorem add_right_iff (n : ℕ) (ok : Bool) (calls : List (Call β))
    (hpresent : Runs.Along call Present (alloc init n ok) calls) :
    Runs.Along call Right (alloc init n ok) calls ↔ Runs.Along call InArray (alloc init n ok) calls := by
  apply Runs.along_iff_of_invariant call Present Right InArray Sound
  · intro l c t h hp _ ht
    exact sound_call l h c t hp ht
  · intro l c h hp
    exact right_iff l h c hp
  · exact sound_alloc n ok
  · exact hpresent

theorem add_right_iff_three : Runs.Along call Right (alloc init 3 true)
    [.add 5 true, .setNewObj 1 6, .add 7 true, .setObj 0 none, .add 8 true, .del 6] :=
  (add_right_iff 3 true _ (by decide)).mpr (by decide)

/-- One slot, empty, after `m` stores. -/
def oneSlot (m : ℕ) : CTList ℕ :=
  { m_pArray := [none], m_nUse := 0, m_nLast := m, m_nDelIdx := 0, m_nMax := 1 }

/-- An object is stored and deleted again, `k` times. -/
def rounds : ℕ → List (Call ℕ)
  | 0 => []
  | k+1 => .add 7 true :: .delAt 0 :: rounds k

theorem runFrom_rounds (k m : ℕ) : Runs.runFrom call (oneSlot m) (rounds k) = some (oneSlot (m+k)) := by
  induction k generalizing m with
  | zero => rfl
  | succ k ih =>
    have hround : Runs.runFrom call (oneSlot m) (rounds (k+1)) =
        Runs.runFrom call (oneSlot (m+1)) (rounds k) := rfl
    rw [hround, ih (m+1), add_assoc, add_comm 1 k]

theorem present_rounds (k m : ℕ) (calls : List (Call ℕ))
    (h : Runs.Along call Present (oneSlot (m+k)) calls) :
    Runs.Along call Present (oneSlot m) (rounds k ++ calls) := by
  induction k generalizing m with
  | zero => exact h
  | succ k ih =>
    refine ⟨trivial, fun t ht => ⟨?_, fun u hu => ?_⟩⟩
    · obtain rfl := Option.some.inj ht
      exact ⟨le_rfl, Option.some_ne_none 7⟩
    · obtain rfl := Option.some.inj ht
      obtain rfl := Option.some.inj hu
      apply ih (m+1)
      rwa [add_assoc, add_comm 1 k]

-- After 2^31-2 rounds `m_nLast` runs over while slot 0 is taken.
theorem not_right_after_rounds :
    Runs.Along call Present (alloc init 1 true)
      (rounds 2147483646 ++ [.add 7 true, .add 8 true, .add 9 true]) ∧
    ¬Runs.Along call Right (alloc init 1 true)
      (rounds 2147483646 ++ [.add 7 true, .add 8 true, .add 9 true]) := by
  constructor
  · apply present_rounds 2147483646 0
    exact ⟨trivial, fun _ _ => ⟨trivial, fun _ _ => ⟨trivial, fun _ _ => trivial⟩⟩⟩
  · intro halong
    obtain ⟨l, hl, hover⟩ : ∃ l, Runs.runFrom call (oneSlot 2147483646) [.add 7 true, .add 8 true] = some l ∧
        Overrun l := by
      refine ⟨_, rfl, by decide, by decide, ?_⟩
      decide
    have hrun : Runs.runFrom call (alloc init 1 true) (rounds 2147483646 ++ [.add 7 true, .add 8 true]) =
        some l := by
      rw [Runs.runFrom_append_iff]
      exact ⟨oneSlot 2147483646, runFrom_rounds 2147483646 0, hl⟩
    have hlast : Right l (.add 9 true) := by
      apply Runs.along_after call Right _ l _ [] (.add 9 true) hrun
      rw [List.append_assoc]
      exact halong
    obtain ⟨⟨t, ht, -⟩, -⟩ := hlast
    rw [call, add_overrun l 9 true hover] at ht
    cases ht

end Leviathan.CTList
