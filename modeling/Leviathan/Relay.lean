import Mathlib.Tactic

/-! Items that are handed along a row of stations, batch by batch.  A station may refuse an item; then the
stations behind it do not get it, and nobody gets the rest of the batch. -/
namespace Leviathan.Relay

section Model

variable {ι Item C ε : Type} [DecidableEq ι] {State : ι → Type}

-- what a station does with an item, and with what goes with the item from station to station
variable (f : (i : ι) → Item → C → State i → Except ε (Bool × C × State i))

/-- An item on its way along the row; a station that is not there is passed over. -/
def pass (x : Item) :
    List ι → C → ((i : ι) → Option (State i)) → Except ε (Bool × C × ((i : ι) → Option (State i)))
  | [], c, s => .ok (true, c, s)
  | i :: row, c, s =>
    match s i with
    | none => pass x row c s
    | some st => do
      let (b, c, st) ← f i x c st
      let s := Function.update s i (some st)
      if b then pass x row c s else return (false, c, s)

-- what goes with an item at first
variable (first : Item → C)

/-- The items of a batch, each of which sets out with its own `first`. -/
def batch (row : List ι) :
    List Item → C → ((i : ι) → Option (State i)) → Except ε (Bool × C × ((i : ι) → Option (State i)))
  | [], c, s => .ok (true, c, s)
  | x :: xs, _, s => do
    let (b, c, s) ← pass f x row (first x) s
    if b then batch row xs c s else return (false, c, s)

/-- A station that gets the items `xs` as if it were the only one. -/
def alone (i : ι) (xs : List Item) (st : State i) : Except ε (State i) :=
  xs.foldlM (fun st x => (f i x (first x) st).map (fun r => r.2.2)) st

/-- As long as they are `kept`, the stations stay so and refuse the items that `refuses` tells. -/
def Refusing (kept : (i : ι) → State i → Prop) (refuses : ι → Item → Prop) : Prop :=
  ∀ i x c st r, kept i st → f i x c st = .ok r → kept i r.2.2 ∧ (r.1 = false ↔ refuses i x)

/-- The station neither reads nor changes what goes with an item. -/
def Indifferent (i : ι) : Prop :=
  ∀ x c st r, f i x c st = .ok r → r.2.1 = c ∧ ∀ d, f i x d st = .ok (r.1, d, r.2.2)

/-- The stations that are there, each of them as it has to be. -/
structure Standing (present : ι → Bool) (kept : (i : ι) → State i → Prop) (s : (i : ι) → Option (State i)) :
    Prop where
  isSome : ∀ i, (s i).isSome = present i
  kept : ∀ i st, s i = some st → kept i st

variable (refuses : ι → Item → Prop) [∀ i x, Decidable (refuses i x)] (present : ι → Bool) (row : List ι)

/-- No station refuses the item. -/
def Passes (x : Item) : Prop := ∀ j ∈ row, present j = true → ¬refuses j x

/-- No station in front of `i` refuses the item. -/
def Reaches (i : ι) (x : Item) : Prop := ∀ j ∈ row.takeWhile (· ≠ i), present j = true → ¬refuses j x

instance (x : Item) : Decidable (Passes refuses present row x) :=
  inferInstanceAs (Decidable (∀ j ∈ row, _))

instance (i : ι) (x : Item) : Decidable (Reaches refuses present row i x) :=
  inferInstanceAs (Decidable (∀ j ∈ row.takeWhile _, _))

/-- The items of a batch that station `i` gets. -/
def seen (i : ι) : List Item → List Item
  | [] => []
  | x :: xs =>
    if Passes refuses present row x then x :: seen i xs
    else if Reaches refuses present row i x then [x] else []

end Model

section Seen

variable {ι Item : Type} [DecidableEq ι] (refuses : ι → Item → Prop) [∀ i x, Decidable (refuses i x)]
  (present : ι → Bool) (row : List ι) (i : ι)

omit [∀ i x, Decidable (refuses i x)] in
theorem Passes.reaches (x : Item) (h : Passes refuses present row x) : Reaches refuses present row i x :=
  fun j hj => h j ((List.takeWhile_prefix _).subset hj)

-- When nothing is refused, every station gets everything.
theorem seen_of_passes (xs : List Item) (h : ∀ x ∈ xs, Passes refuses present row x) :
    seen refuses present row i xs = xs := by
  induction xs with
  | nil => rfl
  | cons x xs ih =>
    rw [List.forall_mem_cons] at h
    rw [seen, if_pos h.1, ih h.2]

omit [∀ i x, Decidable (refuses i x)] in
theorem reaches_head (x : Item) : Reaches refuses present (i :: row) i x := by
  intro j hj
  rw [List.takeWhile_cons_of_neg (by simp)] at hj
  exact absurd hj List.not_mem_nil

omit [∀ i x, Decidable (refuses i x)] in
theorem reaches_cons (j : ι) (hne : i ≠ j) (x : Item) : Reaches refuses present (i :: row) j x ↔
    (present i = true → ¬refuses i x) ∧ Reaches refuses present row j x := by
  rw [Reaches, List.takeWhile_cons_of_pos (by simpa using hne)]
  exact List.forall_mem_cons

end Seen

section Alone

variable {ι Item C ε : Type} [DecidableEq ι] {State : ι → Type}
  (f : (i : ι) → Item → C → State i → Except ε (Bool × C × State i)) (first : Item → C)
  (kept : (i : ι) → State i → Prop) (refuses : ι → Item → Prop) [∀ i x, Decidable (refuses i x)]
  (present : ι → Bool) (row : List ι) (k : ι)

omit [DecidableEq ι] in
theorem alone_singleton (i : ι) (x : Item) (st : State i) (r : Bool × C × State i)
    (h : f i x (first x) st = .ok r) : alone f first i [x] st = .ok r.2.2 := by
  rw [alone, List.foldlM_cons, h]
  rfl

omit [DecidableEq ι] in
theorem alone_append (i : ι) (xs ys : List Item) (st st' st'' : State i)
    (h : alone f first i xs st = .ok st') (h' : alone f first i ys st' = .ok st'') :
    alone f first i (xs ++ ys) st = .ok st'' := by
  rw [alone, List.foldlM_append]
  change alone f first i xs st >>= alone f first i ys = _
  rw [h]
  exact h'

/-- What an item does on its way: every station that it reaches treats it as if it were alone. -/
structure Passed (x : Item) (row : List ι) (s : (i : ι) → Option (State i)) (b : Bool)
    (s' : (i : ι) → Option (State i)) : Prop where
  standing : Standing present kept s'
  behind : ∀ i, i ∉ row → s' i = s i
  passes : b = true ↔ Passes refuses present row x
  treated : ∀ i ∈ row, ∀ st, s i = some st → ∃ st', s' i = some st' ∧
    alone f first i (if Reaches refuses present row i x then [x] else []) st = .ok st'

section Cons

variable {f first kept refuses present row} {x : Item} {s s' : (i : ι) → Option (State i)} {b : Bool} {i : ι}
  {st st' : State i}

theorem Passed.absent (h : Passed f first kept refuses present x row s b s') (hi : i ∉ row)
    (hnone : s i = none) (hpresent : present i = false) :
    Passed f first kept refuses present x (i :: row) s b s' := by
  refine ⟨h.standing, fun j hj => h.behind j fun hj' => hj (List.mem_cons_of_mem i hj'), ?_,
    fun j hj stj hsj => ?_⟩
  · rw [h.passes, Passes, Passes, List.forall_mem_cons, hpresent]
    exact (and_iff_right nofun).symm
  · rcases List.mem_cons.mp hj with rfl | hj
    · rw [hnone] at hsj
      cases hsj
    · have hne : i ≠ j := fun heq => hi (heq ▸ hj)
      have hskip : Reaches refuses present (i :: row) j x ↔ Reaches refuses present row j x := by
        rw [reaches_cons _ _ _ _ _ hne, hpresent]
        exact and_iff_right nofun
      simp only [hskip]
      exact h.treated j hj stj hsj

variable (hi : i ∉ row) (hs : Standing present kept s) (hst : s i = some st)
  (hone : alone f first i [x] st = .ok st')

include hs hst in
omit [DecidableEq ι] in
theorem Standing.isPresent : present i = true := by
  rw [← hs.isSome i, hst, Option.isSome_some]

include hs hst in
theorem Standing.update (hkept : kept i st') : Standing present kept (Function.update s i (some st')) := by
  refine ⟨fun j => ?_, fun j stj hsj => ?_⟩
  · by_cases hj : j = i
    · subst hj
      rw [Function.update_self, hs.isPresent hst, Option.isSome_some]
    · rw [Function.update_of_ne hj]
      exact hs.isSome j
  · by_cases hj : j = i
    · subst hj
      rw [Function.update_self] at hsj
      exact Option.some.inj hsj ▸ hkept
    · rw [Function.update_of_ne hj] at hsj
      exact hs.kept j stj hsj

include hi hst hone

include hs in
theorem Passed.refused (hkept : kept i st') (hrefuses : refuses i x) :
    Passed f first kept refuses present x (i :: row) s false (Function.update s i (some st')) := by
  have hpresent := hs.isPresent hst
  refine ⟨hs.update hst hkept, fun j hj => Function.update_of_ne ?_ _ _, iff_of_false nofun ?_,
    fun j hj stj hsj => ?_⟩
  · rintro rfl
    exact hj List.mem_cons_self
  · exact fun hpasses => hpasses i List.mem_cons_self hpresent hrefuses
  · rcases List.mem_cons.mp hj with rfl | hj
    · obtain rfl := Option.some.inj (hst.symm.trans hsj)
      rw [if_pos (reaches_head refuses present row j x)]
      exact ⟨st', Function.update_self .., hone⟩
    · -- the station behind does not get the item
      have hne : i ≠ j := fun heq => hi (heq ▸ hj)
      have hblocked : ¬Reaches refuses present (i :: row) j x := fun hreaches =>
        ((reaches_cons _ _ _ _ _ hne x).mp hreaches).1 hpresent hrefuses
      rw [if_neg hblocked]
      exact ⟨stj, (Function.update_of_ne hne.symm _ _).trans hsj, rfl⟩

theorem Passed.accepted (haccepts : ¬refuses i x)
    (h : Passed f first kept refuses present x row (Function.update s i (some st')) b s') :
    Passed f first kept refuses present x (i :: row) s b s' := by
  refine ⟨h.standing, fun j hj => ?_, ?_, fun j hj stj hsj => ?_⟩
  · rw [List.mem_cons, not_or] at hj
    exact (h.behind j hj.2).trans (Function.update_of_ne hj.1 _ _)
  · rw [h.passes, Passes, Passes, List.forall_mem_cons]
    exact (and_iff_right fun _ => haccepts).symm
  · rcases List.mem_cons.mp hj with rfl | hj
    · obtain rfl := Option.some.inj (hst.symm.trans hsj)
      rw [if_pos (reaches_head refuses present row j x)]
      exact ⟨st', (h.behind j hi).trans (Function.update_self ..), hone⟩
    · have hne : i ≠ j := fun heq => hi (heq ▸ hj)
      have hskip : Reaches refuses present (i :: row) j x ↔ Reaches refuses present row j x := by
        rw [reaches_cons _ _ _ _ _ hne]
        exact and_iff_right fun _ => haccepts
      simp only [hskip]
      exact h.treated j hj stj ((Function.update_of_ne hne.symm _ _).trans hsj)

end Cons

-- Only station `k` may read or change what goes with the item.
theorem pass_spec (hrefusing : Refusing f kept refuses) (hindifferent : ∀ i, i ≠ k → Indifferent f i)
    (x : Item) (row : List ι) (hnodup : row.Nodup) (c : C) (hc : k ∈ row → c = first x)
    (s : (i : ι) → Option (State i)) (hs : Standing present kept s)
    (r : Bool × C × ((i : ι) → Option (State i))) (h : pass f x row c s = .ok r) :
    Passed f first kept refuses present x row s r.1 r.2.2 := by
  induction row generalizing c s with
  | nil =>
    cases h
    exact ⟨hs, fun _ _ => rfl, iff_of_true rfl nofun, nofun⟩
  | cons i row ih =>
    obtain ⟨hi, hrow⟩ := List.nodup_cons.mp hnodup
    rw [pass] at h
    cases hst : s i with
    | none =>
      have habsent : present i = false := by rw [← hs.isSome i, hst, Option.isSome_none]
      simp only [hst] at h
      exact (ih hrow c (fun hk => hc (List.mem_cons_of_mem i hk)) s hs h).absent hi hst habsent
    | some st =>
      simp only [hst] at h
      cases hf : f i x c st with
      | error e =>
        rw [hf] at h
        cases h
      | ok q =>
        obtain ⟨b, c', st'⟩ := q
        rw [hf] at h
        obtain ⟨hkept, hb⟩ := hrefusing i x c st _ (hs.kept i st hst) hf
        have hfirst : f i x (first x) st = .ok (b, if i = k then c' else first x, st') := by
          by_cases hik : i = k
          · rw [if_pos hik, ← hc (hik ▸ List.mem_cons_self), hf]
          · rw [if_neg hik]
            exact (hindifferent i hik x c st _ hf).2 _
        have hone := alone_singleton f first i x st _ hfirst
        cases b with
        | false =>
          cases h
          exact .refused hi hs hst hone hkept (hb.mp rfl)
        | true =>
          have hc' (hk : k ∈ row) : c' = first x :=
            (hindifferent i (fun heq => hi (heq ▸ hk)) x c st _ hf).1.trans (hc (List.mem_cons_of_mem i hk))
          exact .accepted hi hst hone (fun hrefuses => nomatch hb.mpr hrefuses)
            (ih hrow c' hc' _ (hs.update hst hkept) h)

/-- What a batch does: every station has treated what it has seen of it as if it were alone. -/
structure Batched (xs : List Item) (s : (i : ι) → Option (State i)) (b : Bool)
    (s' : (i : ι) → Option (State i)) : Prop where
  standing : Standing present kept s'
  passes : b = true ↔ ∀ x ∈ xs, Passes refuses present row x
  treated : ∀ i ∈ row, ∀ st, s i = some st → ∃ st', s' i = some st' ∧
    alone f first i (seen refuses present row i xs) st = .ok st'

theorem batch_spec (hrefusing : Refusing f kept refuses) (hindifferent : ∀ i, i ≠ k → Indifferent f i)
    (hnodup : row.Nodup) (xs : List Item) (c : C) (s : (i : ι) → Option (State i))
    (hs : Standing present kept s) (r : Bool × C × ((i : ι) → Option (State i)))
    (h : batch f first row xs c s = .ok r) :
    Batched f first kept refuses present row xs s r.1 r.2.2 := by
  induction xs generalizing c s with
  | nil =>
    cases h
    exact ⟨hs, iff_of_true rfl nofun, fun i _ st hst => ⟨st, hst, rfl⟩⟩
  | cons x xs ih =>
    rw [batch] at h
    cases hpass : pass f x row (first x) s with
    | error e =>
      simp only [hpass] at h
      cases h
    | ok q =>
      obtain ⟨b, c', s'⟩ := q
      obtain ⟨hpresent, -, hpasses, halone⟩ := pass_spec f first kept refuses present k hrefusing hindifferent x
        row hnodup (first x) (fun _ => rfl) s hs _ hpass
      simp only [hpass] at h
      cases b with
      | false =>
        cases h
        have hnot : ¬Passes refuses present row x := fun hx => nomatch hpasses.mpr hx
        refine ⟨hpresent, iff_of_false nofun fun hall => hnot (hall x List.mem_cons_self), ?_⟩
        intro i hi st hst
        rw [seen, if_neg hnot]
        exact halone i hi st hst
      | true =>
        have hx := hpasses.mp rfl
        obtain ⟨hpresent', hpasses', halone'⟩ := ih c' s' hpresent h
        refine ⟨hpresent', ?_, fun i hi st hst => ?_⟩
        · rw [hpasses', List.forall_mem_cons]
          exact (and_iff_right hx).symm
        · obtain ⟨st₁, hst₁, hone⟩ := halone i hi st hst
          obtain ⟨st₂, hst₂, hrest⟩ := halone' i hi st₁ hst₁
          rw [if_pos (hx.reaches refuses present row i)] at hone
          rw [seen, if_pos hx]
          exact ⟨st₂, hst₂, alone_append f first i [x] _ st st₁ st₂ hone hrest⟩

end Alone

end Leviathan.Relay
