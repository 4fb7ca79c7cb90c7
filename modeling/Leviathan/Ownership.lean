import Mathlib.Data.Fintype.BigOperators
import Mathlib.Tactic

/-! Exclusive ownership of resources by a family of parties: each party has a list of what it
owns, no list repeats a resource and no two lists share one. -/
namespace Leviathan.Ownership

variable {T R : Type*}

structure Exclusive (own : T → List R) : Prop where
  nodup : ∀ t, (own t).Nodup
  disjoint : ∀ t u, t ≠ u → ∀ r ∈ own t, r ∉ own u

theorem exclusive_empty : Exclusive (fun _ : T => ([] : List R)) :=
  ⟨fun _ => List.nodup_nil, fun _ _ _ _ hr => absurd hr List.not_mem_nil⟩

-- What a party has at hand, apart from the rest of its list, is in nobody's rest.
theorem Exclusive.not_mem_rest {own : T → List R} (h : Exclusive own) (rest : T → List R)
    (hrest : ∀ u, ∀ x ∈ rest u, x ∈ own u) (t : T) (r : R) (ht : own t = r :: rest t) (u : T) :
    r ∉ rest u := by
  intro hr
  by_cases htu : t = u
  · subst htu
    have hnodup := h.nodup t
    rw [ht] at hnodup
    exact (List.nodup_cons.mp hnodup).1 hr
  · refine h.disjoint t u htu r ?_ (hrest u r hr)
    rw [ht]
    exact List.mem_cons_self

section Update

variable [DecidableEq T] {own : T → List R}

-- One party replaces its list by one that takes nothing from the others.
theorem Exclusive.update (h : Exclusive own) (t : T) (l : List R) (hl : l.Nodup)
    (hf : ∀ r ∈ l, ∀ u, u ≠ t → r ∉ own u) : Exclusive (Function.update own t l) := by
  constructor
  · intro u
    by_cases hu : u = t
    · subst hu
      rwa [Function.update_self]
    · rw [Function.update_of_ne hu]
      exact h.nodup u
  · intro u v huv r hr
    by_cases hu : u = t
    · subst hu
      rw [Function.update_self] at hr
      rw [Function.update_of_ne huv.symm]
      exact hf r hr v huv.symm
    · rw [Function.update_of_ne hu] at hr
      by_cases hv : v = t
      · subst hv
        rw [Function.update_self]
        intro hrl
        exact hf r hrl u hu hr
      · rw [Function.update_of_ne hv]
        exact h.disjoint u v huv r hr

-- A resource that nobody owns can be taken.
theorem Exclusive.acquire (h : Exclusive own) (t : T) (r : R) (hr : ∀ u, r ∉ own u) :
    Exclusive (Function.update own t (r :: own t)) := by
  apply h.update t
  · exact List.nodup_cons.mpr ⟨hr t, h.nodup t⟩
  · intro x hx u hu
    rcases List.mem_cons.mp hx with rfl | hx
    · exact hr u
    · exact h.disjoint t u hu.symm x hx

-- What a party owns can be rearranged or given up.
theorem Exclusive.shrink (h : Exclusive own) (t : T) (l : List R) (hl : l.Nodup)
    (hs : ∀ r ∈ l, r ∈ own t) : Exclusive (Function.update own t l) :=
  h.update t l hl (fun r hr u hu => h.disjoint t u hu.symm r (hs r hr))

/-- Somebody owns `r`. -/
def Owned (own : T → List R) (r : R) : Prop := ∃ t, r ∈ own t

omit [DecidableEq T] in
theorem owned_empty (r : R) : ¬Owned (fun _ : T => ([] : List R)) r := by
  rintro ⟨t, ht⟩
  exact List.not_mem_nil ht

theorem owned_acquire (t : T) (r x : R) :
    Owned (Function.update own t (r :: own t)) x ↔ x = r ∨ Owned own x := by
  constructor
  · rintro ⟨u, hu⟩
    by_cases hut : u = t
    · subst hut
      rw [Function.update_self] at hu
      exact (List.mem_cons.mp hu).imp id (fun h => ⟨u, h⟩)
    · rw [Function.update_of_ne hut] at hu
      exact Or.inr ⟨u, hu⟩
  · rintro (rfl | ⟨u, hu⟩)
    · exact ⟨t, by rw [Function.update_self]; exact List.mem_cons_self⟩
    · by_cases hut : u = t
      · subst hut
        exact ⟨u, by rw [Function.update_self]; exact List.mem_cons_of_mem r hu⟩
      · exact ⟨u, by rwa [Function.update_of_ne hut]⟩

theorem owned_release (h : Exclusive own) (t : T) (r x : R) (l : List R) (hl : (r :: l).Perm (own t)) :
    Owned (Function.update own t l) x ↔ Owned own x ∧ x ≠ r := by
  have hnodup := List.nodup_cons.mp (hl.nodup_iff.mpr (h.nodup t))
  have hr : r ∈ own t := hl.mem_iff.mp List.mem_cons_self
  constructor
  · rintro ⟨u, hu⟩
    by_cases hut : u = t
    · subst hut
      rw [Function.update_self] at hu
      refine ⟨⟨u, hl.mem_iff.mp (List.mem_cons_of_mem r hu)⟩, ?_⟩
      rintro rfl
      exact hnodup.1 hu
    · rw [Function.update_of_ne hut] at hu
      refine ⟨⟨u, hu⟩, ?_⟩
      rintro rfl
      exact h.disjoint t u (Ne.symm hut) x hr hu
  · rintro ⟨⟨u, hu⟩, hne⟩
    by_cases hut : u = t
    · subst hut
      refine ⟨u, ?_⟩
      rw [Function.update_self]
      exact List.mem_of_ne_of_mem hne (hl.mem_iff.mpr hu)
    · exact ⟨u, by rwa [Function.update_of_ne hut]⟩

-- A party only rearranges what it owns.
theorem Exclusive.perm (h : Exclusive own) (t : T) (l : List R) (hl : l.Perm (own t)) :
    Exclusive (Function.update own t l) :=
  h.shrink t l (hl.nodup_iff.mpr (h.nodup t)) fun _ hr => hl.mem_iff.mp hr

theorem owned_perm (t : T) (l : List R) (hl : l.Perm (own t)) (x : R) :
    Owned (Function.update own t l) x ↔ Owned own x := by
  refine exists_congr fun u => ?_
  by_cases hu : u = t
  · subst hu
    rw [Function.update_self]
    exact hl.mem_iff
  · rw [Function.update_of_ne hu]

section Move

variable (h : Exclusive own) (t u : T) (htu : t ≠ u) (r : R) (l m : List R) (hl : (r :: l).Perm (own t))
  (hm : m.Perm (r :: own u))

include h htu hl hm

-- A resource goes from one party to another.
theorem Exclusive.move : Exclusive (Function.update (Function.update own t l) u m) := by
  have hnodup := List.nodup_cons.mp (hl.nodup_iff.mpr (h.nodup t))
  have hr : r ∈ own t := hl.mem_iff.mp List.mem_cons_self
  have hgiven : Exclusive (Function.update own t l) :=
    h.shrink t l hnodup.2 (fun x hx => hl.mem_iff.mp (List.mem_cons_of_mem r hx))
  refine hgiven.update u m (hm.nodup_iff.mpr ?_) fun x hx v hv hxv => ?_
  · exact List.nodup_cons.mpr ⟨h.disjoint t u htu r hr, h.nodup u⟩
  · rcases List.mem_cons.mp (hm.mem_iff.mp hx) with rfl | hx
    · exact ((owned_release h t x x l hl).mp ⟨v, hxv⟩).2 rfl
    · refine hgiven.disjoint u v hv.symm x ?_ hxv
      rwa [Function.update_of_ne htu.symm]

theorem owned_move (x : R) :
    Owned (Function.update (Function.update own t l) u m) x ↔ Owned own x := by
  have hgiven := owned_release h t r x l hl
  have hu : Function.update own t l u = own u := Function.update_of_ne htu.symm _ _
  have htaken := @owned_acquire T R _ (Function.update own t l) u r x
  have hsame : Owned (Function.update (Function.update own t l) u m) x ↔
      Owned (Function.update (Function.update own t l) u (r :: Function.update own t l u)) x := by
    refine exists_congr fun v => ?_
    by_cases hv : v = u
    · subst hv
      rw [Function.update_self, Function.update_self, hu]
      exact hm.mem_iff
    · rw [Function.update_of_ne hv, Function.update_of_ne hv]
  rw [hsame, htaken, hgiven]
  constructor
  · rintro (rfl | ⟨hx, -⟩)
    · exact ⟨t, hl.mem_iff.mp List.mem_cons_self⟩
    · exact hx
  · intro hx
    exact (em (x = r)).imp id (fun hne => ⟨hx, hne⟩)

end Move

end Update

section Flags

/-- Numbered resources with a flag each, which is set while somebody owns the resource. -/
structure Flagged (flag : ℕ → Bool) (own : T → List ℕ) : Prop where
  exclusive : Exclusive own
  flag : ∀ i, flag i = true ↔ Owned own i

variable [DecidableEq T] {flag : ℕ → Bool} {own : T → List ℕ} (h : Flagged flag own) (t : T) (i : ℕ)

include h

theorem Flagged.acquire (hi : flag i = false) :
    Flagged (Function.update flag i true) (Function.update own t (i :: own t)) := by
  have hfree : ¬Owned own i := fun hown => Bool.false_ne_true (hi.symm.trans ((h.flag i).mpr hown))
  refine ⟨h.exclusive.acquire t i fun u hu => hfree ⟨u, hu⟩, fun k => ?_⟩
  rw [owned_acquire]
  by_cases hk : k = i
  · subst hk
    rw [Function.update_self]
    exact iff_of_true rfl (Or.inl rfl)
  · rw [Function.update_of_ne hk, h.flag]
    exact (or_iff_right hk).symm

theorem Flagged.release (l : List ℕ) (hl : (i :: l).Perm (own t)) :
    Flagged (Function.update flag i false) (Function.update own t l) := by
  have hnodup := List.nodup_cons.mp (hl.nodup_iff.mpr (h.exclusive.nodup t))
  refine ⟨h.exclusive.shrink t l hnodup.2 fun k hk =>
    hl.mem_iff.mp (List.mem_cons_of_mem i hk), fun k => ?_⟩
  rw [owned_release h.exclusive t i k l hl]
  by_cases hk : k = i
  · subst hk
    rw [Function.update_self]
    exact iff_of_false Bool.false_ne_true fun hown => hown.2 rfl
  · rw [Function.update_of_ne hk, h.flag]
    exact (and_iff_left hk).symm

theorem Flagged.perm (l : List ℕ) (hl : l.Perm (own t)) :
    Flagged flag (Function.update own t l) :=
  ⟨h.exclusive.perm t l hl, fun k => (h.flag k).trans (owned_perm t l hl k).symm⟩

end Flags

section Count

-- When only finitely many parties own something, what is owned can be counted.
theorem Exclusive.ncard_owned {own : T → List R} (h : Exclusive own) (I : Finset T)
    (hI : ∀ t, t ∉ I → own t = []) :
    {r | Owned own r}.Finite ∧ {r | Owned own r}.ncard = ∑ t ∈ I, (own t).length := by
  classical
  have hset : {r | Owned own r} = ↑(I.biUnion fun t => (own t).toFinset) := by
    ext r
    rw [Finset.mem_coe, Finset.mem_biUnion]
    constructor
    · rintro ⟨t, ht⟩
      refine ⟨t, ?_, List.mem_toFinset.mpr ht⟩
      by_contra hout
      rw [hI t hout] at ht
      exact List.not_mem_nil ht
    · rintro ⟨t, -, ht⟩
      exact ⟨t, List.mem_toFinset.mp ht⟩
  have hdis : ∀ t ∈ I, ∀ u ∈ I, t ≠ u → Disjoint (own t).toFinset (own u).toFinset := by
    intro t _ u _ htu
    refine Finset.disjoint_left.mpr fun r ht hu => ?_
    exact h.disjoint t u htu r (List.mem_toFinset.mp ht) (List.mem_toFinset.mp hu)
  refine ⟨hset ▸ Finset.finite_toSet _, ?_⟩
  rw [hset, Set.ncard_coe_finset, Finset.card_biUnion hdis]
  exact Finset.sum_congr rfl fun t _ => List.toFinset_card_of_nodup (h.nodup t)

variable [Fintype T]

-- The sum of the parts when one part changes.
theorem sum_update_int [DecidableEq T] (f : T → ℤ) (t : T) (c : ℤ) :
    ∑ u, Function.update f t c u = (∑ u, f u)+(c-f t) := by
  rw [Finset.sum_update_of_mem (Finset.mem_univ t),
    ← Finset.sum_sdiff (Finset.subset_univ {t}), Finset.sum_singleton]
  ring

-- Exclusively owned numbers below `n` are at most `n` in all.
theorem Exclusive.sum_length_le {own : T → List ℕ} (h : Exclusive own) (n : ℕ)
    (hn : ∀ t, ∀ r ∈ own t, r < n) : ∑ t, (own t).length ≤ n := by
  have hcard (t : T) : (own t).length = (own t).toFinset.card :=
    (List.toFinset_card_of_nodup (h.nodup t)).symm
  have hdis : ∀ t ∈ Finset.univ, ∀ u ∈ Finset.univ, t ≠ u →
      Disjoint (own t).toFinset (own u).toFinset := by
    intro t _ u _ htu
    apply Finset.disjoint_left.mpr
    intro r hr
    rw [List.mem_toFinset] at hr ⊢
    exact h.disjoint t u htu r hr
  calc
    ∑ t, (own t).length = ∑ t, (own t).toFinset.card := Finset.sum_congr rfl (fun t _ => hcard t)
    _ = (Finset.univ.biUnion (fun t => (own t).toFinset)).card := (Finset.card_biUnion hdis).symm
    _ ≤ (Finset.range n).card := by
      apply Finset.card_le_card
      intro r hr
      obtain ⟨t, _, ht⟩ := Finset.mem_biUnion.mp hr
      exact Finset.mem_range.mpr (hn t r (List.mem_toFinset.mp ht))
    _ = n := Finset.card_range n

end Count

end Leviathan.Ownership
