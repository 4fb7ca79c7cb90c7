import Mathlib.Order.Basic
import Mathlib.Tactic

/-! Lists in the order of their keys, taken apart at one key. -/
namespace Leviathan.SortedKeys

variable {α K : Type*} [LinearOrder K] (key : α → K)

def SortedBy (l : List α) : Prop := l.Pairwise (fun a b => key a < key b)

/-- One list has the smaller keys, the other one the greater keys. -/
structure Around (k : K) (a b : List α) : Prop where
  lt : ∀ x ∈ a, key x < k
  gt : ∀ x ∈ b, k < key x

/-- The first element with the key. -/
def findKey (l : List α) (k : K) : Option α := l.find? (fun x => key x = k)

theorem SortedBy.around (a b : List α) (x : α) (h : SortedBy key (a ++ x :: b)) :
    Around key (key x) a b := by
  obtain ⟨-, hb, hab⟩ := List.pairwise_append.mp h
  constructor
  · intro y hy
    exact hab y hy x List.mem_cons_self
  · exact (List.pairwise_cons.mp hb).1

theorem SortedBy.sublist (l k : List α) (h : SortedBy key l) (hk : k.Sublist l) : SortedBy key k :=
  List.Pairwise.sublist hk h

theorem Around.append (k : K) (a b a' b' : List α) (h : Around key k a b) (h' : Around key k a' b') :
    Around key k (a' ++ a) (b ++ b') := by
  constructor
  · intro x hx
    rcases List.mem_append.mp hx with hx | hx
    · exact h'.lt x hx
    · exact h.lt x hx
  · intro x hx
    rcases List.mem_append.mp hx with hx | hx
    · exact h.gt x hx
    · exact h'.gt x hx

section Around

variable (k : K) (a b c : List α) (x : α)

theorem Around.filter_lt (h : Around key k a b) (hc : ∀ y ∈ c, key y = k) :
    (a ++ (c ++ b)).filter (fun y => key y < k) = a := by
  rw [List.filter_append, List.filter_append, List.filter_eq_self.mpr (by simpa using h.lt),
    List.filter_eq_nil_iff.mpr (by simpa using fun y hy => (hc y hy).ge),
    List.filter_eq_nil_iff.mpr (by simpa using fun y hy => (h.gt y hy).le)]
  simp

theorem Around.filter_gt (h : Around key k a b) (hc : ∀ y ∈ c, key y = k) :
    (a ++ (c ++ b)).filter (fun y => k < key y) = b := by
  rw [List.filter_append, List.filter_append,
    List.filter_eq_nil_iff.mpr (by simpa using fun y hy => (h.lt y hy).le),
    List.filter_eq_nil_iff.mpr (by simpa using fun y hy => (hc y hy).le),
    List.filter_eq_self.mpr (by simpa using h.gt)]
  simp

theorem Around.filter_ne (h : Around key k a b) (hc : ∀ y ∈ c, key y = k) :
    (a ++ (c ++ b)).filter (fun y => key y ≠ k) = a ++ b := by
  rw [List.filter_append, List.filter_append,
    List.filter_eq_self.mpr (by simpa using fun y hy => (h.lt y hy).ne),
    List.filter_eq_nil_iff.mpr (by simpa using hc),
    List.filter_eq_self.mpr (by simpa using fun y hy => (h.gt y hy).ne')]
  simp

theorem Around.sortedBy (h : Around key k a b) (hs : SortedBy key (a ++ b)) (hx : key x = k) :
    SortedBy key (a ++ x :: b) := by
  obtain ⟨ha, hb, hab⟩ := List.pairwise_append.mp hs
  apply List.pairwise_append.mpr
  refine ⟨ha, List.pairwise_cons.mpr ⟨?_, hb⟩, ?_⟩
  · intro y hy
    rw [hx]
    exact h.gt y hy
  · intro y hy z hz
    rcases List.mem_cons.mp hz with rfl | hz
    · rw [hx]
      exact h.lt y hy
    · exact hab y hy z hz

theorem findKey_none (l : List α) (h : ∀ y ∈ l, key y ≠ k) : findKey key l k = none := by
  apply List.find?_eq_none.mpr
  simpa using h

theorem Around.findKey_self (h : Around key k a b) (hx : key x = k) :
    findKey key (a ++ x :: b) k = some x := by
  have ha : a.find? (fun y => key y = k) = none := findKey_none key k a fun y hy => (h.lt y hy).ne
  rw [findKey, List.find?_append, ha, Option.none_or, List.find?_cons_of_pos (by simpa using hx)]

end Around

section Filter

variable (l : List α) (q : α → Bool) (j : K)

theorem findKey_filter (h : ∀ x, key x = j → q x = true) :
    findKey key (l.filter q) j = findKey key l j := by
  rw [findKey, List.find?_filter, findKey]
  congr 1
  funext x
  by_cases hx : key x = j
  · simp [hx, h x hx]
  · simp [hx]

theorem findKey_filter_none (h : ∀ x, key x = j → q x = false) : findKey key (l.filter q) j = none := by
  apply findKey_none
  intro x hx he
  have hqx := (List.mem_filter.mp hx).2
  rw [h x he] at hqx
  cases hqx

end Filter

end Leviathan.SortedKeys
