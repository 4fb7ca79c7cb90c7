import Leviathan.Queue
import Leviathan.Ring
import Leviathan.Runs
import Leviathan.Slots

/-! One ring of `CQueueS` (`STCOMQueue`, comQueue.h) as a first-in first-out queue of at most `nMax`
elements. -/
namespace Leviathan

/-- What is left in a queue that held `q`; a pop takes the oldest element. -/
def Fifo.left {α : Type*} : List α → List (Fifo.Op α) → List α
  | q, [] => q
  | q, .push p :: ops => left (q ++ [p]) ops
  | q, .pop :: ops => left q.tail ops

namespace STCOMQueue

variable {α : Type} (q : STCOMQueue α)

/-- `init`, and what `__realloc` does behind it: an array of `nMax` NULLs. -/
def zeroed (nMax : ℕ) : STCOMQueue α :=
  { (init : STCOMQueue α) with nMax := nMax, pList := List.replicate nMax none }

/-- A call as `CQueueS` makes it: `push` where `isFull` is false, `pop` where `front` is an element. -/
def step : Fifo.Op α → Option (STCOMQueue α)
  | .push p => if q.isFull then none else some (q.push p)
  | .pop => if q.front.isSome then some q.pop else none

def slot (i : ℕ) : Option α := q.pList.getD i none

/-- The ring holds `xs`, the oldest element first. -/
structure Queues (n : ℕ) (xs : List α) : Prop where
  max : q.nMax = n
  length : q.pList.length = n
  use : q.nUse = xs.length
  last : q.nLast = (q.nFront+xs.length)%n
  holds : Ring.Holds n q.slot q.nFront xs
  -- as many slots are taken as there are elements
  stored : (Slots.contents n q.slot).length = xs.length

theorem queues_zeroed (n : ℕ) (hn : 1 ≤ n) : (zeroed n : STCOMQueue α).Queues n [] := by
  have hslot : (zeroed n : STCOMQueue α).slot = fun _ => none := Slots.getD_replicate_none n
  refine ⟨rfl, List.length_replicate, rfl, (Nat.zero_mod n).symm, ?_, ?_⟩
  · rw [hslot]
    exact Ring.holds_empty n hn
  · rw [hslot, Slots.contents_none]

section Step

variable (n : ℕ) (xs : List α) (h : q.Queues n xs)

include h

theorem isFull_iff : q.isFull = true ↔ xs.length = n := by
  rw [isFull, decide_eq_true_iff, h.max, h.use, Nat.cast_inj]
  exact eq_comm

theorem queues_push (p : α) (hroom : xs.length < n) : (q.push p).Queues n (xs ++ [p]) := by
  have hpos : 0 < n := Nat.zero_lt_of_lt hroom
  have hin : q.nLast < n := by
    rw [h.last]
    exact Nat.mod_lt _ hpos
  have hslot : (q.push p).slot = Function.update q.slot q.nLast (some p) :=
    Slots.getD_set q.pList q.nLast (h.length.symm ▸ hin) (some p)
  have hfree : q.slot q.nLast = none := by
    rw [h.last]
    exact h.holds.back_free n q.slot q.nFront xs hroom
  refine ⟨h.max, (List.length_set ..).trans h.length, ?_, ?_, ?_, ?_⟩
  · show q.nUse+1 = _
    rw [h.use, List.length_append, List.length_singleton]
    push_cast
    rfl
  · show Ring.next q.nMax q.nLast = _
    rw [h.max, h.last, Ring.back_push n q.nFront _ hpos, List.length_append, List.length_singleton]
    rfl
  · rw [hslot, h.last]
    exact h.holds.push n q.slot q.nFront xs p hroom
  · rw [hslot, Slots.length_put n q.slot q.nLast hin p hfree, h.stored, List.length_append,
      List.length_singleton]

theorem queues_pop (hne : xs ≠ []) : q.pop.Queues n xs.tail := by
  have hfront := h.holds.front_lt
  have hpos : 0 < xs.length := List.length_pos_iff.mpr hne
  have hslot : q.pop.slot = Function.update q.slot q.nFront none :=
    Slots.getD_set q.pList q.nFront (h.length.symm ▸ hfront) none
  have hindex : q.pop.nFront = Ring.next n q.nFront := by
    rw [← h.max]
    rfl
  refine ⟨h.max, (List.length_set ..).trans h.length, ?_, ?_, ?_, ?_⟩
  · show q.nUse-1 = _
    rw [h.use, List.length_tail]
    omega
  · show q.nLast = _
    rw [hindex, Ring.back_pop n q.nFront _ hfront, h.last, List.length_tail, Nat.sub_add_cancel hpos]
  · rw [hslot, hindex]
    exact h.holds.pop n q.slot q.nFront xs hne
  · have htaken : q.slot q.nFront = some (xs.head hne) := by
      rw [h.holds.head n q.slot q.nFront xs, List.head?_eq_some_head hne]
    have htake := Slots.length_take n q.slot q.nFront hfront _ htaken
    rw [h.stored] at htake
    rw [hslot, List.length_tail]
    omega

theorem front_eq : q.front = xs.head? := h.holds.head n q.slot q.nFront xs

theorem queues_step (op : Fifo.Op α) (q' : STCOMQueue α) (hstep : q.step op = some q') :
    q'.Queues n (Fifo.left xs [op]) := by
  cases op with
  | push p =>
    obtain ⟨hroom, hq⟩ := Option.ite_none_left_eq_some.mp hstep
    obtain rfl := Option.some.inj hq
    apply queues_push q n xs h p
    exact lt_of_le_of_ne h.holds.le (fun heq => hroom ((isFull_iff q n xs h).mpr heq))
  | pop =>
    obtain ⟨hsome, hq⟩ := Option.ite_none_right_eq_some.mp hstep
    obtain rfl := Option.some.inj hq
    apply queues_pop q n xs h
    rintro rfl
    rw [front_eq q n [] h] at hsome
    cases hsome

theorem queues_run (ops : List (Fifo.Op α)) (q' : STCOMQueue α)
    (hr : Runs.runFrom step q ops = some q') : q'.Queues n (Fifo.left xs ops) := by
  induction ops generalizing q xs with
  | nil =>
    obtain rfl := Option.some.inj hr
    exact h
  | cons op ops ih =>
    obtain ⟨u, hu, hr⟩ := (Runs.runFrom_cons_iff step q q' op ops).mp hr
    have hrest := ih u _ (queues_step q n xs h op u hu) hr
    cases op with
    | push p => exact hrest
    | pop => exact hrest

end Step

/-- In every state that the calls of `CQueueS` lead to, `front` is the oldest element that has not been
popped, or NULL where `nUse` is 0; `nUse` is the number of the elements, which fill as many slots; and
both indices are in the array. -/
theorem ring_is_fifo (n : ℕ) (hn : 1 ≤ n) (ops : List (Fifo.Op α)) (q : STCOMQueue α)
    (hr : Runs.runFrom step (zeroed n) ops = some q) :
    q.front = (Fifo.left [] ops).head? ∧ (q.front = none ↔ q.nUse = 0) ∧
    q.nUse = (Fifo.left [] ops).length ∧ q.nUse = (Slots.contents q.nMax q.slot).length ∧
    (q.nMax = n ∧ q.pList.length = n) ∧ q.nFront < n ∧ q.nLast < n := by
  have h := queues_run (zeroed n) n [] (queues_zeroed n hn) ops q hr
  have hfront := front_eq q n _ h
  refine ⟨hfront, ?_, h.use, ?_, ⟨h.max, h.length⟩, h.holds.front_lt, ?_⟩
  · rw [hfront, h.use, List.head?_eq_none_iff, Nat.cast_eq_zero, List.length_eq_zero_iff]
  · rw [h.use, h.max, h.stored]
  · rw [h.last]
    exact Nat.mod_lt _ hn

-- twice around a ring of two
theorem ring_is_fifo_two : ((((((zeroed 2).push 5).push 6).pop.push 7).pop.push 8).front = some 7) :=
  (ring_is_fifo 2 (by decide) [.push 5, .push 6, .pop, .push 7, .pop, .push 8] _ rfl).1

end STCOMQueue

end Leviathan
