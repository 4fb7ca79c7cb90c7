import Mathlib.Tactic

/-! The queue as a client sees it: pushes and pops, and the answers that a
first-in first-out list gives to them. -/
namespace Leviathan.Fifo

inductive Op (α : Type*)
  | push (p : α)
  | pop
  deriving DecidableEq

inductive Res (α : Type*)
  | pushed (ok : Bool)
  | popped (r : Option α)
  deriving DecidableEq

variable {α : Type*}

/-- The answers of a first-in first-out queue that holds `q` at the start. -/
def results : List α → List (Op α) → List (Res α)
  | _, [] => []
  | q, .push p :: ops => .pushed true :: results (q ++ [p]) ops
  | [], .pop :: ops => .popped none :: results [] ops
  | x :: q, .pop :: ops => .popped (some x) :: results q ops

/-- Number the pushes, so that two pushes of one pointer are told apart. -/
def number : ℕ → List (Op α) → List (Op (α × ℕ))
  | _, [] => []
  | k, .push p :: ops => .push (p, k) :: number (k+1) ops
  | k, .pop :: ops => .pop :: number k ops

/-- No pop stands after a push. -/
def NoPopAfterPush : List (Op α) → Prop
  | [] => True
  | .push _ :: ops => Op.pop ∉ ops
  | .pop :: ops => NoPopAfterPush ops

theorem pop_mem_number (k : ℕ) (ops : List (Op α)) : Op.pop ∈ number k ops ↔ Op.pop ∈ ops := by
  induction ops generalizing k with
  | nil => simp [number]
  | cons o ops ih => cases o <;> simp [number, ih]

-- Numbering starts at `k`: no element of the numbered list has a smaller number.
theorem number_ge (k : ℕ) (ops : List (Op α)) (x : α × ℕ) (h : Op.push x ∈ number k ops) :
    k ≤ x.2 := by
  induction ops generalizing k with
  | nil => cases h
  | cons o ops ih =>
    cases o with
    | pop =>
      simp only [number, List.mem_cons, reduceCtorEq, false_or] at h
      exact ih k h
    | push p =>
      simp only [number, List.mem_cons, Op.push.injEq] at h
      rcases h with h | h
      · simp [h]
      · exact (Nat.le_succ k).trans (ih (k+1) h)

-- Pushes alone are all answered by success, whatever the queue holds.
theorem results_pushes (q : List α) (ops : List (Op α)) (h : Op.pop ∉ ops) :
    results q ops = ops.map (fun _ => .pushed true) := by
  induction ops generalizing q with
  | nil => rfl
  | cons o ops ih =>
    cases o with
    | pop => simp at h
    | push p =>
      simp only [results, List.map_cons]
      rw [ih (q ++ [p]) (fun hm => h (List.mem_cons_of_mem _ hm))]

-- After pushes onto a queue whose oldest element is `x`, the next pop answers `x`.
theorem results_pushes_pop (x : α) (q : List α) (ps rest : List (Op α)) (h : Op.pop ∉ ps) :
    ∃ q', results (x :: q) (ps ++ .pop :: rest) =
      ps.map (fun _ => .pushed true) ++ .popped (some x) :: results q' rest := by
  induction ps generalizing q with
  | nil => exact ⟨q, rfl⟩
  | cons o ps ih =>
    cases o with
    | pop => simp at h
    | push p =>
      obtain ⟨q', hq⟩ := ih (q ++ [p]) (fun hm => h (List.mem_cons_of_mem _ hm))
      exact ⟨q', by simp only [List.cons_append, results, List.map_cons, hq]⟩

-- The part of a list of operations before its first pop.
theorem split_first_pop (ops : List (Op α)) (h : Op.pop ∈ ops) :
    ∃ ps rest, ops = ps ++ .pop :: rest ∧ Op.pop ∉ ps := by
  induction ops with
  | nil => cases h
  | cons o ops ih =>
    cases o with
    | pop => exact ⟨[], ops, rfl, by simp⟩
    | push p =>
      simp only [List.mem_cons, reduceCtorEq, false_or] at h
      obtain ⟨ps, rest, he, hn⟩ := ih h
      exact ⟨.push p :: ps, rest, by rw [he]; rfl, by simpa using hn⟩

end Leviathan.Fifo
