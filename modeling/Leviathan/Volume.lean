import Mathlib.Logic.Function.Basic
import Mathlib.Tactic

/-! Files under names.  A name stands for a file, a file has at most one name; a file is only added to,
and it is lost when its name is given to another one or taken away. -/
namespace Leviathan

/-- The files have numbers, in the order in which they were made. -/
structure Volume (N B : Type) where
  file : N → Option ℕ
  content : ℕ → List B
  -- when it was last written
  time : ℕ → ℕ
  next : ℕ
  lt_next : ∀ n i, file n = some i → i < next
  one_name : ∀ m n i, file m = some i → file n = some i → m = n
  unmade : ∀ i, next ≤ i → content i = []

namespace Volume

/-- No files yet. -/
def empty (N B : Type) : Volume N B where
  file := fun _ => none
  content := fun _ => []
  time := fun _ => 0
  next := 0
  lt_next := fun _ _ h => nomatch h
  one_name := fun _ _ _ h => nomatch h
  unmade := fun _ _ => rfl

variable {N B : Type} [DecidableEq N]

/-- An empty file under a free name. -/
def create (v : Volume N B) (n : N) (now : ℕ) : Volume N B where
  file := Function.update v.file n (some v.next)
  content := v.content
  time := Function.update v.time v.next now
  next := v.next+1
  lt_next := by
    intro m i hm
    by_cases hmn : m = n
    · rw [hmn, Function.update_self] at hm
      cases hm
      exact Nat.lt_succ_self _
    · rw [Function.update_of_ne hmn] at hm
      exact Nat.lt_succ_of_lt (v.lt_next m i hm)
  one_name := by
    have hnew (m : N) (i : ℕ) (hm : Function.update v.file n (some v.next) m = some i) :
        m = n ∧ i = v.next ∨ v.file m = some i ∧ i < v.next := by
      by_cases hmn : m = n
      · rw [hmn, Function.update_self] at hm
        exact Or.inl ⟨hmn, (Option.some.inj hm).symm⟩
      · rw [Function.update_of_ne hmn] at hm
        exact Or.inr ⟨hm, v.lt_next m i hm⟩
    intro l m i hl hm
    rcases hnew l i hl with ⟨rfl, hi⟩ | ⟨hl, hi⟩ <;> rcases hnew m i hm with ⟨rfl, hi'⟩ | ⟨hm, hi'⟩
    · rfl
    · omega
    · omega
    · exact v.one_name l m i hl hm
  unmade := fun i hi => v.unmade i (by omega)

/-- `fopen(n, "a+")`: the file is made when there is none. -/
def openAppend (v : Volume N B) (n : N) (now : ℕ) : Volume N B × ℕ :=
  match v.file n with
  | some i => (v, i)
  | none => (v.create n now, v.next)

/-- Bytes at the end of a file. -/
def append (v : Volume N B) (i : ℕ) (hi : i < v.next) (bytes : List B) (now : ℕ) : Volume N B where
  file := v.file
  content := Function.update v.content i (v.content i ++ bytes)
  time := Function.update v.time i now
  next := v.next
  lt_next := v.lt_next
  one_name := v.one_name
  unmade := by
    intro j hj
    rw [Function.update_of_ne (by omega)]
    exact v.unmade j hj

/-- The name is taken away, and the file with it. -/
def remove (v : Volume N B) (n : N) : Volume N B where
  file := Function.update v.file n none
  content := v.content
  time := v.time
  next := v.next
  lt_next := by
    intro m i hm
    by_cases hmn : m = n
    · rw [hmn, Function.update_self] at hm
      cases hm
    · rw [Function.update_of_ne hmn] at hm
      exact v.lt_next m i hm
  one_name := by
    intro l m i hl hm
    by_cases hln : l = n
    · rw [hln, Function.update_self] at hl
      cases hl
    · by_cases hmn : m = n
      · rw [hmn, Function.update_self] at hm
        cases hm
      · rw [Function.update_of_ne hln] at hl
        rw [Function.update_of_ne hmn] at hm
        exact v.one_name l m i hl hm
  unmade := v.unmade

/-- A file without a name gets the name `n`, whatever this stood for. -/
def give (v : Volume N B) (n : N) (i : ℕ) (hi : i < v.next) (hfree : ∀ m, v.file m ≠ some i) :
    Volume N B where
  file := Function.update v.file n (some i)
  content := v.content
  time := v.time
  next := v.next
  lt_next := by
    intro m j hm
    by_cases hmn : m = n
    · rw [hmn, Function.update_self] at hm
      cases hm
      exact hi
    · rw [Function.update_of_ne hmn] at hm
      exact v.lt_next m j hm
  one_name := by
    intro l m j hl hm
    by_cases hln : l = n <;> by_cases hmn : m = n
    · rw [hln, hmn]
    · rw [hln, Function.update_self] at hl
      rw [Function.update_of_ne hmn] at hm
      cases hl
      exact absurd hm (hfree m)
    · rw [hmn, Function.update_self] at hm
      rw [Function.update_of_ne hln] at hl
      cases hm
      exact absurd hl (hfree l)
    · rw [Function.update_of_ne hln] at hl
      rw [Function.update_of_ne hmn] at hm
      exact v.one_name l m j hl hm
  unmade := v.unmade

theorem remove_file (v : Volume N B) (n m : N) :
    (v.remove n).file m = if m = n then none else v.file m := Function.update_apply v.file n none m

theorem remove_free (v : Volume N B) (n : N) (i : ℕ) (hn : v.file n = some i) (m : N) :
    (v.remove n).file m ≠ some i := by
  rw [remove_file]
  intro hm
  split_ifs at hm with hmn
  exact hmn (v.one_name m n i hm hn)

/-- `rename(a, b)`, which takes the name `b` away from the file that had it. -/
def rename (v : Volume N B) (a b : N) : Volume N B :=
  match ha : v.file a with
  | none => v
  | some i => (v.remove a).give b i (v.lt_next a i ha) (v.remove_free a i ha)

/-- `MoveFile(a, b)`, which fails when there is a file `b`. -/
def moveFile (v : Volume N B) (a b : N) : Volume N B := if v.file b = none then v.rename a b else v

section Names

variable (v : Volume N B) (n m : N) (i now : ℕ)

theorem create_file : (v.create n now).file m = if m = n then some v.next else v.file m :=
  Function.update_apply v.file n (some v.next) m

theorem openAppend_some (hn : v.file n = some i) : v.openAppend n now = (v, i) := by
  rw [openAppend, hn]

theorem openAppend_none (hn : v.file n = none) : v.openAppend n now = (v.create n now, v.next) := by
  rw [openAppend, hn]

-- The opened file has the name, and the other names are what they were.
theorem openAppend_file : (v.openAppend n now).1.file m =
    if m = n then some (v.openAppend n now).2 else v.file m := by
  cases hn : v.file n with
  | none => rw [openAppend_none v n now hn, create_file]
  | some i =>
    rw [openAppend_some v n i now hn]
    split_ifs with hmn
    · rw [hmn, hn]
    · rfl

theorem openAppend_content : (v.openAppend n now).1.content = v.content := by
  cases hn : v.file n with
  | none =>
    rw [openAppend_none v n now hn]
    rfl
  | some i => rw [openAppend_some v n i now hn]

theorem rename_none (hn : v.file n = none) : v.rename n m = v := by
  unfold rename
  split
  · rfl
  · rename_i h
    rw [hn] at h
    cases h

theorem rename_some (l : N) (hn : v.file n = some i) : (v.rename n m).file l =
    if l = m then some i else if l = n then none else v.file l := by
  unfold rename
  split
  · rename_i h
    rw [hn] at h
    cases h
  · rename_i j h
    rw [hn] at h
    cases h
    rw [← remove_file]
    exact Function.update_apply _ _ _ _

theorem rename_content : (v.rename n m).content = v.content := by
  unfold rename
  split <;> rfl

end Names

/-- The file has a name. -/
def Named (v : Volume N B) (i : ℕ) : Prop := ∃ n, v.file n = some i

section Named

variable (v : Volume N B) (n m : N) (i now : ℕ)

omit [DecidableEq N] in
theorem Named.lt_next {v : Volume N B} {i : ℕ} (h : v.Named i) : i < v.next := by
  obtain ⟨n, hn⟩ := h
  exact v.lt_next n i hn

theorem Named.openAppend (h : v.Named i) : (v.openAppend n now).1.Named i := by
  obtain ⟨l, hl⟩ := h
  refine ⟨l, ?_⟩
  rw [openAppend_file]
  split_ifs with hln
  · subst hln
    rw [openAppend_some v l i now hl]
  · exact hl

-- A file keeps a name when the new name of the other one is free.
theorem Named.rename (hm : v.file m = none) (h : v.Named i) : (v.rename n m).Named i := by
  cases hn : v.file n with
  | none => rwa [rename_none v n m hn]
  | some j =>
    obtain ⟨l, hl⟩ := h
    by_cases hij : i = j
    · refine ⟨m, ?_⟩
      rw [rename_some v n m j m hn, if_pos rfl, hij]
    · refine ⟨l, ?_⟩
      have hln : l ≠ n := by
        rintro rfl
        rw [hl] at hn
        exact hij (Option.some.inj hn)
      have hlm : l ≠ m := by
        rintro rfl
        rw [hl] at hm
        cases hm
      rw [rename_some v n m j l hn, if_neg hlm, if_neg hln, hl]

end Named

end Volume

end Leviathan
