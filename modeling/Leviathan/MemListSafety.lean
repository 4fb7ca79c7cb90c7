import Leviathan.MemListThreads
import Leviathan.Ownership
import Leviathan.Runs

namespace Leviathan.MemListThreads

open Ownership

variable {Obj T : Type} [DecidableEq T]

/-- A thread owns a cell while its flag is 1. -/
def owned : Pc Obj → List ℤ
  | .addHintClear _ i | .addStore _ i | .addSet i | .popRead i | .delSet (.popped _) i
  | .delSet (.added _) i | .delEmpty _ i | .delLess _ i | .delHint _ i | .delDec _ i
  | .delClear _ i => [i]
  | .idle _ | .addEmpty _ | .addHintFlag _ _ | .addHintCas _ _ | .addCount _ | .addFull _ _ _
  | .addFlag _ _ _ | .addCas _ _ _ | .addInc _ | .popFlag _ | .popCas _ | .delSet .deleted _ => []

/-- The owned cells that hold no live object: all but the one just stored to. -/
def vacant : Pc Obj → List ℤ
  | .addSet _ => []
  | pc => owned pc

-- the scan of `add` has its index at most at the end of the list
def scanBound (n : ℕ) : Pc Obj → Prop
  | .addFull _ i j => 0 ≤ i ∧ i ≤ n ∧ j < n
  | .addFlag _ _ j | .addCas _ _ j => j < n
  | _ => True

/-- What holds of one thread. -/
structure ThreadOk (m : Mem Obj) (pc : Pc Obj) : Prop where
  used : ∀ i ∈ usedIndex pc, inRange m.list.m_nMaxCount i
  flag : ∀ i ∈ owned pc, inRange m.list.m_nMaxCount i ∧ m.list.m_nFlagArray i = 1
  empty : ∀ i ∈ vacant pc, m.live i = none
  scan : scanBound m.list.m_nMaxCount pc

/-- What holds of the list. -/
structure MemOk (m : Mem Obj) : Prop where
  pos : 1 ≤ m.list.m_nMaxCount
  free : ∀ i, inRange m.list.m_nMaxCount i → m.list.m_nFlagArray i = 0 → m.live i = none
  kept : ∀ i o, m.live i = some o → m.list.m_pArray i = some o
  hint : m.list.m_nEmptyFirstIdx < m.list.m_nMaxCount

structure Inv (s : State T Obj) : Prop where
  exclusive : Exclusive (fun t => owned (s.thr t))
  threads : ∀ t, ThreadOk s.mem (s.thr t)
  mem : MemOk s.mem

theorem owned_nodup (pc : Pc Obj) : (owned pc).Nodup := by
  fun_cases owned pc <;> simp

theorem mem_owned_of_mem_vacant (pc : Pc Obj) (i : ℤ) (h : i ∈ vacant pc) : i ∈ owned pc := by
  unfold vacant at h
  split at h
  · exact absurd h List.not_mem_nil
  · exact h

-- A thread does not see a change at a cell that it does not own.
theorem ThreadOk.frame (m m' : Mem Obj) (pc : Pc Obj) (i : ℤ) (h : ThreadOk m pc)
    (hi : i ∉ owned pc) (hmax : m'.list.m_nMaxCount = m.list.m_nMaxCount)
    (hflag : ∀ k, k ≠ i → m'.list.m_nFlagArray k = m.list.m_nFlagArray k)
    (hlive : ∀ k, k ≠ i → m'.live k = m.live k) : ThreadOk m' pc := by
  have hne (k : ℤ) (hk : k ∈ owned pc) : k ≠ i := by
    rintro rfl
    exact hi hk
  refine ⟨?_, ?_, ?_, ?_⟩
  · rw [hmax]
    exact h.used
  · intro k hk
    rw [hmax, hflag k (hne k hk)]
    exact h.flag k hk
  · intro k hk
    rw [hlive k (hne k (mem_owned_of_mem_vacant pc k hk))]
    exact h.empty k hk
  · rw [hmax]
    exact h.scan

-- One thread moves and changes at most cell `i`, which is nobody else's.
theorem inv_move (s : State T Obj) (t : T) (m' : Mem Obj) (pc' : Pc Obj) (i : ℤ) (h : Inv s)
    (hi : ∀ u, u ≠ t → i ∉ owned (s.thr u)) (hmax : m'.list.m_nMaxCount = s.mem.list.m_nMaxCount)
    (hflag : ∀ k, k ≠ i → m'.list.m_nFlagArray k = s.mem.list.m_nFlagArray k)
    (hlive : ∀ k, k ≠ i → m'.live k = s.mem.live k)
    (hown : ∀ k ∈ owned pc', k = i ∨ k ∈ owned (s.thr t))
    (hpc : ThreadOk m' pc') (hmem : MemOk m') : Inv ⟨m', Function.update s.thr t pc'⟩ := by
  refine ⟨?_, ?_, hmem⟩
  · show Exclusive (owned ∘ Function.update s.thr t pc')
    rw [Function.comp_update]
    apply h.exclusive.update t _ (owned_nodup pc')
    intro k hk u hu
    rcases hown k hk with rfl | hk
    · exact hi u hu
    · exact h.exclusive.disjoint t u hu.symm k hk
  · apply (Function.forall_update_iff s.thr (fun _ x => ThreadOk m' x)).mpr
    exact ⟨hpc, fun u hu => (h.threads u).frame s.mem m' _ i (hi u hu) hmax hflag hlive⟩

-- A thread goes on, and neither the flags nor the objects change.
theorem inv_goto (s : State T Obj) (t : T) (l' : CMemList Obj) (pc' : Pc Obj) (h : Inv s)
    (hmax : l'.m_nMaxCount = s.mem.list.m_nMaxCount)
    (hflag : l'.m_nFlagArray = s.mem.list.m_nFlagArray) (harr : l'.m_pArray = s.mem.list.m_pArray)
    (hhint : l'.m_nEmptyFirstIdx < l'.m_nMaxCount)
    (hown : ∀ k ∈ owned pc', k ∈ vacant (s.thr t))
    (hused : ∀ i ∈ usedIndex pc', inRange s.mem.list.m_nMaxCount i)
    (hscan : scanBound s.mem.list.m_nMaxCount pc') :
    Inv ⟨⟨l', s.mem.live⟩, Function.update s.thr t pc'⟩ := by
  have hmem (k : ℤ) (hk : k ∈ owned pc') : k ∈ owned (s.thr t) :=
    mem_owned_of_mem_vacant _ k (hown k hk)
  -- cell -1 is nobody's
  have hno : ∀ u, u ≠ t → (-1:ℤ) ∉ owned (s.thr u) := by
    intro u _ hu
    have := ((h.threads u).flag _ hu).1.1
    omega
  refine inv_move s t _ pc' (-1) h hno hmax (fun k _ => congrFun hflag k) (fun _ _ => rfl)
    (fun k hk => Or.inr (hmem k hk)) ⟨?_, ?_, ?_, ?_⟩ ⟨?_, ?_, ?_, hhint⟩
  · rw [hmax]
    exact hused
  · intro k hk
    rw [hmax, hflag]
    exact (h.threads t).flag k (hmem k hk)
  · intro k hk
    exact (h.threads t).empty k (hown k (mem_owned_of_mem_vacant _ k hk))
  · rw [hmax]
    exact hscan
  · rw [hmax]
    exact h.mem.pos
  · rw [hmax, hflag]
    exact h.mem.free
  · rw [harr]
    exact h.mem.kept

theorem inv_read (s : State T Obj) (t : T) (pc' : Pc Obj) (h : Inv s)
    (hown : ∀ k ∈ owned pc', k ∈ vacant (s.thr t))
    (hused : ∀ i ∈ usedIndex pc', inRange s.mem.list.m_nMaxCount i)
    (hscan : scanBound s.mem.list.m_nMaxCount pc') :
    Inv ⟨s.mem, Function.update s.thr t pc'⟩ :=
  inv_goto s t s.mem.list pc' h rfl rfl rfl h.mem.hint hown hused hscan

-- To a point that owns no cell and uses none.
theorem inv_leave (s : State T Obj) (t : T) (pc' : Pc Obj) (h : Inv s) (hown : owned pc' = [])
    (hused : usedIndex pc' = []) (hscan : scanBound s.mem.list.m_nMaxCount pc') :
    Inv ⟨s.mem, Function.update s.thr t pc'⟩ := by
  apply inv_read s t pc' h
  · simp [hown]
  · simp [hused]
  · exact hscan

-- To a point that uses one cell.
theorem inv_look (s : State T Obj) (t : T) (i : ℤ) (pc' : Pc Obj) (h : Inv s)
    (hin : inRange s.mem.list.m_nMaxCount i) (hown : owned pc' = []) (hused : usedIndex pc' = [i])
    (hscan : scanBound s.mem.list.m_nMaxCount pc') :
    Inv ⟨s.mem, Function.update s.thr t pc'⟩ := by
  apply inv_read s t pc' h
  · simp [hown]
  · simpa [hused] using hin
  · exact hscan

omit [DecidableEq T] in
-- Only claimed cells have an owner.
theorem not_owned_of_flag (s : State T Obj) (h : Inv s) (i : ℤ)
    (hf : s.mem.list.m_nFlagArray i ≠ 1) (u : T) : i ∉ owned (s.thr u) := by
  intro hu
  exact hf ((h.threads u).flag i hu).2

omit [DecidableEq T] in
theorem not_owned_of_owned (s : State T Obj) (h : Inv s) (t : T) (i : ℤ) (hi : i ∈ owned (s.thr t))
    (u : T) (hu : u ≠ t) : i ∉ owned (s.thr u) :=
  h.exclusive.disjoint t u hu.symm i hi

-- The flag of cell `i` changes, and the cell is the thread's own afterwards or nobody's.
theorem inv_setFlag (s : State T Obj) (t : T) (i : ℤ) (c : ℕ) (live' : ℤ → Option Obj)
    (pc' : Pc Obj) (h : Inv s)
    (hi : ∀ u, u ≠ t → i ∉ owned (s.thr u)) (hin : inRange s.mem.list.m_nMaxCount i)
    (hlive : ∀ k, k ≠ i → live' k = s.mem.live k)
    (hown : ∀ k ∈ owned pc', k = i ∧ c = 1) (hvac : ∀ k ∈ vacant pc', live' i = none)
    (hused : ∀ k ∈ usedIndex pc', k = i)
    (hscan : scanBound s.mem.list.m_nMaxCount pc')
    (hzero : c = 0 → live' i = none) (hkept : ∀ o, live' i = some o → s.mem.live i = some o) :
    Inv ⟨⟨s.mem.list.setFlag i c, live'⟩, Function.update s.thr t pc'⟩ := by
  have hflag (k : ℤ) (hk : k ≠ i) :
      (s.mem.list.setFlag i c).m_nFlagArray k = s.mem.list.m_nFlagArray k :=
    Function.update_of_ne hk ..
  have hself : (s.mem.list.setFlag i c).m_nFlagArray i = c := Function.update_self ..
  refine inv_move s t _ pc' i h hi rfl hflag hlive (fun k hk => Or.inl (hown k hk).1)
    ⟨?_, ?_, ?_, hscan⟩ ⟨h.mem.pos, ?_, ?_, h.mem.hint⟩
  · intro k hk
    rw [hused k hk]
    exact hin
  · intro k hk
    obtain ⟨rfl, hc⟩ := hown k hk
    exact ⟨hin, hself.trans hc⟩
  · intro k hk
    obtain ⟨rfl, _⟩ := hown k (mem_owned_of_mem_vacant _ k hk)
    exact hvac k hk
  · intro k hk hf
    by_cases hki : k = i
    · subst hki
      rw [hself] at hf
      exact hzero hf
    · rw [hflag k hki] at hf
      show live' k = none
      rw [hlive k hki]
      exact h.mem.free k hk hf
  · intro k o hk
    apply h.mem.kept
    by_cases hki : k = i
    · subst hki
      exact hkept o hk
    · rw [← hlive k hki]
      exact hk

-- A free cell is claimed.
theorem inv_claim (s : State T Obj) (t : T) (i : ℤ) (pc' : Pc Obj) (h : Inv s)
    (hin : inRange s.mem.list.m_nMaxCount i) (hf : s.mem.list.m_nFlagArray i = 0)
    (hown : owned pc' = [i]) (hused : ∀ k ∈ usedIndex pc', k = i)
    (hscan : scanBound s.mem.list.m_nMaxCount pc') :
    Inv ⟨s.mem.setFlag i 1, Function.update s.thr t pc'⟩ := by
  have hlive : s.mem.live i = none := h.mem.free i hin hf
  refine inv_setFlag s t i 1 s.mem.live pc' h ?_ hin (fun _ _ => rfl) ?_ (fun _ _ => hlive) hused
    hscan (fun _ => hlive) (fun _ ho => ho)
  · intro u _
    exact not_owned_of_flag s h i (by omega) u
  · intro k hk
    rw [hown] at hk
    exact ⟨List.mem_singleton.mp hk, rfl⟩

-- The object of a cell leaves the list; the cell is the thread's own or nobody's.
theorem inv_takeOut (s : State T Obj) (t : T) (i : ℤ) (pc' : Pc Obj) (h : Inv s)
    (hi : ∀ u, u ≠ t → i ∉ owned (s.thr u)) (hin : inRange s.mem.list.m_nMaxCount i)
    (hown : owned pc' = [i]) (hused : ∀ k ∈ usedIndex pc', k = i)
    (hscan : scanBound s.mem.list.m_nMaxCount pc') :
    Inv ⟨s.mem.takeOut i, Function.update s.thr t pc'⟩ := by
  have hnone : Function.update s.mem.live i none i = none := Function.update_self ..
  refine inv_setFlag s t i 1 _ pc' h hi hin (fun k hk => Function.update_of_ne hk ..) ?_
    (fun _ _ => hnone) hused hscan (fun _ => hnone) ?_
  · intro k hk
    rw [hown] at hk
    exact ⟨List.mem_singleton.mp hk, rfl⟩
  · intro o ho
    rw [hnone] at ho
    cases ho

theorem inv_store (s : State T Obj) (t : T) (o : Obj) (i : ℤ) (h : Inv s)
    (hpc : s.thr t = .addStore o i) :
    Inv ⟨s.mem.store i o, Function.update s.thr t (.addSet i)⟩ := by
  have hmem : i ∈ owned (s.thr t) := by simp [hpc, owned]
  obtain ⟨hin, hf⟩ := (h.threads t).flag i hmem
  have hlive (k : ℤ) (hk : k ≠ i) : (s.mem.store i o).live k = s.mem.live k :=
    Function.update_of_ne hk ..
  refine inv_move s t _ _ i h (not_owned_of_owned s h t i hmem) rfl (fun _ _ => rfl) hlive ?_
    ⟨?_, ?_, ?_, trivial⟩ ⟨h.mem.pos, ?_, ?_, h.mem.hint⟩
  · intro k hk
    exact Or.inl (List.mem_singleton.mp hk)
  · intro k hk
    rw [List.mem_singleton.mp hk]
    exact hin
  · intro k hk
    rw [List.mem_singleton.mp hk]
    exact ⟨hin, hf⟩
  · intro k hk
    exact absurd hk List.not_mem_nil
  · -- the cell itself is claimed, not free
    intro k hk hk0
    have hki : k ≠ i := by
      rintro rfl
      exact absurd (hf.symm.trans hk0) (by decide)
    rw [hlive k hki]
    exact h.mem.free k hk hk0
  · intro k o' hk
    by_cases hki : k = i
    · subst hki
      have hself : (s.mem.store k o).live k = some o := Function.update_self ..
      rw [hself] at hk
      exact (Function.update_self ..).trans hk
    · rw [hlive k hki] at hk
      exact (Function.update_of_ne hki ..).trans (h.mem.kept k o' hk)

-- The end of a round of the scan that is not the last one.
theorem inv_addNext (s : State T Obj) (t : T) (o : Obj) (i : ℤ) (j : ℕ) (h : Inv s)
    (hin : inRange s.mem.list.m_nMaxCount i) (hj : j+1 < s.mem.list.m_nMaxCount) :
    Inv ⟨s.mem, Function.update s.thr t (addNext s.mem.list.m_nMaxCount o i j)⟩ := by
  rw [addNext, if_pos hj]
  obtain ⟨hl, hu⟩ := hin
  refine inv_leave s t _ h rfl rfl ⟨?_, ?_, hj⟩
  · omega
  · omega

theorem inv_popNext (s : State T Obj) (t : T) (i : ℕ) (h : Inv s) :
    Inv ⟨s.mem, Function.update s.thr t (popNext s.mem.list.m_nMaxCount i)⟩ := by
  unfold popNext
  split
  · rename_i hi
    refine inv_look s t _ _ h ⟨?_, ?_⟩ rfl rfl trivial
    · omega
    · omega
  · exact inv_leave s t _ h rfl rfl trivial

theorem inv_run (s : State T Obj) (t : T) (h : Inv s) (hg : Sound s (.run t)) :
    Inv ⟨(threadStep s.mem (s.thr t)).1, Function.update s.thr t (threadStep s.mem (s.thr t)).2⟩ := by
  have hok := h.threads t
  have hmine := not_owned_of_owned s h t
  have hnobody := not_owned_of_flag s h
  have hpos := h.mem.pos
  cases hpc : s.thr t with
  | idle ret =>
    simp only [threadStep]
    exact inv_leave s t _ h rfl rfl trivial
  | addEmpty o =>
    simp only [threadStep]
    split
    · rename_i h0
      exact inv_look s t _ _ h ⟨h0, h.mem.hint⟩ rfl rfl trivial
    · exact inv_leave s t _ h rfl rfl trivial
  | addHintFlag o i =>
    have hin := hok.used i (by simp [hpc, usedIndex])
    simp only [threadStep]
    split
    · exact inv_look s t i _ h hin rfl rfl trivial
    · exact inv_leave s t _ h rfl rfl trivial
  | addHintCas o i =>
    have hin := hok.used i (by simp [hpc, usedIndex])
    simp only [threadStep]
    split
    · rename_i hf
      exact inv_claim s t i _ h hin hf rfl (by simp [usedIndex]) trivial
    · exact inv_leave s t _ h rfl rfl trivial
  | addHintClear o i =>
    have hin := (hok.flag i (by simp [hpc, owned])).1
    refine inv_goto s t { s.mem.list with m_nEmptyFirstIdx := -1 } (.addStore o i) h rfl rfl rfl ?_
      (by simp [hpc, owned, vacant]) (by simpa [usedIndex] using hin) trivial
    show (-1:ℤ) < s.mem.list.m_nMaxCount
    omega
  | addCount o =>
    simp only [Sound, PcSound, hpc] at hg
    exact inv_leave s t _ h rfl rfl ⟨hg.1, hg.2, hpos⟩
  | addFull o i j =>
    have hscan := hok.scan
    rw [hpc] at hscan
    obtain ⟨hi0, hin, hj⟩ := hscan
    simp only [threadStep]
    split
    · exact inv_leave s t _ h rfl rfl trivial
    · refine inv_look s t _ _ h ⟨?_, ?_⟩ rfl rfl hj
      · split <;> omega
      · split <;> omega
  | addFlag o i j =>
    have hin := hok.used i (by simp [hpc, usedIndex])
    have hj : j < s.mem.list.m_nMaxCount := by simpa [hpc, scanBound] using hok.scan
    simp only [Sound, PcSound, hpc] at hg
    simp only [threadStep]
    split
    · exact inv_look s t i _ h hin rfl rfl hj
    · exact inv_addNext s t o i j h hin (by omega)
  | addCas o i j =>
    have hin := hok.used i (by simp [hpc, usedIndex])
    have hj : j < s.mem.list.m_nMaxCount := by simpa [hpc, scanBound] using hok.scan
    simp only [Sound, PcSound, hpc] at hg
    simp only [threadStep]
    split
    · rename_i hf
      exact inv_claim s t i _ h hin hf rfl (by simp [usedIndex]) trivial
    · exact inv_addNext s t o i j h hin (by omega)
  | addStore o i => exact inv_store s t o i h hpc
  | addSet i =>
    have hi : i ∈ owned (s.thr t) := by simp [hpc, owned]
    exact inv_setFlag s t i 2 s.mem.live (.addInc i) h (hmine i hi) (hok.flag i hi).1
      (fun _ _ => rfl) (by simp [owned]) (by simp [owned, vacant]) (by simp [usedIndex]) trivial
      (by simp) (fun _ ho => ho)
  | addInc i =>
    exact inv_goto s t _ _ h rfl rfl rfl h.mem.hint (by simp [threadStep, owned])
      (by simp [threadStep, usedIndex]) trivial
  | popFlag i =>
    have hin := hok.used i (by simp [hpc, usedIndex])
    simp only [threadStep]
    split
    · exact inv_look s t i _ h hin rfl rfl trivial
    · exact inv_popNext s t i h
  | popCas i =>
    have hin := hok.used i (by simp [hpc, usedIndex])
    simp only [threadStep]
    split
    · rename_i hf
      exact inv_takeOut s t i _ h (fun u _ => hnobody i (by omega) u) hin rfl (by simp [usedIndex])
        trivial
    · exact inv_popNext s t i h
  | popRead i =>
    have hin := hok.used i (by simp [hpc, usedIndex])
    exact inv_read s t (.delSet _ i) h (by simp [hpc, owned, vacant])
      (by simpa [usedIndex] using hin) trivial
  | delSet ret i =>
    have hin := hok.used i (by simp [hpc, usedIndex])
    refine inv_takeOut s t i (.delEmpty ret i) h ?_ hin rfl (by simp [usedIndex]) trivial
    cases ret with
    | added k => exact hmine i (by simp [hpc, owned])
    | popped o => exact hmine i (by simp [hpc, owned])
    | deleted =>
      simp only [Sound, PcSound, hpc] at hg
      exact fun u _ => hnobody i (by omega) u
  | delEmpty ret i =>
    simp only [threadStep]
    split
    · exact inv_read s t _ h (by simp [hpc, owned, vacant]) (by simp [usedIndex]) trivial
    · exact inv_read s t _ h (by simp [hpc, owned, vacant]) (by simp [usedIndex]) trivial
  | delLess ret i =>
    simp only [threadStep]
    split
    · exact inv_read s t _ h (by simp [hpc, owned, vacant]) (by simp [usedIndex]) trivial
    · exact inv_read s t _ h (by simp [hpc, owned, vacant]) (by simp [usedIndex]) trivial
  | delHint ret i =>
    have hin := (hok.flag i (by simp [hpc, owned])).1
    exact inv_goto s t { s.mem.list with m_nEmptyFirstIdx := i } (.delDec ret i) h rfl rfl rfl hin.2
      (by simp [hpc, owned, vacant]) (by simp [usedIndex]) trivial
  | delDec ret i =>
    have hin := (hok.flag i (by simp [hpc, owned])).1
    exact inv_goto s t _ (.delClear ret i) h rfl rfl rfl h.mem.hint (by simp [hpc, owned, vacant])
      (by simpa [usedIndex] using hin) trivial
  | delClear ret i =>
    have hi : i ∈ owned (s.thr t) := by simp [hpc, owned]
    have hlive : s.mem.live i = none := hok.empty i (by simp [hpc, vacant, owned])
    exact inv_setFlag s t i 0 s.mem.live (.idle (some ret)) h (hmine i hi) (hok.flag i hi).1
      (fun _ _ => rfl) (by simp [owned]) (fun _ _ => hlive) (by simp [usedIndex]) trivial
      (fun _ => hlive) (fun _ ho => ho)

theorem inv_step (s : State T Obj) (a : Act T Obj) (s' : State T Obj) (h : Inv s) (hg : Sound s a)
    (hs : step s a = some s') : Inv s' := by
  cases a with
  | callAdd t o =>
    obtain ⟨_, hs⟩ := Option.ite_none_right_eq_some.mp hs
    cases hs
    exact inv_leave s t _ h rfl rfl trivial
  | callPop t =>
    obtain ⟨_, hs⟩ := Option.ite_none_right_eq_some.mp hs
    cases hs
    have hpos := h.mem.pos
    refine inv_look s t _ _ h ⟨?_, ?_⟩ rfl rfl trivial
    · omega
    · omega
  | callDel t i =>
    obtain ⟨⟨_, hin, _⟩, hs⟩ := Option.ite_none_right_eq_some.mp hs
    cases hs
    exact inv_look s t i _ h hin rfl rfl trivial
  | run t =>
    obtain ⟨_, hs⟩ := Option.ite_none_right_eq_some.mp hs
    cases hs
    exact inv_run s t h hg

omit [DecidableEq T] in
theorem inv_start (l : CMemList Obj) (hl : 1 ≤ l.m_nMaxCount) : Inv (start l : State T Obj) := by
  refine ⟨exclusive_empty, ?_, ⟨hl, fun _ _ _ => rfl, ?_, ?_⟩⟩
  · intro t
    exact ⟨by simp [start, usedIndex], by simp [start, owned], by simp [start, owned, vacant], trivial⟩
  · intro i o ho
    cases ho
  · show (0:ℤ) < l.m_nMaxCount
    omega

omit [DecidableEq T] in
theorem safe_of_inv (s : State T Obj) (h : Inv s) : Safe s := by
  refine ⟨fun t => (h.threads t).used, ?_, h.mem.kept⟩
  intro t o i hpc
  exact (h.threads t).empty i (by simp [hpc, vacant, owned])

/-- In every interleaving in which each step is sound, `add` stores inside the list and never over
a live object. -/
theorem add_pop_del_safe (l : CMemList Obj) (hl : 1 ≤ l.m_nMaxCount) (acts : List (Act T Obj))
    (s : State T Obj) (hg : Runs.Along step Sound (start l) acts)
    (hr : Runs.runFrom step (start l) acts = some s) : Safe s :=
  safe_of_inv s
    (Runs.runFrom_guarded_invariant step Sound Inv inv_step _ s acts (inv_start l hl) hg hr)

-- two threads add at once, and the one that loses the first cell takes the second while a pop empties the
-- first; then `del(int)` and the end of that pop interleave
def addRace : List (Act (Fin 3) ℕ) :=
  .callAdd 0 10 :: .callAdd 1 20 :: (List.replicate 8 [.run 0, .run 1]).flatten ++
    .callPop 2 :: (List.replicate 4 [.run 1, .run 2]).flatten ++
    .callDel 0 1 :: (List.replicate 6 [.run 0, .run 2]).flatten

def emptyList (n : ℕ) : CMemList ℕ := ⟨fun _ => none, fun _ => 0, 0, 0, n⟩

theorem add_pop_del_safe_addRace :
    ∃ s, Runs.runFrom step (start (emptyList 3)) addRace = some s ∧ Safe s := by
  have hsome : (Runs.runFrom step (start (emptyList 3)) addRace).isSome := by decide +kernel
  have hsound : Runs.Along step Sound (start (emptyList 3)) addRace := by decide +kernel
  obtain ⟨s, hs⟩ := Option.isSome_iff_exists.mp hsome
  exact ⟨s, hs, add_pop_del_safe (emptyList 3) (by decide) addRace s hsound hs⟩

-- a list of one cell: thread 1 has lowered the count in `_del` but not yet cleared the flag, so
-- the scan of thread 2 goes once around and falls through
def fullScan : List (Act (Fin 3) ℕ) :=
  .callAdd 0 10 :: List.replicate 7 (.run 0) ++ .callPop 1 :: List.replicate 7 (.run 1) ++
    .callAdd 2 30 :: List.replicate 5 (.run 2)

/-- Thread 2 is about to store at index 1 of a list with one cell. -/
theorem not_safe_fullScan : ¬∀ s : State (Fin 3) ℕ,
    Runs.runFrom step (start (emptyList 1)) fullScan = some s → Safe s := by
  intro h
  have hrun : (Runs.runFrom step (start (emptyList 1)) fullScan).map
      (fun s => (s.thr 2, s.mem.list.m_nMaxCount)) = some (.addStore 30 1, 1) := by decide
  obtain ⟨s, hs, he⟩ := Option.map_eq_some_iff.mp hrun
  obtain ⟨hpc, hmax⟩ := Prod.mk.inj he
  have hin := (h s hs).used_inRange 2 1 (by simp [hpc, usedIndex])
  rw [hmax] at hin
  exact absurd hin (by decide)

end Leviathan.MemListThreads
