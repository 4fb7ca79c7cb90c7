import Leviathan.Queue

/-! When `CQueueS` is a first-in first-out queue.  `alloc` makes the first ring but does not
enter it in `m_pQueueList`, the only place where `pop` looks, so what the first ring holds is
never popped. -/
namespace Leviathan.CQueueS

variable {α : Type}

/-- A queue that is only pushed to: the list is dense and no ring in it holds `x`. -/
structure PushState (x : α) (q : CQueueS α) : Prop where
  realloc : q.m_nRealloc = 0
  cur : ∃ a r, q.m_pQueue = some a ∧ a < q.next ∧ q.rings a = some r
  list : ∃ l k, q.m_pQueueList = some l ∧ CSList.Dense l k ∧
    ∀ i a, l.slot i = some a → a < q.next ∧ ∃ r, q.rings a = some r ∧ some x ∉ r.pList

/-- The newest ring of a queue takes one more element. -/
def write (q : CQueueS α) (a : ℕ) (r : STCOMQueue α) (y : α) : CQueueS α :=
  { q with rings := Function.update q.rings a (some (r.push y)) }

theorem pushState_write (x y : α) (q : CQueueS α) (a : ℕ) (r : STCOMQueue α)
    (h : PushState x q) (hne : y ≠ x) (hq : q.m_pQueue = some a) (hr : q.rings a = some r) :
    PushState x (q.write a r y) := by
  obtain ⟨b, _, hb, hlt, _⟩ := h.cur
  have hab : b = a := Option.some.inj (hb.symm.trans hq)
  obtain ⟨l, k, hl, hd, hin⟩ := h.list
  refine ⟨h.realloc, ⟨a, r.push y, hq, hab ▸ hlt, by simp [write]⟩, l, k, hl, hd, ?_⟩
  intro i c hc
  obtain ⟨hclt, rc, hrc, hx⟩ := hin i c hc
  refine ⟨hclt, ?_⟩
  by_cases hca : c = a
  · subst hca
    refine ⟨r.push y, by simp [write], fun hm => ?_⟩
    rcases r.mem_push x y hm with hm | hm
    · exact hx (Option.some.inj (hrc.symm.trans hr) ▸ hm)
    · exact hne hm.symm
  · exact ⟨rc, by simp [write, hca, hrc], hx⟩

-- Growing keeps the list dense; the ring it adds is empty.
theorem pushState_grow (x : α) (q : CQueueS α) (cap : ℕ) (h : PushState x q) :
    ∃ q', q.grow cap = .ok q' ∧ PushState x q' := by
  obtain ⟨l, k, hl, hd, hin⟩ := h.list
  obtain ⟨l', hp, hd', hs, -⟩ := CSList.pushBackInt_dense l k q.next hd
  let fresh : STCOMQueue α :=
    { (STCOMQueue.init : STCOMQueue α) with pList := List.replicate (cap*2) none, nMax := cap*2 }
  let q' : CQueueS α := { q with
    m_nRealloc := 0
    rings := Function.update q.rings q.next (some fresh)
    next := q.next+1
    m_pQueue := some q.next
    m_pQueueList := some l' }
  have hfresh : q'.rings q.next = some fresh := by simp [q']
  refine ⟨q', ?_, rfl, ⟨q.next, fresh, rfl, Nat.lt_succ_self _, hfresh⟩, l', k+1, rfl, hd', ?_⟩
  · simp only [grow, h.realloc, ne_eq, not_true_eq_false, if_false, _realloc, hl, hp]
    rfl
  · intro i a ha
    rw [hs] at ha
    by_cases hi : i = k
    · rw [if_pos hi] at ha
      cases ha
      refine ⟨Nat.lt_succ_self _, fresh, hfresh, ?_⟩
      simp [fresh]
    · rw [if_neg hi] at ha
      obtain ⟨hlt, r, hr, hx⟩ := hin i a ha
      refine ⟨Nat.lt_succ_of_lt hlt, r, ?_, hx⟩
      simp only [q', Function.update_of_ne (Nat.ne_of_lt hlt), hr]

theorem push_not_full (q : CQueueS α) (a : ℕ) (r : STCOMQueue α) (y : α)
    (h0 : q.m_nRealloc = 0) (hq : q.m_pQueue = some a) (hr : q.rings a = some r)
    (hf : r.isFull = false) : q.push y = .ok (q.write a r y, true) := by
  simp [push, deref, h0, hq, hr, hf, write, bind, Except.bind, pure, Except.pure]

theorem push_full (q q' : CQueueS α) (a b : ℕ) (r r' : STCOMQueue α) (y : α)
    (h0 : q.m_nRealloc = 0) (hq : q.m_pQueue = some a) (hr : q.rings a = some r)
    (hf : r.isFull = true) (hg : q.grow r.capacity = .ok q')
    (hq' : q'.m_pQueue = some b) (hr' : q'.rings b = some r') :
    q.push y = .ok (q'.write b r' y, true) := by
  simp [push, deref, h0, hq, hr, hf, hg, hq', hr', write, bind, Except.bind, pure, Except.pure]

-- One push of another element.
theorem pushState_push (x y : α) (q : CQueueS α) (h : PushState x q) (hne : y ≠ x) :
    ∃ q', q.push y = .ok (q', true) ∧ PushState x q' := by
  obtain ⟨a, r, hq, _, hr⟩ := h.cur
  cases hf : r.isFull with
  | false =>
    exact ⟨_, push_not_full q a r y h.realloc hq hr hf, pushState_write x y q a r h hne hq hr⟩
  | true =>
    obtain ⟨q', hg, h'⟩ := pushState_grow x q r.capacity h
    obtain ⟨b, r', hq', _, hr'⟩ := h'.cur
    exact ⟨_, push_full q q' a b r r' y h.realloc hq hr hf hg hq' hr',
      pushState_write x y q' b r' h' hne hq' hr'⟩

-- Any number of pushes of other elements, followed by anything.
theorem runOps_pushes (x : α) (q : CQueueS α) (ps rest : List (Fifo.Op α)) (h : PushState x q)
    (hp : Fifo.Op.pop ∉ ps) (hne : ∀ y, Fifo.Op.push y ∈ ps → y ≠ x) :
    ∃ q', PushState x q' ∧ q.runOps (ps ++ rest) =
      (q'.runOps rest).map (fun rs => ps.map (fun _ => Fifo.Res.pushed true) ++ rs) := by
  induction ps generalizing q with
  | nil =>
    refine ⟨q, h, ?_⟩
    rw [List.nil_append]
    cases q.runOps rest <;> rfl
  | cons o ps ih =>
    cases o with
    | pop => simp at hp
    | push y =>
      obtain ⟨q₁, hq₁, h₁⟩ := pushState_push x y q h (hne y (by simp))
      obtain ⟨q', h', hr⟩ := ih q₁ h₁ (fun hm => hp (List.mem_cons_of_mem _ hm))
        (fun z hz => hne z (List.mem_cons_of_mem _ hz))
      refine ⟨q', h', ?_⟩
      rw [List.cons_append, runOps]
      simp only [hq₁, hr, bind, Except.bind, pure, Except.pure]
      cases q'.runOps rest <;> rfl

-- The answer to a pop is never an element that the rings of the list do not hold.
theorem pop_ne (x : α) (q q' : CQueueS α) (r : Option α) (h : PushState x q)
    (hp : q.pop = .ok (q', r)) : r ≠ some x := by
  obtain ⟨l, k, hl, _, hin⟩ := h.list
  simp only [pop, hl] at hp
  cases hg : l.getNext 0 with
  | mk nIdx p =>
    cases p with
    | none =>
      simp only [hg, Except.ok.injEq, Prod.mk.injEq] at hp
      rw [← hp.2]
      simp
    | some a =>
      have hs := l.getNext_some 0 a (by rw [hg])
      obtain ⟨_, ring, hring, hx⟩ := hin _ a hs
      simp only [hg, deref, hring, bind, Except.bind, pure, Except.pure] at hp
      cases hfr : ring.front with
      | some z =>
        simp only [hfr, Except.ok.injEq, Prod.mk.injEq] at hp
        rw [← hp.2]
        intro he
        exact hx (Option.some.inj he ▸ ring.mem_of_front z hfr)
      | none =>
        -- an empty ring answers NULL, whether or not it is deleted
        simp only [hfr] at hp
        have hnone : r = none := by
          split at hp
          · split at hp <;> cases hp <;> rfl
          · cases hp
            rfl
        rw [hnone]
        simp

section Fresh

variable (n : ℕ)

/-- The queue after `alloc(n)` of a new object. -/
def allocated : CQueueS α := init.alloc n .none

theorem allocated_list :
    (allocated n : CQueueS α).m_pQueueList = some (CSList.init.alloc 12 .new true) := rfl

theorem allocated_slot (i : ℕ) : ((CSList.init : CSList ℕ).alloc 12 .new true).slot i = none :=
  (CSList.dense_alloc 12 .new).free i (Nat.zero_le i)

-- A pop before any push finds no ring and changes nothing.
theorem allocated_pop : (allocated n : CQueueS α).pop = .ok (allocated n, none) := by
  have hg := CSList.getNext_empty _ allocated_slot 0
  rw [pop, allocated_list]
  dsimp only
  cases hp : CSList.getNext (CSList.init.alloc 12 EAllocType.new true) 0 with
  | mk nIdx p =>
    rw [hp] at hg
    cases hg
    rfl

-- The first element goes to the ring that is not in the list.
theorem allocated_push (x : α) (hn : 1 ≤ n) :
    ∃ q, (allocated n).push x = .ok (q, true) ∧ PushState x q := by
  let r : STCOMQueue α :=
    { (STCOMQueue.init : STCOMQueue α) with pList := List.replicate n none, nMax := n }
  have hr : (allocated n : CQueueS α).rings 0 = some r := by
    simp [allocated, alloc, _realloc, init, r]
  have hf : r.isFull = false := by
    have hne : ¬n = 0 := by omega
    simp [r, STCOMQueue.isFull, STCOMQueue.init, hne]
  refine ⟨_, push_not_full (allocated n) 0 r x rfl rfl hr hf, rfl, ?_, ?_⟩
  · exact ⟨0, r.push x, rfl, Nat.zero_lt_one, by simp [write]⟩
  · refine ⟨_, 0, allocated_list n, CSList.dense_alloc 12 .new, ?_⟩
    intro i a ha
    rw [allocated_slot] at ha
    cases ha

/-- What the class is for: the answers are those of a first-in first-out queue. -/
def IsFifo (ops : List (Fifo.Op α)) : Prop :=
  (allocated n).runOps (Fifo.number 0 ops) = .ok (Fifo.results [] (Fifo.number 0 ops))

-- After a first push, more pushes are answered as a queue answers them, and the first pop
-- is not.
theorem runOps_allocated_push (x : α) (ops : List (Fifo.Op α)) (hn : 1 ≤ n)
    (hne : ∀ y, Fifo.Op.push y ∈ ops → y ≠ x) :
    (allocated n).runOps (.push x :: ops) = .ok (Fifo.results [] (.push x :: ops)) ↔
      Fifo.Op.pop ∉ ops := by
  obtain ⟨q, hq, hs⟩ := allocated_push n x hn
  have hrun (rs : List (Fifo.Res α)) (h : q.runOps ops = .ok rs) :
      (allocated n).runOps (.push x :: ops) = .ok (.pushed true :: rs) := by
    simp only [runOps, hq, h, bind, Except.bind, pure, Except.pure]
  constructor
  · intro h hpop
    obtain ⟨ps, rest, he, hps⟩ := Fifo.split_first_pop ops hpop
    obtain ⟨q', hs', hr⟩ := runOps_pushes x q ps (.pop :: rest) hs hps
      (fun y hy => hne y (he ▸ List.mem_append_left _ hy))
    obtain ⟨w, hw⟩ := Fifo.results_pushes_pop x [] ps rest hps
    rw [← he] at hr hw
    simp only [runOps, hq, hr, bind, Except.bind, pure, Except.pure] at h
    -- the two answers to the pop at the end of the pushes must agree, and they do not
    cases hp : q'.pop with
    | error e =>
      simp only [hp, Except.map] at h
      cases h
    | ok res =>
      obtain ⟨q₂, r⟩ := res
      simp only [hp] at h
      cases ht : q₂.runOps rest with
      | error e =>
        simp only [ht, Except.map] at h
        cases h
      | ok rs =>
        simp only [ht, Except.map, Fifo.results, List.nil_append, hw, Except.ok.injEq,
          List.cons.injEq, true_and, List.append_cancel_left_eq, Fifo.Res.popped.injEq] at h
        exact pop_ne x q' q₂ r hs' hp h.1
  · intro hpop
    obtain ⟨q', _, hr⟩ := runOps_pushes x q ops [] hs hpop hne
    rw [List.append_nil] at hr
    have hok : q.runOps ops = .ok (ops.map (fun _ => Fifo.Res.pushed true)) := by
      simpa [runOps, Except.map] using hr
    rw [hrun _ hok, Fifo.results, Fifo.results_pushes _ _ hpop]

/-- `CQueueS` answers a sequence of pushes and pops as a first-in first-out queue exactly when
the sequence has no pop after a push. -/
theorem isFifo_iff_no_pop_after_push (ops : List (Fifo.Op α)) (hn : 1 ≤ n) :
    IsFifo n ops ↔ Fifo.NoPopAfterPush ops := by
  unfold IsFifo
  induction ops with
  | nil => simp [Fifo.number, Fifo.results, Fifo.NoPopAfterPush, runOps]
  | cons o ops ih =>
    cases o with
    | pop =>
      rw [Fifo.NoPopAfterPush, ← ih, Fifo.number, Fifo.results, runOps, allocated_pop]
      simp only [bind, Except.bind, pure, Except.pure]
      cases (allocated n).runOps (Fifo.number 0 ops) <;> simp
    | push p =>
      rw [Fifo.NoPopAfterPush, Fifo.number, runOps_allocated_push n (p, 0) _ hn,
        Fifo.pop_mem_number]
      intro y hy he
      have hge := Fifo.number_ge 1 ops y hy
      rw [he] at hge
      simp at hge

end Fresh

theorem isFifo_iff_two_pushes : 1 ≤ 2 ∧
    (IsFifo 2 [.pop, .push 'a', .push 'b'] ↔
      Fifo.NoPopAfterPush [.pop, .push 'a', .push 'b']) :=
  ⟨by decide, isFifo_iff_no_pop_after_push 2 _ (by decide)⟩

/-- One push and one pop on a new queue: the pop answers NULL. -/
theorem not_isFifo_push_pop : ¬IsFifo 4 [.push 'a', .pop] := by
  intro h
  cases h

end Leviathan.CQueueS
