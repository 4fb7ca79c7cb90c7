import Leviathan.MemPool
import Leviathan.Scheduler

/-! `CCoreList::putTimer` (comCore.cpp), cancellation and the rounds of the scheduler: the pool of timer
records and the time list side by side. -/
namespace Leviathan.TimerPool

open CScheduler

/-- The address of a timer record: an element of the pool's chunk, or a block of the C heap. -/
inductive Rec
  | chunk (i : ℕ)
  | heap (n : ℕ)
  deriving DecidableEq

inductive EErrorCore
  | none
  | newTime
  | putTime
  | schedulerIdx
  deriving DecidableEq

/-- One scheduler, at index `nIdx` of `m_pSchedulerList`, and the pool of records.  `calloced` are the
heap records in use and `nCalloc` their number so far; `distance` is how far from the chunk they lie. -/
structure State (Obj Fn : Type) where
  pScheduler : CScheduler Rec
  nIdx : ℤ
  info : Rec → STIntervalInfo Obj Fn
  m_pIntervalPool : CMemPool
  calloced : ℕ → Bool
  nCalloc : ℕ
  distance : ℕ → ℤ

section Model

variable {Obj Fn : Type} (s : State Obj Fn)

/-- `newTime`; `calloc` is whether a `calloc` in `__unit_alloc` succeeds. -/
def newTime (calloc : Bool) : State Obj Fn × Option Rec :=
  match s.m_pIntervalPool.newMem with
  | (pool, some i) => ({ s with m_pIntervalPool := pool }, some (.chunk i))
  | (pool, none) =>
    if calloc then
      ({ s with
          m_pIntervalPool := pool
          calloced := Function.update s.calloced s.nCalloc true
          nCalloc := s.nCalloc+1 }, some (.heap s.nCalloc))
    else ({ s with m_pIntervalPool := pool }, none)

def delTime (p : Rec) : State Obj Fn :=
  match p with
  | .chunk i => { s with m_pIntervalPool := (s.m_pIntervalPool.delMem i).1 }
  | .heap n =>
    let r := s.m_pIntervalPool.delMem (s.distance n)
    { s with
      m_pIntervalPool := r.1
      calloced := if r.2 then s.calloced else Function.update s.calloced n false }

/-- The fields that `putTimer` sets, and the list after `addTime`.  The callback's object is not
stored. -/
def setTimer (p : Rec) (nInterval : ℕ) (fp : Fn) (nThreadIdx : ℤ) (list : CMemList Rec) :
    State Obj Fn :=
  { s with
    info := Function.update s.info p { s.info p with
      nInterval := nInterval, pObj := none, pFunction := fp, nFlag := 1, nGoal := 0,
      nThreadIdx := nThreadIdx }
    pScheduler := { s.pScheduler with m_pTimeList := list } }

/-- `putTimer`: the state, the error, and the record it got from the pool. -/
def putTimer (nInterval : ℕ) (fp : Fn) (nThreadIdx : ℤ) (calloc : Bool) :
    Except Fault (State Obj Fn × EErrorCore × Option Rec) :=
  let nThreadIdx := if nThreadIdx < 0 then 0 else nThreadIdx
  if nThreadIdx ≠ s.nIdx then .ok (s, .schedulerIdx, none)
  else
    match newTime s calloc with
    | (s, none) => .ok (s, .newTime, none)
    | (s, some p) => do
      let (list, nAddIdx) ← s.pScheduler.m_pTimeList.add p
      let s := setTimer s p nInterval fp nThreadIdx list
      if nAddIdx = 0 then return (delTime s p, .putTime, some p) else return (s, .none, some p)

/-- `popTimer`. -/
def popTimer (p : Rec) : State Obj Fn :=
  { s with info := Function.update s.info p { s.info p with nFlag := 0 } }

/-- Callbacks that cancel timers: that of record `p` those of `cancels p`. -/
def cancelling (cancels : Rec → List Rec) : Callback Rec Obj Fn := fun p info r =>
  if r ∈ cancels p then { info r with nFlag := 0 } else info r

/-- A round of `schedulerLoop`. -/
def timerRound (cancels : Rec → List Rec) : State Obj Fn :=
  let r := s.pScheduler.round (cancelling cancels) s.info
  { s with pScheduler := r.1.setGoal, info := r.2 }

inductive Event (Obj Fn : Type)
  | putTimer (pObj : Option Obj) (nInterval : ℕ) (fp : Fn) (nThreadIdx : ℤ) (calloc : Bool)
  | popTimer (p : Rec)
  | round (cancels : Rec → List Rec)

def step : Event Obj Fn → Option (State Obj Fn)
  | .putTimer _ nInterval fp nThreadIdx calloc =>
    (putTimer s nInterval fp nThreadIdx calloc).toOption.map Prod.fst
  | .popTimer p => some (popTimer s p)
  | .round cancels => some (timerRound s cancels)

end Model

section Property

variable {Obj Fn : Type} (s : State Obj Fn)

/-- The record has been taken from the pool and not been given back. -/
def InUse : Rec → Prop
  | .chunk i => i < s.m_pIntervalPool.m_nAllocCount ∧ s.m_pIntervalPool.m_nFlagArray i = true
  | .heap n => s.calloced n = true

def Listed (p : Rec) : Prop := s.pScheduler.m_pTimeList.Listed p

/-- The records in use are the records of the time list. -/
def Conserved : Prop := ∀ p, InUse s p ↔ Listed s p

/-- What a call of `putTimer` has to do. -/
structure PutFaithful (pObj : Option Obj) (nInterval : ℕ) (fp : Fn) (s' : State Obj Fn)
    (err : EErrorCore) (got : Option Rec) : Prop where
  conserved : Conserved s'
  none_iff : err = .none ↔ ∃ p, got = some p ∧ Listed s' p
  carries : ∀ p, got = some p → Listed s' p →
    (s'.info p).nInterval = nInterval ∧ (s'.info p).pObj = pObj ∧ (s'.info p).pFunction = fp
  error : err ≠ .none → ∀ p, got = some p → ¬InUse s' p ∧ ¬Listed s' p

/-- The event keeps list and pool together, and answers the truth. -/
def Faithful : Event Obj Fn → Prop
  | .putTimer pObj nInterval fp nThreadIdx calloc => ∃ s' err got,
    putTimer s nInterval fp nThreadIdx calloc = .ok (s', err, got) ∧
      PutFaithful pObj nInterval fp s' err got
  | .popTimer p => Conserved (popTimer s p)
  | .round cancels => Conserved (timerRound s cancels)

/-- A record can be had: from the pool, or from the heap. -/
def HasRecord (calloc : Bool) : Prop :=
  calloc = true ∨ ∃ i < s.m_pIntervalPool.m_nAllocCount, s.m_pIntervalPool.m_nFlagArray i = false

/-- A timer that gets a record goes behind slot 0 of a list that is not full and has no object; and no
timer of the list is cancelled when a round comes to it. -/
def Allowed : Event Obj Fn → Prop
  | .putTimer pObj _ _ nThreadIdx calloc => (if nThreadIdx < 0 then 0 else nThreadIdx) = s.nIdx →
    HasRecord s calloc → pObj = none ∧ 0 < s.pScheduler.m_pTimeList.m_nCurCount ∧
      s.pScheduler.m_pTimeList.m_nCurCount < s.pScheduler.m_pTimeList.m_nMaxCount
  | .popTimer _ => True
  | .round cancels => ∀ i p, s.pScheduler.m_pTimeList.HoldsAt i p → (s.info p).nFlag ≠ 0 ∧
    ∀ j q, j < i → s.pScheduler.m_pTimeList.HoldsAt j q → p ∉ cancels q

end Property

/-- The pool counts its elements in use. -/
structure PoolOk (p : CMemPool) : Prop where
  size : p.m_nAllocCount < 2^31
  last : p.m_nLastCount ≤ p.m_nAllocCount
  count : p.m_nUseCnt = ((Finset.range p.m_nAllocCount).filter (fun i => p.m_nFlagArray i = true)).card

section Pool

variable (p : CMemPool)

theorem poolOk_alloc (n : ℕ) (hn : n < 2^31) : PoolOk (CMemPool.alloc n) := by
  refine ⟨hn, Nat.zero_le _, ?_⟩
  simp [CMemPool.alloc]

theorem poolOk_claim (i : ℕ) (h : PoolOk p) (hi : i < p.m_nAllocCount)
    (hfree : p.m_nFlagArray i = false) : PoolOk (p.claim i) := by
  refine ⟨h.size, hi.le, ?_⟩
  have hset : (Finset.range p.m_nAllocCount).filter (fun j => (p.claim i).m_nFlagArray j = true) =
      insert i ((Finset.range p.m_nAllocCount).filter (fun j => p.m_nFlagArray j = true)) := by
    ext j
    have hflag : (p.claim i).m_nFlagArray j = if j = i then true else p.m_nFlagArray j :=
      Function.update_apply _ _ _ _
    rw [Finset.mem_insert, Finset.mem_filter, Finset.mem_filter, Finset.mem_range, hflag]
    by_cases hj : j = i
    · simp [hj, hi]
    · simp [hj]
  have hnew : i ∉ (Finset.range p.m_nAllocCount).filter (fun j => p.m_nFlagArray j = true) := by
    rw [Finset.mem_filter, hfree]
    exact fun hmem => Bool.false_ne_true hmem.2
  have hle : ((Finset.range p.m_nAllocCount).filter (fun j => p.m_nFlagArray j = true)).card+1 ≤
      p.m_nAllocCount := by
    rw [← Finset.card_insert_of_notMem hnew, ← hset]
    exact (Finset.card_filter_le _ _).trans (Finset.card_range _).le
  have hsize := h.size
  show i32 (p.m_nUseCnt+1) = _
  rw [show (p.claim i).m_nAllocCount = p.m_nAllocCount from rfl, hset,
    Finset.card_insert_of_notMem hnew, h.count, i32_of_range _ (by omega) (by omega)]
  push_cast
  rfl

theorem newMem_spec (h : PoolOk p) :
    (∃ i, p.newMem = (p.claim i, some i) ∧ i < p.m_nAllocCount ∧ p.m_nFlagArray i = false) ∨
    (p.newMem = (p, none) ∧ ∀ i < p.m_nAllocCount, p.m_nFlagArray i = true) := by
  unfold CMemPool.newMem
  by_cases hfull : p.m_nUseCnt = p.m_nAllocCount
  · rw [if_pos hfull]
    refine Or.inr ⟨rfl, ?_⟩
    have hcard : ((Finset.range p.m_nAllocCount).filter (fun i => p.m_nFlagArray i = true)).card =
        (Finset.range p.m_nAllocCount).card := by
      rw [Finset.card_range]
      exact_mod_cast h.count.symm.trans hfull
    intro i hi
    exact Finset.card_filter_eq_iff.mp hcard i (Finset.mem_range.mpr hi)
  · rw [if_neg hfull]
    cases hscan : p.scan with
    | none =>
      refine Or.inr ⟨rfl, ?_⟩
      intro i hi
      simpa using scanFrom_full_turn _ _ _ h.last hscan i hi
    | some i =>
      have hpos : 0 < p.m_nAllocCount := by
        by_contra hzero
        rw [CMemPool.scan, show p.m_nAllocCount = 0 by omega] at hscan
        cases hscan
      obtain ⟨hi, hfree⟩ := scanFrom_free _ _ hpos _ _ i h.last hscan
      exact Or.inl ⟨i, rfl, hi, by simpa using hfree⟩

end Pool

/-- The list holds the records `xs`, and they are the records in use. -/
structure Ready {Obj Fn : Type} (s : State Obj Fn) (xs : List Rec) : Prop where
  filled : s.pScheduler.m_pTimeList.Filled xs
  nodup : xs.Nodup
  used : ∀ p, InUse s p ↔ p ∈ xs
  pool : PoolOk s.m_pIntervalPool
  fresh : ∀ n, s.calloced n = true → n < s.nCalloc

/-- An empty cleared list of `n` slots beside a pool of `m` records. -/
def fresh (n m : ℕ) (nMilliSecWait : ℤ) (start : ℕ) (distance : ℕ → ℤ) (fp : ℕ) : State ℕ ℕ where
  pScheduler := init (CMemList.clear ⟨fun _ => none, fun _ => 0, 0, 0, n⟩) nMilliSecWait start
  nIdx := 0
  info := fun _ => ⟨0, 0, 0, 0, 0, none, fp⟩
  m_pIntervalPool := CMemPool.alloc m
  calloced := fun _ => false
  nCalloc := 0
  distance := distance

theorem ready_fresh (n m : ℕ) (nMilliSecWait : ℤ) (start : ℕ) (distance : ℕ → ℤ) (fp : ℕ)
    (hn : 0 < n ∧ n < 2^31) (hm : m < 2^31) : Ready (fresh n m nMilliSecWait start distance fp) [] := by
  refine ⟨CMemList.filled_clear _ hn, List.nodup_nil, ?_, poolOk_alloc m hm, ?_⟩
  · intro p
    cases p <;> simp [InUse, fresh, CMemPool.alloc]
  · intro n hn
    cases hn

section Put

variable {Obj Fn : Type} (s : State Obj Fn) (xs : List Rec)

theorem Ready.conserved (h : Ready s xs) : Conserved s := by
  intro p
  rw [h.used, Listed, CMemList.listed_filled _ xs h.filled]

theorem newTime_some (h : Ready s xs) (calloc : Bool) (hrec : HasRecord s calloc) :
    ∃ s₁ p, newTime s calloc = (s₁, some p) ∧ p ∉ xs ∧ s₁.pScheduler = s.pScheduler ∧ s₁.nIdx = s.nIdx ∧
      s₁.info = s.info ∧ (∀ r, InUse s₁ r ↔ r ∈ xs ++ [p]) ∧ PoolOk s₁.m_pIntervalPool ∧
      ∀ n, s₁.calloced n = true → n < s₁.nCalloc := by
  unfold newTime
  rcases newMem_spec _ h.pool with ⟨i, hnew, hi, hfree⟩ | ⟨hnew, hfull⟩
  · have hout : Rec.chunk i ∉ xs := by
      intro hmem
      have hused := ((h.used _).mpr hmem).2
      rw [hfree] at hused
      cases hused
    rw [hnew]
    refine ⟨_, _, rfl, hout, rfl, rfl, rfl, ?_, poolOk_claim _ i h.pool hi hfree, h.fresh⟩
    intro r
    rw [List.mem_append, ← h.used, List.mem_singleton]
    cases r with
    | chunk j =>
      by_cases hj : j = i
      · simp [InUse, CMemPool.claim, hj, hi]
      · simp [InUse, CMemPool.claim, hj]
    | heap n => simp [InUse]
  · have hcalloc : calloc = true := by
      rcases hrec with hc | ⟨i, hi, hfree⟩
      · exact hc
      · rw [hfull i hi] at hfree
        cases hfree
    have hout : Rec.heap s.nCalloc ∉ xs := by
      intro hmem
      exact lt_irrefl _ (h.fresh _ ((h.used _).mpr hmem))
    rw [hnew]
    dsimp only
    rw [if_pos hcalloc]
    refine ⟨_, _, rfl, hout, rfl, rfl, rfl, ?_, h.pool, ?_⟩
    · intro r
      rw [List.mem_append, ← h.used, List.mem_singleton]
      cases r with
      | chunk j => simp [InUse]
      | heap n =>
        by_cases hn : n = s.nCalloc
        · simp [InUse, hn]
        · simp [InUse, hn]
    · intro n hn
      dsimp only at hn ⊢
      by_cases heq : n = s.nCalloc
      · omega
      · rw [Function.update_of_ne heq] at hn
        have hlt := h.fresh n hn
        omega

theorem newTime_none (h : Ready s xs) (calloc : Bool) (hrec : ¬HasRecord s calloc) :
    newTime s calloc = (s, none) := by
  unfold newTime
  rcases newMem_spec _ h.pool with ⟨i, -, hi, hfree⟩ | ⟨hnew, -⟩
  · exact absurd (Or.inr ⟨i, hi, hfree⟩) hrec
  · rw [hnew]
    dsimp only
    rw [if_neg (fun hc => hrec (Or.inl hc))]

variable (pObj : Option Obj) (nInterval : ℕ) (fp : Fn) (nThreadIdx : ℤ) (calloc : Bool)

theorem putTimer_eq (s₁ : State Obj Fn) (p : Rec) (list : CMemList Rec) (i : ℤ)
    (hidx : (if nThreadIdx < 0 then 0 else nThreadIdx) = s.nIdx)
    (hnew : newTime s calloc = (s₁, some p))
    (hadd : s₁.pScheduler.m_pTimeList.add p = .ok (list, i)) :
    putTimer s nInterval fp nThreadIdx calloc = .ok (
      if i = 0 then (delTime (setTimer s₁ p nInterval fp s.nIdx list) p, .putTime, some p)
      else (setTimer s₁ p nInterval fp s.nIdx list, .none, some p)) := by
  rw [putTimer]
  dsimp only
  rw [hidx, if_neg (not_not.mpr rfl), hnew]
  dsimp only
  rw [hadd, ok_bind]
  dsimp only
  split_ifs <;> rfl

-- Without a record nothing happens.
theorem putTimer_none (h : Ready s xs)
    (hno : (if nThreadIdx < 0 then 0 else nThreadIdx) = s.nIdx → ¬HasRecord s calloc) :
    ∃ err, err ≠ .none ∧ putTimer s nInterval fp nThreadIdx calloc = .ok (s, err, none) := by
  rw [putTimer]
  by_cases hidx : (if nThreadIdx < 0 then 0 else nThreadIdx) = s.nIdx
  · refine ⟨.newTime, by decide, ?_⟩
    dsimp only
    rw [hidx, if_neg (not_not.mpr rfl), newTime_none s xs h calloc (hno hidx)]
  · exact ⟨.schedulerIdx, by decide, if_pos hidx⟩

-- Behind slot 0 and with room in the list a timer is put where it belongs.
theorem putTimer_added (h : Ready s xs) (hidx : (if nThreadIdx < 0 then 0 else nThreadIdx) = s.nIdx)
    (hrec : HasRecord s calloc) (hxs : xs ≠ [])
    (hroom : xs.length < s.pScheduler.m_pTimeList.m_nMaxCount) :
    ∃ s' p, putTimer s nInterval fp nThreadIdx calloc = .ok (s', .none, some p) ∧ Ready s' (xs ++ [p]) ∧
      (s'.info p).nInterval = nInterval ∧ (s'.info p).pObj = none ∧ (s'.info p).pFunction = fp := by
  obtain ⟨s₁, p, hnew, hp, hsched, hnIdx, hinfo, hused, hpool, hfresh⟩ :=
    newTime_some s xs h calloc hrec
  have hadd := CMemList.add_filled _ xs h.filled p hroom
  rw [← hsched] at hadd
  have hput := putTimer_eq s nInterval fp nThreadIdx calloc s₁ p _ _ hidx hnew hadd
  have hpos : ((xs.length : ℕ) : ℤ) ≠ 0 := by
    have hlen := List.length_pos_of_ne_nil hxs
    omega
  rw [if_neg hpos] at hput
  refine ⟨_, p, hput, ⟨?_, ?_, hused, hpool, hfresh⟩, ?_, ?_, ?_⟩
  · rw [hsched]
    exact CMemList.filled_stored _ xs h.filled p hroom
  · exact List.nodup_append.mpr ⟨h.nodup, List.nodup_singleton p, fun r hr q hq heq =>
      hp (List.mem_singleton.mp hq ▸ heq ▸ hr)⟩
  · simp [setTimer]
  · simp [setTimer]
  · simp [setTimer]

theorem put_allowed (h : Ready s xs)
    (hallowed : Allowed s (.putTimer pObj nInterval fp nThreadIdx calloc)) :
    ∃ s' ys, step s (.putTimer pObj nInterval fp nThreadIdx calloc) = some s' ∧ Ready s' ys ∧
      Faithful s (.putTimer pObj nInterval fp nThreadIdx calloc) := by
  by_cases hno : (if nThreadIdx < 0 then 0 else nThreadIdx) = s.nIdx → ¬HasRecord s calloc
  · obtain ⟨err, herr, hput⟩ := putTimer_none s xs nInterval fp nThreadIdx calloc h hno
    refine ⟨s, xs, by rw [step, hput]; rfl, h, s, err, none, hput, h.conserved s xs, ?_, ?_, ?_⟩
    · refine ⟨fun he => absurd he herr, ?_⟩
      rintro ⟨p, hp, -⟩
      cases hp
    · intro p hp
      cases hp
    · intro _ p hp
      cases hp
  · obtain ⟨hidx, hrec⟩ : (if nThreadIdx < 0 then 0 else nThreadIdx) = s.nIdx ∧ HasRecord s calloc := by
      simpa using hno
    obtain ⟨rfl, hcount, hroom⟩ := hallowed hidx hrec
    rw [h.filled.count] at hcount hroom
    obtain ⟨s', p, hput, hready, hinterval, hobj, hfn⟩ := putTimer_added s xs nInterval fp nThreadIdx
      calloc h hidx hrec (List.length_pos_iff.mp (by omega)) (by omega)
    have hlisted : Listed s' p := (CMemList.listed_filled _ _ hready.filled p).mpr
      (List.mem_append_right xs (List.mem_singleton_self p))
    refine ⟨s', _, by rw [step, hput]; rfl, hready, s', .none, some p, hput, hready.conserved s' _,
      ?_, ?_, ?_⟩
    · exact ⟨fun _ => ⟨p, rfl, hlisted⟩, fun _ => rfl⟩
    · intro q hq _
      obtain rfl := Option.some.inj hq
      exact ⟨hinterval, hobj, hfn⟩
    · exact fun hne => absurd rfl hne

-- In slot 0 the record goes back to the pool and stays in the list; a full list drops it.
theorem allowed_of_put (h : Ready s xs)
    (hfaithful : Faithful s (.putTimer pObj nInterval fp nThreadIdx calloc)) :
    Allowed s (.putTimer pObj nInterval fp nThreadIdx calloc) := by
  intro hidx hrec
  obtain ⟨s', err, got, hput, hgood⟩ := hfaithful
  obtain ⟨s₁, p, hnew, hp, hsched, -, -, -, -, -⟩ := newTime_some s xs h calloc hrec
  have hle := h.filled.le_max
  rw [h.filled.count]
  rcases Nat.eq_zero_or_pos xs.length with hzero | hpos
  · obtain rfl := List.length_eq_zero_iff.mp hzero
    have hadd := CMemList.add_filled _ [] h.filled p h.filled.max.1
    rw [← hsched] at hadd
    have hput' := putTimer_eq s nInterval fp nThreadIdx calloc s₁ p _ _ hidx hnew hadd
    rw [if_pos (show (([] : List Rec).length : ℤ) = 0 from rfl), hput] at hput'
    obtain ⟨rfl, rfl, rfl⟩ : s' = _ ∧ err = _ ∧ got = _ := by simpa using hput'
    refine absurd ?_ (hgood.error (by decide) p rfl).2
    have hfilled := CMemList.filled_stored _ [] h.filled p h.filled.max.1
    have hlisted := (CMemList.listed_filled _ _ hfilled p).mpr (List.mem_singleton_self p)
    rw [← hsched] at hlisted
    cases p <;> exact hlisted
  · by_cases hfull : xs.length = s.pScheduler.m_pTimeList.m_nMaxCount
    · have hadd := CMemList.add_full _ xs h.filled p (List.length_pos_iff.mp hpos) hfull
      rw [← hsched] at hadd
      have hput' := putTimer_eq s nInterval fp nThreadIdx calloc s₁ p _ _ hidx hnew hadd
      rw [if_neg (by decide), hput] at hput'
      obtain ⟨rfl, rfl, rfl⟩ : s' = _ ∧ err = _ ∧ got = _ := by simpa using hput'
      obtain ⟨q, hq, hlisted⟩ := hgood.none_iff.mp rfl
      obtain rfl := Option.some.inj hq
      have hlist : Listed (setTimer s₁ p nInterval fp s.nIdx s₁.pScheduler.m_pTimeList) p ↔
          Listed s p := by
        rw [Listed, Listed, ← hsched]
        rfl
      exact absurd ((CMemList.listed_filled _ _ h.filled p).mp (hlist.mp hlisted)) hp
    · obtain ⟨s'', q, hput', hready, -, hobj, -⟩ := putTimer_added s xs nInterval fp nThreadIdx
        calloc h hidx hrec (List.length_pos_iff.mp hpos) (by omega)
      rw [hput] at hput'
      obtain ⟨rfl, rfl, rfl⟩ : s' = s'' ∧ err = .none ∧ got = some q := by simpa using hput'
      have hlisted : Listed s' q := (CMemList.listed_filled _ _ hready.filled q).mpr
        (List.mem_append_right xs (List.mem_singleton_self q))
      have hcarries := (hgood.carries q rfl hlisted).2.1
      exact ⟨hcarries.symm.trans hobj, by omega, by omega⟩

-- The first timer of an empty list gets slot 0, and is taken for an error.
theorem not_faithful_first (h : Ready s []) (hidx : (if nThreadIdx < 0 then 0 else nThreadIdx) = s.nIdx)
    (hrec : HasRecord s calloc) : ¬Faithful s (.putTimer pObj nInterval fp nThreadIdx calloc) := by
  intro hfaithful
  have hcount := (allowed_of_put s [] pObj nInterval fp nThreadIdx calloc h hfaithful hidx hrec).2.1
  rw [h.filled.count] at hcount
  exact lt_irrefl _ hcount

end Put

section Round

variable {Obj Fn : Type} (list : CMemList Rec) (info : Rec → STIntervalInfo Obj Fn) (xs : List Rec)
  (cancels : Rec → List Rec)

theorem holdsAt_del (j i : ℤ) (p : Rec) (h : (list._del j).HoldsAt i p) : list.HoldsAt i p ∧ i ≠ j := by
  obtain ⟨hi, hflag, hptr⟩ := h
  have hset : (list._del j).m_nFlagArray i = if i = j then 0 else list.m_nFlagArray i :=
    Function.update_apply _ _ _ _
  rw [hset] at hflag
  split_ifs at hflag with heq
  exact ⟨⟨hi, hflag, hptr⟩, heq⟩

-- A round only takes records out of the list.
theorem holdsAt_roundLoop (k idx : ℕ) (i : ℤ) (p : Rec)
    (h : (roundLoop (cancelling cancels) k idx (list, info)).1.HoldsAt i p) : list.HoldsAt i p := by
  induction k generalizing idx list info with
  | zero => exact h
  | succ k ih =>
    rw [roundLoop] at h
    cases hnext : list.getNext idx with
    | none =>
      rw [hnext] at h
      exact h
    | some r =>
      rw [hnext] at h
      dsimp only at h
      split_ifs at h with hflag
      · have hdel := ih _ _ _ h
        rcases CMemList.delFrom_cases list r.2 list.m_nMaxCount 0 with heq | ⟨j, -, -, heq⟩
        · rwa [CMemList.del, heq] at hdel
        · rw [CMemList.del, heq] at hdel
          exact (holdsAt_del list j i p hdel).1
      · exact ih _ _ _ h

/-- No record from cell `idx` on is cancelled when the round comes to it. -/
def Alive (idx : ℕ) : Prop := ∀ i p, idx ≤ i → xs[i]? = some p → (info p).nFlag ≠ 0 ∧
  ∀ j q, idx ≤ j → j < i → xs[j]? = some q → p ∉ cancels q

/-- The record of cell `i` is cancelled when a round from cell `idx` on comes to it. -/
def CancelledAt (idx i : ℕ) (p : Rec) : Prop := (info p).nFlag = 0 ∨
  ∃ j q, idx ≤ j ∧ j < i ∧ xs[j]? = some q ∧ p ∈ cancels q

theorem exists_cancelledAt (idx : ℕ) (h : ¬Alive info xs cancels idx) :
    ∃ i p, idx ≤ i ∧ xs[i]? = some p ∧ CancelledAt info xs cancels idx i p := by
  by_contra hnone
  refine h fun i p hi hp => ⟨fun hzero => hnone ⟨i, p, hi, hp, Or.inl hzero⟩, ?_⟩
  exact fun j q hj hji hq hmem => hnone ⟨i, p, hi, hp, Or.inr ⟨j, q, hj, hji, hq, hmem⟩⟩

-- When the first cell is alive it is another one, and stays cancelled after the callback of the first.
theorem CancelledAt.next (idx i : ℕ) (q p : Rec) (hq : xs[idx]? = some q) (hflag : (info q).nFlag ≠ 0)
    (hi : idx ≤ i) (hp : xs[i]? = some p) (h : CancelledAt info xs cancels idx i p) :
    idx < i ∧ CancelledAt (cancelling cancels q info) xs cancels (idx+1) i p := by
  rcases h with hzero | ⟨j, r, hj, hji, hr, hmem⟩
  · refine ⟨?_, Or.inl ?_⟩
    · rcases Nat.lt_or_eq_of_le hi with hlt | rfl
      · exact hlt
      · rw [hq] at hp
        obtain rfl := Option.some.inj hp
        exact absurd hzero hflag
    · rw [cancelling]
      split_ifs
      · rfl
      · exact hzero
  · refine ⟨lt_of_le_of_lt hj hji, ?_⟩
    rcases Nat.lt_or_eq_of_le hj with hgt | rfl
    · exact Or.inr ⟨j, r, hgt, hji, hr, hmem⟩
    · rw [hq] at hr
      obtain rfl := Option.some.inj hr
      rw [CancelledAt, cancelling, if_pos hmem]
      exact Or.inl rfl

variable (h : list.Filled xs)

include h

theorem roundLoop_alive (k idx : ℕ) (halive : Alive info xs cancels idx) :
    (roundLoop (cancelling cancels) k idx (list, info)).1 = list := by
  induction k generalizing idx info with
  | zero => rfl
  | succ k ih =>
    rw [roundLoop, CMemList.getNext_filled list xs h]
    cases hp : xs[idx]? with
    | none => rfl
    | some p =>
      rw [Option.map_some]
      dsimp only
      rw [if_neg (halive idx p le_rfl hp).1]
      refine ih _ _ fun i q hi hq => ?_
      obtain ⟨hflag, hothers⟩ := halive i q (by omega) hq
      refine ⟨?_, fun j r hj hji hr => hothers j r (by omega) hji hr⟩
      rw [cancelling, if_neg (hothers idx p le_rfl (by omega) hp)]
      exact hflag

-- The first record that is cancelled when the round comes to it leaves the list.
theorem roundLoop_cancelledAt (hnodup : xs.Nodup) (k idx i : ℕ) (p : Rec)
    (hk : list.m_nMaxCount ≤ idx+k) (hi : idx ≤ i) (hp : xs[i]? = some p)
    (hbad : CancelledAt info xs cancels idx i p) :
    ∃ q ∈ xs, ¬(roundLoop (cancelling cancels) k idx (list, info)).1.Listed q := by
  have hlt := (List.getElem?_eq_some_iff.mp hp).1
  have hmax := h.le_max
  induction k generalizing idx info with
  | zero => omega
  | succ k ih =>
    obtain ⟨q, hq⟩ : ∃ q, xs[idx]? = some q := ⟨_, List.getElem?_eq_getElem (by omega)⟩
    obtain ⟨hidx, rfl⟩ := List.getElem?_eq_some_iff.mp hq
    rw [roundLoop, CMemList.getNext_filled list xs h, hq, Option.map_some]
    dsimp only
    by_cases hflag : (info xs[idx]).nFlag = 0
    · refine ⟨xs[idx], List.getElem_mem hidx, ?_⟩
      rw [if_pos hflag, CMemList.del_filled list xs h hnodup idx hidx]
      rintro ⟨c, hc⟩
      obtain ⟨hold, hne⟩ := holdsAt_del list _ _ _ (holdsAt_roundLoop _ _ _ _ _ _ _ hc)
      obtain ⟨c, rfl, hget⟩ := (CMemList.holdsAt_filled list xs h _ _).mp hold
      obtain ⟨hclt, heq⟩ := List.getElem?_eq_some_iff.mp hget
      exact hne (by exact_mod_cast (List.Nodup.getElem_inj_iff hnodup).mp heq)
    · rw [if_neg hflag]
      obtain ⟨hnext, hbad'⟩ := hbad.next info xs cancels idx i xs[idx] p hq hflag hi hp
      exact ih _ _ (by omega) hnext hbad'

theorem roundLoop_cancelled (hnodup : xs.Nodup) (k idx : ℕ) (hk : list.m_nMaxCount ≤ idx+k)
    (hcancelled : ¬Alive info xs cancels idx) :
    ∃ p ∈ xs, ¬(roundLoop (cancelling cancels) k idx (list, info)).1.Listed p := by
  obtain ⟨i, p, hi, hp, hbad⟩ := exists_cancelledAt info xs cancels idx hcancelled
  exact roundLoop_cancelledAt list info xs cancels h hnodup k idx i p hk hi hp hbad

end Round

section Run

variable {Obj Fn : Type} (s : State Obj Fn) (xs : List Rec) (h : Ready s xs)

include h

theorem allowed_round_iff (cancels : Rec → List Rec) :
    Allowed s (.round cancels) ↔ Alive s.info xs cancels 0 := by
  have hholds := CMemList.holdsAt_filled s.pScheduler.m_pTimeList xs h.filled
  constructor
  · intro hallowed i p _ hp
    obtain ⟨hflag, hothers⟩ := hallowed i p ((hholds i p).mpr ⟨i, rfl, hp⟩)
    refine ⟨hflag, fun j q _ hji hq => ?_⟩
    exact hothers j q (by exact_mod_cast hji) ((hholds j q).mpr ⟨j, rfl, hq⟩)
  · intro halive i p hi
    obtain ⟨i, rfl, hp⟩ := (hholds i p).mp hi
    obtain ⟨hflag, hothers⟩ := halive i p (Nat.zero_le _) hp
    refine ⟨hflag, fun j q hji hj => ?_⟩
    obtain ⟨j, rfl, hq⟩ := (hholds j q).mp hj
    exact hothers j q (Nat.zero_le _) (by exact_mod_cast hji) hq

theorem ready_round (cancels : Rec → List Rec) (hallowed : Allowed s (.round cancels)) :
    Ready (timerRound s cancels) xs := by
  have hlist : (timerRound s cancels).pScheduler.m_pTimeList = s.pScheduler.m_pTimeList :=
    roundLoop_alive _ s.info xs cancels h.filled _ 0 ((allowed_round_iff s xs h cancels).mp hallowed)
  refine ⟨?_, h.nodup, h.used, h.pool, h.fresh⟩
  rw [hlist]
  exact h.filled

-- The record that leaves the list stays in use: nothing gives it back to the pool.
theorem allowed_of_round (cancels : Rec → List Rec) (hconserved : Conserved (timerRound s cancels)) :
    Allowed s (.round cancels) := by
  rw [allowed_round_iff s xs h]
  by_contra hcancelled
  obtain ⟨p, hp, hout⟩ := roundLoop_cancelled _ s.info xs cancels h.filled h.nodup _ 0
    (Nat.zero_add _).ge hcancelled
  exact hout ((hconserved p).mp ((h.used p).mpr hp))

theorem step_allowed (e : Event Obj Fn) (hallowed : Allowed s e) :
    ∃ s' ys, step s e = some s' ∧ Ready s' ys ∧ Faithful s e := by
  cases e with
  | putTimer pObj nInterval fp nThreadIdx calloc =>
    exact put_allowed s xs pObj nInterval fp nThreadIdx calloc h hallowed
  | popTimer p =>
    have hready : Ready (popTimer s p) xs := ⟨h.filled, h.nodup, h.used, h.pool, h.fresh⟩
    exact ⟨_, xs, rfl, hready, hready.conserved _ xs⟩
  | round cancels =>
    have hready := ready_round s xs h cancels hallowed
    exact ⟨_, xs, rfl, hready, hready.conserved _ xs⟩

theorem allowed_of_faithful (e : Event Obj Fn) (hfaithful : Faithful s e) : Allowed s e := by
  cases e with
  | putTimer pObj nInterval fp nThreadIdx calloc =>
    exact allowed_of_put s xs pObj nInterval fp nThreadIdx calloc h hfaithful
  | popTimer p => trivial
  | round cancels => exact allowed_of_round s xs h cancels hfaithful

theorem ready_step (e : Event Obj Fn) (s' : State Obj Fn) (hallowed : Allowed s e)
    (hstep : step s e = some s') : ∃ ys, Ready s' ys := by
  obtain ⟨t, ys, ht, hready, -⟩ := step_allowed s xs h e hallowed
  rw [ht] at hstep
  obtain rfl := Option.some.inj hstep
  exact ⟨ys, hready⟩

/-- From a list that holds the records in use on, every step of a run keeps list and pool together and
answers the truth, exactly when every step is allowed. -/
theorem faithful_along_iff (es : List (Event Obj Fn)) :
    Runs.Along step Faithful s es ↔ Runs.Along step Allowed s es := by
  apply Runs.along_iff_of_invariant step (fun _ _ => True) Faithful Allowed (fun t => ∃ ys, Ready t ys)
  · rintro t e t' ⟨ys, ht⟩ - hallowed hstep
    exact ready_step t ys ht e t' hallowed hstep
  · rintro t e ⟨ys, ht⟩ -
    refine ⟨allowed_of_faithful t ys ht e, fun hallowed => ?_⟩
    obtain ⟨-, -, -, -, hfaithful⟩ := step_allowed t ys ht e hallowed
    exact hfaithful
  · exact ⟨xs, h⟩
  · exact Runs.along_of_forall step _ (fun _ _ => trivial) s es

end Run

/-- A list of four slots with the record `chunk 0` in slot 0. -/
def oneTimer : State ℕ ℕ :=
  let start := fresh 4 2 10 0 (fun _ => 0) 0
  { start with
    pScheduler := { start.pScheduler with
      m_pTimeList := CMemList.stored
        { start.pScheduler.m_pTimeList with m_nEmptyFirstIdx := -1 } (.chunk 0) 0 }
    m_pIntervalPool := start.m_pIntervalPool.claim 0 }

theorem ready_oneTimer : Ready oneTimer [.chunk 0] := by
  have hfresh := ready_fresh 4 2 10 0 (fun _ => 0) 0 (by decide) (by decide)
  refine ⟨?_, List.nodup_singleton _, ?_, poolOk_claim _ 0 hfresh.pool (by decide) rfl, hfresh.fresh⟩
  · exact CMemList.filled_stored _ [] hfresh.filled (.chunk 0) (by decide)
  · intro p
    cases p with
    | chunk i =>
      by_cases hi : i = 0
      · simp [InUse, oneTimer, fresh, CMemPool.claim, CMemPool.alloc, hi]
      · simp [InUse, oneTimer, fresh, CMemPool.claim, CMemPool.alloc, hi]
    | heap n => simp [InUse, oneTimer, fresh]

theorem faithful_along_iff_oneTimer : Ready oneTimer [.chunk 0] ∧
    Runs.Along step Faithful oneTimer [.popTimer (.chunk 0), .putTimer none 10 0 0 false] := by
  refine ⟨ready_oneTimer, (faithful_along_iff _ _ ready_oneTimer _).mpr ⟨trivial, fun t ht => ?_⟩⟩
  obtain rfl := Option.some.inj ht
  exact ⟨fun _ _ => ⟨rfl, by decide, by decide⟩, fun _ _ => trivial⟩

-- The first `putTimer` of all.
theorem not_faithful_fresh : Ready (fresh 4 2 10 0 (fun _ => 0) 0) [] ∧
    ¬Runs.Along step Faithful (fresh 4 2 10 0 (fun _ => 0) 0) [.putTimer none 10 0 0 false] := by
  have hfresh := ready_fresh 4 2 10 0 (fun _ => 0) 0 (by decide) (by decide)
  refine ⟨hfresh, fun halong => ?_⟩
  exact not_faithful_first _ none 10 0 0 false hfresh rfl (Or.inr ⟨0, by decide, rfl⟩) halong.1

end Leviathan.TimerPool
