import Leviathan.CTypes
import Leviathan.Runs
import Leviathan.Slots

/-! `CBMemPool` and `CBPoolSlot` (comBMemPool.h), for one thread: a chunk of elements with a flag for
each, and a growing list of such pools.  Addresses are integers. -/
namespace Leviathan

/-- The difference of two pointers to elements of `sz` bytes. -/
def ptrDiff (sz : ℕ) (p q : ℤ) : ℤ := (p-q)/sz

theorem ptrDiff_element (sz : ℕ) (hsz : 1 ≤ sz) (c d : ℤ) : ptrDiff sz (c+d*sz) c = d := by
  rw [ptrDiff, add_sub_cancel_left, Int.mul_ediv_cancel _ (by omega)]

structure CBMemPool where
  m_bSlot : Bool
  m_nUseCnt : ℤ
  m_nAllocCount : ℕ
  m_nFlagArray : ℕ → Bool
  m_pChunk : ℤ

namespace CBMemPool

/-- A pool of `nMaxCount` elements, with its chunk at `pChunk`. -/
def zeroed (nMaxCount : ℕ) (pChunk : ℤ) : CBMemPool where
  m_bSlot := false
  m_nUseCnt := 0
  m_nAllocCount := nMaxCount
  m_nFlagArray := fun _ => false
  m_pChunk := pChunk

/-- `alloc`, where the memory is to be had.  `memset(pFlag, 0, sizeof(pFlag))` clears as many flags as a
pointer has bytes (`ptr`: 8 on x64, 4 on Win32), which can be more than there are. -/
def alloc (ptr nMaxCount : ℕ) (pChunk : ℤ) : Except Fault CBMemPool :=
  if nMaxCount < ptr then .error .outOfBounds else .ok (zeroed nMaxCount pChunk)

theorem alloc_eq (ptr nMaxCount : ℕ) (pChunk : ℤ) (hptr : ptr ≤ nMaxCount) :
    alloc ptr nMaxCount pChunk = .ok (zeroed nMaxCount pChunk) := if_neg (not_lt.mpr hptr)

section Model

variable (p : CBMemPool)

def setBSlot (b : Bool) : CBMemPool := { p with m_bSlot := b }

def take (i : ℕ) : CBMemPool :=
  { p with
    m_nFlagArray := Function.update p.m_nFlagArray i true
    m_nUseCnt := i32 (p.m_nUseCnt+1) }

/-- The loop of `newMem`, with `k` rounds left.  No round changes `i` but the one that sets it to 0. -/
def newLoop : ℕ → ℤ → Except Fault (CBMemPool × Option ℕ)
  | 0, _ => .ok (p, none)
  | k+1, i =>
    let i := if (p.m_nAllocCount : ℤ) ≤ i then 0 else i
    if i < 0 then .error .outOfBounds
    else if !p.m_nFlagArray i.toNat then .ok (p.take i.toNat, some i.toNat)
    else newLoop k i

/-- `newMem`: the index of the element, or `none` where the answer is NULL (in a slot list) or comes from
`__unit_alloc`. -/
def newMem : Except Fault (CBMemPool × Option ℕ) :=
  if p.m_nUseCnt = p.m_nAllocCount then .ok (p, none) else p.newLoop p.m_nAllocCount p.m_nUseCnt

/-- `delMem`; false where the pointer is none of the pool's (outside a slot list it is freed). -/
def delMem (sz : ℕ) (pUsedMem : ℤ) : CBMemPool × Bool :=
  let nIdx := i32 (ptrDiff sz pUsedMem p.m_pChunk)
  if isInclude nIdx p.m_nAllocCount then
    ({ p with
        m_nFlagArray := Function.update p.m_nFlagArray nIdx.toNat false
        m_nUseCnt := i32 (p.m_nUseCnt-1) }, true)
  else (p, false)

/-- `getNext`: the next index with a set flag. -/
def getNext (i : ℕ) : Option (ℕ × ℕ) :=
  Slots.next p.m_nAllocCount (fun i => if p.m_nFlagArray i then some i else none) i

/-- `&m_pChunk[i]`. -/
def getMem (sz i : ℕ) : ℤ := p.m_pChunk+i*sz

end Model

end CBMemPool

def slotListUnit : ℕ := 10

structure CBPoolSlot where
  m_pList : List CBMemPool
  m_nMax : ℕ
  m_nCurIdx : ℕ

namespace CBPoolSlot

section Model

-- the bytes of a pointer
variable (ptr : ℕ) (s : CBPoolSlot)

/-- The end of `__alloc`, which puts the pool in the list, where the memory for a larger one is to be had
(for one longer than an `int` it is not).  The answer is `m_nMax`, 0 on failure. -/
def enter (pPool : CBMemPool) : CBPoolSlot × ℕ :=
  if s.m_nMax = s.m_pList.length then
    if s.m_nMax+slotListUnit < 2^31 then
      ({ s with m_pList := s.m_pList ++ [pPool], m_nMax := s.m_nMax+slotListUnit },
        s.m_nMax+slotListUnit)
    else (s, 0)
  else ({ s with m_pList := s.m_pList ++ [pPool] }, s.m_nMax)

/-- `__alloc(nMaxCount)`, where the pool gets its chunk at `pChunk`. -/
def _alloc (nMaxCount : ℕ) (pChunk : Option ℤ) : Except Fault (CBPoolSlot × ℕ) :=
  match pChunk with
  | none => .ok (s, 0)
  | some pChunk => do
    let pPool ← CBMemPool.alloc ptr nMaxCount pChunk
    if nMaxCount = 0 then return (s, 0)
    else return s.enter (pPool.setBSlot true)

def init : CBPoolSlot := { m_pList := [], m_nMax := 0, m_nCurIdx := 0 }

def alloc (nMaxCount : ℕ) (pChunk : Option ℤ) : Except Fault CBPoolSlot :=
  (init._alloc ptr nMaxCount pChunk).map Prod.fst

/-- `m_pList[i]->newMem()`. -/
def newIn (i : ℕ) : Except Fault (CBPoolSlot × Option ℕ) :=
  match s.m_pList[i]? with
  | none => .error .outOfBounds
  | some pPool => do
    let r ← pPool.newMem
    return ({ s with m_pList := s.m_pList.set i r.1 }, r.2)

/-- `realloc()` and what follows it in `newMem`. -/
def grow (pChunk : Option ℤ) : Except Fault (CBPoolSlot × Option (ℕ × ℕ)) :=
  match s.m_pList[0]? with
  | none => .error .outOfBounds
  | some pFirst => do
    let r ← s._alloc ptr pFirst.m_nAllocCount pChunk
    if r.2 = 0 then return (s, none)
    let (s', j) ← r.1.newIn s.m_pList.length
    return (s', j.map (fun j => (s.m_pList.length, j)))

/-- The loop of `newMem` over the pools, with `k` of them left. -/
def newLoop (pChunk : Option ℤ) : ℕ → ℕ → Except Fault (CBPoolSlot × Option (ℕ × ℕ))
  | 0, _ => s.grow ptr pChunk
  | k+1, i => do
    match ← s.newIn i with
    | (s', some j) => return ({ s' with m_nCurIdx := i }, some (i, j))
    | (_, none) => newLoop pChunk k (i+1)

/-- `newMem`: the element, as the numbers of its pool and of its place there; `none` for NULL. -/
def newMem (pChunk : Option ℤ) : Except Fault (CBPoolSlot × Option (ℕ × ℕ)) := do
  match ← s.newIn s.m_nCurIdx with
  | (s', some j) => return (s', some (s.m_nCurIdx, j))
  | (_, none) => s.newLoop ptr pChunk s.m_pList.length 0

/-- The loop of `delMem`, with `k` pools left. -/
def delLoop (sz : ℕ) (p : ℤ) : ℕ → ℕ → CBPoolSlot × Bool
  | 0, _ => (s, false)
  | k+1, i =>
    match s.m_pList[i]? with
    | none => (s, false)
    | some pPool =>
      let r := pPool.delMem sz p
      if r.2 then ({ s with m_pList := s.m_pList.set i r.1, m_nCurIdx := i }, true)
      else delLoop sz p k (i+1)

def delMem (sz : ℕ) (p : ℤ) : CBPoolSlot × Bool := s.delLoop sz p s.m_pList.length 0

/-- `getSlotNext`, with `k` pools left: the position it stops at. -/
def slotNextFrom : ℕ → ℕ → ℕ → Option (ℕ × ℕ)
  | 0, _, _ => none
  | k+1, slot, idx =>
    match s.m_pList[slot]?.bind (fun pPool => pPool.getNext idx) with
    | some (j, _) => some (slot, j)
    | none => slotNextFrom k (slot+1) 0

def getSlotNext (slot idx : ℕ) : Option (ℕ × ℕ) := s.slotNextFrom (s.m_pList.length-slot) slot idx

end Model

end CBPoolSlot

namespace CBMemPool

section New

variable (p : CBMemPool)

/-- The one place where `newMem` looks. -/
def place : ℤ := if (p.m_nAllocCount : ℤ) ≤ p.m_nUseCnt then 0 else p.m_nUseCnt

/-- The element with the number of the used ones is free. -/
def Offers : Prop := p.m_nUseCnt ≠ p.m_nAllocCount ∧ 0 < p.m_nAllocCount ∧ 0 ≤ p.place ∧
  p.m_nFlagArray p.place.toNat = false

/-- `newMem` looks in front of the flags. -/
def Faulty : Prop := 0 < p.m_nAllocCount ∧ p.m_nUseCnt < 0

theorem newLoop_again (k : ℕ) (i : ℤ) (hi : 0 ≤ i ∧ i < p.m_nAllocCount)
    (hset : p.m_nFlagArray i.toNat = true) : p.newLoop k i = .ok (p, none) := by
  induction k with
  | zero => rfl
  | succ k ih =>
    rw [newLoop, if_neg (not_le.mpr hi.2), if_neg (not_lt.mpr hi.1), hset]
    exact ih

theorem place_lt (hpos : 0 < p.m_nAllocCount) : p.place < p.m_nAllocCount := by
  rw [place]
  split_ifs <;> omega

theorem newMem_offers (h : p.Offers) : p.newMem = .ok (p.take p.place.toNat, some p.place.toNat) := by
  obtain ⟨huse, hpos, hplace, hfree⟩ := h
  obtain ⟨k, hk⟩ : ∃ k, p.m_nAllocCount = k+1 := ⟨p.m_nAllocCount-1, by omega⟩
  rw [newMem, if_neg huse, hk, newLoop]
  show (if p.place < 0 then _ else if (!p.m_nFlagArray p.place.toNat) = true then _ else _) = _
  rw [if_neg (not_lt.mpr hplace), hfree]
  rfl

theorem newMem_faulty (h : p.Faulty) : p.newMem = .error .outOfBounds := by
  obtain ⟨hpos, huse⟩ := h
  obtain ⟨k, hk⟩ : ∃ k, p.m_nAllocCount = k+1 := ⟨p.m_nAllocCount-1, by omega⟩
  have hne : p.m_nUseCnt ≠ p.m_nAllocCount := by omega
  have hplace : p.place < 0 := by
    rw [place, if_neg (by omega)]
    exact huse
  rw [newMem, if_neg hne, hk, newLoop]
  show (if p.place < 0 then _ else _) = _
  rw [if_pos hplace]

theorem newMem_none (hoffers : ¬p.Offers) (hfaulty : ¬p.Faulty) : p.newMem = .ok (p, none) := by
  rw [newMem]
  split_ifs with huse
  · rfl
  · rcases Nat.eq_zero_or_pos p.m_nAllocCount with hzero | hpos
    · rw [hzero]
      rfl
    · have hplace : 0 ≤ p.place := by
        rw [place]
        split_ifs
        · exact le_rfl
        · exact not_lt.mp (fun hneg => hfaulty ⟨hpos, hneg⟩)
      have hset : p.m_nFlagArray p.place.toNat = true := by
        by_contra hfree
        exact hoffers ⟨huse, hpos, hplace, Bool.eq_false_iff.mpr hfree⟩
      obtain ⟨k, hk⟩ : ∃ k, p.m_nAllocCount = k+1 := ⟨p.m_nAllocCount-1, by omega⟩
      rw [hk, newLoop]
      show (if p.place < 0 then _ else if (!p.m_nFlagArray p.place.toNat) = true then _ else
        p.newLoop k p.place) = _
      rw [if_neg (not_lt.mpr hplace), hset]
      exact newLoop_again p k p.place ⟨hplace, place_lt p hpos⟩ hset

end New

end CBMemPool

namespace CBPoolSlot

section New

variable (ptr : ℕ) (s : CBPoolSlot) (pChunk : Option ℤ)

/-- The pools in the order in which `newMem` asks them. -/
def asked : List CBMemPool := s.m_pList[s.m_nCurIdx]?.toList ++ s.m_pList

/-- Some pool has a free element. -/
def HasFree : Prop := ∃ p ∈ s.m_pList, ∃ j < p.m_nAllocCount, p.m_nFlagArray j = false

/-- The answer is a free element of the pools there are, and there are no more pools afterwards. -/
def Reuses (r : Except Fault (CBPoolSlot × Option (ℕ × ℕ))) : Prop :=
  ∃ t i j p, r = .ok (t, some (i, j)) ∧ s.m_pList[i]? = some p ∧ j < p.m_nAllocCount ∧
    p.m_nFlagArray j = false ∧ t.m_pList.length = s.m_pList.length

/-- A pool of the list offers the element with the number of its used ones, and no pool asked before it
is faulty. -/
def Finds (ps : List CBMemPool) : Prop :=
  ∃ pre p post, ps = pre ++ p :: post ∧ p.Offers ∧ ∀ q ∈ pre, ¬q.Faulty

theorem finds_cons (p : CBMemPool) (ps : List CBMemPool) :
    Finds (p :: ps) ↔ p.Offers ∨ (¬p.Faulty ∧ Finds ps) := by
  constructor
  · rintro ⟨pre, q, post, hps, hq, hpre⟩
    cases pre with
    | nil =>
      obtain ⟨rfl, rfl⟩ := List.cons.inj hps
      exact Or.inl hq
    | cons r pre =>
      obtain ⟨rfl, rfl⟩ := List.cons.inj hps
      refine Or.inr ⟨hpre p List.mem_cons_self, pre, q, post, rfl, hq, fun x hx => ?_⟩
      exact hpre x (List.mem_cons_of_mem p hx)
  · rintro (hp | ⟨hp, pre, q, post, rfl, hq, hpre⟩)
    · exact ⟨[], p, ps, rfl, hp, fun x hx => absurd hx List.not_mem_nil⟩
    · refine ⟨p :: pre, q, post, rfl, hq, fun x hx => ?_⟩
      rcases List.mem_cons.mp hx with rfl | hx
      · exact hp
      · exact hpre x hx

theorem newIn_offers (i : ℕ) (p : CBMemPool) (hi : s.m_pList[i]? = some p) (h : p.Offers) :
    s.newIn i = .ok ({ s with m_pList := s.m_pList.set i (p.take p.place.toNat) }, some p.place.toNat) := by
  rw [newIn, hi]
  dsimp only
  rw [CBMemPool.newMem_offers p h]
  rfl

theorem newIn_faulty (i : ℕ) (p : CBMemPool) (hi : s.m_pList[i]? = some p) (h : p.Faulty) :
    s.newIn i = .error .outOfBounds := by
  rw [newIn, hi]
  dsimp only
  rw [CBMemPool.newMem_faulty p h]
  rfl

theorem newIn_none (i : ℕ) (p : CBMemPool) (hi : s.m_pList[i]? = some p) (hoffers : ¬p.Offers)
    (hfaulty : ¬p.Faulty) : s.newIn i = .ok (s, none) := by
  have hset : s.m_pList.set i p = s.m_pList := by
    apply List.ext_getElem?
    intro j
    rw [List.getElem?_set]
    split_ifs with hij hlt
    · rw [← hij, hi]
    · rw [← hij, List.getElem?_eq_none (not_lt.mp hlt)]
    · rfl
  rw [newIn, hi]
  dsimp only
  rw [CBMemPool.newMem_none p hoffers hfaulty, ok_bind, hset]
  rfl

-- The element on offer is a free one of the pool.
theorem offers_free (p : CBMemPool) (h : p.Offers) :
    p.place.toNat < p.m_nAllocCount ∧ p.m_nFlagArray p.place.toNat = false := by
  have hlt := CBMemPool.place_lt p h.2.1
  refine ⟨?_, h.2.2.2⟩
  have hplace := h.2.2.1
  omega

theorem not_reuses_error (e : Fault) : ¬Reuses s (.error e) := by
  rintro ⟨t, i, j, p, hr, -⟩
  cases hr

-- `realloc` answers an element of the new pool, or none.
theorem not_reuses_grow : ¬Reuses s (s.grow ptr pChunk) := by
  rintro ⟨t, i, j, p, hr, hi, -⟩
  rw [grow] at hr
  split at hr
  · cases hr
  · obtain ⟨a, -, hr⟩ := (bind_eq_ok _ _ _).mp hr
    split_ifs at hr
    · cases hr
    · obtain ⟨q, -, hq⟩ := (bind_eq_ok _ _ _).mp hr
      obtain ⟨j', -, hpair⟩ := Option.map_eq_some_iff.mp (Prod.mk.inj (Except.ok.inj hq)).2
      obtain ⟨rfl, -⟩ := Prod.mk.inj hpair
      rw [List.getElem?_eq_none le_rfl] at hi
      cases hi

-- A pool is asked, and where it answers nothing, the others are; `f` is what is done to the list when
-- it answers an element.
theorem reuses_ask (i : ℕ) (p : CBMemPool) (hi : s.m_pList[i]? = some p) (f : CBPoolSlot → CBPoolSlot)
    (hf : ∀ t, (f t).m_pList = t.m_pList) (next r : Except Fault (CBPoolSlot × Option (ℕ × ℕ)))
    (ps : List CBMemPool) (hnext : Reuses s next ↔ Finds ps) (hr : r = s.newIn i >>= fun q =>
      match q with
      | (s', some j) => .ok (f s', some (i, j))
      | (_, none) => next) : Reuses s r ↔ Finds (p :: ps) := by
  rw [finds_cons, hr]
  by_cases hoffers : p.Offers
  · obtain ⟨hlt, hfree⟩ := offers_free p hoffers
    rw [newIn_offers s i p hi hoffers]
    refine iff_of_true ⟨_, i, _, p, rfl, hi, hlt, hfree, ?_⟩ (Or.inl hoffers)
    rw [hf]
    exact List.length_set ..
  · by_cases hfaulty : p.Faulty
    · rw [newIn_faulty s i p hi hfaulty]
      exact iff_of_false (not_reuses_error s _) (fun h => h.elim hoffers (fun h => h.1 hfaulty))
    · rw [newIn_none s i p hi hoffers hfaulty]
      exact hnext.trans ⟨fun h => Or.inr ⟨hfaulty, h⟩, fun h => (h.resolve_left hoffers).2⟩

theorem newLoop_reuses_iff (k i : ℕ) (hk : i+k = s.m_pList.length) :
    Reuses s (s.newLoop ptr pChunk k i) ↔ Finds (s.m_pList.drop i) := by
  induction k generalizing i with
  | zero =>
    rw [List.drop_eq_nil_of_le (by omega)]
    refine iff_of_false (not_reuses_grow ptr s pChunk) ?_
    rintro ⟨pre, p, post, hps, -⟩
    cases pre <;> cases hps
  | succ k ih =>
    have hlt : i < s.m_pList.length := by omega
    obtain ⟨p, hp⟩ : ∃ p, s.m_pList[i]? = some p := ⟨_, List.getElem?_eq_getElem hlt⟩
    have hdrop : s.m_pList.drop i = p :: s.m_pList.drop (i+1) := by
      rw [List.drop_eq_getElem_cons hlt]
      congr 1
      exact Option.some.inj ((List.getElem?_eq_getElem hlt).symm.trans hp)
    rw [hdrop]
    apply reuses_ask s i p hp (fun t => { t with m_nCurIdx := i }) _ _ _ _ (ih (i+1) (by omega)) rfl
    intro t
    rfl

theorem reuses_iff (hcur : s.m_nCurIdx < s.m_pList.length) :
    Reuses s (s.newMem ptr pChunk) ↔ Finds s.asked := by
  obtain ⟨p, hp⟩ : ∃ p, s.m_pList[s.m_nCurIdx]? = some p := ⟨_, List.getElem?_eq_getElem hcur⟩
  have hasked : s.asked = p :: s.m_pList := by
    rw [asked, hp]
    rfl
  rw [hasked]
  have hrest := newLoop_reuses_iff ptr s pChunk s.m_pList.length 0 (zero_add _)
  exact reuses_ask s s.m_nCurIdx p hp id (fun _ => rfl) _ _ _ hrest rfl

end New

/-- What a program does with the slot list: it asks for an element, where the next chunk would lie at
`pChunk`, or gives one back. -/
inductive Op where
  | newMem (pChunk : Option ℤ)
  | delMem (p : ℤ)

/-- One call, for elements of `sz` bytes. -/
def op (ptr sz : ℕ) (s : CBPoolSlot) : Op → Option CBPoolSlot
  | .newMem pChunk =>
    match s.newMem ptr pChunk with
    | .ok r => some r.1
    | .error _ => none
  | .delMem p => some (s.delMem sz p).1

/-- The states after an `alloc` that has written nothing behind its flags. -/
def Reached (ptr sz : ℕ) (s : CBPoolSlot) : Prop :=
  ∃ n c start ops, 1 ≤ n ∧ alloc ptr n (some c) = .ok start ∧
    Runs.runFrom (op ptr sz) start ops = some s

-- The flags that `alloc` clears are there.
theorem alloc_ok_iff (ptr n : ℕ) (c : ℤ) : (∃ start, alloc ptr n (some c) = .ok start) ↔ ptr ≤ n := by
  rw [alloc, _alloc]
  rcases le_or_gt ptr n with hle | hlt
  · rw [CBMemPool.alloc_eq ptr n c hle]
    refine iff_of_true ?_ hle
    by_cases hn : n = 0
    · exact ⟨init, by rw [ok_bind, if_pos hn]; rfl⟩
    · exact ⟨_, by rw [ok_bind, if_neg hn]; rfl⟩
  · refine iff_of_false ?_ (not_le.mpr hlt)
    rintro ⟨start, hstart⟩
    rw [CBMemPool.alloc, if_pos hlt] at hstart
    cases hstart

section Current

variable (ptr : ℕ) (s : CBPoolSlot)

theorem length_newIn (i : ℕ) (r : CBPoolSlot × Option ℕ) (h : s.newIn i = .ok r) :
    i < s.m_pList.length ∧ r.1.m_pList.length = s.m_pList.length ∧ r.1.m_nCurIdx = s.m_nCurIdx := by
  rw [newIn] at h
  split at h
  · cases h
  · rename_i p hp
    obtain ⟨q, -, hq⟩ := (bind_eq_ok _ _ _).mp h
    obtain rfl := Except.ok.inj hq
    exact ⟨(List.getElem?_eq_some_iff.mp hp).1, List.length_set .., rfl⟩

theorem length_enter (pPool : CBMemPool) : s.m_pList.length ≤ (s.enter pPool).1.m_pList.length ∧
    (s.enter pPool).1.m_nCurIdx = s.m_nCurIdx := by
  rw [enter]
  split_ifs
  · exact ⟨List.length_append ▸ Nat.le_add_right _ _, rfl⟩
  · exact ⟨le_rfl, rfl⟩
  · exact ⟨List.length_append ▸ Nat.le_add_right _ _, rfl⟩

theorem length_alloc (n : ℕ) (pChunk : Option ℤ) (r : CBPoolSlot × ℕ)
    (h : s._alloc ptr n pChunk = .ok r) :
    s.m_pList.length ≤ r.1.m_pList.length ∧ r.1.m_nCurIdx = s.m_nCurIdx := by
  cases pChunk with
  | none =>
    obtain rfl := Except.ok.inj h
    exact ⟨le_rfl, rfl⟩
  | some c =>
    obtain ⟨pPool, -, h⟩ := (bind_eq_ok _ _ _).mp h
    split_ifs at h
    · obtain rfl := Except.ok.inj h
      exact ⟨le_rfl, rfl⟩
    · obtain rfl := Except.ok.inj h
      exact length_enter s _

-- The current pool stays one of the list.
theorem current_grow (pChunk : Option ℤ) (r : CBPoolSlot × Option (ℕ × ℕ))
    (h : s.grow ptr pChunk = .ok r) (hcur : s.m_nCurIdx < s.m_pList.length) :
    r.1.m_nCurIdx < r.1.m_pList.length := by
  rw [grow] at h
  split at h
  · cases h
  · rename_i p hp
    obtain ⟨a, ha, h⟩ := (bind_eq_ok _ _ _).mp h
    obtain ⟨hlen, hsame⟩ := length_alloc ptr s p.m_nAllocCount pChunk a ha
    split_ifs at h
    · obtain rfl := Except.ok.inj h
      exact hcur
    · obtain ⟨q, hq, hr⟩ := (bind_eq_ok _ _ _).mp h
      obtain rfl := Except.ok.inj hr
      obtain ⟨-, hlen', hsame'⟩ := length_newIn _ _ q hq
      dsimp only
      omega

theorem current_newLoop (pChunk : Option ℤ) (k i : ℕ) (r : CBPoolSlot × Option (ℕ × ℕ))
    (h : s.newLoop ptr pChunk k i = .ok r) (hcur : s.m_nCurIdx < s.m_pList.length) :
    r.1.m_nCurIdx < r.1.m_pList.length := by
  induction k generalizing i with
  | zero => exact current_grow ptr s pChunk r h hcur
  | succ k ih =>
    rw [newLoop] at h
    obtain ⟨q, hq, hr⟩ := (bind_eq_ok _ _ _).mp h
    obtain ⟨hi, hlen, -⟩ := length_newIn s i q hq
    split at hr
    · obtain rfl := Except.ok.inj hr
      exact hi.trans_eq hlen.symm
    · exact ih (i+1) hr

theorem current_newMem (pChunk : Option ℤ) (r : CBPoolSlot × Option (ℕ × ℕ))
    (h : s.newMem ptr pChunk = .ok r) (hcur : s.m_nCurIdx < s.m_pList.length) :
    r.1.m_nCurIdx < r.1.m_pList.length := by
  rw [newMem] at h
  obtain ⟨q, hq, hr⟩ := (bind_eq_ok _ _ _).mp h
  obtain ⟨-, hlen, hsame⟩ := length_newIn s s.m_nCurIdx q hq
  split at hr
  · obtain rfl := Except.ok.inj hr
    dsimp only at hlen hsame ⊢
    omega
  · exact current_newLoop ptr s pChunk _ 0 r hr hcur

theorem current_delLoop (sz : ℕ) (p : ℤ) (k i : ℕ) (hcur : s.m_nCurIdx < s.m_pList.length) :
    (s.delLoop sz p k i).1.m_nCurIdx < (s.delLoop sz p k i).1.m_pList.length := by
  induction k generalizing i with
  | zero => exact hcur
  | succ k ih =>
    rw [delLoop]
    split
    · exact hcur
    · rename_i q hq
      dsimp only
      split_ifs
      · exact (List.getElem?_eq_some_iff.mp hq).1.trans_eq (List.length_set ..).symm
      · exact ih (i+1)

-- The step lemma.
theorem current_op (sz : ℕ) (o : Op) (t : CBPoolSlot) (ht : s.op ptr sz o = some t)
    (hcur : s.m_nCurIdx < s.m_pList.length) : t.m_nCurIdx < t.m_pList.length := by
  cases o with
  | newMem pChunk =>
    rw [op] at ht
    split at ht
    · rename_i r hr
      exact Option.some.inj ht ▸ current_newMem ptr s pChunk r hr hcur
    · cases ht
  | delMem p => exact Option.some.inj ht ▸ current_delLoop s sz p _ 0 hcur

end Current

theorem current_alloc (ptr n : ℕ) (hn : 1 ≤ n) (c : ℤ) (start : CBPoolSlot)
    (h : alloc ptr n (some c) = .ok start) : start.m_nCurIdx < start.m_pList.length := by
  obtain ⟨r, hr, rfl⟩ := (map_eq_ok _ _ _).mp h
  obtain ⟨pPool, -, hr⟩ := (bind_eq_ok _ _ _).mp hr
  rw [if_neg (by omega)] at hr
  obtain rfl := Except.ok.inj hr
  exact Nat.zero_lt_one

theorem current_reached (ptr sz : ℕ) (s : CBPoolSlot) (h : Reached ptr sz s) :
    s.m_nCurIdx < s.m_pList.length := by
  obtain ⟨n, c, start, ops, hn, hstart, hrun⟩ := h
  apply Runs.runFrom_invariant (op ptr sz) (fun s => s.m_nCurIdx < s.m_pList.length) _ _ s ops
    (current_alloc ptr n hn c start hstart) hrun
  intro t o u ht hu
  exact current_op ptr t sz o u hu ht

/-- The element that a pool is asked for comes from the pool. -/
def FromPool (p : CBMemPool) (r : Except Fault (CBMemPool × Option ℕ)) : Prop :=
  ∃ t j, r = .ok (t, some j) ∧ j < p.m_nAllocCount ∧ p.m_nFlagArray j = false

theorem fromPool_iff (p : CBMemPool) : FromPool p p.newMem ↔ p.Offers := by
  constructor
  · rintro ⟨t, j, hr, -⟩
    by_contra hoffers
    by_cases hfaulty : p.Faulty
    · rw [CBMemPool.newMem_faulty p hfaulty] at hr
      cases hr
    · rw [CBMemPool.newMem_none p hoffers hfaulty] at hr
      cases hr
  · intro h
    exact ⟨_, _, CBMemPool.newMem_offers p h, offers_free p h⟩

theorem offers_below_iff (p : CBMemPool) (hbelow : p.m_nUseCnt < p.m_nAllocCount) :
    p.Offers ↔ 0 ≤ p.m_nUseCnt ∧ p.m_nFlagArray p.m_nUseCnt.toNat = false := by
  have hplace : p.place = p.m_nUseCnt := if_neg (not_le.mpr hbelow)
  rw [CBMemPool.Offers, hplace]
  constructor
  · rintro ⟨-, -, huse, hfree⟩
    exact ⟨huse, hfree⟩
  · rintro ⟨huse, hfree⟩
    exact ⟨hbelow.ne, by omega, huse, hfree⟩

-- No round of `newMem` looks at another place than the first one.
theorem uses_free_iff (ptr sz : ℕ) (s : CBPoolSlot) (h : Reached ptr sz s) (pChunk : Option ℤ)
    (p : CBMemPool) :
    ((s.HasFree → Reuses s (s.newMem ptr pChunk)) ↔ ¬s.HasFree ∨ Finds s.asked) ∧
      ((p.m_nUseCnt < p.m_nAllocCount → FromPool p p.newMem) ↔ p.m_nAllocCount ≤ p.m_nUseCnt ∨
        0 ≤ p.m_nUseCnt ∧ p.m_nFlagArray p.m_nUseCnt.toNat = false) := by
  constructor
  · rw [reuses_iff ptr s pChunk (current_reached ptr sz s h)]
    exact imp_iff_not_or
  · rw [fromPool_iff, imp_iff_not_or, not_lt]
    by_cases hbelow : p.m_nUseCnt < p.m_nAllocCount
    · rw [offers_below_iff p hbelow]
    · exact iff_of_true (Or.inl (not_lt.mp hbelow)) (Or.inl (not_lt.mp hbelow))

/-- All of eight elements are taken, and the first one is given back. -/
def released : List Op := List.replicate 8 (.newMem none) ++ [.delMem 4096]

/-- One pool of eight elements. -/
def onePool : CBPoolSlot := ⟨[(CBMemPool.zeroed 8 4096).setBSlot true], slotListUnit, 0⟩

theorem runFrom_released : ∃ s, Runs.runFrom (op 8 8) onePool released = some s ∧
    s.m_pList.map (fun p => (p.m_nAllocCount, p.m_nFlagArray 0)) = [(8, false)] ∧
    (s.newMem 8 (some 8192)).toOption.map Prod.snd = some (some (1, 0)) := by
  have hrun : (Runs.runFrom (op 8 8) onePool released).map (fun s =>
      (s.m_pList.map (fun p => (p.m_nAllocCount, p.m_nFlagArray 0)),
        (s.newMem 8 (some 8192)).toOption.map Prod.snd)) =
      some ([(8, false)], some (some (1, 0))) := by decide +kernel
  obtain ⟨s, hs, heq⟩ := Option.map_eq_some_iff.mp hrun
  exact ⟨s, hs, Prod.mk.inj heq⟩

theorem uses_free_released : ∃ s, alloc 8 8 (some 4096) = .ok onePool ∧
    Runs.runFrom (op 8 8) onePool released = some s ∧
    ((s.HasFree → Reuses s (s.newMem 8 none)) ↔ ¬s.HasFree ∨ Finds s.asked) := by
  obtain ⟨s, hrun, -⟩ := runFrom_released
  exact ⟨s, rfl, hrun, (uses_free_iff 8 8 s ⟨8, 4096, onePool, released, by decide, rfl, hrun⟩ none
    (CBMemPool.zeroed 8 4096)).1⟩

-- The element that was given back is free, and `newMem` answers one of a new pool.
theorem not_reuses_released : ∃ s, alloc 8 8 (some 4096) = .ok onePool ∧
    Runs.runFrom (op 8 8) onePool released = some s ∧
    s.HasFree ∧ ¬Reuses s (s.newMem 8 (some 8192)) := by
  obtain ⟨s, hrun, hpools, hnew⟩ := runFrom_released
  obtain ⟨p, hp, hpool⟩ := List.map_eq_singleton_iff.mp hpools
  obtain ⟨hcount, hfree⟩ := Prod.mk.inj hpool
  refine ⟨s, rfl, hrun, ⟨p, hp ▸ List.mem_singleton_self p, 0, by omega, hfree⟩, ?_⟩
  rintro ⟨t, i, j, q, hr, hi, -⟩
  rw [hr] at hnew
  obtain ⟨rfl, -⟩ := Prod.mk.inj (Option.some.inj (Option.some.inj hnew))
  rw [hp] at hi
  cases hi

end CBPoolSlot

end Leviathan
