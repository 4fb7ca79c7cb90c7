import Leviathan.PoolSlot
import Leviathan.Runs
import Leviathan.Slots

/-! `CBPoolSlot` (comBMemPool.h) in the hands of a program that gives back what it was given: the
elements that are out at any time, and the walk over them. -/
namespace Leviathan

namespace CBMemPool

/-- A pool of a slot list: it has `n` elements and counts its set flags. -/
structure Sound (n : ℕ) (p : CBMemPool) : Prop where
  slot : p.m_bSlot = true
  count : p.m_nAllocCount = n
  use : p.m_nUseCnt = (Slots.marked n p.m_nFlagArray).card

section Sound

variable (n : ℕ) (p : CBMemPool) (h : p.Sound n)

theorem sound_zeroed (c : ℤ) : ((zeroed n c).setBSlot true).Sound n := by
  have hempty : Slots.marked n ((zeroed n c).setBSlot true).m_nFlagArray = ∅ :=
    Slots.marked_none n _ (fun _ _ => rfl)
  refine ⟨rfl, rfl, ?_⟩
  rw [hempty]
  rfl

include h

theorem use_le : 0 ≤ p.m_nUseCnt ∧ p.m_nUseCnt ≤ n := by
  have hle := Slots.card_marked_le n p.m_nFlagArray
  rw [h.use]
  omega

theorem not_faulty : ¬p.Faulty := by
  rintro ⟨-, hneg⟩
  have hle := use_le n p h
  omega

theorem sound_take (hn : n < 2^31) (j : ℕ) (hj : j < n) (hfree : p.m_nFlagArray j = false) :
    (p.take j).Sound n :=
  ⟨h.slot, h.count, Slots.count_set n _ j hj i32 (i32_upTo n hn) _ h.use hfree⟩

omit h in
theorem index_own (sz : ℕ) (hsz : 1 ≤ sz) (j : ℕ) (hj : j < 2^31) :
    i32 (ptrDiff sz (p.getMem sz j) p.m_pChunk) = j := by
  rw [getMem, ptrDiff_element sz hsz]
  exact i32_natCast j hj

/-- `delMem` of the element `j` of a pool. -/
theorem delMem_own (hn : n < 2^31) (sz : ℕ) (hsz : 1 ≤ sz) (j : ℕ) (hj : j < n)
    (hset : p.m_nFlagArray j = true) : ∃ q, p.delMem sz (p.getMem sz j) = (q, true) ∧ q.Sound n ∧
      q.m_pChunk = p.m_pChunk ∧ q.m_nFlagArray = Function.update p.m_nFlagArray j false := by
  have hidx := index_own p sz hsz j (hj.trans hn)
  have hinclude : isInclude j p.m_nAllocCount = true := by
    rw [isInclude_iff, h.count]
    omega
  rw [delMem, hidx, if_pos hinclude, Int.toNat_natCast]
  refine ⟨_, rfl, ⟨h.slot, h.count, ?_⟩, rfl, rfl⟩
  exact Slots.count_clear n _ j hj i32 (i32_upTo n hn) _ h.use hset

omit h in
-- A pointer whose index is none of the pool's.
theorem delMem_other (sz : ℕ) (a : ℤ)
    (hout : ¬isInclude (i32 (ptrDiff sz a p.m_pChunk)) p.m_nAllocCount = true) :
    p.delMem sz a = (p, false) := if_neg hout

end Sound

end CBMemPool

namespace CBPoolSlot

/-- What `newMem` can do: take a free element of a pool, take the first element of a new pool, or
nothing. -/
inductive Answers (s : CBPoolSlot) : CBPoolSlot → Option (ℕ × ℕ) → Prop
  | found (i j cur : ℕ) (p : CBMemPool) (hp : s.m_pList[i]? = some p) (hj : j < p.m_nAllocCount)
      (hfree : p.m_nFlagArray j = false) (hcur : cur < s.m_pList.length) :
      Answers s { s with m_pList := s.m_pList.set i (p.take j), m_nCurIdx := cur } (some (i, j))
  | grown (c : ℤ) (max : ℕ) (p : CBMemPool) (hp : s.m_pList[0]? = some p)
      (hmax : s.m_pList.length < max) :
      Answers s
        { s with
          m_pList := s.m_pList ++ [((CBMemPool.zeroed p.m_nAllocCount c).setBSlot true).take 0]
          m_nMax := max }
        (some (s.m_pList.length, 0))
  | none : Answers s s none

/-- The pools of a slot list that has asked for them all. -/
structure Sound (n : ℕ) (s : CBPoolSlot) : Prop where
  current : s.m_nCurIdx < s.m_pList.length
  room : s.m_pList.length ≤ s.m_nMax
  pools : ∀ p ∈ s.m_pList, p.Sound n

section NewMem

variable (ptr n : ℕ) (s : CBPoolSlot) (pChunk : Option ℤ) (hptr : ptr ≤ n) (hn : 1 ≤ n ∧ n < 2^31)
  (h : s.Sound n)

theorem offers_zeroed (c : ℤ) (hpos : 1 ≤ n) : ((CBMemPool.zeroed n c).setBSlot true).Offers ∧
    ((CBMemPool.zeroed n c).setBSlot true).place = 0 := by
  have hplace : ((CBMemPool.zeroed n c).setBSlot true).place = 0 := by
    rw [CBMemPool.place, if_neg]
    · rfl
    · exact not_le.mpr (Int.natCast_pos.mpr hpos)
  refine ⟨⟨?_, hpos, hplace.ge, rfl⟩, hplace⟩
  exact (Int.natCast_pos.mpr hpos).ne

theorem pushed_newMem (c : ℤ) (hpos : 1 ≤ n) (t : CBPoolSlot)
    (ht : t.m_pList = s.m_pList ++ [(CBMemPool.zeroed n c).setBSlot true]) :
    t.newIn s.m_pList.length = .ok ({ t with
      m_pList := s.m_pList ++ [((CBMemPool.zeroed n c).setBSlot true).take 0] }, some 0) := by
  obtain ⟨hoffers, hplace⟩ := offers_zeroed n c hpos
  have hlast : t.m_pList[s.m_pList.length]? = some ((CBMemPool.zeroed n c).setBSlot true) := by
    rw [ht, List.getElem?_concat_length]
  rw [newIn_offers t _ _ hlast hoffers, hplace, ht, List.set_append_right _ _ le_rfl, Nat.sub_self]
  rfl

-- `__alloc` puts a new pool at the end of the list, or does nothing.
theorem alloc_some (c : ℤ) (hptr : ptr ≤ n) (hpos : 1 ≤ n) (hroom : s.m_pList.length ≤ s.m_nMax) :
    s._alloc ptr n (some c) = .ok (s, 0) ∨ ∃ max, s.m_pList.length < max ∧ s._alloc ptr n (some c) =
      .ok ({ s with
        m_pList := s.m_pList ++ [(CBMemPool.zeroed n c).setBSlot true]
        m_nMax := max }, max) := by
  rw [_alloc, CBMemPool.alloc_eq ptr n c hptr, ok_bind, if_neg (Nat.one_le_iff_ne_zero.mp hpos), enter]
  split_ifs with hfull hshort
  · right
    refine ⟨s.m_nMax+slotListUnit, ?_, rfl⟩
    rw [← hfull]
    exact Nat.lt_add_of_pos_right (by decide)
  · exact Or.inl rfl
  · exact Or.inr ⟨s.m_nMax, hroom.lt_of_ne (Ne.symm hfull), rfl⟩

include hptr hn h

theorem grow_answers : ∃ t r, s.grow ptr pChunk = .ok (t, r) ∧ Answers s t r := by
  obtain ⟨p, hp⟩ : ∃ p, s.m_pList[0]? = some p :=
    ⟨_, List.getElem?_eq_getElem (Nat.zero_lt_of_lt h.current)⟩
  have hsound := h.pools p (List.mem_of_getElem? hp)
  have hpos : 1 ≤ p.m_nAllocCount := hsound.count ▸ hn.1
  rw [grow, hp]
  dsimp only
  cases pChunk with
  | none => exact ⟨s, none, rfl, Answers.none⟩
  | some c =>
    rcases alloc_some ptr p.m_nAllocCount s c (hsound.count ▸ hptr) hpos h.room with
      hfail | ⟨max, hmax, hgrown⟩
    · rw [hfail]
      exact ⟨s, none, rfl, Answers.none⟩
    · rw [hgrown, ok_bind, if_neg (Nat.ne_zero_of_lt hmax),
        pushed_newMem p.m_nAllocCount s c hpos _ rfl]
      exact ⟨_, _, rfl, Answers.grown c max p hp hmax⟩

omit hptr hn in
-- A pool answers one of its free elements, or nothing and is as before.
theorem newIn_cases (i : ℕ) (hi : i < s.m_pList.length) : s.newIn i = .ok (s, none) ∨
    ∃ j p, s.m_pList[i]? = some p ∧ j < p.m_nAllocCount ∧ p.m_nFlagArray j = false ∧
      s.newIn i = .ok ({ s with m_pList := s.m_pList.set i (p.take j) }, some j) := by
  obtain ⟨p, hp⟩ : ∃ p, s.m_pList[i]? = some p := ⟨_, List.getElem?_eq_getElem hi⟩
  by_cases hoffers : p.Offers
  · obtain ⟨hlt, hfree⟩ := offers_free p hoffers
    exact Or.inr ⟨p.place.toNat, p, hp, hlt, hfree, newIn_offers s i p hp hoffers⟩
  · have hfaulty := CBMemPool.not_faulty n p (h.pools p (List.mem_of_getElem? hp))
    exact Or.inl (newIn_none s i p hp hoffers hfaulty)

theorem newLoop_answers (k i : ℕ) (hk : i+k = s.m_pList.length) :
    ∃ t r, s.newLoop ptr pChunk k i = .ok (t, r) ∧ Answers s t r := by
  induction k generalizing i with
  | zero => exact grow_answers ptr n s pChunk hptr hn h
  | succ k ih =>
    have hi : i < s.m_pList.length := by omega
    rw [newLoop]
    rcases newIn_cases n s h i hi with hnone | ⟨j, p, hp, hj, hfree, hfound⟩
    · rw [hnone]
      exact ih (i+1) (by omega)
    · rw [hfound]
      exact ⟨_, _, rfl, Answers.found i j i p hp hj hfree hi⟩

theorem newMem_answers : ∃ t r, s.newMem ptr pChunk = .ok (t, r) ∧ Answers s t r := by
  rw [newMem]
  rcases newIn_cases n s h s.m_nCurIdx h.current with hnone | ⟨j, p, hp, hj, hfree, hfound⟩
  · rw [hnone]
    exact newLoop_answers ptr n s pChunk hptr hn h s.m_pList.length 0 (zero_add _)
  · rw [hfound]
    exact ⟨_, _, rfl, Answers.found _ j s.m_nCurIdx p hp hj hfree h.current⟩

omit hptr in
theorem sound_answers (t : CBPoolSlot) (r : Option (ℕ × ℕ)) (ht : Answers s t r) : t.Sound n := by
  cases ht with
  | none => exact h
  | found i j cur p hp hj hfree hcur =>
    have hsound := h.pools p (List.mem_of_getElem? hp)
    refine ⟨hcur.trans_eq (List.length_set ..).symm, (List.length_set ..).le.trans h.room, ?_⟩
    intro q hq
    rcases List.mem_or_eq_of_mem_set hq with hq | rfl
    · exact h.pools q hq
    · exact CBMemPool.sound_take n p hsound hn.2 j (hsound.count ▸ hj) hfree
  | grown c max p hp hmax =>
    have hsound := h.pools p (List.mem_of_getElem? hp)
    have hlen : (s.m_pList ++ [((CBMemPool.zeroed p.m_nAllocCount c).setBSlot true).take 0]).length =
        s.m_pList.length+1 := List.length_append
    refine ⟨(Nat.lt_succ_of_lt h.current).trans_eq hlen.symm, hlen.trans_le hmax, ?_⟩
    intro q hq
    rcases List.mem_append.mp hq with hq | hq
    · exact h.pools q hq
    · rw [List.mem_singleton.mp hq, hsound.count]
      exact CBMemPool.sound_take n _ (CBMemPool.sound_zeroed n c) hn.2 0 hn.1 rfl

end NewMem

/-- `&m_pList[i]->m_pChunk[j]`. -/
def addr (sz : ℕ) (s : CBPoolSlot) (e : ℕ × ℕ) : Option ℤ :=
  s.m_pList[e.1]?.map (fun p => p.getMem sz e.2)

/-- The index test of `delMem` succeeds for an element in no pool but its own. -/
def OwnPool (sz : ℕ) (s : CBPoolSlot) (e : ℕ × ℕ) : Prop :=
  ∀ a ∈ s.addr sz e, ∀ k q, s.m_pList[k]? = some q →
    isInclude (i32 (ptrDiff sz a q.m_pChunk)) q.m_nAllocCount = true → k = e.1

instance (sz : ℕ) (s : CBPoolSlot) (e : ℕ × ℕ) : Decidable (OwnPool sz s e) :=
  decidable_of_iff (∀ a ∈ s.addr sz e, ∀ k < s.m_pList.length, ∀ q ∈ s.m_pList[k]?,
      isInclude (i32 (ptrDiff sz a q.m_pChunk)) q.m_nAllocCount = true → k = e.1)
    ⟨fun h a ha k q hq => h a ha k (List.getElem?_eq_some_iff.mp hq).1 q hq,
      fun h a ha k _ q hq => h a ha k q hq⟩

/-- The element's flag is set. -/
def Taken (s : CBPoolSlot) (e : ℕ × ℕ) : Prop :=
  ∃ p, s.m_pList[e.1]? = some p ∧ e.2 < p.m_nAllocCount ∧ p.m_nFlagArray e.2 = true

section Taken

theorem taken_iff (s : CBPoolSlot) (i : ℕ) (p : CBMemPool) (hp : s.m_pList[i]? = some p) (j : ℕ) :
    s.Taken (i, j) ↔ j < p.m_nAllocCount ∧ p.m_nFlagArray j = true := by
  rw [Taken, hp]
  constructor
  · rintro ⟨q, hq, hset⟩
    obtain rfl := Option.some.inj hq
    exact hset
  · intro hset
    exact ⟨p, rfl, hset⟩

variable (s t : CBPoolSlot) (i : ℕ) (p q : CBMemPool) (hp : s.m_pList[i]? = some p)
variable (ht : t.m_pList = s.m_pList.set i q) (hcount : q.m_nAllocCount = p.m_nAllocCount) (j : ℕ)

include ht

theorem taken_other (k l : ℕ) (hk : k ≠ i) : t.Taken (k, l) ↔ s.Taken (k, l) := by
  rw [Taken, ht, List.getElem?_set_ne (Ne.symm hk)]
  rfl

include hp

theorem getElem?_own : t.m_pList[i]? = some q := by
  rw [ht, List.getElem?_set_self (List.getElem?_eq_some_iff.mp hp).1]

include hcount

theorem taken_set (hj : j < p.m_nAllocCount)
    (hflag : q.m_nFlagArray = Function.update p.m_nFlagArray j true) (e : ℕ × ℕ) :
    t.Taken e ↔ e = (i, j) ∨ s.Taken e := by
  obtain ⟨k, l⟩ := e
  rw [Prod.mk.injEq]
  by_cases hk : k = i
  · subst hk
    rw [taken_iff t k q (getElem?_own s t k p q hp ht), taken_iff s k p hp, hflag, hcount,
      Function.update_apply]
    by_cases hl : l = j
    · simp [hl, hj]
    · simp [hl]
  · rw [taken_other s t i q ht k l hk]
    simp [hk]

theorem taken_clear (hflag : q.m_nFlagArray = Function.update p.m_nFlagArray j false) (e : ℕ × ℕ) :
    t.Taken e ↔ e ≠ (i, j) ∧ s.Taken e := by
  obtain ⟨k, l⟩ := e
  rw [ne_eq, Prod.mk.injEq]
  by_cases hk : k = i
  · subst hk
    rw [taken_iff t k q (getElem?_own s t k p q hp ht), taken_iff s k p hp, hflag, hcount,
      Function.update_apply]
    by_cases hl : l = j
    · simp [hl]
    · simp [hl]
  · rw [taken_other s t i q ht k l hk]
    simp [hk]

end Taken

theorem not_taken_beyond (s : CBPoolSlot) (k l : ℕ) (hk : s.m_pList.length ≤ k) : ¬s.Taken (k, l) := by
  rintro ⟨p, hp, -⟩
  rw [List.getElem?_eq_none hk] at hp
  cases hp

theorem taken_append (s t : CBPoolSlot) (q : CBMemPool) (ht : t.m_pList = s.m_pList ++ [q])
    (hpos : 0 < q.m_nAllocCount) (hflag : q.m_nFlagArray = Function.update (fun _ => false) 0 true)
    (e : ℕ × ℕ) : t.Taken e ↔ e = (s.m_pList.length, 0) ∨ s.Taken e := by
  obtain ⟨k, l⟩ := e
  rw [Prod.mk.injEq]
  rcases lt_trichotomy k s.m_pList.length with hk | hk | hk
  · have hold : t.Taken (k, l) ↔ s.Taken (k, l) := by
      rw [Taken, ht, List.getElem?_append_left hk]
      rfl
    simp [hold, hk.ne]
  · have hlast : t.m_pList[k]? = some q := by
      rw [ht, hk, List.getElem?_concat_length]
    rw [taken_iff t k q hlast, hflag, Function.update_apply]
    have hbeyond := not_taken_beyond s k l hk.ge
    by_cases hl : l = 0
    · simp [hl, hk, hpos]
    · simp [hl, hbeyond]
  · have hlen : t.m_pList.length ≤ k := by
      rw [ht, List.length_append]
      exact hk
    have hbeyond := not_taken_beyond s k l hk.le
    simp [not_taken_beyond t k l hlen, hbeyond, hk.ne']

-- What `newMem` answers was free, and is the only element that is new among the taken ones.
theorem taken_answers (s t : CBPoolSlot) (r : Option (ℕ × ℕ)) (ht : Answers s t r)
    (hpos : ∀ p ∈ s.m_pList, 1 ≤ p.m_nAllocCount) (e : ℕ × ℕ) :
    (t.Taken e ↔ r = some e ∨ s.Taken e) ∧ (r = some e → ¬s.Taken e) := by
  cases ht with
  | none => exact ⟨⟨Or.inr, fun h => h.resolve_left nofun⟩, nofun⟩
  | found i j cur p hp hj hfree hcur =>
    constructor
    · rw [taken_set s _ i p (p.take j) hp rfl rfl j hj rfl e, Option.some.injEq]
      exact or_congr_left eq_comm
    · intro he htaken
      rw [← Option.some.inj he, taken_iff s i p hp, hfree] at htaken
      exact Bool.false_ne_true htaken.2
  | grown c max p hp hmax =>
    have hcount := hpos p (List.mem_of_getElem? hp)
    constructor
    · rw [taken_append s _ (((CBMemPool.zeroed p.m_nAllocCount c).setBSlot true).take 0) rfl hcount rfl e,
        Option.some.injEq]
      exact or_congr_left eq_comm
    · intro he
      rw [← Option.some.inj he]
      exact not_taken_beyond s _ 0 le_rfl

section DelMem

variable (n : ℕ) (s : CBPoolSlot) (hn : n < 2^31) (h : s.Sound n) (sz : ℕ) (hsz : 1 ≤ sz)
variable (i j : ℕ) (p : CBMemPool) (hp : s.m_pList[i]? = some p)

include hp

-- The pools in front of the element's own one do not know it.
theorem delLoop_own (a : ℤ) (q : CBMemPool) (hq : p.delMem sz a = (q, true))
    (hothers : ∀ k r, s.m_pList[k]? = some r →
      isInclude (i32 (ptrDiff sz a r.m_pChunk)) r.m_nAllocCount = true → k = i)
    (k start : ℕ) (hstart : start ≤ i) (hk : start+k = s.m_pList.length) : s.delLoop sz a k start =
      ({ s with m_pList := s.m_pList.set i q, m_nCurIdx := i }, true) := by
  have hi := (List.getElem?_eq_some_iff.mp hp).1
  induction k generalizing start with
  | zero => omega
  | succ k ih =>
    rcases hstart.lt_or_eq with hbefore | rfl
    · obtain ⟨r, hr⟩ : ∃ r, s.m_pList[start]? = some r := ⟨_, List.getElem?_eq_getElem (by omega)⟩
      have hother := CBMemPool.delMem_other r sz a (fun hin => hbefore.ne (hothers start r hr hin))
      rw [delLoop, hr]
      dsimp only
      rw [hother]
      exact ih (start+1) hbefore (by omega)
    · rw [delLoop, hp]
      dsimp only
      rw [hq]
      rfl

include hn h hsz

theorem delMem_taken (htaken : s.Taken (i, j)) (hown : OwnPool sz s (i, j)) :
    ∃ q, s.delMem sz (p.getMem sz j) =
        ({ s with m_pList := s.m_pList.set i q, m_nCurIdx := i }, true) ∧
      q.Sound n ∧ q.m_nFlagArray = Function.update p.m_nFlagArray j false := by
  have hsound := h.pools p (List.mem_of_getElem? hp)
  obtain ⟨hj, hset⟩ := (taken_iff s i p hp j).mp htaken
  obtain ⟨q, hq, hqsound, -, hflag⟩ :=
    CBMemPool.delMem_own n p hsound hn sz hsz j (hsound.count ▸ hj) hset
  have haddr : p.getMem sz j ∈ s.addr sz (i, j) := by
    rw [addr, hp]
    rfl
  refine ⟨q, ?_, hqsound, hflag⟩
  exact delLoop_own s sz i p hp _ q hq (hown _ haddr) _ 0 (Nat.zero_le i) (zero_add _)

end DelMem

/-- A program with a slot list, and the elements that are out. -/
structure Client where
  list : CBPoolSlot
  live : Finset (ℕ × ℕ)

inductive Call where
  | newMem (pChunk : Option ℤ)
  | delMem (e : ℕ × ℕ)
  deriving DecidableEq

namespace Client

/-- One call, for elements of `sz` bytes. -/
def step (ptr sz : ℕ) (k : Client) : Call → Option Client
  | .newMem pChunk =>
    match k.list.newMem ptr pChunk with
    | .ok (s, e) => some { list := s, live := k.live ∪ e.toFinset }
    | .error _ => none
  | .delMem e =>
    (k.list.addr sz e).map (fun a => { list := (k.list.delMem sz a).1, live := k.live.erase e })

/-- Only elements that are out are given back. -/
def Allowed (sz : ℕ) (k : Client) : Call → Prop
  | .newMem _ => True
  | .delMem e => e ∈ k.live ∧ OwnPool sz k.list e

instance (sz : ℕ) (k : Client) : (o : Call) → Decidable (Allowed sz k o)
  | .newMem _ => isTrue trivial
  | .delMem e => inferInstanceAs (Decidable (e ∈ k.live ∧ OwnPool sz k.list e))

/-- The elements that are out are those of the set flags. -/
structure Sound (n : ℕ) (k : Client) : Prop where
  list : k.list.Sound n
  live : ∀ e, e ∈ k.live ↔ k.list.Taken e

-- The step lemma.
theorem sound_step (ptr n : ℕ) (hptr : ptr ≤ n) (hn : 1 ≤ n ∧ n < 2^31) (sz : ℕ) (hsz : 1 ≤ sz)
    (k : Client) (o : Call) (k' : Client) (h : k.Sound n) (hallowed : Allowed sz k o)
    (hk : k.step ptr sz o = some k') :
    k'.Sound n := by
  cases o with
  | newMem pChunk =>
    obtain ⟨t, r, hr, ht⟩ := newMem_answers ptr n k.list pChunk hptr hn h.list
    rw [step, hr] at hk
    obtain rfl := Option.some.inj hk
    refine ⟨sound_answers n k.list hn h.list t r ht, fun e => ?_⟩
    have hpos : ∀ p ∈ k.list.m_pList, 1 ≤ p.m_nAllocCount := by
      intro p hp
      exact (h.list.pools p hp).count.symm ▸ hn.1
    rw [(taken_answers k.list t r ht hpos e).1, ← h.live, Finset.mem_union, Option.mem_toFinset,
      Option.mem_def, or_comm]
  | delMem e =>
    obtain ⟨i, j⟩ := e
    obtain ⟨hlive, hown⟩ := hallowed
    have htaken := (h.live (i, j)).mp hlive
    obtain ⟨p, hp, -⟩ := id htaken
    obtain ⟨q, hq, hqsound, hflag⟩ := delMem_taken n k.list hn.2 h.list sz hsz i j p hp htaken hown
    have hsound := h.list.pools p (List.mem_of_getElem? hp)
    have hcount : q.m_nAllocCount = p.m_nAllocCount := hqsound.count.trans hsound.count.symm
    rw [step, addr, hp, Option.map_some, Option.map_some, hq] at hk
    obtain rfl := Option.some.inj hk
    constructor
    · refine ⟨?_, (List.length_set ..).le.trans h.list.room, fun r hr => ?_⟩
      · exact (List.getElem?_eq_some_iff.mp hp).1.trans_eq (List.length_set ..).symm
      · rcases List.mem_or_eq_of_mem_set hr with hr | rfl
        · exact h.list.pools r hr
        · exact hqsound
    · intro e
      rw [taken_clear k.list _ i p q hp rfl hcount j hflag e, Finset.mem_erase, h.live]

end Client

/-- The order of the elements in the walk. -/
def Before (a b : ℕ × ℕ) : Prop := a.1 < b.1 ∨ a.1 = b.1 ∧ a.2 < b.2

/-- `getSlotNext`, with the element that it answers. -/
def nextElement (s : CBPoolSlot) (q : ℕ × ℕ) : Option ((ℕ × ℕ) × ℕ × ℕ) :=
  (s.getSlotNext q.1 q.2).map (fun e => (e, e))

section Walk

variable (n : ℕ) (s : CBPoolSlot)

/-- The flags of pool `i`. -/
def flags (i : ℕ) : ℕ → Bool :=
  match s.m_pList[i]? with
  | some p => p.m_nFlagArray
  | none => fun _ => false

/-- The taken elements of a list of pools with `n` elements each, in the order of the walk. -/
def elements : List (ℕ × ℕ) := (List.range' 0 s.m_pList.length).flatMap (fun i =>
  (Slots.contents n (fun j => if s.flags i j then some j else none)).map (i, ·))

theorem flags_eq (i : ℕ) (p : CBMemPool) (hp : s.m_pList[i]? = some p) : s.flags i = p.m_nFlagArray := by
  rw [flags, hp]

theorem mem_elements (h : ∀ p ∈ s.m_pList, p.m_nAllocCount = n) (e : ℕ × ℕ) :
    e ∈ s.elements n ↔ s.Taken e := by
  obtain ⟨i, j⟩ := e
  rw [elements, List.mem_flatMap]
  simp only [List.mem_map, Slots.mem_contents, List.mem_range'_1]
  constructor
  · rintro ⟨i', hi, j', ⟨l, hl, hset⟩, he⟩
    obtain ⟨rfl, rfl⟩ := Prod.mk.inj he
    obtain ⟨p, hp⟩ : ∃ p, s.m_pList[i']? = some p := ⟨_, List.getElem?_eq_getElem (by omega)⟩
    split_ifs at hset with hflag
    obtain rfl := Option.some.inj hset
    rw [taken_iff s i' p hp, h p (List.mem_of_getElem? hp), ← flags_eq s i' p hp]
    exact ⟨hl, hflag⟩
  · rintro ⟨p, hp, hj, hset⟩
    have hi := (List.getElem?_eq_some_iff.mp hp).1
    refine ⟨i, ⟨Nat.zero_le i, hi.trans_eq (zero_add _).symm⟩, j, ⟨j, ?_, ?_⟩, rfl⟩
    · exact h p (List.mem_of_getElem? hp) ▸ hj
    · rw [flags_eq s i p hp, hset]
      rfl

theorem sorted_elements : (s.elements n).Pairwise Before := by
  rw [elements, List.pairwise_flatMap]
  constructor
  · intro i _
    apply List.Pairwise.map _ _ (Slots.sorted_flags n (s.flags i))
    intro a b hab
    exact Or.inr ⟨rfl, hab⟩
  · apply List.Pairwise.imp _ (List.pairwise_lt_range' 1)
    intro i k hik a ha b hb
    obtain ⟨_, -, rfl⟩ := List.mem_map.mp ha
    obtain ⟨_, -, rfl⟩ := List.mem_map.mp hb
    exact Or.inl hik

theorem slotNext_eq (i j : ℕ) (p : CBMemPool) (hp : s.m_pList[i]? = some p) :
    s.getSlotNext i j =
      match p.getNext j with
      | some (l, _) => some (i, l)
      | none => s.getSlotNext (i+1) 0 := by
  have hi := (List.getElem?_eq_some_iff.mp hp).1
  have hrest : s.m_pList.length-i = (s.m_pList.length-(i+1))+1 := by omega
  rw [getSlotNext, hrest, slotNextFrom, hp]
  rfl

theorem visits_elements (h : ∀ p ∈ s.m_pList, p.m_nAllocCount = n) :
    Slots.Visits s.nextElement (fun q => (q.1, q.2+1)) (0, 0) (s.elements n) := by
  apply Slots.visits_rows (fun i => Slots.next n (fun j => if s.flags i j then some j else none))
    s.nextElement s.m_pList.length _ _ _ _ _ 0 (zero_add _)
  · intro i hi j
    obtain ⟨p, hp⟩ : ∃ p, s.m_pList[i]? = some p := ⟨_, List.getElem?_eq_getElem hi⟩
    rw [nextElement, slotNext_eq s i j p hp, CBMemPool.getNext, h p (List.mem_of_getElem? hp),
      flags_eq s i p hp]
    cases hnext : Slots.next n (fun j => if p.m_nFlagArray j then some j else none) j with
    | none => rfl
    | some r =>
      -- an element is found in the place of its own number
      obtain ⟨l, a⟩ := r
      obtain ⟨-, hcell⟩ := Slots.next_some n _ j l a hnext
      split_ifs at hcell
      obtain rfl := Option.some.inj hcell
      rfl
  · rw [nextElement, getSlotNext, Nat.sub_self]
    rfl
  · intro i _
    exact Slots.visits_contents n _

end Walk

/-- All pools of `s` are those of `t`, with their elements; a longer list has one pool more. -/
structure Kept (s t : CBPoolSlot) : Prop where
  pools : ∀ (i : ℕ) (p : CBMemPool), s.m_pList[i]? = some p → ∃ q : CBMemPool, t.m_pList[i]? = some q ∧
    q.m_pChunk = p.m_pChunk ∧ q.m_nAllocCount = p.m_nAllocCount ∧
    ∀ j, p.m_nFlagArray j = true → q.m_nFlagArray j = true
  grown : s.m_pList.length < t.m_pList.length → ∃ q, t.m_pList = s.m_pList ++ [q]

theorem kept_answers (s t : CBPoolSlot) (r : Option (ℕ × ℕ)) (ht : Answers s t r) : Kept s t := by
  cases ht with
  | none => exact ⟨fun i p hp => ⟨p, hp, rfl, rfl, fun _ => id⟩, fun hlt => absurd hlt (lt_irrefl _)⟩
  | found i j cur p hp hj hfree hcur =>
    refine ⟨fun k q hq => ?_, fun hlt => absurd hlt (List.length_set ..).not_gt⟩
    by_cases hk : k = i
    · subst hk
      obtain rfl := Option.some.inj (hp.symm.trans hq)
      refine ⟨p.take j, List.getElem?_set_self (List.getElem?_eq_some_iff.mp hp).1, rfl, rfl, ?_⟩
      intro l hset
      have hupdate := Function.update_apply p.m_nFlagArray j true l
      rwa [hset, ite_self] at hupdate
    · exact ⟨q, (List.getElem?_set_ne (Ne.symm hk)).trans hq, rfl, rfl, fun _ => id⟩
  | grown c max p hp hmax =>
    refine ⟨fun k q hq => ⟨q, ?_, rfl, rfl, fun _ => id⟩, fun _ => ⟨_, rfl⟩⟩
    exact (List.getElem?_append_left (List.getElem?_eq_some_iff.mp hq).1).trans hq

-- Two elements have two addresses.
theorem addr_ne (n : ℕ) (hn : n < 2^31) (s : CBPoolSlot) (h : s.Sound n) (sz : ℕ) (hsz : 1 ≤ sz)
    (e l : ℕ × ℕ) (he : s.Taken e) (hl : s.Taken l) (hne : e ≠ l) (hown : OwnPool sz s l) :
    s.addr sz e ≠ s.addr sz l := by
  obtain ⟨i, j⟩ := e
  obtain ⟨i', j'⟩ := l
  obtain ⟨p, hp, hj, -⟩ := he
  obtain ⟨p', hp', -, -⟩ := hl
  dsimp only at hp hj hp'
  have hsound := h.pools p (List.mem_of_getElem? hp)
  have haddr : s.addr sz (i, j) = some (p.getMem sz j) := by
    rw [addr, hp]
    rfl
  have haddr' : s.addr sz (i', j') = some (p'.getMem sz j') := by
    rw [addr, hp']
    rfl
  intro hsame
  have hinclude : isInclude (i32 (ptrDiff sz (p.getMem sz j) p.m_pChunk)) p.m_nAllocCount = true := by
    rw [CBMemPool.index_own p sz hsz j (by have hcount := hsound.count; omega), isInclude_iff]
    omega
  obtain rfl : i = i' := hown _ (hsame ▸ haddr) i p hp hinclude
  obtain rfl := Option.some.inj (hp.symm.trans hp')
  rw [haddr, haddr', Option.some.injEq] at hsame
  apply hne
  have hmul : (j*sz : ℤ) = j'*sz := add_left_cancel hsame
  have hj' : (j : ℤ) = j' := mul_right_cancel₀ (by omega) hmul
  exact Prod.ext rfl (by exact_mod_cast hj')

namespace Client

/-- What holds between two calls: `newMem` answers no element that is out and keeps all pools, every
pool counts its set flags, and the walk finds the elements that are out, each of them once. -/
structure Right (ptr sz : ℕ) (k : Client) : Prop where
  fresh : ∀ pChunk, ∃ t r, k.list.newMem ptr pChunk = .ok (t, r) ∧ Kept k.list t ∧ ∀ e, r = some e →
    e ∉ k.live ∧ ∀ l ∈ k.live, OwnPool sz t l → t.addr sz e ≠ t.addr sz l
  use : ∀ p ∈ k.list.m_pList,
    p.m_nUseCnt = (Slots.marked p.m_nAllocCount p.m_nFlagArray).card
  walk : ∃ xs, Slots.Visits k.list.nextElement (fun q => (q.1, q.2+1)) (0, 0) xs ∧
    xs.Pairwise Before ∧ ∀ e, e ∈ xs ↔ e ∈ k.live

theorem right_of_sound (ptr n : ℕ) (hptr : ptr ≤ n) (hn : 1 ≤ n ∧ n < 2^31) (sz : ℕ) (hsz : 1 ≤ sz)
    (k : Client) (h : k.Sound n) : k.Right ptr sz := by
  have hcount : ∀ p ∈ k.list.m_pList, p.m_nAllocCount = n := fun p hp => (h.list.pools p hp).count
  constructor
  · intro pChunk
    obtain ⟨t, r, hr, ht⟩ := newMem_answers ptr n k.list pChunk hptr hn h.list
    refine ⟨t, r, hr, kept_answers _ _ _ ht, fun e he => ?_⟩
    have hpos : ∀ p ∈ k.list.m_pList, 1 ≤ p.m_nAllocCount := fun p hp => (hcount p hp).symm ▸ hn.1
    have htaken (e : ℕ × ℕ) := taken_answers k.list t r ht hpos e
    have hfree : e ∉ k.live := fun hlive => (htaken e).2 he ((h.live e).mp hlive)
    refine ⟨hfree, fun l hl hown => ?_⟩
    have hlive := (htaken l).1.mpr (Or.inr ((h.live l).mp hl))
    have hne : e ≠ l := fun hel => hfree (hel ▸ hl)
    exact addr_ne n hn.2 t (sound_answers n k.list hn h.list t r ht) sz hsz e l
      ((htaken e).1.mpr (Or.inl he)) hlive hne hown
  · intro p hp
    rw [hcount p hp]
    exact (h.list.pools p hp).use
  · refine ⟨k.list.elements n, visits_elements n k.list hcount, sorted_elements n k.list, fun e => ?_⟩
    rw [mem_elements n k.list hcount, h.live]

theorem sound_alloc (ptr n : ℕ) (hn : 1 ≤ n) (c : ℤ) (start : CBPoolSlot)
    (hstart : alloc ptr n (some c) = .ok start) : Sound n ⟨start, ∅⟩ := by
  obtain ⟨r, hr, rfl⟩ := (map_eq_ok _ _ _).mp hstart
  obtain ⟨pPool, hpool, hr⟩ := (bind_eq_ok _ _ _).mp hr
  rw [if_neg (Nat.one_le_iff_ne_zero.mp hn)] at hr
  obtain rfl := Except.ok.inj hr
  rw [CBMemPool.alloc] at hpool
  split_ifs at hpool
  obtain rfl := Except.ok.inj hpool
  constructor
  · refine ⟨Nat.zero_lt_one, Nat.le_add_left 1 9, fun p hp => ?_⟩
    rw [List.mem_singleton.mp hp]
    exact CBMemPool.sound_zeroed n c
  · intro e
    refine iff_of_false (Finset.notMem_empty e) ?_
    rintro ⟨p, hp, -, hset⟩
    rw [List.mem_singleton.mp (List.mem_of_getElem? hp)] at hset
    exact Bool.false_ne_true hset

/-- All along what a program asks for and gives back, no element is handed out twice, in the states
that are reached from `start`. -/
def AlwaysRight (ptr sz : ℕ) (start : CBPoolSlot) (calls : List Call) : Prop :=
  Runs.Along (step ptr sz) (Allowed sz) ⟨start, ∅⟩ calls →
    ∀ k, Runs.runFrom (step ptr sz) ⟨start, ∅⟩ calls = some k → k.Right ptr sz

/-- `alloc` stays in its arrays, and whatever a program asks for and gives back then, no element is handed
out twice, exactly when there are as many elements as a pointer has bytes. -/
theorem elements_distinct_iff (ptr sz n : ℕ) (c : ℤ) (hsz : 1 ≤ sz) (hn : 1 ≤ n ∧ n < 2^31)
    (calls : List Call) :
    (∃ start, alloc ptr n (some c) = .ok start ∧ AlwaysRight ptr sz start calls) ↔ ptr ≤ n := by
  constructor
  · rintro ⟨start, hstart, -⟩
    exact (alloc_ok_iff ptr n c).mp ⟨start, hstart⟩
  · intro hptr
    obtain ⟨start, hstart⟩ := (alloc_ok_iff ptr n c).mpr hptr
    refine ⟨start, hstart, fun hallowed k hrun => ?_⟩
    apply right_of_sound ptr n hptr hn sz hsz k
    apply Runs.runFrom_guarded_invariant (step ptr sz) (Allowed sz) (Sound n) _ _ k calls
      (sound_alloc ptr n hn.1 c start hstart) hallowed hrun
    intro k o k' h ho hk
    exact sound_step ptr n hptr hn sz hsz k o k' h ho hk

/-- Nine elements of 8 bytes, the last one from a second pool, which is given back. -/
def growing : List Call := List.replicate 8 (.newMem none) ++ [.newMem (some 8192), .delMem (1, 0)]

theorem elements_distinct_iff_growing : ∃ k : Client, alloc 8 8 (some 4096) = .ok onePool ∧
    Runs.runFrom (step 8 8) ⟨onePool, ∅⟩ growing = some k ∧ k.Right 8 8 := by
  obtain ⟨start, hstart, hright⟩ :=
    (elements_distinct_iff 8 8 8 4096 (by decide) (by decide) growing).mpr le_rfl
  obtain rfl : onePool = start := Except.ok.inj hstart
  have hrun : (Runs.runFrom (step 8 8) ⟨onePool, ∅⟩ growing).isSome := by decide +kernel
  obtain ⟨k, hk⟩ := Option.isSome_iff_exists.mp hrun
  exact ⟨k, rfl, hk, hright (by decide +kernel) k hk⟩

/-- Two elements: of the eight flags that are cleared six lie behind the array. -/
theorem not_elements_distinct_two : ¬∃ start, alloc 8 2 (some 4096) = .ok start ∧
    AlwaysRight 8 8 start [] := by
  rintro ⟨start, hstart, -⟩
  cases hstart

end Client

end CBPoolSlot

end Leviathan
