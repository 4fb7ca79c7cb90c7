import Leviathan.PushBack
import Leviathan.QueueFifo
import Leviathan.RingQueue

/-! What comes out of `CQueueS` (comQueue.h, comQueue.cpp).  The ring that `alloc` makes is not in
`m_pQueueList`, so the first `nMaxCount` elements stay in it; when it is full, `push` goes on to rings of
twice the size that are in the list, and `pop` takes from the oldest of these. -/
namespace Leviathan

namespace CSList

variable {β : Type}

/-- The slots behind the first `gone` ones hold `xs`, in an array that `alloc(12)` made. -/
structure Listed (l : CSList β) (gone : ℕ) (xs : List β) : Prop where
  min : 12 ≤ l.m_nMax
  length : l.m_pArray.length = l.m_nMax
  use : l.m_nUse = xs.length
  last : l.m_nLast = gone+xs.length
  le_max : gone+xs.length ≤ l.m_nMax
  slot : ∀ i, l.slot i = if i < gone then none else xs[i-gone]?

theorem listed_alloc (type : EAllocType) : Listed ((init : CSList β).alloc 12 type true) 0 [] := by
  have hempty : Holds ((init : CSList β).alloc 12 type true) [] := holds_alloc 12 type
  obtain ⟨⟨hlength, huse, hlast, -, -, hle⟩, hslot⟩ := hempty
  exact ⟨le_rfl, hlength, huse, hlast, hle, fun i => (hslot i).trans rfl⟩

theorem getNextLoop_skip (l : CSList β) (k i j : ℕ) (p : β) (hj : j < k)
    (hfree : ∀ m < j, l.slot (i+m) = none) (hp : l.slot (i+j) = some p) :
    l.getNextLoop k i = (i+j, some p) := by
  induction j generalizing k i with
  | zero =>
    obtain ⟨k, rfl⟩ : ∃ m, k = m+1 := ⟨k-1, by omega⟩
    rw [Nat.add_zero] at hp
    simp only [getNextLoop, hp, Nat.add_zero]
  | succ j ih =>
    obtain ⟨k, rfl⟩ : ∃ m, k = m+1 := ⟨k-1, by omega⟩
    have hhead : l.slot i = none := hfree 0 (Nat.succ_pos j)
    have hindex : i+(j+1) = i+1+j := by omega
    rw [hindex] at hp ⊢
    simp only [getNextLoop, hhead]
    refine ih k (i+1) (by omega) (fun m hm => ?_) hp
    have hslot := hfree (m+1) (by omega)
    rwa [show i+(m+1) = i+1+m by omega] at hslot

variable (l : CSList β) (gone : ℕ)

theorem Listed.getNext {x : β} {xs : List β} (h : Listed l gone (x :: xs)) :
    l.getNext 0 = (gone, some x) := by
  have hle := h.le_max
  have hlen : (x :: xs).length = xs.length+1 := List.length_cons
  have hloop := l.getNextLoop_skip l.m_nMax 0 gone x (by omega) (fun m hm => ?_) ?_
  · rw [Nat.zero_add] at hloop
    exact hloop
  · rw [Nat.zero_add, h.slot, if_pos hm]
  · rw [Nat.zero_add, h.slot, if_neg (lt_irrefl gone), Nat.sub_self]
    rfl

theorem Listed.getNext_nil (h : Listed l gone ([] : List β)) : (l.getNext 0).2 = none := by
  refine l.getNext_empty (fun i => ?_) 0
  rw [h.slot]
  split_ifs <;> rfl

-- `push_back` stores behind the last slot, unless it reads behind the array.
theorem Listed.pushBackInt {xs : List β} (h : Listed l gone xs) (x : β) (l' : CSList β) (r : Option ℕ)
    (hpush : l.pushBackInt x true = .ok (l', r)) : Listed l' gone (xs ++ [x]) := by
  have hlen : (xs ++ [x]).length = xs.length+1 := List.length_append
  -- the store behind the last element, in an array that has room for it
  have hput (m : CSList β) (hm : Listed m gone xs) (hlt : gone+xs.length < m.m_nMax) :
      Listed (m.addSuccess (gone+xs.length) x) gone (xs ++ [x]) := by
    refine ⟨hm.min, (List.length_set ..).trans hm.length, ?_, ?_, ?_, fun i => ?_⟩
    · show m.m_nUse+1 = _
      rw [hm.use, hlen]
      push_cast
      rfl
    · show m.m_nLast+1 = _
      rw [hm.last, hlen, Nat.add_assoc]
    · rw [hlen]
      exact hlt
    · refine (slot_set m _ i (some x) (hm.length ▸ hlt)).trans ?_
      rw [hm.slot]
      by_cases hi : i = gone+xs.length
      · rw [if_pos hi, hi, if_neg (by omega), Nat.add_sub_cancel_left, List.getElem?_concat_length]
      · rw [if_neg hi]
        split_ifs with hgone
        · rfl
        · rcases lt_or_ge (i-gone) xs.length with hin | hout
          · rw [List.getElem?_append_left hin]
          · rw [List.getElem?_eq_none hout, List.getElem?_eq_none (by omega)]
  by_cases hfull : (l.m_nMax : ℤ) ≤ l.m_nUse
  · -- every slot is taken, so none of them is gone
    have huse := h.use
    have hle := h.le_max
    obtain ⟨rfl, hmax⟩ : gone = 0 ∧ xs.length = l.m_nMax := by omega
    rw [pushBackInt_full l x true hfull, if_pos rfl] at hpush
    obtain ⟨rfl, -⟩ := Prod.mk.inj (Except.ok.inj hpush)
    have hgrown : Listed { l with
        m_pArray := l.m_pArray ++ List.replicate unitAddSize none
        m_nMax := l.m_nMax+unitAddSize } 0 xs := by
      refine ⟨h.min.trans (Nat.le_add_right _ _), ?_, h.use, h.last,
        h.le_max.trans (Nat.le_add_right _ _), fun i => ?_⟩
      · show (l.m_pArray ++ List.replicate unitAddSize none).length = l.m_nMax+unitAddSize
        rw [List.length_append, List.length_replicate, h.length]
      · exact (slot_append_none l.m_pArray _ i).trans (h.slot i)
    have hlt : 0+xs.length < l.m_nMax+unitAddSize := by
      rw [unitAddSize]
      omega
    have hstored := hput _ hgrown hlt
    rwa [Nat.zero_add, hmax] at hstored
  · rw [CSList.pushBackInt, if_neg hfull] at hpush
    split_ifs at hpush with hout hfree
    · obtain ⟨rfl, -⟩ := Prod.mk.inj (Except.ok.inj hpush)
      rw [h.last] at hout ⊢
      exact hput l h (not_le.mp hout)
    · -- the slot at `m_nLast` is free, so no other one is looked for
      have hnone : l.slot l.m_nLast = none := by
        rw [h.last, h.slot, if_neg (by omega), Nat.add_sub_cancel_left]
        exact List.getElem?_eq_none le_rfl
      rw [hnone] at hfree
      exact absurd rfl hfree

theorem Listed.pushBackInt_ok {xs : List β} (h : Listed l gone xs) (x : β)
    (hroom : gone+xs.length < l.m_nMax) : ∃ p, l.pushBackInt x true = .ok p := by
  have hfull : ¬(l.m_nMax : ℤ) ≤ l.m_nUse := by
    rw [h.use]
    omega
  have hnone : (l.slot l.m_nLast).isNone = true := by
    rw [h.last, h.slot, if_neg (by omega), Nat.add_sub_cancel_left, List.getElem?_eq_none le_rfl]
    rfl
  rw [CSList.pushBackInt, if_neg hfull, if_neg (by rw [h.last]; omega), if_pos hnone]
  exact ⟨_, rfl⟩

theorem Listed.del {x : β} {xs : List β} (h : Listed l gone (x :: xs)) (bDeepDelete : Bool) :
    Listed (l.delAt gone bDeepDelete).1 (gone+1) xs := by
  have hlen : (x :: xs).length = xs.length+1 := List.length_cons
  have hle := h.le_max
  have hin : isInclude (gone : ℤ) l.m_nMax = true := (isInclude_iff _ _).mpr ⟨by omega, by omega⟩
  rw [delAt, if_pos hin]
  refine ⟨h.min, (List.length_set ..).trans h.length, ?_, ?_, ?_, fun i => ?_⟩
  · show l.m_nUse-1 = _
    rw [h.use, hlen]
    push_cast
    ring
  · refine h.last.trans ?_
    omega
  · show gone+1+xs.length ≤ l.m_nMax
    omega
  · refine (slot_set l _ i none ?_).trans ?_
    · rw [h.length]
      omega
    · rw [h.slot, Int.toNat_natCast]
      rcases lt_trichotomy i gone with hlt | rfl | hgt
      · rw [if_neg hlt.ne, if_pos hlt, if_pos (by omega)]
      · rw [if_pos rfl, if_pos (by omega)]
      · rw [if_neg hgt.ne', if_neg (by omega), if_neg (by omega), show i-gone = i-(gone+1)+1 by omega,
          List.getElem?_cons_succ]

end CSList

namespace CQueueS

variable {α : Type}

/-- What the rings hold: the ring that `alloc` made, and, once it has been full, the rings of the list, of
which `gone` have been deleted and `cur` is the newest. -/
inductive Backlog (α : Type)
  | first (kept : List α)
  | listed (kept : List α) (gone : ℕ) (olds : List (List α)) (cur : List α)

namespace Backlog

/-- The size of the newest ring in the list doubles with each ring. -/
def push (n : ℕ) (x : α) : Backlog α → Backlog α
  | .first kept => if kept.length = n then .listed kept 0 [] [x] else .first (kept ++ [x])
  | .listed kept gone olds cur =>
    if cur.length = n*2^(gone+olds.length+1) then .listed kept gone (olds ++ [cur]) [x]
    else .listed kept gone olds (cur ++ [x])

/-- A ring that is found empty is deleted, and NULL is the answer, unless it is the only one. -/
def pop : Backlog α → Backlog α × Option α
  | .first kept => (.first kept, none)
  | .listed kept gone [] [] => (.listed kept gone [] [], none)
  | .listed kept gone [] (x :: cur) => (.listed kept gone [] cur, some x)
  | .listed kept gone ([] :: olds) cur => (.listed kept (gone+1) olds cur, none)
  | .listed kept gone ((x :: xs) :: olds) cur => (.listed kept gone (xs :: olds) cur, some x)

def kept : Backlog α → List α
  | .first kept => kept
  | .listed kept _ _ _ => kept

/-- What later pops can find. -/
def waiting : Backlog α → List α
  | .first _ => []
  | .listed _ _ olds cur => olds.flatten ++ cur

/-- The rings that have been entered in the list, and those that have been deleted from it. -/
def rings : Backlog α → ℕ
  | .first _ => 0
  | .listed _ gone olds _ => gone+olds.length+1

def gone : Backlog α → ℕ
  | .first _ => 0
  | .listed _ gone _ _ => gone

def newest : Backlog α → List α
  | .first _ => []
  | .listed _ _ _ cur => cur

/-- All that the rings hold. -/
def content (b : Backlog α) : List α := b.kept ++ b.waiting

def map {β : Type} (f : α → β) : Backlog α → Backlog β
  | .first kept => .first (kept.map f)
  | .listed kept gone olds cur => .listed (kept.map f) gone (olds.map (List.map f)) (cur.map f)

theorem content_push (n : ℕ) (x : α) (b : Backlog α) : (b.push n x).content = b.content ++ [x] := by
  cases b with
  | first kept =>
    rw [push]
    split_ifs <;> simp [content, Backlog.kept, waiting]
  | listed kept gone olds cur =>
    rw [push]
    split_ifs <;> simp [content, Backlog.kept, waiting]

theorem content_pop (b : Backlog α) : b.content.Perm (b.pop.2.toList ++ b.pop.1.content) := by
  match b with
  | .first _ => exact .refl _
  | .listed _ _ [] [] => exact .refl _
  | .listed kept _ [] (_ :: _) => exact List.perm_middle
  | .listed _ _ ([] :: _) _ => exact .refl _
  | .listed kept _ ((_ :: _) :: _) _ => exact List.perm_middle

theorem content_pop_none (b : Backlog α) (h : b.pop.2 = none) : b.pop.1.content = b.content := by
  match b with
  | .first _ => rfl
  | .listed _ _ [] [] => rfl
  | .listed _ _ [] (_ :: _) => cases h
  | .listed _ _ ([] :: _) _ => rfl
  | .listed _ _ ((_ :: _) :: _) _ => cases h

section Map

variable {β : Type} (f : α → β)

theorem map_push (n : ℕ) (x : α) (b : Backlog α) : (b.push n x).map f = (b.map f).push n (f x) := by
  cases b with
  | first kept =>
    simp only [push, map, List.length_map]
    split_ifs <;> simp
  | listed kept gone olds cur =>
    simp only [push, map, List.length_map]
    split_ifs <;> simp

theorem map_pop (b : Backlog α) :
    b.pop.1.map f = (b.map f).pop.1 ∧ b.pop.2.map f = (b.map f).pop.2 := by
  match b with
  | .first _ => exact ⟨rfl, rfl⟩
  | .listed _ _ [] [] => exact ⟨rfl, rfl⟩
  | .listed _ _ [] (_ :: _) => exact ⟨rfl, rfl⟩
  | .listed _ _ ([] :: _) _ => exact ⟨rfl, rfl⟩
  | .listed _ _ ((_ :: _) :: _) _ => exact ⟨rfl, rfl⟩

theorem map_congr (g : α → β) (b : Backlog α) (h : ∀ x ∈ b.content, f x = g x) : b.map f = b.map g := by
  cases b with
  | first kept =>
    exact congrArg Backlog.first (List.map_congr_left fun x hx => h x (List.mem_append_left _ hx))
  | listed kept gone olds cur =>
    have hkept : kept.map f = kept.map g :=
      List.map_congr_left fun x hx => h x (List.mem_append_left _ hx)
    have holds : olds.map (List.map f) = olds.map (List.map g) :=
      List.map_congr_left fun xs hxs => List.map_congr_left fun x hx =>
        h x (List.mem_append_right _ (List.mem_append_left _ (List.mem_flatten_of_mem hxs hx)))
    have hcur : cur.map f = cur.map g := List.map_congr_left fun x hx =>
      h x (List.mem_append_right _ (List.mem_append_right _ hx))
    rw [map, map, hkept, holds, hcur]

theorem waiting_map (b : Backlog α) : (b.map f).waiting = b.waiting.map f := by
  cases b with
  | first => rfl
  | listed kept gone olds cur => simp [map, waiting, List.map_flatten]

theorem kept_map (b : Backlog α) : (b.map f).kept = b.kept.map f := by
  cases b <;> rfl

end Map

theorem gone_le_rings (b : Backlog α) : b.gone ≤ b.rings := by
  cases b with
  | first => exact le_rfl
  | listed _ gone olds _ =>
    show gone ≤ gone+olds.length+1
    omega

end Backlog

/-- The ring at `a` has room for `cap` elements and holds `xs`. -/
def RingAt (q : CQueueS α) (cap a : ℕ) (xs : List α) : Prop :=
  ∃ r, q.rings a = some r ∧ r.Queues cap xs

structure First (n : ℕ) (q : CQueueS α) (kept : List α) : Prop where
  realloc : q.m_nRealloc = 0
  list : ∃ l, q.m_pQueueList = some l ∧ l.Listed 0 []
  cur : ∃ a, q.m_pQueue = some a ∧ a < q.next ∧ q.RingAt n a kept

structure Grown (n : ℕ) (q : CQueueS α) (kept : List α) (gone : ℕ) (olds : List (List α)) (cur : List α)
    (as : List ℕ) (a : ℕ) : Prop where
  realloc : q.m_nRealloc = 0
  list : ∃ l, q.m_pQueueList = some l ∧ l.Listed gone (as ++ [a])
  newest : q.m_pQueue = some a
  nodup : (as ++ [a]).Nodup
  lt_next : ∀ b ∈ as ++ [a], b < q.next
  oldRings : List.Forall₂ (fun b xs => ∃ cap, q.RingAt cap b xs) as olds
  curRing : q.RingAt (n*2^(gone+olds.length+1)) a cur
  full : kept.length = n

/-- The queue holds a backlog. -/
def Represents (n : ℕ) (q : CQueueS α) : Backlog α → Prop
  | .first kept => First n q kept
  | .listed kept gone olds cur => ∃ as a, Grown n q kept gone olds cur as a

-- Rings stay as they are while nothing happens at their addresses.
theorem ringsAt_of_mem (q q' : CQueueS α) (as : List ℕ) (olds : List (List α))
    (h : List.Forall₂ (fun b xs => ∃ cap, q.RingAt cap b xs) as olds)
    (hsame : ∀ b ∈ as, q'.rings b = q.rings b) :
    List.Forall₂ (fun b xs => ∃ cap, q'.RingAt cap b xs) as olds := by
  induction h with
  | nil => exact .nil
  | cons hhead _ ih =>
    obtain ⟨cap, r, hr, hqueues⟩ := hhead
    refine .cons ⟨cap, r, ?_, hqueues⟩ (ih fun b hb => hsame b (List.mem_cons_of_mem _ hb))
    rw [hsame _ List.mem_cons_self, hr]

section Push

variable (n : ℕ) (q q' : CQueueS α)

/-- What `grow` leaves. -/
def grownBy (cap : ℕ) (l : CSList ℕ) : CQueueS α :=
  { q with
    m_nRealloc := 0
    rings := Function.update q.rings q.next (some (STCOMQueue.zeroed cap))
    next := q.next+1
    m_pQueue := some q.next
    m_pQueueList := some l }

theorem grow_eq (cap : ℕ) (l : CSList ℕ) (hrealloc : q.m_nRealloc = 0) (hl : q.m_pQueueList = some l) :
    q.grow cap = (l.pushBackInt q.next true).map (fun p => q.grownBy (cap*2) p.1) := by
  rw [grow, if_neg (not_not.mpr hrealloc)]
  simp only [_realloc, hl]
  cases l.pushBackInt q.next true <;> rfl

/-- A push that finds the newest ring full puts its element in a new one. -/
theorem push_grows (cap a : ℕ) (cur : List α) (l : CSList ℕ) (x : α) (hrealloc : q.m_nRealloc = 0)
    (hl : q.m_pQueueList = some l) (ha : q.m_pQueue = some a) (hring : q.RingAt cap a cur)
    (hfull : cur.length = cap) :
    q.push x = (l.pushBackInt q.next true).map
      (fun p => ((q.grownBy (cap*2) p.1).write q.next (STCOMQueue.zeroed (cap*2)) x, true)) := by
  obtain ⟨r, hr, hqueues⟩ := hring
  have hisFull := (STCOMQueue.isFull_iff r cap cur hqueues).mpr hfull
  have hgrow := q.grow_eq cap l hrealloc hl
  have hcap : r.capacity = cap := hqueues.max
  cases hpush : l.pushBackInt q.next true with
  | error e =>
    rw [hpush] at hgrow
    simp [push, deref, hrealloc, ha, hr, hisFull, hcap, hgrow, bind, Except.bind, Except.map]
  | ok p =>
    rw [hpush] at hgrow
    exact push_full q (q.grownBy (cap*2) p.1) a q.next r _ x hrealloc ha hr hisFull (hcap ▸ hgrow) rfl
      (Function.update_self ..)

/-- The queue after such a push. -/
theorem grown_push (hn : 1 ≤ n) (kept : List α) (gone k : ℕ) (as : List ℕ) (olds : List (List α))
    (l l' : CSList ℕ) (p : Option ℕ) (x : α) (hl : l.Listed gone as) (hnodup : as.Nodup)
    (hlt : ∀ b ∈ as, b < q.next) (hkept : kept.length = n) (hk : k = gone+olds.length)
    (holds : List.Forall₂ (fun b xs => ∃ cap, q.RingAt cap b xs) as olds)
    (hpush : l.pushBackInt q.next true = .ok (l', p)) :
    Grown n ((q.grownBy (n*2^k*2) l').write q.next (STCOMQueue.zeroed (n*2^k*2)) x) kept gone olds [x] as
      q.next := by
  have hfresh : q.next ∉ as := fun h => lt_irrefl _ (hlt _ h)
  have hcap : n*2^k*2 = n*2^(gone+olds.length+1) := by
    rw [hk, pow_succ, Nat.mul_assoc]
  have hpos : 0 < n*2^k*2 := Nat.mul_pos (Nat.mul_pos hn (Nat.two_pow_pos k)) Nat.two_pos
  refine ⟨rfl, ⟨l', rfl, hl.pushBackInt l gone _ l' p hpush⟩, rfl, ?_, fun b hb => ?_, ?_, ?_, hkept⟩
  · exact hnodup.append (List.nodup_singleton _) (List.disjoint_singleton.mpr hfresh)
  · rcases List.mem_append.mp hb with hb | hb
    · exact Nat.lt_succ_of_lt (hlt b hb)
    · rw [List.mem_singleton.mp hb]
      exact Nat.lt_succ_self _
  · refine ringsAt_of_mem q _ as olds holds fun b hb => ?_
    have hne : b ≠ q.next := fun h => hfresh (h ▸ hb)
    exact (Function.update_of_ne hne _ _).trans (Function.update_of_ne hne _ _)
  · rw [← hcap]
    refine ⟨_, Function.update_self .., ?_⟩
    exact STCOMQueue.queues_push _ _ [] (STCOMQueue.queues_zeroed _ hpos) x hpos

-- A push that finds room.
theorem push_room (cap a : ℕ) (cur : List α) (x : α) (hrealloc : q.m_nRealloc = 0)
    (ha : q.m_pQueue = some a) (hring : q.RingAt cap a cur) (hroom : cur.length ≠ cap) :
    ∃ r, q.push x = .ok (q.write a r x, true) ∧ (q.write a r x).RingAt cap a (cur ++ [x]) := by
  obtain ⟨r, hr, hqueues⟩ := hring
  have hisFull : r.isFull = false :=
    Bool.eq_false_iff.mpr fun h => hroom ((STCOMQueue.isFull_iff r cap cur hqueues).mp h)
  refine ⟨r, push_not_full q a r x hrealloc ha hr hisFull, r.push x, Function.update_self .., ?_⟩
  exact STCOMQueue.queues_push r cap cur hqueues x (lt_of_le_of_ne hqueues.holds.le hroom)

/-- A push that stays in the arrays is one of the backlog. -/
theorem push_represents (hn : 1 ≤ n) (b : Backlog α) (x : α) (ok : Bool) (h : Represents n q b)
    (hpush : q.push x = .ok (q', ok)) : ok = true ∧ Represents n q' (b.push n x) := by
  cases b with
  | first kept =>
    obtain ⟨hrealloc, ⟨l, hl, hlisted⟩, a, ha, hlt, hring⟩ := h
    by_cases hfull : kept.length = n
    · rw [q.push_grows n a kept l x hrealloc hl ha hring hfull] at hpush
      obtain ⟨⟨l', p⟩, hback, heq⟩ := (map_eq_ok _ _ _).mp hpush
      obtain ⟨rfl, rfl⟩ := Prod.mk.inj heq
      rw [Backlog.push, if_pos hfull]
      have hgrown := grown_push n q hn kept 0 0 [] [] l l' p x hlisted List.nodup_nil nofun hfull rfl
        .nil hback
      rw [pow_zero, Nat.mul_one] at hgrown
      exact ⟨rfl, [], q.next, hgrown⟩
    · obtain ⟨r, hok, hring'⟩ := q.push_room n a kept x hrealloc ha hring hfull
      obtain ⟨rfl, rfl⟩ := Prod.mk.inj (Except.ok.inj (hpush.symm.trans hok))
      rw [Backlog.push, if_neg hfull]
      exact ⟨rfl, hrealloc, ⟨l, hl, hlisted⟩, a, ha, hlt, hring'⟩
  | listed kept gone olds cur =>
    obtain ⟨as, a, hrealloc, ⟨l, hl, hlisted⟩, ha, hnodup, hlt, hold, hring, hkept⟩ := h
    by_cases hfull : cur.length = n*2^(gone+olds.length+1)
    · rw [q.push_grows _ a cur l x hrealloc hl ha hring hfull] at hpush
      obtain ⟨⟨l', p⟩, hback, heq⟩ := (map_eq_ok _ _ _).mp hpush
      obtain ⟨rfl, rfl⟩ := Prod.mk.inj heq
      rw [Backlog.push, if_pos hfull]
      have hlen : (olds ++ [cur]).length = olds.length+1 := List.length_append
      refine ⟨rfl, as ++ [a], q.next, ?_⟩
      refine grown_push n q hn kept gone _ (as ++ [a]) (olds ++ [cur]) l l' p x hlisted hnodup hlt hkept
        ?_ ?_ hback
      · rw [hlen, Nat.add_assoc]
      · exact List.rel_append hold (.cons ⟨_, hring⟩ .nil)
    · obtain ⟨r, hok, hring'⟩ := q.push_room _ a cur x hrealloc ha hring hfull
      obtain ⟨rfl, rfl⟩ := Prod.mk.inj (Except.ok.inj (hpush.symm.trans hok))
      rw [Backlog.push, if_neg hfull]
      refine ⟨rfl, as, a, hrealloc, ⟨l, hl, hlisted⟩, ha, hnodup, hlt, ?_, hring', hkept⟩
      refine ringsAt_of_mem q _ as olds hold fun b hb => Function.update_of_ne ?_ _ _
      rintro rfl
      exact List.disjoint_of_nodup_append hnodup hb (List.mem_singleton_self b)

/-- It does so while there have been fewer rings than `m_pQueueList` has slots at the start, and if no new
one is needed. -/
theorem push_ok (b : Backlog α) (x : α) (h : Represents n q b)
    (hroom : (b.push n x).rings = b.rings ∨ b.rings < 12) : ∃ p, q.push x = .ok p := by
  have hgrows (cap a : ℕ) (cur : List α) (l : CSList ℕ) (gone : ℕ) (as : List ℕ)
      (hrealloc : q.m_nRealloc = 0) (hl : q.m_pQueueList = some l) (ha : q.m_pQueue = some a)
      (hring : q.RingAt cap a cur) (hfull : cur.length = cap) (hlisted : l.Listed gone as)
      (hlt : gone+as.length < 12) : ∃ p, q.push x = .ok p := by
    obtain ⟨p, hp⟩ := hlisted.pushBackInt_ok l gone q.next (hlt.trans_le hlisted.min)
    rw [q.push_grows cap a cur l x hrealloc hl ha hring hfull, hp]
    exact ⟨_, rfl⟩
  cases b with
  | first kept =>
    obtain ⟨hrealloc, ⟨l, hl, hlisted⟩, a, ha, hlt, hring⟩ := h
    by_cases hfull : kept.length = n
    · refine hgrows n a kept l 0 [] hrealloc hl ha hring hfull hlisted ?_
      rcases hroom with hsame | hroom
      · rw [Backlog.push, if_pos hfull] at hsame
        cases hsame
      · exact hroom
    · obtain ⟨r, hok, -⟩ := q.push_room n a kept x hrealloc ha hring hfull
      exact ⟨_, hok⟩
  | listed kept gone olds cur =>
    obtain ⟨as, a, hrealloc, ⟨l, hl, hlisted⟩, ha, hnodup, hlt, hold, hring, hkept⟩ := h
    by_cases hfull : cur.length = n*2^(gone+olds.length+1)
    · refine hgrows _ a cur l gone _ hrealloc hl ha hring hfull hlisted ?_
      have hlen : (as ++ [a]).length = olds.length+1 := by
        rw [List.length_append, hold.length_eq, List.length_singleton]
      rcases hroom with hsame | hroom
      · rw [Backlog.push, if_pos hfull] at hsame
        simp only [Backlog.rings, List.length_append, List.length_singleton] at hsame
        omega
      · rw [hlen]
        exact hroom
    · obtain ⟨r, hok, -⟩ := q.push_room _ a cur x hrealloc ha hring hfull
      exact ⟨_, hok⟩

end Push

section Pop

variable (n : ℕ) (q : CQueueS α)

-- A pop that finds an element.
theorem pop_some (l : CSList ℕ) (gone cap a : ℕ) (as : List ℕ) (x : α) (xs : List α)
    (hl : q.m_pQueueList = some l) (hlisted : l.Listed gone (a :: as))
    (hring : q.RingAt cap a (x :: xs)) :
    ∃ r, q.pop = .ok ({ q with rings := Function.update q.rings a (some r) }, some x) ∧
      r.Queues cap xs := by
  obtain ⟨r, hr, hqueues⟩ := hring
  have hfront : r.front = some x := STCOMQueue.front_eq r cap _ hqueues
  refine ⟨r.pop, ?_, STCOMQueue.queues_pop r cap _ hqueues (List.cons_ne_nil x xs)⟩
  simp only [pop, hl, hlisted.getNext l gone, deref, hr, hfront, bind, Except.bind, pure, Except.pure]

-- A pop that finds an empty ring behind which there is another one.
theorem pop_none (l : CSList ℕ) (gone cap a : ℕ) (as : List ℕ) (hl : q.m_pQueueList = some l)
    (hlisted : l.Listed gone (a :: as)) (hne : as ≠ []) (hring : q.RingAt cap a []) :
    ∃ q', q.pop = .ok (q', none) ∧ q'.m_nRealloc = q.m_nRealloc ∧ q'.m_pQueue = q.m_pQueue ∧
      q'.next = q.next ∧ (∃ l', q'.m_pQueueList = some l' ∧ l'.Listed (gone+1) as) ∧
      ∀ b ≠ a, q'.rings b = q.rings b := by
  obtain ⟨r, hr, hqueues⟩ := hring
  have hfront : r.front = none := STCOMQueue.front_eq r cap _ hqueues
  have hpos : 0 < as.length := List.length_pos_iff.mpr hne
  have huse : 1 < l.m_nUse := by
    rw [hlisted.use, List.length_cons]
    omega
  have hdel := hlisted.del l gone true
  have hslot : l.slot gone = some a := by
    rw [hlisted.slot, if_neg (lt_irrefl gone), Nat.sub_self]
    rfl
  let deleted : CQueueS α := { q with m_pQueueList := some (l.delAt gone true).1 }
  have hpop : q.pop = .ok ((l.delAt gone true).2.2.elim deleted deleted.destroy, none) := by
    simp only [pop, hl, hlisted.getNext l gone, deref, hr, hfront, huse, if_true, bind, Except.bind, pure,
      Except.pure]
    cases (l.delAt gone true).2.2 <;> rfl
  have hfreed : (l.delAt gone true).2.2 = none ∨ (l.delAt gone true).2.2 = some a := by
    unfold CSList.delAt
    split_ifs
    · exact Or.inr hslot
    · exact Or.inl rfl
    · exact Or.inl rfl
  refine ⟨_, hpop, ?_⟩
  rcases hfreed with hfreed | hfreed
  · rw [hfreed]
    exact ⟨rfl, rfl, rfl, ⟨_, rfl, hdel⟩, fun b _ => rfl⟩
  · rw [hfreed]
    exact ⟨rfl, rfl, rfl, ⟨_, rfl, hdel⟩, fun b hb => Function.update_of_ne hb _ _⟩

-- A pop from an empty ring that is the only one.
theorem pop_empty (l : CSList ℕ) (gone cap a : ℕ) (hl : q.m_pQueueList = some l)
    (hlisted : l.Listed gone [a]) (hring : q.RingAt cap a []) : q.pop = .ok (q, none) := by
  obtain ⟨r, hr, hqueues⟩ := hring
  have hfront : r.front = none := STCOMQueue.front_eq r cap _ hqueues
  have huse : ¬1 < l.m_nUse := by
    rw [hlisted.use, List.length_singleton]
    decide
  simp only [pop, hl, hlisted.getNext l gone, deref, hr, hfront, huse, if_false, bind, Except.bind, pure,
    Except.pure]

/-- A pop is one of the backlog. -/
theorem pop_represents (b : Backlog α) (h : Represents n q b) :
    ∃ q', q.pop = .ok (q', b.pop.2) ∧ Represents n q' b.pop.1 := by
  cases b with
  | first kept =>
    -- no ring is in the list yet
    obtain ⟨hrealloc, ⟨l, hl, hlisted⟩, hcur⟩ := h
    refine ⟨q, ?_, hrealloc, ⟨l, hl, hlisted⟩, hcur⟩
    have hnext := hlisted.getNext_nil
    cases hget : l.getNext 0 with
    | mk nIdx o =>
      rw [hget] at hnext
      obtain rfl := hnext
      simp only [pop, hl, hget, Backlog.pop]
  | listed kept gone olds cur =>
    obtain ⟨as, a, hrealloc, ⟨l, hl, hlisted⟩, ha, hnodup, hlt, hold, hring, hkept⟩ := h
    cases hold with
    | nil =>
      -- only the ring that is pushed to; it stays when it is empty
      cases cur with
      | nil => exact ⟨q, q.pop_empty l gone _ a hl hlisted hring, [], a, hrealloc, ⟨l, hl, hlisted⟩, ha,
          hnodup, hlt, .nil, hring, hkept⟩
      | cons x cur =>
        obtain ⟨r, hpop, hqueues⟩ := q.pop_some l gone _ a [] x cur hl hlisted hring
        exact ⟨_, hpop, [], a, hrealloc, ⟨l, hl, hlisted⟩, ha, hnodup, hlt, .nil,
          ⟨r, Function.update_self .., hqueues⟩, hkept⟩
    | @cons c xs as olds hhead htail =>
      obtain ⟨cap, hhead⟩ := hhead
      have hfresh : c ∉ as ++ [a] := (List.nodup_cons.mp hnodup).1
      have hne (b : ℕ) (hb : b ∈ as ++ [a]) : b ≠ c := fun hbc => hfresh (hbc ▸ hb)
      have hmem (b : ℕ) (hb : b ∈ as) : b ∈ as ++ [a] := List.mem_append_left _ hb
      have hlast : a ∈ as ++ [a] := List.mem_append_right _ List.mem_cons_self
      cases xs with
      | nil =>
        -- the oldest ring is empty and is deleted, with NULL for an answer
        obtain ⟨q', hpop, hrealloc', ha', hnext', hlist', hrings⟩ :=
          q.pop_none l gone cap c (as ++ [a]) hl hlisted (List.ne_nil_of_mem hlast) hhead
        refine ⟨q', hpop, as, a, hrealloc'.trans hrealloc, hlist', ha'.trans ha,
          (List.nodup_cons.mp hnodup).2, fun b hb => ?_, ?_, ?_, hkept⟩
        · rw [hnext']
          exact hlt b (List.mem_cons_of_mem _ hb)
        · exact ringsAt_of_mem q q' as olds htail fun b hb => hrings b (hne b (hmem b hb))
        · obtain ⟨r, hr, hqueues⟩ := hring
          refine ⟨r, (hrings a (hne a hlast)).trans hr, ?_⟩
          rw [show gone+1+olds.length+1 = gone+(olds.length+1)+1 by omega]
          exact hqueues
      | cons x xs =>
        obtain ⟨r, hpop, hqueues⟩ := q.pop_some l gone cap c (as ++ [a]) x xs hl hlisted hhead
        refine ⟨_, hpop, c :: as, a, hrealloc, ⟨l, hl, hlisted⟩, ha, hnodup, hlt, .cons ?_ ?_, ?_, hkept⟩
        · exact ⟨cap, r, Function.update_self .., hqueues⟩
        · exact ringsAt_of_mem q _ as olds htail fun b hb =>
            Function.update_of_ne (hne b (hmem b hb)) _ _
        · obtain ⟨r', hr', hqueues'⟩ := hring
          exact ⟨r', (Function.update_of_ne (hne a hlast) _ _).trans hr', hqueues'⟩

end Pop

section Client

/-- What a client knows of the backlog: it has pushed `pushed`, and pops have answered `popped`. -/
structure Past (n : ℕ) (b : Backlog α) (pushed popped : List α) : Prop where
  all : pushed = b.kept ++ (popped ++ b.waiting)
  le : b.kept.length ≤ n
  full : b.rings ≠ 0 → b.kept.length = n
  none : b.rings = 0 → popped = []
  -- each of the rings has been full once, but for the newest
  rings : n*2^b.rings+b.newest.length ≤ pushed.length+n

variable {n : ℕ} {b : Backlog α} {pushed popped : List α}

theorem past_start (n : ℕ) : Past n (.first []) ([] : List α) [] :=
  ⟨rfl, Nat.zero_le n, nofun, fun _ => rfl, by simp [Backlog.rings, Backlog.newest]⟩

theorem Past.drop (h : Past n b pushed popped) : pushed.drop n = popped ++ b.waiting := by
  have hall := h.all
  cases b with
  | first kept =>
    rw [h.none rfl] at hall ⊢
    have hkept : pushed = kept := hall.trans (List.append_nil kept)
    rw [hkept]
    exact List.drop_eq_nil_of_le h.le
  | listed kept gone olds cur => rw [hall, ← h.full (Nat.succ_ne_zero _), List.drop_left]

theorem Past.length_kept (h : Past n b pushed popped) : b.kept.length = min n pushed.length := by
  cases b with
  | first kept =>
    have hall := h.all
    rw [h.none rfl] at hall
    have hkept : pushed = kept := hall.trans (List.append_nil kept)
    rw [hkept]
    exact (min_eq_right h.le).symm
  | listed kept gone olds cur =>
    have hfull := h.full (Nat.succ_ne_zero _)
    rw [hfull, h.all, List.length_append, hfull]
    exact (min_eq_left (Nat.le_add_right n _)).symm

theorem Past.push (h : Past n b pushed popped) (x : α) : Past n (b.push n x) (pushed ++ [x]) popped := by
  obtain ⟨hall, hle, hfull, hnone, hrings⟩ := h
  have hlen : (pushed ++ [x]).length = pushed.length+1 := List.length_append
  cases b with
  | first kept =>
    obtain rfl := hnone rfl
    obtain rfl : pushed = kept := hall.trans (List.append_nil kept)
    rw [Backlog.push]
    split_ifs with hlast
    · refine ⟨rfl, hle, fun _ => hlast, nofun, ?_⟩
      rw [hlen, hlast]
      show n*2^1+1 ≤ n+1+n
      omega
    · refine ⟨(List.append_nil _).symm, ?_, nofun, fun _ => rfl, ?_⟩
      · show (pushed ++ [x]).length ≤ n
        rw [hlen]
        exact lt_of_le_of_ne hle hlast
      · rw [hlen]
        exact hrings.trans (by omega)
  | listed kept gone olds cur =>
    have hkept : kept.length = n := hfull (Nat.succ_ne_zero _)
    change pushed = kept ++ (popped ++ (olds.flatten ++ cur)) at hall
    rw [Backlog.push]
    split_ifs with hlast
    · refine ⟨?_, hle, fun _ => hkept, nofun, ?_⟩
      · show pushed ++ [x] = kept ++ (popped ++ ((olds ++ [cur]).flatten ++ [x]))
        simp only [hall, List.flatten_append, List.flatten_cons, List.flatten_nil, List.append_nil,
          List.append_assoc]
      · rw [hlen]
        show n*2^(gone+(olds ++ [cur]).length+1)+1 ≤ pushed.length+1+n
        have hbound : n*2^(gone+olds.length+1)+cur.length ≤ pushed.length+n := hrings
        rw [List.length_append, List.length_singleton, ← Nat.add_assoc, pow_succ, ← Nat.mul_assoc]
        omega
    · refine ⟨?_, hle, fun _ => hkept, nofun, ?_⟩
      · show pushed ++ [x] = kept ++ (popped ++ (olds.flatten ++ (cur ++ [x])))
        simp only [hall, List.append_assoc]
      · rw [hlen]
        show n*2^(gone+olds.length+1)+(cur ++ [x]).length ≤ pushed.length+1+n
        have hbound : n*2^(gone+olds.length+1)+cur.length ≤ pushed.length+n := hrings
        rw [List.length_append, List.length_singleton]
        omega

theorem Past.pop (h : Past n b pushed popped) : Past n b.pop.1 pushed (popped ++ b.pop.2.toList) := by
  obtain ⟨hall, hle, hfull, hnone, hrings⟩ := h
  cases b with
  | first kept =>
    refine ⟨?_, hle, hfull, fun h => ?_, hrings⟩
    · rw [hall]
      exact congrArg (kept ++ ·) (List.append_nil _).symm
    · rw [hnone h]
      rfl
  | listed kept gone olds cur =>
    have hkept : kept.length = n := hfull (Nat.succ_ne_zero _)
    change pushed = kept ++ (popped ++ (olds.flatten ++ cur)) at hall
    change n*2^(gone+olds.length+1)+cur.length ≤ pushed.length+n at hrings
    cases olds with
    | nil =>
      cases cur with
      | nil =>
        refine ⟨?_, hle, hfull, nofun, hrings⟩
        show pushed = kept ++ (popped ++ [] ++ [])
        simp only [hall, List.flatten_nil, List.append_nil]
      | cons x cur =>
        refine ⟨?_, hle, fun _ => hkept, nofun, ?_⟩
        · show pushed = kept ++ (popped ++ [x] ++ cur)
          rw [hall, List.flatten_nil, List.append_assoc]
          rfl
        · exact (Nat.add_le_add_left (Nat.le_succ cur.length) _).trans hrings
    | cons xs olds =>
      cases xs with
      | nil =>
        refine ⟨?_, hle, fun _ => hkept, nofun, ?_⟩
        · show pushed = kept ++ (popped ++ [] ++ (olds.flatten ++ cur))
          rw [hall, List.append_nil]
          rfl
        · show n*2^(gone+1+olds.length+1)+cur.length ≤ pushed.length+n
          rw [show gone+1+olds.length+1 = gone+(olds.length+1)+1 by omega]
          exact hrings
      | cons x xs =>
        refine ⟨?_, hle, fun _ => hkept, nofun, hrings⟩
        show pushed = kept ++ (popped ++ [x] ++ ((xs :: olds).flatten ++ cur))
        rw [hall, List.append_assoc]
        rfl

-- A pop answers NULL when nothing waits, or when it deletes a ring.
theorem Backlog.pop_none (b : Backlog α) (h : b.pop.2 = none) :
    b.waiting = [] ∧ b.pop.1 = b ∨ b.pop.1.gone = b.gone+1 := by
  match b with
  | .first _ => exact Or.inl ⟨rfl, rfl⟩
  | .listed _ _ [] [] => exact Or.inl ⟨rfl, rfl⟩
  | .listed _ _ [] (_ :: _) => cases h
  | .listed _ _ ([] :: _) _ => exact Or.inr rfl
  | .listed _ _ ((_ :: _) :: _) _ => cases h

theorem Backlog.pop_gone (b : Backlog α) : b.gone ≤ b.pop.1.gone := by
  match b with
  | .first _ => exact le_rfl
  | .listed _ _ [] [] => exact le_rfl
  | .listed _ _ [] (_ :: _) => exact le_rfl
  | .listed _ _ ([] :: _) _ => exact Nat.le_succ _
  | .listed _ _ ((_ :: _) :: _) _ => exact le_rfl

theorem Backlog.push_gone (n : ℕ) (x : α) (b : Backlog α) : (b.push n x).gone = b.gone := by
  cases b with
  | first kept =>
    rw [Backlog.push]
    split_ifs <;> rfl
  | listed kept gone olds cur =>
    rw [Backlog.push]
    split_ifs <;> rfl

-- A new ring is needed when the newest one is full.
theorem Backlog.push_rings (n : ℕ) (x : α) (b : Backlog α) :
    (b.push n x).rings = b.rings ∨ b.rings = 0 ∨ b.newest.length = n*2^b.rings := by
  cases b with
  | first kept => exact Or.inr (Or.inl rfl)
  | listed kept gone olds cur =>
    rw [Backlog.push]
    split_ifs with hfull
    · exact Or.inr (Or.inr hfull)
    · exact Or.inl rfl

theorem Backlog.newest_le (b : Backlog α) : b.newest.length ≤ b.waiting.length := by
  cases b with
  | first => exact le_rfl
  | listed kept gone olds cur =>
    rw [Backlog.waiting, List.length_append]
    exact Nat.le_add_left _ _

/-- A queue from which a client has had `popped`, having pushed `pushed`. -/
def Serves (n : ℕ) (q : CQueueS α) (pushed popped : List α) : Prop :=
  ∃ b, Represents n q b ∧ Past n b pushed popped

theorem represents_alloc (n : ℕ) (hn : 1 ≤ n) (type : EAllocType) :
    Represents n ((init : CQueueS α).alloc n type) (.first []) :=
  ⟨rfl, ⟨_, rfl, CSList.listed_alloc .new⟩, 0, rfl, Nat.zero_lt_one, STCOMQueue.zeroed n, rfl,
    STCOMQueue.queues_zeroed n hn⟩

theorem Serves.push {q q' : CQueueS α} {ok : Bool} {x : α} (h : Serves n q pushed popped) (hn : 1 ≤ n)
    (hpush : q.push x = .ok (q', ok)) : Serves n q' (pushed ++ [x]) popped := by
  obtain ⟨b, hb, hpast⟩ := h
  exact ⟨_, (push_represents n q q' hn b x ok hb hpush).2, hpast.push x⟩

theorem Serves.pop {q q' : CQueueS α} {r : Option α} (h : Serves n q pushed popped)
    (hpop : q.pop = .ok (q', r)) : Serves n q' pushed (popped ++ r.toList) := by
  obtain ⟨b, hb, hpast⟩ := h
  obtain ⟨u, hu, hrepresents⟩ := pop_represents n q b hb
  obtain ⟨rfl, rfl⟩ := Prod.mk.inj (Except.ok.inj (hpop.symm.trans hu))
  exact ⟨_, hrepresents, hpast.pop⟩

/-- A queue with what has been pushed and popped, and the number of pops that answered NULL although an
element behind the first `n` was in the queue. -/
structure Client (α : Type) where
  queue : CQueueS α
  pushed : List α
  popped : List α
  misses : ℕ

/-- One call; `none` where it reads behind an array. -/
def step (n : ℕ) (c : Client α) : Fifo.Op α → Option (Client α)
  | .push p =>
    match c.queue.push p with
    | .ok (queue, _) => some { c with queue, pushed := c.pushed ++ [p] }
    | .error _ => none
  | .pop =>
    match c.queue.pop with
    | .ok (queue, some x) => some { c with queue, popped := c.popped ++ [x] }
    | .ok (queue, none) =>
      some { c with
        queue
        misses := if n+c.popped.length < c.pushed.length then c.misses+1 else c.misses }
    | .error _ => none

/-- No push finds as many elements waiting as the twelfth ring has room for, and no size of a ring comes
to overflow an `int`. -/
def Allowed (n : ℕ) (c : Client α) : Fifo.Op α → Prop
  | .push _ => c.pushed.length < n+c.popped.length+n*2^12 ∧ c.pushed.length+1+n < 2^31
  | .pop => True

instance (n : ℕ) (c : Client α) (op : Fifo.Op α) : Decidable (Allowed n c op) :=
  match op with
  | .push _ => inferInstanceAs (Decidable (_ ∧ _))
  | .pop => inferInstanceAs (Decidable True)

/-- What the calls keep. -/
def Counted (n : ℕ) (c : Client α) : Prop :=
  c.pushed.length+n < 2^31 ∧
    ∃ b, Represents n c.queue b ∧ Past n b c.pushed c.popped ∧ c.misses ≤ b.gone

/-- The size of the ring that the next push goes to is an `int`. -/
def NewestIsInt (q : CQueueS α) : Prop :=
  ∃ a r, q.m_pQueue = some a ∧ q.rings a = some r ∧ r.nMax < 2^31

-- The newest ring is the largest one, and is not larger than what has been pushed.
theorem newestIsInt_of_represents {q : CQueueS α} (hq : Represents n q b) (hpast : Past n b pushed popped)
    (hsmall : pushed.length+n < 2^31) : NewestIsInt q := by
  have hrings : n*2^b.rings < 2^31 :=
    ((Nat.le_add_right _ _).trans hpast.rings).trans_lt hsmall
  cases b with
  | first kept =>
    obtain ⟨-, -, a, ha, -, r, hr, hqueues⟩ := hq
    refine ⟨a, r, ha, hr, ?_⟩
    rw [hqueues.max]
    exact (Nat.le_add_left n pushed.length).trans_lt hsmall
  | listed kept gone olds cur =>
    obtain ⟨as, a, hgrown⟩ := hq
    obtain ⟨r, hr, hqueues⟩ := hgrown.curRing
    refine ⟨a, r, hgrown.newest, hr, ?_⟩
    rw [hqueues.max]
    exact hrings

theorem counted_step (n : ℕ) (hn : 1 ≤ n) (c : Client α) (op : Fifo.Op α) (hc : Counted n c)
    (hallowed : Allowed n c op) : ∃ c', step n c op = some c' ∧ Counted n c' := by
  obtain ⟨hsmall, b, hb, hpast, hmisses⟩ := hc
  have hdrop := congrArg List.length hpast.drop
  rw [List.length_drop, List.length_append] at hdrop
  cases op with
  | push p =>
    have hroom : (b.push n p).rings = b.rings ∨ b.rings < 12 := by
      rcases b.push_rings n p with hsame | hzero | hfull
      · exact Or.inl hsame
      · exact Or.inr (by omega)
      · refine Or.inr (not_le.mp fun hge => ?_)
        have hpow : n*2^12 ≤ n*2^b.rings := Nat.mul_le_mul_left n (Nat.pow_le_pow_right Nat.two_pos hge)
        have hwaiting := b.newest_le
        have hwait := hallowed.1
        omega
    obtain ⟨⟨queue, ok⟩, hpush⟩ := c.queue.push_ok n b p hb hroom
    refine ⟨{ c with queue, pushed := c.pushed ++ [p] }, by rw [step, hpush], ?_, b.push n p, ?_,
      hpast.push p, ?_⟩
    · show (c.pushed ++ [p]).length+n < 2^31
      rw [List.length_append]
      exact hallowed.2
    · exact (push_represents n c.queue queue hn b p ok hb hpush).2
    · rw [Backlog.push_gone]
      exact hmisses
  | pop =>
    obtain ⟨queue, hpop, hrepresents⟩ := pop_represents n c.queue b hb
    have hpast' := hpast.pop
    cases hr : b.pop.2 with
    | some x =>
      rw [hr] at hpop hpast'
      exact ⟨{ c with queue, popped := c.popped ++ [x] }, by rw [step, hpop], hsmall, b.pop.1, hrepresents,
        hpast', hmisses.trans b.pop_gone⟩
    | none =>
      rw [hr, Option.toList_none, List.append_nil] at hpast'
      rw [hr] at hpop
      let misses := if n+c.popped.length < c.pushed.length then c.misses+1 else c.misses
      refine ⟨{ c with queue, misses }, by rw [step, hpop], hsmall, b.pop.1, hrepresents, hpast', ?_⟩
      show (if n+c.popped.length < c.pushed.length then c.misses+1 else c.misses) ≤ b.pop.1.gone
      split_ifs with hwaiting
      · rcases b.pop_none hr with ⟨hempty, -⟩ | hgone
        · rw [hempty, List.length_nil] at hdrop
          omega
        · rw [hgone]
          exact Nat.succ_le_succ hmisses
      · exact hmisses.trans b.pop_gone

/-- For every sequence of calls, when the allocations succeed: nothing is read or written outside the
arrays, and the sizes of the rings are those of an `int`; the pops answer, in order and once each, what
was pushed behind the first `n` elements, which never come out; and the pops that answer NULL although
there is more are no more than the size of the ring has been doubled. -/
theorem pops_behind_first_ring (n : ℕ) (hn : 1 ≤ n) (hint : n < 2^31) (ops : List (Fifo.Op α))
    (hallowed : Runs.Along (step n) (Allowed n) ⟨allocated n, [], [], 0⟩ ops) :
    ∃ c, Runs.runFrom (step n) ⟨allocated n, [], [], 0⟩ ops = some c ∧ NewestIsInt c.queue ∧
      c.popped <+: c.pushed.drop n ∧ n*2^c.misses ≤ c.pushed.length+n := by
  have hstart : ([] : List α).length+n < 2^31 := (Nat.zero_add n).symm ▸ hint
  obtain ⟨c, hrun, hsmall, b, hb, hpast, hmisses⟩ := Runs.runFrom_exists (step n) (Allowed n) (Counted n)
    (counted_step n hn) _ ops ⟨hstart, _, represents_alloc n hn .none, past_start n, le_rfl⟩ hallowed
  refine ⟨c, hrun, newestIsInt_of_represents hb hpast hsmall, ⟨b.waiting, hpast.drop.symm⟩, ?_⟩
  calc n*2^c.misses ≤ n*2^b.rings :=
        Nat.mul_le_mul_left n (Nat.pow_le_pow_right Nat.two_pos (hmisses.trans b.gone_le_rings))
    _ ≤ n*2^b.rings+b.newest.length := Nat.le_add_right _ _
    _ ≤ c.pushed.length+n := hpast.rings

-- through the ring of one element to the first of two
theorem pops_behind_first_ring_one : ∃ c,
    Runs.runFrom (step 1) ⟨allocated 1, [], [], 0⟩ [.push 'a', .pop, .push 'b', .pop] = some c ∧
      NewestIsInt c.queue ∧ c.popped <+: c.pushed.drop 1 ∧ 1*2^c.misses ≤ c.pushed.length+1 :=
  pops_behind_first_ring 1 le_rfl (by decide) _ (by decide)

end Client

end CQueueS

end Leviathan
