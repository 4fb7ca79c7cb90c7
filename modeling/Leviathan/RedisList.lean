import Leviathan.CircularScan
import Leviathan.Filled
import Leviathan.Runs
import Leviathan.SizeTables

/-! The argument list of a Redis command (`CRedisList`, NWSessionManager.h and .cpp): texts and their
lengths in two arrays that grow together. -/
namespace Leviathan.CRedisList

/-- All fields of `CRedisList`. -/
structure Full extends CRedisList where
  m_pArgvLen : List ℕ
  m_nMax : ℕ
  m_nObjAllocType : EAllocType

namespace Full

def init : Full := ⟨⟨[], 0, 0, none, 0⟩, [], 0, .none⟩

section Model

variable (l : Full)

/-- `__alloc`: the list with larger arrays and their size, 0 where `calloc` fails (`ok` is false).  A size
that is not larger is answered by the old one. -/
def _alloc (nMaxCount : ℤ) (ok : Bool) : Full × ℕ :=
  if nMaxCount ≤ l.m_nMax then (l, l.m_nMax)
  else if ok then
    ({ l with
        m_pArgv := l.m_pArgv.take l.m_nMax ++ List.replicate (nMaxCount.toNat-l.m_nMax) none
        m_pArgvLen := l.m_pArgvLen.take l.m_nMax ++ List.replicate (nMaxCount.toNat-l.m_nMax) 0 },
      nMaxCount.toNat)
  else (l, 0)

def alloc (nMaxCount : ℕ) (type : EAllocType) (ok : Bool) : Full :=
  let r := _alloc { l with m_nObjAllocType := type } nMaxCount ok
  { r.1 with m_nMax := r.2 }

/-- The code at `ADD_SUCCESS`. -/
def addSuccess (nIdx : ℕ) (Obj : CString) (nLen : ℕ) : Except Fault Full :=
  if nIdx < l.m_pArgv.length ∧ nIdx < l.m_pArgvLen.length then
    .ok { l with
      m_nUse := l.m_nUse+1
      m_pArgv := l.m_pArgv.set nIdx (some Obj)
      m_pArgvLen := l.m_pArgvLen.set nIdx nLen
      m_nLast := l.m_nLast+1 }
  else .error .outOfBounds

/-- `add`: the index stored to, or `none` where it returns false. -/
def add (Obj : CString) (nLen : ℕ) (ok : Bool) : Except Fault (Full × Option ℕ) :=
  if l.m_nMax ≤ l.m_nUse then
    -- `m_nMax << 1`
    let r := l._alloc (i32 (l.m_nMax*2)) ok
    if r.2 = 0 then .ok (l, none)
    else (addSuccess { r.1 with m_nMax := r.2 } l.m_nMax Obj nLen).map (·, some l.m_nMax)
  else
    match l.m_pArgv[l.m_nLast]? with
    | none => .error .outOfBounds
    | some none => (l.addSuccess l.m_nLast Obj nLen).map (·, some l.m_nLast)
    | some (some _) =>
      match scanFrom l.m_nMax (fun i => (l.m_pArgv.getD i none).isNone) l.m_nMax (l.m_nLast+1) with
      | some nIdx => (l.addSuccess nIdx Obj nLen).map (·, some nIdx)
      | none => .ok (l, none)

/-- `push_back`: the same, and the length is added up. -/
def pushBack (Obj : CString) (nLen : ℕ) (ok : Bool) : Except Fault (Full × Option ℕ) :=
  (l.add Obj nLen ok).map (fun r =>
    (if r.2.isSome then { r.1 with m_nContentsIdx := r.1.m_nContentsIdx+nLen } else r.1, r.2))

def getObj (i : ℤ) : Option CString := if isInclude i l.m_nMax then l.m_pArgv.getD i.toNat none else none

/-- `listClear`: the list, and the texts given to `delBuf` with their sizes. -/
def listClear : Full × List (CString × ℕ) :=
  ({ l with
      m_pArgv := List.replicate l.m_nMax none ++ l.m_pArgv.drop l.m_nMax
      m_pArgvLen := List.replicate l.m_nMax 0 ++ l.m_pArgvLen.drop l.m_nMax
      m_nUse := 0
      m_nLast := 0 },
    if isAbleToDelete l.m_nObjAllocType then
      ((l.m_pArgv.take l.m_nMax).takeWhile Option.isSome).reduceOption.map (fun p => (p, p.strlen+1))
    else [])

/-- The first line of `clear`. -/
def clearArgv : Full × List (CString × ℕ) := if l.m_nUse = 0 then (l, []) else l.listClear

/-- `clear`: the list, the texts that are released, and the class that the contents are released with. -/
def clear : Full × List (CString × ℕ) × Option ℕ :=
  let r := l.clearArgv
  match r.1.m_pRedisFullContents with
  | some _ =>
    ({ r.1 with m_pRedisFullContents := none, m_nContentsIdx := 0 }, r.2, some r.1.m_nContentsIdx)
  | none => (r.1, r.2, none)

/-- `getRedisContents` up to the read of the size table. -/
def getRedisContents (newBuf : ℕ → Option (List UInt8)) : Except Fault Full :=
  (l.fillContents newBuf).map (fun
    | some contents => { l with toCRedisList := contents }
    | none => { l with m_pRedisFullContents := none, m_nContentsIdx := getIndex l.nSize })

end Model

/-- The arrays hold the items in front, and NULL and 0 behind them. -/
structure Argv (l : Full) (items : List (CString × ℕ)) : Prop where
  argv : Filled none l.m_nMax l.m_pArgv (items.map (fun item => some item.1))
  len : Filled 0 l.m_nMax l.m_pArgvLen (items.map Prod.snd)
  use : l.m_nUse = items.length
  last : l.m_nLast = items.length

/-- A capacity from `alloc(n)` on. -/
structure Ready (l : Full) (items : List (CString × ℕ)) : Prop extends Argv l items where
  pos : 1 ≤ l.m_nMax
  int : l.m_nMax < 2^31

section Add

variable (l : Full) (items : List (CString × ℕ)) (Obj : CString) (nLen : ℕ) (ok : Bool)

theorem addSuccess_argv (h : l.Argv items) (hroom : items.length < l.m_nMax) :
    ∃ l', l.addSuccess items.length Obj nLen = .ok l' ∧ l'.Argv (items ++ [(Obj, nLen)]) ∧
      l'.m_nMax = l.m_nMax ∧ l'.m_pRedisFullContents = l.m_pRedisFullContents ∧
      l'.m_nContentsIdx = l.m_nContentsIdx := by
  have hin : items.length < l.m_pArgv.length ∧ items.length < l.m_pArgvLen.length := by
    rw [h.argv.length, h.len.length]
    exact ⟨hroom, hroom⟩
  have hlen : (items ++ [(Obj, nLen)]).length = items.length+1 := by
    rw [List.length_append, List.length_singleton]
  refine ⟨_, if_pos hin, ⟨?_, ?_, ?_, ?_⟩, rfl, rfl, rfl⟩
  · have hset := h.argv.set none l.m_nMax _ _ (some Obj) (by rwa [List.length_map])
    rw [List.length_map] at hset
    rwa [List.map_append]
  · have hset := h.len.set 0 l.m_nMax _ _ nLen (by rwa [List.length_map])
    rw [List.length_map] at hset
    rwa [List.map_append]
  · rw [hlen, h.use]
  · rw [hlen, h.last]

-- The slot at `m_nLast` is the first free one; the search behind it is never made.
theorem add_room (h : l.Argv items) (hroom : items.length < l.m_nMax) :
    l.add Obj nLen ok = (l.addSuccess items.length Obj nLen).map (·, some items.length) := by
  have hfree : l.m_pArgv[items.length]? = some none := by
    apply h.argv.getElem?_ge none l.m_nMax _ _ _ _ hroom
    rw [List.length_map]
  rw [add, if_neg (by rw [h.use]; omega), h.last, hfree]

theorem i32_double (m : ℕ) (hint : m < 2^31) (hover : 2^31 ≤ m*2) : i32 ((m : ℤ)*2) < 0 := by
  rw [i32, Int.bmod_def]
  omega

/-- The list with both arrays twice as large. -/
def doubled : Full :=
  { l with
    m_pArgv := l.m_pArgv ++ List.replicate l.m_nMax none
    m_pArgvLen := l.m_pArgvLen ++ List.replicate l.m_nMax 0
    m_nMax := l.m_nMax*2 }

theorem argv_doubled (h : l.Argv items) : l.doubled.Argv items := by
  refine ⟨?_, ?_, h.use, h.last⟩
  · have hgrow := h.argv.grow none l.m_nMax _ _ l.m_nMax
    rwa [← mul_two] at hgrow
  · have hgrow := h.len.grow 0 l.m_nMax _ _ l.m_nMax
    rwa [← mul_two] at hgrow

variable (h : l.Ready items) (hfull : items.length = l.m_nMax)

include h hfull

theorem add_full (hint : l.m_nMax*2 < 2^31) : l.add Obj nLen ok =
    if ok then (l.doubled.addSuccess items.length Obj nLen).map (·, some items.length)
    else .ok (l, none) := by
  have hpos := h.pos
  have hsize : i32 ((l.m_nMax : ℤ)*2) = (l.m_nMax*2 : ℕ) := by
    rw [Nat.cast_mul]
    exact i32_of_range _ (by omega) (by push_cast; omega)
  have hlarger : ¬((l.m_nMax*2 : ℕ) : ℤ) ≤ l.m_nMax := by
    push_cast
    omega
  have htake : l.m_pArgv.take l.m_nMax = l.m_pArgv := List.take_of_length_le h.argv.length.le
  have htakeLen : l.m_pArgvLen.take l.m_nMax = l.m_pArgvLen := List.take_of_length_le h.len.length.le
  have hmore : l.m_nMax*2-l.m_nMax = l.m_nMax := by omega
  rw [add, if_pos (by rw [h.use, hfull]), hsize, _alloc, if_neg hlarger, hfull]
  cases ok with
  | false => rfl
  | true =>
    rw [if_pos rfl, htake, htakeLen, Int.toNat_natCast, hmore]
    exact if_neg (by omega)

-- The doubled capacity is negative, `__alloc` answers the old one, and the store goes behind the arrays.
theorem add_over (hover : 2^31 ≤ l.m_nMax*2) : l.add Obj nLen ok = .error .outOfBounds := by
  have hpos := h.pos
  have hneg := i32_double l.m_nMax h.int hover
  have hsmall : i32 ((l.m_nMax : ℤ)*2) ≤ l.m_nMax := by omega
  have hne : ¬l.m_nMax = 0 := by omega
  have hout : ¬(l.m_nMax < l.m_pArgv.length ∧ l.m_nMax < l.m_pArgvLen.length) := by
    rw [h.argv.length]
    exact fun hlt => absurd hlt.1 (lt_irrefl _)
  rw [add, if_pos (by rw [h.use, hfull]), _alloc, if_pos hsmall]
  show (if l.m_nMax = 0 then _ else _) = _
  rw [if_neg hne]
  exact congrArg (Except.map _) (if_neg hout)

omit hfull in
/-- The item goes behind the others, into the arrays or into the larger ones. -/
theorem add_stores (hok : items.length = l.m_nMax → ok = true)
    (hdoubles : l.m_nUse = l.m_nMax → l.m_nMax*2 < 2^31) :
    ∃ l', l.add Obj nLen ok = .ok (l', some items.length) ∧ l'.Ready (items ++ [(Obj, nLen)]) ∧
      items.length < l'.m_nMax ∧ l'.m_pRedisFullContents = l.m_pRedisFullContents ∧
      l'.m_nContentsIdx = l.m_nContentsIdx := by
  have hpos := h.pos
  have hle := h.argv.le
  rw [List.length_map] at hle
  rcases lt_or_eq_of_le hle with hroom | hfull
  · obtain ⟨l', hput, hargv, hmax, hcontents, hidx⟩ :=
      addSuccess_argv l items Obj nLen h.toArgv hroom
    refine ⟨l', ?_, ⟨hargv, by omega, hmax ▸ h.int⟩, by omega, hcontents, hidx⟩
    rw [add_room l items Obj nLen ok h.toArgv hroom, hput]
    rfl
  · have hint := hdoubles (h.use.trans hfull)
    have hroom : items.length < l.doubled.m_nMax := by
      show items.length < l.m_nMax*2
      omega
    obtain ⟨l', hput, hargv, hmax, hcontents, hidx⟩ :=
      addSuccess_argv l.doubled items Obj nLen (argv_doubled l items h.toArgv) hroom
    have hmax' : l'.m_nMax = l.m_nMax*2 := hmax
    refine ⟨l', ?_, ⟨hargv, by omega, by omega⟩, by omega, hcontents, hidx⟩
    rw [add_full l items Obj nLen ok h hfull hint, if_pos (hok hfull), hput]
    rfl

end Add

section Clear

variable (l : Full) (items : List (CString × ℕ))

theorem listClear_argv (h : l.Argv items) : l.listClear.1.Argv [] := by
  have hargv : l.listClear.1.m_pArgv = List.replicate l.m_nMax none := by
    rw [listClear, List.drop_of_length_le h.argv.length.le, List.append_nil]
  have hlen : l.listClear.1.m_pArgvLen = List.replicate l.m_nMax 0 := by
    rw [listClear, List.drop_of_length_le h.len.length.le, List.append_nil]
  refine ⟨?_, ?_, rfl, rfl⟩
  · rw [hargv]
    exact Filled.empty none l.m_nMax
  · rw [hlen]
    exact Filled.empty 0 l.m_nMax

theorem clear_argv (h : l.Argv items) : l.clear.1.Argv [] ∧ l.clear.1.m_nMax = l.m_nMax := by
  have hlist : l.clearArgv.1.Argv [] ∧ l.clearArgv.1.m_nMax = l.m_nMax := by
    rw [clearArgv]
    by_cases hempty : l.m_nUse = 0
    · obtain rfl := List.length_eq_zero_iff.mp (h.use.symm.trans hempty)
      rw [if_pos hempty]
      exact ⟨h, rfl⟩
    · rw [if_neg hempty]
      exact ⟨listClear_argv l items h, rfl⟩
  rw [clear]
  cases l.clearArgv.1.m_pRedisFullContents with
  | none => exact hlist
  | some _ => exact ⟨⟨hlist.1.argv, hlist.1.len, hlist.1.use, hlist.1.last⟩, hlist.2⟩

theorem alloc_eq (n : ℕ) (hn : 1 ≤ n) (type : EAllocType) : init.alloc n type true =
    ⟨⟨List.replicate n none, 0, 0, none, 0⟩, List.replicate n 0, n, type⟩ := by
  have hlarger : ¬(n : ℤ) ≤ ({ init with m_nObjAllocType := type } : Full).m_nMax := by
    show ¬(n : ℤ) ≤ (0 : ℕ)
    omega
  rw [alloc, _alloc, if_neg hlarger]
  rfl

theorem ready_alloc (n : ℕ) (hn : 1 ≤ n) (hint : n < 2^31) (type : EAllocType) :
    (init.alloc n type true).Ready [] := by
  rw [alloc_eq n hn type]
  exact ⟨⟨Filled.empty none n, Filled.empty 0 n, rfl, rfl⟩, hn, hint⟩

end Clear

section Run

theorem ok_of_toOption {ε α : Type} (x : Except ε α) (a : α) (h : x.toOption = some a) : x = .ok a := by
  cases x with
  | error e => cases h
  | ok b => exact congrArg Except.ok (Option.some.inj h)

/-- A list, and the items added since it was empty. -/
structure Traced where
  list : Full
  items : List (CString × ℕ)

/-- `block` is the memory that `newBuf` answers, with what is in it. -/
inductive Call
  | add (Obj : CString) (nLen : ℕ) (ok : Bool)
  | pushBack (Obj : CString) (nLen : ℕ) (ok : Bool)
  | getRedisContents (block : Option (ℕ → UInt8))
  | clear

namespace Traced

variable (s : Traced)

/-- The state after a call of `add` or `push_back` with this answer. -/
def added (item : CString × ℕ) (r : Full × Option ℕ) : Traced where
  list := r.1
  items := if r.2.isSome then s.items ++ [item] else s.items

/-- `newBuf` of a size, for a block of memory. -/
def newBuf (block : Option (ℕ → UInt8)) (nSize : ℕ) : Option (List UInt8) :=
  block.map (fun fill => (List.range nSize).map fill)

def step : Call → Option Traced
  | .add Obj nLen ok => (s.list.add Obj nLen ok).toOption.map (s.added (Obj, nLen))
  | .pushBack Obj nLen ok => (s.list.pushBack Obj nLen ok).toOption.map (s.added (Obj, nLen))
  | .getRedisContents block =>
    (s.list.getRedisContents (newBuf block)).toOption.map (fun l => { s with list := l })
  | .clear => some { list := s.list.clear.1, items := [] }

/-- The calls that build the arguments, with allocations that succeed. -/
def Builds (_ : Traced) : Call → Prop
  | .add _ _ ok | .pushBack _ _ ok => ok = true
  | .getRedisContents _ => False
  | .clear => True

/-- The item is stored behind the others, at an index of the arrays, and nothing else is in them. -/
def Stored (item : CString × ℕ) (r : Except Fault (Full × Option ℕ)) : Prop :=
  ∃ l, r = .ok (l, some s.items.length) ∧ s.items.length < l.m_nMax ∧ l.Argv (s.items ++ [item])

/-- The call does to the arrays what it is meant to do. -/
def Dense : Call → Prop
  | .add Obj nLen ok => s.Stored (Obj, nLen) (s.list.add Obj nLen ok)
  | .pushBack Obj nLen ok => s.Stored (Obj, nLen) (s.list.pushBack Obj nLen ok)
  | .getRedisContents _ => True
  | .clear => s.list.clear.1.Argv []

/-- A full list has a capacity whose double is an `int`. -/
def Doubles : Call → Prop
  | .add _ _ _ | .pushBack _ _ _ => s.list.m_nUse = s.list.m_nMax → s.list.m_nMax*2 < 2^31
  | .getRedisContents _ | .clear => True

instance : (c : Call) → Decidable (s.Builds c)
  | .add _ _ ok | .pushBack _ _ ok => inferInstanceAs (Decidable (ok = true))
  | .getRedisContents _ => isFalse id
  | .clear => isTrue trivial

instance : (c : Call) → Decidable (s.Doubles c)
  | .add _ _ _ | .pushBack _ _ _ =>
    inferInstanceAs (Decidable (s.list.m_nUse = s.list.m_nMax → s.list.m_nMax*2 < 2^31))
  | .getRedisContents _ | .clear => isTrue trivial

section Steps

variable (h : s.list.Ready s.items)

include h

theorem add_over_iff (Obj : CString) (nLen : ℕ) :
    (∃ r, s.list.add Obj nLen true = .ok r) ↔
      (s.list.m_nUse = s.list.m_nMax → s.list.m_nMax*2 < 2^31) := by
  constructor
  · rintro ⟨r, hr⟩ hfull
    by_contra hover
    rw [add_over s.list s.items Obj nLen true h (h.use.symm.trans hfull) (not_lt.mp hover)] at hr
    cases hr
  · intro hdoubles
    obtain ⟨l', hadd, -⟩ := add_stores s.list s.items Obj nLen true h (fun _ => rfl) hdoubles
    exact ⟨_, hadd⟩

theorem dense_iff (c : Call) (hc : s.Builds c) : s.Dense c ↔ s.Doubles c := by
  have hadd (Obj : CString) (nLen : ℕ) :
      s.Stored (Obj, nLen) (s.list.add Obj nLen true) ↔
        (s.list.m_nUse = s.list.m_nMax → s.list.m_nMax*2 < 2^31) := by
    constructor
    · rintro ⟨l, hl, -⟩
      exact (add_over_iff s h Obj nLen).mp ⟨_, hl⟩
    · intro hdoubles
      obtain ⟨l', hl', hready, hindex, -⟩ :=
        add_stores s.list s.items Obj nLen true h (fun _ => rfl) hdoubles
      exact ⟨l', hl', hindex, hready.toArgv⟩
  cases c with
  | add Obj nLen ok =>
    obtain rfl : ok = true := hc
    exact hadd Obj nLen
  | pushBack Obj nLen ok =>
    obtain rfl : ok = true := hc
    refine Iff.trans ?_ (hadd Obj nLen)
    constructor
    · rintro ⟨l, hl, -⟩
      obtain ⟨r, hr, -⟩ := (map_eq_ok _ _ _).mp hl
      exact (hadd Obj nLen).mpr ((add_over_iff s h Obj nLen).mp ⟨r, hr⟩)
    · rintro ⟨l, hl, hindex, hargv⟩
      refine ⟨{ l with m_nContentsIdx := l.m_nContentsIdx+nLen }, ?_, hindex,
        ⟨hargv.argv, hargv.len, hargv.use, hargv.last⟩⟩
      show (s.list.add Obj nLen true).map _ = _
      rw [hl]
      rfl
  | getRedisContents _ => exact hc.elim
  | clear => exact iff_of_true (clear_argv s.list s.items h.toArgv).1 trivial

-- A full list that does not grow stores nothing.
theorem add_refused (Obj : CString) (nLen : ℕ) (ok : Bool) (r : Full × Option ℕ)
    (hr : s.list.add Obj nLen ok = .ok r) (hfull : s.list.m_nUse = s.list.m_nMax)
    (hgrow : ok = false ∨ 2^31 ≤ s.list.m_nMax*2) : r = (s.list, none) := by
  have hlen := h.use.symm.trans hfull
  rcases lt_or_ge (s.list.m_nMax*2) (2^31) with hint | hover
  · obtain rfl : ok = false := hgrow.resolve_right (not_le.mpr hint)
    rw [add_full s.list s.items Obj nLen false h hlen hint] at hr
    exact (Except.ok.inj hr).symm
  · rw [add_over s.list s.items Obj nLen ok h hlen hover] at hr
    cases hr

-- A call of `add` that does not fault stores the item or leaves the list as it is.
theorem add_cases (Obj : CString) (nLen : ℕ) (ok : Bool) (r : Full × Option ℕ)
    (hr : s.list.add Obj nLen ok = .ok r) :
    (r = (s.list, none) ∧ s.list.m_nUse = s.list.m_nMax ∧ ok = false) ∨
    (r.2 = some s.items.length ∧ r.1.Ready (s.items ++ [(Obj, nLen)]) ∧
      r.1.m_pRedisFullContents = s.list.m_pRedisFullContents ∧
      r.1.m_nContentsIdx = s.list.m_nContentsIdx) := by
  by_cases hdoubles : s.list.m_nUse = s.list.m_nMax → s.list.m_nMax*2 < 2^31
  · by_cases hok : s.items.length = s.list.m_nMax → ok = true
    · obtain ⟨l', hadd, hready, -, hcontents, hidx⟩ :=
        add_stores s.list s.items Obj nLen ok h hok hdoubles
      obtain rfl := Except.ok.inj (hadd.symm.trans hr)
      exact Or.inr ⟨rfl, hready, hcontents, hidx⟩
    · push Not at hok
      obtain ⟨hfull, hno⟩ := hok
      obtain rfl : ok = false := Bool.eq_false_iff.mpr hno
      have huse := h.use.trans hfull
      exact Or.inl ⟨add_refused s h Obj nLen false r hr huse (Or.inl rfl), huse, rfl⟩
  · push Not at hdoubles
    rw [add_over s.list s.items Obj nLen ok h (h.use.symm.trans hdoubles.1) hdoubles.2] at hr
    cases hr

theorem ready_added (Obj : CString) (nLen : ℕ) (ok : Bool) (r : Full × Option ℕ)
    (hr : s.list.add Obj nLen ok = .ok r) :
    (s.added (Obj, nLen) r).list.Ready (s.added (Obj, nLen) r).items := by
  rcases add_cases s h Obj nLen ok r hr with ⟨rfl, -⟩ | ⟨hindex, hready, -⟩
  · exact h
  · rw [added, hindex]
    exact hready

theorem ready_pushed (Obj : CString) (nLen : ℕ) (ok : Bool) (r : Full × Option ℕ)
    (hr : s.list.pushBack Obj nLen ok = .ok r) :
    (s.added (Obj, nLen) r).list.Ready (s.added (Obj, nLen) r).items := by
  obtain ⟨r', hr', rfl⟩ := (map_eq_ok _ _ _).mp hr
  have hready := ready_added s h Obj nLen ok r' hr'
  cases hindex : r'.2 with
  | none =>
    rw [added, hindex] at hready
    exact hready
  | some i =>
    rw [added, hindex] at hready
    exact ⟨⟨hready.argv, hready.len, hready.use, hready.last⟩, hready.pos, hready.int⟩

theorem ready_clear : s.list.clear.1.Ready [] := by
  obtain ⟨hargv, hmax⟩ := clear_argv s.list s.items h.toArgv
  exact ⟨hargv, hmax ▸ h.pos, hmax ▸ h.int⟩

theorem ready_builds (c : Call) (t : Traced) (hc : s.Builds c) (ht : s.step c = some t) :
    t.list.Ready t.items := by
  cases c with
  | add Obj nLen ok =>
    obtain ⟨r, hr, rfl⟩ := Option.map_eq_some_iff.mp ht
    exact ready_added s h Obj nLen ok r (ok_of_toOption _ r hr)
  | pushBack Obj nLen ok =>
    obtain ⟨r, hr, rfl⟩ := Option.map_eq_some_iff.mp ht
    exact ready_pushed s h Obj nLen ok r (ok_of_toOption _ r hr)
  | getRedisContents _ => exact hc.elim
  | clear =>
    obtain rfl := Option.some.inj ht
    exact ready_clear s h

end Steps

/-- The list after `alloc(n)`. -/
def allocated (n : ℕ) (type : EAllocType) : Traced := { list := init.alloc n type true, items := [] }

/-- From `alloc(n)` on, `add`, `push_back` and `clear` keep both arrays dense all along a run exactly when
no list is full with a capacity whose double is not an `int`. -/
theorem dense_along_iff (n : ℕ) (hn : 1 ≤ n) (hint : n < 2^31) (type : EAllocType) (calls : List Call)
    (hbuilds : Runs.Along step Builds (allocated n type) calls) :
    Runs.Along step Dense (allocated n type) calls ↔ Runs.Along step Doubles (allocated n type) calls := by
  apply Runs.along_iff_of_invariant step Builds Dense Doubles (fun s => s.list.Ready s.items)
  · intro s c t h hc _ ht
    exact ready_builds s h c t hc ht
  · intro s c h hc
    exact dense_iff s h c hc
  · exact ready_alloc n hn hint type
  · exact hbuilds

theorem dense_along_iff_growing : Runs.Along step Dense (allocated 1 .none)
    [.add ⟨[65], by decide⟩ 1 true, .pushBack ⟨[66, 66], by decide⟩ 2 true, .clear,
      .pushBack ⟨[67], by decide⟩ 1 true] :=
  (dense_along_iff 1 le_rfl (by decide) .none _ (by decide)).mpr (by decide)

-- A list that is filled without growing.
theorem fill_up (s : Traced) (h : s.list.Ready s.items) (Obj : CString) (nLen k : ℕ)
    (hfits : s.items.length+k ≤ s.list.m_nMax) :
    ∃ t, Runs.runFrom step s (List.replicate k (.add Obj nLen true)) = some t ∧ t.list.Ready t.items ∧
      t.items.length = s.items.length+k ∧ t.list.m_nMax = s.list.m_nMax := by
  induction k generalizing s with
  | zero => exact ⟨s, rfl, h, rfl, rfl⟩
  | succ k ih =>
    obtain ⟨l', hput, hargv, hmax, -⟩ :=
      addSuccess_argv s.list s.items Obj nLen h.toArgv (by omega)
    have hstep : s.step (.add Obj nLen true) =
        some { list := l', items := s.items ++ [(Obj, nLen)] } := by
      rw [step, add_room s.list s.items Obj nLen true h.toArgv (by omega), hput]
      rfl
    have hlen : (s.items ++ [(Obj, nLen)]).length = s.items.length+1 := by
      rw [List.length_append, List.length_singleton]
    obtain ⟨t, hrun, hready, hitems, htmax⟩ := ih { list := l', items := s.items ++ [(Obj, nLen)] }
      ⟨hargv, hmax ▸ h.pos, hmax ▸ h.int⟩ (by rw [hlen, hmax]; omega)
    refine ⟨t, ?_, hready, ?_, htmax.trans hmax⟩
    · rw [List.replicate_succ]
      exact (Runs.runFrom_cons_iff step _ _ _ _).mpr ⟨_, hstep, hrun⟩
    · rw [hitems, hlen]
      omega

-- The double of 2^30 is no `int`.
theorem not_dense_along : ¬Runs.Along step Dense (allocated (2^30) .none)
    (List.replicate (2^30) (.add ⟨[65], by decide⟩ 1 true) ++ [.add ⟨[65], by decide⟩ 1 true]) := by
  intro halong
  have hready := ready_alloc (2^30) (by decide) (by decide) .none
  have hmax : (init.alloc (2^30) .none true).m_nMax = 2^30 := rfl
  obtain ⟨t, hrun, ht, hitems, htmax⟩ := fill_up (allocated (2^30) .none) hready ⟨[65], by decide⟩ 1 (2^30)
    (by rw [allocated, hmax]; rfl)
  obtain ⟨l, hl, -⟩ := Runs.along_after step Dense _ t _ [] _ hrun halong
  have hfull : t.items.length = 2^30 := hitems
  have hcap : t.list.m_nMax = 2^30 := htmax
  rw [add_over t.list t.items _ 1 true ht (by rw [hfull, hcap]) (by rw [hcap]; decide)] at hl
  cases hl

end Traced

end Run

end Full

end Leviathan.CRedisList
