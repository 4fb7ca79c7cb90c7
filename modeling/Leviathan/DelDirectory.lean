import Leviathan.FileList
import Mathlib.Data.List.GetD
import Mathlib.Data.List.ReduceOption

/-! `CFileUtil::delDirectory` (comFileUtil.cpp): the files of a list are removed from the disk, and
their records from the list. -/
namespace Leviathan.CFileUtil

section Model

/-- The calls that remove a file or a directory. -/
inductive SysCall
  | tremove (fname : List Char)
  | rmdir (fname : List Char)
  deriving DecidableEq

/-- The variables of the loop, and the calls it has made. -/
structure DelState where
  pList : CSList STFileInfoEx
  nCount : ℕ
  calls : List SysCall

/-- `_tremove`: 0, or -1 when it fails. -/
def tremoveResult (succeeds : Bool) : ℤ := if succeeds then 0 else -1

-- the filter, and whether a system call succeeds, counted from the first one
variable (fs : FileSystem) (pFilter : Option (List Char → CFileTime → Bool))
  (succeeds : ℕ → Bool) (nFlag : ℕ)

def isSelected (pFileInfo : STFileInfoEx) : Bool :=
  pFilter.all (fun pFunc => pFunc pFileInfo.fname pFileInfo.stFileTime)

/-- The system call for a record: `nResult`, which is positive when it has succeeded, and the calls. -/
def removeFile (pFileInfo : STFileInfoEx) (calls : List SysCall) : ℤ × List SysCall :=
  if pFileInfo.stat = 'D' then
    if nFlag &&& HAS_DIRNAME ≠ 0 then
      (if succeeds calls.length then 1 else 0, calls ++ [.rmdir pFileInfo.fname])
    else (0, calls)
  else
    let nResult := tremoveResult (succeeds calls.length)
    (if nResult < 0 then nResult else 1, calls ++ [.tremove pFileInfo.fname])

/-- One pass of the loop. -/
def delRecord (nIdx : ℕ) (pFileInfo : STFileInfoEx) (s : DelState) : DelState :=
  if isSelected pFilter pFileInfo then
    let (nResult, calls) := removeFile succeeds nFlag pFileInfo s.calls
    if 0 < nResult then ⟨(s.pList.delAt nIdx true).1, s.nCount+1, calls⟩ else { s with calls }
  else s

/-- The loop, for at most `k` records. -/
def delLoop : ℕ → ℕ → DelState → DelState
  | 0, _, s => s
  | k+1, nIdx, s =>
    match s.pList.getNext nIdx with
    | (nIdx, some pFileInfo) => delLoop k (nIdx+1) (delRecord pFilter succeeds nFlag nIdx pFileInfo s)
    | (_, none) => s

/-- `delDirectory`: what it leaves in `pData`, its answer, and the calls. -/
def delDirectory (pData : STFileList) : Except Fault (STFileList × ℕ × List SysCall) :=
  if com_isDirectory fs pData.root then
    match pData.pList with
    | none => .error .nullRead
    | some pList =>
      let s := delLoop pFilter succeeds pData.nFlag pList.m_nMax 0 ⟨pList, 0, []⟩
      .ok ({ pData with pList := if s.pList.m_nUse = 0 then none else some s.pList }, s.nCount, s.calls)
  else .ok (pData, 0, [])

/-- The list that `appendFileList` makes of some records. -/
def appendFileLists (recs : List STFileInfoEx) : Except Fault (Option (CSList STFileInfoEx)) :=
  recs.foldlM (fun pList r => (appendFileList pList r.fname r.stat r.stFileTime r.nSize).map some) none

end Model

section Meaning

variable (pFilter : Option (List Char → CFileTime → Bool)) (succeeds : ℕ → Bool) (nFlag : ℕ)

/-- The records whose removal is attempted. -/
def isAttempted (r : STFileInfoEx) : Bool :=
  isSelected pFilter r && (r.stat ≠ 'D' || nFlag &&& HAS_DIRNAME ≠ 0)

def callOf (r : STFileInfoEx) : SysCall := if r.stat = 'D' then .rmdir r.fname else .tremove r.fname

/-- The records that are not removed when the calls for them are counted from `n` on. -/
def notRemoved : ℕ → List STFileInfoEx → List STFileInfoEx
  | _, [] => []
  | n, r :: recs =>
    if isAttempted pFilter nFlag r then
      if succeeds n then notRemoved (n+1) recs else r :: notRemoved (n+1) recs
    else r :: notRemoved n recs

/-- The records of a list. -/
def recordsOf (pList : Option (CSList STFileInfoEx)) : List STFileInfoEx :=
  match pList with
  | none => []
  | some l => l.m_pArray.reduceOption

/-- Each record of `recs` that is to be removed gets one call, in order; those whose call fails stay
in the list with the others, and the answer counts the rest. -/
structure InStep (recs : List STFileInfoEx) (r : STFileList × ℕ × List SysCall) : Prop where
  calls : r.2.2 = (recs.filter (isAttempted pFilter nFlag)).map callOf
  records : recordsOf r.1.pList = notRemoved pFilter succeeds nFlag 0 recs
  count : r.2.1+(notRemoved pFilter succeeds nFlag 0 recs).length = recs.length
  null : r.1.pList = none ↔ notRemoved pFilter succeeds nFlag 0 recs = []

/-- The array has its length, and `m_nUse` counts the records. -/
structure Counted (l : CSList STFileInfoEx) (recs : List STFileInfoEx) : Prop where
  length : l.m_pArray.length = l.m_nMax
  use : l.m_nUse = recs.length
  records : l.m_pArray.reduceOption = recs

end Meaning

section Slots

variable {β : Type} (l : CSList β) (done todo : List (Option β)) (hmax : l.m_pArray.length = l.m_nMax)

theorem slot_at (o : Option β) (h : l.m_pArray = done ++ o :: todo) : l.slot done.length = o := by
  rw [CSList.slot, h, List.getD_append_right _ _ _ _ le_rfl, Nat.sub_self]
  rfl

-- Objects read from the slots come in the order of the array.
theorem reduceOption_of_slots (slots : List (Option β)) (xs : List β)
    (h : ∀ i, slots.getD i none = xs[i]?) :
    slots.reduceOption = xs := by
  induction slots generalizing xs with
  | nil =>
    have hnil : xs[0]? = none := (h 0).symm
    rw [List.getElem?_eq_none_iff, Nat.le_zero, List.length_eq_zero_iff] at hnil
    rw [hnil]
    rfl
  | cons o slots ih =>
    cases xs with
    | nil =>
      have hnone : o = none := h 0
      rw [hnone, List.reduceOption_cons_of_none]
      exact ih [] (fun i => h (i+1))
    | cons x xs =>
      have hsome : o = some x := h 0
      rw [hsome, List.reduceOption_cons_of_some, ih xs (fun i => h (i+1))]

include hmax

theorem getNext_skip (h : l.m_pArray = done ++ none :: todo) :
    l.getNext done.length = l.getNext (done.length+1) := by
  have hlen : done.length+1 ≤ l.m_nMax := by
    rw [← hmax, h, List.length_append, List.length_cons]
    omega
  obtain ⟨d, hd⟩ := Nat.exists_eq_add_of_le hlen
  have hleft : l.m_nMax-done.length = d+1 := by
    omega
  have hnext : l.m_nMax-(done.length+1) = d := by
    omega
  rw [CSList.getNext, CSList.getNext, hleft, hnext, CSList.getNextLoop, slot_at l done todo none h]

theorem getNext_found (x : β) (h : l.m_pArray = done ++ some x :: todo) :
    l.getNext done.length = (done.length, some x) := by
  obtain ⟨d, hd⟩ : ∃ d, l.m_nMax-done.length = d+1 := by
    apply Nat.exists_eq_succ_of_ne_zero
    rw [← hmax, h, List.length_append, List.length_cons]
    omega
  rw [CSList.getNext, hd, CSList.getNextLoop, slot_at l done todo (some x) h]

theorem getNext_end (h : l.m_pArray = done) : l.getNext done.length = (done.length, none) := by
  rw [CSList.getNext, ← hmax, h, Nat.sub_self, CSList.getNextLoop]

theorem delAt_at (x : β) (h : l.m_pArray = done ++ some x :: todo) :
    (l.delAt done.length true).1 =
      { l with m_pArray := done ++ none :: todo, m_nUse := l.m_nUse-1 } := by
  have hlt : done.length < l.m_nMax := by
    rw [← hmax, h, List.length_append, List.length_cons]
    omega
  have hincl : isInclude (done.length : ℤ) l.m_nMax = true :=
    (isInclude_iff _ _).mpr ⟨by omega, by exact_mod_cast hlt⟩
  have hset : (done ++ some x :: todo).set done.length none = done ++ none :: todo := by
    rw [List.set_append_right _ _ le_rfl, Nat.sub_self]
    rfl
  rw [CSList.delAt, if_pos hincl]
  dsimp only
  rw [CSList._DEL, Int.toNat_natCast, h, hset]

end Slots

section Loop

variable (pFilter : Option (List Char → CFileTime → Bool)) (succeeds : ℕ → Bool) (nFlag : ℕ)

-- A record that is not selected, or a directory without the flag, gets no call.
theorem delRecord_skip (nIdx : ℕ) (r : STFileInfoEx) (s : DelState)
    (h : isAttempted pFilter nFlag r = false) :
    delRecord pFilter succeeds nFlag nIdx r s = s := by
  rw [isAttempted, Bool.and_eq_false_iff] at h
  unfold delRecord
  by_cases hsel : isSelected pFilter r = true
  · have hkind := h.resolve_left (by rw [hsel]; decide)
    rw [Bool.or_eq_false_iff, decide_eq_false_iff_not, decide_eq_false_iff_not] at hkind
    have hdir : r.stat = 'D' := not_not.mp hkind.1
    rw [if_pos hsel, removeFile, if_pos hdir, if_neg hkind.2]
    rfl
  · rw [if_neg hsel]

theorem removeFile_eq (r : STFileInfoEx) (calls : List SysCall)
    (h : isAttempted pFilter nFlag r = true) :
    (0 < (removeFile succeeds nFlag r calls).1 ↔ succeeds calls.length = true) ∧
      (removeFile succeeds nFlag r calls).2 = calls ++ [callOf r] := by
  rw [isAttempted, Bool.and_eq_true] at h
  unfold removeFile callOf
  by_cases hdir : r.stat = 'D'
  · have hflag : nFlag &&& HAS_DIRNAME ≠ 0 := by
      simpa [hdir] using h.2
    rw [if_pos hdir, if_pos hflag, if_pos hdir]
    cases succeeds calls.length <;> simp
  · rw [if_neg hdir, if_neg hdir]
    unfold tremoveResult
    cases succeeds calls.length <;> simp

theorem delRecord_call (nIdx : ℕ) (r : STFileInfoEx) (s : DelState)
    (h : isAttempted pFilter nFlag r = true) :
    delRecord pFilter succeeds nFlag nIdx r s =
      if succeeds s.calls.length then ⟨(s.pList.delAt nIdx true).1, s.nCount+1, s.calls ++ [callOf r]⟩
      else { s with calls := s.calls ++ [callOf r] } := by
  obtain ⟨hpos, hcalls⟩ := removeFile_eq pFilter succeeds nFlag r s.calls h
  have hsel : isSelected pFilter r = true := by
    rw [isAttempted, Bool.and_eq_true] at h
    exact h.1
  rw [delRecord, if_pos hsel]
  dsimp only
  rw [hcalls, if_congr hpos rfl rfl]

theorem delLoop_skip (k i : ℕ) (s : DelState) (h : s.pList.getNext i = s.pList.getNext (i+1)) :
    delLoop pFilter succeeds nFlag k i s = delLoop pFilter succeeds nFlag k (i+1) s := by
  cases k with
  | zero => rfl
  | succ k => rw [delLoop, delLoop, h]

/-- The slots `todo` behind those that are done have become `todo'`. -/
structure Swept (s s' : DelState) (done todo todo' rest : List (Option STFileInfoEx)) : Prop where
  list : ∃ use, s'.pList = { s.pList with m_pArray := done ++ todo' ++ rest, m_nUse := use } ∧
    use+todo.reduceOption.length = s.pList.m_nUse+todo'.reduceOption.length
  length : todo'.length = todo.length
  records : todo'.reduceOption = notRemoved pFilter succeeds nFlag s.calls.length todo.reduceOption
  count : s'.nCount+todo'.reduceOption.length = s.nCount+todo.reduceOption.length
  calls : s'.calls = s.calls ++ (todo.reduceOption.filter (isAttempted pFilter nFlag)).map callOf

theorem notRemoved_append (n : ℕ) (xs ys : List STFileInfoEx) :
    notRemoved pFilter succeeds nFlag n (xs ++ ys) = notRemoved pFilter succeeds nFlag n xs ++
      notRemoved pFilter succeeds nFlag (n+(xs.filter (isAttempted pFilter nFlag)).length) ys := by
  induction xs generalizing n with
  | nil => rfl
  | cons x xs ih =>
    rw [List.cons_append, notRemoved, notRemoved]
    by_cases hx : isAttempted pFilter nFlag x = true
    · have hlen : n+1+(xs.filter (isAttempted pFilter nFlag)).length =
          n+((x :: xs).filter (isAttempted pFilter nFlag)).length := by
        rw [List.filter_cons_of_pos hx, List.length_cons]
        omega
      rw [if_pos hx, if_pos hx, ih, hlen]
      split_ifs
      · rfl
      · exact (List.cons_append).symm
    · rw [if_neg hx, if_neg hx, ih, List.filter_cons_of_neg hx, List.cons_append]

variable {pFilter succeeds nFlag}

-- First some slots, then the ones behind them.
theorem Swept.trans {s s₁ s₂ : DelState} {done a a' b b' : List (Option STFileInfoEx)}
    (h₁ : Swept pFilter succeeds nFlag s s₁ done a a' b)
    (h₂ : Swept pFilter succeeds nFlag s₁ s₂ (done ++ a') b b' []) :
    Swept pFilter succeeds nFlag s s₂ done (a ++ b) (a' ++ b') [] := by
  obtain ⟨use₁, hlist₁, huse₁⟩ := h₁.list
  obtain ⟨use₂, hlist₂, huse₂⟩ := h₂.list
  have hcalls : s₁.calls.length = s.calls.length+(a.reduceOption.filter
      (isAttempted pFilter nFlag)).length := by
    rw [h₁.calls, List.length_append, List.length_map]
  refine ⟨⟨use₂, ?_, ?_⟩, ?_, ?_, ?_, ?_⟩
  · rw [hlist₂, hlist₁, ← List.append_assoc done a' b']
  · rw [hlist₁] at huse₂
    dsimp only at huse₂
    rw [List.reduceOption_append, List.reduceOption_append, List.length_append, List.length_append]
    push_cast
    omega
  · rw [List.length_append, List.length_append, h₁.length, h₂.length]
  · rw [List.reduceOption_append, List.reduceOption_append, h₁.records, h₂.records, hcalls,
      notRemoved_append]
  · have hcount₁ := h₁.count
    have hcount₂ := h₂.count
    rw [List.reduceOption_append, List.reduceOption_append, List.length_append, List.length_append]
    omega
  · rw [h₂.calls, h₁.calls, List.reduceOption_append, List.filter_append, List.map_append,
      List.append_assoc]

-- Nothing is done to slots without a record to remove.
theorem swept_same (s : DelState) (done todo rest : List (Option STFileInfoEx))
    (h : s.pList.m_pArray = done ++ todo ++ rest)
    (hnone : ∀ r ∈ todo.reduceOption, isAttempted pFilter nFlag r = false) :
    Swept pFilter succeeds nFlag s s done todo todo rest := by
  have hkeep (n : ℕ) (xs : List STFileInfoEx) (hxs : ∀ r ∈ xs, isAttempted pFilter nFlag r = false) :
      notRemoved pFilter succeeds nFlag n xs = xs := by
    induction xs with
    | nil => rfl
    | cons x xs ih =>
      rw [notRemoved, if_neg (by rw [hxs x List.mem_cons_self]; decide),
        ih (fun r hr => hxs r (List.mem_cons_of_mem x hr))]
  refine ⟨⟨s.pList.m_nUse, ?_, rfl⟩, rfl, (hkeep _ _ hnone).symm, rfl, ?_⟩
  · rw [← h]
  · rw [List.filter_eq_nil_iff.mpr (fun r hr => by rw [hnone r hr]; decide)]
    exact (List.append_nil _).symm

variable (pFilter succeeds nFlag)

-- One slot with a record: it stays or is made free.
theorem delRecord_swept (r : STFileInfoEx) (s : DelState) (done todo : List (Option STFileInfoEx))
    (hmax : s.pList.m_pArray.length = s.pList.m_nMax) (h : s.pList.m_pArray = done ++ some r :: todo) :
    ∃ o, Swept pFilter succeeds nFlag s (delRecord pFilter succeeds nFlag done.length r s)
      done [some r] [o] todo := by
  have hcons : s.pList.m_pArray = done ++ [some r] ++ todo := by
    rw [h, List.append_assoc]
    rfl
  cases hatt : isAttempted pFilter nFlag r with
  | false =>
    rw [delRecord_skip pFilter succeeds nFlag _ r s hatt]
    refine ⟨some r, swept_same s done [some r] todo hcons (fun x hx => ?_)⟩
    rwa [List.mem_singleton.mp hx]
  | true =>
    have hrecords (n : ℕ) : notRemoved pFilter succeeds nFlag n [r] =
        if succeeds n then [] else [r] := by
      rw [notRemoved, if_pos hatt, notRemoved]
    have hcalls : ([some r].reduceOption.filter (isAttempted pFilter nFlag)).map callOf =
        [callOf r] := by
      rw [List.reduceOption_cons_of_some, List.reduceOption_nil, List.filter_cons_of_pos hatt]
      rfl
    rw [delRecord_call pFilter succeeds nFlag _ r s hatt]
    cases hok : succeeds s.calls.length with
    | true =>
      refine ⟨none, ⟨⟨s.pList.m_nUse-1, ?_, ?_⟩, rfl, ?_, ?_, ?_⟩⟩
      · rw [if_pos rfl, List.append_assoc]
        exact delAt_at s.pList done todo hmax r h
      · show s.pList.m_nUse-1+1 = s.pList.m_nUse+0
        omega
      · show [] = notRemoved pFilter succeeds nFlag s.calls.length [r]
        rw [hrecords, hok, if_pos rfl]
      · rw [if_pos rfl]
        rfl
      · rw [if_pos rfl, hcalls]
    | false =>
      refine ⟨some r, ⟨⟨s.pList.m_nUse, ?_, rfl⟩, rfl, ?_, rfl, ?_⟩⟩
      · rw [if_neg Bool.false_ne_true, ← hcons]
      · show [r] = notRemoved pFilter succeeds nFlag s.calls.length [r]
        rw [hrecords, hok, if_neg Bool.false_ne_true]
      · rw [if_neg Bool.false_ne_true, hcalls]

theorem delLoop_swept (todo : List (Option STFileInfoEx)) (k : ℕ) (s : DelState)
    (done : List (Option STFileInfoEx)) (hk : todo.length ≤ k)
    (hmax : s.pList.m_pArray.length = s.pList.m_nMax) (h : s.pList.m_pArray = done ++ todo) :
    ∃ todo', Swept pFilter succeeds nFlag s (delLoop pFilter succeeds nFlag k done.length s)
      done todo todo' [] := by
  induction todo generalizing k s done with
  | nil =>
    have hend : delLoop pFilter succeeds nFlag k done.length s = s := by
      cases k with
      | zero => rfl
      | succ k => rw [delLoop, getNext_end s.pList done hmax (h.trans (List.append_nil done))]
    rw [hend]
    exact ⟨[], swept_same s done [] [] (h.trans (List.append_nil _).symm) (fun r hr => by cases hr)⟩
  | cons o todo ih =>
    rw [List.length_cons] at hk
    obtain ⟨k, rfl⟩ := Nat.exists_eq_succ_of_ne_zero (show k ≠ 0 by omega)
    have hnext (p : Option STFileInfoEx) : (done ++ [p]).length = done.length+1 := List.length_append
    cases o with
    | none =>
      have hcons : s.pList.m_pArray = done ++ [none] ++ todo := by
        rw [h, List.append_assoc]
        rfl
      obtain ⟨todo', hswept⟩ := ih (k+1) s (done ++ [none]) (by omega) hmax hcons
      rw [hnext, ← delLoop_skip pFilter succeeds nFlag (k+1) _ s
        (getNext_skip s.pList done todo hmax h)] at hswept
      exact ⟨_, (swept_same s done [none] todo hcons (fun r hr => by cases hr)).trans hswept⟩
    | some r =>
      obtain ⟨p, hp⟩ := delRecord_swept pFilter succeeds nFlag r s done todo hmax h
      obtain ⟨use, hlist, -⟩ := hp.list
      have hmax' : (delRecord pFilter succeeds nFlag done.length r s).pList.m_pArray.length =
          (delRecord pFilter succeeds nFlag done.length r s).pList.m_nMax := by
        rw [hlist, ← hmax, h]
        simp
      obtain ⟨todo', hswept⟩ := ih k (delRecord pFilter succeeds nFlag done.length r s)
          (done ++ [p]) (by omega)
        hmax' (by rw [hlist])
      rw [hnext] at hswept
      rw [delLoop, getNext_found s.pList done todo hmax r h]
      exact ⟨_, hp.trans hswept⟩

end Loop

section Claim

variable (fs : FileSystem) (pFilter : Option (List Char → CFileTime → Bool)) (succeeds : ℕ → Bool)
  (root : List Char) (nFlag : ℕ)

theorem counted_of_holds (l : CSList STFileInfoEx) (recs : List STFileInfoEx) (h : l.Holds recs) :
    Counted l recs :=
  ⟨h.dense.length, h.dense.use, reduceOption_of_slots l.m_pArray recs h.slot⟩

theorem appendFileLists_built (recs xs : List STFileInfoEx) (flist : Option (CSList STFileInfoEx))
    (h : Built flist xs) (hfits : xs.length+recs.length ≤ largestMax 64) : ∃ pList,
      recs.foldlM (fun pList r => (appendFileList pList r.fname r.stat r.stFileTime r.nSize).map some)
        flist =
        .ok pList ∧ Built pList (xs ++ recs) := by
  induction recs generalizing xs flist with
  | nil => exact ⟨flist, rfl, by rwa [List.append_nil]⟩
  | cons r recs ih =>
    rw [List.length_cons] at hfits
    obtain ⟨l, happend, hl⟩ := appendFileList_built flist xs r h (by omega)
    obtain ⟨pList, hrun, hlists⟩ := ih (xs ++ [r]) (some l) hl (by
      rw [List.length_append, List.length_singleton]
      omega)
    refine ⟨pList, ?_, ?_⟩
    · rw [List.foldlM_cons, happend]
      exact hrun
    · rwa [List.append_assoc] at hlists

theorem appendFileLists_over (recs xs : List STFileInfoEx) (flist : Option (CSList STFileInfoEx))
    (h : Built flist xs) (hover : largestMax 64 < xs.length+recs.length) : ∃ e,
      recs.foldlM (fun pList r => (appendFileList pList r.fname r.stat r.stFileTime r.nSize).map some)
        flist = .error e := by
  induction recs generalizing xs flist with
  | nil => exact absurd hover (not_lt.mpr (Built.length_le flist xs h))
  | cons r recs ih =>
    rw [List.length_cons] at hover
    rw [List.foldlM_cons]
    rcases lt_or_ge xs.length (largestMax 64) with hroom | hfull
    · obtain ⟨l, happend, hl⟩ := appendFileList_built flist xs r h hroom
      rw [happend]
      apply ih (xs ++ [r]) (some l) hl
      rw [List.length_append, List.length_singleton]
      omega
    · rw [appendFileList_over flist xs r h hfull]
      exact ⟨_, rfl⟩

-- The whole loop on a list with the records `recs`.
theorem delLoop_counted (l : CSList STFileInfoEx) (recs : List STFileInfoEx) (hl : Counted l recs)
    (s : DelState) (hs : s = delLoop pFilter succeeds nFlag l.m_nMax 0 ⟨l, 0, []⟩) :
    Counted s.pList (notRemoved pFilter succeeds nFlag 0 recs) ∧
      s.nCount+(notRemoved pFilter succeeds nFlag 0 recs).length = recs.length ∧
      s.calls = (recs.filter (isAttempted pFilter nFlag)).map callOf := by
  obtain ⟨slots, hswept⟩ : ∃ slots,
      Swept pFilter succeeds nFlag ⟨l, 0, []⟩ s [] l.m_pArray slots [] := by
    rw [hs]
    exact delLoop_swept pFilter succeeds nFlag l.m_pArray l.m_nMax ⟨l, 0, []⟩ [] hl.length.le
      hl.length rfl
  obtain ⟨use, hlist, huse⟩ := hswept.list
  have hleft : slots.reduceOption = notRemoved pFilter succeeds nFlag 0 recs := by
    rw [hswept.records, hl.records]
    rfl
  have hcount := hswept.count
  have hcalls := hswept.calls
  rw [hl.records, hleft] at hcount
  rw [hl.records] at hcalls
  refine ⟨⟨?_, ?_, ?_⟩, hcount.trans (Nat.zero_add _), hcalls⟩
  · rw [hlist, List.nil_append, List.append_nil]
    exact hswept.length.trans hl.length
  · rw [hl.records, hleft, hl.use] at huse
    rw [hlist]
    exact add_right_cancel (huse.trans (add_comm _ _))
  · rw [hlist, List.nil_append, List.append_nil, hleft]

/-- A call keeps a list and the disk in step, and leaves a list for which the next call does. -/
theorem delDirectory_counted (l : CSList STFileInfoEx) (recs : List STFileInfoEx) (hl : Counted l recs)
    (hroot : com_isDirectory fs root = true) :
    ∃ r, delDirectory fs pFilter succeeds ⟨root, nFlag, some l⟩ = .ok r ∧
      InStep pFilter succeeds nFlag recs r ∧
      ∀ l', r.1.pList = some l' → Counted l' (notRemoved pFilter succeeds nFlag 0 recs) := by
  obtain ⟨s, hs⟩ : ∃ s, s = delLoop pFilter succeeds nFlag l.m_nMax 0 ⟨l, 0, []⟩ := ⟨_, rfl⟩
  obtain ⟨hcounted, hcount, hcalls⟩ := delLoop_counted pFilter succeeds nFlag l recs hl s hs
  have hzero : s.pList.m_nUse = 0 ↔ notRemoved pFilter succeeds nFlag 0 recs = [] := by
    rw [hcounted.use, Nat.cast_eq_zero, List.length_eq_zero_iff]
  refine ⟨(⟨root, nFlag, if s.pList.m_nUse = 0 then none else some s.pList⟩, s.nCount, s.calls), ?_,
    ⟨hcalls, ?_, hcount, ?_⟩, ?_⟩
  · rw [delDirectory, if_pos hroot, hs]
  · dsimp only
    split_ifs with hempty
    · exact (hzero.mp hempty).symm
    · exact hcounted.records
  · rw [← hzero]
    dsimp only
    by_cases hempty : s.pList.m_nUse = 0
    · rw [if_pos hempty]
      exact iff_of_true rfl hempty
    · rw [if_neg hempty]
      exact iff_of_false (Option.some_ne_none _) hempty
  · intro l' hl'
    dsimp only at hl'
    split_ifs at hl'
    cases hl'
    exact hcounted

/-- `delDirectory` on the list that `appendFileList` has made of some records, of which there are no more
than a list can hold. -/
theorem delDirectory_inStep (recs : List STFileInfoEx) (hne : recs ≠ [])
    (hroot : com_isDirectory fs root = true) :
    ((∃ l, appendFileLists recs = .ok (some l)) ↔ recs.length ≤ largestMax 64) ∧
      ∀ l, appendFileLists recs = .ok (some l) →
        ∃ r, delDirectory fs pFilter succeeds ⟨root, nFlag, some l⟩ = .ok r ∧
          InStep pFilter succeeds nFlag recs r := by
  have hlen : ([] : List STFileInfoEx).length+recs.length = recs.length := Nat.zero_add _
  rcases le_or_gt recs.length (largestMax 64) with hfits | hover
  · obtain ⟨pList, hrun, hbuilt⟩ := appendFileLists_built recs [] none rfl (hlen.trans_le hfits)
    cases pList with
    | none => exact absurd hbuilt hne
    | some l =>
      refine ⟨iff_of_true ⟨l, hrun⟩ hfits, fun l' hl' => ?_⟩
      obtain rfl := Option.some.inj (Except.ok.inj (hrun.symm.trans hl'))
      obtain ⟨r, hr, hstep, -⟩ := delDirectory_counted fs pFilter succeeds root nFlag l recs
        (counted_of_holds l recs (Built.lists (some l) recs hbuilt)) hroot
      exact ⟨r, hr, hstep⟩
  · obtain ⟨e, herror⟩ := appendFileLists_over recs [] none rfl (hover.trans_eq hlen.symm)
    have hnone (l : CSList STFileInfoEx) : appendFileLists recs ≠ .ok (some l) := fun hl => by
      rw [appendFileLists, herror] at hl
      cases hl
    exact ⟨iff_of_false (fun ⟨l, hl⟩ => hnone l hl) (not_le.mpr hover), fun l hl => absurd hl (hnone l)⟩

/-- A file whose removal succeeds, and a directory whose removal fails. -/
theorem delDirectory_inStep_two : ∃ l r,
    appendFileLists [⟨['a'], 'F', ⟨2020, 0⟩, 1⟩, ⟨['b'], 'D', ⟨2020, 0⟩, 0⟩] = .ok (some l) ∧
      delDirectory ⟨fun _ => FILE_ATTRIBUTE_DIRECTORY, fun _ => []⟩ none (fun n => n == 0)
        ⟨['c'], HAS_DIRNAME, some l⟩ = .ok r ∧
      InStep none (fun n => n == 0) HAS_DIRNAME
        [⟨['a'], 'F', ⟨2020, 0⟩, 1⟩, ⟨['b'], 'D', ⟨2020, 0⟩, 0⟩] r := by
  obtain ⟨hbuilt, hstep⟩ := delDirectory_inStep ⟨fun _ => FILE_ATTRIBUTE_DIRECTORY, fun _ => []⟩ none
    (fun n => n == 0) ['c'] HAS_DIRNAME
    [⟨['a'], 'F', ⟨2020, 0⟩, 1⟩, ⟨['b'], 'D', ⟨2020, 0⟩, 0⟩] (List.cons_ne_nil _ _) rfl
  obtain ⟨l, hl⟩ := hbuilt.mpr (by decide)
  obtain ⟨r, hr, hin⟩ := hstep l hl
  exact ⟨l, r, hl, hr, hin⟩

end Claim

end Leviathan.CFileUtil
