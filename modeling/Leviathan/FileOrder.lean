import Leviathan.SortEx
import Leviathan.FileList

/-! `CDirectoryProc::getTimeAscendingFileList` (DirectoryProc.cpp): the files in the order in which
the analyzer reads them. -/
namespace Leviathan

open QSort CFileUtil

namespace CFileTime

def getYear (t : CFileTime) : ℕ := t.m_nYear

def getDateTime (t : CFileTime) : ℕ := t.m_nDateTime

def Compare (t pCompare : CFileTime) : EOperator :=
  if pCompare.getYear = t.m_nYear then
    if pCompare.getDateTime = t.m_nDateTime then .EQ
    else if pCompare.getDateTime < t.m_nDateTime then .GT
    else .LT
  else if pCompare.getYear < t.m_nYear then .GT
  else .LT

-- The year comes first.
theorem Compare_eq_LT_iff (t t' : CFileTime) : t.Compare t' = .LT ↔
    t.m_nYear < t'.m_nYear ∨ t.m_nYear = t'.m_nYear ∧ t.m_nDateTime < t'.m_nDateTime := by
  unfold Compare getYear getDateTime
  split_ifs <;> simp <;> omega

end CFileTime

namespace CDirectoryProc

section Model

def sizeofSTSortData : ℕ := 16

/-- The loop that fills the array, with `k` records left from `i` on. -/
def fill (pList : CSList STFileInfoEx) :
    ℕ → ℕ → Array (STSortData STFileInfoEx) → Except Fault (Array (STSortData STFileInfoEx))
  | 0, _, pSortData => .ok pSortData
  | k+1, i, pSortData =>
    match pList.getObj i with
    | none => .error .nullRead
    | some pFileInfo => do
      let pSortData ← store pSortData i ⟨pFileInfo.stFileTime.getDateTime, pFileInfo⟩
      fill pList k (i+1) pSortData

/-- `getTimeAscendingFileList`, from what `GetFileList` has found on: `*pResult` and the count.
`newBuf` answers the array that it finds room for in a buffer of the size asked for. -/
def getTimeAscendingFileList (newBuf : ℤ → Option (Array (STSortData STFileInfoEx)))
    (found : STFileList × ℕ) : Except Fault (Option (Array (STSortData STFileInfoEx)) × ℤ) :=
  if found.2 = 0 then .ok (none, 0)
  else
    match found.1.pList with
    | none => .error .nullRead
    | some pList => do
      let nCount := pList.m_nUse
      let nSize := i32 (sizeofSTSortData*nCount)
      match newBuf nSize with
      | none => return (none, 0)
      | some pSortData =>
        let pSortData ← fill pList nCount.toNat 0 pSortData
        let pSortData ← SortEx pSortData nCount
        return (some pSortData, nCount)

/-- The records that a caller gets. -/
def returned (r : Option (Array (STSortData STFileInfoEx)) × ℤ) : List STFileInfoEx :=
  ((r.1.getD #[]).toList.take r.2.toNat).map STSortData.p

end Model

/-- A buffer is at least as large as it was asked to be. -/
def LargeEnough (newBuf : ℤ → Option (Array (STSortData STFileInfoEx))) : Prop :=
  ∀ nSize buf, newBuf nSize = some buf → nSize ≤ sizeofSTSortData*buf.size

/-- No record is followed by one with an earlier time. -/
def Chronological (l : List STFileInfoEx) : Prop :=
  l.Pairwise (fun x y => y.stFileTime.Compare x.stFileTime ≠ .LT)

/-- The call returns the records `l` in chronological order, whatever buffer it gets. -/
def ReturnsChronological (l : List STFileInfoEx) : Prop :=
  ∀ newBuf, LargeEnough newBuf → ∀ root nFlag pList, Lists pList l → ∃ r,
    getTimeAscendingFileList newBuf (⟨root, nFlag, pList⟩, l.length) = .ok r ∧
    Chronological (returned r)

section Order

variable (pList : CSList STFileInfoEx) (l : List STFileInfoEx)

def sortData (f : STFileInfoEx) : STSortData STFileInfoEx := ⟨f.stFileTime.m_nDateTime, f⟩

theorem fill_succ (h : pList.Holds l) (k i : ℕ) (hi : i < l.length)
    (buf : Array (STSortData STFileInfoEx)) :
    fill pList (k+1) i buf = store buf i (sortData l[i]) >>= fill pList k (i+1) := by
  have hin : isInclude i pList.m_nMax = true := by
    have hmax := h.dense.le_max
    rw [isInclude_iff]
    omega
  have hobj : pList.getObj i = some l[i] := by
    rw [CSList.getObj, if_pos hin, Int.toNat_natCast, h.slot, List.getElem?_eq_getElem hi]
  rw [fill, hobj]
  rfl

theorem fill_eq (h : pList.Holds l) (k i : ℕ) (hk : i+k = l.length)
    (buf : Array (STSortData STFileInfoEx)) (hsize : l.length ≤ buf.size)
    (hdone : buf.toList.take i = (l.take i).map sortData) :
    ∃ buf', fill pList k i buf = .ok buf' ∧ buf'.size = buf.size ∧
      buf'.toList.take l.length = l.map sortData := by
  induction k generalizing i buf with
  | zero =>
    refine ⟨buf, rfl, rfl, ?_⟩
    have hi : i = l.length := by omega
    rw [hi, List.take_length] at hdone
    exact hdone
  | succ k ih =>
    have hi : i < l.length := by omega
    have hstep : (buf.setIfInBounds i (sortData l[i])).toList.take (i+1) =
        (l.take (i+1)).map sortData := by
      rw [Array.toList_setIfInBounds, ← List.take_append_getElem (by simpa using hi.trans_le hsize),
        List.take_set_of_le le_rfl, List.getElem_set_self, hdone, ← List.take_append_getElem hi,
        List.map_append]
      rfl
    obtain ⟨buf', hfill, hsz, hres⟩ := ih (i+1) (by omega) _ (by simpa using hsize) hstep
    refine ⟨buf', ?_, ?_, hres⟩
    · rw [fill_succ pList l h k i hi, store_eq buf i _ (by omega), ok_bind, hfill]
    · rw [hsz, Array.size_setIfInBounds]

-- The loop runs over the end of a buffer that is too small.
theorem fill_error (h : pList.Holds l) (k i : ℕ) (hk : i+k = l.length)
    (buf : Array (STSortData STFileInfoEx)) (hi : i ≤ buf.size) (hsize : buf.size < l.length) :
    fill pList k i buf = .error .outOfBounds := by
  induction k generalizing i buf with
  | zero => omega
  | succ k ih =>
    rw [fill_succ pList l h k i (by omega)]
    rcases hi.lt_or_eq with hlt | heq
    · rw [store_eq buf i _ hlt, ok_bind]
      apply ih (i+1) (by omega) <;> rw [Array.size_setIfInBounds] <;> omega
    · rw [store, if_neg (by omega)]
      rfl

-- With room for all records the array is filled and sorted.
theorem getTimeAscendingFileList_eq (newBuf : ℤ → Option (Array (STSortData STFileInfoEx)))
    (buf : Array (STSortData STFileInfoEx)) (root : List Char) (nFlag : ℕ) (h : pList.Holds l)
    (hl : l ≠ []) (hnew : newBuf (i32 (sizeofSTSortData*l.length)) = some buf)
    (hsize : l.length ≤ buf.size) :
    ∃ arr arr', arr.size = buf.size ∧ arr.toList.take l.length = l.map sortData ∧
      SortEx arr l.length = .ok arr' ∧ Rearranged arr arr' l.length ∧
      EndsSorted arr' l.length l.length l.length ∧
      getTimeAscendingFileList newBuf (⟨root, nFlag, some pList⟩, l.length) =
        .ok (some arr', l.length) := by
  obtain ⟨arr, hfill, hsz, hcells⟩ := fill_eq pList l h l.length 0 (Nat.zero_add _) buf hsize rfl
  obtain ⟨arr', hsort, hrearr, hends⟩ := SortEx_spec arr l.length (by rw [hsz]; exact_mod_cast hsize)
  rw [Int.toNat_natCast] at hrearr hends
  refine ⟨arr, arr', hsz, hcells, hsort, hrearr, hends, ?_⟩
  rw [getTimeAscendingFileList, if_neg (by simpa using hl)]
  dsimp only
  rw [h.dense.use, hnew]
  dsimp only
  rw [Int.toNat_natCast, hfill, ok_bind, hsort, ok_bind]
  rfl

theorem returns_of_increasing (hfits : sizeofSTSortData*l.length < 2^31)
    (hkey : ∀ a ∈ l, ∀ b ∈ l, a.stFileTime.m_nYear < b.stFileTime.m_nYear →
      a.stFileTime.m_nDateTime < b.stFileTime.m_nDateTime) : ReturnsChronological l := by
  intro newBuf hnew root nFlag pList hlists
  by_cases hl : l = []
  · subst hl
    exact ⟨(none, 0), rfl, List.Pairwise.nil⟩
  cases pList with
  | none => exact absurd hlists hl
  | some pList =>
    cases hbuf : newBuf (i32 (sizeofSTSortData*l.length)) with
    | none =>
      refine ⟨(none, 0), ?_, List.Pairwise.nil⟩
      rw [getTimeAscendingFileList, if_neg (by simpa using hl)]
      dsimp only
      rw [CSList.Dense.use (CSList.Holds.dense hlists), hbuf]
      rfl
    | some buf =>
      have hsize : l.length ≤ buf.size := by
        have hlarge := hnew _ buf hbuf
        rw [i32_of_range _ (by omega) (by exact_mod_cast hfits)] at hlarge
        unfold sizeofSTSortData at hlarge
        omega
      obtain ⟨arr, arr', hsz, hcells, -, hrearr, hends, hok⟩ :=
        getTimeAscendingFileList_eq pList l newBuf buf root nFlag hlists hl hbuf hsize
      refine ⟨_, hok, ?_⟩
      have hperm := hrearr.take_perm arr arr' _
      rw [hcells] at hperm
      have hfrom : ∀ s ∈ arr'.toList.take l.length,
          s.p ∈ l ∧ s.nValue = s.p.stFileTime.m_nDateTime := by
        intro s hs
        obtain ⟨f, hf, rfl⟩ := List.mem_map.mp (hperm.mem_iff.mp hs)
        exact ⟨hf, rfl⟩
      rw [Chronological, returned, List.pairwise_map]
      apply (hends.take_pairwise arr' l.length).imp_of_mem
      intro x y hx hy hle hlt
      rw [(hfrom x hx).2, (hfrom y hy).2] at hle
      rcases (CFileTime.Compare_eq_LT_iff _ _).mp hlt with hyear | ⟨-, hdt⟩
      · have hdt := hkey _ (hfrom y hy).1 _ (hfrom x hx).1 hyear
        omega
      · omega

/-- Buffers of exactly the size asked for, with arbitrary content. -/
def exactBuf (junk : STFileInfoEx) (nSize : ℤ) : Option (Array (STSortData STFileInfoEx)) :=
  some (Array.replicate ((nSize+15)/16).toNat (sortData junk))

theorem exactBuf_largeEnough (junk : STFileInfoEx) : LargeEnough (exactBuf junk) := by
  intro nSize buf hbuf
  obtain rfl := Option.some.inj hbuf
  rw [Array.size_replicate]
  unfold sizeofSTSortData
  omega

theorem exists_holds : ∃ pList : CSList STFileInfoEx, pList.Holds l := by
  induction l using List.reverseRecOn with
  | nil => exact ⟨_, CSList.holds_alloc 64 .alloc⟩
  | append_singleton l f ih =>
    obtain ⟨pList, h⟩ := ih
    obtain ⟨pList', -, h', -⟩ := CSList.pushBackInt_holds pList l f h
    exact ⟨pList', h'⟩

-- The size is computed in an `int`: for too many records the buffer is too small.
theorem size_of_returns (h : ReturnsChronological l) : sizeofSTSortData*l.length < 2^31 := by
  by_contra hbig
  unfold sizeofSTSortData at hbig
  have hpos : 0 < l.length := by omega
  obtain ⟨pList, hholds⟩ := exists_holds l
  obtain ⟨r, hok, -⟩ := h (exactBuf l[0]) (exactBuf_largeEnough _) [] 0 (some pList) hholds
  have hsmall : ((i32 (sizeofSTSortData*l.length)+15)/16).toNat < l.length := by
    dsimp only [i32, Int.bmod, sizeofSTSortData]
    split_ifs <;> omega
  rw [getTimeAscendingFileList, if_neg (by simpa using hpos.ne')] at hok
  dsimp only at hok
  rw [hholds.dense.use, exactBuf] at hok
  dsimp only at hok
  rw [Int.toNat_natCast, fill_error pList l hholds l.length 0 (Nat.zero_add _) _ (Nat.zero_le _)
    (by rw [Array.size_replicate]; exact hsmall)] at hok
  cases hok

/-- The keys of the records `l`, each with the place of its record in `l`. -/
def tags : Array (STSortData ℕ) :=
  (l.mapIdx (fun i f => ⟨f.stFileTime.m_nDateTime, i⟩)).toArray

theorem length_eq_of_tags (l' : List STFileInfoEx) (h : tags l' = tags l) : l'.length = l.length := by
  have hsize := congrArg Array.size h
  simpa [tags] using hsize

/-- The record of `l` at the place that `s` carries. -/
def recordAt (junk : STFileInfoEx) (s : STSortData ℕ) : STSortData STFileInfoEx :=
  ⟨s.nValue, l.getD s.p junk⟩

theorem map_sortData_eq (junk : STFileInfoEx) :
    l.map sortData = (tags l).toList.map (recordAt l junk) := by
  apply List.ext_getElem
  · simp [tags]
  · intro i hi hi'
    have hil : i < l.length := by simpa using hi
    simp [tags, sortData, recordAt, hil]

-- The places are moved in the same way whatever records with these keys lie there.
theorem exists_places (junk : STFileInfoEx) (hfits : sizeofSTSortData*l.length < 2^31) (hl : l ≠ []) :
    ∃ T : List (STSortData ℕ), T.Perm (tags l).toList ∧
      T.Pairwise (fun s t => s.nValue ≤ t.nValue) ∧
      ∀ l', tags l' = tags l → ReturnsChronological l' →
        Chronological (T.map (fun s => l'.getD s.p junk)) := by
  have hsize : (tags l).size = l.length := by simp [tags]
  obtain ⟨T, hsort, hrearr, hends⟩ := SortEx_spec (tags l) l.length (by rw [hsize])
  rw [Int.toNat_natCast] at hrearr hends
  have htake : T.toList.take l.length = T.toList :=
    List.take_of_length_le (by rw [Array.length_toList, hrearr.size, hsize])
  refine ⟨T.toList, hrearr.perm, ?_, ?_⟩
  · rw [← htake]
    exact hends.take_pairwise T _
  · intro l' htags hret
    have hlen := length_eq_of_tags l l' htags
    obtain ⟨pList, hholds⟩ := exists_holds l'
    obtain ⟨r, hok, hchron⟩ := hret (exactBuf junk) (exactBuf_largeEnough junk) [] 0 (some pList) hholds
    have hi32 : i32 (sizeofSTSortData*l'.length) = 16*l.length := by
      rw [hlen]
      exact i32_of_range _ (by omega) (by exact_mod_cast hfits)
    have hcells : ((i32 (sizeofSTSortData*l'.length)+15)/16).toNat = l.length := by
      omega
    obtain ⟨arr, arr', hsz, harr, hsort', -, -, hok'⟩ := getTimeAscendingFileList_eq pList l'
      (exactBuf junk) _ [] 0 hholds (by rintro rfl; exact hl (List.length_eq_zero_iff.mp hlen.symm))
      rfl (by rw [Array.size_replicate, hcells, hlen])
    have harr : arr = (tags l).map (recordAt l' junk) := by
      apply Array.toList_inj.mp
      rw [Array.toList_map, ← htags, ← map_sortData_eq, ← harr, List.take_of_length_le]
      rw [Array.length_toList, hsz, Array.size_replicate, hcells, hlen]
    rw [harr, hlen, SortEx_map (recordAt l' junk) (fun _ => rfl), hsort] at hsort'
    obtain rfl := Except.ok.inj hsort'
    obtain rfl := Except.ok.inj (hok.symm.trans hok')
    rw [returned, hlen, Int.toNat_natCast, Option.getD_some, Array.toList_map, ← List.map_take, htake,
      List.map_map] at hchron
    exact hchron

theorem Chronological.getElem (T : List (STSortData ℕ)) (l' : List STFileInfoEx) (junk : STFileInfoEx)
    (h : Chronological (T.map (fun s => l'.getD s.p junk))) (x y : ℕ) (hx : x < T.length)
    (hy : y < T.length) (hxy : x < y) :
    (l'.getD T[y].p junk).stFileTime.Compare (l'.getD T[x].p junk).stFileTime ≠ .LT := by
  rw [Chronological, List.pairwise_map, List.pairwise_iff_getElem] at h
  exact h x y hx hy hxy

-- Two records of different years whose keys are not in the order of the years come out in the wrong
-- order, or do so when they change places.
theorem increasing_of_returns (hret : ∀ l', l'.Perm l → ReturnsChronological l')
    (a b : STFileInfoEx) (ha : a ∈ l) (hb : b ∈ l)
    (hyear : a.stFileTime.m_nYear < b.stFileTime.m_nYear) :
    a.stFileTime.m_nDateTime < b.stFileTime.m_nDateTime := by
  by_contra hle
  obtain ⟨i, hi, rfl⟩ := List.mem_iff_getElem.mp ha
  obtain ⟨j, hj, rfl⟩ := List.mem_iff_getElem.mp hb
  have hearlier : l[i].stFileTime.Compare l[j].stFileTime = .LT :=
    (CFileTime.Compare_eq_LT_iff _ _).mpr (Or.inl hyear)
  obtain ⟨T, hperm, hsorted, hplaces⟩ := exists_places l l[i]
    (size_of_returns l (hret l (List.Perm.refl l))) (List.ne_nil_of_mem ha)
  have htag (k : ℕ) (hk : k < l.length) : (⟨l[k].stFileTime.m_nDateTime, k⟩ : STSortData ℕ) ∈ T := by
    apply hperm.mem_iff.mpr
    rw [tags, List.mem_mapIdx]
    exact ⟨k, hk, rfl⟩
  obtain ⟨x, hx, hTx⟩ := List.mem_iff_getElem.mp (htag i hi)
  obtain ⟨y, hy, hTy⟩ := List.mem_iff_getElem.mp (htag j hj)
  rcases lt_trichotomy y x with hyx | rfl | hxy
  · have hchron := hplaces l rfl (hret l (List.Perm.refl l))
    have hpair := hchron.getElem T l l[i] y x hy hx hyx
    rw [hTx, hTy] at hpair
    simp only [List.getD_eq_getElem?_getD, List.getElem?_eq_getElem hi, List.getElem?_eq_getElem hj,
      Option.getD_some] at hpair
    exact hpair hearlier
  · rw [hTx] at hTy
    injection hTy with _ hij
    subst hij
    exact lt_irrefl _ hyear
  · have heq : l[i].stFileTime.m_nDateTime = l[j].stFileTime.m_nDateTime := by
      have hle' := (List.pairwise_iff_getElem.mp hsorted) x y hx hy hxy
      rw [hTx, hTy] at hle'
      exact le_antisymm hle' (not_lt.mp hle)
    have hne : i ≠ j := by
      rintro rfl
      exact lt_irrefl _ hyear
    have htags : tags ((l.set i l[j]).set j l[i]) = tags l := by
      unfold tags
      congr 1
      apply List.ext_getElem (by simp)
      intro k hk hk'
      simp only [List.getElem_mapIdx, List.getElem_set]
      split_ifs <;> simp_all
    have hchron := hplaces _ htags (hret _ (List.set_set_perm hi hj))
    have hpair := hchron.getElem T _ l[i] x y hx hy hxy
    rw [hTx, hTy] at hpair
    have hi' : ((l.set i l[j]).set j l[i]).getD i l[i] = l[j] := by
      simp [List.getD_eq_getElem?_getD, List.getElem_set_of_ne hne.symm, hi]
    have hj' : ((l.set i l[j]).set j l[i]).getD j l[i] = l[i] := by
      simp [List.getD_eq_getElem?_getD, hj]
    dsimp only at hpair
    rw [hi', hj'] at hpair
    exact hpair hearlier

/-- The records come out in chronological order, in whatever order they have been found, exactly when
their number is small enough for the size of the array and no year changes the order of the keys. -/
theorem returnsChronological_iff : (∀ l', l'.Perm l → ReturnsChronological l') ↔
    sizeofSTSortData*l.length < 2^31 ∧ ∀ a ∈ l, ∀ b ∈ l,
      a.stFileTime.m_nYear < b.stFileTime.m_nYear →
      a.stFileTime.m_nDateTime < b.stFileTime.m_nDateTime := by
  constructor
  · intro h
    exact ⟨size_of_returns l (h l (List.Perm.refl l)),
      fun a ha b hb hyear => increasing_of_returns l h a b ha hb hyear⟩
  · rintro ⟨hfits, hkey⟩ l' hperm
    apply returns_of_increasing l'
    · rw [hperm.length_eq]
      exact hfits
    · intro a ha b hb
      exact hkey a (hperm.mem_iff.mp ha) b (hperm.mem_iff.mp hb)

/-- A file of New Year's Eve 2019 and one of New Year's Day 2020. -/
def newYearFiles : List STFileInfoEx :=
  [⟨['a'], 'F', ⟨2019, 1231235959⟩, 0⟩, ⟨['b'], 'F', ⟨2020, 101000000⟩, 0⟩]

theorem not_returnsChronological_newYearFiles : ¬ReturnsChronological newYearFiles := by
  intro h
  have hslot (i : ℕ) : CSList.slot ⟨newYearFiles.map some, 2, 2, 2, .alloc⟩ i = newYearFiles[i]? := by
    rw [CSList.slot, List.getD_eq_getElem?_getD, List.getElem?_map]
    cases newYearFiles[i]? <;> rfl
  have hlists : Lists (some ⟨newYearFiles.map some, 2, 2, 2, .alloc⟩) newYearFiles := by
    refine ⟨⟨rfl, rfl, rfl, by decide, ?_, le_rfl⟩, hslot⟩
    intro i hi
    rw [hslot]
    exact List.getElem?_eq_none hi
  have hrun : getTimeAscendingFileList (exactBuf ⟨[], 'F', ⟨0, 0⟩, 0⟩)
      (⟨[], 0, some ⟨newYearFiles.map some, 2, 2, 2, .alloc⟩⟩, 2) =
      .ok (some #[⟨101000000, ⟨['b'], 'F', ⟨2020, 101000000⟩, 0⟩⟩,
        ⟨1231235959, ⟨['a'], 'F', ⟨2019, 1231235959⟩, 0⟩⟩], 2) := by
    decide
  obtain ⟨r, hok, hchron⟩ := h _ (exactBuf_largeEnough _) [] 0 _ hlists
  obtain rfl := Except.ok.inj (hok.symm.trans hrun)
  have hpair := List.rel_of_pairwise_cons hchron List.mem_cons_self
  exact hpair (by decide)

end Order

end CDirectoryProc

end Leviathan
