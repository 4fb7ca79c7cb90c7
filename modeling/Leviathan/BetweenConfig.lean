import Leviathan.BetweenLines
import Leviathan.Buffers
import Leviathan.SList

/-! `CAnalyzer_BetweenLines::initConfig`: the classes of a configuration. -/
namespace Leviathan

namespace CSList

variable {β : Type}

/-- What `getObj` answers for the next `k` indices, up to the first NULL. -/
def objectsFrom (l : CSList β) : ℕ → ℕ → List β
  | 0, _ => []
  | k+1, i =>
    match l.getObj i with
    | none => []
    | some obj => obj :: objectsFrom l k (i+1)

/-- The objects that a loop over `getObj` meets. -/
def objects (l : CSList β) : List β := objectsFrom l (l.m_nMax+1) 0

theorem getObj_holds (l : CSList β) (xs : List β) (h : Holds l xs) (i : ℕ) : l.getObj i = xs[i]? := by
  have hle := h.dense.le_max
  by_cases hi : i < l.m_nMax
  · have hincl : isInclude (i : ℤ) l.m_nMax = true := (isInclude_iff _ _).mpr ⟨by omega, by omega⟩
    rw [getObj, if_pos hincl, Int.toNat_natCast, h.slot]
  · have hincl : ¬isInclude (i : ℤ) l.m_nMax = true := by
      rw [isInclude_iff]
      omega
    rw [getObj, if_neg hincl, List.getElem?_eq_none (by omega)]

theorem objectsFrom_holds (l : CSList β) (xs : List β) (h : Holds l xs) (k i : ℕ)
    (hk : xs.length < i+k) : l.objectsFrom k i = xs.drop i := by
  induction k generalizing i with
  | zero => exact (List.drop_eq_nil_of_le (by omega)).symm
  | succ k ih =>
    rw [objectsFrom, getObj_holds l xs h]
    by_cases hi : i < xs.length
    · rw [List.getElem?_eq_getElem hi, List.drop_eq_getElem_cons hi]
      exact congrArg (List.cons _) (ih (i+1) (by omega))
    · rw [List.getElem?_eq_none (by omega), List.drop_eq_nil_of_le (by omega)]

theorem objects_holds (l : CSList β) (xs : List β) (h : Holds l xs) : l.objects = xs := by
  have hle := h.dense.le_max
  exact objectsFrom_holds l xs h (l.m_nMax+1) 0 (by omega)

end CSList

namespace BetweenLines

open Buffers CFileTime DateTime IntervalStats LogTime

section Model

def sizeofBuf : ℕ := 128

def sizeofKey : ℕ := 24

/-- A section of a configuration file: the number that `GetPrivateProfileInt` answers for `CLASS_COUNT`, and
the text that `GetPrivateProfileString` has for a key. -/
structure Profile where
  classCount : ℤ
  value : List UInt8 → CString

/-- The text of `CLASS_%d_KEYWORD_1` and `CLASS_%d_KEYWORD_2`. -/
def keyText (i : ℕ) (j : EBetweenPos) : List UInt8 :=
  lit "CLASS_" ++ decimal i ++
    match j with
    | .line1 => lit "_KEYWORD_1"
    | .line2 => lit "_KEYWORD_2"

/-- `sprintf` to `szKey[j]`. -/
def writeKey (i : ℕ) (j : EBetweenPos) : Except Fault (List UInt8) :=
  if (keyText i j).length < sizeofKey then .ok (keyText i j) else .error .outOfBounds

/-- `calloc`. -/
def calloc : STBetween_Class := ⟨fun _ => none, zero, STInterval.zero⟩

variable (profile : Profile)

/-- `GetPrivateProfileString` to `szBuf`. -/
def readValue (szKey : List UInt8) : Except Fault CString :=
  if (profile.value szKey).strlen < sizeofBuf then .ok (profile.value szKey) else .error .outOfBounds

/-- The loop over `j`, which makes a class for each keyword; `none` where it returns false. -/
def initClass (szKey : EBetweenPos → List UInt8) :
    List EBetweenPos → STBetween_Class → Except Fault (Option STBetween_Class)
  | [], pClass => .ok (some pClass)
  | j :: js, _ => do
    let szBuf ← readValue profile (szKey j)
    if szBuf.chars = [] then return none
    else initClass szKey js { calloc with pKeyword := Function.update calloc.pKeyword j (some szBuf) }

/-- The loop over `i`, with `k` classes left. -/
def initFrom : ℕ → ℕ → CSList STBetween_Class → Except Fault (Bool × CSList STBetween_Class)
  | 0, _, m_pClassList => .ok (true, m_pClassList)
  | k+1, i, m_pClassList => do
    let szKey1 ← writeKey i .line1
    let szKey2 ← writeKey i .line2
    let szKey : EBetweenPos → List UInt8
      | .line1 => szKey1
      | .line2 => szKey2
    -- the first of these classes is lost
    match ← initClass profile szKey [.line1, .line2] calloc with
    | none => return (false, m_pClassList)
    | some pClass =>
      let (m_pClassList, _) ← m_pClassList.pushBack pClass true
      initFrom k (i+1) m_pClassList

/-- `initConfig`; without classes there is no list. -/
def initConfig : Except Fault (Bool × Option (CSList STBetween_Class)) :=
  let nCount := profile.classCount
  if nCount = 0 then .ok (false, none)
  else do
    let (bRes, m_pClassList) ← initFrom profile nCount.toNat 0 (CSList.init.alloc nCount.toNat .alloc true)
    return (bRes, some m_pClassList)

end Model

/-- The list has `n` classes, and each has both its keywords. -/
structure Complete (profile : Profile) (n : ℕ) (l : CSList STBetween_Class) : Prop where
  count : l.objects.length = n
  keyword : ∀ i c j, l.objects[i]? = some c → c.pKeyword j = some (profile.value (keyText i j))

/-- The class that is left of the two that are made at an index. -/
def lastMade (profile : Profile) (i : ℕ) : STBetween_Class :=
  { calloc with
    pKeyword := Function.update calloc.pKeyword .line2 (some (profile.value (keyText i .line2))) }

section Config

variable (profile : Profile)

theorem initClass_cons (szKey : EBetweenPos → List UInt8) (j : EBetweenPos) (js : List EBetweenPos)
    (c c' : STBetween_Class) (h : initClass profile szKey (j :: js) c = .ok (some c')) :
    initClass profile szKey js { calloc with
      pKeyword := Function.update calloc.pKeyword j (some (profile.value (szKey j))) } =
        .ok (some c') := by
  obtain ⟨szBuf, hbuf, h⟩ := (bind_eq_ok _ _ _).mp h
  unfold readValue at hbuf
  split_ifs at hbuf
  obtain rfl := Except.ok.inj hbuf
  split_ifs at h with hempty
  · cases h
  · exact h

-- Whatever is read for the first keyword, only the second one is left.
theorem initClass_both (szKey : EBetweenPos → List UInt8) (c c' : STBetween_Class)
    (h : initClass profile szKey [.line1, .line2] c = .ok (some c')) :
    c' = { calloc with
      pKeyword := Function.update calloc.pKeyword .line2 (some (profile.value (szKey .line2))) } := by
  have hsecond := initClass_cons profile szKey _ _ _ _ (initClass_cons profile szKey _ _ _ _ h)
  exact (Option.some.inj (Except.ok.inj hsecond)).symm

theorem writeKey_ok (i : ℕ) (j : EBetweenPos) (szKey : List UInt8) (h : writeKey i j = .ok szKey) :
    szKey = keyText i j := by
  unfold writeKey at h
  split_ifs at h
  exact (Except.ok.inj h).symm

theorem initFrom_holds (k i : ℕ) (l l' : CSList STBetween_Class)
    (hl : CSList.Holds l ((List.range i).map (lastMade profile)))
    (h : initFrom profile k i l = .ok (true, l')) :
    CSList.Holds l' ((List.range (i+k)).map (lastMade profile)) := by
  induction k generalizing i l with
  | zero =>
    obtain rfl := (Prod.mk.inj (Except.ok.inj h)).2
    exact hl
  | succ k ih =>
    obtain ⟨szKey1, -, h⟩ := (bind_eq_ok _ _ _).mp h
    obtain ⟨szKey2, hkey2, h⟩ := (bind_eq_ok _ _ _).mp h
    obtain ⟨made, hmade, h⟩ := (bind_eq_ok _ _ _).mp h
    cases made with
    | none => cases h
    | some pClass =>
      have hclass : pClass = lastMade profile i := by
        rw [initClass_both profile _ _ _ hmade, writeKey_ok i .line2 szKey2 hkey2]
        rfl
      obtain ⟨⟨l2, nIdx⟩, hpush, h⟩ := (bind_eq_ok _ _ _).mp h
      obtain ⟨-, hholds⟩ := hl.of_pushBack l _ pClass _ hpush
      have hrange : (List.range i).map (lastMade profile) ++ [pClass] =
          (List.range (i+1)).map (lastMade profile) := by
        rw [List.range_succ, List.map_append, hclass]
        rfl
      rw [hrange] at hholds
      have hrest := ih (i+1) l2 hholds h
      rwa [Nat.add_right_comm] at hrest

theorem initConfig_objects (n : ℕ) (hn : 1 ≤ n) (hcount : profile.classCount = n)
    (l : CSList STBetween_Class) (h : initConfig profile = .ok (true, some l)) :
    l.objects = (List.range n).map (lastMade profile) := by
  rw [initConfig, hcount, if_neg (by omega), Int.toNat_natCast] at h
  obtain ⟨⟨bRes, l'⟩, hfrom, h⟩ := (bind_eq_ok _ _ _).mp h
  obtain ⟨hres, hl⟩ := Prod.mk.inj (Except.ok.inj h)
  obtain rfl := Option.some.inj hl
  obtain rfl : bRes = true := hres
  have hholds := initFrom_holds profile n 0 _ l' (CSList.holds_alloc n .alloc) hfrom
  rw [Nat.zero_add] at hholds
  exact CSList.objects_holds l' _ hholds

-- The first keyword of every class is NULL.
theorem lastMade_keywords (i : ℕ) : (lastMade profile i).pKeyword .line1 = none ∧
    (lastMade profile i).pKeyword .line2 = some (profile.value (keyText i .line2)) := ⟨rfl, rfl⟩

theorem not_complete (n : ℕ) (hn : 1 ≤ n) (l : CSList STBetween_Class)
    (hobj : l.objects = (List.range n).map (lastMade profile)) : ¬Complete profile n l := by
  intro hc
  have hfirst : l.objects[0]? = some (lastMade profile 0) := by
    rw [hobj, List.getElem?_map, List.getElem?_range (by omega)]
    rfl
  have hkey := hc.keyword 0 _ .line1 hfirst
  rw [(lastMade_keywords profile 0).1] at hkey
  cases hkey

/-- Whenever `initConfig` returns true, no class has its first keyword, and the first line that is parsed
gives NULL to `ehstrstr`. -/
theorem initConfig_incomplete (n : ℕ) (hn : 1 ≤ n) (hcount : profile.classCount = n)
    (l : CSList STBetween_Class) (h : initConfig profile = .ok (true, some l)) :
    ¬Complete profile n l ∧ (∀ c ∈ l.objects, c.pKeyword .line1 = none) ∧
      ∀ nValue nLastLen pLine stCurTime,
        parsingLine nValue nLastLen pLine stCurTime l.objects = .error .nullRead := by
  have hobj := initConfig_objects profile n hn hcount l h
  refine ⟨not_complete profile n hn l hobj, ?_, ?_⟩
  · intro c hc
    rw [hobj] at hc
    obtain ⟨i, -, rfl⟩ := List.mem_map.mp hc
    exact (lastMade_keywords profile i).1
  · intro nValue nLastLen pLine stCurTime
    obtain ⟨m, rfl⟩ := Nat.exists_eq_add_of_le' hn
    rw [hobj, List.range_succ_eq_map, List.map_cons]
    rfl

/-- The key fits `szKey[j]`, and its value is a text that fits `szBuf`. -/
structure Usable (i : ℕ) (j : EBetweenPos) : Prop where
  key : (keyText i j).length < sizeofKey
  value : (profile.value (keyText i j)).chars ≠ []
  fits : (profile.value (keyText i j)).strlen < sizeofBuf

theorem length_keyText_lt (i : ℕ) (hi : i < 10^7) (j : EBetweenPos) : (keyText i j).length < sizeofKey := by
  have hdigits : (Nat.toDigits 10 i).length ≤ 7 :=
    (Nat.length_toDigits_le_iff (by decide) (by decide)).mpr hi
  have hnat : ¬(i : ℤ) < 0 := by omega
  have hlen : (decimal i).length ≤ 7 := by
    rw [decimal, if_neg hnat, List.nil_append, List.length_map]
    exact hdigits
  have hhead : (lit "CLASS_").length = 6 := rfl
  have htail : (lit "_KEYWORD_1").length = 10 ∧ (lit "_KEYWORD_2").length = 10 := ⟨rfl, rfl⟩
  unfold keyText sizeofKey
  cases j <;> dsimp only <;> simp only [List.length_append] <;> omega

theorem initClass_usable (szKey : EBetweenPos → List UInt8) (j : EBetweenPos) (js : List EBetweenPos)
    (c : STBetween_Class) (i : ℕ) (hkey : szKey j = keyText i j) (h : Usable profile i j) :
    initClass profile szKey (j :: js) c = initClass profile szKey js { calloc with
      pKeyword := Function.update calloc.pKeyword j (some (profile.value (keyText i j))) } := by
  have hread : readValue profile (keyText i j) = .ok (profile.value (keyText i j)) := if_pos h.fits
  rw [initClass, hkey, hread, ok_bind, if_neg h.value]

theorem initFrom_true (largest k i : ℕ) (l : CSList STBetween_Class) (xs : List STBetween_Class)
    (hl : CSList.HoldsUpTo largest l xs) (hlargest : xs.length+k ≤ largest) (h : ∀ m < i+k, ∀ j, Usable profile m j) :
    ∃ l', initFrom profile k i l = .ok (true, l') := by
  induction k generalizing i l xs with
  | zero => exact ⟨l, rfl⟩
  | succ k ih =>
    have hi := h i (by omega)
    have hkey (j : EBetweenPos) : writeKey i j = .ok (keyText i j) := if_pos (hi j).key
    obtain ⟨l2, hpush, hholds⟩ := hl.pushBack (lastMade profile i) (by omega)
    obtain ⟨l', hl'⟩ := ih (i+1) l2 _ hholds (by
      rw [List.length_append, List.length_singleton]
      omega) (fun m hm => h m (by omega))
    refine ⟨l', ?_⟩
    rw [initFrom, hkey, ok_bind, hkey, ok_bind]
    have hclass (szKey : EBetweenPos → List UInt8) (h1 : szKey .line1 = keyText i .line1)
        (h2 : szKey .line2 = keyText i .line2) :
        initClass profile szKey [.line1, .line2] calloc = .ok (some (lastMade profile i)) := by
      rw [initClass_usable profile szKey .line1 _ _ i h1 (hi .line1),
        initClass_usable profile szKey .line2 _ _ i h2 (hi .line2), initClass]
      rfl
    dsimp only
    rw [hclass, ok_bind]
    · dsimp only
      rw [hpush, ok_bind]
      exact hl'
    · rfl
    · rfl

-- Ten million classes can be configured.
theorem initConfig_true (n : ℕ) (hn : 1 ≤ n) (hmax : n ≤ 10^7) (hcount : profile.classCount = n)
    (h : ∀ i < n, ∀ j, (profile.value (keyText i j)).chars ≠ [] ∧
      (profile.value (keyText i j)).strlen < sizeofBuf) :
    ∃ l, initConfig profile = .ok (true, some l) := by
  have husable (i : ℕ) (hi : i < n) (j : EBetweenPos) : Usable profile i j :=
    ⟨length_keyText_lt i (by omega) j, (h i hi j).1, (h i hi j).2⟩
  obtain ⟨l, hl⟩ := initFrom_true profile (largestMax n) n 0 _ [] (CSList.holdsUpTo_alloc n .alloc)
    ((Nat.zero_add n).trans_le (le_largestMax n)) (fun m hm => husable m (by omega))
  refine ⟨l, ?_⟩
  rw [initConfig, hcount, if_neg (by omega), Int.toNat_natCast, hl]
  rfl

end Config

/-- One class, with the keywords `a` and `a`. -/
def oneClass : Profile := ⟨1, fun _ => ⟨[97], CString.noNul_a⟩⟩

theorem initConfig_incomplete_one_class :
    ∃ l, initConfig oneClass = .ok (true, some l) ∧ ¬Complete oneClass 1 l :=
  ⟨_, rfl, (initConfig_incomplete oneClass 1 le_rfl rfl _ rfl).1⟩

theorem not_complete_one_class : ∃ l, initConfig oneClass = .ok (true, some l) ∧
    ¬Complete oneClass 1 l ∧
    parsingLine 0 3 ⟨[97], by decide⟩ zero l.objects = .error .nullRead :=
  ⟨_, rfl, not_complete oneClass 1 le_rfl _ rfl, rfl⟩

end BetweenLines

end Leviathan
