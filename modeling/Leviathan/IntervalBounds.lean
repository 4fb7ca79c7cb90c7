import Leviathan.Average
import Leviathan.BetweenLines

/-! How many lines fit the arrays of `STInterval`, for `CAnalyzer_Average` and `CAnalyzer_BetweenLines`. -/
namespace Leviathan.IntervalBounds

open CmString IntValue IntervalStats

section Feed

-- what `atoi` answers for a number that no `int` holds
variable (atoiOver : List UInt8 → ℤ) (nValue : ℤ) (nLastLen : ℕ)

/-- Lines that `CAnalyzer_Average::parsingLine` is given one after the other. -/
def feed (lines : List CString) (list : List Average.STAnalyzer_Avg) :
    Except Fault (List Average.STAnalyzer_Avg) :=
  lines.foldlM (fun list pLine => (Average.parsingLine atoiOver pLine list).map Prod.snd) list

/-- Lines that `CAnalyzer_BetweenLines::parsingClass` is given for a class, each with its time. -/
def feedClass (lines : List BetweenLines.TimedLine) (pClass : BetweenLines.STBetween_Class) :
    Except Fault BetweenLines.STBetween_Class :=
  lines.foldlM (fun pClass line =>
    (BetweenLines.parsingClass nValue nLastLen line.text line.time pClass).map Prod.snd) pClass

/-- The entries that `initConfig` makes for keywords. -/
def zeroed (keywords : List (Option Average.Keyword)) : List Average.STAnalyzer_Avg :=
  keywords.map (fun k => ⟨k, STInterval.zero⟩)

end Feed

/-- `ehstrstr` meets the keyword. -/
def meets (line : CString) (k : Option Average.Keyword) : Bool :=
  k.any (fun k => (ehstrstr line k.toCString).isSome)

/-- The first keyword that is met in the line. -/
def hitIdx (line : CString) (keywords : List (Option Average.Keyword)) : Option ℕ :=
  keywords.findIdx? (meets line)

/-- The lines that are matched with the keyword at an index. -/
def matching (keywords : List (Option Average.Keyword)) (lines : List CString) (i : ℕ) : ℕ :=
  lines.countP (fun line => hitIdx line keywords = some i)

/-- The lines that end an interval of the class. -/
def ending (pClass : BetweenLines.STBetween_Class) (lines : List BetweenLines.TimedLine) : ℕ :=
  lines.countP (fun line => BetweenLines.Ends line.text pClass)

section Count

variable {S L : Type}

-- What each step counts for the lines that are hits, a run counts for all of them.
theorem foldlM_count (f : S → L → Except Fault S) (hit : L → Bool) (P : S → ℕ → Prop)
    (hstep : ∀ s l s' k, P s k → f s l = .ok s' → P s' (if hit l then k+1 else k))
    (lines : List L) (s s' : S) (k : ℕ) (hs : P s k) (h : lines.foldlM f s = .ok s') :
    P s' (k+lines.countP hit) := by
  induction lines generalizing s k with
  | nil =>
    obtain rfl := Except.ok.inj h
    exact hs
  | cons l lines ih =>
    rw [List.foldlM_cons] at h
    obtain ⟨u, hu, h⟩ := (bind_eq_ok _ _ _).mp h
    have hall := ih u _ (hstep s l u k hs hu) h
    rw [List.countP_cons]
    split_ifs at hall ⊢
    · rwa [Nat.add_right_comm] at hall
    · exact hall

end Count

section AverageLines

variable (atoiOver : List UInt8 → ℤ) (line : CString)

theorem isSome_find (a : Average.STAnalyzer_Avg) : (Average.find line a).isSome = meets line a.pKeyword := by
  unfold Average.find meets
  cases a.pKeyword with
  | none => rfl
  | some k => exact Option.isSome_map

/-- What a line does to the entries: the one that it hits is given a value. -/
structure Fed (list list' : List Average.STAnalyzer_Avg) : Prop where
  keywords : list'.map Average.STAnalyzer_Avg.pKeyword = list.map Average.STAnalyzer_Avg.pKeyword
  entry : ∀ i a', list'[i]? = some a' → ∃ a, list[i]? = some a ∧
    if hitIdx line (list.map Average.STAnalyzer_Avg.pKeyword) = some i then
      ∃ v, Appended a.stInterval v a'.stInterval
    else a' = a

theorem findSuccess_ok (a a' : Average.STAnalyzer_Avg) (K : Average.Keyword) (pPos : ℤ)
    (h : Average.findSuccess atoiOver line a K pPos = .ok a') :
    a'.pKeyword = a.pKeyword ∧ ∃ v, Appended a.stInterval v a'.stInterval := by
  obtain ⟨nValue, -, h⟩ := (bind_eq_ok _ _ _).mp h
  obtain ⟨p, hp, h⟩ := (bind_eq_ok _ _ _).mp h
  obtain rfl := Except.ok.inj h
  exact ⟨rfl, _, (record_eq_ok_iff _ _ _).mp hp⟩

-- The first entry is met.
theorem fed_hit (a a' : Average.STAnalyzer_Avg) (rest : List Average.STAnalyzer_Avg)
    (hmeets : meets line a.pKeyword = true) (hkey : a'.pKeyword = a.pKeyword)
    (hval : ∃ v, Appended a.stInterval v a'.stInterval) : Fed line (a :: rest) (a' :: rest) := by
  have hhit : hitIdx line ((a :: rest).map Average.STAnalyzer_Avg.pKeyword) = some 0 := by
    rw [hitIdx, List.map_cons, List.findIdx?_cons, hmeets]
    rfl
  constructor
  · rw [List.map_cons, List.map_cons, hkey]
  · intro i b hb
    rw [hhit]
    cases i with
    | zero =>
      obtain rfl := Option.some.inj hb
      exact ⟨a, rfl, hval⟩
    | succ i => exact ⟨b, hb, rfl⟩

-- The first entry is not met.
theorem fed_next (a : Average.STAnalyzer_Avg) (rest rest' : List Average.STAnalyzer_Avg)
    (hmeets : meets line a.pKeyword = false) (h : Fed line rest rest') :
    Fed line (a :: rest) (a :: rest') := by
  have hhit : hitIdx line ((a :: rest).map Average.STAnalyzer_Avg.pKeyword) =
      (hitIdx line (rest.map Average.STAnalyzer_Avg.pKeyword)).map (fun i => i+1) := by
    rw [hitIdx, List.map_cons, List.findIdx?_cons, hmeets]
    rfl
  constructor
  · exact congrArg (List.cons a.pKeyword) h.keywords
  · intro i b hb
    rw [hhit]
    cases i with
    | zero =>
      obtain rfl := Option.some.inj hb
      refine ⟨a, rfl, ?_⟩
      rw [if_neg (by simp)]
    | succ i =>
      obtain ⟨c, hc, hcb⟩ := h.entry i b hb
      refine ⟨c, hc, ?_⟩
      have hsucc : (hitIdx line (rest.map Average.STAnalyzer_Avg.pKeyword)).map (fun i => i+1) =
          some (i+1) ↔ hitIdx line (rest.map Average.STAnalyzer_Avg.pKeyword) = some i := by simp
      simpa only [hsucc] using hcb

theorem parsingLine_fed (list : List Average.STAnalyzer_Avg)
    (r : Bool × List Average.STAnalyzer_Avg) (h : Average.parsingLine atoiOver line list = .ok r) :
    Fed line list r.2 := by
  induction list generalizing r with
  | nil =>
    obtain rfl := Except.ok.inj h
    exact ⟨rfl, fun i a' ha => absurd ha.symm (Option.some_ne_none _)⟩
  | cons a rest ih =>
    have hmeets := isSome_find line a
    rw [Average.parsingLine] at h
    cases hfind : Average.find line a with
    | some kp =>
      rw [hfind] at h hmeets
      obtain ⟨a', ha', h⟩ := (bind_eq_ok _ _ _).mp h
      obtain rfl := Except.ok.inj h
      obtain ⟨hkey, hval⟩ := findSuccess_ok atoiOver line a a' kp.1 kp.2 ha'
      exact fed_hit line a a' rest hmeets.symm hkey hval
    | none =>
      rw [hfind] at h hmeets
      obtain ⟨r', hr', h⟩ := (bind_eq_ok _ _ _).mp h
      obtain rfl := Except.ok.inj h
      exact fed_next line a rest r'.2 hmeets.symm (ih r' hr')

-- The entry at an index has counted its lines.
theorem feed_counts (keywords : List (Option Average.Keyword)) (lines : List CString)
    (list : List Average.STAnalyzer_Avg) (i : ℕ) (a : Average.STAnalyzer_Avg)
    (h : feed atoiOver lines (zeroed keywords) = .ok list) (ha : list[i]? = some a) :
    Counts a.stInterval (matching keywords lines i) := by
  let P (list : List Average.STAnalyzer_Avg) (k : ℕ) : Prop :=
    list.map Average.STAnalyzer_Avg.pKeyword = keywords ∧
      ∀ a, list[i]? = some a → Counts a.stInterval k
  have hzero : P (zeroed keywords) 0 := by
    constructor
    · rw [zeroed, List.map_map]
      exact List.map_id keywords
    · intro a ha
      rw [zeroed, List.getElem?_map] at ha
      obtain ⟨k, -, rfl⟩ := Option.map_eq_some_iff.mp ha
      exact counts_zero
  have hall := foldlM_count _ (fun line => hitIdx line keywords = some i) P ?_ lines _ list 0 hzero h
  · rw [Nat.zero_add] at hall
    exact hall.2 a ha
  · intro s l s' k hs hl
    obtain ⟨r, hr, rfl⟩ := (map_eq_ok _ _ _).mp hl
    have hfed := parsingLine_fed atoiOver l s r hr
    refine ⟨hfed.keywords.trans hs.1, ?_⟩
    intro a' ha'
    obtain ⟨b, hb, hab⟩ := hfed.entry i a' ha'
    have hcount := hs.2 b hb
    rw [hs.1] at hab
    simp only [decide_eq_true_eq]
    split_ifs at hab ⊢
    · obtain ⟨v, hv⟩ := hab
      exact hcount.appended _ _ v k hv
    · rwa [hab]

end AverageLines

section ClassLines

variable (nValue : ℤ) (nLastLen : ℕ)

theorem feedClass_counts (lines : List BetweenLines.TimedLine) (c c' : BetweenLines.STBetween_Class)
    (hc : c.stInterval = STInterval.zero) (h : feedClass nValue nLastLen lines c = .ok c') :
    Counts c'.stInterval (ending c lines) := by
  let P (d : BetweenLines.STBetween_Class) (k : ℕ) : Prop :=
    d.pKeyword = c.pKeyword ∧ Counts d.stInterval k
  have hzero : P c 0 := by
    refine ⟨rfl, ?_⟩
    rw [hc]
    exact counts_zero
  have hall := foldlM_count _ (fun line => BetweenLines.Ends line.text c) P ?_ lines c c' 0 hzero h
  · rw [Nat.zero_add] at hall
    exact hall.2
  · intro d l d' k hd hl
    obtain ⟨⟨t', d''⟩, hr, rfl⟩ := (map_eq_ok _ _ _).mp hl
    have hends : BetweenLines.Ends l.text c ↔ BetweenLines.Ends l.text d := by
      unfold BetweenLines.Ends
      rw [hd.1]
    simp only [decide_eq_true_eq, hends]
    rcases BetweenLines.parsingClass_cases nValue nLastLen l.text l.time t' d d'' hr with
      ⟨h1, -, rfl⟩ | ⟨hend, hrec⟩ | ⟨h1, h2, -, rfl⟩
    · have hno : ¬BetweenLines.Ends l.text d := by
        intro he
        rw [he.1] at h1
        cases h1
      rw [if_neg hno]
      exact hd
    · rw [if_pos hend]
      obtain ⟨-, v, p, hp, rfl⟩ := BetweenLines.endClass_cases nValue nLastLen l.time t' d d'' hrec
      exact ⟨hd.1, hd.2.appended _ _ v k ((record_eq_ok_iff _ _ _).mp hp)⟩
    · have hno : ¬BetweenLines.Ends l.text d'' := by
        intro he
        rw [he.2] at h2
        cases h2
      rw [if_neg hno]
      exact hd

end ClassLines

theorem capacity_eq : capacity = 2458200 := by decide

/-- In every state reached, the next line that is matched writes inside the arrays exactly when it is not
the 2458200th of its keyword or class. -/
theorem matching_room_iff (atoiOver : List UInt8 → ℤ) (keywords : List (Option Average.Keyword))
    (lines : List CString) (list : List Average.STAnalyzer_Avg) (i : ℕ) (a : Average.STAnalyzer_Avg)
    (nValue : ℤ) (nLastLen : ℕ) (timed : List BetweenLines.TimedLine)
    (c c' : BetweenLines.STBetween_Class) :
    (feed atoiOver lines (zeroed keywords) = .ok list → list[i]? = some a →
      (Room a.stInterval ↔ matching keywords lines i+1 < 2458200)) ∧
    (c.stInterval = STInterval.zero → feedClass nValue nLastLen timed c = .ok c' →
      (Room c'.stInterval ↔ ending c timed+1 < 2458200)) := by
  rw [← capacity_eq]
  constructor
  · intro h ha
    exact (feed_counts atoiOver keywords lines list i a h ha).room_iff _ _
  · intro hc h
    exact (feedClass_counts nValue nLastLen timed c c' hc h).room_iff _ _

section Full

variable (atoiOver : List UInt8 → ℤ) (line : CString) (K : Average.Keyword) (pPos nValue : ℤ)
  (hmeet : ehstrstr line K.toCString = some pPos)
  (hvalue : getIntValue atoiOver (line.chars.drop pPos.toNat) K.chars = .ok nValue)

include hmeet hvalue

-- A line that is matched can be given as often as the arrays have room.
theorem feed_replicate (k : ℕ) (hk : k < capacity) :
    ∃ p, feed atoiOver (List.replicate k line) (zeroed [some K]) = .ok [⟨some K, p⟩] ∧ Counts p k := by
  induction k with
  | zero => exact ⟨STInterval.zero, rfl, counts_zero⟩
  | succ k ih =>
    obtain ⟨p, hp, hcount⟩ := ih (by omega)
    obtain ⟨q, hq, happ⟩ := record_of_room p (toFloat nValue) ((hcount.room_iff p k).mpr hk)
    refine ⟨q, ?_, hcount.appended p q _ k happ⟩
    have hfind : Average.find line ⟨some K, p⟩ = some (K, pPos) := by
      rw [Average.find, Option.bind_some, hmeet]
      rfl
    have hone : Average.parsingLine atoiOver line [⟨some K, p⟩] = .ok (true, [⟨some K, q⟩]) := by
      rw [Average.parsingLine, hfind]
      dsimp only
      rw [Average.findSuccess, hvalue, ok_bind, hq]
      rfl
    rw [feed] at hp ⊢
    rw [List.replicate_succ', List.foldlM_append, hp, ok_bind, List.foldlM_cons, hone]
    rfl

end Full

/-- The keyword `n` and the line `n[7]`. -/
def keywordN : Average.Keyword := ⟨⟨[110], CString.noNul_n⟩, by decide, by decide⟩

def lineN : CString := ⟨[110, 91, 55, 93], by decide⟩

theorem feed_lineN (k : ℕ) (hk : k < capacity) :
    ∃ p, feed (fun _ => 0) (List.replicate k lineN) (zeroed [some keywordN]) = .ok [⟨some keywordN, p⟩] ∧
      Counts p k := by
  have hmeet : ehstrstr lineN keywordN.toCString = some 0 := by decide
  have hvalue : getIntValue (fun _ => 0) (lineN.chars.drop (0 : ℤ).toNat) keywordN.chars = .ok 7 := by
    decide
  exact feed_replicate (fun _ => 0) lineN keywordN 0 7 hmeet hvalue k hk

theorem matching_room_iff_two_lines :
    (∃ p, feed (fun _ => 0) (List.replicate 2 lineN) (zeroed [some keywordN]) =
      .ok [⟨some keywordN, p⟩] ∧ Room p) ∧
    ∃ c, feedClass 0 3 [BetweenLines.lineAt 97 (by decide) 0 30, BetweenLines.lineAt 98 (by decide) 1 40]
      (BetweenLines.classAB LogTime.zero) = .ok c ∧ Room c.stInterval := by
  obtain ⟨p, hp, -⟩ := feed_lineN 2 (by decide)
  have h (c : BetweenLines.STBetween_Class) := matching_room_iff (fun _ => 0) [some keywordN]
    (List.replicate 2 lineN) [⟨some keywordN, p⟩] 0 ⟨some keywordN, p⟩ 0 3
    [BetweenLines.lineAt 97 (by decide) 0 30, BetweenLines.lineAt 98 (by decide) 1 40]
    (BetweenLines.classAB LogTime.zero) c
  constructor
  · exact ⟨p, hp, ((h (BetweenLines.classAB LogTime.zero)).1 hp rfl).mpr (by decide)⟩
  · exact ⟨_, rfl, ((h _).2 rfl rfl).mpr (by decide)⟩

-- after 2458199 lines `n[7]`
theorem not_room_full :
    ∃ p, feed (fun _ => 0) (List.replicate 2458199 lineN) (zeroed [some keywordN]) =
      .ok [⟨some keywordN, p⟩] ∧ ¬Room p := by
  obtain ⟨p, hp, hcount⟩ := feed_lineN 2458199 (by decide)
  refine ⟨p, hp, fun hroom => ?_⟩
  exact absurd ((hcount.room_iff p _).mp hroom) (by decide)

end Leviathan.IntervalBounds
