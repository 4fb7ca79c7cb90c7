import Leviathan.RedisList

/-! The text of a whole Redis command (`CRedisList::getRedisContents`, NWSessionManager.cpp): the field that
is its length before it is made and the class of its buffer afterwards. -/
namespace Leviathan.CRedisList

open Buffers

section Print

/-- The texts with a blank behind each. -/
def printed (xs : List CString) : ℕ := (xs.map (fun str => str.strlen+1)).sum

theorem printed_cons (str : CString) (xs : List CString) :
    printed (str :: xs) = str.strlen+1+printed xs := by
  rw [printed, List.map_cons, List.sum_cons]
  rfl

variable (nSize nPos : ℕ) (buf : List UInt8) (hlen : buf.length = nSize)

include hlen

theorem strcpy_word (str : CString) (hin : nPos+(str.strlen+1) < nSize) :
    ∃ buf', strcpy buf nPos (str.chars ++ [32]) = .ok buf' ∧ buf'.length = nSize := by
  have hput : ∃ buf', strcpy buf nPos (str.chars ++ [32]) = .ok buf' := by
    refine ⟨_, if_pos ⟨Int.natCast_nonneg nPos, ?_⟩⟩
    rw [CString.strlen] at hin
    simp only [List.length_append, List.length_singleton]
    push_cast
    omega
  obtain ⟨buf', hput⟩ := hput
  exact ⟨buf', hput, (strcpy_ok _ _ _ _ hput).2.trans hlen⟩

theorem strcpy_over (str : CString) (hout : nSize ≤ nPos+(str.strlen+1)) (buf' : List UInt8) :
    strcpy buf nPos (str.chars ++ [32]) ≠ .ok buf' := by
  intro hput
  have hin := (strcpy_ok _ _ _ _ hput).1.2
  rw [CString.strlen] at hout
  rw [List.length_append, List.length_singleton] at hin
  push_cast at hin
  omega

-- The loop is left by neither of its tests: `i` stays below `m_nUse`, and `nPos` below the size.
theorem print_fits (m_nUse i : ℕ) (xs : List CString) (hi : i+xs.length ≤ m_nUse)
    (hfits : nPos+printed xs < nSize) :
    ∃ buf', print m_nUse nSize (xs.map some) i nPos buf = .ok (nPos+printed xs, buf') ∧
      buf'.length = nSize := by
  induction xs generalizing i nPos buf with
  | nil => exact ⟨buf, rfl, hlen⟩
  | cons str xs ih =>
    rw [List.length_cons] at hi
    rw [printed_cons] at hfits
    obtain ⟨buf', hput, hlen'⟩ := strcpy_word nSize nPos buf hlen str (by omega)
    obtain ⟨r, hrest, hr⟩ := ih (nPos+(str.strlen+1)) buf' hlen' (i+1) (by omega) (by omega)
    refine ⟨r, ?_, hr⟩
    rw [List.map_cons, print, hput, ok_bind, if_neg (by omega), if_neg (by omega), hrest, printed_cons,
      Nat.add_assoc nPos]

theorem print_over (m_nUse i : ℕ) (xs : List CString) (hi : i+xs.length ≤ m_nUse) (hpos : nPos < nSize)
    (hover : nSize ≤ nPos+printed xs) (r : ℕ × List UInt8) :
    print m_nUse nSize (xs.map some) i nPos buf ≠ .ok r := by
  induction xs generalizing i nPos buf with
  | nil => exact absurd hpos (not_lt.mpr hover)
  | cons str xs ih =>
    rw [List.length_cons] at hi
    rw [printed_cons] at hover
    intro hprint
    rw [List.map_cons, print] at hprint
    obtain ⟨buf', hput, hrest⟩ := (bind_eq_ok _ _ _).mp hprint
    have hin : nPos+(str.strlen+1) < nSize := by
      by_contra hout
      exact strcpy_over nSize nPos buf hlen str (not_lt.mp hout) buf' hput
    dsimp only at hrest
    rw [if_neg (by omega), if_neg (by omega)] at hrest
    have hlen' := (strcpy_ok _ _ _ _ hput).2.trans hlen
    exact ih _ buf' hlen' (i+1) (by omega) hin (by omega) hrest

end Print

theorem print_length (m_nUse nSize : ℕ) (argv : List (Option CString)) (i nPos : ℕ) (buf : List UInt8)
    (r : ℕ × List UInt8) (h : print m_nUse nSize argv i nPos buf = .ok r) : r.2.length = buf.length := by
  induction argv generalizing i nPos buf with
  | nil =>
    obtain rfl := Except.ok.inj h
    rfl
  | cons arg argv ih =>
    cases arg with
    | none => cases h
    | some str =>
      rw [print] at h
      obtain ⟨buf', hput, hrest⟩ := (bind_eq_ok _ _ _).mp h
      have hlen := (strcpy_ok _ _ _ _ hput).2
      dsimp only at hrest
      split_ifs at hrest
      · obtain rfl := Except.ok.inj hrest
        exact hlen
      · obtain rfl := Except.ok.inj hrest
        exact hlen
      · exact (ih _ _ buf' hrest).trans hlen

namespace Full

/-- While the contents are there, `m_nContentsIdx` is the class that their buffer was allocated with. -/
def HasClass (l : Full) : Prop :=
  ∀ buf, l.m_pRedisFullContents = some buf → l.m_nContentsIdx = getIndex buf.length

section Contents

variable (l : Full) (items : List (CString × ℕ)) (block : Option (ℕ → UInt8))

open Traced

theorem length_newBuf (nSize : ℕ) (buf : List UInt8) (h : newBuf block nSize = some buf) :
    buf.length = nSize := by
  obtain ⟨fill, -, rfl⟩ := Option.map_eq_some_iff.mp h
  rw [List.length_map, List.length_range]

-- Only the contents and their class change.
theorem getRedisContents_cases (l' : Full) (h : l.getRedisContents (newBuf block) = .ok l') :
    l'.HasClass ∧ ∃ contents idx, l' = { l with m_pRedisFullContents := contents, m_nContentsIdx := idx } ∧
      (block.isSome → contents ≠ none) := by
  obtain ⟨filled, hfill, rfl⟩ := (map_eq_ok _ _ _).mp h
  rw [fillContents] at hfill
  obtain ⟨nSize, -, hfill⟩ := (bind_eq_ok _ _ _).mp hfill
  cases hbuf : newBuf block nSize with
  | none =>
    simp only [hbuf] at hfill
    obtain rfl := Except.ok.inj hfill
    refine ⟨fun buf hb => ?_, _, _, rfl, fun hsome => ?_⟩
    · cases hb
    · rw [newBuf, Option.map_eq_none_iff] at hbuf
      rw [hbuf] at hsome
      cases hsome
  | some buf =>
    simp only [hbuf] at hfill
    obtain ⟨r, hprint, hfill⟩ := (bind_eq_ok _ _ _).mp hfill
    obtain ⟨buf', hput, hfill⟩ := (bind_eq_ok _ _ _).mp hfill
    obtain rfl := Except.ok.inj hfill
    refine ⟨fun b hb => ?_, _, _, rfl, fun _ => Option.some_ne_none buf'⟩
    obtain rfl := Option.some.inj hb
    have hlen := (store_ok _ _ _ _ hput).2.trans (print_length _ _ _ _ _ _ _ hprint)
    rw [hlen, length_newBuf block nSize buf hbuf]

/-- Every length is that of its text. -/
def Sizes (items : List (CString × ℕ)) : Prop := ∀ item ∈ items, item.2 = item.1.strlen

theorem printed_items (hsizes : Sizes items) :
    printed (items.map Prod.fst) = (items.map Prod.snd).sum+items.length := by
  induction items with
  | nil => rfl
  | cons item items ih =>
    have htail := ih (fun i hi => hsizes i (List.mem_cons_of_mem _ hi))
    have hhead := hsizes item List.mem_cons_self
    rw [List.map_cons, printed_cons, htail, List.map_cons, List.sum_cons, List.length_cons, hhead]
    omega

/-- What is known of the length of all texts when the contents are made. -/
def knownLength : ℕ := if l.m_pRedisFullContents.isSome then 0 else l.m_nContentsIdx

theorem nSize_eq : l.nSize = l.knownLength+l.m_nUse+128 := rfl

variable (h : l.Argv items) (hsizes : Sizes items)

include h

theorem sum_argvLen : l.m_pArgvLen.sum = (items.map Prod.snd).sum := by
  rw [h.len.eq, List.sum_append, List.sum_replicate, smul_zero, Nat.add_zero]

theorem take_argv : l.m_pArgv.take l.m_nLast = (items.map Prod.fst).map some := by
  have htake := h.argv.take
  rw [List.length_map] at htake
  rw [h.last, htake, List.map_map]
  rfl

include hsizes

theorem contents_fit_iff (hint : l.nSize < 2^31) (fill : ℕ → UInt8) :
    (∃ l', l.getRedisContents (newBuf (some fill)) = .ok l') ↔ l.m_pArgvLen.sum < l.knownLength+128 := by
  have hprinted := printed_items items hsizes
  have hsum := sum_argvLen l items h
  have hargv := take_argv l items h
  have huse := h.use
  have hsize := nSize_eq l
  have hcount : 0+(items.map Prod.fst).length ≤ l.m_nUse := by
    rw [List.length_map, huse, Nat.zero_add]
  have hbuf : ((List.range l.nSize).map fill).length = l.nSize := length_newBuf (some fill) _ _ rfl
  have hfill : l.fillContents (newBuf (some fill)) =
      print l.m_nUse l.nSize ((items.map Prod.fst).map some) 0 0 ((List.range l.nSize).map fill) >>=
        fun r => store r.2 r.1 [0] >>= fun buf => .ok (some { l.toCRedisList with
          m_pRedisFullContents := some buf
          m_nContentsIdx := getIndex l.nSize }) := by
    rw [fillContents, toInt, if_pos hint, ok_bind, hargv]
    rfl
  rw [getRedisContents, hfill]
  constructor
  · rintro ⟨l', hl'⟩
    obtain ⟨c, hc, -⟩ := (map_eq_ok _ _ _).mp hl'
    obtain ⟨r, hr, -⟩ := (bind_eq_ok _ _ _).mp hc
    by_contra hover
    exact print_over l.nSize 0 _ hbuf l.m_nUse 0 _ hcount (by omega) (by omega) r hr
  · intro hfits
    obtain ⟨buf, hprint, hlen⟩ := print_fits l.nSize 0 _ hbuf l.m_nUse 0 _ hcount (by omega)
    have hput : ∃ buf', store buf ((0+printed (items.map Prod.fst) : ℕ) : ℤ) [0] = .ok buf' := by
      refine ⟨_, if_pos ⟨Int.natCast_nonneg _, ?_⟩⟩
      rw [List.length_singleton]
      push_cast
      omega
    obtain ⟨buf', hput⟩ := hput
    rw [hprint, ok_bind, hput]
    exact ⟨_, rfl⟩

end Contents

namespace Traced

variable (s : Traced)

/-- The length is that of the text. -/
def Sized (_ : Traced) : Call → Prop
  | .add Obj nLen _ | .pushBack Obj nLen _ => nLen = Obj.strlen
  | .getRedisContents _ | .clear => True

/-- The class of the contents is known after the call, `clear` releases them with it, and what
`getRedisContents` writes stays in the size asked for. -/
def Tracks : Call → Prop
  | .add Obj nLen ok => ∀ r, s.list.add Obj nLen ok = .ok r → r.1.HasClass
  | .pushBack Obj nLen ok => ∀ r, s.list.pushBack Obj nLen ok = .ok r → r.1.HasClass
  | .getRedisContents block => ∃ l, s.list.getRedisContents (newBuf block) = .ok l ∧ l.HasClass
  | .clear => s.list.clear.1.HasClass ∧ ∀ k, s.list.clear.2.2 = some k →
      ∃ buf, s.list.m_pRedisFullContents = some buf ∧ k = getIndex buf.length

/-- `push_back` stores a text of some length only while there are no contents, and all texts are at most
127 characters longer than what is known of their length when the contents are made. -/
def Known : Call → Prop
  | .add _ _ _ | .clear => True
  | .pushBack _ nLen ok => s.list.m_pRedisFullContents = none ∨ nLen = 0 ∨
      (s.list.m_nUse = s.list.m_nMax ∧ (ok = false ∨ 2^31 ≤ s.list.m_nMax*2))
  | .getRedisContents block => s.list.nSize < 2^31 ∧
      (block.isSome → s.list.m_pArgvLen.sum < s.list.knownLength+128)

instance : (c : Call) → Decidable (s.Sized c)
  | .add Obj nLen _ | .pushBack Obj nLen _ => inferInstanceAs (Decidable (nLen = Obj.strlen))
  | .getRedisContents _ | .clear => isTrue trivial

instance : (c : Call) → Decidable (s.Known c)
  | .add _ _ _ | .clear => isTrue trivial
  | .pushBack _ nLen ok => inferInstanceAs (Decidable (s.list.m_pRedisFullContents = none ∨ nLen = 0 ∨
      (s.list.m_nUse = s.list.m_nMax ∧ (ok = false ∨ 2^31 ≤ s.list.m_nMax*2))))
  | .getRedisContents block => inferInstanceAs (Decidable (s.list.nSize < 2^31 ∧
      (block.isSome → s.list.m_pArgvLen.sum < s.list.knownLength+128)))

/-- What is known of a state. -/
structure Tracking : Prop where
  ready : s.list.Ready s.items
  hasClass : s.list.HasClass
  sizes : Sizes s.items

section Steps

variable (h : s.Tracking)

include h

theorem add_hasClass (Obj : CString) (nLen : ℕ) (ok : Bool) (r : Full × Option ℕ)
    (hr : s.list.add Obj nLen ok = .ok r) : r.1.HasClass := by
  rcases add_cases s h.ready Obj nLen ok r hr with ⟨rfl, -⟩ | ⟨-, -, hcontents, hidx⟩
  · exact h.hasClass
  · rw [HasClass, hcontents, hidx]
    exact h.hasClass

-- The length goes to a field that is the class of the contents, if there are any.
theorem pushBack_hasClass_iff (Obj : CString) (nLen : ℕ) (ok : Bool) :
    s.Tracks (.pushBack Obj nLen ok) ↔ s.Known (.pushBack Obj nLen ok) := by
  constructor
  · intro htracks
    by_contra hknown
    obtain ⟨hcontents, hpos, hroom⟩ : s.list.m_pRedisFullContents ≠ none ∧ nLen ≠ 0 ∧
        ¬(s.list.m_nUse = s.list.m_nMax ∧ (ok = false ∨ 2^31 ≤ s.list.m_nMax*2)) := by
      simpa only [Known, not_or] using hknown
    obtain ⟨buf, hbuf⟩ := Option.ne_none_iff_exists'.mp hcontents
    have hstores := add_stores s.list s.items Obj nLen ok h.ready
      (fun hfull => by
        by_contra hno
        exact hroom ⟨h.ready.use.trans hfull, Or.inl (Bool.eq_false_iff.mpr hno)⟩)
      (fun hfull => by
        by_contra hover
        exact hroom ⟨hfull, Or.inr (not_lt.mp hover)⟩)
    obtain ⟨l', hadd, -, -, hsame, hidx⟩ := hstores
    have hclass := htracks ({ l' with m_nContentsIdx := l'.m_nContentsIdx+nLen }, some s.items.length) (by
      rw [pushBack, hadd]
      rfl) buf (hsame.trans hbuf)
    have hold := h.hasClass buf hbuf
    have hnew : l'.m_nContentsIdx+nLen = getIndex buf.length := hclass
    omega
  · intro hknown r hr
    obtain ⟨r', hr', rfl⟩ := (map_eq_ok _ _ _).mp hr
    have hclass := add_hasClass s h Obj nLen ok r' hr'
    rcases add_cases s h.ready Obj nLen ok r' hr' with ⟨rfl, -⟩ | ⟨hindex, -, hcontents, -⟩
    · exact hclass
    · rw [hindex]
      rcases hknown with hnone | hzero | ⟨hfull, hgrow⟩
      · intro buf hbuf
        rw [show r'.1.m_pRedisFullContents = some buf from hbuf] at hcontents
        rw [hnone] at hcontents
        cases hcontents
      · subst hzero
        exact hclass
      · rw [add_refused s h.ready Obj nLen ok r' hr' hfull hgrow] at hindex
        cases hindex

theorem contents_iff (block : Option (ℕ → UInt8)) :
    s.Tracks (.getRedisContents block) ↔ s.Known (.getRedisContents block) := by
  have hclass (l' : Full) (hl' : s.list.getRedisContents (newBuf block) = .ok l') : l'.HasClass :=
    (getRedisContents_cases s.list block l' hl').1
  have hsize (l' : Full) (hl' : s.list.getRedisContents (newBuf block) = .ok l') :
      s.list.nSize < 2^31 := by
    obtain ⟨filled, hfill, -⟩ := (map_eq_ok _ _ _).mp hl'
    obtain ⟨n, hn, -⟩ := (bind_eq_ok _ _ _).mp hfill
    unfold toInt at hn
    split_ifs at hn with hlt
    exact hlt
  constructor
  · rintro ⟨l', hl', -⟩
    refine ⟨hsize l' hl', fun hsome => ?_⟩
    obtain ⟨fill, rfl⟩ := Option.isSome_iff_exists.mp hsome
    exact (contents_fit_iff s.list s.items h.ready.toArgv h.sizes (hsize l' hl') fill).mp ⟨l', hl'⟩
  · rintro ⟨hint, hfits⟩
    have hok : ∃ l', s.list.getRedisContents (newBuf block) = .ok l' := by
      cases block with
      | none =>
        rw [getRedisContents, fillContents, toInt, if_pos hint]
        exact ⟨_, rfl⟩
      | some fill =>
        exact (contents_fit_iff s.list s.items h.ready.toArgv h.sizes hint fill).mpr (hfits rfl)
    obtain ⟨l', hl'⟩ := hok
    exact ⟨l', hl', hclass l' hl'⟩

theorem clear_tracks : s.Tracks .clear := by
  have hcleared : s.list.clearArgv.1.m_pRedisFullContents = s.list.m_pRedisFullContents ∧
      s.list.clearArgv.1.m_nContentsIdx = s.list.m_nContentsIdx := by
    rw [clearArgv]
    split_ifs
    · exact ⟨rfl, rfl⟩
    · exact ⟨rfl, rfl⟩
  rw [Tracks, clear]
  cases hbuf : s.list.m_pRedisFullContents with
  | none =>
    rw [hbuf] at hcleared
    simp only [hcleared.1]
    refine ⟨fun buf hb => ?_, fun k hk => ?_⟩
    · rw [hcleared.1] at hb
      cases hb
    · cases hk
  | some buf =>
    rw [hbuf] at hcleared
    simp only [hcleared.1]
    refine ⟨fun b hb => ?_, fun k hk => ⟨buf, rfl, ?_⟩⟩
    · cases hb
    · rw [← Option.some.inj hk, hcleared.2]
      exact h.hasClass buf hbuf

theorem tracks_iff (c : Call) : s.Tracks c ↔ s.Known c := by
  cases c with
  | add Obj nLen ok => exact iff_of_true (fun r hr => add_hasClass s h Obj nLen ok r hr) trivial
  | pushBack Obj nLen ok => exact pushBack_hasClass_iff s h Obj nLen ok
  | getRedisContents block => exact contents_iff s h block
  | clear => exact iff_of_true (clear_tracks s h) trivial

theorem sizes_added (Obj : CString) (r : Full × Option ℕ) :
    Sizes (s.added (Obj, Obj.strlen) r).items := by
  rw [added]
  dsimp only
  split_ifs
  · intro item hitem
    rcases List.mem_append.mp hitem with hold | hnew
    · exact h.sizes item hold
    · rw [List.mem_singleton.mp hnew]
  · exact h.sizes

theorem tracking_step (c : Call) (t : Traced) (hc : s.Sized c) (hknown : s.Known c)
    (ht : s.step c = some t) : t.Tracking := by
  have htracks := (tracks_iff s h c).mpr hknown
  cases c with
  | add Obj nLen ok =>
    obtain rfl : nLen = Obj.strlen := hc
    obtain ⟨r, hr, rfl⟩ := Option.map_eq_some_iff.mp ht
    have hok := ok_of_toOption _ r hr
    exact ⟨ready_added s h.ready Obj _ ok r hok, htracks r hok, sizes_added s h Obj r⟩
  | pushBack Obj nLen ok =>
    obtain rfl : nLen = Obj.strlen := hc
    obtain ⟨r, hr, rfl⟩ := Option.map_eq_some_iff.mp ht
    have hok := ok_of_toOption _ r hr
    exact ⟨ready_pushed s h.ready Obj _ ok r hok, htracks r hok, sizes_added s h Obj r⟩
  | getRedisContents block =>
    obtain ⟨l, hl, rfl⟩ := Option.map_eq_some_iff.mp ht
    obtain ⟨hclass, contents, idx, rfl, -⟩ :=
      getRedisContents_cases s.list block l (ok_of_toOption _ l hl)
    have hready := h.ready
    exact ⟨⟨⟨hready.argv, hready.len, hready.use, hready.last⟩, hready.pos, hready.int⟩, hclass, h.sizes⟩
  | clear =>
    obtain rfl := Option.some.inj ht
    exact ⟨ready_clear s h.ready, htracks.1, fun item hitem => absurd hitem List.not_mem_nil⟩

end Steps

theorem tracking_alloc (n : ℕ) (hn : 1 ≤ n) (hint : n < 2^31) (type : EAllocType) :
    (allocated n type).Tracking := by
  refine ⟨ready_alloc n hn hint type, fun buf hbuf => ?_, fun item hitem => absurd hitem List.not_mem_nil⟩
  rw [allocated, alloc_eq n hn type] at hbuf
  cases hbuf

/-- From `alloc(n)` on, the class of the contents is known and they stay in their buffer all along a run
exactly when `push_back` stores no text behind contents that are there, and no contents are made of texts
that are 128 or more characters longer than the field `m_nContentsIdx` tells. -/
theorem tracks_along_iff (n : ℕ) (hn : 1 ≤ n) (hint : n < 2^31) (type : EAllocType) (calls : List Call)
    (hsized : Runs.Along step Sized (allocated n type) calls) :
    Runs.Along step Tracks (allocated n type) calls ↔ Runs.Along step Known (allocated n type) calls := by
  apply Runs.along_iff_of_invariant step Sized Tracks Known Tracking
  · intro s c t h hc hknown ht
    exact tracking_step s h c t hc hknown ht
  · intro s c h _
    exact tracks_iff s h c
  · exact tracking_alloc n hn hint type
  · exact hsized

-- the contents of one argument, and another argument after `clear`
theorem tracks_along_iff_cleared : Runs.Along step Tracks (allocated 1 .none)
    [.pushBack ⟨[65], by decide⟩ 1 true, .getRedisContents (some fun _ => 0), .clear,
      .pushBack ⟨[66], by decide⟩ 1 true] :=
  (tracks_along_iff 1 le_rfl (by decide) .none _ (by decide +kernel)).mpr (by decide +kernel)

-- One more text behind the contents: the class of their 130 bytes is 8, and it becomes 9.
theorem not_tracks_along :
    Runs.Along step Sized (allocated 2 .none) ([.pushBack ⟨[65], by decide⟩ 1 true,
      .getRedisContents (some fun _ => 0)] ++ [.pushBack ⟨[66], by decide⟩ 1 true]) ∧
    ¬Runs.Along step Tracks (allocated 2 .none) ([.pushBack ⟨[65], by decide⟩ 1 true,
      .getRedisContents (some fun _ => 0)] ++ [.pushBack ⟨[66], by decide⟩ 1 true]) := by
  refine ⟨by decide +kernel, fun halong => ?_⟩
  have hrun : (Runs.runFrom step (allocated 2 .none) [.pushBack ⟨[65], by decide⟩ 1 true,
      .getRedisContents (some fun _ => 0)]).map
        (fun t => decide (t.Known (.pushBack ⟨[66], by decide⟩ 1 true))) = some false := by
    decide +kernel
  obtain ⟨t, ht, hknown⟩ := Option.map_eq_some_iff.mp hrun
  have htracking : t.Tracking := by
    apply Runs.runFrom_guarded_invariant step (fun s c => s.Sized c ∧ s.Known c) Tracking
      (fun s c t h hc hstep => tracking_step s h c t hc.1 hc.2 hstep) _ t _
      (tracking_alloc 2 (by decide) (by decide) .none) _ ht
    decide +kernel
  have htracks := Runs.along_after step Tracks _ t _ [] _ ht halong
  exact of_decide_eq_false hknown ((tracks_iff t htracking _).mp htracks)

/-- Arguments are pushed while there are no contents, which are then made once until `clear`. -/
def Orderly : Call → Prop
  | .add _ _ _ => False
  | .pushBack _ _ _ => s.list.m_pRedisFullContents = none
  | .getRedisContents block =>
    s.list.m_pRedisFullContents = none ∧ block.isSome = true ∧ s.list.nSize < 2^31
  | .clear => True

/-- The length of all texts is known until the contents are there. -/
structure Counting : Prop extends Tracking s where
  known : s.list.m_pRedisFullContents = none → (s.items.map Prod.snd).sum ≤ s.list.m_nContentsIdx

section Orderly

variable (h : s.Counting)

include h

theorem known_of_orderly (c : Call) (hc : s.Orderly c) : s.Known c := by
  cases c with
  | add _ _ _ => exact hc.elim
  | pushBack _ _ _ => exact Or.inl hc
  | getRedisContents block =>
    obtain ⟨hnone, -, hint⟩ := hc
    refine ⟨hint, fun _ => ?_⟩
    have hknown := h.known hnone
    rw [sum_argvLen s.list s.items h.ready.toArgv, knownLength, hnone]
    show (s.items.map Prod.snd).sum < s.list.m_nContentsIdx+128
    omega
  | clear => trivial

theorem counting_step (c : Call) (t : Traced) (hsized : s.Sized c) (hc : s.Orderly c)
    (ht : s.step c = some t) : t.Counting := by
  have htracking := tracking_step s h.toTracking c t hsized (known_of_orderly s h c hc) ht
  refine ⟨htracking, fun hnone => ?_⟩
  cases c with
  | add _ _ _ => exact hc.elim
  | pushBack Obj nLen ok =>
    obtain ⟨r, hr, rfl⟩ := Option.map_eq_some_iff.mp ht
    obtain ⟨r', hr', rfl⟩ := (map_eq_ok _ _ _).mp (ok_of_toOption _ r hr)
    have hknown := h.known hc
    rcases add_cases s h.ready Obj nLen ok r' hr' with ⟨rfl, -⟩ | ⟨hindex, -, -, hidx⟩
    · exact hknown
    · have hsum : ((s.items ++ [(Obj, nLen)]).map Prod.snd).sum = (s.items.map Prod.snd).sum+nLen := by
        rw [List.map_append, List.sum_append, List.map_singleton, List.sum_singleton]
      simp only [added, hindex, Option.isSome_some, if_true]
      rw [hsum, hidx]
      exact Nat.add_le_add_right hknown nLen
  | getRedisContents block =>
    obtain ⟨l, hl, rfl⟩ := Option.map_eq_some_iff.mp ht
    obtain ⟨-, contents, idx, rfl, hsome⟩ := getRedisContents_cases s.list block l (ok_of_toOption _ l hl)
    exact absurd hnone (hsome hc.2.1)
  | clear =>
    obtain rfl := Option.some.inj ht
    exact Nat.zero_le _

end Orderly

/-- A list that is used in this order keeps the class of its contents and stays in their buffer. -/
theorem orderly_tracks (n : ℕ) (hn : 1 ≤ n) (hint : n < 2^31) (type : EAllocType) (calls : List Call)
    (hcalls : Runs.Along step (fun s c => s.Sized c ∧ s.Orderly c) (allocated n type) calls) :
    Runs.Along step Tracks (allocated n type) calls := by
  apply Runs.along_of_invariant step (fun s c => s.Sized c ∧ s.Orderly c) Tracks Counting
  · intro s c t h hc ht
    exact counting_step s h c t hc.1 hc.2 ht
  · intro s c h hc
    exact (tracks_iff s h.toTracking c).mpr (known_of_orderly s h c hc.2)
  · exact ⟨tracking_alloc n hn hint type, fun _ => Nat.zero_le _⟩
  · exact hcalls

end Traced

end Full

end Leviathan.CRedisList
