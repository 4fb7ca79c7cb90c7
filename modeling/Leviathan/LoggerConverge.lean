import Leviathan.LoggerCommands

/-! When the calls and the writer agree in the end.  Each logger is looked at alone: the steps that are
about another logger do not change what it sees. -/
namespace Leviathan.LoggerCommands

/-- What one logger sees of the state. -/
structure View where
  enable : Bool
  listed : Bool
  todo : List Code
  last : Option Code
  point : Point

namespace View

/-- The steps that are about the logger, in a run that keeps its commands. -/
inductive Step (v : View) : View → Prop
  | call (c : Code) :
    Step v { v with enable := c = .enable, todo := v.todo ++ [c], last := some c }
  | popEnable (rest : List Code) (hp : v.point = .away) (ht : v.todo = .enable :: rest) :
    Step v { v with point := .enTest }
  | popDisable (rest : List Code) (hp : v.point = .away) (ht : v.todo = .disable :: rest) :
    Step v { v with point := .diDisable }
  | already (rest : List Code) (hp : v.point = .enTest) (ht : v.todo = .enable :: rest)
    (he : v.enable = true) (hl : v.listed = true) : Step v { v with todo := rest, point := .away }
  | test (pt : Point) (hp : v.point = .enTest) (he : v.enable = false)
    (hpt : pt = .enOpen ∨ pt = .enExist) : Step v { v with point := pt }
  | opened (hp : v.point = .enOpen) : Step v { v with point := .enExist }
  | exist (rest : List Code) (hp : v.point = .enExist) (ht : v.todo = .enable :: rest)
    (hl : v.listed = true) : Step v { v with todo := rest, point := .away }
  | add (hp : v.point = .enExist) : Step v { v with listed := true, point := .enSet }
  | set (rest : List Code) (hp : v.point = .enSet) (ht : v.todo = .enable :: rest) :
    Step v { v with enable := true, todo := rest, point := .away }
  | disable (hp : v.point = .diDisable) (hd : .disable ∈ v.todo) :
    Step v { v with enable := false, point := .diDel }
  | del (hp : v.point = .diDel) : Step v { v with listed := false, point := .diClear }
  | clear (rest : List Code) (hp : v.point = .diClear) (ht : v.todo = .disable :: rest) :
    Step v { v with enable := false, todo := rest, point := .away }

/-- The last command under way is the last call; when nothing is under way the call has been carried
out; and a listed logger without its flag is about to be disabled or to be set. -/
structure Inv (v : View) : Prop where
  last : ∀ c, v.todo.getLast? = some c → v.last = some c
  settled : v.todo = [] → ∀ c, v.last = some c →
    (v.listed = true ↔ c = .enable) ∧ (v.enable = true ↔ c = .enable)
  kept : v.listed = true → v.enable = true ∨ .disable ∈ v.todo ∨ v.point = .enSet
  busy : v.point ≠ .away → v.todo ≠ []
  -- nobody has called since the writer saw the flag clear
  unset : v.point = .enOpen ∨ v.point = .enExist → v.todo = [.enable] → v.enable = false
  added : v.point = .enSet → v.listed = true
  removed : v.point = .diClear → v.listed = false

-- a command is done, and the others are still in the order of their calls
theorem Inv.last_rest (v : View) (h : v.Inv) (c : Code) (rest : List Code) (ht : v.todo = c :: rest) :
    ∀ d, rest.getLast? = some d → v.last = some d := by
  intro d hd
  apply h.last d
  rw [ht, List.getLast?_cons, hd]
  rfl

theorem Inv.last_single (v : View) (h : v.Inv) (c : Code) (rest : List Code) (ht : v.todo = c :: rest)
    (hr : rest = []) : v.last = some c := by
  apply h.last c
  rw [ht, hr]
  rfl

theorem Inv.call (v : View) (h : v.Inv) (c : Code) :
    Inv { v with enable := c = .enable, todo := v.todo ++ [c], last := some c } := by
  constructor
  · intro d hd
    rw [List.getLast?_concat] at hd
    exact hd
  · intro hnil
    exact absurd hnil (by simp)
  · intro _
    cases c with
    | enable => exact Or.inl rfl
    | disable => exact Or.inr (Or.inl (by simp))
  · intro _
    simp
  · intro hp ht
    have hne : v.todo ≠ [] := by
      apply h.busy
      rcases hp with hp | hp <;> simp only at hp <;> simp [hp]
    have hlen := congrArg List.length ht
    rw [List.length_append] at hlen
    simp at hlen
    exact absurd hlen hne
  · exact h.added
  · exact h.removed

-- the writer moves on, and the command stays under way
theorem Inv.underWay (v w : View) (h : v.Inv) (hne : v.todo ≠ []) (htodo : w.todo = v.todo)
    (hlast : w.last = v.last)
    (hkept : w.listed = true → w.enable = true ∨ .disable ∈ w.todo ∨ w.point = .enSet)
    (hunset : w.point = .enOpen ∨ w.point = .enExist → w.todo = [.enable] → w.enable = false)
    (hadded : w.point = .enSet → w.listed = true)
    (hremoved : w.point = .diClear → w.listed = false) : w.Inv := by
  have hne' : w.todo ≠ [] := by
    rw [htodo]
    exact hne
  refine ⟨?_, fun hnil => absurd hnil hne', hkept, fun _ => hne', hunset, hadded, hremoved⟩
  rw [htodo, hlast]
  exact h.last

-- the writer moves on to a point where nothing more is known
theorem Inv.move (v : View) (h : v.Inv) (pt : Point) (hne : v.todo ≠ []) (h1 : v.point ≠ .enSet)
    (h2 : pt ≠ .enSet) (h3 : pt ≠ .diClear)
    (hu : pt = .enOpen ∨ pt = .enExist → v.todo = [.enable] → v.enable = false) :
    Inv { v with point := pt } := by
  refine h.underWay v _ hne rfl rfl ?_ ?_ ?_ ?_
  · intro hl
    rcases h.kept hl with he | hd | hp
    · exact Or.inl he
    · exact Or.inr (Or.inl hd)
    · exact absurd hp h1
  · exact hu
  · intro hp
    exact absurd hp h2
  · intro hp
    exact absurd hp h3

-- the writer is done with a command
theorem Inv.finish (v : View) (h : v.Inv) (c : Code) (rest : List Code) (enable : Bool)
    (ht : v.todo = c :: rest)
    (hend : rest = [] → (v.listed = true ↔ c = .enable) ∧ (enable = true ↔ c = .enable))
    (hkept : v.listed = true → enable = true ∨ .disable ∈ rest) :
    Inv { v with enable := enable, todo := rest, point := .away } := by
  constructor
  · exact h.last_rest v c rest ht
  · intro hr d hd
    have hlast := h.last_single v c rest ht hr
    rw [hlast] at hd
    cases hd
    exact hend hr
  · intro hl
    rcases hkept hl with he | hd
    · exact Or.inl he
    · exact Or.inr (Or.inl hd)
  · intro hp
    exact absurd rfl hp
  · rintro (hp | hp) <;> cases hp
  · intro hp
    cases hp
  · intro hp
    cases hp

theorem Inv.step (v w : View) (h : v.Inv) (hs : Step v w) : w.Inv := by
  have hbusy (pt : Point) (hp : v.point = pt) (hne : pt ≠ .away) : v.todo ≠ [] := by
    apply h.busy
    rw [hp]
    exact hne
  cases hs with
  | call c => exact h.call v c
  | popEnable rest hp ht =>
    apply h.move v .enTest
    all_goals simp [ht, hp]
  | popDisable rest hp ht =>
    apply h.move v .diDisable
    all_goals simp [ht, hp]
  | already rest hp ht he hl =>
    apply h.finish v .enable rest v.enable ht
    · intro _
      exact ⟨iff_of_true hl rfl, iff_of_true he rfl⟩
    · intro _
      exact Or.inl he
  | test pt hp he hpt =>
    apply h.move v pt (hbusy .enTest hp (by decide)) (by simp [hp])
    · rcases hpt with rfl | rfl <;> decide
    · rcases hpt with rfl | rfl <;> decide
    · intro _ _
      exact he
  | opened hp =>
    apply h.move v .enExist (hbusy .enOpen hp (by decide)) (by simp [hp]) (by decide) (by decide)
    intro _ ht
    exact h.unset (Or.inl hp) ht
  | exist rest hp ht hl =>
    -- the flag is clear when nobody called since, and then a listed logger is about to be disabled
    have hk : v.enable = true ∨ .disable ∈ rest := by
      rcases h.kept hl with he | hd | hset
      · exact Or.inl he
      · rw [ht] at hd
        rcases List.mem_cons.mp hd with hd | hd
        · cases hd
        · exact Or.inr hd
      · rw [hp] at hset
        cases hset
    apply h.finish v .enable rest v.enable ht
    · rintro rfl
      have he := h.unset (Or.inr hp) ht
      rcases hk with hk | hk
      · rw [he] at hk
        cases hk
      · cases hk
    · intro _
      exact hk
  | add hp =>
    refine h.underWay v _ (hbusy .enExist hp (by decide)) rfl rfl ?_ ?_ ?_ ?_
    · intro _
      exact Or.inr (Or.inr rfl)
    · rintro (hq | hq) <;> cases hq
    · intro _
      rfl
    · intro hq
      cases hq
  | set rest hp ht =>
    apply h.finish v .enable rest true ht
    · intro _
      exact ⟨iff_of_true (h.added hp) rfl, iff_of_true rfl rfl⟩
    · intro _
      exact Or.inl rfl
  | disable hp hd =>
    refine h.underWay v _ (hbusy .diDisable hp (by decide)) rfl rfl ?_ ?_ ?_ ?_
    · intro _
      exact Or.inr (Or.inl hd)
    · rintro (hq | hq) <;> cases hq
    · intro hq
      cases hq
    · intro hq
      cases hq
  | del hp =>
    refine h.underWay v _ (hbusy .diDel hp (by decide)) rfl rfl ?_ ?_ ?_ ?_
    · intro hl
      cases hl
    · rintro (hq | hq) <;> cases hq
    · intro hq
      cases hq
    · intro _
      rfl
  | clear rest hp ht =>
    have hl := h.removed hp
    apply h.finish v .disable rest false ht
    · intro _
      simp [hl]
    · intro hl'
      rw [hl] at hl'
      cases hl'

end View

variable {L : Type} [DecidableEq L]

def view (s : State L) (p : L) : View where
  enable := (s.loggers p).isLogEnable
  listed := s.m_pLoggerList.isExist p
  todo := todo s p
  last := s.last p
  point := point s.writer p

-- A list that changed only at `q` answers the same for the others.
theorem isExist_congr (l l' : CTList L) (h : l.WF) (h' : l'.WF) (p : L)
    (hmem : some p ∈ l'.m_pArray ↔ some p ∈ l.m_pArray) : l'.isExist p = l.isExist p := by
  rw [Bool.eq_iff_iff, CTList.isExist_iff l' h', CTList.isExist_iff l h]
  exact hmem

theorem view_call (s : State L) (p q : L) (c : Code) (hc : s.callers q = .idle) (t : State L)
    (ht : t = { setLogger s q { s.loggers q with isLogEnable := c = .enable } with
      callers := Function.update s.callers q (.pushing c)
      last := Function.update s.last q (some c) }) :
    view t p = view s p ∨ View.Step (view s p) (view t p) := by
  subst ht
  by_cases hpq : p = q
  · subst hpq
    right
    convert View.Step.call (v := view s p) c using 1
    simp [view, setLogger, todo, hc, Caller.todo]
  · left
    simp [view, setLogger, todo, Function.update_of_ne hpq]

theorem view_push (s : State L) (p q : L) (c : Code) (hc : s.callers q = .pushing c) :
    view { s with
      callers := Function.update s.callers q .idle
      queue := s.queue ++ [(c, q)] } p = view s p := by
  by_cases hpq : p = q
  · subst hpq
    simp [view, todo, hc, Caller.todo]
  · have hqp : ¬q = p := fun h => hpq h.symm
    simp [view, todo, Function.update_of_ne hpq, hqp]

theorem view_pop (s : State L) (p q : L) (c : Code) (rest : List (Code × L)) (w : Writer L)
    (hw : s.writer = .pop) (hq : s.queue = (c, q) :: rest)
    (hc : c = .enable ∧ w = .enTest q ∨ c = .disable ∧ w = .diDisable q) :
    view { s with queue := rest, writer := w } p = view s p ∨
      View.Step (view s p) (view { s with queue := rest, writer := w } p) := by
  by_cases hqp : q = p
  · subst hqp
    right
    rcases hc with ⟨rfl, rfl⟩ | ⟨rfl, rfl⟩
    · convert View.Step.popEnable (v := view s q) _ _ _ using 1
      · simp [view, todo, hw, hq, point, Point.todo]
      · exact (rest.filter (fun c => c.2 = q)).map Prod.fst ++ (s.callers q).todo
      · simp [view, hw, point]
      · simp [view, todo, hw, hq, point, Point.todo]
    · convert View.Step.popDisable (v := view s q) _ _ _ using 1
      · simp [view, todo, hw, hq, point, Point.todo]
      · exact (rest.filter (fun c => c.2 = q)).map Prod.fst ++ (s.callers q).todo
      · simp [view, hw, point]
      · simp [view, todo, hw, hq, point, Point.todo]
  · left
    rcases hc with ⟨rfl, rfl⟩ | ⟨rfl, rfl⟩ <;> simp [view, todo, hw, hq, point, Point.todo, hqp]

-- what is left when the command in the writer's hands is done
def later (s : State L) (p : L) : List Code :=
  (s.queue.filter (fun c => c.2 = p)).map Prod.fst ++ (s.callers p).todo

theorem view_enTest (s t : State L) (p q : L) (hw : s.writer = .enTest q)
    (hinit : (s.loggers p).isLogSetComplete = true)
    (hk : (s.loggers q).isLogSetComplete = true → (s.loggers q).isLogEnable = true →
      s.m_pLoggerList.isExist q = true)
    (ht : t = { s with writer := t.writer })
    (htw : (s.loggers q).isLogEnable = true ∧ t.writer = .pop ∨
      (s.loggers q).isLogEnable = false ∧
        (t.writer = .enExist q ∨ t.writer = .enOpen q ∨
          (s.loggers q).isLogSetComplete = false ∧ t.writer = .pop)) :
    view t p = view s p ∨ View.Step (view s p) (view t p) := by
  by_cases hqp : q = p
  · subst hqp
    right
    rcases htw with ⟨he, hp⟩ | ⟨he, hp | hp | ⟨hno, -⟩⟩
    · rw [ht, hp]
      convert View.Step.already (v := view s q) (later s q) _ _ _ _ using 1
      · simp [view, todo, later, point, Point.todo]
      · simp [view, hw, point]
      · simp [view, todo, later, hw, point, Point.todo]
      · exact he
      · exact hk hinit he
    · rw [ht, hp]
      convert View.Step.test (v := view s q) .enExist _ _ _ using 1
      · simp [view, todo, hw, point, Point.todo]
      · simp [view, hw, point]
      · exact he
      · exact Or.inr rfl
    · rw [ht, hp]
      convert View.Step.test (v := view s q) .enOpen _ _ _ using 1
      · simp [view, todo, hw, point, Point.todo]
      · simp [view, hw, point]
      · exact he
      · exact Or.inl rfl
    · rw [hinit] at hno
      cases hno
  · left
    rw [ht]
    rcases htw with ⟨_, hp⟩ | ⟨_, hp | hp | ⟨_, hp⟩⟩ <;>
      simp [view, todo, hw, hp, point, Point.todo, hqp]

-- the writer changes the flags of `q` and goes on
theorem view_setLogger (s : State L) (p q : L) (l : CLogger) (w : Writer L)
    (hv : p = q → View.Step (view s p) (view { setLogger s q l with writer := w } p))
    (hs : p ≠ q → point s.writer p = .away) (hw : p ≠ q → point w p = .away) :
    view { setLogger s q l with writer := w } p = view s p ∨
      View.Step (view s p) (view { setLogger s q l with writer := w } p) := by
  by_cases hpq : p = q
  · exact Or.inr (hv hpq)
  · left
    simp [view, todo, setLogger, Function.update_of_ne hpq, hs hpq, hw hpq]

-- the writer changes the list at `q` and goes on
theorem view_setList (s : State L) (p q : L) (l : CTList L) (w : Writer L) (h : s.m_pLoggerList.WF)
    (hl : l.WF) (hmem : p ≠ q → (some p ∈ l.m_pArray ↔ some p ∈ s.m_pLoggerList.m_pArray))
    (hv : p = q → View.Step (view s p) (view { s with m_pLoggerList := l, writer := w } p))
    (hs : p ≠ q → point s.writer p = .away) (hw : p ≠ q → point w p = .away) :
    view { s with m_pLoggerList := l, writer := w } p = view s p ∨
      View.Step (view s p) (view { s with m_pLoggerList := l, writer := w } p) := by
  by_cases hpq : p = q
  · exact Or.inr (hv hpq)
  · left
    have hsame := isExist_congr s.m_pLoggerList l h hl p (hmem hpq)
    simp [view, todo, hsame, hs hpq, hw hpq]

theorem setLogger_setComplete (s : State L) (p q : L) (l : CLogger)
    (hl : l.isLogSetComplete = (s.loggers q).isLogSetComplete) :
    ((setLogger s q l).loggers p).isLogSetComplete = (s.loggers p).isLogSetComplete := by
  by_cases hpq : p = q
  · subst hpq
    simp [setLogger, hl]
  · simp [setLogger, Function.update_of_ne hpq]

-- The test only moves the writer on, to a place that the flags of the logger tell.
theorem write_enTest (s t : State L) (q : L) (fopen calloc : Bool) (hw : s.writer = .enTest q)
    (hs : write s fopen calloc = some t) : t = { s with writer := t.writer } ∧
      ((s.loggers q).isLogEnable = true ∧ t.writer = .pop ∨
      (s.loggers q).isLogEnable = false ∧
        (t.writer = .enExist q ∨ t.writer = .enOpen q ∨
          (s.loggers q).isLogSetComplete = false ∧ t.writer = .pop)) := by
  simp only [write, hw] at hs
  split_ifs at hs with h1 h2 h3
  · cases hs
    exact ⟨rfl, Or.inl ⟨h1, rfl⟩⟩
  · cases hs
    exact ⟨rfl, Or.inr ⟨Bool.eq_false_of_not_eq_true h1, Or.inl rfl⟩⟩
  · cases hs
    exact ⟨rfl, Or.inr ⟨Bool.eq_false_of_not_eq_true h1, Or.inr (Or.inl rfl)⟩⟩
  · cases hs
    exact ⟨rfl, Or.inr ⟨Bool.eq_false_of_not_eq_true h1,
      Or.inr (Or.inr ⟨Bool.eq_false_of_not_eq_true h3, rfl⟩)⟩⟩

-- The list takes in a logger that it does not have.
theorem write_enExist (s t : State L) (p q : L) (fopen calloc : Bool) (h : s.m_pLoggerList.WF)
    (hw : s.writer = .enExist q) (hk : KeptAt s calloc (.enExist q))
    (hs : write s fopen calloc = some t) :
    t.m_pLoggerList.WF ∧ t.loggers = s.loggers ∧
      (view t p = view s p ∨ View.Step (view s p) (view t p)) := by
  simp only [write, hw] at hs
  dsimp only [KeptAt] at hk
  by_cases hex : s.m_pLoggerList.isExist q = true
  · rw [if_pos hex] at hs
    cases hs
    refine ⟨h, rfl, ?_⟩
    by_cases hqp : q = p
    · subst hqp
      right
      convert View.Step.exist (v := view s q) (later s q) _ _ _ using 1
      · simp [view, todo, later, point, Point.todo]
      · simp [view, hw, point]
      · simp [view, todo, later, hw, point, Point.todo]
      · exact hex
    · left
      simp [view, todo, hw, point, Point.todo, hqp]
  · have hnot : some q ∉ s.m_pLoggerList.m_pArray := by
      rw [← CTList.isExist_iff s.m_pLoggerList h]
      exact hex
    obtain ⟨hok, hlast⟩ := hk (Bool.eq_false_of_not_eq_true hex)
    obtain ⟨l, i, hpush, hl, hmem⟩ :=
      CTList.pushBack_spec s.m_pLoggerList h q calloc hnot hok hlast
    rw [if_neg hex, hpush] at hs
    cases hs
    refine ⟨hl, rfl, ?_⟩
    apply view_setList s p q l _ h hl
    · intro hpq
      simp [hmem, hpq]
    · rintro rfl
      have hlisted : l.isExist p = true := by
        rw [CTList.isExist_iff l hl, hmem]
        exact Or.inl rfl
      convert View.Step.add (v := view s p) _ using 1
      · simp [view, todo, hw, point, Point.todo, hlisted]
      · simp [view, hw, point]
    · intro hpq
      simp [hw, point, Ne.symm hpq]
    · intro hpq
      simp [point, Ne.symm hpq]

-- The list loses the logger.
theorem write_diDel (s t : State L) (p q : L) (fopen calloc : Bool) (h : s.m_pLoggerList.WF)
    (hw : s.writer = .diDel q) (hs : write s fopen calloc = some t) :
    t.m_pLoggerList.WF ∧ t.loggers = s.loggers ∧
      (view t p = view s p ∨ View.Step (view s p) (view t p)) := by
  simp only [write, hw, Option.some.injEq] at hs
  subst hs
  obtain ⟨hl, hmem⟩ := CTList.del_spec s.m_pLoggerList h q
  refine ⟨hl, rfl, ?_⟩
  apply view_setList s p q _ _ h hl
  · intro hpq
    simp [hmem, hpq]
  · rintro rfl
    have hlisted : (s.m_pLoggerList.del p).1.isExist p = false := by
      apply Bool.eq_false_of_not_eq_true
      rw [CTList.isExist_iff _ hl, hmem]
      simp
    convert View.Step.del (v := view s p) _ using 1
    · simp [view, todo, hw, point, Point.todo, hlisted]
    · simp [view, hw, point]
  · intro hpq
    simp [hw, point, Ne.symm hpq]
  · intro hpq
    simp [point, Ne.symm hpq]

-- The writer changes the flags of one logger and goes on.
theorem write_setLogger (s : State L) (p q : L) (l : CLogger) (w : Writer L) (h : s.m_pLoggerList.WF)
    (hinit : (s.loggers p).isLogSetComplete = true)
    (hl : l.isLogSetComplete = (s.loggers q).isLogSetComplete)
    (hv : p = q → View.Step (view s p) (view { setLogger s q l with writer := w } p))
    (hs : p ≠ q → point s.writer p = .away) (hw : p ≠ q → point w p = .away) :
    s.m_pLoggerList.WF ∧ ((setLogger s q l).loggers p).isLogSetComplete = true ∧
      (view { setLogger s q l with writer := w } p = view s p ∨
        View.Step (view s p) (view { setLogger s q l with writer := w } p)) :=
  ⟨h, (setLogger_setComplete s p q l hl).trans hinit, view_setLogger s p q l w hv hs hw⟩

section Own

-- What the writer does to a logger, as the logger sees it.
variable (s : State L) (p : L)

theorem view_opened (fopen : Bool) (hw : s.writer = .enOpen p) : View.Step (view s p)
    (view { setLogger s p ((s.loggers p).openLogger fopen) with writer := .enExist p } p) := by
  have he : ((s.loggers p).openLogger fopen).isLogEnable = (s.loggers p).isLogEnable := by
    unfold CLogger.openLogger
    split <;> rfl
  convert View.Step.opened (v := view s p) _ using 1
  · simp [view, setLogger, todo, hw, point, Point.todo, he]
  · simp [view, hw, point]

theorem view_set (hw : s.writer = .enSet p) : View.Step (view s p)
    (view { setLogger s p { s.loggers p with isLogEnable := true } with writer := .pop } p) := by
  convert View.Step.set (v := view s p) (later s p) _ _ using 1
  · simp [view, setLogger, todo, later, point, Point.todo]
  · simp [view, hw, point]
  · simp [view, todo, later, hw, point, Point.todo]

theorem view_disable (hw : s.writer = .diDisable p) : View.Step (view s p)
    (view { setLogger s p (s.loggers p).disable with writer := .diDel p } p) := by
  convert View.Step.disable (v := view s p) _ _ using 1
  · simp [view, setLogger, todo, hw, point, Point.todo, CLogger.disable]
  · simp [view, hw, point]
  · simp [view, todo, hw, point, Point.todo]

theorem view_clear (hw : s.writer = .diClear p) : View.Step (view s p)
    (view { setLogger s p { s.loggers p with isLogEnable := false } with writer := .pop } p) := by
  convert View.Step.clear (v := view s p) (later s p) _ _ using 1
  · simp [view, setLogger, todo, later, point, Point.todo]
  · simp [view, hw, point]
  · simp [view, todo, later, hw, point, Point.todo]

end Own

theorem write_spec (s t : State L) (fopen calloc : Bool) (p : L) (h : s.m_pLoggerList.WF)
    (hinit : (s.loggers p).isLogSetComplete = true) (hk : Kept s (.write fopen calloc))
    (hs : write s fopen calloc = some t) :
    t.m_pLoggerList.WF ∧ (t.loggers p).isLogSetComplete = true ∧
      (view t p = view s p ∨ View.Step (view s p) (view t p)) := by
  unfold write at hs
  unfold Kept at hk
  cases hw : s.writer with
  | pop =>
    rw [hw] at hs
    dsimp only at hs
    split at hs
    · cases hs
      exact ⟨h, hinit, Or.inl rfl⟩
    · rename_i q rest hq
      cases hs
      exact ⟨h, hinit, view_pop s p q .enable rest _ hw hq (Or.inl ⟨rfl, rfl⟩)⟩
    · rename_i q rest hq
      cases hs
      exact ⟨h, hinit, view_pop s p q .disable rest _ hw hq (Or.inr ⟨rfl, rfl⟩)⟩
  | enTest q =>
    rw [hw] at hk
    have ht := write_enTest s t q fopen calloc hw hs
    have hv := view_enTest s t p q hw hinit hk ht.1 ht.2
    refine ⟨?_, ?_, hv⟩
    · rw [ht.1]
      exact h
    · rw [ht.1]
      exact hinit
  | enOpen q =>
    rw [hw] at hs
    cases hs
    apply write_setLogger s p q _ _ h hinit
    · unfold CLogger.openLogger
      split <;> rfl
    · rintro rfl
      exact view_opened s p fopen hw
    · intro hpq
      simp [hw, point, Ne.symm hpq]
    · intro hpq
      simp [point, Ne.symm hpq]
  | enExist q =>
    rw [hw] at hk
    obtain ⟨hl, hloggers, hv⟩ := write_enExist s t p q fopen calloc h hw hk hs
    rw [hloggers]
    exact ⟨hl, hinit, hv⟩
  | enSet q =>
    rw [hw] at hs
    cases hs
    apply write_setLogger s p q _ _ h hinit
    · rfl
    · rintro rfl
      exact view_set s p hw
    · intro hpq
      simp [hw, point, Ne.symm hpq]
    · intro hpq
      rfl
  | diDisable q =>
    rw [hw] at hs
    cases hs
    apply write_setLogger s p q _ _ h hinit
    · rfl
    · rintro rfl
      exact view_disable s p hw
    · intro hpq
      simp [hw, point, Ne.symm hpq]
    · intro hpq
      simp [point, Ne.symm hpq]
  | diDel q =>
    obtain ⟨hl, hloggers, hv⟩ := write_diDel s t p q fopen calloc h hw hs
    rw [hloggers]
    exact ⟨hl, hinit, hv⟩
  | diClear q =>
    rw [hw] at hs
    cases hs
    apply write_setLogger s p q _ _ h hinit
    · rfl
    · rintro rfl
      exact view_clear s p hw
    · intro hpq
      simp [hw, point, Ne.symm hpq]
    · intro hpq
      rfl
  | fault =>
    rw [hw] at hs
    cases hs

/-- What holds of an initialised logger in every run that keeps its commands. -/
structure Good (s : State L) (p : L) : Prop where
  list : s.m_pLoggerList.WF
  setComplete : (s.loggers p).isLogSetComplete = true
  view : (view s p).Inv

theorem good_step (s t : State L) (a : Act L) (p : L) (h : Good s p) (hk : Kept s a)
    (hs : step s a = some t) : Good t p := by
  have hview : t.m_pLoggerList.WF ∧ (t.loggers p).isLogSetComplete = true ∧
      (LoggerCommands.view t p = LoggerCommands.view s p ∨
        View.Step (LoggerCommands.view s p) (LoggerCommands.view t p)) := by
    cases a with
    | call q c =>
      cases hc : s.callers q with
      | idle =>
        simp only [step, hc, Option.some.injEq] at hs
        refine ⟨?_, ?_, view_call s p q c hc t hs.symm⟩
        · rw [← hs]
          exact h.list
        · rw [← hs]
          have hset := setLogger_setComplete s p q
            { s.loggers q with isLogEnable := decide (c = .enable) } rfl
          exact hset.trans h.setComplete
      | pushing d => simp [step, hc] at hs
    | push q newBuf =>
      cases hc : s.callers q with
      | idle => simp [step, hc] at hs
      | pushing c =>
        have hbuf : newBuf = true := hk
        subst hbuf
        simp only [step, hc, Option.some.injEq, if_true] at hs
        subst hs
        exact ⟨h.list, h.setComplete, Or.inl (view_push s p q c hc)⟩
    | write fopen calloc => exact write_spec s t fopen calloc p h.list h.setComplete hk hs
  obtain ⟨hl, hinit, hv⟩ := hview
  refine ⟨hl, hinit, ?_⟩
  rcases hv with hv | hv
  · rw [hv]
    exact h.view
  · exact h.view.step _ _ hv

theorem good_rest (s : State L) (p : L) (h : Rest s)
    (hinit : (s.loggers p).isLogSetComplete = true) : Good s p := by
  have htodo : todo s p = [] := by
    simp [todo, h.writer, h.queue, h.callers p, point, Point.todo, Caller.todo]
  refine ⟨h.list, hinit, ?_⟩
  constructor
  · intro c hc
    simp [view, htodo] at hc
  · intro _ c hc
    simp [view, h.last p] at hc
  · intro hl
    exact Or.inl (h.enabled p hl)
  all_goals
    simp [view, h.writer, point]

/-- In every interleaving of calls and writer in which no step drops a command, a logger whose
commands have all been carried out is where the last call wanted it. -/
theorem converged_of_kept (s t : State L) (h : Rest s) (acts : List (Act L))
    (hg : Runs.Along step Kept s acts) (hr : Runs.runFrom step s acts = some t) (p : L)
    (hinit : (s.loggers p).isLogSetComplete = true) (hdone : todo t p = []) : Converged t p := by
  have hgood : Good t p := by
    apply Runs.runFrom_guarded_invariant step Kept (fun u => Good u p)
      (fun u a v hu ha hv => good_step u v a p hu ha hv) s t acts (good_rest s p h hinit) hg hr
  exact hgood.view.settled hdone

-- a writer with one initialised logger, which is in its list and enabled or not
def oneLogger (listed : Bool) : State Unit where
  loggers := fun _ => ⟨listed, listed, true, listed⟩
  callers := fun _ => .idle
  last := fun _ => none
  queue := []
  m_pLoggerList := if listed then ⟨[some (), none], 1, 1, 0, 2⟩ else ⟨[none, none], 0, 0, 0, 2⟩
  writer := .pop

theorem rest_oneLogger (listed : Bool) : Rest (oneLogger listed) := by
  constructor
  · intro _
    rfl
  · intro _
    rfl
  · rfl
  · rfl
  · cases listed with
    | true =>
      constructor
      · rfl
      · rfl
      · intro i j p hi hj
        have hzero (k : ℕ) (hk : (oneLogger true).m_pLoggerList.slot k = some p) : k = 0 := by
          match k with
          | 0 => rfl
          | 1 => cases hk
          | k+2 => cases hk
        rw [hzero i hi, hzero j hj]
    | false =>
      constructor
      · rfl
      · rfl
      · intro i j p hi
        match i with
        | 0 => cases hi
        | 1 => cases hi
        | i+2 => cases hi
  · intro p hp
    cases listed with
    | true => rfl
    | false => cases hp

-- disabled and enabled again before the writer has looked
theorem converged_disable_enable : ∃ t, Runs.runFrom step (oneLogger true)
    ([.call () .disable, .push () true, .call () .enable, .push () true] ++
      List.replicate 10 (.write true true)) = some t ∧
    t.last () = some .enable ∧ todo t () = [] ∧ Converged t () := by
  refine ⟨_, rfl, rfl, rfl, ?_⟩
  exact converged_of_kept (oneLogger true) _ (rest_oneLogger true)
    ([.call () .disable, .push () true, .call () .enable, .push () true] ++
      List.replicate 10 (.write true true)) (by decide) rfl () rfl rfl

/-- A disabled logger that is enabled: the writer finds the flag that the caller has set, and does
not add the logger to its list. -/
theorem not_converged_enable : ¬∀ (s t : State Unit) (acts : List (Act Unit)), Rest s →
    Runs.runFrom step s acts = some t → (s.loggers ()).isLogSetComplete = true → todo t () = [] →
    Converged t () := by
  intro h
  have hc := h (oneLogger false) _ [.call () .enable, .push () true, .write true true,
    .write true true] (rest_oneLogger false) rfl rfl rfl .enable rfl
  exact absurd (hc.1.mpr rfl) (by decide)

end Leviathan.LoggerCommands
