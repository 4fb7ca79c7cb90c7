import Leviathan.MemListCalls
import Leviathan.Communicator

/-! The connect list and the accepted session (`CNWCommunicator::comproc_accept`): what the index that
`CMemList::add` answers means for the client. -/
namespace Leviathan.ConnectList

open CMemList Communicator

variable {Obj : Type} (m_pConnectList : CMemList Obj) (pClient : Obj) (s : Session) (queued : Bool)

/-- `comproc_accept` after `doAccept` and `bindRecv` have succeeded; `queued` is what `putRTSQueue`
would answer. -/
def comproc_accept : Except Fault (CMemList Obj × Session) := do
  let (list, nAddIdx) ← m_pConnectList.add pClient
  return (list, s.comproc_accept true true nAddIdx queued)

/-- With a free slot the client gets into the list and stays connected, without one neither. -/
def Agree : Prop := ∃ list client, comproc_accept m_pConnectList pClient s queued = .ok (list, client) ∧
  ((∃ i, Free m_pConnectList i) → Listed list pClient ∧ client.m_sockStatus .connected = true) ∧
  ((¬∃ i, Free m_pConnectList i) → ¬Listed list pClient ∧ client.m_sockStatus .connected = false)

/-- Some slot is free but not slot 0, and `add` gets to a free one. -/
structure FindsSlot : Prop where
  first : 0 < m_pConnectList.m_nMaxCount ∧ m_pConnectList.m_nFlagArray 0 ≠ 0
  free : ∃ i, Free m_pConnectList i
  found : 0 < m_pConnectList.m_nEmptyFirstIdx ∨
    (0 ≤ m_pConnectList.m_nCurCount ∧ m_pConnectList.m_nCurCount < m_pConnectList.m_nMaxCount) ∨
    (m_pConnectList.m_nMaxCount ≤ m_pConnectList.m_nCurCount ∧ Listed m_pConnectList pClient)

section Agreement

variable (l : CMemList Obj)

-- Only index 0 shuts the session down.
theorem connected_iff (hs : s.m_socket = true) (nAddIdx : ℤ) :
    (s.comproc_accept true true nAddIdx queued).m_sockStatus .connected = true ↔ nAddIdx ≠ 0 := by
  by_cases hzero : nAddIdx = 0
  · simp [Session.comproc_accept, Session.setSocketStatus, Session.socketShutdown,
      Session.delSocketStatus, Session.putRTSQueue, Session.closeSocket, hs, hzero]
    split_ifs <;> simp
  · simp [Session.comproc_accept, Session.setSocketStatus, hs, hzero]
    split_ifs <;> simp

theorem comproc_accept_eq (r : CMemList Obj × ℤ) (hadd : l.add pClient = .ok r) :
    comproc_accept l pClient s queued = .ok (r.1, s.comproc_accept true true r.2 queued) := by
  rw [comproc_accept, hadd, ok_bind]
  rfl

theorem listed_stored (i : ℤ) (hi : 0 ≤ i ∧ i < l.m_nMaxCount) : Listed (l.stored pClient i) pClient :=
  ⟨i, hi, Function.update_self _ _ _, Function.update_self _ _ _⟩

-- Nothing but an index other than 0 keeps the client connected, so that a full list never fits.
theorem agree_of_added (i : ℤ) (l' : CMemList Obj) (hs : s.m_socket = true)
    (hadd : l.add pClient = .ok (l', i)) (hi : i ≠ 0) (hfree : ∃ c, Free l c)
    (hlisted : Listed l' pClient) : Agree l pClient s queued :=
  ⟨l', _, comproc_accept_eq pClient s queued l _ hadd,
    fun _ => ⟨hlisted, (connected_iff s queued hs i).mpr hi⟩, fun hno => absurd hfree hno⟩

theorem added_of_agree (hs : s.m_socket = true) (h : Agree l pClient s queued) :
    ∃ l' i, l.add pClient = .ok (l', i) ∧
      (i ≠ 0 → (∃ c, Free l c) ∧ Listed l' pClient) ∧ (i = 0 → ¬∃ c, Free l c) := by
  obtain ⟨list, client, hok, hroom, hfull⟩ := h
  obtain ⟨⟨l', i⟩, hadd, hret⟩ := (bind_eq_ok _ _ _).mp hok
  obtain ⟨rfl, rfl⟩ := Prod.mk.inj (Except.ok.inj hret)
  refine ⟨l', i, hadd, ?_, ?_⟩
  · intro hi
    have hconn := (connected_iff s queued hs i).mpr hi
    by_cases hfree : ∃ c, Free l c
    · exact ⟨hfree, (hroom hfree).1⟩
    · rw [(hfull hfree).2] at hconn
      cases hconn
  · intro hi hfree
    exact (connected_iff s queued hs i).mp (hroom hfree).2 hi

theorem agree_iff_scan (hint : HintOk l) (hs : s.m_socket = true) (hneg : l.m_nEmptyFirstIdx < 0) :
    Agree l pClient s queued ↔ FindsSlot l pClient := by
  have hfirst : l.m_nFlagArray 0 ≠ 0 := hint.first hneg.ne
  have hscan := add_scan l pClient hneg
  constructor
  · intro h
    obtain ⟨l', i, hadd, hne, -⟩ := added_of_agree pClient s queued l hs h
    rw [hscan] at hadd
    have hcount : 0 ≤ l.m_nCurCount := by
      by_contra hlt
      rw [addLoop_negative l pClient (by omega) _ _ (not_le.mp hlt)] at hadd
      cases hadd
    by_cases hempty : l.m_nMaxCount = 0
    · have hr := (addSuccess_ok l pClient _ _ (by rw [hempty] at hadd; exact hadd)).1
      omega
    · have hi0 := addLoop_ne_zero l pClient hfirst _ _ hcount (Or.inl (by omega)) _ hadd
      obtain ⟨hfree, hlisted⟩ := hne hi0
      refine ⟨⟨by omega, hfirst⟩, hfree, Or.inr ?_⟩
      rcases lt_or_ge l.m_nCurCount l.m_nMaxCount with hlt | hge
      · exact Or.inl ⟨hcount, hlt⟩
      · obtain ⟨n, hn⟩ : ∃ n, l.m_nMaxCount = n+1 := ⟨l.m_nMaxCount-1, by omega⟩
        rw [hn, addLoop, if_pos hge] at hadd
        obtain ⟨rfl, -⟩ := Prod.mk.inj (Except.ok.inj hadd)
        exact Or.inr ⟨hge, hlisted⟩
  · rintro ⟨⟨hpos, -⟩, hfree, hfound | ⟨hcount, hroom⟩ | ⟨hfull, hlisted⟩⟩
    · omega
    · obtain ⟨j, hj, hadd⟩ := addLoop_finds l pClient l.m_nCurCount.toNat (by omega) hroom hfree
      rw [Int.toNat_of_nonneg hcount, ← hscan] at hadd
      refine agree_of_added pClient s queued l j _ hs hadd ?_ hfree (listed_stored pClient l j hj.1)
      intro hzero
      rw [hzero] at hj
      exact hfirst hj.2
    · obtain ⟨n, hn⟩ : ∃ n, l.m_nMaxCount = n+1 := ⟨l.m_nMaxCount-1, by omega⟩
      have hadd : l.add pClient = .ok (l, -1) := by
        rw [hscan, hn, addLoop, if_pos hfull]
      exact agree_of_added pClient s queued l (-1) l hs hadd (by decide) hfree hlisted

variable [DecidableEq Obj]

/-- Session and connect list agree exactly when slot 0 is taken, another slot is free and `add` gets to
a free one; never when the list is full. -/
theorem agree_iff (h : Reached l) (hs : s.m_socket = true) :
    Agree l pClient s queued ↔ FindsSlot l pClient := by
  have hint := hintOk_reached l h
  rcases lt_trichotomy l.m_nEmptyFirstIdx 0 with hneg | hzero | hpos
  · exact agree_iff_scan pClient s queued l hint hs hneg
  · constructor
    · intro hagree
      obtain ⟨l', i, hadd, -, hfull⟩ := added_of_agree pClient s queued l hs hagree
      obtain ⟨hlt, heq⟩ := add_hint l hint pClient _ hzero.ge hadd
      have hi : i = 0 := (Prod.mk.inj heq).2.trans hzero
      have hfree := hint.free hzero.ge hlt
      rw [hzero] at hlt hfree
      exact absurd ⟨0, ⟨le_rfl, hlt⟩, hfree⟩ (hfull hi)
    · rintro ⟨⟨hmax, hflag⟩, -, -⟩
      have hfree := hint.free hzero.ge (by rw [hzero]; exact_mod_cast hmax)
      rw [hzero] at hfree
      exact absurd hfree hflag
  · have hlt : l.m_nEmptyFirstIdx < l.m_nMaxCount := by
      have hrange := hint.range
      omega
    have hfree : ∃ c, Free l c := ⟨_, ⟨hpos.le, hlt⟩, hint.free hpos.le hlt⟩
    have hadd : l.add pClient = .ok (({ l with m_nEmptyFirstIdx := -1 } : CMemList Obj).stored pClient
        l.m_nEmptyFirstIdx, l.m_nEmptyFirstIdx) := by
      rw [add, if_pos hpos.le, flagAt_eq l _ ⟨hpos.le, hlt⟩, ok_bind, if_pos (hint.free hpos.le hlt)]
      exact addSuccess_eq _ _ _ ⟨hpos.le, hlt⟩
    have hagree : Agree l pClient s queued :=
      agree_of_added pClient s queued l _ _ hs hadd hpos.ne' hfree
        (listed_stored pClient _ _ ⟨hpos.le, hlt⟩)
    refine ⟨fun _ => ⟨⟨by omega, hint.first hpos.ne'⟩, hfree, Or.inl hpos⟩, fun _ => hagree⟩

/-- A list of two slots after `alloc` and `clear`. -/
def twoSlots : CMemList ℕ := clear ⟨fun _ => none, fun _ => 0, 0, 0, 2⟩

/-- The same list with object 5 in slot 0. -/
def oneTaken : CMemList ℕ := ({ twoSlots with m_nEmptyFirstIdx := -1 } : CMemList ℕ).stored 5 0

theorem agree_oneTaken : Reached oneTaken ∧ Session.prepared.m_socket = true ∧
    Agree oneTaken 7 .prepared true := by
  have hreached : Reached oneTaken := ⟨⟨fun _ => none, fun _ => 0, 0, 0, 2⟩, [.add 5], rfl⟩
  refine ⟨hreached, rfl, (agree_iff 7 .prepared true oneTaken hreached rfl).mpr ⟨by decide, ?_, ?_⟩⟩
  · exact ⟨1, by decide, by decide⟩
  · exact Or.inr (Or.inl (by decide))

-- The first session of all gets slot 0 and is shut down.
theorem not_agree_twoSlots : Reached twoSlots ∧ Session.prepared.m_socket = true ∧
    ¬Agree twoSlots 7 .prepared true := by
  refine ⟨⟨_, [], rfl⟩, rfl, fun h => ?_⟩
  obtain ⟨l', i, hadd, -, hfull⟩ := added_of_agree 7 .prepared true twoSlots rfl h
  have hzero : twoSlots.add 7 =
      .ok (({ twoSlots with m_nEmptyFirstIdx := -1 } : CMemList ℕ).stored 7 0, 0) := rfl
  have hi := (Prod.mk.inj (Except.ok.inj (hadd.symm.trans hzero))).2
  exact hfull hi ⟨1, by decide, by decide⟩

end Agreement

end Leviathan.ConnectList
