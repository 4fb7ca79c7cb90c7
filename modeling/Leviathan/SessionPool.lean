import Leviathan.MemPool
import Leviathan.Runs

/-! `CSessionManager` (NWSessionManager.cpp): the pool of sessions, the pool of SOCKETDATA that
sessions and sends share, and the receive descriptor of each session.  A SOCKETDATA is named by its
distance from the chunk of its pool, in elements. -/
namespace Leviathan

def NR_RECV_SOCKETDATA : ℤ := 1

structure CSessionManager where
  m_pSockMemMgr : CMemPool
  m_pDataMemMgr : CMemPool
  -- `m_lpRecvData` of each session
  m_lpRecvData : List ℤ

namespace CSessionManager

/-- `createMemoryPool(nMaxCnt, nSDataCnt)`; the second parameter is not used.  Setting up a session
writes to its descriptor, which is outside the chunk when the product is too small. -/
def createMemoryPool (nMaxCnt : ℕ) (_nSDataCnt g_nSendDataCount : ℤ) : Except Fault CSessionManager :=
  let nMax := i32 (nMaxCnt*(g_nSendDataCount+NR_RECV_SOCKETDATA))
  if nMax < nMaxCnt then .error .outOfBounds
  else .ok
    { m_pSockMemMgr := CMemPool.alloc nMaxCnt
      m_pDataMemMgr := CMemPool.alloc nMax.toNat
      m_lpRecvData := (List.range nMaxCnt).map (fun i : ℕ => (i:ℤ)) }

/-- `newSockData()`; `heap` is the place of the descriptor if it comes from `calloc`. -/
def newSockData (g : CSessionManager) (heap : ℤ) : CSessionManager × ℤ :=
  let r := g.m_pDataMemMgr.newMem
  ({ g with m_pDataMemMgr := r.1 },
    match r.2 with
    | some i => i
    | none => heap)

def returnSockData (g : CSessionManager) (pMem : ℤ) : CSessionManager :=
  { g with m_pDataMemMgr := (g.m_pDataMemMgr.delMem pMem).1 }

inductive Op
  | newSockData (heap : ℤ)
  | returnSockData (pMem : ℤ)

/-- The manager, the descriptors that are out and all that were ever given out. -/
structure State where
  mgr : CSessionManager
  held : List ℤ
  given : List ℤ

def start (g : CSessionManager) : State := ⟨g, [], []⟩

-- a descriptor is returned only by its holder
def step (s : State) : Op → Option State
  | .newSockData heap =>
    let r := s.mgr.newSockData heap
    some ⟨r.1, r.2 :: s.held, r.2 :: s.given⟩
  | .returnSockData p =>
    if p ∈ s.held then some { s with mgr := s.mgr.returnSockData p, held := s.held.erase p } else none

/-- No descriptor that was given out is the receive descriptor of a session. -/
def Reserved (s : State) : Prop := ∀ p ∈ s.given, p ∉ s.mgr.m_lpRecvData

def isNew : Op → Bool
  | .newSockData _ => true
  | .returnSockData _ => false

theorem recvData_step (s s' : State) (op : Op) (hs : step s op = some s') :
    s'.mgr.m_lpRecvData = s.mgr.m_lpRecvData ∧ s.given ⊆ s'.given := by
  cases op with
  | newSockData heap =>
    cases hs
    exact ⟨rfl, List.subset_cons_self _ _⟩
  | returnSockData p =>
    obtain ⟨_, hs⟩ := Option.ite_none_right_eq_some.mp hs
    cases hs
    exact ⟨rfl, List.Subset.refl _⟩

-- The receive descriptors never change, and what was given out stays on the record.
theorem recvData_run (s s' : State) (ops : List Op) (hr : Runs.runFrom step s ops = some s') :
    s'.mgr.m_lpRecvData = s.mgr.m_lpRecvData ∧ s.given ⊆ s'.given := by
  refine Runs.runFrom_invariant step
    (fun t => t.mgr.m_lpRecvData = s.mgr.m_lpRecvData ∧ s.given ⊆ t.given) ?_ s s' ops
    ⟨rfl, List.Subset.refl _⟩ hr
  intro t op t' ht hst
  obtain ⟨h1, h2⟩ := recvData_step t t' op hst
  exact ⟨h1.trans ht.1, List.Subset.trans ht.2 h2⟩

theorem createMemoryPool_ok (nMaxCnt : ℕ) (nSDataCnt nSend : ℤ) (g : CSessionManager)
    (hn : 1 ≤ nMaxCnt) (h : createMemoryPool nMaxCnt nSDataCnt nSend = .ok g) :
    ∃ nMax, 1 ≤ nMax ∧ g.m_pDataMemMgr = CMemPool.alloc nMax ∧ (0:ℤ) ∈ g.m_lpRecvData := by
  unfold createMemoryPool at h
  dsimp only at h
  split at h
  · cases h
  · rename_i hge
    cases h
    refine ⟨_, ?_, rfl, ?_⟩
    · omega
    · exact List.mem_map.mpr ⟨0, List.mem_range.mpr hn, rfl⟩

-- The first descriptor a sender gets is the one of session 0.
theorem newSockData_first (g : CSessionManager) (nMax : ℕ) (hmax : 1 ≤ nMax)
    (hg : g.m_pDataMemMgr = CMemPool.alloc nMax) (heap : ℤ) : (g.newSockData heap).2 = 0 := by
  rw [newSockData, hg, CMemPool.newMem_alloc nMax hmax]
  rfl

/-- The receive descriptors are reserved exactly as long as nobody asks for a descriptor. -/
theorem reserved_iff_no_newSockData (nMaxCnt : ℕ) (nSDataCnt nSend : ℤ) (g : CSessionManager)
    (hn : 1 ≤ nMaxCnt) (hg : createMemoryPool nMaxCnt nSDataCnt nSend = .ok g) (ops : List Op)
    (s : State) (hr : Runs.runFrom step (start g) ops = some s) :
    Reserved s ↔ ∀ op ∈ ops, isNew op = false := by
  obtain ⟨nMax, hmax, hpool, hrecv⟩ := createMemoryPool_ok nMaxCnt nSDataCnt nSend g hn hg
  cases ops with
  | nil =>
    cases hr
    exact iff_of_true (fun p hp => absurd hp List.not_mem_nil) (fun op hop => absurd hop List.not_mem_nil)
  | cons op ops =>
    obtain ⟨s1, h1, hr⟩ := (Runs.runFrom_cons_iff step _ s op ops).mp hr
    cases op with
    | newSockData heap =>
      cases h1
      obtain ⟨hdata, hgiven⟩ := recvData_run _ s ops hr
      have h0 : (0:ℤ) ∈ s.given := by
        apply hgiven
        show (0:ℤ) ∈ [(g.newSockData heap).2]
        rw [newSockData_first g nMax hmax hpool heap]
        exact List.mem_cons_self
      refine iff_of_false ?_ (fun hall => by cases hall _ List.mem_cons_self)
      intro hres
      apply hres 0 h0
      rw [hdata]
      exact hrecv
    | returnSockData p =>
      -- nothing is out yet
      have hnone : step (start g) (.returnSockData p) = none := by simp [step, start]
      rw [hnone] at h1
      cases h1

-- two sessions and one send descriptor for each
theorem reserved_iff_two_sessions : ∃ g s, createMemoryPool 2 1 1 = .ok g ∧
    Runs.runFrom step (start g) [.newSockData 9] = some s ∧ (Reserved s ↔ False) := by
  have hok : ∃ g, createMemoryPool 2 1 1 = .ok g := ⟨_, rfl⟩
  obtain ⟨g, hg⟩ := hok
  refine ⟨g, _, hg, rfl, ?_⟩
  rw [reserved_iff_no_newSockData 2 1 1 g (by decide) hg [.newSockData 9] _ rfl]
  simp [isNew]

/-- The first send gets the receive descriptor of session 0. -/
theorem not_reserved_first_send : ¬∀ (g : CSessionManager) (ops : List Op) (s : State),
    createMemoryPool 2 1 1 = .ok g → Runs.runFrom step (start g) ops = some s → Reserved s := by
  intro h
  have hok : ∃ g, createMemoryPool 2 1 1 = .ok g := ⟨_, rfl⟩
  obtain ⟨g, hg⟩ := hok
  obtain ⟨nMax, hmax, hpool, hrecv⟩ := createMemoryPool_ok 2 1 1 g (by decide) hg
  apply h g [.newSockData 9] _ hg rfl 0
  · show (0:ℤ) ∈ [(g.newSockData 9).2]
    rw [newSockData_first g nMax hmax hpool 9]
    exact List.mem_cons_self
  · exact hrecv

end CSessionManager

end Leviathan
