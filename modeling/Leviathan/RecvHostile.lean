import Leviathan.RecvLength

/-! The packet loop of `recvProc_length` (comSocket.cpp) on bytes that an attacker chooses.  Memory is
readable everywhere here, so that the loop goes on where it reads what it should not. -/
namespace Leviathan.Recv

open Wire

section Model

/-- The header that stands at an offset. -/
def headerAt (mem : ℕ → UInt8) (p : ℕ) : ℕ :=
  ofBytesLE ((List.range PACKET_HEADER_SIZE).map (fun i => mem (p+i)))

/-- The variables of the loop: `nProcCompleteLen`, the offset of `pPacket` in `pData`, and
`pHeader->nDataSize`. -/
structure LoopState where
  nProcCompleteLen : ℕ
  pPacket : ℕ
  nDataSize : ℕ

namespace LoopState

variable (mem : ℕ → UInt8) (nCurLen : ℕ) (s : LoopState)

def nPacketLen : ℕ := u32 (PACKET_HEADER_SIZE+s.nDataSize)

/-- The condition of the loop. -/
def Enters : Prop := u32 (s.nProcCompleteLen+s.nPacketLen) ≤ nCurLen

/-- One pass of the loop, with the header of the next packet. -/
def pass : LoopState :=
  let pNext := s.pPacket+PACKET_HEADER_SIZE+s.nDataSize
  ⟨u32 (s.nProcCompleteLen+s.nPacketLen), pNext, headerAt mem pNext⟩

/-- The pass goes on by at least a header and not past the received bytes, and the payload and the
header that it reads are received bytes. -/
structure GoodPass : Prop where
  advances : s.nProcCompleteLen+PACKET_HEADER_SIZE ≤ (s.pass mem).nProcCompleteLen
  within : (s.pass mem).nProcCompleteLen ≤ nCurLen
  payload : s.pPacket+PACKET_HEADER_SIZE+s.nDataSize ≤ nCurLen
  header : (s.pass mem).pPacket+PACKET_HEADER_SIZE ≤ nCurLen

/-- The loop ends from this state on, and every pass before is good. -/
def EndsWell : Prop :=
  ∃ k, ¬Enters nCurLen ((pass mem)^[k] s) ∧
    ∀ i < k, Enters nCurLen ((pass mem)^[i] s) ∧ GoodPass mem nCurLen ((pass mem)^[i] s)

end LoopState

/-- The loop is safe whenever `recvProc_length` comes to it, with `nDataSize` in the first header. -/
def LoopSafe (mem : ℕ → UInt8) (nCurLen nTotLen nDataSize : ℕ) : Prop :=
  ¬nTotLen < u32 (PACKET_HEADER_SIZE+nDataSize) → LoopState.EndsWell mem nCurLen ⟨0, 0, nDataSize⟩

end Model

/-- The received bytes from offset `o` on, where a packet with `nDataSize` in its header begins: it is
not complete, with its end counted modulo `2^32`, or it is complete and so is the header behind it. -/
inductive Framed (mem : ℕ → UInt8) (nCurLen : ℕ) : ℕ → ℕ → Prop
  | last (o nDataSize : ℕ) (h : nCurLen < u32 (o+PACKET_HEADER_SIZE+nDataSize)) :
    Framed mem nCurLen o nDataSize
  | next (o nDataSize : ℕ) (h : o+PACKET_HEADER_SIZE+nDataSize+PACKET_HEADER_SIZE ≤ nCurLen)
    (hrest : Framed mem nCurLen (o+PACKET_HEADER_SIZE+nDataSize)
      (headerAt mem (o+PACKET_HEADER_SIZE+nDataSize))) : Framed mem nCurLen o nDataSize

section Loop

open LoopState

variable (mem : ℕ → UInt8) (nCurLen : ℕ)

theorem u32_add_u32 (a b : ℕ) : u32 (a+u32 b) = u32 (a+b) := Nat.add_mod_mod a b (2^32)

theorem end_eq (o nDataSize : ℕ) : u32 (o+(⟨o, o, nDataSize⟩ : LoopState).nPacketLen) =
    u32 (o+PACKET_HEADER_SIZE+nDataSize) := by
  rw [nPacketLen, u32_add_u32, Nat.add_assoc]

theorem pass_eq (o nDataSize : ℕ) (h : o+PACKET_HEADER_SIZE+nDataSize < 2^32) :
    pass mem ⟨o, o, nDataSize⟩ = ⟨o+PACKET_HEADER_SIZE+nDataSize, o+PACKET_HEADER_SIZE+nDataSize,
      headerAt mem (o+PACKET_HEADER_SIZE+nDataSize)⟩ := by
  rw [LoopState.pass]
  dsimp only
  rw [end_eq, u32_of_lt _ h]

theorem enters_iff (o nDataSize : ℕ) : Enters nCurLen ⟨o, o, nDataSize⟩ ↔
    u32 (o+PACKET_HEADER_SIZE+nDataSize) ≤ nCurLen := by
  rw [Enters, end_eq]

-- The states of a run after the first pass are those of the run from there.
theorem endsWell_iff (s : LoopState) : EndsWell mem nCurLen s ↔
    ¬Enters nCurLen s ∨
      GoodPass mem nCurLen s ∧ EndsWell mem nCurLen (s.pass mem) ∧ Enters nCurLen s := by
  constructor
  · rintro ⟨k, hstop, hgood⟩
    cases k with
    | zero => exact Or.inl hstop
    | succ k =>
      have hfirst := hgood 0 (Nat.succ_pos k)
      refine Or.inr ⟨hfirst.2, ⟨k, hstop, ?_⟩, hfirst.1⟩
      intro i hi
      exact hgood (i+1) (Nat.succ_lt_succ hi)
  · rintro (hstop | ⟨hgood, ⟨k, hstop, hrest⟩, henters⟩)
    · exact ⟨0, hstop, fun i hi => absurd hi (Nat.not_lt_zero i)⟩
    · refine ⟨k+1, hstop, ?_⟩
      intro i hi
      cases i with
      | zero => exact ⟨henters, hgood⟩
      | succ i => exact hrest i (Nat.lt_of_succ_lt_succ hi)

theorem endsWell_of_framed (hint : nCurLen < 2^32) (o nDataSize : ℕ)
    (h : Framed mem nCurLen o nDataSize) : EndsWell mem nCurLen ⟨o, o, nDataSize⟩ := by
  induction h with
  | last o nDataSize h =>
    rw [endsWell_iff]
    left
    rw [enters_iff]
    exact not_le.mpr h
  | next o nDataSize h _ ih =>
    have hpass := pass_eq mem o nDataSize (by omega)
    rw [endsWell_iff, hpass]
    right
    refine ⟨⟨?_, ?_, ?_, ?_⟩, ih, ?_⟩
    · rw [hpass]
      dsimp only
      omega
    · rw [hpass]
      dsimp only
      omega
    · dsimp only
      omega
    · rw [hpass]
      exact h
    · rw [enters_iff, u32_of_lt _ (by omega)]
      omega

theorem framed_of_endsWell (hint : nCurLen < 2^32) (o nDataSize : ℕ)
    (h : EndsWell mem nCurLen ⟨o, o, nDataSize⟩) : Framed mem nCurLen o nDataSize := by
  obtain ⟨k, hk⟩ := h
  induction k generalizing o nDataSize with
  | zero =>
    apply Framed.last
    have hstop := hk.1
    rw [Function.iterate_zero, id, enters_iff] at hstop
    exact not_le.mp hstop
  | succ k ih =>
    obtain ⟨hstop, hgood⟩ := hk
    have hheader := (hgood 0 (Nat.succ_pos k)).2.header
    change o+PACKET_HEADER_SIZE+nDataSize+PACKET_HEADER_SIZE ≤ nCurLen at hheader
    have hpass := pass_eq mem o nDataSize (by omega)
    apply Framed.next o nDataSize hheader
    apply ih
    rw [← hpass]
    exact ⟨hstop, fun i hi => hgood (i+1) (Nat.succ_lt_succ hi)⟩

/-- For all bytes and lengths, the loop is safe exactly when every complete packet is followed by the
bytes of another header, and the end of the last packet, counted modulo `2^32`, is behind the received
bytes. -/
theorem loopSafe_iff_framed (mem : ℕ → UInt8) (nCurLen nTotLen nDataSize : ℕ)
    (hle : nCurLen ≤ nTotLen) (hint : nTotLen < 2^32) :
    LoopSafe mem nCurLen nTotLen nDataSize ↔ Framed mem nCurLen 0 nDataSize := by
  constructor
  · intro h
    by_cases hearly : nTotLen < u32 (PACKET_HEADER_SIZE+nDataSize)
    · apply Framed.last
      rw [Nat.zero_add]
      exact lt_of_le_of_lt hle hearly
    · exact framed_of_endsWell mem nCurLen (by omega) 0 nDataSize (h hearly)
  · intro h _
    exact endsWell_of_framed mem nCurLen (by omega) 0 nDataSize h

theorem loopSafe_iff_framed_cut : LoopSafe (fun i => if i = 4 then 5 else 0) 8 1024 0 := by
  apply (loopSafe_iff_framed _ 8 1024 0 (by decide) (by decide)).mpr
  apply Framed.next 0 0 (by decide)
  exact Framed.last 4 5 (by decide)

-- the packet of no bytes that ends with the received ones, and a header that wraps around
theorem not_loopSafe : ¬LoopSafe (fun _ => 0) 4 1024 0 ∧ ¬LoopSafe (fun _ => 0) 8 1024 (2^32-1) := by
  constructor
  · intro h
    rcases (endsWell_iff _ _ _).mp (h (by decide)) with hstop | ⟨hgood, -⟩
    · exact hstop ((enters_iff 4 0 0).mpr (by decide))
    · exact absurd hgood.header (by decide)
  · intro h
    rcases (endsWell_iff _ _ _).mp (h (by decide)) with hstop | ⟨hgood, -⟩
    · exact hstop ((enters_iff 8 0 (2^32-1)).mpr (by decide))
    · exact absurd hgood.advances (by decide)

section Buffer

variable (buf : List UInt8) (hbuf : ∀ i (hi : i < buf.length), mem i = buf[i])

include hbuf

theorem slice_eq (p n : ℕ) (h : p+n ≤ buf.length) :
    slice buf p n = some ((List.range n).map (fun i => mem (p+i))) := by
  rw [slice, if_pos h]
  congr 1
  apply List.ext_getElem
  · rw [List.length_take, List.length_drop, List.length_map, List.length_range]
    omega
  · intro i hi _
    rw [List.getElem_take, List.getElem_drop, List.getElem_map, List.getElem_range]
    exact (hbuf (p+i) _).symm

/-- On framed bytes the loop of `recvProc_length` ends, within its buffer and its received bytes. -/
theorem packetLoop_of_framed (hcur : nCurLen ≤ buf.length) (hint : nCurLen < 2^32)
    (fuel o nDataSize : ℕ) (ho : o ≤ nCurLen) (hfuel : nCurLen < o+fuel)
    (h : Framed mem nCurLen o nDataSize) :
    ∃ nDone calls, packetLoop buf nCurLen fuel o o nDataSize = .ok (nDone, calls) ∧
      nDone ≤ nCurLen := by
  have hend (o nDataSize : ℕ) : u32 (o+u32 (PACKET_HEADER_SIZE+nDataSize)) =
      u32 (o+PACKET_HEADER_SIZE+nDataSize) := by
    rw [u32_add_u32, Nat.add_assoc]
  induction h generalizing fuel with
  | last o nDataSize h =>
    obtain ⟨f, rfl⟩ : ∃ f, fuel = f+1 := ⟨fuel-1, by omega⟩
    refine ⟨o, [], ?_, ho⟩
    rw [packetLoop, hend, if_neg (not_le.mpr h)]
    rfl
  | next o nDataSize h _ ih =>
    obtain ⟨f, rfl⟩ : ∃ f, fuel = f+1 := ⟨fuel-1, by omega⟩
    have hpos : 0 < PACKET_HEADER_SIZE := by
      decide
    obtain ⟨nDone, calls, hrun, hdone⟩ := ih f (by omega) (by omega)
    obtain ⟨payload, hprocess⟩ : ∃ payload, process buf (o+PACKET_HEADER_SIZE) nDataSize =
        .ok payload := by
      rw [process, slice_eq mem buf hbuf _ _ (by omega)]
      exact ⟨_, rfl⟩
    have hheader : header buf (o+PACKET_HEADER_SIZE+nDataSize) =
        .ok (headerAt mem (o+PACKET_HEADER_SIZE+nDataSize)) := by
      rw [header, slice_eq mem buf hbuf _ _ (by omega)]
      rfl
    refine ⟨nDone, payload :: calls, ?_, hdone⟩
    rw [packetLoop, hend, u32_of_lt _ (by omega), if_pos (by omega)]
    dsimp only
    rw [hprocess, ok_bind, hheader, ok_bind, hrun]
    rfl

end Buffer

end Loop

end Leviathan.Recv
