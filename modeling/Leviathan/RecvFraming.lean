import Leviathan.RecvLength

namespace Leviathan.Recv

open Wire CNWSocket

@[simp] theorem length_packet (msg : List UInt8) :
    (packet msg).length = PACKET_HEADER_SIZE+msg.length := by
  rw [packet, List.length_append, length_bytesLE]

@[simp] theorem stream_nil : stream [] = [] := rfl

theorem stream_cons (msg : List UInt8) (msgs : List (List UInt8)) :
    stream (msg :: msgs) = packet msg ++ stream msgs := List.flatMap_cons

theorem stream_append (as bs : List (List UInt8)) : stream (as ++ bs) = stream as ++ stream bs :=
  List.flatMap_append

theorem process_ok (buf bs : List UInt8) (p n : ℕ) (h : process buf p n = .ok bs) :
    slice buf p n = some bs := by
  unfold process at h
  split at h
  · cases h
    assumption
  · cases h

theorem header_ok (buf : List UInt8) (p v : ℕ) (h : header buf p = .ok v) :
    p+PACKET_HEADER_SIZE ≤ buf.length := by
  unfold header at h
  split at h
  · rename_i bs hs
    exact (length_of_slice buf bs _ _ hs).1
  · cases h

-- One round of the packet loop that does not fault.
theorem packetLoop_succ_ok (buf : List UInt8) (nCurLen fuel nProc p nData c : ℕ)
    (calls : List (List UInt8)) (h : packetLoop buf nCurLen (fuel+1) nProc p nData = .ok (c, calls)) :
    (c = nProc ∧ calls = []) ∨
      ∃ payload next more, calls = payload :: more ∧
        u32 (nProc+u32 (PACKET_HEADER_SIZE+nData)) ≤ nCurLen ∧
        slice buf (p+PACKET_HEADER_SIZE) nData = some payload ∧
        p+PACKET_HEADER_SIZE+nData+PACKET_HEADER_SIZE ≤ buf.length ∧
        packetLoop buf nCurLen fuel (u32 (nProc+u32 (PACKET_HEADER_SIZE+nData)))
          (p+PACKET_HEADER_SIZE+nData) next = .ok (c, more) := by
  simp only [packetLoop] at h
  split at h
  · rename_i hcond
    obtain ⟨payload, hp, h⟩ := (bind_eq_ok _ _ _).mp h
    obtain ⟨next, hn, h⟩ := (bind_eq_ok _ _ _).mp h
    obtain ⟨⟨c', more⟩, hl, h⟩ := (bind_eq_ok _ _ _).mp h
    cases h
    exact Or.inr ⟨payload, next, more, rfl, hcond, process_ok _ _ _ _ hp, header_ok _ _ _ hn, hl⟩
  · cases h
    exact Or.inl ⟨rfl, rfl⟩

-- The loop processes whole packets, and only bytes of this completion.  The first packet has the
-- length of the header that was read before the loop.
theorem packetLoop_ok (buf : List UInt8) (nCurLen fuel nProc nData c : ℕ)
    (calls : List (List UInt8)) (hbuf : buf.length < 2^31) (hcur : nProc ≤ nCurLen)
    (h : packetLoop buf nCurLen fuel nProc nProc nData = .ok (c, calls)) :
    c = nProc+(stream calls).length ∧ c ≤ nCurLen ∧
      (calls = [] ∨ c+PACKET_HEADER_SIZE ≤ buf.length ∧ ∃ m more, calls = m :: more ∧ m.length = nData) := by
  induction fuel generalizing nProc nData calls with
  | zero => cases h
  | succ fuel ih =>
    rcases packetLoop_succ_ok buf nCurLen fuel nProc nProc nData c calls h with
      ⟨rfl, rfl⟩ | ⟨payload, next, more, rfl, hcond, hs, hlast, hl⟩
    · exact ⟨rfl, hcur, Or.inl rfl⟩
    · obtain ⟨_, hlen⟩ := length_of_slice buf payload _ _ hs
      -- the payload is inside the buffer, so none of the sums wraps
      have hw : u32 (nProc+u32 (PACKET_HEADER_SIZE+nData)) = nProc+PACKET_HEADER_SIZE+nData := by
        rw [u32_of_lt (PACKET_HEADER_SIZE+nData) (by omega), u32_of_lt _ (by omega)]
        omega
      rw [hw] at hcond hl
      obtain ⟨hc, hle, hend⟩ := ih (nProc+PACKET_HEADER_SIZE+nData) next more hcond hl
      refine ⟨?_, hle, Or.inr ⟨?_, payload, more, rfl, hlen⟩⟩
      · rw [hc, stream_cons, List.length_append, length_packet, hlen]
        omega
      · rcases hend with rfl | ⟨hend, _⟩
        · rw [hc]
          simpa using hlast
        · exact hend

/-- The descriptor's length field is the size of its buffer. -/
structure WellFormed (s : CNWSocket) : Prop where
  size : s.pData.length = s.nTotLen
  bound : s.nTotLen < 2^31

theorem wellFormed_accepted (n : ℕ) (hn : n < 2^31) : WellFormed (accepted n) :=
  ⟨List.length_replicate, hn⟩

theorem completed_ok (s s' : CNWSocket) (chunk : List UInt8) (hs : WellFormed s)
    (h : s.completed chunk = .ok s') :
    WellFormed s' ∧ s'.nTotLen = s.nTotLen ∧ s'.Internal = 0 ∧ s'.nCurLen = chunk.length ∧
      chunk.length ≤ s.nTotLen := by
  unfold completed at h
  split at h
  · rename_i buf hw
    cases h
    have hlen := length_of_writeAt s.pData chunk buf _ hw
    have hle := (Option.ite_none_right_eq_some.mp hw).1
    have hsize := hs.size
    exact ⟨⟨hlen.trans hs.size, hs.bound⟩, rfl, rfl, rfl, by omega⟩
  · cases h

theorem changeRecvBuf_ok (s s' : CNWSocket) (nNewSize : ℕ) (hn : nNewSize < 2^31)
    (h : s.changeRecvBuf nNewSize = .ok s') : WellFormed s' := by
  unfold changeRecvBuf at h
  split at h
  · rename_i hle
    cases h
    refine ⟨?_, hn⟩
    simp only [List.length_append, List.length_take, List.length_replicate]
    omega
  · cases h

theorem setRemainData_ok (s s' : CNWSocket) (p nSize : ℕ) (hs : WellFormed s)
    (h : s.setRemainData p nSize = .ok s') : WellFormed s' := by
  unfold setRemainData at h
  split at h
  · rename_i rest hr
    cases h
    obtain ⟨hle, hlen⟩ := length_of_slice s.pData rest p nSize hr
    have hsize := hs.size
    refine ⟨?_, hs.bound⟩
    simp only [List.length_append, List.length_replicate, hlen]
    omega
  · cases h

-- What one completion does: `fpProcess` gets at most as many packets as the completion has bytes
-- for; and if it has bytes and they are all used up, the next completion starts afresh, the first
-- payload was empty, and there was room for one more header in the buffer.
theorem comproc_recvComplete_ok (s s' : CNWSocket) (chunk : List UInt8) (calls : List (List UInt8))
    (hs : WellFormed s) (h : comproc_recvComplete s chunk = .ok (s', calls)) :
    WellFormed s' ∧ (stream calls).length ≤ chunk.length ∧
      ((stream calls).length = chunk.length → chunk ≠ [] →
        s' = accepted s.nTotLen ∧ (∃ more, calls = [] :: more) ∧
          chunk.length+PACKET_HEADER_SIZE ≤ s.nTotLen) := by
  obtain ⟨d, hd, h⟩ := (bind_eq_ok _ _ _).mp h
  obtain ⟨hdw, htot, hint, hcur, hchunk⟩ := completed_ok s d chunk hs hd
  have hlen : u32 (PACKET_HEADER_SIZE+0) = PACKET_HEADER_SIZE := rfl
  have hbound := hs.bound
  simp only [recvProc_length, hint, hlen] at h
  split at h
  · obtain ⟨d', hd', h⟩ := (bind_eq_ok _ _ _).mp h
    cases h
    have hw := changeRecvBuf_ok d d' _ (by decide) hd'
    refine ⟨⟨hw.size, hw.bound⟩, Nat.zero_le _, ?_⟩
    intro he hne
    exact absurd (List.length_eq_zero_iff.mp he.symm) hne
  · obtain ⟨⟨c, calls'⟩, hl, h⟩ := (bind_eq_ok _ _ _).mp h
    have hbuf : d.pData.length < 2^31 := by
      rw [hdw.size]
      exact hdw.bound
    obtain ⟨hc, hle, hend⟩ := packetLoop_ok d.pData d.nCurLen _ 0 0 c calls' hbuf (Nat.zero_le _) hl
    rw [zero_add] at hc
    rw [hcur] at hle
    have hrem : u32Sub d.nCurLen c = chunk.length-c := by
      rw [hcur]
      exact u32Sub_of_le _ _ hle (by omega)
    simp only [hrem] at h
    split at h
    · rename_i hne
      obtain ⟨d', hd', h⟩ := (bind_eq_ok _ _ _).mp h
      cases h
      have hw := setRemainData_ok d d' _ _ hdw hd'
      refine ⟨⟨hw.size, hw.bound⟩, by omega, ?_⟩
      intro he
      omega
    · cases h
      refine ⟨⟨List.length_replicate, hdw.bound⟩, by omega, ?_⟩
      intro he hne
      rcases hend with rfl | ⟨hroom, m, more, rfl, hm⟩
      · exact absurd (List.length_eq_zero_iff.mp he.symm) hne
      · refine ⟨?_, ⟨more, by rw [List.length_eq_zero_iff.mp hm]⟩, ?_⟩
        · rw [← htot]
          rfl
        · rw [hdw.size] at hroom
          omega

-- No run of completions hands out more packets than it has bytes for.
theorem length_stream_receive_le (s : CNWSocket) (chunks calls : List (List UInt8))
    (hs : WellFormed s) (h : receive s chunks = .ok calls) :
    (stream calls).length ≤ chunks.flatten.length := by
  induction chunks generalizing s calls with
  | nil =>
    cases h
    exact le_rfl
  | cons chunk chunks ih =>
    obtain ⟨⟨s', calls1⟩, h1, h⟩ := (bind_eq_ok _ _ _).mp h
    obtain ⟨calls2, h2, h⟩ := (bind_eq_ok _ _ _).mp h
    cases h
    obtain ⟨hs', hle, _⟩ := comproc_recvComplete_ok s s' chunk calls1 hs h1
    have hle2 := ih s' calls2 hs' h2
    rw [stream_append, List.flatten_cons, List.length_append, List.length_append]
    omega

end Leviathan.Recv
