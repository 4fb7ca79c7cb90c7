import Leviathan.RecvFraming

namespace Leviathan.Recv

open Wire CNWSocket

/-- The cut of the stream that suits `recvProc_length`: every completion brings whole packets, the
first of them an empty one, and leaves room for one more header. -/
def CutAtEmptyPackets (nRecvBufSize : ℕ) (msgs chunks : List (List UInt8)) : Prop :=
  ∃ groups : List (List (List UInt8)), groups.flatten = msgs ∧ groups.map stream = chunks ∧
    ∀ g ∈ groups, (∃ more, g = [] :: more) ∧ (stream g).length+PACKET_HEADER_SIZE ≤ nRecvBufSize

theorem header_packet (pre m post : List UInt8) (hm : m.length < 2^32) :
    header (pre ++ (packet m ++ post)) pre.length = .ok m.length := by
  have hs : slice (pre ++ (packet m ++ post)) pre.length PACKET_HEADER_SIZE =
      some (bytesLE PACKET_HEADER_SIZE m.length) := by
    have h := slice_append pre (bytesLE PACKET_HEADER_SIZE m.length) (m ++ post)
    rw [length_bytesLE] at h
    rw [packet, List.append_assoc]
    exact h
  rw [header, hs]
  show Except.ok (ofBytesLE (bytesLE PACKET_HEADER_SIZE m.length)) = _
  rw [ofBytesLE_bytesLE PACKET_HEADER_SIZE m.length hm]

theorem header_zeros (pre : List UInt8) (k : ℕ) (hk : PACKET_HEADER_SIZE ≤ k) :
    header (pre ++ List.replicate k 0) pre.length = .ok 0 := by
  obtain ⟨r, rfl⟩ := Nat.exists_eq_add_of_le hk
  have hs : slice (pre ++ List.replicate (PACKET_HEADER_SIZE+r) (0 : UInt8)) pre.length
      PACKET_HEADER_SIZE = some (List.replicate PACKET_HEADER_SIZE 0) := by
    have h := slice_append pre (List.replicate PACKET_HEADER_SIZE (0 : UInt8)) (List.replicate r 0)
    rw [List.length_replicate] at h
    rw [List.replicate_add]
    exact h
  rw [header, hs]
  show Except.ok (ofBytesLE (List.replicate PACKET_HEADER_SIZE 0)) = _
  rw [ofBytesLE_replicate_zero]

theorem process_packet (pre m post : List UInt8) :
    process (pre ++ (packet m ++ post)) (pre.length+PACKET_HEADER_SIZE) m.length = .ok m := by
  have hs : slice (pre ++ (packet m ++ post)) (pre.length+PACKET_HEADER_SIZE) m.length = some m := by
    have h := slice_append (pre ++ bytesLE PACKET_HEADER_SIZE m.length) m post
    rw [List.length_append, length_bytesLE] at h
    simpa only [packet, List.append_assoc] using h
  rw [process, hs]

-- What the sender writes is what the receiver reads back.
theorem makePacketHeader_read (msg bs : List UInt8) (nBufSize : ℕ) (hm : msg.length < 2^32)
    (h : makePacketHeader msg nBufSize = some bs) :
    bs.length ≤ nBufSize ∧ header bs 0 = .ok msg.length ∧
      process bs PACKET_HEADER_SIZE msg.length = .ok msg := by
  obtain ⟨hfit, hbs⟩ := Option.ite_none_left_eq_some.mp h
  cases hbs
  have hheader := header_packet [] msg [] hm
  have hbody := process_packet [] msg []
  rw [List.nil_append, List.append_nil] at hheader hbody
  rw [List.length_nil, Nat.zero_add] at hbody
  refine ⟨?_, hheader, hbody⟩
  rw [length_packet]
  exact not_lt.mp hfit

-- One round of the loop on a packet that is all there.
theorem packetLoop_packet (pre m post : List UInt8) (nCurLen fuel next : ℕ)
    (hcur : pre.length+(packet m).length ≤ nCurLen) (hsmall : nCurLen < 2^31)
    (hnext : header (pre ++ (packet m ++ post)) (pre ++ packet m).length = .ok next) :
    packetLoop (pre ++ (packet m ++ post)) nCurLen (fuel+1) pre.length pre.length m.length =
      (do
        let (nDone, calls) ← packetLoop (pre ++ (packet m ++ post)) nCurLen fuel
          (pre ++ packet m).length (pre ++ packet m).length next
        return (nDone, m :: calls)) := by
  have hlen : (pre ++ packet m).length = pre.length+PACKET_HEADER_SIZE+m.length := by
    rw [List.length_append, length_packet]
    omega
  rw [length_packet] at hcur
  have hw : u32 (pre.length+u32 (PACKET_HEADER_SIZE+m.length)) = (pre ++ packet m).length := by
    rw [u32_of_lt (PACKET_HEADER_SIZE+m.length) (by omega), u32_of_lt _ (by omega), hlen]
    omega
  have hle : (pre ++ packet m).length ≤ nCurLen := by omega
  simp only [packetLoop, hw, if_pos hle, process_packet, ← hlen, hnext]
  rfl

-- The loop on a group of packets with at least a header's worth of zeros behind it.
theorem packetLoop_group (pre m : List UInt8) (rest : List (List UInt8)) (k fuel : ℕ)
    (hk : PACKET_HEADER_SIZE ≤ k) (hsmall : (pre ++ stream (m :: rest)).length < 2^31)
    (hf : (stream (m :: rest)).length < fuel) :
    packetLoop (pre ++ (stream (m :: rest) ++ List.replicate k 0)) (pre ++ stream (m :: rest)).length
      fuel pre.length pre.length m.length = .ok ((pre ++ stream (m :: rest)).length, m :: rest) := by
  induction rest generalizing pre m fuel with
  | nil =>
    rw [stream_cons, stream_nil, List.append_nil] at hsmall hf ⊢
    obtain ⟨f, rfl⟩ : ∃ f, fuel = f+1+1 := by
      rw [length_packet, PACKET_HEADER_SIZE] at hf
      exact ⟨fuel-2, by omega⟩
    have hnext : header (pre ++ (packet m ++ List.replicate k 0)) (pre ++ packet m).length = .ok 0 := by
      rw [← List.append_assoc]
      exact header_zeros _ k hk
    rw [packetLoop_packet pre m _ _ _ 0 (by simp) hsmall hnext]
    -- the next packet would be an empty one, and there are no bytes for it
    have hstop : ¬u32 ((pre ++ packet m).length+u32 (PACKET_HEADER_SIZE+0)) ≤
        (pre ++ packet m).length := by
      have h4 : u32 (PACKET_HEADER_SIZE+0) = 4 := rfl
      rw [h4, u32_of_lt _ (by omega)]
      omega
    rw [packetLoop, if_neg hstop]
    rfl
  | cons m2 rest ih =>
    have hassoc : pre ++ stream (m :: m2 :: rest) = pre ++ packet m ++ stream (m2 :: rest) := by
      rw [stream_cons, List.append_assoc]
    have hbuf : pre ++ (stream (m :: m2 :: rest) ++ List.replicate k 0) =
        pre ++ (packet m ++ (stream (m2 :: rest) ++ List.replicate k 0)) := by
      rw [stream_cons, List.append_assoc]
    have hlen : (stream (m :: m2 :: rest)).length =
        PACKET_HEADER_SIZE+m.length+(stream (m2 :: rest)).length := by
      rw [stream_cons, List.length_append, length_packet]
    have hle : pre.length+(packet m).length ≤ (pre ++ stream (m :: m2 :: rest)).length := by
      rw [List.length_append, hlen, length_packet]
      omega
    obtain ⟨f, rfl⟩ : ∃ f, fuel = f+1 := ⟨fuel-1, by omega⟩
    have hm2 : m2.length < 2^32 := by
      rw [hassoc, stream_cons] at hsmall
      simp only [List.length_append, length_packet] at hsmall
      omega
    have hnext : header (pre ++ (packet m ++ (stream (m2 :: rest) ++ List.replicate k 0)))
        (pre ++ packet m).length = .ok m2.length := by
      rw [← List.append_assoc pre, stream_cons, List.append_assoc (packet m2)]
      exact header_packet _ m2 _ hm2
    have hrest := ih (pre ++ packet m) m2 f (by rw [← hassoc]; exact hsmall) (by
      rw [hlen, PACKET_HEADER_SIZE] at hf
      omega)
    rw [hbuf, packetLoop_packet pre m _ _ _ m2.length hle hsmall hnext, hassoc]
    rw [List.append_assoc] at hrest
    rw [hrest]
    rfl

-- When the loop uses up all bytes, the next completion starts afresh.
theorem recvProc_length_of_loop (s : CNWSocket) (calls : List (List UInt8))
    (hint : s.Internal = 0) (hbig : PACKET_HEADER_SIZE ≤ s.nTotLen) (hcur : s.nCurLen < 2^32)
    (hloop : packetLoop s.pData s.nCurLen (s.nCurLen+1) 0 0 0 = .ok (s.nCurLen, calls)) :
    recvProc_length s = .ok (s.bindRecv, calls) := by
  have hlen : u32 (PACKET_HEADER_SIZE+0) = PACKET_HEADER_SIZE := rfl
  have hrem : u32Sub s.nCurLen s.nCurLen = 0 := by
    rw [u32Sub_of_le _ _ le_rfl hcur, Nat.sub_self]
  simp only [recvProc_length, hint, hlen]
  rw [if_neg (not_lt.mpr hbig), hloop, ok_bind]
  exact if_neg (not_not.mpr hrem)

theorem completed_accepted (n : ℕ) (chunk : List UInt8) (hfit : chunk.length ≤ n) :
    (accepted n).completed chunk = .ok { accepted n with
      Internal := STATUS_SUCCESS
      pData := chunk ++ List.replicate (n-chunk.length) 0
      nCurLen := chunk.length } := by
  have hw : writeAt (accepted n).pData (accepted n).wsaBuf.1 chunk =
      some (chunk ++ List.replicate (n-chunk.length) 0) := by
    show writeAt (List.replicate n 0) 0 chunk = _
    rw [writeAt_zero _ _ (by rwa [List.length_replicate]), List.drop_replicate]
  rw [completed, hw]

-- A completion that suits `recvProc_length` is processed whole.
theorem comproc_recvComplete_group (n : ℕ) (hn : n < 2^31) (more : List (List UInt8))
    (hfit : (stream ([] :: more)).length+PACKET_HEADER_SIZE ≤ n) :
    comproc_recvComplete (accepted n) (stream ([] :: more)) = .ok (accepted n, [] :: more) := by
  have hloop := packetLoop_group [] [] more (n-(stream ([] :: more)).length)
    ((stream ([] :: more)).length+1) (by omega) (by rw [List.nil_append]; omega) (by omega)
  rw [comproc_recvComplete, completed_accepted n _ (by omega), ok_bind]
  exact recvProc_length_of_loop _ _ rfl (by show _ ≤ n; omega) (by show (stream ([] :: more)).length < 2^32; omega) hloop

/-- From a fresh descriptor the payloads come out as they went in exactly when the stream is cut
into groups of packets that each begin with an empty one. -/
theorem receive_accepted_iff (n : ℕ) (hn : n < 2^31) (msgs chunks : List (List UInt8))
    (hadm : Admissible (accepted n) chunks) (hcut : chunks.flatten = stream msgs) :
    receive (accepted n) chunks = .ok msgs ↔ CutAtEmptyPackets n msgs chunks := by
  constructor
  · intro h
    induction chunks generalizing msgs with
    | nil =>
      cases h
      exact ⟨[], rfl, rfl, by simp⟩
    | cons chunk chunks ih =>
      obtain ⟨hne, _, hadm'⟩ := hadm
      obtain ⟨⟨s', calls⟩, h1, h⟩ := (bind_eq_ok _ _ _).mp h
      obtain ⟨more, h2, h⟩ := (bind_eq_ok _ _ _).mp h
      cases h
      obtain ⟨hs', hle, hall⟩ :=
        comproc_recvComplete_ok _ s' chunk calls (wellFormed_accepted n hn) h1
      have hle2 := length_stream_receive_le s' chunks more hs' h2
      -- all bytes are accounted for, so this completion was used up
      have htot := congrArg List.length hcut
      rw [List.flatten_cons, stream_append, List.length_append, List.length_append] at htot
      obtain ⟨rfl, hempty, hroom⟩ := hall (by omega) hne
      rw [List.flatten_cons, stream_append] at hcut
      obtain ⟨rfl, hrest⟩ := List.append_inj hcut (by omega)
      obtain ⟨groups, rfl, rfl, hg⟩ := ih more (hadm' _ _ h1) hrest h2
      refine ⟨calls :: groups, rfl, rfl, ?_⟩
      intro g hmem
      rcases List.mem_cons.mp hmem with rfl | hmem
      · exact ⟨hempty, hroom⟩
      · exact hg g hmem
  · rintro ⟨groups, rfl, rfl, hg⟩
    clear hadm hcut
    induction groups with
    | nil => rfl
    | cons g groups ih =>
      obtain ⟨⟨more, rfl⟩, hfit⟩ := hg g List.mem_cons_self
      have hrest := ih (fun g hmem => hg g (List.mem_cons_of_mem _ hmem))
      rw [List.map_cons, receive, comproc_recvComplete_group n hn more hfit, ok_bind]
      simp only [hrest, ok_bind]
      rfl

/-- An empty packet and one of two bytes in one completion. -/
theorem receive_accepted_empty_first :
    receive (accepted 16) [stream [[], [1, 2]]] = .ok [[], [1, 2]] :=
  (receive_accepted_iff 16 (by decide) [[], [1, 2]] [stream [[], [1, 2]]]
    ⟨by decide, by decide, fun _ _ _ => trivial⟩ rfl).mpr
    ⟨[[[], [1, 2]]], rfl, rfl, by simp; decide⟩

/-- A packet of one byte, received whole: `fpProcess` is given an empty payload. -/
theorem not_receive_one_byte : ¬∀ (n : ℕ) (msgs chunks : List (List UInt8)), n < 2^31 →
    Admissible (accepted n) chunks → chunks.flatten = stream msgs →
    receive (accepted n) chunks = .ok msgs := by
  intro h
  have hr := h 16 [[7]] [stream [[7]]] (by decide) ⟨by decide, by decide, fun _ _ _ => trivial⟩ rfl
  have hcode : receive (accepted 16) [stream [[7]]] = .ok [[]] := by decide
  rw [hcode] at hr
  cases hr

end Leviathan.Recv
