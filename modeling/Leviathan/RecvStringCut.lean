import Leviathan.RecvString

/-! Cutting a stream of such packets.  Where every completion brings one byte, `recvProc_string` keeps
the first digit of the first header and loses every byte behind it. -/
namespace Leviathan.RecvString

open Recv Wire

/-- Whatever the cut, only empty payloads can arrive. -/
theorem payload_eq_nil_of_delivers (s : CNWSocket) (chunks payloads : List (List UInt8))
    (h : Delivers s chunks payloads) : ∀ p ∈ payloads, p = [] := by
  obtain ⟨calls, -, hcalls⟩ := h
  intro p hp
  have hmem : (some p, p.length) ∈ calls.map (fun c => (c.data, c.nDataSize)) := by
    rw [hcalls]
    exact List.mem_map_of_mem hp
  obtain ⟨c, -, hc⟩ := List.mem_map.mp hmem
  have hdata : c.data = some p := congrArg Prod.fst hc
  unfold Call.data at hdata
  split at hdata
  · exact (Option.some.inj hdata).symm
  · cases hdata

def IsDigit (b : UInt8) : Prop := (charOf b).isDigit = true

instance (b : UInt8) : Decidable (IsDigit b) := inferInstanceAs (Decidable (_ = true))

theorem digit_ne (d : UInt8) (hd : IsDigit d) : d ≠ 0 ∧ d ≠ comma := by
  constructor <;>
    · rintro rfl
      exact absurd hd (by decide)

theorem atoi_digit (b : UInt8) (hb : IsDigit b) : ∃ k : ℕ, k ≤ 9 ∧ atoi [charOf b] = k := by
  refine ⟨leadingNumber [charOf b], ?_, atoi_of_digit (charOf b) [] hb⟩
  have hle : (charOf b).toNat ≤ 57 := by
    unfold IsDigit Char.isDigit at hb
    simp only [Bool.and_eq_true, decide_eq_true_eq] at hb
    exact hb.2
  unfold leadingNumber
  rw [List.takeWhile_cons_of_pos hb]
  simp [Nat.ofDigitChars]
  omega

/-- The receive descriptor of a session that waits behind the first digit. -/
structure Stuck (s : CNWSocket) (d : UInt8) : Prop where
  pData : s.pData = d :: List.replicate (s.nTotLen-1) 0
  two_le : 2 ≤ s.nTotLen
  lt : s.nTotLen < 2^32
  offset : s.wsaBuf.1 = 1
  asked : 1 ≤ s.wsaBuf.2

theorem stuck_recvEnd (s s' : CNWSocket) (d : UInt8) (rest : List UInt8) (calls : List Call)
    (hdata : s.pData = d :: rest) (h2 : 2 ≤ s.nTotLen) (hlt : s.nTotLen < 2^32) (hcur : s.nCurLen = 1)
    (h : recvEnd s 0 [] = .ok (s', calls)) : calls = [] ∧ Stuck s' d := by
  have hrem : u32Sub 1 0 = 1 := rfl
  have hslice : slice s.pData 0 1 = some [d] := by
    rw [hdata]
    simp [slice]
  unfold recvEnd at h
  rw [hcur, hrem] at h
  simp only [ne_eq, one_ne_zero, not_false_eq_true, if_true, CNWSocket.setRemainData, hslice, ok_bind]
    at h
  cases h
  refine ⟨rfl, ?_⟩
  constructor
  · rfl
  · exact h2
  · exact hlt
  · rfl
  · show 1 ≤ u32Sub s.nTotLen 1
    rw [u32Sub_of_le _ _ (by omega) hlt]
    omega

-- in a buffer with one digit and one more byte, the header is that digit and a comma if it is complete
theorem parsing_two_bytes (d b : UInt8) (m : ℕ) (r : Option (ℕ × ℕ)) (hd : IsDigit d)
    (h : parsing_stringSize (d :: b :: List.replicate m 0) = .ok r) :
    r = none ∨ ∃ k ≤ 9, r = some (2, 2+k) := by
  obtain ⟨hd0, hdc⟩ := digit_ne d hd
  have hzeros : (List.replicate m (0 : UInt8)).takeWhile (fun b => b ≠ 0) = [] := by
    cases m <;> simp [List.replicate_succ]
  unfold parsing_stringSize at h
  by_cases hb : b = comma
  · right
    obtain ⟨k, hk, hatoi⟩ := atoi_digit d hd
    refine ⟨k, hk, ?_⟩
    subst hb
    have htext : (d :: comma :: List.replicate m (0 : UInt8)).takeWhile (fun b => b ≠ 0) =
        [d, comma] := by
      rw [List.takeWhile_cons_of_pos (by simpa using hd0), List.takeWhile_cons_of_pos (by decide),
        hzeros]
    have hpos : FileLines.ehstrstr [d, comma] [comma] = some 1 := by
      simp [FileLines.ehstrstr, FileLines.ehstrstrFrom, hdc]
    rw [htext, hpos] at h
    simp only [Nat.one_lt_ofNat, if_true, List.take_succ_cons, List.take_zero, List.map_cons,
      List.map_nil, hatoi, Except.ok.injEq] at h
    rw [← h]
    congr 2
    omega
  · left
    have htext : FileLines.ehstrstr
        ((d :: b :: List.replicate m (0 : UInt8)).takeWhile (fun b => b ≠ 0)) [comma] = none := by
      rw [List.takeWhile_cons_of_pos (by simpa using hd0)]
      by_cases hb0 : b = 0
      · simp [hb0, FileLines.ehstrstr, FileLines.ehstrstrFrom, hdc]
      · rw [List.takeWhile_cons_of_pos (by simpa using hb0), hzeros]
        simp [FileLines.ehstrstr, FileLines.ehstrstrFrom, hdc, hb]
    rw [htext] at h
    dsimp only at h
    split at h <;> cases h
    rfl

-- one byte behind the digit calls nobody and is forgotten
theorem stuck_recvProc (s s' : CNWSocket) (d b : UInt8) (calls : List Call) (hd : IsDigit d)
    (hdata : s.pData = d :: b :: List.replicate (s.nTotLen-2) 0) (h2 : 2 ≤ s.nTotLen)
    (hlt : s.nTotLen < 2^32) (hcur : s.nCurLen = 1)
    (h : recvProc_string s = .ok (s', calls)) : calls = [] ∧ Stuck s' d := by
  unfold recvProc_string at h
  obtain ⟨r, hr, h⟩ := (bind_eq_ok _ _ _).mp h
  rw [hdata] at hr
  rcases parsing_two_bytes d b _ r hd hr with rfl | ⟨k, hk, rfl⟩
  · exact stuck_recvEnd s s' d _ calls hdata h2 hlt hcur h
  · dsimp only at h
    by_cases hbig : s.nTotLen < 2+k
    · -- the buffer is too small for the packet: a larger one, with the digit in front
      rw [if_pos hbig] at h
      obtain ⟨t, ht, h⟩ := (bind_eq_ok _ _ _).mp h
      have hnew : u32 (2+k+1024) = 2+k+1024 := u32_of_lt _ (by omega)
      have hfit : s.nCurLen ≤ 2+k+1024 ∧ s.nCurLen ≤ s.pData.length := by
        rw [hcur, hdata]
        simp
      rw [hnew, CNWSocket.changeRecvBuf, if_pos hfit] at ht
      cases ht
      cases h
      refine ⟨rfl, ?_⟩
      constructor
      · show s.pData.take s.nCurLen ++ List.replicate (2+k+1024-s.nCurLen) 0 = _
        rw [hcur, hdata]
        rfl
      · show 2 ≤ 2+k+1024
        omega
      · show 2+k+1024 < 2^32
        omega
      · exact hcur
      · show 1 ≤ u32Sub (2+k) s.nCurLen
        rw [hcur, u32Sub_of_le _ _ (by omega) (by omega)]
        omega
    · rw [if_neg hbig] at h
      have hloop : packetLoop s.pData s.nCurLen (s.nCurLen+1) 0 0 2 (2+k) = .ok (0, []) := by
        have hstop : ¬u32 (0+(2+k)) ≤ 1 := by
          rw [u32_of_lt _ (by omega)]
          omega
        rw [hcur]
        unfold packetLoop
        rw [if_neg hstop]
        rfl
      rw [hloop, ok_bind] at h
      exact stuck_recvEnd s s' d _ calls hdata h2 hlt hcur h

theorem stuck_complete (s s' : CNWSocket) (d b : UInt8) (calls : List Call) (hd : IsDigit d)
    (hs : Stuck s d) (h : comproc_recvComplete s [b] = .ok (s', calls)) :
    calls = [] ∧ Stuck s' d := by
  have h2 := hs.two_le
  unfold comproc_recvComplete at h
  obtain ⟨t, ht, h⟩ := (bind_eq_ok _ _ _).mp h
  have hwrite : writeAt s.pData s.wsaBuf.1 [b] =
      some (d :: b :: List.replicate (s.nTotLen-2) 0) := by
    have hlen : 1+[b].length ≤ s.pData.length := by
      rw [hs.pData]
      simp
      omega
    rw [hs.offset, writeAt, if_pos hlen, hs.pData]
    have hdrop : s.nTotLen-1-1 = s.nTotLen-2 := by
      omega
    simp [hdrop]
  rw [CNWSocket.completed, hwrite] at ht
  cases ht
  apply stuck_recvProc _ s' d b calls hd _ _ _ _ h
  · rfl
  · exact h2
  · exact hs.lt
  · rfl

-- a buffer of one byte has no room for a NUL behind the digit, and the search leaves it
theorem recvProc_one_byte (s : CNWSocket) (d : UInt8) (hd : IsDigit d) (hdata : s.pData = [d]) :
    recvProc_string s = .error .outOfBounds := by
  obtain ⟨hd0, hdc⟩ := digit_ne d hd
  have hparse : parsing_stringSize [d] = .error .outOfBounds := by
    simp [parsing_stringSize, FileLines.ehstrstr, FileLines.ehstrstrFrom, hd0, Ne.symm hd0, hdc]
  rw [recvProc_string, hdata, hparse]
  rfl

theorem stuck_first (n : ℕ) (s' : CNWSocket) (d : UInt8) (calls : List Call) (hn : 1 ≤ n)
    (hlt : n < 2^31) (hd : IsDigit d)
    (h : comproc_recvComplete (CNWSocket.accepted n) [d] = .ok (s', calls)) :
    calls = [] ∧ Stuck s' d := by
  unfold comproc_recvComplete at h
  obtain ⟨t, ht, h⟩ := (bind_eq_ok _ _ _).mp h
  have hwrite : writeAt (CNWSocket.accepted n).pData (CNWSocket.accepted n).wsaBuf.1 [d] =
      some (d :: List.replicate (n-1) 0) := by
    show writeAt (List.replicate n 0) 0 [d] = _
    rw [writeAt_zero _ _ (by simpa using hn)]
    simp
  rw [CNWSocket.completed, hwrite] at ht
  cases ht
  by_cases h1 : n = 1
  · subst h1
    rw [recvProc_one_byte _ d hd rfl] at h
    cases h
  · obtain ⟨m, rfl⟩ : ∃ m, n = m+2 := ⟨n-2, by omega⟩
    apply stuck_recvProc _ s' d 0 calls hd _ _ _ _ h
    · rfl
    · exact Nat.le_add_left 2 m
    · exact hlt.trans (by norm_num)
    · rfl

theorem stuck_receive (bytes : List UInt8) (s : CNWSocket) (d : UInt8) (hd : IsDigit d)
    (hs : Stuck s d) : Admissible s (bytes.map (fun b => [b])) ∧
      ∀ calls, receive s (bytes.map (fun b => [b])) = .ok calls → calls = [] := by
  induction bytes generalizing s with
  | nil =>
    refine ⟨trivial, ?_⟩
    intro calls h
    cases h
    rfl
  | cons b bytes ih =>
    constructor
    · refine ⟨by simp, hs.asked, ?_⟩
      intro s' calls h
      exact (ih s' (stuck_complete s s' d b calls hd hs h).2).1
    · intro calls h
      simp only [List.map_cons, receive] at h
      obtain ⟨⟨s', first⟩, hfirst, h⟩ := (bind_eq_ok _ _ _).mp h
      obtain ⟨more, hmore, h⟩ := (bind_eq_ok _ _ _).mp h
      obtain ⟨rfl, hs'⟩ := stuck_complete s s' d b first hd hs hfirst
      have hnil := (ih s' hs').2 more hmore
      subst hnil
      cases h
      rfl

theorem stream_digit (p : List UInt8) (payloads : List (List UInt8)) :
    ∃ d rest, stream (p :: payloads) = d :: rest ∧ IsDigit d := by
  have hne : Nat.toDigits 10 p.length ≠ [] := Nat.toDigits_ne_nil
  obtain ⟨c, cs, hcs⟩ := List.exists_cons_of_ne_nil hne
  refine ⟨c.toNat.toUInt8, cs.map (fun c => c.toNat.toUInt8) ++ comma :: p ++ stream payloads, ?_, ?_⟩
  · simp [stream, packet, decimal, hcs]
  · have hdigit : c.isDigit = true := by
      have hmem : c ∈ Nat.toDigits 10 p.length := by
        rw [hcs]
        exact List.mem_cons_self
      exact Nat.isDigit_of_mem_toDigits (by decide) (by decide) hmem
    have hle : c.toNat ≤ 57 := by
      unfold Char.isDigit at hdigit
      simp only [Bool.and_eq_true, decide_eq_true_eq] at hdigit
      exact hdigit.2
    have hback : charOf c.toNat.toUInt8 = c := by
      unfold charOf
      rw [show c.toNat.toUInt8.toNat = c.toNat by simp; omega, Char.ofNat_toNat]
    unfold IsDigit
    rw [hback]
    exact hdigit

theorem parsing_empty (rest : List UInt8) : parsing_stringSize (48 :: comma :: rest) = .ok (some (2, 2)) := by
  have htext : (48 :: comma :: rest).takeWhile (fun b => b ≠ 0) =
      48 :: comma :: rest.takeWhile (fun b => b ≠ 0) := by
    rw [List.takeWhile_cons_of_pos (by decide), List.takeWhile_cons_of_pos (by decide)]
  have hpos : FileLines.ehstrstr (48 :: comma :: rest.takeWhile (fun b => b ≠ 0)) [comma] = some 1 := rfl
  rw [parsing_stringSize, htext, hpos]
  rfl

-- the header at the start of the buffer is that of every packet
theorem packetLoop_empty (pData : List UInt8) (hparse : parsing_stringSize pData = .ok (some (2, 2)))
    (k fuel nDone pPacket : ℕ) (hfuel : k < fuel) (hlt : nDone+2*k+2 < 2^32) :
    ∃ calls, packetLoop pData (nDone+2*k) fuel nDone pPacket 2 2 = .ok (nDone+2*k, calls) ∧
      calls.map (fun c => (c.data, c.nDataSize)) = List.replicate k (some [], 0) := by
  induction k generalizing fuel nDone pPacket with
  | zero =>
    obtain ⟨fuel, rfl⟩ : ∃ m, fuel = m+1 := ⟨fuel-1, by omega⟩
    refine ⟨[], ?_, rfl⟩
    rw [packetLoop, u32_of_lt _ (by omega), if_neg (by omega)]
    rfl
  | succ k ih =>
    obtain ⟨fuel, rfl⟩ : ∃ m, fuel = m+1 := ⟨fuel-1, by omega⟩
    have hsum : nDone+2*(k+1) = nDone+2+2*k := by omega
    obtain ⟨calls, hrun, hcalls⟩ := ih fuel (nDone+2) (pPacket+2+0) (by omega) (by omega)
    refine ⟨⟨pPacket+2, 0⟩ :: calls, ?_, ?_⟩
    · rw [hsum, packetLoop, u32_of_lt _ (by omega), if_pos (by omega)]
      dsimp only
      rw [u32Sub_of_le _ _ le_rfl (by norm_num), if_pos (by omega), hparse, ok_bind]
      dsimp only
      rw [hrun]
      rfl
    · rw [List.map_cons, hcalls]
      rfl

/-- A completion of `k` whole packets without payload. -/
theorem complete_empty (n k : ℕ) (hk : 1 ≤ k) (hfit : 2*k ≤ n) (hlt : n < 2^31) : ∃ calls,
    comproc_recvComplete (CNWSocket.accepted n) (stream (List.replicate k [])) =
      .ok (CNWSocket.accepted n, calls) ∧
    calls.map (fun c => (c.data, c.nDataSize)) = List.replicate k (some [], 0) := by
  have hlen : (stream (List.replicate k [])).length = 2*k := by
    rw [stream, List.length_flatMap, List.map_replicate, List.sum_replicate]
    exact Nat.mul_comm k 2
  obtain ⟨k, rfl⟩ : ∃ m, k = m+1 := ⟨k-1, by omega⟩
  have hparse : parsing_stringSize (stream (List.replicate (k+1) []) ++ List.replicate (n-2*(k+1)) 0) =
      .ok (some (2, 2)) := parsing_empty _
  obtain ⟨calls, hrun, hcalls⟩ := packetLoop_empty _ hparse (k+1) (2*(k+1)+1) 0 0 (by omega) (by omega)
  rw [Nat.zero_add] at hrun
  refine ⟨calls, ?_, hcalls⟩
  have hwrite : writeAt (CNWSocket.accepted n).pData (CNWSocket.accepted n).wsaBuf.1
      (stream (List.replicate (k+1) [])) =
      some (stream (List.replicate (k+1) []) ++ List.replicate (n-2*(k+1)) 0) := by
    show writeAt (List.replicate n 0) 0 _ = _
    rw [writeAt_zero _ _ (by rwa [List.length_replicate, hlen]), List.drop_replicate, hlen]
  rw [comproc_recvComplete, CNWSocket.completed, hwrite, ok_bind, recvProc_string]
  dsimp only
  rw [hparse, ok_bind, hlen]
  dsimp only
  rw [if_neg (by show ¬n < 2; omega), hrun, ok_bind]
  dsimp only
  rw [recvEnd]
  dsimp only
  rw [u32Sub_of_le _ _ le_rfl (by omega), Nat.sub_self]
  rfl

/-- Of the cuts that deliver a list of empty payloads, those at the ends of packets. -/
theorem delivers_whole_packets (n : ℕ) (hlt : n < 2^31) (counts : List ℕ)
    (hcounts : ∀ k ∈ counts, 1 ≤ k ∧ 2*k ≤ n) :
    Delivers (CNWSocket.accepted n) (counts.map (fun k => stream (List.replicate k [])))
      (List.replicate counts.sum []) := by
  induction counts with
  | nil => exact ⟨[], rfl, rfl⟩
  | cons k counts ih =>
    obtain ⟨hk, hfit⟩ := hcounts k List.mem_cons_self
    obtain ⟨first, hfirst, hfirstCalls⟩ := complete_empty n k hk hfit hlt
    obtain ⟨more, hmore, hmoreCalls⟩ := ih (fun m hm => hcounts m (List.mem_cons_of_mem k hm))
    refine ⟨first ++ more, ?_, ?_⟩
    · rw [List.map_cons, receive, hfirst, ok_bind]
      dsimp only
      rw [hmore]
      rfl
    · rw [List.map_append, hfirstCalls, hmoreCalls, List.sum_cons, ← List.replicate_append_replicate,
        List.map_append, List.map_replicate, List.map_replicate]
      rfl

-- There are others, since a byte that is kept can complete the header of the next packet.
example : receive (CNWSocket.accepted 16) [[48], [comma, 48], [comma]] = .ok [⟨2, 0⟩, ⟨1, 0⟩] := by decide

/-- A list of payloads is delivered under every cut of its stream exactly when it is empty: a payload that
is not empty arrives under no cut, and empty ones not under the cut into single bytes. -/
theorem delivers_every_cut_iff (n : ℕ) (hn : 1 ≤ n) (hlt : n < 2^31) (payloads : List (List UInt8)) :
    (∀ chunks, chunks.flatten = stream payloads → Admissible (CNWSocket.accepted n) chunks →
      Delivers (CNWSocket.accepted n) chunks payloads) ↔ payloads = [] := by
  constructor
  · intro h
    cases payloads with
    | nil => rfl
    | cons p payloads =>
      -- one byte at a time
      obtain ⟨d, rest, hstream, hd⟩ := stream_digit p payloads
      have hnext (s' : CNWSocket) (calls : List Call)
          (hc : comproc_recvComplete (CNWSocket.accepted n) [d] = .ok (s', calls)) :=
        stuck_first n s' d calls hn hlt hd hc
      obtain ⟨calls, hr, hcalls⟩ := h ((d :: rest).map (fun b => [b]))
        (by rw [hstream, ← List.flatMap_def, List.flatMap_singleton'])
        ⟨by simp, by show 1 ≤ n; omega,
          fun s' calls hc => (stuck_receive rest s' d hd (hnext s' calls hc).2).1⟩
      simp only [List.map_cons, receive] at hr
      obtain ⟨⟨s', first⟩, hfirst, hr⟩ := (bind_eq_ok _ _ _).mp hr
      obtain ⟨more, hmore, hr⟩ := (bind_eq_ok _ _ _).mp hr
      obtain ⟨rfl, hs'⟩ := hnext s' first hfirst
      have hnil := (stuck_receive rest s' d hd hs').2 more hmore
      subst hnil
      cases hr
      simp at hcalls
  · rintro rfl chunks hflat hadm
    cases chunks with
    | nil => exact ⟨[], rfl, rfl⟩
    | cons chunk chunks =>
      have hnil : chunk = [] := by
        simpa [stream] using List.flatten_eq_nil_iff.mp hflat chunk List.mem_cons_self
      exact absurd hnil hadm.1

-- With a buffer of 4k and no payloads, nothing arrives and nothing is handed out.
theorem delivers_every_cut_4k : stream [] = [] ∧ Delivers (CNWSocket.accepted 4096) [] [] := by
  have hall := (delivers_every_cut_iff 4096 (by norm_num) (by norm_num) []).mpr rfl
  exact ⟨rfl, hall [] rfl trivial⟩

/-- One packet in one completion: `fpProcess` is called once, with NULL+2 and the length 2. -/
theorem not_delivers_whole_packet : ¬∀ (n : ℕ) (payloads chunks : List (List UInt8)), 1 ≤ n →
    n < 2^31 → (∀ p ∈ payloads, 0 ∉ p) → chunks.flatten = stream payloads →
    Admissible (CNWSocket.accepted n) chunks →
    Delivers (CNWSocket.accepted n) chunks payloads := by
  intro h
  have hcall : receive (CNWSocket.accepted 16) [[50, 44, 97, 98]] = .ok [⟨2, 2⟩] := by
    decide
  obtain ⟨calls, hr, hcalls⟩ := h 16 [[97, 98]] [[50, 44, 97, 98]] (by norm_num) (by norm_num)
    (by decide) (by decide) ⟨by simp, by decide, fun _ _ _ => trivial⟩
  rw [hcall] at hr
  cases hr
  exact absurd hcalls (by decide)

end Leviathan.RecvString
