import Leviathan.LogMessageSafe

/-! `CLogger::WritePacket`, whose loop writes three bytes for each byte of the packet, and with it all
the entry points of the logger. -/
namespace Leviathan.LogMessage

open Buffers

section Loop

variable (szBuffer : List UInt8)

theorem packetLoop_ok (k i : ℕ) (nLen : ℤ) (t rest : List UInt8) (hoff : nLen = t.length)
    (hi : i+k ≤ szBuffer.length) (hrest : 3*k ≤ rest.length) :
    ∃ s rest', 0 ∉ s ∧ s.length = 3*k ∧ rest'.length+3*k = rest.length ∧
      packetLoop szBuffer k i nLen (t ++ 0 :: rest) = .ok (t ++ s ++ 0 :: rest') := by
  induction k generalizing i nLen t rest with
  | zero =>
    refine ⟨[], rest, List.not_mem_nil, rfl, rfl, ?_⟩
    rw [List.append_nil]
    rfl
  | succ k ih =>
    obtain ⟨b, hbyte⟩ : ∃ b, szBuffer[i]? = some b := by
      have hlt : i < szBuffer.length := by omega
      exact ⟨_, List.getElem?_eq_getElem hlt⟩
    rw [packetLoop, hbyte]
    dsimp only
    have hlen : (hexByte b ++ [32]).length = 3 := rfl
    obtain ⟨r, hr, hput⟩ := strcpy_append (0 :: rest) (hexByte b ++ [32]) nLen t hoff
      (by rw [List.length_cons, hlen]; omega)
    rw [hlen, List.length_cons] at hr
    obtain ⟨s, rest', hs, hslen, hrest', hloop⟩ := ih (i+1) (nLen+3) (t ++ (hexByte b ++ [32])) r
      (by rw [List.length_append, hlen, hoff]; rfl) (by omega) (by omega)
    refine ⟨hexByte b ++ [32] ++ s, rest', ?_, ?_, by omega, ?_⟩
    · simp only [List.mem_append, List.mem_singleton, not_or]
      exact ⟨⟨hexByte_noNul b, by decide⟩, hs⟩
    · rw [List.length_append, hlen, hslen]
      ring
    · rw [hput, ok_bind, hloop, List.append_assoc t]

theorem fits_of_packetLoop (k i : ℕ) (nLen : ℤ) (buf r : List UInt8)
    (h : packetLoop szBuffer k i nLen buf = .ok r) :
    (k = 0 ∨ nLen+3*k < buf.length) ∧ r.length = buf.length := by
  induction k generalizing i nLen buf with
  | zero =>
    obtain rfl := Except.ok.inj h
    exact ⟨Or.inl rfl, rfl⟩
  | succ k ih =>
    rw [packetLoop] at h
    cases hbyte : szBuffer[i]? with
    | none =>
      rw [hbyte] at h
      cases h
    | some b =>
      rw [hbyte] at h
      obtain ⟨buf', hput, h⟩ := (bind_eq_ok _ _ _).mp h
      obtain ⟨⟨-, hin⟩, hlen⟩ := strcpy_ok _ _ _ _ hput
      have hthree : (hexByte b ++ [32]).length = 3 := rfl
      rw [hthree] at hin
      obtain ⟨hnext, hlen'⟩ := ih (i+1) (nLen+3) buf' h
      rw [hlen] at hnext hlen'
      refine ⟨Or.inr ?_, hlen'⟩
      rcases hnext with rfl | hnext
      · push_cast at *
        omega
      · push_cast at *
        omega

end Loop

section Format

theorem packetHeader_noNul (first second : String) (nSocket nPacketSize nKind : ℤ)
    (hfirst : 0 ∉ lit first) (hsecond : 0 ∉ lit second) :
    0 ∉ packetHeader first second nSocket nPacketSize nKind := by
  simp only [packetHeader, List.mem_append, not_or]
  exact ⟨⟨⟨⟨⟨⟨hfirst, decimal_noNul _⟩, hsecond⟩, decimal_noNul _⟩, by decide⟩, decimal_noNul _⟩,
    by decide⟩

theorem fmtStr_noNul (nKind nSocket nPacketSize : ℤ) : 0 ∉ fmtStr nKind nSocket nPacketSize := by
  unfold fmtStr
  split_ifs <;> exact packetHeader_noNul _ _ _ _ _ (by decide) (by decide)

theorem fmtStr_pos (nKind nSocket nPacketSize : ℤ) : 0 < (fmtStr nKind nSocket nPacketSize).length := by
  have hpos (first second : String) :
      0 < (packetHeader first second nSocket nPacketSize nKind).length := by
    rw [packetHeader, List.length_append]
    exact Nat.lt_add_left _ (by decide)
  unfold fmtStr
  split_ifs <;> exact hpos _ _

end Format

section Packet

/-- How often `while (nPacketSize--)` runs. -/
def packetCount (nPacketSize : ℤ) : ℕ := (nPacketSize%2^32).toNat

-- The NUL behind the packet's bytes stays, unless the line end is written over it or before it.
theorem fillPacket_ok (szBuffer header t pBuf : List UInt8) (nPacketSize c : ℤ) (n k : ℕ)
    (hk : packetCount nPacketSize = k) (htext : text header = .ok t) (hnoNul : 0 ∉ t)
    (htlen : t.length = n) (hnpos : 0 < n) (hlen : (pBuf.length : ℤ) = n+c+2) (hroom : 3*(k : ℤ) ≤ c+1)
    (hcount : k ≤ szBuffer.length) :
    ∃ r s, fillPacket szBuffer header nPacketSize n (n+c) pBuf = .ok r ∧ (r.length : ℤ) = n+c+2 ∧
      text r = .ok s ∧ (s.length : ℤ) = if 3*(k : ℤ) < c then (n : ℤ)+3*k else n+c+1 := by
  obtain ⟨r₁, hr₁, hput₁⟩ := strcpy_first pBuf t (by omega)
  obtain ⟨s, r₂, hs, hslen, hr₂, hloop⟩ := packetLoop_ok szBuffer k 0 n t r₁ (by rw [htlen]) (by omega)
    (by omega)
  have hnoNul' : 0 ∉ t ++ s := by
    rw [List.mem_append]
    exact fun hmem => hmem.elim hnoNul hs
  have hlength : (t ++ s).length = n+3*k := by
    rw [List.length_append, htlen, hslen]
  have hrounds : (nPacketSize%2^32).toNat = k := hk
  rw [fillPacket, htext, ok_bind, hput₁, ok_bind, hrounds, hloop, ok_bind]
  generalize t ++ s = u at hnoNul' hlength
  rcases lt_trichotomy (3*(k : ℤ)) c with hlt | heq | hgt
  · obtain ⟨r, hline⟩ := endLine_total (u ++ 0 :: r₂) (n+c) (by omega)
      (by rw [List.length_append, List.length_cons, hlength]; push_cast; omega)
    obtain ⟨r₃, rfl⟩ := endLine_behind u r₂ r (n+c) (by rw [hlength]; push_cast; omega) hline
    refine ⟨_, u, hline, ?_, text_append _ _ hnoNul', ?_⟩
    · rw [(endLine_ok _ _ _ hline).2, List.length_append, List.length_cons, hlength]
      push_cast
      omega
    · rw [if_pos hlt, hlength]
      push_cast
      rfl
  · have hline := endLine_exact u (0 :: r₂) (n+c) (by rw [hlength]; push_cast; omega)
      (by rw [List.length_cons]; omega)
    refine ⟨_, u ++ [10], hline, ?_, text_line u hnoNul', ?_⟩
    · rw [List.length_append, hlength]
      push_cast [List.length_cons, List.length_nil]
      omega
    · rw [if_neg (by omega), List.length_append, hlength]
      push_cast [List.length_cons, List.length_nil]
      omega
  · obtain rfl : r₂ = [] := List.length_eq_zero_iff.mp (by omega)
    have hcut : u ++ [0] = u.take (n+3*k-1) ++ (u.drop (n+3*k-1) ++ [0]) := by
      rw [← List.append_assoc, List.take_append_drop]
    have htake : (u.take (n+3*k-1)).length = n+3*k-1 := List.length_take_of_le (by omega)
    have hnoNul'' : 0 ∉ u.take (n+3*k-1) := fun hmem => hnoNul' (List.mem_of_mem_take hmem)
    have hline := endLine_exact (u.take (n+3*k-1)) (u.drop (n+3*k-1) ++ [0]) (n+c)
      (by rw [htake]; omega) (by rw [List.length_append, List.length_drop, hlength]; simp; omega)
    rw [← hcut] at hline
    refine ⟨_, u.take (n+3*k-1) ++ [10], hline, ?_, text_line _ hnoNul'', ?_⟩
    · rw [List.length_append, htake]
      push_cast [List.length_cons, List.length_nil]
      omega
    · rw [if_neg (by omega), List.length_append, htake]
      push_cast [List.length_cons, List.length_nil]
      omega

theorem fits_of_fillPacket (szBuffer header pBuf r : List UInt8) (nPacketSize nTotLen : ℤ) (n : ℕ)
    (t : List UInt8) (htext : text header = .ok t) (htlen : t.length = n)
    (h : fillPacket szBuffer header nPacketSize n nTotLen pBuf = .ok r) :
    (n : ℤ)+3*packetCount nPacketSize < pBuf.length := by
  rw [fillPacket, htext, ok_bind] at h
  obtain ⟨b₁, hput, h⟩ := (bind_eq_ok _ _ _).mp h
  obtain ⟨b₂, hloop, -⟩ := (bind_eq_ok _ _ _).mp h
  obtain ⟨⟨-, hin⟩, hlen⟩ := strcpy_ok _ _ _ _ hput
  rcases (fits_of_packetLoop szBuffer _ _ _ _ _ hloop).1 with hzero | hlt
  · rw [packetCount, hzero, ← htlen]
    simpa using hin
  · rw [hlen] at hlt
    exact hlt

variable (env : Env) (lg : Logger) (nLevel nKind nSocket : ℤ) (szBuffer : List UInt8) (nPacketSize : ℤ)

/-- `nLen` behind the header. -/
def packetStart : ℕ := (lg.setHeader nLevel).strlen+(packetText nKind nSocket nPacketSize).length

def compareLen : ℤ := i32 (szBuffer.takeWhile (fun b => b ≠ 0)).length

/-- The header fits its array, and the packet ends with a NUL and takes three bytes each of a buffer
that is sized by its text. -/
structure PacketRoom : Prop where
  header : packetStart lg nLevel nKind nSocket nPacketSize < lenLogHeader
  ends : 0 ∈ szBuffer
  size : packetStart lg nLevel nKind nSocket nPacketSize+compareLen szBuffer+2 < 2^31
  room : 3*(packetCount nPacketSize : ℤ) ≤ compareLen szBuffer+1

theorem openHeader_packet (h : packetStart lg nLevel nKind nSocket nPacketSize < lenLogHeader) :
    ∃ header t, openHeader env lg lenLogHeader nLevel (packetText nKind nSocket nPacketSize) =
      .ok header ∧ text header = .ok t ∧ 0 ∉ t ∧
      t.length = packetStart lg nLevel nKind nSocket nPacketSize := by
  obtain ⟨header, hopen, htext⟩ := openHeader_ok env lg lenLogHeader nLevel
    (packetText nKind nSocket nPacketSize) (fmtStr_noNul _ _ _) h
  refine ⟨header, _, hopen, htext, ?_, ?_⟩
  · rw [List.mem_append]
    exact fun hmem => hmem.elim (lg.setHeader nLevel).noNul (fmtStr_noNul _ _ _)
  · rw [List.length_append]
    rfl

-- What is queued, up to its first NUL.
theorem writePacket_eval (hactive : Active lg nLevel)
    (h : PacketRoom lg nLevel nKind nSocket szBuffer nPacketSize) (n : ℕ) (c : ℤ) (k : ℕ)
    (hn : packetStart lg nLevel nKind nSocket nPacketSize = n) (hc : compareLen szBuffer = c)
    (hk : packetCount nPacketSize = k) :
    (env.isNull = true ∧ writePacket env lg nLevel nKind nSocket szBuffer nPacketSize = .ok none) ∨
    ∃ r s, writePacket env lg nLevel nKind nSocket szBuffer nPacketSize = .ok (some ⟨n+c+2, r⟩) ∧
      (r.length : ℤ) = n+c+2 ∧ text r = .ok s ∧
      (s.length : ℤ) = if 3*(k : ℤ) < c then (n : ℤ)+3*k else n+c+1 := by
  obtain ⟨hheader, hends, hsize, hroom⟩ := h
  obtain ⟨header, t, hopen, htext, hnoNul, htlen⟩ :=
    openHeader_packet env lg nLevel nKind nSocket nPacketSize hheader
  have hnpos : 0 < n := by
    have hpos : 0 < (packetText nKind nSocket nPacketSize).length := fmtStr_pos _ _ _
    rw [← hn, packetStart]
    omega
  rw [hn] at hheader hsize htlen
  rw [hc] at hsize hroom
  rw [hk] at hroom
  rw [lenLogHeader] at hheader
  have hcompare : text szBuffer = .ok (szBuffer.takeWhile (fun b => b ≠ 0)) := if_pos hends
  have hcount : k ≤ szBuffer.length := by
    have hle := (List.takeWhile_prefix (fun b : UInt8 => b ≠ 0) (l := szBuffer)).length_le
    have hint : c ≤ (szBuffer.takeWhile (fun b => b ≠ 0)).length := by
      rw [← hc, compareLen]
      dsimp only [i32, Int.bmod]
      split_ifs <;> omega
    omega
  have hstart :
      ((lg.setHeader nLevel).strlen : ℤ)+(packetText nKind nSocket nPacketSize).length = n := by
    rw [← hn, packetStart]
    push_cast
    rfl
  have hTotLen : i32 (n+c) = n+c := i32_of_range _ (by omega) (by omega)
  have hnSize : i32 (n+c+2) = n+c+2 := i32_of_range _ (by omega) (by omega)
  rw [writePacket, ifActive_of lg nLevel _ hactive]
  dsimp only
  rw [hopen, ok_bind, hcompare, ok_bind, hstart]
  rw [show i32 (szBuffer.takeWhile (fun b => b ≠ 0)).length = c from hc, hTotLen, hnSize]
  rcases newBuf_ok env (n+c+2) (by omega) with ⟨hnull, hnew⟩ | ⟨pBuf, hnew, hlen⟩
  · exact Or.inl ⟨hnull, by rw [hnew]; rfl⟩
  · obtain ⟨r, s, hfill, hrlen, hrtext, hslen⟩ := fillPacket_ok szBuffer header t pBuf nPacketSize c
      n k hk htext hnoNul htlen hnpos hlen hroom hcount
    refine Or.inr ⟨r, s, ?_, hrlen, hrtext, hslen⟩
    rw [hnew, ok_bind]
    dsimp only
    rw [hfill]
    rfl

theorem int_room_fits (n k L : ℕ) (hn : n < 64)
    (hin : (n : ℤ)+3*k < i32 (i32 (n+i32 L)+2)) :
    n+i32 L+2 < 2^31 ∧ 3*(k : ℤ) ≤ i32 L+1 := by
  have hlt := i32_lt L
  have hge : -2^31 ≤ i32 L := by
    dsimp only [i32, Int.bmod]
    split_ifs <;> omega
  generalize i32 L = c at *
  rw [i32_i32_add] at hin
  have hsize : (n : ℤ)+c+2 < 2^31 := by
    by_contra hbig
    have hneg : i32 ((n : ℤ)+c+2) = n+c+2-2^32 := by
      dsimp only [i32, Int.bmod]
      split_ifs <;> omega
    omega
  rw [i32_of_range _ (by omega) hsize] at hin
  exact ⟨hsize, by omega⟩

theorem room_of_writePacket (hactive : Active lg nLevel) (hnull : env.isNull = false)
    (q : Option Queued) (h : writePacket env lg nLevel nKind nSocket szBuffer nPacketSize = .ok q) :
    PacketRoom lg nLevel nKind nSocket szBuffer nPacketSize := by
  rw [writePacket, ifActive_of lg nLevel _ hactive] at h
  dsimp only at h
  obtain ⟨header', hopen', h⟩ := (bind_eq_ok _ _ _).mp h
  have hheader := fits_of_openHeader env lg lenLogHeader nLevel _ header' hopen'
  obtain ⟨header, t, hopen, htext, -, htlen⟩ :=
    openHeader_packet env lg nLevel nKind nSocket nPacketSize hheader
  rw [hopen] at hopen'
  obtain rfl := Except.ok.inj hopen'
  obtain ⟨s, hs, h⟩ := (bind_eq_ok _ _ _).mp h
  have hends : 0 ∈ szBuffer := by
    by_contra hout
    rw [text, if_neg hout] at hs
    cases hs
  rw [text, if_pos hends] at hs
  obtain rfl := Except.ok.inj hs
  obtain ⟨r, hnew, h⟩ := (bind_eq_ok _ _ _).mp h
  obtain ⟨pBuf, rfl, hlen, -⟩ := newBuf_some env _ r hnull hnew
  obtain ⟨r, hfill, -⟩ := (bind_eq_ok _ _ _).mp h
  have hstart : ((lg.setHeader nLevel).strlen : ℤ)+(packetText nKind nSocket nPacketSize).length =
      packetStart lg nLevel nKind nSocket nPacketSize := by
    rw [packetStart]
    push_cast
    rfl
  rw [hstart] at hfill hlen
  have hin := fits_of_fillPacket szBuffer header pBuf r nPacketSize _ _ t htext htlen hfill
  rw [hlen] at hin
  rw [← packetStart] at hheader
  obtain ⟨hsize, hroom⟩ := int_room_fits _ (packetCount nPacketSize) _ hheader hin
  exact ⟨hheader, hends, hsize, hroom⟩

/-- What does not reach the end of the buffer is released to the class of the buffer too. -/
structure PacketFits : Prop extends PacketRoom lg nLevel nKind nSocket szBuffer nPacketSize where
  released : 3*(packetCount nPacketSize : ℤ) < compareLen szBuffer →
    getIndex (packetStart lg nLevel nKind nSocket nPacketSize+3*packetCount nPacketSize+1) =
      getIndex (packetStart lg nLevel nKind nSocket nPacketSize+compareLen szBuffer+2).toNat

-- The text of a queued packet and its class.
theorem released_packet_iff (r s : List UInt8) (n k : ℕ) (c : ℤ) (hlen : (r.length : ℤ) = n+c+2)
    (htext : text r = .ok s) (hslen : (s.length : ℤ) = if 3*(k : ℤ) < c then (n : ℤ)+3*k else n+c+1)
    (hsize : n+c+2 < 2^31) : Released ⟨n+c+2, r⟩ ↔
      (3*(k : ℤ) < c → getIndex (n+3*k+1) = getIndex (n+c+2 : ℤ).toNat) := by
  have hdel : delSize s = if 3*(k : ℤ) < c then (n : ℤ)+3*k+1 else n+c+2 := by
    rw [delSize, i32_i32_add, hslen]
    split_ifs
    · exact i32_of_range _ (by omega) (by omega)
    · rw [i32_of_range _ (by omega) (by omega)]
      ring
  constructor
  · rintro ⟨-, s', hs', hclass⟩ hlt
    rw [htext] at hs'
    obtain rfl := Except.ok.inj hs'
    rw [hdel, if_pos hlt] at hclass
    exact hclass
  · intro hclass
    refine ⟨hlen, s, htext, ?_⟩
    rw [hdel]
    split_ifs with hlt
    · exact hclass hlt
    · rfl

theorem safe_writePacket_iff (kind : Vsnprintf) (hactive : Active lg nLevel) :
    Safe kind lg (.writePacket nLevel nKind nSocket szBuffer nPacketSize) ↔
      PacketFits lg nLevel nKind nSocket szBuffer nPacketSize := by
  constructor
  · intro hsafe
    obtain ⟨q, hrun, hq⟩ := hsafe fullEnv
    have hroom := room_of_writePacket fullEnv lg nLevel nKind nSocket szBuffer nPacketSize hactive rfl
      q hrun
    refine ⟨hroom, ?_⟩
    rcases writePacket_eval fullEnv lg nLevel nKind nSocket szBuffer nPacketSize hactive hroom _ _ _
      rfl rfl rfl with ⟨hnull, -⟩ | ⟨r, s, hrun', hlen, htext, hslen⟩
    · cases hnull
    · have hsame := hrun.symm.trans hrun'
      obtain rfl := Except.ok.inj hsame
      exact (released_packet_iff r s _ _ _ hlen htext hslen hroom.size).mp (hq _ rfl)
  · intro hfits env
    rcases writePacket_eval env lg nLevel nKind nSocket szBuffer nPacketSize hactive
      hfits.toPacketRoom _ _ _ rfl rfl rfl with ⟨-, hrun⟩ | ⟨r, s, hrun, hlen, htext, hslen⟩
    · refine ⟨none, hrun, fun m hm => ?_⟩
      cases hm
    · refine ⟨_, hrun, fun m hm => ?_⟩
      obtain rfl := Option.some.inj hm
      exact (released_packet_iff r s _ _ _ hlen htext hslen hfits.size).mpr hfits.released

end Packet

section Calls

/-- The logger takes the message of the call. -/
def Takes (lg : Logger) : Call → Prop
  | .log level _ _ _ _ => Active lg level
  | .putLogQueue level _ _ => Active lg level
  | .putLogQueueBody level _ => Active lg level
  | .putLogQueueData _ => lg.isLogEnable = true
  | .debugLog level _ _ _ _ => Active lg level
  | .writePacket nLevel _ _ _ _ => Active lg nLevel

/-- The message of the call fits the buffers it goes through. -/
def Fits (lg : Logger) : Call → Prop
  | .log level body header tail _ =>
    (lg.setHeader level).strlen+optLen header < maxLogBufLen ∧
      (lg.setHeader level).strlen+optLen header+body.strlen+optLen tail+2 < 2^31
  | .putLogQueue level szFormat ap => FormatFits lg level (spaced szFormat.chars) ap
  | .putLogQueueBody level pBody =>
    (lg.setHeader level).strlen < 512 ∧ (lg.setHeader level).strlen+pBody.strlen+2 < 2^31
  | .putLogQueueData _ => False
  | .debugLog level szFunc nLine szFormat ap =>
    FormatFits lg level
      (spaced (szFunc.chars ++ lit ", " ++ decimal nLine ++ lit ", " ++ szFormat.chars)) ap
  | .writePacket nLevel nKind nSocket szBuffer nPacketSize =>
    PacketFits lg nLevel nKind nSocket szBuffer nPacketSize

variable (kind : Vsnprintf) (lg : Logger)

theorem run_of_not_takes (env : Env) (c : Call) (h : ¬Takes lg c) : run kind env lg c = .ok none := by
  cases c with
  | putLogQueueData pData => exact if_pos (by simpa [Takes] using h)
  | log level body header tail bToFile => exact ifActive_not lg level _ h
  | putLogQueue level szFormat ap => exact ifActive_not lg level _ h
  | putLogQueueBody level pBody => exact ifActive_not lg level _ h
  | debugLog level szFunc nLine szFormat ap => exact ifActive_not lg level _ h
  | writePacket nLevel nKind nSocket szBuffer nPacketSize => exact ifActive_not lg nLevel _ h

theorem spaced_noNul (s : List UInt8) (hs : 0 ∉ s) : 0 ∉ spaced s := by
  simp only [spaced, List.mem_append, not_or]
  exact ⟨⟨by decide, hs⟩, by decide⟩

theorem debugFormat_noNul (szFunc szFormat : CString) (nLine : ℤ) :
    0 ∉ szFunc.chars ++ lit ", " ++ decimal nLine ++ lit ", " ++ szFormat.chars := by
  simp only [List.mem_append, not_or]
  exact ⟨⟨⟨⟨szFunc.noNul, by decide⟩, decimal_noNul nLine⟩, by decide⟩, szFormat.noNul⟩

theorem fits_of_putFormat (level : ℤ) (sFormat : List UInt8) (ap : List UInt8 → CString)
    (hactive : Active lg level) (hformat : 0 ∉ sFormat) (q : Option Queued)
    (h : putFormat kind fullEnv lg level sFormat ap = .ok q) (hq : ∀ m, q = some m → Released m) :
    FormatFits lg level sFormat ap := by
  refine ⟨?_, ?_⟩
  · exact (steps_of_putFormat kind fullEnv lg level sFormat ap hactive hformat rfl q h).1
  · by_contra hlong
    obtain ⟨m, hm, hnot⟩ := not_released_cut kind lg level sFormat ap hactive hformat
      (not_lt.mp hlong) q h
    exact hnot (hq m hm)

/-- A logging call stays in its buffers and its message is released to the right class exactly when the
message fits, or is not taken; for a text without a level it never does. -/
theorem safe_iff (c : Call) : Safe kind lg c ↔ (Takes lg c → Fits lg c) := by
  constructor
  · intro hsafe htakes
    obtain ⟨q, hrun, hq⟩ := hsafe fullEnv
    cases c with
    | log level body header tail bToFile =>
      exact fits_of_log fullEnv lg level body header tail bToFile htakes rfl q hrun
    | putLogQueue level szFormat ap =>
      exact fits_of_putFormat kind lg level _ ap htakes (spaced_noNul _ szFormat.noNul) q hrun hq
    | putLogQueueBody level pBody =>
      exact fits_of_putLogQueueBody fullEnv lg level pBody htakes rfl q hrun
    | putLogQueueData pData => exact putLogQueueData_error fullEnv lg pData htakes rfl q hrun
    | debugLog level szFunc nLine szFormat ap =>
      exact fits_of_putFormat kind lg level _ ap htakes
        (spaced_noNul _ (debugFormat_noNul _ _ _)) q hrun hq
    | writePacket nLevel nKind nSocket szBuffer nPacketSize =>
      exact (safe_writePacket_iff lg nLevel nKind nSocket szBuffer nPacketSize kind htakes).mp hsafe
  · intro hfits
    by_cases htakes : Takes lg c
    · cases c with
      | log level body header tail bToFile =>
        exact fun env => log_ok env lg level body header tail bToFile htakes (hfits htakes).1
          (hfits htakes).2
      | putLogQueue level szFormat ap =>
        exact fun env => putFormat_ok kind env lg level _ ap htakes (spaced_noNul _ szFormat.noNul)
          (hfits htakes)
      | putLogQueueBody level pBody =>
        exact fun env => putLogQueueBody_ok env lg level pBody htakes (hfits htakes).1 (hfits htakes).2
      | putLogQueueData pData => exact (hfits htakes).elim
      | debugLog level szFunc nLine szFormat ap =>
        exact fun env => putFormat_ok kind env lg level _ ap htakes
          (spaced_noNul _ (debugFormat_noNul _ _ _)) (hfits htakes)
      | writePacket nLevel nKind nSocket szBuffer nPacketSize =>
        exact (safe_writePacket_iff lg nLevel nKind nSocket szBuffer nPacketSize kind htakes).mpr
          (hfits htakes)
    · intro env
      refine ⟨none, run_of_not_takes kind lg env c htakes, fun m hm => ?_⟩
      cases hm

/-- A logger without a header that takes everything. -/
def plainLogger : Logger := ⟨true, 0, fun _ => ⟨[], List.not_mem_nil⟩⟩

-- The text "hi" gets a buffer of three bytes, and a NUL is written to the fourth.
theorem not_safe_hi : ¬Safe .fullLength plainLogger (.putLogQueueData ⟨lit "hi", by decide⟩) := by
  intro hsafe
  obtain ⟨q, hrun, -⟩ := hsafe fullEnv
  exact putLogQueueData_error fullEnv plainLogger _ rfl rfl q hrun

end Calls

end Leviathan.LogMessage
