import Leviathan.LogMessage

/-! Which logging calls stay in their buffers, and release what they queue to the right class. -/
namespace Leviathan.LogMessage

open Buffers

section Pieces

-- When every part of a message lies in the buffer, the size did not overflow.
theorem int_size_fits (n b c : ℕ)
    (hbody : (n : ℤ)+b < i32 (i32 (i32 (n+i32 b)+i32 c)+2))
    (htail : c = 0 ∨ (0 ≤ (n : ℤ)+i32 b ∧ n+i32 b+c < i32 (i32 (i32 (n+i32 b)+i32 c)+2)))
    (hpos : 1 ≤ i32 (i32 (i32 (n+i32 b)+i32 c)+2)) : n+b+c+2 < 2^31 := by
  have hlt := i32_lt (i32 (i32 (n+i32 b)+i32 c)+2)
  have hb : i32 b = b := i32_of_range _ (by omega) (by omega)
  rw [hb] at hbody htail hpos hlt
  have hc : i32 c = c := i32_of_range _ (by omega) (by omega)
  rw [hc] at hbody htail hpos hlt
  have hnb : i32 (n+b) = n+b := i32_of_range _ (by omega) (by omega)
  rw [hnb] at hbody htail hpos hlt
  have hnbc : i32 (n+b+c) = n+b+c := i32_of_range _ (by omega) (by omega)
  rw [hnbc] at hbody htail hpos hlt
  by_contra hbig
  have hneg : i32 ((n : ℤ)+b+c+2) = n+b+c+2-2^32 := by
    dsimp only [i32, Int.bmod]
    split_ifs <;> omega
  omega

variable (env : Env) (lg : Logger)

theorem ifActive_of (level : ℤ) (proc : Except Fault (Option Queued)) (h : Active lg level) :
    ifActive lg level proc = proc := by
  rw [ifActive, if_neg (by rw [h.1]; decide), if_neg (not_lt.mpr h.2)]

theorem ifActive_not (level : ℤ) (proc : Except Fault (Option Queued)) (h : ¬Active lg level) :
    ifActive lg level proc = .ok none := by
  rw [ifActive]
  split_ifs with henable hlevel
  · rfl
  · rfl
  · exact absurd ⟨by simpa using henable, not_lt.mp hlevel⟩ h

theorem setHeader_ok (n : ℕ) (level : ℤ) (h : (lg.setHeader level).strlen < n) :
    ∃ rest, strcpy (localArray env n) 0 (lg.setHeader level).chars =
      .ok ((lg.setHeader level).chars ++ 0 :: rest) ∧
      rest.length+(lg.setHeader level).strlen+1 = n := by
  have hlen : (localArray env n).length = n := by
    simp [localArray]
  obtain ⟨rest, hrest, hput⟩ := strcpy_first (localArray env n) (lg.setHeader level).chars
    (by rw [hlen]; exact h)
  exact ⟨rest, hput, by rw [← hlen, ← hrest]; rfl⟩

theorem openHeader_ok (n : ℕ) (level : ℤ) (s : List UInt8) (hs : 0 ∉ s)
    (h : (lg.setHeader level).strlen+s.length < n) :
    ∃ header, openHeader env lg n level s = .ok header ∧
      text header = .ok ((lg.setHeader level).chars ++ s) := by
  obtain ⟨rest, hput, hrest⟩ := setHeader_ok env lg n level (by omega)
  obtain ⟨rest', -, hput'⟩ := strcpy_append (0 :: rest) s (lg.setHeader level).strlen
    (lg.setHeader level).chars rfl (by rw [List.length_cons]; omega)
  refine ⟨_, by rw [openHeader, hput, ok_bind, hput'], text_append _ _ ?_⟩
  rw [List.mem_append]
  exact fun hmem => hmem.elim (lg.setHeader level).noNul hs

theorem fits_of_setHeader (n : ℕ) (level : ℤ) (r : List UInt8)
    (h : strcpy (localArray env n) 0 (lg.setHeader level).chars = .ok r) :
    (lg.setHeader level).strlen < n ∧ r.length = n := by
  obtain ⟨⟨-, hlt⟩, hlen⟩ := strcpy_ok _ _ _ _ h
  have hsize : (localArray env n).length = n := by
    simp [localArray]
  rw [hsize] at hlt hlen
  refine ⟨?_, hlen⟩
  have hstr : (lg.setHeader level).strlen = (lg.setHeader level).chars.length := rfl
  omega

theorem fits_of_openHeader (n : ℕ) (level : ℤ) (s r : List UInt8)
    (h : openHeader env lg n level s = .ok r) : (lg.setHeader level).strlen+s.length < n := by
  obtain ⟨r', hset, hput⟩ := (bind_eq_ok _ _ _).mp h
  obtain ⟨⟨-, hlt⟩, -⟩ := strcpy_ok _ _ _ _ hput
  rw [(fits_of_setHeader env lg n level r' hset).2] at hlt
  exact_mod_cast hlt

theorem newBuf_ok (nSize : ℤ) (h : 1 ≤ nSize) :
    (env.isNull = true ∧ newBuf env nSize = .ok none) ∨
      ∃ pBuf : List UInt8, newBuf env nSize = .ok (some pBuf) ∧ (pBuf.length : ℤ) = nSize := by
  rw [newBuf, if_pos h]
  split_ifs with hnull
  · exact Or.inl ⟨hnull, rfl⟩
  · refine Or.inr ⟨_, rfl, ?_⟩
    rw [List.length_map, List.length_range]
    omega

-- Without NULL the size is what the code relies on.
theorem newBuf_some (nSize : ℤ) (r : Option (List UInt8)) (hnull : env.isNull = false)
    (h : newBuf env nSize = .ok r) :
    ∃ pBuf, r = some pBuf ∧ (pBuf.length : ℤ) = nSize ∧ 1 ≤ nSize := by
  by_cases hsize : 1 ≤ nSize
  · rw [newBuf, if_pos hsize, hnull] at h
    obtain rfl := Except.ok.inj h
    refine ⟨_, rfl, ?_, hsize⟩
    rw [List.length_map, List.length_range]
    omega
  · rw [newBuf, if_neg hsize] at h
    cases h

-- The line end takes the place of the last two bytes.
theorem endLine_exact (t rest : List UInt8) (off : ℤ) (hoff : off = t.length) (h : rest.length = 2) :
    endLine (t ++ rest) off = .ok (t ++ [10, 0]) := by
  obtain ⟨x, y, rfl⟩ := List.length_eq_two.mp h
  have hfirst : store (t ++ [x, y]) off [10] = .ok (t ++ [10] ++ [y]) :=
    store_append [x, y] t [10] off hoff (Nat.le_succ 1)
  have hnext : off+1 = (t ++ [(10 : UInt8)]).length := by
    rw [List.length_append, hoff]
    rfl
  have hsecond : store (t ++ [10] ++ [y]) (off+1) [0] = .ok (t ++ [10] ++ [0] ++ []) :=
    store_append [y] (t ++ [10]) [0] (off+1) hnext le_rfl
  rw [endLine, hfirst, ok_bind, hsecond]
  simp

theorem endLine_ok (buf r : List UInt8) (off : ℤ) (h : endLine buf off = .ok r) :
    (0 ≤ off ∧ off+2 ≤ buf.length) ∧ r.length = buf.length := by
  obtain ⟨r', hfirst, hsecond⟩ := (bind_eq_ok _ _ _).mp h
  obtain ⟨hin, hlen⟩ := store_ok _ _ _ _ hfirst
  obtain ⟨hin', hlen'⟩ := store_ok _ _ _ _ hsecond
  simp only [List.length_singleton] at hin hin'
  refine ⟨?_, ?_⟩
  · push_cast at *
    omega
  · rw [hlen', hlen]

theorem endLine_total (buf : List UInt8) (off : ℤ) (h0 : 0 ≤ off) (h : off+2 ≤ buf.length) :
    ∃ r, endLine buf off = .ok r := by
  have hfirst : 0 ≤ off ∧ off+([10] : List UInt8).length ≤ buf.length := by
    refine ⟨h0, ?_⟩
    rw [List.length_singleton]
    push_cast
    omega
  obtain ⟨buf', hstore⟩ : ∃ buf', store buf off [10] = .ok buf' := ⟨_, if_pos hfirst⟩
  have hlen := (store_ok _ _ _ _ hstore).2
  have hsecond : 0 ≤ off+1 ∧ off+1+([0] : List UInt8).length ≤ buf'.length := by
    refine ⟨by omega, ?_⟩
    rw [List.length_singleton, hlen]
    push_cast
    omega
  exact ⟨_, by rw [endLine, hstore, ok_bind]; exact if_pos hsecond⟩

-- A line end behind the NUL changes nothing in the text.
theorem endLine_behind (s rest r : List UInt8) (off : ℤ) (hoff : (s.length : ℤ) < off)
    (h : endLine (s ++ 0 :: rest) off = .ok r) : ∃ rest', r = s ++ 0 :: rest' := by
  obtain ⟨r', hfirst, hsecond⟩ := (bind_eq_ok _ _ _).mp h
  have hshift : s ++ 0 :: rest = (s ++ [0]) ++ rest := by
    rw [List.append_assoc]
    rfl
  have hlen : ((s ++ [(0 : UInt8)]).length : ℤ) ≤ off := by
    rw [List.length_append, List.length_singleton]
    push_cast
    omega
  rw [hshift] at hfirst
  obtain ⟨rest₁, rfl⟩ := store_behind _ _ _ _ hlen _ hfirst
  obtain ⟨rest₂, rfl⟩ := store_behind _ _ _ _ (by omega) _ hsecond
  exact ⟨rest₂, by rw [List.append_assoc]; rfl⟩

end Pieces

section Log

variable (env : Env) (lg : Logger) (level : ℤ) (body : CString) (header tail : Option CString)
  (bToFile : Bool)

/-- The characters of a text that may be left out. -/
def optChars (s : Option CString) : List UInt8 := (s.map CString.chars).getD []

theorem optChars_noNul (s : Option CString) : 0 ∉ optChars s := by
  cases s with
  | none => exact List.not_mem_nil
  | some s => exact s.noNul

theorem optChars_length (s : Option CString) : (optChars s).length = optLen s := by
  cases s <;> rfl

theorem logHeader_ok (h : (lg.setHeader level).strlen+optLen header < maxLogBufLen) :
    ∃ headerBuf, logHeader env lg level header = .ok headerBuf ∧
      text headerBuf = .ok ((lg.setHeader level).chars ++ optChars header) := by
  cases header with
  | none =>
    obtain ⟨rest, hput, -⟩ := setHeader_ok env lg maxLogBufLen level h
    refine ⟨_, hput, ?_⟩
    rw [text_append _ _ (lg.setHeader level).noNul]
    exact congrArg _ (List.append_nil _).symm
  | some header => exact openHeader_ok env lg maxLogBufLen level header.chars header.noNul h

theorem fits_of_logHeader (r : List UInt8) (h : logHeader env lg level header = .ok r) :
    (lg.setHeader level).strlen+optLen header < maxLogBufLen := by
  cases header with
  | none => exact (fits_of_setHeader env lg maxLogBufLen level r h).1
  | some header => exact fits_of_openHeader env lg maxLogBufLen level header.chars r h

theorem logTail_ok (t rest : List UInt8) (off : ℤ) (hoff : off = t.length)
    (h : optLen tail+1 < rest.length) : ∃ rest', rest'.length+optLen tail = rest.length ∧
      logTail (t ++ rest) off tail = .ok (t ++ optChars tail ++ rest') := by
  cases tail with
  | none => exact ⟨rest, rfl, congrArg (fun l => Except.ok (l ++ rest)) (List.append_nil t).symm⟩
  | some tail =>
    obtain ⟨rest', hrest, hput⟩ := strcpy_append rest tail.chars off t hoff (Nat.lt_of_succ_lt h)
    refine ⟨0 :: rest', ?_, hput⟩
    rw [← hrest, List.length_cons]
    show _ = rest'.length+tail.strlen+1
    rw [optLen, Option.map_some, Option.getD_some]
    omega

theorem fits_of_logTail (buf r : List UInt8) (off : ℤ) (h : logTail buf off tail = .ok r) :
    optLen tail = 0 ∨ (0 ≤ off ∧ off+optLen tail < buf.length) := by
  cases tail with
  | none => exact Or.inl rfl
  | some tail => exact Or.inr (strcpy_ok _ _ _ _ h).1

theorem text_line (t : List UInt8) (ht : 0 ∉ t) : text (t ++ [10, 0]) = .ok (t ++ [10]) := by
  rw [show t ++ [10, 0] = (t ++ [10]) ++ 0 :: [] by rw [List.append_assoc]; rfl]
  apply text_append
  rw [List.mem_append, List.mem_singleton]
  exact fun h => h.elim ht (by decide)

/-- A line of `t` and a line end, in a buffer of exactly its size. -/
theorem released_line (t : List UInt8) (n : ℤ) (hn : n = t.length) (ht : 0 ∉ t) (hsize : n+2 < 2^31) :
    Released ⟨n+2, t ++ [10, 0]⟩ := by
  subst hn
  refine ⟨by rw [List.length_append]; rfl, t ++ [10], text_line t ht, ?_⟩
  have hdel : delSize (t ++ [10]) = (t.length : ℤ)+2 := by
    rw [delSize, i32_i32_add, List.length_append, List.length_singleton,
      i32_of_range _ (by omega) (by push_cast; omega)]
    push_cast
    ring
  rw [hdel]

-- A call that fills a new buffer with a line, and queues that or nothing.
theorem queued_line (nSize : ℤ) (t : List UInt8)
    (proc : Option (List UInt8) → Except Fault (Option Queued)) (ht : 0 ∉ t)
    (hnSize : nSize = t.length+2) (hsize : nSize < 2^31) (hnull : proc none = .ok none)
    (hfill : ∀ pBuf : List UInt8, (pBuf.length : ℤ) = nSize →
      ∃ q, proc (some pBuf) = .ok q ∧ ∀ m, q = some m → m = ⟨nSize, t ++ [10, 0]⟩) :
    ∃ q, (newBuf env nSize >>= proc) = .ok q ∧ ∀ m, q = some m → Released m := by
  rcases newBuf_ok env nSize (by omega) with ⟨-, hnew⟩ | ⟨pBuf, hnew, hlen⟩
  · refine ⟨none, by rw [hnew, ok_bind, hnull], ?_⟩
    intro m hm
    cases hm
  · obtain ⟨q, hrun, hq⟩ := hfill pBuf hlen
    refine ⟨q, by rw [hnew, ok_bind, hrun], ?_⟩
    intro m hm
    rw [hq m hm, hnSize]
    exact released_line t t.length rfl ht (hnSize ▸ hsize)

theorem log_ok (hactive : Active lg level)
    (hheader : (lg.setHeader level).strlen+optLen header < maxLogBufLen)
    (hsize : (lg.setHeader level).strlen+optLen header+body.strlen+optLen tail+2 < 2^31) :
    ∃ q, log env lg level body header tail bToFile = .ok q ∧ ∀ m, q = some m → Released m := by
  obtain ⟨headerBuf, hbuf, htext⟩ := logHeader_ok env lg level header hheader
  rw [maxLogBufLen] at hheader
  generalize ht : (lg.setHeader level).chars ++ optChars header = t at htext
  have htlen : t.length = (lg.setHeader level).strlen+optLen header := by
    rw [← ht, List.length_append, optChars_length]
    rfl
  have hnoNul : 0 ∉ t ++ body.chars ++ optChars tail := by
    rw [← ht]
    simp only [List.mem_append, not_or]
    exact ⟨⟨⟨(lg.setHeader level).noNul, optChars_noNul header⟩, body.noNul⟩, optChars_noNul tail⟩
  have hheaderLen : i32 ((lg.setHeader level).strlen+i32 (optLen header)) = t.length := by
    rw [i32_natCast (optLen header) (by omega), ← Nat.cast_add, ← htlen, i32_natCast _ (by omega)]
  have hbodyLen : i32 body.strlen = body.strlen := i32_natCast _ (by omega)
  have htailLen : i32 (optLen tail) = optLen tail := i32_natCast _ (by omega)
  have htotlen : i32 (i32 (t.length+body.strlen)+optLen tail) = t.length+body.strlen+optLen tail := by
    rw [i32_i32_add, i32_of_range _ (by omega) (by omega)]
  have hnSize : i32 (t.length+body.strlen+optLen tail+2) = t.length+body.strlen+optLen tail+2 :=
    i32_of_range _ (by omega) (by omega)
  rw [log, ifActive_of lg level _ hactive, hbuf, ok_bind, hheaderLen, hbodyLen, htailLen, htext]
  dsimp only
  rw [htotlen, hnSize]
  have hbody : body.chars.length = body.strlen := rfl
  have hlength : ((t ++ body.chars ++ optChars tail).length : ℤ) =
      t.length+body.strlen+optLen tail := by
    rw [List.length_append, List.length_append, optChars_length, hbody]
    push_cast
    rfl
  apply queued_line env _ (t ++ body.chars ++ optChars tail) _ hnoNul (by rw [hlength]) (by omega) rfl
  intro pBuf hlen
  obtain ⟨r₁, hr₁, hput₁⟩ := strcpy_first pBuf t (by omega)
  obtain ⟨r₂, hr₂, hput₂⟩ := strcpy_append (0 :: r₁) body.chars t.length t rfl
    (by rw [List.length_cons]; omega)
  rw [List.length_cons] at hr₂
  obtain ⟨r₃, hr₃, hput₃⟩ := logTail_ok tail (t ++ body.chars) (0 :: r₂) (t.length+body.strlen)
    (by rw [List.length_append, hbody]; push_cast; rfl) (by rw [List.length_cons]; omega)
  rw [List.length_cons] at hr₃
  have hline := endLine_exact (t ++ body.chars ++ optChars tail) r₃ _ hlength.symm (by omega)
  refine ⟨if bToFile then none
    else some ⟨t.length+body.strlen+optLen tail+2, t ++ body.chars ++ optChars tail ++ [10, 0]⟩,
    ?_, ?_⟩
  · dsimp only
    rw [ok_bind, hput₁, ok_bind, hput₂, ok_bind, hput₃, ok_bind, hline]
    rfl
  · intro m hm
    split_ifs at hm
    exact (Option.some.inj hm).symm

-- A run without a fault has had room everywhere, and a size that an `int` holds.
theorem fits_of_log (hactive : Active lg level) (hnull : env.isNull = false) (q : Option Queued)
    (h : log env lg level body header tail bToFile = .ok q) :
    (lg.setHeader level).strlen+optLen header < maxLogBufLen ∧
      (lg.setHeader level).strlen+optLen header+body.strlen+optLen tail+2 < 2^31 := by
  rw [log, ifActive_of lg level _ hactive] at h
  obtain ⟨headerBuf, hbuf, h⟩ := (bind_eq_ok _ _ _).mp h
  have hheader := fits_of_logHeader env lg level header headerBuf hbuf
  refine ⟨hheader, ?_⟩
  rw [maxLogBufLen] at hheader
  have hheaderLen : i32 ((lg.setHeader level).strlen+i32 (optLen header)) =
      ((lg.setHeader level).strlen+optLen header : ℕ) := by
    rw [i32_natCast (optLen header) (by omega), ← Nat.cast_add, i32_natCast _ (by omega)]
  dsimp only at h
  rw [hheaderLen] at h
  generalize (lg.setHeader level).strlen+optLen header = n at hheader h ⊢
  obtain ⟨r, hnew, h⟩ := (bind_eq_ok _ _ _).mp h
  obtain ⟨pBuf, rfl, hlen, hpos⟩ := newBuf_some env _ r hnull hnew
  obtain ⟨t, -, h⟩ := (bind_eq_ok _ _ _).mp h
  obtain ⟨b₁, hput₁, h⟩ := (bind_eq_ok _ _ _).mp h
  obtain ⟨b₂, hput₂, h⟩ := (bind_eq_ok _ _ _).mp h
  obtain ⟨b₃, hput₃, -⟩ := (bind_eq_ok _ _ _).mp h
  obtain ⟨-, hlen₁⟩ := strcpy_ok _ _ _ _ hput₁
  obtain ⟨⟨-, hbody⟩, hlen₂⟩ := strcpy_ok _ _ _ _ hput₂
  have htail := fits_of_logTail tail b₂ b₃ _ hput₃
  rw [hlen₁, hlen] at hbody
  rw [hlen₂, hlen₁, hlen] at htail
  exact int_size_fits n body.strlen (optLen tail) hbody htail hpos

end Log

section Body

variable (env : Env) (lg : Logger) (level : ℤ) (pBody : CString)

theorem putLogQueueBody_ok (hactive : Active lg level) (hheader : (lg.setHeader level).strlen < 512)
    (hsize : (lg.setHeader level).strlen+pBody.strlen+2 < 2^31) :
    ∃ q, putLogQueueBody env lg level pBody = .ok q ∧ ∀ m, q = some m → Released m := by
  obtain ⟨rest, hset, -⟩ := setHeader_ok env lg 512 level hheader
  have htext := text_append rest _ (lg.setHeader level).noNul
  have hchars : (lg.setHeader level).chars.length = (lg.setHeader level).strlen := rfl
  have hbody : pBody.chars.length = pBody.strlen := rfl
  have hnoNul : 0 ∉ (lg.setHeader level).chars ++ pBody.chars := by
    rw [List.mem_append]
    exact fun h => h.elim (lg.setHeader level).noNul pBody.noNul
  have hlength : ((lg.setHeader level).strlen+pBody.strlen : ℤ) =
      ((lg.setHeader level).chars ++ pBody.chars).length := by
    rw [List.length_append]
    push_cast
    rfl
  have hnLen : i32 (i32 pBody.strlen+(lg.setHeader level).strlen) =
      (lg.setHeader level).strlen+pBody.strlen := by
    rw [i32_i32_add, i32_of_range _ (by omega) (by omega), add_comm]
  have hnSize : i32 ((lg.setHeader level).strlen+pBody.strlen+2) =
      (lg.setHeader level).strlen+pBody.strlen+2 := i32_of_range _ (by omega) (by omega)
  rw [putLogQueueBody, ifActive_of lg level _ hactive, hset, ok_bind]
  dsimp only
  rw [hnLen, hnSize, htext]
  apply queued_line env _ ((lg.setHeader level).chars ++ pBody.chars) _ hnoNul (by rw [hlength])
    (by omega) rfl
  intro pBuf hlen
  obtain ⟨r₁, hr₁, hput₁⟩ := strcpy_first pBuf (lg.setHeader level).chars (by omega)
  obtain ⟨r₂, hr₂, hput₂⟩ := strcpy_append (0 :: r₁) pBody.chars (lg.setHeader level).strlen
    (lg.setHeader level).chars rfl (by rw [List.length_cons]; omega)
  rw [List.length_cons] at hr₂
  have hline := endLine_exact _ (0 :: r₂) _ hlength (by rw [List.length_cons]; omega)
  refine ⟨some ⟨(lg.setHeader level).strlen+pBody.strlen+2,
    (lg.setHeader level).chars ++ pBody.chars ++ [10, 0]⟩, ?_, ?_⟩
  · dsimp only
    rw [ok_bind, hput₁, ok_bind, hput₂, ok_bind, hline]
    rfl
  · intro m hm
    exact (Option.some.inj hm).symm

theorem fits_of_putLogQueueBody (hactive : Active lg level) (hnull : env.isNull = false)
    (q : Option Queued) (h : putLogQueueBody env lg level pBody = .ok q) :
    (lg.setHeader level).strlen < 512 ∧ (lg.setHeader level).strlen+pBody.strlen+2 < 2^31 := by
  rw [putLogQueueBody, ifActive_of lg level _ hactive] at h
  obtain ⟨header, hset, h⟩ := (bind_eq_ok _ _ _).mp h
  obtain ⟨hheader, -⟩ := fits_of_setHeader env lg 512 level header hset
  refine ⟨hheader, ?_⟩
  dsimp only at h
  obtain ⟨r, hnew, h⟩ := (bind_eq_ok _ _ _).mp h
  obtain ⟨pBuf, rfl, hlen, hpos⟩ := newBuf_some env _ r hnull hnew
  obtain ⟨t, -, h⟩ := (bind_eq_ok _ _ _).mp h
  obtain ⟨b₁, hput₁, h⟩ := (bind_eq_ok _ _ _).mp h
  obtain ⟨b₂, hput₂, -⟩ := (bind_eq_ok _ _ _).mp h
  obtain ⟨-, hlen₁⟩ := strcpy_ok _ _ _ _ hput₁
  obtain ⟨⟨-, hbody⟩, -⟩ := strcpy_ok _ _ _ _ hput₂
  have hchars : pBody.chars.length = pBody.strlen := rfl
  rw [hlen₁, hlen, hchars] at hbody
  have hsame : i32 (i32 (i32 ((lg.setHeader level).strlen+i32 pBody.strlen)+i32 (0 : ℕ))+2) =
      i32 (i32 (i32 pBody.strlen+(lg.setHeader level).strlen)+2) := by
    rw [i32_natCast 0 (by decide), Nat.cast_zero, i32_i32_add, add_zero,
      add_comm ((lg.setHeader level).strlen : ℤ)]
  rw [← hsame] at hbody hpos
  exact int_size_fits _ pBody.strlen 0 hbody (Or.inl rfl) hpos

-- The NUL goes behind the end of the buffer.
theorem putLogQueueData_error (pData : CString) (henable : lg.isLogEnable = true)
    (hnull : env.isNull = false) (q : Option Queued) : putLogQueueData env lg pData ≠ .ok q := by
  intro h
  rw [putLogQueueData, if_neg (by rw [henable]; decide)] at h
  dsimp only at h
  obtain ⟨r, hnew, h⟩ := (bind_eq_ok _ _ _).mp h
  obtain ⟨pBuf, rfl, hlen, hpos⟩ := newBuf_some env _ r hnull hnew
  obtain ⟨b₁, hput₁, h⟩ := (bind_eq_ok _ _ _).mp h
  obtain ⟨b₂, hput₂, -⟩ := (bind_eq_ok _ _ _).mp h
  obtain ⟨-, hlen₁⟩ := strcpy_ok _ _ _ _ hput₁
  obtain ⟨⟨hoff, hin⟩, -⟩ := store_ok _ _ _ _ hput₂
  rw [hlen₁, hlen, List.length_singleton] at hin
  have hlt := i32_lt pData.strlen
  generalize i32 pData.strlen = n at *
  have hsize : i32 (n+1) = n+1 ∨ i32 (n+1) < 0 := by
    dsimp only [i32, Int.bmod]
    split_ifs <;> omega
  push_cast at hin
  omega

end Body

section Format

variable (kind : Vsnprintf) (env : Env) (lg : Logger) (level : ℤ) (sFormat : List UInt8)
  (ap : List UInt8 → CString)

/-- The header and the format fit their array, and the message fits `msgBuf`. -/
def FormatFits : Prop := (lg.setHeader level).strlen+sFormat.length < 512 ∧
  (ap ((lg.setHeader level).chars ++ sFormat)).strlen < maxLogBufLen-1

theorem localArray_length (n : ℕ) : (localArray env n).length = n := by
  simp [localArray]

theorem putFormat_ok (hactive : Active lg level) (hformat : 0 ∉ sFormat)
    (h : FormatFits lg level sFormat ap) :
    ∃ q, putFormat kind env lg level sFormat ap = .ok q ∧ ∀ m, q = some m → Released m := by
  obtain ⟨hheader, hmsg⟩ := h
  obtain ⟨header, hopen, htext⟩ := openHeader_ok env lg 512 level sFormat hformat hheader
  generalize hap : ap ((lg.setHeader level).chars ++ sFormat) = msg at hmsg
  rw [maxLogBufLen] at hmsg
  obtain ⟨rest, hprint⟩ := vsnprintf_fits kind (localArray env maxLogBufLen) msg.chars (maxLogBufLen-1)
    (by rw [localArray_length]; decide) hmsg (by decide)
  have hmsgText := text_append rest msg.chars msg.noNul
  have hchars : msg.chars.length = msg.strlen := rfl
  have hnSize : i32 (msg.strlen+2) = msg.strlen+2 := i32_of_range _ (by omega) (by omega)
  rw [putFormat, ifActive_of lg level _ hactive, hopen, ok_bind, htext, ok_bind, hap, hprint, ok_bind]
  dsimp only
  rw [hchars, hnSize, hmsgText]
  apply queued_line env _ msg.chars _ msg.noNul (by rw [hchars]) (by omega) rfl
  intro pBuf hlen
  obtain ⟨r₁, hr₁, hput₁⟩ := strcpy_first pBuf msg.chars (by omega)
  have hline := endLine_exact msg.chars (0 :: r₁) msg.strlen rfl (by rw [List.length_cons]; omega)
  refine ⟨some ⟨msg.strlen+2, msg.chars ++ [10, 0]⟩, ?_, ?_⟩
  · dsimp only
    rw [ok_bind, hput₁, ok_bind, hline]
    rfl
  · intro m hm
    exact (Option.some.inj hm).symm

/-- No NULL, and no NUL behind what a call writes. -/
def fullEnv : Env := ⟨false, fun _ => 0, fun _ => 1⟩

-- The steps of a call without a fault.
theorem steps_of_putFormat (hactive : Active lg level) (hformat : 0 ∉ sFormat)
    (hnull : env.isNull = false) (q : Option Queued)
    (h : putFormat kind env lg level sFormat ap = .ok q) :
    (lg.setHeader level).strlen+sFormat.length < 512 ∧ ∃ msgBuf nLen pBuf s b₁ b₂,
      vsnprintf kind (localArray env maxLogBufLen) (maxLogBufLen-1)
        (ap ((lg.setHeader level).chars ++ sFormat)).chars = .ok (msgBuf, nLen) ∧
      (pBuf.length : ℤ) = i32 (nLen+2) ∧ 1 ≤ i32 (nLen+2) ∧ text msgBuf = .ok s ∧
      strcpy pBuf 0 s = .ok b₁ ∧ endLine b₁ nLen = .ok b₂ ∧ q = some ⟨i32 (nLen+2), b₂⟩ := by
  rw [putFormat, ifActive_of lg level _ hactive] at h
  obtain ⟨header, hopen, h⟩ := (bind_eq_ok _ _ _).mp h
  have hheader := fits_of_openHeader env lg 512 level sFormat header hopen
  obtain ⟨header', hopen', htext⟩ := openHeader_ok env lg 512 level sFormat hformat hheader
  rw [hopen] at hopen'
  obtain rfl := Except.ok.inj hopen'
  rw [htext, ok_bind] at h
  obtain ⟨⟨msgBuf, nLen⟩, hprint, h⟩ := (bind_eq_ok _ _ _).mp h
  dsimp only at h
  obtain ⟨r, hnew, h⟩ := (bind_eq_ok _ _ _).mp h
  obtain ⟨pBuf, rfl, hlen, hpos⟩ := newBuf_some env _ r hnull hnew
  obtain ⟨s, hs, h⟩ := (bind_eq_ok _ _ _).mp h
  obtain ⟨b₁, hput, h⟩ := (bind_eq_ok _ _ _).mp h
  obtain ⟨b₂, hline, hq⟩ := (bind_eq_ok _ _ _).mp h
  exact ⟨hheader, msgBuf, nLen, pBuf, s, b₁, b₂, hprint, hlen, hpos, hs, hput, hline,
    (Except.ok.inj hq).symm⟩

-- 8191 bytes of text with the NUL are of class 13, and the buffer of a longer message is not.
theorem not_released_short (t rest : List UInt8) (n : ℕ) (ht : 0 ∉ t) (htake : t.length = 8190)
    (hn : 8191 ≤ n) : ¬Released ⟨n+2, t ++ 0 :: rest⟩ := by
  rintro ⟨-, s, hs, hclass⟩
  rw [text_append _ _ ht] at hs
  obtain rfl := Except.ok.inj hs
  have hdel : delSize t = 8191 := by
    rw [delSize, htake]
    decide
  have hthirteen : getIndex (8191 : ℤ).toNat = 13 := by decide
  rw [hdel, hthirteen] at hclass
  have hle := le_two_pow_getIndex ((n : ℤ)+2).toNat (by omega)
  rw [← hclass] at hle
  omega

-- The length of a message that is cut off overflows, or a class below that of the buffer is released.
theorem not_released_fullLength (msg : CString) (msgBuf pBuf s b₁ b₂ : List UInt8) (nLen : ℤ)
    (hlong : maxLogBufLen-1 ≤ msg.strlen)
    (hprint : vsnprintf .fullLength (localArray env maxLogBufLen) (maxLogBufLen-1) msg.chars =
      .ok (msgBuf, nLen))
    (hlen : (pBuf.length : ℤ) = i32 (nLen+2)) (hpos : 1 ≤ i32 (nLen+2)) (hs : text msgBuf = .ok s)
    (hput : strcpy pBuf 0 s = .ok b₁) (hline : endLine b₁ nLen = .ok b₂) :
    ¬Released ⟨i32 (nLen+2), b₂⟩ := by
  rw [maxLogBufLen] at hlong
  obtain ⟨rest, hcut⟩ := fullLength_cut (localArray env maxLogBufLen) msg.chars (maxLogBufLen-1)
    (by rw [localArray_length]; decide) (by decide) hlong
  rw [hcut] at hprint
  obtain ⟨rfl, rfl⟩ := Prod.mk.inj (Except.ok.inj hprint)
  have hnoNul : 0 ∉ msg.chars.take (maxLogBufLen-1-1) :=
    fun hmem => msg.noNul (List.mem_of_mem_take hmem)
  have htake : (msg.chars.take (maxLogBufLen-1-1)).length = 8190 :=
    List.length_take_of_le (by rw [maxLogBufLen]; exact (Nat.le_succ _).trans hlong)
  rw [text_append _ _ hnoNul] at hs
  obtain rfl := Except.ok.inj hs
  generalize msg.chars.take (maxLogBufLen-1-1) = t at hnoNul htake hput
  obtain ⟨⟨-, hin⟩, -⟩ := strcpy_ok _ _ _ _ hput
  have hchars : msg.chars.length = msg.strlen := rfl
  rw [hlen, htake, hchars] at hin
  rw [hchars] at hpos hlen hline ⊢
  have hM : msg.strlen < 2^31 := by
    by_contra hbig
    rw [if_neg hbig] at hin
    exact absurd hin (by decide)
  rw [if_pos hM] at hin hpos hlen hline ⊢
  have hnSize : i32 (msg.strlen+2) = msg.strlen+2 := by
    dsimp only [i32, Int.bmod] at hpos ⊢
    split_ifs at hpos ⊢ <;> omega
  obtain ⟨r₁, -, hput'⟩ := strcpy_first pBuf t (by omega)
  rw [hput'] at hput
  obtain rfl := Except.ok.inj hput
  obtain ⟨r₂, rfl⟩ := endLine_behind t r₁ b₂ msg.strlen (by omega) hline
  rw [hnSize]
  exact not_released_short t r₂ msg.strlen hnoNul htake hlong

-- `msgBuf` is left without a NUL.
theorem text_minusOne_error (msg : CString) (msgBuf s : List UInt8) (nLen : ℤ)
    (hlong : maxLogBufLen-1 ≤ msg.strlen)
    (hprint : vsnprintf .minusOne (localArray fullEnv maxLogBufLen) (maxLogBufLen-1) msg.chars =
      .ok (msgBuf, nLen)) : text msgBuf ≠ .ok s := by
  have hcut := minusOne_cut (localArray fullEnv maxLogBufLen) msg.chars (maxLogBufLen-1)
    (by rw [localArray_length]; decide) hlong
  rw [hcut] at hprint
  obtain ⟨rfl, rfl⟩ := Prod.mk.inj (Except.ok.inj hprint)
  have hnoNul : 0 ∉ msg.chars.take (maxLogBufLen-1) ++
      (localArray fullEnv maxLogBufLen).drop (maxLogBufLen-1) := by
    rw [List.mem_append]
    rintro (hmem | hmem)
    · exact msg.noNul (List.mem_of_mem_take hmem)
    · obtain ⟨i, -, hi⟩ := List.mem_map.mp (List.mem_of_mem_drop hmem)
      exact absurd (show (1 : UInt8) = 0 from hi) (by decide)
  intro hs
  rw [text, if_neg hnoNul] at hs
  cases hs

-- A message that is cut off is shorter than its buffer by a class, or has no NUL.
theorem not_released_cut (hactive : Active lg level) (hformat : 0 ∉ sFormat)
    (hlong : maxLogBufLen-1 ≤ (ap ((lg.setHeader level).chars ++ sFormat)).strlen) (q : Option Queued)
    (h : putFormat kind fullEnv lg level sFormat ap = .ok q) : ∃ m, q = some m ∧ ¬Released m := by
  obtain ⟨-, msgBuf, nLen, pBuf, s, b₁, b₂, hprint, hlen, hpos, hs, hput, hline, hq⟩ :=
    steps_of_putFormat kind fullEnv lg level sFormat ap hactive hformat rfl q h
  refine ⟨_, hq, ?_⟩
  cases kind with
  | fullLength =>
    exact not_released_fullLength fullEnv _ msgBuf pBuf s b₁ b₂ nLen hlong hprint hlen hpos hs hput
      hline
  | minusOne => exact absurd hs (text_minusOne_error _ msgBuf s nLen hlong hprint)

end Format

end Leviathan.LogMessage
