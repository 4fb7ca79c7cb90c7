import Leviathan.ConfigValues

/-! `_parse_config_entry` reads from a file the values that the file holds. -/
namespace Leviathan.Profile

open Ini

section Trim

theorem dropWhile_pad (p : UInt8 → Bool) (a s : List UInt8) (ha : ∀ c ∈ a, p c = true)
    (hs : ∀ c, s.head? = some c → p c = false) : (a ++ s).dropWhile p = s := by
  rw [List.dropWhile_append_of_pos ha]
  cases s with
  | nil => rfl
  | cons c s => rw [List.dropWhile_cons_of_neg (by rw [hs c rfl]; decide)]

theorem trimString_pad (a s b : List UInt8) (ha : ∀ c ∈ a, isBlank c = true)
    (hb : ∀ c ∈ b, isBlank c = true) (hs : Trimmed isBlank s) (hne : s ≠ []) :
    trimString (a ++ s ++ b) = s := by
  have hhead : ∀ c, (s ++ b).head? = some c → isBlank c = false := by
    intro c hc
    obtain ⟨x, t, rfl⟩ := List.exists_cons_of_ne_nil hne
    exact hs.head c hc
  have hlast : ∀ c, s.reverse.head? = some c → isBlank c = false := by
    intro c hc
    rw [List.head?_reverse] at hc
    exact hs.last c hc
  rw [trimString, List.append_assoc, dropWhile_pad isBlank a (s ++ b) ha hhead, List.reverse_append]
  rw [dropWhile_pad isBlank b.reverse s.reverse (fun c hc => hb c (List.mem_reverse.mp hc)) hlast]
  exact List.reverse_reverse s

theorem isBlank_newline : isBlank 10 = true := by decide

-- A blank is none of the characters that mean something in a line.
theorem blank_ne (c x : UInt8) (hc : isBlank c = true) (hx : isBlank x = false) : c ≠ x := by
  rintro rfl
  rw [hx] at hc
  cases hc

end Trim

section Fgets

theorem fgetsTake_line (line rest : List UInt8) (k : ℕ) (hline : 10 ∉ line) (hk : line.length < k) :
    fgetsTake k (line ++ 10 :: rest) = (line ++ [10], rest) := by
  induction line generalizing k with
  | nil =>
    obtain ⟨k, rfl⟩ : ∃ j, k = j+1 := ⟨k-1, by rw [List.length_nil] at hk; omega⟩
    exact if_pos rfl
  | cons c line ih =>
    rw [List.length_cons] at hk
    obtain ⟨k, rfl⟩ : ∃ j, k = j+1 := ⟨k-1, by omega⟩
    rw [List.mem_cons, not_or] at hline
    rw [List.cons_append, fgetsTake, if_neg (Ne.symm hline.1), ih k hline.2 (by omega)]
    rfl

theorem fgetsTake_last (line : List UInt8) (k : ℕ) (hline : 10 ∉ line) (hk : line.length ≤ k) :
    fgetsTake k line = (line, []) := by
  induction line generalizing k with
  | nil => cases k <;> rfl
  | cons c line ih =>
    rw [List.length_cons] at hk
    obtain ⟨k, rfl⟩ : ∃ j, k = j+1 := ⟨k-1, by omega⟩
    rw [List.mem_cons, not_or] at hline
    rw [fgetsTake, if_neg (Ne.symm hline.1), ih k hline.2 (by omega)]

theorem fgets_line (line rest : List UInt8) (hline : 10 ∉ line) (hk : line.length < 255) :
    fgets 256 (line ++ 10 :: rest) = some (line ++ [10], rest) := by
  rw [fgets, if_neg (by simp), fgetsTake_line line rest 255 hline hk]

theorem fgets_last (line : List UInt8) (hne : line ≠ []) (hline : 10 ∉ line) (hk : line.length < 255) :
    fgets 256 line = some (line, []) := by
  rw [fgets, if_neg hne, fgetsTake_last line 255 hline hk.le]

end Fgets

namespace ConfEntry

variable {H : Type} (M : StringMap H) (ce : ConfEntry H)

section Line

theorem head?_append_ne (x : UInt8) (s nl : List UInt8) (hs : s.head? ≠ some x)
    (hnl : nl = [] ∨ nl = [10]) (hx : x ≠ 10) : (s ++ nl).head? ≠ some x := by
  rw [List.head?_append]
  cases hhead : s.head? with
  | some c =>
    rw [hhead] at hs
    exact hs
  | none =>
    rcases hnl with rfl | rfl
    · intro h
      cases h
    · exact fun h => hx (Option.some.inj h).symm

theorem parseLine_header (name rest nl : List UInt8) (hname : SectionOk name) :
    ce.parseLine M ((Line.header name rest).text ++ nl) = (ce.entryNew M name).1 := by
  have hdata : (Line.header name rest).text ++ nl = 91 :: (name ++ 93 :: (rest ++ nl)) := by
    simp [Line.text]
  have htake := takeWhile_ne_append 93 name (rest ++ nl) hname.bracket
  rw [hdata, parseLine, List.head?_cons, if_neg (by decide), if_pos rfl, List.tail_cons,
    if_pos (List.mem_append_right _ List.mem_cons_self), htake]

theorem parseLine_other (s nl : List UInt8) (hs : s.head? = some 35 ∨ (61 ∉ s ∧ s.head? ≠ some 91))
    (hnl : nl = [] ∨ nl = [10]) : ce.parseLine M (s ++ nl) = ce := by
  by_cases hcomment : s.head? = some 35
  · rw [parseLine, if_pos]
    rw [List.head?_append, hcomment]
    rfl
  · obtain ⟨heq, hbracket⟩ := hs.resolve_left hcomment
    have hmem : 61 ∉ s ++ nl := by
      rw [List.mem_append]
      rintro (h | h)
      · exact heq h
      · rcases hnl with rfl | rfl
        · cases h
        · exact absurd (List.mem_singleton.mp h) (by decide)
    rw [parseLine, if_neg (head?_append_ne 35 s nl hcomment hnl (by decide)),
      if_neg (head?_append_ne 91 s nl hbracket hnl (by decide)), parseEntry, if_neg hmem]
    exact ite_self _

theorem parseEntry_entry (a k b c v d nl : List UInt8) (hk : KeyOk isBlank k) (hv : ValueOk isBlank v)
    (ha : Pad isBlank a) (hb : Pad isBlank b) (hc : Pad isBlank c) (hd : Pad isBlank d)
    (hnl : nl = [] ∨ nl = [10]) :
    ce.parseEntry M ((Line.entry a k b c v d).text ++ nl) = ce.hashAdd M k v := by
  have hdata : (Line.entry a k b c v d).text ++ nl = (a ++ k ++ b) ++ 61 :: (c ++ v ++ (d ++ nl)) := by
    simp [Line.text]
  have heq : ∀ x ∈ a ++ k ++ b, x ≠ 61 := by
    intro x hx
    rcases List.mem_append.mp hx with hx | hx
    · rcases List.mem_append.mp hx with hx | hx
      · exact blank_ne x 61 (ha x hx).1 (by decide)
      · exact fun h => hk.eq (h ▸ hx)
    · exact blank_ne x 61 (hb x hx).1 (by decide)
  have hkey : ((a ++ k ++ b) ++ 61 :: (c ++ v ++ (d ++ nl))).takeWhile (fun c => c ≠ 61) =
      a ++ k ++ b := by
    rw [List.takeWhile_append_of_pos, List.takeWhile_cons_of_neg (by decide), List.append_nil]
    intro x hx
    simpa using heq x hx
  have hval : ((a ++ k ++ b) ++ 61 :: (c ++ v ++ (d ++ nl))).dropWhile (fun c => c ≠ 61) =
      61 :: (c ++ v ++ (d ++ nl)) := by
    rw [List.dropWhile_append_of_pos, List.dropWhile_cons_of_neg (by decide)]
    intro x hx
    simpa using heq x hx
  have hblank : ∀ x ∈ d ++ nl, isBlank x = true := by
    intro x hx
    rcases List.mem_append.mp hx with hx | hx
    · exact (hd x hx).1
    · rcases hnl with rfl | rfl
      · cases hx
      · rw [List.mem_singleton.mp hx]
        exact isBlank_newline
  have hlast : ¬v.getLast? = some 10 := fun h => hv.plain.line (List.mem_of_getLast? h)
  have hne : c ++ v ++ (d ++ nl) ≠ [] := by
    simp [hv.ne]
  rw [hdata, parseEntry, if_pos (List.mem_append_right _ List.mem_cons_self)]
  dsimp only
  rw [hkey, hval, List.tail_cons, if_pos hne,
    trimString_pad a k b (fun x hx => (ha x hx).1) (fun x hx => (hb x hx).1) hk.trimmed hk.ne,
    trimString_pad c v (d ++ nl) (fun x hx => (hc x hx).1) hblank hv.trimmed hv.ne, if_neg hlast,
    if_pos hv.ne]

theorem parseLine_entry (a k b c v d nl : List UInt8) (hk : KeyOk isBlank k) (hv : ValueOk isBlank v)
    (ha : Pad isBlank a) (hb : Pad isBlank b) (hc : Pad isBlank c) (hd : Pad isBlank d)
    (hnl : nl = [] ∨ nl = [10]) :
    ce.parseLine M ((Line.entry a k b c v d).text ++ nl) =
      if 0 ≤ ce.curEntryIdx then ce.hashAdd M k v else ce := by
  have hhead (x : UInt8) (hx : isBlank x = false) (hkx : k.head? ≠ some x) :
      ((Line.entry a k b c v d).text ++ nl).head? ≠ some x := by
    obtain ⟨y, t, rfl⟩ := List.exists_cons_of_ne_nil hk.ne
    cases a with
    | nil => exact hkx
    | cons z a => exact fun h => blank_ne z x (ha z List.mem_cons_self).1 hx (Option.some.inj h)
  rw [parseLine, if_neg (hhead 35 (by decide) hk.head.1), if_neg (hhead 91 (by decide) hk.head.2),
    parseEntry_entry M ce a k b c v d nl hk hv ha hb hc hd hnl]

-- A line does to an entry in memory what it does to the values.
theorem parseLine_reading (l : Line) (hl : LineOk isBlank l) (nl : List UInt8)
    (hnl : nl = [] ∨ nl = [10]) :
    (ce.parseLine M (l.text ++ nl)).reading M = (ce.reading M).line l := by
  cases l with
  | header name rest =>
    rw [parseLine_header M ce name rest nl hl.1]
    obtain ⟨ce', heq, -, hreading, -⟩ := ce.entryNew_reading M name hl.1.ne
    rw [heq]
    exact hreading
  | entry a k b c v d =>
    obtain ⟨hk, hv, ha, hb, hc, hd⟩ := hl
    rw [parseLine_entry M ce a k b c v d nl hk hv ha hb hc hd hnl]
    by_cases hpos : 0 ≤ ce.curEntryIdx
    · obtain ⟨s, -, hcurrent⟩ := ce.current_eq hpos
      rw [if_pos hpos, ce.hashAdd_reading M s.name k v hcurrent, reading, hcurrent]
      rfl
    · have hcurrent : ce.current = none := if_pos (not_le.mp hpos)
      rw [if_neg hpos, reading, hcurrent]
      rfl
  | other s =>
    have hsame : ce.parseLine M (s ++ nl) = ce := parseLine_other M ce s nl hl.2 hnl
    exact congrArg _ hsame

end Line

/-- The names and the entries can be written to a file and read back. -/
structure Sound : Prop where
  sections : ∀ s ∈ ce.sections, SectionOk s.name
  values : ∀ sec k v, ce.value M sec k = some v → EntryOk isBlank k v

section Sound

theorem sound_hashAdd (h : ce.Sound M) (sec k v : List UInt8) (hcurrent : ce.current = some sec)
    (hentry : EntryOk isBlank k v) : (ce.hashAdd M k v).Sound M := by
  constructor
  · intro s hs
    have hnames : (ce.hashAdd M k v).sections.map SectEntry.name = ce.sections.map SectEntry.name :=
      ce.map_name_modify _ _ (fun _ => rfl)
    have hmem := List.mem_map_of_mem (f := SectEntry.name) hs
    rw [hnames] at hmem
    obtain ⟨t, ht, hname⟩ := List.mem_map.mp hmem
    exact hname ▸ h.sections t ht
  · intro t key val hval
    have hvalue : (ce.hashAdd M k v).value M = withValue (ce.value M) sec k v :=
      congrArg Prod.snd (ce.hashAdd_reading M sec k v hcurrent)
    rw [hvalue, withValue] at hval
    split_ifs at hval with hsame
    · obtain rfl := Option.some.inj hval
      rw [hsame.2]
      exact hentry
    · exact h.values t key val hval

theorem sound_entryNew (h : ce.Sound M) (sec : List UInt8) (hsec : SectionOk sec) :
    (ce.entryNew M sec).1.Sound M := by
  obtain ⟨ce', heq, -, hreading, hsections⟩ := ce.entryNew_reading M sec hsec.ne
  rw [heq]
  constructor
  · intro s hs
    rcases hsections s hs with hold | hname
    · exact h.sections s hold
    · rw [hname]
      exact hsec
  · have hvalue : ce'.value M = ce.value M := congrArg Prod.snd hreading
    intro t k v hv
    rw [hvalue] at hv
    exact h.values t k v hv

theorem sound_parseLine (h : ce.Sound M) (l : Line) (hl : WellFormed isBlank l) (nl : List UInt8)
    (hnl : nl = [] ∨ nl = [10]) : (ce.parseLine M (l.text ++ nl)).Sound M := by
  obtain ⟨hok, hshort⟩ := hl
  cases l with
  | header name rest =>
    rw [parseLine_header M ce name rest nl hok.1]
    exact ce.sound_entryNew M h name hok.1
  | entry a k b c v d =>
    obtain ⟨hk, hv, ha, hb, hc, hd⟩ := hok
    rw [parseLine_entry M ce a k b c v d nl hk hv ha hb hc hd hnl]
    by_cases hpos : 0 ≤ ce.curEntryIdx
    · obtain ⟨s, -, hcurrent⟩ := ce.current_eq hpos
      rw [if_pos hpos]
      refine ce.sound_hashAdd M h s.name k v hcurrent ⟨hk, hv, ?_⟩
      simp only [Line.text, List.length_append, List.length_cons] at hshort
      omega
    · rw [if_neg hpos]
      exact h
  | other s =>
    have hsame : ce.parseLine M (s ++ nl) = ce := parseLine_other M ce s nl hok.2 hnl
    show (ce.parseLine M (s ++ nl)).Sound M
    rw [hsame]
    exact h

theorem parseLine_filename (data : List UInt8) : (ce.parseLine M data).filename = ce.filename := by
  have hnew (sec : List UInt8) : (ce.entryNew M sec).1.filename = ce.filename := by
    by_cases hsec : sec = []
    · rw [entryNew, if_pos hsec]
      rfl
    · obtain ⟨ce', heq, hfile, -, -⟩ := ce.entryNew_reading M sec hsec
      rw [heq]
      exact hfile
  have hentry : (ce.parseEntry M data).filename = ce.filename := by
    unfold parseEntry
    dsimp only
    split_ifs <;> rfl
  unfold parseLine
  split_ifs
  · rfl
  · exact hnew _
  · rfl
  · exact hentry
  · rfl

end Sound

section Loop

theorem plain_text (l : Line) (hl : LineOk isBlank l) : Plain l.text := by
  have hpad (s : List UInt8) (hs : Pad isBlank s) : Plain s :=
    ⟨fun h => (hs 10 h).2 rfl, fun h => blank_ne 0 0 (hs 0 h).1 (by decide) rfl⟩
  have happend (s t : List UInt8) (hs : Plain s) (ht : Plain t) : Plain (s ++ t) := by
    constructor
    · rw [List.mem_append]
      exact fun h => h.elim hs.line ht.line
    · rw [List.mem_append]
      exact fun h => h.elim hs.nul ht.nul
  have hcons (c : UInt8) (s : List UInt8) (hc : c ≠ 10 ∧ c ≠ 0) (hs : Plain s) : Plain (c :: s) := by
    constructor
    · exact fun h => (List.mem_cons.mp h).elim (fun heq => hc.1 heq.symm) hs.line
    · exact fun h => (List.mem_cons.mp h).elim (fun heq => hc.2 heq.symm) hs.nul
  cases l with
  | header name rest =>
    exact happend _ _ (hcons 91 name (by decide) hl.1.plain) (hcons 93 rest (by decide) hl.2)
  | entry a k b c v d =>
    obtain ⟨hk, hv, ha, hb, hc, hd⟩ := hl
    have hkey := happend _ _ (happend _ _ (hpad a ha) hk.plain) (hpad b hb)
    have hval := happend _ _ (happend _ _ (hpad c hc) hv.plain) (hpad d hd)
    exact happend _ _ hkey (hcons 61 _ (by decide) hval)
  | other s => exact hl.1

theorem parseLoop_cons (l : Line) (hl : WellFormed isBlank l) (rest : List UInt8) (k : ℕ) :
    parseLoop M (k+1) (l.text ++ 10 :: rest) ce =
      parseLoop M k rest (ce.parseLine M (l.text ++ [10])) := by
  have hplain := plain_text l hl.ok
  have hnul : 0 ∉ l.text ++ [10] := by
    rw [List.mem_append]
    exact fun h => h.elim hplain.nul (by decide)
  rw [parseLoop, fgets_line l.text rest hplain.line hl.short]
  dsimp only
  rw [takeWhile_ne_self 0 _ hnul]

theorem parseLoop_last (l : Line) (hl : WellFormed isBlank l) (hne : l.text ≠ []) (k : ℕ) :
    parseLoop M (k+1) l.text ce = ce.parseLine M (l.text ++ []) := by
  have hplain := plain_text l hl.ok
  rw [parseLoop, fgets_last l.text hne hplain.line hl.short]
  dsimp only
  rw [takeWhile_ne_self 0 _ hplain.nul, List.append_nil]
  cases k <;> rfl

/-- What has been read so far. -/
structure Read (ce' : ConfEntry H) (lines : List Line) : Prop where
  filename : ce'.filename = ce.filename
  reading : ce'.reading M = lines.foldl Reading.line (ce.reading M)
  sound : ce'.Sound M

theorem read_line (h : ce.Sound M) (l : Line) (hl : WellFormed isBlank l) (nl : List UInt8)
    (hnl : nl = [] ∨ nl = [10]) : Read M ce (ce.parseLine M (l.text ++ nl)) [l] := by
  constructor
  · exact ce.parseLine_filename M _
  · exact ce.parseLine_reading M l hl.ok nl hnl
  · exact ce.sound_parseLine M h l hl nl hnl

theorem Read.trans (ce₁ ce₂ : ConfEntry H) (lines₁ lines₂ : List Line) (h₁ : Read M ce ce₁ lines₁)
    (h₂ : Read M ce₁ ce₂ lines₂) : Read M ce ce₂ (lines₁ ++ lines₂) := by
  refine ⟨h₂.filename.trans h₁.filename, ?_, h₂.sound⟩
  rw [h₂.reading, h₁.reading, List.foldl_append]

-- The loop reads line after line and goes on with the rest of the file.
theorem parseLoop_lines (h : ce.Sound M) (lines : List Line) (hwf : ∀ l ∈ lines, WellFormed isBlank l)
    (rest : List UInt8) (k : ℕ) (hk : (fileText lines ++ rest).length ≤ k) :
    ∃ ce' j, parseLoop M k (fileText lines ++ rest) ce = parseLoop M j rest ce' ∧ rest.length ≤ j ∧
      Read M ce ce' lines := by
  induction lines generalizing ce k with
  | nil => exact ⟨ce, k, rfl, hk, rfl, rfl, h⟩
  | cons l lines ih =>
    have hl := hwf l List.mem_cons_self
    have htext : fileText (l :: lines) ++ rest = l.text ++ 10 :: (fileText lines ++ rest) := by
      simp [fileText]
    rw [htext] at hk ⊢
    obtain ⟨k, rfl⟩ : ∃ j, k = j+1 := by
      refine ⟨k-1, ?_⟩
      rw [List.length_append, List.length_cons] at hk
      omega
    have hread := read_line M ce h l hl [10] (Or.inr rfl)
    obtain ⟨ce', j, hloop, hj, hread'⟩ := ih _ hread.sound
      (fun l' hl' => hwf l' (List.mem_cons_of_mem _ hl')) k
      (by rw [List.length_append, List.length_cons] at hk; omega)
    refine ⟨ce', j, ?_, hj, hread.trans M ce _ _ [l] lines hread'⟩
    rw [parseLoop_cons M ce l hl, hloop]

theorem sound_empty (filename : List UInt8) :
    Sound M ⟨filename, -1, [], by simp, List.nodup_nil⟩ := by
  constructor
  · intro s hs
    cases hs
  · intro sec k v hv
    cases hv

/-- An entry read from a file has the values that the file holds. -/
theorem confEntryNew_holds (filename content : List UInt8) (m : Values)
    (h : Holds isBlank content m) :
    (confEntryNew M filename content).value M = m ∧ (confEntryNew M filename content).Sound M ∧
      (confEntryNew M filename content).filename = filename := by
  obtain ⟨lines, hwf, rfl, hcontent⟩ := h
  have hsound := sound_empty M filename
  have hread : Read M ⟨filename, -1, [], by simp, List.nodup_nil⟩ (confEntryNew M filename content)
      lines := by
    rcases hcontent with rfl | ⟨l, init, rfl, hne, rfl⟩
    · obtain ⟨ce', j, hloop, -, hread⟩ := parseLoop_lines M _ hsound lines hwf []
        (fileText lines).length (by rw [List.append_nil])
      rw [List.append_nil] at hloop
      have hend : parseLoop M j [] ce' = ce' := by
        cases j <;> rfl
      rw [confEntryNew, parseConfigEntry, hloop, hend]
      exact hread
    · have hl := hwf l (List.mem_append_right _ (List.mem_singleton_self l))
      obtain ⟨ce', j, hloop, hj, hread⟩ := parseLoop_lines M _ hsound init
        (fun l' hl' => hwf l' (List.mem_append_left _ hl')) l.text _ le_rfl
      obtain ⟨j, rfl⟩ : ∃ i, j = i+1 := by
        have hpos := List.length_pos_of_ne_nil hne
        exact ⟨j-1, by omega⟩
      rw [confEntryNew, parseConfigEntry, hloop, parseLoop_last M ce' l hl hne]
      exact hread.trans M _ _ _ init [l] (read_line M ce' hread.sound l hl [] (Or.inl rfl))
  exact ⟨congrArg Prod.snd hread.reading, hread.sound, hread.filename⟩

end Loop

end ConfEntry

end Leviathan.Profile
