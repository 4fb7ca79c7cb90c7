import Mathlib.Tactic

/-! Configuration files as lists of lines: what a line says, and which value a file holds for a key of a
section. -/
namespace Leviathan.Ini

/-- A line.  An entry has blanks `a`, `b`, `c` and `d` around its key and its value. -/
inductive Line
  | header (name rest : List UInt8)
  | entry (a k b c v d : List UInt8)
  | other (s : List UInt8)

namespace Line

def text : Line → List UInt8
  | header name rest => 91 :: name ++ 93 :: rest
  | entry a k b c v d => a ++ k ++ b ++ 61 :: (c ++ v ++ d)
  | other s => s

end Line

/-- The values of the keys in each section. -/
abbrev Values : Type := List UInt8 → List UInt8 → Option (List UInt8)

def withValue (m : Values) (sec key val : List UInt8) : Values :=
  fun s k => if s = sec ∧ k = key then some val else m s k

/-- The section that is open, and the values so far. -/
abbrev Reading : Type := Option (List UInt8) × Values

def Reading.line (r : Reading) : Line → Reading
  | .header name _ => (some name, r.2)
  | .entry _ k _ _ v _ =>
    match r.1 with
    | none => r
    | some sec => (some sec, withValue r.2 sec k v)
  | .other _ => r

/-- Nothing has been read. -/
def Reading.start : Reading := (none, fun _ _ => none)

/-- The value of a key is that of the last entry for it in a section of the name. -/
def held (lines : List Line) : Values := (lines.foldl Reading.line .start).2

def fileText (lines : List Line) : List UInt8 := lines.flatMap (fun l => l.text ++ [10])

section Blanks

variable (isBlank : UInt8 → Bool)

/-- The first and the last character are not blank. -/
structure Trimmed (s : List UInt8) : Prop where
  head : ∀ c, s.head? = some c → isBlank c = false
  last : ∀ c, s.getLast? = some c → isBlank c = false

/-- No line end and no NUL. -/
structure Plain (s : List UInt8) : Prop where
  line : 10 ∉ s
  nul : 0 ∉ s

structure KeyOk (k : List UInt8) : Prop where
  ne : k ≠ []
  trimmed : Trimmed isBlank k
  plain : Plain k
  eq : 61 ∉ k
  head : k.head? ≠ some 35 ∧ k.head? ≠ some 91

structure ValueOk (v : List UInt8) : Prop where
  ne : v ≠ []
  trimmed : Trimmed isBlank v
  plain : Plain v

/-- A name whose header fits a line. -/
structure SectionOk (name : List UInt8) : Prop where
  ne : name ≠ []
  plain : Plain name
  bracket : 93 ∉ name
  short : name.length+2 < 255

/-- Blanks inside a line. -/
def Pad (s : List UInt8) : Prop := ∀ c ∈ s, isBlank c = true ∧ c ≠ 10

/-- The key and the value fit a line of fewer than 255 characters. -/
structure EntryOk (k v : List UInt8) : Prop where
  key : KeyOk isBlank k
  value : ValueOk isBlank v
  short : k.length+1+v.length < 255

def LineOk : Line → Prop
  | .header name rest => SectionOk name ∧ Plain rest
  | .entry a k b c v d => KeyOk isBlank k ∧ ValueOk isBlank v ∧ Pad isBlank a ∧ Pad isBlank b ∧
    Pad isBlank c ∧ Pad isBlank d
  | .other s => Plain s ∧ (s.head? = some 35 ∨ (61 ∉ s ∧ s.head? ≠ some 91))

/-- A line in a file. -/
structure WellFormed (l : Line) : Prop where
  ok : LineOk isBlank l
  short : l.text.length < 255

/-- The file holds the values `m`; the last line may go without its line end. -/
def Holds (content : List UInt8) (m : Values) : Prop := ∃ lines, (∀ l ∈ lines, WellFormed isBlank l) ∧
  held lines = m ∧ (content = fileText lines ∨
    ∃ l init, lines = init ++ [l] ∧ l.text ≠ [] ∧ content = fileText init ++ l.text)

end Blanks

section Fold

theorem withValue_self (m : Values) (sec key val : List UInt8) :
    withValue m sec key val sec key = some val :=
  if_pos ⟨rfl, rfl⟩

/-- The lines of a section as they are printed. -/
def sectionLines (name : List UInt8) (entries : List (List UInt8 × List UInt8)) : List Line :=
  .header name [] :: entries.map (fun e => .entry [] e.1 [] [] e.2 []) ++ [.other []]

theorem foldl_entries (entries : List (List UInt8 × List UInt8)) (name : List UInt8) (m : Values)
    (hnodup : (entries.map Prod.fst).Nodup) :
    ∃ m', (entries.map (fun e => Line.entry [] e.1 [] [] e.2 [])).foldl Reading.line (some name, m) =
      (some name, m') ∧ (∀ s k, s ≠ name → m' s k = m s k) ∧
      (∀ k v, (k, v) ∈ entries → m' name k = some v) ∧
      (∀ k, k ∉ entries.map Prod.fst → m' name k = m name k) := by
  induction entries generalizing m with
  | nil => exact ⟨m, rfl, fun _ _ _ => rfl, by simp, fun _ _ => rfl⟩
  | cons e entries ih =>
    rw [List.map_cons, List.nodup_cons] at hnodup
    obtain ⟨m', hfold, hother, hmem, hout⟩ := ih (withValue m name e.1 e.2) hnodup.2
    refine ⟨m', hfold, ?_, ?_, ?_⟩
    · intro s k hs
      rw [hother s k hs]
      exact if_neg (fun h => hs h.1)
    · intro k v hkv
      rcases List.mem_cons.mp hkv with heq | hin
      · obtain ⟨rfl, rfl⟩ : k = e.1 ∧ v = e.2 := by
          rw [← heq]
          exact ⟨rfl, rfl⟩
        rw [hout e.1 hnodup.1]
        exact withValue_self _ _ _ _
      · exact hmem k v hin
    · intro k hk
      rw [List.map_cons, List.mem_cons, not_or] at hk
      rw [hout k hk.2]
      exact if_neg (fun h => hk.1 h.2)

end Fold

end Leviathan.Ini
