import Leviathan.DateTimeRead
import Leviathan.LogRotation

/-! The names of a logger's files: what they show of the time, that a file put away does not get the
name of a current one, and what the filter of `checkDeleteProc` makes of them. -/
namespace Leviathan.LogRotation

open CFileUtil (g_s)

section Names

variable (c : LogConfig) (a b : STTodayTime)

/-- The part of the time that the name of a file shows. -/
def fileKey : ℕ ×ₗ ℕ :=
  match c.logType with
  | .daily => toLex (a.date, 0)
  | .hourly => toLex (a.date, a.hour)
  | .file => toLex (0, 0)

end Names

section Filter

variable (gmtime : ℕ → DateTime.STDTime) (addr : ℕ → ℤ)

/-- A path that the filter takes as one word. -/
def OneWord (name : List Char) : Prop :=
  ∃ b bytes, (toCString name).chars = b :: bytes ∧ FileFilter.isBlank b = false ∧
    FileFilter.CH_DELIMITER ∉ b :: bytes

theorem OneWord.words {name : List Char} (h : OneWord name) :
    FileFilter.words (toCString name).chars = [(toCString name).chars] := by
  obtain ⟨b, bytes, hchars, hblank, hno⟩ := h
  rw [hchars, FileFilter.words_last _ hno (List.cons_ne_nil _ _),
    List.dropWhile_cons_of_neg (by rw [hblank]; decide)]

end Filter

end Leviathan.LogRotation
