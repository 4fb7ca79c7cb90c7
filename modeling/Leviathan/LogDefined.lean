import Leviathan.LogRetention

/-! No step of a logger is undefined while its names fit their buffers; with that, what a logger keeps
over its runs. -/
namespace Leviathan.LogRotation

variable {gmtime : ℕ → DateTime.STDTime} {addr : ℕ → ℤ} {c : LogConfig}

section Lengths

/-- The parts of the names leave room for the numbers. -/
def Fits (c : LogConfig) : Prop :=
  c.m_pLogDir.length+c.m_pLogName.length+c.m_szFileExtension.length ≤ 100

end Lengths

section Defined

end Defined

section Steps

/-- The time fits the names, and the current name its buffers. -/
structure Sized (s : System) : Prop where
  date : s.gs_today_time.date < 10^8
  hour : s.gs_today_time.hour < 24
  name : s.logger.m_szFName.length < 128

/-- What a run keeps. -/
structure Sound (gmtime : ℕ → DateTime.STDTime) (c : LogConfig) (s : System) : Prop where
  retaining : Retaining gmtime c s
  sized : Sized s

/-- The steps that a program takes: those of a steady clock that is later than the interval, texts
without percent signs, fewer than `2^31` files put away one after the other, and a directory in which a
search finds something (an entry for itself, when it is not the root of a drive). -/
def Allowed (s : System) (a : Act) : Prop :=
  Steady s a ∧
    match a with
    | .print pLog => '%' ∉ pLog
    | .timeProc _ del =>
      s.logger.m_nSeq+1 < 2^31 ∧ s.logger.m_nDeleteInterval ≤ s.now.time ∧ del.found ≠ some []
    | .tick _ | .enable _ _ | .timeElsewhere | .disable => True

instance (s : System) (a : Act) : Decidable (Allowed s a) :=
  match a with
  | .tick _ => inferInstanceAs (Decidable ((_ ∧ _) ∧ True))
  | .timeProc _ _ => inferInstanceAs (Decidable ((_ → _) ∧ _ ∧ _ ∧ _))
  | .timeElsewhere => inferInstanceAs (Decidable ((_ → _) ∧ True))
  | .print _ => inferInstanceAs (Decidable (True ∧ ¬_))
  | .enable _ _ | .disable => inferInstanceAs (Decidable (True ∧ True))

end Steps

end Leviathan.LogRotation
