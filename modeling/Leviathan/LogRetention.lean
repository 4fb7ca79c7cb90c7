import Leviathan.LogKept
import Leviathan.LogNames

/-! A logger that deletes old files keeps every text for the time that it has been told to: what is
deleted was last written to before that. -/
namespace Leviathan

namespace CFileTime

end CFileTime

namespace LogRotation

section Listed

variable {gmtime : ℕ → DateTime.STDTime}

/-- The records are of other files than the current one, and each shows a time at or after the last
write to its file. -/
structure Listed (gmtime : ℕ → DateTime.STDTime) (d : Disk) (current : List Char)
    (pList : List STFileInfoEx) : Prop where
  nodup : (pList.map STFileInfoEx.fname).Nodup
  other : ∀ r ∈ pList, r.fname ≠ current
  dated : ∀ r ∈ pList, ∃ i time x, d.file r.fname = some i ∧ d.time i ≤ time ∧ time < endOfTime ∧
    CFileTime.setFileTime (gmtime time) = .ok x ∧ x.1 = r.stFileTime

-- Other names, and the files that have no record, may change.
theorem Listed.of_eq {d d' : Disk} {current current' : List Char} {pList : List STFileInfoEx}
    (h : Listed gmtime d current pList) (hother : ∀ r ∈ pList, r.fname ≠ current')
    (hfile : ∀ r ∈ pList, d'.file r.fname = d.file r.fname)
    (htime : ∀ r ∈ pList, ∀ i, d.file r.fname = some i → d'.time i = d.time i) :
    Listed gmtime d' current' pList := by
  refine ⟨h.nodup, hother, fun r hr => ?_⟩
  obtain ⟨i, time, x, hi, hle, hlt, hx⟩ := h.dated r hr
  exact ⟨i, time, x, (hfile r hr).trans hi, by rwa [htime r hr i hi], hlt, hx⟩

theorem Listed.tail {d : Disk} {current : List Char} {r : STFileInfoEx} {pList : List STFileInfoEx}
    (h : Listed gmtime d current (r :: pList)) :
    r.fname ∉ pList.map STFileInfoEx.fname ∧ Listed gmtime d current pList := by
  obtain ⟨hr, hnodup⟩ := List.nodup_cons.mp h.nodup
  exact ⟨hr, hnodup, fun q hq => h.other q (List.mem_cons_of_mem _ hq),
    fun q hq => h.dated q (List.mem_cons_of_mem _ hq)⟩

end Listed

section Retaining

variable {gmtime : ℕ → DateTime.STDTime} {addr : ℕ → ℤ} {c : LogConfig}

/-- The records of `m_pLogFileListForDelete`. -/
def records (s : System) : List STFileInfoEx := s.logger.pList.getD []

/-- The current file has the name of a time that no other such name is behind. -/
def Newest (c : LogConfig) (today : STTodayTime) (d : Disk) (current : List Char) : Prop :=
  ∃ opened, current = fileName c opened ∧ fileKey c opened ≤ fileKey c today ∧
    ∀ b, d.file (fileName c b) ≠ none → fileKey c b ≤ fileKey c opened

/-- The day and the hour, the day first. -/
def dayHour (date hour : ℕ) : ℕ ×ₗ ℕ := toLex (date, hour)

/-- What the steps keep. -/
structure Retaining (gmtime : ℕ → DateTime.STDTime) (c : LogConfig) (s : System) : Prop where
  config : s.logger.toLogConfig = c
  held : Held s
  newest : Newest c s.gs_today_time s.disk s.logger.m_szFName
  today : dayHour s.gs_today_time.date s.gs_today_time.hour ≤ dayHour s.now.date s.now.hour
  listed : Listed gmtime s.disk s.logger.m_szFName (records s)
  time : ∀ i, s.disk.Named i → s.disk.time i ≤ s.now.time
  printed : ∀ p ∈ s.printed, p.time ≤ s.now.time ∧
    (s.now.time < p.time+c.m_nDeleteInterval → s.disk.Named p.file ∧ p.time ≤ s.disk.time p.file)

/-- The clock does not go back, and a writer thread that has slept does not take the same day of another
month for the day it knows. -/
def Steady (s : System) : Act → Prop
  | .tick now => s.now.time ≤ now.time ∧
      dayHour s.now.date s.now.hour ≤ dayHour now.date now.hour
  | .timeProc _ _ | .timeElsewhere => s.now.mday = s.gs_today_time.mday →
      s.now.date = s.gs_today_time.date
  | .enable _ _ | .print _ | .disable => True

end Retaining

end LogRotation

end Leviathan
