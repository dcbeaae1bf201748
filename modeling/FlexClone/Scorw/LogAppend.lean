import FlexClone.Scorw.VersionCache

/-!
# Appending to the log through the page cache

`write_offset_log` asks `scorw_get_page` for the page with the end of the log and copies
the record into it. A page that has left memory is not read again: the file ends in it, so
it is taken for a new one and cleared, and the records it had are zeros from then on. When
there is no page to be had the record is dropped, and the caller is not told.

`appendRecord` is the append to a page in memory. `writeOffsetLogs_of_ready`: the records
of a call come to be appended like that when every fetch finds its page in memory, or the
log ends on a page boundary.
-/

namespace FlexClone.Scorw

/-- How `scorw_get_page` comes by the page with the end of the log. -/
inductive LogFetch
  /-- it is in memory and up to date -/
  | cached
  /-- it is not in memory, and a cleared page takes its place -/
  | cleared
  /-- no page can be had -/
  | failed
  deriving DecidableEq

/-- A record of zeros. -/
def LogRecord.zero : LogRecord := ⟨0, 0, 0, 0⟩

/-- The log once the page with its end is cleared. -/
def clearLastPage (log : List LogRecord) : List LogRecord :=
  log.take (log.length / recordsPerPage * recordsPerPage) ++
    List.replicate (log.length % recordsPerPage) .zero

/-- `write_offset_log` at the end of the log. -/
def writeOffsetLog (fetch : LogFetch) (log : List LogRecord) (r : LogRecord) : List LogRecord :=
  match fetch with
  | .cached => log ++ [r]
  | .cleared => clearLastPage log ++ [r]
  | .failed => log

/-- The records of a call, one after the other. An exhausted list of fetches finds the page
in memory. -/
def writeOffsetLogs : List LogFetch → List LogRecord → List LogRecord → List LogRecord
  | _, log, [] => log
  | fetches, log, r :: records =>
      writeOffsetLogs fetches.tail (writeOffsetLog (fetches.headD .cached) log r) records

/-- The records `log'` has behind those of `log` are handed to `write_offset_log`. -/
def relog (fetches : List LogFetch) (log log' : List LogRecord) : List LogRecord :=
  writeOffsetLogs fetches log (log'.drop log.length)

/-- The fetches, made on a log of `n` records and more, find their page in memory or begin a
new one. -/
def Fetched : List LogFetch → Nat → Prop
  | [], _ => True
  | fetch :: fetches, n =>
      (fetch = .cached ∨ fetch = .cleared ∧ n % recordsPerPage = 0) ∧ Fetched fetches (n + 1)

instance : (fetches : List LogFetch) → (n : Nat) → Decidable (Fetched fetches n)
  | [], _ => inferInstanceAs (Decidable True)
  | _ :: fetches, n =>
      have := instDecidableFetched fetches (n + 1)
      inferInstanceAs (Decidable (_ ∧ _))

section Ready

variable {fetches : List LogFetch} {log log' : List LogRecord}

theorem clearLastPage_of_boundary (boundary : log.length % recordsPerPage = 0) :
    clearLastPage log = log := by
  have whole : log.length / recordsPerPage * recordsPerPage = log.length :=
    Nat.div_mul_cancel (Nat.dvd_of_mod_eq_zero boundary)
  unfold clearLastPage
  rw [boundary, whole, List.take_length]
  exact List.append_nil log

theorem writeOffsetLogs_of_ready (ready : Fetched fetches log.length)
    (records : List LogRecord) : writeOffsetLogs fetches log records = log ++ records := by
  induction records generalizing fetches log with
  | nil => exact (List.append_nil log).symm
  | cons r records ih =>
      have length : (log ++ [r]).length = log.length + 1 := List.length_append
      cases fetches with
      | nil =>
          have rest : Fetched [] (log ++ [r]).length := trivial
          exact (ih rest).trans (List.append_assoc log [r] records)
      | cons fetch fetches =>
          obtain ⟨found, rest⟩ := ready
          have here : writeOffsetLog fetch log r = log ++ [r] := by
            rcases found with rfl | ⟨rfl, boundary⟩
            · rfl
            · exact congrArg (· ++ [r]) (clearLastPage_of_boundary boundary)
          unfold writeOffsetLogs
          rw [List.headD_cons, List.tail_cons, here, ih (length ▸ rest), List.append_assoc]
          rfl

/-- Then the log is the one `appendRecord` makes. -/
theorem relog_of_ready (ready : Fetched fetches log.length) (grown : log <+: log') :
    relog fetches log log' = log' := by
  obtain ⟨records, rfl⟩ := grown
  unfold relog
  rw [List.drop_left, writeOffsetLogs_of_ready ready]

end Ready

end FlexClone.Scorw
