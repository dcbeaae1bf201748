import FlexClone.Loop
import FlexClone.Scorw.Gc
import FlexClone.Scorw.Recovery

/-!
# The scans of the log, byte by byte

`scorw_truncate_log_to_version`, `scorw_replay_log_version` and `scorw_gc_blocks` walk
the log with the same two loops: over its pages, as long as the offset is below the
size of the file in bytes, and in a page over its records, as long as a whole one is
left. The offset only advances in the inner loop. Only the first of them leaves the
outer loop at a fragment of a record at the end of the file.

* `returns_of_scan`: what a scan computes when it ends, by the records alone. So the
  functions of the log as a list of records are what the loops compute.
* `log_scans_terminate_iff`: all three end and visit every whole record in order,
  exactly when the size of the file is a multiple of the size of a record.
-/

namespace FlexClone.Scorw

/-- `sizeof(struct scorw_log_record)` -/
def recordSize : Nat := 32

/-- The log as a file: its size in bytes, and the record at every multiple of the size of
a record. -/
structure LogFile where
  size : Nat
  record : Nat → LogRecord

/-- The records that lie in the file as a whole. -/
def LogFile.wholeRecords (f : LogFile) : List LogRecord :=
  (List.range (f.size / recordSize)).map f.record

/-- What a scan does with a record, and at a fragment behind the last one. -/
structure Scanner (σ : Type*) where
  /-- the body of the inner loop; `none` leaves both loops -/
  body : σ → LogRecord → Option σ
  leavesAtFragment : Bool

/-- The variables of a scan. `visited` is not in the program: it is the list of the
records that have been passed. -/
structure ScanState (σ : Type*) where
  offset : Nat
  visited : List LogRecord
  vars : σ

def ScanState.start {σ : Type*} (vars : σ) : ScanState σ := ⟨0, [], vars⟩

variable {σ : Type*}

/-- The inner loop, over the records of a page: it ends with the bytes that are left, or
leaves the scan. -/
def recordLoop (sc : Scanner σ) (f : LogFile) (bytesToRead : Nat) (s : ScanState σ) :
    (Nat × ScanState σ) ⊕ ScanState σ :=
  if recordSize ≤ bytesToRead then
    let record := f.record (s.offset / recordSize)
    match sc.body s.vars record with
    | none => .inr s
    | some vars =>
        recordLoop sc f (bytesToRead - recordSize)
          ⟨s.offset + recordSize, s.visited ++ [record], vars⟩
  else .inl (bytesToRead, s)
termination_by bytesToRead
decreasing_by
  unfold recordSize at *
  omega

/-- One pass of the outer loop, over the pages. -/
def pagePass (readPage : Nat → Bool) (sc : Scanner σ) (f : LogFile) (s : ScanState σ) :
    ScanState σ ⊕ ScanState σ :=
  if s.offset < f.size then
    if readPage (s.offset / pageSize) then
      match recordLoop sc f (min (pageSize - s.offset % pageSize) (f.size - s.offset)) s with
      | .inr s => .inr s
      | .inl (bytesLeft, s) =>
          if sc.leavesAtFragment = true ∧ 0 < bytesLeft ∧ f.size ≤ s.offset + bytesLeft then .inr s
          else .inl s
    else .inr s
  else .inr s

/-- The scan of `scorw_truncate_log_to_version`, which counts `valid_size`. -/
def truncateScanner (version : Nat) : Scanner Nat where
  body := fun validSize r =>
    if version < r.versionNum then none else some (validSize + recordSize)
  leavesAtFragment := true

/-- The scan of `scorw_replay_log_version`, which fills the map of a version. -/
def replayScanner (targetVersion : Nat) : Scanner DeltaMap where
  body := fun m r => some (replayRecord targetVersion m r)
  leavesAtFragment := false

/-- The scan of `scorw_gc_blocks`. -/
def gcScanner (activeVers : List Nat) : Scanner GcState where
  body := fun st r => some (gcRecord activeVers st r)
  leavesAtFragment := false

/-! ## A scan by its records -/

/-- The records a body passes one after the other, what it makes of them, and whether it
left before the end. -/
def feed (body : σ → LogRecord → Option σ) : List LogRecord → σ → List LogRecord × σ × Bool
  | [], vars => ([], vars, false)
  | r :: rs, vars =>
      match body vars r with
      | none => ([], vars, true)
      | some vars =>
          let rest := feed body rs vars
          (r :: rest.1, rest.2)

theorem feed_append (body : σ → LogRecord → Option σ) (rs ts : List LogRecord) (vars : σ) :
    feed body (rs ++ ts) vars =
      if (feed body rs vars).2.2 = true then feed body rs vars
      else
        ((feed body rs vars).1 ++ (feed body ts (feed body rs vars).2.1).1,
          (feed body ts (feed body rs vars).2.1).2) := by
  induction rs generalizing vars with
  | nil => rfl
  | cons r rs ih =>
      rw [List.cons_append, feed, feed]
      cases body vars r with
      | none => rfl
      | some vars =>
          dsimp only
          rw [ih]
          split <;> rfl

/-- A scan that has gone through the records `rs`, up to `offset`. -/
def ScanState.after (s : ScanState σ) (body : σ → LogRecord → Option σ) (rs : List LogRecord)
    (offset : Nat) : ScanState σ :=
  ⟨offset, s.visited ++ (feed body rs s.vars).1, (feed body rs s.vars).2.1⟩

section After

variable {s : ScanState σ} {body : σ → LogRecord → Option σ} {rs : List LogRecord}

theorem ScanState.after_nil (s : ScanState σ) (body : σ → LogRecord → Option σ) :
    s.after body [] s.offset = s := by
  unfold after
  simp only [feed, List.append_nil]

theorem ScanState.after_append_of_left (left : (feed body rs s.vars).2.2 = true)
    (ts : List LogRecord) (offset : Nat) :
    s.after body (rs ++ ts) offset = s.after body rs offset := by
  unfold after
  rw [feed_append, if_pos left]

theorem ScanState.after_append (passed : ¬ (feed body rs s.vars).2.2 = true) (between : Nat)
    (ts : List LogRecord) (offset : Nat) :
    s.after body (rs ++ ts) offset = (s.after body rs between).after body ts offset := by
  unfold after
  rw [feed_append, if_neg passed]
  simp only [List.append_assoc]

end After

/-- The records from the `k`-th on, `count` of them. -/
def LogFile.recordsFrom (f : LogFile) (k count : Nat) : List LogRecord :=
  (List.range' k count).map f.record

theorem LogFile.wholeRecords_eq (f : LogFile) :
    f.wholeRecords = f.recordsFrom 0 (f.size / recordSize) := by
  unfold wholeRecords recordsFrom
  rw [List.range_eq_range']

theorem LogFile.recordsFrom_append (f : LogFile) (k m n : Nat) :
    f.recordsFrom k m ++ f.recordsFrom (k + m) n = f.recordsFrom k (m + n) := by
  unfold recordsFrom
  rw [← List.map_append, List.range'_append_1]

theorem LogFile.recordsFrom_succ (f : LogFile) (k count : Nat) :
    f.recordsFrom k (count + 1) = f.record k :: f.recordsFrom (k + 1) count := by
  unfold recordsFrom
  rw [List.range'_succ, List.map_cons]

/-- The inner loop by the records it has bytes for. The induction is on their number. -/
theorem recordLoop_eq (sc : Scanner σ) (f : LogFile) {count bytesToRead k : Nat}
    {s : ScanState σ} (whole : bytesToRead / recordSize = count)
    (place : s.offset = recordSize * k) :
    recordLoop sc f bytesToRead s =
      if (feed sc.body (f.recordsFrom k count) s.vars).2.2 = true then
        .inr (s.after sc.body (f.recordsFrom k count)
          (recordSize * (k + (feed sc.body (f.recordsFrom k count) s.vars).1.length)))
      else
        .inl (bytesToRead % recordSize,
          s.after sc.body (f.recordsFrom k count) (recordSize * (k + count))) := by
  obtain ⟨offset, visited, vars⟩ := s
  dsimp only at place
  subst place
  unfold ScanState.after
  induction count generalizing bytesToRead k visited vars with
  | zero =>
      have short : bytesToRead < recordSize := by
        unfold recordSize at *
        omega
      have empty : f.recordsFrom k 0 = [] := rfl
      rw [recordLoop, if_neg (Nat.not_le.mpr short), empty, Nat.mod_eq_of_lt short]
      simp only [feed, Bool.false_eq_true, if_false, List.append_nil, Nat.add_zero]
  | succ count ih =>
      have long : recordSize ≤ bytesToRead := by
        unfold recordSize at *
        omega
      have rest : (bytesToRead - recordSize) / recordSize = count := by
        unfold recordSize at *
        omega
      have fragment : (bytesToRead - recordSize) % recordSize = bytesToRead % recordSize := by
        unfold recordSize at *
        omega
      have here : recordSize * k / recordSize = k := Nat.mul_div_cancel_left k (by decide)
      rw [recordLoop, if_pos long, LogFile.recordsFrom_succ, feed]
      dsimp only
      rw [here]
      cases sc.body vars (f.record k) with
      | none => simp only [if_true, List.append_nil, List.length_nil, Nat.add_zero]
      | some vars =>
          have next := ih rest (k := k + 1) (visited ++ [f.record k]) vars
          rw [Nat.mul_succ] at next
          dsimp only at next ⊢
          rw [next, fragment]
          simp only [List.append_assoc, List.singleton_append, List.length_cons]
          have order (n : Nat) : k + 1 + n = k + (n + 1) := by omega
          rw [order, order]

/-! ## One page -/

/-- The number of records one pass of the outer loop has bytes for. -/
def LogFile.recordsAt (f : LogFile) (k : Nat) : Nat :=
  min (pageSize - recordSize * k % pageSize) (f.size - recordSize * k) / recordSize

/-- The fragment that is left on the page behind them. -/
def LogFile.fragmentAt (f : LogFile) (k : Nat) : Nat :=
  min (pageSize - recordSize * k % pageSize) (f.size - recordSize * k) % recordSize

section Page

variable {f : LogFile} {k : Nat}

theorem LogFile.recordsAt_le (f : LogFile) (k : Nat) :
    f.recordsAt k ≤ f.size / recordSize - k := by
  unfold recordsAt pageSize recordSize
  omega

theorem LogFile.recordsAt_pos (before : k < f.size / recordSize) : 0 < f.recordsAt k := by
  unfold recordsAt pageSize
  unfold recordSize at *
  omega

/-- Pages end with a whole record, so a fragment is the end of the file. -/
theorem LogFile.fragmentAt_pos (inside : recordSize * k < f.size) (some : 0 < f.fragmentAt k) :
    f.size = recordSize * (k + f.recordsAt k) + f.fragmentAt k := by
  unfold recordsAt fragmentAt pageSize recordSize at *
  omega

/-- Behind the last whole record there is only a fragment. -/
theorem LogFile.fragmentAt_last (inside : recordSize * k < f.size)
    (last : f.size / recordSize ≤ k) : f.recordsAt k = 0 ∧ 0 < f.fragmentAt k := by
  unfold recordsAt fragmentAt pageSize
  unfold recordSize at *
  omega

/-- A pass over a page comes to a record or to a fragment. -/
theorem LogFile.recordsAt_pos_or (inside : recordSize * k < f.size) :
    0 < f.recordsAt k ∨ 0 < f.fragmentAt k := by
  rcases Nat.lt_or_ge k (f.size / recordSize) with before | last
  · exact .inl (recordsAt_pos before)
  · exact .inr (fragmentAt_last inside last).2

theorem LogFile.fragmentAt_of_dvd (whole : recordSize ∣ f.size)
    (inside : recordSize * k < f.size) : f.fragmentAt k = 0 := by
  by_contra some
  have size := fragmentAt_pos inside (Nat.pos_of_ne_zero some)
  have small : f.fragmentAt k < recordSize := Nat.mod_lt _ (by decide)
  unfold recordSize at *
  omega

/-- Behind a fragment there is no record. -/
theorem LogFile.none_behind_fragment (inside : recordSize * k < f.size)
    (some : 0 < f.fragmentAt k) : f.size / recordSize - (k + f.recordsAt k) = 0 := by
  have size := fragmentAt_pos inside some
  have small : f.fragmentAt k < recordSize := Nat.mod_lt _ (by decide)
  unfold recordSize at *
  omega

theorem LogFile.page_of_record {i : Nat} (inside : i < f.recordsAt k) :
    (k + i) / recordsPerPage = recordSize * k / pageSize := by
  unfold recordsPerPage
  unfold recordsAt pageSize recordSize at *
  omega

theorem LogFile.length_recordsFrom (f : LogFile) (k count : Nat) :
    (f.recordsFrom k count).length = count := by
  unfold recordsFrom
  rw [List.length_map, List.length_range']

/-- What is left to scan at a page that can be read, and at one that cannot. -/
theorem LogFile.scanFrom_readable {readPage : Nat → Bool}
    (readable : readPage (recordSize * k / pageSize) = true) :
    scanFrom readPage k (f.recordsFrom k (f.size / recordSize - k)) =
      f.recordsFrom k (f.recordsAt k) ++ scanFrom readPage (k + f.recordsAt k)
        (f.recordsFrom (k + f.recordsAt k) (f.size / recordSize - (k + f.recordsAt k))) := by
  have fits := f.recordsAt_le k
  have count : f.size / recordSize - k =
      f.recordsAt k + (f.size / recordSize - (k + f.recordsAt k)) := by omega
  rw [count, ← f.recordsFrom_append, scanFrom_append, f.length_recordsFrom]
  intro i lt
  rw [f.length_recordsFrom] at lt
  rw [page_of_record lt]
  exact readable

theorem LogFile.scanFrom_unreadable {readPage : Nat → Bool}
    (unreadable : ¬ readPage (recordSize * k / pageSize) = true) (count : Nat) :
    scanFrom readPage k (f.recordsFrom k count) = [] := by
  cases count with
  | zero => rfl
  | succ count =>
      have page : k / recordsPerPage = recordSize * k / pageSize := by
        unfold recordsPerPage pageSize recordSize
        omega
      rw [recordsFrom_succ, scanFrom, page, if_neg unreadable]

/-- One pass of the outer loop on a page that can be read. -/
theorem pagePass_eq {readPage : Nat → Bool} (sc : Scanner σ) {s : ScanState σ}
    (place : s.offset = recordSize * k) (inside : s.offset < f.size)
    (readable : readPage (s.offset / pageSize) = true) :
    pagePass readPage sc f s =
      if (feed sc.body (f.recordsFrom k (f.recordsAt k)) s.vars).2.2 = true then
        .inr (s.after sc.body (f.recordsFrom k (f.recordsAt k)) (recordSize *
          (k + (feed sc.body (f.recordsFrom k (f.recordsAt k)) s.vars).1.length)))
      else if sc.leavesAtFragment = true ∧ 0 < f.fragmentAt k then
        .inr (s.after sc.body (f.recordsFrom k (f.recordsAt k))
          (recordSize * (k + f.recordsAt k)))
      else
        .inl (s.after sc.body (f.recordsFrom k (f.recordsAt k))
          (recordSize * (k + f.recordsAt k))) := by
  have bytes : min (pageSize - s.offset % pageSize) (f.size - s.offset) / recordSize =
      f.recordsAt k := by
    rw [place]
    rfl
  have fragment : min (pageSize - s.offset % pageSize) (f.size - s.offset) % recordSize =
      f.fragmentAt k := by
    rw [place]
    rfl
  have atEnd : 0 < f.fragmentAt k ∧
      f.size ≤ recordSize * (k + f.recordsAt k) + f.fragmentAt k ↔ 0 < f.fragmentAt k := by
    refine ⟨And.left, fun some => ⟨some, ?_⟩⟩
    rw [place] at inside
    exact (LogFile.fragmentAt_pos inside some).le
  unfold pagePass
  rw [if_pos inside, if_pos readable, recordLoop_eq sc f bytes place, fragment]
  by_cases stopped : (feed sc.body (f.recordsFrom k (f.recordsAt k)) s.vars).2.2 = true
  · rw [if_pos stopped, if_pos stopped]
  · rw [if_neg stopped, if_neg stopped]
    simp only [ScanState.after, atEnd]

end Page

/-! ## Whole scans -/

section Scan

variable {readPage : Nat → Bool} {f : LogFile}

/-- A scan that leaves at a fragment, or that finds none, ends; it has then passed what
the body lets it pass of the records on readable pages. The induction is on the number
of whole records that are left. -/
theorem returns_of_scan (readPage : Nat → Bool) {sc : Scanner σ}
    (ends : sc.leavesAtFragment = true ∨ recordSize ∣ f.size)
    {k : Nat} {s : ScanState σ} (place : s.offset = recordSize * k)
    (reached : k ≤ f.size / recordSize) :
    ∃ offset, Loop.Returns (pagePass readPage sc f) s (s.after sc.body
      (scanFrom readPage k (f.recordsFrom k (f.size / recordSize - k))) offset) := by
  induction left : f.size / recordSize - k using Nat.strong_induction_on generalizing k s with
  | _ left ih =>
  subst left
  by_cases inside : s.offset < f.size
  · have within := place ▸ inside
    by_cases readable : readPage (s.offset / pageSize) = true
    · have step := pagePass_eq sc place inside readable
      rw [LogFile.scanFrom_readable (place ▸ readable)]
      by_cases stopped : (feed sc.body (f.recordsFrom k (f.recordsAt k)) s.vars).2.2 = true
      · rw [if_pos stopped] at step
        simp only [ScanState.after_append_of_left stopped]
        exact ⟨_, (Loop.returns_iff_of_inr step).mpr rfl⟩
      · rw [if_neg stopped] at step
        simp only [ScanState.after_append stopped (recordSize * (k + f.recordsAt k))]
        by_cases fragment : sc.leavesAtFragment = true ∧ 0 < f.fragmentAt k
        · rw [if_pos fragment] at step
          refine ⟨recordSize * (k + f.recordsAt k), (Loop.returns_iff_of_inr step).mpr ?_⟩
          rw [LogFile.none_behind_fragment within fragment.2]
          exact (ScanState.after_nil _ _).symm
        · rw [if_neg fragment] at step
          have some : 0 < f.recordsAt k := by
            refine (LogFile.recordsAt_pos_or within).resolve_right fun rest => ?_
            rcases ends with leaving | whole
            · exact fragment ⟨leaving, rest⟩
            · exact rest.ne' (LogFile.fragmentAt_of_dvd whole within)
          have fits := f.recordsAt_le k
          obtain ⟨offset, returns⟩ := ih (f.size / recordSize - (k + f.recordsAt k)) (by omega)
            (s := s.after sc.body (f.recordsFrom k (f.recordsAt k))
              (recordSize * (k + f.recordsAt k))) rfl (by omega) rfl
          exact ⟨offset, (Loop.returns_iff_of_inl step).mpr returns⟩
    · have leaves : pagePass readPage sc f s = .inr s := by
        unfold pagePass
        rw [if_pos inside, if_neg readable]
      rw [LogFile.scanFrom_unreadable (place ▸ readable)]
      exact ⟨s.offset, (Loop.returns_iff_of_inr leaves).mpr (s.after_nil _).symm⟩
  · have last : f.size / recordSize - k = 0 := by
      rw [place] at inside
      unfold recordSize at *
      omega
    rw [last]
    have leaves : pagePass readPage sc f s = .inr s := if_neg inside
    exact ⟨s.offset, (Loop.returns_iff_of_inr leaves).mpr (s.after_nil _).symm⟩

/-- A scan that passes every record and does not leave at a fragment never ends when there
is one. -/
theorem not_returns_of_fragment {sc : Scanner σ} (readable : ∀ p, readPage p = true)
    (stays : sc.leavesAtFragment = false) (fragment : ¬ recordSize ∣ f.size)
    (passes : ∀ rs vars, (feed sc.body rs vars).2.2 = false) {k : Nat} {s r : ScanState σ}
    (place : s.offset = recordSize * k) (reached : k ≤ f.size / recordSize) :
    ¬ Loop.Returns (pagePass readPage sc f) s r := by
  induction left : f.size / recordSize - k using Nat.strong_induction_on generalizing k s with
  | _ left ih =>
  subst left
  have inside : s.offset < f.size := by
    rw [place]
    unfold recordSize at *
    omega
  have step := pagePass_eq sc place inside (readable _)
  have passed : ¬ (feed sc.body (f.recordsFrom k (f.recordsAt k)) s.vars).2.2 = true := by
    rw [passes]
    exact Bool.noConfusion
  have goesOn : ¬ (sc.leavesAtFragment = true ∧ 0 < f.fragmentAt k) := by
    rw [stays]
    exact fun both => Bool.noConfusion both.1
  rw [if_neg passed, if_neg goesOn] at step
  have fits := f.recordsAt_le k
  by_cases some : 0 < f.recordsAt k
  · rw [Loop.returns_iff_of_inl step]
    exact ih (f.size / recordSize - (k + f.recordsAt k)) (by omega) rfl (by omega) rfl
  · -- no record is left, and the pass changes nothing
    have none : f.recordsAt k = 0 := Nat.eq_zero_of_not_pos some
    have empty : f.recordsFrom k 0 = [] := rfl
    rw [none, empty, Nat.add_zero, ← place, s.after_nil] at step
    exact Loop.not_returns_of_stuck step

/-- A body that never leaves passes every record. -/
theorem feed_of_total (body : σ → LogRecord → σ) (rs : List LogRecord) (vars : σ) :
    feed (fun vars r => some (body vars r)) rs vars = (rs, rs.foldl body vars, false) := by
  induction rs generalizing vars with
  | nil => rfl
  | cons r rs ih =>
      rw [feed]
      dsimp only
      rw [ih]
      rfl

/-- Cutting the log passes the records up to the first one from the future, and counts
their bytes. -/
theorem feed_truncateScanner (version : Nat) (rs : List LogRecord) (validSize : Nat) :
    (feed (truncateScanner version).body rs validSize).1 =
        rs.takeWhile (fun r => decide (r.versionNum ≤ version)) ∧
      (feed (truncateScanner version).body rs validSize).2.1 = validSize +
        recordSize * (rs.takeWhile fun r => decide (r.versionNum ≤ version)).length := by
  induction rs generalizing validSize with
  | nil => exact ⟨rfl, rfl⟩
  | cons r rs ih =>
      rw [feed, List.takeWhile_cons]
      by_cases future : version < r.versionNum
      · have body : (truncateScanner version).body validSize r = none := if_pos future
        have cut : ¬ decide (r.versionNum ≤ version) = true := by
          rw [decide_eq_true_eq]
          omega
        rw [body, if_neg cut]
        exact ⟨rfl, rfl⟩
      · have body : (truncateScanner version).body validSize r =
            some (validSize + recordSize) := if_neg future
        have passed : decide (r.versionNum ≤ version) = true := decide_eq_true (by omega)
        obtain ⟨visited, counted⟩ := ih (validSize + recordSize)
        rw [body, if_pos passed]
        dsimp only
        rw [visited, counted, List.length_cons, Nat.mul_succ]
        exact ⟨rfl, by omega⟩

/-- A scan from the start of the file. -/
theorem returns_from_start (readPage : Nat → Bool) (f : LogFile) (sc : Scanner σ) (vars : σ)
    (ends : sc.leavesAtFragment = true ∨ recordSize ∣ f.size) :
    ∃ s, Loop.Returns (pagePass readPage sc f) (.start vars) s ∧
      s.visited = (feed sc.body (scanFrom readPage 0 f.wholeRecords) vars).1 ∧
      s.vars = (feed sc.body (scanFrom readPage 0 f.wholeRecords) vars).2.1 := by
  have start : (ScanState.start vars).offset = recordSize * 0 := rfl
  obtain ⟨offset, returns⟩ := returns_of_scan readPage ends start (Nat.zero_le _)
  rw [Nat.sub_zero, ← f.wholeRecords_eq] at returns
  exact ⟨_, returns, rfl, rfl⟩

/-- `scorw_truncate_log_to_version` ends on every file, with the log as it is cut. -/
theorem truncate_returns (readPage : Nat → Bool) (f : LogFile) (version : Nat) :
    ∃ s, Loop.Returns (pagePass readPage (truncateScanner version) f) (.start 0) s ∧
      s.visited = truncateLogToVersion readPage version f.wholeRecords ∧
      s.vars = recordSize * (truncateLogToVersion readPage version f.wholeRecords).length := by
  obtain ⟨s, returns, visited, vars⟩ :=
    returns_from_start readPage f (truncateScanner version) 0 (.inl rfl)
  obtain ⟨passed, counted⟩ :=
    feed_truncateScanner version (scanFrom readPage 0 f.wholeRecords) 0
  rw [passed] at visited
  rw [counted, Nat.zero_add] at vars
  exact ⟨s, returns, visited, vars⟩

/-- Without a fragment `scorw_replay_log_version` ends, with the map of the version. -/
theorem replay_returns (readPage : Nat → Bool) {f : LogFile} (whole : recordSize ∣ f.size)
    (targetVersion : Nat) :
    ∃ s, Loop.Returns (pagePass readPage (replayScanner targetVersion) f)
        (.start Versioned.Delta.empty) s ∧
      s.visited = scanFrom readPage 0 f.wholeRecords ∧
      s.vars = replayLogVersion readPage f.wholeRecords targetVersion := by
  obtain ⟨s, returns, visited, vars⟩ := returns_from_start readPage f
    (replayScanner targetVersion) Versioned.Delta.empty (.inr whole)
  unfold replayScanner at visited vars
  rw [feed_of_total] at visited vars
  exact ⟨s, returns, visited, vars⟩

/-- So does `scorw_gc_blocks`, with its table and the garbage. -/
theorem gc_returns (readPage : Nat → Bool) {f : LogFile} (whole : recordSize ∣ f.size)
    (activeVers : List Nat) :
    ∃ s, Loop.Returns (pagePass readPage (gcScanner activeVers) f)
        (.start ⟨fun _ => none, []⟩) s ∧
      s.visited = scanFrom readPage 0 f.wholeRecords ∧
      s.vars = (scanFrom readPage 0 f.wholeRecords).foldl (gcRecord activeVers)
        ⟨fun _ => none, []⟩ := by
  obtain ⟨s, returns, visited, vars⟩ := returns_from_start readPage f
    (gcScanner activeVers) ⟨fun _ => none, []⟩ (.inr whole)
  unfold gcScanner at visited vars
  rw [feed_of_total] at visited vars
  exact ⟨s, returns, visited, vars⟩

/-- With a fragment at the end of the file, the scans that pass every record never end. -/
theorem not_returns_from_start (readable : ∀ p, readPage p = true)
    (fragment : ¬ recordSize ∣ f.size) (body : σ → LogRecord → σ) (vars : σ) (s : ScanState σ) :
    ¬ Loop.Returns (pagePass readPage ⟨fun vars r => some (body vars r), false⟩ f)
      (.start vars) s := by
  have passes : ∀ rs vars,
      (feed (fun vars r => some (body vars r)) rs vars).2.2 = false := by
    intro rs vars
    rw [feed_of_total]
  have start : (ScanState.start vars).offset = recordSize * 0 := rfl
  exact not_returns_of_fragment readable rfl fragment passes start (Nat.zero_le _)

end Scan

/-- The three scans of a file end, and have then visited its whole records in order, up to
the first one from the future where they look for it. -/
structure LogScans (readPage : Nat → Bool) (f : LogFile) (version targetVersion : Nat)
    (activeVers : List Nat) : Prop where
  truncate : ∃ s, Loop.Returns (pagePass readPage (truncateScanner version) f) (.start 0) s ∧
    s.visited = f.wholeRecords.takeWhile fun r => decide (r.versionNum ≤ version)
  replay : ∃ s, Loop.Returns (pagePass readPage (replayScanner targetVersion) f)
    (.start Versioned.Delta.empty) s ∧ s.visited = f.wholeRecords
  gc : ∃ s, Loop.Returns (pagePass readPage (gcScanner activeVers) f)
    (.start ⟨fun _ => none, []⟩) s ∧ s.visited = f.wholeRecords

/-- They all end, having visited the whole records in order, exactly when there is no
fragment of a record at the end of the file. -/
theorem log_scans_terminate_iff {readPage : Nat → Bool} (readable : ∀ p, readPage p = true)
    (f : LogFile) (version targetVersion : Nat) (activeVers : List Nat) :
    LogScans readPage f version targetVersion activeVers ↔ recordSize ∣ f.size := by
  constructor
  · intro scans
    by_contra fragment
    obtain ⟨s, returns, _⟩ := scans.replay
    exact not_returns_from_start readable fragment (replayRecord targetVersion) _ s returns
  · intro whole
    have seen := scanFrom_of_readable readable 0 f.wholeRecords
    obtain ⟨s, cuts, cut, _⟩ := truncate_returns readPage f version
    obtain ⟨s', replays, replayed, _⟩ := replay_returns readPage whole targetVersion
    obtain ⟨s'', collects, collected, _⟩ := gc_returns readPage whole activeVers
    unfold truncateLogToVersion at cut
    rw [seen] at cut replayed collected
    exact ⟨⟨s, cuts, cut⟩, ⟨s', replays, replayed⟩, ⟨s'', collects, collected⟩⟩

/-- A log of two whole records. -/
theorem log_scans_terminate_whole :
    recordSize ∣ 64 ∧ LogScans (fun _ => true) ⟨64, fun _ => ⟨2, 0, 2, 1⟩⟩ 2 2 [0, 2] :=
  ⟨by decide, (log_scans_terminate_iff (fun _ => rfl) _ 2 2 [0, 2]).mpr (by decide)⟩

/-- A log of one record and eight more bytes: the replay and the collector never end. -/
theorem log_scans_terminate_fails :
    (∀ s, ¬ Loop.Returns (pagePass (fun _ => true) (replayScanner 2)
        ⟨40, fun _ => ⟨2, 0, 2, 1⟩⟩) (.start Versioned.Delta.empty) s) ∧
      ∀ s, ¬ Loop.Returns (pagePass (fun _ => true) (gcScanner [0, 2])
        ⟨40, fun _ => ⟨2, 0, 2, 1⟩⟩) (.start ⟨fun _ => none, []⟩) s := by
  have fragment : ¬ recordSize ∣ 40 := by decide
  exact ⟨not_returns_from_start (fun _ => rfl) fragment (replayRecord 2) _,
    not_returns_from_start (fun _ => rfl) fragment (gcRecord [0, 2]) _⟩

end FlexClone.Scorw
