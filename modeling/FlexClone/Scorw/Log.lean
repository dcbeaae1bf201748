import FlexClone.Versioned.History

/-!
# The write log

The parent's log file is a sequence of fixed 32-byte records
(`struct scorw_log_record`), each mapping a run of logical blocks to a run of
appended blocks at one version. This module has the records, the page-by-page
scan every reader of the log performs, and the replay of one version into a
delta map (`scorw_replay_log_version`).

`replayLogVersion_eq` identifies the replay with `History.delta` of the log's
block bindings, so that every later fact about maps is a fact about histories.
-/

namespace FlexClone.Scorw

open Versioned

/-- `PAGE_SIZE`; file system blocks have the same size. -/
def pageSize : Nat := 4096

/-- `MAX_VERSIONS` -/
def maxVersions : Nat := 32

/-- `MAX_RAM_VERSIONS` -/
def maxRamVersions : Nat := 4

/-- Conversion to `__u32`. -/
def u32 (n : Nat) : Nat := n % 2 ^ 32

/-- `struct scorw_log_record`, without its padding. -/
structure LogRecord where
  versionNum : Nat
  logicalStartBlk : Nat
  physicalStartBlk : Nat
  lenBlks : Nat
  deriving DecidableEq, Repr

/-- Records of 32 bytes in one page of the log. -/
def recordsPerPage : Nat := pageSize / 32

/-- The map from logical to physical blocks of one version (`delta_map`). -/
abbrev DeltaMap := Delta Nat Nat

/-- The bindings a record makes. The sum of the start block and the offset is
taken in 32 bits. -/
def LogRecord.entries (r : LogRecord) : History Nat Nat :=
  (List.range r.lenBlks).map fun i =>
    ⟨r.versionNum, u32 (r.logicalStartBlk + i), r.physicalStartBlk + i⟩

/-- All bindings of a log, in order. -/
def entries (log : List LogRecord) : History Nat Nat := log.flatMap LogRecord.entries

/-- The records a forward scan hands to its loop body: the scan reads the page
of record `i` when it gets there and stops at the first page it cannot read. -/
def scanFrom (readPage : Nat → Bool) : Nat → List LogRecord → List LogRecord
  | _, [] => []
  | i, r :: rs =>
      if readPage (i / recordsPerPage) then r :: scanFrom readPage (i + 1) rs else []

/-- The body of the replay loop on one record. -/
def replayRecord (target : Nat) (m : DeltaMap) (r : LogRecord) : DeltaMap :=
  if r.versionNum = target then
    (List.range r.lenBlks).foldl
      (fun m i => m.store (u32 (r.logicalStartBlk + i)) (r.physicalStartBlk + i)) m
  else m

/-- `scorw_replay_log_version` into a freshly initialised map. -/
def replayLogVersion (readPage : Nat → Bool) (log : List LogRecord) (target : Nat) : DeltaMap :=
  (scanFrom readPage 0 log).foldl (replayRecord target) Delta.empty

/-! ## Bindings of a log -/

theorem entries_append (log tail : List LogRecord) :
    entries (log ++ tail) = entries log ++ entries tail := List.flatMap_append

theorem entries_singleton (r : LogRecord) : entries [r] = r.entries := by
  simp only [entries, List.flatMap_singleton]

theorem mem_recordEntries {r : LogRecord} {e : Entry Nat Nat} :
    e ∈ r.entries ↔ ∃ i < r.lenBlks,
      e = ⟨r.versionNum, u32 (r.logicalStartBlk + i), r.physicalStartBlk + i⟩ := by
  simp only [LogRecord.entries, List.mem_map, List.mem_range, eq_comm]

theorem version_of_mem_recordEntries {r : LogRecord} {e : Entry Nat Nat}
    (member : e ∈ r.entries) : e.version = r.versionNum := by
  obtain ⟨i, _, rfl⟩ := mem_recordEntries.mp member
  rfl

theorem mem_entries {log : List LogRecord} {e : Entry Nat Nat} :
    e ∈ entries log ↔ ∃ r ∈ log, e ∈ r.entries := List.mem_flatMap

/-- A property of every record's version is a property of every binding's. -/
theorem forall_entries_version {log : List LogRecord} {P : Nat → Prop}
    (records : ∀ r ∈ log, P r.versionNum) : ∀ e ∈ entries log, P e.version := by
  intro e member
  obtain ⟨r, inLog, inRecord⟩ := mem_entries.mp member
  rw [version_of_mem_recordEntries inRecord]
  exact records r inLog

/-- Records of other versions do not change the map of a version. -/
theorem delta_entries_append_of_ne {log tail : List LogRecord} {v : Nat}
    (other : ∀ r ∈ tail, r.versionNum ≠ v) :
    History.delta (entries (log ++ tail)) v = History.delta (entries log) v := by
  funext blk
  have fresh : ∀ e ∈ entries tail, e.version ≠ v := forall_entries_version (P := (· ≠ v)) other
  rw [entries_append, History.delta_append, History.delta_eq_none_of_fresh fresh, Option.none_or]

/-! ## Blocks a record covers -/

theorem u32_of_lt {n : Nat} (small : n < 2 ^ 32) : u32 n = n := Nat.mod_eq_of_lt small

/-- The record maps block `blk`. -/
def LogRecord.Covers (r : LogRecord) (blk : Nat) : Prop :=
  r.logicalStartBlk ≤ blk ∧ blk < r.logicalStartBlk + r.lenBlks

instance (r : LogRecord) (blk : Nat) : Decidable (r.Covers blk) :=
  inferInstanceAs (Decidable (_ ∧ _))

/-- The appended block the record maps `blk` to. -/
def LogRecord.target (r : LogRecord) (blk : Nat) : Nat :=
  r.physicalStartBlk + (blk - r.logicalStartBlk)

/-- Block numbers of the record do not wrap in 32 bits. -/
def LogRecord.InRange (r : LogRecord) : Prop := r.logicalStartBlk + r.lenBlks ≤ 2 ^ 32

/-- The map of a single record. -/
theorem delta_recordEntries {r : LogRecord} (inRange : r.InRange) (v blk : Nat) :
    History.delta r.entries v blk =
      if r.versionNum = v ∧ r.Covers blk then some (r.target blk) else none := by
  unfold LogRecord.InRange at inRange
  have wrap : ∀ i < r.lenBlks, u32 (r.logicalStartBlk + i) = r.logicalStartBlk + i :=
    fun i lt => u32_of_lt (by omega)
  split
  case isTrue both =>
    obtain ⟨same, lower, upper⟩ := both
    -- the offset of the block in the record splits the bindings
    have position : r.logicalStartBlk + (blk - r.logicalStartBlk) = blk := by omega
    have inside : blk - r.logicalStartBlk < r.lenBlks := by omega
    cases found : History.delta r.entries v blk with
    | none =>
        have miss := History.delta_eq_none_iff.mp found
          ⟨r.versionNum, blk, r.target blk⟩ (mem_recordEntries.mpr
            ⟨blk - r.logicalStartBlk, inside, by rw [wrap _ inside, position]; rfl⟩)
        exact (miss same rfl).elim
    | some x =>
        obtain ⟨before, e, after, split, _, hit, value, _⟩ := History.delta_eq_some_iff.mp found
        have member : e ∈ r.entries := by
          rw [split]
          exact List.mem_append_right _ List.mem_cons_self
        obtain ⟨i, lt, rfl⟩ := mem_recordEntries.mp member
        dsimp only at hit value
        rw [wrap i lt] at hit
        rw [← value]
        unfold LogRecord.target
        congr 1
        omega
  case isFalse miss =>
    apply History.delta_eq_none_iff.mpr
    intro e member same hit
    obtain ⟨i, lt, rfl⟩ := mem_recordEntries.mp member
    dsimp only at same hit
    rw [wrap i lt] at hit
    exact miss ⟨same, by omega, by omega⟩

/-! ## Order of versions -/

/-- Versions never decrease along the log. -/
def VersionsSorted (log : List LogRecord) : Prop :=
  log.Pairwise fun r q => r.versionNum ≤ q.versionNum

theorem VersionsSorted.le {log : List LogRecord} (sorted : VersionsSorted log) {i j : Nat}
    {q r : LogRecord} (order : i ≤ j) (first : log[i]? = some q) (second : log[j]? = some r) :
    q.versionNum ≤ r.versionNum := by
  rcases Nat.lt_or_eq_of_le order with before | rfl
  · obtain ⟨inside, here⟩ := List.getElem?_eq_some_iff.mp first
    obtain ⟨inside', here'⟩ := List.getElem?_eq_some_iff.mp second
    rw [← here, ← here']
    exact List.pairwise_iff_getElem.mp sorted i j inside inside' before
  · rw [first] at second
    cases second
    exact le_rfl

/-- Bindings of a sorted log are sorted. -/
theorem VersionsSorted.entries {log : List LogRecord} (sorted : VersionsSorted log) :
    (entries log).Sorted := by
  refine List.pairwise_flatMap.mpr ⟨fun r _ => ?_, sorted.imp fun {r q} le e first f second => ?_⟩
  · refine List.Pairwise.imp_of_mem ?_ (List.pairwise_of_forall fun _ _ => trivial)
    intro e f first second _
    rw [version_of_mem_recordEntries first, version_of_mem_recordEntries second]
  · rw [version_of_mem_recordEntries first, version_of_mem_recordEntries second]
    exact le

/-! ## Scans and replay -/

theorem scanFrom_of_readable {readPage : Nat → Bool} (readable : ∀ p, readPage p = true)
    (i : Nat) (log : List LogRecord) : scanFrom readPage i log = log := by
  induction log generalizing i with
  | nil => rfl
  | cons r log ih => rw [scanFrom, if_pos (readable _), ih]

/-- A scan goes on behind records on pages it can read. -/
theorem scanFrom_append {readPage : Nat → Bool} {rs : List LogRecord} {first : Nat}
    (readable : ∀ i < rs.length, readPage ((first + i) / recordsPerPage) = true)
    (ts : List LogRecord) :
    scanFrom readPage first (rs ++ ts) = rs ++ scanFrom readPage (first + rs.length) ts := by
  induction rs generalizing first with
  | nil => rfl
  | cons r rs ih =>
      have here := readable 0 (Nat.succ_pos _)
      rw [Nat.add_zero] at here
      rw [List.cons_append, scanFrom, if_pos here, ih, List.cons_append, List.length_cons,
        Nat.add_assoc, Nat.add_comm 1]
      intro i inside
      have later := readable (i + 1) (Nat.succ_lt_succ inside)
      rwa [Nat.add_comm i 1, ← Nat.add_assoc] at later

/-- A scan sees the log up to some record. -/
theorem exists_scanFrom_append (readPage : Nat → Bool) (i : Nat) (log : List LogRecord) :
    ∃ rest, scanFrom readPage i log ++ rest = log := by
  induction log generalizing i with
  | nil => exact ⟨[], rfl⟩
  | cons r log ih =>
      obtain ⟨rest, whole⟩ := ih (i + 1)
      unfold scanFrom
      split
      case isTrue => exact ⟨rest, by rw [List.cons_append, whole]⟩
      case isFalse => exact ⟨r :: log, rfl⟩

/-- Storing a record's blocks one by one replays its bindings. -/
theorem replayRecord_eq (target : Nat) (m : DeltaMap) (r : LogRecord) :
    replayRecord target m r = r.entries.foldl (History.replayEntry target) m := by
  unfold replayRecord LogRecord.entries
  rw [List.foldl_map]
  split
  case isTrue same => simp only [History.replayEntry, same, if_true]
  case isFalse other =>
    simp only [History.replayEntry, other, if_false]
    induction List.range r.lenBlks with
    | nil => rfl
    | cons i is ih => exact ih

/-- The replay is the map of the bindings it sees. -/
theorem replayLogVersion_scanned (readPage : Nat → Bool) (log : List LogRecord) (target : Nat) :
    replayLogVersion readPage log target =
      History.delta (entries (scanFrom readPage 0 log)) target := by
  unfold replayLogVersion History.delta entries
  rw [List.foldl_flatMap]
  congr 1
  funext m r
  exact replayRecord_eq target m r

/-- With every page readable the replay is the map of the log's bindings. -/
theorem replayLogVersion_eq {readPage : Nat → Bool} (readable : ∀ p, readPage p = true)
    (log : List LogRecord) (target : Nat) :
    replayLogVersion readPage log target = History.delta (entries log) target := by
  rw [replayLogVersion_scanned, scanFrom_of_readable readable]

end FlexClone.Scorw
