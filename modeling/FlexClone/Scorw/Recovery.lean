import FlexClone.Scorw.VersionCache

/-!
# Recovery on the first open after a mount

`truncateLogToVersion` drops the records above the stored version, `doRecovery`
scans the log backwards for records whose blocks are not in the parent, drops
their versions, and cuts the parent at the end of what the log still uses. Both
work on what a crash leaves: `Disk`.

`doRecovery_eq`: on a log that can be read, recovery rolls the log back and cuts the
parent; the last step never finds anything to trim.

`doRecovery_recovered` says what is left: the log is cut at a version boundary, and
every version that was cut off has, at or behind each of its records, a record
whose first block is not mapped.

`allOrNothing_doRecovery_iff`: every version is kept whole with all its blocks,
or dropped, exactly when a mapped first block in the last record of a version
means that all blocks up to that version are mapped.

Versions are numbers without a bound here; `RecoveryInts` has the types of the source.
-/

namespace FlexClone.Scorw

/-- The extent tree of a file: which of its blocks are mapped. Block numbers of a
file have 32 bits. -/
structure BlockMap where
  mapped : Nat → Bool
  fits : ∀ blk, mapped blk = true → blk < 2 ^ 32

/-- A file whose first `n` blocks are mapped. -/
def BlockMap.upTo (n : Nat) : BlockMap where
  mapped := fun blk => decide (blk < n ∧ blk < 2 ^ 32)
  fits := fun _ both => (of_decide_eq_true both).2

/-- What a crash leaves of a see-through parent. -/
structure Disk where
  log : List LogRecord
  /-- the attribute `curr_version` -/
  currVersionAttr : Nat
  /-- the attribute `par_org` -/
  origSize : Nat
  /-- `i_size` of the parent -/
  size : Nat
  blocks : BlockMap

/-- Conversion to `loff_t`. -/
def loff (n : Nat) : Int := Int.bmod n (2 ^ 64)

/-- `ext4_map_blocks` without allocation: the number of leading blocks of the run
that are mapped. -/
def mapBlocks (blocks : BlockMap) (lblk len : Nat) : Nat :=
  ((List.range len).takeWhile fun i => blocks.mapped (lblk + i)).length

/-- Cutting a file unmaps the blocks that start at or after its new end. -/
def BlockMap.truncate (blocks : BlockMap) (size : Int) : BlockMap where
  mapped := fun blk => blocks.mapped blk && decide (((blk * pageSize : Nat) : Int) < size)
  fits := fun blk both => blocks.fits blk (Bool.and_eq_true_iff.mp both).1

/-- `scorw_truncate_log_to_version`: the records up to the first one from the
future, or to the first page that cannot be read. -/
def truncateLogToVersion (readPage : Nat → Bool) (version : Nat) (log : List LogRecord) :
    List LogRecord :=
  (scanFrom readPage 0 log).takeWhile fun r => decide (r.versionNum ≤ version)

/-- The variables of the backward scan; the end is counted in records. -/
structure Rollback where
  rollbackVersion : Nat
  validLogEnd : Nat
  deriving DecidableEq

/-- The backward scan of `scorw_do_recovery`, on the records from the newest to
the oldest. A record of a version that is rolled back is passed over; one whose
first block is not mapped starts a rollback; any other one ends the scan. -/
def recoveryScan (readPage : Nat → Bool) (blocks : BlockMap) :
    List LogRecord → Rollback → Rollback
  | [], st => st
  | r :: older, st =>
      if readPage (older.length / recordsPerPage) = false then st
      else if 0 < st.rollbackVersion ∧ st.rollbackVersion ≤ r.versionNum then
        recoveryScan readPage blocks older { st with validLogEnd := older.length }
      else if mapBlocks blocks (u32 r.physicalStartBlk) r.lenBlks = 0 then
        recoveryScan readPage blocks older ⟨r.versionNum, older.length⟩
      else st

/-- The end of the blocks of a record, in bytes. -/
def LogRecord.recEnd (r : LogRecord) : Int := loff ((r.physicalStartBlk + r.lenBlks) * pageSize)

/-- The records the forward scans see, with their positions; a page that cannot be
read is skipped. -/
def readRecords (readPage : Nat → Bool) (log : List LogRecord) : List (LogRecord × Nat) :=
  log.zipIdx.filter fun p => readPage (p.2 / recordsPerPage)

/-- Step 3 of `scorw_do_recovery`: the end of what the log uses of the parent. -/
def expectedEnd (origSize : Nat) (records : List (LogRecord × Nat)) : Int :=
  records.foldl (fun e p => max e p.1.recEnd) (loff origSize)

/-- The scan of step 4: the end and the version of the last record that lies below
the expected end. -/
def trimScan (limit : Int) (records : List (LogRecord × Nat)) : Nat × Nat :=
  records.foldl (fun t p => if p.1.recEnd ≤ limit then (p.2 + 1, p.1.versionNum) else t) (0, 0)

/-- Step 2 of `scorw_do_recovery` once the scan is done. -/
def rollBack (scan : Rollback) (version : Nat) (d : Disk) : Nat × Disk :=
  if 0 < scan.rollbackVersion then
    let recoveredVersion := max (scan.rollbackVersion - 1) 1
    (recoveredVersion, { d with
      log := d.log.take scan.validLogEnd
      currVersionAttr := recoveredVersion })
  else (version, d)

/-- Step 4 of `scorw_do_recovery` for a parent that is longer than expected. -/
def trimParent (limit : Int) (trimmed : Nat × Nat) (validLogEnd version : Nat) (d : Disk) :
    Nat × Disk :=
  let cut := { d with size := limit.toNat, blocks := d.blocks.truncate limit }
  if trimmed.1 < validLogEnd then
    if 0 < trimmed.2 then
      (trimmed.2, { cut with log := d.log.take trimmed.1, currVersionAttr := trimmed.2 })
    else (version, { cut with log := d.log.take trimmed.1 })
  else (version, cut)

/-- `scorw_do_recovery` of a parent whose version in memory is `version`. -/
def doRecovery (readPage : Nat → Bool) (version : Nat) (d : Disk) : Nat × Disk :=
  if d.log = [] then (version, d)
  else
    let scan := recoveryScan readPage d.blocks d.log.reverse ⟨0, d.log.length⟩
    let rolled := rollBack scan version d
    let records := readRecords readPage (d.log.take scan.validLogEnd)
    let limit := expectedEnd d.origSize records
    if limit < d.size then
      trimParent limit (trimScan limit records) scan.validLogEnd rolled.1 rolled.2
    else rolled

/-- What `scorw_prepare_par_inode` does on the first open after a mount, up to
garbage collection: the version is the stored one, the log is cut to it, then
recovery runs. -/
def recoverParent (readPage : Nat → Bool) (d : Disk) : Nat × Disk :=
  doRecovery readPage d.currVersionAttr
    { d with log := truncateLogToVersion readPage d.currVersionAttr d.log }

variable {readPage : Nat → Bool} {blocks : BlockMap} {r : LogRecord} {d : Disk}

/-! ## The backward scan -/

/-- Nothing of the record's run is mapped. -/
def Unmapped (blocks : BlockMap) (r : LogRecord) : Prop :=
  mapBlocks blocks (u32 r.physicalStartBlk) r.lenBlks = 0

/-- Every block of the record's run is mapped. -/
def LogRecord.AllMapped (blocks : BlockMap) (r : LogRecord) : Prop :=
  ∀ i < r.lenBlks, blocks.mapped (r.physicalStartBlk + i) = true

theorem mapBlocks_eq_zero_iff {lblk len : Nat} :
    mapBlocks blocks lblk len = 0 ↔ len = 0 ∨ blocks.mapped lblk = false := by
  unfold mapBlocks
  cases len with
  | zero => simp
  | succ len => simp [List.range_succ_eq_map, List.takeWhile_cons]

/-- What the backward scan has found when it stops: the records split into those
cut off and those left, `rolled` being the version rolled back to begin with. -/
structure ScanSplit (blocks : BlockMap) (rolled : Nat) (newest dropped kept : List LogRecord)
    (result : Rollback) : Prop where
  split : newest = dropped ++ kept
  validLogEnd : result.validLogEnd = kept.length
  /-- the newest record left ended the scan -/
  accepted : ∀ r rest, kept = r :: rest → ¬ Unmapped blocks r
  /-- the cut is at a version boundary -/
  below : ∀ q ∈ kept, (∀ r ∈ dropped, q.versionNum < r.versionNum) ∧
    (0 < rolled → q.versionNum < rolled)
  /-- a version that is cut off has an unmapped record, no older than this one -/
  unmapped : ∀ newer r older, dropped = newer ++ r :: older → r.versionNum = rolled ∨
    ∃ q, (q ∈ newer ∨ q = r) ∧ q.versionNum = r.versionNum ∧ Unmapped blocks q
  untouched : dropped = [] → result.rollbackVersion = rolled
  raised : dropped ≠ [] → 0 < result.rollbackVersion
  above : 0 < result.rollbackVersion → ∀ q ∈ kept, q.versionNum < result.rollbackVersion

/-- One more record cut off in front, at the version rolled back from here on. -/
theorem ScanSplit.cons {rolled : Nat} {older dropped kept : List LogRecord} {result : Rollback}
    (rest : ScanSplit blocks r.versionNum older dropped kept result) (pos : 0 < r.versionNum)
    (first : r.versionNum = rolled ∨ Unmapped blocks r)
    (bound : 0 < rolled → r.versionNum ≤ rolled) :
    ScanSplit blocks rolled (r :: older) (r :: dropped) kept result where
  split := by rw [rest.split, List.cons_append]
  validLogEnd := rest.validLogEnd
  accepted := rest.accepted
  below := by
    intro q member
    have lower := (rest.below q member).2 pos
    refine ⟨fun d inDropped => ?_, fun some => ?_⟩
    · rcases List.mem_cons.mp inDropped with rfl | later
      · exact lower
      · exact (rest.below q member).1 d later
    · exact lt_of_lt_of_le lower (bound some)
  unmapped := by
    intro newer d old split
    rcases List.cons_eq_append_iff.mp split with ⟨rfl, here⟩ | ⟨newer', rfl, tail⟩
    · cases here
      rcases first with same | unmapped
      · exact .inl same
      · exact .inr ⟨r, .inr rfl, rfl, unmapped⟩
    · rcases rest.unmapped newer' d old tail with same | ⟨q, place, version, unmapped⟩
      · rcases first with rolledBack | unmapped
        · exact .inl (same.trans rolledBack)
        · exact .inr ⟨r, .inl List.mem_cons_self, same.symm, unmapped⟩
      · exact .inr ⟨q, place.imp_left (List.mem_cons_of_mem r), version, unmapped⟩
  untouched := fun none => by cases none
  raised := by
    intro _
    by_cases none : dropped = []
    · rw [rest.untouched none]
      exact pos
    · exact rest.raised none
  above := rest.above

theorem recoveryScan_split (readable : ∀ p, readPage p = true) {newest : List LogRecord}
    (sorted : newest.Pairwise fun r q => q.versionNum ≤ r.versionNum)
    (positive : ∀ r ∈ newest, 1 ≤ r.versionNum) (rolled : Nat)
    (bound : 0 < rolled → ∀ r ∈ newest, r.versionNum ≤ rolled) :
    ∃ dropped kept, ScanSplit blocks rolled newest dropped kept
      (recoveryScan readPage blocks newest ⟨rolled, newest.length⟩) := by
  induction newest generalizing rolled with
  | nil =>
      exact ⟨[], [],
        { split := rfl
          validLogEnd := rfl
          accepted := fun _ _ none => by cases none
          below := fun _ none => by cases none
          unmapped := fun newer r older none => by simp at none
          untouched := fun _ => rfl
          raised := fun some => (some rfl).elim
          above := fun _ _ none => by cases none }⟩
  | cons r older ih =>
      obtain ⟨newer, sortedOlder⟩ := List.pairwise_cons.mp sorted
      have here := positive r List.mem_cons_self
      have positiveOlder := fun q member => positive q (List.mem_cons_of_mem r member)
      have boundHere : 0 < rolled → r.versionNum ≤ rolled :=
        fun some => bound some r List.mem_cons_self
      have stop : readPage (older.length / recordsPerPage) ≠ false := by
        rw [readable]
        exact Bool.noConfusion
      obtain ⟨dropped, kept, rest⟩ := ih sortedOlder positiveOlder r.versionNum
        fun _ q member => newer q member
      unfold recoveryScan
      rw [if_neg stop]
      by_cases skip : 0 < rolled ∧ rolled ≤ r.versionNum
      · have same : r.versionNum = rolled := le_antisymm (boundHere skip.1) skip.2
        rw [if_pos skip]
        subst same
        exact ⟨r :: dropped, kept, rest.cons here (.inl rfl) fun _ => le_rfl⟩
      · rw [if_neg skip]
        by_cases missing : mapBlocks blocks (u32 r.physicalStartBlk) r.lenBlks = 0
        · rw [if_pos missing]
          exact ⟨r :: dropped, kept, rest.cons here (.inr missing) boundHere⟩
        · -- the record ends the scan, and nothing older is looked at
          rw [if_neg missing]
          have lower : 0 < rolled → ∀ q ∈ r :: older, q.versionNum < rolled := by
            intro some q member
            rcases List.mem_cons.mp member with rfl | later
            · omega
            · have := newer q later
              omega
          exact ⟨[], r :: older,
            { split := rfl
              validLogEnd := rfl
              accepted := fun _ _ shape => by
                cases shape
                exact missing
              below := fun q member =>
                ⟨fun _ none => (List.not_mem_nil none).elim, fun some => lower some q member⟩
              unmapped := fun newer r older none => by simp at none
              untouched := fun _ => rfl
              raised := fun some => (some rfl).elim
              above := lower }⟩

/-! ## Cutting the parent -/

theorem readRecords_of_readable (readable : ∀ p, readPage p = true) (log : List LogRecord) :
    readRecords readPage log = log.zipIdx :=
  List.filter_eq_self.mpr fun _ _ => readable _

/-- No record ends past the expected end. -/
theorem recEnd_le_expectedEnd {origSize i : Nat} {records : List (LogRecord × Nat)}
    (member : (r, i) ∈ records) : r.recEnd ≤ expectedEnd origSize records := by
  unfold expectedEnd
  induction records using List.reverseRecOn with
  | nil => cases member
  | append_singleton records q ih =>
      rw [List.foldl_append, List.foldl_cons, List.foldl_nil]
      rcases List.mem_append.mp member with early | last
      · exact le_trans (ih early) (le_max_left _ _)
      · rw [← List.mem_singleton.mp last]
        exact le_max_right _ _

/-- When no record ends past the limit there is nothing to trim. -/
theorem trimScan_of_below {limit : Int} {log : List LogRecord}
    (below : ∀ r ∈ log, r.recEnd ≤ limit) : (trimScan limit log.zipIdx).1 = log.length := by
  unfold trimScan
  induction log using List.reverseRecOn with
  | nil => rfl
  | append_singleton log r _ =>
      have last := below r (List.mem_append_right _ List.mem_cons_self)
      rw [List.zipIdx_append, List.foldl_append, List.zipIdx_singleton, List.foldl_cons,
        List.foldl_nil, if_pos last, List.length_append, Nat.zero_add]
      rfl

/-- Blocks of a record that are in the file lie below the record's end. -/
theorem block_lt_recEnd_of_lt {i : Nat} (inside : i < r.lenBlks) (length : r.lenBlks ≤ 2 ^ 32)
    (small : r.physicalStartBlk + i < 2 ^ 32) :
    (((r.physicalStartBlk + i) * pageSize : Nat) : Int) < r.recEnd := by
  have exact : r.recEnd = (((r.physicalStartBlk + r.lenBlks) * pageSize : Nat) : Int) := by
    unfold LogRecord.recEnd loff
    rw [Int.bmod_eq_of_le]
    · unfold pageSize
      omega
    · unfold pageSize
      omega
  rw [exact]
  unfold pageSize
  omega

/-- Blocks of a record that is mapped as a whole lie below its end. -/
theorem block_lt_recEnd (mapped : r.AllMapped blocks) {i : Nat} (inside : i < r.lenBlks) :
    (((r.physicalStartBlk + i) * pageSize : Nat) : Int) < r.recEnd := by
  have last := blocks.fits _ (mapped (r.lenBlks - 1) (by omega))
  exact block_lt_recEnd_of_lt inside (by omega) (blocks.fits _ (mapped i inside))

/-! ## Rolling back, then cutting the parent -/

/-- The backward scan over a log that can be read. -/
def rollbackScan (blocks : BlockMap) (log : List LogRecord) : Rollback :=
  recoveryScan (fun _ => true) blocks log.reverse ⟨0, log.length⟩

/-- The end of what the log uses of the parent, once it is rolled back. -/
def usedEnd (d : Disk) : Int :=
  expectedEnd d.origSize (d.log.take (rollbackScan d.blocks d.log).validLogEnd).zipIdx

/-- A parent that reaches past `limit` is cut there. -/
def cutParent (limit : Int) (d : Disk) : Disk :=
  if limit < d.size then { d with size := limit.toNat, blocks := d.blocks.truncate limit }
  else d

theorem log_cutParent (limit : Int) (d : Disk) : (cutParent limit d).log = d.log := by
  unfold cutParent
  split <;> rfl

theorem origSize_cutParent (limit : Int) (d : Disk) :
    (cutParent limit d).origSize = d.origSize := by
  unfold cutParent
  split <;> rfl

theorem validLogEnd_recoveryScan_le {newest : List LogRecord} {st : Rollback} {n : Nat}
    (length : newest.length ≤ n) (start : st.validLogEnd ≤ n) :
    (recoveryScan readPage blocks newest st).validLogEnd ≤ n := by
  induction newest generalizing st with
  | nil => exact start
  | cons r older ih =>
      have shorter : older.length ≤ n := Nat.le_of_succ_le length
      unfold recoveryScan
      split
      case isTrue => exact start
      case isFalse =>
        split
        case isTrue => exact ih shorter shorter
        case isFalse =>
          split
          case isTrue => exact ih shorter shorter
          case isFalse => exact start

theorem validLogEnd_rollbackScan_le (blocks : BlockMap) (log : List LogRecord) :
    (rollbackScan blocks log).validLogEnd ≤ log.length :=
  validLogEnd_recoveryScan_le (List.length_reverse).le le_rfl

theorem recEnd_le_usedEnd (member : r ∈ d.log.take (rollbackScan d.blocks d.log).validLogEnd) :
    r.recEnd ≤ usedEnd d := by
  obtain ⟨i, bound, shape⟩ := List.mem_iff_getElem.mp member
  have listed : (r, i) ∈ (d.log.take (rollbackScan d.blocks d.log).validLogEnd).zipIdx := by
    rw [List.mem_zipIdx_iff_getElem?, List.getElem?_eq_getElem bound, shape]
  exact recEnd_le_expectedEnd listed

theorem size_rollBack (scan : Rollback) (version : Nat) (d : Disk) :
    (rollBack scan version d).2.size = d.size := by
  unfold rollBack
  split <;> rfl

theorem blocks_rollBack (scan : Rollback) (version : Nat) (d : Disk) :
    (rollBack scan version d).2.blocks = d.blocks := by
  unfold rollBack
  split <;> rfl

theorem origSize_rollBack (scan : Rollback) (version : Nat) (d : Disk) :
    (rollBack scan version d).2.origSize = d.origSize := by
  unfold rollBack
  split <;> rfl

/-- Recovery of a log that is not empty rolls it back and cuts the parent: no record
ends past the expected end, so that the log is not trimmed. -/
theorem doRecovery_eq (version : Nat) (records : d.log ≠ []) :
    doRecovery (fun _ => true) version d =
      ((rollBack (rollbackScan d.blocks d.log) version d).1,
        cutParent (usedEnd d) (rollBack (rollbackScan d.blocks d.log) version d).2) := by
  have inside := validLogEnd_rollbackScan_le d.blocks d.log
  have whole : ¬ (trimScan (usedEnd d)
      (d.log.take (rollbackScan d.blocks d.log).validLogEnd).zipIdx).1 <
        (rollbackScan d.blocks d.log).validLogEnd := by
    rw [trimScan_of_below fun r member => recEnd_le_usedEnd member, List.length_take,
      min_eq_left inside]
    exact Nat.lt_irrefl _
  have size := size_rollBack (rollbackScan d.blocks d.log) version d
  have unfolded : doRecovery (fun _ => true) version d =
      if usedEnd d < d.size then
        trimParent (usedEnd d) (trimScan (usedEnd d)
            (d.log.take (rollbackScan d.blocks d.log).validLogEnd).zipIdx)
          (rollbackScan d.blocks d.log).validLogEnd
          (rollBack (rollbackScan d.blocks d.log) version d).1
          (rollBack (rollbackScan d.blocks d.log) version d).2
      else rollBack (rollbackScan d.blocks d.log) version d := by
    unfold doRecovery
    dsimp only
    rw [if_neg records, readRecords_of_readable fun _ => rfl]
    rfl
  rw [unfolded]
  unfold cutParent
  rw [size]
  by_cases longer : usedEnd d < d.size
  · rw [if_pos longer, if_pos longer]
    unfold trimParent
    exact if_neg whole
  · rw [if_neg longer, if_neg longer]

/-! ## What recovery leaves -/

/-- The effect of `doRecovery` when the log can be read. -/
structure Recovered (version : Nat) (d : Disk) (kept dropped : List LogRecord)
    (result : Nat × Disk) : Prop where
  split : d.log = kept ++ dropped
  log : result.2.log = kept
  origSize : result.2.origSize = d.origSize
  boundary : ∀ q ∈ kept, ∀ r ∈ dropped, q.versionNum < r.versionNum
  accepted : ∀ older r, kept = older ++ [r] → ¬ Unmapped d.blocks r
  unmapped : ∀ older r newer, dropped = older ++ r :: newer →
    ∃ q ∈ r :: newer, q.versionNum = r.versionNum ∧ Unmapped d.blocks q
  version : ∀ q ∈ kept, q.versionNum ≤ version → q.versionNum ≤ result.1
  /-- cutting the parent spares the blocks of the records that are kept -/
  mapped : ∀ q ∈ kept, q.AllMapped d.blocks → q.AllMapped result.2.blocks
  fewer : ∀ blk, result.2.blocks.mapped blk = true → d.blocks.mapped blk = true

/-- Rolling back the log. -/
theorem rollBack_recovered (version : Nat) (sorted : VersionsSorted d.log)
    (positive : ∀ r ∈ d.log, 1 ≤ r.versionNum) :
    ∃ kept dropped, d.log.take (rollbackScan d.blocks d.log).validLogEnd = kept ∧
      Recovered version d kept dropped
        (rollBack (rollbackScan d.blocks d.log) version d) := by
  have scan : ∃ dropped kept, ScanSplit d.blocks 0 d.log.reverse dropped kept
      (recoveryScan (fun _ => true) d.blocks d.log.reverse ⟨0, d.log.reverse.length⟩) :=
    recoveryScan_split (fun _ => rfl) (List.pairwise_reverse.mpr sorted)
      (fun r member => positive r (List.mem_reverse.mp member)) 0
      (fun none => (Nat.lt_irrefl 0 none).elim)
  rw [List.length_reverse] at scan
  change ∃ dropped kept, ScanSplit d.blocks 0 d.log.reverse dropped kept
    (rollbackScan d.blocks d.log) at scan
  generalize rollbackScan d.blocks d.log = result at scan ⊢
  obtain ⟨dropped, kept, scan⟩ := scan
  have split : d.log = kept.reverse ++ dropped.reverse := by
    rw [← List.reverse_append, ← scan.split, List.reverse_reverse]
  have length : result.validLogEnd = kept.reverse.length := by
    rw [scan.validLogEnd, List.length_reverse]
  have take : d.log.take result.validLogEnd = kept.reverse := by
    rw [split, length, List.take_left]
  have boundary : ∀ q ∈ kept.reverse, ∀ r ∈ dropped.reverse, q.versionNum < r.versionNum :=
    fun q left r gone =>
      (scan.below q (List.mem_reverse.mp left)).1 r (List.mem_reverse.mp gone)
  have accepted : ∀ older r, kept.reverse = older ++ [r] → ¬ Unmapped d.blocks r := by
    intro older r shape
    apply scan.accepted r older.reverse
    rw [← List.reverse_reverse kept, shape, List.reverse_append]
    rfl
  have unmapped : ∀ older r newer, dropped.reverse = older ++ r :: newer →
      ∃ q ∈ r :: newer, q.versionNum = r.versionNum ∧ Unmapped d.blocks q := by
    intro older r newer shape
    have mirrored : dropped = newer.reverse ++ r :: older.reverse := by
      rw [← List.reverse_reverse dropped, shape, List.reverse_append, List.reverse_cons,
        List.append_assoc]
      rfl
    have member : r ∈ d.log := by
      rw [split, shape]
      exact List.mem_append_right _ (List.mem_append_right _ List.mem_cons_self)
    have pos := positive r member
    rcases scan.unmapped newer.reverse r older.reverse mirrored with
      zero | ⟨q, place, same, missing⟩
    · omega
    · rcases place with later | rfl
      · exact ⟨q, List.mem_cons_of_mem r (List.mem_reverse.mp later), same, missing⟩
      · exact ⟨q, List.mem_cons_self, same, missing⟩
  refine ⟨kept.reverse, dropped.reverse, take, ?_⟩
  unfold rollBack
  split
  case isTrue rolled =>
    exact
      { split := split
        log := take
        origSize := rfl
        boundary := boundary
        accepted := accepted
        unmapped := unmapped
        version := fun q left _ => by
          have := scan.above rolled q (List.mem_reverse.mp left)
          dsimp only
          omega
        mapped := fun _ _ mapped => mapped
        fewer := fun _ mapped => mapped }
  case isFalse untouched =>
    have none : dropped = [] := by
      by_contra some
      exact untouched (scan.raised some)
    exact
      { split := split
        log := by rw [split, none, List.reverse_nil, List.append_nil]
        origSize := rfl
        boundary := boundary
        accepted := accepted
        unmapped := unmapped
        version := fun _ _ le => le
        mapped := fun _ _ mapped => mapped
        fewer := fun _ mapped => mapped }

/-- Cutting the parent to the end of the records that are kept. -/
theorem Recovered.cutParent {version : Nat} {kept dropped : List LogRecord} {result : Nat × Disk}
    (recovered : Recovered version d kept dropped result) {limit : Int}
    (below : ∀ r ∈ kept, r.recEnd ≤ limit) :
    Recovered version d kept dropped (result.1, cutParent limit result.2) := by
  unfold Scorw.cutParent
  split
  case isTrue =>
    exact
      { split := recovered.split
        log := recovered.log
        origSize := recovered.origSize
        boundary := recovered.boundary
        accepted := recovered.accepted
        unmapped := recovered.unmapped
        version := recovered.version
        mapped := fun q left mapped i inside => by
          refine Bool.and_eq_true_iff.mpr ⟨recovered.mapped q left mapped i inside, ?_⟩
          exact decide_eq_true (lt_of_lt_of_le (block_lt_recEnd mapped inside) (below q left))
        fewer := fun blk mapped => recovered.fewer blk (Bool.and_eq_true_iff.mp mapped).1 }
  case isFalse => exact recovered

/-- What `scorw_do_recovery` does to a log that can be read. -/
theorem doRecovery_recovered (readable : ∀ p, readPage p = true) (version : Nat)
    (sorted : VersionsSorted d.log) (positive : ∀ r ∈ d.log, 1 ≤ r.versionNum) :
    ∃ kept dropped, Recovered version d kept dropped (doRecovery readPage version d) := by
  obtain rfl : readPage = fun _ => true := funext readable
  by_cases empty : d.log = []
  · unfold doRecovery
    rw [if_pos empty]
    exact ⟨[], [],
      { split := empty
        log := empty
        origSize := rfl
        boundary := fun _ none => (List.not_mem_nil none).elim
        accepted := fun older r shape => by simp at shape
        unmapped := fun older r newer shape => by simp at shape
        version := fun _ none => (List.not_mem_nil none).elim
        mapped := fun _ none => (List.not_mem_nil none).elim
        fewer := fun _ mapped => mapped }⟩
  · obtain ⟨kept, dropped, take, recovered⟩ := rollBack_recovered version sorted positive
    rw [doRecovery_eq version empty]
    refine ⟨kept, dropped, recovered.cutParent fun r left => ?_⟩
    rw [← take] at left
    exact recEnd_le_usedEnd left

/-! ## How far the version falls -/

/-- Rolling back stops before version `v`: going back from the newest record, only
records above `v` are passed before one that ends its version and whose first
block is mapped, or before the log ends. -/
def StopsAbove (blocks : BlockMap) (log : List LogRecord) (v : Nat) : Prop :=
  ∃ older newer, log = older ++ newer ∧ (∀ q ∈ newer, v < q.versionNum) ∧
    ∀ front r, older = front ++ [r] →
      ¬ Unmapped blocks r ∧ ∀ q ∈ newer, r.versionNum < q.versionNum

/-- The backward scan over records above `v` only rolls back to above `v`. -/
theorem recoveryScan_above {v : Nat} {newer older : List LogRecord} (st : Rollback)
    (high : ∀ q ∈ newer, v < q.versionNum)
    (stop : ∀ r rest, older = r :: rest →
      ¬ Unmapped blocks r ∧ (∀ q ∈ newer, r.versionNum < q.versionNum) ∧
        (0 < st.rollbackVersion → r.versionNum < st.rollbackVersion))
    (start : 0 < st.rollbackVersion → v < st.rollbackVersion) :
    0 < (recoveryScan readPage blocks (newer ++ older) st).rollbackVersion →
      v < (recoveryScan readPage blocks (newer ++ older) st).rollbackVersion := by
  induction newer generalizing st with
  | nil =>
      cases older with
      | nil => exact start
      | cons r rest =>
          obtain ⟨mapped, _, below⟩ := stop r rest rfl
          have passed : ¬ (0 < st.rollbackVersion ∧ st.rollbackVersion ≤ r.versionNum) :=
            fun both => absurd (below both.1) (Nat.not_lt.mpr both.2)
          unfold Unmapped at mapped
          rw [List.nil_append, recoveryScan, if_neg passed, if_neg mapped, ite_self]
          exact start
  | cons q newer ih =>
      have here := high q List.mem_cons_self
      have rest := fun r member => high r (List.mem_cons_of_mem q member)
      rw [List.cons_append, recoveryScan]
      split
      case isTrue => exact start
      case isFalse =>
        split
        case isTrue =>
          refine ih _ rest (fun r old shape => ?_) start
          obtain ⟨mapped, order, below⟩ := stop r old shape
          exact ⟨mapped, fun d member => order d (List.mem_cons_of_mem q member), below⟩
        case isFalse =>
          split
          case isTrue =>
            refine ih _ rest (fun r old shape => ?_) fun _ => here
            obtain ⟨mapped, order, _⟩ := stop r old shape
            exact ⟨mapped, fun d member => order d (List.mem_cons_of_mem q member),
              fun _ => order q List.mem_cons_self⟩
          case isFalse => exact start

/-- The version recovery starts from is kept down to where the backward scan stops. -/
theorem le_recoverParent (readable : ∀ p, readPage p = true) {v : Nat}
    (le : v ≤ d.currVersionAttr)
    (stops : StopsAbove d.blocks
      (d.log.takeWhile fun r => decide (r.versionNum ≤ d.currVersionAttr)) v) :
    v ≤ (recoverParent readPage d).1 := by
  have cut : truncateLogToVersion readPage d.currVersionAttr d.log =
      d.log.takeWhile fun r => decide (r.versionNum ≤ d.currVersionAttr) := by
    unfold truncateLogToVersion
    rw [scanFrom_of_readable readable]
  unfold recoverParent
  rw [cut]
  generalize d.log.takeWhile (fun r => decide (r.versionNum ≤ d.currVersionAttr)) = log at *
  obtain rfl : readPage = fun _ => true := funext readable
  by_cases empty : log = []
  · unfold doRecovery
    rw [if_pos empty]
    exact le
  · rw [doRecovery_eq d.currVersionAttr (by exact empty)]
    unfold rollbackScan
    obtain ⟨older, newer, rfl, high, stop⟩ := stops
    have above : 0 < (recoveryScan (fun _ => true) d.blocks (newer.reverse ++ older.reverse)
        ⟨0, (older ++ newer).length⟩).rollbackVersion →
        v < (recoveryScan (fun _ => true) d.blocks (newer.reverse ++ older.reverse)
          ⟨0, (older ++ newer).length⟩).rollbackVersion := by
      refine recoveryScan_above _ (fun q member => high q (List.mem_reverse.mp member))
        (fun r rest shape => ?_) fun some => absurd some (Nat.lt_irrefl 0)
      have whole : older = rest.reverse ++ [r] := by
        rw [← List.reverse_reverse older, shape, List.reverse_cons]
      obtain ⟨mapped, order⟩ := stop rest.reverse r whole
      exact ⟨mapped, fun q member => order q (List.mem_reverse.mp member),
        fun some => absurd some (Nat.lt_irrefl 0)⟩
    rw [← List.reverse_append] at above
    unfold rollBack
    dsimp only
    split
    case isTrue some =>
      have := above some
      dsimp only
      omega
    case isFalse => exact le

/-- What every stage of recovery leaves, readable or not: the version is stored and
positive, the log is at most cut. -/
structure Settled (d : Disk) (result : Nat × Disk) : Prop where
  attr : result.2.currVersionAttr = result.1
  positive : 1 ≤ d.currVersionAttr → 1 ≤ result.1
  log : result.2.log <+: d.log

theorem Settled.rollBack {d' : Disk} {version : Nat} (settled : Settled d (version, d'))
    (scan : Rollback) : Settled d (rollBack scan version d') := by
  have shorter : d'.log.take scan.validLogEnd <+: d'.log := ⟨_, List.take_append_drop _ _⟩
  unfold Scorw.rollBack
  split
  case isTrue => exact ⟨rfl, fun _ => le_max_right _ _, shorter.trans settled.log⟩
  case isFalse => exact settled

theorem Settled.trimParent {d' : Disk} {version : Nat} (settled : Settled d (version, d'))
    (limit : Int) (trimmed : Nat × Nat) (validLogEnd : Nat) :
    Settled d (trimParent limit trimmed validLogEnd version d') := by
  have shorter : d'.log.take trimmed.1 <+: d'.log := ⟨_, List.take_append_drop _ _⟩
  unfold Scorw.trimParent
  dsimp only
  split
  case isTrue =>
    split
    case isTrue positive => exact ⟨rfl, fun _ => positive, shorter.trans settled.log⟩
    case isFalse => exact ⟨settled.attr, settled.positive, shorter.trans settled.log⟩
  case isFalse => exact ⟨settled.attr, settled.positive, settled.log⟩

theorem Settled.doRecovery {d' : Disk} {version : Nat} (settled : Settled d (version, d'))
    (readPage : Nat → Bool) : Settled d (doRecovery readPage version d') := by
  unfold Scorw.doRecovery
  split
  case isTrue => exact settled
  case isFalse =>
    dsimp only
    have rolled := settled.rollBack
      (recoveryScan readPage d'.blocks d'.log.reverse ⟨0, d'.log.length⟩)
    split
    case isTrue => exact rolled.trimParent _ _ _
    case isFalse => exact rolled

theorem settled_recoverParent (readPage : Nat → Bool) (d : Disk) :
    Settled d (recoverParent readPage d) := by
  have start : Settled d (d.currVersionAttr,
      { d with log := truncateLogToVersion readPage d.currVersionAttr d.log }) := by
    have cut : truncateLogToVersion readPage d.currVersionAttr d.log <+:
        scanFrom readPage 0 d.log := ⟨_, List.takeWhile_append_dropWhile⟩
    exact ⟨rfl, id, cut.trans (exists_scanFrom_append readPage 0 d.log)⟩
  exact start.doRecovery readPage

/-! ## Versions are kept or dropped as a whole -/

/-- Every version of the log is either gone from the disk, or all its records are
there and all their blocks are mapped. -/
def AllOrNothing (log : List LogRecord) (d : Disk) : Prop :=
  ∀ v, (∀ r ∈ d.log, r.versionNum ≠ v) ∨
    (d.log.filter (·.versionNum = v) = log.filter (·.versionNum = v) ∧
      ∀ r ∈ log, r.versionNum = v → r.AllMapped d.blocks)

/-- A mapped first block in the last record of a version vouches for every block up
to that version. -/
def HeadsVouch (d : Disk) : Prop :=
  ∀ older r newer, d.log = older ++ r :: newer → (∀ q ∈ newer, q.versionNum ≠ r.versionNum) →
    0 < r.lenBlks → d.blocks.mapped (u32 r.physicalStartBlk) = true →
      ∀ q ∈ d.log, q.versionNum ≤ r.versionNum → q.AllMapped d.blocks

section AllOrNothing

variable {version : Nat} {kept dropped : List LogRecord} {result : Nat × Disk}

/-- Recovery is all or nothing exactly when all blocks of the records it keeps are
mapped. -/
theorem Recovered.allOrNothing_iff (recovered : Recovered version d kept dropped result) :
    AllOrNothing d.log result.2 ↔ ∀ q ∈ kept, q.AllMapped d.blocks := by
  constructor
  · intro whole q left i inside
    rcases whole q.versionNum with gone | ⟨_, mapped⟩
    · exact (gone q (by rw [recovered.log]; exact left) rfl).elim
    · have member : q ∈ d.log := by
        rw [recovered.split]
        exact List.mem_append_left _ left
      exact recovered.fewer _ (mapped q member rfl i inside)
  · intro mapped v
    rw [recovered.log]
    by_cases gone : ∀ r ∈ kept, r.versionNum ≠ v
    · exact .inl gone
    · push Not at gone
      obtain ⟨q, left, same⟩ := gone
      -- the cut is at a version boundary, so nothing of this version is dropped
      have away : ∀ r ∈ dropped, r.versionNum ≠ v := by
        intro r member
        have := recovered.boundary q left r member
        omega
      refine .inr ⟨?_, fun r member version => ?_⟩
      · have none : dropped.filter (·.versionNum = v) = [] := by
          apply List.filter_eq_nil_iff.mpr
          intro r member
          simpa using away r member
        rw [recovered.split, List.filter_append, none, List.append_nil]
      · rw [recovered.split] at member
        rcases List.mem_append.mp member with left | gone
        · exact recovered.mapped r left (mapped r left)
        · exact (away r gone version).elim

/-- The records that are kept are mapped exactly when first blocks vouch for them. -/
theorem Recovered.mapped_iff (recovered : Recovered version d kept dropped result)
    (sorted : VersionsSorted d.log) : (∀ q ∈ kept, q.AllMapped d.blocks) ↔ HeadsVouch d := by
  constructor
  · intro mapped older r newer split last positive head q member le
    have present : ¬ Unmapped d.blocks r := by
      intro unmapped
      rcases mapBlocks_eq_zero_iff.mp unmapped with empty | missing
      · omega
      · rw [missing] at head
        cases head
    rw [recovered.split] at member
    rcases List.mem_append.mp member with left | gone
    · exact mapped q left
    · -- then the record itself would be dropped, although it ends its version mapped
      have inDropped : ∃ front, dropped = front ++ r :: newer := by
        have whole := recovered.split.symm.trans split
        rcases List.append_eq_append_iff.mp whole with ⟨front, _, tail⟩ | ⟨front, shape, tail⟩
        · exact ⟨front, tail⟩
        · cases front with
          | nil => exact ⟨[], tail.symm⟩
          | cons f front =>
              obtain ⟨rfl, _⟩ := List.cons.inj tail
              have left : r ∈ kept := by
                rw [shape]
                exact List.mem_append_right _ List.mem_cons_self
              have := recovered.boundary r left q gone
              omega
      obtain ⟨front, shape⟩ := inDropped
      obtain ⟨q', place, same, unmapped⟩ := recovered.unmapped front r newer shape
      rcases List.mem_cons.mp place with rfl | later
      · exact (present unmapped).elim
      · exact (last q' later same).elim
  · intro vouch q left
    rcases List.eq_nil_or_concat kept with rfl | ⟨older, r, shape⟩
    · cases left
    · rw [List.concat_eq_append] at shape
      have accepted := recovered.accepted older r shape
      have inKept : r ∈ kept := by
        rw [shape]
        exact List.mem_append_right _ List.mem_cons_self
      have split : d.log = older ++ r :: dropped := by
        rw [recovered.split, shape, List.append_assoc]
        rfl
      have head := mapBlocks_eq_zero_iff.not.mp accepted
      push Not at head
      refine vouch older r dropped split (fun q' gone => ?_) (by omega)
        (Bool.eq_true_of_not_eq_false head.2) q ?_ ?_
      · have := recovered.boundary r inKept q' gone
        omega
      · rw [recovered.split]
        exact List.mem_append_left _ left
      · rw [shape] at left
        rcases List.mem_append.mp left with earlier | last
        · rw [split] at sorted
          exact (List.pairwise_append.mp sorted).2.2 q earlier r List.mem_cons_self
        · rw [List.mem_singleton.mp last]

end AllOrNothing

/-- Recovery keeps or drops whole versions, exactly when a mapped first block in
the last record of a version vouches for every block up to that version. -/
theorem allOrNothing_doRecovery_iff (readable : ∀ p, readPage p = true) (version : Nat)
    (sorted : VersionsSorted d.log) (positive : ∀ r ∈ d.log, 1 ≤ r.versionNum) :
    AllOrNothing d.log (doRecovery readPage version d).2 ↔ HeadsVouch d := by
  obtain ⟨kept, dropped, recovered⟩ := doRecovery_recovered readable version sorted positive
  exact recovered.allOrNothing_iff.trans (recovered.mapped_iff sorted)

end FlexClone.Scorw
