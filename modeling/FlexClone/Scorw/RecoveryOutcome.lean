import FlexClone.Scorw.Recovery

/-!
# What recovery leaves of the log and of the parent

Cutting the log to the stored version stops at the first page that cannot be read,
so recovery runs on a log it can read (`recoverParent_eq`), and then it only does two
things: it rolls the log back, and it cuts the parent at the end of what is left of
the log (`doRecovery_eq`). The trimming of the log in its last step never finds
anything to do.

* `recoverParent_keeps`: what is left of the log are the records up to the
  recovered version, and lookups up to it resolve as before.
* `orphanFree_recoverParent_iff`: the parent ends where the log or the original file
  does, exactly when the log is not cut to nothing or the parent has not grown.
-/

namespace FlexClone.Scorw

/-! ## Logs that can be read -/

/-- Every record of the log is on a page that can be read. -/
def Readable (readPage : Nat → Bool) (log : List LogRecord) : Prop :=
  ∀ i < log.length, readPage (i / recordsPerPage) = true

/-- What a scan has seen can be read. -/
theorem readPage_of_scanFrom (readPage : Nat → Bool) (log : List LogRecord) {first i : Nat}
    (seen : i < (scanFrom readPage first log).length) :
    readPage ((first + i) / recordsPerPage) = true := by
  induction log generalizing first i with
  | nil => exact absurd seen (Nat.not_lt_zero i)
  | cons r log ih =>
      unfold scanFrom at seen
      split at seen
      case isTrue here =>
        cases i with
        | zero => exact here
        | succ i =>
            have later := ih (Nat.lt_of_succ_lt_succ seen)
            rwa [Nat.add_assoc, Nat.add_comm 1 i] at later
      case isFalse => exact absurd seen (Nat.not_lt_zero i)

theorem Readable.of_length_le {readPage : Nat → Bool} {log shorter : List LogRecord}
    (readable : Readable readPage log) (le : shorter.length ≤ log.length) :
    Readable readPage shorter :=
  fun i inside => readable i (Nat.lt_of_lt_of_le inside le)

theorem truncateLogToVersion_initial (readPage : Nat → Bool) (version : Nat)
    (log : List LogRecord) : truncateLogToVersion readPage version log <+: log :=
  (List.takeWhile_prefix _).trans (exists_scanFrom_append readPage 0 log)

theorem readable_truncateLogToVersion (readPage : Nat → Bool) (version : Nat)
    (log : List LogRecord) : Readable readPage (truncateLogToVersion readPage version log) := by
  have scanned : Readable readPage (scanFrom readPage 0 log) := by
    intro i inside
    have seen := readPage_of_scanFrom readPage log inside
    rwa [Nat.zero_add] at seen
  exact scanned.of_length_le (List.takeWhile_prefix _).length_le

section Readable

variable {readPage : Nat → Bool} {blocks : BlockMap}

/-- Cutting a log that needs no cutting. -/
theorem truncateLogToVersion_of_readable {log : List LogRecord} {version : Nat}
    (readable : Readable readPage log) (low : ∀ r ∈ log, r.versionNum ≤ version) :
    truncateLogToVersion readPage version log = log := by
  have scanned : scanFrom readPage 0 (log ++ []) = log ++ [] :=
    scanFrom_append (fun i inside => by rw [Nat.zero_add]; exact readable i inside) []
  rw [List.append_nil] at scanned
  unfold truncateLogToVersion
  rw [scanned]
  exact List.takeWhile_eq_self_iff.mpr fun r member => decide_eq_true (low r member)

theorem recoveryScan_of_readable {newest : List LogRecord}
    (readable : Readable readPage newest) (st : Rollback) :
    recoveryScan readPage blocks newest st = recoveryScan (fun _ => true) blocks newest st := by
  induction newest generalizing st with
  | nil => rfl
  | cons r older ih =>
      have here : readPage (older.length / recordsPerPage) = true :=
        readable older.length (Nat.lt_succ_self _)
      have rest := ih (readable.of_length_le (Nat.le_succ _))
      simp only [recoveryScan, here, rest]

theorem readRecords_of_all_readable {log : List LogRecord} (readable : Readable readPage log) :
    readRecords readPage log = log.zipIdx := by
  apply List.filter_eq_self.mpr
  intro p member
  apply readable
  have inside := (List.mem_zipIdx member).2.1
  omega

/-- Recovery only looks at the pages of the log. -/
theorem doRecovery_of_readable {d : Disk} (readable : Readable readPage d.log) (version : Nat) :
    doRecovery readPage version d = doRecovery (fun _ => true) version d := by
  have mirrored : Readable readPage d.log.reverse :=
    readable.of_length_le (List.length_reverse).le
  unfold doRecovery
  dsimp only
  rw [recoveryScan_of_readable mirrored,
    readRecords_of_all_readable (readable.of_length_le (List.length_take_le' _ _)),
    readRecords_of_readable fun _ => rfl]

theorem recoverParent_eq (readPage : Nat → Bool) (d : Disk) :
    recoverParent readPage d = doRecovery (fun _ => true) d.currVersionAttr
      { d with log := truncateLogToVersion readPage d.currVersionAttr d.log } :=
  doRecovery_of_readable (readable_truncateLogToVersion readPage d.currVersionAttr d.log) _

end Readable

/-! ## Records that are dropped lie above the recovered version -/

/-- The version that is rolled back only falls, and never below a record that is cut
off. -/
theorem recoveryScan_floor {readPage : Nat → Bool} {blocks : BlockMap}
    {newest : List LogRecord} (sorted : newest.Pairwise fun r q => q.versionNum ≤ r.versionNum)
    (positive : ∀ r ∈ newest, 1 ≤ r.versionNum) {rolled : Nat}
    (bound : 0 < rolled → ∀ r ∈ newest, r.versionNum ≤ rolled) :
    (0 < rolled → (recoveryScan readPage blocks newest
      ⟨rolled, newest.length⟩).rollbackVersion ≤ rolled) ∧
    ∀ newer r older, newest = newer ++ r :: older →
      (recoveryScan readPage blocks newest ⟨rolled, newest.length⟩).validLogEnd ≤ older.length →
        (recoveryScan readPage blocks newest ⟨rolled, newest.length⟩).rollbackVersion ≤
          r.versionNum := by
  induction newest generalizing rolled with
  | nil => exact ⟨fun _ => le_rfl, fun newer r older shape => by simp at shape⟩
  | cons q newest ih =>
      obtain ⟨newer, sortedOlder⟩ := List.pairwise_cons.mp sorted
      have here := positive q List.mem_cons_self
      have boundHere : 0 < rolled → q.versionNum ≤ rolled :=
        fun some => bound some q List.mem_cons_self
      obtain ⟨below, rest⟩ := ih sortedOlder
        (fun r member => positive r (List.mem_cons_of_mem q member)) fun _ => newer
      have lower := below here
      -- once `q` is cut off the scan goes on at the version of `q`
      have dropped : ∀ front r older, q :: newest = front ++ r :: older →
          (recoveryScan readPage blocks newest ⟨q.versionNum, newest.length⟩).validLogEnd ≤
            older.length →
          (recoveryScan readPage blocks newest ⟨q.versionNum, newest.length⟩).rollbackVersion ≤
            r.versionNum := by
        intro front r older shape cut
        rcases List.cons_eq_append_iff.mp shape with ⟨rfl, first⟩ | ⟨front, rfl, tail⟩
        · cases first
          exact lower
        · exact rest front r older tail cut
      have stopped : ∀ front r older, q :: newest = front ++ r :: older →
          ¬ (q :: newest).length ≤ older.length := by
        intro front r older shape
        rw [shape, List.length_append, List.length_cons]
        omega
      unfold recoveryScan
      split
      case isTrue =>
        exact ⟨fun _ => le_rfl, fun front r older shape cut =>
          absurd cut (stopped front r older shape)⟩
      case isFalse =>
        split
        case isTrue skip =>
          have same : q.versionNum = rolled := le_antisymm (boundHere skip.1) skip.2
          subst same
          exact ⟨fun _ => lower, dropped⟩
        case isFalse =>
          split
          case isTrue => exact ⟨fun some => lower.trans (boundHere some), dropped⟩
          case isFalse =>
            exact ⟨fun _ => le_rfl, fun front r older shape cut =>
              absurd cut (stopped front r older shape)⟩

/-- The parts of a log the backward scan separates. -/
theorem exists_rollbackScan_split (blocks : BlockMap) {log : List LogRecord}
    (sorted : VersionsSorted log) (positive : ∀ r ∈ log, 1 ≤ r.versionNum) :
    ∃ kept dropped, log = kept ++ dropped ∧
      log.take (rollbackScan blocks log).validLogEnd = kept ∧
      ScanSplit blocks 0 log.reverse dropped.reverse kept.reverse (rollbackScan blocks log) ∧
      ∀ r ∈ dropped, (rollbackScan blocks log).rollbackVersion ≤ r.versionNum := by
  have order : log.reverse.Pairwise fun r q => q.versionNum ≤ r.versionNum :=
    List.pairwise_reverse.mpr sorted
  have above : ∀ r ∈ log.reverse, 1 ≤ r.versionNum :=
    fun r member => positive r (List.mem_reverse.mp member)
  have start : 0 < 0 → ∀ r ∈ log.reverse, r.versionNum ≤ 0 :=
    fun none => absurd none (Nat.lt_irrefl 0)
  have split : ∃ dropped kept, ScanSplit blocks 0 log.reverse dropped kept
      (recoveryScan (fun _ => true) blocks log.reverse ⟨0, log.reverse.length⟩) :=
    recoveryScan_split (fun _ => rfl) order above 0 start
  have floor : ∀ newer r older, log.reverse = newer ++ r :: older →
      (recoveryScan (fun _ => true) blocks log.reverse ⟨0, log.reverse.length⟩).validLogEnd ≤
        older.length →
      (recoveryScan (fun _ => true) blocks log.reverse
        ⟨0, log.reverse.length⟩).rollbackVersion ≤ r.versionNum :=
    (recoveryScan_floor order above start).2
  rw [List.length_reverse] at split floor
  obtain ⟨dropped, kept, scan⟩ := split
  have whole : log = kept.reverse ++ dropped.reverse := by
    rw [← List.reverse_append, ← scan.split, List.reverse_reverse]
  refine ⟨kept.reverse, dropped.reverse, whole, ?_, ?_, fun r member => ?_⟩
  · have length : (rollbackScan blocks log).validLogEnd = kept.reverse.length := by
      rw [List.length_reverse]
      exact scan.validLogEnd
    rw [length, whole, List.take_left]
  · rw [List.reverse_reverse, List.reverse_reverse]
    exact scan
  · obtain ⟨newer, older, shape⟩ := List.append_of_mem (List.mem_reverse.mp member)
    refine floor newer r (older ++ kept) ?_ ?_
    · rw [scan.split, shape, List.append_assoc, List.cons_append]
    · rw [scan.validLogEnd, List.length_append]
      exact Nat.le_add_left _ _

section History

variable {d : Disk} {version : Nat}

/-- Rolling back leaves the records up to the version it ends at. -/
theorem rollBack_log (sorted : VersionsSorted d.log)
    (versions : ∀ r ∈ d.log, 2 ≤ r.versionNum ∧ r.versionNum ≤ version) :
    (rollBack (rollbackScan d.blocks d.log) version d).2.log =
        d.log.filter (·.versionNum ≤ (rollBack (rollbackScan d.blocks d.log) version d).1) ∧
      (rollBack (rollbackScan d.blocks d.log) version d).1 ≤ version := by
  obtain ⟨kept, dropped, whole, take, scan, floor⟩ := exists_rollbackScan_split d.blocks sorted
    fun r member => Nat.one_le_of_lt (versions r member).1
  generalize rollbackScan d.blocks d.log = result at *
  unfold rollBack
  split
  case isTrue rolled =>
    dsimp only
    have some : dropped ≠ [] := by
      rintro rfl
      rw [scan.untouched rfl] at rolled
      exact Nat.lt_irrefl 0 rolled
    obtain ⟨first, member⟩ := List.exists_mem_of_ne_nil dropped some
    have range := versions first (by rw [whole]; exact List.mem_append_right _ member)
    have low := floor first member
    have left : kept.filter (·.versionNum ≤
        max (result.rollbackVersion - 1) 1) = kept := by
      apply List.filter_eq_self.mpr
      intro q member
      have := scan.above rolled q (List.mem_reverse.mpr member)
      exact decide_eq_true (by omega)
    have gone : dropped.filter (·.versionNum ≤
        max (result.rollbackVersion - 1) 1) = [] := by
      apply List.filter_eq_nil_iff.mpr
      intro r member
      have := floor r member
      have := (versions r (by rw [whole]; exact List.mem_append_right _ member)).1
      rw [decide_eq_true_eq]
      omega
    refine ⟨?_, by omega⟩
    rw [take, whole, List.filter_append, left, gone, List.append_nil]
  case isFalse =>
    refine ⟨?_, le_rfl⟩
    symm
    apply List.filter_eq_self.mpr
    exact fun r member => decide_eq_true (versions r member).2

/-- Cutting a sorted log at a version keeps the records up to that version. -/
theorem VersionsSorted.takeWhile_eq_filter {log : List LogRecord} (sorted : VersionsSorted log)
    (v : Nat) : (log.takeWhile fun r => decide (r.versionNum ≤ v)) =
      log.filter (·.versionNum ≤ v) := by
  induction log with
  | nil => rfl
  | cons r log ih =>
      obtain ⟨newer, sortedRest⟩ := List.pairwise_cons.mp sorted
      by_cases low : r.versionNum ≤ v
      · have hit : decide (r.versionNum ≤ v) = true := decide_eq_true low
        rw [List.takeWhile_cons, List.filter_cons, if_pos hit, if_pos hit, ih sortedRest]
      · have gone : log.filter (·.versionNum ≤ v) = [] := by
          apply List.filter_eq_nil_iff.mpr
          intro q member
          have := newer q member
          rw [decide_eq_true_eq]
          omega
        have miss : ¬ decide (r.versionNum ≤ v) = true := mt of_decide_eq_true low
        rw [List.takeWhile_cons, List.filter_cons, if_neg miss, if_neg miss, gone]

/-- Behind the records up to a version, a sorted log only has records above it. -/
theorem VersionsSorted.exists_filter_append {log : List LogRecord} (sorted : VersionsSorted log)
    (v : Nat) : ∃ later, log = log.filter (·.versionNum ≤ v) ++ later ∧
      ∀ r ∈ later, v < r.versionNum := by
  have whole : (log.takeWhile fun r => decide (r.versionNum ≤ v)) ++
      (log.dropWhile fun r => decide (r.versionNum ≤ v)) = log :=
    List.takeWhile_append_dropWhile
  rw [sorted.takeWhile_eq_filter] at whole
  refine ⟨_, whole.symm, fun r member => ?_⟩
  by_contra low
  -- such a record would be among those up to the version twice
  have twice := congrArg (List.filter (·.versionNum ≤ v)) whole
  simp only [List.filter_append, List.filter_filter, Bool.and_self, List.append_right_eq_self,
    List.filter_eq_nil_iff] at twice
  exact twice r member (decide_eq_true (Nat.not_lt.mp low))

/-- A cut log rolled back is a cut log. -/
theorem recoverParent_log {readPage : Nat → Bool} (readable : ∀ p, readPage p = true)
    (sorted : VersionsSorted d.log) (versions : ∀ r ∈ d.log, 2 ≤ r.versionNum) :
    (recoverParent readPage d).2.log =
      d.log.filter (·.versionNum ≤ (recoverParent readPage d).1) := by
  have cut : truncateLogToVersion readPage d.currVersionAttr d.log =
      d.log.filter (·.versionNum ≤ d.currVersionAttr) := by
    unfold truncateLogToVersion
    rw [scanFrom_of_readable readable, sorted.takeWhile_eq_filter]
  rw [recoverParent_eq, cut]
  by_cases none : d.log.filter (·.versionNum ≤ d.currVersionAttr) = []
  · unfold doRecovery
    rw [if_pos none]
  · have range : ∀ r ∈ d.log.filter (·.versionNum ≤ d.currVersionAttr),
        2 ≤ r.versionNum ∧ r.versionNum ≤ d.currVersionAttr := by
      intro r member
      obtain ⟨inLog, low⟩ := List.mem_filter.mp member
      exact ⟨versions r inLog, of_decide_eq_true low⟩
    have sortedCut : VersionsSorted (d.log.filter (·.versionNum ≤ d.currVersionAttr)) :=
      List.Pairwise.filter _ sorted
    obtain ⟨left, lower⟩ := rollBack_log
      (d := { d with log := d.log.filter (·.versionNum ≤ d.currVersionAttr) }) sortedCut range
    rw [doRecovery_eq d.currVersionAttr none, log_cutParent, left]
    dsimp only
    rw [List.filter_filter]
    apply List.filter_congr
    intro r _
    rw [← Bool.decide_and]
    exact decide_eq_decide.mpr ⟨And.left, fun low => ⟨low, low.trans lower⟩⟩

theorem origSize_recoverParent (readPage : Nat → Bool) (d : Disk) :
    (recoverParent readPage d).2.origSize = d.origSize := by
  rw [recoverParent_eq]
  by_cases none : truncateLogToVersion readPage d.currVersionAttr d.log = []
  · unfold doRecovery
    rw [if_pos none]
  · rw [doRecovery_eq d.currVersionAttr none, origSize_cutParent, origSize_rollBack]

/-- A parent in memory that lies on the disk, whatever it has of the maps. -/
structure Disk.Backs (d : Disk) (s : VersionStore) : Prop where
  log : s.log = d.log
  origSize : s.origSize = d.origSize
  coherent : Coherent s.log s.cache

/-- What is left of the log are the records up to the recovered version, that version
is stored, and lookups at versions up to it resolve as before the crash. -/
theorem recoverParent_keeps {readPage : Nat → Bool} (readable : ∀ p, readPage p = true)
    {d : Disk} (sorted : VersionsSorted d.log) (versions : ∀ r ∈ d.log, 2 ≤ r.versionNum) :
    (recoverParent readPage d).2.log =
        d.log.filter (·.versionNum ≤ (recoverParent readPage d).1) ∧
      (recoverParent readPage d).2.currVersionAttr = (recoverParent readPage d).1 ∧
      ∀ (env env' : Env) (s s' : VersionStore), env.FaultFree → env'.FaultFree →
        d.Backs s → (recoverParent readPage d).2.Backs s' →
        ∀ version ≤ (recoverParent readPage d).1, ∀ blk,
          (lookupPhysicalBlock env' s' version blk).1 =
            (lookupPhysicalBlock env s version blk).1 := by
  have log := recoverParent_log readable sorted versions
  refine ⟨log, (settled_recoverParent readPage d).attr, ?_⟩
  intro env env' s s' clean clean' backs backs' version le blk
  obtain ⟨later, whole, above⟩ := sorted.exists_filter_append (recoverParent readPage d).1
  have high : ∀ r ∈ later, version < r.versionNum :=
    fun r member => lt_of_le_of_lt le (above r member)
  rw [lookupPhysicalBlock_eq clean' backs'.coherent, lookupPhysicalBlock_eq clean backs.coherent,
    backs'.log, backs'.origSize, backs.log, backs.origSize, origSize_recoverParent, log]
  conv_rhs => rw [whole]
  rw [resolve_append_of_above high]

end History

/-! ## Blocks of the parent that the log does not use -/

/-- The end of the extents of a log, in bytes. -/
def extentsEnd (log : List LogRecord) : Nat :=
  (log.map fun r => (r.physicalStartBlk + r.lenBlks) * pageSize).foldr max 0

/-- The parent `d` became `d'`, which reaches no further than the original file and the
extents of the log, and still has every block of them that was there. -/
structure OrphanFree (d d' : Disk) : Prop where
  size : d'.size ≤ max d'.origSize (extentsEnd d'.log)
  mapped : ∀ r ∈ d'.log, ∀ i < r.lenBlks, d.blocks.mapped (r.physicalStartBlk + i) = true →
    d'.blocks.mapped (r.physicalStartBlk + i) = true

theorem loff_le (n : Nat) : loff n ≤ n := by
  have := Int.emod_lt_of_pos (n : Int) (show (0 : Int) < (2 ^ 64 : Nat) by decide)
  unfold loff Int.bmod
  have : (n : Int) % (2 ^ 64 : Nat) ≤ n := by omega
  dsimp only
  split <;> omega

/-- The expected end lies in the original file or in an extent of the log. -/
theorem expectedEnd_le (origSize : Nat) (log : List LogRecord) :
    expectedEnd origSize log.zipIdx ≤ (max origSize (extentsEnd log) : Nat) := by
  have walk : ∀ (first : Nat) (start : Int) (bound : Nat), start ≤ bound →
      (log.zipIdx first).foldl (fun e p => max e p.1.recEnd) start ≤
        (max bound (extentsEnd log) : Nat) := by
    induction log with
    | nil =>
        intro first start bound le
        exact le.trans (Int.ofNat_le.mpr (le_max_left _ _))
    | cons r log ih =>
        intro first start bound le
        have here : r.recEnd ≤ ((r.physicalStartBlk + r.lenBlks) * pageSize : Nat) := loff_le _
        have rest := ih (first + 1) (max start r.recEnd)
          (max bound ((r.physicalStartBlk + r.lenBlks) * pageSize)) (by omega)
        have unfolded : extentsEnd (r :: log) =
            max ((r.physicalStartBlk + r.lenBlks) * pageSize) (extentsEnd log) := rfl
        rw [List.zipIdx_cons, List.foldl_cons, unfolded, ← max_assoc]
        exact rest
  exact walk 0 (loff origSize) origSize (loff_le origSize)

/-- Without a rollback nothing was cut off. -/
theorem recoveryScan_untouched {readPage : Nat → Bool} {blocks : BlockMap}
    {newest : List LogRecord} (positive : ∀ r ∈ newest, 1 ≤ r.versionNum) (st : Rollback) :
    recoveryScan readPage blocks newest st = st ∨
      0 < (recoveryScan readPage blocks newest st).rollbackVersion := by
  induction newest generalizing st with
  | nil => exact .inl rfl
  | cons r older ih =>
      have here := positive r List.mem_cons_self
      have rest := ih fun q member => positive q (List.mem_cons_of_mem r member)
      unfold recoveryScan
      split
      case isTrue => exact .inl rfl
      case isFalse =>
        split
        case isTrue skip =>
          rcases rest { st with validLogEnd := older.length } with same | rolled
          · right
            rw [same]
            exact skip.1
          · exact .inr rolled
        case isFalse =>
          split
          case isTrue =>
            rcases rest ⟨r.versionNum, older.length⟩ with same | rolled
            · right
              rw [same]
              exact here
            · exact .inr rolled
          case isFalse => exact .inl rfl

section Orphans

variable {d : Disk}

theorem rollBack_take (positive : ∀ r ∈ d.log, 1 ≤ r.versionNum) (version : Nat) :
    (rollBack (rollbackScan d.blocks d.log) version d).2.log =
      d.log.take (rollbackScan d.blocks d.log).validLogEnd := by
  have scanned : rollbackScan d.blocks d.log = ⟨0, d.log.length⟩ ∨
      0 < (rollbackScan d.blocks d.log).rollbackVersion :=
    recoveryScan_untouched (fun r member => positive r (List.mem_reverse.mp member)) _
  unfold rollBack
  split
  case isTrue => rfl
  case isFalse untouched =>
    rcases scanned with same | rolled
    · rw [same, List.take_length]
    · exact absurd rolled untouched

/-- Recovery of a log that is not empty leaves no orphans. -/
theorem orphanFree_doRecovery (records : d.log ≠ []) (version : Nat)
    (positive : ∀ r ∈ d.log, 1 ≤ r.versionNum) (lengths : ∀ r ∈ d.log, r.lenBlks ≤ 2 ^ 32) :
    OrphanFree d (doRecovery (fun _ => true) version d).2 := by
  have log := rollBack_take positive version
  have origSize := origSize_rollBack (rollbackScan d.blocks d.log) version d
  have size := size_rollBack (rollbackScan d.blocks d.log) version d
  have blocks := blocks_rollBack (rollbackScan d.blocks d.log) version d
  rw [doRecovery_eq version records]
  generalize (rollBack (rollbackScan d.blocks d.log) version d).2 = rolled at *
  dsimp only
  have limit : usedEnd d ≤ (max rolled.origSize (extentsEnd rolled.log) : Nat) := by
    rw [origSize, log]
    exact expectedEnd_le _ _
  refine ⟨?_, fun r left i inside mapped => ?_⟩
  · rw [log_cutParent, origSize_cutParent]
    unfold cutParent
    split
    case isTrue longer =>
      dsimp only
      omega
    case isFalse fits => omega
  · rw [log_cutParent, log] at left
    have below := recEnd_le_usedEnd left
    have before := block_lt_recEnd_of_lt inside (lengths r (List.mem_of_mem_take left))
      (d.blocks.fits _ mapped)
    unfold cutParent
    split
    case isTrue =>
      rw [← blocks] at mapped
      exact Bool.and_eq_true_iff.mpr ⟨mapped, decide_eq_true (lt_of_lt_of_le before below)⟩
    case isFalse =>
      rw [blocks]
      exact mapped

theorem truncateLogToVersion_ne_nil {readPage : Nat → Bool} {version : Nat}
    {log : List LogRecord} : truncateLogToVersion readPage version log ≠ [] ↔
      readPage 0 = true ∧ ∃ r rest, log = r :: rest ∧ r.versionNum ≤ version := by
  unfold truncateLogToVersion
  cases log with
  | nil => simp [scanFrom]
  | cons r rest =>
      by_cases page : readPage 0 = true
      · simp [scanFrom, page]
      · simp [scanFrom, page]

/-- The parent ends where the log or the original file does, exactly when the log has a
first record to keep or the parent has not grown: recovery leaves a parent alone whose
log is cut to nothing. -/
theorem orphanFree_recoverParent_iff (readPage : Nat → Bool) {d : Disk}
    (positive : ∀ r ∈ d.log, 1 ≤ r.versionNum) (lengths : ∀ r ∈ d.log, r.lenBlks < 2 ^ 32) :
    OrphanFree d (recoverParent readPage d).2 ↔
      (readPage 0 = true ∧ ∃ r rest, d.log = r :: rest ∧ r.versionNum ≤ d.currVersionAttr) ∨
        d.size ≤ d.origSize := by
  rw [← truncateLogToVersion_ne_nil, recoverParent_eq]
  have part := (truncateLogToVersion_initial readPage d.currVersionAttr d.log).subset
  by_cases none : truncateLogToVersion readPage d.currVersionAttr d.log = []
  · unfold doRecovery
    rw [none, if_pos rfl]
    constructor
    · intro free
      right
      have size := free.size
      unfold extentsEnd at size
      simpa using size
    · rintro (some | short)
      · exact absurd rfl some
      · exact ⟨short.trans (le_max_left _ _), fun r member => absurd member List.not_mem_nil⟩
  · refine ⟨fun _ => .inl none, fun _ => ?_⟩
    have free := orphanFree_doRecovery
      (d := { d with log := truncateLogToVersion readPage d.currVersionAttr d.log }) none
      d.currVersionAttr (fun r member => positive r (part member))
      fun r member => (lengths r (part member)).le
    exact ⟨free.size, free.mapped⟩

end Orphans

end FlexClone.Scorw
