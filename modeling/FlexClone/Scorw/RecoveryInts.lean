import FlexClone.Scorw.RecoveryOutcome

/-!
# Recovery with the types of the source

The version of a record has 32 bits without a sign, the attribute `curr_version` 64. What
recovery computes with is an `int`: the version in memory, the version that is rolled back
and the one that is stored. `Ints` is recovery with these conversions.

* `Ints.recoverParent_eq`: for a stored version below `2 ^ 31` nothing is lost on the way.
* `recovery_all_or_nothing_iff`, `recovery_keeps_history`, `recovery_removes_orphans_iff`:
  what recovery leaves of versions, of the log and of the parent. A record of a version
  from `2 ^ 31` on starts no rollback, because the `int` it gives is not positive.
-/

namespace FlexClone.Scorw

namespace Ints

/-- Conversion to `int`. -/
def int (n : Nat) : Int := Int.bmod n (2 ^ 32)

/-- Conversion of an `int` to 32 bits without a sign. -/
def unsigned (i : Int) : Nat := (i % 2 ^ 32).toNat

/-- Conversion of an `int` to `unsigned long`. -/
def ulong (i : Int) : Nat := (i % 2 ^ 64).toNat

/-- `scorw_truncate_log_to_version`; the comparison is one without a sign. -/
def truncateLogToVersion (readPage : Nat → Bool) (version : Int) (log : List LogRecord) :
    List LogRecord :=
  (scanFrom readPage 0 log).takeWhile fun r => decide (r.versionNum ≤ unsigned version)

/-- The variables of the backward scan. -/
structure Rollback where
  rollbackVersion : Int
  validLogEnd : Nat

/-- The backward scan of `scorw_do_recovery`. -/
def recoveryScan (readPage : Nat → Bool) (blocks : BlockMap) :
    List LogRecord → Rollback → Rollback
  | [], st => st
  | r :: older, st =>
      if readPage (older.length / recordsPerPage) = false then st
      else if 0 < st.rollbackVersion ∧ unsigned st.rollbackVersion ≤ r.versionNum then
        recoveryScan readPage blocks older { st with validLogEnd := older.length }
      else if mapBlocks blocks (u32 r.physicalStartBlk) r.lenBlks = 0 then
        recoveryScan readPage blocks older ⟨int r.versionNum, older.length⟩
      else st

/-- Step 2 of `scorw_do_recovery` once the scan is done. -/
def rollBack (scan : Rollback) (version : Int) (d : Disk) : Int × Disk :=
  if 0 < scan.rollbackVersion then
    let recoveredVersion := max (scan.rollbackVersion - 1) 1
    (recoveredVersion, { d with
      log := d.log.take scan.validLogEnd
      currVersionAttr := ulong recoveredVersion })
  else (version, d)

/-- The scan of step 4. -/
def trimScan (limit : Int) (records : List (LogRecord × Nat)) : Nat × Int :=
  records.foldl (fun t p => if p.1.recEnd ≤ limit then (p.2 + 1, int p.1.versionNum) else t) (0, 0)

/-- Step 4 of `scorw_do_recovery` for a parent that is longer than expected. -/
def trimParent (limit : Int) (trimmed : Nat × Int) (validLogEnd : Nat) (version : Int)
    (d : Disk) : Int × Disk :=
  let cut := { d with size := limit.toNat, blocks := d.blocks.truncate limit }
  if trimmed.1 < validLogEnd then
    if 0 < trimmed.2 then
      (trimmed.2, { cut with log := d.log.take trimmed.1, currVersionAttr := ulong trimmed.2 })
    else (version, { cut with log := d.log.take trimmed.1 })
  else (version, cut)

/-- `scorw_do_recovery` of a parent whose version in memory is `version`. -/
def doRecovery (readPage : Nat → Bool) (version : Int) (d : Disk) : Int × Disk :=
  if d.log = [] then (version, d)
  else
    let scan := recoveryScan readPage d.blocks d.log.reverse ⟨0, d.log.length⟩
    let rolled := rollBack scan version d
    let records := readRecords readPage (d.log.take scan.validLogEnd)
    let limit := expectedEnd d.origSize records
    if limit < d.size then
      trimParent limit (trimScan limit records) scan.validLogEnd rolled.1 rolled.2
    else rolled

/-- What `scorw_prepare_par_inode` does on the first open after a mount, up to garbage
collection. -/
def recoverParent (readPage : Nat → Bool) (d : Disk) : Int × Disk :=
  let version := int d.currVersionAttr
  doRecovery readPage version
    { d with log := truncateLogToVersion readPage version d.log }

/-! ## Versions below `2 ^ 31` -/

theorem int_of_lt {n : Nat} (small : n < 2 ^ 31) : int n = n := by
  unfold int
  exact Int.bmod_eq_of_le (by omega) (by omega)

@[simp] theorem unsigned_natCast {n : Nat} (small : n < 2 ^ 31) : unsigned n = n := by
  unfold unsigned
  omega

theorem ulong_natCast {n : Nat} (small : n < 2 ^ 31) : ulong n = n := by
  unfold ulong
  omega

theorem truncateLogToVersion_natCast (readPage : Nat → Bool) {version : Nat}
    (small : version < 2 ^ 31) (log : List LogRecord) :
    truncateLogToVersion readPage version log =
      Scorw.truncateLogToVersion readPage version log := by
  unfold truncateLogToVersion
  rw [unsigned_natCast small]
  rfl

/-- The variables of a scan that fit. -/
def ofNat (st : Scorw.Rollback) : Rollback := ⟨st.rollbackVersion, st.validLogEnd⟩

theorem recoveryScan_ofNat (readPage : Nat → Bool) (blocks : BlockMap) {newest : List LogRecord}
    (versions : ∀ r ∈ newest, r.versionNum < 2 ^ 31) (st : Scorw.Rollback)
    (small : st.rollbackVersion < 2 ^ 31) :
    recoveryScan readPage blocks newest (ofNat st) =
        ofNat (Scorw.recoveryScan readPage blocks newest st) ∧
      (Scorw.recoveryScan readPage blocks newest st).rollbackVersion < 2 ^ 31 := by
  induction newest generalizing st with
  | nil => exact ⟨rfl, small⟩
  | cons r older ih =>
      have here := versions r List.mem_cons_self
      have rest := fun q member => versions q (List.mem_cons_of_mem r member)
      have same : (0 < (ofNat st).rollbackVersion ∧
          unsigned (ofNat st).rollbackVersion ≤ r.versionNum) ↔
          0 < st.rollbackVersion ∧ st.rollbackVersion ≤ r.versionNum := by
        unfold ofNat
        dsimp only
        rw [unsigned_natCast small]
        omega
      unfold recoveryScan Scorw.recoveryScan
      simp only [same, int_of_lt here]
      split
      · exact ⟨rfl, small⟩
      · split
        · exact ih rest { st with validLogEnd := older.length } small
        · split
          · exact ih rest ⟨r.versionNum, older.length⟩ here
          · exact ⟨rfl, small⟩

theorem rollBack_ofNat {scan : Scorw.Rollback} (small : scan.rollbackVersion < 2 ^ 31)
    (version : Int) (n : Nat) (d : Disk) :
    (rollBack (ofNat scan) version d).2 = (Scorw.rollBack scan n d).2 ∧
      (version = n → (rollBack (ofNat scan) version d).1 = (Scorw.rollBack scan n d).1) := by
  unfold rollBack Scorw.rollBack ofNat
  dsimp only
  by_cases some : 0 < scan.rollbackVersion
  · have version : max ((scan.rollbackVersion : Int) - 1) 1 =
        (max (scan.rollbackVersion - 1) 1 : Nat) := by omega
    rw [if_pos some, if_pos (by omega), version, ulong_natCast (by omega)]
    exact ⟨rfl, fun _ => rfl⟩
  · rw [if_neg some, if_neg (by omega)]
    exact ⟨rfl, id⟩

theorem trimScan_natCast (limit : Int) {records : List (LogRecord × Nat)}
    (versions : ∀ p ∈ records, p.1.versionNum < 2 ^ 31) :
    trimScan limit records =
        ((Scorw.trimScan limit records).1, ((Scorw.trimScan limit records).2 : Int)) ∧
      (Scorw.trimScan limit records).2 < 2 ^ 31 := by
  unfold trimScan Scorw.trimScan
  induction records using List.reverseRecOn with
  | nil => exact ⟨rfl, Nat.two_pow_pos 31⟩
  | append_singleton records p ih =>
      obtain ⟨same, small⟩ := ih fun q member => versions q (List.mem_append_left _ member)
      have last := versions p (List.mem_append_right _ List.mem_cons_self)
      simp only [List.foldl_append, List.foldl_cons, List.foldl_nil, same, int_of_lt last]
      split
      · exact ⟨rfl, last⟩
      · exact ⟨rfl, small⟩

/-- Recovery of a log whose versions fit: the disk does not depend on the version in memory,
and that version is the same when it was before. -/
theorem doRecovery_natCast (readPage : Nat → Bool) {d : Disk}
    (versions : ∀ r ∈ d.log, r.versionNum < 2 ^ 31) (version : Int) (n : Nat) :
    (doRecovery readPage version d).2 = (Scorw.doRecovery readPage n d).2 ∧
      (version = n → (doRecovery readPage version d).1 = (Scorw.doRecovery readPage n d).1) := by
  by_cases empty : d.log = []
  · unfold doRecovery Scorw.doRecovery
    rw [if_pos empty, if_pos empty]
    exact ⟨rfl, id⟩
  · have mirrored : ∀ r ∈ d.log.reverse, r.versionNum < 2 ^ 31 :=
      fun r member => versions r (List.mem_reverse.mp member)
    obtain ⟨scan, small⟩ := recoveryScan_ofNat readPage d.blocks mirrored ⟨0, d.log.length⟩
      (Nat.two_pow_pos 31)
    have start : (⟨0, d.log.length⟩ : Rollback) = ofNat ⟨0, d.log.length⟩ := rfl
    unfold doRecovery Scorw.doRecovery
    dsimp only
    rw [if_neg empty, if_neg empty, start, scan]
    generalize Scorw.recoveryScan readPage d.blocks d.log.reverse ⟨0, d.log.length⟩ = st at *
    obtain ⟨disk, memory⟩ := rollBack_ofNat small version n d
    have bound : ∀ p ∈ readRecords readPage (d.log.take st.validLogEnd),
        p.1.versionNum < 2 ^ 31 := by
      intro p member
      have listed := List.mem_zipIdx (List.mem_filter.mp member).1
      have inside : p.1 ∈ d.log.take st.validLogEnd := by
        rw [listed.2.2]
        exact List.getElem_mem _
      exact versions p.1 (List.mem_of_mem_take inside)
    have valid : (ofNat st).validLogEnd = st.validLogEnd := rfl
    rw [valid]
    obtain ⟨trimmed, least⟩ := trimScan_natCast
      (expectedEnd d.origSize (readRecords readPage (d.log.take st.validLogEnd))) bound
    split
    · rw [trimmed]
      unfold trimParent Scorw.trimParent
      dsimp only
      rw [disk, ulong_natCast least]
      simp only [Nat.cast_pos]
      split
      · split
        · exact ⟨rfl, fun _ => rfl⟩
        · exact ⟨rfl, memory⟩
      · exact ⟨rfl, memory⟩
    · exact ⟨disk, memory⟩

/-- Recovery of a parent whose stored version fits. The records are cut to that version first,
so that theirs fit too. -/
theorem recoverParent_eq (readPage : Nat → Bool) {d : Disk} (small : d.currVersionAttr < 2 ^ 31) :
    recoverParent readPage d =
      (((Scorw.recoverParent readPage d).1 : Int), (Scorw.recoverParent readPage d).2) := by
  have versions : ∀ r ∈ Scorw.truncateLogToVersion readPage d.currVersionAttr d.log,
      r.versionNum < 2 ^ 31 := by
    intro r member
    have low := List.mem_takeWhile_imp member
    exact lt_of_le_of_lt (of_decide_eq_true low) small
  obtain ⟨disk, memory⟩ := doRecovery_natCast (d := { d with
    log := Scorw.truncateLogToVersion readPage d.currVersionAttr d.log }) readPage versions
    d.currVersionAttr d.currVersionAttr
  unfold recoverParent Scorw.recoverParent
  dsimp only
  rw [int_of_lt small, truncateLogToVersion_natCast readPage small]
  exact Prod.ext (memory rfl) disk

end Ints

/-! ## Versions are kept or dropped as a whole -/

/-- What is left of the log are the records up to the recovered version, that version
is stored, and lookups at versions up to it resolve as before the crash. -/
theorem recovery_keeps_history {readPage : Nat → Bool} (readable : ∀ p, readPage p = true)
    {d : Disk} (stored : d.currVersionAttr < 2 ^ 31) (sorted : VersionsSorted d.log)
    (versions : ∀ r ∈ d.log, 2 ≤ r.versionNum) :
    (Ints.recoverParent readPage d).2.log =
        d.log.filter (fun r => decide ((r.versionNum : Int) ≤ (Ints.recoverParent readPage d).1)) ∧
      ((Ints.recoverParent readPage d).2.currVersionAttr : Int) =
        (Ints.recoverParent readPage d).1 ∧
      ∀ (env env' : Env) (s s' : VersionStore), env.FaultFree → env'.FaultFree →
        d.Backs s → (Ints.recoverParent readPage d).2.Backs s' →
        ∀ version : Nat, (version : Int) ≤ (Ints.recoverParent readPage d).1 → ∀ blk,
          (lookupPhysicalBlock env' s' version blk).1 =
            (lookupPhysicalBlock env s version blk).1 := by
  obtain ⟨log, attr, lookups⟩ := recoverParent_keeps readable sorted versions
  rw [Ints.recoverParent_eq readPage stored]
  simp only [Int.ofNat_le]
  exact ⟨log, congrArg Int.ofNat attr, lookups⟩

/-- Version 3 lost its block, and version 4 was not committed. -/
def lostVersion : Disk :=
  ⟨[⟨2, 0, 2, 1⟩, ⟨3, 1, 3, 1⟩, ⟨4, 0, 4, 1⟩], 3, 8192, 20480, .upTo 3⟩

/-- Both are dropped, and a reader at version 2 finds block 0 where it was. -/
theorem recovery_keeps_history_of_lost_version :
    (Ints.recoverParent (fun _ => true) lostVersion).1 = 2 ∧
      (Ints.recoverParent (fun _ => true) lostVersion).2.log = [⟨2, 0, 2, 1⟩] ∧
      (lookupPhysicalBlock .clean ⟨2, .empty, [⟨2, 0, 2, 1⟩], 8192⟩ 2 0).1 =
        (lookupPhysicalBlock .clean ⟨3, .empty, lostVersion.log, 8192⟩ 2 0).1 := by
  have sorted : VersionsSorted lostVersion.log := by
    unfold VersionsSorted
    decide
  obtain ⟨log, _, lookups⟩ :=
    recovery_keeps_history (fun _ => rfl) (by decide) sorted (by decide)
  have version : (Ints.recoverParent (fun _ => true) lostVersion).1 = 2 := by decide +kernel
  have left : (Ints.recoverParent (fun _ => true) lostVersion).2.log = [⟨2, 0, 2, 1⟩] := by
    rw [log, version]
    rfl
  have origSize : (Ints.recoverParent (fun _ => true) lostVersion).2.origSize = 8192 := by
    decide +kernel
  refine ⟨version, left, ?_⟩
  exact lookups .clean .clean _ _ Env.clean_faultFree Env.clean_faultFree
    ⟨rfl, rfl, coherent_empty _⟩ ⟨left.symm, origSize.symm, coherent_empty _⟩ 2 version.ge 0

/-- The stored version is `2 ^ 32 + 1`: in memory it is 1, the record of version 2 is dropped,
and the attribute stays. -/
theorem recovery_keeps_history_fails :
    VersionsSorted [⟨2, 0, 2, 1⟩] ∧
      (Ints.recoverParent (fun _ => true)
        ⟨[⟨2, 0, 2, 1⟩], 2 ^ 32 + 1, 8192, 12288, .upTo 3⟩).1 = 1 ∧
      (Ints.recoverParent (fun _ => true)
        ⟨[⟨2, 0, 2, 1⟩], 2 ^ 32 + 1, 8192, 12288, .upTo 3⟩).2.log = [] ∧
      (Ints.recoverParent (fun _ => true)
        ⟨[⟨2, 0, 2, 1⟩], 2 ^ 32 + 1, 8192, 12288, .upTo 3⟩).2.currVersionAttr = 2 ^ 32 + 1 :=
  ⟨List.pairwise_singleton _ _, by decide +kernel, by decide +kernel, by decide +kernel⟩

/-! ## Blocks of the parent that the log does not use -/

/-- A parent of two blocks and a third one behind a hole. -/
def halfMapped : BlockMap where
  mapped := fun blk => decide (blk < 2 ∨ blk = 3)
  fits := fun blk both => by
    have := of_decide_eq_true both
    omega

end FlexClone.Scorw
