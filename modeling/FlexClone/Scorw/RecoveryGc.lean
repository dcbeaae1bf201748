import FlexClone.Scorw.Gc
import FlexClone.Scorw.RecoveryInts

/-!
# Recovery followed by garbage collection

The first open after a mount recovers the parent and then punches the blocks that no
version needs. The collector unmaps blocks that records still point to, and recovery
takes an unmapped first block for a lost version. The two do not collide: the backward
scan ends at the newest record that is left, and the collector only punches blocks
that a later binding replaces, of which there is none for the first block of that
record (`head_not_punched`).

`open_parent_idempotent`: opening the parent once more changes nothing. Block numbers
of a record have 64 bits, those of a file 32, so this takes extents that lie in the
file. Versions of records and attributes are converted to `int`, so it also takes a
stored version that is one. What the children have stored does not matter.
-/

namespace FlexClone.Scorw

open Versioned

/-- Holes are punched for some blocks. -/
def BlockMap.punch (blocks : BlockMap) (garbage : List Nat) : BlockMap where
  mapped := fun blk => blocks.mapped blk && !garbage.contains blk
  fits := fun blk both => blocks.fits blk (Bool.and_eq_true_iff.mp both).1

namespace Ints

/-- The body of the loop over the children: `active_vers[k] == v` compares an `int` with an
`unsigned long`. -/
def addChild (activeVers : List Int) (c : ChildInode) : List Int :=
  if c.loadable then
    if activeVers.any fun a => decide (ulong a = c.version) then activeVers
    else activeVers ++ [int c.version]
  else activeVers

/-- Step 1 of `scorw_gc_blocks`. -/
def activeVersions (children : List ChildInode) (version : Int) : List Int :=
  let activeVers := children.foldl addChild [0]
  exchangeSort (if version ∈ activeVers then activeVers else activeVers ++ [version])

/-- `scorw_gc_find_next_active` -/
def gcFindNextActive (targetVer : Int) (activeVers : List Int) : Int :=
  (activeVers.find? fun a => decide (targetVer ≤ a)).getD (-1)

/-- The body of the block loop. -/
def gcBlock (activeVers : List Int) (versionNum : Nat) (st : GcState) (l pNew : Nat) : GcState :=
  let oldState := st.stateMap l
  let vPrev := int ((oldState.map GcBlockState.version).getD 0)
  let pPrev := (oldState.map GcBlockState.physicalBlock).getD l
  let aNext := gcFindNextActive vPrev activeVers
  ⟨Function.update st.stateMap l (some ⟨versionNum, pNew⟩),
    if aNext = -1 ∨ versionNum ≤ unsigned aNext then pPrev :: st.garbageBlocks
    else st.garbageBlocks⟩

/-- The body of the record loop. -/
def gcRecord (activeVers : List Int) (st : GcState) (r : LogRecord) : GcState :=
  if 0 < r.versionNum then
    (List.range r.lenBlks).foldl
      (fun st k => gcBlock activeVers r.versionNum st (u32 (r.logicalStartBlk + k))
        (r.physicalStartBlk + k)) st
  else st

/-- `scorw_gc_blocks`: the blocks that are punched. -/
def gcBlocks (readPage : Nat → Bool) (children : List ChildInode) (version : Int)
    (log : List LogRecord) : List Nat :=
  ((scanFrom readPage 0 log).foldl (gcRecord (activeVersions children version))
    ⟨fun _ => none, []⟩).garbageBlocks.map u32

/-- `scorw_gc_blocks` of a parent whose version in memory is `version`. -/
def collectParent (readPage : Nat → Bool) (children : List ChildInode) (version : Int)
    (d : Disk) : Disk :=
  { d with blocks := d.blocks.punch (gcBlocks readPage children version d.log) }

/-- What `scorw_prepare_par_inode` does on the first open after a mount. -/
def openParent (readPage : Nat → Bool) (children : List ChildInode) (d : Disk) : Int × Disk :=
  let recovered := recoverParent readPage d
  (recovered.1, collectParent readPage children recovered.1 recovered.2)

/-! ## The scan is a collector -/

theorem int_lt (n : Nat) : int n < 2 ^ 31 := by
  have upper := Int.bmod_lt (x := n) (m := 2 ^ 32) (by decide)
  unfold int
  omega

/-- Version `0` is active, and every active version is an `int`. -/
theorem activeVersions_range (children : List ChildInode) {version : Int}
    (small : version < 2 ^ 31) :
    0 ∈ activeVersions children version ∧
      ∀ a ∈ activeVersions children version, a < 2 ^ 31 := by
  have found : ∀ (cs : List ChildInode) (activeVers : List Int),
      0 ∈ activeVers ∧ (∀ a ∈ activeVers, a < 2 ^ 31) →
        0 ∈ cs.foldl addChild activeVers ∧ ∀ a ∈ cs.foldl addChild activeVers, a < 2 ^ 31 := by
    intro cs
    induction cs with
    | nil => exact fun _ range => range
    | cons c cs ih =>
        intro activeVers range
        apply ih
        unfold addChild
        split
        · split
          · exact range
          · refine ⟨List.mem_append_left _ range.1, fun a member => ?_⟩
            rcases List.mem_append.mp member with old | new
            · exact range.2 a old
            · rw [List.mem_singleton.mp new]
              exact int_lt _
        · exact range
  have children : 0 ∈ children.foldl addChild [0] ∧
      ∀ a ∈ children.foldl addChild [0], a < 2 ^ 31 := by
    refine found children [0] ⟨List.mem_cons_self, fun a member => ?_⟩
    rw [List.mem_singleton.mp member]
    decide
  unfold activeVersions
  dsimp only
  simp only [(exchangeSort_perm _).mem_iff]
  split
  · exact children
  · refine ⟨List.mem_append_left _ children.1, fun a member => ?_⟩
    rcases List.mem_append.mp member with old | new
    · exact children.2 a old
    · rw [List.mem_singleton.mp new]
      exact small

/-- Some active version lies from `v` up to, but not including, `w`. -/
def neededBy (activeVers : List Int) (v w : Nat) : Bool :=
  activeVers.any fun a => decide ((v : Int) ≤ a ∧ a < w)

/-- The test of the block loop. -/
theorem unneeded_iff {activeVers : List Int} (sorted : activeVers.Pairwise (· ≤ ·))
    (range : ∀ a ∈ activeVers, a < 2 ^ 31) (v w : Nat) :
    (gcFindNextActive v activeVers = -1 ∨ w ≤ unsigned (gcFindNextActive v activeVers)) ↔
      ¬ neededBy activeVers v w = true := by
  unfold gcFindNextActive neededBy
  induction activeVers with
  | nil => simp
  | cons b activeVers ih =>
      obtain ⟨first, rest⟩ := List.pairwise_cons.mp sorted
      have here := range b List.mem_cons_self
      rw [List.find?_cons, List.any_cons, Bool.or_eq_true, decide_eq_true_eq]
      by_cases reached : (v : Int) ≤ b
      · have exact : (unsigned b : Int) = b := by
          unfold unsigned
          omega
        have later : w ≤ unsigned b →
            ¬ (activeVers.any fun a => decide ((v : Int) ≤ a ∧ a < w)) = true := by
          intro above some
          obtain ⟨a, member, inside⟩ := List.any_eq_true.mp some
          have := first a member
          have := of_decide_eq_true inside
          omega
        rw [decide_eq_true reached]
        dsimp only [Option.getD_some]
        constructor
        · rintro (none | above)
          · omega
          · rintro (inside | some)
            · omega
            · exact later above some
        · intro unneeded
          right
          by_contra below
          exact unneeded (.inl ⟨reached, by omega⟩)
      · rw [decide_eq_false reached,
          ih rest fun a member => range a (List.mem_cons_of_mem b member)]
        constructor
        · rintro unneeded (inside | some)
          · exact reached inside.1
          · exact unneeded some
        · exact fun unneeded some => unneeded (.inr some)

/-- The versions in the table are those of records. -/
def Bounded (st : GcState) : Prop := ∀ l b, st.stateMap l = some b → b.version < 2 ^ 31

section Collected

variable {activeVers : List Int} (sorted : activeVers.Pairwise (· ≤ ·))
  (range : ∀ a ∈ activeVers, a < 2 ^ 31) {st : GcState}

include sorted range in
theorem collector_gcBlock {versionNum : Nat} (small : versionNum < 2 ^ 31) (bounded : Bounded st)
    (l pNew : Nat) :
    (gcBlock activeVers versionNum st l pNew).collector =
        st.collector.step (neededBy activeVers) id ⟨versionNum, l, pNew⟩ ∧
      Bounded (gcBlock activeVers versionNum st l pNew) := by
  have version : st.collector.version l = ((st.stateMap l).map GcBlockState.version).getD 0 := by
    unfold Collector.version GcState.collector
    rw [Option.map_map]
    rfl
  have value : st.collector.value id l =
      ((st.stateMap l).map GcBlockState.physicalBlock).getD l := by
    unfold Collector.value GcState.collector
    rw [Option.map_map]
    rfl
  have previous : ((st.stateMap l).map GcBlockState.version).getD 0 < 2 ^ 31 := by
    cases found : st.stateMap l with
    | none => exact Nat.two_pow_pos 31
    | some b => exact bounded l b found
  constructor
  · unfold gcBlock Collector.step
    dsimp only
    rw [version, value, int_of_lt previous]
    unfold GcState.collector
    congr 1
    · funext k
      dsimp only
      rw [Function.update_apply, Function.update_apply]
      split
      · rfl
      · rfl
    · simp only [unneeded_iff sorted range, ite_not]
  · intro k b found
    unfold gcBlock at found
    dsimp only at found
    rw [Function.update_apply] at found
    split at found
    · cases found
      exact small
    · exact bounded k b found

include sorted range in
theorem collector_gcRecord {r : LogRecord} (versions : 1 ≤ r.versionNum ∧ r.versionNum < 2 ^ 31)
    (bounded : Bounded st) :
    (gcRecord activeVers st r).collector =
        r.entries.foldl (Collector.step (neededBy activeVers) id) st.collector ∧
      Bounded (gcRecord activeVers st r) := by
  unfold gcRecord LogRecord.entries
  rw [if_pos (Nat.pos_of_ne_zero (Nat.ne_zero_of_lt versions.1)), List.foldl_map]
  induction List.range r.lenBlks generalizing st with
  | nil => exact ⟨rfl, bounded⟩
  | cons k ks ih =>
      obtain ⟨same, bounded⟩ := collector_gcBlock sorted range versions.2 bounded
        (u32 (r.logicalStartBlk + k)) (r.physicalStartBlk + k)
      rw [List.foldl_cons, List.foldl_cons, ← same]
      exact ih bounded

include sorted range in
theorem collector_gcRecords {log : List LogRecord}
    (versions : ∀ r ∈ log, 1 ≤ r.versionNum ∧ r.versionNum < 2 ^ 31) (bounded : Bounded st) :
    (log.foldl (gcRecord activeVers) st).collector =
      (entries log).foldl (Collector.step (neededBy activeVers) id) st.collector := by
  unfold entries
  rw [List.foldl_flatMap]
  induction log generalizing st with
  | nil => rfl
  | cons r log ih =>
      obtain ⟨same, bounded⟩ :=
        collector_gcRecord sorted range (versions r List.mem_cons_self) bounded
      rw [List.foldl_cons, List.foldl_cons, ← same]
      exact ih (fun q member => versions q (List.mem_cons_of_mem r member)) bounded

end Collected

/-- The punched blocks are the garbage of the log's bindings. -/
theorem gcBlocks_eq (readPage : Nat → Bool) (children : List ChildInode) {version : Int}
    (small : version < 2 ^ 31) {log : List LogRecord}
    (versions : ∀ r ∈ log, 1 ≤ r.versionNum ∧ r.versionNum < 2 ^ 31) :
    gcBlocks readPage children version log =
      (Collector.collect (neededBy (activeVersions children version)) id
        (entries (scanFrom readPage 0 log))).garbage.map u32 := by
  obtain ⟨rest, whole⟩ := exists_scanFrom_append readPage 0 log
  have scanned : ∀ r ∈ scanFrom readPage 0 log, 1 ≤ r.versionNum ∧ r.versionNum < 2 ^ 31 := by
    intro r member
    apply versions r
    rw [← whole]
    exact List.mem_append_left rest member
  have empty : Bounded ⟨fun _ => none, []⟩ := fun _ _ none => by cases none
  have walk := collector_gcRecords (exchangeSort_sorted _)
    (activeVersions_range children small).2 scanned empty
  exact congrArg (fun c => c.garbage.map u32) walk

/-- The collector answers for the active versions that are not negative. -/
theorem serves_activeVersions (children : List ChildInode) {version : Int}
    (small : version < 2 ^ 31) :
    Serves (neededBy (activeVersions children version))
      fun a => (a : Int) ∈ activeVersions children version where
  base := (activeVersions_range children small).1
  iff := by
    intro v w
    unfold neededBy
    rw [List.any_eq_true]
    constructor
    · rintro ⟨a, member, inside⟩
      obtain ⟨lower, upper⟩ := of_decide_eq_true inside
      obtain ⟨n, rfl⟩ := Int.eq_ofNat_of_zero_le (by omega : 0 ≤ a)
      exact ⟨n, member, by omega, by omega⟩
    · rintro ⟨a, member, lower, upper⟩
      exact ⟨a, member, decide_eq_true ⟨by omega, by omega⟩⟩

end Ints

/-! ## The newest record keeps its first block -/

/-- The first binding of a record, and the ones behind it. -/
theorem entries_eq_cons {r : LogRecord} (some : 0 < r.lenBlks) :
    ∃ tail, r.entries =
        ⟨r.versionNum, u32 r.logicalStartBlk, r.physicalStartBlk⟩ :: tail ∧
      ∀ f ∈ tail, ∃ i, 0 < i ∧ i < r.lenBlks ∧ f.key = u32 (r.logicalStartBlk + i) := by
  obtain ⟨n, length⟩ := Nat.exists_eq_add_of_lt some
  rw [Nat.zero_add] at length
  refine ⟨(List.range n).map fun i => ⟨r.versionNum, u32 (r.logicalStartBlk + (i + 1)),
    r.physicalStartBlk + (i + 1)⟩, ?_, ?_⟩
  · unfold LogRecord.entries
    rw [length, List.range_succ_eq_map, List.map_cons, List.map_map]
    rfl
  · intro f member
    obtain ⟨i, inside, rfl⟩ := List.mem_map.mp member
    have := List.mem_range.mp inside
    exact ⟨i + 1, Nat.succ_pos i, by omega, rfl⟩

/-- Within one record no logical block comes twice. -/
theorem u32_add_ne {start i : Nat} (pos : 0 < i) (small : i < 2 ^ 32) :
    u32 start ≠ u32 (start + i) := by
  unfold u32
  omega

section Head

variable {log : List LogRecord} {r : LogRecord}

/-- Nothing replaces the first block of the last record of a log. -/
theorem head_not_punched
    (positive : ∀ q ∈ log ++ [r], 1 ≤ q.versionNum ∧ q.versionNum < 2 ^ 31)
    (apart : (log ++ [r]).Pairwise fun q q' => ∀ p, q.Extent p → ¬ q'.Extent p)
    (inFile : ∀ q ∈ log ++ [r], ∀ p, q.Extent p → p < 2 ^ 32) (some : 0 < r.lenBlks)
    (readPage : Nat → Bool) (children : List ChildInode) {version : Int}
    (small : version < 2 ^ 31) :
    r.physicalStartBlk ∉ Ints.gcBlocks readPage children version (log ++ [r]) := by
  intro punched
  rw [Ints.gcBlocks_eq readPage children small positive] at punched
  obtain ⟨x, scanned, cut⟩ := List.mem_map.mp punched
  obtain ⟨rest, whole⟩ := exists_scanFrom_append readPage 0 (log ++ [r])
  have garbage : x ∈ (Collector.collect
      (Ints.neededBy (Ints.activeVersions children version)) id
      (entries (log ++ [r]))).garbage := by
    rw [← whole, entries_append]
    exact mem_garbage_append _ scanned
  have versions : ∀ e ∈ entries (log ++ [r]), 1 ≤ e.version :=
    forall_entries_version (P := (1 ≤ ·)) fun q member => (positive q member).1
  obtain ⟨before, e, after, f, split, member, rfl, key, _⟩ :=
    exists_of_garbage (Ints.serves_activeVersions children small) versions garbage
  have bound : e ∈ entries (log ++ [r]) := by
    rw [split]
    exact List.mem_append_left _ member
  obtain ⟨q, inLog, inRecord⟩ := mem_entries.mp bound
  rw [u32_of_lt (inFile q inLog _ (extent_of_mem_recordEntries inRecord))] at cut
  -- the binding of the block is the first one of the record
  obtain ⟨tail, shape, later⟩ := entries_eq_cons some
  have distinct := entries_values_distinct apart
  have nodup : ((entries (log ++ [r])).map Entry.value).Nodup := List.pairwise_map.mpr distinct
  have listed : entries (log ++ [r]) = entries log ++
      ⟨r.versionNum, u32 r.logicalStartBlk, r.physicalStartBlk⟩ :: tail := by
    rw [entries_append, entries_singleton, shape]
  have head : ⟨r.versionNum, u32 r.logicalStartBlk, r.physicalStartBlk⟩ ∈
      entries (log ++ [r]) := by
    rw [listed]
    exact List.mem_append_right _ List.mem_cons_self
  obtain rfl := List.inj_on_of_nodup_map nodup bound head cut
  -- so what replaces it is behind it in the same record
  have replaced : f ∈ tail := by
    rw [listed] at split distinct
    have absent : ⟨r.versionNum, u32 r.logicalStartBlk, r.physicalStartBlk⟩ ∉ entries log :=
      fun early => (List.pairwise_append.mp distinct).2.2 _ early _ List.mem_cons_self rfl
    rcases List.append_eq_append_iff.mp split with ⟨front, shape', rest'⟩ | ⟨front, shape', _⟩
    · cases front with
      | nil =>
          rw [shape', List.append_nil] at member
          exact absurd member absent
      | cons e' front =>
          obtain ⟨_, tail'⟩ := List.cons.inj rest'
          rw [tail']
          exact List.mem_append_right _ List.mem_cons_self
    · rw [shape'] at absent
      exact absurd (List.mem_append_left _ member) absent
  obtain ⟨i, pos, inside, same⟩ := later f replaced
  have last := inFile r (List.mem_append_right _ List.mem_cons_self)
    (r.physicalStartBlk + (r.lenBlks - 1)) ⟨Nat.le_add_right _ _, by omega⟩
  rw [same] at key
  exact u32_add_ne pos (by omega) key

end Head

/-! ## Once more -/

/-- Logs a parent can be opened twice with. -/
structure Reopenable (log : List LogRecord) : Prop where
  sorted : VersionsSorted log
  versions : ∀ r ∈ log, 2 ≤ r.versionNum
  apart : log.Pairwise fun r q => ∀ p, r.Extent p → ¬ q.Extent p
  /-- block numbers are of type `ext4_lblk_t` -/
  inFile : ∀ r ∈ log, ∀ p, r.Extent p → p < 2 ^ 32

theorem Reopenable.of_sublist {log part : List LogRecord} (reopenable : Reopenable log)
    (sublist : part.Sublist log) : Reopenable part where
  sorted := reopenable.sorted.sublist sublist
  versions := fun r member => reopenable.versions r (sublist.subset member)
  apart := reopenable.apart.sublist sublist
  inFile := fun r member => reopenable.inFile r (sublist.subset member)

theorem BlockMap.punch_punch (blocks : BlockMap) (garbage : List Nat) :
    (blocks.punch garbage).punch garbage = blocks.punch garbage := by
  unfold BlockMap.punch
  congr 1
  funext blk
  dsimp only
  rw [Bool.and_assoc, Bool.and_self]

/-- Cutting once more where holes were punched in between. -/
theorem cutParent_punched (limit : Int) (d : Disk) (garbage : List Nat) :
    cutParent limit { cutParent limit d with
        blocks := (cutParent limit d).blocks.punch garbage } =
      { cutParent limit d with blocks := (cutParent limit d).blocks.punch garbage } := by
  by_cases longer : limit < d.size
  · have once : cutParent limit d =
        { d with size := limit.toNat, blocks := d.blocks.truncate limit } := if_pos longer
    rw [once]
    unfold cutParent
    dsimp only
    split
    case isTrue =>
      congr 1
      unfold BlockMap.punch BlockMap.truncate
      congr 1
      funext blk
      dsimp only
      cases d.blocks.mapped blk <;> cases decide (((blk * pageSize : Nat) : Int) < limit) <;>
        cases garbage.contains blk <;> rfl
    case isFalse => rfl
  · have once : cutParent limit d = d := if_neg longer
    rw [once]
    exact if_neg longer

/-- What recovery leaves for the collector. -/
structure ReadyToCollect (readPage : Nat → Bool) (d : Disk) (result : Nat × Disk) : Prop where
  readable : Readable readPage result.2.log
  low : ∀ r ∈ result.2.log, r.versionNum ≤ result.1
  least : result.1 ≤ d.currVersionAttr
  attr : result.2.currVersionAttr = result.1
  part : result.2.log.Sublist d.log
  /-- the newest record ended the backward scan -/
  head : ∀ older r, result.2.log = older ++ [r] → ¬ Unmapped result.2.blocks r
  cut : result.2.log ≠ [] → ∃ before,
    result.2 = cutParent (expectedEnd result.2.origSize result.2.log.zipIdx) before

section Reopen

variable {readPage : Nat → Bool} {d : Disk}

theorem Reopenable.lenBlks_le {log : List LogRecord} (reopenable : Reopenable log) :
    ∀ r ∈ log, r.lenBlks ≤ 2 ^ 32 := by
  intro r member
  by_contra long
  have last := reopenable.inFile r member (r.physicalStartBlk + (r.lenBlks - 1))
    ⟨Nat.le_add_right _ _, by omega⟩
  omega

theorem readyToCollect_doRecovery (records : d.log ≠ []) (readable : Readable readPage d.log)
    (reopenable : Reopenable d.log) {version : Nat}
    (low : ∀ r ∈ d.log, r.versionNum ≤ version) (attr : d.currVersionAttr = version) :
    ReadyToCollect readPage d (doRecovery (fun _ => true) version d) := by
  have positive : ∀ r ∈ d.log, 1 ≤ r.versionNum :=
    fun r member => Nat.one_le_of_lt (reopenable.versions r member)
  obtain ⟨kept, dropped, whole, take, scan, _⟩ :=
    exists_rollbackScan_split d.blocks reopenable.sorted positive
  have log : (doRecovery (fun _ => true) version d).2.log = kept := by
    rw [doRecovery_eq version records, log_cutParent, rollBack_take positive, take]
  have part : kept.Sublist d.log := by
    rw [whole]
    exact List.sublist_append_left kept dropped
  refine
    { readable := ?_
      low := ?_
      least := ?_
      attr := ?_
      part := ?_
      head := ?_
      cut := ?_ }
  · rw [log]
    exact readable.of_length_le part.length_le
  · have filtered := (rollBack_log reopenable.sorted fun r member =>
      ⟨reopenable.versions r member, low r member⟩).1
    rw [doRecovery_eq version records, log_cutParent, filtered]
    exact fun r member => of_decide_eq_true (List.mem_filter.mp member).2
  · rw [doRecovery_eq version records, attr]
    exact (rollBack_log reopenable.sorted fun r member =>
      ⟨reopenable.versions r member, low r member⟩).2
  · have settled : Settled d (version, d) := ⟨attr, fun pos => attr ▸ pos, List.prefix_refl _⟩
    exact (settled.doRecovery fun _ => true).attr
  · rw [log]
    exact part
  · intro older r shape
    have left : r ∈ (doRecovery (fun _ => true) version d).2.log := by
      rw [shape]
      exact List.mem_append_right _ List.mem_cons_self
    rw [log] at shape left
    have accepted : ¬ Unmapped d.blocks r := by
      apply scan.accepted r older.reverse
      rw [shape, List.reverse_append]
      rfl
    have first := mapBlocks_eq_zero_iff.not.mp accepted
    push Not at first
    have some : 0 < r.lenBlks := Nat.pos_of_ne_zero first.1
    have small : r.physicalStartBlk < 2 ^ 32 := reopenable.inFile r (part.subset left)
      r.physicalStartBlk ⟨le_rfl, Nat.lt_add_of_pos_right some⟩
    rw [u32_of_lt small] at first
    have free := orphanFree_doRecovery records version positive reopenable.lenBlks_le
    have mapped := free.mapped r (by rw [log]; exact left) 0 some
      (Bool.eq_true_of_not_eq_false first.2)
    intro unmapped
    rcases mapBlocks_eq_zero_iff.mp unmapped with empty | missing
    · exact first.1 empty
    · rw [u32_of_lt small] at missing
      rw [Nat.add_zero, missing] at mapped
      cases mapped
  · intro _
    rw [log]
    rw [doRecovery_eq version records, origSize_cutParent]
    refine ⟨(rollBack (rollbackScan d.blocks d.log) version d).2, ?_⟩
    rw [origSize_rollBack, ← take]
    rfl

theorem readyToCollect_recoverParent (reopenable : Reopenable d.log) :
    ReadyToCollect readPage d (recoverParent readPage d) := by
  have part := truncateLogToVersion_initial readPage d.currVersionAttr d.log
  have readable := readable_truncateLogToVersion readPage d.currVersionAttr d.log
  have low : ∀ r ∈ truncateLogToVersion readPage d.currVersionAttr d.log,
      r.versionNum ≤ d.currVersionAttr := by
    intro r member
    have holds := List.mem_takeWhile_imp member
    exact of_decide_eq_true holds
  rw [recoverParent_eq]
  generalize truncateLogToVersion readPage d.currVersionAttr d.log = log at *
  by_cases none : log = []
  · subst none
    exact
      { readable := readable
        low := low
        least := le_rfl
        attr := rfl
        part := part.sublist
        head := fun older r shape => by simp [doRecovery] at shape
        cut := fun some => absurd rfl some }
  · have ready := readyToCollect_doRecovery (d := { d with log := log }) none readable
      (reopenable.of_sublist part.sublist) low rfl
    exact { ready with part := ready.part.trans part.sublist }

/-- Recovering a parent that is ready: the scan stops at the newest record. -/
theorem recoverParent_of_ready (readable : Readable readPage d.log)
    (low : ∀ r ∈ d.log, r.versionNum ≤ d.currVersionAttr) {older : List LogRecord}
    {r : LogRecord} (shape : d.log = older ++ [r]) (head : ¬ Unmapped d.blocks r) :
    recoverParent readPage d =
      (d.currVersionAttr, cutParent (expectedEnd d.origSize d.log.zipIdx) d) := by
  have records : d.log ≠ [] := by
    rw [shape]
    exact List.append_ne_nil_of_right_ne_nil _ (List.cons_ne_nil r [])
  have scan : rollbackScan d.blocks d.log = ⟨0, d.log.length⟩ := by
    unfold Unmapped at head
    unfold rollbackScan
    rw [shape, List.reverse_append, List.reverse_singleton, List.singleton_append, recoveryScan,
      if_neg Bool.noConfusion, if_neg fun skip => absurd skip.1 (Nat.lt_irrefl 0), if_neg head]
  rw [recoverParent_eq, truncateLogToVersion_of_readable readable low,
    doRecovery_eq d.currVersionAttr records]
  unfold usedEnd
  rw [scan, List.take_length]
  rfl

/-- Punching garbage spares the newest record. -/
theorem ReadyToCollect.punched {result : Nat × Disk} (ready : ReadyToCollect readPage d result)
    (reopenable : Reopenable d.log) (small : result.1 < 2 ^ 31) (children : List ChildInode)
    {older : List LogRecord} {r : LogRecord} (shape : result.2.log = older ++ [r]) :
    ¬ Unmapped (Ints.collectParent readPage children result.1 result.2).blocks r := by
  have first := mapBlocks_eq_zero_iff.not.mp (ready.head older r shape)
  push Not at first
  have some : 0 < r.lenBlks := Nat.pos_of_ne_zero first.1
  have left := reopenable.of_sublist ready.part
  have low := ready.low
  rw [shape] at left low
  have inFile : r.physicalStartBlk < 2 ^ 32 :=
    left.inFile r (List.mem_append_right _ List.mem_cons_self) r.physicalStartBlk
      ⟨le_rfl, Nat.lt_add_of_pos_right some⟩
  have versions : ∀ q ∈ older ++ [r], 1 ≤ q.versionNum ∧ q.versionNum < 2 ^ 31 :=
    fun q member => ⟨Nat.one_le_of_lt (left.versions q member), lt_of_le_of_lt (low q member) small⟩
  have spared := head_not_punched versions left.apart left.inFile some readPage children
    (Int.ofNat_lt.mpr small)
  rw [← shape] at spared
  intro unmapped
  rcases mapBlocks_eq_zero_iff.mp unmapped with empty | missing
  · exact first.1 empty
  · rw [u32_of_lt inFile] at missing first
    rcases Bool.and_eq_false_iff.mp missing with before | hole
    · exact first.2 before
    · rw [Bool.not_eq_false', List.contains_iff_mem] at hole
      exact spared hole

theorem recoverParent_of_nil (readPage : Nat → Bool) (none : d.log = []) :
    recoverParent readPage d = (d.currVersionAttr, d) := by
  have same : { d with log := truncateLogToVersion readPage d.currVersionAttr d.log } = d := by
    obtain ⟨log, attr, origSize, size, blocks⟩ := d
    cases none
    rfl
  unfold recoverParent
  rw [same]
  exact if_pos none

theorem collectParent_collectParent (readPage : Nat → Bool) (children : List ChildInode)
    (version : Int) (d : Disk) :
    Ints.collectParent readPage children version (Ints.collectParent readPage children version d) =
      Ints.collectParent readPage children version d := by
  unfold Ints.collectParent
  rw [BlockMap.punch_punch]

/-- Opening the parent once more, with nothing in between, changes nothing. -/
theorem open_parent_idempotent (readPage : Nat → Bool) (children : List ChildInode) {d : Disk}
    (stored : d.currVersionAttr < 2 ^ 31) (reopenable : Reopenable d.log) :
    Ints.openParent readPage children (Ints.openParent readPage children d).2 =
      Ints.openParent readPage children d := by
  have ready : ReadyToCollect readPage d (recoverParent readPage d) :=
    readyToCollect_recoverParent reopenable
  have small : (recoverParent readPage d).1 < 2 ^ 31 := lt_of_le_of_lt ready.least stored
  have head : ∀ older r, (recoverParent readPage d).2.log = older ++ [r] →
      ¬ Unmapped (Ints.collectParent readPage children (recoverParent readPage d).1
        (recoverParent readPage d).2).blocks r :=
    fun older r shape => ready.punched reopenable small children shape
  have first : Ints.openParent readPage children d = (((recoverParent readPage d).1 : Int),
      Ints.collectParent readPage children (recoverParent readPage d).1
        (recoverParent readPage d).2) := by
    unfold Ints.openParent
    rw [Ints.recoverParent_eq readPage stored]
  rw [first]
  generalize recoverParent readPage d = result at *
  obtain ⟨version, recovered⟩ := result
  dsimp only at *
  have attr : (Ints.collectParent readPage children version recovered).currVersionAttr = version :=
    ready.attr
  have again : recoverParent readPage (Ints.collectParent readPage children version recovered) =
      (version, Ints.collectParent readPage children version recovered) := by
    rcases List.eq_nil_or_concat recovered.log with none | ⟨older, r, shape⟩
    · have empty : (Ints.collectParent readPage children version recovered).log = [] := none
      rw [recoverParent_of_nil readPage empty, attr]
    · rw [List.concat_eq_append] at shape
      have some : recovered.log ≠ [] := by
        rw [shape]
        exact List.append_ne_nil_of_right_ne_nil _ (List.cons_ne_nil r [])
      obtain ⟨before, cut⟩ := ready.cut some
      dsimp only at cut
      have kept := cutParent_punched (expectedEnd recovered.origSize recovered.log.zipIdx) before
        (Ints.gcBlocks readPage children version recovered.log)
      rw [← cut] at kept
      have scanned := recoverParent_of_ready
        (d := Ints.collectParent readPage children version recovered) ready.readable
        (fun q member => (ready.low q member).trans attr.ge) shape (head older r shape)
      rw [scanned, attr]
      exact congrArg (version, ·) kept
  unfold Ints.openParent
  rw [Ints.recoverParent_eq readPage (by rw [attr]; exact small), again]
  dsimp only
  rw [collectParent_collectParent]

end Reopen

/-- Version 3 has replaced the only block of version 2. -/
def replaced : Disk := ⟨[⟨2, 0, 2, 1⟩, ⟨3, 0, 3, 1⟩], 3, 8192, 16384, .upTo 4⟩

/-- The block of version 2 is punched, and the next open still finds version 3. -/
theorem open_parent_idempotent_replaced :
    (Ints.openParent (fun _ => true) [] replaced).2.blocks.mapped 2 = false ∧
      Ints.openParent (fun _ => true) [] (Ints.openParent (fun _ => true) [] replaced).2 =
        Ints.openParent (fun _ => true) [] replaced := by
  have order : replaced.log.Pairwise fun r q =>
      r.physicalStartBlk + r.lenBlks ≤ q.physicalStartBlk := by decide
  have small : ∀ r ∈ replaced.log, r.physicalStartBlk + r.lenBlks ≤ 2 ^ 32 := by decide
  have sorted : VersionsSorted replaced.log := by
    unfold VersionsSorted
    decide
  exact ⟨by decide +kernel, open_parent_idempotent (fun _ => true) [] (by decide)
    { sorted := sorted
      versions := by decide
      apart := order.imp fun le _ => LogRecord.Extent.apart le
      inFile := fun r member _ extent => Nat.lt_of_lt_of_le extent.2 (small r member) }⟩

/-- A record of version 3 names a block that no file has. In 32 bits it is the block of
version 2. -/
def beyondFile : Disk := ⟨[⟨2, 0, 7, 1⟩, ⟨3, 0, 2 ^ 32 + 7, 1⟩], 3, 28672, 32768, .upTo 8⟩

/-- The newest version is not an `int`, and its block is not mapped. -/
def beyondInt : Disk := ⟨[⟨2, 0, 2, 1⟩, ⟨2 ^ 31 + 5, 0, 3, 1⟩], 2 ^ 31 + 5, 8192, 16384, .upTo 3⟩

/-- The block of version 2 is punched, and the next open rolls both versions back. So it is
where the first open does not roll the newest version back because it is not an `int`. -/
theorem open_parent_idempotent_fails :
    (VersionsSorted beyondFile.log ∧ (∀ r ∈ beyondFile.log, 2 ≤ r.versionNum) ∧
      (beyondFile.log.Pairwise fun r q => ∀ p, r.Extent p → ¬ q.Extent p) ∧
      (∀ r ∈ beyondFile.log, ∀ p, r.Extent p → beyondFile.origSize ≤ p * pageSize) ∧
      (Ints.openParent (fun _ => true) [] beyondFile).1 = 3 ∧
      (Ints.openParent (fun _ => true) [] (Ints.openParent (fun _ => true) [] beyondFile).2).1 =
        1) ∧
    Reopenable beyondInt.log ∧
      (Ints.openParent (fun _ => true) [] beyondInt).1 = 5 - 2 ^ 31 ∧
      (Ints.openParent (fun _ => true) [] (Ints.openParent (fun _ => true) [] beyondInt).2).1 =
        1 := by
  have order : beyondFile.log.Pairwise fun r q =>
      r.physicalStartBlk + r.lenBlks ≤ q.physicalStartBlk := by decide
  have order' : beyondInt.log.Pairwise fun r q =>
      r.physicalStartBlk + r.lenBlks ≤ q.physicalStartBlk := by decide
  have above : ∀ r ∈ beyondFile.log,
      beyondFile.origSize ≤ r.physicalStartBlk * pageSize := by decide
  have sorted : VersionsSorted beyondFile.log := by
    unfold VersionsSorted
    decide
  have sorted' : VersionsSorted beyondInt.log := by
    unfold VersionsSorted
    decide
  have small : ∀ r ∈ beyondInt.log, r.physicalStartBlk + r.lenBlks ≤ 2 ^ 32 := by decide
  exact ⟨⟨sorted, by decide, order.imp fun le _ => LogRecord.Extent.apart le,
    fun r member _ => LogRecord.Extent.appended (above r member), by decide +kernel,
    by decide +kernel⟩,
    { sorted := sorted'
      versions := by decide
      apart := order'.imp fun le _ => LogRecord.Extent.apart le
      inFile := fun r member _ extent => Nat.lt_of_lt_of_le extent.2 (small r member) },
    by decide +kernel, by decide +kernel⟩

end FlexClone.Scorw
