import FlexClone.ExchangeSort
import FlexClone.Versioned.Garbage
import FlexClone.Scorw.VersionCache

/-!
# Garbage collection of appended blocks

`gcBlocks` is `scorw_gc_blocks`: it collects the versions of the parent and its
children, walks the log forwards with a table of the latest block of every
logical block, and punches a block that is replaced when no version lies between
its own and that of its successor.

The walk is an instance of the collector of `Versioned.Garbage`
(`gcBlocks_eq`). `gc_exact`: on logs of the versions the table can hold, no block
a lookup leads to is punched, no block of the original file is, and every
replaced block that no version leads to is.
-/

namespace FlexClone.Scorw

open Versioned

/-- A child listed in the parent's attributes. -/
structure ChildInode where
  /-- does `ext4_iget` succeed? -/
  loadable : Bool
  /-- the attribute `curr_version`, `0` if it is missing -/
  currVersion : Nat
  /-- the attribute `child_version`, `0` if it is missing -/
  childVersion : Nat

/-- The version `scorw_gc_blocks` takes a child to have. -/
def ChildInode.version (c : ChildInode) : Nat :=
  if c.currVersion = 0 then c.childVersion else c.currVersion

/-- Add a version to `active_vers` unless it is there. -/
def addActive (activeVers : List Nat) (v : Nat) : List Nat :=
  if v ∈ activeVers then activeVers else activeVers ++ [v]

/-- The body of the loop over the children. -/
def addChild (activeVers : List Nat) (c : ChildInode) : List Nat :=
  if c.loadable then addActive activeVers c.version else activeVers

/-- Step 1 of `scorw_gc_blocks`: version `0`, the children's and the parent's
version, in ascending order. -/
def activeVersions (children : List ChildInode) (version : Nat) : List Nat :=
  exchangeSort (addActive (children.foldl addChild [0]) version)

/-- `scorw_gc_find_next_active`; `none` is `-1`. -/
def gcFindNextActive (targetVer : Nat) (activeVers : List Nat) : Option Nat :=
  activeVers.find? fun a => decide (targetVer ≤ a)

/-- `struct gc_block_state` -/
structure GcBlockState where
  version : Nat
  physicalBlock : Nat

/-- The two arrays of the scan. -/
structure GcState where
  stateMap : Nat → Option GcBlockState
  garbageBlocks : List Nat

/-- The body of the block loop. -/
def gcBlock (activeVers : List Nat) (versionNum : Nat) (st : GcState) (l pNew : Nat) : GcState :=
  let oldState := st.stateMap l
  let vPrev := (oldState.map GcBlockState.version).getD 0
  let pPrev := (oldState.map GcBlockState.physicalBlock).getD l
  let garbageBlocks :=
    match gcFindNextActive vPrev activeVers with
    | none => pPrev :: st.garbageBlocks
    | some aNext =>
        if versionNum ≤ aNext then pPrev :: st.garbageBlocks else st.garbageBlocks
  ⟨Function.update st.stateMap l (some ⟨versionNum, pNew⟩), garbageBlocks⟩

/-- The body of the record loop. -/
def gcRecord (activeVers : List Nat) (st : GcState) (r : LogRecord) : GcState :=
  if 0 < r.versionNum then
    (List.range r.lenBlks).foldl
      (fun st k => gcBlock activeVers r.versionNum st (u32 (r.logicalStartBlk + k))
        (r.physicalStartBlk + k)) st
  else st

/-- `scorw_gc_blocks`: the blocks that are punched. Their numbers are converted to
`ext4_lblk_t`. -/
def gcBlocks (readPage : Nat → Bool) (children : List ChildInode) (version : Nat)
    (log : List LogRecord) : List Nat :=
  ((scanFrom readPage 0 log).foldl (gcRecord (activeVersions children version))
    ⟨fun _ => none, []⟩).garbageBlocks.map u32

/-! ## Active versions -/

theorem mem_addActive {activeVers : List Nat} {v a : Nat} :
    a ∈ addActive activeVers v ↔ a ∈ activeVers ∨ a = v := by
  unfold addActive
  split
  case isTrue present =>
    constructor
    · exact .inl
    · rintro (old | rfl)
      · exact old
      · exact present
  case isFalse => rw [List.mem_append, List.mem_singleton]

theorem mem_foldl_addChild {children : List ChildInode} {activeVers : List Nat} {a : Nat}
    (loadable : ∀ c ∈ children, c.loadable = true) :
    a ∈ children.foldl addChild activeVers ↔ a ∈ activeVers ∨ ∃ c ∈ children, c.version = a := by
  induction children generalizing activeVers with
  | nil => simp
  | cons c children ih =>
      have others : ∀ d ∈ children, d.loadable = true :=
        fun d member => loadable d (List.mem_cons_of_mem c member)
      rw [List.foldl_cons, ih others]
      unfold addChild
      rw [if_pos (loadable c List.mem_cons_self), mem_addActive, List.exists_mem_cons_iff, or_assoc,
        eq_comm]

/-- The versions lookups are made at: the parent's and those of its children. -/
def Active (children : List ChildInode) (version v : Nat) : Prop :=
  v = version ∨ ∃ c ∈ children, c.version = v

theorem mem_activeVersions {children : List ChildInode} {version a : Nat}
    (loadable : ∀ c ∈ children, c.loadable = true) :
    a ∈ activeVersions children version ↔ a = 0 ∨ Active children version a := by
  unfold activeVersions Active
  rw [(exchangeSort_perm _).mem_iff, mem_addActive, mem_foldl_addChild loadable,
    List.mem_singleton, or_assoc]
  exact or_congr_right or_comm

/-- Some active version lies from `v` up to, but not including, `w`. -/
def neededBy (activeVers : List Nat) (v w : Nat) : Bool :=
  (gcFindNextActive v activeVers).any fun aNext => decide (aNext < w)

/-- In a sorted list the first version that is not below `v` is the smallest one. -/
theorem neededBy_iff {activeVers : List Nat} (sorted : activeVers.Pairwise (· ≤ ·)) {v w : Nat} :
    neededBy activeVers v w = true ↔ ∃ a ∈ activeVers, v ≤ a ∧ a < w := by
  unfold neededBy gcFindNextActive
  constructor
  · intro some
    obtain ⟨a, found, below⟩ := (Option.any_eq_true _ _).mp some
    have least := List.find?_some found
    exact ⟨a, List.mem_of_find?_eq_some found, of_decide_eq_true least, of_decide_eq_true below⟩
  · rintro ⟨a, member, lower, upper⟩
    induction activeVers with
    | nil => cases member
    | cons b activeVers ih =>
        obtain ⟨first, rest⟩ := List.pairwise_cons.mp sorted
        rw [List.find?_cons]
        by_cases here : v ≤ b
        · rw [decide_eq_true here, Option.any_some]
          apply decide_eq_true
          rcases List.mem_cons.mp member with rfl | later
          · exact upper
          · exact lt_of_le_of_lt (first a later) upper
        · rw [decide_eq_false here]
          rcases List.mem_cons.mp member with rfl | later
          · exact (here lower).elim
          · exact ih rest later

/-- The collector answers for the versions it found, version `0` among them. -/
theorem serves_mem_activeVersions (children : List ChildInode) (version : Nat) :
    Serves (neededBy (activeVersions children version))
      (· ∈ activeVersions children version) where
  base := by
    have kept : ∀ (cs : List ChildInode) (activeVers : List Nat), 0 ∈ activeVers →
        0 ∈ cs.foldl addChild activeVers := by
      intro cs
      induction cs with
      | nil => exact fun _ base => base
      | cons c cs ih =>
          intro activeVers base
          apply ih
          unfold addChild
          split
          · exact mem_addActive.mpr (.inl base)
          · exact base
    unfold activeVersions
    rw [(exchangeSort_perm _).mem_iff, mem_addActive]
    exact .inl (kept children [0] List.mem_cons_self)
  iff := fun _ _ => neededBy_iff (exchangeSort_sorted _)

theorem serves_activeVersions {children : List ChildInode}
    (loadable : ∀ c ∈ children, c.loadable = true) (version : Nat) :
    Serves (neededBy (activeVersions children version))
      fun a => a = 0 ∨ Active children version a where
  base := .inl rfl
  iff := by
    intro v w
    rw [(serves_mem_activeVersions children version).iff]
    simp only [mem_activeVersions loadable]

/-! ## The scan is a collector -/

/-- The scan's arrays as a collector. -/
def GcState.collector (st : GcState) : Collector Nat Nat where
  latest := fun l => (st.stateMap l).map fun b => (b.version, b.physicalBlock)
  garbage := st.garbageBlocks

theorem collector_gcBlock (activeVers : List Nat) (versionNum : Nat) (st : GcState)
    (l pNew : Nat) :
    (gcBlock activeVers versionNum st l pNew).collector =
      st.collector.step (neededBy activeVers) id ⟨versionNum, l, pNew⟩ := by
  have version : st.collector.version l = ((st.stateMap l).map GcBlockState.version).getD 0 := by
    unfold Collector.version GcState.collector
    rw [Option.map_map]
    rfl
  have value : st.collector.value id l =
      ((st.stateMap l).map GcBlockState.physicalBlock).getD l := by
    unfold Collector.value GcState.collector
    rw [Option.map_map]
    rfl
  unfold gcBlock Collector.step
  dsimp only
  rw [version, value]
  unfold GcState.collector neededBy
  congr 1
  · funext k
    dsimp only
    rw [Function.update_apply, Function.update_apply]
    split
    · rfl
    · rfl
  · cases gcFindNextActive _ activeVers with
    | none => rfl
    | some aNext => simp only [Option.any_some, decide_eq_true_eq, ← Nat.not_lt, ite_not]

theorem collector_gcRecord (activeVers : List Nat) (st : GcState) {r : LogRecord}
    (pos : 0 < r.versionNum) :
    (gcRecord activeVers st r).collector =
      r.entries.foldl (Collector.step (neededBy activeVers) id) st.collector := by
  unfold gcRecord LogRecord.entries
  rw [if_pos pos, List.foldl_map]
  induction List.range r.lenBlks generalizing st with
  | nil => rfl
  | cons k ks ih => rw [List.foldl_cons, List.foldl_cons, ih, collector_gcBlock]

theorem collector_gcRecords (activeVers : List Nat) {log : List LogRecord}
    (pos : ∀ r ∈ log, 0 < r.versionNum) (st : GcState) :
    (log.foldl (gcRecord activeVers) st).collector =
      (entries log).foldl (Collector.step (neededBy activeVers) id) st.collector := by
  unfold entries
  rw [List.foldl_flatMap]
  induction log generalizing st with
  | nil => rfl
  | cons r log ih =>
      have rest : ∀ q ∈ log, 0 < q.versionNum :=
        fun q member => pos q (List.mem_cons_of_mem r member)
      rw [List.foldl_cons, List.foldl_cons, ih rest,
        collector_gcRecord activeVers st (pos r List.mem_cons_self)]

/-- The punched blocks are the garbage of the log's bindings. -/
theorem gcBlocks_eq {readPage : Nat → Bool} {children : List ChildInode} {version : Nat}
    {log : List LogRecord} (pos : ∀ r ∈ log, 0 < r.versionNum) :
    gcBlocks readPage children version log =
      (Collector.collect (neededBy (activeVersions children version)) id
        (entries (scanFrom readPage 0 log))).garbage.map u32 := by
  have scanned : ∀ r ∈ scanFrom readPage 0 log, 0 < r.versionNum := by
    intro r member
    obtain ⟨rest, whole⟩ := exists_scanFrom_append readPage 0 log
    apply pos r
    rw [← whole]
    exact List.mem_append_left rest member
  have walk := collector_gcRecords (activeVersions children version) scanned ⟨fun _ => none, []⟩
  exact congrArg (fun c => c.garbage.map u32) walk

/-! ## Exactness -/

/-- Block `p` belongs to the record's extent. -/
def LogRecord.Extent (r : LogRecord) (p : Nat) : Prop :=
  r.physicalStartBlk ≤ p ∧ p < r.physicalStartBlk + r.lenBlks

theorem LogRecord.Extent.apart {r q : LogRecord}
    (order : r.physicalStartBlk + r.lenBlks ≤ q.physicalStartBlk) {p : Nat} (first : r.Extent p) :
    ¬ q.Extent p := fun second =>
  absurd (Nat.lt_of_lt_of_le first.2 order) (Nat.not_lt.mpr second.1)

theorem LogRecord.Extent.appended {r : LogRecord} {origSize : Nat}
    (above : origSize ≤ r.physicalStartBlk * pageSize) {p : Nat} (extent : r.Extent p) :
    origSize ≤ p * pageSize :=
  above.trans (Nat.mul_le_mul_right pageSize extent.1)

/-- Logs the collection is exact on. -/
structure Collectable (log : List LogRecord) (origSize : Nat) : Prop where
  sorted : VersionsSorted log
  versions : ∀ r ∈ log, 1 ≤ r.versionNum ∧ r.versionNum ≤ maxVersions
  apart : log.Pairwise fun r q => ∀ p, r.Extent p → ¬ q.Extent p
  appended : ∀ r ∈ log, ∀ p, r.Extent p → origSize ≤ p * pageSize
  /-- block numbers are of type `ext4_lblk_t` -/
  blocks : ∀ r ∈ log, ∀ p, r.Extent p → p < 2 ^ 32

theorem extent_of_mem_recordEntries {r : LogRecord} {e : Entry Nat Nat} (member : e ∈ r.entries) :
    r.Extent e.value := by
  obtain ⟨i, lt, rfl⟩ := mem_recordEntries.mp member
  exact ⟨Nat.le_add_right _ _, Nat.add_lt_add_left lt _⟩

/-- Every appended block is the target of one binding, when extents do not overlap. -/
theorem entries_values_distinct {log : List LogRecord}
    (apart : log.Pairwise fun r q => ∀ p, r.Extent p → ¬ q.Extent p) :
    (entries log).Pairwise fun e f => e.value ≠ f.value := by
  refine List.pairwise_flatMap.mpr ⟨fun r _ => ?_, apart.imp ?_⟩
  · refine List.pairwise_map.mpr (List.nodup_range.imp ?_)
    intro i j other same
    exact other (Nat.add_left_cancel same)
  · intro r q apart e first f second same
    have inside := extent_of_mem_recordEntries first
    rw [same] at inside
    exact apart _ inside (extent_of_mem_recordEntries second)

section Exactness

variable {log : List LogRecord} {origSize version : Nat} {children : List ChildInode}

theorem Collectable.positive (collectable : Collectable log origSize) :
    ∀ e ∈ entries log, 1 ≤ e.version :=
  forall_entries_version (P := (1 ≤ ·)) fun r member => (collectable.versions r member).1

theorem Collectable.distinct (collectable : Collectable log origSize) :
    (entries log).Pairwise fun e f => e.value ≠ f.value :=
  entries_values_distinct collectable.apart

/-- Lookups see every version of the log. -/
theorem Collectable.resolve_eq (collectable : Collectable log origSize) (v blk : Nat) :
    resolve log origSize v blk =
      (History.visible (entries log) v blk).or
        (if blk < origSize / pageSize then some blk else none) := by
  have below : ∀ e ∈ entries log, e.version ≤ maxVersions :=
    forall_entries_version (P := (· ≤ maxVersions))
      fun r member => (collectable.versions r member).2
  unfold resolve
  rcases le_total v maxVersions with inside | outside
  · rw [min_eq_left inside]
  · rw [min_eq_right outside, History.visible_of_le_of_below outside below]

/-- A punched block is garbage of the whole log, and a block of some record. -/
theorem Collectable.of_mem_gcBlocks (collectable : Collectable log origSize)
    (loadable : ∀ c ∈ children, c.loadable = true) {readPage : Nat → Bool} {p : Nat}
    (punched : p ∈ gcBlocks readPage children version log) :
    p ∈ (Collector.collect (neededBy (activeVersions children version)) id
        (entries log)).garbage ∧ ∃ r ∈ log, r.Extent p := by
  rw [gcBlocks_eq fun r member => (collectable.versions r member).1] at punched
  obtain ⟨x, scanned, cut⟩ := List.mem_map.mp punched
  obtain ⟨rest, whole⟩ := exists_scanFrom_append readPage 0 log
  have garbage : x ∈ (Collector.collect (neededBy (activeVersions children version)) id
      (entries log)).garbage := by
    rw [← whole, entries_append]
    exact mem_garbage_append _ scanned
  obtain ⟨before, e, after, f, split, member, rfl, _⟩ :=
    exists_of_garbage (serves_activeVersions loadable version) collectable.positive garbage
  have bound : e ∈ entries log := by
    rw [split]
    exact List.mem_append_left _ member
  obtain ⟨r, inLog, inRecord⟩ := mem_entries.mp bound
  have extent := extent_of_mem_recordEntries inRecord
  rw [u32_of_lt (collectable.blocks r inLog _ extent)] at cut
  subst cut
  exact ⟨garbage, r, inLog, extent⟩

theorem Collectable.not_base (collectable : Collectable log origSize)
    (loadable : ∀ c ∈ children, c.loadable = true) {readPage : Nat → Bool} {b : Nat}
    (base : b * pageSize < origSize) :
    b ∉ gcBlocks readPage children version log := by
  intro punched
  obtain ⟨_, r, member, extent⟩ := collectable.of_mem_gcBlocks loadable punched
  exact Nat.not_le.mpr base (collectable.appended r member b extent)

/-- Blocks an active version leads to stay. -/
theorem Collectable.not_resolved (collectable : Collectable log origSize)
    (loadable : ∀ c ∈ children, c.loadable = true) {readPage : Nat → Bool} {v blk p : Nat}
    (active : Active children version v)
    (leads : resolve log origSize v blk = some p) :
    p ∉ gcBlocks readPage children version log := by
  rw [collectable.resolve_eq] at leads
  rcases Option.or_eq_some_iff.mp leads with shown | ⟨_, base⟩
  · intro punched
    have garbage := (collectable.of_mem_gcBlocks loadable punched).1
    exact not_visible_of_garbage (serves_activeVersions loadable version)
      collectable.sorted.entries collectable.positive collectable.distinct garbage
      (.inr active) blk shown
  · obtain ⟨whole, same⟩ := Option.ite_none_right_eq_some.mp base
    cases same
    apply collectable.not_base loadable
    have := Nat.div_mul_le_self origSize pageSize
    have : (blk + 1) * pageSize ≤ origSize / pageSize * pageSize :=
      Nat.mul_le_mul_right pageSize whole
    unfold pageSize at *
    omega

/-- Replaced blocks no active version leads to are punched. -/
theorem Collectable.mem_gcBlocks (collectable : Collectable log origSize)
    (loadable : ∀ c ∈ children, c.loadable = true) {readPage : Nat → Bool}
    (readable : ∀ p, readPage p = true) {before after : List LogRecord} {r q : LogRecord}
    (split : log = before ++ r :: after) (later : q ∈ after) {i j : Nat}
    (inside : i < r.lenBlks) (inside' : j < q.lenBlks)
    (same : u32 (r.logicalStartBlk + i) = u32 (q.logicalStartBlk + j))
    (unseen : ∀ v, Active children version v → ∀ blk,
      resolve log origSize v blk ≠ some (r.physicalStartBlk + i)) :
    r.physicalStartBlk + i ∈ gcBlocks readPage children version log := by
  have inLog : r ∈ log := by
    rw [split]
    exact List.mem_append_right _ List.mem_cons_self
  rw [gcBlocks_eq fun r member => (collectable.versions r member).1,
    scanFrom_of_readable readable]
  have fits : r.physicalStartBlk + i < 2 ^ 32 :=
    collectable.blocks r inLog _ ⟨Nat.le_add_right _ _, Nat.add_lt_add_left inside _⟩
  refine List.mem_map.mpr ⟨r.physicalStartBlk + i, ?_, u32_of_lt fits⟩
  -- the binding of the block, and what follows it in the history
  obtain ⟨front, back, own⟩ := List.append_of_mem (mem_recordEntries.mpr ⟨i, inside, rfl⟩)
  have history : entries log = (entries before ++ front) ++
      ⟨r.versionNum, u32 (r.logicalStartBlk + i), r.physicalStartBlk + i⟩ ::
        (back ++ entries after) := by
    rw [split, entries_append, ← List.singleton_append, entries_append, entries_singleton, own]
    simp only [List.append_assoc, List.cons_append]
  refine mem_garbage_of_not_visible (serves_activeVersions loadable version)
    collectable.sorted.entries collectable.positive history ?_ ?_
  · exact ⟨_, List.mem_append_right _
      (mem_entries.mpr ⟨q, later, mem_recordEntries.mpr ⟨j, inside', rfl⟩⟩), same.symm⟩
  · rintro a (rfl | active)
    · simp
    · intro shown
      apply unseen a active (u32 (r.logicalStartBlk + i))
      rw [collectable.resolve_eq, shown, Option.some_or]

end Exactness

/-- Garbage collection is exact. Whatever pages of the log it can read, it punches no
block that a lookup at the parent's version or a child's leads to and no block of the
original file; when it can read them all, it punches every block that a later record
replaces and that no lookup leads to. -/
theorem gc_exact {env : Env} (clean : env.FaultFree) {s : VersionStore}
    (coherent : Coherent s.log s.cache) (collectable : Collectable s.log s.origSize)
    {children : List ChildInode} (loadable : ∀ c ∈ children, c.loadable = true) :
    (∀ readPage,
      (∀ v, Active children s.version v → ∀ blk p,
        (lookupPhysicalBlock env s v blk).1 = some p →
          p ∉ gcBlocks readPage children s.version s.log) ∧
      ∀ b, b * pageSize < s.origSize → b ∉ gcBlocks readPage children s.version s.log) ∧
    ∀ before r after q i j, s.log = before ++ r :: after → q ∈ after →
      i < r.lenBlks → j < q.lenBlks →
      u32 (r.logicalStartBlk + i) = u32 (q.logicalStartBlk + j) →
      (∀ v, Active children s.version v → ∀ blk,
        (lookupPhysicalBlock env s v blk).1 ≠ some (r.physicalStartBlk + i)) →
      r.physicalStartBlk + i ∈ gcBlocks env.readPage children s.version s.log := by
  refine ⟨fun readPage => ⟨fun v active blk p leads => ?_, fun b base => ?_⟩, ?_⟩
  · rw [lookupPhysicalBlock_eq clean coherent] at leads
    exact collectable.not_resolved loadable active leads
  · exact collectable.not_base loadable base
  · intro before r after q i j split later inside inside' same unseen
    refine collectable.mem_gcBlocks loadable clean.readPage split later inside inside' same ?_
    intro v active blk
    rw [← lookupPhysicalBlock_eq clean coherent]
    exact unseen v active blk

/-- A freshly opened parent of two pages with the given log and version. -/
def gcStore (log : List LogRecord) (version : Nat) : VersionStore :=
  { version := version, origSize := 8192, log := log, cache := .empty }

/-- Three records of one block; the parent is at version 4 and a child at version 2. The
block of version 2 stays, that of version 3 is punched. -/
theorem gc_exact_between_versions :
    let s := gcStore [⟨2, 0, 2, 1⟩, ⟨3, 0, 3, 1⟩, ⟨4, 0, 4, 1⟩] 4
    2 ∉ gcBlocks Env.clean.readPage [⟨true, 0, 2⟩] s.version s.log ∧
      3 ∈ gcBlocks Env.clean.readPage [⟨true, 0, 2⟩] s.version s.log := by
  intro s
  have order : s.log.Pairwise fun r q =>
      r.physicalStartBlk + r.lenBlks ≤ q.physicalStartBlk := by decide
  have above : ∀ r ∈ s.log, s.origSize ≤ r.physicalStartBlk * pageSize := by decide
  have small : ∀ r ∈ s.log, r.physicalStartBlk + r.lenBlks ≤ 2 ^ 32 := by decide
  have collectable : Collectable s.log s.origSize :=
    { sorted := by unfold VersionsSorted; decide
      versions := by decide
      apart := order.imp fun le _ => LogRecord.Extent.apart le
      appended := fun r member _ => LogRecord.Extent.appended (above r member)
      blocks := fun r member _ extent => Nat.lt_of_lt_of_le extent.2 (small r member) }
  obtain ⟨safe, complete⟩ := gc_exact Env.clean_faultFree (s := s) (coherent_empty _) collectable
    (by decide : ∀ c ∈ [(⟨true, 0, 2⟩ : ChildInode)], c.loadable = true)
  have child : Active [⟨true, 0, 2⟩] s.version 2 := .inr ⟨_, List.mem_singleton_self _, rfl⟩
  refine ⟨(safe Env.clean.readPage).1 2 child 0 2 (by decide +kernel), ?_⟩
  refine complete [⟨2, 0, 2, 1⟩] ⟨3, 0, 3, 1⟩ [⟨4, 0, 4, 1⟩] ⟨4, 0, 4, 1⟩ 0 0 rfl (by decide)
    (by decide) (by decide) rfl ?_
  intro v active blk leads
  rw [lookupPhysicalBlock_eq Env.clean_faultFree (coherent_empty _),
    collectable.resolve_eq] at leads
  rcases Option.or_eq_some_iff.mp leads with shown | ⟨_, base⟩
  · have only : ∀ e ∈ entries s.log, e.value = 3 → e.key = 0 := by decide
    obtain ⟨e, member, _, _, key, value⟩ := History.exists_entry_of_visible shown
    obtain rfl := key.symm.trans (only e member value)
    rcases active with rfl | ⟨c, child, rfl⟩
    · revert shown
      decide
    · obtain rfl := List.mem_singleton.mp child
      revert shown
      decide
  · obtain ⟨inside, same⟩ := Option.ite_none_right_eq_some.mp base
    cases same
    revert inside
    decide

/-- Lookups skip records past the end of the version table, the collection does not:
with a record of version 33 the parent at version 40 still reads block 10, and block 10
is punched. -/
theorem gc_exact_fails :
    let s := gcStore [⟨2, 0, 10, 1⟩, ⟨33, 0, 11, 1⟩] 40
    VersionsSorted s.log ∧ (∀ r ∈ s.log, 1 ≤ r.versionNum) ∧
      (s.log.Pairwise fun r q => ∀ p, r.Extent p → ¬ q.Extent p) ∧
      (∀ r ∈ s.log, ∀ p, r.Extent p → s.origSize ≤ p * pageSize ∧ p < 2 ^ 32) ∧
      Coherent s.log s.cache ∧
      (lookupPhysicalBlock Env.clean s s.version 0).1 = some 10 ∧
      10 ∈ gcBlocks Env.clean.readPage [] s.version s.log := by
  intro s
  have order : s.log.Pairwise fun r q =>
      r.physicalStartBlk + r.lenBlks ≤ q.physicalStartBlk := by decide
  have above : ∀ r ∈ s.log, s.origSize ≤ r.physicalStartBlk * pageSize := by decide
  have small : ∀ r ∈ s.log, r.physicalStartBlk + r.lenBlks ≤ 2 ^ 32 := by decide
  refine ⟨?_, by decide, order.imp fun le _ => LogRecord.Extent.apart le, ?_, coherent_empty _,
    by decide +kernel, by decide +kernel⟩
  · unfold VersionsSorted
    decide
  · intro r member p extent
    exact ⟨extent.appended (above r member), Nat.lt_of_lt_of_le extent.2 (small r member)⟩

end FlexClone.Scorw
