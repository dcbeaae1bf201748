import FlexClone.Scorw.Log

/-!
# The version cache

A parent's `scorw_inode` keeps the delta maps of at most four versions in RAM.
`getOrCreateVersion` returns the map of a version, replaying the log into a new
one after evicting the oldest when four are loaded; `lookupPhysicalBlock` walks
the versions downwards through it; `recordWrite` stores a new run of blocks in
the map of its version and appends the record to the log.

An allocation inside `getOrCreateVersion` may fail and a page of the log may be
unreadable. `Env` fixes these outcomes for one call: every call asks for each
version at most once, so an outcome per version number covers every behaviour
of the allocator.

* `Coherent`: every resident map is the map the log defines.
* `Slotted`: every resident map has a FIFO slot, so at most four are resident.
* `lookupPhysicalBlock_eq`: without faults a lookup is the walk over the log.
-/

namespace FlexClone.Scorw

open Versioned

/-- Outcomes of the allocations and log page reads inside one call. -/
structure Env where
  /-- does `kzalloc` succeed for this version? -/
  alloc : Nat → Bool
  /-- does `read_mapping_page` succeed on this page of the log? -/
  readPage : Nat → Bool

/-- Nothing fails. -/
def Env.clean : Env := ⟨fun _ => true, fun _ => true⟩

structure Env.FaultFree (env : Env) : Prop where
  alloc : ∀ v, env.alloc v = true
  readPage : ∀ p, env.readPage p = true

theorem Env.clean_faultFree : Env.clean.FaultFree := ⟨fun _ => rfl, fun _ => rfl⟩

/-- The cache fields of `struct scorw_inode`. -/
structure VersionCache where
  /-- `version_states`, indexed from `0` -/
  versionStates : Nat → Option DeltaMap
  /-- `loaded_versions` -/
  loadedVersions : Nat → Nat
  loadedVersionCount : Nat
  fifoHead : Nat

/-- The cache of a zeroed `scorw_inode`, and the one `scorw_cleanup_versions` leaves. -/
def VersionCache.empty : VersionCache := ⟨fun _ => none, fun _ => 0, 0, 0⟩

/-- Give the version a FIFO slot, evicting the oldest loaded one when all slots
are taken. -/
def VersionCache.takeSlot (c : VersionCache) (vNum : Nat) : VersionCache :=
  if c.loadedVersionCount = maxRamVersions then
    let evictVNum := c.loadedVersions c.fifoHead
    { versionStates := Function.update c.versionStates (evictVNum - 1) none
      loadedVersions := Function.update c.loadedVersions c.fifoHead vNum
      loadedVersionCount := c.loadedVersionCount
      fifoHead := (c.fifoHead + 1) % maxRamVersions }
  else
    { c with
      loadedVersions := Function.update c.loadedVersions c.loadedVersionCount vNum
      loadedVersionCount := c.loadedVersionCount + 1 }

/-- Replace the map of a version. -/
def VersionCache.setState (c : VersionCache) (vNum : Nat) (m : DeltaMap) : VersionCache :=
  { c with versionStates := Function.update c.versionStates (vNum - 1) (some m) }

/-- `scorw_get_or_create_version`. The slot is taken before the allocation, so a
failed allocation leaves a slot without a map. -/
def getOrCreateVersion (env : Env) (log : List LogRecord) (c : VersionCache) (vNum : Nat) :
    Option DeltaMap × VersionCache :=
  if vNum < 1 ∨ maxVersions < vNum then (none, c)
  else
    match c.versionStates (vNum - 1) with
    | some m => (some m, c)
    | none =>
        let c' := c.takeSlot vNum
        if env.alloc vNum then
          let m := replayLogVersion env.readPage log vNum
          (some m, c'.setState vNum m)
        else (none, c')

/-- The version loop of `scorw_lookup_physical_block`. -/
def lookupFrom (env : Env) (log : List LogRecord) (targetLogicalBlk : Nat) :
    Nat → VersionCache → Option Nat × VersionCache
  | 0, c => (none, c)
  | v + 1, c =>
      match getOrCreateVersion env log c (v + 1) with
      | (some m, c') =>
          match m targetLogicalBlk with
          | some found => (some found, c')
          | none => lookupFrom env log targetLogicalBlk v c'
      | (none, c') => lookupFrom env log targetLogicalBlk v c'

/-- `t_locks->transaction`; `none` is the initial `-1`. -/
inductive TransactionState
  | none
  | unset
  | setTransaction
  | setNormalWrite
  deriving DecidableEq, Repr

/-- The part of a parent's `scorw_inode` and attributes that lookups and the log
work on. -/
structure VersionStore where
  version : Nat
  cache : VersionCache
  log : List LogRecord
  /-- the attribute `par_org`, in bytes -/
  origSize : Nat

/-- `scorw_lookup_physical_block` by a reader at `version`; `none` is
`BLK_NOT_FOUND`. -/
def lookupPhysicalBlock (env : Env) (s : VersionStore) (version targetLogicalBlk : Nat) :
    Option Nat × VersionStore :=
  match lookupFrom env s.log targetLogicalBlk version s.cache with
  | (some found, c) => (some found, { s with cache := c })
  | (none, c) =>
      (if targetLogicalBlk < s.origSize / pageSize then some targetLogicalBlk else none,
        { s with cache := c })

/-- The loop storing a run of blocks into a delta map. -/
def storeBlocks (m : DeltaMap) (logicalBlk physicalBlk len : Nat) : DeltaMap :=
  (List.range len).foldl (fun m i => m.store (logicalBlk + i) (physicalBlk + i)) m

/-- `write_offset_log` at the end of the log; the block numbers are stored in
32 bits. -/
def appendRecord (log : List LogRecord) (version logicalBlk physicalBlk len : Nat) :
    List LogRecord :=
  log ++ [⟨version, u32 logicalBlk, physicalBlk, u32 len⟩]

/-- `-ENOMEM` -/
def enomem : Int := -12

/-- The version a write is recorded at: inside a transaction the number `END`
will raise the version to. -/
def recordVersion (version : Nat) (status : TransactionState) : Nat :=
  if status = .setTransaction then version + 1 else version

/-- `scorw_record_write` -/
def recordWrite (env : Env) (s : VersionStore) (logicalBlk physicalBlk len : Nat)
    (status : TransactionState) : Int × VersionStore :=
  let currVersion := recordVersion s.version status
  match getOrCreateVersion env s.log s.cache currVersion with
  | (none, c) => (enomem, { s with cache := c })
  | (some m, c) =>
      (0, { s with
        cache := c.setState currVersion (storeBlocks m logicalBlk physicalBlk len)
        log := appendRecord s.log currVersion logicalBlk physicalBlk len })

/-! ## Resident maps agree with the log -/

/-- Every resident map is the one the log defines. -/
def Coherent (log : List LogRecord) (c : VersionCache) : Prop :=
  ∀ i m, c.versionStates i = some m → m = History.delta (entries log) (i + 1)

theorem coherent_empty (log : List LogRecord) : Coherent log .empty := by
  intro i m resident
  cases resident

/-- Taking a slot only ever drops maps. -/
theorem versionStates_takeSlot {c : VersionCache} {vNum i : Nat} {m : DeltaMap}
    (resident : (c.takeSlot vNum).versionStates i = some m) : c.versionStates i = some m := by
  unfold VersionCache.takeSlot at resident
  split at resident
  · dsimp only at resident
    rw [Function.update_apply] at resident
    split at resident
    · cases resident
    · exact resident
  · exact resident

theorem Coherent.takeSlot {log : List LogRecord} {c : VersionCache} (coherent : Coherent log c)
    (vNum : Nat) : Coherent log (c.takeSlot vNum) :=
  fun i m resident => coherent i m (versionStates_takeSlot resident)

theorem Coherent.setState {log : List LogRecord} {c : VersionCache} (coherent : Coherent log c)
    {vNum : Nat} (pos : 1 ≤ vNum) :
    Coherent log (c.setState vNum (History.delta (entries log) vNum)) := by
  intro i m resident
  simp only [VersionCache.setState, Function.update_apply] at resident
  split at resident
  case isTrue same =>
    subst same
    rw [Nat.sub_add_cancel pos]
    exact (Option.some.inj resident).symm
  case isFalse => exact coherent i m resident

section GetOrCreate

variable {env : Env} {log : List LogRecord} {c : VersionCache} {v : Nat}

/-- Asking for a version keeps the resident maps coherent. -/
theorem getOrCreateVersion_coherent (readable : ∀ p, env.readPage p = true)
    (coherent : Coherent log c) : Coherent log (getOrCreateVersion env log c v).2 := by
  unfold getOrCreateVersion
  split
  case isTrue => exact coherent
  case isFalse range =>
    split
    case h_1 => exact coherent
    case h_2 =>
      dsimp only
      split
      · rw [replayLogVersion_eq readable]
        exact (coherent.takeSlot v).setState (by omega)
      · exact coherent.takeSlot v

/-- A map that is returned is the one the log defines. -/
theorem eq_delta_of_getOrCreateVersion {m : DeltaMap} (readable : ∀ p, env.readPage p = true)
    (coherent : Coherent log c) (found : (getOrCreateVersion env log c v).1 = some m) :
    m = History.delta (entries log) v := by
  unfold getOrCreateVersion at found
  split at found
  case isTrue => cases found
  case isFalse range =>
    split at found
    case h_1 m' resident =>
      cases found
      rw [coherent _ _ resident, Nat.sub_add_cancel (by omega)]
    case h_2 =>
      dsimp only at found
      split at found
      · rw [← replayLogVersion_eq readable]
        exact (Option.some.inj found).symm
      · cases found

/-- Outside `1 .. MAX_VERSIONS` no map exists. -/
theorem getOrCreateVersion_of_range (range : v < 1 ∨ maxVersions < v) :
    getOrCreateVersion env log c v = (none, c) := if_pos range

/-- A version inside the table is found when it is resident or can be allocated. -/
theorem getOrCreateVersion_isSome (pos : 1 ≤ v) (le : v ≤ maxVersions)
    (room : (c.versionStates (v - 1)).isSome ∨ env.alloc v = true) :
    ((getOrCreateVersion env log c v).1).isSome := by
  unfold getOrCreateVersion
  rw [if_neg (by omega)]
  split
  · rfl
  case h_2 absent =>
    rcases room with resident | allocated
    · rw [absent] at resident
      cases resident
    · simp only [allocated, if_true, Option.isSome_some]

end GetOrCreate

variable {env : Env} {c : VersionCache} {s : VersionStore} {log : List LogRecord} {v : Nat}
  {status : TransactionState} {logicalBlk physicalBlk len : Nat}

/-! ## Residency -/

/-- Number of maps in RAM. -/
def VersionCache.residentCount (c : VersionCache) : Nat :=
  ((Finset.range maxVersions).filter fun i => (c.versionStates i).isSome).card

/-- Every resident map is owned by one of the slots in use. -/
structure Slotted (c : VersionCache) : Prop where
  count : c.loadedVersionCount ≤ maxRamVersions
  head : c.fifoHead < maxRamVersions
  slot : ∀ i, (c.versionStates i).isSome →
    ∃ j < c.loadedVersionCount, c.loadedVersions j = i + 1

theorem slotted_empty : Slotted .empty :=
  ⟨Nat.zero_le _, by decide, fun _ resident => by cases resident⟩

/-- Slots bound the number of resident maps. -/
theorem Slotted.residentCount_le (slotted : Slotted c) : c.residentCount ≤ maxRamVersions := by
  have covered : ((Finset.range maxVersions).filter fun i => (c.versionStates i).isSome) ⊆
      (Finset.range c.loadedVersionCount).image fun j => c.loadedVersions j - 1 := by
    intro i member
    obtain ⟨j, used, owner⟩ := slotted.slot i (Finset.mem_filter.mp member).2
    apply Finset.mem_image.mpr
    exact ⟨j, Finset.mem_range.mpr used, by rw [owner, Nat.add_sub_cancel]⟩
  calc c.residentCount
      ≤ ((Finset.range c.loadedVersionCount).image fun j => c.loadedVersions j - 1).card :=
        Finset.card_le_card covered
    _ ≤ (Finset.range c.loadedVersionCount).card := Finset.card_image_le
    _ = c.loadedVersionCount := Finset.card_range _
    _ ≤ maxRamVersions := slotted.count

/-- After taking a slot the version owns one, and so does every map still resident. -/
theorem Slotted.takeSlot (slotted : Slotted c) (vNum : Nat) :
    Slotted (c.takeSlot vNum) ∧
      ∃ j < (c.takeSlot vNum).loadedVersionCount, (c.takeSlot vNum).loadedVersions j = vNum := by
  have count := slotted.count
  have head := slotted.head
  unfold VersionCache.takeSlot
  split
  case isTrue full =>
    refine ⟨⟨count, Nat.mod_lt _ (by decide), fun i resident => ?_⟩,
      c.fifoHead, by rw [full]; exact head, by simp only [Function.update_self]⟩
    dsimp only at resident ⊢
    rw [Function.update_apply] at resident
    split at resident
    case isTrue => cases resident
    case isFalse kept =>
      obtain ⟨j, used, owner⟩ := slotted.slot i resident
      -- the slot of a map that stays is not the one being reused
      have other : j ≠ c.fifoHead := by
        intro same
        subst same
        omega
      exact ⟨j, used, by rw [Function.update_of_ne other, owner]⟩
  case isFalse room =>
    refine ⟨⟨Nat.lt_of_le_of_ne count room, head, fun i resident => ?_⟩,
      c.loadedVersionCount, Nat.lt_succ_self _, by simp only [Function.update_self]⟩
    obtain ⟨j, used, owner⟩ := slotted.slot i resident
    have other : j ≠ c.loadedVersionCount := Nat.ne_of_lt used
    refine ⟨j, Nat.lt_succ_of_lt used, ?_⟩
    dsimp only
    rw [Function.update_of_ne other, owner]

/-- A map may be installed for a version that owns a slot. -/
theorem Slotted.setState (slotted : Slotted c) {vNum : Nat} (pos : 1 ≤ vNum)
    (owned : ∃ j < c.loadedVersionCount, c.loadedVersions j = vNum) (m : DeltaMap) :
    Slotted (c.setState vNum m) := by
  refine ⟨slotted.count, slotted.head, fun i resident => ?_⟩
  simp only [VersionCache.setState, Function.update_apply] at resident
  split at resident
  case isTrue same =>
    rw [same, Nat.sub_add_cancel pos]
    exact owned
  case isFalse => exact slotted.slot i resident

theorem getOrCreateVersion_slotted (env : Env) (log : List LogRecord) (slotted : Slotted c)
    (v : Nat) : Slotted (getOrCreateVersion env log c v).2 := by
  unfold getOrCreateVersion
  split
  case isTrue => exact slotted
  case isFalse range =>
    split
    case h_1 => exact slotted
    case h_2 =>
      obtain ⟨next, owned⟩ := slotted.takeSlot v
      dsimp only
      split
      · exact next.setState (by omega) owned _
      · exact next

/-- A version that was returned is resident. -/
theorem getOrCreateVersion_resident {c' : VersionCache} {m : DeltaMap}
    (got : getOrCreateVersion env log c v = (some m, c')) : c'.versionStates (v - 1) = some m := by
  unfold getOrCreateVersion at got
  split at got
  case isTrue => cases got
  case isFalse =>
    split at got
    case h_1 resident =>
      cases got
      exact resident
    case h_2 =>
      dsimp only at got
      split at got
      · cases got
        simp only [VersionCache.setState, Function.update_self]
      · cases got

/-! ## Lookups -/

/-- A lookup keeps the resident maps coherent. -/
theorem lookupFrom_coherent (readable : ∀ p, env.readPage p = true) (blk : Nat) :
    ∀ {v : Nat} {c : VersionCache}, Coherent log c →
      Coherent log (lookupFrom env log blk v c).2
  | 0, _, coherent => coherent
  | v + 1, c, coherent => by
      have next := getOrCreateVersion_coherent (v := v + 1) readable coherent
      unfold lookupFrom
      split
      case h_1 m c' got =>
        rw [got] at next
        split
        · exact next
        · exact lookupFrom_coherent readable blk next
      case h_2 c' got =>
        rw [got] at next
        exact lookupFrom_coherent readable blk next

/-- Versions past the end of the table are skipped by the walk. -/
theorem visible_min (es : History Nat Nat) (v blk : Nat) :
    es.visible (min (v + 1) maxVersions) blk =
      if v + 1 ≤ maxVersions then (es.delta (v + 1) blk).or (es.visible v blk)
      else es.visible (min v maxVersions) blk := by
  split
  case isTrue inside => rw [min_eq_left inside, History.visible_succ]
  case isFalse outside => rw [min_eq_right (by omega), min_eq_right (by omega)]

/-- Without faults the version loop is the walk over the log's bindings, up to
the last version the table holds. -/
theorem lookupFrom_eq (clean : env.FaultFree) (blk : Nat) :
    ∀ {v : Nat} {c : VersionCache}, Coherent log c →
      (lookupFrom env log blk v c).1 = (entries log).visible (min v maxVersions) blk
  | 0, _, _ => rfl
  | v + 1, c, coherent => by
      have next := getOrCreateVersion_coherent (v := v + 1) clean.readPage coherent
      rw [visible_min]
      unfold lookupFrom
      split
      case h_1 m c' got =>
        have value : m = History.delta (entries log) (v + 1) :=
          eq_delta_of_getOrCreateVersion clean.readPage coherent (by rw [got])
        have inside : v + 1 ≤ maxVersions := by
          by_contra outside
          rw [getOrCreateVersion_of_range (Or.inr (Nat.not_le.mp outside))] at got
          cases got
        rw [got] at next
        rw [if_pos inside, ← value]
        split
        case h_1 found bound => rw [bound, Option.some_or]
        case h_2 unbound =>
          rw [unbound, Option.none_or, lookupFrom_eq clean blk next, min_eq_left (by omega)]
      case h_2 c' got =>
        have outside : ¬ v + 1 ≤ maxVersions := by
          intro inside
          have found : (getOrCreateVersion env log c (v + 1)).1.isSome :=
            getOrCreateVersion_isSome (Nat.succ_pos v) inside (Or.inr (clean.alloc (v + 1)))
          rw [got] at found
          cases found
        rw [got] at next
        rw [if_neg outside, lookupFrom_eq clean blk next]

/-- What the log alone says a block resolves to at a version. -/
def resolve (log : List LogRecord) (origSize version blk : Nat) : Option Nat :=
  ((entries log).visible (min version maxVersions) blk).or
    (if blk < origSize / pageSize then some blk else none)

/-- Without faults a lookup depends on the log alone. -/
theorem lookupPhysicalBlock_eq (clean : env.FaultFree) (coherent : Coherent s.log s.cache)
    (version blk : Nat) :
    (lookupPhysicalBlock env s version blk).1 = resolve s.log s.origSize version blk := by
  have walk := lookupFrom_eq clean blk (v := version) coherent
  unfold lookupPhysicalBlock resolve
  rw [← walk]
  split
  case h_1 found c got => rw [got, Option.some_or]
  case h_2 c got => rw [got, Option.none_or]

/-- A block bound at the reader's own version is found, if the map of the version
is resident or can be built. -/
theorem lookupPhysicalBlock_of_delta {blk found : Nat} (coherent : Coherent s.log s.cache)
    (inside : v + 1 ≤ maxVersions)
    (room : (s.cache.versionStates v).isSome ∨
      env.alloc (v + 1) = true ∧ ∀ p, env.readPage p = true)
    (bound : History.delta (entries s.log) (v + 1) blk = some found) :
    (lookupPhysicalBlock env s (v + 1) blk).1 = some found := by
  have map : (getOrCreateVersion env s.log s.cache (v + 1)).1 =
      some (History.delta (entries s.log) (v + 1)) := by
    cases resident : s.cache.versionStates v with
    | some m =>
        have value := coherent v m resident
        unfold getOrCreateVersion
        rw [if_neg (by omega), Nat.add_sub_cancel, resident, value]
    | none =>
        rcases room with present | ⟨allocated, readable⟩
        · rw [resident] at present
          cases present
        · have created : (getOrCreateVersion env s.log s.cache (v + 1)).1.isSome :=
            getOrCreateVersion_isSome (Nat.succ_pos v) inside (.inr allocated)
          obtain ⟨m, got⟩ := Option.isSome_iff_exists.mp created
          rw [got, eq_delta_of_getOrCreateVersion readable coherent got]
  unfold lookupPhysicalBlock lookupFrom
  generalize getOrCreateVersion env s.log s.cache (v + 1) = result at map ⊢
  obtain ⟨m, c⟩ := result
  dsimp only at map
  subst map
  simp only [bound]

/-- A lookup changes nothing but the cache. -/
theorem lookupPhysicalBlock_store (env : Env) (s : VersionStore) (version blk : Nat) :
    (lookupPhysicalBlock env s version blk).2 =
      { s with cache := (lookupFrom env s.log blk version s.cache).2 } := by
  unfold lookupPhysicalBlock
  split <;> simp_all only

/-- Records above a version do not change what blocks resolve to at it. -/
theorem resolve_append_of_above {tail : List LogRecord} {version : Nat}
    (above : ∀ r ∈ tail, version < r.versionNum) (origSize blk : Nat) :
    resolve (log ++ tail) origSize version blk = resolve log origSize version blk := by
  have later : ∀ e ∈ entries tail, min version maxVersions < e.version := by
    intro e member
    have := forall_entries_version (P := (version < ·)) above e member
    omega
  unfold resolve
  rw [entries_append, History.visible_append_of_above later]

/-- Raising the version by one uncovers the map of the new version. -/
theorem resolve_succ {version : Nat} (inside : version + 1 ≤ maxVersions)
    (log : List LogRecord) (origSize blk : Nat) :
    resolve log origSize (version + 1) blk =
      (History.delta (entries log) (version + 1) blk).or (resolve log origSize version blk) := by
  unfold resolve
  rw [min_eq_left inside, min_eq_left (by omega), History.visible_succ, Option.or_assoc]

/-- Past the end of the table raising the version changes nothing. -/
theorem resolve_of_le {version : Nat} (outside : maxVersions ≤ version)
    (log : List LogRecord) (origSize blk : Nat) :
    resolve log origSize (version + 1) blk = resolve log origSize version blk := by
  unfold resolve
  rw [min_eq_right (by omega), min_eq_right outside]

/-! ## Recording a write -/

/-- A run of blocks whose numbers fit the 32-bit fields of a record. -/
def FitsRecord (logicalBlk len : Nat) : Prop := logicalBlk + len < 2 ^ 32

/-- Storing a run of blocks in RAM replays the record that is logged for it. -/
theorem storeBlocks_eq (fits : FitsRecord logicalBlk len) (m : DeltaMap)
    (version physicalBlk : Nat) :
    storeBlocks m logicalBlk physicalBlk len =
      replayRecord version m ⟨version, u32 logicalBlk, physicalBlk, u32 len⟩ := by
  unfold FitsRecord at fits
  have start : u32 logicalBlk = logicalBlk := u32_of_lt (by omega)
  have count : u32 len = len := u32_of_lt (by omega)
  unfold storeBlocks replayRecord
  rw [start, count, if_pos rfl]
  apply List.foldl_ext
  intro m i member
  have bound : i < len := List.mem_range.mp member
  have small : u32 (logicalBlk + i) = logicalBlk + i := u32_of_lt (by omega)
  dsimp only
  rw [small]

/-- The map of a version after a record is appended. -/
theorem delta_appendRecord (log : List LogRecord) (r : LogRecord) (v : Nat) :
    History.delta (entries (log ++ [r])) v = replayRecord v (History.delta (entries log) v) r := by
  rw [entries_append, entries_singleton, replayRecord_eq]
  simp only [History.delta, List.foldl_append]

/-- Replacing the map of a version and appending its record together keep the
cache coherent. -/
theorem Coherent.appendRecord (coherent : Coherent log c) (pos : 1 ≤ v)
    (fits : FitsRecord logicalBlk len) (physicalBlk : Nat) :
    Coherent (appendRecord log v logicalBlk physicalBlk len)
      (c.setState v (storeBlocks (History.delta (entries log) v) logicalBlk physicalBlk len)) := by
  intro i m resident
  rw [Scorw.appendRecord]
  simp only [VersionCache.setState, Function.update_apply] at resident
  split at resident
  case isTrue same =>
    subst same
    rw [Nat.sub_add_cancel pos, delta_appendRecord, ← storeBlocks_eq fits]
    exact (Option.some.inj resident).symm
  case isFalse other =>
    rw [delta_entries_append_of_ne]
    · exact coherent i m resident
    · intro r member
      rw [List.mem_singleton.mp member]
      dsimp only
      omega

/-- The map of a version once a run of blocks is recorded at it. -/
theorem delta_appendRecord_apply {version : Nat} (fits : FitsRecord logicalBlk len)
    (physicalBlk blk : Nat) :
    History.delta (entries (appendRecord log version logicalBlk physicalBlk len)) version blk =
      if logicalBlk ≤ blk ∧ blk < logicalBlk + len then some (physicalBlk + (blk - logicalBlk))
      else History.delta (entries log) version blk := by
  have start : u32 logicalBlk = logicalBlk := u32_of_lt (by unfold FitsRecord at fits; omega)
  have count : u32 len = len := u32_of_lt (by unfold FitsRecord at fits; omega)
  have inRange : LogRecord.InRange ⟨version, logicalBlk, physicalBlk, len⟩ := Nat.le_of_lt fits
  rw [appendRecord, start, count, entries_append, entries_singleton, History.delta_append,
    delta_recordEntries inRange]
  unfold LogRecord.Covers LogRecord.target
  dsimp only
  by_cases covered : logicalBlk ≤ blk ∧ blk < logicalBlk + len
  · rw [if_pos covered, if_pos ⟨rfl, covered⟩, Option.some_or]
  · rw [if_neg covered, if_neg fun both => covered both.2, Option.none_or]

/-- What blocks resolve to once a run of blocks is recorded at the next version. -/
theorem resolve_appendRecord {version : Nat} (inside : version + 1 ≤ maxVersions)
    (fits : FitsRecord logicalBlk len) (physicalBlk origSize blk : Nat) :
    resolve (appendRecord log (version + 1) logicalBlk physicalBlk len) origSize (version + 1) blk =
      if logicalBlk ≤ blk ∧ blk < logicalBlk + len then some (physicalBlk + (blk - logicalBlk))
      else (History.delta (entries log) (version + 1) blk).or
        (resolve log origSize version blk) := by
  have below : resolve (appendRecord log (version + 1) logicalBlk physicalBlk len) origSize
      version blk = resolve log origSize version blk := by
    apply resolve_append_of_above
    intro r member
    rw [List.mem_singleton.mp member]
    exact Nat.lt_succ_self _
  rw [resolve_succ inside, delta_appendRecord_apply fits, below]
  split
  · rw [Option.some_or]
  · rfl

/-- `scorw_record_write` succeeds exactly when it gets the map of its version. -/
theorem recordWrite_eq_zero_iff :
    (recordWrite env s logicalBlk physicalBlk len status).1 = 0 ↔
      (getOrCreateVersion env s.log s.cache (recordVersion s.version status)).1.isSome := by
  unfold recordWrite
  dsimp only
  split
  case h_1 c got => simp [got, enomem]
  case h_2 m c got => simp [got]

/-- A failed recording leaves version, log and original size as they were. -/
theorem recordWrite_of_failed
    (failed : (recordWrite env s logicalBlk physicalBlk len status).1 ≠ 0) :
    (recordWrite env s logicalBlk physicalBlk len status).2 =
      { s with
        cache := (getOrCreateVersion env s.log s.cache (recordVersion s.version status)).2 } := by
  unfold recordWrite at failed ⊢
  dsimp only at failed ⊢
  split
  case h_1 c got => rw [got]
  case h_2 m c got => simp [got] at failed

/-- A successful recording appends one record and keeps the cache coherent. -/
theorem recordWrite_of_recorded
    (recorded : (recordWrite env s logicalBlk physicalBlk len status).1 = 0) :
    (recordWrite env s logicalBlk physicalBlk len status).2 =
      { s with
        cache := (recordWrite env s logicalBlk physicalBlk len status).2.cache
        log := appendRecord s.log (recordVersion s.version status) logicalBlk physicalBlk
          len } := by
  unfold recordWrite at recorded ⊢
  dsimp only at recorded ⊢
  split
  case h_1 c got => simp [got, enomem] at recorded
  case h_2 m c got => rfl

theorem version_range_of_isSome (found : (getOrCreateVersion env log c v).1.isSome) :
    1 ≤ v ∧ v ≤ maxVersions := by
  by_contra outside
  rw [getOrCreateVersion_of_range (by omega)] at found
  cases found

theorem recordWrite_coherent (readable : ∀ p, env.readPage p = true)
    (coherent : Coherent s.log s.cache) (fits : FitsRecord logicalBlk len) :
    Coherent (recordWrite env s logicalBlk physicalBlk len status).2.log
      (recordWrite env s logicalBlk physicalBlk len status).2.cache := by
  have next := getOrCreateVersion_coherent (v := recordVersion s.version status) readable coherent
  unfold recordWrite
  dsimp only
  split
  case h_1 c got =>
    rw [got] at next
    exact next
  case h_2 m c got =>
    have value := eq_delta_of_getOrCreateVersion (m := m) readable coherent (by rw [got])
    have found : (getOrCreateVersion env s.log s.cache
        (recordVersion s.version status)).1.isSome := by
      rw [got]
      rfl
    have range := version_range_of_isSome found
    rw [got] at next
    subst value
    exact next.appendRecord range.1 fits physicalBlk

/-- The map a recording went to is resident afterwards. -/
theorem recordWrite_resident
    (recorded : (recordWrite env s logicalBlk physicalBlk len status).1 = 0) :
    ((recordWrite env s logicalBlk physicalBlk len status).2.cache.versionStates
      (recordVersion s.version status - 1)).isSome := by
  unfold recordWrite at recorded ⊢
  dsimp only at recorded ⊢
  split
  case h_1 c got => simp [got, enomem] at recorded
  case h_2 m c got =>
    simp only [VersionCache.setState, Function.update_self, Option.isSome_some]

theorem recordWrite_slotted (env : Env) (slotted : Slotted s.cache)
    (logicalBlk physicalBlk len : Nat) (status : TransactionState) :
    Slotted (recordWrite env s logicalBlk physicalBlk len status).2.cache := by
  have next := getOrCreateVersion_slotted env s.log slotted (recordVersion s.version status)
  unfold recordWrite
  dsimp only
  split
  case h_1 c got =>
    rw [got] at next
    exact next
  case h_2 m c got =>
    have found : (getOrCreateVersion env s.log s.cache
        (recordVersion s.version status)).1.isSome := by
      rw [got]
      rfl
    have range := version_range_of_isSome found
    rw [got] at next
    have resident : (c.versionStates (recordVersion s.version status - 1)).isSome := by
      rw [getOrCreateVersion_resident got]
      rfl
    obtain ⟨j, used, owner⟩ := next.slot _ resident
    exact next.setState range.1 ⟨j, used, by omega⟩ _

end FlexClone.Scorw
