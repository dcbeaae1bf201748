import FlexClone.Run
import FlexClone.Scorw.LogAppend
import FlexClone.Scorw.LogLookup

/-!
# The version cache is transparent

`logLookup` resolves a block from the log alone. Any sequence of lookups,
recordings, version raises and reopenings leaves a cache through which
`lookupPhysicalBlock` computes exactly that, with at most `maxRamVersions` maps
resident at any time, as long as every recording finds the page with the end of the log
in memory. A page that has left memory is cleared: the maps in memory then know records
that the log has lost.
-/

namespace FlexClone.Scorw

open Versioned

/-! ## Sequences of cache operations -/

/-- A run of blocks a write may cover. -/
structure Extent where
  logicalBlk : Nat
  len : Nat
  fits : FitsRecord logicalBlk len

/-- What parents and children do to a parent's cache. -/
inductive CacheOp
  /-- a lookup by the parent or by a child at `version` -/
  | lookup (version blk : Nat)
  /-- `scorw_record_write`, and how it finds the page with the end of the log -/
  | record (blocks : Extent) (physicalBlk : Nat) (status : TransactionState) (fetch : LogFetch)
  /-- the version increment of a plain write or of `END` -/
  | raise
  /-- last close, which stores the version and frees the maps, and open -/
  | reopen

/-- One operation, without allocation or read failures. -/
def cacheStep (s : VersionStore) : CacheOp → Option (Option Nat × VersionStore)
  | .lookup version blk => some (lookupPhysicalBlock .clean s version blk)
  | .record blocks physicalBlk status fetch =>
      let s' := (recordWrite .clean s blocks.logicalBlk physicalBlk blocks.len status).2
      some (none, { s' with log := relog [fetch] s.log s'.log })
  | .raise => some (none, { s with version := s.version + 1 })
  | .reopen => some (none, { s with cache := .empty })

/-- A recording finds the page with the end of the log in memory, or the log ends on a page
boundary. -/
def CacheOp.Ready (s : VersionStore) : CacheOp → Prop
  | .record _ _ _ fetch => Fetched [fetch] s.log.length
  | _ => True

/-- The caches a version loop passes through, one after each version it asks for. -/
def lookupCaches (env : Env) (log : List LogRecord) (blk : Nat) :
    Nat → VersionCache → List VersionCache
  | 0, _ => []
  | v + 1, c =>
      match getOrCreateVersion env log c (v + 1) with
      | (some m, c') =>
          match m blk with
          | some _ => [c']
          | none => c' :: lookupCaches env log blk v c'
      | (none, c') => c' :: lookupCaches env log blk v c'

/-- A parent opened on a log whose cache is empty. -/
def VersionStore.opened (log : List LogRecord) (origSize version : Nat) : VersionStore :=
  ⟨version, .empty, log, origSize⟩

/-- What holds of the cache and the log after every operation. -/
structure CacheInv (s : VersionStore) : Prop where
  coherent : Coherent s.log s.cache
  slotted : Slotted s.cache
  wellFormed : ∀ r ∈ s.log, r.WellFormed

theorem lookupCaches_slotted (env : Env) (log : List LogRecord) (blk : Nat) :
    ∀ {v : Nat} {c : VersionCache}, Slotted c →
      ∀ passed ∈ lookupCaches env log blk v c, Slotted passed
  | 0, _, _, _, member => by cases member
  | v + 1, c, slotted, passed, member => by
      have next := getOrCreateVersion_slotted env log slotted (v + 1)
      have below : ∀ {c' : VersionCache}, Slotted c' →
          passed ∈ c' :: lookupCaches env log blk v c' → Slotted passed := by
        intro c' slotted' inside
        rcases List.mem_cons.mp inside with rfl | later
        · exact slotted'
        · exact lookupCaches_slotted env log blk slotted' passed later
      unfold lookupCaches at member
      split at member
      case h_1 m c' got =>
        rw [got] at next
        split at member
        · rw [List.mem_singleton.mp member]
          exact next
        · exact below next member
      case h_2 c' got =>
        rw [got] at next
        exact below next member

theorem lookupFrom_slotted (env : Env) (log : List LogRecord) (blk : Nat) :
    ∀ {v : Nat} {c : VersionCache}, Slotted c → Slotted (lookupFrom env log blk v c).2
  | 0, _, slotted => slotted
  | v + 1, c, slotted => by
      have next := getOrCreateVersion_slotted env log slotted (v + 1)
      unfold lookupFrom
      split
      case h_1 m c' got =>
        rw [got] at next
        split
        · exact next
        · exact lookupFrom_slotted env log blk next
      case h_2 c' got =>
        rw [got] at next
        exact lookupFrom_slotted env log blk next

theorem recordWrite_wellFormed {env : Env} {s : VersionStore}
    (wellFormed : ∀ r ∈ s.log, r.WellFormed) (blocks : Extent) (physicalBlk : Nat)
    (status : TransactionState) :
    ∀ r ∈ (recordWrite env s blocks.logicalBlk physicalBlk blocks.len status).2.log,
      r.WellFormed := by
  have fits : blocks.logicalBlk + blocks.len < 2 ^ 32 := blocks.fits
  intro r member
  by_cases recorded :
      (recordWrite env s blocks.logicalBlk physicalBlk blocks.len status).1 = 0
  · have range := version_range_of_isSome (recordWrite_eq_zero_iff.mp recorded)
    rw [recordWrite_of_recorded recorded] at member
    rcases List.mem_append.mp member with old | new
    · exact wellFormed r old
    · rw [List.mem_singleton.mp new]
      refine ⟨range.1, range.2, ?_⟩
      unfold LogRecord.InRange
      dsimp only
      rw [u32_of_lt (by omega), u32_of_lt (by omega)]
      omega
  · rw [recordWrite_of_failed recorded] at member
    exact wellFormed r member

theorem recordWrite_log (env : Env) (s : VersionStore) (blocks : Extent) (physicalBlk : Nat)
    (status : TransactionState) :
    s.log <+: (recordWrite env s blocks.logicalBlk physicalBlk blocks.len status).2.log := by
  by_cases recorded : (recordWrite env s blocks.logicalBlk physicalBlk blocks.len status).1 = 0
  · rw [recordWrite_of_recorded recorded]
    exact List.prefix_append s.log _
  · rw [recordWrite_of_failed recorded]

/-- Every cache operation keeps the invariant. -/
theorem cacheStep_inv {s s' : VersionStore} {op : CacheOp} {reply : Option Nat}
    (inv : CacheInv s) (ready : op.Ready s) (taken : cacheStep s op = some (reply, s')) :
    CacheInv s' := by
  cases op with
  | lookup version blk =>
      have next : s' = (lookupPhysicalBlock .clean s version blk).2 :=
        (congrArg Prod.snd (Option.some.inj taken)).symm
      rw [next, lookupPhysicalBlock_store]
      exact ⟨lookupFrom_coherent Env.clean_faultFree.readPage blk inv.coherent,
        lookupFrom_slotted _ _ blk inv.slotted, inv.wellFormed⟩
  | record blocks physicalBlk status fetch =>
      unfold cacheStep at taken
      dsimp only at taken
      rw [relog_of_ready ready (recordWrite_log .clean s blocks physicalBlk status)] at taken
      cases taken
      exact ⟨recordWrite_coherent Env.clean_faultFree.readPage inv.coherent blocks.fits,
        recordWrite_slotted _ inv.slotted _ _ _ _,
        recordWrite_wellFormed inv.wellFormed blocks physicalBlk status⟩
  | raise =>
      cases taken
      exact ⟨inv.coherent, inv.slotted, inv.wellFormed⟩
  | reopen =>
      cases taken
      exact ⟨coherent_empty _, slotted_empty, inv.wellFormed⟩

/-- After any sequence of lookups, recordings, raises and reopenings a lookup by
anyone, at any version, returns what the log alone says, and neither the state
reached nor any cache inside that lookup holds more than four maps. -/
theorem cache_transparent {log : List LogRecord} (wellFormed : ∀ r ∈ log, r.WellFormed)
    {origSize start : Nat} {ops : List CacheOp} {s : VersionStore}
    (run : Run cacheStep (fun s op => op.Ready s) (.opened log origSize start) ops s)
    (version blk : Nat) :
    (lookupPhysicalBlock .clean s version blk).1 = logLookup s.log s.origSize version blk ∧
      s.cache.residentCount ≤ maxRamVersions ∧
      ∀ passed ∈ lookupCaches .clean s.log blk version s.cache,
        passed.residentCount ≤ maxRamVersions := by
  have inv : CacheInv s := run.invariant
    (fun _ _ _ _ inv ready taken => cacheStep_inv inv ready taken)
    ⟨coherent_empty _, slotted_empty, wellFormed⟩
  refine ⟨?_, inv.slotted.residentCount_le, fun passed member => ?_⟩
  · rw [lookupPhysicalBlock_eq Env.clean_faultFree inv.coherent,
      resolve_eq_logLookup inv.wellFormed]
  · exact (lookupCaches_slotted _ _ blk inv.slotted passed member).residentCount_le

/-- Two recordings, one inside a transaction, on top of a log of one record, with
lookups and a reopening in between. -/
theorem cache_transparent_reopened :
    ∃ s : VersionStore,
      Run cacheStep (fun s op => op.Ready s) (.opened [⟨1, 0, 2, 1⟩] 8192 1)
        [.raise, .record ⟨0, 2, by unfold FitsRecord; decide⟩ 3 .setNormalWrite .cached,
          .lookup 1 0, .reopen,
          .record ⟨1, 1, by unfold FitsRecord; decide⟩ 5 .setTransaction .cached, .raise,
          .lookup 3 0] s ∧
      (lookupPhysicalBlock .clean s 2 1).1 = logLookup s.log s.origSize 2 1 ∧
      s.cache.residentCount ≤ maxRamVersions := by
  have wellFormed : ∀ r ∈ [(⟨1, 0, 2, 1⟩ : LogRecord)], r.WellFormed := by
    intro r member
    rw [List.mem_singleton.mp member]
    exact ⟨by decide, by decide, by unfold LogRecord.InRange; decide⟩
  have run : ∃ s : VersionStore, Run cacheStep (fun s op => op.Ready s)
      (.opened [⟨1, 0, 2, 1⟩] 8192 1)
      [.raise, .record ⟨0, 2, by unfold FitsRecord; decide⟩ 3 .setNormalWrite .cached,
        .lookup 1 0, .reopen,
        .record ⟨1, 1, by unfold FitsRecord; decide⟩ 5 .setTransaction .cached, .raise,
        .lookup 3 0] s := by
    exact ⟨_, .cons trivial rfl <| .cons ⟨.inl rfl, trivial⟩ rfl <| .cons trivial rfl <|
      .cons trivial rfl <| .cons ⟨.inl rfl, trivial⟩ rfl <| .cons trivial rfl <|
      .cons trivial rfl (.nil _)⟩
  obtain ⟨s, run⟩ := run
  have holds := cache_transparent wellFormed run 2 1
  exact ⟨s, run, holds.1, holds.2.1⟩

/-- Two recordings of one version; the page of the log leaves memory in between. The map of the
version has both blocks, the log only the second one, and a reopening changes the lookup. -/
theorem cache_transparent_fails :
    ∃ s : VersionStore,
      Run cacheStep (fun _ _ => True) (.opened [] 8192 1)
        [.record ⟨0, 1, by unfold FitsRecord; decide⟩ 2 .setTransaction .cleared,
          .record ⟨1, 1, by unfold FitsRecord; decide⟩ 3 .setTransaction .cleared, .raise] s ∧
      (lookupPhysicalBlock .clean s 2 0).1 = some 2 ∧
      logLookup s.log s.origSize 2 0 = some 0 ∧
      (lookupPhysicalBlock .clean { s with cache := .empty } 2 0).1 = some 0 :=
  ⟨_, .cons trivial rfl <| .cons trivial rfl <| .cons trivial rfl (.nil _), by decide +kernel,
    by decide +kernel, by decide +kernel⟩

end FlexClone.Scorw
