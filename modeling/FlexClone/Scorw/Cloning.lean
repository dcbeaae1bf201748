import FlexClone.Scorw.FamilyVersions
import FlexClone.Scorw.Snapshot

/-!
# What a clone does to its family

Setting the attribute `scorw_parent` of a file overwrites attributes that all
children share: the parent's stored version, its original size, its log file and
its see-through flag. A parent that is open keeps its version and its flag in
memory, but the original size is read from the attribute at every lookup.

`clone_starts_equal_iff`: when the new child resolves every block as the parent
does, with no block marked as copied.

`clone_undisturbed_iff`: when the parent and the older children resolve every
block as before, now and after a reopen, and writes stay redirected.
-/

namespace FlexClone.Scorw

open Versioned

/-- No page of the log is unreadable during a call on the parent. -/
def FamilyOp.Regular : FamilyOp → Prop
  | .call op _ => op.Regular
  | _ => True

namespace Family

variable {F F' : Family} {ops : List FamilyOp} {req : CloneReq} {env : MountEnv}
  {log : List LogRecord}

/-! ## Reachable families -/

/-- What holds in every family that is reached by regular steps. -/
structure Sane (F : Family) : Prop where
  stored : Stored F
  coherent : F.attached = true → Coherent F.par.log F.par.cache
  /-- version `1` is the file as it was cloned -/
  records : ∀ i, ∀ r ∈ F.logOf i, 2 ≤ r.versionNum
  mounted : F.attached = true ∨ 0 < F.openCount → F.openedSinceMount = true

/-- The files that will be friends may hold anything. -/
theorem sane_plain (f : ByteFile UInt8) (friends : Ino → ByteFile UInt8) :
    Sane { plain f with friends := friends } where
  stored := ⟨le_rfl, le_rfl⟩
  coherent := fun none => Bool.noConfusion none
  records := fun _ _ none => (List.not_mem_nil none).elim
  mounted := fun none => by
    rcases none with attached | counted
    · cases attached
    · exact absurd counted (lt_irrefl _)

theorem cache_startParent (F : Family) (env : MountEnv) :
    (F.startParent env).par.cache = .empty := by
  unfold startParent prepareParInode
  dsimp only
  split
  · rfl
  · rfl

theorem coherent_startParent (F : Family) (env : MountEnv) :
    Coherent (F.startParent env).par.log (F.startParent env).par.cache := by
  rw [cache_startParent]
  exact coherent_empty _

theorem sane_step {op : FamilyOp} {ret : Int} (sane : Sane F) (regular : op.Regular)
    (taken : F.step op = some (ret, F')) : Sane F' := by
  have records : ∀ i, ∀ r ∈ F'.logOf i, 2 ≤ r.versionNum := by
    intro i r member
    rcases logOf_step taken i with cut | ⟨tail, log, above⟩
    · exact sane.records i r (cut.subset member)
    · rw [log] at member
      rcases List.mem_append.mp member with old | new
      · exact sane.records i r old
      · have := above r new
        have := sane.stored.one
        have := sane.stored.le
        omega
  have calmly {G : Family} (calm : Calm G F')
      (coherent : G.attached = true → Coherent G.par.log G.par.cache)
      (mounted : G.attached = true ∨ 0 < G.openCount → G.openedSinceMount = true) : Sane F' := by
    refine ⟨stored_step sane.stored taken, fun attached => ?_, records, fun used => ?_⟩
    · obtain ⟨before, same⟩ := calm.store attached
      rw [same]
      exact coherent before
    · rw [calm.openedSinceMount]
      apply mounted
      rcases used with attached | counted
      · exact .inl (calm.store attached).1
      · exact (calm.opens counted).symm
  cases step_cases taken with
  | calm calm => exact calmly calm sane.coherent sane.mounted
  | started opens detached calm =>
      exact calmly calm (fun _ => coherent_startParent _ _) fun _ => rfl
  | cloneFailed failed =>
      exact ⟨stored_step sane.stored taken, sane.coherent, records, sane.mounted⟩
  | cloned calm => exact calmly calm sane.coherent sane.mounted
  | clonedStarted detached several calm =>
      exact calmly calm (fun _ => coherent_startParent _ _) fun _ => rfl
  | updated here =>
      exact ⟨stored_step sane.stored taken, sane.coherent, records, sane.mounted⟩
  | called attached isOpen attr made =>
      exact ⟨stored_step sane.stored taken,
        fun _ => step_coherent (sane.coherent attached) regular made, records, sane.mounted⟩
  | looked attached =>
      refine ⟨stored_step sane.stored taken, fun _ => ?_, records, sane.mounted⟩
      rw [lookupPhysicalBlock_store]
      exact lookupFrom_coherent regular _ (sane.coherent attached)
  | crashed =>
      refine ⟨stored_step sane.stored taken, fun none => Bool.noConfusion none, records,
        fun used => ?_⟩
      rcases used with attached | counted
      · cases attached
      · exact absurd counted (lt_irrefl _)

theorem sane_of_run {f : ByteFile UInt8} {friends : Ino → ByteFile UInt8} {ops : List FamilyOp}
    {F : Family}
    (run : Run step (fun _ op => op.Regular) { plain f with friends := friends } ops F) :
    Sane F :=
  run.invariant (fun _ _ _ _ => sane_step) (sane_plain f friends)

/-- Children come from clones. -/
theorem isChild_step {op : FamilyOp} {ret : Int} {c : Ino} (taken : F.step op = some (ret, F'))
    (isChild : F'.IsChild c) : F.IsChild c ∨ ∃ req env, op = .clone req env ∧ req.child = c := by
  have cloned {req : CloneReq} (there : (F.setAttributes req).IsChild c) :
      F.IsChild c ∨ req.child = c := by
    by_cases same : c = req.child
    · exact .inr same.symm
    · unfold IsChild at there
      rw [show (F.setAttributes req).child c = F.child c from child_setChild_of_ne same F _]
        at there
      rcases there with inSlot | attached
      · rcases List.mem_append.mp inSlot with before | new
        · exact .inl (.inl before)
        · exact (same (List.mem_singleton.mp new)).elim
      · exact .inl (.inr attached)
  have marked {req : CloneReq} (there : ((F.setAttributes req).setParent req).IsChild c) :
      (F.setAttributes req).IsChild c :=
    (Calm.setFlag (F := F.setAttributes req) (c := req.child)
      (k := { (F.setAttributes req).child req.child with hasParent := true }) rfl
      ⟨rfl, .inl rfl, rfl, rfl, rfl⟩).isChild c there
  cases step_cases taken with
  | calm calm => exact .inl (calm.isChild c isChild)
  | started opens detached calm => exact .inl (calm.isChild c isChild)
  | @cloneFailed req env failed =>
      exact (cloned isChild).imp_right fun same => ⟨req, env, rfl, same⟩
  | @cloned req env _ calm =>
      exact (cloned (marked (calm.isChild c isChild))).imp_right fun same => ⟨req, env, rfl, same⟩
  | @clonedStarted req env _ detached several calm =>
      exact (cloned (marked (calm.isChild c isChild))).imp_right fun same => ⟨req, env, rfl, same⟩
  | @updated file d s here =>
      left
      by_cases same : c = d
      · rw [same]
        exact isChild_of_attached here
      · unfold IsChild at isChild
        rw [child_setScorwInode_of_ne same] at isChild
        exact isChild
  | called attached isOpen attr made => exact .inl isChild
  | looked attached => exact .inl isChild
  | crashed =>
      rcases isChild with inSlot | attached
      · exact .inl (.inl inSlot)
      · cases attached

theorem isChild_of_run {ok : Family → FamilyOp → Prop} (run : Run step ok F ops F') {c : Ino}
    (isChild : F'.IsChild c) : F.IsChild c ∨ ∃ req env, .clone req env ∈ ops ∧ req.child = c := by
  induction run with
  | nil => exact .inl isChild
  | cons admitted taken rest ih =>
      rcases ih isChild with before | ⟨req, env, member, same⟩
      · rcases isChild_step taken before with old | ⟨req, env, shape, same⟩
        · exact .inl old
        · exact .inr ⟨req, env, shape ▸ List.mem_cons_self, same⟩
      · exact .inr ⟨req, env, List.mem_cons_of_mem _ member, same⟩

/-! ## Lookups before and after a clone -/

/-- The block that a reader at a version finds while the parent is attached. -/
def openBlock (F : Family) (version blk : Nat) : Option Nat :=
  (lookupPhysicalBlock .clean F.par.toVersionStore version blk).1

/-- The block that the reader finds once everything has been closed and the parent
is opened again. -/
def storedBlock (F : Family) (version blk : Nat) : Option Nat :=
  (lookupPhysicalBlock .clean ⟨version, .empty, F.logOf F.logAttr, F.par.origSize⟩
    version blk).1

theorem storedBlock_eq (F : Family) (version blk : Nat) :
    F.storedBlock version blk = resolve (F.logOf F.logAttr) F.par.origSize version blk :=
  lookupPhysicalBlock_eq Env.clean_faultFree (coherent_empty _) version blk

theorem Sane.openBlock_eq (sane : Sane F) (attached : F.attached = true) (version blk : Nat) :
    F.openBlock version blk = resolve F.par.log F.par.origSize version blk :=
  lookupPhysicalBlock_eq Env.clean_faultFree (sane.coherent attached) version blk

theorem origSize_startParent (F : Family) (env : MountEnv) :
    (F.startParent env).par.origSize = F.par.origSize := by
  unfold startParent prepareParInode
  dsimp only
  split
  · rfl
  · rfl

theorem logOf_of_detached (detached : F.attached = false) (i : Ino) : F.logOf i = F.logs i :=
  if_neg fun both => by
    rw [detached] at both
    exact Bool.noConfusion both.1

/-- Everything is closed: versions and the log are stored. -/
def closed (F : Family) : Family :=
  { F with
    attached := false
    logs := F.logOf
    par := { F.par with currVersionAttr := F.version, cache := .empty } }

/-- Everything is closed and the parent is opened again. -/
def reopened (F : Family) (env : MountEnv) : Family := F.closed.startParent env

theorem openBlock_reopened (env : MountEnv) (later : F.isOpenedFirstTime = false) :
    (F.reopened env).version = F.version ∧
      ∀ version blk, (F.reopened env).openBlock version blk = F.storedBlock version blk := by
  have later' : F.closed.isOpenedFirstTime = false := later
  obtain ⟨version, _, log⟩ := par_startParent_of_later env later'
  refine ⟨version, fun v blk => ?_⟩
  rw [storedBlock_eq, reopened, openBlock,
    lookupPhysicalBlock_eq Env.clean_faultFree (coherent_startParent _ env), log,
    origSize_startParent]
  rfl

/-! ## A successful clone -/

/-- What a successful clone leads to. -/
theorem clone_ok (done : F.step (.clone req env) = some (0, F')) (ok : F'.fault = none) :
    ((F.attached = true ∧ F'.attached = true ∨ F' = (F.setAttributes req).setParent req) ∧
        Calm ((F.setAttributes req).setParent req) F') ∨
      F.attached = false ∧ 1 < F.openCount ∧
        Calm (((F.setAttributes req).setParent req).startParent env) F' := by
  unfold step at done
  split at done
  case isTrue => cases done
  case isFalse =>
    dsimp only at done
    unfold clone at done
    split at done
    case isTrue =>
      have refused : parentError = 0 := congrArg Prod.fst (Option.some.inj done)
      exact absurd refused (by decide)
    case isFalse =>
      split at done
      case isTrue =>
        have refused : maxChildsAlreadySet = 0 := congrArg Prod.fst (Option.some.inj done)
        exact absurd refused (by decide)
      case isFalse =>
        split at done
        case isTrue failed =>
          have refused := congrArg Prod.fst (Option.some.inj done)
          exact absurd refused failed
        case isFalse =>
          have inSlot : req.child ∈ ((F.setAttributes req).setParent req).slots :=
            List.mem_append_right _ List.mem_cons_self
          unfold settle at done
          split at done
          case h_1 F'' opened =>
            cases done
            exact specialOpen_cases inSlot opened
          case h_2 fault opened =>
            cases done
            cases ok

/-- What a successful clone has done to what lookups depend on. -/
structure Cloned (F : Family) (req : CloneReq) (F' : Family) : Prop where
  attached : F.attached = true → F'.attached = true ∧
    F'.par.toVersionStore = { F.par.toVersionStore with origSize := roundUp F.par.file.size }
  version : F'.version = if F.attached then F.version else 1
  logOf : ∀ i, F'.logOf i = F.logOf i
  logAttr : F'.logAttr = req.logIno
  origSize : F'.par.origSize = roundUp F.par.file.size
  other : ∀ c, c ≠ req.child → (F'.child c).version = (F.child c).version
  child : (F'.child req.child).version =
    if (F.child req.child).scorwInode.isSome then (F.child req.child).version else 1
  copySize : (F'.child req.child).copySize = F.par.file.size
  friendIno : (F'.child req.child).friendIno = req.friendIno
  friends : F'.friends = Function.update F.friends req.friendIno
    (initFriendFile (F.friends req.friendIno) F.par.file.size)
  seeThruRoAttr : F'.seeThruRoAttr = req.seeThruRo
  isSeeThruRo : F'.attached = true →
    F'.isSeeThruRo = if F.attached then F.isSeeThruRo else req.seeThruRo
  later : F.isOpenedFirstTime = false → F'.isOpenedFirstTime = false

theorem child_setParent_self (F : Family) (req : CloneReq) :
    ((F.setAttributes req).setParent req).child req.child = { F.child req.child with
      hasParent := true
      currVersionAttr := 1
      copySize := F.par.file.size
      seeThruRo := req.seeThruRo
      friendIno := req.friendIno } := by
  unfold setParent setAttributes
  dsimp only
  rw [child_setChild_self, child_setChild_self]

theorem child_setParent_of_ne {c : Ino} (F : Family) (other : c ≠ req.child) :
    ((F.setAttributes req).setParent req).child c = F.child c := by
  unfold setParent setAttributes
  dsimp only
  rw [child_setChild_of_ne other]
  exact child_setChild_of_ne other F _

/-- The new child is at version `1`, unless its `scorw_inode` is there already. -/
theorem version_setParent_self (F : Family) (req : CloneReq) :
    (((F.setAttributes req).setParent req).child req.child).version =
      if (F.child req.child).scorwInode.isSome then (F.child req.child).version else 1 := by
  rw [child_setParent_self]
  unfold Child.version
  cases (F.child req.child).scorwInode with
  | none => rfl
  | some s => rfl

/-- Reading the attributes of a new clone back into memory changes nothing. -/
theorem cloned_startParent (req : CloneReq) (env : MountEnv) (detached : F.attached = false)
    (later : F.isOpenedFirstTime = false) :
    let G := (F.setAttributes req).setParent req
    (G.startParent env).version = 1 ∧ ∀ i, (G.startParent env).logOf i = F.logOf i := by
  intro G
  have later' : G.isOpenedFirstTime = false := later
  obtain ⟨version, _, log⟩ := par_startParent_of_later env later'
  refine ⟨version, fun i => ?_⟩
  rw [logOf_of_detached detached]
  unfold logOf
  split
  case isTrue here =>
    have named : i = G.logAttr := here.2
    rw [log, named]
    rfl
  case isFalse => rfl

theorem cloned_of_step (sane : Sane F) (done : F.step (.clone req env) = some (0, F'))
    (ok : F'.fault = none) : Cloned F req F' := by
  have settled {G : Family} (calm : Calm G F')
      (same : ∀ c, G.child c = ((F.setAttributes req).setParent req).child c)
      (version : G.version = if F.attached then F.version else 1)
      (logOf : ∀ i, G.logOf i = F.logOf i)
      (origSize : G.par.origSize = roundUp F.par.file.size)
      (attributes : G.logAttr = req.logIno ∧ G.seeThruRoAttr = req.seeThruRo ∧
        G.friends = Function.update F.friends req.friendIno
          (initFriendFile (F.friends req.friendIno) F.par.file.size))
      (attached : F.attached = true → F'.attached = true ∧
        F'.par.toVersionStore = { F.par.toVersionStore with origSize := roundUp F.par.file.size })
      (isSeeThruRo : F'.attached = true →
        G.isSeeThruRo = if F.attached then F.isSeeThruRo else req.seeThruRo)
      (later : F.isOpenedFirstTime = false → F'.isOpenedFirstTime = false) :
      Cloned F req F' := by
    have kept := calm.attributes
    unfold Family.attributes at kept
    simp only [Prod.mk.injEq] at kept
    obtain ⟨logAttr, seeThruRoAttr, mode, friends⟩ := kept
    refine ⟨attached, calm.version.trans version, fun i => (calm.logOf i).trans (logOf i),
      logAttr.trans attributes.1, calm.origSize.trans origSize, fun c other => ?_, ?_, ?_, ?_,
      friends.trans attributes.2.2, seeThruRoAttr.trans attributes.2.1,
      fun here => mode.trans (isSeeThruRo here), later⟩
    · rw [(calm.child c).version, same, child_setParent_of_ne F other]
    · rw [(calm.child req.child).version, same, version_setParent_self]
    · rw [(calm.child req.child).copySize, same, child_setParent_self]
    · rw [(calm.child req.child).friendIno, same, child_setParent_self]
  rcases clone_ok done ok with ⟨kind, calm⟩ | ⟨detached, several, calm⟩
  · have stays (attached : F.attached = true) : F'.attached = true := by
      rcases kind with ⟨_, here⟩ | same
      · exact here
      · rw [same]
        exact attached
    have later (first : F.isOpenedFirstTime = false) : F'.isOpenedFirstTime = false := by
      rcases kind with ⟨attached, _⟩ | same
      · unfold isOpenedFirstTime
        rw [calm.openedSinceMount]
        have mounted : ((F.setAttributes req).setParent req).openedSinceMount = true :=
          sane.mounted (.inl attached)
        rw [mounted]
        exact Bool.and_false _
      · rw [same]
        exact first
    refine settled calm (fun _ => rfl) ?_ (fun _ => rfl) rfl ⟨rfl, rfl, rfl⟩
      (fun attached => ⟨stays attached, (calm.store (stays attached)).2⟩) (fun attached => ?_) later
    · unfold Family.version
      cases here : F.attached with
      | true => exact if_pos here
      | false =>
          refine if_neg ?_
          rw [show ((F.setAttributes req).setParent req).attached = F.attached from rfl, here]
          exact Bool.noConfusion
    · have before : F.attached = true := (calm.store attached).1
      rw [if_pos before]
      rfl
  · have later : F.isOpenedFirstTime = false := by
      unfold isOpenedFirstTime
      rw [sane.mounted (.inr (lt_trans Int.zero_lt_one several))]
      exact Bool.and_false _
    obtain ⟨version, logOf⟩ := cloned_startParent req env detached later
    have not : ¬ F.attached = true := by
      rw [detached]
      exact Bool.noConfusion
    refine settled calm (fun _ => rfl) ?_ logOf (origSize_startParent _ env) ⟨rfl, rfl, rfl⟩
      (fun attached => (not attached).elim) (fun _ => ?_) fun _ => ?_
    · rw [if_neg not]
      exact version
    · rw [if_neg not]
      rfl
    · unfold isOpenedFirstTime
      rw [calm.openedSinceMount]
      exact Bool.and_false _

/-! ## The new child -/

/-- `scorw_is_block_copied` of a friend file. Past the last whole page of the file
only the pages in the page cache are looked at. -/
def isBlockCopied (cached : Nat → Bool) (friend : ByteFile UInt8) (blk : Nat) : Bool :=
  let page := blk / (pageSize * 8)
  if cached page || decide (page < friend.size / pageSize) then
    (friend.byteAt (blk / 8)).toNat.testBit (blk % 8)
  else false

/-- `blocks_count`: the blocks of a child that the parent has at clone time. -/
def blocksCount (k : Child) : Nat := (k.copySize - 1) / pageSize + 1

/-- An empty friend file marks nothing, before and after it gets its pages. -/
theorem isBlockCopied_initFriendFile (cached : Nat → Bool) (friend : ByteFile UInt8)
    (copySize blk : Nat) :
    isBlockCopied cached (initFriendFile friend copySize) blk =
      isBlockCopied cached friend blk := by
  unfold initFriendFile
  split
  case isTrue empty =>
    have zero {g : ByteFile UInt8} (blank : g.byteAt (blk / 8) = 0) :
        isBlockCopied cached g blk = false := by
      unfold isBlockCopied
      dsimp only
      rw [blank]
      split
      · exact Nat.zero_testBit _
      · rfl
    rw [zero (g := friend) (ByteFile.byteAt_of_size_le (by omega)), zero]
    exact ite_self _
  case isFalse => rfl

/-- Every block the log maps at a version is mapped to itself, below the size. -/
def OwnPlaces (log : List LogRecord) (size version : Nat) : Prop :=
  ∀ blk p, (entries log).visible (min version maxVersions) blk = some p →
    p = blk ∧ blk < size / pageSize

theorem resolve_one (records : ∀ r ∈ log, 2 ≤ r.versionNum) (size blk : Nat) :
    resolve log size 1 blk = if blk < size / pageSize then some blk else none := by
  have unmapped : (entries log).visible (min 1 maxVersions) blk = none := by
    apply History.visible_eq_none_iff.mpr
    intro e member _ low
    have := forall_entries_version (P := (2 ≤ ·)) records e member
    have : min 1 maxVersions = 1 := rfl
    omega
  unfold resolve
  rw [unmapped, Option.none_or]

/-- Version `1` resolves every block as another version does exactly when the
blocks mapped there are in their own places. -/
theorem resolve_one_eq_iff (records : ∀ r ∈ log, 2 ≤ r.versionNum) (size version : Nat) :
    (∀ blk, resolve log size 1 blk = resolve log size version blk) ↔
      OwnPlaces log size version := by
  constructor
  · intro same blk p mapped
    have here := same blk
    rw [resolve_one records, resolve, mapped, Option.some_or] at here
    split at here
    case isTrue below => exact ⟨(Option.some.inj here).symm, below⟩
    case isFalse => cases here
  · intro own blk
    rw [resolve_one records, resolve]
    cases mapped : (entries log).visible (min version maxVersions) blk with
    | none => rw [Option.none_or]
    | some p =>
        obtain ⟨rfl, below⟩ := own blk p mapped
        rw [if_pos below, Option.some_or]

/-- The block that a reader at a version finds now. -/
def block (F : Family) (version blk : Nat) : Option Nat :=
  if F.attached then F.openBlock version blk else F.storedBlock version blk

/-- The blocks that the original size gains or loses are mapped at the version. -/
def CoversResize (log : List LogRecord) (size size' version : Nat) : Prop :=
  ∀ blk, (blk < size' / pageSize ↔ blk < size / pageSize) ∨
    ((entries log).visible (min version maxVersions) blk).isSome = true

theorem resolve_resize_iff (log : List LogRecord) (size size' version : Nat) :
    (∀ blk, resolve log size' version blk = resolve log size version blk) ↔
      CoversResize log size size' version := by
  refine forall_congr' fun blk => ?_
  unfold resolve
  cases (entries log).visible (min version maxVersions) blk with
  | some p => simp only [Option.some_or, Option.isSome_some, or_true]
  | none =>
      simp only [Option.none_or, Option.isSome_none, Bool.false_eq_true, or_false]
      by_cases new : blk < size' / pageSize
      · by_cases old : blk < size / pageSize
        · simp [new, old]
        · simp [new, old]
      · by_cases old : blk < size / pageSize
        · simp [new, old]
        · simp [new, old]

/-- Going back to version `1` and to another size at once. -/
theorem resolve_reset_iff (records : ∀ r ∈ log, 2 ≤ r.versionNum) (size size' version : Nat) :
    (∀ blk, resolve log size' 1 blk = resolve log size version blk) ↔
      CoversResize log size size' version ∧ OwnPlaces log size' version := by
  constructor
  · intro same
    have own : OwnPlaces log size' version := by
      intro blk p mapped
      have here := same blk
      rw [resolve_one records, resolve, mapped, Option.some_or] at here
      split at here
      case isTrue below => exact ⟨(Option.some.inj here).symm, below⟩
      case isFalse => cases here
    have back := (resolve_one_eq_iff records size' version).mpr own
    exact ⟨(resolve_resize_iff log size size' version).mp fun blk =>
      (back blk).symm.trans (same blk), own⟩
  · rintro ⟨covers, own⟩ blk
    rw [(resolve_one_eq_iff records size' version).mpr own blk]
    exact (resolve_resize_iff log size size' version).mpr covers blk

/-- Writes to the parent go to new blocks, now and after a reopen. -/
def Redirects (F : Family) : Prop :=
  (F.attached = true → F.isSeeThruRo = true) ∧ F.seeThruRoAttr = true

/-- A call on the parent, as the step of the family it makes. -/
theorem call_of_step {op : Op} {copies : Nat} {ret : Int}
    (taken : F.step (.call op copies) = some (ret, F')) :
    ∃ done, F.call op copies = some done ∧ F.settle done.1 done.2 = some (ret, F') := by
  unfold step at taken
  split at taken
  case isTrue => cases taken
  case isFalse =>
    obtain ⟨done, made, settled⟩ := Option.bind_eq_some_iff.mp taken
    exact ⟨done, made, settled⟩

/-- What a step leaves unchanged for the parent and for every child: the block that
each block resolves to, now and after a reopen, and that writes are redirected if
some child needs it. -/
structure Undisturbed (F F' : Family) : Prop where
  parent : F.attached = true → ∀ blk, F'.openBlock F'.version blk = F.openBlock F.version blk
  child : F.attached = true → ∀ c, F.IsChild c → ∀ blk,
    F'.openBlock (F'.child c).version blk = F.openBlock (F.child c).version blk
  parentReopened : ∀ env blk, (F'.reopened env).openBlock (F'.reopened env).version blk =
    (F.reopened env).openBlock (F.reopened env).version blk
  childReopened : ∀ env c, F.IsChild c → ∀ blk,
    (F'.reopened env).openBlock (F'.child c).version blk =
      (F.reopened env).openBlock (F.child c).version blk
  redirects : ∀ c, F.IsChild c → (F.child c).seeThruRo = true → F'.Redirects

/-- The log that lookups go through, or will after a reopen. -/
def LogInUse (F : Family) (log : List LogRecord) : Prop :=
  log = F.logOf F.logAttr ∨ F.attached = true ∧ log = F.par.log

/-- What a clone must find in order to disturb nobody. -/
structure Harmless (F : Family) (req : CloneReq) : Prop where
  /-- the size of the file gives readers no block that their log does not map -/
  parentCovers : ∀ log, F.LogInUse log →
    CoversResize log F.par.origSize (roundUp F.par.file.size) F.version
  childCovers : ∀ log, F.LogInUse log → ∀ c, F.IsChild c →
    CoversResize log F.par.origSize (roundUp F.par.file.size) (F.child c).version
  /-- a parent that is not attached falls back to version `1` -/
  parentOwn : F.attached = false →
    OwnPlaces (F.logOf F.logAttr) (roundUp F.par.file.size) F.version
  /-- so does a child that is cloned again while it is not attached -/
  childOwn : F.IsChild req.child → (F.child req.child).scorwInode.isSome = false →
    ∀ log, F.LogInUse log →
      OwnPlaces log (roundUp F.par.file.size) (F.child req.child).version
  redirects : ∀ c, F.IsChild c → (F.child c).seeThruRo = true →
    req.seeThruRo = true ∧ (F.attached = true → F.isSeeThruRo = true)

theorem Sane.records_of_inUse (sane : Sane F) (inUse : F.LogInUse log) :
    ∀ r ∈ log, 2 ≤ r.versionNum := by
  rcases inUse with rfl | ⟨attached, rfl⟩
  · exact sane.records F.logAttr
  · have inMemory : F.logOf F.logIno = F.par.log := if_pos ⟨attached, rfl⟩
    rw [← inMemory]
    exact sane.records F.logIno

/-- A clone changes what the parent resolves blocks to only through the original
size, and through version `1` if it is not attached. -/
theorem Cloned.parent_iff (cloned : Cloned F req F') (records : ∀ r ∈ log, 2 ≤ r.versionNum) :
    (∀ blk, resolve log (roundUp F.par.file.size) F'.version blk =
        resolve log F.par.origSize F.version blk) ↔
      CoversResize log F.par.origSize (roundUp F.par.file.size) F.version ∧
        (F.attached = false → OwnPlaces log (roundUp F.par.file.size) F.version) := by
  rw [cloned.version]
  cases F.attached with
  | true =>
      rw [if_pos rfl, resolve_resize_iff]
      exact ⟨fun covers => ⟨covers, fun none => Bool.noConfusion none⟩, And.left⟩
  | false =>
      rw [if_neg Bool.noConfusion, resolve_reset_iff records]
      exact and_congr_right fun _ => ⟨fun own _ => own, fun own => own rfl⟩

theorem Cloned.child_iff (cloned : Cloned F req F') (records : ∀ r ∈ log, 2 ≤ r.versionNum)
    (c : Ino) :
    (∀ blk, resolve log (roundUp F.par.file.size) (F'.child c).version blk =
        resolve log F.par.origSize (F.child c).version blk) ↔
      CoversResize log F.par.origSize (roundUp F.par.file.size) (F.child c).version ∧
        (c = req.child → (F.child c).scorwInode.isSome = false →
          OwnPlaces log (roundUp F.par.file.size) (F.child c).version) := by
  have stays (same : (F'.child c).version = (F.child c).version)
      (none : c = req.child → (F.child c).scorwInode.isSome = true) :
      (∀ blk, resolve log (roundUp F.par.file.size) (F'.child c).version blk =
          resolve log F.par.origSize (F.child c).version blk) ↔
        CoversResize log F.par.origSize (roundUp F.par.file.size) (F.child c).version ∧
          (c = req.child → (F.child c).scorwInode.isSome = false →
            OwnPlaces log (roundUp F.par.file.size) (F.child c).version) := by
    rw [same, resolve_resize_iff]
    exact ⟨fun covers => ⟨covers, fun again detached =>
      Bool.noConfusion (detached.symm.trans (none again))⟩, And.left⟩
  by_cases again : c = req.child
  · cases attached : (F.child c).scorwInode.isSome with
    | true =>
        rw [← attached]
        apply stays
        · rw [again] at attached ⊢
          rw [cloned.child, if_pos attached]
        · exact fun _ => attached
    | false =>
        have version : (F'.child c).version = 1 := by
          rw [again] at attached ⊢
          rw [cloned.child, attached]
          rfl
        rw [version, resolve_reset_iff records]
        exact and_congr_right fun _ => ⟨fun own _ _ => own, fun own => own again rfl⟩
  · exact stays (cloned.other c again) fun same => (again same).elim

/-- What a clone changes for readers, in terms of the logs in use. -/
theorem Cloned.undisturbed_iff (cloned : Cloned F req F') (sane : Sane F)
    (sameLog : req.logIno = F.logAttr) (later : F.isOpenedFirstTime = false) :
    Undisturbed F F' ↔
      (∀ log, F.LogInUse log →
        (∀ blk, resolve log (roundUp F.par.file.size) F'.version blk =
          resolve log F.par.origSize F.version blk) ∧
        ∀ c, F.IsChild c → ∀ blk,
          resolve log (roundUp F.par.file.size) (F'.child c).version blk =
            resolve log F.par.origSize (F.child c).version blk) ∧
      ∀ c, F.IsChild c → (F.child c).seeThruRo = true → F'.Redirects := by
  have openBefore (attached : F.attached = true) (v blk : Nat) :
      F.openBlock v blk = resolve F.par.log F.par.origSize v blk :=
    sane.openBlock_eq attached v blk
  have openAfter (attached : F.attached = true) (v blk : Nat) :
      F'.openBlock v blk = resolve F.par.log (roundUp F.par.file.size) v blk := by
    obtain ⟨_, store⟩ := cloned.attached attached
    have coherent : Coherent F'.par.log F'.par.cache := by
      rw [store]
      exact sane.coherent attached
    unfold openBlock
    rw [lookupPhysicalBlock_eq Env.clean_faultFree coherent, store]
  have before (env : MountEnv) := openBlock_reopened env later
  have after (env : MountEnv) := openBlock_reopened env (cloned.later later)
  have storedAfter (v blk : Nat) : F'.storedBlock v blk =
      resolve (F.logOf F.logAttr) (roundUp F.par.file.size) v blk := by
    rw [storedBlock_eq, cloned.logAttr, cloned.logOf, cloned.origSize, sameLog]
  constructor
  · intro undisturbed
    refine ⟨?_, undisturbed.redirects⟩
    rintro log (rfl | ⟨attached, rfl⟩)
    · let env : MountEnv := ⟨fun _ => true, .upTo 0⟩
      refine ⟨fun blk => ?_, fun c isChild blk => ?_⟩
      · have same := undisturbed.parentReopened env blk
        rw [(before env).1, (after env).1, (before env).2, (after env).2, storedAfter,
          storedBlock_eq] at same
        exact same
      · have same := undisturbed.childReopened env c isChild blk
        rw [(before env).2, (after env).2, storedAfter, storedBlock_eq] at same
        exact same
    · refine ⟨fun blk => ?_, fun c isChild blk => ?_⟩
      · rw [← openAfter attached, ← openBefore attached]
        exact undisturbed.parent attached blk
      · rw [← openAfter attached, ← openBefore attached]
        exact undisturbed.child attached c isChild blk
  · rintro ⟨logs, redirects⟩
    refine ⟨fun attached blk => ?_, fun attached c isChild blk => ?_, fun env blk => ?_,
      fun env c isChild blk => ?_, redirects⟩
    · rw [openAfter attached, openBefore attached]
      exact (logs _ (.inr ⟨attached, rfl⟩)).1 blk
    · rw [openAfter attached, openBefore attached]
      exact (logs _ (.inr ⟨attached, rfl⟩)).2 c isChild blk
    · rw [(before env).1, (after env).1, (before env).2, (after env).2, storedAfter,
        storedBlock_eq]
      exact (logs _ (.inl rfl)).1 blk
    · rw [(before env).2, (after env).2, storedAfter, storedBlock_eq]
      exact (logs _ (.inl rfl)).2 c isChild blk

theorem Cloned.redirects_iff (cloned : Cloned F req F') :
    F'.Redirects ↔ req.seeThruRo = true ∧ (F.attached = true → F.isSeeThruRo = true) := by
  unfold Redirects
  rw [cloned.seeThruRoAttr]
  constructor
  · rintro ⟨inMemory, stored⟩
    refine ⟨stored, fun attached => ?_⟩
    have here := (cloned.attached attached).1
    have mode := cloned.isSeeThruRo here
    rw [if_pos attached] at mode
    rw [← mode]
    exact inMemory here
  · rintro ⟨stored, inMemory⟩
    refine ⟨fun here => ?_, stored⟩
    rw [cloned.isSeeThruRo here]
    split
    case isTrue attached => exact inMemory attached
    case isFalse => exact stored

/-- A successful clone that names the log in use, on a parent that needs no recovery,
disturbs nobody exactly when it is harmless. -/
theorem clone_undisturbed_iff {f : ByteFile UInt8} {friends : Ino → ByteFile UInt8}
    {ops : List FamilyOp} {F F' : Family} {req : CloneReq} {env : MountEnv}
    (reached : Run step (fun _ op => op.Regular) { plain f with friends := friends } ops F)
    (done : F.step (.clone req env) = some (0, F')) (ok : F'.fault = none)
    (sameLog : req.logIno = F.logAttr) (later : F.isOpenedFirstTime = false) :
    Undisturbed F F' ↔ Harmless F req := by
  have sane := sane_of_run reached
  have cloned := cloned_of_step sane done ok
  rw [cloned.undisturbed_iff sane sameLog later]
  constructor
  · rintro ⟨logs, redirects⟩
    have parent (log : List LogRecord) (inUse : F.LogInUse log) :=
      (cloned.parent_iff (sane.records_of_inUse inUse)).mp (logs log inUse).1
    have child (log : List LogRecord) (inUse : F.LogInUse log) (c : Ino) (isChild : F.IsChild c) :=
      (cloned.child_iff (sane.records_of_inUse inUse) c).mp ((logs log inUse).2 c isChild)
    exact
      { parentCovers := fun log inUse => (parent log inUse).1
        childCovers := fun log inUse c isChild => (child log inUse c isChild).1
        parentOwn := (parent _ (.inl rfl)).2
        childOwn := fun isChild detached log inUse =>
          (child log inUse req.child isChild).2 rfl detached
        redirects := fun c isChild seeThru =>
          cloned.redirects_iff.mp (redirects c isChild seeThru) }
  · intro harmless
    refine ⟨fun log inUse => ⟨?_, fun c isChild => ?_⟩, fun c isChild seeThru =>
      cloned.redirects_iff.mpr (harmless.redirects c isChild seeThru)⟩
    · refine (cloned.parent_iff (sane.records_of_inUse inUse)).mpr
        ⟨harmless.parentCovers log inUse, fun detached => ?_⟩
      rcases inUse with rfl | ⟨attached, _⟩
      · exact harmless.parentOwn detached
      · exact Bool.noConfusion (detached.symm.trans attached)
    · refine (cloned.child_iff (sane.records_of_inUse inUse) c).mpr
        ⟨harmless.childCovers log inUse c isChild, fun again detached => ?_⟩
      subst again
      exact harmless.childOwn isChild detached log inUse

/-- The parent has appended a block that the only other child has seen, and a third
file is cloned while that child is open. -/
theorem clone_undisturbed_after_update :
    ∃ F F' : Family,
      Run step (fun _ op => op.Regular) (plain (.blank 8192))
        [.clone ⟨5, 50, 100, true, 0⟩ ⟨fun _ => true, .upTo 0⟩,
          .openParent 0 ⟨fun _ => true, .upTo 0⟩,
          .openChild 1 5 ⟨fun _ => true, .upTo 0⟩,
          .call (.write 0 ⟨8192, [7], by decide, by decide⟩ (.clean 1)) 0,
          .closeParent 0, .updateVersion 1 5] F ∧
        F.step (.clone ⟨6, 51, 100, true, 0⟩ ⟨fun _ => true, .upTo 0⟩) = some (0, F') ∧
        F.par.log = [⟨2, 2, 2, 1⟩] ∧ Undisturbed F F' := by
  refine Run.exists_step_imp (fun _ _ => true)
    (by simp [FamilyOp.Regular, Op.Regular, WriteEnv.clean, Env.clean])
    (Q := fun F F' => (F.par.log = [⟨2, 2, 2, 1⟩] ∧ F.logOf F.logAttr = F.par.log ∧
      F.logAttr = 100 ∧ F.attached = true ∧ F.isSeeThruRo = true ∧
      F.isOpenedFirstTime = false) ∧
      (F.version = 2 ∧ (F.child 5).version = 2 ∧ F.par.origSize = 8192 ∧
        roundUp F.par.file.size = 12288) ∧ F'.fault = none) (by decide +kernel) ?_
  rintro F F' run done ⟨⟨log, stored, logAttr, attached, mode, later⟩,
    ⟨version, child, origSize, size⟩, ok⟩
  have only {c : Ino} (isChild : F.IsChild c) : c = 5 := by
    rcases isChild_of_run run isChild with start | ⟨req, env, member, same⟩
    · rcases start with inSlot | attached
      · cases inSlot
      · cases attached
    · simp only [List.mem_cons, FamilyOp.clone.injEq, reduceCtorEq, List.not_mem_nil, or_false]
        at member
      rw [member.1] at same
      exact same.symm
  have inUse {other : List LogRecord} (used : F.LogInUse other) : other = [⟨2, 2, 2, 1⟩] := by
    rcases used with rfl | ⟨_, rfl⟩
    · rw [stored, log]
    · exact log
  have covers : CoversResize [⟨2, 2, 2, 1⟩] 8192 12288 2 := by
    intro blk
    by_cases appended : blk = 2
    · subst appended
      exact .inr (by decide +kernel)
    · left
      unfold pageSize
      omega
  have harmless : Harmless F ⟨6, 51, 100, true, 0⟩ :=
    { parentCovers := fun other used => by
        rw [inUse used, origSize, size, version]
        exact covers
      childCovers := fun other used c isChild => by
        rw [inUse used, origSize, size, only isChild, child]
        exact covers
      parentOwn := fun detached => Bool.noConfusion (detached.symm.trans attached)
      childOwn := fun isChild => absurd (only isChild) (by decide)
      redirects := fun _ _ _ => ⟨rfl, fun _ => mode⟩ }
  exact ⟨log, (clone_undisturbed_iff run done ok logAttr.symm later).mpr harmless⟩

/-- A third file is cloned from an open parent after a write: block `2`, which no reader
could see, is now part of the file for the parent and for the other child. And a
clone without see-through ranges turns redirection off. -/
theorem clone_undisturbed_fails :
    ∃ F F' : Family,
      Run step (fun _ op => op.Regular) (plain (.blank 8192))
        [.clone ⟨5, 50, 100, true, 0⟩ ⟨fun _ => true, .upTo 0⟩,
          .openParent 0 ⟨fun _ => true, .upTo 0⟩,
          .call (.write 0 ⟨0, [7], by decide, by decide⟩ (.clean 1)) 0] F ∧
        F.step (.clone ⟨6, 51, 100, false, 0⟩ ⟨fun _ => true, .upTo 0⟩) = some (0, F') ∧
        F'.fault = none ∧ F.IsChild 5 ∧ (F.child 5).seeThruRo = true ∧
        F.openBlock (F.child 5).version 2 = none ∧
        F'.openBlock (F'.child 5).version 2 = some 2 ∧
        F'.seeThruRoAttr = false := by
  refine Run.exists_step_imp (fun _ _ => true)
    (by simp [FamilyOp.Regular, Op.Regular, WriteEnv.clean, Env.clean])
    (Q := fun F F' => F'.fault = none ∧ 5 ∈ F.slots ∧ (F.child 5).seeThruRo = true ∧
      F.openBlock (F.child 5).version 2 = none ∧
      F'.openBlock (F'.child 5).version 2 = some 2 ∧ F'.seeThruRoAttr = false)
    (by decide +kernel) ?_
  rintro F F' _ _ ⟨ok, inSlot, shown⟩
  exact ⟨ok, .inl inSlot, shown⟩

end Family

end FlexClone.Scorw
