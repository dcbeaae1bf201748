import FlexClone.Run
import FlexClone.Scorw.Writev

/-!
# The parent as a machine

`step` is one system call on a see-through parent: opening and closing it or one
of its children, beginning and ending a transaction, writing, the vectored write
ioctl and a lookup by the parent or a child. A call that would wait for the
transaction lock, or that is made on a handle that is not open, has no step.

`step_cases` says everything one call can do; the invariants of the other
modules are derived from it.
-/

namespace FlexClone.Scorw

open Versioned

/-- A parent right after cloning: the original size is the file's, rounded up to
whole blocks, the version is `1` and the log is empty. -/
def cloned (f : ByteFile UInt8) : State :=
  ⟨⟨1, .empty, [], roundUp f.size⟩, f, .init, 1, 0, [], 0⟩

/-- Nobody has the parent or one of its children open. -/
def State.Unused (s : State) : Prop := s.handles = [] ∧ s.childUsers = 0

instance (s : State) : Decidable s.Unused := inferInstanceAs (Decidable (_ ∧ _))

/-- `scorw_get_inode`: the first user makes `scorw_prepare_par_inode` build the
`scorw_inode` from the stored attributes. -/
def getInode (s : State) : State :=
  if s.Unused then
    { s with version := s.currVersionAttr, cache := .empty, tLocks := .init }
  else s

/-- `scorw_put_inode` after a user is gone: the version is stored, and without
users the maps are freed. -/
def putInode (s : State) : State :=
  let s := { s with currVersionAttr := s.version }
  if s.Unused then { s with cache := .empty } else s

/-- `ext4_release_file` of the parent. -/
def releaseFile (s : State) (file : Handle) : Int × State :=
  let closed := { s with handles := s.handles.erase file }
  if selfTransactionStatus s file = .setTransaction then
    let err := setTransactionError closed file
    if err.1 ≠ 0 then (-25, err.2) else (0, putInode err.2)
  else (0, putInode closed)

/-- System calls on a parent and its children. -/
inductive Op
  | openFile (file : Handle)
  | closeFile (file : Handle)
  | openChild
  | closeChild
  | beginTransaction (file : Handle) (interrupted : Bool)
  | endTransaction (file : Handle)
  | write (file : Handle) (w : WriteReq) (env : WriteEnv)
  | writev (file : Handle) (vecs : List (IoVec × VecOutcome)) (create : Env)
  /-- a lookup by the parent, or by a child, at a version -/
  | lookup (version blk : Nat) (env : Env)

/-- One system call. -/
def step (s : State) : Op → Option (Int × State)
  | .openFile file =>
      if file ∈ s.handles then none
      else
        let s := getInode s
        some (0, { s with handles := file :: s.handles })
  | .closeFile file => if file ∈ s.handles then some (releaseFile s file) else none
  | .openChild =>
      let s := getInode s
      some (0, { s with childUsers := s.childUsers + 1 })
  | .closeChild =>
      if s.childUsers = 0 then none
      else some (0, putInode { s with childUsers := s.childUsers - 1 })
  | .beginTransaction file interrupted =>
      if file ∈ s.handles then setTransaction interrupted s file .setTransaction else none
  | .endTransaction file =>
      if file ∈ s.handles then setTransaction false s file .unset else none
  | .write file w env => if file ∈ s.handles then genericPerformWrite env s file w else none
  | .writev file vecs create =>
      if file ∈ s.handles then ioctlSeeThruWritev create s vecs else none
  | .lookup version blk env =>
      if s.Unused then none
      else
        let found := lookupPhysicalBlock env s.toVersionStore version blk
        some (found.1.getD blkNotFound, { s with toVersionStore := found.2 })

/-! ## What one call can do -/

/-- File, log, version and original size stay. -/
structure Quiet (s s' : State) : Prop where
  file : s'.file = s.file
  log : s'.log = s.log
  version : s'.version = s.version
  origSize : s'.origSize = s.origSize

/-- The stored version is the one in memory while nobody has the parent open. -/
def Idle (s : State) : Prop := s.Unused → s.currVersionAttr = s.version

variable {s s' : State} {op : Op} {ret : Int} {file : Handle} {w : WriteReq} {env : WriteEnv}

theorem quiet_getInode (idle : Idle s) : Quiet s (getInode s) := by
  unfold getInode
  split
  case isTrue unused => exact ⟨rfl, rfl, idle unused, rfl⟩
  case isFalse => exact ⟨rfl, rfl, rfl, rfl⟩

theorem quiet_putInode (s : State) : Quiet s (putInode s) := by
  unfold putInode
  dsimp only
  split
  · exact ⟨rfl, rfl, rfl, rfl⟩
  · exact ⟨rfl, rfl, rfl, rfl⟩

theorem currVersionAttr_putInode (s : State) : (putInode s).currVersionAttr = s.version := by
  unfold putInode
  dsimp only
  split
  · rfl
  · rfl

/-- The lock after a close: a transaction of the handle is abandoned, anything
else keeps the lock. -/
def closeLocks (s : State) (file : Handle) : TransactionLocks :=
  if selfTransactionStatus s file = .setTransaction then ⟨false, none, .unset⟩ else s.tLocks

/-- Closing never fails: the owner of a transaction can always give it up. -/
theorem releaseFile_eq (s : State) (file : Handle) :
    releaseFile s file = (0, putInode { s with
      handles := s.handles.erase file
      tLocks := closeLocks s file }) := by
  unfold releaseFile closeLocks
  split
  case isTrue inside =>
    have held := selfTransactionStatus_eq_setTransaction.mp inside
    simp [setTransactionError, held]
  case isFalse => rfl

/-- Everything one call can do. -/
inductive StepCase (s : State) : Op → Int → State → Prop
  | openFile {file : Handle} (fresh : file ∉ s.handles) :
    StepCase s (.openFile file) 0
      { getInode s with handles := file :: (getInode s).handles }
  | closeFile {file : Handle} (isOpen : file ∈ s.handles) :
    StepCase s (.closeFile file) 0
      (putInode { s with handles := s.handles.erase file, tLocks := closeLocks s file })
  | openChild :
    StepCase s .openChild 0 { getInode s with childUsers := (getInode s).childUsers + 1 }
  | closeChild (isOpen : s.childUsers ≠ 0) :
    StepCase s .closeChild 0 (putInode { s with childUsers := s.childUsers - 1 })
  | beginRefused {file : Handle} {interrupted : Bool} {ret : Int} (nonzero : ret ≠ 0) :
    StepCase s (.beginTransaction file interrupted) ret s
  | begun {file : Handle} {interrupted : Bool} (isOpen : file ∈ s.handles)
    (free : s.tLocks.locked = false) :
    StepCase s (.beginTransaction file interrupted) 0
      { s with tLocks := ⟨true, some file, .setTransaction⟩ }
  | endRefused {file : Handle} : StepCase s (.endTransaction file) (-25) s
  | committed {file : Handle} (isOpen : file ∈ s.handles)
    (held : s.tLocks = ⟨true, some file, .setTransaction⟩) :
    StepCase s (.endTransaction file) 0
      { s with
        version := s.version + 1
        syncedLog := s.log.length
        tLocks := ⟨false, none, .unset⟩ }
  /-- `END` by a handle whose plain write gave up with the lock held -/
  | unlocked {file : Handle} (held : s.tLocks.locked = true ∧ s.tLocks.owner = some file)
    (outside : s.tLocks.transaction ≠ .setTransaction) :
    StepCase s (.endTransaction file) 0 { s with tLocks := ⟨false, none, .unset⟩ }
  | write {file : Handle} {w : WriteReq} {env : WriteEnv} {ret : Int} {s' : State}
    (isOpen : file ∈ s.handles) (result : WriteResult env s file w ret s') :
    StepCase s (.write file w env) ret s'
  | writev {file : Handle} {vecs : List (IoVec × VecOutcome)} {create : Env} {ret : Int}
    {s' : State} (isOpen : file ∈ s.handles) (result : WritevResult create s vecs ret s') :
    StepCase s (.writev file vecs create) ret s'
  | lookup {version blk : Nat} {env : Env} (used : ¬ s.Unused) :
    StepCase s (.lookup version blk env)
      ((lookupPhysicalBlock env s.toVersionStore version blk).1.getD blkNotFound)
      { s with toVersionStore := (lookupPhysicalBlock env s.toVersionStore version blk).2 }

theorem unsetTransaction_cases (isOpen : file ∈ s.handles)
    (done : unsetTransaction s file = (ret, s')) : StepCase s (.endTransaction file) ret s' := by
  unfold unsetTransaction at done
  split at done
  case isTrue =>
    cases done
    exact .endRefused
  case isFalse held =>
    have owned : s.tLocks.locked = true ∧ s.tLocks.owner = some file := by
      rcases not_or.mp held with ⟨locked, owner⟩
      exact ⟨by simpa using locked, not_not.mp owner⟩
    dsimp only at done
    split at done
    case isTrue inside =>
      cases done
      apply StepCase.committed isOpen
      rw [← owned.1, ← owned.2, ← inside]
    case isFalse outside =>
      cases done
      exact .unlocked owned outside

theorem step_cases (taken : step s op = some (ret, s')) : StepCase s op ret s' := by
  cases op with
  | openFile file =>
      simp only [step] at taken
      split at taken
      · cases taken
      case isFalse fresh =>
        cases taken
        exact .openFile fresh
  | closeFile file =>
      simp only [step] at taken
      split at taken
      case isTrue isOpen =>
        rw [releaseFile_eq] at taken
        cases taken
        exact .closeFile isOpen
      · cases taken
  | openChild =>
      cases taken
      exact .openChild
  | closeChild =>
      simp only [step] at taken
      split at taken
      · cases taken
      case isFalse isOpen =>
        cases taken
        exact .closeChild isOpen
  | beginTransaction file interrupted =>
      simp only [step] at taken
      split at taken
      case isTrue isOpen =>
        rcases takeTransactionLock_cases taken with ⟨nonzero, rfl⟩ | ⟨rfl, free, rfl⟩
        · exact .beginRefused nonzero
        · exact .begun isOpen free
      · cases taken
  | endTransaction file =>
      simp only [step] at taken
      split at taken
      case isTrue isOpen => exact unsetTransaction_cases isOpen (Option.some.inj taken)
      · cases taken
  | write file w env =>
      simp only [step] at taken
      split at taken
      case isTrue isOpen => exact .write isOpen (genericPerformWrite_cases taken)
      · cases taken
  | writev file vecs create =>
      simp only [step] at taken
      split at taken
      case isTrue isOpen => exact .writev isOpen (ioctlSeeThruWritev_cases taken)
      · cases taken
  | lookup version blk env =>
      simp only [step] at taken
      split at taken
      · cases taken
      case isFalse used =>
        cases taken
        exact .lookup used

/-! ## Sound states -/

/-- No page of the log is unreadable during the call, and a vectored write
addresses blocks whose numbers fit a log record. -/
def Op.Regular : Op → Prop
  | .write _ _ env => (∀ p, env.lookup.readPage p = true) ∧ ∀ p, env.record.readPage p = true
  | .writev _ vecs create => (∀ p, create.readPage p = true) ∧ FitsLog (vecs.map Prod.fst)
  | .lookup _ _ env => ∀ p, env.readPage p = true
  | _ => True

/-- What regular calls preserve. -/
structure Sound (s : State) : Prop where
  /-- the maps in memory agree with the log -/
  coherent : Coherent s.log s.cache
  /-- the original size is a whole number of blocks -/
  aligned : s.origSize % pageSize = 0
  idle : Idle s

theorem lookedUp_store (env : WriteEnv) (s : State) (w : WriteReq) :
    (lookedUp env s w).2 =
      { s.toVersionStore with
        cache := (lookupFrom env.lookup s.log w.startBlk s.version s.cache).2 } :=
  lookupPhysicalBlock_store _ _ _ _

/-- Recording never touches the original size or the version. -/
theorem recordWrite_frame (env : Env) (s : VersionStore) (logicalBlk physicalBlk len : Nat)
    (status : TransactionState) :
    (recordWrite env s logicalBlk physicalBlk len status).2.origSize = s.origSize ∧
      (recordWrite env s logicalBlk physicalBlk len status).2.version = s.version := by
  unfold recordWrite
  dsimp only
  split
  · exact ⟨rfl, rfl⟩
  · exact ⟨rfl, rfl⟩

theorem recorded_frame (env : WriteEnv) (s : State) (file : Handle) (w : WriteReq) :
    (recorded env s file w).2.origSize = s.origSize ∧
      (recorded env s file w).2.version = raisedVersion s file := by
  have frame := recordWrite_frame env.record
    { (lookedUp env s w).2 with version := raisedVersion s file } w.startBlk
    (roundUp s.file.size / pageSize) w.nrBlk (writeStatus s file)
  refine ⟨?_, frame.2⟩
  rw [recorded, frame.1, lookedUp_store]

theorem WriteResult.coherent (result : WriteResult env s file w ret s')
    (regular : (Op.write file w env).Regular) (coherent : Coherent s.log s.cache) :
    Coherent s'.log s'.cache := by
  have next : Coherent (lookedUp env s w).2.log (lookedUp env s w).2.cache := by
    rw [lookedUp_store]
    exact lookupFrom_coherent regular.1 w.startBlk coherent
  cases result with
  | refused outside => exact coherent
  | inPlace ready failed => exact next
  | redirected ready copied => exact recordWrite_coherent regular.2 next w.fitsRecord

theorem WritevResult.coherent {create : Env} {vecs : List (IoVec × VecOutcome)}
    (result : WritevResult create s vecs ret s') (readable : ∀ p, create.readPage p = true)
    (fits : FitsLog (vecs.map Prod.fst)) (coherent : Coherent s.log s.cache) :
    Coherent s'.log s'.cache := by
  have next := getOrCreateVersion_coherent (v := s.version + 1) readable coherent
  cases result with
  | refused => exact coherent
  | dataFailed negative data => exact coherent
  | noVersion data created =>
      rw [created] at next
      exact next
  | @committed ret f m c nonempty nonneg data created =>
      have value := eq_delta_of_getOrCreateVersion (m := m) readable coherent (by rw [created])
      rw [created] at next
      subst value
      intro i m resident
      simp only [VersionCache.setState, Function.update_apply] at resident
      split at resident
      case isTrue same =>
        rw [same, Nat.add_sub_cancel, ← writevRecords_delta fits]
        exact (Option.some.inj resident).symm
      case isFalse other =>
        rw [delta_entries_append_of_ne]
        · exact next i m resident
        · intro r member
          rw [version_of_mem_writevLog member]
          omega

theorem idle_of_mem (isOpen : file ∈ s.handles) : Idle s := by
  intro unused
  rw [unused.1] at isOpen
  cases isOpen

/-- A write leaves handles and the stored version alone. -/
theorem WriteResult.frame (result : WriteResult env s file w ret s') :
    s'.handles = s.handles ∧ s'.currVersionAttr = s.currVersionAttr ∧
      s'.origSize = s.origSize ∧ s'.syncedLog = s.syncedLog := by
  cases result with
  | refused outside => exact ⟨rfl, rfl, rfl, rfl⟩
  | inPlace ready failed =>
      refine ⟨rfl, rfl, ?_, rfl⟩
      dsimp only
      rw [lookedUp_store]
  | redirected ready copied => exact ⟨rfl, rfl, (recorded_frame env s file w).1, rfl⟩

theorem WritevResult.frame {create : Env} {vecs : List (IoVec × VecOutcome)}
    (result : WritevResult create s vecs ret s') :
    s'.handles = s.handles ∧ s'.currVersionAttr = s.currVersionAttr ∧
      s'.origSize = s.origSize ∧ s'.syncedLog = s.syncedLog := by
  cases result with
  | refused => exact ⟨rfl, rfl, rfl, rfl⟩
  | dataFailed negative data => exact ⟨rfl, rfl, rfl, rfl⟩
  | noVersion data created => exact ⟨rfl, rfl, rfl, rfl⟩
  | committed nonempty nonneg data created => exact ⟨rfl, rfl, rfl, rfl⟩

theorem inTransaction_getInode (inside : (getInode s).InTransaction) : s.InTransaction := by
  unfold getInode at inside
  split at inside
  · cases inside.1
  · exact inside

theorem inTransaction_putInode (inside : (putInode s).InTransaction) : s.InTransaction := by
  unfold putInode at inside
  dsimp only at inside
  split at inside
  · exact inside
  · exact inside

theorem currVersionAttr_getInode (s : State) :
    (getInode s).currVersionAttr = s.currVersionAttr := by
  unfold getInode
  split
  · rfl
  · rfl

theorem coherent_getInode (coherent : Coherent s.log s.cache) :
    Coherent (getInode s).log (getInode s).cache := by
  unfold getInode
  split
  · exact coherent_empty _
  · exact coherent

theorem coherent_putInode (coherent : Coherent s.log s.cache) :
    Coherent (putInode s).log (putInode s).cache := by
  unfold putInode
  dsimp only
  split
  · exact coherent_empty _
  · exact coherent

theorem idle_putInode (s : State) : Idle (putInode s) := by
  intro _
  rw [currVersionAttr_putInode, (quiet_putInode s).version]

/-- Every call keeps the stored version right while nobody has the parent open. -/
theorem step_idle (idle : Idle s) (taken : step s op = some (ret, s')) : Idle s' := by
  cases step_cases taken with
  | openFile fresh => exact idle_of_mem List.mem_cons_self
  | closeFile isOpen => exact idle_putInode _
  | openChild => exact fun unused => (Nat.succ_ne_zero _ unused.2).elim
  | closeChild isOpen => exact idle_putInode _
  | beginRefused nonzero => exact idle
  | begun isOpen free => exact idle
  | endRefused => exact idle
  | committed isOpen held => exact idle_of_mem isOpen
  | unlocked held outside => exact idle
  | write isOpen result =>
      rw [← result.frame.1] at isOpen
      exact idle_of_mem isOpen
  | writev isOpen result =>
      rw [← result.frame.1] at isOpen
      exact idle_of_mem isOpen
  | lookup used =>
      rw [lookupPhysicalBlock_store]
      exact idle

/-! ## Histories only grow -/

/-- The version never falls and the log only gains records above it, at most one
version ahead. -/
structure Grows (s s' : State) : Prop where
  version : s.version ≤ s'.version
  origSize : s'.origSize = s.origSize
  bound : ∀ r ∈ s'.log, r ∈ s.log ∨ r.versionNum ≤ s'.version + 1
  log : ∃ tail, s'.log = s.log ++ tail ∧ ∀ r ∈ tail, s.version < r.versionNum

theorem Quiet.grows (quiet : Quiet s s') : Grows s s' :=
  ⟨quiet.version.ge, quiet.origSize, fun _ member => .inl (quiet.log ▸ member), [],
    by rw [quiet.log, List.append_nil], fun _ member => (List.not_mem_nil member).elim⟩

theorem Grows.refl (s : State) : Grows s s := Quiet.grows ⟨rfl, rfl, rfl, rfl⟩

theorem Grows.trans {s₁ s₂ s₃ : State} (first : Grows s₁ s₂) (second : Grows s₂ s₃) :
    Grows s₁ s₃ := by
  obtain ⟨tail, log, above⟩ := first.log
  obtain ⟨tail', log', above'⟩ := second.log
  refine ⟨le_trans first.version second.version, second.origSize.trans first.origSize,
    fun r member => ?_, tail ++ tail', by rw [log', log, List.append_assoc], fun r member => ?_⟩
  · rcases second.bound r member with old | new
    · rcases first.bound r old with older | newer
      · exact .inl older
      · exact .inr (le_trans newer (Nat.succ_le_succ second.version))
    · exact .inr new
  · rcases List.mem_append.mp member with early | late
    · exact above r early
    · exact lt_of_le_of_lt first.version (above' r late)

/-- What blocks resolve to at a version the parent has reached never changes. -/
theorem Grows.resolve (grows : Grows s s') {version : Nat} (old : version ≤ s.version) (blk : Nat) :
    resolve s'.log s'.origSize version blk = resolve s.log s.origSize version blk := by
  obtain ⟨tail, log, above⟩ := grows.log
  rw [log, grows.origSize]
  apply resolve_append_of_above
  exact fun r member => lt_of_le_of_lt old (above r member)

theorem raisedVersion_le (s : State) (file : Handle) :
    s.version ≤ raisedVersion s file ∧ raisedVersion s file ≤ s.version + 1 := by
  unfold raisedVersion
  split
  · exact ⟨le_rfl, Nat.le_succ _⟩
  · exact ⟨Nat.le_succ _, le_rfl⟩

/-- A write's record carries the version after the parent's. -/
theorem recordVersion_raised (s : State) (file : Handle) :
    recordVersion (raisedVersion s file) (writeStatus s file) = s.version + 1 := by
  unfold recordVersion raisedVersion writeStatus
  split
  · rw [if_pos rfl]
  · rw [if_neg (by decide)]

theorem recorded_log_of_zero (zero : (recorded env s file w).1 = 0) :
    (recorded env s file w).2.log =
        appendRecord s.log (s.version + 1) w.startBlk (roundUp s.file.size / pageSize) w.nrBlk ∧
      s.version + 1 ≤ maxVersions := by
  have range := version_range_of_isSome (recordWrite_eq_zero_iff.mp zero)
  dsimp only at range
  rw [recordVersion_raised] at range
  refine ⟨?_, range.2⟩
  unfold recorded at zero ⊢
  rw [recordWrite_of_recorded zero]
  dsimp only
  rw [recordVersion_raised, lookedUp_store]

theorem recorded_log_of_ne (nonzero : (recorded env s file w).1 ≠ 0) :
    (recorded env s file w).2.log = s.log := by
  unfold recorded at nonzero ⊢
  rw [recordWrite_of_failed nonzero]
  dsimp only
  rw [lookedUp_store]

/-- Recording succeeds when the version is in the table and its map can be had. -/
theorem recorded_zero (inside : s.version + 1 ≤ maxVersions)
    (allocated : env.record.alloc (s.version + 1) = true) : (recorded env s file w).1 = 0 := by
  apply recordWrite_eq_zero_iff.mpr
  dsimp only
  rw [recordVersion_raised]
  exact getOrCreateVersion_isSome (Nat.succ_pos _) inside (.inr allocated)

theorem recorded_resident (zero : (recorded env s file w).1 = 0) :
    ((recorded env s file w).2.cache.versionStates s.version).isSome := by
  have resident := recordWrite_resident zero
  dsimp only at resident
  rw [recordVersion_raised, Nat.add_sub_cancel] at resident
  exact resident

/-- The log grows by a record exactly when recording succeeds. -/
theorem recorded_zero_of_length (grown : (recorded env s file w).2.log.length = s.log.length + 1) :
    (recorded env s file w).1 = 0 := by
  by_contra nonzero
  rw [recorded_log_of_ne nonzero] at grown
  omega

theorem WriteResult.grows (result : WriteResult env s file w ret s') : Grows s s' := by
  cases result with
  | refused outside => exact .refl s
  | inPlace ready failed =>
      rw [lookedUp_store]
      exact ⟨le_rfl, rfl, fun _ => .inl, [], (List.append_nil _).symm,
        fun _ member => (List.not_mem_nil member).elim⟩
  | redirected ready copied =>
      have frame := recorded_frame env s file w
      have raised := raisedVersion_le s file
      refine ⟨?_, frame.1, fun r member => ?_, ?_⟩
      · dsimp only
        rw [frame.2]
        exact raised.1
      · dsimp only at member ⊢
        rw [frame.2]
        by_cases zero : (recorded env s file w).1 = 0
        · rw [(recorded_log_of_zero zero).1] at member
          rcases List.mem_append.mp member with old | new
          · exact .inl old
          · rw [List.mem_singleton.mp new]
            exact .inr (Nat.succ_le_succ raised.1)
        · rw [recorded_log_of_ne zero] at member
          exact .inl member
      · by_cases zero : (recorded env s file w).1 = 0
        · refine ⟨_, (recorded_log_of_zero zero).1, fun r member => ?_⟩
          rw [List.mem_singleton.mp member]
          exact Nat.lt_succ_self _
        · refine ⟨[], ?_, fun _ member => (List.not_mem_nil member).elim⟩
          rw [List.append_nil]
          exact recorded_log_of_ne zero

theorem WritevResult.grows {create : Env} {vecs : List (IoVec × VecOutcome)}
    (result : WritevResult create s vecs ret s') : Grows s s' := by
  cases result with
  | refused => exact .refl s
  | dataFailed negative data =>
      exact ⟨le_rfl, rfl, fun _ => .inl, [], (List.append_nil _).symm,
        fun _ member => (List.not_mem_nil member).elim⟩
  | noVersion data created =>
      exact ⟨le_rfl, rfl, fun _ => .inl, [], (List.append_nil _).symm,
        fun _ member => (List.not_mem_nil member).elim⟩
  | committed nonempty nonneg data created =>
      refine ⟨Nat.le_succ _, rfl, fun r member => ?_, _, rfl, fun r member => ?_⟩
      · rcases List.mem_append.mp member with old | new
        · exact .inl old
        · rw [version_of_mem_writevLog new]
          exact .inr (Nat.le_succ _)
      · rw [version_of_mem_writevLog member]
        exact Nat.lt_succ_self _

/-- Every call grows the history. -/
theorem step_grows (idle : Idle s) (taken : step s op = some (ret, s')) : Grows s s' := by
  cases step_cases taken with
  | openFile fresh =>
      have quiet := quiet_getInode idle
      exact Quiet.grows ⟨quiet.file, quiet.log, quiet.version, quiet.origSize⟩
  | @closeFile file isOpen =>
      have quiet := quiet_putInode { s with
        handles := s.handles.erase file, tLocks := closeLocks s file }
      exact Quiet.grows ⟨quiet.file, quiet.log, quiet.version, quiet.origSize⟩
  | openChild =>
      have quiet := quiet_getInode idle
      exact Quiet.grows ⟨quiet.file, quiet.log, quiet.version, quiet.origSize⟩
  | closeChild isOpen =>
      have quiet := quiet_putInode { s with childUsers := s.childUsers - 1 }
      exact Quiet.grows ⟨quiet.file, quiet.log, quiet.version, quiet.origSize⟩
  | beginRefused nonzero => exact .refl s
  | begun isOpen free => exact Quiet.grows ⟨rfl, rfl, rfl, rfl⟩
  | endRefused => exact .refl s
  | committed isOpen held =>
      exact ⟨Nat.le_succ _, rfl, fun _ => .inl, [], (List.append_nil _).symm,
        fun _ member => (List.not_mem_nil member).elim⟩
  | unlocked held outside => exact Quiet.grows ⟨rfl, rfl, rfl, rfl⟩
  | write isOpen result => exact result.grows
  | writev isOpen result => exact result.grows
  | lookup used =>
      rw [lookupPhysicalBlock_store]
      exact Quiet.grows ⟨rfl, rfl, rfl, rfl⟩

/-- The records of the log are at most one version ahead of the parent. -/
def OneAhead (s : State) : Prop := ∀ r ∈ s.log, r.versionNum ≤ s.version + 1

theorem OneAhead.step (bound : OneAhead s) (idle : Idle s) (taken : step s op = some (ret, s')) :
    OneAhead s' := by
  have grows := step_grows idle taken
  intro r member
  rcases grows.bound r member with old | new
  · exact le_trans (bound r old) (Nat.succ_le_succ grows.version)
  · exact new

/-- Regular calls keep the maps in memory in step with the log. -/
theorem step_coherent (coherent : Coherent s.log s.cache) (regular : op.Regular)
    (taken : step s op = some (ret, s')) : Coherent s'.log s'.cache := by
  cases step_cases taken with
  | openFile fresh => exact coherent_getInode coherent
  | closeFile isOpen => exact coherent_putInode coherent
  | openChild => exact coherent_getInode coherent
  | closeChild isOpen => exact coherent_putInode coherent
  | beginRefused nonzero => exact coherent
  | begun isOpen free => exact coherent
  | endRefused => exact coherent
  | committed isOpen held => exact coherent
  | unlocked held outside => exact coherent
  | write isOpen result => exact result.coherent regular coherent
  | writev isOpen result => exact result.coherent regular.1 regular.2 coherent
  | lookup used =>
      rw [lookupPhysicalBlock_store]
      exact lookupFrom_coherent regular _ coherent

/-- Regular calls keep a sound state sound. -/
theorem step_sound (sound : Sound s) (regular : op.Regular) (taken : step s op = some (ret, s')) :
    Sound s' := by
  refine ⟨step_coherent sound.coherent regular taken, ?_, step_idle sound.idle taken⟩
  rw [(step_grows sound.idle taken).origSize]
  exact sound.aligned

/-- The stored version is never ahead of the one in memory. -/
theorem step_attr (sound : Sound s) (attr : s.currVersionAttr ≤ s.version)
    (taken : step s op = some (ret, s')) : s'.currVersionAttr ≤ s'.version := by
  have grown := (step_grows sound.idle taken).version
  cases step_cases taken with
  | openFile fresh => exact le_trans (currVersionAttr_getInode s).le (le_trans attr grown)
  | closeFile isOpen =>
      rw [currVersionAttr_putInode, (quiet_putInode _).version]
  | openChild => exact le_trans (currVersionAttr_getInode s).le (le_trans attr grown)
  | closeChild isOpen =>
      rw [currVersionAttr_putInode, (quiet_putInode _).version]
  | beginRefused nonzero => exact attr
  | begun isOpen free => exact attr
  | endRefused => exact attr
  | committed isOpen held => exact le_trans attr grown
  | unlocked held outside => exact attr
  | write isOpen result =>
      rw [result.frame.2.1]
      exact le_trans attr grown
  | writev isOpen result =>
      rw [result.frame.2.1]
      exact le_trans attr grown
  | lookup used => exact le_trans attr grown

/-! ## Reachable states -/

/-- A parent right after it was opened: nothing in the cache, fresh locks. Log,
file and version are arbitrary. -/
structure Opened (s : State) : Prop where
  cache : s.cache = .empty
  tLocks : s.tLocks = .init
  aligned : s.origSize % pageSize = 0
  attr : s.currVersionAttr = s.version

theorem Opened.sound (opened : Opened s) : Sound s := by
  refine ⟨?_, opened.aligned, fun _ => opened.attr⟩
  rw [opened.cache]
  exact coherent_empty _

theorem opened_cloned (f : ByteFile UInt8) : Opened (cloned f) :=
  ⟨rfl, rfl, roundUp_mod _, rfl⟩

/-- Runs of regular calls keep states sound. -/
theorem sound_of_run {s₀ : State} {ops : List Op} (start : Sound s₀)
    (run : Run step (fun _ op => op.Regular) s₀ ops s) : Sound s :=
  run.invariant (fun _ _ _ _ sound regular taken => step_sound sound regular taken) start

end FlexClone.Scorw
