import FlexClone.Scorw.System

/-!
# Calls on the transaction lock, move by move

The other modules run a call from beginning to end. Here the calls that use the
transaction lock are cut where another thread can come in between: a `BEGIN` or a
plain write tests the owner and then waits for the mutex, a plain write logs and
unlocks in steps of their own, and giving the lock back tests the owner before it
clears it. Threads may share a handle, and the lock only knows the handle.

`call_of_step` ties the two together: a call of the model of whole calls is what a
thread does here when nobody interrupts it. `LockStores` cuts the moves further, into
single loads and stores.
-/

namespace FlexClone.Scorw

/-- `scorw_self_transaction_status` of the lock alone. -/
def TransactionLocks.status (locks : TransactionLocks) (file : Handle) : TransactionState :=
  if locks.locked = true ∧ locks.owner = some file then locks.transaction else .none

/-- The test of `scorw_set_transaction` before it gives the lock back. -/
def TransactionLocks.OwnedBy (locks : TransactionLocks) (file : Handle) : Prop :=
  locks.locked = true ∧ locks.owner = some file

instance (locks : TransactionLocks) (file : Handle) : Decidable (locks.OwnedBy file) :=
  inferInstanceAs (Decidable (_ ∧ _))

namespace LockProtocol

/-! ## Calls cut into moves -/

/-- The two kinds of critical section. -/
inductive Kind
  | transaction
  | plain
  deriving DecidableEq

/-- The value `scorw_set_transaction` is called with to open one. -/
def Kind.val : Kind → TransactionState
  | .transaction => .setTransaction
  | .plain => .setNormalWrite

/-- Where a thread is in a call on a handle of the parent. -/
inductive Pc
  | idle
  /-- in `scorw_set_transaction`, waiting for the mutex -/
  | locking (file : Handle) (kind : Kind)
  /-- in `scorw_write_see_thru_ro`, in the section of its handle or in its own -/
  | writing (file : Handle) (kind : Kind)
  /-- a plain write that is logged and still has to unlock -/
  | unlocking (file : Handle)
  /-- past the test of `UNSET_TRANSACTION`, in an `END` or in a plain write -/
  | releasing (file : Handle) (kind : Kind)
  /-- in the data loop of a write -/
  | copying (file : Handle) (kind : Kind)
  deriving DecidableEq

/-- The handle of the call a thread is in. -/
def Pc.handle : Pc → Option Handle
  | .idle => none
  | .locking file _ | .writing file _ | .unlocking file | .releasing file _ | .copying file _ =>
      some file

/-- A critical section: a transaction of a handle or a plain write of a thread. -/
inductive Section (n : Nat)
  | transaction (file : Handle)
  | plainWrite (t : Fin n)
  deriving DecidableEq

/-- The section thread `t` opens or closes on a handle. -/
def Kind.opens {n : Nat} (t : Fin n) (file : Handle) : Kind → Section n
  | .transaction => .transaction file
  | .plain => .plainWrite t

/-- What the threads share. `sections` is not in the program: it lists the
sections that were opened and not closed by those who opened them. -/
structure Shared (n : Nat) where
  tLocks : TransactionLocks
  version : Nat
  sections : List (Section n)
  deriving DecidableEq

/-- What a thread can do next. -/
inductive Move
  | beginTransaction (file : Handle)
  | endTransaction (file : Handle)
  | write (file : Handle)
  /-- `mutex_lock_interruptible` returns, with or without a signal -/
  | lock (interrupted : Bool)
  /-- the copies of a write are done, or one fails; then the version and the log -/
  | log (copied : Bool)
  /-- a plain write gets to its `UNSET_TRANSACTION` -/
  | unlock
  /-- the owner is cleared and the mutex unlocked -/
  | release
  /-- the data loop ends, and the write returns -/
  | data (ret : Int)
  deriving DecidableEq

variable {n : Nat}

/-- The mutex is taken by thread `t` for a handle. -/
def Shared.acquire (sh : Shared n) (t : Fin n) (file : Handle) (kind : Kind) : Shared n :=
  { sh with
    tLocks := ⟨true, some file, kind.val⟩
    sections := kind.opens t file :: sh.sections }

/-- The end of `UNSET_TRANSACTION`: whatever is open, the mutex is unlocked, and a
transaction raises the version. -/
def Shared.giveBack (sh : Shared n) (t : Fin n) (file : Handle) (kind : Kind) : Shared n :=
  { tLocks := ⟨false, none, .unset⟩
    version := if sh.tLocks.transaction = .setTransaction then sh.version + 1 else sh.version
    sections := sh.sections.erase (kind.opens t file) }

/-- One move of thread `t`; the reply is there when the call returns with it. -/
def callStep (t : Fin n) (sh : Shared n) : Pc → Move → Option (Option Int × Pc × Shared n)
  | .idle, .beginTransaction file =>
      if sh.tLocks.status file = .setTransaction then some (some (-25), .idle, sh)
      else some (none, .locking file .transaction, sh)
  | .idle, .endTransaction file =>
      if sh.tLocks.OwnedBy file then some (none, .releasing file .transaction, sh)
      else some (some (-25), .idle, sh)
  | .idle, .write file =>
      if sh.tLocks.status file = .setTransaction then some (none, .writing file .transaction, sh)
      else if sh.tLocks.status file = .setNormalWrite then some (some eio, .idle, sh)
      else some (none, .locking file .plain, sh)
  | .locking file kind, .lock interrupted =>
      match sh.tLocks.locked, interrupted, kind with
      | true, false, _ => none
      | true, true, .transaction => some (some (-67), .idle, sh)
      | true, true, .plain => some (some eio, .idle, sh)
      | false, _, .transaction => some (some 0, .idle, sh.acquire t file .transaction)
      | false, _, .plain => some (none, .writing file .plain, sh.acquire t file .plain)
  | .writing file kind, .log copied =>
      match copied, kind with
      | true, .plain => some (none, .unlocking file, { sh with version := sh.version + 1 })
      -- a failed copy skips the unlock as well
      | _, _ => some (none, .copying file kind, sh)
  | .unlocking file, .unlock =>
      if sh.tLocks.OwnedBy file then some (none, .releasing file .plain, sh)
      else some (some eio, .idle, { sh with sections := sh.sections.erase (.plainWrite t) })
  | .releasing file .transaction, .release =>
      some (some 0, .idle, sh.giveBack t file .transaction)
  | .releasing file .plain, .release =>
      some (none, .copying file .plain, sh.giveBack t file .plain)
  | .copying _ _, .data ret => some (some ret, .idle, sh)
  | _, _ => none

/-- A move goes on with the handle of its call. -/
theorem callStep_handle {t : Fin n} {sh sh' : Shared n} {pc pc' : Pc} {m : Move}
    {ret : Option Int} (moved : callStep t sh pc m = some (ret, pc', sh')) {file : Handle}
    (after : pc'.handle = some file) :
    pc.handle = some file ∨ m = .beginTransaction file ∨ m = .endTransaction file ∨
      m = .write file := by
  unfold callStep at moved
  split at moved
  all_goals
    repeat' split at moved
    all_goals cases moved <;> cases after <;> simp only [Pc.handle, true_or, or_true]

/-- What a move does to the lock. -/
theorem callStep_tLocks {t : Fin n} {sh sh' : Shared n} {pc pc' : Pc} {m : Move}
    {ret : Option Int} (moved : callStep t sh pc m = some (ret, pc', sh')) :
    sh'.tLocks = sh.tLocks ∨ sh'.tLocks = ⟨false, none, .unset⟩ ∨
      ∃ file kind, pc = .locking file kind ∧ sh'.tLocks = ⟨true, some file, kind.val⟩ := by
  unfold callStep at moved
  split at moved
  case h_4 file kind interrupted =>
    split at moved
    case h_1 => cases moved
    case h_2 | h_3 =>
      cases moved
      exact .inl rfl
    case h_4 | h_5 =>
      cases moved
      exact .inr (.inr ⟨_, _, rfl, rfl⟩)
  case h_7 | h_8 =>
    cases moved
    exact .inr (.inl rfl)
  all_goals
    repeat' split at moved
    all_goals cases moved
    all_goals exact .inl rfl

/-- A call that goes on is not over, and it waits for the mutex only from its start. -/
theorem callStep_goesOn {t : Fin n} {sh sh' : Shared n} {pc pc' : Pc} {m : Move}
    (moved : callStep t sh pc m = some (none, pc', sh')) :
    pc' ≠ .idle ∧ ∀ file kind, pc' = .locking file kind → pc = .idle := by
  unfold callStep at moved
  split at moved
  all_goals
    repeat' split at moved
    all_goals cases moved
  all_goals simp

/-- `ext4_release_file`: a transaction of the handle is abandoned. -/
def releaseFile (sh : Shared n) (file : Handle) : Shared n :=
  if sh.tLocks.status file = .setTransaction then
    { sh with
      tLocks := ⟨false, none, .unset⟩
      sections := sh.sections.erase (.transaction file) }
  else sh

/-! ## A call without interruption

Made one after the other, the moves of a call do to the lock and the version what
the call does in the model of whole calls. -/

/-- Thread `t` makes one move after the other until the call returns. -/
inductive Call (t : Fin n) : Pc → Shared n → Int → Shared n → Prop
  | returns {pc pc' : Pc} {sh sh' : Shared n} {ret : Int} (m : Move) :
    callStep t sh pc m = some (some ret, pc', sh') → Call t pc sh ret sh'
  | goesOn {pc pc' : Pc} {sh sh₁ sh' : Shared n} {ret : Int} (m : Move) :
    callStep t sh pc m = some (none, pc', sh₁) → Call t pc' sh₁ ret sh' → Call t pc sh ret sh'

/-- The lock and the version of a state of the model of whole calls. -/
def shared (s : State) (sections : List (Section n)) : Shared n := ⟨s.tLocks, s.version, sections⟩

theorem callStep_lock_held {t : Fin n} {sh : Shared n} {file : Handle} (kind : Kind)
    (locked : sh.tLocks.locked = true) :
    callStep t sh (.locking file kind) (.lock true) =
      some (some (match kind with | .transaction => -67 | .plain => eio), .idle, sh) := by
  cases kind
  all_goals
    unfold callStep
    simp only [locked]

theorem callStep_lock_free {t : Fin n} {sh : Shared n} {file : Handle} (interrupted : Bool)
    (free : sh.tLocks.locked = false) :
    callStep t sh (.locking file .transaction) (.lock interrupted) =
        some (some 0, .idle, sh.acquire t file .transaction) ∧
      callStep t sh (.locking file .plain) (.lock interrupted) =
        some (none, .writing file .plain, sh.acquire t file .plain) := by
  unfold callStep
  simp only [free, and_self]

section Whole

variable {s s' : State} {file : Handle} {ret : Int} (t : Fin n) (sections : List (Section n))

theorem call_beginTransaction {interrupted : Bool}
    (done : setTransaction interrupted s file .setTransaction = some (ret, s')) :
    ∃ sections', Call t .idle (shared s sections) ret (shared s' sections') := by
  change takeTransactionLock interrupted s file .setTransaction = _ at done
  unfold takeTransactionLock at done
  split at done
  case isTrue inside =>
    cases done
    exact ⟨sections, .returns (.beginTransaction file) (if_pos inside)⟩
  case isFalse outside =>
    have waits : callStep t (shared s sections) .idle (.beginTransaction file) =
        some (none, .locking file .transaction, shared s sections) := if_neg outside
    split at done
    case isTrue locked =>
      split at done
      case isTrue =>
        cases done
        exact ⟨sections, .goesOn _ waits (.returns _ (callStep_lock_held .transaction locked))⟩
      case isFalse => cases done
    case isFalse unlocked =>
      cases done
      have free := Bool.eq_false_iff.mpr unlocked
      exact ⟨_, .goesOn _ waits (.returns _ (callStep_lock_free interrupted free).1)⟩

theorem call_endTransaction {interrupted : Bool}
    (done : setTransaction interrupted s file .unset = some (ret, s')) :
    ∃ sections', Call t .idle (shared s sections) ret (shared s' sections') := by
  change some (unsetTransaction s file) = _ at done
  unfold unsetTransaction at done
  split at done
  case isTrue refused =>
    cases done
    refine ⟨sections, .returns (.endTransaction file) (if_neg ?_)⟩
    intro owned
    rcases refused with free | other
    · cases free.symm.trans owned.1
    · exact other owned.2
  case isFalse owned =>
    have test : callStep t (shared s sections) .idle (.endTransaction file) =
        some (none, .releasing file .transaction, shared s sections) := by
      refine if_pos ⟨?_, ?_⟩
      · exact Bool.eq_true_of_not_eq_false fun free => owned (.inl free)
      · exact Decidable.byContradiction fun other => owned (.inr other)
    have call : Call t .idle (shared s sections) 0
        ((shared s sections).giveBack t file .transaction) :=
      .goesOn _ test (.returns .release rfl)
    unfold Shared.giveBack at call
    by_cases committed : s.tLocks.transaction = .setTransaction
    · rw [if_pos (show (shared s sections).tLocks.transaction = _ from committed)] at call
      rw [if_pos committed] at done
      cases done
      exact ⟨_, call⟩
    · rw [if_neg (show (shared s sections).tLocks.transaction ≠ _ from committed)] at call
      rw [if_neg committed] at done
      cases done
      exact ⟨_, call⟩

theorem shared_congr (tLocks : s'.tLocks = s.tLocks) (version : s'.version = s.version) :
    shared s' sections = shared s sections := by
  unfold shared
  rw [tLocks, version]

theorem version_lookedUp (env : WriteEnv) (s : State) (w : WriteReq) :
    (lookedUp env s w).2.version = s.version := by
  unfold lookedUp
  rw [lookupPhysicalBlock_store]

/-- A write inside the transaction of its handle, alone. -/
theorem call_write_inside {env : WriteEnv} {w : WriteReq}
    (inside : selfTransactionStatus s file = .setTransaction)
    (done : genericPerformWrite env s file w = some (ret, s')) :
    Call t .idle (shared s sections) ret (shared s' sections) := by
  have held : heldLocks s file = s.tLocks := if_pos inside
  have released : releasedLocks s file = s.tLocks := if_pos inside
  have raised : raisedVersion s file = s.version := if_pos inside
  have same : shared s' sections = shared s sections := by
    cases genericPerformWrite_cases done with
    | refused => rfl
    | inPlace => exact shared_congr sections held (version_lookedUp env s w)
    | redirected =>
        exact shared_congr sections released ((recorded_frame env s file w).2.trans raised)
  rw [same]
  exact .goesOn (.write file) (if_pos inside) (.goesOn (.log false) rfl (.returns (.data ret) rfl))

/-- A plain write, alone. -/
theorem call_write_outside {env : WriteEnv} {w : WriteReq}
    (outside : selfTransactionStatus s file ≠ .setTransaction)
    (done : genericPerformWrite env s file w = some (ret, s')) :
    ∃ sections', Call t .idle (shared s sections) ret (shared s' sections') := by
  by_cases ready : LockReady s file
  · have free : s.tLocks.locked = false := by
      rcases ready with inside | free
      · exact (outside inside).elim
      · exact free
    have plain : selfTransactionStatus s file ≠ .setNormalWrite := by
      rw [selfTransactionStatus_of_free free]
      decide
    have held : heldLocks s file = ⟨true, some file, .setNormalWrite⟩ := if_neg outside
    have released : releasedLocks s file = ⟨false, none, .unset⟩ := if_neg outside
    have waits : callStep t (shared s sections) .idle (.write file) =
        some (none, .locking file .plain, shared s sections) :=
      (if_neg outside).trans (if_neg plain)
    have enters : callStep t (shared s sections) (.locking file .plain) (.lock false) =
        some (none, .writing file .plain, (shared s sections).acquire t file .plain) :=
      (callStep_lock_free false free).2
    by_cases failed : (copiedUp env s w).1 < 0
    · have call (ret : Int) : Call t .idle (shared s sections) ret
          ((shared s sections).acquire t file .plain) :=
        .goesOn _ waits (.goesOn _ enters (.goesOn (.log false) rfl
          (.returns (.data ret) rfl)))
      rw [genericPerformWrite_of_failed ready failed, held] at done
      cases done
      refine ⟨.plainWrite t :: sections, ?_⟩
      unfold shared
      dsimp only
      rw [version_lookedUp]
      exact call _
    · have call (ret : Int) : Call t .idle (shared s sections) ret
          (Shared.giveBack { (shared s sections).acquire t file .plain with
            version := s.version + 1 } t file .plain) :=
        .goesOn _ waits (.goesOn _ enters (.goesOn (.log true) rfl
          (.goesOn .unlock (if_pos ⟨rfl, rfl⟩) (.goesOn .release rfl
            (.returns (.data ret) rfl)))))
      have leaves : Shared.giveBack { (shared s sections).acquire t file .plain with
          version := s.version + 1 } t file .plain =
          ⟨⟨false, none, .unset⟩, s.version + 1, sections⟩ :=
        congrArg (Shared.mk _ _) (List.erase_cons_head _ _)
      rw [genericPerformWrite_of_copied ready failed, released] at done
      cases done
      refine ⟨sections, ?_⟩
      unfold shared
      dsimp only
      rw [(recorded_frame env s file w).2, raisedVersion, if_neg outside]
      rw [leaves] at call
      exact call _
  · have locked : s.tLocks.locked = true :=
      Bool.eq_true_of_not_eq_false fun free => ready (.inr free)
    rw [genericPerformWrite_of_not_ready ready] at done
    split at done
    case isFalse => cases done
    case isTrue refused =>
      cases done
      by_cases plain : selfTransactionStatus s file = .setNormalWrite
      · exact ⟨sections, .returns (.write file) ((if_neg outside).trans (if_pos plain))⟩
      · exact ⟨sections, .goesOn (.write file) ((if_neg outside).trans (if_neg plain))
          (.returns _ (callStep_lock_held .plain locked))⟩

theorem shared_putInode : shared (putInode s) sections = shared s sections := by
  unfold putInode
  dsimp only
  split
  · rfl
  · rfl

/-- The calls of the model of whole calls that use the lock are calls without
interruption. -/
theorem call_of_step {op : Op} (done : Scorw.step s op = some (ret, s')) :
    match op with
    | .beginTransaction _ _ | .endTransaction _ | .write _ _ _ =>
        ∃ sections', Call t .idle (shared s sections) ret (shared s' sections')
    | .closeFile file =>
        ∃ sections', LockProtocol.releaseFile (shared s sections) file = shared s' sections'
    | _ => True := by
  cases op with
  | openFile | openChild | closeChild | writev | lookup => trivial
  | beginTransaction file interrupted =>
      dsimp only [Scorw.step] at done
      split at done
      · exact call_beginTransaction t sections done
      · cases done
  | endTransaction file =>
      dsimp only [Scorw.step] at done
      split at done
      · exact call_endTransaction t sections done
      · cases done
  | write file w env =>
      dsimp only [Scorw.step] at done
      split at done
      · by_cases inside : selfTransactionStatus s file = .setTransaction
        · exact ⟨sections, call_write_inside t sections inside done⟩
        · exact call_write_outside t sections inside done
      · cases done
  | closeFile file =>
      dsimp only [Scorw.step] at done
      split at done
      · rw [releaseFile_eq] at done
        cases done
        simp only [shared_putInode]
        unfold LockProtocol.releaseFile closeLocks
        split
        case isTrue inside =>
          rw [if_pos (show selfTransactionStatus s file = _ from inside)]
          exact ⟨_, rfl⟩
        case isFalse outside =>
          rw [if_neg (show selfTransactionStatus s file ≠ _ from outside)]
          exact ⟨_, rfl⟩
      · cases done

end Whole

end LockProtocol

end FlexClone.Scorw
