import FlexClone.ByteFile
import FlexClone.Scorw.VersionCache

/-!
# The parent inode and its transaction lock

`State` is a see-through parent: the `scorw_inode` in memory, the file it
describes, its log and its stored attributes, and who has it open. The functions
of this module are those that work on the transaction lock alone:
`scorw_self_transaction_status`, `scorw_set_transaction` and
`scorw_set_transaction_error`.

A call that has to wait for the lock has no result in the state it is made in;
`none` stands for that.
-/

namespace FlexClone.Scorw

/-- A `struct file` of the parent. -/
abbrev Handle := Nat

/-- `struct Transaction_locks` -/
structure TransactionLocks where
  locked : Bool
  owner : Option Handle
  transaction : TransactionState
  deriving DecidableEq

/-- `init_Transaction_locks` -/
def TransactionLocks.init : TransactionLocks := ⟨false, none, .none⟩

/-- A see-through parent. -/
structure State extends VersionStore where
  file : ByteFile UInt8
  tLocks : TransactionLocks
  /-- the attribute `curr_version` -/
  currVersionAttr : Nat
  /-- how many records of the log are known to be on disk -/
  syncedLog : Nat
  /-- open handles of the parent -/
  handles : List Handle
  /-- references held by open children -/
  childUsers : Nat

/-- `-EIO` -/
def eio : Int := -5

/-- `-EPERM` -/
def eperm : Int := -1

/-- `scorw_self_transaction_status`; `-1` is `TransactionState.none`. -/
def selfTransactionStatus (s : State) (file : Handle) : TransactionState :=
  if s.tLocks.locked = true ∧ s.tLocks.owner = some file then s.tLocks.transaction else .none

/-- The branch of `scorw_set_transaction` that takes the lock. `interrupted` says
whether a signal arrives while it waits. -/
def takeTransactionLock (interrupted : Bool) (s : State) (file : Handle)
    (val : TransactionState) : Option (Int × State) :=
  if selfTransactionStatus s file = val then some (-25, s)
  else if s.tLocks.locked then
    if interrupted then some (-67, s) else none
  else some (0, { s with tLocks := ⟨true, some file, val⟩ })

/-- The branch of `scorw_set_transaction` that gives the lock back. Ending a
transaction raises the version and writes the log out; the attribute
`curr_version` is not stored here. -/
def unsetTransaction (s : State) (file : Handle) : Int × State :=
  if s.tLocks.locked = false ∨ s.tLocks.owner ≠ some file then (-25, s)
  else
    let s :=
      if s.tLocks.transaction = .setTransaction then
        { s with version := s.version + 1, syncedLog := s.log.length }
      else s
    (0, { s with tLocks := ⟨false, none, .unset⟩ })

/-- `scorw_set_transaction` -/
def setTransaction (interrupted : Bool) (s : State) (file : Handle)
    (val : TransactionState) : Option (Int × State) :=
  match val with
  | .setTransaction | .setNormalWrite => takeTransactionLock interrupted s file val
  | .unset => some (unsetTransaction s file)
  | .none => some (0, s)

/-- `scorw_set_transaction_error`: the lock is released and nothing else. -/
def setTransactionError (s : State) (file : Handle) : Int × State :=
  if s.tLocks.locked = false then (eperm, s)
  else if s.tLocks.owner ≠ some file then (eperm, s)
  else (0, { s with tLocks := ⟨false, none, .unset⟩ })

theorem selfTransactionStatus_eq_setTransaction {s : State} {file : Handle} :
    selfTransactionStatus s file = .setTransaction ↔
      s.tLocks = ⟨true, some file, .setTransaction⟩ := by
  unfold selfTransactionStatus
  rcases s.tLocks with ⟨locked, owner, transaction⟩
  dsimp only
  split
  case isTrue held =>
    obtain ⟨rfl, rfl⟩ := held
    simp only [TransactionLocks.mk.injEq, true_and]
  case isFalse free =>
    simp only [reduceCtorEq, TransactionLocks.mk.injEq, false_iff]
    exact fun held => free ⟨held.1, held.2.1⟩

/-- A transaction is open. -/
def State.InTransaction (s : State) : Prop :=
  s.tLocks.locked = true ∧ s.tLocks.transaction = .setTransaction

instance (s : State) : Decidable s.InTransaction := inferInstanceAs (Decidable (_ ∧ _))

theorem inTransaction_of_self {s : State} {file : Handle}
    (inside : selfTransactionStatus s file = .setTransaction) : s.InTransaction := by
  have held := selfTransactionStatus_eq_setTransaction.mp inside
  unfold State.InTransaction
  rw [held]
  exact ⟨rfl, rfl⟩

theorem selfTransactionStatus_of_free {s : State} (free : s.tLocks.locked = false)
    (file : Handle) : selfTransactionStatus s file = .none := by
  unfold selfTransactionStatus
  rw [free, if_neg (by simp)]

theorem not_inTransaction_of_free {s : State} (free : s.tLocks.locked = false) :
    ¬ s.InTransaction := by
  intro inside
  rw [inside.1] at free
  cases free

/-- Taking the lock succeeds only when it is free, and then only locks. -/
theorem takeTransactionLock_cases {interrupted : Bool} {s s' : State} {file : Handle}
    {val : TransactionState} {ret : Int}
    (taken : takeTransactionLock interrupted s file val = some (ret, s')) :
    (ret ≠ 0 ∧ s' = s) ∨
      (ret = 0 ∧ s.tLocks.locked = false ∧ s' = { s with tLocks := ⟨true, some file, val⟩ }) := by
  unfold takeTransactionLock at taken
  split at taken
  case isTrue =>
    cases taken
    exact .inl ⟨by decide, rfl⟩
  case isFalse =>
    split at taken
    case isTrue =>
      split at taken
      · cases taken
        exact .inl ⟨by decide, rfl⟩
      · cases taken
    case isFalse unlocked =>
      cases taken
      exact .inr ⟨rfl, by simpa using unlocked, rfl⟩

/-- The handle that holds the lock for a plain write releases it. -/
theorem unsetTransaction_of_normalWrite {s : State} {file : Handle}
    (held : s.tLocks = ⟨true, some file, .setNormalWrite⟩) :
    unsetTransaction s file = (0, { s with tLocks := ⟨false, none, .unset⟩ }) := by
  unfold unsetTransaction
  simp [held]

/-- The handle that owns a transaction commits it. -/
theorem unsetTransaction_of_transaction {s : State} {file : Handle}
    (held : s.tLocks = ⟨true, some file, .setTransaction⟩) :
    unsetTransaction s file =
      (0, { s with
        version := s.version + 1
        syncedLog := s.log.length
        tLocks := ⟨false, none, .unset⟩ }) := by
  unfold unsetTransaction
  simp [held]

end FlexClone.Scorw
