import FlexClone.Threads
import FlexClone.Scorw.LockMoves

/-!
# The transaction lock, one access at a time

When it has the mutex, `scorw_set_transaction` stores the owner and the kind of section
one after the other, and an `END` tests the mutex and the owner without having it. Here
every load and store of the lock is a move of its own, so that another thread can come in
between any two of them.

* `access`: one load or store. `accesses_of_callStep`: a move of `LockMoves` is a sequence of
  them that nobody interrupts, and `accesses_of_step` says so of the whole calls.
* `Orderly` names the accesses that are safe to make.
* `Held`: in an orderly run one thread at most has the lock to itself, and where it is
  says what the lock contains.
* `transaction_lock_protocol` follows. Without the condition an `END` that comes between
  the two stores of a `BEGIN`, or into a plain write on its handle, breaks it.
-/

namespace FlexClone.Scorw.LockStores

open LockProtocol (Kind Section Shared)

variable {n : Nat}

/-! ## Loads and stores -/

/-- What a thread calls on a handle. -/
inductive Entry
  | beginTransaction
  | endTransaction
  | write
  /-- `ext4_release_file`, when the last reference to the handle is dropped -/
  | release
  deriving DecidableEq

/-- Who reads `scorw_self_transaction_status`. -/
inductive Asker
  | beginTransaction
  | write
  /-- `scorw_set_transaction` of a plain write -/
  | plainWrite
  | release
  deriving DecidableEq

/-- The status that is looked for. -/
def Asker.sought : Asker → TransactionState
  | .beginTransaction | .write | .release => .setTransaction
  | .plainWrite => .setNormalWrite

/-- Who gives the lock back: the first two in `scorw_set_transaction`, a release in
`scorw_set_transaction_error`. -/
inductive Giver
  | endTransaction
  | plainWrite
  | release
  deriving DecidableEq

/-- The kind of section that is closed. -/
def Giver.kind : Giver → Kind
  | .endTransaction | .release => .transaction
  | .plainWrite => .plain

/-- Who gives the lock back in `UNSET_TRANSACTION`. -/
def giver : Kind → Giver
  | .transaction => .endTransaction
  | .plain => .plainWrite

/-- Where a thread is in a call: the access it makes next. -/
inductive Pc
  | idle
  /-- the loads of `scorw_self_transaction_status` -/
  | askLocked (file : Handle) (asker : Asker)
  | askOwner (file : Handle) (asker : Asker)
  | askTransaction (file : Handle) (asker : Asker)
  /-- `mutex_lock_interruptible`, and the two stores after it -/
  | locking (file : Handle) (kind : Kind)
  | storeOwner (file : Handle) (kind : Kind)
  | storeTransaction (file : Handle) (kind : Kind)
  /-- in `scorw_write_see_thru_ro`, in the section of its handle or in its own -/
  | writing (file : Handle) (kind : Kind)
  /-- the tests of the mutex and of the owner before the lock is given back -/
  | testLocked (file : Handle) (giver : Giver)
  | testOwner (file : Handle) (giver : Giver)
  /-- `UNSET_TRANSACTION` raises the version if there is a transaction -/
  | testTransaction (file : Handle) (kind : Kind)
  | raiseVersion (file : Handle) (kind : Kind)
  /-- the stores that give the lock back -/
  | clearOwner (file : Handle) (giver : Giver)
  | clearTransaction (file : Handle) (giver : Giver)
  | unlock (file : Handle) (giver : Giver)
  /-- in the data loop of a write -/
  | copying (file : Handle) (kind : Kind)
  deriving DecidableEq

/-- What a thread can do next. -/
inductive Move
  | call (file : Handle) (entry : Entry)
  /-- the load or store the thread is at -/
  | next
  /-- `mutex_lock_interruptible` returns, with or without a signal -/
  | lock (interrupted : Bool)
  /-- the copies of a write are done, or one fails; then the version and the log -/
  | log (copied : Bool)
  /-- the data loop ends, and the write returns -/
  | data (ret : Int)
  deriving DecidableEq

/-- How a call goes on when the status is known. -/
def told (sh : Shared n) (file : Handle) : Asker → Bool → Option Int × Pc × Shared n
  | .beginTransaction, true => (some (-25), .idle, sh)
  | .beginTransaction, false => (none, .locking file .transaction, sh)
  | .write, true => (none, .writing file .transaction, sh)
  | .write, false => (none, .askLocked file .plainWrite, sh)
  | .plainWrite, true => (some eio, .idle, sh)
  | .plainWrite, false => (none, .locking file .plain, sh)
  | .release, true => (none, .testLocked file .release, sh)
  | .release, false => (some 0, .idle, sh)

/-- A call that does not own the lock it was to give back. The section of a plain write
is over then. -/
def refuse (t : Fin n) (sh : Shared n) : Giver → Option Int × Pc × Shared n
  | .endTransaction | .release => (some (-25), .idle, sh)
  | .plainWrite =>
      (some eio, .idle, { sh with sections := sh.sections.erase (.plainWrite t) })

/-- One access of thread `t`; the reply is there when the call returns with it. -/
def access (t : Fin n) (sh : Shared n) : Pc → Move → Option (Option Int × Pc × Shared n)
  | .idle, .call file .beginTransaction => some (none, .askLocked file .beginTransaction, sh)
  | .idle, .call file .endTransaction => some (none, .testLocked file .endTransaction, sh)
  | .idle, .call file .write => some (none, .askLocked file .write, sh)
  | .idle, .call file .release => some (none, .askLocked file .release, sh)
  | .askLocked file asker, .next =>
      some (if sh.tLocks.locked = true then (none, .askOwner file asker, sh)
        else told sh file asker false)
  | .askOwner file asker, .next =>
      some (if sh.tLocks.owner = some file then (none, .askTransaction file asker, sh)
        else told sh file asker false)
  | .askTransaction file asker, .next =>
      some (told sh file asker (decide (sh.tLocks.transaction = asker.sought)))
  | .locking file kind, .lock interrupted =>
      match sh.tLocks.locked, interrupted, kind with
      | true, false, _ => none
      | true, true, .transaction => some (some (-67), .idle, sh)
      | true, true, .plain => some (some eio, .idle, sh)
      | false, _, _ => some (none, .storeOwner file kind,
          { sh with
            tLocks := { sh.tLocks with locked := true }
            sections := kind.opens t file :: sh.sections })
  | .storeOwner file kind, .next =>
      some (none, .storeTransaction file kind,
        { sh with tLocks := { sh.tLocks with owner := some file } })
  | .storeTransaction _ .transaction, .next =>
      some (some 0, .idle, { sh with tLocks := { sh.tLocks with transaction := .setTransaction } })
  | .storeTransaction file .plain, .next =>
      some (none, .writing file .plain,
        { sh with tLocks := { sh.tLocks with transaction := .setNormalWrite } })
  | .writing file .plain, .log true =>
      some (none, .testLocked file .plainWrite, { sh with version := sh.version + 1 })
  -- a failed copy skips the unlock as well
  | .writing file kind, .log _ => some (none, .copying file kind, sh)
  | .testLocked file giver, .next =>
      some (if sh.tLocks.locked = true then (none, .testOwner file giver, sh)
        else refuse t sh giver)
  | .testOwner file giver, .next =>
      some (if sh.tLocks.owner = some file then
          (none, match giver with
            | .endTransaction => .testTransaction file .transaction
            | .plainWrite => .testTransaction file .plain
            | .release => .clearOwner file .release, sh)
        else refuse t sh giver)
  | .testTransaction file kind, .next =>
      some (none, if sh.tLocks.transaction = .setTransaction then .raiseVersion file kind
        else .clearOwner file (giver kind), sh)
  | .raiseVersion file kind, .next =>
      some (none, .clearOwner file (giver kind), { sh with version := sh.version + 1 })
  | .clearOwner file giver, .next =>
      some (none, .clearTransaction file giver,
        { sh with tLocks := { sh.tLocks with owner := none } })
  | .clearTransaction file giver, .next =>
      some (none, .unlock file giver,
        { sh with tLocks := { sh.tLocks with transaction := .unset } })
  | .unlock file giver, .next =>
      some (if giver = .plainWrite then none else some 0,
        if giver = .plainWrite then .copying file .plain else .idle,
        { sh with
          tLocks := { sh.tLocks with locked := false }
          sections := sh.sections.erase (giver.kind.opens t file) })
  | .copying _ _, .data ret => some (some ret, .idle, sh)
  | _, _ => none

/-- The handle of the call a thread is in. -/
def Pc.handle : Pc → Option Handle
  | .idle => none
  | .askLocked file _ | .askOwner file _ | .askTransaction file _ | .locking file _
  | .storeOwner file _ | .storeTransaction file _ | .writing file _ | .testLocked file _
  | .testOwner file _ | .testTransaction file _ | .raiseVersion file _ | .clearOwner file _
  | .clearTransaction file _ | .unlock file _ | .copying file _ => some file

/-- The handle of the release a thread is in. -/
def Pc.releases : Pc → Option Handle
  | .askLocked file .release | .askOwner file .release | .askTransaction file .release
  | .testLocked file .release | .testOwner file .release | .clearOwner file .release
  | .clearTransaction file .release | .unlock file .release => some file
  | _ => none

/-- The handle of the `END` a thread is in. -/
def Pc.ends : Pc → Option Handle
  | .testLocked file .endTransaction | .testOwner file .endTransaction
  | .testTransaction file .transaction | .raiseVersion file .transaction
  | .clearOwner file .endTransaction | .clearTransaction file .endTransaction
  | .unlock file .endTransaction => some file
  | _ => none

/-- Where a thread is. The other two fields are not in the program: `touched` says whether
the call the thread is in has changed the lock or the version, `raised` by how much it has
raised the version. -/
structure Place where
  pc : Pc
  touched : Bool
  raised : Nat
  deriving DecidableEq

/-- One access of thread `t`, with the notes on its call. -/
def move (t : Fin n) (sh : Shared n) (place : Place) (m : Move) :
    Option (Option Int × Place × Shared n) :=
  (access t sh place.pc m).map fun moved =>
    (moved.1,
      { pc := moved.2.1
        touched := moved.1.isNone && (place.touched ||
          decide (moved.2.2.tLocks ≠ sh.tLocks ∨ moved.2.2.version ≠ sh.version))
        raised := if moved.1.isNone then place.raised + (moved.2.2.version - sh.version) else 0 },
      moved.2.2)

abbrev System (n : Nat) := Threads (Fin n) (Shared n) Place

/-- A handle is released when no thread is in a call on it, and no call is made on a
handle that is being released. -/
def Admitted (s : System n) : Move → Prop
  | .call file .release => ∀ t, (s.place t).pc.handle ≠ some file
  | .call file _ => ∀ t, (s.place t).pc.releases ≠ some file
  | _ => True

instance (s : System n) : (m : Move) → Decidable (Admitted s m)
  | .call _ .release => inferInstanceAs (Decidable (∀ _, _))
  | .call _ .beginTransaction | .call _ .endTransaction | .call _ .write =>
      inferInstanceAs (Decidable (∀ _, _))
  | .next | .lock _ | .log _ | .data _ => inferInstanceAs (Decidable True)

/-- One move of the system. -/
def step (s : System n) (a : Fin n × Move) : Option (Option Int × System n) :=
  if Admitted s a.2 then Threads.step move s a.1 a.2 else none

/-- The parent is attached and no call is under way. -/
def System.init (n version : Nat) : System n :=
  ⟨⟨.init, version, []⟩, fun _ => ⟨.idle, false, 0⟩⟩

/-! ## A call without interruption -/

section Uninterrupted

/-- Thread `t` makes one access after the other; at most the last one returns. -/
inductive Accesses (t : Fin n) : Pc → Shared n → Option Int → Pc → Shared n → Prop
  | last {pc pc' : Pc} {sh sh' : Shared n} {ret : Option Int} (m : Move) :
    access t sh pc m = some (ret, pc', sh') → Accesses t pc sh ret pc' sh'
  | more {pc pc₁ pc' : Pc} {sh sh₁ sh' : Shared n} {ret : Option Int} (m : Move) :
    access t sh pc m = some (none, pc₁, sh₁) → Accesses t pc₁ sh₁ ret pc' sh' →
    Accesses t pc sh ret pc' sh'

theorem Accesses.append {t : Fin n} {pc pc₁ pc' : Pc} {sh sh₁ sh' : Shared n}
    {silent ret : Option Int} (first : Accesses t pc sh silent pc₁ sh₁) (goes_on : silent = none)
    (second : Accesses t pc₁ sh₁ ret pc' sh') : Accesses t pc sh ret pc' sh' := by
  induction first with
  | last m made => exact .more m (goes_on ▸ made) second
  | more m made _ ih => exact .more m made (ih goes_on second)

/-- Where a thread is that made the moves of `LockMoves`. -/
def place : LockProtocol.Pc → Pc
  | .idle => .idle
  | .locking file kind => .locking file kind
  | .writing file kind => .writing file kind
  | .unlocking file => .testLocked file .plainWrite
  | .releasing file kind => .testTransaction file kind
  | .copying file kind => .copying file kind

variable {t : Fin n} {sh : Shared n} {file : Handle}

/-- The three loads of the status, made at once. -/
theorem accesses_found (asker : Asker) (inside : sh.tLocks.status file = asker.sought) :
    Accesses t (.askLocked file asker) sh (told sh file asker true).1
      (told sh file asker true).2.1 (told sh file asker true).2.2 := by
  unfold TransactionLocks.status at inside
  split at inside
  case isTrue owned =>
    refine .more .next (congrArg some (if_pos owned.1)) ?_
    refine .more .next (congrArg some (if_pos owned.2)) (.last .next ?_)
    exact congrArg (fun found => some (told sh file asker found)) (decide_eq_true inside)
  case isFalse => cases asker <;> cases inside

theorem accesses_not_found (asker : Asker) (outside : sh.tLocks.status file ≠ asker.sought) :
    Accesses t (.askLocked file asker) sh (told sh file asker false).1
      (told sh file asker false).2.1 (told sh file asker false).2.2 := by
  by_cases locked : sh.tLocks.locked = true
  · refine .more .next (congrArg some (if_pos locked)) ?_
    by_cases owner : sh.tLocks.owner = some file
    · unfold TransactionLocks.status at outside
      rw [if_pos ⟨locked, owner⟩] at outside
      refine .more .next (congrArg some (if_pos owner)) (.last .next ?_)
      exact congrArg (fun found => some (told sh file asker found)) (decide_eq_false outside)
    · exact .last .next (congrArg some (if_neg owner))
  · exact .last .next (congrArg some (if_neg locked))

/-- The two tests before the lock is given back, made at once. -/
theorem accesses_owned {giver : Giver} (owned : sh.tLocks.OwnedBy file) :
    Accesses t (.testLocked file giver) sh none
      (match giver with
        | .endTransaction => .testTransaction file .transaction
        | .plainWrite => .testTransaction file .plain
        | .release => .clearOwner file .release) sh :=
  .more .next (congrArg some (if_pos owned.1)) (.last .next (congrArg some (if_pos owned.2)))

theorem accesses_refused {giver : Giver} (other : ¬ sh.tLocks.OwnedBy file) :
    Accesses t (.testLocked file giver) sh (refuse t sh giver).1 (refuse t sh giver).2.1
      (refuse t sh giver).2.2 := by
  by_cases locked : sh.tLocks.locked = true
  · have not_owner : sh.tLocks.owner ≠ some file := fun owner => other ⟨locked, owner⟩
    exact .more .next (congrArg some (if_pos locked))
      (.last .next (congrArg some (if_neg not_owner)))
  · exact .last .next (congrArg some (if_neg locked))

/-- The three stores that give the lock back, made at once. -/
theorem accesses_cleared (giver : Giver) :
    Accesses t (.clearOwner file giver) sh (if giver = .plainWrite then none else some 0)
      (if giver = .plainWrite then .copying file .plain else .idle)
      ⟨⟨false, none, .unset⟩, sh.version, sh.sections.erase (giver.kind.opens t file)⟩ :=
  .more .next rfl (.more .next rfl (.last .next rfl))

/-- `UNSET_TRANSACTION` after its tests, made at once. -/
theorem accesses_giveBack (kind : Kind) :
    Accesses t (.testTransaction file kind) sh (if kind = .plain then none else some 0)
      (if kind = .plain then .copying file .plain else .idle) (sh.giveBack t file kind) := by
  unfold LockProtocol.Shared.giveBack
  by_cases ended : sh.tLocks.transaction = .setTransaction
  · rw [if_pos ended]
    refine .more .next (congrArg some (congrArg (none, ·, sh) (if_pos ended))) ?_
    refine .more .next rfl ?_
    cases kind <;> exact accesses_cleared _
  · rw [if_neg ended]
    refine .more .next (congrArg some (congrArg (none, ·, sh) (if_neg ended))) ?_
    cases kind <;> exact accesses_cleared _

/-- A move of `LockMoves` is a sequence of accesses. -/
theorem accesses_of_callStep {sh' : Shared n} {pc pc' : LockProtocol.Pc} {m : LockProtocol.Move}
    {ret : Option Int} (moved : LockProtocol.callStep t sh pc m = some (ret, pc', sh')) :
    Accesses t (place pc) sh ret (place pc') sh' := by
  unfold LockProtocol.callStep at moved
  split at moved
  case h_1 file =>
    refine .more (.call file .beginTransaction) rfl ?_
    split at moved
    case isTrue inside =>
      cases moved
      exact accesses_found .beginTransaction inside
    case isFalse outside =>
      cases moved
      exact accesses_not_found .beginTransaction outside
  case h_2 file =>
    refine .more (.call file .endTransaction) rfl ?_
    split at moved
    case isTrue owned =>
      cases moved
      exact accesses_owned owned
    case isFalse other =>
      cases moved
      exact accesses_refused other
  case h_3 file =>
    refine .more (.call file .write) rfl ?_
    split at moved
    case isTrue inside =>
      cases moved
      exact accesses_found .write inside
    case isFalse outside =>
      refine .append (accesses_not_found .write outside) rfl ?_
      split at moved
      case isTrue plain =>
        cases moved
        exact accesses_found .plainWrite plain
      case isFalse free =>
        cases moved
        exact accesses_not_found .plainWrite free
  case h_4 file kind interrupted =>
    have locks (free : sh.tLocks.locked = false) : access t sh (.locking file kind)
        (.lock interrupted) = some (none, .storeOwner file kind,
          { sh with
            tLocks := { sh.tLocks with locked := true }
            sections := kind.opens t file :: sh.sections }) := by
      unfold access
      simp only [free]
    split at moved
    case h_1 => cases moved
    case h_2 held | h_3 held =>
      cases moved
      refine .last (.lock true) ?_
      change access t sh (.locking file _) (.lock true) = _
      unfold access
      simp only [held, place]
    case h_4 free | h_5 free =>
      cases moved
      exact .more _ (locks free) (.more .next rfl (.last .next rfl))
  case h_5 file kind copied =>
    refine .last (.log copied) ?_
    cases copied <;> cases kind <;> cases moved <;> rfl
  case h_6 file =>
    split at moved
    case isTrue owned =>
      cases moved
      exact accesses_owned owned
    case isFalse other =>
      cases moved
      exact accesses_refused other
  case h_7 file =>
    cases moved
    exact accesses_giveBack .transaction
  case h_8 file =>
    cases moved
    exact accesses_giveBack .plain
  case h_9 file kind value =>
    cases moved
    exact .last (.data value) rfl
  case h_10 => cases moved

theorem accesses_of_call {pc : LockProtocol.Pc} {ret : Int} {sh' : Shared n}
    (call : LockProtocol.Call t pc sh ret sh') :
    ∃ pc', Accesses t (place pc) sh (some ret) pc' sh' := by
  induction call with
  | returns m moved => exact ⟨_, accesses_of_callStep moved⟩
  | goesOn m moved _ ih =>
      obtain ⟨pc', rest⟩ := ih
      exact ⟨pc', (accesses_of_callStep moved).append rfl rest⟩

/-- A release that nobody interrupts. -/
theorem accesses_releaseFile (t : Fin n) (sh : Shared n) (file : Handle) :
    ∃ pc', Accesses t .idle sh (some 0) pc' (LockProtocol.releaseFile sh file) := by
  unfold LockProtocol.releaseFile
  split
  case isTrue inside =>
    have owned : sh.tLocks.OwnedBy file := by
      unfold TransactionLocks.status at inside
      split at inside
      case isTrue owned => exact owned
      case isFalse => cases inside
    exact ⟨_, .more (.call file .release) rfl (.append (accesses_found .release inside) rfl
      (.append (accesses_owned owned) rfl (accesses_cleared .release)))⟩
  case isFalse outside =>
    exact ⟨_, .more (.call file .release) rfl (accesses_not_found .release outside)⟩

/-- The calls of the model of whole calls that use the lock are accesses made one after the
other. -/
theorem accesses_of_step {s s' : State} {op : Op} {ret : Int} (t : Fin n)
    (sections : List (Section n)) (done : Scorw.step s op = some (ret, s')) :
    match op with
    | .beginTransaction _ _ | .endTransaction _ | .write _ _ _ =>
        ∃ pc' sections', Accesses t .idle (LockProtocol.shared s sections) (some ret) pc'
          (LockProtocol.shared s' sections')
    | .closeFile _ =>
        ∃ pc' sections', Accesses t .idle (LockProtocol.shared s sections) (some 0) pc'
          (LockProtocol.shared s' sections')
    | _ => True := by
  have whole := LockProtocol.call_of_step t sections done
  cases op with
  | openFile | openChild | closeChild | writev | lookup => trivial
  | beginTransaction | endTransaction | write =>
      obtain ⟨sections', call⟩ := whole
      obtain ⟨pc', made⟩ := accesses_of_call call
      exact ⟨pc', sections', made⟩
  | closeFile file =>
      obtain ⟨sections', released⟩ := whole
      obtain ⟨pc', made⟩ := accesses_releaseFile t (LockProtocol.shared s sections) file
      exact ⟨pc', sections', released ▸ made⟩

end Uninterrupted

/-! ## The accesses that are safe

When an `END` loads the owner, no other thread may be between its mutex and its last store
on that handle: neither in a `BEGIN`, nor in a plain write, nor in another `END`. A plain
write needs that its copies do not fail and that its data loop does not come back with an
error. -/

/-- What a thread that has the lock to itself knows of it; `transaction` is `none` before
that field is stored. -/
structure Hold where
  file : Handle
  kind : Kind
  owner : Option Handle
  transaction : Option TransactionState

/-- A thread has the lock to itself from the mutex on, or, if it ends a transaction, from
the load of the owner on. -/
def Pc.hold : Pc → Option Hold
  | .storeOwner file kind => some ⟨file, kind, none, none⟩
  | .storeTransaction file kind => some ⟨file, kind, some file, none⟩
  | .writing file .plain | .testLocked file .plainWrite | .testOwner file .plainWrite =>
      some ⟨file, .plain, some file, some .setNormalWrite⟩
  | .testTransaction file kind | .raiseVersion file kind =>
      some ⟨file, kind, some file, some kind.val⟩
  | .clearOwner file giver => some ⟨file, giver.kind, some file, some giver.kind.val⟩
  | .clearTransaction file giver | .unlock file giver => some ⟨file, giver.kind, none, none⟩
  | _ => none

/-- The side condition of a move. -/
def Orderly (s : System n) (a : Fin n × Move) : Prop :=
  match a.2, (s.place a.1).pc with
  | .next, .testOwner file .endTransaction =>
      ∀ t, (s.place t).pc.hold.map Hold.file ≠ some file
  | .log copied, .writing _ .plain => copied = true
  | .data ret, .copying _ .plain => 0 ≤ ret
  | _, _ => True

instance (s : System n) (a : Fin n × Move) : Decidable (Orderly s a) := by
  unfold Orderly
  split <;> infer_instance

/-! ## What one access can do -/

/-- The lock is as a thread that has it knows it, and its section is the open one. -/
structure Fits (t : Fin n) (sh : Shared n) (h : Hold) : Prop where
  locked : sh.tLocks.locked = true
  owner : sh.tLocks.owner = h.owner
  transaction : ∀ val, h.transaction = some val → sh.tLocks.transaction = val
  one_open : sh.sections = [h.kind.opens t h.file]

/-- By how much a call has raised the version when it is there. -/
def Pc.raised : Pc → Nat
  | .testLocked _ .plainWrite | .testOwner _ .plainWrite | .testTransaction _ .plain
  | .clearOwner _ .plainWrite | .clearTransaction _ .plainWrite | .unlock _ .plainWrite
  | .copying _ .plain | .clearOwner _ .endTransaction | .clearTransaction _ .endTransaction
  | .unlock _ .endTransaction => 1
  | _ => 0

/-- Where a call may have changed the lock or the version. -/
def Pc.late (pc : Pc) : Bool :=
  pc.hold.isSome || match pc with
    | .copying _ .plain => true
    | _ => false

/-- Everything an access of thread `t` can do, by what becomes of the lock. -/
inductive Access (t : Fin n) (sh : Shared n) (pc : Pc) :
    Move → Option Int → Pc → Shared n → Prop
  /-- nothing shared changes, and the thread does not have the lock -/
  | quiet {m : Move} {ret : Option Int} {pc' : Pc} (before : pc.hold = none)
    (after : pc'.hold = none) (raised : pc'.raised = if ret.isNone then pc.raised else 0)
    (late : ret = none → pc'.late = pc.late)
    (no_end : ∀ file, pc.ends = some file → ret ≠ some 0)
    (error : ∀ e < 0, ret = some e → pc.late = true → m = .data e) :
    Access t sh pc m ret pc' sh
  | locked {file : Handle} {kind : Kind} {interrupted : Bool} (waits : pc = .locking file kind)
    (free : sh.tLocks.locked = false) :
    Access t sh pc (.lock interrupted) none (.storeOwner file kind)
      { sh with
        tLocks := { sh.tLocks with locked := true }
        sections := kind.opens t file :: sh.sections }
  /-- the owner is the handle whose transaction is to be ended -/
  | seized {file : Handle} {giver : Giver} {pc' : Pc} (tests : pc = .testOwner file giver)
    (ends : giver.kind = .transaction) (owner : sh.tLocks.owner = some file)
    (after : pc'.hold = some ⟨file, .transaction, some file, some .setTransaction⟩)
    (raised : pc'.raised = 0) :
    Access t sh pc .next none pc' sh
  /-- an access of the thread that has the lock -/
  | stored {m : Move} {pc' : Pc} {sh' : Shared n} {h h' : Hold} (before : pc.hold = some h)
    (after : pc'.hold = some h') (fits : Fits t sh h → Fits t sh' h')
    (raised : Fits t sh h → pc'.raised = pc.raised + (sh'.version - sh.version)) :
    Access t sh pc m none pc' sh'
  | begun {file : Handle} (last : pc = .storeTransaction file .transaction) :
    Access t sh pc .next (some 0) .idle
      { sh with tLocks := { sh.tLocks with transaction := .setTransaction } }
  /-- a copy of a plain write failed -/
  | gaveUp {file : Handle} (inside : pc = .writing file .plain) :
    Access t sh pc (.log false) none (.copying file .plain) sh
  /-- the section of a plain write was closed by another thread -/
  | lost {h : Hold} (inside : pc.hold = some h) (taken : ¬ Fits t sh h) :
    Access t sh pc .next (some eio) .idle
      { sh with sections := sh.sections.erase (.plainWrite t) }
  | left {file : Handle} {giver : Giver} {ret : Option Int} {pc' : Pc}
    (last : pc = .unlock file giver) (after : pc'.hold = none)
    (ret_eq : ret = if giver = .plainWrite then none else some 0)
    (pc_eq : pc' = if giver = .plainWrite then .copying file .plain else .idle) :
    Access t sh pc .next ret pc'
      { sh with
        tLocks := { sh.tLocks with locked := false }
        sections := sh.sections.erase (giver.kind.opens t file) }

variable {t : Fin n} {s s' : System n} {sh sh' : Shared n} {pc pc' : Pc} {m : Move}
  {ret : Option Int} {place : Place} {h : Hold}

/-- An access before anything is changed. -/
theorem Access.early (before : pc.late = false) (after : pc'.late = false)
    (raised : pc.raised = 0) (raised' : pc'.raised = 0)
    (no_end : ∀ file, pc.ends = some file → ret ≠ some 0) : Access t sh pc m ret pc' sh := by
  have outside {pc : Pc} (early : pc.late = false) : pc.hold = none :=
    Option.isSome_eq_false_iff.mp (Bool.or_eq_false_iff.mp early).1 |> Option.isNone_iff_eq_none.mp
  refine .quiet (outside before) (outside after) ?_ (fun _ => after.trans before.symm) no_end ?_
  · rw [raised, raised', ite_self]
  intro e _ _ late
  cases before.symm.trans late

/-- The status changes nothing. -/
theorem Access.of_told {file : Handle} {asker : Asker} {found : Bool} (before : pc.late = false)
    (raised : pc.raised = 0) (no_end : pc.ends = none)
    (answer : told sh file asker found = (ret, pc', sh')) : Access t sh pc m ret pc' sh' := by
  have not_end (file : Handle) (ends : pc.ends = some file) : ret ≠ some 0 := by
    cases no_end.symm.trans ends
  cases asker <;> cases found <;> cases answer <;> exact .early before rfl raised rfl not_end

/-- Only a plain write has something to lose. -/
theorem Access.of_refuse {file : Handle} {giver : Giver}
    (tests : pc = .testLocked file giver ∧ sh.tLocks.locked ≠ true ∨
      pc = .testOwner file giver ∧ sh.tLocks.owner ≠ some file)
    (answer : refuse t sh giver = (ret, pc', sh')) : Access t sh pc .next ret pc' sh' := by
  rcases tests with ⟨rfl, taken⟩ | ⟨rfl, taken⟩
  all_goals cases giver <;> cases answer
  case inl.endTransaction | inl.release | inr.endTransaction | inr.release =>
    exact .early rfl rfl rfl rfl (fun _ _ => by decide)
  case inl.plainWrite => exact .lost rfl fun fits => taken fits.locked
  case inr.plainWrite => exact .lost rfl fun fits => taken fits.owner

theorem access_cases (moved : access t sh pc m = some (ret, pc', sh')) :
    Access t sh pc m ret pc' sh' := by
  unfold access at moved
  split at moved
  case h_1 | h_2 | h_3 | h_4 =>
    cases moved
    exact .early rfl rfl rfl rfl nofun
  case h_5 | h_6 =>
    obtain answer := Option.some.inj moved
    split at answer
    · cases answer
      exact .early rfl rfl rfl rfl nofun
    · exact .of_told rfl rfl rfl answer
  case h_7 => exact .of_told rfl rfl rfl (Option.some.inj moved)
  case h_8 file kind interrupted =>
    split at moved
    case h_1 => cases moved
    case h_2 | h_3 =>
      cases moved
      exact .early rfl rfl rfl rfl nofun
    case h_4 free =>
      cases moved
      exact .locked rfl free
  case h_9 file kind =>
    cases moved
    exact .stored rfl rfl (fun fits => ⟨fits.locked, rfl, nofun, fits.one_open⟩) fun _ => by
      simp [Pc.raised]
  case h_10 file =>
    cases moved
    exact .begun rfl
  case h_11 file =>
    cases moved
    refine .stored rfl rfl (fun fits => ⟨fits.locked, fits.owner, ?_, fits.one_open⟩) fun _ => by
      simp [Pc.raised]
    intro val same
    exact Option.some.inj same
  case h_12 file =>
    cases moved
    exact .stored rfl rfl (fun fits => ⟨fits.locked, fits.owner, fits.transaction, fits.one_open⟩)
      fun _ => by simp [Pc.raised]
  case h_13 file kind copied not_logged =>
    cases moved
    cases kind with
    | transaction => exact .early rfl rfl rfl rfl nofun
    | plain =>
        cases copied with
        | true => exact (not_logged rfl rfl).elim
        | false => exact .gaveUp rfl
  case h_14 file giver =>
    obtain answer := Option.some.inj moved
    split at answer
    case isTrue =>
      cases answer
      cases giver with
      | endTransaction | release => exact .early rfl rfl rfl rfl nofun
      | plainWrite => exact .stored rfl rfl id fun _ => by simp [Pc.raised]
    case isFalse taken => exact .of_refuse (.inl ⟨rfl, taken⟩) answer
  case h_15 file giver =>
    obtain answer := Option.some.inj moved
    split at answer
    case isTrue owner =>
      cases answer
      cases giver with
      | endTransaction => exact .seized rfl rfl owner rfl rfl
      | release => exact .seized rfl rfl owner rfl rfl
      | plainWrite => exact .stored rfl rfl id fun _ => by simp [Pc.raised]
    case isFalse taken => exact .of_refuse (.inr ⟨rfl, taken⟩) answer
  case h_16 file kind =>
    cases moved
    by_cases ended : sh.tLocks.transaction = .setTransaction
    · rw [if_pos ended]
      refine .stored rfl rfl id fun fits => ?_
      cases kind with
      | transaction => simp [Pc.raised]
      | plain => cases ended.symm.trans (fits.transaction _ rfl)
    · rw [if_neg ended]
      cases kind with
      | transaction => exact .stored rfl rfl id fun fits => absurd (fits.transaction _ rfl) ended
      | plain => exact .stored rfl rfl id fun _ => by simp [Pc.raised, giver]
  case h_17 file kind =>
    cases moved
    cases kind with
    | transaction | plain =>
        exact .stored rfl rfl
          (fun fits => ⟨fits.locked, fits.owner, fits.transaction, fits.one_open⟩)
          fun _ => by simp [Pc.raised, giver]
  case h_18 file giver =>
    cases moved
    refine .stored rfl rfl (fun fits => ⟨fits.locked, rfl, nofun, fits.one_open⟩) fun _ => ?_
    cases giver <;> simp [Pc.raised]
  case h_19 file giver =>
    cases moved
    refine .stored rfl rfl (fun fits => ⟨fits.locked, fits.owner, nofun, fits.one_open⟩)
      fun _ => ?_
    cases giver <;> simp [Pc.raised]
  case h_20 file giver =>
    cases moved
    refine .left rfl ?_ rfl rfl
    cases giver <;> rfl
  case h_21 file kind value =>
    cases moved
    refine .quiet rfl rfl rfl nofun nofun ?_
    intro e negative returned inside
    cases returned
    rfl
  case h_22 => cases moved

/-- A call goes on with its handle, and as a release only if it began as one. -/
theorem access_handle (moved : access t sh pc m = some (ret, pc', sh')) (file : Handle) :
    (pc'.handle = some file → pc.handle = some file ∨ ∃ entry, m = .call file entry) ∧
      (pc'.releases = some file → pc.releases = some file ∨ m = .call file .release) := by
  unfold access at moved
  split at moved
  case h_5 file' asker | h_6 file' asker =>
    cases asker
    all_goals
      simp only [told, Option.some.injEq] at moved
      split at moved
      all_goals cases moved
      all_goals simp [Pc.handle, Pc.releases]
  case h_7 file' asker =>
    generalize decide (sh.tLocks.transaction = asker.sought) = found at moved
    cases asker
    all_goals
      cases found
      all_goals cases moved
      all_goals simp [Pc.handle, Pc.releases]
  case h_14 file' giver | h_15 file' giver =>
    cases giver
    all_goals
      simp only [refuse, Option.some.injEq] at moved
      split at moved
      all_goals cases moved
      all_goals simp [Pc.handle, Pc.releases]
  case h_16 file' kind | h_17 file' kind =>
    cases kind
    all_goals
      cases moved
      simp only [giver]
      repeat' split
      all_goals simp [Pc.handle, Pc.releases]
  case h_18 file' giver | h_19 file' giver | h_20 file' giver =>
    cases giver
    all_goals
      cases moved
      simp [Pc.handle, Pc.releases]
  all_goals
    repeat' split at moved
    all_goals cases moved
    all_goals simp [Pc.handle, Pc.releases]

theorem Pc.handle_of_hold (here : pc.hold = some h) :
    pc.handle = some h.file ∧ ∀ file, h.owner = some file → h.file = file := by
  unfold Pc.hold at here
  split at here
  all_goals cases here
  all_goals
    refine ⟨rfl, fun file owner => ?_⟩
    cases owner <;> rfl

/-! ## The lock and the thread that has it agree -/

/-- The lock is free, or a transaction has it between the calls on its handle, or it is as
the one thread that has it knows it. -/
inductive Held (s : System n) : Prop
  | free (unlocked : s.shared.tLocks.locked = false) (no_owner : s.shared.tLocks.owner = none)
    (none_open : s.shared.sections = []) (nobody : ∀ t, (s.place t).pc.hold = none)
  | transaction {file : Handle} (locks : s.shared.tLocks = ⟨true, some file, .setTransaction⟩)
    (one_open : s.shared.sections = [.transaction file])
    (nobody : ∀ t, (s.place t).pc.hold = none)
  | thread {t : Fin n} {h : Hold} (here : (s.place t).pc.hold = some h)
    (fits : Fits t s.shared h) (others : ∀ u, u ≠ t → (s.place u).pc.hold = none)

/-- The thread that has the lock is the only one and knows it. -/
theorem Held.of_hold (held : Held s) (here : (s.place t).pc.hold = some h) :
    Fits t s.shared h ∧ ∀ u, u ≠ t → (s.place u).pc.hold = none := by
  rcases held with ⟨_, _, _, nobody⟩ | ⟨_, _, nobody⟩ | @⟨w, h', there, fits, others⟩
  · cases (nobody t).symm.trans here
  · cases (nobody t).symm.trans here
  · by_cases same : t = w
    · subst same
      cases there.symm.trans here
      exact ⟨fits, others⟩
    · cases (others t same).symm.trans here

/-- A free lock has no owner, and nothing is open. -/
theorem Held.of_free (held : Held s) (free : s.shared.tLocks.locked = false) :
    s.shared.tLocks.owner = none ∧ s.shared.sections = [] ∧
      ∀ t, (s.place t).pc.hold = none := by
  rcases held with ⟨_, no_owner, none_open, nobody⟩ | ⟨locks, _⟩ | ⟨_, fits, _⟩
  · exact ⟨no_owner, none_open, nobody⟩
  · rw [locks] at free
    cases free
  · cases fits.locked.symm.trans free

/-- What holds of the thread that moved and of all others. -/
theorem hold_update {P : Fin n → Prop} (others : ∀ u, P u → u ≠ t → (s.place u).pc.hold = none)
    (mine : P t → place.pc.hold = none) :
    ∀ u, P u → (Function.update s.place t place u).pc.hold = none := by
  intro u chosen
  by_cases same : u = t
  · subst same
    rw [Function.update_self]
    exact mine chosen
  · rw [Function.update_of_ne same]
    exact others u chosen same

theorem Held.of_moved (after : place.pc.hold = some h) (fits : Fits t sh h)
    (others : ∀ u, u ≠ t → (s.place u).pc.hold = none) :
    Held ⟨sh, Function.update s.place t place⟩ :=
  .thread (t := t) ((congrArg (·.pc.hold) (Function.update_self t place s.place)).trans after) fits
    (hold_update (fun u other _ => others u other) fun not_same => absurd rfl not_same)

/-- A thread that does not have the lock leaves it as it is. -/
theorem Held.quiet (held : Held s) (before : (s.place t).pc.hold = none)
    (after : place.pc.hold = none) : Held ⟨s.shared, Function.update s.place t place⟩ := by
  have everybody (nobody : ∀ u, (s.place u).pc.hold = none) (u : Fin n) :
      (Function.update s.place t place u).pc.hold = none :=
    (Function.forall_update_iff s.place fun _ p => p.pc.hold = none).mpr
      ⟨after, fun u _ => nobody u⟩ u
  rcases held with ⟨unlocked, no_owner, none_open, nobody⟩ | ⟨locks, one_open, nobody⟩ |
    @⟨w, h, here, fits, others⟩
  · exact .free unlocked no_owner none_open (everybody nobody)
  · exact .transaction locks one_open (everybody nobody)
  · have other : w ≠ t := by
      rintro rfl
      cases before.symm.trans here
    refine .thread (t := w) (h := h) ?_ fits ?_
    · change (Function.update s.place t place w).pc.hold = _
      rw [Function.update_of_ne other]
      exact here
    · exact hold_update (fun u there _ => others u there) fun _ => after

/-- A transaction is ended by the thread that finds its handle as the owner, if no other
thread has the lock through that handle. -/
theorem Held.seize {file : Handle} (held : Held s) (before : (s.place t).pc.hold = none)
    (owner : s.shared.tLocks.owner = some file)
    (alone : ∀ u, u ≠ t → ∀ h, (s.place u).pc.hold = some h → h.file ≠ file)
    (after : place.pc.hold = some ⟨file, .transaction, some file, some .setTransaction⟩) :
    Held ⟨s.shared, Function.update s.place t place⟩ := by
  rcases held with ⟨_, no_owner, _⟩ | @⟨owner', locks, one_open, nobody⟩ |
    @⟨w, h, here, fits, _⟩
  · cases no_owner.symm.trans owner
  · rw [locks] at owner
    cases owner
    refine .of_moved after ⟨?_, ?_, ?_, one_open⟩ fun u _ => nobody u
    · rw [locks]
    · rw [locks]
    · intro val same
      rw [locks]
      exact Option.some.inj same
  · have other : w ≠ t := by
      rintro rfl
      cases before.symm.trans here
    exact absurd ((Pc.handle_of_hold here).2 file (fits.owner.symm.trans owner))
      (alone w other h here)

/-- No call is under way on a handle that is being released, but the release. -/
def Alone (s : System n) : Prop :=
  ∀ t u file, (s.place t).pc.releases = some file → (s.place u).pc.handle = some file → u = t

theorem Pc.handle_of_releases {file : Handle} (releases : pc.releases = some file) :
    pc.handle = some file := by
  unfold Pc.releases at releases
  split at releases
  all_goals first | exact releases | cases releases

/-- An orderly access keeps the agreement. -/
theorem Held.move (held : Held s) (alone : Alone s) (orderly : Orderly s (t, m))
    (moved : Access t s.shared (s.place t).pc m ret place.pc sh) :
    Held ⟨sh, Function.update s.place t place⟩ := by
  unfold Orderly at orderly
  generalize after : place.pc = pc' at moved
  cases moved with
  | quiet before outside => exact held.quiet before (after ▸ outside)
  | locked waits free =>
      obtain ⟨no_owner, none_open, nobody⟩ := held.of_free free
      exact .of_moved (h := ⟨_, _, none, none⟩) (by rw [after]; rfl)
        ⟨rfl, no_owner, nofun, congrArg _ none_open⟩ fun u _ => nobody u
  | @seized file giver _ tests ends owner seizes =>
      have outside : (s.place t).pc.hold = none := by
        rw [tests]
        cases giver with
        | endTransaction | release => rfl
        | plainWrite => cases ends
      refine held.seize outside owner ?_ (after ▸ seizes)
      intro u other h here same
      rw [tests] at orderly
      cases giver with
      | endTransaction =>
          refine orderly u ?_
          rw [here, ← same]
          rfl
      | release =>
          refine other (alone t u file (by rw [tests]; rfl) ?_)
          rw [← same]
          exact (Pc.handle_of_hold here).1
      | plainWrite => cases ends
  | stored before having fits =>
      obtain ⟨known, others⟩ := held.of_hold before
      exact .of_moved (after ▸ having) (fits known) others
  | @begun file last =>
      obtain ⟨known, others⟩ := held.of_hold
        (h := ⟨file, .transaction, some file, none⟩) (by rw [last]; rfl)
      have open_ : s.shared.sections = [.transaction file] := known.one_open
      refine .transaction ?_ open_ ?_
      · change TransactionLocks.mk _ _ _ = _
        rw [known.locked, known.owner]
      · exact (Function.forall_update_iff s.place fun _ p => p.pc.hold = none).mpr
          ⟨by rw [after]; rfl, others⟩
  | gaveUp inside =>
      rw [inside] at orderly
      cases orderly
  | lost inside taken => exact absurd (held.of_hold inside).1 taken
  | @left file giver _ _ last outside =>
      obtain ⟨known, others⟩ := held.of_hold
        (h := ⟨file, giver.kind, none, none⟩) (by rw [last]; rfl)
      refine .free rfl known.owner ?_ ?_
      · change s.shared.sections.erase _ = []
        rw [known.one_open]
        exact List.erase_cons_head _ _
      · exact (Function.forall_update_iff s.place fun _ p => p.pc.hold = none).mpr
          ⟨after ▸ outside, others⟩

/-- What holds between the accesses of an orderly run. -/
structure Sound (s : System n) : Prop where
  held : Held s
  alone : Alone s
  touched : ∀ t, (s.place t).touched = true → (s.place t).pc.late = true
  raised : ∀ t, (s.place t).raised = (s.place t).pc.raised

theorem sound_init (version : Nat) : Sound (System.init n version) :=
  ⟨.free rfl rfl rfl fun _ => rfl, fun _ _ _ => nofun, fun _ => nofun, fun _ => rfl⟩

theorem move_eq_some {place' : Place} (moved : move t sh place m = some (ret, place', sh')) :
    access t sh place.pc m = some (ret, place'.pc, sh') ∧
      place'.touched = (ret.isNone && (place.touched ||
        decide (sh'.tLocks ≠ sh.tLocks ∨ sh'.version ≠ sh.version))) ∧
      place'.raised = if ret.isNone then place.raised + (sh'.version - sh.version) else 0 := by
  obtain ⟨⟨ret', pc', after⟩, called, same⟩ := Option.map_eq_some_iff.mp moved
  cases same
  exact ⟨called, rfl, rfl⟩

theorem late_of_hold (here : pc.hold = some h) : pc.late = true := by
  unfold Pc.late
  rw [here]
  rfl

/-- Without the lock, only the data loop of a plain write is late. -/
theorem Pc.copying_of_late (late : pc.late = true) (outside : pc.hold = none) :
    ∃ file, pc = .copying file .plain := by
  unfold Pc.late at late
  rw [outside] at late
  split at late
  · exact ⟨_, rfl⟩
  · cases late

/-- A call that has changed something and goes on is where it may have. -/
theorem Access.touched {before : Bool} (moved : Access t sh pc m ret pc' sh')
    (late : before = true → pc.late = true)
    (changed : (ret.isNone && (before ||
      decide (sh'.tLocks ≠ sh.tLocks ∨ sh'.version ≠ sh.version))) = true) : pc'.late = true := by
  obtain ⟨goes_on, changed⟩ := Bool.and_eq_true_iff.mp changed
  have silent := Option.isNone_iff_eq_none.mp goes_on
  cases moved with
  | quiet _ _ _ same =>
      simp only [ne_eq, not_true_eq_false, or_self, decide_false, Bool.or_false] at changed
      exact (same silent).trans (late changed)
  | locked | gaveUp => rfl
  | seized _ _ _ after | stored _ after => exact late_of_hold after
  | begun | lost => cases silent
  | @left _ giver _ _ _ _ ret_eq pc_eq =>
      cases giver with
      | plainWrite =>
          rw [pc_eq]
          rfl
      | endTransaction | release => cases silent.symm.trans ret_eq

/-- The note on the version is what the place of the call says. -/
theorem Access.raised (held : Held s) (orderly : Orderly s (t, m))
    (moved : Access t s.shared (s.place t).pc m ret pc' sh) :
    pc'.raised =
      if ret.isNone then (s.place t).pc.raised + (sh.version - s.shared.version) else 0 := by
  unfold Orderly at orderly
  cases moved with
  | quiet _ _ same =>
      rw [Nat.sub_self, Nat.add_zero]
      exact same
  | locked waits =>
      rw [waits]
      exact (Nat.sub_self _).symm.trans (Nat.zero_add _).symm
  | @seized file giver _ tests ends _ _ zero =>
      rw [tests, zero, Nat.sub_self]
      cases giver with
      | endTransaction | release => rfl
      | plainWrite => cases ends
  | stored before _ _ raised => exact raised (held.of_hold before).1
  | begun | lost => rfl
  | gaveUp inside =>
      rw [inside] at orderly
      cases orderly
  | @left _ giver _ _ last _ ret_eq pc_eq =>
      rw [last, ret_eq, pc_eq]
      cases giver <;> simp [Pc.raised]

/-- A handle is not called on while it is released. -/
theorem Alone.move (alone : Alone s) (admitted : Admitted s m)
    (called : access t s.shared (s.place t).pc m = some (ret, place.pc, sh)) :
    Alone ⟨sh, Function.update s.place t place⟩ := by
  intro u v file releases inside
  obtain ⟨goes_on, still⟩ := access_handle called file
  by_cases mover : u = t
  · subst mover
    by_contra other
    change (Function.update s.place u place u).pc.releases = _ at releases
    change (Function.update s.place u place v).pc.handle = _ at inside
    rw [Function.update_self] at releases
    rw [Function.update_of_ne other] at inside
    rcases still releases with before | rfl
    · exact other (alone u v file before inside)
    · exact admitted v inside
  · change (Function.update s.place t place u).pc.releases = _ at releases
    rw [Function.update_of_ne mover] at releases
    by_cases moved : v = t
    · subst moved
      change (Function.update s.place v place v).pc.handle = _ at inside
      rw [Function.update_self] at inside
      rcases goes_on inside with before | ⟨entry, rfl⟩
      · exact alone u v file releases before
      · cases entry with
        | beginTransaction | endTransaction | write => exact absurd releases (admitted u)
        | release => exact absurd (Pc.handle_of_releases releases) (admitted u)
    · change (Function.update s.place t place v).pc.handle = _ at inside
      rw [Function.update_of_ne moved] at inside
      exact alone u v file releases inside

theorem step_eq_some (taken : step s (t, m) = some (ret, s')) :
    Admitted s m ∧ ∃ place sh, move t s.shared (s.place t) m = some (ret, place, sh) ∧
      s' = ⟨sh, Function.update s.place t place⟩ := by
  unfold step at taken
  split at taken
  case isFalse => cases taken
  case isTrue admitted => exact ⟨admitted, Threads.step_eq_some taken⟩

theorem Sound.step {a : Fin n × Move} (sound : Sound s) (orderly : Orderly s a)
    (taken : step s a = some (ret, s')) : Sound s' := by
  obtain ⟨t, m⟩ := a
  obtain ⟨admitted, place, sh, moved, rfl⟩ := step_eq_some taken
  obtain ⟨called, touched, raised⟩ := move_eq_some moved
  have done := access_cases called
  refine ⟨sound.held.move sound.alone orderly done, sound.alone.move admitted called, ?_, ?_⟩
  · refine (Function.forall_update_iff s.place
      fun _ p => p.touched = true → p.pc.late = true).mpr ⟨?_, fun u _ => sound.touched u⟩
    intro changed
    exact done.touched (sound.touched t) (touched.symm.trans changed)
  · refine (Function.forall_update_iff s.place
      fun _ p => p.raised = p.pc.raised).mpr ⟨?_, fun u _ => sound.raised u⟩
    rw [raised, sound.raised t]
    exact (done.raised sound.held orderly).symm

theorem sound_of_run {acts : List (Fin n × Move)} (run : Run step Orderly s acts s')
    (sound : Sound s) : Sound s' :=
  run.invariant (P := Sound) (fun _ _ _ _ sound orderly taken => sound.step orderly taken) sound

/-! ## The protocol -/

/-- What the lock protocol asks of one access. -/
structure Obeys (s : System n) (a : Fin n × Move) (ret : Option Int) (s' : System n) :
    Prop where
  /-- an `END` that returns `0` ends a transaction of its handle and has raised the version
  by one -/
  ended : ∀ file, (s.place a.1).pc.ends = some file → ret = some 0 →
    .transaction file ∈ s.shared.sections ∧ (s.place a.1).raised = 1 ∧
      s'.shared.version = s.shared.version
  /-- nobody else changes the lock of a plain write or closes its section -/
  closed : ∀ w, .plainWrite w ∈ s.shared.sections → a.1 ≠ w →
    s'.shared.tLocks = s.shared.tLocks ∧ s'.shared.sections = s.shared.sections
  /-- a call that returns an error has changed neither the lock nor the version -/
  failed : ∀ e < 0, ret = some e →
    s'.shared.tLocks = s.shared.tLocks ∧ s'.shared.version = s.shared.version ∧
      (s.place a.1).touched = false

/-- A plain write that is open has the lock. -/
theorem Held.of_mem {w : Fin n} (held : Held s) (member : .plainWrite w ∈ s.shared.sections) :
    ∃ h, (s.place w).pc.hold = some h ∧ Fits w s.shared h ∧
      ∀ u, u ≠ w → (s.place u).pc.hold = none := by
  rcases held with ⟨_, _, none_open, _⟩ | ⟨_, one_open, _⟩ | @⟨t, h, here, fits, others⟩
  · rw [none_open] at member
    cases member
  · rw [one_open] at member
    cases List.mem_singleton.mp member
  · rw [fits.one_open] at member
    obtain same : Section.plainWrite w = h.kind.opens t h.file := List.mem_singleton.mp member
    unfold LockProtocol.Kind.opens at same
    split at same
    · cases same
    · cases same
      exact ⟨h, here, fits, others⟩

/-- An access of a thread that does not have the lock, while somebody has it. -/
theorem Access.of_outside (moved : Access t sh pc m ret pc' sh') (outside : pc.hold = none)
    (locked : sh.tLocks.locked = true) : sh' = sh := by
  cases moved with
  | quiet | seized | gaveUp => rfl
  | locked _ free => cases locked.symm.trans free
  | stored before | lost before => cases outside.symm.trans before
  | begun last | left last =>
      rw [last] at outside
      cases outside

/-- An `END` returns `0` with the store that gives the lock back. -/
theorem Sound.ended (sound : Sound s) (moved : Access t s.shared (s.place t).pc m ret pc' sh)
    {file : Handle} (ends : (s.place t).pc.ends = some file) (zero : ret = some 0) :
    .transaction file ∈ s.shared.sections ∧ (s.place t).raised = 1 ∧
      sh.version = s.shared.version := by
  cases moved with
  | quiet _ _ _ _ no_end => exact absurd zero (no_end file ends)
  | locked | seized | stored | gaveUp => cases zero
  | begun last =>
      rw [last] at ends
      cases ends
  | lost => cases zero
  | @left owner giver _ _ last =>
      obtain ⟨known, _⟩ := sound.held.of_hold (h := ⟨owner, giver.kind, none, none⟩)
        (by rw [last]; rfl)
      rw [sound.raised t, last, known.one_open]
      rw [last] at ends
      cases giver with
      | endTransaction =>
          cases ends
          exact ⟨List.mem_singleton_self _, rfl, rfl⟩
      | plainWrite | release => cases ends

/-- An error is returned before anything is changed. -/
theorem Sound.failed (sound : Sound s) (orderly : Orderly s (t, m))
    (moved : Access t s.shared (s.place t).pc m ret pc' sh) {e : Int} (negative : e < 0)
    (returned : ret = some e) : sh = s.shared ∧ (s.place t).touched = false := by
  cases moved with
  | quiet before _ _ _ _ error =>
      refine ⟨rfl, ?_⟩
      cases touched : (s.place t).touched with
      | false => rfl
      | true =>
          have late := sound.touched t touched
          obtain rfl := error e negative returned late
          obtain ⟨file, copying⟩ := Pc.copying_of_late late before
          unfold Orderly at orderly
          rw [copying] at orderly
          exact absurd negative (Int.not_lt.mpr orderly)
  | locked | seized | stored | gaveUp => cases returned
  | begun =>
      cases returned
      cases negative
  | lost inside taken => exact absurd (sound.held.of_hold inside).1 taken
  | @left _ giver _ _ _ _ ret_eq =>
      subst returned
      split at ret_eq
      · cases ret_eq
      · cases ret_eq
        cases negative

theorem Sound.obeys {a : Fin n × Move} (sound : Sound s) (orderly : Orderly s a)
    (taken : LockStores.step s a = some (ret, s')) : Obeys s a ret s' := by
  obtain ⟨t, m⟩ := a
  obtain ⟨_, place, sh, moved, rfl⟩ := step_eq_some taken
  have done := access_cases (move_eq_some moved).1
  refine ⟨fun file ends zero => sound.ended done ends zero, ?_, ?_⟩
  · intro w member other
    obtain ⟨h, here, fits, others⟩ := sound.held.of_mem member
    obtain rfl := done.of_outside (others t other) fits.locked
    exact ⟨rfl, rfl⟩
  · intro e negative returned
    obtain ⟨rfl, untouched⟩ := sound.failed orderly done negative returned
    exact ⟨rfl, rfl, untouched⟩

/-- Whatever the threads do, in an orderly run at most one section is open, and
every orderly access from there obeys the protocol. -/
theorem transaction_lock_protocol {version : Nat} {acts : List (Fin n × Move)} {s : System n}
    (run : Run step Orderly (System.init n version) acts s) :
    s.shared.sections.length ≤ 1 ∧
      ∀ a ret s', Orderly s a → step s a = some (ret, s') → Obeys s a ret s' := by
  have sound := sound_of_run run (sound_init version)
  refine ⟨?_, fun _ _ _ orderly taken => sound.obeys orderly taken⟩
  rcases sound.held with ⟨_, _, none_open, _⟩ | ⟨_, one_open, _⟩ | ⟨_, fits, _⟩
  · rw [none_open]
    exact Nat.zero_le 1
  · rw [one_open]
    exact Nat.le_refl 1
  · rw [fits.one_open]
    exact Nat.le_refl 1

/-- Thread `t` makes one move after the other. -/
def does (t : Fin 2) (ms : List Move) : List (Fin 2 × Move) := ms.map (t, ·)

/-- The first `k` accesses of a call on handle `file`. -/
def calls (file : Handle) (entry : Entry) (k : Nat) : List Move :=
  .call file entry :: List.replicate k .next

/-- Thread 0 writes to handle 0 and has taken the lock. -/
def plainWriteInside : List (Fin 2 × Move) :=
  does 0 (calls 0 .write 2 ++ [.lock false, .next, .next])

/-- Two threads share a handle: one writes, then the other begins a transaction on
the handle in which the first writes again, and ends it. -/
def sharedHandle : List (Fin 2 × Move) :=
  plainWriteInside ++ does 1 (calls 0 .beginTransaction 3) ++
    does 0 (.log true :: List.replicate 6 .next) ++ does 1 [.lock false, .next] ++
    does 0 [.data 5] ++ does 1 [.next] ++ does 0 (calls 0 .write 3 ++ [.log true]) ++
    does 1 (calls 0 .endTransaction 6)

theorem transaction_lock_protocol_shared_handle :
    ∃ s s', Run step Orderly (System.init 2 1) sharedHandle s ∧
      step s (1, .next) = some (some 0, s') ∧ s.shared.sections.length ≤ 1 ∧
      .transaction 0 ∈ s.shared.sections ∧ (s.place 1).raised = 1 ∧ s'.shared.version = 3 := by
  refine Run.exists_step_imp (fun s a => decide (Orderly s a)) (fun _ _ _ => of_decide_eq_true)
    (Q := fun s s' => Orderly s (1, .next) ∧ (s.place 1).pc.ends = some 0 ∧
      s'.shared.version = 3) (by decide +kernel) ?_
  intro s s' run taken ⟨orderly, ending, version⟩
  obtain ⟨one, obeys⟩ := transaction_lock_protocol run
  obtain ⟨member, raised, _⟩ := (obeys (1, .next) _ _ orderly taken).ended 0 ending rfl
  exact ⟨one, member, raised, version⟩

/-- Thread 1 calls `END` on handle 0 and passes its tests; the next access returns. -/
def endTransaction : List (Fin 2 × Move) := does 1 (calls 0 .endTransaction 5)

/-- Thread 0 is in a `BEGIN` on handle 0, between the two stores. -/
def betweenStores : List (Fin 2 × Move) :=
  does 0 (calls 0 .beginTransaction 1 ++ [.lock false, .next])

/-- The `END` returns, its thread begins a transaction on handle 1, and thread 0 logs. -/
def otherBegin : List (Fin 2 × Move) :=
  does 1 (.next :: calls 1 .beginTransaction 1 ++ [.lock false, .next, .next]) ++
    does 0 [.log true, .next]

/-- Two threads share a handle. Between the two stores of a `BEGIN`, and while the plain
write of the other thread has the lock, an `END` returns `0` without raising the version,
and the lock is free. A transaction on another handle is then open beside the plain write,
which comes back with an error after it has raised the version. -/
theorem transaction_lock_protocol_fails :
    (∃ s s', Run step (fun _ _ => True) (System.init 2 1) (betweenStores ++ endTransaction) s ∧
      step s (1, .next) = some (some 0, s') ∧ (s.place 1).raised = 0 ∧
      (s.place 0).pc = .storeTransaction 0 .transaction ∧ s'.shared.tLocks.locked = false) ∧
    (∃ s s', Run step (fun _ _ => True) (System.init 2 1) (plainWriteInside ++ endTransaction) s ∧
      step s (1, .next) = some (some 0, s') ∧ (s.place 1).raised = 0 ∧
      s.shared.sections = [.plainWrite 0] ∧ s'.shared.tLocks.locked = false) ∧
    ∃ s s', Run step (fun _ _ => True) (System.init 2 1)
        (plainWriteInside ++ endTransaction ++ otherBegin) s ∧
      step s (0, .next) = some (some eio, s') ∧
      s.shared.sections = [.transaction 1, .plainWrite 0] ∧ (s.place 0).touched = true ∧
      s.shared.version = 2 := by
  refine ⟨?_, ?_, ?_⟩
  all_goals
    exact Run.exists_step_imp (fun _ _ => true) (fun _ _ _ _ => trivial) (by decide +kernel)
      fun _ _ _ _ shown => shown

end FlexClone.Scorw.LockStores
