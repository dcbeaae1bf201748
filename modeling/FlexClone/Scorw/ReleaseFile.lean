import FlexClone.Threads
import FlexClone.Scorw.LockMoves

/-!
# Releasing a handle

Every `scorw_inode`, of a parent or of a child, has a transaction lock of its own, and `BEGIN`
takes the one of the file the handle is of. A plain write takes the lock of the parent; so does
a write to a child in a shared range, with the child's handle as the owner. The calls are those
of `LockProtocol`, move by move, here on the locks of many files.

`ext4_release_file` gives up a transaction of the handle if the file is a parent, and puts a
reference; `i_vfs_inode_open_close_lock` is held meanwhile. It is cut after its test of the
transaction. Which `scorw_inode`s are freed by a put is up to the environment.

`transaction_given_up_iff` says in which runs a handle that was released owns no lock.
-/

namespace FlexClone.Scorw.Release

open LockProtocol (callStep)

/-- A `struct file`. -/
inductive HandleState (ι : Type*)
  | closed
  | opened (x : ι)
  /-- in `ext4_release_file` -/
  | closing (x : ι)
  deriving DecidableEq

/-- A `scorw_inode`: `i_par_vfs_inode`, null in that of a parent, and `t_locks`. -/
structure ScorwInode (n : Nat) (ι : Type*) where
  par : Option ι
  locks : LockProtocol.Shared n

structure Shared (n : Nat) (ι : Type*) where
  scorwInode : ι → Option (ScorwInode n ι)
  handle : Handle → HandleState ι
  /-- `i_vfs_inode_open_close_lock` is held -/
  openClose : ι → Bool

/-- Where a thread is. -/
inductive Place (ι : Type*)
  | idle
  /-- in a call on the transaction lock of a file -/
  | call (x : ι) (pc : LockProtocol.Pc)
  /-- in `ext4_release_file`; `inside` is whether a transaction was found -/
  | closing (file : Handle) (x : ι) (inside : Bool)
  deriving DecidableEq

/-- The handle a thread is using. -/
def Place.handle {ι : Type*} : Place ι → Option Handle
  | .idle => none
  | .call _ pc => pc.handle
  | .closing file _ _ => some file

inductive Act (n : Nat) (ι : Type*)
  | call (t : Fin n) (m : LockProtocol.Move)
  /-- `ext4_release_file` is called and gets the lock it needs -/
  | close (t : Fin n) (file : Handle)
  /-- the rest of it; `gone` are the files whose `scorw_inode` is freed -/
  | release (t : Fin n) (gone : ι → Bool)
  | openFile (file : Handle) (x : ι)
  /-- a `scorw_inode` is made; the version is that of the file -/
  | attach (x : ι) (par : Option ι) (version : Nat)
  /-- references are put by others -/
  | put (gone : ι → Bool)

/-- `scorw_set_transaction_error`, on the lock alone. -/
def setTransactionError (locks : TransactionLocks) (file : Handle) : Int × TransactionLocks :=
  if locks.locked = false then (eperm, locks)
  else if locks.owner ≠ some file then (eperm, locks)
  else (0, ⟨false, none, .unset⟩)

/-- `-EINVAL` -/
def einval : Int := -22

variable {n : Nat} {ι : Type*} [DecidableEq ι]

namespace Shared

def setLocks (sh : Shared n ι) (x : ι) (locks : LockProtocol.Shared n) : Shared n ι :=
  { sh with
    scorwInode := Function.update sh.scorwInode x
      ((sh.scorwInode x).map fun si => { si with locks := locks }) }

def setHandle (sh : Shared n ι) (file : Handle) (state : HandleState ι) : Shared n ι :=
  { sh with handle := Function.update sh.handle file state }

def setOpenClose (sh : Shared n ι) (x : ι) (held : Bool) : Shared n ι :=
  { sh with openClose := Function.update sh.openClose x held }

/-- `scorw_put_inode` frees what nobody uses any more. -/
def putInode (sh : Shared n ι) (gone : ι → Bool) : Shared n ι :=
  { sh with scorwInode := fun x => if gone x then none else sh.scorwInode x }

/-- The file whose lock a call is about. A write to a child reaches the lock of its parent. -/
def target (sh : Shared n ι) : LockProtocol.Move → Option ι
  | .beginTransaction file | .endTransaction file =>
      match sh.handle file with
      | .opened x => some x
      | .closed | .closing _ => none
  | .write file =>
      match sh.handle file with
      | .opened x => (sh.scorwInode x).map fun si => si.par.getD x
      | .closed | .closing _ => none
  | .lock _ | .log _ | .unlock | .release | .data _ => none

/-- One move of a call on the lock of a file. -/
def callOn (sh : Shared n ι) (t : Fin n) (x : ι) (pc : LockProtocol.Pc) (m : LockProtocol.Move) :
    Option (Int × Place ι × Shared n ι) :=
  (sh.scorwInode x).bind fun si =>
    (callStep t si.locks pc m).map fun r =>
      match r.1 with
      | some ret => (ret, .idle, sh.setLocks x r.2.2)
      | none => (0, .call x r.2.1, sh.setLocks x r.2.2)

/-- `ext4_release_file` up to its test of the transaction, which a child is spared. -/
def enterRelease (sh : Shared n ι) (file : Handle) : Option (Int × Place ι × Shared n ι) :=
  match sh.handle file with
  | .opened x =>
      match sh.scorwInode x with
      | none => some (0, .idle, sh.setHandle file .closed)
      | some si =>
          if sh.openClose x then none
          else
            some (0,
              .closing file x
                (si.par.isNone && decide (si.locks.tLocks.status file = .setTransaction)),
              (sh.setOpenClose x true).setHandle file (.closing x))
  | .closed | .closing _ => none

/-- `scorw_set_transaction_error` -/
def transactionError (sh : Shared n ι) (x : ι) (file : Handle) : Int × Shared n ι :=
  match sh.scorwInode x with
  | none => (einval, sh)
  | some si =>
      let r := setTransactionError si.locks.tLocks file
      (r.1, sh.setLocks x
        { si.locks with
          tLocks := r.2
          sections :=
            if r.1 = 0 then si.locks.sections.erase (.transaction file) else si.locks.sections })

/-- The rest of `ext4_release_file`. An error leaves it without the unlock. -/
def finishRelease (sh : Shared n ι) (file : Handle) (x : ι) (inside : Bool) (gone : ι → Bool) :
    Int × Shared n ι :=
  let err := if inside then sh.transactionError x file else (0, sh)
  if err.1 ≠ 0 then (-25, err.2.setHandle file .closed)
  else (0, ((err.2.putInode gone).setOpenClose x false).setHandle file .closed)

end Shared

abbrev System (n : Nat) (ι : Type*) := Threads (Fin n) (Shared n ι) (Place ι)

/-- A thread gets to a place. -/
def System.to (s : System n ι) (t : Fin n) (moved : Int × Place ι × Shared n ι) :
    Int × System n ι :=
  (moved.1, ⟨moved.2.2, Function.update s.place t moved.2.1⟩)

/-- One move. A handle is released when no thread is in a call on it, and the number of a
handle that is closed may be used again. -/
def step (s : System n ι) : Act n ι → Option (Int × System n ι)
  | .call t m =>
      match s.place t with
      | .idle =>
          (s.shared.target m).bind fun x => (s.shared.callOn t x .idle m).map (s.to t)
      | .call x pc => (s.shared.callOn t x pc m).map (s.to t)
      | .closing _ _ _ => none
  | .close t file =>
      if s.place t = .idle ∧ ∀ u, (s.place u).handle ≠ some file then
        (s.shared.enterRelease file).map (s.to t)
      else none
  | .release t gone =>
      match s.place t with
      | .closing file x inside =>
          let r := s.shared.finishRelease file x inside gone
          some (s.to t (r.1, .idle, r.2))
      | .idle | .call _ _ => none
  | .openFile file x =>
      if s.shared.handle file = .closed then
        some (0, { s with shared := s.shared.setHandle file (.opened x) })
      else none
  | .attach x par version =>
      if (s.shared.scorwInode x).isSome then none
      else some (0, { s with shared := { s.shared with
        scorwInode := Function.update s.shared.scorwInode x (some ⟨par, ⟨.init, version, []⟩⟩) } })
  | .put gone => some (0, { s with shared := s.shared.putInode gone })

/-- Nothing is open or attached. -/
def init : System n ι := ⟨⟨fun _ => none, fun _ => .closed, fun _ => false⟩, fun _ => .idle⟩

/-! ## Locks and their owners -/

/-- A handle is the owner of the lock of a file. -/
def Shared.Owns (sh : Shared n ι) (file : Handle) (x : ι) : Prop :=
  ∃ si, sh.scorwInode x = some si ∧ si.locks.tLocks.owner = some file

/-- No lock is left behind: an owner is not closed, a lock without an owner is free, and
`i_vfs_inode_open_close_lock` is with a release that is under way. -/
structure GivenUp (s : System n ι) : Prop where
  owners : ∀ file x, s.shared.Owns file x → s.shared.handle file ≠ .closed
  free : ∀ x si, s.shared.scorwInode x = some si →
    si.locks.tLocks.locked = si.locks.tLocks.owner.isSome
  openClose : ∀ x, s.shared.openClose x = true →
    ∃ t file inside, s.place t = .closing file x inside

/-- The release finds every lock of the handle: it is the lock of the parent it is a handle of,
held for a transaction, which nobody else gives back meanwhile. Other locks go away with their
`scorw_inode`. -/
def Abandons (s : System n ι) : Act n ι → Prop
  | .close _ file =>
      ∀ x, s.shared.handle file = .opened x → s.shared.scorwInode x = none →
        ∀ y, ¬ s.shared.Owns file y
  | .release t gone =>
      ∀ file x inside, s.place t = .closing file x inside →
        (inside = true → s.shared.Owns file x) ∧
        ∀ y, s.shared.Owns file y → gone y = true ∨ inside = true ∧ y = x
  | .call _ _ | .openFile _ _ | .attach _ _ _ | .put _ => True

/-- What else holds of the threads. -/
structure Placed (s : System n ι) : Prop where
  busy : ∀ t x pc, s.place t = .call x pc → pc ≠ .idle
  calls : ∀ t x pc file, s.place t = .call x pc → pc.handle = some file →
    ∃ y, s.shared.handle file = .opened y
  closing : ∀ t file x inside, s.place t = .closing file x inside →
    s.shared.handle file = .closing x ∧ s.shared.openClose x = true
  one : ∀ t u file file' x inside inside', s.place t = .closing file x inside →
    s.place u = .closing file' x inside' → t = u

/-! ## What the operations do to the locks -/

section Owners

variable {sh : Shared n ι} {x : ι} {locks : LockProtocol.Shared n} {gone : ι → Bool}

/-- A lock without an owner is free. -/
def Shared.Free (sh : Shared n ι) : Prop :=
  ∀ x si, sh.scorwInode x = some si → si.locks.tLocks.locked = si.locks.tLocks.owner.isSome

theorem owns_of_setLocks {file : Handle} {y : ι} (owns : (sh.setLocks x locks).Owns file y) :
    y = x ∧ locks.tLocks.owner = some file ∨ y ≠ x ∧ sh.Owns file y := by
  obtain ⟨si, here, owner⟩ := owns
  unfold Shared.setLocks at here
  dsimp only at here
  by_cases same : y = x
  · rw [same, Function.update_self] at here
    obtain ⟨si', _, rfl⟩ := Option.map_eq_some_iff.mp here
    exact .inl ⟨same, owner⟩
  · rw [Function.update_of_ne same] at here
    exact .inr ⟨same, si, here, owner⟩

theorem owns_setLocks_of_ne {file : Handle} {y : ι} (other : y ≠ x) (owns : sh.Owns file y) :
    (sh.setLocks x locks).Owns file y := by
  obtain ⟨si, here, owner⟩ := owns
  exact ⟨si, (Function.update_of_ne other _ _).trans here, owner⟩

theorem free_setLocks (free : sh.Free) (new : locks.tLocks.locked = locks.tLocks.owner.isSome) :
    (sh.setLocks x locks).Free := by
  intro y si here
  unfold Shared.setLocks at here
  dsimp only at here
  by_cases same : y = x
  · rw [same, Function.update_self] at here
    obtain ⟨si', _, rfl⟩ := Option.map_eq_some_iff.mp here
    exact new
  · rw [Function.update_of_ne same] at here
    exact free y si here

omit [DecidableEq ι] in
theorem owns_putInode_iff {file : Handle} {y : ι} :
    (sh.putInode gone).Owns file y ↔ gone y = false ∧ sh.Owns file y := by
  unfold Shared.Owns Shared.putInode
  dsimp only
  cases gone y with
  | true => simp
  | false => simp

omit [DecidableEq ι] in
theorem free_putInode (free : sh.Free) : (sh.putInode gone).Free := by
  intro y si here
  unfold Shared.putInode at here
  dsimp only at here
  split at here
  · cases here
  · exact free y si here

end Owners

/-- The owner gives its lock up. -/
theorem setTransactionError_of_owned {locks : TransactionLocks} {file : Handle}
    (owned : locks.OwnedBy file) : setTransactionError locks file = (0, ⟨false, none, .unset⟩) := by
  unfold setTransactionError
  rw [if_neg (by simp [owned.1]), if_neg (by simp [owned.2])]

/-- Without interruption, the release of a parent does to its lock what the whole call does. -/
theorem release_eq_releaseFile {sh : Shared n ι} {x : ι} {si : ScorwInode n ι}
    (here : sh.scorwInode x = some si) (file : Handle) :
    (sh.finishRelease file x (decide (si.locks.tLocks.status file = .setTransaction))
      fun _ => false).2.scorwInode x =
      some { si with locks := LockProtocol.releaseFile si.locks file } := by
  unfold Shared.finishRelease LockProtocol.releaseFile
  by_cases inside : si.locks.tLocks.status file = .setTransaction
  · have owned : si.locks.tLocks.OwnedBy file := by
      unfold TransactionLocks.status at inside
      split at inside
      case isTrue owned => exact owned
      case isFalse => cases inside
    have given := setTransactionError_of_owned owned
    simp [inside, Shared.transactionError, here, given, Shared.setHandle, Shared.setOpenClose,
      Shared.putInode, Shared.setLocks]
  · simp [inside, Shared.setHandle, Shared.setOpenClose, Shared.putInode, here]

theorem idle_of_starts {t : Fin n} {sh sh' : LockProtocol.Shared n} {pc pc' : LockProtocol.Pc}
    {m : LockProtocol.Move} {ret : Option Int} {file : Handle}
    (moved : callStep t sh pc m = some (ret, pc', sh'))
    (starts : m = .beginTransaction file ∨ m = .endTransaction file ∨ m = .write file) :
    pc = .idle := by
  unfold callStep at moved
  split at moved
  case h_1 | h_2 | h_3 => rfl
  case h_10 => cases moved
  all_goals rcases starts with start | start | start <;> cases start

theorem callOn_cases {sh sh' : Shared n ι} {t : Fin n} {x : ι} {pc : LockProtocol.Pc}
    {m : LockProtocol.Move} {ret : Int} {place : Place ι}
    (moved : sh.callOn t x pc m = some (ret, place, sh')) :
    ∃ si r pc' locks, sh.scorwInode x = some si ∧ callStep t si.locks pc m = some (r, pc', locks) ∧
      sh' = sh.setLocks x locks ∧ (place = .idle ∨ place = .call x pc' ∧ pc' ≠ .idle) := by
  obtain ⟨si, here, moved⟩ := Option.bind_eq_some_iff.mp moved
  obtain ⟨⟨r, pc', locks⟩, stepped, same⟩ := Option.map_eq_some_iff.mp moved
  refine ⟨si, r, pc', locks, here, stepped, ?_⟩
  cases r with
  | some ret =>
      cases same
      exact ⟨rfl, .inl rfl⟩
  | none =>
      cases same
      exact ⟨rfl, .inr ⟨rfl, (LockProtocol.callStep_goesOn stepped).1⟩⟩

omit [DecidableEq ι] in
/-- A call starts on a handle that is open. -/
theorem opened_of_target {sh : Shared n ι} {m : LockProtocol.Move} {x : ι} {file : Handle}
    (found : sh.target m = some x)
    (starts : m = .beginTransaction file ∨ m = .endTransaction file ∨ m = .write file) :
    ∃ y, sh.handle file = .opened y := by
  cases here : sh.handle file with
  | opened y => exact ⟨y, rfl⟩
  | closed | closing =>
      rcases starts with rfl | rfl | rfl
      all_goals
        unfold Shared.target at found
        dsimp only at found
        rw [here] at found
        cases found

section Steps

variable {s s' : System n ι} {t : Fin n}

/-- The calls of the other threads, and the one that moves. -/
theorem Placed.call (placed : Placed s) {x : ι} {locks : LockProtocol.Shared n} {place : Place ι}
    (opened : ∀ y pc file, place = .call y pc → pc.handle = some file →
      ∃ z, s.shared.handle file = .opened z)
    (busy : ∀ y pc, place = .call y pc → pc ≠ .idle)
    (quiet : ∀ file y inside, place ≠ .closing file y inside) :
    Placed ⟨s.shared.setLocks x locks, Function.update s.place t place⟩ := by
  have others {u : Fin n} {file : Handle} {y : ι} {inside : Bool}
      (here : Function.update s.place t place u = .closing file y inside) :
      s.place u = .closing file y inside := by
    rcases Threads.update_cases here with ⟨_, same⟩ | ⟨_, there⟩
    · exact absurd same (quiet file y inside)
    · exact there
  refine ⟨fun u y pc here => ?_, fun u y pc file here => ?_, fun u file y inside here => ?_, ?_⟩
  · rcases Threads.update_cases here with ⟨_, same⟩ | ⟨_, there⟩
    · exact busy y pc same
    · exact placed.busy u y pc there
  · rcases Threads.update_cases here with ⟨_, same⟩ | ⟨_, there⟩
    · exact opened y pc file same
    · exact placed.calls u y pc file there
  · exact placed.closing u file y inside (others here)
  · intro u v file file' y inside inside' first second
    exact placed.one u v file file' y inside inside' (others first) (others second)

/-- The lock that moves is with a handle that is open, or free. -/
theorem GivenUp.call (givenUp : GivenUp s) {x : ι} {si : ScorwInode n ι}
    {pc pc' : LockProtocol.Pc} {m : LockProtocol.Move} {r : Option Int}
    {locks : LockProtocol.Shared n} {place : Place ι} (here : s.shared.scorwInode x = some si)
    (stepped : callStep t si.locks pc m = some (r, pc', locks))
    (opened : ∀ file, pc.handle = some file → ∃ y, s.shared.handle file = .opened y)
    (quiet : ∀ file y inside, s.place t ≠ .closing file y inside) :
    GivenUp ⟨s.shared.setLocks x locks, Function.update s.place t place⟩ := by
  obtain ⟨owners, free, openClose⟩ := givenUp
  refine ⟨fun file y owns => ?_, free_setLocks free ?_, fun y held => ?_⟩
  · change s.shared.handle file ≠ .closed
    rcases owns_of_setLocks owns with ⟨rfl, owner⟩ | ⟨_, owns⟩
    · rcases LockProtocol.callStep_tLocks stepped with same | freed | ⟨file', kind, waits, taken⟩
      · rw [same] at owner
        exact owners file y ⟨si, here, owner⟩
      · rw [freed] at owner
        cases owner
      · rw [taken] at owner
        cases owner
        obtain ⟨z, open_⟩ := opened file (by rw [waits]; rfl)
        rw [open_]
        nofun
    · exact owners file y owns
  · rcases LockProtocol.callStep_tLocks stepped with same | freed | ⟨file', kind, waits, taken⟩
    · rw [same]
      exact free x si here
    · rw [freed]
      rfl
    · rw [taken]
      rfl
  · obtain ⟨u, file, inside, closing⟩ := openClose y held
    refine ⟨u, file, inside, ?_⟩
    have other : u ≠ t := by
      rintro rfl
      exact quiet file y inside closing
    exact (Function.update_of_ne other _ _).trans closing

/-- A release that gets its lock. -/
theorem Placed.enter (placed : Placed s) {file : Handle} {x : ι} (inside : Bool)
    (opened : s.shared.handle file = .opened x) (free : s.shared.openClose x = false)
    (unused : ∀ u, (s.place u).handle ≠ some file) :
    Placed ⟨(s.shared.setOpenClose x true).setHandle file (.closing x),
      Function.update s.place t (.closing file x inside)⟩ := by
  -- nobody else is in a release of the file
  have alone {u : Fin n} {file' : Handle} {inside' : Bool} :
      s.place u ≠ .closing file' x inside' := by
    intro here
    rw [(placed.closing u file' x inside' here).2] at free
    cases free
  refine ⟨fun u y pc here => ?_, fun u y pc file' here handle => ?_,
    fun u file' y inside' here => ?_, ?_⟩
  · rcases Threads.update_cases here with ⟨_, same⟩ | ⟨_, there⟩
    · cases same
    · exact placed.busy u y pc there
  · rcases Threads.update_cases here with ⟨_, same⟩ | ⟨_, there⟩
    · cases same
    · have other : file' ≠ file := by
        rintro rfl
        refine unused u ?_
        rw [there]
        exact handle
      obtain ⟨z, same⟩ := placed.calls u y pc file' there handle
      exact ⟨z, (Function.update_of_ne other _ _).trans same⟩
  · rcases Threads.update_cases here with ⟨_, same⟩ | ⟨_, there⟩
    · cases same
      exact ⟨Function.update_self .., Function.update_self ..⟩
    · obtain ⟨closing, held⟩ := placed.closing u file' y inside' there
      have other : file' ≠ file := by
        rintro rfl
        rw [opened] at closing
        cases closing
      have apart : y ≠ x := by
        rintro rfl
        exact alone there
      exact ⟨(Function.update_of_ne other _ _).trans closing,
        (Function.update_of_ne apart _ _).trans held⟩
  · intro u v first second y inside₁ inside₂ here there
    rcases Threads.update_cases here with ⟨mover, same⟩ | ⟨_, here⟩
    · rcases Threads.update_cases there with ⟨mover', _⟩ | ⟨_, there⟩
      · rw [mover, mover']
      · cases same
        exact absurd there alone
    · rcases Threads.update_cases there with ⟨_, same⟩ | ⟨_, there⟩
      · cases same
        exact absurd here alone
      · exact placed.one u v first second y inside₁ inside₂ here there

omit [DecidableEq ι] in
/-- A thread leaves a release, with or without the lock. -/
theorem Placed.leave (placed : Placed s) {file : Handle} {x : ι} {inside : Bool}
    {sh : Shared n ι} (here : s.place t = .closing file x inside)
    (handle : sh.handle = Function.update s.shared.handle file .closed)
    (openClose : ∀ y ≠ x, sh.openClose y = s.shared.openClose y) :
    Placed ⟨sh, Function.update s.place t .idle⟩ := by
  have closing := (placed.closing t file x inside here).1
  have others {u : Fin n} {p : Place ι} (there : Function.update s.place t .idle u = p)
      (other : p ≠ .idle) : u ≠ t ∧ s.place u = p := by
    rcases Threads.update_cases there with ⟨_, same⟩ | stays
    · exact absurd same.symm other
    · exact stays
  refine ⟨fun u y pc there => placed.busy u y pc (others there nofun).2,
    fun u y pc file' there used => ?_, fun u file' y inside' there => ?_, ?_⟩
  · obtain ⟨_, there⟩ := others there nofun
    obtain ⟨z, opened⟩ := placed.calls u y pc file' there used
    have other : file' ≠ file := by
      rintro rfl
      rw [closing] at opened
      cases opened
    refine ⟨z, ?_⟩
    dsimp only
    rw [handle, Function.update_of_ne other, opened]
  · obtain ⟨mover, there⟩ := others there nofun
    obtain ⟨closing', locked⟩ := placed.closing u file' y inside' there
    have apart : y ≠ x := by
      rintro rfl
      exact mover (placed.one u t file' file y inside' inside there here)
    have other : file' ≠ file := by
      rintro rfl
      rw [closing] at closing'
      cases closing'
      exact apart rfl
    dsimp only
    rw [handle, Function.update_of_ne other, openClose y apart]
    exact ⟨closing', locked⟩
  · intro u v first second y inside₁ inside₂ there there'
    exact placed.one u v first second y inside₁ inside₂ (others there nofun).2
      (others there' nofun).2

/-- The locks that the handle still owns have to go away with their `scorw_inode`. -/
theorem givenUp_release_iff (givenUp : GivenUp s) {file : Handle} {x : ι}
    {inside : Bool} {gone : ι → Bool} {sh : Shared n ι}
    (here : s.place t = .closing file x inside) (handle : sh.handle = s.shared.handle)
    (openClose : sh.openClose = s.shared.openClose) (free : sh.Free)
    (owners : ∀ file y, sh.Owns file y → s.shared.Owns file y) :
    GivenUp ⟨((sh.putInode gone).setOpenClose x false).setHandle file .closed,
        Function.update s.place t .idle⟩ ↔
      ∀ y, sh.Owns file y → gone y = true := by
  constructor
  · intro after y owns
    rw [← Bool.not_eq_false]
    intro stays
    exact after.owners file y (owns_putInode_iff.mpr ⟨stays, owns⟩) (Function.update_self ..)
  · intro leaves
    refine ⟨fun file' y owns => ?_, free_putInode free, fun y held => ?_⟩
    · obtain ⟨stays, owned⟩ := owns_putInode_iff.mp owns
      have other : file' ≠ file := by
        rintro rfl
        rw [leaves y owned] at stays
        cases stays
      have still := givenUp.owners file' y (owners file' y owned)
      rw [← handle] at still
      exact fun closed => still ((Function.update_of_ne other _ _).symm.trans closed)
    · have other : y ≠ x := by
        rintro rfl
        have free : Function.update sh.openClose y false y = true := held
        rw [Function.update_self] at free
        cases free
      have locked : s.shared.openClose y = true := by
        have held : Function.update sh.openClose x false y = true := held
        rwa [Function.update_of_ne other, openClose] at held
      obtain ⟨u, file', inside', closing⟩ := givenUp.openClose y locked
      have mover : u ≠ t := by
        rintro rfl
        rw [here] at closing
        cases closing
        exact other rfl
      exact ⟨u, file', inside', (Function.update_of_ne mover _ _).trans closing⟩

omit [DecidableEq ι] in
/-- A release that fails keeps its lock. -/
theorem not_givenUp_of_failed (placed : Placed s) {file : Handle} {x : ι} {inside : Bool}
    {sh : Shared n ι} (here : s.place t = .closing file x inside)
    (openClose : sh.openClose = s.shared.openClose) :
    ¬ GivenUp ⟨sh, Function.update s.place t .idle⟩ := by
  intro after
  have held : sh.openClose x = true := openClose ▸ (placed.closing t file x inside here).2
  obtain ⟨u, file', inside', there⟩ := after.openClose x held
  rcases Threads.update_cases there with ⟨_, same⟩ | ⟨mover, there⟩
  · cases same
  · exact mover (placed.one u t file' file x inside' inside there here)

/-! ## What a step can do -/

/-- The steps, with what holds before them. -/
inductive Takes (s : System n ι) : Act n ι → System n ι → Prop
  | call {t m x si r pc pc' locks place} :
      (s.place t = .idle ∧ pc = .idle ∧ s.shared.target m = some x) ∨ s.place t = .call x pc →
      s.shared.scorwInode x = some si → callStep t si.locks pc m = some (r, pc', locks) →
      (place = .idle ∨ place = .call x pc' ∧ pc' ≠ .idle) →
      Takes s (.call t m) ⟨s.shared.setLocks x locks, Function.update s.place t place⟩
  | closes {t file x} : s.place t = .idle → (∀ u, (s.place u).handle ≠ some file) →
      s.shared.handle file = .opened x → s.shared.scorwInode x = none →
      Takes s (.close t file)
        ⟨s.shared.setHandle file .closed, Function.update s.place t .idle⟩
  | enters {t file x si inside} : s.place t = .idle → (∀ u, (s.place u).handle ≠ some file) →
      s.shared.handle file = .opened x → s.shared.scorwInode x = some si →
      s.shared.openClose x = false → Takes s (.close t file)
        ⟨(s.shared.setOpenClose x true).setHandle file (.closing x),
          Function.update s.place t (.closing file x inside)⟩
  | fails {t gone file x sh} : s.place t = .closing file x true →
      (∀ si, s.shared.scorwInode x = some si → ¬ si.locks.tLocks.OwnedBy file) →
      sh.handle = Function.update s.shared.handle file .closed →
      sh.openClose = s.shared.openClose →
      Takes s (.release t gone) ⟨sh, Function.update s.place t .idle⟩
  | givesUp {t gone file x si locks} : s.place t = .closing file x true →
      s.shared.scorwInode x = some si → si.locks.tLocks.OwnedBy file →
      locks.tLocks = ⟨false, none, .unset⟩ → Takes s (.release t gone)
        ⟨(((s.shared.setLocks x locks).putInode gone).setOpenClose x false).setHandle file .closed,
          Function.update s.place t .idle⟩
  | puts {t gone file x} : s.place t = .closing file x false → Takes s (.release t gone)
        ⟨((s.shared.putInode gone).setOpenClose x false).setHandle file .closed,
          Function.update s.place t .idle⟩
  | opens {file x} : s.shared.handle file = .closed → Takes s (.openFile file x)
      { s with shared := s.shared.setHandle file (.opened x) }
  | attach {x par version} : Takes s (.attach x par version) { s with shared := { s.shared with
      scorwInode := Function.update s.shared.scorwInode x (some ⟨par, ⟨.init, version, []⟩⟩) } }
  | put {gone} : Takes s (.put gone) { s with shared := s.shared.putInode gone }

/-- The lock is given up if the handle owns it, and else there is an error. -/
theorem transactionError_cases (sh : Shared n ι) (x : ι) (file : Handle) :
    (∃ si locks, sh.scorwInode x = some si ∧ si.locks.tLocks.OwnedBy file ∧
      locks.tLocks = ⟨false, none, .unset⟩ ∧
      sh.transactionError x file = (0, sh.setLocks x locks)) ∨
    ∃ err sh', (∀ si, sh.scorwInode x = some si → ¬ si.locks.tLocks.OwnedBy file) ∧ err ≠ 0 ∧
      sh.transactionError x file = (err, sh') ∧ sh'.handle = sh.handle ∧
      sh'.openClose = sh.openClose := by
  unfold Shared.transactionError
  cases attached : sh.scorwInode x with
  | none => exact .inr ⟨einval, sh, nofun, by decide, rfl, rfl, rfl⟩
  | some si =>
      by_cases owned : si.locks.tLocks.OwnedBy file
      · have given := setTransactionError_of_owned owned
        refine .inl ⟨si, ⟨⟨false, none, .unset⟩, si.locks.version,
          si.locks.sections.erase (.transaction file)⟩, rfl, owned, rfl, ?_⟩
        simp only [given, if_true]
      · have refused : setTransactionError si.locks.tLocks file = (eperm, si.locks.tLocks) := by
          unfold setTransactionError
          by_cases locked : si.locks.tLocks.locked = false
          · rw [if_pos locked]
          · rw [if_neg locked, if_pos]
            exact fun owner => owned ⟨by simpa using locked, owner⟩
        refine .inr ⟨eperm, sh.setLocks x si.locks, ?_, by decide, ?_, rfl, rfl⟩
        · intro si' same
          cases same
          exact owned
        · simp only [refused]
          rw [if_neg (by decide)]

theorem takes_enterRelease {file : Handle} {ret : Int} {place : Place ι} {sh : Shared n ι}
    (idle : s.place t = .idle) (unused : ∀ u, (s.place u).handle ≠ some file)
    (entered : s.shared.enterRelease file = some (ret, place, sh)) :
    Takes s (.close t file) ⟨sh, Function.update s.place t place⟩ := by
  unfold Shared.enterRelease at entered
  split at entered
  case h_1 x opened =>
    split at entered
    case h_1 none_ =>
      cases entered
      exact .closes idle unused opened none_
    case h_2 si here =>
      split at entered
      case isTrue => cases entered
      case isFalse free =>
        cases entered
        exact .enters idle unused opened here (Bool.eq_false_iff.mpr free)
  case h_2 | h_3 => cases entered

theorem takes_finishRelease {file : Handle} {x : ι} {inside : Bool} (gone : ι → Bool)
    (here : s.place t = .closing file x inside) :
    Takes s (.release t gone)
      ⟨(s.shared.finishRelease file x inside gone).2, Function.update s.place t .idle⟩ := by
  unfold Shared.finishRelease
  cases inside with
  | false => exact .puts here
  | true =>
      rcases transactionError_cases s.shared x file with
        ⟨si, locks, attached, owned, freed, same⟩ | ⟨err, sh, missing, failed, same, handle, held⟩
      · simp only [if_true, same, ne_eq, not_true_eq_false, if_false]
        exact .givesUp here attached owned freed
      · simp only [if_true, same, ne_eq, failed, not_false_eq_true]
        refine .fails here missing ?_ held
        rw [← handle]
        rfl

theorem takes_of_step {act : Act n ι} {reply : Int} (taken : step s act = some (reply, s')) :
    Takes s act s' := by
  unfold step at taken
  split at taken
  case h_1 u m =>
    split at taken
    case h_1 here =>
      obtain ⟨x, found, taken⟩ := Option.bind_eq_some_iff.mp taken
      obtain ⟨⟨ret, place, sh⟩, moved, same⟩ := Option.map_eq_some_iff.mp taken
      cases same
      obtain ⟨si, r, pc', locks, attached, stepped, rfl, goes⟩ := callOn_cases moved
      exact .call (.inl ⟨here, rfl, found⟩) attached stepped goes
    case h_2 x pc here =>
      obtain ⟨⟨ret, place, sh⟩, moved, same⟩ := Option.map_eq_some_iff.mp taken
      cases same
      obtain ⟨si, r, pc', locks, attached, stepped, rfl, goes⟩ := callOn_cases moved
      exact .call (.inr here) attached stepped goes
    case h_3 => cases taken
  case h_2 u file =>
    split at taken
    case isTrue free =>
      obtain ⟨⟨ret, place, sh⟩, entered, same⟩ := Option.map_eq_some_iff.mp taken
      cases same
      exact takes_enterRelease free.1 free.2 entered
    case isFalse => cases taken
  case h_3 u gone =>
    split at taken
    case h_1 file x inside here =>
      cases taken
      exact takes_finishRelease gone here
    case h_2 | h_3 => cases taken
  case h_4 file x =>
    split at taken
    case isTrue closed =>
      cases taken
      exact .opens closed
    case isFalse => cases taken
  case h_5 x par version =>
    split at taken
    case isTrue => cases taken
    case isFalse =>
      cases taken
      exact .attach
  case h_6 gone =>
    cases taken
    exact .put

/-! ## Runs -/

omit [DecidableEq ι] in
/-- The handle of the call a thread is in is open. -/
theorem Placed.opened (placed : Placed s) {m : LockProtocol.Move} {x : ι} {pc : LockProtocol.Pc}
    (before : (s.place t = .idle ∧ pc = .idle ∧ s.shared.target m = some x) ∨
      s.place t = .call x pc) {file : Handle} (used : pc.handle = some file) :
    ∃ y, s.shared.handle file = .opened y := by
  rcases before with ⟨_, rfl, _⟩ | here
  · cases used
  · exact placed.calls t x pc file here used

omit [DecidableEq ι] in
/-- The handle that changes is not used by a thread. -/
theorem Placed.setHandle (placed : Placed s) {file : Handle} {state : HandleState ι}
    (unused : ∀ u, (s.place u).handle ≠ some file) :
    Placed { s with shared := s.shared.setHandle file state } := by
  have other {u : Fin n} {file' : Handle} (used : (s.place u).handle = some file') :
      file' ≠ file := by
    rintro rfl
    exact unused u used
  refine ⟨placed.busy, fun u x pc file' here used => ?_, fun u file' x inside here => ?_,
    placed.one⟩
  · obtain ⟨y, opened⟩ := placed.calls u x pc file' here used
    refine ⟨y, (Function.update_of_ne (other (u := u) ?_) _ _).trans opened⟩
    rw [here]
    exact used
  · obtain ⟨closing, held⟩ := placed.closing u file' x inside here
    refine ⟨(Function.update_of_ne (other (u := u) ?_) _ _).trans closing, held⟩
    rw [here]
    rfl

omit [DecidableEq ι] in
/-- A handle that is closed is not used by a thread. -/
theorem Placed.unused (placed : Placed s) {file : Handle} (closed : s.shared.handle file = .closed)
    (u : Fin n) : (s.place u).handle ≠ some file := by
  intro used
  cases here : s.place u with
  | idle =>
      rw [here] at used
      cases used
  | call x pc =>
      rw [here] at used
      obtain ⟨y, opened⟩ := placed.calls u x pc file here used
      rw [closed] at opened
      cases opened
  | closing file' x inside =>
      rw [here] at used
      cases used
      have closing := (placed.closing u file x inside here).1
      rw [closed] at closing
      cases closing

theorem placed_takes {act : Act n ι} (placed : Placed s) (taken : Takes s act s') : Placed s' := by
  cases taken with
  | @call u m x si r pc pc' locks place before attached stepped goes =>
      refine placed.call (fun y pc₁ file called used => ?_) (fun y pc₁ called => ?_)
        (fun file y inside called => ?_)
      · rcases goes with rfl | ⟨rfl, _⟩
        · cases called
        · cases called
          rcases LockProtocol.callStep_handle stepped used with old | starts
          · exact placed.opened before old
          · rcases before with ⟨_, _, found⟩ | here
            · exact opened_of_target found starts
            · -- a call that is under way does not start another one
              exact absurd (idle_of_starts stepped starts) (placed.busy u x pc here)
      · rcases goes with rfl | ⟨rfl, busy⟩
        · cases called
        · cases called
          exact busy
      · rcases goes with rfl | ⟨rfl, _⟩ <;> cases called
  | @closes u file x idle unused opened none_ =>
      rw [← idle, Function.update_eq_self]
      exact placed.setHandle unused
  | @enters u file x si inside idle unused opened attached free =>
      exact placed.enter inside opened free unused
  | fails here _ handle openClose =>
      exact placed.leave here handle fun y _ => congrFun openClose y
  | givesUp here | puts here =>
      exact placed.leave here rfl fun y other => Function.update_of_ne other _ _
  | opens closed => exact placed.setHandle (placed.unused closed)
  | attach | put => exact ⟨placed.busy, placed.calls, placed.closing, placed.one⟩

/-- A step leaves no lock behind exactly when the release finds every lock of its handle. -/
theorem givenUp_takes_iff {act : Act n ι} (placed : Placed s) (givenUp : GivenUp s)
    (taken : Takes s act s') : GivenUp s' ↔ Abandons s act := by
  cases taken with
  | @call u m x si r pc pc' locks place before attached stepped goes =>
      refine iff_of_true (givenUp.call attached stepped (fun file used => ?_) ?_) trivial
      · exact placed.opened before used
      · intro file y inside here
        rcases before with ⟨idle, _⟩ | called
        · cases idle.symm.trans here
        · cases called.symm.trans here
  | @closes u file x idle unused opened none_ =>
      rw [← idle, Function.update_eq_self]
      constructor
      · intro after x' _ _ y owns
        exact after.owners file y owns (Function.update_self ..)
      · intro abandons
        refine ⟨fun file' y owns => ?_, givenUp.free, givenUp.openClose⟩
        have other : file' ≠ file := by
          rintro rfl
          exact abandons x opened none_ y owns
        have still := givenUp.owners file' y owns
        exact fun closed => still ((Function.update_of_ne other _ _).symm.trans closed)
  | @enters u file x si inside idle unused opened attached free =>
      refine iff_of_true ⟨fun file' y owns => ?_, givenUp.free, fun y held => ?_⟩ ?_
      · have still := givenUp.owners file' y owns
        change Function.update s.shared.handle file (.closing x) file' ≠ .closed
        rw [Function.update_apply]
        split
        · nofun
        · exact still
      · by_cases same : y = x
        · exact ⟨u, file, inside, same ▸ Function.update_self ..⟩
        · have locked : s.shared.openClose y = true :=
            (Function.update_of_ne same _ _).symm.trans held
          obtain ⟨v, file', inside', closing⟩ := givenUp.openClose y locked
          refine ⟨v, file', inside', (Function.update_of_ne ?_ _ _).trans closing⟩
          rintro rfl
          cases idle.symm.trans closing
      · intro x' opened' none_
        cases opened.symm.trans opened'
        cases attached.symm.trans none_
  | @fails u gone file x sh here missing handle openClose =>
      refine iff_of_false (not_givenUp_of_failed placed here openClose) fun abandons => ?_
      obtain ⟨si, attached, owner⟩ := (abandons file x true here).1 rfl
      refine missing si attached ⟨?_, owner⟩
      rw [givenUp.free x si attached, owner]
      rfl
  | @givesUp u gone file x si locks here attached owned freed =>
      have owns_after {f : Handle} {y : ι} (owns : (s.shared.setLocks x locks).Owns f y) :
          y ≠ x ∧ s.shared.Owns f y := by
        rcases owns_of_setLocks owns with ⟨_, owner⟩ | other
        · rw [freed] at owner
          cases owner
        · exact other
      have free : (s.shared.setLocks x locks).Free :=
        free_setLocks givenUp.free (by rw [freed]; rfl)
      rw [givenUp_release_iff givenUp here (by rfl) (by rfl) free
        fun _ _ owns => (owns_after owns).2]
      constructor
      · intro leaves file' x' inside' here'
        cases here.symm.trans here'
        refine ⟨fun _ => ⟨si, attached, owned.2⟩, fun y owns => ?_⟩
        by_cases same : y = x
        · exact .inr ⟨rfl, same⟩
        · exact .inl (leaves y (owns_setLocks_of_ne same owns))
      · intro abandons y owns
        obtain ⟨other, owned⟩ := owns_after owns
        rcases (abandons file x true here).2 y owned with leaves | ⟨_, same⟩
        · exact leaves
        · exact absurd same other
  | @puts u gone file x here =>
      rw [givenUp_release_iff givenUp here rfl rfl givenUp.free fun _ _ => id]
      constructor
      · intro leaves file' x' inside' here'
        cases here.symm.trans here'
        exact ⟨nofun, fun y owns => .inl (leaves y owns)⟩
      · intro abandons y owns
        rcases (abandons file x false here).2 y owns with leaves | ⟨inside, _⟩
        · exact leaves
        · cases inside
  | @opens file x closed =>
      refine iff_of_true ⟨fun file' y owns => ?_, givenUp.free, givenUp.openClose⟩ trivial
      have still := givenUp.owners file' y owns
      change Function.update s.shared.handle file (.opened x) file' ≠ .closed
      rw [Function.update_apply]
      split
      · nofun
      · exact still
  | @attach x par version =>
      refine iff_of_true ⟨fun file y owns => ?_, fun y si here => ?_, givenUp.openClose⟩ trivial
      · obtain ⟨si, here, owner⟩ := owns
        dsimp only at here
        by_cases same : y = x
        · rw [same, Function.update_self] at here
          cases here
          cases owner
        · rw [Function.update_of_ne same] at here
          exact givenUp.owners file y ⟨si, here, owner⟩
      · dsimp only at here
        by_cases same : y = x
        · rw [same, Function.update_self] at here
          cases here
          rfl
        · rw [Function.update_of_ne same] at here
          exact givenUp.free y si here
  | @put gone =>
      refine iff_of_true ⟨fun file y owns => ?_, free_putInode givenUp.free, givenUp.openClose⟩
        trivial
      exact givenUp.owners file y (owns_putInode_iff.mp owns).2

omit [DecidableEq ι] in
theorem placed_init : Placed (init : System n ι) := ⟨nofun, nofun, nofun, nofun⟩

omit [DecidableEq ι] in
theorem givenUp_init : GivenUp (init : System n ι) := by
  refine ⟨?_, nofun, nofun⟩
  rintro file x ⟨si, here, _⟩
  cases here

/-- However `BEGIN`, `END`, writes and closes follow each other, a handle that is released owns
no lock, the locks it had are free, and the release has given back its own, exactly in the runs
in which every release finds all locks of its handle. -/
theorem transaction_given_up_iff {acts : List (Act n ι)} :
    Run step (fun s _ => GivenUp s) init acts s ∧ GivenUp s ↔ Run step Abandons init acts s := by
  refine Run.exact_iff (Q := Placed) ?_ ?_ placed_init givenUp_init
  · intro s act r s' placed _ _ taken
    exact placed_takes placed (takes_of_step taken)
  · intro s act r s' placed givenUp taken
    exact givenUp_takes_iff placed givenUp (takes_of_step taken)

/-- A transaction that is begun on a child outlives its handle `5`: file `0` is the parent, which
handle `6` keeps attached, and file `1` the child. -/
theorem transaction_of_child_kept : ∃ s : System 1 (Fin 2),
    Run step (fun _ _ => True) init
      [.attach 0 none 1, .attach 1 (some 0) 1, .openFile 6 0, .openFile 5 1,
        .call 0 (.beginTransaction 5), .call 0 (.lock false), .close 0 5,
        .release 0 fun _ => false] s ∧
      s.shared.handle 5 = .closed ∧ ∃ si, s.shared.scorwInode 1 = some si ∧
        si.locks.tLocks = ⟨true, some 5, .setTransaction⟩ := by
  have computed : ((Run.exec step (fun _ _ => true) init
      [.attach 0 none 1, .attach 1 (some 0) 1, .openFile 6 0, .openFile 5 1,
        .call 0 (.beginTransaction 5), .call 0 (.lock false), .close 0 5,
        .release 0 fun _ => false]).any fun s : System 1 (Fin 2) =>
        decide (s.shared.handle 5 = .closed) && (s.shared.scorwInode 1).any fun si =>
          decide (si.locks.tLocks = ⟨true, some 5, .setTransaction⟩)) = true := by
    decide +kernel
  obtain ⟨s, run, last⟩ := Run.exists_of_exec (fun _ _ _ _ => trivial) computed
  obtain ⟨closed, kept⟩ := Bool.and_eq_true_iff.mp last
  obtain ⟨si, here, locks⟩ := (Option.any_eq_true _ _).mp kept
  exact ⟨s, run, of_decide_eq_true closed, si, here, of_decide_eq_true locks⟩

end Steps

end FlexClone.Scorw.Release
