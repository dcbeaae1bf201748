import FlexClone.Threads
import FlexClone.WaitsFor
import FlexClone.Scorw.LockMoves

/-!
# The inode lock and the transaction lock

`ext4_buffered_write_iter` takes the inode lock around the whole write, and inside
it the write takes the transaction lock, unless its handle already owns that one.
The owner of a transaction keeps the transaction lock from one call to the next, so
its own writes take the two locks in the other order.

Every thread has a handle of its own. A thread that owns the transaction lock waits
for the inode lock, and another thread has the inode lock and waits for the
transaction lock: that is the only way to a deadlock, and `Orderly` names the two
moves that lead to it.
-/

namespace FlexClone.Scorw.InodeLock

open LockProtocol (Pc Kind)

variable {n : Nat}

/-! ## Calls with the inode lock -/

/-- How a thread stands to the inode lock. -/
inductive Inode
  | out
  | waits
  | holds
  deriving DecidableEq

/-- Where a thread is: in which part of a call, and with the inode lock or not. -/
structure Place where
  pc : Pc
  inode : Inode
  deriving DecidableEq

/-- What the threads share. -/
structure Shared (n : Nat) extends LockProtocol.Shared n where
  inodeLock : Option (Fin n)

/-- What a thread can do next. -/
inductive Move
  /-- a write comes to its `inode_lock` -/
  | write
  | lockInode
  /-- a move of `BEGIN`, of `END`, or of the part of a write inside the inode lock -/
  | call (m : LockProtocol.Move)
  | close

/-- Calls are made on the handle of the thread. Only a write is inside the inode lock. -/
def Allowed (t : Fin n) (inode : Inode) : LockProtocol.Move → Prop
  | .beginTransaction file | .endTransaction file => file = t.val ∧ inode = .out
  | .write file => file = t.val ∧ inode = .holds
  | _ => True

instance (t : Fin n) (inode : Inode) : (m : LockProtocol.Move) → Decidable (Allowed t inode m)
  | .beginTransaction _ | .endTransaction _ | .write _ => inferInstanceAs (Decidable (_ ∧ _))
  | .lock _ | .log _ | .unlock | .release | .data _ => inferInstanceAs (Decidable True)

/-- One move of thread `t`. A write that returns unlocks the inode. -/
def move (t : Fin n) (sh : Shared n) (place : Place) :
    Move → Option (Option Int × Place × Shared n)
  | .write => if place = ⟨.idle, .out⟩ then some (none, ⟨.idle, .waits⟩, sh) else none
  | .lockInode =>
      if place.inode = .waits ∧ sh.inodeLock = none then
        some (none, ⟨place.pc, .holds⟩, { sh with inodeLock := some t })
      else none
  | .call m =>
      if Allowed t place.inode m then
        (LockProtocol.callStep t sh.toShared place.pc m).map fun moved =>
          if moved.1.isSome ∧ place.inode = .holds then
            (moved.1, ⟨moved.2.1, .out⟩, ⟨moved.2.2, none⟩)
          else (moved.1, ⟨moved.2.1, place.inode⟩, ⟨moved.2.2, sh.inodeLock⟩)
      else none
  | .close =>
      if place = ⟨.idle, .out⟩ then
        some (some 0, place, ⟨LockProtocol.releaseFile sh.toShared t.val, sh.inodeLock⟩)
      else none

abbrev System (n : Nat) := Threads (Fin n) (Shared n) Place

def step (s : System n) (a : Fin n × Move) : Option (Option Int × System n) :=
  Threads.step move s a.1 a.2

/-- The parent is attached and no call is under way. -/
def System.init (n version : Nat) : System n :=
  ⟨⟨⟨.init, version, []⟩, none⟩, fun _ => ⟨.idle, .out⟩⟩

variable {s : System n} {sh : LockProtocol.Shared n} {t : Fin n} {m : LockProtocol.Move}
  {ret : Option Int}

/-! ## Holding and waiting -/

inductive Lock
  | inode
  | transaction
  deriving DecidableEq

/-- The handle of the thread owns the transaction lock. -/
def Owns (s : System n) (t : Fin n) : Prop := s.shared.tLocks.OwnedBy t.val

instance (s : System n) (t : Fin n) : Decidable (Owns s t) :=
  inferInstanceAs (Decidable (TransactionLocks.OwnedBy _ _))

/-- The thread holds the lock. -/
def Holds (s : System n) (t : Fin n) : Lock → Prop
  | .inode => s.shared.inodeLock = some t
  | .transaction => Owns s t

/-- The lock the thread waits for. -/
def wants (s : System n) (t : Fin n) : Option Lock :=
  if (s.place t).inode = .waits then some .inode
  else
    match (s.place t).pc with
    | .locking _ _ => some .transaction
    | _ => none

/-- The thread holds the inode lock for a write that has not come past the
transaction lock yet. -/
def Place.NeedsLock (place : Place) : Prop :=
  place.inode = .holds ∧
    match place.pc with
    | .idle | .locking _ _ => True
    | _ => False

instance (place : Place) : Decidable place.NeedsLock := by
  unfold Place.NeedsLock
  cases place.pc
  all_goals
    dsimp only
    infer_instance

/-- The side condition of a move. A thread that owns the transaction lock starts a
write only while no other write has the inode lock and still has to get the
transaction lock; and a write takes the inode lock only while no other thread that
owns the transaction lock waits for it. -/
def Orderly (s : System n) : Fin n × Move → Prop
  | (t, .write) => Owns s t → ∀ h, ¬ (s.place h).NeedsLock
  | (t, .lockInode) => ∀ u, u ≠ t → Owns s u → (s.place u).inode ≠ .waits
  | _ => True

instance (s : System n) : (a : Fin n × Move) → Decidable (Orderly s a)
  | (_, .write) => inferInstanceAs (Decidable (_ → _))
  | (_, .lockInode) => inferInstanceAs (Decidable (∀ _, _))
  | (_, .call _) | (_, .close) => inferInstanceAs (Decidable True)

/-! ## What an orderly run keeps -/

/-- Who holds and who waits is as the places say, calls are made on the thread's
handle, and the owner of the transaction lock does not wait for a write that waits
for it. -/
structure Sound (s : System n) : Prop where
  holder : ∀ t, (s.place t).inode = .holds ↔ s.shared.inodeLock = some t
  waiting : ∀ t, (s.place t).inode = .waits → (s.place t).pc = .idle
  own : ∀ t file, (s.place t).pc.handle = some file → file = t.val
  apart : ∀ u h, Owns s u → (s.place u).inode = .waits → ¬ (s.place h).NeedsLock

theorem sound_init (version : Nat) : Sound (System.init n version) :=
  ⟨fun _ => ⟨nofun, nofun⟩, fun _ => nofun, fun _ _ => nofun, fun _ _ => nofun⟩

/-- A thread comes to own the lock by waiting for it. -/
theorem ownedBy_of_move {sh' : LockProtocol.Shared n} {pc pc' : Pc} {file : Handle}
    (moved : LockProtocol.callStep t sh pc m = some (ret, pc', sh'))
    (owned : sh'.tLocks.OwnedBy file) :
    sh.tLocks.OwnedBy file ∨ ∃ kind, pc = .locking file kind := by
  rcases LockProtocol.callStep_tLocks moved with same | free | ⟨owner, kind, waits, taken⟩
  · rw [same] at owned
    exact .inl owned
  · rw [free] at owned
    cases owned.1
  · rw [taken] at owned
    obtain rfl := Option.some.inj owned.2
    exact .inr ⟨kind, waits⟩

theorem ownedBy_of_releaseFile {closed file : Handle}
    (owned : (LockProtocol.releaseFile sh closed).tLocks.OwnedBy file) :
    sh.tLocks.OwnedBy file := by
  unfold LockProtocol.releaseFile at owned
  split at owned
  · cases owned.1
  · exact owned

/-- A thread that waits for the inode lock is not in a call. -/
theorem not_called_while_waits (allowed : Allowed t .waits m) :
    LockProtocol.callStep t sh .idle m = none := by
  cases m with
  | beginTransaction | endTransaction | write => cases allowed.2
  | lock | log | unlock | release | data => rfl

/-- What a move of thread `t` has to show: about its own new place, and that it
gives neither lock to another thread. -/
theorem Sound.update {sh : Shared n} {place : Place} (sound : Sound s)
    (holder : place.inode = .holds ↔ sh.inodeLock = some t)
    (others : ∀ u, u ≠ t → (s.shared.inodeLock = some u ↔ sh.inodeLock = some u))
    (waiting : place.inode = .waits → place.pc = .idle)
    (own : ∀ file, place.pc.handle = some file → file = t.val)
    (owns : ∀ u, u ≠ t → sh.tLocks.OwnedBy u.val → Owns s u)
    (waits : sh.tLocks.OwnedBy t.val → place.inode = .waits → ∀ h, ¬ (s.place h).NeedsLock)
    (needs : place.NeedsLock → ∀ u, u ≠ t → Owns s u → (s.place u).inode ≠ .waits) :
    Sound ⟨sh, Function.update s.place t place⟩ := by
  refine ⟨?_, ?_, ?_, ?_⟩
  · exact (Function.forall_update_iff s.place
      fun u p => p.inode = .holds ↔ sh.inodeLock = some u).mpr
      ⟨holder, fun u other => (sound.holder u).trans (others u other)⟩
  · exact (Function.forall_update_iff s.place fun _ p => p.inode = .waits → p.pc = .idle).mpr
      ⟨waiting, fun u _ => sound.waiting u⟩
  · exact (Function.forall_update_iff s.place
      fun u p => ∀ file, p.pc.handle = some file → file = u.val).mpr
      ⟨own, fun u _ => sound.own u⟩
  · -- the owner may be the thread that moved, and so may the write
    intro u h owned outside needed
    change (Function.update s.place t place u).inode = .waits at outside
    change (Function.update s.place t place h).NeedsLock at needed
    by_cases mover : u = t
    · subst mover
      rw [Function.update_self] at outside
      by_cases itself : h = u
      · subst itself
        rw [Function.update_self] at needed
        cases outside.symm.trans needed.1
      · rw [Function.update_of_ne itself] at needed
        exact waits owned outside h needed
    · rw [Function.update_of_ne mover] at outside
      have owned' := owns u mover owned
      by_cases itself : h = t
      · subst itself
        rw [Function.update_self] at needed
        exact needs needed u mover owned' outside
      · rw [Function.update_of_ne itself] at needed
        exact sound.apart u h owned' outside needed

/-- A thread that is not inside the inode lock and does not hold it. -/
theorem Sound.not_holder (sound : Sound s) (outside : (s.place t).inode ≠ .holds) :
    s.shared.inodeLock ≠ some t :=
  fun held => outside ((sound.holder t).mpr held)

theorem Sound.call {pc : Pc} (sound : Sound s) (allowed : Allowed t (s.place t).inode m)
    (moved : LockProtocol.callStep t s.shared.toShared (s.place t).pc m = some (ret, pc, sh)) :
    (s.place t).inode ≠ .waits ∧ (∀ file, pc.handle = some file → file = t.val) ∧
      ∀ u, u ≠ t → sh.tLocks.OwnedBy u.val → Owns s u := by
  refine ⟨?_, ?_, ?_⟩
  · intro waits
    rw [waits] at allowed
    rw [sound.waiting t waits, not_called_while_waits allowed] at moved
    cases moved
  · intro file after
    rcases LockProtocol.callStep_handle moved after with before | rfl | rfl | rfl
    · exact sound.own t file before
    · exact allowed.1
    · exact allowed.1
    · exact allowed.1
  · intro u other owned
    rcases ownedBy_of_move moved owned with before | ⟨kind, waits⟩
    · exact before
    · exact absurd (Fin.ext (sound.own t u.val (by rw [waits]; rfl))) other

/-- A write that has not come past the transaction lock had not before the move. -/
theorem needsLock_of_call {sh' : LockProtocol.Shared n} {place : Place} {pc : Pc}
    (moved : LockProtocol.callStep t sh place.pc m = some (ret, pc, sh'))
    (goes_on : ¬ (ret.isSome = true ∧ place.inode = .holds))
    (needed : (⟨pc, place.inode⟩ : Place).NeedsLock) : place.NeedsLock := by
  obtain ⟨holds, before⟩ := needed
  have silent : ret = none := by
    cases ret with
    | none => rfl
    | some value => exact absurd ⟨rfl, holds⟩ goes_on
  subst silent
  obtain ⟨not_idle, from_idle⟩ := LockProtocol.callStep_goesOn moved
  cases pc with
  | idle => exact absurd rfl not_idle
  | locking file kind =>
      refine ⟨holds, ?_⟩
      rw [from_idle file kind rfl]
      trivial
  | writing | unlocking | releasing | copying => exact before.elim

theorem Sound.step {s' : System n} {a : Fin n × Move} (sound : Sound s) (orderly : Orderly s a)
    (taken : step s a = some (ret, s')) : Sound s' := by
  obtain ⟨t, m⟩ := a
  obtain ⟨place, sh, moved, rfl⟩ := Threads.step_eq_some taken
  cases m with
  | write =>
      dsimp only [move] at moved
      split at moved
      case isFalse => cases moved
      case isTrue here =>
        cases moved
        have outside : (s.place t).inode ≠ .holds := by rw [here]; nofun
        exact sound.update ⟨nofun, fun held => absurd held (sound.not_holder outside)⟩
          (fun _ _ => Iff.rfl) (fun _ => rfl) nofun (fun _ _ owned => owned)
          (fun owned _ => orderly owned) (fun needed => Inode.noConfusion needed.1)
  | lockInode =>
      dsimp only [move] at moved
      split at moved
      case isFalse => cases moved
      case isTrue here =>
        obtain ⟨waits, free⟩ := here
        cases moved
        refine sound.update ⟨fun _ => rfl, fun _ => rfl⟩ ?_ nofun (sound.own t)
          (fun _ _ owned => owned) nofun (fun _ => orderly)
        intro u other
        rw [free]
        exact ⟨nofun, fun same => absurd (Option.some.inj same).symm other⟩
  | call m =>
      dsimp only [move] at moved
      split at moved
      case isFalse => cases moved
      case isTrue allowed =>
        obtain ⟨⟨ret', pc, after⟩, called, same⟩ := Option.map_eq_some_iff.mp moved
        obtain ⟨not_waits, own, owns⟩ := sound.call allowed called
        dsimp only at same
        split at same
        case isTrue returned =>
          cases same
          refine sound.update ⟨nofun, nofun⟩ ?_ nofun own owns nofun
            (fun needed => Inode.noConfusion needed.1)
          intro u other
          rw [(sound.holder t).mp returned.2]
          exact ⟨fun same => absurd (Option.some.inj same).symm other, nofun⟩
        case isFalse goes_on =>
          cases same
          refine sound.update (sound.holder t) (fun _ _ => Iff.rfl)
            (fun waits => absurd waits not_waits) own owns
            (fun _ waits => absurd waits not_waits) ?_
          intro needed u other owned waits
          exact sound.apart u t owned waits (needsLock_of_call called goes_on needed)
  | close =>
      dsimp only [move] at moved
      split at moved
      case isFalse => cases moved
      case isTrue here =>
        cases moved
        have outside : (s.place t).inode = .out := by rw [here]
        exact sound.update (sound.holder t) (fun _ _ => Iff.rfl) (sound.waiting t) (sound.own t)
          (fun _ _ owned => ownedBy_of_releaseFile owned)
          (fun _ waits => Inode.noConfusion (outside.symm.trans waits))
          (fun needed => Inode.noConfusion (outside.symm.trans needed.1))

/-! ## No deadlock -/

theorem holds_exclusive (s : System n) (t u : Fin n) (k : Lock) (first : Holds s t k)
    (second : Holds s u k) : t = u := by
  cases k with
  | inode => exact Option.some.inj (first.symm.trans second)
  | transaction => exact Fin.ext (Option.some.inj (first.2.symm.trans second.2))

theorem wants_eq_inode (wanted : wants s t = some .inode) : (s.place t).inode = .waits := by
  unfold wants at wanted
  split at wanted
  case isTrue waits => exact waits
  case isFalse =>
    split at wanted
    · cases wanted
    · cases wanted

theorem wants_eq_transaction (wanted : wants s t = some .transaction)
    (holds : (s.place t).inode = .holds) : (s.place t).NeedsLock := by
  unfold wants at wanted
  split at wanted
  case isTrue => cases wanted
  case isFalse =>
    refine ⟨holds, ?_⟩
    split at wanted
    case h_1 locking =>
      rw [locking]
      trivial
    case h_2 => cases wanted

/-- In an orderly run no set of threads is deadlocked. Which lock ranks higher depends
on the state: as long as the owner of the transaction lock waits for the inode lock,
no write waits the other way. -/
theorem no_deadlock {version : Nat} {acts : List (Fin n × Move)} {s : System n}
    (run : Run step Orderly (System.init n version) acts s) (threads : Set (Fin n)) :
    ¬ Deadlocked (Holds s) (wants s) threads := by
  have sound : Sound s := run.invariant (P := Sound)
    (fun _ _ _ _ sound orderly taken => sound.step orderly taken) (sound_init version)
  by_cases clash : ∃ u, Owns s u ∧ (s.place u).inode = .waits
  · obtain ⟨u, owned, waits⟩ := clash
    refine not_deadlocked_of_rank (fun | .inode => 1 | .transaction => 0) (holds_exclusive s)
      ?_ threads
    intro t k wanted l held different
    cases k with
    | inode =>
        cases l with
        | inode => exact absurd rfl different
        | transaction => exact Nat.zero_lt_one
    | transaction =>
        cases l with
        | inode =>
            have needed := wants_eq_transaction wanted ((sound.holder t).mpr held)
            exact absurd needed (sound.apart u t owned waits)
        | transaction => exact absurd rfl different
  · refine not_deadlocked_of_rank (fun | .inode => 0 | .transaction => 1) (holds_exclusive s)
      ?_ threads
    intro t k wanted l held different
    cases k with
    | inode =>
        cases l with
        | inode => exact absurd rfl different
        | transaction => exact absurd ⟨t, held, wants_eq_inode wanted⟩ clash
    | transaction =>
        cases l with
        | inode => exact Nat.zero_lt_one
        | transaction => exact absurd rfl different

/-- A transaction with a write in it, while another thread waits for the transaction
lock in a `BEGIN`, and that thread's turn afterwards. -/
theorem no_deadlock_two_transactions :
    ∃ s : System 2, Run step Orderly (System.init 2 1)
        [(0, .call (.beginTransaction 0)), (0, .call (.lock false)),
          (1, .call (.beginTransaction 1)), (0, .write), (0, .lockInode), (0, .call (.write 0)),
          (0, .call (.log true)), (0, .call (.data 5)), (0, .call (.endTransaction 0)),
          (0, .call .release), (1, .call (.lock false)), (1, .write), (0, .write),
          (1, .lockInode)] s ∧
      Owns s 1 ∧ wants s 0 = some .inode ∧ ∀ threads, ¬ Deadlocked (Holds s) (wants s) threads := by
  refine Run.exists_imp (fun s a => decide (Orderly s a)) (fun _ _ _ => of_decide_eq_true)
    (Q := fun s => Owns s 1 ∧ wants s 0 = some .inode) (by decide +kernel) ?_
  intro s run ⟨owned, wanted⟩
  exact ⟨owned, wanted, no_deadlock run⟩

/-- One thread begins a transaction. Another one writes: it has the inode lock and
waits for the transaction lock. The first one writes: it waits for the inode lock. -/
theorem no_deadlock_fails :
    ∃ s : System 2, Run step (fun _ _ => True) (System.init 2 1)
        [(0, .call (.beginTransaction 0)), (0, .call (.lock false)), (1, .write),
          (1, .lockInode), (1, .call (.write 1)), (0, .write)] s ∧
      Deadlocked (Holds s) (wants s) Set.univ := by
  refine Run.exists_imp (fun _ _ => true) (fun _ _ _ _ => trivial)
    (Q := fun s => wants s 0 = some .inode ∧ s.shared.inodeLock = some 1 ∧
      wants s 1 = some .transaction ∧ Owns s 0) (by decide +kernel) ?_
  intro s _ ⟨first, held, second, owned⟩
  refine ⟨Set.univ_nonempty, ?_⟩
  intro t _
  match t with
  | 0 => exact ⟨1, Set.mem_univ _, nofun, .inode, first, held⟩
  | 1 => exact ⟨0, Set.mem_univ _, nofun, .transaction, second, owned⟩

end FlexClone.Scorw.InodeLock
