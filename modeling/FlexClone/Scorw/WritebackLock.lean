import FlexClone.Run
import FlexClone.Threads
import FlexClone.Scorw.Links

/-!
# The writeback lock of a parent

`filemap_fdatawrite_wbc` takes `i_vfs_inode_writeback_sync_lock` of a file that is a parent, so
that no child is created while the file is written back; `ext4_xattr_set` takes it to create
one. Whether the file is a parent is asked once before the lock is taken and once more, for
the release, after the pages are written. In between the call may return, if there is nothing
to write back, and children can be unlinked, or created if the lock is not taken.

`writeback_lock_paired_iff` says in which runs every call releases the lock exactly if it
acquired it.
-/

namespace FlexClone.Scorw.Writeback

/-- What `mapping_can_writeback` and `mapping_tagged` say about the pages of a file. -/
structure Mapping where
  canWriteback : Bool
  dirty : Bool
  deriving DecidableEq

/-- Where a thread is. `acquired` is whether it took the lock. -/
inductive Place (ι : Type*)
  | idle
  /-- `filemap_fdatawrite_wbc` waits for the lock -/
  | locking (x : ι)
  /-- before the pages of the file are looked at -/
  | tagged (x : ι) (acquired : Bool)
  /-- `do_writepages` is done -/
  | written (x : ι) (acquired : Bool)
  /-- `ext4_xattr_set` waits for the lock -/
  | cloneLocking (c p : ι)
  | cloning (c p : ι)
  | cloned (p : ι)
  deriving DecidableEq

/-- The file whose lock a thread has to give back. -/
def Place.held {ι : Type*} : Place ι → Option ι
  | .tagged x acquired | .written x acquired => if acquired then some x else none
  | .cloning _ p | .cloned p => some p
  | .idle | .locking _ | .cloneLocking _ _ => none

/-- What a call of `filemap_fdatawrite_wbc` did with the lock. -/
structure Return where
  acquired : Bool
  released : Bool
  deriving DecidableEq

structure Shared (τ ι : Type*) where
  links : Links.State ι
  /-- who has `i_vfs_inode_writeback_sync_lock` -/
  holder : ι → Option τ
  /-- the calls of `filemap_fdatawrite_wbc` that have returned, the last one first -/
  returns : List Return

inductive Move (ι : Type*)
  /-- `filemap_fdatawrite_wbc` is called -/
  | sync (x : ι)
  | lock
  /-- the call goes on to `do_writepages`, or returns -/
  | check (mapping : Mapping)
  /-- the rest of the call -/
  | finish
  /-- `SCORW_PARENT` is set in `c` -/
  | clone (c p : ι)
  | setParent (slotStored : Bool) (error : Int)
  | unlock
  /-- a child is unlinked, or a file attached, detached or resized -/
  | links (a : Links.Act ι)
  deriving DecidableEq

section Steps

/-! `ours` are the files of the file system of the module whose inode number is not 0. -/
variable {τ ι : Type*} [DecidableEq τ] [DecidableEq ι] (ours : ι → Bool)

/-- The test around both `mutex_lock` and `mutex_unlock`. -/
def Shared.isParInode (sh : Shared τ ι) (x : ι) : Bool := ours x && (sh.links x).isParFile true

/-- One move of a thread. -/
def move (t : τ) (sh : Shared τ ι) : Place ι → Move ι → Option (Int × Place ι × Shared τ ι)
  | .idle, .sync x => some (0, if sh.isParInode ours x then .locking x else .tagged x false, sh)
  | .locking x, .lock =>
      if sh.holder x = none then
        some (0, .tagged x true, { sh with holder := Function.update sh.holder x (some t) })
      else none
  | .tagged x acquired, .check mapping =>
      if mapping.canWriteback && mapping.dirty then some (0, .written x acquired, sh)
      else some (0, .idle, { sh with returns := ⟨acquired, false⟩ :: sh.returns })
  | .written x acquired, .finish =>
      if sh.isParInode ours x then
        some (0, .idle,
          { sh with
            holder := Function.update sh.holder x none
            returns := ⟨acquired, true⟩ :: sh.returns })
      else some (0, .idle, { sh with returns := ⟨acquired, false⟩ :: sh.returns })
  | .idle, .clone c p => some (0, .cloneLocking c p, sh)
  | .cloneLocking c p, .lock =>
      if sh.holder p = none then
        some (0, .cloning c p, { sh with holder := Function.update sh.holder p (some t) })
      else none
  | .cloning c p, .setParent slotStored error =>
      let r := sh.links.setParent c p slotStored error
      some (r.1, .cloned p, { sh with links := r.2 })
  | .cloned p, .unlock =>
      some (0, .idle, { sh with holder := Function.update sh.holder p none })
  | .idle, .links a =>
      match a with
      | .setParent _ _ _ _ => none
      | a => (Links.step sh.links a).map fun r => (r.1, .idle, { sh with links := r.2 })
  | _, _ => none

abbrev System (τ ι : Type*) := Threads τ (Shared τ ι) (Place ι)

def step (s : System τ ι) (act : τ × Move ι) : Option (Int × System τ ι) :=
  Threads.step (move ours) s act.1 act.2

/-- Nobody is at work. -/
def init (links : Links.State ι) : System τ ι := ⟨⟨links, fun _ => none, []⟩, fun _ => .idle⟩

/-! ## Who has the lock -/

/-- The lock of a file is with the thread that has to give it back. -/
def Owned (holder : ι → Option τ) (place : τ → Place ι) : Prop :=
  ∀ x t, holder x = some t ↔ (place t).held = some x

section Owners

variable {holder : ι → Option τ} {place : τ → Place ι} {t : τ} {p : Place ι}

omit [DecidableEq ι] in
theorem Owned.same (owned : Owned holder place) (same : p.held = (place t).held) :
    Owned holder (Function.update place t p) := by
  intro x u
  rw [owned x u]
  by_cases mover : u = t
  · rw [mover, Function.update_self, same]
  · rw [Function.update_of_ne mover]

theorem Owned.acquire (owned : Owned holder place) {x : ι} (free : holder x = none)
    (before : (place t).held = none) (after : p.held = some x) :
    Owned (Function.update holder x (some t)) (Function.update place t p) := by
  intro y u
  by_cases mover : u = t
  · subst mover
    rw [Function.update_self, after]
    by_cases here : y = x
    · rw [here, Function.update_self]
      exact iff_of_true rfl rfl
    · rw [Function.update_of_ne here, owned y u, before]
      exact iff_of_false nofun fun same => here (Option.some.inj same).symm
  · rw [Function.update_of_ne mover, ← owned y u]
    by_cases here : y = x
    · rw [here, Function.update_self, free]
      exact iff_of_false (fun same => mover (Option.some.inj same).symm) nofun
    · rw [Function.update_of_ne here]

theorem Owned.release (owned : Owned holder place) {x : ι} (before : (place t).held = some x)
    (after : p.held = none) :
    Owned (Function.update holder x none) (Function.update place t p) := by
  have holds := (owned x t).mpr before
  intro y u
  by_cases mover : u = t
  · subst mover
    rw [Function.update_self, after]
    refine iff_of_false (fun still => ?_) nofun
    by_cases here : y = x
    · rw [here, Function.update_self] at still
      cases still
    · rw [Function.update_of_ne here, owned y u, before] at still
      exact here (Option.some.inj still).symm
  · rw [Function.update_of_ne mover, ← owned y u]
    by_cases here : y = x
    · rw [here, Function.update_self, holds]
      exact iff_of_false nofun fun same => mover (Option.some.inj same).symm
    · rw [Function.update_of_ne here]

end Owners

/-! ## Calls that release what they acquired -/

/-- The calls that have returned released the lock exactly if they acquired it, and the lock is
with the calls that still have to release it. -/
structure Paired (s : System τ ι) : Prop where
  returns : ∀ r ∈ s.shared.returns, r.released = r.acquired
  owners : Owned s.shared.holder s.place

/-- A call that took the lock finds something to write back, and the file is a parent at the
end of a call exactly if it was one at its beginning. -/
def Steady (s : System τ ι) (act : τ × Move ι) : Prop :=
  match s.place act.1, act.2 with
  | .tagged _ acquired, .check mapping =>
      acquired = true → (mapping.canWriteback && mapping.dirty) = true
  | .written x acquired, .finish => s.shared.isParInode ours x = acquired
  | _, _ => True

omit [DecidableEq τ] [DecidableEq ι] in
theorem paired_init (links : Links.State ι) : Paired (init links : System τ ι) :=
  ⟨nofun, fun _ _ => iff_of_false nofun nofun⟩

/-- A call returns. -/
theorem returns_cons_iff {returns : List Return} (paired : ∀ r ∈ returns, r.released = r.acquired)
    (acquired released : Bool) :
    (∀ r ∈ (⟨acquired, released⟩ : Return) :: returns, r.released = r.acquired) ↔
      released = acquired := by
  rw [List.forall_mem_cons]
  exact and_iff_left paired

variable {ours} {s s' : System τ ι} {act : τ × Move ι} {reply : Int}

/-- A step keeps the calls paired exactly when it is steady. -/
theorem paired_step_iff (paired : Paired s) (taken : step ours s act = some (reply, s')) :
    Paired s' ↔ Steady ours s act := by
  obtain ⟨t, m⟩ := act
  obtain ⟨place, shared, moved, rfl⟩ := Threads.step_eq_some taken
  obtain ⟨returns, owners⟩ := paired
  unfold Steady
  unfold move at moved
  dsimp only at moved ⊢
  split at moved
  case h_1 x here =>
    cases moved
    rw [here]
    refine iff_of_true ⟨returns, owners.same ?_⟩ trivial
    rw [here]
    split <;> rfl
  case h_2 x here =>
    split at moved
    case isTrue free =>
      cases moved
      rw [here]
      exact iff_of_true ⟨returns, owners.acquire free (by rw [here]; rfl) rfl⟩ trivial
    case isFalse => cases moved
  case h_3 x acquired mapping here =>
    rw [here]
    dsimp only
    split at moved
    case isTrue work =>
      cases moved
      refine iff_of_true ⟨returns, owners.same ?_⟩ fun _ => work
      rw [here]
      rfl
    case isFalse clean =>
      cases moved
      constructor
      · rintro ⟨after, _⟩ rfl
        cases (returns_cons_iff returns true false).mp after
      · intro steady
        have missed : acquired = false := Bool.eq_false_iff.mpr fun took => clean (steady took)
        subst missed
        refine ⟨(returns_cons_iff returns false false).mpr rfl, owners.same ?_⟩
        rw [here]
        rfl
  case h_4 x acquired here =>
    rw [here]
    dsimp only
    split at moved
    case isTrue par =>
      cases moved
      rw [par]
      constructor
      · rintro ⟨after, _⟩
        exact (returns_cons_iff returns acquired true).mp after
      · rintro rfl
        refine ⟨(returns_cons_iff returns true true).mpr rfl, owners.release ?_ rfl⟩
        rw [here]
        rfl
    case isFalse par =>
      cases moved
      rw [Bool.eq_false_iff.mpr par]
      constructor
      · rintro ⟨after, _⟩
        exact (returns_cons_iff returns acquired false).mp after
      · rintro rfl
        refine ⟨(returns_cons_iff returns false false).mpr rfl, owners.same ?_⟩
        rw [here]
        rfl
  case h_5 c p here =>
    cases moved
    rw [here]
    exact iff_of_true ⟨returns, owners.same (by rw [here]; rfl)⟩ trivial
  case h_6 c p here =>
    split at moved
    case isTrue free =>
      cases moved
      rw [here]
      exact iff_of_true ⟨returns, owners.acquire free (by rw [here]; rfl) rfl⟩ trivial
    case isFalse => cases moved
  case h_7 c p slotStored error here =>
    cases moved
    rw [here]
    exact iff_of_true ⟨returns, owners.same (by rw [here]; rfl)⟩ trivial
  case h_8 p here =>
    cases moved
    rw [here]
    exact iff_of_true ⟨returns, owners.release (by rw [here]; rfl) rfl⟩ trivial
  case h_9 a here =>
    rw [here]
    split at moved
    case h_1 => cases moved
    case h_2 =>
      obtain ⟨r, _, same⟩ := Option.map_eq_some_iff.mp moved
      cases same
      exact iff_of_true ⟨returns, owners.same (by rw [here])⟩ trivial
  case h_10 => cases moved

variable (ours)

/-- Every call of `filemap_fdatawrite_wbc` releases the lock exactly if it acquired it, whatever
the other threads do, exactly in the runs in which no call that took the lock returns early and
no file becomes a parent, or stops being one, between the two tests of a call. -/
theorem writeback_lock_paired_iff (links : Links.State ι) {acts : List (τ × Move ι)} :
    Run (step ours) (fun s _ => Paired s) (init links) acts s ∧ Paired s ↔
      Run (step ours) (Steady ours) (init links) acts s :=
  Run.exact_iff (Q := fun _ => True) (fun _ _ _ _ _ _ _ _ => trivial)
    (fun _ _ _ _ _ paired taken => paired_step_iff paired taken) trivial (paired_init links)

/-- Thread `0` writes back a parent without dirty pages and keeps the lock. It writes back a
file while thread `1` makes it a parent, and releases a lock that it did not acquire. -/
theorem writeback_lock_unpaired :
    (∃ s : System (Fin 2) (Fin 2), Run (step fun _ => true) (fun _ _ => True) (init Links.plain)
      [(1, .clone 1 0), (1, .lock), (1, .setParent true 0), (1, .unlock),
        (0, .sync 0), (0, .lock), (0, .check ⟨true, false⟩)] s ∧
      s.shared.returns = [⟨true, false⟩] ∧ s.place 0 = .idle ∧ s.shared.holder 0 = some 0) ∧
    ∃ s : System (Fin 2) (Fin 2), Run (step fun _ => true) (fun _ _ => True) (init Links.plain)
      [(0, .sync 0), (1, .clone 1 0), (1, .lock), (1, .setParent true 0), (1, .unlock),
        (0, .check ⟨true, true⟩), (0, .finish)] s ∧
      s.shared.returns = [⟨false, true⟩] := by
  constructor
  all_goals
    exact Run.exists_imp (fun _ _ => true) (fun _ _ _ _ => trivial) (by decide +kernel)
      fun _ _ shown => shown

end Steps

end FlexClone.Scorw.Writeback
