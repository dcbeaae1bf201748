import FlexClone.Run
import FlexClone.Threads

/-!
# Version counters of a child and its friend

A child and its friend file both store a version. The first copy of a block to the
child raises the child's version and sets a flag in the child's inode, and the
friend's version follows once the child is closed and on disk: closing queues a
request, and a pass over the queue stores the version in the friend and clears the
flag. After a crash the friend file is rebuilt when the two versions differ.

The flag is in memory only, so a request must not get lost, and a pass must not
raise the friend's version twice. `friend_version_protocol` says that both hold in
every run in which each attempt of a pass to store the friend's version succeeds;
the pass does not look at the result of the attempt.
-/

namespace FlexClone.Scorw.FriendVersion

/-- `struct pending_frnd_version_cnt_inc` -/
structure Request (ι : Type*) where
  child : ι
  iterId : UInt64
  deriving DecidableEq

/-- The inode of a child, with the attributes `v` of the child and of its friend. -/
structure ChildInode where
  cannotUpdateChildVersionCnt : Bool
  version : UInt64
  frndVersion : UInt64
  /-- `i_can_sync_frnd` of the friend -/
  canSyncFrnd : Int
  /-- `i_process_usage_count` of the `scorw_inode`, if there is one -/
  usageCount : Option Nat
  deriving DecidableEq

/-- The children, the queue and its lock. -/
structure Shared (ι : Type*) where
  inode : ι → ChildInode
  pending : List (Request ι)
  /-- the static `iter_id` of the passes -/
  iterId : UInt64
  /-- a pass that holds `frnd_version_cnt_lock`, with its `sync_child` -/
  pass : Option Bool

namespace ChildInode

/-- `scorw_set_frnd_version_attr_val` of the child's version; nobody sees whether the
attribute is stored. -/
def setFrndVersion (i : ChildInode) (stored : Bool) : ChildInode :=
  if stored then { i with frndVersion := i.version } else i

/-- The recovery in `scorw_prepare_child_inode`, or `BUG_ON`. -/
def prepareChildInode (i : ChildInode) (stored : Bool) : Option ChildInode :=
  if i.cannotUpdateChildVersionCnt then some i
  else if i.version = 0 ∨ i.frndVersion = 0 then none
  else if i.version ≠ i.frndVersion then some (i.setFrndVersion stored)
  else some i

/-- `scorw_get_inode` of a child -/
def getInode (i : ChildInode) (stored : Bool) : Option ChildInode :=
  match i.usageCount with
  | some n => some { i with usageCount := some (n + 1) }
  | none => (i.prepareChildInode stored).map fun i => { i with usageCount := some 1 }

/-- `scorw_child_version_cnt_inc` up to the `atomic_xchg` that finds the flag clear -/
def setFlag (i : ChildInode) : ChildInode :=
  { i with cannotUpdateChildVersionCnt := true, canSyncFrnd := -1 }

/-- The rest of `scorw_child_version_cnt_inc`, or `BUG_ON`; nobody sees whether the
attribute is stored. -/
def raiseVersion (i : ChildInode) (stored : Bool) : Option ChildInode :=
  if i.version = 0 then none
  else some (if stored then { i with version := i.version + 1 } else i)

/-- A pass stores the friend's version and clears the flag, or `BUG_ON`. -/
def updateFrnd (i : ChildInode) (stored : Bool) : Option ChildInode :=
  if i.version = 0 then none
  else some
    { i.setFrndVersion stored with cannotUpdateChildVersionCnt := false, canSyncFrnd := -1 }

end ChildInode

variable {ι : Type*} [DecidableEq ι]

namespace Shared

def setInode (sh : Shared ι) (c : ι) (i : ChildInode) : Shared ι :=
  { sh with inode := Function.update sh.inode c i }

@[simp] theorem inode_setInode (sh : Shared ι) (c : ι) (i : ChildInode) :
    (sh.setInode c i).inode c = i := Function.update_self ..

theorem inode_setInode_of_ne (sh : Shared ι) {c d : ι} (other : d ≠ c) (i : ChildInode) :
    (sh.setInode c i).inode d = sh.inode d := Function.update_of_ne other ..

/-- The number of requests for a child. -/
def requests (sh : Shared ι) (c : ι) : Nat := sh.pending.countP fun r => decide (r.child = c)

/-- `scorw_unprepare_child_inode` -/
def unprepareChildInode (sh : Shared ι) (c : ι) : Shared ι :=
  if (sh.inode c).cannotUpdateChildVersionCnt then
    if sh.pending.any fun r => decide (r.child = c) then sh
    else { sh with pending := sh.pending ++ [⟨c, 0⟩] }
  else sh

/-- `scorw_put_inode` of a child, under `frnd_version_cnt_lock` -/
def putInode (sh : Shared ι) (c : ι) : Option (Shared ι) :=
  match (sh.inode c).usageCount with
  | none => some sh
  | some 0 => none
  | some 1 => some ((sh.unprepareChildInode c).setInode c { sh.inode c with usageCount := none })
  | some (n + 2) => some (sh.setInode c { sh.inode c with usageCount := some (n + 1) })

/-- The body of the loop of `scorw_process_pending_frnd_version_cnt_inc_list` for the
request `r` in front of `rest`, or `BUG_ON`. -/
def processRequest (sh : Shared ι) (syncChild : Bool) (r : Request ι) (rest : List (Request ι))
    (dirty stored : Bool) : Option (Shared ι) :=
  let i := sh.inode r.child
  let update := (i.updateFrnd stored).map fun i => { sh with pending := rest }.setInode r.child i
  if syncChild then
    if i.usageCount.isSome then none else update
  else if i.usageCount.isSome then some { sh with pending := rest }
  else if dirty = true ∨ i.canSyncFrnd ≠ 1 then
    some { sh with pending := rest ++ [{ r with iterId := sh.iterId }] }
  else update

/-- One turn of the loop. A processed request is removed or moved to the tail, so the
next one is always in front; the loop ends at a request of this pass. -/
def passTurn (sh : Shared ι) (dirty stored : Bool) : Option (Shared ι) :=
  sh.pass.bind fun syncChild =>
    match sh.pending with
    | [] => some { sh with iterId := sh.iterId + 1, pass := none }
    | r :: rest =>
        if r.iterId = sh.iterId then some { sh with iterId := sh.iterId + 1, pass := none }
        else sh.processRequest syncChild r rest dirty stored

end Shared

/-! ## Threads -/

/-- Where a thread is: it keeps a child attached, through a handle or a page copy, and
may have found the flag clear. -/
inductive Place (ι : Type*)
  | idle
  | holding (c : ι)
  | raising (c : ι)
  deriving DecidableEq

/-- What a thread can do next. -/
inductive Move (ι : Type*)
  | openChild (c : ι) (stored : Bool)
  /-- `scorw_child_version_cnt_inc`, from a child write or the page copy thread -/
  | copyBlock
  | raise (stored : Bool)
  | close
  deriving DecidableEq

/-- One move of a thread. Closing waits for the end of a pass, opening does not. -/
def move (sh : Shared ι) : Place ι → Move ι → Option (Unit × Place ι × Shared ι)
  | .idle, .openChild c stored =>
      ((sh.inode c).getInode stored).map fun i => ((), .holding c, sh.setInode c i)
  | .holding c, .copyBlock =>
      if (sh.inode c).cannotUpdateChildVersionCnt then some ((), .holding c, sh)
      else some ((), .raising c, sh.setInode c (sh.inode c).setFlag)
  | .raising c, .raise stored =>
      ((sh.inode c).raiseVersion stored).map fun i => ((), .holding c, sh.setInode c i)
  | .holding c, .close =>
      if sh.pass.isSome then none else (sh.putInode c).map fun sh => ((), .idle, sh)
  | _, _ => none

abbrev System (τ ι : Type*) := Threads τ (Shared ι) (Place ι)

inductive Act (τ ι : Type*)
  | thread (t : τ) (m : Move ι)
  | startPass (syncChild : Bool)
  | request (dirty stored : Bool)
  /-- the journal has committed the child -/
  | commit (c : ι)
  /-- an inode nobody refers to leaves the memory -/
  | evict (c : ι)
  deriving DecidableEq

variable {τ : Type*}

def step [DecidableEq τ] (s : System τ ι) : Act τ ι → Option (Unit × System τ ι)
  | .thread t m => Threads.step (fun _ => move) s t m
  | .startPass syncChild =>
      if s.shared.pass.isSome then none
      else some ((), ⟨{ s.shared with pass := some syncChild }, s.place⟩)
  | .request dirty stored =>
      (s.shared.passTurn dirty stored).map fun sh => ((), ⟨sh, s.place⟩)
  | .commit c =>
      some ((), ⟨s.shared.setInode c { s.shared.inode c with canSyncFrnd := 1 }, s.place⟩)
  | .evict c =>
      if (s.shared.inode c).usageCount.isSome ∨ 0 < s.shared.requests c then none
      else some ((), ⟨s.shared.setInode c
        { s.shared.inode c with cannotUpdateChildVersionCnt := false, canSyncFrnd := 0 }, s.place⟩)

/-! ## The protocol -/

/-- The friend is at most one version behind, and only while the flag is set; and a child
with the flag that is not attached has its one request. -/
structure Protocol (sh : Shared ι) : Prop where
  within : ∀ c, (sh.inode c).frndVersion = (sh.inode c).version ∨
    (sh.inode c).frndVersion + 1 = (sh.inode c).version
  equal : ∀ c, (sh.inode c).cannotUpdateChildVersionCnt = false →
    (sh.inode c).frndVersion = (sh.inode c).version
  once : ∀ c, sh.requests c ≤ 1
  kept : ∀ c, (sh.inode c).cannotUpdateChildVersionCnt = true →
    (sh.inode c).usageCount = none → sh.requests c = 1

/-- Equal counters, and nothing is open or queued. -/
structure Start (s : System τ ι) : Prop where
  idle : ∀ t, s.place t = .idle
  flag : ∀ c, (s.shared.inode c).cannotUpdateChildVersionCnt = false
  equal : ∀ c, (s.shared.inode c).frndVersion = (s.shared.inode c).version
  closed : ∀ c, (s.shared.inode c).usageCount = none
  empty : s.shared.pending = []

/-- Children and friends at version `v` after a mount. -/
def mounted (v : UInt64) : System τ ι :=
  ⟨⟨fun _ => ⟨false, v, v, 0, none⟩, [], 1, none⟩, fun _ => .idle⟩

omit [DecidableEq ι] in
theorem start_mounted (v : UInt64) : Start (mounted v : System τ ι) :=
  ⟨fun _ => rfl, fun _ => rfl, fun _ => rfl, fun _ => rfl, rfl⟩

/-- A pass that stores the friend's version succeeds in it. -/
def Stores (_ : System τ ι) (act : Act τ ι) : Prop := ∀ dirty, act ≠ .request dirty false

/-! ## One child -/

/-- What a child's inode says about the numbers of threads that use it, of those that are
about to raise its version, and of requests for it. -/
structure Tracks (i : ChildInode) (users raisers requests : Nat) : Prop where
  usage : i.usageCount = if users = 0 then none else some users
  clean : i.cannotUpdateChildVersionCnt = false →
    i.frndVersion = i.version ∧ raisers = 0 ∧ requests = 0
  single : raisers ≤ 1
  raising : raisers = 1 → i.frndVersion = i.version
  within : i.frndVersion = i.version ∨ i.frndVersion + 1 = i.version
  once : requests ≤ 1
  kept : i.cannotUpdateChildVersionCnt = true → users = 0 → requests = 1

namespace Tracks

variable {i i' : ChildInode} {users raisers requests : Nat}

theorem getInode {stored : Bool} (tracks : Tracks i users raisers requests)
    (got : i.getInode stored = some i') : Tracks i' (users + 1) raisers requests := by
  have usage := tracks.usage
  unfold ChildInode.getInode at got
  split at got
  case h_1 n attached =>
    cases got
    split at usage
    case isTrue => simp [attached] at usage
    case isFalse =>
      have same : n = users := by simpa [attached] using usage
      exact ⟨by simp [same], tracks.clean, tracks.single, tracks.raising, tracks.within,
        tracks.once, fun _ none => by omega⟩
  case h_2 detached =>
    have nobody : users = 0 := by
      by_contra some
      simp [detached, some] at usage
    obtain ⟨j, prepared, rfl⟩ := Option.map_eq_some_iff.mp got
    -- where the flag is clear the counters are equal, so nothing is recovered
    have same : j = i := by
      unfold ChildInode.prepareChildInode at prepared
      split at prepared
      case isTrue => exact (Option.some.inj prepared).symm
      case isFalse clear =>
        have equal := (tracks.clean (by simpa using clear)).1
        split at prepared
        case isTrue => cases prepared
        case isFalse =>
          rw [if_neg (by simp [equal])] at prepared
          exact (Option.some.inj prepared).symm
    subst same
    exact ⟨by simp [nobody], tracks.clean, tracks.single, tracks.raising, tracks.within,
      tracks.once, fun _ none => by omega⟩

theorem setFlag (tracks : Tracks i users raisers requests)
    (clear : i.cannotUpdateChildVersionCnt = false) (used : 0 < users) :
    Tracks i.setFlag users 1 requests := by
  obtain ⟨equal, noRaiser, noRequest⟩ := tracks.clean clear
  exact ⟨tracks.usage, nofun, le_rfl, fun _ => equal, .inl equal, tracks.once,
    fun _ none => by omega⟩

theorem raiseVersion {stored : Bool} (tracks : Tracks i users (raisers + 1) requests)
    (raised : i.raiseVersion stored = some i') : Tracks i' users raisers requests := by
  have one : raisers = 0 := by
    have := tracks.single
    omega
  have flag : i.cannotUpdateChildVersionCnt ≠ false := by
    intro clear
    have := (tracks.clean clear).2.1
    omega
  have equal := tracks.raising (by omega)
  unfold ChildInode.raiseVersion at raised
  split at raised
  case isTrue => cases raised
  case isFalse =>
    cases raised
    cases stored with
    | true =>
        exact ⟨tracks.usage, fun clear => (flag clear).elim, by omega, fun _ => by omega,
          .inr (by rw [← equal]; rfl), tracks.once, tracks.kept⟩
    | false =>
        exact ⟨tracks.usage, fun clear => (flag clear).elim, by omega, fun _ => equal,
          .inl equal, tracks.once, tracks.kept⟩

/-- A user leaves while others stay. -/
theorem leave {n : Nat} (tracks : Tracks i (users + 1) raisers requests)
    (attached : i.usageCount = some (n + 2)) :
    Tracks { i with usageCount := some (n + 1) } users raisers requests := by
  have same : n + 1 = users := by simpa [attached] using tracks.usage
  exact ⟨by simp [← same], tracks.clean, tracks.single, tracks.raising, tracks.within,
    tracks.once, fun _ none => by omega⟩

/-- The last user leaves, when a request is there or not needed. -/
theorem detach {requests' : Nat} (tracks : Tracks i (users + 1) raisers requests)
    (attached : i.usageCount = some 1)
    (queued : requests' = if i.cannotUpdateChildVersionCnt then 1 else requests) :
    Tracks { i with usageCount := none } users raisers requests' := by
  have nobody : users = 0 := by simpa [attached] using tracks.usage.symm
  cases flag : i.cannotUpdateChildVersionCnt with
  | true =>
      have one : requests' = 1 := by simpa [flag] using queued
      exact ⟨by simp [nobody], nofun, tracks.single,
        tracks.raising, tracks.within, one.le, fun _ _ => one⟩
  | false =>
      have same : requests' = requests := by simpa [flag] using queued
      exact ⟨by simp [nobody], fun _ => same ▸ tracks.clean flag, tracks.single,
        tracks.raising, tracks.within, same ▸ tracks.once, nofun⟩

/-- A request of an attached child is dropped. -/
theorem drop (tracks : Tracks i users raisers (requests + 1))
    (attached : i.usageCount.isSome = true) : Tracks i users raisers requests := by
  have once := tracks.once
  refine ⟨tracks.usage, fun clear => ?_, tracks.single, tracks.raising, tracks.within, by omega,
    fun _ nobody => ?_⟩
  · obtain ⟨equal, noRaiser, _⟩ := tracks.clean clear
    exact ⟨equal, noRaiser, by omega⟩
  · rw [tracks.usage, if_pos nobody] at attached
    cases attached

/-- The friend's version is stored for a child that is not attached. -/
theorem updateFrnd (tracks : Tracks i users raisers (requests + 1)) (idle : raisers ≤ users)
    (detached : i.usageCount = none) (updated : i.updateFrnd true = some i') :
    Tracks i' users raisers requests := by
  have nobody : users = 0 := by
    by_contra some
    simp [tracks.usage, some] at detached
  have once := tracks.once
  unfold ChildInode.updateFrnd at updated
  split at updated
  case isTrue => cases updated
  case isFalse =>
    cases updated
    exact ⟨tracks.usage, fun _ => ⟨rfl, by omega, by omega⟩, tracks.single, fun _ => rfl,
      .inl rfl, by omega, nofun⟩

/-- What the version protocol does not look at. -/
theorem withCanSync (tracks : Tracks i users raisers requests) (value : Int) :
    Tracks { i with canSyncFrnd := value } users raisers requests :=
  ⟨tracks.usage, tracks.clean, tracks.single, tracks.raising, tracks.within, tracks.once,
    tracks.kept⟩

/-- The flag of a child without users and requests is clear. -/
theorem clear (tracks : Tracks i users raisers 0) (detached : i.usageCount = none) :
    i.cannotUpdateChildVersionCnt = false := by
  by_contra flag
  have nobody : users = 0 := by
    by_contra some
    simp [tracks.usage, some] at detached
  have := tracks.kept (by simpa using flag) nobody
  omega

end Tracks

/-- `scorw_unprepare_child_inode` leaves one request for a child with the flag. -/
theorem requests_unprepareChildInode {sh : Shared ι} {c : ι} (once : sh.requests c ≤ 1) (d : ι) :
    (sh.unprepareChildInode c).requests d =
      if d = c ∧ (sh.inode c).cannotUpdateChildVersionCnt = true then 1 else sh.requests d := by
  unfold Shared.unprepareChildInode
  split
  case isTrue flag =>
    split
    case isTrue found =>
      have pos : 0 < sh.requests c := by
        simpa [Shared.requests, List.countP_pos_iff] using found
      split
      case isTrue same =>
        rw [same.1]
        omega
      case isFalse => rfl
    case isFalse missing =>
      have zero : sh.requests c = 0 := by
        simpa [Shared.requests, List.countP_eq_zero] using missing
      by_cases same : d = c
      · subst same
        simp only [Shared.requests] at zero
        simp [Shared.requests, List.countP_append, zero, flag]
      · simp [Shared.requests, List.countP_append, same, Ne.symm same]
  case isFalse flag => simp [flag]

/-- `scorw_put_inode` of a child, for that child and for the others -/
theorem Tracks.putInode {sh sh' : Shared ι} {c : ι} {users raisers : Nat}
    (tracks : Tracks (sh.inode c) (users + 1) raisers (sh.requests c))
    (put : sh.putInode c = some sh') :
    Tracks (sh'.inode c) users raisers (sh'.requests c) ∧
      ∀ d, d ≠ c → sh'.inode d = sh.inode d ∧ sh'.requests d = sh.requests d := by
  unfold Shared.putInode at put
  split at put
  case h_1 detached =>
    have usage := tracks.usage
    simp [detached] at usage
  case h_2 => cases put
  case h_3 attached =>
    cases put
    have requests := requests_unprepareChildInode tracks.once
    refine ⟨?_, fun d other => ⟨?_, ?_⟩⟩
    · rw [Shared.inode_setInode]
      exact tracks.detach attached ((requests c).trans (by simp))
    · rw [Shared.inode_setInode_of_ne _ other]
      unfold Shared.unprepareChildInode
      split <;> [split <;> rfl; rfl]
    · exact (requests d).trans (if_neg fun same => other same.1)
  case h_4 n attached =>
    cases put
    refine ⟨?_, fun d other => ⟨Shared.inode_setInode_of_ne _ other _, rfl⟩⟩
    rw [Shared.inode_setInode]
    exact tracks.leave attached

/-! ## All children -/

/-- The child a thread keeps attached. -/
def Place.child : Place ι → Option ι
  | .idle => none
  | .holding c | .raising c => some c

section Counts

variable [Fintype τ]

def users (place : τ → Place ι) (c : ι) : Nat := Threads.count (·.child = some c) place

def raisers (place : τ → Place ι) (c : ι) : Nat := Threads.count (· = .raising c) place

def Sound (s : System τ ι) : Prop :=
  ∀ c, Tracks (s.shared.inode c) (users s.place c) (raisers s.place c) (s.shared.requests c)

theorem Sound.protocol {s : System τ ι} (sound : Sound s) : Protocol s.shared where
  within c := (sound c).within
  equal c clear := ((sound c).clean clear).1
  once c := (sound c).once
  kept c flag detached := (sound c).kept flag (by
    by_contra some
    simp [(sound c).usage, some] at detached)

theorem Start.sound {s : System τ ι} (start : Start s) : Sound s := by
  intro c
  have nobody : users s.place c = 0 := Threads.count_eq_zero_iff.mpr fun t => by
    simp [start.idle, Place.child]
  have noRaiser : raisers s.place c = 0 := Threads.count_eq_zero_iff.mpr fun t => by
    simp [start.idle]
  have noRequest : s.shared.requests c = 0 := by simp [Shared.requests, start.empty]
  rw [nobody, noRaiser, noRequest]
  exact ⟨start.closed c, fun _ => ⟨start.equal c, rfl, rfl⟩, Nat.zero_le _, nofun,
    .inl (start.equal c), Nat.zero_le _, fun flag => by simp [start.flag c] at flag⟩

theorem raisers_le_users (place : τ → Place ι) (c : ι) : raisers place c ≤ users place c := by
  refine Finset.card_le_card fun t member => ?_
  simp only [Finset.mem_filter, Finset.mem_univ, true_and] at member ⊢
  simp [member, Place.child]

/-- A step that is about one child and moves no thread. -/
theorem Sound.child {s : System τ ι} (sound : Sound s) {sh : Shared ι} (c : ι)
    (others : ∀ d, d ≠ c → sh.inode d = s.shared.inode d ∧ sh.requests d = s.shared.requests d)
    (here : Tracks (sh.inode c) (users s.place c) (raisers s.place c) (sh.requests c)) :
    Sound ⟨sh, s.place⟩ := by
  intro d
  by_cases same : d = c
  · exact same ▸ here
  · obtain ⟨inode, requests⟩ := others d same
    rw [inode, requests]
    exact sound d

theorem requests_cons (sh : Shared ι) {r : Request ι} {rest : List (Request ι)}
    (front : sh.pending = r :: rest) (d : ι) :
    sh.requests d = { sh with pending := rest }.requests d + if r.child = d then 1 else 0 := by
  simp [Shared.requests, front, List.countP_cons]

/-- One turn of a pass. -/
theorem sound_passTurn {s : System τ ι} (sound : Sound s) {dirty : Bool} {sh : Shared ι}
    (turn : s.shared.passTurn dirty true = some sh) : Sound ⟨sh, s.place⟩ := by
  obtain ⟨syncChild, _, turn⟩ := Option.bind_eq_some_iff.mp turn
  split at turn
  case h_1 =>
    cases turn
    exact sound
  case h_2 r rest front =>
    split at turn
    case isTrue =>
      cases turn
      exact sound
    case isFalse =>
      have counted := requests_cons s.shared front
      have here := counted r.child
      rw [if_pos rfl] at here
      have tracks := sound r.child
      rw [here] at tracks
      have others (d : ι) (other : d ≠ r.child) :
          { s.shared with pending := rest }.requests d = s.shared.requests d := by
        rw [counted d, if_neg (Ne.symm other), Nat.add_zero]
      -- both kinds of pass update the friend in the same way
      have updated {i : ChildInode} (detached : ¬ (s.shared.inode r.child).usageCount.isSome = true)
          (update : (s.shared.inode r.child).updateFrnd true = some i) :
          Sound ⟨{ s.shared with pending := rest }.setInode r.child i, s.place⟩ := by
        refine sound.child r.child
          (fun d other => ⟨Shared.inode_setInode_of_ne _ other _, others d other⟩) ?_
        rw [Shared.inode_setInode]
        exact tracks.updateFrnd (raisers_le_users _ _) (by simpa using detached) update
      unfold Shared.processRequest at turn
      dsimp only at turn
      split at turn
      case isTrue =>
        split at turn
        case isTrue => cases turn
        case isFalse detached =>
          obtain ⟨i, update, rfl⟩ := Option.map_eq_some_iff.mp turn
          exact updated detached update
      case isFalse =>
        split at turn
        case isTrue attached =>
          cases turn
          exact sound.child r.child (fun d other => ⟨rfl, others d other⟩) (tracks.drop attached)
        case isFalse detached =>
          split at turn
          case isTrue =>
            cases turn
            -- the request is only moved
            have moved (d : ι) : { s.shared with
                pending := rest ++ [{ r with iterId := s.shared.iterId }] }.requests d =
                s.shared.requests d := by
              rw [counted d]
              simp [Shared.requests, List.countP_cons]
            intro d
            exact (moved d).symm ▸ sound d
          case isFalse =>
            obtain ⟨i, update, rfl⟩ := Option.map_eq_some_iff.mp turn
            exact updated detached update

variable [DecidableEq τ]

theorem users_update (place : τ → Place ι) (t : τ) (p : Place ι) (c : ι) :
    users (Function.update place t p) c + (if (place t).child = some c then 1 else 0) =
      users place c + if p.child = some c then 1 else 0 :=
  Threads.count_update place t p

theorem raisers_update (place : τ → Place ι) (t : τ) (p : Place ι) (c : ι) :
    raisers (Function.update place t p) c + (if place t = .raising c then 1 else 0) =
      raisers place c + if p = .raising c then 1 else 0 :=
  Threads.count_update place t p

/-- A move of a thread that is about one child. -/
theorem Sound.thread {s : System τ ι} (sound : Sound s) {t : τ} {p : Place ι} {sh : Shared ι}
    (c : ι) (before : ∀ d, (s.place t).child = some d → c = d)
    (after : ∀ d, p.child = some d → c = d)
    (others : ∀ d, d ≠ c → sh.inode d = s.shared.inode d ∧ sh.requests d = s.shared.requests d)
    (here : Tracks (sh.inode c) (users (Function.update s.place t p) c)
      (raisers (Function.update s.place t p) c) (sh.requests c)) :
    Sound ⟨sh, Function.update s.place t p⟩ := by
  intro d
  by_cases same : d = c
  · exact same ▸ here
  · obtain ⟨inode, requests⟩ := others d same
    have left : (s.place t).child ≠ some d := fun here => same (before d here).symm
    have entered : p.child ≠ some d := fun here => same (after d here).symm
    have unused : users (Function.update s.place t p) d = users s.place d := by
      simpa [left, entered] using users_update s.place t p d
    have unraised : raisers (Function.update s.place t p) d = raisers s.place d := by
      have old : s.place t ≠ .raising d := fun here => left (by simp [here, Place.child])
      have new : p ≠ .raising d := fun here => entered (by simp [here, Place.child])
      simpa [old, new] using raisers_update s.place t p d
    rw [inode, requests]
    simp only [unused, unraised]
    exact sound d

/-- Every move of a thread. -/
theorem sound_move {s : System τ ι} (sound : Sound s) {t : τ} {m : Move ι} {p : Place ι}
    {sh : Shared ι} (moved : move s.shared (s.place t) m = some ((), p, sh)) :
    Sound ⟨sh, Function.update s.place t p⟩ := by
  have users := users_update s.place t p
  have raisers := raisers_update s.place t p
  -- all moves but the last close leave the queue alone
  have others {c : ι} {i : ChildInode} (d : ι) (other : d ≠ c) :
      (s.shared.setInode c i).inode d = s.shared.inode d ∧
        (s.shared.setInode c i).requests d = s.shared.requests d :=
    ⟨Shared.inode_setInode_of_ne _ other _, rfl⟩
  cases here : s.place t with
  | idle =>
      rw [here] at moved
      cases m with
      | openChild c stored =>
          obtain ⟨i, got, same⟩ := Option.map_eq_some_iff.mp moved
          cases same
          refine sound.thread c (by simp [here, Place.child]) (by simp [Place.child]) others ?_
          replace users := users c
          replace raisers := raisers c
          simp only [here, Place.child, reduceCtorEq, if_false, if_true, Nat.add_zero]
            at users raisers
          rw [Shared.inode_setInode]
          rw [users, raisers]
          exact (sound c).getInode got
      | copyBlock => cases moved
      | raise => cases moved
      | close => cases moved
  | holding c =>
      rw [here] at moved
      replace users := users c
      replace raisers := raisers c
      have present : 0 < FriendVersion.users s.place c :=
        Threads.count_pos_iff.mpr ⟨t, by simp [here, Place.child]⟩
      simp only [here, Place.child, reduceCtorEq, if_false, if_true, Nat.add_zero]
        at users raisers
      cases m with
      | copyBlock =>
          simp only [move] at moved
          split at moved
          case isTrue =>
            cases moved
            simp only [reduceCtorEq, if_false, if_true, Nat.add_zero, Nat.add_right_cancel_iff]
              at users raisers
            refine sound.thread c (by simp [here, Place.child]) (by simp [Place.child])
              (fun _ _ => ⟨rfl, rfl⟩) ?_
            rw [users, raisers]
            exact sound c
          case isFalse clear =>
            cases moved
            have clear : (s.shared.inode c).cannotUpdateChildVersionCnt = false := by
              simpa using clear
            simp only [if_true, Nat.add_right_cancel_iff] at users raisers
            refine sound.thread c (by simp [here, Place.child]) (by simp [Place.child]) others ?_
            rw [Shared.inode_setInode]
            rw [users, raisers, ((sound c).clean clear).2.1]
            exact (sound c).setFlag clear present
      | close =>
          simp only [move] at moved
          split at moved
          case isTrue => cases moved
          case isFalse =>
            obtain ⟨sh', put, same⟩ := Option.map_eq_some_iff.mp moved
            cases same
            simp only [reduceCtorEq, if_false, Nat.add_zero] at users raisers
            have tracks := sound c
            rw [← users, ← raisers] at tracks
            obtain ⟨left, others⟩ := tracks.putInode put
            exact sound.thread c (by simp [here, Place.child]) (by simp [Place.child]) others left
      | openChild => cases moved
      | raise => cases moved
  | raising c =>
      rw [here] at moved
      cases m with
      | raise stored =>
          obtain ⟨i, raised, same⟩ := Option.map_eq_some_iff.mp moved
          cases same
          refine sound.thread c (by simp [here, Place.child]) (by simp [Place.child]) others ?_
          replace users := users c
          replace raisers := raisers c
          simp only [here, Place.child, reduceCtorEq, if_false, if_true, Nat.add_zero,
            Nat.add_right_cancel_iff] at users raisers
          have tracks := sound c
          rw [← raisers] at tracks
          rw [Shared.inode_setInode]
          rw [users]
          exact tracks.raiseVersion raised
      | openChild => cases moved
      | copyBlock => cases moved
      | close => cases moved

/-- Every step in which a pass stores what it wants to store. -/
theorem sound_step {s s' : System τ ι} {act : Act τ ι} {reply : Unit} (sound : Sound s)
    (stores : Stores s act) (taken : step s act = some (reply, s')) : Sound s' := by
  cases act with
  | thread t m =>
      have taken : Threads.step (fun _ => move) s t m = some (reply, s') := taken
      obtain ⟨p, sh, moved, rfl⟩ := Threads.step_eq_some taken
      exact sound_move sound moved
  | startPass syncChild =>
      simp only [step] at taken
      split at taken
      case isTrue => cases taken
      case isFalse =>
        cases taken
        exact sound
  | request dirty stored =>
      cases stored with
      | false => exact (stores dirty rfl).elim
      | true =>
          obtain ⟨sh, turn, same⟩ := Option.map_eq_some_iff.mp taken
          cases same
          exact sound_passTurn sound turn
  | commit c =>
      cases taken
      refine sound.child c (fun d other => ⟨Shared.inode_setInode_of_ne _ other _, rfl⟩) ?_
      rw [Shared.inode_setInode]
      exact (sound c).withCanSync 1
  | evict c =>
      simp only [step] at taken
      split at taken
      case isTrue => cases taken
      case isFalse unused =>
        cases taken
        obtain ⟨detached, noRequest⟩ := not_or.mp unused
        have noRequest : s.shared.requests c = 0 := by omega
        have tracks := sound c
        rw [noRequest] at tracks
        have clear := tracks.clear (by simpa using detached)
        refine sound.child c (fun d other => ⟨Shared.inode_setInode_of_ne _ other _, rfl⟩) ?_
        simp only [Shared.inode_setInode, ← clear]
        exact (sound c).withCanSync 0

/-- In every run from equal counters, in which each attempt of a pass to store a friend's
version succeeds, the friend is at most one version behind and only while the flag is
set, no child has two requests, and no request of a closed child is lost. -/
theorem friend_version_protocol {s₀ s : System τ ι} {acts : List (Act τ ι)} (start : Start s₀)
    (run : Run step Stores s₀ acts s) : Protocol s.shared :=
  (run.invariant (P := Sound)
    (fun _ _ _ _ sound stores taken => sound_step sound stores taken) start.sound).protocol

/-- A request that is queued again, dropped because the child was opened again, and
queued once more when it is closed. -/
theorem friend_version_protocol_reopened : ∃ s : System Unit Unit,
    Run step Stores (mounted 1)
      [.thread () (.openChild () true), .thread () .copyBlock, .thread () (.raise true),
        .thread () .close, .startPass false, .request false true, .request false true,
        .thread () (.openChild () true), .startPass false, .request false true,
        .request false true, .thread () .copyBlock, .thread () .close, .commit ()] s ∧
    s.shared.inode () = ⟨true, 2, 1, 1, none⟩ ∧ s.shared.pending = [⟨(), 0⟩] ∧
    Protocol s.shared := by
  refine Run.exists_imp (fun _ act => decide (act ≠ .request false false ∧
      act ≠ .request true false)) (fun act _ s passed dirty => ?_)
    (Q := fun s => s.shared.inode () = ⟨true, 2, 1, 1, none⟩ ∧ s.shared.pending = [⟨(), 0⟩])
    (by decide +kernel) ?_
  · cases dirty with
    | false => exact (of_decide_eq_true passed).1
    | true => exact (of_decide_eq_true passed).2
  · rintro s run ⟨inode, pending⟩
    exact ⟨inode, pending, friend_version_protocol (start_mounted 1) run⟩

/-- Where the friend's version is not stored, the pass clears the flag over different
counters. The next open finds them different, and where its attempt fails too, the next
copy leaves the friend two versions behind. -/
theorem friend_version_protocol_fails :
    (∃ s : System Unit Unit, Run step (fun _ _ => True) (mounted 1)
      [.thread () (.openChild () true), .thread () .copyBlock, .thread () (.raise true),
        .thread () .close, .startPass true, .request false false] s ∧
      s.shared.inode () = ⟨false, 2, 1, -1, none⟩ ∧ ¬ Protocol s.shared) ∧
    ∃ s : System Unit Unit, Run step (fun _ _ => True) (mounted 1)
      [.thread () (.openChild () true), .thread () .copyBlock, .thread () (.raise true),
        .thread () .close, .commit (), .startPass false, .request false false,
        .thread () (.openChild () false), .thread () .copyBlock, .thread () (.raise true)] s ∧
      s.shared.inode () = ⟨true, 3, 1, -1, some 1⟩ ∧ ¬ Protocol s.shared := by
  have found {acts : List (Act Unit Unit)} {i : ChildInode}
      (wrong : i.frndVersion ≠ i.version ∧
        (i.cannotUpdateChildVersionCnt = false ∨ i.frndVersion + 1 ≠ i.version))
      (computed : ((Run.exec step (fun _ _ => true) (mounted 1 : System Unit Unit) acts).any
        fun s => decide (s.shared.inode () = i)) = true) :
      ∃ s, Run step (fun _ _ => True) (mounted 1) acts s ∧ s.shared.inode () = i ∧
        ¬ Protocol s.shared := by
    refine Run.exists_imp (fun _ _ => true) (fun _ _ _ _ => trivial) computed ?_
    refine fun s run inode => ⟨inode, fun protocol => ?_⟩
    rcases wrong with ⟨differ, clear | behind⟩
    · exact differ (inode ▸ protocol.equal () (inode ▸ clear))
    · exact (inode ▸ protocol.within ()).elim differ behind
  exact ⟨found (by decide) (by decide +kernel), found (by decide) (by decide +kernel)⟩

end Counts

end FlexClone.Scorw.FriendVersion
