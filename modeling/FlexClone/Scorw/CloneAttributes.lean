import FlexClone.Stores
import FlexClone.Scorw.Family

/-!
# The attributes of a clone

`ext4_xattr_set` makes a file a child when the attribute `SCORW_PARENT` is set. It first stores
the parent's slot, the child's size and about a dozen attributes of the parent, the child and
the friend file, and only then `SCORW_PARENT` itself. Whether the earlier stores succeed is not
looked at, and what they did stays when the last one fails.

Sizes and attributes are those of all files, by inode number, so that the same file may have
several parts. Three mutexes of the parent are held by the call. The call reads the description
`helper_inodes` without checking it.

`failed_clone_no_trace_iff` says when a call that fails leaves everything as it was.
-/

namespace FlexClone.Scorw.Clone

open Family (maxChilds parentError maxChildsAlreadySet)

/-- The attributes that are numbers. -/
inductive Attr
  | scorwParent
  /-- `c_0`, `c_1`, … -/
  | scorwChild (i : Nat)
  | copySize
  | blocksToCopy
  | scorwFriend
  | scorwChildFrnd
  /-- `v` -/
  | version
  | scorwLog
  | currVersion
  | parOrg
  | numRanges
  | seeThruRo
  deriving DecidableEq

/-- The attributes by name. The ranges are `r_start_0`, `r_start_1`, … -/
inductive Name
  | number (a : Attr)
  | range (j : Nat)
  deriving DecidableEq

/-- `struct child_range_xattr` -/
structure ChildRangeXattr where
  start : Nat
  stop : Nat
  snapBehavior : Nat
  deriving DecidableEq

/-- What is stored under a name. -/
def Name.Value : Name → Type
  | .number _ => Int
  | .range _ => ChildRangeXattr

/-- The name of an attribute of a file. -/
abbrev Key := Ino × Name

/-- The mutexes of an inode that the call takes: `i_vfs_inode_writeback_sync_lock`,
`i_vfs_inode_open_close_lock` and `i_vfs_inode_lock`. -/
structure Mutexes where
  writebackSync : Bool
  openClose : Bool
  vfsInode : Bool
  deriving DecidableEq

/-- The files, as far as a clone goes. -/
structure Files where
  attr : ∀ key : Key, Option key.2.Value
  size : Ino → Nat
  mutexes : Ino → Mutexes

/-- A range of a description, as it is supplied. -/
structure SuppliedRange where
  start : Int
  stop : Int
  snapxBehavior : Nat
  deriving DecidableEq

/-- `struct helper_inodes`. Behind its four ranges is whatever follows in memory. -/
structure HelperInodes where
  pInodeNum : Ino
  fInodeNum : Ino
  lInodeNum : Nat
  numRanges : Int
  range : Nat → SuppliedRange

/-- `SNAPX_FLAG_SEE_TH_RO` -/
def seeThRo : Nat := 3

/-- A range is packed into `u32`, `u32` and `u16`. -/
def SuppliedRange.pack (r : SuppliedRange) : ChildRangeXattr :=
  ⟨(r.start % 2 ^ 32).toNat, (r.stop % 2 ^ 32).toNat, r.snapxBehavior % 2 ^ 16⟩

/-- `is_see_thru` -/
def HelperInodes.isSeeThru (h : HelperInodes) : Bool :=
  (List.range h.numRanges.toNat).any fun j => decide ((h.range j).pack.snapBehavior = seeThRo)

/-- How the store of `SCORW_PARENT` ends, after quota, credits and journal, and maybe after
retries. The attribute is there without an error, and may be there with one, if stopping the
journal fails. -/
structure LastStore where
  error : Int
  stored : Bool
  ok : error = 0 → stored = true

/-- What happens during a call: which of the stores before the last one succeed. -/
structure SetEnv where
  stored : Nat → Bool
  last : LastStore

/-- The numbers that the call stores, in a child `c` of a parent of a size. -/
def storedNumber (h : HelperInodes) (c : Ino) (size : Nat) : Attr → Int
  | .scorwParent => h.pInodeNum
  | .scorwChild _ | .scorwChildFrnd => c
  | .copySize => size
  | .blocksToCopy => ((size - 1) / pageSize + 1) % 2 ^ 32
  | .scorwFriend => h.fInodeNum
  | .version | .currVersion => 1
  | .scorwLog => h.lInodeNum
  | .parOrg => roundUp size
  | .numRanges => h.numRanges
  | .seeThruRo => h.isSeeThru.toNat

def storedValue (h : HelperInodes) (c : Ino) (size : Nat) : (key : Key) → key.2.Value
  | (_, .number a) => storedNumber h c size a
  | (_, .range j) => (h.range j).pack

/-- The stores before the last one, in order; `i` is the parent's slot. -/
def storedKeys (h : HelperInodes) (c : Ino) (i : Nat) : List Key :=
  ([(h.pInodeNum, .number (.scorwChild i)), (c, .number .copySize), (c, .number .blocksToCopy),
    (c, .number .scorwFriend), (h.fInodeNum, .number .scorwChildFrnd), (c, .number .version),
    (h.fInodeNum, .number .version), (h.pInodeNum, .number .scorwLog),
    (c, .number .currVersion), (h.pInodeNum, .number .currVersion),
    (h.pInodeNum, .number .parOrg), (c, .number .numRanges)] : List Key) ++
  (List.range h.numRanges.toNat).map (fun j => (c, .range j)) ++
  ([(c, .number .seeThruRo), (h.pInodeNum, .number .seeThruRo)] : List Key)

/-- All stores of the call, with whether they succeed. -/
def attempts (h : HelperInodes) (c : Ino) (i : Nat) (env : SetEnv) : List (Key × Bool) :=
  (storedKeys h c i).mapIdx (fun k key => (key, env.stored k)) ++
    [((c, .number .scorwParent), env.last.stored)]

namespace Files

/-- The number under a name, or 0. -/
def number (s : Files) (x : Ino) (a : Attr) : Int := (s.attr (x, .number a)).getD (0 : Int)

/-- The first slot of a parent without a child. Only 32 bits of the number are looked at. -/
def freeSlot (s : Files) (p : Ino) : Option Nat :=
  (List.range maxChilds).find? fun i => decide (s.number p (.scorwChild i) % 2 ^ 32 = 0)

/-- The call waits for the three mutexes of the parent. -/
def lockPar (s : Files) (p : Ino) : Option Files :=
  if s.mutexes p = ⟨false, false, false⟩ then
    some { s with mutexes := Function.update s.mutexes p ⟨true, true, true⟩ }
  else none

def unlockPar (s : Files) (p : Ino) : Files :=
  { s with mutexes := Function.update s.mutexes p ⟨false, false, false⟩ }

/-- The stores, and the size of the child. -/
def setAttributes (s : Files) (c : Ino) (h : HelperInodes) (i : Nat) (env : SetEnv) : Files :=
  { s with
    attr := storeAll (storedValue h c (s.size h.pInodeNum)) s.attr (attempts h c i env)
    size := Function.update s.size c (s.size h.pInodeNum) }

/-- `ext4_xattr_set` of `SCORW_PARENT` in `c`, up to the attaching of the child. There is no
inode 0. -/
def setParent (s : Files) (c : Ino) (h : HelperInodes) (env : SetEnv) : Option (Int × Files) :=
  if h.pInodeNum = 0 ∨ h.fInodeNum = 0 then none
  else
    (s.lockPar h.pInodeNum).map fun s =>
      if s.size h.pInodeNum ≠ 0 then
        match s.freeSlot h.pInodeNum with
        | none => (maxChildsAlreadySet, s.unlockPar h.pInodeNum)
        | some i => (env.last.error, (s.setAttributes c h i env).unlockPar h.pInodeNum)
      else (parentError, s.unlockPar h.pInodeNum)

end Files

/-! ## What a call leaves -/

variable {s s' : Files} {c : Ino} {h : HelperInodes} {env : SetEnv} {ret : Int}

/-- The parent is empty, or has a child in every slot. -/
def Refused (s : Files) (p : Ino) : Prop := s.size p = 0 ∨ s.freeSlot p = none

/-- There is no inode 0. -/
theorem inodes_of_setParent (called : s.setParent c h env = some (ret, s')) :
    h.pInodeNum ≠ 0 ∧ h.fInodeNum ≠ 0 := by
  unfold Files.setParent at called
  split at called
  case isTrue => cases called
  case isFalse inodes => exact not_or.mp inodes

/-- Whatever else is changed while the mutexes are held. -/
theorem unlockPar_locked {p : Ino} (free : s.mutexes p = ⟨false, false, false⟩)
    (attr : ∀ key : Key, Option key.2.Value) (size : Ino → Nat) :
    Files.unlockPar ⟨attr, size, Function.update s.mutexes p ⟨true, true, true⟩⟩ p =
      ⟨attr, size, s.mutexes⟩ := by
  unfold Files.unlockPar
  dsimp only
  rw [Function.update_idem, ← free, Function.update_eq_self]

/-- The mutexes are given back in any case. -/
theorem setParent_cases (called : s.setParent c h env = some (ret, s')) :
    (Refused s h.pInodeNum ∧ s' = s ∧ ret ≠ 0) ∨
      ∃ i, s.size h.pInodeNum ≠ 0 ∧ s.freeSlot h.pInodeNum = some i ∧ ret = env.last.error ∧
        s' = s.setAttributes c h i env := by
  unfold Files.setParent at called
  split at called
  case isTrue => cases called
  case isFalse =>
    obtain ⟨locked, locks, result⟩ := Option.map_eq_some_iff.mp called
    unfold Files.lockPar at locks
    split at locks
    case isFalse => cases locks
    case isTrue free =>
      cases locks
      dsimp only at result
      split at result
      case isTrue nonempty =>
        split at result
        case h_1 full =>
          cases result
          exact .inl ⟨.inr full, unlockPar_locked free s.attr s.size, by decide⟩
        case h_2 i slot =>
          cases result
          exact .inr ⟨i, nonempty, slot, rfl, unlockPar_locked free _ _⟩
      case isFalse empty =>
        cases result
        exact .inl ⟨.inl (by simpa using empty), unlockPar_locked free s.attr s.size, by decide⟩

/-- Nothing that the call stores differs from what is there. -/
structure StoresNothingNew (s : Files) (c : Ino) (h : HelperInodes) (env : SetEnv) : Prop where
  size : s.size c = s.size h.pInodeNum
  attr : ∀ i, s.freeSlot h.pInodeNum = some i → ∀ key, (key, true) ∈ attempts h c i env →
    s.attr key = some (storedValue h c (s.size h.pInodeNum) key)

theorem setAttributes_eq_self_iff {i : Nat} (slot : s.freeSlot h.pInodeNum = some i) :
    s.setAttributes c h i env = s ↔ StoresNothingNew s c h env := by
  constructor
  · intro same
    have attr : storeAll (storedValue h c (s.size h.pInodeNum)) s.attr (attempts h c i env) =
        s.attr := congrArg Files.attr same
    have size : Function.update s.size c (s.size h.pInodeNum) = s.size := congrArg Files.size same
    refine ⟨?_, fun i' slot' => ?_⟩
    · rw [← congrFun size c, Function.update_self]
    · cases slot.symm.trans slot'
      exact storeAll_eq_self_iff.mp attr
  · rintro ⟨size, attr⟩
    unfold Files.setAttributes
    rw [storeAll_eq_self_iff.mpr (attr i slot), ← size, Function.update_eq_self]

/-- A call gives all mutexes back, however it ends. It leaves everything else as it was exactly
when it is refused because the parent is empty or full, or all it stored was there before, with
the child as large as the parent. -/
theorem failed_clone_no_trace_iff (called : s.setParent c h env = some (ret, s')) :
    s'.mutexes = s.mutexes ∧
      (s' = s ↔ Refused s h.pInodeNum ∨ StoresNothingNew s c h env) := by
  rcases setParent_cases called with ⟨refused, rfl, _⟩ | ⟨i, nonempty, slot, _, rfl⟩
  · exact ⟨rfl, iff_of_true rfl (.inl refused)⟩
  · refine ⟨rfl, ?_⟩
    rw [setAttributes_eq_self_iff slot]
    refine (or_iff_right ?_).symm
    rintro (empty | full)
    · exact nonempty empty
    · cases slot.symm.trans full

/-- Files without attributes, of sizes that are given. -/
def Files.plain (size : Ino → Nat) : Files :=
  ⟨fun _ => none, size, fun _ => ⟨false, false, false⟩⟩

/-- All stores succeed but the last one. -/
def journalFails : SetEnv := ⟨fun _ => true, ⟨-28, false, by decide⟩⟩

/-- A clone of the empty file 11 fails and leaves no trace. -/
theorem failed_clone_of_empty_parent :
    ∃ ret, (Files.plain fun _ => 0).setParent 12 ⟨11, 13, 14, 0, fun _ => ⟨0, 0, 0⟩⟩ journalFails =
      some (ret, Files.plain fun _ => 0) := by
  have called : ∃ s', (Files.plain fun _ => 0).setParent 12
      ⟨11, 13, 14, 0, fun _ => ⟨0, 0, 0⟩⟩ journalFails = some (parentError, s') := ⟨_, rfl⟩
  obtain ⟨s', called⟩ := called
  have same := (failed_clone_no_trace_iff called).2.mpr (.inl (.inl rfl))
  rw [same] at called
  exact ⟨_, called⟩

/-- File 12 is to be a child of file 11, and there is no room for the last attribute. -/
theorem failed_clone_leaves_trace :
    ∃ s', (Files.plain fun x => if x = 11 then 1 else 0).setParent 12
        ⟨11, 13, 14, 0, fun _ => ⟨0, 0, 0⟩⟩ journalFails = some (-28, s') ∧
      s'.number 11 (.scorwChild 0) = 12 ∧ s'.number 12 .scorwFriend = 13 ∧
      s'.number 13 .scorwChildFrnd = 12 ∧ s'.number 12 .scorwParent = 0 ∧ s'.size 12 = 1 := by
  have computed : (((Files.plain fun x => if x = 11 then 1 else 0).setParent 12
      ⟨11, 13, 14, 0, fun _ => ⟨0, 0, 0⟩⟩ journalFails).any fun r => decide
        (r.1 = -28 ∧ r.2.number 11 (.scorwChild 0) = 12 ∧ r.2.number 12 .scorwFriend = 13 ∧
          r.2.number 13 .scorwChildFrnd = 12 ∧ r.2.number 12 .scorwParent = 0 ∧
          r.2.size 12 = 1)) = true := by
    decide +kernel
  obtain ⟨⟨ret, s'⟩, called, last⟩ := (Option.any_eq_true _ _).mp computed
  obtain ⟨rfl, left⟩ := of_decide_eq_true last
  exact ⟨s', called, left⟩

end FlexClone.Scorw.Clone
