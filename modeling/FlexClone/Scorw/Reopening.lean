import FlexClone.Scorw.CloneAttributes

/-!
# Opening a clone again

`scorw_prepare_child_inode` and `scorw_prepare_par_inode` read the attributes that a clone has
stored. They stop the kernel if a number is missing, and at a fifth range. A range that is
missing is not noticed: what is on the stack is taken instead.

Ranges are stored in 32, 32 and 16 bits, and nothing of a description is checked when it is
accepted. `accepted_clone_reopens_iff` says which descriptions come back as they were supplied.
-/

namespace FlexClone.Scorw.Clone

/-- `MAX_RANGES_SUPPORTED` -/
def maxRangesSupported : Nat := 4

/-- The `BUG_ON`s. -/
inductive Bug
  | parent
  | friendFile
  | currVersion
  | range
  | memory
  | versions
  | seeThruRo
  | log
  | origSize
  deriving DecidableEq

/-- A range in memory. -/
def ChildRangeXattr.unpack (crx : ChildRangeXattr) : SuppliedRange :=
  ⟨crx.start, crx.stop, crx.snapBehavior⟩

/-- What a child finds besides its attributes: what is on the stack where a range is read,
whether memory can be allocated, and `i_cannot_update_child_version_cnt`. -/
structure PrepareEnv where
  stack : Nat → ChildRangeXattr
  memory : Bool
  firstWriteDone : Bool

/-- `int curr_version` -/
def intOf (n : Int) : Int := n.bmod (2 ^ 32)

/-- The `scorw_inode` of a child, as far as it comes from the attributes. -/
structure ChildInode where
  version : Int
  copySize : Int
  pendingCopyPages : Int
  numRanges : Int
  range : List SuppliedRange
  isSeeThruRo : Bool

/-- The `scorw_inode` of a parent. -/
structure ParInode where
  isSeeThruRo : Int
  logInode : Int
  version : Int

namespace Files

variable (s : Files)

/-- `scorw_get_range_attr_val`: only an index that is too large is reported as 0. -/
def getRangeAttrVal (c : Ino) (index : Nat) (stack : ChildRangeXattr) :
    Option ChildRangeXattr :=
  if maxRangesSupported ≤ index then none else some ((s.attr (c, .range index)).getD stack)

/-- The loop over the ranges. -/
def loadRanges (c : Ino) (stack : Nat → ChildRangeXattr) : Nat → Except Bug (List SuppliedRange)
  | 0 => .ok []
  | i + 1 =>
      (loadRanges c stack i).bind fun ranges =>
        match s.getRangeAttrVal c i (stack i) with
        | none => .error .range
        | some crx => .ok (ranges ++ [crx.unpack])

/-- `scorw_prepare_child_inode`, without the recovery of the friend file -/
def prepareChildInode (c : Ino) (env : PrepareEnv) : Except Bug ChildInode :=
  if s.number c .scorwParent = 0 then .error .parent
  else if s.number c .scorwFriend = 0 then .error .friendFile
  else if intOf (s.number c .currVersion) = 0 then .error .currVersion
  else
    (s.loadRanges c env.stack (s.number c .numRanges).toNat).bind fun ranges =>
      if env.memory = false then .error .memory
      else if env.firstWriteDone = false ∧ (s.number c .version = 0 ∨
          s.number (s.number c .scorwFriend).toNat .version = 0) then .error .versions
      else
        .ok
          { version := intOf (s.number c .currVersion)
            copySize := s.number c .copySize
            pendingCopyPages := s.number c .blocksToCopy
            numRanges := s.number c .numRanges
            range := ranges
            isSeeThruRo := ranges.any fun r => decide (r.snapxBehavior = seeThRo) }

/-- `scorw_prepare_par_inode`, without recovery -/
def prepareParInode (p : Ino) : Except Bug ParInode :=
  if s.number p .seeThruRo = -1 then .error .seeThruRo
  else if s.number p .scorwLog = 0 then .error .log
  else if intOf (s.number p .currVersion) = 0 then .error .currVersion
  else if s.number p .parOrg = 0 then .error .origSize
  else
    .ok
      { isSeeThruRo := s.number p .seeThruRo
        logInode := s.number p .scorwLog
        version := intOf (s.number p .currVersion) }

end Files

/-- The ranges of a description. -/
def HelperInodes.table (h : HelperInodes) : List SuppliedRange :=
  (List.range h.numRanges.toNat).map h.range

/-- Both files can be prepared, and the child has the ranges that were supplied. -/
def Reopens (s : Files) (c : Ino) (h : HelperInodes) (env : PrepareEnv) : Prop :=
  ∃ child par, s.prepareChildInode c env = .ok child ∧ s.prepareParInode h.pInodeNum = .ok par ∧
    child.numRanges = h.numRanges ∧ child.range = h.table

/-! ## What preparing needs -/

variable {s s' : Files} {c : Ino} {h : HelperInodes} {env : SetEnv} {prep : PrepareEnv}

/-- What a number has to be like for a description to come back. -/
def ServesNumber (h : HelperInodes) : Attr → Int → Prop
  | .scorwParent, n | .scorwFriend, n | .version, n | .scorwLog, n | .parOrg, n => n ≠ 0
  | .currVersion, n => intOf n ≠ 0
  | .numRanges, n => n = h.numRanges
  | .seeThruRo, n => n ≠ -1
  | .scorwChild _, _ | .copySize, _ | .blocksToCopy, _ | .scorwChildFrnd, _ => True

/-- What is under a key lets the description come back. -/
def Serves (h : HelperInodes) (stack : Nat → ChildRangeXattr) (s : Files) : Key → Prop
  | (x, .number a) => ServesNumber h a (s.number x a)
  | (x, .range j) => ((s.attr (x, .range j)).getD (stack j)).unpack = h.range j

/-- The attributes that are read for the child; `f` is its friend file. -/
def childKeys (h : HelperInodes) (c f : Ino) (firstWriteDone : Bool) : List Key :=
  ([(c, .number .scorwParent), (c, .number .scorwFriend), (c, .number .currVersion),
    (c, .number .numRanges)] : List Key) ++
  (List.range h.numRanges.toNat).map (fun j => (c, .range j)) ++
  if firstWriteDone then [] else [(c, .number .version), (f, .number .version)]

/-- The attributes that are read for the parent. -/
def parKeys (p : Ino) : List Key :=
  [(p, .number .seeThruRo), (p, .number .scorwLog), (p, .number .currVersion),
    (p, .number .parOrg)]

theorem loadRanges_eq (stack : Nat → ChildRangeXattr) (n : Nat) :
    s.loadRanges c stack n =
      if n ≤ maxRangesSupported then
        .ok ((List.range n).map fun j => ((s.attr (c, .range j)).getD (stack j)).unpack)
      else .error .range := by
  induction n with
  | zero => rfl
  | succ n ih =>
      unfold Files.loadRanges
      rw [ih]
      by_cases few : n + 1 ≤ maxRangesSupported
      · have below : ¬ maxRangesSupported ≤ n := by omega
        rw [if_pos (by omega), if_pos few, List.range_succ, List.map_append]
        unfold Files.getRangeAttrVal
        rw [if_neg below]
        rfl
      · rw [if_neg few]
        by_cases last : n ≤ maxRangesSupported
        · have above : maxRangesSupported ≤ n := by omega
          rw [if_pos last]
          unfold Files.getRangeAttrVal
          rw [if_pos above]
          rfl
        · rw [if_neg last]
          rfl

theorem forall_childKeys {f : Ino} {firstWriteDone : Bool} {P : Key → Prop} :
    (∀ key ∈ childKeys h c f firstWriteDone, P key) ↔
      (P (c, .number .scorwParent) ∧ P (c, .number .scorwFriend) ∧
        P (c, .number .currVersion) ∧ P (c, .number .numRanges)) ∧
      (∀ j < h.numRanges.toNat, P (c, .range j)) ∧
      (firstWriteDone = false → P (c, .number .version) ∧ P (f, .number .version)) := by
  unfold childKeys
  rw [List.forall_mem_append, List.forall_mem_append, and_assoc]
  refine and_congr ?_ (and_congr ?_ ?_)
  · simp
  · simp
  · cases firstWriteDone <;> simp

theorem forall_parKeys {p : Ino} {P : Key → Prop} :
    (∀ key ∈ parKeys p, P key) ↔
      P (p, .number .seeThruRo) ∧ P (p, .number .scorwLog) ∧ P (p, .number .currVersion) ∧
        P (p, .number .parOrg) := by
  simp [parKeys]

/-- Past a `BUG_ON`. -/
theorem ite_error_eq_ok_iff {α : Type*} {stop : Prop} [Decidable stop] {bug : Bug}
    {next : Except Bug α} {a : α} :
    (if stop then .error bug else next) = .ok a ↔ ¬ stop ∧ next = .ok a := by
  split
  case isTrue stops => exact iff_of_false nofun fun passes => passes.1 stops
  case isFalse passes => exact (and_iff_right passes).symm

theorem prepareParInode_ok_iff {p : Ino} (stack : Nat → ChildRangeXattr) :
    (∃ par, s.prepareParInode p = .ok par) ↔ ∀ key ∈ parKeys p, Serves h stack s key := by
  rw [forall_parKeys]
  unfold Files.prepareParInode
  simp only [ite_error_eq_ok_iff]
  constructor
  · rintro ⟨par, seeThru, log, current, original, _⟩
    exact ⟨seeThru, log, current, original⟩
  · rintro ⟨seeThru, log, current, original⟩
    exact ⟨_, seeThru, log, current, original, rfl⟩

/-- A child comes back with the ranges of a description. -/
theorem prepareChildInode_ok_iff :
    (∃ child, s.prepareChildInode c prep = .ok child ∧ child.numRanges = h.numRanges ∧
        child.range = h.table) ↔
      prep.memory = true ∧ h.numRanges ≤ maxRangesSupported ∧
        ∀ key ∈ childKeys h c (s.number c .scorwFriend).toNat prep.firstWriteDone,
          Serves h prep.stack s key := by
  rw [forall_childKeys]
  unfold Files.prepareChildInode
  rw [loadRanges_eq]
  simp only [ite_error_eq_ok_iff]
  constructor
  · rintro ⟨child, ⟨parent, friendFile, current, ok⟩, count, table⟩
    split at ok
    case isFalse => cases ok
    case isTrue few =>
      dsimp only [Except.bind] at ok
      obtain ⟨memory, ok⟩ := ite_error_eq_ok_iff.mp ok
      obtain ⟨versions, ok⟩ := ite_error_eq_ok_iff.mp ok
      cases ok
      dsimp only at count table
      rw [count] at few table
      refine ⟨Bool.eq_true_of_not_eq_false memory, by omega,
        ⟨parent, friendFile, current, count⟩, fun j below => ?_, fun first => ?_⟩
      · exact List.map_inj_left.mp table j (List.mem_range.mpr below)
      · exact not_or.mp fun missing => versions ⟨first, missing⟩
  · rintro ⟨memory, few, ⟨parent, friendFile, current, count⟩, ranges, versions⟩
    have count : s.number c .numRanges = h.numRanges := count
    have table : (List.range h.numRanges.toNat).map
        (fun j => ((s.attr (c, .range j)).getD (prep.stack j)).unpack) = h.table :=
      List.map_inj_left.mpr fun j inside => ranges j (List.mem_range.mp inside)
    rw [count, if_pos (by omega), table]
    refine ⟨_, ⟨parent, friendFile, current, ite_error_eq_ok_iff.mpr ⟨?_,
      ite_error_eq_ok_iff.mpr ⟨?_, rfl⟩⟩⟩, rfl, rfl⟩
    · rw [memory]
      decide
    · rintro ⟨first, missing⟩
      exact not_or.mpr (versions first) missing

/-- What two files have to be like for a description to come back. -/
theorem reopens_iff :
    Reopens s c h prep ↔
      prep.memory = true ∧ h.numRanges ≤ maxRangesSupported ∧
        ∀ key ∈ childKeys h c (s.number c .scorwFriend).toNat prep.firstWriteDone ++
          parKeys h.pInodeNum, Serves h prep.stack s key := by
  rw [List.forall_mem_append, ← prepareParInode_ok_iff]
  constructor
  · rintro ⟨child, par, ready, readyPar, same⟩
    obtain ⟨memory, few, serves⟩ := prepareChildInode_ok_iff.mp ⟨child, ready, same⟩
    exact ⟨memory, few, serves, par, readyPar⟩
  · rintro ⟨memory, few, serves, par, readyPar⟩
    obtain ⟨child, ready, same⟩ := prepareChildInode_ok_iff.mpr ⟨memory, few, serves⟩
    exact ⟨child, par, ready, readyPar, same⟩

/-! ## What an accepted description leaves -/

/-- A range that is not changed by packing. -/
structure SuppliedRange.Fits (r : SuppliedRange) : Prop where
  start : 0 ≤ r.start ∧ r.start < 2 ^ 32
  stop : 0 ≤ r.stop ∧ r.stop < 2 ^ 32
  snapxBehavior : r.snapxBehavior < 2 ^ 16

theorem SuppliedRange.unpack_pack_iff {r : SuppliedRange} : r.pack.unpack = r ↔ r.Fits := by
  obtain ⟨start, stop, behavior⟩ := r
  unfold SuppliedRange.pack ChildRangeXattr.unpack
  rw [SuppliedRange.mk.injEq]
  constructor
  · rintro ⟨starts, stops, behaves⟩
    dsimp only at starts stops behaves
    exact ⟨by dsimp only; omega, by dsimp only; omega, by dsimp only; omega⟩
  · rintro ⟨starts, stops, behaves⟩
    dsimp only at starts stops behaves ⊢
    exact ⟨by omega, by omega, by omega⟩

/-- What a description has to be like for a key under which it was stored. -/
def FitsKey (h : HelperInodes) : Key → Prop
  | (_, .number .scorwLog) => h.lInodeNum ≠ 0
  | (_, .range j) => (h.range j).Fits
  | _ => True

/-- A store under the key succeeded. -/
abbrev Stored (h : HelperInodes) (c : Ino) (i : Nat) (env : SetEnv) (key : Key) : Prop :=
  (key, true) ∈ attempts h c i env

theorem attr_of_stored {i : Nat} {key : Key} (stored : Stored h c i env key) :
    (s.setAttributes c h i env).attr key = some (storedValue h c (s.size h.pInodeNum) key) :=
  (storeAll_apply _ _ _).trans (if_pos stored)

theorem attr_of_missing {i : Nat} {key : Key} (missing : ¬ Stored h c i env key) :
    (s.setAttributes c h i env).attr key = s.attr key :=
  (storeAll_apply _ _ _).trans (if_neg missing)

theorem number_of_stored {i : Nat} {x : Ino} {a : Attr}
    (stored : Stored h c i env (x, .number a)) :
    (s.setAttributes c h i env).number x a = storedNumber h c (s.size h.pInodeNum) a := by
  unfold Files.number
  rw [attr_of_stored stored]
  rfl

theorem number_of_missing {i : Nat} {x : Ino} {a : Attr}
    (missing : ¬ Stored h c i env (x, .number a)) :
    (s.setAttributes c h i env).number x a = s.number x a := by
  unfold Files.number
  rw [attr_of_missing missing]

theorem servesNumber_stored_iff (inodes : h.pInodeNum ≠ 0 ∧ h.fInodeNum ≠ 0) {size : Nat}
    (nonempty : size ≠ 0) (x : Ino) (a : Attr) :
    ServesNumber h a (storedNumber h c size a) ↔ FitsKey h (x, .number a) := by
  cases a with
  | scorwParent => exact iff_of_true (Int.natCast_ne_zero.mpr inodes.1) trivial
  | scorwFriend => exact iff_of_true (Int.natCast_ne_zero.mpr inodes.2) trivial
  | version => exact iff_of_true Int.one_ne_zero trivial
  | currVersion =>
      have first : intOf 1 ≠ 0 := by decide
      exact iff_of_true first trivial
  | scorwLog => exact Int.natCast_ne_zero
  | parOrg =>
      have positive : roundUp size ≠ 0 := by
        have := le_roundUp size
        omega
      exact iff_of_true (Int.natCast_ne_zero.mpr positive) trivial
  | numRanges => exact iff_of_true rfl trivial
  | seeThruRo =>
      have flag : (h.isSeeThru.toNat : Int) ≠ -1 := by omega
      exact iff_of_true flag trivial
  | scorwChild | copySize | blocksToCopy | scorwChildFrnd => exact iff_of_true trivial trivial

theorem serves_of_stored_iff (inodes : h.pInodeNum ≠ 0 ∧ h.fInodeNum ≠ 0)
    (nonempty : s.size h.pInodeNum ≠ 0) {i : Nat} {key : Key} (stored : Stored h c i env key)
    (stack : Nat → ChildRangeXattr) :
    Serves h stack (s.setAttributes c h i env) key ↔ FitsKey h key := by
  obtain ⟨x, a | j⟩ := key
  · unfold Serves
    dsimp only
    rw [number_of_stored stored]
    exact servesNumber_stored_iff inodes nonempty x a
  · unfold Serves
    dsimp only
    rw [attr_of_stored stored]
    exact SuppliedRange.unpack_pack_iff

theorem serves_of_missing_iff {i : Nat} {key : Key} (missing : ¬ Stored h c i env key)
    (stack : Nat → ChildRangeXattr) :
    Serves h stack (s.setAttributes c h i env) key ↔ Serves h stack s key := by
  obtain ⟨x, a | j⟩ := key
  · unfold Serves
    dsimp only
    rw [number_of_missing missing]
  · unfold Serves
    dsimp only
    rw [attr_of_missing missing]

/-- Only the log and the ranges of a description can be wrong. -/
theorem forall_fitsKey_iff {f : Ino} {firstWriteDone : Bool} {P : Key → Prop} :
    (∀ key ∈ childKeys h c f firstWriteDone ++ parKeys h.pInodeNum, P key → FitsKey h key) ↔
      (P (h.pInodeNum, .number .scorwLog) → h.lInodeNum ≠ 0) ∧
        ∀ j < h.numRanges.toNat, P (c, .range j) → (h.range j).Fits := by
  rw [List.forall_mem_append, forall_childKeys, forall_parKeys]
  constructor
  · rintro ⟨⟨_, ranges, _⟩, _, log, _⟩
    exact ⟨log, ranges⟩
  · rintro ⟨log, ranges⟩
    have any : ∀ {x a}, a ≠ .scorwLog → P (x, .number a) → FitsKey h (x, .number a) := by
      intro x a other _
      cases a with
      | scorwLog => exact absurd rfl other
      | _ => trivial
    exact ⟨⟨⟨any nofun, any nofun, any nofun, any nofun⟩, ranges, fun _ => ⟨any nofun, any nofun⟩⟩,
      any nofun, log, any nofun, any nofun⟩

/-- There are at most four ranges, all within 32 and 16 bits, there is a log, and there is
memory. Attributes that could not be stored have values that serve from before. -/
structure Reopenable (s : Files) (c : Ino) (h : HelperInodes) (i : Nat) (env : SetEnv)
    (prep : PrepareEnv) : Prop where
  memory : prep.memory = true
  few : h.numRanges ≤ maxRangesSupported
  log : Stored h c i env (h.pInodeNum, .number .scorwLog) → h.lInodeNum ≠ 0
  fits : ∀ j < h.numRanges.toNat, Stored h c i env (c, .range j) → (h.range j).Fits
  kept : ∀ key ∈ childKeys h c
      (if Stored h c i env (c, .number .scorwFriend) then h.fInodeNum
        else (s.number c .scorwFriend).toNat) prep.firstWriteDone ++ parKeys h.pInodeNum,
    ¬ Stored h c i env key → Serves h prep.stack s key

/-- A description that was accepted comes back as it was supplied exactly when it is
`Reopenable`. -/
theorem accepted_clone_reopens_iff (called : s.setParent c h env = some (0, s')) :
    Reopens s' c h prep ↔
      ∃ i, s.freeSlot h.pInodeNum = some i ∧ Reopenable s c h i env prep := by
  have inodes := inodes_of_setParent called
  rcases setParent_cases called with ⟨_, _, failed⟩ | ⟨i, nonempty, slot, _, rfl⟩
  · exact absurd rfl failed
  · have friendFile : ((s.setAttributes c h i env).number c .scorwFriend).toNat =
        if Stored h c i env (c, .number .scorwFriend) then h.fInodeNum
        else (s.number c .scorwFriend).toNat := by
      split
      case isTrue stored =>
        rw [number_of_stored stored]
        rfl
      case isFalse missing => rw [number_of_missing missing]
    rw [reopens_iff, friendFile]
    constructor
    · rintro ⟨memory, few, serves⟩
      obtain ⟨log, fits⟩ := forall_fitsKey_iff.mp fun key read stored =>
        (serves_of_stored_iff inodes nonempty stored _).mp (serves key read)
      exact ⟨i, slot, memory, few, log, fits, fun key read missing =>
        (serves_of_missing_iff missing _).mp (serves key read)⟩
    · rintro ⟨i', slot', memory, few, log, fits, kept⟩
      cases slot.symm.trans slot'
      refine ⟨memory, few, fun key read => ?_⟩
      by_cases stored : Stored h c i env key
      · rw [serves_of_stored_iff inodes nonempty stored]
        exact forall_fitsKey_iff.mpr ⟨log, fits⟩ key read stored
      · rw [serves_of_missing_iff stored]
        exact kept key read stored

/-- All stores succeed. -/
def allStored : SetEnv := ⟨fun _ => true, ⟨0, true, fun _ => rfl⟩⟩

/-- There is memory, and nothing but zeros on the stack. -/
def freshlyOpened : PrepareEnv := ⟨fun _ => ⟨0, 0, 0⟩, true, false⟩

/-- A child of file 11 with friend file 13, log 14 and a range of blocks 0 to 3. -/
def oneRange : HelperInodes := ⟨11, 13, 14, 1, fun _ => ⟨0, 3, 1⟩⟩

/-- File 12 becomes a child of a file of one page. -/
theorem accepted_clone_reopens_oneRange :
    ∃ s', (Files.plain fun _ => pageSize).setParent 12 oneRange allStored = some (0, s') ∧
      Reopens s' 12 oneRange freshlyOpened := by
  have called : ∃ s', (Files.plain fun _ => pageSize).setParent 12 oneRange allStored =
      some (0, s') := ⟨_, rfl⟩
  have fits : SuppliedRange.Fits ⟨0, 3, 1⟩ := ⟨by decide, by decide, by decide⟩
  have stored : ∀ key ∈ childKeys oneRange 12 13 false ++ parKeys 11,
      Stored oneRange 12 0 allStored key := by
    decide +kernel
  obtain ⟨s', called⟩ := called
  exact ⟨s', called, (accepted_clone_reopens_iff called).mpr ⟨0, rfl, rfl, by decide,
    fun _ => by decide, fun _ _ _ => fits,
    fun key read missing => absurd (stored key read) missing⟩⟩

/-- Five ranges and a missing log are accepted and stop the kernel, and a range that starts at
block `2 ^ 32` comes back at block 0. -/
theorem accepted_clone_not_reopened :
    (∃ s', (Files.plain fun _ => pageSize).setParent 12 ⟨11, 13, 14, 5, fun _ => ⟨0, 3, 1⟩⟩
        allStored = some (0, s') ∧
      s'.prepareChildInode 12 freshlyOpened = .error .range) ∧
    (∃ s', (Files.plain fun _ => pageSize).setParent 12 ⟨11, 13, 0, 0, fun _ => ⟨0, 3, 1⟩⟩
        allStored = some (0, s') ∧
      s'.prepareParInode 11 = .error .log) ∧
    ∃ s' child, (Files.plain fun _ => pageSize).setParent 12
        ⟨11, 13, 14, 1, fun _ => ⟨2 ^ 32, 2 ^ 32 + 3, 1⟩⟩ allStored = some (0, s') ∧
      s'.prepareChildInode 12 freshlyOpened = .ok child ∧ child.range = [⟨0, 3, 1⟩] := by
  refine ⟨⟨_, rfl, ?_⟩, ⟨_, rfl, ?_⟩, ?_⟩
  · rfl
  · rfl
  · exact ⟨_, _, rfl, rfl, rfl⟩

end FlexClone.Scorw.Clone
