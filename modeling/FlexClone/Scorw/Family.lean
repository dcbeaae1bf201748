import FlexClone.Scorw.Recovery
import FlexClone.Scorw.System

/-!
# A parent and its children

`Family` is one parent with all the files that are or were its children: their
attributes, the `scorw_inode`s that are attached, the reference counts, and who
has which file open. `Family.step` is one system call, one step of the page copy
thread, or a crash: opening and closing, reading a child, cloning by setting the
attribute `scorw_parent`, unlinking a child, `update_version`, and the calls of
`System` on the parent.

A handle may have been opened before its file became a parent or a child. Opening
it counted nothing, but closing it later drops a reference when a `scorw_inode`
is attached by then.

The parent's `scorw_inode` is built by `createParent` and freed by `freeParent`,
which also get and put the children; `getParent`, `getChild`, `putParent` and
`putChild` are the branches of `scorw_get_inode` and `scorw_put_inode`. A kernel
bug or a thread that waits for a lock it holds itself is a `Fault`, after which
the family takes no step.
-/

namespace FlexClone.Scorw

/-- The number of an inode. -/
abbrev Ino := Nat

/-- The `scorw_inode` of a child. -/
structure ScorwChild where
  version : Nat
  /-- `i_process_usage_count` -/
  usageCount : Nat
  /-- `i_ino_unlinked` -/
  unlinked : Bool
  deriving DecidableEq

/-- A file that may be a child. -/
structure Child where
  /-- the attribute `scorw_parent` is set -/
  hasParent : Bool
  /-- the file has a name -/
  linked : Bool
  /-- the attribute `curr_version` -/
  currVersionAttr : Nat
  /-- the attribute `copy_size` -/
  copySize : Nat
  /-- some range of the child is `SEE_TH_RO` -/
  seeThruRo : Bool
  /-- the attribute `scorw_friend` -/
  friendIno : Ino
  /-- `i_scorw_inode` -/
  scorwInode : Option ScorwChild

/-- A file that is nobody's child. -/
def Child.plain : Child := ⟨false, true, 0, 0, false, 0, none⟩

/-- What stops the kernel, or the thread. -/
inductive Fault
  /-- `BUG_ON` of `scorw_dec_process_usage_count` -/
  | usageCount
  /-- `BUG_ON` of `special_open` -/
  | specialOpen
  /-- a `scorw_inode` that is not there is used -/
  | nullPointer
  /-- the thread asks for `frnd_version_cnt_lock`, which it holds -/
  | selfDeadlock
  deriving DecidableEq

/-- A parent with its children. -/
structure Family where
  /-- the parent's file, attributes and, while attached, its `scorw_inode` -/
  par : State
  /-- `i_scorw_inode` of the parent is set -/
  attached : Bool
  /-- `i_process_usage_count` of the parent -/
  usageCount : Nat
  /-- `added_to_page_copy - removed_from_page_copy` of the parent -/
  pageCopies : Nat
  /-- `i_vfs_inode_open_count` of the parent -/
  openCount : Int
  /-- `is_see_thru_ro` in memory -/
  isSeeThruRo : Bool
  /-- the attribute `see_thru_ro` of the parent -/
  seeThruRoAttr : Bool
  /-- the inode whose log is in memory -/
  logIno : Ino
  /-- the attribute `scorw_log` of the parent -/
  logAttr : Ino
  /-- the log files; the one in memory is `par.log` while the parent is attached -/
  logs : Ino → List LogRecord
  /-- the friend files -/
  friends : Ino → ByteFile UInt8
  /-- the children named by the parent's attributes `scorw_child_0`, `scorw_child_1`, … -/
  slots : List Ino
  /-- `i_child_scorw_inode` -/
  childInodes : List Ino
  child : Ino → Child
  /-- open handles of other files than the parent -/
  childHandles : List (Handle × Ino)
  /-- the handles that were opened before their file was a parent or a child -/
  early : List Handle
  /-- the parent has been opened as a parent before -/
  openedBefore : Bool
  /-- the parent has been opened as a parent since the file system was mounted -/
  openedSinceMount : Bool
  fault : Option Fault

namespace Family

/-- A file before anything is cloned from it, with all log files empty. Its
attributes are not there yet and nothing reads them; the version stands at what
the first clone stores. -/
def plain (f : ByteFile UInt8) : Family where
  par := ⟨⟨1, .empty, [], 0⟩, f, .init, 1, 0, [], 0⟩
  attached := false
  usageCount := 0
  pageCopies := 0
  openCount := 0
  isSeeThruRo := false
  seeThruRoAttr := false
  logIno := 0
  logAttr := 0
  logs := fun _ => []
  friends := fun _ => .blank 0
  slots := []
  childInodes := []
  child := fun _ => .plain
  childHandles := []
  early := []
  openedBefore := false
  openedSinceMount := false
  fault := none

/-- Change one child. -/
def setChild (F : Family) (c : Ino) (k : Child) : Family :=
  { F with child := Function.update F.child c k }

/-- Change the `scorw_inode` of a child. -/
def setScorwInode (F : Family) (c : Ino) (s : Option ScorwChild) : Family :=
  F.setChild c { F.child c with scorwInode := s }

@[simp] theorem child_setChild_self (F : Family) (c : Ino) (k : Child) :
    (F.setChild c k).child c = k := Function.update_self _ _ _

theorem child_setChild_of_ne {c d : Ino} (other : d ≠ c) (F : Family) (k : Child) :
    (F.setChild c k).child d = F.child d := Function.update_of_ne other _ _

@[simp] theorem child_setScorwInode_self (F : Family) (c : Ino) (s : Option ScorwChild) :
    (F.setScorwInode c s).child c = { F.child c with scorwInode := s } :=
  child_setChild_self F c _

theorem child_setScorwInode_of_ne {c d : Ino} (other : d ≠ c) (F : Family)
    (s : Option ScorwChild) : (F.setScorwInode c s).child d = F.child d :=
  child_setChild_of_ne other F _

/-! ## Getting and putting -/

/-- `scorw_get_inode` of a child; `false` is a null pointer. -/
def getChild (F : Family) (c : Ino) : Bool × Family :=
  match (F.child c).scorwInode with
  | some s =>
      if s.unlinked then (false, F)
      else
        let F := F.setScorwInode c (some { s with usageCount := s.usageCount + 1 })
        (true, if F.attached then { F with usageCount := F.usageCount + 1 } else F)
  | none => (true, F.setScorwInode c (some ⟨(F.child c).currVersionAttr, 1, false⟩))

/-- What the kernel finds when a parent is opened for the first time after a mount. -/
structure MountEnv where
  readPage : Nat → Bool
  blocks : BlockMap

/-- `scorw_is_opened_first_time` -/
def isOpenedFirstTime (F : Family) : Bool := F.openedBefore && !F.openedSinceMount

/-- What recovery works on: the parent as it was prepared. -/
def disk (F : Family) (env : MountEnv) : Disk :=
  ⟨F.logs F.logAttr, F.par.currVersionAttr, F.par.origSize, F.par.file.size, env.blocks⟩

/-- `scorw_prepare_par_inode`. Garbage collection only punches holes into the
parent's file and is left out. -/
def prepareParInode (F : Family) (env : MountEnv) : Family :=
  let par := { F.par with
    version := F.par.currVersionAttr
    cache := .empty
    log := F.logs F.logAttr
    tLocks := .init
    syncedLog := if F.logAttr = F.logIno then F.par.syncedLog else 0 }
  let par :=
    if F.isOpenedFirstTime then
      let recovered := recoverParent env.readPage (F.disk env)
      { par with
        version := recovered.1
        log := recovered.2.log
        currVersionAttr := recovered.2.currVersionAttr
        file := { par.file with size := recovered.2.size }
        syncedLog := min par.syncedLog recovered.2.log.length }
    else par
  { F with
    par := par
    logIno := F.logAttr
    isSeeThruRo := F.seeThruRoAttr
    openedBefore := true
    openedSinceMount := true }

/-- The loop of `scorw_get_inode` over the children of a new parent. A slot whose
file is gone, or is no child, is cleared. -/
def attachSlot (F : Family) (c : Ino) : Family :=
  if (F.child c).scorwInode = none ∧
      ¬ ((F.child c).hasParent = true ∧ (F.child c).linked = true) then
    { F with slots := F.slots.erase c }
  else
    let got := F.getChild c
    if got.1 then { got.2 with childInodes := got.2.childInodes ++ [c] } else got.2

/-- A new `scorw_inode` of the parent, before its children are attached. -/
def startParent (F : Family) (env : MountEnv) : Family :=
  { F.prepareParInode env with
    attached := true
    usageCount := 1
    pageCopies := 0
    childInodes := [] }

/-- `scorw_get_inode` of a parent that is not attached. -/
def createParent (F : Family) (env : MountEnv) : Family :=
  F.slots.foldl attachSlot (F.startParent env)

/-- `scorw_get_inode` of the parent. -/
def getParent (F : Family) (env : MountEnv) : Family :=
  if F.attached then { F with usageCount := F.usageCount + 1 } else F.createParent env

/-- The first half of `scorw_put_inode` of a child: the version is stored and the
count goes down. -/
def decChild (F : Family) (c : Ino) (s : ScorwChild) : Except Fault Family :=
  if s.usageCount = 0 then .error .usageCount
  else
    .ok (F.setChild c { F.child c with
      currVersionAttr := s.version
      scorwInode := some { s with usageCount := s.usageCount - 1 } })

/-- The second half: without users the `scorw_inode` is freed, and an unlinked
child is taken off its parent. -/
def freeChild (F : Family) (c : Ino) : Except Fault Family :=
  match (F.child c).scorwInode with
  | none => .ok F
  | some s =>
      if s.usageCount ≠ 0 then .ok F
      else if s.unlinked = false then
        .ok (F.setChild c { F.child c with
          currVersionAttr := s.version
          scorwInode := none })
      else if F.attached = false then .error .nullPointer
      else
        let F := F.setChild c { F.child c with
          currVersionAttr := s.version
          scorwInode := none }
        .ok { F with slots := F.slots.erase c, childInodes := F.childInodes.erase c }

/-- `scorw_put_inode` of a child by the loop over the children of a parent that
has just been detached. -/
def putChildOfParent (F : Family) (c : Ino) : Except Fault Family :=
  match (F.child c).scorwInode with
  | none => .ok F
  | some s => (F.decChild c s).bind fun F => F.freeChild c

/-- The last put of the parent: it is detached and its children are put. When
the put comes from the put of a child, the thread already holds the lock it needs
for the first one. -/
def freeParent (F : Family) (fromChild : Bool) : Except Fault Family :=
  let F := { F with
    attached := false
    par := { F.par with cache := .empty }
    logs := Function.update F.logs F.logIno F.par.log }
  if fromChild = true ∧ F.childInodes ≠ [] then .error .selfDeadlock
  else (F.childInodes.foldlM putChildOfParent F).map fun F => { F with childInodes := [] }

/-- The end of `scorw_put_inode` of the parent. -/
def freeUnused (F : Family) (fromChild : Bool) : Except Fault Family :=
  if F.usageCount = 0 ∧ F.pageCopies = 0 then F.freeParent fromChild else .ok F

/-- `scorw_put_inode` of the parent by a process. -/
def putParent (F : Family) (fromChild : Bool) : Except Fault Family :=
  if F.attached = false then .ok F
  else
    let F := { F with par := { F.par with currVersionAttr := F.par.version } }
    if F.usageCount = 0 then .error .usageCount
    else { F with usageCount := F.usageCount - 1 }.freeUnused fromChild

/-- `scorw_put_inode` of the parent by the page copy thread. -/
def threadPutParent (F : Family) : Except Fault Family :=
  if F.attached = false then .ok F
  else
    { F with
      par := { F.par with currVersionAttr := F.par.version }
      pageCopies := F.pageCopies - 1 }.freeUnused false

/-- `scorw_put_inode` of a child by itself. -/
def putChild (F : Family) (c : Ino) : Except Fault Family :=
  match (F.child c).scorwInode with
  | none => .ok F
  | some s =>
      (F.decChild c s).bind fun F =>
        (if F.attached then F.putParent true else .ok F).bind fun F => F.freeChild c

/-! ## Cloning -/

/-- `struct helper_inodes` for a child: `seeThruRo` says whether some range has
the flag `SEE_TH_RO`, `error` how storing the attribute `scorw_parent` ends. -/
structure CloneReq where
  child : Ino
  friendIno : Ino
  logIno : Ino
  seeThruRo : Bool
  error : Int

/-- `SCORW_PARENT_ERROR` -/
def parentError : Int := -8004

/-- `SCORW_ERR_MAX_CHILDS_ALREADY_SET` -/
def maxChildsAlreadySet : Int := -8000

/-- `SCORW_MAX_CHILDS` -/
def maxChilds : Nat := 64

/-- `scorw_init_friend_file`: an empty friend file gets zero pages, a bit for
every block of the child. -/
def initFriendFile (f : ByteFile UInt8) (copySize : Nat) : ByteFile UInt8 :=
  if f.size = 0 then
    .blank ((copySize + pageSize * 8 * pageSize - 1) / (pageSize * 8 * pageSize) * pageSize)
  else f

/-- The attributes `ext4_xattr_set` stores before `scorw_parent` itself. -/
def setAttributes (F : Family) (req : CloneReq) : Family :=
  let F := F.setChild req.child { F.child req.child with
    currVersionAttr := 1
    copySize := F.par.file.size
    seeThruRo := req.seeThruRo
    friendIno := req.friendIno }
  { F with
    slots := F.slots ++ [req.child]
    logAttr := req.logIno
    seeThruRoAttr := req.seeThruRo
    par := { F.par with
      currVersionAttr := 1
      origSize := roundUp F.par.file.size } }

/-- The attribute `scorw_parent` itself, and the friend file. -/
def setParent (F : Family) (req : CloneReq) : Family :=
  { F.setChild req.child { F.child req.child with hasParent := true } with
    friends := Function.update F.friends req.friendIno
      (initFriendFile (F.friends req.friendIno) F.par.file.size) }

/-- `special_open` -/
def specialOpen (F : Family) (c : Ino) (env : MountEnv) : Except Fault Family :=
  if F.attached then
    let got := F.getChild c
    if got.1 then
      .ok ({ got.2 with childInodes := got.2.childInodes ++ [c] }.getChild c).2
    else .error .specialOpen
  else if 1 < F.openCount then
    .ok ((Nat.iterate (fun F => F.getParent env) F.openCount.toNat F).getChild c).2
  else .ok F

/-- `ext4_xattr_set` of `scorw_parent`. -/
def clone (F : Family) (req : CloneReq) (env : MountEnv) : Int × Except Fault Family :=
  if F.par.file.size = 0 then (parentError, .ok F)
  else if maxChilds ≤ F.slots.length then (maxChildsAlreadySet, .ok F)
  else if req.error ≠ 0 then (req.error, .ok (F.setAttributes req))
  else (0, ((F.setAttributes req).setParent req).specialOpen req.child env)

/-! ## System calls -/

/-- `scorw_is_par_file` with a look at the attributes. -/
def isParFile (F : Family) : Bool := F.attached || !F.slots.isEmpty

/-- `scorw_is_child_file` with a look at the attributes. -/
def isChildFile (F : Family) (c : Ino) : Bool :=
  (F.child c).scorwInode.isSome || (F.child c).hasParent

/-- A handle is in use. -/
def isOpen (F : Family) (file : Handle) : Prop :=
  file ∈ F.par.handles ∨ file ∈ F.childHandles.map Prod.fst

instance (F : Family) (file : Handle) : Decidable (F.isOpen file) :=
  inferInstanceAs (Decidable (_ ∨ _))

/-- `ext4_file_open` of the parent. -/
def openParent (F : Family) (file : Handle) (env : MountEnv) : Family :=
  let F :=
    if F.isParFile then { F with openCount := F.openCount + 1 }.getParent env
    else { F with early := file :: F.early }
  { F with par := { F.par with handles := file :: F.par.handles } }

/-- `ext4_file_open` of another file. -/
def openChild (F : Family) (file : Handle) (c : Ino) (env : MountEnv) : Family :=
  let F := if F.isChildFile c then F.getParent env else { F with early := file :: F.early }
  { F with childHandles := (file, c) :: F.childHandles }

/-- `ext4_release_file` of the parent. -/
def releaseParent (F : Family) (file : Handle) : Except Fault Family :=
  let closed := { F with
    early := F.early.erase file
    par := { F.par with handles := F.par.handles.erase file } }
  if F.attached then
    { closed with
      openCount := F.openCount - 1
      par := { closed.par with tLocks := closeLocks F.par file } }.putParent false
  else .ok closed

/-- `ext4_release_file` of another file. -/
def releaseChild (F : Family) (file : Handle) (c : Ino) : Except Fault Family :=
  let closed := { F with
    early := F.early.erase file
    childHandles := F.childHandles.erase (file, c) }
  if (F.child c).scorwInode.isSome then closed.putParent false else .ok closed

/-- The part of `ext4_file_read_iter` that gets the parent of an attached child. -/
def readChild (F : Family) (c : Ino) (env : MountEnv) : Family :=
  if (F.child c).scorwInode.isSome ∧ F.attached = false then F.getParent env else F

/-- `scorw_unlink_child_file` -/
def unlinkChild (F : Family) (c : Ino) : Except Fault Family :=
  let F := F.setChild c { F.child c with linked := false }
  match (F.child c).scorwInode with
  | some s =>
      let F := F.setScorwInode c (some { s with unlinked := true })
      if F.attached then F.putChild c else .ok F
  | none => .ok { F with slots := F.slots.erase c }

/-- `update_version` -/
def updateVersion (F : Family) (c : Ino) : Int × Family :=
  match (F.child c).scorwInode with
  | none => (einval, F)
  | some s => (0, F.setScorwInode c (some { s with version := F.par.currVersionAttr }))

/-- A write to a parent that is not see-through, or not attached, goes to its own
place; `copies` page copies are queued for the children. -/
def writeInPlace (F : Family) (w : WriteReq) (env : WriteEnv) (copies : Nat) : Int × Family :=
  let loop := writePages env.pages F.par.file w.pos w.data 0
  (loop.reply, { F with
    par := { F.par with file := loop.file }
    pageCopies := if F.attached then F.pageCopies + copies else F.pageCopies })

/-- The calls of `System` on the parent other than opening and closing. -/
def call (F : Family) (op : Op) (copies : Nat) : Option (Int × Except Fault Family) :=
  let onParent := (Scorw.step F.par op).map fun r =>
    (r.1, (.ok { F with par := r.2 } : Except Fault Family))
  match op with
  | .beginTransaction file _ | .endTransaction file =>
      if file ∉ F.par.handles then none
      else if F.attached then onParent
      else some (0, .error .nullPointer)
  | .write file w env =>
      if file ∉ F.par.handles then none
      else if F.attached ∧ F.isSeeThruRo then onParent
      else
        let done := F.writeInPlace w env copies
        some (done.1, .ok done.2)
  | .writev file _ _ =>
      if file ∉ F.par.handles then none
      else if F.attached ∧ F.isSeeThruRo then onParent
      else some (einval, .ok F)
  | .lookup version blk env =>
      if F.attached then
        let found := lookupPhysicalBlock env F.par.toVersionStore version blk
        some (found.1.getD blkNotFound,
          .ok { F with par := { F.par with toVersionStore := found.2 } })
      else none
  | .openFile _ | .closeFile _ | .openChild | .closeChild => none

/-- What is left after a crash: `kept` records of every log file and some content
of the parent's file. -/
def crashed (F : Family) (kept : Ino → Nat) (file : ByteFile UInt8) : Family :=
  let logs := if F.attached then Function.update F.logs F.logIno F.par.log else F.logs
  { F with
    attached := false
    usageCount := 0
    pageCopies := 0
    openCount := 0
    logs := fun i => (logs i).take (kept i)
    childInodes := []
    child := fun c => { F.child c with scorwInode := none }
    childHandles := []
    early := []
    openedSinceMount := false
    par := { F.par with cache := .empty, tLocks := .init, handles := [], file := file } }

end Family

/-- One step of a family. -/
inductive FamilyOp
  | openParent (file : Handle) (env : Family.MountEnv)
  | closeParent (file : Handle)
  | openChild (file : Handle) (c : Ino) (env : Family.MountEnv)
  | closeChild (file : Handle) (c : Ino)
  | readChild (file : Handle) (c : Ino) (env : Family.MountEnv)
  | clone (req : Family.CloneReq) (env : Family.MountEnv)
  | unlinkChild (c : Ino)
  | updateVersion (file : Handle) (c : Ino)
  | call (op : Op) (copies : Nat)
  /-- the page copy thread is done with a page -/
  | pageCopied
  | crash (kept : Ino → Nat) (file : ByteFile UInt8)

namespace Family

/-- The state a call leaves, faults included. -/
def settle (F : Family) (ret : Int) (result : Except Fault Family) : Option (Int × Family) :=
  match result with
  | .ok F' => some (ret, F')
  | .error fault => some (ret, { F with fault := some fault })

/-- One step. -/
def step (F : Family) (op : FamilyOp) : Option (Int × Family) :=
  if F.fault.isSome then none
  else
    match op with
    | .openParent file env => if F.isOpen file then none else some (0, F.openParent file env)
    | .closeParent file =>
        if file ∈ F.par.handles then F.settle 0 (F.releaseParent file) else none
    | .openChild file c env =>
        if F.isOpen file ∨ (F.child c).linked = false then none
        else some (0, F.openChild file c env)
    | .closeChild file c =>
        if (file, c) ∈ F.childHandles then F.settle 0 (F.releaseChild file c) else none
    | .readChild file c env =>
        if (file, c) ∈ F.childHandles then some (0, F.readChild c env) else none
    | .clone req env =>
        let done := F.clone req env
        F.settle done.1 done.2
    | .unlinkChild c =>
        if (F.child c).linked = true ∧ F.isChildFile c = true then
          F.settle 0 (F.unlinkChild c)
        else none
    | .updateVersion file c =>
        if (file, c) ∈ F.childHandles then some (F.updateVersion c) else none
    | .call op copies => (F.call op copies).bind fun done => F.settle done.1 done.2
    | .pageCopied => if F.pageCopies = 0 then none else F.settle 0 F.threadPutParent
    | .crash kept file =>
        if F.par.syncedLog ≤ kept F.logIno then some (0, F.crashed kept file) else none

end Family

end FlexClone.Scorw
