import FlexClone.Threads
import FlexClone.Scorw.Family

/-!
# The mutexes of attaching and detaching

`scorw_get_inode`, `scorw_put_inode`, `scorw_unlink_child_file` and
`scorw_process_pending_frnd_version_cnt_inc_list`, cut at every mutex they take. A
thread has a list of things left to do; a call puts its steps in front of it, so
that the recursion from a child to its parent and from a parent to its children is
the list growing. Any number of families share `frnd_version_cnt_lock`.
-/

namespace FlexClone.Scorw.AttachLocks

variable {n : Nat}

/-! ## Locks and data -/

inductive Lock
  /-- `i_vfs_inode_open_close_lock` -/
  | openClose (i : Ino)
  /-- `i_vfs_inode_lock` -/
  | vfsInode (i : Ino)
  /-- `frnd_version_cnt_lock` -/
  | frndVersionCnt
  deriving DecidableEq

/-- `struct scorw_inode`, as far as it decides what is locked. -/
structure ScorwInode where
  /-- `i_par_vfs_inode` -/
  par : Option Ino
  usageCount : Nat
  /-- `added_to_page_copy - removed_from_page_copy` -/
  pageCopies : Nat
  unlinked : Bool
  /-- `i_at_index`, without `-1` -/
  atIndex : Option Nat
  /-- `i_child_scorw_inode` -/
  children : Nat → Option Ino

/-- What the threads share. -/
structure Shared (n : Nat) where
  /-- who holds a mutex -/
  owner : Lock → Option (Fin n)
  /-- `i_scorw_inode` -/
  scorw : Ino → Option ScorwInode
  /-- the attributes `scorw_child` of a parent -/
  childAttr : Ino → Nat → Option Ino
  /-- the children in `pending_frnd_version_cnt_inc_list` -/
  pending : List Ino

namespace Shared

def setScorw (sh : Shared n) (i : Ino) (s : Option ScorwInode) : Shared n :=
  { sh with scorw := Function.update sh.scorw i s }

/-- `scorw_inc_process_usage_count`, of a parent that is attached. -/
def incUsageCount (sh : Shared n) (i : Option Ino) : Shared n :=
  match i.bind fun p => (sh.scorw p).map fun s => (p, s) with
  | some (p, s) => sh.setScorw p (some { s with usageCount := s.usageCount + 1 })
  | none => sh

/-- `scorw_remove_child_i_attr` -/
def removeChildAttr (sh : Shared n) (p : Ino) (index : Nat) : Shared n :=
  { sh with
    childAttr := Function.update sh.childAttr p (Function.update (sh.childAttr p) index none) }

/-- The attribute that names the child is removed from its parent. -/
def forgetChild (sh : Shared n) (p c : Ino) : Shared n :=
  match (List.range Family.maxChilds).find? fun j => sh.childAttr p j = some c with
  | some j => sh.removeChildAttr p j
  | none => sh

/-- An unlinked child is taken off its parent. Without the parent in memory this
goes through a null pointer. -/
def detachUnlinked (sh : Shared n) (c : Ino) (s : ScorwInode) : Option (Shared n) :=
  match s.unlinked, s.par with
  | true, some p =>
      match s.atIndex with
      | none => some (sh.forgetChild p c)
      | some index =>
          (sh.scorw p).map fun q =>
            (sh.setScorw p (some { q with
              children := Function.update q.children index none })).forgetChild p c
  | _, _ => some sh

end Shared

/-! ## Threads -/

/-- What a thread has to do next. -/
inductive Instr
  | lock (k : Lock)
  | unlock (k : Lock)
  | getInode (i : Ino) (isChild : Bool)
  /-- `scorw_get_inode` with the mutex of the inode -/
  | getLocked (i : Ino) (isChild : Bool)
  /-- one turn of the loop over the children of a parent that gets attached -/
  | getChild (p : Ino) (index : Nat)
  | setChild (p : Ino) (index : Nat) (c : Ino)
  | putInode (i : Ino) (isChild isThreadPutting isParPutting : Bool)
  /-- `scorw_put_inode` with its mutexes -/
  | putLocked (i : Ino) (isChild isThreadPutting isParPutting : Bool)
  /-- the part that frees a `scorw_inode` without users -/
  | freeUnused (i : Ino) (isChild isParPutting : Bool)
  /-- the loop over the children of a parent that was detached -/
  | putChildren (cs : List Ino) (isParPutting : Bool)
  | unlinkChildFile (c : Ino)
  /-- `scorw_unlink_child_file` with the two mutexes against opening and closing -/
  | unlinkLocked (c p : Ino)
  | processPending (syncChild : Bool)
  /-- the loop over the requests -/
  | processList (syncChild : Bool)
  /-- one request, with the mutex of its child -/
  | processRequest (c : Ino) (syncChild : Bool)
  deriving DecidableEq

/-- Where a thread is: what is left to do, and whether the last `scorw_get_inode`
returned a `scorw_inode`. -/
structure Place where
  todo : List Instr
  got : Bool

section Exec

-- the attribute `scorw_parent`
variable (parentAttr : Ino → Option Ino)

/-- What `scorw_get_inode` does with the mutex of the inode. `failed` says whether
the allocation fails. -/
def getLocked (failed : Bool) (sh : Shared n) (i : Ino) (isChild : Bool) :
    List Instr × Bool × Shared n :=
  match sh.scorw i with
  | some s =>
      if isChild = true ∧ s.unlinked = true then ([], false, sh)
      else
        ([], true, (sh.setScorw i (some { s with
          usageCount := s.usageCount + 1 })).incUsageCount s.par)
  | none =>
      if failed then ([], false, sh)
      else
        (if isChild then [] else [.getChild i 0], true, sh.setScorw i (some
          ⟨if isChild then parentAttr i else none, 1, 0, false, none, fun _ => none⟩))

/-- One turn of the loop. A child that is none is dropped, and so is one that cannot
be read. -/
def getChild (failed : Bool) (sh : Shared n) (p : Ino) (index : Nat) :
    List Instr × Shared n :=
  if Family.maxChilds ≤ index then ([], sh)
  else
    match sh.childAttr p index with
    | none => ([.getChild p (index + 1)], sh)
    | some c =>
        if failed = true ∨ parentAttr c = none then
          ([.getChild p (index + 1)], sh.removeChildAttr p index)
        else ([.getInode c true, .setChild p index c, .getChild p (index + 1)], sh)

/-- The child got attached, or there is no `scorw_inode` of it. -/
def setChild (got : Bool) (sh : Shared n) (p : Ino) (index : Nat) (c : Ino) : Shared n :=
  match sh.scorw p with
  | none => sh
  | some s =>
      let sh := sh.setScorw p (some { s with
        children := Function.update s.children index (if got then some c else none) })
      match got, sh.scorw c with
      | true, some q => sh.setScorw c (some { q with atIndex := some index })
      | _, _ => sh

/-- The first half of `scorw_put_inode`: the count goes down, and a child puts its
parent as well. -/
def putLocked (sh : Shared n) (i : Ino) (isChild isThreadPutting isParPutting : Bool) :
    Option (List Instr × Shared n) :=
  match sh.scorw i with
  | none => some ([], sh)
  | some s =>
      if isThreadPutting then
        some ([.freeUnused i isChild isParPutting],
          sh.setScorw i (some { s with pageCopies := s.pageCopies - 1 }))
      else if s.usageCount = 0 then none
      else
        let sh := sh.setScorw i (some { s with usageCount := s.usageCount - 1 })
        match s.par with
        | some p =>
            if isChild = true ∧ (sh.scorw p).isSome = true ∧ isParPutting = false then
              some ([.putInode p false false true, .freeUnused i isChild isParPutting], sh)
            else some ([.freeUnused i isChild isParPutting], sh)
        | none => some ([.freeUnused i isChild isParPutting], sh)

/-- The second half. `pending` says whether the version of the child was raised since
its friend's was. -/
def freeUnused (pending : Bool) (sh : Shared n) (i : Ino) (isChild isParPutting : Bool) :
    Option (List Instr × Shared n) :=
  match sh.scorw i with
  | none => some ([], sh)
  | some s =>
      if s.usageCount ≠ 0 ∨ s.pageCopies ≠ 0 then some ([], sh)
      else if isChild then
        (sh.detachUnlinked i s).map fun sh =>
          ([], { sh.setScorw i none with
            pending := if pending = true ∧ i ∉ sh.pending then sh.pending ++ [i]
              else sh.pending })
      else
        some ([.putChildren ((List.range Family.maxChilds).filterMap s.children) isParPutting],
          sh.setScorw i none)

/-- `scorw_unlink_child_file` looks at the two inodes without their mutexes. -/
def unlinkLocked (sh : Shared n) (c p : Ino) : List Instr × Shared n :=
  match sh.scorw c with
  | some s =>
      let sh := sh.setScorw c (some { s with unlinked := true })
      if (sh.scorw p).isSome then
        ([.unlock (.openClose c), .putInode c true false false, .unlock (.openClose p)], sh)
      else ([.unlock (.openClose c), .unlock (.openClose p)], sh)
  | none => ([.unlock (.openClose c), .unlock (.openClose p)], sh.forgetChild p c)

/-- One request of the list. `dirty` says whether the child or its version is not on
disk yet. -/
def processRequest (dirty : Bool) (sh : Shared n) (c : Ino) (syncChild : Bool) :
    Option (Shared n) :=
  let rest := sh.pending.erase c
  if syncChild then if (sh.scorw c).isSome then none else some { sh with pending := rest }
  else if (sh.scorw c).isSome = false ∧ dirty = true then some { sh with pending := rest ++ [c] }
  else some { sh with pending := rest }

/-- The first thing on the list of thread `t` is done: what comes in its place, and
the register. A mutex that is taken is waited for; a failing assertion of the kernel
is the end of the thread. `outcome` is what the thread meets on the way. -/
def exec (t : Fin n) (outcome : Bool) (sh : Shared n) (got : Bool) :
    Instr → Option (List Instr × Bool × Shared n)
  | .lock k =>
      if sh.owner k = none then
        some ([], got, { sh with owner := Function.update sh.owner k (some t) })
      else none
  | .unlock k => some ([], got, { sh with owner := Function.update sh.owner k none })
  | .getInode i isChild =>
      some ([.lock (.vfsInode i), .getLocked i isChild, .unlock (.vfsInode i)], got, sh)
  | .getLocked i isChild => some (getLocked parentAttr outcome sh i isChild)
  | .getChild p index =>
      let next := getChild parentAttr outcome sh p index
      some (next.1, got, next.2)
  | .setChild p index c => some ([], got, setChild got sh p index c)
  | .putInode i true isThreadPutting isParPutting =>
      some ([.lock .frndVersionCnt, .lock (.vfsInode i),
        .putLocked i true isThreadPutting isParPutting,
        .unlock (.vfsInode i), .unlock .frndVersionCnt], got, sh)
  | .putInode i false isThreadPutting isParPutting =>
      some ([.lock (.vfsInode i), .putLocked i false isThreadPutting isParPutting,
        .unlock (.vfsInode i)], got, sh)
  | .putLocked i isChild isThreadPutting isParPutting =>
      (putLocked sh i isChild isThreadPutting isParPutting).map fun next => (next.1, got, next.2)
  | .freeUnused i isChild isParPutting =>
      (freeUnused outcome sh i isChild isParPutting).map fun next => (next.1, got, next.2)
  | .putChildren [] _ => some ([], got, sh)
  | .putChildren (c :: cs) isParPutting =>
      some ([.putInode c true false isParPutting, .putChildren cs isParPutting], got, sh)
  | .unlinkChildFile c =>
      match parentAttr c with
      | none => some ([], got, sh)
      | some p => some ([.lock (.openClose c), .lock (.openClose p), .unlinkLocked c p], got, sh)
  | .unlinkLocked c p =>
      let next := unlinkLocked sh c p
      some (next.1, got, next.2)
  | .processPending syncChild =>
      some ([.lock .frndVersionCnt, .processList syncChild, .unlock .frndVersionCnt], got, sh)
  | .processList syncChild =>
      some (sh.pending.flatMap fun c =>
        [.lock (.vfsInode c), .processRequest c syncChild, .unlock (.vfsInode c)], got, sh)
  | .processRequest c syncChild =>
      (processRequest outcome sh c syncChild).map fun sh => ([], got, sh)

/-- A call from outside. A file is got and put as a child only if it is one. -/
inductive Call
  | getInode (i : Ino) (isChild : Bool)
  | putInode (i : Ino) (isChild : Bool)
  /-- `scorw_put_inode` by the page copy thread -/
  | threadPutInode (p : Ino)
  | unlinkChildFile (c : Ino)
  | processPending (syncChild : Bool)
  deriving DecidableEq

def Call.instr : Call → Instr
  | .getInode i isChild => .getInode i isChild
  | .putInode i isChild => .putInode i isChild false false
  | .threadPutInode p => .putInode p false true false
  | .unlinkChildFile c => .unlinkChildFile c
  | .processPending syncChild => .processPending syncChild

/-- The call is made on a file of the right kind. -/
def Call.Fits : Call → Prop
  | .getInode i isChild | .putInode i isChild => isChild = true → parentAttr i ≠ none
  | _ => True

instance : (call : Call) → Decidable (call.Fits parentAttr)
  | .getInode _ _ | .putInode _ _ => inferInstanceAs (Decidable (_ → _))
  | .threadPutInode _ | .unlinkChildFile _ | .processPending _ =>
      inferInstanceAs (Decidable True)

inductive Move
  | start (call : Call)
  | run (outcome : Bool)
  deriving DecidableEq

/-- One move of thread `t`. -/
def move (t : Fin n) (sh : Shared n) (place : Place) :
    Move → Option (Unit × Place × Shared n)
  | .start call =>
      if place.todo = [] ∧ call.Fits parentAttr then
        some ((), { place with todo := [call.instr] }, sh)
      else none
  | .run outcome =>
      match place.todo with
      | [] => none
      | instr :: rest =>
          (exec parentAttr t outcome sh place.got instr).map fun next =>
            ((), ⟨next.1 ++ rest, next.2.1⟩, next.2.2)

end Exec

abbrev System (n : Nat) := Threads (Fin n) (Shared n) Place

def step (parentAttr : Ino → Option Ino) (s : System n) (a : Fin n × Move) :
    Option (Unit × System n) :=
  Threads.step (move parentAttr) s a.1 a.2

/-- Nothing is attached and nothing is locked. -/
def System.init (n : Nat) (childAttr : Ino → Nat → Option Ino) : System n :=
  ⟨⟨fun _ => none, fun _ => none, childAttr, []⟩, fun _ => ⟨[], false⟩⟩

/-- The thread holds the mutex. -/
def Holds (s : System n) (t : Fin n) (k : Lock) : Prop := s.shared.owner k = some t

instance (s : System n) (t : Fin n) (k : Lock) : Decidable (Holds s t k) :=
  inferInstanceAs (Decidable (_ = _))

/-- The mutex the thread tries to take. -/
def wants (s : System n) (t : Fin n) : Option Lock :=
  match (s.place t).todo with
  | .lock k :: _ => some k
  | _ => none

end FlexClone.Scorw.AttachLocks
