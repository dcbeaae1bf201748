import FlexClone.CachedFile
import FlexClone.Threads
import FlexClone.Scorw.Family
import FlexClone.Scorw.Snapshot

/-!
# Copy-on-write children, move by move

A parent that is not see-through is written in place. Before a page of it changes,
`scorw_write_par_blocks` queues a page copy for the children that still share the
block, and the page copy thread brings the copies into the children's own files. A
child that writes first copies the blocks it does not overwrite as a whole, and
marks them in its friend file afterwards. The calls are cut where another thread
can come in between: at every block of `scorw_write_child_blocks_begin` and
`scorw_write_child_blocks_end`, at every page of the data loop, and where a lock is
waited for.

All files of the family are attached. The active map only has entries of child
writes between two moves, since the parent's writes and the page copy thread give
theirs back within one.
-/

namespace FlexClone.Scorw.Cow

/-! ## Ranges of a child -/

/-- `WriteCh` -/
inductive WriteCh
  | cow
  | cowRo
  | seeTh
  | seeThRo
  | shared
  | sharedRo
  deriving DecidableEq

/-- `struct child_range`; `stop` is its `end`. -/
structure ChildRange where
  start : Nat
  stop : Nat
  snapxBehavior : WriteCh
  deriving DecidableEq

def ChildRange.contains (r : ChildRange) (blk : Nat) : Bool :=
  decide (r.start ≤ blk ∧ blk ≤ r.stop)

/-- `struct sharing_range_info` -/
structure SharingRangeInfo where
  initialized : Bool
  partialCow : Bool
  startBlock : Nat
  endBlock : Nat

/-- `shr` of `ext4_buffered_write_iter` before it is filled in. -/
def SharingRangeInfo.init : SharingRangeInfo := ⟨false, false, 0, 0⟩

/-- `scorw_is_in_range` -/
def isInRange (ranges : List ChildRange) (blk : Nat) : Bool :=
  match ranges.find? (·.contains blk) with
  | some r => decide (r.snapxBehavior = .cow ∨ r.snapxBehavior = .cowRo)
  | none => true

/-- `snapx_get_range_info`, with the range it leaves for the next block. -/
def snapxGetRangeInfo (ranges : List ChildRange) (cr : Option ChildRange) (blk : Nat) :
    WriteCh × Option ChildRange :=
  if ranges = [] then (.cow, cr)
  else
    let cr := if cr.all (·.stop < blk) then (ranges.find? (·.contains blk)).or cr else cr
    match cr with
    | none => (.cow, none)
    | some r => (r.snapxBehavior, some r)

/-- The first loop of `scorw_write_child_blocks_begin` over the blocks of the
write; `none` is the refusal of a read-only range. -/
def scanRanges (ranges : List ChildRange) (startBlock endBlock : Nat) :
    List Nat → Option ChildRange → SharingRangeInfo → Option (SharingRangeInfo × Nat)
  | [], _, shr => some (shr, endBlock)
  | i :: rest, cr, shr =>
      if cr = none ∧ i ≠ startBlock then some (shr, endBlock)
      else
        let got := snapxGetRangeInfo ranges cr i
        if got.1 ≠ .shared ∧ shr.initialized then some (shr, i - 1)
        else
          match got.1 with
          | .cowRo | .seeThRo | .sharedRo => none
          | .shared =>
              if i ≠ startBlock ∧ !shr.initialized then
                some ({ shr with
                  partialCow := true
                  startBlock := startBlock
                  endBlock := i - 1 }, i - 1)
              else if shr.initialized then
                scanRanges ranges startBlock endBlock rest got.2
                  { shr with endBlock := shr.endBlock + 1 }
              else
                scanRanges ranges startBlock endBlock rest got.2
                  { shr with initialized := true, startBlock := i, endBlock := i }
          | .cow | .seeTh => scanRanges ranges startBlock endBlock rest got.2 shr

/-! ## The family -/

/-- An attached child. `written` is not in the program: it is what the child last
wrote at an offset. -/
structure CowChild where
  file : ByteFile UInt8
  version : Nat
  copySize : Nat
  ranges : List ChildRange
  /-- the bits of the friend file -/
  copied : Nat → Bool
  /-- `i_pending_copy_pages` -/
  pendingCopyPages : Int
  /-- the active map has an entry `COPYING` for the block -/
  copying : Nat → Bool
  /-- `i_process_usage_count` -/
  usageCount : Nat
  /-- the lock of the inode is taken -/
  locked : Bool
  written : Nat → Option UInt8

/-- `last_block_eligible_for_copy`, an unsigned number. -/
def CowChild.lastBlock (k : CowChild) : Nat :=
  if k.copySize = 0 then 2 ^ 32 - 1 else (k.copySize - 1) / pageSize

/-- The last block of a write that `begin` and `end` look at. -/
def CowChild.endBlock (k : CowChild) (offset len : Nat) : Nat :=
  min ((offset + len - 1) / pageSize) k.lastBlock

/-- A page copied into a child: `len` bytes of it, then zeros. -/
def CowChild.paste (k : CowChild) (blk len : Nat) (page : Nat → UInt8) : CowChild :=
  { k with file :=
      { size := max k.file.size (blk * pageSize + len)
        cell := fun x =>
          if x / pageSize = blk then if x % pageSize < len then page (x % pageSize) else 0
          else k.file.byteAt x } }

/-- `struct page_copy` of the parent. -/
structure PageCopy where
  blockNum : Nat
  /-- `data_page`, once it is loaded -/
  dataPage : Option (Nat → UInt8)
  isTargetChild : Nat → Bool

/-- The content of a page copy; what is not loaded yet comes from the disk. -/
def PageCopy.content (p : PageCopy) (disk : ByteFile UInt8) : Nat → UInt8 :=
  p.dataPage.getD fun i => disk.byteAt (p.blockNum * pageSize + i)

/-- `len` of the copy functions for the page at an offset. The comparison with the size of
a page is unsigned, so that a negative rest is a whole page. -/
def copyLen (copySize offset : Nat) : Nat :=
  if copySize < offset then pageSize else min pageSize (copySize - offset)

/-- `scorw_copy_page_from_page_copy`; the offset of the page is computed in 32 bits
where its length is. -/
def CowChild.copyPageFromPageCopy (k : CowChild) (p : PageCopy) (disk : ByteFile UInt8) :
    CowChild :=
  let len := copyLen k.copySize (u32 (p.blockNum * pageSize))
  { k with file :=
      if len = 0 then k.file else (k.paste p.blockNum len (p.content disk)).file }

/-- What the threads share. -/
structure Shared where
  par : CachedFile UInt8 pageSize
  /-- the log of the parent and what lookups keep of it -/
  store : VersionStore
  /-- `i_child_scorw_inode` -/
  child : Nat → Option CowChild
  /-- `i_last_child_index` -/
  lastChildIndex : Nat
  /-- `page_copy_llist` -/
  pageCopies : List PageCopy
  /-- the slot the page copy thread is at, while it works on the first page copy -/
  threadAt : Option Nat
  /-- the lock of the parent's inode is taken -/
  parLocked : Bool

namespace Shared

def setChild (s : Shared) (c : Nat) (k : CowChild) : Shared :=
  { s with child := Function.update s.child c (some k) }

def modifyChild (s : Shared) (c : Nat) (change : CowChild → CowChild) : Shared :=
  { s with child := Function.update s.child c ((s.child c).map change) }

/-- `scorw_find_page_copy` -/
def findPageCopy (s : Shared) (blk c : Nat) : Option PageCopy :=
  s.pageCopies.find? fun p => p.blockNum == blk && p.isTargetChild c

/-- The page copy that is found gets its data. -/
def loadPageCopy (s : Shared) (blk c : Nat) : Shared :=
  { s with pageCopies := s.pageCopies.replaceF fun p =>
      if p.blockNum == blk && p.isTargetChild c then
        some { p with dataPage := some (p.content s.par.disk) }
      else none }

end Shared

/-- `scorw_get_page`. A page that is not in memory is cleared instead of being read
when the file ends inside it or before it. -/
def getPage (f : CachedFile UInt8 pageSize) (lblk : Nat) : CachedFile UInt8 pageSize :=
  if f.cached lblk then f
  else if f.file.size / pageSize ≤ lblk then f.clear lblk
  else f.load lblk

/-! ## Writing to a child -/

/-- A write before `ext4_write_checks`, which moves an appending one to the end of the
file and lets `allowed` bytes through. -/
structure IoReq where
  offset : Nat
  data : List UInt8
  append : Bool
  allowed : Nat

/-- A write to a child on its way: `offset` and `len` are those of
`ext4_buffered_write_iter`, `pos` and `data` what the data loop is left with. -/
structure ChildWrite where
  slot : Nat
  offset : Nat
  /-- `len` in `scorw_write_child_blocks_begin`, before it is truncated -/
  asked : Nat
  len : Nat
  /-- `end_block` of `scorw_write_child_blocks_begin` -/
  endBlock : Nat
  /-- `shr.initialized` -/
  shared : Bool
  pos : Nat
  data : List UInt8

def ChildWrite.startBlock (w : ChildWrite) : Nat := w.offset / pageSize

/-- The tests for a block that is overwritten as a whole. -/
def ChildWrite.overwrites (w : ChildWrite) (i : Nat) : Bool :=
  decide (w.startBlock = w.endBlock ∧ i = w.startBlock ∧
      w.offset % pageSize = 0 ∧ (w.offset + w.asked) % pageSize = 0) ||
    decide (w.startBlock ≠ w.endBlock ∧ i = w.startBlock ∧ w.offset % pageSize = 0) ||
    decide (w.startBlock ≠ w.endBlock ∧ i = w.endBlock ∧ (w.offset + w.asked) % pageSize = 0)

/-- A block that is not copied yet has to be, before the write. -/
def ChildWrite.copiesUp (w : ChildWrite) (i : Nat) : Bool :=
  !w.shared && !w.overwrites i && decide (i = w.startBlock ∨ i = w.endBlock)

/-- The ranges a write meets, in `scorw_write_child_blocks_begin`. -/
def CowChild.rangesOf (k : CowChild) (offset len : Nat) : Option (SharingRangeInfo × Nat) :=
  let startBlock := offset / pageSize
  let endBlock := k.endBlock offset len
  if k.lastBlock < startBlock then some (.init, endBlock)
  else
    scanRanges k.ranges startBlock endBlock
      (List.range' startBlock (endBlock + 1 - startBlock)) none .init

/-- The length after the truncation in `ext4_buffered_write_iter`. -/
def SharingRangeInfo.truncate (shr : SharingRangeInfo) (offset len : Nat) : Nat :=
  let lastOffsetAllowed := shr.endBlock * pageSize + (pageSize - 1)
  if (shr.initialized || shr.partialCow) ∧ lastOffsetAllowed < offset + len - 1 then
    lastOffsetAllowed - offset + 1
  else len

/-- `ext4_buffered_write_iter` of a child up to the block locks; `none` when a range
refuses the write. -/
def CowChild.startWrite (k : CowChild) (c : Nat) (req : IoReq) : Option ChildWrite :=
  (k.rangesOf req.offset req.data.length).map fun (shr, endBlock) =>
    let len := shr.truncate req.offset req.data.length
    { slot := c
      offset := req.offset
      asked := req.data.length
      len := len
      endBlock := endBlock
      shared := shr.initialized
      pos := if req.append then k.file.size else req.offset
      data := (req.data.take req.allowed).take len }

namespace Shared

/-- `scorw_copy_page`: the page of the parent, up to the copy size. -/
def copyPage (s : Shared) (c : Nat) (k : CowChild) (lblk : Nat) (fails : Bool) : Shared :=
  let par := getPage s.par lblk
  let page := fun i => par.file.byteAt (lblk * pageSize + i)
  { s with par := par }.setChild c
    (if fails then k
      else k.paste lblk (copyLen k.copySize (lblk * pageSize)) page)

/-- One block of the second loop of `scorw_write_child_blocks_begin`. What the copies
return is not looked at. -/
def beginBlock (s : Shared) (k : CowChild) (w : ChildWrite) (i : Nat) (fails : Bool) : Shared :=
  if !w.shared && k.copied i then s
  else
    let k := { k with copying := Function.update k.copying i true }
    if w.copiesUp i then
      match s.findPageCopy i w.slot with
      | some p =>
          (s.loadPageCopy i w.slot).setChild w.slot
            (if fails then k else k.copyPageFromPageCopy p s.par.disk)
      | none => s.copyPage w.slot k i fails
    else s.setChild w.slot k

/-- One block of `scorw_write_child_blocks_end`. -/
def endBlock (s : Shared) (k : CowChild) (w : ChildWrite) (i : Nat) : Shared :=
  if k.copied i then s
  else
    s.setChild w.slot { k with
      copied := if w.shared then k.copied else Function.update k.copied i true
      pendingCopyPages := k.pendingCopyPages - 1
      copying := Function.update k.copying i false }

/-- One pass of the data loop puts bytes in the child, or in the parent when the
write goes to a shared range. -/
def storeChild (s : Shared) (w : ChildWrite) (bs : List UInt8) : Shared :=
  let s := s.modifyChild w.slot fun k =>
    { k with written := fun x => (landsAt w.pos bs x).or (k.written x) }
  if w.shared then { s with par := s.par.put w.pos bs }
  else
    s.modifyChild w.slot fun k =>
      { k with file := if bs = [] then k.file else k.file.put w.pos bs }

/-- The lock of the inode that the data loop writes to. -/
def isLocked (s : Shared) (w : ChildWrite) : Bool :=
  if w.shared then s.parLocked else (s.child w.slot).any (·.locked)

def setLocked (s : Shared) (w : ChildWrite) (locked : Bool) : Shared :=
  if w.shared then { s with parLocked := locked }
  else s.modifyChild w.slot fun k => { k with locked := locked }

/-! ## Writing to the parent -/

/-- `is_target_child` for a page copy of the block. -/
def isTargetChild (s : Shared) (blk j : Nat) : Bool :=
  decide (j ≤ s.lastChildIndex) && (s.child j).any fun k =>
    isInRange k.ranges blk && (s.findPageCopy blk j).isNone && !k.copied blk

/-- `scorw_write_par_blocks`, with `scorw_prepare_page_copy`. The page of the parent
is copied at once unless it is not in memory and will be overwritten as a whole. -/
def writeParBlocks (s : Shared) (pos bytes : Nat) : Shared :=
  let blk := pos / pageSize
  if bytes = 0 ∨ s.par.file.size ≠ 0 ∧ (s.par.file.size - 1) / pageSize < blk then s
  else if (List.range (s.lastChildIndex + 1)).any (s.isTargetChild blk) then
    let is4KBWrite := decide (pos ≤ blk * pageSize ∧ blk * pageSize + pageSize ≤ pos + bytes)
    let page := fun i => s.par.file.byteAt (blk * pageSize + i)
    { s with pageCopies := s.pageCopies ++
        [⟨blk, if s.par.cached blk || !is4KBWrite then some page else none,
          s.isTargetChild blk⟩] }
  else s

/-- The children that `scorw_read_barrier_begin` takes block `0` of. The number of
the block is computed from the offset within the page. -/
def barred (s : Shared) (j : Nat) : Bool :=
  decide (j ≤ s.lastChildIndex) && (s.child j).any fun k => decide (1 < k.usageCount)

/-- `scorw_read_barrier_begin` does not have to wait. -/
def barrierFree (s : Shared) : Bool :=
  (List.range (s.lastChildIndex + 1)).all fun j =>
    !(s.barred j && (s.child j).any fun k => k.copying 0)

/-- The entries of the barrier stay when `write_begin` fails. -/
def leaveBarrier (s : Shared) : Shared :=
  { s with child := fun j => (s.child j).map fun k =>
      if s.barred j then { k with copying := Function.update k.copying 0 true } else k }

end Shared

/-! ## The data loop -/

/-- The bytes one pass of the loop of `scorw_generic_perform_write` puts in place. -/
def storedBytes (outcome : PageOutcome) (pos : Nat) (data : List UInt8) : List UInt8 :=
  match outcome with
  | .signal | .beginFailed => []
  | .copied n | .endFailed n =>
      data.take (min n (min (pageSize - pos % pageSize) data.length))

/-- What the loop returns after a pass, `none` when it goes on. -/
def loopReply (outcome : PageOutcome) (pos : Nat) (data : List UInt8) (done : Nat) :
    Option Int :=
  match outcome with
  | .signal => some (if done ≠ 0 then done else eintr)
  | .beginFailed | .endFailed _ => some (if done ≠ 0 then done else eio)
  | .copied _ =>
      let copied := (storedBytes outcome pos data).length
      if data.drop copied = [] then some (done + copied : Nat) else none

/-! ## Moves -/

/-- Where a thread is. -/
inductive Place
  | idle
  /-- in `scorw_write_child_blocks_begin`, before block `i` -/
  | begins (w : ChildWrite) (i : Nat)
  /-- waiting for the lock of the inode -/
  | locking (w : ChildWrite)
  /-- in the data loop, `done` bytes are written -/
  | loops (w : ChildWrite) (done : Nat)
  /-- in `scorw_write_child_blocks_end`, before block `i` -/
  | ends (w : ChildWrite) (ret : Int) (i : Nat)
  | parLocking (pos : Nat) (data : List UInt8)
  | parLoops (pos : Nat) (data : List UInt8) (done : Nat)

/-- What a thread can do next. -/
inductive Move
  | writeChild (c : Nat) (req : IoReq)
  | writeParent (req : IoReq)
  /-- the next block; `fails` is how copying it ends, if it is copied -/
  | block (fails : Bool)
  | lock
  /-- the next pass of the data loop -/
  | page (outcome : PageOutcome)

/-- What a call has to say. -/
inductive Reply
  | goesOn
  | returns (ret : Int)
  | bytes (bs : List UInt8)
  deriving DecidableEq

/-- One pass of the data loop on the parent. -/
def Shared.parPage (s : Shared) (pos : Nat) (data : List UInt8) (outcome : PageOutcome) :
    Option Shared :=
  match outcome with
  | .signal => some s
  | .beginFailed => if s.barrierFree then some s.leaveBarrier else none
  | .copied _ | .endFailed _ =>
      if s.barrierFree then
        let s := s.writeParBlocks pos (min (pageSize - pos % pageSize) data.length)
        some { s with par := s.par.put pos (storedBytes outcome pos data) }
      else none

/-- One move of a thread. -/
def move (s : Shared) : Place → Move → Option (Reply × Place × Shared)
  | .idle, .writeChild c req =>
      (s.child c).map fun k =>
        if req.data.take req.allowed = [] then (.returns 0, .idle, s)
        else
          match k.startWrite c req with
          | none => (.returns (-1), .idle, s)
          | some w => (.goesOn, .begins w w.startBlock, s)
  | .idle, .writeParent req =>
      let data := req.data.take req.allowed
      let pos := if req.append then s.par.file.size else req.offset
      if data = [] then some (.returns 0, .idle, s)
      else some (.goesOn, .parLocking pos data, s)
  | .begins w i, .block fails =>
      (s.child w.slot).bind fun k =>
        if w.endBlock < i then some (.goesOn, .locking w, s)
        else if k.copying i then none
        else some (.goesOn, .begins w (i + 1), s.beginBlock k w i fails)
  | .locking w, .lock =>
      if s.isLocked w then none else some (.goesOn, .loops w 0, s.setLocked w true)
  | .loops w done, .page outcome =>
      let bs := storedBytes outcome w.pos w.data
      let s := s.storeChild w bs
      match loopReply outcome w.pos w.data done with
      | some ret => some (.goesOn, .ends w ret w.startBlock, s.setLocked w false)
      | none =>
          some (.goesOn,
            .loops { w with pos := w.pos + bs.length, data := w.data.drop bs.length }
              (done + bs.length), s)
  | .ends w ret i, .block _ =>
      (s.child w.slot).map fun k =>
        if k.endBlock w.offset w.len < i then (.returns ret, .idle, s)
        else (.goesOn, .ends w ret (i + 1), s.endBlock k w i)
  | .parLocking pos data, .lock =>
      if s.parLocked then none
      else some (.goesOn, .parLoops pos data 0, { s with parLocked := true })
  | .parLoops pos data done, .page outcome =>
      (s.parPage pos data outcome).map fun s =>
        let n := (storedBytes outcome pos data).length
        match loopReply outcome pos data done with
        | some ret => (.returns ret, .idle, { s with parLocked := false })
        | none => (.goesOn, .parLoops (pos + n) (data.drop n) (done + n), s)
  | _, _ => none

/-- One move of the page copy thread. Its page copy goes when every slot has been
looked at, whether or not the copies succeeded. -/
def Shared.copyThread (s : Shared) (fails : Bool) : Option Shared :=
  match s.threadAt, s.pageCopies with
  | none, [] => none
  | none, _ :: _ => some { s with threadAt := some 0 }
  | some _, [] => none
  | some j, p :: rest =>
      let next := { s with threadAt := some (j + 1) }
      if Family.maxChilds ≤ j then some { s with pageCopies := rest, threadAt := none }
      else
        match s.child j with
        | none => some next
        | some k =>
            if p.isTargetChild j = false ∨ k.copySize ≤ p.blockNum * pageSize then some next
            else if k.copying p.blockNum then none
            else if k.copied p.blockNum then some next
            else
              some ((next.loadPageCopy p.blockNum j).setChild j
                (if fails then k
                  else { k.copyPageFromPageCopy p s.par.disk with
                    copied := Function.update k.copied p.blockNum true
                    pendingCopyPages := k.pendingCopyPages - 1 }))

/-! ## Reading a child -/

namespace Shared

/-- `generic_file_read_iter` on the parent's pages; what is read is in memory then. -/
def fileRead (s : Shared) (pos count : Nat) : List UInt8 × Shared :=
  let bs := genericFileRead s.par.file pos count
  (bs, if bs = [] then s else { s with par := s.par.load (pos / pageSize) })

/-- `scorw_read_from_parent` -/
def readFromParent (env : Env) (s : Shared) (k : CowChild) (origPos origCount : Nat) :
    List UInt8 × Shared :=
  let count := clampToPage origPos origCount
  let found := lookupPhysicalBlock env s.store k.version (origPos / pageSize)
  let s := { s with store := found.2 }
  match found.1 with
  | some targetPhysBlk => s.fileRead (targetPhysBlk * pageSize + origPos % pageSize) count
  | none => if s.store.origSize ≤ origPos then ([], s) else s.fileRead origPos count

/-- `ext4_file_read_iter` of the child in a slot. -/
def fileReadIter (env : Env) (s : Shared) (c pos count : Nat) : Option (List UInt8 × Shared) :=
  (s.child c).map fun k =>
    if count = 0 then ([], s) else s.readFromParent env k pos count

/-- The bytes are those of `readFromParent` in the model of whole calls. -/
theorem readFromParent_bytes (env : Env) {s : Shared} {st : State} (k : CowChild)
    (store : st.toVersionStore = s.store) (file : st.file = s.par.file) (pos count : Nat) :
    (s.readFromParent env k pos count).1 =
      (Scorw.readFromParent env st k.version pos count).1 := by
  unfold Shared.readFromParent Scorw.readFromParent
  dsimp only
  rw [store, file]
  cases (lookupPhysicalBlock env s.store k.version (pos / pageSize)).1 with
  | some blk => rfl
  | none =>
      dsimp only
      split <;> rfl

end Shared

/-! ## The system -/

/-- Threads `τ` on a family. -/
abbrev System (τ : Type*) := Threads τ Shared Place

/-- A move of a thread or of the page copy thread, or a read of a child. -/
inductive Act (τ : Type*)
  | thread (t : τ) (m : Move)
  | copyThread (fails : Bool)
  | read (c pos count : Nat) (env : Env)

variable {τ : Type*} [DecidableEq τ]

def step (s : System τ) : Act τ → Option (Reply × System τ)
  | .thread t m => Threads.step (fun _ => move) s t m
  | .copyThread fails =>
      (s.shared.copyThread fails).map fun sh => (.goesOn, { s with shared := sh })
  | .read c pos count env =>
      (s.shared.fileReadIter env c pos count).map fun r =>
        (.bytes r.1, { s with shared := r.2 })

end FlexClone.Scorw.Cow
