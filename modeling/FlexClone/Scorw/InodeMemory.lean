import FlexClone.Heap
import FlexClone.Scorw.Family

/-!
# The `scorw_inode`s in memory

Every attached file has a `struct scorw_inode`, and they point to each other: a parent has
an array of 64 slots with its attached children, a child knows its slot, and the page copies
of all parents, in one list, point to their parents. `State` has these structures at their
addresses, so that two slots may hold the same child and a slot may hold one that is freed.

`scorw_get_inode`, `special_open`, `scorw_put_inode` and `scorw_unlink_child_file` are given
with their loops cut into turns: `attachSlot` is one turn of building a parent's slots from
its attributes, and `putSlot` one turn of putting the children of a parent that is freed. A
`BUG_ON`, a pointer to nothing or to freed memory, and a lock that the thread holds already
are `none`.

An unlinked child is detached with its last reference. Its slot is cleared in the page copies
of all parents; `detached_flags_kept_iff` says when this changes nothing in those of another
parent.
-/

namespace FlexClone.Scorw.Memory

open Family (maxChilds)

/-- The address of a `struct scorw_inode`. -/
abbrev Addr := Nat

/-- Where a `scorw_inode` is in its family. -/
structure Slots where
  /-- `i_vfs_inode` -/
  ino : Ino
  /-- `i_at_index`; `none` is `-1` -/
  atIndex : Option Nat
  /-- `i_child_scorw_inode` -/
  child : Nat → Option Addr
  /-- `i_last_child_index` -/
  lastChildIndex : Int

/-- `struct scorw_inode` -/
structure ScorwInode extends Slots where
  /-- `i_par_vfs_inode`, null for a parent -/
  par : Option Ino
  /-- `i_process_usage_count` -/
  usageCount : Nat
  addedToPageCopy : Nat
  removedFromPageCopy : Nat
  /-- `i_ino_unlinked` -/
  unlinked : Bool

/-- `struct page_copy`, without its data. -/
structure PageCopy where
  blockNum : Nat
  par : Addr
  isTargetChild : Nat → Bool

namespace Slots

/-- The slots that a loop up to `i_last_child_index` goes through. -/
def scanned (sl : Slots) : List Nat := List.range (sl.lastChildIndex + 1).toNat

/-- The largest index below `n` that is in use, or `-1`. -/
def lastBelow (child : Nat → Option Addr) : Nat → Int
  | 0 => -1
  | n + 1 => if (child n).isSome then n else lastBelow child n

/-- One turn of building the slots, for an attribute that names a child. -/
def build (sl : Slots) (i : Nat) (b : Option Addr) : Slots :=
  { sl with child := Function.update sl.child i b, lastChildIndex := i }

/-- A new clone in a slot, in `special_open`. -/
def attach (sl : Slots) (i : Nat) (b : Addr) : Slots :=
  { sl with
    child := Function.update sl.child i (some b)
    lastChildIndex := if sl.lastChildIndex < i then i else sl.lastChildIndex }

/-- The slot of a child that is detached, in `scorw_put_inode`. -/
def detach (sl : Slots) (k : Nat) : Slots :=
  { sl with
    child := Function.update sl.child k none
    lastChildIndex :=
      if (k : Int) = sl.lastChildIndex then lastBelow sl.child k else sl.lastChildIndex }

end Slots

namespace ScorwInode

/-- `scorw_alloc_inode`, `scorw_prepare_child_inode` or `scorw_prepare_par_inode`, and the
first reference. -/
def prepare (ino : Ino) (par : Option Ino) : ScorwInode where
  ino := ino
  atIndex := none
  child _ := none
  lastChildIndex := 0
  par := par
  usageCount := 1
  addedToPageCopy := 0
  removedFromPageCopy := 0
  unlinked := false

/-- `scorw_inc_process_usage_count` -/
def incUsageCount (si : ScorwInode) : ScorwInode := { si with usageCount := si.usageCount + 1 }

/-- The counting in `scorw_put_inode`, by a process or by the page copy thread; or `BUG_ON`. -/
def put (si : ScorwInode) (isThreadPutting : Bool) : Option ScorwInode :=
  if isThreadPutting then some { si with removedFromPageCopy := si.removedFromPageCopy + 1 }
  else if si.usageCount = 0 then none
  else some { si with usageCount := si.usageCount - 1 }

/-- The test of `scorw_put_inode` for a `scorw_inode` that is to be freed. -/
def unused (si : ScorwInode) : Bool :=
  si.usageCount == 0 && si.addedToPageCopy == si.removedFromPageCopy

end ScorwInode

/-- The `scorw_inode`s, the attributes and the page copies. -/
structure State where
  heap : Heap ScorwInode
  /-- `i_scorw_inode` of an inode -/
  scorwInode : Ino → Option Addr
  /-- the attributes of a parent that name its children, 0 where there is none -/
  childAttr : Ino → Nat → Ino
  /-- the attribute that names the parent of a child, 0 where there is none -/
  parentAttr : Ino → Ino
  /-- `i_vfs_inode_open_count` -/
  openCount : Ino → Int
  pageCopyLlist : List PageCopy

/-- Nothing is in memory. -/
def mounted (childAttr : Ino → Nat → Ino) (parentAttr : Ino → Ino) : State where
  heap := .empty
  scorwInode _ := none
  childAttr := childAttr
  parentAttr := parentAttr
  openCount _ := 0
  pageCopyLlist := []

namespace State

/-- Where the `scorw_inode` at an address is in its family. -/
def slots (s : State) (a : Addr) : Option Slots := (s.heap.cell a).map (·.toSlots)

def modify (s : State) (a : Addr) (f : ScorwInode → ScorwInode) : State :=
  { s with heap := s.heap.modify a f }

def modifySlots (s : State) (a : Addr) (f : Slots → Slots) : State :=
  s.modify a fun si => { si with toSlots := f si.toSlots }

/-- A new `scorw_inode` for an inode. -/
def create (s : State) (x : Ino) (par : Option Ino) : State :=
  { s with
    heap := s.heap.alloc (.prepare x par)
    scorwInode := Function.update s.scorwInode x (some s.heap.next) }

/-- The `scorw_inode` of an inode is freed. -/
def release (s : State) (x : Ino) (a : Addr) : State :=
  { s with
    heap := s.heap.free a
    scorwInode := Function.update s.scorwInode x none }

/-- `scorw_is_child_file`, which looks at the attribute of a file that is not attached. -/
def isChildFile (s : State) (x : Ino) : Bool :=
  match s.scorwInode x with
  | some a => (s.heap.cell a).any (·.par.isSome)
  | none => decide (s.parentAttr x ≠ 0)

/-- `scorw_remove_child_i_attr` -/
def removeChildAttr (s : State) (p : Ino) (i : Nat) : State :=
  { s with
    childAttr := Function.update s.childAttr p (Function.update (s.childAttr p) i 0) }

/-- The first attribute that names the child is removed from its parent. -/
def forgetChild (s : State) (p c : Ino) : State :=
  match (List.range maxChilds).find? fun j => s.childAttr p j == c with
  | some j => s.removeChildAttr p j
  | none => s

/-! ## Getting -/

/-- `scorw_get_inode` of a file with a `scorw_inode`: it and its parent are counted. -/
def getAttached (s : State) (a : Addr) (si : ScorwInode) : State :=
  let s := s.modify a .incUsageCount
  match si.par.bind s.scorwInode with
  | some b => s.modify b .incUsageCount
  | none => s

/-- `scorw_get_inode` of a child; `memory` is whether there is any for a new one. -/
def getChild (s : State) (c : Ino) (memory : Bool) : Option (Option Addr × State) :=
  match s.scorwInode c with
  | some b =>
      (s.heap.cell b).map fun si =>
        if si.unlinked then (none, s) else (some b, s.getAttached b si)
  | none =>
      if !memory then some (none, s)
      else if s.parentAttr c = 0 then none
      else some (some s.heap.next, s.create c (some (s.parentAttr c)))

/-- `scorw_get_inode` of a parent, up to the loop over its attributes, for which the new
`scorw_inode` is returned. -/
def getPar (s : State) (p : Ino) (memory : Bool) : Option (Option Addr × State) :=
  match s.scorwInode p with
  | some a => (s.heap.cell a).map fun si => (none, s.getAttached a si)
  | none => if memory then some (some s.heap.next, s.create p none) else some (none, s)

/-- One turn of the loop in `scorw_get_inode` over the attributes of the parent `p` with the
`scorw_inode` `a`; `iget` is whether the inode that is named can be read. -/
def attachSlot (s : State) (p : Ino) (a : Addr) (i : Nat) (iget memory : Bool) : Option State :=
  let c := s.childAttr p i
  if c = 0 then
    some (s.modifySlots a fun sl => { sl with child := Function.update sl.child i none })
  else if !iget || !s.isChildFile c then some (s.removeChildAttr p i)
  else
    (s.getChild c memory).map fun (b, s) =>
      let s := s.modifySlots a (·.build i b)
      match b with
      | some b =>
          { s.modifySlots b fun sl => { sl with atIndex := some i } with
            scorwInode := Function.update s.scorwInode c (some b) }
      | none => s

/-- `special_open` of a parent with the `scorw_inode` `a`. The thread holds the parent's
lock. -/
def attachClone (s : State) (p c : Ino) (a : Addr) (index : Nat) (memory : Bool) :
    Option State :=
  if c = p then none
  else
    (s.getChild c memory).bind fun (b, s) =>
      b.bind fun b =>
        let s := s.modifySlots a (·.attach index b)
        let s := s.modifySlots b fun sl => { sl with atIndex := some index }
        (s.getChild c memory).map (·.2)

/-! ## Putting -/

/-- A slot is cleared in all page copies. -/
def clearTargets (s : State) (k : Nat) : State :=
  { s with
    pageCopyLlist := s.pageCopyLlist.map fun pc =>
      { pc with isTargetChild := Function.update pc.isTargetChild k false } }

/-- An unlinked child is detached from its parent. -/
def detach (s : State) (c : Ino) (si : ScorwInode) : Option State :=
  si.par.bind fun q =>
    match si.atIndex with
    | none => some (s.forgetChild q c)
    | some k =>
        (s.scorwInode q).map fun a =>
          ((s.clearTargets k).modifySlots a (·.detach k)).forgetChild q c

/-- `scorw_put_inode` of the parent, called for a child. The thread holds
`frnd_version_cnt_lock`, so that it would wait for itself if children had to be put. -/
def putParOfChild (s : State) (q : Ino) : Option State :=
  match s.scorwInode q with
  | none => some s
  | some a =>
      (s.heap.cell a).bind fun si =>
        (si.put false).bind fun si' =>
          if si'.unused then
            if (List.range maxChilds).any fun i => (si.child i).isSome then none
            else some (s.release q a)
          else some (s.modify a fun _ => si')

/-- `scorw_put_inode` of a child. Its own lock is held while the parent is put. -/
def putChild (s : State) (c : Ino) : Option State :=
  match s.scorwInode c with
  | none => some s
  | some b =>
      (s.heap.cell b).bind fun si =>
        (si.put false).bind fun si' =>
          if si.par = some c then none
          else
            let s := s.modify b fun _ => si'
            (si.par.elim (some s) s.putParOfChild).bind fun s =>
              if si'.unused then
                (if si.unlinked then s.detach c si else some s).map (·.release c b)
              else some s

/-- `scorw_put_inode` of a parent, up to the loop over its children; a `scorw_inode` whose
children are to be put is returned, and is no longer the one of the inode. -/
def putPar (s : State) (p : Ino) (isThreadPutting : Bool) : Option (Option Addr × State) :=
  match s.scorwInode p with
  | none => some (none, s)
  | some a =>
      (s.heap.cell a).bind fun si =>
        (si.put isThreadPutting).map fun si' =>
          let s := s.modify a fun _ => si'
          if si'.unused then
            (some a, { s with scorwInode := Function.update s.scorwInode p none })
          else (none, s)

/-- One turn of the loop in `scorw_put_inode` over the children of a parent that is freed.
Its lock is held. -/
def putSlot (s : State) (p : Ino) (a : Addr) (i : Nat) : Option State :=
  (s.heap.cell a).bind fun si =>
    match si.child i with
    | none => some s
    | some b =>
        (s.heap.cell b).bind fun ci => if ci.ino = p then none else s.putChild ci.ino

/-- A `scorw_inode` is marked as that of an unlinked file. -/
def markUnlinked (s : State) (b : Addr) : State :=
  s.modify b fun si => { si with unlinked := true }

/-- `scorw_unlink_child_file`; `iget` is whether the inode of the parent can be read. -/
def unlinkChildFile (s : State) (c : Ino) (iget : Bool) : Option State :=
  let p := s.parentAttr c
  if !iget then some s
  else
    match s.scorwInode c with
    | some b =>
        if (s.scorwInode p).isSome then (s.markUnlinked b).putChild c else some (s.markUnlinked b)
    | none => some (s.forgetChild p c)

/-! ## Page copies -/

/-- `scorw_find_page_copy` -/
def findPageCopy (s : State) (blk : Nat) (p : Ino) (k : Nat) : Option PageCopy :=
  s.pageCopyLlist.find? fun pc =>
    pc.blockNum == blk && (s.slots pc.par).any (·.ino == p) && pc.isTargetChild k

/-- A turn of the loop in `scorw_write_par_blocks`; `shares` is whether the block is in a
copied range of the child and not copied to it yet. -/
def isTargetChild (s : State) (p : Ino) (sl : Slots) (blk : Nat) (shares : Nat → Bool) (j : Nat) :
    Bool :=
  (sl.child j).any fun b =>
    shares j && !((s.slots b).bind (·.atIndex)).any fun k => (s.findPageCopy blk p k).isSome

/-- `scorw_prepare_page_copy` -/
def preparePageCopy (s : State) (a : Addr) (sl : Slots) (blk : Nat) (target : Nat → Bool) : State :=
  { s.modify a fun si => { si with addedToPageCopy := si.addedToPageCopy + 1 } with
    pageCopyLlist := s.pageCopyLlist ++
      [⟨blk, a, fun i => decide (i ∈ sl.scanned) && target i⟩] }

/-- `scorw_write_par_blocks` for a block of the file, or `BUG_ON` -/
def writeParBlocks (s : State) (p : Ino) (blk : Nat) (shares : Nat → Bool) : Option State :=
  (s.scorwInode p).bind fun a =>
    (s.slots a).map fun sl =>
      let target := s.isTargetChild p sl blk shares
      if sl.scanned.any target then s.preparePageCopy a sl blk target else s

/-- The children that `scorw_read_barrier_begin` and `scorw_read_barrier_end` come to. -/
def readBarrier (s : State) (p : Ino) : List Addr :=
  (((s.scorwInode p).bind s.slots).map fun sl => sl.scanned.filterMap sl.child).getD []

/-- `scorw_unprepare_page_copy` of the first page copy, up to the put of its parent, which is
returned. -/
def unpreparePageCopy (s : State) : Option (Ino × State) :=
  match s.pageCopyLlist with
  | [] => none
  | pc :: rest => (s.slots pc.par).map fun sl => (sl.ino, { s with pageCopyLlist := rest })

/-! ## Detaching an unlinked child -/

variable {s s' : State} {c q : Ino}

theorem putChild_eq_some (put : s.putChild c = some s') :
    s.scorwInode c = none ∧ s' = s ∨
      ∃ b si si' s₁, s.scorwInode c = some b ∧ s.heap.cell b = some si ∧
        si.put false = some si' ∧ si.par ≠ some c ∧
        si.par.elim (some (s.modify b fun _ => si')) (s.modify b fun _ => si').putParOfChild =
          some s₁ ∧
        (si'.unused = false ∧ s' = s₁ ∨
          si'.unused = true ∧
            ∃ s₂, (if si.unlinked then s₁.detach c si else some s₁) = some s₂ ∧
              s' = s₂.release c b) := by
  unfold putChild at put
  split at put
  case h_1 absent => exact .inl ⟨absent, (Option.some.inj put).symm⟩
  case h_2 b attached =>
    obtain ⟨si, here, put⟩ := Option.bind_eq_some_iff.mp put
    obtain ⟨si', counted, put⟩ := Option.bind_eq_some_iff.mp put
    split at put
    case isTrue => cases put
    case isFalse other =>
      obtain ⟨s₁, par, put⟩ := Option.bind_eq_some_iff.mp put
      refine .inr ⟨b, si, si', s₁, attached, here, counted, other, par, ?_⟩
      split at put
      case isTrue unused =>
        obtain ⟨s₂, detached, rfl⟩ := Option.map_eq_some_iff.mp put
        exact .inr ⟨unused, s₂, detached, rfl⟩
      case isFalse used => exact .inl ⟨by simpa using used, (Option.some.inj put).symm⟩

@[simp] theorem pageCopyLlist_forgetChild (s : State) (p c : Ino) :
    (s.forgetChild p c).pageCopyLlist = s.pageCopyLlist := by
  unfold forgetChild
  split
  case h_1 => rfl
  case h_2 => rfl

theorem pageCopyLlist_putParOfChild (put : s.putParOfChild q = some s') :
    s'.pageCopyLlist = s.pageCopyLlist := by
  unfold putParOfChild at put
  split at put
  case h_1 => rw [← Option.some.inj put]
  case h_2 a attached =>
    obtain ⟨si, _, put⟩ := Option.bind_eq_some_iff.mp put
    obtain ⟨si', _, put⟩ := Option.bind_eq_some_iff.mp put
    split at put
    case isTrue =>
      split at put
      case isTrue => cases put
      case isFalse =>
        rw [← Option.some.inj put]
        rfl
    case isFalse =>
      rw [← Option.some.inj put]
      rfl

theorem pageCopyLlist_detach {si : ScorwInode} {k : Nat} (slot : si.atIndex = some k)
    (detached : s.detach c si = some s') :
    s'.pageCopyLlist = (s.clearTargets k).pageCopyLlist := by
  obtain ⟨q, _, detached⟩ := Option.bind_eq_some_iff.mp detached
  rw [slot] at detached
  obtain ⟨a, _, rfl⟩ := Option.map_eq_some_iff.mp detached
  rw [pageCopyLlist_forgetChild]
  rfl

/-- The next put of the child `c` is that of its last reference; the child is unlinked, and in
slot `k` of the parent at `a`. -/
def isLastReference (s : State) (c : Ino) (a : Addr) (k : Nat) : Bool :=
  ((s.scorwInode c).bind s.heap.cell).any fun si =>
    si.unlinked && decide (si.usageCount = 1 ∧ si.addedToPageCopy = si.removedFromPageCopy ∧
      si.atIndex = some k ∧ si.par.bind s.scorwInode = some a)

/-- The last reference to an unlinked child clears its slot in every page copy. -/
theorem pageCopyLlist_putChild {a : Addr} {k : Nat} (child : s.isLastReference c a k = true)
    (put : s.putChild c = some s') :
    s'.pageCopyLlist = (s.clearTargets k).pageCopyLlist := by
  obtain ⟨si, found, child⟩ := (Option.any_eq_true _ _).mp child
  obtain ⟨b, attached, here⟩ := Option.bind_eq_some_iff.mp found
  obtain ⟨unlinked, child⟩ := Bool.and_eq_true_iff.mp child
  obtain ⟨usage, copied, slot, parAttached⟩ := of_decide_eq_true child
  obtain ⟨q, hasPar, _⟩ := Option.bind_eq_some_iff.mp parAttached
  rcases putChild_eq_some put with
    ⟨absent, _⟩ | ⟨b', si₀, si', s₁, attached', here', counted, _, par, rest⟩
  · rw [attached] at absent
    cases absent
  · cases attached.symm.trans attached'
    cases here.symm.trans here'
    have unused : si'.unused = true := by
      simp only [ScorwInode.put, usage] at counted
      cases counted
      simp [ScorwInode.unused, copied]
    have before : s₁.pageCopyLlist = s.pageCopyLlist := by
      simp only [hasPar, Option.elim_some] at par
      exact (pageCopyLlist_putParOfChild par).trans rfl
    rcases rest with ⟨used, _⟩ | ⟨_, s₂, detached, rfl⟩
    · rw [unused] at used
      cases used
    · rw [if_pos unlinked] at detached
      have after := pageCopyLlist_detach slot detached
      simp only [clearTargets, before] at after
      exact after

/-- Detaching an unlinked child from its slot `k` leaves the other slots of all page copies as
they are. The page copies of other parents stay as they are exactly when none of them is for a
child in slot `k`. -/
theorem detached_flags_kept_iff (s s' : State) (c : Ino) (a : Addr) (k : Nat)
    (child : s.isLastReference c a k = true) (put : s.putChild c = some s') :
    List.Forall₂ (fun pc pc' => pc'.blockNum = pc.blockNum ∧ pc'.par = pc.par ∧
        ∀ j, j ≠ k → pc'.isTargetChild j = pc.isTargetChild j)
      s.pageCopyLlist s'.pageCopyLlist ∧
    (List.Forall₂ (fun pc pc' => pc.par ≠ a → pc'.isTargetChild = pc.isTargetChild)
        s.pageCopyLlist s'.pageCopyLlist ↔
      ∀ pc ∈ s.pageCopyLlist, pc.par ≠ a → pc.isTargetChild k = false) := by
  rw [pageCopyLlist_putChild child put]
  simp only [clearTargets, List.forall₂_map_right_iff, List.forall₂_same]
  refine ⟨fun pc _ => ⟨trivial, trivial, fun j other => Function.update_of_ne other _ _⟩, ?_⟩
  refine forall₃_congr fun pc _ _ => ?_
  rw [Function.update_eq_self_iff]
  exact eq_comm

/-- `scorw_get_inode` of a parent as a whole, when there is memory and every inode can be
read. -/
def openPar (s : State) (p : Ino) : Option State :=
  (s.getPar p true).bind fun (a, s) =>
    a.elim (some s) fun a =>
      (List.range maxChilds).foldlM (fun s i => s.attachSlot p a i true true) s

/-- Parent 1 has its child 3 in slot 0, and parent 2 its child 4 in `slot`. -/
def twoFamilies (slot : Nat) : State :=
  mounted (fun p i => if p = 1 ∧ i = 0 ∨ p = 2 ∧ i = slot then p + 2 else 0)
    fun c => if c = 3 ∨ c = 4 then c - 2 else 0

/-- Two handles of parent 1 and one of parent 2, writes to block 0 of the files `written`, and
the mark that `scorw_unlink_child_file` leaves in child 3 before it is put. -/
def unlinksFirst (slot : Nat) (written : List Ino) : Option State := do
  let s ← (twoFamilies slot).openPar 1
  let s ← s.openPar 1
  let s ← s.openPar 2
  let s ← written.foldlM (fun s p => s.writeParBlocks p 0 fun _ => true) s
  return s.markUnlinked 1

/-- Writes to both parents, whose children are in different slots. -/
theorem detached_flags_kept_own :
    ∃ s s', unlinksFirst 1 [1, 2] = some s ∧ s.isLastReference 3 0 0 = true ∧
      s.putChild 3 = some s' ∧
      s.pageCopyLlist.map (fun pc => (pc.par, pc.isTargetChild 0, pc.isTargetChild 1)) =
        [(0, true, false), (2, false, true)] ∧
      List.Forall₂ (fun pc pc' => pc.par ≠ 0 → pc'.isTargetChild = pc.isTargetChild)
        s.pageCopyLlist s'.pageCopyLlist := by
  obtain ⟨s, reached, holds⟩ := (Option.any_eq_true _ _).mp (by decide +kernel :
    (unlinksFirst 1 [1, 2]).any (fun s => s.isLastReference 3 0 0 && (s.putChild 3).isSome &&
      decide (s.pageCopyLlist.map (fun pc => (pc.par, pc.isTargetChild 0, pc.isTargetChild 1)) =
        [(0, true, false), (2, false, true)])) = true)
  simp only [Bool.and_eq_true, decide_eq_true_eq] at holds
  obtain ⟨⟨child, returns⟩, both⟩ := holds
  obtain ⟨s', put⟩ := Option.isSome_iff_exists.mp returns
  refine ⟨s, s', reached, child, put, both, ?_⟩
  refine (detached_flags_kept_iff s s' 3 0 0 child put).2.mpr fun pc member other => ?_
  have listed : (pc.par, pc.isTargetChild 0, pc.isTargetChild 1) ∈
      [(0, true, false), (2, false, true)] := by
    rw [← both]
    exact List.mem_map_of_mem member
  simp only [List.mem_cons, Prod.mk.injEq, List.not_mem_nil, or_false] at listed
  rcases listed with ⟨own, _⟩ | ⟨_, clear, _⟩
  · exact (other own).elim
  · exact clear

/-- Child 3 of parent 1 is unlinked while a page copy of parent 2 waits for its child 4, which
is in slot 0 as well. -/
theorem detached_flags_kept_fails :
    ∃ s s', unlinksFirst 0 [2] = some s ∧ s.isLastReference 3 0 0 = true ∧
      s.putChild 3 = some s' ∧
      s.pageCopyLlist.map (fun pc => (pc.par, pc.isTargetChild 0)) = [(2, true)] ∧
      s'.pageCopyLlist.map (fun pc => (pc.par, pc.isTargetChild 0)) = [(2, false)] := by
  obtain ⟨s, reached, holds⟩ := (Option.any_eq_true _ _).mp (by decide +kernel :
    (unlinksFirst 0 [2]).any (fun s => s.isLastReference 3 0 0 &&
      decide (s.pageCopyLlist.map (fun pc => (pc.par, pc.isTargetChild 0)) = [(2, true)]) &&
      (s.putChild 3).any fun s' =>
        decide (s'.pageCopyLlist.map (fun pc => (pc.par, pc.isTargetChild 0)) = [(2, false)]))
      = true)
  simp only [Bool.and_eq_true, decide_eq_true_eq] at holds
  obtain ⟨⟨child, before⟩, after⟩ := holds
  obtain ⟨s', put, after⟩ := (Option.any_eq_true _ _).mp after
  exact ⟨s, s', reached, child, put, before, of_decide_eq_true after⟩

end State

end FlexClone.Scorw.Memory
