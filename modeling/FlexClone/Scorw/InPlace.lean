import FlexClone.Scorw.PageCopies

/-!
# Changing the parent in place

A block of the parent changes under the children that still share it when the parent is
written, when a child writes to a SHARED range, and when copying up clears a page. Only
the first queues a page copy for the children.

* `Preserves`: whoever needs a block that was changed has a page copy of it, with the
  bytes of the time the child was made.
* `parent_change_preserved`: this holds in all states of a run if the other two ways
  leave needed blocks alone, and page copies are neither lost nor loaded too late.
-/

namespace FlexClone.Scorw.Cow

variable {τ : Type*}

/-! ## Sharing a block -/

namespace Shared

/-- The child in slot `j` takes block `b` from the parent as it was, and has no copy. -/
def Needs (s : Shared) (j b : Nat) : Prop :=
  ∃ k, s.child j = some k ∧ isInRange k.ranges b = true ∧ b * pageSize < k.copySize ∧
    k.copied b = false

/-- A page copy of the block is pending for the child. -/
def Queued (s : Shared) (j b : Nat) : Prop :=
  ∃ p ∈ s.pageCopies, p.blockNum = b ∧ p.isTargetChild j = true

/-- A page copy of the block is pending for the child, and holds the block of `f`. -/
def Secured (f : ByteFile UInt8) (s : Shared) (j b : Nat) : Prop :=
  ∃ p ∈ s.pageCopies, p.blockNum = b ∧ p.isTargetChild j = true ∧
    Holds s.par.disk p (blockAt f b)

end Shared

/-- A block that was changed in place is in a page copy for every child that needs it;
`orig j` is the parent's file when the child in slot `j` was made. -/
def Preserves (orig : Nat → ByteFile UInt8) (s : Storage τ) : Prop :=
  ∀ j b, s.sys.shared.Needs j b → s.changed b → s.sys.shared.Secured (orig j) j b

/-- Nothing but writes to the parent itself changes a block that a child needs, unless a
page copy is pending for the child. -/
def KeepsShared (s : Storage τ) : Event τ → Prop
  | .act act => act.isDirect s.sys = false → ∀ x j, s.sys.shared.Needs j (x / pageSize) →
      ¬ s.sys.shared.Queued j (x / pageSize) →
      ∀ v ∈ act.toParent s.sys x, v = s.sys.shared.par.file.byteAt x
  | .writeback _ _ | .reclaim _ | .unmount => True

/-- Page copies are neither lost nor loaded too late, and shared blocks are left alone. -/
structure Orderly (s : Storage τ) (ev : Event τ) : Prop where
  completes : Completes s ev
  sparesCold : SparesCold s ev
  keepsShared : KeepsShared s ev

/-- The child has the block from the parent, where it was never changed. -/
structure Shares (f : ByteFile UInt8) (changed : Nat → Prop) (s : Shared) (j b : Nat) : Prop where
  unchanged : ¬ changed b
  free : ¬ s.Queued j b
  block : ∀ i < pageSize, blockAt s.par.file b i = blockAt f b i

/-- The children reach as far as the parent, pages that are not dirty and not changed are
as on the disk, and a child finds every block that it needs. -/
structure Guarded (orig : Nat → ByteFile UInt8) (s : Storage τ) : Prop where
  tracked : Tracked s.sys.shared
  slots : ∀ j k, s.sys.shared.child j = some k → j ≤ s.sys.shared.lastChildIndex
  copySize : ∀ j k, s.sys.shared.child j = some k → k.copySize ≤ s.sys.shared.par.file.size
  clean : ∀ b, b ∉ s.dirty → ¬ s.changed b → ∀ i < pageSize,
    blockAt s.sys.shared.par.file b i = blockAt s.sys.shared.par.disk b i
  blocks : ∀ j b, s.sys.shared.Needs j b →
    s.sys.shared.Secured (orig j) j b ∨ Shares (orig j) s.changed s.sys.shared j b

theorem Guarded.preserves {orig : Nat → ByteFile UInt8} {s : Storage τ}
    (guarded : Guarded orig s) : Preserves orig s := by
  intro j b needs changed
  rcases guarded.blocks j b needs with secured | shares
  · exact secured
  · exact (shares.unchanged changed).elim

section Blocks

variable {s s' : Shared} {f : ByteFile UInt8} {j b : Nat}

theorem Shared.Needs.of_becomes (child : ∀ j k', s'.child j = some k' →
      ∃ k, s.child j = some k ∧ k.Becomes k') (needs : s'.Needs j b) : s.Needs j b := by
  obtain ⟨k', here, inRange, covered, clear⟩ := needs
  obtain ⟨k, here, becomes⟩ := child j k' here
  refine ⟨k, here, becomes.ranges ▸ inRange, becomes.copySize ▸ covered, ?_⟩
  by_contra set
  rw [becomes.copied b (Bool.eq_true_of_not_eq_false set)] at clear
  cases clear

theorem Shared.Queued.of_later (later : Later s s') (queued : s'.Queued j b) : s.Queued j b := by
  obtain ⟨p', here, blk, target⟩ := queued
  obtain ⟨p, here, becomes⟩ := later.before here
  exact ⟨p, here, becomes.blockNum ▸ blk, becomes.isTargetChild ▸ target⟩

theorem Shared.Secured.later (later : Later s s') (secured : s.Secured f j b) :
    s'.Secured f j b := by
  obtain ⟨p, here, blk, target, holds⟩ := secured
  obtain ⟨p', here', becomes⟩ := later.after here
  refine ⟨p', here', becomes.blockNum.trans blk, becomes.isTargetChild ▸ target, ?_⟩
  intro i below
  rw [later.disk, becomes.content]
  exact holds i below

theorem Shared.Secured.of_subset (disk : s'.par.disk = s.par.disk)
    (more : s.pageCopies ⊆ s'.pageCopies) (secured : s.Secured f j b) : s'.Secured f j b := by
  obtain ⟨p, here, blk, target, holds⟩ := secured
  exact ⟨p, more here, blk, target, disk ▸ holds⟩

theorem isTargetChild_of_needs (needs : s.Needs j b) (slot : j ≤ s.lastChildIndex)
    (free : ¬ s.Queued j b) : s.isTargetChild b j = true := by
  obtain ⟨k, here, inRange, _, clear⟩ := needs
  have unfound : s.findPageCopy b j = none := by
    refine List.find?_eq_none.mpr fun p member found => free ⟨p, member, ?_⟩
    simpa using found
  unfold Shared.isTargetChild
  simp [slot, here, inRange, clear, unfound]

/-- A pass on the parent queues a page copy of its block for every child that needs it and
has none. -/
theorem writeParBlocks_secures {pos bytes : Nat} (some : bytes ≠ 0)
    (reaches : pos / pageSize * pageSize < s.par.file.size)
    (target : s.isTargetChild (pos / pageSize) j = true)
    (block : ∀ i < pageSize,
      blockAt s.par.file (pos / pageSize) i = blockAt f (pos / pageSize) i) :
    (s.writeParBlocks pos bytes).Secured f j (pos / pageSize) := by
  rcases writeParBlocks_cases s pos bytes with same | ⟨p, same, blk, targets, _, page⟩
  · -- there is a page copy to make
    have inside : ¬ (bytes = 0 ∨ s.par.file.size ≠ 0 ∧
        (s.par.file.size - 1) / pageSize < pos / pageSize) := by
      rintro (zero | ⟨_, past⟩)
      · exact some zero
      · rw [Nat.div_lt_iff_lt_mul (by decide)] at past
        omega
    have slot : j ≤ s.lastChildIndex := by
      unfold Shared.isTargetChild at target
      simp only [Bool.and_eq_true, decide_eq_true_eq] at target
      exact target.1
    have any : (List.range (s.lastChildIndex + 1)).any (s.isTargetChild (pos / pageSize)) = true :=
      List.any_eq_true.mpr ⟨j, List.mem_range.mpr (by omega), target⟩
    unfold Shared.writeParBlocks at same
    dsimp only at same
    rw [if_neg inside, if_pos any] at same
    have length := congrArg (fun s => s.pageCopies.length) same
    simp at length
  · rw [same]
    refine ⟨p, List.mem_append_right _ List.mem_cons_self, blk, targets ▸ target, ?_⟩
    intro i below
    rw [holds_of_made page i below, blk]
    exact block i below

theorem Shared.Queued.of_writeParBlocks {pos bytes : Nat}
    (queued : (s.writeParBlocks pos bytes).Queued j b) :
    s.Queued j b ∨ b = pos / pageSize ∧ bytes ≠ 0 := by
  by_cases zero : bytes = 0
  · unfold Shared.writeParBlocks at queued
    rw [if_pos (.inl zero)] at queued
    exact .inl queued
  · rcases writeParBlocks_cases s pos bytes with same | ⟨p, same, blk, _⟩
    · exact .inl (same ▸ queued)
    · rw [same] at queued
      obtain ⟨q, here, at_b, target⟩ := queued
      rcases List.mem_append.mp here with old | new
      · exact .inl ⟨q, old, at_b, target⟩
      · rw [List.mem_singleton.mp new, blk] at at_b
        exact .inr ⟨at_b.symm, zero⟩

theorem storedBytes_of_asked {pos : Nat} {data : List UInt8} (asked : askedBytes pos data = 0)
    (outcome : PageOutcome) : storedBytes outcome pos data = [] := by
  unfold askedBytes at asked
  unfold storedBytes
  split
  · rfl
  · rfl
  all_goals rw [asked, Nat.min_zero, List.take_zero]

/-- The bytes of one pass are all in its page. -/
theorem page_of_landsAt {pos x : Nat} {data : List UInt8} {outcome : PageOutcome} {v : UInt8}
    (lands : landsAt pos (storedBytes outcome pos data) x = some v) :
    x / pageSize = pos / pageSize := by
  have length : (storedBytes outcome pos data).length ≤ pageSize - pos % pageSize := by
    unfold storedBytes
    split <;> simp
  unfold landsAt at lands
  split at lands
  case isTrue lower =>
    have upper := (List.getElem?_eq_some_iff.mp lands).1
    have page := Nat.div_add_mod pos pageSize
    rw [Nat.div_eq_iff (by decide)]
    have := Nat.mod_lt pos pageSize_pos
    constructor
    · rw [Nat.mul_comm] at page
      omega
    · rw [Nat.mul_comm] at page
      omega
  case isFalse => cases lands

end Blocks

/-! ## Steps -/

section Steps

variable {orig : Nat → ByteFile UInt8} {s s' : Storage τ} {sys : System τ} {j b : Nat}

theorem unchanged_next : ¬ (s.next sys).changed b ↔
    ¬ s.changed b ∧ ∀ x, x / pageSize = b →
      sys.shared.par.file.byteAt x = s.sys.shared.par.file.byteAt x := by
  unfold Storage.next
  dsimp only
  constructor
  · intro unchanged
    refine ⟨fun changed => unchanged (.inl changed), fun x inside => ?_⟩
    by_contra differs
    exact unchanged (.inr ⟨x, inside, differs⟩)
  · rintro ⟨unchanged, same⟩ (changed | ⟨x, inside, differs⟩)
    · exact unchanged changed
    · exact differs (same x inside)

theorem Shares.next {f : ByteFile UInt8} (shares : Shares f s.changed s.sys.shared j b)
    (queued : sys.shared.Queued j b → s.sys.shared.Queued j b)
    (same : ∀ x, x / pageSize = b →
      sys.shared.par.file.byteAt x = s.sys.shared.par.file.byteAt x) :
    Shares f (s.next sys).changed sys.shared j b where
  unchanged := unchanged_next.mpr ⟨shares.unchanged, same⟩
  free now := shares.free (queued now)
  block i below := (same _ (page_of_offset below)).trans (shares.block i below)

variable [DecidableEq τ]

/-- A step that puts in the parent, at an offset, only the byte that is there. -/
theorem byteAt_kept {act : Act τ} {reply : Reply} (moved : Cow.step s.sys act = some (reply, sys))
    {x : Nat} (kept : ∀ v ∈ act.toParent s.sys x, v = s.sys.shared.par.file.byteAt x) :
    sys.shared.par.file.byteAt x = s.sys.shared.par.file.byteAt x := by
  rw [(step_effect (c := 0) moved).par x]
  cases put : act.toParent s.sys x with
  | none => rfl
  | some v => exact kept v put

/-- A write to the parent: the block is in a page copy, or nothing of it changes. -/
theorem Shares.direct {f : ByteFile UInt8} {act : Act τ} {reply : Reply} {pos : Nat}
    {data : List UInt8} {outcome : PageOutcome} (shares : Shares f s.changed s.sys.shared j b)
    (needs : s.sys.shared.Needs j b) (slot : j ≤ s.sys.shared.lastChildIndex)
    (reaches : b * pageSize < s.sys.shared.par.file.size)
    (moved : Cow.step s.sys act = some (reply, sys)) (direct : act.isDirect s.sys = true)
    (stores : act.stores s.sys = (pos, storedBytes outcome pos data))
    (later : Later { s.sys.shared.writeParBlocks pos (askedBytes pos data) with
      par := s.sys.shared.par.put pos (storedBytes outcome pos data) } sys.shared) :
    sys.shared.Secured f j b ∨ Shares f (s.next sys).changed sys.shared j b := by
  have puts (x : Nat) : act.toParent s.sys x = landsAt pos (storedBytes outcome pos data) x := by
    rw [toParent_of_isDirect direct, stores]
  by_cases written : b = pos / pageSize ∧ askedBytes pos data ≠ 0
  · obtain ⟨rfl, some⟩ := written
    have secured := writeParBlocks_secures some reaches
      (isTargetChild_of_needs needs slot shares.free) shares.block
    have disk : (s.sys.shared.par.put pos (storedBytes outcome pos data)).disk =
        (s.sys.shared.writeParBlocks pos (askedBytes pos data)).par.disk := by
      rw [(writeParBlocks_eq s.sys.shared pos _).1, disk_put]
    exact .inl (.later later (.of_subset (s := s.sys.shared.writeParBlocks pos _) disk
      (List.Subset.refl _) secured))
  · refine .inr (shares.next (fun queued => ?_) fun x inside => byteAt_kept moved fun v put => ?_)
    · have before := queued.of_later later
      have made : (s.sys.shared.writeParBlocks pos (askedBytes pos data)).Queued j b := before
      rcases made.of_writeParBlocks with old | new
      · exact old
      · exact (written new).elim
    · -- a byte of the block is only stored if the pass asks for some
      rw [puts x] at put
      have asked : askedBytes pos data = 0 := by
        by_contra some
        exact written ⟨inside.symm.trans (page_of_landsAt put), some⟩
      rw [storedBytes_of_asked asked, landsAt_nil] at put
      cases put

/-- A block that a child needs after a step of the family. -/
theorem Guarded.act {act : Act τ} {reply : Reply} (guarded : Guarded orig s)
    (keeps : KeepsShared s (.act act)) (moved : Cow.step s.sys act = some (reply, sys))
    (needs : sys.shared.Needs j b) :
    sys.shared.Secured (orig j) j b ∨ Shares (orig j) (s.next sys).changed sys.shared j b := by
  have needed := needs.of_becomes (act_frame moved).2.2
  have unchanged (calm : ∀ x, x / pageSize = b → act.toParent s.sys x = none) :
      ∀ x, x / pageSize = b →
        sys.shared.par.file.byteAt x = s.sys.shared.par.file.byteAt x := by
    intro x inside
    refine byteAt_kept moved fun v put => ?_
    rw [calm x inside] at put
    cases put
  rcases act_cases moved with
    ⟨later, empty⟩ | ⟨pos, data, outcome, direct, stores, later⟩ | ⟨fails, rfl, thread⟩
  · rcases guarded.blocks j b needed with secured | shares
    · exact .inl (secured.later later)
    · refine .inr (shares.next (fun queued => queued.of_later later) fun x inside =>
        byteAt_kept moved fun v put => ?_)
      cases direct : act.isDirect s.sys with
      | true =>
          rw [toParent_of_isDirect direct, empty direct, landsAt_nil] at put
          cases put
      | false =>
          subst inside
          exact keeps direct x j needed shares.free v put
  · rcases guarded.blocks j b needed with secured | shares
    · refine .inl (.later later (secured.of_subset (disk_put _ _ _) fun p here => ?_))
      rcases writeParBlocks_cases s.sys.shared pos (askedBytes pos data) with same | ⟨q, same, _⟩
      · rw [same]
        exact here
      · rw [same]
        exact List.mem_append_left _ here
    · obtain ⟨k, here, _, covered, _⟩ := needed
      exact shares.direct ⟨k, here, ‹_›, covered, ‹_›⟩ (guarded.slots j k here)
        (lt_of_lt_of_le covered (guarded.copySize j k here)) moved direct stores later
  · have unchanged := unchanged fun _ _ => rfl
    rcases copyThread_cases thread with
      ⟨_, _, same⟩ | ⟨n, p, rest, at_n, front, ⟨last, same⟩ | ⟨later, _⟩⟩
    · rcases guarded.blocks j b needed with secured | shares
      · rw [same]
        exact .inl secured
      · refine .inr (shares.next (fun queued => ?_) unchanged)
        rw [same] at queued
        exact queued
    · rcases guarded.blocks j b needed with ⟨q, here, blk, target, holds⟩ | shares
      · rw [front] at here
        rcases List.mem_cons.mp here with rfl | old
        · -- the page copy that goes has reached the child
          obtain ⟨k, child, _, covered, clear⟩ := needed
          subst blk
          rw [guarded.tracked.applied at_n front last j k child target covered] at clear
          cases clear
        · rw [same]
          exact .inl ⟨q, old, blk, target, holds⟩
      · refine .inr (shares.next (fun queued => ?_) unchanged)
        rw [same] at queued
        obtain ⟨q, here, blk, target⟩ := queued
        exact ⟨q, front ▸ List.mem_cons_of_mem p here, blk, target⟩
    · rcases guarded.blocks j b needed with secured | shares
      · exact .inl (.later later secured)
      · refine .inr (shares.next (fun queued => ?_) unchanged)
        have before := queued.of_later later
        exact before

omit [DecidableEq τ] in
/-- A block without pages to write stays as on the disk, and others become so. -/
theorem Guarded.blockAt_sync {pages : Finset Nat} (guarded : Guarded orig s)
    (clean : b ∉ s.dirty \ pages) (unchanged : ¬ s.changed b) {i : Nat} (below : i < pageSize) :
    blockAt s.sys.shared.par.file b i = blockAt (s.sys.shared.par.sync pages).disk b i := by
  unfold blockAt
  rw [CachedFile.byteAt_sync, page_of_offset below]
  split
  case isTrue => rfl
  case isFalse out =>
    have spared : b ∉ s.dirty := fun dirty => clean (Finset.mem_sdiff.mpr ⟨dirty, out⟩)
    exact guarded.clean b spared unchanged i below

omit [DecidableEq τ] in
/-- A page that is not dirty leaves the memory unseen, unless it was changed. -/
theorem Guarded.byteAt_drop {page : Nat} (guarded : Guarded orig s) (clean : page ∉ s.dirty)
    {x : Nat} (unchanged : ¬ s.changed (x / pageSize)) :
    (s.sys.shared.par.drop page).file.byteAt x = s.sys.shared.par.file.byteAt x := by
  rw [CachedFile.byteAt_drop]
  split
  case isTrue inside =>
    have onDisk := guarded.clean page clean (inside ▸ unchanged) (x % pageSize)
      (Nat.mod_lt x pageSize_pos)
    unfold blockAt at onDisk
    rw [← inside, Nat.div_add_mod'] at onDisk
    exact onDisk.symm
  case isFalse => rfl

variable [Fintype τ]

theorem guarded_step {ev : Event τ} {reply : Reply} (guarded : Guarded orig s)
    (orderly : Orderly s ev) (taken : s.step ev = some (reply, s')) : Guarded orig s' := by
  have tracked := tracked_step guarded.tracked orderly.completes taken
  cases ev with
  | act act =>
      obtain ⟨sys, moved, rfl⟩ := step_act taken
      obtain ⟨disk, index, child⟩ := act_frame moved
      refine ⟨tracked, fun j k' here => ?_, fun j k' here => ?_,
        fun b clean unchanged i below => ?_,
        fun j b needs => guarded.act orderly.keepsShared moved needs⟩
      · obtain ⟨k, here, _⟩ := child j k' here
        exact index ▸ guarded.slots j k here
      · obtain ⟨k, here, becomes⟩ := child j k' here
        rw [becomes.copySize]
        exact le_trans (guarded.copySize j k here) (step_effect (c := 0) moved).size_le
      · obtain ⟨old, same⟩ := unchanged_next.mp unchanged
        have spared : b ∉ s.dirty := fun dirty => clean (Finset.mem_union_left _ dirty)
        change blockAt sys.shared.par.file b i = blockAt sys.shared.par.disk b i
        rw [disk, ← guarded.clean b spared old i below]
        exact same _ (page_of_offset below)
  | writeback startBlockNum endBlockNum =>
      rcases step_writeback taken with rfl | rfl
      · exact ⟨tracked, guarded.slots, guarded.copySize, guarded.clean, guarded.blocks⟩
      · refine ⟨tracked, guarded.slots, guarded.copySize, fun b clean unchanged i below =>
          guarded.blockAt_sync clean (unchanged_next.mp unchanged).1 below, fun j b needs => ?_⟩
        rcases guarded.blocks j b needs with ⟨p, here, blk, target, holds⟩ | shares
        · refine .inl ⟨p, here, blk, target, fun i below => ?_⟩
          exact (content_sync (orderly.sparesCold.notMem here) below).trans (holds i below)
        · exact .inr (shares.next (fun queued => queued) fun _ _ => rfl)
  | reclaim page =>
      obtain ⟨clean, rfl⟩ := step_reclaim taken
      refine ⟨tracked, guarded.slots, fun j k here => ?_,
        fun b spared unchanged i below => ?_, fun j b needs => ?_⟩
      · exact le_trans (guarded.copySize j k here) (le_max_left _ _)
      · obtain ⟨old, same⟩ := unchanged_next.mp unchanged
        exact (same _ (page_of_offset below)).trans (guarded.clean b spared old i below)
      · rcases guarded.blocks j b needs with secured | shares
        · exact .inl secured
        · refine .inr (shares.next (fun queued => queued) fun x inside => ?_)
          exact guarded.byteAt_drop clean (inside ▸ shares.unchanged)
  | unmount =>
      obtain ⟨_, rfl⟩ := step_unmount taken
      have empty : s.sys.shared.pageCopies = [] := orderly.completes
      refine ⟨tracked, guarded.slots, guarded.copySize,
        fun b clean unchanged i below => ?_, fun j b needs => ?_⟩
      · exact guarded.clean b clean (unchanged_next.mp unchanged).1 i below
      · rcases guarded.blocks j b needs with ⟨p, here, _⟩ | shares
        · rw [empty] at here
          cases here
        · refine .inr (shares.next (fun queued => ?_) fun _ _ => rfl)
          obtain ⟨p, here, _⟩ := queued
          cases here

/-- In every run in which shared blocks are left alone by all but writes to the parent
itself, the page copy thread does not fail and is not cut short, and no writeback comes
before a page copy is loaded, every child that needs a block that was changed in place is
the target of a page copy of it, with the bytes of the time the child was made. -/
theorem parent_change_preserved {s₀ : Storage τ} {evs : List (Event τ)}
    (start : Guarded orig s₀) (run : Run Storage.step Orderly s₀ evs s) : Preserves orig s :=
  (run.invariant (P := Guarded orig)
    (fun _ _ _ _ guarded orderly taken => guarded_step guarded orderly taken) start).preserves

theorem guarded_justMade (f : ByteFile UInt8) (cached : Nat → Bool) :
    Guarded (fun _ => f) (.mounted (justMade f cached)) := by
  have only {j : Nat} {k : CowChild} (here : (justMade f cached).shared.child j = some k) :
      j = 0 ∧ k.copySize = f.size := by
    unfold justMade at here
    dsimp only at here
    split at here
    case isTrue first =>
      cases here
      exact ⟨first, rfl⟩
    case isFalse => cases here
  refine ⟨tracked_justMade f cached, fun j k here => ?_, fun j k here => ?_,
    fun _ _ _ _ _ => rfl, fun j b _ => .inr ⟨nofun, ?_, fun _ _ => rfl⟩⟩
  · exact (only here).1.le
  · exact (only here).2.le
  · rintro ⟨p, here, _⟩
    cases here

omit [DecidableEq τ] [Fintype τ] in
/-- A move of a write to the parent, or one that begins a call. -/
theorem keepsShared_of_direct {t : τ} {m : Move}
    (direct : (Act.isDirect s.sys (.thread t m) || (s.sys.place t).isIdle) = true) :
    KeepsShared s (.act (.thread t m)) := by
  intro child x j _ _ v put
  rw [child, Bool.false_or] at direct
  unfold Act.toParent at put
  dsimp only at put
  cases idle : s.sys.place t with
  | idle =>
      rw [idle] at put
      cases put
  | _ => simp [idle, Place.isIdle] at direct

/-- The step is orderly, as far as can be told without looking at every byte. -/
def Storage.admits (s : Storage τ) (ev : Event τ) : Bool :=
  decide (Completes s ev ∧ SparesCold s ev) &&
    match ev with
    | .act (.thread t m) => Act.isDirect s.sys (.thread t m) || (s.sys.place t).isIdle
    | .act _ => false
    | .writeback _ _ | .reclaim _ | .unmount => true

omit [DecidableEq τ] [Fintype τ] in
theorem orderly_of_admits {ev : Event τ} (admits : s.admits ev = true) : Orderly s ev := by
  unfold Storage.admits at admits
  rw [Bool.and_eq_true, decide_eq_true_eq] at admits
  obtain ⟨⟨completes, spares⟩, plain⟩ := admits
  refine ⟨completes, spares, ?_⟩
  cases ev with
  | act act =>
      cases act with
      | thread t m => exact keepsShared_of_direct plain
      | _ => cases plain
  | _ => trivial

/-- A step is noted for every block it changes. -/
theorem changed_step {ev : Event τ} {reply : Reply} (taken : s.step ev = some (reply, s'))
    {x : Nat} : (s.changed (x / pageSize) → s'.changed (x / pageSize)) ∧
      (s'.sys.shared.par.file.byteAt x ≠ s.sys.shared.par.file.byteAt x →
        s'.changed (x / pageSize)) := by
  have noted (sys : System τ) : (s.changed (x / pageSize) → (s.next sys).changed (x / pageSize)) ∧
      (sys.shared.par.file.byteAt x ≠ s.sys.shared.par.file.byteAt x →
        (s.next sys).changed (x / pageSize)) :=
    ⟨.inl, fun differs => .inr ⟨x, rfl, differs⟩⟩
  cases ev with
  | act act =>
      obtain ⟨sys, _, rfl⟩ := step_act taken
      exact noted sys
  | writeback startBlockNum endBlockNum =>
      rcases step_writeback taken with rfl | rfl
      · exact ⟨id, fun differs => (differs rfl).elim⟩
      · exact noted _
  | reclaim page =>
      obtain ⟨_, rfl⟩ := step_reclaim taken
      exact noted _
  | unmount =>
      obtain ⟨_, rfl⟩ := step_unmount taken
      exact noted _

theorem changed_of_run {s₀ : Storage τ} {evs : List (Event τ)} {ok : Storage τ → Event τ → Prop}
    (run : Run Storage.step ok s₀ evs s) {x : Nat}
    (differs : s.sys.shared.par.file.byteAt x ≠ s₀.sys.shared.par.file.byteAt x) :
    s.changed (x / pageSize) := by
  have either : s.sys.shared.par.file.byteAt x = s₀.sys.shared.par.file.byteAt x ∨
      s.changed (x / pageSize) := by
    refine run.invariant (P := fun s => s.sys.shared.par.file.byteAt x =
      s₀.sys.shared.par.file.byteAt x ∨ s.changed (x / pageSize)) ?_ (.inl rfl)
    intro s₁ ev reply s₂ before _ taken
    rcases before with same | changed
    · by_cases kept : s₂.sys.shared.par.file.byteAt x = s₁.sys.shared.par.file.byteAt x
      · exact .inl (kept.trans same)
      · exact .inr ((changed_step taken).2 kept)
    · exact .inr ((changed_step taken).1 changed)
  rcases either with same | changed
  · exact (differs same).elim
  · exact changed

theorem parent_change_preserved_written_back : ∃ s,
    Run Storage.step Orderly (.mounted (justMade ⟨1, fun _ => 7⟩ fun _ => true))
      ((writesParent 0 [8]).map .act ++ [.writeback 0 0, .reclaim 0]) s ∧
    s.changed 0 ∧ s.sys.shared.Needs 0 0 ∧ s.sys.shared.Secured ⟨1, fun _ => 7⟩ 0 0 := by
  refine Run.exists_imp Storage.admits (fun _ _ _ => orderly_of_admits)
    (Q := fun s => s.sys.shared.par.file.byteAt 0 ≠ 7 ∧ ((s.sys.shared.child 0).any fun k =>
      decide (k.ranges = [] ∧ 0 < k.copySize ∧ k.copied 0 = false)) = true)
    (by decide +kernel) ?_
  intro s run ⟨differs, found⟩
  simp only [Option.any_eq_true, decide_eq_true_eq] at found
  obtain ⟨k, here, plain, covered, clear⟩ := found
  have changed : s.changed 0 := changed_of_run (x := 0) run differs
  have needs : s.sys.shared.Needs 0 0 :=
    ⟨k, here, by rw [plain]; rfl, by rw [Nat.zero_mul]; exact covered, clear⟩
  exact ⟨changed, needs, parent_change_preserved (guarded_justMade _ _) run 0 0 needs changed⟩

end Steps

/-- The first byte of the parent is not what the file `f` has, and the child in slot `j`,
which needs it, cannot get it from a page copy. -/
def Shared.exposes (f : ByteFile UInt8) (j : Nat) (s : Shared) : Bool :=
  (s.child j).any fun k =>
    decide (isInRange k.ranges 0 = true ∧ 0 < k.copySize ∧ k.copied 0 = false ∧
      s.par.file.byteAt 0 ≠ f.byteAt 0) &&
    s.pageCopies.all fun p => decide (p.blockNum = 0 → p.isTargetChild j = true →
      p.content s.par.disk 0 ≠ f.byteAt 0)

theorem not_preserves_of_exposes {f : ByteFile UInt8} {j : Nat} {s₀ s : Storage Unit}
    {evs : List (Event Unit)} {ok : Storage Unit → Event Unit → Prop}
    (run : Run Storage.step ok s₀ evs s) (start : s₀.sys.shared.par.file = f)
    (exposes : s.sys.shared.exposes f j = true) : ¬ Preserves (fun _ => f) s := by
  obtain ⟨k, here, wrong⟩ := (Option.any_eq_true _ _).mp exposes
  rw [Bool.and_eq_true, decide_eq_true_eq, List.all_eq_true] at wrong
  obtain ⟨⟨inRange, covered, clear, differs⟩, lost⟩ := wrong
  intro preserves
  obtain ⟨p, queued, blk, target, holds⟩ := preserves j 0
    ⟨k, here, inRange, by rw [Nat.zero_mul]; exact covered, clear⟩
    (changed_of_run (x := 0) run (start ▸ differs))
  exact of_decide_eq_true (lost p queued) blk target (holds 0 (by decide))

/-- Two children of a parent with one byte `7`, of which the first has block `0` as a
SHARED range. -/
def besideSharer : System Unit :=
  let made := justMade ⟨1, fun _ => 7⟩ fun _ => true
  { made with
    shared := { made.shared with
      child := fun c =>
        if c = 0 then (made.shared.child 0).map fun k => { k with ranges := [⟨0, 0, .shared⟩] }
        else if c = 1 then made.shared.child 0
        else none
      lastChildIndex := 1 } }

/-- A write of a child to a SHARED range makes no page copy for its sibling; copying up
clears a page of the parent that is not in memory; and a page copy that is lost or read
too late is no help. -/
theorem parent_change_preserved_fails :
    (∃ s, Run Storage.step (fun _ _ => True) (.mounted besideSharer)
      ((writesChild 0 [8]).map .act) s ∧ ¬ Preserves (fun _ => ⟨1, fun _ => 7⟩) s) ∧
    (∃ s, Run Storage.step (fun _ _ => True)
      (.mounted (justMade ⟨1, fun _ => 7⟩ fun _ => false))
      (((writesChild 0 [8]).take 2).map .act) s ∧ ¬ Preserves (fun _ => ⟨1, fun _ => 7⟩) s) ∧
    (∃ s, Run Storage.step (fun _ _ => True)
      (.mounted (justMade ⟨1, fun _ => 7⟩ fun _ => true))
      ((writesParent 0 [8]).map .act ++ [.unmount]) s ∧
      ¬ Preserves (fun _ => ⟨1, fun _ => 7⟩) s) ∧
    ∃ s, Run Storage.step (fun _ _ => True)
      (.mounted (justMade ⟨1, fun _ => 7⟩ fun _ => false))
      (overwritesFirst ++ [.writeback 0 0]) s ∧ ¬ Preserves (fun _ => ⟨1, fun _ => 7⟩) s := by
  have found {sys : System Unit} {evs : List (Event Unit)} {j : Nat}
      (start : sys.shared.par.file = ⟨1, fun _ => 7⟩)
      (computed : ((Run.exec Storage.step (fun _ _ => true) (.mounted sys) evs).any fun s =>
        decide (s.sys.shared.exposes ⟨1, fun _ => 7⟩ j = true)) = true) :
      ∃ s, Run Storage.step (fun _ _ => True) (.mounted sys) evs s ∧
        ¬ Preserves (fun _ => ⟨1, fun _ => 7⟩) s :=
    Run.exists_imp (fun _ _ => true) (fun _ _ _ _ => trivial) computed
      fun _ run exposes => not_preserves_of_exposes run start exposes
  refine ⟨found (j := 1) rfl ?_, found (j := 0) rfl ?_, found (j := 0) rfl ?_,
    found (j := 0) rfl ?_⟩
  all_goals decide +kernel

end FlexClone.Scorw.Cow
