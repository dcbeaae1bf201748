import FlexClone.Scorw.CowReads
import FlexClone.Scorw.CowStorage

/-!
# Pending page copies

Once a page of the parent is overwritten, its page copy is all that is left of what the
children should see. Two things can go wrong with it.

* The page copy thread drops it after the last child, even if copying to a child has
  failed, and unmounting drops what is still pending. `page_copy_applied` is what holds
  in runs without the two.
* A page that was not in memory when it was overwritten as a whole is read from the disk
  when it is needed. Nothing keeps the new page from being written back before that.
  `cold_copy_loads` is what holds in runs in which no writeback comes first.
-/

namespace FlexClone.Scorw.Cow

variable {τ : Type*} [DecidableEq τ] [Fintype τ]

/-! ## Dropping a page copy -/

/-- What tells the pending page copies apart. -/
def PageCopy.key (p : PageCopy) : Nat × (Nat → Bool) := (p.blockNum, p.isTargetChild)

/-- Every child the page copy is for has the block, if its copy size reaches that far. -/
def Applied (s : Shared) (p : PageCopy) : Prop :=
  ∀ j k, s.child j = some k → p.isTargetChild j = true → p.blockNum * pageSize < k.copySize →
    k.copied p.blockNum = true

/-- The page copy is still in the list, maybe loaded. -/
def Pending (s : Shared) (p : PageCopy) : Prop :=
  p.key ∈ s.pageCopies.map PageCopy.key

/-- The page copy thread copies without failing, and has no work left at an unmount. -/
def Completes (s : Storage τ) : Event τ → Prop
  | .act (.copyThread fails) => fails = false
  | .unmount => s.sys.shared.pageCopies = []
  | .act (.thread _ _) | .act (.read _ _ _ _) | .writeback _ _ | .reclaim _ => True

instance (s : Storage τ) : DecidablePred (Completes s)
  | .act (.copyThread fails) => inferInstanceAs (Decidable (fails = false))
  | .unmount => inferInstanceAs (Decidable (s.sys.shared.pageCopies = []))
  | .act (.thread _ _) => .isTrue trivial
  | .act (.read _ _ _ _) => .isTrue trivial
  | .writeback _ _ => .isTrue trivial
  | .reclaim _ => .isTrue trivial

/-- Page copies are for slots of the parent, no two are for the same, and the one the
thread works on has reached the children before its slot. -/
structure Tracked (s : Shared) : Prop where
  bound : s.lastChildIndex < Family.maxChilds
  targets : ∀ p ∈ s.pageCopies, ∀ j, p.isTargetChild j = true → j < Family.maxChilds
  once : (s.pageCopies.map PageCopy.key).Nodup
  front : s.pageCopies = [] → s.threadAt = none
  seen : ∀ n p rest, s.threadAt = some n → s.pageCopies = p :: rest →
    ∀ j k, j < n → s.child j = some k → p.isTargetChild j = true →
      p.blockNum * pageSize < k.copySize → k.copied p.blockNum = true

section Tracked

variable {s s' : Shared}

theorem Later.keys (later : Later s s') :
    s'.pageCopies.map PageCopy.key = s.pageCopies.map PageCopy.key := by
  refine (List.forall₂_eq_eq_eq ▸ List.forall₂_map_left_iff.mpr
    (List.forall₂_map_right_iff.mpr (later.pageCopies.imp fun p p' becomes => ?_))).symm
  unfold PageCopy.key
  rw [becomes.blockNum, becomes.isTargetChild]

theorem Pending.later (later : Later s s') {p : PageCopy} (pending : Pending s p) :
    Pending s' p := by
  unfold Pending
  rw [later.keys]
  exact pending

theorem Tracked.later (tracked : Tracked s) (later : Later s s') : Tracked s' where
  bound := later.lastChildIndex ▸ tracked.bound
  targets p' member j target := by
    obtain ⟨p, old, becomes⟩ := later.before member
    exact tracked.targets p old j (becomes.isTargetChild ▸ target)
  once := later.keys ▸ tracked.once
  front empty := by
    have length := later.pageCopies.length_eq
    rw [empty] at length
    rw [later.threadAt, tracked.front (List.length_eq_zero_iff.mp length)]
  seen n p' rest' at_n front j k' before here target covered := by
    have copies := later.pageCopies
    rw [front] at copies
    obtain ⟨p, rest, becomes, _, old⟩ := List.forall₂_cons_right_iff.mp copies
    obtain ⟨k, here, grows⟩ := later.child j k' here
    rw [becomes.isTargetChild] at target
    rw [becomes.blockNum, grows.copySize] at covered
    rw [becomes.blockNum]
    exact grows.copied _ (tracked.seen n p rest (later.threadAt ▸ at_n) old j k before here
      target covered)

/-- A new page copy comes last. -/
theorem Tracked.writeParBlocks (tracked : Tracked s) (pos bytes : Nat)
    (par : CachedFile UInt8 pageSize) :
    Tracked { s.writeParBlocks pos bytes with par := par } := by
  rcases writeParBlocks_cases s pos bytes with same | ⟨p, same, blk, targets, some, _⟩
  · rw [same]
    exact ⟨tracked.bound, tracked.targets, tracked.once, tracked.front, tracked.seen⟩
  · rw [same]
    refine ⟨tracked.bound, fun q member j target => ?_, ?_, fun empty => ?_,
      fun n q rest at_n front => ?_⟩
    · rcases List.mem_append.mp member with old | new
      · exact tracked.targets q old j target
      · rw [List.mem_singleton.mp new, targets] at target
        unfold Shared.isTargetChild at target
        simp only [Bool.and_eq_true, decide_eq_true_eq] at target
        have := tracked.bound
        omega
    · rw [List.map_append, List.map_singleton]
      refine List.nodup_append.mpr ⟨tracked.once, List.nodup_singleton _, ?_⟩
      -- a child with a page copy of the block is no target of another one
      rintro key old _ new rfl
      obtain ⟨q, here, same⟩ := List.mem_map.mp old
      obtain ⟨blks, targeted⟩ := Prod.mk.inj (same.trans (List.mem_singleton.mp new))
      obtain ⟨j, target⟩ := some
      have found := target
      unfold Shared.isTargetChild at found
      simp only [Bool.and_eq_true, Option.any_eq_true, Option.isNone_iff_eq_none] at found
      obtain ⟨_, k, _, ⟨_, unfound⟩, _⟩ := found
      unfold Shared.findPageCopy at unfound
      have misses := List.find?_eq_none.mp unfound q here
      rw [targeted, targets, blks, blk, target] at misses
      simp at misses
    · simp at empty
    · cases old : s.pageCopies with
      | nil =>
          have idle := tracked.front old
          rw [at_n] at idle
          cases idle
      | cons q₀ rest₀ =>
          have same : q₀ = q := by
            simp only [old, List.cons_append, List.cons.injEq] at front
            exact front.1
          exact tracked.seen n q rest₀ at_n (same ▸ old)

theorem Tracked.copyThread (tracked : Tracked s) (moved : s.copyThread false = some s') :
    Tracked s' := by
  rcases copyThread_cases moved with
    ⟨_, some, rfl⟩ | ⟨n, p, rest, at_n, front, ⟨_, rfl⟩ | ⟨later, copied⟩⟩
  · refine ⟨tracked.bound, tracked.targets, tracked.once, fun empty => (some empty).elim, ?_⟩
    intro n q rest zero _ j k before
    cases zero
    omega
  · refine ⟨tracked.bound, fun q member => ?_, ?_, fun _ => rfl, nofun⟩
    · exact tracked.targets q (front ▸ List.mem_cons_of_mem p member)
    · have once := tracked.once
      rw [front, List.map_cons] at once
      exact once.of_cons
  · -- the slot just looked at comes to those before it
    have before : Tracked { s with threadAt := some n } :=
      ⟨tracked.bound, tracked.targets, tracked.once, fun empty => at_n ▸ tracked.front empty,
        fun m q rest at_m => tracked.seen m q rest (at_n.trans at_m)⟩
    have kept : Tracked { s' with threadAt := some n } := before.later
      ⟨later.disk, later.lastChildIndex, rfl, later.child, later.pageCopies⟩
    refine ⟨kept.bound, kept.targets, kept.once, fun empty => ?_, ?_⟩
    · cases kept.front empty
    · intro m q rest' at_m front' j k below here target covered
      rw [later.threadAt] at at_m
      cases at_m
      by_cases last : j = n
      · subst last
        have copies := later.pageCopies
        rw [front, front'] at copies
        have becomes := (List.forall₂_cons.mp copies).1
        rw [becomes.isTargetChild] at target
        rw [becomes.blockNum] at covered ⊢
        exact copied rfl k here target covered
      · exact kept.seen n q rest' rfl front' j k (by omega) here target covered

/-- The page copy thread has looked at all slots. -/
theorem Tracked.applied (tracked : Tracked s) {n : Nat} {p : PageCopy} {rest : List PageCopy}
    (at_n : s.threadAt = some n) (front : s.pageCopies = p :: rest)
    (last : Family.maxChilds ≤ n) : Applied s p := by
  intro j k child target covered
  have below := tracked.targets p (front ▸ List.mem_cons_self) j target
  exact tracked.seen n p rest at_n front j k (by omega) child target covered

end Tracked

section Dropping

variable {s s' : Storage τ} {ev : Event τ} {reply : Reply}

omit [Fintype τ] in
theorem tracked_act {act : Act τ} {s s' : System τ} (tracked : Tracked s.shared)
    (complete : ∀ fails, act = .copyThread fails → fails = false)
    (taken : Cow.step s act = some (reply, s')) : Tracked s'.shared := by
  rcases act_cases taken with ⟨later, _⟩ | ⟨pos, data, outcome, _, _, later⟩ | ⟨fails, rfl, moved⟩
  · exact tracked.later later
  · exact (tracked.writeParBlocks pos _ _).later later
  · rw [complete fails rfl] at moved
    exact tracked.copyThread moved

theorem tracked_step (tracked : Tracked s.sys.shared) (completes : Completes s ev)
    (taken : s.step ev = some (reply, s')) : Tracked s'.sys.shared := by
  have kept (par : CachedFile UInt8 pageSize) : Tracked { s.sys.shared with par := par } :=
    ⟨tracked.bound, tracked.targets, tracked.once, tracked.front, tracked.seen⟩
  cases ev with
  | act act =>
      obtain ⟨sys, moved, rfl⟩ := step_act taken
      refine tracked_act tracked (fun fails same => ?_) moved
      subst same
      exact completes
  | writeback startBlockNum endBlockNum =>
      rcases step_writeback taken with rfl | rfl
      · exact tracked
      · exact kept _
  | reclaim page =>
      obtain ⟨_, rfl⟩ := step_reclaim taken
      exact kept _
  | unmount =>
      obtain ⟨idle, rfl⟩ := step_unmount taken
      exact ⟨tracked.bound, nofun, .nil, fun _ => idle, nofun⟩

/-- In every run in which the page copy thread copies without failing and has no work left
at an unmount, a page copy leaves the list only when every child it is for has the
block. -/
theorem page_copy_applied {s₀ : Storage τ} {evs : List (Event τ)}
    (start : Tracked s₀.sys.shared) (run : Run Storage.step Completes s₀ evs s)
    (completes : Completes s ev) (taken : s.step ev = some (reply, s')) :
    ∀ p ∈ s.sys.shared.pageCopies, Pending s'.sys.shared p ∨ Applied s.sys.shared p := by
  have tracked := run.invariant (P := fun s => Tracked s.sys.shared)
    (fun _ _ _ _ tracked completes taken => tracked_step tracked completes taken) start
  intro p here
  have stays : Pending s.sys.shared p := List.mem_map_of_mem here
  cases ev with
  | act act =>
      obtain ⟨sys, moved, rfl⟩ := step_act taken
      rcases act_cases moved with
        ⟨later, _⟩ | ⟨pos, data, outcome, _, _, later⟩ | ⟨fails, rfl, thread⟩
      · exact .inl (stays.later later)
      · refine .inl (.later later ?_)
        rcases writeParBlocks_cases s.sys.shared pos (askedBytes pos data) with
          same | ⟨q, same, _⟩
        · rw [same]
          exact stays
        · rw [same]
          exact List.mem_map_of_mem (List.mem_append_left _ here)
      · rcases copyThread_cases thread with
          ⟨_, _, same⟩ | ⟨n, q, rest, at_n, front, ⟨last, same⟩ | ⟨later, _⟩⟩
        · exact .inl (same ▸ stays)
        · rw [front] at here
          rcases List.mem_cons.mp here with rfl | old
          · exact .inr (tracked.applied at_n front last)
          · exact .inl (List.mem_map_of_mem (same ▸ old))
        · exact .inl (stays.later later)
  | writeback startBlockNum endBlockNum =>
      rcases step_writeback taken with rfl | rfl
      · exact .inl stays
      · exact .inl stays
  | reclaim page =>
      obtain ⟨_, rfl⟩ := step_reclaim taken
      exact .inl stays
  | unmount =>
      have empty : s.sys.shared.pageCopies = [] := completes
      rw [empty] at here
      cases here

/-- The page copy thread looks at every slot of the parent, as far as it gets. -/
def copiesOut (fails : Bool) : List (Event Unit) :=
  List.replicate (Family.maxChilds + 1) (.act (.copyThread fails))

theorem tracked_justMade (f : ByteFile UInt8) (cached : Nat → Bool) :
    Tracked (justMade f cached).shared :=
  ⟨show 0 < Family.maxChilds by decide, nofun, .nil, fun _ => rfl, nofun⟩

theorem page_copy_applied_all_slots : ∃ s s',
    Run Storage.step Completes (.mounted (justMade ⟨1, fun _ => 7⟩ fun _ => true))
      ((writesParent 0 [8]).map .act ++ copiesOut false) s ∧
    s.step (.act (.copyThread false)) = some (.goesOn, s') ∧
    s.sys.shared.pageCopies ≠ [] ∧ s'.sys.shared.pageCopies = [] ∧
    ∀ p ∈ s.sys.shared.pageCopies, Applied s.sys.shared p := by
  refine Run.exists_step_imp (fun s ev => decide (Completes s ev))
    (fun _ _ _ => of_decide_eq_true) (Q := fun s s' => ¬ s.sys.shared.pageCopies.isEmpty = true ∧
      s'.sys.shared.pageCopies.isEmpty = true) (by decide +kernel) ?_
  rintro s s' run taken ⟨some, none⟩
  rw [List.isEmpty_iff] at some none
  refine ⟨some, none, fun p here => ?_⟩
  have completes : Completes s (.act (.copyThread false)) := rfl
  rcases page_copy_applied (tracked_justMade _ _) run completes taken p here with
    pending | applied
  · unfold Pending at pending
    rw [none] at pending
    cases pending
  · exact applied

/-- The first child still needs a page copy. -/
def Shared.owes (s : Shared) : Bool :=
  s.pageCopies.any fun p => (s.child 0).any fun k =>
    decide (p.isTargetChild 0 = true ∧ p.blockNum * pageSize < k.copySize ∧
      k.copied p.blockNum = false)

theorem not_applied_of_owes {s : Shared} (owes : s.owes = true) :
    ∃ p ∈ s.pageCopies, ¬ Applied s p := by
  obtain ⟨p, here, needed⟩ := List.any_eq_true.mp owes
  obtain ⟨k, child, needs⟩ := (Option.any_eq_true _ _).mp needed
  obtain ⟨target, covered, clear⟩ := of_decide_eq_true needs
  refine ⟨p, here, fun applied => ?_⟩
  rw [applied 0 k child target covered] at clear
  cases clear

/-- The page copy thread drops a page copy although it could not be copied to the child,
and so does unmounting before the thread came to it. -/
theorem page_copy_applied_fails :
    (∃ s s' p, Run Storage.step (fun _ _ => True)
      (.mounted (justMade ⟨1, fun _ => 7⟩ fun _ => true))
      ((writesParent 0 [8]).map .act ++ copiesOut true) s ∧
      s.step (.act (.copyThread true)) = some (.goesOn, s') ∧
      p ∈ s.sys.shared.pageCopies ∧ ¬ Pending s'.sys.shared p ∧ ¬ Applied s.sys.shared p) ∧
    ∃ s s' p, Run Storage.step (fun _ _ => True)
      (.mounted (justMade ⟨1, fun _ => 7⟩ fun _ => true))
      ((writesParent 0 [8]).map .act) s ∧
      s.step .unmount = some (.goesOn, s') ∧
      p ∈ s.sys.shared.pageCopies ∧ ¬ Pending s'.sys.shared p ∧ ¬ Applied s.sys.shared p := by
  have found {evs : List (Event Unit)} {ev : Event Unit}
      (computed : ((Run.exec Storage.step (fun _ _ => true)
        (.mounted (justMade ⟨1, fun _ => 7⟩ fun _ => true)) evs).any fun s =>
          s.sys.shared.owes && (s.step ev).any fun r =>
            decide (r.1 = .goesOn) && r.2.sys.shared.pageCopies.isEmpty) = true) :
      ∃ s s' p, Run Storage.step (fun _ _ => True)
        (.mounted (justMade ⟨1, fun _ => 7⟩ fun _ => true)) evs s ∧
        s.step ev = some (.goesOn, s') ∧
        p ∈ s.sys.shared.pageCopies ∧ ¬ Pending s'.sys.shared p ∧ ¬ Applied s.sys.shared p := by
    obtain ⟨s, run, last⟩ := Run.exists_of_exec (fun _ _ _ _ => trivial) computed
    simp only [Bool.and_eq_true, Option.any_eq_true, decide_eq_true_eq,
      List.isEmpty_iff] at last
    obtain ⟨owes, ⟨_, s'⟩, taken, rfl, empty⟩ := last
    obtain ⟨p, here, needed⟩ := not_applied_of_owes owes
    refine ⟨s, s', p, run, taken, here, fun pending => ?_, needed⟩
    unfold Pending at pending
    rw [empty] at pending
    cases pending
  refine ⟨found ?_, found ?_⟩
  all_goals decide +kernel

end Dropping

/-! ## Loading a page copy -/

/-- The page copy has, or will get from the disk as it is, what it should hold. -/
def Holds (disk : ByteFile UInt8) (p : PageCopy) (m : Nat → UInt8) : Prop :=
  ∀ i < pageSize, p.content disk i = m i

/-- What a page copy has loaded is what the block held when the copy was made. -/
def LoadsOld (s : Storage τ) : Prop :=
  List.Forall₂ (fun p m => ∀ page, p.dataPage = some page → ∀ i < pageSize, page i = m i)
    s.sys.shared.pageCopies s.made

/-- No writeback reaches a dirty block with a page copy that is not loaded. -/
def SparesCold (s : Storage τ) : Event τ → Prop
  | .writeback startBlockNum endBlockNum =>
      ∀ p ∈ s.sys.shared.pageCopies, p.dataPage = none → p.blockNum ∈ s.dirty →
        ¬ (startBlockNum ≤ p.blockNum ∧ p.blockNum ≤ endBlockNum)
  | .act _ | .reclaim _ | .unmount => True

/-- Every pending page copy holds what it should. -/
def Holding (s : Storage τ) : Prop :=
  List.Forall₂ (Holds s.sys.shared.par.disk) s.sys.shared.pageCopies s.made

section Loading

variable {s s' : Storage τ} {ev : Event τ} {reply : Reply}

omit [DecidableEq τ] [Fintype τ] in
theorem Holding.loadsOld (holding : Holding s) : LoadsOld s := by
  refine holding.imp fun p m holds page loaded i below => ?_
  have content := holds i below
  unfold PageCopy.content at content
  rw [loaded] at content
  exact content

theorem PageCopy.Becomes.content {disk : ByteFile UInt8} {p p' : PageCopy}
    (becomes : p.Becomes disk p') : p'.content disk = p.content disk := by
  unfold PageCopy.content
  rw [becomes.blockNum]
  rcases becomes.dataPage with same | ⟨cold, loaded⟩
  · rw [same]
  · rw [cold, loaded]
    rfl

theorem forall₂_holds {disk : ByteFile UInt8} {ps ps' : List PageCopy} {ms : List (Nat → UInt8)}
    (becomes : List.Forall₂ (PageCopy.Becomes disk) ps ps')
    (holds : List.Forall₂ (Holds disk) ps ms) : List.Forall₂ (Holds disk) ps' ms := by
  induction becomes generalizing ms with
  | nil => exact holds
  | cons head _ ih =>
      cases holds with
      | cons first rest =>
          exact .cons (fun i below => head.content ▸ first i below) (ih rest)

omit [DecidableEq τ] [Fintype τ] in
/-- A step that makes no page copies. -/
theorem note_of_le {sh : Shared}
    (length : sh.pageCopies.length ≤ s.sys.shared.pageCopies.length) :
    s.note sh =
      s.made.drop (s.sys.shared.pageCopies.length - sh.pageCopies.length) := by
  unfold Storage.note
  dsimp only
  rw [List.drop_of_length_le (l := sh.pageCopies) length, List.map_nil, List.append_nil]

omit [DecidableEq τ] [Fintype τ] in
theorem note_same {sh : Shared} (length : sh.pageCopies.length = s.sys.shared.pageCopies.length) :
    s.note sh = s.made := by
  rw [note_of_le length.le, length, Nat.sub_self, List.drop_zero]

omit [DecidableEq τ] [Fintype τ] in
theorem holding_next {sys : System τ}
    (length : sys.shared.pageCopies.length = s.sys.shared.pageCopies.length)
    (holds : List.Forall₂ (Holds sys.shared.par.disk) sys.shared.pageCopies s.made) :
    Holding (s.next sys) := by
  unfold Holding Storage.next
  dsimp only
  rw [note_same length]
  exact holds

omit [DecidableEq τ] [Fintype τ] in
theorem Holding.kept {sys : System τ} (holding : Holding s)
    (disk : sys.shared.par.disk = s.sys.shared.par.disk)
    (copies : List.Forall₂ (PageCopy.Becomes s.sys.shared.par.disk) s.sys.shared.pageCopies
      sys.shared.pageCopies) : Holding (s.next sys) := by
  refine holding_next copies.length_eq.symm ?_
  rw [disk]
  exact forall₂_holds copies holding

/-- What is not in memory is on the disk. -/
theorem blockAt_cold (f : CachedFile UInt8 pageSize) {blk : Nat} (cold : f.cached blk = false)
    {i : Nat} (below : i < pageSize) : blockAt f.disk blk i = blockAt f.file blk i := by
  refine (f.cold _ ?_).symm
  rw [page_of_offset below]
  exact cold

/-- A page copy that has just been made, of a page in memory or of one that is not. -/
theorem holds_of_made {par : CachedFile UInt8 pageSize} {p : PageCopy}
    (page : p.dataPage = some (blockAt par.file p.blockNum) ∨
      p.dataPage = none ∧ par.cached p.blockNum = false) :
    Holds par.disk p (blockAt par.file p.blockNum) := by
  intro i below
  unfold PageCopy.content
  rcases page with hot | ⟨cold, out⟩
  · rw [hot]
    rfl
  · rw [cold]
    exact blockAt_cold _ out below

/-- Writing pages to the disk does not reach a page copy that is loaded or of another page. -/
theorem content_sync {par : CachedFile UInt8 pageSize} {pages : Finset Nat} {p : PageCopy}
    (spared : p.dataPage = none → p.blockNum ∉ pages) {i : Nat} (below : i < pageSize) :
    p.content (par.sync pages).disk i = p.content par.disk i := by
  unfold PageCopy.content
  cases loaded : p.dataPage with
  | some page => rfl
  | none =>
      rw [Option.getD_none, Option.getD_none, CachedFile.byteAt_sync, page_of_offset below,
        if_neg (spared loaded)]

omit [DecidableEq τ] [Fintype τ] in
/-- A pass on the parent, with the page copy it makes. -/
theorem Holding.writeParBlocks {sys : System τ} (holding : Holding s) {pos bytes : Nat}
    {par : CachedFile UInt8 pageSize} (disk : par.disk = s.sys.shared.par.disk)
    (later : Later { s.sys.shared.writeParBlocks pos bytes with par := par } sys.shared) :
    Holding (s.next sys) := by
  rcases writeParBlocks_cases s.sys.shared pos bytes with same | ⟨p, same, blk, _, _, page⟩
  · rw [same] at later
    have copies := later.pageCopies
    rw [disk] at copies
    exact holding.kept (later.disk.trans disk) copies
  · rw [same] at later
    have copies := later.pageCopies
    dsimp only at copies
    rw [disk] at copies
    -- the new page copy is the last one, and is noted with the block it is of
    have noted : s.note sys.shared = s.made ++ [blockAt s.sys.shared.par.file p.blockNum] := by
      have last := List.forall₂_drop s.sys.shared.pageCopies.length copies
      rw [List.drop_left] at last
      obtain ⟨p', _, becomes, rest, front⟩ := List.forall₂_cons_left_iff.mp last
      cases rest
      have length := copies.length_eq
      rw [List.length_append, List.length_singleton] at length
      unfold Storage.note
      dsimp only
      rw [front, ← length, Nat.sub_eq_zero_of_le (Nat.le_succ _), List.drop_zero,
        List.map_singleton, becomes.blockNum]
    unfold Holding Storage.next
    dsimp only
    rw [noted, later.disk, disk]
    exact forall₂_holds copies (List.rel_append holding (.cons (holds_of_made page) .nil))

omit [DecidableEq τ] [Fintype τ] in
theorem Holding.copyThread {sys : System τ} {fails : Bool} (holding : Holding s)
    (moved : s.sys.shared.copyThread fails = some sys.shared) : Holding (s.next sys) := by
  rcases copyThread_cases moved with
    ⟨_, _, same⟩ | ⟨n, p, rest, _, front, ⟨_, same⟩ | ⟨later, _⟩⟩
  · rw [same] at moved
    exact holding.kept (by rw [same]) (by rw [same]; exact forall₂_refl _ _)
  · -- the front page copy goes, with its note
    have length : sys.shared.pageCopies.length + 1 = s.sys.shared.pageCopies.length := by
      rw [same, front]
      rfl
    have noted : s.note sys.shared = s.made.tail := by
      rw [note_of_le (by omega), ← length, Nat.add_sub_cancel_left, List.drop_one]
    unfold Holding at holding
    rw [front] at holding
    obtain ⟨m, ms, _, holds, made⟩ := List.forall₂_cons_left_iff.mp holding
    unfold Holding Storage.next
    dsimp only
    rw [noted, same, made]
    exact holds
  · exact holding.kept later.disk later.pageCopies

omit [DecidableEq τ] [Fintype τ] in
/-- Pages are written to the disk, but none that a page copy still has to read. -/
theorem Holding.sync (holding : Holding s) {pages : Finset Nat}
    (spares : ∀ p ∈ s.sys.shared.pageCopies, p.dataPage = none → p.blockNum ∉ pages) :
    List.Forall₂ (Holds (s.sys.shared.par.sync pages).disk) s.sys.shared.pageCopies s.made := by
  refine List.forall₂_iff_get.mpr ⟨holding.length_eq, fun n h₁ h₂ i below => ?_⟩
  rw [content_sync (spares _ (List.get_mem _ _)) below]
  exact holding.get h₁ h₂ i below

omit [DecidableEq τ] [Fintype τ] in
theorem SparesCold.notMem {startBlockNum endBlockNum : Nat}
    (spares : SparesCold s (.writeback startBlockNum endBlockNum)) {p : PageCopy}
    (here : p ∈ s.sys.shared.pageCopies) (cold : p.dataPage = none) :
    p.blockNum ∉ s.tagPagesForWriteback startBlockNum endBlockNum := by
  intro member
  obtain ⟨dirty, inside⟩ := Finset.mem_filter.mp member
  exact spares p here cold dirty inside

/-- Every step in which no writeback reaches a page copy that is not loaded. -/
theorem holding_step (holding : Holding s) (spares : SparesCold s ev)
    (taken : s.step ev = some (reply, s')) : Holding s' := by
  cases ev with
  | act act =>
      obtain ⟨sys, moved, rfl⟩ := step_act taken
      rcases act_cases moved with
        ⟨later, _⟩ | ⟨pos, data, outcome, _, _, later⟩ | ⟨fails, rfl, thread⟩
      · exact holding.kept later.disk later.pageCopies
      · exact holding.writeParBlocks (disk_put _ _ _) later
      · exact holding.copyThread thread
  | writeback startBlockNum endBlockNum =>
      rcases step_writeback taken with rfl | rfl
      · exact holding
      · exact holding_next rfl (holding.sync fun p here cold => spares.notMem here cold)
  | reclaim page =>
      obtain ⟨_, rfl⟩ := step_reclaim taken
      exact holding.kept rfl (forall₂_refl _ _)
  | unmount =>
      obtain ⟨_, rfl⟩ := step_unmount taken
      unfold Holding Storage.exit Storage.next
      dsimp only
      rw [note_of_le (Nat.zero_le _), List.length_nil, Nat.sub_zero,
        List.drop_of_length_le holding.length_eq.ge]
      exact .nil

/-- In every run in which no writeback reaches a dirty block with a page copy that is not
loaded, every page copy that is loaded has what the block held when it was made. -/
theorem cold_copy_loads {s₀ : Storage τ} {evs : List (Event τ)} (start : Holding s₀)
    (run : Run Storage.step SparesCold s₀ evs s) : LoadsOld s :=
  (run.invariant (P := Holding)
    (fun _ _ _ _ holding spares taken => holding_step holding spares taken) start).loadsOld

instance (s : Storage τ) : DecidablePred (SparesCold s)
  | .writeback startBlockNum endBlockNum => by
      unfold SparesCold
      have decided (p : PageCopy) : Decidable (p.dataPage = none) :=
        decidable_of_iff (p.dataPage.isNone = true) Option.isNone_iff_eq_none
      infer_instance
  | .act _ => .isTrue trivial
  | .reclaim _ => .isTrue trivial
  | .unmount => .isTrue trivial

/-- The page copy thread starts on a page copy and brings it to the first child. -/
def startsCopying : List (Event Unit) := [.act (.copyThread false), .act (.copyThread false)]

/-- The first page of the parent is overwritten as a whole while it is not in memory. -/
def overwritesFirst : List (Event Unit) :=
  (writesParent 0 (List.replicate pageSize 8)).map .act

theorem cold_copy_loads_first : ∃ s,
    Run Storage.step SparesCold (.mounted (justMade ⟨1, fun _ => 7⟩ fun _ => false))
      (overwritesFirst ++ startsCopying ++ [.writeback 0 0]) s ∧
    LoadsOld s := by
  have start : Holding (.mounted (justMade ⟨1, fun _ => 7⟩ fun _ => false)) := .nil
  exact Run.exists_imp (fun s ev => decide (SparesCold s ev)) (fun _ _ _ => of_decide_eq_true)
    (Q := fun _ => True) (by decide +kernel) fun _ run _ => cold_copy_loads start run

/-- The new page is written back before the page copy is loaded, which then has the new
bytes. -/
theorem cold_copy_loads_fails : ∃ s,
    Run Storage.step (fun _ _ => True) (.mounted (justMade ⟨1, fun _ => 7⟩ fun _ => false))
      (overwritesFirst ++ [.writeback 0 0] ++ startsCopying) s ∧
    ¬ LoadsOld s := by
  refine Run.exists_imp (fun _ _ => true) (fun _ _ _ _ => trivial)
    (Q := fun s => ((s.sys.shared.pageCopies.zip s.made).any fun (p, m) =>
      p.dataPage.any fun page => page 0 != m 0) = true) (by decide +kernel) ?_
  intro s _ wrong loads
  obtain ⟨⟨p, m⟩, here, loaded⟩ := List.any_eq_true.mp wrong
  obtain ⟨page, warm, differs⟩ := (Option.any_eq_true _ _).mp loaded
  have old := List.forall₂_iff_zip.mp loads
  exact bne_iff_ne.mp differs (old.2 here page warm 0 (by decide))

end Loading

end FlexClone.Scorw.Cow
