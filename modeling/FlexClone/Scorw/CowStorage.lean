import FlexClone.Run
import FlexClone.Scorw.CowEffects

/-!
# A copy-on-write family over a disk

`Storage` puts the threads of a family on top of a page cache that is written back: to
the moves of `Cow.step` it adds the writeback of the parent by
`filemap_fdatawrite_wbc`, pages of the parent that leave the memory, and unmounting.
Two more fields are not in the program: what every pending page copy should hold, and
which blocks of the parent were changed in place.

* `Later`: what a move does to the page copies, to the bits of the friend files and
  to the disk, for every move that makes no page copy and drops none.
* `act_cases`: every move, as far as page copies go; `act_frame`: what no move changes.
* `step_act`, `step_writeback`, `step_reclaim`, `step_unmount`: the steps of the system.
-/

namespace FlexClone.Scorw.Cow

/-! ## The system -/

structure Storage (τ : Type*) where
  sys : System τ
  /-- the pages of the parent that are to be written back -/
  dirty : Finset Nat
  /-- `i_vfs_inode_writeback_sync_lock` of the parent is taken -/
  syncLocked : Bool
  /-- what the blocks held when their page copies were made -/
  made : List (Nat → UInt8)
  /-- the blocks of the parent of which a byte was changed in place -/
  changed : Nat → Prop

inductive Event (τ : Type*)
  | act (act : Act τ)
  | writeback (startBlockNum endBlockNum : Nat)
  | reclaim (page : Nat)
  | unmount

def Place.isIdle : Place → Bool
  | .idle => true
  | _ => false

/-- Block `blk` of a file. -/
def blockAt (f : ByteFile UInt8) (blk i : Nat) : UInt8 := f.byteAt (blk * pageSize + i)

/-- The bytes a step stores in the pages of the parent. -/
def Act.stores {τ : Type*} (s : System τ) : Act τ → Nat × List UInt8
  | .thread t (.page outcome) =>
      match s.place t with
      | .loops w _ => (w.pos, if w.shared then storedBytes outcome w.pos w.data else [])
      | .parLoops pos data _ => (pos, storedBytes outcome pos data)
      | _ => (0, [])
  | _ => (0, [])

/-- The step is one of a write to the parent itself. -/
def Act.isDirect {τ : Type*} (s : System τ) : Act τ → Bool
  | .thread t _ =>
      match s.place t with
      | .parLocking _ _ | .parLoops _ _ _ => true
      | _ => false
  | _ => false

/-- The pages of a run of bytes. -/
def pagesOf (run : Nat × List UInt8) : Finset Nat :=
  if run.2 = [] then ∅ else Finset.Icc (run.1 / pageSize) ((run.1 + run.2.length - 1) / pageSize)

namespace Storage

variable {τ : Type*}

/-- The page copies that a step makes are noted with what the parent held before it, and
those that it drops are taken off. -/
def note (s : Storage τ) (shared : Shared) : List (Nat → UInt8) :=
  let old := s.sys.shared.pageCopies.length
  s.made.drop (old - shared.pageCopies.length) ++
    (shared.pageCopies.drop old).map fun p => blockAt s.sys.shared.par.file p.blockNum

/-- The state after a step of the family. -/
def next (s : Storage τ) (sys : System τ) : Storage τ :=
  { s with
    sys := sys
    made := s.note sys.shared
    changed := fun b => s.changed b ∨ ∃ x, x / pageSize = b ∧
      sys.shared.par.file.byteAt x ≠ s.sys.shared.par.file.byteAt x }

/-- `tag_pages_for_writeback` -/
def tagPagesForWriteback (s : Storage τ) (startBlockNum endBlockNum : Nat) : Finset Nat :=
  s.dirty.filter fun b => startBlockNum ≤ b ∧ b ≤ endBlockNum

/-- `filemap_fdatawrite_wbc` of the parent. It does not wait for page copies; and when
nothing is to be written it returns with the lock taken. -/
def fdatawriteWbc (s : Storage τ) (startBlockNum endBlockNum : Nat) : Option (Storage τ) :=
  if s.syncLocked then none
  else if s.dirty = ∅ then some { s with syncLocked := true }
  else
    let pages := s.tagPagesForWriteback startBlockNum endBlockNum
    let shared := s.sys.shared
    some { s.next ⟨{ shared with par := shared.par.sync pages }, s.sys.place⟩ with
      dirty := s.dirty \ pages }

/-- A page that is not dirty leaves the memory. -/
def reclaim (s : Storage τ) (page : Nat) : Option (Storage τ) :=
  let shared := s.sys.shared
  if page ∈ s.dirty then none
  else some (s.next ⟨{ shared with par := shared.par.drop page }, s.sys.place⟩)

/-- `scorw_exit` at an unmount stops the page copy thread between two page copies, and
`scorw_free_all_page_copy` drops those that are left. -/
def exit (s : Storage τ) : Storage τ :=
  s.next ⟨{ s.sys.shared with pageCopies := [] }, s.sys.place⟩

/-- Nothing has been written yet. -/
def mounted (sys : System τ) : Storage τ := ⟨sys, ∅, false, [], fun _ => False⟩

end Storage

variable {τ : Type*} [DecidableEq τ] [Fintype τ]

def Storage.step (s : Storage τ) : Event τ → Option (Reply × Storage τ)
  | .act act =>
      (Cow.step s.sys act).map fun (reply, sys) =>
        (reply, { s.next sys with dirty := s.dirty ∪ pagesOf (act.stores s.sys) })
  | .writeback startBlockNum endBlockNum =>
      (s.fdatawriteWbc startBlockNum endBlockNum).map fun s => (.goesOn, s)
  | .reclaim page => (s.reclaim page).map fun s => (.goesOn, s)
  | .unmount =>
      if (∀ t, (s.sys.place t).isIdle = true) ∧ s.sys.shared.threadAt = none then
        some (.goesOn, s.exit)
      else none

section Step

variable {s s' : Storage τ} {reply : Reply}

theorem step_act {act : Act τ} (taken : s.step (.act act) = some (reply, s')) :
    ∃ sys, Cow.step s.sys act = some (reply, sys) ∧
      s' = { s.next sys with dirty := s.dirty ∪ pagesOf (act.stores s.sys) } := by
  obtain ⟨⟨reply', sys⟩, moved, same⟩ := Option.map_eq_some_iff.mp taken
  cases same
  exact ⟨sys, moved, rfl⟩

/-- A writeback takes the lock and does nothing, or writes pages to the disk. -/
theorem step_writeback {startBlockNum endBlockNum : Nat}
    (taken : s.step (.writeback startBlockNum endBlockNum) = some (reply, s')) :
    s' = { s with syncLocked := true } ∨
    s' = { s.next ⟨{ s.sys.shared with
        par := s.sys.shared.par.sync (s.tagPagesForWriteback startBlockNum endBlockNum) },
        s.sys.place⟩ with
      dirty := s.dirty \ s.tagPagesForWriteback startBlockNum endBlockNum } := by
  obtain ⟨s₁, written, same⟩ := Option.map_eq_some_iff.mp taken
  cases same
  unfold Storage.fdatawriteWbc at written
  split at written
  · cases written
  · split at written
    · exact .inl (Option.some.inj written).symm
    · exact .inr (Option.some.inj written).symm

theorem step_reclaim {page : Nat} (taken : s.step (.reclaim page) = some (reply, s')) :
    page ∉ s.dirty ∧
      s' = s.next ⟨{ s.sys.shared with par := s.sys.shared.par.drop page }, s.sys.place⟩ := by
  obtain ⟨s₁, dropped, same⟩ := Option.map_eq_some_iff.mp taken
  cases same
  unfold Storage.reclaim at dropped
  dsimp only at dropped
  split at dropped
  case isTrue => cases dropped
  case isFalse clean => exact ⟨clean, (Option.some.inj dropped).symm⟩

theorem step_unmount (taken : s.step .unmount = some (reply, s')) :
    s.sys.shared.threadAt = none ∧ s' = s.exit := by
  simp only [Storage.step] at taken
  split at taken
  case isTrue idle =>
    cases taken
    exact ⟨idle.2, rfl⟩
  case isFalse => cases taken

end Step

/-! ## What moves do to page copies -/

/-- The same page copy, which may have been loaded from the disk in between. -/
structure PageCopy.Becomes (disk : ByteFile UInt8) (p p' : PageCopy) : Prop where
  blockNum : p'.blockNum = p.blockNum
  isTargetChild : p'.isTargetChild = p.isTargetChild
  dataPage : p'.dataPage = p.dataPage ∨
    p.dataPage = none ∧ p'.dataPage = some (blockAt disk p.blockNum)

theorem PageCopy.Becomes.refl (disk : ByteFile UInt8) (p : PageCopy) : p.Becomes disk p :=
  ⟨rfl, rfl, .inl rfl⟩

theorem PageCopy.Becomes.trans {disk : ByteFile UInt8} {p p₁ p₂ : PageCopy}
    (first : p.Becomes disk p₁) (second : p₁.Becomes disk p₂) : p.Becomes disk p₂ := by
  refine ⟨second.blockNum.trans first.blockNum, second.isTargetChild.trans first.isTargetChild, ?_⟩
  rcases second.dataPage with same | ⟨cold, loaded⟩
  · rw [same]
    exact first.dataPage
  · rcases first.dataPage with same | ⟨_, warm⟩
    · rw [← same, ← first.blockNum]
      exact .inr ⟨cold, loaded⟩
    · rw [cold] at warm
      cases warm

/-- Loading a page copy. -/
theorem PageCopy.becomes_loaded (disk : ByteFile UInt8) (p : PageCopy) :
    p.Becomes disk { p with dataPage := some (p.content disk) } := by
  refine ⟨rfl, rfl, ?_⟩
  cases cold : p.dataPage with
  | none =>
      refine .inr ⟨rfl, ?_⟩
      unfold PageCopy.content
      rw [cold]
      rfl
  | some page =>
      refine .inl ?_
      unfold PageCopy.content
      rw [cold]
      rfl

/-- The child some moves later. -/
structure CowChild.Becomes (k k' : CowChild) : Prop where
  copySize : k'.copySize = k.copySize
  ranges : k'.ranges = k.ranges
  copied : ∀ b, k.copied b = true → k'.copied b = true

theorem CowChild.Becomes.refl (k : CowChild) : k.Becomes k := ⟨rfl, rfl, fun _ set => set⟩

theorem CowChild.Becomes.trans {k k₁ k₂ : CowChild} (first : k.Becomes k₁)
    (second : k₁.Becomes k₂) : k.Becomes k₂ :=
  ⟨second.copySize.trans first.copySize, second.ranges.trans first.ranges,
    fun b set => second.copied b (first.copied b set)⟩

/-- The family after a move that makes no page copy and drops none. -/
structure Later (s s' : Shared) : Prop where
  disk : s'.par.disk = s.par.disk
  lastChildIndex : s'.lastChildIndex = s.lastChildIndex
  threadAt : s'.threadAt = s.threadAt
  child : ∀ j k', s'.child j = some k' → ∃ k, s.child j = some k ∧ k.Becomes k'
  pageCopies : List.Forall₂ (PageCopy.Becomes s.par.disk) s.pageCopies s'.pageCopies

section Later

variable {s s₁ s₂ : Shared}

theorem forall₂_refl (disk : ByteFile UInt8) (ps : List PageCopy) :
    List.Forall₂ (PageCopy.Becomes disk) ps ps :=
  List.forall₂_same.mpr fun p _ => .refl disk p

theorem forall₂_trans {disk : ByteFile UInt8} {ps ps₁ ps₂ : List PageCopy}
    (first : List.Forall₂ (PageCopy.Becomes disk) ps ps₁)
    (second : List.Forall₂ (PageCopy.Becomes disk) ps₁ ps₂) :
    List.Forall₂ (PageCopy.Becomes disk) ps ps₂ := by
  induction first generalizing ps₂ with
  | nil => exact second
  | cons head _ ih =>
      cases second with
      | cons head' tail => exact .cons (head.trans head') (ih tail)

theorem Later.refl (s : Shared) : Later s s :=
  ⟨rfl, rfl, rfl, fun _ k here => ⟨k, here, .refl k⟩, forall₂_refl _ _⟩

theorem Later.trans (first : Later s s₁) (second : Later s₁ s₂) : Later s s₂ where
  disk := second.disk.trans first.disk
  lastChildIndex := second.lastChildIndex.trans first.lastChildIndex
  threadAt := second.threadAt.trans first.threadAt
  child j k₂ here := by
    obtain ⟨k₁, here₁, becomes₁⟩ := second.child j k₂ here
    obtain ⟨k, here, becomes⟩ := first.child j k₁ here₁
    exact ⟨k, here, becomes.trans becomes₁⟩
  pageCopies := by
    have second := second.pageCopies
    rw [first.disk] at second
    exact forall₂_trans first.pageCopies second

theorem Later.after (later : Later s s₁) {p : PageCopy} (here : p ∈ s.pageCopies) :
    ∃ p' ∈ s₁.pageCopies, p.Becomes s.par.disk p' := by
  obtain ⟨i, bound, rfl⟩ := List.getElem_of_mem here
  have length := later.pageCopies.length_eq
  exact ⟨_, List.get_mem _ _, later.pageCopies.get bound (by omega)⟩

theorem Later.before (later : Later s s₁) {p' : PageCopy} (here : p' ∈ s₁.pageCopies) :
    ∃ p ∈ s.pageCopies, p.Becomes s.par.disk p' := by
  obtain ⟨i, bound, rfl⟩ := List.getElem_of_mem here
  have length := later.pageCopies.length_eq
  exact ⟨_, List.get_mem _ _, later.pageCopies.get (by omega) bound⟩

/-- What page copies have nothing to do with may change. -/
theorem Later.of_eq (disk : s₁.par.disk = s.par.disk)
    (lastChildIndex : s₁.lastChildIndex = s.lastChildIndex) (threadAt : s₁.threadAt = s.threadAt)
    (child : s₁.child = s.child) (pageCopies : s₁.pageCopies = s.pageCopies) : Later s s₁ where
  disk := disk
  lastChildIndex := lastChildIndex
  threadAt := threadAt
  child _ k here := ⟨k, child ▸ here, .refl k⟩
  pageCopies := pageCopies ▸ forall₂_refl _ _

theorem later_setChild {j : Nat} {k k' : CowChild} (old : s.child j = some k)
    (becomes : k.Becomes k') : Later s (s.setChild j k') := by
  refine ⟨rfl, rfl, rfl, fun i k₁ here => ?_, forall₂_refl _ _⟩
  unfold Shared.setChild at here
  dsimp only at here
  rw [Function.update_apply] at here
  split at here
  case isTrue same =>
    cases here
    exact ⟨k, same ▸ old, becomes⟩
  case isFalse => exact ⟨k₁, here, .refl k₁⟩

theorem later_modifyChild {j : Nat} {change : CowChild → CowChild}
    (becomes : ∀ k : CowChild, k.Becomes (change k)) : Later s (s.modifyChild j change) := by
  refine ⟨rfl, rfl, rfl, fun i k₁ here => ?_, forall₂_refl _ _⟩
  unfold Shared.modifyChild at here
  dsimp only at here
  rw [Function.update_apply] at here
  split at here
  case isTrue same =>
    obtain ⟨k, old, rfl⟩ := Option.map_eq_some_iff.mp here
    exact ⟨k, same ▸ old, becomes k⟩
  case isFalse => exact ⟨k₁, here, .refl k₁⟩

theorem later_loadPageCopy (s : Shared) (blk c : Nat) : Later s (s.loadPageCopy blk c) := by
  refine ⟨rfl, rfl, rfl, fun _ k here => ⟨k, here, .refl k⟩, ?_⟩
  unfold Shared.loadPageCopy
  dsimp only
  induction s.pageCopies with
  | nil => exact .nil
  | cons p ps ih =>
      rw [List.replaceF_cons]
      split
      case h_1 => exact .cons (.refl _ p) ih
      case h_2 p' found =>
        split at found
        case isTrue =>
          cases found
          exact .cons (p.becomes_loaded _) (forall₂_refl _ _)
        case isFalse => cases found

theorem disk_getPage (f : CachedFile UInt8 pageSize) (lblk : Nat) :
    (getPage f lblk).disk = f.disk := by
  unfold getPage
  split
  · rfl
  · split <;> rfl

theorem disk_put (f : CachedFile UInt8 pageSize) (pos : Nat) (bs : List UInt8) :
    (f.put pos bs).disk = f.disk := by
  unfold CachedFile.put
  split <;> rfl

theorem later_beginBlock {k : CowChild} {w : ChildWrite} (here : s.child w.slot = some k) (i : Nat)
    (fails : Bool) : Later s (s.beginBlock k w i fails) := by
  unfold Shared.beginBlock
  split
  case isTrue => exact .refl s
  case isFalse =>
    dsimp only
    split
    case isFalse => exact later_setChild here ⟨rfl, rfl, fun _ set => set⟩
    case isTrue =>
      split
      case h_1 p found =>
        refine (later_loadPageCopy s i w.slot).trans (later_setChild here ?_)
        cases fails <;> exact ⟨rfl, rfl, fun _ set => set⟩
      case h_2 =>
        unfold Shared.copyPage
        have loaded : Later s { s with par := getPage s.par i } :=
          .of_eq (disk_getPage _ _) rfl rfl rfl rfl
        refine loaded.trans (later_setChild here ?_)
        cases fails <;> exact ⟨rfl, rfl, fun _ set => set⟩

theorem later_endBlock {k : CowChild} {w : ChildWrite} (here : s.child w.slot = some k) (i : Nat) :
    Later s (s.endBlock k w i) := by
  unfold Shared.endBlock
  split
  case isTrue => exact .refl s
  case isFalse =>
    refine later_setChild here ⟨rfl, rfl, fun b set => ?_⟩
    dsimp only
    split
    case isTrue => exact set
    case isFalse =>
      rw [Function.update_apply]
      split
      · rfl
      · exact set

theorem later_setLocked (s : Shared) (w : ChildWrite) (locked : Bool) :
    Later s (s.setLocked w locked) := by
  unfold Shared.setLocked
  split
  · exact .of_eq rfl rfl rfl rfl rfl
  · exact later_modifyChild fun k => ⟨rfl, rfl, fun _ set => set⟩

theorem later_storeChild (s : Shared) (w : ChildWrite) (bs : List UInt8) :
    Later s (s.storeChild w bs) := by
  have noted : Later s (s.modifyChild w.slot fun k =>
      { k with written := fun x => (landsAt w.pos bs x).or (k.written x) }) :=
    later_modifyChild fun _ => ⟨rfl, rfl, fun _ set => set⟩
  unfold Shared.storeChild
  dsimp only
  split
  case isTrue => exact noted.trans (.of_eq (disk_put _ _ _) rfl rfl rfl rfl)
  case isFalse => exact noted.trans (later_modifyChild fun _ => ⟨rfl, rfl, fun _ set => set⟩)

theorem later_leaveBarrier (s : Shared) : Later s s.leaveBarrier := by
  refine ⟨rfl, rfl, rfl, fun j k' here => ?_, forall₂_refl _ _⟩
  obtain ⟨k, old, rfl⟩ := Option.map_eq_some_iff.mp here
  refine ⟨k, old, ?_⟩
  split <;> exact ⟨rfl, rfl, fun _ set => set⟩

theorem later_fileRead (s : Shared) (pos count : Nat) : Later s (s.fileRead pos count).2 := by
  unfold Shared.fileRead
  dsimp only
  split
  · exact .refl s
  · exact .of_eq rfl rfl rfl rfl rfl

theorem later_readFromParent (env : Env) (s : Shared) (k : CowChild) (pos count : Nat) :
    Later s (s.readFromParent env k pos count).2 := by
  have looked : Later s { s with
      store := (lookupPhysicalBlock env s.store k.version (pos / pageSize)).2 } :=
    .of_eq rfl rfl rfl rfl rfl
  unfold Shared.readFromParent
  dsimp only
  split
  · exact looked.trans (later_fileRead _ _ _)
  · split
    · exact looked
    · exact looked.trans (later_fileRead _ _ _)

/-- The length that a pass of the data loop asks for. -/
def askedBytes (pos : Nat) (data : List UInt8) : Nat :=
  min (pageSize - pos % pageSize) data.length

/-- A pass on the parent makes its page copy first, if it stores anything. -/
theorem parPage_cases {pos : Nat} {data : List UInt8} {outcome : PageOutcome}
    (done : s.parPage pos data outcome = some s₁) :
    Later s s₁ ∧ storedBytes outcome pos data = [] ∨
      s₁ = { s.writeParBlocks pos (askedBytes pos data) with
        par := s.par.put pos (storedBytes outcome pos data) } := by
  unfold Shared.parPage at done
  split at done
  case h_1 =>
    cases done
    exact .inl ⟨.refl s, rfl⟩
  case h_2 =>
    split at done
    · cases done
      exact .inl ⟨later_leaveBarrier s, rfl⟩
    · cases done
  case h_3 | h_4 =>
    split at done
    · refine .inr ?_
      rw [← Option.some.inj done]
      dsimp only
      rw [(writeParBlocks_eq s _ _).1]
      rfl
    · cases done

/-- A move of a thread makes at most the page copy of a pass on the parent. -/
theorem move_later {place place' : Place} {m : Move} {reply : Reply}
    (moved : move s place m = some (reply, place', s₁)) :
    Later s s₁ ∧ (∀ pos data done outcome, place = .parLoops pos data done → m = .page outcome →
        storedBytes outcome pos data = []) ∨
      ∃ pos data done outcome, place = .parLoops pos data done ∧ m = .page outcome ∧
        Later { s.writeParBlocks pos (askedBytes pos data) with
          par := s.par.put pos (storedBytes outcome pos data) } s₁ := by
  unfold move at moved
  split at moved
  case h_1 child req =>
    obtain ⟨k, here, same⟩ := Option.map_eq_some_iff.mp moved
    refine .inl ⟨?_, nofun⟩
    split at same
    · cases same
      exact .refl s
    · split at same <;> cases same <;> exact .refl s
  case h_2 req =>
    dsimp only at moved
    refine .inl ⟨?_, nofun⟩
    split at moved <;> cases moved <;> exact .refl s
  case h_3 w i fails =>
    obtain ⟨k, here, same⟩ := Option.bind_eq_some_iff.mp moved
    refine .inl ⟨?_, nofun⟩
    split at same
    · cases same
      exact .refl s
    · split at same
      · cases same
      · cases same
        exact later_beginBlock here i fails
  case h_4 w =>
    refine .inl ⟨?_, nofun⟩
    split at moved
    · cases moved
    · cases moved
      exact later_setLocked s w true
  case h_5 w done outcome =>
    refine .inl ⟨?_, nofun⟩
    dsimp only at moved
    split at moved
    · cases moved
      exact (later_storeChild s w _).trans (later_setLocked _ w false)
    · cases moved
      exact later_storeChild s w _
  case h_6 w ret i fails =>
    obtain ⟨k, here, same⟩ := Option.map_eq_some_iff.mp moved
    refine .inl ⟨?_, nofun⟩
    split at same
    · cases same
      exact .refl s
    · cases same
      exact later_endBlock here i
  case h_7 pos data =>
    refine .inl ⟨?_, nofun⟩
    split at moved
    · cases moved
    · cases moved
      exact .of_eq rfl rfl rfl rfl rfl
  case h_8 pos data done outcome =>
    obtain ⟨s₂, stored, same⟩ := Option.map_eq_some_iff.mp moved
    have last : Later s₂ s₁ := by
      dsimp only at same
      split at same
      · cases same
        exact .of_eq rfl rfl rfl rfl rfl
      · cases same
        exact .refl _
    rcases parPage_cases stored with ⟨later, empty⟩ | rfl
    · refine .inl ⟨later.trans last, fun pos' data' done' outcome' here page => ?_⟩
      cases here
      cases page
      exact empty
    · exact .inr ⟨pos, data, done, outcome, rfl, rfl, last⟩
  case h_9 => cases moved

/-- The page copy thread starts on a page copy, drops it after the last slot, or looks at
the next slot; unless the copy fails, the block is copied then. -/
theorem copyThread_cases {fails : Bool} (moved : s.copyThread fails = some s₁) :
    (s.threadAt = none ∧ s.pageCopies ≠ [] ∧ s₁ = { s with threadAt := some 0 }) ∨
      ∃ j p rest, s.threadAt = some j ∧ s.pageCopies = p :: rest ∧
        (Family.maxChilds ≤ j ∧ s₁ = { s with pageCopies := rest, threadAt := none } ∨
          Later { s with threadAt := some (j + 1) } s₁ ∧
            (fails = false → ∀ k, s₁.child j = some k → p.isTargetChild j = true →
              p.blockNum * pageSize < k.copySize → k.copied p.blockNum = true)) := by
  unfold Shared.copyThread at moved
  split at moved
  case h_1 | h_3 => cases moved
  case h_2 idle front =>
    cases moved
    exact .inl ⟨idle, by simp [front], rfl⟩
  case h_4 j p rest at_j front =>
    refine .inr ⟨j, p, rest, at_j, front, ?_⟩
    dsimp only at moved
    split at moved
    case isTrue last =>
      cases moved
      exact .inl ⟨last, rfl⟩
    case isFalse =>
      refine .inr ?_
      split at moved
      case h_1 none_here =>
        cases moved
        refine ⟨.refl _, fun _ k here => ?_⟩
        dsimp only at here
        rw [none_here] at here
        cases here
      case h_2 k here =>
        have only {k' : CowChild} (same : s.child j = some k') : k' = k :=
          (Option.some.inj (here.symm.trans same)).symm
        split at moved
        case isTrue skipped =>
          cases moved
          refine ⟨.refl _, fun _ k' here' target covered => ?_⟩
          rw [only here'] at covered
          rcases skipped with other | past
          · rw [other] at target
            cases target
          · omega
        case isFalse =>
          split at moved
          case isTrue => cases moved
          case isFalse =>
            split at moved
            case isTrue copied =>
              cases moved
              refine ⟨.refl _, fun _ k' here' _ _ => ?_⟩
              rw [only here']
              exact copied
            case isFalse =>
              cases moved
              refine ⟨(later_loadPageCopy _ p.blockNum j).trans (later_setChild here ?_),
                fun ok k' here' _ _ => ?_⟩
              · cases fails with
                | true => exact .refl k
                | false =>
                    refine ⟨rfl, rfl, fun b set => ?_⟩
                    change Function.update k.copied p.blockNum true b = true
                    rw [Function.update_apply]
                    split
                    · rfl
                    · exact set
              · subst ok
                unfold Shared.setChild at here'
                dsimp only at here'
                rw [Function.update_self] at here'
                cases here'
                simp

/-- `scorw_write_par_blocks` adds at most one page copy, for children in slots of the
parent, with what the block holds. -/
theorem writeParBlocks_cases (s : Shared) (pos bytes : Nat) :
    s.writeParBlocks pos bytes = s ∨ ∃ p, s.writeParBlocks pos bytes =
        { s with pageCopies := s.pageCopies ++ [p] } ∧
      p.blockNum = pos / pageSize ∧ p.isTargetChild = s.isTargetChild (pos / pageSize) ∧
      (∃ j, s.isTargetChild (pos / pageSize) j = true) ∧
      (p.dataPage = some (blockAt s.par.file p.blockNum) ∨
        p.dataPage = none ∧ s.par.cached p.blockNum = false) := by
  unfold Shared.writeParBlocks
  dsimp only
  split
  case isTrue => exact .inl rfl
  case isFalse =>
    split
    case isTrue some =>
      obtain ⟨j, _, target⟩ := List.any_eq_true.mp some
      refine .inr ⟨_, rfl, rfl, rfl, ⟨j, target⟩, ?_⟩
      dsimp only
      split
      case isTrue => exact .inl rfl
      case isFalse cold =>
        simp only [Bool.or_eq_true, not_or, Bool.not_eq_true] at cold
        exact .inr ⟨rfl, cold.1⟩
    case isFalse => exact .inl rfl

end Later

section Acts

variable {s s' : System τ} {act : Act τ} {reply : Reply}

omit [Fintype τ] in
/-- Every step of the family, as far as page copies go. -/
theorem act_cases (taken : Cow.step s act = some (reply, s')) :
    (Later s.shared s'.shared ∧ (act.isDirect s = true → (act.stores s).2 = [])) ∨
      (∃ pos data outcome, act.isDirect s = true ∧
        act.stores s = (pos, storedBytes outcome pos data) ∧
        Later { s.shared.writeParBlocks pos (askedBytes pos data) with
          par := s.shared.par.put pos (storedBytes outcome pos data) } s'.shared) ∨
      ∃ fails, act = .copyThread fails ∧ s.shared.copyThread fails = some s'.shared := by
  cases act with
  | thread t m =>
      have taken : Threads.step (fun _ => move) s t m = some (reply, s') := taken
      obtain ⟨place, shared, moved, rfl⟩ := Threads.step_eq_some taken
      rcases move_later moved with ⟨later, empty⟩ | ⟨pos, data, done, outcome, here, rfl, later⟩
      · refine .inl ⟨later, fun direct => ?_⟩
        unfold Act.isDirect at direct
        unfold Act.stores
        cases m with
        | page outcome =>
            dsimp only at direct ⊢
            cases here : s.place t with
            | parLoops pos data done => exact empty pos data done outcome here rfl
            | loops => simp [here] at direct
            | _ => rfl
        | _ => rfl
      · refine .inr (.inl ⟨pos, data, outcome, ?_, ?_, later⟩)
        · unfold Act.isDirect
          dsimp only
          rw [here]
        · unfold Act.stores
          dsimp only
          rw [here]
  | copyThread fails =>
      obtain ⟨shared, moved, same⟩ := Option.map_eq_some_iff.mp taken
      cases same
      exact .inr (.inr ⟨fails, rfl, moved⟩)
  | read slot pos count env =>
      obtain ⟨⟨bs, shared⟩, read, same⟩ := Option.map_eq_some_iff.mp taken
      cases same
      obtain ⟨k, here, got⟩ := Option.map_eq_some_iff.mp read
      refine .inl ⟨?_, nofun⟩
      split at got
      · cases got
        exact .refl _
      · rw [← congrArg Prod.snd got]
        exact later_readFromParent env _ k pos count

omit [Fintype τ] in
/-- No step writes to the disk, and none brings or takes a child. -/
theorem act_frame (taken : Cow.step s act = some (reply, s')) :
    s'.shared.par.disk = s.shared.par.disk ∧
      s'.shared.lastChildIndex = s.shared.lastChildIndex ∧
      ∀ j k', s'.shared.child j = some k' →
        ∃ k, s.shared.child j = some k ∧ k.Becomes k' := by
  rcases act_cases taken with
    ⟨later, _⟩ | ⟨pos, data, outcome, _, _, later⟩ | ⟨fails, _, moved⟩
  · exact ⟨later.disk, later.lastChildIndex, later.child⟩
  · rcases writeParBlocks_cases s.shared pos (askedBytes pos data) with same | ⟨p, same, _⟩
    all_goals
      rw [same] at later
      exact ⟨later.disk.trans (disk_put _ _ _), later.lastChildIndex, later.child⟩
  · rcases copyThread_cases moved with
      ⟨_, _, same⟩ | ⟨n, p, rest, _, _, ⟨_, same⟩ | ⟨later, _⟩⟩
    · rw [same]
      exact ⟨rfl, rfl, fun _ k here => ⟨k, here, .refl k⟩⟩
    · rw [same]
      exact ⟨rfl, rfl, fun _ k here => ⟨k, here, .refl k⟩⟩
    · exact ⟨later.disk, later.lastChildIndex, later.child⟩

omit [DecidableEq τ] [Fintype τ] in
/-- A write to the parent itself only puts there what it stores. -/
theorem toParent_of_isDirect (direct : act.isDirect s = true) (x : Nat) :
    act.toParent s x = landsAt (act.stores s).1 (act.stores s).2 x := by
  cases act with
  | thread t m =>
      unfold Act.isDirect at direct
      unfold Act.toParent Act.stores
      cases m with
      | page outcome =>
          dsimp only at direct ⊢
          cases here : s.place t with
          | parLocking pos data => exact (landsAt_nil _ _).symm
          | parLoops pos data done => rfl
          | _ => simp [here] at direct
      | _ =>
          dsimp only at direct ⊢
          cases here : s.place t with
          | parLocking pos data => exact (landsAt_nil _ _).symm
          | parLoops pos data done => exact (landsAt_nil _ _).symm
          | _ => simp [here] at direct
  | copyThread => cases direct
  | read => cases direct

end Acts

end FlexClone.Scorw.Cow
