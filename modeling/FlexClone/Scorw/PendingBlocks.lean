import FlexClone.Run
import FlexClone.Scorw.CopyUp

/-!
# The counter of blocks that are still to be copied

A child counts the blocks below its copy size whose bit in the friend file is clear
(`i_pending_copy_pages`). The counter goes down where a bit is set: at the end of a child's
write, and in the page copy thread. When the child is closed the counter is saved as an
attribute, if it is positive, and it is loaded from there when the child is opened again.

* `move_marks`, `copyThread_marks`: what a step does to bits and counters.
* `pending_exact_iff`: the counter is exact along a run, exactly when no write to a shared
  range comes to a block whose bit is clear, no counter is lost when a child is closed, and
  no recovery of the friend file changes the number of bits that are clear.
-/

namespace FlexClone.Scorw.Cow

/-! ## Bits and counter -/

/-- The bits of the friend file of a child, and its counter. -/
structure Marks where
  copySize : Nat
  copied : Nat → Bool
  pendingCopyPages : Int

def CowChild.marks (k : CowChild) : Marks := ⟨k.copySize, k.copied, k.pendingCopyPages⟩

namespace Marks

variable {m : Marks} {b : Nat}

/-- The blocks within the copy size whose bit is clear. -/
def clear (m : Marks) : Finset Nat :=
  (Finset.range ((m.copySize + (pageSize - 1)) / pageSize)).filter fun b => m.copied b = false

/-- The counter is the number of these blocks. -/
def Exact (m : Marks) : Prop := m.pendingCopyPages = m.clear.card

instance (m : Marks) : Decidable m.Exact := inferInstanceAs (Decidable (_ = _))

/-- The end of a write for a block that is not marked; in a shared range it is not marked
either. -/
def mark (m : Marks) (shared : Bool) (b : Nat) : Marks :=
  { m with
    copied := if shared then m.copied else Function.update m.copied b true
    pendingCopyPages := m.pendingCopyPages - 1 }

theorem mem_clear : b ∈ m.clear ↔ b * pageSize < m.copySize ∧ m.copied b = false := by
  unfold clear
  rw [Finset.mem_filter, Finset.mem_range]
  refine and_congr_left fun _ => ?_
  unfold pageSize
  omega

theorem clear_mark_shared : (m.mark true b).clear = m.clear := rfl

theorem clear_mark_own : (m.mark false b).clear = m.clear.erase b := by
  ext i
  rw [Finset.mem_erase, mem_clear, mem_clear]
  unfold mark
  dsimp only
  rw [if_neg Bool.false_ne_true, Function.update_apply]
  by_cases same : i = b
  · simp [same]
  · simp [same]

/-- The counter stays exact when a bit is set for it. -/
theorem exact_mark_iff {shared : Bool} (exact : m.Exact) (unmarked : m.copied b = false) :
    (m.mark shared b).Exact ↔ shared = false ∧ b * pageSize < m.copySize := by
  have before : m.pendingCopyPages = m.clear.card := exact
  have after : (m.mark shared b).pendingCopyPages = m.pendingCopyPages - 1 := rfl
  unfold Exact
  rw [after]
  cases shared with
  | true =>
      rw [clear_mark_shared]
      simp only [Bool.true_eq_false, false_and, iff_false]
      omega
  | false =>
      rw [clear_mark_own]
      by_cases within : b * pageSize < m.copySize
      · have member := mem_clear.mpr ⟨within, unmarked⟩
        have fewer := Finset.card_erase_add_one member
        simp only [within, and_self, iff_true]
        omega
      · have missing : b ∉ m.clear := fun member => within (mem_clear.mp member).1
        rw [Finset.erase_eq_of_notMem missing]
        simp only [within, and_false, iff_false]
        omega

end Marks

/-! ## What a step does to them -/

def Shared.marks (s : Shared) (c : Nat) : Option Marks := (s.child c).map (·.marks)

section Moves

variable {s s' : Shared} {k k' : CowChild} {w : ChildWrite} {i j : Nat}

theorem marks_setChild (s : Shared) (j : Nat) (k : CowChild) :
    (s.setChild j k).marks = Function.update s.marks j (some k.marks) := by
  funext c
  unfold Shared.marks Shared.setChild
  dsimp only
  rw [Function.update_apply, Function.update_apply]
  split <;> rfl

theorem marks_setChild_of_eq (here : s.child j = some k) (same : k'.marks = k.marks) :
    (s.setChild j k').marks = s.marks := by
  rw [marks_setChild, same]
  refine Function.update_eq_self_iff.mpr ?_
  unfold Shared.marks
  rw [here, Option.map_some]

theorem marks_modifyChild {change : CowChild → CowChild} (same : ∀ k, (change k).marks = k.marks) :
    (s.modifyChild j change).marks = s.marks := by
  funext c
  unfold Shared.marks Shared.modifyChild
  dsimp only
  rw [Function.update_apply]
  split
  case isTrue here =>
    rw [here, Option.map_map]
    exact congrArg (fun f => (s.child j).map f) (funext same)
  case isFalse => rfl

theorem marks_beginBlock (here : s.child w.slot = some k) (i : Nat) (failed : Bool) :
    (s.beginBlock k w i failed).marks = s.marks := by
  unfold Shared.beginBlock
  split
  case isTrue => rfl
  case isFalse =>
    dsimp only
    split
    case isFalse => exact marks_setChild_of_eq here rfl
    case isTrue =>
      split
      case h_1 =>
        refine marks_setChild_of_eq (s := s.loadPageCopy i w.slot) here ?_
        split <;> rfl
      case h_2 =>
        refine marks_setChild_of_eq (s := { s with par := getPage s.par i }) here ?_
        split <;> rfl

theorem marks_setLocked (s : Shared) (w : ChildWrite) (locked : Bool) :
    (s.setLocked w locked).marks = s.marks := by
  unfold Shared.setLocked
  split
  · rfl
  · exact marks_modifyChild fun _ => rfl

theorem marks_storeChild (s : Shared) (w : ChildWrite) (bs : List UInt8) :
    (s.storeChild w bs).marks = s.marks := by
  have noted : (s.modifyChild w.slot fun k =>
      { k with written := fun x => (landsAt w.pos bs x).or (k.written x) }).marks = s.marks :=
    marks_modifyChild fun _ => rfl
  unfold Shared.storeChild
  dsimp only
  split
  · exact noted
  · refine Eq.trans ?_ noted
    exact marks_modifyChild fun _ => rfl

theorem marks_endBlock (s : Shared) (k : CowChild) (w : ChildWrite) (i : Nat) :
    (s.endBlock k w i).marks =
      if k.copied i then s.marks
      else Function.update s.marks w.slot (some (k.marks.mark w.shared i)) := by
  unfold Shared.endBlock
  split
  · rfl
  · exact marks_setChild ..

theorem marks_parPage {pos : Nat} {data : List UInt8} {outcome : PageOutcome}
    (done : s.parPage pos data outcome = some s') : s'.marks = s.marks := by
  have stored (bytes : Nat) {par : CachedFile UInt8 pageSize}
      (same : s' = { s.writeParBlocks pos bytes with par := par }) : s'.marks = s.marks := by
    obtain ⟨_, _, child⟩ := writeParBlocks_eq s pos bytes
    unfold Shared.marks
    rw [same]
    dsimp only
    rw [child]
  unfold Shared.parPage at done
  split at done
  case h_1 =>
    cases done
    rfl
  case h_2 =>
    split at done
    · cases done
      funext c
      unfold Shared.marks Shared.leaveBarrier
      dsimp only
      rw [Option.map_map]
      refine congrArg (fun f => (s.child c).map f) (funext fun k => ?_)
      dsimp only [Function.comp_apply]
      split <;> rfl
    · cases done
  case h_3 | h_4 =>
    split at done
    · exact stored _ (Option.some.inj done).symm
    · cases done

/-- A thread is about to count block `i` of its write to the child `k`. -/
structure Counts (s : Shared) (place : Place) (m : Move) (w : ChildWrite) (k : CowChild)
    (i : Nat) : Prop where
  ends : ∃ ret failed, place = .ends w ret i ∧ m = .block failed
  child : s.child w.slot = some k
  inside : i ≤ k.endBlock w.offset w.len
  unmarked : k.copied i = false

/-- Only the end of a child's write touches bits and counters. -/
theorem move_marks {place place' : Place} {m : Move} {reply : Reply}
    (moved : move s place m = some (reply, place', s')) :
    (s'.marks = s.marks ∧ ∀ w k i, ¬ Counts s place m w k i) ∨
      ∃ w k i, Counts s place m w k i ∧
        s'.marks = Function.update s.marks w.slot (some (k.marks.mark w.shared i)) := by
  have other (same : s'.marks = s.marks)
      (elsewhere : ∀ w ret i failed, ¬ (place = .ends w ret i ∧ m = .block failed)) :
      s'.marks = s.marks ∧ ∀ w k i, ¬ Counts s place m w k i :=
    ⟨same, fun w k i counts => by
      obtain ⟨ret, failed, here⟩ := counts.ends
      exact elsewhere w ret i failed here⟩
  unfold move at moved
  split at moved
  case h_1 child req =>
    obtain ⟨k, here, same⟩ := Option.map_eq_some_iff.mp moved
    refine .inl (other ?_ fun _ _ _ _ h => by cases h.1)
    split at same
    · cases same
      rfl
    · split at same <;> cases same <;> rfl
  case h_2 req =>
    refine .inl (other ?_ fun _ _ _ _ h => by cases h.1)
    dsimp only at moved
    split at moved <;> cases moved <;> rfl
  case h_3 w i fails =>
    obtain ⟨k, here, same⟩ := Option.bind_eq_some_iff.mp moved
    refine .inl (other ?_ fun _ _ _ _ h => by cases h.1)
    split at same
    · cases same
      rfl
    · split at same
      · cases same
      · cases same
        exact marks_beginBlock here i fails
  case h_4 w =>
    refine .inl (other ?_ fun _ _ _ _ h => by cases h.1)
    split at moved
    · cases moved
    · cases moved
      exact marks_setLocked s w true
  case h_5 w done outcome =>
    refine .inl (other ?_ fun _ _ _ _ h => by cases h.1)
    dsimp only at moved
    split at moved
    · cases moved
      exact (marks_setLocked _ w false).trans (marks_storeChild s w _)
    · cases moved
      exact marks_storeChild s w _
  case h_6 w ret i fails =>
    obtain ⟨k, here, same⟩ := Option.map_eq_some_iff.mp moved
    split at same
    case isTrue past =>
      cases same
      refine .inl ⟨rfl, fun w' k' i' counts => ?_⟩
      obtain ⟨_, _, place, _⟩ := counts.ends
      cases place
      cases counts.child.symm.trans here
      exact absurd counts.inside (Nat.not_le.mpr past)
    case isFalse inside =>
      cases same
      have marks := marks_endBlock s k w i
      cases copied : k.copied i with
      | true =>
          rw [copied, if_pos rfl] at marks
          refine .inl ⟨marks, fun w' k' i' counts => ?_⟩
          obtain ⟨_, _, place, _⟩ := counts.ends
          cases place
          cases counts.child.symm.trans here
          have unmarked := counts.unmarked
          rw [copied] at unmarked
          cases unmarked
      | false =>
          rw [copied, if_neg Bool.false_ne_true] at marks
          exact .inr ⟨w, k, i, ⟨⟨ret, fails, rfl, rfl⟩, here, Nat.not_lt.mp inside, copied⟩, marks⟩
  case h_7 pos data =>
    refine .inl (other ?_ fun _ _ _ _ h => by cases h.1)
    split at moved
    · cases moved
    · cases moved
      rfl
  case h_8 pos data done outcome =>
    obtain ⟨s₁, stored, same⟩ := Option.map_eq_some_iff.mp moved
    refine .inl (other ?_ fun _ _ _ _ h => by cases h.1)
    have first := marks_parPage stored
    dsimp only at same
    split at same <;> cases same <;> exact first
  case h_9 => cases moved

/-- The page copy thread sets the bit it counts. -/
theorem copyThread_marks {fails : Bool} (moved : s.copyThread fails = some s') :
    s'.marks = s.marks ∨ ∃ j k b, s.child j = some k ∧ k.copied b = false ∧
      b * pageSize < k.copySize ∧
        s'.marks = Function.update s.marks j (some (k.marks.mark false b)) := by
  unfold Shared.copyThread at moved
  split at moved
  case h_1 | h_3 => cases moved
  case h_2 =>
    cases moved
    exact .inl rfl
  case h_4 j p rest _ _ =>
    dsimp only at moved
    split at moved
    · cases moved
      exact .inl rfl
    · split at moved
      · cases moved
        exact .inl rfl
      case h_2 k here =>
        split at moved
        · cases moved
          exact .inl rfl
        case isFalse target =>
          push Not at target
          split at moved
          · cases moved
          · split at moved
            · cases moved
              exact .inl rfl
            case isFalse unmarked =>
              have unmarked := Bool.eq_false_iff.mpr unmarked
              cases moved
              cases fails with
              | true => exact .inl (marks_setChild_of_eq here rfl)
              | false => exact .inr ⟨j, k, p.blockNum, here, unmarked, target.2, marks_setChild ..⟩

theorem fileReadIter_marks {env : Env} {c pos count : Nat} {r : List UInt8 × Shared}
    (read : s.fileReadIter env c pos count = some r) : r.2.marks = s.marks := by
  obtain ⟨k, _, rfl⟩ := Option.map_eq_some_iff.mp read
  have fileRead (s : Shared) (pos count : Nat) : (s.fileRead pos count).2.marks = s.marks := by
    unfold Shared.fileRead
    dsimp only
    split <;> rfl
  split
  · rfl
  · unfold Shared.readFromParent
    dsimp only
    split
    · exact fileRead _ _ _
    · split
      · rfl
      · exact fileRead _ _ _

end Moves

/-! ## Closing and opening -/

/-- A family whose children are closed and opened again. -/
structure Sessions (τ : Type*) where
  system : System τ
  /-- the attribute `BLOCKS_TO_COPY` of the child of a slot -/
  blocksToCopy : Nat → Option Nat
  /-- the children that are closed, as they were left -/
  closed : Nat → Option CowChild

/-- A step of the family, a close or an open. -/
inductive Session (τ : Type*)
  | act (a : Act τ)
  /-- the last reference to a child is put; `stores` is how setting an attribute ends -/
  | close (c : Nat) (stores : Bool)
  /-- the child is opened again, with the bits that a recovery of the friend file found, if
  there was one -/
  | reopen (c : Nat) (recovered : Option (Nat → Bool))

/-- `scorw_child_copy_completion_cleanup`: the attribute of a child that is closed. -/
def CowChild.childCopyCompletionCleanup (k : CowChild) (stores : Bool)
    (blocksToCopy : Option Nat) : Option Nat :=
  if 0 < k.pendingCopyPages ∧ stores then some (u32 k.pendingCopyPages.toNat) else blocksToCopy

/-- What `scorw_prepare_child_inode` does to bits, counter and active map. -/
def CowChild.prepareChildInode (k : CowChild) (blocksToCopy : Option Nat)
    (recovered : Option (Nat → Bool)) : CowChild :=
  { k with
    copied := recovered.getD k.copied
    pendingCopyPages := (blocksToCopy.getD 0 : Nat)
    copying := fun _ => false }

namespace Sessions

variable {τ : Type*} [DecidableEq τ] [Fintype τ]

def setSlot (s : Sessions τ) (c : Nat) (k : Option CowChild) : System τ :=
  { s.system with shared := { s.system.shared with
      child := Function.update s.system.shared.child c k } }

/-- A child can only be closed when no write to it is on its way. -/
def step (s : Sessions τ) : Session τ → Option (Reply × Sessions τ)
  | .act a => (Cow.step s.system a).map fun r => (r.1, { s with system := r.2 })
  | .close c stores =>
      (s.system.shared.child c).bind fun k =>
        if ∀ t, (s.system.place t).write.all (·.slot != c) = true then
          some (.goesOn,
            { system := s.setSlot c none
              blocksToCopy := Function.update s.blocksToCopy c
                (k.childCopyCompletionCleanup stores (s.blocksToCopy c))
              closed := Function.update s.closed c (some k) })
        else none
  | .reopen c recovered =>
      (s.closed c).bind fun k =>
        if (s.system.shared.child c).isSome then none
        else
          some (.goesOn,
            { s with
              system := s.setSlot c (some (k.prepareChildInode (s.blocksToCopy c) recovered))
              closed := Function.update s.closed c none })

end Sessions

/-- The counters are exact, and those of closed children can be loaded again. -/
structure PendingExact {τ : Type*} (s : Sessions τ) : Prop where
  attached : ∀ c m, s.system.shared.marks c = some m → m.Exact
  kept : ∀ c k, s.closed c = some k → k.marks.Exact
  reloads : ∀ c k, s.closed c = some k →
    (((s.blocksToCopy c).getD 0 : Nat) : Int) = k.pendingCopyPages

/-- The step sets a bit where it counts, saves the counter where it is needed, and finds as
many bits clear as there were. -/
def KeepsPending {τ : Type*} (s : Sessions τ) : Session τ → Prop
  | .act (.thread t m) => ∀ w k i, Counts s.system.shared (s.system.place t) m w k i →
      w.shared = false ∧ i * pageSize < k.copySize
  | .act _ => True
  | .close c stores => ∀ k, s.system.shared.child c = some k →
      if 0 < k.pendingCopyPages ∧ stores = true then k.pendingCopyPages < 2 ^ 32
      else (((s.blocksToCopy c).getD 0 : Nat) : Int) = k.pendingCopyPages
  | .reopen c recovered => ∀ k bits, s.closed c = some k → recovered = some bits →
      ({ k.marks with copied := bits } : Marks).clear.card = k.marks.clear.card

section Steps

variable {τ : Type*} [DecidableEq τ] [Fintype τ] {s s' : Sessions τ} {reply : Reply}

/-- One slot changes. -/
theorem attached_update_iff {marks marks' : Nat → Option Marks} {c : Nat} {m' : Marks}
    (before : ∀ c m, marks c = some m → m.Exact)
    (after : marks' = Function.update marks c (some m')) :
    (∀ c m, marks' c = some m → m.Exact) ↔ m'.Exact := by
  subst after
  constructor
  · intro exact
    exact exact c m' (Function.update_self ..)
  · intro exact j m here
    rw [Function.update_apply] at here
    split at here
    · cases here
      exact exact
    · exact before j m here

/-- A step of the family only concerns the children that are attached. -/
theorem pendingExact_act_iff {a : Act τ} (before : PendingExact s)
    (taken : s.step (.act a) = some (reply, s')) : PendingExact s' ↔ KeepsPending s (.act a) := by
  obtain ⟨⟨reply', system⟩, stepped, same⟩ := Option.map_eq_some_iff.mp taken
  cases same
  have attached : PendingExact { s with system := system } ↔
      ∀ c m, system.shared.marks c = some m → m.Exact :=
    ⟨fun exact => exact.attached, fun exact => ⟨exact, before.kept, before.reloads⟩⟩
  rw [attached]
  cases a with
  | thread t m =>
      have stepped : Threads.step (fun _ => move) s.system t m = some (reply', system) := stepped
      obtain ⟨place, shared, moved, rfl⟩ := Threads.step_eq_some stepped
      rcases move_marks moved with ⟨marks, never⟩ | ⟨w, k, i, counts, marks⟩
      · dsimp only
        rw [marks]
        exact ⟨fun _ w k i counts => absurd counts (never w k i), fun _ => before.attached⟩
      · have here : s.system.shared.marks w.slot = some k.marks := congrArg _ counts.child
        rw [attached_update_iff before.attached marks,
          Marks.exact_mark_iff (before.attached _ _ here) counts.unmarked]
        constructor
        · intro sets w' k' i' counts'
          obtain ⟨ret, _, place, _⟩ := counts.ends
          obtain ⟨ret', _, place', _⟩ := counts'.ends
          cases place.symm.trans place'
          cases counts.child.symm.trans counts'.child
          exact sets
        · intro sets
          exact sets w k i counts
  | copyThread fails =>
      obtain ⟨shared, moved, same⟩ := Option.map_eq_some_iff.mp stepped
      cases same
      rcases copyThread_marks moved with marks | ⟨j, k, b, here, unmarked, within, marks⟩
      · dsimp only
        rw [marks]
        exact ⟨fun _ => trivial, fun _ => before.attached⟩
      · have slot : s.system.shared.marks j = some k.marks := congrArg _ here
        rw [attached_update_iff before.attached marks,
          Marks.exact_mark_iff (before.attached _ _ slot) unmarked]
        exact ⟨fun _ => trivial, fun _ => ⟨rfl, within⟩⟩
  | read c pos count env =>
      obtain ⟨r, read, same⟩ := Option.map_eq_some_iff.mp stepped
      cases same
      dsimp only
      rw [fileReadIter_marks read]
      exact ⟨fun _ => trivial, fun _ => before.attached⟩

/-- What is saved is what is loaded again. -/
theorem childCopyCompletionCleanup_iff (k : CowChild) (stores : Bool) (attr : Option Nat) :
    (((k.childCopyCompletionCleanup stores attr).getD 0 : Nat) : Int) = k.pendingCopyPages ↔
      if 0 < k.pendingCopyPages ∧ stores = true then k.pendingCopyPages < 2 ^ 32
      else ((attr.getD 0 : Nat) : Int) = k.pendingCopyPages := by
  unfold CowChild.childCopyCompletionCleanup
  split
  case isTrue saves =>
    rw [Option.getD_some]
    unfold u32
    omega
  case isFalse => exact Iff.rfl

theorem pendingExact_close_iff {c : Nat} {stores : Bool} (before : PendingExact s)
    (taken : s.step (.close c stores) = some (reply, s')) :
    PendingExact s' ↔ KeepsPending s (.close c stores) := by
  obtain ⟨k, here, taken⟩ := Option.bind_eq_some_iff.mp taken
  split at taken
  case isFalse => cases taken
  case isTrue =>
    cases taken
    have exact : k.marks.Exact := before.attached c _ (congrArg _ here)
    constructor
    · rintro after k' here'
      cases here.symm.trans here'
      have reloads := after.reloads c k (Function.update_self ..)
      dsimp only at reloads
      rw [Function.update_self] at reloads
      exact (childCopyCompletionCleanup_iff k stores _).mp reloads
    · intro saves
      have saved := (childCopyCompletionCleanup_iff k stores _).mpr (saves k here)
      constructor
      case attached =>
        intro j m marks
        unfold Sessions.setSlot Shared.marks at marks
        dsimp only at marks
        rw [Function.update_apply] at marks
        split at marks
        · cases marks
        · exact before.attached j m marks
      case kept =>
        intro j k' closed
        dsimp only at closed
        rw [Function.update_apply] at closed
        split at closed
        · cases closed
          exact exact
        · exact before.kept j k' closed
      case reloads =>
        intro j k' closed
        dsimp only at closed ⊢
        rw [Function.update_apply] at closed ⊢
        split at closed
        case isTrue same =>
          cases closed
          rw [if_pos same]
          exact saved
        case isFalse other =>
          rw [if_neg other]
          exact before.reloads j k' closed

theorem pendingExact_reopen_iff {c : Nat} {recovered : Option (Nat → Bool)}
    (before : PendingExact s) (taken : s.step (.reopen c recovered) = some (reply, s')) :
    PendingExact s' ↔ KeepsPending s (.reopen c recovered) := by
  obtain ⟨k, here, taken⟩ := Option.bind_eq_some_iff.mp taken
  split at taken
  case isTrue => cases taken
  case isFalse =>
    cases taken
    have old : k.pendingCopyPages = k.marks.clear.card := before.kept c k here
    have loaded := before.reloads c k here
    -- the counter is what it was, so the bits decide
    have exact_iff : (k.prepareChildInode (s.blocksToCopy c) recovered).marks.Exact ↔
        KeepsPending s (.reopen c recovered) := by
      unfold CowChild.prepareChildInode Marks.Exact
      change (((s.blocksToCopy c).getD 0 : Nat) : Int) =
        (({ k.marks with copied := recovered.getD k.copied } : Marks).clear.card : Int) ↔ _
      rw [loaded, old]
      constructor
      · rintro same k' bits here' rfl
        cases here.symm.trans here'
        exact (Int.ofNat.inj same).symm
      · intro keeps
        cases recovered with
        | none => rfl
        | some bits => exact congrArg Int.ofNat (keeps k bits here rfl).symm
    rw [← exact_iff]
    have marks :
        (s.setSlot c (some (k.prepareChildInode (s.blocksToCopy c) recovered))).shared.marks =
        Function.update s.system.shared.marks c
          (some (k.prepareChildInode (s.blocksToCopy c) recovered).marks) :=
      marks_setChild s.system.shared c _
    rw [← attached_update_iff before.attached marks]
    have others {j : Nat} {k' : CowChild}
        (closed : Function.update s.closed c none j = some k') : s.closed j = some k' := by
      rw [Function.update_apply] at closed
      split at closed
      · cases closed
      · exact closed
    constructor
    · exact PendingExact.attached
    · intro attached
      exact ⟨attached, fun j k' closed => before.kept j k' (others closed),
        fun j k' closed => before.reloads j k' (others closed)⟩

/-- The counters are exact in every state of a run, exactly when every step keeps them. -/
theorem pending_exact_iff {events : List (Session τ)} (start : PendingExact s) :
    Run Sessions.step (fun s _ => PendingExact s) s events s' ∧ PendingExact s' ↔
      Run Sessions.step KeepsPending s events s' := by
  refine Run.exact_iff (Q := fun _ => True) (fun _ _ _ _ _ _ _ _ => trivial) ?_ trivial start
  intro s event reply s' _ before taken
  cases event with
  | act a => exact pendingExact_act_iff before taken
  | close c stores => exact pendingExact_close_iff before taken
  | reopen c recovered => exact pendingExact_reopen_iff before taken

end Steps

/-- A child of some pages, just made and with the ranges given, and one thread. -/
def justOpened (ranges : List ChildRange) (size : Nat) : Sessions Unit where
  system :=
    let made := justMade ⟨size, fun _ => 1⟩ fun _ => true
    { made with shared := { made.shared with
        child := fun c => (made.shared.child c).map fun k => { k with ranges := ranges } } }
  blocksToCopy _ := some ((size - 1) / pageSize + 1)
  closed _ := none

theorem pendingExact_justOpened : PendingExact (justOpened [] 8192) where
  attached c m here := by
    unfold justOpened justMade Shared.marks at here
    dsimp only at here
    split at here
    · cases here
      decide
    · cases here
  kept _ _ closed := by cases closed
  reloads _ _ closed := by cases closed

/-- An executable condition for `KeepsPending`: no write to a shared range, closes that save the
counter, and no bits of recovery. -/
def Sessions.savesPending {τ : Type*} (s : Sessions τ) : Session τ → Bool
  | .act (.thread t _) =>
      match s.system.place t with
      | .ends w _ i => !w.shared && (s.system.shared.child w.slot).all fun k =>
          decide (i * pageSize < k.copySize)
      | _ => true
  | .act _ => true
  | .close c stores => (s.system.shared.child c).all fun k =>
      decide ((0 < k.pendingCopyPages ∧ stores = true) ∧ k.pendingCopyPages < 2 ^ 32)
  | .reopen _ recovered => recovered.isNone

theorem keepsPending_of_savesPending {τ : Type*} {s : Sessions τ} {event : Session τ}
    (passed : s.savesPending event = true) : KeepsPending s event := by
  cases event with
  | act a =>
      cases a with
      | thread t m =>
          rintro w k i counts
          obtain ⟨ret, _, place, _⟩ := counts.ends
          simp only [Sessions.savesPending, place, counts.child, Option.all_some,
            Bool.and_eq_true, Bool.not_eq_true', decide_eq_true_eq] at passed
          exact passed
      | _ => trivial
  | close c stores =>
      rintro k here
      simp only [Sessions.savesPending, here, Option.all_some, decide_eq_true_eq] at passed
      rw [if_pos passed.1]
      exact passed.2
  | reopen c recovered =>
      rintro k bits _ rfl
      cases passed

/-- One write of one byte to the block `0` of a child. -/
def writesByte : List (Session Unit) :=
  (writesChild 0 [7]).map .act

/-- Of two pending blocks one is written; the other is pending before and after a close. -/
theorem pending_exact_reopened : ∃ s',
    Run Sessions.step (fun s _ => PendingExact s) (justOpened [] 8192)
      (writesByte ++ [.close 0 true, .reopen 0 none]) s' ∧ PendingExact s' ∧
      (s'.system.shared.marks 0).any (fun m =>
        m.pendingCopyPages = 1 ∧ m.copied 0 = true ∧ m.copied 1 = false) = true := by
  obtain ⟨s', run, shown⟩ : ∃ s', Run Sessions.step KeepsPending (justOpened [] 8192)
      (writesByte ++ [.close 0 true, .reopen 0 none]) s' ∧
      (s'.system.shared.marks 0).any (fun m =>
        m.pendingCopyPages = 1 ∧ m.copied 0 = true ∧ m.copied 1 = false) = true :=
    Run.exists_imp Sessions.savesPending (fun _ _ _ => keepsPending_of_savesPending)
      (by decide +kernel) fun _ _ shown => shown
  obtain ⟨exact, last⟩ := (pending_exact_iff pendingExact_justOpened).mpr run
  exact ⟨s', exact, last, shown⟩

/-- Two writes to a shared block take the counter below zero and set no bit. A counter that
has come to zero is not saved, so the child has a block pending again when it is opened. -/
theorem pending_exact_fails :
    (∃ s', Run Sessions.step (fun _ _ => True) (justOpened [⟨0, 0, .shared⟩] 4096)
        (writesByte ++ writesByte) s' ∧
      (s'.system.shared.marks 0).any (fun m =>
        m.pendingCopyPages = -1 ∧ m.copied 0 = false) = true) ∧
    ∃ s', Run Sessions.step (fun _ _ => True) (justOpened [] 4096)
        (writesByte ++ [.close 0 true, .reopen 0 none]) s' ∧
      (s'.system.shared.marks 0).any (fun m =>
        m.pendingCopyPages = 1 ∧ m.copied 0 = true) = true := by
  constructor
  all_goals
    exact Run.exists_imp (fun _ _ => true) (fun _ _ _ _ => trivial) (by decide +kernel)
      fun _ _ shown => shown

end FlexClone.Scorw.Cow
