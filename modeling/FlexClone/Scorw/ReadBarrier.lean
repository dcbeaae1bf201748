import FlexClone.Scorw.ActiveMap
import FlexClone.Scorw.CowMoves

/-!
# The read barrier of a write to the parent

For every page it writes to a parent, `scorw_generic_perform_write` puts a barrier around the
change: `scorw_read_barrier_begin` takes the parent's `i_lock` and, for the children that are
in use, the entry of a block in the active map, and `scorw_read_barrier_end` gives them back.
The calls are cut at every slot of the barrier, where other threads come in: they use the
active maps, open and close children, and take and put references to them. Slots only change
while nobody holds `i_lock`.

The block is computed from the offset within the page. Whether a child is in use is read off
its usage count, which opening the child does not change.

* `read_barrier_guards_iff`: the barrier guards the block that is written, exactly when that
  is block `0` and every open child was counted twice when the barrier came to it.
* `barrier_released_iff`: everything is given back, exactly when `write_begin` does not fail.
-/

namespace FlexClone.Scorw.Barrier

open Cow

/-- An attached child: `i_process_usage_count`, and the number of handles on its file. -/
structure ChildRef where
  usageCount : Nat
  opens : Nat
  deriving DecidableEq

/-- Where `scorw_generic_perform_write` is. -/
inductive Call
  | idle
  /-- at the label `again` -/
  | top (pos : Nat) (data : List UInt8) (done : Nat)
  /-- in `scorw_read_barrier_begin`, before slot `j` -/
  | begins (pos : Nat) (data : List UInt8) (done j : Nat)
  /-- between the two halves of the barrier -/
  | inside (pos : Nat) (data : List UInt8) (done : Nat)
  /-- in `scorw_read_barrier_end`, before slot `j` -/
  | ends (pos : Nat) (data : List UInt8) (done : Nat) (outcome : PageOutcome) (j : Nat)
  deriving DecidableEq

namespace Call

/-- Between `down_read` and `up_read`. -/
def inBarrier : Call → Bool
  | .begins _ _ _ _ | .inside _ _ _ | .ends _ _ _ _ _ => true
  | .idle | .top _ _ _ => false

/-- The barrier is up for a slot. -/
def passed : Call → Nat → Bool
  | .begins _ _ _ i, j => decide (j < i)
  | .inside _ _ _, _ => true
  | .ends _ _ _ _ i, j => decide (i ≤ j)
  | .idle, _ | .top _ _ _, _ => false

end Call

/-- A parent, its children and the threads `τ` on their active maps; `none` is the thread
that writes to the parent. `downs`, `ups`, `gets` and `puts` count what is taken and given
back; `count`, `leftOver` and `allocated` note what the barrier found at a slot. -/
structure State (τ : Type*) where
  call : Call
  child : Nat → Option ChildRef
  /-- `i_last_child_index + 1` -/
  slots : Nat
  /-- the active map: for every slot and block an entry and the threads at it -/
  cell : Nat → Nat → ActiveMap.System (Option τ)
  /-- `uncopied_block[j]` is not `NULL` -/
  uncopied : Nat → Bool
  downs : Nat
  ups : Nat
  gets : Nat → Nat
  puts : Nat → Nat
  count : Nat → Nat
  /-- the writer held the entry already, from an earlier call -/
  leftOver : Nat → Bool
  allocated : Nat → Bool

def init {τ : Type*} : State τ where
  call := .idle
  child _ := none
  slots := 0
  cell _ _ := ActiveMap.init
  uncopied _ := false
  downs := 0
  ups := 0
  gets _ := 0
  puts _ := 0
  count _ := 0
  leftOver _ := false
  allocated _ := false

/-- `blk_num`: the offset is the one within the page. The number is never above that of the
last block of the file, so no write passes for an append. -/
def blkNum (pos : Nat) : Nat := pos % pageSize / pageSize

/-- What can happen. -/
inductive Event (τ : Type*)
  | call (pos : Nat) (data : List UInt8)
  /-- a fatal signal is pending -/
  | signal
  | enter
  /-- the next slot of `scorw_read_barrier_begin`; `memory` is whether `kzalloc` succeeds -/
  | slot (memory : Bool)
  /-- the entry that is waited for is tested again -/
  | wake
  /-- `write_begin`, and what is between it and the end of the barrier -/
  | page (outcome : PageOutcome)
  /-- the next slot of `scorw_read_barrier_end` -/
  | release
  /-- another thread on block `b` of the child in slot `j` -/
  | other (t : τ) (j b : Nat) (m : ActiveMap.Move)
  | openChild (j : Nat)
  | closeChild (j : Nat)
  | getInode (j : Nat)
  | putInode (j : Nat)
  | attach (j usageCount : Nat)
  | detach (j : Nat)

/-- The largest index below `n` that is in use, plus one. -/
def lastAttached (child : Nat → Option ChildRef) : Nat → Nat
  | 0 => 0
  | n + 1 => if (child n).isSome then n + 1 else lastAttached child n

namespace State

variable {τ : Type*} [DecidableEq τ]

def setCell (s : State τ) (j b : Nat) (sys : ActiveMap.System (Option τ)) : State τ :=
  { s with cell := Function.update s.cell j (Function.update (s.cell j) b sys) }

def setChild (s : State τ) (j : Nat) (c : Option ChildRef) : State τ :=
  { s with child := Function.update s.child j c }

/-- What the barrier finds when it comes to a slot. -/
def note (s : State τ) (j b usageCount : Nat) : State τ :=
  { s with
    count := Function.update s.count j usageCount
    leftOver := Function.update s.leftOver j
      (decide ((s.cell j b).place none = .holding .copyingExcl)) }

/-- A slot that the barrier does not take an entry of. -/
def skip (s : State τ) (j : Nat) (next : Call) : State τ :=
  { s with call := next, uncopied := Function.update s.uncopied j false }

/-- The writer has its entry, or waits for it. -/
def granted (s : State τ) (j b : Nat) (next : Call) (sys : ActiveMap.System (Option τ)) :
    State τ :=
  if sys.place none = .holding .copyingExcl then
    { s.setCell j b sys with
      call := next
      uncopied := Function.update s.uncopied j true
      gets := Function.update s.gets j (s.gets j + 1)
      allocated := Function.update s.allocated j true }
  else s.setCell j b sys

/-- One child in `scorw_read_barrier_begin`, unless its entry is waited for. -/
def beginSlot (s : State τ) (j b : Nat) (next : Call) (c : ChildRef) (memory : Bool) :
    Option (State τ) :=
  let s := s.note j b c.usageCount
  if (s.cell j b).place none = .waiting .copyingExcl then none
  else if c.usageCount ≤ 1 then some (s.skip j next)
  else if (s.cell j b).shared.isNone ∧ memory = false then
    some { s.skip j next with allocated := Function.update s.allocated j false }
  else
    (ActiveMap.step (s.cell j b) (none, .get .copyingExcl memory)).map fun r =>
      s.granted j b next r.2

/-- One child in `scorw_read_barrier_end`: the entry is put, and freed if nobody uses it. -/
def endSlot (s : State τ) (j b : Nat) (next : Call) : Option (State τ) :=
  if s.uncopied j then
    (ActiveMap.step (s.cell j b) (none, .put)).bind fun r =>
      (ActiveMap.step r.2 (none, .remove)).map fun r =>
        { s.setCell j b r.2 with
          call := next
          puts := Function.update s.puts j (s.puts j + 1) }
  else some { s with call := next }

/-- One pass of the loop is over. -/
def leave (s : State τ) (pos : Nat) (data : List UInt8) (done : Nat) (outcome : PageOutcome) :
    State τ :=
  let n := (storedBytes outcome pos data).length
  { s with
    ups := s.ups + 1
    call :=
      match loopReply outcome pos data done with
      | some _ => .idle
      | none => .top (pos + n) (data.drop n) (done + n) }

/-- A move of the writer. -/
def write (s : State τ) : Event τ → Call → Option (State τ)
  | .call pos data, .idle => if data = [] then none else some { s with call := .top pos data 0 }
  | .signal, .top _ _ _ => some { s with call := .idle }
  | .enter, .top pos data done =>
      some { s with call := .begins pos data done 0, downs := s.downs + 1 }
  | .slot memory, .begins pos data done j =>
      if s.slots ≤ j then some { s with call := .inside pos data done }
      else
        match s.child j with
        | none => some { s with call := .begins pos data done (j + 1) }
        | some c => s.beginSlot j (blkNum pos) (.begins pos data done (j + 1)) c memory
  | .wake, .begins pos data done j =>
      (ActiveMap.step (s.cell j (blkNum pos)) (none, .wake)).map fun r =>
        s.granted j (blkNum pos) (.begins pos data done (j + 1)) r.2
  | .page outcome, .inside pos data done =>
      match outcome with
      | .signal => none
      -- the loop is left between the two halves of the barrier
      | .beginFailed => some { s with call := .idle }
      | .copied _ | .endFailed _ => some { s with call := .ends pos data done outcome 0 }
  | .release, .ends pos data done outcome j =>
      if s.slots ≤ j then some (s.leave pos data done outcome)
      else
        match s.child j with
        | none => some { s with call := .ends pos data done outcome (j + 1) }
        | some _ => s.endSlot j (blkNum pos) (.ends pos data done outcome (j + 1))
  | _, _ => none

/-- What others do. Opening a child takes a reference to the parent only, and the slots are
changed under `down_write(i_lock)`. -/
def others (s : State τ) : Event τ → Option (State τ)
  | .other t j b m =>
      if (s.child j).isSome then
        (ActiveMap.step (s.cell j b) (some t, m)).map fun r => s.setCell j b r.2
      else none
  | .openChild j => (s.child j).map fun c => s.setChild j (some { c with opens := c.opens + 1 })
  | .closeChild j => (s.child j).map fun c => s.setChild j (some { c with opens := c.opens - 1 })
  | .getInode j =>
      (s.child j).map fun c => s.setChild j (some { c with usageCount := c.usageCount + 1 })
  | .putInode j =>
      (s.child j).map fun c => s.setChild j (some { c with usageCount := c.usageCount - 1 })
  | .attach j usageCount =>
      if s.downs = s.ups ∧ s.child j = none then
        some { s.setChild j (some ⟨usageCount, 0⟩) with
          slots := max s.slots (j + 1)
          cell := Function.update s.cell j fun _ => ActiveMap.init }
      else none
  | .detach j =>
      if s.downs = s.ups ∧ (s.child j).isSome then
        some { s.setChild j none with
          slots := if j + 1 = s.slots then lastAttached (s.setChild j none).child j else s.slots }
      else none
  | _ => none

def step (s : State τ) (e : Event τ) : Option (Unit × State τ) :=
  ((s.write e s.call).or (s.others e)).map fun s' => ((), s')

end State

/-! ## What a step can do -/

section Steps

variable {τ : Type*} [DecidableEq τ]

theorem blkNum_eq_zero (pos : Nat) : blkNum pos = 0 :=
  Nat.div_eq_of_lt (Nat.mod_lt pos (by decide))

/-- The steps, with what holds before them. -/
inductive Takes (s : State τ) : Event τ → State τ → Prop
  | call {pos data} : s.call = .idle → Takes s (.call pos data) { s with call := .top pos data 0 }
  | signal {pos data done} : s.call = .top pos data done →
      Takes s .signal { s with call := .idle }
  | enter {pos data done} : s.call = .top pos data done →
      Takes s .enter { s with call := .begins pos data done 0, downs := s.downs + 1 }
  | inside {pos data done j memory} : s.call = .begins pos data done j → s.slots ≤ j →
      Takes s (.slot memory) { s with call := .inside pos data done }
  | empty {pos data done j memory} : s.call = .begins pos data done j → s.child j = none →
      Takes s (.slot memory) { s with call := .begins pos data done (j + 1) }
  | unused {pos data done j memory c} : s.call = .begins pos data done j → s.child j = some c →
      (s.cell j 0).place none ≠ .waiting .copyingExcl → c.usageCount ≤ 1 → Takes s (.slot memory)
        ((s.note j 0 c.usageCount).skip j (.begins pos data done (j + 1)))
  | noMemory {pos data done j c} : s.call = .begins pos data done j → s.child j = some c →
      (s.cell j 0).place none ≠ .waiting .copyingExcl → 1 < c.usageCount → Takes s (.slot false)
        { (s.note j 0 c.usageCount).skip j (.begins pos data done (j + 1)) with
          allocated := Function.update s.allocated j false }
  | gets {pos data done j memory c reply sys} : s.call = .begins pos data done j →
      s.child j = some c → 1 < c.usageCount →
      ((s.cell j 0).shared.isNone = true → memory = true) →
      ActiveMap.step (s.cell j 0) (none, .get .copyingExcl memory) = some (reply, sys) →
      Takes s (.slot memory)
        ((s.note j 0 c.usageCount).granted j 0 (.begins pos data done (j + 1)) sys)
  | wakes {pos data done j reply sys} : s.call = .begins pos data done j →
      ActiveMap.step (s.cell j 0) (none, .wake) = some (reply, sys) →
      Takes s .wake (s.granted j 0 (.begins pos data done (j + 1)) sys)
  | beginFailed {pos data done} : s.call = .inside pos data done →
      Takes s (.page .beginFailed) { s with call := .idle }
  | page {pos data done outcome} : s.call = .inside pos data done → outcome ≠ .beginFailed →
      Takes s (.page outcome) { s with call := .ends pos data done outcome 0 }
  | leaves {pos data done outcome j} : s.call = .ends pos data done outcome j → s.slots ≤ j →
      Takes s .release (s.leave pos data done outcome)
  | endsEmpty {pos data done outcome j} : s.call = .ends pos data done outcome j →
      ((s.child j).isSome = true → s.uncopied j = false) →
      Takes s .release { s with call := .ends pos data done outcome (j + 1) }
  | puts {pos data done outcome j c reply reply' sys sys'} :
      s.call = .ends pos data done outcome j → s.child j = some c → s.uncopied j = true →
      ActiveMap.step (s.cell j 0) (none, .put) = some (reply, sys) →
      ActiveMap.step sys (none, .remove) = some (reply', sys') → Takes s .release
        { s.setCell j 0 sys' with
          call := .ends pos data done outcome (j + 1)
          puts := Function.update s.puts j (s.puts j + 1) }
  | other {t j b m reply sys} : ActiveMap.step (s.cell j b) (some t, m) = some (reply, sys) →
      Takes s (.other t j b m) (s.setCell j b sys)
  | refs {e j c c'} : s.child j = some c → (∀ outcome, e ≠ .page outcome) →
      (∀ memory, e ≠ .slot memory) → (∀ t j b m, e ≠ .other t j b m) →
      Takes s e (s.setChild j (some c'))
  | attach {j usageCount} : s.downs = s.ups → s.child j = none → Takes s (.attach j usageCount)
      { s.setChild j (some ⟨usageCount, 0⟩) with
        slots := max s.slots (j + 1)
        cell := Function.update s.cell j fun _ => ActiveMap.init }
  | detach {j} : s.downs = s.ups → Takes s (.detach j)
      { s.setChild j none with
        slots := if j + 1 = s.slots then lastAttached (s.setChild j none).child j else s.slots }

variable {s s' : State τ} {e : Event τ} {sys sys' : ActiveMap.System (Option τ)}
  {data : List UInt8} {pos done j : Nat} {reply : Int}

theorem takes_write (taken : s.write e s.call = some s') : Takes s e s' := by
  unfold State.write at taken
  split at taken
  case h_1 here =>
    split at taken
    · cases taken
    · cases taken
      exact .call here
  case h_2 here =>
    cases taken
    exact .signal here
  case h_3 here =>
    cases taken
    exact .enter here
  case h_4 memory pos data done j here =>
    rw [blkNum_eq_zero] at taken
    split at taken
    case isTrue past =>
      cases taken
      exact .inside here past
    case isFalse =>
      split at taken
      case h_1 none_ =>
        cases taken
        exact .empty here none_
      case h_2 c child =>
        unfold State.beginSlot at taken
        dsimp only at taken
        split at taken
        case isTrue => cases taken
        case isFalse awake =>
          split at taken
          case isTrue unused =>
            cases taken
            exact .unused here child awake unused
          case isFalse used =>
            split at taken
            case isTrue failed =>
              obtain ⟨_, rfl⟩ := failed
              cases taken
              exact .noMemory here child awake (Nat.not_le.mp used)
            case isFalse allocates =>
              obtain ⟨⟨reply, sys⟩, stepped, rfl⟩ := Option.map_eq_some_iff.mp taken
              refine .gets here child (Nat.not_le.mp used) (fun missing => ?_) stepped
              rw [← Bool.not_eq_false]
              exact fun failed => allocates ⟨missing, failed⟩
  case h_5 pos data done j here =>
    rw [blkNum_eq_zero] at taken
    obtain ⟨⟨reply, sys⟩, stepped, rfl⟩ := Option.map_eq_some_iff.mp taken
    exact .wakes here stepped
  case h_6 outcome pos data done here =>
    split at taken
    case h_1 => cases taken
    case h_2 =>
      cases taken
      exact .beginFailed here
    case h_3 | h_4 =>
      cases taken
      exact .page here (by simp)
  case h_7 pos data done outcome j here =>
    rw [blkNum_eq_zero] at taken
    split at taken
    case isTrue past =>
      cases taken
      exact .leaves here past
    case isFalse =>
      split at taken
      case h_1 none_ =>
        cases taken
        exact .endsEmpty here fun present => by
          rw [none_] at present
          cases present
      case h_2 c child =>
        unfold State.endSlot at taken
        split at taken
        case isTrue got =>
          obtain ⟨⟨reply, sys⟩, first, taken⟩ := Option.bind_eq_some_iff.mp taken
          obtain ⟨⟨reply', sys'⟩, second, rfl⟩ := Option.map_eq_some_iff.mp taken
          exact .puts here child got first second
        case isFalse missing =>
          cases taken
          exact .endsEmpty here fun _ => Bool.eq_false_iff.mpr missing
  case h_8 => cases taken

theorem takes_others (taken : s.others e = some s') : Takes s e s' := by
  unfold State.others at taken
  split at taken
  case h_1 =>
    split at taken
    · obtain ⟨⟨reply, sys⟩, stepped, rfl⟩ := Option.map_eq_some_iff.mp taken
      exact .other stepped
    · cases taken
  case h_2 | h_3 | h_4 | h_5 =>
    obtain ⟨c, child, rfl⟩ := Option.map_eq_some_iff.mp taken
    exact .refs child nofun nofun nofun
  case h_6 =>
    split at taken
    case isTrue free =>
      cases taken
      exact .attach free.1 free.2
    case isFalse => cases taken
  case h_7 =>
    split at taken
    case isTrue free =>
      cases taken
      exact .detach free.1
    case isFalse => cases taken
  case h_8 => cases taken

theorem takes_of_step {reply : Unit} (taken : s.step e = some (reply, s')) : Takes s e s' := by
  obtain ⟨s₁, moved, same⟩ := Option.map_eq_some_iff.mp taken
  cases same
  rcases Option.or_eq_some_iff.mp moved with wrote | ⟨_, other⟩
  · exact takes_write wrote
  · exact takes_others other

/-! ## The writer's places -/

omit [DecidableEq τ] in
theorem cell_setCell (s : State τ) (j b : Nat) (sys : ActiveMap.System (Option τ)) (i x : Nat) :
    (s.setCell j b sys).cell i x = if i = j ∧ x = b then sys else s.cell i x := by
  unfold State.setCell
  dsimp only
  rw [Function.update_apply]
  split
  case isTrue same =>
    rw [Function.update_apply, same]
    simp only [true_and]
  case isFalse other => rw [if_neg fun h => other h.1]

omit [DecidableEq τ] in
theorem cell_setCell_of_ne {i : Nat} (other : i ≠ j) (b x : Nat)
    (sys : ActiveMap.System (Option τ)) : (s.setCell j b sys).cell i x = s.cell i x := by
  rw [cell_setCell, if_neg fun h => other h.1]

omit [DecidableEq τ] in
/-- A child that is there stays there when its references change. -/
theorem isSome_setChild {c : ChildRef} (child : s.child j = some c) (c' : ChildRef) (i : Nat) :
    ((s.setChild j (some c')).child i).isSome = (s.child i).isSome := by
  unfold State.setChild
  dsimp only
  rw [Function.update_apply]
  split
  case isTrue same =>
    rw [same, child]
    rfl
  case isFalse => rfl

omit [DecidableEq τ] in
theorem ne_of_attached {i : Nat} (attached : (s.child i).isSome = true) (empty : s.child j = none) :
    i ≠ j := by
  rintro rfl
  rw [empty] at attached
  cases attached

/-- Another thread does not move the writer. -/
theorem place_other {t : τ} {m : ActiveMap.Move}
    (stepped : ActiveMap.step sys (some t, m) = some (reply, sys')) :
    sys'.place none = sys.place none := by
  obtain ⟨place, shared, _, rfl⟩ := Threads.step_eq_some stepped
  exact Function.update_of_ne (Option.some_ne_none t).symm place sys.place

/-- The writer gets the entry or waits for it. -/
theorem place_get {memory : Bool}
    (stepped : ActiveMap.step sys (none, .get .copyingExcl memory) = some (reply, sys')) :
    sys'.place none = .holding .copyingExcl ∨ sys'.place none = .waiting .copyingExcl := by
  obtain ⟨place, shared, moved, rfl⟩ := Threads.step_eq_some stepped
  dsimp only
  rw [Function.update_self]
  unfold ActiveMap.move at moved
  split at moved
  case h_1 asked =>
    cases asked
    split at moved
    · cases moved
      exact .inl rfl
    · split at moved
      · cases moved
        exact .inl rfl
      · cases moved
        exact .inr rfl
  case h_2 | h_3 | h_4 | h_5 | h_6 => simp_all

theorem place_before_get {pt : ActiveMap.ProcessingType} {memory : Bool}
    (stepped : ActiveMap.step sys (none, .get pt memory) = some (reply, sys')) :
    sys.place none ≠ .waiting .copyingExcl := by
  obtain ⟨place, shared, moved, _⟩ := Threads.step_eq_some stepped
  intro waiting
  rw [waiting] at moved
  cases moved

theorem place_wake (stepped : ActiveMap.step sys (none, .wake) = some (reply, sys')) :
    ∃ pt, sys.place none = .waiting pt ∧
      (sys'.place none = .holding pt ∨ sys'.place none = .waiting pt) := by
  obtain ⟨place, shared, moved, rfl⟩ := Threads.step_eq_some stepped
  dsimp only
  rw [Function.update_self]
  cases here : sys.place none with
  | idle =>
      rw [here] at moved
      cases moved
  | holding pt =>
      rw [here] at moved
      cases moved
  | waiting pt =>
      refine ⟨pt, rfl, ?_⟩
      rw [here] at moved
      obtain ⟨e, _, result⟩ := Option.map_eq_some_iff.mp moved
      split at result
      · cases result
        exact .inl rfl
      · cases result
        exact .inr rfl

theorem place_put_remove {sys'' : ActiveMap.System (Option τ)} {reply' : Int}
    (first : ActiveMap.step sys (none, .put) = some (reply, sys'))
    (second : ActiveMap.step sys' (none, .remove) = some (reply', sys'')) :
    sys''.place none = .idle := by
  obtain ⟨place, shared, moved, rfl⟩ := Threads.step_eq_some first
  obtain ⟨place', shared', moved', rfl⟩ := Threads.step_eq_some second
  dsimp only at moved' ⊢
  rw [Function.update_self] at moved' ⊢
  have idle : place = .idle := by
    cases here : sys.place none with
    | idle | waiting =>
        rw [here] at moved
        cases moved
    | holding pt =>
        rw [here] at moved
        unfold ActiveMap.move at moved
        dsimp only at moved
        split at moved <;> cases moved <;> rfl
  subst idle
  cases moved'
  rfl

/-- What holds along every run. -/
structure Inv (s : State τ) : Prop where
  slots : ∀ j, (s.child j).isSome = true → j < s.slots
  /-- the writer only uses block `0` -/
  away : ∀ j b, b ≠ 0 → (s.cell j b).place none = .idle
  ups_le : s.ups ≤ s.downs
  locked : s.call.inBarrier = true → s.ups < s.downs
  waits : ∀ j pt, (s.cell j 0).place none = .waiting pt → pt = .copyingExcl ∧ 1 < s.count j ∧
    (s.child j).isSome = true ∧ ∃ pos data done, s.call = .begins pos data done j
  noted : ∀ j, s.call.passed j = true → (s.child j).isSome = true →
    s.uncopied j = (decide (1 < s.count j) && s.allocated j)
  held : ∀ j, s.call.passed j = true → (s.child j).isSome = true →
    ((s.cell j 0).place none = .holding .copyingExcl ↔
      s.leftOver j = true ∨ 1 < s.count j ∧ s.allocated j = true)

omit [DecidableEq τ] in
theorem inv_init : Inv (init : State τ) where
  slots _ attached := by cases attached
  away _ _ _ := rfl
  ups_le := le_rfl
  locked inside := by cases inside
  waits _ _ waiting := by cases waiting
  noted _ passed := by cases passed
  held _ passed := by cases passed

omit [DecidableEq τ] in
/-- The call goes on and nothing else changes than the lock. -/
theorem Inv.goesOn (inv : Inv s) (next : Call) (downs ups : Nat)
    (awake : ∀ pos data done j, s.call = .begins pos data done j → s.child j = none)
    (fewer : ∀ j, next.passed j = true → (s.child j).isSome = true → s.call.passed j = true)
    (ups_le : ups ≤ downs) (locked : next.inBarrier = true → ups < downs) :
    Inv { s with call := next, downs := downs, ups := ups } where
  slots := inv.slots
  away := inv.away
  ups_le := ups_le
  locked := locked
  waits j pt waiting := by
    obtain ⟨_, _, attached, pos, data, done, here⟩ := inv.waits j pt waiting
    rw [awake pos data done j here] at attached
    cases attached
  noted j passed attached := inv.noted j (fewer j passed attached) attached
  held j passed attached := inv.held j (fewer j passed attached) attached

omit [DecidableEq τ] in
theorem count_note (s : State τ) (j b n : Nat) : (s.note j b n).count j = n :=
  Function.update_self ..

omit [DecidableEq τ] in
theorem Inv.not_waiting (inv : Inv s) (awake : (s.cell j 0).place none ≠ .waiting .copyingExcl)
    (pt : ActiveMap.ProcessingType) : (s.cell j 0).place none ≠ .waiting pt := by
  intro waiting
  obtain ⟨rfl, _⟩ := inv.waits j pt waiting
  exact awake waiting

omit [DecidableEq τ] in
/-- The writer waits at the slot where the barrier is. -/
theorem Inv.waiting_at (inv : Inv s) {i : Nat} {pt : ActiveMap.ProcessingType}
    (here : s.call = .begins pos data done j) (waiting : (s.cell i 0).place none = .waiting pt) :
    i = j := by
  obtain ⟨_, _, _, pos', data', done', here'⟩ := inv.waits i pt waiting
  cases here.symm.trans here'
  rfl

omit [DecidableEq τ] in
/-- The barrier comes to a slot that is not waited for. -/
theorem Inv.note (inv : Inv s) {n : Nat} (here : s.call = .begins pos data done j)
    (awake : (s.cell j 0).place none ≠ .waiting .copyingExcl) : Inv (s.note j 0 n) := by
  have earlier {i : Nat} (passed : s.call.passed i = true) : i ≠ j := by
    rw [here] at passed
    exact Nat.ne_of_lt (of_decide_eq_true passed)
  refine ⟨inv.slots, inv.away, inv.ups_le, inv.locked, fun i pt waiting => ?_,
    fun i passed attached => ?_, fun i passed attached => ?_⟩
  · obtain rfl := inv.waiting_at here waiting
    exact absurd waiting (inv.not_waiting awake pt)
  · unfold State.note
    simp only [Function.update_of_ne (earlier passed)]
    exact inv.noted i passed attached
  · unfold State.note
    simp only [Function.update_of_ne (earlier passed)]
    exact inv.held i passed attached

omit [DecidableEq τ] in
/-- A slot without an entry. -/
theorem Inv.skip (inv : Inv s) (allocated : Nat → Bool) (here : s.call = .begins pos data done j)
    (awake : ∀ pt, (s.cell j 0).place none ≠ .waiting pt)
    (others : ∀ i ≠ j, allocated i = s.allocated i)
    (leftOver : s.leftOver j = decide ((s.cell j 0).place none = .holding .copyingExcl))
    (none_ : ¬(1 < s.count j ∧ allocated j = true)) :
    Inv { s.skip j (.begins pos data done (j + 1)) with allocated := allocated } := by
  have earlier {i : Nat} (other : i ≠ j)
      (passed : (Call.begins pos data done (j + 1)).passed i = true) : s.call.passed i = true := by
    have before : i < j + 1 := of_decide_eq_true passed
    rw [here]
    exact decide_eq_true (by omega)
  refine ⟨inv.slots, inv.away, inv.ups_le, fun _ => inv.locked (by rw [here]; rfl),
    fun i pt waiting => ?_, fun i passed attached => ?_, fun i passed attached => ?_⟩
  · obtain rfl := inv.waiting_at here waiting
    exact absurd waiting (awake pt)
  · unfold State.skip
    dsimp only
    by_cases same : i = j
    · rw [same, Function.update_self]
      refine (Bool.eq_false_iff.mpr fun both => none_ ?_).symm
      rwa [Bool.and_eq_true, decide_eq_true_eq] at both
    · rw [Function.update_of_ne same, others i same]
      exact inv.noted i (earlier same passed) attached
  · change (s.cell i 0).place none = _ ↔ s.leftOver i = true ∨ 1 < s.count i ∧ allocated i = true
    by_cases same : i = j
    · rw [same, leftOver, decide_eq_true_eq]
      exact (or_iff_left none_).symm
    · rw [others i same]
      exact inv.held i (earlier same passed) attached

omit [DecidableEq τ] in
theorem Inv.away_setCell (inv : Inv s) (j : Nat) (sys : ActiveMap.System (Option τ)) (i b : Nat)
    (other : b ≠ 0) : ((s.setCell j 0 sys).cell i b).place none = .idle := by
  rw [cell_setCell, if_neg fun h => other h.2]
  exact inv.away i b other

omit [DecidableEq τ] in
/-- The entry of a slot is taken or waited for. -/
theorem Inv.granted (inv : Inv s) (here : s.call = .begins pos data done j)
    (attached : (s.child j).isSome = true) (used : 1 < s.count j)
    (place : sys.place none = .holding .copyingExcl ∨ sys.place none = .waiting .copyingExcl) :
    Inv (s.granted j 0 (.begins pos data done (j + 1)) sys) := by
  have locked := inv.locked (by rw [here]; rfl)
  have away := inv.away_setCell j sys
  have elsewhere {i : Nat} (other : i ≠ j) := cell_setCell_of_ne (s := s) other 0 0 sys
  have at_ : (s.setCell j 0 sys).cell j 0 = sys := by rw [cell_setCell, if_pos ⟨rfl, rfl⟩]
  have earlier {i : Nat} (before : i < j) : s.call.passed i = true := by
    rw [here]
    exact decide_eq_true before
  unfold State.granted
  split
  case isTrue holds =>
    refine ⟨inv.slots, away, inv.ups_le, fun _ => locked, fun i pt waiting => ?_,
      fun i passed present => ?_, fun i passed present => ?_⟩
    · dsimp only at waiting
      by_cases same : i = j
      · rw [same, at_, holds] at waiting
        cases waiting
      · rw [elsewhere same] at waiting
        exact absurd (inv.waiting_at here waiting) same
    · have before : i < j + 1 := of_decide_eq_true passed
      dsimp only
      rw [Function.update_apply, Function.update_apply]
      by_cases same : i = j
      · have twice : 1 < (s.setCell j 0 sys).count j := used
        rw [if_pos same, if_pos same, same, decide_eq_true twice]
        rfl
      · rw [if_neg same, if_neg same]
        exact inv.noted i (earlier (by omega)) present
    · have before : i < j + 1 := of_decide_eq_true passed
      dsimp only
      by_cases same : i = j
      · rw [same, at_, Function.update_self]
        exact iff_of_true holds (.inr ⟨used, rfl⟩)
      · rw [Function.update_of_ne same, elsewhere same]
        exact inv.held i (earlier (by omega)) present
  case isFalse misses =>
    have waiting := place.resolve_left misses
    refine ⟨inv.slots, away, inv.ups_le, fun _ => locked, fun i pt waits => ?_,
      fun i passed present => inv.noted i passed present, fun i passed present => ?_⟩
    · by_cases same : i = j
      · rw [same, at_, waiting] at waits
        cases waits
        rw [same]
        exact ⟨rfl, used, attached, pos, data, done, here⟩
      · rw [elsewhere same] at waits
        exact inv.waits i pt waits
    · have before : i < j := by
        have passed : s.call.passed i = true := passed
        rw [here] at passed
        exact of_decide_eq_true passed
      rw [elsewhere (by omega)]
      exact inv.held i passed present

omit [DecidableEq τ] in
/-- The entry of a slot is given back. -/
theorem Inv.release (inv : Inv s) {outcome : PageOutcome}
    (here : s.call = .ends pos data done outcome j) (idle : sys.place none = .idle)
    (puts : Nat → Nat) :
    Inv { s.setCell j 0 sys with call := .ends pos data done outcome (j + 1), puts := puts } := by
  have elsewhere {i : Nat} (other : i ≠ j) := cell_setCell_of_ne (s := s) other 0 0 sys
  have later {i : Nat} (passed : (Call.ends pos data done outcome (j + 1)).passed i = true) :
      i ≠ j ∧ s.call.passed i = true := by
    have after : j + 1 ≤ i := of_decide_eq_true passed
    rw [here]
    exact ⟨by omega, decide_eq_true (by omega)⟩
  refine ⟨inv.slots, inv.away_setCell j sys, inv.ups_le,
    fun _ => inv.locked (by rw [here]; rfl), fun i pt waiting => ?_,
    fun i passed => inv.noted i (later passed).2, fun i passed attached => ?_⟩
  · dsimp only at waiting
    by_cases same : i = j
    · rw [cell_setCell, if_pos ⟨same, rfl⟩, idle] at waiting
      cases waiting
    · rw [elsewhere same] at waiting
      obtain ⟨_, _, _, pos', data', done', here'⟩ := inv.waits i pt waiting
      cases here.symm.trans here'
  · dsimp only
    rw [elsewhere (later passed).1]
    exact inv.held i (later passed).2 attached

omit [DecidableEq τ] in
/-- The invariant is about attached slots and the writer's places. -/
theorem Inv.same (inv : Inv s) {child : Nat → Option ChildRef}
    {cell : Nat → Nat → ActiveMap.System (Option τ)}
    (isSome : ∀ j, (child j).isSome = (s.child j).isSome)
    (places : ∀ j b, (cell j b).place none = (s.cell j b).place none) :
    Inv { s with child := child, cell := cell } where
  slots j attached := inv.slots j (isSome j ▸ attached)
  away j b other := (places j b).trans (inv.away j b other)
  ups_le := inv.ups_le
  locked := inv.locked
  waits j pt waiting := by
    obtain ⟨exclusive, used, attached, here⟩ := inv.waits j pt ((places j 0).symm.trans waiting)
    exact ⟨exclusive, used, (isSome j).trans attached, here⟩
  noted j passed attached := inv.noted j passed (isSome j ▸ attached)
  held j passed attached := by
    rw [places j 0]
    exact inv.held j passed (isSome j ▸ attached)

theorem Call.inBarrier_of_passed {call : Call} (passed : call.passed j = true) :
    call.inBarrier = true := by
  cases call with
  | idle | top => cases passed
  | begins | inside | ends => rfl

omit [DecidableEq τ] in
/-- Slots are changed while nobody is in the barrier. -/
theorem Inv.reslot (inv : Inv s) (free : s.downs = s.ups) {child : Nat → Option ChildRef}
    {cell : Nat → Nat → ActiveMap.System (Option τ)} {slots : Nat}
    (below : ∀ j, (child j).isSome = true → j < slots)
    (places : ∀ j b, cell j b = s.cell j b ∨ (cell j b).place none = .idle) :
    Inv { s with child := child, cell := cell, slots := slots } where
  slots := below
  away j b other := by
    rcases places j b with same | idle
    · rw [← inv.away j b other, ← same]
    · exact idle
  ups_le := inv.ups_le
  locked := inv.locked
  waits j pt waiting := by
    rcases places j 0 with same | idle
    · obtain ⟨_, _, _, pos, data, done, here⟩ := inv.waits j pt (same ▸ waiting)
      have locked := inv.locked (by rw [here]; rfl)
      omega
    · rw [idle] at waiting
      cases waiting
  noted j passed := by
    have locked := inv.locked (Call.inBarrier_of_passed passed)
    omega
  held j passed := by
    have locked := inv.locked (Call.inBarrier_of_passed passed)
    omega

theorem lt_lastAttached {child : Nat → Option ChildRef} {i n : Nat} (below : i < n)
    (attached : (child i).isSome = true) : i < lastAttached child n := by
  induction n with
  | zero => omega
  | succ n ih =>
      unfold lastAttached
      split
      case isTrue => exact below
      case isFalse empty =>
        have other : i ≠ n := by
          rintro rfl
          exact empty attached
        exact ih (by omega)

/-- Every step keeps the invariant. -/
theorem inv_takes (inv : Inv s) (taken : Takes s e s') : Inv s' := by
  -- outside of the barrier nothing is waited for
  have awake (outside : s.call.inBarrier = false) :
      ∀ pos data done j, s.call = .begins pos data done j → s.child j = none := by
    intro pos data done j here
    rw [here] at outside
    cases outside
  cases taken with
  | call here | signal here =>
      exact inv.goesOn _ _ _ (awake (by rw [here]; rfl)) (fun _ passed => by cases passed)
        inv.ups_le (fun inside => by cases inside)
  | enter here =>
      refine inv.goesOn _ _ _ (awake (by rw [here]; rfl)) (fun _ passed => ?_)
        (Nat.le_succ_of_le inv.ups_le) fun _ => Nat.lt_succ_of_le inv.ups_le
      cases passed
  | @inside pos data done j _ here past =>
      have locked := inv.locked (by rw [here]; rfl)
      refine inv.goesOn _ _ _ (fun pos' data' done' i here' => ?_) (fun i _ attached => ?_)
        inv.ups_le fun _ => locked
      · cases here.symm.trans here'
        by_contra attached
        have below := inv.slots j (Option.isSome_iff_ne_none.mpr attached)
        omega
      · rw [here]
        have below := inv.slots i attached
        exact decide_eq_true (by omega)
  | @empty pos data done j _ here none_ =>
      have locked := inv.locked (by rw [here]; rfl)
      refine inv.goesOn _ _ _ (fun pos' data' done' i here' => ?_) (fun i passed attached => ?_)
        inv.ups_le fun _ => locked
      · cases here.symm.trans here'
        exact none_
      · have before : i < j + 1 := of_decide_eq_true passed
        have other := ne_of_attached attached none_
        rw [here]
        exact decide_eq_true (by omega)
  | @unused pos data done j memory c here child awake unused =>
      refine (inv.note here awake).skip s.allocated here (inv.not_waiting awake)
        (fun _ _ => rfl) (Function.update_self ..) ?_
      rw [count_note]
      omega
  | @noMemory pos data done j c here child awake used =>
      refine (inv.note here awake).skip (Function.update s.allocated j false) here
        (inv.not_waiting awake) (fun i other => Function.update_of_ne other ..)
        (Function.update_self ..) ?_
      rw [Function.update_self]
      exact fun both => Bool.false_ne_true both.2
  | @gets pos data done j memory c reply sys here child used _ stepped =>
      have attached : (s.child j).isSome = true := by rw [child]; rfl
      refine (inv.note here (place_before_get stepped)).granted here attached ?_
        (place_get stepped)
      rw [count_note]
      exact used
  | @wakes pos data done j reply sys here stepped =>
      obtain ⟨pt, waiting, place⟩ := place_wake stepped
      obtain ⟨rfl, used, attached, _⟩ := inv.waits j pt waiting
      exact inv.granted here attached used place
  | beginFailed here =>
      refine inv.goesOn _ _ _ (fun pos data done j here' => ?_) (fun _ passed => by cases passed)
        inv.ups_le fun inside => by cases inside
      cases here.symm.trans here'
  | page here _ =>
      have locked := inv.locked (by rw [here]; rfl)
      refine inv.goesOn _ _ _ (fun pos data done j here' => ?_) (fun _ _ _ => ?_) inv.ups_le
        fun _ => locked
      · cases here.symm.trans here'
      · rw [here]
        rfl
  | @leaves pos data done outcome j here past =>
      have locked := inv.locked (by rw [here]; rfl)
      unfold State.leave
      dsimp only
      refine inv.goesOn _ s.downs _ (fun pos data done j here' => ?_) (fun i passed => ?_)
        locked fun inside => ?_
      · cases here.symm.trans here'
      · split at passed <;> cases passed
      · split at inside <;> cases inside
  | @endsEmpty pos data done outcome j here _ =>
      have locked := inv.locked (by rw [here]; rfl)
      refine inv.goesOn _ _ _ (fun pos data done j here' => ?_) (fun i passed _ => ?_) inv.ups_le
        fun _ => locked
      · cases here.symm.trans here'
      · have after : j + 1 ≤ i := of_decide_eq_true passed
        rw [here]
        exact decide_eq_true (by omega)
  | @puts pos data done outcome j c reply reply' sys sys' here child got first second =>
      exact inv.release here (place_put_remove first second) _
  | @other t j b m reply sys stepped =>
      refine inv.same (fun _ => rfl) fun i x => ?_
      change ((s.setCell j b sys).cell i x).place none = _
      rw [cell_setCell]
      split
      case isTrue same =>
        rw [same.1, same.2]
        exact place_other stepped
      case isFalse => rfl
  | @refs e j c c' child => exact inv.same (isSome_setChild child c') fun _ _ => rfl
  | @attach j usageCount free none_ =>
      refine inv.reslot free (fun i attached => ?_) fun i b => ?_
      · by_cases same : i = j
        · omega
        · have old : (s.child i).isSome = true := Function.update_of_ne same _ s.child ▸ attached
          have below := inv.slots i old
          omega
      · rw [Function.update_apply]
        split
        · exact .inr rfl
        · exact .inl rfl
  | @detach j free =>
      refine inv.reslot free (fun i attached => ?_) fun i b => .inl rfl
      have other : i ≠ j := by
        rintro rfl
        have gone : (Function.update s.child i none i).isSome = true := attached
        rw [Function.update_self] at gone
        cases gone
      have old : (s.child i).isSome = true := Function.update_of_ne other _ s.child ▸ attached
      have below := inv.slots i old
      split
      case isTrue last => exact lt_lastAttached (by omega) attached
      case isFalse => exact below

theorem inv_run {events : List (Event τ)}
    (run : Run State.step (fun _ _ => True) init events s) : Inv s :=
  run.invariant (fun _ _ _ _ inv _ taken => inv_takes inv (takes_of_step taken)) inv_init

end Steps

/-! ## The entries of the active maps -/

section Guards

variable {τ : Type*} [DecidableEq τ] [Fintype τ] {s s' : State τ} {e : Event τ}

/-- The other threads keep to the rules of the active map. -/
def CarefulOthers (s : State τ) (e : Event τ) : Prop :=
  ∀ t j b m, e = .other t j b m → ActiveMap.Careful (s.cell j b) (some t, m)

instance (s : State τ) (e : Event τ) : Decidable (CarefulOthers s e) :=
  match e with
  | .other t j b m =>
      decidable_of_iff (ActiveMap.Careful (s.cell j b) (some t, m))
        ⟨by rintro careful _ _ _ _ ⟨⟩; exact careful, fun careful => careful t j b m rfl⟩
  | .call _ _ | .signal | .enter | .slot _ | .wake | .page _ | .release | .openChild _
  | .closeChild _ | .getInode _ | .putInode _ | .attach _ _ | .detach _ => isTrue nofun

/-- The entries sum up the threads. -/
def Sound (s : State τ) : Prop := ∀ j b, ActiveMap.Sound (s.cell j b)

omit [DecidableEq τ] in
theorem Sound.setCell (sound : Sound s) (j b : Nat) {sys : ActiveMap.System (Option τ)}
    (new : ActiveMap.Sound sys) : Sound (s.setCell j b sys) := by
  intro i x
  rw [cell_setCell]
  split
  · exact new
  · exact sound i x

omit [DecidableEq τ] in
theorem Sound.granted (sound : Sound s) (j b : Nat) (next : Call)
    {sys : ActiveMap.System (Option τ)} (new : ActiveMap.Sound sys) :
    Sound (s.granted j b next sys) := by
  unfold State.granted
  split
  · exact sound.setCell j b new
  · exact sound.setCell j b new

omit [DecidableEq τ] [Fintype τ] in
/-- The writer makes no copier's test. -/
theorem careful_writer {sys : ActiveMap.System (Option τ)} {m : ActiveMap.Move}
    (moves : m = .get .copyingExcl true ∨ m = .wake ∨ m = .put ∨ m = .remove)
    (waits : m = .wake → sys.place none ≠ .waiting .copying) :
    ActiveMap.Careful sys (none, m) := by
  refine ⟨fun pt failed => ?_, fun tests => ?_⟩
  · dsimp only at failed
    subst failed
    simp at moves
  · rcases tests with ⟨_, memory, asked⟩ | ⟨waiting, woken⟩
    · dsimp only at asked
      subst asked
      simp at moves
    · exact absurd waiting (waits woken)

omit [Fintype τ] in
/-- Memory is only asked for where there is no entry. -/
theorem get_memory {sys : ActiveMap.System (Option τ)} {memory : Bool}
    (needed : sys.shared.isNone = true → memory = true) :
    ActiveMap.step sys (none, .get .copyingExcl memory) =
      ActiveMap.step sys (none, .get .copyingExcl true) := by
  cases entry : sys.shared with
  | none => rw [needed (by rw [entry]; rfl)]
  | some e =>
      unfold ActiveMap.step Threads.step
      rw [entry]
      cases sys.place none <;> rfl

theorem sound_takes (inv : Inv s) (sound : Sound s) (careful : CarefulOthers s e)
    (taken : Takes s e s') : Sound s' := by
  cases taken with
  | call | signal | enter | inside | empty | unused | noMemory | beginFailed | page | leaves
  | endsEmpty | refs | detach => exact sound
  | @gets pos data done j memory c reply sys here _ _ needed stepped =>
      rw [get_memory needed] at stepped
      have noted : Sound (s.note j 0 c.usageCount) := sound
      exact noted.granted j 0 _
        (ActiveMap.sound_step (sound j 0) (careful_writer (.inl rfl) nofun) stepped)
  | @wakes pos data done j reply sys here stepped =>
      refine sound.granted j 0 _ (ActiveMap.sound_step (sound j 0) ?_ stepped)
      refine careful_writer (.inr (.inl rfl)) fun _ waiting => ?_
      cases (inv.waits j _ waiting).1
  | @puts pos data done outcome j c reply reply' sys sys' here child got first second =>
      have put := ActiveMap.sound_step (sound j 0)
        (careful_writer (.inr (.inr (.inl rfl))) nofun) first
      have removed := ActiveMap.sound_step put
        (careful_writer (.inr (.inr (.inr rfl))) nofun) second
      exact sound.setCell j 0 removed
  | @other t j b m reply sys stepped =>
      exact sound.setCell j b (ActiveMap.sound_step (sound j b) (careful t j b m rfl) stepped)
  | @attach j usageCount free none_ =>
      intro i b
      dsimp only
      rw [Function.update_apply]
      split
      · exact ActiveMap.sound_init
      · exact sound i b

theorem sound_run {events : List (Event τ)} (run : Run State.step CarefulOthers init events s) :
    Sound s := by
  have both : Inv s ∧ Sound s := by
    refine run.invariant (P := fun s => Inv s ∧ Sound s) ?_
      ⟨inv_init, fun _ _ => ActiveMap.sound_init⟩
    rintro s e r s' ⟨inv, sound⟩ careful taken
    have taken := takes_of_step taken
    exact ⟨inv_takes inv taken, sound_takes inv sound careful taken⟩
  exact both.2

/-- The writer holds the entry of a block for every open child. -/
def Guards (s : State τ) (b : Nat) : Prop :=
  ∀ j c, s.child j = some c → 0 < c.opens → (s.cell j b).place none = .holding .copyingExcl

/-- No other thread holds the entry of a block of an open child. -/
def Alone (s : State τ) (b : Nat) : Prop :=
  ∀ j c, s.child j = some c → 0 < c.opens → ∀ t pt, (s.cell j b).place (some t) ≠ .holding pt

/-- While the page at `pos` is written, the barrier guards its block exactly when that is
block `0` and every open child had more than one reference when the barrier came to it and
the memory for its entry, or the entry was left over from an earlier call. A guarded block is
written alone. -/
theorem read_barrier_guards_iff {events : List (Event τ)} {pos done : Nat} {data : List UInt8}
    (run : Run State.step (fun _ _ => True) init events s)
    (inside : s.call = .inside pos data done) :
    (Guards s (pos / pageSize) ↔ ∀ j c, s.child j = some c → 0 < c.opens →
      pos < pageSize ∧ (s.leftOver j = true ∨ 1 < s.count j ∧ s.allocated j = true)) ∧
    (Run State.step CarefulOthers init events s → Guards s (pos / pageSize) →
      Alone s (pos / pageSize)) := by
  have inv := inv_run run
  have first : pos < pageSize → pos / pageSize = 0 := Nat.div_eq_of_lt
  have held (j : Nat) (c : ChildRef) (child : s.child j = some c) :=
    inv.held j (by rw [inside]; rfl) (by rw [child]; rfl)
  refine ⟨⟨fun guards j c child opened => ?_, fun reached j c child opened => ?_⟩,
    fun careful guards j c child opened t pt holds => ?_⟩
  · have holding := guards j c child opened
    have zero : pos / pageSize = 0 := by
      by_contra other
      rw [inv.away j _ other] at holding
      cases holding
    rw [zero] at holding
    exact ⟨Nat.lt_of_div_eq_zero (by decide) zero, (held j c child).mp holding⟩
  · obtain ⟨small, why⟩ := reached j c child opened
    rw [first small]
    exact (held j c child).mpr why
  · have exclusive := (sound_run careful j (pos / pageSize)).exclusive
    have same := exclusive.alone none (some t) pt (guards j c child opened) holds
    cases same

/-- A child that is open and has two references, and a write to the first page. A reader of
the block waits. -/
theorem read_barrier_guards_first_page :
    ∃ s : State (Fin 1), s.call = .inside 0 [7] 0 ∧ s.child 0 = some ⟨2, 1⟩ ∧
      (s.cell 0 0).place (some 0) = .waiting .reading ∧ Guards s 0 ∧ Alone s 0 := by
  have computed : ((Run.exec State.step (fun s e => decide (CarefulOthers s e)) init
      [.attach 0 2, .openChild 0, .call 0 [7], .enter, .slot true, .slot true,
        .other (0 : Fin 1) 0 0 (.get .reading true)]).any fun s => decide
        (s.call = .inside 0 [7] 0 ∧ s.slots = 1 ∧ s.child 0 = some ⟨2, 1⟩ ∧ s.count 0 = 2 ∧
          s.allocated 0 = true ∧ (s.cell 0 0).place (some 0) = .waiting .reading)) = true := by
    decide +kernel
  obtain ⟨s, careful, last⟩ := Run.exists_of_exec (fun _ _ _ => of_decide_eq_true) computed
  obtain ⟨inside, slots, child, count, allocated, waits⟩ := of_decide_eq_true last
  have run := careful.imp fun _ _ _ => trivial
  obtain ⟨guards_iff, alone⟩ := read_barrier_guards_iff run inside
  have guards : Guards s 0 := by
    refine guards_iff.mpr fun j c here _ => ⟨by decide, .inr ?_⟩
    have below := (inv_run run).slots j (by rw [here]; rfl)
    obtain rfl : j = 0 := by omega
    exact ⟨by omega, allocated⟩
  exact ⟨s, inside, child, waits, guards, alone careful guards⟩

/-- The same child, and a write to the second page: the entry of the first block is held, and
a reader is at the block that is written. -/
theorem read_barrier_misses_second_page :
    ∃ (events : List (Event (Fin 1))) (s : State (Fin 1)),
      Run State.step CarefulOthers init events s ∧ s.call = .inside pageSize [7] 0 ∧
      s.child 0 = some ⟨2, 1⟩ ∧ (s.cell 0 0).place none = .holding .copyingExcl ∧
      (s.cell 0 1).place none = .idle ∧ (s.cell 0 1).place (some 0) = .holding .reading := by
  refine ⟨[.attach 0 2, .openChild 0, .call pageSize [7], .enter, .slot true, .slot true,
    .other 0 0 1 (.get .reading true)], ?_⟩
  exact Run.exists_imp (fun s e => decide (CarefulOthers s e)) (fun _ _ _ => of_decide_eq_true)
    (by decide +kernel) fun _ _ shown => shown

end Guards

/-! ## What is given back -/

section Release

variable {τ : Type*} [DecidableEq τ] {s s' : State τ} {e : Event τ}

/-- Whether the barrier has an entry of a slot. -/
def State.took (s : State τ) (j : Nat) : Bool :=
  s.call.passed j && (s.child j).isSome && s.uncopied j

/-- What is taken and not given back is what the call has at hand. -/
structure Balanced (s : State τ) : Prop where
  lock : s.downs = s.ups + s.call.inBarrier.toNat
  entries : ∀ j, s.gets j = s.puts j + (s.took j).toNat

/-- Between two calls everything is given back, as often as it was taken. -/
def Released (s : State τ) : Prop :=
  s.call = .idle → s.ups = s.downs ∧ ∀ j, s.puts j = s.gets j

/-- `write_begin` does not fail. -/
def BeginSucceeds (_ : State τ) (e : Event τ) : Prop := e ≠ .page .beginFailed

omit [DecidableEq τ] in
theorem balanced_init : Balanced (init : State τ) := ⟨rfl, fun _ => rfl⟩

omit [DecidableEq τ] in
theorem Balanced.released (balanced : Balanced s) : Released s := by
  intro idle
  have lock := balanced.lock
  have entries := balanced.entries
  unfold State.took at entries
  rw [idle] at lock entries
  exact ⟨lock.symm, fun j => (entries j).symm⟩

omit [DecidableEq τ] in
theorem Balanced.outside (balanced : Balanced s) (free : s.downs = s.ups) (j : Nat) :
    s.call.passed j = false := by
  rw [← Bool.not_eq_true]
  intro passed
  have lock := balanced.lock
  rw [Call.inBarrier_of_passed passed, Bool.toNat_true] at lock
  omega

omit [DecidableEq τ] in
/-- The entries at hand are the same after a step. -/
theorem Balanced.same (balanced : Balanced s) (lock : s'.downs = s'.ups + s'.call.inBarrier.toNat)
    (gets : s'.gets = s.gets) (puts : s'.puts = s.puts) (took : ∀ j, s'.took j = s.took j) :
    Balanced s' := by
  refine ⟨lock, fun j => ?_⟩
  rw [gets, puts, took]
  exact balanced.entries j

theorem Call.passed_begins_succ {pos done i j : Nat} {data : List UInt8} (other : i ≠ j) :
    (Call.begins pos data done (j + 1)).passed i = (Call.begins pos data done j).passed i :=
  decide_eq_decide.mpr (by omega)

theorem Call.passed_ends_succ {pos done i j : Nat} {data : List UInt8} {outcome : PageOutcome}
    (other : i ≠ j) :
    (Call.ends pos data done outcome (j + 1)).passed i =
      (Call.ends pos data done outcome j).passed i :=
  decide_eq_decide.mpr (by omega)

omit [DecidableEq τ] in
/-- Whether the barrier has an entry only depends on where the call is at slots with one. -/
theorem took_congr {j : Nat} (child : (s'.child j).isSome = (s.child j).isSome)
    (uncopied : s'.uncopied j = s.uncopied j)
    (passed : (s.child j).isSome = true → s.uncopied j = true →
      s'.call.passed j = s.call.passed j) : s'.took j = s.took j := by
  unfold State.took
  rw [child, uncopied]
  cases attached : (s.child j).isSome with
  | false => rw [Bool.and_false, Bool.and_false]
  | true =>
      cases got : s.uncopied j with
      | false => rw [Bool.and_false, Bool.and_false]
      | true => rw [passed attached got]

omit [DecidableEq τ] in
theorem took_begins {pos done j : Nat} {data : List UInt8}
    (here : s.call = .begins pos data done j) : s.took j = false := by
  unfold State.took
  rw [here]
  simp [Call.passed]

omit [DecidableEq τ] in
theorem Balanced.skip (balanced : Balanced s) {pos done j : Nat} {data : List UInt8}
    (allocated : Nat → Bool) (here : s.call = .begins pos data done j) :
    Balanced { s.skip j (.begins pos data done (j + 1)) with allocated := allocated } := by
  have lock := balanced.lock
  rw [here] at lock
  refine balanced.same lock rfl rfl fun i => ?_
  by_cases same : i = j
  · rw [same, took_begins here]
    unfold State.took State.skip
    dsimp only
    rw [Function.update_self, Bool.and_false]
  · refine took_congr rfl (Function.update_of_ne same ..) fun _ _ => ?_
    rw [here]
    exact Call.passed_begins_succ same

omit [DecidableEq τ] in
theorem Balanced.granted (balanced : Balanced s) {pos done j : Nat} {data : List UInt8}
    {sys : ActiveMap.System (Option τ)} (here : s.call = .begins pos data done j)
    (attached : (s.child j).isSome = true) :
    Balanced (s.granted j 0 (.begins pos data done (j + 1)) sys) := by
  have lock := balanced.lock
  unfold State.granted
  split
  case isFalse => exact balanced.same lock rfl rfl fun _ => rfl
  case isTrue =>
    rw [here] at lock
    refine ⟨lock, fun i => ?_⟩
    have entries := balanced.entries i
    by_cases same : i = j
    · subst same
      rw [took_begins here, Bool.toNat_false] at entries
      have present : ((s.setCell i 0 sys).child i).isSome = true := attached
      unfold State.took
      dsimp only
      rw [Function.update_self, Function.update_self, present]
      simp only [Call.passed, Nat.lt_add_one, decide_true, Bool.and_self, Bool.toNat_true]
      exact congrArg (· + 1) entries
    · dsimp only
      rw [Function.update_of_ne same]
      refine entries.trans (congrArg (s.puts i + Bool.toNat ·) (Eq.symm ?_))
      refine took_congr rfl (Function.update_of_ne same ..) fun _ _ => ?_
      rw [here]
      exact Call.passed_begins_succ same

theorem balanced_takes (inv : Inv s) (balanced : Balanced s) (succeeds : BeginSucceeds s e)
    (taken : Takes s e s') : Balanced s' := by
  have lock := balanced.lock
  have noted (j n : Nat) : Balanced (s.note j 0 n) := ⟨lock, balanced.entries⟩
  cases taken with
  | call here | signal here =>
      rw [here] at lock
      refine balanced.same lock rfl rfl fun j => took_congr rfl rfl fun _ _ => ?_
      rw [here]
      rfl
  | enter here =>
      rw [here] at lock
      refine balanced.same (congrArg (· + 1) lock) rfl rfl fun j => took_congr rfl rfl fun _ _ => ?_
      rw [here]
      exact decide_eq_false (Nat.not_lt_zero j)
  | @inside pos data done j _ here past =>
      rw [here] at lock
      refine balanced.same lock rfl rfl fun i => took_congr rfl rfl fun attached _ => ?_
      have below := inv.slots i attached
      rw [here]
      exact (decide_eq_true (by omega)).symm
  | @empty pos data done j _ here none_ =>
      rw [here] at lock
      refine balanced.same lock rfl rfl fun i => took_congr rfl rfl fun attached _ => ?_
      rw [here]
      exact Call.passed_begins_succ (ne_of_attached attached none_)
  | unused here => exact (noted _ _).skip _ here
  | noMemory here => exact (noted _ _).skip _ here
  | @gets pos data done j memory c reply sys here child =>
      have attached : (s.child j).isSome = true := by rw [child]; rfl
      exact (noted _ _).granted here attached
  | wakes here stepped =>
      obtain ⟨pt, waiting, _⟩ := place_wake stepped
      obtain ⟨_, _, attached, _⟩ := inv.waits _ pt waiting
      exact balanced.granted here attached
  | beginFailed here => exact absurd rfl succeeds
  | page here _ =>
      rw [here] at lock
      refine balanced.same lock rfl rfl fun j => took_congr rfl rfl fun _ _ => ?_
      rw [here]
      exact decide_eq_true (Nat.zero_le j)
  | @leaves pos data done outcome j here past =>
      rw [here] at lock
      -- every slot of a child is behind
      have behind (i : Nat) (attached : (s.child i).isSome = true) : s.call.passed i = false := by
        have below := inv.slots i attached
        rw [here]
        exact decide_eq_false (by omega)
      unfold State.leave
      dsimp only
      split
      · exact balanced.same lock rfl rfl fun i => took_congr rfl rfl fun attached _ =>
          (behind i attached).symm
      · exact balanced.same lock rfl rfl fun i => took_congr rfl rfl fun attached _ =>
          (behind i attached).symm
  | @endsEmpty pos data done outcome j here none_ =>
      rw [here] at lock
      refine balanced.same lock rfl rfl fun i => took_congr rfl rfl fun attached got => ?_
      have other : i ≠ j := by
        rintro rfl
        rw [none_ attached] at got
        cases got
      rw [here]
      exact Call.passed_ends_succ other
  | @puts pos data done outcome j c reply reply' sys sys' here child got first second =>
      rw [here] at lock
      refine ⟨lock, fun i => ?_⟩
      have entries := balanced.entries i
      by_cases same : i = j
      · subst same
        have before : s.took i = true := by
          unfold State.took
          rw [here, child, got]
          simp [Call.passed]
        have after : (Call.ends pos data done outcome (i + 1)).passed i = false :=
          decide_eq_false (Nat.not_succ_le_self i)
        unfold State.took
        dsimp only
        rw [Function.update_self, after, Bool.false_and, Bool.false_and]
        rw [before] at entries
        exact entries
      · dsimp only
        rw [Function.update_of_ne same]
        refine entries.trans (congrArg (s.puts i + Bool.toNat ·) (Eq.symm ?_))
        refine took_congr rfl rfl fun _ _ => ?_
        rw [here]
        exact Call.passed_ends_succ same
  | @other t j b m reply sys stepped => exact balanced.same lock rfl rfl fun _ => rfl
  | @refs e j c c' child =>
      exact balanced.same lock rfl rfl fun i =>
        took_congr (isSome_setChild child c' i) rfl fun _ _ => rfl
  | attach free | detach free =>
      refine balanced.same lock rfl rfl fun i => ?_
      unfold State.took
      change (s.call.passed i && _ && _) = _
      rw [balanced.outside free i]
      rfl

/-- Whatever the outcomes of the pages, what the barrier takes is given back as often as it was
taken by the time every call returns, exactly in the runs in which `write_begin` does not fail
inside the barrier. -/
theorem barrier_released_iff {events : List (Event τ)} :
    Run State.step (fun s _ => Released s) init events s ∧ Released s ↔
      Run State.step BeginSucceeds init events s := by
  refine Run.exact_iff (Q := fun s => Inv s ∧ Balanced s) ?_ ?_ ⟨inv_init, balanced_init⟩
    balanced_init.released
  · rintro s e r s' ⟨inv, balanced⟩ _ succeeds taken
    have taken := takes_of_step taken
    exact ⟨inv_takes inv taken, balanced_takes inv balanced succeeds taken⟩
  · rintro s e r s' ⟨inv, balanced⟩ _ taken
    have taken := takes_of_step taken
    refine ⟨fun released failed => ?_, fun succeeds =>
      (balanced_takes inv balanced succeeds taken).released⟩
    -- the lock is still held when the call returns
    subst failed
    have lock := balanced.lock
    cases taken with
    | beginFailed here =>
        rw [here] at lock
        have free := (released rfl).1
        dsimp only at free
        rw [free] at lock
        exact Nat.succ_ne_self _ lock.symm
    | page here other => exact other rfl
    | refs _ noPage => exact noPage _ rfl

/-- `write_begin` fails while the barrier holds the entry of a child. -/
theorem barrier_kept_after_write_begin_fails :
    ∃ (events : List (Event (Fin 1))) (s : State (Fin 1)),
      Run State.step (fun _ _ => True) init events s ∧ s.call = .idle ∧ s.downs = 1 ∧ s.ups = 0 ∧
      s.gets 0 = 1 ∧ s.puts 0 = 0 ∧ (s.cell 0 0).place none = .holding .copyingExcl := by
  refine ⟨[.attach 0 2, .openChild 0, .call 0 [7], .enter, .slot true, .slot true,
    .page .beginFailed], ?_⟩
  exact Run.exists_imp (fun _ _ => true) (fun _ _ _ _ => trivial) (by decide +kernel)
    fun _ _ shown => shown

end Release

end FlexClone.Scorw.Barrier
