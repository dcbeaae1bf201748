import FlexClone.LinkedList

/-!
# A pass over the pending requests

`scorw_process_pending_frnd_version_cnt_inc_list` goes through the requests to raise the
version of a friend, in a linked list that it changes on the way: a request is deleted and
freed, or moved to the end of the list with the number of the pass in its `iter_id`, and the
loop ends at a request with that number. The pass holds `frnd_version_cnt_lock`, so that no
request is added, but the lock of a child only while it looks at its request: in between,
other threads open, write, close and commit children.

* `pending_pass_iff`: the pass comes to its end, has examined every request once, in their
  order, has removed those whose child is open or whose counters it brought together, and has
  left the others in their order with its number, exactly when for every child that it finds
  closed, clean and committed, the version can be read and is in the friend afterwards.
-/

namespace FlexClone.Scorw.PendingPass

open LinkedList

variable {α ι : Type*} [DecidableEq α] [DecidableEq ι]

/-- `struct pending_frnd_version_cnt_inc`, without its links. -/
structure Request (ι : Type*) where
  child : ι
  frnd : ι
  iterId : UInt64
  deriving DecidableEq

/-- `struct inode` of a child or a friend. -/
structure Inode where
  /-- there is an `i_scorw_inode` -/
  attached : Bool
  dirty : Bool
  /-- the attribute `v`, 0 when it is missing or cannot be read -/
  version : UInt64
  cannotUpdateChildVersionCnt : Bool
  canSyncFrnd : Int
  deriving DecidableEq

/-- What the pass does not determine in one turn: what other threads have done to the inodes
since the last one, whether the friend's attribute is stored, and whether `write_inode_now`
leaves the inodes dirty. -/
structure Turn (ι : Type*) where
  others : (ι → Inode) → ι → Inode
  stored : Bool
  childDirty : Bool
  frndDirty : Bool

/-- The requests at their addresses `α` and the inodes. `examined` is not in the program: it is
the requests that the pass has worked on. -/
structure State (α ι : Type*) where
  links : Links α
  /-- `none` is freed -/
  request : α → Option (Request ι)
  inode : ι → Inode
  /-- the static `iter_id` -/
  iterId : UInt64
  examined : List α

/-- The friend gets the child's version and the flags are reset. -/
def syncFrnd (inode : ι → Inode) (r : Request ι) (t : Turn ι) : ι → Inode :=
  let v := if t.stored then (inode r.child).version else (inode r.frnd).version
  let inode := Function.update inode r.frnd
    { inode r.frnd with version := v, dirty := t.frndDirty }
  let inode := Function.update inode r.child
    { inode r.child with cannotUpdateChildVersionCnt := false }
  Function.update inode r.frnd { inode r.frnd with canSyncFrnd := -1 }

namespace State

/-- `scorw_remove_pending_frnd_version_cnt_inc_list` and `kfree` -/
def remove (s : State α ι) (a : α) : Option (State α ι) :=
  (s.links.del a).map fun links =>
    { s with links := links, request := Function.update s.request a none }

/-- `scorw_remove_pending_frnd_version_cnt_inc_list` and
`scorw_add_pending_frnd_version_cnt_inc_list` -/
def requeue (s : State α ι) (a : α) : Option (State α ι) :=
  (s.links.del a).bind fun links =>
    (links.addTail a).map fun links => { s with links := links }

/-- The friend's version is updated, or `BUG_ON`. -/
def updateFrnd (s : State α ι) (r : Request ι) (t : Turn ι) : Option (State α ι) :=
  if (s.inode r.child).version = 0 then none
  else some { s with inode := syncFrnd s.inode r t }

/-- `write_inode_now` of a dirty child -/
def syncChild (s : State α ι) (r : Request ι) (t : Turn ι) : State α ι :=
  if (s.inode r.child).dirty then
    let written := { s.inode r.child with dirty := t.childDirty }
    { s with inode := Function.update s.inode r.child written }
  else s

/-- What is done with a request under the lock of its child, or `BUG_ON`. -/
def process (s : State α ι) (sync : Bool) (a : α) (r : Request ι) (t : Turn ι) :
    Option (State α ι) :=
  if sync then
    if (s.inode r.child).attached then none
    else (s.remove a).bind fun s => (s.syncChild r t).updateFrnd r t
  else if (s.inode r.child).attached then s.remove a
  else if (s.inode r.child).dirty || decide ((s.inode r.frnd).canSyncFrnd ≠ 1) then s.requeue a
  else (s.remove a).bind fun s => s.updateFrnd r t

/-- The body of the loop. -/
def examine (env : Nat → Turn ι) (sync : Bool) (a : α) (s : State α ι) :
    Option (Bool × State α ι) :=
  (s.request a).bind fun r =>
    if r.iterId = s.iterId then some (false, s)
    else
      let t := env s.examined.length
      (process
        { s with
          request := Function.update s.request a (some { r with iterId := s.iterId })
          inode := t.others s.inode
          examined := s.examined ++ [a] } sync a r t).map fun s => (true, s)

/-- `scorw_process_pending_frnd_version_cnt_inc_list` returns with a state. -/
def Passes (env : Nat → Turn ι) (sync : Bool) (s s' : State α ι) : Prop :=
  ∃ t, Traverses links (examine env sync) s (some t) ∧ s' = { t with iterId := t.iterId + 1 }

end State

/-! ## What a pass should do -/

/-- The child is closed and on disk, and its version is committed. -/
def isDue (inode : ι → Inode) (r : Request ι) : Bool :=
  !(inode r.child).attached && !(inode r.child).dirty &&
    decide ((inode r.frnd).canSyncFrnd = 1)

/-- The child is closed, but has to be waited for. -/
def isEarly (inode : ι → Inode) (r : Request ι) : Bool :=
  !(inode r.child).attached &&
    ((inode r.child).dirty || decide ((inode r.frnd).canSyncFrnd ≠ 1))

/-- The inodes after the turn of a request. -/
def leaves (t : Turn ι) (inode : ι → Inode) (r : Request ι) : ι → Inode :=
  if isDue inode r then syncFrnd inode r t else inode

/-- The requests in turn, with the inodes at that time. -/
def seen (env : Nat → Turn ι) (req : α → Request ι) : Nat → (ι → Inode) → List α →
    List (α × (ι → Inode))
  | _, _, [] => []
  | n, inode, a :: as =>
      let now := (env n).others inode
      (a, now) :: seen env req (n + 1) (leaves (env n) now (req a)) as

/-- The pass has brought the counters of a child and its friend together. -/
def BroughtTogether (t : Turn ι) (inode : ι → Inode) (r : Request ι) : Prop :=
  isDue inode r = true ∧ (leaves t inode r r.frnd).version = (inode r.child).version

/-- The child's version can be read, and the friend has it or gets it. -/
def CanUpdate (t : Turn ι) (inode : ι → Inode) (r : Request ι) : Prop :=
  (inode r.child).version ≠ 0 ∧
    (t.stored = true ∨ (inode r.frnd).version = (inode r.child).version)

/-- The requests that have to wait. -/
def early (req : α → Request ι) (turns : List (α × (ι → Inode))) : List α :=
  (turns.filter fun turn => isEarly turn.2 (req turn.1)).map Prod.fst

theorem version_syncFrnd (inode : ι → Inode) (r : Request ι) (t : Turn ι) :
    (syncFrnd inode r t r.frnd).version =
      if t.stored then (inode r.child).version else (inode r.frnd).version := by
  by_cases same : r.frnd = r.child
  · simp [syncFrnd, same]
  · simp [syncFrnd, same]

theorem broughtTogether_iff {t : Turn ι} {inode : ι → Inode} {r : Request ι} :
    BroughtTogether t inode r ↔ isDue inode r = true ∧
      (t.stored = true ∨ (inode r.frnd).version = (inode r.child).version) := by
  refine and_congr_right fun due => ?_
  rw [leaves, if_pos due, version_syncFrnd]
  cases t.stored with
  | true => simp
  | false => simp

/-! ## One turn -/

section Pass

variable (env : Nat → Turn ι) {req : α → Request ι} {id : UInt64} {todo done : List α} {a : α}
  {s s' : State α ι}

/-- The list while the pass has still to come to `todo`, and has moved `done` behind it. -/
structure Queue (req : α → Request ι) (id : UInt64) (todo done : List α) (s : State α ι) :
    Prop where
  holds : s.links.Holds (todo ++ done)
  number : s.iterId = id
  waiting : ∀ a ∈ todo, s.request a = some (req a) ∧ (req a).iterId ≠ id
  moved : ∀ a ∈ done, s.request a = some { req a with iterId := id }

omit [DecidableEq α] [DecidableEq ι] in
theorem isEarly_or_isDue (inode : ι → Inode) (r : Request ι) :
    (inode r.child).attached = true ∧ isEarly inode r = false ∧ isDue inode r = false ∨
      (inode r.child).attached = false ∧ isEarly inode r = true ∧ isDue inode r = false ∨
      (inode r.child).attached = false ∧ isEarly inode r = false ∧ isDue inode r = true := by
  unfold isEarly isDue
  cases (inode r.child).attached <;> cases (inode r.child).dirty <;>
    by_cases sync : (inode r.frnd).canSyncFrnd = 1 <;> simp [sync]

omit [DecidableEq α] [DecidableEq ι] in
theorem Queue.notMem (queue : Queue req id (a :: todo) done s) : a ∉ todo ∧ a ∉ done := by
  have nodup := queue.holds.nodup
  rw [List.cons_append, List.nodup_cons, List.mem_append, not_or] at nodup
  exact nodup.1

omit [DecidableEq α] [DecidableEq ι] in
/-- The first request is gone. -/
theorem Queue.tail (queue : Queue req id (a :: todo) done s)
    (holds : s'.links.Holds (todo ++ done)) (number : s'.iterId = s.iterId)
    (same : ∀ b, b ≠ a → s'.request b = s.request b) : Queue req id todo done s' := by
  obtain ⟨ahead, behind⟩ := queue.notMem
  refine ⟨holds, number.trans queue.number, fun b member => ?_, fun b member => ?_⟩
  · rw [same b fun here => ahead (here ▸ member)]
    exact queue.waiting b (List.mem_cons_of_mem a member)
  · rw [same b fun here => behind (here ▸ member)]
    exact queue.moved b member

omit [DecidableEq α] [DecidableEq ι] in
/-- The first request is the last one now. -/
theorem Queue.rotate (queue : Queue req id (a :: todo) done s)
    (holds : s'.links.Holds (todo ++ done ++ [a])) (number : s'.iterId = s.iterId)
    (same : ∀ b, b ≠ a → s'.request b = s.request b)
    (here : s'.request a = some { req a with iterId := id }) :
    Queue req id todo (done ++ [a]) s' := by
  obtain ⟨ahead, behind⟩ := queue.notMem
  refine ⟨by rwa [← List.append_assoc], number.trans queue.number, fun b member => ?_,
    fun b member => ?_⟩
  · rw [same b fun here => ahead (here ▸ member)]
    exact queue.waiting b (List.mem_cons_of_mem a member)
  · rcases List.mem_append.mp member with old | new
    · rw [same b fun here => behind (here ▸ old)]
      exact queue.moved b old
    · rw [List.mem_singleton.mp new]
      exact here

/-- What a turn does with the first request. -/
theorem examine_cases (queue : Queue req id (a :: todo) done s) :
    let t := env s.examined.length
    let now := t.others s.inode
    isDue now (req a) = true ∧ (now (req a).child).version = 0 ∧
        State.examine env false a s = none ∨
      ∃ s', State.examine env false a s = some (true, s') ∧
        (isDue now (req a) = true → (now (req a).child).version ≠ 0) ∧
        s'.inode = leaves t now (req a) ∧ s'.examined = s.examined ++ [a] ∧
        (∀ b, b ≠ a → s'.request b = s.request b) ∧
        if isEarly now (req a) then Queue req id todo (done ++ [a]) s'
        else Queue req id todo done s' ∧ s'.request a = none := by
  intro t now
  obtain ⟨here, other⟩ := queue.waiting a List.mem_cons_self
  rw [← queue.number] at other
  obtain ⟨links, deleted, left⟩ := Links.holds_del queue.holds
  obtain ⟨links', added, moved⟩ := Links.holds_addTail left
    (mt List.mem_append.mp (not_or.mpr queue.notMem))
  have same : ∀ (f : Option (Request ι)) b, b ≠ a →
      Function.update s.request a f b = s.request b := fun f b other =>
    Function.update_of_ne other _ _
  simp only [State.examine, here, Option.bind_some, if_neg other, State.process,
    Bool.false_eq_true, if_false]
  rcases isEarly_or_isDue now (req a) with
    ⟨attached, notEarly, notDue⟩ | ⟨closed, wait, notDue⟩ | ⟨closed, notEarly, due⟩
  · refine .inr ⟨_, by rw [if_pos attached, State.remove, deleted]; rfl, ?_, ?_, rfl, ?_, ?_⟩
    · rw [notDue]
      exact nofun
    · rw [leaves, notDue]
      rfl
    · intro b apart
      simp [apart]
    · rw [notEarly, if_neg (by simp)]
      exact ⟨queue.tail left rfl fun b apart => by simp [apart], Function.update_self ..⟩
  · have waits : ((now (req a).child).dirty ||
        decide ((now (req a).frnd).canSyncFrnd ≠ 1)) = true := by
      simpa [isEarly, closed] using wait
    refine .inr ⟨_, by
      rw [if_neg (by simpa using closed), if_pos waits, State.requeue, deleted, Option.bind_some,
        added]
      rfl, ?_, ?_, rfl, ?_, ?_⟩
    · rw [notDue]
      exact nofun
    · rw [leaves, notDue]
      rfl
    · exact same _
    · rw [wait, if_pos rfl]
      refine queue.rotate moved rfl (same _) ?_
      rw [← queue.number]
      exact Function.update_self ..
  · have ready : ((now (req a).child).dirty ||
        decide ((now (req a).frnd).canSyncFrnd ≠ 1)) = false := by
      simpa [isEarly, closed] using notEarly
    by_cases unread : (now (req a).child).version = 0
    · refine .inl ⟨due, unread, ?_⟩
      rw [if_neg (by simpa using closed), if_neg (by simpa using ready), State.remove, deleted]
      simp only [Option.map_some, Option.bind_some, State.updateFrnd]
      rw [if_pos unread]
      rfl
    · refine .inr ⟨_, by
        rw [if_neg (by simpa using closed), if_neg (by simpa using ready), State.remove, deleted]
        simp only [Option.map_some, Option.bind_some, State.updateFrnd]
        rw [if_neg unread]
        rfl, fun _ => unread, ?_, rfl, ?_, ?_⟩
      · rw [leaves, due]
        rfl
      · intro b apart
        simp [apart]
      · rw [notEarly, if_neg (by simp)]
        exact ⟨queue.tail left rfl fun b apart => by simp [apart], Function.update_self ..⟩

/-! ## The whole pass -/

omit [DecidableEq α] in
theorem map_fst_seen (n : Nat) (inode : ι → Inode) (as : List α) :
    (seen env req n inode as).map Prod.fst = as := by
  induction as generalizing n inode with
  | nil => rfl
  | cons a as ih =>
      simp only [seen, List.map_cons, ih]

/-- The pass fails at a request that is due and has no version, and otherwise comes to the end
of the list. -/
theorem runAll_cases (queue : Queue req id todo done s) :
    let turns := seen env req s.examined.length s.inode todo
    (∃ turn ∈ turns, isDue turn.2 (req turn.1) = true ∧
        (turn.2 (req turn.1).child).version = 0) ∧
        runAll (State.examine env false) todo s = none ∨
      (∀ turn ∈ turns, isDue turn.2 (req turn.1) = true →
          (turn.2 (req turn.1).child).version ≠ 0) ∧
        ∃ s', runAll (State.examine env false) todo s = some s' ∧
          Queue req id [] (done ++ early req turns) s' ∧ s'.examined = s.examined ++ todo ∧
          (∀ a ∈ todo, a ∉ early req turns → s'.request a = none) ∧
          ∀ b, b ∉ todo → s'.request b = s.request b := by
  induction todo generalizing done s with
  | nil =>
      refine .inr ⟨nofun, s, rfl, ?_, (List.append_nil _).symm, nofun, fun _ _ => rfl⟩
      simpa [seen, early] using queue
  | cons a todo ih =>
      intro turns
      obtain ⟨fresh, _⟩ := queue.notMem
      rcases examine_cases env queue with
        ⟨due, unread, fails⟩ | ⟨s₁, goes, readable, inode, examined, same, next⟩
      · refine .inl ⟨⟨_, List.mem_cons_self, due, unread⟩, ?_⟩
        simp only [runAll, fails, Option.bind_none]
      · let rest := seen env req s₁.examined.length s₁.inode todo
        have turnsEq : turns = (a, (env s.examined.length).others s.inode) :: rest := by
          simp only [turns, rest, seen, inode, examined, List.length_append, List.length_singleton]
        have runEq : runAll (State.examine env false) (a :: todo) s =
            runAll (State.examine env false) todo s₁ := by
          simp only [runAll, goes, Option.bind_some]
        obtain ⟨extra, earlyEq, queue₁, kept⟩ : ∃ extra,
            early req turns = extra ++ early req rest ∧
            Queue req id todo (done ++ extra) s₁ ∧ (a ∉ extra → s₁.request a = none) := by
          split at next
          case isTrue wait =>
            refine ⟨[a], ?_, next, fun out => (out List.mem_cons_self).elim⟩
            simp only [turnsEq, early, List.filter_cons, wait, if_true]
            rfl
          case isFalse gone =>
            refine ⟨[], ?_, by rw [List.append_nil]; exact next.1, fun _ => next.2⟩
            simp only [turnsEq, early, List.filter_cons, gone]
            rfl
        rw [runEq, earlyEq, turnsEq]
        rcases ih queue₁ with
          ⟨⟨turn, member, due⟩, fails⟩ | ⟨ready, s', returns, queue', examined', none, same'⟩
        · exact .inl ⟨⟨turn, List.mem_cons_of_mem _ member, due⟩, fails⟩
        · refine .inr ⟨?_, s', returns, ?_, ?_, ?_, ?_⟩
          · intro turn member
            rcases List.mem_cons.mp member with rfl | later
            · exact readable
            · exact ready turn later
          · rwa [← List.append_assoc]
          · rw [examined', examined, List.append_assoc]
            rfl
          · intro b member out
            obtain ⟨notExtra, notRest⟩ := not_or.mp (mt List.mem_append.mpr out)
            rcases List.mem_cons.mp member with rfl | later
            · rw [same' b fresh]
              exact kept notExtra
            · exact none b later notRest
          · intro b out
            obtain ⟨other, notTodo⟩ := not_or.mp (mt List.mem_cons.mpr out)
            rw [same' b notTodo, same b other]

/-- The loop runs the body for the requests it found. -/
theorem traverses_examine_iff {l : List α} {r : Option (State α ι)} (queue : Queue req id l [] s) :
    Traverses State.links (State.examine env false) s r ↔
      runAll (State.examine env false) l s = r := by
  refine traverses_iff (I := Queue req id) (fun _ _ _ queue => queue.holds) ?_ ?_ queue
  · intro a todo done s queue
    rcases examine_cases env queue with ⟨_, _, fails⟩ | ⟨s', goes, _, _, _, _, next⟩
    · exact .inl fails
    · refine .inr ⟨s', goes, ?_⟩
      split at next
      case isTrue => exact .inr next
      case isFalse => exact .inl next.1
  · intro a done s queue
    simp only [State.examine, queue.moved a List.mem_cons_self, Option.bind_some, queue.number,
      if_true]

omit [DecidableEq α] in
/-- A request is left in the list exactly when it had to wait at its turn. -/
theorem mem_early_iff {n k : Nat} {inode now : ι → Inode} {l : List α} (nodup : l.Nodup)
    (turn : (seen env req n inode l)[k]? = some (a, now)) :
    a ∈ early req (seen env req n inode l) ↔ isEarly now (req a) = true := by
  have member := List.mem_of_getElem? turn
  constructor
  · intro early
    obtain ⟨⟨b, then_⟩, kept, rfl⟩ := List.mem_map.mp early
    obtain ⟨member', wait⟩ := List.mem_filter.mp kept
    have once : (seen env req n inode l).map Prod.fst |>.Nodup := by rwa [map_fst_seen]
    have same := List.inj_on_of_nodup_map once member' member rfl
    cases same
    exact wait
  · intro wait
    exact List.mem_map.mpr ⟨(a, now), List.mem_filter.mpr ⟨member, wait⟩, rfl⟩

end Pass

/-- A pass that does not sync the children. It returns, has examined the requests of the list
one after the other, has removed those whose child was open or whose counters it brought
together, and has left the others in their order with its number, exactly when the counters
could be brought together for every request that was due. -/
theorem pending_pass_iff (env : Nat → Turn ι) (s : State α ι) (l : List α)
    (req : α → Request ι) (holds : s.links.Holds l)
    (queued : ∀ a ∈ l, s.request a = some (req a) ∧ (req a).iterId < s.iterId)
    (start : s.examined = []) :
    (∃ s' l', s.Passes env false s' ∧ s'.iterId = s.iterId + 1 ∧ s'.examined = l ∧
        s'.links.Holds l' ∧ l'.Sublist l ∧
        (∀ a ∈ l', s'.request a = some { req a with iterId := s.iterId }) ∧
        (∀ a ∈ l, a ∉ l' → s'.request a = none) ∧
        ∀ k a now, (seen env req 0 s.inode l)[k]? = some (a, now) →
          (a ∉ l' ↔ (now (req a).child).attached = true ∨ BroughtTogether (env k) now (req a))) ↔
      ∀ k a now, (seen env req 0 s.inode l)[k]? = some (a, now) → isDue now (req a) = true →
        CanUpdate (env k) now (req a) := by
  have queue : Queue req s.iterId l [] s := by
    refine ⟨by rwa [List.append_nil], rfl, fun a member => ?_, nofun⟩
    obtain ⟨here, below⟩ := queued a member
    exact ⟨here, fun same => UInt64.lt_irrefl _ (same ▸ below)⟩
  have run := runAll_cases env queue
  simp only [start, List.length_nil, List.nil_append] at run
  constructor
  · rintro ⟨s', l', ⟨t, loop, rfl⟩, _, _, left, _, _, _, removed⟩ k a now turn due
    rcases run with ⟨_, fails⟩ | ⟨readable, t', returns, queue', _⟩
    · cases fails.symm.trans ((traverses_examine_iff env queue).mp loop)
    cases returns.symm.trans ((traverses_examine_iff env queue).mp loop)
    have rest := left.unique queue'.holds
    subst rest
    refine ⟨readable _ (List.mem_of_getElem? turn) due, ?_⟩
    have out : a ∉ [] ++ early req (seen env req 0 s.inode l) := by
      rw [List.nil_append, mem_early_iff env holds.nodup turn]
      rcases isEarly_or_isDue now (req a) with ⟨_, _, not⟩ | ⟨_, _, not⟩ | ⟨_, not, _⟩
      · simp [due] at not
      · simp [due] at not
      · simp [not]
    rcases (removed k a now turn).mp out with attached | together
    · simp [isDue, attached] at due
    · exact (broughtTogether_iff.mp together).2
  · intro ready
    rcases run with
      ⟨⟨⟨a, now⟩, member, due, unread⟩, _⟩ | ⟨_, t, returns, queue', examined, gone, _⟩
    · obtain ⟨k, turn⟩ := List.mem_iff_getElem?.mp member
      exact ((ready k a now turn due).1 unread).elim
    refine ⟨_, early req (seen env req 0 s.inode l),
      ⟨t, (traverses_examine_iff env queue).mpr returns, rfl⟩, ?_, examined, queue'.holds, ?_,
      queue'.moved, gone, fun k a now turn => ?_⟩
    · rw [← queue'.number]
    · have sublist := (List.filter_sublist (p := fun turn : α × (ι → Inode) =>
        isEarly turn.2 (req turn.1)) (l := seen env req 0 s.inode l)).map Prod.fst
      rwa [map_fst_seen] at sublist
    · rw [mem_early_iff env holds.nodup turn, broughtTogether_iff]
      rcases isEarly_or_isDue now (req a) with
        ⟨attached, notEarly, _⟩ | ⟨closed, wait, notDue⟩ | ⟨_, notEarly, due⟩
      · simp [attached, notEarly]
      · simp [closed, wait, notDue]
      · simp [notEarly, due, (ready k a now turn due).2]

/-- Requests for the children 0, 1 and 2, with the friends 3, 4 and 5: the first child is open,
the second is dirty, and the third is closed, clean and committed. -/
def threePending (version : UInt64) : State (Fin 3) Nat where
  links :=
    { next := fun
        | .head => some (.entry 0)
        | .entry 0 => some (.entry 1)
        | .entry 1 => some (.entry 2)
        | .entry 2 => some .head
      prev := fun
        | .head => some (.entry 2)
        | .entry 0 => some .head
        | .entry 1 => some (.entry 0)
        | .entry 2 => some (.entry 1) }
  request a := some { child := a, frnd := a + 3, iterId := 0 }
  inode i :=
    { attached := i == 0
      dirty := i == 1
      version := if i < 3 then version else 4
      cannotUpdateChildVersionCnt := i < 3
      canSyncFrnd := if i < 3 then -1 else 1 }
  iterId := 1
  examined := []

/-- No other thread runs, and all writes of inodes succeed. -/
def quiet (stored : Bool) (_ : Nat) : Turn Nat where
  others inode := inode
  stored := stored
  childDirty := false
  frndDirty := false

theorem pending_pass_three : ∃ s' l', (threePending 5).Passes (quiet true) false s' ∧
    s'.examined = [0, 1, 2] ∧ s'.links.Holds l' ∧ 0 ∉ l' ∧ 1 ∈ l' ∧ 2 ∉ l' := by
  have holds : (threePending 5).links.Holds [0, 1, 2] :=
    ⟨by decide, rfl, rfl, rfl, rfl, rfl, rfl, rfl, rfl⟩
  obtain ⟨s', l', passes, _, examined, left, _, _, _, removed⟩ :=
    (pending_pass_iff (quiet true) (threePending 5) [0, 1, 2]
      (fun a => { child := a, frnd := a + 3, iterId := 0 }) holds
      (fun _ _ => ⟨rfl, show (0 : UInt64) < 1 by decide⟩) rfl).mpr (by
        intro k a now turn due
        rcases k with _ | _ | _ | k
        · cases turn
          cases due
        · cases turn
          cases due
        · cases turn
          exact ⟨by decide, .inl rfl⟩
        · cases turn)
  refine ⟨s', l', passes, examined, left, (removed 0 0 _ rfl).mpr (.inl rfl), ?_,
    (removed 2 2 _ rfl).mpr (.inr ⟨rfl, rfl⟩)⟩
  by_contra out
  rcases (removed 1 1 _ rfl).mp out with attached | ⟨due, _⟩
  · cases attached
  · cases due

/-- The friend's attribute is not stored, and the request is removed all the same; and a child
without a version stops the pass. -/
theorem pending_pass_fails :
    (∃ s', (threePending 5).Passes (quiet false) false s' ∧ s'.request 2 = none ∧
      (s'.inode 2).attached = false ∧ (s'.inode 2).version = 5 ∧ (s'.inode 5).version = 4) ∧
    ∀ s', ¬ (threePending 0).Passes (quiet true) false s' := by
  constructor
  · exact ⟨_, ⟨_, ⟨_, _, rfl, rfl, 4, rfl⟩, rfl⟩, rfl, rfl, rfl, rfl⟩
  · rintro s' ⟨t, ⟨pos, tmp, first, second, fuel, result⟩, _⟩
    cases first
    cases second
    rcases fuel with _ | _ | _ | fuel
    · cases result
    · cases result
    · cases result
    · cases result

end FlexClone.Scorw.PendingPass
