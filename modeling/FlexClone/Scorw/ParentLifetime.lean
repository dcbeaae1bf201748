import FlexClone.Threads
import FlexClone.Scorw.ChildSlots

/-!
# How long the `scorw_inode` of a parent lives

`scorw_put_inode` frees the `scorw_inode` of a parent when its process usage count is 0 and as
many page copies were removed as were added. The first is counted by the threads that open and
close the parent, the others by the threads that write to it and by the page copy thread. No
lock is held over both the counting of a page copy and its way into the list, nor over its way
out and the counting. The threads run interleaved here, with these places between their moves.

A thread that has a file open need not have a reference: there was no memory for the
`scorw_inode`, or the file was not a parent yet. Closing the file puts one all the same, when
there is a `scorw_inode` by then.

* `parent_outlives_page_copies`: if such files are neither closed nor written while there is a
  `scorw_inode`, then the difference of the counters is the number of page copies in the list
  and on their way into it or out of it, none of them has a parent that is freed, and a
  `scorw_inode` is freed by the last close or the last completion, whichever comes second.
-/

namespace FlexClone.Scorw.Memory.Lifetime

/-- An open file. An open child counts as its parent here, and so does a child that is
attached already when its parent is. `counted` is not in the program: a reference was taken. -/
structure Handle where
  ino : Ino
  counted : Bool
  deriving DecidableEq

/-- Where a thread is. -/
inductive Place
  | idle
  | opened (h : Handle)
  /-- in `scorw_write_par_blocks`, after `scorw_find_inode` -/
  | found (h : Handle) (a : Addr)
  /-- in `scorw_prepare_page_copy`, after the counting -/
  | added (h : Handle) (a : Addr)
  /-- in `scorw_unprepare_page_copy`, before the put of the parent -/
  | removed (a : Addr)
  deriving DecidableEq

inductive Move
  | openFile (x : Ino) (memory : Bool)
  | releaseFile
  /-- a clone is made -/
  | setChildAttr (x : Ino) (i : Nat) (c : Ino)
  | findInode
  /-- no child needs the block -/
  | skipPageCopy
  | countPageCopy
  | addPageCopy (blk : Nat) (isTargetChild : Nat → Bool)
  /-- the page copy thread or an unmount is done with the first page copy -/
  | removePageCopy
  | putPageCopy

/-- `scorw_put_inode` of a parent. What is done with its children does not concern its
counters. -/
def putInode (s : State) (x : Ino) (isThreadPutting : Bool) : Option State :=
  (s.putPar x isThreadPutting).map fun (a, s) =>
    a.elim s fun a => { s with heap := s.heap.free a }

/-- One move of a thread. -/
def move {τ : Type*} (_ : τ) (s : State) : Place → Move → Option (Unit × Place × State)
  | .idle, .openFile x memory =>
      if s.isParFile x then
        (s.getPar x memory).map fun (_, s) =>
          ((), .opened ⟨x, (s.scorwInode x).isSome⟩, s)
      else some ((), .opened ⟨x, false⟩, s)
  | .opened h, .releaseFile => (putInode s h.ino false).map fun s => ((), .idle, s)
  | .idle, .setChildAttr x i c =>
      some ((), .idle,
        { s with childAttr :=
          Function.update s.childAttr x (Function.update (s.childAttr x) i c) })
  | .opened h, .findInode => (s.scorwInode h.ino).map fun a => ((), .found h a, s)
  | .found h _, .skipPageCopy => some ((), .opened h, s)
  | .found h a, .countPageCopy =>
      some ((), .added h a,
        s.modify a fun si => { si with addedToPageCopy := si.addedToPageCopy + 1 })
  | .added h a, .addPageCopy blk isTargetChild =>
      some ((), .opened h,
        { s with pageCopyLlist := s.pageCopyLlist ++ [⟨blk, a, isTargetChild⟩] })
  | .idle, .removePageCopy =>
      match s.pageCopyLlist with
      | [] => none
      | pc :: rest => some ((), .removed pc.par, { s with pageCopyLlist := rest })
  | .removed a, .putPageCopy =>
      (s.slots a).bind fun sl => (putInode s sl.ino true).map fun s => ((), .idle, s)
  | _, _ => none

abbrev System (τ : Type*) := Threads τ State Place

/-! ## What is counted -/

/-- The thread has a reference to the file. -/
def Place.holds (x : Ino) : Place → Bool
  | .opened h | .found h _ | .added h _ => h.counted && h.ino == x
  | .idle | .removed _ => false

/-- The thread has a page copy that is counted and not in the list. -/
def Place.isHalfway (a : Addr) : Place → Bool
  | .added _ b | .removed b => b == a
  | .idle | .opened _ | .found _ _ => false

/-- The file and the `scorw_inode` of a write. -/
def Place.writes : Place → Option (Handle × Addr)
  | .found h a | .added h a => some (h, a)
  | .idle | .opened _ | .removed _ => none

/-- The page copies of a parent. -/
def pageCopies (s : State) (a : Addr) : Nat := s.pageCopyLlist.countP fun pc => pc.par == a

section Steps

variable {τ : Type*} [DecidableEq τ]

def step (s : System τ) (act : τ × Move) : Option (Unit × System τ) :=
  Threads.step move s act.1 act.2

/-- Nothing is open. -/
def start (childAttr : Ino → Nat → Ino) (parentAttr : Ino → Ino) : System τ :=
  ⟨mounted childAttr parentAttr, fun _ => .idle⟩

/-- A file that was opened without a reference is not closed or written while it has a
`scorw_inode`. -/
def isBalanced (s : System τ) (act : τ × Move) : Bool :=
  match s.place act.1, act.2 with
  | .opened h, .releaseFile | .opened h, .findInode =>
      h.counted || (s.shared.scorwInode h.ino).isNone
  | _, _ => true

variable [Fintype τ]

def holders (s : System τ) (x : Ino) : Nat := Threads.count (fun p => p.holds x = true) s.place

def halfway (s : System τ) (a : Addr) : Nat :=
  Threads.count (fun p => p.isHalfway a = true) s.place

/-- The page copies in the list and on their way. -/
def pending (s : System τ) (a : Addr) : Nat := pageCopies s.shared a + halfway s a

/-- A close that puts the last reference of a parent without page copies. -/
def IsLastClose (s : System τ) (t : τ) (m : Move) (a : Addr) : Prop :=
  m = .releaseFile ∧ ∃ h si, s.place t = .opened h ∧ s.shared.scorwInode h.ino = some a ∧
    s.shared.heap.cell a = some si ∧ si.usageCount = 1 ∧ pending s a = 0

/-- The end of the last page copy of a parent that is closed. -/
def IsLastCompletion (s : System τ) (t : τ) (m : Move) (a : Addr) : Prop :=
  m = .putPageCopy ∧ s.place t = .removed a ∧
    ∃ si, s.shared.heap.cell a = some si ∧ si.usageCount = 0 ∧
      pageCopies s.shared a = 0 ∧ halfway s a = 1

/-! ## What a step does -/

/-- A `scorw_inode` in use, whose counters are right. -/
structure Sound (s : System τ) (a : Addr) (si : ScorwInode) : Prop where
  par : si.par = none
  attached : s.shared.scorwInode si.ino = some a
  usage : si.usageCount = holders s si.ino
  added : si.addedToPageCopy = si.removedFromPageCopy + pending s a
  used : si.usageCount ≠ 0 ∨ pending s a ≠ 0

structure Inv (s : System τ) : Prop where
  sound : ∀ a si, s.shared.heap.cell a = some si → Sound s a si
  attached : ∀ x a, s.shared.scorwInode x = some a →
    ∃ si, s.shared.heap.cell a = some si ∧ si.ino = x
  unheld : ∀ x, s.shared.scorwInode x = none → holders s x = 0
  freed : ∀ a, s.shared.heap.cell a = none → pending s a = 0
  writing : ∀ t h a, (s.place t).writes = some (h, a) →
    h.counted = true ∧ s.shared.scorwInode h.ino = some a

/-- The kinds of steps, by what they do to the `scorw_inode`s and to what is counted. `last`
are the `scorw_inode`s that have to be freed. -/
inductive Takes (s s' : System τ) (last : Addr → Prop) : Prop
  | keeps (stay : ∀ a, ¬ last a) (cell : s'.shared.heap.cell = s.shared.heap.cell)
      (inode : s'.shared.scorwInode = s.shared.scorwInode)
      (held : ∀ x, holders s' x = holders s x) (left : ∀ a, pending s' a = pending s a)
  /-- the `scorw_inode` of `x`, at the address `a`, becomes `new` -/
  | changes (a : Addr) (x : Ino) (new : Option ScorwInode)
      (owner : s.shared.scorwInode x = (s.shared.heap.cell a).map fun _ => a)
      (fresh : s.shared.heap.cell a = none → s.shared.heap.next ≤ a)
      (ends : ∀ b, last b ↔ b = a ∧ (s.shared.heap.cell a).isSome ∧ new = none)
      (cell : ∀ b, s'.shared.heap.cell b = if b = a then new else s.shared.heap.cell b)
      (inode : s'.shared.scorwInode = Function.update s.shared.scorwInode x (new.map fun _ => a))
      (sound : ∀ si, new = some si → Sound s' a si ∧ si.ino = x)
      (gone : new = none → holders s' x = 0 ∧ pending s' a = 0)
      (held : ∀ y, y ≠ x → holders s' y = holders s y)
      (left : ∀ b, b ≠ a → pending s' b = pending s b)

variable {s s' : System τ} {last : Addr → Prop} {t : τ} {m : Move} {a : Addr} {x : Ino}
  {si si' : ScorwInode}

omit [DecidableEq τ] in
theorem holders_pos {h : Handle} (writes : (s.place t).writes = some (h, a))
    (counted : h.counted = true) : 0 < holders s h.ino := by
  refine Threads.count_pos_iff.mpr ⟨t, ?_⟩
  cases here : s.place t with
  | found h' b =>
      rw [here] at writes
      cases writes
      simp [Place.holds, counted]
  | added h' b =>
      rw [here] at writes
      cases writes
      simp [Place.holds, counted]
  | idle => simp [here, Place.writes] at writes
  | opened => simp [here, Place.writes] at writes
  | removed => simp [here, Place.writes] at writes

omit [DecidableEq τ] in
/-- A `scorw_inode` that a step does not concern. -/
theorem Sound.same (sound : Sound s a si)
    (inode : s'.shared.scorwInode si.ino = s.shared.scorwInode si.ino)
    (held : holders s' si.ino = holders s si.ino) (left : pending s' a = pending s a) :
    Sound s' a si := by
  obtain ⟨par, attached, usage, added, used⟩ := sound
  exact ⟨par, inode.trans attached, usage.trans held.symm, by rwa [left], by rwa [left]⟩

omit [DecidableEq τ] in
/-- Every kind of step keeps the counters right. -/
theorem Takes.inv (takes : Takes s s' last) (inv : Inv s)
    (writing : ∀ t h a, (s'.place t).writes = some (h, a) →
      h.counted = true ∧ s.shared.scorwInode h.ino = some a) : Inv s' := by
  cases takes with
  | keeps _ cell inode held left =>
      refine ⟨fun a si here => ?_, ?_, ?_, ?_, ?_⟩
      · rw [cell] at here
        exact (inv.sound a si here).same (by rw [inode]) (held _) (left _)
      · rw [inode, cell]
        exact inv.attached
      · simpa only [inode, held] using inv.unheld
      · simpa only [cell, left] using inv.freed
      · rw [inode]
        exact writing
  | changes a x new owner _ _ cell inode sound gone held left =>
      -- the file at `a` is `x`, and no other file is at `a`
      have owned : ∀ b, s.shared.scorwInode x = some b → b = a := by
        intro b attached
        rw [owner] at attached
        obtain ⟨_, _, same⟩ := Option.map_eq_some_iff.mp attached
        exact same.symm
      have alone : ∀ si, s.shared.heap.cell a = some si → si.ino = x := by
        intro si here
        rw [here] at owner
        obtain ⟨si₀, found, ino⟩ := inv.attached x a owner
        cases here.symm.trans found
        exact ino
      refine ⟨fun b si here => ?_, fun y b attached => ?_, fun y absent => ?_, fun b freed => ?_,
        fun t h b writes => ?_⟩
      · rw [cell] at here
        split at here
        case isTrue same =>
          rw [same]
          exact (sound si here).1
        case isFalse other =>
          have old := inv.sound b si here
          have apart : si.ino ≠ x := fun same => other (owned b (same ▸ old.attached))
          refine old.same ?_ (held _ apart) (left b other)
          rw [inode, Function.update_of_ne apart]
      · rw [cell]
        rw [inode, Function.update_apply] at attached
        split at attached
        case isTrue same =>
          obtain ⟨si, is, rfl⟩ := Option.map_eq_some_iff.mp attached
          rw [if_pos rfl]
          exact ⟨si, is, (sound si is).2.trans same.symm⟩
        case isFalse other =>
          obtain ⟨si, here, ino⟩ := inv.attached y b attached
          have apart : b ≠ a := by
            rintro rfl
            exact other (ino.symm.trans (alone si here))
          rw [if_neg apart]
          exact ⟨si, here, ino⟩
      · rw [inode, Function.update_apply] at absent
        split at absent
        case isTrue same =>
          rw [same]
          exact (gone (Option.map_eq_none_iff.mp absent)).1
        case isFalse other =>
          rw [held y other]
          exact inv.unheld y absent
      · rw [cell] at freed
        split at freed
        case isTrue same =>
          rw [same]
          exact (gone freed).2
        case isFalse other =>
          rw [left b other]
          exact inv.freed b freed
      · obtain ⟨counted, attached⟩ := writing t h b writes
        refine ⟨counted, ?_⟩
        rw [inode, Function.update_apply]
        split
        case isTrue same =>
          rw [owned b (same ▸ attached)]
          cases is : new with
          | some si => rfl
          | none =>
              have some := holders_pos writes counted
              rw [same, (gone is).1] at some
              exact (lt_irrefl _ some).elim
        case isFalse => exact attached

omit [DecidableEq τ] in
/-- A step that counts in one `scorw_inode`. -/
theorem takes_update (inv : Inv s) (si' : ScorwInode) (stay : ∀ a, ¬ last a)
    (here : s.shared.heap.cell a = some si) (ino : si'.ino = si.ino)
    (cell : ∀ b, s'.shared.heap.cell b = if b = a then some si' else s.shared.heap.cell b)
    (inode : s'.shared.scorwInode = s.shared.scorwInode) (par : si'.par = si.par)
    (usage : si'.usageCount = holders s' si.ino)
    (added : si'.addedToPageCopy = si'.removedFromPageCopy + pending s' a)
    (used : si'.usageCount ≠ 0 ∨ pending s' a ≠ 0)
    (held : ∀ x, x ≠ si.ino → holders s' x = holders s x)
    (left : ∀ b, b ≠ a → pending s' b = pending s b) : Takes s s' last := by
  have old := inv.sound a si here
  refine .changes a si.ino (some si') ?_ ?_ (fun b => ?_) cell ?_ ?_ ?_ held left
  · rw [here, old.attached]
    rfl
  · intro freed
    rw [here] at freed
    cases freed
  · simp [stay b]
  · rw [inode, Option.map_some, ← old.attached, Function.update_eq_self]
  · intro _ is
    cases is
    refine ⟨⟨par.trans old.par, ?_, ?_, added, used⟩, ino⟩
    · rw [inode, ino]
      exact old.attached
    · rw [ino]
      exact usage
  · intro freed
    cases freed

/-! ## Counting after a move -/

theorem holders_move (sh : State) (p : Place) (x : Ino) :
    holders ⟨sh, Function.update s.place t p⟩ x + (if (s.place t).holds x = true then 1 else 0) =
      holders s x + if p.holds x = true then 1 else 0 :=
  Threads.count_update s.place t p

theorem pending_move (sh : State) (p : Place) (a : Addr) :
    pending ⟨sh, Function.update s.place t p⟩ a + pageCopies s.shared a +
        (if (s.place t).isHalfway a = true then 1 else 0) =
      pending s a + pageCopies sh a + if p.isHalfway a = true then 1 else 0 := by
  have half : halfway ⟨sh, Function.update s.place t p⟩ a +
      (if (s.place t).isHalfway a = true then 1 else 0) =
        halfway s a + if p.isHalfway a = true then 1 else 0 := Threads.count_update s.place t p
  dsimp only [pending]
  omega

/-- The writes after a move. -/
theorem writing_move (inv : Inv s) {sh : State} {p : Place}
    (new : ∀ h a, p.writes = some (h, a) →
      h.counted = true ∧ s.shared.scorwInode h.ino = some a) (u : τ) (h : Handle) (a : Addr)
    (writes : ((⟨sh, Function.update s.place t p⟩ : System τ).place u).writes = some (h, a)) :
    h.counted = true ∧ s.shared.scorwInode h.ino = some a := by
  by_cases mover : u = t
  · rw [mover] at writes
    dsimp only at writes
    rw [Function.update_self] at writes
    exact new h a writes
  · dsimp only at writes
    rw [Function.update_of_ne mover] at writes
    exact inv.writing u h a writes

end Steps

/-! ## Putting a parent -/

theorem putInode_cases {s s' : State} {x : Ino} {isThreadPutting : Bool}
    (put : putInode s x isThreadPutting = some s') :
    s.scorwInode x = none ∧ s' = s ∨
      ∃ a si si', s.scorwInode x = some a ∧ s.heap.cell a = some si ∧
        si.put isThreadPutting = some si' ∧ s'.pageCopyLlist = s.pageCopyLlist ∧
        (si'.unused = true ∧ s'.scorwInode = Function.update s.scorwInode x none ∧
            (∀ c, s'.heap.cell c = if c = a then none else s.heap.cell c) ∨
          si'.unused = false ∧ s'.scorwInode = s.scorwInode ∧
            ∀ c, s'.heap.cell c = if c = a then some si' else s.heap.cell c) := by
  obtain ⟨⟨freed, s₁⟩, done, rfl⟩ := Option.map_eq_some_iff.mp put
  unfold State.putPar at done
  split at done
  case h_1 absent =>
    cases done
    exact .inl ⟨absent, rfl⟩
  case h_2 a attached =>
    obtain ⟨si, here, done⟩ := Option.bind_eq_some_iff.mp done
    obtain ⟨si', counted, done⟩ := Option.map_eq_some_iff.mp done
    refine .inr ⟨a, si, si', attached, here, counted, ?_⟩
    dsimp only at done
    split at done
    case isTrue unused =>
      cases done
      refine ⟨rfl, .inl ⟨unused, rfl, fun c => ?_⟩⟩
      simp only [Option.elim_some, State.modify, Heap.cell_free, Heap.cell_modify]
      split
      case isTrue => rfl
      case isFalse => rfl
    case isFalse used =>
      cases done
      refine ⟨rfl, .inr ⟨by simpa using used, rfl, fun c => ?_⟩⟩
      simp only [Option.elim_none, State.modify, Heap.cell_modify, here, Option.map_some]

theorem pageCopies_putInode {s s' : State} {x : Ino} {isThreadPutting : Bool}
    (put : putInode s x isThreadPutting = some s') (a : Addr) :
    pageCopies s' a = pageCopies s a := by
  rcases putInode_cases put with ⟨_, rfl⟩ | ⟨_, _, _, _, _, _, pages, _⟩
  · rfl
  · rw [pageCopies, pages]
    rfl

section Steps

variable {τ : Type*} [DecidableEq τ] [Fintype τ] {s s' : System τ} {last : Addr → Prop} {t : τ}
  {m : Move} {a : Addr} {x : Ino} {si : ScorwInode}

omit [DecidableEq τ] in
/-- A put frees the `scorw_inode` exactly when nothing is counted any more. -/
theorem takes_of_put (inv : Inv s) (si' : ScorwInode) {isThreadPutting : Bool}
    (put : putInode s.shared si.ino isThreadPutting = some s'.shared)
    (here : s.shared.heap.cell a = some si) (counted : si.put isThreadPutting = some si')
    (usage : si'.usageCount = holders s' si.ino)
    (added : si'.addedToPageCopy = si'.removedFromPageCopy + pending s' a)
    (held : ∀ x, x ≠ si.ino → holders s' x = holders s x)
    (left : ∀ b, b ≠ a → pending s' b = pending s b)
    (ends : ∀ c, last c ↔ c = a ∧ si'.usageCount = 0 ∧ pending s' a = 0) :
    Takes s s' last := by
  have attached := (inv.sound a si here).attached
  have unused : si'.unused = true ↔ si'.usageCount = 0 ∧ pending s' a = 0 := by
    simp [ScorwInode.unused, added]
  rcases putInode_cases put with ⟨absent, _⟩ | ⟨b, sb, sb', attached', here', counted', _, put⟩
  · rw [attached] at absent
    cases absent
  cases attached.symm.trans attached'
  cases here.symm.trans here'
  cases counted.symm.trans counted'
  rcases put with ⟨free, inode, cell⟩ | ⟨used, inode, cell⟩
  · obtain ⟨closed, empty⟩ := unused.mp free
    refine .changes a si.ino none ?_ ?_ (fun b => ?_) cell inode ?_
      (fun _ => ⟨usage.symm.trans closed, empty⟩) held left
    · rw [here, attached]
      rfl
    · intro freed
      rw [here] at freed
      cases freed
    · simp [ends, here, closed, empty]
    · intro _ is
      cases is
  · have stay : ¬ (si'.usageCount = 0 ∧ pending s' a = 0) := by
      rw [← unused, used]
      exact Bool.false_ne_true
    refine takes_update inv si' (fun b ends' => stay ((ends b).mp ends').2) here
      (congrArg Slots.ino (ScorwInode.toSlots_put counted)) cell inode
      (ScorwInode.par_put counted) usage added ?_ held left
    exact Decidable.not_and_iff_not_or_not.mp stay

/-! ## The moves -/

theorem keeps_of_move {sh : State} {p : Place} (stay : ∀ a, ¬ last a)
    (cell : sh.heap.cell = s.shared.heap.cell) (inode : sh.scorwInode = s.shared.scorwInode)
    (held : ∀ x, p.holds x = (s.place t).holds x)
    (left : ∀ a, (pageCopies sh a + if p.isHalfway a = true then 1 else 0) =
      pageCopies s.shared a + if (s.place t).isHalfway a = true then 1 else 0) :
    Takes s ⟨sh, Function.update s.place t p⟩ last := by
  refine .keeps stay cell inode (fun x => ?_) fun a => ?_
  · have moved := holders_move (s := s) (t := t) sh p x
    rw [held x] at moved
    exact Nat.add_right_cancel moved
  · have moved := pending_move (s := s) (t := t) sh p a
    have total := left a
    omega

omit [DecidableEq τ] in
theorem not_last (close : m ≠ .releaseFile) (completion : m ≠ .putPageCopy) (a : Addr) :
    ¬ (IsLastClose s t m a ∨ IsLastCompletion s t m a) := by
  rintro (⟨same, _⟩ | ⟨same, _⟩)
  · exact close same
  · exact completion same

theorem takes_of_open (inv : Inv s) (stay : ∀ a, ¬ last a) (here : s.place t = .idle)
    {memory : Bool} {r : Option Addr} {sh : State}
    (got : s.shared.getPar x memory = some (r, sh)) :
    Takes s ⟨sh, Function.update s.place t (.opened ⟨x, (sh.scorwInode x).isSome⟩)⟩ last := by
  have held := holders_move (s := s) (t := t) sh (.opened ⟨x, (sh.scorwInode x).isSome⟩)
  have left := pending_move (s := s) (t := t) sh (.opened ⟨x, (sh.scorwInode x).isSome⟩)
  simp only [here, Place.holds, Place.isHalfway, Bool.false_eq_true, if_false, add_zero,
    Bool.and_eq_true, beq_iff_eq] at held left
  unfold State.getPar at got
  split at got
  case h_1 a attached =>
    obtain ⟨si, found, got⟩ := Option.map_eq_some_iff.mp got
    cases got
    obtain ⟨par, _, usage, added, _⟩ := inv.sound a si found
    obtain ⟨si₀, found', ino⟩ := inv.attached x a attached
    cases found.symm.trans found'
    have modified : s.shared.getAttached a si = s.shared.modify a .incUsageCount := by
      simp only [State.getAttached, par, Option.bind_none]
    rw [modified] at held left ⊢
    have present : ((s.shared.modify a .incUsageCount).scorwInode x).isSome = true := by
      rw [State.modify, attached]
      rfl
    rw [present] at held left ⊢
    have same : ∀ b, pending _ b = pending s b := fun b => Nat.add_right_cancel (left b)
    refine takes_update inv si.incUsageCount stay found rfl (fun b => ?_) rfl rfl ?_ ?_
      (.inl (Nat.succ_ne_zero _)) (fun y other => ?_) fun b _ => same b
    · simp only [State.modify, Heap.cell_modify, found, Option.map_some]
    · have one := held si.ino
      rw [if_pos ⟨rfl, ino.symm⟩] at one
      exact (congrArg (· + 1) usage).trans one.symm
    · rw [same]
      exact added
    · have zero := held y
      rwa [if_neg fun equal => other (equal.2.symm.trans ino.symm), add_zero] at zero
  case h_2 absent =>
    split at got
    case isTrue =>
      cases got
      have present : ((s.shared.create x none).scorwInode x).isSome = true := by
        simp [State.create]
      rw [present] at held left ⊢
      have unused : s.shared.heap.cell s.shared.heap.next = none := s.shared.heap.unused _ le_rfl
      have same : ∀ b, pending _ b = pending s b := fun b => Nat.add_right_cancel (left b)
      refine .changes s.shared.heap.next x (some (.prepare x none)) ?_ (fun _ => le_rfl)
        (fun b => ?_) (fun b => ?_) rfl ?_ ?_ (fun y other => ?_) fun b _ => same b
      · rw [unused, absent]
        rfl
      · simp [stay b]
      · simp only [State.create, Heap.cell_alloc]
      · intro _ is
        cases is
        have one := held x
        rw [if_pos ⟨rfl, rfl⟩, inv.unheld x absent] at one
        refine ⟨⟨rfl, Function.update_self .., one.symm, ?_, .inl Nat.one_ne_zero⟩, rfl⟩
        rw [same, inv.freed _ unused]
        rfl
      · intro freed
        cases freed
      · have zero := held y
        rwa [if_neg fun equal => other equal.2.symm, add_zero] at zero
    case isFalse =>
      cases got
      rw [absent] at held left ⊢
      refine keeps_of_move stay rfl rfl (fun y => ?_) fun b => ?_
      · simp [here, Place.holds]
      · simp [here, Place.isHalfway]

omit [DecidableEq τ] in
theorem holders_pos_of_opened {h : Handle} (here : s.place t = .opened h)
    (counted : h.counted = true) : 0 < holders s h.ino :=
  Threads.count_pos_iff.mpr ⟨t, by simp [here, Place.holds, counted]⟩

/-- Closing a file without a `scorw_inode`: it was opened without a reference. -/
theorem keeps_of_release (inv : Inv s) {h : Handle} (here : s.place t = .opened h)
    (absent : s.shared.scorwInode h.ino = none) :
    Takes s ⟨s.shared, Function.update s.place t .idle⟩
      fun a => IsLastClose s t .releaseFile a ∨ IsLastCompletion s t .releaseFile a := by
  have uncounted : h.counted = false := by
    by_contra counted
    have positive := holders_pos_of_opened here (by simpa using counted)
    rw [inv.unheld _ absent] at positive
    exact lt_irrefl _ positive
  refine keeps_of_move ?_ rfl rfl (fun x => ?_) fun a => ?_
  · rintro a (⟨_, h', si, place, present, _⟩ | ⟨wrong, _⟩)
    · cases here.symm.trans place
      rw [absent] at present
      cases present
    · cases wrong
  · simp [here, Place.holds, uncounted]
  · simp [here, Place.isHalfway]

theorem takes_of_release (inv : Inv s) {h : Handle} (here : s.place t = .opened h)
    (counted : h.counted = true) (attached : s.shared.scorwInode h.ino = some a) {sh : State}
    (put : putInode s.shared h.ino false = some sh) :
    Takes s ⟨sh, Function.update s.place t .idle⟩
      fun a => IsLastClose s t .releaseFile a ∨ IsLastCompletion s t .releaseFile a := by
  have held := holders_move (s := s) (t := t) sh .idle
  have left := pending_move (s := s) (t := t) sh .idle
  simp only [here, Place.holds, Place.isHalfway, Bool.false_eq_true, if_false, add_zero,
    Bool.and_eq_true, beq_iff_eq] at held left
  obtain ⟨si, found, ino⟩ := inv.attached _ _ attached
  obtain ⟨_, _, usage, added, _⟩ := inv.sound a si found
  have positive : si.usageCount ≠ 0 := by
    rw [usage, ino]
    exact (holders_pos_of_opened here counted).ne'
  have same : ∀ b, pending ⟨sh, Function.update s.place t .idle⟩ b = pending s b := by
    intro b
    have total := left b
    rw [pageCopies_putInode put] at total
    exact Nat.add_right_cancel total
  rw [← ino] at put
  refine takes_of_put inv { si with usageCount := si.usageCount - 1 } put found ?_ ?_
    ?_ (fun x other => ?_) (fun b _ => same b) fun c => ?_
  · simp [ScorwInode.put, positive]
  · have one := held h.ino
    rw [if_pos ⟨counted, rfl⟩] at one
    dsimp only
    rw [usage, ino]
    omega
  · rw [same]
    exact added
  · have zero := held x
    rwa [if_neg fun equal => other (equal.2.symm.trans ino.symm), add_zero] at zero
  · rw [same]
    constructor
    · rintro (⟨_, h', si₀, place, present, cell, one, none⟩ | ⟨wrong, _⟩)
      · cases here.symm.trans place
        cases attached.symm.trans present
        cases found.symm.trans cell
        exact ⟨rfl, by simp [one], none⟩
      · cases wrong
    · rintro ⟨rfl, zero, none⟩
      dsimp only at zero
      exact .inl ⟨rfl, h, si, here, attached, found, by omega, none⟩

theorem takes_of_count (inv : Inv s) (stay : ∀ a, ¬ last a) {h : Handle}
    (here : s.place t = .found h a) :
    Takes s ⟨s.shared.modify a fun si => { si with addedToPageCopy := si.addedToPageCopy + 1 },
      Function.update s.place t (.added h a)⟩ last := by
  obtain ⟨_, attached⟩ := inv.writing t h a (by rw [here]; rfl)
  obtain ⟨si, found, _⟩ := inv.attached _ _ attached
  obtain ⟨_, _, usage, added, _⟩ := inv.sound a si found
  generalize shared : (s.shared.modify a fun si =>
    { si with addedToPageCopy := si.addedToPageCopy + 1 }) = sh
  have held := holders_move (s := s) (t := t) sh (.added h a)
  have left := pending_move (s := s) (t := t) sh (.added h a)
  simp only [here, Place.holds, Place.isHalfway, Bool.false_eq_true, if_false, add_zero,
    beq_iff_eq] at held left
  subst shared
  have same : ∀ x, holders _ x = holders s x := fun x => Nat.add_right_cancel (held x)
  have one := left a
  rw [if_pos rfl] at one
  have pages : pageCopies (s.shared.modify a fun si =>
    { si with addedToPageCopy := si.addedToPageCopy + 1 }) a = pageCopies s.shared a := rfl
  rw [pages] at one
  refine takes_update inv { si with addedToPageCopy := si.addedToPageCopy + 1 } stay found rfl
    (fun b => ?_) rfl rfl (usage.trans (same _).symm) ?_ (.inr (by omega)) (fun x _ => same x)
    fun b other => ?_
  · simp only [State.modify, Heap.cell_modify, found, Option.map_some]
  · dsimp only
    omega
  · have zero := left b
    rw [if_neg other.symm] at zero
    exact Nat.add_right_cancel zero

theorem takes_of_completion (inv : Inv s) (here : s.place t = .removed a) {sl : Slots}
    (slots : s.shared.slots a = some sl) {sh : State}
    (put : putInode s.shared sl.ino true = some sh) :
    Takes s ⟨sh, Function.update s.place t .idle⟩
      fun a => IsLastClose s t .putPageCopy a ∨ IsLastCompletion s t .putPageCopy a := by
  have held := holders_move (s := s) (t := t) sh .idle
  have left := pending_move (s := s) (t := t) sh .idle
  simp only [here, Place.holds, Place.isHalfway, Bool.false_eq_true, if_false, add_zero,
    beq_iff_eq] at held left
  obtain ⟨si, found, rfl⟩ := Option.map_eq_some_iff.mp slots
  obtain ⟨_, _, usage, added, _⟩ := inv.sound a si found
  have one := left a
  rw [if_pos rfl, pageCopies_putInode put] at one
  refine takes_of_put inv { si with removedFromPageCopy := si.removedFromPageCopy + 1 } put found
    rfl
    (usage.trans (held _).symm) ?_ (fun x _ => held x) (fun b other => ?_) fun c => ?_
  · dsimp only
    omega
  · have zero := left b
    rw [if_neg other.symm, pageCopies_putInode put] at zero
    exact Nat.add_right_cancel zero
  · have split : pending s a = pageCopies s.shared a + halfway s a := rfl
    have positive : 0 < halfway s a :=
      Threads.count_pos_iff.mpr ⟨t, by simp [here, Place.isHalfway]⟩
    constructor
    · rintro (⟨wrong, _⟩ | ⟨_, place, si₀, cell, zero, none, last⟩)
      · cases wrong
      · cases here.symm.trans place
        cases found.symm.trans cell
        exact ⟨rfl, zero, by omega⟩
    · rintro ⟨rfl, zero, none⟩
      exact .inr ⟨rfl, here, si, found, zero, by omega, by omega⟩

/-- Every step of a balanced run is of one of the kinds, and a write has a reference and the
`scorw_inode` of its file. -/
theorem takes_of_step (inv : Inv s) (balanced : isBalanced s (t, m) = true) {r : Unit}
    (taken : step s (t, m) = some (r, s')) :
    Takes s s' (fun a => IsLastClose s t m a ∨ IsLastCompletion s t m a) ∧
      ∀ u h a, (s'.place u).writes = some (h, a) →
        h.counted = true ∧ s.shared.scorwInode h.ino = some a := by
  obtain ⟨p, sh, moved, rfl⟩ := Threads.step_eq_some taken
  dsimp only at moved
  unfold move at moved
  split at moved
  case h_1 x memory here =>
    split at moved
    case isTrue =>
      obtain ⟨⟨a, sh⟩, got, moved⟩ := Option.map_eq_some_iff.mp moved
      cases moved
      refine ⟨takes_of_open inv ?_ here got, writing_move inv nofun⟩
      exact not_last nofun nofun
    case isFalse =>
      cases moved
      refine ⟨keeps_of_move (not_last nofun nofun) rfl rfl (fun x => ?_) fun a => ?_,
        writing_move inv nofun⟩
      · simp [here, Place.holds]
      · simp [here, Place.isHalfway]
  case h_2 h here =>
    obtain ⟨sh, put, moved⟩ := Option.map_eq_some_iff.mp moved
    cases moved
    refine ⟨?_, writing_move inv nofun⟩
    cases attached : s.shared.scorwInode h.ino with
    | none =>
        rcases putInode_cases put with ⟨_, rfl⟩ | ⟨_, _, _, present, _⟩
        · exact keeps_of_release inv here attached
        · rw [attached] at present
          cases present
    | some a =>
        refine takes_of_release inv here ?_ attached put
        simpa [isBalanced, here, attached] using balanced
  case h_3 x i c here =>
    cases moved
    refine ⟨keeps_of_move (not_last nofun nofun) rfl rfl (fun x => ?_) fun a => ?_,
      writing_move inv nofun⟩
    · rw [here]
    · rw [here]
      rfl
  case h_4 h here =>
    obtain ⟨a, attached, moved⟩ := Option.map_eq_some_iff.mp moved
    cases moved
    have counted : h.counted = true := by
      simpa [isBalanced, here, attached] using balanced
    refine ⟨keeps_of_move (not_last nofun nofun) rfl rfl (fun x => ?_) fun b => ?_,
      writing_move inv fun h' b writes => ?_⟩
    · simp [here, Place.holds]
    · simp [here, Place.isHalfway]
    · cases writes
      exact ⟨counted, attached⟩
  case h_5 h a here =>
    cases moved
    refine ⟨keeps_of_move (not_last nofun nofun) rfl rfl (fun x => ?_) fun b => ?_,
      writing_move inv nofun⟩
    · simp [here, Place.holds]
    · simp [here, Place.isHalfway]
  case h_6 h a here =>
    cases moved
    refine ⟨takes_of_count inv ?_ here, writing_move inv fun h' b writes => ?_⟩
    · exact not_last nofun nofun
    · cases writes
      exact inv.writing t h a (by rw [here]; rfl)
  case h_7 h a blk isTargetChild here =>
    cases moved
    refine ⟨keeps_of_move (not_last nofun nofun) rfl rfl (fun x => ?_) fun b => ?_,
      writing_move inv nofun⟩
    · simp [here, Place.holds]
    · simp [here, Place.isHalfway, pageCopies, List.countP_append, List.countP_singleton]
  case h_8 here =>
    split at moved
    case h_1 => cases moved
    case h_2 pc rest list =>
      cases moved
      refine ⟨keeps_of_move (not_last nofun nofun) rfl rfl (fun x => ?_) fun b => ?_,
        writing_move inv nofun⟩
      · simp [here, Place.holds]
      · simp [here, Place.isHalfway, pageCopies, list, List.countP_cons]
  case h_9 a here =>
    obtain ⟨sl, slots, moved⟩ := Option.bind_eq_some_iff.mp moved
    obtain ⟨sh, put, moved⟩ := Option.map_eq_some_iff.mp moved
    cases moved
    exact ⟨takes_of_completion inv here slots put, writing_move inv nofun⟩
  case h_10 => cases moved

omit [DecidableEq τ] in
theorem inv_start (childAttr : Ino → Nat → Ino) (parentAttr : Ino → Ino) :
    Inv (start childAttr parentAttr : System τ) := by
  refine ⟨nofun, nofun, fun x _ => ?_, fun a _ => ?_, nofun⟩
  · exact Threads.count_eq_zero_iff.mpr fun _ => Bool.false_ne_true
  · have none : halfway (start childAttr parentAttr : System τ) a = 0 :=
      Threads.count_eq_zero_iff.mpr fun _ => Bool.false_ne_true
    rw [pending, none]
    rfl

theorem inv_of_run {childAttr : Ino → Nat → Ino} {parentAttr : Ino → Ino}
    {acts : List (τ × Move)}
    (run : Run step (fun s act => isBalanced s act = true) (start childAttr parentAttr) acts s) :
    Inv s := by
  refine run.invariant (fun s act r s' inv balanced taken => ?_) (inv_start childAttr parentAttr)
  obtain ⟨takes, writing⟩ := takes_of_step inv balanced taken
  exact takes.inv inv writing

omit [DecidableEq τ] in
theorem Takes.freed_iff (takes : Takes s s' last) (here : s.shared.heap.cell a = some si) :
    s'.shared.heap.cell a = none ↔ last a := by
  cases takes with
  | keeps stay cell => simp [cell, here, stay a]
  | changes b x new _ _ ends cell =>
      rw [cell, ends]
      split
      case isTrue same =>
        subst same
        simp [here]
      case isFalse other => simp [here, other]

omit [DecidableEq τ] in
theorem Takes.stays_freed (takes : Takes s s' last) (old : a < s.shared.heap.next)
    (freed : s.shared.heap.cell a = none) : s'.shared.heap.cell a = none := by
  cases takes with
  | keeps _ cell => rwa [cell]
  | changes b x new _ fresh _ cell =>
      have apart : a ≠ b := by
        rintro rfl
        exact absurd old (fresh freed).not_gt
      rwa [cell, if_neg apart]

end Steps

/-- Files that are opened without a reference are not closed or written while there is a
`scorw_inode`. Then the counters of every `scorw_inode` differ by its page copies in the list
and on their way; a `scorw_inode` that is freed has none, and no write goes to add one; there is
no `scorw_inode` left that is closed and has none; and one is freed exactly in the step that
ends the last of both, once. -/
theorem parent_outlives_page_copies {τ : Type*} [DecidableEq τ] [Fintype τ] {s : System τ}
    {childAttr : Ino → Nat → Ino} {parentAttr : Ino → Ino} {acts : List (τ × Move)}
    (run : Run step (fun s act => isBalanced s act = true) (start childAttr parentAttr) acts s) :
    (∀ a si, s.shared.heap.cell a = some si →
      si.addedToPageCopy = si.removedFromPageCopy + (pageCopies s.shared a + halfway s a)) ∧
    (∀ a, s.shared.heap.cell a = none → pageCopies s.shared a = 0 ∧ halfway s a = 0 ∧
      ∀ t h, (s.place t).writes ≠ some (h, a)) ∧
    (∀ a si, s.shared.heap.cell a = some si →
      si.usageCount ≠ 0 ∨ pageCopies s.shared a + halfway s a ≠ 0) ∧
    ∀ t m s', isBalanced s (t, m) = true → step s (t, m) = some ((), s') →
      (∀ a si, s.shared.heap.cell a = some si →
        (s'.shared.heap.cell a = none ↔ IsLastClose s t m a ∨ IsLastCompletion s t m a)) ∧
      ∀ a, a < s.shared.heap.next → s.shared.heap.cell a = none →
        s'.shared.heap.cell a = none := by
  have inv := inv_of_run run
  refine ⟨fun a si here => (inv.sound a si here).added, fun a freed => ?_,
    fun a si here => (inv.sound a si here).used, fun t m s' balanced taken => ?_⟩
  · obtain ⟨pages, half⟩ := Nat.add_eq_zero_iff.mp (inv.freed a freed)
    refine ⟨pages, half, fun t h writes => ?_⟩
    obtain ⟨_, attached⟩ := inv.writing t h a writes
    obtain ⟨si, here, _⟩ := inv.attached _ _ attached
    rw [freed] at here
    cases here
  · obtain ⟨takes, _⟩ := takes_of_step inv balanced taken
    exact ⟨fun a si here => takes.freed_iff here, fun a old freed => takes.stays_freed old freed⟩

/-- File 1 has the child 3. -/
def oneChild (p : Ino) (i : Nat) : Ino := if p = 1 ∧ i = 0 then 3 else 0

/-- A thread writes a block of file 1, which it has opened. -/
def writesOne (t : Fin 2) : List (Fin 2 × Move) :=
  [(t, .findInode), (t, .countPageCopy), (t, .addPageCopy 0 fun _ => true)]

/-- The parent is closed before its page copy is completed. -/
theorem parent_outlives_page_copies_closed :
    ∃ s : System (Fin 2), Run step (fun s act => isBalanced s act = true)
      (start oneChild fun _ => 0)
      ((0, .openFile 1 true) :: writesOne 0 ++ [(0, .releaseFile)]) s ∧
      pageCopies s.shared 0 = 1 ∧ s.shared.heap.cell 0 ≠ none := by
  refine Run.exists_imp isBalanced (fun _ _ _ balanced => balanced)
    (Q := fun s => pageCopies s.shared 0 = 1) (by decide +kernel) ?_
  refine fun s run one => ⟨one, fun freed => ?_⟩
  obtain ⟨none, _⟩ := (parent_outlives_page_copies run).2.1 0 freed
  rw [one] at none
  cases none

/-- A writer has looked up the parent when another thread, which has no reference, closes the
file. -/
def closesBetween {τ : Type*} (closer writer : τ) : List (τ × Move) :=
  [(writer, .openFile 1 true), (writer, .findInode), (closer, .releaseFile),
    (writer, .countPageCopy), (writer, .addPageCopy 0 fun _ => true)]

/-- Some page copy in the list has a parent that is freed. -/
def isDangling (s : State) : Bool :=
  s.pageCopyLlist.any fun pc => (s.heap.cell pc.par).isNone

/-- A page copy in the list has a parent that is freed: thread 0 opened it when there was no
memory, or before the first clone was made. And between the counting and the list the counters
do not have the number of page copies in the list. -/
theorem parent_outlives_page_copies_fails :
    (∃ s : System (Fin 2), Run step (fun _ _ => True) (start oneChild fun _ => 0)
      ((0, .openFile 1 false) :: closesBetween 0 1) s ∧ isDangling s.shared = true) ∧
    (∃ s : System (Fin 2), Run step (fun _ _ => True) (start (fun _ _ => 0) fun _ => 0)
      ((0, .openFile 1 true) :: (1, .setChildAttr 1 0 3) :: closesBetween 0 1) s ∧
        isDangling s.shared = true) ∧
    ∃ s : System (Fin 2), Run step (fun _ _ => True) (start oneChild fun _ => 0)
      [(0, .openFile 1 true), (0, .findInode), (0, .countPageCopy)] s ∧
        (pageCopies s.shared 0 = 0 ∧ ((s.shared.heap.cell 0).any fun si =>
          si.addedToPageCopy == 1 && si.removedFromPageCopy == 0) = true) := by
  refine ⟨?_, ?_, ?_⟩
  all_goals
    exact Run.exists_imp (fun _ _ => true) (fun _ _ _ _ => trivial) (by decide +kernel)
      fun _ _ shown => shown

end FlexClone.Scorw.Memory.Lifetime
