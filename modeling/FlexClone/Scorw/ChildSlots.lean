import FlexClone.Run
import FlexClone.Scorw.InodeMemory

/-!
# Attached children and their slots

A parent's `scorw_inode` has its attached children in 64 slots, and the loops of
`scorw_write_par_blocks`, `scorw_prepare_page_copy` and the read barrier stop at
`i_last_child_index`. A child has its slot in `i_at_index`, where the page copies are looked
up and where its unlinking clears the slot. The calls that change the slots are run here one
after the other: opening and closing files, with building a parent's slots from its
attributes and putting its children, `special_open`, unlinking, and page copies. The loops
are cut at every slot.

* `attached_children_scanned_iff`: in every run a child is in no slot beyond
  `i_last_child_index`, so that the loops come to all children; and every child is in the slot
  it has in `i_at_index` exactly as long as no `scorw_inode` gets into a second slot, and none
  is freed that is left in another slot.
-/

namespace FlexClone.Scorw.Memory

open Family (maxChilds)

/-- Which call is under way, and where. -/
inductive Call
  | idle
  /-- in `special_open` for `c`, with `n` calls of `scorw_get_inode` for the parent to go -/
  | opening (p c : Ino) (n : Nat)
  /-- in the loop of `scorw_get_inode`, before slot `i`, called by `special_open` or not -/
  | building (p : Ino) (a : Addr) (i : Nat) (special : Option (Ino × Nat))
  /-- in the loop of `scorw_put_inode`, before slot `i` -/
  | putting (p : Ino) (a : Addr) (i : Nat)

structure System where
  state : State
  call : Call

/-- The calls, and the turns of their loops. `memory` and `iget` are whether an allocation
succeeds and whether an inode can be read. -/
inductive Event
  | openFile (x : Ino) (memory : Bool)
  | releaseFile (x : Ino)
  | specialOpen (p c : Ino) (index : Fin maxChilds) (memory : Bool)
  | unlink (c : Ino) (iget : Bool)
  | writePar (p : Ino) (blk : Nat) (shares : Nat → Bool)
  /-- the page copy thread is done with the first page copy -/
  | pageCopied
  | next (iget memory : Bool)
  | setChildAttr (p : Ino) (i : Nat) (c : Ino)
  | setParentAttr (c p : Ino)

namespace State

def count (s : State) (x : Ino) (change : Int) : State :=
  { s with openCount := Function.update s.openCount x (s.openCount x + change) }

/-- `scorw_is_par_file`, which looks at the attributes of a file that is not attached. -/
def isParFile (s : State) (x : Ino) : Bool :=
  match s.scorwInode x with
  | some a => (s.heap.cell a).any (·.par.isNone)
  | none => (List.range maxChilds).any fun i => decide (s.childAttr x i ≠ 0)

end State

/-- What follows the loop of `scorw_get_inode`. -/
def Call.resume (p : Ino) : Option (Ino × Nat) → Call
  | some (c, n) => .opening p c n
  | none => .idle

/-- `scorw_get_inode` of a parent. -/
def State.startGet (s : State) (p : Ino) (memory : Bool) (special : Option (Ino × Nat)) :
    Option System :=
  (s.getPar p memory).map fun (a, s) =>
    ⟨s, a.elim (.resume p special) fun a => .building p a 0 special⟩

/-- `scorw_put_inode` of a parent. -/
def State.startPut (s : State) (p : Ino) (isThreadPutting : Bool) : Option System :=
  (s.putPar p isThreadPutting).map fun (a, s) => ⟨s, a.elim .idle fun a => .putting p a 0⟩

/-- `ext4_file_open`, which does not look at what `scorw_get_inode` returns. -/
def State.openFile (s : State) (x : Ino) (memory : Bool) : Option System :=
  if s.isChildFile x then
    if s.parentAttr x = 0 then none else (s.count x 1).startGet (s.parentAttr x) memory none
  else if s.isParFile x then (s.count x 1).startGet x memory none
  else some ⟨s, .idle⟩

/-- `ext4_release_file`. The file has been opened, but it may not have been a parent or a child
then. -/
def State.releaseFile (s : State) (x : Ino) : Option System :=
  match s.scorwInode x with
  | none => some ⟨s, .idle⟩
  | some a =>
      (s.heap.cell a).bind fun si => (s.count x (-1)).startPut (si.par.getD x) false

/-- `special_open` -/
def State.specialOpen (s : State) (p c : Ino) (index : Nat) (memory : Bool) : Option System :=
  match s.scorwInode p with
  | some a => (s.attachClone p c a index memory).map fun s => ⟨s, .idle⟩
  | none =>
      some ⟨s, if 1 < s.openCount p then .opening p c (s.openCount p).toNat else .idle⟩

/-- The next turn of the call that is under way. -/
def System.next (s : System) (iget memory : Bool) : Option System :=
  match s.call with
  | .idle => none
  | .opening p c 0 =>
      if c = p then none else (s.state.getChild c memory).map fun (_, s) => ⟨s, .idle⟩
  | .opening p c (n + 1) => s.state.startGet p memory (some (c, n))
  | .building p a i special =>
      if i < maxChilds then
        (s.state.attachSlot p a i iget memory).map fun s => ⟨s, .building p a (i + 1) special⟩
      else some ⟨s.state, .resume p special⟩
  | .putting p a i =>
      if i < maxChilds then
        (s.state.putSlot p a i).map fun s => ⟨s, .putting p a (i + 1)⟩
      else some ⟨{ s.state with heap := s.state.heap.free a }, .idle⟩

/-- A call, when none is under way. -/
def State.call (s : State) : Event → Option System
  | .openFile x memory => s.openFile x memory
  | .releaseFile x => s.releaseFile x
  | .specialOpen p c index memory => s.specialOpen p c index memory
  | .unlink c iget => (s.unlinkChildFile c iget).map fun s => ⟨s, .idle⟩
  | .writePar p blk shares => (s.writeParBlocks p blk shares).map fun s => ⟨s, .idle⟩
  | .pageCopied => s.unpreparePageCopy.bind fun (p, s) => s.startPut p true
  | .next _ _ => none
  | .setChildAttr p i c =>
      some ⟨{ s with childAttr :=
        Function.update s.childAttr p (Function.update (s.childAttr p) i c) }, .idle⟩
  | .setParentAttr c p =>
      some ⟨{ s with parentAttr := Function.update s.parentAttr c p }, .idle⟩

/-- One step. Calls do not overlap. -/
def step (s : System) (e : Event) : Option (Unit × System) :=
  (match e, s.call with
    | .next iget memory, _ => s.next iget memory
    | e, .idle => s.state.call e
    | _, _ => none).map fun s => ((), s)

/-! ## The slots -/

/-- What the slots depend on. -/
@[ext]
structure View where
  scorwInode : Ino → Option Addr
  slots : Addr → Option Slots

def State.view (s : State) : View := ⟨s.scorwInode, s.slots⟩

namespace View

/-- A `scorw_inode` of some inode, the one at `a`, has the one at `b` in slot `j`. -/
def Entry (v : View) (a : Addr) (j : Nat) (b : Addr) : Prop :=
  ∃ x sl, v.scorwInode x = some a ∧ v.slots a = some sl ∧ sl.child j = some b

/-- Every child is in memory, and in the slot that it has in `i_at_index`. -/
def Indexed (v : View) : Prop :=
  ∀ a j b, v.Entry a j b → ∃ sl, v.slots b = some sl ∧ sl.atIndex = some j

end View

namespace State

/-- The `scorw_inode` at an address has one reference and no page copies. -/
def LastUse (s : State) (x : Addr) : Prop :=
  ∃ si, s.heap.cell x = some si ∧ si.usageCount = 1 ∧
    si.addedToPageCopy = si.removedFromPageCopy

/-- The `scorw_inode` of a child's parent. -/
def parScorwInode (s : State) (c : Ino) : Option Addr :=
  ((s.scorwInode c).bind s.heap.cell).bind fun si => si.par.bind s.scorwInode

/-- Putting the child `c` takes the last reference to a `scorw_inode`, its own or its
parent's. -/
def Frees (s : State) (c : Ino) (x : Addr) : Prop :=
  (s.scorwInode c = some x ∨ s.parScorwInode c = some x) ∧ s.LastUse x

/-- The slot of an unlinked child in its parent. -/
def Clears (s : State) (c : Ino) (a : Addr) (j : Nat) : Prop :=
  s.parScorwInode c = some a ∧
    ∃ b si, s.scorwInode c = some b ∧ s.heap.cell b = some si ∧ s.LastUse b ∧
      si.unlinked = true ∧ si.atIndex = some j

/-- What putting the child `c` frees is in no slot that is left. -/
def PutsOrderly (s : State) (c : Ino) : Prop :=
  ∀ a j x, s.view.Entry a j x → s.Frees c x → s.Frees c a ∨ s.Clears c a j

/-- A turn of building the slots that attaches a child which is in memory already. -/
def Reattaches (s : State) (p : Ino) (i : Nat) (iget : Bool) (b : Addr) : Prop :=
  iget = true ∧ s.isChildFile (s.childAttr p i) = true ∧ s.childAttr p i ≠ 0 ∧
    s.scorwInode (s.childAttr p i) = some b ∧
      ∃ si, s.heap.cell b = some si ∧ si.unlinked = false

/-- The child in a slot of a `scorw_inode`. -/
def childAt (s : State) (a : Addr) (i : Nat) : Option ScorwInode :=
  ((s.heap.cell a).bind fun si => si.child i).bind s.heap.cell

/-- The `scorw_inode` is in no other slot than number `i`. -/
def InSlot (s : State) (b : Addr) (i : Nat) : Prop := ∀ a j, s.view.Entry a j b → j = i

end State

/-- A child that is attached already is attached to the same slot again, and what is freed is
in no slot that is left. -/
def Orderly (s : System) : Event → Prop
  | .specialOpen p c index _ =>
      (s.state.scorwInode p).isSome → ∀ b, s.state.scorwInode c = some b → s.state.InSlot b index
  | .unlink c iget =>
      iget = true → (s.state.scorwInode (s.state.parentAttr c)).isSome →
        ∀ b, s.state.scorwInode c = some b → (s.state.markUnlinked b).PutsOrderly c
  | .next iget _ =>
      match s.call with
      | .building p _ i _ =>
          i < maxChilds → ∀ b, s.state.Reattaches p i iget b → s.state.InSlot b i
      | .putting _ a i =>
          if i < maxChilds then
            ∀ ci, s.state.childAt a i = some ci → s.state.PutsOrderly ci.ino
          else ∀ a' j, ¬ s.state.view.Entry a' j a
      | _ => True
  | _ => True

/-! ## What the operations do to the slots -/

namespace View

def modify (v : View) (a : Addr) (f : Slots → Slots) : View :=
  { v with slots := Function.update v.slots a ((v.slots a).map f) }

/-- A new `scorw_inode` at the address `n`. -/
def create (v : View) (x : Ino) (n : Addr) : View :=
  ⟨Function.update v.scorwInode x (some n),
    Function.update v.slots n (some (ScorwInode.prepare x none).toSlots)⟩

/-- An inode has no `scorw_inode` any more. -/
def detach (v : View) (x : Ino) : View :=
  { v with scorwInode := Function.update v.scorwInode x none }

def free (v : View) (a : Addr) : View := { v with slots := Function.update v.slots a none }

end View

namespace State

variable {s s' : State} {a b : Addr} {si si' : ScorwInode} {c p q x : Ino}

theorem view_modifySlots (s : State) (a : Addr) (f : Slots → Slots) :
    (s.modifySlots a f).view = s.view.modify a f := by
  refine View.ext rfl (funext fun b => ?_)
  simp only [view, View.modify, slots, modifySlots, modify, Heap.cell_modify,
    Function.update_apply]
  split
  case isTrue => simp [Option.map_map, Function.comp_def]
  case isFalse => rfl

/-- Counting does not concern the slots. -/
theorem view_modify {f : ScorwInode → ScorwInode}
    (same : ∀ si, s.heap.cell a = some si → (f si).toSlots = si.toSlots) :
    (s.modify a f).view = s.view := by
  refine View.ext rfl (funext fun b => ?_)
  simp only [view, slots, modify, Heap.cell_modify]
  split
  case isTrue here =>
    subst here
    cases found : s.heap.cell b with
    | none => rfl
    | some si => simpa using same si found
  case isFalse => rfl

theorem view_create (s : State) (x : Ino) (par : Option Ino) :
    (s.create x par).view = s.view.create x s.heap.next := by
  refine View.ext rfl (funext fun b => ?_)
  simp only [view, View.create, slots, create, Heap.cell_alloc, Function.update_apply]
  split
  case isTrue => rfl
  case isFalse => rfl

theorem slots_next (s : State) : s.slots s.heap.next = none := by
  rw [slots, s.heap.unused _ le_rfl]
  rfl

theorem view_free (s : State) (a : Addr) :
    ({ s with heap := s.heap.free a } : State).view = s.view.free a := by
  refine View.ext rfl (funext fun b => ?_)
  simp only [view, View.free, slots, Heap.cell_free, Function.update_apply]
  split
  case isTrue => rfl
  case isFalse => rfl

theorem view_release (s : State) (x : Ino) (a : Addr) :
    (s.release x a).view = (s.view.detach x).free a := by
  refine View.ext rfl ?_
  have slots := congrArg View.slots (view_free s a)
  exact slots

theorem view_forgetChild (s : State) (p c : Ino) : (s.forgetChild p c).view = s.view := by
  unfold forgetChild
  split
  case h_1 => rfl
  case h_2 => rfl

theorem view_getAttached (s : State) (a : Addr) (si : ScorwInode) :
    (s.getAttached a si).view = s.view := by
  unfold getAttached
  dsimp only
  split
  case h_1 b _ =>
    have par : ((s.modify a .incUsageCount).modify b .incUsageCount).view =
        (s.modify a .incUsageCount).view := view_modify fun _ _ => rfl
    exact par.trans (view_modify fun _ _ => rfl)
  case h_2 => exact view_modify fun _ _ => rfl

end State

theorem ScorwInode.toSlots_put {si si' : ScorwInode} {isThreadPutting : Bool}
    (counted : si.put isThreadPutting = some si') : si'.toSlots = si.toSlots := by
  unfold ScorwInode.put at counted
  split at counted
  case isTrue => rw [← Option.some.inj counted]
  case isFalse =>
    split at counted
    case isTrue => cases counted
    case isFalse => rw [← Option.some.inj counted]

theorem ScorwInode.par_put {si si' : ScorwInode} {isThreadPutting : Bool}
    (counted : si.put isThreadPutting = some si') : si'.par = si.par := by
  unfold ScorwInode.put at counted
  split at counted
  case isTrue => rw [← Option.some.inj counted]
  case isFalse =>
    split at counted
    case isTrue => cases counted
    case isFalse => rw [← Option.some.inj counted]

namespace State

variable {s s' : State} {a b : Addr} {si si' : ScorwInode} {c p q x : Ino}

theorem view_put {isThreadPutting : Bool} (here : s.heap.cell a = some si)
    (counted : si.put isThreadPutting = some si') :
    (s.modify a fun _ => si').view = s.view := by
  refine view_modify fun si₀ here₀ => ?_
  rw [here] at here₀
  cases here₀
  exact ScorwInode.toSlots_put counted

/-- A child that is got is the one there is, or a new one. -/
inductive Gets (s : State) (c : Ino) : Addr → View → Prop
  | existing (b : Addr) (si : ScorwInode) : s.scorwInode c = some b →
      s.heap.cell b = some si → si.unlinked = false → Gets s c b s.view
  | fresh : s.scorwInode c = none → Gets s c s.heap.next (s.view.create c s.heap.next)

theorem view_getChild {memory : Bool} {got : Option Addr}
    (get : s.getChild c memory = some (got, s')) :
    got = none ∧ s'.view = s.view ∧
        (∀ b si, s.scorwInode c = some b → s.heap.cell b = some si → si.unlinked ≠ false) ∨
      ∃ b, got = some b ∧ s.Gets c b s'.view := by
  unfold getChild at get
  split at get
  case h_1 b attached =>
    obtain ⟨si, here, same⟩ := Option.map_eq_some_iff.mp get
    split at same
    case isTrue unlinked =>
      cases same
      refine .inl ⟨rfl, rfl, fun b' si' attached' here' => ?_⟩
      cases attached.symm.trans attached'
      cases here.symm.trans here'
      simp [unlinked]
    case isFalse linked =>
      cases same
      rw [view_getAttached]
      exact .inr ⟨b, rfl, .existing b si attached here (by simpa using linked)⟩
  case h_2 absent =>
    split at get
    case isTrue =>
      cases get
      refine .inl ⟨rfl, rfl, fun b si attached => ?_⟩
      rw [absent] at attached
      cases attached
    case isFalse =>
      split at get
      case isTrue => cases get
      case isFalse =>
        cases get
        rw [view_create]
        exact .inr ⟨_, rfl, .fresh absent⟩

theorem view_getPar {memory : Bool} {got : Option Addr}
    (get : s.getPar p memory = some (got, s')) :
    got = none ∧ s'.view = s.view ∨
      got = some s.heap.next ∧ s.scorwInode p = none ∧
        s'.view = s.view.create p s.heap.next := by
  unfold getPar at get
  split at get
  case h_1 a attached =>
    obtain ⟨si, _, same⟩ := Option.map_eq_some_iff.mp get
    cases same
    exact .inl ⟨rfl, view_getAttached s a si⟩
  case h_2 absent =>
    split at get
    case isTrue =>
      cases get
      exact .inr ⟨rfl, absent, view_create s p none⟩
    case isFalse =>
      cases get
      exact .inl ⟨rfl, rfl⟩

theorem view_putPar {isThreadPutting : Bool} {got : Option Addr}
    (put : s.putPar p isThreadPutting = some (got, s')) :
    got = none ∧ s'.view = s.view ∨
      ∃ a, got = some a ∧ s.scorwInode p = some a ∧ s'.view = s.view.detach p := by
  unfold putPar at put
  split at put
  case h_1 =>
    cases put
    exact .inl ⟨rfl, rfl⟩
  case h_2 a attached =>
    obtain ⟨si, here, put⟩ := Option.bind_eq_some_iff.mp put
    obtain ⟨si', counted, same⟩ := Option.map_eq_some_iff.mp put
    dsimp only at same
    have view := view_put here counted
    split at same
    case isTrue =>
      cases same
      have slots := congrArg View.slots view
      exact .inr ⟨a, rfl, attached, View.ext rfl slots⟩
    case isFalse =>
      cases same
      exact .inl ⟨rfl, view⟩

end State

/-! ## Slots that go -/

namespace View

variable {v v₁ v₂ : View} {H H₁ H₂ : Addr → Nat → Prop} {F F₁ F₂ : Addr → Prop}

theorem bind_slots_modify {β : Type*} {a : Addr} {f : Slots → Slots} (g : Slots → Option β)
    (y : Addr) :
    ((v.modify a f).slots y).bind g =
      if y = a then (v.slots a).bind fun sl => g (f sl) else (v.slots y).bind g := by
  simp only [modify, Function.update_apply]
  split
  case isTrue => exact Option.bind_map
  case isFalse => rfl

theorem entry_iff {a y : Addr} {j : Nat} :
    v.Entry a j y ↔
      (∃ x, v.scorwInode x = some a) ∧ (v.slots a).bind (·.child j) = some y := by
  simp only [Entry, Option.bind_eq_some_iff]
  constructor
  · rintro ⟨x, sl, owner, here, child⟩
    exact ⟨⟨x, owner⟩, sl, here, child⟩
  · rintro ⟨⟨x, owner⟩, sl, here, child⟩
    exact ⟨x, sl, owner, here, child⟩

theorem scorwInode_detach_eq_some {x y : Ino} {a : Addr} :
    (v.detach x).scorwInode y = some a ↔ y ≠ x ∧ v.scorwInode y = some a := by
  simp only [detach, Function.update_apply]
  split
  case isTrue same => simp [same]
  case isFalse other => simp [other]

/-- The slots in `H` are no longer there, the `scorw_inode`s in `F` are freed, and all else is
as before. -/
structure Drops (v v' : View) (H : Addr → Nat → Prop) (F : Addr → Prop) : Prop where
  entry : ∀ a j b, v'.Entry a j b ↔ v.Entry a j b ∧ ¬ H a j
  gone : ∀ b, F b → v'.slots b = none
  kept : ∀ b, ¬ F b → (v'.slots b).map Slots.atIndex = (v.slots b).map Slots.atIndex

/-- A freed `scorw_inode` must be in no slot that is left. -/
theorem Drops.indexed_iff {v' : View} (drops : Drops v v' H F) (indexed : v.Indexed) :
    v'.Indexed ↔ ∀ a j b, v.Entry a j b → F b → H a j := by
  constructor
  · intro after a j b entry freed
    by_contra left
    obtain ⟨sl, here, _⟩ := after a j b ((drops.entry a j b).mpr ⟨entry, left⟩)
    rw [drops.gone b freed] at here
    cases here
  · intro none a j b entry
    obtain ⟨entry, left⟩ := (drops.entry a j b).mp entry
    have alive : ¬ F b := fun freed => left (none a j b entry freed)
    obtain ⟨sl, here, index⟩ := indexed a j b entry
    have same := drops.kept b alive
    rw [here, Option.map_some, index] at same
    exact Option.map_eq_some_iff.mp same

theorem Drops.refl (v : View) : Drops v v (fun _ _ => False) fun _ => False :=
  ⟨fun a j b => by simp, fun _ => False.elim, fun _ _ => rfl⟩

theorem Drops.trans (first : Drops v v₁ H₁ F₁) (second : Drops v₁ v₂ H₂ F₂) :
    Drops v v₂ (fun a j => H₁ a j ∨ H₂ a j) fun b => F₁ b ∨ F₂ b := by
  refine ⟨fun a j b => ?_, fun b freed => ?_, fun b alive => ?_⟩
  · rw [second.entry, first.entry]
    tauto
  · by_cases freed₂ : F₂ b
    · exact second.gone b freed₂
    · have same := second.kept b freed₂
      rw [first.gone b (freed.resolve_right freed₂)] at same
      exact Option.map_eq_none_iff.mp same
  · obtain ⟨alive₁, alive₂⟩ := not_or.mp alive
    rw [second.kept b alive₂, first.kept b alive₁]

theorem Drops.congr (drops : Drops v v₁ H F)
    (slots : ∀ a j b, v.Entry a j b → (H₁ a j ↔ H a j)) (freed : ∀ b, F₁ b ↔ F b) :
    Drops v v₁ H₁ F₁ := by
  refine ⟨fun a j b => ?_, fun b gone => drops.gone b ((freed b).mp gone),
    fun b alive => drops.kept b (mt (freed b).mpr alive)⟩
  rw [drops.entry]
  exact and_congr_right fun entry => not_congr (slots a j b entry).symm

theorem drops_detach {x : Ino} {a : Addr} (attached : v.scorwInode x = some a)
    (only : ∀ y, v.scorwInode y = some a → y = x) :
    Drops v (v.detach x) (fun b _ => b = a) fun _ => False := by
  refine ⟨fun b j c => ⟨?_, ?_⟩, fun _ => False.elim, fun _ _ => rfl⟩
  · rintro ⟨y, sl, owner, here, child⟩
    obtain ⟨other, owner⟩ := scorwInode_detach_eq_some.mp owner
    refine ⟨⟨y, sl, owner, here, child⟩, ?_⟩
    rintro rfl
    exact other (only y owner)
  · rintro ⟨⟨y, sl, owner, here, child⟩, left⟩
    have other : y ≠ x := by
      rintro rfl
      exact left (Option.some.inj (owner.symm.trans attached))
    exact ⟨y, sl, scorwInode_detach_eq_some.mpr ⟨other, owner⟩, here, child⟩

theorem drops_free {a : Addr} (unowned : ∀ y, v.scorwInode y ≠ some a) :
    Drops v (v.free a) (fun _ _ => False) (· = a) := by
  refine ⟨fun b j c => ⟨?_, ?_⟩, ?_, fun b other => ?_⟩
  · rintro ⟨y, sl, owner, here, child⟩
    have other : b ≠ a := fun same => unowned y (same ▸ owner)
    simp only [free, Function.update_of_ne other] at here
    exact ⟨⟨y, sl, owner, here, child⟩, id⟩
  · rintro ⟨⟨y, sl, owner, here, child⟩, _⟩
    have other : b ≠ a := fun same => unowned y (same ▸ owner)
    refine ⟨y, sl, owner, ?_, child⟩
    simp only [free, Function.update_of_ne other, here]
  · rintro b rfl
    exact Function.update_self ..
  · simp only [free, Function.update_of_ne other]

theorem drops_release {x : Ino} {a : Addr} (attached : v.scorwInode x = some a)
    (only : ∀ y, v.scorwInode y = some a → y = x) :
    Drops v ((v.detach x).free a) (fun b _ => b = a) (· = a) := by
  have unowned : ∀ y, (v.detach x).scorwInode y ≠ some a := by
    intro y owner
    obtain ⟨other, owner⟩ := scorwInode_detach_eq_some.mp owner
    exact other (only y owner)
  refine ((drops_detach attached only).trans (drops_free unowned)).congr
    (fun _ _ _ _ => ?_) fun _ => ?_
  · simp
  · simp

/-- A slot is emptied. -/
theorem drops_modify {a : Addr} {i : Nat} {f : Slots → Slots}
    (index : ∀ sl, (f sl).atIndex = sl.atIndex)
    (child : ∀ sl, (f sl).child = Function.update sl.child i none) :
    Drops v (v.modify a f) (fun b j => b = a ∧ j = i) fun _ => False := by
  refine ⟨fun b j c => ?_, fun _ => False.elim, fun b _ => ?_⟩
  · rw [entry_iff, entry_iff, bind_slots_modify]
    by_cases same : b = a
    · subst same
      simp only [if_true, child, true_and]
      by_cases slot : j = i
      · simp [slot]
      · simp only [Function.update_of_ne slot, slot, not_false_eq_true, and_true]
        rfl
    · simp only [same, if_false, false_and, not_false_eq_true, and_true]
      rfl
  · by_cases same : b = a
    · subst same
      simp only [modify, Function.update_self, Option.map_map]
      exact congrArg (Option.map · _) (funext index)
    · simp only [modify, Function.update_of_ne same]

end View

/-! ## The last slot -/

/-- No child is beyond `i_last_child_index`. -/
def Slots.Bounded (sl : Slots) : Prop :=
  ∀ j b, sl.child j = some b → j < maxChilds ∧ (j : Int) ≤ sl.lastChildIndex

namespace Slots

variable {sl : Slots} {i : Nat}

theorem le_lastBelow {child : Nat → Option Addr} {n j : Nat} {b : Addr} (below : j < n)
    (here : child j = some b) : (j : Int) ≤ lastBelow child n := by
  induction n with
  | zero => omega
  | succ n ih =>
      unfold lastBelow
      split
      case isTrue => omega
      case isFalse free =>
        have other : j ≠ n := by
          rintro rfl
          simp [here] at free
        exact ih (by omega)

theorem Bounded.detach (bounded : sl.Bounded) (k : Nat) : (sl.detach k).Bounded := by
  intro j b child
  have other : j ≠ k := by
    rintro rfl
    simp [Slots.detach] at child
  simp only [Slots.detach, Function.update_of_ne other] at child
  obtain ⟨small, within⟩ := bounded j b child
  refine ⟨small, ?_⟩
  simp only [Slots.detach]
  split
  case isTrue last => exact le_lastBelow (by omega) child
  case isFalse => exact within

theorem Bounded.attach (bounded : sl.Bounded) (small : i < maxChilds) (b : Addr) :
    (sl.attach i b).Bounded := by
  intro j b' child
  simp only [Slots.attach, Function.update_apply] at child ⊢
  split at child
  case isTrue here =>
    subst here
    refine ⟨small, ?_⟩
    split
    case isTrue => exact le_rfl
    case isFalse => omega
  case isFalse =>
    obtain ⟨small, within⟩ := bounded j b' child
    refine ⟨small, ?_⟩
    split
    case isTrue => omega
    case isFalse => exact within

/-- While the slots are built, the last one is the one that was built last. -/
theorem Bounded.build (bounded : sl.Bounded) (small : i < maxChilds)
    (below : ∀ j b, sl.child j = some b → j < i) (b : Option Addr) :
    (sl.build i b).Bounded := by
  intro j b' child
  simp only [Slots.build, Function.update_apply] at child ⊢
  split at child
  case isTrue here => exact ⟨here ▸ small, by omega⟩
  case isFalse =>
    have earlier := below j b' child
    exact ⟨(bounded j b' child).1, by omega⟩

end Slots

/-- Every attached `scorw_inode` is that of its inode, and its slots are bounded. -/
structure View.Sound (v : View) : Prop where
  owner : ∀ x a, v.scorwInode x = some a → ∃ sl, v.slots a = some sl ∧ sl.ino = x
  bounded : ∀ a sl, v.slots a = some sl → sl.Bounded

namespace View.Sound

variable {v : View} {x : Ino} {a : Addr}

theorem only (sound : v.Sound) (attached : v.scorwInode x = some a) :
    ∀ y, v.scorwInode y = some a → y = x := by
  intro y other
  obtain ⟨sl, here, rfl⟩ := sound.owner x a attached
  obtain ⟨sl', here', rfl⟩ := sound.owner y a other
  rw [here] at here'
  rw [Option.some.inj here']

theorem detach (sound : v.Sound) (x : Ino) : (v.detach x).Sound := by
  refine ⟨fun y a attached => ?_, sound.bounded⟩
  exact sound.owner y a (scorwInode_detach_eq_some.mp attached).2

theorem free (sound : v.Sound) (unowned : ∀ y, v.scorwInode y ≠ some a) : (v.free a).Sound := by
  refine ⟨fun y b attached => ?_, fun b sl here => ?_⟩
  · have other : b ≠ a := by
      rintro rfl
      exact unowned y attached
    simp only [View.free, Function.update_of_ne other]
    exact sound.owner y b attached
  · simp only [View.free, Function.update_apply] at here
    split at here
    case isTrue => cases here
    case isFalse => exact sound.bounded b sl here

theorem release (sound : v.Sound) (only : ∀ y, v.scorwInode y = some a → y = x) :
    ((v.detach x).free a).Sound := by
  refine (sound.detach x).free fun y attached => ?_
  obtain ⟨other, attached⟩ := scorwInode_detach_eq_some.mp attached
  exact other (only y attached)

theorem modify {f : Slots → Slots} (sound : v.Sound) (ino : ∀ sl, (f sl).ino = sl.ino)
    (bounded : ∀ sl, v.slots a = some sl → (f sl).Bounded) : (v.modify a f).Sound := by
  refine ⟨fun y b attached => ?_, fun b sl here => ?_⟩
  · obtain ⟨sl, here, owner⟩ := sound.owner y b attached
    by_cases same : b = a
    · subst same
      exact ⟨f sl, by simp [View.modify, here], (ino sl).trans owner⟩
    · exact ⟨sl, by simp only [View.modify, Function.update_of_ne same, here], owner⟩
  · by_cases same : b = a
    · subst same
      simp only [View.modify, Function.update_self] at here
      obtain ⟨sl₀, found, rfl⟩ := Option.map_eq_some_iff.mp here
      exact bounded sl₀ found
    · simp only [View.modify, Function.update_of_ne same] at here
      exact sound.bounded b sl here

theorem create (sound : v.Sound) (absent : v.slots a = none) (x : Ino) :
    (v.create x a).Sound := by
  refine ⟨fun y b attached => ?_, fun b sl here => ?_⟩
  · simp only [View.create, Function.update_apply] at attached ⊢
    split at attached
    case isTrue self =>
      cases attached
      exact ⟨_, if_pos rfl, self.symm⟩
    case isFalse =>
      obtain ⟨sl, here, owner⟩ := sound.owner y b attached
      have other : b ≠ a := by
        rintro rfl
        rw [absent] at here
        cases here
      exact ⟨sl, by rw [if_neg other, here], owner⟩
  · simp only [View.create, Function.update_apply] at here
    split at here
    case isTrue =>
      cases here
      intro j b child
      cases child
    case isFalse => exact sound.bounded b sl here

end View.Sound

theorem ScorwInode.unused_of_put {si si' : ScorwInode} (counted : si.put false = some si') :
    si'.unused = true ↔
      si.usageCount = 1 ∧ si.addedToPageCopy = si.removedFromPageCopy := by
  unfold ScorwInode.put at counted
  simp only [Bool.false_eq_true, if_false] at counted
  split at counted
  case isTrue => cases counted
  case isFalse used =>
    rw [← Option.some.inj counted]
    simp only [ScorwInode.unused, Bool.and_eq_true, beq_iff_eq]
    refine and_congr_left fun _ => ?_
    omega

namespace State

variable {s s' : State} {a b : Addr} {si si' : ScorwInode} {c q : Ino}

theorem lastUse_iff_unused (here : s.heap.cell a = some si) (counted : si.put false = some si') :
    s.LastUse a ↔ si'.unused = true := by
  rw [ScorwInode.unused_of_put counted]
  constructor
  · rintro ⟨si₀, here₀, last⟩
    rw [here] at here₀
    cases here₀
    exact last
  · exact fun last => ⟨si, here, last⟩

/-- Putting a parent frees it with the last reference. -/
theorem view_putParOfChild (put : s.putParOfChild q = some s') :
    (∀ a, s.scorwInode q = some a → ¬ s.LastUse a) ∧ s'.view = s.view ∨
      ∃ a, s.scorwInode q = some a ∧ s.LastUse a ∧ s'.view = (s.view.detach q).free a := by
  unfold putParOfChild at put
  split at put
  case h_1 absent =>
    cases put
    refine .inl ⟨fun a attached => ?_, rfl⟩
    rw [absent] at attached
    cases attached
  case h_2 a attached =>
    obtain ⟨si, here, put⟩ := Option.bind_eq_some_iff.mp put
    obtain ⟨si', counted, put⟩ := Option.bind_eq_some_iff.mp put
    have last := lastUse_iff_unused here counted
    split at put
    case isTrue unused =>
      split at put
      case isTrue => cases put
      case isFalse =>
        cases put
        exact .inr ⟨a, attached, last.mpr unused, view_release s q a⟩
    case isFalse used =>
      cases put
      refine .inl ⟨fun a' attached' => ?_, view_put here counted⟩
      cases attached.symm.trans attached'
      exact mt last.mp used

theorem view_detach (detached : s.detach c si = some s') :
    si.atIndex = none ∧ s'.view = s.view ∨
      ∃ k a, si.atIndex = some k ∧ si.par.bind s.scorwInode = some a ∧
        s'.view = s.view.modify a (·.detach k) := by
  obtain ⟨q, par, detached⟩ := Option.bind_eq_some_iff.mp detached
  split at detached
  case h_1 none =>
    cases detached
    exact .inl ⟨none, view_forgetChild s q c⟩
  case h_2 k slot =>
    obtain ⟨a, attached, rfl⟩ := Option.map_eq_some_iff.mp detached
    refine .inr ⟨k, a, slot, by rw [par]; exact attached, ?_⟩
    rw [view_forgetChild, view_modifySlots]
    rfl

theorem parScorwInode_eq (attached : s.scorwInode c = some b) (here : s.heap.cell b = some si) :
    s.parScorwInode c = si.par.bind s.scorwInode := by
  simp [parScorwInode, attached, here]

/-- What putting the parent does, when its child `c` is put. -/
inductive PutsPar (s : State) (c : Ino) : View → Prop
  | used : (∀ a, s.parScorwInode c = some a → ¬ s.LastUse a) → PutsPar s c s.view
  | freed (q : Ino) (a : Addr) : q ≠ c → s.scorwInode q = some a →
      s.parScorwInode c = some a → s.LastUse a → PutsPar s c ((s.view.detach q).free a)

theorem PutsPar.before {v : View} (puts : s.PutsPar c v) {x : Ino}
    (attached : v.scorwInode x = some a) : s.scorwInode x = some a := by
  cases puts with
  | used => exact attached
  | freed q a' => exact (View.scorwInode_detach_eq_some.mp attached).2

/-- What putting the child `c` does after that. -/
inductive PutsChild (s : State) (c : Ino) (b : Addr) (v : View) : View → Prop
  | used : ¬ s.LastUse b → PutsChild s c b v v
  | freed : s.LastUse b → (∀ a j, ¬ s.Clears c a j) → PutsChild s c b v ((v.detach c).free b)
  | detached (a : Addr) (k : Nat) : s.LastUse b →
      (∀ a' j, s.Clears c a' j ↔ a' = a ∧ j = k) →
      PutsChild s c b v (((v.modify a (·.detach k)).detach c).free b)

/-- The parent is put while the child is counted down already. -/
theorem putsPar_of_put (sound : s.view.Sound) {s₁ : State} (attached : s.scorwInode c = some b)
    (here : s.heap.cell b = some si) (counted : si.put false = some si')
    (other : si.par ≠ some c)
    (par : si.par.elim (some (s.modify b fun _ => si')) (s.modify b fun _ => si').putParOfChild =
      some s₁) : s.PutsPar c s₁.view := by
  have same := view_put here counted
  have parEq := parScorwInode_eq attached here
  cases hasPar : si.par with
  | none =>
      simp only [hasPar, Option.elim_none, Option.some.injEq] at par
      rw [← par, same]
      refine .used fun a parAttached => ?_
      rw [parEq, hasPar] at parAttached
      cases parAttached
  | some q =>
      simp only [hasPar, Option.elim_some] at par
      have apart : q ≠ c := fun self => other (self ▸ hasPar)
      -- the parent's cell is not the one that was counted down
      have lastUse : ∀ a, s.scorwInode q = some a →
          ((s.modify b fun _ => si').LastUse a ↔ s.LastUse a) := by
        intro a parAttached
        have elsewhere : a ≠ b := by
          rintro rfl
          exact apart (sound.only attached q parAttached)
        simp only [LastUse, modify, Heap.cell_modify, if_neg elsewhere]
      rcases view_putParOfChild par with ⟨used, view⟩ | ⟨a, parAttached, last, view⟩
      · rw [view, same]
        refine .used fun a parAttached => ?_
        rw [parEq, hasPar] at parAttached
        exact mt (lastUse a parAttached).mpr (used a parAttached)
      · rw [view, same]
        refine .freed q a apart parAttached ?_ ((lastUse a parAttached).mp last)
        rw [parEq, hasPar]
        exact parAttached

theorem clears_iff (attached : s.scorwInode c = some b) (here : s.heap.cell b = some si)
    (last : s.LastUse b) (a : Addr) (j : Nat) :
    s.Clears c a j ↔
      si.unlinked = true ∧ si.atIndex = some j ∧ si.par.bind s.scorwInode = some a := by
  have parEq := parScorwInode_eq attached here
  constructor
  · rintro ⟨parAttached, b', si₀, attached', here', _, unlinked, index⟩
    cases attached.symm.trans attached'
    cases here.symm.trans here'
    exact ⟨unlinked, index, parEq ▸ parAttached⟩
  · rintro ⟨unlinked, index, parAttached⟩
    exact ⟨parEq ▸ parAttached, b, si, attached, here, last, unlinked, index⟩

/-- The last reference of a child is gone, after its parent was put. -/
theorem putsChild_of_last {s₁ s₂ : State} (attached : s.scorwInode c = some b)
    (here : s.heap.cell b = some si) (last : s.LastUse b) (first : s.PutsPar c s₁.view)
    (detached : (if si.unlinked then s₁.detach c si else some s₁) = some s₂) :
    s.PutsChild c b s₁.view ((s₂.view.detach c).free b) := by
  have clears := clears_iff attached here last
  split at detached
  case isTrue unlinked =>
    rcases view_detach detached with ⟨none, view⟩ | ⟨k, a, slot, parAttached, view⟩
    · rw [view]
      refine .freed last fun a j cleared => ?_
      rw [((clears a j).mp cleared).2.1] at none
      cases none
    · rw [view]
      refine .detached a k last fun a' j => ?_
      rw [clears]
      obtain ⟨q, hasPar, found⟩ := Option.bind_eq_some_iff.mp parAttached
      have before : si.par.bind s.scorwInode = some a := by
        rw [hasPar]
        exact first.before found
      rw [before, slot]
      simp only [unlinked, true_and, Option.some.injEq]
      exact ⟨fun ⟨index, par⟩ => ⟨par.symm, index.symm⟩,
        fun ⟨par, index⟩ => ⟨index.symm, par.symm⟩⟩
  case isFalse linked =>
    cases detached
    refine .freed last fun a j cleared => ?_
    exact linked ((clears a j).mp cleared).1

theorem view_putChild (sound : s.view.Sound) (put : s.putChild c = some s') :
    s.scorwInode c = none ∧ s'.view = s.view ∨
      ∃ b v₁, s.scorwInode c = some b ∧ s.PutsPar c v₁ ∧ s.PutsChild c b v₁ s'.view := by
  rcases putChild_eq_some put with
    ⟨absent, rfl⟩ | ⟨b, si, si', s₁, attached, here, counted, other, par, rest⟩
  · exact .inl ⟨absent, rfl⟩
  · have first := putsPar_of_put sound attached here counted other par
    refine .inr ⟨b, s₁.view, attached, first, ?_⟩
    have last := lastUse_iff_unused here counted
    rcases rest with ⟨used, rfl⟩ | ⟨unused, s₂, detached, rfl⟩
    · exact .used (mt last.mp (by simp [used]))
    · rw [view_release]
      exact putsChild_of_last attached here (last.mpr unused) first detached

theorem PutsPar.drops {v : View} (puts : s.PutsPar c v) (sound : s.view.Sound) :
    View.Drops s.view v (fun a _ => s.parScorwInode c = some a ∧ s.LastUse a)
      fun a => s.parScorwInode c = some a ∧ s.LastUse a := by
  cases puts with
  | used kept =>
      refine (View.Drops.refl _).congr (fun a _ _ _ => ?_) fun a => ?_
      · exact iff_false_intro fun ⟨par, last⟩ => kept a par last
      · exact iff_false_intro fun ⟨par, last⟩ => kept a par last
  | freed q a other attached par last =>
      have same : ∀ x, s.parScorwInode c = some x ∧ s.LastUse x ↔ x = a := by
        intro x
        constructor
        · exact fun both => Option.some.inj (both.1.symm.trans par)
        · rintro rfl
          exact ⟨par, last⟩
      exact (View.drops_release attached (sound.only attached)).congr
        (fun x _ _ _ => same x) same

theorem PutsChild.drops {v v' : View} (puts : s.PutsChild c b v v')
    (attached : v.scorwInode c = some b) (only : ∀ y, v.scorwInode y = some b → y = c) :
    View.Drops v v' (fun a j => a = b ∧ s.LastUse b ∨ s.LastUse b ∧ s.Clears c a j)
      fun a => a = b ∧ s.LastUse b := by
  cases puts with
  | used kept =>
      refine (View.Drops.refl _).congr (fun a _ _ _ => ?_) fun a => ?_
      · simp [kept]
      · simp [kept]
  | freed last spared =>
      refine (View.drops_release attached only).congr (fun a j _ _ => ?_) fun a => ?_
      · simp [last, spared a j]
      · simp [last]
  | detached a k last clears =>
      have emptied : View.Drops v (v.modify a (·.detach k)) (fun b j => b = a ∧ j = k)
          fun _ => False := View.drops_modify (fun _ => rfl) fun _ => rfl
      refine (emptied.trans (View.drops_release attached only)).congr
        (fun a' j _ _ => ?_) fun _ => ?_
      · simp only [last, and_true, true_and, clears]
        exact or_comm
      · simp [last]

/-- Putting a child frees what has its last reference, and clears the slot of an unlinked
child. -/
theorem putChild_drops (sound : s.view.Sound) (put : s.putChild c = some s') :
    View.Drops s.view s'.view (fun a j => s.Frees c a ∨ s.Clears c a j) (s.Frees c) := by
  rcases view_putChild sound put with ⟨absent, view⟩ | ⟨b, v₁, attached, first, second⟩
  · have noPar : s.parScorwInode c = none := by simp [parScorwInode, absent]
    have spared : ∀ a, ¬ s.Frees c a := by
      rintro a ⟨own | par, _⟩
      · rw [absent] at own
        cases own
      · rw [noPar] at par
        cases par
    rw [view]
    refine (View.Drops.refl _).congr (fun a j _ _ => iff_false_intro ?_)
      fun a => iff_false_intro (spared a)
    rintro (freed | ⟨par, _⟩)
    · exact spared a freed
    · rw [noPar] at par
      cases par
  · have only : ∀ y, v₁.scorwInode y = some b → y = c := fun y owner =>
      sound.only attached y (first.before owner)
    have still : v₁.scorwInode c = some b := by
      cases first with
      | used => exact attached
      | freed q a other =>
          exact View.scorwInode_detach_eq_some.mpr ⟨other.symm, attached⟩
    have par := first.drops sound
    have child := second.drops still only
    have own : ∀ a, s.Frees c a ↔
        (s.parScorwInode c = some a ∧ s.LastUse a) ∨ a = b ∧ s.LastUse b := by
      intro a
      have same : s.scorwInode c = some a ↔ a = b := by
        rw [attached, Option.some.injEq]
        exact eq_comm
      unfold Frees
      rw [same, or_and_right, or_comm]
      exact or_congr_right (and_congr_right fun here => by rw [here])
    have last : ∀ a j, s.Clears c a j → s.LastUse b := by
      rintro a j ⟨_, b', _, attached', _, last, _⟩
      cases attached.symm.trans attached'
      exact last
    refine (par.trans child).congr (fun a j _ _ => ?_) own
    rw [own, or_assoc]
    exact or_congr_right (or_congr_right ⟨fun clears => ⟨last a j clears, clears⟩, And.right⟩)

theorem PutsPar.sound {v : View} (puts : s.PutsPar c v) (sound : s.view.Sound) : v.Sound := by
  cases puts with
  | used => exact sound
  | freed q a _ attached => exact sound.release (sound.only attached)

theorem PutsChild.sound {v v' : View} (puts : s.PutsChild c b v v') (sound : v.Sound)
    (only : ∀ y, v.scorwInode y = some b → y = c) : v'.Sound := by
  cases puts with
  | used => exact sound
  | freed => exact sound.release only
  | detached a k =>
      have emptied : (v.modify a (·.detach k)).Sound :=
        sound.modify (fun _ => rfl) fun sl here => (sound.bounded a sl here).detach k
      exact emptied.release only

theorem putChild_sound (sound : s.view.Sound) (put : s.putChild c = some s') :
    s'.view.Sound := by
  rcases view_putChild sound put with ⟨_, view⟩ | ⟨b, v₁, attached, first, second⟩
  · rw [view]
    exact sound
  · exact second.sound (first.sound sound) fun y owner =>
      sound.only attached y (first.before owner)

theorem PutsPar.spared {v : View} (puts : s.PutsPar c v)
    (unowned : ∀ x, s.scorwInode x ≠ some a) : v.slots a = s.slots a := by
  cases puts with
  | used => rfl
  | freed q a' _ attached =>
      have other : a ≠ a' := by
        rintro rfl
        exact unowned q attached
      simp only [View.free, View.detach, Function.update_of_ne other]
      rfl

theorem PutsChild.before {v v' : View} (puts : s.PutsChild c b v v') {x : Ino}
    (attached : v'.scorwInode x = some a) : v.scorwInode x = some a := by
  cases puts with
  | used => exact attached
  | freed => exact (View.scorwInode_detach_eq_some.mp attached).2
  | detached a' k =>
      have emptied := (View.scorwInode_detach_eq_some (v := v.modify a' _)).mp attached
      exact emptied.2

theorem PutsChild.spared {v v' : View} (puts : s.PutsChild c b v v')
    (attached : s.scorwInode c = some b) (unowned : ∀ x, s.scorwInode x ≠ some a) :
    v'.slots a = v.slots a := by
  have other : a ≠ b := by
    rintro rfl
    exact unowned c attached
  cases puts with
  | used => rfl
  | freed => simp only [View.free, View.detach, Function.update_of_ne other]
  | detached a' k _ clears =>
      have apart : a ≠ a' := by
        rintro rfl
        obtain ⟨par, _⟩ := (clears a k).mpr ⟨rfl, rfl⟩
        obtain ⟨_, _, par⟩ := Option.bind_eq_some_iff.mp par
        obtain ⟨q, _, owner⟩ := Option.bind_eq_some_iff.mp par
        exact unowned q owner
      simp only [View.free, View.detach, View.modify, Function.update_of_ne other,
        Function.update_of_ne apart]

/-- Putting a child attaches nothing, and leaves a `scorw_inode` alone that belongs to no
inode any more. -/
theorem putChild_unowned (sound : s.view.Sound) (put : s.putChild c = some s') :
    (∀ x, s.scorwInode x = none → s'.scorwInode x = none) ∧
      ∀ a, (∀ x, s.scorwInode x ≠ some a) → s'.slots a = s.slots a := by
  rcases view_putChild sound put with ⟨_, view⟩ | ⟨b, v₁, attached, first, second⟩
  · refine ⟨fun x absent => ?_, fun a _ => congrFun (congrArg View.slots view) a⟩
    exact (congrFun (congrArg View.scorwInode view) x).trans absent
  · refine ⟨fun x absent => ?_, fun a unowned => ?_⟩
    · cases found : s'.scorwInode x with
      | none => rfl
      | some a =>
          have before := first.before (second.before found)
          rw [absent] at before
          cases before
    · exact (second.spared attached unowned).trans (first.spared unowned)

end State

/-! ## Children that are attached -/

namespace View

variable {v : View} {x : Ino} {a b n : Addr} {i : Nat} {f : Slots → Slots}

/-- A child is put into a slot of the `scorw_inode` at `a`, and gets to know it. -/
def place (v : View) (a b : Addr) (i : Nat) (f : Slots → Slots) : View :=
  (v.modify a f).modify b fun sl => { sl with atIndex := some i }

theorem indexed_iff :
    v.Indexed ↔ ∀ a j y, v.Entry a j y → (v.slots y).bind (·.atIndex) = some j := by
  simp only [Indexed, Option.bind_eq_some_iff]

theorem atIndex_place (index : ∀ sl, (f sl).atIndex = sl.atIndex) (known : (v.slots b).isSome)
    (y : Addr) :
    ((v.place a b i f).slots y).bind (·.atIndex) =
      if y = b then some i else (v.slots y).bind (·.atIndex) := by
  rw [place, bind_slots_modify]
  split
  case isTrue =>
    have still : ((v.modify a f).slots b).isSome := by
      simp only [modify, Function.update_apply]
      split
      case isTrue same => simpa [same] using known
      case isFalse => exact known
    obtain ⟨sl, here⟩ := Option.isSome_iff_exists.mp still
    rw [here]
    rfl
  case isFalse =>
    rw [bind_slots_modify]
    simp only [index]
    split
    case isTrue same => rw [same]
    case isFalse => rfl

theorem child_place (present : (v.slots a).isSome)
    (child : ∀ sl, (f sl).child = Function.update sl.child i (some b)) (a' : Addr) (j : Nat) :
    ((v.place a b i f).slots a').bind (·.child j) =
      if a' = a ∧ j = i then some b else (v.slots a').bind (·.child j) := by
  obtain ⟨sl, here⟩ := Option.isSome_iff_exists.mp present
  have first : ((v.modify a f).slots a').bind (·.child j) =
      if a' = a ∧ j = i then some b else (v.slots a').bind (·.child j) := by
    rw [bind_slots_modify]
    by_cases same : a' = a
    · simp [same, here, child, Function.update_apply]
    · simp [same]
  rw [← first, place, bind_slots_modify]
  split
  case isTrue same => rw [same]
  case isFalse => rfl

theorem entry_place (owner : v.scorwInode x = some a) (present : (v.slots a).isSome)
    (child : ∀ sl, (f sl).child = Function.update sl.child i (some b)) (a' : Addr) (j : Nat)
    (y : Addr) :
    (v.place a b i f).Entry a' j y ↔
      a' = a ∧ j = i ∧ y = b ∨ ¬ (a' = a ∧ j = i) ∧ v.Entry a' j y := by
  rw [entry_iff, entry_iff, child_place present child]
  by_cases this : a' = a ∧ j = i
  · rw [if_pos this, Option.some.injEq]
    obtain ⟨rfl, rfl⟩ := this
    simp only [true_and, not_true_eq_false, false_and, or_false]
    exact ⟨fun ⟨_, same⟩ => same.symm, fun same => ⟨⟨x, owner⟩, same.symm⟩⟩
  · rw [if_neg this]
    simp only [this, not_false_eq_true, true_and]
    refine ⟨.inr, fun either => either.resolve_left fun ⟨same, index, _⟩ => this ⟨same, index⟩⟩

/-- A child must not be in any other slot when it is attached. -/
theorem indexed_place_iff (indexed : v.Indexed) (owner : v.scorwInode x = some a)
    (present : (v.slots a).isSome) (known : (v.slots b).isSome)
    (index : ∀ sl, (f sl).atIndex = sl.atIndex)
    (child : ∀ sl, (f sl).child = Function.update sl.child i (some b)) :
    (v.place a b i f).Indexed ↔ ∀ a' j, v.Entry a' j b → j = i := by
  rw [indexed_iff]
  simp only [atIndex_place index known, entry_place owner present child]
  constructor
  · intro after a' j entry
    by_cases this : a' = a ∧ j = i
    · exact this.2
    · have here := after a' j b (.inr ⟨this, entry⟩)
      rw [if_pos rfl, Option.some.injEq] at here
      exact here.symm
  · rintro alone a' j y (⟨_, rfl, rfl⟩ | ⟨_, entry⟩)
    · rw [if_pos rfl]
    · split
      case isTrue same => rw [alone a' j (same ▸ entry)]
      case isFalse => exact indexed_iff.mp indexed a' j y entry

theorem entry_create {j : Nat} {y : Addr} (absent : v.slots n = none)
    (unattached : v.scorwInode x = none) :
    (v.create x n).Entry a j y ↔ v.Entry a j y := by
  constructor
  · rintro ⟨z, sl, owner, here, child⟩
    have other : a ≠ n := by
      rintro rfl
      simp only [create, Function.update_self, Option.some.injEq] at here
      subst here
      cases child
    have apart : z ≠ x := by
      rintro rfl
      simp only [create, Function.update_self, Option.some.injEq] at owner
      exact other owner.symm
    simp only [create, Function.update_of_ne other, Function.update_of_ne apart] at here owner
    exact ⟨z, sl, owner, here, child⟩
  · rintro ⟨z, sl, owner, here, child⟩
    have other : a ≠ n := by
      rintro rfl
      rw [absent] at here
      cases here
    have apart : z ≠ x := by
      rintro rfl
      rw [unattached] at owner
      cases owner
    refine ⟨z, sl, ?_, ?_, child⟩
    · simp only [create, Function.update_of_ne apart, owner]
    · simp only [create, Function.update_of_ne other, here]

theorem Indexed.create (indexed : v.Indexed) (absent : v.slots n = none)
    (unattached : v.scorwInode x = none) : (v.create x n).Indexed := by
  intro a j y entry
  obtain ⟨sl, here, index⟩ := indexed a j y ((entry_create absent unattached).mp entry)
  have other : y ≠ n := by
    rintro rfl
    rw [absent] at here
    cases here
  exact ⟨sl, by simp only [View.create, Function.update_of_ne other, here], index⟩

end View

namespace State

variable {s s' : State} {c p x : Ino} {a b : Addr} {i : Nat} {v : View}

theorem Gets.owner (gets : s.Gets c b v) : v.scorwInode c = some b := by
  cases gets with
  | existing _ si attached => exact attached
  | fresh => exact Function.update_self ..

theorem Gets.same (gets : s.Gets c b v) (attached : s.scorwInode c = some a) : v = s.view := by
  cases gets with
  | existing => rfl
  | fresh absent =>
      rw [attached] at absent
      cases absent

theorem Gets.linked (gets : s.Gets c b v) (attached : s.scorwInode c = some a) :
    ∃ si, s.heap.cell a = some si ∧ si.unlinked = false := by
  cases gets with
  | existing _ si here there linked =>
      cases here.symm.trans attached
      exact ⟨si, there, linked⟩
  | fresh absent =>
      rw [attached] at absent
      cases absent

theorem Gets.unique (gets : s.Gets c b v) (attached : s.scorwInode c = some a) : a = b := by
  cases gets with
  | existing _ si here => exact Option.some.inj (attached.symm.trans here)
  | fresh absent =>
      rw [attached] at absent
      cases absent

theorem Gets.sound (gets : s.Gets c b v) (sound : s.view.Sound) : v.Sound := by
  cases gets with
  | existing => exact sound
  | fresh => exact sound.create s.slots_next c

/-- Getting a child leaves the other `scorw_inode`s alone. -/
theorem Gets.kept (gets : s.Gets c b v) (sound : s.view.Sound)
    (attached : s.scorwInode x = some a) :
    v.scorwInode x = some a ∧ v.slots a = s.slots a := by
  cases gets with
  | existing => exact ⟨attached, rfl⟩
  | fresh absent =>
      obtain ⟨sl, here, _⟩ := sound.owner x a attached
      have other : a ≠ s.heap.next := by
        rintro rfl
        rw [show s.view.slots s.heap.next = none from s.slots_next] at here
        cases here
      have apart : x ≠ c := by
        rintro rfl
        rw [absent] at attached
        cases attached
      simp only [View.create, Function.update_of_ne other, Function.update_of_ne apart]
      exact ⟨attached, rfl⟩

/-- A child that was not attached is in no slot. -/
theorem Gets.indexed_place_iff {f : Slots → Slots} (gets : s.Gets c b v) (sound : s.view.Sound)
    (indexed : s.view.Indexed) (attached : s.scorwInode p = some a)
    (index : ∀ sl, (f sl).atIndex = sl.atIndex)
    (child : ∀ sl, (f sl).child = Function.update sl.child i (some b)) :
    (v.place a b i f).Indexed ↔ (s.scorwInode c = some b → s.InSlot b i) := by
  obtain ⟨owner, same⟩ := gets.kept sound attached
  have present : (v.slots a).isSome := by
    obtain ⟨sl, here, _⟩ := sound.owner p a attached
    rw [same]
    exact Option.isSome_of_eq_some here
  cases gets with
  | existing _ si here there linked =>
      rw [View.indexed_place_iff indexed owner present (by simp [view, slots, there]) index child]
      exact ⟨fun alone _ => alone, fun alone => alone here⟩
  | fresh absent =>
      have created := indexed.create s.slots_next absent
      rw [View.indexed_place_iff created owner present (by simp [View.create]) index child]
      refine iff_of_true (fun a' j entry => ?_) fun here => ?_
      · obtain ⟨sl, here, _⟩ := indexed a' j _ ((View.entry_create s.slots_next absent).mp entry)
        rw [show s.view.slots s.heap.next = none from s.slots_next] at here
        cases here
      · rw [absent] at here
        cases here

/-- What one turn of building the slots of a parent does. -/
inductive BuildsSlot (s : State) (p : Ino) (a : Addr) (i : Nat) (iget : Bool) : View → Prop
  | skipped : (∀ b, ¬ s.Reattaches p i iget b) → BuildsSlot s p a i iget s.view
  | emptied (f : Slots → Slots) : (∀ b, ¬ s.Reattaches p i iget b) →
      (∀ sl, (f sl).ino = sl.ino) →
      (∀ sl, (f sl).atIndex = sl.atIndex) →
      (∀ sl, (f sl).child = Function.update sl.child i none) →
      (∀ sl, (f sl).lastChildIndex = sl.lastChildIndex ∨ (f sl).lastChildIndex = i) →
      BuildsSlot s p a i iget (s.view.modify a f)
  | attached (b : Addr) (v : View) : s.Gets (s.childAttr p i) b v →
      (∀ b', s.Reattaches p i iget b' ↔ s.scorwInode (s.childAttr p i) = some b') →
      BuildsSlot s p a i iget (v.place a b i (·.build i (some b)))

theorem view_attachSlot {iget memory : Bool}
    (built : s.attachSlot p a i iget memory = some s') : s.BuildsSlot p a i iget s'.view := by
  unfold attachSlot at built
  dsimp only at built
  split at built
  case isTrue unnamed =>
    cases built
    rw [view_modifySlots]
    exact .emptied _ (fun b again => again.2.2.1 unnamed) (fun _ => rfl) (fun _ => rfl)
      (fun _ => rfl) fun _ => .inl rfl
  case isFalse named =>
    split at built
    case isTrue dangling =>
      cases built
      refine .skipped fun b ⟨read, isChild, _⟩ => ?_
      simp [read, isChild] at dangling
    case isFalse child =>
      obtain ⟨⟨got, s₁⟩, get, same⟩ := Option.map_eq_some_iff.mp built
      obtain ⟨read, isChild⟩ : iget = true ∧ s.isChildFile (s.childAttr p i) = true := by
        simpa using child
      rcases view_getChild get with ⟨rfl, view, unlinked⟩ | ⟨b, rfl, gets⟩
      · subst same
        rw [view_modifySlots, view]
        refine .emptied _ ?_ (fun _ => rfl) (fun _ => rfl) (fun _ => rfl) fun _ => .inr rfl
        exact fun b ⟨_, _, _, here, si, there, linked⟩ => unlinked b si here there linked
      · subst same
        have placed : s.BuildsSlot p a i iget (s₁.view.place a b i (·.build i (some b))) := by
          refine .attached b s₁.view gets fun b' => ⟨fun again => again.2.2.2.1, fun here => ?_⟩
          exact ⟨read, isChild, named, here, gets.linked here⟩
        convert placed using 1
        refine View.ext ?_ ?_
        · exact Function.update_eq_self_iff.mpr gets.owner.symm
        · rw [View.place, ← view_modifySlots, ← view_modifySlots]
          rfl

theorem view_attachClone {memory : Bool} (cloned : s.attachClone p c a i memory = some s') :
    ∃ b v, s.Gets c b v ∧ s'.view = v.place a b i (·.attach i b) := by
  unfold attachClone at cloned
  split at cloned
  case isTrue => cases cloned
  case isFalse =>
    obtain ⟨⟨got, s₁⟩, get, cloned⟩ := Option.bind_eq_some_iff.mp cloned
    obtain ⟨b, rfl, cloned⟩ := Option.bind_eq_some_iff.mp cloned
    obtain ⟨⟨again, s₃⟩, getAgain, same⟩ := Option.map_eq_some_iff.mp cloned
    obtain ⟨_, ⟨⟩, gets⟩ := (view_getChild get).resolve_left fun none => nomatch none.1
    subst same
    refine ⟨b, s₁.view, gets, ?_⟩
    have placed : ((s₁.modifySlots a (·.attach i b)).modifySlots b
        fun sl => { sl with atIndex := some i }).view = s₁.view.place a b i (·.attach i b) := by
      rw [view_modifySlots, view_modifySlots]
      rfl
    rw [← placed]
    rcases view_getChild getAgain with ⟨_, view, _⟩ | ⟨b', _, gets'⟩
    · exact view
    · exact gets'.same gets.owner

end State

/-! ## Steps -/

/-- What a step does to the slots, where it leaves the call, and what makes it orderly. -/
inductive Takes (s : System) (e : Event) : View → Call → Prop
  | still (call : Call) : (call = .idle ∨ ∃ p c n, call = .opening p c n) → Orderly s e →
      Takes s e s.state.view call
  | creates (x : Ino) (call : Call) : s.state.scorwInode x = none →
      (call = .idle ∨ ∃ special, call = .building x s.state.heap.next 0 special) →
      Orderly s e → Takes s e (s.state.view.create x s.state.heap.next) call
  | builds (p : Ino) (a : Addr) (i : Nat) (special : Option (Ino × Nat)) (iget : Bool) (v : View) :
      s.call = .building p a i special → i < maxChilds → s.state.BuildsSlot p a i iget v →
      (Orderly s e ↔ ∀ b, s.state.Reattaches p i iget b → s.state.InSlot b i) →
      Takes s e v (.building p a (i + 1) special)
  | clones (p c : Ino) (a b : Addr) (i : Nat) (v : View) : i < maxChilds →
      s.state.scorwInode p = some a → s.state.Gets c b v →
      (Orderly s e ↔ (s.state.scorwInode c = some b → s.state.InSlot b i)) →
      Takes s e (v.place a b i (·.attach i b)) .idle
  | leaves (p : Ino) (a : Addr) : s.state.scorwInode p = some a → Orderly s e →
      Takes s e (s.state.view.detach p) (.putting p a 0)
  | puts (c : Ino) (s₀ s₁ : State) (call : Call) : s₀.view = s.state.view →
      s₀.putChild c = some s₁ →
      (call = .idle ∨ ∃ p a i, s.call = .putting p a i ∧ call = .putting p a (i + 1)) →
      (Orderly s e ↔ s₀.PutsOrderly c) → Takes s e s₁.view call
  | passes (p : Ino) (a : Addr) (i : Nat) : s.call = .putting p a i → Orderly s e →
      Takes s e s.state.view (.putting p a (i + 1))
  | frees (p : Ino) (a : Addr) (i : Nat) : s.call = .putting p a i →
      (Orderly s e ↔ ∀ a' j, ¬ s.state.view.Entry a' j a) →
      Takes s e (s.state.view.free a) .idle

section Takes

variable {s s' : System} {e : Event} {p : Ino} {memory : Bool}

theorem resume_cases (p : Ino) (special : Option (Ino × Nat)) :
    Call.resume p special = .idle ∨ ∃ p' c n, Call.resume p special = .opening p' c n := by
  cases special with
  | none => exact .inl rfl
  | some rest => exact .inr ⟨p, rest.1, rest.2, rfl⟩

/-- `scorw_get_inode` of a parent, in a state with the same slots. -/
theorem takes_startGet {t : State} {special : Option (Ino × Nat)} (orderly : Orderly s e)
    (view : t.view = s.state.view) (next : t.heap = s.state.heap)
    (started : t.startGet p memory special = some s') : Takes s e s'.state.view s'.call := by
  obtain ⟨⟨got, t'⟩, get, rfl⟩ := Option.map_eq_some_iff.mp started
  rcases State.view_getPar get with ⟨rfl, same⟩ | ⟨rfl, absent, same⟩
  · dsimp only
    rw [same, view]
    exact .still _ (resume_cases p special) orderly
  · dsimp only
    rw [same, view, next]
    have unattached : s.state.scorwInode p = none :=
      (congrFun (congrArg View.scorwInode view) p).symm.trans absent
    exact .creates p _ unattached (.inr ⟨special, rfl⟩) orderly

theorem takes_startPut {t : State} {isThreadPutting : Bool} (orderly : Orderly s e)
    (view : t.view = s.state.view) (started : t.startPut p isThreadPutting = some s') :
    Takes s e s'.state.view s'.call := by
  obtain ⟨⟨got, t'⟩, put, rfl⟩ := Option.map_eq_some_iff.mp started
  rcases State.view_putPar put with ⟨rfl, same⟩ | ⟨a, rfl, attached, same⟩
  · dsimp only
    rw [same, view]
    exact .still _ (.inl rfl) orderly
  · dsimp only
    rw [same, view]
    have attached' : s.state.scorwInode p = some a :=
      (congrFun (congrArg View.scorwInode view) p).symm.trans attached
    exact .leaves p a attached' orderly

theorem takes_next {iget : Bool} (taken : s.next iget memory = some s') :
    Takes s (.next iget memory) s'.state.view s'.call := by
  unfold System.next at taken
  split at taken
  case h_1 => cases taken
  case h_2 p c call =>
    have orderly : Orderly s (.next iget memory) := by simp [Orderly, call]
    split at taken
    case isTrue => cases taken
    case isFalse =>
      obtain ⟨⟨got, t⟩, get, rfl⟩ := Option.map_eq_some_iff.mp taken
      rcases State.view_getChild get with ⟨_, view, _⟩ | ⟨b, _, gets⟩
      · dsimp only
        rw [view]
        exact .still _ (.inl rfl) orderly
      · dsimp only
        generalize t.view = v at gets ⊢
        cases gets with
        | existing => exact .still _ (.inl rfl) orderly
        | fresh absent => exact .creates c _ absent (.inl rfl) orderly
  case h_3 p c n call =>
    have orderly : Orderly s (.next iget memory) := by simp [Orderly, call]
    exact takes_startGet orderly rfl rfl taken
  case h_4 p a i special call =>
    split at taken
    case isTrue small =>
      obtain ⟨t, built, rfl⟩ := Option.map_eq_some_iff.mp taken
      refine .builds p a i special iget t.view call small (State.view_attachSlot built) ?_
      simp [Orderly, call, small]
    case isFalse large =>
      cases taken
      refine .still _ (resume_cases p special) ?_
      simp [Orderly, call, large]
  case h_5 p a i call =>
    split at taken
    case isTrue small =>
      obtain ⟨t, put, rfl⟩ := Option.map_eq_some_iff.mp taken
      obtain ⟨si, here, put⟩ := Option.bind_eq_some_iff.mp put
      split at put
      case h_1 empty =>
        cases put
        refine .passes p a i call ?_
        simp [Orderly, call, small, State.childAt, here, empty]
      case h_2 b child =>
        obtain ⟨ci, there, put⟩ := Option.bind_eq_some_iff.mp put
        split at put
        case isTrue => cases put
        case isFalse =>
          refine .puts ci.ino s.state t _ rfl put (.inr ⟨p, a, i, call, rfl⟩) ?_
          simp [Orderly, call, small, State.childAt, here, child, there]
    case isFalse large =>
      cases taken
      rw [State.view_free]
      refine .frees p a i call ?_
      simp [Orderly, call, large]

theorem view_markUnlinked (s : State) (b : Addr) : (s.markUnlinked b).view = s.view :=
  State.view_modify fun _ _ => rfl

theorem view_writeParBlocks {t t' : State} {blk : Nat} {shares : Nat → Bool}
    (written : t.writeParBlocks p blk shares = some t') : t'.view = t.view := by
  obtain ⟨a, _, written⟩ := Option.bind_eq_some_iff.mp written
  obtain ⟨sl, _, rfl⟩ := Option.map_eq_some_iff.mp written
  dsimp only
  split
  case isTrue =>
    have counted : (t.modify a fun si =>
        { si with addedToPageCopy := si.addedToPageCopy + 1 }).view = t.view :=
      State.view_modify fun _ _ => rfl
    exact counted
  case isFalse => rfl

theorem takes_call (taken : s.state.call e = some s') :
    Takes s e s'.state.view s'.call := by
  cases e with
  | openFile x memory =>
      have orderly : Orderly s (.openFile x memory) := trivial
      simp only [State.call, State.openFile] at taken
      split at taken
      case isTrue =>
        split at taken
        case isTrue => cases taken
        case isFalse =>
          exact takes_startGet (t := s.state.count x 1) orderly rfl rfl taken
      case isFalse =>
        split at taken
        case isTrue => exact takes_startGet (t := s.state.count x 1) orderly rfl rfl taken
        case isFalse =>
          cases taken
          exact .still _ (.inl rfl) orderly
  | releaseFile x =>
      have orderly : Orderly s (.releaseFile x) := trivial
      simp only [State.call, State.releaseFile] at taken
      split at taken
      case h_1 =>
        cases taken
        exact .still _ (.inl rfl) orderly
      case h_2 a attached =>
        obtain ⟨si, _, started⟩ := Option.bind_eq_some_iff.mp taken
        exact takes_startPut (t := s.state.count x (-1)) orderly rfl started
  | specialOpen p c index memory =>
      simp only [State.call, State.specialOpen] at taken
      split at taken
      case h_1 a attached =>
        obtain ⟨t, cloned, rfl⟩ := Option.map_eq_some_iff.mp taken
        obtain ⟨b, v, gets, view⟩ := State.view_attachClone cloned
        dsimp only
        rw [view]
        refine .clones p c a b index v index.isLt attached gets ?_
        simp only [Orderly, attached, Option.isSome_some, true_imp_iff]
        refine ⟨fun alone here => alone b here, fun alone b' here => ?_⟩
        cases gets.unique here
        exact alone here
      case h_2 absent =>
        cases taken
        refine .still _ ?_ (by simp [Orderly, absent])
        split
        case isTrue => exact .inr ⟨p, c, _, rfl⟩
        case isFalse => exact .inl rfl
  | unlink c iget =>
      simp only [State.call, State.unlinkChildFile] at taken
      obtain ⟨t, unlinked, rfl⟩ := Option.map_eq_some_iff.mp taken
      dsimp only
      split at unlinked
      case isTrue unread =>
        cases unlinked
        exact .still _ (.inl rfl) (by simp_all [Orderly])
      case isFalse read =>
        split at unlinked
        case h_1 b attached =>
          split at unlinked
          case isTrue par =>
            refine .puts c (s.state.markUnlinked b) t _ (view_markUnlinked _ b) unlinked
              (.inl rfl) ?_
            simp_all [Orderly]
          case isFalse par =>
            cases unlinked
            rw [view_markUnlinked]
            exact .still _ (.inl rfl) (by simp_all [Orderly])
        case h_2 absent =>
          cases unlinked
          rw [State.view_forgetChild]
          exact .still _ (.inl rfl) (by simp_all [Orderly])
  | writePar p blk shares =>
      obtain ⟨t, written, rfl⟩ := Option.map_eq_some_iff.mp taken
      dsimp only
      rw [view_writeParBlocks written]
      exact .still _ (.inl rfl) trivial
  | pageCopied =>
      obtain ⟨⟨p, t⟩, removed, started⟩ := Option.bind_eq_some_iff.mp taken
      have view : t.view = s.state.view := by
        unfold State.unpreparePageCopy at removed
        split at removed
        case h_1 => cases removed
        case h_2 =>
          obtain ⟨sl, _, same⟩ := Option.map_eq_some_iff.mp removed
          cases same
          rfl
      exact takes_startPut trivial view started
  | next iget memory => cases taken
  | setChildAttr p i c =>
      cases taken
      exact .still _ (.inl rfl) trivial
  | setParentAttr c p =>
      cases taken
      exact .still _ (.inl rfl) trivial

theorem takes_of_step {reply : Unit} (taken : step s e = some (reply, s')) :
    Takes s e s'.state.view s'.call := by
  obtain ⟨s₁, taken, same⟩ := Option.map_eq_some_iff.mp taken
  cases same
  split at taken
  case h_1 => exact takes_next taken
  case h_2 => exact takes_call taken
  case h_3 => cases taken

end Takes

/-! ## Runs -/

/-- What holds in every run. While the slots of a parent are built, only those before the
current one are in use; a parent whose children are put has no `scorw_inode` any more. -/
structure Known (v : View) (call : Call) : Prop where
  sound : v.Sound
  building : ∀ p a i special, call = .building p a i special → v.scorwInode p = some a ∧
    ∀ sl, v.slots a = some sl → ∀ j b, sl.child j = some b → j < i
  putting : ∀ p a i, call = .putting p a i → v.scorwInode p = none ∧
    ∃ sl, v.slots a = some sl ∧ sl.ino = p

namespace Known

variable {v : View} {call : Call}

theorem of_sound (sound : v.Sound) (rest : call = .idle ∨ ∃ p c n, call = .opening p c n) :
    Known v call := by
  refine ⟨sound, fun p a i special here => ?_, fun p a i here => ?_⟩
  · rcases rest with idle | ⟨_, _, _, opening⟩
    · cases idle.symm.trans here
    · cases opening.symm.trans here
  · rcases rest with idle | ⟨_, _, _, opening⟩
    · cases idle.symm.trans here
    · cases opening.symm.trans here

theorem of_building {p : Ino} {a : Addr} {i : Nat} {special : Option (Ino × Nat)}
    (sound : v.Sound) (owner : v.scorwInode p = some a)
    (below : ∀ sl, v.slots a = some sl → ∀ j b, sl.child j = some b → j < i) :
    Known v (.building p a i special) := by
  refine ⟨sound, fun _ _ _ _ here => ?_, fun _ _ _ here => ?_⟩
  · cases here
    exact ⟨owner, below⟩
  · cases here

theorem of_putting {p : Ino} {a : Addr} {i : Nat} (sound : v.Sound)
    (absent : v.scorwInode p = none) (alive : ∃ sl, v.slots a = some sl ∧ sl.ino = p) :
    Known v (.putting p a i) := by
  refine ⟨sound, fun _ _ _ _ here => ?_, fun _ _ _ here => ?_⟩
  · cases here
  · cases here
    exact ⟨absent, alive⟩

/-- A parent whose children are put is nobody's `scorw_inode`. -/
theorem unowned {p : Ino} {a : Addr} {i : Nat} (known : Known v (.putting p a i)) :
    ∀ x, v.scorwInode x ≠ some a := by
  intro x owner
  obtain ⟨absent, sl, here, ino⟩ := known.putting p a i rfl
  obtain ⟨sl', here', ino'⟩ := known.sound.owner x a owner
  cases here.symm.trans here'
  rw [← ino', ino, absent] at owner
  cases owner

end Known

theorem View.Sound.place {v : View} {a b : Addr} {i : Nat} {f : Slots → Slots} (sound : v.Sound)
    (ino : ∀ sl, (f sl).ino = sl.ino) (bounded : ∀ sl, v.slots a = some sl → (f sl).Bounded) :
    (v.place a b i f).Sound :=
  have changed := sound.modify ino bounded
  changed.modify (fun _ => rfl) fun sl here => changed.bounded b sl here

theorem State.BuildsSlot.known {s : State} {p : Ino} {a : Addr} {i : Nat} {iget : Bool} {v : View}
    {special : Option (Ino × Nat)} (builds : s.BuildsSlot p a i iget v)
    (known : Known s.view (.building p a i special)) (small : i < maxChilds) :
    Known v (.building p a (i + 1) special) := by
  obtain ⟨owner, below⟩ := known.building p a i special rfl
  cases builds with
  | skipped =>
      refine .of_building known.sound owner fun sl here j b child => ?_
      have := below sl here j b child
      omega
  | emptied f _ ino _ emptied last =>
      have left : ∀ sl j b, (f sl).child j = some b → sl.child j = some b := by
        intro sl j b child
        rw [emptied, Function.update_apply] at child
        split at child
        case isTrue => cases child
        case isFalse => exact child
      have sound : (s.view.modify a f).Sound := by
        refine known.sound.modify ino fun sl here j b child => ?_
        have old := left sl j b child
        obtain ⟨within, last'⟩ := known.sound.bounded a sl here j b old
        refine ⟨within, ?_⟩
        rcases last sl with same | new
        · rw [same]
          exact last'
        · rw [new]
          have := below sl here j b old
          omega
      refine .of_building sound owner fun sl here j b child => ?_
      simp only [View.modify, Function.update_self] at here
      obtain ⟨sl₀, found, rfl⟩ := Option.map_eq_some_iff.mp here
      have := below sl₀ found j b (left sl₀ j b child)
      omega
  | attached b v gets =>
      obtain ⟨owner', same⟩ := gets.kept known.sound owner
      have before : ∀ sl, v.slots a = some sl → ∀ j b, sl.child j = some b → j < i := by
        intro sl here
        exact below sl (same.symm.trans here)
      have sound := gets.sound known.sound
      have present : (v.slots a).isSome := by
        obtain ⟨sl, here, _⟩ := sound.owner p a owner'
        exact Option.isSome_of_eq_some here
      refine .of_building (sound.place (fun _ => rfl) fun sl here =>
        (sound.bounded a sl here).build small (before sl here) (some b)) owner'
        fun sl here j b' child => ?_
      have placed := View.child_place (f := (·.build i (some b))) present (fun _ => rfl) a j
      rw [here, Option.bind_some, child] at placed
      split at placed
      case isTrue both => omega
      case isFalse =>
        obtain ⟨sl₀, here₀, child₀⟩ := Option.bind_eq_some_iff.mp placed.symm
        have := before sl₀ here₀ j b' child₀
        omega

theorem Takes.known {s : System} {e : Event} {v : View} {call : Call} (takes : Takes s e v call)
    (known : Known s.state.view s.call) : Known v call := by
  have sound := known.sound
  cases takes with
  | still call rest => exact .of_sound sound rest
  | creates x call absent rest =>
      have created := sound.create s.state.slots_next x
      rcases rest with idle | ⟨special, rfl⟩
      · exact .of_sound created (.inl idle)
      · refine .of_building created (Function.update_self ..) fun sl here j b child => ?_
        simp only [View.create, Function.update_self, Option.some.injEq] at here
        subst here
        cases child
  | builds p a i special iget v here small builds =>
      rw [here] at known
      exact builds.known known small
  | clones p c a b i v small attached gets =>
      have got := gets.sound sound
      refine .of_sound (got.place (fun _ => rfl) fun sl here => ?_) (.inl rfl)
      exact (got.bounded a sl here).attach small b
  | leaves p a attached =>
      exact .of_putting (sound.detach p) (Function.update_self ..) (sound.owner p a attached)
  | puts c s₀ s₁ call view put rest =>
      rw [← view] at sound known
      have put' := State.putChild_sound sound put
      rcases rest with idle | ⟨p, a, i, here, rfl⟩
      · exact .of_sound put' (.inl idle)
      · rw [here] at known
        obtain ⟨absent, alive⟩ := known.putting p a i rfl
        obtain ⟨unattached, spared⟩ := State.putChild_unowned sound put
        refine .of_putting put' (unattached p absent) ?_
        have same : s₁.view.slots a = s₀.view.slots a := spared a known.unowned
        rw [same]
        exact alive
  | passes p a i here =>
      rw [here] at known
      obtain ⟨absent, alive⟩ := known.putting p a i rfl
      exact .of_putting sound absent alive
  | frees p a i here =>
      rw [here] at known
      exact .of_sound (sound.free known.unowned) (.inl rfl)

/-- A step keeps the children in their slots exactly when it is orderly. -/
theorem Takes.indexed_iff {s : System} {e : Event} {v : View} {call : Call}
    (takes : Takes s e v call) (known : Known s.state.view s.call)
    (indexed : s.state.view.Indexed) : v.Indexed ↔ Orderly s e := by
  have sound := known.sound
  cases takes with
  | still call _ orderly => exact iff_of_true indexed orderly
  | creates x call absent _ orderly =>
      exact iff_of_true (indexed.create s.state.slots_next absent) orderly
  | builds p a i special iget v here _ builds orderly =>
      rw [orderly]
      rw [here] at known
      obtain ⟨owner, _⟩ := known.building p a i special rfl
      cases builds with
      | skipped none => exact iff_of_true indexed fun b again => (none b again).elim
      | emptied f none _ index child =>
          have drops := View.drops_modify (v := s.state.view) (a := a) index child
          refine iff_of_true ((drops.indexed_iff indexed).mpr fun _ _ _ _ => False.elim)
            fun b again => (none b again).elim
      | attached b v gets again =>
          rw [gets.indexed_place_iff (f := (·.build i (some b))) sound indexed owner
            (fun _ => rfl) fun _ => rfl]
          simp only [again]
          refine ⟨fun alone b' attached => ?_, fun alone attached => alone b attached⟩
          cases gets.unique attached
          exact alone attached
  | clones p c a b i v _ attached gets orderly =>
      rw [orderly]
      exact gets.indexed_place_iff sound indexed attached (fun _ => rfl) fun _ => rfl
  | leaves p a attached orderly =>
      have drops := View.drops_detach attached (sound.only attached)
      exact iff_of_true ((drops.indexed_iff indexed).mpr fun _ _ _ _ => False.elim) orderly
  | puts c s₀ s₁ call view put _ orderly =>
      rw [← view] at sound indexed
      rw [orderly]
      exact (State.putChild_drops sound put).indexed_iff indexed
  | passes p a i _ orderly => exact iff_of_true indexed orderly
  | frees p a i here orderly =>
      rw [here] at known
      rw [orderly, (View.drops_free known.unowned).indexed_iff indexed]
      exact ⟨fun alone a' j entry => alone a' j a entry rfl,
        fun alone a' j b entry same => alone a' j (same ▸ entry)⟩

/-- After a mount. -/
def start (childAttr : Ino → Nat → Ino) (parentAttr : Ino → Ino) : System :=
  ⟨mounted childAttr parentAttr, .idle⟩

theorem known_start (childAttr : Ino → Nat → Ino) (parentAttr : Ino → Ino) :
    Known (start childAttr parentAttr).state.view (start childAttr parentAttr).call := by
  refine .of_sound ⟨fun x a owner => ?_, fun a sl here => ?_⟩ (.inl rfl)
  · cases owner
  · cases here

theorem indexed_start (childAttr : Ino → Nat → Ino) (parentAttr : Ino → Ino) :
    (start childAttr parentAttr).state.view.Indexed := by
  rintro a j b ⟨x, sl, owner, _⟩
  cases owner

/-- The loops come to every child. -/
theorem Slots.Bounded.mem_scanned {sl : Slots} (bounded : sl.Bounded) {j : Nat} {b : Addr}
    (child : sl.child j = some b) : j ∈ sl.scanned := by
  obtain ⟨_, within⟩ := bounded j b child
  rw [Slots.scanned, List.mem_range]
  omega

/-- In every run no child is beyond `i_last_child_index`, and the loops come to every child.
All states of a run have the children in the slots they know exactly when every step of it is
orderly. -/
theorem attached_children_scanned_iff (childAttr : Ino → Nat → Ino) (parentAttr : Ino → Ino)
    (events : List Event) (s : System) :
    (Run step (fun _ _ => True) (start childAttr parentAttr) events s →
      ∀ p a sl j b, s.state.scorwInode p = some a → s.state.slots a = some sl →
        sl.child j = some b →
          (j : Int) ≤ sl.lastChildIndex ∧ j ∈ sl.scanned ∧ b ∈ s.state.readBarrier p) ∧
    (Run step (fun s _ => s.state.view.Indexed) (start childAttr parentAttr) events s ∧
        s.state.view.Indexed ↔
      Run step Orderly (start childAttr parentAttr) events s) := by
  constructor
  · intro run p a sl j b attached here child
    have known : Known s.state.view s.call := run.invariant
      (fun _ _ _ _ known _ taken => (takes_of_step taken).known known)
      (known_start childAttr parentAttr)
    have bounded := known.sound.bounded a sl here
    refine ⟨(bounded j b child).2, bounded.mem_scanned child, ?_⟩
    simp only [State.readBarrier, attached, Option.bind_some, here, Option.map_some,
      Option.getD_some, List.mem_filterMap]
    exact ⟨j, bounded.mem_scanned child, child⟩
  · exact Run.exact_iff (P := fun s => s.state.view.Indexed)
      (Q := fun s => Known s.state.view s.call)
      (fun _ _ _ _ known _ _ taken => (takes_of_step taken).known known)
      (fun _ _ _ _ known indexed taken => (takes_of_step taken).indexed_iff known indexed)
      (known_start childAttr parentAttr) (indexed_start childAttr parentAttr)

/-- Opening a file, with all turns of building its slots. -/
def opens (x : Ino) : List Event :=
  .openFile x true :: List.replicate (maxChilds + 1) (.next true true)

/-- File 1 with the files that its slots name; `children` know it as their parent. -/
def oneParent (slots : List (Nat × Ino)) (children : List Ino) : System :=
  start (fun p i => if p = 1 then (slots.lookup i).getD 0 else 0)
    fun c => if c ∈ children then 1 else 0

/-- Slot 2 names a file that is no child. The parent is opened twice, and the child in the last
slot is unlinked. -/
theorem attached_children_scanned_unlinked :
    ∃ s sl, Run step (fun _ _ => True) (oneParent [(0, 3), (2, 9), (5, 4)] [3, 4])
        (opens 1 ++ [.openFile 1 true, .unlink 4 true]) s ∧
      s.state.scorwInode 1 = some 0 ∧ s.state.slots 0 = some sl ∧ sl.child 0 = some 1 ∧
      sl.child 5 = none ∧ sl.lastChildIndex = 0 ∧ 1 ∈ s.state.readBarrier 1 := by
  have computed : ((Run.exec step (fun _ _ => true) (oneParent [(0, 3), (2, 9), (5, 4)] [3, 4])
      (opens 1 ++ [.openFile 1 true, .unlink 4 true])).any fun s =>
        decide (s.state.scorwInode 1 = some 0) && (s.state.slots 0).any fun sl =>
          decide (sl.child 0 = some 1 ∧ sl.child 5 = none ∧ sl.lastChildIndex = 0)) = true := by
    decide +kernel
  obtain ⟨s, run, holds⟩ := Run.exists_of_exec (fun _ _ _ _ => trivial) computed
  obtain ⟨attached, slots⟩ := Bool.and_eq_true_iff.mp holds
  obtain ⟨sl, here, slots⟩ := (Option.any_eq_true _ _).mp slots
  obtain ⟨first, sixth, last⟩ := of_decide_eq_true slots
  have reached := (attached_children_scanned_iff _ _ _ s).1 run 1 0 sl 0 1
    (of_decide_eq_true attached) here first
  exact ⟨s, sl, run, of_decide_eq_true attached, here, first, sixth, last, reached.2.2⟩

/-- A file that two slots name, and a child that is cloned once more from its open parent. Both
are in slot 0 in the end, and have 1 in `i_at_index`. -/
theorem attached_children_scanned_fails :
    (∃ s, Run step (fun _ _ => True) (oneParent [(0, 3), (1, 3)] [3]) (opens 1) s ∧
      s.state.view.Entry 0 0 1 ∧ (s.state.slots 1).bind (·.atIndex) = some 1) ∧
    ∃ s, Run step (fun _ _ => True) (oneParent [(0, 3)] [3])
        (opens 1 ++ [.setChildAttr 1 1 3, .specialOpen 1 3 ⟨1, by decide⟩ true]) s ∧
      s.state.view.Entry 0 0 1 ∧ (s.state.slots 1).bind (·.atIndex) = some 1 := by
  have found {s₀ : System} {events : List Event}
      (computed : ((Run.exec step (fun _ _ => true) s₀ events).any fun s =>
        decide (s.state.scorwInode 1 = some 0 ∧
          (s.state.slots 0).bind (fun sl => sl.child 0) = some 1 ∧
          (s.state.slots 1).bind (fun sl => sl.atIndex) = some 1)) = true) :
      ∃ s, Run step (fun _ _ => True) s₀ events s ∧ s.state.view.Entry 0 0 1 ∧
        (s.state.slots 1).bind (·.atIndex) = some 1 :=
    Run.exists_imp (fun _ _ => true) (fun _ _ _ _ => trivial) computed
      fun _ _ ⟨attached, child, index⟩ => ⟨View.entry_iff.mpr ⟨⟨1, attached⟩, child⟩, index⟩
  exact ⟨found (by decide +kernel), found (by decide +kernel)⟩

end FlexClone.Scorw.Memory
