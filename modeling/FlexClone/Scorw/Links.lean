import FlexClone.Scorw.Family

/-!
# Links between parents and children

That a file is a child of another is stored twice: the child has the attribute
`SCORW_PARENT`, and the parent has an attribute `c_i` for one of 64 slots with the
child's inode number. `ext4_xattr_set` creates both and takes the first free slot;
unlinking the child clears the first slot with its number, at once or, if the child is
attached, when it is detached. Reading, writing and closing a file all ask whether it is
a child or a parent, and take for granted that it is not both.

`ext4_xattr_set` does not ask. `links_well_formed_iff` says which calls keep the
links well formed.
-/

namespace FlexClone.Scorw.Links

open Family (maxChilds maxChildsAlreadySet parentError)

instance : NeZero maxChilds := ⟨by decide⟩

/-- `struct scorw_inode`, as far as the links go. -/
structure ScorwInode (ι : Type*) where
  /-- `i_par_vfs_inode`, null in the `scorw_inode` of a parent -/
  par : Option ι
  unlinked : Bool
  deriving DecidableEq

/-- An inode. An attribute that is missing or 0 is `none`. -/
structure Inode (ι : Type*) where
  parent : Option ι
  child : Fin maxChilds → Option ι
  size : Nat
  scorwInode : Option (ScorwInode ι)

namespace Inode

variable {ι : Type*}

/-- A file that was just created. -/
def blank : Inode ι := ⟨none, fun _ => none, 0, none⟩

/-- `scorw_is_child_file` -/
def isChildFile (x : Inode ι) (consultExtendedAttributes : Bool) : Bool :=
  match x.scorwInode with
  | some si => si.par.isSome
  | none => consultExtendedAttributes && x.parent.isSome

/-- `scorw_is_par_file` -/
def isParFile (x : Inode ι) (consultExtendedAttributes : Bool) : Bool :=
  match x.scorwInode with
  | some si => si.par.isNone
  | none => consultExtendedAttributes && (List.finRange maxChilds).any fun i => (x.child i).isSome

/-- The first slot without a child. -/
def freeSlot (x : Inode ι) : Option (Fin maxChilds) :=
  (List.finRange maxChilds).find? fun i => (x.child i).isNone

/-- The first slot with a child. -/
def slotOf [DecidableEq ι] (x : Inode ι) (c : ι) : Option (Fin maxChilds) :=
  (List.finRange maxChilds).find? fun i => decide (x.child i = some c)

def setSlot (x : Inode ι) (i : Fin maxChilds) (value : Option ι) : Inode ι :=
  { x with child := Function.update x.child i value }

theorem child_of_slotOf [DecidableEq ι] {x : Inode ι} {c : ι} {i : Fin maxChilds}
    (found : x.slotOf c = some i) : x.child i = some c := by
  simpa using List.find?_some found

theorem child_of_freeSlot {x : Inode ι} {i : Fin maxChilds} (free : x.freeSlot = some i) :
    x.child i = none := by
  simpa using List.find?_some free

end Inode

/-- The inodes of a file system. -/
abbrev State (ι : Type*) := ι → Inode ι

variable {ι : Type*} [DecidableEq ι]

namespace State

/-- What a store in one inode leaves alone. -/
theorem proj_update {α : Type*} (f : Inode ι → α) {s : State ι} {c : ι} {x : Inode ι}
    (same : f x = f (s c)) (q : ι) : f (Function.update s c x q) = f (s q) := by
  by_cases here : q = c
  · subst here
    simp [same]
  · simp [here]

/-- The loops of `scorw_unlink_child_file` and `scorw_put_inode`: the first slot of `p`
with the child is cleared. -/
def removeChild (s : State ι) (p c : ι) : State ι :=
  match (s p).slotOf c with
  | some i => Function.update s p ((s p).setSlot i none)
  | none => s

/-- The child's number in a slot of the parent; nobody sees whether it is stored. -/
def storeSlot (s : State ι) (p : ι) (i : Fin maxChilds) (c : ι) (stored : Bool) : State ι :=
  if stored then Function.update s p ((s p).setSlot i (some c)) else s

def setSize (s : State ι) (x : ι) (size : Nat) : State ι :=
  Function.update s x { s x with size := size }

/-- `SCORW_PARENT` itself, unless there is an error. -/
def storeParent (s : State ι) (c p : ι) (error : Int) : State ι :=
  if error = 0 then Function.update s c { s c with parent := some p } else s

/-- `ext4_xattr_set` of `SCORW_PARENT` in `c` -/
def setParent (s : State ι) (c p : ι) (slotStored : Bool) (error : Int) : Int × State ι :=
  if (s p).size = 0 then (parentError, s)
  else
    match (s p).freeSlot with
    | none => (maxChildsAlreadySet, s)
    | some i =>
        (error, ((s.storeSlot p i c slotStored).setSize c (s p).size).storeParent c p error)

/-- `scorw_unlink_child_file`, for a file with this one name. An attached child is only
marked. -/
def unlinkChildFile (s : State ι) (c : ι) : Option (Int × State ι) :=
  match (s c).scorwInode with
  | some si =>
      if si.unlinked then none
      else some (0, Function.update s c
        { s c with scorwInode := some { si with unlinked := true } })
  | none => (s c).parent.map fun p => (0, Function.update (s.removeChild p c) c .blank)

/-- `scorw_get_inode` of a child, or `BUG_ON` -/
def getChild (s : State ι) (c : ι) : Option (State ι) :=
  (s c).parent.map fun p => Function.update s c { s c with scorwInode := some ⟨some p, false⟩ }

/-- `scorw_get_inode` of a parent: slots with an inode that is not a child are cleared. -/
def getPar (s : State ι) (p : ι) : State ι :=
  let s := Function.update s p { s p with scorwInode := some ⟨none, false⟩ }
  Function.update s p { s p with
    child := fun i => (s p).child i |>.filter fun c => (s c).isChildFile true }

/-- The last `scorw_put_inode`: an unlinked child leaves its parent, and is gone. -/
def putInode (s : State ι) (x : ι) : Option (State ι) :=
  (s x).scorwInode.map fun si =>
    match si with
    | ⟨some p, true⟩ => Function.update (s.removeChild p x) x .blank
    | _ => Function.update s x { s x with scorwInode := none }

end State

inductive Act (ι : Type*)
  | setParent (c p : ι) (slotStored : Bool) (error : Int)
  | unlink (c : ι)
  | attachChild (c : ι)
  | attachPar (p : ι)
  | detach (x : ι)
  | resize (x : ι) (size : Nat)
  deriving DecidableEq

/-- One step. When files are opened and closed is up to the environment, and so is the
attaching at the end of `ext4_xattr_set`. -/
def step (s : State ι) : Act ι → Option (Int × State ι)
  | .setParent c p slotStored error => some (s.setParent c p slotStored error)
  | .unlink c => if (s c).isChildFile true then s.unlinkChildFile c else none
  | .attachChild c =>
      if (s c).scorwInode.isSome then none else (s.getChild c).map fun s => (0, s)
  | .attachPar p =>
      if (s p).scorwInode.isSome ∨ (s p).isParFile true = false then none
      else some (0, s.getPar p)
  | .detach x => (s.putInode x).map fun s => (0, s)
  | .resize x size => some (0, s.setSize x size)

/-! ## Well-formed links -/

/-- The two attributes of a link belong together. -/
structure Linked (s : State ι) : Prop where
  child : ∀ c p, (s c).parent = some p → ∃ i, ∀ q j, (s q).child j = some c ↔ q = p ∧ j = i
  slot : ∀ q i c, (s q).child i = some c → (s c).parent = some q
  role : ∀ x p, (s x).parent = some p → ∀ i, (s x).child i = none

/-- Every child is in one slot of the parent it names, every slot has a child of its own
parent, and no file is a child and a parent. -/
structure WellFormed (s : State ι) : Prop extends Linked s where
  files : ∀ x, ¬ ((s x).isChildFile true = true ∧ (s x).isParFile true = true)

/-- What else holds of the files that are attached. -/
def Attached (s : State ι) : Prop :=
  ∀ c si p, (s c).scorwInode = some si → si.par = some p → (s c).parent = some p

/-- Neither file has a part in a family yet that the new link would get in the way of. -/
structure Fresh (s : State ι) (c p : ι) : Prop where
  other : c ≠ p
  noParent : (s c).parent = none
  noChild : ∀ i, (s c).child i = none
  noGrandparent : (s p).parent = none

/-- A call that is rejected, or stores nothing new, or stores both attributes of a fresh
link; and opening a parent none of whose children is attached as a parent. -/
def Orderly (s : State ι) : Act ι → Prop
  | .setParent c p slotStored error =>
      ((s p).size = 0 ∨ (s p).freeSlot = none) ∨
        (slotStored = false ∧ (error = 0 → (s c).parent = some p)) ∨
        (slotStored = true ∧ error = 0 ∧ Fresh s c p)
  | .attachPar p => ∀ i, ∀ c ∈ (s p).child i, (s c).isChildFile true = true
  | .unlink _ | .attachChild _ | .detach _ | .resize _ _ => True

instance (s : State ι) (c p : ι) : Decidable (Fresh s c p) :=
  decidable_of_iff (c ≠ p ∧ (s c).parent = none ∧ (∀ i, (s c).child i = none) ∧
      (s p).parent = none)
    ⟨fun ⟨other, noParent, noChild, noGrandparent⟩ => ⟨other, noParent, noChild, noGrandparent⟩,
      fun fresh => ⟨fresh.other, fresh.noParent, fresh.noChild, fresh.noGrandparent⟩⟩

instance (s : State ι) : DecidablePred (Orderly s)
  | .setParent _ _ _ _ => inferInstanceAs (Decidable (_ ∨ _))
  | .attachPar p =>
      inferInstanceAs (Decidable (∀ i, ∀ c ∈ (s p).child i, (s c).isChildFile true = true))
  | .unlink _ | .attachChild _ | .detach _ | .resize _ _ => .isTrue trivial

/-- Files of one byte that have no links. -/
def plain : State ι := fun _ => { Inode.blank with size := 1 }

variable {s s' : State ι}

omit [DecidableEq ι] in
theorem Linked.wellFormed (linked : Linked s) : WellFormed s := by
  refine ⟨linked, fun x => ?_⟩
  rintro ⟨child, par⟩
  unfold Inode.isChildFile at child
  unfold Inode.isParFile at par
  split at child
  case h_1 si here => cases si.par <;> simp_all
  case h_2 here =>
    simp only [here, Bool.true_and, List.any_eq_true] at child par
    obtain ⟨p, parent⟩ := Option.isSome_iff_exists.mp child
    obtain ⟨i, _, some⟩ := par
    rw [linked.role x p parent i] at some
    cases some

omit [DecidableEq ι] in
/-- The links are a matter of the attributes only. -/
theorem Linked.of_attributes (linked : Linked s)
    (same : ∀ x, (s' x).parent = (s x).parent ∧ (s' x).child = (s x).child) : Linked s' := by
  obtain ⟨child, slot, role⟩ := linked
  constructor
  · intro c p parent
    rw [(same c).1] at parent
    obtain ⟨i, names⟩ := child c p parent
    exact ⟨i, fun q j => by rw [(same q).2, names]⟩
  · intro q i c named
    rw [(same q).2] at named
    rw [(same c).1, slot q i c named]
  · intro x p parent i
    rw [(same x).1] at parent
    rw [(same x).2, role x p parent]

omit [DecidableEq ι] in
/-- A parent is no child of its own. -/
theorem Linked.ne_of_slot (linked : Linked s) {p c : ι} {i : Fin maxChilds}
    (named : (s p).child i = some c) : c ≠ p := by
  rintro rfl
  have none := linked.role c c (linked.slot c i c named) i
  rw [named] at none
  cases none

/-! ## Unlinking -/

/-- A child has one slot, so clearing the first one clears them all. -/
theorem removeChild_child (linked : Linked s) {c p : ι} (parent : (s c).parent = some p)
    (q : ι) (j : Fin maxChilds) : ((s.removeChild p c) q).child j =
      if (s q).child j = some c then none else (s q).child j := by
  obtain ⟨i, names⟩ := linked.child c p parent
  unfold State.removeChild
  cases found : (s p).slotOf c with
  | some i' =>
    obtain rfl : i' = i := ((names p i').mp (Inode.child_of_slotOf found)).2
    by_cases here : q = p
    · subst here
      by_cases slot : j = i'
      · subst slot
        simp [Inode.setSlot, names]
      · simp [Inode.setSlot, names, slot]
    · simp [names, here]
  | none =>
    have absent := List.find?_eq_none.mp found i (List.mem_finRange i)
    exact (absent (decide_eq_true ((names p i).mpr ⟨rfl, rfl⟩))).elim

theorem removeChild_rest (s : State ι) (p c x : ι) :
    ((s.removeChild p c) x).parent = (s x).parent ∧
      ((s.removeChild p c) x).scorwInode = (s x).scorwInode := by
  unfold State.removeChild
  cases (s p).slotOf c with
  | some i =>
      by_cases here : x = p
      · subst here
        simp [Inode.setSlot]
      · simp [Function.update_of_ne here]
  | none => exact ⟨rfl, rfl⟩

/-- A child that leaves its parent and is gone. -/
theorem Linked.delete (linked : Linked s) {c p : ι} (parent : (s c).parent = some p) :
    Linked (Function.update (s.removeChild p c) c .blank) := by
  have removed := removeChild_child linked parent
  have rest := removeChild_rest s p c
  have noChild := linked.role c p parent
  constructor
  · intro d p' named
    by_cases gone : d = c
    · subst gone
      simp [Inode.blank] at named
    · rw [Function.update_of_ne gone, (rest d).1] at named
      obtain ⟨i, names⟩ := linked.child d p' named
      refine ⟨i, fun q j => ?_⟩
      rw [← names]
      by_cases here : q = c
      · subst here
        simp [Inode.blank, noChild]
      · rw [Function.update_of_ne here, removed]
        split
        case isTrue child => simp [child, Ne.symm gone]
        case isFalse => rfl
  · intro q i d named
    by_cases here : q = c
    · subst here
      simp [Inode.blank] at named
    · rw [Function.update_of_ne here, removed] at named
      split at named
      case isTrue => cases named
      case isFalse other =>
        have gone : d ≠ c := by
          rintro rfl
          exact other named
        rw [Function.update_of_ne gone, (rest d).1]
        exact linked.slot q i d named
  · intro x p' named i
    by_cases gone : x = c
    · subst gone
      simp [Inode.blank]
    · rw [Function.update_of_ne gone] at named ⊢
      rw [(rest x).1] at named
      rw [removed, linked.role x p' named i]
      simp

/-! ## Cloning -/

/-- The links with a call that gets as far as storing attributes. -/
structure Stores (s s' : State ι) (c p : ι) (i : Fin maxChilds) (slotStored : Bool)
    (error : Int) : Prop where
  free : (s p).child i = none
  child : ∀ q j, (s' q).child j =
    if slotStored = true ∧ q = p ∧ j = i then some c else (s q).child j
  parent : ∀ x, (s' x).parent = if error = 0 ∧ x = c then some p else (s x).parent
  scorwInode : ∀ x, (s' x).scorwInode = (s x).scorwInode

theorem proj_setSize {α : Type*} (f : Inode ι → α) (c : ι) (size : Nat)
    (ignores : ∀ x size, f { x with size := size } = f x) (q : ι) :
    f (s.setSize c size q) = f (s q) :=
  State.proj_update f (ignores _ _) q

theorem storeSlot_child (p : ι) (i : Fin maxChilds) (c : ι) (stored : Bool) (q : ι)
    (j : Fin maxChilds) : ((s.storeSlot p i c stored) q).child j =
      if stored = true ∧ q = p ∧ j = i then some c else (s q).child j := by
  unfold State.storeSlot
  cases stored with
  | false => simp
  | true =>
      by_cases here : q = p
      · subst here
        by_cases slot : j = i <;> simp [Inode.setSlot, slot]
      · simp [here]

theorem proj_storeSlot {α : Type*} (f : Inode ι → α) (p : ι) (i : Fin maxChilds) (c : ι)
    (stored : Bool) (ignores : ∀ x i c, f (Inode.setSlot x i c) = f x) (q : ι) :
    f (s.storeSlot p i c stored q) = f (s q) := by
  unfold State.storeSlot
  split
  case isTrue => exact State.proj_update f (ignores _ _ _) q
  case isFalse => rfl

theorem storeParent_parent (c p : ι) (error : Int) (x : ι) : ((s.storeParent c p error) x).parent =
    if error = 0 ∧ x = c then some p else (s x).parent := by
  unfold State.storeParent
  split
  case isTrue zero =>
    by_cases here : x = c
    · subst here
      simp [zero]
    · simp [here]
  case isFalse other => simp [other]

theorem proj_storeParent {α : Type*} (f : Inode ι → α) (c p : ι) (error : Int)
    (ignores : ∀ x parent, f { x with parent := parent } = f x) (q : ι) :
    f (s.storeParent c p error q) = f (s q) := by
  unfold State.storeParent
  split
  case isTrue => exact State.proj_update f (ignores _ _) q
  case isFalse => rfl

theorem stores_of_setParent {c p : ι} {i : Fin maxChilds} {slotStored : Bool} {error : Int}
    (size : (s p).size ≠ 0) (free : (s p).freeSlot = some i) :
    Stores s (s.setParent c p slotStored error).2 c p i slotStored error := by
  unfold State.setParent
  rw [if_neg size, free]
  refine ⟨Inode.child_of_freeSlot free, fun q j => ?_, fun x => ?_, fun x => ?_⟩
  · rw [proj_storeParent Inode.child _ _ _ fun _ _ => rfl,
      proj_setSize Inode.child _ _ fun _ _ => rfl, storeSlot_child]
  · rw [storeParent_parent, proj_setSize Inode.parent _ _ fun _ _ => rfl,
      proj_storeSlot Inode.parent _ _ _ _ fun _ _ _ => rfl]
  · rw [proj_storeParent Inode.scorwInode _ _ _ fun _ _ => rfl,
      proj_setSize Inode.scorwInode _ _ fun _ _ => rfl,
      proj_storeSlot Inode.scorwInode _ _ _ _ fun _ _ _ => rfl]

/-- A slot that keeps the links well formed was stored together with the parent, for a child
that was fresh. -/
theorem Stores.fresh {c p : ι} {i : Fin maxChilds} {error : Int}
    (stores : Stores s s' c p i true error) (linked : Linked s) (after : Linked s') :
    error = 0 ∧ Fresh s c p := by
  obtain ⟨free, child, parent, _⟩ := stores
  have stored : (s' p).child i = some c := by simp [child]
  have named := after.slot p i c stored
  obtain ⟨k, names⟩ := after.child c p named
  obtain rfl : i = k := ((names p i).mp stored).2
  -- an old slot would be a second one
  have noSlot (q : ι) (j : Fin maxChilds) : (s q).child j ≠ some c := by
    intro old
    have new : (s' q).child j = some c := by
      rw [child]
      split
      case isTrue => rfl
      case isFalse => exact old
    obtain ⟨rfl, rfl⟩ := (names q j).mp new
    rw [free] at old
    cases old
  have noParent : (s c).parent = none := by
    by_contra some
    obtain ⟨q, old⟩ := Option.ne_none_iff_exists'.mp some
    obtain ⟨j, before⟩ := linked.child c q old
    exact noSlot q j ((before q j).mpr ⟨rfl, rfl⟩)
  have zero : error = 0 := by
    by_contra other
    rw [parent, if_neg (fun both => other both.1), noParent] at named
    cases named
  have other : c ≠ p := after.ne_of_slot stored
  refine ⟨zero, other, noParent, fun j => ?_, ?_⟩
  · have none := after.role c p named j
    rw [child] at none
    simpa [other] using none
  · by_contra some
    obtain ⟨g, old⟩ := Option.ne_none_iff_exists'.mp some
    have none := after.role p g (by simpa [parent, Ne.symm other] using old) i
    rw [stored] at none
    cases none

/-- Storing both attributes of a fresh child keeps the links well formed. -/
theorem Stores.linked_of_fresh {c p : ι} {i : Fin maxChilds} (stores : Stores s s' c p i true 0)
    (linked : Linked s) (fresh : Fresh s c p) : Linked s' := by
  obtain ⟨free, child, parent, _⟩ := stores
  obtain ⟨other, noParent, noChild, noGrandparent⟩ := fresh
  simp only [true_and] at child parent
  have noSlot (q : ι) (j : Fin maxChilds) : (s q).child j ≠ some c := by
    intro old
    rw [linked.slot q j c old] at noParent
    cases noParent
  constructor
  · intro d q named
    rw [parent] at named
    split at named
    case isTrue here =>
      cases named
      refine ⟨i, fun q j => ?_⟩
      rw [child, here]
      split
      case isTrue slot => simp [slot]
      case isFalse slot => simp [slot, noSlot]
    case isFalse here =>
      obtain ⟨k, names⟩ := linked.child d q named
      refine ⟨k, fun q' j => ?_⟩
      rw [child, ← names]
      split
      case isTrue slot =>
        obtain ⟨rfl, rfl⟩ := slot
        simp [free, Ne.symm here]
      case isFalse => rfl
  · intro q j d named
    rw [child] at named
    split at named
    case isTrue slot =>
      cases named
      simp [parent, slot.1]
    case isFalse =>
      have here : d ≠ c := by
        rintro rfl
        exact noSlot q j named
      simp [parent, here, linked.slot q j d named]
  · intro x q named j
    rw [parent] at named
    split at named
    case isTrue here => simp [child, here, other, noChild]
    case isFalse here =>
      have apart : x ≠ p := by
        rintro rfl
        rw [noGrandparent] at named
        cases named
      simp [child, apart, linked.role x q named j]

/-- When the stored attributes are well formed again. -/
theorem Stores.linked_iff {c p : ι} {i : Fin maxChilds} {slotStored : Bool} {error : Int}
    (stores : Stores s s' c p i slotStored error) (linked : Linked s) :
    Linked s' ↔ (slotStored = false ∧ (error = 0 → (s c).parent = some p)) ∨
      (slotStored = true ∧ error = 0 ∧ Fresh s c p) := by
  constructor
  · intro after
    cases slotStored with
    | false =>
        refine .inl ⟨rfl, fun zero => ?_⟩
        -- no slot was added, so the child had one of this parent before
        have named : (s' c).parent = some p := by simp [stores.parent, zero]
        obtain ⟨j, names⟩ := after.child c p named
        have before := (names p j).mpr ⟨rfl, rfl⟩
        rw [stores.child] at before
        exact linked.slot p j c (by simpa using before)
    | true => exact .inr ⟨rfl, stores.fresh linked after⟩
  · rintro (⟨rfl, same⟩ | ⟨rfl, rfl, fresh⟩)
    · refine linked.of_attributes fun x => ⟨?_, funext fun j => by simp [stores.child]⟩
      rw [stores.parent]
      split
      case isTrue both => rw [both.2, same both.1]
      case isFalse => rfl
    · exact stores.linked_of_fresh linked fresh

/-! ## Opening a parent -/

theorem getPar_child (linked : Linked s) (p q : ι) (j : Fin maxChilds) :
    ((s.getPar p) q).child j = if q = p then
      ((s p).child j).filter fun c => (s c).isChildFile true else (s q).child j := by
  unfold State.getPar
  by_cases here : q = p
  · subst here
    simp only [Function.update_self, if_true]
    -- no slot of the parent has the parent itself
    cases named : (s q).child j with
    | none => rfl
    | some c =>
        rw [Option.filter_some, Option.filter_some,
          Function.update_of_ne (linked.ne_of_slot named)]
  · simp [here]

theorem getPar_rest (s : State ι) (p x : ι) : ((s.getPar p) x).parent = (s x).parent ∧
    ((s.getPar p) x).scorwInode =
      if x = p then some ⟨none, false⟩ else (s x).scorwInode := by
  unfold State.getPar
  by_cases here : x = p
  · subst here
    simp
  · simp [here]

theorem Linked.getPar_iff (linked : Linked s) (p : ι) : Linked (s.getPar p) ↔
    ∀ i c, (s p).child i = some c → (s c).isChildFile true = true := by
  have child := getPar_child linked p
  constructor
  · intro after i c named
    have parent : ((s.getPar p) c).parent = some p := by
      rw [(getPar_rest s p c).1, linked.slot p i c named]
    obtain ⟨k, names⟩ := after.child c p parent
    have kept := (names p k).mpr ⟨rfl, rfl⟩
    rw [child, if_pos rfl] at kept
    exact (Option.filter_eq_some_iff.mp kept).2
  · intro children
    refine linked.of_attributes fun x => ⟨(getPar_rest s p x).1, funext fun j => ?_⟩
    rw [child]
    split
    case isTrue here =>
      subst here
      cases named : (s x).child j with
      | none => rfl
      | some c => rw [Option.filter_some, if_pos (children j c named)]
    case isFalse => rfl

/-! ## Steps and runs -/

/-- A step from well-formed links keeps them well formed exactly when it is orderly. -/
theorem linked_step_iff {act : Act ι} {reply : Int} (linked : Linked s) (attached : Attached s)
    (taken : step s act = some (reply, s')) : Linked s' ↔ Orderly s act := by
  -- most steps leave the attributes alone
  have aside {x : ι} {n : Inode ι} (parent : n.parent = (s x).parent)
      (child : n.child = (s x).child) : Linked (Function.update s x n) :=
    linked.of_attributes fun y =>
      ⟨State.proj_update Inode.parent parent y, State.proj_update Inode.child child y⟩
  cases act with
  | setParent c p slotStored error =>
      have same : (s.setParent c p slotStored error).2 = s' := by
        rw [Option.some.inj taken]
      by_cases size : (s p).size = 0
      · rw [State.setParent, if_pos size] at same
        exact iff_of_true (same ▸ linked) (.inl (.inl size))
      · cases free : (s p).freeSlot with
        | none =>
            rw [State.setParent, if_neg size, free] at same
            exact iff_of_true (same ▸ linked) (.inl (.inr free))
        | some i =>
            rw [← same, (stores_of_setParent size free).linked_iff linked]
            simp [Orderly, size, free]
  | unlink c =>
      refine iff_of_true ?_ trivial
      dsimp only [step] at taken
      split at taken
      case isFalse => cases taken
      case isTrue =>
        unfold State.unlinkChildFile at taken
        split at taken
        case h_1 si here =>
          split at taken
          case isTrue => cases taken
          case isFalse =>
            cases taken
            exact aside rfl rfl
        case h_2 here =>
          obtain ⟨p, parent, result⟩ := Option.map_eq_some_iff.mp taken
          cases result
          exact linked.delete parent
  | attachChild c =>
      refine iff_of_true ?_ trivial
      dsimp only [step] at taken
      split at taken
      case isTrue => cases taken
      case isFalse =>
        obtain ⟨_, got, result⟩ := Option.map_eq_some_iff.mp taken
        obtain ⟨p, parent, rfl⟩ := Option.map_eq_some_iff.mp got
        cases result
        exact aside rfl rfl
  | attachPar p =>
      dsimp only [step] at taken
      split at taken
      case isTrue => cases taken
      case isFalse =>
        cases taken
        exact linked.getPar_iff p
  | detach x =>
      refine iff_of_true ?_ trivial
      obtain ⟨_, put, result⟩ := Option.map_eq_some_iff.mp taken
      obtain ⟨si, here, rfl⟩ := Option.map_eq_some_iff.mp put
      cases result
      split
      case h_1 p => exact linked.delete (attached x _ p here rfl)
      case h_2 => exact aside rfl rfl
  | resize x size =>
      cases taken
      exact iff_of_true (aside rfl rfl) trivial

theorem Attached.update (attached : Attached s) {x : ι} {n : Inode ι}
    (here : ∀ si p, n.scorwInode = some si → si.par = some p → n.parent = some p) :
    Attached (Function.update s x n) := by
  intro c si p some par
  by_cases same : c = x
  · subst same
    rw [Function.update_self] at some ⊢
    exact here si p some par
  · rw [Function.update_of_ne same] at some ⊢
    exact attached c si p some par

theorem Attached.delete (attached : Attached s) (p c : ι) :
    Attached (Function.update (s.removeChild p c) c .blank) := by
  refine Attached.update (fun d si q some par => ?_) (by simp [Inode.blank])
  obtain ⟨parent, scorwInode⟩ := removeChild_rest s p c d
  rw [scorwInode] at some
  rw [parent, attached d si q some par]

theorem attached_step {act : Act ι} {reply : Int} (attached : Attached s)
    (orderly : Orderly s act) (taken : step s act = some (reply, s')) : Attached s' := by
  cases act with
  | setParent c p slotStored error =>
      have same : (s.setParent c p slotStored error).2 = s' := by
        rw [Option.some.inj taken]
      by_cases size : (s p).size = 0
      · rw [State.setParent, if_pos size] at same
        exact same ▸ attached
      · cases free : (s p).freeSlot with
        | none =>
            rw [State.setParent, if_neg size, free] at same
            exact same ▸ attached
        | some i =>
            have stores : Stores s s' c p i slotStored error :=
              same ▸ stores_of_setParent size free
            intro d si q some par
            rw [stores.scorwInode] at some
            have old := attached d si q some par
            rw [stores.parent]
            split
            case isTrue both =>
              obtain ⟨zero, rfl⟩ := both
              rcases orderly with (rejected | rejected) | ⟨_, repeats⟩ | ⟨_, _, fresh⟩
              · exact (size rejected).elim
              · rw [free] at rejected
                cases rejected
              · exact (repeats zero).symm.trans old
              · rw [fresh.noParent] at old
                cases old
            case isFalse => exact old
  | unlink c =>
      dsimp only [step] at taken
      split at taken
      case isFalse => cases taken
      case isTrue =>
        unfold State.unlinkChildFile at taken
        split at taken
        case h_1 si here =>
          split at taken
          case isTrue => cases taken
          case isFalse =>
            cases taken
            refine attached.update fun si' p some par => ?_
            cases some
            exact attached c si p here par
        case h_2 here =>
          obtain ⟨p, _, result⟩ := Option.map_eq_some_iff.mp taken
          cases result
          exact attached.delete p c
  | attachChild c =>
      dsimp only [step] at taken
      split at taken
      case isTrue => cases taken
      case isFalse =>
        obtain ⟨_, got, result⟩ := Option.map_eq_some_iff.mp taken
        obtain ⟨p, parent, rfl⟩ := Option.map_eq_some_iff.mp got
        cases result
        refine attached.update fun si q some par => ?_
        cases some
        exact parent.trans par
  | attachPar p =>
      dsimp only [step] at taken
      split at taken
      case isTrue => cases taken
      case isFalse =>
        cases taken
        intro c si q some par
        obtain ⟨parent, scorwInode⟩ := getPar_rest s p c
        rw [scorwInode] at some
        split at some
        case isTrue =>
          cases some
          cases par
        case isFalse => rw [parent, attached c si q some par]
  | detach x =>
      obtain ⟨_, put, result⟩ := Option.map_eq_some_iff.mp taken
      obtain ⟨si, here, rfl⟩ := Option.map_eq_some_iff.mp put
      cases result
      split
      case h_1 p => exact attached.delete p x
      case h_2 => exact attached.update (by simp)
  | resize x size =>
      cases taken
      exact attached.update fun si p some par => attached x si p some par

/-- In every run from well-formed links, all states have well-formed links exactly when
every step is orderly. -/
theorem links_well_formed_iff {acts : List (Act ι)} (start : WellFormed s)
    (attached : Attached s) :
    Run step (fun s _ => WellFormed s) s acts s' ∧ WellFormed s' ↔ Run step Orderly s acts s' :=
  Run.exact_iff (Q := Attached)
    (fun _ _ _ _ attached _ orderly taken => attached_step attached orderly taken)
    (fun _ _ _ _ attached wellFormed taken =>
      ⟨fun after => (linked_step_iff wellFormed.toLinked attached taken).mp after.toLinked,
        fun orderly =>
          ((linked_step_iff wellFormed.toLinked attached taken).mpr orderly).wellFormed⟩)
    attached start

omit [DecidableEq ι] in
theorem wellFormed_plain : WellFormed (plain : State ι) :=
  Linked.wellFormed ⟨nofun, nofun, nofun⟩

/-- Two children of one parent. The first is unlinked while it is attached, and its slot is
free again once it is detached. -/
theorem links_well_formed_slot_reused : ∃ s : State Nat,
    Run step Orderly plain
      [.setParent 1 0 true 0, .setParent 2 0 true 0, .attachPar 0, .attachChild 1,
        .attachChild 2, .unlink 1, .detach 1, .setParent 3 0 true 0, .detach 2, .unlink 2] s ∧
    (s 0).child 0 = some 3 ∧ (s 0).child 1 = none ∧
    Run step (fun s _ => WellFormed s) plain
      [.setParent 1 0 true 0, .setParent 2 0 true 0, .attachPar 0, .attachChild 1,
        .attachChild 2, .unlink 1, .detach 1, .setParent 3 0 true 0, .detach 2, .unlink 2] s ∧
    WellFormed s := by
  refine Run.exists_imp (fun s act => decide (Orderly s act)) (fun _ _ _ => of_decide_eq_true)
    (Q := fun s => (s 0).child 0 = some 3 ∧ (s 0).child 1 = none) (by decide +kernel) ?_
  intro s run ⟨first, second⟩
  exact ⟨first, second, (links_well_formed_iff wellFormed_plain nofun).mpr run⟩

/-- The same link twice fills two slots, and unlinking the child clears only one of them; a
child can be made a parent; and an error for `SCORW_PARENT` leaves the slot behind. -/
theorem links_well_formed_fails :
    (∃ s : State Nat, Run step (fun _ _ => True) plain
      [.setParent 1 0 true 0, .setParent 1 0 true 0, .unlink 1] s ∧
      (s 0).child 1 = some 1 ∧ (s 1).parent = none ∧ ¬ WellFormed s) ∧
    (∃ s : State Nat, Run step (fun _ _ => True) plain
      [.setParent 1 0 true 0, .setParent 2 1 true 0] s ∧
      (s 1).isChildFile true = true ∧ (s 1).isParFile true = true ∧ ¬ WellFormed s) ∧
    ∃ s : State Nat, Run step (fun _ _ => True) plain [.setParent 1 0 true (-28)] s ∧
      (s 0).child 0 = some 1 ∧ (s 1).parent = none ∧ ¬ WellFormed s := by
  have dangling {i : Fin maxChilds} {acts : List (Act Nat)}
      (computed : ((Run.exec step (fun _ _ => true) plain acts).any fun s =>
        decide ((s 0).child i = some 1 ∧ (s 1).parent = none)) = true) :
      ∃ s : State Nat, Run step (fun _ _ => True) plain acts s ∧
        (s 0).child i = some 1 ∧ (s 1).parent = none ∧ ¬ WellFormed s := by
    refine Run.exists_imp (fun _ _ => true) (fun _ _ _ _ => trivial) computed ?_
    intro s _ ⟨named, gone⟩
    refine ⟨named, gone, fun wellFormed => ?_⟩
    rw [wellFormed.slot 0 i 1 named] at gone
    cases gone
  refine ⟨dangling (by decide +kernel), ?_, dangling (by decide +kernel)⟩
  refine Run.exists_imp (fun _ _ => true) (fun _ _ _ _ => trivial)
    (Q := fun s => (s 1).isChildFile true = true ∧ (s 1).isParFile true = true)
    (by decide +kernel) ?_
  intro s _ ⟨child, par⟩
  exact ⟨child, par, fun wellFormed => wellFormed.files 1 ⟨child, par⟩⟩

end FlexClone.Scorw.Links
