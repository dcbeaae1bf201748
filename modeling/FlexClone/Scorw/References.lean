import FlexClone.Scorw.FamilySteps

/-!
# Reference counts of a family

Opening a handle of a parent or a child counts one user of the parent, and an
attached parent holds one reference to each of its children. A handle that was
opened before its file was a parent or a child has counted nothing, but closing it
drops a reference once a `scorw_inode` is attached; a clone of an attached parent
gets the child twice and puts it once; and unlinking an attached child drops a
reference of the parent that nobody has taken.

`references_balanced`: in a run without these three, no count goes below zero, the
parent is attached while a counted handle is open, and nothing stays attached once
all handles are closed and no page copy is pending.
-/

namespace FlexClone.Scorw

namespace Family

/-! ## The children of a parent -/

/-- The parent holds one reference to each child it knows, and nobody else does. -/
structure Tidy (F : Family) : Prop where
  slots : F.slots.Nodup
  inSlot : ∀ c, (F.child c).hasParent = true → (F.child c).linked = true → c ∈ F.slots
  childInodes : F.childInodes.Nodup
  here : ∀ c ∈ F.childInodes, ∃ v, (F.child c).scorwInode = some ⟨v, 1, false⟩
  gone : ∀ c, c ∉ F.childInodes → (F.child c).scorwInode = none
  complete : F.attached = true → ∀ c, (F.child c).hasParent = true →
    (F.child c).linked = true → c ∈ F.childInodes
  empty : F.attached = false → F.childInodes = []

variable {F F' : Family} {c : Ino} {file h : Handle}

theorem Tidy.none_of_detached (tidy : Tidy F) (detached : F.attached = false) (c : Ino) :
    (F.child c).scorwInode = none := by
  apply tidy.gone
  rw [tidy.empty detached]
  exact List.not_mem_nil

theorem Tidy.mem_of_attached (tidy : Tidy F) (attached : (F.child c).scorwInode.isSome = true) :
    c ∈ F.childInodes := by
  by_contra absent
  rw [tidy.gone c absent] at attached
  cases attached

theorem Tidy.isSome_of_mem (tidy : Tidy F) (member : c ∈ F.childInodes) :
    (F.child c).scorwInode.isSome = true := by
  obtain ⟨v, here⟩ := tidy.here c member
  rw [here]
  rfl

/-! ## Attaching a parent -/

/-- A new parent while its loop over the slots still has `rest` to do. -/
structure Attaching (G : Family) (rest : List Ino) : Prop where
  slots : G.slots.Nodup
  inSlot : ∀ c, (G.child c).hasParent = true → (G.child c).linked = true → c ∈ G.slots
  childInodes : (G.childInodes ++ rest).Nodup
  here : ∀ c ∈ G.childInodes, ∃ v, (G.child c).scorwInode = some ⟨v, 1, false⟩
  gone : ∀ c, c ∉ G.childInodes → (G.child c).scorwInode = none
  complete : ∀ c, (G.child c).hasParent = true → (G.child c).linked = true →
    c ∈ G.childInodes ++ rest
  usage : G.attached = true ∧ G.usageCount = 1

/-- What the gets and puts of `scorw_inode`s leave alone. -/
structure Aside (F G : Family) : Prop where
  handles : G.par.handles = F.par.handles
  childHandles : G.childHandles = F.childHandles
  early : G.early = F.early
  openCount : G.openCount = F.openCount
  pageCopies : G.pageCopies = F.pageCopies
  fault : G.fault = F.fault
  hasParent : ∀ c, (G.child c).hasParent = (F.child c).hasParent
  linked : ∀ c, (G.child c).linked = (F.child c).linked

theorem Aside.refl (F : Family) : Aside F F :=
  ⟨rfl, rfl, rfl, rfl, rfl, rfl, fun _ => rfl, fun _ => rfl⟩

theorem Aside.trans {G H : Family} (first : Aside F G) (second : Aside G H) : Aside F H where
  handles := second.handles.trans first.handles
  childHandles := second.childHandles.trans first.childHandles
  early := second.early.trans first.early
  openCount := second.openCount.trans first.openCount
  pageCopies := second.pageCopies.trans first.pageCopies
  fault := second.fault.trans first.fault
  hasParent := fun c => (second.hasParent c).trans (first.hasParent c)
  linked := fun c => (second.linked c).trans (first.linked c)

theorem Aside.setChild {k : Child} (hasParent : k.hasParent = (F.child c).hasParent)
    (linked : k.linked = (F.child c).linked) : Aside F (F.setChild c k) := by
  refine ⟨rfl, rfl, rfl, rfl, rfl, rfl, fun d => ?_, fun d => ?_⟩
  · by_cases same : d = c
    · rw [same, child_setChild_self, hasParent]
    · rw [child_setChild_of_ne same]
  · by_cases same : d = c
    · rw [same, child_setChild_self, linked]
    · rw [child_setChild_of_ne same]

theorem Attaching.attachSlot {G : Family} {rest : List Ino} (attaching : Attaching G (c :: rest)) :
    Attaching (G.attachSlot c) rest ∧ Aside G (G.attachSlot c) := by
  have nodup := attaching.childInodes
  have absent : c ∉ G.childInodes := fun member =>
    (List.nodup_append.mp nodup).2.2 c member c List.mem_cons_self rfl
  have none := attaching.gone c absent
  unfold Family.attachSlot
  split
  case isTrue cleared =>
    have other {d : Ino} (hasParent : (G.child d).hasParent = true)
        (linked : (G.child d).linked = true) : d ≠ c := by
      rintro rfl
      exact cleared.2 ⟨hasParent, linked⟩
    refine ⟨⟨attaching.slots.erase c, fun d hasParent linked => ?_, ?_, attaching.here,
      attaching.gone, fun d hasParent linked => ?_, attaching.usage⟩, { Aside.refl G with }⟩
    · exact (List.mem_erase_of_ne (other hasParent linked)).mpr
        (attaching.inSlot d hasParent linked)
    · exact nodup.sublist ((List.sublist_cons_self c rest).append_left _)
    · have member := attaching.complete d hasParent linked
      simp only [List.mem_append, List.mem_cons, other hasParent linked, false_or] at member ⊢
      exact member
  case isFalse =>
    have got : G.getChild c =
        (true, G.setScorwInode c (some ⟨(G.child c).currVersionAttr, 1, false⟩)) := by
      unfold Family.getChild
      rw [none]
    rw [got]
    dsimp only
    rw [if_pos rfl]
    have aside : Aside G (G.setScorwInode c (some ⟨(G.child c).currVersionAttr, 1, false⟩)) :=
      .setChild rfl rfl
    refine ⟨⟨attaching.slots, fun d hasParent linked => ?_, ?_, fun d member => ?_,
      fun d absent' => ?_, fun d hasParent linked => ?_, attaching.usage⟩, { aside with }⟩
    · exact attaching.inSlot d (aside.hasParent d ▸ hasParent) (aside.linked d ▸ linked)
    · rw [List.append_assoc]
      exact nodup
    · by_cases same : d = c
      · rw [same]
        exact ⟨_, congrArg Child.scorwInode (child_setScorwInode_self G c _)⟩
      · rcases List.mem_append.mp member with old | new
        · obtain ⟨v, here⟩ := attaching.here d old
          exact ⟨v, (congrArg Child.scorwInode (child_setScorwInode_of_ne same G _)).trans here⟩
        · exact (same (List.mem_singleton.mp new)).elim
    · have other : d ≠ c := by
        rintro rfl
        exact absent' (List.mem_append_right _ List.mem_cons_self)
      have old : d ∉ G.childInodes := fun member => absent' (List.mem_append_left _ member)
      exact (congrArg Child.scorwInode (child_setScorwInode_of_ne other G _)).trans
        (attaching.gone d old)
    · rw [List.append_assoc]
      exact attaching.complete d (aside.hasParent d ▸ hasParent) (aside.linked d ▸ linked)

theorem Attaching.attachSlots {G : Family} {rest : List Ino} (attaching : Attaching G rest) :
    Attaching (rest.foldl Family.attachSlot G) [] ∧
      Aside G (rest.foldl Family.attachSlot G) := by
  induction rest generalizing G with
  | nil => exact ⟨attaching, .refl G⟩
  | cons c rest ih =>
      obtain ⟨next, aside⟩ := attaching.attachSlot
      obtain ⟨last, aside'⟩ := ih next
      exact ⟨last, aside.trans aside'⟩

theorem handles_startParent (F : Family) (env : MountEnv) :
    (F.startParent env).par.handles = F.par.handles := by
  unfold startParent prepareParInode
  dsimp only
  split
  · rfl
  · rfl

/-- Getting the parent: whatever was attached before, one more user is counted. -/
theorem tidy_getParent (env : MountEnv) (tidy : Tidy F)
    (unused : F.attached = false → F.pageCopies = 0) :
    Tidy (F.getParent env) ∧ Aside F (F.getParent env) ∧ (F.getParent env).attached = true ∧
      (F.getParent env).usageCount = (if F.attached then F.usageCount else 0) + 1 ∧
      (F.attached = true → (F.getParent env).childInodes = F.childInodes) := by
  unfold getParent
  split
  case isTrue attached =>
    exact ⟨{ tidy with }, { Aside.refl F with }, attached, rfl, fun _ => rfl⟩
  case isFalse off =>
    have detached : F.attached = false := Bool.eq_false_of_not_eq_true off
    have start : Attaching (F.startParent env) F.slots :=
      { slots := tidy.slots
        inSlot := tidy.inSlot
        childInodes := tidy.slots
        here := fun _ none => (List.not_mem_nil none).elim
        gone := fun c _ => tidy.none_of_detached detached c
        complete := tidy.inSlot
        usage := ⟨rfl, rfl⟩ }
    have aside : Aside F (F.startParent env) :=
      { Aside.refl F with
        handles := handles_startParent F env
        pageCopies := (unused detached).symm }
    obtain ⟨done, aside'⟩ := start.attachSlots
    refine ⟨⟨done.slots, done.inSlot, ?_, done.here, done.gone, fun _ c hasParent linked => ?_,
      fun none => ?_⟩, aside.trans aside', done.usage.1, done.usage.2, fun here => (off here).elim⟩
    · have nodup := done.childInodes
      rw [List.append_nil] at nodup
      exact nodup
    · have member := done.complete c hasParent linked
      rw [List.append_nil] at member
      exact member
    · exact Bool.noConfusion (none.symm.trans done.usage.1)

/-! ## Detaching a parent -/

theorem setChild_setChild (F : Family) (c : Ino) (k k' : Child) :
    (F.setChild c k).setChild c k' = F.setChild c k' := by
  unfold setChild
  rw [Function.update_idem]

/-- The put of a child by its parent frees a child that nobody else uses. -/
theorem putChildOfParent_eq {v : Nat} (here : (F.child c).scorwInode = some ⟨v, 1, false⟩) :
    F.putChildOfParent c =
      .ok (F.setChild c { F.child c with currVersionAttr := v, scorwInode := none }) := by
  unfold putChildOfParent
  rw [here]
  dsimp only
  unfold decChild
  rw [if_neg Nat.one_ne_zero]
  have zero : (F.setChild c { F.child c with
      currVersionAttr := v
      scorwInode := some ⟨v, 1 - 1, false⟩ }).freeChild c =
      .ok (F.setChild c { F.child c with currVersionAttr := v, scorwInode := none }) := by
    unfold freeChild
    rw [child_setChild_self]
    simp only [Nat.sub_self, ne_eq, not_true, if_false, if_true, setChild_setChild]
  exact zero

theorem putChildren_eq {cs : List Ino} (nodup : cs.Nodup)
    (here : ∀ c ∈ cs, ∃ v, (F.child c).scorwInode = some ⟨v, 1, false⟩) :
    ∃ F', cs.foldlM putChildOfParent F = .ok F' ∧ Aside F F' ∧
      F'.slots = F.slots ∧ F'.attached = F.attached ∧
      ∀ c, (F'.child c).scorwInode = if c ∈ cs then none else (F.child c).scorwInode := by
  induction cs generalizing F with
  | nil => exact ⟨F, rfl, .refl F, rfl, rfl, fun c => rfl⟩
  | cons d cs ih =>
      obtain ⟨absent, rest⟩ := List.nodup_cons.mp nodup
      obtain ⟨v, head⟩ := here d List.mem_cons_self
      have put := putChildOfParent_eq head
      have other {c : Ino} (member : c ∈ cs) : c ≠ d := by
        rintro rfl
        exact absent member
      obtain ⟨F', done, aside, slots, attached, child⟩ :=
        ih (F := F.setChild d { F.child d with currVersionAttr := v, scorwInode := none }) rest
          fun c member => by
            rw [child_setChild_of_ne (other member)]
            exact here c (List.mem_cons_of_mem _ member)
      have freed : Aside F
          (F.setChild d { F.child d with currVersionAttr := v, scorwInode := none }) :=
        .setChild rfl rfl
      refine ⟨F', ?_, freed.trans aside, slots, attached, fun c => ?_⟩
      · rw [List.foldlM_cons, put]
        exact done
      · rw [child c]
        by_cases same : c = d
        · rw [same, if_neg absent, if_pos List.mem_cons_self, child_setChild_self]
        · rw [child_setChild_of_ne same]
          simp only [List.mem_cons, same, false_or]

/-- The last put of the parent detaches all its children. -/
theorem tidy_freeParent (tidy : Tidy F) :
    ∃ F', F.freeParent false = .ok F' ∧ Tidy F' ∧ Aside F F' ∧ F'.attached = false := by
  unfold freeParent
  dsimp only
  rw [if_neg fun both => Bool.noConfusion both.1]
  obtain ⟨F', done, aside, slots, attached, child⟩ := putChildren_eq (F := { F with
    attached := false
    par := { F.par with cache := .empty }
    logs := Function.update F.logs F.logIno F.par.log }) tidy.childInodes tidy.here
  have aside' : Aside F F' := { aside with }
  refine ⟨{ F' with childInodes := [] }, by rw [done]; rfl, ?_, { aside' with }, attached⟩
  refine ⟨?_, fun c hasParent linked => ?_, List.nodup_nil, fun _ none => ?_, fun c _ => ?_,
    fun here => ?_, fun _ => rfl⟩
  · exact slots ▸ tidy.slots
  · have member := tidy.inSlot c (aside'.hasParent c ▸ hasParent) (aside'.linked c ▸ linked)
    exact slots ▸ member
  · exact (List.not_mem_nil none).elim
  · have cleared := child c
    by_cases member : c ∈ F.childInodes
    · rw [if_pos member] at cleared
      exact cleared
    · rw [if_neg member] at cleared
      exact cleared.trans (tidy.gone c member)
  · exact Bool.noConfusion (attached.symm.trans here)

/-! ## Counted handles -/

/-- The open handles. -/
def openHandles (F : Family) : List Handle := F.par.handles ++ F.childHandles.map Prod.fst

/-- The handles of a list that were counted when they were opened. -/
def counted (early hs : List Handle) : Nat := hs.countP fun h => decide (h ∉ early)

/-- Closing a handle takes it off the count, if it was counted. -/
theorem counted_erase (early : List Handle) {hs : List Handle} (nodup : hs.Nodup)
    (isOpen : h ∈ hs) :
    counted (early.erase h) (hs.erase h) + (if h ∈ early then 0 else 1) = counted early hs := by
  have others : counted (early.erase h) (hs.erase h) = counted early (hs.erase h) := by
    apply List.countP_congr
    intro x member
    have other : x ≠ h := by
      rintro rfl
      exact nodup.not_mem_erase member
    simp only [List.mem_erase_of_ne other]
  have split := List.countP_erase (fun h => decide (h ∉ early)) hs h
  have positive : h ∉ early → 0 < hs.countP fun h => decide (h ∉ early) := fun fresh =>
    List.countP_pos_iff.mpr ⟨h, isOpen, by simpa using fresh⟩
  rw [others]
  unfold counted
  rw [split]
  by_cases known : h ∈ early
  · simp [known]
  · have := positive known
    simp only [known, not_false_eq_true, decide_true, isOpen, and_self, if_true, if_false]
    omega

theorem counted_of_not_mem {early hs : List Handle} (absent : h ∉ hs) :
    counted (early.erase h) hs = counted early hs := by
  apply List.countP_congr
  intro x member
  have other : x ≠ h := by
    rintro rfl
    exact absent member
  simp only [List.mem_erase_of_ne other]

theorem counted_early_cons {early hs : List Handle} (absent : h ∉ hs) :
    counted (h :: early) hs = counted early hs := by
  apply List.countP_congr
  intro x member
  have other : x ≠ h := by
    rintro rfl
    exact absent member
  simp only [List.mem_cons, other, false_or]

theorem counted_cons_early (early hs : List Handle) (h : Handle) :
    counted (h :: early) (h :: hs) = counted (h :: early) hs := by
  unfold counted
  rw [List.countP_cons_of_neg (by simp)]

theorem counted_cons {early hs : List Handle} (fresh : h ∉ early) :
    counted early (h :: hs) = counted early hs + 1 := by
  unfold counted
  rw [List.countP_cons_of_pos (by simpa using fresh)]

/-- Every handle is open once, and the early ones are open. -/
structure Distinct (F : Family) : Prop where
  handles : F.openHandles.Nodup
  early : ∀ h ∈ F.early, h ∈ F.openHandles
  earlyNodup : F.early.Nodup

/-- The counts of a family fit the handles that are open. -/
structure Balanced (F : Family) : Prop where
  fault : F.fault ≠ some .usageCount
  distinct : Distinct F
  tidy : Tidy F
  usage : F.attached = true →
    F.usageCount = counted F.early F.par.handles + counted F.early (F.childHandles.map Prod.fst)
  opens : F.openCount = counted F.early F.par.handles
  unused : F.attached = false → counted F.early F.par.handles = 0 ∧
    counted F.early (F.childHandles.map Prod.fst) = 0 ∧ F.pageCopies = 0
  /-- a counted handle of a child keeps it attached -/
  users : ∀ h c, (h, c) ∈ F.childHandles → h ∉ F.early → c ∈ F.childInodes
  /-- an attached parent has users, or page copies to be done -/
  used : F.attached = true → F.usageCount = 0 → F.pageCopies ≠ 0

theorem balanced_plain (f : ByteFile UInt8) : Balanced (plain f) where
  fault := fun none => by cases none
  distinct := ⟨List.nodup_nil, fun _ none => (List.not_mem_nil none).elim, List.nodup_nil⟩
  tidy :=
    { slots := List.nodup_nil
      inSlot := fun _ none => Bool.noConfusion none
      childInodes := List.nodup_nil
      here := fun _ none => (List.not_mem_nil none).elim
      gone := fun _ _ => rfl
      complete := fun none => Bool.noConfusion none
      empty := fun _ => rfl }
  usage := fun none => Bool.noConfusion none
  opens := rfl
  unused := fun _ => ⟨rfl, rfl, rfl⟩
  users := fun _ _ none => (List.not_mem_nil none).elim
  used := fun none => Bool.noConfusion none

/-- A counted handle is open only while the parent is attached. -/
theorem Balanced.attached_of_counted (balanced : Balanced F) (isOpen : h ∈ F.openHandles)
    (fresh : h ∉ F.early) : F.attached = true := by
  have positive {hs : List Handle} (member : h ∈ hs) : counted F.early hs ≠ 0 := by
    have := List.countP_pos_iff (p := fun h => decide (h ∉ F.early)) |>.mpr
      ⟨h, member, by simpa using fresh⟩
    exact Nat.pos_iff_ne_zero.mp this
  by_contra off
  obtain ⟨none, none', _⟩ := balanced.unused (Bool.eq_false_of_not_eq_true off)
  rcases List.mem_append.mp isOpen with onParent | onChild
  · exact positive onParent none
  · exact positive onChild none'

/-! ## Putting the parent -/

/-- The end of a put, with the counts already adjusted. -/
theorem balanced_freeUnused {G : Family} (fault : G.fault ≠ some .usageCount)
    (distinct : Distinct G) (tidy : Tidy G) (attached : G.attached = true)
    (usage : G.usageCount =
      counted G.early G.par.handles + counted G.early (G.childHandles.map Prod.fst))
    (opens : G.openCount = counted G.early G.par.handles)
    (users : ∀ h c, (h, c) ∈ G.childHandles → h ∉ G.early → c ∈ G.childInodes) :
    ∃ F', G.freeUnused false = .ok F' ∧ Balanced F' := by
  unfold freeUnused
  split
  case isFalse busy =>
    exact ⟨G, rfl, fault, distinct, tidy, fun _ => usage, opens,
      fun off => Bool.noConfusion (off.symm.trans attached), users,
      fun _ zero none => busy ⟨zero, none⟩⟩
  case isTrue idle =>
    obtain ⟨F', done, tidy', aside, detached⟩ := tidy_freeParent tidy
    obtain ⟨unused, none⟩ := idle
    have zero : counted G.early G.par.handles = 0 ∧
        counted G.early (G.childHandles.map Prod.fst) = 0 := by omega
    refine ⟨F', done, ?_⟩
    refine
      { fault := aside.fault ▸ fault
        distinct := ⟨?_, ?_, aside.early ▸ distinct.earlyNodup⟩
        tidy := tidy'
        usage := fun here => Bool.noConfusion (detached.symm.trans here)
        opens := ?_
        unused := fun _ => ?_
        users := fun h c member fresh => ?_
        used := fun here => Bool.noConfusion (detached.symm.trans here) }
    · unfold openHandles
      rw [aside.handles, aside.childHandles]
      exact distinct.handles
    · unfold openHandles
      rw [aside.handles, aside.childHandles, aside.early]
      exact distinct.early
    · rw [aside.openCount, aside.early, aside.handles]
      exact opens
    · rw [aside.early, aside.handles, aside.childHandles, aside.pageCopies]
      exact ⟨zero.1, zero.2, none⟩
    · rw [aside.childHandles] at member
      rw [aside.early] at fresh
      have absent := List.countP_eq_zero.mp zero.2 h (List.mem_map.mpr ⟨(h, c), member, rfl⟩)
      exact (absent (by simpa using fresh)).elim

/-- The put of a counted handle that has just been closed. -/
theorem balanced_putParent {G : Family} (fault : G.fault ≠ some .usageCount)
    (distinct : Distinct G) (tidy : Tidy G) (attached : G.attached = true)
    (usage : G.usageCount =
      counted G.early G.par.handles + counted G.early (G.childHandles.map Prod.fst) + 1)
    (opens : G.openCount = counted G.early G.par.handles)
    (users : ∀ h c, (h, c) ∈ G.childHandles → h ∉ G.early → c ∈ G.childInodes) :
    ∃ F', G.putParent false = .ok F' ∧ Balanced F' := by
  unfold putParent
  rw [if_neg (by rw [attached]; exact Bool.noConfusion)]
  dsimp only
  rw [if_neg (by omega)]
  refine balanced_freeUnused fault { distinct with } { tidy with } attached ?_ opens users
  dsimp only
  omega

/-! ## Opening -/

/-- The parent of a balanced family after a get: one user more than handles. -/
structure Got (F G : Family) : Prop where
  tidy : Tidy G
  aside : Aside F G
  attached : G.attached = true
  usage : G.usageCount =
    counted F.early F.par.handles + counted F.early (F.childHandles.map Prod.fst) + 1
  users : ∀ h c, (h, c) ∈ F.childHandles → h ∉ F.early → c ∈ G.childInodes

/-- Getting the parent, whether the open has been counted already or not. -/
theorem Balanced.getParent (balanced : Balanced F) (env : MountEnv) (n : Int) :
    Got { F with openCount := n } (({ F with openCount := n } : Family).getParent env) := by
  obtain ⟨tidy, aside, attached, usage, childInodes⟩ :=
    tidy_getParent (F := { F with openCount := n }) env { balanced.tidy with }
      fun off => (balanced.unused off).2.2
  refine ⟨tidy, aside, attached, ?_, fun h c member fresh => ?_⟩
  · rw [usage]
    dsimp only
    cases here : F.attached with
    | true => rw [if_pos rfl, balanced.usage here]
    | false =>
        obtain ⟨none, none', _⟩ := balanced.unused here
        rw [none, none']
        rfl
  · have isOpen : h ∈ F.openHandles :=
      List.mem_append_right _ (List.mem_map.mpr ⟨(h, c), member, rfl⟩)
    rw [childInodes (balanced.attached_of_counted isOpen fresh)]
    exact balanced.users h c member fresh

theorem isOpen_iff (F : Family) (h : Handle) : F.isOpen h ↔ h ∈ F.openHandles :=
  List.mem_append.symm

/-- Opening a handle that is not counted. -/
theorem Balanced.openEarly (balanced : Balanced F) (fresh : ¬ F.isOpen file) :
    Balanced { F with
      early := file :: F.early
      par := { F.par with handles := file :: F.par.handles } } ∧
    ∀ c, Balanced { F with
      early := file :: F.early
      childHandles := (file, c) :: F.childHandles } := by
  rw [isOpen_iff] at fresh
  have onParent : file ∉ F.par.handles := fun member => fresh (List.mem_append_left _ member)
  have onChild : file ∉ F.childHandles.map Prod.fst := fun member =>
    fresh (List.mem_append_right _ member)
  have parent : counted (file :: F.early) F.par.handles = counted F.early F.par.handles :=
    counted_early_cons onParent
  have child : counted (file :: F.early) (F.childHandles.map Prod.fst) =
      counted F.early (F.childHandles.map Prod.fst) := counted_early_cons onChild
  have nodup : (file :: F.early).Nodup := List.nodup_cons.mpr
    ⟨fun member => fresh (balanced.distinct.early file member), balanced.distinct.earlyNodup⟩
  have users {h : Handle} {c : Ino} (member : (h, c) ∈ F.childHandles)
      (counted : h ∉ file :: F.early) : c ∈ F.childInodes :=
    balanced.users h c member fun early => counted (List.mem_cons_of_mem _ early)
  refine ⟨?_, fun c => ?_⟩
  · refine
      { balanced with
        distinct := ⟨List.nodup_cons.mpr ⟨fresh, balanced.distinct.handles⟩, fun h member => ?_,
          nodup⟩
        tidy := { balanced.tidy with }
        usage := fun attached => ?_
        opens := ?_
        unused := fun detached => ?_
        users := fun h c => users }
    · rcases List.mem_cons.mp member with rfl | old
      · exact List.mem_cons_self
      · exact List.mem_cons_of_mem _ (balanced.distinct.early h old)
    · dsimp only
      rw [counted_cons_early, parent, child]
      exact balanced.usage attached
    · dsimp only
      rw [counted_cons_early, parent]
      exact balanced.opens
    · dsimp only
      rw [counted_cons_early, parent, child]
      exact balanced.unused detached
  · refine
      { balanced with
        distinct := ⟨?_, fun h member => ?_, nodup⟩
        tidy := { balanced.tidy with }
        usage := fun attached => ?_
        opens := ?_
        unused := fun detached => ?_
        users := fun h d member fresh' => ?_ }
    · exact (List.perm_middle.nodup_iff).mpr
        (List.nodup_cons.mpr ⟨fresh, balanced.distinct.handles⟩)
    · rcases List.mem_cons.mp member with rfl | old
      · exact List.mem_append_right _ List.mem_cons_self
      · have before := balanced.distinct.early h old
        exact (List.perm_middle.mem_iff).mpr (List.mem_cons_of_mem _ before)
    · dsimp only
      rw [List.map_cons, counted_cons_early, parent, child]
      exact balanced.usage attached
    · dsimp only
      rw [parent]
      exact balanced.opens
    · dsimp only
      rw [List.map_cons, counted_cons_early, parent, child]
      exact balanced.unused detached
    · rcases List.mem_cons.mp member with same | old
      · have named : h = file := congrArg Prod.fst same
        rw [named] at fresh'
        exact (fresh' List.mem_cons_self).elim
      · exact users old fresh'

theorem balanced_openParent (env : MountEnv) (balanced : Balanced F) (fresh : ¬ F.isOpen file) :
    Balanced (F.openParent file env) := by
  unfold openParent
  dsimp only
  split
  case isFalse => exact (balanced.openEarly fresh).1
  case isTrue =>
    have got := balanced.getParent env (F.openCount + 1)
    rw [isOpen_iff] at fresh
    have uncounted : file ∉ F.early := fun member => fresh (balanced.distinct.early file member)
    generalize ({ F with openCount := F.openCount + 1 } : Family).getParent env = G at got
    obtain ⟨handles, childHandles, early, openCount, _, fault, _, _⟩ := got.aside
    have usage := got.usage
    have users := got.users
    dsimp only at handles childHandles early openCount fault usage users
    refine
      { fault := fault ▸ balanced.fault
        distinct := ⟨?_, fun h member => ?_, early ▸ balanced.distinct.earlyNodup⟩
        tidy := { got.tidy with }
        usage := fun _ => ?_
        opens := ?_
        unused := fun off => Bool.noConfusion (off.symm.trans got.attached)
        users := fun h c member counted => ?_
        used := fun _ zero => ?_ }
    · unfold openHandles
      dsimp only
      rw [handles, childHandles]
      exact List.nodup_cons.mpr ⟨fresh, balanced.distinct.handles⟩
    · unfold openHandles
      dsimp only at member ⊢
      rw [early] at member
      rw [handles, childHandles]
      exact List.mem_cons_of_mem _ (balanced.distinct.early h member)
    · dsimp only
      rw [usage, early, handles, childHandles, counted_cons uncounted]
      omega
    · dsimp only
      rw [openCount, early, handles, counted_cons uncounted, balanced.opens]
      rfl
    · dsimp only at member counted ⊢
      rw [childHandles] at member
      rw [early] at counted
      exact users h c member counted
    · dsimp only at zero
      omega

theorem balanced_openChild (env : MountEnv) (balanced : Balanced F) (fresh : ¬ F.isOpen file)
    (linked : (F.child c).linked = true) : Balanced (F.openChild file c env) := by
  unfold openChild
  dsimp only
  split
  case isFalse => exact (balanced.openEarly fresh).2 c
  case isTrue isChild =>
    have got : Got F (F.getParent env) := balanced.getParent env F.openCount
    rw [isOpen_iff] at fresh
    have uncounted : file ∉ F.early := fun member => fresh (balanced.distinct.early file member)
    -- a child with a name is one of the children of the attached parent
    have attached : c ∈ (F.getParent env).childInodes := by
      rcases Bool.or_eq_true_iff.mp isChild with here | hasParent
      · have member := balanced.tidy.mem_of_attached here
        have on : F.attached = true := by
          by_contra off
          rw [balanced.tidy.empty (Bool.eq_false_of_not_eq_true off)] at member
          exact List.not_mem_nil member
        have same : F.getParent env = { F with usageCount := F.usageCount + 1 } := if_pos on
        rw [same]
        exact member
      · exact got.tidy.complete got.attached c ((got.aside.hasParent c).trans hasParent)
          ((got.aside.linked c).trans linked)
    generalize F.getParent env = G at got attached
    obtain ⟨handles, childHandles, early, openCount, _, fault, _, _⟩ := got.aside
    have usage := got.usage
    refine
      { fault := fault ▸ balanced.fault
        distinct := ⟨?_, fun h member => ?_, early ▸ balanced.distinct.earlyNodup⟩
        tidy := { got.tidy with }
        usage := fun _ => ?_
        opens := ?_
        unused := fun off => Bool.noConfusion (off.symm.trans got.attached)
        users := fun h d member counted => ?_
        used := fun _ zero => ?_ }
    · unfold openHandles
      dsimp only
      rw [handles, childHandles, List.map_cons]
      exact (List.perm_middle.nodup_iff).mpr
        (List.nodup_cons.mpr ⟨fresh, balanced.distinct.handles⟩)
    · unfold openHandles
      dsimp only at member ⊢
      rw [early] at member
      rw [handles, childHandles, List.map_cons]
      exact (List.perm_middle.mem_iff).mpr
        (List.mem_cons_of_mem _ (balanced.distinct.early h member))
    · dsimp only
      rw [usage, early, handles, childHandles, List.map_cons, counted_cons uncounted]
      omega
    · dsimp only
      rw [openCount, early, handles]
      exact balanced.opens
    · dsimp only at member counted ⊢
      rw [childHandles] at member
      rw [early] at counted
      rcases List.mem_cons.mp member with same | old
      · have named : d = c := congrArg Prod.snd same
        rw [named]
        exact attached
      · exact got.users h d old counted
    · dsimp only at zero
      omega

/-! ## Closing -/

/-- Closing a handle of the parent. -/
theorem Distinct.closeParent (distinct : Distinct F) (isOpen : file ∈ F.par.handles) :
    (F.par.handles.erase file ++ F.childHandles.map Prod.fst).Nodup ∧
      (∀ h ∈ F.early.erase file,
        h ∈ F.par.handles.erase file ++ F.childHandles.map Prod.fst) ∧
      (F.early.erase file).Nodup := by
  have shape : F.par.handles.erase file ++ F.childHandles.map Prod.fst =
      F.openHandles.erase file := (List.erase_append_left _ isOpen).symm
  rw [shape]
  refine ⟨distinct.handles.erase file, fun h member => ?_, distinct.earlyNodup.erase file⟩
  obtain ⟨other, old⟩ := (distinct.earlyNodup.mem_erase_iff).mp member
  exact (List.mem_erase_of_ne other).mpr (distinct.early h old)

theorem balanced_releaseParent (balanced : Balanced F) (isOpen : file ∈ F.par.handles)
    (paired : file ∈ F.early → F.attached = false) :
    ∃ F', F.releaseParent file = .ok F' ∧ Balanced F' := by
  have nodup := List.nodup_append.mp balanced.distinct.handles
  have onChild : file ∉ F.childHandles.map Prod.fst := fun member =>
    nodup.2.2 file isOpen file member rfl
  have parent := counted_erase F.early nodup.1 isOpen
  have child : counted (F.early.erase file) (F.childHandles.map Prod.fst) =
      counted F.early (F.childHandles.map Prod.fst) := counted_of_not_mem onChild
  obtain ⟨handles, early, earlyNodup⟩ := balanced.distinct.closeParent isOpen
  have users (h : Handle) (c : Ino) (member : (h, c) ∈ F.childHandles)
      (fresh : h ∉ F.early.erase file) : c ∈ F.childInodes := by
    have other : h ≠ file := by
      rintro rfl
      exact onChild (List.mem_map.mpr ⟨(h, c), member, rfl⟩)
    exact balanced.users h c member fun known => fresh ((List.mem_erase_of_ne other).mpr known)
  unfold releaseParent
  dsimp only
  split
  case isTrue attached =>
    have fresh : file ∉ F.early := fun known =>
      Bool.noConfusion ((paired known).symm.trans attached)
    rw [if_neg fresh] at parent
    have usage := balanced.usage attached
    have opens := balanced.opens
    refine balanced_putParent balanced.fault ⟨handles, early, earlyNodup⟩
      { balanced.tidy with } attached ?_ ?_ users
    · dsimp only
      rw [child]
      omega
    · dsimp only
      omega
  case isFalse off =>
    have detached : F.attached = false := Bool.eq_false_of_not_eq_true off
    obtain ⟨none, none', copies⟩ := balanced.unused detached
    refine ⟨_, rfl, ?_⟩
    refine
      { balanced with
        distinct := ⟨handles, early, earlyNodup⟩
        tidy := { balanced.tidy with }
        usage := fun on => (off on).elim
        opens := ?_
        unused := fun _ => ⟨?_, ?_, copies⟩
        users := users }
    · have opens := balanced.opens
      dsimp only
      omega
    · dsimp only
      omega
    · dsimp only
      rw [child]
      exact none'

theorem map_fst_erase {hs : List (Handle × Ino)} (nodup : (hs.map Prod.fst).Nodup)
    (isOpen : (file, c) ∈ hs) :
    (hs.erase (file, c)).map Prod.fst = (hs.map Prod.fst).erase file := by
  induction hs with
  | nil => cases isOpen
  | cons head hs ih =>
      obtain ⟨absent, rest⟩ := List.nodup_cons.mp nodup
      rcases List.mem_cons.mp isOpen with same | later
      · rw [← same, List.erase_cons_head, List.map_cons, List.erase_cons_head]
      · have other : head.1 ≠ file := fun equal =>
          absent (List.mem_map.mpr ⟨(file, c), later, equal.symm⟩)
        have other' : head ≠ (file, c) := fun equal => other (congrArg Prod.fst equal)
        rw [List.erase_cons_tail (by simpa using other'), List.map_cons, List.map_cons,
          List.erase_cons_tail (by simpa using other), ih rest later]

/-- Closing a handle of another file. -/
theorem Distinct.closeChild (distinct : Distinct F) (isOpen : (file, c) ∈ F.childHandles) :
    (F.par.handles ++ (F.childHandles.erase (file, c)).map Prod.fst).Nodup ∧
      (∀ h ∈ F.early.erase file,
        h ∈ F.par.handles ++ (F.childHandles.erase (file, c)).map Prod.fst) ∧
      (F.early.erase file).Nodup := by
  have nodup := List.nodup_append.mp distinct.handles
  have member : file ∈ F.childHandles.map Prod.fst := List.mem_map.mpr ⟨_, isOpen, rfl⟩
  have onParent : file ∉ F.par.handles := fun here => nodup.2.2 file here file member rfl
  have shape : F.par.handles ++ (F.childHandles.erase (file, c)).map Prod.fst =
      F.openHandles.erase file := by
    rw [map_fst_erase nodup.2.1 isOpen, ← List.erase_append_right _ onParent]
    rfl
  rw [shape]
  refine ⟨distinct.handles.erase file, fun h member => ?_, distinct.earlyNodup.erase file⟩
  obtain ⟨other, old⟩ := (distinct.earlyNodup.mem_erase_iff).mp member
  exact (List.mem_erase_of_ne other).mpr (distinct.early h old)

theorem balanced_releaseChild (balanced : Balanced F) (isOpen : (file, c) ∈ F.childHandles)
    (paired : file ∈ F.early → (F.child c).scorwInode = none) :
    ∃ F', F.releaseChild file c = .ok F' ∧ Balanced F' := by
  have nodup := List.nodup_append.mp balanced.distinct.handles
  have named : file ∈ F.childHandles.map Prod.fst := List.mem_map.mpr ⟨_, isOpen, rfl⟩
  have onParent : file ∉ F.par.handles := fun here => nodup.2.2 file here file named rfl
  have parent : counted (F.early.erase file) F.par.handles = counted F.early F.par.handles :=
    counted_of_not_mem onParent
  have child := counted_erase F.early nodup.2.1 named
  rw [← map_fst_erase nodup.2.1 isOpen] at child
  obtain ⟨handles, early, earlyNodup⟩ := balanced.distinct.closeChild isOpen
  have users (h : Handle) (d : Ino) (member : (h, d) ∈ F.childHandles.erase (file, c))
      (fresh : h ∉ F.early.erase file) : d ∈ F.childInodes := by
    have other : h ≠ file := by
      rintro rfl
      have again : h ∈ (F.childHandles.erase (h, c)).map Prod.fst :=
        List.mem_map.mpr ⟨(h, d), member, rfl⟩
      rw [map_fst_erase nodup.2.1 isOpen] at again
      exact nodup.2.1.not_mem_erase again
    exact balanced.users h d (List.mem_of_mem_erase member) fun known =>
      fresh ((List.mem_erase_of_ne other).mpr known)
  unfold releaseChild
  dsimp only
  split
  case isTrue here =>
    have member := balanced.tidy.mem_of_attached here
    have attached : F.attached = true := by
      by_contra off
      rw [balanced.tidy.empty (Bool.eq_false_of_not_eq_true off)] at member
      exact List.not_mem_nil member
    have fresh : file ∉ F.early := fun known => by
      rw [paired known] at here
      cases here
    rw [if_neg fresh] at child
    have usage := balanced.usage attached
    refine balanced_putParent balanced.fault ⟨handles, early, earlyNodup⟩
      { balanced.tidy with } attached ?_ ?_ users
    · dsimp only
      rw [parent]
      omega
    · dsimp only
      rw [parent]
      exact balanced.opens
  case isFalse none =>
    -- the handle was not counted, for a counted one keeps its file attached
    have known : file ∈ F.early := by
      by_contra fresh
      exact none (balanced.tidy.isSome_of_mem (balanced.users file c isOpen fresh))
    rw [if_pos known] at child
    refine ⟨_, rfl, ?_⟩
    refine
      { balanced with
        distinct := ⟨handles, early, earlyNodup⟩
        tidy := { balanced.tidy with }
        usage := fun attached => ?_
        opens := ?_
        unused := fun detached => ?_
        users := users }
    · have usage := balanced.usage attached
      dsimp only
      rw [parent]
      omega
    · dsimp only
      rw [parent]
      exact balanced.opens
    · obtain ⟨zero, zero', copies⟩ := balanced.unused detached
      refine ⟨?_, ?_, copies⟩
      · dsimp only
        rw [parent]
        exact zero
      · dsimp only
        omega

/-! ## Cloning and unlinking -/

/-- The references of a family look at nothing else. -/
theorem Balanced.of_same (balanced : Balanced F) (handles : F'.par.handles = F.par.handles)
    (childHandles : F'.childHandles = F.childHandles) (early : F'.early = F.early)
    (attached : F'.attached = F.attached) (usageCount : F'.usageCount = F.usageCount)
    (openCount : F'.openCount = F.openCount) (childInodes : F'.childInodes = F.childInodes)
    (tidy : Tidy F') (copies : F.pageCopies ≤ F'.pageCopies)
    (noCopies : F.attached = false → F'.pageCopies = F.pageCopies)
    (fault : F'.fault ≠ some .usageCount) : Balanced F' := by
  refine
    { fault := fault
      distinct := ⟨?_, ?_, early ▸ balanced.distinct.earlyNodup⟩
      tidy := tidy
      usage := fun on => ?_
      opens := ?_
      unused := fun off => ?_
      users := fun h c member fresh => ?_
      used := fun on zero => ?_ }
  · unfold openHandles
    rw [handles, childHandles]
    exact balanced.distinct.handles
  · unfold openHandles
    rw [handles, childHandles, early]
    exact balanced.distinct.early
  · rw [usageCount, early, handles, childHandles]
    exact balanced.usage (attached ▸ on)
  · rw [openCount, early, handles]
    exact balanced.opens
  · rw [attached] at off
    rw [early, handles, childHandles, noCopies off]
    exact balanced.unused off
  · rw [childHandles] at member
    rw [early] at fresh
    rw [childInodes]
    exact balanced.users h c member fresh
  · rw [usageCount] at zero
    have := balanced.used (attached ▸ on) zero
    omega

theorem tidy_setAttributes {req : CloneReq} (tidy : Tidy F) (detached : F.attached = false)
    (fresh : req.child ∉ F.slots) : Tidy (F.setAttributes req) := by
  have none := tidy.none_of_detached detached
  have child (c : Ino) : ((F.setAttributes req).child c).hasParent = (F.child c).hasParent ∧
      ((F.setAttributes req).child c).linked = (F.child c).linked ∧
      ((F.setAttributes req).child c).scorwInode = (F.child c).scorwInode := by
    unfold setAttributes
    dsimp only
    by_cases same : c = req.child
    · rw [same, child_setChild_self]
      exact ⟨rfl, rfl, rfl⟩
    · rw [child_setChild_of_ne same]
      exact ⟨rfl, rfl, rfl⟩
  refine ⟨?_, fun c hasParent linked => ?_, tidy.childInodes, fun c member => ?_, fun c _ => ?_,
    fun on => ?_, fun _ => tidy.empty detached⟩
  · exact List.nodup_append.mpr ⟨tidy.slots, List.nodup_singleton _, fun c member d last => by
      rw [List.mem_singleton.mp last]
      rintro rfl
      exact fresh member⟩
  · exact List.mem_append_left _
      (tidy.inSlot c ((child c).1 ▸ hasParent) ((child c).2.1 ▸ linked))
  · rw [(child c).2.2]
    exact tidy.here c member
  · rw [(child c).2.2]
    exact none c
  · exact Bool.noConfusion (detached.symm.trans on)

theorem tidy_setParent {req : CloneReq} (tidy : Tidy F) (detached : F.attached = false)
    (listed : req.child ∈ F.slots) : Tidy (F.setParent req) := by
  have none := tidy.none_of_detached detached
  refine ⟨tidy.slots, fun c hasParent linked => ?_, tidy.childInodes, fun c member => ?_,
    fun c _ => ?_, fun on => ?_, fun _ => tidy.empty detached⟩
  · unfold setParent at hasParent linked
    dsimp only at hasParent linked
    by_cases same : c = req.child
    · rw [same]
      exact listed
    · rw [child_setChild_of_ne same] at hasParent linked
      exact tidy.inSlot c hasParent linked
  · have empty : c ∈ F.childInodes := member
    rw [tidy.empty detached] at empty
    exact (List.not_mem_nil empty).elim
  · unfold setParent
    dsimp only
    by_cases same : c = req.child
    · rw [same, child_setChild_self]
      exact none req.child
    · rw [child_setChild_of_ne same]
      exact none c
  · exact Bool.noConfusion (detached.symm.trans on)

/-- A clone of a parent that is not attached changes no count. -/
theorem balanced_clone {req : CloneReq} (env : MountEnv) (balanced : Balanced F)
    (detached : F.attached = false) (fresh : req.child ∉ F.slots) :
    ∃ F', (F.clone req env).2 = .ok F' ∧ Balanced F' := by
  have attributes : Balanced (F.setAttributes req) :=
    balanced.of_same rfl rfl rfl rfl rfl rfl rfl
      (tidy_setAttributes balanced.tidy detached fresh) le_rfl (fun _ => rfl) balanced.fault
  have parent : Balanced ((F.setAttributes req).setParent req) :=
    attributes.of_same rfl rfl rfl rfl rfl rfl rfl
      (tidy_setParent attributes.tidy detached (List.mem_append_right _ List.mem_cons_self))
      le_rfl (fun _ => rfl) balanced.fault
  unfold clone
  split
  · exact ⟨F, rfl, balanced⟩
  split
  · exact ⟨F, rfl, balanced⟩
  split
  · exact ⟨_, rfl, attributes⟩
  · refine ⟨_, ?_, parent⟩
    have off : ¬ ((F.setAttributes req).setParent req).attached = true := by
      have same : ((F.setAttributes req).setParent req).attached = F.attached := rfl
      rw [same, detached]
      exact Bool.noConfusion
    have single : ¬ 1 < ((F.setAttributes req).setParent req).openCount := by
      have zero := (balanced.unused detached).1
      have opens := balanced.opens
      have same : ((F.setAttributes req).setParent req).openCount = F.openCount := rfl
      omega
    unfold specialOpen
    rw [if_neg off, if_neg single]

/-- Unlinking a child that is not attached changes no count. -/
theorem balanced_unlinkChild (balanced : Balanced F) (none : (F.child c).scorwInode = none) :
    ∃ F', F.unlinkChild c = .ok F' ∧ Balanced F' := by
  have gone : (F.setChild c { F.child c with linked := false }).child c =
      { F.child c with linked := false } := child_setChild_self F c _
  have erased : F.unlinkChild c = .ok { F.setChild c { F.child c with linked := false } with
      slots := F.slots.erase c } := by
    unfold unlinkChild
    dsimp only
    split
    case h_1 s here =>
      rw [gone] at here
      cases none.symm.trans here
    case h_2 => rfl
  refine ⟨_, erased, balanced.of_same rfl rfl rfl rfl rfl rfl rfl ?_ le_rfl (fun _ => rfl)
    balanced.fault⟩
  have tidy := balanced.tidy
  have child {d : Ino} (hasParent : ((F.setChild c { F.child c with
      linked := false }).child d).hasParent = true) (linked : ((F.setChild c { F.child c with
      linked := false }).child d).linked = true) :
      d ≠ c ∧ (F.child d).hasParent = true ∧ (F.child d).linked = true := by
    by_cases same : d = c
    · rw [same, child_setChild_self] at linked
      cases linked
    · rw [child_setChild_of_ne same] at hasParent linked
      exact ⟨same, hasParent, linked⟩
  have scorwInode (d : Ino) : ((F.setChild c { F.child c with
      linked := false }).child d).scorwInode = (F.child d).scorwInode := by
    by_cases same : d = c
    · rw [same, child_setChild_self]
    · rw [child_setChild_of_ne same]
  refine ⟨tidy.slots.erase c, fun d hasParent linked => ?_, tidy.childInodes,
    fun d member => ?_, fun d absent => ?_, fun on d hasParent linked => ?_, tidy.empty⟩
  · obtain ⟨other, before, named⟩ := child hasParent linked
    exact (List.mem_erase_of_ne other).mpr (tidy.inSlot d before named)
  · obtain ⟨v, here⟩ := tidy.here d member
    exact ⟨v, (scorwInode d).trans here⟩
  · exact (scorwInode d).trans (tidy.gone d absent)
  · obtain ⟨_, before, named⟩ := child hasParent linked
    exact tidy.complete on d before named

/-! ## Runs -/

theorem balanced_call {op : Op} {copies : Nat} {ret : Int} (balanced : Balanced F)
    (called : CallCase F copies op ret F') : Balanced F' := by
  cases called with
  | onParent attached isOpen frame taken =>
      exact balanced.of_same frame.1 rfl rfl rfl rfl rfl rfl { balanced.tidy with } le_rfl
        (fun _ => rfl) balanced.fault
  | noParent =>
      exact balanced.of_same rfl rfl rfl rfl rfl rfl rfl { balanced.tidy with } le_rfl
        (fun _ => rfl) fun fault => by cases fault
  | @inPlace file w env =>
      refine balanced.of_same rfl rfl rfl rfl rfl rfl rfl { balanced.tidy with } ?_ ?_
        balanced.fault
      · unfold writeInPlace
        dsimp only
        split
        · exact Nat.le_add_right _ _
        · exact le_rfl
      · intro detached
        exact if_neg (by rw [detached]; exact Bool.noConfusion)
  | refused => exact balanced
  | looked attached =>
      exact balanced.of_same rfl rfl rfl rfl rfl rfl rfl { balanced.tidy with } le_rfl
        (fun _ => rfl) balanced.fault

theorem balanced_updateVersion (c : Ino) (balanced : Balanced F) :
    Balanced (F.updateVersion c).2 := by
  unfold updateVersion
  split
  case h_1 => exact balanced
  case h_2 s here =>
    have tidy := balanced.tidy
    have aside : Aside F (F.setScorwInode c (some { s with version := F.par.currVersionAttr })) :=
      .setChild rfl rfl
    refine balanced.of_same rfl rfl rfl rfl rfl rfl rfl ?_ le_rfl (fun _ => rfl) balanced.fault
    refine ⟨tidy.slots, fun d hasParent linked => ?_, tidy.childInodes, fun d member => ?_,
      fun d absent => ?_, fun on d hasParent linked => ?_, tidy.empty⟩
    · exact tidy.inSlot d (aside.hasParent d ▸ hasParent) (aside.linked d ▸ linked)
    · by_cases same : d = c
      · rw [same] at member ⊢
        obtain ⟨v, before⟩ := tidy.here c member
        rw [before] at here
        cases here
        exact ⟨_, congrArg Child.scorwInode (child_setScorwInode_self F c _)⟩
      · rw [child_setScorwInode_of_ne same]
        exact tidy.here d member
    · by_cases same : d = c
      · rw [same] at absent
        cases (tidy.gone c absent).symm.trans here
      · rw [child_setScorwInode_of_ne same]
        exact tidy.gone d absent
    · exact tidy.complete on d (aside.hasParent d ▸ hasParent) (aside.linked d ▸ linked)

theorem balanced_crashed (kept : Ino → Nat) (file : ByteFile UInt8) (balanced : Balanced F) :
    Balanced (F.crashed kept file) where
  fault := balanced.fault
  distinct := ⟨List.nodup_nil, fun _ none => (List.not_mem_nil none).elim, List.nodup_nil⟩
  tidy :=
    { slots := balanced.tidy.slots
      inSlot := balanced.tidy.inSlot
      childInodes := List.nodup_nil
      here := fun _ none => (List.not_mem_nil none).elim
      gone := fun _ _ => rfl
      complete := fun none => Bool.noConfusion none
      empty := fun _ => rfl }
  usage := fun none => Bool.noConfusion none
  opens := rfl
  unused := fun _ => ⟨rfl, rfl, rfl⟩
  users := fun _ _ none => (List.not_mem_nil none).elim
  used := fun none => Bool.noConfusion none

/-- What keeps gets and puts in pairs: no clone of an attached parent and no second
clone of one file, no early handle closed and no child unlinked while the
`scorw_inode` of the file is attached. -/
def Paired (F : Family) : FamilyOp → Prop
  | .clone req _ => F.attached = false ∧ req.child ∉ F.slots
  | .closeParent file => file ∈ F.early → F.attached = false
  | .closeChild file c => file ∈ F.early → (F.child c).scorwInode = none
  | .unlinkChild c => (F.child c).scorwInode = none
  | _ => True

instance (F : Family) (op : FamilyOp) : Decidable (F.Paired op) := by
  unfold Paired
  split <;> infer_instance

theorem balanced_settle {ret ret' : Int} {result : Except Fault Family}
    (ok : ∃ G, result = .ok G ∧ Balanced G) (done : F.settle ret result = some (ret', F')) :
    Balanced F' := by
  obtain ⟨G, shape, balanced⟩ := ok
  subst shape
  cases done
  exact balanced

theorem balanced_step {op : FamilyOp} {ret : Int} (balanced : Balanced F) (paired : F.Paired op)
    (taken : F.step op = some (ret, F')) : Balanced F' := by
  unfold step at taken
  split at taken
  case isTrue => cases taken
  case isFalse =>
    cases op with
    | openParent file env =>
        dsimp only at taken
        split at taken
        case isTrue => cases taken
        case isFalse fresh =>
          cases taken
          exact balanced_openParent env balanced fresh
    | closeParent file =>
        dsimp only at taken
        split at taken
        case isTrue isOpen =>
          exact balanced_settle (balanced_releaseParent balanced isOpen paired) taken
        case isFalse => cases taken
    | openChild file c env =>
        dsimp only at taken
        split at taken
        case isTrue => cases taken
        case isFalse fresh =>
          obtain ⟨fresh, linked⟩ := not_or.mp fresh
          cases taken
          exact balanced_openChild env balanced fresh (Bool.eq_true_of_not_eq_false linked)
    | closeChild file c =>
        dsimp only at taken
        split at taken
        case isTrue isOpen =>
          exact balanced_settle (balanced_releaseChild balanced isOpen paired) taken
        case isFalse => cases taken
    | readChild file c env =>
        dsimp only at taken
        split at taken
        case isTrue =>
          cases taken
          unfold readChild
          split
          case isTrue both =>
            have none := balanced.tidy.none_of_detached both.2 c
            rw [none] at both
            cases both.1
          case isFalse => exact balanced
        case isFalse => cases taken
    | clone req env =>
        exact balanced_settle (balanced_clone env balanced paired.1 paired.2) taken
    | unlinkChild c =>
        dsimp only at taken
        split at taken
        case isTrue => exact balanced_settle (balanced_unlinkChild balanced paired) taken
        case isFalse => cases taken
    | updateVersion file c =>
        dsimp only at taken
        split at taken
        case isTrue =>
          have after := balanced_updateVersion c balanced
          rw [Option.some.inj taken] at after
          exact after
        case isFalse => cases taken
    | call op copies =>
        obtain ⟨⟨ret₁, result⟩, made, done⟩ := Option.bind_eq_some_iff.mp taken
        exact balanced_call balanced (call_cases made done)
    | pageCopied =>
        dsimp only at taken
        split at taken
        case isTrue => cases taken
        case isFalse pending =>
          have attached : F.attached = true := by
            by_contra off
            exact pending (balanced.unused (Bool.eq_false_of_not_eq_true off)).2.2
          refine balanced_settle ?_ taken
          unfold threadPutParent
          rw [if_neg (by rw [attached]; exact Bool.noConfusion)]
          exact balanced_freeUnused balanced.fault { balanced.distinct with }
            { balanced.tidy with } attached (balanced.usage attached) balanced.opens balanced.users
    | crash kept file =>
        dsimp only at taken
        split at taken
        case isTrue =>
          cases taken
          exact balanced_crashed kept file balanced
        case isFalse => cases taken

/-- In every run whose gets and puts are in pairs, no usage count is dropped below
zero; the parent is attached while a handle is open that was opened when its file was
a parent or a child; and once all handles are closed and no page copy is pending,
nothing is attached any more. -/
theorem references_balanced {f : ByteFile UInt8} {ops : List FamilyOp} {F : Family}
    (run : Run step Paired (plain f) ops F) :
    F.fault ≠ some .usageCount ∧
      (∀ h, F.isOpen h → h ∉ F.early → F.attached = true) ∧
      (F.par.handles = [] → F.childHandles = [] → F.pageCopies = 0 →
        F.attached = false ∧ ∀ c, (F.child c).scorwInode = none) := by
  have balanced : Balanced F := run.invariant (fun _ _ _ _ => balanced_step) (balanced_plain f)
  refine ⟨balanced.fault, fun h isOpen fresh => ?_, fun handles childHandles copies => ?_⟩
  · exact balanced.attached_of_counted ((isOpen_iff F h).mp isOpen) fresh
  · have detached : F.attached = false := by
      by_contra off
      have on : F.attached = true := Bool.eq_true_of_not_eq_false off
      have usage := balanced.usage on
      rw [handles, childHandles] at usage
      exact balanced.used on usage copies
    exact ⟨detached, balanced.tidy.none_of_detached detached⟩

/-- A clone of a closed file, two handles and a read; the first handle is closed. -/
theorem references_balanced_two_handles :
    ∃ F : Family,
      Run step Paired (plain (.blank 8192))
        [.openParent 0 ⟨fun _ => true, .upTo 0⟩, .closeParent 0,
          .clone ⟨5, 50, 100, true, 0⟩ ⟨fun _ => true, .upTo 0⟩,
          .openParent 1 ⟨fun _ => true, .upTo 0⟩, .openChild 2 5 ⟨fun _ => true, .upTo 0⟩,
          .readChild 2 5 ⟨fun _ => true, .upTo 0⟩, .closeParent 1] F ∧
        F.isOpen 2 ∧ 2 ∉ F.early ∧ F.attached = true := by
  refine Run.exists_imp (fun F op => decide (F.Paired op)) (fun _ _ _ => of_decide_eq_true)
    (Q := fun F => F.isOpen 2 ∧ 2 ∉ F.early) (by decide +kernel) ?_
  rintro F run ⟨isOpen, fresh⟩
  exact ⟨isOpen, fresh, (references_balanced run).2.1 2 isOpen fresh⟩

/-- A file is cloned while the parent is open, and everything is closed: the new child
stays attached. And a handle that was opened before its file was a parent takes the
reference of another one with it when it is closed. -/
theorem references_balanced_fails :
    (∃ F : Family,
      Run step (fun _ _ => True) (plain (.blank 8192))
        [.clone ⟨5, 50, 100, true, 0⟩ ⟨fun _ => true, .upTo 0⟩,
          .openParent 0 ⟨fun _ => true, .upTo 0⟩, .openChild 1 6 ⟨fun _ => true, .upTo 0⟩,
          .clone ⟨6, 51, 100, true, 0⟩ ⟨fun _ => true, .upTo 0⟩,
          .closeChild 1 6, .closeParent 0] F ∧
        F.par.handles = [] ∧ F.childHandles = [] ∧ F.pageCopies = 0 ∧
        (F.child 6).scorwInode ≠ none) ∧
      ∃ F : Family,
        Run step (fun _ _ => True) (plain (.blank 8192))
          [.openParent 0 ⟨fun _ => true, .upTo 0⟩,
            .clone ⟨5, 50, 100, true, 0⟩ ⟨fun _ => true, .upTo 0⟩,
            .openParent 1 ⟨fun _ => true, .upTo 0⟩, .closeParent 0] F ∧
          F.isOpen 1 ∧ 1 ∉ F.early ∧ F.attached = false := by
  constructor
  · exact Run.exists_imp (fun _ _ => true) (fun _ _ _ _ => trivial) (by decide +kernel)
      fun _ _ shown => shown
  · exact Run.exists_imp (fun _ _ => true) (fun _ _ _ _ => trivial) (by decide +kernel)
      fun _ _ shown => shown

end Family

end FlexClone.Scorw
