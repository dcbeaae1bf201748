import FlexClone.Scorw.Family

/-!
# What a step does to a family

`Calm` is what getting and putting `scorw_inode`s does to versions and logs:
nothing is lost and nothing is raised, whatever the reference counts are.
`StepCase` lists what else a step can do: a new `scorw_inode` of the parent is
built from the attributes (`startParent`), a clone overwrites them
(`setAttributes`), `update_version` copies the parent's stored version to a
child, a call of `System` runs on the parent, or the machine crashes.

`step_cases` says that this is everything; the results about families are
derived from it.
-/

namespace FlexClone.Scorw

/-- The version a child reads at: the one in memory, or the stored one. -/
def Child.version (k : Child) : Nat :=
  match k.scorwInode with
  | some s => s.version
  | none => k.currVersionAttr

theorem Child.version_of_attached {k : Child} {s : ScorwChild} (here : k.scorwInode = some s) :
    k.version = s.version := by
  unfold version
  rw [here]

theorem Child.version_of_detached {k : Child} (none : k.scorwInode = none) :
    k.version = k.currVersionAttr := by
  unfold version
  rw [none]

/-- The highest version a child has, in memory or stored. -/
def Child.highest (k : Child) : Nat := max k.currVersionAttr k.version

/-- What getting and putting does to a child: the version in memory may be stored,
or built from the stored one. -/
structure Child.Settles (k k' : Child) : Prop where
  version : k'.version = k.version
  attr : k'.currVersionAttr = k.currVersionAttr ∨ k'.currVersionAttr = k.version
  copySize : k'.copySize = k.copySize
  seeThruRo : k'.seeThruRo = k.seeThruRo
  friendIno : k'.friendIno = k.friendIno

namespace Child.Settles

theorem refl (k : Child) : Settles k k := ⟨rfl, .inl rfl, rfl, rfl, rfl⟩

theorem trans {k₁ k₂ k₃ : Child} (first : Settles k₁ k₂) (second : Settles k₂ k₃) :
    Settles k₁ k₃ where
  version := second.version.trans first.version
  attr := by
    rcases second.attr with kept | stored
    · rw [kept]
      exact first.attr
    · exact .inr (stored.trans first.version)
  copySize := second.copySize.trans first.copySize
  seeThruRo := second.seeThruRo.trans first.seeThruRo
  friendIno := second.friendIno.trans first.friendIno

theorem highest_le {k k' : Child} (settles : Settles k k') : k'.highest ≤ k.highest := by
  unfold highest
  rw [settles.version]
  rcases settles.attr with kept | stored
  · rw [kept]
  · rw [stored]
    exact max_le (le_max_right _ _) (le_max_right _ _)

end Child.Settles

namespace Family

/-- The version of the parent: the one in memory, or the stored one. -/
def version (F : Family) : Nat := if F.attached then F.par.version else F.par.currVersionAttr

/-- A child of the parent: it is in one of the slots, or still attached. -/
def IsChild (F : Family) (c : Ino) : Prop :=
  c ∈ F.slots ∨ (F.child c).scorwInode.isSome = true

/-- The records of a log file, in memory or not. -/
def logOf (F : Family) (i : Ino) : List LogRecord :=
  if F.attached ∧ i = F.logIno then F.par.log else F.logs i

/-- What only clones and new `scorw_inode`s of the parent change. -/
def attributes (F : Family) : Ino × Bool × Bool × (Ino → ByteFile UInt8) :=
  (F.logAttr, F.seeThruRoAttr, F.isSeeThruRo, F.friends)

/-- What versions, logs and attributes depend on. -/
def core (F : Family) :
    VersionStore × Nat × Bool × List Ino × (Ino → Child) × Ino × (Ino → List LogRecord) ×
      Int × Bool × Ino × Bool × Bool × (Ino → ByteFile UInt8) :=
  (F.par.toVersionStore, F.par.currVersionAttr, F.attached, F.slots, F.child, F.logIno, F.logs,
    F.openCount, F.openedSinceMount, F.attributes)

variable {F F' : Family} {c : Ino} {env : MountEnv} {file : Handle} {ret : Int}

/-! ## Gets and puts -/

/-- What getting and putting does to a family: the version of the parent may be
stored, children settle, and slots may be cleared. -/
structure Calm (F F' : Family) : Prop where
  version : F'.version = F.version
  attr : F'.par.currVersionAttr = F.par.currVersionAttr ∨ F'.par.currVersionAttr = F.version
  isChild : ∀ c, F'.IsChild c → F.IsChild c
  child : ∀ c, (F.child c).Settles (F'.child c)
  logOf : ∀ i, F'.logOf i = F.logOf i
  origSize : F'.par.origSize = F.par.origSize
  store : F'.attached = true →
    F.attached = true ∧ F'.par.toVersionStore = F.par.toVersionStore
  attributes : F'.attributes = F.attributes
  /-- opens are counted on attached parents only -/
  opens : 0 < F'.openCount → 0 < F.openCount ∨ F.attached = true
  openedSinceMount : F'.openedSinceMount = F.openedSinceMount

namespace Calm

theorem refl (F : Family) : Calm F F :=
  ⟨rfl, .inl rfl, fun _ => id, fun _ => .refl _, fun _ => rfl, rfl,
    fun attached => ⟨attached, rfl⟩, rfl, .inl, rfl⟩

theorem trans {F₁ F₂ F₃ : Family} (first : Calm F₁ F₂) (second : Calm F₂ F₃) :
    Calm F₁ F₃ where
  version := second.version.trans first.version
  attr := by
    rcases second.attr with kept | stored
    · rw [kept]
      exact first.attr
    · exact .inr (stored.trans first.version)
  isChild := fun c isChild => first.isChild c (second.isChild c isChild)
  child := fun c => (first.child c).trans (second.child c)
  logOf := fun i => (second.logOf i).trans (first.logOf i)
  origSize := second.origSize.trans first.origSize
  store := by
    intro attached
    obtain ⟨before, same⟩ := second.store attached
    obtain ⟨start, same'⟩ := first.store before
    exact ⟨start, same.trans same'⟩
  attributes := second.attributes.trans first.attributes
  opens := by
    intro counted
    rcases second.opens counted with before | attached
    · exact first.opens before
    · exact .inr (first.store attached).1
  openedSinceMount := second.openedSinceMount.trans first.openedSinceMount

/-- Nothing that versions, logs and attributes depend on has changed. -/
theorem of_core (same : F'.core = F.core) : Calm F F' := by
  unfold core at same
  simp only [Prod.mk.injEq] at same
  obtain ⟨store, attr, attached, slots, child, logIno, logs, openCount, openedSinceMount,
    attributes⟩ := same
  exact
    { version := by
        unfold Family.version
        rw [attached, store, attr]
      attr := .inl attr
      isChild := fun c isChild => by
        unfold IsChild at isChild ⊢
        rw [slots, child] at isChild
        exact isChild
      child := fun c => by
        rw [child]
        exact .refl _
      logOf := fun i => by
        unfold Family.logOf
        rw [attached, logIno, store, logs]
      origSize := by rw [store]
      store := fun here => ⟨attached ▸ here, store⟩
      attributes := attributes
      opens := fun counted => .inl (openCount ▸ counted)
      openedSinceMount := openedSinceMount }

/-- Counting an open of an attached parent. -/
theorem countOpen (attached : F.attached = true) : Calm F { F with openCount := F.openCount + 1 } :=
  { Calm.refl F with opens := fun _ => .inr attached }

/-- Counting a close. -/
theorem countClose (F : Family) : Calm F { F with openCount := F.openCount - 1 } :=
  { Calm.refl F with opens := fun counted => .inl (by dsimp only at counted; omega) }

/-- Clearing a slot. -/
theorem eraseSlot (F : Family) (c : Ino) : Calm F { F with slots := F.slots.erase c } :=
  { Calm.refl F with isChild := fun _ => Or.imp_left List.mem_of_mem_erase }

/-- Settling one child that exists. -/
theorem setChild {G : Family} {k : Child} (calm : Calm F G) (exist : F.IsChild c)
    (settles : (G.child c).Settles k) : Calm F (G.setChild c k) where
  version := calm.version
  attr := calm.attr
  isChild := by
    intro d isChild
    by_cases same : d = c
    · rw [same]
      exact exist
    · unfold IsChild at isChild
      rw [child_setChild_of_ne same] at isChild
      exact calm.isChild d isChild
  child := by
    intro d
    by_cases same : d = c
    · rw [same, child_setChild_self]
      exact (calm.child c).trans settles
    · rw [child_setChild_of_ne same]
      exact calm.child d
  logOf := calm.logOf
  origSize := calm.origSize
  store := calm.store
  attributes := calm.attributes
  opens := calm.opens
  openedSinceMount := calm.openedSinceMount

/-- Setting a flag of a child. -/
theorem setFlag {k : Child} (scorwInode : k.scorwInode = (F.child c).scorwInode)
    (settles : (F.child c).Settles k) : Calm F (F.setChild c k) := by
  by_cases exist : F.IsChild c
  · exact (Calm.refl F).setChild exist settles
  · refine { (Calm.refl F) with isChild := fun d isChild => ?_, child := fun d => ?_ }
    · unfold IsChild at isChild
      by_cases same : d = c
      · rw [same, child_setChild_self, scorwInode] at isChild
        rw [same]
        exact isChild
      · rw [child_setChild_of_ne same] at isChild
        exact isChild
    · by_cases same : d = c
      · rw [same, child_setChild_self]
        exact settles
      · rw [child_setChild_of_ne same]
        exact .refl _

end Calm

/-- Getting a child that exists. -/
theorem Calm.getChild {G : Family} (calm : Calm F G) (exist : F.IsChild c) :
    Calm F (G.getChild c).2 := by
  unfold Family.getChild
  split
  case h_1 s here =>
    split
    case isTrue => exact calm
    case isFalse =>
      have counted : Calm F
          (G.setScorwInode c (some { s with usageCount := s.usageCount + 1 })) :=
        calm.setChild exist
          ⟨(Child.version_of_attached here).symm, .inl rfl, rfl, rfl, rfl⟩
      dsimp only
      split
      case isTrue => exact counted.trans (.of_core rfl)
      case isFalse => exact counted
  case h_2 none =>
    exact calm.setChild exist ⟨(Child.version_of_detached none).symm, .inl rfl, rfl, rfl, rfl⟩

theorem Calm.attachSlot {G : Family} (calm : Calm F G) (exist : F.IsChild c) :
    Calm F (G.attachSlot c) := by
  unfold Family.attachSlot
  dsimp only
  split
  case isTrue => exact calm.trans (.eraseSlot G c)
  case isFalse =>
    have got := calm.getChild exist
    split
    case isTrue => exact got.trans (.of_core rfl)
    case isFalse => exact got

/-- Attaching the children of a new parent. -/
theorem Calm.attachSlots {G : Family} {cs : List Ino} (calm : Calm F G)
    (exist : ∀ c ∈ cs, F.IsChild c) : Calm F (cs.foldl Family.attachSlot G) := by
  induction cs generalizing G with
  | nil => exact calm
  | cons c cs ih =>
      exact ih (calm.attachSlot (exist c List.mem_cons_self))
        fun d member => exist d (List.mem_cons_of_mem c member)

theorem exists_of_bind_eq_ok {α β : Type*} {x : Except Fault α} {f : α → Except Fault β} {b : β}
    (done : x.bind f = .ok b) : ∃ a, x = .ok a ∧ f a = .ok b := by
  cases x with
  | error fault => cases done
  | ok a => exact ⟨a, rfl, done⟩

theorem isChild_of_attached {s : ScorwChild} (here : (F.child c).scorwInode = some s) :
    F.IsChild c :=
  .inr (by rw [here]; rfl)

theorem calm_decChild {s : ScorwChild} (here : (F.child c).scorwInode = some s)
    (done : F.decChild c s = .ok F') : Calm F F' := by
  unfold decChild at done
  split at done
  case isTrue => cases done
  case isFalse =>
    cases done
    have version := (Child.version_of_attached here).symm
    exact (Calm.refl F).setChild (isChild_of_attached here)
      ⟨version, .inr version, rfl, rfl, rfl⟩

theorem calm_freeChild (done : F.freeChild c = .ok F') : Calm F F' := by
  unfold freeChild at done
  split at done
  case h_1 =>
    cases done
    exact .refl F
  case h_2 s here =>
    have version := (Child.version_of_attached here).symm
    have freed : Calm F (F.setChild c { F.child c with
        currVersionAttr := s.version
        scorwInode := none }) :=
      (Calm.refl F).setChild (isChild_of_attached here) ⟨version, .inr version, rfl, rfl, rfl⟩
    split at done
    case isTrue =>
      cases done
      exact .refl F
    case isFalse =>
      split at done
      case isTrue =>
        cases done
        exact freed
      case isFalse =>
        split at done
        case isTrue => cases done
        case isFalse =>
          cases done
          exact freed.trans ((Calm.eraseSlot _ c).trans (.of_core rfl))

theorem calm_putChildOfParent (done : F.putChildOfParent c = .ok F') : Calm F F' := by
  unfold putChildOfParent at done
  split at done
  case h_1 =>
    cases done
    exact .refl F
  case h_2 s here =>
    obtain ⟨G, counted, freed⟩ := exists_of_bind_eq_ok done
    exact (calm_decChild here counted).trans (calm_freeChild freed)

theorem calm_putChildren {cs : List Ino} (done : cs.foldlM putChildOfParent F = .ok F') :
    Calm F F' := by
  induction cs generalizing F with
  | nil =>
      cases done
      exact .refl _
  | cons c cs ih =>
      rw [List.foldlM_cons] at done
      obtain ⟨G, first, rest⟩ := exists_of_bind_eq_ok done
      exact (calm_putChildOfParent first).trans (ih rest)

/-- Freeing a parent whose version is stored. -/
theorem calm_freeParent {fromChild : Bool} (attached : F.attached = true)
    (stored : F.par.currVersionAttr = F.par.version) (done : F.freeParent fromChild = .ok F') :
    Calm F F' := by
  have detached : Calm F { F with
      attached := false
      par := { F.par with cache := .empty }
      logs := Function.update F.logs F.logIno F.par.log } :=
    { version := by
        unfold Family.version
        rw [if_pos attached]
        exact stored
      attr := .inl rfl
      isChild := fun _ => id
      child := fun _ => .refl _
      logOf := fun i => by
        unfold Family.logOf
        dsimp only
        rw [if_neg (fun both => Bool.noConfusion both.1), Function.update_apply]
        by_cases same : i = F.logIno
        · rw [if_pos same, if_pos ⟨attached, same⟩]
        · rw [if_neg same, if_neg (fun both => same both.2)]
      origSize := rfl
      store := fun none => Bool.noConfusion none
      attributes := rfl
      opens := .inl
      openedSinceMount := rfl }
  unfold freeParent at done
  dsimp only at done
  split at done
  case isTrue => cases done
  case isFalse =>
    cases put : F.childInodes.foldlM putChildOfParent { F with
        attached := false
        par := { F.par with cache := .empty }
        logs := Function.update F.logs F.logIno F.par.log } with
    | error fault =>
        rw [put] at done
        cases done
    | ok G =>
        rw [put] at done
        cases done
        exact (detached.trans (calm_putChildren put)).trans (.of_core rfl)

theorem calm_freeUnused {fromChild : Bool} (attached : F.attached = true)
    (stored : F.par.currVersionAttr = F.par.version) (done : F.freeUnused fromChild = .ok F') :
    Calm F F' := by
  unfold freeUnused at done
  split at done
  case isTrue => exact calm_freeParent attached stored done
  case isFalse =>
    cases done
    exact .refl F

/-- Storing the version of the parent. -/
theorem calm_store (attached : F.attached = true) :
    Calm F { F with par := { F.par with currVersionAttr := F.par.version } } where
  version := by
    unfold Family.version
    rw [if_pos attached, if_pos attached]
  attr := .inr (if_pos attached).symm
  isChild := fun _ => id
  child := fun _ => .refl _
  logOf := fun _ => rfl
  origSize := rfl
  store := fun here => ⟨here, rfl⟩
  attributes := rfl
  opens := .inl
  openedSinceMount := rfl

theorem calm_putParent {fromChild : Bool} (done : F.putParent fromChild = .ok F') : Calm F F' := by
  unfold putParent at done
  split at done
  case isTrue =>
    cases done
    exact .refl F
  case isFalse here =>
    have attached : F.attached = true := Bool.eq_true_of_not_eq_false here
    dsimp only at done
    split at done
    case isTrue => cases done
    case isFalse =>
      refine Calm.trans ?_ (calm_freeUnused ?_ ?_ done)
      · exact (calm_store attached).trans (.of_core rfl)
      · exact attached
      · rfl

theorem calm_threadPutParent (done : F.threadPutParent = .ok F') : Calm F F' := by
  unfold threadPutParent at done
  split at done
  case isTrue =>
    cases done
    exact .refl F
  case isFalse here =>
    have attached : F.attached = true := Bool.eq_true_of_not_eq_false here
    refine Calm.trans ?_ (calm_freeUnused ?_ ?_ done)
    · exact (calm_store attached).trans (.of_core rfl)
    · exact attached
    · rfl

theorem calm_putChild (done : F.putChild c = .ok F') : Calm F F' := by
  unfold putChild at done
  split at done
  case h_1 =>
    cases done
    exact .refl F
  case h_2 s here =>
    obtain ⟨G, counted, rest⟩ := exists_of_bind_eq_ok done
    obtain ⟨H, put, freed⟩ := exists_of_bind_eq_ok rest
    have middle : Calm G H := by
      split at put
      case isTrue => exact calm_putParent put
      case isFalse =>
        cases put
        exact .refl G
    exact ((calm_decChild here counted).trans middle).trans (calm_freeChild freed)

/-! ## Opening a parent -/

theorem Calm.createParent (F : Family) (env : MountEnv) :
    Calm (F.startParent env) (F.createParent env) :=
  (Calm.refl _).attachSlots fun _ member => .inl member

theorem attached_getChild (F : Family) (c : Ino) : (F.getChild c).2.attached = F.attached := by
  unfold getChild
  split
  case h_1 s here =>
    split
    case isTrue => rfl
    case isFalse =>
      dsimp only
      split
      case isTrue => rfl
      case isFalse => rfl
  case h_2 => rfl

theorem attached_attachSlot (F : Family) (c : Ino) :
    (F.attachSlot c).attached = F.attached := by
  unfold attachSlot
  dsimp only
  split
  case isTrue => rfl
  case isFalse =>
    split
    case isTrue => exact attached_getChild F c
    case isFalse => exact attached_getChild F c

theorem attached_createParent (F : Family) (env : MountEnv) :
    (F.createParent env).attached = true := by
  have attached : ∀ (cs : List Ino) (G : Family), G.attached = true →
      (cs.foldl attachSlot G).attached = true := by
    intro cs
    induction cs with
    | nil => exact fun _ here => here
    | cons c cs ih => exact fun G here => ih _ ((attached_attachSlot G c).trans here)
  exact attached F.slots (F.startParent env) rfl

/-- Getting a parent: nothing, or a new `scorw_inode`. -/
theorem getParent_cases (F : Family) (env : MountEnv) :
    (F.attached = true ∧ Calm F (F.getParent env)) ∨
      (F.attached = false ∧ Calm (F.startParent env) (F.getParent env)) := by
  unfold getParent
  split
  case isTrue attached =>
    exact .inl ⟨attached, .of_core rfl⟩
  case isFalse detached =>
    exact .inr ⟨Bool.eq_false_of_not_eq_true detached, .createParent F env⟩

theorem attached_getParent (F : Family) (env : MountEnv) :
    (F.getParent env).attached = true := by
  unfold getParent
  split
  case isTrue attached => exact attached
  case isFalse => exact attached_createParent F env

/-- Getting an attached parent several times. -/
theorem calm_iterate_getParent (env : MountEnv) (n : Nat) (attached : F.attached = true) :
    Calm F (Nat.iterate (fun G => G.getParent env) n F) := by
  induction n generalizing F with
  | zero => exact .refl F
  | succ n ih =>
      rcases getParent_cases F env with ⟨_, first⟩ | ⟨detached, _⟩
      · exact first.trans (ih (attached_getParent F env))
      · rw [attached] at detached
        cases detached

/-- What `special_open` does to a child that is in a slot. -/
theorem specialOpen_cases (inSlot : c ∈ F.slots) (done : F.specialOpen c env = .ok F') :
    ((F.attached = true ∧ F'.attached = true ∨ F' = F) ∧ Calm F F') ∨
      F.attached = false ∧ 1 < F.openCount ∧ Calm (F.startParent env) F' := by
  unfold specialOpen at done
  dsimp only at done
  split at done
  case isTrue attached =>
    split at done
    case isTrue =>
      cases done
      have got : Calm F (F.getChild c).2 := (Calm.refl F).getChild (.inl inSlot)
      have listed : Calm F { (F.getChild c).2 with
          childInodes := (F.getChild c).2.childInodes ++ [c] } :=
        got.trans (.of_core rfl)
      refine .inl ⟨.inl ⟨attached, ?_⟩, listed.getChild (.inl inSlot)⟩
      rw [attached_getChild]
      dsimp only
      rw [attached_getChild]
      exact attached
    case isFalse => cases done
  case isFalse detached =>
    split at done
    case isTrue several =>
      cases done
      have start : F.attached = false := Bool.eq_false_of_not_eq_true detached
      obtain ⟨n, count⟩ : ∃ n, F.openCount.toNat = n + 1 := ⟨F.openCount.toNat - 1, by omega⟩
      rw [count, Function.iterate_succ_apply]
      rcases getParent_cases F env with ⟨attached, _⟩ | ⟨_, first⟩
      · rw [attached] at start
        cases start
      · have all := first.trans (calm_iterate_getParent env n (attached_getParent F env))
        exact .inr ⟨start, several, all.getChild (.inl inSlot)⟩
    case isFalse =>
      cases done
      exact .inl ⟨.inr rfl, .refl F⟩

/-! ## What one step can do -/

/-- The environment of a call that may open the parent. -/
def mountEnv? : FamilyOp → Option MountEnv
  | .openParent _ env | .openChild _ _ env | .readChild _ _ env => some env
  | _ => none

/-- Everything one step can do to versions and logs. -/
inductive StepCase (F : Family) : FamilyOp → Int → Family → Prop
  | calm {op : FamilyOp} {ret : Int} {F' : Family} (calm : Calm F F') : StepCase F op ret F'
  | started {op : FamilyOp} {env : MountEnv} {ret : Int} {F' : Family}
    (opens : mountEnv? op = some env) (detached : F.attached = false)
    (calm : Calm (F.startParent env) F') : StepCase F op ret F'
  | cloneFailed {req : CloneReq} {env : MountEnv} (failed : req.error ≠ 0) :
    StepCase F (.clone req env) req.error (F.setAttributes req)
  | cloned {req : CloneReq} {env : MountEnv} {F' : Family}
    (calm : Calm ((F.setAttributes req).setParent req) F') : StepCase F (.clone req env) 0 F'
  | clonedStarted {req : CloneReq} {env : MountEnv} {F' : Family} (detached : F.attached = false)
    (several : 1 < F.openCount)
    (calm : Calm (((F.setAttributes req).setParent req).startParent env) F') :
    StepCase F (.clone req env) 0 F'
  | updated {file : Handle} {c : Ino} {s : ScorwChild}
    (here : (F.child c).scorwInode = some s) :
    StepCase F (.updateVersion file c) 0
      (F.setScorwInode c (some { s with version := F.par.currVersionAttr }))
  | called {op : Op} {copies : Nat} {file : Handle} {ret : Int} {s' : State}
    (attached : F.attached = true) (isOpen : file ∈ F.par.handles)
    (attr : s'.currVersionAttr = F.par.currVersionAttr)
    (taken : Scorw.step F.par op = some (ret, s')) :
    StepCase F (.call op copies) ret { F with par := s' }
  | looked {version blk copies : Nat} {env : Env} (attached : F.attached = true) :
    StepCase F (.call (.lookup version blk env) copies)
      ((lookupPhysicalBlock env F.par.toVersionStore version blk).1.getD blkNotFound)
      { F with par := { F.par with
        toVersionStore := (lookupPhysicalBlock env F.par.toVersionStore version blk).2 } }
  | crashed {kept : Ino → Nat} {file : ByteFile UInt8} :
    StepCase F (.crash kept file) 0 (F.crashed kept file)

/-- A call that ends in a fault is calm. -/
theorem settle_cases {op : FamilyOp} {ret' : Int} {result : Except Fault Family}
    (done : F.settle ret result = some (ret', F')) (ok : result = .ok F' → StepCase F op ret F') :
    StepCase F op ret' F' := by
  unfold settle at done
  split at done
  case h_1 =>
    cases done
    exact ok rfl
  case h_2 =>
    cases done
    exact .calm (.of_core rfl)

/-- Beginning, ending and writing do not store the version, and open or close nothing. -/
theorem frame_of_call {s s' : State} {op : Op} (taken : Scorw.step s op = some (ret, s'))
    (kind : (∃ file interrupted, op = .beginTransaction file interrupted) ∨
      (∃ file, op = .endTransaction file) ∨ (∃ file w env, op = .write file w env) ∨
      ∃ file vecs create, op = .writev file vecs create) :
    s'.handles = s.handles ∧ s'.currVersionAttr = s.currVersionAttr := by
  cases step_cases taken with
  | openFile => simp at kind
  | closeFile => simp at kind
  | openChild => simp at kind
  | closeChild => simp at kind
  | beginRefused => exact ⟨rfl, rfl⟩
  | begun => exact ⟨rfl, rfl⟩
  | endRefused => exact ⟨rfl, rfl⟩
  | committed => exact ⟨rfl, rfl⟩
  | unlocked => exact ⟨rfl, rfl⟩
  | write _ result => exact ⟨result.frame.1, result.frame.2.1⟩
  | writev _ result => exact ⟨result.frame.1, result.frame.2.1⟩
  | lookup => simp at kind

theorem openParent_cases : StepCase F (.openParent file env) ret (F.openParent file env) := by
  unfold openParent
  dsimp only
  split
  case isTrue =>
    rcases getParent_cases { F with openCount := F.openCount + 1 } env with
      ⟨attached, calm⟩ | ⟨detached, calm⟩
    · have here : F.attached = true := attached
      have opened := (Calm.countOpen here).trans calm
      exact .calm (opened.trans (.of_core rfl))
    · -- counting first does not matter, the parent is attached in between
      have counted : Calm (F.startParent env)
          ({ F with openCount := F.openCount + 1 }.startParent env) := .countOpen rfl
      have opened := counted.trans calm
      exact .started rfl detached (opened.trans (.of_core rfl))
  case isFalse => exact .calm (.of_core rfl)

theorem openChild_cases : StepCase F (.openChild file c env) ret (F.openChild file c env) := by
  unfold openChild
  dsimp only
  split
  case isTrue =>
    rcases getParent_cases F env with ⟨_, calm⟩ | ⟨detached, calm⟩
    · exact .calm (calm.trans (.of_core rfl))
    · exact .started rfl detached
        (calm.trans (.of_core rfl))
  case isFalse => exact .calm (.of_core rfl)

theorem calm_releaseParent (done : F.releaseParent file = .ok F') : Calm F F' := by
  unfold releaseParent at done
  dsimp only at done
  split at done
  case isTrue =>
    refine Calm.trans ?_ (calm_putParent done)
    exact (Calm.countClose F).trans (.of_core rfl)
  case isFalse =>
    cases done
    exact .of_core rfl

theorem calm_releaseChild (done : F.releaseChild file c = .ok F') : Calm F F' := by
  unfold releaseChild at done
  dsimp only at done
  split at done
  case isTrue =>
    refine Calm.trans ?_ (calm_putParent done)
    exact .of_core rfl
  case isFalse =>
    cases done
    exact .of_core rfl

theorem readChild_cases : StepCase F (.readChild file c env) ret (F.readChild c env) := by
  unfold readChild
  split
  case isTrue =>
    rcases getParent_cases F env with ⟨_, calm⟩ | ⟨detached, calm⟩
    · exact .calm calm
    · exact .started rfl detached calm
  case isFalse => exact .calm (.refl F)

theorem clone_cases {req : CloneReq} (done : (F.clone req env).2 = .ok F') :
    StepCase F (.clone req env) (F.clone req env).1 F' := by
  unfold clone at done ⊢
  split at done
  case isTrue empty =>
    cases done
    exact .calm (.refl F)
  case isFalse some =>
    split at done
    case isTrue full =>
      cases done
      exact .calm (.refl F)
    case isFalse free =>
      rw [if_neg some, if_neg free]
      split at done
      case isTrue failed =>
        cases done
        rw [if_pos failed]
        exact .cloneFailed failed
      case isFalse stored =>
        rw [if_neg stored]
        have inSlot : req.child ∈ ((F.setAttributes req).setParent req).slots :=
          List.mem_append_right _ List.mem_cons_self
        rcases specialOpen_cases inSlot done with ⟨_, calm⟩ | ⟨detached, several, calm⟩
        · exact .cloned calm
        · exact .clonedStarted detached several calm

theorem calm_unlinkChild (done : F.unlinkChild c = .ok F') : Calm F F' := by
  unfold unlinkChild at done
  have unnamed : Calm F (F.setChild c { F.child c with linked := false }) :=
    .setFlag rfl ⟨rfl, .inl rfl, rfl, rfl, rfl⟩
  dsimp only at done
  generalize F.setChild c { F.child c with linked := false } = G at done unnamed
  split at done
  case h_1 s here =>
    have marked : Calm G (G.setScorwInode c (some { s with unlinked := true })) :=
      (Calm.refl G).setChild (isChild_of_attached here)
        ⟨(Child.version_of_attached here).symm, .inl rfl, rfl, rfl, rfl⟩
    split at done
    case isTrue => exact (unnamed.trans marked).trans (calm_putChild done)
    case isFalse =>
      cases done
      exact unnamed.trans marked
  case h_2 =>
    cases done
    exact unnamed.trans (.eraseSlot G c)

theorem updateVersion_cases :
    StepCase F (.updateVersion file c) (F.updateVersion c).1 (F.updateVersion c).2 := by
  unfold updateVersion
  split
  case h_1 => exact .calm (.refl F)
  case h_2 s here => exact .updated here

/-- What a call of `System` on the parent does. -/
inductive CallCase (F : Family) (copies : Nat) : Op → Int → Family → Prop
  | onParent {op : Op} {file : Handle} {ret : Int} {s' : State} (attached : F.attached = true)
    (isOpen : file ∈ F.par.handles)
    (frame : s'.handles = F.par.handles ∧ s'.currVersionAttr = F.par.currVersionAttr)
    (taken : Scorw.step F.par op = some (ret, s')) : CallCase F copies op ret { F with par := s' }
  /-- a transaction on a file without `scorw_inode` -/
  | noParent {op : Op} : CallCase F copies op 0 { F with fault := some .nullPointer }
  | inPlace {file : Handle} {w : WriteReq} {env : WriteEnv} :
    CallCase F copies (.write file w env) (F.writeInPlace w env copies).1
      (F.writeInPlace w env copies).2
  | refused {op : Op} : CallCase F copies op einval F
  | looked {version blk : Nat} {env : Env} (attached : F.attached = true) :
    CallCase F copies (.lookup version blk env)
      ((lookupPhysicalBlock env F.par.toVersionStore version blk).1.getD blkNotFound)
      { F with par := { F.par with
        toVersionStore := (lookupPhysicalBlock env F.par.toVersionStore version blk).2 } }

theorem call_cases {op : Op} {copies : Nat} {ret' : Int} {result : Except Fault Family}
    (made : F.call op copies = some (ret, result)) (done : F.settle ret result = some (ret', F')) :
    CallCase F copies op ret' F' := by
  have onParent {file : Handle} (attached : F.attached = true) (isOpen : file ∈ F.par.handles)
      (kind : (∃ file interrupted, op = .beginTransaction file interrupted) ∨
        (∃ file, op = .endTransaction file) ∨ (∃ file w env, op = .write file w env) ∨
        ∃ file vecs create, op = .writev file vecs create)
      (mapped : ((Scorw.step F.par op).map fun r =>
        (r.1, (.ok { F with par := r.2 } : Except Fault Family))) = some (ret, result)) :
      CallCase F copies op ret' F' := by
    obtain ⟨⟨ret₁, s'⟩, taken, shape⟩ := Option.map_eq_some_iff.mp mapped
    cases shape
    cases done
    exact .onParent attached isOpen (frame_of_call taken kind) taken
  unfold call at made
  cases op with
  | openFile file => cases made
  | closeFile file => cases made
  | openChild => cases made
  | closeChild => cases made
  | beginTransaction file interrupted =>
      dsimp only at made
      split at made
      · cases made
      case isFalse isOpen =>
        split at made
        case isTrue attached =>
          exact onParent attached (not_not.mp isOpen) (.inl ⟨file, interrupted, rfl⟩) made
        case isFalse =>
          cases made
          cases done
          exact .noParent
  | endTransaction file =>
      dsimp only at made
      split at made
      · cases made
      case isFalse isOpen =>
        split at made
        case isTrue attached =>
          exact onParent attached (not_not.mp isOpen) (.inr (.inl ⟨file, rfl⟩)) made
        case isFalse =>
          cases made
          cases done
          exact .noParent
  | write file w env =>
      dsimp only at made
      split at made
      · cases made
      case isFalse isOpen =>
        split at made
        case isTrue attached =>
          exact onParent attached.1 (not_not.mp isOpen)
            (.inr (.inr (.inl ⟨file, w, env, rfl⟩))) made
        case isFalse =>
          cases made
          cases done
          exact .inPlace
  | writev file vecs create =>
      dsimp only at made
      split at made
      · cases made
      case isFalse isOpen =>
        split at made
        case isTrue attached =>
          exact onParent attached.1 (not_not.mp isOpen)
            (.inr (.inr (.inr ⟨file, vecs, create, rfl⟩))) made
        case isFalse =>
          cases made
          cases done
          exact .refused
  | lookup version blk env =>
      dsimp only at made
      split at made
      case isTrue attached =>
        cases made
        cases done
        exact .looked attached
      · cases made

theorem CallCase.stepCase {op : Op} {copies : Nat} (called : CallCase F copies op ret F') :
    StepCase F (.call op copies) ret F' := by
  cases called with
  | onParent attached isOpen frame taken => exact .called attached isOpen frame.2 taken
  | noParent => exact .calm (.of_core rfl)
  | inPlace => exact .calm (.of_core rfl)
  | refused => exact .calm (.refl F)
  | looked attached => exact .looked attached

/-- Everything a step does. -/
theorem step_cases {op : FamilyOp} (taken : F.step op = some (ret, F')) : StepCase F op ret F' := by
  unfold step at taken
  split at taken
  case isTrue => cases taken
  case isFalse =>
    cases op with
    | openParent file env =>
        dsimp only at taken
        split at taken
        · cases taken
        · cases taken
          exact openParent_cases
    | closeParent file =>
        dsimp only at taken
        split at taken
        · exact settle_cases taken fun done => .calm (calm_releaseParent done)
        · cases taken
    | openChild file c env =>
        dsimp only at taken
        split at taken
        · cases taken
        · cases taken
          exact openChild_cases
    | closeChild file c =>
        dsimp only at taken
        split at taken
        · exact settle_cases taken fun done => .calm (calm_releaseChild done)
        · cases taken
    | readChild file c env =>
        dsimp only at taken
        split at taken
        · cases taken
          exact readChild_cases
        · cases taken
    | clone req env => exact settle_cases taken clone_cases
    | unlinkChild c =>
        dsimp only at taken
        split at taken
        · exact settle_cases taken fun done => .calm (calm_unlinkChild done)
        · cases taken
    | updateVersion file c =>
        dsimp only at taken
        split at taken
        · have updated : StepCase F (.updateVersion file c) (F.updateVersion c).1
              (F.updateVersion c).2 := updateVersion_cases
          rw [Option.some.inj taken] at updated
          exact updated
        · cases taken
    | call op copies =>
        obtain ⟨⟨ret₁, result⟩, made, done⟩ := Option.bind_eq_some_iff.mp taken
        exact (call_cases made done).stepCase
    | pageCopied =>
        dsimp only at taken
        split at taken
        · cases taken
        · exact settle_cases taken fun done => .calm (calm_threadPutParent done)
    | crash kept file =>
        dsimp only at taken
        split at taken
        · cases taken
          exact .crashed
        · cases taken

end Family

end FlexClone.Scorw
