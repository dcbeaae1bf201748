import FlexClone.Scorw.FamilySteps

/-!
# Versions in a family

The parent's version falls in two ways: a clone made while the parent is not
attached stores version `1` for it, and after a crash the version comes from the
attribute and may be rolled back further. `KeepsAbove` says when a step leaves a
given version intact.

`versions_never_rewritten`: as long as every step leaves the versions of the
children intact, no child is ahead of its parent and no record is logged at a
version some child has.

`update_version_current`: `update_version` copies the attribute `curr_version`, so
the child is at the parent's version exactly when that attribute is up to date.

`version_of_update_after_close`: closing the parent brings the attribute up to date, and
it stays so until a write, an `END`, a vectored write, or a clone of a parent that is
beyond version `1`.
-/

namespace FlexClone.Scorw

namespace Family

variable {F F' : Family} {op : FamilyOp} {req : CloneReq} {c : Ino} {file : Handle} {ret : Int}

/-! ## A new `scorw_inode` of the parent -/

theorem par_startParent_of_first (env : MountEnv) (first : F.isOpenedFirstTime = true) :
    (F.startParent env).par.version = (recoverParent env.readPage (F.disk env)).1 ∧
      (F.startParent env).par.currVersionAttr =
        (recoverParent env.readPage (F.disk env)).2.currVersionAttr ∧
      (F.startParent env).par.log = (recoverParent env.readPage (F.disk env)).2.log := by
  unfold startParent prepareParInode
  dsimp only
  rw [if_pos first]
  exact ⟨rfl, rfl, rfl⟩

theorem par_startParent_of_later (env : MountEnv) (later : F.isOpenedFirstTime = false) :
    (F.startParent env).par.version = F.par.currVersionAttr ∧
      (F.startParent env).par.currVersionAttr = F.par.currVersionAttr ∧
      (F.startParent env).par.log = F.logs F.logAttr := by
  unfold startParent prepareParInode
  dsimp only
  rw [if_neg (by rw [later]; exact Bool.noConfusion)]
  exact ⟨rfl, rfl, rfl⟩

/-- The version is the stored one, whether recovery ran or not. -/
theorem attr_startParent (F : Family) (env : MountEnv) :
    (F.startParent env).par.currVersionAttr = (F.startParent env).par.version := by
  cases first : F.isOpenedFirstTime with
  | true =>
      obtain ⟨version, attr, _⟩ := par_startParent_of_first env first
      rw [version, attr]
      exact (settled_recoverParent _ _).attr
  | false =>
      obtain ⟨version, attr, _⟩ := par_startParent_of_later env first
      rw [version, attr]

theorem one_le_startParent {env : MountEnv} (one : 1 ≤ F.par.currVersionAttr) :
    1 ≤ (F.startParent env).par.version := by
  cases first : F.isOpenedFirstTime with
  | true =>
      rw [(par_startParent_of_first env first).1]
      exact (settled_recoverParent _ _).positive one
  | false =>
      rw [(par_startParent_of_later env first).1]
      exact one

theorem logOf_startParent (env : MountEnv) (detached : F.attached = false) (i : Ino) :
    (F.startParent env).logOf i <+: F.logOf i := by
  have before : F.logOf i = F.logs i := if_neg fun both => by
    rw [detached] at both
    exact Bool.noConfusion both.1
  have cut : (F.startParent env).par.log <+: F.logs F.logAttr := by
    cases first : F.isOpenedFirstTime with
    | true =>
        rw [(par_startParent_of_first env first).2.2]
        exact (settled_recoverParent env.readPage (F.disk env)).log
    | false => rw [(par_startParent_of_later env first).2.2]
  rw [before]
  by_cases same : i = F.logAttr
  · have shape : (F.startParent env).logOf i = (F.startParent env).par.log :=
      if_pos ⟨rfl, same⟩
    rw [shape, same]
    exact cut
  · have shape : (F.startParent env).logOf i = F.logs i := if_neg fun both => same both.2
    rw [shape]

/-! ## The version of the parent -/

/-- Recovery, if it runs, keeps version `v`: the pages of the log can be read, and
rolling back stops above `v`. -/
def RecoversAbove (F : Family) (env : MountEnv) (v : Nat) : Prop :=
  F.attached = false → F.isOpenedFirstTime = true → v ≤ 1 ∨
    (∀ p, env.readPage p = true) ∧
      StopsAbove env.blocks ((F.logs F.logAttr).takeWhile fun r =>
        decide (r.versionNum ≤ F.par.currVersionAttr)) v

/-- The parent does not lose version `v`: a clone is made while the parent is
attached, a crash finds a version stored that is no lower, and recovery stops above
it. -/
def KeepsAbove (F : Family) (v : Nat) : FamilyOp → Prop
  | .openParent _ env | .openChild _ _ env | .readChild _ _ env => F.RecoversAbove env v
  | .clone _ _ => F.attached = true ∨ v ≤ 1
  | .crash _ _ => v ≤ F.par.currVersionAttr
  | _ => True

/-- The stored version is there, and not ahead of the one in memory. -/
structure Stored (F : Family) : Prop where
  one : 1 ≤ F.par.currVersionAttr
  le : F.par.currVersionAttr ≤ F.version

theorem Stored.calm (stored : Stored F) (calm : Calm F F') : Stored F' := by
  have version := calm.version
  rcases calm.attr with same | raised
  · exact ⟨by rw [same]; exact stored.one, by rw [same, version]; exact stored.le⟩
  · exact ⟨by rw [raised]; exact le_trans stored.one stored.le, by rw [raised, version]⟩

theorem stored_startParent {env : MountEnv} (one : 1 ≤ F.par.currVersionAttr) :
    Stored (F.startParent env) := by
  refine ⟨?_, (attr_startParent F env).le⟩
  rw [attr_startParent]
  exact one_le_startParent one

theorem stored_setAttributes (stored : Stored F) (req : CloneReq) :
    Stored (F.setAttributes req) := by
  refine ⟨le_rfl, ?_⟩
  unfold Family.version
  split
  case isTrue attached =>
    have here : F.attached = true := attached
    have le := stored.le
    unfold Family.version at le
    rw [if_pos here] at le
    exact le_trans stored.one le
  case isFalse => exact le_rfl

theorem stored_setParent (stored : Stored F) (req : CloneReq) : Stored (F.setParent req) :=
  ⟨stored.one, stored.le⟩

/-- A call on the parent does not lower its version. -/
theorem version_of_called {op : Op} {s' : State} (attached : F.attached = true)
    (isOpen : file ∈ F.par.handles) (taken : Scorw.step F.par op = some (ret, s')) :
    F.version ≤ ({ F with par := s' } : Family).version := by
  have grown := (step_grows (idle_of_mem isOpen) taken).version
  unfold Family.version
  dsimp only
  rw [if_pos attached, if_pos attached]
  exact grown

theorem stored_step (stored : Stored F) (taken : F.step op = some (ret, F')) : Stored F' := by
  cases step_cases taken with
  | calm calm => exact stored.calm calm
  | started opens detached calm => exact (stored_startParent stored.one).calm calm
  | cloneFailed failed => exact stored_setAttributes stored _
  | @cloned req _ _ calm => exact (stored_setParent (stored_setAttributes stored req) req).calm calm
  | @clonedStarted req _ _ detached several calm =>
      have one : 1 ≤ ((F.setAttributes req).setParent req).par.currVersionAttr := le_rfl
      exact (stored_startParent one).calm calm
  | updated here => exact ⟨stored.one, stored.le⟩
  | called attached isOpen attr made =>
      exact ⟨attr ▸ stored.one,
        le_trans attr.le (le_trans stored.le (version_of_called attached isOpen made))⟩
  | looked attached =>
      refine ⟨stored.one, le_trans stored.le ?_⟩
      rw [lookupPhysicalBlock_store]
      exact le_rfl
  | crashed => exact ⟨stored.one, le_rfl⟩

theorem le_version_setAttributes {v : Nat} (stored : Stored F) (keeps : F.attached = true ∨ v ≤ 1)
    (le : v ≤ F.version) : v ≤ (F.setAttributes req).version := by
  rcases keeps with attached | low
  · have same : (F.setAttributes req).version = F.version := by
      unfold Family.version
      rw [if_pos attached]
      exact if_pos attached
    rw [same]
    exact le
  · have stored' := stored_setAttributes stored req
    exact le_trans low (le_trans stored'.one stored'.le)

/-- A step that keeps version `v` does not bring the parent below it. -/
theorem le_version_step {v : Nat} (stored : Stored F) (keeps : F.KeepsAbove v op)
    (le : v ≤ F.version) (taken : F.step op = some (ret, F')) : v ≤ F'.version := by
  cases step_cases taken with
  | calm calm =>
      rw [calm.version]
      exact le
  | @started op env _ _ opens detached calm =>
      rw [calm.version]
      have stays : v ≤ F.par.currVersionAttr := by
        unfold Family.version at le
        rw [if_neg (by rw [detached]; exact Bool.noConfusion)] at le
        exact le
      have recovers : F.RecoversAbove env v := by
        cases op with
        | openParent file env' =>
            cases opens
            exact keeps
        | openChild file c env' =>
            cases opens
            exact keeps
        | readChild file c env' =>
            cases opens
            exact keeps
        | _ => cases opens
      have version : (F.startParent env).version = (F.startParent env).par.version := rfl
      rw [version]
      cases first : F.isOpenedFirstTime with
      | false =>
          rw [(par_startParent_of_later env first).1]
          exact stays
      | true =>
          rcases recovers detached first with low | ⟨readable, stops⟩
          · exact le_trans low (one_le_startParent stored.one)
          · rw [(par_startParent_of_first env first).1]
            exact le_recoverParent readable stays stops
  | @cloneFailed req env failed => exact le_version_setAttributes stored keeps le
  | @cloned req env _ calm =>
      have same : ((F.setAttributes req).setParent req).version =
          (F.setAttributes req).version := rfl
      rw [calm.version, same]
      exact le_version_setAttributes stored keeps le
  | @clonedStarted req env _ detached several calm =>
      rw [calm.version]
      rcases keeps with attached | low
      · rw [attached] at detached
        cases detached
      · exact le_trans low (one_le_startParent (stored_setAttributes stored req).one)
  | updated here => exact le
  | called attached isOpen attr made =>
      exact le_trans le (version_of_called attached isOpen made)
  | looked attached =>
      rw [lookupPhysicalBlock_store]
      exact le
  | crashed => exact keeps

/-! ## The versions of the children -/

/-- The version of a child that a step puts at risk: a crash only leaves the stored
one. -/
def atRisk (F : Family) (op : FamilyOp) (c : Ino) : Nat :=
  match op with
  | .crash _ _ => (F.child c).currVersionAttr
  | _ => (F.child c).highest

theorem atRisk_le_highest (F : Family) (op : FamilyOp) (c : Ino) :
    F.atRisk op c ≤ (F.child c).highest := by
  unfold atRisk
  split
  · exact le_max_left _ _
  · exact le_rfl

/-- The parent loses no version that a child has. -/
def Respects (F : Family) (op : FamilyOp) : Prop :=
  ∀ c, F.IsChild c → F.KeepsAbove (F.atRisk op c) op

theorem eq_crashed_of_step {kept : Ino → Nat} {file : ByteFile UInt8}
    (taken : F.step (.crash kept file) = some (ret, F')) : F' = F.crashed kept file := by
  unfold step at taken
  split at taken
  · cases taken
  · dsimp only at taken
    split at taken
    · cases taken
      rfl
    · cases taken

theorem highest_setAttributes {n : Nat} (one : 1 ≤ n)
    (below : ∀ c, F.IsChild c → (F.child c).highest ≤ n)
    (isChild : (F.setAttributes req).IsChild c) : ((F.setAttributes req).child c).highest ≤ n := by
  by_cases same : c = req.child
  · have here : (F.setAttributes req).child c = { F.child c with
        currVersionAttr := 1
        copySize := F.par.file.size
        seeThruRo := req.seeThruRo
        friendIno := req.friendIno } := by
      rw [same]
      exact child_setChild_self F _ _
    rw [here]
    unfold Child.highest
    refine max_le one ?_
    -- a child that is cloned again keeps the version it has in memory
    cases attached : (F.child c).scorwInode with
    | none =>
        refine le_trans (Child.version_of_detached ?_).le one
        exact attached
    | some s =>
        have same : Child.version { F.child c with
            currVersionAttr := 1
            copySize := F.par.file.size
            seeThruRo := req.seeThruRo
            friendIno := req.friendIno } = (F.child c).version := by
          unfold Child.version
          dsimp only
          rw [attached]
        rw [same]
        exact le_trans (le_max_right _ _) (below c (isChild_of_attached attached))
  · have other : (F.setAttributes req).child c = F.child c := child_setChild_of_ne same F _
    have old : F.IsChild c := by
      unfold IsChild at isChild ⊢
      rw [other] at isChild
      rcases isChild with inSlot | attached
      · rcases List.mem_append.mp inSlot with before | new
        · exact .inl before
        · exact (same (List.mem_singleton.mp new)).elim
      · exact .inr attached
    rw [other]
    exact below c old

theorem highest_setParent {n : Nat} (one : 1 ≤ n)
    (below : ∀ c, F.IsChild c → (F.child c).highest ≤ n)
    (isChild : ((F.setAttributes req).setParent req).IsChild c) :
    (((F.setAttributes req).setParent req).child c).highest ≤ n := by
  have marked : Calm (F.setAttributes req) ((F.setAttributes req).setChild req.child
      { (F.setAttributes req).child req.child with hasParent := true }) :=
    .setFlag rfl ⟨rfl, .inl rfl, rfl, rfl, rfl⟩
  exact le_trans (marked.child c).highest_le
    (highest_setAttributes one below (marked.isChild c isChild))

/-- What a step leaves of the versions of the children, below any bound for the
versions at risk. -/
theorem highest_step {n : Nat} (one : 1 ≤ n)
    (update : ∀ file c, op = .updateVersion file c → F.par.currVersionAttr ≤ n)
    (below : ∀ c, F.IsChild c → F.atRisk op c ≤ n) (taken : F.step op = some (ret, F'))
    (isChild : F'.IsChild c) : (F'.child c).highest ≤ n := by
  by_cases crash : ∃ kept file, op = .crash kept file
  · obtain ⟨kept, file, rfl⟩ := crash
    have shape := eq_crashed_of_step taken
    subst shape
    have inSlot : c ∈ F.slots := by
      rcases isChild with inSlot | attached
      · exact inSlot
      · cases attached
    exact max_le (below c (.inl inSlot)) (below c (.inl inSlot))
  · have risk (d : Ino) : F.atRisk op d = (F.child d).highest := by
      unfold atRisk
      split
      case h_1 kept file => exact (crash ⟨kept, file, rfl⟩).elim
      case h_2 => rfl
    have bound (d : Ino) (old : F.IsChild d) : (F.child d).highest ≤ n := risk d ▸ below d old
    have calmly {G : Family} (calm : Calm G F')
        (start : G.IsChild c → (G.child c).highest ≤ n) : (F'.child c).highest ≤ n :=
      le_trans (calm.child c).highest_le (start (calm.isChild c isChild))
    cases step_cases taken with
    | calm calm => exact calmly calm (bound c)
    | started opens detached calm => exact calmly calm (bound c)
    | cloneFailed failed => exact highest_setAttributes one bound isChild
    | cloned calm => exact calmly calm (highest_setParent one bound)
    | clonedStarted detached several calm => exact calmly calm (highest_setParent one bound)
    | @updated file d s here =>
        by_cases same : c = d
        · have old := bound d (isChild_of_attached here)
          rw [same, child_setScorwInode_self]
          exact max_le (le_trans (le_max_left _ _) old) (update file d rfl)
        · unfold IsChild at isChild
          rw [child_setScorwInode_of_ne same] at isChild ⊢
          exact bound c isChild
    | called attached isOpen attr made => exact bound c isChild
    | looked attached => exact bound c isChild
    | crashed => exact (crash ⟨_, _, rfl⟩).elim

/-! ## Children are never ahead -/

/-- No child is ahead of its parent, in memory or stored. -/
structure Ordered (F : Family) : Prop where
  stored : Stored F
  child : ∀ c, F.IsChild c → (F.child c).highest ≤ F.version

theorem ordered_plain (f : ByteFile UInt8) : Ordered (plain f) := by
  refine ⟨⟨le_rfl, le_rfl⟩, fun c isChild => ?_⟩
  rcases isChild with inSlot | attached
  · cases inSlot
  · cases attached

theorem ordered_step (ordered : Ordered F) (respects : F.Respects op)
    (taken : F.step op = some (ret, F')) : Ordered F' := by
  have stored := stored_step ordered.stored taken
  refine ⟨stored, fun c isChild => ?_⟩
  refine highest_step (le_trans stored.one stored.le) (fun file d shape => ?_)
    (fun d old => ?_) taken isChild
  · subst shape
    have keeps : F.KeepsAbove F.par.currVersionAttr (.updateVersion file d) := trivial
    exact le_version_step ordered.stored keeps ordered.stored.le taken
  · exact le_version_step ordered.stored (respects d old)
      (le_trans (atRisk_le_highest F op d) (ordered.child d old)) taken

/-- What a step does to the log files: each one is cut, or gains records above the
version of the parent. -/
theorem logOf_step (taken : F.step op = some (ret, F')) (i : Ino) :
    F'.logOf i <+: F.logOf i ∨
      ∃ tail, F'.logOf i = F.logOf i ++ tail ∧ ∀ r ∈ tail, F.version < r.versionNum := by
  have same (equal : F'.logOf i = F.logOf i) : F'.logOf i <+: F.logOf i := by rw [equal]
  cases step_cases taken with
  | calm calm => exact .inl (same (calm.logOf i))
  | started opens detached calm =>
      rw [calm.logOf i]
      exact .inl (logOf_startParent _ detached i)
  | cloneFailed failed => exact .inl (same rfl)
  | cloned calm => exact .inl (same (calm.logOf i))
  | @clonedStarted req env _ detached several calm =>
      rw [calm.logOf i]
      have untouched : ((F.setAttributes req).setParent req).attached = false := detached
      exact .inl (logOf_startParent env untouched i)
  | updated here => exact .inl (same rfl)
  | called attached isOpen attr made =>
      obtain ⟨tail, log, above⟩ := (step_grows (idle_of_mem isOpen) made).log
      by_cases inMemory : i = F.logIno
      · refine .inr ⟨tail, ?_, fun r member => ?_⟩
        · unfold logOf
          dsimp only
          rw [if_pos ⟨attached, inMemory⟩, if_pos ⟨attached, inMemory⟩]
          exact log
        · unfold version
          rw [if_pos attached]
          exact above r member
      · left
        apply same
        unfold logOf
        dsimp only
        rw [if_neg (fun both => inMemory both.2), if_neg (fun both => inMemory both.2)]
  | looked attached =>
      left
      apply same
      rw [lookupPhysicalBlock_store]
      rfl
  | @crashed kept file =>
      have shape : (F.crashed kept file).logOf i = (F.logOf i).take (kept i) := by
        unfold logOf crashed
        dsimp only
        rw [if_neg (fun both => Bool.noConfusion both.1)]
        split
        case isTrue attached =>
          rw [Function.update_apply]
          by_cases inMemory : i = F.logIno
          · rw [if_pos inMemory, if_pos ⟨attached, inMemory⟩]
          · rw [if_neg inMemory, if_neg (fun both => inMemory both.2)]
        case isFalse detached => rw [if_neg (fun both => detached both.1)]
      rw [shape]
      exact .inl ⟨_, List.take_append_drop _ _⟩

/-- The step neither clones from a parent that is not attached, nor crashes, nor
recovers. -/
def keepsAll (F : Family) : FamilyOp → Bool
  | .clone _ _ => F.attached
  | .openParent _ _ | .openChild _ _ _ | .readChild _ _ _ => !F.isOpenedFirstTime
  | .crash _ _ => false
  | _ => true

theorem respects_of_keepsAll (passed : F.keepsAll op = true) : F.Respects op := by
  have later {env : MountEnv} {v : Nat} (passed : (!F.isOpenedFirstTime) = true) :
      F.RecoversAbove env v := by
    intro _ first
    rw [first] at passed
    cases passed
  intro c _
  cases op with
  | clone req env => exact .inl passed
  | openParent file env => exact later passed
  | openChild file c env => exact later passed
  | readChild file c env => exact later passed
  | crash kept file => cases passed
  | closeParent file => exact trivial
  | closeChild file c => exact trivial
  | unlinkChild c => exact trivial
  | updateVersion file c => exact trivial
  | call op copies => exact trivial
  | pageCopied => exact trivial

/-- Before the first clone there is no version to lose. -/
theorem respects_plain (f : ByteFile UInt8) (op : FamilyOp) : (plain f).Respects op := by
  intro c isChild
  rcases isChild with inSlot | attached
  · cases inSlot
  · cases attached

/-- The first clone of a file that is not open. -/
theorem step_clone_plain {f : ByteFile UInt8} (env : MountEnv) (size : f.size ≠ 0)
    (ok : req.error = 0) :
    (plain f).step (.clone req env) =
      some (0, ((plain f).setAttributes req).setParent req) := by
  have first : (plain f).clone req env =
      (0, .ok (((plain f).setAttributes req).setParent req)) := by
    have some : ¬ (plain f).par.file.size = 0 := size
    have free : ¬ maxChilds ≤ (plain f).slots.length := Nat.not_succ_le_zero 63
    unfold clone
    rw [if_neg some, if_neg free, if_neg (not_not.mpr ok)]
    rfl
  simp only [step, first]
  rfl

/-- In every run that loses no version a child has, no child is ahead of the
parent, and whatever the next step is, no record is appended at a version that a
child has. -/
theorem versions_never_rewritten {f : ByteFile UInt8} {ops : List FamilyOp} {F : Family}
    (run : Run step Respects (plain f) ops F) :
    (∀ c, F.IsChild c → (F.child c).version ≤ F.version) ∧
      ∀ op ret F', F.step op = some (ret, F') → ∀ i,
        F'.logOf i <+: F.logOf i ∨
          ∃ tail, F'.logOf i = F.logOf i ++ tail ∧
            ∀ r ∈ tail, ∀ c, F.IsChild c → (F.child c).version < r.versionNum := by
  have ordered : Ordered F :=
    run.invariant (fun _ _ _ _ => ordered_step) (ordered_plain f)
  have child (c : Ino) (isChild : F.IsChild c) : (F.child c).version ≤ F.version :=
    le_trans (le_max_right _ _) (ordered.child c isChild)
  refine ⟨child, fun op ret F' taken i => ?_⟩
  rcases logOf_step taken i with cut | ⟨tail, log, above⟩
  · exact .inl cut
  · exact .inr ⟨tail, log, fun r member c isChild =>
      lt_of_le_of_lt (child c isChild) (above r member)⟩

/-- A run with a second clone made while the parent is open. -/
theorem versions_never_rewritten_second_clone :
    ∃ F : Family,
      Run step Respects (plain (.blank 8192))
        [.clone ⟨5, 50, 100, true, 0⟩ ⟨fun _ => true, .upTo 0⟩,
          .openParent 0 ⟨fun _ => true, .upTo 0⟩,
          .call (.write 0 ⟨0, [7], by decide, by decide⟩ (.clean 1)) 0,
          .clone ⟨6, 51, 100, true, 0⟩ ⟨fun _ => true, .upTo 0⟩] F ∧
        F.slots = [5, 6] ∧ F.version = 2 ∧
        ∀ c, F.IsChild c → (F.child c).version ≤ F.version := by
  have found : ((Run.exec step keepsAll
      (((plain (.blank 8192)).setAttributes ⟨5, 50, 100, true, 0⟩).setParent
        ⟨5, 50, 100, true, 0⟩)
      [.openParent 0 ⟨fun _ => true, .upTo 0⟩,
        .call (.write 0 ⟨0, [7], by decide, by decide⟩ (.clean 1)) 0,
        .clone ⟨6, 51, 100, true, 0⟩ ⟨fun _ => true, .upTo 0⟩]).any fun F =>
      decide (F.slots = [5, 6] ∧ F.version = 2)) = true := by
    decide +kernel
  obtain ⟨F, rest, shape⟩ := Run.exists_of_exec (fun _ _ _ => respects_of_keepsAll) found
  have run := Run.cons (respects_plain _ _)
    (step_clone_plain ⟨fun _ => true, .upTo 0⟩ (by decide) rfl) rest
  obtain ⟨slots, version⟩ := of_decide_eq_true shape
  exact ⟨F, run, slots, version, (versions_never_rewritten run).1⟩

/-- A child is updated to version `2`, everything is closed, and another child is
cloned: the parent is back at version `1`, and its next write logs version `2`
again. -/
theorem versions_never_rewritten_fails :
    ∃ (F F₁ F₂ : Family) (ret : Int) (r : LogRecord),
      Run step (fun _ _ => True) (plain (.blank 8192))
        [.clone ⟨5, 50, 100, true, 0⟩ ⟨fun _ => true, .upTo 0⟩,
          .openParent 0 ⟨fun _ => true, .upTo 0⟩,
          .openChild 1 5 ⟨fun _ => true, .upTo 0⟩,
          .call (.write 0 ⟨0, [7], by decide, by decide⟩ (.clean 1)) 0,
          .closeParent 0, .updateVersion 1 5, .closeChild 1 5,
          .clone ⟨6, 51, 100, true, 0⟩ ⟨fun _ => true, .upTo 0⟩] F ∧
        F.IsChild 5 ∧ F.version < (F.child 5).version ∧
        Run step (fun _ _ => True) F [.openParent 2 ⟨fun _ => true, .upTo 0⟩] F₁ ∧
        F₁.step (.call (.write 2 ⟨0, [7], by decide, by decide⟩ (.clean 1)) 0) =
          some (ret, F₂) ∧
        F₁.IsChild 5 ∧ F₂.logOf 100 = F₁.logOf 100 ++ [r] ∧
        r.versionNum ≤ (F₁.child 5).version := by
  have any {ops : List FamilyOp} :
      ∀ op ∈ ops, ∀ _ : Family, true = true → True := fun _ _ _ _ => trivial
  have found : ((Run.exec step (fun _ _ => true) (plain (.blank 8192))
      [.clone ⟨5, 50, 100, true, 0⟩ ⟨fun _ => true, .upTo 0⟩,
        .openParent 0 ⟨fun _ => true, .upTo 0⟩,
        .openChild 1 5 ⟨fun _ => true, .upTo 0⟩,
        .call (.write 0 ⟨0, [7], by decide, by decide⟩ (.clean 1)) 0,
        .closeParent 0, .updateVersion 1 5, .closeChild 1 5,
        .clone ⟨6, 51, 100, true, 0⟩ ⟨fun _ => true, .upTo 0⟩]).any fun F =>
      decide (5 ∈ F.slots ∧ F.version < (F.child 5).version) &&
        (Run.exec step (fun _ _ => true) F
          [.openParent 2 ⟨fun _ => true, .upTo 0⟩]).any fun F₁ =>
            decide (5 ∈ F₁.slots ∧ 2 ≤ (F₁.child 5).version) &&
              (F₁.step (.call (.write 2 ⟨0, [7], by decide, by decide⟩ (.clean 1)) 0)).any
                fun r => decide (r.2.logOf 100 = F₁.logOf 100 ++ [⟨2, 0, 3, 1⟩])) = true := by
    decide +kernel
  obtain ⟨F, run, here⟩ := Run.exists_of_exec any found
  obtain ⟨ahead, later⟩ := Bool.and_eq_true_iff.mp here
  obtain ⟨inSlot, above⟩ := of_decide_eq_true ahead
  obtain ⟨F₁, reopened, there⟩ := Run.exists_of_exec any later
  obtain ⟨still, written⟩ := Bool.and_eq_true_iff.mp there
  obtain ⟨inSlot', version⟩ := of_decide_eq_true still
  obtain ⟨⟨ret, F₂⟩, taken, log⟩ := (Option.any_eq_true _ _).mp written
  exact ⟨F, F₁, F₂, ret, ⟨2, 0, 3, 1⟩, run, .inl inSlot, above, reopened, taken, .inl inSlot',
    of_decide_eq_true log, version⟩

/-! ## Updating a child -/

/-- What a successful `update_version` leaves. -/
theorem eq_updated_of_step {F₁ : Family} (taken : F.step (.updateVersion file c) = some (0, F₁)) :
    ∃ s, (F.child c).scorwInode = some s ∧
      F₁ = F.setScorwInode c (some { s with version := F.par.currVersionAttr }) := by
  unfold step at taken
  split at taken
  · cases taken
  · dsimp only at taken
    split at taken
    case isTrue =>
      have shape := Option.some.inj taken
      unfold updateVersion at shape
      split at shape
      case h_1 =>
        have refused : einval = 0 := congrArg Prod.fst shape
        exact absurd refused (by decide)
      case h_2 s here => exact ⟨s, here, (congrArg Prod.snd shape).symm⟩
    case isFalse => cases taken

theorem version_of_update {F₁ : Family} (taken : F.step (.updateVersion file c) = some (0, F₁)) :
    (F₁.child c).version = F.par.currVersionAttr ∧ F₁.version = F.version := by
  obtain ⟨s, here, rfl⟩ := eq_updated_of_step taken
  rw [child_setScorwInode_self]
  exact ⟨rfl, rfl⟩

/-- A stored version that is up to date stays so: there is no write, `END` or vectored
write, and a clone, which stores version `1`, finds an attached parent at this version. -/
def KeepsCurrent (F : Family) : FamilyOp → Prop
  | .call (.beginTransaction ..) _ | .call (.lookup ..) _ => True
  | .call _ _ => False
  | .clone _ _ => F.attached = true → F.version = 1
  | _ => True

theorem current_calm (current : F.par.currVersionAttr = F.version) (calm : Calm F F') :
    F'.par.currVersionAttr = F'.version := by
  rw [calm.version]
  rcases calm.attr with same | stored
  · rw [same, current]
  · exact stored

theorem current_setAttributes (one : F.attached = true → F.version = 1) :
    (F.setAttributes req).par.currVersionAttr = (F.setAttributes req).version := by
  unfold Family.version at one ⊢
  split
  case isTrue attached =>
    have here : F.attached = true := attached
    have version := one here
    rw [if_pos here] at version
    exact version.symm
  case isFalse => rfl

theorem current_step (current : F.par.currVersionAttr = F.version) (keeps : F.KeepsCurrent op)
    (taken : F.step op = some (ret, F')) : F'.par.currVersionAttr = F'.version := by
  cases step_cases taken with
  | calm calm => exact current_calm current calm
  | started _ _ calm => exact current_calm (attr_startParent F _) calm
  | cloneFailed => exact current_setAttributes keeps
  | @cloned req _ _ calm =>
      have stored : ((F.setAttributes req).setParent req).par.currVersionAttr =
          ((F.setAttributes req).setParent req).version := current_setAttributes keeps
      exact current_calm stored calm
  | clonedStarted _ _ calm => exact current_calm (attr_startParent _ _) calm
  | updated => exact current
  | @called op _ _ _ _ attached _ attr made =>
      cases op with
      | beginTransaction file interrupted =>
          cases Scorw.step_cases made with
          | beginRefused => exact current
          | begun => exact current
      | lookup version blk env =>
          cases Scorw.step_cases made
          rw [lookupPhysicalBlock_store]
          exact current
      | _ => exact keeps.elim
  | looked =>
      rw [lookupPhysicalBlock_store]
      exact current
  | crashed => rfl

/-- A put stores the version. -/
theorem current_putParent {fromChild : Bool} (attached : F.attached = true)
    (done : F.putParent fromChild = .ok F') : F'.par.currVersionAttr = F'.version := by
  unfold putParent at done
  rw [if_neg (by rw [attached]; exact Bool.noConfusion)] at done
  dsimp only at done
  split at done
  case isTrue => cases done
  case isFalse =>
    refine current_calm ?_ (calm_freeUnused ?_ ?_ done)
    · exact (if_pos attached).symm
    · exact attached
    · rfl

/-- The child is at the parent's version if the parent was closed before, and no step
since then kept the stored version from being up to date. -/
theorem version_of_update_after_close {G F₀ F₁ : Family} {ops : List FamilyOp} {file' : Handle}
    (attached : F.attached = true) (closed : F.releaseParent file = .ok G)
    (run : Run step KeepsCurrent G ops F₀)
    (updated : F₀.step (.updateVersion file' c) = some (0, F₁)) :
    (F₁.child c).version = F₁.version := by
  have start : G.par.currVersionAttr = G.version := by
    unfold releaseParent at closed
    dsimp only at closed
    rw [if_pos attached] at closed
    refine current_putParent ?_ closed
    exact attached
  have current : F₀.par.currVersionAttr = F₀.version :=
    run.invariant (P := fun F => F.par.currVersionAttr = F.version)
      (fun _ _ _ _ current keeps taken => current_step current keeps taken) start
  obtain ⟨version, same⟩ := version_of_update updated
  rw [version, same, current]

/-- After a successful `update_version` the child is at the parent's version exactly
when the attribute `curr_version` of the parent was up to date, and then it looks up
every block as the parent does. A later call that finds the attribute up to date
does not lower the child, as long as the parent does not lose the version
meanwhile. -/
theorem update_version_current {f : ByteFile UInt8} {ops : List FamilyOp} {F F₁ : Family}
    {file : Handle} {c : Ino} (reached : Run step (fun _ _ => True) (plain f) ops F)
    (updated : F.step (.updateVersion file c) = some (0, F₁)) :
    ((F₁.child c).version = F₁.version ↔ F.par.currVersionAttr = F.version) ∧
      (F.par.currVersionAttr = F.version → F₁.attached = true → ∀ env blk,
        (lookupPhysicalBlock env F₁.par.toVersionStore (F₁.child c).version blk).1 =
          (lookupPhysicalBlock env F₁.par.toVersionStore F₁.par.version blk).1) ∧
      ∀ later F₂ F₃ file',
        Run step (fun G op => G.KeepsAbove (F₁.child c).version op) F₁ later F₂ →
        F₂.step (.updateVersion file' c) = some (0, F₃) →
        F₂.par.currVersionAttr = F₂.version →
        (F₁.child c).version ≤ (F₃.child c).version := by
  have stored : Stored F :=
    reached.invariant (fun _ _ _ _ stored _ => stored_step stored) (ordered_plain f).stored
  obtain ⟨version, same⟩ := version_of_update updated
  refine ⟨by rw [version, same], fun current attached env blk => ?_,
    fun later F₂ F₃ file' run again current => ?_⟩
  · have synced : (F₁.child c).version = F₁.version := by rw [version, same, current]
    have inMemory : F₁.version = F₁.par.version := if_pos attached
    rw [synced, inMemory]
  · have start : Stored F₁ ∧ (F₁.child c).version ≤ F₁.version :=
      ⟨stored_step stored updated, by rw [version, same]; exact stored.le⟩
    have kept : Stored F₂ ∧ (F₁.child c).version ≤ F₂.version :=
      run.invariant (P := fun G => Stored G ∧ (F₁.child c).version ≤ G.version)
        (fun G op ret G' inv keeps taken =>
          ⟨stored_step inv.1 taken, le_version_step inv.1 keeps inv.2 taken⟩) start
    rw [(version_of_update again).1, current]
    exact kept.2

/-- A child is updated after the writer has closed the parent. -/
theorem update_version_current_after_close :
    ∃ F F₁ : Family,
      Run step (fun _ _ => True) (plain (.blank 8192))
        [.clone ⟨5, 50, 100, true, 0⟩ ⟨fun _ => true, .upTo 0⟩,
          .openParent 0 ⟨fun _ => true, .upTo 0⟩,
          .openChild 1 5 ⟨fun _ => true, .upTo 0⟩,
          .call (.write 0 ⟨0, [7], by decide, by decide⟩ (.clean 1)) 0,
          .closeParent 0] F ∧
        F.step (.updateVersion 1 5) = some (0, F₁) ∧ F₁.version = 2 ∧
        (F₁.child 5).version = F₁.version := by
  refine Run.exists_step_imp (fun _ _ => true) (fun _ _ _ _ => trivial)
    (Q := fun F F₁ => F.par.currVersionAttr = F.version ∧ F₁.version = 2) (by decide +kernel) ?_
  rintro F F₁ run taken ⟨current, version⟩
  exact ⟨version, (update_version_current run taken).1.mpr current⟩

/-- After an update to version `2` another child is cloned while the parent is open,
which stores version `1`: the next update goes back to version `1`. -/
theorem update_version_current_fails :
    ∃ F F₁ : Family,
      Run step (fun _ _ => True) (plain (.blank 8192))
        [.clone ⟨5, 50, 100, true, 0⟩ ⟨fun _ => true, .upTo 0⟩,
          .openParent 0 ⟨fun _ => true, .upTo 0⟩,
          .openChild 1 5 ⟨fun _ => true, .upTo 0⟩,
          .call (.write 0 ⟨0, [7], by decide, by decide⟩ (.clean 1)) 0,
          .closeParent 0, .updateVersion 1 5,
          .clone ⟨6, 51, 100, true, 0⟩ ⟨fun _ => true, .upTo 0⟩] F ∧
        F.step (.updateVersion 1 5) = some (0, F₁) ∧
        (F.child 5).version = 2 ∧ (F₁.child 5).version = 1 ∧ F₁.version = 2 := by
  exact Run.exists_step_imp (fun _ _ => true) (fun _ _ _ _ => trivial) (by decide +kernel)
    fun _ _ _ _ shown => shown

end Family

end FlexClone.Scorw
