import FlexClone.Scorw.Calls
import FlexClone.Scorw.View

/-!
# Snapshot isolation of a child

A child at a fixed version reads through `readFromParent`, one page at a time.
Whatever the parent does meanwhile, the child's lookups stay the same as long as
the parent has reached that version (`Grows.resolve`), and the blocks they lead
to are not touched, because writes only go past the end of the file.

`snapshot_isolation` needs three things beyond that. A read must not reach past the
parent's size at the start: the size keeps moving, and a read that was cut short
then returns more later. No copy may fail: the write then goes to the blocks of the
original file. And no record of the log may be cleared (`Call.Ready`): the child finds
it missing as soon as the map of its version has to be read from the log again.
-/

namespace FlexClone.Scorw

/-- `generic_file_read_iter`: up to `count` bytes from `pos`, as far as the file goes. -/
def genericFileRead (f : ByteFile UInt8) (pos count : Nat) : List UInt8 :=
  (List.range (min count (f.size - pos))).map fun i => f.byteAt (pos + i)

/-- The part of a request up to the end of its page. -/
def clampToPage (pos count : Nat) : Nat := min count (pageSize - pos % pageSize)

/-- `scorw_read_from_parent` by a child at `version`. -/
def readFromParent (env : Env) (s : State) (version pos count : Nat) : List UInt8 × State :=
  let found := lookupPhysicalBlock env s.toVersionStore version (pos / pageSize)
  let s := { s with toVersionStore := found.2 }
  match found.1 with
  | some blk =>
      (genericFileRead s.file (blk * pageSize + pos % pageSize) (clampToPage pos count), s)
  | none =>
      if s.origSize ≤ pos then ([], s)
      else (genericFileRead s.file pos (clampToPage pos count), s)

/-- A file that keeps what is below its end keeps every read that stays below it. -/
theorem genericFileRead_of_keeps {f g : ByteFile UInt8} {pos count : Nat}
    (keeps : ByteFile.Keeps f.size f g) (below : pos + count ≤ f.size) :
    genericFileRead g pos count = genericFileRead f pos count := by
  have grown := keeps.size_le
  unfold genericFileRead
  rw [min_eq_left (by omega), min_eq_left (by omega)]
  apply List.map_congr_left
  intro i member
  have inside := List.mem_range.mp member
  exact keeps.byteAt_eq _ (by omega)

/-- No write of the call has a failing copy. -/
def Op.CopiesSucceed : Op → Prop
  | .write _ _ env => env.CopiesSucceed
  | _ => True

/-- Calls without a failing copy write only past the end of the file. -/
theorem step_keeps {s s' : State} {op : Op} {ret : Int} (idle : Idle s)
    (succeed : op.CopiesSucceed) (taken : step s op = some (ret, s')) :
    ByteFile.Keeps s.file.size s.file s'.file := by
  have same {g : ByteFile UInt8} (equal : g = s.file) :
      ByteFile.Keeps s.file.size s.file g := by
    rw [equal]
    exact .refl _ _
  have appended {g : ByteFile UInt8} (keeps : ByteFile.Keeps (roundUp s.file.size) s.file g) :
      ByteFile.Keeps s.file.size s.file g := keeps.mono (le_roundUp _)
  cases step_cases taken with
  | openFile fresh => exact same (quiet_getInode idle).file
  | closeFile isOpen => exact same (quiet_putInode _).file
  | openChild => exact same (quiet_getInode idle).file
  | closeChild isOpen => exact same (quiet_putInode _).file
  | beginRefused nonzero => exact same rfl
  | begun isOpen free => exact same rfl
  | endRefused => exact same rfl
  | committed isOpen held => exact same rfl
  | unlocked held outside => exact same rfl
  | write isOpen result =>
      cases result with
      | refused outside => exact same rfl
      | inPlace ready failed => exact (copyUp_nonneg succeed (roundUp_mod _) failed).elim
      | redirected ready copied => exact appended (redirectedLoop_keeps _ _ _)
  | writev isOpen result =>
      cases result with
      | refused => exact same rfl
      | dataFailed negative data => exact appended (writevData_keeps (roundUp_mod _) data)
      | noVersion data created => exact appended (writevData_keeps (roundUp_mod _) data)
      | committed nonempty nonneg data created =>
          exact appended (writevData_keeps (roundUp_mod _) data)
  | lookup used => exact same rfl

/-- What a run leaves to a reader of the state it started from. -/
structure Preserves (s s' : State) : Prop where
  grows : Grows s s'
  file : ByteFile.Keeps s.file.size s.file s'.file

theorem Preserves.trans {s₁ s₂ s₃ : State} (first : Preserves s₁ s₂) (second : Preserves s₂ s₃) :
    Preserves s₁ s₃ :=
  ⟨first.grows.trans second.grows,
    first.file.trans (second.file.mono first.file.size_le)⟩

theorem preserves_of_run {s s' : State} {ops : List Op} (sound : Sound s)
    (run : Run step (fun _ op => op.Regular ∧ op.CopiesSucceed) s ops s') :
    Sound s' ∧ Preserves s s' := by
  refine run.invariant (P := fun t => Sound t ∧ Preserves s t) ?_
    ⟨sound, .refl s, .refl _ _⟩
  intro t op ret t' kept admitted taken
  exact ⟨step_sound kept.1 admitted.1 taken,
    kept.2.trans ⟨step_grows kept.1.idle taken, step_keeps kept.1.idle admitted.2 taken⟩⟩

/-- The block of the request, if it resolves, is followed by enough of the file
for the whole request. -/
def ReadsWhole (s : State) (version pos count : Nat) : Prop :=
  ∀ blk, resolve s.log s.origSize version (pos / pageSize) = some blk →
    blk * pageSize + pos % pageSize + clampToPage pos count ≤ s.file.size

theorem readFromParent_eq {env : Env} {s : State} (sound : Sound s) (clean : env.FaultFree)
    (version pos count : Nat) :
    (readFromParent env s version pos count).1 =
      match resolve s.log s.origSize version (pos / pageSize) with
      | some blk => genericFileRead s.file (blk * pageSize + pos % pageSize)
          (clampToPage pos count)
      | none => [] := by
  have aligned := sound.aligned
  have found := lookupPhysicalBlock_eq clean sound.coherent version (pos / pageSize)
  unfold readFromParent
  dsimp only
  rw [found]
  cases shape : resolve s.log s.origSize version (pos / pageSize) with
  | some blk => rfl
  | none =>
      have past : s.origSize ≤ pos := by
        unfold resolve at shape
        rw [Option.or_eq_none_iff] at shape
        by_contra inside
        have below : pos / pageSize < s.origSize / pageSize := by
          unfold pageSize at *
          omega
        rw [if_pos below] at shape
        cases shape.2
      rw [lookupPhysicalBlock_store]
      dsimp only
      rw [if_pos past]

@[simp] theorem Call.copiesSucceed_toOp (c : Call) :
    c.toOp.CopiesSucceed ↔ c.op.CopiesSucceed := by
  obtain ⟨op, fetches, uptodate⟩ := c
  cases op with
  | write file w env => exact Iff.rfl
  | openFile | closeFile | openChild | closeChild | beginTransaction | endTransaction | writev
  | lookup => exact Iff.rfl

/-- The reads of a child at a version the parent has reached do not change while
the parent runs. -/
theorem snapshot_isolation {s₀ s s' : State} {before calls : List Call} (opened : Opened s₀)
    (reached : Run syscall (fun s c => c.op.Regular ∧ c.Ready s) s₀ before s)
    (run : Run syscall (fun s c => (c.op.Regular ∧ c.op.CopiesSucceed) ∧ c.Ready s) s calls s')
    {version pos count : Nat} (old : version ≤ s.version)
    (whole : ReadsWhole s version pos count) {env env' : Env} (clean : env.FaultFree)
    (clean' : env'.FaultFree) :
    (readFromParent env' s' version pos count).1 = (readFromParent env s version pos count).1 := by
  have sound : Sound s := sound_of_run opened.sound (run_toOp (fun _ c meets =>
    ⟨meets.2, c.regular_toOp.mpr meets.1⟩) reached)
  obtain ⟨sound', preserves⟩ := preserves_of_run sound (run_toOp (fun _ c meets =>
    ⟨meets.2, c.regular_toOp.mpr meets.1.1, c.copiesSucceed_toOp.mpr meets.1.2⟩) run)
  rw [readFromParent_eq sound' clean', readFromParent_eq sound clean,
    preserves.grows.resolve old]
  cases found : resolve s.log s.origSize version (pos / pageSize) with
  | none => rfl
  | some blk => exact genericFileRead_of_keeps preserves.file (whole blk found)

theorem admits_writeByte {pos : UInt16} {b : UInt8} {fetches : List LogFetch} :
    ∀ c ∈ [(⟨.writeByte 0 pos b, fetches, []⟩ : Call)],
      ∀ s : State, decide (c.Ready s) = true →
        (c.op.Regular ∧ c.op.CopiesSucceed) ∧ c.Ready s := by
  intro c member s ready
  refine ⟨?_, of_decide_eq_true ready⟩
  rw [List.mem_singleton.mp member]
  exact ⟨Op.regular_writeByte .., rfl, rfl⟩

/-- A child of a fresh clone reads the same first page after the parent wrote to it. -/
theorem snapshot_isolation_first_page :
    ∃ s' : State,
      Run syscall (fun s c => (c.op.Regular ∧ c.op.CopiesSucceed) ∧ c.Ready s)
        { cloned (.blank 8192) with handles := [0] }
        [⟨.writeByte 0 0 7, [.cleared], []⟩] s' ∧
      (readFromParent .clean s' 1 0 4096).1 =
        (readFromParent .clean { cloned (.blank 8192) with handles := [0] } 1 0 4096).1 := by
  have reached : Run syscall (fun s c => c.op.Regular ∧ c.Ready s) (cloned (.blank 8192))
      [(Op.openFile 0).cached] { cloned (.blank 8192) with handles := [0] } :=
    .cons ⟨trivial, trivial⟩ rfl (.nil _)
  refine Run.exists_imp (fun s c => decide (c.Ready s)) admits_writeByte (Q := fun _ => True)
    (by decide +kernel) fun s' run _ => ?_
  refine snapshot_isolation (opened_cloned _) reached run le_rfl ?_ Env.clean_faultFree
    Env.clean_faultFree
  intro blk resolved
  have zero : blk = 0 := (Option.some.inj resolved).symm
  rw [zero]
  decide

/-- A child of a 5000 byte parent reads 904 bytes of the second page, and 4096 once the parent
has written a byte. A child at version 2, the record of whose block was cleared, reads 7 at
offset 0 before the fourth of four writes to another block, and 0 afterwards. -/
theorem snapshot_isolation_fails :
    (∃ s' : State,
      Run syscall (fun s c => c.op.Regular ∧ c.Ready s) (cloned (.blank 5000))
        [(Op.openFile 0).cached] { cloned (.blank 5000) with handles := [0] } ∧
      Run syscall (fun s c => (c.op.Regular ∧ c.op.CopiesSucceed) ∧ c.Ready s)
        { cloned (.blank 5000) with handles := [0] }
        [⟨.writeByte 0 0 7, [.cleared], []⟩] s' ∧
      (readFromParent .clean { cloned (.blank 5000) with handles := [0] } 1 4096 4096).1.length =
        904 ∧
      (readFromParent .clean s' 1 4096 4096).1.length = 4096) ∧
    ∃ s s' : State,
      Run syscall (fun _ c => c.op.Regular) (cloned (.blank 8192)) clearedWrites s ∧
      syscall s (Op.writeByte 0 4096 9).cached = some (1, s') ∧
      ReadsWhole s 2 0 1 ∧ (readFromParent .clean s 2 0 1).1 = [7] ∧
      (readFromParent .clean s' 2 0 1).1 = [0] := by
  constructor
  · have opening : Run syscall (fun s c => c.op.Regular ∧ c.Ready s) (cloned (.blank 5000))
        [(Op.openFile 0).cached] { cloned (.blank 5000) with handles := [0] } :=
      .cons ⟨trivial, trivial⟩ rfl (.nil _)
    simp only [opening, true_and]
    exact Run.exists_imp (fun s c => decide (c.Ready s)) admits_writeByte (by decide +kernel)
      fun _ _ shown => shown
  · refine Run.exists_step_imp (fun _ _ => true)
      (fun c member _ _ => regular_clearedWrites c member)
      (Q := fun s s' => (resolve s.log s.origSize 2 0 = some 0 ∧ 1 ≤ s.file.size) ∧
        (readFromParent .clean s 2 0 1).1 = [7] ∧ (readFromParent .clean s' 2 0 1).1 = [0])
      (by decide +kernel) ?_
    rintro s _ _ _ ⟨⟨place, size⟩, shown⟩
    refine ⟨fun blk resolved => ?_, shown⟩
    have zero : blk = 0 := Option.some.inj (resolved.symm.trans place)
    rw [zero]
    exact size

end FlexClone.Scorw
