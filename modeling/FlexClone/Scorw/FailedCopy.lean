import FlexClone.CachedFile
import FlexClone.Scorw.View

/-!
# Writes that fail on the way

A write to a see-through parent can fail in two places: while it copies the blocks that
it overwrites in part, and in the data loop. What it has put in place until then stays.

* `byteAt_writePages_eq`: every byte of the file after the data loop, however it ends;
  `placedBytes` are put in place and `reportedBytes` of them are reported.
* `byteAt_copiedUp`: every byte of the file after copies of which one failed.
* `failed_copy_intact_iff`: `scorw_write_see_thru_ro` returns the position of the request
  when a copy fails, with the lock taken, and the data loop goes on from there. So the
  parent is intact only inside a transaction, and only if the loop comes to nothing.
-/

namespace FlexClone.Scorw

/-! ## The data loop, byte by byte -/

/-- How many bytes the data loop puts in place. -/
def placedBytes : List PageOutcome → Nat → Nat → Nat
  | [], _, _ => 0
  | outcome :: outcomes, pos, remaining =>
      let bytes := min (pageSize - pos % pageSize) remaining
      match outcome with
      | .signal | .beginFailed => 0
      | .endFailed n => min n bytes
      | .copied n =>
          let copied := min n bytes
          if remaining - copied = 0 then copied
          else copied + placedBytes outcomes (pos + copied) (remaining - copied)

/-- How many bytes the data loop reports: not those of a pass that fails in `write_end`. -/
def reportedBytes : List PageOutcome → Nat → Nat → Nat
  | [], _, _ => 0
  | outcome :: outcomes, pos, remaining =>
      let bytes := min (pageSize - pos % pageSize) remaining
      match outcome with
      | .signal | .beginFailed | .endFailed _ => 0
      | .copied n =>
          let copied := min n bytes
          if remaining - copied = 0 then copied
          else copied + reportedBytes outcomes (pos + copied) (remaining - copied)

theorem reportedBytes_le (outcomes : List PageOutcome) (pos remaining : Nat) :
    reportedBytes outcomes pos remaining ≤ placedBytes outcomes pos remaining := by
  induction outcomes generalizing pos remaining with
  | nil => exact le_rfl
  | cons outcome outcomes ih =>
      cases outcome with
      | signal => exact le_rfl
      | beginFailed => exact le_rfl
      | endFailed n => exact Nat.zero_le _
      | copied n =>
          unfold reportedBytes placedBytes
          dsimp only
          split
          · exact le_rfl
          · exact Nat.add_le_add_left (ih _ _) _

theorem placedBytes_le (outcomes : List PageOutcome) (pos remaining : Nat) :
    placedBytes outcomes pos remaining ≤ remaining := by
  induction outcomes generalizing pos remaining with
  | nil => exact Nat.zero_le _
  | cons outcome outcomes ih =>
      cases outcome with
      | signal => exact Nat.zero_le _
      | beginFailed => exact Nat.zero_le _
      | endFailed n =>
          unfold placedBytes
          dsimp only
          omega
      | copied n =>
          unfold placedBytes
          dsimp only
          generalize chosen : min n (min (pageSize - pos % pageSize) remaining) = c
          split
          · omega
          · have := ih (pos + c) (remaining - c)
            omega

theorem written_writePages (outcomes : List PageOutcome) (f : ByteFile UInt8) (pos : Nat)
    (data : List UInt8) (written : Nat) :
    (writePages outcomes f pos data written).written =
      written + reportedBytes outcomes pos data.length := by
  induction outcomes generalizing f pos data written with
  | nil => rfl
  | cons outcome outcomes ih =>
      cases outcome with
      | signal => rfl
      | beginFailed => rfl
      | endFailed n => rfl
      | copied n =>
          unfold writePages reportedBytes
          dsimp only
          generalize chosen : min n (min (pageSize - pos % pageSize) data.length) = c
          by_cases ended : data.drop c = []
          · have all := List.drop_eq_nil_iff.mp ended
            rw [if_pos ended, if_pos (by omega)]
          · have more : ¬ data.length - c = 0 := by
              intro none
              exact ended (List.drop_eq_nil_iff.mpr (by omega))
            rw [if_neg ended, if_neg more, ih, List.length_drop, Nat.add_assoc]

/-- Every byte of the file after the data loop. -/
theorem byteAt_writePages_eq (outcomes : List PageOutcome) (f : ByteFile UInt8) (pos : Nat)
    (data : List UInt8) (written x : Nat) :
    (writePages outcomes f pos data written).file.byteAt x =
      (landsAt pos (data.take (placedBytes outcomes pos data.length)) x).getD (f.byteAt x) := by
  induction outcomes generalizing f pos data written with
  | nil => simp [writePages, placedBytes]
  | cons outcome outcomes ih =>
      cases outcome with
      | signal => simp [writePages, placedBytes]
      | beginFailed => simp [writePages, placedBytes]
      | endFailed n => exact f.byteAt_put pos _ x
      | copied n =>
          unfold writePages placedBytes
          dsimp only
          generalize chosen : min n (min (pageSize - pos % pageSize) data.length) = c
          have length : (data.take c).length = c := List.length_take_of_le (by omega)
          by_cases ended : data.drop c = []
          · have all := List.drop_eq_nil_iff.mp ended
            rw [if_pos ended, if_pos (by omega)]
            exact f.byteAt_put pos _ x
          · have more : ¬ data.length - c = 0 := by
              intro none
              exact ended (List.drop_eq_nil_iff.mpr (by omega))
            rw [if_neg ended, if_neg more, ih, List.length_drop, List.take_add, landsAt_append,
              length, f.byteAt_put]
            cases landsAt (pos + c) _ x with
            | none => rfl
            | some b => rfl

/-! ## Copies of which one fails -/

/-- The bytes are in place although the copy may have failed. -/
def CopyOutcome.places : CopyOutcome → Bool
  | .done | .endFailed => true
  | .readFailed | .beginFailed => false

/-- The byte that the copies of a write put at an offset, if one of them fails. -/
def copiedByte (env : WriteEnv) (s : State) (w : WriteReq) (x : Nat) : Option UInt8 :=
  let head := env.copyHead.headD .done
  let tail := env.copyTail.headD .done
  let appended := roundUp s.file.size / pageSize
  let source := (lookedUp env s w).1.getD blkNotFound
  if (w.CopiesHead → head = .done) ∧ w.CopiesTail s.origSize ∧ tail.places = true ∧
      x / pageSize = appended + (w.endBlk - w.startBlk) then
    some ((headCopy s.file w source (roundUp s.file.size)).byteAt
      (w.endBlk * pageSize + x % pageSize))
  else if w.CopiesHead ∧ head.places = true ∧ x / pageSize = appended then
    some (s.file.byteAt (source * pageSize + x % pageSize))
  else none

theorem byteAt_overlay_page (f : ByteFile UInt8) (g : Nat → UInt8) {destPos : Nat}
    (aligned : destPos % pageSize = 0) (x : Nat) :
    (f.overlay destPos pageSize g).byteAt x =
      if x / pageSize = destPos / pageSize then g (x % pageSize) else f.byteAt x := by
  have inside : destPos ≤ x ∧ x < destPos + pageSize ↔ x / pageSize = destPos / pageSize := by
    unfold pageSize at *
    omega
  rw [ByteFile.byteAt_overlay]
  simp only [inside]
  split
  case isTrue same =>
    congr 1
    unfold pageSize at *
    omega
  case isFalse => rfl

theorem byteAt_copyPage (outcome : CopyOutcome) (f : ByteFile UInt8) (srcPos : Nat) {destPos : Nat}
    (aligned : destPos % pageSize = 0) (x : Nat) :
    (copyPage outcome f srcPos destPos).2.byteAt x =
      if outcome.places = true ∧ x / pageSize = destPos / pageSize then
        f.byteAt (srcPos + x % pageSize)
      else f.byteAt x := by
  cases outcome with
  | readFailed => simp [copyPage, CopyOutcome.places]
  | beginFailed => simp [copyPage, CopyOutcome.places]
  | endFailed => simp [copyPage, CopyOutcome.places, byteAt_overlay_page _ _ aligned]
  | done => simp [copyPage, CopyOutcome.places, byteAt_overlay_page _ _ aligned]

theorem byteAt_headCopy (f : ByteFile UInt8) (w : WriteReq) (source : Nat) {appendPos : Nat}
    (aligned : appendPos % pageSize = 0) (x : Nat) :
    (headCopy f w source appendPos).byteAt x =
      if w.CopiesHead ∧ x / pageSize = appendPos / pageSize then
        f.byteAt (source * pageSize + x % pageSize)
      else f.byteAt x := by
  unfold headCopy
  by_cases copies : w.CopiesHead
  · simp only [copies, if_true, true_and]
    exact byteAt_overlay_page f _ aligned x
  · simp only [copies, if_false, false_and]

section CopiedUp

variable {env : WriteEnv} {s : State} {w : WriteReq}

/-- The copies are only made for a write that starts in a block that is found, or in the
original file. -/
theorem copies_of_failed (failed : (copiedUp env s w).1 < 0) :
    (lookedUp env s w).1.isSome = true ∨ w.pos < s.origSize := by
  by_contra skipped
  unfold copiedUp copyUp at failed
  rw [if_neg skipped] at failed
  exact Int.lt_irrefl 0 failed

/-- The copy of the first block fails. -/
theorem copiedUp_of_headFailed (failed : (copiedUp env s w).1 < 0) (copies : w.CopiesHead)
    (broken : env.copyHead.headD .done ≠ .done) :
    (copiedUp env s w).2 = (copyPage (env.copyHead.headD .done) s.file
      ((lookedUp env s w).1.getD blkNotFound * pageSize) (roundUp s.file.size)).2 := by
  have aligned := roundUp_mod s.file.size
  unfold copiedUp copyUp
  rw [if_pos (copies_of_failed failed), copyHeadBlock_eq _ _ _ _ aligned, if_pos copies]
  exact congrArg Prod.snd (if_pos (copyPage_neg_iff.mpr broken))

/-- The copy of the first block succeeds, if there is one, and that of the last fails. -/
theorem copiedUp_of_tailFailed (failed : (copiedUp env s w).1 < 0)
    (fine : w.CopiesHead → env.copyHead.headD .done = .done) :
    w.CopiesTail s.origSize ∧ (copiedUp env s w).2 = (copyPage (env.copyTail.headD .done)
      (headCopy s.file w ((lookedUp env s w).1.getD blkNotFound) (roundUp s.file.size))
      (w.endBlk * pageSize)
      (roundUp s.file.size + (w.endBlk - w.startBlk) * pageSize)).2 := by
  have aligned := roundUp_mod s.file.size
  have head : (copyHeadBlock env s.file w (lookedUp env s w).1 (roundUp s.file.size)).2 =
      headCopy s.file w ((lookedUp env s w).1.getD blkNotFound) (roundUp s.file.size) ∧
      ¬ (copyHeadBlock env s.file w (lookedUp env s w).1 (roundUp s.file.size)).1 < 0 := by
    rw [copyHeadBlock_eq _ _ _ _ aligned]
    unfold headCopy
    split
    case isTrue copies =>
      rw [fine copies]
      exact ⟨rfl, mt copyPage_neg_iff.mp (not_not.mpr rfl)⟩
    case isFalse => exact ⟨rfl, Int.lt_irrefl 0⟩
  have guarded := copies_of_failed failed
  unfold copiedUp copyUp at failed ⊢
  rw [if_pos guarded] at failed ⊢
  dsimp only at failed ⊢
  rw [if_neg head.2, head.1, copyTailBlock_eq _ _ _ _ aligned] at failed ⊢
  split at failed
  case isTrue copies =>
    rw [if_pos copies]
    exact ⟨copies, rfl⟩
  case isFalse => exact (Int.lt_irrefl 0 failed).elim

/-- Every byte of the file after copies of which one failed. -/
theorem byteAt_copiedUp (failed : (copiedUp env s w).1 < 0) (x : Nat) :
    (copiedUp env s w).2.byteAt x = (copiedByte env s w x).getD (s.file.byteAt x) := by
  have aligned := roundUp_mod s.file.size
  unfold copiedByte
  dsimp only
  by_cases fine : w.CopiesHead → env.copyHead.headD .done = .done
  · obtain ⟨copies, file⟩ := copiedUp_of_tailFailed failed fine
    have last : (roundUp s.file.size + (w.endBlk - w.startBlk) * pageSize) / pageSize =
        roundUp s.file.size / pageSize + (w.endBlk - w.startBlk) :=
      Nat.add_mul_div_right _ _ pageSize_pos
    rw [file, byteAt_copyPage _ _ _ (tail_aligned aligned w), last]
    by_cases tail : (env.copyTail.headD .done).places = true ∧
        x / pageSize = roundUp s.file.size / pageSize + (w.endBlk - w.startBlk)
    · rw [if_pos tail, if_pos ⟨fine, copies, tail⟩]
      rfl
    · rw [if_neg tail, if_neg fun ⟨_, _, here⟩ => tail here, byteAt_headCopy _ _ _ aligned]
      by_cases head : w.CopiesHead ∧ x / pageSize = roundUp s.file.size / pageSize
      · rw [if_pos head, if_pos ⟨head.1, by rw [fine head.1]; rfl, head.2⟩]
        rfl
      · rw [if_neg head, if_neg fun ⟨here, _, block⟩ => head ⟨here, block⟩]
        rfl
  · obtain ⟨copies, broken⟩ := Classical.not_imp.mp fine
    rw [copiedUp_of_headFailed failed copies broken, byteAt_copyPage _ _ _ aligned]
    by_cases head : (env.copyHead.headD .done).places = true ∧
        x / pageSize = roundUp s.file.size / pageSize
    · rw [if_pos head, if_neg fun other => fine other.1, if_pos ⟨copies, head⟩]
      rfl
    · rw [if_neg head, if_neg fun other => fine other.1, if_neg fun other => head other.2]
      rfl

end CopiedUp

/-! ## A failed copy -/

/-- The call has failed and left the parent as it was: version, log, lock, and every
block that some version resolves to. -/
structure Intact (s : State) (ret : Int) (s' : State) : Prop where
  fails : ret < 0
  version : s'.version = s.version
  log : s'.log = s.log
  tLocks : s'.tLocks = s.tLocks
  blocks : ∀ v blk p, resolve s.log s.origSize v blk = some p → ∀ i < pageSize,
    s'.file.byteAt (p * pageSize + i) = s.file.byteAt (p * pageSize + i)

/-- The byte that a write whose copies fail puts at an offset: of its data, at the
position of the request, or of a copy. -/
def strayByte (env : WriteEnv) (s : State) (w : WriteReq) (x : Nat) : Option UInt8 :=
  (landsAt w.pos (w.data.take (placedBytes env.pages w.pos w.count)) x).or
    (copiedByte env s w x)

/-- The write is inside its handle's transaction, its data loop ends before it reports
anything, and what is put in place until then is there already, in blocks that some
version resolves to. -/
structure ComesToNothing (env : WriteEnv) (s : State) (file : Handle) (w : WriteReq) : Prop where
  inside : selfTransactionStatus s file = .setTransaction
  unreported : reportedBytes env.pages w.pos w.count = 0
  same : ∀ v blk p, resolve s.log s.origSize v blk = some p → ∀ i < pageSize,
    ∀ b ∈ strayByte env s w (p * pageSize + i), b = s.file.byteAt (p * pageSize + i)

theorem heldLocks_eq_iff {s : State} {file : Handle} (ready : LockReady s file) :
    heldLocks s file = s.tLocks ↔ selfTransactionStatus s file = .setTransaction := by
  unfold heldLocks
  split
  case isTrue inside => exact ⟨fun _ => inside, fun _ => rfl⟩
  case isFalse outside =>
    refine ⟨fun same => ?_, fun inside => (outside inside).elim⟩
    rcases ready with inside | free
    · exact inside
    · rw [← same] at free
      cases free

theorem reply_neg_iff {outcomes : List PageOutcome} {f : ByteFile UInt8} {pos : Nat}
    {data : List UInt8} (nonempty : data ≠ []) :
    (writePages outcomes f pos data 0).reply < 0 ↔
      reportedBytes outcomes pos data.length = 0 := by
  have written := written_writePages outcomes f pos data 0
  rw [Nat.zero_add] at written
  unfold PageLoop.reply
  split
  case isTrue some =>
    rw [← written]
    constructor
    · intro negative
      omega
    · exact fun zero => (some zero).elim
  case isFalse nothing =>
    have nothing := not_not.mp nothing
    rw [← written]
    exact ⟨fun _ => nothing, fun _ => writePages_status nonempty nothing⟩

theorem byteAt_inPlaceLoop {env : WriteEnv} {s : State} {w : WriteReq}
    (failed : (copiedUp env s w).1 < 0) (x : Nat) :
    (inPlaceLoop env s w).file.byteAt x = (strayByte env s w x).getD (s.file.byteAt x) := by
  have count : w.data.length = w.count := rfl
  unfold inPlaceLoop strayByte
  rw [byteAt_writePages_eq, byteAt_copiedUp failed, count]
  cases landsAt w.pos (w.data.take (placedBytes env.pages w.pos w.count)) x with
  | none => rfl
  | some b => rfl

/-- A write one of whose copies fails returns, and leaves the parent intact exactly when it
comes to nothing. -/
theorem failed_copy_intact_iff {env : WriteEnv} {s : State} {file : Handle} {w : WriteReq}
    (ready : LockReady s file) (failed : (copiedUp env s w).1 < 0) :
    ∃ ret s', genericPerformWrite env s file w = some (ret, s') ∧
      (Intact s ret s' ↔ ComesToNothing env s file w) := by
  refine ⟨_, _, genericPerformWrite_of_failed ready failed, ?_⟩
  constructor
  · intro intact
    refine ⟨(heldLocks_eq_iff ready).mp intact.tLocks, (reply_neg_iff w.nonempty).mp intact.fails,
      fun v blk p found i below b stray => ?_⟩
    have byte := intact.blocks v blk p found i below
    rw [byteAt_inPlaceLoop failed, stray] at byte
    exact byte
  · intro nothing
    refine ⟨(reply_neg_iff w.nonempty).mpr nothing.unreported, ?_, ?_,
      (heldLocks_eq_iff ready).mpr nothing.inside, fun v blk p found i below => ?_⟩
    · rw [lookedUp_store]
    · rw [lookedUp_store]
    · dsimp only
      rw [byteAt_inPlaceLoop failed]
      cases stray : strayByte env s w (p * pageSize + i) with
      | none => rfl
      | some b => exact nothing.same v blk p found i below b stray

/-- One byte at the start of a parent of one page. -/
def firstByte : WriteReq := ⟨0, [1], by decide, by decide⟩

/-- The page that is overwritten in part cannot be read; `pages` is the data loop. -/
def unreadable (pages : List PageOutcome) : WriteEnv :=
  { WriteEnv.clean 0 with copyHead := [.readFailed], pages := pages }

/-- A handle inside its transaction on a parent of one page. -/
def begun : State :=
  { cloned (.blank pageSize) with handles := [0], tLocks := ⟨true, some 0, .setTransaction⟩ }

theorem failed_copy_intact_signal : ∃ ret s',
    genericPerformWrite (unreadable [.signal]) begun 0 firstByte = some (ret, s') ∧
    Intact begun ret s' := by
  have nothing (x : Nat) : strayByte (unreadable [.signal]) begun firstByte x = none := by
    unfold strayByte copiedByte
    simp only [show placedBytes (unreadable [.signal]).pages firstByte.pos firstByte.count = 0
      from rfl, List.take_zero, landsAt_nil, Option.none_or]
    rw [if_neg fun other => absurd other.2.1 (by decide),
      if_neg fun other => absurd other.2.1 (by decide)]
  have ready : LockReady begun 0 := .inl (by decide)
  have failed : (copiedUp (unreadable [.signal]) begun firstByte).1 < 0 := by decide
  obtain ⟨ret, s', done, intact⟩ := failed_copy_intact_iff ready failed
  refine ⟨ret, s', done, intact.mpr ⟨by decide, by decide, fun v blk p _ i _ b stray => ?_⟩⟩
  rw [nothing] at stray
  cases stray

/-- Outside of a transaction the lock stays taken, even if the data loop fails as well.
Inside of one the call succeeds if the data loop does, and overwrites the block that all
versions resolve to. -/
theorem failed_copy_intact_fails :
    (∃ s s' : State, ∃ ret, Run step (fun _ _ => True) (cloned (.blank pageSize)) [.openFile 0] s ∧
      (copiedUp (unreadable [.signal]) s firstByte).1 < 0 ∧
      step s (.write 0 firstByte (unreadable [.signal])) = some (ret, s') ∧
      s.tLocks.locked = false ∧ s'.tLocks.locked = true ∧ ¬ Intact s ret s') ∧
    ∃ s s' : State, ∃ ret, Run step (fun _ _ => True) (cloned (.blank pageSize))
        [.openFile 0, .beginTransaction 0 false] s ∧
      (copiedUp (unreadable [.copied 1]) s firstByte).1 < 0 ∧
      step s (.write 0 firstByte (unreadable [.copied 1])) = some (ret, s') ∧
      visibleByte s s.version 0 = some 0 ∧ visibleByte s' s.version 0 = some 1 ∧
      ¬ Intact s ret s' := by
  constructor
  · have found : (Run.exec step (fun _ _ => true) (cloned (.blank pageSize)) [.openFile 0]).any
        (fun s => decide ((copiedUp (unreadable [.signal]) s firstByte).1 < 0 ∧
          s.tLocks.locked = false) &&
        (step s (.write 0 firstByte (unreadable [.signal]))).any fun r =>
          r.2.tLocks.locked) = true := by
      decide +kernel
    obtain ⟨s, run, here⟩ := Run.exists_of_exec (fun _ _ _ _ => trivial) found
    obtain ⟨before, after⟩ := Bool.and_eq_true_iff.mp here
    obtain ⟨failed, free⟩ := of_decide_eq_true before
    obtain ⟨⟨ret, s'⟩, done, locked⟩ := (Option.any_eq_true _ _).mp after
    refine ⟨s, s', ret, run, failed, done, free, locked, fun intact => ?_⟩
    rw [← intact.tLocks, locked] at free
    cases free
  · have found : (Run.exec step (fun _ _ => true) (cloned (.blank pageSize))
        [.openFile 0, .beginTransaction 0 false]).any
        (fun s => decide ((copiedUp (unreadable [.copied 1]) s firstByte).1 < 0 ∧
          visibleByte s s.version 0 = some 0) &&
        (step s (.write 0 firstByte (unreadable [.copied 1]))).any fun r =>
          decide (r.1 = 1 ∧ visibleByte r.2 s.version 0 = some 1)) = true := by
      decide +kernel
    obtain ⟨s, run, here⟩ := Run.exists_of_exec (fun _ _ _ _ => trivial) found
    obtain ⟨before, after⟩ := Bool.and_eq_true_iff.mp here
    obtain ⟨failed, zero⟩ := of_decide_eq_true before
    obtain ⟨⟨ret, s'⟩, done, result⟩ := (Option.any_eq_true _ _).mp after
    obtain ⟨one, changed⟩ := of_decide_eq_true result
    refine ⟨s, s', ret, run, failed, done, zero, changed, fun intact => ?_⟩
    have negative := intact.fails
    dsimp only at one
    omega

end FlexClone.Scorw
