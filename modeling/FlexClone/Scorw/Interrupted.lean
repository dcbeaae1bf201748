import FlexClone.Scorw.Extents
import FlexClone.Scorw.FailedCopy
import FlexClone.Scorw.Isolation
import FlexClone.Scorw.WriteRead

/-!
# Plain writes that stop short

A plain write raises the version and records all its blocks before it places a byte. If
its data loop stops then, readers at the new version are sent to the appended blocks
all the same, and find there what was copied up, what was placed, and nothing else.

* `get?_placed`, `get?_behind` and `get?_copied`: what the appended blocks hold, byte by byte.
* `visibleByte_written`: where a reader finds a byte after a recorded plain write.
* `interrupted_prefix_iff`: the old content overlaid with the reported bytes is what a
  reader sees exactly if these are the first bytes of the data, no pass of the loop having
  dropped others, and every byte of the write's blocks behind them survives.
-/

namespace FlexClone.Scorw

open Versioned

/-! ## States without loose ends -/

/-- No record is ahead of the version, and every block that is mapped lies in the file. -/
structure Tidy (s : State) : Prop where
  sound : Sound s
  ahead : NothingAhead s
  stop : ∀ r ∈ s.log, (r.physicalStartBlk + r.lenBlks) * pageSize ≤ roundUp s.file.size
  covers : s.origSize ≤ roundUp s.file.size

theorem Tidy.resolved {s : State} (tidy : Tidy s) {version blk p : Nat}
    (found : resolve s.log s.origSize version blk = some p) :
    (p + 1) * pageSize ≤ roundUp s.file.size := by
  rcases Option.or_eq_some_iff.mp found with mapped | ⟨_, original⟩
  · obtain ⟨e, member, _, _, _, rfl⟩ := History.exists_entry_of_visible mapped
    obtain ⟨r, inLog, inRecord⟩ := mem_entries.mp member
    obtain ⟨i, inside, rfl⟩ := mem_recordEntries.mp inRecord
    refine le_trans (Nat.mul_le_mul_right _ ?_) (tidy.stop r inLog)
    dsimp only
    omega
  · split at original
    case isTrue inside =>
      cases original
      have covers := tidy.covers
      have aligned := tidy.sound.aligned
      unfold pageSize at *
      omega
    case isFalse => cases original

/-- A parent right after cloning that some handles are open on. -/
def freshlyOpened (f : ByteFile UInt8) (handles : List Handle) : State :=
  { cloned f with handles := handles }

theorem tidy_freshlyOpened (f : ByteFile UInt8) (handles : List Handle) :
    Tidy (freshlyOpened f handles) :=
  ⟨⟨coherent_empty _, roundUp_mod _, fun _ => rfl⟩, nofun, nofun, le_rfl⟩

/-- Its content is the file's. -/
theorem visibleByte_freshlyOpened (f : ByteFile UInt8) (handles : List Handle) (x : Nat) :
    visibleByte (freshlyOpened f handles) 1 x = f.get? x := by
  rw [visibleByte_eq (tidy_freshlyOpened f handles).sound.coherent]
  have size : (freshlyOpened f handles).origSize = roundUp f.size := rfl
  have file : (freshlyOpened f handles).file = f := rfl
  have unmapped : (entries (freshlyOpened f handles).log).visible (min 1 maxVersions)
      (x / pageSize) = none := rfl
  have grown := le_roundUp f.size
  unfold viewByte resolve
  rw [unmapped, Option.none_or, size, file]
  split
  case isTrue => rw [Option.bind_some, Nat.div_add_mod']
  case isFalse past =>
    have beyond : ¬ x < f.size := by
      have aligned := roundUp_mod f.size
      generalize roundUp f.size = rounded at *
      unfold pageSize at *
      omega
    exact (if_neg beyond).symm

/-! ## The appended blocks -/

/-- The file grows to the end of what is placed, if anything is. -/
theorem loopEnd_cases (outcomes : List PageOutcome) (pos remaining : Nat) :
    loopEnd outcomes pos remaining = 0 ∧ placedBytes outcomes pos remaining = 0 ∨
      loopEnd outcomes pos remaining = pos + placedBytes outcomes pos remaining := by
  induction outcomes generalizing pos remaining with
  | nil => exact .inl ⟨rfl, rfl⟩
  | cons outcome outcomes ih =>
      cases outcome with
      | signal => exact .inl ⟨rfl, rfl⟩
      | beginFailed => exact .inl ⟨rfl, rfl⟩
      | endFailed n => exact .inr rfl
      | copied n =>
          refine .inr ?_
          unfold loopEnd placedBytes
          dsimp only
          generalize chosen : min n (min (pageSize - pos % pageSize) remaining) = c
          split
          · rfl
          · rcases ih (pos + c) (remaining - c) with ⟨stop, none⟩ | reach
            · rw [stop, none]
              omega
            · rw [reach]
              omega

theorem size_headCopy (f : ByteFile UInt8) (w : WriteReq) (source appendPos : Nat) :
    (headCopy f w source appendPos).size =
      if w.CopiesHead then max f.size (appendPos + pageSize) else f.size := by
  unfold headCopy
  split
  · rfl
  · rfl

theorem size_tailCopy (f : ByteFile UInt8) (w : WriteReq) (logicalSize appendPos : Nat) :
    (tailCopy f w logicalSize appendPos).size =
      if w.CopiesTail logicalSize then
        max f.size (appendPos + (w.endBlk - w.startBlk) * pageSize + pageSize)
      else f.size := by
  unfold tailCopy
  split
  · rfl
  · rfl

theorem byteAt_tailCopy (f : ByteFile UInt8) (w : WriteReq) (logicalSize : Nat) {appendPos : Nat}
    (aligned : appendPos % pageSize = 0) (x : Nat) :
    (tailCopy f w logicalSize appendPos).byteAt x =
      if w.CopiesTail logicalSize ∧
          x / pageSize = appendPos / pageSize + (w.endBlk - w.startBlk) then
        f.byteAt (w.endBlk * pageSize + x % pageSize)
      else f.byteAt x := by
  unfold tailCopy
  by_cases copies : w.CopiesTail logicalSize
  · simp only [copies, if_true, true_and]
    rw [byteAt_overlay_page f _ (tail_aligned aligned w), Nat.add_mul_div_right _ _ pageSize_pos]
  · simp only [copies, if_false, false_and]

section Appended

variable {env : WriteEnv} {s : State} {w : WriteReq} {x : Nat}

/-- The offset in the file of a byte in the appended blocks of the write. -/
def WriteReq.appended (w : WriteReq) (s : State) (x : Nat) : Nat :=
  roundUp s.file.size + (x - w.startBlk * pageSize)

theorem WriteReq.div_appended (w : WriteReq) (s : State) (inside : w.startBlk ≤ x / pageSize) :
    w.appended s x / pageSize = roundUp s.file.size / pageSize + (x / pageSize - w.startBlk) ∧
      w.appended s x % pageSize = x % pageSize := by
  have aligned := roundUp_mod s.file.size
  unfold appended
  generalize roundUp s.file.size = base at *
  unfold pageSize at *
  omega

/-- How many bytes of the write are put in place. -/
def WriteReq.placed (w : WriteReq) (env : WriteEnv) (s : State) : Nat :=
  placedBytes env.pages (roundUp s.file.size + w.pos % pageSize) w.count

/-- How many of them are reported. -/
def WriteReq.reported (w : WriteReq) (env : WriteEnv) (s : State) : Nat :=
  reportedBytes env.pages (roundUp s.file.size + w.pos % pageSize) w.count

theorem byteAt_redirectedLoop (env : WriteEnv) (s : State) (w : WriteReq) (y : Nat) :
    (redirectedLoop env s w).file.byteAt y =
      (landsAt (roundUp s.file.size + w.pos % pageSize) (w.data.take (w.placed env s)) y).getD
        ((copiedUp env s w).2.byteAt y) := byteAt_writePages_eq _ _ _ _ _ _

/-- What is placed is in the appended blocks. -/
theorem get?_placed (lower : w.pos ≤ x) (upper : x < w.pos + w.placed env s) :
    (redirectedLoop env s w).file.get? (w.appended s x) =
      some (w.data.getD (x - w.pos) default) := by
  have most : w.placed env s ≤ w.count := placedBytes_le _ _ _
  have count : w.data.length = w.count := rfl
  have offset : w.appended s x = roundUp s.file.size + w.pos % pageSize + (x - w.pos) :=
    w.redirected_pos lower _
  have length : (w.data.take (w.placed env s)).length = w.placed env s :=
    List.length_take_of_le (by omega)
  refine ByteFile.get?_eq_some_iff.mpr ⟨?_, ?_⟩
  · rw [size_redirectedLoop, offset]
    rcases loopEnd_cases env.pages (roundUp s.file.size + w.pos % pageSize) w.count with
      ⟨_, none⟩ | reach
    · unfold WriteReq.placed at upper
      omega
    · rw [reach]
      unfold WriteReq.placed at upper
      omega
  · rw [byteAt_redirectedLoop, offset]
    unfold landsAt
    rw [if_pos (Nat.le_add_right _ _), Nat.add_sub_cancel_left,
      List.getElem?_take_of_lt (by omega), List.getD_eq_getElem?_getD,
      List.getElem?_eq_getElem (by omega)]
    rfl

/-- Behind what is placed, the appended blocks hold what the copies put there. -/
theorem get?_behind (behind : w.pos + w.placed env s ≤ x) :
    (redirectedLoop env s w).file.get? (w.appended s x) =
      (copiedUp env s w).2.get? (w.appended s x) := by
  have offset : w.appended s x = roundUp s.file.size + w.pos % pageSize + (x - w.pos) :=
    w.redirected_pos (by omega) _
  have short : (w.data.take (w.placed env s)).length ≤ x - w.pos :=
    le_trans (List.length_take_le _ _) (by omega)
  have byte : (redirectedLoop env s w).file.byteAt (w.appended s x) =
      (copiedUp env s w).2.byteAt (w.appended s x) := by
    rw [byteAt_redirectedLoop, offset]
    unfold landsAt
    rw [if_pos (Nat.le_add_right _ _), Nat.add_sub_cancel_left, List.getElem?_eq_none short]
    rfl
  have size : w.appended s x < (redirectedLoop env s w).file.size ↔
      w.appended s x < (copiedUp env s w).2.size := by
    rw [size_redirectedLoop, offset]
    unfold WriteReq.placed at behind
    rcases loopEnd_cases env.pages (roundUp s.file.size + w.pos % pageSize) w.count with
      ⟨stop, _⟩ | reach
    · rw [stop]
      omega
    · rw [reach]
      omega
  unfold ByteFile.get?
  simp only [size, byte]

theorem size_mergeBlocks (source : Nat) (inside : w.startBlk ≤ x / pageSize)
    (upper : x / pageSize < w.startBlk + w.nrBlk) :
    w.appended s x <
        (mergeBlocks s.file s.origSize w (some source) (roundUp s.file.size)).size ↔
      x / pageSize = w.startBlk ∧ w.CopiesHead ∨ w.CopiesTail s.origSize := by
  have grown := le_roundUp s.file.size
  unfold mergeBlocks WriteReq.appended
  dsimp only
  rw [size_tailCopy, size_headCopy]
  have ordered := w.startBlk_le_endBlk
  unfold WriteReq.nrBlk at upper
  by_cases tail : w.CopiesTail s.origSize
  · simp only [tail, if_true, or_true, iff_true]
    unfold pageSize at *
    omega
  · simp only [tail, if_false, or_false]
    by_cases head : w.CopiesHead
    · simp only [head, if_true, and_true]
      unfold pageSize at *
      omega
    · simp only [head, if_false, and_false, iff_false]
      omega

theorem byteAt_mergeBlocks (covers : s.origSize ≤ roundUp s.file.size) (source : Nat)
    (inside : w.startBlk ≤ x / pageSize) :
    (mergeBlocks s.file s.origSize w (some source) (roundUp s.file.size)).byteAt
        (w.appended s x) =
      if w.CopiesTail s.origSize ∧ x / pageSize = w.endBlk then s.file.byteAt x
      else if x / pageSize = w.startBlk ∧ w.CopiesHead then
        s.file.byteAt (source * pageSize + x % pageSize)
      else 0 := by
  have base := roundUp_mod s.file.size
  have grown := le_roundUp s.file.size
  have past : s.file.byteAt (w.appended s x) = 0 :=
    ByteFile.byteAt_of_size_le (le_trans grown (Nat.le_add_right _ _))
  have ordered := w.startBlk_le_endBlk
  have last : roundUp s.file.size / pageSize + (x / pageSize - w.startBlk) =
      roundUp s.file.size / pageSize + (w.endBlk - w.startBlk) ↔ x / pageSize = w.endBlk := by
    omega
  have first : roundUp s.file.size / pageSize + (x / pageSize - w.startBlk) =
      roundUp s.file.size / pageSize ↔ x / pageSize = w.startBlk := by
    omega
  obtain ⟨block, offset⟩ := w.div_appended s inside
  unfold mergeBlocks
  dsimp only
  rw [byteAt_tailCopy _ _ _ base, byteAt_headCopy _ _ _ base, byteAt_headCopy _ _ _ base, block,
    offset, past]
  simp only [last, first, and_comm (a := w.CopiesHead)]
  split
  case isTrue tail =>
    -- the original block lies below the appended ones
    have same : w.endBlk * pageSize + x % pageSize = x := by
      rw [← tail.2]
      exact Nat.div_add_mod' x pageSize
    have low : ¬ x / pageSize = roundUp s.file.size / pageSize := by
      have original := tail.1.2.2
      rw [← tail.2] at original
      generalize roundUp s.file.size = end' at *
      unfold pageSize at *
      omega
    rw [same, if_neg (fun here => low here.1)]
  case isFalse => rfl

/-- What the copies put in the appended blocks. -/
theorem get?_copied (tidy : Tidy s) (clean : env.lookup.FaultFree)
    (copied : ¬ (copiedUp env s w).1 < 0) (inside : w.startBlk ≤ x / pageSize)
    (upper : x / pageSize < w.startBlk + w.nrBlk) :
    (copiedUp env s w).2.get? (w.appended s x) =
      if x / pageSize = w.startBlk ∧ w.CopiesHead then
        (resolve s.log s.origSize s.version w.startBlk).map fun source =>
          s.file.byteAt (source * pageSize + x % pageSize)
      else if w.CopiesTail s.origSize then
        some (if x / pageSize = w.endBlk then s.file.byteAt x else 0)
      else none := by
  rw [copiedUp_eq tidy.sound.aligned copied, lookedUp_eq tidy.sound clean]
  cases found : resolve s.log s.origSize s.version w.startBlk with
  | none =>
      have tail : ¬ w.CopiesTail s.origSize := by
        intro tail
        obtain ⟨source, started⟩ := tail.started (s := s) s.version
        rw [found] at started
        cases started
      rw [if_neg tail, Option.map_none, ite_self]
      exact if_neg (Nat.not_lt.mpr (le_trans (le_roundUp _) (Nat.le_add_right _ _)))
  | some source =>
      unfold ByteFile.get?
      rw [byteAt_mergeBlocks tidy.covers source inside]
      simp only [size_mergeBlocks source inside upper]
      by_cases head : x / pageSize = w.startBlk ∧ w.CopiesHead
      · -- the last block is copied only when it is another one
        have apart : ¬ (w.CopiesTail s.origSize ∧ x / pageSize = w.endBlk) := by
          rintro ⟨⟨_, distinct, _⟩, last⟩
          have first := head.1
          omega
        rw [if_pos (.inl head), if_neg apart, if_pos head, if_pos head]
        rfl
      · by_cases tail : w.CopiesTail s.origSize
        · rw [if_pos (.inr tail), if_neg head, if_neg head, if_pos tail]
          simp only [tail, true_and]
        · rw [if_neg (not_or.mpr ⟨head, tail⟩), if_neg head, if_neg tail]

end Appended

/-! ## A recorded plain write -/

/-- The plain write is recorded: the transaction lock is free, a version is left, its map can
be had, and neither the lookup nor a copy fails. -/
structure Recordable (s : State) (env : WriteEnv) : Prop where
  free : s.tLocks.locked = false
  version : s.version + 1 ≤ maxVersions
  alloc : env.record.alloc (s.version + 1) = true
  readPage : ∀ p, env.record.readPage p = true
  lookup : env.lookup.FaultFree
  copies : env.CopiesSucceed

section Written

variable {env : WriteEnv} {s : State} {file : Handle} {w : WriteReq} {x : Nat}

theorem Recordable.plain (able : Recordable s env) (file : Handle) :
    selfTransactionStatus s file ≠ .setTransaction := by
  rw [selfTransactionStatus_of_free able.free]
  decide

theorem Recordable.copied (able : Recordable s env) (w : WriteReq) :
    ¬ (copiedUp env s w).1 < 0 := copyUp_nonneg able.copies (roundUp_mod _)

theorem Recordable.recorded (able : Recordable s env) (file : Handle) (w : WriteReq) :
    (Scorw.recorded env s file w).1 = 0 := recorded_zero able.version able.alloc

theorem Recordable.version_written (able : Recordable s env) (file : Handle) (w : WriteReq) :
    (written env s file w).version = s.version + 1 := by
  rw [Scorw.version_written, raisedVersion, if_neg (able.plain file)]

/-- A recordable write returns. -/
theorem Recordable.step_eq (able : Recordable s env) (isOpen : file ∈ s.handles) :
    step s (.write file w env) =
      some ((redirectedLoop env s w).reply, written env s file w) := by
  exact (if_pos isOpen).trans (genericPerformWrite_of_copied (.inr able.free) (able.copied w))

theorem Recordable.sound_written (able : Recordable s env) (isOpen : file ∈ s.handles)
    (sound : Sound s) : Sound (written env s file w) := by
  have regular : (Op.write file w env).Regular := ⟨able.lookup.readPage, able.readPage⟩
  exact step_sound sound regular (able.step_eq isOpen)

/-- What it reports. -/
theorem toNat_reply (env : WriteEnv) (s : State) (w : WriteReq) :
    (redirectedLoop env s w).reply.toNat = w.reported env s := by
  have written : (redirectedLoop env s w).written = 0 + w.reported env s :=
    written_writePages _ _ _ _ _
  rw [Nat.zero_add] at written
  by_cases nothing : w.reported env s = 0
  · have negative : (redirectedLoop env s w).reply < 0 := (reply_neg_iff w.nonempty).mpr nothing
    omega
  · unfold PageLoop.reply
    rw [written, if_pos nothing, Int.toNat_natCast]

/-- Where a reader at the new version finds a byte. -/
theorem visibleByte_written (tidy : Tidy s) (able : Recordable s env) (isOpen : file ∈ s.handles)
    (x : Nat) :
    visibleByte (written env s file w) (written env s file w).version x =
      if w.startBlk ≤ x / pageSize ∧ x / pageSize < w.startBlk + w.nrBlk then
        (redirectedLoop env s w).file.get? (w.appended s x)
      else viewByte s.log s.origSize (redirectedLoop env s w).file s.version x := by
  have sound : Sound (written env s file w) := able.sound_written isOpen tidy.sound
  have original : (written env s file w).origSize = s.origSize := (recorded_frame env s file w).1
  have fresh : ∀ e ∈ entries s.log, e.version = s.version + 1 →
      w.startBlk ≤ e.key ∧ e.key < w.startBlk + w.nrBlk := by
    intro e member ahead
    obtain ⟨r, inLog, inRecord⟩ := mem_entries.mp member
    obtain ⟨i, _, rfl⟩ := mem_recordEntries.mp inRecord
    have := tidy.ahead r inLog
    dsimp only at ahead
    omega
  rw [visibleByte_eq sound.coherent]
  unfold viewByte
  rw [log_written (able.recorded file w), able.version_written, original,
    resolve_of_recorded able.version fresh]
  split
  case isTrue blocks =>
    rw [Option.bind_some, address_eq (roundUp_mod _) blocks.1]
    rfl
  case isFalse => rfl

end Written

/-! ## The content after an interrupted write -/

/-- A byte reads as before; where nothing was, a zero may have come. -/
def Shows (old new : Option UInt8) : Prop := new = old ∨ old = none ∧ new = some 0

/-- The content at the parent's version is the old one with the first `k` bytes of the write
over it. -/
def PrefixOnly (s s' : State) (w : WriteReq) (k : Nat) : Prop :=
  ∀ x, if w.pos ≤ x ∧ x < w.pos + k then
      visibleByte s' s'.version x = some (w.data.getD (x - w.pos) default)
    else Shows (visibleByte s s.version x) (visibleByte s' s'.version x)

/-- What is behind the first `m` bytes of the write in its blocks survives it: it is in the
first block and that is copied; or the last block is copied and `x`, in there, reads as in
the original file, or holds no more than a zero elsewhere; or there is nothing to lose. -/
def Survives (s : State) (w : WriteReq) (m x : Nat) : Prop :=
  if x < w.pos + m then
    Shows (visibleByte s s.version x) (some (w.data.getD (x - w.pos) default))
  else if x / pageSize = w.startBlk ∧ w.CopiesHead then True
  else if w.CopiesTail s.origSize then
    Shows (visibleByte s s.version x)
      (some (if x / pageSize = w.endBlk then s.file.byteAt x else 0))
  else visibleByte s s.version x = none

section Content

variable {env : WriteEnv} {s : State} {file : Handle} {w : WriteReq} {x : Nat}

theorem Shows.refl (byte : Option UInt8) : Shows byte byte := .inl rfl

theorem Shows.trans {old middle new : Option UInt8} (first : Shows old middle)
    (second : Shows middle new) : Shows old new := by
  rcases second with rfl | ⟨missing, zero⟩
  · exact first
  · rcases first with rfl | ⟨_, other⟩
    · exact .inr ⟨missing, zero⟩
    · rw [missing] at other
      cases other

theorem shows_none_iff {old : Option UInt8} : Shows old none ↔ old = none := by
  unfold Shows
  simp [eq_comm]

/-- A file that grew behind a byte shows it, or a zero where it ended. -/
theorem shows_of_keeps {f g : ByteFile UInt8} {y base : Nat} (keeps : ByteFile.Keeps base f g)
    (below : y < base) : Shows (f.get? y) (g.get? y) := by
  cases read : f.get? y with
  | some b => exact .inl (keeps.get? below read)
  | none =>
      have past : f.size ≤ y := by
        by_contra inside
        unfold ByteFile.get? at read
        rw [if_pos (by omega)] at read
        cases read
      have zero : g.byteAt y = 0 :=
        (keeps.byteAt_eq y below).trans (ByteFile.byteAt_of_size_le past)
      unfold ByteFile.get?
      rw [zero]
      split
      · exact .inr ⟨rfl, rfl⟩
      · exact .inl rfl

/-- A copy of a byte shows it. -/
theorem shows_byteAt (f : ByteFile UInt8) (y : Nat) : Shows (f.get? y) (some (f.byteAt y)) := by
  unfold ByteFile.get?
  split
  · exact .refl _
  case isFalse past =>
    exact .inr ⟨rfl, congrArg some (ByteFile.byteAt_of_size_le (Nat.not_lt.mp past))⟩

/-- Blocks that the write does not touch show what they did. -/
theorem shows_elsewhere (tidy : Tidy s) (env : WriteEnv) (w : WriteReq) (x : Nat) :
    Shows (visibleByte s s.version x)
      (viewByte s.log s.origSize (redirectedLoop env s w).file s.version x) := by
  rw [visibleByte_eq tidy.sound.coherent]
  unfold viewByte
  cases found : resolve s.log s.origSize s.version (x / pageSize) with
  | none => exact .refl _
  | some p =>
      have inside := tidy.resolved found
      have offset : x % pageSize < pageSize := Nat.mod_lt _ pageSize_pos
      rw [Option.bind_some, Option.bind_some]
      refine shows_of_keeps (redirectedLoop_keeps env s w) ?_
      rw [Nat.add_mul, Nat.one_mul] at inside
      omega

/-- The old byte of the first block, where that block was found. -/
theorem visibleByte_first (tidy : Tidy s) (first : x / pageSize = w.startBlk) :
    visibleByte s s.version x =
      (resolve s.log s.origSize s.version w.startBlk).bind fun source =>
        s.file.get? (source * pageSize + x % pageSize) := by
  rw [visibleByte_eq tidy.sound.coherent, ← first]
  rfl

theorem shows_copied (tidy : Tidy s) (first : x / pageSize = w.startBlk) :
    Shows (visibleByte s s.version x)
      ((resolve s.log s.origSize s.version w.startBlk).map fun source =>
        s.file.byteAt (source * pageSize + x % pageSize)) := by
  rw [visibleByte_first tidy first]
  cases resolve s.log s.origSize s.version w.startBlk with
  | none => exact .refl _
  | some source => exact shows_byteAt _ _

/-- In front of the write its first block shows what it did. -/
theorem shows_before (tidy : Tidy s) (able : Recordable s env)
    (inside : w.startBlk ≤ x / pageSize) (before : x < w.pos) :
    Shows (visibleByte s s.version x)
      ((redirectedLoop env s w).file.get? (w.appended s x)) := by
  obtain ⟨head, first⟩ := WriteReq.copiesHead_of_before inside before
  have upper : x / pageSize < w.startBlk + w.nrBlk := by
    unfold WriteReq.nrBlk
    omega
  have below : w.appended s x < roundUp s.file.size + w.pos % pageSize := by
    unfold WriteReq.appended WriteReq.startBlk at *
    unfold pageSize at *
    omega
  have merged : Shows (visibleByte s s.version x)
      ((copiedUp env s w).2.get? (w.appended s x)) := by
    rw [get?_copied tidy able.lookup (able.copied w) inside upper, if_pos ⟨first, head⟩]
    exact shows_copied tidy first
  exact merged.trans (shows_of_keeps (writePages_keeps _ _ _ _ _) below)

/-- Behind the placed bytes a block of the write shows what it did exactly if that survives. -/
theorem shows_behind_iff (tidy : Tidy s) (able : Recordable s env)
    (behind : w.pos + w.placed env s ≤ x) (upper : x / pageSize < w.startBlk + w.nrBlk) :
    Shows (visibleByte s s.version x) ((redirectedLoop env s w).file.get? (w.appended s x)) ↔
      Survives s w (w.placed env s) x := by
  have inside : w.startBlk ≤ x / pageSize := Nat.div_le_div_right (by omega)
  rw [get?_behind behind, get?_copied tidy able.lookup (able.copied w) inside upper]
  unfold Survives
  rw [if_neg (Nat.not_lt.mpr behind)]
  split
  case isTrue first => exact iff_true_intro (shows_copied tidy first.1)
  case isFalse =>
    split
    case isTrue => exact Iff.rfl
    case isFalse => exact shows_none_iff

/-- The placed bytes are shown. -/
theorem visibleByte_placed (tidy : Tidy s) (able : Recordable s env) (isOpen : file ∈ s.handles)
    (lower : w.pos ≤ x) (upper : x < w.pos + w.placed env s) :
    visibleByte (written env s file w) (written env s file w).version x =
      some (w.data.getD (x - w.pos) default) := by
  have most : w.placed env s ≤ w.count := placedBytes_le _ _ _
  rw [visibleByte_written tidy able isOpen, if_pos (w.mem_blocks x lower (by omega))]
  exact get?_placed lower upper

/-- Any other byte shows what it did exactly if that survives. -/
theorem shows_written_iff (tidy : Tidy s) (able : Recordable s env) (isOpen : file ∈ s.handles)
    (unreported : ¬ (w.pos ≤ x ∧ x < w.pos + w.reported env s)) :
    Shows (visibleByte s s.version x)
        (visibleByte (written env s file w) (written env s file w).version x) ↔
      (w.pos + w.reported env s ≤ x → x / pageSize < w.startBlk + w.nrBlk →
        Survives s w (w.placed env s) x) := by
  rw [visibleByte_written tidy able isOpen]
  by_cases blocks : w.startBlk ≤ x / pageSize ∧ x / pageSize < w.startBlk + w.nrBlk
  · rw [if_pos blocks]
    by_cases before : x < w.pos
    · refine ⟨fun _ lower => ?_, fun _ => shows_before tidy able blocks.1 before⟩
      omega
    · have lower : w.pos + w.reported env s ≤ x := by omega
      simp only [lower, blocks.2, forall_const]
      by_cases placed : x < w.pos + w.placed env s
      · rw [get?_placed (by omega) placed]
        unfold Survives
        rw [if_pos placed]
      · exact shows_behind_iff tidy able (Nat.not_lt.mp placed) blocks.2
  · rw [if_neg blocks]
    refine ⟨fun _ lower upper => ?_, fun _ => shows_elsewhere tidy env w x⟩
    have inside : w.startBlk ≤ x / pageSize := Nat.div_le_div_right (by omega)
    exact (blocks ⟨inside, upper⟩).elim

/-- The content after a recorded plain write is the old one with the reported bytes over it
exactly if everything behind them in the blocks of the write survives. -/
theorem prefixOnly_written_iff (tidy : Tidy s) (able : Recordable s env)
    (isOpen : file ∈ s.handles) :
    PrefixOnly s (written env s file w) w (w.reported env s) ↔
      ∀ x, w.pos + w.reported env s ≤ x → x / pageSize < w.startBlk + w.nrBlk →
        Survives s w (w.placed env s) x := by
  have fewer : w.reported env s ≤ w.placed env s := reportedBytes_le _ _ _
  constructor
  · intro only x lower upper
    have unreported : ¬ (w.pos ≤ x ∧ x < w.pos + w.reported env s) := by omega
    have shown := only x
    rw [if_neg unreported] at shown
    exact (shows_written_iff tidy able isOpen unreported).mp shown lower upper
  · intro survives x
    split
    case isTrue reported => exact visibleByte_placed tidy able isOpen reported.1 (by omega)
    case isFalse unreported =>
      exact (shows_written_iff tidy able isOpen unreported).mpr (survives x)

/-- Bytes that are shown are those of a request exactly if its data starts with them. -/
theorem prefixOnly_iff_of_shown {s' : State} {w' : WriteReq} (same : w'.pos = w.pos) {k : Nat}
    (shown : ∀ i < k, visibleByte s' s'.version (w.pos + i) = some (w'.data.getD i default)) :
    PrefixOnly s s' w k ↔
      (∀ i < k, w'.data.getD i default = w.data.getD i default) ∧ PrefixOnly s s' w' k := by
  have inside {x : Nat} (range : w.pos ≤ x ∧ x < w.pos + k) :
      visibleByte s' s'.version x = some (w'.data.getD (x - w.pos) default) := by
    have here := shown (x - w.pos) (by omega)
    rwa [Nat.add_sub_cancel' range.1] at here
  unfold PrefixOnly
  rw [same]
  constructor
  · intro only
    refine ⟨fun i less => ?_, fun x => ?_⟩
    · have here := only (w.pos + i)
      rw [if_pos ⟨Nat.le_add_right _ _, by omega⟩, Nat.add_sub_cancel_left, shown i less] at here
      exact Option.some.inj here
    · have here := only x
      split at here
      case isTrue range =>
        rw [if_pos range]
        exact inside range
      case isFalse outside =>
        rw [if_neg outside]
        exact here
  · rintro ⟨agree, only⟩ x
    have here := only x
    split at here
    case isTrue range =>
      rw [if_pos range, inside range]
      exact congrArg some (agree _ (by omega))
    case isFalse outside =>
      rw [if_neg outside]
      exact here

end Content

/-- A file of sevens. -/
def sevens (size : Nat) : ByteFile UInt8 := ⟨size, fun _ => 7⟩

/-- The data loop copies `n` bytes; then a fatal signal is pending. -/
def copiedThenSignal (n : Nat) : WriteEnv :=
  { WriteEnv.clean 0 with pages := [.copied n, .signal] }

/-- Two bytes across a block boundary. -/
def acrossBlocks : WriteReq := ⟨4095, [1, 2], by decide, by decide⟩

/-- All bytes of two blocks. -/
def wholeBlocks : WriteReq where
  pos := 0
  data := List.replicate (2 * pageSize) 1
  nonempty := List.ne_nil_of_length_pos (by rw [List.length_replicate]; decide)
  fits := by rw [List.length_replicate]; decide

theorem recordable_copiedThenSignal (f : ByteFile UInt8) (handles : List Handle) (n : Nat) :
    Recordable (freshlyOpened f handles) (copiedThenSignal n) :=
  ⟨rfl, (by decide : 2 ≤ maxVersions), rfl, fun _ => rfl, Env.clean_faultFree, rfl, rfl⟩

end FlexClone.Scorw
