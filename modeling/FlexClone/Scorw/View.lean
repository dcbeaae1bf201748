import FlexClone.Scorw.System

/-!
# What a reader sees

`readByte` resolves a byte offset through `lookupPhysicalBlock` and reads the
parent's file there; `visibleByte` does so without faults. `viewByte` is the same
from the log alone; in a sound state the two agree (`visibleByte_eq`).

The rest of the module says what a redirected write does to the view: where its
bytes are (`get?_acked`) and what the copies put around them
(`get?_mergeBlocks`).
-/

namespace FlexClone.Scorw

open Versioned

/-- The byte a reader at `version` finds at offset `x`; `none` when the block does
not resolve or the parent's file ends before it. -/
def readByte (env : Env) (s : State) (version x : Nat) : Option UInt8 :=
  (lookupPhysicalBlock env s.toVersionStore version (x / pageSize)).1.bind fun blk =>
    s.file.get? (blk * pageSize + x % pageSize)

/-- The byte found by a lookup without faults. -/
def visibleByte (s : State) (version x : Nat) : Option UInt8 := readByte .clean s version x

/-- The same from the log alone. -/
def viewByte (log : List LogRecord) (origSize : Nat) (f : ByteFile UInt8) (version x : Nat) :
    Option UInt8 :=
  (resolve log origSize version (x / pageSize)).bind fun blk =>
    f.get? (blk * pageSize + x % pageSize)

theorem visibleByte_eq {s : State} (coherent : Coherent s.log s.cache) (version x : Nat) :
    visibleByte s version x = viewByte s.log s.origSize s.file version x := by
  unfold visibleByte readByte viewByte
  rw [lookupPhysicalBlock_eq Env.clean_faultFree coherent]

theorem viewByte_eq_some_iff {log : List LogRecord} {origSize version x : Nat}
    {f : ByteFile UInt8} {b : UInt8} :
    viewByte log origSize f version x = some b ↔
      ∃ blk, resolve log origSize version (x / pageSize) = some blk ∧
        f.get? (blk * pageSize + x % pageSize) = some b := Option.bind_eq_some_iff

/-! ## Addresses of a redirected write -/

/-- A block of the run that is appended at `base` lies at its distance from the
first block of the run. -/
theorem address_eq {base firstBlk x : Nat} (aligned : base % pageSize = 0)
    (inside : firstBlk ≤ x / pageSize) :
    (base / pageSize + (x / pageSize - firstBlk)) * pageSize + x % pageSize =
      base + (x - firstBlk * pageSize) := by
  unfold pageSize at *
  omega

/-- The redirected position of a byte of the request. -/
theorem WriteReq.redirected_pos (w : WriteReq) {x : Nat} (lower : w.pos ≤ x) (base : Nat) :
    base + (x - w.startBlk * pageSize) = base + w.pos % pageSize + (x - w.pos) := by
  unfold WriteReq.startBlk pageSize
  omega

/-! ## The file of a redirected write -/

/-- Without faults the first block is looked up correctly. -/
theorem lookedUp_eq {env : WriteEnv} {s : State} (sound : Sound s)
    (clean : env.lookup.FaultFree) (w : WriteReq) :
    (lookedUp env s w).1 = resolve s.log s.origSize s.version w.startBlk :=
  lookupPhysicalBlock_eq clean sound.coherent _ _

/-- A block that was not found lies past the original file. -/
theorem beyond_of_lookedUp {env : WriteEnv} {s : State} (aligned : s.origSize % pageSize = 0)
    {w : WriteReq} (missing : (lookedUp env s w).1 = none) : s.origSize ≤ w.pos := by
  unfold lookedUp lookupPhysicalBlock WriteReq.startBlk at missing
  split at missing
  · cases missing
  · dsimp only at missing
    split at missing
    · cases missing
    · unfold pageSize at *
      omega

/-- A redirected write starts from the merged file. -/
theorem copiedUp_eq {env : WriteEnv} {s : State} (aligned : s.origSize % pageSize = 0)
    {w : WriteReq} (copied : ¬ (copiedUp env s w).1 < 0) :
    (copiedUp env s w).2 =
      mergeBlocks s.file s.origSize w (lookedUp env s w).1 (roundUp s.file.size) :=
  copyUp_of_nonneg (roundUp_mod _) (beyond_of_lookedUp aligned) copied

theorem copiedUp_keeps (env : WriteEnv) (s : State) (w : WriteReq) :
    ByteFile.Keeps (roundUp s.file.size) s.file (copiedUp env s w).2 :=
  copyUp_keeps (roundUp_mod _)

theorem redirectedLoop_keeps (env : WriteEnv) (s : State) (w : WriteReq) :
    ByteFile.Keeps (roundUp s.file.size) s.file (redirectedLoop env s w).file :=
  (copiedUp_keeps env s w).trans
    ((writePages_keeps _ _ _ _ _).mono (Nat.le_add_right _ _))

/-- The bytes a redirected write reports are at the redirected position. -/
theorem get?_acked {env : WriteEnv} {s : State} {w : WriteReq} {n i : Nat} (acked : i < n)
    (reply : (redirectedLoop env s w).reply = n) :
    (redirectedLoop env s w).file.get? (roundUp s.file.size + w.pos % pageSize + i) =
      some (w.data.getD i default) := by
  obtain ⟨_, size, value⟩ := byteAt_writePages w.nonempty (Nat.zero_lt_of_lt acked) reply acked
  refine ByteFile.get?_eq_some_iff.mpr ⟨?_, value⟩
  unfold redirectedLoop
  omega

/-! ## The state after a recorded write -/

section Recorded

variable {env : WriteEnv} {s : State} {file : Handle} {w : WriteReq}

/-- The state a recorded, redirected write leaves. -/
def written (env : WriteEnv) (s : State) (file : Handle) (w : WriteReq) : State :=
  { s with
    toVersionStore := (recorded env s file w).2
    file := (redirectedLoop env s w).file
    tLocks := releasedLocks s file }

theorem version_written (env : WriteEnv) (s : State) (file : Handle) (w : WriteReq) :
    (written env s file w).version = raisedVersion s file := (recorded_frame env s file w).2

theorem log_written (zero : (recorded env s file w).1 = 0) :
    (written env s file w).log = appendRecord s.log (s.version + 1) w.startBlk
      (roundUp s.file.size / pageSize) w.nrBlk := (recorded_log_of_zero zero).1

/-- A write logs at most one record. -/
theorem WriteResult.length_log_le {ret : Int} {s' : State}
    (result : WriteResult env s file w ret s') : s'.log.length ≤ s.log.length + 1 := by
  cases result with
  | refused outside => exact Nat.le_succ _
  | inPlace ready failed =>
      rw [lookedUp_store]
      exact Nat.le_succ _
  | redirected ready copied =>
      by_cases zero : (recorded env s file w).1 = 0
      · dsimp only
        rw [(recorded_log_of_zero zero).1]
        exact (List.length_append).le
      · dsimp only
        rw [recorded_log_of_ne zero]
        exact Nat.le_succ _

/-- A write that logs a record is redirected and recorded. -/
theorem WriteResult.eq_written {ret : Int} {s' : State} (result : WriteResult env s file w ret s')
    (logged : s'.log.length = s.log.length + 1) :
    LockReady s file ∧ ¬ (copiedUp env s w).1 < 0 ∧ (recorded env s file w).1 = 0 ∧
      ret = (redirectedLoop env s w).reply ∧ s' = written env s file w := by
  cases result with
  | refused outside => omega
  | inPlace ready failed =>
      rw [lookedUp_store] at logged
      dsimp only at logged
      omega
  | redirected ready copied =>
      exact ⟨ready, copied, recorded_zero_of_length logged, rfl, rfl⟩

theorem delta_written (zero : (recorded env s file w).1 = 0) (blk : Nat) :
    History.delta (entries (written env s file w).log) (s.version + 1) blk =
      if w.startBlk ≤ blk ∧ blk < w.startBlk + w.nrBlk then
        some (roundUp s.file.size / pageSize + (blk - w.startBlk))
      else History.delta (entries s.log) (s.version + 1) blk := by
  rw [log_written zero, delta_appendRecord_apply w.fitsRecord]

end Recorded

/-! ## Bytes of the merged blocks -/

theorem get?_overlay_of_hit {f : ByteFile UInt8} {pos len i : Nat} (g : Nat → UInt8)
    (inside : i < len) : (f.overlay pos len g).get? (pos + i) = some (g i) := by
  refine ByteFile.get?_eq_some_iff.mpr ⟨?_, ?_⟩
  · rw [ByteFile.size_overlay]
    omega
  · rw [ByteFile.byteAt_overlay_of_hit f g (Nat.le_add_right _ _) (by omega),
      Nat.add_sub_cancel_left]

theorem headCopy_keeps (f : ByteFile UInt8) (w : WriteReq) (source appendPos : Nat) :
    ByteFile.Keeps appendPos f (headCopy f w source appendPos) := by
  unfold headCopy
  split
  · exact ByteFile.keeps_overlay f _ _ le_rfl
  · exact .refl _ f

theorem tailCopy_keeps (f : ByteFile UInt8) (w : WriteReq) (logicalSize appendPos : Nat) :
    ByteFile.Keeps (appendPos + pageSize) f (tailCopy f w logicalSize appendPos) := by
  unfold tailCopy
  split
  case isTrue copies =>
    apply ByteFile.keeps_overlay
    have := Nat.mul_le_mul_right pageSize (Nat.succ_le_of_lt copies.2.1)
    omega
  case isFalse => exact .refl _ f

/-- The copy of the first block. -/
theorem get?_headCopy {f : ByteFile UInt8} {w : WriteReq} (copies : w.CopiesHead)
    (logicalSize source appendPos : Nat) {i : Nat} (inside : i < pageSize) :
    (tailCopy (headCopy f w source appendPos) w logicalSize appendPos).get? (appendPos + i) =
      some (f.byteAt (source * pageSize + i)) := by
  apply (tailCopy_keeps _ w logicalSize appendPos).get? (by omega)
  unfold headCopy
  rw [if_pos copies]
  exact get?_overlay_of_hit _ inside

/-- The copy of the last block. -/
theorem get?_tailCopy {f : ByteFile UInt8} {w : WriteReq} {logicalSize appendPos i : Nat}
    (copies : w.CopiesTail logicalSize) (inside : i < pageSize) :
    (tailCopy f w logicalSize appendPos).get?
        (appendPos + (w.endBlk - w.startBlk) * pageSize + i) =
      some (f.byteAt (w.endBlk * pageSize + i)) := by
  unfold tailCopy
  rw [if_pos copies]
  exact get?_overlay_of_hit _ inside

/-- A write that ends inside its last block leaves what it does not overwrite
there readable: it is confined to one block, or the last block still is the one
of the original file, or nothing behind the end of the write could be read. -/
def TailKept (s : State) (w : WriteReq) : Prop :=
  (w.pos + w.count) % pageSize = 0 ∨ w.endBlk = w.startBlk ∨
    (w.endBlk * pageSize < s.origSize ∧
      resolve s.log s.origSize s.version w.endBlk = some w.endBlk) ∨
    ∀ blk, resolve s.log s.origSize s.version w.endBlk = some blk →
      s.file.size ≤ blk * pageSize + (w.pos + w.count) % pageSize

namespace WriteReq

/-- A byte of the first block before the write forces the copy of that block. -/
theorem copiesHead_of_before {w : WriteReq} {x : Nat} (covered : w.startBlk ≤ x / pageSize)
    (before : x < w.pos) : w.CopiesHead ∧ x / pageSize = w.startBlk := by
  unfold startBlk CopiesHead pageSize at *
  omega

/-- A byte behind the write in a block of the write is in the last block. -/
theorem endBlk_of_behind {w : WriteReq} {x : Nat} (upper : x / pageSize < w.startBlk + w.nrBlk)
    (behind : w.pos + w.count ≤ x) :
    x / pageSize = w.endBlk ∧ (w.pos + w.count) % pageSize ≠ 0 ∧
      (w.pos + w.count) % pageSize ≤ x % pageSize := by
  have positive := w.count_pos
  have ordered := w.startBlk_le_endBlk
  unfold nrBlk at upper
  unfold endBlk startBlk pageSize at *
  omega

end WriteReq

/-- A first block before a last one that is copied lies in the original file. -/
theorem WriteReq.CopiesTail.started {w : WriteReq} {s : State} (tail : w.CopiesTail s.origSize)
    (version : Nat) : ∃ source, resolve s.log s.origSize version w.startBlk = some source := by
  obtain ⟨_, later, original⟩ := tail
  have below : w.startBlk < s.origSize / pageSize := by
    unfold pageSize at *
    omega
  unfold resolve
  rw [if_pos below]
  cases (entries s.log).visible (min version maxVersions) w.startBlk with
  | none => exact ⟨_, rfl⟩
  | some source => exact ⟨_, rfl⟩

/-- The copies bring every readable byte that the write does not overwrite to the
redirected position. -/
theorem get?_mergeBlocks {s : State} {w : WriteReq} {x blk : Nat} {b : UInt8}
    (tail : TailKept s w) (covered : w.startBlk ≤ x / pageSize)
    (upper : x / pageSize < w.startBlk + w.nrBlk) (outside : x < w.pos ∨ w.pos + w.count ≤ x)
    (found : resolve s.log s.origSize s.version (x / pageSize) = some blk)
    (read : s.file.get? (blk * pageSize + x % pageSize) = some b) :
    (mergeBlocks s.file s.origSize w (resolve s.log s.origSize s.version w.startBlk)
      (roundUp s.file.size)).get? (roundUp s.file.size + (x - w.startBlk * pageSize)) =
        some b := by
  obtain ⟨inside, value⟩ := ByteFile.get?_eq_some_iff.mp read
  have offset : x % pageSize < pageSize := Nat.mod_lt _ pageSize_pos
  -- a byte of the first block comes from where that block was found
  have first (same : x / pageSize = w.startBlk) (copies : w.CopiesHead) :
      (mergeBlocks s.file s.origSize w (resolve s.log s.origSize s.version w.startBlk)
        (roundUp s.file.size)).get? (roundUp s.file.size + (x - w.startBlk * pageSize)) =
          some b := by
    have distance : x - w.startBlk * pageSize = x % pageSize := by
      rw [← same]
      unfold pageSize
      omega
    rw [← same, found, same, distance, ← value]
    exact get?_headCopy copies _ _ _ offset
  rcases outside with before | behind
  · obtain ⟨copies, same⟩ := WriteReq.copiesHead_of_before covered before
    exact first same copies
  · obtain ⟨last, partially, order⟩ := WriteReq.endBlk_of_behind upper behind
    rcases tail with whole | confined | ⟨original, itself⟩ | unread
    · exact (partially whole).elim
    · exact first (last.trans confined)
        (.inr ⟨by rw [confined, Nat.sub_self], partially⟩)
    · by_cases confined : w.endBlk = w.startBlk
      · exact first (last.trans confined)
          (.inr ⟨by rw [confined, Nat.sub_self], partially⟩)
      · have ordered := w.startBlk_le_endBlk
        have copies : w.CopiesTail s.origSize := ⟨partially, by omega, original⟩
        have distance : x - w.startBlk * pageSize =
            (w.endBlk - w.startBlk) * pageSize + x % pageSize := by
          rw [Nat.sub_mul, ← last]
          have := Nat.mul_le_mul_right pageSize covered
          have := Nat.div_add_mod x pageSize
          rw [Nat.mul_comm] at this
          omega
        have same : blk = w.endBlk := by
          rw [last, itself] at found
          exact (Option.some.inj found).symm
        obtain ⟨source, startFound⟩ := copies.started s.version
        have low : w.endBlk * pageSize + x % pageSize < roundUp s.file.size := by
          rw [← same]
          exact lt_of_lt_of_le inside (le_roundUp _)
        rw [startFound, distance, ← Nat.add_assoc, ← value, same,
          ← (headCopy_keeps s.file w source (roundUp s.file.size)).byteAt_eq _ low]
        exact get?_tailCopy copies offset
    · have := unread blk (by rw [← last, found])
      omega

end FlexClone.Scorw
