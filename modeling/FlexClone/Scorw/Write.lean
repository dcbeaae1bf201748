import FlexClone.Scorw.State

/-!
# Writing to a see-through parent

`genericPerformWrite` is `scorw_generic_perform_write` on a see-through parent.
The write is first redirected by `writeSeeThruRo`: the partially overwritten
blocks are copied to the end of the file, the new run of blocks is recorded in
the log, and the position of the write becomes the appended one. The data loop
then places the bytes page by page.

Everything the kernel may answer on the way is in `WriteEnv`: whether waiting
for the lock is interrupted, the faults of the lookup and of the recording, how
each copy ends and how each page of the data loop ends.

`WriteResult` lists all outcomes of a write.
-/

namespace FlexClone.Scorw

/-- `(x + PAGE_SIZE - 1) & ~(PAGE_SIZE - 1)` -/
def roundUp (n : Nat) : Nat := (n + pageSize - 1) / pageSize * pageSize

/-- `BLK_NOT_FOUND` as a number. -/
def blkNotFound : Nat := 2 ^ 64 - 1

/-- `s_maxbytes` of a file with 32-bit block numbers; a write ends at or below it. -/
def maxBytes : Nat := (2 ^ 32 - 1) * pageSize

/-- A write request that passed the generic checks: it has data and ends below
the maximal file size. -/
structure WriteReq where
  pos : Nat
  data : List UInt8
  nonempty : data ≠ []
  fits : pos + data.length ≤ maxBytes

namespace WriteReq

def count (w : WriteReq) : Nat := w.data.length

def startBlk (w : WriteReq) : Nat := w.pos / pageSize

def endBlk (w : WriteReq) : Nat := (w.pos + w.count - 1) / pageSize

def nrBlk (w : WriteReq) : Nat := w.endBlk - w.startBlk + 1

end WriteReq

/-- How copying one page ends. -/
inductive CopyOutcome
  | done
  /-- the source page cannot be read -/
  | readFailed
  /-- `write_begin` fails -/
  | beginFailed
  /-- `write_end` fails after the bytes are in place -/
  | endFailed
  deriving DecidableEq

/-- How one pass of the data loop ends. -/
inductive PageOutcome
  /-- a fatal signal is pending -/
  | signal
  /-- `write_begin` fails -/
  | beginFailed
  /-- `write_end` reports `n` bytes; none makes the loop try again -/
  | copied (n : Nat)
  /-- `write_end` fails after `n` bytes are in place -/
  | endFailed (n : Nat)
  deriving DecidableEq

/-- What happens around one write. -/
structure WriteEnv where
  /-- a signal arrives while the write waits for the transaction lock -/
  interrupted : Bool
  /-- faults of the lookup of the first block -/
  lookup : Env
  /-- faults of `scorw_record_write` -/
  record : Env
  /-- outcomes of copying the first block; an exhausted list goes on without error -/
  copyHead : List CopyOutcome
  /-- outcomes of copying the last block -/
  copyTail : List CopyOutcome
  /-- outcomes of the data loop; an exhausted list ends in a fatal signal -/
  pages : List PageOutcome

/-- Nothing fails and every pass of the data loop fills its page. -/
def WriteEnv.clean (passes : Nat) : WriteEnv :=
  ⟨false, .clean, .clean, [], [], List.replicate passes (.copied pageSize)⟩

/-- `-EINTR` -/
def eintr : Int := -4

/-- The loop of `scorw_internal_copy_blocks`; every pass copies at least a byte,
so `len` passes are enough. -/
def copyLoop : Nat → List CopyOutcome → Int → ByteFile UInt8 → Nat → Nat → Nat →
    Int × ByteFile UInt8
  | 0, _, status, f, _, _, _ => (status, f)
  | fuel + 1, outcomes, status, f, srcPos, destPos, len =>
      if len = 0 then (status, f)
      else
        let bytes := min len (pageSize - destPos % pageSize)
        match outcomes.headD .done with
        | .readFailed => (eio, f)
        | .beginFailed => (eio, f)
        | .endFailed => (eio, f.overlay destPos bytes fun i => f.byteAt (srcPos + i))
        | .done =>
            copyLoop fuel outcomes.tail bytes
              (f.overlay destPos bytes fun i => f.byteAt (srcPos + i))
              (srcPos + bytes) (destPos + bytes) (len - bytes)

/-- `scorw_internal_copy_blocks` -/
def internalCopyBlocks (outcomes : List CopyOutcome) (f : ByteFile UInt8)
    (srcPos destPos len : Nat) : Int × ByteFile UInt8 :=
  copyLoop len outcomes 0 f srcPos destPos len

/-- The first block has to be copied: the write starts inside it, or is confined
to it and ends inside it. -/
def WriteReq.CopiesHead (w : WriteReq) : Prop :=
  w.pos % pageSize ≠ 0 ∨ w.endBlk - w.startBlk = 0 ∧ (w.pos + w.count) % pageSize ≠ 0

/-- The last block is copied, when it is another one than the first. -/
def WriteReq.CopiesTail (w : WriteReq) (logicalSize : Nat) : Prop :=
  (w.pos + w.count) % pageSize ≠ 0 ∧ 0 < w.endBlk - w.startBlk ∧
    w.endBlk * pageSize < logicalSize

instance (w : WriteReq) : Decidable w.CopiesHead := inferInstanceAs (Decidable (_ ∨ _))

instance (w : WriteReq) (n : Nat) : Decidable (w.CopiesTail n) :=
  inferInstanceAs (Decidable (_ ∧ _))

/-- The first block is copied from where it was looked up. -/
def copyHeadBlock (env : WriteEnv) (f : ByteFile UInt8) (w : WriteReq)
    (toWriteBlock : Option Nat) (appendPos : Nat) : Int × ByteFile UInt8 :=
  if w.CopiesHead then
    internalCopyBlocks env.copyHead f (toWriteBlock.getD blkNotFound * pageSize)
      appendPos pageSize
  else (0, f)

/-- The last block is copied from its place in the original file. -/
def copyTailBlock (env : WriteEnv) (f : ByteFile UInt8) (logicalSize : Nat) (w : WriteReq)
    (appendPos : Nat) : Int × ByteFile UInt8 :=
  if w.CopiesTail logicalSize then
    internalCopyBlocks env.copyTail f (w.endBlk * pageSize)
      (appendPos + (w.endBlk - w.startBlk) * pageSize) pageSize
  else (0, f)

/-- Step 1 of `scorw_write_see_thru_ro`: the untouched parts of the first and
last block are brought to the append position. A negative result means that a
copy failed. -/
def copyUp (env : WriteEnv) (f : ByteFile UInt8) (logicalSize : Nat) (w : WriteReq)
    (toWriteBlock : Option Nat) (appendPos : Nat) : Int × ByteFile UInt8 :=
  if toWriteBlock.isSome ∨ w.pos < logicalSize then
    let head := copyHeadBlock env f w toWriteBlock appendPos
    if head.1 < 0 then head else copyTailBlock env head.2 logicalSize w appendPos
  else (0, f)

/-- `scorw_write_see_thru_ro` once the lock is settled. A failed copy returns the
position of the request itself, with the lock still held. -/
def redirect (env : WriteEnv) (s : State) (file : Handle) (w : WriteReq)
    (status : TransactionState) : Int × State :=
  let appendPos := roundUp s.file.size
  let found := lookupPhysicalBlock env.lookup s.toVersionStore s.version w.startBlk
  let copy := copyUp env s.file s.origSize w found.1 appendPos
  let s := { s with toVersionStore := found.2, file := copy.2 }
  if copy.1 < 0 then (w.pos, s)
  else
    let s := if status = .setNormalWrite then { s with version := s.version + 1 } else s
    -- the result of recording is not looked at
    let s := { s with
      toVersionStore := (recordWrite env.record s.toVersionStore w.startBlk
        (appendPos / pageSize) w.nrBlk status).2 }
    if status = .setNormalWrite then
      let unset := unsetTransaction s file
      if unset.1 ≠ 0 then (eio, unset.2)
      else ((appendPos + w.pos % pageSize : Nat), unset.2)
    else ((appendPos + w.pos % pageSize : Nat), s)

/-- `scorw_write_see_thru_ro`: the position the data goes to, or an error. -/
def writeSeeThruRo (env : WriteEnv) (s : State) (file : Handle) (w : WriteReq) :
    Option (Int × State) :=
  if selfTransactionStatus s file = .setTransaction then
    some (redirect env s file w .setTransaction)
  else
    match setTransaction env.interrupted s file .setNormalWrite with
    | none => none
    | some (error, s) =>
        if error ≠ 0 then some (eio, s) else some (redirect env s file w .setNormalWrite)

/-- The state of the data loop when it ends. -/
structure PageLoop where
  written : Nat
  status : Int
  file : ByteFile UInt8

/-- The data loop of `scorw_generic_perform_write`. -/
def writePages : List PageOutcome → ByteFile UInt8 → Nat → List UInt8 → Nat → PageLoop
  | [], f, _, _, written => ⟨written, eintr, f⟩
  | outcome :: outcomes, f, pos, data, written =>
      let bytes := min (pageSize - pos % pageSize) data.length
      match outcome with
      | .signal => ⟨written, eintr, f⟩
      | .beginFailed => ⟨written, eio, f⟩
      | .endFailed n => ⟨written, eio, f.put pos (data.take (min n bytes))⟩
      | .copied n =>
          let copied := min n bytes
          let f := f.put pos (data.take copied)
          if data.drop copied = [] then ⟨written + copied, copied, f⟩
          else writePages outcomes f (pos + copied) (data.drop copied) (written + copied)

/-- What the write call returns. -/
def PageLoop.reply (loop : PageLoop) : Int :=
  if loop.written ≠ 0 then loop.written else loop.status

/-- `scorw_generic_perform_write` on a see-through parent. -/
def genericPerformWrite (env : WriteEnv) (s : State) (file : Handle) (w : WriteReq) :
    Option (Int × State) :=
  match writeSeeThruRo env s file w with
  | none => none
  | some (pos, s) =>
      if pos < 0 then some (pos, s)
      else
        let loop := writePages env.pages s.file pos.toNat w.data 0
        some (loop.reply, { s with file := loop.file })

/-! ## Blocks of a request -/

theorem pageSize_pos : 0 < pageSize := by decide

theorem roundUp_mod (n : Nat) : roundUp n % pageSize = 0 := Nat.mul_mod_left _ _

theorem roundUp_div_mul (n : Nat) : roundUp n / pageSize * pageSize = roundUp n :=
  Nat.div_mul_cancel (Nat.dvd_of_mod_eq_zero (roundUp_mod n))

theorem le_roundUp (n : Nat) : n ≤ roundUp n := by
  unfold roundUp pageSize
  omega

theorem roundUp_mono {m n : Nat} (le : m ≤ n) : roundUp m ≤ roundUp n := by
  unfold roundUp pageSize
  omega

namespace WriteReq

theorem count_pos (w : WriteReq) : 0 < w.count := List.length_pos_iff.mpr w.nonempty

theorem startBlk_le_endBlk (w : WriteReq) : w.startBlk ≤ w.endBlk := by
  have := w.count_pos
  apply Nat.div_le_div_right
  omega

/-- The blocks of a request fit the fields of a record. -/
theorem fitsRecord (w : WriteReq) : FitsRecord w.startBlk w.nrBlk := by
  have positive := w.count_pos
  have ordered := w.startBlk_le_endBlk
  have bound : w.pos + w.count ≤ maxBytes := w.fits
  have last : w.endBlk < 2 ^ 32 - 1 := by
    apply Nat.div_lt_of_lt_mul
    unfold maxBytes at bound
    rw [Nat.mul_comm]
    omega
  unfold FitsRecord nrBlk
  omega

/-- A block is touched by the request exactly when it is in its run. -/
theorem mem_blocks (w : WriteReq) (x : Nat) (lower : w.pos ≤ x) (upper : x < w.pos + w.count) :
    w.startBlk ≤ x / pageSize ∧ x / pageSize < w.startBlk + w.nrBlk := by
  have ordered := w.startBlk_le_endBlk
  have first : w.startBlk ≤ x / pageSize := Nat.div_le_div_right lower
  have last : x / pageSize ≤ w.endBlk := Nat.div_le_div_right (by omega)
  unfold nrBlk
  omega

end WriteReq

/-! ## Copying a page -/

/-- Copying one whole page. -/
def copyPage (outcome : CopyOutcome) (f : ByteFile UInt8) (srcPos destPos : Nat) :
    Int × ByteFile UInt8 :=
  match outcome with
  | .readFailed | .beginFailed => (eio, f)
  | .endFailed => (eio, f.overlay destPos pageSize fun i => f.byteAt (srcPos + i))
  | .done => (pageSize, f.overlay destPos pageSize fun i => f.byteAt (srcPos + i))

/-- A page-aligned copy of one page makes one pass. -/
theorem internalCopyBlocks_page (outcomes : List CopyOutcome) (f : ByteFile UInt8)
    (srcPos : Nat) {destPos : Nat} (aligned : destPos % pageSize = 0) :
    internalCopyBlocks outcomes f srcPos destPos pageSize =
      copyPage (outcomes.headD .done) f srcPos destPos := by
  have unfolded : pageSize = 4095 + 1 := rfl
  unfold internalCopyBlocks copyPage
  rw [unfolded, copyLoop, if_neg (by omega), aligned, ← unfolded, Nat.sub_zero, min_self]
  cases outcomes.headD .done <;> rfl

theorem copyPage_keeps (outcome : CopyOutcome) (f : ByteFile UInt8) (srcPos destPos : Nat) :
    ByteFile.Keeps destPos f (copyPage outcome f srcPos destPos).2 := by
  have overlaid : ByteFile.Keeps destPos f
      (f.overlay destPos pageSize fun i => f.byteAt (srcPos + i)) :=
    ByteFile.keeps_overlay f _ _ le_rfl
  cases outcome with
  | readFailed => exact .refl _ f
  | beginFailed => exact .refl _ f
  | endFailed => exact overlaid
  | done => exact overlaid

theorem eio_neg : eio < 0 := by decide

/-- A copy fails exactly when its outcome is an error. -/
theorem copyPage_neg_iff {outcome : CopyOutcome} {f : ByteFile UInt8} {srcPos destPos : Nat} :
    (copyPage outcome f srcPos destPos).1 < 0 ↔ outcome ≠ .done := by
  cases outcome with
  | readFailed => simp [copyPage, eio_neg]
  | beginFailed => simp [copyPage, eio_neg]
  | endFailed => simp [copyPage, eio_neg]
  | done => simp [copyPage]

/-- A copy that does not fail puts the whole page in place. -/
theorem copyPage_of_nonneg {outcome : CopyOutcome} {f : ByteFile UInt8} {srcPos destPos : Nat}
    (ok : ¬ (copyPage outcome f srcPos destPos).1 < 0) :
    (copyPage outcome f srcPos destPos).2 =
      f.overlay destPos pageSize fun i => f.byteAt (srcPos + i) := by
  obtain rfl : outcome = .done := not_not.mp (mt copyPage_neg_iff.mpr ok)
  rfl

/-! ## Merging the first and the last block -/

/-- The file after the first block was copied from block `source`. -/
def headCopy (f : ByteFile UInt8) (w : WriteReq) (source appendPos : Nat) : ByteFile UInt8 :=
  if w.CopiesHead then f.overlay appendPos pageSize fun i => f.byteAt (source * pageSize + i)
  else f

/-- The file after the last block was copied from its original place. -/
def tailCopy (f : ByteFile UInt8) (w : WriteReq) (logicalSize appendPos : Nat) :
    ByteFile UInt8 :=
  if w.CopiesTail logicalSize then
    f.overlay (appendPos + (w.endBlk - w.startBlk) * pageSize) pageSize
      fun i => f.byteAt (w.endBlk * pageSize + i)
  else f

/-- The file after both copies. -/
def mergeBlocks (f : ByteFile UInt8) (logicalSize : Nat) (w : WriteReq)
    (toWriteBlock : Option Nat) (appendPos : Nat) : ByteFile UInt8 :=
  match toWriteBlock with
  | some source => tailCopy (headCopy f w source appendPos) w logicalSize appendPos
  | none => f

/-- No copy of this write fails. -/
def WriteEnv.CopiesSucceed (env : WriteEnv) : Prop :=
  env.copyHead.headD .done = .done ∧ env.copyTail.headD .done = .done

section CopyUp

variable {env : WriteEnv} {f : ByteFile UInt8} {logicalSize : Nat} {w : WriteReq}
  {toWriteBlock : Option Nat} {appendPos : Nat}

theorem tail_aligned (aligned : appendPos % pageSize = 0) (w : WriteReq) :
    (appendPos + (w.endBlk - w.startBlk) * pageSize) % pageSize = 0 := by
  rw [Nat.add_mul_mod_self_right, aligned]

theorem copyHeadBlock_eq (env : WriteEnv) (f : ByteFile UInt8) (w : WriteReq)
    (toWriteBlock : Option Nat) (aligned : appendPos % pageSize = 0) :
    copyHeadBlock env f w toWriteBlock appendPos =
      if w.CopiesHead then
        copyPage (env.copyHead.headD .done) f (toWriteBlock.getD blkNotFound * pageSize) appendPos
      else (0, f) := by
  unfold copyHeadBlock
  rw [internalCopyBlocks_page _ _ _ aligned]

theorem copyTailBlock_eq (env : WriteEnv) (f : ByteFile UInt8) (logicalSize : Nat) (w : WriteReq)
    (aligned : appendPos % pageSize = 0) :
    copyTailBlock env f logicalSize w appendPos =
      if w.CopiesTail logicalSize then
        copyPage (env.copyTail.headD .done) f (w.endBlk * pageSize)
          (appendPos + (w.endBlk - w.startBlk) * pageSize)
      else (0, f) := by
  unfold copyTailBlock
  rw [internalCopyBlocks_page _ _ _ (tail_aligned aligned w)]

/-- Copying up touches nothing below the append position, whether it fails or not. -/
theorem copyUp_keeps (aligned : appendPos % pageSize = 0) :
    ByteFile.Keeps appendPos f (copyUp env f logicalSize w toWriteBlock appendPos).2 := by
  have head : ByteFile.Keeps appendPos f (copyHeadBlock env f w toWriteBlock appendPos).2 := by
    rw [copyHeadBlock_eq _ _ _ _ aligned]
    split
    · exact copyPage_keeps _ _ _ _
    · exact .refl _ f
  have tail (g : ByteFile UInt8) :
      ByteFile.Keeps appendPos g (copyTailBlock env g logicalSize w appendPos).2 := by
    rw [copyTailBlock_eq _ _ _ _ aligned]
    split
    · exact (copyPage_keeps _ _ _ _).mono (Nat.le_add_right _ _)
    · exact .refl _ g
  unfold copyUp
  split
  case isFalse => exact .refl _ f
  case isTrue =>
    dsimp only
    split
    · exact head
    · exact head.trans (tail _)

/-- When no copy fails the file holds both merged blocks. A write that starts
where nothing was found starts past the original file, so that nothing is copied. -/
theorem copyUp_of_nonneg (aligned : appendPos % pageSize = 0)
    (beyond : toWriteBlock = none → logicalSize ≤ w.pos)
    (ok : ¬ (copyUp env f logicalSize w toWriteBlock appendPos).1 < 0) :
    (copyUp env f logicalSize w toWriteBlock appendPos).2 =
      mergeBlocks f logicalSize w toWriteBlock appendPos := by
  cases toWriteBlock with
  | none =>
      have past : logicalSize ≤ w.pos := beyond rfl
      have skipped : ¬ ((none : Option Nat).isSome = true ∨ w.pos < logicalSize) := by
        intro either
        rcases either with some | inside
        · cases some
        · omega
      unfold copyUp
      rw [if_neg skipped]
      rfl
  | some source =>
      have head : ¬ (copyHeadBlock env f w (some source) appendPos).1 < 0 →
          (copyHeadBlock env f w (some source) appendPos).2 = headCopy f w source appendPos := by
        rw [copyHeadBlock_eq _ _ _ _ aligned]
        unfold headCopy
        split
        · exact copyPage_of_nonneg
        · exact fun _ => rfl
      have tail (g : ByteFile UInt8) : ¬ (copyTailBlock env g logicalSize w appendPos).1 < 0 →
          (copyTailBlock env g logicalSize w appendPos).2 = tailCopy g w logicalSize appendPos := by
        rw [copyTailBlock_eq _ _ _ _ aligned]
        unfold tailCopy
        split
        · exact copyPage_of_nonneg
        · exact fun _ => rfl
      unfold copyUp at ok ⊢
      rw [if_pos (.inl rfl)] at ok ⊢
      dsimp only at ok ⊢
      split at ok
      case isTrue failed => exact (ok failed).elim
      case isFalse fine =>
        rw [if_neg fine, tail _ ok, head fine]
        rfl

theorem copyUp_nonneg (succeed : env.CopiesSucceed) (aligned : appendPos % pageSize = 0) :
    ¬ (copyUp env f logicalSize w toWriteBlock appendPos).1 < 0 := by
  have head : ¬ (copyHeadBlock env f w toWriteBlock appendPos).1 < 0 := by
    rw [copyHeadBlock_eq _ _ _ _ aligned, succeed.1]
    split
    · exact mt copyPage_neg_iff.mp (not_not.mpr rfl)
    · exact Int.lt_irrefl 0
  have tail (g : ByteFile UInt8) : ¬ (copyTailBlock env g logicalSize w appendPos).1 < 0 := by
    rw [copyTailBlock_eq _ _ _ _ aligned, succeed.2]
    split
    · exact mt copyPage_neg_iff.mp (not_not.mpr rfl)
    · exact Int.lt_irrefl 0
  unfold copyUp
  split
  case isFalse => exact Int.lt_irrefl 0
  case isTrue =>
    dsimp only
    rw [if_neg head]
    exact tail _

end CopyUp

/-! ## The data loop -/

/-- The loop leaves a prefix of the data in place, at least as long as what it
reports; only when the first pass fails early is the file untouched. -/
theorem writePages_spec (outcomes : List PageOutcome) (f : ByteFile UInt8) (pos : Nat)
    (data : List UInt8) (written : Nat) :
    ∃ m ≤ data.length,
      written ≤ (writePages outcomes f pos data written).written ∧
      (writePages outcomes f pos data written).written ≤ written + m ∧
      ((writePages outcomes f pos data written).file = f.put pos (data.take m) ∨
        (writePages outcomes f pos data written).file = f ∧ m = 0) := by
  induction outcomes generalizing f pos data written with
  | nil => exact ⟨0, Nat.zero_le _, le_rfl, le_rfl, .inr ⟨rfl, rfl⟩⟩
  | cons outcome outcomes ih =>
      cases outcome with
      | signal => exact ⟨0, Nat.zero_le _, le_rfl, le_rfl, .inr ⟨rfl, rfl⟩⟩
      | beginFailed => exact ⟨0, Nat.zero_le _, le_rfl, le_rfl, .inr ⟨rfl, rfl⟩⟩
      | endFailed n =>
          refine ⟨min n (min (pageSize - pos % pageSize) data.length), by omega, le_rfl,
            Nat.le_add_right _ _, .inl rfl⟩
      | copied n =>
          unfold writePages
          dsimp only
          generalize chosen : min n (min (pageSize - pos % pageSize) data.length) = c
          have bound : c ≤ data.length := by omega
          split
          case isTrue => exact ⟨c, bound, by simp, by simp, .inl rfl⟩
          case isFalse =>
            obtain ⟨m, le, lower, upper, placed⟩ :=
              ih (f.put pos (data.take c)) (pos + c) (data.drop c) (written + c)
            rw [List.length_drop] at le
            refine ⟨c + m, by omega, by omega, by omega, .inl ?_⟩
            have length : (data.take c).length = c := List.length_take_of_le bound
            rcases placed with put | ⟨same, zero⟩
            · rw [put, List.take_add]
              have joined := ByteFile.put_append f pos (data.take c) ((data.drop c).take m)
              rw [length] at joined
              exact joined
            · rw [same, zero, Nat.add_zero]

/-- A loop that reports nothing ends in an error. -/
theorem writePages_status {outcomes : List PageOutcome} {f : ByteFile UInt8} {pos : Nat}
    {data : List UInt8} {written : Nat} (nonempty : data ≠ [])
    (nothing : (writePages outcomes f pos data written).written = 0) :
    (writePages outcomes f pos data written).status < 0 := by
  induction outcomes generalizing f pos data written with
  | nil => exact (by decide : eintr < 0)
  | cons outcome outcomes ih =>
      cases outcome with
      | signal => exact (by decide : eintr < 0)
      | beginFailed => exact eio_neg
      | endFailed n => exact eio_neg
      | copied n =>
          unfold writePages at nothing ⊢
          dsimp only at nothing ⊢
          split at nothing
          case isTrue ended =>
            dsimp only at nothing
            have all := List.drop_eq_nil_iff.mp ended
            have := List.length_pos_iff.mpr nonempty
            omega
          case isFalse more =>
            rw [if_neg more]
            exact ih more nothing

/-- The data loop touches nothing below the position it starts at. -/
theorem writePages_keeps (outcomes : List PageOutcome) (f : ByteFile UInt8) (pos : Nat)
    (data : List UInt8) (written : Nat) :
    ByteFile.Keeps pos f (writePages outcomes f pos data written).file := by
  obtain ⟨m, _, _, _, placed⟩ := writePages_spec outcomes f pos data written
  rcases placed with put | ⟨same, _⟩
  · rw [put]
    exact ByteFile.keeps_put f _ le_rfl
  · rw [same]
    exact .refl _ f

/-- A positive reply is the number of bytes the loop wrote. -/
theorem written_of_reply {outcomes : List PageOutcome} {f : ByteFile UInt8} {pos n : Nat}
    {data : List UInt8} (nonempty : data ≠ []) (positive : 0 < n)
    (reply : (writePages outcomes f pos data 0).reply = n) :
    (writePages outcomes f pos data 0).written = n := by
  unfold PageLoop.reply at reply
  split at reply
  case isTrue => exact Int.ofNat_inj.mp reply
  case isFalse nothing =>
    have failed := writePages_status nonempty (not_not.mp nothing)
    omega

/-- The bytes a write reports are in the file, from the position on. -/
theorem byteAt_writePages {outcomes : List PageOutcome} {f : ByteFile UInt8} {pos n i : Nat}
    {data : List UInt8} (nonempty : data ≠ []) (positive : 0 < n)
    (reply : (writePages outcomes f pos data 0).reply = n) (acked : i < n) :
    n ≤ data.length ∧ pos + n ≤ (writePages outcomes f pos data 0).file.size ∧
      (writePages outcomes f pos data 0).file.byteAt (pos + i) = data.getD i default := by
  have written := written_of_reply nonempty positive reply
  obtain ⟨m, le, _, upper, placed⟩ := writePages_spec outcomes f pos data 0
  have enough : n ≤ m := by omega
  rcases placed with put | ⟨_, zero⟩
  · have length : (data.take m).length = m := List.length_take_of_le le
    refine ⟨by omega, ?_, ?_⟩
    · rw [put, ByteFile.size_put, length]
      omega
    · rw [put, ByteFile.byteAt_put_of_hit f (Nat.le_add_right _ _) (by omega),
        Nat.add_sub_cancel_left]
      simp only [List.getD_eq_getElem?_getD, List.getElem?_take_of_lt (by omega : i < m)]
  · omega

/-- A write that reports all its bytes has put them in place as one run. -/
theorem writePages_of_complete {outcomes : List PageOutcome} {f : ByteFile UInt8} {pos : Nat}
    {data : List UInt8} (nonempty : data ≠ [])
    (reply : (writePages outcomes f pos data 0).reply = data.length) :
    (writePages outcomes f pos data 0).file = f.put pos data := by
  have positive := List.length_pos_iff.mpr nonempty
  have written := written_of_reply nonempty positive reply
  obtain ⟨m, le, _, upper, placed⟩ := writePages_spec outcomes f pos data 0
  rcases placed with put | ⟨_, zero⟩
  · rw [put, List.take_of_length_le (by omega)]
  · omega

/-! ## All outcomes of a write -/

/-- The status a write runs under. -/
def writeStatus (s : State) (file : Handle) : TransactionState :=
  if selfTransactionStatus s file = .setTransaction then .setTransaction else .setNormalWrite

/-- The write may go on: it is inside its handle's transaction or the lock is free. -/
def LockReady (s : State) (file : Handle) : Prop :=
  selfTransactionStatus s file = .setTransaction ∨ s.tLocks.locked = false

/-- The lock during the write. -/
def heldLocks (s : State) (file : Handle) : TransactionLocks :=
  if selfTransactionStatus s file = .setTransaction then s.tLocks
  else ⟨true, some file, .setNormalWrite⟩

/-- The lock after a write that ran to its end. -/
def releasedLocks (s : State) (file : Handle) : TransactionLocks :=
  if selfTransactionStatus s file = .setTransaction then s.tLocks else ⟨false, none, .unset⟩

/-- The version of the parent when the write is recorded. -/
def raisedVersion (s : State) (file : Handle) : Nat :=
  if selfTransactionStatus s file = .setTransaction then s.version else s.version + 1

/-- The lookup of the first block. -/
def lookedUp (env : WriteEnv) (s : State) (w : WriteReq) : Option Nat × VersionStore :=
  lookupPhysicalBlock env.lookup s.toVersionStore s.version w.startBlk

/-- The copies of the write. -/
def copiedUp (env : WriteEnv) (s : State) (w : WriteReq) : Int × ByteFile UInt8 :=
  copyUp env s.file s.origSize w (lookedUp env s w).1 (roundUp s.file.size)

/-- The recording of the write. -/
def recorded (env : WriteEnv) (s : State) (file : Handle) (w : WriteReq) : Int × VersionStore :=
  recordWrite env.record { (lookedUp env s w).2 with version := raisedVersion s file } w.startBlk
    (roundUp s.file.size / pageSize) w.nrBlk (writeStatus s file)

/-- The data loop of a write whose copies failed. -/
def inPlaceLoop (env : WriteEnv) (s : State) (w : WriteReq) : PageLoop :=
  writePages env.pages (copiedUp env s w).2 w.pos w.data 0

/-- The data loop of a redirected write. -/
def redirectedLoop (env : WriteEnv) (s : State) (w : WriteReq) : PageLoop :=
  writePages env.pages (copiedUp env s w).2 (roundUp s.file.size + w.pos % pageSize) w.data 0

/-- Everything a write can do. -/
inductive WriteResult (env : WriteEnv) (s : State) (file : Handle) (w : WriteReq) :
    Int → State → Prop
  /-- the lock is not to be had -/
  | refused (outside : selfTransactionStatus s file ≠ .setTransaction) :
    WriteResult env s file w eio s
  /-- a copy failed: the data goes to the position of the request -/
  | inPlace (ready : LockReady s file) (failed : (copiedUp env s w).1 < 0) :
    WriteResult env s file w (inPlaceLoop env s w).reply
      { s with
        toVersionStore := (lookedUp env s w).2
        file := (inPlaceLoop env s w).file
        tLocks := heldLocks s file }
  /-- the data goes to the append position -/
  | redirected (ready : LockReady s file) (copied : ¬ (copiedUp env s w).1 < 0) :
    WriteResult env s file w (redirectedLoop env s w).reply
      { s with
        toVersionStore := (recorded env s file w).2
        file := (redirectedLoop env s w).file
        tLocks := releasedLocks s file }

theorem redirect_setTransaction {env : WriteEnv} {s : State} {file : Handle} {w : WriteReq}
    (inside : selfTransactionStatus s file = .setTransaction) :
    redirect env s file w .setTransaction =
      if (copiedUp env s w).1 < 0 then
        ((w.pos : Int), { s with
          toVersionStore := (lookedUp env s w).2, file := (copiedUp env s w).2 })
      else
        (((roundUp s.file.size + w.pos % pageSize : Nat) : Int), { s with
          toVersionStore := (recorded env s file w).2, file := (copiedUp env s w).2 }) := by
  have version : { (lookedUp env s w).2 with version := raisedVersion s file } =
      (lookedUp env s w).2 := by
    unfold raisedVersion lookedUp
    rw [if_pos inside, lookupPhysicalBlock_store]
  unfold recorded
  rw [version]
  unfold redirect writeStatus
  rw [if_pos inside]
  rfl

theorem redirect_setNormalWrite {env : WriteEnv} {s : State} {file : Handle} {w : WriteReq}
    (outside : selfTransactionStatus s file ≠ .setTransaction) :
    redirect env { s with tLocks := ⟨true, some file, .setNormalWrite⟩ } file w .setNormalWrite =
      if (copiedUp env s w).1 < 0 then
        ((w.pos : Int), { s with
          toVersionStore := (lookedUp env s w).2
          file := (copiedUp env s w).2
          tLocks := ⟨true, some file, .setNormalWrite⟩ })
      else
        (((roundUp s.file.size + w.pos % pageSize : Nat) : Int), { s with
          toVersionStore := (recorded env s file w).2
          file := (copiedUp env s w).2
          tLocks := ⟨false, none, .unset⟩ }) := by
  have version : { (lookedUp env s w).2 with version := raisedVersion s file } =
      { (lookedUp env s w).2 with version := (lookedUp env s w).2.version + 1 } := by
    unfold raisedVersion lookedUp
    rw [if_neg outside, lookupPhysicalBlock_store]
  unfold recorded
  rw [version]
  unfold redirect writeStatus
  rw [if_neg outside]
  simp only [if_true, unsetTransaction_of_normalWrite]
  rfl

/-- The redirection of a write that may go on. -/
theorem writeSeeThruRo_of_ready {env : WriteEnv} {s : State} {file : Handle} {w : WriteReq}
    (ready : LockReady s file) :
    writeSeeThruRo env s file w = some (
      if (copiedUp env s w).1 < 0 then
        ((w.pos : Int), { s with
          toVersionStore := (lookedUp env s w).2
          file := (copiedUp env s w).2
          tLocks := heldLocks s file })
      else
        (((roundUp s.file.size + w.pos % pageSize : Nat) : Int), { s with
          toVersionStore := (recorded env s file w).2
          file := (copiedUp env s w).2
          tLocks := releasedLocks s file })) := by
  unfold writeSeeThruRo heldLocks releasedLocks
  by_cases inside : selfTransactionStatus s file = .setTransaction
  · simp only [if_pos inside, redirect_setTransaction inside]
  · have free : s.tLocks.locked = false := by
      rcases ready with inside' | free
      · exact (inside inside').elim
      · exact free
    have taken : setTransaction env.interrupted s file .setNormalWrite =
        some (0, { s with tLocks := ⟨true, some file, .setNormalWrite⟩ }) := by
      simp [setTransaction, takeTransactionLock, selfTransactionStatus, free]
    simp only [if_neg inside, taken, ne_eq, not_true_eq_false, if_false,
      redirect_setNormalWrite inside]

section Outcomes

variable {env : WriteEnv} {s : State} {file : Handle} {w : WriteReq}

/-- When a copy fails the data goes to the position of the request. -/
theorem genericPerformWrite_of_failed (ready : LockReady s file)
    (failed : (copiedUp env s w).1 < 0) :
    genericPerformWrite env s file w = some ((inPlaceLoop env s w).reply,
      { s with
        toVersionStore := (lookedUp env s w).2
        file := (inPlaceLoop env s w).file
        tLocks := heldLocks s file }) := by
  have position : ¬ (w.pos : Int) < 0 := Int.not_lt.mpr (Int.natCast_nonneg _)
  unfold genericPerformWrite
  rw [writeSeeThruRo_of_ready ready, if_pos failed]
  simp only [if_neg position, Int.toNat_natCast]
  rfl

/-- When the copies succeed it goes to the end of the file. -/
theorem genericPerformWrite_of_copied (ready : LockReady s file)
    (copied : ¬ (copiedUp env s w).1 < 0) :
    genericPerformWrite env s file w = some ((redirectedLoop env s w).reply,
      { s with
        toVersionStore := (recorded env s file w).2
        file := (redirectedLoop env s w).file
        tLocks := releasedLocks s file }) := by
  have position (n : Nat) : ¬ (n : Int) < 0 := Int.not_lt.mpr (Int.natCast_nonneg n)
  unfold genericPerformWrite
  rw [writeSeeThruRo_of_ready ready, if_neg copied]
  simp only [if_neg (position _), Int.toNat_natCast]
  rfl

/-- A write that may not go on waits, unless its handle is in a plain write already or a signal
arrives; then it fails with everything as it was. -/
theorem genericPerformWrite_of_not_ready (held : ¬ LockReady s file) :
    genericPerformWrite env s file w =
      if selfTransactionStatus s file = .setNormalWrite ∨ env.interrupted = true then some (eio, s)
      else none := by
  have outside : selfTransactionStatus s file ≠ .setTransaction := fun inside => held (.inl inside)
  have locked : s.tLocks.locked = true := Bool.eq_true_of_not_eq_false fun free => held (.inr free)
  have taken : setTransaction env.interrupted s file .setNormalWrite =
      takeTransactionLock env.interrupted s file .setNormalWrite := rfl
  unfold genericPerformWrite writeSeeThruRo
  rw [if_neg outside, taken]
  unfold takeTransactionLock
  by_cases plain : selfTransactionStatus s file = .setNormalWrite
  · rw [if_pos plain, if_pos (.inl plain)]
    rfl
  · cases signal : env.interrupted with
    | true =>
        rw [if_neg plain, if_pos locked, if_pos rfl, if_pos (.inr rfl)]
        rfl
    | false =>
        have waits : ¬ (selfTransactionStatus s file = .setNormalWrite ∨ false = true) := by
          rintro (here | signal)
          · exact plain here
          · cases signal
        rw [if_neg plain, if_pos locked, if_neg waits]
        rfl

end Outcomes

/-- Every write that returns is one of the three. -/
theorem genericPerformWrite_cases {env : WriteEnv} {s s' : State} {file : Handle} {w : WriteReq}
    {ret : Int} (done : genericPerformWrite env s file w = some (ret, s')) :
    WriteResult env s file w ret s' := by
  by_cases ready : LockReady s file
  · by_cases failed : (copiedUp env s w).1 < 0
    · rw [genericPerformWrite_of_failed ready failed] at done
      cases done
      exact .inPlace ready failed
    · rw [genericPerformWrite_of_copied ready failed] at done
      cases done
      exact .redirected ready failed
  · rw [genericPerformWrite_of_not_ready ready] at done
    split at done
    · cases done
      exact .refused fun inside => ready (.inl inside)
    · cases done

end FlexClone.Scorw
