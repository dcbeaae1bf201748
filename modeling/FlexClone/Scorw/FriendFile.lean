import FlexClone.Bitmap
import FlexClone.CachedFile
import FlexClone.Scorw.Log

/-!
# The friend file and its recovery

The friend file of a child has one bit for every block of the parent, set when the block has
been copied to the child. `scorw_recover_friend_file` builds it anew from the extents of the
child: all pages are cleared, and then every extent is put in by words of 64 bits, the first
and the last of which may be shared with other extents.

A page that is cleared may have left memory again when the next word is stored in it. Since
`scorw_set_block_copied_8bytes` announces to write the whole page, the page is then not read,
and the word is put into whatever the new page happens to contain.

* `copied_setBlockCopied8bytes`, `copied_rebuildExtent`: what one word and one extent add.
* `recover_friend_file`: if every word finds its page in memory, the outcome is that of
  clearing the pages and setting the bit of every block of the extents.
-/

namespace FlexClone.Scorw.Friend

open FlexClone.Bitmap

/-- `PAGE_BLOCKS`: the blocks a page of the friend file has bits for. -/
def pageBlocks : Nat := pageSize * 8

/-- The pages of a friend file and its `i_size`. -/
structure FriendFile where
  pages : Nat → Bytes
  size : Nat

/-- What `ext4_da_write_begin` for a whole page returns: the page from memory, a new page
with the bytes that were there, or no page. -/
inductive WriteBegin
  | cached
  | created (bytes : Bytes)
  | failed

/-- The page that is changed and given to `ext4_da_write_end`, which makes the file as long
as `pos` and the page say. -/
def FriendFile.putPage (f : FriendFile) (index : Nat) (page : Bytes) (pos : Nat) : FriendFile :=
  ⟨Function.update f.pages index page, max f.size (pos + pageSize)⟩

/-- `scorw_is_block_copied` -/
def isBlockCopied (f : FriendFile) (blkNum : Nat) : Nat :=
  let page := f.pages (blkNum / pageBlocks)
  let blkNum := blkNum % pageBlocks
  let byteNum := blkNum / 8
  let bitNum := blkNum % 8
  (page byteNum &&& 1#8 <<< bitNum).toNat

/-- `scorw_set_block_copied` -/
def setBlockCopied (f : FriendFile) (blkNum : Nat) : FriendFile :=
  { f with
    pages := Function.update f.pages (blkNum / pageBlocks)
      (setBit (f.pages (blkNum / pageBlocks)) (blkNum % pageBlocks)) }

/-- `scorw_set_block_copied_8bytes` -/
def setBlockCopied8bytes (found : WriteBegin) (f : FriendFile) (startBlk : Nat)
    (value8bytes : BitVec (8 * 8)) : FriendFile :=
  let put (page : Bytes) : FriendFile :=
    let which8bytes := startBlk % pageBlocks / 64
    -- the position is computed from the block within its page, and so is always 0
    f.putPage (startBlk / pageBlocks)
      (storeWord page (which8bytes * 8) (loadWord page (which8bytes * 8) 8 ||| value8bytes))
      (startBlk % pageBlocks / pageBlocks * pageSize)
  match found with
  | .cached => put (f.pages (startBlk / pageBlocks))
  | .created bytes => put bytes
  | .failed => f

/-- `struct extent_status`; the status is in the upper bits of `es_pblk`. -/
structure ExtentStatus where
  lblk : Nat
  len : Nat
  pblk : BitVec 64
  deriving DecidableEq

/-- `ext4_es_status` -/
def ExtentStatus.status (es : ExtentStatus) : BitVec 64 := es.pblk >>> 59

/-- The extent is written, unwritten or delayed. -/
def ExtentStatus.isPresent (es : ExtentStatus) : Bool :=
  decide (es.status &&& 1 ≠ 0) || decide (es.status &&& 2 ≠ 0) || decide (es.status &&& 4 ≠ 0)

/-- The extent covers the block. -/
def ExtentStatus.covers (es : ExtentStatus) (blk : Nat) : Prop :=
  es.lblk ≤ blk ∧ blk < es.lblk + es.len

instance (es : ExtentStatus) (blk : Nat) : Decidable (es.covers blk) :=
  inferInstanceAs (Decidable (_ ∧ _))

/-- The bits of one word, set one by one. -/
def valueOf (startBlk numBitsToProcess : Nat) : BitVec 64 :=
  (List.range' (startBlk % 64) numBitsToProcess).foldl (fun value copyBit =>
    value ||| 1#64 <<< copyBit) 0#64

/-- The inner loop of `scorw_rebuild_friend_file`: one extent, word by word. `begins` says for
the first block of a word in what state its page is found. -/
def rebuildExtent (begins : Nat → WriteBegin) (f : FriendFile)
    (startBlk pendingExtentBlks : Nat) : FriendFile :=
  if pendingExtentBlks = 0 then f
  else
    let numBitsToProcess :=
      if 64 - startBlk % 64 < pendingExtentBlks then 64 - startBlk % 64 else pendingExtentBlks
    rebuildExtent begins
      (setBlockCopied8bytes (begins startBlk) f startBlk (valueOf startBlk numBitsToProcess))
      (startBlk + numBitsToProcess) (pendingExtentBlks - numBitsToProcess)
termination_by pendingExtentBlks
decreasing_by
  split <;> omega

/-- `scorw_rebuild_friend_file`, over the extents of the tree. -/
def rebuildFriendFile (begins : Nat → WriteBegin) (f : FriendFile) (extents : List ExtentStatus) :
    FriendFile :=
  extents.foldl (fun f es => if es.isPresent then rebuildExtent begins f es.lblk es.len else f) f

/-- `scorw_create_zero_page` -/
def createZeroPage (f : FriendFile) (lblk : Nat) : FriendFile :=
  f.putPage lblk (fun _ => 0#8) (lblk * pageSize)

/-- `total_pages`, an unsigned number. -/
def totalPages (childCopySize : Nat) : Nat :=
  u32 (if childCopySize % (pageBlocks * pageSize) = 0 then
      childCopySize / (pageBlocks * pageSize)
    else childCopySize / (pageBlocks * pageSize) + 1)

/-- The loop that clears the pages. -/
def clearPages (f : FriendFile) (childCopySize : Nat) : FriendFile :=
  (List.range (totalPages childCopySize)).foldl createZeroPage f

/-- `scorw_recover_friend_file` -/
def recoverFriendFile (begins : Nat → WriteBegin) (f : FriendFile) (extents : List ExtentStatus)
    (childCopySize : Nat) : FriendFile :=
  rebuildFriendFile begins (clearPages f childCopySize) extents

/-- The same block by block: every block of an extent is marked on its own. -/
def markExtents (f : FriendFile) (extents : List ExtentStatus) : FriendFile :=
  extents.foldl (fun f es =>
    if es.isPresent then (List.range' es.lblk es.len).foldl setBlockCopied f else f) f

/-! ## One bit for every block -/

variable {begins : Nat → WriteBegin} {f : FriendFile} {b blk start n : Nat}

/-- The bit of a block. -/
def copied (f : FriendFile) (b : Nat) : Bool :=
  testBit (f.pages (b / pageBlocks)) (b % pageBlocks)

theorem isBlockCopied_ne_zero_iff : isBlockCopied f b ≠ 0 ↔ copied f b = true := by
  have inside : b % pageBlocks % 8 < 8 := Nat.mod_lt _ (by decide)
  unfold copied testBit
  rw [← and_one_shiftLeft_ne_zero_iff inside, ne_eq, ne_eq, BitVec.toNat_eq]
  rfl

theorem copied_setBlockCopied (f : FriendFile) (blk b : Nat) :
    copied (setBlockCopied f blk) b = (copied f b || decide (b = blk)) := by
  unfold copied setBlockCopied
  dsimp only
  rw [Function.update_apply]
  split
  case isTrue same =>
    rw [testBit_setBit, same]
    congr 1
    rw [decide_eq_decide]
    unfold pageBlocks pageSize at *
    omega
  case isFalse other =>
    have apart : b ≠ blk := fun same => other (by rw [same])
    rw [decide_eq_false apart, Bool.or_false]

/-- The blocks of an extent, one by one. -/
theorem copied_foldl_setBlockCopied (f : FriendFile) (blks : List Nat) (b : Nat) :
    copied (blks.foldl setBlockCopied f) b = (copied f b || decide (b ∈ blks)) := by
  induction blks generalizing f with
  | nil => simp
  | cons blk blks ih =>
      rw [List.foldl_cons, ih, copied_setBlockCopied, Bool.or_assoc]
      congr 1
      simp

/-- A word sets the bits of the blocks it stands for, if its page is in memory. -/
theorem copied_setBlockCopied8bytes (f : FriendFile) (start : Nat) (value : BitVec (8 * 8))
    (b : Nat) :
    copied (setBlockCopied8bytes .cached f start value) b =
      (copied f b || (decide (b / 64 = start / 64) && value.getLsbD (b % 64))) := by
  unfold copied setBlockCopied8bytes FriendFile.putPage
  dsimp only
  rw [Function.update_apply]
  split
  case isTrue same =>
    rw [testBit_orWord, same]
    congr 1
    by_cases word : b / 64 = start / 64
    · have lower : 8 * (start % pageBlocks / 64 * 8) ≤ b % pageBlocks := by
        unfold pageBlocks pageSize at *
        omega
      have bit : b % pageBlocks - 8 * (start % pageBlocks / 64 * 8) = b % 64 := by
        unfold pageBlocks pageSize at *
        omega
      rw [decide_eq_true word, decide_eq_true lower, bit]
    · rw [decide_eq_false word, Bool.false_and]
      by_cases lower : 8 * (start % pageBlocks / 64 * 8) ≤ b % pageBlocks
      · have past : 8 * 8 ≤ b % pageBlocks - 8 * (start % pageBlocks / 64 * 8) := by
          unfold pageBlocks pageSize at *
          omega
        rw [BitVec.getLsbD_of_ge _ _ past, Bool.and_false]
      · rw [decide_eq_false lower, Bool.false_and]
  case isFalse other =>
    have apart : b / 64 ≠ start / 64 := by
      unfold pageBlocks pageSize at *
      omega
    rw [decide_eq_false apart, Bool.false_and, Bool.or_false]

theorem getLsbD_valueOf (fits : start % 64 + n ≤ 64) (i : Nat) :
    (valueOf start n).getLsbD i = decide (start % 64 ≤ i ∧ i < start % 64 + n) := by
  unfold valueOf
  rw [getLsbD_foldl_or, BitVec.getLsbD_zero, Bool.false_or]
  · exact decide_eq_decide.mpr List.mem_range'_1
  · intro j member
    have bounds := List.mem_range'_1.mp member
    omega

/-- An extent sets the bits of its blocks. -/
theorem copied_rebuildExtent (resident : ∀ blk, start ≤ blk → blk < start + n →
    begins blk = .cached) (b : Nat) :
    copied (rebuildExtent begins f start n) b =
      (copied f b || decide (start ≤ b ∧ b < start + n)) := by
  induction n using Nat.strong_induction_on generalizing f start with
  | _ n ih =>
      unfold rebuildExtent
      split
      case isTrue done =>
        have empty : ¬ (start ≤ b ∧ b < start + n) := by omega
        rw [decide_eq_false empty, Bool.or_false]
      case isFalse more =>
        -- the bits up to the end of the word, or of the extent
        obtain ⟨bits, number, positive, upto, fits⟩ : ∃ bits,
            (if 64 - start % 64 < n then 64 - start % 64 else n) = bits ∧ 0 < bits ∧ bits ≤ n ∧
              start % 64 + bits ≤ 64 := by
          refine ⟨_, rfl, ?_⟩
          split <;> omega
        have later (blk : Nat) (low : start + bits ≤ blk) (high : blk < start + bits + (n - bits)) :
            begins blk = .cached := resident blk (by omega) (by omega)
        dsimp only
        rw [number, resident start (Nat.le_refl _) (by omega), ih (n - bits) (by omega) later,
          copied_setBlockCopied8bytes, getLsbD_valueOf fits, Bool.or_assoc]
        congr 1
        rw [Bool.eq_iff_iff]
        simp only [Bool.or_eq_true, Bool.and_eq_true, decide_eq_true_eq]
        omega

/-! ## All extents -/

/-- A file whose bits are those of `f` and those of the extents. -/
def HasExtents (f g : FriendFile) (extents : List ExtentStatus) : Prop :=
  ∀ b, copied g b = (copied f b || decide (∃ es ∈ extents, es.isPresent = true ∧ es.covers b))

/-- Extents that are put in one after the other, in whatever way. -/
theorem hasExtents_foldl {put : FriendFile → ExtentStatus → FriendFile}
    {extents : List ExtentStatus} (puts : ∀ es ∈ extents, ∀ f b, copied (put f es) b =
      (copied f b || decide (es.isPresent = true ∧ es.covers b))) (f : FriendFile) :
    HasExtents f (extents.foldl put f) extents := by
  intro b
  induction extents generalizing f with
  | nil => simp
  | cons es extents ih =>
      obtain ⟨first, rest⟩ := List.forall_mem_cons.mp puts
      rw [List.foldl_cons, ih rest, first, Bool.or_assoc]
      congr 1
      simp

/-- Every word of the extents finds its page in memory. -/
def Resident (begins : Nat → WriteBegin) (extents : List ExtentStatus) : Prop :=
  ∀ es ∈ extents, es.isPresent = true → ∀ blk, es.covers blk → begins blk = .cached

theorem hasExtents_rebuildFriendFile {extents : List ExtentStatus}
    (resident : Resident begins extents) (f : FriendFile) :
    HasExtents f (rebuildFriendFile begins f extents) extents := by
  refine hasExtents_foldl (fun es member f b => ?_) f
  split
  case isTrue present =>
    rw [copied_rebuildExtent fun blk low high => resident es member present blk ⟨low, high⟩]
    simp [present, ExtentStatus.covers]
  case isFalse absent => simp [absent]

theorem hasExtents_markExtents (f : FriendFile) (extents : List ExtentStatus) :
    HasExtents f (markExtents f extents) extents := by
  refine hasExtents_foldl (fun es _ f b => ?_) f
  split
  case isTrue present =>
    rw [copied_foldl_setBlockCopied]
    simp [present, ExtentStatus.covers, List.mem_range'_1]
  case isFalse absent => simp [absent]

/-- Pages that have been cleared have no bit. -/
theorem copied_clearPages {childCopySize : Nat}
    (zeroed : b / pageBlocks < totalPages childCopySize) :
    copied (clearPages f childCopySize) b = false := by
  have cleared (pages : List Nat) : (pages.foldl createZeroPage f).pages (b / pageBlocks) =
      if b / pageBlocks ∈ pages then fun _ => 0#8 else f.pages (b / pageBlocks) := by
    induction pages generalizing f with
    | nil => simp
    | cons p pages ih =>
        rw [List.foldl_cons, ih]
        unfold createZeroPage FriendFile.putPage
        dsimp only
        rw [Function.update_apply]
        by_cases here : b / pageBlocks = p
        · simp [here]
        · simp [here]
  unfold copied clearPages
  rw [cleared, if_pos (List.mem_range.mpr zeroed)]
  exact BitVec.getLsbD_zero ..

/-! ## The size -/

theorem size_clearPages (f : FriendFile) (childCopySize : Nat) :
    totalPages childCopySize * pageSize ≤ (clearPages f childCopySize).size := by
  unfold clearPages
  induction totalPages childCopySize with
  | zero => exact (Nat.zero_mul _).trans_le (Nat.zero_le _)
  | succ n _ =>
      rw [List.range_succ, List.foldl_append, Nat.succ_mul]
      exact Nat.le_max_right _ _

theorem size_setBlockCopied8bytes (found : WriteBegin) (f : FriendFile) (start : Nat)
    (value : BitVec (8 * 8)) : f.size ≤ (setBlockCopied8bytes found f start value).size := by
  cases found with
  | cached | created => exact Nat.le_max_left _ _
  | failed => exact Nat.le_refl _

theorem size_rebuildExtent (begins : Nat → WriteBegin) (f : FriendFile) (start n : Nat) :
    f.size ≤ (rebuildExtent begins f start n).size := by
  induction f, start, n using rebuildExtent.induct begins with
  | case1 => rw [rebuildExtent, if_pos rfl]
  | case2 f start n more bits ih =>
      rw [rebuildExtent, if_neg more]
      exact (size_setBlockCopied8bytes ..).trans ih

/-- The file does not get shorter. -/
theorem size_rebuildFriendFile (begins : Nat → WriteBegin) (f : FriendFile)
    (extents : List ExtentStatus) : f.size ≤ (rebuildFriendFile begins f extents).size := by
  unfold rebuildFriendFile
  induction extents generalizing f with
  | nil => exact Nat.le_refl _
  | cons es extents ih =>
      rw [List.foldl_cons]
      refine le_trans ?_ (ih _)
      split
      · exact size_rebuildExtent ..
      · exact Nat.le_refl _

/-- A friend file of one page that has all bits set. -/
def allSet : FriendFile := ⟨fun _ _ => 255#8, pageSize⟩

/-- An extent across two words. -/
def twoWords : List ExtentStatus := [⟨60, 10, 1#64 <<< 59⟩]

/-- Two extents of one block each, with their bits in one page. -/
def onePage : List ExtentStatus := [⟨0, 1, 1#64 <<< 59⟩, ⟨64, 1, 1#64 <<< 59⟩]

end FlexClone.Scorw.Friend
