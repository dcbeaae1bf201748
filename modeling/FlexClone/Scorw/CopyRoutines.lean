import FlexClone.Scorw.CowMoves

/-!
# Two ways to copy a page

A block reaches a child from the parent's page (`scorw_copy_page`) or from a page copy
(`scorw_copy_page_from_page_copy`). Both compute how much of the page lies below the copy
size, the first from a block number of 64 bits, the second from one of 32 bits, which
loses its upper bits when it is shifted to an offset.

* `copyPageFromPageCopy_eq`, `child_copyPage`: what the model of moves writes is what is
  compared here.
* `copy_routines_agree_iff`: both write the same, exactly for the blocks below 4 GiB and
  for those that lie below the copy size as a whole.
-/

namespace FlexClone.Scorw.Cow

/-- What a copy hands to `scorw_da_write_end`: a length, and the content of the page. -/
@[ext]
structure PageWrite where
  len : Nat
  page : Nat → UInt8

/-- The first bytes of a page, and zeros behind them. -/
def PageWrite.upTo (len : Nat) (source : Nat → UInt8) : PageWrite :=
  ⟨len, fun i => if i < len then source i else 0⟩

/-- What `scorw_copy_page_from_page_copy` writes; the block number is an `unsigned`. -/
def pageCopyWrite (copySize blockNum : Nat) (source : Nat → UInt8) : PageWrite :=
  .upTo (copyLen copySize (u32 (blockNum * pageSize))) source

/-- What `scorw_copy_page` writes; the block number is a `loff_t`. -/
def parentPageWrite (copySize lblk : Nat) (source : Nat → UInt8) : PageWrite :=
  .upTo (copyLen copySize (lblk * pageSize)) source

/-- A child with a page written into it. -/
def CowChild.writePage (k : CowChild) (blk : Nat) (w : PageWrite) : CowChild :=
  k.paste blk w.len w.page

variable {k : CowChild} {blk copySize : Nat} {source : Nat → UInt8}

theorem writePage_upTo (k : CowChild) (blk len : Nat) (source : Nat → UInt8) :
    k.writePage blk (.upTo len source) = k.paste blk len source := by
  unfold CowChild.writePage CowChild.paste PageWrite.upTo
  congr 2
  funext x
  split
  case isTrue =>
    split
    case isTrue below => exact if_pos below
    case isFalse => rfl
  case isFalse => rfl

theorem copyPageFromPageCopy_eq (k : CowChild) (p : PageCopy) (disk : ByteFile UInt8)
    (nonempty : copyLen k.copySize (u32 (p.blockNum * pageSize)) ≠ 0) :
    k.copyPageFromPageCopy p disk =
      k.writePage p.blockNum (pageCopyWrite k.copySize p.blockNum (p.content disk)) := by
  unfold pageCopyWrite
  rw [writePage_upTo]
  unfold CowChild.copyPageFromPageCopy
  dsimp only
  rw [if_neg nonempty]
  rfl

theorem child_copyPage (s : Shared) (c : Nat) (k : CowChild) (lblk : Nat) :
    (s.copyPage c k lblk false).child c = some (k.writePage lblk (parentPageWrite k.copySize lblk
      fun i => (getPage s.par lblk).file.byteAt (lblk * pageSize + i))) := by
  unfold parentPageWrite
  rw [writePage_upTo]
  exact Function.update_self ..

/-! ## The lengths -/

/-- The rest of the copy size from a block on that begins below it. -/
theorem copyLen_of_within (within : blk * pageSize ≤ copySize) :
    copyLen copySize (blk * pageSize) = min pageSize (copySize - blk * pageSize) :=
  if_neg (Nat.not_lt.mpr within)

/-- Below 4 GiB nothing is lost. -/
theorem u32_offset_of_lt (low : blk < 2 ^ 20) : u32 (blk * pageSize) = blk * pageSize := by
  unfold u32 pageSize
  omega

/-- From 4 GiB on the rest is always a whole page. -/
theorem copyLen_u32_of_le (high : 2 ^ 20 ≤ blk) (within : blk * pageSize < copySize) :
    copyLen copySize (u32 (blk * pageSize)) = pageSize := by
  have far : u32 (blk * pageSize) + pageSize ≤ copySize := by
    unfold u32 pageSize at *
    omega
  unfold copyLen
  rw [if_neg (by omega), min_eq_left (by omega)]

/-- Both copies write the part of the page that lies below the copy size and zeros behind
it, and neither lets the child grow beyond its copy size. -/
structure CopyRoutinesAgree (k : CowChild) (blk : Nat) (source : Nat → UInt8) : Prop where
  fromPageCopy : pageCopyWrite k.copySize blk source =
    .upTo (min pageSize (k.copySize - blk * pageSize)) source
  fromParent : parentPageWrite k.copySize blk source =
    .upTo (min pageSize (k.copySize - blk * pageSize)) source
  pageCopyFits : ∀ (p : PageCopy) (disk : ByteFile UInt8), p.blockNum = blk →
    (k.copyPageFromPageCopy p disk).file.size ≤ max k.file.size k.copySize
  parentFits : ∀ (s : Shared) (c : Nat), ∀ k' ∈ (s.copyPage c k blk false).child c,
    k'.file.size ≤ max k.file.size k.copySize

/-- The part below the copy size does not go beyond it. -/
theorem size_writePage_le (within : blk * pageSize ≤ k.copySize) {w : PageWrite}
    (len : w.len = min pageSize (k.copySize - blk * pageSize)) :
    (k.writePage blk w).file.size ≤ max k.file.size k.copySize := by
  have size : (k.writePage blk w).file.size = max k.file.size (blk * pageSize + w.len) := rfl
  omega

/-- The copies agree exactly below 4 GiB, and on blocks that are copied as a whole. -/
theorem copy_routines_agree_iff (within : blk * pageSize < k.copySize) :
    CopyRoutinesAgree k blk source ↔
      blk < 2 ^ 20 ∨ (blk + 1) * pageSize ≤ k.copySize := by
  have parentLen := copyLen_of_within within.le
  constructor
  · intro agree
    rcases Nat.lt_or_ge blk (2 ^ 20) with low | high
    · exact .inl low
    · right
      have len : copyLen k.copySize (u32 (blk * pageSize)) =
          min pageSize (k.copySize - blk * pageSize) :=
        congrArg PageWrite.len agree.fromPageCopy
      rw [copyLen_u32_of_le high within] at len
      rw [Nat.succ_mul]
      omega
  · intro small
    have pageCopyLen : copyLen k.copySize (u32 (blk * pageSize)) =
        min pageSize (k.copySize - blk * pageSize) := by
      rcases Nat.lt_or_ge blk (2 ^ 20) with low | high
      · rw [u32_offset_of_lt low, parentLen]
      · have whole := small.resolve_left (Nat.not_lt.mpr high)
        rw [Nat.succ_mul] at whole
        rw [copyLen_u32_of_le high within, min_eq_left (by omega)]
    constructor
    case fromPageCopy => exact congrArg (PageWrite.upTo · source) pageCopyLen
    case fromParent => exact congrArg (PageWrite.upTo · source) parentLen
    case pageCopyFits =>
      rintro p disk rfl
      have nonempty : copyLen k.copySize (u32 (p.blockNum * pageSize)) ≠ 0 := by
        have page : 0 < pageSize := by decide
        omega
      rw [copyPageFromPageCopy_eq k p disk nonempty]
      exact size_writePage_le within.le pageCopyLen
    case parentFits =>
      intro s c k' copied
      rw [child_copyPage, Option.mem_some_iff] at copied
      subst copied
      exact size_writePage_le within.le parentLen

/-- A child of 4 GiB and one byte. -/
def childPastFourGiB : CowChild where
  file := ⟨2 ^ 32 + 1, fun _ => 0⟩
  version := 1
  copySize := 2 ^ 32 + 1
  ranges := []
  copied := fun _ => false
  pendingCopyPages := 2 ^ 20 + 1
  copying := fun _ => false
  usageCount := 1
  locked := false
  written := fun _ => none

/-- The last block of a child of exactly 4 GiB and one page is copied as a whole. -/
theorem copy_routines_agree_wholeBlock :
    CopyRoutinesAgree { childPastFourGiB with copySize := 2 ^ 32 + pageSize } (2 ^ 20)
      fun _ => 1 :=
  (copy_routines_agree_iff (by decide +kernel)).mpr (.inr (by decide +kernel))

/-- The last block is one byte. The page copy brings 4095 bytes with it that lie behind
the copy size, and the child grows by them. -/
theorem pageCopy_copies_past_copySize :
    parentPageWrite childPastFourGiB.copySize (2 ^ 20) (fun _ => 1) = .upTo 1 (fun _ => 1) ∧
      pageCopyWrite childPastFourGiB.copySize (2 ^ 20) (fun _ => 1) = .upTo pageSize (fun _ => 1) ∧
      (childPastFourGiB.writePage (2 ^ 20) (pageCopyWrite childPastFourGiB.copySize (2 ^ 20)
        fun _ => 1)).file.size = childPastFourGiB.copySize + 4095 := by
  refine ⟨?_, ?_, by decide +kernel⟩
  · exact congrArg (PageWrite.upTo · _) (by decide +kernel)
  · exact congrArg (PageWrite.upTo · _) (by decide +kernel)

end FlexClone.Scorw.Cow
