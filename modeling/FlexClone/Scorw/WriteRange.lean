import FlexClone.Scorw.Ranges

/-!
# The blocks a write to a child is left with

`scorw_write_child_blocks_begin` clamps the last block of a write to the copy size, and
its scan of the ranges may cut the write further: a write that begins in a shared range
ends with it, and one that begins elsewhere ends before the next shared range. The
caller shortens the write accordingly, and `scorw_write_child_blocks_end` computes the
last block again from the new length.

* `writeShape_startWrite`: the ways the scan can end, and what they make of a write.
* `WriteShape.endBlock_eq`: both functions look at the same blocks.
* `WriteShape.copiesUp_or_covers`: a block that is not copied up is overwritten as a whole.
-/

namespace FlexClone.Scorw.Cow

variable {ranges : List ChildRange} {cr : Option ChildRange} {k : CowChild} {w : ChildWrite}
  {req : IoReq} {c i start stop : Nat}

/-! ## The scan of the ranges -/

/-- How the scan of the blocks from `start` to `stop` ends, for a write that begins in a
shared range or not: what it says about sharing, and the last block. -/
inductive ScanEnds (start stop : Nat) : Bool → SharingRangeInfo → Nat → Prop
  | cow : ScanEnds start stop false .init stop
  | beforeShared {last : Nat} : start ≤ last → last < stop →
      ScanEnds start stop false ⟨false, true, start, last⟩ last
  | shared {last : Nat} : start ≤ last → last ≤ stop →
      ScanEnds start stop true ⟨true, false, start, last⟩ last

theorem snapxGetRangeInfo_pointer (answer : (snapxGetRangeInfo ranges cr i).1 = .shared) :
    (snapxGetRangeInfo ranges cr i).2 ≠ none := by
  unfold snapxGetRangeInfo at *
  split at answer
  case isTrue => cases answer
  case isFalse ranged =>
    dsimp only at *
    split at answer
    case h_1 => cases answer
    case h_2 r _ =>
      rw [if_neg ranged]
      exact Option.some_ne_none r

/-- In a shared range the scan stays in it. -/
theorem scanRanges_shared {n last : Nat} {shr : SharingRangeInfo} (after : start < i)
    (upto : i + n = stop + 1) (pointer : cr ≠ none)
    (scanned : scanRanges ranges start stop (List.range' i n) cr ⟨true, false, start, i - 1⟩ =
      some (shr, last)) : ScanEnds start stop true shr last := by
  induction n generalizing i cr with
  | zero =>
      cases scanned
      have ends : i - 1 = stop := by omega
      rw [ends]
      exact .shared (by omega) le_rfl
  | succ n ih =>
      rw [List.range'_succ] at scanned
      unfold scanRanges at scanned
      rw [if_neg fun h => pointer h.1] at scanned
      dsimp only at scanned
      by_cases answer : (snapxGetRangeInfo ranges cr i).1 = .shared
      · rw [if_neg fun h => h.1 answer, answer] at scanned
        dsimp only at scanned
        rw [if_neg (by simp), if_pos rfl, Nat.sub_add_cancel (by omega)] at scanned
        exact ih (i := i + 1) (by omega) (by omega) (snapxGetRangeInfo_pointer answer) scanned
      · rw [if_pos ⟨answer, rfl⟩] at scanned
        cases scanned
        exact .shared (by omega) (by omega)

/-- Behind a block that is not shared the scan ends before the next shared one. -/
theorem scanRanges_own {n last : Nat} {shr : SharingRangeInfo} (after : start < i)
    (upto : i + n = stop + 1)
    (scanned : scanRanges ranges start stop (List.range' i n) cr .init = some (shr, last)) :
    ScanEnds start stop false shr last := by
  induction n generalizing i cr with
  | zero =>
      cases scanned
      exact .cow
  | succ n ih =>
      rw [List.range'_succ] at scanned
      unfold scanRanges at scanned
      split at scanned
      case isTrue =>
        cases scanned
        exact .cow
      case isFalse =>
        dsimp only at scanned
        rw [if_neg fun h => by cases h.2] at scanned
        split at scanned
        case h_1 | h_2 | h_3 => cases scanned
        case h_4 =>
          rw [if_pos ⟨by omega, rfl⟩] at scanned
          cases scanned
          exact .beforeShared (by omega) (by omega)
        case h_5 | h_6 => exact ih (i := i + 1) (by omega) (by omega) scanned

/-- The first block decides. -/
theorem scanRanges_ends {last : Nat} {shr : SharingRangeInfo} (within : start ≤ stop)
    (scanned : scanRanges ranges start stop (List.range' start (stop + 1 - start)) none .init =
      some (shr, last)) :
    ScanEnds start stop (decide (rangeBehavior ranges start = .shared)) shr last := by
  have answer := snapxGetRangeInfo_start ranges start
  have blocks : stop + 1 - start = (stop - start) + 1 := by omega
  rw [blocks, List.range'_succ] at scanned
  unfold scanRanges at scanned
  rw [if_neg fun h => h.2 rfl] at scanned
  dsimp only at scanned
  rw [if_neg fun h => by cases h.2] at scanned
  by_cases shared : rangeBehavior ranges start = .shared
  · have pointer := snapxGetRangeInfo_pointer (answer.trans shared)
    rw [answer, shared] at scanned
    dsimp only at scanned
    have fresh : ¬ SharingRangeInfo.init.initialized = true := Bool.false_ne_true
    rw [if_neg fun h => h.1 rfl, if_neg fresh] at scanned
    rw [decide_eq_true shared]
    exact scanRanges_shared (i := start + 1) (by omega) (by omega) pointer scanned
  · rw [decide_eq_false shared]
    split at scanned
    case h_1 | h_2 | h_3 => cases scanned
    case h_4 found => exact absurd (answer.symm.trans found) shared
    case h_5 | h_6 => exact scanRanges_own (i := start + 1) (by omega) (by omega) scanned

/-! ## The write -/

/-- What a write is left with: it begins behind the copy size, meets no shared range, is
cut before one, or begins in one and ends with it or where it was going to end. -/
inductive WriteShape (k : CowChild) (w : ChildWrite) : Prop
  | behind : k.lastBlock < w.startBlock → w.shared = false → w.len = w.asked →
      w.endBlock = k.endBlock w.offset w.asked → WriteShape k w
  | cow : w.startBlock ≤ k.lastBlock → rangeBehavior k.ranges w.startBlock ≠ .shared →
      w.shared = false → w.len = w.asked → w.endBlock = k.endBlock w.offset w.asked →
      WriteShape k w
  | beforeShared : rangeBehavior k.ranges w.startBlock ≠ .shared → w.shared = false →
      w.startBlock ≤ w.endBlock → w.endBlock < k.endBlock w.offset w.asked →
      w.offset + w.len = w.endBlock * pageSize + pageSize → WriteShape k w
  | shared : rangeBehavior k.ranges w.startBlock = .shared → w.shared = true →
      w.startBlock ≤ w.endBlock → w.endBlock ≤ k.endBlock w.offset w.asked →
      (w.len = w.asked ∧ w.endBlock = k.endBlock w.offset w.asked ∨
        w.offset + w.len = w.endBlock * pageSize + pageSize) → WriteShape k w

theorem startBlock_le_endBlock {offset len : Nat} (positive : 0 < len)
    (within : offset / pageSize ≤ k.lastBlock) : offset / pageSize ≤ k.endBlock offset len := by
  refine le_min ?_ within
  exact Nat.div_le_div_right (by omega)

/-- The length after the truncation ends with the last block that is allowed. -/
theorem truncate_eq (shr : SharingRangeInfo) (offset len : Nat)
    (cuts : (shr.initialized || shr.partialCow) = true) (after : offset / pageSize ≤ shr.endBlock) :
    shr.truncate offset len = len ∧ (offset + len - 1) / pageSize ≤ shr.endBlock ∨
      offset + shr.truncate offset len = shr.endBlock * pageSize + pageSize := by
  unfold SharingRangeInfo.truncate
  dsimp only
  unfold pageSize at *
  split
  case isTrue => omega
  case isFalse fits =>
    have reaches : ¬ shr.endBlock * 4096 + (4096 - 1) < offset + len - 1 :=
      fun less => fits ⟨cuts, less⟩
    omega

theorem writeShape_startWrite (starts : k.startWrite c req = some w) (some_ : req.data ≠ []) :
    w.slot = c ∧ w.offset = req.offset ∧ w.asked = req.data.length ∧ WriteShape k w := by
  obtain ⟨⟨shr, last⟩, found, rfl⟩ := Option.map_eq_some_iff.mp starts
  refine ⟨rfl, rfl, rfl, ?_⟩
  unfold CowChild.rangesOf at found
  dsimp only at found
  split at found
  case isTrue behind =>
    cases found
    exact .behind behind rfl rfl rfl
  case isFalse within =>
    have within := Nat.not_lt.mp within
    have positive := List.length_pos_iff.mpr some_
    have ends := scanRanges_ends (startBlock_le_endBlock positive within) found
    generalize answer : decide (rangeBehavior k.ranges (req.offset / pageSize) = .shared) =
      shared at ends
    cases ends with
    | cow => exact .cow within (of_decide_eq_false answer) rfl rfl rfl
    | beforeShared after before =>
        refine .beforeShared (of_decide_eq_false answer) rfl after before ?_
        rcases truncate_eq ⟨false, true, req.offset / pageSize, last⟩ req.offset req.data.length
          rfl after with ⟨_, short⟩ | cut
        · have less := lt_of_lt_of_le before (min_le_left _ _)
          exact absurd less (Nat.not_lt.mpr short)
        · exact cut
    | shared after upto =>
        refine .shared (of_decide_eq_true answer) rfl after upto ?_
        rcases truncate_eq ⟨true, false, req.offset / pageSize, last⟩ req.offset req.data.length
          rfl after with ⟨same, short⟩ | cut
        · exact .inl ⟨same, le_antisymm upto (le_trans (min_le_left _ _) short)⟩
        · exact .inr cut

/-- Both functions look at the same blocks. -/
theorem WriteShape.endBlock_eq (shape : WriteShape k w) :
    k.endBlock w.offset w.len = w.endBlock := by
  have cut (upto : w.endBlock ≤ k.lastBlock)
      (ends : w.offset + w.len = w.endBlock * pageSize + pageSize) :
      k.endBlock w.offset w.len = w.endBlock := by
    have last : (w.offset + w.len - 1) / pageSize = w.endBlock := by
      rw [ends]
      unfold pageSize
      omega
    unfold CowChild.endBlock
    rw [last, min_eq_left upto]
  have clamped : k.endBlock w.offset w.asked ≤ k.lastBlock := min_le_right _ _
  cases shape with
  | behind _ _ len last | cow _ _ _ len last => rw [len, last]
  | beforeShared _ _ _ before ends => exact cut (by omega) ends
  | shared _ _ _ upto ends =>
      rcases ends with ⟨len, last⟩ | ends
      · rw [len, last]
      · exact cut (by omega) ends

/-- A write that does not begin behind the copy size goes to the parent exactly when it
begins in a shared range. -/
theorem WriteShape.shared_iff (shape : WriteShape k w) (within : w.startBlock ≤ k.lastBlock) :
    w.shared = true ↔ rangeBehavior k.ranges w.startBlock = .shared := by
  cases shape with
  | behind behind => omega
  | cow _ other own | beforeShared other own => simp [own, other]
  | shared same shared => simp [same, shared]

/-- The request covers the block from end to end. -/
def ChildWrite.covers (w : ChildWrite) (blk : Nat) : Prop :=
  w.offset ≤ blk * pageSize ∧ blk * pageSize + pageSize ≤ w.offset + w.len

/-- A block that is not copied up is overwritten as a whole. -/
theorem WriteShape.copiesUp_or_covers (shape : WriteShape k w) (own : w.shared = false)
    (positive : 0 < w.asked) {b : Nat} (after : w.startBlock ≤ b) (upto : b ≤ w.endBlock) :
    w.copiesUp b = true ∨ w.covers b := by
  -- the write reaches its last block, and its end if the request ends on a page boundary
  have reaches : w.endBlock * pageSize < w.offset + w.len ∧
      ((w.offset + w.asked) % pageSize = 0 →
        w.endBlock * pageSize + pageSize ≤ w.offset + w.len) := by
    have clamped : k.endBlock w.offset w.asked ≤ (w.offset + w.asked - 1) / pageSize :=
      min_le_left _ _
    cases shape with
    | behind _ _ len last | cow _ _ _ len last =>
        unfold pageSize at *
        omega
    | beforeShared _ _ _ _ ends =>
        unfold pageSize at *
        omega
    | shared _ shared =>
        rw [own] at shared
        cases shared
  obtain ⟨reaches, aligned⟩ := reaches
  by_cases copies : w.copiesUp b = true
  · exact .inl copies
  · right
    have first : w.startBlock = w.offset / pageSize := rfl
    unfold ChildWrite.copiesUp ChildWrite.overwrites at copies
    simp only [own, Bool.not_false, Bool.true_and, Bool.and_eq_true, Bool.not_eq_true',
      Bool.or_eq_false_iff, decide_eq_false_iff_not, decide_eq_true_eq] at copies
    unfold ChildWrite.covers
    unfold pageSize at *
    omega

end FlexClone.Scorw.Cow
