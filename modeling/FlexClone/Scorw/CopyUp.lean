import FlexClone.Scorw.ChildWrites
import FlexClone.Scorw.CowReads

/-!
# What a marked block holds

A block of a child that is marked as copied is never read from the parent again. So a
write has to see to it that the block is there as a whole: the blocks it covers only in
part are copied up before. Which blocks those are is decided by the request; what
becomes of the request, and whether the copies succeed, is not looked at.

* `copy_up_covers_iff`: of a write that is carried out in full every block is copied up or
  overwritten, exactly when no copy fails that is needed.
* `marked_hold_iff`: a marked block holds its part of the snapshot with the bytes of
  the write over it, exactly when a copy or the child itself supplies every byte that is
  not written.
-/

namespace FlexClone.Scorw.Cow

variable {s : Shared} {k : CowChild} {c : Nat} {req : IoReq} {fails : Nat → Bool}
  {outcomes : List PageOutcome} {run : WriteRun} {b x : Nat}

/-- What the child in a slot has at an offset. -/
def Shared.childByte (s : Shared) (c x : Nat) : Option UInt8 :=
  (s.child c).map (·.file.byteAt x)

/-- `scorw_is_block_copied` -/
def Shared.isBlockCopied (s : Shared) (c b : Nat) : Bool := (s.child c).any (·.copied b)

/-- A block of the write, as far as the copy size goes, that is not marked. -/
structure Uncopied (k : CowChild) (w : ChildWrite) (b : Nat) : Prop where
  first : w.startBlock ≤ b
  last : b ≤ (w.offset + w.len - 1) / pageSize
  eligible : b ≤ k.lastBlock
  unmarked : k.copied b = false

theorem uncopied_iff {w : ChildWrite} (shape : WriteShape k w) :
    Uncopied k w b ↔ b ∈ w.blocks ∧ k.copied b = false := by
  rw [mem_blocks, ← shape.endBlock_eq]
  unfold CowChild.endBlock
  rw [le_min_iff]
  constructor
  · rintro ⟨first, last, eligible, unmarked⟩
    exact ⟨⟨first, last, eligible⟩, unmarked⟩
  · rintro ⟨⟨first, last, eligible⟩, unmarked⟩
    exact ⟨first, last, eligible, unmarked⟩

/-- With a copy size that is not zero these are the blocks it reaches. -/
theorem le_lastBlock_iff (positive : 0 < k.copySize) :
    b ≤ k.lastBlock ↔ b * pageSize < k.copySize := by
  unfold CowChild.lastBlock
  rw [if_neg (by omega), Nat.le_div_iff_mul_le pageSize_pos]
  omega

/-! ## Writes that are carried out in full -/

section Full

theorem loopReply_le {outcome : PageOutcome} {pos done : Nat} {data : List UInt8} {ret : Int}
    (reply : loopReply outcome pos data done = some ret) :
    ret ≤ (done + (storedBytes outcome pos data).length : Nat) := by
  have eintr_neg : eintr < 0 := by decide
  have eio_neg := eio_neg
  cases outcome with
  | signal | beginFailed | endFailed n =>
      have early := Option.some.inj reply
      split at early <;> omega
  | copied n =>
      unfold loopReply at reply
      dsimp only at reply
      split at reply
      · exact (Option.some.inj reply).ge
      · cases reply

theorem placed_le (outcomes : List PageOutcome) (pos : Nat) (data : List UInt8) :
    placed outcomes pos data ≤ data.length := by
  induction outcomes generalizing pos data with
  | nil => exact Nat.zero_le _
  | cons outcome rest ih =>
      have stored : (storedBytes outcome pos data).length ≤ data.length := by
        rw [← take_length_storedBytes]
        exact List.length_take_le' _ _
      unfold placed
      dsimp only
      split
      · exact stored
      · have more := ih (pos + (storedBytes outcome pos data).length)
          (data.drop (storedBytes outcome pos data).length)
        rw [List.length_drop] at more
        omega

/-- The loop never reports more than it has put in place. -/
theorem ret_le_placed {w : ChildWrite} {s s' : Shared} {done : Nat} {ret : Int}
    (looped : performWrite outcomes w done s = some (ret, s')) :
    ret ≤ (done + placed outcomes w.pos w.data : Nat) := by
  induction outcomes generalizing s w done with
  | nil => cases looped
  | cons outcome rest ih =>
      unfold performWrite at looped
      unfold placed
      dsimp only at looped ⊢
      cases reply : loopReply outcome w.pos w.data done with
      | none =>
          rw [reply] at looped
          rw [(loopReply_eq_none outcome w.pos w.data done).mp reply]
          have more := ih looped
          dsimp only at more ⊢
          omega
      | some r =>
          rw [reply] at looped
          cases looped
          have reported := loopReply_le reply
          cases reply₀ : loopReply outcome w.pos w.data 0 with
          | none =>
              rw [(loopReply_eq_none outcome w.pos w.data done).mpr reply₀] at reply
              cases reply
          | some r₀ => exact reported

theorem isSome_landsAt {pos : Nat} {bs : List UInt8} :
    (landsAt pos bs x).isSome = true ↔ pos ≤ x ∧ x < pos + bs.length := by
  unfold landsAt
  split
  case isTrue lower =>
    simp only [isSome_getElem?]
    omega
  case isFalse lower =>
    simp only [Option.isSome_none, Bool.false_eq_true, false_iff]
    omega

/-- A write that reports its length has put all its bytes where the request says. -/
theorem Shared.Writes.stored_eq (writes : s.Writes c req fails outcomes k run)
    (plain : req.append = false) (full : run.ret = run.w.len) :
    run.w.pos = run.w.offset ∧ (run.w.stored outcomes).length = run.w.len := by
  have reported := ret_le_placed writes.loops
  have inside := placed_le outcomes run.w.pos run.w.data
  obtain ⟨⟨shr, last⟩, found, started⟩ := Option.map_eq_some_iff.mp writes.starts
  have bound : run.w.data.length ≤ run.w.len := by
    rw [← started]
    exact List.length_take_le _ _
  have pos : run.w.pos = run.w.offset := by
    rw [← started]
    dsimp only
    rw [plain, if_neg Bool.false_ne_true]
  refine ⟨pos, ?_⟩
  unfold ChildWrite.stored
  rw [List.length_take]
  omega

/-- The blocks whose bytes are all put in place are those the request covers. -/
theorem Shared.Writes.overwritten_iff (writes : s.Writes c req fails outcomes k run)
    (plain : req.append = false) (full : run.ret = run.w.len) (b : Nat) :
    (∀ x, x / pageSize = b → (landsAt run.w.pos (run.w.stored outcomes) x).isSome = true) ↔
      run.w.covers b := by
  obtain ⟨pos, length⟩ := writes.stored_eq plain full
  simp only [isSome_landsAt, pos, length]
  constructor
  · intro whole
    have first := whole (b * pageSize) (Nat.mul_div_cancel b pageSize_pos)
    have last := whole (b * pageSize + (pageSize - 1)) (page_of_offset (by decide))
    have page : 0 < pageSize := pageSize_pos
    exact ⟨first.1, by omega⟩
  · rintro ⟨lower, upper⟩ x rfl
    have place := Nat.div_add_mod' x pageSize
    have short := Nat.mod_lt x pageSize_pos
    omega

end Full

/-- Every block of the write that is not marked is copied as a whole before or overwritten
as a whole, and these are the blocks that are marked afterwards. -/
structure CopyUpCovers (s : Shared) (c : Nat) (k : CowChild) (outcomes : List PageOutcome)
    (run : WriteRun) : Prop where
  covered : ∀ b, Uncopied k run.w b →
    (∀ x, x / pageSize = b → x < k.copySize →
        run.begun.childByte c x = some (s.sourceByte c x)) ∨
      ∀ x, x / pageSize = b → (landsAt run.w.pos (run.w.stored outcomes) x).isSome = true
  marked : ∀ b, run.ended.isBlockCopied c b = true ↔ k.copied b = true ∨ Uncopied k run.w b

/-- The write marks its blocks, all of them unless it goes to a shared range. -/
theorem Shared.Writes.marked (writes : s.Writes c req fails outcomes k run)
    (own : run.w.shared = false) :
    run.ended.isBlockCopied c b = true ↔ k.copied b = true ∨ Uncopied k run.w b := by
  obtain ⟨k₁, k₂, k₃, _, child₃, begun, stored, ended⟩ := writes.children
  obtain ⟨_, _, _, shape⟩ := writes.shape
  rw [uncopied_iff shape]
  unfold Shared.isBlockCopied
  rw [child₃, Option.any_some, ended.copied, stored.copied, begun.copied, own]
  cases k.copied b with
  | true => simp
  | false => simp

/-- Nothing is marked by a write to a shared range. -/
theorem Shared.Writes.own_of_marked (writes : s.Writes c req fails outcomes k run)
    (unmarked : k.copied b = false) (marked : run.ended.isBlockCopied c b = true) :
    run.w.shared = false := by
  obtain ⟨k₁, k₂, k₃, _, child₃, begun, stored, ended⟩ := writes.children
  unfold Shared.isBlockCopied at marked
  rw [child₃, Option.any_some, ended.copied, stored.copied, begun.copied, unmarked] at marked
  simp only [Bool.false_or, Bool.and_eq_true, Bool.not_eq_true'] at marked
  exact marked.2

/-- What the child has of a block once the write begins. -/
theorem Shared.Writes.begunByte (writes : s.Writes c req fails outcomes k run)
    (below : x < k.copySize) (uncopied : Uncopied k run.w (x / pageSize)) :
    run.begun.childByte c x =
      some (if run.w.copiesUp (x / pageSize) = true ∧ fails (x / pageSize) = false then
        s.sourceByte c x else k.file.byteAt x) := by
  obtain ⟨k₁, k₂, k₃, child₁, _, begun, _, _⟩ := writes.children
  obtain ⟨slot, _, _, shape⟩ := writes.shape
  obtain ⟨member, unmarked⟩ := (uncopied_iff shape).mp uncopied
  unfold Shared.childByte
  rw [child₁, Option.map_some, begun.byteAt x below, slot]
  simp only [member, unmarked, true_and]

/-- Every block is copied up or overwritten, exactly when for every block that is covered
in part only the copy succeeds, or the child happens to have what it would bring. -/
theorem copy_up_covers_iff (here : s.child c = some k)
    (ran : s.bufferedWriteIter c req fails outcomes = some run) (own : run.w.shared = false)
    (plain : req.append = false) (full : run.ret = run.w.len) :
    CopyUpCovers s c k outcomes run ↔
      ∀ b, Uncopied k run.w b → ¬ run.w.covers b → fails b = false ∨
        ∀ x, x / pageSize = b → x < k.copySize → k.file.byteAt x = s.sourceByte c x := by
  obtain ⟨k', writes⟩ := writes_of_bufferedWriteIter ran
  obtain rfl : k' = k := Option.some.inj (writes.child.symm.trans here)
  obtain ⟨_, _, asked, shape⟩ := writes.shape
  have positive : 0 < run.w.asked := by
    rw [asked]
    exact List.length_pos_iff.mpr fun empty => writes.passes (by rw [empty, List.take_nil])
  have overwritten := writes.overwritten_iff plain full
  have copies : ∀ b, Uncopied k' run.w b → run.w.covers b ∨ run.w.copiesUp b = true := by
    intro b uncopied
    have member := mem_blocks.mp ((uncopied_iff shape).mp uncopied).1
    exact (shape.copiesUp_or_covers own positive member.1 member.2).symm
  constructor
  · intro covers b uncopied part
    rcases covers.covered b uncopied with copied | whole
    · cases failed : fails b with
      | false => exact .inl rfl
      | true =>
          right
          rintro x rfl below
          have byte := writes.begunByte below uncopied
          rw [copied x rfl below, failed, if_neg fun h => by cases h.2] at byte
          exact (Option.some.inj byte).symm
    · exact absurd ((overwritten b).mp whole) part
  · intro supplied
    refine ⟨fun b uncopied => ?_, fun b => writes.marked own⟩
    by_cases whole : run.w.covers b
    · exact .inr ((overwritten b).mpr whole)
    · left
      rintro x rfl below
      rw [writes.begunByte below uncopied]
      have up := (copies _ uncopied).resolve_left whole
      rcases supplied _ uncopied whole with succeeds | same
      · rw [if_pos ⟨up, succeeds⟩]
      · rw [same x rfl below, ite_self]

/-- A parent of 8192 bytes that are all 1 and in memory, with a child just made. -/
def parentOfOnes : Shared := (justMade ⟨8192, fun _ => 1⟩ fun _ => true).shared

/-- A write of one byte to a file of two blocks. -/
def oneByte : IoReq := ⟨0, [7], false, 1⟩

/-- One byte in the first block, which is copied up. -/
theorem copy_up_covers_one_byte : ∃ k run, parentOfOnes.child 0 = some k ∧
    parentOfOnes.bufferedWriteIter 0 oneByte (fun _ => false) [.copied 1] = some run ∧
      CopyUpCovers parentOfOnes 0 k [.copied 1] run := by
  have runs : (parentOfOnes.bufferedWriteIter 0 oneByte (fun _ => false) [.copied 1]).any
      (fun run => !run.w.shared && decide (run.ret = run.w.len)) = true := by
    decide +kernel
  obtain ⟨run, ran, parts⟩ := (Option.any_eq_true _ _).mp runs
  simp only [Bool.and_eq_true, Bool.not_eq_true', decide_eq_true_eq] at parts
  exact ⟨_, run, rfl, ran,
    (copy_up_covers_iff rfl ran parts.1 rfl parts.2).mpr fun _ _ _ => .inl rfl⟩

/-- The copy fails: the block is marked, and the rest of it is lost. -/
theorem copy_up_covers_fails : ∃ k run, parentOfOnes.child 0 = some k ∧
    parentOfOnes.bufferedWriteIter 0 oneByte (fun _ => true) [.copied 1] = some run ∧
      run.w.shared = false ∧ run.ret = run.w.len ∧
      ¬ CopyUpCovers parentOfOnes 0 k [.copied 1] run := by
  have runs : (parentOfOnes.bufferedWriteIter 0 oneByte (fun _ => true) [.copied 1]).any
      (fun run => !run.w.shared && decide (run.ret = run.w.len) &&
        decide (run.w.startBlock = 0 ∧ run.w.offset = 0 ∧ run.w.len = 1) &&
        decide (run.begun.childByte 0 1 = some 0) &&
        decide ((landsAt run.w.pos (run.w.stored [.copied 1]) 1) = none)) = true := by
    decide +kernel
  obtain ⟨run, ran, parts⟩ := (Option.any_eq_true _ _).mp runs
  simp only [Bool.and_eq_true, Bool.not_eq_true', decide_eq_true_eq] at parts
  obtain ⟨⟨⟨⟨own, full⟩, first, offset, len⟩, lost⟩, unwritten⟩ := parts
  refine ⟨_, run, rfl, ran, own, full, fun covers => ?_⟩
  rcases covers.covered 0 ⟨first.le, Nat.zero_le _, Nat.zero_le _, rfl⟩ with copied | whole
  · have byte := copied 1 (by decide) (by decide)
    rw [lost] at byte
    revert byte
    decide
  · have byte := whole 1 (by decide)
    rw [unwritten] at byte
    cases byte

/-! ## Writes as they come -/

/-- What copying up brings is the snapshot, unless `scorw_get_page` clears the last page of
the parent. -/
theorem sourceByte_eq_iff :
    s.sourceByte c x = s.snapshotByte c x ↔ (s.findPageCopy (x / pageSize) c).isSome = true ∨
      s.par.cached (x / pageSize) = true ∨ x / pageSize < s.par.file.size / pageSize ∨
      s.par.file.byteAt x = 0 := by
  unfold Shared.sourceByte Shared.snapshotByte
  cases s.findPageCopy (x / pageSize) c with
  | some p => simp
  | none =>
      dsimp only
      rw [byteAt_getPage]
      cases cached : s.par.cached (x / pageSize) with
      | true => simp
      | false =>
          by_cases inner : x / pageSize < s.par.file.size / pageSize
          · simp [inner]
          · simp [inner, Nat.not_lt.mp inner, eq_comm]

/-- Every block that has become marked holds its part of the snapshot, with the bytes that
were put in place over it. -/
def MarkedHold (s : Shared) (c : Nat) (k : CowChild) (outcomes : List PageOutcome)
    (run : WriteRun) : Prop :=
  ∀ b, k.copied b = false → run.ended.isBlockCopied c b = true →
    ∀ x, x / pageSize = b → x < k.copySize →
      run.ended.childByte c x =
        some ((landsAt run.w.pos (run.w.stored outcomes) x).getD (s.snapshotByte c x))

/-- Where the rest of a block comes from: a copy that succeeds, if the block is copied up
and the page of the parent is not cleared, or else the child. -/
def Supplied (s : Shared) (c : Nat) (k : CowChild) (w : ChildWrite) (fails : Nat → Bool)
    (x : Nat) : Prop :=
  if w.copiesUp (x / pageSize) = true ∧ fails (x / pageSize) = false then
    (s.findPageCopy (x / pageSize) c).isSome = true ∨ s.par.cached (x / pageSize) = true ∨
      x / pageSize < s.par.file.size / pageSize ∨ s.par.file.byteAt x = 0
  else k.file.byteAt x = s.snapshotByte c x

instance (s : Shared) (c : Nat) (k : CowChild) (w : ChildWrite) (fails : Nat → Bool) (x : Nat) :
    Decidable (Supplied s c k w fails x) := inferInstanceAs (Decidable (ite _ _ _))

theorem supplied_iff {w : ChildWrite} : Supplied s c k w fails x ↔
    (if w.copiesUp (x / pageSize) = true ∧ fails (x / pageSize) = false then s.sourceByte c x
      else k.file.byteAt x) = s.snapshotByte c x := by
  unfold Supplied
  split
  · exact sourceByte_eq_iff.symm
  · exact Iff.rfl

/-- What the child has of a block when the write is over. -/
theorem Shared.Writes.endedByte (writes : s.Writes c req fails outcomes k run)
    (own : run.w.shared = false) (below : x < k.copySize)
    (uncopied : Uncopied k run.w (x / pageSize)) :
    run.ended.childByte c x = some ((landsAt run.w.pos (run.w.stored outcomes) x).getD
      (if run.w.copiesUp (x / pageSize) = true ∧ fails (x / pageSize) = false then
        s.sourceByte c x else k.file.byteAt x)) := by
  have first := writes.begunByte below uncopied
  obtain ⟨k₁, k₂, k₃, child₁, child₃, _, stored, ended⟩ := writes.children
  unfold Shared.childByte at first ⊢
  rw [child₁, Option.map_some] at first
  rw [child₃, Option.map_some, ended.file, stored.byteAt own, Option.some.inj first]

/-- A write to the child of `parentOfOnes`, with copies that succeed, after which a block is
marked that does not hold its part of the snapshot. -/
def LosesBlock (req : IoReq) (outcomes : List PageOutcome) : Prop :=
  ∃ k run, parentOfOnes.child 0 = some k ∧
    parentOfOnes.bufferedWriteIter 0 req (fun _ => false) outcomes = some run ∧
      ¬ MarkedHold parentOfOnes 0 k outcomes run

theorem losesBlock_of_run {req : IoReq} {outcomes : List PageOutcome}
    (runs : (parentOfOnes.bufferedWriteIter 0 req (fun _ => false) outcomes).any (fun run =>
      run.ended.isBlockCopied 0 0 && decide (run.ended.childByte 0 5 = some 0) &&
        decide (landsAt run.w.pos (run.w.stored outcomes) 5 = none)) = true) :
    LosesBlock req outcomes := by
  obtain ⟨run, ran, parts⟩ := (Option.any_eq_true _ _).mp runs
  simp only [Bool.and_eq_true, decide_eq_true_eq] at parts
  obtain ⟨⟨marked, lost⟩, unwritten⟩ := parts
  refine ⟨_, run, rfl, ran, fun holds => ?_⟩
  have byte := holds 0 rfl marked 5 (by decide) (by decide)
  rw [lost, unwritten] at byte
  revert byte
  decide

end FlexClone.Scorw.Cow
