import FlexClone.Scorw.CopyUp

/-!
# Read-only ranges

`scorw_write_child_blocks_begin` refuses a write when its scan of the ranges comes to a
read-only one. The scan gives up at the second block when the first has no range, it does
not search again while the range it is in goes on, and it looks at the position before
`O_APPEND` has moved it.

* `Shared.Writes.keepsByte`: what a call does not lock and does not write it does not change.
* `scanRanges_checked`: on which tables the scan sees every read-only block.
* `read_only_enforced_iff`: exactly on these, with files that end behind the read-only
  blocks, the ranges are enforced.
-/

namespace FlexClone.Scorw.Cow

variable {ranges : List ChildRange} {cr : Option ChildRange} {r : ChildRange} {s s' : Shared}
  {k : CowChild} {w : ChildWrite} {req : IoReq} {fails : Nat → Bool}
  {outcomes : List PageOutcome} {run : WriteRun} {c i b x start stop : Nat}

def WriteCh.isReadOnly (w : WriteCh) : Bool :=
  decide (w = .cowRo ∨ w = .seeThRo ∨ w = .sharedRo)

/-- A block within the copy size whose first range is read-only. -/
structure ReadOnlyBlock (ranges : List ChildRange) (copySize b : Nat) : Prop where
  within : b * pageSize < copySize
  readOnly : (rangeBehavior ranges b).isReadOnly = true

/-! ## What a call leaves alone -/

/-- Neither the parent nor the child changes at an offset. -/
structure KeepsByte (c x : Nat) (s s' : Shared) : Prop where
  par : s'.par.file.byteAt x = s.par.file.byteAt x
  child : s'.childByte c x = s.childByte c x

theorem KeepsByte.refl (s : Shared) : KeepsByte c x s s := ⟨rfl, rfl⟩

theorem KeepsByte.trans {s₁ s₂ : Shared} (first : KeepsByte c x s s₁)
    (second : KeepsByte c x s₁ s₂) : KeepsByte c x s s₂ :=
  ⟨second.par.trans first.par, second.child.trans first.child⟩

theorem keepsByte_setChild {j : Nat} {k' : CowChild} (here : s.child j = some k)
    (same : k'.file.byteAt x = k.file.byteAt x) : KeepsByte c x s (s.setChild j k') := by
  refine ⟨rfl, ?_⟩
  unfold Shared.childByte Shared.setChild
  dsimp only
  rw [Function.update_apply]
  split
  case isTrue at_ => rw [at_, here, Option.map_some, Option.map_some, same]
  case isFalse => rfl

theorem keepsByte_modifyChild {j : Nat} {change : CowChild → CowChild}
    (same : ∀ k, (change k).file.byteAt x = k.file.byteAt x) :
    KeepsByte c x s (s.modifyChild j change) := by
  refine ⟨rfl, ?_⟩
  unfold Shared.childByte Shared.modifyChild
  dsimp only
  rw [Function.update_apply]
  split
  case isTrue at_ =>
    rw [at_, Option.map_map]
    exact congrArg (fun f => (s.child j).map f) (funext same)
  case isFalse => rfl

theorem byteAt_copyPageFromPageCopy_of_ne {p : PageCopy} {disk : ByteFile UInt8}
    (other : x / pageSize ≠ p.blockNum) :
    (k.copyPageFromPageCopy p disk).file.byteAt x = k.file.byteAt x := by
  unfold CowChild.copyPageFromPageCopy
  dsimp only
  split
  · rfl
  · exact byteAt_paste_of_ne other

/-- Beginning a block changes nothing in the other blocks. -/
theorem keepsByte_beginBlock (here : s.child w.slot = some k) (other : x / pageSize ≠ i)
    (failed : Bool) : KeepsByte c x s (s.beginBlock k w i failed) := by
  unfold Shared.beginBlock
  split
  case isTrue => exact .refl s
  case isFalse =>
    dsimp only
    split
    case isFalse => exact keepsByte_setChild here rfl
    case isTrue =>
      split
      case h_1 p found =>
        have number : p.blockNum = i := blockNum_of_findPageCopy found
        have loaded : KeepsByte c x s (s.loadPageCopy i w.slot) := ⟨rfl, rfl⟩
        refine loaded.trans (keepsByte_setChild here ?_)
        split
        · rfl
        · exact byteAt_copyPageFromPageCopy_of_ne (number.symm ▸ other)
      case h_2 =>
        have page : KeepsByte c x s { s with par := getPage s.par i } := by
          refine ⟨?_, rfl⟩
          dsimp only
          rw [byteAt_getPage, if_neg fun h => other h.2.2]
        refine page.trans (keepsByte_setChild here ?_)
        split
        · rfl
        · exact byteAt_paste_of_ne other

theorem keepsByte_beginBlocks {blocks : List Nat} (here : s.child w.slot = some k)
    (outside : x / pageSize ∉ blocks) (begun : beginBlocks w fails blocks s = some s') :
    KeepsByte c x s s' := by
  induction blocks generalizing s k with
  | nil =>
      cases begun
      exact .refl _
  | cons i blocks ih =>
      unfold beginBlocks at begun
      rw [here, Option.bind_some] at begun
      split at begun
      case isTrue => cases begun
      case isFalse =>
        obtain ⟨k₁, here₁, _⟩ := beginBlock_child here i fails
        have first := keepsByte_beginBlock (c := c) here (List.ne_of_not_mem_cons outside) (fails i)
        exact first.trans (ih here₁ (List.not_mem_of_not_mem_cons outside) begun)

theorem keepsByte_setLocked (s : Shared) (w : ChildWrite) (locked : Bool) :
    KeepsByte c x s (s.setLocked w locked) := by
  unfold Shared.setLocked
  split
  · exact ⟨rfl, rfl⟩
  · exact keepsByte_modifyChild fun _ => rfl

theorem keepsByte_storeChild {bs : List UInt8} (missed : landsAt w.pos bs x = none) :
    KeepsByte c x s (s.storeChild w bs) := by
  have noted : KeepsByte c x s (s.modifyChild w.slot fun k =>
      { k with written := fun x => (landsAt w.pos bs x).or (k.written x) }) :=
    keepsByte_modifyChild fun _ => rfl
  unfold Shared.storeChild
  dsimp only
  split
  case isTrue =>
    refine noted.trans ⟨?_, rfl⟩
    dsimp only
    rw [CachedFile.byteAt_put, missed, Option.getD_none]
  case isFalse =>
    refine noted.trans (keepsByte_modifyChild fun k => ?_)
    dsimp only
    split
    · rfl
    · rw [ByteFile.byteAt_put, missed, Option.getD_none]

theorem keepsByte_performWrite {done : Nat} {ret : Int}
    (missed : landsAt w.pos w.data x = none)
    (looped : performWrite outcomes w done s = some (ret, s')) : KeepsByte c x s s' := by
  induction outcomes generalizing s w done with
  | nil => cases looped
  | cons outcome rest ih =>
      -- the bytes of this pass, and those behind them
      have parts := landsAt_append w.pos (storedBytes outcome w.pos w.data)
        (w.data.drop (storedBytes outcome w.pos w.data).length) x
      have whole : storedBytes outcome w.pos w.data ++
          w.data.drop (storedBytes outcome w.pos w.data).length = w.data := by
        nth_rewrite 1 [← take_length_storedBytes]
        exact List.take_append_drop ..
      rw [whole, missed] at parts
      obtain ⟨later, now⟩ := Option.or_eq_none_iff.mp parts.symm
      have first : KeepsByte c x s _ := keepsByte_storeChild now
      unfold performWrite at looped
      dsimp only at looped
      split at looped
      case h_1 =>
        cases looped
        exact first
      case h_2 => exact first.trans (ih later looped)

theorem keepsByte_endBlocks {blocks : List Nat} (here : s.child w.slot = some k)
    (ended : endBlocks w blocks s = some s') : KeepsByte c x s s' := by
  induction blocks generalizing s k with
  | nil =>
      cases ended
      exact .refl _
  | cons i blocks ih =>
      unfold endBlocks at ended
      rw [here, Option.bind_some] at ended
      obtain ⟨k₁, here₁, _⟩ := endBlock_child here i
      have first : KeepsByte c x s (s.endBlock k w i) := by
        unfold Shared.endBlock
        split
        · exact .refl s
        · exact keepsByte_setChild here rfl
      exact first.trans (ih here₁ ended)

/-- What a call does not lock and does not write it does not change. -/
theorem Shared.Writes.keepsByte (writes : s.Writes c req fails outcomes k run)
    (outside : x / pageSize ∉ run.w.blocks) (missed : landsAt run.w.pos run.w.data x = none) :
    KeepsByte c x s run.ended := by
  obtain ⟨rfl, _⟩ := writes.shape
  obtain ⟨k₃, child₃, ends⟩ := Option.bind_eq_some_iff.mp writes.ends
  have begun := keepsByte_beginBlocks (c := run.w.slot) writes.child outside writes.begins
  have locked := begun.trans (keepsByte_setLocked run.begun run.w true)
  have looped := locked.trans (keepsByte_performWrite missed writes.loops)
  have unlocked := looped.trans (keepsByte_setLocked run.looped run.w false)
  exact unlocked.trans (keepsByte_endBlocks child₃ ends)

/-! ## The scan of the ranges -/

/-- A scan that begins before the block sees it as what it is: every block before it lies
in a range, and no writable range goes on from there to the block. -/
def SeenByScans (ranges : List ChildRange) (b : Nat) : Prop :=
  ∀ i < b, ∃ r, firstRange ranges i = some r ∧
    (r.snapxBehavior.isReadOnly = true ∨ r.stop < b)

/-- The pointer of a scan at block `i` is at a writable range it has come through. -/
def PointerBefore (ranges : List ChildRange) (i : Nat) (cr : Option ChildRange) : Prop :=
  ∀ q, cr = some q → ∃ j < i, firstRange ranges j = some q ∧ q.snapxBehavior.isReadOnly = false

/-- One block that the scan lets pass. -/
theorem snapxGetRangeInfo_checked (pointer : PointerBefore ranges i cr)
    (seen : (rangeBehavior ranges i).isReadOnly = true → SeenByScans ranges i)
    (passes : (snapxGetRangeInfo ranges cr i).1.isReadOnly = false) :
    (rangeBehavior ranges i).isReadOnly = false ∧
      PointerBefore ranges (i + 1) (snapxGetRangeInfo ranges cr i).2 := by
  cases next : firstRange ranges i with
  | none =>
      refine ⟨?_, ?_⟩
      · rw [rangeBehavior_of_none next]
        rfl
      · cases cr with
        | none =>
            rw [snapxGetRangeInfo_none next]
            exact fun q impossible => by cases impossible
        | some q =>
            obtain ⟨j, before, first, writable⟩ := pointer q rfl
            rw [snapxGetRangeInfo_kept first (.inr next)]
            rintro q' same
            cases same
            exact ⟨j, by omega, first, writable⟩
  | some r =>
      by_cases stale : ∀ q, cr = some q → q.stop < i
      · rw [snapxGetRangeInfo_first next stale] at passes ⊢
        refine ⟨?_, ?_⟩
        · rw [rangeBehavior_of_first next]
          exact passes
        · rintro q same
          cases same
          exact ⟨i, Nat.lt_succ_self i, next, passes⟩
      · push Not at stale
        obtain ⟨q, same, inside⟩ := stale
        obtain ⟨j, before, first, writable⟩ := pointer q same
        subst same
        rw [snapxGetRangeInfo_kept first (.inl inside)]
        refine ⟨?_, ?_⟩
        · -- the range would have been left before a read-only block
          by_contra readOnly
          obtain ⟨r', first', ends⟩ := seen (Bool.eq_true_of_not_eq_false readOnly) j before
          cases first'.symm.trans first
          rcases ends with readOnly | ended
          · rw [writable] at readOnly
            cases readOnly
          · omega
        · rintro q' same
          cases same
          exact ⟨j, by omega, first, writable⟩

/-- A pointer is only missing while no block has had a range. -/
theorem firstRange_of_pointer_none (missing : (snapxGetRangeInfo ranges cr i).2 = none) :
    cr = none ∧ firstRange ranges i = none := by
  unfold snapxGetRangeInfo at missing
  split at missing
  case isTrue empty =>
    rw [empty]
    exact ⟨missing, rfl⟩
  case isFalse =>
    dsimp only at missing
    split at missing
    case h_2 => cases missing
    case h_1 none_ =>
      cases cr with
      | none =>
          refine ⟨rfl, ?_⟩
          rw [if_pos Option.all_none, Option.or_none] at none_
          exact none_
      | some q =>
          split at none_
          · cases found : ranges.find? (·.contains i) <;> rw [found] at none_ <;> cases none_
          · cases none_

/-- A scan that does not refuse the write has no read-only block in the write. -/
theorem scanRanges_checked {n last : Nat} {shr shr' : SharingRangeInfo}
    (seen : ∀ b ≤ stop, (rangeBehavior ranges b).isReadOnly = true → SeenByScans ranges b)
    (after : start ≤ i) (upto : i + n = stop + 1) (pointer : PointerBefore ranges i cr)
    (gap : cr = none → i ≠ start → firstRange ranges start = none)
    (later : shr.initialized = true → start < i)
    (scanned : scanRanges ranges start stop (List.range' i n) cr shr = some (shr', last)) :
    ∀ b, i ≤ b → b ≤ last → (rangeBehavior ranges b).isReadOnly = false := by
  induction n generalizing i cr shr with
  | zero =>
      cases scanned
      intro b lower upper
      omega
  | succ n ih =>
      rw [List.range'_succ] at scanned
      unfold scanRanges at scanned
      split at scanned
      case isTrue left =>
        -- the scan gives up, so no block behind may be read-only
        cases scanned
        intro b lower upper
        by_contra readOnly
        obtain ⟨r, first, _⟩ :=
          seen b upper (Bool.eq_true_of_not_eq_false readOnly) start (by omega)
        rw [gap left.1 left.2] at first
        cases first
      case isFalse goesOn =>
        dsimp only at scanned
        split at scanned
        case isTrue leaves =>
          have second := later leaves.2
          cases scanned
          intro b lower upper
          omega
        case isFalse =>
          have along {shr₁ : SharingRangeInfo}
              (passes : (snapxGetRangeInfo ranges cr i).1.isReadOnly = false)
              (scanned : scanRanges ranges start stop (List.range' (i + 1) n)
                (snapxGetRangeInfo ranges cr i).2 shr₁ = some (shr', last)) :
              ∀ b, i ≤ b → b ≤ last → (rangeBehavior ranges b).isReadOnly = false := by
            obtain ⟨here, pointer'⟩ := snapxGetRangeInfo_checked pointer (seen i (by omega)) passes
            have rest := ih (by omega) (by omega) pointer' (fun missing _ => by
              obtain ⟨none_, unranged⟩ := firstRange_of_pointer_none missing
              by_cases first : i = start
              · rw [← first]
                exact unranged
              · exact gap none_ first) (fun _ => by omega) scanned
            intro b lower upper
            rcases Nat.lt_or_eq_of_le lower with behind | rfl
            · exact rest b behind upper
            · exact here
          split at scanned
          case h_1 | h_2 | h_3 => cases scanned
          case h_4 shared =>
            split at scanned
            case isTrue cut =>
              have second := cut.1
              cases scanned
              intro b lower upper
              omega
            case isFalse =>
              have passes : (snapxGetRangeInfo ranges cr i).1.isReadOnly = false := by
                rw [shared]
                rfl
              split at scanned
              · exact along passes scanned
              · exact along passes scanned
          case h_5 cow | h_6 cow =>
            refine along ?_ scanned
            rw [cow]
            rfl

/-- The write that is left has no read-only block. -/
theorem startWrite_checked (starts : k.startWrite c req = some w) (some_ : req.data ≠ [])
    (seen : ∀ b ≤ k.lastBlock, (rangeBehavior k.ranges b).isReadOnly = true →
      SeenByScans k.ranges b) :
    ∀ b ∈ w.blocks, (rangeBehavior k.ranges b).isReadOnly = false := by
  intro b member
  obtain ⟨lower, upper⟩ := mem_blocks.mp member
  obtain ⟨⟨shr, last⟩, found, rfl⟩ := Option.map_eq_some_iff.mp starts
  unfold CowChild.rangesOf at found
  dsimp only at found
  split at found
  case isTrue behind =>
    cases found
    have clamped : k.endBlock req.offset req.data.length ≤ k.lastBlock := min_le_right _ _
    have first : req.offset / pageSize ≤ b := lower
    have last : b ≤ k.endBlock req.offset req.data.length := upper
    omega
  case isFalse within =>
    have ordered := startBlock_le_endBlock (List.length_pos_iff.mpr some_) (Nat.not_lt.mp within)
    refine scanRanges_checked ?_ le_rfl ?_ ?_ (fun _ other => absurd rfl other) ?_ found b lower
      upper
    · exact fun b inside => seen b (le_trans inside (min_le_right _ _))
    · omega
    · exact fun q none_ => by cases none_
    · exact fun fresh => by cases fresh

/-- A write whose first block is read-only is refused. -/
theorem startWrite_refused (within : req.offset / pageSize ≤ k.lastBlock) (some_ : req.data ≠ [])
    (readOnly : (rangeBehavior k.ranges (req.offset / pageSize)).isReadOnly = true) :
    k.startWrite c req = none := by
  have ordered := startBlock_le_endBlock (List.length_pos_iff.mpr some_) within
  have blocks : k.endBlock req.offset req.data.length + 1 - req.offset / pageSize =
      (k.endBlock req.offset req.data.length - req.offset / pageSize) + 1 := by omega
  have answer : (snapxGetRangeInfo k.ranges none (req.offset / pageSize)).1.isReadOnly = true := by
    rw [snapxGetRangeInfo_start]
    exact readOnly
  have refused : k.rangesOf req.offset req.data.length = none := by
    unfold CowChild.rangesOf
    dsimp only
    rw [if_neg (Nat.not_lt.mpr within), blocks, List.range'_succ]
    unfold scanRanges
    rw [if_neg fun h => h.2 rfl]
    dsimp only
    rw [if_neg fun h => by cases h.2]
    generalize (snapxGetRangeInfo k.ranges none (req.offset / pageSize)).1 = got at answer
    cases got with
    | cow | seeTh | shared => cases answer
    | cowRo | seeThRo | sharedRo => rfl
  unfold CowChild.startWrite
  rw [refused, Option.map_none]

/-! ## Tables and files for which it is enough -/

/-- No call changes a byte of a read-only block, and one that begins in a read-only range
returns an error and does nothing else. -/
structure ReadOnlyEnforced (s : Shared) (c : Nat) (k : CowChild) : Prop where
  kept : ∀ req fails outcomes run, s.bufferedWriteIter c req fails outcomes = some run →
    ∀ x, ReadOnlyBlock k.ranges k.copySize (x / pageSize) → KeepsByte c x s run.ended
  refused : ∀ req, req.data.take req.allowed ≠ [] →
    (rangeBehavior k.ranges (req.offset / pageSize)).isReadOnly = true →
    move s .idle (.writeChild c req) = some (.returns (-1), .idle, s)

/-- What the checks rely on. -/
structure ReadOnlyChecked (ranges : List ChildRange) (copySize size : Nat) : Prop where
  /-- the scan sees the read-only blocks -/
  seen : ∀ b, ReadOnlyBlock ranges copySize b → SeenByScans ranges b
  /-- appending does not touch them -/
  full : ∀ b, ReadOnlyBlock ranges copySize b → b * pageSize + pageSize ≤ size
  /-- no read-only range goes beyond the copy size -/
  ends : ∀ b, (rangeBehavior ranges b).isReadOnly = true →
    copySize = 0 ∧ b < 2 ^ 32 ∨ b * pageSize < copySize

theorem le_lastBlock_of_ends {b : Nat}
    (ends : k.copySize = 0 ∧ b < 2 ^ 32 ∨ b * pageSize < k.copySize) : b ≤ k.lastBlock := by
  rcases ends with ⟨empty, below⟩ | within
  · unfold CowChild.lastBlock
    rw [if_pos empty]
    omega
  · exact (le_lastBlock_iff (by omega)).mpr within

/-- The data of a write lands in the blocks it has locked, unless it is appended or lies
behind the copy size. -/
theorem mem_blocks_of_lands (starts : k.startWrite c req = some w) (shape : WriteShape k w)
    (plain : req.append = false) (eligible : x / pageSize ≤ k.lastBlock)
    (lands : (landsAt w.pos w.data x).isSome = true) : x / pageSize ∈ w.blocks := by
  obtain ⟨⟨shr, last⟩, found, started⟩ := Option.map_eq_some_iff.mp starts
  have pos : w.pos = w.offset := by
    rw [← started]
    dsimp only
    rw [plain, if_neg Bool.false_ne_true]
  have length : w.data.length ≤ w.len := by
    rw [← started]
    exact List.length_take_le _ _
  obtain ⟨lower, upper⟩ := isSome_landsAt.mp lands
  rw [pos] at lower upper
  rw [mem_blocks, ← shape.endBlock_eq]
  exact ⟨Nat.div_le_div_right lower, le_min (Nat.div_le_div_right (by omega)) eligible⟩

theorem ReadOnlyChecked.kept {size : Nat} (checked : ReadOnlyChecked k.ranges k.copySize size)
    (end_ : k.file.size = size) (writes : s.Writes c req fails outcomes k run)
    (readOnly : ReadOnlyBlock k.ranges k.copySize (x / pageSize)) :
    KeepsByte c x s run.ended := by
  have positive : 0 < k.copySize := by
    have within := readOnly.within
    omega
  have some_ : req.data ≠ [] := fun empty => writes.passes (by rw [empty, List.take_nil])
  have outside : x / pageSize ∉ run.w.blocks := by
    intro member
    have writable := startWrite_checked writes.starts some_ (fun b eligible readOnly =>
      checked.seen b ⟨(le_lastBlock_iff positive).mp eligible, readOnly⟩) _ member
    rw [readOnly.readOnly] at writable
    cases writable
  refine writes.keepsByte outside (Option.not_isSome_iff_eq_none.mp fun lands => ?_)
  cases append : req.append with
  | false =>
      obtain ⟨_, _, _, shape⟩ := writes.shape
      have eligible := (le_lastBlock_iff positive).mpr readOnly.within
      exact outside (mem_blocks_of_lands writes.starts shape append eligible lands)
  | true =>
      obtain ⟨_, _, started⟩ := Option.map_eq_some_iff.mp writes.starts
      have pos : run.w.pos = size := by
        rw [← started, ← end_]
        dsimp only
        rw [append, if_pos rfl]
      have full := checked.full _ readOnly
      have lower := (isSome_landsAt.mp lands).1
      have place := Nat.div_add_mod' x pageSize
      have short := Nat.mod_lt x pageSize_pos
      omega

/-! ## Writes that get past the checks -/

/-- What a shared write has put in place at the end. -/
theorem byteAt_par_performWrite {done : Nat} {ret : Int} (shared : w.shared = true)
    (looped : performWrite outcomes w done s = some (ret, s')) (x : Nat) :
    s'.par.file.byteAt x = (landsAt w.pos (w.stored outcomes) x).getD (s.par.file.byteAt x) := by
  refine performWrite_rule (R := fun w bs s s' => w.shared = true →
    s'.par.file.byteAt x = (landsAt w.pos bs x).getD (s.par.file.byteAt x)) ?_ ?_ looped shared
  · intro w bs s shared
    have stored := (storeChild_effect (c := 0) s w bs).par x
    rwa [if_pos shared] at stored
  · intro w as bs s₁ s₂ s₃ first second shared
    rw [landsAt_append, second shared, first shared]
    cases landsAt (w.pos + as.length) bs x with
    | none => rfl
    | some byte => rfl

/-- A byte that is put in place is there at the end, in the child or in the parent. -/
theorem Shared.Writes.endsWith {byte : UInt8} (writes : s.Writes c req fails outcomes k run)
    (lands : landsAt run.w.pos (run.w.stored outcomes) x = some byte) :
    run.ended.childByte c x = some byte ∨ run.ended.par.file.byteAt x = byte := by
  cases shared : run.w.shared with
  | false =>
      left
      obtain ⟨k₁, k₂, k₃, _, child₃, _, stored, ended⟩ := writes.children
      unfold Shared.childByte
      rw [child₃, Option.map_some, ended.file, stored.byteAt shared, lands, Option.getD_some]
  | true =>
      right
      obtain ⟨k₃, child₃, ends⟩ := Option.bind_eq_some_iff.mp writes.ends
      have unlocked : KeepsByte c x run.looped (run.looped.setLocked run.w false) :=
        keepsByte_setLocked _ _ _
      have marked : KeepsByte c x _ run.ended := keepsByte_endBlocks child₃ ends
      rw [marked.par, unlocked.par, byteAt_par_performWrite shared writes.loops, lands,
        Option.getD_some]

/-- A child of zeros that nobody holds. -/
def childOfZeros (ranges : List ChildRange) (copySize size : Nat) : CowChild where
  file := .blank size
  version := 1
  copySize := copySize
  ranges := ranges
  copied := fun _ => false
  pendingCopyPages := 0
  copying := fun _ => false
  usageCount := 1
  locked := false
  written := fun _ => none

/-- Its family, with a parent of zeros that has the copy size. -/
def familyOfZeros (ranges : List ChildRange) (copySize size : Nat) : Shared :=
  { (justMade (.blank copySize) fun _ => false).shared with
    child := fun c => if c = 0 then some (childOfZeros ranges copySize size) else none }

/-- A write of ones that gets past the checks and lands in a read-only block. -/
theorem not_enforced {copySize size : Nat} (passes : req.data.take req.allowed ≠ [])
    (starts : (childOfZeros ranges copySize size).startWrite 0 req = some w)
    (lands : landsAt w.pos w.data x = some 1)
    (readOnly : ReadOnlyBlock ranges copySize (x / pageSize)) :
    ¬ ReadOnlyEnforced (familyOfZeros ranges copySize size) 0
      (childOfZeros ranges copySize size) := by
  intro enforced
  have unlocked : (familyOfZeros ranges copySize size).isLocked w = false := by
    unfold Shared.isLocked
    rw [slot_startWrite starts]
    split <;> rfl
  obtain ⟨outcomes, run, ran, rfl, stored⟩ := exists_bufferedWriteIter
    (s := familyOfZeros ranges copySize size) rfl passes starts (fun _ => rfl) unlocked
    fun _ => false
  obtain ⟨k, writes⟩ := writes_of_bufferedWriteIter ran
  have kept := enforced.kept _ _ _ _ ran x readOnly
  rcases writes.endsWith (stored.symm ▸ lands) with child | par
  · rw [kept.child] at child
    have zero : (familyOfZeros ranges copySize size).childByte 0 x = some 0 :=
      congrArg some (ByteFile.byteAt_blank size x)
    rw [zero] at child
    cases child
  · rw [kept.par] at par
    have zero : (familyOfZeros ranges copySize size).par.file.byteAt x = 0 :=
      ByteFile.byteAt_blank copySize x
    rw [zero] at par
    cases par

/-- A write that is let pass as it is. -/
theorem startWrite_whole {shr : SharingRangeInfo} {last : Nat}
    (found : k.rangesOf req.offset req.data.length = some (shr, last))
    (whole : shr.truncate req.offset req.data.length = req.data.length)
    (allowed : req.data.length ≤ req.allowed) :
    ∃ w, k.startWrite c req = some w ∧
      w.pos = (if req.append then k.file.size else req.offset) ∧ w.data = req.data := by
  unfold CowChild.startWrite
  rw [found, Option.map_some]
  refine ⟨_, rfl, rfl, ?_⟩
  dsimp only
  rw [whole, List.take_of_length_le allowed, List.take_length]

/-- A write of ones to the blocks from `i` to `b`. -/
def onesFrom (i b : Nat) : IoReq :=
  ⟨i * pageSize, List.replicate ((b + 1 - i) * pageSize) 1, false, (b + 1 - i) * pageSize⟩

theorem endBlock_onesFrom (before : i ≤ b) (eligible : b ≤ k.lastBlock) :
    k.endBlock (i * pageSize) ((b + 1 - i) * pageSize) = b := by
  have last : (i * pageSize + (b + 1 - i) * pageSize - 1) / pageSize = b := by
    rw [← Nat.add_mul, Nat.add_sub_cancel' (by omega), Nat.succ_mul]
    exact page_of_offset (Nat.sub_lt pageSize_pos one_pos)
  unfold CowChild.endBlock
  rw [last, min_eq_left eligible]

/-- A scan that begins outside the ranges gives up at the second block. -/
theorem scanRanges_gap (gap : firstRange ranges i = none) (before : i < b) :
    scanRanges ranges i b (List.range' i (b + 1 - i)) none .init = some (.init, b) := by
  have blocks : b + 1 - i = (b - i - 1) + 1 + 1 := by omega
  rw [blocks, List.range'_succ, List.range'_succ]
  unfold scanRanges
  rw [if_neg fun h => h.2 rfl, snapxGetRangeInfo_none gap]
  dsimp only
  rw [if_neg fun h => by cases h.2]
  unfold scanRanges
  rw [if_pos ⟨rfl, by omega⟩]

/-- What the scan has noted at a block of the range it began in. -/
def notedAt (r : ChildRange) (i j : Nat) : SharingRangeInfo :=
  if r.snapxBehavior = .shared then ⟨true, false, i, j⟩ else .init

/-- One block of a writable range, when the scan has the range already or begins in it. -/
theorem scanRanges_cons {j : Nat} {rest : List Nat} {shr : SharingRangeInfo}
    (writable : r.snapxBehavior.isReadOnly = false) (goesOn : ¬ (cr = none ∧ j ≠ i))
    (got : snapxGetRangeInfo ranges cr j = (r.snapxBehavior, some r))
    (noted : r.snapxBehavior = .shared ∧
        (j = i ∧ shr = .init ∨ shr = ⟨true, false, i, j - 1⟩ ∧ 0 < j) ∨
      r.snapxBehavior ≠ .shared ∧ shr = .init) :
    scanRanges ranges i b (j :: rest) cr shr =
      scanRanges ranges i b rest (some r) (notedAt r i j) := by
  rw [scanRanges, if_neg goesOn, got]
  dsimp only
  unfold notedAt
  rcases noted with ⟨shared, ⟨rfl, rfl⟩ | ⟨rfl, positive⟩⟩ | ⟨own, rfl⟩
  · rw [shared, if_neg (fun h => h.1 rfl)]
    dsimp only
    rw [if_neg (fun h => h.1 rfl), if_neg (by exact Bool.false_ne_true), if_pos rfl]
    rfl
  · rw [shared, if_neg (fun h => h.1 rfl)]
    dsimp only
    rw [if_neg (fun h => by cases h.2), if_pos rfl, if_pos rfl, Nat.sub_add_cancel positive]
  · rw [if_neg (fun h => by cases h.2), if_neg own]
    cases behavior : r.snapxBehavior with
    | cowRo | seeThRo | sharedRo =>
        rw [behavior] at writable
        cases writable
    | cow | seeTh => rfl
    | shared => exact absurd behavior own

/-- In a writable range the scan does not look at other ranges. -/
theorem scanRanges_inside (first : firstRange ranges i = some r)
    (writable : r.snapxBehavior.isReadOnly = false) {n j : Nat} (after : i < j)
    (inside : j + n ≤ r.stop + 1) :
    scanRanges ranges i b (List.range' j n) (some r) (notedAt r i (j - 1)) =
      some (notedAt r i (j + n - 1), b) := by
  induction n generalizing j with
  | zero => rfl
  | succ n ih =>
      have next := ih (j := j + 1) (by omega) (by omega)
      rw [Nat.add_sub_cancel] at next
      have last : j + (n + 1) - 1 = j + 1 + n - 1 := by omega
      rw [List.range'_succ, last, ← next]
      refine scanRanges_cons writable nofun (snapxGetRangeInfo_kept first (.inl (by omega))) ?_
      unfold notedAt
      by_cases shared : r.snapxBehavior = .shared
      · rw [if_pos shared]
        exact .inl ⟨shared, .inr ⟨rfl, by omega⟩⟩
      · rw [if_neg shared]
        exact .inr ⟨shared, rfl⟩

theorem scanRanges_runs (first : firstRange ranges i = some r)
    (writable : r.snapxBehavior.isReadOnly = false) (before : i ≤ b) (inside : b ≤ r.stop) :
    scanRanges ranges i b (List.range' i (b + 1 - i)) none .init = some (notedAt r i b, b) := by
  have blocks : b + 1 - i = (b - i) + 1 := by omega
  have rest := scanRanges_inside (b := b) (n := b - i) first writable (Nat.lt_succ_self i)
    (by omega)
  have last : i.succ + (b - i) - 1 = b := by omega
  rw [last, Nat.succ_sub_one] at rest
  rw [blocks, List.range'_succ, ← rest]
  refine scanRanges_cons writable (fun h => h.2 rfl)
    (snapxGetRangeInfo_first first fun q none_ => by cases none_) ?_
  by_cases shared : r.snapxBehavior = .shared
  · exact .inl ⟨shared, .inl ⟨rfl, rfl⟩⟩
  · exact .inr ⟨shared, rfl⟩

/-- A scan that comes to the last block lets the whole write pass. -/
theorem startWrite_onesFrom {shr : SharingRangeInfo} (before : i ≤ b) (eligible : b ≤ k.lastBlock)
    (found : scanRanges k.ranges i b (List.range' i (b + 1 - i)) none .init = some (shr, b))
    (reaches : (shr.initialized || shr.partialCow) = true → shr.endBlock = b) :
    ∃ w, k.startWrite c (onesFrom i b) = some w ∧
      landsAt w.pos w.data (b * pageSize) = some 1 := by
  have page := pageSize_pos
  have length : (onesFrom i b).data.length = (b + 1 - i) * pageSize := List.length_replicate
  have first : (onesFrom i b).offset / pageSize = i := Nat.mul_div_cancel i page
  have spans : i * pageSize + (b + 1 - i) * pageSize = b * pageSize + pageSize := by
    rw [← Nat.add_mul, Nat.add_sub_cancel' (by omega), Nat.succ_mul]
  have ranges : k.rangesOf (onesFrom i b).offset (onesFrom i b).data.length = some (shr, b) := by
    have last := endBlock_onesFrom before eligible
    unfold CowChild.rangesOf
    dsimp only
    rw [length, first, if_neg (by omega)]
    unfold onesFrom
    dsimp only
    rw [last]
    exact found
  have whole : shr.truncate (onesFrom i b).offset (onesFrom i b).data.length =
      (b + 1 - i) * pageSize := by
    rw [length]
    unfold SharingRangeInfo.truncate
    dsimp only
    rw [if_neg]
    rintro ⟨cuts, short⟩
    rw [reaches cuts] at short
    unfold onesFrom at short
    dsimp only at short
    omega
  obtain ⟨w, starts, pos, data⟩ := startWrite_whole (c := c) ranges (whole.trans length.symm)
    length.le
  refine ⟨w, starts, ?_⟩
  have lower : i * pageSize ≤ b * pageSize := Nat.mul_le_mul_right pageSize before
  rw [pos, data]
  unfold onesFrom landsAt
  dsimp only
  rw [if_neg Bool.false_ne_true, if_pos lower, List.getElem?_replicate, if_pos (by omega)]

/-- Ones at the end of the file, asked for at a block behind the copy size. -/
def onesAppended (blk n : Nat) : IoReq := ⟨blk * pageSize, List.replicate n 1, true, n⟩

/-- Behind the copy size nothing is checked. -/
theorem startWrite_behind (req : IoReq) (behind : k.lastBlock < req.offset / pageSize)
    (allowed : req.data.length ≤ req.allowed) :
    ∃ w, k.startWrite c req = some w ∧
      w.pos = (if req.append then k.file.size else req.offset) ∧ w.data = req.data := by
  refine startWrite_whole (if_pos behind) ?_ allowed
  unfold SharingRangeInfo.truncate
  exact if_neg (fun cuts => by cases cuts.1)

section Necessary

variable {copySize size : Nat}
  (zeros : ReadOnlyEnforced (familyOfZeros ranges copySize size) 0
    (childOfZeros ranges copySize size))

include zeros

/-- A scan from an earlier block does not let the read-only block pass. -/
theorem not_scanned_of_enforced {shr : SharingRangeInfo} (before : i < b)
    (readOnly : ReadOnlyBlock ranges copySize b)
    (reaches : (shr.initialized || shr.partialCow) = true → shr.endBlock = b) :
    scanRanges ranges i b (List.range' i (b + 1 - i)) none .init ≠ some (shr, b) := by
  intro found
  have page := pageSize_pos
  have eligible : b ≤ (childOfZeros ranges copySize size).lastBlock :=
    le_lastBlock_of_ends (.inr readOnly.within)
  obtain ⟨w, starts, lands⟩ := startWrite_onesFrom (c := 0)
    (k := childOfZeros ranges copySize size) before.le eligible found reaches
  refine not_enforced ?_ starts lands ?_ zeros
  · unfold onesFrom
    rw [List.take_of_length_le (by simp)]
    refine List.ne_nil_of_length_pos ?_
    rw [List.length_replicate]
    exact Nat.mul_pos (by omega) page
  · rw [Nat.mul_div_cancel b page]
    exact readOnly

theorem seen_of_enforced (readOnly : ReadOnlyBlock ranges copySize b) : SeenByScans ranges b := by
  intro i before
  cases first : firstRange ranges i with
  | none =>
      exact absurd (scanRanges_gap first before)
        (not_scanned_of_enforced zeros before readOnly nofun)
  | some r =>
      refine ⟨r, rfl, ?_⟩
      by_contra passes
      push Not at passes
      refine not_scanned_of_enforced zeros before readOnly (fun cuts => ?_)
        (scanRanges_runs first (Bool.eq_false_iff.mpr passes.1) before.le passes.2)
      unfold notedAt at cuts ⊢
      split
      case isTrue => rfl
      case isFalse own =>
        rw [if_neg own] at cuts
        cases cuts

/-- Otherwise ones are appended to the block. -/
theorem full_of_enforced (readOnly : ReadOnlyBlock ranges copySize b) :
    b * pageSize + pageSize ≤ size := by
  by_contra short
  have page := pageSize_pos
  -- the ones reach from the end of the file to the end of the block
  obtain ⟨w, starts, pos, data⟩ := startWrite_behind (c := 0)
    (k := childOfZeros ranges copySize size)
    (onesAppended ((childOfZeros ranges copySize size).lastBlock + 1)
      (b * pageSize + pageSize - size))
    (by
      unfold onesAppended
      rw [Nat.mul_div_cancel _ page]
      exact Nat.lt_succ_self _)
    List.length_replicate.le
  have lands : landsAt w.pos w.data (b * pageSize + (pageSize - 1)) = some 1 := by
    rw [pos, data]
    unfold onesAppended landsAt
    dsimp only
    have below : (childOfZeros ranges copySize size).file.size = size := rfl
    rw [if_pos rfl, below, if_pos (by omega), List.getElem?_replicate, if_pos (by omega)]
  refine not_enforced ?_ starts lands ?_ zeros
  · unfold onesAppended
    dsimp only
    rw [List.take_of_length_le List.length_replicate.le]
    refine List.ne_nil_of_length_pos ?_
    rw [List.length_replicate]
    omega
  · rw [page_of_offset (Nat.sub_lt page one_pos)]
    exact readOnly

/-- Otherwise a write to the block is not refused. -/
theorem ends_of_enforced (readOnly : (rangeBehavior ranges b).isReadOnly = true) :
    copySize = 0 ∧ b < 2 ^ 32 ∨ b * pageSize < copySize := by
  by_contra past
  have behind : (childOfZeros ranges copySize size).lastBlock < b := by
    by_contra inside
    refine past ?_
    by_cases empty : copySize = 0
    · left
      refine ⟨empty, ?_⟩
      have last : (childOfZeros ranges copySize size).lastBlock = 2 ^ 32 - 1 := if_pos empty
      omega
    · right
      exact (le_lastBlock_iff (k := childOfZeros ranges copySize size)
        (Nat.pos_of_ne_zero empty)).mp (Nat.not_lt.mp inside)
  let req : IoReq := ⟨b * pageSize, [1], false, 1⟩
  have first : req.offset / pageSize = b := Nat.mul_div_cancel b pageSize_pos
  obtain ⟨w, starts, _⟩ := startWrite_behind (c := 0)
    (k := childOfZeros ranges copySize size) req (first.symm ▸ behind) le_rfl
  have passes : req.data.take req.allowed ≠ [] := List.cons_ne_nil 1 []
  have here : (familyOfZeros ranges copySize size).child 0 =
    some (childOfZeros ranges copySize size) := rfl
  have refused := zeros.refused req passes (first.symm ▸ readOnly)
  unfold move at refused
  simp only [here, Option.map_some, if_neg passes, starts] at refused
  cases refused

end Necessary

theorem ReadOnlyChecked.enforced {copySize size : Nat}
    (checked : ReadOnlyChecked ranges copySize size) (here : s.child c = some k)
    (rangesEq : k.ranges = ranges) (copySizeEq : k.copySize = copySize)
    (sizeEq : k.file.size = size) : ReadOnlyEnforced s c k := by
  subst rangesEq copySizeEq
  constructor
  case kept =>
    intro req fails outcomes run ran x readOnly
    obtain ⟨k', writes⟩ := writes_of_bufferedWriteIter ran
    obtain rfl : k' = k := Option.some.inj (writes.child.symm.trans here)
    exact checked.kept sizeEq writes readOnly
  case refused =>
    intro req passes readOnly
    have some_ : req.data ≠ [] := fun empty => passes (by rw [empty, List.take_nil])
    have refused := startWrite_refused (c := c) (le_lastBlock_of_ends (checked.ends _ readOnly))
      some_ readOnly
    unfold move
    simp only [here, Option.map_some, if_neg passes, refused]

/-- Read-only ranges are enforced on all children with the ranges, the copy size and the
size, exactly when every block before a read-only one lies in a range that is read-only
itself or ends before it, the file does not end before the end of a read-only block, and no
read-only range goes beyond the copy size. -/
theorem read_only_enforced_iff (ranges : List ChildRange) (copySize size : Nat) :
    (∀ s c k, s.child c = some k → k.ranges = ranges → k.copySize = copySize →
        k.file.size = size → ReadOnlyEnforced s c k) ↔
      ReadOnlyChecked ranges copySize size := by
  constructor
  · intro enforced
    have zeros := enforced (familyOfZeros ranges copySize size) 0 _ rfl rfl rfl rfl
    exact ⟨fun _ => seen_of_enforced zeros, fun _ => full_of_enforced zeros,
      fun _ => ends_of_enforced zeros⟩
  · intro checked s c k here rangesEq copySizeEq sizeEq
    exact checked.enforced here rangesEq copySizeEq sizeEq

/-- The second block is read-only and the first has no range: a write across both is let
pass. -/
theorem read_only_enforced_fails : ∃ run,
    (familyOfZeros [⟨1, 1, .cowRo⟩] 8192 8192).bufferedWriteIter 0 ⟨4095, [7, 8], false, 2⟩
        (fun _ => false) [.copied 1, .copied 1] = some run ∧
      ReadOnlyBlock [⟨1, 1, .cowRo⟩] 8192 (4096 / pageSize) ∧
      (familyOfZeros [⟨1, 1, .cowRo⟩] 8192 8192).childByte 0 4096 = some 0 ∧
      run.ended.childByte 0 4096 = some 8 := by
  have runs : ((familyOfZeros [⟨1, 1, .cowRo⟩] 8192 8192).bufferedWriteIter 0
      ⟨4095, [7, 8], false, 2⟩ (fun _ => false) [.copied 1, .copied 1]).any (fun run =>
        run.ended.childByte 0 4096 = some 8) = true := by decide +kernel
  obtain ⟨run, ran, changed⟩ := (Option.any_eq_true _ _).mp runs
  exact ⟨run, ran, ⟨by decide, by decide⟩, by decide +kernel, of_decide_eq_true changed⟩

end FlexClone.Scorw.Cow
