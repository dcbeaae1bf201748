import FlexClone.Scorw.CowStorage
import FlexClone.Scorw.WriteRange

/-!
# A write to a child from end to end

`ext4_buffered_write_iter` on a child, with nobody else moving in between: the blocks are
locked and copied up (`scorw_write_child_blocks_begin`), the data loop puts the bytes in
place, and the blocks are marked (`scorw_write_child_blocks_end`). The moves are those of
the model of threads.

* `begun_beginBlocks`, `stored_performWrite`, `ended_endBlocks`: what each of the three
  functions does to the child.
* `run_bufferedWriteIter`: the call is a run of moves.
* `Shared.Writes.children`: the child after each of the functions.
* `exists_bufferedWriteIter`: a call that nobody holds up can write all its data.
-/

namespace FlexClone.Scorw.Cow

/-! ## The call -/

/-- The second loop of `scorw_write_child_blocks_begin`; `none` when a block is held by
somebody else, who is waited for. -/
def beginBlocks (w : ChildWrite) (fails : Nat → Bool) : List Nat → Shared → Option Shared
  | [], s => some s
  | i :: rest, s =>
      (s.child w.slot).bind fun k =>
        if k.copying i then none else beginBlocks w fails rest (s.beginBlock k w i (fails i))

/-- The data loop; `none` when it goes on after all outcomes. -/
def performWrite : List PageOutcome → ChildWrite → Nat → Shared → Option (Int × Shared)
  | [], _, _, _ => none
  | outcome :: rest, w, done, s =>
      let bs := storedBytes outcome w.pos w.data
      let s := s.storeChild w bs
      match loopReply outcome w.pos w.data done with
      | some ret => some (ret, s)
      | none =>
          performWrite rest { w with pos := w.pos + bs.length, data := w.data.drop bs.length }
            (done + bs.length) s

/-- The loop of `scorw_write_child_blocks_end`. -/
def endBlocks (w : ChildWrite) : List Nat → Shared → Option Shared
  | [], s => some s
  | i :: rest, s => (s.child w.slot).bind fun k => endBlocks w rest (s.endBlock k w i)

/-- The blocks `scorw_write_child_blocks_begin` goes through. -/
def ChildWrite.blocks (w : ChildWrite) : List Nat :=
  List.range' w.startBlock (w.endBlock + 1 - w.startBlock)

namespace Shared

/-- `scorw_write_child_blocks_begin`, once the ranges have been looked at. -/
def writeChildBlocksBegin (s : Shared) (w : ChildWrite) (fails : Nat → Bool) : Option Shared :=
  beginBlocks w fails w.blocks s

/-- `scorw_write_child_blocks_end` -/
def writeChildBlocksEnd (s : Shared) (w : ChildWrite) : Option Shared :=
  (s.child w.slot).bind fun k =>
    endBlocks w (List.range' w.startBlock (k.endBlock w.offset w.len + 1 - w.startBlock)) s

end Shared

/-- A write that has returned: what it was left with, and the family after each of the
three functions. -/
structure WriteRun where
  w : ChildWrite
  begun : Shared
  ret : Int
  looped : Shared
  ended : Shared

/-- `ext4_buffered_write_iter` of a child; `none` when there is nothing to write, a range
refuses the write or it has to wait. -/
def Shared.bufferedWriteIter (s : Shared) (c : Nat) (req : IoReq) (fails : Nat → Bool)
    (outcomes : List PageOutcome) : Option WriteRun :=
  (s.child c).bind fun k =>
    if req.data.take req.allowed = [] then none
    else
      (k.startWrite c req).bind fun w =>
        (s.writeChildBlocksBegin w fails).bind fun begun =>
          if begun.isLocked w then none
          else
            (performWrite outcomes w 0 (begun.setLocked w true)).bind fun looped =>
              ((looped.2.setLocked w false).writeChildBlocksEnd w).map fun ended =>
                ⟨w, begun, looped.1, looped.2, ended⟩

/-- The parts of a call that returns. -/
structure Shared.Writes (s : Shared) (c : Nat) (req : IoReq) (fails : Nat → Bool)
    (outcomes : List PageOutcome) (k : CowChild) (run : WriteRun) : Prop where
  child : s.child c = some k
  passes : req.data.take req.allowed ≠ []
  starts : k.startWrite c req = some run.w
  begins : s.writeChildBlocksBegin run.w fails = some run.begun
  unlocked : ¬ run.begun.isLocked run.w = true
  loops : performWrite outcomes run.w 0 (run.begun.setLocked run.w true) =
    some (run.ret, run.looped)
  ends : (run.looped.setLocked run.w false).writeChildBlocksEnd run.w = some run.ended

theorem writes_of_bufferedWriteIter {s : Shared} {c : Nat} {req : IoReq} {fails : Nat → Bool}
    {outcomes : List PageOutcome} {run : WriteRun}
    (ran : s.bufferedWriteIter c req fails outcomes = some run) :
    ∃ k, s.Writes c req fails outcomes k run := by
  obtain ⟨k, child, ran⟩ := Option.bind_eq_some_iff.mp ran
  split at ran
  case isTrue => cases ran
  case isFalse passes =>
    obtain ⟨w, starts, ran⟩ := Option.bind_eq_some_iff.mp ran
    obtain ⟨begun, begins, ran⟩ := Option.bind_eq_some_iff.mp ran
    split at ran
    case isTrue => cases ran
    case isFalse unlocked =>
      obtain ⟨looped, loops, ran⟩ := Option.bind_eq_some_iff.mp ran
      obtain ⟨ended, ends, rfl⟩ := Option.map_eq_some_iff.mp ran
      exact ⟨k, child, passes, starts, begins, unlocked, loops, ends⟩

/-! ## Locking and copying up -/

namespace Shared

/-- What copying up a block gives at an offset: the page copy if there is one, the page
`scorw_get_page` returns otherwise. -/
def sourceByte (s : Shared) (c x : Nat) : UInt8 :=
  match s.findPageCopy (x / pageSize) c with
  | some p => p.content s.par.disk (x % pageSize)
  | none => (getPage s.par (x / pageSize)).file.byteAt x

/-- What there is of the snapshot at an offset of a block that is not copied: the page copy
if there is one, the parent's file otherwise. -/
def snapshotByte (s : Shared) (c x : Nat) : UInt8 :=
  match s.findPageCopy (x / pageSize) c with
  | some p => p.content s.par.disk (x % pageSize)
  | none => s.par.file.byteAt x

end Shared

/-- What `scorw_write_child_blocks_begin` makes of a child, by the blocks it has been
through. -/
structure Begun (s : Shared) (w : ChildWrite) (fails : Nat → Bool) (blocks : List Nat)
    (k k' : CowChild) : Prop where
  copied : k'.copied = k.copied
  copySize : k'.copySize = k.copySize
  copying : ∀ i, k'.copying i = (k.copying i || decide (i ∈ blocks) && (w.shared || !k.copied i))
  byteAt : ∀ x < k.copySize, k'.file.byteAt x =
    if x / pageSize ∈ blocks ∧ k.copied (x / pageSize) = false ∧
        w.copiesUp (x / pageSize) = true ∧ fails (x / pageSize) = false then
      s.sourceByte w.slot x
    else k.file.byteAt x

section Begin

variable {s s' : Shared} {k k₁ k₂ : CowChild} {w : ChildWrite} {fails : Nat → Bool} {i n x : Nat}

theorem byteAt_paste_of_ne {blk len : Nat} {page : Nat → UInt8} (other : x / pageSize ≠ blk) :
    (k.paste blk len page).file.byteAt x = k.file.byteAt x := by
  unfold CowChild.paste
  by_cases inside : x < max k.file.size (blk * pageSize + len)
  · exact (if_pos inside).trans (if_neg other)
  · have past : k.file.size ≤ x := by omega
    rw [ByteFile.byteAt_of_size_le past]
    exact if_neg inside

theorem byteAt_paste_of_eq {blk len : Nat} {page : Nat → UInt8} (here : x / pageSize = blk)
    (below : x % pageSize < len) : (k.paste blk len page).file.byteAt x = page (x % pageSize) := by
  have place := Nat.div_add_mod' x pageSize
  rw [here] at place
  unfold CowChild.paste
  have inside : x < max k.file.size (blk * pageSize + len) := by omega
  exact (if_pos inside).trans ((if_pos here).trans (if_pos below))

theorem le_copyLen (copySize offset : Nat) :
    min pageSize (copySize - offset) ≤ copyLen copySize offset := by
  unfold copyLen
  split
  · exact min_le_left _ _
  · exact le_rfl

/-- A page that is pasted up to the copy size. -/
theorem byteAt_paste {blk len : Nat} {page : Nat → UInt8}
    (long : min pageSize (k.copySize - blk * pageSize) ≤ len) (below : x < k.copySize) :
    (k.paste blk len page).file.byteAt x =
      if x / pageSize = blk then page (x % pageSize) else k.file.byteAt x := by
  split
  case isTrue here =>
    have place := Nat.div_add_mod' x pageSize
    have short := Nat.mod_lt x pageSize_pos
    rw [here] at place
    exact byteAt_paste_of_eq here (by omega)
  case isFalse other => exact byteAt_paste_of_ne other

/-- The offset that is computed in 32 bits is never behind the page, so all of the page
that is below the copy size is copied. -/
theorem byteAt_copyPageFromPageCopy {p : PageCopy} {disk : ByteFile UInt8}
    (below : x < k.copySize) :
    (k.copyPageFromPageCopy p disk).file.byteAt x =
      if x / pageSize = p.blockNum then p.content disk (x % pageSize) else k.file.byteAt x := by
  have within : u32 (p.blockNum * pageSize) ≤ p.blockNum * pageSize := Nat.mod_le _ _
  have long := le_copyLen k.copySize (u32 (p.blockNum * pageSize))
  unfold CowChild.copyPageFromPageCopy
  dsimp only
  split
  case isTrue none =>
    have other : ¬ x / pageSize = p.blockNum := by
      rintro here
      have place := Nat.div_add_mod' x pageSize
      have positive := pageSize_pos
      rw [here] at place
      omega
    rw [if_neg other]
  case isFalse => exact byteAt_paste (by omega) below

theorem cached_getPage_of_ne (f : CachedFile UInt8 pageSize) {lblk blk : Nat} (other : blk ≠ lblk) :
    (getPage f lblk).cached blk = f.cached blk := by
  unfold getPage
  split
  · rfl
  · split
    · exact Function.update_of_ne other _ _
    · exact Function.update_of_ne other _ _

theorem blockNum_of_findPageCopy {p : PageCopy} {blk c : Nat}
    (found : s.findPageCopy blk c = some p) : p.blockNum = blk := by
  have hit : (p.blockNum == blk && p.isTargetChild c) = true :=
    List.find?_some (p := fun q : PageCopy => q.blockNum == blk && q.isTargetChild c) found
  simp only [Bool.and_eq_true, beq_iff_eq] at hit
  exact hit.1

theorem findPageCopy_loadPageCopy {blk : Nat} (other : blk ≠ i) (s : Shared) (j c : Nat) :
    (s.loadPageCopy i j).findPageCopy blk c = s.findPageCopy blk c := by
  unfold Shared.loadPageCopy Shared.findPageCopy
  dsimp only
  induction s.pageCopies with
  | nil => rfl
  | cons p ps ih =>
      rw [List.replaceF_cons]
      split
      case h_1 => rw [List.find?_cons, List.find?_cons, ih]
      case h_2 p' replaced =>
        split at replaced
        case isFalse => cases replaced
        case isTrue found =>
          cases replaced
          have number : p.blockNum = i := by
            simp only [Bool.and_eq_true, beq_iff_eq] at found
            exact found.1
          have missed : (p.blockNum == blk) = false := by
            rw [number]
            exact beq_false_of_ne (Ne.symm other)
          rw [List.find?_cons, List.find?_cons]
          simp only [missed, Bool.false_and]

/-- Beginning a block does not touch the sources of the others. -/
theorem sourceByte_beginBlock (other : x / pageSize ≠ i) (failed : Bool) (c : Nat) :
    (s.beginBlock k w i failed).sourceByte c x = s.sourceByte c x := by
  unfold Shared.beginBlock
  split
  case isTrue => rfl
  case isFalse =>
    dsimp only
    split
    case isFalse => rfl
    case isTrue =>
      split
      case h_1 =>
        have kept := findPageCopy_loadPageCopy other s w.slot c
        unfold Shared.sourceByte
        change (match (s.loadPageCopy i w.slot).findPageCopy (x / pageSize) c with
          | some p => p.content s.par.disk (x % pageSize)
          | none => (getPage s.par (x / pageSize)).file.byteAt x) = _
        rw [kept]
      case h_2 =>
        have inner : (getPage s.par i).file.byteAt x = s.par.file.byteAt x := by
          rw [byteAt_getPage, if_neg fun h => other h.2.2]
        have page : (getPage (getPage s.par i) (x / pageSize)).file.byteAt x =
            (getPage s.par (x / pageSize)).file.byteAt x := by
          rw [byteAt_getPage (getPage s.par i), inner, size_getPage,
            cached_getPage_of_ne _ other, byteAt_getPage s.par (x / pageSize)]
        unfold Shared.sourceByte
        change (match s.findPageCopy (x / pageSize) c with
          | some p => p.content (getPage s.par i).disk (x % pageSize)
          | none => (getPage (getPage s.par i) (x / pageSize)).file.byteAt x) = _
        rw [disk_getPage, page]

/-- A block that is locked, with what it is given then. -/
theorem begun_locked {k' : CowChild} (copied : k'.copied = k.copied)
    (copySize : k'.copySize = k.copySize) (copying : k'.copying = Function.update k.copying i true)
    (fresh : ¬ (!w.shared && k.copied i) = true)
    (byteAt : ∀ x < k.copySize, k'.file.byteAt x =
      if x / pageSize = i ∧ w.copiesUp i = true ∧ fails i = false then s.sourceByte w.slot x
      else k.file.byteAt x) :
    Begun s w fails [i] k k' := by
  have free : (w.shared || !k.copied i) = true := by
    cases shared : w.shared <;> cases done : k.copied i <;> simp_all
  refine ⟨copied, copySize, fun j => ?_, fun x below => ?_⟩
  · rw [copying, Function.update_apply]
    split
    case isTrue same => simp [same, free]
    case isFalse other => simp [other]
  · rw [byteAt x below]
    by_cases here : x / pageSize = i
    · rw [here]
      by_cases copies : w.copiesUp i = true
      · simp [unmarked_of_copiesUp copies fresh]
      · simp [copies]
    · simp [here]

/-- One block. -/
theorem beginBlock_child (here : s.child w.slot = some k) (i : Nat) (fails : Nat → Bool) :
    ∃ k', (s.beginBlock k w i (fails i)).child w.slot = some k' ∧ Begun s w fails [i] k k' := by
  unfold Shared.beginBlock
  split
  case isTrue done =>
    obtain ⟨own, marked⟩ := Bool.and_eq_true_iff.mp done
    refine ⟨k, here, rfl, rfl, fun j => ?_, fun x _ => ?_⟩
    · by_cases same : j = i
      · subst same
        simp_all
      · simp [same]
    · rw [if_neg]
      rintro ⟨member, unmarked, _⟩
      rw [List.mem_singleton.mp member, marked] at unmarked
      cases unmarked
  case isFalse fresh =>
    dsimp only
    have kept (bytes : w.copiesUp i = true → fails i = true) : ∀ x < k.copySize,
        k.file.byteAt x = if x / pageSize = i ∧ w.copiesUp i = true ∧ fails i = false then
          s.sourceByte w.slot x else k.file.byteAt x := by
      intro x _
      rw [if_neg]
      rintro ⟨_, copies, ok⟩
      rw [bytes copies] at ok
      cases ok
    split
    case isFalse whole =>
      refine ⟨_, Function.update_self .., begun_locked rfl rfl rfl fresh (kept fun copies => ?_)⟩
      exact absurd copies whole
    case isTrue copies =>
      split
      case h_1 p found =>
        refine ⟨_, Function.update_self .., ?_⟩
        have number : p.blockNum = i := blockNum_of_findPageCopy found
        cases failed : fails i with
        | true => exact begun_locked rfl rfl rfl fresh (kept fun _ => failed)
        | false =>
            refine begun_locked rfl rfl rfl fresh fun x below => ?_
            rw [if_neg Bool.false_ne_true]
            refine Eq.trans (byteAt_copyPageFromPageCopy ?_) ?_
            · exact below
            · rw [number]
              simp only [copies, failed, and_true]
              split
              case isTrue at_ =>
                unfold Shared.sourceByte
                rw [at_, found]
              case isFalse => rfl
      case h_2 missing =>
        refine ⟨_, Function.update_self .., ?_⟩
        cases failed : fails i with
        | true => exact begun_locked rfl rfl rfl fresh (kept fun _ => failed)
        | false =>
            refine begun_locked rfl rfl rfl fresh fun x below => ?_
            rw [if_neg Bool.false_ne_true]
            refine Eq.trans (byteAt_paste (le_copyLen _ _) ?_) ?_
            · exact below
            · simp only [copies, failed, and_true]
              split
              case isTrue at_ =>
                have place := Nat.div_add_mod' x pageSize
                rw [at_] at place
                unfold Shared.sourceByte
                rw [at_, missing, place]
              case isFalse => rfl

/-- A block and those behind it. -/
theorem Begun.cons {blocks : List Nat} (first : Begun s w fails [i] k k₁)
    (rest : Begun s' w fails blocks k₁ k₂) (once : i ∉ blocks)
    (sources : ∀ x, x / pageSize ≠ i → s'.sourceByte w.slot x = s.sourceByte w.slot x) :
    Begun s w fails (i :: blocks) k k₂ := by
  refine ⟨rest.copied.trans first.copied, rest.copySize.trans first.copySize, fun j => ?_,
    fun x below => ?_⟩
  · rw [rest.copying, first.copying, first.copied, Bool.or_assoc, ← Bool.and_or_distrib_right]
    simp
  · rw [rest.byteAt x (first.copySize ▸ below), first.byteAt x below, first.copied]
    by_cases here : x / pageSize = i
    · rw [here]
      simp [once]
    · simp [here, sources x here]

theorem begun_beginBlocks {blocks : List Nat} (once : blocks.Nodup)
    (here : s.child w.slot = some k) (begun : beginBlocks w fails blocks s = some s') :
    ∃ k', s'.child w.slot = some k' ∧ Begun s w fails blocks k k' := by
  induction blocks generalizing s k with
  | nil =>
      cases begun
      exact ⟨k, here, rfl, rfl, fun j => by simp, fun x _ => by simp⟩
  | cons i blocks ih =>
      unfold beginBlocks at begun
      rw [here, Option.bind_some] at begun
      split at begun
      case isTrue => cases begun
      case isFalse =>
        obtain ⟨new, once⟩ := List.nodup_cons.mp once
        obtain ⟨k₁, here₁, first⟩ := beginBlock_child here i fails
        obtain ⟨k₂, here₂, rest⟩ := ih once here₁ begun
        exact ⟨k₂, here₂, first.cons rest new fun x other => sourceByte_beginBlock other _ _⟩

end Begin

/-! ## The data loop -/

/-- The number of bytes the data loop puts in place. -/
def placed : List PageOutcome → Nat → List UInt8 → Nat
  | [], _, _ => 0
  | outcome :: rest, pos, data =>
      let n := (storedBytes outcome pos data).length
      match loopReply outcome pos data 0 with
      | some _ => n
      | none => n + placed rest (pos + n) (data.drop n)

/-- The bytes a write has put in place. -/
def ChildWrite.stored (w : ChildWrite) (outcomes : List PageOutcome) : List UInt8 :=
  w.data.take (placed outcomes w.pos w.data)

/-- What the data loop makes of the child, by the bytes it puts in place. -/
structure Stored (w : ChildWrite) (bs : List UInt8) (k k' : CowChild) : Prop where
  copied : k'.copied = k.copied
  copySize : k'.copySize = k.copySize
  copying : k'.copying = k.copying
  byteAt : w.shared = false → ∀ x,
    k'.file.byteAt x = (landsAt w.pos bs x).getD (k.file.byteAt x)

section Loop

variable {s s' : Shared} {k k₁ k₂ : CowChild} {w : ChildWrite}

theorem take_length_storedBytes (outcome : PageOutcome) (pos : Nat) (data : List UInt8) :
    data.take (storedBytes outcome pos data).length = storedBytes outcome pos data := by
  cases outcome with
  | signal | beginFailed => rfl
  | copied n | endFailed n =>
      unfold storedBytes
      dsimp only
      rw [List.length_take, ← List.take_take, List.take_length]

theorem loopReply_eq_none (outcome : PageOutcome) (pos : Nat) (data : List UInt8) (done : Nat) :
    loopReply outcome pos data done = none ↔ loopReply outcome pos data 0 = none := by
  cases outcome with
  | signal | beginFailed | endFailed n => simp [loopReply]
  | copied n =>
      unfold loopReply
      dsimp only
      split <;> simp

theorem storeChild_child (here : s.child w.slot = some k) (bs : List UInt8) :
    ∃ k', (s.storeChild w bs).child w.slot = some k' ∧ Stored w bs k k' := by
  unfold Shared.storeChild
  dsimp only
  split
  case isTrue shared =>
    refine ⟨_, (Function.update_self ..).trans (congrArg _ here), rfl, rfl, rfl, fun own => ?_⟩
    rw [own] at shared
    cases shared
  case isFalse =>
    unfold Shared.modifyChild
    dsimp only
    rw [Function.update_self, Function.update_self, here]
    refine ⟨_, rfl, rfl, rfl, rfl, fun _ x => ?_⟩
    dsimp only
    split
    case isTrue empty => rw [empty, landsAt_nil, Option.getD_none]
    case isFalse => exact k.file.byteAt_put w.pos bs x

/-- What is put in place first, and behind it. -/
theorem Stored.followed {as bs : List UInt8} (first : Stored w as k k₁)
    (second : Stored { w with pos := w.pos + as.length, data := w.data.drop as.length } bs k₁ k₂) :
    Stored w (as ++ bs) k k₂ where
  copied := second.copied.trans first.copied
  copySize := second.copySize.trans first.copySize
  copying := second.copying.trans first.copying
  byteAt own x := by
    rw [second.byteAt own, first.byteAt own, landsAt_append]
    cases landsAt (w.pos + as.length) bs x with
    | none => rfl
    | some byte => rfl

/-- The rule for the data loop: what holds of bytes that are put in place once, and of bytes
that are put behind them, holds of all bytes that the loop puts in place. -/
theorem performWrite_rule {R : ChildWrite → List UInt8 → Shared → Shared → Prop}
    (once : ∀ w bs s, R w bs s (s.storeChild w bs))
    (followed : ∀ w as bs s₁ s₂ s₃, R w as s₁ s₂ →
      R { w with pos := w.pos + as.length, data := w.data.drop as.length } bs s₂ s₃ →
        R w (as ++ bs) s₁ s₃)
    {outcomes : List PageOutcome} {done : Nat} {ret : Int}
    (looped : performWrite outcomes w done s = some (ret, s')) : R w (w.stored outcomes) s s' := by
  induction outcomes generalizing s w done with
  | nil => cases looped
  | cons outcome rest ih =>
      have first := once w (storedBytes outcome w.pos w.data) s
      unfold performWrite at looped
      unfold ChildWrite.stored placed
      dsimp only at looped ⊢
      cases reply : loopReply outcome w.pos w.data done with
      | some r =>
          rw [reply] at looped
          cases looped
          cases reply₀ : loopReply outcome w.pos w.data 0 with
          | none =>
              rw [(loopReply_eq_none outcome w.pos w.data done).mpr reply₀] at reply
              cases reply
          | some r₀ =>
              dsimp only
              rw [take_length_storedBytes]
              exact first
      | none =>
          rw [reply] at looped
          have second := ih looped
          rw [(loopReply_eq_none outcome w.pos w.data done).mp reply]
          dsimp only
          rw [List.take_add, take_length_storedBytes]
          exact followed _ _ _ _ _ _ first second

theorem stored_performWrite {outcomes : List PageOutcome} {done : Nat} {ret : Int}
    (here : s.child w.slot = some k) (looped : performWrite outcomes w done s = some (ret, s')) :
    ∃ k', s'.child w.slot = some k' ∧ Stored w (w.stored outcomes) k k' := by
  refine performWrite_rule (R := fun w bs s s' => ∀ k, s.child w.slot = some k →
    ∃ k', s'.child w.slot = some k' ∧ Stored w bs k k') ?_ ?_ looped k here
  · exact fun w bs s k here => storeChild_child here bs
  · intro w as bs s₁ s₂ s₃ first second k here
    obtain ⟨k₁, here₁, stored₁⟩ := first k here
    obtain ⟨k₂, here₂, stored₂⟩ := second k₁ here₁
    exact ⟨k₂, here₂, stored₁.followed stored₂⟩

end Loop

/-! ## Marking the blocks -/

/-- What `scorw_write_child_blocks_end` makes of a child, by the blocks it has been
through. -/
structure Ended (w : ChildWrite) (blocks : List Nat) (k k' : CowChild) : Prop where
  copied : ∀ b, k'.copied b = (k.copied b || decide (b ∈ blocks) && !w.shared)
  copySize : k'.copySize = k.copySize
  copying : ∀ b, k'.copying b = (k.copying b && !(decide (b ∈ blocks) && !k.copied b))
  file : k'.file = k.file

section End

variable {s s' : Shared} {k k₁ k₂ : CowChild} {w : ChildWrite} {i : Nat}

theorem endBlock_child (here : s.child w.slot = some k) (i : Nat) :
    ∃ k', (s.endBlock k w i).child w.slot = some k' ∧ Ended w [i] k k' := by
  unfold Shared.endBlock
  split
  case isTrue marked =>
    refine ⟨k, here, fun b => ?_, rfl, fun b => ?_, rfl⟩
    · by_cases same : b = i
      · simp [same, marked]
      · simp [same]
    · by_cases same : b = i
      · simp [same, marked]
      · simp [same]
  case isFalse unmarked =>
    have unmarked := Bool.eq_false_iff.mpr unmarked
    refine ⟨_, Function.update_self .., fun b => ?_, rfl, fun b => ?_, rfl⟩
    · dsimp only
      cases w.shared with
      | true => simp
      | false =>
          rw [if_neg Bool.false_ne_true, Function.update_apply]
          by_cases same : b = i
          · simp [same]
          · simp [same]
    · dsimp only
      rw [Function.update_apply]
      by_cases same : b = i
      · simp [same, unmarked]
      · simp [same]

theorem Ended.cons {blocks : List Nat} (first : Ended w [i] k k₁)
    (rest : Ended w blocks k₁ k₂) (once : i ∉ blocks) : Ended w (i :: blocks) k k₂ := by
  refine ⟨fun b => ?_, rest.copySize.trans first.copySize, fun b => ?_, rest.file.trans first.file⟩
  · rw [rest.copied, first.copied, Bool.or_assoc, ← Bool.and_or_distrib_right]
    simp
  · rw [rest.copying, first.copying, first.copied]
    by_cases same : b = i
    · simp [same, once]
    · simp [same]

theorem ended_endBlocks {blocks : List Nat} (once : blocks.Nodup)
    (here : s.child w.slot = some k) (ended : endBlocks w blocks s = some s') :
    ∃ k', s'.child w.slot = some k' ∧ Ended w blocks k k' := by
  induction blocks generalizing s k with
  | nil =>
      cases ended
      exact ⟨k, here, fun b => by simp, rfl, fun b => by simp, rfl⟩
  | cons i blocks ih =>
      unfold endBlocks at ended
      rw [here, Option.bind_some] at ended
      obtain ⟨new, once⟩ := List.nodup_cons.mp once
      obtain ⟨k₁, here₁, first⟩ := endBlock_child here i
      obtain ⟨k₂, here₂, rest⟩ := ih once here₁ ended
      exact ⟨k₂, here₂, first.cons rest new⟩

end End

/-! ## As moves of a thread -/

/-- A move of a thread that is alone. -/
def moveAlone (at_ : Shared × Place) (m : Move) : Option (Reply × Shared × Place) :=
  (move at_.1 at_.2 m).map fun moved => (moved.1, moved.2.2, moved.2.1)

/-- Moves of a thread that is alone. -/
abbrev Alone := Run moveAlone fun _ _ => True

section Alone

variable {s s' : Shared} {w : ChildWrite} {fails : Nat → Bool} {i n : Nat}

theorem Alone.one {m : Move} {place place' : Place} {reply : Reply}
    (moved : move s place m = some (reply, place', s')) :
    Alone (s, place) [m] (s', place') := by
  have taken : moveAlone (s, place) m = some (reply, s', place') := by
    unfold moveAlone
    rw [moved]
    rfl
  exact .cons trivial taken (.nil _)

theorem slot_startWrite {k : CowChild} {c : Nat} {req : IoReq}
    (starts : k.startWrite c req = some w) : w.slot = c := by
  obtain ⟨_, _, rfl⟩ := Option.map_eq_some_iff.mp starts
  rfl

/-- What is left of the data does not matter when the blocks are marked. -/
theorem endBlocks_congr {blocks : List Nat} {pos : Nat} {data : List UInt8}
    (ended : endBlocks w blocks s = some s') :
    endBlocks { w with pos := pos, data := data } blocks s = some s' := by
  induction blocks generalizing s with
  | nil => exact ended
  | cons i blocks ih =>
      obtain ⟨k, here, ended⟩ := Option.bind_eq_some_iff.mp ended
      exact Option.bind_eq_some_iff.mpr ⟨k, here, ih ended⟩

theorem move_begins (s : Shared) (w : ChildWrite) (i : Nat) (failed : Bool) :
    move s (.begins w i) (.block failed) = (s.child w.slot).bind fun k =>
      if w.endBlock < i then some (.goesOn, .locking w, s)
      else if k.copying i then none
      else some (.goesOn, .begins w (i + 1), s.beginBlock k w i failed) := rfl

theorem move_ends (s : Shared) (w : ChildWrite) (ret : Int) (i : Nat) (failed : Bool) :
    move s (.ends w ret i) (.block failed) = (s.child w.slot).map fun k =>
      if k.endBlock w.offset w.len < i then (.returns ret, .idle, s)
      else (.goesOn, .ends w ret (i + 1), s.endBlock k w i) := rfl

theorem alone_beginBlocks {k : CowChild} (here : s.child w.slot = some k)
    (blocks : n = w.endBlock + 1 - i)
    (begun : beginBlocks w fails (List.range' i n) s = some s') :
    ∃ ms, Alone (s, .begins w i) ms (s', .locking w) := by
  induction n generalizing i s k with
  | zero =>
      obtain rfl : s = s' := Option.some.inj begun
      have past : w.endBlock < i := by omega
      have moved : move s (.begins w i) (.block false) = some (.goesOn, .locking w, s) := by
        rw [move_begins, here, Option.bind_some, if_pos past]
      exact ⟨_, .one moved⟩
  | succ n ih =>
      have inside : ¬ w.endBlock < i := by omega
      rw [List.range'_succ] at begun
      unfold beginBlocks at begun
      rw [here, Option.bind_some] at begun
      split at begun
      case isTrue => cases begun
      case isFalse free =>
        obtain ⟨k₁, here₁, _⟩ := beginBlock_child here i fails
        obtain ⟨ms, rest⟩ := ih here₁ (by omega) begun
        have moved : move s (.begins w i) (.block (fails i)) =
            some (.goesOn, .begins w (i + 1), s.beginBlock k w i (fails i)) := by
          rw [move_begins, here, Option.bind_some, if_neg inside, if_neg free]
        exact ⟨_, (Alone.one moved).append rest⟩

theorem alone_performWrite {outcomes : List PageOutcome} {done : Nat} {ret : Int}
    (looped : performWrite outcomes w done s = some (ret, s')) :
    ∃ ms pos data, Alone (s, .loops w done) ms
      (s'.setLocked w false, .ends { w with pos := pos, data := data } ret w.startBlock) := by
  induction outcomes generalizing s w done with
  | nil => cases looped
  | cons outcome rest ih =>
      unfold performWrite at looped
      dsimp only at looped
      cases reply : loopReply outcome w.pos w.data done with
      | some r =>
          rw [reply] at looped
          cases looped
          have moved : move s (.loops w done) (.page outcome) = some (.goesOn,
              .ends w ret w.startBlock,
              (s.storeChild w (storedBytes outcome w.pos w.data)).setLocked w false) := by
            unfold move
            simp only [reply]
          exact ⟨_, w.pos, w.data, .one moved⟩
      | none =>
          rw [reply] at looped
          obtain ⟨ms, pos, data, rest⟩ := ih looped
          have moved : move s (.loops w done) (.page outcome) = some (.goesOn,
              .loops { w with
                pos := w.pos + (storedBytes outcome w.pos w.data).length
                data := w.data.drop (storedBytes outcome w.pos w.data).length }
                (done + (storedBytes outcome w.pos w.data).length),
              s.storeChild w (storedBytes outcome w.pos w.data)) := by
            unfold move
            simp only [reply]
          exact ⟨_, pos, data, (Alone.one moved).append rest⟩

theorem alone_endBlocks {k : CowChild} (ret : Int) (here : s.child w.slot = some k)
    (blocks : n = k.endBlock w.offset w.len + 1 - i)
    (ended : endBlocks w (List.range' i n) s = some s') :
    ∃ ms, Alone (s, .ends w ret i) ms (s', .idle) := by
  induction n generalizing i s k with
  | zero =>
      obtain rfl : s = s' := Option.some.inj ended
      have past : k.endBlock w.offset w.len < i := by omega
      have moved : move s (.ends w ret i) (.block false) = some (.returns ret, .idle, s) := by
        rw [move_ends, here, Option.map_some, if_pos past]
      exact ⟨_, .one moved⟩
  | succ n ih =>
      have inside : ¬ k.endBlock w.offset w.len < i := by omega
      rw [List.range'_succ] at ended
      unfold endBlocks at ended
      rw [here, Option.bind_some] at ended
      obtain ⟨k₁, here₁, first⟩ := endBlock_child here i
      have same : k₁.endBlock w.offset w.len = k.endBlock w.offset w.len := by
        unfold CowChild.endBlock CowChild.lastBlock
        rw [first.copySize]
      obtain ⟨ms, rest⟩ := ih here₁ (by omega) ended
      have moved : move s (.ends w ret i) (.block false) =
          some (.goesOn, .ends w ret (i + 1), s.endBlock k w i) := by
        rw [move_ends, here, Option.map_some, if_neg inside]
      exact ⟨_, (Alone.one moved).append rest⟩

/-- The call is a run of the moves of a thread. -/
theorem run_bufferedWriteIter {c : Nat} {req : IoReq} {outcomes : List PageOutcome}
    {run : WriteRun} (ran : s.bufferedWriteIter c req fails outcomes = some run) :
    ∃ ms, Alone (s, .idle) ms (run.ended, .idle) := by
  obtain ⟨k, writes⟩ := writes_of_bufferedWriteIter ran
  have slot : run.w.slot = c := slot_startWrite writes.starts
  have started : move s .idle (.writeChild c req) =
      some (.goesOn, .begins run.w run.w.startBlock, s) := by
    unfold move
    simp only [writes.child, Option.map_some, if_neg writes.passes, writes.starts]
  have locked : move run.begun (.locking run.w) .lock =
      some (.goesOn, .loops run.w 0, run.begun.setLocked run.w true) := if_neg writes.unlocked
  obtain ⟨k₃, child₃, ends⟩ := Option.bind_eq_some_iff.mp writes.ends
  obtain ⟨begins, first⟩ := alone_beginBlocks (slot ▸ writes.child) rfl writes.begins
  obtain ⟨loops, pos, data, second⟩ := alone_performWrite writes.loops
  obtain ⟨marks, third⟩ := alone_endBlocks (w := { run.w with pos := pos, data := data }) run.ret
    child₃ rfl (endBlocks_congr ends)
  exact ⟨_, (Alone.one started).append (first.append ((Alone.one locked).append
    (second.append third)))⟩

end Alone

/-! ## The child after a call -/

section Child

variable {s : Shared} {k : CowChild} {c : Nat} {req : IoReq} {fails : Nat → Bool}
  {outcomes : List PageOutcome} {run : WriteRun}

theorem mem_blocks {w : ChildWrite} {b : Nat} :
    b ∈ w.blocks ↔ w.startBlock ≤ b ∧ b ≤ w.endBlock := by
  unfold ChildWrite.blocks
  rw [List.mem_range'_1]
  omega

theorem nodup_blocks {w : ChildWrite} : w.blocks.Nodup := List.nodup_range'

theorem Shared.Writes.shape (writes : s.Writes c req fails outcomes k run) :
    run.w.slot = c ∧ run.w.offset = req.offset ∧ run.w.asked = req.data.length ∧
      WriteShape k run.w := by
  refine writeShape_startWrite writes.starts fun empty => writes.passes ?_
  rw [empty, List.take_nil]

theorem setLocked_child {w : ChildWrite} (here : s.child w.slot = some k) (locked : Bool) :
    ∃ k', (s.setLocked w locked).child w.slot = some k' ∧ Stored w [] k k' := by
  unfold Shared.setLocked
  split
  · refine ⟨k, here, rfl, rfl, rfl, fun _ x => ?_⟩
    rw [landsAt_nil, Option.getD_none]
  · refine ⟨_, (Function.update_self ..).trans (congrArg _ here), rfl, rfl, rfl, fun _ x => ?_⟩
    rw [landsAt_nil, Option.getD_none]

/-- The child after each of the three functions. -/
theorem Shared.Writes.children (writes : s.Writes c req fails outcomes k run) :
    ∃ k₁ k₂ k₃, run.begun.child c = some k₁ ∧ run.ended.child c = some k₃ ∧
      Begun s run.w fails run.w.blocks k k₁ ∧ Stored run.w (run.w.stored outcomes) k₁ k₂ ∧
      Ended run.w run.w.blocks k₂ k₃ := by
  obtain ⟨rfl, _, _, shape⟩ := writes.shape
  obtain ⟨k₁, child₁, begun⟩ := begun_beginBlocks nodup_blocks writes.child writes.begins
  obtain ⟨k₁', child₁', locked⟩ := setLocked_child child₁ true
  obtain ⟨k₂', child₂', stored⟩ := stored_performWrite child₁' writes.loops
  obtain ⟨k₂, child₂, unlocked⟩ := setLocked_child child₂' false
  have through : Stored run.w (run.w.stored outcomes) k₁ k₂ :=
    ⟨unlocked.copied.trans (stored.copied.trans locked.copied),
      unlocked.copySize.trans (stored.copySize.trans locked.copySize),
      unlocked.copying.trans (stored.copying.trans locked.copying), fun own x => by
        rw [unlocked.byteAt own, landsAt_nil, Option.getD_none, stored.byteAt own,
          locked.byteAt own, landsAt_nil, Option.getD_none]⟩
  have last : k₂.endBlock run.w.offset run.w.len = run.w.endBlock := by
    rw [← shape.endBlock_eq]
    unfold CowChild.endBlock CowChild.lastBlock
    rw [through.copySize, begun.copySize]
  have ends := writes.ends
  unfold Shared.writeChildBlocksEnd at ends
  rw [child₂, Option.bind_some, last] at ends
  obtain ⟨k₃, child₃, ended⟩ := ended_endBlocks nodup_blocks child₂ ends
  exact ⟨k₁, k₂, k₃, child₁, child₃, begun, through, ended⟩

end Child

/-! ## Calls that are not held up -/

section Returns

variable {s : Shared} {k : CowChild} {w : ChildWrite} {fails : Nat → Bool}

/-- Beginning a block does not touch the locks of the inodes. -/
theorem isLocked_beginBlock (here : s.child w.slot = some k) (i : Nat) (failed : Bool) :
    (s.beginBlock k w i failed).isLocked w = s.isLocked w := by
  have own (s' : Shared) (k' : CowChild) (same : k'.locked = k.locked) :
      ((s'.setChild w.slot k').child w.slot).any (·.locked) =
        (s.child w.slot).any (·.locked) := by
    unfold Shared.setChild
    dsimp only
    rw [Function.update_self, here, Option.any_some, Option.any_some, same]
  unfold Shared.beginBlock
  split
  case isTrue => rfl
  case isFalse =>
    unfold Shared.isLocked
    dsimp only
    split
    case isTrue shared =>
      split
      · split <;> rfl
      · rfl
    case isFalse =>
      split
      · split
        · exact own _ _ (by split <;> rfl)
        · exact own _ _ (by split <;> rfl)
      · exact own _ _ rfl

theorem exists_beginBlocks {blocks : List Nat} (once : blocks.Nodup)
    (here : s.child w.slot = some k) (free : ∀ i ∈ blocks, k.copying i = false)
    (fails : Nat → Bool) :
    ∃ s', beginBlocks w fails blocks s = some s' ∧ s'.isLocked w = s.isLocked w := by
  induction blocks generalizing s k with
  | nil => exact ⟨s, rfl, rfl⟩
  | cons i blocks ih =>
      obtain ⟨new, once⟩ := List.nodup_cons.mp once
      obtain ⟨k₁, here₁, first⟩ := beginBlock_child here i fails
      have free₁ : ∀ j ∈ blocks, k₁.copying j = false := by
        intro j member
        have other : j ≠ i := fun same => new (same ▸ member)
        rw [first.copying, free j (List.mem_cons_of_mem i member)]
        simp [other]
      obtain ⟨s', begun, locked⟩ := ih once here₁ free₁
      refine ⟨s', ?_, locked.trans (isLocked_beginBlock here i (fails i))⟩
      unfold beginBlocks
      rw [here, Option.bind_some, free i List.mem_cons_self, if_neg Bool.false_ne_true]
      exact begun

/-- A pass without errors puts the rest of the page in place, or what is left. -/
theorem length_storedBytes_copied (pos : Nat) (data : List UInt8) :
    (storedBytes (.copied data.length) pos data).length =
      min (pageSize - pos % pageSize) data.length := by
  unfold storedBytes
  rw [List.length_take]
  omega

theorem loopReply_copied (n pos : Nat) (data : List UInt8) (done : Nat) :
    loopReply (.copied n) pos data done =
      if data.drop (storedBytes (.copied n) pos data).length = [] then
        some ((done + (storedBytes (.copied n) pos data).length : Nat) : Int)
      else none := rfl

/-- Without errors all data is put in place, page by page. -/
theorem exists_performWrite (s : Shared) (w : ChildWrite) (done : Nat) :
    ∃ outcomes ret s', performWrite outcomes w done s = some (ret, s') ∧
      placed outcomes w.pos w.data = w.data.length := by
  -- what is left shrinks by at least one byte
  induction left : w.data.length using Nat.strong_induction_on generalizing s w done with
  | _ n ih =>
      subst left
      have page := Nat.mod_lt w.pos pageSize_pos
      have reply := loopReply_copied w.data.length w.pos w.data
      have length := length_storedBytes_copied w.pos w.data
      generalize bytes : storedBytes (.copied w.data.length) w.pos w.data = bs at reply length
      by_cases last : w.data.drop bs.length = []
      · have all := List.drop_eq_nil_iff.mp last
        simp only [if_pos last] at reply
        refine ⟨[.copied w.data.length], ((done + bs.length : Nat) : Int), s.storeChild w bs,
          ?_, ?_⟩
        · unfold performWrite
          rw [bytes, reply]
        · unfold placed
          rw [bytes, reply]
          dsimp only
          omega
      · have more : 0 < w.data.length := by
          refine List.length_pos_iff.mpr fun empty => last ?_
          rw [empty, List.drop_nil]
        have rest : (w.data.drop bs.length).length = w.data.length - bs.length :=
          List.length_drop
        simp only [if_neg last] at reply
        obtain ⟨outcomes, ret, s', looped, whole⟩ := ih (w.data.drop bs.length).length
          (by omega) (s.storeChild w bs)
          { w with pos := w.pos + bs.length, data := w.data.drop bs.length }
          (done + bs.length) rfl
        refine ⟨.copied w.data.length :: outcomes, ret, s', ?_, ?_⟩
        · unfold performWrite
          rw [bytes, reply]
          exact looped
        · unfold placed
          rw [bytes, reply]
          dsimp only at whole ⊢
          omega

theorem exists_endBlocks (blocks : List Nat) (here : s.child w.slot = some k) :
    ∃ s', endBlocks w blocks s = some s' := by
  induction blocks generalizing s k with
  | nil => exact ⟨s, rfl⟩
  | cons i blocks ih =>
      obtain ⟨k₁, here₁, _⟩ := endBlock_child here i
      obtain ⟨s', ended⟩ := ih here₁
      refine ⟨s', ?_⟩
      unfold endBlocks
      rw [here, Option.bind_some]
      exact ended

/-- A call that nobody holds up can write all its data. -/
theorem exists_bufferedWriteIter {c : Nat} {req : IoReq} (here : s.child c = some k)
    (passes : req.data.take req.allowed ≠ []) (starts : k.startWrite c req = some w)
    (free : ∀ i, k.copying i = false) (unlocked : s.isLocked w = false) (fails : Nat → Bool) :
    ∃ outcomes run, s.bufferedWriteIter c req fails outcomes = some run ∧ run.w = w ∧
      w.stored outcomes = w.data := by
  obtain rfl : w.slot = c := slot_startWrite starts
  obtain ⟨begun, begins, locked⟩ := exists_beginBlocks nodup_blocks here
    (fun i _ => free i) fails
  obtain ⟨k₁, child₁, _⟩ := begun_beginBlocks nodup_blocks here begins
  obtain ⟨k₂, child₂, _⟩ := setLocked_child child₁ true
  obtain ⟨outcomes, ret, looped, loops, whole⟩ :=
    exists_performWrite (begun.setLocked w true) w 0
  obtain ⟨k₃, child₃, _⟩ := stored_performWrite child₂ loops
  obtain ⟨k₄, child₄, _⟩ := setLocked_child child₃ false
  obtain ⟨ended, ends⟩ := exists_endBlocks (List.range' w.startBlock
    (k₄.endBlock w.offset w.len + 1 - w.startBlock)) child₄
  refine ⟨outcomes, ⟨w, begun, ret, looped, ended⟩, ?_, rfl, ?_⟩
  · have begins : s.writeChildBlocksBegin w fails = some begun := begins
    have ends : (looped.setLocked w false).writeChildBlocksEnd w = some ended := by
      unfold Shared.writeChildBlocksEnd
      rw [child₄, Option.bind_some]
      exact ends
    unfold Shared.bufferedWriteIter
    rw [here, Option.bind_some, if_neg passes, starts, Option.bind_some, begins,
      Option.bind_some, locked, unlocked, if_neg Bool.false_ne_true, loops, Option.bind_some,
      ends, Option.map_some]
  · unfold ChildWrite.stored
    rw [whole, List.take_length]

end Returns

end FlexClone.Scorw.Cow
