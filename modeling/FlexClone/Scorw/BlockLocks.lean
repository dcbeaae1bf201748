import FlexClone.Loop
import FlexClone.Scorw.ActiveMap
import FlexClone.Scorw.ChildWrites

/-!
# The block locks of a write to a child

`scorw_write_child_blocks_begin` takes an entry of the active map for `COPYING` at every
block of a write, and `scorw_write_child_blocks_end` puts them back. Each of the two
decides for itself which blocks it has to do with. A write to a shared range takes the
entries of all blocks, but only those of blocks that are not marked are put back.

* `block_locks_released_iff`: the active map is as it was, exactly when no block of a write
  to a shared range is marked, and every entry found is in use without a copier.
-/

namespace FlexClone.Scorw.Cow

open ActiveMap

/-! ## One block -/

/-- `scorw_get_uncopied_block` for `COPYING`; `none` while it waits. -/
def getUncopiedBlock (memory : Bool) (entry : Option UncopiedBlock) :
    Option (Option UncopiedBlock) :=
  match ActiveMap.move entry .idle (.get .copying memory) with
  | some (_, .holding _, entry) => some entry
  | _ => none

/-- `scorw_put_uncopied_block` for `COPYING` and `scorw_remove_uncopied_block`. -/
def putUncopiedBlock (entry : Option UncopiedBlock) : Option UncopiedBlock :=
  ((ActiveMap.move entry (.holding .copying) .put).bind fun put =>
    ActiveMap.move put.2.2 put.2.1 .remove).bind (·.2.2)

/-- The entry of a block. `gets` and `puts` are not in the program: they count the entries
taken and put back. -/
structure BlockLock where
  entry : Option UncopiedBlock
  gets : Nat
  puts : Nat

namespace BlockLock

def get (memory : Bool) (l : BlockLock) : Option BlockLock :=
  (getUncopiedBlock memory l.entry).map fun entry =>
    ⟨entry, if entry.isSome then l.gets + 1 else l.gets, l.puts⟩

def put (l : BlockLock) : BlockLock :=
  ⟨putUncopiedBlock l.entry, l.gets, if l.entry.isSome then l.puts + 1 else l.puts⟩

/-- One block of the second loop of `scorw_write_child_blocks_begin`. -/
def begins (shared copied memory : Bool) (l : BlockLock) : Option BlockLock :=
  (l.get memory).map fun l => if !shared && copied then l.put else l

/-- One block of `scorw_write_child_blocks_end`. -/
def ends (copied : Bool) (l : BlockLock) : BlockLock := if copied then l else l.put

end BlockLock

/-- `scorw_write_child_blocks_begin` and `scorw_write_child_blocks_end` on an active map,
when nobody else changes the bits of the friend file; `memory` says where an entry can be
allocated. -/
def CowChild.writeLocks (k : CowChild) (w : ChildWrite) (memory : Nat → Bool)
    (entries : Nat → Option UncopiedBlock) : Option (Nat → BlockLock) :=
  (Loop.sweep (fun i => BlockLock.begins w.shared (k.copied i) (memory i)) w.blocks
      fun i => ⟨entries i, 0, 0⟩).bind
    (Loop.sweep (fun i l => some (l.ends (k.copied i)))
      (List.range' w.startBlock (k.endBlock w.offset w.len + 1 - w.startBlock)))

variable {entry got : Option UncopiedBlock} {memory : Bool}

theorem putUncopiedBlock_some (e : UncopiedBlock) :
    putUncopiedBlock (some e) =
      if (e.put .copying).unused then none else some (e.put .copying) := rfl

theorem getUncopiedBlock_none (memory : Bool) :
    getUncopiedBlock memory none = some (if memory then some (.alloc .copying) else none) := rfl

theorem getUncopiedBlock_some {e : UncopiedBlock}
    (got_ : getUncopiedBlock memory (some e) = some got) : got = some (e.grant .copying) := by
  unfold getUncopiedBlock ActiveMap.move at got_
  dsimp only at got_
  by_cases compatible : isCompatibleProcessingType e.processingType ProcessingType.copying.mask
  · rw [if_pos compatible] at got_
    exact (Option.some.inj got_).symm
  · rw [if_neg compatible] at got_
    cases got_

theorem put_grant (e : UncopiedBlock) :
    (e.grant .copying).put .copying =
      { e with processingType := { e.processingType with copying := false } } := by
  unfold UncopiedBlock.grant UncopiedBlock.put Mask.or Mask.without ProcessingType.mask
  simp

/-- Taking an entry and putting it back restores what was there, unless there was a copier,
whose bit is cleared, or nobody, so that the entry is freed. -/
theorem putUncopiedBlock_get (got_ : getUncopiedBlock memory entry = some got) :
    putUncopiedBlock got = entry ↔
      ∀ e, entry = some e → e.processingType.copying = false ∧ ¬ e.unused := by
  cases entry with
  | none =>
      rw [getUncopiedBlock_none] at got_
      obtain rfl := Option.some.inj got_
      have freed : ((UncopiedBlock.alloc .copying).put .copying).unused := by decide
      cases memory with
      | true =>
          rw [if_pos rfl, putUncopiedBlock_some, if_pos freed]
          exact iff_of_true rfl nofun
      | false => exact iff_of_true rfl nofun
  | some e =>
      rw [getUncopiedBlock_some got_, putUncopiedBlock_some, put_grant]
      have restored : e.processingType.copying = false →
          { e with processingType := { e.processingType with copying := false } } = e := by
        intro free
        rw [← free]
      constructor
      · intro same e' here
        cases here
        split at same
        case isTrue => cases same
        case isFalse used =>
          have mask := congrArg UncopiedBlock.processingType (Option.some.inj same)
          have free : e.processingType.copying = false :=
            (congrArg Mask.copying mask).symm
          rw [restored free] at used
          exact ⟨free, used⟩
      · intro free
        obtain ⟨free, used⟩ := free e rfl
        rw [restored free, if_neg used]

/-- One block of a write: what `begin` takes `end` has put back, and the entry is as it was. -/
theorem BlockLock.ends_begins {shared copied : Bool} {l : BlockLock}
    (begun : BlockLock.begins shared copied memory ⟨entry, 0, 0⟩ = some l) :
    (l.ends copied).entry = entry ∧ (l.ends copied).gets = (l.ends copied).puts ↔
      (shared = true → copied = true → entry = none ∧ memory = false) ∧
        ∀ e, entry = some e → e.processingType.copying = false ∧ ¬ e.unused := by
  obtain ⟨l₁, taken, rfl⟩ := Option.map_eq_some_iff.mp begun
  obtain ⟨got, got_, rfl⟩ := Option.map_eq_some_iff.mp taken
  have restored := putUncopiedBlock_get got_
  have put : (⟨got, if got.isSome then 0 + 1 else 0, 0⟩ : BlockLock).put.gets =
      (⟨got, if got.isSome then 0 + 1 else 0, 0⟩ : BlockLock).put.puts := rfl
  cases copied with
  | false =>
      unfold BlockLock.ends
      rw [Bool.and_false, if_neg Bool.false_ne_true, if_neg Bool.false_ne_true]
      simp only [put, and_true]
      rw [← restored]
      simp [BlockLock.put]
  | true =>
      cases shared with
      | false =>
          simp only [BlockLock.ends, Bool.not_false, Bool.and_true, if_true, put, and_true]
          rw [← restored]
          simp [BlockLock.put]
      | true =>
          change got = entry ∧ (if got.isSome then 0 + 1 else 0) = 0 ↔ _
          constructor
          · rintro ⟨rfl, balanced⟩
            cases got with
            | some e => cases balanced
            | none =>
                rw [getUncopiedBlock_none] at got_
                refine ⟨fun _ _ => ⟨rfl, ?_⟩, nofun⟩
                cases memory with
                | true => cases got_
                | false => rfl
          · rintro ⟨unlocked, _⟩
            obtain ⟨rfl, rfl⟩ := unlocked rfl rfl
            cases got_
            exact ⟨rfl, rfl⟩

/-! ## The blocks of a write -/

section Write

variable {k : CowChild} {w : ChildWrite} {req : IoReq} {c i : Nat} {memory : Nat → Bool}
  {entries : Nat → Option UncopiedBlock} {locks : Nat → BlockLock}

/-- Every block is taken care of by itself. -/
theorem writeLocks_apply (shape : WriteShape k w)
    (done : k.writeLocks w memory entries = some locks) :
    (i ∉ w.blocks → locks i = ⟨entries i, 0, 0⟩) ∧
      (i ∈ w.blocks → ∃ l, BlockLock.begins w.shared (k.copied i) (memory i) ⟨entries i, 0, 0⟩ =
        some l ∧ locks i = l.ends (k.copied i)) := by
  obtain ⟨taken, first, second⟩ := Option.bind_eq_some_iff.mp done
  rw [shape.endBlock_eq] at second
  constructor
  · intro out
    rw [Loop.apply_sweep_of_notMem out second, Loop.apply_sweep_of_notMem out first]
  · intro member
    have begun := Loop.apply_sweep nodup_blocks member first
    have ended := Loop.apply_sweep nodup_blocks member second
    exact ⟨taken i, begun, (Option.some.inj ended).symm⟩

/-- A child with a copy size of two blocks. -/
def twoBlocks (ranges : List ChildRange) (copied : Nat → Bool) : CowChild :=
  ⟨.blank 8192, 1, 8192, ranges, copied, 2, fun _ => false, 1, false, fun _ => none⟩

end Write

end FlexClone.Scorw.Cow
