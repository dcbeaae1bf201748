import FlexClone.Scorw.View

/-!
# Is the vectored write atomic and correct?

A call that fails leaves the version, the log and every lookup as they were. A call
that succeeds is another matter: phase 1 puts the vectors into the blocks behind the
end of the file, phase 2 records blocks behind those, which the file does not reach.
A block that some vector addresses can no longer be read at the new version.

`writev_atomic_iff` says both: a successful call is correct only if there was
nothing to write, nothing to read in the blocks it addresses, and nothing that
changes the other blocks.
-/

namespace FlexClone.Scorw

open Versioned

/-! ## What the call should do -/

/-- The byte of a vector at an offset of the file. -/
def IoVec.byteAt? (vec : IoVec) (x : Nat) : Option UInt8 :=
  if vec.logicalOffset ≤ x then vec.data[x - vec.logicalOffset]? else none

/-- The byte of the last vector that covers an offset. -/
def lastCovering : List IoVec → Nat → Option UInt8
  | [], _ => none
  | vec :: vecs, x => (lastCovering vecs x).or (vec.byteAt? x)

/-- Where phase 1 stores a byte of vector number `i`. -/
def IoVec.storedAt (vec : IoVec) (appendPos i j : Nat) : Nat :=
  appendPos + i * pageSize + vec.logicalOffset % pageSize + j

/-- A vectored write is correct: at the new version the vectors read back, everything
else reads as before, and every byte was stored in a block that the new records
point to. -/
structure WritevCorrect (s s' : State) (vecs : List IoVec) : Prop where
  reads : ∀ x, visibleByte s' s'.version x =
    (lastCovering vecs x).or (visibleByte s s.version x)
  stored : ∀ (i : Nat) (vec : IoVec) (j : Nat), vecs[i]? = some vec → j < vec.data.length →
    ∃ r ∈ s'.log.drop s.log.length,
      r.physicalStartBlk ≤ vec.storedAt (roundUp s.file.size) i j / pageSize ∧
        vec.storedAt (roundUp s.file.size) i j / pageSize < r.physicalStartBlk + r.lenBlks

/-- Some vector addresses the block. -/
def Targets (vecs : List IoVec) (blk : Nat) : Prop :=
  ∃ vec ∈ vecs, vec.logicalOffset / pageSize = blk

instance (vecs : List IoVec) (blk : Nat) : Decidable (Targets vecs blk) :=
  inferInstanceAs (Decidable (∃ vec ∈ vecs, _))

/-! ## Phase 1 -/

/-- The file with the block of a vector copied to a position. -/
def copyBlock (f : ByteFile UInt8) (appendPos : Nat) (vec : IoVec) : ByteFile UInt8 :=
  f.overlay appendPos pageSize fun i => f.byteAt (vec.logicalOffset / pageSize * pageSize + i)

/-- The file followed by a copy of the block of each vector. -/
def copyBlocks : ByteFile UInt8 → Nat → List IoVec → ByteFile UInt8
  | f, _, [] => f
  | f, appendPos, vec :: vecs => copyBlocks (copyBlock f appendPos vec) (appendPos + pageSize) vecs

/-- One vector of a phase 1 that goes through. -/
theorem writevData_cons {f f' : ByteFile UInt8} {appendPos : Nat} {vec : IoVec}
    {outcome : VecOutcome} {vecs : List (IoVec × VecOutcome)} {ret : Int}
    (aligned : appendPos % pageSize = 0) (ok : ¬ ret < 0)
    (done : writevData f appendPos ((vec, outcome) :: vecs) = some (ret, f')) :
    vec.logicalOffset % pageSize + vec.data.length ≤ pageSize ∧
      writevData ((copyBlock f appendPos vec).put (appendPos + vec.logicalOffset % pageSize)
        vec.data) (appendPos + pageSize) vecs = some (ret, f') := by
  unfold writevData at done
  rw [internalCopyBlocks_page _ _ _ aligned] at done
  split at done
  case isTrue =>
    cases done
    exact (ok (by decide)).elim
  case isFalse =>
    split at done
    case isTrue =>
      cases done
      exact (ok (by decide)).elim
    case isFalse =>
      dsimp only at done
      split at done
      case isTrue failed =>
        have same : _ = ret := congrArg Prod.fst (Option.some.inj done)
        rw [same] at failed
        exact (ok failed).elim
      case isFalse copied =>
        rw [copyPage_of_nonneg copied] at done
        split at done
        case h_1 => cases done
        case h_2 ret' g written =>
          split at done
          case isTrue negative =>
            cases done
            exact (ok negative).elim
          case isFalse nonneg =>
            have clean := eq_done_of_writeKernelData written nonneg
            unfold writeKernelData at written
            rw [clean] at written
            split at written
            case isTrue => cases written
            case isFalse inside =>
              cases written
              have offset : (appendPos + vec.logicalOffset % pageSize) % pageSize =
                  vec.logicalOffset % pageSize := by
                unfold pageSize at *
                omega
              rw [offset] at inside
              exact ⟨Nat.not_lt.mp inside, done⟩

/-- Vectors without bytes leave copies of their blocks. -/
theorem writevData_of_empty {f f' : ByteFile UInt8} {appendPos : Nat}
    {vecs : List (IoVec × VecOutcome)} {ret : Int} (aligned : appendPos % pageSize = 0)
    (ok : ¬ ret < 0) (empty : ∀ p ∈ vecs, p.1.data = [])
    (done : writevData f appendPos vecs = some (ret, f')) :
    f' = copyBlocks f appendPos (vecs.map Prod.fst) := by
  induction vecs generalizing f appendPos with
  | nil =>
      cases done
      rfl
  | cons head vecs ih =>
      obtain ⟨vec, outcome⟩ := head
      obtain ⟨inside, rest⟩ := writevData_cons aligned ok done
      have nothing : vec.data = [] := empty (vec, outcome) List.mem_cons_self
      have next : (appendPos + pageSize) % pageSize = 0 := by
        rw [Nat.add_mod_right, aligned]
      have same : (copyBlock f appendPos vec).put (appendPos + vec.logicalOffset % pageSize)
          vec.data = copyBlock f appendPos vec := by
        rw [nothing]
        apply ByteFile.put_nil_overlay
        rw [ByteFile.size_overlay]
        unfold pageSize
        omega
      rw [same] at rest
      rw [ih next (fun p member => empty p (List.mem_cons_of_mem _ member)) rest]
      rfl

/-! ## Phase 2 -/

/-- A block that no vector addresses keeps its entry. -/
theorem writevRecords_of_other {newVersion appendPos blk : Nat} {vecs : List IoVec}
    (other : ¬ Targets vecs blk) (i : Nat) (m : DeltaMap) (log : List LogRecord) :
    (writevRecords newVersion appendPos i vecs (m, log)).1 blk = m blk := by
  induction vecs generalizing i m log with
  | nil => rfl
  | cons vec vecs ih =>
      have rest : ¬ Targets vecs blk := fun ⟨vec', member, named⟩ =>
        other ⟨vec', List.mem_cons_of_mem _ member, named⟩
      have first : blk ≠ vec.logicalOffset / pageSize := fun named =>
        other ⟨vec, List.mem_cons_self, named.symm⟩
      unfold writevRecords
      dsimp only
      rw [ih rest, Delta.store_apply, if_neg first]

/-- A block that is addressed is mapped behind the append position. -/
theorem writevRecords_of_target {newVersion appendPos blk : Nat} {vecs : List IoVec}
    (targets : Targets vecs blk) (i : Nat) (m : DeltaMap) (log : List LogRecord) :
    ∃ p, (writevRecords newVersion appendPos i vecs (m, log)).1 blk = some p ∧
      appendPos / pageSize ≤ p := by
  induction vecs generalizing i m log with
  | nil =>
      obtain ⟨_, none, _⟩ := targets
      exact (List.not_mem_nil none).elim
  | cons vec vecs ih =>
      unfold writevRecords
      dsimp only
      by_cases later : Targets vecs blk
      · exact ih later (i + 1) _ _
      · -- the last vector that addresses the block decides
        obtain ⟨vec', member, named⟩ := targets
        rcases List.mem_cons.mp member with rfl | rest
        · refine ⟨(appendPos + i * pageSize) / pageSize, ?_,
            Nat.div_le_div_right (Nat.le_add_right _ _)⟩
          rw [writevRecords_of_other later, Delta.store_apply, if_pos named.symm]
        · exact (later ⟨vec', rest, named⟩).elim

/-- A lookup finds what the resident map of its own version says. -/
theorem lookupPhysicalBlock_of_resident {env : Env} {s : VersionStore} {v blk found : Nat}
    {m : DeltaMap} (inside : v + 1 ≤ maxVersions) (resident : s.cache.versionStates v = some m)
    (bound : m blk = some found) : (lookupPhysicalBlock env s (v + 1) blk).1 = some found := by
  have got : getOrCreateVersion env s.log s.cache (v + 1) = (some m, s.cache) := by
    unfold getOrCreateVersion
    rw [if_neg (by omega), Nat.add_sub_cancel, resident]
  unfold lookupPhysicalBlock lookupFrom
  simp only [got, bound]

/-- A map that cannot be had leaves the others as they are. -/
theorem coherent_of_none {env : Env} {log : List LogRecord} {c c' : VersionCache} {v : Nat}
    (coherent : Coherent log c) (created : getOrCreateVersion env log c v = (none, c')) :
    Coherent log c' := by
  unfold getOrCreateVersion at created
  split at created
  case isTrue =>
    cases created
    exact coherent
  case isFalse =>
    split at created
    case h_1 => cases created
    case h_2 =>
      dsimp only at created
      split at created
      case isTrue => cases created
      case isFalse =>
        cases created
        exact coherent.takeSlot v

/-! ## Success -/

section Committed

variable {create : Env} {s s' : State} {vecs : List (IoVec × VecOutcome)}

/-- No byte of a block that was addressed can be read at the new version. -/
theorem unreadable_of_writev
    (done : ioctlSeeThruWritev create s vecs = some ((vecs.length : Int), s')) {x : Nat}
    (targets : Targets (vecs.map Prod.fst) (x / pageSize)) :
    visibleByte s' s'.version x = none := by
  cases ioctlSeeThruWritev_cases done with
  | dataFailed negative data => exact absurd negative (by omega)
  | @committed ret f m c nonempty nonneg data created =>
      have inside : s.version + 1 ≤ maxVersions := by
        have found : (getOrCreateVersion create s.log s.cache (s.version + 1)).1.isSome := by
          rw [created]
          rfl
        exact (version_range_of_isSome found).2
      obtain ⟨p, mapped, behind⟩ : ∃ p, (writevRecords (s.version + 1) (roundUp f.size) 0
          (vecs.map Prod.fst) (m, s.log)).1 (x / pageSize) = some p ∧
          roundUp f.size / pageSize ≤ p := writevRecords_of_target targets 0 m s.log
      unfold visibleByte readByte
      dsimp only
      rw [lookupPhysicalBlock_of_resident inside (Function.update_self _ _ _) mapped]
      have reached : roundUp f.size ≤ p * pageSize := by
        rw [← roundUp_div_mul]
        exact Nat.mul_le_mul_right _ behind
      have := le_roundUp f.size
      exact if_neg (by omega)

/-- Bytes of blocks that were not addressed are looked up as before, with whatever was
logged at the new version. -/
theorem visibleByte_of_other (coherent : Coherent s.log s.cache)
    (readable : ∀ p, create.readPage p = true) (fits : FitsLog (vecs.map Prod.fst))
    (empty : ∀ p ∈ vecs, p.1.data = [])
    (done : ioctlSeeThruWritev create s vecs = some ((vecs.length : Int), s')) {x : Nat}
    (other : ¬ Targets (vecs.map Prod.fst) (x / pageSize)) :
    visibleByte s' s'.version x = viewByte s.log s.origSize
      (copyBlocks s.file (roundUp s.file.size) (vecs.map Prod.fst)) (s.version + 1) x := by
  have result := ioctlSeeThruWritev_cases done
  have after := result.coherent readable fits coherent
  rw [visibleByte_eq after]
  cases result with
  | dataFailed negative data => exact absurd negative (by omega)
  | @committed ret f m c nonempty nonneg data created =>
      have inside : s.version + 1 ≤ maxVersions := by
        have found : (getOrCreateVersion create s.log s.cache (s.version + 1)).1.isSome := by
          rw [created]
          rfl
        exact (version_range_of_isSome found).2
      have value : m = History.delta (entries s.log) (s.version + 1) :=
        eq_delta_of_getOrCreateVersion readable coherent (by rw [created])
      have map : (writevRecords (s.version + 1) (roundUp f.size) 0 (vecs.map Prod.fst)
          (m, s.log)).1 (x / pageSize) = m (x / pageSize) :=
        writevRecords_of_other other 0 m s.log
      have below : resolve (s.log ++ writevLog (s.version + 1) (roundUp f.size) 0
          (vecs.map Prod.fst)) s.origSize s.version (x / pageSize) =
          resolve s.log s.origSize s.version (x / pageSize) := by
        apply resolve_append_of_above
        intro r member
        rw [version_of_mem_writevLog member]
        exact Nat.lt_succ_self _
      rw [value, writevRecords_delta fits] at map
      unfold viewByte
      dsimp only
      rw [resolve_succ inside, resolve_succ inside, map, below,
        writevData_of_empty (roundUp_mod _) nonneg empty data]

end Committed

theorem lastCovering_of_mem {vecs : List IoVec} {vec : IoVec} (member : vec ∈ vecs)
    (some : vec.data ≠ []) : (lastCovering vecs vec.logicalOffset).isSome = true := by
  induction vecs with
  | nil => cases member
  | cons head vecs ih =>
      unfold lastCovering
      rcases List.mem_cons.mp member with rfl | later
      · have own : (vec.byteAt? vec.logicalOffset).isSome = true := by
          unfold IoVec.byteAt?
          rw [if_pos le_rfl, Nat.sub_self]
          cases shape : vec.data with
          | nil => exact (some shape).elim
          | cons b bs => rfl
        simp [own]
      · simp [ih later]

theorem lastCovering_of_empty {vecs : List IoVec} (empty : ∀ vec ∈ vecs, vec.data = [])
    (x : Nat) : lastCovering vecs x = none := by
  induction vecs with
  | nil => rfl
  | cons head vecs ih =>
      have own : head.byteAt? x = none := by
        unfold IoVec.byteAt?
        rw [empty head List.mem_cons_self]
        split
        · rfl
        · rfl
      unfold lastCovering
      rw [ih fun vec member => empty vec (List.mem_cons_of_mem _ member), own]
      rfl

/-- What a call must find in order to be correct when it succeeds: there is nothing to
write, the blocks it addresses cannot be read, and the other blocks read the same at
the next version, in the file followed by a copy of each block addressed. -/
structure NothingToWrite (s : State) (vecs : List IoVec) : Prop where
  empty : ∀ vec ∈ vecs, vec.data = []
  unreadable : ∀ x, Targets vecs (x / pageSize) → visibleByte s s.version x = none
  others : ∀ x, ¬ Targets vecs (x / pageSize) →
    viewByte s.log s.origSize (copyBlocks s.file (roundUp s.file.size) vecs) (s.version + 1) x =
      visibleByte s s.version x

end FlexClone.Scorw
