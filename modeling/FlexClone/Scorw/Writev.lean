import FlexClone.Scorw.Write

/-!
# The vectored write ioctl

`ioctlSeeThruWritev` is `scorw_ioctl_see_thru_writev`: phase 1 copies one block
for every vector to the end of the file and overlays the vector's bytes, phase 2
records all of them at the next version, phase 3 raises the version. It takes
the inode lock but not the transaction lock.

Phase 2 computes the append position again, from the size phase 1 has left
behind, so that the recorded blocks lie past the ones that were written.
-/

namespace FlexClone.Scorw

/-- `struct scorw_io_vec`, with the user buffer's bytes; `len` is their number. -/
structure IoVec where
  logicalOffset : Nat
  data : List UInt8
  deriving DecidableEq

/-- What happens around one vector. -/
structure VecOutcome where
  /-- `copy_from_user` fails -/
  userFault : Bool
  /-- outcomes of copying the block -/
  copy : List CopyOutcome
  /-- outcome of writing the vector's bytes -/
  data : CopyOutcome

/-- Nothing fails. -/
def VecOutcome.clean : VecOutcome := ⟨false, [], .done⟩

/-- `-EINVAL` -/
def einval : Int := -22

/-- `-EFAULT` -/
def efault : Int := -14

/-- `scorw_write_kernel_data`. A run that leaves its page stops the kernel: the
page preparation asserts that it does not. -/
def writeKernelData (outcome : CopyOutcome) (f : ByteFile UInt8) (destPos : Nat)
    (kbuf : List UInt8) : Option (Int × ByteFile UInt8) :=
  if pageSize < destPos % pageSize + kbuf.length then none
  else
    match outcome with
    | .readFailed | .beginFailed => some (eio, f)
    | .endFailed => some (eio, f.put destPos kbuf)
    | .done => some (kbuf.length, f.put destPos kbuf)

/-- Phase 1: the block of each vector is copied from its place in the original
file to the append position and overlaid with the vector's bytes. -/
def writevData : ByteFile UInt8 → Nat → List (IoVec × VecOutcome) →
    Option (Int × ByteFile UInt8)
  | f, _, [] => some (0, f)
  | f, appendPos, (vec, outcome) :: vecs =>
      if pageSize < vec.data.length then some (einval, f)
      else if outcome.userFault then some (efault, f)
      else
        let copy := internalCopyBlocks outcome.copy f
          (vec.logicalOffset / pageSize * pageSize) appendPos pageSize
        if copy.1 < 0 then some copy
        else
          match writeKernelData outcome.data copy.2
              (appendPos + vec.logicalOffset % pageSize) vec.data with
          | none => none
          | some (ret, f) =>
              if ret < 0 then some (ret, f) else writevData f (appendPos + pageSize) vecs

/-- Phase 2 from vector `i` on: each vector's block is stored in the map of the
new version and logged. -/
def writevRecords (newVersion appendPos : Nat) :
    Nat → List IoVec → DeltaMap × List LogRecord → DeltaMap × List LogRecord
  | _, [], acc => acc
  | i, vec :: vecs, (m, log) =>
      let targetLogicalBlk := vec.logicalOffset / pageSize
      let appendedExt4Blk := (appendPos + i * pageSize) / pageSize
      writevRecords newVersion appendPos (i + 1) vecs
        (m.store targetLogicalBlk appendedExt4Blk,
          appendRecord log newVersion targetLogicalBlk appendedExt4Blk 1)

/-- `scorw_ioctl_see_thru_writev`. `create` are the faults of getting the new
version's map. -/
def ioctlSeeThruWritev (create : Env) (s : State) (vecs : List (IoVec × VecOutcome)) :
    Option (Int × State) :=
  if vecs.length = 0 ∨ 1024 < vecs.length then some (einval, s)
  else
    let newVersion := s.version + 1
    match writevData s.file (roundUp s.file.size) vecs with
    | none => none
    | some (ret, f) =>
        let s := { s with file := f }
        if ret < 0 then some (ret, s)
        else
          match getOrCreateVersion create s.log s.cache newVersion with
          | (none, c) => some (enomem, { s with cache := c })
          | (some m, c) =>
              let records := writevRecords newVersion (roundUp f.size) 0 (vecs.map Prod.fst)
                (m, s.log)
              some (vecs.length, { s with
                cache := c.setState newVersion records.1
                log := records.2
                version := newVersion })

/-! ## Phase 1 -/

theorem writeKernelData_keeps {outcome : CopyOutcome} {f f' : ByteFile UInt8} {destPos : Nat}
    {kbuf : List UInt8} {ret : Int}
    (done : writeKernelData outcome f destPos kbuf = some (ret, f')) :
    ByteFile.Keeps destPos f f' := by
  have overlaid : ByteFile.Keeps destPos f (f.put destPos kbuf) := ByteFile.keeps_put f _ le_rfl
  unfold writeKernelData at done
  split at done
  · cases done
  · cases outcome with
    | readFailed =>
        cases done
        exact .refl _ f
    | beginFailed =>
        cases done
        exact .refl _ f
    | endFailed =>
        cases done
        exact overlaid
    | done =>
        cases done
        exact overlaid

/-- Data that is written without an error had no failure on the way. -/
theorem eq_done_of_writeKernelData {outcome : CopyOutcome} {f f' : ByteFile UInt8}
    {destPos : Nat} {kbuf : List UInt8} {ret : Int}
    (done : writeKernelData outcome f destPos kbuf = some (ret, f')) (ok : ¬ ret < 0) :
    outcome = .done := by
  unfold writeKernelData at done
  split at done
  · cases done
  · cases outcome with
    | readFailed =>
        cases done
        exact (ok eio_neg).elim
    | beginFailed =>
        cases done
        exact (ok eio_neg).elim
    | endFailed =>
        cases done
        exact (ok eio_neg).elim
    | done => rfl

/-- Phase 1 touches nothing below the append position. -/
theorem writevData_keeps {vecs : List (IoVec × VecOutcome)} {f f' : ByteFile UInt8}
    {appendPos : Nat} {ret : Int} (aligned : appendPos % pageSize = 0)
    (done : writevData f appendPos vecs = some (ret, f')) : ByteFile.Keeps appendPos f f' := by
  induction vecs generalizing f appendPos with
  | nil =>
      cases done
      exact .refl _ _
  | cons head vecs ih =>
      obtain ⟨vec, outcome⟩ := head
      have copied := copyPage_keeps (outcome.copy.headD .done) f
        (vec.logicalOffset / pageSize * pageSize) appendPos
      unfold writevData at done
      rw [internalCopyBlocks_page _ _ _ aligned] at done
      generalize copyPage (outcome.copy.headD .done) f
        (vec.logicalOffset / pageSize * pageSize) appendPos = copy at done copied
      split at done
      · cases done
        exact .refl _ _
      · split at done
        · cases done
          exact .refl _ _
        · dsimp only at done
          split at done
          · cases done
            exact copied
          · split at done
            case h_1 => cases done
            case h_2 ret' g written =>
              have placed := (writeKernelData_keeps written).mono (Nat.le_add_right appendPos _)
              split at done
              · cases done
                exact copied.trans placed
              · have next : (appendPos + pageSize) % pageSize = 0 := by
                  rw [Nat.add_mod_right, aligned]
                have rest := (ih next done).mono (Nat.le_add_right appendPos _)
                exact (copied.trans placed).trans rest

/-! ## Phase 2 -/

/-- The records phase 2 appends. -/
def writevLog (newVersion appendPos : Nat) : Nat → List IoVec → List LogRecord
  | _, [] => []
  | i, vec :: vecs =>
      ⟨newVersion, u32 (vec.logicalOffset / pageSize), (appendPos + i * pageSize) / pageSize,
        u32 1⟩ :: writevLog newVersion appendPos (i + 1) vecs

theorem writevRecords_log (newVersion appendPos i : Nat) (vecs : List IoVec) (m : DeltaMap)
    (log : List LogRecord) :
    (writevRecords newVersion appendPos i vecs (m, log)).2 =
      log ++ writevLog newVersion appendPos i vecs := by
  induction vecs generalizing i m log with
  | nil => exact (List.append_nil log).symm
  | cons vec vecs ih =>
      unfold writevRecords writevLog
      rw [ih, appendRecord, List.append_assoc]
      rfl

theorem version_of_mem_writevLog {newVersion appendPos i : Nat} {vecs : List IoVec}
    {r : LogRecord} (member : r ∈ writevLog newVersion appendPos i vecs) :
    r.versionNum = newVersion := by
  induction vecs generalizing i with
  | nil => cases member
  | cons vec vecs ih =>
      rcases List.mem_cons.mp member with rfl | later
      · rfl
      · exact ih later

/-- The vectors address blocks whose numbers fit the 32 bits of a record. -/
def FitsLog (vecs : List IoVec) : Prop :=
  ∀ vec ∈ vecs, vec.logicalOffset / pageSize + 1 < 2 ^ 32

/-- Storing and logging the vectors one by one keeps map and log in step. -/
theorem writevRecords_delta {newVersion appendPos : Nat} {vecs : List IoVec} (fits : FitsLog vecs)
    (i : Nat) (log : List LogRecord) :
    (writevRecords newVersion appendPos i vecs
        (Versioned.History.delta (entries log) newVersion, log)).1 =
      Versioned.History.delta (entries (log ++ writevLog newVersion appendPos i vecs))
        newVersion := by
  induction vecs generalizing i log with
  | nil =>
      unfold writevRecords writevLog
      rw [List.append_nil]
  | cons vec vecs ih =>
      have small : FitsRecord (vec.logicalOffset / pageSize) 1 := fits vec List.mem_cons_self
      have one : (Versioned.History.delta (entries log) newVersion).store
          (vec.logicalOffset / pageSize) ((appendPos + i * pageSize) / pageSize) =
          Versioned.History.delta (entries (appendRecord log newVersion
            (vec.logicalOffset / pageSize) ((appendPos + i * pageSize) / pageSize) 1))
            newVersion := by
        rw [appendRecord, delta_appendRecord, ← storeBlocks_eq small]
        rfl
      unfold writevRecords writevLog
      dsimp only
      rw [one, ih fun v member => fits v (List.mem_cons_of_mem _ member)]
      rw [appendRecord, List.append_assoc]
      rfl

/-! ## All outcomes of the ioctl -/

/-- Everything the ioctl can do. -/
inductive WritevResult (create : Env) (s : State) (vecs : List (IoVec × VecOutcome)) :
    Int → State → Prop
  /-- the arguments are refused -/
  | refused : WritevResult create s vecs einval s
  /-- phase 1 fails -/
  | dataFailed {ret : Int} {f : ByteFile UInt8} (negative : ret < 0)
    (data : writevData s.file (roundUp s.file.size) vecs = some (ret, f)) :
    WritevResult create s vecs ret { s with file := f }
  /-- there is no map for the new version -/
  | noVersion {ret : Int} {f : ByteFile UInt8} {c : VersionCache}
    (data : writevData s.file (roundUp s.file.size) vecs = some (ret, f))
    (created : getOrCreateVersion create s.log s.cache (s.version + 1) = (none, c)) :
    WritevResult create s vecs enomem { s with file := f, cache := c }
  /-- all three phases -/
  | committed {ret : Int} {f : ByteFile UInt8} {m : DeltaMap} {c : VersionCache}
    (nonempty : vecs ≠ []) (nonneg : ¬ ret < 0)
    (data : writevData s.file (roundUp s.file.size) vecs = some (ret, f))
    (created : getOrCreateVersion create s.log s.cache (s.version + 1) = (some m, c)) :
    WritevResult create s vecs vecs.length
      { s with
        file := f
        cache := c.setState (s.version + 1)
          (writevRecords (s.version + 1) (roundUp f.size) 0 (vecs.map Prod.fst) (m, s.log)).1
        log := s.log ++ writevLog (s.version + 1) (roundUp f.size) 0 (vecs.map Prod.fst)
        version := s.version + 1 }

theorem ioctlSeeThruWritev_cases {create : Env} {s s' : State}
    {vecs : List (IoVec × VecOutcome)} {ret : Int}
    (done : ioctlSeeThruWritev create s vecs = some (ret, s')) :
    WritevResult create s vecs ret s' := by
  unfold ioctlSeeThruWritev at done
  split at done
  case isTrue =>
    cases done
    exact .refused
  case isFalse admitted =>
    dsimp only at done
    split at done
    case h_1 => cases done
    case h_2 ret' f data =>
      split at done
      case isTrue negative =>
        cases done
        exact .dataFailed negative data
      case isFalse nonneg =>
        split at done
        case h_1 c created =>
          cases done
          exact .noVersion data created
        case h_2 m c created =>
          rw [writevRecords_log] at done
          cases done
          have nonempty : vecs ≠ [] := by
            intro empty
            rw [empty] at admitted
            exact admitted (.inl rfl)
          exact .committed nonempty nonneg data created

end FlexClone.Scorw
