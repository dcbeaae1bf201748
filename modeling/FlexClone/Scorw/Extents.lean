import FlexClone.Scorw.View

/-!
# Extents of log records

Every record should own its appended blocks: `DisjointExtents`. A write records
its run of blocks before it places any data, at a position computed from the
file's size, so the invariant survives only if the data, or a copied block,
reaches the last block of the run (`Reaches`). The vectored write computes the
recorded position again after it has written, and so breaks the invariant
whenever it gets to record (`VecStops` is what stops it before).
-/

namespace FlexClone.Scorw

/-- Physical extents are pairwise disjoint, start at or after the original size
and end at or below the file's size rounded up to a page. -/
structure DisjointExtents (s : State) : Prop where
  disjoint : s.log.Pairwise fun r q =>
    r.physicalStartBlk + r.lenBlks ≤ q.physicalStartBlk ∨
      q.physicalStartBlk + q.lenBlks ≤ r.physicalStartBlk
  start : ∀ r ∈ s.log, s.origSize ≤ r.physicalStartBlk * pageSize
  stop : ∀ r ∈ s.log, (r.physicalStartBlk + r.lenBlks) * pageSize ≤ roundUp s.file.size

/-- The end of what the data loop puts in place. -/
def loopEnd : List PageOutcome → Nat → Nat → Nat
  | [], _, _ => 0
  | outcome :: outcomes, pos, remaining =>
      let bytes := min (pageSize - pos % pageSize) remaining
      match outcome with
      | .signal | .beginFailed => 0
      | .endFailed n => pos + min n bytes
      | .copied n =>
          let copied := min n bytes
          if remaining - copied = 0 then pos + copied
          else max (pos + copied) (loopEnd outcomes (pos + copied) (remaining - copied))

/-- The write gets something into the last block of its run: a copy of the block,
or a byte of the data. -/
def Reaches (s : State) (w : WriteReq) (env : WriteEnv) : Prop :=
  (lookedUp env s w).1.isSome ∧ (w.nrBlk = 1 ∧ w.CopiesHead ∨ w.CopiesTail s.origSize) ∨
    roundUp s.file.size + (w.nrBlk - 1) * pageSize <
      loopEnd env.pages (roundUp s.file.size + w.pos % pageSize) w.count

/-- The vector stops phase 1 of the vectored write. -/
def VecStops (p : IoVec × VecOutcome) : Prop :=
  pageSize < p.1.data.length ∨ p.2.userFault = true ∨ p.2.copy.headD .done ≠ .done ∨
    p.2.data ≠ .done

/-- As long as there are version numbers left, writes reach their last block and
vectored writes stop before they record. -/
def Op.Contained (s : State) : Op → Prop
  | .write _ w env => s.version + 1 ≤ maxVersions → Reaches s w env
  | .writev _ vecs _ => s.version + 1 ≤ maxVersions → ∃ p ∈ vecs, VecStops p
  | _ => True

instance (s : State) (w : WriteReq) (env : WriteEnv) : Decidable (Reaches s w env) :=
  inferInstanceAs (Decidable (_ ∧ _ ∨ _))

instance (p : IoVec × VecOutcome) : Decidable (VecStops p) := inferInstanceAs (Decidable (_ ∨ _))

instance (s : State) : (op : Op) → Decidable (op.Contained s)
  | .openFile _ | .closeFile _ | .openChild | .closeChild | .beginTransaction _ _
  | .endTransaction _ | .lookup _ _ _ => inferInstanceAs (Decidable True)
  | .write _ _ _ => inferInstanceAs (Decidable (_ → _))
  | .writev _ vecs _ => inferInstanceAs (Decidable (_ → ∃ p ∈ vecs, VecStops p))

/-! ## Sizes -/

theorem size_writePages (outcomes : List PageOutcome) (f : ByteFile UInt8) (pos : Nat)
    (data : List UInt8) (written : Nat) :
    (writePages outcomes f pos data written).file.size =
      max f.size (loopEnd outcomes pos data.length) := by
  induction outcomes generalizing f pos data written with
  | nil => exact (Nat.max_zero f.size).symm
  | cons outcome outcomes ih =>
      cases outcome with
      | signal => exact (Nat.max_zero f.size).symm
      | beginFailed => exact (Nat.max_zero f.size).symm
      | endFailed n =>
          unfold writePages loopEnd
          dsimp only
          rw [ByteFile.size_put, List.length_take]
          congr 2
          omega
      | copied n =>
          unfold writePages loopEnd
          dsimp only
          generalize chosen : min n (min (pageSize - pos % pageSize) data.length) = c
          have bound : c ≤ data.length := by omega
          have length : (data.take c).length = c := List.length_take_of_le bound
          by_cases ended : data.drop c = []
          · have all := List.drop_eq_nil_iff.mp ended
            rw [if_pos ended, if_pos (by omega)]
            dsimp only
            rw [ByteFile.size_put, length]
          · have more : ¬ data.length - c = 0 := by
              intro none
              exact ended (List.drop_eq_nil_iff.mpr (by omega))
            rw [if_neg ended, if_neg more, ih, ByteFile.size_put, length, List.length_drop,
              max_assoc]

theorem size_redirectedLoop (env : WriteEnv) (s : State) (w : WriteReq) :
    (redirectedLoop env s w).file.size = max (copiedUp env s w).2.size
      (loopEnd env.pages (roundUp s.file.size + w.pos % pageSize) w.count) :=
  size_writePages _ _ _ _ _

/-- Files never shrink. -/
theorem step_size_le {s s' : State} {op : Op} {ret : Int} (idle : Idle s)
    (taken : step s op = some (ret, s')) : s.file.size ≤ s'.file.size := by
  have same {g : ByteFile UInt8} (equal : g = s.file) : s.file.size ≤ g.size := by rw [equal]
  cases step_cases taken with
  | openFile fresh => exact same (quiet_getInode idle).file
  | closeFile isOpen => exact same (quiet_putInode _).file
  | openChild => exact same (quiet_getInode idle).file
  | closeChild isOpen => exact same (quiet_putInode _).file
  | beginRefused nonzero => exact le_rfl
  | begun isOpen free => exact le_rfl
  | endRefused => exact le_rfl
  | committed isOpen held => exact le_rfl
  | unlocked held outside => exact le_rfl
  | write isOpen result =>
      cases result with
      | refused outside => exact le_rfl
      | inPlace ready failed =>
          exact le_trans (copiedUp_keeps _ _ _).size_le (writePages_keeps _ _ _ _ _).size_le
      | redirected ready copied => exact (redirectedLoop_keeps _ _ _).size_le
  | writev isOpen result =>
      cases result with
      | refused => exact le_rfl
      | dataFailed negative data => exact (writevData_keeps (roundUp_mod _) data).size_le
      | noVersion data created => exact (writevData_keeps (roundUp_mod _) data).size_le
      | committed nonempty nonneg data created =>
          exact (writevData_keeps (roundUp_mod _) data).size_le
  | lookup used => exact le_rfl

/-- A write that reaches its last block makes room for its whole run. -/
theorem room_of_reaches {s : State} {w : WriteReq} {env : WriteEnv}
    (aligned : s.origSize % pageSize = 0) (copied : ¬ (copiedUp env s w).1 < 0)
    (reaches : Reaches s w env) :
    roundUp s.file.size + w.nrBlk * pageSize ≤ roundUp (redirectedLoop env s w).file.size := by
  have base : roundUp s.file.size % pageSize = 0 := roundUp_mod _
  have size := size_redirectedLoop env s w
  have count : w.nrBlk = w.endBlk - w.startBlk + 1 := rfl
  have last : 4095 < pageSize := by decide
  have beyond : roundUp s.file.size + (w.nrBlk - 1) * pageSize <
      (redirectedLoop env s w).file.size := by
    rcases reaches with ⟨found, copies⟩ | reached
    · obtain ⟨source, found⟩ := Option.isSome_iff_exists.mp found
      have merged := copiedUp_eq aligned copied
      rw [found] at merged
      rcases copies with ⟨single, head⟩ | tail
      · have read := get?_headCopy (f := s.file) head s.origSize source (roundUp s.file.size) last
        have inside := (ByteFile.get?_eq_some_iff.mp read).1
        rw [size, merged, single, Nat.sub_self, Nat.zero_mul]
        refine lt_of_lt_of_le ?_ (le_max_left _ _)
        exact lt_of_le_of_lt (Nat.add_le_add_left (Nat.zero_le _) _) inside
      · have read : (tailCopy (headCopy s.file w source (roundUp s.file.size)) w s.origSize
            (roundUp s.file.size)).get? (roundUp s.file.size +
              (w.endBlk - w.startBlk) * pageSize + 4095) = some _ := get?_tailCopy tail last
        have inside := (ByteFile.get?_eq_some_iff.mp read).1
        rw [size, merged, count, Nat.add_sub_cancel]
        refine lt_of_lt_of_le ?_ (le_max_left _ _)
        exact lt_of_le_of_lt (Nat.le_add_right _ _) inside
    · rw [size]
      exact lt_of_lt_of_le reached (le_max_right _ _)
  have positive : 1 ≤ w.nrBlk := by omega
  unfold roundUp pageSize at *
  omega

/-- A vector that stops phase 1 makes the ioctl fail. -/
theorem writevData_negative {vecs : List (IoVec × VecOutcome)} {f f' : ByteFile UInt8}
    {appendPos : Nat} {ret : Int} (aligned : appendPos % pageSize = 0)
    (stops : ∃ p ∈ vecs, VecStops p)
    (done : writevData f appendPos vecs = some (ret, f')) : ret < 0 := by
  induction vecs generalizing f appendPos with
  | nil =>
      obtain ⟨p, member, _⟩ := stops
      cases member
  | cons head vecs ih =>
      obtain ⟨vec, outcome⟩ := head
      unfold writevData at done
      rw [internalCopyBlocks_page _ _ _ aligned] at done
      split at done
      · cases done
        decide
      case isFalse short =>
        split at done
        · cases done
          decide
        case isFalse fetched =>
          dsimp only at done
          split at done
          case isTrue failed =>
            have reply : _ = ret := congrArg Prod.fst (Option.some.inj done)
            rw [← reply]
            exact failed
          case isFalse fine =>
            split at done
            case h_1 => cases done
            case h_2 ret' g written =>
              split at done
              case isTrue failed =>
                cases done
                exact failed
              case isFalse placed =>
                have later : ∃ p ∈ vecs, VecStops p := by
                  obtain ⟨p, member, stop⟩ := stops
                  rcases List.mem_cons.mp member with rfl | inside
                  · rcases stop with long | fault | broken | lost
                    · exact (short long).elim
                    · exact (fetched fault).elim
                    · exact (fine (copyPage_neg_iff.mpr broken)).elim
                    · exact (lost (eq_done_of_writeKernelData written placed)).elim
                  · exact ⟨p, inside, stop⟩
                exact ih (by rw [Nat.add_mod_right, aligned]) later done

/-! ## The invariant -/

/-- The invariant with what its proof needs. -/
structure ExtentsInv (s : State) : Prop where
  idle : Idle s
  aligned : s.origSize % pageSize = 0
  /-- the file covers the original blocks -/
  covers : s.origSize ≤ roundUp s.file.size
  extents : DisjointExtents s

theorem extentsInv_cloned (f : ByteFile UInt8) : ExtentsInv (cloned f) :=
  ⟨fun _ => rfl, roundUp_mod _, le_rfl,
    ⟨.nil, fun _ member => (List.not_mem_nil member).elim,
      fun _ member => (List.not_mem_nil member).elim⟩⟩

/-- Calls that log nothing keep the extents. -/
theorem DisjointExtents.of_same_log {s s' : State} (extents : DisjointExtents s)
    (log : s'.log = s.log) (origSize : s'.origSize = s.origSize)
    (grown : s.file.size ≤ s'.file.size) : DisjointExtents s' := by
  refine ⟨log ▸ extents.disjoint, fun r member => ?_, fun r member => ?_⟩
  · rw [log] at member
    rw [origSize]
    exact extents.start r member
  · rw [log] at member
    exact le_trans (extents.stop r member) (roundUp_mono grown)

/-- A record appended at the end of the file, with room for its blocks. -/
theorem DisjointExtents.append {s s' : State} (extents : DisjointExtents s)
    (covers : s.origSize ≤ roundUp s.file.size) {r : LogRecord} (log : s'.log = s.log ++ [r])
    (origSize : s'.origSize = s.origSize) (grown : s.file.size ≤ s'.file.size)
    (start : r.physicalStartBlk * pageSize = roundUp s.file.size)
    (room : (r.physicalStartBlk + r.lenBlks) * pageSize ≤ roundUp s'.file.size) :
    DisjointExtents s' := by
  refine ⟨?_, fun q member => ?_, fun q member => ?_⟩
  · rw [log]
    refine List.pairwise_append.mpr ⟨extents.disjoint, List.pairwise_singleton _ _,
      fun q member last inside => .inl ?_⟩
    rw [List.mem_singleton.mp inside]
    have below := extents.stop q member
    rw [← start] at below
    exact Nat.le_of_mul_le_mul_right below pageSize_pos
  · rw [log] at member
    rw [origSize]
    rcases List.mem_append.mp member with old | new
    · exact extents.start q old
    · rw [List.mem_singleton.mp new, start]
      exact covers
  · rw [log] at member
    rcases List.mem_append.mp member with old | new
    · exact le_trans (extents.stop q old) (roundUp_mono grown)
    · rw [List.mem_singleton.mp new]
      exact room

/-- Contained calls keep the invariant. -/
theorem step_extents {s s' : State} {op : Op} {ret : Int} (inv : ExtentsInv s)
    (contained : op.Contained s) (taken : step s op = some (ret, s')) : ExtentsInv s' := by
  have grows := step_grows inv.idle taken
  have size := step_size_le inv.idle taken
  have same (log : s'.log = s.log) : DisjointExtents s' :=
    inv.extents.of_same_log log grows.origSize size
  refine ⟨step_idle inv.idle taken, by rw [grows.origSize]; exact inv.aligned,
    by rw [grows.origSize]; exact le_trans inv.covers (roundUp_mono size), ?_⟩
  cases step_cases taken with
  | openFile fresh => exact same (quiet_getInode inv.idle).log
  | closeFile isOpen => exact same (quiet_putInode _).log
  | openChild => exact same (quiet_getInode inv.idle).log
  | closeChild isOpen => exact same (quiet_putInode _).log
  | beginRefused nonzero => exact same rfl
  | begun isOpen free => exact same rfl
  | endRefused => exact same rfl
  | committed isOpen held => exact same rfl
  | unlocked held outside => exact same rfl
  | @write file w env _ _ isOpen result =>
      cases result with
      | refused outside => exact same rfl
      | inPlace ready failed =>
          apply same
          dsimp only
          rw [lookedUp_store]
      | redirected ready copied =>
          by_cases zero : (recorded env s file w).1 = 0
          · obtain ⟨log, inside⟩ := recorded_log_of_zero zero
            have room := room_of_reaches inv.aligned copied (contained inside)
            have fits := w.fitsRecord
            have count : u32 w.nrBlk = w.nrBlk := u32_of_lt (by unfold FitsRecord at fits; omega)
            refine inv.extents.append inv.covers log grows.origSize size (roundUp_div_mul _) ?_
            dsimp only
            rw [count, Nat.add_mul, roundUp_div_mul]
            exact room
          · exact same (recorded_log_of_ne zero)
  | @writev file vecs create _ _ isOpen result =>
      cases result with
      | refused => exact same rfl
      | dataFailed negative data => exact same rfl
      | noVersion data created => exact same rfl
      | committed nonempty nonneg data created =>
          have found : (getOrCreateVersion create s.log s.cache (s.version + 1)).1.isSome := by
            rw [created]
            rfl
          have inside := (version_range_of_isSome found).2
          exact (nonneg (writevData_negative (roundUp_mod _) (contained inside) data)).elim
  | lookup used =>
      apply same
      rw [lookupPhysicalBlock_store]

/-- In every run from a fresh clone whose writes reach their last block and whose
vectored writes stop before they record, no two records share a block, none
points into the original file and none past the end of the file. -/
theorem extents_disjoint {f : ByteFile UInt8} {ops : List Op} {s : State}
    (run : Run step (fun s op => op.Contained s) (cloned f) ops s) : DisjointExtents s :=
  (run.invariant (fun _ _ _ _ inv contained taken => step_extents inv contained taken)
    (extentsInv_cloned f)).extents

/-- A write over two blocks whose second page stops short. -/
theorem extents_disjoint_short_write :
    ∃ s : State,
      Run step (fun s op => op.Contained s) (cloned (.blank 8192))
        [.openFile 0, .write 0 ⟨4095, [1, 2, 3], by decide, by decide⟩
          ⟨false, .clean, .clean, [], [], [.copied 1, .copied 1, .signal]⟩] s ∧
      s.log = [⟨2, 0, 2, 2⟩] ∧ DisjointExtents s := by
  exact Run.exists_imp (fun s op => decide (op.Contained s)) (fun _ _ _ => of_decide_eq_true)
    (Q := fun s => s.log = [⟨2, 0, 2, 2⟩]) (by decide +kernel)
    fun _ run log => ⟨log, extents_disjoint run⟩

/-- A write past the end whose data loop is interrupted leaves a record without
blocks; the next write is appended at the same block. -/
theorem extents_disjoint_fails :
    ∃ s : State,
      Run step (fun _ op => op.Regular) (cloned (.blank 8192))
        [.openFile 0, .write 0 ⟨8192, [7], by decide, by decide⟩ (.clean 0),
          .write 0 ⟨0, [1], by decide, by decide⟩ (.clean 1)] s ∧
      s.log = [⟨2, 2, 2, 1⟩, ⟨3, 0, 2, 1⟩] ∧ ¬ DisjointExtents s := by
  refine Run.exists_imp (fun _ _ => true) ?_ (Q := fun s => s.log = [⟨2, 2, 2, 1⟩, ⟨3, 0, 2, 1⟩])
    (by decide +kernel) ?_
  · simp [Op.Regular, WriteEnv.clean, Env.clean]
  · intro s _ log
    refine ⟨log, fun extents => ?_⟩
    have disjoint := extents.disjoint
    rw [log] at disjoint
    revert disjoint
    decide

end FlexClone.Scorw
