import FlexClone.Scorw.Calls
import FlexClone.Scorw.View

/-!
# Reading back a plain write

`write_then_read`: in every state reached from a freshly opened parent, a plain
write that is recorded and written completely shows its bytes at the new version
and leaves every other byte as it was, if

* the records of the run find the page with the end of the log in memory
  (`Call.Ready`): otherwise the records in it are cleared,
* the log holds no record of the new version outside the blocks of the write
  (an abandoned transaction leaves such records), and
* the last block of a write over several blocks, when the write ends inside it,
  was not rewritten before (`TailKept`): its rest is copied from the original
  file.
-/

namespace FlexClone.Scorw

open Versioned

/-- The conditions under which a plain write leaves the rest of the file alone. -/
structure RestKept (s : State) (w : WriteReq) : Prop where
  /-- no record of the next version outside the blocks of the write -/
  fresh : ∀ e ∈ entries s.log, e.version = s.version + 1 →
    w.startBlk ≤ e.key ∧ e.key < w.startBlk + w.nrBlk
  tail : TailKept s w

/-- What a block resolves to after a plain write was recorded. -/
theorem resolve_of_recorded {s : State} {w : WriteReq} (inside : s.version + 1 ≤ maxVersions)
    (fresh : ∀ e ∈ entries s.log, e.version = s.version + 1 →
      w.startBlk ≤ e.key ∧ e.key < w.startBlk + w.nrBlk) (physicalBlk blk : Nat) :
    resolve (appendRecord s.log (s.version + 1) w.startBlk physicalBlk w.nrBlk) s.origSize
        (s.version + 1) blk =
      if w.startBlk ≤ blk ∧ blk < w.startBlk + w.nrBlk then
        some (physicalBlk + (blk - w.startBlk))
      else resolve s.log s.origSize s.version blk := by
  rw [resolve_appendRecord inside w.fitsRecord]
  split
  case isTrue => rfl
  case isFalse outside =>
    rw [History.delta_eq_none_iff.mpr, Option.none_or]
    intro e member same hit
    exact outside (hit ▸ fresh e member same)

/-- The file after a complete write. -/
theorem get?_completed {s : State} {env : WriteEnv} {w : WriteReq} {x : Nat} {b : UInt8}
    (complete : (redirectedLoop env s w).reply = w.count)
    (outside : x < w.pos ∨ w.pos + w.count ≤ x) (covered : w.startBlk ≤ x / pageSize)
    (read : (copiedUp env s w).2.get? (roundUp s.file.size + (x - w.startBlk * pageSize)) =
      some b) :
    (redirectedLoop env s w).file.get? (roundUp s.file.size + (x - w.startBlk * pageSize)) =
      some b := by
  obtain ⟨inside, value⟩ := ByteFile.get?_eq_some_iff.mp read
  have placed : (redirectedLoop env s w).file =
      (copiedUp env s w).2.put (roundUp s.file.size + w.pos % pageSize) w.data :=
    writePages_of_complete w.nonempty complete
  have apart : roundUp s.file.size + (x - w.startBlk * pageSize) <
        roundUp s.file.size + w.pos % pageSize ∨
      roundUp s.file.size + w.pos % pageSize + w.data.length ≤
        roundUp s.file.size + (x - w.startBlk * pageSize) := by
    have length : w.data.length = w.count := rfl
    unfold WriteReq.startBlk pageSize at *
    omega
  rw [placed]
  refine ByteFile.get?_eq_some_iff.mpr ⟨?_, ?_⟩
  · rw [ByteFile.size_put]
    omega
  · rw [ByteFile.byteAt_put_of_miss _ apart]
    exact value

/-- The write in the model without page cache. -/
theorem readBack_of_step {s s' : State} {file : Handle} {w : WriteReq} {env : WriteEnv}
    (sound : Sound s) (plain : selfTransactionStatus s file ≠ .setTransaction)
    (done : step s (.write file w env) = some ((w.count : Int), s'))
    (logged : s'.log.length = s.log.length + 1)
    (regular : (Op.write file w env).Regular) (clean : env.lookup.FaultFree)
    (kept : RestKept s w) :
    (∀ x, w.pos ≤ x → x < w.pos + w.count →
        visibleByte s' s'.version x = some (w.data.getD (x - w.pos) default)) ∧
      ∀ x b, (x < w.pos ∨ w.pos + w.count ≤ x) → visibleByte s s.version x = some b →
        visibleByte s' s'.version x = some b := by
  have sound' : Sound s' := step_sound sound regular done
  cases step_cases done with
  | write isOpen result =>
      obtain ⟨_, copied, zero, reply, rfl⟩ := result.eq_written logged
      have version : (written env s file w).version = s.version + 1 := by
        rw [version_written, raisedVersion, if_neg plain]
      have original : (written env s file w).origSize = s.origSize :=
        (recorded_frame env s file w).1
      have resolved := resolve_of_recorded (recorded_log_of_zero zero).2 kept.fresh
        (roundUp s.file.size / pageSize)
      have base : roundUp s.file.size % pageSize = 0 := roundUp_mod _
      refine ⟨fun x lower upper => ?_, fun x b outside before => ?_⟩
      · have blocks := w.mem_blocks x lower upper
        have length : w.data.length = w.count := rfl
        rw [visibleByte_eq sound'.coherent]
        refine viewByte_eq_some_iff.mpr ⟨_, by
          rw [log_written zero, version, original, resolved, if_pos blocks], ?_⟩
        rw [address_eq base blocks.1, w.redirected_pos lower]
        exact get?_acked (by omega) reply.symm
      · rw [visibleByte_eq sound.coherent] at before
        rw [visibleByte_eq sound'.coherent]
        obtain ⟨blk, found, read⟩ := viewByte_eq_some_iff.mp before
        by_cases blocks : w.startBlk ≤ x / pageSize ∧ x / pageSize < w.startBlk + w.nrBlk
        · refine viewByte_eq_some_iff.mpr ⟨_, by
            rw [log_written zero, version, original, resolved, if_pos blocks], ?_⟩
          rw [address_eq base blocks.1]
          apply get?_completed reply.symm outside blocks.1
          rw [copiedUp_eq sound.aligned copied, lookedUp_eq sound clean]
          exact get?_mergeBlocks kept.tail blocks.1 blocks.2 outside found read
        · refine viewByte_eq_some_iff.mpr ⟨blk, by
            rw [log_written zero, version, original, resolved, if_neg blocks, found], ?_⟩
          have below := (ByteFile.get?_eq_some_iff.mp read).1
          exact (redirectedLoop_keeps env s w).get?
            (lt_of_lt_of_le below (le_roundUp _)) read

/-- After a plain write that is recorded and completes, the written bytes are read
back at the new version, and every other byte that could be read before reads as
it did. -/
theorem write_then_read {s₀ s s' : State} {calls : List Call} {file : Handle} {w : WriteReq}
    {env : WriteEnv} {fetches : List LogFetch} {uptodate : List Bool} (opened : Opened s₀)
    (run : Run syscall (fun s c => c.op.Regular ∧ c.Ready s) s₀ calls s)
    (plain : selfTransactionStatus s file ≠ .setTransaction)
    (done : syscall s ⟨.write file w env, fetches, uptodate⟩ = some ((w.count : Int), s'))
    (logged : s'.log.length = s.log.length + 1)
    (regular : (Op.write file w env).Regular)
    (ready : Call.Ready s ⟨.write file w env, fetches, uptodate⟩)
    (clean : env.lookup.FaultFree) (kept : RestKept s w) :
    (∀ x, w.pos ≤ x → x < w.pos + w.count →
        visibleByte s' s'.version x = some (w.data.getD (x - w.pos) default)) ∧
      ∀ x b, (x < w.pos ∨ w.pos + w.count ≤ x) → visibleByte s s.version x = some b →
        visibleByte s' s'.version x = some b := by
  have sound : Sound s := sound_of_run opened.sound (run_toOp (fun _ c meets =>
    ⟨meets.2, c.regular_toOp.mpr meets.1⟩) run)
  have whole := delivered_of_syscall done
  rw [syscall_eq ready] at done
  unfold Call.toOp at done
  dsimp only at done
  rw [whole] at done
  exact readBack_of_step sound plain done logged regular clean kept

/-- Two bytes across the first block boundary of a fresh clone. -/
theorem write_then_read_across_blocks :
    ∃ s s' : State,
      Run syscall (fun s c => c.op.Regular ∧ c.Ready s) (cloned (.blank 8192))
        [(Op.openFile 0).cached] s ∧
      syscall s ⟨.write 0 ⟨4095, [1, 2], by decide, by decide⟩ (.clean 2), [.cleared], [false]⟩ =
        some (2, s') ∧
      visibleByte s' s'.version 4096 = some 2 ∧
      ∀ b, visibleByte s s.version 4097 = some b → visibleByte s' s'.version 4097 = some b := by
  have run : Run syscall (fun s c => c.op.Regular ∧ c.Ready s) (cloned (.blank 8192))
      [(Op.openFile 0).cached] { cloned (.blank 8192) with handles := [0] } :=
    .cons ⟨trivial, trivial⟩ rfl (.nil _)
  have written : (syscall { cloned (.blank 8192) with handles := [0] }
      ⟨.write 0 ⟨4095, [1, 2], by decide, by decide⟩ (.clean 2), [.cleared], [false]⟩).any
        (fun r => r.1 = 2 ∧ r.2.log.length = 1) = true := by decide +kernel
  obtain ⟨⟨ret, s'⟩, done, here⟩ := (Option.any_eq_true _ _).mp written
  obtain ⟨rfl, logged⟩ := of_decide_eq_true here
  have holds := write_then_read (opened_cloned _) run (by decide) done logged
    ⟨fun _ => rfl, fun _ => rfl⟩ (by decide) Env.clean_faultFree
    ⟨fun _ member => (List.not_mem_nil member).elim,
      .inr (.inr (.inl ⟨by decide, by decide⟩))⟩
  exact ⟨_, s', run, done, holds.1 4096 (by decide) (by decide),
    fun b before => holds.2 4097 b (.inr (by decide)) before⟩

/-- A block that was rewritten loses its tail to a write that ends in it: byte 4196 holds 7
before two bytes are written at 4095, and 0 afterwards. And a block whose record was cleared
in the log goes back to its original place when its version leaves memory: byte 0 holds 7
before the fourth of four writes to another block, and 0 afterwards. -/
theorem write_then_read_fails :
    (∃ s s' : State,
      Run syscall (fun s c => c.op.Regular ∧ c.Ready s) (cloned (.blank 8192))
        [(Op.openFile 0).cached, ⟨.writeByte 0 4196 7, [.cleared], []⟩] s ∧
      syscall s (Op.write 0 ⟨4095, [1, 2], by decide, by decide⟩ (.clean 2)).cached =
        some (2, s') ∧
      selfTransactionStatus s 0 ≠ .setTransaction ∧ s'.log.length = s.log.length + 1 ∧
      visibleByte s s.version 4196 = some 7 ∧ visibleByte s' s'.version 4196 = some 0) ∧
    ∃ s s' : State,
      Run syscall (fun _ c => c.op.Regular) (cloned (.blank 8192)) clearedWrites s ∧
      syscall s (Op.writeByte 0 4096 9).cached = some (1, s') ∧
      selfTransactionStatus s 0 ≠ .setTransaction ∧ s'.log.length = s.log.length + 1 ∧
      visibleByte s s.version 0 = some 7 ∧ visibleByte s' s'.version 0 = some 0 := by
  constructor
  · refine Run.exists_step_imp (fun s c => decide (c.Ready s)) ?_ (by decide +kernel)
      fun _ _ _ _ shown => shown
    intro c member s ready
    refine ⟨?_, of_decide_eq_true ready⟩
    rcases List.mem_cons.mp member with rfl | later
    · exact trivial
    · rw [List.mem_singleton.mp later]
      exact Op.regular_writeByte ..
  · exact Run.exists_step_imp (fun _ _ => true)
      (fun c member _ _ => regular_clearedWrites c member) (by decide +kernel)
      fun _ _ _ _ shown => shown

end FlexClone.Scorw
