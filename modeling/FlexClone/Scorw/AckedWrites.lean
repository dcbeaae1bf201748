import FlexClone.Scorw.Calls
import FlexClone.Scorw.View

/-!
# Acknowledged writes

`Acks` follows a run and collects the bytes that the writes of the open
transaction have reported. `acked_bytes_resolved`: when a plain write returns,
the bytes it reports are the ones a lookup at the parent's version leads to, and
when a transaction is ended, all bytes reported inside it are, for every outcome
of the allocations that lookups and other calls make, provided that

* the write can be recorded: its version is in the table and the map of the
  version can be allocated (the result of recording is not looked at),
* no copy fails (the data would go to the blocks of the original file),
* a write inside a transaction overwrites completely what the transaction had
  written in the blocks it touches (the rest of a block is merged from the
  committed version),
* no pass of a data loop is dropped (the bytes behind it would take its place),
* the page with the end of the log is in memory (its records would be cleared).
-/

namespace FlexClone.Scorw

open Versioned

/-- A state with the bytes acknowledged in the open transaction. -/
structure Acks where
  state : State
  pending : Nat → Option UInt8

/-- The acknowledged bytes after a write reported `n` bytes. -/
def ackWrite (pending : Nat → Option UInt8) (w : WriteReq) (n : Nat) : Nat → Option UInt8 :=
  fun x => if w.pos ≤ x ∧ x < w.pos + n then some (w.data.getD (x - w.pos) default) else pending x

def Acks.after (a : Acks) (op : Op) (ret : Int) (s' : State) : Acks where
  state := s'
  pending :=
    if s'.InTransaction then
      match op with
      | .write _ w _ => ackWrite a.pending w ret.toNat
      | _ => a.pending
    else fun _ => none

/-- One call with the acknowledged bytes. -/
def acksStep (a : Acks) (c : Call) : Option (Int × Acks) :=
  (syscall a.state c).map fun r => (r.1, a.after c.op r.1 r.2)

def Acks.start (s : State) : Acks := ⟨s, fun _ => none⟩

/-- No pass of the data loop fails or stops short, and there are enough of them. -/
def WriteEnv.Completes (env : WriteEnv) (w : WriteReq) : Prop :=
  w.nrBlk ≤ env.pages.length ∧ ∀ outcome ∈ env.pages, ∃ n, pageSize ≤ n ∧ outcome = .copied n

/-- The calls of the runs considered, and the condition on writes. -/
def Call.Safe (a : Acks) (c : Call) : Prop :=
  c.Ready a.state ∧
    match c.op with
    | .write _ w env =>
        (a.state.version + 1 ≤ maxVersions ∧ env.record.alloc (a.state.version + 1) = true) ∧
          (env.CopiesSucceed ∧ NoneDropped env.pages c.uptodate w.pos w.count) ∧
          ∀ x, (a.pending x).isSome → w.startBlk ≤ x / pageSize →
            x / pageSize < w.startBlk + w.nrBlk →
              (w.pos ≤ x ∧ x < w.pos + w.count) ∧ env.Completes w
    | .writev _ _ _ => False
    | _ => True

/-- What a call owes its caller. -/
def AckedResolved (a : Acks) (op : Op) (ret : Int) (s' : State) : Prop :=
  match op with
  | .write _ w _ =>
      ¬ a.state.InTransaction → ∀ i : Nat, (i : Int) < ret → ∀ env : Env,
        readByte env s' s'.version (w.pos + i) = some (w.data.getD i default)
  | .endTransaction _ =>
      ret = 0 → ∀ x b, a.pending x = some b → ∀ env : Env,
        env.alloc s'.version = true → (∀ p, env.readPage p = true) →
          readByte env s' s'.version x = some b
  | _ => True

/-- A complete data loop reports everything. -/
theorem writePages_of_full {outcomes : List PageOutcome} {uptodate : List Bool}
    {f : ByteFile UInt8} {pos pos' written : Nat} {data : List UInt8}
    (same : pos' % pageSize = pos % pageSize) (nonempty : data ≠ [])
    (full : ∀ outcome ∈ outcomes, ∃ n, pageSize ≤ n ∧ outcome = .copied n)
    (enough : (pos + data.length - 1) / pageSize - pos / pageSize + 1 ≤ outcomes.length) :
    (writePages (reportedPasses outcomes uptodate pos' data.length) f pos data written).written =
      written + data.length := by
  induction outcomes generalizing uptodate f pos pos' data written with
  | nil => exact (Nat.not_succ_le_zero _ enough).elim
  | cons outcome outcomes ih =>
      obtain ⟨n, large, shape⟩ := full outcome List.mem_cons_self
      subst shape
      have length := List.length_pos_iff.mpr nonempty
      unfold reportedPasses writePages
      dsimp only
      rw [same]
      generalize chosen : min (pageSize - pos % pageSize) data.length = c
      have asked : min n c = c := by omega
      have reported : writeEnd (uptodate.headD true) c c = c :=
        if_neg fun short => Nat.lt_irrefl c short.1
      rw [asked, reported, Nat.min_self]
      by_cases ended : data.drop c = []
      · rw [if_pos ended]
        dsimp only
        have all := List.drop_eq_nil_iff.mp ended
        omega
      · have more : c < data.length := by
          by_contra none
          exact ended (List.drop_eq_nil_iff.mpr (by omega))
        -- the pass fills its page, so the rest starts on the next one
        have page : c = pageSize - pos % pageSize := by omega
        have spans : (pos + c + (data.length - c) - 1) / pageSize - (pos + c) / pageSize + 1 ≤
            outcomes.length := by
          rw [List.length_cons] at enough
          unfold pageSize at *
          omega
        have next : (pos' + c) % pageSize = (pos + c) % pageSize := by
          rw [Nat.add_mod, same, ← Nat.add_mod]
        rw [if_neg ended, if_neg (by omega), ← List.length_drop, ih next ended
          (fun o member => full o (List.mem_cons_of_mem _ member))
          (by rw [List.length_drop]; exact spans), List.length_drop]
        omega

/-- A complete write reports all its bytes. -/
theorem redirectedLoop_of_completes {env : WriteEnv} {w : WriteReq} (completes : env.Completes w)
    (uptodate : List Bool) (s : State) :
    (redirectedLoop (env.reported uptodate w) s w).reply = w.count := by
  have base : roundUp s.file.size % pageSize = 0 := roundUp_mod _
  have positive := w.count_pos
  have enough : (roundUp s.file.size + w.pos % pageSize + w.data.length - 1) / pageSize -
      (roundUp s.file.size + w.pos % pageSize) / pageSize + 1 ≤ env.pages.length := by
    refine le_trans ?_ completes.1
    have length : w.data.length = w.count := rfl
    unfold WriteReq.nrBlk WriteReq.endBlk WriteReq.startBlk
    unfold pageSize at *
    omega
  have same : w.pos % pageSize = (roundUp s.file.size + w.pos % pageSize) % pageSize := by
    rw [Nat.add_mod, base, Nat.zero_add, Nat.mod_mod, Nat.mod_mod]
  have written : (redirectedLoop (env.reported uptodate w) s w).written = 0 + w.data.length :=
    writePages_of_full same w.nonempty completes.2 enough
  rw [Nat.zero_add] at written
  unfold PageLoop.reply
  rw [written]
  exact if_pos (Nat.ne_of_gt positive)

/-! ## Safe calls as operations -/

/-- What the operation of a safe call meets. -/
def Op.Admitted (a : Acks) : Op → Prop
  | .write _ w env =>
      (a.state.version + 1 ≤ maxVersions ∧ env.record.alloc (a.state.version + 1) = true) ∧
        env.CopiesSucceed ∧
        ∀ x, (a.pending x).isSome → w.startBlk ≤ x / pageSize →
          x / pageSize < w.startBlk + w.nrBlk →
            (w.pos ≤ x ∧ x < w.pos + w.count) ∧ (redirectedLoop env a.state w).reply = w.count
  | .writev _ _ _ => False
  | _ => True

section Safe

variable {a a' : Acks} {c : Call} {ret : Int}

theorem Call.Safe.admitted (safe : c.Safe a) : c.toOp.Admitted a := by
  obtain ⟨op, fetches, uptodate⟩ := c
  cases op with
  | write file w env =>
      obtain ⟨_, room, ⟨succeed, kept⟩, whole⟩ := safe
      have same := w.delivered_eq (delivered_of_noneDropped kept)
      unfold toOp
      dsimp only
      rw [same]
      refine ⟨room, succeed, fun x acked lower upper => ?_⟩
      obtain ⟨range, completes⟩ := whole x acked lower upper
      exact ⟨range, redirectedLoop_of_completes completes uptodate a.state⟩
  | writev => exact safe.2
  | openFile | closeFile | openChild | closeChild | beginTransaction | endTransaction | lookup =>
      trivial

/-- The bytes of a safe write are those that are delivered. -/
theorem Call.Safe.after_eq (safe : c.Safe a) (ret : Int) (s' : State) :
    a.after c.op ret s' = a.after c.toOp ret s' ∧
      (AckedResolved a c.toOp ret s' → AckedResolved a c.op ret s') := by
  obtain ⟨op, fetches, uptodate⟩ := c
  cases op with
  | write file w env =>
      have same := w.delivered_eq (delivered_of_noneDropped safe.2.2.1.2)
      unfold toOp
      dsimp only
      rw [same]
      exact ⟨rfl, id⟩
  | openFile | closeFile | openChild | closeChild | beginTransaction | endTransaction | writev
  | lookup => exact ⟨rfl, id⟩

end Safe

/-! ## The invariant -/

/-- A byte is recorded at the version after the parent's. -/
def Ahead (s : State) (x : Nat) (b : UInt8) : Prop :=
  s.version + 1 ≤ maxVersions ∧
    ∃ blk, History.delta (entries s.log) (s.version + 1) (x / pageSize) = some blk ∧
      s.file.get? (blk * pageSize + x % pageSize) = some b

/-- What holds along the runs considered. -/
structure AcksInv (a : Acks) : Prop where
  sound : Sound a.state
  closed : ¬ a.state.InTransaction → ∀ x, a.pending x = none
  ahead : ∀ x b, a.pending x = some b → Ahead a.state x b

/-- After the version was raised to it, a recorded byte is found. -/
theorem readByte_of_ahead {s s' : State} {x : Nat} {b : UInt8} {env : Env} (ahead : Ahead s x b)
    (coherent : Coherent s'.log s'.cache) (log : s'.log = s.log) (file : s'.file = s.file)
    (version : s'.version = s.version + 1) (allocated : env.alloc s'.version = true)
    (readable : ∀ p, env.readPage p = true) : readByte env s' s'.version x = some b := by
  obtain ⟨inside, blk, bound, read⟩ := ahead
  rw [version] at allocated ⊢
  rw [← log] at bound
  unfold readByte
  rw [lookupPhysicalBlock_of_delta coherent inside (.inr ⟨allocated, readable⟩) bound, file]
  exact read

section Writes

variable {env : WriteEnv} {s : State} {file : Handle} {w : WriteReq}

/-- A reported byte is recorded at the next version. -/
theorem delta_acked (zero : (recorded env s file w).1 = 0) {i n : Nat} (acked : i < n)
    (reply : (redirectedLoop env s w).reply = n) :
    ∃ blk, History.delta (entries (written env s file w).log) (s.version + 1)
        ((w.pos + i) / pageSize) = some blk ∧
      (written env s file w).file.get? (blk * pageSize + (w.pos + i) % pageSize) =
        some (w.data.getD i default) := by
  have short : n ≤ w.count :=
    (byteAt_writePages w.nonempty (Nat.zero_lt_of_lt acked) reply acked).1
  have blocks := w.mem_blocks (w.pos + i) (Nat.le_add_right _ _) (by omega)
  refine ⟨_, by rw [delta_written zero, if_pos blocks], ?_⟩
  rw [address_eq (roundUp_mod _) blocks.1, w.redirected_pos (Nat.le_add_right _ _),
    Nat.add_sub_cancel_left]
  exact get?_acked acked reply

/-- A byte recorded at the next version in a block the write does not touch stays. -/
theorem ahead_of_untouched {x : Nat} {b : UInt8} (zero : (recorded env s file w).1 = 0)
    (untouched : ¬ (w.startBlk ≤ x / pageSize ∧ x / pageSize < w.startBlk + w.nrBlk))
    (ahead : Ahead s x b) :
    ∃ blk, History.delta (entries (written env s file w).log) (s.version + 1) (x / pageSize) =
        some blk ∧
      (written env s file w).file.get? (blk * pageSize + x % pageSize) = some b := by
  obtain ⟨_, blk, bound, read⟩ := ahead
  have below := (ByteFile.get?_eq_some_iff.mp read).1
  refine ⟨blk, by rw [delta_written zero, if_neg untouched, bound], ?_⟩
  exact (redirectedLoop_keeps env s w).get? (lt_of_lt_of_le below (le_roundUp _)) read

/-- What a write inside the transaction leaves at the next version: the bytes it
reports, and the acknowledged bytes it does not replace. -/
theorem ahead_written {pending : Nat → Option UInt8} (zero : (recorded env s file w).1 = 0)
    (ahead : ∀ x b, pending x = some b → Ahead s x b)
    (whole : ∀ x, (pending x).isSome → w.startBlk ≤ x / pageSize →
      x / pageSize < w.startBlk + w.nrBlk →
        (w.pos ≤ x ∧ x < w.pos + w.count) ∧ (redirectedLoop env s w).reply = w.count)
    {x : Nat} {b : UInt8}
    (acked : ackWrite pending w (redirectedLoop env s w).reply.toNat x = some b) :
    ∃ blk, History.delta (entries (written env s file w).log) (s.version + 1) (x / pageSize) =
        some blk ∧
      (written env s file w).file.get? (blk * pageSize + x % pageSize) = some b := by
  unfold ackWrite at acked
  split at acked
  case isTrue range =>
    cases acked
    have positive : 0 < (redirectedLoop env s w).reply.toNat := by omega
    obtain ⟨blk, bound, read⟩ := delta_acked (i := x - w.pos) zero (by omega)
      (Int.toNat_of_nonneg (by omega : 0 ≤ (redirectedLoop env s w).reply)).symm
    rw [Nat.add_sub_cancel' range.1] at bound read
    exact ⟨blk, bound, read⟩
  case isFalse outside =>
    apply ahead_of_untouched zero _ (ahead x b acked)
    rintro ⟨lower, upper⟩
    -- a block the write touches is overwritten as far as it was acknowledged
    obtain ⟨range, complete⟩ := whole x (by rw [acked]; rfl) lower upper
    rw [complete, Int.toNat_natCast] at outside
    exact outside range

/-- The bytes a plain write reports are found at once. -/
theorem readByte_written (sound : Sound (written env s file w))
    (zero : (recorded env s file w).1 = 0)
    (outside : selfTransactionStatus s file ≠ .setTransaction) {i : Nat}
    (acked : (i : Int) < (redirectedLoop env s w).reply) (env' : Env) :
    readByte env' (written env s file w) (written env s file w).version (w.pos + i) =
      some (w.data.getD i default) := by
  have version : (written env s file w).version = s.version + 1 := by
    rw [version_written, raisedVersion, if_neg outside]
  have reported : i < (redirectedLoop env s w).reply.toNat := by omega
  obtain ⟨blk, bound, read⟩ := delta_acked zero reported (Int.toNat_of_nonneg (by omega)).symm
  unfold readByte
  rw [version, lookupPhysicalBlock_of_delta sound.coherent (recorded_log_of_zero zero).2
    (.inl (recorded_resident zero)) bound]
  exact read

end Writes

/-! ## Steps and runs -/

section Preservation

variable {a : Acks} {op : Op} {ret : Int} {s' : State}

theorem pending_after_of_open (inside : s'.InTransaction) :
    (a.after op ret s').pending =
      match op with
      | .write _ w _ => ackWrite a.pending w ret.toNat
      | _ => a.pending := if_pos inside

theorem pending_after_of_closed (outside : ¬ s'.InTransaction) :
    (a.after op ret s').pending = fun _ => none := if_neg outside

/-- Outside of transactions nothing is pending. -/
theorem AcksInv.outside (sound : Sound s') (outside : ¬ s'.InTransaction) :
    AcksInv (a.after op ret s') := by
  have pending : (a.after op ret s').pending = fun _ => none := pending_after_of_closed outside
  refine ⟨sound, fun _ x => congrFun pending x, fun x b acked => ?_⟩
  rw [pending] at acked
  cases acked

/-- Calls that leave file, log and version alone. -/
theorem AcksInv.quiet (inv : AcksInv a) (sound : Sound s') (same : Quiet a.state s')
    (kept : s'.InTransaction → (a.after op ret s').pending = a.pending) :
    AcksInv (a.after op ret s') := by
  by_cases inside : s'.InTransaction
  · refine ⟨sound, fun outside => (outside inside).elim, fun x b acked => ?_⟩
    rw [kept inside] at acked
    have ahead := inv.ahead x b acked
    have state : (a.after op ret s').state = s' := rfl
    unfold Ahead at ahead ⊢
    rw [state, same.file, same.log, same.version]
    exact ahead
  · exact .outside sound inside

/-- Writes inside the open transaction. -/
theorem AcksInv.append {env : WriteEnv} {file : Handle} {w : WriteReq} (inv : AcksInv a)
    (sound : Sound (written env a.state file w))
    (self : selfTransactionStatus a.state file = .setTransaction)
    (admitted : (Op.write file w env).Admitted a) :
    AcksInv (a.after (.write file w env) (redirectedLoop env a.state w).reply
      (written env a.state file w)) := by
  obtain ⟨⟨inside, allocated⟩, _, whole⟩ := admitted
  have zero : (recorded env a.state file w).1 = 0 := recorded_zero inside allocated
  have after : (written env a.state file w).InTransaction := by
    unfold State.InTransaction written releasedLocks
    rw [if_pos self]
    exact inTransaction_of_self self
  have version : (written env a.state file w).version = a.state.version := by
    rw [version_written, raisedVersion, if_pos self]
  refine ⟨sound, fun outside => (outside after).elim, fun x b acked => ?_⟩
  rw [pending_after_of_open after] at acked
  have state : (a.after (.write file w env) (redirectedLoop env a.state w).reply
    (written env a.state file w)).state = written env a.state file w := rfl
  unfold Ahead
  rw [state, version]
  exact ⟨inside, ahead_written zero inv.ahead whole acked⟩

end Preservation

theorem acksInv_start {s : State} (opened : Opened s) : AcksInv (.start s) :=
  ⟨opened.sound, fun _ _ => rfl, fun _ _ acked => by cases acked⟩

/-- Admitted regular operations keep the invariant and owe nothing. -/
theorem acksInv_step {a : Acks} {op : Op} {ret : Int} {s' : State} (inv : AcksInv a)
    (regular : op.Regular) (admitted : op.Admitted a) (done : step a.state op = some (ret, s')) :
    AcksInv (a.after op ret s') ∧ AckedResolved a op ret s' := by
  have sound := step_sound inv.sound regular done
  cases step_cases done with
  | openFile fresh =>
      have same := quiet_getInode inv.sound.idle
      exact ⟨inv.quiet sound ⟨same.file, same.log, same.version, same.origSize⟩
        pending_after_of_open, trivial⟩
  | @closeFile file isOpen =>
      have same := quiet_putInode { a.state with
        handles := a.state.handles.erase file, tLocks := closeLocks a.state file }
      exact ⟨inv.quiet sound ⟨same.file, same.log, same.version, same.origSize⟩
        pending_after_of_open, trivial⟩
  | openChild =>
      have same := quiet_getInode inv.sound.idle
      exact ⟨inv.quiet sound ⟨same.file, same.log, same.version, same.origSize⟩
        pending_after_of_open, trivial⟩
  | closeChild isOpen =>
      have same := quiet_putInode { a.state with childUsers := a.state.childUsers - 1 }
      exact ⟨inv.quiet sound ⟨same.file, same.log, same.version, same.origSize⟩
        pending_after_of_open, trivial⟩
  | beginRefused nonzero =>
      exact ⟨inv.quiet sound ⟨rfl, rfl, rfl, rfl⟩ pending_after_of_open, trivial⟩
  | begun isOpen free =>
      exact ⟨inv.quiet sound ⟨rfl, rfl, rfl, rfl⟩ pending_after_of_open, trivial⟩
  | endRefused =>
      exact ⟨inv.quiet sound ⟨rfl, rfl, rfl, rfl⟩ pending_after_of_open,
        fun zero => (by decide : (-25 : Int) ≠ 0) zero |>.elim⟩
  | committed isOpen held =>
      refine ⟨.outside sound (not_inTransaction_of_free rfl), fun _ x b acked env => ?_⟩
      exact readByte_of_ahead (inv.ahead x b acked) sound.coherent rfl rfl rfl
  | unlocked held outside =>
      refine ⟨.outside sound (not_inTransaction_of_free rfl), fun _ x b acked => ?_⟩
      have none := inv.closed (fun inside => outside inside.2) x
      rw [none] at acked
      cases acked
  | @write file w env _ _ isOpen result =>
      obtain ⟨⟨inside, allocated⟩, succeed, whole⟩ := admitted
      have zero : (recorded env a.state file w).1 = 0 := recorded_zero inside allocated
      cases result with
      | refused outside =>
          refine ⟨inv.quiet sound ⟨rfl, rfl, rfl, rfl⟩ fun busy => ?_, fun _ i acked => ?_⟩
          · rw [pending_after_of_open busy]
            funext x
            exact if_neg fun range => by
              have none : Int.toNat eio = 0 := rfl
              omega
          · have negative := eio_neg
            omega
      | inPlace ready failed => exact (copyUp_nonneg succeed (roundUp_mod _) failed).elim
      | redirected ready copied =>
          by_cases self : selfTransactionStatus a.state file = .setTransaction
          · exact ⟨inv.append sound self ⟨⟨inside, allocated⟩, succeed, whole⟩,
              fun outside => (outside (inTransaction_of_self self)).elim⟩
          · refine ⟨.outside sound ?_, fun _ i acked env' =>
              readByte_written sound zero self acked env'⟩
            apply not_inTransaction_of_free
            unfold releasedLocks
            rw [if_neg self]
  | writev isOpen result => exact admitted.elim
  | lookup used =>
      refine ⟨inv.quiet sound ?_ pending_after_of_open, trivial⟩
      rw [lookupPhysicalBlock_store]
      exact ⟨rfl, rfl, rfl, rfl⟩

theorem acksStep_inv {a a' : Acks} {c : Call} {ret : Int} (inv : AcksInv a)
    (regular : c.op.Regular) (safe : c.Safe a) (taken : acksStep a c = some (ret, a')) :
    AcksInv a' ∧ AckedResolved a c.op ret a'.state := by
  obtain ⟨⟨ret', s'⟩, done, equal⟩ := Option.map_eq_some_iff.mp taken
  cases equal
  rw [syscall_eq safe.1] at done
  obtain ⟨inv', resolved⟩ := acksInv_step inv (c.regular_toOp.mpr regular) safe.admitted done
  obtain ⟨after, owed⟩ := safe.after_eq ret' s'
  dsimp only
  rw [after]
  exact ⟨inv', owed resolved⟩

/-- In every safe run every call keeps what it acknowledged. -/
theorem acked_bytes_resolved {s₀ : State} (opened : Opened s₀) {calls : List Call} {a a' : Acks}
    (run : Run acksStep (fun a c => c.op.Regular ∧ c.Safe a) (.start s₀) calls a) {c : Call}
    (regular : c.op.Regular) (safe : c.Safe a) {ret : Int}
    (taken : acksStep a c = some (ret, a')) : AckedResolved a c.op ret a'.state := by
  have inv : AcksInv a := run.invariant
    (fun _ _ _ _ inv admitted taken => (acksStep_inv inv admitted.1 admitted.2 taken).1)
    (acksInv_start opened)
  exact (acksStep_inv inv regular safe taken).2

/-- Two bytes across a block boundary, written inside a transaction. -/
theorem acked_bytes_resolved_after_end :
    ∃ (a : Acks) (ret : Int) (a' : Acks),
      Run acksStep (fun a c => c.op.Regular ∧ c.Safe a) (.start (cloned (.blank 8192)))
        [(Op.openFile 0).cached, (Op.beginTransaction 0 false).cached,
          ⟨.write 0 ⟨4095, [1, 2], by decide, by decide⟩ (.clean 2), [.cleared], []⟩] a ∧
      acksStep a (Op.endTransaction 0).cached = some (ret, a') ∧
      readByte .clean a'.state a'.state.version 4096 = some 2 := by
  have begun : Run acksStep (fun a c => c.op.Regular ∧ c.Safe a) (.start (cloned (.blank 8192)))
      [(Op.openFile 0).cached, (Op.beginTransaction 0 false).cached]
      ⟨{ cloned (.blank 8192) with handles := [0], tLocks := ⟨true, some 0, .setTransaction⟩ },
        fun _ => none⟩ :=
    .cons ⟨trivial, trivial, trivial⟩ rfl (.cons ⟨trivial, trivial, trivial⟩ rfl (.nil _))
  have found : ((acksStep
      ⟨{ cloned (.blank 8192) with handles := [0], tLocks := ⟨true, some 0, .setTransaction⟩ },
        fun _ => none⟩
      ⟨.write 0 ⟨4095, [1, 2], by decide, by decide⟩ (.clean 2), [.cleared], []⟩).any fun r =>
        decide (r.2.pending 4096 = some 2) &&
          (acksStep r.2 (Op.endTransaction 0).cached).any fun r => r.1 = 0) = true := by
    decide +kernel
  obtain ⟨⟨count, a⟩, written, here⟩ := (Option.any_eq_true _ _).mp found
  obtain ⟨acked, ended⟩ := Bool.and_eq_true_iff.mp here
  obtain ⟨⟨ret, a'⟩, taken, zero⟩ := (Option.any_eq_true _ _).mp ended
  have safe : Call.Safe
      ⟨{ cloned (.blank 8192) with handles := [0], tLocks := ⟨true, some 0, .setTransaction⟩ },
        fun _ => none⟩
      ⟨.write 0 ⟨4095, [1, 2], by decide, by decide⟩ (.clean 2), [.cleared], []⟩ :=
    ⟨by decide, ⟨by decide, rfl⟩, ⟨⟨rfl, rfl⟩, .inr (.inr rfl), fun _ => ⟨.inr (.inr rfl),
      fun _ => trivial⟩⟩, fun _ none => by cases none⟩
  have regular : (Op.write 0 ⟨4095, [1, 2], by decide, by decide⟩ (.clean 2)).Regular :=
    ⟨fun _ => rfl, fun _ => rfl⟩
  have run := begun.append (.cons ⟨regular, safe⟩ written (.nil _))
  have ending : (Op.endTransaction 0).Regular ∧ (Op.endTransaction 0).cached.Safe a :=
    ⟨trivial, trivial, trivial⟩
  have holds := acked_bytes_resolved (opened_cloned _) run ending.1 ending.2 taken
  exact ⟨a, ret, a', run, taken, holds (of_decide_eq_true zero) 4096 2 (of_decide_eq_true acked)
    .clean rfl fun _ => rfl⟩

/-- Four plain writes to block 3 raise the version to 5. A transaction then writes to the blocks
0, 1 and 2, and the page of the log leaves memory after the first record. -/
def clearedRecord : List Call :=
  (Op.openFile 0).cached :: (List.replicate 4 (Op.writeByte 0 12288 9).cached ++
    [(Op.beginTransaction 0 false).cached, (Op.writeByte 0 0 8).cached,
      ⟨.writeByte 0 4096 8, [.cleared], []⟩,
      (Op.writeByte 0 8192 8).cached])

theorem regular_clearedRecord : ∀ c ∈ clearedRecord, c.op.Regular := by
  simp [clearedRecord, Op.cached, Op.writeByte, Op.Regular, WriteEnv.clean, Env.clean]

/-- The 32nd write gets a version without a slot in the table: it reports its byte, and readers
still find the byte of the write before. A write of 4096 bytes to a new block copies one byte
first, which is dropped: it reports 4095 bytes, and the first of them is not the first of the
data. `END` of a transaction one of whose records was cleared returns 0, and the byte of this
record is not found. -/
theorem acked_bytes_resolved_fails :
    (∃ a a' : Acks,
      Run acksStep (fun a c => c.op.Regular ∧ c.Ready a.state) (.start (cloned (.blank 8192)))
        ((Op.openFile 0).cached :: List.replicate 31 (Op.writeByte 0 0 7).cached) a ∧
      acksStep a (Op.writeByte 0 0 8).cached = some (1, a') ∧
      readByte .clean a'.state a'.state.version 0 = some 7) ∧
    (∃ a a' : Acks,
      Run acksStep (fun a c => c.op.Regular ∧ c.Ready a.state) (.start (cloned (.blank 8192)))
        [(Op.openFile 0).cached] a ∧
      acksStep a ⟨.write 0 ⟨8192, 1 :: List.replicate 4095 2, by decide, by decide +kernel⟩
          { WriteEnv.clean 1 with pages := [.copied 1, .copied 4095, .signal] }, [.cleared],
          [false]⟩ = some (4095, a') ∧
      readByte .clean a'.state a'.state.version 8192 = some 2) ∧
    ∃ a a' : Acks,
      Run acksStep (fun _ c => c.op.Regular) (.start (cloned (.blank 16384))) clearedRecord a ∧
      acksStep a (Op.endTransaction 0).cached = some (0, a') ∧
      a.pending 0 = some 8 ∧ readByte .clean a'.state a'.state.version 0 = some 0 := by
  refine ⟨?_, ?_, ?_⟩
  · refine Run.exists_step_imp (fun _ _ => true) ?_ (by decide +kernel) fun _ _ _ _ shown => shown
    intro c member _ _
    rcases List.mem_cons.mp member with rfl | later
    · exact ⟨trivial, trivial⟩
    · rw [(List.mem_replicate.mp later).2]
      exact ⟨Op.regular_writeByte .., trivial⟩
  · refine Run.exists_step_imp (fun _ _ => true) ?_ (by decide +kernel) fun _ _ _ _ shown => shown
    intro c member _ _
    rw [List.mem_singleton.mp member]
    exact ⟨trivial, trivial⟩
  · exact Run.exists_step_imp (fun _ _ => true)
      (fun c member _ _ => regular_clearedRecord c member) (by decide +kernel)
      fun _ _ _ _ shown => shown

end FlexClone.Scorw
