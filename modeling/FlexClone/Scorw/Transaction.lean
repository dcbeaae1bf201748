import FlexClone.Scorw.Calls
import FlexClone.Scorw.View

/-!
# A transaction and its writes

The same writes are run twice from one state, once as plain writes and once
between `BEGIN` and `END`. Both runs append the same blocks at the same places;
they differ in the version a write looks its first block up at: plain writes see
the writes before them, writes of a transaction see the version before `BEGIN`.

`transaction_eq_writes`: the visible content afterwards is the same when no write
merges its first block from a place that the writes before it, or a record left
behind by an abandoned transaction, have replaced (`Composes`), and no record of the log
is cleared on the way (`Call.Ready`). The records of a transaction need the log: their
version is not in memory, so `END` makes visible what the log still has.
-/

namespace FlexClone.Scorw

open Versioned

/-- The calls that perform the writes through one handle. -/
def writeOps (file : Handle) (ws : List (WriteReq × WriteEnv)) : List Op :=
  ws.map fun p => .write file p.1 p.2

/-- The same writes as a transaction. -/
def transactionOps (file : Handle) (ws : List (WriteReq × WriteEnv)) : List Op :=
  .beginTransaction file false :: (writeOps file ws ++ [.endTransaction file])

/-- The block belongs to the run of blocks the request replaces. -/
def WriteReq.Touches (w : WriteReq) (blk : Nat) : Prop :=
  w.startBlk ≤ blk ∧ blk < w.startBlk + w.nrBlk

instance (w : WriteReq) (blk : Nat) : Decidable (w.Touches blk) :=
  inferInstanceAs (Decidable (_ ∧ _))

/-- What is recorded ahead of the version. -/
def aheadMap (s : State) : DeltaMap := History.delta (entries s.log) (s.version + 1)

/-- When the writes of a transaction merge the blocks they would merge as plain
writes. -/
structure Composes (s : State) (ws : List WriteReq) : Prop where
  /-- a first block that is merged was not replaced by a write before -/
  fresh : ws.Pairwise fun earlier later => later.CopiesHead → ¬ earlier.Touches later.startBlk
  /-- nor is it recorded ahead, unless the write is the first one -/
  ahead : ∀ w ∈ ws.tail, w.CopiesHead → aheadMap s w.startBlk = none
  /-- ending a transaction without writes uncovers nothing -/
  nonempty : ws = [] → ∀ blk, aheadMap s blk = none

/-- Where the blocks replaced so far are. -/
def place (w : WriteReq) (base : Nat) (placed : DeltaMap) : DeltaMap := fun blk =>
  if w.Touches blk then some (base + (blk - w.startBlk)) else placed blk

/-- The two runs after the same `k` writes: the plain run in `p`, the transaction
in `t`. -/
structure Lockstep (s : State) (file : Handle) (k : Nat) (placed : DeltaMap) (p t : State) :
    Prop where
  start : k = 0 → placed = fun _ => none
  room : k ≠ 0 → s.version + 1 ≤ maxVersions
  soundPlain : Sound p
  soundTransaction : Sound t
  sameFile : p.file = t.file
  origPlain : p.origSize = s.origSize
  origTransaction : t.origSize = s.origSize
  versionPlain : p.version = s.version + k
  versionTransaction : t.version = s.version
  free : p.tLocks.locked = false
  inside : selfTransactionStatus t file = .setTransaction
  /-- the plain run sees the placed blocks, then what was ahead -/
  seesPlain : ∀ blk, resolve p.log s.origSize p.version blk =
    (placed blk).or ((if k = 0 then none else aheadMap s blk).or
      (resolve s.log s.origSize s.version blk))
  aheadPlain : ∀ blk, aheadMap p blk = if k = 0 then aheadMap s blk else none
  boundPlain : OneAhead p
  /-- the transaction sees what was there before it -/
  seesTransaction : ∀ blk, resolve t.log s.origSize t.version blk =
    resolve s.log s.origSize s.version blk
  aheadTransaction : ∀ blk, aheadMap t blk = (placed blk).or (aheadMap s blk)

/-! ## One write -/

/-- Only the first block that is copied decides where the merge reads from. -/
theorem mergeBlocks_congr {f : ByteFile UInt8} {logicalSize appendPos : Nat} {w : WriteReq}
    {source source' : Option Nat} (same : w.CopiesHead → source = source')
    (found : w.startBlk < logicalSize / pageSize → source.isSome ∧ source'.isSome) :
    mergeBlocks f logicalSize w source appendPos =
      mergeBlocks f logicalSize w source' appendPos := by
  by_cases copies : w.CopiesHead
  · rw [same copies]
  · have head (blk : Nat) : headCopy f w blk appendPos = f := if_neg copies
    by_cases tail : w.CopiesTail logicalSize
    · have below : w.startBlk < logicalSize / pageSize := by
        have := tail.2.2
        have := tail.2.1
        unfold pageSize at *
        omega
      obtain ⟨blk, shape⟩ := Option.isSome_iff_exists.mp (found below).1
      obtain ⟨blk', shape'⟩ := Option.isSome_iff_exists.mp (found below).2
      rw [shape, shape']
      unfold mergeBlocks
      dsimp only
      rw [head, head]
    · have plain (g : ByteFile UInt8) : tailCopy g w logicalSize appendPos = g := if_neg tail
      have merged (source : Option Nat) : mergeBlocks f logicalSize w source appendPos = f := by
        cases source with
        | none => rfl
        | some blk =>
            unfold mergeBlocks
            dsimp only
            rw [head, plain]
      rw [merged, merged]

theorem isSome_resolve {log : List LogRecord} {origSize blk : Nat}
    (below : blk < origSize / pageSize) (version : Nat) :
    (resolve log origSize version blk).isSome := by
  unfold resolve
  rw [if_pos below, Option.isSome_or]
  exact Bool.or_true _

/-- What is ahead after a record was logged at the next version. -/
theorem aheadMap_written {env : WriteEnv} {s : State} {file : Handle} {w : WriteReq}
    (zero : (recorded env s file w).1 = 0)
    (self : selfTransactionStatus s file = .setTransaction) (blk : Nat) :
    aheadMap (written env s file w) blk =
      place w (roundUp s.file.size / pageSize) (aheadMap s) blk := by
  have version : (written env s file w).version = s.version := by
    rw [version_written, raisedVersion, if_pos self]
  unfold aheadMap
  rw [version, delta_written zero]
  rfl

/-- Nothing is ahead of the version a plain write has just reached. -/
theorem aheadMap_written_of_plain {env : WriteEnv} {s : State} {file : Handle} {w : WriteReq}
    (zero : (recorded env s file w).1 = 0)
    (plain : selfTransactionStatus s file ≠ .setTransaction) (bound : OneAhead s) (blk : Nat) :
    aheadMap (written env s file w) blk = none := by
  unfold aheadMap
  rw [version_written, raisedVersion, if_neg plain]
  apply History.delta_eq_none_of_fresh
  apply forall_entries_version (P := (· ≠ s.version + 1 + 1))
  intro r member
  rw [log_written zero] at member
  rcases List.mem_append.mp member with old | new
  · have := bound r old
    omega
  · rw [List.mem_singleton.mp new]
    dsimp only
    omega

/-- What a plain write makes visible. -/
theorem resolve_written_of_plain {env : WriteEnv} {s : State} {file : Handle} {w : WriteReq}
    (zero : (recorded env s file w).1 = 0)
    (plain : selfTransactionStatus s file ≠ .setTransaction) (origSize blk : Nat) :
    resolve (written env s file w).log origSize (written env s file w).version blk =
      place w (roundUp s.file.size / pageSize)
        (fun blk => (aheadMap s blk).or (resolve s.log origSize s.version blk)) blk := by
  rw [version_written, raisedVersion, if_neg plain, log_written zero,
    resolve_appendRecord (recorded_log_of_zero zero).2 w.fitsRecord]
  rfl

section Step

variable {s p t p' t' : State} {file : Handle} {k : Nat} {placed : DeltaMap} {w : WriteReq}
  {env : WriteEnv}

/-- Both runs merge from the same place. -/
theorem Lockstep.copiedUp (lock : Lockstep s file k placed p t) (clean : env.lookup.FaultFree)
    (fresh : w.CopiesHead → placed w.startBlk = none)
    (ahead : k ≠ 0 → w.CopiesHead → aheadMap s w.startBlk = none)
    (copiedPlain : ¬ (copiedUp env p w).1 < 0) (copiedTransaction : ¬ (copiedUp env t w).1 < 0) :
    (Scorw.copiedUp env p w).2 = (Scorw.copiedUp env t w).2 := by
  rw [copiedUp_eq lock.soundPlain.aligned copiedPlain,
    copiedUp_eq lock.soundTransaction.aligned copiedTransaction,
    lookedUp_eq lock.soundPlain clean, lookedUp_eq lock.soundTransaction clean, lock.sameFile,
    lock.origPlain, lock.origTransaction]
  apply mergeBlocks_congr
  · intro copies
    rw [lock.seesPlain, lock.seesTransaction, fresh copies, Option.none_or]
    by_cases first : k = 0
    · rw [if_pos first, Option.none_or]
    · rw [if_neg first, ahead first copies, Option.none_or]
  · intro below
    exact ⟨isSome_resolve below _, isSome_resolve below _⟩

/-- One write in both runs. -/
theorem Lockstep.write {ret ret' : Int} (lock : Lockstep s file k placed p t)
    (regular : (Op.write file w env).Regular) (clean : env.lookup.FaultFree)
    (fresh : w.CopiesHead → placed w.startBlk = none)
    (ahead : k ≠ 0 → w.CopiesHead → aheadMap s w.startBlk = none)
    (donePlain : step p (.write file w env) = some (ret, p'))
    (loggedPlain : p'.log.length = p.log.length + 1)
    (doneTransaction : step t (.write file w env) = some (ret', t'))
    (loggedTransaction : t'.log.length = t.log.length + 1) :
    Lockstep s file (k + 1) (place w (roundUp p.file.size / pageSize) placed) p' t' := by
  have soundPlain := step_sound lock.soundPlain regular donePlain
  have soundTransaction := step_sound lock.soundTransaction regular doneTransaction
  have growsTransaction := step_grows lock.soundTransaction.idle doneTransaction
  have boundPlain := lock.boundPlain.step lock.soundPlain.idle donePlain
  have outside : selfTransactionStatus p file ≠ .setTransaction := by
    intro self
    exact not_inTransaction_of_free lock.free (inTransaction_of_self self)
  cases step_cases donePlain with
  | write isOpen result =>
  cases step_cases doneTransaction with
  | write isOpen' result' =>
  obtain ⟨_, copied, zero, _, rfl⟩ := result.eq_written loggedPlain
  obtain ⟨_, copied', zero', _, rfl⟩ := result'.eq_written loggedTransaction
  have version : (written env p file w).version = s.version + (k + 1) := by
    rw [version_written, raisedVersion, if_neg outside, lock.versionPlain, Nat.add_assoc]
  have version' : (written env t file w).version = s.version := by
    rw [version_written, raisedVersion, if_pos lock.inside, lock.versionTransaction]
  refine
    { start := fun zero => (Nat.succ_ne_zero k zero).elim
      room := fun _ => lock.versionTransaction ▸ (recorded_log_of_zero zero').2
      soundPlain := soundPlain
      soundTransaction := soundTransaction
      sameFile := ?_
      origPlain := (recorded_frame env p file w).1.trans lock.origPlain
      origTransaction := (recorded_frame env t file w).1.trans lock.origTransaction
      versionPlain := version
      versionTransaction := version'
      free := ?_
      inside := ?_
      seesPlain := ?_
      aheadPlain := ?_
      boundPlain := boundPlain
      seesTransaction := ?_
      aheadTransaction := ?_ }
  · unfold written redirectedLoop
    dsimp only
    rw [lock.copiedUp clean fresh ahead copied copied', lock.sameFile]
  · unfold written releasedLocks
    dsimp only
    rw [if_neg outside]
  · have held := selfTransactionStatus_eq_setTransaction.mp lock.inside
    apply selfTransactionStatus_eq_setTransaction.mpr
    unfold written releasedLocks
    dsimp only
    rw [if_pos lock.inside, held]
  · intro blk
    rw [resolve_written_of_plain zero outside, if_neg (Nat.succ_ne_zero k)]
    unfold place
    split
    · rfl
    · dsimp only
      rw [lock.seesPlain, lock.aheadPlain]
      by_cases first : k = 0
      · rw [if_pos first, if_pos first, lock.start first]
        rfl
      · rw [if_neg first, if_neg first]
        rfl
  · intro blk
    rw [if_neg (Nat.succ_ne_zero k)]
    exact aheadMap_written_of_plain zero outside lock.boundPlain blk
  · intro blk
    rw [← lock.origTransaction, version', ← lock.versionTransaction]
    have same := growsTransaction.resolve (le_refl t.version) blk
    rw [growsTransaction.origSize] at same
    rw [same, lock.origTransaction, lock.seesTransaction, lock.versionTransaction]
  · intro blk
    rw [aheadMap_written zero' lock.inside, lock.sameFile]
    unfold place
    split
    · rfl
    · exact lock.aheadTransaction blk

end Step

/-! ## The whole list -/

/-- Each write logs at most one record. -/
theorem length_log_of_writes {file : Handle} {ws : List (WriteReq × WriteEnv)} {s s' : State}
    (run : Run step (fun _ op => op.Regular) s (writeOps file ws) s') :
    s'.log.length ≤ s.log.length + ws.length := by
  induction ws generalizing s with
  | nil =>
      cases run
      exact le_rfl
  | cons q ws ih =>
      cases run with
      | cons regular taken rest =>
          have later := ih rest
          cases step_cases taken with
          | write isOpen result =>
              have one := result.length_log_le
              rw [List.length_cons]
              omega

/-- The runs stay in lockstep over the whole list. -/
theorem Lockstep.run {s p t p' t' : State} {file : Handle} {k : Nat} {placed : DeltaMap}
    {ws : List (WriteReq × WriteEnv)} (lock : Lockstep s file k placed p t)
    (clean : ∀ q ∈ ws, q.2.lookup.FaultFree)
    (fresh : (ws.map Prod.fst).Pairwise fun earlier later =>
      later.CopiesHead → ¬ earlier.Touches later.startBlk)
    (unplaced : ∀ w ∈ ws.map Prod.fst, w.CopiesHead → placed w.startBlk = none)
    (ahead : k ≠ 0 → ∀ w ∈ ws.map Prod.fst, w.CopiesHead → aheadMap s w.startBlk = none)
    (later : ∀ w ∈ (ws.map Prod.fst).tail, w.CopiesHead → aheadMap s w.startBlk = none)
    (plain : Run step (fun _ op => op.Regular) p (writeOps file ws) p')
    (transaction : Run step (fun _ op => op.Regular) t (writeOps file ws) t')
    (loggedPlain : p'.log.length = p.log.length + ws.length)
    (loggedTransaction : t'.log.length = t.log.length + ws.length) :
    ∃ placed', Lockstep s file (k + ws.length) placed' p' t' := by
  induction ws generalizing k placed p t with
  | nil =>
      cases plain
      cases transaction
      exact ⟨placed, lock⟩
  | cons q ws ih =>
      obtain ⟨w, env⟩ := q
      rw [List.length_cons] at loggedPlain loggedTransaction ⊢
      cases plain with
      | @cons _ p₁ _ _ _ _ regular donePlain restPlain =>
      cases transaction with
      | @cons _ t₁ _ _ _ _ _ doneTransaction restTransaction =>
      -- both records of this write are there, or the lists could not be complete
      have onePlain : p₁.log.length = p.log.length + 1 := by
        have := length_log_of_writes restPlain
        cases step_cases donePlain with
        | write isOpen result =>
            have := result.length_log_le
            omega
      have oneTransaction : t₁.log.length = t.log.length + 1 := by
        have := length_log_of_writes restTransaction
        cases step_cases doneTransaction with
        | write isOpen result =>
            have := result.length_log_le
            omega
      rw [List.map_cons] at fresh unplaced ahead later
      obtain ⟨apart, fresh⟩ := List.pairwise_cons.mp fresh
      have next := lock.write regular (clean (w, env) List.mem_cons_self)
        (unplaced w List.mem_cons_self) (fun notFirst => ahead notFirst w List.mem_cons_self)
        donePlain onePlain doneTransaction oneTransaction
      have rest := ih next (fun q member => clean q (List.mem_cons_of_mem _ member)) fresh ?_
        (fun _ => later) (fun w member => later w (List.mem_of_mem_tail member)) restPlain
        restTransaction (by omega) (by omega)
      · rw [Nat.add_assoc, Nat.add_comm 1] at rest
        exact rest
      · intro w' member copies
        unfold place
        rw [if_neg (apart w' member copies)]
        exact unplaced w' (List.mem_cons_of_mem _ member) copies

/-- A free lock lets `BEGIN` through. -/
theorem step_begin_of_free {s s' : State} {file : Handle} {ret : Int}
    (free : s.tLocks.locked = false)
    (taken : step s (.beginTransaction file false) = some (ret, s')) :
    s' = { s with tLocks := ⟨true, some file, .setTransaction⟩ } := by
  simp only [step] at taken
  split at taken
  · simp only [setTransaction, takeTransactionLock, selfTransactionStatus, free, reduceCtorEq,
      false_and, if_false, Option.some.injEq, Prod.mk.injEq] at taken
    exact taken.2.symm
  · cases taken

/-- The owner of a transaction ends it. -/
theorem step_end_of_held {s s' : State} {file : Handle} {ret : Int}
    (held : selfTransactionStatus s file = .setTransaction)
    (taken : step s (.endTransaction file) = some (ret, s')) :
    s' = { s with
      version := s.version + 1
      syncedLog := s.log.length
      tLocks := ⟨false, none, .unset⟩ } := by
  simp only [step] at taken
  split at taken
  · simp only [setTransaction,
      unsetTransaction_of_transaction (selfTransactionStatus_eq_setTransaction.mp held),
      Option.some.injEq, Prod.mk.injEq] at taken
    exact taken.2.symm
  · cases taken

/-- The runs right after `BEGIN`. -/
theorem lockstep_begin {s : State} (sound : Sound s) (bound : OneAhead s)
    (free : s.tLocks.locked = false) (file : Handle) :
    Lockstep s file 0 (fun _ => none) s
      { s with tLocks := ⟨true, some file, .setTransaction⟩ } where
  start := fun _ => rfl
  room := fun notFirst => (notFirst rfl).elim
  soundPlain := sound
  soundTransaction := ⟨sound.coherent, sound.aligned, sound.idle⟩
  sameFile := rfl
  origPlain := rfl
  origTransaction := rfl
  versionPlain := rfl
  versionTransaction := rfl
  free := free
  inside := selfTransactionStatus_eq_setTransaction.mpr rfl
  seesPlain := fun _ => rfl
  aheadPlain := fun _ => rfl
  boundPlain := bound
  seesTransaction := fun _ => rfl
  aheadTransaction := fun _ => rfl

/-- `END` makes the transaction see what the plain run sees. -/
theorem Lockstep.end {s p t : State} {file : Handle} {k : Nat} {placed : DeltaMap}
    (lock : Lockstep s file k placed p t) (empty : k = 0 → ∀ blk, aheadMap s blk = none)
    (blk : Nat) :
    resolve t.log s.origSize (t.version + 1) blk = resolve p.log s.origSize p.version blk := by
  rw [lock.seesPlain]
  by_cases room : s.version + 1 ≤ maxVersions
  · have ahead : History.delta (entries t.log) (t.version + 1) blk =
        (placed blk).or (aheadMap s blk) := lock.aheadTransaction blk
    rw [resolve_succ (by rw [lock.versionTransaction]; exact room), ahead, lock.seesTransaction,
      Option.or_assoc]
    by_cases first : k = 0
    · rw [if_pos first, empty first]
    · rw [if_neg first]
  · have first : k = 0 := by
      by_contra notFirst
      exact room (lock.room notFirst)
    have full : maxVersions ≤ t.version := by
      rw [lock.versionTransaction]
      omega
    rw [resolve_of_le full, lock.seesTransaction, if_pos first, lock.start first]
    rfl

/-- The two runs end with the same view. -/
theorem visibleByte_of_ops {s₀ s s₁ s₂ : State} {ops : List Op} {file : Handle}
    {ws : List (WriteReq × WriteEnv)} (opened : Opened s₀) (bound : OneAhead s₀)
    (reached : Run step (fun _ op => op.Regular) s₀ ops s) (free : s.tLocks.locked = false)
    (plain : Run step (fun _ op => op.Regular) s (writeOps file ws) s₁)
    (transaction : Run step (fun _ op => op.Regular) s (transactionOps file ws) s₂)
    (loggedPlain : s₁.log.length = s.log.length + ws.length)
    (loggedTransaction : s₂.log.length = s.log.length + ws.length)
    (clean : ∀ q ∈ ws, q.2.lookup.FaultFree) (composes : Composes s (ws.map Prod.fst)) (x : Nat) :
    visibleByte s₁ s₁.version x = visibleByte s₂ s₂.version x := by
  have state : Sound s ∧ OneAhead s := reached.invariant (P := fun s => Sound s ∧ OneAhead s)
    (fun _ _ _ _ inv regular taken =>
      ⟨step_sound inv.1 regular taken, inv.2.step inv.1.idle taken⟩) ⟨opened.sound, bound⟩
  cases transaction with
  | cons _ begun rest =>
  obtain ⟨t, writes, ending⟩ := rest.split
  rw [step_begin_of_free free begun] at writes
  cases ending with
  | cons regular ended none =>
  cases none
  have sameLog : s₂.log = t.log := by
    cases step_cases ended with
    | endRefused => rfl
    | committed isOpen held => rfl
    | unlocked held outside => rfl
  obtain ⟨placed, lock⟩ := (lockstep_begin state.1 state.2 free file).run clean composes.fresh
    (fun _ _ _ => rfl) (fun notFirst => (notFirst rfl).elim) composes.ahead plain writes loggedPlain
    (by rw [← loggedTransaction, sameLog])
  have sound₂ : Sound s₂ := step_sound lock.soundTransaction regular ended
  have committed := step_end_of_held lock.inside ended
  have empty : 0 + ws.length = 0 → ∀ blk, aheadMap s blk = none := by
    intro zero
    apply composes.nonempty
    rw [List.length_eq_zero_iff.mp (by omega : ws.length = 0), List.map_nil]
  rw [visibleByte_eq lock.soundPlain.coherent, visibleByte_eq sound₂.coherent, committed]
  unfold viewByte
  dsimp only
  rw [lock.origPlain, lock.origTransaction, lock.end empty, lock.sameFile]

/-! ## The calls -/

/-- A write with the outcomes of its copies and the flags of the pages it finds. -/
structure FileWrite where
  req : WriteReq
  env : WriteEnv
  uptodate : List Bool

/-- The write as the data loop performs it. -/
def FileWrite.delivered (w : FileWrite) : WriteReq × WriteEnv :=
  (w.req.delivered w.env.pages w.uptodate, w.env.reported w.uptodate w.req)

/-- The calls that perform the writes; each finds the pages of the log as it comes. -/
def writeCalls (file : Handle) (ws : List (FileWrite × List LogFetch)) : List Call :=
  ws.map fun p => ⟨.write file p.1.req p.1.env, p.2, p.1.uptodate⟩

/-- The same writes as a transaction. -/
def transactionCalls (file : Handle) (ws : List (FileWrite × List LogFetch)) : List Call :=
  (Op.beginTransaction file false).cached ::
    (writeCalls file ws ++ [(Op.endTransaction file).cached])

theorem toOp_writeCalls (file : Handle) (ws : List (FileWrite × List LogFetch)) :
    (writeCalls file ws).map Call.toOp =
      writeOps file ((ws.map Prod.fst).map FileWrite.delivered) := by
  unfold writeCalls writeOps
  rw [List.map_map, List.map_map, List.map_map]
  rfl

theorem toOp_transactionCalls (file : Handle) (ws : List (FileWrite × List LogFetch)) :
    (transactionCalls file ws).map Call.toOp =
      transactionOps file ((ws.map Prod.fst).map FileWrite.delivered) := by
  unfold transactionCalls transactionOps
  rw [List.map_cons, List.map_append, toOp_writeCalls]
  rfl

/-- Which blocks a write replaces and merges does not depend on its data. -/
theorem Composes.delivered {s : State} {ws : List FileWrite}
    (composes : Composes s (ws.map FileWrite.req)) :
    Composes s ((ws.map FileWrite.delivered).map Prod.fst) := by
  have shape : (ws.map FileWrite.delivered).map Prod.fst =
      ws.map fun w => w.req.delivered w.env.pages w.uptodate := by
    rw [List.map_map]
    rfl
  rw [shape]
  refine ⟨?_, ?_, ?_⟩
  · refine List.pairwise_map.mpr ((List.pairwise_map.mp composes.fresh).imp ?_)
    intro earlier later apart
    simpa [WriteReq.Touches] using apart
  · intro w member copies
    rw [← List.map_tail] at member
    obtain ⟨v, there, rfl⟩ := List.mem_map.mp member
    refine composes.ahead v.req ?_ ((WriteReq.copiesHead_delivered ..).mp copies)
    rw [← List.map_tail]
    exact List.mem_map_of_mem there
  · intro empty
    exact composes.nonempty (by rw [List.map_eq_nil_iff.mp empty, List.map_nil])

/-- After `BEGIN`, the writes and `END`, the visible content is the one after the
same writes as plain writes. -/
theorem transaction_eq_writes {s₀ s s₁ s₂ : State} {calls : List Call} {file : Handle}
    {ws ws' : List (FileWrite × List LogFetch)} (opened : Opened s₀) (bound : OneAhead s₀)
    (reached : Run syscall (fun s c => c.op.Regular ∧ c.Ready s) s₀ calls s)
    (free : s.tLocks.locked = false) (same : ws.map Prod.fst = ws'.map Prod.fst)
    (plain : Run syscall (fun s c => c.op.Regular ∧ c.Ready s) s (writeCalls file ws) s₁)
    (transaction : Run syscall (fun s c => c.op.Regular ∧ c.Ready s) s
      (transactionCalls file ws') s₂)
    (loggedPlain : s₁.log.length = s.log.length + ws.length)
    (loggedTransaction : s₂.log.length = s.log.length + ws'.length)
    (clean : ∀ q ∈ ws, q.1.env.lookup.FaultFree)
    (composes : Composes s ((ws.map Prod.fst).map FileWrite.req)) (x : Nat) :
    visibleByte s₁ s₁.version x = visibleByte s₂ s₂.version x := by
  have admits : ∀ (s : State) (c : Call), c.op.Regular ∧ c.Ready s → c.Ready s ∧ c.toOp.Regular :=
    fun _ c meets => ⟨meets.2, c.regular_toOp.mpr meets.1⟩
  have plainOps := run_toOp admits plain
  have transactionOps := run_toOp admits transaction
  rw [toOp_writeCalls] at plainOps
  rw [toOp_transactionCalls, ← same] at transactionOps
  have length : ws'.length = ws.length := by
    rw [← List.length_map Prod.fst, ← same, List.length_map]
  refine visibleByte_of_ops opened bound (run_toOp admits reached) free plainOps transactionOps
    ?_ ?_ ?_ composes.delivered x
  · rw [loggedPlain, List.length_map, List.length_map]
  · rw [loggedTransaction, length, List.length_map, List.length_map]
  · intro q member
    obtain ⟨w, there, rfl⟩ := List.mem_map.mp member
    obtain ⟨p, listed, rfl⟩ := List.mem_map.mp there
    exact clean p listed

/-- A byte at the position, copied at once. -/
def FileWrite.ofByte (pos : UInt16) (b : UInt8) : FileWrite := ⟨.ofByte pos b, .clean 1, []⟩

theorem regular_transactionCalls {file : Handle} {ws : List (FileWrite × List LogFetch)}
    (regular : ∀ p ∈ ws, (Op.write file p.1.req p.1.env).Regular) :
    ∀ c ∈ transactionCalls file ws, c.op.Regular := by
  intro c member
  rcases List.mem_cons.mp member with rfl | later
  · trivial
  rcases List.mem_append.mp later with write | last
  · obtain ⟨p, listed, rfl⟩ := List.mem_map.mp write
    exact regular p listed
  · rw [List.mem_singleton.mp last]
    trivial

/-- Two bytes in different blocks; the log is new, so its page is cleared first. -/
def differentBlocks : List (FileWrite × List LogFetch) :=
  [(.ofByte 1 7, [.cleared]), (.ofByte 4097 8, [.cached])]

/-- Two bytes in one block. -/
def sameBlock : List (FileWrite × List LogFetch) :=
  [(.ofByte 0 7, [.cleared]), (.ofByte 1 8, [.cached])]

/-- Three bytes in different blocks; `fetch` is about the second record. -/
def threeBlocks (fetch : LogFetch) : List (FileWrite × List LogFetch) :=
  [(.ofByte 0 8, [.cached]), (.ofByte 4096 8, [fetch]), (.ofByte 8192 8, [.cached])]

theorem regular_ofByte {file : Handle} {ws : List (FileWrite × List LogFetch)}
    (bytes : ∀ p ∈ ws, p.1.env = .clean 1) : ∀ c ∈ transactionCalls file ws, c.op.Regular := by
  refine regular_transactionCalls fun p listed => ?_
  rw [bytes p listed]
  exact ⟨fun _ => rfl, fun _ => rfl⟩

/-- What runs of one list give, as plain writes and as a transaction. -/
theorem exists_runs {ok : State → Call → Bool} {meets : State → Call → Prop} {s : State}
    {ws ws' : List (FileWrite × List LogFetch)} {p q : State → Bool}
    (admits : ∀ c ∈ transactionCalls 0 ws, ∀ s, ok s c = true → meets s c)
    (admits' : ∀ c ∈ transactionCalls 0 ws', ∀ s, ok s c = true → meets s c)
    (found : ((Run.exec syscall ok s (writeCalls 0 ws)).any p &&
      (Run.exec syscall ok s (transactionCalls 0 ws')).any q) = true) :
    ∃ s₁ s₂, Run syscall meets s (writeCalls 0 ws) s₁ ∧
      Run syscall meets s (transactionCalls 0 ws') s₂ ∧ p s₁ = true ∧ q s₂ = true := by
  obtain ⟨foundPlain, foundTransaction⟩ := Bool.and_eq_true_iff.mp found
  obtain ⟨s₁, plain, here⟩ := Run.exists_of_exec (fun c member => admits c
    (List.mem_cons_of_mem _ (List.mem_append_left _ member))) foundPlain
  obtain ⟨s₂, transaction, there⟩ := Run.exists_of_exec admits' foundTransaction
  exact ⟨s₁, s₂, plain, transaction, here, there⟩

theorem admits_ready {ws : List (FileWrite × List LogFetch)}
    (bytes : ∀ p ∈ ws, p.1.env = .clean 1) : ∀ c ∈ transactionCalls 0 ws, ∀ s : State,
      decide (c.Ready s) = true → c.op.Regular ∧ c.Ready s :=
  fun c member _ ready => ⟨regular_ofByte bytes c member, of_decide_eq_true ready⟩

/-- Two writes to different blocks. -/
theorem transaction_eq_writes_of_two_blocks :
    ∃ s s₁ s₂ : State,
      Run syscall (fun s c => c.op.Regular ∧ c.Ready s) (cloned (.blank 8192))
        [(Op.openFile 0).cached] s ∧
      Run syscall (fun s c => c.op.Regular ∧ c.Ready s) s (writeCalls 0 differentBlocks) s₁ ∧
      Run syscall (fun s c => c.op.Regular ∧ c.Ready s) s
        (transactionCalls 0 differentBlocks) s₂ ∧
      ∀ x, visibleByte s₁ s₁.version x = visibleByte s₂ s₂.version x := by
  have opening : Run syscall (fun s c => c.op.Regular ∧ c.Ready s) (cloned (.blank 8192))
      [(Op.openFile 0).cached] { cloned (.blank 8192) with handles := [0] } :=
    .cons ⟨trivial, trivial⟩ rfl (.nil _)
  have bytes : ∀ p ∈ differentBlocks, p.1.env = .clean 1 := by
    simp [differentBlocks, FileWrite.ofByte]
  obtain ⟨s₁, s₂, plain, transaction, two, two'⟩ := exists_runs (p := fun s => s.log.length = 2)
    (q := fun s => s.log.length = 2) (s := { cloned (.blank 8192) with handles := [0] })
    (admits_ready bytes) (admits_ready bytes) (by decide +kernel)
  have composes : Composes { cloned (.blank 8192) with handles := [0] }
      [.ofByte 1 7, .ofByte 4097 8] :=
    ⟨by decide, fun _ _ _ => rfl, fun empty => by cases empty⟩
  refine ⟨_, s₁, s₂, opening, plain, transaction, ?_⟩
  refine transaction_eq_writes (opened_cloned _) (fun _ none => (List.not_mem_nil none).elim)
    opening rfl rfl plain transaction (of_decide_eq_true two) (of_decide_eq_true two') ?_ composes
  intro q member
  rw [bytes q member]
  exact Env.clean_faultFree

/-- Two writes to one block: inside a transaction the second one brings back what the first one
replaced. And three writes to different blocks at version 5: inside the transaction the page of
the log leaves memory after the first record, and the map that `END` makes visible was read
again from the log. -/
theorem transaction_eq_writes_fails :
    (∃ s₁ s₂ : State,
      Run syscall (fun s c => c.op.Regular ∧ c.Ready s)
        { cloned (.blank 8192) with handles := [0] } (writeCalls 0 sameBlock) s₁ ∧
      Run syscall (fun s c => c.op.Regular ∧ c.Ready s)
        { cloned (.blank 8192) with handles := [0] } (transactionCalls 0 sameBlock) s₂ ∧
      (s₁.log.length = 2 ∧ visibleByte s₁ s₁.version 0 = some 7) ∧
      s₂.log.length = 2 ∧ visibleByte s₂ s₂.version 0 = some 0) ∧
    ∃ s s₁ s₂ : State,
      Run syscall (fun _ c => c.op.Regular) { cloned (.blank 16384) with handles := [0] }
        (List.replicate 4 (Op.writeByte 0 12288 9).cached) s ∧
      Run syscall (fun _ c => c.op.Regular) s (writeCalls 0 (threeBlocks .cached)) s₁ ∧
      Run syscall (fun _ c => c.op.Regular) s (transactionCalls 0 (threeBlocks .cleared)) s₂ ∧
      (s₁.log.length = 7 ∧ visibleByte s₁ s₁.version 0 = some 8) ∧
      s₂.log.length = 7 ∧ visibleByte s₂ s₂.version 0 = some 0 := by
  constructor
  · have bytes : ∀ p ∈ sameBlock, p.1.env = .clean 1 := by simp [sameBlock, FileWrite.ofByte]
    obtain ⟨s₁, s₂, plain, transaction, seven, zero⟩ := exists_runs
      (p := fun s => s.log.length = 2 ∧ visibleByte s s.version 0 = some 7)
      (q := fun s => s.log.length = 2 ∧ visibleByte s s.version 0 = some 0)
      (s := { cloned (.blank 8192) with handles := [0] }) (admits_ready bytes) (admits_ready bytes)
      (by decide +kernel)
    exact ⟨s₁, s₂, plain, transaction, of_decide_eq_true seven, of_decide_eq_true zero⟩
  · have bytes : ∀ fetch, ∀ p ∈ threeBlocks fetch, p.1.env = .clean 1 := by
      simp [threeBlocks, FileWrite.ofByte]
    have again : ∀ c ∈ List.replicate 4 (Op.writeByte 0 12288 9).cached,
        ∀ _ : State, true = true → c.op.Regular := by
      intro c member _ _
      rw [List.eq_of_mem_replicate member]
      exact Op.regular_writeByte ..
    have found : (Run.exec syscall (fun _ _ => true) { cloned (.blank 16384) with handles := [0] }
        (List.replicate 4 (Op.writeByte 0 12288 9).cached)).any (fun s =>
          ((Run.exec syscall (fun _ _ => true) s (writeCalls 0 (threeBlocks .cached))).any
            fun s => s.log.length = 7 ∧ visibleByte s s.version 0 = some 8) &&
          (Run.exec syscall (fun _ _ => true) s (transactionCalls 0 (threeBlocks .cleared))).any
            fun s => s.log.length = 7 ∧ visibleByte s s.version 0 = some 0) = true := by
      decide +kernel
    obtain ⟨s, reached, both⟩ := Run.exists_of_exec again found
    obtain ⟨s₁, s₂, plain, transaction, eight, zero⟩ := exists_runs
      (fun c member _ _ => regular_ofByte (bytes .cached) c member)
      (fun c member _ _ => regular_ofByte (bytes .cleared) c member) both
    exact ⟨s, s₁, s₂, reached, plain, transaction, of_decide_eq_true eight, of_decide_eq_true zero⟩

end FlexClone.Scorw
