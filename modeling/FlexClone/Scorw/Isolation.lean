import FlexClone.Scorw.View

/-!
# Uncommitted records

Records of a transaction are stored at once, at the version after the parent's;
they stay invisible only as long as no other call raises the version.

`Ghost` follows a run and notes, for every record of the log, which transaction
was open when it was appended, and which transactions were ended with result 0.
`uncommitted_invisible`: lookups at any version the parent has reached find
exactly what they would find in a log without the records of transactions that
were not committed, provided that every call that will raise the version starts
with no record ahead of it, and the vectored write is not issued inside a
transaction (`Op.Isolated`).
-/

namespace FlexClone.Scorw

open Versioned

/-- A state with the history of its transactions. A transaction is named by the
number of the call that began it. -/
structure Ghost where
  state : State
  /-- each record of the log with the transaction open when it was appended -/
  tagged : List (LogRecord × Option Nat)
  /-- the open transaction -/
  current : Option Nat
  /-- transactions whose `END` returned 0 -/
  committed : List Nat
  /-- number of the next call -/
  next : Nat

/-- The call is an `END`. -/
def Op.isEnd : Op → Bool
  | .endTransaction _ => true
  | _ => false

/-- The history after a call that returned `ret` and left `s'`. -/
def Ghost.after (g : Ghost) (op : Op) (ret : Int) (s' : State) : Ghost where
  state := s'
  tagged := g.tagged ++ (s'.log.drop g.state.log.length).map fun r => (r, g.current)
  current :=
    if s'.InTransaction then if g.state.InTransaction then g.current else some g.next else none
  committed := if op.isEnd = true ∧ ret = 0 then g.current.toList ++ g.committed else g.committed
  next := g.next + 1

/-- One call with its history. -/
def ghostStep (g : Ghost) (op : Op) : Option (Int × Ghost) :=
  (step g.state op).map fun r => (r.1, g.after op r.1 r.2)

/-- The history of a parent that was just opened; what its log holds was written
outside of every transaction of the run. -/
def Ghost.start (s : State) : Ghost where
  state := s
  tagged := s.log.map fun r => (r, none)
  current := none
  committed := []
  next := 0

/-- The records that were not appended inside a transaction, or inside one that
was committed. -/
def Ghost.committedLog (g : Ghost) : List LogRecord :=
  (g.tagged.filter fun p => p.2.all fun t => decide (t ∈ g.committed)).map Prod.fst

/-- No record is ahead of the parent's version. -/
def NothingAhead (s : State) : Prop := ∀ r ∈ s.log, r.versionNum ≤ s.version

/-- A call that will raise the version now or at its `END` starts with nothing
ahead; the vectored write, which takes no transaction lock, moreover does not
run inside a transaction. -/
def Op.Isolated (s : State) : Op → Prop
  | .beginTransaction _ _ | .write _ _ _ => s.tLocks.locked = false → NothingAhead s
  | .writev _ _ _ => NothingAhead s ∧ ¬ s.InTransaction
  | _ => True

instance (s : State) : Decidable (NothingAhead s) :=
  inferInstanceAs (Decidable (∀ r ∈ s.log, r.versionNum ≤ s.version))

instance (s : State) : (op : Op) → Decidable (op.Isolated s)
  | .openFile _ | .closeFile _ | .openChild | .closeChild | .endTransaction _ | .lookup _ _ _ =>
      inferInstanceAs (Decidable True)
  | .beginTransaction _ _ | .write _ _ _ => inferInstanceAs (Decidable (_ → _))
  | .writev _ _ _ => inferInstanceAs (Decidable (_ ∧ _))

/-- What holds along isolated runs. -/
structure GhostInv (g : Ghost) : Prop where
  sound : Sound g.state
  attr : g.state.currVersionAttr ≤ g.state.version
  log : g.tagged.map Prod.fst = g.state.log
  closed : ¬ g.state.InTransaction → g.current = none
  /-- records of transactions that are not committed are ahead of the version -/
  hidden : ∀ r t, (r, some t) ∈ g.tagged → t ∉ g.committed → g.state.version < r.versionNum
  /-- inside a transaction everything ahead is its own -/
  own : g.state.InTransaction → ∀ r tag, (r, tag) ∈ g.tagged → g.state.version < r.versionNum →
    tag = g.current

theorem mem_committed_after {g : Ghost} {op : Op} {ret : Int} {s' : State} {t : Nat}
    (fresh : t ∉ (g.after op ret s').committed) : t ∉ g.committed := by
  intro member
  apply fresh
  unfold Ghost.after
  dsimp only
  split
  · exact List.mem_append_right _ member
  · exact member

theorem tagged_after {g : Ghost} (op : Op) (ret : Int) {s' : State} {tail : List LogRecord}
    (log : s'.log = g.state.log ++ tail) :
    (g.after op ret s').tagged = g.tagged ++ tail.map fun r => (r, g.current) := by
  unfold Ghost.after
  dsimp only
  rw [log, List.drop_left]

theorem log_after {g : Ghost} (tagged : g.tagged.map Prod.fst = g.state.log) (op : Op) (ret : Int)
    {s' : State} {tail : List LogRecord} (log : s'.log = g.state.log ++ tail) :
    (g.after op ret s').tagged.map Prod.fst = (g.after op ret s').state.log := by
  have whole : (g.after op ret s').state.log = g.state.log ++ tail := log
  rw [tagged_after op ret log, whole, List.map_append, tagged, List.map_map]
  congr 1
  exact List.map_id tail

theorem closed_after {g : Ghost} {op : Op} {ret : Int} {s' : State} :
    ¬ (g.after op ret s').state.InTransaction → (g.after op ret s').current = none :=
  fun outside => if_neg outside

theorem current_after {g : Ghost} (op : Op) (ret : Int) {s' : State}
    (before : g.state.InTransaction) (after : s'.InTransaction) :
    (g.after op ret s').current = g.current := by
  unfold Ghost.after
  dsimp only
  rw [if_pos after, if_pos before]

/-! ## What keeps the invariant -/

section Preservation

variable {g : Ghost} {op : Op} {ret : Int} {s' : State}

theorem mem_log_of_mem_tagged (inv : GhostInv g) {r : LogRecord} {tag : Option Nat}
    (member : (r, tag) ∈ g.tagged) : r ∈ g.state.log := by
  rw [← inv.log]
  exact List.mem_map_of_mem member

/-- Calls that neither raise the version nor log. A transaction they begin starts
with nothing ahead. -/
theorem GhostInv.quiet (inv : GhostInv g) (sound : Sound s')
    (attr : s'.currVersionAttr ≤ s'.version) (sameLog : s'.log = g.state.log)
    (sameVersion : s'.version = g.state.version)
    (locks : s'.InTransaction → g.state.InTransaction ∨ NothingAhead g.state) :
    GhostInv (g.after op ret s') := by
  have log : s'.log = g.state.log ++ [] := by rw [sameLog, List.append_nil]
  have version : (g.after op ret s').state.version = g.state.version := sameVersion
  have tagged : (g.after op ret s').tagged = g.tagged := by
    rw [tagged_after op ret log, List.map_nil, List.append_nil]
  refine ⟨sound, attr, log_after inv.log op ret log, closed_after, ?_, ?_⟩
  · intro r t member fresh
    rw [tagged] at member
    rw [version]
    exact inv.hidden r t member (mem_committed_after fresh)
  · intro inside r tag member ahead
    rw [tagged] at member
    rw [version] at ahead
    have inside' : s'.InTransaction := inside
    rcases locks inside' with before | nothing
    · rw [current_after op ret before inside']
      exact inv.own before r tag member ahead
    · have := nothing r (mem_log_of_mem_tagged inv member)
      omega

/-- With nothing ahead, every record was committed or written outside of
transactions. -/
theorem GhostInv.committed_of_nothingAhead (inv : GhostInv g) (nothing : NothingAhead g.state)
    {r : LogRecord} {t : Nat} (member : (r, some t) ∈ g.tagged) : t ∈ g.committed := by
  by_contra fresh
  have ahead := inv.hidden r t member fresh
  have := nothing r (mem_log_of_mem_tagged inv member)
  omega

/-- Calls outside of transactions that log and raise the version, starting with
nothing ahead. -/
theorem GhostInv.raise (inv : GhostInv g) (sound : Sound s')
    (attr : s'.currVersionAttr ≤ s'.version) (nothing : NothingAhead g.state)
    (outside : ¬ g.state.InTransaction) (outside' : ¬ s'.InTransaction)
    {tail : List LogRecord} (log : s'.log = g.state.log ++ tail) :
    GhostInv (g.after op ret s') := by
  refine ⟨sound, attr, log_after inv.log op ret log, closed_after, ?_,
    fun inside => (outside' inside).elim⟩
  intro r t member fresh
  rw [tagged_after op ret log, inv.closed outside] at member
  rcases List.mem_append.mp member with old | new
  · exact (mem_committed_after fresh (inv.committed_of_nothingAhead nothing old)).elim
  · obtain ⟨q, _, equal⟩ := List.mem_map.mp new
    cases equal

/-- Writes inside the open transaction. -/
theorem GhostInv.append (inv : GhostInv g) (sound : Sound s')
    (attr : s'.currVersionAttr ≤ s'.version) (inside : g.state.InTransaction)
    (inside' : s'.InTransaction) (version : s'.version = g.state.version)
    {tail : List LogRecord} (log : s'.log = g.state.log ++ tail)
    (above : ∀ r ∈ tail, g.state.version < r.versionNum) : GhostInv (g.after op ret s') := by
  have same : (g.after op ret s').state.version = g.state.version := version
  refine ⟨sound, attr, log_after inv.log op ret log, closed_after, ?_, ?_⟩
  · intro r t member fresh
    rw [tagged_after op ret log] at member
    rw [same]
    rcases List.mem_append.mp member with old | new
    · exact inv.hidden r t old (mem_committed_after fresh)
    · obtain ⟨q, inTail, equal⟩ := List.mem_map.mp new
      have same : q = r := congrArg Prod.fst equal
      exact same ▸ above q inTail
  · intro _ r tag member ahead
    rw [tagged_after op ret log] at member
    rw [same] at ahead
    rw [current_after op ret inside inside']
    rcases List.mem_append.mp member with old | new
    · exact inv.own inside r tag old ahead
    · obtain ⟨q, _, equal⟩ := List.mem_map.mp new
      exact (congrArg Prod.snd equal).symm

/-- `END` of the open transaction. -/
theorem GhostInv.commit (inv : GhostInv g) (sound : Sound s')
    (attr : s'.currVersionAttr ≤ s'.version) (inside : g.state.InTransaction)
    (outside : ¬ s'.InTransaction) (sameLog : s'.log = g.state.log)
    {file : Handle} : GhostInv (g.after (.endTransaction file) 0 s') := by
  have log : s'.log = g.state.log ++ [] := by rw [sameLog, List.append_nil]
  refine ⟨sound, attr, log_after inv.log _ _ log, closed_after, ?_,
    fun inside' => (outside inside').elim⟩
  intro r t member fresh
  rw [tagged_after _ _ log, List.map_nil, List.append_nil] at member
  have ahead := inv.hidden r t member (mem_committed_after fresh)
  have mine : some t = g.current := inv.own inside r (some t) member ahead
  apply (fresh _).elim
  unfold Ghost.after
  dsimp only
  rw [if_pos ⟨rfl, rfl⟩, ← mine]
  exact List.mem_cons_self

end Preservation

theorem ghostInv_start {s : State} (opened : Opened s) : GhostInv (.start s) := by
  have outside : ¬ s.InTransaction := by
    apply not_inTransaction_of_free
    rw [opened.tLocks]
    rfl
  refine ⟨opened.sound, opened.attr.le, ?_, fun _ => rfl, ?_, fun inside => (outside inside).elim⟩
  · unfold Ghost.start
    dsimp only
    rw [List.map_map]
    exact List.map_id s.log
  · intro r t member
    obtain ⟨q, _, equal⟩ := List.mem_map.mp member
    cases equal

/-- Isolated regular calls keep the invariant. -/
theorem ghostStep_inv {g g' : Ghost} {op : Op} {ret : Int} (inv : GhostInv g)
    (regular : op.Regular) (isolated : op.Isolated g.state)
    (taken : ghostStep g op = some (ret, g')) : GhostInv g' := by
  obtain ⟨⟨ret', s'⟩, done, equal⟩ := Option.map_eq_some_iff.mp taken
  cases equal
  have sound := step_sound inv.sound regular done
  have attr := step_attr inv.sound inv.attr done
  cases step_cases done with
  | openFile fresh =>
      have same := quiet_getInode inv.sound.idle
      exact inv.quiet sound attr same.log same.version fun inside =>
        .inl (inTransaction_getInode inside)
  | closeFile isOpen =>
      refine inv.quiet sound attr (quiet_putInode _).log (quiet_putInode _).version
        fun inside => .inl ?_
      have held := inTransaction_putInode inside
      unfold State.InTransaction closeLocks at held
      split at held
      · cases held.1
      · exact held
  | openChild =>
      have same := quiet_getInode inv.sound.idle
      exact inv.quiet sound attr same.log same.version fun inside =>
        .inl (inTransaction_getInode inside)
  | closeChild isOpen =>
      refine inv.quiet sound attr (quiet_putInode _).log (quiet_putInode _).version
        fun inside => .inl ?_
      have held := inTransaction_putInode inside
      exact held
  | beginRefused nonzero => exact inv.quiet sound attr rfl rfl .inl
  | begun isOpen free => exact inv.quiet sound attr rfl rfl fun _ => .inr (isolated free)
  | endRefused => exact inv.quiet sound attr rfl rfl .inl
  | committed isOpen held =>
      have inside : g.state.InTransaction := by
        unfold State.InTransaction
        rw [held]
        exact ⟨rfl, rfl⟩
      exact inv.commit sound attr inside (not_inTransaction_of_free rfl) rfl
  | unlocked held outside =>
      exact inv.quiet sound attr rfl rfl fun inside =>
        (not_inTransaction_of_free rfl inside).elim
  | @write file w env _ _ isOpen result =>
      obtain ⟨tail, log, above⟩ := result.grows.log
      by_cases inside : selfTransactionStatus g.state file = .setTransaction
      · have before := inTransaction_of_self inside
        cases result with
        | refused outside => exact (outside inside).elim
        | inPlace ready failed =>
            refine inv.append sound attr before ?_ ?_ log above
            · unfold State.InTransaction heldLocks
              rw [if_pos inside]
              exact before
            · dsimp only
              rw [lookedUp_store]
        | redirected ready copied =>
            refine inv.append sound attr before ?_ ?_ log above
            · unfold State.InTransaction releasedLocks
              rw [if_pos inside]
              exact before
            · dsimp only
              rw [(recorded_frame env g.state file w).2, raisedVersion, if_pos inside]
      · cases result with
        | refused outside => exact inv.quiet sound attr rfl rfl .inl
        | inPlace ready failed =>
            have free : g.state.tLocks.locked = false := ready.resolve_left inside
            refine inv.quiet sound attr ?_ ?_ fun _ => .inr (isolated free)
            · dsimp only
              rw [lookedUp_store]
            · dsimp only
              rw [lookedUp_store]
        | redirected ready copied =>
            have free : g.state.tLocks.locked = false := ready.resolve_left inside
            refine inv.raise sound attr (isolated free) (not_inTransaction_of_free free) ?_ log
            apply not_inTransaction_of_free
            unfold releasedLocks
            rw [if_neg inside]
  | writev isOpen result =>
      obtain ⟨nothing, outside⟩ := isolated
      obtain ⟨tail, log, above⟩ := result.grows.log
      cases result with
      | refused => exact inv.quiet sound attr rfl rfl .inl
      | dataFailed negative data => exact inv.quiet sound attr rfl rfl .inl
      | noVersion data created => exact inv.quiet sound attr rfl rfl .inl
      | committed nonempty nonneg data created =>
          exact inv.raise sound attr nothing outside outside log
  | lookup used =>
      refine inv.quiet sound attr ?_ ?_ .inl
      · rw [lookupPhysicalBlock_store]
      · rw [lookupPhysicalBlock_store]

/-! ## Lookups -/

/-- Dropping records of other versions does not change the map of a version. -/
theorem delta_filter {tagged : List (LogRecord × Option Nat)} {p : LogRecord × Option Nat → Bool}
    {v : Nat} (kept : ∀ x ∈ tagged, x.1.versionNum = v → p x = true) :
    History.delta (entries ((tagged.filter p).map Prod.fst)) v =
      History.delta (entries (tagged.map Prod.fst)) v := by
  induction tagged using List.reverseRecOn with
  | nil => rfl
  | append_singleton tagged x ih =>
      have earlier := ih fun y member => kept y (List.mem_append_left _ member)
      rw [List.filter_append, List.map_append, List.map_append]
      by_cases keep : p x = true
      · rw [List.filter_singleton, keep, cond_true, List.map_singleton, delta_appendRecord,
          delta_appendRecord, earlier]
      · have other : ∀ r ∈ [x].map Prod.fst, r.versionNum ≠ v := by
          intro r member same
          rw [List.map_singleton, List.mem_singleton] at member
          subst member
          exact keep (kept x (List.mem_append_right _ List.mem_cons_self) same)
        rw [delta_entries_append_of_ne other, List.filter_singleton,
          Bool.not_eq_true _ |>.mp keep, cond_false, List.map_nil, List.append_nil, earlier]

/-- In every isolated run, at the parent's version and at every version a child can
have got from it, lookups find what they would find in a log without the records
of uncommitted transactions. -/
theorem uncommitted_invisible {s₀ : State} (opened : Opened s₀) {ops : List Op} {g : Ghost}
    (run : Run ghostStep (fun g op => op.Regular ∧ op.Isolated g.state) (.start s₀) ops g)
    {env : Env} (clean : env.FaultFree) :
    g.state.currVersionAttr ≤ g.state.version ∧
      ∀ version ≤ g.state.version, ∀ blk,
        (lookupPhysicalBlock env g.state.toVersionStore version blk).1 =
          resolve g.committedLog g.state.origSize version blk := by
  have inv : GhostInv g := run.invariant
    (fun _ _ _ _ inv admitted taken => ghostStep_inv inv admitted.1 admitted.2 taken)
    (ghostInv_start opened)
  refine ⟨inv.attr, fun version old blk => ?_⟩
  rw [lookupPhysicalBlock_eq clean inv.sound.coherent]
  unfold resolve
  congr 1
  apply History.visible_congr
  intro v le
  unfold Ghost.committedLog
  rw [← inv.log, delta_filter]
  intro x member same
  -- a record at or below the version belongs to no uncommitted transaction
  obtain ⟨r, tag⟩ := x
  cases tag with
  | none => rfl
  | some t =>
      by_contra fresh
      have uncommitted : t ∉ g.committed := fun inside => fresh (decide_eq_true inside)
      have := inv.hidden r t member uncommitted
      dsimp only at same
      omega

/-- A committed transaction is visible. -/
theorem uncommitted_invisible_after_commit :
    ∃ g : Ghost,
      Run ghostStep (fun g op => op.Regular ∧ op.Isolated g.state) (.start (cloned (.blank 8192)))
        [.openFile 0, .beginTransaction 0 false,
          .write 0 ⟨0, [7], by decide, by decide⟩ (.clean 1), .endTransaction 0] g ∧
      g.committed = [1] ∧
      (lookupPhysicalBlock .clean g.state.toVersionStore g.state.version 0).1 =
        resolve g.committedLog g.state.origSize g.state.version 0 := by
  refine Run.exists_imp (fun g op => decide (op.Isolated g.state)) ?_
    (Q := fun g => g.committed = [1]) (by decide +kernel) ?_
  · intro op member g isolated
    refine ⟨?_, of_decide_eq_true isolated⟩
    revert op
    simp [Op.Regular, WriteEnv.clean, Env.clean]
  · intro g run committed
    have holds := uncommitted_invisible (opened_cloned _) run Env.clean_faultFree
    exact ⟨committed, holds.2 _ le_rfl 0⟩

/-- A handle is closed inside its transaction; the next plain write makes the
abandoned record visible. -/
theorem uncommitted_invisible_fails :
    ∃ g : Ghost,
      Run ghostStep (fun _ op => op.Regular) (.start (cloned (.blank 8192)))
        [.openFile 0, .openFile 1, .beginTransaction 0 false,
          .write 0 ⟨0, [7], by decide, by decide⟩ (.clean 1), .closeFile 0,
          .write 1 ⟨4096, [1], by decide, by decide⟩ (.clean 1)] g ∧
      (⟨2, 0, 2, 1⟩, some 2) ∈ g.tagged ∧ 2 ∉ g.committed ∧
      (lookupPhysicalBlock .clean g.state.toVersionStore g.state.version 0).1 = some 2 := by
  refine Run.exists_imp (fun _ _ => true) ?_ (by decide +kernel) fun _ _ shown => shown
  simp [Op.Regular, WriteEnv.clean, Env.clean]

end FlexClone.Scorw
