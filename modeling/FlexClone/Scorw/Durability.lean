import FlexClone.Scorw.Calls
import FlexClone.Scorw.Isolation
import FlexClone.Scorw.LogLookup
import FlexClone.Scorw.RecoveryInts

/-!
# Committed transactions and crashes

`END` writes the log out but does not store the attribute `curr_version`; that is
done only when the parent or a child is closed. After a crash the log is cut to
the stored version.

`commit_durable_iff`: in every run in which the page with the end of the log stays in
memory, a committed transaction whose blocks are on disk survives a crash, with its
records in the log and its blocks resolved at the recovered version, exactly when the
stored version has reached its records. A page of the log that has left memory is cleared
before the next record is written to it, and `END` then syncs a log without the records
the transaction had there.
-/

namespace FlexClone.Scorw

open Versioned

/-! ## The log of a running parent -/

/-- The records of a log as the parent writes them. -/
structure SoundLog (s : State) : Prop where
  sorted : VersionsSorted s.log
  bound : OneAhead s
  records : ∀ r ∈ s.log, r.WellFormed ∧ 0 < r.lenBlks

/-- A record the parent appends next. -/
structure Appended (s : State) (r : LogRecord) : Prop where
  version : r.versionNum = s.version + 1
  table : r.versionNum ≤ maxVersions
  inRange : r.InRange
  positive : 0 < r.lenBlks

theorem WriteResult.appended {env : WriteEnv} {s s' : State} {file : Handle} {w : WriteReq}
    {ret : Int} (result : WriteResult env s file w ret s') :
    ∃ tail, s'.log = s.log ++ tail ∧ ∀ r ∈ tail, Appended s r := by
  by_cases logged : s'.log.length = s.log.length + 1
  · obtain ⟨_, _, zero, _, rfl⟩ := result.eq_written logged
    have fits : w.startBlk + w.nrBlk < 2 ^ 32 := w.fitsRecord
    have start : u32 w.startBlk = w.startBlk := u32_of_lt (by omega)
    have count : u32 w.nrBlk = w.nrBlk := u32_of_lt (by omega)
    refine ⟨_, log_written zero, fun r member => ?_⟩
    rw [List.mem_singleton.mp member, start, count]
    exact ⟨rfl, (recorded_log_of_zero zero).2, Nat.le_of_lt fits, Nat.succ_pos _⟩
  · obtain ⟨tail, log, _⟩ := result.grows.log
    have none : tail = [] := by
      have := result.length_log_le
      rw [log, List.length_append] at this logged
      exact List.length_eq_zero_iff.mp (by omega)
    refine ⟨tail, log, fun r member => ?_⟩
    rw [none] at member
    cases member

theorem appended_of_mem_writevLog {s : State} {appendPos i : Nat} {vecs : List IoVec}
    (fits : FitsLog vecs) (inside : s.version + 1 ≤ maxVersions) {r : LogRecord}
    (member : r ∈ writevLog (s.version + 1) appendPos i vecs) : Appended s r := by
  induction vecs generalizing i with
  | nil => cases member
  | cons vec vecs ih =>
      rcases List.mem_cons.mp member with rfl | later
      · have small := fits vec List.mem_cons_self
        have start : u32 (vec.logicalOffset / pageSize) = vec.logicalOffset / pageSize :=
          u32_of_lt (by omega)
        refine ⟨rfl, inside, ?_, Nat.one_pos⟩
        unfold LogRecord.InRange
        dsimp only
        rw [start]
        exact Nat.le_of_lt small
      · exact ih (fun vec member => fits vec (List.mem_cons_of_mem _ member)) later

/-- Every call appends records of the next version, if any. -/
theorem step_appended {s s' : State} {op : Op} {ret : Int} (idle : Idle s) (regular : op.Regular)
    (taken : step s op = some (ret, s')) :
    ∃ tail, s'.log = s.log ++ tail ∧ ∀ r ∈ tail, Appended s r := by
  have same {log : List LogRecord} (equal : log = s.log) :
      ∃ tail, log = s.log ++ tail ∧ ∀ r ∈ tail, Appended s r :=
    ⟨[], by rw [equal, List.append_nil], fun _ none => (List.not_mem_nil none).elim⟩
  cases step_cases taken with
  | openFile fresh => exact same (quiet_getInode idle).log
  | closeFile isOpen => exact same (quiet_putInode _).log
  | openChild => exact same (quiet_getInode idle).log
  | closeChild isOpen => exact same (quiet_putInode _).log
  | beginRefused nonzero => exact same rfl
  | begun isOpen free => exact same rfl
  | endRefused => exact same rfl
  | committed isOpen held => exact same rfl
  | unlocked held outside => exact same rfl
  | write isOpen result => exact result.appended
  | @writev file vecs create _ _ isOpen result =>
      cases result with
      | refused => exact same rfl
      | dataFailed negative data => exact same rfl
      | noVersion data created => exact same rfl
      | @committed ret f m c nonempty nonneg data created =>
          have found : (getOrCreateVersion create s.log s.cache (s.version + 1)).1.isSome := by
            rw [created]
            rfl
          exact ⟨_, rfl, fun r member =>
            appended_of_mem_writevLog regular.2 (version_range_of_isSome found).2 member⟩
  | lookup used =>
      rw [lookupPhysicalBlock_store]
      exact same rfl

theorem SoundLog.step {s s' : State} {op : Op} {ret : Int} (sound : SoundLog s) (idle : Idle s)
    (regular : op.Regular) (taken : step s op = some (ret, s')) : SoundLog s' := by
  obtain ⟨tail, log, appended⟩ := step_appended idle regular taken
  refine ⟨?_, sound.bound.step idle taken, fun r member => ?_⟩
  · unfold VersionsSorted
    rw [log]
    refine List.pairwise_append.mpr ⟨sound.sorted, ?_, fun r old q new => ?_⟩
    · refine List.Pairwise.imp_of_mem ?_ (List.pairwise_of_forall fun _ _ => trivial)
      intro r q first second _
      rw [(appended r first).version, (appended q second).version]
    · rw [(appended q new).version]
      exact sound.bound r old
  · rw [log] at member
    rcases List.mem_append.mp member with old | new
    · exact sound.records r old
    · have here := appended r new
      exact ⟨⟨by rw [here.version]; exact Nat.succ_pos _, here.table, here.inRange⟩, here.positive⟩

/-! ## The records of committed transactions -/

/-- The transaction was committed or is open. -/
def Ghost.Live (g : Ghost) (t : Nat) : Prop := t ∈ g.committed ∨ g.current = some t

/-- What holds along all regular runs. -/
structure DurableInv (g : Ghost) : Prop where
  sound : Sound g.state
  soundLog : SoundLog g.state
  log : g.tagged.map Prod.fst = g.state.log
  closed : ¬ g.state.InTransaction → g.current = none
  /-- numbers of transactions are used once -/
  fresh : ∀ t, g.Live t ∨ (∃ r, (r, some t) ∈ g.tagged) → t < g.next
  apart : ∀ t, g.current = some t → t ∉ g.committed
  /-- what is logged after a live transaction has a higher version -/
  order : g.tagged.Pairwise fun a b =>
    ∀ t, g.Live t → a.2 = some t → b.2 ≠ some t → a.1.versionNum < b.1.versionNum
  /-- the version has passed committed records -/
  reached : ∀ r t, (r, some t) ∈ g.tagged → t ∈ g.committed → r.versionNum ≤ g.state.version
  /-- committed records are written out -/
  synced : ∀ p ∈ g.tagged.drop g.state.syncedLog, ∀ t ∈ g.committed, p.2 ≠ some t

theorem durableInv_start {s : State} (opened : Opened s) (soundLog : SoundLog s) :
    DurableInv (.start s) where
  sound := opened.sound
  soundLog := soundLog
  log := by
    unfold Ghost.start
    dsimp only
    rw [List.map_map]
    exact List.map_id s.log
  closed := fun _ => rfl
  fresh := by
    rintro t ((member | same) | ⟨r, member⟩)
    · cases member
    · cases same
    · obtain ⟨q, _, equal⟩ := List.mem_map.mp member
      cases equal
  apart := fun _ same => by cases same
  order := by
    refine List.pairwise_of_forall fun a b t live => ?_
    rcases live with member | same
    · cases member
    · cases same
  reached := fun _ _ _ member => by cases member
  synced := fun _ _ _ member => by cases member

section Preservation

variable {g : Ghost} {op : Op} {ret : Int} {s' : State}

/-- The open transaction after a call was open before, or has the next number. -/
theorem current_after_cases {t : Nat} (same : (g.after op ret s').current = some t) :
    g.current = some t ∨ t = g.next := by
  unfold Ghost.after at same
  dsimp only at same
  split at same
  · split at same
    · exact .inl same
    · exact .inr (Option.some.inj same).symm
  · cases same

/-- Calls that commit nothing. -/
theorem DurableInv.other (inv : DurableInv g) (regular : op.Regular)
    (taken : step g.state op = some (ret, s'))
    (committed : (g.after op ret s').committed = g.committed)
    (syncedLog : s'.syncedLog = g.state.syncedLog) : DurableInv (g.after op ret s') := by
  obtain ⟨tail, log, appended⟩ := step_appended inv.sound.idle regular taken
  have grown := (step_grows inv.sound.idle taken).version
  have tagged := tagged_after op ret log
  have fromTail {p : LogRecord × Option Nat} (member : p ∈ tail.map fun r => (r, g.current)) :
      g.state.version < p.1.versionNum ∧ p.2 = g.current := by
    obtain ⟨r, new, equal⟩ := List.mem_map.mp member
    rw [← equal]
    refine ⟨?_, rfl⟩
    dsimp only
    rw [(appended r new).version]
    exact Nat.lt_succ_self _
  -- a live transaction with a record was live before
  have before {t : Nat} (live : (g.after op ret s').Live t)
      (used : ∃ r, (r, some t) ∈ g.tagged) : g.Live t := by
    rcases live with member | same
    · exact .inl (committed ▸ member)
    · rcases current_after_cases same with old | new
      · exact .inr old
      · have := inv.fresh t (.inr used)
        omega
  refine
    { sound := step_sound inv.sound regular taken
      soundLog := inv.soundLog.step inv.sound.idle regular taken
      log := ?_
      closed := closed_after
      fresh := ?_
      apart := ?_
      order := ?_
      reached := ?_
      synced := ?_ }
  · exact log_after inv.log op ret log
  · intro t used
    have next : (g.after op ret s').next = g.next + 1 := rfl
    rw [next]
    rcases used with (member | same) | ⟨r, member⟩
    · exact Nat.lt_succ_of_lt (inv.fresh t (.inl (.inl (committed ▸ member))))
    · rcases current_after_cases same with old | rfl
      · exact Nat.lt_succ_of_lt (inv.fresh t (.inl (.inr old)))
      · exact Nat.lt_succ_self _
    · rw [tagged] at member
      rcases List.mem_append.mp member with old | new
      · exact Nat.lt_succ_of_lt (inv.fresh t (.inr ⟨r, old⟩))
      · exact Nat.lt_succ_of_lt (inv.fresh t (.inl (.inr (fromTail new).2.symm)))
  · intro t same
    rw [committed]
    rcases current_after_cases same with old | rfl
    · exact inv.apart t old
    · intro member
      exact Nat.lt_irrefl _ (inv.fresh _ (.inl (.inl member)))
  · rw [tagged]
    refine List.pairwise_append.mpr ⟨?_, ?_, ?_⟩
    · refine inv.order.imp_of_mem fun {a b} first _ earlier t live mine other => ?_
      have used : (a.1, some t) ∈ g.tagged := by
        rw [← mine]
        exact first
      exact earlier t (before live ⟨a.1, used⟩) mine other
    · refine List.pairwise_of_forall_mem_list fun a first b second t _ mine other => ?_
      rw [(fromTail second).2, ← (fromTail first).2] at other
      exact (other mine).elim
    · intro a first b second t live mine other
      have used : (a.1, some t) ∈ g.tagged := by
        rw [← mine]
        exact first
      rcases before live ⟨a.1, used⟩ with member | same
      · exact lt_of_le_of_lt (inv.reached a.1 t used member) (fromTail second).1
      · rw [(fromTail second).2] at other
        exact (other same).elim
  · intro r t member done
    rw [committed] at done
    rw [tagged] at member
    rcases List.mem_append.mp member with old | new
    · exact le_trans (inv.reached r t old done) grown
    · exact (inv.apart t (fromTail new).2.symm done).elim
  · intro p member t done same
    have state : (g.after op ret s').state.syncedLog = g.state.syncedLog := syncedLog
    rw [committed] at done
    rw [state, tagged, List.drop_append] at member
    rcases List.mem_append.mp member with old | new
    · exact inv.synced p old t done same
    · rw [(fromTail (List.mem_of_mem_drop new)).2] at same
      exact inv.apart t same done

/-- `END` of the open transaction. -/
theorem DurableInv.commit (inv : DurableInv g) (regular : op.Regular)
    (taken : step g.state op = some (0, s')) (isEnd : op.isEnd = true)
    (sameLog : s'.log = g.state.log) (version : s'.version = g.state.version + 1)
    (syncedLog : s'.syncedLog = g.state.log.length) (outside : ¬ s'.InTransaction) :
    DurableInv (g.after op 0 s') := by
  have log : s'.log = g.state.log ++ [] := by rw [sameLog, List.append_nil]
  have committed : (g.after op 0 s').committed = g.current.toList ++ g.committed :=
    if_pos ⟨isEnd, rfl⟩
  have tagged : (g.after op 0 s').tagged = g.tagged := by
    rw [tagged_after op 0 log, List.map_nil, List.append_nil]
  have current : (g.after op 0 s').current = none := closed_after outside
  have memCommitted {t : Nat} : t ∈ (g.after op 0 s').committed ↔ g.Live t := by
    rw [committed, List.mem_append, Option.mem_toList]
    exact or_comm
  have before {t : Nat} (live : (g.after op 0 s').Live t) : g.Live t := by
    rcases live with member | same
    · exact memCommitted.mp member
    · rw [current] at same
      cases same
  refine
    { sound := step_sound inv.sound regular taken
      soundLog := inv.soundLog.step inv.sound.idle regular taken
      log := log_after inv.log op 0 log
      closed := closed_after
      fresh := ?_
      apart := ?_
      order := ?_
      reached := ?_
      synced := ?_ }
  · intro t used
    rw [tagged] at used
    exact Nat.lt_succ_of_lt (inv.fresh t (used.imp_left before))
  · intro t same
    rw [current] at same
    cases same
  · rw [tagged]
    exact inv.order.imp fun earlier t live => earlier t (before live)
  · intro r t member done
    have state : (g.after op 0 s').state.version = g.state.version + 1 := version
    rw [tagged] at member
    rw [state]
    apply inv.soundLog.bound r
    rw [← inv.log]
    exact List.mem_map_of_mem member
  · intro p member
    have state : (g.after op 0 s').state.syncedLog = g.tagged.length := by
      rw [← List.length_map Prod.fst, inv.log]
      exact syncedLog
    rw [state, tagged, List.drop_length] at member
    cases member

end Preservation

theorem syncedLog_getInode (s : State) : (getInode s).syncedLog = s.syncedLog := by
  unfold getInode
  split
  · rfl
  · rfl

theorem syncedLog_putInode (s : State) : (putInode s).syncedLog = s.syncedLog := by
  unfold putInode
  dsimp only
  split
  · rfl
  · rfl

/-- Regular calls keep the invariant. -/
theorem ghostStep_durable {g g' : Ghost} {op : Op} {ret : Int} (inv : DurableInv g)
    (regular : op.Regular) (taken : ghostStep g op = some (ret, g')) : DurableInv g' := by
  obtain ⟨⟨ret', s'⟩, done, equal⟩ := Option.map_eq_some_iff.mp taken
  cases equal
  have same (notEnd : op.isEnd = false ∨ ret' ≠ 0) :
      (g.after op ret' s').committed = g.committed := by
    refine if_neg fun both => ?_
    rcases notEnd with other | failed
    · rw [other] at both
      exact Bool.noConfusion both.1
    · exact failed both.2
  cases step_cases done with
  | openFile fresh => exact inv.other regular done (same (.inl rfl)) (syncedLog_getInode _)
  | closeFile isOpen => exact inv.other regular done (same (.inl rfl)) (syncedLog_putInode _)
  | openChild => exact inv.other regular done (same (.inl rfl)) (syncedLog_getInode _)
  | closeChild isOpen => exact inv.other regular done (same (.inl rfl)) (syncedLog_putInode _)
  | beginRefused nonzero => exact inv.other regular done (same (.inl rfl)) rfl
  | begun isOpen free => exact inv.other regular done (same (.inl rfl)) rfl
  | endRefused => exact inv.other regular done (same (.inr (by decide))) rfl
  | committed isOpen held =>
      exact inv.commit regular done rfl rfl rfl rfl (not_inTransaction_of_free rfl)
  | unlocked held outside =>
      have none : g.current = none := inv.closed fun inside => outside inside.2
      refine inv.other regular done ?_ rfl
      unfold Ghost.after
      dsimp only
      rw [if_pos ⟨rfl, rfl⟩, none]
      rfl
  | write isOpen result => exact inv.other regular done (same (.inl rfl)) result.frame.2.2.2
  | writev isOpen result => exact inv.other regular done (same (.inl rfl)) result.frame.2.2.2
  | lookup used => exact inv.other regular done (same (.inl rfl)) rfl

/-! ## Crashes -/

/-- A disk after a crash: at least the part of the log that was written out, and
the stored attributes. Which blocks of the parent are there is open. -/
structure CrashOf (s : State) (d : Disk) : Prop where
  log : ∃ k, s.syncedLog ≤ k ∧ d.log = s.log.take k
  currVersionAttr : d.currVersionAttr = s.currVersionAttr
  origSize : d.origSize = s.origSize

/-- Every record of the transaction is in the recovered log, at its place, and the
blocks it covers are looked up, at the recovered version, in it or in a later
record. -/
def Durable (g : Ghost) (t : Nat) (recovered : Int × Disk) : Prop :=
  ∀ (i : Nat) (r : LogRecord), g.tagged[i]? = some (r, some t) →
    recovered.2.log[i]? = some r ∧
      ∀ blk, r.Covers blk → ∃ (j : Nat) (q : LogRecord),
        i ≤ j ∧ recovered.2.log[j]? = some q ∧ q.Covers blk ∧
        (lookupPhysicalBlock .clean
          ⟨recovered.1.toNat, .empty, recovered.2.log, recovered.2.origSize⟩
          recovered.1.toNat blk).1 = some (q.target blk)

theorem split_of_getElem? {log : List LogRecord} {i : Nat} {r : LogRecord}
    (place : log[i]? = some r) : log = log.take i ++ r :: log.drop (i + 1) := by
  obtain ⟨inside, here⟩ := List.getElem?_eq_some_iff.mp place
  rw [← here, ← List.drop_eq_getElem_cons inside, List.take_append_drop]

/-- A block covered by a record of a sorted log resolves to that record or to a
later one. -/
theorem resolve_of_covers {log : List LogRecord} (sorted : VersionsSorted log)
    (wellFormed : ∀ r ∈ log, r.WellFormed) {version : Nat}
    (bound : ∀ r ∈ log, r.versionNum ≤ version) (origSize : Nat) {i blk : Nat} {r : LogRecord}
    (place : log[i]? = some r) (covers : r.Covers blk) :
    ∃ (j : Nat) (q : LogRecord), i ≤ j ∧ log[j]? = some q ∧ q.Covers blk ∧
      resolve log origSize version blk = some (q.target blk) := by
  have split := split_of_getElem? place
  have member : r ∈ log := List.mem_of_getElem? place
  have listed : r ∈ coveringUpTo log version blk :=
    mem_coveringUpTo.mpr ⟨member, bound r member, covers⟩
  have greatest := exists_greatestVersion (List.ne_nil_of_mem listed)
  have upper := le_greatestVersion listed
  have found := visible_entries wellFormed version blk
  generalize greatestVersion (coveringUpTo log version blk) = v at greatest upper found
  -- the greatest version that covers the block has a record here or later
  have late : ∃ q ∈ r :: log.drop (i + 1), q.versionNum = v ∧ q.Covers blk := by
    obtain ⟨q, inLog, same⟩ := greatest
    obtain ⟨inLog, _, covered⟩ := mem_coveringUpTo.mp inLog
    by_cases equal : r.versionNum = v
    · exact ⟨r, List.mem_cons_self, equal, covers⟩
    · rw [split] at inLog
      rcases List.mem_append.mp inLog with early | late
      · rw [split] at sorted
        have := (List.pairwise_append.mp sorted).2.2 q early r List.mem_cons_self
        omega
      · exact ⟨q, late, same, covered⟩
  obtain ⟨q, inTail, same, covered⟩ := late
  have filled : coveringAt (r :: log.drop (i + 1)) v blk ≠ [] :=
    List.ne_nil_of_mem (mem_coveringAt.mpr ⟨inTail, same, covered⟩)
  rw [split, coveringAt_append, List.getLast?_append_of_ne_nil _ filled,
    List.getLast?_eq_some_getLast filled, Option.map_some, ← split] at found
  have last := List.getLast_mem filled
  generalize (coveringAt (r :: log.drop (i + 1)) v blk).getLast filled = q' at found last
  obtain ⟨inTail', _, covered'⟩ := mem_coveringAt.mp last
  obtain ⟨inside, here⟩ := List.getElem?_eq_some_iff.mp place
  rw [← here, ← List.drop_eq_getElem_cons inside] at inTail'
  obtain ⟨m, shape⟩ := List.mem_iff_getElem?.mp inTail'
  rw [List.getElem?_drop] at shape
  refine ⟨i + m, q', Nat.le_add_right _ _, shape, covered', ?_⟩
  unfold resolve
  rw [found, Option.some_or]

theorem getElem?_takeWhile {p : LogRecord → Bool} {log : List LogRecord} {i : Nat} {r : LogRecord}
    (place : log[i]? = some r) (holds : ∀ j ≤ i, ∀ q, log[j]? = some q → p q = true) :
    (log.takeWhile p)[i]? = some r := by
  induction log generalizing i with
  | nil => cases place
  | cons head log ih =>
      rw [List.takeWhile_cons_of_pos (holds 0 (Nat.zero_le i) head rfl)]
      cases i with
      | zero => exact place
      | succ i => exact ih place fun j le => holds (j + 1) (Nat.succ_le_succ le)

theorem getElem?_of_isPrefix {part log : List LogRecord} (start : part <+: log) {i : Nat}
    {r : LogRecord} (place : part[i]? = some r) : log[i]? = some r := by
  obtain ⟨rest, rfl⟩ := start
  rw [List.getElem?_append_left (List.getElem?_eq_some_iff.mp place).1]
  exact place

theorem not_unmapped_of_allMapped {blocks : BlockMap} {r : LogRecord} (mapped : r.AllMapped blocks)
    (positive : 0 < r.lenBlks) : ¬ Unmapped blocks r := by
  have head := mapped 0 positive
  rw [Nat.add_zero] at head
  intro unmapped
  rcases mapBlocks_eq_zero_iff.mp unmapped with empty | missing
  · omega
  · rw [u32_of_lt (blocks.fits _ head), head] at missing
    cases missing

section Tagged

variable {g : Ghost} {t i j : Nat} {r q : LogRecord}

theorem DurableInv.log_at (inv : DurableInv g) {tag : Option Nat}
    (place : g.tagged[i]? = some (r, tag)) : g.state.log[i]? = some r := by
  rw [← inv.log, List.getElem?_map, place]
  rfl

theorem DurableInv.lt_syncedLog (inv : DurableInv g) (committed : t ∈ g.committed)
    (place : g.tagged[i]? = some (r, some t)) : i < g.state.syncedLog := by
  by_contra late
  have member : (r, some t) ∈ g.tagged.drop g.state.syncedLog := by
    apply List.mem_of_getElem? (i := i - g.state.syncedLog)
    rw [List.getElem?_drop, Nat.add_sub_cancel' (Nat.not_lt.mp late)]
    exact place
  exact inv.synced _ member t committed rfl

/-- A later record of the same version belongs to the same transaction. -/
theorem DurableInv.tag_of_version (inv : DurableInv g) (committed : t ∈ g.committed)
    (place : g.tagged[i]? = some (r, some t)) (later : i < j) (place' : g.state.log[j]? = some q)
    (same : q.versionNum = r.versionNum) : (q, some t) ∈ g.tagged := by
  rw [← inv.log, List.getElem?_map] at place'
  obtain ⟨⟨q', tag⟩, there, equal⟩ := Option.map_eq_some_iff.mp place'
  cases equal
  obtain ⟨inside, here⟩ := List.getElem?_eq_some_iff.mp place
  obtain ⟨inside', here'⟩ := List.getElem?_eq_some_iff.mp there
  have order := List.pairwise_iff_getElem.mp inv.order i j inside inside' later
  rw [here, here'] at order
  by_cases mine : tag = some t
  · rw [← mine]
    exact List.mem_of_getElem? there
  · have := order t (.inl committed) rfl mine
    dsimp only at this same
    omega

/-- Recovery drops no record of a transaction whose blocks reached the disk. -/
theorem DurableInv.kept_of_recovered (inv : DurableInv g) (committed : t ∈ g.committed)
    (place : g.tagged[i]? = some (r, some t)) {version : Nat} {d : Disk}
    {kept dropped : List LogRecord} {result : Nat × Disk}
    (recovered : Recovered version d kept dropped result)
    (onDisk : ∀ r, (r, some t) ∈ g.tagged → r.AllMapped d.blocks)
    (whole : d.log <+: g.state.log) (inLog : d.log[i]? = some r) : kept[i]? = some r := by
  have split := recovered.split
  by_contra missing
  have outside : kept.length ≤ i := by
    by_contra short
    rw [split, List.getElem?_append_left (Nat.not_le.mp short)] at inLog
    exact missing inLog
  rw [split, List.getElem?_append_right outside] at inLog
  obtain ⟨q, present, same, unmapped⟩ := recovered.unmapped _ _ _ (split_of_getElem? inLog)
  -- an unmapped record of the same version would belong to the transaction
  have mine : (q, some t) ∈ g.tagged := by
    rcases List.mem_cons.mp present with rfl | later
    · exact List.mem_of_getElem? place
    · obtain ⟨m, there⟩ := List.mem_iff_getElem?.mp later
      rw [List.getElem?_drop] at there
      refine inv.tag_of_version committed place (j := i + 1 + m) (by omega)
        (getElem?_of_isPrefix whole ?_) same
      rw [split, List.getElem?_append_right (by omega)]
      rw [← there]
      congr 1
      omega
  have positive := (inv.soundLog.records q (by
    rw [← inv.log]
    exact List.mem_map_of_mem mine)).2
  exact not_unmapped_of_allMapped (onDisk q mine) positive unmapped

end Tagged

/-- What the stored version decides. -/
theorem durable_iff {g : Ghost} (inv : DurableInv g) {t : Nat}
    (committed : t ∈ g.committed) {d : Disk} (crash : CrashOf g.state d)
    (onDisk : ∀ r, (r, some t) ∈ g.tagged → r.AllMapped d.blocks) {readPage : Nat → Bool}
    (readable : ∀ p, readPage p = true) :
    Durable g t (((recoverParent readPage d).1 : Int), (recoverParent readPage d).2) ↔
      ∀ r, (r, some t) ∈ g.tagged → r.versionNum ≤ g.state.currVersionAttr := by
  obtain ⟨k, enough, diskLog⟩ := crash.log
  rw [← crash.currVersionAttr]
  have truncated : truncateLogToVersion readPage d.currVersionAttr d.log =
      d.log.takeWhile fun r => decide (r.versionNum ≤ d.currVersionAttr) := by
    unfold truncateLogToVersion
    rw [scanFrom_of_readable readable]
  unfold recoverParent
  rw [truncated]
  generalize cut : (d.log.takeWhile fun r => decide (r.versionNum ≤ d.currVersionAttr)) = log
  have whole : log <+: g.state.log := by
    rw [← cut]
    exact (List.takeWhile_prefix _).trans (diskLog ▸ List.take_prefix k _)
  have sorted : VersionsSorted log := inv.soundLog.sorted.sublist whole.sublist
  have records : ∀ r ∈ log, r.WellFormed ∧ 0 < r.lenBlks := fun r member =>
    inv.soundLog.records r (whole.subset member)
  have below : ∀ r ∈ log, r.versionNum ≤ d.currVersionAttr := by
    intro r member
    rw [← cut] at member
    have holds := List.mem_takeWhile_imp member
    exact of_decide_eq_true holds
  obtain ⟨kept, dropped, recovered⟩ := doRecovery_recovered (d := { d with log := log }) readable
    d.currVersionAttr sorted fun r member => (records r member).1.pos
  have left : kept <+: log := ⟨dropped, recovered.split.symm⟩
  generalize doRecovery readPage d.currVersionAttr { d with log := log } = result at recovered
  constructor
  · intro durable r member
    obtain ⟨i, place⟩ := List.mem_iff_getElem?.mp member
    have there := (durable i r place).1
    rw [recovered.log] at there
    exact below r (left.subset (List.mem_of_getElem? there))
  · intro stored i r place
    have inLog : log[i]? = some r := by
      have synced := inv.lt_syncedLog committed place
      have onDiskLog : d.log[i]? = some r := by
        rw [diskLog, List.getElem?_take_of_lt (by omega)]
        exact inv.log_at place
      rw [← cut]
      refine getElem?_takeWhile onDiskLog fun j le q there => decide_eq_true ?_
      have inState : d.log <+: g.state.log := diskLog ▸ List.take_prefix k _
      exact le_trans (inv.soundLog.sorted.le le (getElem?_of_isPrefix inState there)
        (inv.log_at place)) (stored r (List.mem_of_getElem? place))
    have inKept := inv.kept_of_recovered committed place recovered onDisk whole inLog
    rw [recovered.log, recovered.origSize]
    refine ⟨inKept, fun blk covers => ?_⟩
    have keptRecords : ∀ q ∈ kept, q.WellFormed ∧ q.versionNum ≤ result.1 := fun q member =>
      ⟨(records q (left.subset member)).1,
        recovered.version q member (below q (left.subset member))⟩
    rw [lookupPhysicalBlock_eq Env.clean_faultFree (coherent_empty kept)]
    exact resolve_of_covers (sorted.sublist left.sublist) (fun q member => (keptRecords q member).1)
      (fun q member => (keptRecords q member).2) d.origSize inKept covers

/-! ## The calls -/

/-- One system call with its history. -/
def ghostCall (g : Ghost) (c : Call) : Option (Int × Ghost) :=
  (syscall g.state c).map fun r => (r.1, g.after c.op r.1 r.2)

theorem ghostCall_eq {g : Ghost} {c : Call} (ready : c.Ready g.state) :
    ghostCall g c = ghostStep g c.toOp := by
  have ends : c.toOp.isEnd = c.op.isEnd := by
    obtain ⟨op, fetches, uptodate⟩ := c
    cases op with
    | write file w env => rfl
    | openFile | closeFile | openChild | closeChild | beginTransaction | endTransaction | writev
    | lookup => rfl
  unfold ghostCall ghostStep Ghost.after
  rw [syscall_eq ready, ends]

/-- A committed transaction whose blocks reached the disk survives a crash exactly
when the stored version has reached its records. -/
theorem commit_durable_iff {s₀ : State} (opened : Opened s₀) (soundLog : SoundLog s₀)
    {calls : List Call} {g : Ghost}
    (run : Run ghostCall (fun g c => c.op.Regular ∧ c.Ready g.state) (.start s₀) calls g)
    {t : Nat} (committed : t ∈ g.committed) (stored : g.state.currVersionAttr < 2 ^ 31)
    {d : Disk} (crash : CrashOf g.state d)
    (onDisk : ∀ r, (r, some t) ∈ g.tagged → r.AllMapped d.blocks) {readPage : Nat → Bool}
    (readable : ∀ p, readPage p = true) :
    Durable g t (Ints.recoverParent readPage d) ↔
      ∀ r, (r, some t) ∈ g.tagged → r.versionNum ≤ g.state.currVersionAttr := by
  have ops : Run ghostStep (fun _ op => op.Regular) (.start s₀) (calls.map Call.toOp) g := by
    refine run.interpret Call.toOp fun g c meets => ?_
    exact ⟨ghostCall_eq meets.2, c.regular_toOp.mpr meets.1⟩
  have inv : DurableInv g := ops.invariant
    (fun _ _ _ _ inv regular taken => ghostStep_durable inv regular taken)
    (durableInv_start opened soundLog)
  rw [← crash.currVersionAttr] at stored
  rw [Ints.recoverParent_eq readPage stored]
  exact durable_iff inv committed crash onDisk readable

theorem soundLog_cloned (f : ByteFile UInt8) : SoundLog (cloned f) :=
  ⟨.nil, fun _ none => (List.not_mem_nil none).elim, fun _ none => (List.not_mem_nil none).elim⟩

/-- A transaction that writes one byte to block 0. -/
def byteTransaction : List Call :=
  [(Op.openFile 0).cached, (Op.beginTransaction 0 false).cached,
    ⟨.writeByte 0 0 7, [.cleared], []⟩, (Op.endTransaction 0).cached]

theorem regular_byteTransaction {g : Ghost} {c : Call} (member : c ∈ byteTransaction)
    (ready : decide (c.Ready g.state) = true) : c.op.Regular ∧ c.Ready g.state := by
  refine ⟨?_, of_decide_eq_true ready⟩
  revert c
  simp [byteTransaction, Op.cached, Op.writeByte, Op.Regular, WriteEnv.clean, Env.clean]

theorem regular_append_closeFile {ok : Call → Prop} {cs : List Call}
    (regular : ∀ c ∈ cs, ok c) (closes : ok (Op.closeFile 0).cached) :
    ∀ c ∈ cs ++ [(Op.closeFile 0).cached], ok c := by
  intro c member
  rcases List.mem_append.mp member with early | last
  · exact regular c early
  · rw [List.mem_singleton.mp last]
    exact closes

/-- A transaction survives a crash after its handle was closed. -/
theorem commit_durable_after_close :
    ∃ (d : Disk) (g : Ghost),
      Run ghostCall (fun g c => c.op.Regular ∧ c.Ready g.state) (.start (cloned (.blank 8192)))
        (byteTransaction ++ [(Op.closeFile 0).cached]) g ∧
      1 ∈ g.committed ∧ (⟨2, 0, 2, 1⟩, some 1) ∈ g.tagged ∧ CrashOf g.state d ∧
      Durable g 1 (Ints.recoverParent (fun _ => true) d) := by
  refine ⟨⟨[⟨2, 0, 2, 1⟩], 2, 8192, 12288, .upTo 3⟩, Run.exists_imp
    (fun g c => decide (c.Ready g.state)) ?_ (Q := fun g => g.tagged = [(⟨2, 0, 2, 1⟩, some 1)] ∧
      g.committed = [1] ∧ g.state.log = [⟨2, 0, 2, 1⟩] ∧ g.state.syncedLog = 1 ∧
      g.state.currVersionAttr = 2 ∧ g.state.origSize = 8192) (by decide +kernel) ?_⟩
  · exact regular_append_closeFile (fun _ member _ => regular_byteTransaction member)
      fun _ ready => ⟨trivial, of_decide_eq_true ready⟩
  rintro g run ⟨tagged, committed, log, synced, attr, origSize⟩
  have member : 1 ∈ g.committed := by
    rw [committed]
    exact List.mem_cons_self
  have own : ∀ r, (r, some 1) ∈ g.tagged → r = ⟨2, 0, 2, 1⟩ := by
    intro r inside
    rw [tagged] at inside
    exact congrArg Prod.fst (List.mem_singleton.mp inside)
  have crash : CrashOf g.state ⟨[⟨2, 0, 2, 1⟩], 2, 8192, 12288, .upTo 3⟩ :=
    ⟨⟨1, synced.le, by rw [log]; rfl⟩, attr.symm, origSize.symm⟩
  refine ⟨member, by rw [tagged]; exact List.mem_cons_self, crash, ?_⟩
  refine (commit_durable_iff (opened_cloned _) (soundLog_cloned _) run member
    (by rw [attr]; decide) crash ?_ (fun _ => rfl)).mpr ?_
  · intro r inside i bound
    rw [own r inside] at bound ⊢
    rw [Nat.lt_one_iff.mp bound]
    rfl
  · intro r inside
    rw [own r inside, attr]

/-- With the handle still open the stored version is the one before the transaction: recovery
drops its record. When the page of the log leaves memory between two records of the
transaction, the first of them is lost although the handle was closed. -/
theorem commit_durable_fails :
    (∃ (d : Disk) (g : Ghost),
      Run ghostCall (fun g c => c.op.Regular ∧ c.Ready g.state) (.start (cloned (.blank 8192)))
        byteTransaction g ∧
      1 ∈ g.committed ∧ g.tagged = [(⟨2, 0, 2, 1⟩, some 1)] ∧ CrashOf g.state d ∧
      LogRecord.AllMapped d.blocks ⟨2, 0, 2, 1⟩ ∧
      (Ints.recoverParent (fun _ => true) d).2.log = [] ∧
      ¬ Durable g 1 (Ints.recoverParent (fun _ => true) d)) ∧
    ∃ (d : Disk) (g : Ghost),
      Run ghostCall (fun _ c => c.op.Regular) (.start (cloned (.blank 8192)))
        (clearedTransaction ++ [(Op.closeFile 0).cached]) g ∧
      1 ∈ g.committed ∧ g.tagged = [(⟨2, 0, 2, 1⟩, some 1), (⟨2, 1, 3, 1⟩, some 1)] ∧
      CrashOf g.state d ∧ (∀ r, (r, some 1) ∈ g.tagged → r.AllMapped d.blocks) ∧
      g.state.currVersionAttr = 2 ∧
      (Ints.recoverParent (fun _ => true) d).2.log = [.zero, ⟨2, 1, 3, 1⟩] ∧
      ¬ Durable g 1 (Ints.recoverParent (fun _ => true) d) := by
  constructor
  · refine ⟨⟨[⟨2, 0, 2, 1⟩], 1, 8192, 12288, .upTo 3⟩, Run.exists_imp
      (fun g c => decide (c.Ready g.state)) (fun _ member _ => regular_byteTransaction member)
      (Q := fun g => g.tagged = [(⟨2, 0, 2, 1⟩, some 1)] ∧ 1 ∈ g.committed ∧
        g.state.log = [⟨2, 0, 2, 1⟩] ∧ g.state.syncedLog = 1 ∧ g.state.currVersionAttr = 1 ∧
        g.state.origSize = 8192) (by decide +kernel) ?_⟩
    rintro g _ ⟨tagged, committed, log, synced, attr, origSize⟩
    have lost : (Ints.recoverParent (fun _ => true)
        ⟨[⟨2, 0, 2, 1⟩], 1, 8192, 12288, .upTo 3⟩).2.log = [] := by decide +kernel
    refine ⟨committed, tagged, ⟨⟨1, synced.le, by rw [log]; rfl⟩, attr.symm, origSize.symm⟩, ?_,
      lost, fun durable => ?_⟩
    · intro i bound
      rw [Nat.lt_one_iff.mp bound]
      rfl
    · have kept := (durable 0 ⟨2, 0, 2, 1⟩ (by rw [tagged]; rfl)).1
      rw [lost] at kept
      cases kept
  · refine ⟨⟨[.zero, ⟨2, 1, 3, 1⟩], 2, 8192, 16384, .upTo 4⟩, Run.exists_imp (fun _ _ => true)
      (regular_append_closeFile (fun c member _ _ => regular_clearedTransaction c member)
        fun _ _ => trivial)
      (Q := fun g => g.tagged = [(⟨2, 0, 2, 1⟩, some 1), (⟨2, 1, 3, 1⟩, some 1)] ∧
        1 ∈ g.committed ∧ g.state.log = [.zero, ⟨2, 1, 3, 1⟩] ∧ g.state.syncedLog = 2 ∧
        g.state.currVersionAttr = 2 ∧ g.state.origSize = 8192) (by decide +kernel) ?_⟩
    rintro g _ ⟨tagged, committed, log, synced, attr, origSize⟩
    have left : (Ints.recoverParent (fun _ => true)
        ⟨[.zero, ⟨2, 1, 3, 1⟩], 2, 8192, 16384, .upTo 4⟩).2.log = [.zero, ⟨2, 1, 3, 1⟩] := by
      decide +kernel
    refine ⟨committed, tagged, ⟨⟨2, synced.le, by rw [log]; rfl⟩, attr.symm, origSize.symm⟩, ?_,
      attr, left, fun durable => ?_⟩
    · intro r inside i bound
      rw [tagged] at inside
      simp only [List.mem_cons, Prod.mk.injEq, and_true, List.not_mem_nil, or_false] at inside
      rcases inside with rfl | rfl
      all_goals
        rw [Nat.lt_one_iff.mp bound]
        rfl
    · have kept := (durable 0 ⟨2, 0, 2, 1⟩ (by rw [tagged]; rfl)).1
      rw [left] at kept
      exact absurd kept (by decide)

end FlexClone.Scorw
