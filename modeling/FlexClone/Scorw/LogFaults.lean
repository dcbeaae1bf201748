import FlexClone.Scorw.Recovery

/-!
# Log pages that cannot be read and maps that cannot be allocated

`scorw_truncate_log_to_version` cuts the log where its scan stops, and the scan stops at
a page that cannot be read. `scorw_replay_log_version` stops there too, and what it has
stored by then passes for the map of the version. A version whose map cannot be
allocated is passed over. `log_faults_harmless_iff` says when none of this loses or
hides history.
-/

namespace FlexClone.Scorw

open Versioned

/-! ## Cutting the log -/

/-- Cutting the log to a version keeps every record up to that version. -/
def KeepsCommitted (readPage : Nat → Bool) (version : Nat) (log : List LogRecord) : Prop :=
  ∀ (i : Nat) (r : LogRecord), log[i]? = some r → r.versionNum ≤ version →
    (truncateLogToVersion readPage version log)[i]? = some r

/-- Up to a record of the version or an older one, every page can be read and no record
is from the future. -/
def CommittedInReach (readPage : Nat → Bool) (version : Nat) (log : List LogRecord) : Prop :=
  ∀ (i : Nat) (r : LogRecord), log[i]? = some r → r.versionNum ≤ version →
    ∀ j ≤ i, readPage (j / recordsPerPage) = true ∧
      ∀ q, log[j]? = some q → q.versionNum ≤ version

/-- The records the scan of the cut passes. -/
theorem getElem?_scanFrom_takeWhile {readPage : Nat → Bool} {p : LogRecord → Bool}
    {log : List LogRecord} {first i : Nat} {r : LogRecord} :
    ((scanFrom readPage first log).takeWhile p)[i]? = some r ↔
      log[i]? = some r ∧ ∀ j ≤ i, readPage ((first + j) / recordsPerPage) = true ∧
        ∀ q, log[j]? = some q → p q = true := by
  induction log generalizing first i with
  | nil => simp [scanFrom]
  | cons q log ih =>
      by_cases page : readPage (first / recordsPerPage) = true
      · by_cases passed : p q = true
        · have shape : (scanFrom readPage first (q :: log)).takeWhile p =
              q :: (scanFrom readPage (first + 1) log).takeWhile p := by
            rw [scanFrom, if_pos page, List.takeWhile_cons, if_pos passed]
          rw [shape]
          cases i with
          | zero =>
              constructor
              · intro here
                refine ⟨here, fun j le => ?_⟩
                obtain rfl := Nat.le_zero.mp le
                exact ⟨page, fun q' same => Option.some.inj same ▸ passed⟩
              · exact And.left
          | succ i =>
              rw [List.getElem?_cons_succ, List.getElem?_cons_succ, ih]
              refine and_congr_right fun _ => ⟨fun rest j le => ?_, fun rest j le => ?_⟩
              · cases j with
                | zero => exact ⟨page, fun q' same => Option.some.inj same ▸ passed⟩
                | succ j =>
                    have later := rest j (Nat.le_of_succ_le_succ le)
                    rwa [Nat.add_assoc, Nat.add_comm 1 j] at later
              · have later := rest (j + 1) (Nat.succ_le_succ le)
                rwa [Nat.add_comm j 1, ← Nat.add_assoc, Nat.add_comm 1 j] at later
        · have shape : (scanFrom readPage first (q :: log)).takeWhile p = [] := by
            rw [scanFrom, if_pos page, List.takeWhile_cons, if_neg passed]
          rw [shape]
          constructor
          · intro here
            cases here
          · intro here
            exact absurd ((here.2 0 (Nat.zero_le i)).2 q rfl) passed
      · have shape : scanFrom readPage first (q :: log) = [] := if_neg page
        rw [shape]
        constructor
        · intro here
          cases here
        · intro here
          exact absurd (here.2 0 (Nat.zero_le i)).1 page

theorem keepsCommitted_iff {readPage : Nat → Bool} {version : Nat} {log : List LogRecord} :
    KeepsCommitted readPage version log ↔ CommittedInReach readPage version log := by
  have kept (i : Nat) (r : LogRecord) :
      (truncateLogToVersion readPage version log)[i]? = some r ↔
        log[i]? = some r ∧ ∀ j ≤ i, readPage (j / recordsPerPage) = true ∧
          ∀ q, log[j]? = some q → q.versionNum ≤ version := by
    unfold truncateLogToVersion
    rw [getElem?_scanFrom_takeWhile]
    simp only [Nat.zero_add, decide_eq_true_eq]
  constructor
  · intro keeps i r here low
    exact ((kept i r).mp (keeps i r here low)).2
  · intro reach i r here low
    exact (kept i r).mpr ⟨here, reach i r here low⟩

/-! ## Maps that are rebuilt -/

/-- What the complete log says a block resolves to at a version. -/
def completeBlock (log : List LogRecord) (origSize version blk : Nat) : Option Nat :=
  ((entries log).visible version blk).or (if blk < origSize / pageSize then some blk else none)

/-- What a lookup finds of a version that is not in memory. -/
def rebuilt (env : Env) (log : List LogRecord) (v blk : Nat) : Option Nat :=
  if v ≤ maxVersions ∧ env.alloc v = true then
    History.delta (entries (scanFrom env.readPage 0 log)) v blk
  else none

/-- No lookup answers with another block than the complete log defines, in any state
whose maps in memory agree with the log. -/
def NeverMisleads (env : Env) (log : List LogRecord) (origSize : Nat) : Prop :=
  ∀ s : VersionStore, s.log = log → s.origSize = origSize → Coherent s.log s.cache →
    ∀ version blk, (lookupPhysicalBlock env s version blk).1 = none ∨
      (lookupPhysicalBlock env s version blk).1 = completeBlock log origSize version blk

/-- A binding that is not rebuilt leaves nothing else to be found for its block: not by
an earlier binding of the version, and not one version below. -/
def MissesHarmless (env : Env) (log : List LogRecord) (origSize : Nat) : Prop :=
  ∀ v blk p, 1 ≤ v → History.delta (entries log) v blk = some p →
    rebuilt env log v blk = some p ∨
      rebuilt env log v blk = none ∧ ∀ x, resolve log origSize (v - 1) blk = some x → x = p

/-- Nothing is rebuilt that is not in the log. -/
theorem rebuilt_eq_none {env : Env} {log : List LogRecord} {v blk : Nat}
    (unbound : History.delta (entries log) v blk = none) : rebuilt env log v blk = none := by
  obtain ⟨rest, whole⟩ := exists_scanFrom_append env.readPage 0 log
  rw [← whole, entries_append, History.delta_append] at unbound
  unfold rebuilt
  split
  · exact (Option.or_eq_none_iff.mp unbound).2
  · rfl

/-- The maps of the versions up to `v` that are in memory agree with the log. -/
def CoherentUpTo (log : List LogRecord) (v : Nat) (c : VersionCache) : Prop :=
  ∀ i < v, ∀ m, c.versionStates i = some m → m = History.delta (entries log) (i + 1)

section Lookup

variable {env : Env} {log : List LogRecord}

/-- Asking for a version gives its map as the log defines it, or as it is rebuilt, and
leaves the maps of the versions below alone. -/
theorem getOrCreateVersion_shows (env : Env) {c : VersionCache} {v : Nat}
    (coherent : CoherentUpTo log (v + 1) c) (blk : Nat) :
    (((getOrCreateVersion env log c (v + 1)).1.bind (· blk) =
        History.delta (entries log) (v + 1) blk ∧ v + 1 ≤ maxVersions) ∨
      (getOrCreateVersion env log c (v + 1)).1.bind (· blk) = rebuilt env log (v + 1) blk) ∧
      CoherentUpTo log v (getOrCreateVersion env log c (v + 1)).2 := by
  have below : CoherentUpTo log v c := fun i lt => coherent i (Nat.lt_succ_of_lt lt)
  have slot : CoherentUpTo log v (c.takeSlot (v + 1)) :=
    fun i lt m resident => below i lt m (versionStates_takeSlot resident)
  unfold getOrCreateVersion
  split
  case isTrue range =>
    have outside : ¬ (v + 1 ≤ maxVersions ∧ env.alloc (v + 1) = true) := by omega
    exact ⟨.inr (if_neg outside).symm, below⟩
  case isFalse range =>
    have inside : v + 1 ≤ maxVersions := by omega
    split
    case h_1 m resident =>
      have value := coherent v (Nat.lt_succ_self v) m resident
      exact ⟨.inl ⟨by rw [← value]; rfl, inside⟩, below⟩
    case h_2 =>
      dsimp only
      split
      case isTrue allocated =>
        refine ⟨.inr ?_, fun i lt m resident => ?_⟩
        · unfold rebuilt
          rw [if_pos ⟨inside, allocated⟩, replayLogVersion_scanned]
          rfl
        · simp only [VersionCache.setState, Function.update_apply] at resident
          rw [if_neg (by omega)] at resident
          exact slot i lt m resident
      case isFalse failed =>
        have outside : ¬ (v + 1 ≤ maxVersions ∧ env.alloc (v + 1) = true) :=
          fun both => failed both.2
        exact ⟨.inr (if_neg outside).symm, slot⟩

theorem lookupFrom_succ (blk v : Nat) (c : VersionCache) :
    (lookupFrom env log blk (v + 1) c).1 =
      ((getOrCreateVersion env log c (v + 1)).1.bind (· blk)).or
        (lookupFrom env log blk v (getOrCreateVersion env log c (v + 1)).2).1 := by
  rw [lookupFrom]
  split
  case h_1 m c' got =>
    rw [got, Option.bind_some]
    split
    case h_1 found here => rw [here, Option.some_or]
    case h_2 missing => rw [missing, Option.none_or]
  case h_2 c' got => rw [got, Option.bind_none, Option.none_or]

theorem lookupPhysicalBlock_or (s : VersionStore) (version blk : Nat) :
    (lookupPhysicalBlock env s version blk).1 =
      (lookupFrom env s.log blk version s.cache).1.or
        (if blk < s.origSize / pageSize then some blk else none) := by
  unfold lookupPhysicalBlock
  split
  case h_1 found c got => rw [got, Option.some_or]
  case h_2 c got => rw [got, Option.none_or]

/-- The walk down from `v` ends with nothing, or with what the log says. The induction is
on the version; a miss is repaired by what the condition says of the version below. -/
theorem MissesHarmless.lookupFrom {origSize : Nat} (harmless : MissesHarmless env log origSize)
    (blk : Nat) {v : Nat} {c : VersionCache} (coherent : CoherentUpTo log v c) :
    (lookupFrom env log blk v c).1.or (if blk < origSize / pageSize then some blk else none) =
        none ∨
      (lookupFrom env log blk v c).1.or (if blk < origSize / pageSize then some blk else none) =
        resolve log origSize v blk := by
  induction v generalizing c with
  | zero => exact .inr rfl
  | succ v ih =>
      obtain ⟨shows, below⟩ := getOrCreateVersion_shows env coherent blk
      have rest := ih below
      rw [lookupFrom_succ, Option.or_assoc]
      generalize (Scorw.lookupFrom env log blk v
        (getOrCreateVersion env log c (v + 1)).2).1.or _ = answer at rest ⊢
      by_cases inside : v + 1 ≤ maxVersions
      · rw [resolve_succ inside]
        cases bound : History.delta (entries log) (v + 1) blk with
        | none =>
            have missing : (getOrCreateVersion env log c (v + 1)).1.bind (· blk) = none := by
              rcases shows with ⟨whole, _⟩ | again
              · rw [whole, bound]
              · rw [again, rebuilt_eq_none bound]
            rw [missing, Option.none_or, Option.none_or]
            exact rest
        | some p =>
            rw [Option.some_or]
            rcases shows with ⟨whole, _⟩ | again
            · rw [whole, bound, Option.some_or]
              exact .inr rfl
            · rw [again]
              rcases harmless (v + 1) blk p (Nat.succ_pos v) bound with same | ⟨missed, only⟩
              · rw [same, Option.some_or]
                exact .inr rfl
              · rw [missed, Option.none_or]
                rcases rest with nothing | found
                · exact .inl nothing
                · rw [found]
                  cases older : resolve log origSize v blk with
                  | none => exact .inl rfl
                  | some x =>
                      rw [only x older]
                      exact .inr rfl
      · have missing : (getOrCreateVersion env log c (v + 1)).1.bind (· blk) = none := by
          rw [getOrCreateVersion_of_range (.inr (Nat.not_le.mp inside))]
          rfl
        rw [missing, Option.none_or, resolve_of_le (by omega)]
        exact rest

/-- Versions past the end of the table are missed without harm. -/
theorem MissesHarmless.resolve {origSize : Nat} (harmless : MissesHarmless env log origSize)
    (version blk : Nat) : resolve log origSize version blk = none ∨
      resolve log origSize version blk = completeBlock log origSize version blk := by
  induction version with
  | zero => exact .inr rfl
  | succ v ih =>
      have next : completeBlock log origSize (v + 1) blk =
          (History.delta (entries log) (v + 1) blk).or (completeBlock log origSize v blk) :=
        Option.or_assoc
      by_cases inside : v + 1 ≤ maxVersions
      · right
        unfold Scorw.resolve completeBlock
        rw [min_eq_left inside]
      · rw [resolve_of_le (by omega), next]
        cases bound : History.delta (entries log) (v + 1) blk with
        | none =>
            rw [Option.none_or]
            exact ih
        | some p =>
            have missed : rebuilt env log (v + 1) blk = none := if_neg fun both => inside both.1
            rcases harmless (v + 1) blk p (Nat.succ_pos v) bound with same | ⟨_, only⟩
            · rw [missed] at same
              cases same
            · cases older : Scorw.resolve log origSize v blk with
              | none => exact .inl rfl
              | some x =>
                  rw [only x older]
                  exact .inr rfl

/-- A state in which only the maps of the versions below `v` are in memory. -/
def residentBelow (log : List LogRecord) (v : Nat) : VersionCache :=
  ⟨fun i => if i + 1 < v then some (History.delta (entries log) (i + 1)) else none, fun _ => 0,
    0, 0⟩

theorem coherent_residentBelow (log : List LogRecord) (v : Nat) :
    Coherent log (residentBelow log v) := by
  intro i m resident
  dsimp only [residentBelow] at resident
  split at resident
  · exact (Option.some.inj resident).symm
  · cases resident

/-- With all maps in memory the walk is the one over the log. -/
theorem lookupFrom_of_resident {c : VersionCache} {v : Nat}
    (resident : ∀ i < v, c.versionStates i = some (History.delta (entries log) (i + 1)))
    (blk : Nat) :
    (lookupFrom env log blk v c).1 = (entries log).visible (min v maxVersions) blk := by
  induction v with
  | zero => rfl
  | succ v ih =>
      have rest := ih fun i lt => resident i (Nat.lt_succ_of_lt lt)
      rw [lookupFrom_succ, visible_min]
      split
      case isTrue inside =>
        have got : getOrCreateVersion env log c (v + 1) =
            (some (History.delta (entries log) (v + 1)), c) := by
          unfold getOrCreateVersion
          rw [if_neg (by omega), Nat.add_sub_cancel, resident v (Nat.lt_succ_self v)]
        rw [got, Option.bind_some, rest, min_eq_left (by omega)]
      case isFalse outside =>
        rw [getOrCreateVersion_of_range (.inr (Nat.not_le.mp outside)), Option.bind_none,
          Option.none_or, rest]

/-- There a lookup finds what is rebuilt, or what the log says one version below. -/
theorem lookupPhysicalBlock_residentBelow (origSize v blk : Nat) :
    (lookupPhysicalBlock env ⟨v + 1, residentBelow log (v + 1), log, origSize⟩ (v + 1) blk).1 =
      (rebuilt env log (v + 1) blk).or (resolve log origSize v blk) := by
  have absent : (residentBelow log (v + 1)).versionStates (v + 1 - 1) = none :=
    if_neg (by omega)
  have stays : ∀ i < v, (getOrCreateVersion env log (residentBelow log (v + 1))
      (v + 1)).2.versionStates i = some (History.delta (entries log) (i + 1)) := by
    intro i lt
    have here : (residentBelow log (v + 1)).versionStates i =
        some (History.delta (entries log) (i + 1)) := if_pos (by omega)
    have slot : ((residentBelow log (v + 1)).takeSlot (v + 1)).versionStates i =
        some (History.delta (entries log) (i + 1)) := here
    unfold getOrCreateVersion
    split
    · exact here
    · rw [absent]
      dsimp only
      split
      · dsimp only [VersionCache.setState]
        rw [Function.update_of_ne (by omega)]
        exact slot
      · exact slot
  have shown : (getOrCreateVersion env log (residentBelow log (v + 1)) (v + 1)).1.bind (· blk) =
      rebuilt env log (v + 1) blk := by
    unfold getOrCreateVersion rebuilt
    split
    case isTrue range => rw [if_neg (by omega), Option.bind_none]
    case isFalse range =>
      rw [absent]
      dsimp only
      split
      case isTrue allocated =>
        rw [if_pos ⟨by omega, allocated⟩, replayLogVersion_scanned, Option.bind_some]
      case isFalse failed => rw [if_neg fun both => failed both.2, Option.bind_none]
  rw [lookupPhysicalBlock_or]
  dsimp only
  rw [lookupFrom_succ, shown, lookupFrom_of_resident stays, Option.or_assoc]
  rfl

end Lookup

theorem neverMisleads_iff {env : Env} {log : List LogRecord} {origSize : Nat} :
    NeverMisleads env log origSize ↔ MissesHarmless env log origSize := by
  constructor
  · intro never v blk p pos bound
    obtain ⟨w, rfl⟩ := Nat.exists_eq_succ_of_ne_zero (Nat.pos_iff_ne_zero.mp pos)
    have complete : completeBlock log origSize (w + 1) blk = some p := by
      unfold completeBlock
      rw [History.visible_succ, bound, Option.some_or, Option.some_or]
    have answer := never ⟨w + 1, residentBelow log (w + 1), log, origSize⟩ rfl rfl
      (coherent_residentBelow log (w + 1)) (w + 1) blk
    rw [lookupPhysicalBlock_residentBelow, complete] at answer
    cases again : rebuilt env log (w + 1) blk with
    | some x =>
        left
        rw [again, Option.some_or] at answer
        rcases answer with nothing | same
        · cases nothing
        · exact same
    | none =>
        refine .inr ⟨rfl, fun x older => ?_⟩
        rw [Nat.succ_eq_add_one, Nat.add_sub_cancel] at older
        rw [again, Option.none_or, older] at answer
        rcases answer with nothing | same
        · cases nothing
        · exact Option.some.inj same
  · rintro harmless s rfl rfl coherent version blk
    have walk := harmless.lookupFrom blk (v := version) fun i _ m => coherent i m
    rw [lookupPhysicalBlock_or]
    rcases walk with nothing | found
    · exact .inl nothing
    · rw [found]
      exact harmless.resolve version blk

/-- Neither the cut of the log nor a lookup loses or hides history, exactly when every
record up to the stored version is in reach of the cut, and every binding the faults can
hide is the only thing there is for its block. -/
theorem log_faults_harmless_iff (env : Env) (log : List LogRecord) (origSize stored : Nat) :
    KeepsCommitted env.readPage stored log ∧ NeverMisleads env log origSize ↔
      CommittedInReach env.readPage stored log ∧ MissesHarmless env log origSize :=
  and_congr keepsCommitted_iff neverMisleads_iff

/-- A page that cannot be read: the only record is cut off, and a lookup of its block ends
in the original file. -/
theorem log_faults_harmless_fails :
    ¬ KeepsCommitted (fun _ => false) 2 [⟨2, 0, 2, 1⟩] ∧
      ¬ NeverMisleads ⟨fun _ => true, fun _ => false⟩ [⟨2, 0, 2, 1⟩] 8192 := by
  constructor
  · intro keeps
    have kept := keeps 0 ⟨2, 0, 2, 1⟩ rfl le_rfl
    cases kept
  · intro never
    have answer := never ⟨2, .empty, [⟨2, 0, 2, 1⟩], 8192⟩ rfl rfl (coherent_empty _) 2 0
    revert answer
    decide +kernel

end FlexClone.Scorw
