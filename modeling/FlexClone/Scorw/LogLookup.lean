import FlexClone.Scorw.VersionCache

/-!
# Resolving a block by records

`logLookup` resolves a block from the log alone, by records: among the records
that cover the block at or below a version, the last one of the greatest
version. On logs of well-formed records it is `resolve` (`resolve_eq_logLookup`).
-/

namespace FlexClone.Scorw

open Versioned

/-- Records covering `blk` at versions up to `version`. -/
def coveringUpTo (log : List LogRecord) (version blk : Nat) : List LogRecord :=
  log.filter fun r => decide (r.versionNum ≤ version ∧ r.Covers blk)

/-- Records covering `blk` at exactly `version`. -/
def coveringAt (log : List LogRecord) (version blk : Nat) : List LogRecord :=
  log.filter fun r => decide (r.versionNum = version ∧ r.Covers blk)

def greatestVersion (log : List LogRecord) : Nat :=
  (log.map LogRecord.versionNum).foldr max 0

/-- What the log alone says: the last record of the greatest version covering
the block, then the original file. -/
def logLookup (log : List LogRecord) (origSize version blk : Nat) : Option Nat :=
  match (coveringAt log (greatestVersion (coveringUpTo log version blk)) blk).getLast? with
  | some r => some (r.target blk)
  | none => if blk < origSize / pageSize then some blk else none

/-! ## The map of a version by records -/

theorem coveringAt_append (log tail : List LogRecord) (v blk : Nat) :
    coveringAt (log ++ tail) v blk = coveringAt log v blk ++ coveringAt tail v blk :=
  List.filter_append ..

/-- The map of a version holds the target of the last record covering the block. -/
theorem delta_entries {log : List LogRecord} (inRange : ∀ r ∈ log, r.InRange) (v blk : Nat) :
    History.delta (entries log) v blk =
      (coveringAt log v blk).getLast?.map fun r => r.target blk := by
  induction log using List.reverseRecOn with
  | nil => rfl
  | append_singleton log r ih =>
      have earlier := ih fun q member => inRange q (List.mem_append_left _ member)
      have last := inRange r (List.mem_append_right _ List.mem_cons_self)
      rw [entries_append, entries_singleton, History.delta_append, delta_recordEntries last,
        earlier, coveringAt_append]
      by_cases covers : r.versionNum = v ∧ r.Covers blk
      · have kept : coveringAt [r] v blk = [r] := by
          simp only [coveringAt, List.filter_singleton, decide_eq_true covers, cond_true]
        rw [if_pos covers, kept, List.getLast?_concat, Option.some_or, Option.map_some]
      · have dropped : coveringAt [r] v blk = [] := by
          simp only [coveringAt, List.filter_singleton, decide_eq_false covers]
          rfl
        rw [if_neg covers, dropped, List.append_nil, Option.none_or]

/-! ## The walk by records -/

theorem le_greatestVersion {log : List LogRecord} {r : LogRecord} (member : r ∈ log) :
    r.versionNum ≤ greatestVersion log := by
  induction log with
  | nil => cases member
  | cons q log ih =>
      have unfolded : greatestVersion (q :: log) = max q.versionNum (greatestVersion log) := rfl
      rw [unfolded]
      rcases List.mem_cons.mp member with rfl | later
      · exact le_max_left _ _
      · exact le_trans (ih later) (le_max_right _ _)

theorem exists_greatestVersion {log : List LogRecord} (nonempty : log ≠ []) :
    ∃ r ∈ log, r.versionNum = greatestVersion log := by
  induction log with
  | nil => exact (nonempty rfl).elim
  | cons q log ih =>
      have unfolded : greatestVersion (q :: log) = max q.versionNum (greatestVersion log) := rfl
      rw [unfolded]
      rcases le_total (greatestVersion log) q.versionNum with below | above
      · exact ⟨q, List.mem_cons_self, (max_eq_left below).symm⟩
      · by_cases empty : log = []
        · subst empty
          exact ⟨q, List.mem_cons_self, (max_eq_left (Nat.zero_le _)).symm⟩
        · obtain ⟨r, member, greatest⟩ := ih empty
          exact ⟨r, List.mem_cons_of_mem _ member, by rw [greatest, max_eq_right above]⟩

/-- Records whose version the table holds and whose block numbers do not wrap. -/
structure LogRecord.WellFormed (r : LogRecord) : Prop where
  pos : 1 ≤ r.versionNum
  le : r.versionNum ≤ maxVersions
  inRange : r.InRange

theorem mem_coveringUpTo {log : List LogRecord} {version blk : Nat} {r : LogRecord} :
    r ∈ coveringUpTo log version blk ↔ r ∈ log ∧ r.versionNum ≤ version ∧ r.Covers blk := by
  simp only [coveringUpTo, List.mem_filter, decide_eq_true_eq]

theorem mem_coveringAt {log : List LogRecord} {version blk : Nat} {r : LogRecord} :
    r ∈ coveringAt log version blk ↔ r ∈ log ∧ r.versionNum = version ∧ r.Covers blk := by
  simp only [coveringAt, List.mem_filter, decide_eq_true_eq]

theorem delta_eq_none_of_no_cover {log : List LogRecord} (inRange : ∀ r ∈ log, r.InRange)
    {v blk : Nat} (bare : ∀ r ∈ log, r.versionNum = v → ¬ r.Covers blk) :
    History.delta (entries log) v blk = none := by
  have empty : coveringAt log v blk = [] := by
    apply List.eq_nil_iff_forall_not_mem.mpr
    intro r member
    obtain ⟨inLog, same, covers⟩ := mem_coveringAt.mp member
    exact bare r inLog same covers
  rw [delta_entries inRange, empty]
  rfl

/-- Walking the versions downwards finds the last record of the greatest version. -/
theorem visible_entries {log : List LogRecord} (wellFormed : ∀ r ∈ log, r.WellFormed)
    (version blk : Nat) :
    (entries log).visible (min version maxVersions) blk =
      (coveringAt log (greatestVersion (coveringUpTo log version blk)) blk).getLast?.map
        fun r => r.target blk := by
  have inRange : ∀ r ∈ log, r.InRange := fun r member => (wellFormed r member).inRange
  by_cases bare : coveringUpTo log version blk = []
  · have uncovered : ∀ r ∈ log, r.versionNum ≤ version → ¬ r.Covers blk := by
      intro r member le covers
      have : r ∈ coveringUpTo log version blk := mem_coveringUpTo.mpr ⟨member, le, covers⟩
      rw [bare] at this
      cases this
    rw [← delta_entries inRange, bare, delta_eq_none_of_no_cover inRange]
    · cases found : (entries log).visible (min version maxVersions) blk with
      | none => rfl
      | some x =>
          obtain ⟨w, pos, le, here, _⟩ := History.visible_eq_some_iff.mp found
          rw [delta_eq_none_of_no_cover inRange] at here
          · cases here
          · exact fun r member same => uncovered r member (by omega)
    · exact fun r member same => uncovered r member (by rw [same]; exact Nat.zero_le _)
  · obtain ⟨r, member, greatest⟩ := exists_greatestVersion bare
    obtain ⟨inLog, le, covers⟩ := mem_coveringUpTo.mp member
    have range := wellFormed r inLog
    rw [← delta_entries inRange, ← greatest]
    cases found : History.delta (entries log) r.versionNum blk with
    | none =>
        rw [delta_entries inRange, Option.map_eq_none_iff, List.getLast?_eq_none_iff] at found
        have : r ∈ coveringAt log r.versionNum blk := mem_coveringAt.mpr ⟨inLog, rfl, covers⟩
        rw [found] at this
        cases this
    | some x =>
        refine History.visible_eq_some_iff.mpr
          ⟨r.versionNum, range.pos, le_min le range.le, found, fun u lt upper => ?_⟩
        apply delta_eq_none_of_no_cover inRange
        intro q inside same covered
        have : q.versionNum ≤ greatestVersion (coveringUpTo log version blk) :=
          le_greatestVersion (mem_coveringUpTo.mpr ⟨inside, by omega, covered⟩)
        omega

theorem resolve_eq_logLookup {log : List LogRecord} (wellFormed : ∀ r ∈ log, r.WellFormed)
    (origSize version blk : Nat) :
    resolve log origSize version blk = logLookup log origSize version blk := by
  unfold resolve logLookup
  rw [visible_entries wellFormed]
  cases (coveringAt log (greatestVersion (coveringUpTo log version blk)) blk).getLast? with
  | none => rw [Option.map_none, Option.none_or]
  | some r => rw [Option.map_some, Option.some_or]

end FlexClone.Scorw
