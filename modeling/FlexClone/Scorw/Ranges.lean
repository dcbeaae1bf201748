import FlexClone.Scorw.CowMoves

/-!
# How a write meets the ranges of a child

`snapx_get_range_info` keeps a pointer to the range of the block before. The pointer is
used again as long as the range does not end, whatever stands before it in the table,
and it is also kept when no range is found, so that the last range seen answers for the
blocks behind it. `scorw_is_in_range`, on the side of the parent, has no such pointer.

`range_scan_history_free_iff` says for which tables the two agree: for all scans of
ascending blocks, and for those of consecutive blocks, which
`scorw_write_child_blocks_begin` makes.
-/

namespace FlexClone.Scorw.Cow

variable {ranges : List ChildRange} {r : ChildRange} {cr : Option ChildRange} {i s : Nat}

/-- The first range of the table that contains the block. -/
def firstRange (ranges : List ChildRange) (blk : Nat) : Option ChildRange :=
  ranges.find? (·.contains blk)

/-- What that range says, and copy-on-write where there is none. -/
def rangeBehavior (ranges : List ChildRange) (blk : Nat) : WriteCh :=
  ((firstRange ranges blk).map (·.snapxBehavior)).getD .cow

def WriteCh.isCow (w : WriteCh) : Bool := decide (w = .cow ∨ w = .cowRo)

/-- The answers of `snapx_get_range_info` along a scan, with the pointer carried on. -/
def rangeScan (ranges : List ChildRange) : Option ChildRange → List Nat → List WriteCh
  | _, [] => []
  | cr, blk :: blks =>
      let got := snapxGetRangeInfo ranges cr blk
      got.1 :: rangeScan ranges got.2 blks

theorem isInRange_eq (ranges : List ChildRange) (blk : Nat) :
    isInRange ranges blk = (rangeBehavior ranges blk).isCow := by
  unfold isInRange rangeBehavior firstRange
  cases ranges.find? (·.contains blk) with
  | none => rfl
  | some r => rfl

theorem rangeBehavior_of_first (first : firstRange ranges i = some r) :
    rangeBehavior ranges i = r.snapxBehavior := by
  unfold rangeBehavior
  rw [first]
  rfl

theorem rangeBehavior_of_none (gap : firstRange ranges i = none) :
    rangeBehavior ranges i = .cow := by
  unfold rangeBehavior
  rw [gap]
  rfl

theorem le_stop_of_first (first : firstRange ranges s = some r) : s ≤ r.stop := by
  have inside : r.contains s = true :=
    List.find?_some (p := fun q : ChildRange => q.contains s) first
  exact (of_decide_eq_true inside).2

theorem ne_nil_of_first (first : firstRange ranges s = some r) : ranges ≠ [] := by
  rintro rfl
  cases first

/-! ## One block -/

theorem snapxGetRangeInfo_first (first : firstRange ranges i = some r)
    (stale : ∀ q, cr = some q → q.stop < i) :
    snapxGetRangeInfo ranges cr i = (r.snapxBehavior, some r) := by
  have searches : cr.all (·.stop < i) = true := by
    cases cr with
    | none => rfl
    | some q => exact decide_eq_true (stale q rfl)
  unfold firstRange at first
  unfold snapxGetRangeInfo
  rw [if_neg (ne_nil_of_first first), if_pos searches, first]
  rfl

theorem snapxGetRangeInfo_none (gap : firstRange ranges i = none) :
    snapxGetRangeInfo ranges none i = (.cow, none) := by
  unfold firstRange at gap
  unfold snapxGetRangeInfo
  rw [gap]
  split <;> rfl

/-- Without a pointer the table is searched. -/
theorem snapxGetRangeInfo_start (ranges : List ChildRange) (i : Nat) :
    (snapxGetRangeInfo ranges none i).1 = rangeBehavior ranges i := by
  cases first : firstRange ranges i with
  | none => rw [snapxGetRangeInfo_none first, rangeBehavior_of_none first]
  | some r =>
      rw [snapxGetRangeInfo_first first (fun q none => by cases none),
        rangeBehavior_of_first first]

/-- The range seen last answers as long as it does not end, and for a block without a
range. -/
theorem snapxGetRangeInfo_kept (first : firstRange ranges s = some r)
    (keeps : i ≤ r.stop ∨ firstRange ranges i = none) :
    snapxGetRangeInfo ranges (some r) i = (r.snapxBehavior, some r) := by
  have pointer : (if (some r).all (·.stop < i) then (ranges.find? (·.contains i)).or (some r)
      else some r) = some r := by
    split
    case isTrue searches =>
      have past : r.stop < i := of_decide_eq_true searches
      have gap : ranges.find? (·.contains i) = none := by
        rcases keeps with inside | gap
        · omega
        · exact gap
      rw [gap]
      rfl
    case isFalse => rfl
  unfold snapxGetRangeInfo
  rw [if_neg (ne_nil_of_first first), pointer]

/-! ## Tables on which the pointer does not matter -/

/-- The first range of a block speaks for every later block it contains. -/
def RunsOn (ranges : List ChildRange) : Prop :=
  ∀ s r, firstRange ranges s = some r → ∀ i, s ≤ i → i ≤ r.stop → i < 2 ^ 32 →
    rangeBehavior ranges i = r.snapxBehavior

/-- Blocks without a range come after ranges with copy-on-write only. -/
def GapsAreCow (ranges : List ChildRange) : Prop :=
  ∀ s r, firstRange ranges s = some r → ∀ i, r.stop < i → i < 2 ^ 32 →
    firstRange ranges i = none → r.snapxBehavior = .cow

/-- The same for the block right behind a range. -/
def NextGapIsCow (ranges : List ChildRange) : Prop :=
  ∀ s r, firstRange ranges s = some r → r.stop + 1 < 2 ^ 32 →
    firstRange ranges (r.stop + 1) = none → r.snapxBehavior = .cow

/-- The scan answers as a search for every block would, and agrees with the side of the
parent. -/
structure HistoryFree (ranges : List ChildRange) (blks : List Nat) : Prop where
  behavior : rangeScan ranges none blks = blks.map (rangeBehavior ranges)
  agrees : (rangeScan ranges none blks).map WriteCh.isCow = blks.map (isInRange ranges)

theorem historyFree_iff {blks : List Nat} :
    HistoryFree ranges blks ↔ rangeScan ranges none blks = blks.map (rangeBehavior ranges) := by
  constructor
  · exact HistoryFree.behavior
  · intro same
    refine ⟨same, ?_⟩
    rw [same, List.map_map]
    exact List.map_congr_left fun blk _ => (isInRange_eq ranges blk).symm

/-- One block of a scan: the answer is right, and the pointer is at the range of the
block or stays where it is. -/
theorem snapxGetRangeInfo_spec (runsOn : RunsOn ranges) (below : i < 2 ^ 32)
    (seen : ∀ q, cr = some q → ∃ s ≤ i, firstRange ranges s = some q)
    (stale : ∀ q, cr = some q → q.stop < i → firstRange ranges i = none →
      q.snapxBehavior = .cow) :
    (snapxGetRangeInfo ranges cr i).1 = rangeBehavior ranges i ∧
      ∀ q, (snapxGetRangeInfo ranges cr i).2 = some q →
        firstRange ranges i = some q ∨ cr = some q ∧ (q.stop < i → firstRange ranges i = none) := by
  cases cr with
  | none =>
      cases first : firstRange ranges i with
      | none =>
          rw [snapxGetRangeInfo_none first, rangeBehavior_of_none first]
          exact ⟨rfl, fun q impossible => by cases impossible⟩
      | some r =>
          rw [snapxGetRangeInfo_first first (fun q none => by cases none),
            rangeBehavior_of_first first]
          exact ⟨rfl, fun q same => .inl same⟩
  | some q =>
      obtain ⟨s, before, first⟩ := seen q rfl
      by_cases inside : i ≤ q.stop
      · rw [snapxGetRangeInfo_kept first (.inl inside), runsOn s q first i before inside below]
        refine ⟨rfl, fun q' same => .inr ⟨same, fun past => ?_⟩⟩
        cases same
        omega
      · have past : q.stop < i := Nat.not_le.mp inside
        cases next : firstRange ranges i with
        | none =>
            rw [snapxGetRangeInfo_kept first (.inr next), rangeBehavior_of_none next,
              stale q rfl past next]
            exact ⟨rfl, fun q' same => .inr ⟨same, fun _ => rfl⟩⟩
        | some r =>
            rw [snapxGetRangeInfo_first next (fun q' same => by cases same; exact past),
              rangeBehavior_of_first next]
            exact ⟨rfl, fun q' same => .inl same⟩

/-- From the first range of a block on, a scan has its answer as long as the pointer is
kept. -/
theorem rangeScan_kept (first : firstRange ranges s = some r) {blks : List Nat}
    (keeps : ∀ i ∈ blks, i ≤ r.stop ∨ firstRange ranges i = none) :
    rangeScan ranges (some r) blks = blks.map fun _ => r.snapxBehavior := by
  induction blks with
  | nil => rfl
  | cons i blks ih =>
      have here := snapxGetRangeInfo_kept first (keeps i List.mem_cons_self)
      unfold rangeScan
      dsimp only
      rw [here, ih fun j member => keeps j (List.mem_cons_of_mem i member), List.map_cons]

theorem HistoryFree.of_kept {blks : List Nat} (free : HistoryFree ranges (s :: blks))
    (first : firstRange ranges s = some r)
    (keeps : ∀ i ∈ blks, i ≤ r.stop ∨ firstRange ranges i = none) (member : i ∈ blks) :
    rangeBehavior ranges i = r.snapxBehavior := by
  have answers := free.behavior
  unfold rangeScan at answers
  dsimp only at answers
  rw [snapxGetRangeInfo_first first (fun _ none => by cases none), rangeScan_kept first keeps,
    List.map_cons] at answers
  exact (List.map_inj_left.mp (List.cons.inj answers).2 i member).symm

/-- Ascending blocks: the invariant is that the pointer is at the first range of a block
that is not behind. -/
theorem rangeScan_ascending (runsOn : RunsOn ranges) (gaps : GapsAreCow ranges)
    {blks : List Nat} (ascending : blks.Pairwise (· < ·)) (below : ∀ i ∈ blks, i < 2 ^ 32)
    (seen : ∀ q, cr = some q → ∃ s, firstRange ranges s = some q ∧ ∀ i ∈ blks, s ≤ i) :
    rangeScan ranges cr blks = blks.map (rangeBehavior ranges) := by
  induction blks generalizing cr with
  | nil => rfl
  | cons i blks ih =>
      obtain ⟨least, ascending⟩ := List.pairwise_cons.mp ascending
      obtain ⟨answer, pointer⟩ := snapxGetRangeInfo_spec runsOn
        (below i List.mem_cons_self)
        (fun q same => by
          obtain ⟨s, first, before⟩ := seen q same
          exact ⟨s, before i List.mem_cons_self, first⟩)
        (fun q same past gap => by
          obtain ⟨s, first, _⟩ := seen q same
          exact gaps s q first i past (below i List.mem_cons_self) gap)
      unfold rangeScan
      dsimp only
      rw [answer, List.map_cons, ih ascending fun j member =>
        below j (List.mem_cons_of_mem i member)]
      intro q same
      rcases pointer q same with first | ⟨kept, _⟩
      · exact ⟨i, first, fun j member => (least j member).le⟩
      · obtain ⟨s, first, before⟩ := seen q kept
        exact ⟨s, first, fun j member => before j (List.mem_cons_of_mem i member)⟩

/-- Consecutive blocks: the block right behind the range of the pointer has been seen to
have none, once the scan is past it. -/
theorem rangeScan_consecutive (runsOn : RunsOn ranges) (next : NextGapIsCow ranges) {n : Nat}
    (below : i + n ≤ 2 ^ 32)
    (seen : ∀ q, cr = some q → ∃ s ≤ i, firstRange ranges s = some q ∧
      (q.stop + 1 < i → firstRange ranges (q.stop + 1) = none)) :
    rangeScan ranges cr (List.range' i n) = (List.range' i n).map (rangeBehavior ranges) := by
  induction n generalizing i cr with
  | zero => rfl
  | succ n ih =>
      obtain ⟨answer, pointer⟩ := snapxGetRangeInfo_spec (i := i) runsOn (by omega)
        (fun q same => by
          obtain ⟨s, before, first, _⟩ := seen q same
          exact ⟨s, before, first⟩)
        (fun q same past gap => by
          obtain ⟨s, _, first, behind⟩ := seen q same
          refine next s q first (by omega) ?_
          rcases Nat.lt_or_eq_of_le past with earlier | here
          · exact behind earlier
          · rw [← here] at gap
            exact gap)
      rw [List.range'_succ]
      unfold rangeScan
      dsimp only
      rw [answer, List.map_cons, ih (by omega)]
      intro q same
      rcases pointer q same with first | ⟨kept, gap⟩
      · have inside := le_stop_of_first first
        exact ⟨i, Nat.le_succ i, first, fun past => by omega⟩
      · obtain ⟨s, before, first, behind⟩ := seen q kept
        refine ⟨s, by omega, first, fun past => ?_⟩
        rcases Nat.lt_or_eq_of_le (Nat.lt_succ_iff.mp past) with earlier | here
        · exact behind earlier
        · rw [here]
          exact gap (by omega)

/-- The pointer never shows, exactly for tables in which the first range of a block speaks
for every later block it contains, and a range that is not copy-on-write has no gap
behind it: nowhere for all ascending scans, not right behind it for those of consecutive
blocks. -/
theorem range_scan_history_free_iff (ranges : List ChildRange) :
    ((∀ blks : List Nat, blks.Pairwise (· < ·) → (∀ blk ∈ blks, blk < 2 ^ 32) →
        HistoryFree ranges blks) ↔ RunsOn ranges ∧ GapsAreCow ranges) ∧
      ((∀ start n, start + n ≤ 2 ^ 32 → HistoryFree ranges (List.range' start n)) ↔
        RunsOn ranges ∧ NextGapIsCow ranges) := by
  refine ⟨⟨fun free => ?_, fun ⟨runsOn, gaps⟩ => ?_⟩, ⟨fun free => ?_, fun ⟨runsOn, next⟩ => ?_⟩⟩
  · -- two blocks are enough
    have both : ∀ s r i, firstRange ranges s = some r → s < i → i < 2 ^ 32 →
        i ≤ r.stop ∨ firstRange ranges i = none → rangeBehavior ranges i = r.snapxBehavior := by
      intro s r i first later below keeps
      have scan := free [s, i] (List.pairwise_pair.mpr later) (by
        intro blk member
        simp only [List.mem_cons, List.not_mem_nil, or_false] at member
        omega)
      refine scan.of_kept first ?_ (List.mem_singleton.mpr rfl)
      intro j member
      rw [List.mem_singleton.mp member]
      exact keeps
    refine ⟨fun s r first i before inside below => ?_, fun s r first i past below gap => ?_⟩
    · rcases Nat.lt_or_eq_of_le before with later | rfl
      · exact both s r i first later below (.inl inside)
      · exact rangeBehavior_of_first first
    · have inside := le_stop_of_first first
      rw [← both s r i first (by omega) below (.inr gap), rangeBehavior_of_none gap]
  · intro blks ascending below
    exact historyFree_iff.mpr
      (rangeScan_ascending runsOn gaps ascending below fun q none => by cases none)
  · have along : ∀ s r i, firstRange ranges s = some r → s < i → i < 2 ^ 32 →
        (∀ j, s < j → j ≤ i → j ≤ r.stop ∨ firstRange ranges j = none) →
        rangeBehavior ranges i = r.snapxBehavior := by
      intro s r i first later below keeps
      have scan := free s (i - s + 1) (by omega)
      rw [List.range'_succ] at scan
      refine scan.of_kept first (fun j member => ?_) (List.mem_range'_1.mpr (by omega))
      have bounds := List.mem_range'_1.mp member
      exact keeps j (by omega) (by omega)
    refine ⟨fun s r first i before inside below => ?_, fun s r first below gap => ?_⟩
    · rcases Nat.lt_or_eq_of_le before with later | rfl
      · exact along s r i first later below fun j _ upto => .inl (le_trans upto inside)
      · exact rangeBehavior_of_first first
    · have inside := le_stop_of_first first
      rw [← along s r (r.stop + 1) first (by omega) below ?_, rangeBehavior_of_none gap]
      intro j _ upto
      rcases Nat.lt_or_eq_of_le upto with earlier | rfl
      · exact .inl (by omega)
      · exact .inr gap
  · intro start n below
    exact historyFree_iff.mpr
      (rangeScan_consecutive runsOn next below fun q none => by cases none)

/-- A block behind a shared range passes for shared, and a range that begins inside
another one is not seen although it is first in the table. -/
theorem range_scan_history_free_fails :
    ¬ HistoryFree [⟨0, 0, .shared⟩] [0, 1] ∧
      ¬ HistoryFree [⟨1, 1, .cow⟩, ⟨0, 5, .shared⟩] [0, 1] := by
  constructor
  · intro free
    have answers := free.behavior
    revert answers
    decide
  · intro free
    have answers := free.behavior
    revert answers
    decide

end FlexClone.Scorw.Cow
