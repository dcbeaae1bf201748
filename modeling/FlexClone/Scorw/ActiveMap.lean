import FlexClone.Run
import FlexClone.Threads

/-!
# The active map

Copying a block to a child and reading a block that is not copied yet are kept
apart by an entry of the child's active map. An entry sums up its holders in a bit
mask and a number of readers: `scorw_get_uncopied_block` tests the mask, waiting
until it is compatible, `scorw_put_uncopied_block` clears a bit of it, and
`scorw_remove_uncopied_block` frees an entry that nobody uses. All of them run
under the spin lock of the entry's list, except while one waits.

The test passes for a copier as soon as there is a reader, even if there is another
copier too. `active_map_exclusion` is what holds in runs where no copier makes its
test at such a moment and no entry fails to be allocated.
-/

namespace FlexClone.Scorw.ActiveMap

/-- What an entry is taken for. -/
inductive ProcessingType
  | reading
  | copying
  | copyingExcl
  deriving DecidableEq

instance : Fintype ProcessingType :=
  ⟨{.reading, .copying, .copyingExcl}, by rintro (_ | _ | _) <;> simp⟩

/-- The bits `READING`, `COPYING` and `COPYING_EXCL` of a `processing_type`. -/
structure Mask where
  reading : Bool
  copying : Bool
  copyingExcl : Bool
  deriving DecidableEq

/-- `NOP` -/
def Mask.nop : Mask := ⟨false, false, false⟩

def ProcessingType.mask : ProcessingType → Mask
  | .reading => ⟨true, false, false⟩
  | .copying => ⟨false, true, false⟩
  | .copyingExcl => ⟨false, false, true⟩

/-- `pt1 | pt2` -/
def Mask.or (pt1 pt2 : Mask) : Mask :=
  ⟨pt1.reading || pt2.reading, pt1.copying || pt2.copying, pt1.copyingExcl || pt2.copyingExcl⟩

/-- `~pt2 & pt1` -/
def Mask.without (pt1 pt2 : Mask) : Mask :=
  ⟨!pt2.reading && pt1.reading, !pt2.copying && pt1.copying, !pt2.copyingExcl && pt1.copyingExcl⟩

/-- `scorw_is_compatible_processing_type` -/
def isCompatibleProcessingType (pt1 pt2 : Mask) : Bool :=
  pt1.reading && pt2.copying || pt1.copying && pt2.reading || pt1.reading && pt2.reading ||
    decide (pt1 = .nop) || decide (pt2 = .nop)

/-- `struct uncopied_block` -/
structure UncopiedBlock where
  processingType : Mask
  numReaders : Int
  numWaiting : Int

namespace UncopiedBlock

/-- An entry that is allocated for its first holder. -/
def alloc (pt : ProcessingType) : UncopiedBlock :=
  ⟨pt.mask, if pt = .reading then 1 else 0, 0⟩

/-- One more holder. -/
def grant (e : UncopiedBlock) (pt : ProcessingType) : UncopiedBlock :=
  { e with
    processingType := e.processingType.or pt.mask
    numReaders := if pt = .reading then e.numReaders + 1 else e.numReaders }

/-- `scorw_put_uncopied_block` of an entry that is found: only the last reader clears
the bit of the readers. -/
def put (e : UncopiedBlock) (pt : ProcessingType) : UncopiedBlock :=
  if pt = .reading ∧ 0 < e.numReaders - 1 then { e with numReaders := e.numReaders - 1 }
  else
    { e with
      processingType := e.processingType.without pt.mask
      numReaders := if pt = .reading then e.numReaders - 1 else e.numReaders }

/-- The test of `scorw_remove_uncopied_block`. -/
def unused (e : UncopiedBlock) : Prop := e.processingType = .nop ∧ e.numWaiting = 0

instance (e : UncopiedBlock) : Decidable e.unused := inferInstanceAs (Decidable (_ ∧ _))

end UncopiedBlock

/-- Where a thread is. A thread that got no entry for lack of memory goes on as if it
held one. -/
inductive Place
  | idle
  | waiting (pt : ProcessingType)
  | holding (pt : ProcessingType)
  deriving DecidableEq

/-- What a thread can do next. -/
inductive Move
  /-- `scorw_get_uncopied_block`; `memory` is whether `kzalloc` succeeds -/
  | get (pt : ProcessingType) (memory : Bool)
  /-- a waiting thread is woken, or its time is up -/
  | wake
  | put
  | remove
  deriving DecidableEq

/-- One move of a thread on the entry of a block, if there is one. -/
def move (entry : Option UncopiedBlock) :
    Place → Move → Option (Int × Place × Option UncopiedBlock)
  | .idle, .get pt memory =>
      match entry with
      | none => some (0, .holding pt, if memory then some (.alloc pt) else none)
      | some e =>
          if isCompatibleProcessingType e.processingType pt.mask then
            some (0, .holding pt, some (e.grant pt))
          else some (0, .waiting pt, some { e with numWaiting := e.numWaiting + 1 })
  | .waiting pt, .wake =>
      entry.map fun e =>
        if isCompatibleProcessingType e.processingType pt.mask then
          (0, .holding pt, some ({ e with numWaiting := e.numWaiting - 1 }.grant pt))
        else (0, .waiting pt, some e)
  | .holding pt, .put =>
      match entry with
      | none => some (-1, .idle, none)
      | some e => some (0, .idle, some (e.put pt))
  | .waiting _, .remove => none
  | place, .remove =>
      some (0, place, entry.bind fun e => if e.unused then none else some e)
  | _, _ => none

/-- Threads on one block of one child. -/
abbrev System (τ : Type*) := Threads τ (Option UncopiedBlock) Place

variable {τ : Type*} [DecidableEq τ]

def step (s : System τ) (act : τ × Move) : Option (Int × System τ) :=
  Threads.step (fun _ => move) s act.1 act.2

/-- Nobody uses the block. -/
def init : System τ := ⟨none, fun _ => .idle⟩

/-! ## Exclusion -/

/-- The place of a copier of either kind. -/
def Place.Copies (p : Place) : Prop := p = .holding .copying ∨ p = .holding .copyingExcl

instance : DecidablePred Place.Copies := fun _ => inferInstanceAs (Decidable (_ ∨ _))

def Place.waits : Place → Bool
  | .waiting _ => true
  | .idle | .holding _ => false

/-- Copiers exclude each other, and an exclusive one excludes everybody. -/
structure Exclusive (s : System τ) : Prop where
  copier : ∀ t u, (s.place t).Copies → (s.place u).Copies → t = u
  alone : ∀ t u pt, s.place t = .holding .copyingExcl → s.place u = .holding pt → t = u

/-- A step that frees the entry is taken when nobody holds it or waits for it. -/
def FreesUnused (s : System τ) (act : τ × Move) : Prop :=
  ∀ reply s', step s act = some (reply, s') → s.shared.isSome = true → s'.shared = none →
    ∀ t, s.place t = .idle

/-- The thread makes a copier's test, on entering or on waking up. -/
def TestsCopying (s : System τ) (act : τ × Move) : Prop :=
  s.place act.1 = .idle ∧ (∃ memory, act.2 = .get .copying memory) ∨
    s.place act.1 = .waiting .copying ∧ act.2 = .wake

/-- No entry is missing for lack of memory, and no copier makes its test while both a
reader and a copier hold the block. -/
structure Careful (s : System τ) (act : τ × Move) : Prop where
  memory : ∀ pt, act.2 ≠ .get pt false
  test : TestsCopying s act → ∀ t u, s.place t = .holding .reading →
    s.place u ≠ .holding .copying

instance [Fintype τ] (s : System τ) (act : τ × Move) : Decidable (Careful s act) :=
  have : Decidable (TestsCopying s act) := inferInstanceAs (Decidable (_ ∨ _))
  decidable_of_iff ((∀ pt, act.2 ≠ .get pt false) ∧ (TestsCopying s act →
      ∀ t u, s.place t = .holding .reading → s.place u ≠ .holding .copying))
    ⟨fun ⟨memory, test⟩ => ⟨memory, test⟩, fun careful => ⟨careful.memory, careful.test⟩⟩

/-! ## Holders and waiters in numbers -/

/-- How many threads hold a block for each purpose, and how many wait for it. -/
@[ext]
structure Tally where
  readers : Nat
  copiers : Nat
  exclusives : Nat
  waiters : Nat

namespace Tally

/-- One more thread at a place. -/
def add (n : Tally) : Place → Tally
  | .idle => n
  | .waiting _ => { n with waiters := n.waiters + 1 }
  | .holding .reading => { n with readers := n.readers + 1 }
  | .holding .copying => { n with copiers := n.copiers + 1 }
  | .holding .copyingExcl => { n with exclusives := n.exclusives + 1 }

/-- The number of holders for a purpose. -/
def held (n : Tally) : ProcessingType → Nat
  | .reading => n.readers
  | .copying => n.copiers
  | .copyingExcl => n.exclusives

/-- The entry that sums up the threads. -/
def entry (n : Tally) : UncopiedBlock :=
  ⟨⟨n.readers != 0, n.copiers != 0, n.exclusives != 0⟩, n.readers, n.waiters⟩

/-- Nobody holds or waits. -/
def Empty (n : Tally) : Prop :=
  n.readers = 0 ∧ n.copiers = 0 ∧ n.exclusives = 0 ∧ n.waiters = 0

structure Safe (n : Tally) : Prop where
  copiers : n.copiers + n.exclusives ≤ 1
  alone : 0 < n.exclusives → n.readers = 0

variable {n : Tally}

theorem compatible_iff (pt : ProcessingType) :
    isCompatibleProcessingType n.entry.processingType pt.mask = true ↔
      (n.readers = 0 ∧ n.copiers = 0 ∧ n.exclusives = 0) ∨
        pt ≠ .copyingExcl ∧ 0 < n.readers ∨ pt = .reading ∧ 0 < n.copiers := by
  cases pt <;>
    simp [isCompatibleProcessingType, entry, ProcessingType.mask, Mask.nop] <;> omega

theorem alloc_eq (empty : n.Empty) (pt : ProcessingType) :
    UncopiedBlock.alloc pt = (n.add (.holding pt)).entry := by
  obtain ⟨readers, copiers, exclusives, waiters⟩ := empty
  cases pt <;>
    simp [UncopiedBlock.alloc, entry, add, ProcessingType.mask, readers, copiers, exclusives,
      waiters]

theorem grant_eq (n : Tally) (pt : ProcessingType) :
    n.entry.grant pt = (n.add (.holding pt)).entry := by
  cases pt <;>
    simp [UncopiedBlock.grant, entry, add, ProcessingType.mask, Mask.or]

theorem wait_eq (n : Tally) (pt : ProcessingType) :
    { n.entry with numWaiting := n.entry.numWaiting + 1 } = (n.add (.waiting pt)).entry := by
  simp [entry, add]

theorem stopWaiting_eq (n : Tally) (pt : ProcessingType) :
    { (n.add (.waiting pt)).entry with
      numWaiting := (n.add (.waiting pt)).entry.numWaiting - 1 } = n.entry := by
  simp [entry, add]

/-- Putting an entry takes the thread off the sum, as long as the other copiers were
kept out. -/
theorem put_eq {pt : ProcessingType} (safe : (n.add (.holding pt)).Safe) :
    (n.add (.holding pt)).entry.put pt = n.entry := by
  obtain ⟨copiers, alone⟩ := safe
  cases pt with
  | reading =>
      by_cases last : n.readers = 0
      · simp [UncopiedBlock.put, entry, add, ProcessingType.mask, Mask.without, last]
      · have more : 0 < n.readers := Nat.pos_of_ne_zero last
        simp [UncopiedBlock.put, entry, add, last, more]
  | copying =>
      have only : n.copiers = 0 := by
        simp only [add] at copiers
        omega
      simp [UncopiedBlock.put, entry, add, ProcessingType.mask, Mask.without, only]
  | copyingExcl =>
      have only : n.exclusives = 0 := by
        simp only [add] at copiers
        omega
      simp [UncopiedBlock.put, entry, add, ProcessingType.mask, Mask.without, only]

theorem unused_iff : n.entry.unused ↔ n.Empty := by
  simp [UncopiedBlock.unused, Empty, entry, Mask.nop]
  omega

theorem Empty.entry_eq (empty : n.Empty) : n.entry = ⟨.nop, 0, 0⟩ := by
  obtain ⟨readers, copiers, exclusives, waiters⟩ := empty
  simp [entry, readers, copiers, exclusives, waiters, Mask.nop]

theorem Empty.safe (empty : n.Empty) : n.Safe := by
  obtain ⟨readers, copiers, exclusives, _⟩ := empty
  exact ⟨by omega, by omega⟩

/-- A granted test keeps the exclusion, unless it is a copier's test beside a reader
and another copier. -/
theorem Safe.grant {pt : ProcessingType} (safe : n.Safe)
    (granted : isCompatibleProcessingType n.entry.processingType pt.mask = true)
    (careful : pt = .copying → 0 < n.readers → n.copiers = 0) : (n.add (.holding pt)).Safe := by
  obtain ⟨copiers, alone⟩ := safe
  rw [compatible_iff] at granted
  cases pt with
  | reading =>
      refine ⟨copiers, fun excl => ?_⟩
      simp only [add] at excl
      omega
  | copying =>
      simp only [ne_eq, reduceCtorEq, not_false_eq_true, true_and, false_and, or_false] at granted
      have none_copies : n.copiers = 0 ∧ n.exclusives = 0 := by
        have := careful rfl
        omega
      exact ⟨by simp only [add]; omega, fun excl => by simp only [add] at excl; omega⟩
  | copyingExcl =>
      simp only [ne_eq, not_true_eq_false, reduceCtorEq, false_and, or_false] at granted
      exact ⟨by simp only [add]; omega, fun _ => granted.1⟩

theorem Safe.of_add {p : Place} (safe : (n.add p).Safe) : n.Safe := by
  obtain ⟨copiers, alone⟩ := safe
  rcases p with _ | _ | _ | _ | _
  all_goals
    simp only [add] at copiers alone
    exact ⟨by omega, by omega⟩

end Tally

section Counts

variable {τ : Type*} [Fintype τ]

/-- The threads in numbers. -/
def tally (place : τ → Place) : Tally where
  readers := Threads.count (· = .holding .reading) place
  copiers := Threads.count (· = .holding .copying) place
  exclusives := Threads.count (· = .holding .copyingExcl) place
  waiters := Threads.count (·.waits = true) place

theorem held_pos_iff (pt : ProcessingType) (place : τ → Place) :
    0 < (tally place).held pt ↔ ∃ t, place t = .holding pt := by
  cases pt <;> simp only [Tally.held, tally, Threads.count_pos_iff]

theorem held_eq_zero_iff (pt : ProcessingType) (place : τ → Place) :
    (tally place).held pt = 0 ↔ ∀ t, place t ≠ .holding pt := by
  cases pt <;> simp only [Tally.held, tally, Threads.count_eq_zero_iff, ne_eq]

/-- The other threads, and the one that moves. -/
theorem tally_update [DecidableEq τ] (place : τ → Place) (t : τ) (p : Place) :
    tally (Function.update place t p) = (tally (Function.update place t .idle)).add p := by
  have moved (P : Place → Prop) [DecidablePred P] :=
    Threads.count_update (P := P) (Function.update place t .idle) t p
  simp only [Function.update_idem, Function.update_self] at moved
  have readers := moved (· = .holding .reading)
  have copiers := moved (· = .holding .copying)
  have exclusives := moved (· = .holding .copyingExcl)
  have waiters := moved (·.waits = true)
  rcases p with _ | pt | pt
  · simp_all [tally, Tally.add, Place.waits]
  · simp_all [tally, Tally.add, Place.waits]
  · cases pt <;> simp_all [tally, Tally.add, Place.waits]

theorem tally_place [DecidableEq τ] (place : τ → Place) (t : τ) :
    tally place = (tally (Function.update place t .idle)).add (place t) := by
  rw [← tally_update, Function.update_eq_self]

theorem idle_of_empty {place : τ → Place} (empty : (tally place).Empty) (t : τ) :
    place t = .idle := by
  obtain ⟨readers, copiers, exclusives, waiters⟩ := empty
  simp only [tally, Threads.count_eq_zero_iff] at readers copiers exclusives waiters
  have reading := readers t
  have copying := copiers t
  have excluding := exclusives t
  have waiting := waiters t
  rcases here : place t with _ | pt | pt
  · rfl
  · simp [here, Place.waits] at waiting
  · cases pt <;> simp_all

/-- The entry sums up the threads, and they exclude each other. Where there is no
entry there is nothing to sum up. -/
structure Sound (s : System τ) : Prop where
  entry : s.shared.getD ⟨.nop, 0, 0⟩ = (tally s.place).entry
  safe : (tally s.place).Safe

theorem Sound.empty {s : System τ} (sound : Sound s) (missing : s.shared = none) :
    (tally s.place).Empty := by
  have entry := sound.entry
  rw [missing] at entry
  apply Tally.unused_iff.mp
  rw [← entry]
  exact ⟨rfl, rfl⟩

theorem Sound.some {s : System τ} {e : UncopiedBlock} (sound : Sound s)
    (here : s.shared = Option.some e) : e = (tally s.place).entry := by
  have entry := sound.entry
  rwa [here] at entry

theorem sound_init : Sound (init : System τ) := by
  have empty : (tally fun _ : τ => Place.idle).Empty := by
    simp only [Tally.Empty, tally, Threads.count_eq_zero_iff]
    simp [Place.waits]
  exact ⟨empty.entry_eq.symm, empty.safe⟩

/-- Removing an entry that nobody uses changes nothing in the sum. -/
theorem remove_entry {s : System τ} (sound : Sound s) :
    (s.shared.bind fun e => if e.unused then none else Option.some e).getD ⟨.nop, 0, 0⟩ =
      (tally s.place).entry := by
  cases here : s.shared with
  | none =>
      rw [← sound.entry, here]
      rfl
  | some e =>
      simp only [Option.bind_some]
      rw [← sound.some here]
      split
      case isTrue unused =>
        have empty := Tally.unused_iff.mp (sound.some here ▸ unused)
        rw [sound.some here]
        exact empty.entry_eq.symm
      case isFalse => rfl

theorem Sound.exclusive {s : System τ} (sound : Sound s) : Exclusive s := by
  obtain ⟨copiers, alone⟩ := sound.safe
  have one {pt : ProcessingType} (copies : pt ≠ .reading) :
      Threads.count (· = .holding pt) s.place ≤ 1 := by
    cases pt with
    | reading => exact (copies rfl).elim
    | copying => exact le_trans (Nat.le_add_right _ _) copiers
    | copyingExcl => exact le_trans (Nat.le_add_left _ _) copiers
  -- a copier and an exclusive copier would be two
  have apart {t u : τ} (copying : s.place t = .holding .copying)
      (excl : s.place u = .holding .copyingExcl) : False := by
    have first : 0 < (tally s.place).copiers := (held_pos_iff .copying _).mpr ⟨t, copying⟩
    have second : 0 < (tally s.place).exclusives :=
      (held_pos_iff .copyingExcl _).mpr ⟨u, excl⟩
    omega
  constructor
  · rintro t u (first | first) (second | second)
    · exact Threads.eq_of_count_le_one (one (by decide)) first second
    · exact (apart first second).elim
    · exact (apart second first).elim
    · exact Threads.eq_of_count_le_one (one (by decide)) first second
  · intro t u pt excl holds
    cases pt with
    | reading =>
        have present := (held_pos_iff .copyingExcl s.place).mpr ⟨t, excl⟩
        exact ((held_eq_zero_iff .reading s.place).mp (alone present) u holds).elim
    | copying => exact (apart holds excl).elim
    | copyingExcl => exact Threads.eq_of_count_le_one (one (by decide)) excl holds

variable [DecidableEq τ]

/-- Every careful step keeps the sum and the exclusion. -/
theorem sound_step {s s' : System τ} {act : τ × Move} {reply : Int} (sound : Sound s)
    (careful : Careful s act) (taken : step s act = Option.some (reply, s')) : Sound s' := by
  obtain ⟨t, m⟩ := act
  obtain ⟨place, shared, moved, rfl⟩ := Threads.step_eq_some taken
  -- `others` is the sum without the thread that moves
  have all := tally_place s.place t
  have after := tally_update s.place t place
  generalize tally (Function.update s.place t .idle) = others at all after
  have safe : (others.add (s.place t)).Safe := all ▸ sound.safe
  -- a copier that makes its test is not beside a reader and another copier
  have beside {pt : ProcessingType} (tests : pt = .copying → TestsCopying s (t, m))
      (away : s.place t = .idle ∨ s.place t = .waiting pt) :
      pt = .copying → 0 < others.readers → others.copiers = 0 := by
    intro copying reader
    have same : others.readers = (tally s.place).readers ∧
        others.copiers = (tally s.place).copiers := by
      rcases away with here | here <;> simp [all, here, Tally.add]
    rw [same.1] at reader
    rw [same.2]
    obtain ⟨u, reads⟩ := (held_pos_iff .reading s.place).mp reader
    exact (held_eq_zero_iff .copying s.place).mpr fun v =>
      careful.test (tests copying) u v reads
  suffices shared.getD ⟨.nop, 0, 0⟩ = (others.add place).entry ∧ (others.add place).Safe from
    ⟨this.1.trans (congrArg _ after.symm), after ▸ this.2⟩
  cases here : s.place t with
  | idle =>
      rw [here] at all safe moved
      have all : tally s.place = others := all
      cases m with
      | get pt memory =>
          have granted_safe (granted : isCompatibleProcessingType
              others.entry.processingType pt.mask = true) : (others.add (.holding pt)).Safe :=
            safe.grant granted (beside (fun copying => .inl ⟨here, memory, copying ▸ rfl⟩)
              (.inl here))
          cases entry : s.shared with
          | none =>
              have empty : others.Empty := all ▸ sound.empty entry
              have memory : memory = true := by
                cases memory with
                | true => rfl
                | false => exact (careful.memory pt rfl).elim
              rw [entry] at moved
              simp only [move, memory, if_true, Option.some.injEq, Prod.mk.injEq] at moved
              obtain ⟨_, rfl, rfl⟩ := moved
              refine ⟨Tally.alloc_eq empty pt, granted_safe ?_⟩
              rw [Tally.compatible_iff]
              exact .inl ⟨empty.1, empty.2.1, empty.2.2.1⟩
          | some e =>
              obtain rfl : e = others.entry := (sound.some entry).trans (congrArg _ all)
              rw [entry] at moved
              simp only [move] at moved
              split at moved
              case isTrue granted =>
                cases moved
                exact ⟨others.grant_eq pt, granted_safe granted⟩
              case isFalse =>
                cases moved
                exact ⟨others.wait_eq pt, safe.copiers, safe.alone⟩
      | remove =>
          simp only [move, Option.some.injEq, Prod.mk.injEq] at moved
          obtain ⟨_, rfl, rfl⟩ := moved
          exact ⟨(remove_entry sound).trans (congrArg _ all), safe⟩
      | wake => cases moved
      | put => cases moved
  | waiting pt =>
      rw [here] at all safe moved
      cases m with
      | wake =>
          obtain ⟨e, entry, result⟩ := Option.map_eq_some_iff.mp moved
          obtain rfl : e = (others.add (.waiting pt)).entry :=
            (sound.some entry).trans (congrArg _ all)
          split at result
          case isTrue granted =>
            cases result
            refine ⟨?_, safe.of_add.grant granted
              (beside (fun copying => .inr ⟨copying ▸ here, rfl⟩) (.inr here))⟩
            change UncopiedBlock.grant _ pt = _
            rw [others.stopWaiting_eq pt, others.grant_eq pt]
          case isFalse =>
            cases result
            exact ⟨rfl, safe⟩
      | get => cases moved
      | put => cases moved
      | remove => cases moved
  | holding pt =>
      rw [here] at all safe moved
      cases m with
      | put =>
          cases entry : s.shared with
          | none =>
              have idle := idle_of_empty (sound.empty entry) t
              rw [here] at idle
              cases idle
          | some e =>
              obtain rfl : e = (others.add (.holding pt)).entry :=
                (sound.some entry).trans (congrArg _ all)
              rw [entry] at moved
              cases moved
              exact ⟨Tally.put_eq safe, safe.of_add⟩
      | remove =>
          simp only [move, Option.some.injEq, Prod.mk.injEq] at moved
          obtain ⟨_, rfl, rfl⟩ := moved
          exact ⟨(remove_entry sound).trans (congrArg _ all), safe⟩
      | get => cases moved
      | wake => cases moved

theorem Sound.freesUnused {s : System τ} (sound : Sound s) (act : τ × Move) :
    FreesUnused s act := by
  rintro reply s' taken present gone
  obtain ⟨t, m⟩ := act
  obtain ⟨place, shared, moved, rfl⟩ := Threads.step_eq_some taken
  obtain ⟨e, here⟩ := Option.isSome_iff_exists.mp present
  -- only `remove` leaves no entry where there was one
  have freed (removed : shared = s.shared.bind fun e => if e.unused then none else Option.some e) :
      ∀ t, s.place t = .idle := by
    rw [here, Option.bind_some] at removed
    split at removed
    case isTrue unused =>
      exact idle_of_empty (Tally.unused_iff.mp (sound.some here ▸ unused))
    case isFalse =>
      rw [removed] at gone
      cases gone
  rw [here] at moved freed
  dsimp only at gone
  subst gone
  cases at_place : s.place t with
  | idle =>
      rw [at_place] at moved
      cases m with
      | get pt memory =>
          simp only [move] at moved
          split at moved <;> cases moved
      | remove =>
          simp only [move, Option.some.injEq, Prod.mk.injEq] at moved
          exact freed moved.2.2.symm
      | wake => cases moved
      | put => cases moved
  | waiting pt =>
      rw [at_place] at moved
      cases m with
      | wake =>
          simp only [move, Option.map_some, Option.some.injEq] at moved
          split at moved <;> cases moved
      | get => cases moved
      | put => cases moved
      | remove => cases moved
  | holding pt =>
      rw [at_place] at moved
      cases m with
      | put => cases moved
      | remove =>
          simp only [move, Option.some.injEq, Prod.mk.injEq] at moved
          exact freed moved.2.2.symm
      | get => cases moved
      | wake => cases moved

/-- In every run in which no entry is missing for lack of memory and no copier makes its
test beside a reader and another copier, copiers exclude each other, an exclusive
copier excludes everybody, and an entry is freed only when nobody holds it or waits
for it. -/
theorem active_map_exclusion {acts : List (τ × Move)} {s : System τ}
    (run : Run step Careful init acts s) :
    Exclusive s ∧ ∀ act, FreesUnused s act := by
  have sound := run.invariant (P := Sound)
    (fun _ _ _ _ sound careful taken => sound_step sound careful taken) sound_init
  exact ⟨sound.exclusive, sound.freesUnused⟩

/-- A copier beside a reader, and an exclusive copier that waits for both. -/
theorem active_map_exclusion_beside_reader : ∃ s : System (Fin 3),
    Run step Careful init [(0, .get .reading true), (1, .get .copying true),
      (2, .get .copyingExcl true), (1, .put), (1, .remove), (2, .wake)] s ∧
    s.place 0 = .holding .reading ∧ s.place 2 = .waiting .copyingExcl ∧
    Exclusive s ∧ ∀ act, FreesUnused s act := by
  refine Run.exists_imp (fun s act => decide (Careful s act)) (fun _ _ _ => of_decide_eq_true)
    (Q := fun s => s.place 0 = .holding .reading ∧ s.place 2 = .waiting .copyingExcl)
    (by decide +kernel) ?_
  rintro s run ⟨reads, waits⟩
  exact ⟨reads, waits, active_map_exclusion run⟩

/-- A second copier gets the block beside a reader and a copier. When the first copier
and the reader put it, no bit is left, and the entry is freed while the second copier
still holds it. Without memory for an entry two copiers hold the block at once. -/
theorem active_map_exclusion_fails :
    (∃ s : System (Fin 3), Run step (fun _ _ => True) init
      [(0, .get .reading true), (1, .get .copying true), (2, .get .copying true)] s ∧
      ¬ Exclusive s) ∧
    (∃ s : System (Fin 3), Run step (fun _ _ => True) init
      [(0, .get .reading true), (1, .get .copying true), (2, .get .copying true),
        (1, .put), (0, .put)] s ∧ ¬ FreesUnused s (0, .remove)) ∧
    ∃ s : System (Fin 2), Run step (fun _ _ => True) init
      [(0, .get .copying false), (1, .get .copying false)] s ∧ ¬ Exclusive s := by
  have two {n : Nat} {acts : List (Fin n × Move)} {t u : Fin n} (other : t ≠ u)
      (computed : ((Run.exec step (fun _ _ => true) init acts).any fun s =>
        decide (s.place t = .holding .copying ∧ s.place u = .holding .copying)) = true) :
      ∃ s, Run step (fun _ _ => True) init acts s ∧ ¬ Exclusive s := by
    refine Run.exists_imp (fun _ _ => true) (fun _ _ _ _ => trivial) computed ?_
    rintro s _ ⟨first, second⟩ exclusive
    exact other (exclusive.copier t u (.inl first) (.inl second))
  refine ⟨two (t := 1) (u := 2) (by decide) (by decide +kernel), ?_,
    two (t := 0) (u := 1) (by decide) (by decide +kernel)⟩
  refine Run.exists_imp (fun _ _ => true) (fun _ _ _ _ => trivial)
    (Q := fun s => ((step s (0, .remove)).any fun r => decide (s.place 2 = .holding .copying ∧
      s.shared.isSome = true ∧ r.2.shared = none)) = true) (by decide +kernel) ?_
  intro s _ last frees
  obtain ⟨⟨reply, s'⟩, taken, holds⟩ := (Option.any_eq_true _ _).mp last
  obtain ⟨copies, present, gone⟩ := of_decide_eq_true holds
  have idle := frees reply s' taken present gone 2
  rw [copies] at idle
  cases idle

end Counts

end FlexClone.Scorw.ActiveMap
