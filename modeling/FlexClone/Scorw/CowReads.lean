import FlexClone.Run
import FlexClone.Scorw.Cloning
import FlexClone.Scorw.CowEffects

/-!
# What a copy-on-write child reads

A copy-on-write child should read, below its copy size, what it last wrote, and
where it never wrote what the parent held when the child was made (`Contract`).
`ext4_file_read_iter` of a child ends in the parent's pages and looks neither at
the child's own file nor at the page copies, so what a child reads is what the
parent holds now (`fileReadIter_eq`).

* `contract_step_iff`: a step keeps the contract exactly when it puts no byte other
  than the parent's own below the copy size.
* `read_last_written_iff`: so does a run, in every state of it.
-/

namespace FlexClone.Scorw.Cow

/-! ## The contract -/

/-- What the child should find at an offset: its own last byte, or the parent's
byte from the time it was made. -/
def CowChild.expected (k : CowChild) (f : ByteFile UInt8) (x : Nat) : UInt8 :=
  (k.written x).getD (f.byteAt x)

/-- Every read of the child in slot `c` returns the expected bytes below the copy
size, up to the end of the page it starts in. `f` is the parent's file when the
child was made. -/
def Contract (f : ByteFile UInt8) (c : Nat) (s : Shared) : Prop :=
  ∃ k, s.child c = some k ∧ ∀ env pos count i, i < count → i < pageSize - pos % pageSize →
    pos + i < k.copySize → ∃ bs s', s.fileReadIter env c pos count = some (bs, s') ∧
      bs[i]? = some (k.expected f (pos + i))

section Runs

variable {τ : Type*} {f : ByteFile UInt8} {c : Nat}

/-! ## Reads -/

/-- A read of a child returns what the parent holds, whatever the child wrote and
whatever page copies there are. -/
theorem fileReadIter_eq {s : Shared} {k : CowChild} (here : s.child c = some k)
    (unlogged : Unlogged s.store) (aligned : s.store.origSize % pageSize = 0) (env : Env)
    {pos count i : Nat} (asked : i < count) (inPage : i < pageSize - pos % pageSize)
    (inFile : pos + i < s.par.file.size) (below : pos + i < s.store.origSize) :
    ∃ bs s', s.fileReadIter env c pos count = some (bs, s') ∧
      bs[i]? = some (s.par.file.byteAt (pos + i)) := by
  have found := (lookupPhysicalBlock_unlogged env unlogged k.version (pos / pageSize)).1
  rw [if_pos (by unfold pageSize at *; omega)] at found
  have read : s.fileReadIter env c pos count = some (s.readFromParent env k pos count) := by
    unfold Shared.fileReadIter
    rw [here]
    exact congrArg some (if_neg (by omega))
  refine ⟨(s.readFromParent env k pos count).1, _, read, ?_⟩
  unfold Shared.readFromParent
  simp only [found]
  rw [Nat.div_add_mod']
  unfold Shared.fileRead genericFileRead clampToPage
  dsimp only
  have long : i < min (min count (pageSize - pos % pageSize)) (s.par.file.size - pos) := by
    omega
  rw [List.getElem?_map, List.getElem?_range long]
  rfl

/-- The family as far as it concerns readers of the child in slot `c`, which was made
from the file `f` and has no ranges. -/
structure Kept (f : ByteFile UInt8) (c : Nat) (s : Shared) (k : CowChild) : Prop where
  size_le : f.size ≤ s.par.file.size
  origSize : s.store.origSize = roundUp f.size
  unlogged : Unlogged s.store
  here : s.child c = some k
  copySize : k.copySize = f.size
  ranges : k.ranges = []

theorem Kept.after {s s' : Shared} {k : CowChild} {toPar toChild : Nat → Option UInt8}
    (kept : Kept f c s k) (effect : Effect c toPar toChild s s') :
    ∃ k', Kept f c s' k' ∧ ChildAfter toChild k k' := by
  obtain ⟨k', here, after⟩ := effect.child k kept.here
  exact ⟨k', ⟨le_trans kept.size_le effect.size_le,
    (effect.origSize kept.unlogged).trans kept.origSize, effect.unlogged kept.unlogged, here,
    after.copySize.trans kept.copySize, after.ranges.trans kept.ranges⟩, after⟩

theorem Kept.read {s : Shared} {k : CowChild} (kept : Kept f c s k) (env : Env)
    {pos count i : Nat} (asked : i < count) (inPage : i < pageSize - pos % pageSize)
    (below : pos + i < f.size) :
    ∃ bs s', s.fileReadIter env c pos count = some (bs, s') ∧
      bs[i]? = some (s.par.file.byteAt (pos + i)) := by
  have rounded := le_roundUp f.size
  refine fileReadIter_eq kept.here kept.unlogged ?_ env asked inPage ?_ ?_
  · rw [kept.origSize, roundUp_mod]
  · exact lt_of_lt_of_le below kept.size_le
  · rw [kept.origSize]
    omega

/-- The contract holds exactly as long as the parent holds what the child should find. -/
theorem Kept.contract_iff {s : Shared} {k : CowChild} (kept : Kept f c s k) :
    Contract f c s ↔ ∀ x < f.size, s.par.file.byteAt x = k.expected f x := by
  constructor
  · rintro ⟨k', here, reads⟩ x below
    cases kept.here.symm.trans here
    have first : 0 < pageSize - x % pageSize :=
      Nat.sub_pos_of_lt (Nat.mod_lt x pageSize_pos)
    obtain ⟨bs, _, read, expected⟩ := reads .clean x 1 0 Nat.one_pos first
      (by rw [kept.copySize]; exact below)
    obtain ⟨bs', _, read', actual⟩ := kept.read .clean Nat.one_pos first below
    cases read.symm.trans read'
    exact Option.some.inj (actual.symm.trans expected)
  · intro bytes
    refine ⟨k, kept.here, fun env pos count i asked inPage below => ?_⟩
    rw [kept.copySize] at below
    rw [← bytes _ below]
    exact kept.read env asked inPage below

/-! ## Runs -/

/-- The child in slot `c` has just been made, from a parent with the file `f` whose
writes were never redirected: it has no ranges, it has written nothing, and nobody
is writing to it. -/
structure Made (f : ByteFile UInt8) (c : Nat) (s : System τ) : Prop where
  par : s.shared.par.file = f
  origSize : s.shared.store.origSize = roundUp f.size
  unlogged : Unlogged s.shared.store
  child : ∃ k, s.shared.child c = some k ∧ k.copySize = f.size ∧ k.ranges = [] ∧
    ∀ x, k.written x = none
  noWrite : ∀ t w, (s.place t).write = some w → w.slot ≠ c

/-- The attributes stored by a successful clone are those the child starts with. -/
theorem made_of_cloned {F F' : Family} {req : Family.CloneReq} (cloned : Family.Cloned F req F')
    {s : System τ} {k : CowChild} (par : s.shared.par.file = F.par.file)
    (origSize : s.shared.store.origSize = F'.par.origSize) (unlogged : Unlogged s.shared.store)
    (here : s.shared.child c = some k) (copySize : k.copySize = (F'.child req.child).copySize)
    (ranges : k.ranges = []) (fresh : ∀ x, k.written x = none)
    (noWrite : ∀ t w, (s.place t).write = some w → w.slot ≠ c) : Made F.par.file c s :=
  ⟨par, origSize.trans cloned.origSize, unlogged,
    ⟨k, here, copySize.trans cloned.copySize, ranges, fresh⟩, noWrite⟩

/-- A step that puts, below the copy size of the child in slot `c`, no byte in the
parent or in the child that is not the parent's already. -/
def KeepsBytes (c : Nat) (s : System τ) (act : Act τ) : Prop :=
  ∀ k ∈ s.shared.child c, ∀ x < k.copySize,
    (∀ b ∈ act.toParent s x, b = s.shared.par.file.byteAt x) ∧
      ∀ b ∈ act.toChild c s x, b = s.shared.par.file.byteAt x

instance (c : Nat) (s : System τ) (act : Act τ) : Decidable (KeepsBytes c s act) :=
  inferInstanceAs (Decidable (∀ k ∈ s.shared.child c, ∀ x < k.copySize, _ ∧ _))

/-- What every run keeps: the family as its readers see it, and that no write to the
child goes to the parent. -/
structure Sound (f : ByteFile UInt8) (c : Nat) (s : System τ) : Prop where
  kept : ∃ k, Kept f c s.shared k
  own : ∀ t w, (s.place t).write = some w → w.slot = c → w.shared = false

theorem sound_of_made {s : System τ} (made : Made f c s) : Sound f c s := by
  obtain ⟨k, here, copySize, ranges, _⟩ := made.child
  exact ⟨⟨k, le_of_eq (congrArg _ made.par).symm, made.origSize, made.unlogged, here, copySize,
    ranges⟩, fun t w writes slot => (made.noWrite t w writes slot).elim⟩

theorem contract_of_made {s : System τ} (made : Made f c s) : Contract f c s.shared := by
  obtain ⟨k, kept⟩ := (sound_of_made made).kept
  obtain ⟨k', here, _, _, fresh⟩ := made.child
  cases kept.here.symm.trans here
  refine kept.contract_iff.mpr fun x _ => ?_
  unfold CowChild.expected
  rw [fresh x, made.par]
  rfl

/-- No step puts bytes both in the parent and in the child. -/
theorem Sound.apart {s : System τ} (sound : Sound f c s) (act : Act τ) (x : Nat) :
    act.toParent s x = none ∨ act.toChild c s x = none := by
  cases act with
  | thread t m =>
      unfold Act.toParent Act.toChild
      dsimp only
      cases at_place : s.place t with
      | loops w done =>
          cases m with
          | page outcome =>
              by_cases slot : w.slot = c
              · have own := sound.own t w (by rw [at_place]; rfl) slot
                left
                unfold Shared.toParent
                dsimp only
                rw [own]
                rfl
              · exact .inr (if_neg slot)
          | _ => exact .inr rfl
      | _ => exact .inr rfl
  | copyThread => exact .inl rfl
  | read => exact .inl rfl

variable [DecidableEq τ]

theorem sound_step {s s' : System τ} {act : Act τ} {reply : Reply} (sound : Sound f c s)
    (taken : step s act = some (reply, s')) : Sound f c s' := by
  obtain ⟨k, kept⟩ := sound.kept
  obtain ⟨k', kept', _⟩ := kept.after (step_effect taken)
  refine ⟨⟨k', kept'⟩, ?_⟩
  cases act with
  | thread t m =>
      have taken : Threads.step (fun _ => move) s t m = some (reply, s') := taken
      obtain ⟨place, shared, moved, rfl⟩ := Threads.step_eq_some taken
      refine (Function.forall_update_iff s.place fun _ p =>
        ∀ w, p.write = some w → w.slot = c → w.shared = false).mpr ⟨?_, fun u _ => sound.own u⟩
      intro w writes slot
      rcases move_write moved writes with ⟨w₀, before, slot₀, shared₀⟩ | ⟨k₀, req, here, starts⟩
      · rw [← shared₀]
        exact sound.own t w₀ before (slot₀.trans slot)
      · subst slot
        cases kept.here.symm.trans here
        exact startWrite_shared kept.ranges starts
  | copyThread fails =>
      obtain ⟨shared, moved, same⟩ := Option.map_eq_some_iff.mp taken
      cases same
      exact sound.own
  | read slot pos count env =>
      obtain ⟨r, read, same⟩ := Option.map_eq_some_iff.mp taken
      cases same
      exact sound.own

/-- A byte is put, or not, and the result is the old byte. -/
theorem getD_eq_self_iff {put : Option UInt8} {old : UInt8} :
    put.getD old = old ↔ ∀ b ∈ put, b = old := by
  cases put with
  | none => simp
  | some b => simp

/-- Where the contract holds, it holds after a step exactly when the step puts no new
byte below the copy size. -/
theorem contract_step_iff {s s' : System τ} {act : Act τ} {reply : Reply} (sound : Sound f c s)
    (before : Contract f c s.shared) (taken : step s act = some (reply, s')) :
    Contract f c s'.shared ↔ KeepsBytes c s act := by
  have effect := step_effect (c := c) taken
  obtain ⟨k, kept⟩ := sound.kept
  obtain ⟨k', kept', after⟩ := kept.after effect
  have bytes := kept.contract_iff.mp before
  -- what the child should find afterwards, in terms of the parent's byte before
  have expected {x : Nat} (below : x < f.size) : k'.expected f x =
      (act.toChild c s x).getD (s.shared.par.file.byteAt x) := by
    rw [bytes x below]
    unfold CowChild.expected
    rw [after.written x]
    cases act.toChild c s x <;> rfl
  rw [kept'.contract_iff]
  constructor
  · intro same k₀ here x inside
    cases kept.here.symm.trans here
    rw [kept.copySize] at inside
    have agree := same x inside
    rw [effect.par x, expected inside] at agree
    rw [← getD_eq_self_iff, ← getD_eq_self_iff]
    rcases sound.apart act x with none_here | none_here
    · rw [none_here] at agree ⊢
      exact ⟨rfl, agree.symm⟩
    · rw [none_here] at agree ⊢
      exact ⟨agree, rfl⟩
  · intro keeps x below
    obtain ⟨toPar, toChild⟩ := keeps k kept.here x (by rw [kept.copySize]; exact below)
    rw [effect.par x, expected below, getD_eq_self_iff.mpr toPar, getD_eq_self_iff.mpr toChild]

/-- A copy-on-write child reads what it last wrote, or what the parent held when it was
made, in every state of a run exactly when no step of the run puts, below the copy
size, a byte in the parent or in the child that the parent does not hold there
already. -/
theorem read_last_written_iff {s₀ s : System τ} {acts : List (Act τ)} (made : Made f c s₀) :
    Run step (fun s _ => Contract f c s.shared) s₀ acts s ∧ Contract f c s.shared ↔
      Run step (KeepsBytes c) s₀ acts s := by
  have sound := sound_of_made made
  have start := contract_of_made made
  refine Run.exact_iff (fun _ _ _ _ sound _ _ taken => sound_step sound taken)
    (fun _ _ _ _ sound here taken => ?_) sound start
  exact contract_step_iff sound here taken

end Runs

/-- One thread on a parent with the file `f` and a single child, just made; `cached`
says which pages of the parent are in memory. -/
def justMade (f : ByteFile UInt8) (cached : Nat → Bool) : System Unit where
  shared :=
    { par := ⟨f, cached, f, fun _ _ => rfl⟩
      store := ⟨1, .empty, [], roundUp f.size⟩
      child := fun c =>
        if c = 0 then
          some ⟨.blank f.size, 1, f.size, [], fun _ => false, (f.size - 1) / pageSize + 1,
            fun _ => false, 1, false, fun _ => none⟩
        else none
      lastChildIndex := 0
      pageCopies := []
      threadAt := none
      parLocked := false }
  place _ := .idle

theorem made_justMade (f : ByteFile UInt8) (cached : Nat → Bool) :
    Made f 0 (justMade f cached) where
  par := rfl
  origSize := rfl
  unlogged := ⟨rfl, nofun⟩
  child := ⟨_, rfl, rfl, rfl, fun _ => rfl⟩
  noWrite := nofun

/-- The steps of a write of some bytes to the child, all within its first block. -/
def writesChild (offset : Nat) (data : List UInt8) : List (Act Unit) :=
  [.writeChild 0 ⟨offset, data, false, data.length⟩, .block false, .block false, .lock,
    .page (.copied data.length), .block false, .block false].map (.thread ())

/-- The steps of a write of some bytes to one page of the parent. -/
def writesParent (offset : Nat) (data : List UInt8) : List (Act Unit) :=
  [.writeParent ⟨offset, data, false, data.length⟩, .lock,
    .page (.copied data.length)].map (.thread ())

theorem read_last_written_same_bytes : ∃ s,
    Run step (KeepsBytes 0) (justMade ⟨1, fun _ => 7⟩ fun _ => true)
      (writesParent 0 [7] ++ [.copyThread false, .copyThread false] ++ writesChild 0 [7, 9]) s ∧
    Contract ⟨1, fun _ => 7⟩ 0 s.shared := by
  exact Run.exists_imp (fun s act => decide (KeepsBytes 0 s act))
    (fun _ _ _ => of_decide_eq_true) (Q := fun _ => True) (by decide +kernel)
    fun _ run _ => ((read_last_written_iff (made_justMade _ _)).mpr run).2

/-- A read of one byte at `x` that does not return the expected byte. -/
def Shared.misreads (f : ByteFile UInt8) (c x : Nat) (s : Shared) : Bool :=
  (s.child c).any fun k => (s.fileReadIter .clean c x 1).any fun r =>
    decide (x < k.copySize ∧ r.1[0]? ≠ some (k.expected f x))

theorem not_contract_of_misreads {f : ByteFile UInt8} {c x : Nat} {s : Shared}
    (misreads : s.misreads f c x = true) : ¬ Contract f c s := by
  rintro ⟨k, here, reads⟩
  unfold Shared.misreads at misreads
  rw [here, Option.any_some] at misreads
  obtain ⟨r, read, wrong⟩ := (Option.any_eq_true _ _).mp misreads
  obtain ⟨below, differs⟩ := of_decide_eq_true wrong
  obtain ⟨bs, s', read', expected⟩ := reads .clean x 1 0 Nat.one_pos
    (Nat.sub_pos_of_lt (Nat.mod_lt x pageSize_pos)) below
  cases read.symm.trans read'
  exact differs expected

/-- The child reads back the parent's byte instead of the one it wrote; it reads a
byte the parent wrote after the child was made; and a write of the child clears the
last page of the parent when that page is not in memory, so that the child reads
zeros around what it wrote. -/
theorem read_last_written_fails :
    (∃ s, Run step (fun _ _ => True) (justMade ⟨1, fun _ => 7⟩ fun _ => true)
      (writesChild 0 [8]) s ∧ ¬ Contract ⟨1, fun _ => 7⟩ 0 s.shared) ∧
    (∃ s, Run step (fun _ _ => True) (justMade ⟨1, fun _ => 7⟩ fun _ => true)
      (writesParent 0 [8]) s ∧ ¬ Contract ⟨1, fun _ => 7⟩ 0 s.shared) ∧
    ∃ s, Run step (fun _ _ => True) (justMade ⟨2, fun _ => 7⟩ fun _ => false)
      (writesChild 0 [7]) s ∧ ¬ Contract ⟨2, fun _ => 7⟩ 0 s.shared := by
  have found {f : ByteFile UInt8} {cached : Nat → Bool} {acts : List (Act Unit)} {x : Nat}
      (computed : ((Run.exec step (fun _ _ => true) (justMade f cached) acts).any fun s =>
        decide (s.shared.misreads f 0 x = true)) = true) :
      ∃ s, Run step (fun _ _ => True) (justMade f cached) acts s ∧ ¬ Contract f 0 s.shared :=
    Run.exists_imp (fun _ _ => true) (fun _ _ _ _ => trivial) computed
      fun _ _ misreads => not_contract_of_misreads misreads
  refine ⟨found (x := 0) ?_, found (x := 0) ?_, found (x := 1) ?_⟩
  all_goals decide +kernel

end FlexClone.Scorw.Cow
