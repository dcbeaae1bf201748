import FlexClone.Run
import FlexClone.Threads

/-!
# A child's handle that is pointed at the parent

Reads of a child, and its writes to a SHARED range, point `f_mapping` of the handle at
the parent's pages while the data is transferred, and put back what they found there
before. Nothing keeps two of them on one handle apart. One that begins while the other
has the handle redirected finds the parent's mapping, and if it finishes last it leaves
that in place: from then on a write to the child goes to the parent.

* `move`: the steps of the calls on one handle.
* `redirection_undone`: if nobody begins while the handle is redirected, it points at the
  child whenever no call has it.
-/

namespace FlexClone.Scorw.Redirect

/-! ## Calls on one handle -/

/-- `i_mapping` of the child or of its parent. -/
inductive Mapping
  | child
  | parent
  deriving DecidableEq

/-- What the threads that use the handle share. -/
structure Handle where
  fMapping : Mapping
  /-- the lock of the parent's inode is taken -/
  parLocked : Bool

/-- The calls that redirect the handle. -/
inductive Call
  /-- `ext4_file_read_iter` -/
  | read
  /-- `ext4_buffered_write_iter` with `shr.initialized` -/
  | writeShared
  deriving DecidableEq

/-- Where a thread is; `orig` is what the call has found in `f_mapping`. -/
inductive Place
  | idle
  | saved (call : Call) (orig : Mapping)
  /-- a write has the lock of the parent's inode -/
  | locked (orig : Mapping)
  | redirected (call : Call) (orig : Mapping)
  | transferred (call : Call) (orig : Mapping)
  /-- a write that has put `f_mapping` back and still has the lock -/
  | restored
  /-- in the loop of `scorw_generic_perform_write` for a write to the child's own file -/
  | writing (mapping : Mapping)
  deriving DecidableEq

/-- What a thread can do next. -/
inductive Move
  | begins (call : Call)
  /-- a write outside of SHARED ranges -/
  | write
  | next

/-- What is done with which pages. -/
inductive Reply
  | goesOn
  | transfers (mapping : Mapping)
  deriving DecidableEq

/-- One move of a thread. Each assignment to `f_mapping` and each look at it is a move of
its own. -/
def move (h : Handle) : Place → Move → Option (Reply × Place × Handle)
  | .idle, .begins call => some (.goesOn, .saved call h.fMapping, h)
  | .idle, .write => some (.goesOn, .writing h.fMapping, h)
  | .saved .read orig, .next =>
      some (.goesOn, .redirected .read orig, { h with fMapping := .parent })
  | .saved .writeShared orig, .next =>
      if h.parLocked then none else some (.goesOn, .locked orig, { h with parLocked := true })
  | .locked orig, .next =>
      some (.goesOn, .redirected .writeShared orig, { h with fMapping := .parent })
  | .redirected call orig, .next => some (.transfers h.fMapping, .transferred call orig, h)
  | .transferred .read orig, .next => some (.goesOn, .idle, { h with fMapping := orig })
  | .transferred .writeShared orig, .next => some (.goesOn, .restored, { h with fMapping := orig })
  | .restored, .next => some (.goesOn, .idle, { h with parLocked := false })
  | .writing mapping, .next => some (.transfers mapping, .idle, h)
  | _, _ => none

variable {τ : Type*} [DecidableEq τ]

/-- Threads `τ` that use the handle. -/
abbrev System (τ : Type*) := Threads τ Handle Place

def step (s : System τ) (act : τ × Move) : Option (Reply × System τ) :=
  Threads.step (fun _ => move) s act.1 act.2

/-! ## Putting it back -/

/-- What a call will put back. -/
def Place.orig : Place → Option Mapping
  | .saved _ orig | .locked orig | .redirected _ orig | .transferred _ orig => some orig
  | .idle | .restored | .writing _ => none

/-- The call has the handle redirected. -/
def Place.redirects : Place → Bool
  | .redirected _ _ | .transferred _ _ => true
  | .idle | .saved _ _ | .locked _ | .restored | .writing _ => false

/-- The handle was just opened. -/
structure Opened (s : System τ) : Prop where
  fMapping : s.shared.fMapping = .child
  idle : ∀ t, s.place t = .idle

/-- When no call is on its way the handle points at the child, and a write to the child
that begins then is applied to the child. -/
def Undone (s : System τ) : Prop :=
  (∀ t, (s.place t).orig = none) → s.shared.fMapping = .child ∧
    ∀ t reply s', step s (t, .write) = some (reply, s') → s'.place t = .writing .child

/-- No call begins while another one has the handle redirected. -/
def BeginsAlone (s : System τ) (act : τ × Move) : Prop :=
  match act.2 with
  | .begins _ => ∀ t, (s.place t).redirects = false
  | .write | .next => True

instance [Fintype τ] (s : System τ) (act : τ × Move) : Decidable (BeginsAlone s act) := by
  unfold BeginsAlone
  split <;> infer_instance

/-- Every call on its way has found the child's mapping, and the handle only points at the
parent while somebody has it redirected. -/
structure Sound (s : System τ) : Prop where
  own : ∀ t orig, (s.place t).orig = some orig → orig = .child
  held : s.shared.fMapping = .child ∨ ∃ t, (s.place t).redirects = true

section Steps

variable {s s' : System τ} {act : τ × Move} {reply : Reply}

omit [DecidableEq τ] in
theorem sound_of_opened (opened : Opened s) : Sound s := by
  refine ⟨fun t orig found => ?_, .inl opened.fMapping⟩
  rw [opened.idle t] at found
  cases found

/-- What one move does to the handle, as far as the others can tell. -/
theorem move_cases {h h' : Handle} {place place' : Place} {m : Move}
    (moved : move h place m = some (reply, place', h')) :
    (h'.fMapping = h.fMapping ∧ place'.redirects = place.redirects ∧
      (place'.orig = place.orig ∨ place'.orig = none ∨
        (∃ call, m = .begins call) ∧ place'.orig = some h.fMapping)) ∨
    (place'.redirects = true ∧ place'.orig = place.orig) ∨
    (∃ orig, place.orig = some orig ∧ h'.fMapping = orig ∧ place'.orig = none) := by
  unfold move at moved
  split at moved
  case h_1 call =>
    cases moved
    exact .inl ⟨rfl, rfl, .inr (.inr ⟨⟨call, rfl⟩, rfl⟩)⟩
  case h_2 | h_9 | h_10 =>
    cases moved
    exact .inl ⟨rfl, rfl, .inl rfl⟩
  case h_3 | h_5 | h_6 =>
    cases moved
    exact .inr (.inl ⟨rfl, rfl⟩)
  case h_4 =>
    split at moved
    · cases moved
    · cases moved
      exact .inl ⟨rfl, rfl, .inl rfl⟩
  case h_7 orig | h_8 orig =>
    cases moved
    exact .inr (.inr ⟨orig, rfl, rfl, rfl⟩)
  case h_11 => cases moved

theorem sound_step (sound : Sound s) (alone : BeginsAlone s act)
    (taken : step s act = some (reply, s')) : Sound s' := by
  have taken : Threads.step (fun _ => move) s act.1 act.2 = some (reply, s') := taken
  obtain ⟨place, h, moved, rfl⟩ := Threads.step_eq_some taken
  have others {u : τ} (other : u ≠ act.1) :
      Function.update s.place act.1 place u = s.place u := Function.update_of_ne other _ _
  refine ⟨fun u orig found => ?_, ?_⟩
  · dsimp only at found
    by_cases same : u = act.1
    · subst same
      rw [Function.update_self] at found
      rcases move_cases moved with
        ⟨_, _, kept | none | ⟨⟨call, begins⟩, finds⟩⟩ | ⟨_, kept⟩ | ⟨_, _, _, none⟩
      · exact sound.own act.1 orig (kept ▸ found)
      · rw [none] at found
        cases found
      · -- nobody has the handle redirected
        unfold BeginsAlone at alone
        rw [begins] at alone
        rcases sound.held with child | ⟨t, redirects⟩
        · rw [finds, child] at found
          exact (Option.some.inj found).symm
        · rw [alone t] at redirects
          cases redirects
      · exact sound.own act.1 orig (kept ▸ found)
      · rw [none] at found
        cases found
    · rw [others same] at found
      exact sound.own u orig found
  · rcases move_cases moved with
      ⟨mapping, redirects, _⟩ | ⟨redirects, _⟩ | ⟨orig, found, mapping, _⟩
    · rcases sound.held with child | ⟨u, held⟩
      · exact .inl (mapping.trans child)
      · refine .inr ⟨u, ?_⟩
        dsimp only
        by_cases same : u = act.1
        · subst same
          rw [Function.update_self, redirects]
          exact held
        · rw [others same]
          exact held
    · refine .inr ⟨act.1, ?_⟩
      dsimp only
      rw [Function.update_self]
      exact redirects
    · exact .inl (mapping.trans (sound.own act.1 orig found))

omit [DecidableEq τ] in
theorem Sound.fMapping (sound : Sound s) (calm : ∀ t, (s.place t).orig = none) :
    s.shared.fMapping = .child := by
  rcases sound.held with child | ⟨t, redirects⟩
  · exact child
  · have none := calm t
    cases here : s.place t with
    | redirected | transferred => simp [here, Place.orig] at none
    | _ => simp [here, Place.redirects] at redirects

/-- In every run in which no call begins while another one has the handle redirected, the
handle points at the child whenever no call is on its way. -/
theorem redirection_undone {s₀ : System τ} {acts : List (τ × Move)} (start : Opened s₀)
    (run : Run step BeginsAlone s₀ acts s) : Undone s := by
  have sound := run.invariant (P := Sound)
    (fun _ _ _ _ sound alone taken => sound_step sound alone taken) (sound_of_opened start)
  intro calm
  have child := sound.fMapping calm
  refine ⟨child, fun t reply s' taken => ?_⟩
  have taken : Threads.step (fun _ => move) s t .write = some (reply, s') := taken
  obtain ⟨place, h, moved, rfl⟩ := Threads.step_eq_some taken
  dsimp only
  rw [Function.update_self]
  cases here : s.place t with
  | idle =>
      rw [here] at moved
      cases moved
      rw [child]
  | _ =>
      rw [here] at moved
      simp [move] at moved

/-- The handle as it was just opened, for two threads. -/
def opened : System Bool := ⟨⟨.child, false⟩, fun _ => .idle⟩

theorem opened_opened : Opened opened := ⟨rfl, fun _ => rfl⟩

/-- A read and a write to a SHARED range that overlap, but begin before either of them
redirects the handle. -/
def overlapping : List (Bool × Move) :=
  [(false, .begins .read), (true, .begins .writeShared), (false, .next), (true, .next),
    (true, .next), (false, .next), (false, .next), (true, .next), (true, .next), (true, .next)]

theorem redirection_undone_overlapping : ∃ s,
    Run step BeginsAlone opened overlapping s ∧ (∀ t, s.place t = .idle) ∧
    s.shared.fMapping = .child := by
  refine Run.exists_imp (fun s act => decide (BeginsAlone s act)) (fun _ _ _ => of_decide_eq_true)
    (Q := fun s => ∀ t, s.place t = .idle) (by decide) ?_
  intro s run idle
  refine ⟨idle, (redirection_undone opened_opened run fun t => ?_).1⟩
  rw [idle t]
  rfl

/-- Two calls of which the second begins while the handle is redirected, and finishes
last. -/
def nested (call : Call) (steps : Nat) : List (Bool × Move) :=
  [(false, .begins .read), (false, .next), (true, .begins call), (false, .next),
    (false, .next)] ++ List.replicate steps (true, .next)

/-- The handle stays pointed at the parent when nobody uses it any more, and the next
write to the child is applied to the parent. -/
theorem redirection_undone_fails :
    (∃ s s₁ s₂, Run step (fun _ _ => True) opened (nested .read 3) s ∧
      (∀ t, s.place t = .idle) ∧ step s (false, .write) = some (.goesOn, s₁) ∧
      step s₁ (false, .next) = some (.transfers .parent, s₂)) ∧
    ∃ s s₁ s₂, Run step (fun _ _ => True) opened (nested .writeShared 5) s ∧
      (∀ t, s.place t = .idle) ∧ step s (false, .write) = some (.goesOn, s₁) ∧
      step s₁ (false, .next) = some (.transfers .parent, s₂) := by
  have found {acts : List (Bool × Move)}
      (computed : ((Run.exec step (fun _ _ => true) opened acts).any fun s =>
        decide (∀ t, s.place t = .idle) && (step s (false, .write)).any fun (reply, s₁) =>
          decide (reply = .goesOn) && (step s₁ (false, .next)).any fun r =>
            decide (r.1 = .transfers .parent)) = true) :
      ∃ s s₁ s₂, Run step (fun _ _ => True) opened acts s ∧ (∀ t, s.place t = .idle) ∧
        step s (false, .write) = some (.goesOn, s₁) ∧
        step s₁ (false, .next) = some (.transfers .parent, s₂) := by
    obtain ⟨s, run, last⟩ := Run.exists_of_exec (fun _ _ _ _ => trivial) computed
    simp only [Bool.and_eq_true, decide_eq_true_eq, Option.any_eq_true] at last
    obtain ⟨idle, ⟨reply, s₁⟩, begins, rfl, ⟨reply, s₂⟩, ends, rfl⟩ := last
    exact ⟨s, s₁, s₂, run, idle, begins, ends⟩
  exact ⟨found (by decide), found (by decide)⟩

end Steps

end FlexClone.Scorw.Redirect
