import FlexClone.Run
import FlexClone.WaitsFor
import FlexClone.Scorw.AttachLocks

/-!
# The order of the mutexes of attaching and detaching

The mutexes can be ranked: a parent's, then `frnd_version_cnt_lock`, then a child's.
`Orderly` leaves out what breaks the order: a child that puts its attached parent,
and a file that is both a parent and a child. `Ordered` follows a thread's list and
the locks it will hold on the way; each call keeps it, and `no_cycle` follows.
-/

namespace FlexClone.Scorw.AttachLocks

variable {n : Nat}

/-! ## The moves that keep the order -/

variable {parentAttr : Ino → Option Ino}

/-- The parent of an attached child is attached too. -/
def Shared.parAttached (sh : Shared n) (c : Ino) : Bool :=
  ((sh.scorw c).bind (·.par)).any fun p => (sh.scorw p).isSome

/-- The side condition of a move: a file that is a child is not got or put as a
parent, and a child that puts itself does not find its parent attached. -/
def Orderly (parentAttr : Ino → Option Ino) (s : System n) : Fin n × Move → Prop
  | (_, .start (.getInode i false)) | (_, .start (.putInode i false))
  | (_, .start (.threadPutInode i)) => parentAttr i = none
  | (_, .start (.unlinkChildFile c)) => (parentAttr c).bind parentAttr = none
  | (_, .start _) => True
  | (t, .run _) =>
      match (s.place t).todo with
      | .putLocked i true false false :: _ => s.shared.parAttached i = false
      | _ => True

instance (s : System n) : (a : Fin n × Move) → Decidable (Orderly parentAttr s a)
  | (_, .start call) => by
      unfold Orderly
      cases call with
      | getInode i isChild | putInode i isChild =>
          cases isChild
          all_goals
            dsimp only
            infer_instance
      | threadPutInode | unlinkChildFile | processPending =>
          dsimp only
          infer_instance
  | (t, .run _) => by
      unfold Orderly
      dsimp only
      split
      all_goals infer_instance

/-- The rank of a mutex: first those against opening and closing, then the parents,
`frnd_version_cnt_lock`, and the children last. -/
def rank (parentAttr : Ino → Option Ino) : Lock → Nat
  | .openClose i => if parentAttr i = none then 1 else 0
  | .vfsInode i => if parentAttr i = none then 2 else 4
  | .frndVersionCnt => 3

/-- All locks held are below a rank. -/
def Below (parentAttr : Ino → Option Ino) (held : List Lock) (bound : Nat) : Prop :=
  ∀ l ∈ held, rank parentAttr l < bound

/-- The locks a thread that holds `held` may hold for the step. -/
def Instr.Fits (parentAttr : Ino → Option Ino) (held : List Lock) : Instr → Prop
  | .lock k => Below parentAttr held (rank parentAttr k)
  | .unlock _ => True
  | .getInode i isChild =>
      (isChild = true ↔ parentAttr i ≠ none) ∧ Below parentAttr held (rank parentAttr (.vfsInode i))
  | .getLocked _ isChild => isChild = false → Below parentAttr held 4
  | .getChild _ _ => Below parentAttr held 4
  | .setChild _ _ c => parentAttr c ≠ none
  | .putInode i isChild _ _ =>
      (isChild = true ↔ parentAttr i ≠ none) ∧ Below parentAttr held (if isChild then 3 else 2)
  | .putLocked i isChild _ _ | .freeUnused i isChild _ =>
      (isChild = true ↔ parentAttr i ≠ none) ∧ (isChild = false → Below parentAttr held 3)
  | .putChildren cs _ => (∀ c ∈ cs, parentAttr c ≠ none) ∧ Below parentAttr held 3
  | .unlinkChildFile c => (parentAttr c).bind parentAttr = none ∧ held = []
  | .unlinkLocked c _ => parentAttr c ≠ none ∧ Below parentAttr held 3
  | .processPending _ => Below parentAttr held 3
  | .processList _ => Below parentAttr held 4
  | .processRequest c _ => parentAttr c ≠ none

/-- The locks when everything the step puts on the list is done. -/
def Instr.after (held : List Lock) : Instr → List Lock
  | .lock k => k :: held
  | .unlock k => held.erase k
  | .unlinkLocked c p => (held.erase (.openClose c)).erase (.openClose p)
  | _ => held

/-- Every step of the list fits the locks held when it comes to it, and at the end
none is held. -/
def Ordered (parentAttr : Ino → Option Ino) : List Lock → List Instr → Prop
  | held, [] => held = []
  | held, instr :: rest =>
      instr.Fits parentAttr held ∧ Ordered parentAttr (instr.after held) rest

variable {held : List Lock} {rest : List Instr} {i : Ino} {sh sh' : Shared n} {s s' : System n}
  {t : Fin n} {isChild thread par : Bool}

theorem Below.nil (bound : Nat) : Below parentAttr [] bound :=
  fun _ member => absurd member List.not_mem_nil

theorem Below.mono {r r' : Nat} (below : Below parentAttr held r) (le : r ≤ r') :
    Below parentAttr held r' :=
  fun l member => Nat.lt_of_lt_of_le (below l member) le

theorem Below.cons {k : Lock} {r : Nat} (below : Below parentAttr held r)
    (lt : rank parentAttr k < r) : Below parentAttr (k :: held) r := by
  intro l member
  rcases List.mem_cons.mp member with rfl | before
  · exact lt
  · exact below l before

theorem Below.erase {r : Nat} (below : Below parentAttr held r) (k : Lock) :
    Below parentAttr (held.erase k) r :=
  fun l member => below l (List.mem_of_mem_erase member)

theorem rank_par (isPar : parentAttr i = none) : rank parentAttr (.vfsInode i) = 2 :=
  if_pos isPar

theorem rank_child (isChild : parentAttr i ≠ none) : rank parentAttr (.vfsInode i) = 4 :=
  if_neg isChild

/-! ## What the calls put on the list -/

theorem Ordered.unlock (ordered : Ordered parentAttr held rest) (k : Lock) :
    Ordered parentAttr ((Instr.unlock k).after (k :: held)) rest := by
  change Ordered parentAttr ((k :: held).erase k) rest
  rw [List.erase_cons_head]
  exact ordered

theorem parentAttr_eq_none (kind : false = true ↔ parentAttr i ≠ none) : parentAttr i = none := by
  by_contra child
  cases kind.mpr child

theorem ordered_getInode (fits : Instr.Fits parentAttr held (.getInode i isChild))
    (ordered : Ordered parentAttr held rest) :
    Ordered parentAttr held
      ([.lock (.vfsInode i), .getLocked i isChild, .unlock (.vfsInode i)] ++ rest) := by
  obtain ⟨kind, below⟩ := fits
  refine ⟨below, ?_, trivial, ?_⟩
  · rintro rfl
    have file := parentAttr_eq_none kind
    rw [rank_par file] at below
    exact (below.mono (by decide)).cons (by rw [rank_par file]; decide)
  · exact ordered.unlock _

theorem ordered_putInode (fits : Instr.Fits parentAttr held (.putInode i isChild thread par))
    (ordered : Ordered parentAttr held rest) {outcome got got' : Bool} {code : List Instr}
    (done : exec parentAttr t outcome sh got (.putInode i isChild thread par) =
      some (code, got', sh')) : Ordered parentAttr held (code ++ rest) := by
  obtain ⟨kind, below⟩ := fits
  cases isChild with
  | true =>
      cases done
      have child := kind.mp rfl
      refine ⟨below, ?_, ⟨kind, nofun⟩, trivial, trivial, ?_⟩
      · change Below parentAttr (.frndVersionCnt :: held) (rank parentAttr (.vfsInode i))
        rw [rank_child child]
        exact (below.mono (by decide)).cons (show 3 < 4 by decide)
      · have inner : Ordered parentAttr (.frndVersionCnt :: held)
            (.unlock .frndVersionCnt :: rest) := ⟨trivial, ordered.unlock _⟩
        exact (inner.unlock _).2
  | false =>
      cases done
      have file := parentAttr_eq_none kind
      refine ⟨?_, ⟨kind, fun _ => ?_⟩, trivial, ordered.unlock _⟩
      · change Below parentAttr held (rank parentAttr (.vfsInode i))
        rw [rank_par file]
        exact below
      · exact (below.mono (by decide)).cons (by rw [rank_par file]; decide)

theorem ordered_putChildren {cs : List Ino}
    (fits : Instr.Fits parentAttr held (.putChildren cs par))
    (ordered : Ordered parentAttr held rest) {outcome got got' : Bool} {code : List Instr}
    (done : exec parentAttr t outcome sh got (.putChildren cs par) = some (code, got', sh')) :
    Ordered parentAttr held (code ++ rest) := by
  obtain ⟨children, below⟩ := fits
  cases cs with
  | nil =>
      cases done
      exact ordered
  | cons c cs =>
      cases done
      refine ⟨⟨⟨fun _ => children c List.mem_cons_self, fun _ => rfl⟩, below⟩, ⟨?_, below⟩, ordered⟩
      exact fun d member => children d (List.mem_cons_of_mem c member)

/-- The loop over the requests takes one child after the other. -/
theorem ordered_processList {pending : List Ino} {syncChild : Bool}
    (children : ∀ c ∈ pending, parentAttr c ≠ none) (below : Below parentAttr held 4)
    (ordered : Ordered parentAttr held rest) :
    Ordered parentAttr held ((pending.flatMap fun c =>
      [.lock (.vfsInode c), .processRequest c syncChild, .unlock (.vfsInode c)]) ++ rest) := by
  induction pending with
  | nil => exact ordered
  | cons c pending ih =>
      have here := children c List.mem_cons_self
      have later := ih fun d member => children d (List.mem_cons_of_mem c member)
      refine ⟨?_, here, trivial, later.unlock _⟩
      change Below parentAttr held (rank parentAttr (.vfsInode c))
      rw [rank_child here]
      exact below

theorem ordered_unlinkChildFile {c : Ino} (fits : Instr.Fits parentAttr held (.unlinkChildFile c))
    (ordered : Ordered parentAttr held rest) {outcome got got' : Bool} {code : List Instr}
    (done : exec parentAttr t outcome sh got (.unlinkChildFile c) = some (code, got', sh')) :
    Ordered parentAttr held (code ++ rest) := by
  obtain ⟨flat, rfl⟩ := fits
  dsimp only [exec] at done
  split at done
  case h_1 =>
    cases done
    exact ordered
  case h_2 p isChild =>
    cases done
    rw [isChild] at flat
    have child : parentAttr c ≠ none := by rw [isChild]; nofun
    have other : Lock.openClose p ≠ .openClose c := by
      intro same
      cases same
      exact child flat
    have low : rank parentAttr (.openClose c) = 0 := if_neg child
    have high : rank parentAttr (.openClose p) = 1 := if_pos flat
    refine ⟨Below.nil _, ?_, ⟨child, ?_⟩, ?_⟩
    · change Below parentAttr [.openClose c] (rank parentAttr (.openClose p))
      rw [high]
      exact (Below.nil 1).cons (by rw [low]; decide)
    · exact ((Below.nil 3).cons (by rw [low]; decide)).cons (by rw [high]; decide)
    · change Ordered parentAttr
        (([.openClose p, .openClose c].erase (.openClose c)).erase (.openClose p)) rest
      rw [List.erase_cons_tail (by simpa using other), List.erase_cons_head, List.erase_cons_head]
      exact ordered

theorem ordered_unlinkLocked {c p : Ino} (fits : Instr.Fits parentAttr held (.unlinkLocked c p))
    (ordered : Ordered parentAttr ((Instr.unlinkLocked c p).after held) rest) :
    Ordered parentAttr held ((unlinkLocked sh c p).1 ++ rest) := by
  obtain ⟨child, below⟩ := fits
  unfold unlinkLocked
  split
  case h_1 =>
    dsimp only
    split
    · exact ⟨trivial, ⟨⟨fun _ => child, fun _ => rfl⟩, below.erase _⟩, trivial, ordered⟩
    · exact ⟨trivial, trivial, ordered⟩
  case h_2 => exact ⟨trivial, trivial, ordered⟩

theorem ordered_getLocked {failed : Bool}
    (fits : Instr.Fits parentAttr held (.getLocked i isChild))
    (ordered : Ordered parentAttr held rest) :
    Ordered parentAttr held ((getLocked parentAttr failed sh i isChild).1 ++ rest) := by
  unfold getLocked
  split
  case h_1 =>
    split
    · exact ordered
    · exact ordered
  case h_2 =>
    split
    · exact ordered
    · cases isChild with
      | true => exact ordered
      | false => exact ⟨fits rfl, ordered⟩

theorem ordered_getChild {p : Ino} {index : Nat} {failed : Bool} (below : Below parentAttr held 4)
    (ordered : Ordered parentAttr held rest) :
    Ordered parentAttr held ((getChild parentAttr failed sh p index).1 ++ rest) := by
  unfold getChild
  split
  · exact ordered
  · split
    case h_1 => exact ⟨below, ordered⟩
    case h_2 c _ =>
      split
      · exact ⟨below, ordered⟩
      case isFalse kept =>
        have child : parentAttr c ≠ none := fun other => kept (.inr other)
        refine ⟨⟨⟨fun _ => child, fun _ => rfl⟩, ?_⟩, child, below, ordered⟩
        rw [rank_child child]
        exact below

theorem isSome_of_setScorw {p : Ino} {s s' : ScorwInode} (attached : sh.scorw i = some s)
    (after : ((sh.setScorw i (some s')).scorw p).isSome = true) : (sh.scorw p).isSome = true := by
  by_cases same : p = i
  · rw [same, attached]
    rfl
  · change (Function.update sh.scorw i (some s') p).isSome = true at after
    rw [Function.update_of_ne same] at after
    exact after

/-- The put of a child does not go on to its parent. -/
theorem ordered_putLocked {code : List Instr}
    (fits : Instr.Fits parentAttr held (.putLocked i isChild thread par))
    (alone : isChild = true → thread = false → par = false → sh.parAttached i = false)
    (ordered : Ordered parentAttr held rest)
    (done : putLocked sh i isChild thread par = some (code, sh')) :
    Ordered parentAttr held (code ++ rest) := by
  unfold putLocked at done
  split at done
  case h_1 =>
    cases done
    exact ordered
  case h_2 s attached =>
    split at done
    case isTrue =>
      cases done
      exact ⟨fits, ordered⟩
    case isFalse process =>
      split at done
      case isTrue => cases done
      case isFalse =>
        dsimp only at done
        split at done
        case h_2 =>
          cases done
          exact ⟨fits, ordered⟩
        case h_1 p isPar =>
          split at done
          case isFalse =>
            cases done
            exact ⟨fits, ordered⟩
          case isTrue nested =>
            obtain ⟨child, parent, own⟩ := nested
            have free := alone child (Bool.eq_false_iff.mpr process) own
            have found : sh.parAttached i = true := by
              unfold Shared.parAttached
              rw [attached, Option.bind_some, isPar, Option.any_some]
              exact isSome_of_setScorw attached parent
            cases free.symm.trans found

/-- The children in memory and in the list of requests are children. -/
structure Kin (parentAttr : Ino → Option Ino) (sh : Shared n) : Prop where
  children : ∀ p s, sh.scorw p = some s → ∀ index c, s.children index = some c →
    parentAttr c ≠ none
  pending : ∀ c ∈ sh.pending, parentAttr c ≠ none

theorem ordered_freeUnused {pending : Bool} {code : List Instr} (kin : Kin parentAttr sh)
    (fits : Instr.Fits parentAttr held (.freeUnused i isChild par))
    (ordered : Ordered parentAttr held rest)
    (done : freeUnused pending sh i isChild par = some (code, sh')) :
    Ordered parentAttr held (code ++ rest) := by
  unfold freeUnused at done
  split at done
  case h_1 =>
    cases done
    exact ordered
  case h_2 s attached =>
    split at done
    case isTrue =>
      cases done
      exact ordered
    case isFalse =>
      split at done
      case isTrue =>
        obtain ⟨_, _, same⟩ := Option.map_eq_some_iff.mp done
        cases same
        exact ordered
      case isFalse isPar =>
        cases done
        refine ⟨⟨?_, fits.2 (Bool.eq_false_iff.mpr isPar)⟩, ordered⟩
        intro c member
        obtain ⟨index, _, here⟩ := List.mem_filterMap.mp member
        exact kin.children i s attached index c here

/-- Doing the first thing on the list leaves a list in order. -/
theorem Ordered.exec {instr : Instr} {code : List Instr} {outcome got got' : Bool}
    (kin : Kin parentAttr sh)
    (alone : ∀ i, instr = .putLocked i true false false → sh.parAttached i = false)
    (ordered : Ordered parentAttr held (instr :: rest))
    (done : exec parentAttr t outcome sh got instr = some (code, got', sh'))
    (not_lock : ∀ k, instr ≠ .lock k) (not_unlock : ∀ k, instr ≠ .unlock k) :
    Ordered parentAttr held (code ++ rest) := by
  obtain ⟨fits, later⟩ := ordered
  cases instr with
  | lock k => exact absurd rfl (not_lock k)
  | unlock k => exact absurd rfl (not_unlock k)
  | getInode i isChild =>
      cases done
      exact ordered_getInode fits later
  | getLocked i isChild =>
      have same := congrArg Prod.fst (Option.some.inj done)
      rw [← show _ = code from same]
      exact ordered_getLocked fits later
  | getChild p index =>
      cases done
      exact ordered_getChild fits later
  | setChild p index c =>
      cases done
      exact later
  | putInode i isChild thread par => exact ordered_putInode fits later done
  | putLocked i isChild thread par =>
      obtain ⟨⟨next, after⟩, put, same⟩ := Option.map_eq_some_iff.mp done
      cases same
      refine ordered_putLocked fits ?_ later put
      rintro rfl rfl rfl
      exact alone i rfl
  | freeUnused i isChild par =>
      obtain ⟨⟨next, after⟩, freed, same⟩ := Option.map_eq_some_iff.mp done
      cases same
      exact ordered_freeUnused kin fits later freed
  | putChildren cs par => exact ordered_putChildren fits later done
  | unlinkChildFile c => exact ordered_unlinkChildFile fits later done
  | unlinkLocked c p =>
      cases done
      exact ordered_unlinkLocked fits later
  | processPending syncChild =>
      cases done
      refine ⟨fits, ?_, trivial, later.unlock _⟩
      exact (Below.mono fits (by decide)).cons (show 3 < 4 by decide)
  | processList syncChild =>
      cases done
      exact ordered_processList kin.pending fits later
  | processRequest c syncChild =>
      obtain ⟨after, _, same⟩ := Option.map_eq_some_iff.mp done
      cases same
      exact later

/-! ## What the calls keep -/

/-- Only children are attached as children, and no mutex changes hands. -/
structure Keeps (parentAttr : Ino → Option Ino) (sh sh' : Shared n) : Prop where
  owner : sh'.owner = sh.owner
  kin : Kin parentAttr sh → Kin parentAttr sh'

theorem Keeps.refl (sh : Shared n) : Keeps parentAttr sh sh := ⟨rfl, id⟩

theorem Keeps.trans {sh₁ sh₂ sh₃ : Shared n} (first : Keeps parentAttr sh₁ sh₂)
    (second : Keeps parentAttr sh₂ sh₃) : Keeps parentAttr sh₁ sh₃ :=
  ⟨second.owner.trans first.owner, fun kin => second.kin (first.kin kin)⟩

theorem keeps_setScorw (i : Ino) {s : Option ScorwInode}
    (children : Kin parentAttr sh → ∀ s', s = some s' → ∀ index c, s'.children index = some c →
      parentAttr c ≠ none) : Keeps parentAttr sh (sh.setScorw i s) := by
  refine ⟨rfl, fun kin => ⟨?_, kin.pending⟩⟩
  exact (Function.forall_update_iff sh.scorw fun _ found => ∀ s', found = some s' →
    ∀ index c, s'.children index = some c → parentAttr c ≠ none).mpr
    ⟨children kin, fun p _ => kin.children p⟩

/-- A change of other fields of an attached `scorw_inode`. -/
theorem keeps_setScorw_of_same {s s' : ScorwInode} (attached : sh.scorw i = some s)
    (same : s'.children = s.children) : Keeps parentAttr sh (sh.setScorw i (some s')) := by
  refine keeps_setScorw i ?_
  rintro kin _ ⟨⟩
  rw [same]
  exact kin.children i s attached

theorem keeps_setScorw_none (sh : Shared n) (i : Ino) :
    Keeps parentAttr sh (sh.setScorw i none) :=
  keeps_setScorw i fun _ _ => nofun

theorem keeps_removeChildAttr (sh : Shared n) (p : Ino) (index : Nat) :
    Keeps parentAttr sh (sh.removeChildAttr p index) :=
  ⟨rfl, fun kin => ⟨kin.children, kin.pending⟩⟩

theorem keeps_forgetChild (sh : Shared n) (p c : Ino) :
    Keeps parentAttr sh (sh.forgetChild p c) := by
  unfold Shared.forgetChild
  split
  · exact keeps_removeChildAttr sh p _
  · exact .refl sh

theorem keeps_incUsageCount (sh : Shared n) (i : Option Ino) :
    Keeps parentAttr sh (sh.incUsageCount i) := by
  unfold Shared.incUsageCount
  split
  case h_1 p s found =>
    obtain ⟨q, _, attached⟩ := Option.bind_eq_some_iff.mp found
    obtain ⟨_, attached, same⟩ := Option.map_eq_some_iff.mp attached
    cases same
    exact keeps_setScorw_of_same attached rfl
  case h_2 => exact .refl sh

theorem keeps_detachUnlinked {c : Ino} {s : ScorwInode} (done : sh.detachUnlinked c s = some sh') :
    Keeps parentAttr sh sh' := by
  unfold Shared.detachUnlinked at done
  split at done
  case h_1 p _ _ =>
    split at done
    · cases done
      exact keeps_forgetChild sh p c
    case h_2 index _ =>
      obtain ⟨q, attached, same⟩ := Option.map_eq_some_iff.mp done
      cases same
      refine (keeps_setScorw p ?_).trans (keeps_forgetChild _ p c)
      rintro kin _ ⟨⟩
      refine (Function.forall_update_iff q.children fun _ found => ∀ c, found = some c →
        parentAttr c ≠ none).mpr ⟨nofun, ?_⟩
      intro j _ d here
      exact kin.children p q attached j d here
  case h_2 =>
    cases done
    exact .refl sh

theorem keeps_getLocked (failed : Bool) (sh : Shared n) (i : Ino) (isChild : Bool) :
    Keeps parentAttr sh (getLocked parentAttr failed sh i isChild).2.2 := by
  unfold getLocked
  split
  case h_1 s attached =>
    split
    · exact .refl sh
    · refine Keeps.trans ?_ (keeps_incUsageCount _ s.par)
      exact keeps_setScorw_of_same attached rfl
  case h_2 =>
    split
    · exact .refl sh
    · refine keeps_setScorw i ?_
      rintro _ _ ⟨⟩ _ _ ⟨⟩

theorem keeps_getChild (failed : Bool) (sh : Shared n) (p : Ino) (index : Nat) :
    Keeps parentAttr sh (getChild parentAttr failed sh p index).2 := by
  unfold getChild
  split
  · exact .refl sh
  · split
    · exact .refl sh
    · split
      · exact keeps_removeChildAttr sh p index
      · exact .refl sh

theorem keeps_setChild {got : Bool} {p c : Ino} {index : Nat} (child : parentAttr c ≠ none) :
    Keeps parentAttr sh (setChild got sh p index c) := by
  unfold setChild
  split
  case h_1 => exact .refl sh
  case h_2 s attached =>
    have set : Keeps parentAttr sh (sh.setScorw p (some { s with
        children := Function.update s.children index (if got then some c else none) })) := by
      refine keeps_setScorw p ?_
      rintro kin _ ⟨⟩
      refine (Function.forall_update_iff s.children fun _ found => ∀ d, found = some d →
        parentAttr d ≠ none).mpr ⟨?_, fun j _ d here => kin.children p s attached j d here⟩
      intro d here
      split at here
      · cases here
        exact child
      · cases here
    dsimp only
    split
    case h_1 q found => exact set.trans (keeps_setScorw_of_same found rfl)
    case h_2 => exact set

theorem keeps_putLocked {code : List Instr}
    (done : putLocked sh i isChild thread par = some (code, sh')) : Keeps parentAttr sh sh' := by
  unfold putLocked at done
  split at done
  case h_1 =>
    cases done
    exact .refl sh
  case h_2 s attached =>
    split at done
    · cases done
      exact keeps_setScorw_of_same attached rfl
    · split at done
      · cases done
      · dsimp only at done
        split at done
        · split at done
          all_goals
            cases done
            exact keeps_setScorw_of_same attached rfl
        · cases done
          exact keeps_setScorw_of_same attached rfl

theorem keeps_freeUnused {pending : Bool} {code : List Instr}
    (kind : isChild = true ↔ parentAttr i ≠ none)
    (done : freeUnused pending sh i isChild par = some (code, sh')) : Keeps parentAttr sh sh' := by
  unfold freeUnused at done
  split at done
  case h_1 =>
    cases done
    exact .refl sh
  case h_2 s attached =>
    split at done
    · cases done
      exact .refl sh
    · split at done
      case isTrue isChild =>
        obtain ⟨after, detached, same⟩ := Option.map_eq_some_iff.mp done
        cases same
        refine (keeps_detachUnlinked detached).trans ⟨rfl, fun kin => ⟨?_, ?_⟩⟩
        · exact ((keeps_setScorw_none after i).kin kin).children
        · intro c member
          dsimp only at member
          split at member
          · rcases List.mem_append.mp member with before | new
            · exact kin.pending c before
            · cases List.mem_singleton.mp new
              exact kind.mp isChild
          · exact kin.pending c member
      case isFalse =>
        cases done
        exact keeps_setScorw_none sh i

theorem keeps_unlinkLocked (sh : Shared n) (c p : Ino) :
    Keeps parentAttr sh (unlinkLocked sh c p).2 := by
  unfold unlinkLocked
  split
  case h_1 s attached =>
    dsimp only
    split
    · exact keeps_setScorw_of_same attached rfl
    · exact keeps_setScorw_of_same attached rfl
  case h_2 => exact keeps_forgetChild sh p c

theorem keeps_processRequest {c : Ino} {dirty syncChild : Bool} (child : parentAttr c ≠ none)
    (done : processRequest dirty sh c syncChild = some sh') : Keeps parentAttr sh sh' := by
  have dropped : Keeps parentAttr sh { sh with pending := sh.pending.erase c } :=
    ⟨rfl, fun kin => ⟨kin.children, fun d member => kin.pending d (List.mem_of_mem_erase member)⟩⟩
  unfold processRequest at done
  dsimp only at done
  split at done
  · split at done
    · cases done
    · cases done
      exact dropped
  · split at done
    · cases done
      refine ⟨rfl, fun kin => ⟨kin.children, ?_⟩⟩
      intro d member
      rcases List.mem_append.mp member with before | new
      · exact (dropped.kin kin).pending d before
      · cases List.mem_singleton.mp new
        exact child
    · cases done
      exact dropped

theorem keeps_exec {instr : Instr} {code : List Instr} {outcome got got' : Bool}
    (fits : instr.Fits parentAttr held)
    (done : exec parentAttr t outcome sh got instr = some (code, got', sh'))
    (not_lock : ∀ k, instr ≠ .lock k) (not_unlock : ∀ k, instr ≠ .unlock k) :
    Keeps parentAttr sh sh' := by
  cases instr with
  | lock k => exact absurd rfl (not_lock k)
  | unlock k => exact absurd rfl (not_unlock k)
  | getInode | processPending | processList =>
      cases done
      exact .refl sh
  | getLocked i isChild =>
      have same := congrArg (·.2.2) (Option.some.inj done)
      rw [← show _ = sh' from same]
      exact keeps_getLocked outcome sh i isChild
  | getChild p index =>
      cases done
      exact keeps_getChild outcome sh p index
  | setChild p index c =>
      cases done
      exact keeps_setChild fits
  | putInode i isChild thread par =>
      cases isChild
      all_goals
        cases done
        exact .refl sh
  | putLocked i isChild thread par =>
      obtain ⟨⟨next, after⟩, put, same⟩ := Option.map_eq_some_iff.mp done
      cases same
      exact keeps_putLocked put
  | freeUnused i isChild par =>
      obtain ⟨⟨next, after⟩, freed, same⟩ := Option.map_eq_some_iff.mp done
      cases same
      exact keeps_freeUnused fits.1 freed
  | putChildren cs par =>
      cases cs
      all_goals
        cases done
        exact .refl sh
  | unlinkChildFile c =>
      dsimp only [AttachLocks.exec] at done
      split at done
      all_goals
        cases done
        exact .refl sh
  | unlinkLocked c p =>
      cases done
      exact keeps_unlinkLocked sh c p
  | processRequest c syncChild =>
      obtain ⟨after, processed, same⟩ := Option.map_eq_some_iff.mp done
      cases same
      exact keeps_processRequest fits processed

/-! ## The order along a run -/

/-- What a thread holds and has to do is in order. -/
def InOrder (parentAttr : Ino → Option Ino) (sh : Shared n) (t : Fin n) (place : Place) : Prop :=
  ∃ held, (∀ k, sh.owner k = some t → k ∈ held) ∧ Ordered parentAttr held place.todo

structure Sound (parentAttr : Ino → Option Ino) (s : System n) : Prop where
  kin : Kin parentAttr s.shared
  inOrder : ∀ t, InOrder parentAttr s.shared t (s.place t)

theorem sound_init (childAttr : Ino → Nat → Option Ino) :
    Sound parentAttr (System.init n childAttr) :=
  ⟨⟨fun _ _ => nofun, fun _ member => absurd member List.not_mem_nil⟩,
    fun _ => ⟨[], fun _ => nofun, rfl⟩⟩

/-- A call from outside starts with nothing held. -/
theorem ordered_start {call : Call} (fits : call.Fits parentAttr)
    (orderly : Orderly parentAttr s (t, .start call)) : Ordered parentAttr [] [call.instr] := by
  have nothing (r : Nat) : Below parentAttr [] r := Below.nil r
  cases call with
  | getInode i isChild =>
      cases isChild with
      | true => exact ⟨⟨⟨fun _ => fits rfl, fun _ => rfl⟩, nothing _⟩, rfl⟩
      | false => exact ⟨⟨⟨nofun, fun child => absurd orderly child⟩, nothing _⟩, rfl⟩
  | putInode i isChild =>
      cases isChild with
      | true => exact ⟨⟨⟨fun _ => fits rfl, fun _ => rfl⟩, nothing _⟩, rfl⟩
      | false => exact ⟨⟨⟨nofun, fun child => absurd orderly child⟩, nothing _⟩, rfl⟩
  | threadPutInode p => exact ⟨⟨⟨nofun, fun child => absurd orderly child⟩, nothing _⟩, rfl⟩
  | unlinkChildFile c => exact ⟨⟨orderly, rfl⟩, rfl⟩
  | processPending syncChild => exact ⟨nothing _, rfl⟩

/-- A move of thread `t` that takes no mutex from the others. -/
theorem Sound.update {place : Place} (sound : Sound parentAttr s) (kin : Kin parentAttr sh)
    (others : ∀ u, u ≠ t → ∀ k, sh.owner k = some u → s.shared.owner k = some u)
    (inOrder : InOrder parentAttr sh t place) :
    Sound parentAttr ⟨sh, Function.update s.place t place⟩ := by
  refine ⟨kin, (Function.forall_update_iff s.place fun u p => InOrder parentAttr sh u p).mpr
    ⟨inOrder, ?_⟩⟩
  intro u other
  obtain ⟨held, owned, ordered⟩ := sound.inOrder u
  exact ⟨held, fun k mine => owned k (others u other k mine), ordered⟩

theorem Sound.lock {k : Lock} {place : Place} (sound : Sound parentAttr s)
    (here : (s.place t).todo = .lock k :: rest) (after : place.todo = rest) :
    Sound parentAttr ⟨{ s.shared with owner := Function.update s.shared.owner k (some t) },
      Function.update s.place t place⟩ := by
  obtain ⟨held, owned, ordered⟩ := sound.inOrder t
  rw [here] at ordered
  refine sound.update ⟨sound.kin.children, sound.kin.pending⟩ ?_ ⟨k :: held, ?_, after ▸ ordered.2⟩
  · intro u other
    exact (Function.forall_update_iff s.shared.owner fun l owner => owner = some u →
      s.shared.owner l = some u).mpr
      ⟨fun mine => absurd (Option.some.inj mine).symm other, fun _ _ => id⟩
  · exact (Function.forall_update_iff s.shared.owner fun l owner => owner = some t →
      l ∈ k :: held).mpr
      ⟨fun _ => List.mem_cons_self, fun l _ mine => List.mem_cons_of_mem k (owned l mine)⟩

theorem Sound.unlock {k : Lock} {place : Place} (sound : Sound parentAttr s)
    (here : (s.place t).todo = .unlock k :: rest) (after : place.todo = rest) :
    Sound parentAttr ⟨{ s.shared with owner := Function.update s.shared.owner k none },
      Function.update s.place t place⟩ := by
  obtain ⟨held, owned, ordered⟩ := sound.inOrder t
  rw [here] at ordered
  refine sound.update ⟨sound.kin.children, sound.kin.pending⟩ ?_
    ⟨held.erase k, ?_, after ▸ ordered.2⟩
  · intro u _
    exact (Function.forall_update_iff s.shared.owner fun l owner => owner = some u →
      s.shared.owner l = some u).mpr ⟨nofun, fun _ _ => id⟩
  · exact (Function.forall_update_iff s.shared.owner fun l owner => owner = some t →
      l ∈ held.erase k).mpr
      ⟨nofun, fun l other mine => (List.mem_erase_of_ne other).mpr (owned l mine)⟩

theorem Sound.step {a : Fin n × Move} {r : Unit} (sound : Sound parentAttr s)
    (orderly : Orderly parentAttr s a) (taken : step parentAttr s a = some (r, s')) :
    Sound parentAttr s' := by
  obtain ⟨t, m⟩ := a
  obtain ⟨place, sh, moved, rfl⟩ := Threads.step_eq_some taken
  cases m with
  | start call =>
      dsimp only [move] at moved
      split at moved
      case isFalse => cases moved
      case isTrue ready =>
        cases moved
        obtain ⟨held, owned, ordered⟩ := sound.inOrder t
        rw [ready.1] at ordered
        obtain rfl : held = [] := ordered
        exact sound.update sound.kin (fun _ _ _ => id)
          ⟨[], owned, ordered_start ready.2 orderly⟩
  | run outcome =>
      dsimp only [move] at moved
      split at moved
      case h_1 => cases moved
      case h_2 instr rest here =>
        obtain ⟨⟨code, got, after⟩, done, same⟩ := Option.map_eq_some_iff.mp moved
        cases same
        by_cases takes : ∃ k, instr = .lock k
        · obtain ⟨k, rfl⟩ := takes
          dsimp only [exec] at done
          split at done
          case isFalse => cases done
          case isTrue =>
            cases done
            exact sound.lock here rfl
        · by_cases gives : ∃ k, instr = .unlock k
          · obtain ⟨k, rfl⟩ := gives
            cases done
            exact sound.unlock here rfl
          · have not_lock (k : Lock) : instr ≠ .lock k := fun same => takes ⟨k, same⟩
            have not_unlock (k : Lock) : instr ≠ .unlock k := fun same => gives ⟨k, same⟩
            obtain ⟨held, owned, ordered⟩ := sound.inOrder t
            rw [here] at ordered
            have keeps := keeps_exec ordered.1 done not_lock not_unlock
            refine sound.update (keeps.kin sound.kin) ?_ ⟨held, ?_, ?_⟩
            · intro u _ k mine
              rw [keeps.owner] at mine
              exact mine
            · intro k mine
              rw [keeps.owner] at mine
              exact owned k mine
            · refine ordered.exec sound.kin ?_ done not_lock not_unlock
              rintro i rfl
              dsimp only [Orderly] at orderly
              rw [here] at orderly
              exact orderly

/-- In an orderly run a thread never tries to take a mutex it holds, and there is no
cycle of threads each waiting for a mutex of the next. -/
theorem no_cycle {childAttr : Ino → Nat → Option Ino} {acts : List (Fin n × Move)}
    {s : System n}
    (run : Run (step parentAttr) (Orderly parentAttr) (System.init n childAttr) acts s)
    (t : Fin n) :
    (∀ k, wants s t = some k → ¬ Holds s t k) ∧
      ¬ Relation.TransGen (WaitsFor (Holds s) (wants s)) t t := by
  have sound : Sound parentAttr s := run.invariant (P := Sound parentAttr)
    (fun _ _ _ _ sound orderly taken => sound.step orderly taken) (sound_init childAttr)
  have rises (u : Fin n) (k : Lock) (wanted : wants s u = some k) (l : Lock)
      (held : Holds s u l) : rank parentAttr l < rank parentAttr k := by
    obtain ⟨locks, owned, ordered⟩ := sound.inOrder u
    unfold wants at wanted
    split at wanted
    case h_1 here =>
      cases wanted
      rw [here] at ordered
      exact ordered.1 l (owned l held)
    case h_2 => cases wanted
  exact ⟨fun k wanted held => Nat.lt_irrefl _ (rises t k wanted k held),
    not_cycle_of_rank (rank parentAttr) rises t⟩

/-- A child `2` of a parent `1`. -/
def childOf : Ino → Option Ino := fun i => if i = 2 then some 1 else none

/-- The attributes of its parent. -/
def childrenOf : Ino → Nat → Option Ino := fun p index => if p = 1 ∧ index = 0 then some 2 else none

/-- Thread `t` starts a call and makes `moves` moves in it. -/
def goes (t : Fin n) (call : Call) (moves : Nat) : List (Fin n × Move) :=
  (t, .start call) :: List.replicate moves (t, .run false)

/-- A parent is attached with its child and put again, while another thread has
`frnd_version_cnt_lock` for the list of requests. -/
theorem no_cycle_put_while_processing :
    ∃ s : System 2, Run (step childOf) (Orderly childOf) (System.init 2 childrenOf)
        (goes 0 (.getInode 1 false) 74 ++ goes 1 (.processPending false) 2 ++
          goes 0 (.putInode 1 false) 6) s ∧
      wants s 0 = some .frndVersionCnt ∧ Holds s 1 .frndVersionCnt ∧
      Holds s 0 (.vfsInode 1) ∧ ¬ Relation.TransGen (WaitsFor (Holds s) (wants s)) 0 0 := by
  refine Run.exists_imp (fun s a => decide (Orderly childOf s a))
    (fun _ _ _ => of_decide_eq_true) (Q := fun s => wants s 0 = some .frndVersionCnt ∧
      Holds s 1 .frndVersionCnt ∧ Holds s 0 (.vfsInode 1)) (by decide +kernel) ?_
  intro s run ⟨wanted, other, held⟩
  exact ⟨wanted, other, held, (no_cycle run 0).2⟩

/-- A parent is attached with its child, once. Unlinking the child puts it, then its
parent, which is the last user of the parent, and then the child again: the thread
wants `frnd_version_cnt_lock`, which it holds. And with a second thread that puts the
parent meanwhile, the first has `frnd_version_cnt_lock` and wants the parent, the
second has the parent and wants `frnd_version_cnt_lock`. -/
theorem no_cycle_fails :
    (∃ s : System 1, Run (step childOf) (fun _ _ => True) (System.init 1 childrenOf)
        (goes 0 (.getInode 1 false) 74 ++ goes 0 (.unlinkChildFile 2) 15) s ∧
      wants s 0 = some .frndVersionCnt ∧ Holds s 0 .frndVersionCnt) ∧
    ∃ s : System 2, Run (step childOf) (fun _ _ => True) (System.init 2 childrenOf)
        (goes 0 (.getInode 1 false) 74 ++ goes 1 (.unlinkChildFile 2) 10 ++
          goes 0 (.putInode 1 false) 6) s ∧
      Relation.TransGen (WaitsFor (Holds s) (wants s)) 0 0 := by
  constructor
  · exact Run.exists_imp (fun _ _ => true) (fun _ _ _ _ => trivial) (by decide +kernel)
      fun _ _ shown => shown
  · refine Run.exists_imp (fun _ _ => true) (fun _ _ _ _ => trivial)
      (Q := fun s => (wants s 0 = some .frndVersionCnt ∧ Holds s 1 .frndVersionCnt) ∧
        wants s 1 = some (.vfsInode 1) ∧ Holds s 0 (.vfsInode 1)) (by decide +kernel) ?_
    intro s _ ⟨first, second⟩
    exact .tail (.single ⟨_, first⟩) ⟨_, second⟩

end FlexClone.Scorw.AttachLocks
