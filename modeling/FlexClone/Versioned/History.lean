import Mathlib

/-!
# Versioned histories

A history is a list of bindings, each made at some version; later bindings of
one version override earlier ones. `History.delta` is the sparse map that the
bindings of one version leave behind, and `History.visible` walks the versions
downwards from a given one and returns the first binding it meets.

Nothing here mentions a file system: keys and values are arbitrary types.

* `visible_append_of_above`: bindings above the queried version are invisible.
* `visible_succ_of_fresh`: a version without bindings is transparent.
* `visible_eq_some_iff`, `visible_eq_none_iff`: the walk in terms of positions
  in the list.
* `visible_eq_lastUpTo_of_sorted`: on a history of non-decreasing versions the walk
  is the last binding of the key at or below the version.
-/

namespace FlexClone.Versioned

/-- A binding of `key` to `value` made at `version`. -/
structure Entry (κ ν : Type*) where
  version : Nat
  key : κ
  value : ν

/-- A sparse map. -/
abbrev Delta (κ ν : Type*) := κ → Option ν

abbrev History (κ ν : Type*) := List (Entry κ ν)

variable {κ ν : Type*} [DecidableEq κ]

namespace Delta

def empty : Delta κ ν := fun _ => none

def store (m : Delta κ ν) (k : κ) (x : ν) : Delta κ ν :=
  Function.update m k (some x)

theorem store_apply (m : Delta κ ν) (k k' : κ) (x : ν) :
    m.store k x k' = if k' = k then some x else m k' := by
  simp only [store, Function.update_apply]

end Delta

namespace History

/-- One binding replayed into the map of version `v`. -/
def replayEntry (v : Nat) (m : Delta κ ν) (e : Entry κ ν) : Delta κ ν :=
  if e.version = v then m.store e.key e.value else m

/-- The map left by all bindings of version `v`, in order. -/
def delta (es : History κ ν) (v : Nat) : Delta κ ν :=
  es.foldl (replayEntry v) Delta.empty

/-- The first binding met when walking the versions down from `v` to `1`. -/
def visible (es : History κ ν) : Nat → κ → Option ν
  | 0, _ => none
  | v + 1, k => (delta es (v + 1) k).or (visible es v k)

/-! ## The map of one version -/

/-- Replaying on top of a map keeps the map's bindings underneath. -/
theorem foldl_replayEntry_apply (v : Nat) (es : History κ ν) (m : Delta κ ν) (k : κ) :
    es.foldl (replayEntry v) m k = (delta es v k).or (m k) := by
  induction es generalizing m with
  | nil => rfl
  | cons e es ih =>
      have start : (e :: es).foldl (replayEntry v) m = es.foldl (replayEntry v)
          (replayEntry v m e) := rfl
      have whole : delta (e :: es) v = es.foldl (replayEntry v)
          (replayEntry v Delta.empty e) := rfl
      rw [start, whole, ih, ih]
      by_cases same : e.version = v
      · simp only [replayEntry, if_pos same, Delta.store_apply]
        by_cases hit : k = e.key
        · simp only [if_pos hit, Option.or_some, Option.some_or]
        · simp only [if_neg hit, Delta.empty, Option.or_none]
      · simp only [replayEntry, if_neg same, Delta.empty, Option.or_none]

theorem delta_append (es fs : History κ ν) (v : Nat) (k : κ) :
    delta (es ++ fs) v k = (delta fs v k).or (delta es v k) := by
  have split : delta (es ++ fs) v = fs.foldl (replayEntry v) (delta es v) := by
    simp only [delta, List.foldl_append]
  rw [split, foldl_replayEntry_apply]

@[simp] theorem delta_nil (v : Nat) (k : κ) : delta ([] : History κ ν) v k = none := rfl

theorem delta_singleton (e : Entry κ ν) (v : Nat) (k : κ) :
    delta [e] v k = if e.version = v ∧ k = e.key then some e.value else none := by
  by_cases same : e.version = v
  · simp [delta, replayEntry, same, Delta.store_apply, Delta.empty]
  · simp [delta, replayEntry, same, Delta.empty]

/-- A version without bindings of the key leaves the key unbound. -/
theorem delta_eq_none_iff {es : History κ ν} {v : Nat} {k : κ} :
    delta es v k = none ↔ ∀ e ∈ es, e.version = v → e.key ≠ k := by
  induction es with
  | nil => simp
  | cons e es ih =>
      rw [← List.singleton_append, delta_append, Option.or_eq_none_iff, ih, delta_singleton]
      simp only [List.singleton_append, List.mem_cons, forall_eq_or_imp]
      constructor
      · rintro ⟨rest, head⟩
        refine ⟨fun same hit => ?_, rest⟩
        rw [if_pos ⟨same, hit.symm⟩] at head
        cases head
      · rintro ⟨head, rest⟩
        exact ⟨rest, if_neg fun both => head both.1 both.2.symm⟩

/-- A binding found at version `v` is the last one of that version and key. -/
theorem delta_eq_some_iff {es : History κ ν} {v : Nat} {k : κ} {x : ν} :
    delta es v k = some x ↔
      ∃ before e after, es = before ++ e :: after ∧ e.version = v ∧ e.key = k ∧
        e.value = x ∧ ∀ f ∈ after, f.version = v → f.key ≠ k := by
  constructor
  · intro found
    induction es with
    | nil => cases found
    | cons e es ih =>
        rw [← List.singleton_append, delta_append] at found
        rcases Option.or_eq_some_iff.mp found with later | ⟨none, here⟩
        · obtain ⟨before, f, after, rfl, rest⟩ := ih later
          exact ⟨e :: before, f, after, rfl, rest⟩
        · rw [delta_singleton] at here
          split at here
          case isTrue both =>
            exact ⟨[], e, es, rfl, both.1, both.2.symm, Option.some.inj here,
              delta_eq_none_iff.mp none⟩
          case isFalse => cases here
  · rintro ⟨before, e, after, rfl, same, hit, value, last⟩
    rw [delta_append, ← List.singleton_append, delta_append,
      delta_eq_none_iff.mpr last, delta_singleton, if_pos ⟨same, hit.symm⟩, value]
    rfl

theorem delta_eq_none_of_fresh {es : History κ ν} {v : Nat}
    (fresh : ∀ e ∈ es, e.version ≠ v) (k : κ) : delta es v k = none :=
  delta_eq_none_iff.mpr fun e member same => (fresh e member same).elim

/-! ## The walk over versions -/

@[simp] theorem visible_zero (es : History κ ν) (k : κ) : visible es 0 k = none := rfl

theorem visible_succ (es : History κ ν) (v : Nat) (k : κ) :
    visible es (v + 1) k = (delta es (v + 1) k).or (visible es v k) := rfl

/-- The walk depends only on the maps of the versions it passes. -/
theorem visible_congr {es fs : History κ ν} {v : Nat} {k : κ}
    (same : ∀ w ≤ v, delta es w k = delta fs w k) : visible es v k = visible fs v k := by
  induction v with
  | zero => rfl
  | succ v ih =>
      rw [visible_succ, visible_succ, same (v + 1) le_rfl,
        ih fun w le => same w (Nat.le_succ_of_le le)]

/-- Bindings above the queried version do not show. -/
theorem visible_append_of_above {es fs : History κ ν} {v : Nat}
    (above : ∀ e ∈ fs, v < e.version) (k : κ) : visible (es ++ fs) v k = visible es v k := by
  induction v with
  | zero => rfl
  | succ v ih =>
      have skipped : delta fs (v + 1) k = none :=
        delta_eq_none_of_fresh (fun e member => (Nat.ne_of_lt (above e member)).symm) k
      rw [visible_succ, visible_succ, delta_append, skipped, Option.none_or,
        ih fun e member => Nat.lt_of_succ_lt (above e member)]

/-- A version without bindings shows what the version below shows. -/
theorem visible_succ_of_fresh {es : History κ ν} {v : Nat}
    (fresh : ∀ e ∈ es, e.version ≠ v + 1) (k : κ) :
    visible es (v + 1) k = visible es v k := by
  rw [visible_succ, delta_eq_none_of_fresh fresh, Option.none_or]

/-- Versions at or above every binding of the key all show the same. -/
theorem visible_of_le_of_below {es : History κ ν} {v w : Nat} (le : v ≤ w)
    (below : ∀ e ∈ es, e.version ≤ v) (k : κ) : visible es w k = visible es v k := by
  induction w, le using Nat.le_induction with
  | base => rfl
  | succ w le ih =>
      rw [visible_succ_of_fresh (fun e member => ?_), ih]
      have := below e member
      omega

theorem visible_eq_none_iff {es : History κ ν} {v : Nat} {k : κ} :
    visible es v k = none ↔
      ∀ e ∈ es, 1 ≤ e.version → e.version ≤ v → e.key ≠ k := by
  induction v with
  | zero =>
      simp only [visible_zero, true_iff]
      intro e _ pos le
      omega
  | succ v ih =>
      rw [visible_succ, Option.or_eq_none_iff, delta_eq_none_iff, ih]
      constructor
      · rintro ⟨top, rest⟩ e member pos le
        rcases Nat.lt_or_eq_of_le le with lt | eq
        · exact rest e member pos (Nat.lt_succ_iff.mp lt)
        · exact top e member eq
      · intro all
        exact ⟨fun e member eq => all e member (by omega) (by omega),
          fun e member pos le => all e member pos (by omega)⟩

/-- What the walk finds is the last binding of the key in the greatest version
at or below `v` that binds the key at all. -/
theorem visible_eq_some_iff {es : History κ ν} {v : Nat} {k : κ} {x : ν} :
    visible es v k = some x ↔
      ∃ w, 1 ≤ w ∧ w ≤ v ∧ delta es w k = some x ∧
        ∀ u, w < u → u ≤ v → delta es u k = none := by
  induction v with
  | zero =>
      simp only [visible_zero, reduceCtorEq, false_iff]
      rintro ⟨w, pos, le, _⟩
      omega
  | succ v ih =>
      rw [visible_succ, Option.or_eq_some_iff, ih]
      constructor
      · rintro (top | ⟨none, w, pos, le, found, clear⟩)
        · exact ⟨v + 1, by omega, le_rfl, top, fun u lt le => by omega⟩
        · refine ⟨w, pos, by omega, found, fun u lt le => ?_⟩
          rcases Nat.lt_or_eq_of_le le with below | rfl
          · exact clear u lt (Nat.lt_succ_iff.mp below)
          · exact none
      · rintro ⟨w, pos, le, found, clear⟩
        rcases Nat.lt_or_eq_of_le le with below | rfl
        · exact .inr ⟨clear (v + 1) below le_rfl, w, pos, Nat.lt_succ_iff.mp below, found,
            fun u lt le => clear u lt (by omega)⟩
        · exact .inl found

/-- Whatever shows was bound by some entry of the history. -/
theorem exists_entry_of_visible {es : History κ ν} {v : Nat} {k : κ} {x : ν}
    (found : visible es v k = some x) :
    ∃ e ∈ es, 1 ≤ e.version ∧ e.version ≤ v ∧ e.key = k ∧ e.value = x := by
  obtain ⟨w, pos, le, here, _⟩ := visible_eq_some_iff.mp found
  obtain ⟨before, e, after, rfl, same, hit, value, _⟩ := delta_eq_some_iff.mp here
  exact ⟨e, by simp, by omega, by omega, hit, value⟩

/-! ## Histories of non-decreasing versions -/

/-- Versions never decrease along the history. -/
def Sorted (es : History κ ν) : Prop :=
  es.Pairwise fun e f => e.version ≤ f.version

/-- The last binding of `k` at a version from `1` to `v`. -/
def lastUpTo (es : History κ ν) (v : Nat) (k : κ) : Option ν :=
  (es.reverse.find? fun e => decide (1 ≤ e.version ∧ e.version ≤ v ∧ e.key = k)).map Entry.value

/-- On a sorted history the walk finds the last binding at or below `v`. -/
theorem visible_eq_some_of_sorted {before after : History κ ν} {e : Entry κ ν} {v : Nat} {k : κ}
    (sorted : Sorted (before ++ e :: after)) (pos : 1 ≤ e.version) (le : e.version ≤ v)
    (hit : e.key = k) (last : ∀ f ∈ after, f.version ≤ v → f.key ≠ k) :
    visible (before ++ e :: after) v k = some e.value := by
  have tail : ∀ f ∈ after, e.version ≤ f.version := by
    have := (List.pairwise_append.mp sorted).2.1
    exact (List.pairwise_cons.mp this).1
  have head : ∀ f ∈ before, f.version ≤ e.version := fun f member =>
    (List.pairwise_append.mp sorted).2.2 f member e List.mem_cons_self
  refine visible_eq_some_iff.mpr ⟨e.version, pos, le, ?_, fun u lt upper => ?_⟩
  · exact delta_eq_some_iff.mpr ⟨before, e, after, rfl, rfl, hit, rfl,
      fun f member same => last f member (by omega)⟩
  · refine delta_eq_none_iff.mpr fun f member same => ?_
    rcases List.mem_append.mp member with early | late
    · have := head f early
      omega
    · rcases List.mem_cons.mp late with rfl | late
      · omega
      · exact last f late (by omega)

theorem visible_eq_lastUpTo_of_sorted {es : History κ ν} (sorted : Sorted es) (v : Nat) (k : κ) :
    visible es v k = lastUpTo es v k := by
  unfold lastUpTo
  cases found : es.reverse.find? fun e =>
      decide (1 ≤ e.version ∧ e.version ≤ v ∧ e.key = k) with
  | none =>
      rw [Option.map_none, visible_eq_none_iff]
      intro e member pos le hit
      have miss := List.find?_eq_none.mp found e (List.mem_reverse.mpr member)
      exact miss (decide_eq_true ⟨pos, le, hit⟩)
  | some e =>
      rw [Option.map_some]
      obtain ⟨here, after, before, split, miss⟩ := List.find?_eq_some_iff_append.mp found
      obtain ⟨pos, le, hit⟩ := of_decide_eq_true here
      have whole : es = before.reverse ++ e :: after.reverse := by
        rw [← List.reverse_reverse es, split]
        simp
      rw [whole] at sorted ⊢
      refine visible_eq_some_of_sorted sorted pos le hit fun f member upper same => ?_
      have order : e.version ≤ f.version :=
        (List.pairwise_cons.mp (List.pairwise_append.mp sorted).2.1).1 f member
      have := miss f (List.mem_reverse.mp member)
      simp only [Bool.not_eq_eq_eq_not, Bool.not_true, decide_eq_false_iff_not] at this
      exact this ⟨by omega, upper, same⟩

end History

end FlexClone.Versioned
