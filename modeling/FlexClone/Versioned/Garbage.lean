import FlexClone.Versioned.History

/-!
# Values of a history that no reader needs

A collector walks a history of non-decreasing versions and remembers the latest
binding of every key. A binding that is replaced was visible to the readers from
its own version up to the version of its successor; when no reader's version lies
there, its value is garbage. Keys start with a base value at version `0`.

`Readers` are the versions readers have. The collector asks `needed v w`: does a
reader have a version from `v` up to, but not including, `w`?

* `mem_garbage_iff`: what the collector collects.
* `not_visible_of_garbage`: no reader sees a collected value.
* `mem_garbage_of_not_visible`: a replaced value that no reader sees is collected.
-/

namespace FlexClone.Versioned

variable {κ ν : Type*} [DecidableEq κ]

/-- The latest binding of each key, and the values that turned out to be garbage. -/
structure Collector (κ ν : Type*) where
  latest : κ → Option (Nat × ν)
  garbage : List ν

namespace Collector

def start : Collector κ ν := ⟨fun _ => none, []⟩

/-- The version of the current binding of a key. -/
def version (c : Collector κ ν) (k : κ) : Nat := ((c.latest k).map Prod.fst).getD 0

/-- The current value of a key. -/
def value (base : κ → ν) (c : Collector κ ν) (k : κ) : ν :=
  ((c.latest k).map Prod.snd).getD (base k)

/-- One binding: the value it replaces is garbage unless a reader needs it. -/
def step (needed : Nat → Nat → Bool) (base : κ → ν) (c : Collector κ ν) (e : Entry κ ν) :
    Collector κ ν where
  latest := Function.update c.latest e.key (some (e.version, e.value))
  garbage :=
    if needed (c.version e.key) e.version then c.garbage else c.value base e.key :: c.garbage

/-- The whole walk. -/
def collect (needed : Nat → Nat → Bool) (base : κ → ν) (es : History κ ν) : Collector κ ν :=
  es.foldl (step needed base) start

end Collector

namespace History

/-- The last binding of a key. -/
def lastOf (es : History κ ν) (k : κ) : Option (Entry κ ν) :=
  es.reverse.find? fun e => decide (e.key = k)

theorem lastOf_concat (es : History κ ν) (e : Entry κ ν) (k : κ) :
    lastOf (es ++ [e]) k = if e.key = k then some e else lastOf es k := by
  unfold lastOf
  rw [List.reverse_append, List.reverse_singleton, List.singleton_append, List.find?_cons]
  split
  case h_1 same => rw [if_pos (of_decide_eq_true same)]
  case h_2 other => rw [if_neg (of_decide_eq_false other)]

theorem mem_of_lastOf {es : History κ ν} {k : κ} {e : Entry κ ν} (last : lastOf es k = some e) :
    e ∈ es ∧ e.key = k := by
  have hit := List.find?_some last
  exact ⟨List.mem_reverse.mp (List.mem_of_find?_eq_some last), of_decide_eq_true hit⟩

theorem lastOf_of_split {before after : History κ ν} {e : Entry κ ν} {k : κ} (hit : e.key = k)
    (last : ∀ f ∈ after, f.key ≠ k) : lastOf (before ++ e :: after) k = some e := by
  unfold lastOf
  rw [List.reverse_append, List.reverse_cons, List.append_assoc, List.find?_append]
  have miss : after.reverse.find? (fun f => decide (f.key = k)) = none := by
    apply List.find?_eq_none.mpr
    intro f member
    simpa using last f (List.mem_reverse.mp member)
  rw [miss, Option.none_or, List.singleton_append, List.find?_cons, decide_eq_true hit]

end History

open History

section Collected

variable {needed : Nat → Nat → Bool} {base : κ → ν}

theorem collect_concat (es : History κ ν) (e : Entry κ ν) :
    Collector.collect needed base (es ++ [e]) =
      (Collector.collect needed base es).step needed base e := by
  unfold Collector.collect
  rw [List.foldl_append, List.foldl_cons, List.foldl_nil]

/-- The collector's table holds the last bindings. -/
theorem latest_collect (es : History κ ν) (k : κ) :
    (Collector.collect needed base es).latest k =
      (lastOf es k).map fun e => (e.version, e.value) := by
  induction es using List.reverseRecOn with
  | nil => rfl
  | append_singleton es e ih =>
      rw [collect_concat, lastOf_concat]
      unfold Collector.step
      dsimp only
      rw [Function.update_apply, ih]
      by_cases same : k = e.key
      · rw [if_pos same, if_pos same.symm, Option.map_some]
      · rw [if_neg same, if_neg (Ne.symm same)]

/-- What is collected: the values replaced while nobody needs them. -/
theorem mem_garbage_iff {es : History κ ν} {x : ν} :
    x ∈ (Collector.collect needed base es).garbage ↔
      ∃ before e after, es = before ++ e :: after ∧
        needed ((Collector.collect needed base before).version e.key) e.version = false ∧
        (Collector.collect needed base before).value base e.key = x := by
  induction es using List.reverseRecOn with
  | nil =>
      constructor
      · intro member
        cases member
      · rintro ⟨before, e, after, split, _⟩
        simp at split
  | append_singleton es e ih =>
      have garbage : x ∈ (Collector.collect needed base (es ++ [e])).garbage ↔
          x ∈ (Collector.collect needed base es).garbage ∨
            needed ((Collector.collect needed base es).version e.key) e.version = false ∧
              (Collector.collect needed base es).value base e.key = x := by
        rw [collect_concat]
        unfold Collector.step
        dsimp only
        split
        case isTrue busy => simp [busy]
        case isFalse idle =>
          rw [List.mem_cons, Bool.not_eq_true _ |>.mp idle]
          simp [or_comm, eq_comm]
      rw [garbage, ih]
      constructor
      · rintro (⟨before, f, after, rfl, rest⟩ | here)
        · exact ⟨before, f, after ++ [e], by simp, rest⟩
        · exact ⟨es, e, [], rfl, here⟩
      · rintro ⟨before, f, after, split, rest⟩
        rcases List.eq_nil_or_concat after with rfl | ⟨after, last, rfl⟩
        · obtain ⟨rfl, same⟩ := List.append_inj' split rfl
          obtain rfl := List.singleton_inj.mp same
          exact .inr rest
        · left
          rw [List.concat_eq_append, ← List.cons_append, ← List.append_assoc] at split
          obtain ⟨rfl, _⟩ := List.append_inj' split rfl
          exact ⟨before, f, after, rfl, rest⟩

/-- What is collected stays collected. -/
theorem mem_garbage_append {es : History κ ν} {x : ν} (fs : History κ ν)
    (garbage : x ∈ (Collector.collect needed base es).garbage) :
    x ∈ (Collector.collect needed base (es ++ fs)).garbage := by
  obtain ⟨before, e, after, split, rest⟩ := mem_garbage_iff.mp garbage
  refine mem_garbage_iff.mpr ⟨before, e, after ++ fs, ?_, rest⟩
  rw [split, List.append_assoc, List.cons_append]

/-- A key that is bound has the version and the value of its last binding. -/
theorem collect_of_lastOf {es : History κ ν} {k : κ} {e : Entry κ ν}
    (last : lastOf es k = some e) :
    (Collector.collect needed base es).version k = e.version ∧
      (Collector.collect needed base es).value base k = e.value := by
  unfold Collector.version Collector.value
  rw [latest_collect, last]
  exact ⟨rfl, rfl⟩

theorem version_collect_of_none {es : History κ ν} {k : κ} (unbound : lastOf es k = none) :
    (Collector.collect needed base es).version k = 0 := by
  unfold Collector.version
  rw [latest_collect, unbound]
  rfl

end Collected

/-! ## Readers -/

/-- `needed` answers for a set of readers, which has a reader at version `0`. -/
structure Serves (needed : Nat → Nat → Bool) (readers : Nat → Prop) : Prop where
  base : readers 0
  iff : ∀ v w, needed v w = true ↔ ∃ a, readers a ∧ v ≤ a ∧ a < w

section Readers

variable {needed : Nat → Nat → Bool} {readers : Nat → Prop} {base : κ → ν} {es : History κ ν}

/-- Collected values were bound, and a later binding of the same key came before any
reader's version. -/
theorem exists_of_garbage (serves : Serves needed readers) (positive : ∀ e ∈ es, 1 ≤ e.version)
    {x : ν} (garbage : x ∈ (Collector.collect needed base es).garbage) :
    ∃ before e after f, es = before ++ f :: after ∧ e ∈ before ∧ e.value = x ∧ e.key = f.key ∧
      ∀ a, readers a → e.version ≤ a → f.version ≤ a := by
  obtain ⟨before, f, after, split, unneeded, value⟩ := mem_garbage_iff.mp garbage
  have unused : ∀ a, readers a → (Collector.collect needed base before).version f.key ≤ a →
      f.version ≤ a := by
    intro a reader lower
    by_contra above
    have busy := (serves.iff _ _).mpr ⟨a, reader, lower, Nat.not_le.mp above⟩
    rw [unneeded] at busy
    cases busy
  cases last : lastOf before f.key with
  | none =>
      -- the base value is needed by the reader at version 0
      have first : 1 ≤ f.version := by
        apply positive f
        rw [split]
        exact List.mem_append_right _ List.mem_cons_self
      have := unused 0 serves.base (version_collect_of_none last).le
      omega
  | some e =>
      obtain ⟨member, key⟩ := mem_of_lastOf last
      rw [(collect_of_lastOf last).1] at unused
      rw [(collect_of_lastOf last).2] at value
      exact ⟨before, e, after, f, split, member, value, key, unused⟩

/-- A later binding that a reader can see hides the earlier ones. -/
theorem visible_of_later (sorted : Sorted es) (positive : ∀ e ∈ es, 1 ≤ e.version)
    {before after : History κ ν} {f : Entry κ ν} (split : es = before ++ f :: after) {a : Nat}
    (seen : f.version ≤ a) : ∃ g ∈ f :: after, visible es a f.key = some g.value := by
  have found : ((f :: after).reverse.find? fun e =>
      decide (1 ≤ e.version ∧ e.version ≤ a ∧ e.key = f.key)).isSome := by
    apply List.find?_isSome.mpr
    refine ⟨f, List.mem_reverse.mpr List.mem_cons_self, decide_eq_true ⟨?_, seen, rfl⟩⟩
    apply positive f
    rw [split]
    exact List.mem_append_right _ List.mem_cons_self
  obtain ⟨g, shape⟩ := Option.isSome_iff_exists.mp found
  refine ⟨g, List.mem_reverse.mp (List.mem_of_find?_eq_some shape), ?_⟩
  rw [visible_eq_lastUpTo_of_sorted sorted, split]
  unfold lastUpTo
  rw [List.reverse_append, List.find?_append, shape, Option.some_or, Option.map_some]

/-- No reader sees a collected value. -/
theorem not_visible_of_garbage (serves : Serves needed readers) (sorted : Sorted es)
    (positive : ∀ e ∈ es, 1 ≤ e.version) (distinct : es.Pairwise fun e f => e.value ≠ f.value)
    {x : ν} (garbage : x ∈ (Collector.collect needed base es).garbage) {a : Nat}
    (reader : readers a) (k : κ) : visible es a k ≠ some x := by
  intro shown
  obtain ⟨before, e, after, f, split, member, value, key, unused⟩ :=
    exists_of_garbage serves positive garbage
  obtain ⟨g, inside, _, below, hit, same⟩ := exists_entry_of_visible shown
  -- only one binding has the value
  have nodup : (es.map Entry.value).Nodup := List.pairwise_map.mpr distinct
  have inHistory : e ∈ es := by
    rw [split]
    exact List.mem_append_left _ member
  obtain rfl := List.inj_on_of_nodup_map nodup inside inHistory (same.trans value.symm)
  obtain ⟨g', later, hidden⟩ := visible_of_later sorted positive split (unused a reader below)
  rw [← key, hit, shown] at hidden
  rw [split] at distinct
  exact (List.pairwise_append.mp distinct).2.2 g member g' later
    (same.trans (Option.some.inj hidden))

/-- A replaced value that no reader sees is collected. -/
theorem mem_garbage_of_not_visible (serves : Serves needed readers) (sorted : Sorted es)
    (positive : ∀ e ∈ es, 1 ≤ e.version) {before after : History κ ν} {e : Entry κ ν}
    (split : es = before ++ e :: after) (replaced : ∃ f ∈ after, f.key = e.key)
    (unseen : ∀ a, readers a → visible es a e.key ≠ some e.value) :
    e.value ∈ (Collector.collect needed base es).garbage := by
  have found : (after.find? fun f => decide (f.key = e.key)).isSome := by
    obtain ⟨f, member, same⟩ := replaced
    exact List.find?_isSome.mpr ⟨f, member, decide_eq_true same⟩
  obtain ⟨f, shape⟩ := Option.isSome_iff_exists.mp found
  obtain ⟨hit, mid, rest, tail, miss⟩ := List.find?_eq_some_iff_append.mp shape
  have key : f.key = e.key := of_decide_eq_true hit
  have clear : ∀ g ∈ mid, g.key ≠ e.key := by
    intro g member
    simpa using miss g member
  have last : lastOf (before ++ e :: mid) f.key = some e := by
    rw [key]
    exact lastOf_of_split rfl clear
  have whole : es = (before ++ e :: mid) ++ f :: rest := by
    rw [split, tail, List.append_assoc, List.cons_append]
  refine mem_garbage_iff.mpr ⟨before ++ e :: mid, f, rest, whole, ?_, (collect_of_lastOf last).2⟩
  rw [(collect_of_lastOf last).1]
  by_contra busy
  obtain ⟨a, reader, lower, upper⟩ := (serves.iff _ _).mp (Bool.not_eq_false _ |>.mp busy)
  apply unseen a reader
  have first : 1 ≤ e.version := by
    apply positive e
    rw [split]
    exact List.mem_append_right _ List.mem_cons_self
  have order := sorted
  rw [whole] at order
  have above : ∀ g ∈ f :: rest, f.version ≤ g.version := by
    intro g member
    rcases List.mem_cons.mp member with rfl | later
    · exact le_rfl
    · exact (List.pairwise_cons.mp (List.pairwise_append.mp order).2.1).1 g later
  rw [split] at sorted ⊢
  refine visible_eq_some_of_sorted sorted first lower rfl fun g member seen => ?_
  rw [tail] at member
  rcases List.mem_append.mp member with early | late
  · exact clear g early
  · have := above g late
    omega

end Readers

end FlexClone.Versioned
