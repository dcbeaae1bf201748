import Mathlib

/-!
# Growing files of cells

A file is a size and a cell for every position; positions at or past the size
read as the default cell. Writing past the end grows the file and leaves the gap
filled with default cells.

* `byteAt_overlay`: reading after a write, at every position.
* `put_append`: writing two adjacent runs one after the other is one write.
* `Keeps`: a file grown from another one without touching its first cells.
-/

namespace FlexClone

/-- A file of cells of type `β`. -/
@[ext]
structure ByteFile (β : Type*) where
  size : Nat
  cell : Nat → β

namespace ByteFile

variable {β : Type*} [Inhabited β]

/-- The cell at `x`, the default cell past the end. -/
def byteAt (f : ByteFile β) (x : Nat) : β :=
  if x < f.size then f.cell x else default

/-- The cell at `x`, if the file reaches that far. -/
def get? (f : ByteFile β) (x : Nat) : Option β :=
  if x < f.size then some (f.byteAt x) else none

/-- Replace the `len` cells from `pos` on by those of `g`. -/
def overlay (f : ByteFile β) (pos len : Nat) (g : Nat → β) : ByteFile β where
  size := max f.size (pos + len)
  cell x := if pos ≤ x ∧ x < pos + len then g (x - pos) else f.byteAt x

/-- Write a run of cells at `pos`. -/
def put (f : ByteFile β) (pos : Nat) (bs : List β) : ByteFile β :=
  f.overlay pos bs.length fun i => bs.getD i default

/-- The cells of `g` where `p` holds, and those of `f` elsewhere. -/
def patch (f g : ByteFile β) (p : Nat → Prop) [DecidablePred p] : ByteFile β where
  size := max f.size g.size
  cell x := if p x then g.byteAt x else f.byteAt x

/-- A file of default cells. -/
def blank (size : Nat) : ByteFile β := ⟨size, fun _ => default⟩

@[simp] theorem size_overlay (f : ByteFile β) (pos len : Nat) (g : Nat → β) :
    (f.overlay pos len g).size = max f.size (pos + len) := rfl

@[simp] theorem size_put (f : ByteFile β) (pos : Nat) (bs : List β) :
    (f.put pos bs).size = max f.size (pos + bs.length) := rfl

theorem byteAt_of_size_le {f : ByteFile β} {x : Nat} (past : f.size ≤ x) :
    f.byteAt x = default := if_neg (Nat.not_lt.mpr past)

theorem byteAt_blank (size x : Nat) : (blank size : ByteFile β).byteAt x = default := ite_self _

theorem byteAt_patch (f g : ByteFile β) (p : Nat → Prop) [DecidablePred p] (x : Nat) :
    (f.patch g p).byteAt x = if p x then g.byteAt x else f.byteAt x := by
  by_cases inside : x < max f.size g.size
  · exact if_pos inside
  · rw [byteAt_of_size_le (f := f) (by omega), byteAt_of_size_le (f := g) (by omega), ite_self]
    exact if_neg inside

theorem byteAt_overlay (f : ByteFile β) (pos len : Nat) (g : Nat → β) (x : Nat) :
    (f.overlay pos len g).byteAt x =
      if pos ≤ x ∧ x < pos + len then g (x - pos) else f.byteAt x := by
  by_cases inside : x < max f.size (pos + len)
  · exact if_pos inside
  · have old : f.size ≤ x := by omega
    have miss : ¬ (pos ≤ x ∧ x < pos + len) := by omega
    rw [if_neg miss, byteAt_of_size_le old]
    exact if_neg inside

theorem byteAt_overlay_of_hit (f : ByteFile β) {pos len x : Nat} (g : Nat → β)
    (lower : pos ≤ x) (upper : x < pos + len) :
    (f.overlay pos len g).byteAt x = g (x - pos) := by
  rw [byteAt_overlay, if_pos ⟨lower, upper⟩]

theorem byteAt_overlay_of_miss (f : ByteFile β) {pos len x : Nat} (g : Nat → β)
    (miss : x < pos ∨ pos + len ≤ x) :
    (f.overlay pos len g).byteAt x = f.byteAt x := by
  rw [byteAt_overlay, if_neg (by omega)]

theorem byteAt_put_of_hit (f : ByteFile β) {pos x : Nat} {bs : List β}
    (lower : pos ≤ x) (upper : x < pos + bs.length) :
    (f.put pos bs).byteAt x = bs.getD (x - pos) default :=
  byteAt_overlay_of_hit f _ lower upper

theorem byteAt_put_of_miss (f : ByteFile β) {pos x : Nat} {bs : List β}
    (miss : x < pos ∨ pos + bs.length ≤ x) : (f.put pos bs).byteAt x = f.byteAt x :=
  byteAt_overlay_of_miss f _ miss

/-- Writing nothing into a file that has been written to changes nothing. -/
theorem put_nil_overlay {f : ByteFile β} {pos len p : Nat} {g : Nat → β}
    (inside : p ≤ (f.overlay pos len g).size) :
    (f.overlay pos len g).put p [] = f.overlay pos len g := by
  ext x
  · rw [size_put, List.length_nil]
    exact max_eq_left inside
  · have miss : ¬ (p ≤ x ∧ x < p + ([] : List β).length) := by
      rw [List.length_nil]
      omega
    have cell : ((f.overlay pos len g).put p []).cell x = (f.overlay pos len g).byteAt x :=
      if_neg miss
    rw [cell, byteAt_overlay]
    rfl

/-- Two adjacent runs written in order are one run. -/
theorem put_append (f : ByteFile β) (pos : Nat) (as bs : List β) :
    (f.put pos as).put (pos + as.length) bs = f.put pos (as ++ bs) := by
  refine ByteFile.ext ?_ (funext fun x => ?_)
  · simp only [size_put, List.length_append]
    omega
  · change (if pos + as.length ≤ x ∧ x < pos + as.length + bs.length
        then bs.getD (x - (pos + as.length)) default else (f.put pos as).byteAt x) =
      if pos ≤ x ∧ x < pos + (as ++ bs).length
        then (as ++ bs).getD (x - pos) default else f.byteAt x
    rw [List.length_append]
    by_cases second : pos + as.length ≤ x ∧ x < pos + as.length + bs.length
    · rw [if_pos second, if_pos (by omega), List.getD_append_right _ _ _ _ (by omega)]
      congr 1
      omega
    · rw [if_neg second]
      by_cases first : pos ≤ x ∧ x < pos + as.length
      · rw [byteAt_put_of_hit f first.1 first.2, if_pos (by omega),
          List.getD_append _ _ _ _ (by omega)]
      · rw [byteAt_put_of_miss f (by omega), if_neg (by omega)]

/-! ## Files that keep what is below a position -/

/-- `g` is at least as long as `f` and reads as `f` below `p`. -/
structure Keeps (p : Nat) (f g : ByteFile β) : Prop where
  size_le : f.size ≤ g.size
  byteAt_eq : ∀ x < p, g.byteAt x = f.byteAt x

theorem Keeps.refl (p : Nat) (f : ByteFile β) : Keeps p f f := ⟨le_rfl, fun _ _ => rfl⟩

theorem Keeps.trans {p : Nat} {f g h : ByteFile β} (first : Keeps p f g) (second : Keeps p g h) :
    Keeps p f h :=
  ⟨le_trans first.size_le second.size_le,
    fun x below => (second.byteAt_eq x below).trans (first.byteAt_eq x below)⟩

theorem Keeps.mono {p q : Nat} {f g : ByteFile β} (keeps : Keeps p f g) (le : q ≤ p) :
    Keeps q f g := ⟨keeps.size_le, fun x below => keeps.byteAt_eq x (by omega)⟩

theorem get?_eq_some_iff {f : ByteFile β} {x : Nat} {b : β} :
    f.get? x = some b ↔ x < f.size ∧ f.byteAt x = b := by
  unfold get?
  split
  case isTrue inside => simp only [Option.some.injEq, inside, true_and]
  case isFalse outside => simp only [reduceCtorEq, outside, false_and]

/-- What could be read below the position reads the same. -/
theorem Keeps.get? {p x : Nat} {f g : ByteFile β} {b : β} (keeps : Keeps p f g) (below : x < p)
    (read : f.get? x = some b) : g.get? x = some b := by
  obtain ⟨inside, value⟩ := get?_eq_some_iff.mp read
  exact get?_eq_some_iff.mpr
    ⟨lt_of_lt_of_le inside keeps.size_le, (keeps.byteAt_eq x below).trans value⟩

theorem keeps_overlay {p pos : Nat} (f : ByteFile β) (len : Nat) (g : Nat → β) (le : p ≤ pos) :
    Keeps p f (f.overlay pos len g) :=
  ⟨le_max_left _ _, fun _ below => byteAt_overlay_of_miss f g (.inl (by omega))⟩

theorem keeps_put {p pos : Nat} (f : ByteFile β) (bs : List β) (le : p ≤ pos) :
    Keeps p f (f.put pos bs) := keeps_overlay f _ _ le

end ByteFile

end FlexClone
