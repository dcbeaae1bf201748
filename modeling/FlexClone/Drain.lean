import Mathlib

/-!
# Reading to the end in pieces

A reader fills one buffer after the other, each from where the last read ended, until a
read returns nothing. How much a read returns is its own affair, as long as it returns a
piece of the content, and nothing only where the content ends (`Delivers`).

* `Delivers.complete`: whatever the sizes of the buffers, what is returned up to the end
  holds every cell of a content without gaps.
* `Delivers.stops`: the reading ends, at the latest where the content does.
-/

namespace FlexClone

variable {σ β : Type*}

/-- Read from `pos` on into buffers of the given sizes until a read returns nothing. The
flag says whether one did. -/
def drain (read : σ → Nat → Nat → List β × σ) : List Nat → σ → Nat → List β × Bool
  | [], _, _ => ([], false)
  | n :: sizes, s, pos =>
      let got := read s pos n
      if got.1.isEmpty then ([], true)
      else
        let rest := drain read sizes got.2 (pos + got.1.length)
        (got.1 ++ rest.1, rest.2)

/-- In the states of `ok`, which reads do not leave, a read returns a piece of `view`, and
nothing only where `view` ends. -/
structure Delivers (read : σ → Nat → Nat → List β × σ) (ok : σ → Prop) (view : Nat → Option β) :
    Prop where
  keep : ∀ {s}, ok s → ∀ pos n, ok (read s pos n).2
  piece : ∀ {s}, ok s → ∀ pos n i b, (read s pos n).1[i]? = some b → view (pos + i) = some b
  ends : ∀ {s}, ok s → ∀ pos n, 0 < n → (read s pos n).1 = [] → view pos = none

namespace Delivers

variable {read : σ → Nat → Nat → List β × σ} {ok : σ → Prop} {view : Nat → Option β}

/-- What is read is a piece of the content. -/
theorem drain_piece (delivers : Delivers read ok view) {sizes : List Nat} {s : σ} (here : ok s)
    {pos i : Nat} {b : β} (got : (drain read sizes s pos).1[i]? = some b) :
    view (pos + i) = some b := by
  induction sizes generalizing s pos i with
  | nil => simp [drain] at got
  | cons n sizes ih =>
      unfold drain at got
      dsimp only at got
      split at got
      · simp at got
      · rw [List.getElem?_append] at got
        split at got
        · exact delivers.piece here pos n i b got
        case isFalse later =>
          have rest := ih (delivers.keep here pos n) got
          rw [← rest]
          congr 1
          omega

/-- Where the reading stops the content ends. -/
theorem drain_ends (delivers : Delivers read ok view) {sizes : List Nat}
    (positive : ∀ n ∈ sizes, 0 < n) {s : σ} (here : ok s) {pos : Nat}
    (stopped : (drain read sizes s pos).2 = true) :
    view (pos + (drain read sizes s pos).1.length) = none := by
  induction sizes generalizing s pos with
  | nil => cases stopped
  | cons n sizes ih =>
      unfold drain at stopped ⊢
      dsimp only at stopped ⊢
      split
      case isTrue empty =>
        exact delivers.ends here pos n (positive n List.mem_cons_self) (List.isEmpty_iff.mp empty)
      case isFalse some =>
        rw [if_neg some] at stopped
        have rest := ih (fun m member => positive m (List.mem_cons_of_mem _ member))
          (delivers.keep here pos n) stopped
        rw [List.length_append, ← Nat.add_assoc]
        exact rest

/-- As long as the reading goes on every read returns something. -/
theorem length_drain {sizes : List Nat} {s : σ} {pos : Nat}
    (going : (drain read sizes s pos).2 = false) :
    sizes.length ≤ (drain read sizes s pos).1.length := by
  induction sizes generalizing s pos with
  | nil => exact Nat.zero_le _
  | cons n sizes ih =>
      unfold drain at going ⊢
      dsimp only at going ⊢
      split
      case isTrue empty =>
        rw [if_pos empty] at going
        cases going
      case isFalse some =>
        rw [if_neg some] at going
        have rest := ih going
        have first : 0 < (read s pos n).1.length := by
          apply List.length_pos_iff.mpr
          intro none
          exact some (List.isEmpty_iff.mpr none)
        rw [List.length_cons, List.length_append]
        omega

/-- A content without gaps is read whole. -/
theorem complete (delivers : Delivers read ok view) {sizes : List Nat}
    (positive : ∀ n ∈ sizes, 0 < n) {s : σ} (here : ok s)
    (stopped : (drain read sizes s 0).2 = true) {size : Nat} {cell : Nat → β}
    (content : ∀ x < size, view x = some (cell x)) {x : Nat} (inside : x < size) :
    (drain read sizes s 0).1[x]? = some (cell x) := by
  have last := delivers.drain_ends positive here stopped
  rw [Nat.zero_add] at last
  have reached : x < (drain read sizes s 0).1.length := by
    by_contra short
    rw [content _ (by omega)] at last
    cases last
  have got := List.getElem?_eq_getElem reached
  have same := delivers.drain_piece here got
  rw [Nat.zero_add, content x inside] at same
  rw [got, Option.some.inj same]

/-- The reading ends. -/
theorem stops (delivers : Delivers read ok view) {sizes : List Nat} {s : σ} (here : ok s) {x : Nat}
    (past : view x = none) (enough : x < sizes.length) : (drain read sizes s 0).2 = true := by
  by_contra going
  have long := length_drain (Bool.eq_false_iff.mpr going)
  have got := List.getElem?_eq_getElem (lt_of_lt_of_le enough long)
  have same := delivers.drain_piece here got
  rw [Nat.zero_add, past] at same
  cases same

end Delivers

end FlexClone
