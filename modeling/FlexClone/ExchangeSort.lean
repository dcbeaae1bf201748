import Mathlib

/-!
# Exchange sort

The nested loops `for i, for j > i, if a[i] > a[j] then swap` on a list: one pass
carries the smallest element to the front, leaving the others in the order the
swaps give them, and the sort goes on behind it.

* `exchangeSort_perm`: the result is a permutation.
* `exchangeSort_sorted`: the result is in ascending order.
-/

namespace FlexClone

variable {α : Type*} [LinearOrder α]

/-- The inner loop: `x` is compared with every later element and swapped with the
smaller ones. -/
def exchangePass : α → List α → α × List α
  | x, [] => (x, [])
  | x, y :: ys =>
      if y < x then
        let rest := exchangePass y ys
        (rest.1, x :: rest.2)
      else
        let rest := exchangePass x ys
        (rest.1, y :: rest.2)

theorem exchangePass_perm (x : α) (ys : List α) :
    ((exchangePass x ys).1 :: (exchangePass x ys).2).Perm (x :: ys) := by
  induction ys generalizing x with
  | nil => exact List.Perm.refl _
  | cons y ys ih =>
      unfold exchangePass
      split
      case isTrue =>
        have rest := (ih y).cons x
        exact (List.Perm.swap _ _ _).trans rest
      case isFalse =>
        have rest := (ih x).cons y
        exact (List.Perm.swap _ _ _).trans (rest.trans (List.Perm.swap _ _ _))

theorem length_exchangePass (x : α) (ys : List α) :
    (exchangePass x ys).2.length = ys.length := by
  have lengths := (exchangePass_perm x ys).length_eq
  simpa using lengths

theorem exchangePass_le (x : α) (ys : List α) :
    ∀ z ∈ x :: ys, (exchangePass x ys).1 ≤ z := by
  induction ys generalizing x with
  | nil =>
      intro z member
      rw [List.mem_singleton.mp member]
      exact le_rfl
  | cons y ys ih =>
      intro z member
      unfold exchangePass
      split
      case isTrue less =>
        dsimp only
        rcases List.mem_cons.mp member with rfl | later
        · exact le_trans (ih y y List.mem_cons_self) less.le
        · exact ih y z later
      case isFalse notLess =>
        dsimp only
        have front := ih x x List.mem_cons_self
        rcases List.mem_cons.mp member with rfl | later
        · exact front
        · rcases List.mem_cons.mp later with rfl | rest
          · exact le_trans front (not_lt.mp notLess)
          · exact ih x z (List.mem_cons_of_mem x rest)

/-- `n` rounds of the outer loop. -/
def exchangeRounds : Nat → List α → List α
  | 0, xs => xs
  | _ + 1, [] => []
  | n + 1, x :: xs =>
      let pass := exchangePass x xs
      pass.1 :: exchangeRounds n pass.2

/-- One round for each position. -/
def exchangeSort (xs : List α) : List α := exchangeRounds xs.length xs

theorem exchangeRounds_perm (n : Nat) (xs : List α) : (exchangeRounds n xs).Perm xs := by
  induction n generalizing xs with
  | zero => exact List.Perm.refl _
  | succ n ih =>
      cases xs with
      | nil => exact List.Perm.refl _
      | cons x xs => exact ((ih _).cons _).trans (exchangePass_perm x xs)

theorem exchangeRounds_sorted {n : Nat} {xs : List α} (enough : xs.length ≤ n) :
    (exchangeRounds n xs).Pairwise (· ≤ ·) := by
  induction n generalizing xs with
  | zero =>
      rw [List.length_eq_zero_iff.mp (Nat.le_zero.mp enough)]
      exact List.Pairwise.nil
  | succ n ih =>
      cases xs with
      | nil => exact List.Pairwise.nil
      | cons x xs =>
          have rest : (exchangePass x xs).2.length ≤ n := by
            rw [length_exchangePass]
            exact Nat.le_of_succ_le_succ enough
          refine List.pairwise_cons.mpr ⟨fun z member => ?_, ih rest⟩
          -- what is left of the pass is among the elements it was run on
          have left : z ∈ (exchangePass x xs).2 := (exchangeRounds_perm _ _).mem_iff.mp member
          exact exchangePass_le x xs z
            ((exchangePass_perm x xs).mem_iff.mp (List.mem_cons_of_mem _ left))

theorem exchangeSort_perm (xs : List α) : (exchangeSort xs).Perm xs := exchangeRounds_perm _ xs

theorem exchangeSort_sorted (xs : List α) : (exchangeSort xs).Pairwise (· ≤ ·) :=
  exchangeRounds_sorted le_rfl

end FlexClone
