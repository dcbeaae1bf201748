import Mathlib

/-!
# Stores that may fail

A list of stores into a map, each of which may fail and leave the map as it is. What is stored
under a key depends on the key only, so that it does not matter which of several stores under
one key succeeds.

* `storeAll_apply`: what is in the map afterwards.
* `storeAll_eq_self_iff`: when nothing has changed.
-/

namespace FlexClone

variable {κ : Type*} {β : κ → Type*} [DecidableEq κ]

/-- The stores in order, each with whether it succeeds. -/
def storeAll (value : ∀ k, β k) (m : ∀ k, Option (β k)) (attempts : List (κ × Bool)) :
    ∀ k, Option (β k) :=
  attempts.foldl (fun m a => if a.2 then Function.update m a.1 (some (value a.1)) else m) m

variable {value : ∀ k, β k}

theorem storeAll_apply (m : ∀ k, Option (β k)) (attempts : List (κ × Bool)) (k : κ) :
    storeAll value m attempts k = if (k, true) ∈ attempts then some (value k) else m k := by
  induction attempts generalizing m with
  | nil => rfl
  | cons a attempts ih =>
      obtain ⟨k', succeeds⟩ := a
      refine (ih _).trans ?_
      by_cases later : (k, true) ∈ attempts
      · rw [if_pos later, if_pos (List.mem_cons_of_mem _ later)]
      · rw [if_neg later]
        cases succeeds with
        | false =>
            have same : (k, true) ∉ (k', false) :: attempts := by simp [later]
            rw [if_neg same]
            rfl
        | true =>
            dsimp only
            rw [if_pos rfl]
            by_cases here : k = k'
            · subst here
              rw [Function.update_self, if_pos List.mem_cons_self]
            · have other : (k, true) ∉ (k', true) :: attempts := by simp [later, here]
              rw [Function.update_of_ne here, if_neg other]

/-- Nothing changes exactly when every store that succeeds finds its value there. -/
theorem storeAll_eq_self_iff {m : ∀ k, Option (β k)} {attempts : List (κ × Bool)} :
    storeAll value m attempts = m ↔ ∀ k, (k, true) ∈ attempts → m k = some (value k) := by
  constructor
  · intro same k stored
    rw [← same, storeAll_apply, if_pos stored]
  · intro there
    funext k
    rw [storeAll_apply]
    split
    case isTrue stored => exact (there k stored).symm
    case isFalse => rfl

end FlexClone
