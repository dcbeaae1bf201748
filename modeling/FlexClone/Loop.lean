import Mathlib.Data.List.Nodup
import Mathlib.Logic.Function.Basic

/-!
# Loops

A loop that may not end is a step on its variables: it goes on with new ones or leaves with
a result. `Returns` says that enough passes lead to a result.

* `returns_iff_of_inl`, `returns_iff_of_inr`: one pass.
* `not_returns_of_stuck`: a pass that changes nothing is repeated for ever.

A `sweep` goes through a list of indices and changes one cell at each.

* `apply_sweep`, `apply_sweep_of_notMem`: the cells, one by one, if no index comes twice.
-/

namespace FlexClone.Loop

variable {σ ρ : Type*}

/-- At most `fuel` passes of the loop. -/
def run (step : σ → σ ⊕ ρ) : Nat → σ → Option ρ
  | 0, _ => none
  | fuel + 1, s =>
      match step s with
      | .inl s' => run step fuel s'
      | .inr r => some r

/-- The loop leaves with a result. -/
def Returns (step : σ → σ ⊕ ρ) (s : σ) (r : ρ) : Prop := ∃ fuel, run step fuel s = some r

variable {step : σ → σ ⊕ ρ} {s s' : σ} {r r' : ρ}

theorem returns_iff_of_inl (next : step s = .inl s') : Returns step s r ↔ Returns step s' r := by
  constructor
  · rintro ⟨fuel, result⟩
    cases fuel with
    | zero => cases result
    | succ fuel =>
        rw [run, next] at result
        exact ⟨fuel, result⟩
  · rintro ⟨fuel, result⟩
    refine ⟨fuel + 1, ?_⟩
    rw [run, next]
    exact result

theorem returns_iff_of_inr (leaves : step s = .inr r') : Returns step s r ↔ r' = r := by
  constructor
  · rintro ⟨fuel, result⟩
    cases fuel with
    | zero => cases result
    | succ fuel =>
        rw [run, leaves] at result
        exact Option.some.inj result
  · rintro rfl
    refine ⟨1, ?_⟩
    rw [run, leaves]

theorem not_returns_of_stuck (stuck : step s = .inl s) : ¬ Returns step s r := by
  rintro ⟨fuel, result⟩
  induction fuel with
  | zero => cases result
  | succ fuel ih =>
      rw [run, stuck] at result
      exact ih result

/-! ## Sweeps -/

section Sweep

variable {ι α : Type*} [DecidableEq ι]

/-- Change the cells with the given indices in turn; `none` when one of them cannot be. -/
def sweep (f : ι → α → Option α) : List ι → (ι → α) → Option (ι → α)
  | [], m => some m
  | i :: is, m => (f i (m i)).bind fun a => sweep f is (Function.update m i a)

variable {f : ι → α → Option α} {is : List ι} {m m' : ι → α} {i : ι}

theorem apply_sweep_of_notMem (out : i ∉ is) (swept : sweep f is m = some m') : m' i = m i := by
  induction is generalizing m with
  | nil =>
      cases swept
      rfl
  | cons j is ih =>
      obtain ⟨a, _, swept⟩ := Option.bind_eq_some_iff.mp swept
      obtain ⟨other, out⟩ := not_or.mp (mt List.mem_cons.mpr out)
      rw [ih out swept, Function.update_of_ne other]

theorem apply_sweep (once : is.Nodup) (member : i ∈ is) (swept : sweep f is m = some m') :
    f i (m i) = some (m' i) := by
  induction is generalizing m with
  | nil => cases member
  | cons j is ih =>
      obtain ⟨a, here, swept⟩ := Option.bind_eq_some_iff.mp swept
      obtain ⟨new, once⟩ := List.nodup_cons.mp once
      rcases List.mem_cons.mp member with rfl | member
      · rw [apply_sweep_of_notMem new swept, Function.update_self, here]
      · have other : i ≠ j := fun same => new (same ▸ member)
        rw [← ih once member swept, Function.update_of_ne other]

end Sweep

end FlexClone.Loop
