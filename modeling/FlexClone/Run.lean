import Mathlib

/-!
# Runs of a partial machine

`step s i` is the reply and the next state of input `i` in state `s`, or `none`
when the input cannot proceed there. `Run step ok s is s'` executes the inputs
`is` in order, each one meeting the side condition `ok` in the state it is
taken from.

* `Run.invariant`: what every admitted step preserves, every run preserves.
* `Run.exact_iff`: a run keeps a property in all its states exactly when every step of
  it is admitted, if that holds for single steps.
* `Run.interpret`: where every admitted step is a step of another machine on an interpreted
  input, a run is a run of that machine.
* `Run.append`, `Run.split`: runs compose.
* `Run.exists_imp`, `Run.exists_step_imp`: a run found by executing the inputs.
-/

namespace FlexClone

variable {σ ι ρ : Type*}

/-- `Run step ok s is s'`: the inputs `is` lead from `s` to `s'`, each meeting
`ok` where it is taken. -/
inductive Run (step : σ → ι → Option (ρ × σ)) (ok : σ → ι → Prop) : σ → List ι → σ → Prop
  | nil (s : σ) : Run step ok s [] s
  | cons {s s₁ s₂ : σ} {i : ι} {is : List ι} {r : ρ} :
    ok s i → step s i = some (r, s₁) → Run step ok s₁ is s₂ → Run step ok s (i :: is) s₂

namespace Run

variable {step : σ → ι → Option (ρ × σ)} {ok : σ → ι → Prop}

/-- An invariant of admitted steps is an invariant of runs. -/
theorem invariant {P : σ → Prop}
    (keep : ∀ s i r s', P s → ok s i → step s i = some (r, s') → P s')
    {s s' : σ} {is : List ι} (run : Run step ok s is s') (start : P s) : P s' := by
  induction run with
  | nil => exact start
  | cons admitted taken _ ih => exact ih (keep _ _ _ _ start admitted taken)

theorem imp {ok' : σ → ι → Prop} (weaker : ∀ s i, ok s i → ok' s i) {s s' : σ} {is : List ι}
    (run : Run step ok s is s') : Run step ok' s is s' := by
  induction run with
  | nil => exact .nil _
  | cons admitted taken _ ih => exact .cons (weaker _ _ admitted) taken ih

/-- A run of the steps another machine makes on the interpreted inputs. -/
theorem interpret {κ : Type*} {step' : σ → κ → Option (ρ × σ)} {ok' : σ → κ → Prop} (f : ι → κ)
    (matched : ∀ s i, ok s i → step s i = step' s (f i) ∧ ok' s (f i)) {s s' : σ} {is : List ι}
    (run : Run step ok s is s') : Run step' ok' s (is.map f) s' := by
  induction run with
  | nil => exact .nil _
  | cons admitted taken _ ih =>
      obtain ⟨same, admitted'⟩ := matched _ _ admitted
      exact .cons admitted' (same.symm.trans taken) ih

theorem head {P : σ → Prop} {s s' : σ} {is : List ι}
    (run : Run step (fun s _ => P s) s is s') (last : P s') : P s := by
  cases run with
  | nil => exact last
  | cons here => exact here

/-- Where a step keeps `P` exactly when it is admitted, so does a run in all its states.
`Q` is what else has to be known of the states. -/
theorem exact_iff {P Q : σ → Prop}
    (keep : ∀ s i r s', Q s → P s → ok s i → step s i = some (r, s') → Q s')
    (exact : ∀ s i r s', Q s → P s → step s i = some (r, s') → (P s' ↔ ok s i))
    {s s' : σ} {is : List ι} (known : Q s) (start : P s) :
    Run step (fun s _ => P s) s is s' ∧ P s' ↔ Run step ok s is s' := by
  constructor
  · rintro ⟨run, last⟩
    induction run with
    | nil => exact .nil _
    | cons here taken rest ih =>
        have next := head rest last
        have admitted := (exact _ _ _ _ known here taken).mp next
        exact .cons admitted taken (ih (keep _ _ _ _ known here admitted taken) next last)
  · intro run
    induction run with
    | nil => exact ⟨.nil _, start⟩
    | cons admitted taken _ ih =>
        obtain ⟨along, last⟩ := ih (keep _ _ _ _ known start admitted taken)
          ((exact _ _ _ _ known start taken).mpr admitted)
        exact ⟨.cons start taken along, last⟩

theorem append {s₁ s₂ s₃ : σ} {is js : List ι}
    (first : Run step ok s₁ is s₂) (second : Run step ok s₂ js s₃) :
    Run step ok s₁ (is ++ js) s₃ := by
  induction first with
  | nil => exact second
  | cons admitted taken _ ih => exact .cons admitted taken (ih second)

theorem split {s₁ s₃ : σ} {is js : List ι} (run : Run step ok s₁ (is ++ js) s₃) :
    ∃ s₂, Run step ok s₁ is s₂ ∧ Run step ok s₂ js s₃ := by
  induction is generalizing s₁ with
  | nil => exact ⟨s₁, .nil s₁, run⟩
  | cons i is ih =>
      cases run with
      | cons admitted taken rest =>
          obtain ⟨s₂, first, second⟩ := ih rest
          exact ⟨s₂, .cons admitted taken first, second⟩

/-- Execute the inputs in order, as long as each passes the check where it is taken. -/
def exec (step : σ → ι → Option (ρ × σ)) (check : σ → ι → Bool) : σ → List ι → Option σ
  | s, [] => some s
  | s, i :: is => if check s i then (step s i).bind fun r => exec step check r.2 is else none

theorem of_exec {check : σ → ι → Bool} {s s' : σ} {is : List ι}
    (admitted : ∀ i ∈ is, ∀ s, check s i = true → ok s i)
    (done : exec step check s is = some s') : Run step ok s is s' := by
  induction is generalizing s with
  | nil =>
      cases done
      exact .nil _
  | cons i is ih =>
      unfold exec at done
      split at done
      case isTrue passed =>
        obtain ⟨⟨r, s₁⟩, taken, rest⟩ := Option.bind_eq_some_iff.mp done
        exact .cons (admitted i List.mem_cons_self s passed) taken
          (ih (fun j member => admitted j (List.mem_cons_of_mem _ member)) rest)
      case isFalse => cases done

/-- Executing the inputs gives a run, with whatever can be computed of its end. -/
theorem exists_of_exec {check : σ → ι → Bool} {s : σ} {is : List ι} {p : σ → Bool}
    (admitted : ∀ i ∈ is, ∀ s, check s i = true → ok s i)
    (holds : (exec step check s is).any p = true) : ∃ s', Run step ok s is s' ∧ p s' = true := by
  obtain ⟨s', done, here⟩ := (Option.any_eq_true p _).mp holds
  exact ⟨s', of_exec admitted done, here⟩

/-- A run that is found by executing its inputs, with what follows from what is computed of
its end. -/
theorem exists_imp (check : σ → ι → Bool) {P Q : σ → Prop} [DecidablePred Q] {s : σ} {is : List ι}
    (admitted : ∀ i ∈ is, ∀ s, check s i = true → ok s i)
    (found : ((exec step check s is).any fun s' => decide (Q s')) = true)
    (follows : ∀ s', Run step ok s is s' → Q s' → P s') : ∃ s', Run step ok s is s' ∧ P s' := by
  obtain ⟨s', run, here⟩ := exists_of_exec admitted found
  exact ⟨s', run, follows s' run (of_decide_eq_true here)⟩

/-- The same with one more step. -/
theorem exists_step_imp [DecidableEq ρ] (check : σ → ι → Bool) {P Q : σ → σ → Prop}
    [∀ s s', Decidable (Q s s')] {s : σ} {is : List ι} {i : ι} {r : ρ}
    (admitted : ∀ i ∈ is, ∀ s, check s i = true → ok s i)
    (found : ((exec step check s is).any fun s₁ =>
      (step s₁ i).any fun out => decide (out.1 = r ∧ Q s₁ out.2)) = true)
    (follows : ∀ s₁ s₂, Run step ok s is s₁ → step s₁ i = some (r, s₂) → Q s₁ s₂ → P s₁ s₂) :
    ∃ s₁ s₂, Run step ok s is s₁ ∧ step s₁ i = some (r, s₂) ∧ P s₁ s₂ := by
  obtain ⟨s₁, run, last⟩ := exists_of_exec admitted found
  obtain ⟨⟨r', s₂⟩, taken, here⟩ := (Option.any_eq_true _ _).mp last
  obtain ⟨rfl, shown⟩ := of_decide_eq_true here
  exact ⟨s₁, s₂, run, taken, follows s₁ s₂ run taken shown⟩

end Run

end FlexClone
