import Mathlib

/-!
# Interleaved threads

A system of threads is what they share and the place each of them is at. A
thread moves by a local function of the shared part and its own place; whatever
the other threads do in between is another move. `step` is one move of one
thread, in the form `Run` takes.

`count` is the number of threads at places of a kind, when there are finitely many
of them; `count_update` is what one move does to it.
-/

namespace FlexClone

variable {τ σ π μ ρ : Type*}

/-- Threads `τ` at places `π` over a shared part `σ`. -/
structure Threads (τ σ π : Type*) where
  shared : σ
  place : τ → π

namespace Threads

variable [DecidableEq τ] {move : τ → σ → π → μ → Option (ρ × π × σ)}

/-- Thread `t` makes the move `m`. -/
def step (move : τ → σ → π → μ → Option (ρ × π × σ)) (s : Threads τ σ π) (t : τ) (m : μ) :
    Option (ρ × Threads τ σ π) :=
  (move t s.shared (s.place t) m).map fun moved =>
    (moved.1, ⟨moved.2.2, Function.update s.place t moved.2.1⟩)

theorem step_eq_some {s s' : Threads τ σ π} {t : τ} {m : μ} {reply : ρ}
    (taken : step move s t m = some (reply, s')) :
    ∃ place shared, move t s.shared (s.place t) m = some (reply, place, shared) ∧
      s' = ⟨shared, Function.update s.place t place⟩ := by
  obtain ⟨⟨reply', place, shared⟩, moved, same⟩ := Option.map_eq_some_iff.mp taken
  cases same
  exact ⟨place, shared, moved, rfl⟩

/-- A thread is the one that has moved, or where it was. -/
theorem update_cases {place : τ → π} {t u : τ} {p q : π}
    (here : Function.update place t p u = q) : u = t ∧ p = q ∨ u ≠ t ∧ place u = q := by
  by_cases mover : u = t
  · rw [mover, Function.update_self] at here
    exact .inl ⟨mover, here⟩
  · rw [Function.update_of_ne mover] at here
    exact .inr ⟨mover, here⟩

section Counting

variable [Fintype τ] (P : π → Prop) [DecidablePred P]

/-- The number of threads at places of a kind. -/
def count (place : τ → π) : Nat := (Finset.univ.filter fun t => P (place t)).card

variable {P}

/-- A move of one thread counts its old place out and its new place in. -/
theorem count_update (place : τ → π) (t : τ) (p : π) :
    count P (Function.update place t p) + (if P (place t) then 1 else 0) =
      count P place + if P p then 1 else 0 := by
  have others : ∀ u ∈ Finset.univ.erase t,
      (if P (Function.update place t p u) then 1 else 0) = if P (place u) then 1 else 0 := by
    intro u member
    rw [Function.update_of_ne (Finset.ne_of_mem_erase member)]
  simp only [count, Finset.card_filter]
  rw [← Finset.add_sum_erase _ _ (Finset.mem_univ t), Finset.sum_congr rfl others,
    ← Finset.add_sum_erase Finset.univ (fun u => if P (place u) then 1 else 0)
      (Finset.mem_univ t), Function.update_self]
  omega

omit [DecidableEq τ] in
theorem count_eq_zero_iff {place : τ → π} : count P place = 0 ↔ ∀ t, ¬ P (place t) := by
  simp [count, Finset.filter_eq_empty_iff]

omit [DecidableEq τ] in
theorem count_pos_iff {place : τ → π} : 0 < count P place ↔ ∃ t, P (place t) := by
  simp [count, Finset.card_pos, Finset.filter_nonempty_iff]

omit [DecidableEq τ] in
theorem eq_of_count_le_one {place : τ → π} (one : count P place ≤ 1) {t u : τ}
    (first : P (place t)) (second : P (place u)) : t = u := by
  refine Finset.card_le_one.mp one t ?_ u ?_
  all_goals simpa

end Counting

end Threads

end FlexClone
