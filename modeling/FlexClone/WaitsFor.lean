import Mathlib

/-!
# Who waits for whom

Threads hold locks and wait for one lock at a time. `Deadlocked` is a set of
threads each of which waits for a lock held by another one of the set, and
`WaitsFor` the edge from a thread to the one that holds the lock it waits for.

* `not_deadlocked_of_rank`: if the locks can be ranked so that a thread only waits
  for a lock above all others it holds, there is no deadlocked set.
* `not_cycle_of_rank`: if it only waits for a lock above all it holds, no thread
  reaches itself along the edges. In particular none waits for a lock of its own.
-/

namespace FlexClone

variable {τ κ : Type*} {holds : τ → κ → Prop} {wants : τ → Option κ}

/-- Every thread of the set waits for a lock that another thread of the set holds. -/
def Deadlocked (holds : τ → κ → Prop) (wants : τ → Option κ) (threads : Set τ) : Prop :=
  threads.Nonempty ∧
    ∀ t ∈ threads, ∃ u ∈ threads, u ≠ t ∧ ∃ k, wants t = some k ∧ holds u k

/-- Thread `t` waits for a lock that `u` holds. -/
def WaitsFor (holds : τ → κ → Prop) (wants : τ → Option κ) (t u : τ) : Prop :=
  ∃ k, wants t = some k ∧ holds u k

/-- Ranked locks with one holder each do not deadlock: the thread that waits for
the lock of highest rank would wait for one that waits for a higher lock. -/
theorem not_deadlocked_of_rank [Finite τ] (rank : κ → Nat)
    (exclusive : ∀ t u k, holds t k → holds u k → t = u)
    (rises : ∀ t k, wants t = some k → ∀ l, holds t l → l ≠ k → rank l < rank k)
    (threads : Set τ) : ¬ Deadlocked holds wants threads := by
  rintro ⟨nonempty, waiting⟩
  obtain ⟨t, member, highest⟩ := Set.exists_max_image threads
    (fun t => (wants t).elim 0 rank) (Set.toFinite threads) nonempty
  obtain ⟨u, member', _, k, wanted, held⟩ := waiting t member
  obtain ⟨v, _, other, k', wanted', held'⟩ := waiting u member'
  have different : k ≠ k' := by
    rintro rfl
    exact other (exclusive v u k held' held)
  have higher := rises u k' wanted' k held different
  have bound := highest u member'
  rw [wanted, wanted'] at bound
  exact absurd higher (Nat.not_lt.mpr bound)

/-- Along the edges the wanted lock rises in rank. -/
theorem rank_lt_of_waitsFor (rank : κ → Nat)
    (rises : ∀ t k, wants t = some k → ∀ l, holds t l → rank l < rank k) {t u : τ}
    (path : Relation.TransGen (WaitsFor holds wants) t u) {k l : κ} (wanted : wants t = some k)
    (wanted' : wants u = some l) : rank k < rank l := by
  induction path generalizing l with
  | single edge =>
      obtain ⟨k', first, held⟩ := edge
      cases wanted.symm.trans first
      exact rises _ l wanted' k held
  | tail _ edge ih =>
      obtain ⟨k', middle, held⟩ := edge
      exact (ih middle).trans (rises _ l wanted' k' held)

theorem not_cycle_of_rank (rank : κ → Nat)
    (rises : ∀ t k, wants t = some k → ∀ l, holds t l → rank l < rank k) (t : τ) :
    ¬ Relation.TransGen (WaitsFor holds wants) t t := by
  intro cycle
  obtain ⟨k, wanted⟩ : ∃ k, wants t = some k := by
    obtain ⟨_, edge, _⟩ := Relation.TransGen.head'_iff.mp cycle
    exact ⟨edge.choose, edge.choose_spec.1⟩
  exact Nat.lt_irrefl _ (rank_lt_of_waitsFor rank rises cycle wanted wanted)

end FlexClone
