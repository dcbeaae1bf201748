import Mathlib.Logic.Function.Basic

/-!
# Memory with addresses

A heap hands out addresses one after the other and never hands out one twice, so that an
address stands for one object for ever: after `free` its cell is empty and stays so.

* `cell_alloc`, `cell_modify`, `cell_free`: what an operation does to the cells.
-/

namespace FlexClone

/-- Objects at addresses; nothing is at `next` or above. -/
structure Heap (α : Type*) where
  cell : Nat → Option α
  next : Nat
  unused : ∀ a, next ≤ a → cell a = none

namespace Heap

variable {α : Type*}

def empty : Heap α := ⟨fun _ => none, 0, fun _ _ => rfl⟩

/-- A new object, at the address `next`. -/
def alloc (h : Heap α) (v : α) : Heap α where
  cell := Function.update h.cell h.next (some v)
  next := h.next + 1
  unused a above := by
    rw [Function.update_of_ne (by omega)]
    exact h.unused a (by omega)

/-- Change the object at an address; a store to an empty cell is lost. -/
def modify (h : Heap α) (a : Nat) (f : α → α) : Heap α where
  cell := Function.update h.cell a ((h.cell a).map f)
  next := h.next
  unused b above := by
    by_cases here : b = a
    · subst here
      rw [Function.update_self, h.unused b above]
      rfl
    · rw [Function.update_of_ne here]
      exact h.unused b above

def free (h : Heap α) (a : Nat) : Heap α where
  cell := Function.update h.cell a none
  next := h.next
  unused b above := by
    by_cases here : b = a
    · rw [here, Function.update_self]
    · rw [Function.update_of_ne here]
      exact h.unused b above

variable (h : Heap α)

theorem cell_alloc (v : α) (a : Nat) :
    (h.alloc v).cell a = if a = h.next then some v else h.cell a := by
  simp only [alloc, Function.update_apply]

theorem cell_modify (a : Nat) (f : α → α) (b : Nat) :
    (h.modify a f).cell b = if b = a then (h.cell a).map f else h.cell b := by
  simp only [modify, Function.update_apply]

theorem cell_free (a b : Nat) : (h.free a).cell b = if b = a then none else h.cell b := by
  simp only [free, Function.update_apply]

variable {h}

end Heap

end FlexClone
