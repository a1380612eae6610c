import Mathlib.Algebra.GroupWithZero.Nat
import Mathlib.Algebra.BigOperators.Group.List.Basic
import Mathlib.Tactic.Common

/-! @scheme credits | name:Credits of ticketed items | family:potential

    Items carry the ticket of the call that brought them, and each item has a credit: what may still be spent on
    it. If all that is spent comes out of the credits of items with the same ticket, then no ticket costs more
    than the credit of its first item, however often items are moved, copied into other lists or dropped. -/

namespace Schemes

variable {τ α : Type} [DecidableEq τ]

/-- The credit of the items with the ticket. -/
def credits (credit : α → ℕ) (t : τ) (items : List (τ × α)) : ℕ :=
  (items.map fun item => if item.1 = t then credit item.2 else 0).sum

variable (credit : α → ℕ) (t : τ)

@[simp] theorem credits_nil : credits credit t [] = 0 := rfl

@[simp] theorem credits_cons (item : τ × α) (items : List (τ × α)) :
    credits credit t (item :: items) = (if item.1 = t then credit item.2 else 0) + credits credit t items := by
  rw [credits, List.map_cons, List.sum_cons, credits]

@[simp] theorem credits_append (items items' : List (τ × α)) :
    credits credit t (items ++ items') = credits credit t items + credits credit t items' := by
  rw [credits, List.map_append, List.sum_append, credits, credits]

theorem credits_erase [DecidableEq α] {item : τ × α} {items : List (τ × α)} (h : item ∈ items) :
    credits credit t items = (if item.1 = t then credit item.2 else 0) + credits credit t (items.erase item) := by
  have hperm := (List.perm_cons_erase h).map fun item => if item.1 = t then credit item.2 else 0
  rw [credits, hperm.sum_eq, List.map_cons, List.sum_cons, credits]

end Schemes
