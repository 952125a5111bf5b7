/-
Waiting for one another.

A task that is blocked on a resource waits for the tasks that hold it.  A
deadlock is a cycle of tasks each of which waits for the next; one task that is
blocked on what it holds itself is the shortest such cycle.

* `no_cycle_of_rank` — there is none if the tasks have ranks such that a task
  only ever waits for blocked tasks of a smaller rank.
-/
import Mathlib.Logic.Relation
import Mathlib.Order.Defs.PartialOrder

namespace Deadlock

variable {Tid Res : Type*} {blocked holds : Tid → Res → Prop}

/-- Task `t` is blocked on something that `u` holds. -/
def WaitsFor (blocked holds : Tid → Res → Prop) (t u : Tid) : Prop :=
  ∃ x, blocked t x ∧ holds u x

/-- Some task waits, through other tasks or directly, for itself. -/
def Cycle (blocked holds : Tid → Res → Prop) : Prop :=
  ∃ t, Relation.TransGen (WaitsFor blocked holds) t t

theorem no_cycle_of_rank {α : Type*} [Preorder α] (rank : Tid → α)
    (h : ∀ t u, WaitsFor blocked holds t u → (∃ x, blocked u x) → rank u < rank t) :
    ¬ Cycle blocked holds := by
  have hlt : ∀ t u, Relation.TransGen (WaitsFor blocked holds) t u → (∃ x, blocked u x) →
      rank u < rank t := by
    intro t u hpath
    induction hpath with
    | single hw => exact h t _ hw
    | @tail v w _ hw ih =>
      -- `v` waits, so it is blocked itself
      intro hblocked
      obtain ⟨x, hx, -⟩ := id hw
      exact lt_trans (h v w hw hblocked) (ih ⟨x, hx⟩)
  rintro ⟨t, hpath⟩
  have hblocked : ∃ x, blocked t x := by
    obtain ⟨u, ⟨x, hx, -⟩, -⟩ := Relation.TransGen.head'_iff.mp hpath
    exact ⟨x, hx⟩
  exact lt_irrefl _ (hlt t t hpath hblocked)

end Deadlock
