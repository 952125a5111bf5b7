/-
Counting tasks by where they are.

The state of a concurrent component has a map `pc : Tid → κ` that says where
each task is in its code.  `total w pc` adds up a weight of these places over
all tasks: the tokens the tasks have taken and not yet given back, the tasks in
a critical section.  A step moves one task, so that it changes the total by the
difference of two weights.

* `total_update` — what moving one task does;
* `eq_of_total_le_one` — two tasks cannot both be in a section whose total is
  at most one.
-/
import Mathlib.Algebra.BigOperators.Group.Finset.Basic
import Mathlib.Algebra.Order.BigOperators.Group.Finset
import Mathlib.Data.Fintype.Basic

namespace Census

open Function Finset

variable {Tid κ : Type*} [Fintype Tid] {w w' : κ → ℕ} {pc : Tid → κ} {t u : Tid}

/-- The weight of the places of all tasks. -/
def total (w : κ → ℕ) (pc : Tid → κ) : ℕ := ∑ t, w (pc t)

theorem total_eq_zero (h : ∀ t, w (pc t) = 0) : total w pc = 0 :=
  sum_eq_zero fun t _ => h t

theorem weight_le_total (w : κ → ℕ) (pc : Tid → κ) (t : Tid) : w (pc t) ≤ total w pc :=
  single_le_sum (f := fun t => w (pc t)) (fun _ _ => Nat.zero_le _) (mem_univ t)

variable [DecidableEq Tid]

theorem total_update (w : κ → ℕ) (pc : Tid → κ) (t : Tid) (c : κ) :
    total w (update pc t c) + w (pc t) = total w pc + w c := by
  have hrest : ∑ u ∈ Finset.univ.erase t, w (update pc t c u) =
      ∑ u ∈ Finset.univ.erase t, w (pc u) :=
    sum_congr rfl fun u hu => by
      rw [update_of_ne (ne_of_mem_erase hu)]
  have hnew := add_sum_erase Finset.univ (fun u => w (update pc t c u))
    (mem_univ t)
  have hold := add_sum_erase Finset.univ (fun u => w (pc u)) (mem_univ t)
  simp only [update_self] at hnew
  unfold total
  omega

theorem add_weight_le_total (w : κ → ℕ) (pc : Tid → κ) (h : t ≠ u) :
    w (pc t) + w (pc u) ≤ total w pc := by
  have hrest := add_sum_erase Finset.univ (fun u => w (pc u)) (mem_univ t)
  have hu : w (pc u) ≤ ∑ v ∈ Finset.univ.erase t, w (pc v) :=
    single_le_sum (f := fun t => w (pc t)) (fun _ _ => Nat.zero_le _)
      (mem_erase.mpr ⟨h.symm, mem_univ u⟩)
  unfold total
  omega

theorem eq_of_total_le_one (h : total w pc ≤ 1) (ht : 0 < w (pc t)) (hu : 0 < w (pc u)) :
    t = u := by
  by_contra hne
  have := add_weight_le_total w pc hne
  omega

theorem total_eq_zero_of_exclusive (hle : ∀ c, w' c ≤ w c) (h : total w pc ≤ 1)
    (ht : 0 < w (pc t)) (ht' : w' (pc t) = 0) : total w' pc = 0 := by
  refine total_eq_zero fun u => ?_
  by_contra hne
  have hpos : 0 < w' (pc u) := Nat.pos_of_ne_zero hne
  obtain rfl : t = u := eq_of_total_le_one h ht (hpos.trans_le (hle _))
  exact hne ht'

end Census
