/-
Slots that each hold at most one object.

A page directory refers to page tables, and page tables to page frames: a
function `F : ι → Option β` says what each slot holds, and `held S F` is the
multiset of everything held in the slots `S`.  That this multiset has no
duplicates says that no two slots hold the same object.

* `held_put`, `held_take` — filling an empty slot, emptying a full one;
* `slot_unique` — two slots that hold the same object are the same slot.
-/
import Mathlib.Algebra.BigOperators.Group.Finset.Basic
import Mathlib.Data.Multiset.Basic

namespace Holders

open Function Finset

variable {ι β : Type*} [DecidableEq ι]

/-- Everything held in the slots `S`. -/
def held (S : Finset ι) (F : ι → Option β) : Multiset β :=
  ∑ i ∈ S, (F i).elim 0 fun b => {b}

variable {S : Finset ι} {F G : ι → Option β} {i j : ι} {b : β}

omit [DecidableEq ι] in
theorem mem_held : b ∈ held S F ↔ ∃ i ∈ S, F i = some b := by
  rw [held, Multiset.mem_sum]
  refine exists_congr fun i => and_congr_right fun _ => ?_
  cases F i with
  | none => simp
  | some c => simp [eq_comm]

omit [DecidableEq ι] in
theorem held_congr (h : ∀ i ∈ S, F i = G i) : held S F = held S G :=
  sum_congr rfl fun i hi => by rw [h i hi]

omit [DecidableEq ι] in
theorem held_eq_zero (h : ∀ i ∈ S, F i = none) : held S F = 0 :=
  sum_eq_zero fun i hi => by rw [h i hi]; rfl

theorem held_put (hi : i ∈ S) (h : F i = none) (b : β) :
    held S (update F i (some b)) = b ::ₘ held S F := by
  have hrest : ∀ j ∈ S.erase i,
      (update F i (some b) j).elim 0 (fun b => ({b} : Multiset β)) =
        (F j).elim 0 fun b => {b} := by
    intro j hj
    rw [update_of_ne (ne_of_mem_erase hj)]
  rw [held, held, ← add_sum_erase S _ hi, ← add_sum_erase S _ hi,
    sum_congr rfl hrest, h, update_self]
  simp

theorem held_take (hi : i ∈ S) (h : F i = some b) :
    held S F = b ::ₘ held S (update F i none) := by
  rw [← held_put hi (update_self i none F) b, update_idem, ← h,
    update_eq_self]

theorem slot_unique (hnd : (held S F).Nodup) (hi : i ∈ S) (hj : j ∈ S) (hib : F i = some b)
    (hjb : F j = some b) : i = j := by
  by_contra hne
  rw [held_take hi hib, Multiset.nodup_cons] at hnd
  exact hnd.1 (mem_held.mpr ⟨j, hj, by rw [update_of_ne (Ne.symm hne), hjb]⟩)

end Holders
