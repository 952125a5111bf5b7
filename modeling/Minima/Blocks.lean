/-
Byte strings stored in blocks of one size.

A file is stored as blocks `B 0`, `B 1`, ...  of `n` bytes each; its contents
are a part of their concatenation.

* `length_concat` — `k` blocks are `k * n` bytes;
* `getElem?_concat` — byte `p` is byte `p % n` of block `p / n`.
-/
import Mathlib.Data.List.Range
import Mathlib.Algebra.Order.Group.Nat

namespace Blocks

variable {α : Type*} {B : ℕ → List α} {n k p : ℕ}

/-- The first `k` blocks, one after the other. -/
def concat (B : ℕ → List α) (k : ℕ) : List α := (List.range k).flatMap B

theorem concat_succ (B : ℕ → List α) (k : ℕ) : concat B (k + 1) = concat B k ++ B k := by
  simp [concat, List.range_succ]

theorem length_concat (hB : ∀ i < k, (B i).length = n) : (concat B k).length = k * n := by
  induction k with
  | zero => simp [concat]
  | succ k ih =>
    rw [concat_succ, List.length_append, ih fun i hi => hB i (Nat.lt_succ_of_lt hi),
      hB k (Nat.lt_succ_self k), Nat.succ_mul]

theorem getElem?_concat (hB : ∀ i < k, (B i).length = n) (hp : p < k * n) :
    (concat B k)[p]? = (B (p / n))[p % n]? := by
  induction k with
  | zero => simp at hp
  | succ k ih =>
    have hlen := length_concat fun i hi => hB i (Nat.lt_succ_of_lt hi)
    rw [concat_succ]
    by_cases hlt : p < k * n
    · rw [List.getElem?_append_left (hlen.symm ▸ hlt)]
      exact ih (fun i hi => hB i (Nat.lt_succ_of_lt hi)) hlt
    · -- byte `p` lies in the last block
      obtain ⟨q, rfl⟩ := Nat.exists_eq_add_of_le (Nat.le_of_not_lt hlt)
      have hq : q < n := by
        rw [Nat.succ_mul] at hp
        omega
      rw [List.getElem?_append_right (by omega), hlen, Nat.add_sub_cancel_left, Nat.mul_comm k n,
        Nat.mul_add_div (by omega), Nat.mul_add_mod, Nat.div_eq_of_lt hq, Nat.mod_eq_of_lt hq,
        Nat.add_zero]

end Blocks
