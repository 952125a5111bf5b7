/-
Lists in the order of last use.

A cache of fixed size that keeps its entries in the order of last use moves an entry
to the end when it is used, and gives up the first one to make room for another.

* `touch` — one use;
* `lastUsed` — the last `k` distinct elements of a sequence of uses, with padding in
  front as long as there are fewer;
* `touch_lastUsed` — one use turns the last `k` of a sequence into those of the sequence
  with this use added.
-/
import Mathlib.Data.List.Dedup
import Mathlib.Data.List.DropRight

namespace Lru

open List

variable {α : Type*} [DecidableEq α] {l M : List α} {x pad : α} {k : ℕ}

/-- A use of `x`: it moves to the end, and if it was not there, the first entry goes. -/
def touch (x : α) (l : List α) : List α :=
  if x ∈ l then l.erase x ++ [x] else l.tail ++ [x]

/-- The last `k` distinct elements of `l`, in the order of their last occurrence. -/
def lastUsed (k : ℕ) (pad : α) (l : List α) : List α :=
  (List.replicate k pad ++ l.dedup).rtake k

omit [DecidableEq α] in
theorem rtake_append_of_length {a b : List α} (h : b.length = k) : (a ++ b).rtake k = b := by
  rw [List.rtake, length_append, h, Nat.add_sub_cancel, drop_left]

theorem dedup_concat (l : List α) (x : α) : (l ++ [x]).dedup = l.dedup.erase x ++ [x] := by
  induction l with
  | nil => rfl
  | cons a l ih =>
    rw [cons_append]
    by_cases hmem : a ∈ l
    · rw [dedup_cons_of_mem (mem_append_left _ hmem), dedup_cons_of_mem hmem, ih]
    · rw [dedup_cons_of_notMem hmem]
      by_cases hax : a = x
      · -- the only other occurrence of `x`
        subst hax
        rw [dedup_cons_of_mem (mem_append_right _ (mem_singleton_self a)), ih,
          erase_cons_head, erase_of_not_mem (mt mem_dedup.mp hmem)]
      · have hnot : a ∉ l ++ [x] := by simp [hmem, hax]
        rw [dedup_cons_of_notMem hnot, ih, erase_cons_tail (by simpa using hax),
          cons_append]

theorem touch_rtake (hk : 0 < k) (hlen : k ≤ M.length) (hx : M.count x ≤ 1) :
    touch x (M.rtake k) = (M.erase x ++ [x]).rtake k := by
  obtain ⟨a, b, rfl, hb⟩ : ∃ a b, M = a ++ b ∧ b.length = k :=
    ⟨M.take (M.length - k), M.drop (M.length - k), (take_append_drop _ _).symm, by
      rw [length_drop]
      omega⟩
  rw [rtake_append_of_length hb, touch]
  split
  · -- `x` is among the last `k`, and nowhere else
    rename_i hmem
    have hnot : x ∉ a := by
      intro ha
      have hpos : 0 < a.count x := count_pos_iff.mpr ha
      have hpos' : 0 < b.count x := count_pos_iff.mpr hmem
      rw [count_append] at hx
      omega
    rw [erase_append_right _ hnot, append_assoc, rtake_append_of_length]
    rw [length_append, length_erase_of_mem hmem, length_singleton]
    omega
  · rename_i hmem
    obtain ⟨c, b, rfl⟩ : ∃ c b', b = c :: b' := exists_cons_of_length_pos (by omega)
    have herase : (a ++ c :: b).erase x = a.erase x ++ c :: b := by
      by_cases ha : x ∈ a
      · rw [erase_append_left _ ha]
      · rw [erase_append_right _ ha, erase_of_not_mem hmem, erase_of_not_mem ha]
    have hsplit : (a ++ c :: b).erase x ++ [x] = (a.erase x ++ [c]) ++ (b ++ [x]) := by
      rw [herase]
      simp
    rw [hsplit, rtake_append_of_length]
    · rfl
    · simpa using hb

theorem touch_lastUsed (hk : 0 < k) (hpad : x ≠ pad) (l : List α) :
    touch x (lastUsed k pad l) = lastUsed k pad (l ++ [x]) := by
  have hnot : x ∉ List.replicate k pad := fun h => hpad (eq_of_mem_replicate h)
  have hcount : (List.replicate k pad ++ l.dedup).count x ≤ 1 := by
    rw [count_append, count_eq_zero_of_not_mem hnot, Nat.zero_add]
    exact nodup_iff_count_le_one.mp (nodup_dedup l) x
  rw [lastUsed, touch_rtake hk (by simp) hcount, erase_append_right _ hnot,
    append_assoc, ← dedup_concat, lastUsed]

theorem mem_lastUsed (hpad : x ≠ pad) : x ∈ lastUsed k pad l ↔ x ∈ l.dedup.rtake k := by
  have hnot : x ∉ List.replicate k pad := fun h => hpad (eq_of_mem_replicate h)
  rw [lastUsed, List.rtake, List.rtake, length_append, length_replicate]
  rcases Nat.le_total k l.dedup.length with hle | hle
  · rw [drop_append, drop_eq_nil_of_le (by simp; omega), nil_append,
      length_replicate]
    congr! 2
    omega
  · rw [Nat.sub_eq_zero_of_le hle, drop_zero, drop_append_of_le_length (by simp; omega),
      mem_append, or_iff_right]
    exact fun h => hnot (mem_of_mem_drop h)

theorem lastUsed_nil (k : ℕ) (pad : α) : lastUsed k pad [] = List.replicate k pad := by
  rw [lastUsed, dedup_nil, append_nil, List.rtake, length_replicate, Nat.sub_self,
    drop_zero]

end Lru
