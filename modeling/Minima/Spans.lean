/-
Spans of addresses.

`span s n` is the multiset of the `n` addresses from `s` on.  A collection of
areas partitions a range when the spans of the areas add up to the span of the
range: that one equation says that they are disjoint and that nothing is
missing, and splitting, joining and moving areas just rewrites it.

* `span_add` — a span cut in two;
* `apart_of_nodup` — areas whose spans do not repeat an address are apart;
* `cover` — the addresses of a list of areas, by `start` and `size`.
-/
import Minima.ListTable

section Spans

/-- The `n` addresses from `s` on. -/
def span (s n : ℕ) : Multiset ℕ := (List.range' s n : List ℕ)

variable {s t m n x : ℕ}

@[simp] theorem mem_span : x ∈ span s n ↔ s ≤ x ∧ x < s + n := by
  rw [span, Multiset.mem_coe, List.mem_range'_1]

theorem nodup_span : (span s n).Nodup := Multiset.coe_nodup.mpr List.nodup_range'

theorem span_add (s m n : ℕ) : span s (m + n) = span s m + span (s + m) n := by
  rw [span, span, span, Multiset.coe_add, List.range'_append_1]

/-- Two half-open ranges without a common address. -/
def Apart (s m t n : ℕ) : Prop := s + m ≤ t ∨ t + n ≤ s

theorem apart_of_disjoint (hm : 0 < m) (hn : 0 < n) (h : Disjoint (span s m) (span t n)) :
    Apart s m t n := by
  by_contra hno
  rw [Apart, not_or, Nat.not_le, Nat.not_le] at hno
  have hmem : max s t ∈ span s m := mem_span.mpr ⟨le_max_left _ _, max_lt (by omega) hno.1⟩
  have hmem' : max s t ∈ span t n := mem_span.mpr ⟨le_max_right _ _, max_lt hno.2 (by omega)⟩
  exact Multiset.disjoint_left.mp h hmem hmem'

variable {α : Type*} (start size : α → ℕ)

/-- The addresses of a list of areas. -/
def cover (l : List α) : Multiset ℕ := (l.map fun a => span (start a) (size a)).sum

@[simp] theorem cover_nil : cover start size [] = 0 := rfl

@[simp] theorem cover_cons (a : α) (l : List α) :
    cover start size (a :: l) = span (start a) (size a) + cover start size l := rfl

@[simp] theorem cover_append (l l' : List α) :
    cover start size (l ++ l') = cover start size l + cover start size l' := by
  simp only [cover, List.map_append, List.sum_append]

theorem cover_perm {l l' : List α} (h : l.Perm l') : cover start size l = cover start size l' :=
  (h.map _).sum_eq

variable {start size} {l : List α} {a : α}

theorem mem_cover : x ∈ cover start size l ↔ ∃ a ∈ l, start a ≤ x ∧ x < start a + size a := by
  simp only [cover, ListTable.mem_list_sum, List.mem_map, exists_exists_and_eq_and, mem_span]

theorem apart_of_nodup (hpos : ∀ a ∈ l, 0 < size a) (h : (cover start size l).Nodup) :
    l.Pairwise fun a b => Apart (start a) (size a) (start b) (size b) := by
  induction l with
  | nil => exact List.Pairwise.nil
  | cons a l ih =>
    rw [cover_cons, Multiset.nodup_add] at h
    obtain ⟨-, hl, hdisj⟩ := h
    refine List.pairwise_cons.mpr ⟨fun b hb => ?_, ih (fun c hc => hpos c (by simp [hc])) hl⟩
    refine apart_of_disjoint (hpos a (by simp)) (hpos b (by simp [hb])) ?_
    refine Multiset.disjoint_left.mpr fun hx hx' => Multiset.disjoint_left.mp hdisj hx ?_
    exact mem_cover.mpr ⟨b, hb, mem_span.mp hx'⟩

theorem apart_of_mem (hpos : ∀ a ∈ l, 0 < size a) (h : (cover start size l).Nodup) {b : α}
    (ha : a ∈ l) (hb : b ∈ l) (hne : a ≠ b) : Apart (start a) (size a) (start b) (size b) := by
  have hsymm : Std.Symm fun a b : α => Apart (start a) (size a) (start b) (size b) :=
    ⟨fun _ _ h => h.symm⟩
  exact (apart_of_nodup hpos h).forall ha hb hne

end Spans
