/-
Tables of lists, and the first element of a list with a property.

An allocator that keeps one list of records per size class owns the union of
what its records own.  `total f g` adds up `f i a` over all entries `a` of all
lists `g i`; the lemmas below say what the edits of one list do to the sum, in
the cancellative form in which both sides only add.  With multisets as values
they turn "these collections partition those" into an equation that every
operation rewrites.

* `total_replace`, `total_concat`, `total_remove` — one entry changed, added at
  the end, taken out;
* `mem_total`, `nodup_total` — the elements of a sum of multisets, and when
  none of them occurs twice;
* `entry_unique` — entries with pairwise distinct keys;
* `splitFirst_eq_some`, `splitFirst_eq_none` — what a scan that stops at the
  first match finds; `splitLast` — one from the end.
-/
import Mathlib.Algebra.BigOperators.Fin
import Mathlib.Algebra.Order.BigOperators.Group.Finset
import Mathlib.Algebra.Order.BigOperators.Group.List
import Mathlib.Algebra.Order.Group.Multiset
import Mathlib.Tactic.Abel

section SplitFirst

variable {α : Type*} {p : α → Bool} {l pre post : List α} {a : α}

/-- The first element of a list with property `p`, with what stands before and
after it. -/
def splitFirst (p : α → Bool) : List α → Option (List α × α × List α)
  | [] => none
  | a :: l =>
    if p a then some ([], a, l)
    else (splitFirst p l).map fun (pre, b, post) => (a :: pre, b, post)

theorem splitFirst_eq_none : splitFirst p l = none ↔ ∀ a ∈ l, p a = false := by
  induction l with
  | nil => simp [splitFirst]
  | cons b l ih =>
    rw [splitFirst]
    cases hb : p b with
    | true => simp [hb]
    | false => simp [hb, ih]

theorem splitFirst_eq_some (h : splitFirst p l = some (pre, a, post)) :
    l = pre ++ a :: post ∧ p a = true ∧ ∀ b ∈ pre, p b = false := by
  induction l generalizing pre with
  | nil => simp [splitFirst] at h
  | cons b l ih =>
    rw [splitFirst] at h
    cases hb : p b with
    | true =>
      rw [hb, if_pos rfl, Option.some_inj, Prod.mk.injEq, Prod.mk.injEq] at h
      obtain ⟨rfl, rfl, rfl⟩ := h
      exact ⟨rfl, hb, by simp⟩
    | false =>
      rw [hb, if_neg (by simp), Option.map_eq_some_iff] at h
      obtain ⟨⟨pre', a', post'⟩, hl, heq⟩ := h
      obtain ⟨rfl, rfl, rfl⟩ := heq
      obtain ⟨rfl, ha, hpre⟩ := ih hl
      refine ⟨rfl, ha, fun c hc => ?_⟩
      rcases List.mem_cons.mp hc with rfl | hc
      · exact hb
      · exact hpre c hc

theorem splitFirst_map {β : Type*} (f : α → β) (p : β → Bool) (l : List α) :
    splitFirst p (l.map f) =
      (splitFirst (p ∘ f) l).map fun found => (found.1.map f, f found.2.1, found.2.2.map f) := by
  induction l with
  | nil => rfl
  | cons a l ih =>
    rw [List.map_cons, splitFirst, splitFirst, ih]
    by_cases hp : p (f a) = true
    · simp [hp]
    · simp only [hp, Function.comp_apply, Bool.false_eq_true, if_false, Option.map_map]
      rfl

theorem splitFirst_isSome (ha : a ∈ l) (hp : p a = true) :
    ∃ pre b post, splitFirst p l = some (pre, b, post) := by
  cases h : splitFirst p l with
  | none => exact absurd hp (by simp [splitFirst_eq_none.mp h a ha])
  | some x => exact ⟨x.1, x.2.1, x.2.2, rfl⟩

/-- The last element of a list with property `p`, with what stands before and after it. -/
def splitLast (p : α → Bool) (l : List α) : Option (List α × α × List α) :=
  (splitFirst p l.reverse).map fun (post, a, pre) => (pre.reverse, a, post.reverse)

theorem splitLast_eq_none : splitLast p l = none ↔ ∀ a ∈ l, p a = false := by
  simp only [splitLast, Option.map_eq_none_iff, splitFirst_eq_none, List.mem_reverse]

theorem splitLast_eq_some (h : splitLast p l = some (pre, a, post)) :
    l = pre ++ a :: post ∧ p a = true ∧ ∀ b ∈ post, p b = false := by
  rw [splitLast, Option.map_eq_some_iff] at h
  obtain ⟨⟨post', a', pre'⟩, hsplit, heq⟩ := h
  obtain ⟨hl, ha, hpost⟩ := splitFirst_eq_some hsplit
  obtain ⟨rfl, rfl, rfl⟩ := heq
  refine ⟨?_, ha, fun b hb => hpost b (List.mem_reverse.mp hb)⟩
  rw [← List.reverse_reverse l, hl]
  simp

end SplitFirst

namespace ListTable

open Function Multiset Finset

variable {ι α β M : Type*}

variable {g : ι → List α} {i j : ι} {a : α}

theorem mem_update [DecidableEq ι] {l : List α} :
    a ∈ update g i l j ↔ (j = i ∧ a ∈ l) ∨ (j ≠ i ∧ a ∈ g j) := by
  by_cases hj : j = i
  · subst hj
    simp
  · simp [hj]

section Splice

variable [DecidableEq ι] {pre post : List α} (old new : List α)

theorem mem_splice_iff : a ∈ update g i (pre ++ (new ++ post)) j ↔
    j = i ∧ a ∈ new ∨ (j ≠ i ∧ a ∈ g j ∨ j = i ∧ (a ∈ pre ∨ a ∈ post)) := by
  rw [mem_update, List.mem_append, List.mem_append]
  tauto

theorem mem_splice (hg : g i = pre ++ (old ++ post))
    (ha : a ∈ update g i (pre ++ (new ++ post)) j) : j = i ∧ a ∈ new ∨ a ∈ g j := by
  refine ((mem_splice_iff new).mp ha).imp id ?_
  rintro (⟨-, ha⟩ | ⟨rfl, ha⟩)
  · exact ha
  · rw [hg, List.mem_append, List.mem_append]
    tauto

theorem mem_splice_of_mem (hg : g i = pre ++ (old ++ post)) (ha : a ∈ g j) :
    j = i ∧ a ∈ old ∨ a ∈ update g i (pre ++ (new ++ post)) j := by
  refine mem_splice new old (update_self i _ g) ?_
  rwa [update_idem, ← hg, update_eq_self]

end Splice

variable [Fintype ι]

/-- The sum of `f i a` over all entries `a` of all lists `g i` of the table. -/
def total [AddCommMonoid M] (f : ι → α → M) (g : ι → List α) : M :=
  ∑ i, ((g i).map (f i)).sum

variable {x : β}

theorem mem_list_sum {l : List (Multiset β)} : x ∈ l.sum ↔ ∃ s ∈ l, x ∈ s := by
  induction l with
  | nil => simp
  | cons s l ih => simp [ih]

variable {f : ι → α → Multiset β}

theorem mem_total : x ∈ total f g ↔ ∃ i, ∃ a ∈ g i, x ∈ f i a := by
  simp only [total, Multiset.mem_sum, Finset.mem_univ, true_and, mem_list_sum, List.mem_map,
    exists_exists_and_eq_and]

theorem sum_map_singleton (f : α → β) (l : List α) :
    (l.map fun a => ({f a} : Multiset β)).sum = (l.map f : List β) := by
  induction l with
  | nil => rfl
  | cons a l ih => rw [List.map_cons, List.sum_cons, ih, Multiset.singleton_add, List.map_cons,
      Multiset.cons_coe]

theorem list_le_total (f : ι → α → Multiset β) (g : ι → List α) (i : ι) :
    ((g i).map (f i)).sum ≤ total f g :=
  single_le_sum
    (fun _ _ => zero_le _) (mem_univ i)

theorem entry_le_total (ha : a ∈ g i) : f i a ≤ total f g := by
  have hlist : f i a ≤ ((g i).map (f i)).sum :=
    List.single_le_sum (fun _ _ => zero_le _) _ (List.mem_map_of_mem ha)
  exact hlist.trans (list_le_total f g i)

theorem map_total {N : Type*} [AddCommMonoid M] [AddCommMonoid N] (φ : M →+ N) (f : ι → α → M)
    (g : ι → List α) : φ (total f g) = total (fun i a => φ (f i a)) g := by
  simp only [total, map_sum, map_list_sum, List.map_map, Function.comp_def]

theorem total_congr₂ [AddCommMonoid M] {f : ι → α → M} {f' : ι → β → M} {g' : ι → List β}
    (h : ∀ i, List.Forall₂ (fun a b => f i a = f' i b) (g i) (g' i)) : total f g = total f' g' := by
  have hlist : ∀ i {l : List α} {l' : List β}, List.Forall₂ (fun a b => f i a = f' i b) l l' →
      (l.map (f i)).sum = (l'.map (f' i)).sum := by
    intro i l l' hl
    induction hl with
    | nil => rfl
    | cons hab _ ih => rw [List.map_cons, List.map_cons, List.sum_cons, List.sum_cons, hab, ih]
  exact Finset.sum_congr rfl fun i _ => hlist i (h i)

theorem total_mono {f f' : ι → α → ℕ} (h : ∀ i, ∀ a ∈ g i, f i a ≤ f' i a) :
    total f g ≤ total f' g :=
  sum_le_sum fun i _ => List.sum_le_sum (h i)

variable {κ : Type*} {key : α → κ}

/-- **Disjoint union.**  With pairwise distinct keys, entries without repetitions, and elements that
know the key of their entry, no element occurs twice in the whole table. -/
theorem nodup_total (keyOf : β → κ) (hkeys : (total (fun _ a => ({key a} : Multiset κ)) g).Nodup)
    (hnodup : ∀ i, ∀ a ∈ g i, (f i a).Nodup) (hkey : ∀ i, ∀ a ∈ g i, ∀ x ∈ f i a, keyOf x = key a) :
    (total f g).Nodup := by
  classical
  rw [Multiset.nodup_iff_count_le_one]
  intro x
  -- every occurrence of `x` is an occurrence of its key
  have hle : ∀ i, ∀ a ∈ g i, (f i a).count x ≤ Multiset.count (keyOf x) {key a} := by
    intro i a ha
    by_cases hx : x ∈ f i a
    · rw [hkey i a ha x hx, count_singleton_self]
      exact nodup_iff_count_le_one.mp (hnodup i a ha) x
    · rw [count_eq_zero_of_notMem hx]
      exact Nat.zero_le _
  calc (total f g).count x = total (fun i a => (f i a).count x) g :=
        map_total (Multiset.countAddMonoidHom x) f g
    _ ≤ total (fun _ a => Multiset.count (keyOf x) {key a}) g := total_mono hle
    _ = (total (fun _ a => ({key a} : Multiset κ)) g).count (keyOf x) :=
        (map_total (Multiset.countAddMonoidHom (keyOf x)) (fun _ a => {key a}) g).symm
    _ ≤ 1 := nodup_iff_count_le_one.mp hkeys _

theorem entry_unique {b : α} (hkeys : (total (fun _ a => ({key a} : Multiset κ)) g).Nodup)
    (ha : a ∈ g i) (hb : b ∈ g j) (hab : key a = key b) : a = b ∧ i = j := by
  classical
  -- as a multiset of entries the table has no two with one key
  have hentries : ((total (fun i a => ({(i, a)} : Multiset (ι × α))) g).map
      fun e => key e.2).Nodup := by
    have hmap := map_total (Multiset.mapAddMonoidHom fun e : ι × α => key e.2)
      (fun i a => ({(i, a)})) g
    rw [coe_mapAddMonoidHom] at hmap
    simpa [hmap] using hkeys
  have hmem : ∀ {i : ι} {a : α}, a ∈ g i →
      (i, a) ∈ total (fun i a => ({(i, a)})) g := fun {i a} h =>
    mem_total.mpr ⟨i, a, h, by simp⟩
  have heq : (i, a) = (j, b) := inj_on_of_nodup_map hentries _ (hmem ha) _ (hmem hb) hab
  exact ⟨(Prod.mk.inj heq).2, (Prod.mk.inj heq).1⟩

variable [DecidableEq ι]

theorem total_update [AddCommMonoid M] (f : ι → α → M) (g : ι → List α) (i : ι) (l : List α) :
    total f (update g i l) + ((g i).map (f i)).sum = total f g + (l.map (f i)).sum := by
  have hupd : (fun j => ((update g i l j).map (f j)).sum) =
      update (fun j => ((g j).map (f j)).sum) i (l.map (f i)).sum := by
    funext j
    by_cases hj : j = i
    · subst hj
      simp
    · simp [hj]
  have hg := add_sum_erase Finset.univ (fun j => ((g j).map (f j)).sum) (mem_univ i)
  rw [total, hupd, sum_update_of_mem (mem_univ i), ← erase_eq, total, ← hg]
  abel

theorem total_single [AddCommMonoid M] (f : ι → α → M) (i : ι) (a : α) :
    total f (update (fun _ => []) i [a]) = f i a := by
  simpa [total] using total_update f (fun _ => []) i [a]

section Cancel

variable [AddCancelCommMonoid M] {f : ι → α → M} {g : ι → List α} {i : ι} {a : α}
  {pre post : List α}

theorem total_splice (old new : List α) (h : g i = pre ++ (old ++ post)) :
    total f (update g i (pre ++ (new ++ post))) + (old.map (f i)).sum =
      total f g + (new.map (f i)).sum := by
  have hupd := total_update f g i (pre ++ (new ++ post))
  rw [h] at hupd
  simp only [List.map_append, List.sum_append] at hupd
  refine add_right_cancel (b := (pre.map (f i)).sum + (post.map (f i)).sum) ?_
  calc _ = total f (update g i (pre ++ (new ++ post))) +
        ((pre.map (f i)).sum + ((old.map (f i)).sum + (post.map (f i)).sum)) := by abel
    _ = _ := by rw [hupd]; abel

theorem total_replace (h : g i = pre ++ a :: post) (b : α) :
    total f (update g i (pre ++ b :: post)) + f i a = total f g + f i b := by
  simpa using total_splice [a] [b] h

theorem total_concat (b : α) :
    total f (Function.update g i (g i ++ [b])) = total f g + f i b := by
  simpa using total_splice [] [b] (List.append_nil (g i)).symm

theorem total_remove (h : g i = pre ++ a :: post) :
    total f (update g i (pre ++ post)) + f i a = total f g := by
  simpa using total_splice [a] [] h

end Cancel

end ListTable
