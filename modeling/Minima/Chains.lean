/-
Null-terminated chains in memory.

`Chain next null p l` says that following the `next` map from `p` visits
exactly the cells of `l`, in this order, and then meets `null`.  It is the
shape of a singly linked free list whose links are stored inside the free
cells themselves.

* `Chain.unique` — a head determines its chain;
* `Chain.nodup` — a chain never visits a cell twice;
* `Chain.congr`, `Chain.update` — a chain only depends on its own links, so a
  write to somebody else's cell leaves it alone;
* `Chain.suffix_of_mem` — the chain from one of its cells is a suffix.
-/
import Mathlib.Data.List.Nodup
import Mathlib.Logic.Function.Basic

section Chains

variable {α : Type*} {next : α → α} {null p q : α} {l m : List α}

/-- The cells visited from `p` are exactly `l`, and the last link is `null`. -/
def Chain (next : α → α) (null : α) : α → List α → Prop
  | p, [] => p = null
  | p, a :: l => p = a ∧ a ≠ null ∧ Chain next null (next a) l

theorem Chain.eq_nil_of_null (h : Chain next null null l) : l = [] := by
  cases l with
  | nil => rfl
  | cons a l => exact absurd h.1.symm h.2.1

theorem Chain.eq_cons (h : Chain next null p l) (hp : p ≠ null) :
    ∃ l', l = p :: l' ∧ Chain next null (next p) l' := by
  cases l with
  | nil => exact absurd h hp
  | cons a l =>
    obtain ⟨rfl, -, hl⟩ := h
    exact ⟨l, rfl, hl⟩

theorem Chain.unique (h : Chain next null p l) (h' : Chain next null p m) : l = m := by
  induction l generalizing p m with
  | nil =>
    subst h
    exact h'.eq_nil_of_null.symm
  | cons a l ih =>
    obtain ⟨rfl, ha, hl⟩ := h
    obtain ⟨m', rfl, hm⟩ := h'.eq_cons ha
    rw [ih hl hm]

theorem Chain.suffix_of_mem (h : Chain next null p l) {a : α} (ha : a ∈ l) :
    ∃ l', Chain next null a (a :: l') ∧ a :: l' <:+ l := by
  induction l generalizing p with
  | nil => simp at ha
  | cons b l ih =>
    obtain ⟨rfl, hb, hl⟩ := h
    rcases List.mem_cons.mp ha with rfl | ha
    · exact ⟨l, ⟨rfl, hb, hl⟩, List.suffix_refl _⟩
    · obtain ⟨l', hl', hsuf⟩ := ih hl ha
      exact ⟨l', hl', hsuf.trans (List.suffix_cons _ _)⟩

/-- **A chain never visits a cell twice**: the second visit would start a
shorter chain with the same head. -/
theorem Chain.nodup (h : Chain next null p l) : l.Nodup := by
  induction l generalizing p with
  | nil => exact List.nodup_nil
  | cons a l ih =>
    obtain ⟨rfl, ha, hl⟩ := h
    refine List.nodup_cons.mpr ⟨fun hmem => ?_, ih hl⟩
    obtain ⟨l', hl', hsuf⟩ := hl.suffix_of_mem hmem
    have heq : l = l' := hl.unique hl'.2.2
    have hlen := hsuf.length_le
    rw [List.length_cons, heq] at hlen
    omega

/-- The first `n` cells from `p` on. -/
def follow (next : α → α) : ℕ → α → List α
  | 0, _ => []
  | n + 1, p => p :: follow next n (next p)

theorem Chain.follow_eq (h : Chain next null p l) : follow next l.length p = l := by
  induction l generalizing p with
  | nil => rfl
  | cons a l ih =>
    obtain ⟨rfl, -, hl⟩ := h
    rw [List.length_cons, follow, ih hl]

/-- **Frame rule.**  A chain only depends on the links of its own cells. -/
theorem Chain.congr {next' : α → α} (h : Chain next null p l) (heq : ∀ a ∈ l, next' a = next a) :
    Chain next' null p l := by
  induction l generalizing p with
  | nil => exact h
  | cons b l ih =>
    obtain ⟨rfl, hb, hl⟩ := h
    refine ⟨rfl, hb, ?_⟩
    rw [heq p List.mem_cons_self]
    exact ih hl fun a ha => heq a (List.mem_cons_of_mem _ ha)

theorem Chain.update [DecidableEq α] (h : Chain next null p l) {a : α} (ha : a ∉ l) (v : α) :
    Chain (Function.update next a v) null p l :=
  h.congr fun _ hb => Function.update_of_ne (ne_of_mem_of_not_mem hb ha) _ _

end Chains
