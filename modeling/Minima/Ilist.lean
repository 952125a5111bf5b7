/-
Intrusive doubly linked rings.

An intrusive list threads its elements and a list head on one ring of `next`
and `prev` links (`v_ilist` of `lib/v.h`).  The operations below are the link
updates in the order in which the code writes them, so that they mean
something on every memory, also where a node is linked twice or unlinked
twice.

* `Ring` — the links reachable from the head form a well-formed ring;
* `Ring.prepend` — inserting a new node before the head appends it to the list;
* `Ring.remove` — unlinking a node of the list erases it;
* `Ring.prepend_other`, `Ring.remove_other` — neither changes another ring;
* `Ring.find_eq` — a search over the ring is a search of the list;
* `Ring.onList_iff` — on a well-formed ring, walking the list from its head
  meets exactly its elements.
-/
import Mathlib.Data.List.Nodup
import Mathlib.Logic.Function.Basic
import Mathlib.Logic.Function.Iterate

/-- The links of all nodes of memory. -/
structure Ilist (N : Type*) where
  next : N → N
  prev : N → N

namespace Ilist

open Function List

variable {N : Type*}

/-- Walking the list from its head meets `n`. -/
def OnList (L : Ilist N) (head n : N) : Prop := n ≠ head ∧ ∃ k, L.next^[k] head = n

/-- The links lead from `a` through the nodes of `l` to `b`, and back. -/
def Seg (L : Ilist N) : N → List N → N → Prop
  | a, [], b => L.next a = b ∧ L.prev b = a
  | a, x :: l, b => (L.next a = x ∧ L.prev x = a) ∧ Seg L x l b

/-- The list at `head` is well formed and has the elements `l`, in this order. -/
structure Ring (L : Ilist N) (head : N) (l : List N) : Prop where
  seg : Seg L head l head
  nodup : (head :: l).Nodup

variable {L L' : Ilist N} {head a b n q : N} {l l1 l2 : List N}

theorem seg_append : Seg L a (l1 ++ n :: l2) b ↔ Seg L a l1 n ∧ Seg L n l2 b := by
  induction l1 generalizing a with
  | nil => rfl
  | cons x l ih =>
    simp only [cons_append, Seg, ih, and_assoc]

theorem Seg.congr (h : Seg L a l b) (hnext : ∀ x ∈ a :: l, L'.next x = L.next x)
    (hprev : ∀ x ∈ l ++ [b], L'.prev x = L.prev x) : Seg L' a l b := by
  induction l generalizing a with
  | nil =>
    refine ⟨(hnext a (by simp)).trans h.1, (hprev b (by simp)).trans h.2⟩
  | cons x l ih =>
    refine ⟨⟨(hnext a (by simp)).trans h.1.1, (hprev x (by simp)).trans h.1.2⟩, ?_⟩
    refine ih h.2 (fun y hy => hnext y (mem_cons_of_mem _ hy)) (fun y hy => hprev y ?_)
    exact mem_cons_of_mem _ hy

theorem Seg.prev_mem (h : Seg L a l b) : L.prev b ∈ a :: l := by
  induction l generalizing a with
  | nil => exact mem_singleton.mpr h.2
  | cons x l ih => exact mem_cons_of_mem _ (ih h.2)

theorem Seg.next_mem (h : Seg L a l b) {x : N} (hx : x ∈ a :: l) : L.next x ∈ l ++ [b] := by
  induction l generalizing a with
  | nil =>
    obtain rfl : x = a := by simpa using hx
    simpa using h.1
  | cons y l ih =>
    rcases mem_cons.mp hx with rfl | hx
    · simp [h.1.1]
    · exact mem_cons_of_mem _ (ih h.2 hx)

theorem Seg.exists_iterate (h : Seg L a l b) {x : N} (hx : x ∈ l) : ∃ k, L.next^[k] a = x := by
  induction l generalizing a with
  | nil => simp at hx
  | cons y l ih =>
    rcases mem_cons.mp hx with rfl | hx
    · exact ⟨1, h.1.1⟩
    · obtain ⟨k, hk⟩ := ih h.2 hx
      refine ⟨k + 1, ?_⟩
      rw [Function.iterate_succ_apply, h.1.1]
      exact hk

theorem Ring.next_head (h : Ring L head l) : L.next head = l.headD head := by
  cases l with
  | nil => exact h.seg.1
  | cons x l => exact h.seg.1.1

theorem Ring.next_first (h : Ring L head (n :: l)) : L.next n = l.headD head := by
  cases l with
  | nil => exact h.seg.2.1
  | cons x l => exact h.seg.2.1.1

theorem Seg.redirect (h : Seg L a l b) (hnd : (a :: l).Nodup)
    (hlast : L'.next (L.prev b) = q) (hback : L'.prev q = L.prev b)
    (hnext : ∀ x ∈ a :: l, x ≠ L.prev b → L'.next x = L.next x)
    (hprev : ∀ x ∈ l, L'.prev x = L.prev x) : Seg L' a l q := by
  induction l generalizing a with
  | nil =>
    obtain ⟨-, hb⟩ := h
    rw [hb] at hlast hback
    exact ⟨hlast, hback⟩
  | cons x l ih =>
    obtain ⟨⟨hax, hxa⟩, hseg⟩ := h
    rw [nodup_cons] at hnd
    -- the last node is further on, so the link out of `a` is an old one
    have hne : a ≠ L.prev b := fun heq => hnd.1 (heq ▸ hseg.prev_mem)
    refine ⟨⟨(hnext a (by simp) hne).trans hax, (hprev x (by simp)).trans hxa⟩, ?_⟩
    exact ih hseg hnd.2 (fun y hy => hnext y (mem_cons_of_mem _ hy))
      (fun y hy => hprev y (mem_cons_of_mem _ hy))

/-- **On a well-formed ring, walking the list meets exactly its elements.** -/
theorem Ring.onList_iff (h : Ring L head l) : L.OnList head n ↔ n ∈ l := by
  constructor
  · rintro ⟨hne, k, hk⟩
    have hmem : ∀ k, L.next^[k] head ∈ head :: l := by
      intro k
      induction k with
      | zero => simp
      | succ k ih =>
        rw [Function.iterate_succ_apply']
        have := h.seg.next_mem ih
        simp only [mem_append, mem_singleton] at this
        exact mem_cons.mpr this.symm
    have := hmem k
    rw [hk, mem_cons] at this
    exact this.resolve_left hne
  · intro hn
    refine ⟨?_, h.seg.exists_iterate hn⟩
    rintro rfl
    exact (nodup_cons.mp h.nodup).1 hn

/-! ### The operations -/

variable [DecidableEq N]

/-- Make `n` a ring of its own. -/
def init (L : Ilist N) (n : N) : Ilist N where
  next := update L.next n n
  prev := update L.prev n n

/-- Link `node` in before `nxt`; before the head this is the end of the list. -/
def prepend (L : Ilist N) (node nxt : N) : Ilist N :=
  let prv := L.prev nxt
  { next := update (update L.next prv node) node nxt
    prev := update (update L.prev node prv) nxt node }

/-- Unlink `node` and make it a ring of its own. -/
def remove (L : Ilist N) (node : N) : Ilist N :=
  let prv := L.prev node
  let nxt := L.next node
  init { next := update L.next prv nxt, prev := update L.prev nxt prv } node

def isEmpty (L : Ilist N) (head : N) : Bool := L.next head = head

/-- The search of a loop over the list at `head`: the first node from `n` on that
passes the test, if the walk meets it or comes to its end within `fuel` steps. -/
def find (L : Ilist N) (p : N → Bool) (head : N) : ℕ → N → Option (Option N)
  | 0, _ => none
  | fuel + 1, n =>
    if n = head then some none
    else if p n then some (some n)
    else find L p head fuel (L.next n)

theorem Seg.remove_before (h : Seg L a l n) (hnd : (a :: l).Nodup) (hn : n ∉ a :: l)
    (hq : L.next n = q) (hqn : q ≠ n) (hql : q ∉ l) : Seg (L.remove n) a l q := by
  have hne : ∀ x ∈ a :: l, x ≠ n := fun x hx heq => hn (heq ▸ hx)
  refine h.redirect hnd ?_ ?_ ?_ ?_
  · simp [Ilist.remove, Ilist.init, hne _ h.prev_mem, hq]
  · simp [Ilist.remove, Ilist.init, hqn, hq]
  · intro x hx hxp
    simp [Ilist.remove, Ilist.init, hne x hx, hxp]
  · intro x hx
    have hxq : x ≠ q := fun heq => hql (heq ▸ hx)
    simp [Ilist.remove, Ilist.init, hne x (mem_cons_of_mem _ hx), hq, hxq]

theorem Seg.remove_away (h : Seg L a l b) (hn : n ∉ a :: l) (hnb : n ≠ b)
    (hp : L.prev n ∉ a :: l) (hq : L.next n ∉ l ++ [b]) : Seg (L.remove n) a l b := by
  refine h.congr (fun x hx => ?_) fun x hx => ?_
  · have hxn : x ≠ n := fun heq => hn (heq ▸ hx)
    have hxp : x ≠ L.prev n := fun heq => hp (heq ▸ hx)
    simp [Ilist.remove, Ilist.init, hxn, hxp]
  · have hxn : x ≠ n := by
      rintro rfl
      rcases mem_append.mp hx with hx | hx
      · exact hn (mem_cons_of_mem _ hx)
      · exact hnb (mem_singleton.mp hx)
    have hxq : x ≠ L.next n := fun heq => hq (heq ▸ hx)
    simp [Ilist.remove, Ilist.init, hxn, hxq]

namespace Ring

theorem isEmpty_iff (h : Ring L head l) : L.isEmpty head = true ↔ l = [] := by
  rw [Ilist.isEmpty, decide_eq_true_iff]
  cases l with
  | nil => simpa using h.seg.1
  | cons x l =>
    have hne : head ≠ x := fun heq => (nodup_cons.mp h.nodup).1 (by simp [heq])
    rw [h.seg.1.1]
    simpa using hne.symm

theorem prepend (h : Ring L head l) (hn : n ∉ head :: l) :
    Ring (L.prepend n head) head (l ++ [n]) := by
  have hnh : n ≠ head := fun heq => hn (by simp [heq])
  have hlast : L.prev head ∈ head :: l := h.seg.prev_mem
  have hlastn : L.prev head ≠ n := fun heq => hn (heq ▸ hlast)
  refine ⟨seg_append.mpr ⟨h.seg.redirect h.nodup ?_ ?_ ?_ ?_, ?_, ?_⟩, ?_⟩
  · simp [Ilist.prepend, hlastn]
  · simp [Ilist.prepend, hnh]
  · intro x hx hxl
    have hxn : x ≠ n := fun heq => hn (heq ▸ hx)
    simp [Ilist.prepend, hxn, hxl]
  · intro x hx
    have hxn : x ≠ n := fun heq => hn (heq ▸ mem_cons_of_mem _ hx)
    have hxh : x ≠ head := fun heq => (nodup_cons.mp h.nodup).1 (heq ▸ hx)
    simp [Ilist.prepend, hxn, hxh]
  · simp [Ilist.prepend]
  · simp [Ilist.prepend]
  · exact h.nodup.append (by simp) (by simpa using hn)

theorem remove (h : Ring L head (l1 ++ n :: l2)) : Ring (L.remove n) head (l1 ++ l2) := by
  obtain ⟨hseg1, hseg2⟩ := seg_append.mp h.seg
  have hmiddle : (n :: head :: (l1 ++ l2)).Nodup :=
    ((perm_middle.cons head).trans (.swap n head _)).nodup h.nodup
  obtain ⟨hn, hnd⟩ := nodup_cons.mp hmiddle
  rw [mem_cons, mem_append, not_or, not_or] at hn
  obtain ⟨hnh, hn1, hn2⟩ := hn
  obtain ⟨hhead, hnd12⟩ := nodup_cons.mp hnd
  rw [mem_append, not_or] at hhead
  obtain ⟨-, hnd2, hdisj⟩ := nodup_append'.mp hnd12
  have hbefore : (head :: l1).Nodup := hnd.sublist (by simp)
  have hn1' : n ∉ head :: l1 := by simp [hnh, hn1]
  refine ⟨?_, hnd⟩
  cases l2 with
  | nil =>
    rw [append_nil]
    exact hseg1.remove_before hbefore hn1' hseg2.1 (Ne.symm hnh) hhead.1
  | cons q l2 =>
    obtain ⟨⟨hnq, -⟩, hrest⟩ := hseg2
    have hqn : q ≠ n := fun heq => hn2 (heq ▸ mem_cons_self)
    refine seg_append.mpr ⟨hseg1.remove_before hbefore hn1' hnq hqn
      fun hq => hdisj hq mem_cons_self, hrest.remove_away hn2 hnh ?_ ?_⟩
    · -- the node before `n` is the head or in front of `n`
      intro hp
      rcases mem_cons.mp hseg1.prev_mem with heq | hp1
      · exact hhead.2 (heq ▸ hp)
      · exact hdisj hp1 hp
    · rw [hnq, mem_append, mem_singleton]
      rintro (hq | rfl)
      · exact (nodup_cons.mp hnd2).1 hq
      · exact hhead.2 mem_cons_self

theorem find_eq {p : N → Bool} {fuel : ℕ} (h : Ring L head l) (hfuel : l.length < fuel) :
    L.find p head fuel (L.next head) = some (l.find? p) := by
  have hwalk : ∀ (l : List N) (a : N) (fuel : ℕ), Seg L a l head → head ∉ l → l.length < fuel →
      L.find p head fuel (L.next a) = some (l.find? p) := by
    intro l
    induction l with
    | nil =>
      intro a fuel hseg _ hfuel
      obtain ⟨k, rfl⟩ : ∃ k, fuel = k + 1 := ⟨fuel - 1, by omega⟩
      rw [hseg.1]
      simp [find]
    | cons x l ih =>
      intro a fuel hseg hhead hfuel
      rw [length_cons] at hfuel
      rw [mem_cons, not_or] at hhead
      obtain ⟨k, rfl⟩ : ∃ k, fuel = k + 1 := ⟨fuel - 1, by omega⟩
      rw [hseg.1.1, find, if_neg (Ne.symm hhead.1), find?_cons]
      cases p x with
      | true => rfl
      | false => exact ih x k hseg.2 hhead.2 (by omega)
  exact hwalk l head fuel h.seg (nodup_cons.mp h.nodup).1 hfuel

theorem init_other (h : Ring L head l) (hn : n ∉ head :: l) : Ring (L.init n) head l := by
  have hne : ∀ x ∈ head :: l, x ≠ n := fun x hx heq => hn (heq ▸ hx)
  refine ⟨h.seg.congr (fun x hx => ?_) fun x hx => ?_, h.nodup⟩
  · simp [Ilist.init, hne x hx]
  · have hx' : x ∈ head :: l := by simpa [or_comm] using hx
    simp [Ilist.init, hne x hx']

section Other

variable {head' : N} {l' : List N}

theorem prepend_other (h : Ring L head l) (h' : Ring L head' l')
    (hdisj : ∀ x ∈ head :: l, x ∉ head' :: l') (hn : n ∉ head :: l) :
    Ring (L.prepend n head') head l := by
  have hne : ∀ x ∈ head :: l, x ≠ n := fun x hx heq => hn (heq ▸ hx)
  refine ⟨h.seg.congr (fun x hx => ?_) fun x hx => ?_, h.nodup⟩
  · have hlast : x ≠ L.prev head' := fun heq => hdisj x hx (heq ▸ h'.seg.prev_mem)
    simp [Ilist.prepend, hne x hx, hlast]
  · have hx' : x ∈ head :: l := by simpa [or_comm] using hx
    have hhead : x ≠ head' := fun heq => hdisj x hx' (by simp [heq])
    simp [Ilist.prepend, hne x hx', hhead]

theorem remove_other (h : Ring L head l) (h' : Ring L head' l') (hn : n ∈ l')
    (hdisj : ∀ x ∈ head :: l, x ∉ head' :: l') : Ring (L.remove n) head l := by
  obtain ⟨l1, l2, rfl⟩ := append_of_mem hn
  obtain ⟨hseg1, hseg2⟩ := seg_append.mp h'.seg
  have hprev : L.prev n ∈ head' :: (l1 ++ n :: l2) := by
    rcases mem_cons.mp hseg1.prev_mem with heq | hmem
    · simp [heq]
    · simp [hmem]
  have hnext : L.next n ∈ head' :: (l1 ++ n :: l2) := by
    have := hseg2.next_mem mem_cons_self
    simp only [mem_append, mem_singleton] at this
    simp only [mem_cons, mem_append]
    tauto
  have hn' : n ∈ head' :: (l1 ++ n :: l2) := by simp
  refine ⟨h.seg.remove_away (fun hx => hdisj _ hx hn') (fun heq => hdisj head (by simp) (heq ▸ hn'))
    (fun hx => hdisj _ hx hprev) fun hx => ?_, h.nodup⟩
  have hx' : L.next n ∈ head :: l := by simpa [or_comm] using hx
  exact hdisj _ hx' hnext

end Other

end Ring

end Ilist
