/-
The policy of a self-hosting slab allocator.

`Layout.Alloc` and `Layout.Free` say what a call does to the table of slabs and
to the pool of pages, in terms of who owns what: which slab a chunk is taken
from, when a slab is created ahead of need, when it is given back.  They leave
out how the free chunks of a slab are stored and found.

* `Owned.alloc`, `Owned.free` — both keep the ownership invariant;
* `Layout.Hosted`, `Layout.Stocked`, `Layout.Used` — the hosting class: records
  stand in earlier slabs, one chunk is always left for the next record, and no
  slab without a chunk in use is kept;
* `Owned.eq_nil_of_live_eq_zero`, `Owned.live_eq_zero_of_nil`,
  `Owned.eq_nil_of_host_nil` — in such a table the hosting class is empty exactly
  when nothing is live.
-/
import Minima.SlabSpace

open ListTable

namespace SlabSpace

open Multiset (add_cons cons_add cons_coe map_add mem_add)
open Function List Multiset

variable {ι : Type*}
  {L : Layout ι} {g g' : ι → List Slab} {fl fl' : List ℕ} {live : Multiset (ι × ℕ)}
  {i j : ι} {s : Slab} {pre post : List Slab} {c f r p : ℕ} {fr : List ℕ}
  {held : Multiset (ι × ℕ)} {k : ι → List (ℕ × ℕ)}

/-! ### Tables of slabs -/

/-- What a call of `Free` holds when it starts: the block it frees, or nothing
when it is called on the first record. -/
def Layout.Held (L : Layout ι) (p : ℕ) (held : Multiset (ι × ℕ)) : Prop :=
  (∃ i, held = {(i, p)}) ∨ p = L.boot ∧ held = 0

/-- Record and page of every slab: what stays when only free chunks change. -/
def ids (g : ι → List Slab) : ι → List (ℕ × ℕ) := fun i => (g i).map fun s => (s.record, s.page)

/-- The first record belongs to the first slab of the hosting class, and every
other slab of that class has its record in an earlier one. -/
structure Layout.Hosted (L : Layout ι) (k : ι → List (ℕ × ℕ)) : Prop where
  boot_first : ∀ i pre e post, k i = pre ++ e :: post → e.1 = L.boot → i = L.host ∧ pre = []
  host_earlier : ∀ pre e post, k L.host = pre ++ e :: post → e.1 ≠ L.boot →
    ∃ t ∈ pre, e.1 ∈ L.chunks L.host t.2

/-- The hosting class has a free chunk left for the next record. -/
def Layout.Stocked (L : Layout ι) (g : ι → List Slab) : Prop :=
  g L.host = [] ∨ ∃ s ∈ g L.host, s.free ≠ []

/-- Every slab has a chunk in use. -/
def Layout.Used (L : Layout ι) (g : ι → List Slab) : Prop :=
  ∀ i, ∀ s ∈ g i, s.free.length < L.page / L.slot i

theorem held_recordBlock (s : Slab) : L.Held s.record (L.recordBlock s) := by
  by_cases hb : s.record = L.boot
  · exact .inr ⟨hb, by simp [Layout.recordBlock, hb]⟩
  · exact .inl ⟨L.host, by simp [Layout.recordBlock, hb]⟩

theorem exists_not_free (hlt : s.free.length < L.page / L.slot i) :
    ∃ c ∈ L.chunks i s.page, c ∉ s.free := by
  by_contra hno
  push Not at hno
  have hle := (subperm_of_subset nodup_chunks hno).length_le
  rw [length_chunks] at hle
  omega

theorem Layout.Hosted.first_of_boot (hH : L.Hosted (ids g)) (hg : g i = pre ++ s :: post)
    (hboot : s.record = L.boot) : i = L.host ∧ pre = [] := by
  obtain ⟨hi, hpre⟩ := hH.boot_first i (pre.map fun s => (s.record, s.page)) (s.record, s.page)
    (post.map fun s => (s.record, s.page)) (by simp [ids, hg]) hboot
  exact ⟨hi, map_eq_nil_iff.mp hpre⟩

theorem Layout.Hosted.earlier (hH : L.Hosted (ids g)) (hg : g L.host = pre ++ s :: post)
    (hboot : s.record ≠ L.boot) : ∃ t ∈ pre, s.record ∈ L.chunks L.host t.page := by
  obtain ⟨e, he, hmem⟩ := hH.host_earlier (pre.map fun s => (s.record, s.page))
    (s.record, s.page) (post.map fun s => (s.record, s.page)) (by simp [ids, hg]) hboot
  obtain ⟨t, ht, rfl⟩ := mem_map.mp he
  exact ⟨t, ht, hmem⟩

theorem hasChunk_ids (hc : L.HasChunk g i c) : ∃ e ∈ ids g i, c ∈ L.chunks i e.2 := by
  obtain ⟨s, hs, hc⟩ := hc
  exact ⟨(s.record, s.page), mem_map_of_mem hs, hc⟩

section Chunks

variable [Fintype ι]

theorem Layout.Owned.free_perm (h : L.Owned fl g live) (hs : s ∈ g i)
    (hlen : s.free.length = L.page / L.slot i) :
    s.free.Perm (L.chunks i s.page) :=
  (subperm_of_subset (h.nodup_free hs) (h.free_sub i s hs)).perm_of_length_le
    (by rw [length_chunks, hlen])

theorem Layout.Owned.chunk_cases (h : L.Owned fl g live) (hs : s ∈ g i)
    (hc : c ∈ L.chunks i s.page) :
    c ∈ s.free ∨ (i, c) ∈ live ∨ ∃ j, ∃ t ∈ g j, t.record ≠ L.boot ∧ t.record = c := by
  have hall : c ∈ L.allChunks g := mem_total.mpr ⟨i, s, hs, hc⟩
  rw [h.parts, mem_add, mem_add] at hall
  rcases hall with (hfree | hlive) | hrec
  · obtain ⟨j, t, ht, hmem⟩ := mem_total.mp hfree
    obtain ⟨rfl, -⟩ := h.same_slab_of_chunk ht hs (h.free_sub j t ht c hmem) hc
    exact .inl hmem
  · obtain ⟨⟨j, c⟩, hb, rfl⟩ := mem_map.mp hlive
    obtain ⟨t, ht, hmem⟩ := h.live_ok (j, c) hb
    obtain ⟨-, rfl⟩ := h.same_slab_of_chunk ht hs hmem hc
    exact .inr (.inl hb)
  · obtain ⟨j, t, ht, hmem⟩ := mem_total.mp hrec
    by_cases hb : t.record = L.boot
    · simp [Layout.recordChunk, hb] at hmem
    · simp only [Layout.recordChunk, hb, if_false, Multiset.mem_singleton] at hmem
      exact .inr (.inr ⟨j, t, ht, hb, hmem.symm⟩)

theorem Layout.Owned.held_of_miss (h : L.Owned fl g (held + live)) (hheld : L.Held p held)
    (hnone : ∀ j, ∀ t ∈ g j, t.page ≠ p / L.page * L.page) : held = 0 := by
  rcases hheld with ⟨j, rfl⟩ | ⟨-, rfl⟩
  · obtain ⟨t, ht, hp⟩ := h.live_ok _ (mem_add.mpr (.inl (Multiset.mem_singleton_self _)))
    exact absurd (page_of_chunk (h.page_ok _ t ht).1 hp).symm (hnone _ t ht)
  · rfl

theorem Layout.Owned.ne_boot (h : L.Owned fl g live) (hc : L.HasChunk g i c) : c ≠ L.boot := by
  obtain ⟨s, hs, hc⟩ := hc
  have hlt := (h.page_ok i s hs).2
  have hle := le_of_mem_chunks hc
  omega

theorem Layout.Owned.live_eq_zero_of_nil (h : L.Owned fl g live) (hnil : ∀ i, g i = []) :
    live = 0 := by
  refine eq_zero_of_forall_notMem fun b hb => ?_
  obtain ⟨s, hs, -⟩ := h.live_ok b hb
  simp [hnil] at hs

/-! ### The hosting class is empty exactly when nothing is live -/

theorem Layout.Owned.eq_nil_of_host_nil (h : L.Owned fl g live) (hH : L.Hosted (ids g))
    (hnil : g L.host = []) : ∀ i, g i = [] := by
  intro i
  rw [eq_nil_iff_forall_not_mem]
  intro s hs
  by_cases hboot : s.record = L.boot
  · obtain ⟨pre, post, hg⟩ := append_of_mem hs
    obtain ⟨rfl, -⟩ := hH.first_of_boot hg hboot
    simp [hnil] at hs
  · obtain ⟨t, ht, -⟩ := h.record_ok i s hs hboot
    simp [hnil] at ht

theorem Layout.Owned.exists_record (h : L.Owned fl g 0) (hu : L.Used g) (hs : s ∈ g i) :
    ∃ j, ∃ t ∈ g j, t.record ≠ L.boot ∧ t.record ∈ L.chunks i s.page := by
  obtain ⟨c, hc, hfree⟩ := exists_not_free (hu i s hs)
  rcases h.chunk_cases hs hc with hc' | hc' | ⟨j, t, ht, hb, rfl⟩
  · exact absurd hc' hfree
  · simp at hc'
  · exact ⟨j, t, ht, hb, hc⟩

theorem Layout.Owned.last_no_record (h : L.Owned fl g live) (hH : L.Hosted (ids g))
    (hg : g L.host = pre ++ [s]) (ht : t ∈ g L.host) (hb : t.record ≠ L.boot) :
    t.record ∉ L.chunks L.host s.page := by
  intro hmem
  have hs : s ∈ g L.host := by simp [hg]
  obtain ⟨p, q, hgt⟩ := append_of_mem ht
  obtain ⟨u, hup, hmem'⟩ := hH.earlier hgt hb
  obtain ⟨rfl, -⟩ := h.same_slab_of_chunk hs (by simp [hgt, hup]) hmem hmem'
  have hnd : (g L.host).Nodup := h.nodup_slabs
  have hlast : s ∈ pre := by
    rw [hg] at hgt
    rcases eq_nil_or_concat q with rfl | ⟨q', x, rfl⟩
    · rw [(append_inj' hgt rfl).1]
      exact hup
    · rw [concat_eq_append, ← cons_append, ← append_assoc] at hgt
      rw [(append_inj' hgt rfl).1]
      simp [hup]
  rw [hg] at hnd
  exact absurd rfl ((nodup_append.mp hnd).2.2 s hlast s (by simp))

/-- **With nothing live, nothing is left.**  A slab in use would hold records
only; outside the hosting class there are none, and the last slab of that class
has none. -/
theorem Layout.Owned.eq_nil_of_live_eq_zero (h : L.Owned fl g 0) (hH : L.Hosted (ids g))
    (hu : L.Used g) : ∀ i, g i = [] := by
  have hhost : ∀ i, i ≠ L.host → g i = [] := by
    intro i hi
    rw [eq_nil_iff_forall_not_mem]
    intro s hs
    obtain ⟨j, t, ht, hb, hmem⟩ := h.exists_record hu hs
    obtain ⟨u, hu, hmem'⟩ := h.record_ok j t ht hb
    exact hi (h.same_slab_of_chunk hs hu hmem hmem').2
  intro i
  by_cases hi : i = L.host
  · subst hi
    rcases eq_nil_or_concat (g L.host) with hnil | ⟨pre, s, hg⟩
    · exact hnil
    rw [concat_eq_append] at hg
    obtain ⟨j, t, ht, hb, hmem⟩ := h.exists_record (i := L.host) (s := s) hu (by simp [hg])
    obtain rfl : j = L.host := by
      by_contra hj
      simp [hhost j hj] at ht
    exact absurd hmem (h.last_no_record hH hg ht hb)
  · exact hhost i hi

end Chunks

/-! ### The operations -/

variable [DecidableEq ι]

/-- Nothing has been allocated: the first slab stands alone. -/
def Layout.Untouched (L : Layout ι) (g : ι → List Slab) : Prop :=
  ∃ s, g = update (fun _ => []) L.host [s]

/-- An allocation of class `i` takes chunk `c` from the first slab with a free one.  In the hosting
class the last chunk of a slab becomes the record of a new slab, which serves the request.  When
no slab has a free chunk, the hosting class provides the record of a new one. -/
inductive Layout.Alloc (L : Layout ι) :
    (ι → List Slab) → List ℕ → ι → ℕ → (ι → List Slab) → List ℕ → Prop
  | take {g : ι → List Slab} {fl : List ℕ} {i : ι} {c : ℕ} {pre post : List Slab} {s : Slab}
      {fr : List ℕ} (hg : g i = pre ++ s :: post) (hpre : ∀ t ∈ pre, t.free = [])
      (hfree : s.free = c :: fr) (hlast : i = L.host → fr ≠ []) :
      L.Alloc g fl i c (update g i (pre ++ { s with free := fr } :: post)) fl
  | eager {g : ι → List Slab} {f : ℕ} {fl : List ℕ} {r c : ℕ} {pre post : List Slab} {s : Slab}
      {fr : List ℕ} (hg : g L.host = pre ++ s :: post) (hpre : ∀ t ∈ pre, t.free = [])
      (hfree : s.free = [r]) (hfr : (c :: fr).Perm (L.chunks L.host f)) :
      L.Alloc g (f :: fl) L.host c (update g L.host
        (pre ++ { s with free := [] } :: post ++ [⟨r, f, fr⟩])) fl
  | grow {g g1 : ι → List Slab} {f : ℕ} {fl fl1 : List ℕ} {i : ι} {r c : ℕ} {fr : List ℕ}
      (hi : i ≠ L.host) (hnone : ∀ t ∈ g i, t.free = [])
      (hrec : L.Alloc g fl L.host r g1 (f :: fl1)) (hfr : (c :: fr).Perm (L.chunks i f)) :
      L.Alloc g fl i c (update g1 i (g1 i ++ [⟨r, f, fr⟩])) fl1

/-- Freeing the block at `p`.  It goes back to the slab of its page; a slab all
of whose chunks are free is given back, and then so is its record. -/
inductive Layout.Free (L : Layout ι) :
    (ι → List Slab) → List ℕ → ℕ → (ι → List Slab) → List ℕ → Prop
  | put {g : ι → List Slab} {fl : List ℕ} {p : ℕ} {i : ι} {pre post : List Slab} {s : Slab}
      (hg : g i = pre ++ s :: post) (hpage : s.page = p / L.page * L.page)
      (hlen : s.free.length + 1 ≠ L.page / L.slot i) :
      L.Free g fl p (update g i (pre ++ { s with free := p :: s.free } :: post)) fl
  | drop {g g' : ι → List Slab} {fl fl' : List ℕ} {p : ℕ} {i : ι} {pre post : List Slab} {s : Slab}
      (hg : g i = pre ++ s :: post) (hpage : s.page = p / L.page * L.page)
      (hlen : s.free.length + 1 = L.page / L.slot i)
      (hrec : L.Free (update g i (pre ++ post)) (s.page :: fl) s.record g' fl') :
      L.Free g fl p g' fl'
  | miss {g : ι → List Slab} {fl : List ℕ} {p : ℕ}
      (hnone : ∀ i, ∀ s ∈ g i, s.page ≠ p / L.page * L.page) : L.Free g fl p g fl

/-- The hosting class cannot grow for itself: it serves a request only from a
free chunk it has. -/
theorem Layout.Alloc.exists_free (ha : L.Alloc g fl i c g' fl') (hi : i = L.host) :
    ∃ s ∈ g i, s.free ≠ [] := by
  cases ha with
  | take hg _ hfree _ => exact ⟨_, by rw [hg]; exact mem_append_cons_self, by simp [hfree]⟩
  | eager hg _ hfree _ => exact ⟨_, by rw [hg]; exact mem_append_cons_self, by simp [hfree]⟩
  | grow hne _ _ _ => exact absurd hi hne

theorem Layout.Alloc.suffix (ha : L.Alloc g fl i c g' fl') : fl' <:+ fl := by
  induction ha with
  | take _ _ _ _ => exact suffix_rfl
  | @eager f fl r c pre post s fr _ _ _ _ => exact suffix_cons f fl
  | @grow _ f fl fl1 i r c fr _ _ _ _ ih => exact (suffix_cons f fl1).trans ih

theorem ids_refree (hg : g i = pre ++ s :: post) (fr : List ℕ) :
    ids (update g i (pre ++ { s with free := fr } :: post)) = ids g := by
  funext j
  by_cases hj : j = i
  · subst hj
    simp [ids, hg]
  · simp [ids, hj]

theorem ids_update (l : List Slab) : ids (update g i l) =
    update (ids g) i (l.map fun s => (s.record, s.page)) := by
  funext j
  by_cases hj : j = i
  · subst hj
    simp [ids]
  · simp [ids, hj]

theorem Layout.Hosted.grow (h : L.Hosted k) {c f : ℕ} (hc : c ≠ L.boot)
    (hhost : ∃ t ∈ k L.host, c ∈ L.chunks L.host t.2) :
    L.Hosted (update k i (k i ++ [(c, f)])) := by
  -- a slab of the longer list is the new one, or has the same predecessors as before
  have hsplit : ∀ {j pre e post}, update k i (k i ++ [(c, f)]) j = pre ++ e :: post →
      (e = (c, f) ∧ pre = k j) ∨ ∃ post', k j = pre ++ e :: post' := by
    intro j pre e post heq
    by_cases hj : j = i
    · subst hj
      rw [update_self] at heq
      rcases eq_nil_or_concat post with rfl | ⟨post', x, rfl⟩
      · obtain ⟨hpre, he⟩ := append_inj' heq rfl
        exact .inl ⟨(singleton_inj.mp he).symm, hpre.symm⟩
      · rw [concat_eq_append, ← cons_append, ← append_assoc] at heq
        exact .inr ⟨post', (append_inj' heq rfl).1⟩
    · rw [update_of_ne hj] at heq
      exact .inr ⟨post, heq⟩
  refine ⟨fun j pre e post heq hboot => ?_, fun pre e post heq hboot => ?_⟩
  · rcases hsplit heq with ⟨rfl, -⟩ | ⟨post', hk⟩
    · exact absurd hboot hc
    · exact h.boot_first j pre e post' hk hboot
  · rcases hsplit heq with ⟨rfl, rfl⟩ | ⟨post', hk⟩
    · exact hhost
    · exact h.host_earlier pre e post' hk hboot

theorem Layout.Hosted.drop (h : L.Hosted k) {pre post : List (ℕ × ℕ)} {d : ℕ × ℕ}
    (hk : k i = pre ++ d :: post)
    (hnone : i = L.host → ∀ e ∈ k i, e.1 ≠ L.boot → e.1 ∉ L.chunks L.host d.2) :
    L.Hosted (update k i (pre ++ post)) := by
  -- the slab before which a remaining slab stood, or not
  have hsplit : ∀ {p e q}, pre ++ post = p ++ e :: q →
      (∃ q', k i = p ++ e :: q') ∨ ∃ p', p = pre ++ p' ∧ k i = (pre ++ d :: p') ++ e :: q := by
    intro p e q heq
    rcases append_eq_append_iff.mp heq with ⟨p', rfl, hpost⟩ | ⟨c, rfl, hq⟩
    · exact .inr ⟨p', rfl, by rw [hk, hpost]; simp⟩
    · cases c with
      | nil => exact .inr ⟨[], by simp, by rw [hk]; simpa using hq.symm⟩
      | cons x c =>
        obtain ⟨rfl, -⟩ := hq
        exact .inl ⟨c ++ d :: post, by rw [hk]; simp⟩
  refine ⟨fun j p e q heq hboot => ?_, fun p e q heq hboot => ?_⟩
  · by_cases hj : j = i
    · subst hj
      rw [update_self] at heq
      rcases hsplit heq with ⟨q', hq'⟩ | ⟨p', -, hq'⟩
      · exact h.boot_first j p e q' hq' hboot
      · exact absurd (h.boot_first j _ e q hq' hboot).2 (by simp)
    · rw [update_of_ne hj] at heq
      exact h.boot_first j p e q heq hboot
  · by_cases hj : L.host = i
    · subst hj
      rw [update_self] at heq
      rcases hsplit heq with ⟨q', hq'⟩ | ⟨p', rfl, hq'⟩
      · exact h.host_earlier p e q' hq' hboot
      · obtain ⟨t, ht, hmem⟩ := h.host_earlier _ e q hq' hboot
        have he : e ∈ k L.host := by rw [hq']; simp
        rw [List.mem_append, List.mem_cons] at ht
        rcases ht with ht | rfl | ht
        · exact ⟨t, List.mem_append_left _ ht, hmem⟩
        · exact absurd hmem (hnone rfl e he hboot)
        · exact ⟨t, mem_append_right _ ht, hmem⟩
    · rw [update_of_ne hj] at heq
      exact h.host_earlier p e q heq hboot

theorem mem_first {s : Slab} (hs : s ∈ update (fun _ => []) L.host [⟨L.boot, f, fr⟩] i) :
    i = L.host ∧ s = ⟨L.boot, f, fr⟩ := by
  rcases mem_update.mp hs with ⟨hi, hs⟩ | ⟨-, hs⟩
  · exact ⟨hi, List.mem_singleton.mp hs⟩
  · simp at hs

theorem Layout.Hosted.first :
    L.Hosted (ids (update (fun _ => []) L.host [⟨L.boot, f, fr⟩])) := by
  have hids : ∀ i, ids (update (fun _ => []) L.host [⟨L.boot, f, fr⟩]) i =
      if i = L.host then [(L.boot, f)] else [] := by
    intro i
    by_cases hi : i = L.host
    · subst hi
      simp [ids]
    · simp [ids, hi]
  refine ⟨fun i pre e post heq _ => ?_, fun pre e post heq hb => ?_⟩
  · rw [hids] at heq
    by_cases hi : i = L.host
    · rw [if_pos hi, eq_comm, append_eq_singleton_iff] at heq
      rcases heq with ⟨hpre, -⟩ | ⟨-, hpost⟩
      · exact ⟨hi, hpre⟩
      · simp at hpost
    · simp [hi] at heq
  · rw [hids, if_pos rfl, eq_comm, append_eq_singleton_iff] at heq
    rcases heq with ⟨-, hpost⟩ | ⟨-, hpost⟩
    · obtain ⟨rfl, -⟩ := cons_eq_cons.mp hpost
      exact absurd rfl hb
    · simp at hpost

theorem Layout.Stocked.first (hfr : fr ≠ []) :
    L.Stocked (update (fun _ => []) L.host [⟨L.boot, f, fr⟩]) :=
  .inr ⟨⟨L.boot, f, fr⟩, by simp, hfr⟩

/-- **A chunk is always left for the next record**: allocation keeps the hosting
class stocked, if a page has room for two records. -/
theorem Layout.Stocked.alloc (hst : L.Stocked g) (htwo : 2 ≤ L.page / L.slot L.host)
    (ha : L.Alloc g fl i c g' fl') : L.Stocked g' := by
  induction ha with
  | @take _ i _ pre post s fr hg _ _ hlast =>
    by_cases hi : L.host = i
    · exact .inr ⟨{ s with free := fr }, by simp [← hi], hlast hi.symm⟩
    · rwa [Layout.Stocked, update_of_ne hi]
  | @eager f _ r _ _ _ _ fr _ _ _ hfr =>
    refine .inr ⟨⟨r, f, fr⟩, by simp, fun hnil => ?_⟩
    have hlen := hfr.length_eq
    rw [length_chunks, show fr = [] from hnil] at hlen
    simp only [length_singleton] at hlen
    omega
  | grow hi _ _ _ ih => rwa [Layout.Stocked, update_of_ne hi.symm]

theorem Layout.used_of_other (hu : L.Used g ∨ L.Untouched g) (hg : g i = pre ++ s :: post)
    (ht : j ≠ i ∧ t ∈ g j ∨ j = i ∧ (t ∈ pre ∨ t ∈ post)) :
    t.free.length < L.page / L.slot j := by
  have hmem : t ∈ g j := by
    rcases ht with ⟨-, ht⟩ | ⟨rfl, ht | ht⟩
    · exact ht
    · simp [hg, ht]
    · simp [hg, ht]
  rcases hu with hu | ⟨b, rfl⟩
  · exact hu j t hmem
  · have hi : i = L.host := by
      by_contra hne
      rw [update_of_ne hne] at hg
      simp at hg
    subst hi
    rw [update_self, eq_comm, append_eq_singleton_iff] at hg
    rcases hg with ⟨rfl, hg⟩ | ⟨-, hg⟩
    · obtain ⟨-, rfl⟩ := cons_eq_cons.mp hg
      rcases ht with ⟨hj, ht⟩ | ⟨-, ht⟩
      · rw [update_of_ne hj] at ht
        simp at ht
      · simp at ht
    · simp at hg

theorem Layout.Used.free (hu : L.Used g) (hf : L.Free g fl p g' fl') : L.Used g' := by
  induction hf with
  | @put g fl p i pre post s hg _ hlen =>
    intro j t ht
    rcases mem_splice [s] [_] hg ht with ⟨rfl, hl⟩ | ht
    · obtain rfl := List.mem_singleton.mp hl
      have hlt := hu j s (by simp [hg])
      simp only [length_cons]
      omega
    · exact hu j t ht
  | @drop g g' fl fl' p i pre post s hg _ _ _ ih =>
    refine ih fun j t ht => hu j t ?_
    exact (mem_splice [s] [] hg ht).resolve_left (by simp)
  | miss _ => exact hu

/-! ### Ownership -/

variable [Fintype ι]

namespace Layout.Owned

theorem take (h : L.Owned fl g live) (hg : g i = pre ++ s :: post) (hfree : s.free = c :: fr) :
    L.Owned fl (update g i (pre ++ { s with free := fr } :: post)) ((i, c) ::ₘ live) := by
  have hs : s ∈ g i := by simp [hg]
  have hsub : ∀ x ∈ s.free, x ∈ L.chunks i s.page := h.free_sub i s hs
  rw [hfree] at hsub
  refine h.refree hg ?_ (fun x hx => hsub x (List.mem_cons_of_mem _ hx)) ?_
  · rw [hfree, Multiset.map_cons, ← cons_coe, add_cons, cons_add]
  · intro b hb
    rcases Multiset.mem_cons.mp hb with rfl | hb
    · exact ⟨s, hs, hsub _ mem_cons_self⟩
    · exact h.live_ok b hb

theorem grow_take (h : L.Owned (f :: fl) g ((L.host, r) ::ₘ live))
    (hfr : (c :: fr).Perm (L.chunks i f)) :
    L.Owned fl (update g i (g i ++ [⟨r, f, fr⟩])) ((i, c) ::ₘ live) := by
  have hgrow := h.grow hfr
  have hlast : update g i (g i ++ [⟨r, f, c :: fr⟩]) i = g i ++ ⟨r, f, c :: fr⟩ :: [] :=
    update_self _ _ _
  have htake := hgrow.take hlast rfl
  rwa [update_idem] at htake

theorem alloc (h : L.Owned fl g live) (ha : L.Alloc g fl i c g' fl') :
    L.Owned fl' g' ((i, c) ::ₘ live) := by
  induction ha generalizing live with
  | take hg _ hfree _ => exact h.take hg hfree
  | eager hg _ hfree hfr =>
    have hgrow := (h.take hg hfree).grow_take hfr
    rwa [update_self, update_idem] at hgrow
  | grow _ _ _ hfr ih => exact (ih h).grow_take hfr

theorem held_chunk (h : L.Owned fl g (held + live)) (hheld : L.Held p held) (hs : s ∈ g i)
    (hpage : s.page = p / L.page * L.page) : held = {(i, p)} ∧ p ∈ L.chunks i s.page := by
  rcases hheld with ⟨j, rfl⟩ | ⟨rfl, -⟩
  · obtain ⟨t, ht, hp⟩ := h.live_ok (j, p) (by simp)
    have heq : t.page = s.page := by
      rw [hpage]
      exact (page_of_chunk (h.page_ok j t ht).1 hp).symm
    obtain ⟨rfl, rfl⟩ := h.same_slab ht hs heq
    exact ⟨rfl, hp⟩
  · have hboot := (h.page_ok i s hs).2
    have hle := Nat.div_mul_le_self L.boot L.page
    omega

theorem put (h : L.Owned fl g (held + live)) (hheld : L.Held p held) (hg : g i = pre ++ s :: post)
    (hpage : s.page = p / L.page * L.page) :
    L.Owned fl (update g i (pre ++ { s with free := p :: s.free } :: post)) live := by
  have hs : s ∈ g i := by simp [hg]
  obtain ⟨rfl, hp⟩ := h.held_chunk hheld hs hpage
  refine h.refree hg ?_ ?_ fun b hb => h.live_ok b (mem_add.mpr (.inr hb))
  · rw [← cons_coe, map_add, Multiset.map_singleton, Multiset.singleton_add,
      add_cons, cons_add]
  · intro x hx
    rcases mem_cons.mp hx with rfl | hx
    · exact hp
    · exact h.free_sub i s hs x hx

theorem put_drop (h : L.Owned fl g (held + live)) (hheld : L.Held p held)
    (hg : g i = pre ++ s :: post) (hpage : s.page = p / L.page * L.page)
    (hlen : s.free.length + 1 = L.page / L.slot i) :
    L.Owned (s.page :: fl) (update g i (pre ++ post)) (L.recordBlock s + live) := by
  have hput := h.put hheld hg hpage
  have hmid : update g i (pre ++ { s with free := p :: s.free } :: post) i =
      pre ++ { s with free := p :: s.free } :: post := update_self _ _ _
  have hfull := hput.free_perm (s := { s with free := p :: s.free }) (by simp) hlen
  have hdrop := hput.drop hmid hfull
  rwa [update_idem] at hdrop

theorem not_record_of_full (h : L.Owned fl g (held + live)) (hheld : L.Held p held)
    (hg : g i = pre ++ s :: post) (hpage : s.page = p / L.page * L.page)
    (hlen : s.free.length + 1 = L.page / L.slot i) {t : Slab} (ht : t ∈ g j)
    (hboot : t.record ≠ L.boot) : t.record ∉ L.chunks i s.page := by
  have hs : s ∈ g i := by simp [hg]
  have hput := h.put hheld hg hpage
  have hmid : { s with free := p :: s.free } ∈
      update g i (pre ++ { s with free := p :: s.free } :: post) i := by simp
  have hfull := hput.free_perm hmid hlen
  intro hmem
  -- the record is a free chunk, and it is not the block that is being freed
  have hne : t.record ∉ p :: s.free := by
    obtain ⟨rfl, -⟩ := h.held_chunk hheld hs hpage
    rw [List.mem_cons, not_or]
    exact ⟨(h.record_not_live (b := (i, p)) ht hboot (by simp)).symm,
      h.record_not_free ht hboot hs⟩
  exact hne (hfull.mem_iff.mpr hmem)

theorem free (h : L.Owned fl g (held + live)) (hheld : L.Held p held) (hf : L.Free g fl p g' fl') :
    L.Owned fl' g' live := by
  induction hf generalizing held with
  | put hg hpage _ => exact h.put hheld hg hpage
  | drop hg hpage hlen _ ih => exact ih (h.put_drop hheld hg hpage hlen) (held_recordBlock _)
  | miss hnone => rwa [h.held_of_miss hheld hnone, Multiset.zero_add] at h

end Layout.Owned

/-! ### Pages -/

theorem Layout.Alloc.pages_eq (ha : L.Alloc g fl i c g' fl') :
    (fl : Multiset ℕ) + pages g = (fl' : Multiset ℕ) + pages g' := by
  induction ha with
  | take hg _ _ _ => rw [pages_refree hg]
  | @eager f fl r c pre post s fr hg hpre hfree hfr =>
    have hgrow := pages_grow fl (update g L.host (pre ++ { s with free := [] } :: post))
      L.host ⟨r, f, fr⟩
    rw [update_self, update_idem] at hgrow
    rwa [pages_refree hg] at hgrow
  | grow _ _ _ _ ih => exact ih.trans (pages_grow _ _ _ ⟨_, _, _⟩)

theorem Layout.Free.pages_eq (hf : L.Free g fl p g' fl') :
    (fl : Multiset ℕ) + pages g = (fl' : Multiset ℕ) + pages g' := by
  induction hf with
  | put hg _ _ => rw [pages_refree hg]
  | drop hg _ _ _ ih => exact (pages_drop _ hg).trans ih
  | miss _ => rfl

/-! ### The hosting class -/

theorem Layout.Hosted.alloc (hH : L.Hosted (ids g)) (h : L.Owned fl g live)
    (ha : L.Alloc g fl i c g' fl') : L.Hosted (ids g') := by
  induction ha with
  | take hg _ _ _ =>
    rw [ids_refree hg]
    exact hH
  | @eager f fl r c pre post s fr hg _ hfree _ =>
    have htake := h.take hg hfree
    have hrec : L.HasChunk _ L.host r := htake.live_ok (L.host, r) (mem_cons_self _ _)
    have hgrow := (ids_refree hg [] ▸ hH).grow (i := L.host) (f := f) (htake.ne_boot hrec)
      (hasChunk_ids hrec)
    rw [ids_update, update_self, update_idem] at hgrow
    rw [ids_update]
    simpa using hgrow
  | @grow _ f fl fl1 i r c fr _ _ hrec _ ih =>
    have halloc := h.alloc hrec
    have hchunk : L.HasChunk _ L.host r := halloc.live_ok (L.host, r) (mem_cons_self _ _)
    have hgrow := (ih h).grow (i := i) (f := f) (halloc.ne_boot hchunk) (hasChunk_ids hchunk)
    rw [ids_update]
    simpa [ids] using hgrow

theorem Layout.Hosted.put_drop (hH : L.Hosted (ids g)) (h : L.Owned fl g (held + live))
    (hheld : L.Held p held) (hg : g i = pre ++ s :: post) (hpage : s.page = p / L.page * L.page)
    (hlen : s.free.length + 1 = L.page / L.slot i) :
    L.Hosted (ids (update g i (pre ++ post))) := by
  rw [ids_update, map_append]
  refine hH.drop (d := (s.record, s.page)) (by simp [ids, hg]) ?_
  rintro rfl e he hboot hmem
  obtain ⟨t, ht, rfl⟩ := mem_map.mp he
  exact h.not_record_of_full hheld hg hpage hlen ht hboot hmem

theorem Layout.Hosted.free (hH : L.Hosted (ids g)) (h : L.Owned fl g (held + live))
    (hheld : L.Held p held) (hf : L.Free g fl p g' fl') : L.Hosted (ids g') := by
  induction hf generalizing held with
  | put hg _ _ =>
    rw [ids_refree hg]
    exact hH
  | drop hg hpage hlen _ ih =>
    exact ih (hH.put_drop h hheld hg hpage hlen) (h.put_drop hheld hg hpage hlen)
      (held_recordBlock _)
  | miss _ => exact hH

/-! ### The first slab -/

theorem Layout.Owned.first (hfr : fr.Perm (L.chunks L.host f)) (hnd : (f :: fl).Nodup)
    (hframes : ∀ x ∈ f :: fl, L.page ∣ x ∧ L.boot < x) :
    L.Owned fl (update (fun _ => []) L.host [⟨L.boot, f, fr⟩]) 0 := by
  refine ⟨?_, fun x hx => hframes x (mem_cons_of_mem _ hx), ?_, ?_, ?_, by simp, ?_⟩
  · rw [pages, total_single, add_comm, singleton_add]
    exact coe_nodup.mpr hnd
  · intro i s hs
    obtain ⟨rfl, rfl⟩ := mem_first hs
    exact hframes f mem_cons_self
  · intro i s hs
    obtain ⟨rfl, rfl⟩ := mem_first hs
    exact fun c hc => hfr.mem_iff.mp hc
  · rw [Layout.allChunks, allFree, Layout.records, total_single, total_single, total_single,
      coe_eq_coe.mpr hfr]
    simp [Layout.recordChunk]
  · intro i s hs hb
    obtain ⟨rfl, rfl⟩ := mem_first hs
    exact absurd rfl hb

/-- Freeing keeps it stocked too.  A slab of the class that goes gives its
record back to an earlier one, and the first slab is the last to go. -/
theorem Layout.Stocked.free (hst : held = {(L.host, p)} ∨ L.Stocked g) (hH : L.Hosted (ids g))
    (h : L.Owned fl g (held + live)) (hheld : L.Held p held) (hf : L.Free g fl p g' fl') :
    L.Stocked g' := by
  induction hf generalizing held with
  | @put g fl p i pre post s hg hpage _ =>
    obtain ⟨rfl, -⟩ := h.held_chunk (i := i) hheld (by simp [hg]) hpage
    by_cases hi : L.host = i
    · exact .inr ⟨{ s with free := p :: s.free }, by simp [← hi], by simp⟩
    · rcases hst with heq | hst
      · exact absurd (by simpa using heq) (Ne.symm hi)
      · rwa [Layout.Stocked, update_of_ne hi]
  | @drop g g' fl fl' p i pre post s hg hpage hlen _ ih =>
    refine ih ?_ (hH.put_drop h hheld hg hpage hlen) (h.put_drop hheld hg hpage hlen)
      (held_recordBlock _)
    by_cases hboot : s.record = L.boot
    · -- the first slab goes: no other slab can have its record in it
      obtain ⟨rfl, rfl⟩ := hH.first_of_boot hg hboot
      refine .inr (.inl ?_)
      cases post with
      | nil => simp
      | cons t post =>
        have hsecond : g L.host = [s] ++ t :: post := hg
        have ht : t ∈ g L.host := by simp [hg]
        by_cases htb : t.record = L.boot
        · exact absurd (hH.first_of_boot hsecond htb).2 (by simp)
        · obtain ⟨u, hu, hmem⟩ := hH.earlier hsecond htb
          obtain rfl := List.mem_singleton.mp hu
          exact absurd hmem (h.not_record_of_full hheld hg hpage hlen ht htb)
    · exact .inl (by simp [Layout.recordBlock, hboot])
  | miss hnone => exact hst.resolve_left (by simp [h.held_of_miss hheld hnone])

theorem Layout.Used.alloc (h : L.Owned fl g live) (hu : L.Used g ∨ L.Untouched g)
    (ha : L.Alloc g fl i c g' fl') : L.Used g' := by
  induction ha with
  | @take fl i c pre post s fr hg _ hfree _ =>
    intro j t ht
    rcases (mem_splice_iff [_]).mp ht with ⟨rfl, hl⟩ | ht
    · obtain rfl := List.mem_singleton.mp hl
      have hle := h.length_free_le (i := j) (s := s) (by simp [hg])
      rw [hfree, length_cons] at hle
      exact hle
    · exact L.used_of_other hu hg ht
  | @eager f fl r c pre post s fr hg _ _ hfr =>
    intro j t ht
    rcases mem_update.mp ht with ⟨rfl, hl⟩ | ⟨hj, hl⟩
    · rw [List.mem_append, List.mem_append, List.mem_cons, List.mem_singleton] at hl
      rcases hl with (hl | rfl | hl) | rfl
      · exact L.used_of_other hu hg (.inr ⟨rfl, .inl hl⟩)
      · exact L.slots_pos L.host
      · exact L.used_of_other hu hg (.inr ⟨rfl, .inr hl⟩)
      · exact length_lt_of_perm hfr
    · exact L.used_of_other hu hg (.inl ⟨hj, hl⟩)
  | @grow g1 f fl fl1 i r c fr _ _ hrec hfr ih =>
    intro j t ht
    have hu1 := ih h
    rcases mem_update.mp ht with ⟨rfl, hl⟩ | ⟨hj, hl⟩
    · rw [List.mem_append, List.mem_singleton] at hl
      rcases hl with hl | rfl
      · exact hu1 j t hl
      · exact length_lt_of_perm hfr
    · exact hu1 j t hl

end SlabSpace
