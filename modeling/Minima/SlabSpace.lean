/-
Self-hosting slab allocators.

A slab allocator cuts pages into equal chunks, one size per class, and keeps a
record for every slab (a page it has cut).  It is *self-hosting* when the
records are themselves chunks, of one distinguished class; only the first
record, `boot`, lives outside.  This file is about who owns which chunk, for
any number of classes and any sizes: nothing here depends on how a particular
allocator searches its lists or stores its free chunks.

* `Owned` — the slabs have distinct pages, and the free chunks, the live blocks
  and the records partition all chunks;
* `Owned.refree`, `Owned.grow`, `Owned.drop` — the three edits an allocator is
  made of: changing the free chunks of one slab, turning a block into the record
  of a new slab, giving a slab back;
* `Owned.separate` — two different chunks do not overlap.
-/
import Minima.ListTable
import Mathlib.Tactic.Linarith

open ListTable

namespace SlabSpace

open Multiset (coe_eq_coe coe_nodup cons_coe disjoint_left le_add_left le_add_right map_add
  mem_add mem_coe mem_map_of_mem nodup_add nodup_of_le singleton_add)
open Function List

/-- The sizes: pages of `page` bytes are cut into chunks of `slot i` bytes, and
the records of the slabs are chunks of class `host` or the address `boot`. -/
structure Layout (ι : Type*) where
  page : ℕ
  slot : ι → ℕ
  host : ι
  boot : ℕ
  slot_pos : ∀ i, 0 < slot i
  slot_dvd : ∀ i, slot i ∣ page
  page_pos : 0 < page

/-- A slab: where its record is, its page and its free chunks. -/
structure Slab where
  record : ℕ
  page : ℕ
  free : List ℕ
  deriving DecidableEq

variable {ι : Type*} (L : Layout ι)

/-- The chunks of a page in class `i`. -/
def Layout.chunks (i : ι) (p : ℕ) : List ℕ :=
  (List.range (L.page / L.slot i)).map fun k => p + k * L.slot i

/-- The record of a slab as a chunk; the first record is none. -/
def Layout.recordChunk (s : Slab) : Multiset ℕ := if s.record = L.boot then 0 else {s.record}

/-- The record of a slab as a live block of the hosting class. -/
def Layout.recordBlock (s : Slab) : Multiset (ι × ℕ) :=
  if s.record = L.boot then 0 else {(L.host, s.record)}

/-! ### Chunks of one page, and records -/

section Chunks

variable {L} {i j : ι} {p q c d : ℕ} {s : Slab}

theorem mem_chunks : c ∈ L.chunks i p ↔ ∃ k < L.page / L.slot i, c = p + k * L.slot i := by
  simp only [Layout.chunks, mem_map, mem_range, eq_comm]

@[simp] theorem length_chunks : (L.chunks i p).length = L.page / L.slot i := by
  simp [Layout.chunks]

theorem Layout.slots_pos (L : Layout ι) (i : ι) : 0 < L.page / L.slot i :=
  Nat.div_pos (Nat.le_of_dvd L.page_pos (L.slot_dvd i)) (L.slot_pos i)

theorem length_lt_of_perm {fr : List ℕ} (hfr : (c :: fr).Perm (L.chunks i p)) :
    fr.length < L.page / L.slot i := by
  have hlen := hfr.length_eq
  rw [length_chunks, length_cons] at hlen
  omega

theorem nodup_chunks : (L.chunks i p).Nodup := by
  refine List.Nodup.map_on ?_ nodup_range
  intro k _ k' _ heq
  exact Nat.eq_of_mul_eq_mul_right (L.slot_pos i) (Nat.add_left_cancel heq)

theorem le_of_mem_chunks (hc : c ∈ L.chunks i p) : p ≤ c := by
  obtain ⟨k, -, rfl⟩ := mem_chunks.mp hc
  exact Nat.le_add_right _ _

theorem add_slot_le_of_mem_chunks (hc : c ∈ L.chunks i p) : c + L.slot i ≤ p + L.page := by
  obtain ⟨k, hk, rfl⟩ := mem_chunks.mp hc
  have hle : (k + 1) * L.slot i ≤ L.page :=
    (Nat.mul_le_mul_right _ hk).trans (Nat.div_mul_le_self _ _)
  rw [Nat.add_mul, Nat.one_mul] at hle
  omega

theorem page_of_mem_chunks (hp : L.page ∣ p) (hc : c ∈ L.chunks i p) {x : ℕ} (hx : c ≤ x)
    (hx' : x < c + L.slot i) : x / L.page * L.page = p := by
  obtain ⟨n, rfl⟩ := hp
  have hlo := le_of_mem_chunks hc
  have hhi := add_slot_le_of_mem_chunks hc
  have hdiv : x / L.page = n := by
    rw [Nat.div_eq_iff L.page_pos]
    constructor
    · rw [Nat.mul_comm]
      omega
    · rw [Nat.mul_comm n]
      omega
  rw [hdiv, Nat.mul_comm]

theorem page_of_chunk (hp : L.page ∣ p) (hc : c ∈ L.chunks i p) : c / L.page * L.page = p :=
  page_of_mem_chunks hp hc le_rfl (Nat.lt_add_of_pos_right (L.slot_pos i))

theorem chunks_separate (hc : c ∈ L.chunks i p) (hd : d ∈ L.chunks i p) (hne : c ≠ d) :
    c + L.slot i ≤ d ∨ d + L.slot i ≤ c := by
  obtain ⟨k, -, rfl⟩ := mem_chunks.mp hc
  obtain ⟨k', -, rfl⟩ := mem_chunks.mp hd
  have step : ∀ {a b : ℕ}, a < b → p + a * L.slot i + L.slot i ≤ p + b * L.slot i := by
    intro a b hab
    have := Nat.mul_le_mul_right (L.slot i) (Nat.succ_le_of_lt hab)
    rw [Nat.succ_mul] at this
    omega
  rcases Nat.lt_trichotomy k k' with h | rfl | h
  · exact .inl (step h)
  · exact absurd rfl hne
  · exact .inr (step h)

theorem pages_separate (hp : L.page ∣ p) (hq : L.page ∣ q) (hpq : p ≠ q)
    (hc : c ∈ L.chunks i p) (hd : d ∈ L.chunks j q) :
    c + L.slot i ≤ d ∨ d + L.slot j ≤ c := by
  by_contra hno
  rw [not_or, Nat.not_le, Nat.not_le] at hno
  obtain ⟨h1, h2⟩ := hno
  -- the larger of the two starts would lie in both pages
  rcases Nat.le_total c d with h | h
  · exact hpq ((page_of_mem_chunks hp hc h h1).symm.trans (page_of_chunk hq hd))
  · exact hpq ((page_of_chunk hp hc).symm.trans (page_of_mem_chunks hq hd h h2))

theorem mem_recordBlock {b : ι × ℕ} :
    b ∈ L.recordBlock s ↔ s.record ≠ L.boot ∧ b = (L.host, s.record) := by
  by_cases hb : s.record = L.boot
  · simp [Layout.recordBlock, hb]
  · simp [Layout.recordBlock, hb]

theorem map_recordBlock : (L.recordBlock s).map Prod.snd = L.recordChunk s := by
  by_cases hb : s.record = L.boot
  · simp [Layout.recordBlock, Layout.recordChunk, hb]
  · simp [Layout.recordBlock, Layout.recordChunk, hb]

end Chunks

/-! ### Who owns which chunk -/

section Table

variable [Fintype ι]

/-- All pages of the table. -/
def pages (g : ι → List Slab) : Multiset ℕ := total (fun _ s => {s.page}) g

/-- All chunks of the table. -/
def Layout.allChunks (g : ι → List Slab) : Multiset ℕ :=
  total (fun i s => ((L.chunks i s.page : List ℕ) : Multiset ℕ)) g

/-- All free chunks of the table. -/
def allFree (g : ι → List Slab) : Multiset ℕ := total (fun _ s => (s.free : Multiset ℕ)) g

/-- All chunks that hold records. -/
def Layout.records (g : ι → List Slab) : Multiset ℕ := total (fun _ s => L.recordChunk s) g

/-- `c` is a chunk of some slab of class `i`. -/
def Layout.HasChunk (g : ι → List Slab) (i : ι) (c : ℕ) : Prop :=
  ∃ s ∈ g i, c ∈ L.chunks i s.page

/-- **The ownership invariant** of a table of slabs with live blocks `live`,
each block given by its class and its address, over a pool `fl` of free pages. -/
structure Layout.Owned (fl : List ℕ) (g : ι → List Slab) (live : Multiset (ι × ℕ)) : Prop where
  frames_nodup : ((fl : Multiset ℕ) + pages g).Nodup
  frame_ok : ∀ f ∈ fl, L.page ∣ f ∧ L.boot < f
  page_ok : ∀ i, ∀ s ∈ g i, L.page ∣ s.page ∧ L.boot < s.page
  free_sub : ∀ i, ∀ s ∈ g i, ∀ c ∈ s.free, c ∈ L.chunks i s.page
  parts : L.allChunks g = allFree g + live.map Prod.snd + L.records g
  live_ok : ∀ b ∈ live, L.HasChunk g b.1 b.2
  record_ok : ∀ i, ∀ s ∈ g i, s.record ≠ L.boot → L.HasChunk g L.host s.record

variable {L} {fl : List ℕ} {g : ι → List Slab} {live live' : Multiset (ι × ℕ)} {i j : ι}
  {s t : Slab}

namespace Layout.Owned

section

variable (h : L.Owned fl g live)
include h

theorem pages_nodup : (pages g).Nodup :=
  nodup_of_le (le_add_left _ _) h.frames_nodup

theorem nodup_allChunks : (L.allChunks g).Nodup := by
  refine nodup_total (fun c => c / L.page * L.page) h.pages_nodup ?_ ?_
  · intro i s _
    exact coe_nodup.mpr nodup_chunks
  · intro i s hs c hc
    exact page_of_chunk (h.page_ok i s hs).1 (mem_coe.mp hc)

theorem nodup_parts :
    (allFree g + live.map Prod.snd + L.records g).Nodup :=
  h.parts ▸ h.nodup_allChunks

theorem nodup_allFree : (allFree g).Nodup :=
  nodup_of_le ((le_add_right _ _).trans (le_add_right _ _)) h.nodup_parts

theorem nodup_live : (live.map Prod.snd).Nodup :=
  nodup_of_le ((le_add_left _ _).trans (le_add_right _ _)) h.nodup_parts

theorem nodup_free (hs : s ∈ g i) : s.free.Nodup :=
  coe_nodup.mp
    (nodup_of_le (entry_le_total hs)
      h.nodup_allFree)

theorem same_slab (hs : s ∈ g i) (ht : t ∈ g j) (hpage : s.page = t.page) :
    s = t ∧ i = j := by
  exact entry_unique h.pages_nodup hs ht hpage

theorem same_slab_of_chunk (hs : s ∈ g i) (ht : t ∈ g j) {c : ℕ}
    (hc : c ∈ L.chunks i s.page) (hc' : c ∈ L.chunks j t.page) : s = t ∧ i = j :=
  h.same_slab hs ht
    ((page_of_chunk (h.page_ok i s hs).1 hc).symm.trans (page_of_chunk (h.page_ok j t ht).1 hc'))

theorem nodup_slabs : (g i).Nodup := by
  classical
  have hle : (((g i).map Slab.page)) ≤ pages g := by
    have := list_le_total (fun (_ : ι) (s : Slab) => ({s.page})) g i
    rwa [sum_map_singleton] at this
  exact List.Nodup.of_map _ (coe_nodup.mp (nodup_of_le hle h.pages_nodup))

theorem length_free_le (hs : s ∈ g i) :
    s.free.length ≤ L.page / L.slot i := by
  have hle := (subperm_of_subset (h.nodup_free hs) (h.free_sub i s hs)).length_le
  rwa [length_chunks] at hle

theorem live_not_free {b : ι × ℕ} (hb : b ∈ live) (hs : s ∈ g i) :
    b.2 ∉ s.free := by
  intro hfree
  have hdisj := (nodup_add.mp (nodup_add.mp h.nodup_parts).1).2.2
  have hmem : b.2 ∈ allFree g := mem_total.mpr ⟨i, s, hs, hfree⟩
  exact disjoint_left.mp hdisj hmem (mem_map_of_mem _ hb)

theorem record_not_free (ht : t ∈ g j) (hb : t.record ≠ L.boot)
    (hs : s ∈ g i) : t.record ∉ s.free := by
  intro hfree
  have hdisj := (nodup_add.mp h.nodup_parts).2.2
  have hmem : t.record ∈ allFree g + live.map Prod.snd :=
    mem_add.mpr (.inl (mem_total.mpr ⟨i, s, hs, hfree⟩))
  have hrec : t.record ∈ L.records g :=
    mem_total.mpr ⟨j, t, ht, by simp [Layout.recordChunk, hb]⟩
  exact disjoint_left.mp hdisj hmem hrec

theorem record_not_live (ht : t ∈ g j) (hb : t.record ≠ L.boot)
    {b : ι × ℕ} (hlive : b ∈ live) : b.2 ≠ t.record := by
  intro heq
  have hdisj := (nodup_add.mp h.nodup_parts).2.2
  have hmem : b.2 ∈ allFree g + live.map Prod.snd :=
    mem_add.mpr (.inr (mem_map_of_mem _ hlive))
  have hrec : t.record ∈ L.records g :=
    mem_total.mpr ⟨j, t, ht, by simp [Layout.recordChunk, hb]⟩
  exact disjoint_left.mp hdisj hmem (heq ▸ hrec)

theorem separate {c d : ℕ} (hc : L.HasChunk g i c) (hd : L.HasChunk g j d)
    (hne : c ≠ d) : c + L.slot i ≤ d ∨ d + L.slot j ≤ c := by
  obtain ⟨s, hs, hc⟩ := hc
  obtain ⟨t, ht, hd⟩ := hd
  by_cases hpage : s.page = t.page
  · obtain ⟨rfl, rfl⟩ := h.same_slab hs ht hpage
    exact chunks_separate hc hd hne
  · exact pages_separate (h.page_ok i s hs).1 (h.page_ok j t ht).1 hpage hc hd

end

end Layout.Owned

/-! ### The three edits -/

variable [DecidableEq ι] {pre post : List Slab}

theorem pages_refree (hg : g i = pre ++ s :: post) (fr : List ℕ) :
    pages (update g i (pre ++ { s with free := fr } :: post)) = pages g :=
  add_right_cancel
    (total_replace hg { s with free := fr })

theorem pages_grow (fl : List ℕ) (g : ι → List Slab) (i : ι) (s : Slab) :
    ((s.page :: fl : List ℕ) : Multiset ℕ) + pages g =
    (fl : Multiset ℕ) + pages (update g i (g i ++ [s])) := by
  rw [pages, pages, total_concat, ← cons_coe, ← singleton_add]
  abel

theorem pages_drop (fl : List ℕ) (hg : g i = pre ++ s :: post) : (fl : Multiset ℕ) + pages g =
    ((s.page :: fl : List ℕ) : Multiset ℕ) + pages (update g i (pre ++ post)) := by
  rw [pages, pages, ← total_remove hg,
    ← cons_coe, ← singleton_add]
  abel

namespace Layout.Owned

/-- **Other free chunks.**  The free chunks of one slab and the live blocks
change, but not their sum: a chunk is taken out of a slab or put back. -/
theorem refree (h : L.Owned fl g live) (hg : g i = pre ++ s :: post) {fr : List ℕ}
    (hsum : (fr : Multiset ℕ) + live'.map Prod.snd = s.free + live.map Prod.snd)
    (hsub : ∀ c ∈ fr, c ∈ L.chunks i s.page) (hlive : ∀ b ∈ live', L.HasChunk g b.1 b.2) :
    L.Owned fl (update g i (pre ++ { s with free := fr } :: post)) live' := by
  set s' : Slab := { s with free := fr } with hs'
  set g' := update g i (pre ++ s' :: post) with hg'
  have hsg : s ∈ g i := by simp [hg]
  -- every slab of the new table stands for one of the old with the same record and page
  have hold : ∀ j, ∀ t ∈ g' j, t = s' ∧ j = i ∨ t ∈ g j := by
    intro j t ht
    rcases mem_splice [s] [s'] hg ht with ⟨hj, hl⟩ | ht
    · exact .inl ⟨mem_singleton.mp hl, hj⟩
    · exact .inr ht
  have hchunk : ∀ j c, L.HasChunk g j c → L.HasChunk g' j c := by
    rintro j c ⟨t, ht, hc⟩
    rcases mem_splice_of_mem [s] [s'] hg ht with ⟨rfl, ht⟩ | ht
    · obtain rfl := mem_singleton.mp ht
      exact ⟨s', by simp [hg'], hc⟩
    · exact ⟨t, ht, hc⟩
  have hpages : pages g' = pages g := pages_refree hg fr
  have hall : L.allChunks g' = L.allChunks g :=
    add_right_cancel (total_replace hg s')
  have hrec : L.records g' = L.records g :=
    add_right_cancel (total_replace hg s')
  have hfree : allFree g' + s.free = allFree g + fr :=
    total_replace hg s'
  refine ⟨hpages ▸ h.frames_nodup, h.frame_ok, ?_, ?_, ?_, fun b hb => hchunk _ _ (hlive b hb), ?_⟩
  · intro j t ht
    rcases hold j t ht with ⟨rfl, rfl⟩ | ht
    · exact h.page_ok _ s hsg
    · exact h.page_ok j t ht
  · intro j t ht
    rcases hold j t ht with ⟨rfl, rfl⟩ | ht
    · exact hsub
    · exact h.free_sub j t ht
  · rw [hall, hrec, h.parts]
    congr 1
    refine add_right_cancel (b := (s.free : Multiset ℕ)) ?_
    calc allFree g + live.map Prod.snd + s.free = allFree g + (s.free + live.map Prod.snd) := by
          rw [add_assoc, add_comm (live.map Prod.snd)]
      _ = allFree g + fr + live'.map Prod.snd := by rw [← hsum, add_assoc]
      _ = allFree g' + live'.map Prod.snd + s.free := by rw [← hfree, add_right_comm]
  · intro j t ht hb
    rcases hold j t ht with ⟨rfl, rfl⟩ | ht
    · exact hchunk _ _ (h.record_ok _ s hsg hb)
    · exact hchunk _ _ (h.record_ok j t ht hb)

/-- **A new slab.**  A live block of the hosting class becomes the record of a
slab on a fresh page, all of whose chunks are free. -/
theorem grow {c f : ℕ} {fr : List ℕ} (h : L.Owned (f :: fl) g ((L.host, c) ::ₘ live))
    (hfr : fr.Perm (L.chunks i f)) :
    L.Owned fl (update g i (g i ++ [⟨c, f, fr⟩])) live := by
  set s : Slab := ⟨c, f, fr⟩ with hs
  set g' := update g i (g i ++ [s]) with hg'
  have hnew : ∀ j, ∀ t ∈ g' j, t = s ∧ j = i ∨ t ∈ g j := by
    intro j t ht
    rcases mem_update.mp ht with ⟨hj, hl⟩ | ⟨-, hl⟩
    · rcases mem_append.mp hl with hl | hl
      · exact .inr (hj ▸ hl)
      · exact .inl ⟨mem_singleton.mp hl, hj⟩
    · exact .inr hl
  have hchunk : ∀ j c, L.HasChunk g j c → L.HasChunk g' j c := by
    rintro j c ⟨t, ht, hc⟩
    refine ⟨t, mem_update.mpr ?_, hc⟩
    by_cases hj : j = i
    · subst hj
      exact .inl ⟨rfl, mem_append_left _ ht⟩
    · exact .inr ⟨hj, ht⟩
  have hhost : L.HasChunk g L.host c := h.live_ok (L.host, c) (Multiset.mem_cons_self _ _)
  -- the block lies in a page, so it is not the first record
  have hc : c ≠ L.boot := by
    obtain ⟨t, ht, hmem⟩ := hhost
    have := (h.page_ok _ t ht).2
    have := le_of_mem_chunks hmem
    omega
  have hall : L.allChunks g' = L.allChunks g + (L.chunks i f) := total_concat s
  have hrec : L.records g' = L.records g + {c} := by
    have := total_concat (f := fun (_ : ι) s => L.recordChunk s) (g := g) (i := i) s
    simpa [Layout.records, Layout.recordChunk, hs, hc] using this
  have hfree : allFree g' = allFree g + (fr) := total_concat s
  refine ⟨?_, fun x hx => h.frame_ok x (mem_cons_of_mem _ hx), ?_, ?_, ?_, ?_, ?_⟩
  · exact pages_grow fl g i s ▸ h.frames_nodup
  · intro j t ht
    rcases hnew j t ht with ⟨rfl, rfl⟩ | ht
    · exact h.frame_ok f mem_cons_self
    · exact h.page_ok j t ht
  · intro j t ht
    rcases hnew j t ht with ⟨rfl, rfl⟩ | ht
    · exact fun x hx => hfr.mem_iff.mp hx
    · exact h.free_sub j t ht
  · rw [hall, hrec, hfree, h.parts, coe_eq_coe.mpr hfr, Multiset.map_cons,
      ← singleton_add]
    abel
  · intro b hb
    exact hchunk _ _ (h.live_ok b (Multiset.mem_cons_of_mem hb))
  · intro j t ht hb
    rcases hnew j t ht with ⟨rfl, rfl⟩ | ht
    · exact hchunk _ _ hhost
    · exact hchunk _ _ (h.record_ok j t ht hb)

/-- **A slab given back.**  All chunks of the slab are free: its page goes back
to the pool, and the chunk of its record is a live block again. -/
theorem drop (h : L.Owned fl g live) (hg : g i = pre ++ s :: post)
    (hfull : s.free.Perm (L.chunks i s.page)) :
    L.Owned (s.page :: fl) (update g i (pre ++ post)) (L.recordBlock s + live) := by
  set g' := update g i (pre ++ post) with hg'
  have hsg : s ∈ g i := by simp [hg]
  have hold : ∀ j, ∀ t ∈ g' j, t ∈ g j := by
    intro j t ht
    exact (mem_splice [s] [] hg ht).resolve_left (by simp)
  -- whatever is in use lies in another slab
  have hchunk : ∀ j c, c ∉ s.free → L.HasChunk g j c → L.HasChunk g' j c := by
    rintro j c hc ⟨t, ht, htc⟩
    rcases mem_splice_of_mem [s] [] hg ht with ⟨rfl, ht⟩ | ht
    · obtain rfl := mem_singleton.mp ht
      exact absurd (hfull.mem_iff.mpr htc) hc
    · exact ⟨t, ht, htc⟩
  have hall : L.allChunks g' + (L.chunks i s.page) = L.allChunks g :=
    total_remove hg
  have hrec : L.records g' + L.recordChunk s = L.records g :=
    total_remove hg
  have hfree : allFree g' + (s.free) = allFree g :=
    total_remove hg
  refine ⟨?_, ?_, fun j t ht => h.page_ok j t (hold j t ht),
    fun j t ht => h.free_sub j t (hold j t ht), ?_, ?_, fun j t ht hb => ?_⟩
  · exact pages_drop fl hg ▸ h.frames_nodup
  · intro f hf
    rcases mem_cons.mp hf with rfl | hf
    · exact h.page_ok i s hsg
    · exact h.frame_ok f hf
  · refine add_right_cancel (b := (L.chunks i s.page : Multiset ℕ)) ?_
    rw [hall, h.parts, ← hfree, ← hrec, map_add, map_recordBlock,
      coe_eq_coe.mpr hfull]
    abel
  · intro b hb
    rcases mem_add.mp hb with hb | hb
    · obtain ⟨hboot, rfl⟩ := mem_recordBlock.mp hb
      exact hchunk _ _ (h.record_not_free hsg hboot hsg) (h.record_ok i s hsg hboot)
    · exact hchunk _ _ (h.live_not_free hb hsg) (h.live_ok b hb)
  · have ht := hold j t ht
    exact hchunk _ _ (h.record_not_free ht hb hsg) (h.record_ok j t ht hb)

end Layout.Owned

end Table

end SlabSpace
