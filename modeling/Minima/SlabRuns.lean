/-
Runs of the slab allocator: the representation invariant and termination.

A run starts with `slab_init` and consists of calls of `slab_alloc` and of
`slab_free` on live blocks, of stores by the owners of the blocks (or to other
memory), and of other users of `pf_alloc` and `pf_free` changing the list of
free frames.  The calls are made under `s_sem_slab`, one at a time.

* `slab_partition` — in every state reached the freelists are chains of chunks
  of their own slabs, and the free chunks, the live blocks and the `slab_meta`s
  partition all chunks;
* `slab_calls_terminate_iff` — `slab_free` always returns, and `slab_alloc`
  returns iff some block is live or nothing has been allocated yet;
* `slab_alloc_diverges` — one allocation and its release give the last 32-byte
  slab back, and then no allocation returns.
-/
import Minima.Slab
import Minima.Runs

open SlabSpace ListTable

namespace Slab

open Memory (IsFrame)
open Function List

/-- The allocator's state and the live blocks, each with the size asked for. -/
structure Machine where
  state : State
  live : List (ℕ × ℕ)

inductive Event
  /-- `slab_alloc(n)` -/
  | alloc (n : ℕ)
  /-- `slab_free(p)` -/
  | free (p : ℕ)
  /-- a store to memory the allocator does not own -/
  | store (a v : ℕ)
  /-- other code takes frames from `page_freelist` or gives some back -/
  | frames (fl : List ℕ)
  deriving DecidableEq

def Event.isAlloc : Event → Bool
  | .alloc _ => true
  | _ => false

/-- Address `a` belongs to a live block or to no slab. -/
def Machine.Writable (μ : Machine) (a : ℕ) : Prop :=
  (∃ b ∈ μ.live, b.1 ≤ a ∧ a < b.1 + b.2) ∨
    ∀ i, ∀ m ∈ μ.state.slabs i, m.slab ≠ pageRoundDn a

/-- A list of distinct page frames none of which is the page of a slab. -/
def Machine.FreeFrames (μ : Machine) (fl : List ℕ) : Prop :=
  fl.Nodup ∧ (∀ f ∈ fl, IsFrame f) ∧ ∀ i, ∀ m ∈ μ.state.slabs i, m.slab ∉ fl

/-- One event; a call is a step if it returns. -/
inductive Step : Machine → Event → Machine → Prop
  | alloc {σ σ' : State} {live : List (ℕ × ℕ)} {fuel n p : ℕ} (hlo : 1 ≤ n) (hhi : n ≤ 4096)
      (hcall : doSlabAlloc fuel n σ = .ok (p, σ')) :
      Step ⟨σ, live⟩ (.alloc n) ⟨σ', (p, n) :: live⟩
  | free {σ σ' : State} {live : List (ℕ × ℕ)} {fuel n p : ℕ} (hlive : (p, n) ∈ live)
      (hcall : doSlabFree fuel p σ = .ok σ') :
      Step ⟨σ, live⟩ (.free p) ⟨σ', live.erase (p, n)⟩
  | store {σ : State} {live : List (ℕ × ℕ)} {a v : ℕ} (hw : Machine.Writable ⟨σ, live⟩ a) :
      Step ⟨σ, live⟩ (.store a v) ⟨{ σ with toMemory := σ.toMemory.store a v }, live⟩
  | frames {σ : State} {live : List (ℕ × ℕ)} {fl : List ℕ}
      (hfl : Machine.FreeFrames ⟨σ, live⟩ fl) :
      Step ⟨σ, live⟩ (.frames fl) ⟨{ σ with pageFreelist := fl }, live⟩

/-- The state after `slab_init`, with distinct page frames to hand out and
`bootstrap_meta` below the window of the page frames. -/
structure Initial (boot : ℕ) (μ : Machine) : Prop where
  init : ∃ s : Memory, s.pageFreelist.Nodup ∧ (∀ f ∈ s.pageFreelist, IsFrame f) ∧
    slabInit boot s = .ok μ.state
  live : μ.live = []
  boot_le : boot + sizeofMeta ≤ pfaVirtOffset

/-! ### The invariant of a run -/

/-- The live blocks with their size classes. -/
def blocks (live : List (ℕ × ℕ)) : Multiset (Fin 10 × ℕ) :=
  (live.map fun b => (sizeIdx b.2, b.1) : List (Fin 10 × ℕ))

variable {b : ℕ × ℕ}

theorem mem_blocks {live : List (ℕ × ℕ)} (hb : b ∈ live) : (sizeIdx b.2, b.1) ∈ blocks live :=
  Multiset.mem_coe.mpr (mem_map.mpr ⟨b, hb, rfl⟩)

/-- The state represents a table of slabs whose ownership invariant and whose
hosting class are in order.  `touched` says whether there has been an
allocation. -/
structure Inv (boot : ℕ) (touched : Bool) (μ : Machine) (g : Fin 10 → List SlabSpace.Slab) :
    Prop where
  rep : Represents μ.state g
  owned : (kernel boot).Owned μ.state.pageFreelist g (blocks μ.live)
  frames : ∀ f ∈ μ.state.pageFreelist, IsFrame f
  pages : ∀ i, ∀ a ∈ g i, IsFrame a.page
  sizes : ∀ b ∈ μ.live, b.2 ≤ 4096
  hosted : (kernel boot).Hosted (ids g)
  stocked : (kernel boot).Stocked g
  used : if touched then (kernel boot).Used g else (kernel boot).Untouched g ∧ μ.live = []
  boot_le : boot + sizeofMeta ≤ pfaVirtOffset

variable {boot : ℕ} {touched : Bool} {μ μ' : Machine} {g : Fin 10 → List SlabSpace.Slab}

variable {f : ℕ}

theorem owned_frame (hboot : boot + sizeofMeta ≤ pfaVirtOffset) (hf : IsFrame f) :
    (kernel boot).page ∣ f ∧ (kernel boot).boot < f :=
  ⟨Nat.dvd_of_mod_eq_zero hf.1, (Nat.lt_add_of_pos_right (by decide)).trans_le (hboot.trans hf.2.1)⟩

variable {fl : List ℕ}

theorem frame_of_pages_eq {fl' : List ℕ} {g' : Fin 10 → List SlabSpace.Slab}
    (heq : (fl : Multiset ℕ) + pages g = (fl' : Multiset ℕ) + pages g')
    (hfl : ∀ f ∈ fl, IsFrame f) (hg : ∀ i, ∀ a ∈ g i, IsFrame a.page) :
    (∀ f ∈ fl', IsFrame f) ∧ ∀ i, ∀ a ∈ g' i, IsFrame a.page := by
  have hall : ∀ f ∈ (fl') + pages g', IsFrame f := by
    intro f hf
    rw [← heq, Multiset.mem_add] at hf
    rcases hf with hf | hf
    · exact hfl f hf
    · obtain ⟨i, a, ha, hfa⟩ := mem_total.mp hf
      obtain rfl := Multiset.mem_singleton.mp hfa
      exact hg i a ha
  refine ⟨fun f hf => hall f (Multiset.mem_add.mpr (.inl hf)), fun i a ha => hall _ ?_⟩
  exact Multiset.mem_add.mpr (.inr (mem_total.mpr ⟨i, a, ha, by simp⟩))

/-- What a call does to the rest of the system: page frames move between the
free frames and the slabs, and no other memory is touched. -/
structure Moved (σ σ' : State) (g g' : Fin 10 → List SlabSpace.Slab) : Prop where
  pages : (σ.pageFreelist : Multiset ℕ) + pages g = (σ'.pageFreelist : Multiset ℕ) + pages g'
  confined : Confined σ g σ'.toMemory

namespace Inv

variable {fuel p : ℕ} {σ' : State}

theorem alloc {n : ℕ} (h : Inv boot touched μ g) (hhi : n ≤ 4096)
    (hcall : doSlabAlloc fuel n μ.state = .ok (p, σ')) :
    ∃ g', Inv boot true ⟨σ', (p, n) :: μ.live⟩ g' ∧ Moved μ.state σ' g g' := by
  obtain ⟨g', hpolicy, hrep, hconf⟩ := doSlabAlloc_refines hcall h.rep h.owned
  obtain ⟨hfl, hpages⟩ := frame_of_pages_eq hpolicy.pages_eq h.frames h.pages
  have hused : (kernel boot).Used g ∨ (kernel boot).Untouched g := by
    have := h.used
    cases touched with
    | true => exact .inl this
    | false => exact .inr this.1
  refine ⟨g', ⟨hrep, ?_, hfl, hpages, ?_, h.hosted.alloc h.owned hpolicy, ?_,
    Layout.Used.alloc h.owned hused hpolicy, h.boot_le⟩, hpolicy.pages_eq, hconf⟩
  · exact h.owned.alloc hpolicy
  · intro b hb
    rcases mem_cons.mp hb with rfl | hb
    · exact hhi
    · exact h.sizes b hb
  · exact h.stocked.alloc (show 2 ≤ pageSize / chunkSizes 2 by decide) hpolicy

variable {b : ℕ × ℕ}

theorem blocks_erase {live : List (ℕ × ℕ)} (hb : b ∈ live) :
    blocks live = {(sizeIdx b.2, b.1)} + blocks (live.erase b) := by
  exact Multiset.coe_eq_coe.mpr ((perm_cons_erase hb).map _)

theorem free {n : ℕ} (h : Inv boot touched μ g) (hlive : (p, n) ∈ μ.live)
    (hcall : doSlabFree fuel p μ.state = .ok σ') :
    ∃ g', Inv boot touched ⟨σ', μ.live.erase (p, n)⟩ g' ∧ Moved μ.state σ' g g' := by
  have ho := h.owned
  rw [blocks_erase hlive] at ho
  have hheld : (kernel boot).Held p {(sizeIdx n, p)} := .inl ⟨_, rfl⟩
  obtain ⟨g', hpolicy, hrep, hconf⟩ := doSlabFree_refines hcall h.rep ho hheld
  obtain ⟨hfl, hpages⟩ := frame_of_pages_eq hpolicy.pages_eq h.frames h.pages
  refine ⟨g', ⟨hrep, ho.free hheld hpolicy, hfl, hpages,
    fun b hb => h.sizes b (mem_of_mem_erase hb), h.hosted.free ho hheld hpolicy,
    Layout.Stocked.free (.inr h.stocked) h.hosted ho hheld hpolicy, ?_, h.boot_le⟩,
    hpolicy.pages_eq, hconf⟩
  have hused := h.used
  cases touched with
  | true => exact Layout.Used.free hused hpolicy
  | false => simp [hused.2] at hlive

theorem store {a v : ℕ} (h : Inv boot touched μ g) (hw : μ.Writable a) :
    Inv boot touched ⟨{ μ.state with toMemory := μ.state.toMemory.store a v }, μ.live⟩ g := by
  refine ⟨fun i => forall₂_frame (h.rep i) fun s hs c hc => ?_, h.owned, h.frames, h.pages,
    h.sizes, h.hosted, h.stocked, h.used, h.boot_le⟩
  refine update_of_ne ?_ _ _
  rintro rfl
  have hchunk := h.owned.free_sub i s hs c hc
  rcases hw with ⟨b, hb, hlo, hhi⟩ | hout
  · -- the block and the free chunk are different chunks
    have hmem : (sizeIdx b.2, b.1) ∈ blocks μ.live := mem_blocks hb
    have hne : b.1 ≠ c := by
      intro heq
      exact h.owned.live_not_free hmem hs (heq ▸ hc)
    have hsize := le_chunkSizes (h.sizes b hb)
    have hsep : b.1 + chunkSizes (sizeIdx b.2) ≤ c ∨ c + (kernel boot).slot i ≤ b.1 :=
      h.owned.separate (h.owned.live_ok _ hmem) ⟨s, hs, hchunk⟩ hne
    omega
  · obtain ⟨m, hm, hrep⟩ := forall₂_exists_left (h.rep i) hs
    exact hout i m hm (hrep.slab.trans (page_of_chunk (h.owned.page_ok i s hs).1 hchunk).symm)

variable {x : ℕ}

theorem block_page (h : Inv boot touched μ g) (hb : b ∈ μ.live) (hlo : b.1 ≤ x)
    (hhi : x < b.1 + b.2) : pageRoundDn x ∈ SlabSpace.pages g := by
  obtain ⟨s, hs, hmem⟩ := h.owned.live_ok _ (mem_blocks hb)
  have hsize := le_chunkSizes (h.sizes b hb)
  have hpage : pageRoundDn x = s.page := page_of_mem_chunks (h.owned.page_ok _ s hs).1 hmem hlo
    (show x < b.1 + chunkSizes (sizeIdx b.2) by omega)
  rw [hpage]
  exact mem_total.mpr ⟨_, s, hs, by simp⟩

theorem block_base (h : Inv boot touched μ g) (hb : b ∈ μ.live) : pfaVirtOffset ≤ b.1 := by
  obtain ⟨s, hs, hmem⟩ := h.owned.live_ok _ (mem_blocks hb)
  exact (h.pages _ s hs).2.1.trans (le_of_mem_chunks hmem)

variable {i : Fin 10} {m : SlabMeta}

section

variable (h : Inv boot touched μ g)
include h

theorem meta_page (hm : m ∈ μ.state.slabs i) (hne : m.self ≠ boot) (hlo : m.self ≤ x)
    (hhi : x < m.self + sizeofMeta) : pageRoundDn x ∈ SlabSpace.pages g := by
  obtain ⟨a, ha, hma⟩ := forall₂_exists_right (h.rep i) hm
  rw [hma.self] at hne hlo hhi
  obtain ⟨s, hs, hmem⟩ := h.owned.record_ok i a ha hne
  have hpage : pageRoundDn x = s.page := page_of_mem_chunks (h.owned.page_ok _ s hs).1 hmem hlo
    (hhi.trans (Nat.add_lt_add_left (show sizeofMeta < chunkSizes 2 by decide) _))
  rw [hpage]
  exact mem_total.mpr ⟨_, s, hs, by simp⟩

theorem meta_base (hm : m ∈ μ.state.slabs i) (hne : m.self ≠ boot) :
    pfaVirtOffset ≤ m.self := by
  obtain ⟨a, ha, hma⟩ := forall₂_exists_right (h.rep i) hm
  rw [hma.self] at hne ⊢
  obtain ⟨s, hs, hmem⟩ := h.owned.record_ok i a ha hne
  exact (h.pages _ s hs).2.1.trans (le_of_mem_chunks hmem)

/-- **Frame rule.**  Other code may write outside the slabs and take free frames
or bring some. -/
theorem memory (s' : Memory)
    (hmem : ∀ a, pageRoundDn a ∈ SlabSpace.pages g → s'.mem a = μ.state.mem a)
    (hnd : ((s'.pageFreelist : Multiset ℕ) + SlabSpace.pages g).Nodup)
    (hframes : ∀ f ∈ s'.pageFreelist, IsFrame f) :
    Inv boot touched ⟨⟨s', μ.state.slabs⟩, μ.live⟩ g := by
  refine ⟨fun i => forall₂_frame (h.rep i) fun a ha c hc => hmem c ?_,
    ⟨hnd, fun f hf => owned_frame h.boot_le (hframes f hf), h.owned.page_ok, h.owned.free_sub,
      h.owned.parts, h.owned.live_ok, h.owned.record_ok⟩,
    hframes, h.pages, h.sizes, h.hosted, h.stocked, h.used, h.boot_le⟩
  have hpage : pageRoundDn c = a.page :=
    page_of_chunk (h.owned.page_ok i a ha).1 (h.owned.free_sub i a ha c hc)
  rw [hpage]
  exact mem_total.mpr ⟨i, a, ha, by simp⟩

theorem frames_event {fl : List ℕ} (hfl : μ.FreeFrames fl) :
    Inv boot touched ⟨{ μ.state with pageFreelist := fl }, μ.live⟩ g := by
  obtain ⟨hnd, hframe, hfresh⟩ := hfl
  refine h.memory { μ.state.toMemory with pageFreelist := fl } (fun _ _ => rfl) ?_ hframe
  rw [Multiset.nodup_add]
  refine ⟨Multiset.coe_nodup.mpr hnd, h.owned.pages_nodup, Multiset.disjoint_left.mpr ?_⟩
  intro f hf hpage
  obtain ⟨i, s, hs, hfs⟩ := mem_total.mp hpage
  obtain rfl := Multiset.mem_singleton.mp hfs
  obtain ⟨m, hm, hrep⟩ := forall₂_exists_left (h.rep i) hs
  exact hfresh i m hm (hrep.slab ▸ hf)

theorem perm {live : List (ℕ × ℕ)} (hperm : μ.live.Perm live) :
    Inv boot touched ⟨μ.state, live⟩ g := by
  have hblocks : blocks live = blocks μ.live :=
    Multiset.coe_eq_coe.mpr (hperm.symm.map _)
  refine ⟨h.rep, hblocks ▸ h.owned, h.frames, h.pages, fun b hb => h.sizes b (hperm.mem_iff.mpr hb),
    h.hosted, h.stocked, ?_, h.boot_le⟩
  have hused := h.used
  cases touched with
  | true => exact hused
  | false => exact ⟨hused.1, nil_perm.mp (hused.2 ▸ hperm)⟩

theorem step {e : Event} (hstep : Step μ e μ') :
    ∃ g', Inv boot (touched || e.isAlloc) μ' g' := by
  cases hstep with
  | alloc _ hhi hcall =>
    obtain ⟨g', h', -⟩ := h.alloc hhi hcall
    exact ⟨g', by simpa [Event.isAlloc] using h'⟩
  | free hlive hcall =>
    obtain ⟨g', h', -⟩ := h.free hlive hcall
    exact ⟨g', by simpa [Event.isAlloc] using h'⟩
  | store hw => exact ⟨g, by simpa [Event.isAlloc] using h.store hw⟩
  | frames hfl => exact ⟨g, by simpa [Event.isAlloc] using h.frames_event hfl⟩

end

end Inv

variable {s : Memory}

theorem slabInit_inv {σ : State} (hnd : s.pageFreelist.Nodup)
    (hframes : ∀ f ∈ s.pageFreelist, IsFrame f) (hboot : boot + sizeofMeta ≤ pfaVirtOffset)
    (hinit : slabInit boot s = .ok σ) :
    ∃ g, Inv boot false ⟨σ, []⟩ g ∧
      (s.pageFreelist : Multiset ℕ) = (σ.pageFreelist : Multiset ℕ) + pages g ∧
      ∀ x, pageRoundDn x ∉ s.pageFreelist → σ.mem x = s.mem x := by
  simp only [slabInit, bind_eq_ok, Prod.exists, pure, Except.pure, Except.ok.injEq] at hinit
  obtain ⟨m, s1, hprep, hstate⟩ := hinit
  have hslot : roundUpPow2 sizeofMeta = chunkSizes 2 := by decide
  have hidx : sizeIdx (roundUpPow2 sizeofMeta) = 2 := by decide
  rw [hslot] at hprep
  rw [hidx] at hstate
  obtain ⟨f, fl, hfl, hfl1, hrep, hmem⟩ := prepareSlab_ok boot hprep
  rw [hfl] at hnd hframes ⊢
  have hσ : σ.pageFreelist = fl := by rw [← hstate]; exact hfl1
  refine ⟨update (fun _ => []) 2 [⟨boot, f, ((kernel boot).chunks 2 f).reverse⟩],
    ⟨?_, ?_, ?_, ?_, by simp, Layout.Hosted.first,
      Layout.Stocked.first ?_, ⟨⟨_, rfl⟩, rfl⟩, hboot⟩, ?_, fun x hx => ?_⟩
  · intro i
    rw [← hstate]
    by_cases hi : i = 2
    · subst hi
      simpa using hrep
    · simp [hi]
  · simp only [hσ]
    exact Layout.Owned.first (reverse_perm _) hnd
      fun x hx => owned_frame hboot (hframes x hx)
  · simp only [hσ]
    exact fun x hx => hframes x (mem_cons_of_mem _ hx)
  · intro i s hs
    obtain ⟨-, rfl⟩ := mem_first (L := kernel boot) hs
    exact hframes f mem_cons_self
  · intro hnil
    have hlen := congrArg List.length hnil
    rw [length_reverse, length_chunks] at hlen
    exact absurd hlen ((kernel boot).slots_pos 2).ne'
  · rw [hσ, pages, total_single, ← Multiset.cons_coe, ← Multiset.singleton_add]
    exact add_comm _ _
  · rw [← hstate]
    refine hmem x fun hc => hx ?_
    have hdvd : (kernel boot).page ∣ f := Nat.dvd_of_mod_eq_zero (hframes f mem_cons_self).1
    have hpage : pageRoundDn x = f := page_of_chunk hdvd hc
    rw [hpage]
    exact mem_cons_self

theorem inv_of_initial (h : Initial boot μ) : ∃ g, Inv boot false μ g := by
  obtain ⟨⟨s, hnd, hframes, hinit⟩, hlive, hboot⟩ := h
  obtain ⟨g, hg, -⟩ := slabInit_inv hnd hframes hboot hinit
  obtain ⟨σ, live⟩ := μ
  obtain rfl : live = [] := hlive
  exact ⟨g, hg⟩

theorem inv_of_run {μ0 : Machine} {es : List Event} (h : Initial boot μ0)
    (hrun : Run Step μ0 es μ) : ∃ g, Inv boot (es.any Event.isAlloc) μ g := by
  induction hrun with
  | nil => exact inv_of_initial h
  | snoc _ hstep ih =>
    obtain ⟨g, hg⟩ := ih
    simpa using hg.step hstep

/-! ### The representation invariant -/

/-- The free chunks of a slab, as many links from its freelist on as
`free_slots` says. -/
def freeChunks (mem : ℕ → ℕ) (m : SlabMeta) : List ℕ := follow mem m.freeSlots m.freelist

/-- **The representation invariant of the slab allocator** in a state with the
given live blocks. -/
structure Partitioned (boot : ℕ) (μ : Machine) : Prop where
  /-- the slabs on all lists have pairwise distinct pages -/
  pages : (total (fun _ m => ({m.slab} : Multiset ℕ)) μ.state.slabs).Nodup
  /-- every freelist is a chain of chunks of its own slab without repetitions,
  as long as `free_slots` -/
  freelist : ∀ i, ∀ m ∈ μ.state.slabs i,
    Chain μ.state.mem 0 m.freelist (freeChunks μ.state.mem m) ∧
    (freeChunks μ.state.mem m).Nodup ∧ (freeChunks μ.state.mem m).length = m.freeSlots ∧
    ∀ c ∈ freeChunks μ.state.mem m, ∃ k < pageSize / chunkSizes i, c = m.slab + k * chunkSizes i
  /-- free chunks, live blocks and `slab_meta`s make up all chunks -/
  parts : total (fun i m => (chunkAddrs m.slab (chunkSizes i) : Multiset ℕ)) μ.state.slabs =
    total (fun _ m => (freeChunks μ.state.mem m : Multiset ℕ)) μ.state.slabs +
      (μ.live.map Prod.fst : List ℕ) +
      total (fun _ m => if m.self = boot then 0 else ({m.self} : Multiset ℕ)) μ.state.slabs
  /-- and none of them is counted twice -/
  nodup : (total (fun i m => (chunkAddrs m.slab (chunkSizes i) : Multiset ℕ)) μ.state.slabs).Nodup
  /-- no two live blocks overlap -/
  live : μ.live.Pairwise fun b b' => b.1 + b.2 ≤ b'.1 ∨ b'.1 + b'.2 ≤ b.1
  /-- no live block overlaps a `slab_meta` -/
  metas : ∀ b ∈ μ.live, ∀ i, ∀ m ∈ μ.state.slabs i,
    b.1 + b.2 ≤ m.self ∨ m.self + sizeofMeta ≤ b.1

variable {a : SlabSpace.Slab}

theorem RepMeta.freeChunks_eq {mem : ℕ → ℕ} {m : SlabMeta} (h : RepMeta mem m a) :
    freeChunks mem m = a.free := by
  rw [freeChunks, h.freeSlots]
  exact h.chain.follow_eq

theorem Represents.total_eq {M : Type*} [AddCommMonoid M] {σ : State} (h : Represents σ g)
    {F : Fin 10 → SlabMeta → M} {G : Fin 10 → SlabSpace.Slab → M}
    (hFG : ∀ i m a, RepMeta σ.mem m a → F i m = G i a) : total F σ.slabs = total G g :=
  total_congr₂ fun i => (h i).imp fun m a => hFG i m a

theorem Inv.block_end (h : Inv boot touched μ g) (hb : b ∈ μ.live) :
    b.1 + b.2 ≤ b.1 + (kernel boot).slot (sizeIdx b.2) :=
  Nat.add_le_add_left (le_chunkSizes (h.sizes b hb)) _

theorem Inv.partitioned (h : Inv boot touched μ g) : Partitioned boot μ := by
  have hchunks : total (fun i m => (chunkAddrs m.slab (chunkSizes i) : Multiset ℕ)) μ.state.slabs =
      (kernel boot).allChunks g :=
    h.rep.total_eq fun i m a hma => by rw [hma.slab]; rfl
  have hlive : ((μ.live.map Prod.fst)) = (blocks μ.live).map Prod.snd := by
    rw [blocks, Multiset.map_coe, map_map]
    rfl
  refine ⟨?_, fun i m hm => ?_, ?_, hchunks ▸ h.owned.nodup_allChunks, ?_, fun b hb i m hm => ?_⟩
  · rw [h.rep.total_eq fun i m a hma => by rw [hma.slab]]
    exact h.owned.pages_nodup
  · obtain ⟨a, ha, hma⟩ := forall₂_exists_right (h.rep i) hm
    rw [hma.freeChunks_eq]
    refine ⟨hma.chain, h.owned.nodup_free ha, hma.freeSlots.symm, fun c hc => ?_⟩
    rw [hma.slab]
    exact mem_chunks.mp (h.owned.free_sub i a ha c hc)
  · rw [hchunks, hlive, h.rep.total_eq
      fun i m a hma => by rw [hma.freeChunks_eq],
      h.rep.total_eq (G := fun _ a => (kernel boot).recordChunk a)
        fun i m a hma => by rw [hma.self]; rfl]
    exact h.owned.parts
  · have hnd : (μ.live.map Prod.fst).Nodup := Multiset.coe_nodup.mp (hlive ▸ h.owned.nodup_live)
    rw [List.Nodup, pairwise_map] at hnd
    refine hnd.imp_of_mem fun {b b'} hb hb' hne => ?_
    have hend := h.block_end hb
    have hend' := h.block_end hb'
    have hsep := h.owned.separate (h.owned.live_ok _ (mem_blocks hb))
      (h.owned.live_ok _ (mem_blocks hb')) hne
    simp only at hsep
    omega
  · obtain ⟨a, ha, hma⟩ := forall₂_exists_right (h.rep i) hm
    have hend := h.block_end hb
    obtain ⟨t, ht, hmem⟩ := h.owned.live_ok _ (mem_blocks hb)
    rw [hma.self]
    by_cases hboot : a.record = boot
    · -- `bootstrap_meta` lies below the page frames
      have hlow := (h.pages _ t ht).2.1
      have hle := le_of_mem_chunks hmem
      have hboot_le := h.boot_le
      omega
    · have hsep := h.owned.separate (h.owned.live_ok _ (mem_blocks hb))
        (h.owned.record_ok i a ha hboot) (h.owned.record_not_live ha hboot (mem_blocks hb))
      have hslot : (kernel boot).slot (kernel boot).host = 32 := rfl
      simp only [hslot, sizeofMeta] at hsep ⊢
      omega

/-- **The representation invariant holds in every state of a run.** -/
theorem slab_partition {μ0 : Machine} {es : List Event} (h : Initial boot μ0)
    (hrun : Run Step μ0 es μ) : Partitioned boot μ := by
  obtain ⟨g, hg⟩ := inv_of_run h hrun
  exact hg.partitioned

/-! ### Termination -/

theorem prepareSlab_returns (self slot : ℕ) (hfl : s.pageFreelist = f :: fl) (hf : f ≠ 0) :
    ∃ m s', prepareSlab self slot s = .ok (m, s') := by
  simp only [prepareSlab, Memory.pfAlloc, hfl, hf, if_false]
  exact ⟨_, _, rfl⟩

theorem newSlab_returns (self : ℕ) (i : Fin 10) (hfl : s.pageFreelist = f :: fl) (hf : f ≠ 0) :
    ∃ m s1 p m' s', prepareSlab self (chunkSizes i) s = .ok (m, s1) ∧
      chunkGet m (chunkSizes i) s1 = .ok (p, m', s') ∧ s'.pageFreelist = fl := by
  obtain ⟨m, s1, hprep⟩ := prepareSlab_returns self (chunkSizes i) hfl hf
  obtain ⟨f', fl', hfl', hfl1, hrep, -⟩ := prepareSlab_ok 0 hprep
  have hfree : ((kernel 0).chunks i f').reverse ≠ [] := by
    intro hnil
    have hlen := congrArg List.length hnil
    rw [length_reverse, length_chunks] at hlen
    exact absurd hlen ((kernel 0).slots_pos i).ne'
  obtain ⟨⟨p, m', s'⟩, hget⟩ := chunkGet_of_free (chunkSizes i) hrep hfree
  refine ⟨m, s1, p, m', s', hprep, hget, ?_⟩
  obtain ⟨-, -, rfl, -⟩ := chunkGet_eq_ok.mp hget
  rw [hfl, List.cons.injEq] at hfl'
  exact hfl1.trans hfl'.2.symm

variable {σ : State} {live : Multiset (Fin 10 × ℕ)} {n : ℕ}

theorem doSlabAlloc_of_found (fuel : ℕ) (h : Represents σ g)
    (ho : (kernel boot).Owned σ.pageFreelist g live) (hpool : σ.pageFreelist ≠ [])
    (ha : a ∈ g (sizeIdx n)) (hfree : a.free ≠ []) :
    ∃ p σ', doSlabAlloc (fuel + 1) n σ = .ok (p, σ') ∧
      σ.pageFreelist.length ≤ σ'.pageFreelist.length + 1 := by
  obtain ⟨m, hm, hma⟩ := forall₂_exists_left (h (sizeIdx n)) ha
  have hslots : m.freeSlots ≠ 0 := by
    rw [hma.freeSlots]
    exact fun hlen => hfree (eq_nil_of_length_eq_zero hlen)
  obtain ⟨pre, m, post, hscan⟩ := splitFirst_isSome hm
    (p := fun m => lastOfHost (chunkSizes (sizeIdx n)) σ.toMemory m || m.freeSlots != 0)
    (by simp [hslots])
  obtain ⟨hsplit, hfound, -⟩ := splitFirst_eq_some hscan
  obtain ⟨a', ha', hma'⟩ := forall₂_exists_right (h (sizeIdx n)) (x := m) (by simp [hsplit])
  have hfree' : a'.free ≠ [] := by
    intro hnil
    have hlast : ¬ lastOfHost (chunkSizes (sizeIdx n)) σ.toMemory m = true := by
      rw [lastOfHost_iff boot hma']
      simp [hnil]
    rw [Bool.or_eq_true, bne_iff_ne, hma'.freeSlots, hnil] at hfound
    exact hfound.elim hlast (absurd rfl)
  obtain ⟨⟨c, m1, s1⟩, hget⟩ := chunkGet_of_free (chunkSizes (sizeIdx n)) hma' hfree'
  have hs1 : s1.pageFreelist = σ.pageFreelist := by
    obtain ⟨-, -, rfl, -⟩ := chunkGet_eq_ok.mp hget
    rfl
  by_cases hlast : lastOfHost (chunkSizes (sizeIdx n)) σ.toMemory m = true
  · obtain ⟨f, fl, hfl⟩ := exists_cons_of_ne_nil hpool
    have hf : f ≠ 0 := by
      have := (ho.frame_ok f (by rw [hfl]; exact mem_cons_self)).2
      omega
    obtain ⟨eager, s2, p, eager', s3, hprep, hget', hs3⟩ :=
      newSlab_returns c (sizeIdx n) (hs1.trans hfl) hf
    refine ⟨p, ⟨s3, update σ.slabs (sizeIdx n) (pre ++ m1 :: post ++ [eager'])⟩, ?_, ?_⟩
    · simp only [doSlabAlloc, hscan, hlast, if_true, hget, hprep, hget', bind, Except.bind, pure,
        Except.pure]
    · simp only [hs3, hfl, length_cons, le_refl]
  · refine ⟨c, ⟨s1, update σ.slabs (sizeIdx n) (pre ++ m1 :: post)⟩, ?_, ?_⟩
    · simp only [doSlabAlloc, hscan, hlast, Bool.false_eq_true, if_false, hget, bind, Except.bind,
        pure, Except.pure]
    · simp only [hs1]
      exact Nat.le_succ _

theorem doSlabAlloc_returns (h : Represents σ g) (ho : (kernel boot).Owned σ.pageFreelist g live)
    (hst : (kernel boot).Stocked g) (hne : g (kernel boot).host ≠ [])
    (hpool : 2 ≤ σ.pageFreelist.length) : ∃ p σ', doSlabAlloc 2 n σ = .ok (p, σ') := by
  have hpool' : σ.pageFreelist ≠ [] := by
    intro hnil
    simp [hnil] at hpool
  by_cases hfound : ∃ a ∈ g (sizeIdx n), a.free ≠ []
  · obtain ⟨a, ha, hfree⟩ := hfound
    obtain ⟨p, σ', hcall, -⟩ := doSlabAlloc_of_found 1 h ho hpool' ha hfree
    exact ⟨p, σ', hcall⟩
  · -- the record of the new slab comes from the hosting class
    obtain ⟨a, ha, hfree⟩ := hst.resolve_left hne
    rw [← sizeIdx_sizeofMeta boot] at ha
    obtain ⟨self, σ1, hcall, hlen⟩ := doSlabAlloc_of_found 0 h ho hpool' ha hfree
    obtain ⟨g1, hpolicy, -⟩ := doSlabAlloc_refines hcall h ho
    have ho1 := ho.alloc hpolicy
    obtain ⟨f, fl, hfl⟩ : ∃ f fl, σ1.pageFreelist = f :: fl := by
      refine exists_cons_of_ne_nil fun hnil => ?_
      simp only [hnil, length_nil] at hlen
      omega
    have hf : f ≠ 0 := by
      have := (ho1.frame_ok f (by rw [hfl]; exact mem_cons_self)).2
      omega
    obtain ⟨new, s2, p, new', s3, hprep, hget, -⟩ :=
      newSlab_returns self (sizeIdx n) hfl hf
    have hscan : splitFirst (fun m => lastOfHost (chunkSizes (sizeIdx n)) σ.toMemory m ||
        m.freeSlots != 0) (σ.slabs (sizeIdx n)) = none := by
      rw [splitFirst_eq_none]
      intro m hm
      obtain ⟨a, ha, hma⟩ := forall₂_exists_right (h (sizeIdx n)) hm
      have hnil : a.free = [] := by
        by_contra hfree
        exact hfound ⟨a, ha, hfree⟩
      have hlast : ¬ lastOfHost (chunkSizes (sizeIdx n)) σ.toMemory m = true := by
        rw [lastOfHost_iff boot hma]
        simp [hnil]
      simp [hlast, hma.freeSlots, hnil]
    refine ⟨p, ⟨s3, update σ1.slabs (sizeIdx n) (σ1.slabs (sizeIdx n) ++ [new'])⟩, ?_⟩
    rw [doSlabAlloc]
    simp only [hscan, grabASlab, hcall, hprep, hget, bind, Except.bind, pure, Except.pure]

/-- **`slab_alloc` never returns** once all lists are empty: the `slab_meta` of
the first new slab has nowhere to go. -/
theorem doSlabAlloc_diverges (hnil : ∀ i, σ.slabs i = []) (fuel n : ℕ) :
    doSlabAlloc fuel n σ = .error .diverged := by
  induction fuel generalizing n with
  | zero => rfl
  | succ fuel ih =>
    rw [doSlabAlloc]
    simp only [hnil, splitFirst, grabASlab, ih, bind, Except.bind]

variable {fuel : ℕ}

theorem doSlabFree_returns (σ : State) (p : ℕ) (hfuel : total (fun _ _ => 1) σ.slabs < fuel) :
    ∃ σ', doSlabFree fuel p σ = .ok σ' := by
  induction fuel generalizing σ p with
  | zero => simp at hfuel
  | succ fuel ih =>
    rw [doSlabFree]
    cases hfind : findSlab (pageRoundDn p) σ.slabs with
    | none => exact ⟨σ, rfl⟩
    | some found =>
      obtain ⟨hsplit, -⟩ := findSlab_eq_some hfind
      simp only
      split
      · refine ih _ _ ?_
        have hremove := total_remove (f := fun (_) (_) => 1) hsplit
        simp only
        omega
      · exact ⟨_, rfl⟩

theorem doSlabFree_gives {σ σ' : State} {p : ℕ} (h : doSlabFree fuel p σ = .ok σ') :
    σ.pageFreelist <:+ σ'.pageFreelist ∧
      total (fun _ _ => 1) σ'.slabs ≤ total (fun _ _ => 1) σ.slabs := by
  induction fuel generalizing σ p with
  | zero => cases h
  | succ fuel ih =>
    rw [doSlabFree] at h
    cases hfind : findSlab (pageRoundDn p) σ.slabs with
    | none =>
      rw [hfind] at h
      obtain rfl := Except.ok.inj h
      exact ⟨suffix_refl _, le_rfl⟩
    | some found =>
      obtain ⟨i, pre, m, post⟩ := found
      obtain ⟨hsplit, -⟩ := findSlab_eq_some hfind
      rw [hfind] at h
      simp only at h
      split at h
      · obtain ⟨hfl, htotal⟩ := ih h
        have hremove := total_remove (f := fun (_) (_) => 1) hsplit
        refine ⟨(suffix_cons _ _).trans hfl, ?_⟩
        simp only at htotal
        omega
      · obtain rfl := Except.ok.inj h
        have hreplace := total_replace (f := fun (_) (_) => 1) hsplit
          (chunkPut m p σ.toMemory).1
        refine ⟨suffix_refl _, ?_⟩
        simp only
        omega

namespace Inv

theorem host_ne_nil_iff (h : Inv boot touched μ g) :
    g (kernel boot).host ≠ [] ↔ μ.live ≠ [] ∨ touched = false := by
  have hused := h.used
  constructor
  · intro hne
    cases touched with
    | false => exact .inr rfl
    | true =>
      refine .inl fun hnil => hne ?_
      have ho := h.owned
      rw [hnil] at ho
      exact Layout.Owned.eq_nil_of_live_eq_zero ho h.hosted hused _
  · intro hcond hnil
    have hall := h.owned.eq_nil_of_host_nil h.hosted hnil
    rcases hcond with hlive | rfl
    · have hblocks := h.owned.live_eq_zero_of_nil hall
      rw [blocks, Multiset.coe_eq_zero, map_eq_nil_iff] at hblocks
      exact hlive hblocks
    · obtain ⟨⟨s, rfl⟩, -⟩ := hused
      simp at hnil

theorem slabs_eq_nil (h : Inv boot touched μ g) (hnil : g (kernel boot).host = []) :
    ∀ i, μ.state.slabs i = [] := by
  intro i
  have hi := h.rep i
  rw [h.owned.eq_nil_of_host_nil h.hosted hnil i] at hi
  exact forall₂_nil_right_iff.mp hi

theorem alloc_returns_iff (h : Inv boot touched μ g) (n : ℕ)
    (hpool : 2 ≤ μ.state.pageFreelist.length) :
    (∃ fuel p σ', doSlabAlloc fuel n μ.state = .ok (p, σ')) ↔ g (kernel boot).host ≠ [] := by
  constructor
  · rintro ⟨fuel, p, σ', hcall⟩ hnil
    rw [doSlabAlloc_diverges (h.slabs_eq_nil hnil)] at hcall
    cases hcall
  · intro hne
    obtain ⟨p, σ', hcall⟩ := doSlabAlloc_returns h.rep h.owned h.stocked hne hpool
    exact ⟨2, p, σ', hcall⟩

theorem free_chunk_iff (h : Inv boot touched μ g) :
    (∃ m ∈ μ.state.slabs 2, m.freeSlots ≠ 0) ↔ g (kernel boot).host ≠ [] := by
  constructor
  · rintro ⟨m, hm, -⟩ hnil
    obtain ⟨a, ha, -⟩ := forall₂_exists_right (h.rep 2) hm
    rw [show g 2 = [] from hnil] at ha
    simp at ha
  · intro hne
    obtain ⟨a, ha, hfree⟩ := h.stocked.resolve_left hne
    obtain ⟨m, hm, hma⟩ := forall₂_exists_left (h.rep _) ha
    refine ⟨m, hm, ?_⟩
    rw [hma.freeSlots]
    exact fun hlen => hfree (eq_nil_of_length_eq_zero hlen)

end Inv

/-- **When the calls return.**  After any run, with page frames to hand out, `slab_alloc` returns,
and there is a free chunk for the next `slab_meta`, iff some block is live or nothing has been
allocated yet; `slab_free` of a live block always returns. -/
theorem slab_calls_terminate_iff {μ0 : Machine} {es : List Event} (h : Initial boot μ0)
    (hrun : Run Step μ0 es μ) :
    (∀ n, 1 ≤ n → n ≤ 4096 → 2 ≤ μ.state.pageFreelist.length →
      ((∃ fuel p σ', doSlabAlloc fuel n μ.state = .ok (p, σ')) ↔
        μ.live ≠ [] ∨ ∀ e ∈ es, e.isAlloc = false)) ∧
    ((∃ m ∈ μ.state.slabs 2, m.freeSlots ≠ 0) ↔ μ.live ≠ [] ∨ ∀ e ∈ es, e.isAlloc = false) ∧
    ∀ b ∈ μ.live, ∃ fuel σ', doSlabFree fuel b.1 μ.state = .ok σ' := by
  obtain ⟨g, hg⟩ := inv_of_run h hrun
  have hcond : g (kernel boot).host ≠ [] ↔ μ.live ≠ [] ∨ ∀ e ∈ es, e.isAlloc = false := by
    rw [hg.host_ne_nil_iff, any_eq_false]
    simp
  refine ⟨fun n _ _ hpool => (hg.alloc_returns_iff n hpool).trans hcond,
    hg.free_chunk_iff.trans hcond, fun b _ => ?_⟩
  exact ⟨_, doSlabFree_returns μ.state b.1 (Nat.lt_succ_self _)⟩

/-! ### A run that ends in divergence -/

/-- Three page frames in the window at `PFA_VIRT_OFFSET`. -/
def threeFrames : Memory := ⟨[0xD0010000, 0xD0011000, 0xD0012000], fun _ => 0⟩

set_option maxRecDepth 10000 in
theorem firstCalls_eq : ((slabInit 0xC0108000 threeFrames).toOption.bind fun σ =>
    (doSlabAlloc 1 32 σ).toOption.bind fun (p, σ) =>
      (doSlabFree 2 p σ).toOption.map fun σ' => (p, σ.pageFreelist, σ'.pageFreelist)) =
    some (0xD0010FE0, [0xD0011000, 0xD0012000], [0xD0010000, 0xD0011000, 0xD0012000]) := by
  decide +kernel

/-- The first allocation after `slab_init` takes the last chunk of the first
page, and its release gives the page back. -/
theorem firstCalls : ∃ σ0 σ1 σ2, Initial 0xC0108000 ⟨σ0, []⟩ ∧
    doSlabAlloc 1 32 σ0 = .ok (0xD0010FE0, σ1) ∧ σ1.pageFreelist = [0xD0011000, 0xD0012000] ∧
    doSlabFree 2 0xD0010FE0 σ1 = .ok σ2 ∧
    σ2.pageFreelist = [0xD0010000, 0xD0011000, 0xD0012000] := by
  obtain ⟨σ0, hinit, h⟩ := Option.bind_eq_some_iff.mp firstCalls_eq
  obtain ⟨⟨p, σ1⟩, halloc, h⟩ := Option.bind_eq_some_iff.mp h
  obtain ⟨σ2, hfree, heq⟩ := Option.map_eq_some_iff.mp h
  rw [Prod.mk.injEq, Prod.mk.injEq] at heq
  obtain ⟨rfl, hfl1, hfl2⟩ := heq
  refine ⟨σ0, σ1, σ2, ⟨⟨threeFrames, by decide, ?_, toOption_eq_some.mp hinit⟩, rfl, by decide⟩,
    toOption_eq_some.mp halloc, hfl1, toOption_eq_some.mp hfree, hfl2⟩
  simp [threeFrames, IsFrame, pageSize, pfaVirtOffset]

theorem firstAlloc_run {σ0 σ1 : State} (hcall : doSlabAlloc 1 32 σ0 = .ok (0xD0010FE0, σ1)) :
    Run Step ⟨σ0, []⟩ [.alloc 32] ⟨σ1, [(0xD0010FE0, 32)]⟩ :=
  .snoc .nil (.alloc (by decide) (by decide) hcall)

/-- The invariant after the first allocation. -/
theorem slab_partition_firstAlloc : ∃ μ0 μ, Initial 0xC0108000 μ0 ∧
    Run Step μ0 [.alloc 32] μ ∧ μ.live = [(0xD0010FE0, 32)] ∧ Partitioned 0xC0108000 μ := by
  obtain ⟨σ0, σ1, -, hinit, hcall, -⟩ := firstCalls
  exact ⟨_, _, hinit, firstAlloc_run hcall, rfl, slab_partition hinit (firstAlloc_run hcall)⟩

/-- With one block live the next allocation returns. -/
theorem slab_calls_terminate_firstAlloc : ∃ μ0 μ, Initial 0xC0108000 μ0 ∧
    Run Step μ0 [.alloc 32] μ ∧ ∃ fuel p σ', doSlabAlloc fuel 100 μ.state = .ok (p, σ') := by
  obtain ⟨σ0, σ1, -, hinit, hcall, hfl, -⟩ := firstCalls
  have hiff := (slab_calls_terminate_iff hinit (firstAlloc_run hcall)).1 100 (by decide) (by decide)
    (by simp [hfl])
  exact ⟨_, _, hinit, firstAlloc_run hcall, hiff.mpr (.inl (by simp))⟩

/-- **The allocator stops working** after one allocation and its release: no call of `slab_alloc`
returns, with all three frames free. -/
theorem slab_alloc_diverges : ∃ μ0 μ, Initial 0xC0108000 μ0 ∧
    Run Step μ0 [.alloc 32, .free 0xD0010FE0] μ ∧
    μ.state.pageFreelist = [0xD0010000, 0xD0011000, 0xD0012000] ∧
    ∀ fuel, doSlabAlloc fuel 32 μ.state = .error .diverged := by
  obtain ⟨σ0, σ1, σ2, hinit, hcall, -, hfree, hfl⟩ := firstCalls
  have hrun : Run Step ⟨σ0, []⟩ [.alloc 32, .free 0xD0010FE0] ⟨σ2, []⟩ :=
    .snoc (firstAlloc_run hcall) (.free (n := 32) (by simp) hfree)
  obtain ⟨g, hg⟩ := inv_of_run hinit hrun
  have hnil : g (kernel 0xC0108000).host = [] := by
    by_contra hne
    simpa [Event.isAlloc] using hg.host_ne_nil_iff.mp hne
  exact ⟨_, _, hinit, hrun, hfl, fun fuel => doSlabAlloc_diverges (hg.slabs_eq_nil hnil) fuel 32⟩

/-! ### How much a block takes -/

/-- The block at `p` is a chunk of a slab of class `i`. -/
def Machine.TakenFrom (μ : Machine) (p : ℕ) (i : Fin 10) : Prop :=
  ∃ m ∈ μ.state.slabs i, p ∈ chunkAddrs m.slab (chunkSizes i)

theorem Inv.takenFrom (h : Inv boot touched μ g) (hb : b ∈ μ.live) :
    μ.TakenFrom b.1 (sizeIdx b.2) := by
  obtain ⟨a, ha, hmem⟩ := h.owned.live_ok _ (mem_blocks hb)
  obtain ⟨m, hm, hma⟩ := forall₂_exists_left (h.rep _) ha
  exact ⟨m, hm, hma.slab ▸ hmem⟩

/-- **Size classes.**  `round_up_pow2` ends with the least power of two, and after every run
the slab of a live block is of the smallest class iff 5 bytes or more were asked for. -/
theorem size_classes_tight_iff {μ0 : Machine} {es : List Event} (h : Initial boot μ0)
    (hrun : Run Step μ0 es μ) :
    (∀ v, 1 ≤ v → v ≤ 2 ^ 31 → ∃ k, (∀ fuel, 31 ≤ fuel → roundUpPow2From fuel 1 v = 2 ^ k) ∧
      v ≤ 2 ^ k ∧ ∀ j, v ≤ 2 ^ j → 2 ^ k ≤ 2 ^ j) ∧
    ∀ b ∈ μ.live, ∃ i, μ.TakenFrom b.1 i ∧ (Tight b.2 i ↔ 5 ≤ b.2) := by
  obtain ⟨g, hg⟩ := inv_of_run h hrun
  refine ⟨fun v _ hv => ?_, fun b hb => ?_⟩
  · obtain ⟨k, heq, hle, hmin⟩ := roundUpPow2From_least hv
    refine ⟨k, heq, hle, fun j hj => Nat.pow_le_pow_right two_pos ?_⟩
    by_contra hlt
    exact (hmin j (not_le.mp hlt)).not_ge hj
  · exact ⟨_, hg.takenFrom hb, tight_sizeIdx_iff (hg.sizes b hb)⟩

/-- A block of 32 bytes. -/
theorem size_classes_tight_32 : ∃ μ0 μ, Initial 0xC0108000 μ0 ∧ Run Step μ0 [.alloc 32] μ ∧
    ∃ i, μ.TakenFrom 0xD0010FE0 i ∧ (Tight 32 i ↔ 5 ≤ 32) := by
  obtain ⟨σ0, σ1, -, hinit, hcall, -⟩ := firstCalls
  have hrun := firstAlloc_run hcall
  exact ⟨_, _, hinit, hrun, (size_classes_tight_iff hinit hrun).2 (0xD0010FE0, 32) (by simp)⟩

/-- **A block of 4 bytes** takes a whole page. -/
theorem four_bytes_take_a_page : ∃ μ0 μ p, Initial 0xC0108000 μ0 ∧
    Run Step μ0 [.alloc 32, .alloc 4] μ ∧ (p, 4) ∈ μ.live ∧ μ.TakenFrom p 9 ∧
    chunkSizes 9 = 4096 ∧ ¬ Tight 4 9 := by
  obtain ⟨σ0, σ1, -, hinit, hcall, hfl, -⟩ := firstCalls
  have hrun := firstAlloc_run hcall
  obtain ⟨g, hg⟩ := inv_of_run hinit hrun
  obtain ⟨fuel, p, σ, hcall⟩ := (hg.alloc_returns_iff 4 (by simp [hfl])).mpr
    (hg.host_ne_nil_iff.mpr (.inl (by simp)))
  have hrun := hrun.snoc (.alloc (by decide) (by decide) hcall)
  obtain ⟨g, hg⟩ := inv_of_run hinit hrun
  have hmem : (p, 4) ∈ (p, 4) :: [(0xD0010FE0, 32)] := by simp
  refine ⟨_, _, p, hinit, hrun, hmem, hg.takenFrom hmem, rfl, fun h => ?_⟩
  exact absurd (h.2.1 0 (by decide)) (by decide)

end Slab
