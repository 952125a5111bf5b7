/-
Blocks of `kmalloc` are zero-filled (`chunk_get` of `mm/slab.c`, `vm_map` of `mm/vma.c`,
`pf_zalloc` of `mm/pfa.c`).

`strdup`, `memfs_write` and `task_prepare` count on zeros in what `kmalloc` returns, though
it may have been in use before: as a chunk with the link of a freelist in it, as a page of
another area or of a task, or as a page table.

* `Slab.doSlabAlloc_zeroed` — a chunk is zeroed last, whichever slab it comes from;
* `Paging.vmMap_blank` — an area is backed with zeroed frames, and backing one page writes
  to the frame of no other;
* `Shared` — the allocators next to `mmap` and `task_unmap`, which take frames from the same
  pool and give them back;
* `kmalloc_zeroed_iff` — in every history, the block of a request is zero-filled iff
  rounding its size up to pages does not wrap around.
-/
import Minima.Exhaustion

open Memory SlabSpace

/-! ### Chunks -/

namespace Slab

theorem chunkGet_zeroed {m m' : SlabMeta} {s s' : Memory} {slot p i : ℕ}
    (h : chunkGet m slot s = .ok (p, m', s')) (hi : i < slot) : s'.mem (p + i) = 0 := by
  obtain ⟨-, -, rfl, -⟩ := chunkGet_eq_ok.mp h
  have hin : p ≤ p + i ∧ p + i < p + slot := by omega
  simp only [Memory.memset, hin, and_self, if_true]

/-- **A block of the slab allocator is zero-filled**: each of the three ways to a block
ends with `chunk_get`. -/
theorem doSlabAlloc_zeroed {fuel n p i : ℕ} {σ σ' : State}
    (h : doSlabAlloc fuel n σ = .ok (p, σ')) (hi : i < chunkSizes (sizeIdx n)) :
    σ'.mem (p + i) = 0 := by
  cases fuel with
  | zero => simp [doSlabAlloc] at h
  | succ fuel =>
    rw [doSlabAlloc] at h
    cases hscan : splitFirst
        (fun m => lastOfHost (chunkSizes (sizeIdx n)) σ.toMemory m || m.freeSlots != 0)
        (σ.slabs (sizeIdx n)) with
    | some found =>
      simp only [hscan] at h
      split at h
      · simp only [bind_eq_ok, Prod.exists, pure, Except.pure, Except.ok.injEq,
          Prod.mk.injEq] at h
        obtain ⟨_, _, _, -, _, _, -, q, _, _, hget, rfl, rfl⟩ := h
        exact chunkGet_zeroed hget hi
      · simp only [bind_eq_ok, Prod.exists, pure, Except.pure, Except.ok.injEq,
          Prod.mk.injEq] at h
        obtain ⟨q, _, _, hget, rfl, rfl⟩ := h
        exact chunkGet_zeroed hget hi
    | none =>
      simp only [hscan, bind_eq_ok, Prod.exists, pure, Except.pure, Except.ok.injEq,
        Prod.mk.injEq] at h
      obtain ⟨_, _, -, q, _, _, hget, rfl, rfl⟩ := h
      exact chunkGet_zeroed hget hi

end Slab

/-! ### Pages -/

namespace Paging

open List

variable {all extra : Multiset ℕ} {A : ℕ → Prop} {s s' : State} {va v t : ℕ}

/-- The page of an address is backed by a frame of zeros. -/
def Blank (s : State) (va : ℕ) : Prop :=
  ∃ f, s.walk va = some f ∧ ∀ a, pageRoundDn a = f → s.mem a = 0

theorem Blank.page (h : Blank s va) (hpage : v / pageSize = va / pageSize) : Blank s v := by
  obtain ⟨f, hwalk, hzero⟩ := h
  exact ⟨f, by rw [State.walk, pte_of_page hpage]; exact hwalk, hzero⟩

theorem Blank.mapTable (hb : Blank s v) (h : Inv all extra s A) (hlo : Vma.vmaStart ≤ v)
    (hhi : v < Vma.vmaEnd) (hpd : vaPdIdx va ∈ kernelPds)
    (hserved : Present (s.pageDirectory (vaPdIdx va)) ∨ s.pageFreelist ≠ []) :
    Blank (mapTable s va) v := by
  obtain ⟨f, hwalk, hzero⟩ := hb
  obtain ⟨-, hkept, -⟩ := mapTable_invOn h hpd hserved
  have hpte := hkept.pte v (hhi.trans (by decide)) (vaPdIdx_mem hlo hhi) trivial
  refine ⟨f, by rw [State.walk, hpte]; exact hwalk, fun a ha => ?_⟩
  by_cases hpresent : Present (s.pageDirectory (vaPdIdx va))
  · rw [Paging.mapTable, if_pos hpresent]
    exact hzero a ha
  · obtain ⟨g, fl, hfl⟩ := exists_cons_of_ne_nil (hserved.resolve_left hpresent)
    have hg : IsFrame g := h.free_frame (by rw [hfl]; exact mem_cons_self)
    obtain ⟨-, hmem, -⟩ := mapTable_new hpresent hfl hg
    rw [hmem]
    split
    · rfl
    · exact hzero a ha

/-- The page gets a frame of zeros, and the other pages keep theirs: what is written
besides is an entry of a page table, and page tables are no mapped frames. -/
theorem mapFrame_blank (h : Inv all extra s A) (hlo : Vma.vmaStart ≤ va) (hhi : va < Vma.vmaEnd)
    (ht : s.table (vaPdIdx va) = some t) (hnew : ¬ A va)
    (hserved : Present (s.mem (s.pteAt va)) ∨ s.pageFreelist ≠ []) :
    Blank (mapFrame s va) va ∧ ∀ v, Vma.vmaStart ≤ v → v < Vma.vmaEnd → Blank s v →
      Blank (mapFrame s va) v := by
  have hpd := vaPdIdx_mem hlo hhi
  have habsent : ¬ Present (s.mem (s.pteAt va)) := by
    rw [← pte_eq ht, ← leaf_isSome]
    exact fun hsome => hnew ((h.mapped va ⟨hlo, hhi⟩).mp hsome)
  obtain ⟨f, fl, hfl⟩ := exists_cons_of_ne_nil (hserved.resolve_left habsent)
  have hfree : f ∈ s.pageFreelist := by rw [hfl]; exact mem_cons_self
  have hf := h.free_frame hfree
  have htmem := InvOn.mem_tables (R := kernelRange) hpd ht
  have hround : pageRoundDn (s.pteAt va) = t := by
    rw [pteAt_eq ht]
    exact (pte_addr (h.table_frame htmem) va).2
  obtain ⟨hoff, htoff, -⟩ := h.disjoint
  obtain ⟨-, hpd1, hmem1⟩ := mapFrame_new habsent hfl hf
  obtain ⟨-, hkept, -⟩ := mapFrame_invOn h ⟨hlo, hhi⟩ ht hserved
  have ht1 : (mapFrame s va).table (vaPdIdx va) = some t := by
    rw [State.table, hpd1]
    exact ht
  constructor
  · refine ⟨f, ?_, fun a ha => ?_⟩
    · rw [State.walk, pte_eq ht1, pteAt_eq ht1, hmem1, pteAt_eq ht, if_pos rfl, leaf_entry hf]
    · have hne : a ≠ s.pteAt va := by
        rintro rfl
        exact (hoff f hfree).1 (by rw [← ha, hround]; exact htmem)
      rw [hmem1, if_neg hne, if_pos ha]
  · rintro v hvlo hvhi ⟨g, hwalk, hzero⟩
    have hgmem := InvOn.mem_frames (R := kernelRange) ⟨hvlo, hvhi⟩ hwalk
    have hpage : v / pageSize ≠ va / pageSize := by
      intro hpage
      rw [State.walk, pte_of_page hpage, pte_eq ht, leaf_of_not_present habsent] at hwalk
      cases hwalk
    have hpte := hkept.pte v (hvhi.trans (by decide)) (vaPdIdx_mem hvlo hvhi) hpage
    refine ⟨g, by rw [State.walk, hpte]; exact hwalk, fun a ha => ?_⟩
    have hne : a ≠ s.pteAt va := by
      rintro rfl
      exact (htoff t htmem).1 (by rw [← hround, ha]; exact hgmem)
    rw [hmem1, if_neg hne]
    split
    · rfl
    · exact hzero a ha

theorem mapLoop_blank {n : ℕ} (start : ℕ) (h : Inv all extra s A) (hfree : Unmapped A start n)
    (hcall : (List.range' start n pageSize).foldlM mapPageServed s = .ok s') :
    (∀ v, start ≤ v → v < start + pageSize * n → Blank s' v) ∧
      ∀ v, Vma.vmaStart ≤ v → v < Vma.vmaEnd → Blank s v → Blank s' v := by
  induction n generalizing s A start with
  | zero =>
    obtain rfl := Except.ok.inj hcall
    exact ⟨fun v hlo hhi => by omega, fun v _ _ hb => hb⟩
  | succ n ih =>
    rw [range'_succ, foldlM_cons, bind_eq_ok] at hcall
    obtain ⟨s1, hpage, hcall⟩ := hcall
    obtain ⟨⟨hserved, hserved'⟩, rfl⟩ := mapPageServed_eq_ok.mp hpage
    have hlo := hfree.lo
    have hend := hfree.start_lt
    have hpd : vaPdIdx start ∈ kernelPds := vaPdIdx_mem hlo hend
    obtain ⟨h1, -, t, ht⟩ := mapTable_invOn h hpd hserved
    obtain ⟨h2, -⟩ := mapFrame_invOn h1 ⟨hlo, hend⟩ ht hserved'
    obtain ⟨hfirst, hkeep⟩ := mapFrame_blank h1 hlo hend ht hfree.not_mapped hserved'
    obtain ⟨hrest, hkeep'⟩ := ih (start + pageSize) h2 hfree.rest hcall
    refine ⟨fun v hvlo hvhi => ?_, fun v hvlo hvhi hb => ?_⟩
    · have hvhi' : v < Vma.vmaEnd := hvhi.trans_le hfree.hi
      rcases (page_or_rest hfree.aligned).mp ⟨hvlo, hvhi⟩ with hpage | ⟨hvlo', hvhi''⟩
      · exact hkeep' v (hlo.trans hvlo) hvhi' (hfirst.page hpage)
      · exact hrest v hvlo' hvhi''
    · exact hkeep' v hvlo hvhi (hkeep v hvlo hvhi (hb.mapTable h hvlo hvhi hpd hserved))

theorem vmMap_blank {areas : Multiset (ℕ × ℕ)} {start size : ℕ}
    (h : Inv all extra s (Covers areas)) (hm : Vma.Mappable areas start size)
    (hcall : vmMapServed start size s = .ok s') (hlo : start ≤ v) (hhi : v < start + size) :
    Blank s' v := by
  rw [vmMapServed, pagesOf_eq hm.ok] at hcall
  refine (mapLoop_blank start h (unmapped_of_mappable hm) hcall).1 v hlo ?_
  rwa [size_eq hm]

end Paging

namespace Kernel

open Function List Multiset Option

/-! ### Blocks of `kmalloc` -/

/-- All `n` bytes at `p` can be read, and are zero. -/
def Rest.Zeroed (m : Rest) (p n : ℕ) : Prop :=
  ∀ i < n, ∃ a, m.window (p + i) = some a ∧ m.mem a = 0

variable {boot : ℕ} {all : Multiset ℕ} {μ : Machine} {s' : State} {fuel n p : ℕ}

theorem Inv.slab_zeroed (h : Inv boot all μ) (hn : n ≤ pageSize)
    (hcall : Kernel.kmalloc fuel n μ.state = .ok (p, s')) : s'.rest.Zeroed p n := by
  have hlive : (p, n) ∈ (μ.allocated s' p n).slabLive := by simp [Machine.allocated, hn]
  have hhi : n ≤ 0xFFFFF000 := hn.trans (by decide)
  have hbase : pfaVirtOffset ≤ p := (h.kmalloc hhi hcall).slab_base hlive
  rw [Kernel.kmalloc, if_pos hn] at hcall
  obtain ⟨⟨q, m⟩, hserved, heq⟩ := map_eq_ok.mp hcall
  obtain ⟨rfl, rfl⟩ := Prod.mk.inj heq
  obtain ⟨⟨q, σ⟩, hret, heq⟩ := map_eq_ok.mp hserved
  obtain ⟨rfl, rfl⟩ := Prod.mk.inj heq
  intro i hi
  have hslot : i < Slab.chunkSizes (Slab.sizeIdx n) := lt_of_lt_of_le hi (Slab.le_chunkSizes hn)
  exact ⟨q + i, if_pos (hbase.trans (Nat.le_add_right _ _)), Slab.doSlabAlloc_zeroed hret hslot⟩

theorem window_of_lt {m : Rest} {va : ℕ} (hhi : va < Vma.vmaEnd) :
    m.window va = (m.paging.walk va).map (· + va % pageSize) := by
  have hlow : ¬ pfaVirtOffset ≤ va := by
    rw [Vma.vmaEnd_eq] at hhi
    simp only [pfaVirtOffset]
    omega
  rw [Rest.window, if_neg hlow]

theorem Inv.vm_zeroed (h : Inv boot all μ) (hlo : 1 ≤ n) (hhi : n ≤ 0xFFFFF000)
    (hcall : Vma.vmalloc (env fuel) n μ.state = .ok (p, s')) : s'.rest.Zeroed p n := by
  obtain ⟨-, hge, -⟩ := pageRoundUp_spec (x := n) (by simp only [pageSize]; omega)
  obtain ⟨vma, s1, m, hfind, hmap, rfl, rfl⟩ := Vma.vmalloc_eq_ok hcall
  obtain ⟨hsize, -, -, hm, g, -, hpaging⟩ :=
    Vma.findSpace_spec (sound fuel boot all μ.slabLive) h.vm (by omega) hfind
  obtain ⟨q, hserved, rfl⟩ := map_eq_ok.mp hmap
  obtain ⟨hpaging', -⟩ := Paging.vmMap_kept hpaging hm hserved
  intro i hi
  have hend : vma.start + i < Vma.vmaEnd := by
    have := hm.ok.hi
    simp only at this
    omega
  have hstart : Vma.vmaStart ≤ vma.start + i := hm.ok.lo.trans (Nat.le_add_right _ _)
  obtain ⟨f, hwalk, hzero⟩ := Paging.vmMap_blank hpaging hm hserved
    (Nat.le_add_right vma.start i) (by omega)
  -- the byte lies in the frame of its page
  have hround : pageRoundDn (f + (vma.start + i) % pageSize) = f := by
    have hmod := (hpaging'.mapped_frame (Paging.InvOn.mem_frames ⟨hstart, hend⟩ hwalk)).1
    simp only [pageRoundDn, pageSize] at *
    omega
  refine ⟨f + (vma.start + i) % pageSize, ?_, hzero _ hround⟩
  rw [window_of_lt hend]
  exact congrArg (Option.map (· + (vma.start + i) % pageSize)) hwalk

theorem pageRoundUp_wrapped (hlo : 0xFFFFF000 < n) (hhi : n < 2 ^ 32) : pageRoundUp n = 0 := by
  simp only [pageRoundUp, pageRoundDn, pageSize]
  omega

theorem Inv.wrapped_unmapped (h : Inv boot all μ) (hlo : 0xFFFFF000 < n) (hhi : n < 2 ^ 32)
    (hcall : Vma.vmalloc (env fuel) n μ.state = .ok (p, s')) : s'.rest.window p = none := by
  obtain ⟨vma, s1, m, hfind, hmap, rfl, rfl⟩ := Vma.vmalloc_eq_ok hcall
  have hzero := (pages_mul n).trans (pageRoundUp_wrapped hlo hhi)
  obtain ⟨pre, fit, post, hfit, hresult⟩ := Vma.findSpace_eq_ok hzero hfind
  obtain ⟨hlist, -⟩ := Vma.findFit_spec hfit
  have hmem : fit ∈ μ.state.vmaFreelist := by simp [hlist]
  have hok := h.vm.space.ok fit (by simp [Vma.areas, hmem])
  have hpos := hok.pos
  have hend : fit.start < Vma.vmaEnd := by
    have := hok.hi
    omega
  rcases hresult with ⟨-, self, m1, halloc, rfl, rfl⟩ | ⟨hle, -, -⟩
  swap
  · exact absurd hpos (not_lt.mpr hle)
  -- there are no pages to map
  have hsame : m = m1 := by
    obtain ⟨q, hserved, rfl⟩ := map_eq_ok.mp hmap
    have hnone : Paging.pagesOf fit.start 0 = [] :=
      Paging.pagesOf_empty (hend.trans (by decide))
    rw [Paging.vmMapServed, hnone] at hserved
    obtain rfl := Except.ok.inj hserved
    rfl
  obtain ⟨g, -, hpaging⟩ := h.vm.rest.slabAlloc (by decide) halloc
  -- and the free area is apart from the mapped ones
  have hfree : ¬ Paging.Covers (Vma.extents μ.state.vmaList) fit.start := by
    rw [covers_extents]
    rintro ⟨a, ha, halo, hahi⟩
    have hapart := (pairwise_append.mp (pairwise_append.mp h.vm.space.apart).1).2.2
      fit hmem a ha
    rw [Apart] at hapart
    omega
  show m.window fit.start = none
  rw [hsame, window_of_lt hend, map_eq_none_iff, ← not_isSome_iff_eq_none,
    hpaging.mapped fit.start ⟨hok.lo, hend⟩]
  exact hfree

theorem Inv.zeroed_iff (h : Inv boot all μ) (hn : n < 2 ^ 32)
    (hcall : Kernel.kmalloc fuel n μ.state = .ok (p, s')) :
    s'.rest.Zeroed p n ↔ n ≤ 0xFFFFF000 := by
  by_cases hsmall : n ≤ pageSize
  · exact iff_of_true (h.slab_zeroed hsmall hcall) (hsmall.trans (by decide))
  have hlo : 1 ≤ n := by
    omega
  rw [Kernel.kmalloc, if_neg hsmall] at hcall
  constructor
  · intro hzero
    by_contra hbig
    obtain ⟨a, ha, -⟩ := hzero 0 hlo
    rw [Nat.add_zero, h.wrapped_unmapped (by omega) hn hcall] at ha
    cases ha
  · exact fun hhi => h.vm_zeroed hlo hhi hcall

/-! ### Histories -/

/-- The allocators, and the frames that `mmap` has given to tasks: page tables for their
areas, and pages. -/
structure Shared where
  kernel : Machine
  theirs : Multiset ℕ

namespace Shared

inductive Event
  /-- a call of the allocators, or a store to a block -/
  | kernel (e : Kernel.Event)
  /-- `pf_zalloc`, in `vm_map` of an area of a task -/
  | take
  /-- `pf_free` of a frame, in `vm_unmap` of an area of a task -/
  | give (f : ℕ)
  /-- a store to an entry of a task's page table, or to a page of a task -/
  | write (a v : ℕ)
  /-- a store to a slot of the page directory -/
  | entry (i w : ℕ)

/-- What a task's areas do to the free frames, the memory and the page directory. -/
def withPaging (S : Shared) (q : Paging.State) (theirs : Multiset ℕ) : Shared :=
  ⟨{ S.kernel with state.rest := S.kernel.state.rest.withPaging q }, theirs⟩

/-- One event.  `vm_map` and `vm_unmap` of an area of a task are sequences of events; its slots of
the page directory are others than those of `vmalloc`. -/
inductive Step (S : Shared) : Event → Shared → Prop
  | kernel {e : Kernel.Event} {μ : Machine} (hstep : Kernel.Step S.kernel e μ) :
      Step S (.kernel e) ⟨μ, S.theirs⟩
  | take (hfree : S.kernel.state.rest.pageFreelist ≠ []) :
      Step S .take (S.withPaging
        ⟨S.kernel.state.rest.pfZalloc.2, S.kernel.state.rest.pageDirectory⟩
        (S.kernel.state.rest.pfZalloc.1 ::ₘ S.theirs))
  | give {f : ℕ} (howned : f ∈ S.theirs) :
      Step S (.give f) (S.withPaging
        ⟨S.kernel.state.rest.pfFree f, S.kernel.state.rest.pageDirectory⟩ (S.theirs.erase f))
  | write {a v : ℕ} (howned : pageRoundDn a ∈ S.theirs) :
      Step S (.write a v) (S.withPaging
        ⟨S.kernel.state.rest.store a v, S.kernel.state.rest.pageDirectory⟩ S.theirs)
  | entry {i w : ℕ} (hslot : i ∉ Paging.kernelPds) :
      Step S (.entry i w) (S.withPaging ⟨S.kernel.state.rest.toMemory,
        update S.kernel.state.rest.pageDirectory i w⟩ S.theirs)

/-- Nothing has been mapped for a task. -/
def Initial (boot : ℕ) (b : Paging.State) (S : Shared) : Prop :=
  Kernel.Initial boot b S.kernel ∧ S.theirs = 0

/-- What the areas of tasks may do: they exchange frames with the free list, and touch
nothing but these frames and their slots of the directory. -/
structure Exchange (q q' : Paging.State) (theirs theirs' : Multiset ℕ) : Prop where
  frames : (q'.pageFreelist : Multiset ℕ) + theirs' = (q.pageFreelist : Multiset ℕ) + theirs
  directory : ∀ i ∈ Paging.kernelPds, q'.pageDirectory i = q.pageDirectory i
  mem : ∀ a, pageRoundDn a ∉ (q.pageFreelist : Multiset ℕ) + theirs → q'.mem a = q.mem a

/-- The frames of the kernel and those of the tasks are distinct and make up `all`. -/
structure Inv (boot : ℕ) (all : Multiset ℕ) (S : Shared) : Prop where
  nodup : all.Nodup
  frame : ∀ f ∈ all, IsFrame f
  kernel : ∃ own, own + S.theirs = all ∧ Kernel.Inv boot own S.kernel

variable {S S' S0 : Shared} {q' : Paging.State} {theirs' : Multiset ℕ} {m : Rest}
  {user : List (ℕ × ℕ)} {structs : Multiset ℕ} {areas : Multiset (ℕ × ℕ)}

theorem exchange_joint {own theirs : Multiset ℕ} (hall : all.Nodup)
    (hframe : ∀ f ∈ all, IsFrame f) (hsum : own + theirs = all)
    (h : J boot own user m structs areas) (hx : Exchange m.paging q' theirs theirs') :
    ∃ own', own' + theirs' = all ∧ J boot own' user (m.withPaging q') structs areas := by
  obtain ⟨g, ⟨touched, l, hl, hslab⟩, hpaging⟩ := h
  obtain ⟨hfl, htab, hfra⟩ := hpaging.disjoint
  have hapart : ∀ f ∈ own, f ∉ theirs := fun f hf => by
    rw [← hsum] at hall
    exact disjoint_left.mp (nodup_add.mp hall).2.2 hf
  have hown : ∀ f, f ∈ m.paging.tables ∨ f ∈ pages g → f ∈ own := by
    intro f hf
    rw [← hpaging.sum]
    rcases hf with hf | hf
    · exact mem_add.mpr (.inl (mem_add.mpr (.inl (mem_add.mpr
        (.inr hf)))))
    · exact mem_add.mpr (.inr hf)
  -- neither a page table nor a slab is touched
  have hmem : ∀ a, pageRoundDn a ∈ m.paging.tables ∨ pageRoundDn a ∈ pages g →
      q'.mem a = m.paging.mem a := by
    refine fun a ha => hx.mem a fun hout => ?_
    rcases mem_add.mp hout with hfree | htheirs
    · obtain ⟨hnot, -, hnot'⟩ := hfl _ hfree
      exact ha.elim hnot hnot'
    · exact hapart _ (hown _ ha) htheirs
  have hsum' : (q'.pageFreelist) + m.paging.tables + m.paging.frames + pages g +
      theirs' = all := by
    rw [← hsum, ← hpaging.sum]
    calc (q'.pageFreelist) + m.paging.tables + m.paging.frames + pages g + theirs'
      _ = (q'.pageFreelist + theirs') + m.paging.tables + m.paging.frames + pages g := by ac_rfl
      _ = (m.paging.pageFreelist + theirs) + m.paging.tables + m.paging.frames + pages g := by
        rw [hx.frames]
      _ = m.paging.pageFreelist + m.paging.tables + m.paging.frames + pages g + theirs := by
        ac_rfl
  have hle := le_add_right
    ((q'.pageFreelist : Multiset ℕ) + m.paging.tables + m.paging.frames + pages g) theirs'
  rw [hsum'] at hle
  have hpaging' : Paging.Inv _ (pages g) q' (Paging.Covers areas) :=
    (hpaging.reframe hx.directory (fun a ha => hmem a (.inl ha)) rfl
      (nodup_of_le hle hall) fun f hf => hframe f (mem_of_le hle hf)).1
  have hslab' := slab_of_kept le_rfl hslab hpaging' fun a ha => hmem a (.inr ha)
  exact ⟨_, hsum', g, ⟨touched, l, hl, hslab'⟩, hpaging'⟩

theorem Inv.exchange (h : Inv boot all S)
    (hx : Exchange S.kernel.state.rest.paging q' S.theirs theirs') :
    Inv boot all (S.withPaging q' theirs') := by
  obtain ⟨own, hsum, hkernel⟩ := h.kernel
  obtain ⟨own', hsum', hJ⟩ := exchange_joint h.nodup h.frame hsum hkernel.vm.rest hx
  have hspace := hkernel.vm.space
  exact ⟨h.nodup, h.frame, own', hsum',
    ⟨⟨⟨⟨hspace.cover, hspace.ok, hspace.sorted⟩, hspace.live⟩, hJ⟩, hkernel.sizes⟩⟩

theorem Inv.free_frame (h : Inv boot all S) :
    ∀ f ∈ S.kernel.state.rest.pageFreelist, IsFrame f := by
  obtain ⟨own, -, hkernel⟩ := h.kernel
  exact hkernel.vm.rest.free_frame

theorem Inv.their_frame (h : Inv boot all S) : ∀ f ∈ S.theirs, IsFrame f := by
  obtain ⟨own, hsum, -⟩ := h.kernel
  exact fun f hf => h.frame f (hsum ▸ mem_add.mpr (.inr hf))

theorem Inv.step {e : Event} (h : Inv boot all S) (hstep : Step S e S') : Inv boot all S' := by
  cases hstep with
  | kernel hstep =>
    obtain ⟨own, hsum, hkernel⟩ := h.kernel
    exact ⟨h.nodup, h.frame, own, hsum, hkernel.step hstep⟩
  | take hfree =>
    obtain ⟨f, fl, hfl⟩ := exists_cons_of_ne_nil hfree
    have hf : IsFrame f := h.free_frame f (by rw [hfl]; exact mem_cons_self)
    refine h.exchange ⟨?_, fun _ _ => rfl, fun a ha => ?_⟩
    · show (S.kernel.state.rest.pfZalloc.2.pageFreelist : Multiset ℕ) + _ =
        (S.kernel.state.rest.pageFreelist : Multiset ℕ) + _
      rw [Paging.pfZalloc_eq hfl hf, hfl, ← cons_coe, cons_add,
        add_cons]
      rfl
    · show S.kernel.state.rest.pfZalloc.2.mem a = _
      rw [Paging.pfZalloc_eq hfl hf, Paging.memset_page _ hf, if_neg]
      · rfl
      · rintro rfl
        refine ha (mem_add.mpr (.inl ?_))
        show pageRoundDn a ∈ S.kernel.state.rest.pageFreelist
        rw [hfl]
        exact mem_cons_self
  | @give f howned =>
    refine h.exchange ⟨?_, fun _ _ => rfl, fun a ha => ?_⟩
    · show ((f :: S.kernel.state.rest.pageFreelist : List ℕ) : Multiset ℕ) + _ =
        (S.kernel.state.rest.pageFreelist : Multiset ℕ) + _
      rw [← cons_coe, cons_add, ← add_cons,
        cons_erase howned]
    · show (S.kernel.state.rest.pfFree f).mem a = _
      rw [Paging.pfFree_mem, if_neg]
      · rfl
      · rintro rfl
        have hround : pageRoundDn a = a :=
          Nat.div_mul_cancel (Nat.dvd_of_mod_eq_zero (h.their_frame a howned).1)
        exact ha (mem_add.mpr (.inr (hround.symm ▸ howned)))
  | @write a v howned =>
    refine h.exchange ⟨rfl, fun _ _ => rfl, fun x hx => update_of_ne ?_ _ _⟩
    rintro rfl
    exact hx (mem_add.mpr (.inr howned))
  | @entry i w hslot =>
    refine h.exchange ⟨rfl, fun j hj => update_of_ne ?_ _ _, fun _ _ => rfl⟩
    rintro rfl
    exact hslot hj

theorem inv_of_initial {b : Paging.State} (hb : Booted boot b) (h : Initial boot b S) :
    Inv boot ((b.pageFreelist : Multiset ℕ) + b.tables) S :=
  ⟨hb.nodup, hb.frame, _, by rw [h.2, add_zero], Kernel.inv_of_initial hb h.1⟩

theorem inv_of_run {b : Paging.State} {es : List Event} (hb : Booted boot b)
    (hinit : Initial boot b S0) (hrun : Run Step S0 es S) :
    Inv boot ((b.pageFreelist : Multiset ℕ) + b.tables) S :=
  hrun.invariant (inv_of_initial hb hinit) fun _ _ _ h hstep => h.step hstep

end Shared

/-- **What `kmalloc` returns is zero-filled**, after every history of the allocators and of
the areas of tasks, iff the size does not wrap around when it is rounded up to pages. -/
theorem kmalloc_zeroed_iff {b : Paging.State} {S0 S : Shared} {es : List Shared.Event}
    (hb : Booted boot b) (hinit : Shared.Initial boot b S0) (hrun : Run Shared.Step S0 es S)
    (hn : n < 2 ^ 32) (hcall : kmalloc fuel n S.kernel.state = .ok (p, s')) :
    s'.rest.Zeroed p n ↔ n ≤ 0xFFFFF000 := by
  obtain ⟨own, -, hkernel⟩ := (Shared.inv_of_run hb hinit hrun).kernel
  exact hkernel.zeroed_iff hn hcall

theorem recycled_eq : (firstState.bind fun s0 =>
    (kmalloc 2 5000 s0).toOption.bind fun (p, s1) =>
      (s1.rest.window 0xC0100004).bind fun a =>
        (kfree 2 p { s1 with rest.mem := update s1.rest.mem a 7 }).toOption.bind
          fun s2 => (kmalloc 2 5000 s2).toOption.map fun (q, s3) =>
            (p, a, s2.rest.mem a, q, s3.rest.window 0xC0103004)) =
      some (0xC0100000, 0xD0013004, 7, 0xC0102000, some 0xD0013004) := by
  decide +kernel

/-- A block is written to and freed; the next one gets its frame, and finds it zeroed. -/
theorem kmalloc_zeroed_iff_recycled : ∃ S0 S s', Shared.Initial 0xC0020000 eightFrames S0 ∧
    Run Shared.Step S0 [.kernel (.kmalloc 5000), .kernel (.store 0xC0100004 7),
      .kernel (.kfree 0xC0100000)] S ∧
    S.kernel.state.rest.mem 0xD0013004 = 7 ∧
    kmalloc 2 5000 S.kernel.state = .ok (0xC0102000, s') ∧
    s'.rest.window 0xC0103004 = some 0xD0013004 ∧ s'.rest.Zeroed 0xC0102000 5000 := by
  obtain ⟨s0, hs0, h⟩ := bind_eq_some_iff.mp recycled_eq
  obtain ⟨⟨p, s1⟩, hfirst, h⟩ := bind_eq_some_iff.mp h
  obtain ⟨a, ha, h⟩ := bind_eq_some_iff.mp h
  obtain ⟨s2, hfree, h⟩ := bind_eq_some_iff.mp h
  obtain ⟨⟨q, s3⟩, hnext, heq⟩ := map_eq_some_iff.mp h
  simp only [Prod.mk.injEq] at heq
  obtain ⟨rfl, rfl, hdirty, rfl, hwindow⟩ := heq
  rw [toOption_eq_some] at hfirst hfree hnext
  have hinit : Shared.Initial 0xC0020000 eightFrames ⟨⟨s0, [], []⟩, 0⟩ :=
    ⟨initial_firstState hs0, rfl⟩
  have hrun1 : Run Shared.Step ⟨⟨s0, [], []⟩, 0⟩ [.kernel (.kmalloc 5000)]
      ⟨⟨s1, [], [(0xC0100000, 5000)]⟩, 0⟩ :=
    .snoc .nil (.kernel (.kmalloc (by decide) hfirst))
  have hlive : ((0xC0100000, 5000)) ∈
      (⟨s1, [], [(0xC0100000, 5000)]⟩ : Machine).live := by simp [Machine.live]
  have hrun2 := hrun1.snoc (.kernel (.store (v := 7) hlive (by decide) (by decide) ha))
  have hrun3 := hrun2.snoc (.kernel (.kfree hlive hfree))
  exact ⟨_, _, s3, hinit, hrun3, hdirty, hnext, hwindow,
    (kmalloc_zeroed_iff booted_eightFrames hinit hrun3 (by decide) hnext).mpr (by decide)⟩

theorem wrapped_eq : (firstState.bind fun s0 =>
    (kmalloc 2 0xFFFFF001 s0).toOption.map fun (p, s1) => (p, s1.rest.window p)) =
      some (0xC0100000, none) := by
  decide +kernel

/-- A request for all but a page of the address space gets an address at which nothing is
mapped. -/
theorem wrapped_block_not_zeroed : ∃ S0 s', Shared.Initial 0xC0020000 eightFrames S0 ∧
    kmalloc 2 0xFFFFF001 S0.kernel.state = .ok (0xC0100000, s') ∧
    ¬ s'.rest.Zeroed 0xC0100000 0xFFFFF001 := by
  obtain ⟨s0, hs0, h⟩ := bind_eq_some_iff.mp wrapped_eq
  obtain ⟨⟨p, s1⟩, hcall, heq⟩ := map_eq_some_iff.mp h
  obtain ⟨rfl, hwindow⟩ := Prod.mk.inj heq
  rw [toOption_eq_some] at hcall
  refine ⟨⟨⟨s0, [], []⟩, 0⟩, s1, ⟨initial_firstState hs0, rfl⟩, hcall, fun hzero => ?_⟩
  obtain ⟨a, ha, -⟩ := hzero 0 (by decide)
  rw [Nat.add_zero, hwindow] at ha
  cases ha

end Kernel
