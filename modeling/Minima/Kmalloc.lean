/-
`kmalloc` and `kfree` (`kmalloc.c`), on top of the slab allocator, `vmalloc` and
the page tables.

The three allocators use each other: `vmalloc` keeps its `struct vma`s in slab
blocks, a `slab_meta` lives in a slab block, and slabs, page tables and mapped
pages all take their frames from one pool.  Here they run on one state.  The
invariant of a run joins the invariants of the parts: what the slab allocator
and the page tables own are different frames, so neither can touch what the
other relies on.

* `kmalloc`, `kfree` — the functions of the source;
* `sound` — the slab allocator and the page tables are a sound environment for
  `vma.c`;
* `inv_of_run` — the joint invariant of every run;
* `kmalloc_separation` — live blocks share no physical byte with each other or
  with anything the allocators use, and `kfree` finds the right allocator;
* `frame_conservation` — the frames of the free list, of the page tables and of
  the mapped pages are distinct and conserved.
-/
import Minima.SlabRuns
import Minima.Paging

open Memory SlabSpace ListTable

namespace Kernel

open Slab (sizeofMeta slabInit)
open Vma (Area Sound areas extents selfs sizeofVma vmaEnd vmaEnd_eq vmaStart vmalloc vmfree)
open Paging (Covers kernelPds leaf_of_not_present not_present_zero vaPdIdx vmMap vmUnmap)
open Function List Multiset Option

/-! ### The functions of the source -/

/-- What the slab allocator and the page tables work on. -/
structure Rest extends Slab.State where
  pageDirectory : ℕ → ℕ

namespace Rest

variable (m : Rest)

def paging : Paging.State := ⟨m.toMemory, m.pageDirectory⟩

def withSlab (σ : Slab.State) : Rest := ⟨σ, m.pageDirectory⟩

def withPaging (s : Paging.State) : Rest := ⟨⟨s.toMemory, m.slabs⟩, s.pageDirectory⟩

end Rest

/-- The memory manager as `vma.c` calls it, with `fuel` nested calls of the slab
allocator. -/
def env (fuel : ℕ) : Vma.Env Rest where
  slabAlloc n m := (Slab.doSlabAlloc fuel n m.toState).map fun (p, σ) => (p, m.withSlab σ)
  slabFree p m := (Slab.doSlabFree fuel p m.toState).map m.withSlab
  vmMap start size m := (Paging.vmMapServed start size m.paging).map m.withPaging
  vmUnmap start size m := (vmUnmap start size m.paging).map m.withPaging

abbrev State := Vma.State Rest

/-- `slab_alloc` -/
def slabAlloc (fuel bytes : ℕ) (s : State) : Except Fault (ℕ × State) :=
  ((env fuel).slabAlloc bytes s.rest).map fun (p, m) => (p, { s with rest := m })

/-- `slab_free` -/
def slabFree (fuel ptr : ℕ) (s : State) : Except Fault State :=
  ((env fuel).slabFree ptr s.rest).map fun m => { s with rest := m }

/-- `kmalloc` -/
def kmalloc (fuel bytes : ℕ) (s : State) : Except Fault (ℕ × State) :=
  if bytes ≤ pageSize then slabAlloc fuel bytes s else vmalloc (env fuel) bytes s

/-- `kfree` -/
def kfree (fuel ptr : ℕ) (s : State) : Except Fault State :=
  if ptr = 0 then .ok s
  else if ptr ≥ pfaVirtOffset then slabFree fuel ptr s
  else vmfree (env fuel) ptr s

/-! ### The parts leave each other alone -/

theorem map_eq_ok {α β : Type} {x : Except Fault α} {f : α → β} {b : β} :
    x.map f = .ok b ↔ ∃ a, x = .ok a ∧ f a = b := by
  cases x with
  | error e => simp [Except.map]
  | ok a => simp [Except.map]

section Parts

variable {boot : ℕ} {all : Multiset ℕ} {touched : Bool} {m : Rest} {A B : ℕ → Prop}
  {g g' : Fin 10 → List SlabSpace.Slab} {live : List (ℕ × ℕ)}

/-- What a run from `q` to `m` has left alone: the words of the frames `theirs`, and the slots
of the directory outside the range of `vmalloc`. -/
structure Spared (theirs : Multiset ℕ) (q m : Rest) : Prop where
  mem : ∀ a, pageRoundDn a ∈ theirs → m.mem a = q.mem a
  pd : ∀ i ∉ kernelPds, m.pageDirectory i = q.pageDirectory i

theorem Spared.refl {theirs : Multiset ℕ} (m : Rest) : Spared theirs m m :=
  ⟨fun _ _ => rfl, fun _ _ => rfl⟩

theorem Spared.trans {theirs : Multiset ℕ} {q m m' : Rest} (h : Spared theirs q m)
    (h' : Spared theirs m m') : Spared theirs q m' :=
  ⟨fun a ha => (h'.mem a ha).trans (h.mem a ha), fun i hi => (h'.pd i hi).trans (h.pd i hi)⟩

theorem paging_of_moved {theirs : Multiset ℕ} {σ : Slab.State}
    (h : Paging.Inv all (pages g + theirs) m.paging A) (hm : Slab.Moved m.toState σ g g') :
    Paging.Inv all (pages g' + theirs) (m.withSlab σ).paging A ∧
      Spared theirs m (m.withSlab σ) := by
  have hnd := h.pool_nodup
  obtain ⟨hfl, htab, -⟩ := h.disjoint
  constructor
  · refine h.other rfl ?_ fun a ha => hm.confined a fun hmem => ?_
    · rw [← add_assoc, ← add_assoc]
      exact congrArg (· + theirs) hm.pages.symm
    · rcases mem_add.mp hmem with hmem | hmem
      · exact (hfl _ hmem).1 ha
      · exact (htab _ ha).2 (mem_add.mpr (.inl hmem))
  · refine ⟨fun a ha => hm.confined a fun hmem => ?_, fun _ _ => rfl⟩
    rw [← add_assoc, nodup_add] at hnd
    exact disjoint_left.mp hnd.2.2 hmem ha

variable {s' : Paging.State} {out : ℕ → Prop}

theorem slab_of_kept {extra : Multiset ℕ} (hle : pages g ≤ extra)
    (h : Slab.Inv boot touched ⟨m.toState, live⟩ g) (hp : Paging.Inv all extra s' B)
    (hmem : ∀ a, pageRoundDn a ∈ extra → s'.mem a = m.mem a) :
    Slab.Inv boot touched ⟨(m.withPaging s').toState, live⟩ g :=
  h.memory s'.toMemory (fun a ha => hmem a (Multiset.mem_of_le hle ha))
    (Multiset.nodup_of_le (Multiset.add_le_add_left hle) hp.pool_nodup) fun _ hf => hp.free_frame hf

/-- The joint invariant: `user` are the slab blocks handed out by `kmalloc`,
`structs` the `struct vma`s and `areas` what is mapped. -/
structure Joint (boot : ℕ) (all : Multiset ℕ) (user : List (ℕ × ℕ))
    (g : Fin 10 → List SlabSpace.Slab) (m : Rest) (structs : Multiset ℕ)
    (areas : Multiset (ℕ × ℕ)) : Prop where
  slab : ∃ touched, ∃ l : List ℕ, (l : Multiset ℕ) = structs ∧
    Slab.Inv boot touched ⟨m.toState, user ++ l.map fun p => (p, sizeofVma)⟩ g
  paging : Paging.Inv all (pages g) m.paging (Covers areas)

/-- The joint invariant as an invariant of the environment of `vma.c`. -/
def J (boot : ℕ) (all : Multiset ℕ) (user : List (ℕ × ℕ)) (m : Rest) (structs : Multiset ℕ)
    (areas : Multiset (ℕ × ℕ)) : Prop :=
  ∃ g, Joint boot all user g m structs areas

/-- The same next to others, which have the frames `theirs` and the rest of the page directory:
nothing of theirs has changed since `q`. -/
structure Beside (boot : ℕ) (all theirs : Multiset ℕ) (q : Rest) (user : List (ℕ × ℕ))
    (m : Rest) (structs : Multiset ℕ) (areas : Multiset (ℕ × ℕ)) : Prop where
  joint : ∃ g touched, ∃ l : List ℕ, (l : Multiset ℕ) = structs ∧
    Slab.Inv boot touched ⟨m.toState, user ++ l.map fun p => (p, sizeofVma)⟩ g ∧
      Paging.Inv all (pages g + theirs) m.paging (Covers areas)
  spared : Spared theirs q m

variable {user : List (ℕ × ℕ)} {structs theirs : Multiset ℕ} {areas : Multiset (ℕ × ℕ)}
  {q m' : Rest} {fuel n p : ℕ}

theorem J.beside (h : J boot all user m structs areas) :
    Beside boot all 0 m user m structs areas := by
  obtain ⟨g, ⟨touched, l, hl, hslab⟩, hpaging⟩ := h
  exact ⟨⟨g, touched, l, hl, hslab, by rwa [add_zero]⟩, .refl m⟩

theorem Beside.j (h : Beside boot all 0 q user m structs areas) :
    J boot all user m structs areas := by
  obtain ⟨⟨g, touched, l, hl, hslab, hpaging⟩, -⟩ := h
  rw [add_zero] at hpaging
  exact ⟨g, ⟨touched, l, hl, hslab⟩, hpaging⟩

theorem Beside.slabAlloc (h : Beside boot all theirs q user m structs areas) (hn : n ≤ 4096)
    (hcall : (env fuel).slabAlloc n m = .ok (p, m')) :
    Beside boot all theirs q ((p, n) :: user) m' structs areas := by
  obtain ⟨⟨g, touched, l, hl, hslab, hpaging⟩, hspared⟩ := h
  obtain ⟨⟨q, σ⟩, hret, heq⟩ := map_eq_ok.mp hcall
  obtain ⟨rfl, rfl⟩ := Prod.mk.inj heq
  obtain ⟨g', hslab', hmoved⟩ := hslab.alloc hn hret
  obtain ⟨hpaging', hspared'⟩ := paging_of_moved hpaging hmoved
  exact ⟨⟨g', true, l, hl, hslab', hpaging'⟩, hspared.trans hspared'⟩

theorem slabFree_beside (hslab : Slab.Inv boot touched ⟨m.toState, live⟩ g)
    (hpaging : Paging.Inv all (pages g + theirs) m.paging A) (hlive : (p, n) ∈ live)
    (hcall : (env fuel).slabFree p m = .ok m') :
    ∃ g', Slab.Inv boot touched ⟨m'.toState, live.erase (p, n)⟩ g' ∧
      Paging.Inv all (pages g' + theirs) m'.paging A ∧ Spared theirs m m' := by
  obtain ⟨σ, hret, rfl⟩ := map_eq_ok.mp hcall
  obtain ⟨g', hslab', hmoved⟩ := hslab.free hlive hret
  exact ⟨g', hslab', paging_of_moved hpaging hmoved⟩

theorem Beside.slabFree (h : Beside boot all theirs q user m structs areas)
    (hlive : (p, n) ∈ user) (hcall : (env fuel).slabFree p m = .ok m') :
    Beside boot all theirs q (user.erase (p, n)) m' structs areas := by
  obtain ⟨⟨g, touched, l, hl, hslab, hpaging⟩, hspared⟩ := h
  obtain ⟨g', hslab', hpaging', hspared'⟩ :=
    slabFree_beside hslab hpaging (mem_append_left _ hlive) hcall
  rw [erase_append_left _ hlive] at hslab'
  exact ⟨⟨g', touched, l, hl, hslab', hpaging'⟩, hspared.trans hspared'⟩

theorem spared_of_kept
    (hkept : Paging.KeptOn Paging.kernelRange (pages g + theirs) out m.paging s') :
    Spared theirs m (m.withPaging s') :=
  ⟨fun a ha => hkept.mem a (mem_add.mpr (.inr ha)), hkept.pd⟩

theorem sound_beside (fuel boot : ℕ) (all theirs : Multiset ℕ) (q : Rest) (user : List (ℕ × ℕ)) :
    Sound (env fuel) (Beside boot all theirs q user) where
  slabAlloc := by
    intro m p m' structs areas hcall h
    obtain ⟨⟨g, touched, l, hl, hslab, hpaging⟩, hspared⟩ := h.slabAlloc (by decide) hcall
    refine ⟨⟨g, touched, p :: l, ?_, hslab.perm perm_middle.symm, hpaging⟩, hspared⟩
    rw [← hl, Multiset.cons_coe]
  slabFree := by
    rintro m p m' structs areas hcall ⟨⟨g, touched, l, hl, hslab, hpaging⟩, hspared⟩
    have hp : p ∈ l := Multiset.mem_coe.mp (hl ▸ Multiset.mem_cons_self p structs)
    have hmem : (p, sizeofVma) ∈ user ++ l.map fun p => (p, sizeofVma) :=
      mem_append_right _ (mem_map.mpr ⟨p, hp, rfl⟩)
    obtain ⟨g', hslab', hpaging', hspared'⟩ := slabFree_beside hslab hpaging hmem hcall
    -- which of two equal blocks goes does not matter
    have hperm : (user ++ l.map fun p => (p, sizeofVma)).Perm
        ((p, sizeofVma) :: (user ++ (l.erase p).map fun p => (p, sizeofVma))) :=
      (((perm_cons_erase hp).map _).append_left user).trans perm_middle
    have herase := hperm.erase (p, sizeofVma)
    rw [List.erase_cons_head] at herase
    refine ⟨⟨g', touched, l.erase p, ?_, hslab'.perm herase, hpaging'⟩, hspared.trans hspared'⟩
    rw [← Multiset.coe_erase, hl, Multiset.erase_cons_head]
  vmMap := by
    rintro m m' structs areas start size hcall hmappable
      ⟨⟨g, touched, l, hl, hslab, hpaging⟩, hspared⟩
    obtain ⟨s', hret, rfl⟩ := map_eq_ok.mp hcall
    obtain ⟨hpaging', hkept⟩ := Paging.vmMap_kept hpaging hmappable hret
    have hslab' := slab_of_kept (le_add_right _ _) hslab hpaging' hkept.mem
    exact ⟨⟨g, touched, l, hl, hslab', hpaging'⟩, hspared.trans (spared_of_kept hkept)⟩
  vmUnmap := by
    rintro m m' structs areas start size hcall hmappable
      ⟨⟨g, touched, l, hl, hslab, hpaging⟩, hspared⟩
    obtain ⟨s', hret, rfl⟩ := map_eq_ok.mp hcall
    obtain ⟨s'', hret', hpaging', hkept⟩ := Paging.vmUnmap_kept hpaging hmappable
    obtain rfl : s' = s'' := Except.ok.inj (hret.symm.trans hret')
    have hslab' := slab_of_kept (le_add_right _ _) hslab hpaging' hkept.mem
    exact ⟨⟨g, touched, l, hl, hslab', hpaging'⟩, hspared.trans (spared_of_kept hkept)⟩

theorem sound (fuel boot : ℕ) (all : Multiset ℕ) (user : List (ℕ × ℕ)) :
    Sound (env fuel) (J boot all user) where
  slabAlloc := fun hcall h => ((sound_beside fuel boot all 0 _ user).slabAlloc hcall h.beside).j
  slabFree := fun hcall h => ((sound_beside fuel boot all 0 _ user).slabFree hcall h.beside).j
  vmMap := fun hcall hmappable h =>
    ((sound_beside fuel boot all 0 _ user).vmMap hcall hmappable h.beside).j
  vmUnmap := fun hcall hmappable h =>
    ((sound_beside fuel boot all 0 _ user).vmUnmap hcall hmappable h.beside).j

theorem J.slabAlloc (h : J boot all user m structs areas) (hn : n ≤ 4096)
    (hcall : (env fuel).slabAlloc n m = .ok (p, m')) :
    J boot all ((p, n) :: user) m' structs areas :=
  (h.beside.slabAlloc hn hcall).j

theorem Beside.stored {a : ℕ} (v : ℕ) (h : Beside boot all theirs q user m structs areas)
    (ha : (∃ b ∈ user, b.1 ≤ a ∧ a < b.1 + b.2) ∨ pageRoundDn a ∈ m.paging.frames) :
    Beside boot all theirs q user { m with mem := update m.mem a v } structs areas := by
  obtain ⟨⟨g, touched, l, hl, hslab, hpaging⟩, hspared⟩ := h
  have hnd := hpaging.pool_nodup
  obtain ⟨-, htab, hfra⟩ := hpaging.disjoint
  have hne : ∀ {x}, pageRoundDn x ≠ pageRoundDn a → update m.mem a v x = m.mem x := by
    intro x hx
    refine update_of_ne ?_ _ _
    rintro rfl
    exact hx rfl
  have hpage : pageRoundDn a ∈ pages g ∨ pageRoundDn a ∈ m.paging.frames := by
    rcases ha with ⟨b, hb, hlo, hhi⟩ | ha
    · exact .inl (hslab.block_page (mem_append_left _ hb) hlo hhi)
    · exact .inr ha
  refine ⟨⟨g, touched, l, hl, ?_, hpaging.other rfl rfl fun x hx => hne fun heq => ?_⟩,
    hspared.trans ⟨fun x hx => hne fun heq => ?_, fun _ _ => rfl⟩⟩
  · rcases ha with ⟨b, hb, hlo, hhi⟩ | ha
    · exact hslab.store (.inl ⟨b, mem_append_left _ hb, hlo, hhi⟩)
    · have hle : pages g ≤ pages g + theirs := le_add_right _ _
      refine hslab.memory (m.toMemory.store a v) (fun x hx => hne fun heq => ?_)
        (Multiset.nodup_of_le (Multiset.add_le_add_left hle) hnd) fun f hf => hpaging.free_frame hf
      exact hfra _ ha (heq ▸ Multiset.mem_of_le hle hx)
  · rw [heq] at hx
    rcases hpage with hpage | hpage
    · exact (htab _ hx).2 (mem_add.mpr (.inl hpage))
    · exact (htab _ hx).1 hpage
  · rw [heq] at hx
    rcases hpage with hpage | hpage
    · rw [nodup_add, nodup_add] at hnd
      exact disjoint_left.mp hnd.2.1.2.2 hpage hx
    · exact hfra _ hpage (mem_add.mpr (.inr hx))

end Parts

/-! ### Runs -/

/-- The address in the window of the page frames at which the kernel finds what
is stored at a virtual address. -/
def Rest.window (m : Rest) (va : ℕ) : Option ℕ :=
  if pfaVirtOffset ≤ va then some va else (m.paging.walk va).map (· + va % pageSize)

/-- The state, and the live blocks that came from the slab allocator and from
`vmalloc`, each with the size asked for. -/
structure Machine where
  state : State
  slabLive : List (ℕ × ℕ)
  vmLive : List (ℕ × ℕ)

namespace Machine

variable (μ : Machine)

def live : List (ℕ × ℕ) := μ.slabLive ++ μ.vmLive

/-- A block of `n` bytes has been handed out by `kmalloc`. -/
def allocated (s : State) (p n : ℕ) : Machine :=
  if n ≤ pageSize then ⟨s, (p, n) :: μ.slabLive, μ.vmLive⟩
  else ⟨s, μ.slabLive, (p, n) :: μ.vmLive⟩

/-- The word at the address `a` of the window has been written. -/
def stored (a v : ℕ) : Machine :=
  { μ with state.rest.mem := update μ.state.rest.mem a v }

end Machine

inductive Event
  /-- `kmalloc(n)` -/
  | kmalloc (n : ℕ)
  /-- `kfree(p)` -/
  | kfree (p : ℕ)
  /-- `vmalloc(n)` -/
  | vmalloc (n : ℕ)
  /-- `vmfree(p)` -/
  | vmfree (p : ℕ)
  /-- `do_defrag()` -/
  | defrag
  /-- the owner of a block stores `v` at the address `va` of the block -/
  | store (va v : ℕ)

/-- One event; a call is a step if it returns. -/
inductive Step (μ : Machine) : Event → Machine → Prop
  | kmalloc {fuel n p : ℕ} {s' : State} (hhi : n ≤ 0xFFFFF000)
      (hcall : kmalloc fuel n μ.state = .ok (p, s')) : Step μ (.kmalloc n) (μ.allocated s' p n)
  | kfree {fuel n p : ℕ} {s' : State} (hlive : (p, n) ∈ μ.live)
      (hcall : kfree fuel p μ.state = .ok s') :
      Step μ (.kfree p) ⟨s', μ.slabLive.erase (p, n), μ.vmLive.erase (p, n)⟩
  | vmalloc {fuel n p : ℕ} {s' : State} (hlo : 1 ≤ n) (hhi : n ≤ 0xFFFFF000)
      (hcall : vmalloc (env fuel) n μ.state = .ok (p, s')) :
      Step μ (.vmalloc n) ⟨s', μ.slabLive, (p, n) :: μ.vmLive⟩
  | vmfree {fuel n p : ℕ} {s' : State} (hlive : (p, n) ∈ μ.vmLive)
      (hcall : vmfree (env fuel) p μ.state = .ok s') :
      Step μ (.vmfree p) ⟨s', μ.slabLive, μ.vmLive.erase (p, n)⟩
  | defrag {fuel : ℕ} {s' : State} (hcall : Vma.doDefrag (env fuel) μ.state = .ok s') :
      Step μ .defrag { μ with state := s' }
  | store {b : ℕ × ℕ} {va a v : ℕ} (hlive : b ∈ μ.live) (hlo : b.1 ≤ va) (hhi : va < b.1 + b.2)
      (ha : μ.state.rest.window va = some a) : Step μ (.store va v) (μ.stored a v)

/-- Memory before `slab_init`: the free frames and the page tables are distinct, nothing in the
range of `vmalloc` is mapped, and `bootstrap_meta` is in the image of the kernel, which is not
made of these frames. -/
structure Booted (boot : ℕ) (s : Paging.State) : Prop where
  nodup : ((s.pageFreelist : Multiset ℕ) + s.tables).Nodup
  frame : ∀ f ∈ (s.pageFreelist : Multiset ℕ) + s.tables, IsFrame f
  absent : ∀ va, vmaStart ≤ va → va < vmaEnd → s.walk va = none
  boot_le : boot + sizeofMeta ≤ vmaStart
  image : ∀ k < sizeofMeta, pageRoundDn (boot + k - virtOffset + pfaVirtOffset) ∉
    (s.pageFreelist : Multiset ℕ) + s.tables

/-- The state after `slab_init` and `vma_init`. -/
def Initial (boot : ℕ) (s : Paging.State) (μ : Machine) : Prop :=
  ∃ fuel σ vm, slabInit boot s.toMemory = .ok σ ∧
    Vma.vmaInit (env fuel) ⟨σ, s.pageDirectory⟩ = .ok vm ∧ μ = ⟨vm, [], []⟩

/-- The invariant of a run. -/
structure Inv (boot : ℕ) (all : Multiset ℕ) (μ : Machine) : Prop where
  vm : Vma.Inv (J boot all μ.slabLive) μ.state μ.vmLive
  sizes : ∀ b ∈ μ.vmLive, b.2 ≤ 0xFFFFF000

/-- The same beside others, of whose frames nothing has changed since `q`. -/
structure InvBeside (boot : ℕ) (all theirs : Multiset ℕ) (q : Rest) (μ : Machine) : Prop where
  vm : Vma.Inv (Beside boot all theirs q μ.slabLive) μ.state μ.vmLive
  sizes : ∀ b ∈ μ.vmLive, b.2 ≤ 0xFFFFF000

theorem Inv.beside {boot : ℕ} {all : Multiset ℕ} {μ : Machine} (h : Inv boot all μ) :
    InvBeside boot all 0 μ.state.rest μ :=
  ⟨⟨h.vm.space, h.vm.rest.beside⟩, h.sizes⟩

theorem InvBeside.inv {boot : ℕ} {all : Multiset ℕ} {q : Rest} {μ : Machine}
    (h : InvBeside boot all 0 q μ) : Inv boot all μ :=
  ⟨⟨h.vm.space, h.vm.rest.j⟩, h.sizes⟩

variable {s : Paging.State}

theorem beside_of_initial {boot : ℕ} {μ : Machine} (hs : Booted boot s) (h : Initial boot s μ) :
    ∃ q : Rest, q.pageDirectory = s.pageDirectory ∧
      InvBeside boot ((s.pageFreelist : Multiset ℕ) + s.tables) 0 q μ := by
  obtain ⟨fuel, σ, vm, hslab, hvm, rfl⟩ := h
  have hframes : s.framesIn Paging.kernelRange = 0 := Holders.held_eq_zero fun n hn => by
    obtain ⟨hlo, hhi⟩ := Paging.Range.mem_pages_iff.mp hn
    exact hs.absent _ hlo hhi
  have hpaging : Paging.Inv ((s.pageFreelist) + s.tables) 0 s
      (Covers 0) := by
    refine ⟨hs.nodup, hs.frame, by rw [hframes, add_zero, add_zero], fun va hva => ?_⟩
    simp [hs.absent va hva.1 hva.2, Covers]
  have hboot : boot + sizeofMeta ≤ pfaVirtOffset := hs.boot_le.trans (by decide)
  obtain ⟨g, hg, hsum, hmem⟩ := Slab.slabInit_inv
    (coe_nodup.mp (nodup_add.mp hs.nodup).1)
    (fun f hf => hs.frame f (mem_add.mpr (.inl hf))) hboot hslab
  have hpaging' : Paging.Inv ((s.pageFreelist) + s.tables) (pages g)
      ⟨σ.toMemory, s.pageDirectory⟩ (Covers 0) := by
    refine hpaging.other rfl (by rw [add_zero]; exact hsum.symm) fun a ha => hmem a fun hfl => ?_
    exact (hpaging.disjoint.1 _ hfl).1 ha
  refine ⟨⟨σ, s.pageDirectory⟩, rfl, Vma.vmaInit_inv (sound_beside fuel boot _ 0 _ []) ?_ hvm,
    by simp⟩
  exact ⟨⟨g, false, [], rfl, hg, by rwa [add_zero]⟩, .refl _⟩

theorem inv_of_initial {boot : ℕ} {μ : Machine} (hs : Booted boot s) (h : Initial boot s μ) :
    Inv boot ((s.pageFreelist : Multiset ℕ) + s.tables) μ := by
  obtain ⟨q, -, hinv⟩ := beside_of_initial hs h
  exact hinv.inv

variable {boot : ℕ} {all theirs : Multiset ℕ} {q : Rest} {μ μ' : Machine} {b : ℕ × ℕ}

variable {fuel : ℕ}

theorem kfree_slab {p : ℕ} {s : State} (hp : pfaVirtOffset ≤ p) :
    kfree fuel p s = slabFree fuel p s := by
  have hne : p ≠ 0 := by
    simp only [pfaVirtOffset] at hp
    omega
  rw [kfree, if_neg hne, if_pos hp]

theorem kfree_vm {p : ℕ} {s : State} (hlo : vmaStart ≤ p) (hhi : p < vmaEnd) :
    kfree fuel p s = vmfree (env fuel) p s := by
  rw [Vma.vmaStart_eq] at hlo
  rw [vmaEnd_eq] at hhi
  rw [kfree, if_neg (by omega), if_neg (by simp only [pfaVirtOffset]; omega)]

namespace InvBeside

section

variable (h : InvBeside boot all theirs q μ)
include h

theorem slab_base (hb : b ∈ μ.slabLive) :
    pfaVirtOffset ≤ b.1 := by
  obtain ⟨⟨g, touched, l, -, hslab, -⟩, -⟩ := h.vm.rest
  exact hslab.block_base (mem_append_left _ hb)

theorem vm_area (hb : b ∈ μ.vmLive) :
    ∃ a ∈ μ.state.vmaList, a.start = b.1 ∧ b.2 ≤ a.size ∧ a.Ok := by
  obtain ⟨a, ha, hstart, hsize⟩ := Vma.exists_area h.vm.space hb
  refine ⟨a, ha, hstart, ?_, h.vm.space.ok a (by simp [areas, ha])⟩
  rw [hsize]
  exact (pageRoundUp_spec (by have := h.sizes b hb; simp only [pageSize]; omega)).2.1

theorem vm_bounds (hb : b ∈ μ.vmLive) :
    vmaStart ≤ b.1 ∧ b.1 < vmaEnd ∧ b.1 + b.2 ≤ vmaEnd := by
  obtain ⟨a, -, hstart, hsize, hok⟩ := h.vm_area hb
  have hlo := hok.lo
  have hhi := hok.hi
  have hpos := hok.pos
  omega

end

variable {fuel : ℕ} {s' : State}

section

variable (h : InvBeside boot all theirs q μ)
include h

theorem vmalloc {n p : ℕ} (hlo : 1 ≤ n) (hhi : n ≤ 0xFFFFF000)
    (hcall : vmalloc (env fuel) n μ.state = .ok (p, s')) :
    InvBeside boot all theirs q ⟨s', μ.slabLive, (p, n) :: μ.vmLive⟩ := by
  have hsound := sound_beside fuel boot all theirs q μ.slabLive
  refine ⟨Vma.vmalloc_inv hsound h.vm hlo hhi hcall, fun b hb => ?_⟩
  rcases mem_cons.mp hb with rfl | hb
  · exact hhi
  · exact h.sizes b hb

theorem of_rest {all' theirs' : Multiset ℕ} {q' m' : Rest} {live : List (ℕ × ℕ)}
    (hrest : Beside boot all' theirs' q' live m' (selfs (areas μ.state))
      (extents μ.state.vmaList)) :
    InvBeside boot all' theirs' q' ⟨{ μ.state with rest := m' }, live, μ.vmLive⟩ := by
  have hspace := h.vm.space
  exact ⟨⟨⟨⟨hspace.cover, hspace.ok, hspace.sorted⟩, hspace.live⟩, hrest⟩, h.sizes⟩

theorem slabAlloc {n p : ℕ} (hn : n ≤ pageSize) (hcall : slabAlloc fuel n μ.state = .ok (p, s')) :
    InvBeside boot all theirs q ⟨s', (p, n) :: μ.slabLive, μ.vmLive⟩ := by
  obtain ⟨⟨r, m'⟩, hret, heq⟩ := map_eq_ok.mp hcall
  obtain ⟨rfl, rfl⟩ := Prod.mk.inj heq
  exact h.of_rest (h.vm.rest.slabAlloc hn hret)

theorem kmalloc {n p : ℕ} (hhi : n ≤ 0xFFFFF000) (hcall : kmalloc fuel n μ.state = .ok (p, s')) :
    InvBeside boot all theirs q (μ.allocated s' p n) := by
  rw [Kernel.kmalloc] at hcall
  by_cases hsmall : n ≤ pageSize
  · rw [if_pos hsmall] at hcall
    rw [Machine.allocated, if_pos hsmall]
    exact h.slabAlloc hsmall hcall
  · rw [if_neg hsmall] at hcall
    have hlo : 1 ≤ n := by
      omega
    rw [Machine.allocated, if_neg hsmall]
    exact h.vmalloc hlo hhi hcall

theorem vmfree {n p : ℕ} (hlive : (p, n) ∈ μ.vmLive)
    (hcall : vmfree (env fuel) p μ.state = .ok s') :
    InvBeside boot all theirs q ⟨s', μ.slabLive, μ.vmLive.erase (p, n)⟩ :=
  ⟨Vma.vmfree_inv (sound_beside fuel boot all theirs q μ.slabLive) h.vm hlive hcall,
    fun b hb => h.sizes b (mem_of_mem_erase hb)⟩

theorem slabFree {n p : ℕ} (hlive : (p, n) ∈ μ.slabLive)
    (hcall : slabFree fuel p μ.state = .ok s') :
    InvBeside boot all theirs q ⟨s', μ.slabLive.erase (p, n), μ.vmLive⟩ := by
  obtain ⟨m', hret, rfl⟩ := map_eq_ok.mp hcall
  exact h.of_rest (h.vm.rest.slabFree hlive hret)

theorem not_mem_vmLive (hb : b ∈ μ.slabLive) :
    b ∉ μ.vmLive := by
  intro hvm
  have hbase := h.slab_base hb
  have hbounds := h.vm_bounds hvm
  rw [vmaEnd_eq] at hbounds
  simp only [pfaVirtOffset] at hbase
  omega

theorem kfree {n p : ℕ} (hlive : (p, n) ∈ μ.live) (hcall : kfree fuel p μ.state = .ok s') :
    InvBeside boot all theirs q ⟨s', μ.slabLive.erase (p, n), μ.vmLive.erase (p, n)⟩ := by
  rcases mem_append.mp hlive with hb | hb
  · rw [kfree_slab (h.slab_base hb)] at hcall
    rw [erase_of_not_mem (h.not_mem_vmLive hb)]
    exact h.slabFree hb hcall
  · obtain ⟨hlo, hhi, -⟩ := h.vm_bounds hb
    rw [kfree_vm hlo hhi] at hcall
    rw [erase_of_not_mem fun hslab => h.not_mem_vmLive hslab hb]
    exact h.vmfree hb hcall

end

variable {va : ℕ}

theorem vm_walk (h : InvBeside boot all theirs q μ) (hb : b ∈ μ.vmLive) (hlo : b.1 ≤ va)
    (hhi : va < b.1 + b.2) :
    ∃ f ∈ μ.state.rest.paging.frames, μ.state.rest.paging.walk va = some f := by
  obtain ⟨a, ha, hstart, hsize, hok⟩ := h.vm_area hb
  obtain ⟨hvlo, -, hvhi⟩ := h.vm_bounds hb
  obtain ⟨⟨g, -, -, -, -, hpaging⟩, -⟩ := h.vm.rest
  have hcover : Covers (extents μ.state.vmaList) va :=
    ⟨(a.start, a.size), mem_coe.mpr (mem_map.mpr ⟨a, ha, rfl⟩),
      by omega, by omega⟩
  obtain ⟨f, hf⟩ := isSome_iff_exists.mp
    ((hpaging.mapped va ⟨hvlo.trans hlo, hhi.trans_le hvhi⟩).mpr hcover)
  exact ⟨f, Paging.InvOn.mem_frames ⟨hvlo.trans hlo, hhi.trans_le hvhi⟩ hf, hf⟩

theorem store {a : ℕ} (v : ℕ) (h : InvBeside boot all theirs q μ) (hlive : b ∈ μ.live)
    (hlo : b.1 ≤ va) (hhi : va < b.1 + b.2) (ha : μ.state.rest.window va = some a) :
    InvBeside boot all theirs q (μ.stored a v) := by
  refine h.of_rest (h.vm.rest.stored v ?_)
  rcases mem_append.mp hlive with hb | hb
  · have hbase := (h.slab_base hb).trans hlo
    rw [Rest.window, if_pos hbase, some_inj] at ha
    exact .inl ⟨b, hb, ha ▸ hlo, ha ▸ hhi⟩
  · obtain ⟨f, hmem, hwalk⟩ := h.vm_walk hb hlo hhi
    obtain ⟨-, -, hend⟩ := h.vm_bounds hb
    have hlow : ¬ pfaVirtOffset ≤ va := by
      rw [vmaEnd_eq] at hend
      simp only [pfaVirtOffset]
      omega
    rw [Rest.window, if_neg hlow, hwalk, map_some, some_inj] at ha
    obtain ⟨⟨g, -, -, -, -, hpaging⟩, -⟩ := h.vm.rest
    have hmod := (hpaging.mapped_frame hmem).1
    have hpage : pageRoundDn a = f := by
      simp only [pageRoundDn, pageSize] at *
      omega
    exact .inr (hpage ▸ hmem)

theorem step {e : Event} (h : InvBeside boot all theirs q μ) (hstep : Step μ e μ') :
    InvBeside boot all theirs q μ' := by
  cases hstep with
  | kmalloc hhi hcall => exact h.kmalloc hhi hcall
  | kfree hlive hcall => exact h.kfree hlive hcall
  | vmalloc hlo hhi hcall => exact h.vmalloc hlo hhi hcall
  | vmfree hlive hcall => exact h.vmfree hlive hcall
  | @defrag fuel s' hcall =>
    have hret := Vma.doDefrag_inv (sound_beside fuel boot all theirs q μ.slabLive) h.vm
    rw [hcall] at hret
    exact ⟨hret, h.sizes⟩
  | store hlive hlo hhi ha => exact h.store _ hlive hlo hhi ha

end InvBeside

namespace Inv

theorem slab_base (h : Inv boot all μ) (hb : b ∈ μ.slabLive) : pfaVirtOffset ≤ b.1 :=
  h.beside.slab_base hb

theorem vm_bounds (h : Inv boot all μ) (hb : b ∈ μ.vmLive) :
    vmaStart ≤ b.1 ∧ b.1 < vmaEnd ∧ b.1 + b.2 ≤ vmaEnd :=
  h.beside.vm_bounds hb

theorem vm_walk (h : Inv boot all μ) (hb : b ∈ μ.vmLive) {va : ℕ} (hlo : b.1 ≤ va)
    (hhi : va < b.1 + b.2) :
    ∃ f ∈ μ.state.rest.paging.frames, μ.state.rest.paging.walk va = some f :=
  h.beside.vm_walk hb hlo hhi

theorem kmalloc {fuel n p : ℕ} {s' : State} (h : Inv boot all μ) (hhi : n ≤ 0xFFFFF000)
    (hcall : kmalloc fuel n μ.state = .ok (p, s')) : Inv boot all (μ.allocated s' p n) :=
  (h.beside.kmalloc hhi hcall).inv

theorem step {e : Event} (h : Inv boot all μ) (hstep : Step μ e μ') : Inv boot all μ' :=
  (h.beside.step hstep).inv

end Inv

theorem inv_of_run {μ0 : Machine} {es : List Event} (hs : Booted boot s) (hinit : Initial boot s μ0)
    (hrun : Run Step μ0 es μ) : Inv boot ((s.pageFreelist : Multiset ℕ) + s.tables) μ :=
  hrun.invariant (inv_of_initial hs hinit) fun _ _ _ h hstep => h.step hstep

/-! ### Live blocks share no physical byte -/

namespace Rest

variable (m : Rest)

/-- The physical address of a virtual address of the kernel: the image of the
kernel is mapped at `VIRT_OFFSET` and the page frames at `PFA_VIRT_OFFSET`; in
between, the page tables tell. -/
def phys (va : ℕ) : Option ℕ :=
  if va < vmaStart then some (va - virtOffset) else (m.window va).map (· - pfaVirtOffset)

/-- The `n` bytes at `p` and the `k` bytes at `q` have no physical byte in
common. -/
def Apart (p n q k : ℕ) : Prop :=
  ∀ i < n, ∀ j < k, ∀ x, m.phys (p + i) = some x → m.phys (q + j) ≠ some x

/-- The `n` bytes at `p` lie in frames with the property `P`. -/
def Within (p n : ℕ) (P : ℕ → Prop) : Prop :=
  ∀ i < n, ∃ x, m.phys (p + i) = some x ∧ P (pageRoundDn (x + pfaVirtOffset))

end Rest

variable {m : Rest} {p n q k : ℕ} {P Q : ℕ → Prop}

theorem Rest.Within.apart (hp : m.Within p n P) (hq : m.Within q k Q) (h : ∀ f, P f → ¬ Q f) :
    m.Apart p n q k := by
  intro i hi j hj x hx hx'
  obtain ⟨y, hy, hP⟩ := hp i hi
  obtain ⟨z, hz, hQ⟩ := hq j hj
  rw [hx, some_inj] at hy
  rw [hx', some_inj] at hz
  subst hy hz
  exact h _ hP hQ

variable {va : ℕ}

theorem phys_window (m : Rest) (h : pfaVirtOffset ≤ va) :
    m.phys va = some (va - pfaVirtOffset) := by
  have hlow : ¬ va < vmaStart := by
    rw [Vma.vmaStart_eq]
    simp only [pfaVirtOffset] at h
    omega
  rw [Rest.phys, if_neg hlow, Rest.window, if_pos h, map_some]

variable {f : ℕ}

theorem phys_mapped (hlo : vmaStart ≤ va) (hhi : va < vmaEnd)
    (hwalk : m.paging.walk va = some f) : m.phys va = some (f + va % pageSize - pfaVirtOffset) := by
  have hlow : ¬ pfaVirtOffset ≤ va := by
    rw [vmaEnd_eq] at hhi
    simp only [pfaVirtOffset]
    omega
  rw [Rest.phys, if_neg hlo.not_gt, Rest.window, if_neg hlow, hwalk]
  rfl

theorem within_window (hp : pfaVirtOffset ≤ p) (h : ∀ i < n, P (pageRoundDn (p + i))) :
    m.Within p n P := by
  intro i hi
  have hle : pfaVirtOffset ≤ p + i := hp.trans (Nat.le_add_right _ _)
  refine ⟨_, phys_window m hle, ?_⟩
  rw [Nat.sub_add_cancel hle]
  exact h i hi

theorem within_frame (hf : IsFrame f) : m.Within f pageSize (· = f) := by
  refine within_window hf.2.1 fun i hi => ?_
  have hmod := hf.1
  simp only [pageRoundDn, pageSize] at *
  omega

theorem apart_window (hp : pfaVirtOffset ≤ p) (hq : pfaVirtOffset ≤ q)
    (h : p + n ≤ q ∨ q + k ≤ p) : m.Apart p n q k := by
  intro i hi j hj x hx hx'
  rw [phys_window m (hp.trans (Nat.le_add_right _ _)), some_inj] at hx
  rw [phys_window m (hq.trans (Nat.le_add_right _ _)), some_inj] at hx'
  omega

variable {extra : Multiset ℕ} {A : ℕ → Prop}

theorem phys_inj (h : Paging.Inv all extra m.paging A) {va' f' : ℕ} (hlo : vmaStart ≤ va)
    (hhi : va < vmaEnd) (hlo' : vmaStart ≤ va') (hhi' : va' < vmaEnd)
    (hwalk : m.paging.walk va = some f) (hwalk' : m.paging.walk va' = some f')
    (heq : m.phys va = m.phys va') : va = va' := by
  obtain ⟨hmod, hbase, -⟩ := h.mapped_frame (Paging.InvOn.mem_frames ⟨hlo, hhi⟩ hwalk)
  obtain ⟨hmod', hbase', -⟩ := h.mapped_frame (Paging.InvOn.mem_frames ⟨hlo', hhi'⟩ hwalk')
  rw [phys_mapped hlo hhi hwalk, phys_mapped hlo' hhi' hwalk', some_inj] at heq
  have hff : f = f' := by
    simp only [pageSize] at *
    omega
  have hpage := h.page_unique ⟨hlo, hhi⟩ ⟨hlo', hhi'⟩ hwalk (hff ▸ hwalk')
  simp only [pageSize] at *
  omega

/-- **Separation.**  What holds of the live blocks in every state of a run. -/
structure Separated (μ : Machine) : Prop where
  /-- a block has the bytes that were asked for, and they are different bytes -/
  backed : ∀ b ∈ μ.live, ∀ i < b.2, (μ.state.rest.phys (b.1 + i)).isSome
  bytes : ∀ b ∈ μ.live, ∀ i < b.2, ∀ j < b.2,
    μ.state.rest.phys (b.1 + i) = μ.state.rest.phys (b.1 + j) → i = j
  /-- two blocks have no byte in common -/
  blocks : μ.live.Pairwise fun b b' => μ.state.rest.Apart b.1 b.2 b'.1 b'.2
  /-- nor has a block with a `slab_meta`, a `struct vma`, a page table or a free
  frame -/
  metas : ∀ b ∈ μ.live, ∀ i, ∀ m ∈ μ.state.rest.slabs i,
    μ.state.rest.Apart b.1 b.2 m.self sizeofMeta
  vmas : ∀ b ∈ μ.live, ∀ a ∈ areas μ.state, μ.state.rest.Apart b.1 b.2 a.self sizeofVma
  tables : ∀ b ∈ μ.live, ∀ t ∈ μ.state.rest.paging.tables, μ.state.rest.Apart b.1 b.2 t pageSize
  free : ∀ b ∈ μ.live, ∀ f ∈ μ.state.rest.pageFreelist, μ.state.rest.Apart b.1 b.2 f pageSize
  /-- `kfree` calls the allocator that produced the block -/
  kfree_slab : ∀ b ∈ μ.slabLive, ∀ fuel, kfree fuel b.1 μ.state = slabFree fuel b.1 μ.state
  kfree_vm : ∀ b ∈ μ.vmLive, ∀ fuel, kfree fuel b.1 μ.state = vmfree (env fuel) b.1 μ.state

namespace Inv

theorem within_vm (h : Inv boot all μ) (hb : b ∈ μ.vmLive) :
    μ.state.rest.Within b.1 b.2 (· ∈ μ.state.rest.paging.frames) := by
  intro i hi
  obtain ⟨hlo, -, hhi⟩ := h.vm_bounds hb
  obtain ⟨f, hf, hwalk⟩ := h.vm_walk hb (Nat.le_add_right _ i) (Nat.add_lt_add_left hi _)
  obtain ⟨g, -, hpaging⟩ := h.vm.rest
  refine ⟨_, phys_mapped (by omega) (by omega) hwalk, ?_⟩
  obtain ⟨hmod, hbase, -⟩ := hpaging.mapped_frame hf
  have hpage : pageRoundDn (f + (b.1 + i) % pageSize - pfaVirtOffset + pfaVirtOffset) = f := by
    simp only [pageRoundDn, pageSize] at *
    omega
  rwa [hpage]

theorem within_slab {touched : Bool} {g : Fin 10 → List SlabSpace.Slab} {live : List (ℕ × ℕ)}
    (h : Slab.Inv boot touched ⟨m.toState, live⟩ g) (hb : b ∈ live) :
    m.Within b.1 b.2 (· ∈ pages g) :=
  within_window (h.block_base hb) fun i hi =>
    h.block_page hb (Nat.le_add_right _ i) (Nat.add_lt_add_left hi _)

variable {i j : ℕ}

theorem vm_phys_inj (h : Inv boot all μ) {b' : ℕ × ℕ} (hb : b ∈ μ.vmLive) (hb' : b' ∈ μ.vmLive)
    (hi : i < b.2) (hj : j < b'.2)
    (heq : μ.state.rest.phys (b.1 + i) = μ.state.rest.phys (b'.1 + j)) : b.1 + i = b'.1 + j := by
  obtain ⟨hlo, -, hhi⟩ := h.vm_bounds hb
  obtain ⟨hlo', -, hhi'⟩ := h.vm_bounds hb'
  obtain ⟨f, -, hwalk⟩ := h.vm_walk hb (Nat.le_add_right _ i) (Nat.add_lt_add_left hi _)
  obtain ⟨f', -, hwalk'⟩ := h.vm_walk hb' (Nat.le_add_right _ j) (Nat.add_lt_add_left hj _)
  obtain ⟨g, -, hpaging⟩ := h.vm.rest
  exact phys_inj hpaging (by omega) (by omega) (by omega) (by omega) hwalk hwalk' heq

theorem bytes_inj (h : Inv boot all μ) (hb : b ∈ μ.live) (hi : i < b.2) (hj : j < b.2)
    (heq : μ.state.rest.phys (b.1 + i) = μ.state.rest.phys (b.1 + j)) : i = j := by
  rcases mem_append.mp hb with hb | hb
  · have hbase := h.slab_base hb
    rw [phys_window _ (by omega), phys_window _ (by omega), some_inj] at heq
    omega
  · have := h.vm_phys_inj hb hb hi hj heq
    omega

theorem apart_vm (h : Inv boot all μ) :
    μ.vmLive.Pairwise fun b b' => μ.state.rest.Apart b.1 b.2 b'.1 b'.2 := by
  have hareas := (pairwise_append.mp (pairwise_append.mp h.vm.space.apart).1).2.1
  have hextents : (μ.state.vmaList.map fun a => (a.start, a.size)).Pairwise
      fun x y => Apart x.1 x.2 y.1 y.2 := pairwise_map.mpr hareas
  have hlive := hextents.perm h.vm.space.live fun h => h.symm
  refine (pairwise_map.mp hlive).imp_of_mem fun {b b'} hb hb' hapart => ?_
  intro i hi j hj x hx hx'
  have heq := h.vm_phys_inj hb hb' hi hj (hx.trans hx'.symm)
  -- the areas are at least as long as the blocks
  have hsize : ∀ {c : ℕ × ℕ}, c ∈ μ.vmLive → c.2 ≤ pageRoundUp c.2 := fun hc =>
    (pageRoundUp_spec (by have := h.sizes _ hc; simp only [pageSize]; omega)).2.1
  have hb2 := hsize hb
  have hb2' := hsize hb'
  rw [Apart] at hapart
  omega

section Separation

variable {touched : Bool} {g : Fin 10 → List SlabSpace.Slab} {l : List ℕ} {A : ℕ → Prop}

section

variable (h : Inv boot all μ)
include h

section

variable (hslab : Slab.Inv boot touched
  ⟨μ.state.rest.toState, μ.slabLive ++ l.map fun p => (p, sizeofVma)⟩ g)
include hslab

theorem within_live (hb : b ∈ μ.live) : μ.state.rest.Within b.1 b.2
      fun f => f ∈ pages g ∨ f ∈ μ.state.rest.paging.frames := by
  intro i hi
  rcases mem_append.mp hb with hb | hb
  · obtain ⟨x, hx, hmem⟩ := within_slab hslab (mem_append_left _ hb) i hi
    exact ⟨x, hx, .inl hmem⟩
  · obtain ⟨x, hx, hmem⟩ := h.within_vm hb i hi
    exact ⟨x, hx, .inr hmem⟩

section

variable (hpaging : Paging.Inv all (pages g) μ.state.rest.paging A)
include hpaging

theorem apart_meta (hboot : boot + sizeofMeta ≤ vmaStart)
    (himage : ∀ k < sizeofMeta, pageRoundDn (boot + k - virtOffset + pfaVirtOffset) ∉ all)
    (hb : b ∈ μ.live) {i : Fin 10} {r : Slab.SlabMeta} (hr : r ∈ μ.state.rest.slabs i) :
    μ.state.rest.Apart b.1 b.2 r.self sizeofMeta := by
  by_cases hself : r.self = boot
  · refine (h.within_live hslab hb).apart (Q := (· ∉ all)) (fun j hj => ?_) fun f hf hnot => ?_
    · refine ⟨boot + j - virtOffset, ?_, himage j hj⟩
      rw [hself, Rest.phys, if_pos (by omega)]
    · rw [← hpaging.sum] at hnot
      simp only [mem_add] at hnot
      tauto
  · rcases mem_append.mp hb with hb | hb
    · exact apart_window (h.slab_base hb) (hslab.meta_base hr hself)
        (hslab.partitioned.metas b (mem_append_left _ hb) i r hr)
    · refine (h.within_vm hb).apart ?_ hpaging.disjoint.2.2
      exact within_window (hslab.meta_base hr hself) fun j hj =>
        hslab.meta_page hr hself (Nat.le_add_right _ j) (Nat.add_lt_add_left hj _)

theorem apart_struct (hl : (l : Multiset ℕ) = selfs (areas μ.state)) (hb : b ∈ μ.live) {a : Area}
    (ha : a ∈ areas μ.state) : μ.state.rest.Apart b.1 b.2 a.self sizeofVma := by
  have hself : a.self ∈ selfs (areas μ.state) :=
    mem_coe.mpr (mem_map.mpr ⟨a, ha, rfl⟩)
  rw [← hl] at hself
  have hstruct : (a.self, sizeofVma) ∈ l.map fun p => (p, sizeofVma) :=
    mem_map.mpr ⟨a.self, hself, rfl⟩
  have hmem := mem_append_right μ.slabLive hstruct
  rcases mem_append.mp hb with hb | hb
  · obtain ⟨-, -, hcross⟩ := pairwise_append.mp hslab.partitioned.live
    exact apart_window (h.slab_base hb) (hslab.block_base hmem) (hcross b hb _ hstruct)
  · exact (h.within_vm hb).apart (within_slab hslab hmem) hpaging.disjoint.2.2

theorem apart_live :
    μ.live.Pairwise fun b b' => μ.state.rest.Apart b.1 b.2 b'.1 b'.2 := by
  refine pairwise_append.mpr ⟨?_, h.apart_vm, fun b hb b' hb' => ?_⟩
  · obtain ⟨hslabs, -⟩ := pairwise_append.mp hslab.partitioned.live
    exact hslabs.imp_of_mem fun hb hb' hne => apart_window (h.slab_base hb) (h.slab_base hb') hne
  · exact (within_slab hslab (mem_append_left _ hb)).apart (h.within_vm hb')
      fun f hf hf' => hpaging.disjoint.2.2 f hf' hf

end

end

end

end Separation

theorem separated (h : Inv boot all μ) (hboot : boot + sizeofMeta ≤ vmaStart)
    (himage : ∀ k < sizeofMeta, pageRoundDn (boot + k - virtOffset + pfaVirtOffset) ∉ all) :
    Separated μ := by
  obtain ⟨g, ⟨touched, l, hl, hslab⟩, hpaging⟩ := h.vm.rest
  obtain ⟨hfl, htab, -⟩ := hpaging.disjoint
  refine ⟨fun b hb i hi => ?_, fun b hb i hi j hj heq => h.bytes_inj hb hi hj heq,
    h.apart_live hslab hpaging, fun b hb i m hm => h.apart_meta hslab hpaging hboot himage hb hm,
    fun b hb a ha => h.apart_struct hslab hpaging hl hb ha, fun b hb t ht => ?_,
    fun b hb f hf => ?_, fun b hb fuel => kfree_slab (h.slab_base hb), fun b hb fuel => ?_⟩
  · obtain ⟨x, hx, -⟩ := h.within_live hslab hb i hi
    rw [hx]
    rfl
  · refine (h.within_live hslab hb).apart (within_frame (hpaging.table_frame ht)) ?_
    rintro f hf rfl
    exact hf.elim (htab f ht).2 (htab f ht).1
  · refine (h.within_live hslab hb).apart (within_frame (hpaging.free_frame hf)) ?_
    rintro f hf' rfl
    exact hf'.elim (hfl f hf).2.2 (hfl f hf).2.1
  · obtain ⟨hlo, hhi, -⟩ := h.vm_bounds hb
    exact kfree_vm hlo hhi

end Inv

/-- **Live blocks are separated** in every run of `kmalloc`, `kfree`, `do_defrag`, `vmalloc`,
`vmfree` and stores to the blocks in which the calls return. -/
theorem kmalloc_separation {s : Paging.State} {μ0 : Machine} {es : List Event}
    (hs : Booted boot s) (hinit : Initial boot s μ0) (hrun : Run Step μ0 es μ) : Separated μ :=
  (inv_of_run hs hinit hrun).separated hs.boot_le hs.image

/-! ### A run -/

/-- Eight page frames and an empty page directory. -/
def eightFrames : Paging.State :=
  ⟨⟨(List.range 8).map fun i => 0xD0010000 + i * 0x1000, fun _ => 0⟩, fun _ => 0⟩

theorem booted_eightFrames : Booted 0xC0020000 eightFrames := by
  have htables : eightFrames.tables = 0 :=
    Holders.held_eq_zero fun _ _ => leaf_of_not_present not_present_zero
  refine ⟨?_, ?_, fun va _ _ => ?_, by decide, ?_⟩
  · rw [htables, add_zero, coe_nodup]
    decide
  · rw [htables, add_zero]
    simp [eightFrames, IsFrame, pageSize, pfaVirtOffset, List.range_succ]
  · have htable : eightFrames.table (vaPdIdx va) = none :=
      leaf_of_not_present not_present_zero
    rw [Paging.State.walk, Paging.State.pte, htable]
    exact leaf_of_not_present not_present_zero
  · rw [htables, add_zero]
    decide

/-- The kernel after it has started with them. -/
def firstState : Option State :=
  (slabInit 0xC0020000 eightFrames.toMemory).toOption.bind fun σ =>
    (Vma.vmaInit (env 2) ⟨σ, eightFrames.pageDirectory⟩).toOption

theorem initial_firstState {s : State} (h : firstState = some s) :
    Initial 0xC0020000 eightFrames ⟨s, [], []⟩ := by
  obtain ⟨σ, hslab, hvma⟩ := bind_eq_some_iff.mp h
  rw [toOption_eq_some] at hslab hvma
  exact ⟨2, σ, s, hslab, hvma, rfl⟩

theorem firstCalls_eq : (firstState.bind fun s0 =>
    (kmalloc 2 5000 s0).toOption.bind fun (p, s1) =>
      (kmalloc 2 100 s1).toOption.bind fun (q, s2) =>
        (kfree 2 p s2).toOption.map fun _ => (p, q)) = some (0xC0100000, 0xD0015F80) := by
  decide +kernel

theorem firstCalls : ∃ μ0 μ1 μ2, Initial 0xC0020000 eightFrames μ0 ∧
    Run Step μ0 [.kmalloc 5000, .kmalloc 100] μ1 ∧
    μ1.live = [(0xD0015F80, 100), (0xC0100000, 5000)] ∧
    Run Step μ0 [.kmalloc 5000, .kmalloc 100, .kfree 0xC0100000] μ2 ∧
    μ2.live = [(0xD0015F80, 100)] := by
  obtain ⟨s0, hs0, h⟩ := bind_eq_some_iff.mp firstCalls_eq
  obtain ⟨⟨p, s1⟩, hlarge, h⟩ := bind_eq_some_iff.mp h
  obtain ⟨⟨q, s2⟩, hsmall, h⟩ := bind_eq_some_iff.mp h
  obtain ⟨s3, hfree, heq⟩ := map_eq_some_iff.mp h
  obtain ⟨rfl, rfl⟩ := Prod.mk.inj heq
  rw [toOption_eq_some] at hlarge hsmall hfree
  have hrun : Run Step ⟨s0, [], []⟩ [.kmalloc 5000, .kmalloc 100]
      ⟨s2, [(0xD0015F80, 100)], [(0xC0100000, 5000)]⟩ :=
    .snoc (.snoc .nil (.kmalloc (by decide) hlarge))
      (.kmalloc (μ := ⟨s1, [], [(0xC0100000, 5000)]⟩) (by decide) hsmall)
  refine ⟨⟨s0, [], []⟩, _, ⟨s3, [(0xD0015F80, 100)], []⟩, initial_firstState hs0, hrun, rfl, ?_,
    rfl⟩
  exact .snoc hrun (.kfree (n := 5000) (by simp [Machine.live]) hfree)

/-- A large and a small block are separated. -/
theorem kmalloc_separation_firstCalls : ∃ μ0 μ, Initial 0xC0020000 eightFrames μ0 ∧
    Run Step μ0 [.kmalloc 5000, .kmalloc 100] μ ∧
    μ.live = [(0xD0015F80, 100), (0xC0100000, 5000)] ∧ Separated μ := by
  obtain ⟨μ0, μ, -, hinit, hrun, hlive, -⟩ := firstCalls
  exact ⟨μ0, μ, hinit, hrun, hlive, kmalloc_separation booted_eightFrames hinit hrun⟩

/-! ### Frames are conserved -/

/-- The pages of the slabs. -/
def slabPages (m : Rest) : Multiset ℕ := total (fun _ a => {a.slab}) m.slabs

/-- The frames on `page_freelist`, the page tables and the mapped frames. -/
def union (s : Paging.State) : Multiset ℕ := (s.pageFreelist : Multiset ℕ) + s.tables + s.frames

/-- **Conservation.**  What holds of the frames in every state of a run that
starts with the frames `all`. -/
structure Conserved (all : Multiset ℕ) (μ : Machine) : Prop where
  /-- the three sets are disjoint and without duplicates -/
  nodup : (union μ.state.rest.paging).Nodup
  /-- together with the frames the slab allocator has taken they are always the
  same frames -/
  all_eq : union μ.state.rest.paging + slabPages μ.state.rest = all
  /-- `vm_map`, when `vmalloc` calls it, does not change their union -/
  vmMap : ∀ fuel n p s', 1 ≤ n → n ≤ 0xFFFFF000 →
    vmalloc (env fuel) n μ.state = .ok (p, s') →
    ∃ vma s1, Vma.findSpace (env fuel) (pageRoundUp n / pageSize) μ.state = .ok (vma, s1) ∧
      s'.rest.paging = vmMap vma.start vma.size s1.rest.paging ∧
      union s'.rest.paging = union s1.rest.paging
  /-- nor does `vm_unmap`, when `vmfree` calls it; and it gives back a page table
  only if no entry is in use outside the area -/
  vmUnmap : ∀ a ∈ μ.state.vmaList,
    ∃ s', vmUnmap a.start a.size μ.state.rest.paging = .ok s' ∧
      union s' = union μ.state.rest.paging ∧
      ∀ va < 2 ^ 32, vaPdIdx va ∈ kernelPds →
        s'.table (vaPdIdx va) = none → μ.state.rest.paging.pte va ≠ 0 →
        a.start ≤ va ∧ va < a.start + a.size
  /-- the mapped addresses are those of the areas of `vma_list` -/
  mapped : ∀ va, vmaStart ≤ va → va < vmaEnd →
    ((μ.state.rest.paging.walk va).isSome ↔
      ∃ a ∈ μ.state.vmaList, a.start ≤ va ∧ va < a.start + a.size)
  /-- two pages have different frames -/
  inj : ∀ va va' f, vmaStart ≤ va → va < vmaEnd → vmaStart ≤ va' → va' < vmaEnd →
    μ.state.rest.paging.walk va = some f → μ.state.rest.paging.walk va' = some f →
    va / pageSize = va' / pageSize

theorem union_eq {s' : Paging.State} {B : ℕ → Prop} (h : Paging.Inv all extra s A)
    (h' : Paging.Inv all extra s' B) : union s' = union s :=
  add_right_cancel (h'.sum.trans h.sum.symm)

theorem covers_extents {l : List Area} :
    Covers (extents l) va ↔ ∃ a ∈ l, a.start ≤ va ∧ va < a.start + a.size := by
  simp [Covers, extents]

namespace Inv

theorem vmMap_conserves (h : Inv boot all μ) {fuel n p : ℕ} {s' : State} (hlo : 1 ≤ n)
    (hhi : n ≤ 0xFFFFF000) (hcall : vmalloc (env fuel) n μ.state = .ok (p, s')) :
    ∃ vma s1, Vma.findSpace (env fuel) (pageRoundUp n / pageSize) μ.state = .ok (vma, s1) ∧
      s'.rest.paging = vmMap vma.start vma.size s1.rest.paging ∧
      union s'.rest.paging = union s1.rest.paging := by
  obtain ⟨-, hge, -⟩ := pageRoundUp_spec (x := n) (by simp only [pageSize]; omega)
  obtain ⟨vma, s1, m', hfind, hmap, -, rfl⟩ := Vma.vmalloc_eq_ok hcall
  obtain ⟨-, -, -, hmappable, g1, -, hpaging1⟩ :=
    Vma.findSpace_spec (sound fuel boot all μ.slabLive) h.vm (by omega) hfind
  obtain ⟨s', hserved, rfl⟩ := map_eq_ok.mp hmap
  obtain ⟨hpaging', -⟩ := Paging.vmMap_kept hpaging1 hmappable hserved
  exact ⟨vma, s1, hfind, (Paging.vmMapServed_eq hserved).symm, union_eq hpaging1 hpaging'⟩

theorem vmUnmap_conserves (h : Inv boot all μ) {a : Area} (ha : a ∈ μ.state.vmaList) :
    ∃ s', vmUnmap a.start a.size μ.state.rest.paging = .ok s' ∧
      union s' = union μ.state.rest.paging ∧
      ∀ va < 2 ^ 32, vaPdIdx va ∈ kernelPds →
        s'.table (vaPdIdx va) = none → μ.state.rest.paging.pte va ≠ 0 →
        a.start ≤ va ∧ va < a.start + a.size := by
  obtain ⟨g, -, hpaging⟩ := h.vm.rest
  obtain ⟨pre, post, hlist⟩ := append_of_mem ha
  have hext : extents μ.state.vmaList =
      (a.start, a.size) ::ₘ extents (pre ++ post) := by
    rw [hlist]
    exact coe_eq_coe.mpr (perm_middle.map _)
  rw [hext] at hpaging
  obtain ⟨s', hcall, hpaging', hkept⟩ :=
    Paging.vmUnmap_kept hpaging (h.vm.space.mappable hlist)
  refine ⟨s', hcall, union_eq hpaging hpaging', fun va hva hpd hnone hne => ?_⟩
  -- an entry outside the area is kept, and there is none without a page table
  by_contra hout
  refine hne ?_
  rw [← hkept.pte va hva hpd hout, Paging.State.pte, hnone]
  rfl

theorem conserved (h : Inv boot all μ) : Conserved all μ := by
  obtain ⟨g, ⟨touched, l, hl, hslab⟩, hpaging⟩ := h.vm.rest
  have hpages : slabPages μ.state.rest = pages g :=
    hslab.rep.total_eq fun i m a hma => by rw [hma.slab]
  have hsum : union μ.state.rest.paging + pages g = all := hpaging.sum
  have hnd := hpaging.nodup
  rw [← hsum] at hnd
  exact ⟨(nodup_add.mp hnd).1, hpages ▸ hsum,
    fun fuel n p s' hlo hhi hcall => h.vmMap_conserves hlo hhi hcall,
    fun a ha => h.vmUnmap_conserves ha,
    fun va hlo hhi => (hpaging.mapped va ⟨hlo, hhi⟩).trans covers_extents,
    fun va va' f hlo hhi hlo' hhi' => hpaging.page_unique ⟨hlo, hhi⟩ ⟨hlo', hhi'⟩⟩

end Inv

/-- **Frames and page tables are conserved** in every run. -/
theorem frame_conservation {s : Paging.State} {μ0 : Machine} {es : List Event}
    (hs : Booted boot s) (hinit : Initial boot s μ0) (hrun : Run Step μ0 es μ) :
    Conserved ((s.pageFreelist : Multiset ℕ) + s.tables) μ :=
  (inv_of_run hs hinit hrun).conserved

/-- The frames after a large block has been freed. -/
theorem frame_conservation_firstCalls : ∃ μ0 μ, Initial 0xC0020000 eightFrames μ0 ∧
    Run Step μ0 [.kmalloc 5000, .kmalloc 100, .kfree 0xC0100000] μ ∧
    Conserved ((eightFrames.pageFreelist : Multiset ℕ) + eightFrames.tables) μ := by
  obtain ⟨μ0, -, μ, hinit, -, -, hrun, -⟩ := firstCalls
  exact ⟨μ0, μ, hinit, hrun, frame_conservation booted_eightFrames hinit hrun⟩

end Kernel
