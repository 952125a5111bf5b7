/-
Page tables (`vm_map` and `vm_unmap` of `mm/vma.c`).

The page directory refers to page tables and these to page frames; both come
from the same pool of frames.  `vm_map` backs an area page by page and makes
page tables as it goes; `vm_unmap` gives the frames back and then sweeps the
page tables that have become empty.  The kernel uses them for its own part of
the address space and for that of the programs; here they are looked at on any
range of addresses.

* `vmMap`, `vmUnmap` — the functions of the source;
* `State.pte`, `State.walk`, `State.byte` — the entry for a virtual address, the
  frame the processor finds through it, and what is stored there;
* `InvOn` — the free frames, the page tables and the mapped frames of a range are
  distinct and make up a fixed set of frames, and the addresses that are mapped
  are the ones that should be;
* `mapLoop_invOn`, `unmapLoop_invOn`, `sweepLoop_invOn` — the loops of both functions keep
  it, and touch the entries of no other address; `unmapLoop_mapped` — a page that is not
  mapped stops `vm_unmap`.
-/
import Minima.Holders
import Minima.Memory
import Mathlib.Order.Interval.Finset.Nat

open Holders Memory

namespace Paging

open List (foldlM_cons mem_cons_self range' range'_succ suffix_refl)
open Function Multiset

/-! ### The functions of the source -/

/-- `VA_PD_IDX` -/
def vaPdIdx (va : ℕ) : ℕ := va / 2 ^ 22 % 1024

/-- `VA_PT_IDX` -/
def vaPtIdx (va : ℕ) : ℕ := va / 2 ^ 12 % 1024

/-- `PTE_PRESENT` -/
def ptePresent : ℕ := 1

/-- `PTE_WRITABLE` -/
def pteWritable : ℕ := 2

/-- `w & PTE_PRESENT` -/
def Present (w : ℕ) : Prop := w &&& ptePresent ≠ 0

instance : DecidablePred Present := fun w => inferInstanceAs (Decidable (w &&& ptePresent ≠ 0))

/-- `(w & ~0xFFF) + PFA_VIRT_OFFSET`, the frame an entry refers to, as the kernel
sees it. -/
def frameOf (w : ℕ) : ℕ := add32 (pageRoundDn w) pfaVirtOffset

/-- `(page - PFA_VIRT_OFFSET) | PTE_WRITABLE | PTE_PRESENT` -/
def entry (page : ℕ) : ℕ := sub32 page pfaVirtOffset ||| pteWritable ||| ptePresent

/-- Memory, free frames and the page directory. -/
structure State extends Memory where
  pageDirectory : ℕ → ℕ

/-- `&page_table[VA_PT_IDX(va)]`, with the page table the directory gives. -/
def State.pteAt (s : State) (va : ℕ) : ℕ :=
  add32 (frameOf (s.pageDirectory (vaPdIdx va))) (4 * vaPtIdx va)

/-- The first half of the loop body of `vm_map`: a page table for `va`. -/
def mapTable (s : State) (va : ℕ) : State :=
  if Present (s.pageDirectory (vaPdIdx va)) then s
  else
    let (page, m) := s.toMemory.pfZalloc
    ⟨m, update s.pageDirectory (vaPdIdx va) (entry page)⟩

/-- The second half: a frame for `va`. -/
def mapFrame (s : State) (va : ℕ) : State :=
  if Present (s.mem (s.pteAt va)) then s
  else
    let (page, m) := s.toMemory.pfZalloc
    ⟨m.store (s.pteAt va) (entry page), s.pageDirectory⟩

def mapPage (s : State) (va : ℕ) : State := mapFrame (mapTable s va) va

/-- The values of `for (va = ...; va < stop; va += PAGE_SIZE)`, `fuel` of them at
most. -/
def vas : ℕ → ℕ → ℕ → List ℕ
  | 0, _, _ => []
  | fuel + 1, va, stop => if va < stop then va :: vas fuel (add32 va pageSize) stop else []

/-- The pages the loops go through: there are no more than `2^20` in all. -/
def pagesOf (start size : ℕ) : List ℕ := vas (2 ^ 20) start (add32 start size)

/-- `vm_map` -/
def vmMap (start size : ℕ) (s : State) : State := (pagesOf start size).foldl mapPage s

/-- The loop body of `vm_unmap`. -/
def unmapPage (s : State) (va : ℕ) : Except Fault State :=
  if ¬ Present (s.pageDirectory (vaPdIdx va)) then .error .assertion
  else if ¬ Present (s.mem (s.pteAt va)) then .error .assertion
  else
    let m := s.toMemory.pfFree (frameOf (s.mem (s.pteAt va)))
    .ok ⟨m.store (s.pteAt va) 0, s.pageDirectory⟩

/-- The `empty` of `vm_unmap`, for the page table in slot `p` of the directory. -/
def State.empty (s : State) (p : ℕ) : Bool :=
  (List.range 1024).all fun i => s.mem (add32 (frameOf (s.pageDirectory p)) (4 * i)) = 0

/-- The body of the sweep of `vm_unmap`. -/
def sweepTable (s : State) (p : ℕ) : State :=
  if s.empty p then
    ⟨s.toMemory.pfFree (frameOf (s.pageDirectory p)),
      update s.pageDirectory p pteWritable⟩
  else s

/-- `vm_unmap` -/
def vmUnmap (start size : ℕ) (s : State) : Except Fault State := do
  let s ← (pagesOf start size).foldlM unmapPage s
  let last := vaPdIdx (add32 start size)
  return (range' (vaPdIdx start) (last - vaPdIdx start)).foldl sweepTable s

/-! ### `vm_map` when there are frames -/

/-- Every `pf_zalloc` the loop body calls finds a frame. -/
def Served (s : State) (va : ℕ) : Prop :=
  (Present (s.pageDirectory (vaPdIdx va)) ∨ s.pageFreelist ≠ []) ∧
    (Present ((mapTable s va).mem ((mapTable s va).pteAt va)) ∨
      (mapTable s va).pageFreelist ≠ [])

instance (s : State) (va : ℕ) : Decidable (Served s va) := inferInstanceAs (Decidable (_ ∧ _))

def mapPageServed (s : State) (va : ℕ) : Except Fault State :=
  if Served s va then .ok (mapPage s va) else .error .outOfFrames

/-- `vm_map`, as long as `pf_zalloc` always succeeds. -/
def vmMapServed (start size : ℕ) (s : State) : Except Fault State :=
  (pagesOf start size).foldlM mapPageServed s

theorem mapPageServed_eq_ok {s s' : State} {va : ℕ} :
    mapPageServed s va = .ok s' ↔ Served s va ∧ mapPage s va = s' := by
  by_cases h : Served s va <;> simp [mapPageServed, h]

theorem vmMapServed_eq {start size : ℕ} {s s' : State}
    (h : vmMapServed start size s = .ok s') : vmMap start size s = s' := by
  rw [vmMapServed] at h
  rw [vmMap]
  generalize pagesOf start size = l at h ⊢
  induction l generalizing s with
  | nil => exact Except.ok.inj h
  | cons va l ih =>
    rw [foldlM_cons, bind_eq_ok] at h
    obtain ⟨s1, h1, h⟩ := h
    obtain ⟨-, rfl⟩ := mapPageServed_eq_ok.mp h1
    exact ih h

/-! ### Entries -/

theorem present_iff {w : ℕ} : Present w ↔ w % 2 = 1 := by
  rw [Present, ptePresent, Nat.and_one_is_mod]
  omega

theorem not_present_zero : ¬ Present 0 := by decide

variable {f t : ℕ}

theorem entry_eq (hf : IsFrame f) : entry f = f - pfaVirtOffset + 3 := by
  obtain ⟨hmod, hlo, hhi⟩ := hf
  have hlt : f < 2 ^ 32 := by
    simp only [pageSize] at hhi
    omega
  have hsub : f - pfaVirtOffset = 2 ^ 12 * ((f - pfaVirtOffset) / 2 ^ 12) := by
    simp only [pageSize, pfaVirtOffset] at hmod hlo ⊢
    omega
  rw [entry, sub32_eq hlt hlo, hsub, Nat.or_assoc,
    show pteWritable ||| ptePresent = 3 by decide,
    ← Nat.two_pow_add_eq_or_of_lt (show 3 < 2 ^ 12 by decide)]

theorem present_entry (hf : IsFrame f) : Present (entry f) := by
  rw [present_iff, entry_eq hf]
  obtain ⟨hmod, hlo, -⟩ := hf
  simp only [pageSize, pfaVirtOffset] at hmod hlo ⊢
  omega

theorem frameOf_entry (hf : IsFrame f) : frameOf (entry f) = f := by
  rw [entry_eq hf]
  obtain ⟨hmod, hlo, hhi⟩ := hf
  simp only [frameOf, pageRoundDn, add32, pageSize, pfaVirtOffset] at *
  omega

/-- The frame an entry refers to, if it is present. -/
def leaf (w : ℕ) : Option ℕ := if Present w then some (frameOf w) else none

theorem leaf_entry (hf : IsFrame f) : leaf (entry f) = some f := by
  rw [leaf, if_pos (present_entry hf), frameOf_entry hf]

theorem leaf_of_not_present {w : ℕ} (h : ¬ Present w) : leaf w = none := if_neg h

theorem leaf_eq_some {w : ℕ} : leaf w = some f ↔ Present w ∧ frameOf w = f := by
  by_cases h : Present w <;> simp [leaf, h]

theorem leaf_isSome {w : ℕ} : (leaf w).isSome ↔ Present w := by
  by_cases h : Present w <;> simp [leaf, h]

namespace State

variable (s : State)

/-- The page table of a slot of the directory. -/
def table (i : ℕ) : Option ℕ := leaf (s.pageDirectory i)

/-- The entry for a virtual address, `0` if there is no page table for it. -/
def pte (va : ℕ) : ℕ := (s.table (vaPdIdx va)).elim 0 fun t => s.mem (add32 t (4 * vaPtIdx va))

/-- The frame the processor finds for a virtual address. -/
def walk (va : ℕ) : Option ℕ := leaf (s.pte va)

end State


variable {s s' s1 : State} {va v : ℕ}

/-- What is stored at a virtual address, if it is mapped. -/
def State.byte (s : State) (va : ℕ) : Option ℕ :=
  (s.walk va).map fun f => s.mem (f + va % pageSize)

theorem pte_page (s : State) (va : ℕ) : s.pte (va / pageSize * pageSize) = s.pte va := by
  have hpd : vaPdIdx (va / pageSize * pageSize) = vaPdIdx va := by
    simp only [vaPdIdx, pageSize]
    omega
  have hpt : vaPtIdx (va / pageSize * pageSize) = vaPtIdx va := by
    simp only [vaPtIdx, pageSize]
    omega
  rw [State.pte, State.pte, hpd, hpt]

theorem walk_page (s : State) (hpage : v / pageSize = va / pageSize) : s.walk v = s.walk va := by
  rw [State.walk, State.walk, ← pte_page s v, ← pte_page s va, hpage]

theorem pte_addr (ht : IsFrame t) (va : ℕ) :
    add32 t (4 * vaPtIdx va) = t + 4 * vaPtIdx va ∧ pageRoundDn (add32 t (4 * vaPtIdx va)) = t := by
  obtain ⟨hmod, -, hhi⟩ := ht
  simp only [add32, pageRoundDn, pageSize, vaPtIdx] at *
  omega

theorem byte_addr (hf : IsFrame f) (va : ℕ) : pageRoundDn (f + va % pageSize) = f := by
  obtain ⟨hmod, -, -⟩ := hf
  simp only [pageRoundDn, pageSize] at *
  omega

theorem pageRoundDn_frame (hf : IsFrame f) : pageRoundDn f = f :=
  Nat.div_mul_cancel (Nat.dvd_of_mod_eq_zero hf.1)

theorem pteAt_eq (h : s.table (vaPdIdx va) = some t) : s.pteAt va = add32 t (4 * vaPtIdx va) := by
  rw [State.pteAt, (leaf_eq_some.mp h).2]

theorem pte_eq (h : s.table (vaPdIdx va) = some t) : s.pte va = s.mem (s.pteAt va) := by
  rw [State.pte, h, pteAt_eq h]
  rfl

theorem pte_congr (hpd : s'.pageDirectory (vaPdIdx va) = s.pageDirectory (vaPdIdx va))
    (hmem : ∀ t, s.table (vaPdIdx va) = some t →
      s'.mem (add32 t (4 * vaPtIdx va)) = s.mem (add32 t (4 * vaPtIdx va))) :
    s'.pte va = s.pte va := by
  have htable : s'.table (vaPdIdx va) = s.table (vaPdIdx va) := by
    rw [State.table, State.table, hpd]
  rw [State.pte, State.pte, htable]
  cases h : s.table (vaPdIdx va) with
  | none => rfl
  | some t => exact hmem t h

theorem byte_congr (hwalk : s'.walk va = s.walk va)
    (hmem : ∀ f, s.walk va = some f →
      s'.mem (f + va % pageSize) = s.mem (f + va % pageSize)) : s'.byte va = s.byte va := by
  rw [State.byte, State.byte, hwalk]
  cases h : s.walk va with
  | none => rfl
  | some f => exact congrArg some (hmem f h)

/-! ### Ranges -/

/-- A range of whole pages, with the slots of the directory that it uses. -/
structure Range where
  lo : ℕ
  hi : ℕ
  pds : Finset ℕ
  lo_aligned : lo % pageSize = 0
  hi_aligned : hi % pageSize = 0
  hi_le : hi + pageSize ≤ 2 ^ 32
  pd_mem : ∀ va, lo ≤ va → va < hi → vaPdIdx va ∈ pds

namespace Range

variable (R : Range)

/-- The addresses of the range. -/
def Has (va : ℕ) : Prop := R.lo ≤ va ∧ va < R.hi

/-- The pages of the range, by number. -/
def pages : Finset ℕ := Finset.Ico (R.lo / pageSize) (R.hi / pageSize)

variable {R}

theorem Has.lt (h : R.Has va) : va < 2 ^ 32 := by
  have hhi := R.hi_le
  have := h.2
  omega

theorem Has.pd (h : R.Has va) : vaPdIdx va ∈ R.pds := R.pd_mem va h.1 h.2

theorem mem_pages_iff {n : ℕ} : n ∈ R.pages ↔ R.Has (n * pageSize) := by
  have hlo := R.lo_aligned
  have hhi := R.hi_aligned
  rw [pages, Finset.mem_Ico, Has]
  simp only [pageSize] at *
  omega

theorem Has.page (h : R.Has va) : va / pageSize ∈ R.pages := by
  have hhi := R.hi_aligned
  rw [Has] at h
  rw [pages, Finset.mem_Ico]
  simp only [pageSize] at *
  omega

end Range

/-- The page tables of the range. -/
def State.tablesIn (R : Range) (s : State) : Multiset ℕ := held R.pds s.table

/-- The frames mapped in the range. -/
def State.framesIn (R : Range) (s : State) : Multiset ℕ :=
  held R.pages fun n => s.walk (n * pageSize)

/-! ### The invariant -/

/-- The free frames, the page tables and the mapped frames of the range and some
`extra` frames are distinct and make up `all`; and the addresses of the range
that are mapped are those in `A`. -/
structure InvOn (R : Range) (all extra : Multiset ℕ) (s : State) (A : ℕ → Prop) : Prop where
  nodup : all.Nodup
  frame : ∀ f ∈ all, IsFrame f
  sum : (s.pageFreelist : Multiset ℕ) + s.tablesIn R + s.framesIn R + extra = all
  mapped : ∀ va, R.Has va → ((s.walk va).isSome ↔ A va)

/-- What a step keeps: the words of the extra frames, and the entries and the bytes of the
addresses in `out`. -/
structure KeptOn (R : Range) (extra : Multiset ℕ) (out : ℕ → Prop) (s s' : State) : Prop where
  mem : ∀ a, pageRoundDn a ∈ extra → s'.mem a = s.mem a
  pte : ∀ va < 2 ^ 32, vaPdIdx va ∈ R.pds → out va → s'.pte va = s.pte va
  byte : ∀ va, R.Has va → out va → s'.byte va = s.byte va
  pd : ∀ i ∉ R.pds, s'.pageDirectory i = s.pageDirectory i

variable {R : Range} {all extra : Multiset ℕ} {A B out out' : ℕ → Prop}

namespace KeptOn

theorem refl (s : State) : KeptOn R extra out s s :=
  ⟨fun _ _ => rfl, fun _ _ _ _ => rfl, fun _ _ _ => rfl, fun _ _ => rfl⟩

theorem trans {s2 : State} (h : KeptOn R extra out s s1) (h' : KeptOn R extra out' s1 s2) :
    KeptOn R extra (fun va => out va ∧ out' va) s s2 where
  mem a ha := (h'.mem a ha).trans (h.mem a ha)
  pte va hva hpd hout := (h'.pte va hva hpd hout.2).trans (h.pte va hva hpd hout.1)
  byte va hva hout := (h'.byte va hva hout.2).trans (h.byte va hva hout.1)
  pd i hi := (h'.pd i hi).trans (h.pd i hi)

theorem imp (h : KeptOn R extra out s s') (himp : ∀ va, out' va → out va) :
    KeptOn R extra out' s s' :=
  ⟨h.mem, fun va hva hpd hout => h.pte va hva hpd (himp va hout),
    fun va hva hout => h.byte va hva (himp va hout), h.pd⟩

theorem walk (h : KeptOn R extra out s s') (hva : R.Has va) (hout : out va) :
    s'.walk va = s.walk va := by
  rw [State.walk, State.walk, h.pte va hva.lt hva.pd hout]

end KeptOn

namespace InvOn

section

variable (h : InvOn R all extra s A)
include h

theorem congr (hAB : ∀ va, A va ↔ B va) : InvOn R all extra s B :=
  ⟨h.nodup, h.frame, h.sum, fun va hva => (h.mapped va hva).trans (hAB va)⟩

theorem disjoint :
    (∀ f ∈ s.pageFreelist, f ∉ s.tablesIn R ∧ f ∉ s.framesIn R ∧ f ∉ extra) ∧
      (∀ f ∈ s.tablesIn R, f ∉ s.framesIn R ∧ f ∉ extra) ∧ ∀ f ∈ s.framesIn R, f ∉ extra := by
  have hnd := h.nodup
  rw [← h.sum, nodup_add, nodup_add, nodup_add] at hnd
  obtain ⟨⟨⟨-, -, h12⟩, -, h123⟩, -, h1234⟩ := hnd
  simp only [disjoint_left, mem_add, mem_coe] at h12 h123 h1234
  exact ⟨fun f hf => ⟨h12 hf, h123 (.inl hf), h1234 (.inl (.inl hf))⟩,
    fun f hf => ⟨h123 (.inr hf), h1234 (.inl (.inr hf))⟩, fun f hf => h1234 (.inr hf)⟩

theorem free_nodup : s.pageFreelist.Nodup := by
  have hnd := h.nodup
  rw [← h.sum, nodup_add, nodup_add, nodup_add] at hnd
  exact coe_nodup.mp hnd.1.1.1

theorem tables_nodup : (s.tablesIn R).Nodup := by
  have hnd := h.nodup
  rw [← h.sum, nodup_add, nodup_add, nodup_add] at hnd
  exact hnd.1.1.2.1

theorem frames_nodup : (s.framesIn R).Nodup := by
  have hnd := h.nodup
  rw [← h.sum, nodup_add, nodup_add] at hnd
  exact hnd.1.2.1

theorem free_frame (hf : f ∈ s.pageFreelist) : IsFrame f :=
  h.frame f (by simp [← h.sum, hf])

theorem table_frame (ht : t ∈ s.tablesIn R) : IsFrame t :=
  h.frame t (by simp [← h.sum, ht])

theorem mapped_frame (hf : f ∈ s.framesIn R) : IsFrame f :=
  h.frame f (by simp [← h.sum, hf])

end

theorem mem_tables {i : ℕ} (hi : i ∈ R.pds) (ht : s.table i = some t) : t ∈ s.tablesIn R :=
  mem_held.mpr ⟨i, hi, ht⟩

theorem mem_frames (hva : R.Has va) (hf : s.walk va = some f) : f ∈ s.framesIn R :=
  mem_held.mpr ⟨va / pageSize, hva.page, by rw [State.walk, pte_page]; exact hf⟩

theorem page_unique (h : InvOn R all extra s A) (hva : R.Has va) (hv : R.Has v)
    (hwalk : s.walk va = some f) (hwalk' : s.walk v = some f) : va / pageSize = v / pageSize :=
  slot_unique h.frames_nodup hva.page hv.page
    (by rw [State.walk, pte_page]; exact hwalk) (by rw [State.walk, pte_page]; exact hwalk')

theorem pteAt_ne (h : InvOn R all extra s A) (hva : va < 2 ^ 32) (hv : v < 2 ^ 32)
    (hpd : vaPdIdx va ∈ R.pds) (hpd' : vaPdIdx v ∈ R.pds) {t' : ℕ}
    (ht : s.table (vaPdIdx va) = some t) (ht' : s.table (vaPdIdx v) = some t')
    (hne : v / pageSize ≠ va / pageSize) : add32 t' (4 * vaPtIdx v) ≠ add32 t (4 * vaPtIdx va) := by
  intro heq
  obtain ⟨hadd, hround⟩ := pte_addr (h.table_frame (mem_tables hpd ht)) va
  obtain ⟨hadd', hround'⟩ := pte_addr (h.table_frame (mem_tables hpd' ht')) v
  have htt : t' = t := by rw [← hround', heq, hround]
  have hidx := slot_unique h.tables_nodup hpd' hpd ht' (htt ▸ ht)
  rw [hadd, hadd', htt] at heq
  simp only [vaPdIdx, vaPtIdx, pageSize] at hidx heq hne
  omega

theorem exists_table (h : InvOn R all extra s A) (hva : R.Has va) (hA : A va) :
    ∃ t, s.table (vaPdIdx va) = some t := by
  have hsome := (h.mapped va hva).mpr hA
  cases ht : s.table (vaPdIdx va) with
  | some t => exact ⟨t, rfl⟩
  | none =>
    rw [State.walk, State.pte, ht, leaf_isSome] at hsome
    exact absurd hsome not_present_zero

end InvOn

/-- **Frame rule.**  Other code may take free frames and give frames back, write outside
the page tables, and change the other slots of the directory. -/
theorem InvOn.reframe {all' extra' : Multiset ℕ} (h : InvOn R all extra s A)
    (hpd : ∀ i ∈ R.pds, s'.pageDirectory i = s.pageDirectory i)
    (hmem : ∀ a, pageRoundDn a ∈ s.tablesIn R → s'.mem a = s.mem a)
    (hsum : (s'.pageFreelist : Multiset ℕ) + s.tablesIn R + s.framesIn R + extra' = all')
    (hnodup : all'.Nodup) (hframe : ∀ f ∈ all', IsFrame f) :
    InvOn R all' extra' s' A ∧ s'.tablesIn R = s.tablesIn R ∧ s'.framesIn R = s.framesIn R ∧
      ∀ v, R.Has v → s'.pte v = s.pte v := by
  have hpte : ∀ v, vaPdIdx v ∈ R.pds → s'.pte v = s.pte v := fun v hv =>
    pte_congr (hpd _ hv) fun t ht => hmem _ (by
      have htmem := InvOn.mem_tables hv ht
      rwa [(pte_addr (h.table_frame htmem) v).2])
  have hwalk : ∀ v, R.Has v → s'.walk v = s.walk v := fun v hv => by
    rw [State.walk, State.walk, hpte v hv.pd]
  have htables : s'.tablesIn R = s.tablesIn R := held_congr fun i hi => by
    rw [State.table, hpd i hi]
    rfl
  have hframes : s'.framesIn R = s.framesIn R :=
    held_congr fun n hn => hwalk _ (Range.mem_pages_iff.mp hn)
  refine ⟨⟨hnodup, hframe, by rw [htables, hframes, hsum], fun v hv => ?_⟩, htables, hframes,
    fun v hv => hpte v hv.pd⟩
  rw [hwalk v hv]
  exact h.mapped v hv

theorem InvOn.other {extra' : Multiset ℕ} (h : InvOn R all extra s A)
    (hpd : s'.pageDirectory = s.pageDirectory)
    (hsum : (s'.pageFreelist : Multiset ℕ) + extra' = (s.pageFreelist : Multiset ℕ) + extra)
    (hmem : ∀ a, pageRoundDn a ∈ s.tablesIn R → s'.mem a = s.mem a) :
    InvOn R all extra' s' A := by
  have hswap : ∀ x y : Multiset ℕ, x + s.tablesIn R + s.framesIn R + y =
      x + y + s.tablesIn R + s.framesIn R := by
    intro x y
    rw [add_right_comm _ (s.framesIn R), add_right_comm _ (s.tablesIn R)]
  refine (h.reframe (fun i _ => by rw [hpd]) hmem ?_ h.nodup h.frame).1
  rw [← h.sum, hswap, hswap, hsum]

theorem InvOn.pool_nodup (h : InvOn R all extra s A) :
    ((s.pageFreelist : Multiset ℕ) + extra).Nodup := by
  have hnd := h.nodup
  rw [← h.sum, add_right_comm _ (s.framesIn R), add_right_comm _ (s.tablesIn R), nodup_add,
    nodup_add] at hnd
  exact hnd.1.1

/-! ### One page -/

theorem pfZalloc_eq {m : Memory} {fl : List ℕ} (hfl : m.pageFreelist = f :: fl) (hf : IsFrame f) :
    m.pfZalloc = (f, { m with pageFreelist := fl }.memset f pageSize) := by
  have hne : f ≠ 0 := by
    have := hf.2.1
    simp only [pfaVirtOffset] at this
    omega
  simp [Memory.pfZalloc, Memory.pfAlloc, hfl, hne]

theorem memset_page (m : Memory) (hf : IsFrame f) (a : ℕ) :
    (m.memset f pageSize).mem a = if pageRoundDn a = f then 0 else m.mem a := by
  have hiff : (f ≤ a ∧ a < f + pageSize) ↔ pageRoundDn a = f := by
    have hmod := hf.1
    simp only [pageRoundDn, pageSize] at *
    omega
  simp only [Memory.memset, hiff]

variable {fl : List ℕ}

theorem mapTable_new (hpresent : ¬ Present (s.pageDirectory (vaPdIdx va)))
    (hfl : s.pageFreelist = f :: fl) (hf : IsFrame f) :
    (mapTable s va).pageFreelist = fl ∧
      (∀ a, (mapTable s va).mem a = if pageRoundDn a = f then 0 else s.mem a) ∧
      (mapTable s va).pageDirectory = update s.pageDirectory (vaPdIdx va) (entry f) := by
  rw [mapTable, if_neg hpresent, pfZalloc_eq hfl hf]
  exact ⟨rfl, memset_page _ hf, rfl⟩

/-- A step writes only to frames that are no extra ones and that no address in `out` has. -/
theorem InvOn.keptOn (h : InvOn R all extra s A) {W : ℕ → Prop}
    (hmem : ∀ a, ¬ W (pageRoundDn a) → s'.mem a = s.mem a) (hextra : ∀ x, W x → x ∉ extra)
    (hframes : ∀ v x, R.Has v → out v → s.walk v = some x → ¬ W x)
    (hpte : ∀ v < 2 ^ 32, vaPdIdx v ∈ R.pds → out v → s'.pte v = s.pte v)
    (hpd : ∀ i ∉ R.pds, s'.pageDirectory i = s.pageDirectory i) : KeptOn R extra out s s' where
  mem a ha := hmem a fun hW => hextra _ hW ha
  pte := hpte
  byte v hv hout := by
    have hwalk : s'.walk v = s.walk v := by
      rw [State.walk, State.walk, hpte v hv.lt hv.pd hout]
    refine byte_congr hwalk fun x hx => hmem _ ?_
    rw [byte_addr (h.mapped_frame (InvOn.mem_frames hv hx))]
    exact hframes v x hv hout hx
  pd := hpd

/-- **A slot of the directory changes**, and with it the frame `f` that is or was its page
table: no address of the range notices. -/
theorem InvOn.retable (h : InvOn R all extra s A) {p w : ℕ} (hp : p ∈ R.pds)
    (hpd : s'.pageDirectory = update s.pageDirectory p w)
    (hmem : ∀ a, pageRoundDn a ≠ f → s'.mem a = s.mem a) (hf : f ∉ s.framesIn R ∧ f ∉ extra)
    (hother : ∀ i ∈ R.pds, i ≠ p → s.table i ≠ some f)
    (hslot : ∀ v, vaPdIdx v = p → s'.pte v = s.pte v)
    (hsum : (s'.pageFreelist : Multiset ℕ) + held R.pds (update s.table p (leaf w)) =
      s.pageFreelist + s.tablesIn R) :
    InvOn R all extra s' A ∧ KeptOn R extra (fun _ => True) s s' := by
  have htable : s'.table = update s.table p (leaf w) := by
    funext i
    rw [State.table, hpd]
    by_cases hi : i = p
    · rw [hi, update_self, update_self]
    · rw [update_of_ne hi, update_of_ne hi, State.table]
  have hpte : ∀ v, vaPdIdx v ∈ R.pds → s'.pte v = s.pte v := by
    intro v hv
    by_cases hi : vaPdIdx v = p
    · exact hslot v hi
    · refine pte_congr (by rw [hpd, update_of_ne hi]) fun t ht => hmem _ ?_
      rw [(pte_addr (h.table_frame (InvOn.mem_tables hv ht)) v).2]
      rintro rfl
      exact hother _ hv hi ht
  have hwalk : ∀ v, R.Has v → s'.walk v = s.walk v := fun v hv => by
    rw [State.walk, State.walk, hpte v hv.pd]
  have hframes : s'.framesIn R = s.framesIn R :=
    held_congr fun n hn => hwalk _ (Range.mem_pages_iff.mp hn)
  refine ⟨⟨h.nodup, h.frame, ?_, fun v hv => ?_⟩,
    h.keptOn (W := (· = f)) hmem (fun x hx => hx ▸ hf.2) (fun v x hv _ hx heq => ?_)
      (fun v _ hv _ => hpte v hv) fun i hi => ?_⟩
  · rw [hframes, State.tablesIn, htable, hsum, h.sum]
  · rw [hwalk v hv]
    exact h.mapped v hv
  · exact hf.1 (heq ▸ InvOn.mem_frames hv hx)
  · rw [hpd, update_of_ne]
    rintro rfl
    exact hi hp

theorem mapTable_invOn (h : InvOn R all extra s A) (hpd : vaPdIdx va ∈ R.pds)
    (hserved : Present (s.pageDirectory (vaPdIdx va)) ∨ s.pageFreelist ≠ []) :
    InvOn R all extra (mapTable s va) A ∧ KeptOn R extra (fun _ => True) s (mapTable s va) ∧
      ∃ t, (mapTable s va).table (vaPdIdx va) = some t := by
  by_cases hpresent : Present (s.pageDirectory (vaPdIdx va))
  · rw [mapTable, if_pos hpresent]
    exact ⟨h, KeptOn.refl s, _, leaf_eq_some.mpr ⟨hpresent, rfl⟩⟩
  obtain ⟨f, fl, hfl⟩ := List.exists_cons_of_ne_nil (hserved.resolve_left hpresent)
  have hmem : f ∈ s.pageFreelist := by rw [hfl]; exact mem_cons_self
  have hf := h.free_frame hmem
  obtain ⟨hft, hoff⟩ := h.disjoint.1 f hmem
  obtain ⟨hfl1, hmem1, hpd1⟩ := mapTable_new hpresent hfl hf
  generalize mapTable s va = s1 at hfl1 hmem1 hpd1 ⊢
  have hold : s.table (vaPdIdx va) = none := leaf_of_not_present hpresent
  have hnew : s1.table (vaPdIdx va) = some f := by
    rw [State.table, hpd1, update_self, leaf_entry hf]
  obtain ⟨hinv, hkept⟩ := h.retable hpd hpd1 (fun a ha => by rw [hmem1, if_neg ha]) hoff
    (fun i hi _ ht => hft (InvOn.mem_tables hi ht))
    (fun v hv => by
      -- the new page table is empty
      rw [State.pte, State.pte, hv, hnew, hold]
      change s1.mem _ = 0
      rw [hmem1, if_pos (pte_addr hf v).2])
    (by
      rw [leaf_entry hf, held_put hpd hold, hfl, hfl1, ← cons_coe, add_cons,
        cons_add]
      rfl)
  exact ⟨hinv, hkept, f, hnew⟩

theorem framesIn_eq (hpte : ∀ v < 2 ^ 32, vaPdIdx v ∈ R.pds → v / pageSize ≠ va / pageSize →
    s'.pte v = s.pte v) :
    s'.framesIn R = held R.pages
      (update (fun n => s.walk (n * pageSize)) (va / pageSize) (s'.walk va)) := by
  refine held_congr fun n hn => ?_
  by_cases hne : n = va / pageSize
  · subst hne
    rw [update_self, State.walk, pte_page]
    rfl
  · have hhas := Range.mem_pages_iff.mp hn
    rw [update_of_ne hne, State.walk, State.walk, hpte _ hhas.lt hhas.pd]
    rwa [Nat.mul_div_cancel _ (by decide)]

/-- The entry of one page changes, and what is in a frame that no other page has. -/
theorem InvOn.repage (h : InvOn R all extra s A) (hva : R.Has va)
    (ht : s.table (vaPdIdx va) = some t) (hpd : s'.pageDirectory = s.pageDirectory)
    (hmem : ∀ a, a ≠ s.pteAt va → pageRoundDn a ≠ f → s'.mem a = s.mem a)
    (hf : f ∉ s.tablesIn R ∧ f ∉ extra)
    (hother : ∀ v, R.Has v → v / pageSize ≠ va / pageSize → s.walk v ≠ some f)
    (hsum : (s'.pageFreelist : Multiset ℕ) + held R.pages
        (update (fun n => s.walk (n * pageSize)) (va / pageSize) (s'.walk va)) =
      s.pageFreelist + s.framesIn R) :
    InvOn R all extra s' (fun v => if v / pageSize = va / pageSize then (s'.walk va).isSome = true
      else A v) ∧ KeptOn R extra (fun v => v / pageSize ≠ va / pageSize) s s' := by
  have htmem := InvOn.mem_tables hva.pd ht
  obtain ⟨-, htoff, -⟩ := h.disjoint
  have hmem' : ∀ a, ¬ (pageRoundDn a = t ∨ pageRoundDn a = f) → s'.mem a = s.mem a := by
    intro a ha
    refine hmem a ?_ fun heq => ha (.inr heq)
    rintro rfl
    rw [pteAt_eq ht] at ha
    exact ha (.inl (pte_addr (h.table_frame htmem) va).2)
  have hpte : ∀ v < 2 ^ 32, vaPdIdx v ∈ R.pds → v / pageSize ≠ va / pageSize →
      s'.pte v = s.pte v := by
    intro v hv hvpd hne
    refine pte_congr (by rw [hpd]) fun t' ht' => hmem _ ?_ ?_
    · rw [pteAt_eq ht]
      exact h.pteAt_ne hva.lt hv hva.pd hvpd ht ht' hne
    · have hmt := InvOn.mem_tables hvpd ht'
      rw [(pte_addr (h.table_frame hmt) v).2]
      rintro rfl
      exact hf.1 hmt
  have htables : s'.tablesIn R = s.tablesIn R := held_congr fun i _ => by
    rw [State.table, hpd]
    rfl
  refine ⟨⟨h.nodup, h.frame, ?_, fun v hv => ?_⟩,
    h.keptOn (W := fun x => x = t ∨ x = f) hmem' ?_ (fun v x hv hne hx => ?_) hpte
      fun i _ => by rw [hpd]⟩
  · rw [← h.sum, htables, framesIn_eq hpte, add_right_comm _ (s.tablesIn R), hsum,
      add_right_comm _ (s.framesIn R)]
  · by_cases hpage : v / pageSize = va / pageSize
    · rw [if_pos hpage, walk_page s' hpage]
    · rw [if_neg hpage, State.walk, hpte v hv.lt hv.pd hpage]
      exact h.mapped v hv
  · rintro x (rfl | rfl)
    · exact (htoff x htmem).2
    · exact hf.2
  · rintro (rfl | rfl)
    · exact (htoff x htmem).1 (InvOn.mem_frames hv hx)
    · exact hother v hv hne hx

theorem mapFrame_new (habsent : ¬ Present (s.mem (s.pteAt va)))
    (hfl : s.pageFreelist = f :: fl) (hf : IsFrame f) :
    (mapFrame s va).pageFreelist = fl ∧ (mapFrame s va).pageDirectory = s.pageDirectory ∧
      ∀ a, (mapFrame s va).mem a =
        if a = s.pteAt va then entry f else if pageRoundDn a = f then 0 else s.mem a := by
  rw [mapFrame, if_neg habsent, pfZalloc_eq hfl hf]
  refine ⟨rfl, rfl, fun a => ?_⟩
  rw [← memset_page { s.toMemory with pageFreelist := fl } hf]
  exact update_apply _ _ _ _

theorem byte_of_walk_none (hwalk : s.walk va = none) : s.byte va = none := by
  rw [State.byte, hwalk]
  rfl

theorem byte_isSome : (s.byte va).isSome = (s.walk va).isSome := Option.isSome_map

/-- `vm_map` has a frame for the page: the one that is there already, or a new one, which
is all zero. -/
theorem mapFrame_invOn (h : InvOn R all extra s A) (hva : R.Has va)
    (ht : s.table (vaPdIdx va) = some t)
    (hserved : Present (s.mem (s.pteAt va)) ∨ s.pageFreelist ≠ []) :
    InvOn R all extra (mapFrame s va) (fun v => A v ∨ v / pageSize = va / pageSize) ∧
      KeptOn R extra (fun v => v / pageSize ≠ va / pageSize) s (mapFrame s va) ∧
      ∀ v, R.Has v → v / pageSize = va / pageSize →
        (mapFrame s va).byte v = some ((s.byte v).getD 0) := by
  by_cases hpresent : Present (s.mem (s.pteAt va))
  · have hsome : ∀ {v}, v / pageSize = va / pageSize → (s.walk v).isSome := by
      intro v hpage
      rw [walk_page s hpage, State.walk, pte_eq ht, leaf_isSome]
      exact hpresent
    rw [mapFrame, if_pos hpresent]
    refine ⟨⟨h.nodup, h.frame, h.sum, fun v hv => ?_⟩, KeptOn.refl s, fun v hv hpage => ?_⟩
    · rw [h.mapped v hv, iff_self_or]
      exact fun hpage => (h.mapped v hv).mp (hsome hpage)
    · obtain ⟨b, hb⟩ := Option.isSome_iff_exists.mp (byte_isSome.trans (hsome hpage))
      rw [hb]
      rfl
  obtain ⟨f, fl, hfl⟩ := List.exists_cons_of_ne_nil (hserved.resolve_left hpresent)
  have hmem : f ∈ s.pageFreelist := by rw [hfl]; exact mem_cons_self
  have hf := h.free_frame hmem
  obtain ⟨hft, hff, hfe⟩ := h.disjoint.1 f hmem
  have htmem := InvOn.mem_tables hva.pd ht
  obtain ⟨hfl1, hpd1, hmem1⟩ := mapFrame_new hpresent hfl hf
  have hold : s.walk va = none := by
    rw [State.walk, pte_eq ht]
    exact leaf_of_not_present hpresent
  generalize mapFrame s va = s1 at hfl1 hmem1 hpd1 ⊢
  have ht1 : s1.table (vaPdIdx va) = some t := by rw [State.table, hpd1]; exact ht
  have hwalk : s1.walk va = some f := by
    rw [State.walk, pte_eq ht1, pteAt_eq ht1, ← pteAt_eq ht, hmem1, if_pos rfl, leaf_entry hf]
  -- only the page table and the new frame are written to
  obtain ⟨hinv, hkept⟩ := h.repage hva ht hpd1
    (fun a ha haf => by rw [hmem1, if_neg ha, if_neg haf]) ⟨hft, hfe⟩
    (fun v hv _ hx => hff (InvOn.mem_frames hv hx)) (by
      have hold' : s.walk (va / pageSize * pageSize) = none := by
        rw [State.walk, pte_page]
        exact hold
      rw [hwalk, held_put hva.page hold', hfl, hfl1, ← cons_coe, add_cons, cons_add]
      rfl)
  refine ⟨hinv.congr fun v => ?_, hkept, fun v hv hpage => ?_⟩
  · rw [hwalk]
    by_cases hpage : v / pageSize = va / pageSize <;> simp [hpage]
  · rw [byte_of_walk_none ((walk_page s hpage).trans hold), State.byte, walk_page s1 hpage, hwalk,
      Option.map_some, hmem1, if_neg, if_pos (byte_addr hf v)]
    · rfl
    · intro heq
      have hround := byte_addr hf v
      rw [heq, pteAt_eq ht, (pte_addr (h.table_frame htmem) va).2] at hround
      exact hft (hround ▸ htmem)

theorem pfFree_mem (m : Memory) (page a : ℕ) :
    (m.pfFree page).mem a = if a = page then m.pageFreelist.headD 0 else m.mem a :=
  update_apply _ _ _ _

theorem unmapPage_ok (ht : s.table (vaPdIdx va) = some t) (hf : s.walk va = some f) :
    ∃ s', unmapPage s va = .ok s' ∧ s'.pageFreelist = f :: s.pageFreelist ∧
      s'.pageDirectory = s.pageDirectory ∧
      ∀ a, s'.mem a = if a = s.pteAt va then 0 else
        if a = f then s.pageFreelist.headD 0 else s.mem a := by
  rw [State.walk, pte_eq ht, leaf_eq_some] at hf
  obtain ⟨hpresent, rfl⟩ := hf
  have hpd := (leaf_eq_some.mp ht).1
  rw [unmapPage, if_neg (not_not.mpr hpd), if_neg (not_not.mpr hpresent)]
  refine ⟨_, rfl, rfl, rfl, fun a => ?_⟩
  rw [← pfFree_mem]
  exact update_apply _ _ _ _

theorem walk_isSome_of_unmapPage (hcall : unmapPage s va = .ok s') : (s.walk va).isSome := by
  by_cases hpd : Present (s.pageDirectory (vaPdIdx va))
  swap
  · rw [unmapPage, if_pos hpd] at hcall
    cases hcall
  have ht : s.table (vaPdIdx va) = some (frameOf (s.pageDirectory (vaPdIdx va))) :=
    leaf_eq_some.mpr ⟨hpd, rfl⟩
  by_cases hpresent : Present (s.mem (s.pteAt va))
  · rw [State.walk, pte_eq ht, leaf_isSome]
    exact hpresent
  · rw [unmapPage, if_neg (not_not.mpr hpd), if_pos hpresent] at hcall
    cases hcall

theorem unmapPage_invOn (h : InvOn R all extra s A) (hva : R.Has va) (hmapped : A va) :
    ∃ s' f, unmapPage s va = .ok s' ∧ s.walk va = some f ∧
      s'.pageFreelist = f :: s.pageFreelist ∧
      InvOn R all extra s' (fun v => A v ∧ v / pageSize ≠ va / pageSize) ∧
      KeptOn R extra (fun v => v / pageSize ≠ va / pageSize) s s' ∧
      s'.pageDirectory = s.pageDirectory := by
  obtain ⟨f, hwalk⟩ := Option.isSome_iff_exists.mp ((h.mapped va hva).mpr hmapped)
  obtain ⟨t, ht⟩ := h.exists_table hva hmapped
  have hmem := InvOn.mem_frames hva hwalk
  obtain ⟨-, htoff, hfoff⟩ := h.disjoint
  obtain ⟨s', hcall, hfl', hpd', hmem'⟩ := unmapPage_ok ht hwalk
  have ht' : s'.table (vaPdIdx va) = some t := by rw [State.table, hpd']; exact ht
  have hwalk' : s'.walk va = none := by
    rw [State.walk, pte_eq ht', pteAt_eq ht', ← pteAt_eq ht, hmem', if_pos rfl]
    exact leaf_of_not_present not_present_zero
  -- only the page table and the frame that is freed are written to
  obtain ⟨hinv, hkept⟩ := h.repage hva ht hpd' (fun a ha haf => by
      rw [hmem', if_neg ha, if_neg]
      rintro rfl
      exact haf (pageRoundDn_frame (h.mapped_frame hmem)))
    ⟨fun hft => (htoff f hft).1 hmem, hfoff f hmem⟩
    (fun v hv hne hx => hne (h.page_unique hv hva hx hwalk)) (by
      have hold : s.walk (va / pageSize * pageSize) = some f := by
        rw [State.walk, pte_page]
        exact hwalk
      rw [hwalk', hfl', ← cons_coe, cons_add, ← add_cons, State.framesIn,
        held_take (F := fun n => s.walk (n * pageSize)) hva.page hold])
  refine ⟨s', f, hcall, hwalk, hfl', hinv.congr fun v => ?_, hkept, hpd'⟩
  rw [hwalk']
  by_cases hpage : v / pageSize = va / pageSize <;> simp [hpage]

theorem sweepTable_invOn (h : InvOn R all extra s A) {p : ℕ} (hp : p ∈ R.pds)
    (ht : s.table p = some t) :
    InvOn R all extra (sweepTable s p) A ∧ KeptOn R extra (fun _ => True) s (sweepTable s p) ∧
      (∀ q ≠ p, (sweepTable s p).pageDirectory q = s.pageDirectory q) ∧
      s.pageFreelist <:+ (sweepTable s p).pageFreelist := by
  by_cases hempty : s.empty p = true
  swap
  · rw [sweepTable, if_neg hempty]
    exact ⟨h, KeptOn.refl s, fun _ _ => rfl, suffix_refl _⟩
  have htmem := InvOn.mem_tables hp ht
  have hframeOf := (leaf_eq_some.mp ht).2
  rw [sweepTable, if_pos hempty, hframeOf]
  simp only [State.empty, hframeOf, List.all_eq_true, List.mem_range, decide_eq_true_eq] at hempty
  set s1 : State := ⟨s.toMemory.pfFree t, update s.pageDirectory p pteWritable⟩
  have hnone : leaf pteWritable = none := leaf_of_not_present (by decide)
  have hgone : s1.table p = none := (congrArg leaf (update_self p _ _)).trans hnone
  obtain ⟨hinv, hkept⟩ := h.retable hp (show s1.pageDirectory = _ from rfl)
    (fun a ha => (pfFree_mem _ t a).trans (if_neg fun heq => ha (by
      rw [heq, pageRoundDn_frame (h.table_frame htmem)])))
    (h.disjoint.2.1 t htmem)
    (fun i hi hne hi' => hne (slot_unique h.tables_nodup hi hp hi' ht))
    (fun v hv => by
      -- the entries of the table were all zero
      rw [State.pte, State.pte, hv, hgone, ht]
      exact (hempty _ (Nat.mod_lt _ (by decide))).symm)
    (by
      rw [hnone, State.tablesIn, held_take hp ht, add_cons, ← cons_add]
      rfl)
  exact ⟨hinv, hkept, fun q hq => update_of_ne hq _ _, List.suffix_cons t _⟩

/-! ### Whole areas -/

theorem vas_eq {fuel va n : ℕ} (hfuel : n < fuel) (hend : va + pageSize * n + pageSize ≤ 2 ^ 32) :
    vas fuel va (va + pageSize * n) = range' va n pageSize := by
  induction n generalizing fuel va with
  | zero =>
    obtain ⟨fuel, rfl⟩ := Nat.exists_eq_succ_of_ne_zero hfuel.ne_bot
    simp [vas]
  | succ n ih =>
    obtain ⟨fuel, rfl⟩ := Nat.exists_eq_succ_of_ne_zero (Nat.ne_zero_of_lt hfuel)
    have hlt : va < va + pageSize * (n + 1) := by simp only [pageSize]; omega
    have hnext : add32 va pageSize = va + pageSize :=
      add32_eq (by omega)
    have hstop : va + pageSize * (n + 1) = va + pageSize + pageSize * n := by
      rw [Nat.mul_succ]
      omega
    rw [vas, if_pos hlt, range'_succ, hnext, hstop,
      ih (Nat.lt_of_succ_lt_succ hfuel) (by omega)]

theorem page_or_rest {start n v : ℕ} (hstart : start % pageSize = 0) :
    (start ≤ v ∧ v < start + pageSize * (n + 1)) ↔
      (v / pageSize = start / pageSize ∨
        start + pageSize ≤ v ∧ v < start + pageSize + pageSize * n) := by
  simp only [pageSize] at *
  omega

/-- The `n` pages from `start` lie in the range. -/
structure Range.Block (R : Range) (start n : ℕ) : Prop where
  aligned : start % pageSize = 0
  lo : R.lo ≤ start
  hi : start + pageSize * n ≤ R.hi

namespace Range.Block

variable {start n : ℕ}

theorem first (h : R.Block start (n + 1)) : R.Has start := by
  have hhi := h.hi
  refine ⟨h.lo, ?_⟩
  simp only [pageSize] at hhi
  omega

theorem rest (h : R.Block start (n + 1)) : R.Block (start + pageSize) n := by
  obtain ⟨haligned, hlo, hhi⟩ := h
  refine ⟨?_, by omega, ?_⟩ <;>
  · simp only [pageSize] at *
    omega

theorem has (h : R.Block start n) (hlo : start ≤ v) (hhi : v < start + pageSize * n) : R.Has v :=
  ⟨h.lo.trans hlo, hhi.trans_le h.hi⟩

theorem not_first (hlo : start + pageSize ≤ v) :
    v / pageSize ≠ start / pageSize := by
  simp only [pageSize] at *
  omega

theorem pagesOf_eq (h : R.Block start n) :
    pagesOf start (pageSize * n) = range' start n pageSize := by
  have hhi := h.hi
  have hle := R.hi_le
  have hstop : add32 start (pageSize * n) = start + pageSize * n :=
    add32_eq (by simp only [pageSize] at *; omega)
  rw [pagesOf, hstop]
  refine vas_eq ?_ (by omega)
  simp only [pageSize] at *
  omega

end Range.Block

theorem mapLoop_invOn {n : ℕ} (start : ℕ) (h : InvOn R all extra s A) (hb : R.Block start n)
    (hcall : (range' start n pageSize).foldlM mapPageServed s = .ok s') :
    InvOn R all extra s' (fun v => A v ∨ start ≤ v ∧ v < start + pageSize * n) ∧
      KeptOn R extra (fun v => ¬ (start ≤ v ∧ v < start + pageSize * n)) s s' ∧
      ∀ v, start ≤ v → v < start + pageSize * n → s'.byte v = some ((s.byte v).getD 0) := by
  induction n generalizing s A start with
  | zero =>
    obtain rfl := Except.ok.inj hcall
    refine ⟨h.congr fun v => by simp, KeptOn.refl s, fun v hlo hhi => ?_⟩
    omega
  | succ n ih =>
    rw [range'_succ, foldlM_cons, bind_eq_ok] at hcall
    obtain ⟨s1, hpage, hcall⟩ := hcall
    obtain ⟨⟨hserved, hserved'⟩, rfl⟩ := mapPageServed_eq_ok.mp hpage
    obtain ⟨h1, hkept1, t, ht⟩ := mapTable_invOn h hb.first.pd hserved
    obtain ⟨h2, hkept2, hbyte2⟩ := mapFrame_invOn h1 hb.first ht hserved'
    obtain ⟨h3, hkept3, hbyte3⟩ := ih (start + pageSize) h2 hb.rest hcall
    refine ⟨h3.congr fun v => ?_, (hkept1.trans (hkept2.trans hkept3)).imp fun v hv => ?_,
      fun v hlo hhi => ?_⟩
    · rw [page_or_rest hb.aligned, or_assoc]
    · rw [page_or_rest hb.aligned, not_or] at hv
      exact ⟨trivial, hv⟩
    · have hv := hb.has hlo hhi
      have hbyte1 := hkept1.byte v hv trivial
      rcases (page_or_rest hb.aligned).mp ⟨hlo, hhi⟩ with hpage | ⟨hlo', hhi'⟩
      · have hout : ¬ (start + pageSize ≤ v ∧ v < start + pageSize + pageSize * n) :=
          fun hin => Range.Block.not_first hin.1 hpage
        rw [hkept3.byte v hv hout, hbyte2 v hv hpage, hbyte1]
      · rw [hbyte3 v hlo' hhi', hkept2.byte v hv (Range.Block.not_first hlo'), hbyte1]

theorem mapped_rest {n start : ℕ}
    (hmapped : ∀ v, start ≤ v → v < start + pageSize * (n + 1) → A v) (hlo : start + pageSize ≤ v)
    (hhi : v < start + pageSize + pageSize * n) : A v ∧ v / pageSize ≠ start / pageSize :=
  ⟨hmapped v (by omega) (by rw [Nat.mul_succ]; omega), Range.Block.not_first hlo⟩

theorem unmapLoop_invOn (n start : ℕ) (h : InvOn R all extra s A) (hb : R.Block start n)
    (hmapped : ∀ v, start ≤ v → v < start + pageSize * n → A v) :
    ∃ s', (range' start n pageSize).foldlM unmapPage s = .ok s' ∧
      InvOn R all extra s' (fun v => A v ∧ ¬ (start ≤ v ∧ v < start + pageSize * n)) ∧
      KeptOn R extra (fun v => ¬ (start ≤ v ∧ v < start + pageSize * n)) s s' ∧
      s'.pageDirectory = s.pageDirectory ∧ s.pageFreelist <:+ s'.pageFreelist ∧
      ∀ v f, start ≤ v → v < start + pageSize * n → s.walk v = some f → f ∈ s'.pageFreelist := by
  induction n generalizing s A start with
  | zero =>
    refine ⟨s, rfl, h.congr fun v => by simp, KeptOn.refl s, rfl, suffix_refl _, ?_⟩
    intro v f hlo hhi
    omega
  | succ n ih =>
    have hfirst : start < start + pageSize * (n + 1) := by simp only [pageSize]; omega
    obtain ⟨s1, f1, hpage, hwalk1, hfl1, h1, hkept1, hpd1⟩ :=
      unmapPage_invOn h hb.first (hmapped start le_rfl hfirst)
    obtain ⟨s', hrest, h', hkept', hpd', hfl', hfreed⟩ :=
      ih (start + pageSize) h1 hb.rest fun v hlo hhi => mapped_rest hmapped hlo hhi
    have hsuffix : f1 :: s.pageFreelist <:+ s'.pageFreelist := hfl1 ▸ hfl'
    refine ⟨s', ?_, h'.congr fun v => ?_, (hkept1.trans hkept').imp fun v hv => ?_,
      hpd'.trans hpd1, (List.suffix_cons _ _).trans hsuffix, fun v f hlo hhi hwalk => ?_⟩
    · rw [range'_succ, foldlM_cons, hpage]
      exact hrest
    · rw [page_or_rest hb.aligned, not_or, and_assoc]
    · rwa [page_or_rest hb.aligned, not_or] at hv
    · rcases (page_or_rest hb.aligned).mp ⟨hlo, hhi⟩ with hsame | ⟨hlo', hhi'⟩
      · rw [walk_page s hsame, hwalk1] at hwalk
        obtain rfl := Option.some.inj hwalk
        exact hsuffix.subset mem_cons_self
      · refine hfreed v f hlo' hhi' ?_
        rw [hkept1.walk (hb.has hlo hhi) (Range.Block.not_first hlo'), hwalk]

theorem unmapLoop_mapped (n start : ℕ) (h : InvOn R all extra s A) (hb : R.Block start n)
    (hcall : (range' start n pageSize).foldlM unmapPage s = .ok s') (hlo : start ≤ v)
    (hhi : v < start + pageSize * n) : A v := by
  induction n generalizing s A start with
  | zero => omega
  | succ n ih =>
    rw [range'_succ, foldlM_cons, bind_eq_ok] at hcall
    obtain ⟨s1, hpage, hcall⟩ := hcall
    have hsome := walk_isSome_of_unmapPage hpage
    have hA := (h.mapped start hb.first).mp hsome
    obtain ⟨s2, -, hpage', -, -, h1, -, -⟩ := unmapPage_invOn h hb.first hA
    obtain rfl := Except.ok.inj (hpage.symm.trans hpage')
    rcases (page_or_rest hb.aligned).mp ⟨hlo, hhi⟩ with hsame | ⟨hlo', hhi'⟩
    · rw [← h.mapped v (hb.has hlo hhi), walk_page s hsame]
      exact hsome
    · exact (ih (start + pageSize) h1 hb.rest hcall hlo' hhi').1

theorem sweepLoop_invOn {l : List ℕ} (h : InvOn R all extra s A) (hnd : l.Nodup)
    (hl : ∀ p ∈ l, p ∈ R.pds ∧ ∃ t, s.table p = some t) :
    InvOn R all extra (l.foldl sweepTable s) A ∧
      KeptOn R extra (fun _ => True) s (l.foldl sweepTable s) ∧
      s.pageFreelist <:+ (l.foldl sweepTable s).pageFreelist := by
  induction l generalizing s with
  | nil => exact ⟨h, KeptOn.refl s, suffix_refl _⟩
  | cons p l ih =>
    obtain ⟨hp, t, ht⟩ := hl p mem_cons_self
    rw [List.nodup_cons] at hnd
    obtain ⟨h1, hkept1, hpd1, hfl1⟩ := sweepTable_invOn h hp ht
    have hl1 : ∀ q ∈ l, q ∈ R.pds ∧ ∃ t, (sweepTable s p).table q = some t := by
      intro q hq
      have hne : q ≠ p := by
        rintro rfl
        exact hnd.1 hq
      rw [State.table, hpd1 q hne]
      exact hl q (List.mem_cons_of_mem _ hq)
    obtain ⟨h', hkept', hfl'⟩ := ih h1 hnd.2 hl1
    rw [List.foldl_cons]
    exact ⟨h', (hkept1.trans hkept').imp fun _ _ => ⟨trivial, trivial⟩, hfl1.trans hfl'⟩

theorem exists_swept {p start size : ℕ} (hend : start + size ≤ 2 ^ 32)
    (hfirst : vaPdIdx start ≤ p) (hlast : p < vaPdIdx (start + size)) :
    ∃ v, start ≤ v ∧ v < start + size ∧ vaPdIdx v = p := by
  simp only [vaPdIdx] at *
  refine ⟨max start (p * 2 ^ 22), by omega, by omega, by omega⟩

/-! ### `vm_map` and `vm_unmap` -/

variable {start size : ℕ}

/-- Whole pages from `start` on, `size` bytes in all, lie in the range. -/
structure Range.Area (R : Range) (start size : ℕ) : Prop where
  start_aligned : start % pageSize = 0
  size_aligned : size % pageSize = 0
  lo : R.lo ≤ start
  hi : start + size ≤ R.hi

namespace Range.Area

section

variable (h : R.Area start size)
include h

theorem exists_block : ∃ n, size = pageSize * n ∧ R.Block start n := by
  have hsize : pageSize * (size / pageSize) = size :=
    Nat.mul_div_cancel' (Nat.dvd_of_mod_eq_zero h.size_aligned)
  exact ⟨size / pageSize, hsize.symm, h.start_aligned, h.lo, by rw [hsize]; exact h.hi⟩

theorem has (hlo : start ≤ v) (hhi : v < start + size) : R.Has v :=
  ⟨h.lo.trans hlo, hhi.trans_le h.hi⟩

theorem end_lt : start + size < 2 ^ 32 := by
  have hhi := h.hi
  have hle := R.hi_le
  simp only [pageSize] at hle
  omega

theorem pagesOf_eq :
    pagesOf start size = range' start (size / pageSize) pageSize := by
  obtain ⟨n, rfl, hb⟩ := h.exists_block
  rw [hb.pagesOf_eq, Nat.mul_div_cancel_left _ (by decide)]

end

end Range.Area

section

variable (h : InvOn R all extra s A) (ha : R.Area start size)
include h ha

theorem vmMap_invOn (hcall : vmMapServed start size s = .ok s') :
    InvOn R all extra s' (fun v => A v ∨ start ≤ v ∧ v < start + size) ∧
      KeptOn R extra (fun v => ¬ (start ≤ v ∧ v < start + size)) s s' ∧
      ∀ v, start ≤ v → v < start + size → s'.byte v = some ((s.byte v).getD 0) := by
  obtain ⟨n, rfl, hb⟩ := ha.exists_block
  rw [vmMapServed, hb.pagesOf_eq] at hcall
  exact mapLoop_invOn start h hb hcall

theorem vmUnmap_invOn (hmapped : ∀ v, start ≤ v → v < start + size → A v) :
    ∃ s', vmUnmap start size s = .ok s' ∧
      InvOn R all extra s' (fun v => A v ∧ ¬ (start ≤ v ∧ v < start + size)) ∧
      KeptOn R extra (fun v => ¬ (start ≤ v ∧ v < start + size)) s s' ∧
      s.pageFreelist <:+ s'.pageFreelist ∧
      ∀ v f, start ≤ v → v < start + size → s.walk v = some f → f ∈ s'.pageFreelist := by
  have hend := ha.end_lt
  obtain ⟨n, hn, hb⟩ := ha.exists_block
  obtain ⟨s1, hloop, h1, hkept1, hpd1, hfl1, hfreed⟩ :=
    unmapLoop_invOn n start h hb (by rw [← hn]; exact hmapped)
  rw [← hn] at h1 hkept1 hfreed
  have hswept : ∀ p ∈ range' (vaPdIdx start) (vaPdIdx (start + size) - vaPdIdx start),
      p ∈ R.pds ∧ ∃ t, s1.table p = some t := by
    intro p hp
    rw [List.mem_range'_1] at hp
    obtain ⟨v, hlo, hhi, rfl⟩ := exists_swept hend.le hp.1 (by omega)
    refine ⟨(ha.has hlo hhi).pd, ?_⟩
    rw [State.table, hpd1]
    exact h.exists_table (ha.has hlo hhi) (hmapped v hlo hhi)
  obtain ⟨h2, hkept2, hfl2⟩ := sweepLoop_invOn h1 List.nodup_range' hswept
  refine ⟨_, ?_, h2, (hkept1.trans hkept2).imp fun v hv => ⟨hv, trivial⟩, hfl1.trans hfl2,
    fun v f hlo hhi hwalk => hfl2.subset (hfreed v f hlo hhi hwalk)⟩
  rw [vmUnmap, add32_eq hend, hn, hb.pagesOf_eq, hloop]
  rfl

theorem vmUnmap_mapped (hcall : vmUnmap start size s = .ok s') (hlo : start ≤ v)
    (hhi : v < start + size) : A v := by
  obtain ⟨n, rfl, hb⟩ := ha.exists_block
  rw [vmUnmap, hb.pagesOf_eq, bind_eq_ok] at hcall
  obtain ⟨s1, hloop, -⟩ := hcall
  exact unmapLoop_mapped n start h hb hloop hlo hhi

end

end Paging
