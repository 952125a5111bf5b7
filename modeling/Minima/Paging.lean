/-
The page tables of the kernel's areas (`vm_map` and `vm_unmap` of `mm/vma.c`).

The areas of `vmalloc` lie between the image of the kernel and the window of the
page frames.  This is the range the page tables are looked at on here.

* `kernelRange` — the range of `vmalloc`;
* `Inv` — the invariant of the page tables on this range;
* `vmMap_kept`, `vmUnmap_kept` — both functions keep it, and touch the entries of
  no other address.
-/
import Minima.PageTables
import Minima.Vma

open Holders Memory

namespace Paging

open Vma (Area Mappable vmaEnd vmaEnd_eq vmaStart)
open Multiset

/-! ### The range of `vmalloc` -/

/-- The slots of the directory for the range of `vmalloc`. -/
def kernelPds : Finset ℕ := Finset.Ico 768 832

variable {s s' s1 : State} {va v f t : ℕ}

theorem vaPdIdx_mem (hlo : vmaStart ≤ va) (hhi : va < vmaEnd) : vaPdIdx va ∈ kernelPds := by
  rw [Vma.vmaStart_eq] at hlo
  rw [vmaEnd_eq] at hhi
  rw [kernelPds, Finset.mem_Ico, vaPdIdx]
  omega

/-- The range of `vmalloc`. -/
def kernelRange : Range where
  lo := vmaStart
  hi := vmaEnd
  pds := kernelPds
  lo_aligned := by rw [Vma.vmaStart_eq]; decide
  hi_aligned := by rw [vmaEnd_eq]; decide
  hi_le := by rw [vmaEnd_eq]; decide
  pd_mem _ := vaPdIdx_mem

/-- The page tables of the range. -/
abbrev State.tables (s : State) : Multiset ℕ := s.tablesIn kernelRange

/-- The frames mapped in the range. -/
abbrev State.frames (s : State) : Multiset ℕ := s.framesIn kernelRange

/-- The invariant of the range. -/
abbrev Inv (all extra : Multiset ℕ) (s : State) (A : ℕ → Prop) : Prop :=
  InvOn kernelRange all extra s A

variable {all extra : Multiset ℕ} {A : ℕ → Prop}

/-! ### Whole areas -/

theorem area_of_ok {a : Area} (h : a.Ok) : kernelRange.Area a.start a.size :=
  ⟨h.start_aligned, h.size_aligned, h.lo, h.hi⟩

theorem pagesOf_eq {a : Area} (h : a.Ok) :
    pagesOf a.start a.size = List.range' a.start (a.size / pageSize) pageSize :=
  (area_of_ok h).pagesOf_eq

/-- The `n` pages from `start` lie in the range, and none of them is mapped. -/
structure Unmapped (A : ℕ → Prop) (start n : ℕ) : Prop where
  aligned : start % pageSize = 0
  lo : vmaStart ≤ start
  hi : start + pageSize * n ≤ vmaEnd
  new : ∀ v, start ≤ v → v < start + pageSize * n → ¬ A v

namespace Unmapped

variable {start n : ℕ}

section

variable (h : Unmapped A start (n + 1))
include h

theorem start_lt : start < vmaEnd := by
  have hhi := h.hi
  simp only [pageSize] at hhi
  omega

theorem not_mapped : ¬ A start :=
  h.new start le_rfl (by simp only [pageSize]; omega)

theorem rest :
    Unmapped (fun v => A v ∨ v / pageSize = start / pageSize) (start + pageSize) n := by
  have haligned := h.aligned
  have hlo := h.lo
  have hhi := h.hi
  refine ⟨?_, by omega, ?_, fun v hvlo hvhi hA => ?_⟩
  · simp only [pageSize] at *
    omega
  · simp only [pageSize] at *
    omega
  · rcases hA with hA | hA
    · exact h.new v (by omega) (by simp only [pageSize] at *; omega) hA
    · simp only [pageSize] at *
      omega

end

end Unmapped

/-- An address is in one of the areas. -/
def Covers (areas : Multiset (ℕ × ℕ)) (va : ℕ) : Prop := ∃ b ∈ areas, b.1 ≤ va ∧ va < b.1 + b.2

theorem covers_cons {areas : Multiset (ℕ × ℕ)} {b : ℕ × ℕ} :
    Covers (b ::ₘ areas) va ↔ Covers areas va ∨ b.1 ≤ va ∧ va < b.1 + b.2 := by
  simp only [Covers, mem_cons, exists_eq_or_imp]
  exact or_comm

variable {areas : Multiset (ℕ × ℕ)} {start size : ℕ}

section

variable (hm : Mappable areas start size)
include hm

theorem size_eq : pageSize * (size / pageSize) = size :=
  Nat.mul_div_cancel' (Nat.dvd_of_mod_eq_zero hm.ok.size_aligned)

theorem not_covers (hlo : start ≤ v) (hhi : v < start + size) :
    ¬ Covers areas v := by
  rintro ⟨b, hb, hblo, hbhi⟩
  have hapart := hm.apart b hb
  rw [Apart] at hapart
  omega

theorem unmapped_of_mappable :
    Unmapped (Covers areas) start (size / pageSize) := by
  have hsize := size_eq hm
  exact ⟨hm.ok.start_aligned, hm.ok.lo, by rw [hsize]; exact hm.ok.hi,
    by rw [hsize]; exact fun v hlo hhi => not_covers hm hlo hhi⟩

end

theorem vmMap_kept (h : Inv all extra s (Covers areas)) (hm : Mappable areas start size)
    (hcall : vmMapServed start size s = .ok s') :
    Inv all extra s' (Covers ((start, size) ::ₘ areas)) ∧
      KeptOn kernelRange extra (fun v => ¬ (start ≤ v ∧ v < start + size)) s s' := by
  obtain ⟨h', hkept, -⟩ := vmMap_invOn h (area_of_ok hm.ok) hcall
  refine ⟨h'.congr fun v => ?_, hkept⟩
  exact (covers_cons (b := (start, size))).symm

theorem vmUnmap_kept (h : Inv all extra s (Covers ((start, size) ::ₘ areas)))
    (hm : Mappable areas start size) :
    ∃ s', vmUnmap start size s = .ok s' ∧ Inv all extra s' (Covers areas) ∧
      KeptOn kernelRange extra (fun v => ¬ (start ≤ v ∧ v < start + size)) s s' := by
  have harea : ∀ v, start ≤ v → v < start + size → Covers ((start, size) ::ₘ areas) v :=
    fun v hvlo hvhi => covers_cons.mpr (.inr ⟨hvlo, hvhi⟩)
  obtain ⟨s', hcall, h', hkept, -⟩ := vmUnmap_invOn h (area_of_ok hm.ok) harea
  refine ⟨s', hcall, h'.congr fun v => ?_, hkept⟩
  rw [covers_cons]
  constructor
  · rintro ⟨hA | hA, hout⟩
    · exact hA
    · exact absurd hA hout
  · exact fun hA => ⟨.inl hA, fun hin => not_covers hm hin.1 hin.2 hA⟩

end Paging
