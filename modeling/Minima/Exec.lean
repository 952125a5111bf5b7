/-
Loading a segment of an ELF file: `mprotect` and `mmap` (`mm/vma.c`) and
`load_segment` (`exec.c`).

`mmap` rounds the segment to whole pages, asserts that it ends below
`VIRT_OFFSET`, maps the pages and lets the file store its bytes there.  All
three steps compute the end of the segment in 32-bit arithmetic.

* `mprotect`, `mmap`, `loadSegment` — the functions of the source;
* `load_segment_safe_iff` — which headers can only store to the pages they map;
* `load_segment_stores_to_page_directory` — a header whose segment ends at
  `2^32` maps nothing and stores to the page directory.
-/
import Minima.Kmalloc

namespace Exec

open Paging List

/-! ### The functions of the source -/

/-- `PROT_READ` -/
def protRead : ℕ := 1

/-- `PROT_WRITE` -/
def protWrite : ℕ := 2

/-- `PROT_USR` -/
def protUsr : ℕ := 3

/-- `PTE_USER` -/
def pteUser : ℕ := 4

/-- The `flags` of `mprotect`. -/
def protFlags (prot : ℕ) : ℕ :=
  (if prot &&& protRead ≠ 0 then ptePresent else 0) |||
    (if prot &&& protWrite ≠ 0 then pteWritable else 0) |||
    (if prot &&& protUsr ≠ 0 then pteUser else 0)

/-- `*e = *e & ~0xFFF; *e |= flags` -/
def stamp (flags w : ℕ) : ℕ := pageRoundDn w ||| flags

/-- The loop body of `mprotect`; an error is a return of `-1` in the given
state. -/
def protectPage (prot : ℕ) (s : State) (va : ℕ) : Except State State :=
  if ¬ Present (s.pageDirectory (vaPdIdx va)) then .error s
  else
    let pde := stamp (protFlags prot) (s.pageDirectory (vaPdIdx va))
    let s := { s with pageDirectory := Function.update s.pageDirectory (vaPdIdx va) pde }
    if pde = 0 then .error s
    else if ¬ Present (s.mem (s.pteAt va)) ∧ prot &&& protWrite ≠ 0 then .error s
    else
      let pte := stamp (protFlags prot) (s.mem (s.pteAt va))
      let s := { s with toMemory := s.toMemory.store (s.pteAt va) pte }
      if pte = 0 then .error s else .ok s

/-- `mprotect` -/
def mprotect (addr len prot : ℕ) (s : State) : ℤ × State :=
  match (pagesOf addr len).foldlM (protectPage prot) s with
  | .ok s => (0, s)
  | .error s => (-1, s)

/-- A file as `vfs_read_at` sees it: for a number of bytes and an offset the
result of the call and the bytes it has stored, never more than asked for. -/
structure File where
  readAt : ℕ → ℕ → ℤ × List ℕ
  readAt_le : ∀ bytes off, (readAt bytes off).2.length ≤ bytes

/-- The new area of a task, the state, and the bytes that have been stored with
their addresses. -/
structure Mapping where
  ptr : ℕ
  area : Vma.Area
  state : Kernel.Rest
  stores : List (ℕ × ℕ)

/-- `mmap`; the area that is returned goes on the task's list. -/
def mmap (fuel addr len prot : ℕ) (file : File) (off : ℕ) (m : Kernel.Rest) :
    Except Fault Mapping :=
  let start := pageRoundDn addr
  let stop := pageRoundUp (add32 addr len)
  if ¬ stop < virtOffset then .error .assertion
  else do
    let (self, m) ← (Kernel.env fuel).slabAlloc Vma.sizeofVma m
    let new : Vma.Area := ⟨self, start, sub32 stop start⟩
    let s := vmMap new.start new.size m.paging
    let (_, s) := mprotect start (sub32 stop start) prot s
    let (ret, bytes) := file.readAt len off
    if ret < 0 then .error .halted
    else return ⟨addr, new, m.withPaging s, bytes.zipIdx.map fun (byte, i) => (add32 addr i, byte)⟩

/-- The fields of a `struct prog_hdr32` that `load_segment` reads. -/
structure ProgHdr where
  offset : UInt32
  virtAddr : UInt32
  memBytes : UInt32
  deriving DecidableEq, Repr

/-- `ENOMEM` -/
def enomem : ℤ := 12

/-- `load_segment` -/
def loadSegment (fuel : ℕ) (file : File) (ph : ProgHdr) (m : Kernel.Rest) :
    Except Fault (ℤ × Mapping) := do
  let r ← mmap fuel ph.virtAddr.toNat ph.memBytes.toNat (protRead ||| protWrite ||| protUsr) file
    ph.offset.toNat m
  if r.ptr = 0 then return (-enomem, r) else return (0, r)

/-! ### Which stores are safe -/

/-- The pages `vm_map` has gone through for the area. -/
def Mapping.pages (r : Mapping) : List ℕ := pagesOf r.area.start r.area.size

/-- Everything mapped is below `VIRT_OFFSET`, and everything stored is in a page
that has been mapped. -/
structure Mapping.Safe (r : Mapping) : Prop where
  user : ∀ va ∈ r.pages, va + pageSize ≤ virtOffset
  stores : ∀ w ∈ r.stores, ∃ va ∈ r.pages, va ≤ w.1 ∧ w.1 < va + pageSize

variable {addr len prot fuel off : ℕ} {file : File} {m : Kernel.Rest} {r : Mapping}

theorem mmap_eq_ok (h : mmap fuel addr len prot file off m = .ok r) :
    pageRoundUp (add32 addr len) < virtOffset ∧ r.ptr = addr ∧
      r.area.start = pageRoundDn addr ∧
      r.area.size = sub32 (pageRoundUp (add32 addr len)) (pageRoundDn addr) ∧
      r.stores = (file.readAt len off).2.zipIdx.map fun x => (add32 addr x.2, x.1) := by
  rw [mmap] at h
  by_cases hstop : pageRoundUp (add32 addr len) < virtOffset
  · simp only [not_not.mpr hstop, if_false, bind_eq_ok, Prod.exists] at h
    obtain ⟨self, m', -, h⟩ := h
    by_cases hret : (file.readAt len off).1 < 0
    · simp [hret] at h
    · simp only [hret, if_false, pure, Except.pure, Except.ok.injEq] at h
      subst h
      exact ⟨hstop, rfl, rfl, rfl, rfl⟩
  · simp [hstop] at h

theorem add32_sub32 {x y : ℕ} (hx : x < 2 ^ 32) (hy : y < 2 ^ 32) : add32 x (sub32 y x) = y := by
  rw [add32, sub32]
  omega

theorem pageRoundUp_lt (x : ℕ) : pageRoundUp x < 2 ^ 32 := by
  simp only [pageRoundUp, pageRoundDn, pageSize]
  omega

theorem mem_vas {fuel start stop va : ℕ} (hstart : start % pageSize = 0)
    (hstop : stop % pageSize = 0) (hend : stop + pageSize ≤ 2 ^ 32)
    (hfuel : stop ≤ start + pageSize * fuel) :
    va ∈ vas fuel start stop ↔ va % pageSize = 0 ∧ start ≤ va ∧ va < stop := by
  simp only [pageSize] at hstart hstop hend hfuel ⊢
  induction fuel generalizing start with
  | zero =>
    simp only [vas, not_mem_nil, false_iff]
    omega
  | succ fuel ih =>
    rw [vas]
    by_cases hlt : start < stop
    · rw [if_pos hlt, mem_cons, pageSize, add32_eq (by omega), ih (by omega) (by omega)]
      omega
    · simp only [hlt, if_false, not_mem_nil, false_iff]
      omega

theorem mem_pages (haddr : addr < 2 ^ 32) (h : mmap fuel addr len prot file off m = .ok r)
    {va : ℕ} :
    va ∈ r.pages ↔ va % pageSize = 0 ∧ pageRoundDn addr ≤ va ∧
      va < pageRoundUp (add32 addr len) := by
  obtain ⟨hstop, -, hstart, hsize, -⟩ := mmap_eq_ok h
  have hdn : pageRoundDn addr < 2 ^ 32 := by
    simp only [pageRoundDn, pageSize]
    omega
  rw [Mapping.pages, pagesOf, hstart, hsize, add32_sub32 hdn (pageRoundUp_lt _)]
  refine mem_vas (pageRoundDn_mod _) (pageRoundDn_mod _) ?_ ?_
  · simp only [virtOffset, pageSize] at *
    omega
  · have := pageRoundUp_lt (add32 addr len)
    simp only [pageSize]
    omega

/-- The header's segment does not wrap, or is empty or rejected. -/
def Accepted (ph : ProgHdr) : Prop :=
  ph.virtAddr = 0 ∨ ph.memBytes = 0 ∨ ph.virtAddr.toNat + ph.memBytes.toNat ≤ 2 ^ 32 - pageSize ∨
    virtOffset ≤ pageRoundUp (add32 ph.virtAddr.toNat ph.memBytes.toNat)

theorem loadSegment_eq_ok {ph : ProgHdr} (h : loadSegment fuel file ph m = .ok (0, r)) :
    mmap fuel ph.virtAddr.toNat ph.memBytes.toNat (protRead ||| protWrite ||| protUsr) file
      ph.offset.toNat m = .ok r ∧ r.ptr ≠ 0 := by
  rw [loadSegment, bind_eq_ok] at h
  obtain ⟨r', hmap, h⟩ := h
  by_cases hptr : r'.ptr = 0
  · simp [hptr, pure, Except.pure, enomem] at h
  · simp only [hptr, if_false, pure, Except.pure, Except.ok.injEq, Prod.mk.injEq, true_and] at h
    exact ⟨h ▸ hmap, h ▸ hptr⟩

theorem mem_stores (h : mmap fuel addr len prot file off m = .ok r) {w : ℕ × ℕ}
    (hw : w ∈ r.stores) : ∃ i < len, w.1 = add32 addr i := by
  obtain ⟨-, -, -, -, hstores⟩ := mmap_eq_ok h
  rw [hstores] at hw
  obtain ⟨⟨byte, i⟩, hmem, rfl⟩ := mem_map.mp hw
  have hi := snd_lt_of_mem_zipIdx hmem
  exact ⟨i, hi.trans_le (file.readAt_le _ _), rfl⟩

theorem safe_of_accepted {ph : ProgHdr} (hph : Accepted ph)
    (h : loadSegment fuel file ph m = .ok (0, r)) : r.Safe := by
  obtain ⟨hmap, hptr⟩ := loadSegment_eq_ok h
  have haddr := ph.virtAddr.toNat_lt
  have hpages := @mem_pages _ _ _ _ _ _ _ _ haddr hmap
  obtain ⟨hstop, hr, -⟩ := mmap_eq_ok hmap
  constructor
  · intro va hva
    obtain ⟨hva0, -, hva1⟩ := hpages.mp hva
    simp only [virtOffset, pageSize] at *
    omega
  · intro w hw
    obtain ⟨i, hi, hwi⟩ := mem_stores hmap hw
    rcases hph with hnull | hempty | hnowrap | hreject
    · rw [hr, hnull] at hptr
      exact absurd rfl hptr
    · rw [hempty] at hi
      exact absurd hi (Nat.not_lt_zero i)
    · have hadd : add32 ph.virtAddr.toNat i = ph.virtAddr.toNat + i :=
        add32_eq (by omega)
      have hend : add32 ph.virtAddr.toNat ph.memBytes.toNat =
          ph.virtAddr.toNat + ph.memBytes.toNat :=
        add32_eq (by simp only [pageSize] at hnowrap; omega)
      obtain ⟨-, hge, -⟩ := pageRoundUp_spec (x := ph.virtAddr.toNat + ph.memBytes.toNat)
        (by omega)
      rw [hend] at hpages
      refine ⟨pageRoundDn w.1, hpages.mpr ⟨pageRoundDn_mod _, ?_, ?_⟩, ?_, ?_⟩
      all_goals
        simp only [pageRoundDn, pageSize] at *
        omega
    · exact absurd hstop hreject.not_gt

/-- A file that has `k` bytes to give at any offset. -/
def shortFile (k : ℕ) : File where
  readAt bytes _ := (Int.ofNat (min bytes k), List.replicate (min bytes k) 0)
  readAt_le bytes _ := by
    rw [length_replicate]
    exact Nat.min_le_left _ _

theorem exists_slabAlloc :
    ∃ fuel m self m', (Kernel.env fuel).slabAlloc Vma.sizeofVma m = .ok (self, m') := by
  obtain ⟨-, -, -, ⟨fuel, σ, vm, -, hvma, -⟩, -⟩ := Kernel.firstCalls
  simp only [Vma.vmaInit, bind_eq_ok, Prod.exists] at hvma
  obtain ⟨self, m', hcall, -⟩ := hvma
  exact ⟨fuel, _, self, m', hcall⟩

theorem loadSegment_shortFile (k : ℕ) (ph : ProgHdr) (hnull : ph.virtAddr ≠ 0)
    (hstop : pageRoundUp (add32 ph.virtAddr.toNat ph.memBytes.toNat) < virtOffset) :
    ∃ fuel m r, loadSegment fuel (shortFile k) ph m = .ok (0, r) ∧
      r.stores = (List.replicate (min ph.memBytes.toNat k) 0).zipIdx.map
        fun x => (add32 ph.virtAddr.toNat x.2, x.1) := by
  obtain ⟨fuel, m, self, m', hcall⟩ := exists_slabAlloc
  have hptr : ph.virtAddr.toNat ≠ 0 := fun h => hnull (UInt32.toNat.inj h)
  have hret : ¬ Int.ofNat (min ph.memBytes.toNat k) < 0 := (Int.natCast_nonneg _).not_gt
  refine ⟨fuel, m, ?_⟩
  rw [loadSegment, mmap, if_neg (not_not.mpr hstop), hcall]
  simp only [shortFile, bind, Except.bind, hret, if_false, pure, Except.pure, hptr]
  exact ⟨_, rfl, rfl⟩

theorem exists_stray {addr len : ℕ} (haddr : addr < 2 ^ 32) (hlen : len < 2 ^ 32) (hpos : 0 < len)
    (hwrap : 2 ^ 32 - pageSize < addr + len) :
    ∃ i < len, i < pageSize ∧ pageRoundUp (add32 addr len) ≤ add32 addr i := by
  by_cases hbelow : addr < pageRoundUp (add32 addr len)
  · refine ⟨pageRoundUp (add32 addr len) - addr, ?_⟩
    simp only [add32, pageRoundUp, pageRoundDn, pageSize] at *
    omega
  · have hadd : add32 addr 0 = addr := add32_eq haddr
    exact ⟨0, hpos, by decide, by omega⟩

/-- **Which headers are safe.**  `load_segment` fails or only maps and stores to user pages it has
mapped — exactly for the headers that are rejected, empty, or end far enough below `2^32`. -/
theorem load_segment_safe_iff (ph : ProgHdr) :
    (∀ fuel file m r, loadSegment fuel file ph m = .ok (0, r) → r.Safe) ↔ Accepted ph := by
  refine ⟨fun hsafe => ?_, fun hph fuel file m r h => safe_of_accepted hph h⟩
  by_contra hph
  simp only [Accepted, not_or, not_le] at hph
  obtain ⟨hnull, hempty, hwrap, hstop⟩ := hph
  have hpos : 0 < ph.memBytes.toNat :=
    Nat.pos_of_ne_zero fun h => hempty (UInt32.toNat.inj h)
  obtain ⟨i, hi, hip, hstray⟩ :=
    exists_stray ph.virtAddr.toNat_lt ph.memBytes.toNat_lt hpos hwrap
  obtain ⟨fuel, m, r, hload, hstores⟩ := loadSegment_shortFile (i + 1) ph hnull hstop
  have hw : (add32 ph.virtAddr.toNat i, 0) ∈ r.stores := by
    rw [hstores]
    refine mem_map.mpr ⟨(0, i), ?_, rfl⟩
    rw [mk_mem_zipIdx_iff_getElem?, getElem?_replicate, if_pos (by omega)]
  obtain ⟨va, hva, hlo, hhi⟩ := (hsafe _ _ _ _ hload).stores _ hw
  have hpage := (mem_pages ph.virtAddr.toNat_lt (loadSegment_eq_ok hload).1).mp hva
  have hmod : pageRoundUp (add32 ph.virtAddr.toNat ph.memBytes.toNat) % pageSize = 0 :=
    pageRoundDn_mod _
  simp only [pageSize] at *
  omega

/-- **A segment at the very end of the address space** maps no page at all, and
its first byte goes to `0xFFFFF000`, the address of the page directory. -/
theorem load_segment_stores_to_page_directory :
    ∃ fuel m r, loadSegment fuel (shortFile 1) ⟨0, 0xFFFFF000, 0x1000⟩ m = .ok (0, r) ∧
      r.pages = [] ∧ r.stores = [(0xFFFFF000, 0)] ∧ ¬ r.Safe := by
  obtain ⟨fuel, m, r, hload, hstores⟩ :=
    loadSegment_shortFile 1 ⟨0, 0xFFFFF000, 0x1000⟩ (by decide) (by decide)
  have hpages : r.pages = [] := by
    refine eq_nil_iff_forall_not_mem.mpr fun va hva => ?_
    have hpage := (mem_pages (by decide) (loadSegment_eq_ok hload).1).mp hva
    exact absurd hpage.2.2 (by exact Nat.not_lt_zero _)
  have hstores' : r.stores = [(0xFFFFF000, 0)] := hstores.trans (by decide)
  refine ⟨fuel, m, r, hload, hpages, hstores', fun hsafe => ?_⟩
  obtain ⟨va, hva, -⟩ := hsafe.stores (0xFFFFF000, 0) (by simp [hstores'])
  simp [hpages] at hva

end Exec
