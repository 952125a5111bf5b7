/-
The free page frames at boot (`pfa_init` of `mm/pfa.c`).

`_stage0_init` registers the memory there is: 640 KB of conventional memory and what
the BIOS has found above 1 MB.  `pfa_init` puts the frames on the list of free frames,
each linked through its own first word, at its address above `PFA_VIRT_OFFSET`.  At
first only 4 MB are mapped there, so it frees the conventional frames, takes page tables
from them for the rest of memory, and then goes on with the frames above 1 MB.

* `pfaInit` — the functions of the source; loads and stores go through the page tables
  that are being changed;
* `Window`, `Inv` — what the page tables map, and the list of free frames in memory;
* `pfa_init_safe` — what is on the list may be handed out, and each frame was mapped
  where it was written to when it was put there;
* `pfa_init_complete_iff` — the frame after the kernel image is lost, unless the image
  reaches up to the end of conventional memory.
-/
import Minima.Stage0

open Paging Stage0

namespace PfaInit

open Option (bind_some elim_none elim_some map_some some)
open List

/-! ### The source -/

/-- `struct region` -/
structure Region where
  start : ℕ
  pages : ℕ
  deriving DecidableEq, Repr

/-- `struct phys_region`; of `flags` only `PHYS_REGION_IGNORE` is ever set. -/
structure PhysRegion extends Region where
  reserved : ℕ
  ignore : Bool
  deriving DecidableEq, Repr

/-- Memory and the page tables, the list of free frames by the address of its first
frame, and the two tables of regions.  `pushes` records the calls of `pf_free`: the
address, and the physical address it was mapped to. -/
structure State where
  cpu : Cpu
  pageFreelist : ℕ
  physRegions : List PhysRegion
  sReserved : List Region
  pushes : List (ℕ × Option ℕ)

/-- `MAX_PHYS_REGIONS` and `MAX_RESVD_REGIONS` -/
def maxRegions : ℕ := 8

/-- `CONVENTIONAL_PAGES` -/
def conventionalPages : ℕ := 160

/-- `MEG_PAGES` -/
def megPages : ℕ := 256

/-- `s_reserved`: the null page, the page directory and the two page tables of stage 0,
the bootstrap stack and the buffer of the floppy driver -/
def staticReserved : List Region := [⟨0, 1⟩, ⟨1, 1⟩, ⟨2, 1⟩, ⟨3, 1⟩, ⟨4, 4⟩, ⟨8, 5⟩]

/-- `KERNEL_PHYS_ADDR`, where the kernel image starts -/
def kernelPhysicalStart : ℕ := 0xD000

namespace State

variable (s : State)

/-- A load through the page tables; one that is not mapped faults. -/
def load (va : ℕ) : Except Fault ℕ :=
  match s.cpu.translate va with
  | none => .error .nullPointer
  | some pa => .ok (s.cpu.mem pa)

/-- A store through the page tables. -/
def store (va v : ℕ) : Except Fault State :=
  match s.cpu.translate va with
  | none => .error .nullPointer
  | some pa => .ok { s with cpu := s.cpu.store pa v }

/-- `pf_alloc`, before there is anything to purge -/
def pfAlloc : Except Fault (ℕ × State) :=
  if s.pageFreelist = 0 then .ok (0, s)
  else do
    let next ← s.load s.pageFreelist
    return (s.pageFreelist, { s with pageFreelist := next })

/-- `pf_free` -/
def pfFree (page : ℕ) : Except Fault State := do
  let s' ← s.store page s.pageFreelist
  return { s' with
    pageFreelist := page, pushes := s.pushes ++ [(page, s.cpu.translate page)] }

/-- `is_reserved` -/
def isReserved (p : ℕ) : Bool := s.sReserved.any fun r => r.start ≤ p ∧ p ≤ r.start + r.pages

end State

/-- `region_overlaps` -/
def regionOverlaps (r : Region) (start pages : ℕ) : Bool :=
  (r.start ≤ start ∧ start < r.start + r.pages) ∨
    (r.start ≤ start + pages ∧ start + pages < r.start + r.pages)

/-- `pfa_register_reserved_region` -/
def pfaRegisterReservedRegion (start pages : ℕ) (s : State) : Except Fault (ℤ × State) :=
  if maxRegions ≤ s.sReserved.length then .ok (1, s)
  else if s.sReserved.any fun r => regionOverlaps r start pages then .error .panic
  else .ok (0, { s with sReserved := s.sReserved ++ [⟨start, pages⟩] })

/-- `pfa_register_region` -/
def pfaRegisterRegion (start pages : ℕ) (ignore : Bool) (s : State) : ℤ × State :=
  if maxRegions ≤ s.physRegions.length then (1, s)
  else (0, { s with physRegions := s.physRegions ++ [⟨⟨start, pages⟩, 0, ignore⟩] })

/-- `PFN_TO_PHYS(p) + PFA_VIRT_OFFSET` -/
def frameAddr (p : ℕ) : ℕ := add32 (p * pageSize) pfaVirtOffset

/-- The loop body of `map_phys_region`, for region `i`. -/
def mapFrame (i : ℕ) (s : State) (p : ℕ) : Except Fault State :=
  if s.isReserved p then
    .ok { s with
      physRegions := s.physRegions.modify i fun r => { r with reserved := r.reserved + 1 } }
  else if frameAddr p % pageSize ≠ 0 then .error .assertion
  else s.pfFree (frameAddr p)

/-- `map_phys_region(&phys_regions[i])` -/
def mapPhysRegion (i : ℕ) (s : State) : Except Fault State :=
  match s.physRegions[i]? with
  | none => .ok s
  | some r => (List.range' r.start r.pages).foldlM (mapFrame i) s

/-- `map_phys_regions` -/
def mapPhysRegions (s : State) : Except Fault State :=
  (List.range s.physRegions.length).foldlM (fun s i =>
    match s.physRegions[i]? with
    | none => .ok s
    | some r => if r.ignore then .ok s else mapPhysRegion i s) s

/-- `while ((f = f->next)) freelist_pages++`, for at most `fuel` frames -/
def countNext (s : State) : ℕ → ℕ → Except Fault ℕ
  | 0, _ => .error .diverged
  | fuel + 1, f => do
    let next ← s.load f
    if next = 0 then return 0
    let n ← countNext s fuel next
    return n + 1

/-- A page table from `pf_alloc`, with entries for the frames from `curPfn` on. -/
def makeTable (s : State) (curPfn : ℕ) : Except Fault (ℕ × State) := do
  let (page, s) ← s.pfAlloc
  let s ← (List.range 1024).foldlM (fun (s : State) j =>
    if curPfn + j = 0 then .error .assertion
    else s.store (page + 4 * j) (pageEntry (curPfn + j))) s
  return (page, s)

/-- The first loop over the page tables of `map_above_4_meg_freelist`. -/
def makeTables : ℕ → ℕ → State → Except Fault (List ℕ × State)
  | 0, _, s => .ok ([], s)
  | n + 1, curPfn, s => do
    let (page, s) ← makeTable s curPfn
    let (tables, s) ← makeTables n (curPfn + 1024) s
    return (page :: tables, s)

/-- The second: the tables go into the directory, from slot `slot` on. -/
def insertTables : List ℕ → ℕ → State → Except Fault State
  | [], _, s => .ok s
  | table :: tables, slot, s => do
    let s ← s.store (0xFFFFF000 + 4 * slot)
      (sub32 table pfaVirtOffset ||| pteWritable ||| ptePresent)
    insertTables tables (slot + 1) s

/-- `total_kb_above_1meg` -/
def totalKbAbove1Meg (regions : List PhysRegion) : ℕ :=
  regions.foldl (fun total r => if megPages ≤ r.start then total + r.pages <<< 2 else total) 0

/-- `page_tables_needed` -/
def pageTablesNeeded (pagesAbove1Meg : ℕ) : ℕ :=
  (pagesAbove1Meg - 3 * 1024 * 1024 / pageSize) / 1024 + 1

/-- `map_above_4_meg_freelist` -/
def mapAbove4MegFreelist (s : State) : Except Fault State :=
  let total := totalKbAbove1Meg s.physRegions
  if total + 1024 ≤ 4 * 1024 then .ok s
  else if s.pageFreelist = 0 then .error .assertion
  else do
    let (scratch, s) ← s.pfAlloc
    let freelistPages ← countNext s (2 ^ 20) s.pageFreelist
    let needed := pageTablesNeeded (total / 4)
    if freelistPages < needed then .error .assertion
    else if s.cpu.stage0LastMappedPfn ≠ 1024 then .error .assertion
    else do
      let (tables, s) ← makeTables needed s.cpu.stage0LastMappedPfn s
      let s ← insertTables tables (pfaVirtOffset / (4 * 1024 * 1024) + 1) s
      s.pfFree scratch

/-- `pfa_init` -/
def pfaInit (kernelPhysicalEnd : ℕ) (s : State) : Except Fault State := do
  let startPfn := pageRoundDn kernelPhysicalStart / pageSize
  let kernelPages := lastPage kernelPhysicalEnd - startPfn
  let (_, s) ← pfaRegisterReservedRegion (kernelPhysicalStart / pageSize) kernelPages s
  let s ← mapPhysRegion 0 s
  let s ← mapAbove4MegFreelist s
  mapPhysRegions s

/-- `_stage0_init`, up to the jump to stage 1, with anything in memory -/
def stage0Init (memKb : UInt16) (kernelPhysicalEnd : ℕ) (c : Cpu) : State :=
  let s : State := ⟨setUpStage0PageTables kernelPhysicalEnd c, 0, [], staticReserved, []⟩
  let (_, s) := pfaRegisterRegion 0 conventionalPages true s
  let (_, s) := pfaRegisterRegion conventionalPages (megPages - conventionalPages) true s
  let (_, s) := pfaRegisterRegion (1024 * 1024 / pageSize) (memKb.toNat >>> 2) false s
  s

/-! ### What is asked of the list -/

/-- The frames of the list that starts at the address `ptr`, each at its address above
`PFA_VIRT_OFFSET`. -/
def IsFreelist (s : State) : List ℕ → ℕ → Prop
  | [], ptr => ptr = 0
  | p :: l, ptr => ptr = p * pageSize + pfaVirtOffset ∧
      ∃ next, s.load ptr = .ok next ∧ IsFreelist s l next

/-- The frame is in use as a page directory or page table. -/
def IsPageTable (c : Cpu) (p : ℕ) : Prop :=
  ∃ i < 1024, target (c.mem (c.cr3 + 4 * i)) = some (p * pageSize)

def Region.Contains (r : Region) (p : ℕ) : Prop := r.start ≤ p ∧ p < r.start + r.pages

instance (r : Region) (p : ℕ) : Decidable (r.Contains p) := inferInstanceAs (Decidable (_ ∧ _))

/-- The frame is in a reserved region, which is half-open as in `region_overlaps`. -/
def inReserved (regions : List Region) (p : ℕ) : Bool := regions.any fun r => r.Contains p

/-- The frames that there are to hand out. -/
def InMemory (memKb : UInt16) (p : ℕ) : Prop :=
  (Region.mk 0 conventionalPages).Contains p ∨ (Region.mk megPages (memKb.toNat >>> 2)).Contains p

/-- **Safety**: what is on the list may be handed out, and each frame was mapped at its
address when it was put there. -/
def Safe (memKb : UInt16) (s : State) : Prop :=
  ∃ l, IsFreelist s l s.pageFreelist ∧ l.Nodup ∧
    (∀ p ∈ l, InMemory memKb p ∧ inReserved s.sReserved p = false ∧ ¬ IsPageTable s.cpu p) ∧
    ∀ x ∈ s.pushes, ∃ p, x = (p * pageSize + pfaVirtOffset, some (p * pageSize))

/-- **Completeness**: every frame that is not reserved is on the list or has become a page
table, and the regions know how many of their frames are reserved. -/
def Complete (memKb : UInt16) (s : State) : Prop :=
  (∀ p, InMemory memKb p → inReserved s.sReserved p = false →
    (∃ l, IsFreelist s l s.pageFreelist ∧ p ∈ l) ∨ IsPageTable s.cpu p) ∧
  ∀ r ∈ s.physRegions,
    r.reserved = (List.range' r.start r.pages).countP (inReserved s.sReserved)

/-! ### The window at `PFA_VIRT_OFFSET` -/

variable {c : Cpu} {s s' : State} {tabs l : List ℕ} {p t a off : ℕ}

/-- The page directory with the frames `tabs` as page tables after the one of stage 0. -/
def dirEntry (tabs : List ℕ) (i : ℕ) : ℕ :=
  if 833 ≤ i then (tabs[i - 833]?).elim (directoryEntry i) pageEntry else directoryEntry i

/-- The page tables map the first frames, 1024 for each table, one after the other at
`PFA_VIRT_OFFSET`, and the directory at `0xFFFFF000`; the null page is not mapped. -/
structure Window (c : Cpu) (tabs : List ℕ) : Prop where
  cr3 : c.cr3 = stage0PdAddr
  paging : c.paging = true
  dir : ∀ i < 1024, c.mem (stage0PdAddr + 4 * i) = dirEntry tabs i
  null : c.mem stage0Pt1Addr = 0
  table2 : ∀ i < 1024, c.mem (stage0Pt2Addr + 4 * i) = pageEntry i
  tables : ∀ i t, tabs[i]? = some t →
    ∀ j < 1024, c.mem (t * pageSize + 4 * j) = pageEntry (1024 * (i + 1) + j)
  few : tabs.length ≤ 16
  apart : ∀ t ∈ tabs, t ≠ 1

/-- The number of frames that are mapped. -/
def mapped (tabs : List ℕ) : ℕ := 1024 * (tabs.length + 1)

/-- The frames of the directory and the page tables. -/
def tableFrames (tabs : List ℕ) : List ℕ := 1 :: 2 :: 3 :: tabs

theorem frameAddr_eq (htabs : tabs.length ≤ 16) (hp : p < mapped tabs) :
    frameAddr p = p * 4096 + pfaVirtOffset := by
  simp only [mapped] at hp
  rw [frameAddr, pageSize, add32_eq (by simp only [pfaVirtOffset]; omega)]

namespace Window

section

variable (h : Window c tabs)
include h

theorem translate_frame (hp : p < mapped tabs) (hoff : off < 4096) :
    c.translate (p * 4096 + pfaVirtOffset + off) = some (p * 4096 + off) := by
  have hfew := h.few
  simp only [mapped] at hp
  have hpd : vaPdIdx (p * 4096 + pfaVirtOffset + off) = 832 + p / 1024 := by
    simp only [vaPdIdx, pfaVirtOffset]
    omega
  have hpt : vaPtIdx (p * 4096 + pfaVirtOffset + off) = p % 1024 := by
    simp only [vaPtIdx, pfaVirtOffset]
    omega
  have hoff' : (p * 4096 + pfaVirtOffset + off) % pageSize = off := by
    simp only [pageSize, pfaVirtOffset]
    omega
  have hptlt : p % 1024 < 1024 := Nat.mod_lt _ (by decide)
  rw [Cpu.translate, if_pos h.paging, h.cr3, hpd, hpt, hoff', h.dir _ (by omega)]
  by_cases hlow : p / 1024 = 0
  · -- the table of stage 0
    have hentry : target (dirEntry tabs (832 + p / 1024)) = some stage0Pt2Addr := by
      rw [hlow, dirEntry, if_neg (by decide), target_directoryEntry]
      rfl
    rw [hentry, bind_some, h.table2 _ hptlt, target_pageEntry, map_some, pageSize,
      show p % 1024 = p by omega]
  · obtain ⟨i, hi⟩ : ∃ i, p / 1024 = i + 1 := ⟨p / 1024 - 1, by omega⟩
    have hlt : i < tabs.length := by omega
    have hget : tabs[i]? = some (tabs[i]) := getElem?_eq_getElem hlt
    have hentry : target (dirEntry tabs (832 + p / 1024)) = some (tabs[i] * pageSize) := by
      rw [dirEntry, if_pos (by omega), show 832 + p / 1024 - 833 = i by omega, hget,
        elim_some, target_pageEntry]
    rw [hentry, bind_some, h.tables i _ hget _ hptlt, target_pageEntry, map_some,
      pageSize, show 1024 * (i + 1) + p % 1024 = p by omega]

theorem translate_frameAddr (hp : p < mapped tabs) :
    c.translate (frameAddr p) = some (p * 4096) := by
  have hfirst := h.translate_frame hp (show 0 < 4096 by decide)
  rwa [Nat.add_zero, Nat.add_zero, ← frameAddr_eq h.few hp] at hfirst

theorem translate_dir {i : ℕ} (hi : i < 1024) :
    c.translate (0xFFFFF000 + 4 * i) = some (stage0PdAddr + 4 * i) := by
  have hfew := h.few
  have hself : target (dirEntry tabs 1023) = some stage0PdAddr := by
    rw [dirEntry, if_pos (by decide), getElem?_eq_none (by omega), elim_none,
      target_directoryEntry]
    rfl
  have hpd : vaPdIdx (0xFFFFF000 + 4 * i) = 1023 := by
    simp only [vaPdIdx]
    omega
  have hpt : vaPtIdx (0xFFFFF000 + 4 * i) = 1023 := by
    simp only [vaPtIdx]
    omega
  have hoff : (0xFFFFF000 + 4 * i) % pageSize = 4 * i := by
    simp only [pageSize]
    omega
  rw [Cpu.translate, if_pos h.paging, h.cr3, hpd, hpt, hoff, h.dir _ (by decide), hself,
    bind_some, h.dir _ (by decide), hself, map_some]

theorem store (ha : a / 4096 ∉ tableFrames tabs) (v : ℕ) :
    Window (c.store a v) tabs := by
  have hne : ∀ t ∈ tableFrames tabs, ∀ j < 1024, t * 4096 + 4 * j ≠ a := by
    rintro t ht j hj rfl
    refine ha ?_
    rwa [show (t * 4096 + 4 * j) / 4096 = t by omega]
  refine ⟨h.cr3, h.paging, fun i hi => ?_, ?_, fun i hi => ?_, fun i t ht j hj => ?_, h.few,
    h.apart⟩
  · have hword : stage0PdAddr + 4 * i ≠ a := hne 1 (by simp [tableFrames]) i hi
    rw [store_mem, if_neg hword]
    exact h.dir i hi
  · have hword : stage0Pt1Addr ≠ a := hne 2 (by simp [tableFrames]) 0 (by decide)
    rw [store_mem, if_neg hword]
    exact h.null
  · have hword : stage0Pt2Addr + 4 * i ≠ a := hne 3 (by simp [tableFrames]) i hi
    rw [store_mem, if_neg hword]
    exact h.table2 i hi
  · have hmem : t ∈ tableFrames tabs := by simp [tableFrames, mem_of_getElem? ht]
    have hword : t * pageSize + 4 * j ≠ a := hne t hmem j hj
    rw [store_mem, if_neg hword]
    exact h.tables i t ht j hj

end

end Window

/-! ### The list of free frames -/

/-- The frames of the list are linked one after the other, from the address `ptr` on. -/
def Linked (mem : ℕ → ℕ) : List ℕ → ℕ → Prop
  | [], ptr => ptr = 0
  | p :: l, ptr => ptr = frameAddr p ∧ Linked mem l (mem (p * 4096))

theorem Linked.congr {mem mem' : ℕ → ℕ} {ptr : ℕ} (h : Linked mem l ptr)
    (hmem : ∀ p ∈ l, mem' (p * 4096) = mem (p * 4096)) : Linked mem' l ptr := by
  induction l generalizing ptr with
  | nil => exact h
  | cons p l ih =>
    refine ⟨h.1, ?_⟩
    rw [hmem p mem_cons_self]
    exact ih h.2 fun q hq => hmem q (mem_cons_of_mem _ hq)

/-- The invariant: the window, and the free frames `l`, none of which it rests on. -/
structure Inv (s : State) (tabs l : List ℕ) : Prop where
  window : Window s.cpu tabs
  linked : Linked s.cpu.mem l s.pageFreelist
  nodup : l.Nodup
  frames : ∀ p ∈ l, p < mapped tabs ∧ p ∉ tableFrames tabs
  pushed : ∀ x ∈ s.pushes, ∃ p, x = (p * pageSize + pfaVirtOffset, some (p * pageSize))

/-- What neither the list nor the page tables have to do with. -/
structure Same (s s' : State) : Prop where
  physRegions : s'.physRegions = s.physRegions
  sReserved : s'.sReserved = s.sReserved
  lastMapped : s'.cpu.stage0LastMappedPfn = s.cpu.stage0LastMappedPfn

theorem Same.trans {s s1 s2 : State} (h1 : Same s s1) (h2 : Same s1 s2) : Same s s2 :=
  ⟨h2.1.trans h1.1, h2.2.trans h1.2, h2.3.trans h1.3⟩

theorem frameAddr_ne_zero (htabs : tabs.length ≤ 16) (hp : p < mapped tabs) :
    frameAddr p ≠ 0 := by
  rw [frameAddr_eq htabs hp, pfaVirtOffset]
  omega

theorem Window.load_frameAddr (h : Window s.cpu tabs) (hp : p < mapped tabs) :
    s.load (frameAddr p) = .ok (s.cpu.mem (p * 4096)) := by
  rw [State.load, h.translate_frameAddr hp]

namespace Inv

theorem store (h : Inv s tabs l) (ha : a / 4096 ∉ tableFrames tabs)
    (hfree : ∀ p ∈ l, p * 4096 ≠ a) (v : ℕ) :
    Inv { s with cpu := s.cpu.store a v } tabs l := by
  refine ⟨h.window.store ha v, h.linked.congr fun p hp => ?_, h.nodup, h.frames, h.pushed⟩
  rw [store_mem, if_neg (hfree p hp)]

theorem pfFree_ok (h : Inv s tabs l) (hp : p < mapped tabs) (htab : p ∉ tableFrames tabs)
    (hfree : p ∉ l) :
    ∃ s', s.pfFree (frameAddr p) = .ok s' ∧ Inv s' tabs (p :: l) ∧ Same s s' := by
  have htrans := h.window.translate_frameAddr hp
  have hother : ∀ q ∈ l, q * 4096 ≠ p * 4096 := by
    intro q hq heq
    exact hfree ((show q = p by omega) ▸ hq)
  have hinv := h.store (by rwa [Nat.mul_div_cancel _ (by decide)]) hother
    s.pageFreelist
  refine ⟨{ s with
    cpu := s.cpu.store (p * 4096) s.pageFreelist, pageFreelist := frameAddr p,
    pushes := s.pushes ++ [(frameAddr p, some (p * 4096))] }, ?_, ?_, rfl, rfl, rfl⟩
  · simp only [State.pfFree, State.store, htrans]
    rfl
  · refine ⟨hinv.window, ⟨rfl, ?_⟩, nodup_cons.mpr ⟨hfree, h.nodup⟩, ?_, ?_⟩
    · have hword : (s.cpu.store (p * 4096) s.pageFreelist).mem (p * 4096) = s.pageFreelist := by
        rw [store_mem, if_pos rfl]
      rw [hword]
      exact hinv.linked
    · intro q hq
      rcases mem_cons.mp hq with rfl | hq
      · exact ⟨hp, htab⟩
      · exact h.frames q hq
    · intro x hx
      rcases mem_append.mp hx with hx | hx
      · exact h.pushed x hx
      · rw [mem_singleton.mp hx, frameAddr_eq h.window.few hp]
        exact ⟨p, rfl⟩

theorem pfAlloc_ok (h : Inv s tabs (p :: l)) :
    ∃ next, s.pfAlloc = .ok (frameAddr p, { s with pageFreelist := next }) ∧
      Inv { s with pageFreelist := next } tabs l := by
  obtain ⟨hp, -⟩ := h.frames p mem_cons_self
  have hptr : s.pageFreelist = frameAddr p := h.linked.1
  refine ⟨s.cpu.mem (p * 4096), ?_, h.window, h.linked.2, (nodup_cons.mp h.nodup).2,
    fun q hq => h.frames q (mem_cons_of_mem _ hq), h.pushed⟩
  rw [State.pfAlloc, hptr, if_neg (frameAddr_ne_zero h.window.few hp),
    h.window.load_frameAddr hp]
  rfl

end Inv

/-! ### The regions -/

theorem isReserved_congr (h : Same s s') (p : ℕ) : s'.isReserved p = s.isReserved p := by
  rw [State.isReserved, h.sReserved, State.isReserved]

/-- Region `i` with `n` more reserved frames. -/
def reserve (i n : ℕ) (regions : List PhysRegion) : List PhysRegion :=
  regions.modify i fun r => { r with reserved := r.reserved + n }

theorem reserve_zero (i : ℕ) (regions : List PhysRegion) : reserve i 0 regions = regions :=
  modify_id _ _

theorem reserve_reserve (i m n : ℕ) (regions : List PhysRegion) :
    reserve i n (reserve i m regions) = reserve i (n + m) regions := by
  rw [reserve, reserve, reserve, modify_modify_eq]
  congr 1
  funext r
  simp only [Function.comp_apply, Nat.add_assoc, Nat.add_comm n m]

/-- **One region**: its frames go on the list, except for those that count as reserved. -/
theorem foldlM_mapFrame (i : ℕ) {ps : List ℕ} (hps : ps.Nodup) (hnew : ∀ p ∈ ps, p ∉ l)
    (hmapped : ∀ p ∈ ps, p < mapped tabs)
    (htab : ∀ p ∈ ps, s.isReserved p = false → p ∉ tableFrames tabs) (h : Inv s tabs l) :
    ∃ s', ps.foldlM (mapFrame i) s = .ok s' ∧
      Inv s' tabs ((ps.filter fun p => !s.isReserved p).reverse ++ l) ∧
      s'.physRegions = reserve i (ps.countP s.isReserved) s.physRegions ∧
      s'.sReserved = s.sReserved ∧
      s'.cpu.stage0LastMappedPfn = s.cpu.stage0LastMappedPfn := by
  induction ps generalizing s l with
  | nil => exact ⟨s, rfl, h, (reserve_zero i _).symm, rfl, rfl⟩
  | cons p ps ih =>
    obtain ⟨hp, hps⟩ := nodup_cons.mp hps
    have hlater : ∀ q ∈ ps, q ∈ p :: ps := fun q hq => mem_cons_of_mem _ hq
    rw [foldlM_cons]
    cases hres : s.isReserved p with
    | true =>
      have hstep : mapFrame i s p =
          .ok { s with physRegions := reserve i 1 s.physRegions } := by
        rw [mapFrame, if_pos hres]
        rfl
      obtain ⟨s', hrun, hinv, hregions, hrest⟩ := ih (s := { s with
          physRegions := reserve i 1 s.physRegions }) hps (fun q hq => hnew q (hlater q hq))
        (fun q hq => hmapped q (hlater q hq)) (fun q hq => htab q (hlater q hq))
        ⟨h.window, h.linked, h.nodup, h.frames, h.pushed⟩
      refine ⟨s', ?_, ?_, ?_, hrest⟩
      · rw [hstep]
        exact hrun
      · rw [filter_cons_of_neg (by simp [hres])]
        exact hinv
      · rw [hregions, reserve_reserve, countP_cons_of_pos hres]
        rfl
    | false =>
      have hlt := hmapped p mem_cons_self
      obtain ⟨s1, hfree, hinv1, hsame⟩ :=
        h.pfFree_ok hlt (htab p mem_cons_self hres) (hnew p mem_cons_self)
      have haligned : frameAddr p % pageSize = 0 := by
        rw [frameAddr_eq h.window.few hlt, pageSize, pfaVirtOffset]
        omega
      have hstep : mapFrame i s p = .ok s1 := by
        rw [mapFrame, if_neg (by simp [hres]), if_neg (not_not.mpr haligned), hfree]
      have hres1 : s1.isReserved = s.isReserved := funext (isReserved_congr hsame)
      have hnew1 : ∀ q ∈ ps, q ∉ p :: l := by
        intro q hq hmem
        rcases mem_cons.mp hmem with rfl | hmem
        · exact hp hq
        · exact hnew q (hlater q hq) hmem
      obtain ⟨s', hrun, hinv, hregions, hreserved, hlast⟩ := ih hps hnew1
        (fun q hq => hmapped q (hlater q hq))
        (fun q hq => hres1 ▸ htab q (hlater q hq)) hinv1
      rw [hres1] at hinv hregions
      refine ⟨s', ?_, ?_, ?_, hreserved.trans hsame.sReserved, hlast.trans hsame.lastMapped⟩
      · rw [hstep]
        exact hrun
      · rw [filter_cons_of_pos (by simp [hres]), reverse_cons, append_assoc]
        exact hinv
      · rw [hregions, hsame.physRegions, countP_cons_of_neg (by simp [hres])]

/-! ### The page tables for the memory above 4 MB -/

variable {fuel n : ℕ}

theorem countNext_succ {f next : ℕ} (hload : s.load f = .ok next) (hne : next ≠ 0)
    (hrest : countNext s fuel next = .ok n) : countNext s (fuel + 1) f = .ok (n + 1) := by
  rw [countNext, hload]
  show (if next = 0 then _ else countNext s fuel next >>= _) = _
  rw [if_neg hne, hrest]
  rfl

theorem countNext_eq (h : Window s.cpu tabs) (hp : p < mapped tabs)
    (hlinked : Linked s.cpu.mem l (s.cpu.mem (p * 4096))) (hl : ∀ q ∈ l, q < mapped tabs)
    (hfuel : l.length < fuel) : countNext s fuel (frameAddr p) = .ok l.length := by
  induction l generalizing p fuel with
  | nil =>
    obtain ⟨fuel, rfl⟩ : ∃ k, fuel = k + 1 := ⟨fuel - 1, by omega⟩
    have hend : s.cpu.mem (p * 4096) = 0 := hlinked
    rw [countNext, h.load_frameAddr hp, hend]
    rfl
  | cons q l ih =>
    rw [length_cons] at hfuel
    obtain ⟨fuel, rfl⟩ : ∃ k, fuel = k + 1 := ⟨fuel - 1, by omega⟩
    obtain ⟨hnext, hlinked⟩ := hlinked
    have hq := hl q mem_cons_self
    have hrest := ih hq hlinked (fun r hr => hl r (mem_cons_of_mem _ hr))
      (show l.length < fuel by omega)
    exact countNext_succ ((h.load_frameAddr hp).trans (congrArg _ hnext))
      (frameAddr_ne_zero h.few hq) hrest

theorem fill_lastMapped (table n : ℕ) (val : ℕ → ℕ) (c : Cpu) :
    (fill table n val c).stage0LastMappedPfn = c.stage0LastMappedPfn := by
  rw [fill]
  induction List.range n generalizing c with
  | nil => rfl
  | cons p ps ih => exact ih (c.store (table + 4 * p) (val p))

theorem Inv.countNext_ok (h : Inv s tabs (p :: l)) (hfuel : l.length < fuel) :
    countNext s fuel s.pageFreelist = .ok l.length := by
  rw [show s.pageFreelist = frameAddr p from h.linked.1]
  exact countNext_eq h.window (h.frames p mem_cons_self).1 h.linked.2
    (fun q hq => (h.frames q (mem_cons_of_mem _ hq)).1) hfuel

variable {curPfn : ℕ}

theorem fillTable (h : Inv s tabs l) (ht : t < mapped tabs) (htab : t ∉ tableFrames tabs)
    (hfree : t ∉ l) (hcur : 0 < curPfn) (hn : n ≤ 1024) :
    (List.range n).foldlM (fun (s : State) j =>
        if curPfn + j = 0 then .error .assertion
        else s.store (frameAddr t + 4 * j) (pageEntry (curPfn + j))) s =
      .ok { s with cpu := fill (t * 4096) n (fun j => pageEntry (curPfn + j)) s.cpu } ∧
    Inv { s with cpu := fill (t * 4096) n (fun j => pageEntry (curPfn + j)) s.cpu } tabs l := by
  induction n with
  | zero => exact ⟨rfl, h⟩
  | succ n ih =>
    obtain ⟨hrun, hinv⟩ := ih (by omega)
    have hfill : fill (t * 4096) (n + 1) (fun j => pageEntry (curPfn + j)) s.cpu =
        (fill (t * 4096) n (fun j => pageEntry (curPfn + j)) s.cpu).store (t * 4096 + 4 * n)
          (pageEntry (curPfn + n)) := by
      rw [fill, range_succ, foldl_append, foldl_cons, foldl_nil, fill]
    have hword := hinv.window.translate_frame ht (show 4 * n < 4096 by omega)
    rw [← frameAddr_eq h.window.few ht] at hword
    rw [hfill]
    constructor
    · rw [range_succ, foldlM_append, hrun]
      show (if curPfn + n = 0 then _ else State.store _ _ _) >>= _ = _
      rw [if_neg (by omega), State.store, hword]
      rfl
    · refine hinv.store ?_ ?_ _
      · rwa [show (t * 4096 + 4 * n) / 4096 = t by omega]
      · intro p hp heq
        exact hfree ((show p = t by omega) ▸ hp)

/-- The entries of the page table in frame `t` are for the frames from `base` on. -/
def Filled (mem : ℕ → ℕ) (t base : ℕ) : Prop :=
  ∀ j < 1024, mem (t * pageSize + 4 * j) = pageEntry (base + j)

theorem Inv.makeTable_ok (h : Inv s tabs (t :: l)) (hcur : 0 < curPfn) :
    ∃ s', makeTable s curPfn = .ok (frameAddr t, s') ∧ Inv s' tabs l ∧ Same s s' ∧
      Filled s'.cpu.mem t curPfn ∧
      ∀ a, a / 4096 ≠ t → s'.cpu.mem a = s.cpu.mem a := by
  obtain ⟨ht, htab⟩ := h.frames t mem_cons_self
  obtain ⟨next, halloc, hinv⟩ := h.pfAlloc_ok
  obtain ⟨hrun, hinv'⟩ :=
    fillTable hinv ht htab (nodup_cons.mp h.nodup).1 hcur (le_refl 1024)
  obtain ⟨hin, hout⟩ := fill_mem (t * 4096) 1024 (fun j => pageEntry (curPfn + j)) s.cpu
  have hlast := fill_lastMapped (t * 4096) 1024 (fun j => pageEntry (curPfn + j)) s.cpu
  generalize fill (t * 4096) 1024 (fun j => pageEntry (curPfn + j)) s.cpu = c'
    at hrun hinv' hin hout hlast
  refine ⟨_, ?_, hinv', ⟨rfl, rfl, hlast⟩, hin, fun a ha => hout a ?_⟩
  · exact bind_eq_ok.mpr ⟨_, halloc, bind_eq_ok.mpr ⟨_, hrun, rfl⟩⟩
  · intro j hj heq
    omega

variable {ts : List ℕ}

theorem Inv.makeTables_ok (h : Inv s tabs (ts ++ l)) (hcur : 0 < curPfn) :
    ∃ s', makeTables ts.length curPfn s = .ok (ts.map frameAddr, s') ∧ Inv s' tabs l ∧ Same s s' ∧
      (∀ i t, ts[i]? = some t → Filled s'.cpu.mem t (curPfn + 1024 * i)) ∧
      ∀ a, a / 4096 ∉ ts → s'.cpu.mem a = s.cpu.mem a := by
  induction ts generalizing s curPfn with
  | nil => exact ⟨s, rfl, h, ⟨rfl, rfl, rfl⟩, fun i t ht => by simp at ht, fun _ _ => rfl⟩
  | cons t ts ih =>
    obtain ⟨s1, hrun1, hinv1, hsame1, hfilled, hframe1⟩ := h.makeTable_ok hcur
    obtain ⟨s2, hrun2, hinv2, hsame2, hrest, hframe2⟩ :=
      ih hinv1 (show 0 < curPfn + 1024 by omega)
    have hnot : t ∉ ts := by
      intro hmem
      exact (nodup_cons.mp h.nodup).1 (mem_append_left _ hmem)
    refine ⟨s2, ?_, hinv2, hsame1.trans hsame2, fun i u hu => ?_, fun a ha => ?_⟩
    · exact bind_eq_ok.mpr ⟨_, hrun1, bind_eq_ok.mpr ⟨_, hrun2, rfl⟩⟩
    · cases i with
      | zero =>
        -- the later tables are in other frames
        obtain rfl : t = u := by simpa using hu
        intro j hj
        rw [hframe2 _ (by rwa [pageSize, show (t * 4096 + 4 * j) / 4096 = t by omega])]
        exact hfilled j hj
      | succ i =>
        have := hrest i u (by simpa using hu)
        rwa [show curPfn + 1024 * (i + 1) = curPfn + 1024 + 1024 * i by omega]
    · obtain ⟨hne, hmem⟩ := not_or.mp (mt mem_cons.mpr ha)
      rw [hframe2 a hmem, hframe1 a hne]

theorem sub32_frame (ht : t < 1024 * 17) :
    sub32 (t * 4096 + pfaVirtOffset) pfaVirtOffset = t * 4096 := by
  simp only [sub32, pfaVirtOffset]
  omega

theorem dirEntry_append (hlen : tabs.length < 16) {i : ℕ} (hi : i < 1024) :
    dirEntry (tabs ++ [t]) i = if i = 833 + tabs.length then pageEntry t else dirEntry tabs i := by
  by_cases hlow : 833 ≤ i
  · rw [dirEntry, dirEntry, if_pos hlow, if_pos hlow]
    rcases lt_trichotomy (i - 833) tabs.length with hlt | heq | hgt
    · rw [getElem?_append_left hlt, if_neg (by omega)]
    · rw [heq, getElem?_concat_length, if_pos (by omega), elim_some]
    · rw [getElem?_eq_none (by simp; omega), getElem?_eq_none (by omega),
        if_neg (by omega)]
  · rw [dirEntry, dirEntry, if_neg hlow, if_neg hlow, if_neg (by omega)]

theorem Window.insert (h : Window c tabs) (hlen : tabs.length < 16) (ht : t ≠ 1)
    (hfilled : Filled c.mem t (1024 * (tabs.length + 1))) :
    Window (c.store (stage0PdAddr + 4 * (833 + tabs.length)) (pageEntry t)) (tabs ++ [t]) := by
  -- the other tables are in other frames
  have hother : ∀ u ≠ 1, ∀ j < 1024,
      u * 4096 + 4 * j ≠ stage0PdAddr + 4 * (833 + tabs.length) := by
    intro u hu j hj
    rw [stage0PdAddr]
    omega
  refine ⟨h.cr3, h.paging, fun i hi => ?_, ?_, fun i hi => ?_, fun i u hu j hj => ?_, ?_, ?_⟩
  · have hslot : stage0PdAddr + 4 * i = stage0PdAddr + 4 * (833 + tabs.length) ↔
        i = 833 + tabs.length := by omega
    rw [store_mem, dirEntry_append hlen hi, h.dir i hi]
    simp only [hslot]
  · have hword : stage0Pt1Addr ≠ stage0PdAddr + 4 * (833 + tabs.length) :=
      hother 2 (by decide) 0 (by decide)
    rw [store_mem, if_neg hword]
    exact h.null
  · have hword : stage0Pt2Addr + 4 * i ≠ stage0PdAddr + 4 * (833 + tabs.length) :=
      hother 3 (by decide) i hi
    rw [store_mem, if_neg hword]
    exact h.table2 i hi
  · have hmem : u ∈ tabs ++ [t] := mem_of_getElem? hu
    have hne : u ≠ 1 := by
      rcases mem_append.mp hmem with hmem | hmem
      · exact h.apart u hmem
      · rwa [mem_singleton.mp hmem]
    have hword : u * pageSize + 4 * j ≠ stage0PdAddr + 4 * (833 + tabs.length) :=
      hother u hne j hj
    rw [store_mem, if_neg hword]
    rcases lt_trichotomy i tabs.length with hlt | rfl | hgt
    · exact h.tables i u (by rwa [getElem?_append_left hlt] at hu) j hj
    · rw [getElem?_concat_length, some.injEq] at hu
      exact hu ▸ hfilled j hj
    · rw [getElem?_eq_none (by simp; omega)] at hu
      cases hu
  · simp only [length_append, length_singleton]
    omega
  · intro u hu
    rcases mem_append.mp hu with hu | hu
    · exact h.apart u hu
    · rwa [mem_singleton.mp hu]

theorem Inv.insertTable_ok (h : Inv s tabs l) (hlen : tabs.length < 16) (ht : t ≠ 1) (hfree : t ∉ l)
    (hlt : t < mapped tabs) (hfilled : Filled s.cpu.mem t (1024 * (tabs.length + 1))) :
    ∃ s', s.store (0xFFFFF000 + 4 * (833 + tabs.length))
        (sub32 (frameAddr t) pfaVirtOffset ||| pteWritable ||| ptePresent) = .ok s' ∧
      Inv s' (tabs ++ [t]) l ∧ Same s s' ∧ ∀ a, a / 4096 ≠ 1 → s'.cpu.mem a = s.cpu.mem a := by
  have hslot := h.window.translate_dir (show 833 + tabs.length < 1024 by omega)
  have hentry : sub32 (frameAddr t) pfaVirtOffset ||| pteWritable ||| ptePresent =
      pageEntry t := by
    rw [frameAddr_eq h.window.few hlt, pageEntry, pageSize,
      sub32_frame (lt_of_lt_of_le hlt (by simp only [mapped]; omega))]
  have houtside : ∀ a, a / 4096 ≠ 1 → (s.cpu.store (stage0PdAddr + 4 * (833 + tabs.length))
      (pageEntry t)).mem a = s.cpu.mem a := by
    intro a ha
    rw [store_mem, if_neg]
    rintro rfl
    simp only [stage0PdAddr] at ha
    omega
  refine ⟨{ s with cpu := s.cpu.store (stage0PdAddr + 4 * (833 + tabs.length)) (pageEntry t) },
    ?_, ⟨h.window.insert hlen ht hfilled, h.linked.congr fun p hp => houtside _ ?_, h.nodup,
      fun p hp => ?_, h.pushed⟩, ⟨rfl, rfl, rfl⟩, houtside⟩
  · rw [State.store, hslot, hentry]
  · have hne : p ≠ 1 := by
      rintro rfl
      exact (h.frames 1 hp).2 (by simp [tableFrames])
    rwa [Nat.mul_div_cancel _ (by decide)]
  · obtain ⟨hpm, hpt⟩ := h.frames p hp
    constructor
    · simp only [mapped, length_append, length_singleton] at hpm ⊢
      omega
    · intro hmem
      have hor : p ∈ tableFrames tabs ∨ p = t := by
        simpa [tableFrames, or_assoc] using hmem
      rcases hor with hmem | rfl
      · exact hpt hmem
      · exact hfree hp

theorem Inv.insertTables_ok (h : Inv s tabs l) (hlen : tabs.length + ts.length ≤ 16)
    (hts : ∀ t ∈ ts, t ≠ 1 ∧ t ∉ l ∧ t < mapped tabs) (hfilled : ∀ i t, ts[i]? = some t →
      Filled s.cpu.mem t (1024 * (tabs.length + 1) + 1024 * i)) :
    ∃ s', insertTables (ts.map frameAddr) (833 + tabs.length) s = .ok s' ∧
      Inv s' (tabs ++ ts) l ∧ Same s s' := by
  induction ts generalizing s tabs with
  | nil => exact ⟨s, rfl, by rwa [append_nil], rfl, rfl, rfl⟩
  | cons t ts ih =>
    rw [length_cons] at hlen
    obtain ⟨hne, hfree, hlt⟩ := hts t mem_cons_self
    obtain ⟨s1, hrun1, hinv1, hsame1, hframe⟩ :=
      h.insertTable_ok (by omega) hne hfree hlt (hfilled 0 t rfl)
    have hlen1 : (tabs ++ [t]).length = tabs.length + 1 := length_append
    have hts1 : ∀ u ∈ ts, u ≠ 1 ∧ u ∉ l ∧ u < mapped (tabs ++ [t]) := by
      intro u hu
      obtain ⟨hu1, hu2, hu3⟩ := hts u (mem_cons_of_mem _ hu)
      refine ⟨hu1, hu2, ?_⟩
      simp only [mapped, hlen1] at hu3 ⊢
      omega
    obtain ⟨s2, hrun2, hinv2, hsame2⟩ := ih hinv1 (by omega) hts1 fun i u hu j hj => by
      have hmem : u ∈ t :: ts := mem_cons_of_mem _ (mem_of_getElem? hu)
      have hu1 := (hts u hmem).1
      rw [hframe _ (by rw [pageSize]; omega), hlen1,
        hfilled (i + 1) u (by simpa using hu) j hj]
      congr 1
      omega
    refine ⟨s2, bind_eq_ok.mpr ⟨s1, hrun1, ?_⟩, ?_, hsame1.trans hsame2⟩
    · rw [hlen1] at hrun2
      exact hrun2
    · rw [append_assoc] at hinv2
      exact hinv2

theorem Window.load_null (h : Window s.cpu tabs) : s.load 0 = .error .nullPointer := by
  have hslot : target (s.cpu.mem (s.cpu.cr3 + 4 * vaPdIdx 0)) = some stage0Pt1Addr := by
    rw [h.cr3, show vaPdIdx 0 = 0 by decide, h.dir 0 (by decide), dirEntry, if_neg (by decide),
      target_directoryEntry]
    rfl
  have hentry : target (s.cpu.mem (stage0Pt1Addr + 4 * vaPtIdx 0)) = none := by
    rw [show vaPtIdx 0 = 0 by decide, Nat.mul_zero, Nat.add_zero, h.null]
    decide
  rw [State.load, Cpu.translate, if_pos h.paging, hslot, bind_some, hentry]
  rfl

theorem Window.countNext_null (h : Window s.cpu tabs) (fuel : ℕ) :
    ∃ e, countNext s fuel 0 = .error e := by
  cases fuel with
  | zero => exact ⟨_, rfl⟩
  | succ fuel =>
    rw [countNext, h.load_null]
    exact ⟨_, rfl⟩

theorem pageTablesNeeded_eq (n : ℕ) : pageTablesNeeded n = (n - 768) / 1024 + 1 := rfl

section MapAbove

variable {n : ℕ}

theorem mapAbove4MegFreelist_small (hkb : totalKbAbove1Meg s.physRegions = 4 * n) (hn : n ≤ 768) :
    mapAbove4MegFreelist s = .ok s := by
  simp only [mapAbove4MegFreelist, hkb]
  rw [if_pos (by omega)]

/-- There have to be two free frames more than there are page tables: one is for the
list of tables, and the count leaves out another. -/
theorem Inv.mapAbove4MegFreelist_fails (h : Inv s tabs l)
    (hkb : totalKbAbove1Meg s.physRegions = 4 * n) (hn : 768 < n)
    (hl : l.length < pageTablesNeeded n + 2) (hfew : l.length ≤ 2 ^ 20) :
    ∃ e, mapAbove4MegFreelist s = .error e := by
  simp only [mapAbove4MegFreelist, hkb, Nat.mul_div_cancel_left n (show 0 < 4 by decide)]
  rw [if_neg (show ¬ 4 * n + 1024 ≤ 4 * 1024 by omega)]
  cases l with
  | nil =>
    rw [if_pos (show s.pageFreelist = 0 from h.linked)]
    exact ⟨_, rfl⟩
  | cons p l =>
    have hp := (h.frames p mem_cons_self).1
    obtain ⟨next, halloc, hinv⟩ := h.pfAlloc_ok
    rw [if_neg (h.linked.1 ▸ frameAddr_ne_zero h.window.few hp), halloc]
    cases l with
    | nil =>
      -- the count starts at the null pointer
      obtain rfl : next = 0 := hinv.linked
      obtain ⟨e, hcount⟩ := hinv.window.countNext_null (2 ^ 20)
      refine ⟨e, ?_⟩
      show countNext _ _ _ >>= _ = _
      rw [hcount]
      rfl
    | cons q l =>
      simp only [length_cons] at hfew hl
      have hcount := hinv.countNext_ok (show l.length < 2 ^ 20 by omega)
      refine ⟨.assertion, ?_⟩
      show countNext _ _ _ >>= _ = _
      rw [hcount]
      show (if l.length < pageTablesNeeded n then _ else _) = _
      rw [if_pos (by omega)]

/-- **The page tables above 4 MB**: with enough free frames, the first of them become page
tables, and the others are still free. -/
theorem Inv.mapAbove4MegFreelist_ok (h : Inv s [] l) (hlast : s.cpu.stage0LastMappedPfn = 1024)
    (hkb : totalKbAbove1Meg s.physRegions = 4 * n) (hn : 768 < n)
    (hmax : pageTablesNeeded n ≤ 16) (hl : pageTablesNeeded n + 2 ≤ l.length)
    (hfew : l.length ≤ 2 ^ 20) :
    ∃ s' tabs l', mapAbove4MegFreelist s = .ok s' ∧ Inv s' tabs l' ∧ Same s s' ∧
      tabs.length = pageTablesNeeded n ∧ (tabs ++ l').Perm l := by
  obtain ⟨scratch, l, rfl⟩ : ∃ p l', l = p :: l' := exists_cons_of_ne_nil fun hnil => by
    simp [hnil] at hl
  obtain ⟨hscratch, hscratchTab⟩ := h.frames scratch mem_cons_self
  obtain ⟨hnot, hnodup⟩ := nodup_cons.mp h.nodup
  rw [length_cons] at hl hfew
  obtain ⟨next, halloc, hinv⟩ := h.pfAlloc_ok
  -- the tables are the first frames of the rest
  obtain ⟨ts, rest, hsplit, hts⟩ : ∃ ts rest, l = ts ++ rest ∧ ts.length = pageTablesNeeded n :=
    ⟨l.take (pageTablesNeeded n), l.drop (pageTablesNeeded n), (take_append_drop _ _).symm,
      length_take_of_le (by omega)⟩
  have hcount : countNext { s with pageFreelist := next } (2 ^ 20) next = .ok (l.length - 1) := by
    obtain ⟨q, l, rfl⟩ : ∃ p l', l = p :: l' := exists_cons_of_ne_nil fun hnil => by
      simp [hnil] at hl
    exact hinv.countNext_ok (show l.length < 2 ^ 20 by simp only [length_cons] at hfew; omega)
  subst hsplit
  obtain ⟨hrestNodup, -, hdisjoint⟩ := nodup_append.mp hnodup
  obtain ⟨s1, hrun1, hinv1, hsame1, hfilled, -⟩ := hinv.makeTables_ok (show 0 < 1024 by decide)
  obtain ⟨s2, hrun2, hinv2, hsame2⟩ := hinv1.insertTables_ok
    (show ([] : List ℕ).length + ts.length ≤ 16 by rw [length_nil, hts]; omega)
    (by
      intro t ht
      obtain ⟨htlt, httab⟩ := hinv.frames t (mem_append_left _ ht)
      refine ⟨?_, fun hmem => hdisjoint t ht t hmem rfl, htlt⟩
      rintro rfl
      exact httab (by simp [tableFrames]))
    (fun i t ht => by simpa using hfilled i t ht)
  obtain ⟨hnotTs, hnotRest⟩ := not_or.mp (mt mem_append.mpr hnot)
  rw [nil_append] at hinv2
  obtain ⟨s3, hrun3, hinv3, hsame3⟩ := hinv2.pfFree_ok (p := scratch)
    (by simp only [mapped, length_nil] at hscratch ⊢; omega)
    (by simpa [tableFrames, hnotTs] using hscratchTab) hnotRest
  have hsame0 : Same s { s with pageFreelist := next } := ⟨rfl, rfl, rfl⟩
  have hsame : Same s s3 := hsame0.trans ((hsame1.trans hsame2).trans hsame3)
  refine ⟨s3, ts, scratch :: rest, ?_, hinv3, hsame, hts, perm_middle⟩
  have hrun1' : makeTables (pageTablesNeeded n) s.cpu.stage0LastMappedPfn
      { s with pageFreelist := next } = .ok (ts.map frameAddr, s1) := by
    rw [← hts, hlast]
    exact hrun1
  simp only [mapAbove4MegFreelist, hkb, Nat.mul_div_cancel_left n (show 0 < 4 by decide)]
  rw [if_neg (show ¬ 4 * n + 1024 ≤ 4 * 1024 by omega),
    if_neg (h.linked.1 ▸ frameAddr_ne_zero h.window.few hscratch)]
  refine bind_eq_ok.mpr ⟨_, halloc, bind_eq_ok.mpr ⟨_, hcount, ?_⟩⟩
  rw [if_neg (by omega), if_neg (not_not.mpr hlast)]
  exact bind_eq_ok.mpr ⟨_, hrun1', bind_eq_ok.mpr ⟨_, hrun2, hrun3⟩⟩

end MapAbove

/-! ### The whole of `pfa_init` -/

section Boot

variable (memKb : UInt16) (kernelPhysicalEnd : ℕ)

/-- The regions as `_stage0_init` registers them, with `n` frames of the first reserved. -/
def regions (n : ℕ) : List PhysRegion :=
  [⟨⟨0, 160⟩, n, true⟩, ⟨⟨160, 96⟩, 0, true⟩, ⟨⟨256, memKb.toNat >>> 2⟩, 0, false⟩]

/-- The reserved regions, with the one of the kernel image. -/
def reservedRegions : List Region :=
  staticReserved ++ [⟨13, lastPage kernelPhysicalEnd - 13⟩]

/-- The kernel image is in conventional memory. -/
structure InConventional : Prop where
  lower : kernelPhysicalStart ≤ kernelPhysicalEnd
  upper : kernelPhysicalEnd ≤ conventionalPages * pageSize

variable {memKb kernelPhysicalEnd}

section

variable (h : InConventional kernelPhysicalEnd)
include h

theorem InConventional.lastPage :
    13 ≤ lastPage kernelPhysicalEnd ∧ lastPage kernelPhysicalEnd ≤ 160 := by
  obtain ⟨hlo, hhi⟩ := h
  simp only [kernelPhysicalStart, conventionalPages, pageSize] at hlo hhi
  rw [Stage0.lastPage, pageRoundUp, pageRoundDn]
  simp only [pageSize]
  omega

/-- **The off-by-one**: the frame after the kernel image counts as reserved. -/
theorem isReserved_iff (hs : s.sReserved = reservedRegions kernelPhysicalEnd) :
    s.isReserved p = true ↔ p ≤ lastPage kernelPhysicalEnd := by
  obtain ⟨hlo, -⟩ := h.lastPage
  rw [State.isReserved, hs, reservedRegions, staticReserved]
  simp
  omega

theorem inReserved_iff :
    inReserved (reservedRegions kernelPhysicalEnd) p = true ↔ p < lastPage kernelPhysicalEnd := by
  obtain ⟨hlo, -⟩ := h.lastPage
  simp only [inReserved, reservedRegions, staticReserved, cons_append, nil_append,
    any_cons, any_nil, Bool.or_false, Bool.or_eq_true, decide_eq_true_eq]
  simp only [Region.Contains]
  omega

end

theorem countP_range_le (m : ℕ) (n : ℕ) :
    (List.range n).countP (fun p => decide (p ≤ m)) = min n (m + 1) := by
  induction n with
  | zero => simp
  | succ n ih =>
    rw [range_succ, countP_append, ih, countP_singleton]
    split
    · rename_i hle
      simp only [decide_eq_true_eq] at hle
      omega
    · rename_i hgt
      simp only [decide_eq_true_eq] at hgt
      omega

theorem window_setUp (h : InConventional kernelPhysicalEnd) (c : Cpu) :
    Window (setUpStage0PageTables kernelPhysicalEnd c) [] := by
  have hend : kernelPhysicalEnd < 2 ^ 20 := by
    have := h.upper
    simp only [conventionalPages, pageSize] at this
    omega
  refine ⟨rfl, rfl, fun i hi => ?_, ?_, fun i hi => table2_mem hi, fun i t ht => ?_, by simp, ?_⟩
  · rw [directory_mem hend hi, dirEntry, getElem?_nil, elim_none, ite_self]
  · exact (table1_mem (i := 0) (by decide)).trans (if_pos rfl)
  · simp at ht
  · simp

theorem pfaRegisterReservedRegion_kernel (hs : s.sReserved = staticReserved) :
    pfaRegisterReservedRegion (kernelPhysicalStart / pageSize)
        (lastPage kernelPhysicalEnd - pageRoundDn kernelPhysicalStart / pageSize) s =
      .ok (0, { s with sReserved := reservedRegions kernelPhysicalEnd }) := by
  have hstart : kernelPhysicalStart / pageSize = 13 ∧
      pageRoundDn kernelPhysicalStart / pageSize = 13 := by decide
  have hapart : (staticReserved.any fun r =>
      regionOverlaps r 13 (lastPage kernelPhysicalEnd - 13)) = false := by
    simp [staticReserved, regionOverlaps]
    omega
  rw [pfaRegisterReservedRegion, hs, hstart.1, hstart.2, if_neg (by decide), hapart]
  rfl

theorem reserve_regions (m n : ℕ) : reserve 0 n (regions memKb m) = regions memKb (m + n) := rfl

theorem mapPhysRegion_conventional (h : InConventional kernelPhysicalEnd) (hinv : Inv s [] [])
    (hs : s.sReserved = reservedRegions kernelPhysicalEnd)
    (hregions : s.physRegions = regions memKb 0)
    (hlast : s.cpu.stage0LastMappedPfn = 1024) :
    ∃ s' l, mapPhysRegion 0 s = .ok s' ∧ Inv s' [] l ∧
      (∀ p, p ∈ l ↔ lastPage kernelPhysicalEnd < p ∧ p < 160) ∧
      l.length = 160 - (lastPage kernelPhysicalEnd + 1) ∧
      s'.physRegions = regions memKb (min 160 (lastPage kernelPhysicalEnd + 1)) ∧
      s'.sReserved = reservedRegions kernelPhysicalEnd ∧ s'.cpu.stage0LastMappedPfn = 1024 := by
  obtain ⟨hlo, hhi⟩ := h.lastPage
  have hreserved : ∀ p, s.isReserved p = decide (p ≤ lastPage kernelPhysicalEnd) := by
    intro p
    rw [Bool.eq_iff_iff, isReserved_iff h hs, decide_eq_true_eq]
  obtain ⟨s', hrun, hinv', hregions', hs', hlast'⟩ :=
    foldlM_mapFrame 0 (nodup_range (n := 160)) (by simp)
      (fun p hp => by
        rw [mem_range] at hp
        simp only [mapped, length_nil]
        omega)
      (fun p _ hp => by
        rw [hreserved, decide_eq_false_iff_not] at hp
        simp only [tableFrames, mem_cons, not_mem_nil, or_false]
        omega) hinv
  have hcount : (List.range 160).countP s.isReserved =
      min 160 (lastPage kernelPhysicalEnd + 1) := by
    rw [← countP_range_le, funext hreserved]
  refine ⟨s', _, ?_, hinv', fun p => ?_, ?_, ?_, hs'.trans hs, hlast'.trans hlast⟩
  · rw [mapPhysRegion, hregions]
    show (List.range' 0 160).foldlM (mapFrame 0) s = _
    rw [← range_eq_range', hrun]
  · simp only [hreserved, append_nil, mem_reverse, mem_filter, mem_range,
      Bool.not_eq_true', decide_eq_false_iff_not, Nat.not_le]
    exact and_comm
  · have hsplit := length_eq_countP_add_countP (l := List.range 160) s.isReserved
    rw [append_nil, length_reverse, ← countP_eq_length_filter]
    simp only [hcount, length_range, decide_not, Bool.decide_eq_true] at hsplit
    omega
  · rw [hregions', hregions, hcount, reserve_regions, Nat.zero_add]

theorem mapPhysRegions_extended (h : InConventional kernelPhysicalEnd) (hinv : Inv s tabs l)
    (hs : s.sReserved = reservedRegions kernelPhysicalEnd) {n : ℕ}
    (hregions : s.physRegions = regions memKb n) (hlow : ∀ p, p ∈ tabs ∨ p ∈ l → p < 160)
    (hmapped : 256 + memKb.toNat >>> 2 ≤ mapped tabs) :
    ∃ s', mapPhysRegions s = .ok s' ∧
      Inv s' tabs ((List.range' 256 (memKb.toNat >>> 2)).reverse ++ l) ∧
      s'.physRegions = regions memKb n ∧ s'.sReserved = reservedRegions kernelPhysicalEnd := by
  obtain ⟨hlo, hhi⟩ := h.lastPage
  have hfree : ∀ p ∈ List.range' 256 (memKb.toNat >>> 2), s.isReserved p = false := by
    intro p hp
    rw [mem_range'_1] at hp
    rw [Bool.eq_false_iff, Ne, isReserved_iff h hs]
    omega
  have hnodup : (List.range' 256 (memKb.toNat >>> 2)).Nodup := nodup_range'
  obtain ⟨s', hrun, hinv', hregions', hs', -⟩ := foldlM_mapFrame 2 hnodup
      (fun p hp hmem => by
        rw [mem_range'_1] at hp
        have := hlow p (.inr hmem)
        omega)
      (fun p hp => by
        rw [mem_range'_1] at hp
        omega)
      (fun p hp _ hmem => by
        rw [mem_range'_1] at hp
        rcases mem_append.mp (show p ∈ [1, 2, 3] ++ tabs from hmem) with hmem | hmem
        · simp only [mem_cons, not_mem_nil, or_false] at hmem
          omega
        · have := hlow p (.inl hmem)
          omega) hinv
  have hall : (List.range' 256 (memKb.toNat >>> 2)).filter (fun p => !s.isReserved p) =
      List.range' 256 (memKb.toNat >>> 2) :=
    filter_eq_self.mpr fun p hp => by rw [hfree p hp]; rfl
  have hnone : (List.range' 256 (memKb.toNat >>> 2)).countP s.isReserved = 0 :=
    countP_eq_zero.mpr fun p hp => by rw [hfree p hp]; decide
  rw [hall] at hinv'
  refine ⟨s', ?_, hinv', ?_, hs'.trans hs⟩
  · have hthird : mapPhysRegion 2 s = .ok s' := by
      rw [mapPhysRegion, hregions]
      exact hrun
    -- the first two regions are ignored
    rw [mapPhysRegions, hregions]
    refine bind_eq_ok.mpr ⟨s, ?_, bind_eq_ok.mpr ⟨s, ?_, bind_eq_ok.mpr ⟨s', ?_, rfl⟩⟩⟩
    · beta_reduce
      rw [hregions]
      rfl
    · beta_reduce
      rw [hregions]
      rfl
    · beta_reduce
      rw [hregions]
      exact hthird
  · rw [hregions', hregions, hnone, reserve_zero]

/-- The memory after `pfa_init`: the page tables `tabs` and the free frames `l`. -/
structure Booted (memKb : UInt16) (kernelPhysicalEnd : ℕ) (s : State) (tabs l : List ℕ) :
    Prop where
  inv : Inv s tabs l
  frames : ∀ p, p ∈ tabs ∨ p ∈ l ↔
    (lastPage kernelPhysicalEnd < p ∧ p < 160) ∨ (256 ≤ p ∧ p < 256 + memKb.toNat >>> 2)
  regions : s.physRegions = regions memKb (min 160 (lastPage kernelPhysicalEnd + 1))
  reserved : s.sReserved = reservedRegions kernelPhysicalEnd

/-- There is enough conventional memory for the page tables: one frame more is for the list
of tables, and `map_above_4_meg_freelist` leaves out another when it counts. -/
def Enough (memKb : UInt16) (kernelPhysicalEnd : ℕ) : Prop :=
  768 < memKb.toNat >>> 2 → pageTablesNeeded (memKb.toNat >>> 2) + 2 ≤
    conventionalPages - (lastPage kernelPhysicalEnd + 1)

instance (memKb : UInt16) (kernelPhysicalEnd : ℕ) : Decidable (Enough memKb kernelPhysicalEnd) :=
  inferInstanceAs (Decidable (_ → _))

theorem shiftRight_lt (memKb : UInt16) : memKb.toNat >>> 2 < 2 ^ 14 := by
  have := memKb.toNat_lt
  omega

theorem totalKbAbove1Meg_regions (n : ℕ) :
    totalKbAbove1Meg (regions memKb n) = 4 * (memKb.toNat >>> 2) := by
  simp only [totalKbAbove1Meg, regions, megPages, foldl_cons, foldl_nil,
    Nat.shiftLeft_eq]
  simp
  omega

theorem pfaInit_of_ok {s1 s2 : State} {r : ℤ}
    (hregister : pfaRegisterReservedRegion (kernelPhysicalStart / pageSize)
      (lastPage kernelPhysicalEnd - pageRoundDn kernelPhysicalStart / pageSize) s = .ok (r, s1))
    (hmap : mapPhysRegion 0 s1 = .ok s2) :
    pfaInit kernelPhysicalEnd s = mapAbove4MegFreelist s2 >>= mapPhysRegions := by
  simp only [pfaInit, hregister, bind, Except.bind, hmap]

theorem pfaInit_start (memKb : UInt16) (h : InConventional kernelPhysicalEnd) (c : Cpu) :
    ∃ s l, Inv s [] l ∧ (∀ p, p ∈ l ↔ lastPage kernelPhysicalEnd < p ∧ p < 160) ∧
      l.length = 160 - (lastPage kernelPhysicalEnd + 1) ∧
      s.physRegions = regions memKb (min 160 (lastPage kernelPhysicalEnd + 1)) ∧
      s.sReserved = reservedRegions kernelPhysicalEnd ∧ s.cpu.stage0LastMappedPfn = 1024 ∧
      pfaInit kernelPhysicalEnd (stage0Init memKb kernelPhysicalEnd c) =
        mapAbove4MegFreelist s >>= mapPhysRegions := by
  have hinv : Inv ⟨setUpStage0PageTables kernelPhysicalEnd c, 0, regions memKb 0,
      reservedRegions kernelPhysicalEnd, []⟩ [] [] :=
    ⟨window_setUp h c, rfl, nodup_nil, by simp, by simp⟩
  obtain ⟨s, l, hrun, hinv', hmem, hlen, hregions, hs, hlast⟩ :=
    mapPhysRegion_conventional h hinv rfl rfl rfl
  refine ⟨s, l, hinv', hmem, hlen, hregions, hs, hlast, ?_⟩
  exact pfaInit_of_ok (pfaRegisterReservedRegion_kernel rfl) hrun

theorem pfaInit_booted (h : InConventional kernelPhysicalEnd)
    (henough : Enough memKb kernelPhysicalEnd) (c : Cpu) :
    ∃ s tabs l, pfaInit kernelPhysicalEnd (stage0Init memKb kernelPhysicalEnd c) = .ok s ∧
      Booted memKb kernelPhysicalEnd s tabs l := by
  have hmax := shiftRight_lt memKb
  obtain ⟨s1, l1, hinv1, hmem1, hlen1, hregions1, hs1, hlast1, hpfa⟩ :=
    pfaInit_start memKb h c
  have hkb : totalKbAbove1Meg s1.physRegions = 4 * (memKb.toNat >>> 2) := by
    rw [hregions1, totalKbAbove1Meg_regions]
  -- the page tables, if there is memory above 4 MB
  obtain ⟨s2, tabs, l2, hrun2, hinv2, hsame, hperm, hmapped⟩ :
      ∃ s2 tabs l2, mapAbove4MegFreelist s1 = .ok s2 ∧ Inv s2 tabs l2 ∧ Same s1 s2 ∧
        (tabs ++ l2).Perm l1 ∧ 256 + memKb.toNat >>> 2 ≤ mapped tabs := by
    by_cases hn : memKb.toNat >>> 2 ≤ 768
    · refine ⟨s1, [], l1, mapAbove4MegFreelist_small hkb hn, hinv1, ⟨rfl, rfl, rfl⟩,
        List.Perm.refl _, ?_⟩
      rw [mapped, length_nil]
      omega
    · have hneeded := pageTablesNeeded_eq (memKb.toNat >>> 2)
      have henough' := henough (by omega)
      rw [conventionalPages] at henough'
      obtain ⟨s2, tabs, l2, hrun2, hinv2, hsame, htabs, hperm⟩ := hinv1.mapAbove4MegFreelist_ok
        hlast1 hkb (by omega) (by omega) (by omega) (by omega)
      refine ⟨s2, tabs, l2, hrun2, hinv2, hsame, hperm, ?_⟩
      rw [mapped, htabs]
      omega
  have hmem2 : ∀ p, p ∈ tabs ∨ p ∈ l2 ↔ lastPage kernelPhysicalEnd < p ∧ p < 160 := by
    intro p
    rw [← mem_append, hperm.mem_iff, hmem1]
  obtain ⟨s3, hrun3, hinv3, hregions3, hs3⟩ := mapPhysRegions_extended h hinv2
    (hsame.sReserved.trans hs1) (hsame.physRegions.trans hregions1)
    (fun p hp => ((hmem2 p).mp hp).2) hmapped
  refine ⟨s3, tabs, _, ?_, hinv3, fun p => ?_, hregions3, hs3⟩
  · rw [hpfa, hrun2]
    exact hrun3
  · rw [← hmem2, mem_append, mem_reverse, mem_range'_1]
    rw [or_right_comm, or_assoc]

theorem pfaInit_fails (h : InConventional kernelPhysicalEnd)
    (henough : ¬ Enough memKb kernelPhysicalEnd) (c : Cpu) :
    ∃ e, pfaInit kernelPhysicalEnd (stage0Init memKb kernelPhysicalEnd c) = .error e := by
  obtain ⟨s, l, hinv, -, hlen, hregions, -, -, hpfa⟩ := pfaInit_start memKb h c
  obtain ⟨hn, hfew⟩ := Classical.not_imp.mp henough
  rw [conventionalPages] at hfew
  obtain ⟨e, hrun⟩ := hinv.mapAbove4MegFreelist_fails
    ((congrArg _ hregions).trans (totalKbAbove1Meg_regions _)) hn (by omega) (by omega)
  refine ⟨e, ?_⟩
  rw [hpfa, hrun]
  rfl

/-! ### Safety and completeness -/

theorem Window.isPageTable_iff (h : Window c tabs) : IsPageTable c p ↔ p ∈ tableFrames tabs := by
  have hfew := h.few
  have hslot : ∀ i < 1024, target (c.mem (c.cr3 + 4 * i)) =
      if 833 ≤ i ∧ i - 833 < tabs.length then (tabs[i - 833]?).map (· * pageSize)
      else tablePage i := by
    intro i hi
    rw [h.cr3, h.dir i hi, dirEntry]
    by_cases hin : 833 ≤ i ∧ i - 833 < tabs.length
    · rw [if_pos hin, if_pos hin.1, getElem?_eq_getElem hin.2, elim_some,
        target_pageEntry, map_some]
    · rw [if_neg hin]
      by_cases hlow : 833 ≤ i
      · rw [if_pos hlow, getElem?_eq_none (by omega), elim_none,
          target_directoryEntry]
      · rw [if_neg hlow, target_directoryEntry]
  constructor
  · rintro ⟨i, hi, htarget⟩
    rw [hslot i hi] at htarget
    split at htarget
    · obtain ⟨t, ht, heq⟩ := Option.map_eq_some_iff.mp htarget
      rw [pageSize] at heq
      obtain rfl : t = p := by omega
      simp [tableFrames, mem_of_getElem? ht]
    · rw [tablePage] at htarget
      have hp : p * 4096 = 0x1000 ∨ p * 4096 = 0x2000 ∨ p * 4096 = 0x3000 := by
        split at htarget
        · exact .inr (.inl (some.inj htarget).symm)
        · split at htarget
          · exact .inr (.inr (some.inj htarget).symm)
          · split at htarget
            · exact .inl (some.inj htarget).symm
            · cases htarget
      simp only [tableFrames, mem_cons]
      omega
  · intro hmem
    rcases mem_append.mp (show p ∈ [1, 2, 3] ++ tabs from hmem) with hmem | hmem
    · -- the directory is its own last table
      have hroot : ∀ i < 1024, ¬ (833 ≤ i ∧ i - 833 < tabs.length) →
          tablePage i = some (p * pageSize) → IsPageTable c p := by
        intro i hi hout htable
        exact ⟨i, hi, by rw [hslot i hi, if_neg hout, htable]⟩
      simp only [mem_cons, not_mem_nil, or_false] at hmem
      rcases hmem with rfl | rfl | rfl
      · exact hroot 1023 (by decide) (by omega) rfl
      · exact hroot 0 (by decide) (by omega) rfl
      · exact hroot 832 (by decide) (by omega) rfl
    · obtain ⟨i, hi, rfl⟩ := getElem_of_mem hmem
      refine ⟨833 + i, by omega, ?_⟩
      rw [hslot _ (by omega), if_pos (by omega), show 833 + i - 833 = i by omega,
        getElem?_eq_getElem hi, map_some]

variable {ptr : ℕ}

theorem Linked.isFreelist (h : Window s.cpu tabs) (hlinked : Linked s.cpu.mem l ptr)
    (hl : ∀ p ∈ l, p < mapped tabs) : IsFreelist s l ptr := by
  induction l generalizing ptr with
  | nil => exact hlinked
  | cons p l ih =>
    have hp := hl p mem_cons_self
    obtain ⟨hptr, hlinked⟩ := hlinked
    refine ⟨hptr.trans (frameAddr_eq h.few hp), _, ?_,
      ih hlinked fun q hq => hl q (mem_cons_of_mem _ hq)⟩
    rw [hptr, h.load_frameAddr hp]

theorem IsFreelist.unique {l' : List ℕ} (h : IsFreelist s l ptr) (h' : IsFreelist s l' ptr) :
    l = l' := by
  induction l generalizing l' ptr with
  | nil =>
    cases l' with
    | nil => rfl
    | cons q l' =>
      have hnull : ptr = 0 := h
      have hptr := h'.1
      simp only [pfaVirtOffset] at hptr
      omega
  | cons p l ih =>
    obtain ⟨hptr, next, hload, hrest⟩ := h
    cases l' with
    | nil =>
      have hnull : ptr = 0 := h'
      simp only [pfaVirtOffset] at hptr
      omega
    | cons q l' =>
      obtain ⟨hptr', next', hload', hrest'⟩ := h'
      obtain rfl : next = next' := Except.ok.inj (hload.symm.trans hload')
      have hpq : p = q := by
        rw [hptr, pageSize] at hptr'
        omega
      rw [hpq, ih hrest hrest']

namespace Booted

theorem isFreelist (h : Booted memKb kernelPhysicalEnd s tabs l) :
    IsFreelist s l s.pageFreelist :=
  h.inv.linked.isFreelist h.inv.window fun p hp => (h.inv.frames p hp).1

theorem inMemory_iff (memKb : UInt16) (h : InConventional kernelPhysicalEnd) :
    InMemory memKb p ∧ inReserved (reservedRegions kernelPhysicalEnd) p = false ↔
      (lastPage kernelPhysicalEnd ≤ p ∧ p < 160) ∨ (256 ≤ p ∧ p < 256 + memKb.toNat >>> 2) := by
  obtain ⟨hlo, hhi⟩ := h.lastPage
  rw [Bool.eq_false_iff, Ne, inReserved_iff h]
  simp only [InMemory, Region.Contains, conventionalPages, megPages]
  omega

section

variable (hconv : InConventional kernelPhysicalEnd)
include hconv

section

variable (h : Booted memKb kernelPhysicalEnd s tabs l)
include h

theorem safe : Safe memKb s := by
  refine ⟨l, h.isFreelist, h.inv.nodup, fun p hp => ?_, h.inv.pushed⟩
  have hin : InMemory memKb p ∧ inReserved (reservedRegions kernelPhysicalEnd) p = false := by
    have hframe := (h.frames p).mp (.inr hp)
    refine (inMemory_iff memKb hconv).mpr ?_
    omega
  refine ⟨hin.1, h.reserved ▸ hin.2, ?_⟩
  rw [h.inv.window.isPageTable_iff]
  exact (h.inv.frames p hp).2

theorem lost (hlast : lastPage kernelPhysicalEnd < 160) :
    ¬ Complete memKb s := by
  intro hcomplete
  obtain ⟨hlo, -⟩ := hconv.lastPage
  obtain ⟨hin, hfree⟩ := (inMemory_iff memKb hconv).mpr (.inl ⟨le_refl _, hlast⟩)
  have hnot : ¬ (lastPage kernelPhysicalEnd ∈ tabs ∨ lastPage kernelPhysicalEnd ∈ l) := by
    rw [h.frames]
    omega
  rcases hcomplete.1 _ hin (h.reserved ▸ hfree) with ⟨l', hl', hmem⟩ | htable
  · rw [hl'.unique h.isFreelist] at hmem
    exact hnot (.inr hmem)
  · rw [h.inv.window.isPageTable_iff] at htable
    rcases mem_append.mp (show _ ∈ [1, 2, 3] ++ tabs from htable) with hmem | hmem
    · simp only [mem_cons, not_mem_nil, or_false] at hmem
      omega
    · exact hnot (.inl hmem)

theorem complete (hlast : lastPage kernelPhysicalEnd = 160) :
    Complete memKb s := by
  constructor
  · intro p hin hfree
    have hframe := (inMemory_iff memKb hconv).mp ⟨hin, h.reserved ▸ hfree⟩
    rcases (h.frames p).mpr (by omega) with hmem | hmem
    · refine .inr (h.inv.window.isPageTable_iff.mpr ?_)
      simp [tableFrames, hmem]
    · exact .inl ⟨l, h.isFreelist, hmem⟩
  · have hhigh : ∀ start n, 160 ≤ start →
        (List.range' start n).countP (inReserved s.sReserved) = 0 := by
      intro start n hstart
      refine countP_eq_zero.mpr fun p hp => ?_
      rw [mem_range'_1] at hp
      rw [h.reserved, inReserved_iff hconv]
      omega
    have hlow : (List.range' 0 160).countP (inReserved s.sReserved) = 160 := by
      refine (countP_eq_length.mpr fun p hp => ?_).trans length_range'
      rw [mem_range'_1] at hp
      rw [h.reserved, inReserved_iff hconv]
      omega
    intro r hr
    rw [h.regions, PfaInit.regions, hlast] at hr
    simp only [mem_cons, not_mem_nil, or_false] at hr
    rcases hr with rfl | rfl | rfl
    · exact hlow.symm
    · exact (hhigh 160 96 (by decide)).symm
    · exact (hhigh 256 _ (by decide)).symm

end

end

end Booted

/-- A machine before stage 0, with nothing in memory. -/
def blank : Cpu := ⟨fun _ => 0, 0, false, 0⟩

/-- **The list of free frames is safe** whenever `pfa_init` returns, and it returns if there
is enough conventional memory for the page tables. -/
theorem pfa_init_safe (memKb : UInt16) (kernelPhysicalEnd : ℕ)
    (h : InConventional kernelPhysicalEnd) (c : Cpu) :
    (Enough memKb kernelPhysicalEnd →
      ∃ s, pfaInit kernelPhysicalEnd (stage0Init memKb kernelPhysicalEnd c) = .ok s) ∧
    ∀ s, pfaInit kernelPhysicalEnd (stage0Init memKb kernelPhysicalEnd c) = .ok s →
      Safe memKb s := by
  constructor
  · intro henough
    obtain ⟨s, tabs, l, hrun, -⟩ := pfaInit_booted h henough c
    exact ⟨s, hrun⟩
  · intro s hs
    by_cases henough : Enough memKb kernelPhysicalEnd
    · obtain ⟨s', tabs, l, hrun, hbooted⟩ := pfaInit_booted h henough c
      obtain rfl : s' = s := Except.ok.inj (hrun.symm.trans hs)
      exact hbooted.safe h
    · obtain ⟨e, herror⟩ := pfaInit_fails h henough c
      rw [herror] at hs
      cases hs

/-- 16 MB of memory and a kernel image of 204 KB. -/
theorem pfa_init_safe_16m : InConventional 0x40000 ∧ Enough 15360 0x40000 ∧
    ∃ s, pfaInit 0x40000 (stage0Init 15360 0x40000 blank) = .ok s ∧ Safe 15360 s := by
  have hconv : InConventional 0x40000 := ⟨by decide, by decide⟩
  have henough : Enough 15360 0x40000 := by decide
  obtain ⟨hreturns, hsafe⟩ := pfa_init_safe 15360 0x40000 hconv blank
  obtain ⟨s, hs⟩ := hreturns henough
  exact ⟨hconv, henough, s, hs, hsafe s hs⟩

/-- **The list of free frames is complete** iff the kernel image reaches up to the end of
conventional memory: `is_reserved` loses the frame after the image. -/
theorem pfa_init_complete_iff (memKb : UInt16) (kernelPhysicalEnd : ℕ)
    (h : InConventional kernelPhysicalEnd) (henough : Enough memKb kernelPhysicalEnd) (c : Cpu) :
    ∃ s, pfaInit kernelPhysicalEnd (stage0Init memKb kernelPhysicalEnd c) = .ok s ∧
      (Complete memKb s ↔ lastPage kernelPhysicalEnd = conventionalPages) := by
  obtain ⟨s, tabs, l, hrun, hbooted⟩ := pfaInit_booted h henough c
  obtain ⟨-, hhi⟩ := h.lastPage
  refine ⟨s, hrun, ?_, hbooted.complete h⟩
  intro hcomplete
  by_contra hne
  rw [conventionalPages] at hne
  exact hbooted.lost h (by omega) hcomplete

theorem pfa_init_complete_iff_full : InConventional 0xA0000 ∧ Enough 1024 0xA0000 ∧
    ∃ s, pfaInit 0xA0000 (stage0Init 1024 0xA0000 blank) = .ok s ∧ Complete 1024 s := by
  have hconv : InConventional 0xA0000 := ⟨by decide, by decide⟩
  have henough : Enough 1024 0xA0000 := by decide
  obtain ⟨s, hs, hiff⟩ := pfa_init_complete_iff 1024 0xA0000 hconv henough blank
  exact ⟨hconv, henough, s, hs, hiff.mpr (by decide)⟩

/-- With a kernel image of 204 KB, frame 64 is lost. -/
theorem frame_after_kernel_lost :
    ∃ s, pfaInit 0x40000 (stage0Init 15360 0x40000 blank) = .ok s ∧ ¬ Complete 15360 s := by
  have hconv : InConventional 0x40000 := ⟨by decide, by decide⟩
  have henough : Enough 15360 0x40000 := by decide
  obtain ⟨s, tabs, l, hrun, hbooted⟩ := pfaInit_booted hconv henough blank
  exact ⟨s, hrun, hbooted.lost hconv (by decide)⟩

end Boot

end PfaInit
