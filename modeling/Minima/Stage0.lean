/-
The first page tables (`set_up_stage0_page_tables` of `stage0.c`).

Before paging is on, the kernel writes a page directory and two page tables at
fixed places in low memory: the kernel image and the screen buffer at
`VIRT_OFFSET` and at 0, the first 4 MB at `PFA_VIRT_OFFSET`, and the directory as
its own last page table.

* `setUpStage0PageTables` — the function of the source, from any contents of
  physical memory;
* `Cpu.translate` — the walk of the processor through the tables;
* `bootMap` — the mapping that is meant;
* `boot_mapping_iff` — the tables translate every address as `bootMap` does iff
  memory has no present entry in that part of the first page table that nobody
  writes.
-/
import Minima.Paging

open Paging

namespace Stage0

/-! ### The function of the source -/

/-- `STAGE0_PD_ADDR` -/
def stage0PdAddr : ℕ := 0x1000

/-- `STAGE0_PT1_ADDR` -/
def stage0Pt1Addr : ℕ := 0x2000

/-- `STAGE0_PT2_ADDR` -/
def stage0Pt2Addr : ℕ := 0x3000

/-- Physical memory, by the addresses of its words, and what the processor knows
of the page tables. -/
structure Cpu where
  mem : ℕ → ℕ
  cr3 : ℕ
  paging : Bool
  stage0LastMappedPfn : ℕ

/-- `*a = v` -/
def Cpu.store (c : Cpu) (a v : ℕ) : Cpu := { c with mem := Function.update c.mem a v }

/-- `for (p = 0; p < n; ++p) table[p] = val(p)` -/
def fill (table n : ℕ) (val : ℕ → ℕ) (c : Cpu) : Cpu :=
  (List.range n).foldl (fun c p => c.store (table + 4 * p) (val p)) c

/-- `(p * PAGE_SIZE) | PTE_WRITABLE | PTE_PRESENT` -/
def pageEntry (p : ℕ) : ℕ := (p * pageSize) ||| pteWritable ||| ptePresent

/-- `last_page`, for a given `kernel_physical_end` -/
def lastPage (kernelPhysicalEnd : ℕ) : ℕ := pageRoundUp kernelPhysicalEnd / pageSize

/-- `set_up_stage0_page_tables` -/
def setUpStage0PageTables (kernelPhysicalEnd : ℕ) (c : Cpu) : Cpu :=
  let c := fill stage0PdAddr 1024 (fun _ => pteWritable) c
  let c := fill stage0Pt1Addr (lastPage kernelPhysicalEnd) pageEntry c
  let c := c.store (stage0Pt1Addr + 4 * 184) (0x000B8000 ||| 3)
  let c := fill stage0Pt2Addr (4 * 1024 * 1024 / pageSize) pageEntry c
  let c := { c with stage0LastMappedPfn := 4 * 1024 * 1024 / pageSize }
  let c := c.store stage0Pt1Addr 0
  let c := c.store (stage0PdAddr + 4 * (virtOffset / (4 * 1024 * 1024)))
    (stage0Pt1Addr ||| pteWritable ||| ptePresent)
  let c := c.store (stage0PdAddr + 4 * (pfaVirtOffset / (4 * 1024 * 1024)))
    (stage0Pt2Addr ||| pteWritable ||| ptePresent)
  let c := c.store stage0PdAddr (stage0Pt1Addr ||| 3)
  let c := c.store (stage0PdAddr + 4 * 1023) (stage0PdAddr ||| 3)
  -- `load_page_directory` and `enable_paging`
  { c with cr3 := stage0PdAddr, paging := true }

/-! ### The walk of the processor -/

/-- The physical page an entry refers to. -/
def target (w : ℕ) : Option ℕ := if Present w then some (pageRoundDn w) else none

/-- The physical address for a virtual one, if its translation is present. -/
def Cpu.translate (c : Cpu) (va : ℕ) : Option ℕ :=
  if c.paging then
    (target (c.mem (c.cr3 + 4 * vaPdIdx va))).bind fun table =>
      (target (c.mem (table + 4 * vaPtIdx va))).map (· + va % pageSize)
  else some va

/-- The page of the first page table with number `i`: mapped to the same number,
if it is part of the kernel image or the screen buffer. -/
def lowPage (last i : ℕ) : Option ℕ :=
  if (1 ≤ i ∧ i < last) ∨ i = 184 then some (i * pageSize) else none

/-- The tables as they show up in the last 4 MB: page `i` is the table in slot `i`
of the directory. -/
def tablePage (i : ℕ) : Option ℕ :=
  if i = 0 ∨ i = 768 then some stage0Pt1Addr
  else if i = 832 then some stage0Pt2Addr
  else if i = 1023 then some stage0PdAddr
  else none

/-- **The mapping that is meant**, for a kernel image that ends in page `last`: the image and the
screen at `VIRT_OFFSET` and at 0, the first 4 MB at `PFA_VIRT_OFFSET`, and the tables at the end. -/
def bootMap (last va : ℕ) : Option ℕ :=
  let page :=
    if vaPdIdx va = virtOffset / 2 ^ 22 ∨ vaPdIdx va = 0 then lowPage last (vaPtIdx va)
    else if vaPdIdx va = pfaVirtOffset / 2 ^ 22 then some (vaPtIdx va * pageSize)
    else if vaPdIdx va = 1023 then tablePage (vaPtIdx va)
    else none
  page.map (· + va % pageSize)

/-! ### What is in the tables -/

variable {c : Cpu} {kernelPhysicalEnd i : ℕ}

theorem store_mem (c : Cpu) (a v b : ℕ) : (c.store a v).mem b = if b = a then v else c.mem b := by
  simp [Cpu.store, Function.update_apply]

theorem fill_mem (table n : ℕ) (val : ℕ → ℕ) (c : Cpu) :
    (∀ p < n, (fill table n val c).mem (table + 4 * p) = val p) ∧
      ∀ a, (∀ p < n, a ≠ table + 4 * p) → (fill table n val c).mem a = c.mem a := by
  induction n with
  | zero => exact ⟨fun p hp => absurd hp (Nat.not_lt_zero p), fun a _ => rfl⟩
  | succ n ih =>
    obtain ⟨hin, hout⟩ := ih
    have hstep : fill table (n + 1) val c = (fill table n val c).store (table + 4 * n) (val n) := by
      rw [fill, List.range_succ, List.foldl_append, List.foldl_cons, List.foldl_nil, fill]
    rw [hstep]
    constructor
    · intro p hp
      rw [store_mem]
      split
      · rw [show p = n by omega]
      · exact hin p (by omega)
    · intro a ha
      rw [store_mem, if_neg (ha n (Nat.lt_succ_self n))]
      exact hout a fun p hp => ha p (Nat.lt_succ_of_lt hp)

/-- The entries of the page directory. -/
def directoryEntry (i : ℕ) : ℕ :=
  if i = 1023 then stage0PdAddr ||| 3
  else if i = 0 then stage0Pt1Addr ||| 3
  else if i = 832 then stage0Pt2Addr ||| pteWritable ||| ptePresent
  else if i = 768 then stage0Pt1Addr ||| pteWritable ||| ptePresent
  else pteWritable

/-- The entries of the first page table, over the old contents of memory. -/
def table1Entry (last : ℕ) (old : ℕ → ℕ) (i : ℕ) : ℕ :=
  if i = 0 then 0
  else if i = 184 then 0x000B8000 ||| 3
  else if i < last then pageEntry i
  else old (stage0Pt1Addr + 4 * i)

theorem lastPage_le (h : kernelPhysicalEnd < 2 ^ 20) : lastPage kernelPhysicalEnd ≤ 256 := by
  rw [lastPage, pageRoundUp, pageRoundDn]
  simp only [pageSize]
  omega

theorem slots : virtOffset / (4 * 1024 * 1024) = 768 ∧ pfaVirtOffset / (4 * 1024 * 1024) = 832 ∧
    4 * 1024 * 1024 / pageSize = 1024 := by decide

theorem word_ne {t u : ℕ} (ht : t % 4096 = 0) (hu : u % 4096 = 0) (hne : t ≠ u) (hi : i < 1024) :
    ∀ p < 1024, t + 4 * i ≠ u + 4 * p := by
  intro p hp
  omega

theorem directory_mem (h : kernelPhysicalEnd < 2 ^ 20) (hi : i < 1024) :
    (setUpStage0PageTables kernelPhysicalEnd c).mem (stage0PdAddr + 4 * i) = directoryEntry i := by
  have hlast := lastPage_le h
  have hpd : ∀ p, stage0PdAddr + 4 * i = stage0PdAddr + 4 * p ↔ i = p := fun p => by omega
  have hpt1 : ∀ p < 1024, stage0PdAddr + 4 * i ≠ stage0Pt1Addr + 4 * p :=
    word_ne (by decide) (by decide) (by decide) hi
  have hpt2 : ∀ p < 1024, stage0PdAddr + 4 * i ≠ stage0Pt2Addr + 4 * p :=
    word_ne (by decide) (by decide) (by decide) hi
  simp only [setUpStage0PageTables, store_mem, directoryEntry, slots]
  rw [(fill_mem stage0Pt2Addr 1024 pageEntry _).2 _ hpt2, store_mem,
    (fill_mem stage0Pt1Addr _ pageEntry _).2 _ fun p hp => hpt1 p (by omega),
    (fill_mem stage0PdAddr 1024 _ c).1 i hi]
  simp only [hpd, hpt1 184 (by decide), Nat.add_eq_left, Nat.mul_eq_zero,
    show stage0PdAddr + 4 * i ≠ stage0Pt1Addr from hpt1 0 (by decide), if_false,
    OfNat.ofNat_ne_zero, false_or]

theorem table1_mem (hi : i < 1024) :
    (setUpStage0PageTables kernelPhysicalEnd c).mem (stage0Pt1Addr + 4 * i) =
      table1Entry (lastPage kernelPhysicalEnd) c.mem i := by
  have hpt1 : ∀ p, stage0Pt1Addr + 4 * i = stage0Pt1Addr + 4 * p ↔ i = p := fun p => by omega
  have hpd : ∀ p < 1024, stage0Pt1Addr + 4 * i ≠ stage0PdAddr + 4 * p :=
    word_ne (by decide) (by decide) (by decide) hi
  have hpt2 : ∀ p < 1024, stage0Pt1Addr + 4 * i ≠ stage0Pt2Addr + 4 * p :=
    word_ne (by decide) (by decide) (by decide) hi
  obtain ⟨hin, hrest⟩ := fill_mem stage0Pt1Addr (lastPage kernelPhysicalEnd) pageEntry
    (fill stage0PdAddr 1024 (fun _ => pteWritable) c)
  -- the loop over the kernel image, over the old contents
  have hloop : (fill stage0Pt1Addr (lastPage kernelPhysicalEnd) pageEntry
      (fill stage0PdAddr 1024 (fun _ => pteWritable) c)).mem (stage0Pt1Addr + 4 * i) =
      if i < lastPage kernelPhysicalEnd then pageEntry i else c.mem (stage0Pt1Addr + 4 * i) := by
    split
    · rename_i hlt
      exact hin i hlt
    · rw [hrest _ fun p hp => by omega]
      exact (fill_mem stage0PdAddr 1024 _ c).2 _ hpd
  simp only [setUpStage0PageTables, store_mem, table1Entry, slots]
  rw [(fill_mem stage0Pt2Addr 1024 pageEntry _).2 _ hpt2, store_mem, hloop]
  simp only [hpd 1023 (by decide), hpd 832 (by decide), hpd 768 (by decide),
    show stage0Pt1Addr + 4 * i ≠ stage0PdAddr from hpd 0 (by decide), hpt1,
    Nat.add_eq_left, Nat.mul_eq_zero, if_false, OfNat.ofNat_ne_zero, false_or]

theorem table2_mem (hi : i < 1024) :
    (setUpStage0PageTables kernelPhysicalEnd c).mem (stage0Pt2Addr + 4 * i) = pageEntry i := by
  have hpd : ∀ p < 1024, stage0Pt2Addr + 4 * i ≠ stage0PdAddr + 4 * p :=
    word_ne (by decide) (by decide) (by decide) hi
  have hpt1 : ∀ p < 1024, stage0Pt2Addr + 4 * i ≠ stage0Pt1Addr + 4 * p :=
    word_ne (by decide) (by decide) (by decide) hi
  simp only [setUpStage0PageTables, store_mem, slots]
  rw [(fill_mem stage0Pt2Addr 1024 pageEntry _).1 i hi]
  simp only [hpd 1023 (by decide), hpd 832 (by decide), hpd 768 (by decide),
    show stage0Pt2Addr + 4 * i ≠ stage0PdAddr from hpd 0 (by decide),
    show stage0Pt2Addr + 4 * i ≠ stage0Pt1Addr from hpt1 0 (by decide), if_false]

/-! ### The mapping -/

theorem pageEntry_eq (p : ℕ) : pageEntry p = p * pageSize + 3 := by
  rw [pageEntry, Nat.or_assoc, show pteWritable ||| ptePresent = 3 by decide, Nat.mul_comm,
    show pageSize = 2 ^ 12 by decide, ← Nat.two_pow_add_eq_or_of_lt (show 3 < 2 ^ 12 by decide)]

theorem target_pageEntry (p : ℕ) : target (pageEntry p) = some (p * pageSize) := by
  have hpresent : Present (p * pageSize + 3) := by
    rw [present_iff, pageSize]
    omega
  rw [target, pageEntry_eq, if_pos hpresent, Option.some.injEq, pageRoundDn, pageSize]
  omega

theorem target_directoryEntry (i : ℕ) : target (directoryEntry i) = tablePage i := by
  rw [directoryEntry, tablePage]
  by_cases h1 : i = 1023
  · subst h1
    decide
  · by_cases h2 : i = 0
    · subst h2
      decide
    · by_cases h3 : i = 832
      · subst h3
        decide
      · by_cases h4 : i = 768
        · subst h4
          decide
        · simp only [h1, h2, h3, h4, or_self, if_false]
          decide

/-- An entry of the first page table is as it should be, unless nobody writes it
and the old contents look like an entry. -/
theorem target_table1Entry (last : ℕ) (old : ℕ → ℕ) (i : ℕ) :
    target (table1Entry last old i) = lowPage last i ↔
      (last ≤ i → i ≠ 0 → i ≠ 184 → ¬ Present (old (stage0Pt1Addr + 4 * i))) := by
  by_cases h0 : i = 0
  · subst h0
    simp [table1Entry, lowPage, target, not_present_zero]
  by_cases h1 : i = 184
  · subst h1
    have hscreen : target (0x000B8000 ||| 3) = some (184 * pageSize) := by decide
    have hright : target (table1Entry last old 184) = lowPage last 184 := by
      rw [table1Entry, if_neg h0, if_pos rfl, hscreen, lowPage, if_pos (.inr rfl)]
    exact ⟨fun _ _ _ hne => absurd rfl hne, fun _ => hright⟩
  by_cases h2 : i < last
  · have hright : target (table1Entry last old i) = lowPage last i := by
      rw [table1Entry, if_neg h0, if_neg h1, if_pos h2, target_pageEntry, lowPage,
        if_pos (.inl ⟨Nat.pos_of_ne_zero h0, h2⟩)]
    exact ⟨fun _ hle => absurd h2 (Nat.not_lt.mpr hle), fun _ => hright⟩
  · -- nobody writes the entry, and it should not be present
    have hout : ¬ ((1 ≤ i ∧ i < last) ∨ i = 184) := by omega
    rw [table1Entry, if_neg h0, if_neg h1, if_neg h2, lowPage, if_neg hout, target]
    by_cases hp : Present (old (stage0Pt1Addr + 4 * i))
    · simp [hp, h0, h1, Nat.not_lt.mp h2]
    · simp [hp]

theorem translate_setUp (h : kernelPhysicalEnd < 2 ^ 20) (va : ℕ) :
    (setUpStage0PageTables kernelPhysicalEnd c).translate va =
      (if vaPdIdx va = 768 ∨ vaPdIdx va = 0 then
        target (table1Entry (lastPage kernelPhysicalEnd) c.mem (vaPtIdx va))
      else if vaPdIdx va = 832 then some (vaPtIdx va * pageSize)
      else if vaPdIdx va = 1023 then tablePage (vaPtIdx va)
      else none).map (· + va % pageSize) := by
  have hpd : vaPdIdx va < 1024 := Nat.mod_lt _ (by decide)
  have hpt : vaPtIdx va < 1024 := Nat.mod_lt _ (by decide)
  have hwalk : (setUpStage0PageTables kernelPhysicalEnd c).translate va =
      (tablePage (vaPdIdx va)).bind fun table =>
        (target ((setUpStage0PageTables kernelPhysicalEnd c).mem (table + 4 * vaPtIdx va))).map
          (· + va % pageSize) := by
    rw [← target_directoryEntry, ← directory_mem h hpd]
    rfl
  rw [hwalk]
  by_cases h1 : vaPdIdx va = 768 ∨ vaPdIdx va = 0
  · rw [if_pos h1, tablePage, if_pos h1.symm, Option.bind_some, table1_mem hpt]
  · rw [if_neg h1, tablePage, if_neg fun h => h1 h.symm]
    by_cases h2 : vaPdIdx va = 832
    · rw [if_pos h2, if_pos h2, Option.bind_some, table2_mem hpt, target_pageEntry]
    · rw [if_neg h2, if_neg h2]
      by_cases h3 : vaPdIdx va = 1023
      · rw [if_pos h3, if_pos h3, Option.bind_some, directory_mem h hpt, target_directoryEntry]
      · rw [if_neg h3, if_neg h3]
        rfl

theorem bootMap_vmRange {last va : ℕ} (hlast : last ≤ 256) (hlo : virtOffset + 2 ^ 20 ≤ va)
    (hhi : va < pfaVirtOffset) : bootMap last va = none := by
  simp only [virtOffset, pfaVirtOffset] at hlo hhi
  have hpd : 768 ≤ vaPdIdx va ∧ vaPdIdx va < 832 := by
    rw [vaPdIdx]
    omega
  have hpage : vaPdIdx va = 768 → 256 ≤ vaPtIdx va := by
    rw [vaPdIdx, vaPtIdx]
    omega
  have hslots : virtOffset / 2 ^ 22 = 768 ∧ pfaVirtOffset / 2 ^ 22 = 832 := by decide
  rw [bootMap, hslots.1, hslots.2]
  by_cases h : vaPdIdx va = 768
  · have hout : ¬ ((1 ≤ vaPtIdx va ∧ vaPtIdx va < last) ∨ vaPtIdx va = 184) := by
      omega
    simp only [h, true_or, if_true, lowPage, if_neg hout, Option.map_none]
  · have h0 : vaPdIdx va ≠ 0 := by omega
    have h1 : vaPdIdx va ≠ 832 := by omega
    have h2 : vaPdIdx va ≠ 1023 := by omega
    simp only [h, h0, h1, h2, or_self, if_false, Option.map_none]

/-- **Boot mapping**: the tables translate every address as they should, and map nothing in the
range of `vmalloc`, iff the part of the first page table that is never written has no present
entry. -/
theorem boot_mapping_iff (h : kernelPhysicalEnd < 2 ^ 20) (c : Cpu) :
    ((∀ va < 2 ^ 32, (setUpStage0PageTables kernelPhysicalEnd c).translate va =
        bootMap (lastPage kernelPhysicalEnd) va) ∧
      ∀ va, virtOffset + 2 ^ 20 ≤ va → va < pfaVirtOffset →
        (setUpStage0PageTables kernelPhysicalEnd c).translate va = none) ↔
    ∀ i < 1024, lastPage kernelPhysicalEnd ≤ i → i ≠ 0 → i ≠ 184 →
      ¬ Present (c.mem (stage0Pt1Addr + 4 * i)) := by
  have hslots : virtOffset / 2 ^ 22 = 768 ∧ pfaVirtOffset / 2 ^ 22 = 832 := by decide
  constructor
  · rintro ⟨hmap, -⟩ i hi
    -- the entry decides about the page with its number at `VIRT_OFFSET`
    have hpd : vaPdIdx (virtOffset + i * 4096) = 768 := by
      rw [vaPdIdx, virtOffset]
      omega
    have hpt : vaPtIdx (virtOffset + i * 4096) = i := by
      rw [vaPtIdx, virtOffset]
      omega
    have hva := hmap (virtOffset + i * 4096) (by omega)
    rw [translate_setUp h, bootMap, hslots.1, hslots.2, hpd, hpt] at hva
    exact (target_table1Entry _ c.mem i).mp
      (Option.map_injective (fun x y hxy => Nat.add_right_cancel hxy) hva)
  · intro hold
    have hmap : ∀ va, (setUpStage0PageTables kernelPhysicalEnd c).translate va =
        bootMap (lastPage kernelPhysicalEnd) va := by
      intro va
      have hpt : vaPtIdx va < 1024 := Nat.mod_lt _ (by decide)
      rw [translate_setUp h, (target_table1Entry _ c.mem _).mpr (hold _ hpt), bootMap, hslots.1,
        hslots.2]
    refine ⟨fun va _ => hmap va, fun va hlo hhi => ?_⟩
    rw [hmap, bootMap_vmRange (lastPage_le h) hlo hhi]

/-- A machine whose memory is clear. -/
def clearMemory : Cpu := ⟨fun _ => 0, 0, false, 0⟩

theorem boot_mapping_iff_clearMemory :
    (∀ va < 2 ^ 32, (setUpStage0PageTables 0x40000 clearMemory).translate va =
      bootMap (lastPage 0x40000) va) ∧
    ∀ va, virtOffset + 2 ^ 20 ≤ va → va < pfaVirtOffset →
      (setUpStage0PageTables 0x40000 clearMemory).translate va = none :=
  (boot_mapping_iff (by decide) clearMemory).mpr fun _ _ _ _ _ => not_present_zero

/-- With the word `0x12345003` everywhere in memory, the first page of the range of
`vmalloc` is mapped after the tables have been set up. -/
theorem stale_entry_mapped :
    (setUpStage0PageTables 0x40000 ⟨fun _ => 0x12345003, 0, false, 0⟩).translate 0xC0100000 =
      some 0x12345000 ∧ bootMap (lastPage 0x40000) 0xC0100000 = none := by
  constructor
  · rw [translate_setUp (by decide)]
    decide
  · decide

end Stage0
