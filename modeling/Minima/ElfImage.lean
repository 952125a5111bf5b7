/-
The image of a program (`load_segment` and `load_32` of `exec.c` on top of `mmap`).

The loader runs on the kernel's memory, with a file whose reads deliver what the file has.
Segment by segment `mmap` backs pages and stores bytes; what is in memory when `load_32` has
succeeded is worked out address by address.

* `kernelOps` — the kernel as the loader uses it;
* `load32_spec` — memory after `load_32` is the image of the segments, one after the other;
* `image_at` — what is at an address of a segment whose pages no other segment shares;
* `load32_image_iff` — for which headers memory is what the header says;
* `bss_from_the_file` — a segment whose last bytes should be zero and are not.
-/
import Minima.UserSpace

open Memory Paging UserSpace

namespace ElfImage

open Elf List

/-! ### The kernel as the loader uses it -/

/-- The bytes of the file that a read delivers: `min(bytes, size - at)` of them. -/
def delivered (data : List UInt8) (bytes at_ : ℕ) : List UInt8 := (data.drop at_).take bytes

/-- A file that delivers its bytes. -/
def fileOf (data : List UInt8) : Exec.File where
  readAt bytes off := (Int.ofNat (delivered data bytes off).length,
    (delivered data bytes off).map UInt8.toNat)
  readAt_le bytes off := by
    rw [length_map, delivered, length_take]
    exact Nat.min_le_left _ _

/-- What is in a buffer after a read; past the bytes that are delivered there is whatever was
there before. -/
def readBuf (data : List UInt8) (junk : Buf) (bytes at_ : ℕ) : Buf := fun i =>
  (delivered data bytes at_)[i]?.getD (junk i)

/-- The areas of the task and the kernel's memory, up to a fault. -/
abbrev Load := StateT (List Vma.Area × Kernel.State) (Except Fault)

/-- The kernel; `junk` is what the buffers of the loader hold at first. -/
def kernelOps (fuel : ℕ) (data : List UInt8) (junk : ℕ → ℕ → Buf) : Ops Load where
  readAt bytes at_ := fun t =>
    .ok ((Int.ofNat (delivered data bytes at_).length, readBuf data (junk bytes at_) bytes at_), t)
  kmalloc n := fun (vmas, k) => do
    let (p, k) ← Kernel.kmalloc fuel n k
    return (p, vmas, k)
  kfree p := fun (vmas, k) => do
    let k ← Kernel.kfree fuel p k
    return ((), vmas, k)
  mmap addr len off := fun (vmas, k) => do
    let (ptr, new, k) ← UserSpace.mmap fuel addr len segmentProt (fileOf data) off k
    return (ptr, vmas ++ [new], k)
  skip _ := fun t => .ok ((), t)

/-- The header of the file, as `load_32` reads it. -/
def elfHdr (data : List UInt8) (junk : ℕ → ℕ → Buf) : Buf :=
  readBuf data (junk sizeofFile 0) sizeofFile 0

/-- The program headers, as `load_32` reads them. -/
def phdrs (data : List UInt8) (junk : ℕ → ℕ → Buf) : List ProgHdr :=
  let elf := elfHdr data junk
  let bytes := nProgramHeaders elf * sizeofProgHdr
  progHdrs (readBuf data (junk bytes (programHeaderTable elf)) bytes (programHeaderTable elf))
    (nProgramHeaders elf)

variable {fuel : ℕ} {data : List UInt8} {junk : ℕ → ℕ → Buf} {α β : Type}

theorem load_bind (x : Load α) (f : α → Load β) (t : List Vma.Area × Kernel.State) :
    (x >>= f) t = x t >>= fun r => f r.1 r.2 := rfl

theorem load_read (bytes at_ : ℕ) (f : ℤ × Buf → Load β) (t : List Vma.Area × Kernel.State) :
    ((kernelOps fuel data junk).readAt bytes at_ >>= f) t =
      f (Int.ofNat (delivered data bytes at_).length, readBuf data (junk bytes at_) bytes at_) t :=
  rfl

theorem load_pure (a : α) (t : List Vma.Area × Kernel.State) :
    (pure a : Load α) t = .ok (a, t) := rfl

/-! ### Memory after `load_32` -/

/-- What loading one segment does to the image. -/
def segStep (data : List UInt8) (M : Image) (ph : ProgHdr) : Image :=
  (M.back (pageStart ph) (pageStop ph)).write ph.virtAddr
    ((delivered data ph.memBytes ph.offset).map UInt8.toNat)

/-- The memory a segment is about lies below `VIRT_OFFSET`. -/
def Below (ph : ProgHdr) : Prop := ph.virtAddr + max ph.segBytes ph.memBytes ≤ virtOffset

section Spec

open Kernel

variable {boot : ℕ} {all : Multiset ℕ} {live vm : List (ℕ × ℕ)} {vmas vmas' : List Vma.Area}
  {k k' : Kernel.State} {ph : ProgHdr} {l : List ProgHdr} {p n : ℕ} {ret : ℤ}

theorem end_lt_of_mmap {r : ℕ × Vma.Area × Kernel.State} {off prot addr len : ℕ} {file : Exec.File}
    (hle : addr + len ≤ virtOffset) (hcall : UserSpace.mmap fuel addr len prot file off k = .ok r) :
    addr + len < virtOffset := by
  have hadd : add32 addr len = addr + len := add32_eq (by simp only [virtOffset] at hle; omega)
  have hspec := pageRoundUp_spec (x := addr + len) (by simp only [virtOffset, pageSize] at *; omega)
  by_contra hge
  rw [UserSpace.mmap, hadd, if_pos (by omega)] at hcall
  cases hcall

theorem loadSegment_spec (h : UserSpace.Inv boot all ⟨k, live, vm⟩) (hbelow : Below ph)
    (hcall : loadSegment (kernelOps fuel data junk) ph (vmas, k) = .ok (ret, vmas', k')) :
    ∃ self, UserSpace.Inv boot all ⟨k', (self, Vma.sizeofVma) :: live, vm⟩ ∧
      image k'.rest.paging = segStep data (image k.rest.paging) ph := by
  rw [loadSegment, load_bind, bind_eq_ok] at hcall
  obtain ⟨⟨ptr, t⟩, hmap, hcall⟩ := hcall
  simp only [kernelOps, bind_eq_ok] at hmap
  obtain ⟨⟨ptr', new, k1⟩, hmap, heq⟩ := hmap
  obtain ⟨rfl, rfl⟩ := Prod.mk.inj (Except.ok.inj heq)
  have hend := end_lt_of_mmap (le_trans (by omega) hbelow) hmap
  obtain ⟨h1, himage⟩ := mmap_spec h hend present_segmentProt hmap
  have hk : k' = k1 := by
    split at hcall <;> exact (congrArg Prod.snd (Prod.mk.inj (Except.ok.inj hcall)).2).symm
  rw [hk]
  exact ⟨new.self, h1, himage⟩

theorem loadSegments_spec (h : UserSpace.Inv boot all ⟨k, live, vm⟩) (hp : (p, n) ∈ live ++ vm)
    (hbelow : ∀ ph ∈ loads l, Below ph)
    (hcall : loadSegments (kernelOps fuel data junk) p ret l (vmas, k) = .ok (0, vmas', k')) :
    (∃ live' vm', UserSpace.Inv boot all ⟨k', live', vm'⟩) ∧
      image k'.rest.paging = (loads l).foldl (segStep data) (image k.rest.paging) := by
  induction l generalizing vmas k live ret with
  | nil =>
    rw [loadSegments, load_bind, bind_eq_ok] at hcall
    obtain ⟨⟨u, t⟩, hfree, hcall⟩ := hcall
    simp only [kernelOps, bind_eq_ok] at hfree
    obtain ⟨k1, hfree, heq⟩ := hfree
    obtain ⟨-, rfl⟩ := Prod.mk.inj (Except.ok.inj heq)
    obtain ⟨-, heq⟩ := Prod.mk.inj (Except.ok.inj hcall)
    obtain ⟨-, rfl⟩ := Prod.mk.inj heq
    obtain ⟨h1, hsame⟩ := h.kernel fun hb => hb.kfree hp hfree
    exact ⟨⟨_, _, h1⟩, hsame.image⟩
  | cons ph l ih =>
    rw [loadSegments] at hcall
    by_cases htype : ph.type = stLoad
    · have hloads : loads (ph :: l) = ph :: loads l := filter_cons_of_pos (by simp [htype])
      rw [hloads] at hbelow ⊢
      rw [if_neg (not_not.mpr htype), load_bind, bind_eq_ok] at hcall
      obtain ⟨⟨ret', vmas1, k1⟩, hseg, hcall⟩ := hcall
      obtain ⟨self, h1, himage⟩ := loadSegment_spec h (hbelow ph mem_cons_self) hseg
      by_cases hret : ret' = 0
      · simp only [hret, ne_eq, not_true_eq_false, if_false] at hcall
        obtain ⟨hinv, hfold⟩ := ih h1 (mem_cons_of_mem _ hp)
          (fun ph hph => hbelow ph (mem_cons_of_mem _ hph)) hcall
        exact ⟨hinv, by rw [hfold, himage, foldl_cons]⟩
      · simp only [ne_eq, hret, not_false_eq_true, if_true, load_pure] at hcall
        exact absurd (Prod.mk.inj (Except.ok.inj hcall)).1 hret
    · have hloads : loads (ph :: l) = loads l := filter_cons_of_neg (by simp [htype])
      rw [hloads] at hbelow ⊢
      rw [if_pos htype, load_bind] at hcall
      exact ih h hp hbelow hcall

theorem le16_lt (b : Buf) (i : ℕ) : le16 b i < 2 ^ 16 := by
  have h0 := (b i).toNat_lt
  have h1 := (b (i + 1)).toNat_lt
  simp only [le16]
  omega

theorem kmalloc_spec (h : UserSpace.Inv boot all ⟨k, live, vm⟩) (hn : n ≤ 0xFFFFF000)
    (hcall : Kernel.kmalloc fuel n k = .ok (p, k')) :
    ∃ live' vm', UserSpace.Inv boot all ⟨k', live', vm'⟩ ∧ (p, n) ∈ live' ++ vm' ∧
      image k'.rest.paging = image k.rest.paging := by
  obtain ⟨h', hsame⟩ := h.kernel fun hb => hb.kmalloc hn hcall
  rw [Machine.allocated] at h' hsame
  by_cases hsmall : n ≤ pageSize
  · rw [if_pos hsmall] at h' hsame
    exact ⟨_, _, h', mem_append_left _ mem_cons_self, hsame.image⟩
  · rw [if_neg hsmall] at h' hsame
    exact ⟨_, _, h', mem_append_right _ mem_cons_self, hsame.image⟩

theorem load32_spec {entryOut entry : ℕ} (h : UserSpace.Inv boot all ⟨k, live, vm⟩)
    (hbelow : ∀ ph ∈ loads (phdrs data junk), Below ph)
    (hcall : load32 (kernelOps fuel data junk) entryOut (vmas, k) = .ok ((0, entry), vmas', k')) :
    (∃ live' vm', UserSpace.Inv boot all ⟨k', live', vm'⟩) ∧
      image k'.rest.paging =
        (loads (phdrs data junk)).foldl (segStep data) (image k.rest.paging) := by
  have hpos : ∀ m : ℕ, ¬ Int.ofNat m < 0 := fun m => (Int.natCast_nonneg m).not_gt
  rw [load32, load_read] at hcall
  simp only [hpos, if_false] at hcall
  -- the sizes of the entries are checked
  split at hcall
  · cases hcall
  split at hcall
  · cases hcall
  -- room for the table, and the table
  rw [loadTable, load_bind, bind_eq_ok] at hcall
  obtain ⟨⟨p, t⟩, halloc, hcall⟩ := hcall
  simp only [kernelOps, bind_eq_ok] at halloc
  obtain ⟨⟨p', k1⟩, halloc, heq⟩ := halloc
  obtain ⟨rfl, rfl⟩ := Prod.mk.inj (Except.ok.inj heq)
  have hcount := le16_lt (elfHdr data junk) 44
  have hsize : nProgramHeaders (elfHdr data junk) * sizeofProgHdr ≤ 0xFFFFF000 := by
    simp only [nProgramHeaders, sizeofProgHdr]
    omega
  obtain ⟨live1, vm1, h1, hp, himage⟩ := kmalloc_spec h hsize halloc
  rw [load_read] at hcall
  simp only [hpos, if_false] at hcall
  rw [load_bind, bind_eq_ok] at hcall
  obtain ⟨⟨ret, vmas2, k2⟩, hsegs, hcall⟩ := hcall
  obtain ⟨heq, hstate⟩ := Prod.mk.inj (Except.ok.inj hcall)
  obtain ⟨rfl, -⟩ := Prod.mk.inj heq
  obtain ⟨rfl, rfl⟩ := Prod.mk.inj hstate
  rw [← himage]
  exact loadSegments_spec h1 hp hbelow hsegs

end Spec

/-! ### What is at an address -/

section At

variable {M : Image} {ph : ProgHdr} {l : List ProgHdr} {v i : ℕ}

/-- The pages of the memory a segment is about. -/
def Region (ph : ProgHdr) (v : ℕ) : Prop :=
  pageStart ph ≤ v ∧ v < pageRoundUp (ph.virtAddr + max ph.segBytes ph.memBytes)

/-- No two segments have pages in common. -/
def RegionsApart (l : List ProgHdr) : Prop :=
  l.Pairwise fun ph ph' => ∀ v, Region ph v → ¬ Region ph' v

theorem pageRoundUp_below {x : ℕ} (hx : x ≤ virtOffset) :
    pageRoundUp x % pageSize = 0 ∧ x ≤ pageRoundUp x ∧ pageRoundUp x < x + pageSize :=
  pageRoundUp_spec (by simp only [virtOffset, pageSize] at *; omega)

theorem Below.mem_le (h : Below ph) : ph.virtAddr + ph.memBytes ≤ virtOffset :=
  le_trans (by omega) h

theorem Below.region (h : Below ph) (hv : Pages ph v) : Region ph v := by
  obtain ⟨hmod, hge, hlt⟩ := pageRoundUp_below h.mem_le
  obtain ⟨hmod', hge', hlt'⟩ := pageRoundUp_below h
  obtain ⟨hlo, hhi⟩ := hv
  refine ⟨hlo, ?_⟩
  rw [pageStop] at hhi
  simp only [pageSize] at *
  omega

theorem Below.region_add (h : Below ph) (hi : i < max ph.segBytes ph.memBytes) :
    Region ph (ph.virtAddr + i) := by
  have hge := (pageRoundUp_below h).2.1
  have hdn : pageRoundDn ph.virtAddr ≤ ph.virtAddr := Nat.div_mul_le_self _ _
  exact ⟨by rw [pageStart]; omega, by omega⟩

theorem getElem?_delivered (bytes at_ : ℕ) :
    (delivered data bytes at_)[i]? = if i < bytes then data[at_ + i]? else none := by
  rw [delivered, getElem?_take, getElem?_drop]

theorem length_delivered_le (bytes at_ : ℕ) : (delivered data bytes at_).length ≤ bytes := by
  rw [delivered, length_take]
  exact Nat.min_le_left _ _

theorem segStep_of_not_pages (h : Below ph) (hv : ¬ Pages ph v) : segStep data M ph v = M v := by
  have hge := (pageRoundUp_below h.mem_le).2.1
  have hdn : pageRoundDn ph.virtAddr ≤ ph.virtAddr := Nat.div_mul_le_self _ _
  have hlen : (delivered data ph.memBytes ph.offset).length ≤ ph.memBytes :=
    length_delivered_le ph.memBytes ph.offset
  rw [Pages, pageStart, pageStop] at hv
  rw [segStep, Image.write, Image.back, length_map, pageStart, pageStop, if_neg (by omega),
    if_neg hv]

theorem foldl_of_not_pages (hbelow : ∀ ph ∈ l, Below ph) (hv : ∀ ph ∈ l, ¬ Pages ph v) :
    l.foldl (segStep data) M v = M v := by
  induction l generalizing M with
  | nil => rfl
  | cons ph l ih =>
    rw [foldl_cons, ih (fun ph hph => hbelow ph (mem_cons_of_mem _ hph))
      (fun ph hph => hv ph (mem_cons_of_mem _ hph)),
      segStep_of_not_pages (hbelow ph mem_cons_self) (hv ph mem_cons_self)]

theorem segStep_congr {M' : Image} (h : M v = M' v) :
    segStep data M ph v = segStep data M' ph v := by
  rw [segStep, segStep, Image.write, Image.write, Image.back, Image.back, h]

theorem image_at (hbelow : ∀ ph ∈ l, Below ph) (hapart : RegionsApart l) (hph : ph ∈ l)
    (hv : Region ph v) (hM : M v = none) :
    l.foldl (segStep data) M v = segStep data (fun _ => none) ph v := by
  induction l generalizing M with
  | nil => cases hph
  | cons x l ih =>
    obtain ⟨hfirst, hrest⟩ := pairwise_cons.mp hapart
    have hbelow' : ∀ ph ∈ l, Below ph := fun ph hph => hbelow ph (mem_cons_of_mem _ hph)
    rw [foldl_cons]
    rcases mem_cons.mp hph with rfl | hph
    · rw [foldl_of_not_pages hbelow' fun y hy hpages =>
        hfirst y hy v hv ((hbelow' y hy).region hpages)]
      exact segStep_congr hM
    · refine ih hbelow' hrest hph ?_
      rw [segStep_of_not_pages (hbelow x mem_cons_self), hM]
      exact fun hpages => hfirst ph hph v ((hbelow x mem_cons_self).region hpages) hv

/-- The bytes of a segment: the file's as far as `mem_bytes` and the file go, then zeros to the end
of the page. -/
theorem segStep_none (h : Below ph) (i : ℕ) :
    segStep data (fun _ => none) ph (ph.virtAddr + i) =
      if i < ph.memBytes then some ((data[ph.offset + i]?.map UInt8.toNat).getD 0)
      else if ph.virtAddr + i < pageStop ph then some 0 else none := by
  have hge := (pageRoundUp_below h.mem_le).2.1
  have hdn : pageRoundDn ph.virtAddr ≤ ph.virtAddr := Nat.div_mul_le_self _ _
  have hget : (delivered data ph.memBytes ph.offset)[i]? =
      if i < ph.memBytes then data[ph.offset + i]? else none :=
    getElem?_delivered ph.memBytes ph.offset
  have hlen : (delivered data ph.memBytes ph.offset).length ≤ ph.memBytes :=
    length_delivered_le ph.memBytes ph.offset
  rw [segStep, Image.write, Image.back, length_map, pageStart, Nat.add_sub_cancel_left,
    getElem?_map]
  by_cases hin : i < (delivered data ph.memBytes ph.offset).length
  · rw [if_pos (by omega), hget, if_pos (by omega), if_pos (by omega)]
    rw [getElem?_eq_getElem hin, if_pos (by omega)] at hget
    rw [← hget]
    rfl
  · rw [if_neg (by omega)]
    rw [getElem?_eq_none (by omega)] at hget
    by_cases hmem : i < ph.memBytes
    · rw [if_pos hmem] at hget ⊢
      rw [← hget, if_pos (by rw [pageStop]; omega)]
      rfl
    · rw [if_neg hmem]
      by_cases hpage : ph.virtAddr + i < pageStop ph
      · rw [if_pos hpage, if_pos ⟨by omega, hpage⟩]
        rfl
      · rw [if_neg hpage, if_neg fun hp => hpage hp.2]

end At

/-! ### What the headers say -/

section Headers

open Kernel

variable {boot : ℕ} {all : Multiset ℕ} {μ : Machine} {ph : ProgHdr} {vmas : List Vma.Area}
  {k : Kernel.State} {s : Paging.State}

/-- Memory is what the header says: `seg_bytes` bytes of the file, and zeros up to `mem_bytes`. -/
structure Loaded (data : List UInt8) (s : Paging.State) (ph : ProgHdr) : Prop where
  file : ∀ i < ph.segBytes, ∃ b, data[ph.offset + i]? = some b ∧
    s.byte (ph.virtAddr + i) = some b.toNat
  zero : ∀ i, ph.segBytes ≤ i → i < ph.memBytes → s.byte (ph.virtAddr + i) = some 0

/-- The file has the bytes of the segment; they do not reach another page than `mem_bytes` do; and
between the two sizes there are only zeros in the file. -/
structure Padded (data : List UInt8) (ph : ProgHdr) : Prop where
  long : ph.segBytes = 0 ∨ ph.offset + ph.segBytes ≤ data.length
  page : ph.virtAddr + ph.segBytes ≤ pageStop ph
  zero : ∀ i, min ph.segBytes ph.memBytes ≤ i → i < max ph.segBytes ph.memBytes →
    ∀ b, data[ph.offset + i]? = some b → b = 0

theorem toNat_eq_zero {b : UInt8} : b.toNat = 0 ↔ b = 0 :=
  ⟨fun h => UInt8.toNat.inj h, fun h => by rw [h]; rfl⟩

theorem loaded_iff (h : Below ph)
    (hbyte : ∀ i < max ph.segBytes ph.memBytes, s.byte (ph.virtAddr + i) =
      segStep data (fun _ => none) ph (ph.virtAddr + i)) :
    Loaded data s ph ↔ Padded data ph := by
  have hge := (pageRoundUp_below h.mem_le).2.1
  simp only [segStep_none h] at hbyte
  constructor
  · intro hl
    have hexists : ∀ i < ph.segBytes, ph.offset + i < data.length := by
      intro i hi
      obtain ⟨b, hb, -⟩ := hl.file i hi
      exact (List.getElem?_eq_some_iff.mp hb).1
    refine ⟨?_, ?_, fun i hlo hhi b hb => ?_⟩
    · by_cases hzero : ph.segBytes = 0
      · exact .inl hzero
      · have := hexists (ph.segBytes - 1) (by omega)
        exact .inr (by omega)
    · -- the last byte of the file is in memory
      by_contra hout
      rw [pageStop] at hout
      obtain ⟨b, -, hb⟩ := hl.file (ph.segBytes - 1) (by omega)
      rw [hbyte _ (by omega), if_neg (by omega), if_neg (by rw [pageStop]; omega)] at hb
      cases hb
    · rw [← toNat_eq_zero]
      by_cases hseg : i < ph.segBytes
      · obtain ⟨b', hb', hmem⟩ := hl.file i hseg
        rw [hb] at hb'
        obtain rfl := Option.some.inj hb'
        rw [hbyte i hhi, if_neg (by omega)] at hmem
        split at hmem
        · exact (Option.some.inj hmem).symm
        · cases hmem
      · have hmem := hl.zero i (by omega) (by omega)
        rw [hbyte i hhi, if_pos (by omega), hb] at hmem
        exact Option.some.inj hmem
  · intro hp
    refine ⟨fun i hi => ?_, fun i hlo hhi => ?_⟩
    · have hlt : ph.offset + i < data.length := by
        rcases hp.long with hzero | hlong
        · omega
        · omega
      have hb := getElem?_eq_getElem hlt
      refine ⟨_, hb, ?_⟩
      rw [hbyte i (by omega)]
      by_cases hmem : i < ph.memBytes
      · rw [if_pos hmem, hb]
        rfl
      · have hpage := hp.page
        rw [if_neg hmem, if_pos (by omega), hp.zero i (by omega) (by omega) _ hb]
        rfl
    · rw [hbyte i (by omega), if_pos hhi]
      cases hb : data[ph.offset + i]? with
      | none => rfl
      | some b =>
        rw [hp.zero i (by omega) (by omega) b hb]
        rfl

/-- **The contents of an ELF image.**  When `load_32` has succeeded with segments whose pages are
apart and below `VIRT_OFFSET`, memory is what the headers say exactly when they are padded. -/
theorem load32_image_iff {entryOut entry : ℕ} (h : Fresh boot all μ)
    (hbelow : ∀ ph ∈ loads (phdrs data junk), Below ph)
    (hapart : RegionsApart (loads (phdrs data junk)))
    (hcall : load32 (kernelOps fuel data junk) entryOut ([], μ.state) = .ok ((0, entry), vmas, k)) :
    (∀ ph ∈ loads (phdrs data junk), Loaded data k.rest.paging ph) ↔
      ∀ ph ∈ loads (phdrs data junk), Padded data ph := by
  obtain ⟨-, himage⟩ := load32_spec h.inv hbelow hcall
  refine forall₂_congr fun ph hph => loaded_iff (hbelow ph hph) fun i hi => ?_
  have hb : ph.virtAddr + i < virtOffset := by
    have hle := hbelow ph hph
    rw [Below] at hle
    omega
  have hnone : image μ.state.rest.paging (ph.virtAddr + i) = none := by
    rw [image_of_lt hb]
    exact byte_of_walk_none (h.absent _ hb)
  rw [← image_of_lt hb, himage,
    image_at hbelow hapart hph ((hbelow ph hph).region_add hi) hnone]

end Headers

/-! ### A file with one segment -/

section OneSegment

open Kernel

/-- An ELF file with one program header: a segment at `0x1000` with its bytes at the end of the
file. -/
def elfFile (seg mem : UInt8) (tail : List UInt8) : List UInt8 :=
  List.replicate 28 0 ++ [52, 0, 0, 0] ++ List.replicate 10 0 ++ [32, 0, 1, 0, 40, 0] ++
    List.replicate 4 0 ++ [1, 0, 0, 0, 84, 0, 0, 0, 0, 0x10, 0, 0, 0, 0, 0, 0, seg, 0, 0, 0,
      mem, 0, 0, 0] ++ List.replicate 8 0 ++ tail

/-- The file is loaded after the kernel has started with eight frames: what `load_32` returns,
and the byte at `va`. -/
def loadOutcome (data : List UInt8) (va : ℕ) : Option (ℤ × Option ℕ) :=
  firstState.bind fun k0 =>
    (load32 (kernelOps 2 data fun _ _ _ => 0) 0 ([], k0)).toOption.map fun r =>
      (r.1.1, r.2.2.rest.paging.byte va)

theorem exists_of_loadOutcome {data : List UInt8} {va : ℕ} {b : Option ℕ}
    (h : loadOutcome data va = some (0, b)) :
    ∃ k0 vmas k entry, Initial 0xC0020000 eightFrames ⟨k0, [], []⟩ ∧
      load32 (kernelOps 2 data fun _ _ _ => 0) 0 ([], k0) = .ok ((0, entry), vmas, k) ∧
      k.rest.paging.byte va = b := by
  obtain ⟨k0, hk0, h⟩ := Option.bind_eq_some_iff.mp h
  obtain ⟨⟨⟨ret, entry⟩, vmas, k⟩, hload, heq⟩ := Option.map_eq_some_iff.mp h
  obtain ⟨rfl, hbyte⟩ := Prod.mk.inj heq
  exact ⟨k0, vmas, k, entry, initial_firstState hk0, toOption_eq_some.mp hload, hbyte⟩

/-- A segment of four bytes, with four more that are zero because the file ends. -/
theorem padded_segment_loaded : ∃ k0 vmas k entry, Initial 0xC0020000 eightFrames ⟨k0, [], []⟩ ∧
    load32 (kernelOps 2 (elfFile 4 8 [1, 2, 3, 4]) fun _ _ _ => 0) 0 ([], k0) =
      .ok ((0, entry), vmas, k) ∧
    loads (phdrs (elfFile 4 8 [1, 2, 3, 4]) fun _ _ _ => 0) = [⟨stLoad, 84, 0x1000, 4, 8⟩] ∧
    ∀ ph ∈ loads (phdrs (elfFile 4 8 [1, 2, 3, 4]) fun _ _ _ => 0),
      Loaded (elfFile 4 8 [1, 2, 3, 4]) k.rest.paging ph := by
  obtain ⟨k0, vmas, k, entry, hinit, hload, -⟩ := exists_of_loadOutcome
    (show loadOutcome (elfFile 4 8 [1, 2, 3, 4]) 0x1000 = some (0, some 1) by decide +kernel)
  have hloads : loads (phdrs (elfFile 4 8 [1, 2, 3, 4]) fun _ _ _ => 0) =
      [⟨stLoad, 84, 0x1000, 4, 8⟩] := by decide +kernel
  refine ⟨k0, vmas, k, entry, hinit, hload, hloads, (load32_image_iff (fresh_eightFrames hinit)
    (fun ph hph => ?_) ?_ hload).mpr fun ph hph => ?_⟩
  · rw [hloads, mem_singleton] at hph
    subst hph
    show 0x1000 + max 4 8 ≤ virtOffset
    decide
  · rw [hloads]
    exact pairwise_singleton _ _
  · rw [hloads, mem_singleton] at hph
    subst hph
    refine ⟨.inr (by decide), by decide, fun i hlo hhi b hb => ?_⟩
    replace hlo : 4 ≤ i := hlo
    rw [getElem?_eq_none] at hb
    · cases hb
    · show 88 ≤ 84 + i
      omega

/-- **Bytes that should be zero** come from the file: `seg_bytes` is two, `mem_bytes` four, and the
third byte in memory is the third byte of the file. -/
theorem bss_from_the_file : ∃ k0 vmas k entry, Initial 0xC0020000 eightFrames ⟨k0, [], []⟩ ∧
    load32 (kernelOps 2 (elfFile 2 4 [1, 2, 3, 4]) fun _ _ _ => 0) 0 ([], k0) =
      .ok ((0, entry), vmas, k) ∧
    loads (phdrs (elfFile 2 4 [1, 2, 3, 4]) fun _ _ _ => 0) = [⟨stLoad, 84, 0x1000, 2, 4⟩] ∧
    k.rest.paging.byte 0x1002 = some 3 ∧
    ¬ Loaded (elfFile 2 4 [1, 2, 3, 4]) k.rest.paging ⟨stLoad, 84, 0x1000, 2, 4⟩ := by
  obtain ⟨k0, vmas, k, entry, hinit, hload, hbyte⟩ := exists_of_loadOutcome
    (show loadOutcome (elfFile 2 4 [1, 2, 3, 4]) 0x1002 = some (0, some 3) by decide +kernel)
  refine ⟨k0, vmas, k, entry, hinit, hload, by decide +kernel, hbyte, fun hl => ?_⟩
  have hzero : k.rest.paging.byte 0x1002 = some 0 := hl.zero 2 le_rfl (by decide)
  rw [hbyte] at hzero
  cases hzero

end OneSegment

end ElfImage
