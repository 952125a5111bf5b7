/-
The memory of a program: `mmap`, `mprotect` and `task_unmap` of `mm/vma.c`.

The pages of a program lie below `VIRT_OFFSET`.  Its page tables and frames come from the pool
the kernel's allocators use as well, and `mmap` and `task_unmap` call these.  So the two parts
are looked at together: the allocators leave what the program sees alone, and mapping and
unmapping its pages leaves the allocators alone.

* `mmap`, `mapAll`, `taskUnmap` — the functions of the source;
* `Image` — memory as a program sees it, and what is done to it;
* `Inv` — the allocators are in order beside the pages of the program;
* `mmap_spec`, `taskUnmap_spec` — what both functions do to the image;
* `load_unload_conserves_iff` — which lists of segments can be mapped and unmapped again.
-/
import Minima.Elf
import Minima.Protect

open Memory Paging

namespace UserSpace

open Multiset (mem_add)
open Exec (File mprotect protectPage shortFile)
open Vma (Area sizeofVma)
open Function Finset List

/-! ### The functions of the source -/

/-- One byte is stored at a virtual address; `do_page_fault` kills the task if the page is not
there. -/
def storeByte (s : Paging.State) (va byte : ℕ) : Except Fault Paging.State :=
  match s.walk va with
  | none => .error .panic
  | some f => .ok ⟨s.toMemory.store (f + va % pageSize) byte, s.pageDirectory⟩

/-- Bytes are stored one after the other. -/
def storeBytes (addr : ℕ) : List ℕ → Paging.State → Except Fault Paging.State
  | [], s => .ok s
  | byte :: bytes, s => do
    let s ← storeByte s addr byte
    storeBytes (add32 addr 1) bytes s

/-- `mmap`, as long as there are frames: the pointer it returns, and the area that goes on the
task's list. -/
def mmap (fuel addr len prot : ℕ) (file : File) (off : ℕ) (s : Kernel.State) :
    Except Fault (ℕ × Area × Kernel.State) :=
  let start := pageRoundDn addr
  let stop := pageRoundUp (add32 addr len)
  if ¬ stop < virtOffset then .error .assertion
  else do
    let (self, s) ← Kernel.kmalloc fuel sizeofVma s
    let new : Area := ⟨self, start, sub32 stop start⟩
    let p ← vmMapServed new.start new.size s.rest.paging
    let (_, p) := mprotect start (sub32 stop start) prot p
    let (ret, bytes) := file.readAt len off
    let p ← storeBytes addr bytes p
    if ret < 0 then .error .halted
    else return (addr, new, { s with rest := s.rest.withPaging p })

/-- The `prot` that `load_segment` calls `mmap` with. -/
def segmentProt : ℕ := Exec.protRead ||| Exec.protWrite ||| Exec.protUsr

/-- `load_segment` for one header after the other; the areas go to the end of the task's list. -/
def mapAll (fuel : ℕ) (file : File) :
    List Elf.ProgHdr → List Area × Kernel.State → Except Fault (List Area × Kernel.State)
  | [], t => .ok t
  | ph :: l, (vmas, s) => do
    let (_, new, s) ← mmap fuel ph.virtAddr ph.memBytes segmentProt file ph.offset s
    mapAll fuel file l (vmas ++ [new], s)

/-- The loop body of `task_unmap`. -/
def unmapVma (fuel : ℕ) (vma : Area) (s : Kernel.State) : Except Fault Kernel.State := do
  let p ← vmUnmap vma.start vma.size s.rest.paging
  Kernel.kfree fuel vma.self { s with rest := s.rest.withPaging p }

/-- `task_unmap`, for the areas of the task. -/
def taskUnmap (fuel : ℕ) : List Area → Kernel.State → Except Fault Kernel.State
  | [], s => .ok s
  | vma :: l, s => do
    let s ← unmapVma fuel vma s
    taskUnmap fuel l s

/-! ### What a program sees -/

/-- Memory by virtual address, where there is any. -/
abbrev Image := ℕ → Option ℕ

namespace Image

/-- There is memory from `start` to `stop`, zero where there was none. -/
def back (M : Image) (start stop : ℕ) : Image := fun v =>
  if start ≤ v ∧ v < stop then some ((M v).getD 0) else M v

/-- Bytes have been stored from `addr` on. -/
def write (M : Image) (addr : ℕ) (bytes : List ℕ) : Image := fun v =>
  if addr ≤ v ∧ v < addr + bytes.length then bytes[v - addr]? else M v

end Image

/-- The slots of the directory for the programs. -/
def userPds : Finset ℕ := Finset.Ico 0 768

theorem virtOffset_aligned : virtOffset % pageSize = 0 := by decide

theorem virtOffset_le : virtOffset + pageSize ≤ 2 ^ 32 := by decide

/-- The range of the programs. -/
def userRange : Range where
  lo := 0
  hi := virtOffset
  pds := userPds
  lo_aligned := Nat.zero_mod pageSize
  hi_aligned := virtOffset_aligned
  hi_le := virtOffset_le
  pd_mem va _ hhi := by
    simp only [virtOffset] at hhi
    rw [userPds, mem_Ico, vaPdIdx]
    omega

/-- What a program sees. -/
def image (s : Paging.State) : Image := fun v => if v < virtOffset then s.byte v else none

/-- The frames that belong to the programs. -/
def userFrames (s : Paging.State) : Multiset ℕ := s.tablesIn userRange + s.framesIn userRange

variable {s s' : Paging.State} {v va : ℕ}

theorem has_iff : userRange.Has v ↔ v < virtOffset :=
  ⟨fun h => h.2, fun h => ⟨Nat.zero_le v, h⟩⟩

theorem image_of_lt (hv : v < virtOffset) : image s v = s.byte v := if_pos hv

theorem image_isSome : (image s v).isSome ↔ v < virtOffset ∧ (s.walk v).isSome := by
  rw [image]
  by_cases hv : v < virtOffset
  · simp [hv, byte_isSome]
  · simp [hv]

/-! ### The kernel beside the programs -/

section Invariant

open Kernel SlabSpace

variable {boot : ℕ} {all : Multiset ℕ} {μ μ' : Machine}

/-- The kernel's allocators are in order, and none of their frames is a program's. -/
def Inv (boot : ℕ) (all : Multiset ℕ) (μ : Machine) : Prop :=
  InvBeside boot all (userFrames μ.state.rest.paging) μ.state.rest μ

/-- The programs see the same memory, in the same frames. -/
structure SameUser (s s' : Paging.State) : Prop where
  tables : s'.tablesIn userRange = s.tablesIn userRange
  walk : ∀ v < virtOffset, s'.walk v = s.walk v
  image : image s' = image s

theorem SameUser.frames (h : SameUser s s') : userFrames s' = userFrames s := by
  have hframes : s'.framesIn userRange = s.framesIn userRange :=
    Holders.held_congr fun n hn => h.walk _ (Range.mem_pages_iff.mp hn).2
  rw [userFrames, userFrames, h.tables, hframes]

theorem sameUser_of_spared {m m' : Rest} (hframe : ∀ f ∈ userFrames m.paging, IsFrame f)
    (h : Spared (userFrames m.paging) m m') : SameUser m.paging m'.paging := by
  have hpd : ∀ i ∈ userRange.pds, m'.paging.pageDirectory i = m.paging.pageDirectory i := by
    intro i hi
    refine h.pd i fun hk => ?_
    have hi' := mem_Ico.mp hi
    have hk' := mem_Ico.mp hk
    omega
  have hpte : ∀ v < virtOffset, m'.paging.pte v = m.paging.pte v := by
    intro v hv
    have hvpd := (has_iff.mpr hv).pd
    refine pte_congr (hpd _ hvpd) fun t ht => h.mem _ ?_
    have ht' : t ∈ userFrames m.paging :=
      mem_add.mpr (.inl (InvOn.mem_tables hvpd ht))
    rwa [(pte_addr (hframe t ht') v).2]
  have hwalk : ∀ v < virtOffset, m'.paging.walk v = m.paging.walk v := by
    intro v hv
    rw [State.walk, State.walk, hpte v hv]
  refine ⟨Holders.held_congr fun i hi => ?_, hwalk, funext fun v => ?_⟩
  · rw [State.table, hpd i hi]
    rfl
  · by_cases hv : v < virtOffset
    · rw [image_of_lt hv, image_of_lt hv]
      refine byte_congr (hwalk v hv) fun f hf => h.mem _ ?_
      have hf' : f ∈ userFrames m.paging :=
        mem_add.mpr (.inr (InvOn.mem_frames (has_iff.mpr hv) hf))
      rwa [byte_addr (hframe f hf') v]
    · rw [UserSpace.image, UserSpace.image, if_neg hv, if_neg hv]

theorem Inv.kernel (h : Inv boot all μ) (hcall : ∀ {theirs q}, InvBeside boot all theirs q μ →
    InvBeside boot all theirs q μ') :
    Inv boot all μ' ∧ SameUser μ.state.rest.paging μ'.state.rest.paging := by
  obtain ⟨⟨g, -, -, -, -, hpaging⟩, -⟩ := h.vm.rest
  have hframe : ∀ f ∈ userFrames μ.state.rest.paging, IsFrame f := by
    intro f hf
    refine hpaging.frame f ?_
    rw [← hpaging.sum]
    simp only [mem_add]
    exact .inr (.inr hf)
  have h' := hcall h
  have hsame := sameUser_of_spared hframe h'.vm.rest.spared
  refine ⟨?_, hsame⟩
  rw [Inv, hsame.frames]
  obtain ⟨⟨hspace, hjoint, -⟩, hsizes⟩ := h'
  exact ⟨⟨hspace, hjoint, .refl _⟩, hsizes⟩

/-- The machine with other page tables and frames. -/
def withPaging (μ : Machine) (p : Paging.State) : Machine :=
  { μ with state.rest := μ.state.rest.withPaging p }

theorem Inv.user (h : Inv boot all μ) : ∃ extra,
    InvOn userRange all extra μ.state.rest.paging (fun v => (μ.state.rest.paging.walk v).isSome) ∧
      ∀ {s' A out}, InvOn userRange all extra s' A →
        KeptOn userRange extra out μ.state.rest.paging s' → Inv boot all (withPaging μ s') := by
  obtain ⟨⟨g, touched, l, hl, hslab, hpaging⟩, -⟩ := h.vm.rest
  set m := μ.state.rest
  have hswap : ∀ x y a b c d : Multiset ℕ, x + a + b + (y + (c + d)) = x + c + d + (y + (a + b)) :=
    fun x y a b c d => by ac_rfl
  refine ⟨pages g + (m.paging.tables + m.paging.frames),
    ⟨hpaging.nodup, hpaging.frame, ?_, fun _ _ => Iff.rfl⟩, fun {s' A out} h' hkept => ?_⟩
  · rw [hswap]
    exact hpaging.sum
  have hpaging' : Paging.Inv all (pages g + userFrames s') s'
      (Covers (Vma.extents μ.state.vmaList)) := by
    refine (hpaging.reframe (fun i hi => hkept.pd i fun hu => ?_) (fun a ha => hkept.mem a ?_) ?_
      h'.nodup h'.frame).1
    · have hi' := mem_Ico.mp hi
      have hu' := mem_Ico.mp hu
      omega
    · simp only [mem_add]
      exact .inr (.inl ha)
    · rw [userFrames, hswap]
      exact h'.sum
  have hslab' := hslab.memory s'.toMemory
    (fun a ha => hkept.mem a (mem_add.mpr (.inl ha)))
    (Multiset.nodup_of_le (Multiset.add_le_add_left (Multiset.le_add_right _ _))
      hpaging'.pool_nodup) fun f hf => hpaging'.free_frame hf
  exact InvBeside.of_rest h ⟨⟨g, touched, l, hl, hslab', hpaging'⟩, .refl _⟩

end Invariant

/-! ### `mprotect` -/

section Protect

open Protect Exec

variable {R : Range} {all extra : Multiset ℕ} {A : ℕ → Prop} {f t prot flags start n : ℕ}

theorem leaf_stamp (hf : flags < 8) (hpresent : Present flags) {w : ℕ} (hw : Present w) :
    leaf (stamp flags w) = leaf w := by
  rw [leaf, leaf, if_pos hw, if_pos ((present_stamp hf w).mpr hpresent), frameOf, frameOf,
    pageRoundDn_stamp hf]

theorem stamp_ne_zero (hf : flags < 8) (hpresent : Present flags) (w : ℕ) : stamp flags w ≠ 0 := by
  intro h
  exact not_present_zero (h ▸ (present_stamp hf w).mpr hpresent)

section

variable (hflags : Present (protFlags prot))
include hflags

theorem protectPage_ok (ht : s.table (vaPdIdx va) = some t)
    (hf : s.walk va = some f) :
    ∃ s', protectPage prot s va = .ok s' ∧ s'.pageFreelist = s.pageFreelist ∧
      s'.pageDirectory = update s.pageDirectory (vaPdIdx va)
        (stamp (protFlags prot) (s.pageDirectory (vaPdIdx va))) ∧
      ∀ a, s'.mem a =
        if a = s.pteAt va then stamp (protFlags prot) (s.mem (s.pteAt va)) else s.mem a := by
  have hlt := protFlags_lt prot
  have hpd := (leaf_eq_some.mp ht).1
  have hpte : Present (s.mem (s.pteAt va)) := by
    rw [State.walk, pte_eq ht, leaf_eq_some] at hf
    exact hf.1
  set s1 : Paging.State := ⟨s.toMemory, update s.pageDirectory (vaPdIdx va)
    (stamp (protFlags prot) (s.pageDirectory (vaPdIdx va)))⟩ with hs1
  have hat : s1.pteAt va = s.pteAt va := by
    simp only [State.pteAt, hs1, update_self, frameOf, pageRoundDn_stamp hlt]
  have hpte1 : Present (s1.mem (s1.pteAt va)) := by
    rw [hat]
    exact hpte
  have hcall : protectPage prot s va = .ok ⟨s.toMemory.store (s1.pteAt va)
      (stamp (protFlags prot) (s.mem (s1.pteAt va))), s1.pageDirectory⟩ := by
    rw [Exec.protectPage, if_neg (not_not.mpr hpd)]
    rw [if_neg (stamp_ne_zero hlt hflags _), if_neg fun hor => hor.1 hpte1,
      if_neg (stamp_ne_zero hlt hflags _)]
  refine ⟨_, hcall, rfl, rfl, fun a => ?_⟩
  rw [← hat]
  exact update_apply _ _ _ _

theorem protectPage_invOn (h : InvOn R all extra s A)
    (hva : R.Has va) (hmapped : A va) :
    ∃ s', protectPage prot s va = .ok s' ∧ InvOn R all extra s' A ∧
      KeptOn R extra (fun v => v / pageSize ≠ va / pageSize) s s' ∧
      ∀ v, R.Has v → s'.byte v = s.byte v := by
  obtain ⟨f, hwalk⟩ := Option.isSome_iff_exists.mp ((h.mapped va hva).mpr hmapped)
  obtain ⟨t, ht⟩ := h.exists_table hva hmapped
  have hlt := protFlags_lt prot
  have htmem := InvOn.mem_tables hva.pd ht
  have htf := h.table_frame htmem
  obtain ⟨-, htoff, -⟩ := h.disjoint
  obtain ⟨s', hcall, hfl', hpd', hmem'⟩ := protectPage_ok hflags ht hwalk
  rw [pteAt_eq ht] at hmem'
  have htable : s'.table = s.table := by
    funext i
    rw [State.table, State.table, hpd']
    by_cases hi : i = vaPdIdx va
    · rw [hi, update_self, leaf_stamp hlt hflags (leaf_eq_some.mp ht).1]
    · rw [update_of_ne hi]
  -- only the entry of the page is written to
  have hother : ∀ {x}, x ≠ t → ∀ a, pageRoundDn a = x → s'.mem a = s.mem a := by
    rintro x hx a rfl
    rw [hmem', if_neg]
    rintro rfl
    exact hx (pte_addr htf va).2
  have hpte : ∀ v < 2 ^ 32, vaPdIdx v ∈ R.pds → v / pageSize ≠ va / pageSize →
      s'.pte v = s.pte v := by
    intro v hv hvpd hne
    rw [State.pte, State.pte, htable]
    cases ht' : s.table (vaPdIdx v) with
    | none => rfl
    | some t' =>
      rw [Option.elim_some, Option.elim_some, hmem',
        if_neg (h.pteAt_ne hva.lt hv hva.pd hvpd ht ht' hne)]
  have hwalk' : ∀ v, R.Has v → s'.walk v = s.walk v := by
    intro v hv
    by_cases hpage : v / pageSize = va / pageSize
    · have ht' : s'.table (vaPdIdx va) = some t := by rw [htable, ht]
      rw [walk_page s' hpage, walk_page s hpage, State.walk, State.walk, pte_eq ht', pte_eq ht,
        pteAt_eq ht', pteAt_eq ht, hmem', if_pos rfl, leaf_stamp hlt hflags]
      rw [State.walk, pte_eq ht, pteAt_eq ht, leaf_eq_some] at hwalk
      exact hwalk.1
    · rw [State.walk, State.walk, hpte v hv.lt hv.pd hpage]
  have hbyte : ∀ v, R.Has v → s'.byte v = s.byte v := by
    intro v hv
    refine byte_congr (hwalk' v hv) fun x hx => ?_
    have hxmem := InvOn.mem_frames hv hx
    refine hother ?_ _ (byte_addr (h.mapped_frame hxmem) v)
    rintro rfl
    exact (htoff _ htmem).1 hxmem
  refine ⟨s', hcall, ⟨h.nodup, h.frame, ?_, fun v hv => ?_⟩,
    ⟨fun a ha => hother ?_ a rfl, hpte, fun v hv _ => hbyte v hv, fun i hi => ?_⟩, hbyte⟩
  · have htables : s'.tablesIn R = s.tablesIn R := by rw [State.tablesIn, htable]; rfl
    have hframes : s'.framesIn R = s.framesIn R :=
      Holders.held_congr fun n hn => hwalk' _ (Range.mem_pages_iff.mp hn)
    rw [htables, hframes, hfl']
    exact h.sum
  · rw [hwalk' v hv]
    exact h.mapped v hv
  · exact fun heq => (htoff t htmem).2 (heq ▸ ha)
  · rw [hpd', update_of_ne]
    rintro rfl
    exact hi hva.pd

theorem protectLoop_invOn (h : InvOn R all extra s A)
    (hb : R.Block start n) (hmapped : ∀ v, start ≤ v → v < start + pageSize * n → A v) :
    ∃ s', (List.range' start n pageSize).foldlM (Exec.protectPage prot) s = .ok s' ∧
      InvOn R all extra s' A ∧
      KeptOn R extra (fun v => ¬ (start ≤ v ∧ v < start + pageSize * n)) s s' ∧
      ∀ v, R.Has v → s'.byte v = s.byte v := by
  induction n generalizing s start with
  | zero => exact ⟨s, rfl, h, KeptOn.refl s, fun _ _ => rfl⟩
  | succ n ih =>
    have hfirst : start < start + pageSize * (n + 1) := by simp only [pageSize]; omega
    obtain ⟨s1, hpage, h1, hkept1, hbyte1⟩ :=
      protectPage_invOn hflags h hb.first (hmapped start le_rfl hfirst)
    obtain ⟨s', hrest, h', hkept', hbyte'⟩ :=
      ih h1 hb.rest fun v hlo hhi => (mapped_rest hmapped hlo hhi).1
    refine ⟨s', ?_, h', (hkept1.trans hkept').imp fun v hv => ?_,
      fun v hv => (hbyte' v hv).trans (hbyte1 v hv)⟩
    · rw [range'_succ, foldlM_cons, hpage]
      exact hrest
    · rwa [page_or_rest hb.aligned, not_or] at hv

theorem mprotect_invOn (h : InvOn R all extra s A) {size : ℕ}
    (ha : R.Area start size) (hmapped : ∀ v, start ≤ v → v < start + size → A v) :
    ∃ s', mprotect start size prot s = (0, s') ∧ InvOn R all extra s' A ∧
      KeptOn R extra (fun v => ¬ (start ≤ v ∧ v < start + size)) s s' ∧
      ∀ v, R.Has v → s'.byte v = s.byte v := by
  obtain ⟨n, rfl, hb⟩ := ha.exists_block
  obtain ⟨s', hloop, hrest⟩ := protectLoop_invOn hflags h hb hmapped
  refine ⟨s', ?_, hrest⟩
  rw [Exec.mprotect, hb.pagesOf_eq, hloop]

end

end Protect

/-! ### The stores -/

section Stores

variable {R : Range} {all extra : Multiset ℕ} {A : ℕ → Prop} {byte : ℕ}

theorem storeByte_invOn (h : InvOn R all extra s A) (hva : R.Has va) (hmapped : A va) :
    ∃ s', storeByte s va byte = .ok s' ∧ InvOn R all extra s' A ∧
      KeptOn R extra (fun v => v ≠ va) s s' ∧ s'.byte va = some byte := by
  obtain ⟨f, hwalk⟩ := Option.isSome_iff_exists.mp ((h.mapped va hva).mpr hmapped)
  have hmem := InvOn.mem_frames hva hwalk
  have hf := h.mapped_frame hmem
  obtain ⟨-, htoff, hfoff⟩ := h.disjoint
  set s' : Paging.State := ⟨s.toMemory.store (f + va % pageSize) byte, s.pageDirectory⟩
  have hpd' : ∀ i ∈ R.pds, s'.pageDirectory i = s.pageDirectory i := fun _ _ => rfl
  have hmem' : ∀ a, s'.mem a = if a = f + va % pageSize then byte else s.mem a :=
    fun a => update_apply _ _ _ _
  have hother : ∀ {x}, x ≠ f → ∀ a, pageRoundDn a = x → s'.mem a = s.mem a := by
    rintro x hx a rfl
    rw [hmem', if_neg]
    rintro rfl
    exact hx (byte_addr hf va)
  have htables : ∀ a, pageRoundDn a ∈ s.tablesIn R → s'.mem a = s.mem a := by
    intro a ha
    refine hother ?_ a rfl
    exact fun heq => (htoff _ ha).1 (heq ▸ hmem)
  obtain ⟨h', -, -, hpte⟩ := h.reframe hpd' htables h.sum h.nodup h.frame
  have hpte' : ∀ v < 2 ^ 32, vaPdIdx v ∈ R.pds → v ≠ va → s'.pte v = s.pte v := by
    intro v _ hvpd _
    refine pte_congr rfl fun t ht => htables _ ?_
    have htmem := InvOn.mem_tables hvpd ht
    rwa [(pte_addr (h.table_frame htmem) v).2]
  have hwalk' : ∀ v, R.Has v → s'.walk v = s.walk v := by
    intro v hv
    rw [State.walk, State.walk, hpte v hv]
  refine ⟨s', by rw [storeByte, hwalk], h', ⟨fun a ha => hother ?_ a rfl, hpte',
    fun v hv hne => ?_, fun _ _ => rfl⟩, ?_⟩
  · exact fun heq => hfoff _ hmem (heq ▸ ha)
  · refine byte_congr (hwalk' v hv) fun x hx => ?_
    rw [hmem', if_neg]
    -- in another page there is another frame, and in the same page another offset
    intro heq
    have hxf := h.mapped_frame (InvOn.mem_frames hv hx)
    have hround := byte_addr hxf v
    rw [heq, byte_addr hf va] at hround
    subst hround
    have hpage := h.page_unique hv hva hx hwalk
    simp only [pageSize] at *
    omega
  · rw [State.byte, hwalk' va hva, hwalk, Option.map_some, hmem', if_pos rfl]

theorem storeBytes_invOn (addr : ℕ) (bytes : List ℕ) (h : InvOn R all extra s A)
    (hmapped : ∀ v, addr ≤ v → v < addr + bytes.length → R.Has v ∧ A v)
    (hend : addr + bytes.length < 2 ^ 32) :
    ∃ s', storeBytes addr bytes s = .ok s' ∧ InvOn R all extra s' A ∧
      KeptOn R extra (fun v => ¬ (addr ≤ v ∧ v < addr + bytes.length)) s s' ∧
      ∀ v, addr ≤ v → v < addr + bytes.length → s'.byte v = bytes[v - addr]? := by
  induction bytes generalizing s addr with
  | nil =>
    refine ⟨s, rfl, h, KeptOn.refl s, fun v hlo hhi => ?_⟩
    rw [length_nil] at hhi
    omega
  | cons byte bytes ih =>
    rw [length_cons] at hmapped hend
    obtain ⟨hva, hA⟩ := hmapped addr le_rfl (by omega)
    obtain ⟨s1, hstore, h1, hkept1, hbyte1⟩ : ∃ s', storeByte s addr byte = .ok s' ∧
        InvOn R all extra s' A ∧ KeptOn R extra (fun v => v ≠ addr) s s' ∧
        s'.byte addr = some byte := storeByte_invOn h hva hA
    obtain ⟨s', hrest, h', hkept', hbyte'⟩ :=
      ih (addr + 1) h1 (fun v hlo hhi => hmapped v (by omega) (by omega)) (by omega)
    refine ⟨s', ?_, h', (hkept1.trans hkept').imp fun v hv => ?_, fun v hlo hhi => ?_⟩
    · rw [storeBytes, hstore, add32_eq (by omega)]
      exact hrest
    · rw [length_cons] at hv
      exact ⟨by omega, by omega⟩
    · rw [length_cons] at hhi
      by_cases hfirst : v = addr
      · subst hfirst
        rw [hkept'.byte v hva (by omega), hbyte1, Nat.sub_self]
        rfl
      · rw [hbyte' v (by omega) (by omega), show v - addr = v - (addr + 1) + 1 by omega,
          getElem?_cons_succ]

end Stores

/-! ### `mmap` -/

section Mmap

open Kernel

variable {boot addr len prot fuel off ptr : ℕ} {all : Multiset ℕ} {μ : Machine} {file : File}
  {new : Area} {k k' : Kernel.State}

section

variable (hend : addr + len < virtOffset)
include hend

theorem segment_area :
    userRange.Area (pageRoundDn addr) (pageRoundUp (addr + len) - pageRoundDn addr) ∧
      add32 addr len = addr + len ∧
      sub32 (pageRoundUp (addr + len)) (pageRoundDn addr) =
        pageRoundUp (addr + len) - pageRoundDn addr ∧
      pageRoundDn addr ≤ addr ∧ addr + len ≤ pageRoundUp (addr + len) := by
  have hlt : addr + len + pageSize ≤ 2 ^ 32 := by
    simp only [virtOffset, pageSize] at *
    omega
  obtain ⟨hmod, hge, hle⟩ := pageRoundUp_spec hlt
  have hdn : pageRoundDn addr ≤ addr := Nat.div_mul_le_self _ _
  have hmod' := pageRoundDn_mod addr
  refine ⟨⟨hmod', ?_, Nat.zero_le _, ?_⟩, add32_eq ?_, sub32_eq ?_ ?_, hdn, hge⟩
  · simp only [pageSize] at *
    omega
  · show pageRoundDn addr + _ ≤ virtOffset
    simp only [virtOffset, pageSize] at *
    omega
  all_goals
    omega

theorem mmap_eq_ok (hcall : mmap fuel addr len prot file off k = .ok (ptr, new, k')) :
    ∃ self k1 p1 p2, new = ⟨self, pageRoundDn addr,
        pageRoundUp (addr + len) - pageRoundDn addr⟩ ∧
      pageRoundUp (addr + len) < virtOffset ∧
      Kernel.slabAlloc fuel sizeofVma k = .ok (self, k1) ∧
      vmMapServed new.start new.size k1.rest.paging = .ok p1 ∧
      storeBytes addr (file.readAt len off).2 (mprotect new.start new.size prot p1).2 =
        .ok p2 ∧
      0 ≤ (file.readAt len off).1 ∧ ptr = addr ∧
      k' = { k1 with rest := k1.rest.withPaging p2 } := by
  obtain ⟨-, hadd, hsub, -, -⟩ := segment_area hend
  rw [mmap] at hcall
  simp only [hadd, hsub] at hcall
  split at hcall
  · cases hcall
  rename_i hstop
  simp only [bind_eq_ok, Prod.exists] at hcall
  obtain ⟨self, k1, halloc, p1, hmap, p2, hstore, hcall⟩ := hcall
  split at hcall
  · cases hcall
  rename_i hret
  obtain ⟨rfl, rfl, rfl⟩ : addr = ptr ∧ (⟨self, _, _⟩ : Area) = new ∧ _ = k' := by
    simpa [pure, Except.pure] using hcall
  exact ⟨self, k1, p1, p2, rfl, not_not.mp hstop, halloc, hmap, hstore, not_lt.mp hret, rfl, rfl⟩

theorem mmap_refines (hcall : mmap fuel addr len prot file off k = .ok (ptr, new, k')) :
    ∃ r, Exec.mmap fuel addr len prot file off k.rest = .ok r ∧ r.ptr = ptr ∧ r.area = new ∧
      storeBytes addr (file.readAt len off).2 r.state.paging = .ok k'.rest.paging := by
  obtain ⟨self, k1, p1, p2, rfl, hstop, halloc, hmap, hstore, hret, rfl, rfl⟩ :=
    mmap_eq_ok hend hcall
  obtain ⟨-, hadd, hsub, -, -⟩ := segment_area hend
  obtain ⟨⟨self, m⟩, hslab, heq⟩ := map_eq_ok.mp halloc
  obtain ⟨rfl, rfl⟩ := Prod.mk.inj heq
  have hmap' := vmMapServed_eq hmap
  refine ⟨⟨ptr, _, m.withPaging (Exec.mprotect _ _ prot p1).2,
    (file.readAt len off).2.zipIdx.map fun p => (add32 ptr p.2, p.1)⟩, ?_, rfl, rfl, hstore⟩
  rw [Exec.mmap, hadd, hsub, if_neg (not_not.mpr hstop), hslab]
  simp only [bind, Except.bind, hret.not_gt, if_false, pure, Except.pure, hmap']

end

theorem mmap_spec (h : Inv boot all μ) (hend : addr + len < virtOffset)
    (hflags : Present (Exec.protFlags prot))
    (hcall : mmap fuel addr len prot file off μ.state = .ok (ptr, new, k')) :
    Inv boot all ⟨k', (new.self, sizeofVma) :: μ.slabLive, μ.vmLive⟩ ∧
      image k'.rest.paging = ((image μ.state.rest.paging).back (pageRoundDn addr)
        (pageRoundUp (addr + len))).write addr (file.readAt len off).2 := by
  obtain ⟨self, k1, p1, p2, rfl, -, halloc, hmap, hstore, -, -, rfl⟩ := mmap_eq_ok hend hcall
  obtain ⟨harea, -, -, hdn, hup⟩ := segment_area hend
  set start := pageRoundDn addr
  set stop := pageRoundUp (addr + len)
  have hstop : start + (stop - start) = stop := by omega
  have hhi := harea.hi
  have hlen := file.readAt_le len off
  set bytes := (file.readAt len off).2
  have hlt : stop ≤ virtOffset := by rwa [hstop] at hhi
  -- the block for the new area
  obtain ⟨h1, hsame⟩ := h.kernel fun hb => hb.slabAlloc (by decide) halloc
  -- the pages
  obtain ⟨extra, hinv, hback⟩ := h1.user
  obtain ⟨h2, hkept2, hbyte2⟩ := vmMap_invOn hinv harea hmap
  obtain ⟨p, hprot, h3, hkept3, hbyte3⟩ :=
    mprotect_invOn hflags h2 harea fun v hlo hhi => .inr ⟨hlo, hhi⟩
  -- the bytes
  rw [hprot] at hstore
  obtain ⟨p2', hstore', h4, hkept4, hbyte4⟩ := storeBytes_invOn addr bytes h3
    (fun v hlo hhi => ⟨has_iff.mpr (by omega), .inr ⟨by omega, by omega⟩⟩)
    (by simp only [virtOffset] at hend; omega)
  obtain rfl := Except.ok.inj (hstore.symm.trans hstore')
  refine ⟨hback h4 (hkept2.trans (hkept3.trans hkept4)), funext fun v => ?_⟩
  rw [← hsame.image, Image.write, Image.back]
  show image p2 v = _
  by_cases hv : v < virtOffset
  · have hhas := has_iff.mpr hv
    rw [image_of_lt hv, image_of_lt hv]
    by_cases hin : addr ≤ v ∧ v < addr + bytes.length
    · rw [if_pos hin, hbyte4 v hin.1 hin.2]
    · rw [if_neg hin, hkept4.byte v hhas hin, hbyte3 v hhas]
      by_cases hpages : start ≤ v ∧ v < stop
      · rw [if_pos hpages, hbyte2 v hpages.1 (by omega)]
      · rw [if_neg hpages, hkept2.byte v hhas (by omega)]
  · rw [image, image, if_neg hv, if_neg (by omega), if_neg (by omega), if_neg hv]

end Mmap

/-! ### `mmap` of all segments -/

/-- The first page of a segment. -/
def pageStart (ph : Elf.ProgHdr) : ℕ := pageRoundDn ph.virtAddr

/-- The end of its last page. -/
def pageStop (ph : Elf.ProgHdr) : ℕ := pageRoundUp (ph.virtAddr + ph.memBytes)

/-- The addresses of its pages. -/
def Pages (ph : Elf.ProgHdr) (v : ℕ) : Prop := pageStart ph ≤ v ∧ v < pageStop ph

/-- The addresses of an area. -/
def Within (a : Area) (v : ℕ) : Prop := a.start ≤ v ∧ v < a.start + a.size

instance (a : Area) : DecidablePred (Within a) := fun _ => inferInstanceAs (Decidable (_ ∧ _))

/-- The blocks with the areas of a task. -/
def structs (l : List Area) : List (ℕ × ℕ) := l.map fun a => (a.self, sizeofVma)

/-- The areas of a task are those of its segments. -/
structure AreaOf (ph : Elf.ProgHdr) (a : Area) : Prop where
  area : userRange.Area a.start a.size
  within : ∀ v, Within a v ↔ Pages ph v

section MapAll

open Kernel

variable {boot fuel : ℕ} {all : Multiset ℕ} {file : File}
  {l : List Elf.ProgHdr} {vmas vmas' : List Area} {k k' : Kernel.State}

theorem Inv.perm {live live' : List (ℕ × ℕ)} {vm : List (ℕ × ℕ)} (h : Inv boot all ⟨k, live, vm⟩)
    (hperm : live.Perm live') : Inv boot all ⟨k, live', vm⟩ := by
  obtain ⟨⟨g, touched, l, hl, hslab, hpaging⟩, hspared⟩ := h.vm.rest
  have hslab' := hslab.perm (hperm.append_right _)
  exact ⟨⟨h.vm.space, ⟨g, touched, l, hl, hslab', hpaging⟩, hspared⟩, h.sizes⟩

theorem present_segmentProt : Present (Exec.protFlags segmentProt) := by decide

theorem areaOf_mmap {ph : Elf.ProgHdr} {ptr : ℕ} {a : Area}
    (hend : ph.virtAddr + ph.memBytes < virtOffset)
    (hcall : mmap fuel ph.virtAddr ph.memBytes segmentProt file ph.offset k = .ok (ptr, a, k')) :
    AreaOf ph a := by
  obtain ⟨self, -, -, -, rfl, -⟩ := mmap_eq_ok hend hcall
  obtain ⟨harea, -, -, hdn, hup⟩ := segment_area hend
  refine ⟨harea, fun v => ?_⟩
  rw [Within, Pages, pageStart, pageStop]
  simp only
  omega

theorem isSome_write {M : Image} {start stop addr v : ℕ} {bytes : List ℕ} (hlo : start ≤ addr)
    (hhi : addr + bytes.length ≤ stop) :
    (((M.back start stop).write addr bytes) v).isSome ↔ (M v).isSome ∨ start ≤ v ∧ v < stop := by
  rw [Image.write, Image.back]
  by_cases hin : addr ≤ v ∧ v < addr + bytes.length
  · rw [if_pos hin, getElem?_eq_getElem (by omega), Option.isSome_some]
    exact iff_of_true rfl (.inr (by omega))
  · rw [if_neg hin]
    by_cases hpages : start ≤ v ∧ v < stop <;> simp [hpages]

theorem mapAll_spec {live vm : List (ℕ × ℕ)} (h : Inv boot all ⟨k, live, vm⟩)
    (hends : ∀ ph ∈ l, ph.virtAddr + ph.memBytes < virtOffset)
    (hcall : mapAll fuel file l (vmas, k) = .ok (vmas', k')) :
    ∃ new, vmas' = vmas ++ new ∧ List.Forall₂ AreaOf l new ∧
      Inv boot all ⟨k', structs new ++ live, vm⟩ ∧
      ∀ v, (image k'.rest.paging v).isSome ↔
        (image k.rest.paging v).isSome ∨ ∃ ph ∈ l, Pages ph v := by
  induction l generalizing vmas k live with
  | nil =>
    obtain ⟨rfl, rfl⟩ := Prod.mk.inj (Except.ok.inj hcall)
    exact ⟨[], (append_nil _).symm, .nil, h, fun v => by simp⟩
  | cons ph l ih =>
    rw [mapAll, bind_eq_ok] at hcall
    obtain ⟨⟨ptr, a, k1⟩, hmap, hcall⟩ := hcall
    have hend := hends ph mem_cons_self
    obtain ⟨h1, himage⟩ := mmap_spec h hend present_segmentProt hmap
    obtain ⟨-, -, -, hdn, hup⟩ := segment_area hend
    obtain ⟨new, rfl, hnew, h', hmapped⟩ :=
      ih h1 (fun ph hph => hends ph (mem_cons_of_mem _ hph)) hcall
    refine ⟨a :: new, by simp, .cons (areaOf_mmap hend hmap) hnew, h'.perm perm_middle,
      fun v => ?_⟩
    have hlen := file.readAt_le ph.memBytes ph.offset
    rw [hmapped, himage, isSome_write hdn (by omega), or_assoc, exists_mem_cons_iff]
    rfl

end MapAll

/-! ### `task_unmap` -/

section Unmap

open Kernel ListTable

variable {boot fuel : ℕ} {all : Multiset ℕ} {a : Area} {l : List Area}
  {live rest vm : List (ℕ × ℕ)} {k k' : Kernel.State}

/-- The number of slabs. -/
def slabCount (k : Kernel.State) : ℕ := total (fun _ _ => 1) k.rest.slabs

/-- The area is unmapped: its frames are free now, and nothing else has changed. -/
structure Unmapped (a : Area) (k k' : Kernel.State) : Prop where
  image : ∀ v, image k'.rest.paging v = if Within a v then none else image k.rest.paging v
  walk : ∀ v < virtOffset, ¬ Within a v → k'.rest.paging.walk v = k.rest.paging.walk v
  gives : k.rest.pageFreelist <:+ k'.rest.pageFreelist
  freed : ∀ v f, Within a v → k.rest.paging.walk v = some f → f ∈ k'.rest.pageFreelist
  slabs : slabCount k' ≤ slabCount k

theorem vmUnmap_user {p : Paging.State} (h : Inv boot all ⟨k, live, vm⟩)
    (ha : userRange.Area a.start a.size)
    (hcall : vmUnmap a.start a.size k.rest.paging = .ok p) :
    (∀ v, Within a v → (image k.rest.paging v).isSome) ∧
      Inv boot all ⟨{ k with rest := k.rest.withPaging p }, live, vm⟩ ∧
      Unmapped a k { k with rest := k.rest.withPaging p } := by
  obtain ⟨extra, hinv, hback⟩ := h.user
  have hmapped : ∀ v, a.start ≤ v → v < a.start + a.size → (k.rest.paging.walk v).isSome :=
    fun v hlo hhi => vmUnmap_mapped hinv ha hcall hlo hhi
  obtain ⟨p', hcall', h', hkept, hfl, hfreed⟩ := vmUnmap_invOn hinv ha hmapped
  obtain rfl := Except.ok.inj (hcall.symm.trans hcall')
  have hwithin : ∀ v, Within a v → v < virtOffset := fun v hv => (ha.has hv.1 hv.2).2
  refine ⟨fun v hv => image_isSome.mpr ⟨hwithin v hv, hmapped v hv.1 hv.2⟩, hback h' hkept, ?_⟩
  refine ⟨fun v => ?_, fun v hv hout => hkept.walk (has_iff.mpr hv) hout, hfl,
    fun v f hv hf => hfreed v f hv.1 hv.2 hf, le_rfl⟩
  by_cases hv : v < virtOffset
  · by_cases hin : Within a v
    · have hnone : ¬ (p.walk v).isSome := fun hsome =>
        ((h'.mapped v (has_iff.mpr hv)).mp hsome).2 hin
      rw [if_pos hin, image_of_lt hv]
      exact byte_of_walk_none (Option.not_isSome_iff_eq_none.mp hnone)
    · rw [if_neg hin, image_of_lt hv, image_of_lt hv]
      exact hkept.byte v (has_iff.mpr hv) hin
  · rw [if_neg fun hin => hv (hwithin v hin), UserSpace.image, UserSpace.image, if_neg hv,
      if_neg hv]

section

variable (h : Inv boot all ⟨k, live, vm⟩)
include h

theorem kfree_struct {p : ℕ} (hlive : (p, sizeofVma) ∈ live) :
    kfree fuel p k = slabFree fuel p k :=
  kfree_slab (InvBeside.slab_base h hlive)

theorem unmapVma_spec (ha : userRange.Area a.start a.size)
    (hlive : (a.self, sizeofVma) ∈ live) (hcall : unmapVma fuel a k = .ok k') :
    (∀ v, Within a v → (image k.rest.paging v).isSome) ∧
      Inv boot all ⟨k', live.erase (a.self, sizeofVma), vm⟩ ∧ Unmapped a k k' := by
  rw [unmapVma, bind_eq_ok] at hcall
  obtain ⟨p, hunmap, hcall⟩ := hcall
  obtain ⟨hmapped, h1, hdone⟩ := vmUnmap_user h ha hunmap
  rw [kfree_struct h1 hlive] at hcall
  obtain ⟨h', hsame⟩ := h1.kernel fun hb => hb.slabFree hlive hcall
  obtain ⟨m, hslab, rfl⟩ := map_eq_ok.mp hcall
  obtain ⟨σ, hfree, rfl⟩ := map_eq_ok.mp hslab
  obtain ⟨hfl, hslabs⟩ := Slab.doSlabFree_gives hfree
  refine ⟨hmapped, h', ⟨fun v => ?_, fun v hv hout => ?_, hdone.gives.trans hfl,
    fun v f hv hf => hfl.subset (hdone.freed v f hv hf), hslabs.trans hdone.slabs⟩⟩
  · rw [← hdone.image v]
    exact congrFun hsame.image v
  · rw [← hdone.walk v hv hout]
    exact hsame.walk v hv

theorem unmapVma_returns (ha : userRange.Area a.start a.size)
    (hlive : (a.self, sizeofVma) ∈ live) (hfuel : slabCount k < fuel)
    (hmapped : ∀ v, Within a v → (image k.rest.paging v).isSome) :
    ∃ k', unmapVma fuel a k = .ok k' := by
  obtain ⟨extra, hinv, -⟩ := h.user
  obtain ⟨p, hunmap, -⟩ := vmUnmap_invOn hinv ha fun v hlo hhi =>
    (image_isSome.mp (hmapped v ⟨hlo, hhi⟩)).2
  obtain ⟨-, h1, hdone⟩ := vmUnmap_user h ha hunmap
  obtain ⟨σ, hfree⟩ := Slab.doSlabFree_returns (k.rest.withPaging p).toState a.self
    (hdone.slabs.trans_lt hfuel)
  have hslab : ∃ k', slabFree fuel a.self { k with rest := k.rest.withPaging p } = .ok k' :=
    ⟨_, map_eq_ok.mpr ⟨_, map_eq_ok.mpr ⟨σ, hfree, rfl⟩, rfl⟩⟩
  rw [← kfree_struct h1 hlive] at hslab
  rw [unmapVma, hunmap]
  exact hslab

end

/-- No two areas have an address in common. -/
def AreasApart (l : List Area) : Prop := l.Pairwise fun a b => ∀ v, Within a v → ¬ Within b v

/-- **`task_unmap`**, when it returns: the areas were mapped and apart; now they are unmapped, and
their frames are free. -/
theorem taskUnmap_spec (h : Inv boot all ⟨k, structs l ++ rest, vm⟩)
    (hareas : ∀ a ∈ l, userRange.Area a.start a.size) (hcall : taskUnmap fuel l k = .ok k') :
    AreasApart l ∧ Inv boot all ⟨k', rest, vm⟩ ∧
      (∀ v, (image k'.rest.paging v).isSome →
        (image k.rest.paging v).isSome ∧ ∀ a ∈ l, ¬ Within a v) ∧
      (∀ a ∈ l, ∀ v, Within a v → (image k.rest.paging v).isSome) ∧
      k.rest.pageFreelist <:+ k'.rest.pageFreelist ∧
      ∀ a ∈ l, ∀ v f, Within a v → k.rest.paging.walk v = some f → f ∈ k'.rest.pageFreelist := by
  induction l generalizing k with
  | nil =>
    obtain rfl := Except.ok.inj hcall
    exact ⟨.nil, h, by simp, by simp, suffix_refl _, by simp⟩
  | cons a l ih =>
    rw [taskUnmap, bind_eq_ok] at hcall
    obtain ⟨k1, hvma, hcall⟩ := hcall
    have ha := hareas a mem_cons_self
    obtain ⟨hmapped, h1, hdone⟩ := unmapVma_spec h ha mem_cons_self hvma
    rw [show structs (a :: l) = (a.self, sizeofVma) :: structs l from rfl, cons_append,
      erase_cons_head] at h1
    obtain ⟨hapart, h', himage, hmapped', hgives, hfreed⟩ :=
      ih h1 (fun b hb => hareas b (mem_cons_of_mem _ hb)) hcall
    -- what is mapped after the first area was mapped before, and is not in that area
    have hafter : ∀ {v}, (image k1.rest.paging v).isSome →
        (image k.rest.paging v).isSome ∧ ¬ Within a v := by
      intro v hsome
      rw [hdone.image v] at hsome
      by_cases hin : Within a v
      · rw [if_pos hin] at hsome
        cases hsome
      · rw [if_neg hin] at hsome
        exact ⟨hsome, hin⟩
    refine ⟨pairwise_cons.mpr ⟨fun b hb v hav hbv => ?_, hapart⟩, h', fun v hsome => ?_, ?_,
      hdone.gives.trans hgives, ?_⟩
    · exact (hafter (hmapped' b hb v hbv)).2 hav
    · obtain ⟨hsome1, hout⟩ := himage v hsome
      obtain ⟨hsome0, hout0⟩ := hafter hsome1
      exact ⟨hsome0, forall_mem_cons.mpr ⟨hout0, hout⟩⟩
    · exact forall_mem_cons.mpr ⟨hmapped, fun b hb v hv => (hafter (hmapped' b hb v hv)).1⟩
    · refine forall_mem_cons.mpr ⟨fun v f hv hf => hgives.subset (hdone.freed v f hv hf),
        fun b hb v f hv hf => hfreed b hb v f hv ?_⟩
      obtain ⟨hlt, -⟩ := image_isSome.mp (hmapped' b hb v hv)
      rw [hdone.walk v hlt (hafter (hmapped' b hb v hv)).2, hf]

theorem taskUnmap_returns (h : Inv boot all ⟨k, structs l ++ rest, vm⟩)
    (hareas : ∀ a ∈ l, userRange.Area a.start a.size) (hfuel : slabCount k < fuel)
    (hmapped : ∀ a ∈ l, ∀ v, Within a v → (image k.rest.paging v).isSome)
    (hapart : AreasApart l) : ∃ k', taskUnmap fuel l k = .ok k' := by
  induction l generalizing k with
  | nil => exact ⟨k, rfl⟩
  | cons a l ih =>
    have ha := hareas a mem_cons_self
    obtain ⟨hfirst, hapart⟩ := pairwise_cons.mp hapart
    obtain ⟨k1, hvma⟩ :=
      unmapVma_returns h ha mem_cons_self hfuel (hmapped a mem_cons_self)
    obtain ⟨-, h1, hdone⟩ := unmapVma_spec h ha mem_cons_self hvma
    rw [show structs (a :: l) = (a.self, sizeofVma) :: structs l from rfl, cons_append,
      erase_cons_head] at h1
    have hmapped1 : ∀ b ∈ l, ∀ v, Within b v → (image k1.rest.paging v).isSome := by
      intro b hb v hv
      rw [hdone.image v, if_neg fun hin => hfirst b hb v hin hv]
      exact hmapped b (mem_cons_of_mem _ hb) v hv
    obtain ⟨k', hrest⟩ := ih h1 (fun b hb => hareas b (mem_cons_of_mem _ hb))
      (hdone.slabs.trans_lt hfuel) hmapped1 hapart
    exact ⟨k', by rw [taskUnmap, hvma]; exact hrest⟩

end Unmap

/-! ### Loading and unloading -/

section Conservation

open Kernel

variable {boot fuel : ℕ} {all : Multiset ℕ} {μ : Machine} {file : File}
  {l : List Elf.ProgHdr} {vmas : List Area} {k1 : Kernel.State}

/-- The state `exec` finds: the kernel's allocators are in order, and no program is loaded. -/
structure Fresh (boot : ℕ) (all : Multiset ℕ) (μ : Machine) : Prop where
  inv : Inv boot all μ
  absent : ∀ v < virtOffset, μ.state.rest.paging.walk v = none

/-- **Every state the kernel reaches** after it has booted without a page table for the programs
is such a state. -/
theorem fresh_of_run {s : Paging.State} {μ0 : Machine} {es : List Event} (hs : Booted boot s)
    (habsent : ∀ i ∈ userPds, ¬ Present (s.pageDirectory i)) (hinit : Initial boot s μ0)
    (hrun : Run Step μ0 es μ) : Fresh boot ((s.pageFreelist : Multiset ℕ) + s.tables) μ := by
  obtain ⟨q, hq, h0⟩ := beside_of_initial hs hinit
  have h := hrun.invariant h0 fun _ _ _ h hstep => h.step hstep
  have htable : ∀ i ∈ userRange.pds, μ.state.rest.paging.table i = none := by
    intro i hi
    refine leaf_of_not_present fun hpresent => habsent i hi ?_
    have hpd := h.vm.rest.spared.pd i fun hk => ?_
    · rwa [← hq, ← hpd]
    · have hi' := mem_Ico.mp hi
      have hk' := mem_Ico.mp hk
      omega
  have hwalk : ∀ v < virtOffset, μ.state.rest.paging.walk v = none := by
    intro v hv
    rw [State.walk, State.pte, htable _ (has_iff.mpr hv).pd]
    exact leaf_of_not_present not_present_zero
  have hframes : userFrames μ.state.rest.paging = 0 := by
    rw [userFrames, State.tablesIn, State.framesIn, Holders.held_eq_zero htable,
      Holders.held_eq_zero fun n hn => hwalk _ (Range.mem_pages_iff.mp hn).2, add_zero]
  refine ⟨?_, hwalk⟩
  rw [Inv, hframes]
  exact ⟨⟨h.vm.space, h.vm.rest.joint, .refl _⟩, h.sizes⟩

/-- Every frame of the program has been freed once, and no entry of a page table is present. -/
structure Conserved (k1 k2 : Kernel.State) : Prop where
  freed : ∀ v < virtOffset, ∀ f, k1.rest.paging.walk v = some f →
    k2.rest.pageFreelist.count f = k1.rest.pageFreelist.count f + 1
  absent : ∀ v < virtOffset, ¬ Present (k2.rest.paging.pte v)

/-- No two segments have a page in common. -/
def PagesApart (l : List Elf.ProgHdr) : Prop :=
  l.Pairwise fun ph ph' => ∀ v, Pages ph v → ¬ Pages ph' v

theorem areasApart_iff {new : List Area} (h : List.Forall₂ AreaOf l new) :
    AreasApart new ↔ PagesApart l := by
  induction h with
  | nil => exact iff_of_true .nil .nil
  | @cons ph a l new hpa hrest ih =>
    rw [AreasApart, PagesApart, List.pairwise_cons, List.pairwise_cons]
    refine and_congr ⟨fun h ph' hph' v hv hv' => ?_, fun h b hb v hv hv' => ?_⟩ ih
    · obtain ⟨b, hb, hpb⟩ := Slab.forall₂_exists_right hrest hph'
      exact h b hb v ((hpa.within v).mpr hv) ((hpb.within v).mpr hv')
    · obtain ⟨ph', hph', hpb⟩ := Slab.forall₂_exists_left hrest hb
      exact h ph' hph' v ((hpa.within v).mp hv) ((hpb.within v).mp hv')

/-- **Which programs can be loaded and unloaded**: `task_unmap` gets through, frees every frame of
the program once and leaves no page of it behind, exactly when no two segments share a page. -/
theorem load_unload_conserves_iff (h : Fresh boot all μ)
    (hends : ∀ ph ∈ l, ph.virtAddr + ph.memBytes < virtOffset)
    (hcall : mapAll fuel file l ([], μ.state) = .ok (vmas, k1)) :
    (∃ fuel' k2, taskUnmap fuel' vmas k1 = .ok k2 ∧ Conserved k1 k2) ↔ PagesApart l := by
  obtain ⟨new, heq, hnew, h1, hmapped⟩ := mapAll_spec h.inv hends hcall
  rw [heq, nil_append, ← areasApart_iff hnew]
  have hareas : ∀ a ∈ new, userRange.Area a.start a.size := by
    intro a ha
    obtain ⟨ph, -, hpa⟩ := Slab.forall₂_exists_left hnew ha
    exact hpa.area
  -- what is mapped is what the areas cover
  have hcover : ∀ v, (image k1.rest.paging v).isSome ↔ ∃ a ∈ new, Within a v := by
    intro v
    have hnone : ¬ (image μ.state.rest.paging v).isSome := by
      rw [image_isSome]
      rintro ⟨hv, hsome⟩
      rw [h.absent v hv] at hsome
      cases hsome
    rw [hmapped v, or_iff_right hnone]
    constructor
    · rintro ⟨ph, hph, hv⟩
      obtain ⟨a, ha, hpa⟩ := Slab.forall₂_exists_right hnew hph
      exact ⟨a, ha, (hpa.within v).mpr hv⟩
    · rintro ⟨a, ha, hv⟩
      obtain ⟨ph, hph, hpa⟩ := Slab.forall₂_exists_left hnew ha
      exact ⟨ph, hph, (hpa.within v).mp hv⟩
  constructor
  · rintro ⟨fuel', k2, hunmap, -⟩
    exact (taskUnmap_spec h1 hareas hunmap).1
  · intro hapart
    obtain ⟨k2, hunmap⟩ := taskUnmap_returns h1 hareas (Nat.lt_succ_self _)
      (fun a ha v hv => (hcover v).mpr ⟨a, ha, hv⟩) hapart
    obtain ⟨-, h2, himage, -, -, hfreed⟩ := taskUnmap_spec h1 hareas hunmap
    obtain ⟨extra, hinv, -⟩ := h1.user
    obtain ⟨extra', hinv', -⟩ := h2.user
    refine ⟨_, k2, hunmap, fun v hv f hf => ?_, fun v hv hpresent => ?_⟩
    · obtain ⟨a, ha, hin⟩ := (hcover v).mp (image_isSome.mpr ⟨hv, by rw [hf]; rfl⟩)
      have hbusy : f ∉ k1.rest.pageFreelist := fun hmem =>
        (hinv.disjoint.1 f hmem).2.1 (InvOn.mem_frames (has_iff.mpr hv) hf)
      rw [count_eq_zero_of_not_mem hbusy]
      exact count_eq_one_of_mem hinv'.free_nodup (hfreed a ha v f hin hf)
    · have hsome : (image k2.rest.paging v).isSome :=
        image_isSome.mpr ⟨hv, leaf_isSome.mpr hpresent⟩
      obtain ⟨hsome1, hout⟩ := himage v hsome
      obtain ⟨a, ha, hin⟩ := (hcover v).mp hsome1
      exact hout a ha hin

/-! ### Two segments -/

/-- Four bytes from the start of a file at `0x1000`. -/
def textHdr : Elf.ProgHdr := ⟨Elf.stLoad, 0, 0x1000, 4, 4⟩

/-- The next four bytes at `va`. -/
def dataHdr (va : ℕ) : Elf.ProgHdr := ⟨Elf.stLoad, 4, va, 4, 4⟩

/-- After the kernel has started with eight frames, both segments are mapped and then unmapped:
the fault, if there is one. -/
def outcome (va : ℕ) : Option (Option Fault) :=
  firstState.bind fun k0 =>
    (mapAll 2 (shortFile 4) [textHdr, dataHdr va] ([], k0)).toOption.map fun t =>
      match taskUnmap 2 t.1 t.2 with
      | .ok _ => none
      | .error e => some e

theorem exists_of_outcome {va : ℕ} {e : Option Fault} (h : outcome va = some e) :
    ∃ k0 vmas k1, Initial 0xC0020000 eightFrames ⟨k0, [], []⟩ ∧
      mapAll 2 (shortFile 4) [textHdr, dataHdr va] ([], k0) = .ok (vmas, k1) ∧
      ∀ f, e = some f → taskUnmap 2 vmas k1 = .error f := by
  obtain ⟨k0, hk0, h⟩ := Option.bind_eq_some_iff.mp h
  obtain ⟨⟨vmas, k1⟩, hmap, heq⟩ := Option.map_eq_some_iff.mp h
  refine ⟨k0, vmas, k1, initial_firstState hk0, toOption_eq_some.mp hmap, ?_⟩
  rintro f rfl
  cases hunmap : taskUnmap 2 vmas k1 with
  | ok k2 =>
    simp only [hunmap] at heq
    cases heq
  | error f' =>
    simp only [hunmap, Option.some.injEq] at heq
    rw [heq]

theorem fresh_eightFrames {k0 : Kernel.State}
    (h : Initial 0xC0020000 eightFrames ⟨k0, [], []⟩) :
    Fresh 0xC0020000 ((eightFrames.pageFreelist : Multiset ℕ) + eightFrames.tables)
      ⟨k0, [], []⟩ :=
  fresh_of_run booted_eightFrames (fun _ _ => not_present_zero) h .nil

theorem hdrs_below {va : ℕ} (hva : va + 4 < virtOffset) :
    ∀ ph ∈ [textHdr, dataHdr va], ph.virtAddr + ph.memBytes < virtOffset := by
  intro ph hph
  rcases mem_pair.mp hph with rfl | rfl
  · decide
  · exact hva

/-- Segments in different pages. -/
theorem apart_segments_conserve : ∃ k0 vmas k1, Initial 0xC0020000 eightFrames ⟨k0, [], []⟩ ∧
    mapAll 2 (shortFile 4) [textHdr, dataHdr 0x2000] ([], k0) = .ok (vmas, k1) ∧
    ∃ fuel k2, taskUnmap fuel vmas k1 = .ok k2 ∧ Conserved k1 k2 := by
  obtain ⟨k0, vmas, k1, hinit, hmap, -⟩ :=
    exists_of_outcome (show outcome 0x2000 = some none by decide +kernel)
  refine ⟨k0, vmas, k1, hinit, hmap, (load_unload_conserves_iff (fresh_eightFrames hinit)
    (hdrs_below (by decide)) hmap).mpr ?_⟩
  refine pairwise_pair.mpr fun v hv hv' => ?_
  have hstop : pageStop textHdr = 0x2000 := by decide
  have hstart : pageStart (dataHdr 0x2000) = 0x2000 := by decide
  have hlt := hv.2
  have hge := hv'.1
  omega

/-- **Two segments in one page**: the second `vm_unmap` finds the page gone, and its assertion
fails. -/
theorem shared_page_fails : ∃ k0 vmas k1, Initial 0xC0020000 eightFrames ⟨k0, [], []⟩ ∧
    mapAll 2 (shortFile 4) [textHdr, dataHdr 0x1800] ([], k0) = .ok (vmas, k1) ∧
    (∀ ph ∈ [textHdr, dataHdr 0x1800], ph.virtAddr + ph.memBytes < virtOffset) ∧
    taskUnmap 2 vmas k1 = .error .assertion := by
  obtain ⟨k0, vmas, k1, hinit, hmap, hunmap⟩ :=
    exists_of_outcome (show outcome 0x1800 = some (some .assertion) by decide +kernel)
  exact ⟨k0, vmas, k1, hinit, hmap, hdrs_below (by decide), hunmap _ rfl⟩

end Conservation

end UserSpace
