/-
`vmalloc` when the page frames run out (`vm_map` and `vmalloc` of `mm/vma.c`).

`vm_map` enters what `pf_zalloc` returns into the page directory and the page
tables without looking at it.  When there is no frame left this is `NULL`, and
the entry refers to the physical address `0 - PFA_VIRT_OFFSET`; a page table
entered this way appears at address 0, where nothing is mapped, so that the next
access is a page fault.

* `Paging.mapLoop` — the loop of `vm_map`, up to the page fault if there is one;
* `Paging.framesNeeded` — the frames it takes for some pages: one for each page,
  and one for each page table that is missing;
* `Paging.mapLoop_enough`, `Paging.mapLoop_short` — with that many free frames it
  enters frames from the free list only, and with fewer it enters `NULL`;
* `Kernel.SafeOutcome` — what running out of frames should come to at worst;
* `Kernel.vmalloc_safe_iff` — `vmalloc` is safe iff there are enough frames.
-/
import Minima.Kmalloc

open Memory

namespace Paging

open Function List

/-! ### The loop of `vm_map` -/

/-- The loop of `vm_map` over some pages, and whether it ends in a page fault: the
page at address 0 is not mapped, so that an access to an entry there faults. -/
def mapLoop : List ℕ → State → State × Bool
  | [], s => (s, false)
  | va :: l, s =>
    let s := mapTable s va
    if pageRoundDn (s.pteAt va) = 0 then (s, true) else mapLoop l (mapFrame s va)

/-- The page tables that some pages need and that are missing. -/
def missingTables (pages : List ℕ) (pd : ℕ → ℕ) : Finset ℕ :=
  (pages.map vaPdIdx).toFinset.filter fun i => ¬ Present (pd i)

/-- The frames that mapping some pages takes. -/
def framesNeeded (pages : List ℕ) (pd : ℕ → ℕ) : ℕ :=
  pages.length + (missingTables pages pd).card

variable {all extra : Multiset ℕ} {A : ℕ → Prop} {s s' s1 : State} {va v f t w : ℕ} {l : List ℕ}

theorem missingTables_of_present (h : Present (s.pageDirectory (vaPdIdx va))) :
    missingTables (va :: l) s.pageDirectory = missingTables l s.pageDirectory := by
  ext i
  simp only [missingTables, List.map_cons, List.toFinset_cons, Finset.mem_filter,
    Finset.mem_insert]
  constructor
  · rintro ⟨rfl | hi, hp⟩
    · exact absurd h hp
    · exact ⟨hi, hp⟩
  · rintro ⟨hi, hp⟩
    exact ⟨.inr hi, hp⟩

theorem card_missingTables (h : ¬ Present (s.pageDirectory (vaPdIdx va))) (hw : Present w) :
    (missingTables (va :: l) s.pageDirectory).card =
      (missingTables l (update s.pageDirectory (vaPdIdx va) w)).card + 1 := by
  have hout : vaPdIdx va ∉ missingTables l (update s.pageDirectory (vaPdIdx va) w) := by
    simp [missingTables, hw]
  rw [← Finset.card_insert_of_notMem hout]
  congr 1
  ext i
  simp only [missingTables, List.map_cons, List.toFinset_cons, Finset.mem_filter,
    Finset.mem_insert]
  by_cases hi : i = vaPdIdx va
  · subst hi
    simp [h]
  · simp [hi]

/-! ### Enough frames -/

/-- What mapping pages may do: page directory and page tables get new entries for
frames of the free list, and keep those they have. -/
structure Grown (s s' : State) : Prop where
  free : ∀ f ∈ s'.pageFreelist, f ∈ s.pageFreelist
  directory : ∀ i, s'.pageDirectory i = s.pageDirectory i ∨
    ¬ Present (s.pageDirectory i) ∧ ∃ f ∈ s.pageFreelist, s'.pageDirectory i = entry f
  pte : ∀ v < 2 ^ 32, vaPdIdx v ∈ kernelPds → s'.pte v = s.pte v ∨
    ¬ Present (s.pte v) ∧ ∃ f ∈ s.pageFreelist, s'.pte v = entry f

theorem Grown.refl (s : State) : Grown s s :=
  ⟨fun _ h => h, fun _ => .inl rfl, fun _ _ _ => .inl rfl⟩

theorem entry_trans {w0 w1 w2 : ℕ} {fl fl' : List ℕ} (hfl : ∀ f ∈ fl', f ∈ fl)
    (hframe : ∀ f ∈ fl, IsFrame f) (h : w1 = w0 ∨ ¬ Present w0 ∧ ∃ f ∈ fl, w1 = entry f)
    (h' : w2 = w1 ∨ ¬ Present w1 ∧ ∃ f ∈ fl', w2 = entry f) :
    w2 = w0 ∨ ¬ Present w0 ∧ ∃ f ∈ fl, w2 = entry f := by
  rcases h' with rfl | ⟨habsent, f, hf, rfl⟩
  · exact h
  · rcases h with rfl | ⟨-, g, hg, rfl⟩
    · exact .inr ⟨habsent, f, hfl f hf, rfl⟩
    · exact absurd (present_entry (hframe g hg)) habsent

theorem Grown.trans {s2 : State} (h : Grown s s1) (h' : Grown s1 s2)
    (hframe : ∀ f ∈ s.pageFreelist, IsFrame f) : Grown s s2 :=
  ⟨fun f hf => h.free f (h'.free f hf),
    fun i => entry_trans h.free hframe (h.directory i) (h'.directory i),
    fun v hv hpd => entry_trans h.free hframe (h.pte v hv hpd) (h'.pte v hv hpd)⟩

theorem mapTable_grown (h : Inv all extra s A) (hpd : vaPdIdx va ∈ kernelPds)
    (hserved : Present (s.pageDirectory (vaPdIdx va)) ∨ s.pageFreelist ≠ []) :
    Grown s (mapTable s va) := by
  obtain ⟨-, hkept, -⟩ := mapTable_invOn h hpd hserved
  by_cases hpresent : Present (s.pageDirectory (vaPdIdx va))
  · rw [mapTable, if_pos hpresent]
    exact Grown.refl s
  obtain ⟨f, fl, hfl⟩ := exists_cons_of_ne_nil (hserved.resolve_left hpresent)
  have hmem : f ∈ s.pageFreelist := by rw [hfl]; exact mem_cons_self
  obtain ⟨hfl1, -, hpd1⟩ := mapTable_new hpresent hfl (h.free_frame hmem)
  refine ⟨fun g hg => ?_, fun i => ?_, fun v hv hvpd => .inl (hkept.pte v hv hvpd trivial)⟩
  · rw [hfl1] at hg
    rw [hfl]
    exact mem_cons_of_mem f hg
  · rw [hpd1]
    by_cases hi : i = vaPdIdx va
    · subst hi
      rw [update_self]
      exact .inr ⟨hpresent, f, hmem, rfl⟩
    · rw [update_of_ne hi]
      exact .inl rfl

theorem pte_of_page (h : v / pageSize = va / pageSize) : s.pte v = s.pte va := by
  rw [← pte_page s v, h, pte_page]

theorem mapFrame_grown (h : Inv all extra s A) (hlo : Vma.vmaStart ≤ va) (hhi : va < Vma.vmaEnd)
    (ht : s.table (vaPdIdx va) = some t) (hnew : ¬ A va) (hfree : s.pageFreelist ≠ []) :
    Grown s (mapFrame s va) := by
  obtain ⟨-, hkept, -⟩ := mapFrame_invOn h ⟨hlo, hhi⟩ ht (.inr hfree)
  have habsent : ¬ Present (s.pte va) := by
    rw [← leaf_isSome]
    exact fun hsome => hnew ((h.mapped va ⟨hlo, hhi⟩).mp hsome)
  obtain ⟨f, fl, hfl⟩ := exists_cons_of_ne_nil hfree
  have hmem : f ∈ s.pageFreelist := by rw [hfl]; exact mem_cons_self
  obtain ⟨hfl1, hpd1, hmem1⟩ := mapFrame_new (pte_eq ht ▸ habsent) hfl (h.free_frame hmem)
  have ht1 : (mapFrame s va).table (vaPdIdx va) = some t := by
    rw [State.table, hpd1]
    exact ht
  refine ⟨fun g hg => ?_, fun i => .inl (by rw [hpd1]), fun v hv hvpd => ?_⟩
  · rw [hfl1] at hg
    rw [hfl]
    exact mem_cons_of_mem f hg
  · by_cases hpage : v / pageSize = va / pageSize
    · rw [pte_of_page hpage, pte_of_page hpage]
      refine .inr ⟨habsent, f, hmem, ?_⟩
      rw [pte_eq ht1, pteAt_eq ht1, hmem1, pteAt_eq ht, if_pos rfl]
    · exact .inl (hkept.pte v hv hvpd hpage)

/-- The frames for some pages are there iff the first page gets its page table and
its frame, and then the frames for the others are there. -/
theorem framesNeeded_cons (hframe : ∀ f ∈ s.pageFreelist, IsFrame f) :
    framesNeeded (va :: l) s.pageDirectory ≤ s.pageFreelist.length ↔
      (Present (s.pageDirectory (vaPdIdx va)) ∨ s.pageFreelist ≠ []) ∧
        framesNeeded l (mapTable s va).pageDirectory + 1 ≤ (mapTable s va).pageFreelist.length := by
  by_cases hpresent : Present (s.pageDirectory (vaPdIdx va))
  · rw [mapTable, if_pos hpresent, framesNeeded, missingTables_of_present hpresent,
      length_cons, framesNeeded]
    simp only [hpresent, true_or, true_and]
    omega
  · cases hfl : s.pageFreelist with
    | nil =>
      rw [framesNeeded, length_cons]
      simp only [hpresent, false_or, length_nil, ne_eq, not_true_eq_false, false_and,
        iff_false]
      omega
    | cons f fl =>
      have hf : IsFrame f := hframe f (by rw [hfl]; exact mem_cons_self)
      obtain ⟨hfl1, -, hpd1⟩ := mapTable_new hpresent hfl hf
      rw [framesNeeded, card_missingTables hpresent (present_entry hf), hfl1, hpd1, framesNeeded,
        length_cons, length_cons]
      simp only [ne_eq, reduceCtorEq, not_false_eq_true, or_true, true_and]
      omega

theorem pteAt_ne_zero (ht : s.table (vaPdIdx va) = some t) (hf : IsFrame t) :
    pageRoundDn (s.pteAt va) ≠ 0 := by
  rw [pteAt_eq ht, (pte_addr hf va).2]
  have hlo := hf.2.1
  simp only [pfaVirtOffset] at hlo
  omega

theorem length_mapFrame (habsent : ¬ Present (s.mem (s.pteAt va))) (hfree : s.pageFreelist ≠ [])
    (hframe : ∀ f ∈ s.pageFreelist, IsFrame f) :
    (mapFrame s va).pageFreelist.length + 1 = s.pageFreelist.length ∧
      (mapFrame s va).pageDirectory = s.pageDirectory := by
  obtain ⟨f, fl, hfl⟩ := exists_cons_of_ne_nil hfree
  have hf : IsFrame f := hframe f (by rw [hfl]; exact mem_cons_self)
  obtain ⟨hfl1, hpd1, -⟩ := mapFrame_new habsent hfl hf
  rw [hfl1, hfl, length_cons]
  exact ⟨rfl, hpd1⟩

/-- **Enough frames**: the loop of `vm_map` does not fault, `pf_zalloc` always finds
a frame, and all new entries are for frames of the free list. -/
theorem mapLoop_enough {n : ℕ} (start : ℕ) (h : Inv all extra s A)
    (hfree : Unmapped A start n)
    (henough : framesNeeded (List.range' start n pageSize) s.pageDirectory ≤
      s.pageFreelist.length) :
    ∃ s', mapLoop (List.range' start n pageSize) s = (s', false) ∧
      (List.range' start n pageSize).foldlM mapPageServed s = .ok s' ∧ Grown s s' := by
  induction n generalizing s A start with
  | zero => exact ⟨s, rfl, rfl, Grown.refl s⟩
  | succ n ih =>
    rw [range'_succ] at henough ⊢
    have hframe : ∀ f ∈ s.pageFreelist, IsFrame f := fun f hf => h.free_frame hf
    obtain ⟨hserved, hrest⟩ := (framesNeeded_cons hframe).mp henough
    have hlo := hfree.lo
    have hend := hfree.start_lt
    have hnew0 := hfree.not_mapped
    have hpd : vaPdIdx start ∈ kernelPds := vaPdIdx_mem hlo hend
    obtain ⟨h1, -, t, ht⟩ := mapTable_invOn h hpd hserved
    have hfree1 : (mapTable s start).pageFreelist ≠ [] := by
      intro hnil
      rw [hnil] at hrest
      simp at hrest
    obtain ⟨h2, -⟩ := mapFrame_invOn h1 ⟨hlo, hend⟩ ht (.inr hfree1)
    have hgrown := (mapTable_grown h hpd hserved).trans
      (mapFrame_grown h1 hlo hend ht hnew0 hfree1) hframe
    have habsent : ¬ Present ((mapTable s start).mem ((mapTable s start).pteAt start)) := by
      rw [← pte_eq ht, ← leaf_isSome]
      exact fun hsome => hnew0 ((h1.mapped start ⟨hlo, hend⟩).mp hsome)
    obtain ⟨hlen, hpd2⟩ := length_mapFrame habsent hfree1 fun f hf => h1.free_frame hf
    obtain ⟨s', hloop, hserved', hgrown'⟩ :=
      ih (start + pageSize) h2 hfree.rest (by rw [hpd2]; omega)
    refine ⟨s', ?_, ?_, hgrown.trans hgrown' hframe⟩
    · rw [mapLoop, if_neg (pteAt_ne_zero ht (h1.table_frame (InvOn.mem_tables hpd ht)))]
      exact hloop
    · have hpage : mapPageServed s start = .ok (mapPage s start) :=
        mapPageServed_eq_ok.mpr ⟨⟨hserved, .inr hfree1⟩, rfl⟩
      rw [foldlM_cons, hpage]
      exact hserved'

/-! ### Too few frames -/

theorem pfZalloc_nil {m : Memory} (h : m.pageFreelist = []) : m.pfZalloc = (0, m) := by
  simp [Memory.pfZalloc, Memory.pfAlloc, h]

theorem entry_zero : entry 0 = 0x30000003 ∧ Present (entry 0) ∧ frameOf (entry 0) = 0 := by decide

theorem mapTable_null (hpresent : ¬ Present (s.pageDirectory (vaPdIdx va)))
    (hfl : s.pageFreelist = []) :
    mapTable s va = ⟨s.toMemory, update s.pageDirectory (vaPdIdx va) (entry 0)⟩ ∧
      pageRoundDn ((mapTable s va).pteAt va) = 0 := by
  have hstep : mapTable s va =
      ⟨s.toMemory, update s.pageDirectory (vaPdIdx va) (entry 0)⟩ := by
    rw [mapTable, if_neg hpresent, pfZalloc_nil hfl]
  refine ⟨hstep, ?_⟩
  have hframe : frameOf ((mapTable s va).pageDirectory (vaPdIdx va)) = 0 := by
    rw [hstep]
    show frameOf (update s.pageDirectory (vaPdIdx va) (entry 0) (vaPdIdx va)) = 0
    rw [update_self, entry_zero.2.2]
  rw [State.pteAt, hframe]
  simp only [add32, vaPtIdx, pageRoundDn, pageSize]
  omega

theorem mapFrame_null (ht : s.table (vaPdIdx va) = some t) (habsent : ¬ Present (s.pte va))
    (hfl : s.pageFreelist = []) :
    (mapFrame s va).pageFreelist = [] ∧ (mapFrame s va).table = s.table ∧
      (mapFrame s va).pte va = entry 0 := by
  have hstep : mapFrame s va =
      ⟨s.toMemory.store (s.pteAt va) (entry 0), s.pageDirectory⟩ := by
    rw [mapFrame, if_neg (pte_eq ht ▸ habsent), pfZalloc_nil hfl]
  have htable : (mapFrame s va).table = s.table := by
    rw [hstep]
    rfl
  refine ⟨by rw [hstep]; exact hfl, htable, ?_⟩
  have ht1 : (mapFrame s va).table (vaPdIdx va) = some t := by rw [htable, ht]
  rw [pte_eq ht1, pteAt_eq ht1, hstep, pteAt_eq ht]
  exact update_self _ _ _

/-- The page tables of the range are different frames. -/
structure DistinctTables (s : State) : Prop where
  frame : ∀ i ∈ kernelPds, ∀ t, s.table i = some t → IsFrame t
  inj : ∀ i ∈ kernelPds, ∀ j ∈ kernelPds, ∀ t, s.table i = some t → s.table j = some t → i = j

theorem InvOn.distinctTables (h : Inv all extra s A) : DistinctTables s :=
  ⟨fun _ hi _ ht => h.table_frame (InvOn.mem_tables hi ht),
    fun _ hi _ hj _ ht ht' => Holders.slot_unique h.tables_nodup hi hj ht ht'⟩

theorem mapLoop_keeps (hfl : s.pageFreelist = []) (htables : DistinctTables s)
    (hva : va < 2 ^ 32) (hpd : vaPdIdx va ∈ kernelPds) (ht : s.table (vaPdIdx va) = some t)
    (hl : ∀ v ∈ l, v < 2 ^ 32 ∧ vaPdIdx v ∈ kernelPds ∧ v / pageSize ≠ va / pageSize) :
    (mapLoop l s).1.pte va = s.pte va := by
  induction l generalizing s with
  | nil => rfl
  | cons v l ih =>
    obtain ⟨hv, hvpd, hne⟩ := hl v mem_cons_self
    rw [mapLoop]
    by_cases hpresent : Present (s.pageDirectory (vaPdIdx v))
    · -- the page has a page table, and its entry becomes that of `NULL`
      obtain ⟨t', ht'⟩ : ∃ t', s.table (vaPdIdx v) = some t' :=
        ⟨_, leaf_eq_some.mpr ⟨hpresent, rfl⟩⟩
      have hsame : mapTable s v = s := by rw [mapTable, if_pos hpresent]
      rw [hsame, if_neg (pteAt_ne_zero ht' (htables.frame _ hvpd _ ht'))]
      have hpd1 : (mapFrame s v).pageDirectory = s.pageDirectory := by
        rw [mapFrame]
        split
        · rfl
        · rw [pfZalloc_nil hfl]
      have hfl1 : (mapFrame s v).pageFreelist = [] := by
        rw [mapFrame]
        split
        · exact hfl
        · rw [pfZalloc_nil hfl]
          exact hfl
      have hmem1 : ∀ a, a ≠ s.pteAt v → (mapFrame s v).mem a = s.mem a := by
        intro a ha
        rw [mapFrame]
        split
        · rfl
        · rw [pfZalloc_nil hfl]
          exact update_of_ne ha _ _
      have htable1 : (mapFrame s v).table = s.table := by
        funext i
        rw [State.table, hpd1]
        rfl
      have hkept : (mapFrame s v).pte va = s.pte va := by
        refine pte_congr (by rw [hpd1]) fun t1 ht1 => hmem1 _ fun heq => ?_
        rw [pteAt_eq ht'] at heq
        obtain ⟨hadd, hround⟩ := pte_addr (htables.frame _ hpd _ ht1) va
        obtain ⟨hadd', hround'⟩ := pte_addr (htables.frame _ hvpd _ ht') v
        have htt : t1 = t' := by rw [← hround, heq, hround']
        have hidx := htables.inj _ hpd _ hvpd _ ht1 (htt ▸ ht')
        rw [hadd, hadd', htt] at heq
        simp only [vaPdIdx, vaPtIdx, pageSize] at hidx heq hne
        omega
      rw [← hkept]
      exact ih hfl1 ⟨htable1 ▸ htables.frame, htable1 ▸ htables.inj⟩ (htable1 ▸ ht)
        fun u hu => hl u (mem_cons_of_mem v hu)
    · -- the page table is missing: its entry is that of `NULL`, and the loop faults
      obtain ⟨hstep, hfault⟩ := mapTable_null hpresent hfl
      rw [if_pos hfault, hstep]
      have hslot : vaPdIdx va ≠ vaPdIdx v := by
        intro heq
        rw [heq] at ht
        exact hpresent (leaf_eq_some.mp ht).1
      exact pte_congr (update_of_ne hslot _ _) fun _ _ => rfl

/-- An entry of the page directory or of a page table that has been made from
`NULL`. -/
def NullEntry (s s' : State) : Prop :=
  (∃ i, ¬ Present (s.pageDirectory i) ∧ s'.pageDirectory i = entry 0) ∨
    ∃ va < 2 ^ 32, vaPdIdx va ∈ kernelPds ∧ ¬ Present (s.pte va) ∧ s'.pte va = entry 0

theorem NullEntry.of_grown (hgrown : Grown s s1) (h : NullEntry s1 s') : NullEntry s s' := by
  have hback : ∀ {w w1 : ℕ}, (w1 = w ∨ ¬ Present w ∧ ∃ f ∈ s.pageFreelist, w1 = entry f) →
      ¬ Present w1 → ¬ Present w := by
    rintro w w1 (rfl | ⟨habsent, -⟩) h
    · exact h
    · exact habsent
  rcases h with ⟨i, habsent, hi⟩ | ⟨va, hva, hpd, habsent, hi⟩
  · exact .inl ⟨i, hback (hgrown.directory i) habsent, hi⟩
  · exact .inr ⟨va, hva, hpd, hback (hgrown.pte va hva hpd) habsent, hi⟩

/-- **Too few frames**: the loop of `vm_map` enters `NULL` somewhere. -/
theorem mapLoop_short {n : ℕ} (start : ℕ) (h : Inv all extra s A)
    (hfree : Unmapped A start n)
    (hshort : ¬ framesNeeded (List.range' start n pageSize) s.pageDirectory ≤
      s.pageFreelist.length) :
    NullEntry s (mapLoop (List.range' start n pageSize) s).1 := by
  induction n generalizing s A start with
  | zero =>
    refine absurd (Nat.zero_le s.pageFreelist.length) ?_
    simp [framesNeeded, missingTables] at hshort
  | succ n ih =>
    rw [range'_succ] at hshort ⊢
    have hframe : ∀ f ∈ s.pageFreelist, IsFrame f := fun f hf => h.free_frame hf
    have hlo := hfree.lo
    have hend := hfree.start_lt
    have hnew0 := hfree.not_mapped
    have hpd : vaPdIdx start ∈ kernelPds := vaPdIdx_mem hlo hend
    have hva : start < 2 ^ 32 := hend.trans (by decide)
    by_cases hserved : Present (s.pageDirectory (vaPdIdx start)) ∨ s.pageFreelist ≠ []
    · obtain ⟨h1, hkept1, t, ht⟩ := mapTable_invOn h hpd hserved
      have hgrown1 := mapTable_grown h hpd hserved
      have habsent : ¬ Present ((mapTable s start).pte start) := by
        rw [← leaf_isSome]
        exact fun hsome => hnew0 ((h1.mapped start ⟨hlo, hend⟩).mp hsome)
      rw [mapLoop, if_neg (pteAt_ne_zero ht (h1.table_frame (InvOn.mem_tables hpd ht)))]
      by_cases hfree1 : (mapTable s start).pageFreelist = []
      · -- the page gets the entry of `NULL`, and keeps it
        obtain ⟨hfree2, htable2, hpte⟩ := mapFrame_null ht habsent hfree1
        have htables := h1.distinctTables
        refine .inr ⟨start, hva, hpd, ?_, ?_⟩
        · rwa [← hkept1.pte start hva hpd trivial]
        · rw [← hpte]
          refine mapLoop_keeps hfree2 ⟨htable2 ▸ htables.frame, htable2 ▸ htables.inj⟩ hva hpd
            (htable2 ▸ ht) fun v hv => ?_
          obtain ⟨i, hi, rfl⟩ := mem_range'.mp hv
          have hhi := hfree.hi
          have hstart := hfree.aligned
          simp only [pageSize] at hhi hstart ⊢
          refine ⟨?_, vaPdIdx_mem (by omega) (by omega), by omega⟩
          rw [Vma.vmaEnd_eq] at hhi
          omega
      · obtain ⟨h2, -⟩ := mapFrame_invOn h1 ⟨hlo, hend⟩ ht (.inr hfree1)
        have hgrown := hgrown1.trans (mapFrame_grown h1 hlo hend ht hnew0 hfree1) hframe
        obtain ⟨hlen, hpd2⟩ := length_mapFrame (pte_eq ht ▸ habsent) hfree1
          fun f hf => h1.free_frame hf
        rw [framesNeeded_cons hframe] at hshort
        refine (ih (start + pageSize) h2 hfree.rest
          fun hle => hshort ⟨hserved, ?_⟩).of_grown hgrown
        rw [hpd2] at hle
        omega
    · -- there is no frame for the page table
      rw [not_or, not_not] at hserved
      obtain ⟨hstep, hfault⟩ := mapTable_null hserved.1 hserved.2
      rw [mapLoop, if_pos hfault, hstep]
      exact .inl ⟨vaPdIdx start, hserved.1, update_self _ _ _⟩

/-! ### `vm_map` -/

section Area

variable {areas : Multiset (ℕ × ℕ)} {start size : ℕ}

theorem vmMap_enough (h : Inv all extra s (Covers areas)) (hm : Vma.Mappable areas start size)
    (henough : framesNeeded (pagesOf start size) s.pageDirectory ≤ s.pageFreelist.length) :
    ∃ s', mapLoop (pagesOf start size) s = (s', false) ∧ vmMapServed start size s = .ok s' ∧
      Grown s s' := by
  rw [vmMapServed]
  rw [pagesOf_eq hm.ok] at henough ⊢
  exact mapLoop_enough start h (unmapped_of_mappable hm) henough

theorem vmMap_short (h : Inv all extra s (Covers areas)) (hm : Vma.Mappable areas start size)
    (hshort : ¬ framesNeeded (pagesOf start size) s.pageDirectory ≤ s.pageFreelist.length) :
    NullEntry s (mapLoop (pagesOf start size) s).1 := by
  rw [pagesOf_eq hm.ok] at hshort ⊢
  exact mapLoop_short start h (unmapped_of_mappable hm) hshort

theorem pagesOf_empty (hstart : start < 2 ^ 32) : pagesOf start 0 = [] := by
  rw [pagesOf, add32, add_zero, Nat.mod_eq_of_lt hstart]
  rw [show (2 : ℕ) ^ 20 = (2 ^ 20 - 1) + 1 from rfl, vas, if_neg (lt_irrefl start)]

end Area

end Paging

namespace Vma

variable {σ : Type} {E : Env σ} {s : State σ} {m : σ} {self n pages : ℕ} {pre post : List Area}
  {fit : Area}

theorem findSpace_of_fit (hslab : fit.size > n → E.slabAlloc sizeofVma s.rest = .ok (self, m))
    (hn : pages * pageSize % 2 ^ 32 = n)
    (hfit : findFit n [] none s.vmaFreelist = some (pre, fit, post)) :
    ∃ vma s', findSpace E pages s = .ok (vma, s') ∧ vma.start = fit.start ∧ vma.size = n ∧
      s'.rest = if fit.size > n then m else s.rest := by
  rw [findSpace, hn]
  simp only [hfit]
  by_cases hlarge : fit.size > n
  · rw [if_pos hlarge, vmaSplit, hslab hlarge, hn]
    exact ⟨_, _, rfl, rfl, rfl, by rw [if_pos hlarge]⟩
  · -- an area that fits and is not larger has the size asked for
    obtain ⟨-, hsize⟩ := findFit_spec hfit
    rw [if_neg hlarge]
    exact ⟨fit, _, rfl, rfl, (not_lt.mp hlarge).antisymm hsize, by rw [if_neg hlarge]⟩

theorem findSpace_of_no_fit (hn : pages * pageSize % 2 ^ 32 = n)
    (hfit : findFit n [] none s.vmaFreelist = none) : findSpace E pages s = .error .panic := by
  rw [findSpace, hn]
  simp only [hfit]

end Vma

namespace Kernel

open Vma (Area findFit findSpace sizeofVma)
open Paging (Grown NullEntry Present entry frameOf framesNeeded mapLoop pagesOf vmMapServed)
open Option

/-! ### `vmalloc` -/

/-- What a call comes to: the state it leaves, and its result or the fault it ends
in. -/
structure Outcome where
  state : State
  result : Except Fault ℕ

/-- `vmalloc`, whatever `pf_zalloc` returns.  The free list stands for all frames
that `pf_alloc` can find, those included that a purge would give back. -/
def vmallocOutcome (fuel bytes : ℕ) (s : State) : Outcome :=
  match findSpace (env fuel) (pageRoundUp bytes / pageSize) s with
  | .error f => ⟨s, .error f⟩
  | .ok (vma, s) =>
    let (p, faulted) := mapLoop (pagesOf vma.start vma.size) s.rest.paging
    ⟨{ s with rest := s.rest.withPaging p },
      if faulted then .error .nullPointer else .ok vma.start⟩

/-- Running out of frames does no harm: an entry that has become present is for a frame that was
free, and a call that fails leaves everything as it was. -/
structure SafeOutcome (s : State) (o : Outcome) : Prop where
  directory : ∀ i, ¬ Present (s.rest.pageDirectory i) →
    Present (o.state.rest.pageDirectory i) →
    frameOf (o.state.rest.pageDirectory i) ∈ s.rest.pageFreelist
  pte : ∀ va < 2 ^ 32, Paging.vaPdIdx va ∈ Paging.kernelPds →
    ¬ Present (s.rest.paging.pte va) → Present (o.state.rest.paging.pte va) →
    frameOf (o.state.rest.paging.pte va) ∈ s.rest.pageFreelist
  failed : ∀ f, o.result = .error f → o.state = s

variable {boot : ℕ} {all : Multiset ℕ} {user : List (ℕ × ℕ)} {structs : Multiset ℕ}
  {areas : Multiset (ℕ × ℕ)} {m m' : Rest} {fuel n p bytes : ℕ} {μ : Machine} {s : State}
  {o : Outcome}

theorem J.free_frame (h : J boot all user m structs areas) :
    ∀ f ∈ m.pageFreelist, IsFrame f := by
  obtain ⟨g, -, hpaging⟩ := h
  exact fun f hf => hpaging.free_frame hf

theorem J.slabAlloc_grown (h : J boot all user m structs areas)
    (hcall : (env fuel).slabAlloc n m = .ok (p, m')) : Grown m.paging m'.paging := by
  obtain ⟨g, ⟨touched, l, -, hslab⟩, hpaging⟩ := h
  obtain ⟨⟨q, σ⟩, hret, heq⟩ := map_eq_ok.mp hcall
  obtain ⟨rfl, rfl⟩ := Prod.mk.inj heq
  obtain ⟨g', hpolicy, -, hconf⟩ := Slab.doSlabAlloc_refines hret hslab.rep hslab.owned
  obtain ⟨hfl, htab, -⟩ := hpaging.disjoint
  refine ⟨fun f hf => hpolicy.suffix.subset hf, fun i => .inl rfl, fun v hv hpd => .inl ?_⟩
  refine Paging.pte_congr rfl fun t ht => hconf _ fun hmem => ?_
  have htmem := Paging.InvOn.mem_tables (R := Paging.kernelRange) hpd ht
  rw [(Paging.pte_addr (hpaging.table_frame htmem) v).2] at hmem
  rcases Multiset.mem_add.mp hmem with hmem | hmem
  · exact (hfl _ hmem).1 htmem
  · exact (htab _ htmem).2 hmem

theorem safe_of_grown (hframe : ∀ f ∈ s.rest.pageFreelist, IsFrame f)
    (h : Grown s.rest.paging o.state.rest.paging) (hret : o.result = .ok p) :
    SafeOutcome s o := by
  have hentry : ∀ {w w' : ℕ},
      (w' = w ∨ ¬ Present w ∧ ∃ f ∈ s.rest.pageFreelist, w' = entry f) →
      ¬ Present w → Present w' → frameOf w' ∈ s.rest.pageFreelist := by
    rintro w w' (rfl | ⟨-, f, hf, rfl⟩) habsent hpresent
    · exact absurd hpresent habsent
    · rwa [Paging.frameOf_entry (hframe f hf)]
  refine ⟨fun i => hentry (h.directory i), fun va hva hpd => hentry (h.pte va hva hpd), ?_⟩
  intro f hf
  rw [hret] at hf
  cases hf

theorem not_safe_of_nullEntry (hframe : ∀ f ∈ s.rest.pageFreelist, IsFrame f)
    (h : NullEntry s.rest.paging o.state.rest.paging) : ¬ SafeOutcome s o := by
  intro hsafe
  obtain ⟨-, hpresent, hzero⟩ := Paging.entry_zero
  have hnull : 0 ∉ s.rest.pageFreelist := by
    intro hmem
    have hbase := (hframe 0 hmem).2.1
    simp only [pfaVirtOffset] at hbase
    omega
  rcases h with ⟨i, habsent, hi⟩ | ⟨va, hva, hpd, habsent, hi⟩
  · have hmem := hsafe.directory i habsent
    rw [show o.state.rest.pageDirectory i = entry 0 from hi, hzero] at hmem
    exact hnull (hmem hpresent)
  · have hmem := hsafe.pte va hva hpd habsent
    rw [hi, hzero] at hmem
    exact hnull (hmem hpresent)

/-- The area that `find_space` chooses for `n` bytes is larger: `vma_split` makes a
`struct vma` for a part of it. -/
def Splits (n : ℕ) (s : State) : Prop :=
  ∃ pre fit post, findFit n [] none s.vmaFreelist = some (pre, fit, post) ∧ fit.size > n

/-- The condition: the area that `find_space` chooses, of `n` bytes, can be mapped.
`m` is memory after `slab_alloc` has made the `struct vma` of a part of an area. -/
def EnoughFrames (n : ℕ) (m : Rest) (s : State) : Prop :=
  ∀ pre fit post, findFit n [] none s.vmaFreelist = some (pre, fit, post) →
    framesNeeded (pagesOf fit.start n) s.rest.pageDirectory ≤
      (if fit.size > n then m else s.rest).pageFreelist.length

variable {vma : Area} {s1 : State} {self : ℕ}

theorem Inv.mappable (h : Inv boot all μ) (hpos : 0 < pageRoundUp bytes)
    (hfind : findSpace (env fuel) (pageRoundUp bytes / pageSize) μ.state = .ok (vma, s1)) :
    ∃ extra, Paging.Inv all extra s1.rest.paging (Paging.Covers (Vma.extents μ.state.vmaList)) ∧
      Vma.Mappable (Vma.extents μ.state.vmaList) vma.start vma.size := by
  obtain ⟨-, -, -, hmappable, g, -, hpaging⟩ :=
    Vma.findSpace_spec (sound fuel boot all μ.slabLive) h.vm hpos hfind
  exact ⟨SlabSpace.pages g, hpaging, hmappable⟩

theorem Inv.mapLoop_of_enough (h : Inv boot all μ) (hsize : vma.size = pageRoundUp bytes)
    (hstart : vma.start < 2 ^ 32)
    (hfind : findSpace (env fuel) (pageRoundUp bytes / pageSize) μ.state = .ok (vma, s1))
    (henough : framesNeeded (pagesOf vma.start vma.size) s1.rest.pageDirectory ≤
      s1.rest.pageFreelist.length) :
    ∃ p, mapLoop (pagesOf vma.start vma.size) s1.rest.paging = (p, false) ∧
      (env fuel).vmMap vma.start vma.size s1.rest = .ok (s1.rest.withPaging p) ∧
      Grown s1.rest.paging p := by
  have hserved : ∀ {p}, vmMapServed vma.start vma.size s1.rest.paging = .ok p →
      (env fuel).vmMap vma.start vma.size s1.rest = .ok (s1.rest.withPaging p) :=
    fun hret => map_eq_ok.mpr ⟨_, hret, rfl⟩
  rcases Nat.eq_zero_or_pos (pageRoundUp bytes) with hzero | hpos
  · -- no pages: nothing is mapped
    have hpages : pagesOf vma.start vma.size = [] := by
      rw [hsize, hzero, Paging.pagesOf_empty hstart]
    refine ⟨s1.rest.paging, by rw [hpages]; rfl, hserved ?_, Grown.refl _⟩
    rw [vmMapServed, hpages]
    rfl
  · obtain ⟨extra, hpaging, hm⟩ := h.mappable hpos hfind
    obtain ⟨p, hloop, hret, hgrown⟩ := Paging.vmMap_enough hpaging hm henough
    exact ⟨p, hloop, hserved hret, hgrown⟩

theorem Inv.mapLoop_of_short (h : Inv boot all μ) (hsize : vma.size = pageRoundUp bytes)
    (hstart : vma.start < 2 ^ 32)
    (hfind : findSpace (env fuel) (pageRoundUp bytes / pageSize) μ.state = .ok (vma, s1))
    (hshort : ¬ framesNeeded (pagesOf vma.start vma.size) s1.rest.pageDirectory ≤
      s1.rest.pageFreelist.length) :
    NullEntry s1.rest.paging
      (mapLoop (pagesOf vma.start vma.size) s1.rest.paging).1 := by
  rcases Nat.eq_zero_or_pos (pageRoundUp bytes) with hzero | hpos
  · refine absurd (Nat.zero_le s1.rest.pageFreelist.length) ?_
    rw [hsize, hzero, Paging.pagesOf_empty hstart] at hshort
    exact hshort
  · obtain ⟨extra, hpaging, hm⟩ := h.mappable hpos hfind
    exact Paging.vmMap_short hpaging hm hshort

theorem Inv.found (h : Inv boot all μ) {pre post : List Area} {fit : Area}
    (hslab : Splits (pageRoundUp bytes) μ.state →
      (env fuel).slabAlloc sizeofVma μ.state.rest = .ok (self, m))
    (hfit : findFit (pageRoundUp bytes) [] none μ.state.vmaFreelist = some (pre, fit, post)) :
    ∃ vma s1,
      findSpace (env fuel) (pageRoundUp bytes / pageSize) μ.state = .ok (vma, s1) ∧
      vma.size = pageRoundUp bytes ∧ vma.start < 2 ^ 32 ∧
      Grown μ.state.rest.paging s1.rest.paging ∧
      (EnoughFrames (pageRoundUp bytes) m μ.state ↔
        framesNeeded (pagesOf vma.start vma.size) s1.rest.pageDirectory ≤
          s1.rest.pageFreelist.length) := by
  have hslab : fit.size > pageRoundUp bytes →
      (env fuel).slabAlloc sizeofVma μ.state.rest = .ok (self, m) :=
    fun hlarge => hslab ⟨pre, fit, post, hfit, hlarge⟩
  obtain ⟨vma, s1, hfind, hstart, hsize, hrest⟩ :=
    Vma.findSpace_of_fit hslab (pages_mul bytes) hfit
  have hsame : s1.rest.pageDirectory = μ.state.rest.pageDirectory ∧
      Grown μ.state.rest.paging s1.rest.paging := by
    rw [hrest]
    split
    · rename_i hlarge
      obtain ⟨⟨q, σ⟩, -, heq⟩ := map_eq_ok.mp (hslab hlarge)
      exact ⟨by rw [← (Prod.mk.inj heq).2]; rfl, h.vm.rest.slabAlloc_grown (hslab hlarge)⟩
    · exact ⟨rfl, Grown.refl _⟩
  refine ⟨vma, s1, hfind, hsize, ?_, hsame.2, ?_⟩
  · obtain ⟨hlist, -⟩ := Vma.findFit_spec hfit
    have hhi := (h.vm.space.ok fit (by simp [Vma.areas, hlist])).hi
    rw [Vma.vmaEnd_eq] at hhi
    omega
  · rw [hstart, hsize, hsame.1, hrest]
    constructor
    · exact fun hall => hall pre fit post hfit
    · intro hle pre' fit' post' hfit'
      rw [hfit] at hfit'
      cases hfit'
      exact hle

theorem Inv.safe_iff (h : Inv boot all μ) (hslab : Splits (pageRoundUp bytes) μ.state →
      (env fuel).slabAlloc sizeofVma μ.state.rest = .ok (self, m)) :
    SafeOutcome μ.state (vmallocOutcome fuel bytes μ.state) ↔
      EnoughFrames (pageRoundUp bytes) m μ.state := by
  cases hfit : findFit (pageRoundUp bytes) [] none μ.state.vmaFreelist with
  | none =>
    -- a panic, before anything has changed
    rw [vmallocOutcome, Vma.findSpace_of_no_fit (pages_mul bytes) hfit]
    constructor
    · intro _ pre fit post hfit'
      rw [hfit] at hfit'
      cases hfit'
    · intro _
      exact ⟨fun _ habsent hpresent => absurd hpresent habsent,
        fun _ _ _ habsent hpresent => absurd hpresent habsent, fun _ _ => rfl⟩
  | some found =>
    obtain ⟨vma, s1, hfind, hsize, hlow, hgrown, hcond⟩ := h.found hslab hfit
    have hframe := h.vm.rest.free_frame
    rw [hcond, vmallocOutcome, hfind]
    by_cases henough : framesNeeded (pagesOf vma.start vma.size)
        s1.rest.pageDirectory ≤ s1.rest.pageFreelist.length
    · obtain ⟨p, hloop, -, hmapped⟩ := h.mapLoop_of_enough hsize hlow hfind henough
      simp only [henough, iff_true, hloop]
      exact safe_of_grown hframe (hgrown.trans hmapped hframe) rfl
    · have hnull := h.mapLoop_of_short hsize hlow hfind henough
      simp only [henough, iff_false]
      exact not_safe_of_nullEntry hframe (hnull.of_grown hgrown)

/-- **`vmalloc` is safe iff there are enough frames**, in every state of a run in which
`slab_alloc` can serve the `struct vma` if one is needed: one for every page of the area that
`find_space` chooses, and one for every page table that it lacks. -/
theorem vmalloc_safe_iff {b : Paging.State} {μ0 : Machine} {es : List Event} (hb : Booted boot b)
    (hinit : Initial boot b μ0) (hrun : Run Step μ0 es μ) (fuel bytes : ℕ)
    (hslab : Splits (pageRoundUp bytes) μ.state →
      (env fuel).slabAlloc sizeofVma μ.state.rest = .ok (self, m)) :
    SafeOutcome μ.state (vmallocOutcome fuel bytes μ.state) ↔
      EnoughFrames (pageRoundUp bytes) m μ.state :=
  (inv_of_run hb hinit hrun).safe_iff hslab

/-! ### Six free frames -/

theorem twoPages_eq : (firstState.bind fun s =>
    ((env 2).slabAlloc sizeofVma s.rest).toOption.bind fun (_, m) =>
      (findFit 8192 [] none s.vmaFreelist).map fun x =>
        decide (framesNeeded (pagesOf x.2.1.start 8192) s.rest.pageDirectory ≤
          (if x.2.1.size > 8192 then m else s.rest).pageFreelist.length)) = some true := by
  decide +kernel

/-- A call for 5000 bytes takes three frames. -/
theorem vmalloc_safe_iff_twoPages : ∃ μ0 self m, Initial 0xC0020000 eightFrames μ0 ∧
    (env 2).slabAlloc sizeofVma μ0.state.rest = .ok (self, m) ∧
    EnoughFrames (pageRoundUp 5000) m μ0.state ∧
    SafeOutcome μ0.state (vmallocOutcome 2 5000 μ0.state) := by
  obtain ⟨s, hs, h⟩ := bind_eq_some_iff.mp twoPages_eq
  obtain ⟨⟨self, m⟩, hself, h⟩ := bind_eq_some_iff.mp h
  obtain ⟨x, hfit, hle⟩ := map_eq_some_iff.mp h
  rw [toOption_eq_some] at hself
  have hinit := initial_firstState hs
  have henough : EnoughFrames (pageRoundUp 5000) m s := by
    intro pre fit post hfit'
    rw [show pageRoundUp 5000 = 8192 by decide, hfit] at hfit'
    cases hfit'
    exact of_decide_eq_true hle
  exact ⟨_, self, m, hinit, hself, henough,
    (vmalloc_safe_iff booted_eightFrames hinit .nil 2 5000 fun _ => hself).mpr henough⟩

theorem eightPages_eq : (firstState.map fun s =>
    ((vmallocOutcome 2 0x8000 s).result.toOption, s.rest.paging.pte 0xC0105000,
      (vmallocOutcome 2 0x8000 s).state.rest.paging.pte 0xC0105000,
      decide (0 ∈ s.rest.pageFreelist))) =
      some (some 0xC0100000, 0, 0x30000003, false) := by
  decide +kernel

/-- A call for eight pages finds frames for a page table and five pages.  It returns
all the same, and the sixth page has the entry of `NULL`. -/
theorem null_page_mapped : ∃ μ0, Initial 0xC0020000 eightFrames μ0 ∧
    (vmallocOutcome 2 0x8000 μ0.state).result.toOption = some 0xC0100000 ∧
    (vmallocOutcome 2 0x8000 μ0.state).state.rest.paging.pte 0xC0105000 = 0x30000003 ∧
    ¬ SafeOutcome μ0.state (vmallocOutcome 2 0x8000 μ0.state) := by
  obtain ⟨s, hs, heq⟩ := map_eq_some_iff.mp eightPages_eq
  simp only [Prod.mk.injEq, decide_eq_false_iff_not] at heq
  obtain ⟨hret, hbefore, hafter, hnull⟩ := heq
  refine ⟨⟨s, [], []⟩, initial_firstState hs, hret, hafter, fun hsafe => ?_⟩
  have hmem := hsafe.pte 0xC0105000 (by decide) (by decide)
  rw [hbefore, hafter] at hmem
  exact hnull (hmem (by decide) (by decide))

end Kernel
