/-
Runs of the virtual memory allocator with requests of any size (`mm/vma.c`).

`vmalloc` takes any 32-bit number of bytes.  A request for none, and one that
`PAGE_ROUND_UP` wraps around to none, gets an area without any addresses, which
starts where a free area starts.

* `Ledger`, `AnyStep` — runs with any sizes, where each live pointer is recorded
  with the area that was made for it;
* `Sized` — each live pointer has an area of its own that is large enough, freeing
  it releases that area, and `do_defrag` fails no assertion;
* `sized_of_run` — this holds as long as no request rounds to zero pages;
* `Roomy` — the free areas of any run are sorted, with gaps between them;
* `vmalloc_of_hole` — a request is satisfied if there is a hole for it among the
  areas that are neither handed out nor still queued for `do_defrag`.
-/
import Minima.Vma

namespace Vma

open List

variable {σ : Type} {E : Env σ}

/-! ### Runs with requests of any size -/

/-- A live pointer, with the size asked for and the area `vmalloc` made for it. -/
structure Block where
  ptr : ℕ
  bytes : ℕ
  area : Area
  deriving DecidableEq, Repr

/-- The allocator and the live pointers. -/
structure Ledger (σ : Type) where
  state : State σ
  live : List Block

/-- One call, with any 32-bit size; it is a step if it returns.  `vmalloc` puts the
area it makes at the end of `vma_list`. -/
inductive AnyStep (E : Env σ) : Ledger σ → Event → Ledger σ → Prop
  | vmalloc {s s' : State σ} {live : List Block} {bytes p : ℕ} {a : Area} (hbytes : bytes < 2 ^ 32)
      (hcall : vmalloc E bytes s = .ok (p, s')) (hnew : s'.vmaList.getLast? = some a) :
      AnyStep E ⟨s, live⟩ (.vmalloc bytes) ⟨s', ⟨p, bytes, a⟩ :: live⟩
  | vmfree {s s' : State σ} {live : List Block} {b : Block} (hlive : b ∈ live)
      (hcall : vmfree E b.ptr s = .ok s') : AnyStep E ⟨s, live⟩ (.vmfree b.ptr) ⟨s', live.erase b⟩
  | defrag {s s' : State σ} {live : List Block} (hcall : doDefrag E s = .ok s') :
      AnyStep E ⟨s, live⟩ .defrag ⟨s', live⟩

/-- A request that takes at least one page after rounding. -/
def Regular : Event → Prop
  | .vmalloc bytes => 1 ≤ bytes ∧ bytes ≤ 0xFFFFF000
  | .vmfree _ => True
  | .defrag => True

/-- **What the allocator promises**: each live pointer has an area of its own, of
at least the size asked for; freeing it releases that area; and the assertions of
`vma_merge` hold in `do_defrag`, which fails only where `slab_free` does. -/
structure Sized (E : Env σ) (μ : Ledger σ) : Prop where
  large : ∀ b ∈ μ.live, b.area ∈ μ.state.vmaList ∧ b.area.start = b.ptr ∧ b.bytes ≤ b.area.size
  distinct : μ.live.Pairwise fun b c => b.area.start ≠ c.area.start
  releases : ∀ b ∈ μ.live, ∀ s', vmfree E b.ptr μ.state = .ok s' →
    s'.vmaList = μ.state.vmaList.erase b.area ∧ s'.defragQueue = μ.state.defragQueue ++ [b.area] ∧
      s'.vmaFreelist = μ.state.vmaFreelist
  asserts : ∀ f, doDefrag E μ.state = .error f → ∃ p m, E.slabFree p m = .error f

theorem sound_trivial (E : Env σ) : Sound E fun _ _ _ => True :=
  ⟨by simp, by simp, by simp, by simp⟩

/-- The sizes asked for, and the areas that belong to the live pointers. -/
structure Recorded (μ : Ledger σ) : Prop where
  inv : Inv (fun _ _ _ => True) μ.state (μ.live.map fun b => (b.ptr, b.bytes))
  area : ∀ b ∈ μ.live, b.area ∈ μ.state.vmaList ∧ b.area.start = b.ptr
  bytes : ∀ b ∈ μ.live, b.bytes ≤ 0xFFFFF000

variable {μ μ' : Ledger σ} {s s' : State σ} {e : Event}

theorem Inv.perm {J : σ → Multiset ℕ → Multiset (ℕ × ℕ) → Prop} {live live' : List (ℕ × ℕ)}
    (h : Inv J s live) (hperm : live.Perm live') : Inv J s live' :=
  ⟨⟨h.space.toTiled, h.space.live.trans (hperm.map _)⟩, h.rest⟩

theorem Tiled.starts_nodup (h : Tiled s) : (s.vmaList.map Area.start).Nodup := by
  rw [nodup_iff_pairwise_ne, pairwise_map]
  have hused : s.vmaList.Pairwise fun a b => Apart a.start a.size b.start b.size :=
    (pairwise_append.mp (pairwise_append.mp h.apart).1).2.1
  refine hused.imp_of_mem fun {a b} ha hb hapart heq => ?_
  have hposa := (h.ok a (by simp [areas, ha])).pos
  have hposb := (h.ok b (by simp [areas, hb])).pos
  rw [Apart] at hapart
  omega

theorem vmaList_findSpace {pages : ℕ} {vma : Area} (hcall : findSpace E pages s = .ok (vma, s')) :
    s'.vmaList = s.vmaList ++ [vma] := by
  obtain ⟨pre, fit, post, -, ⟨-, self, m, -, -, rfl⟩ | ⟨-, -, rfl⟩⟩ := findSpace_eq_ok rfl hcall
  · rfl
  · rfl

theorem vmaList_doDefrag (hcall : doDefrag E s = .ok s') : s'.vmaList = s.vmaList := by
  simp only [doDefrag, bind_eq_ok] at hcall
  obtain ⟨l, -, hcall⟩ := hcall
  cases l with
  | nil =>
    simp only [pure, Except.pure, Except.ok.injEq] at hcall
    rw [← hcall]
  | cons a after =>
    simp only [bind_eq_ok, Prod.exists, pure, Except.pure, Except.ok.injEq] at hcall
    obtain ⟨l', m, -, rfl⟩ := hcall
    rfl

namespace Recorded

theorem starts_nodup (h : Recorded μ) : (μ.live.map fun b => b.area.start).Nodup := by
  have hptr : (μ.live.map fun b => b.area.start) = μ.live.map Block.ptr :=
    map_congr_left fun b hb => (h.area b hb).2
  have hperm := h.inv.space.live.map Prod.fst
  simp only [map_map] at hperm
  rw [hptr]
  exact (hperm.nodup_iff).mp h.inv.space.starts_nodup

theorem vmfree_eq (h : Recorded μ) {b : Block} (hb : b ∈ μ.live)
    (hcall : vmfree E b.ptr μ.state = .ok s') :
    s'.vmaList = μ.state.vmaList.erase b.area ∧ s'.defragQueue = μ.state.defragQueue ++ [b.area] ∧
      s'.vmaFreelist = μ.state.vmaFreelist := by
  obtain ⟨hmem, hstart⟩ := h.area b hb
  obtain ⟨pre, a, post, m, hlist, ha, hbefore, -, rfl, -⟩ := vmfree_eq_ok hcall
  -- there is only one area that starts there
  obtain rfl : a = b.area := h.inv.space.eq_of_start (by simp [areas, hlist])
    (by simp [areas, hmem]) (ha.trans hstart.symm)
  refine ⟨?_, rfl, rfl⟩
  rw [hlist, erase_append_right _ fun hpre => hbefore _ hpre ha, erase_cons_head]

theorem sized (h : Recorded μ) : Sized E μ := by
  refine ⟨fun b hb => ?_, ?_, fun b hb s' hcall => h.vmfree_eq hb hcall, fun f hfault => ?_⟩
  · obtain ⟨hmem, hstart⟩ := h.area b hb
    obtain ⟨a, ha, hstart', hsize⟩ := exists_area h.inv.space
      (mem_map.mpr ⟨b, hb, rfl⟩)
    obtain rfl : b.area = a := h.inv.space.eq_of_start (by simp [areas, hmem])
      (by simp [areas, ha]) (hstart.trans hstart'.symm)
    have hbytes := h.bytes b hb
    obtain ⟨-, hle, -⟩ := pageRoundUp_spec (x := b.bytes) (by simp only [pageSize]; omega)
    exact ⟨hmem, hstart, hsize ▸ hle⟩
  · have hnd := h.starts_nodup
    rwa [nodup_iff_pairwise_ne, pairwise_map] at hnd
  · have hret := doDefrag_inv (sound_trivial E) h.inv
    rw [hfault] at hret
    exact hret

theorem step (h : Recorded μ) (hreg : Regular e) (hstep : AnyStep E μ e μ') : Recorded μ' := by
  have hE := sound_trivial E
  cases hstep with
  | @vmalloc s s' live bytes p a _ hcall hnew =>
    obtain ⟨hlo, hhi⟩ := hreg
    have hinv := vmalloc_inv hE h.inv hlo hhi hcall
    -- the new area is the last one of `vma_list`
    obtain ⟨vma, hlist, hp⟩ : ∃ vma, s'.vmaList = s.vmaList ++ [vma] ∧ vma.start = p := by
      obtain ⟨vma, s1, m, hfind, -, rfl, rfl⟩ := vmalloc_eq_ok hcall
      have hlist : s1.vmaList = s.vmaList ++ [vma] := vmaList_findSpace hfind
      exact ⟨vma, hlist, rfl⟩
    obtain rfl : vma = a := by simpa [hlist] using hnew
    refine ⟨hinv, fun b hb => ?_, fun b hb => ?_⟩
    · rcases mem_cons.mp hb with rfl | hb
      · exact ⟨by simp [hlist], hp⟩
      · exact ⟨by simp [hlist, (h.area b hb).1], (h.area b hb).2⟩
    · rcases mem_cons.mp hb with rfl | hb
      · exact hhi
      · exact h.bytes b hb
  | @vmfree s s' live b hlive hcall =>
    have hsub : ∀ c ∈ live.erase b, c ∈ live := fun c hc => mem_of_mem_erase hc
    have hinv : Inv (fun _ _ _ => True) s' ((live.erase b).map fun b => (b.ptr, b.bytes)) := by
      have hb : (b.ptr, b.bytes) ∈ live.map fun b => (b.ptr, b.bytes) :=
        mem_map.mpr ⟨b, hlive, rfl⟩
      refine (vmfree_inv hE h.inv hb hcall).perm ?_
      have hperm := (perm_cons_erase hlive).map fun b : Block => (b.ptr, b.bytes)
      exact ((perm_cons_erase hb).symm.trans hperm).cons_inv
    refine ⟨hinv, fun c hc => ⟨?_, (h.area c (hsub c hc)).2⟩, fun c hc => h.bytes c (hsub c hc)⟩
    -- the other live areas start elsewhere and stay on the list
    have hnd := h.starts_nodup
    have hne : c.area ≠ b.area := by
      rw [((perm_cons_erase hlive).map fun b => b.area.start).nodup_iff, map_cons,
        nodup_cons] at hnd
      intro heq
      exact hnd.1 (heq ▸ mem_map.mpr ⟨c, hc, rfl⟩)
    rw [(h.vmfree_eq hlive hcall).1]
    exact (mem_erase_of_ne hne).mpr (h.area c (hsub c hc)).1
  | @defrag s s' live hcall =>
    have hret := doDefrag_inv hE h.inv
    rw [hcall] at hret
    refine ⟨hret, fun b hb => ?_, h.bytes⟩
    rw [vmaList_doDefrag hcall]
    exact h.area b hb

end Recorded

/-- **Requests of any size**: in every run whose requests all take at least one page after rounding,
every live pointer has an area of its own that is large enough, `vmfree` releases it, and
`do_defrag` fails no assertion. -/
theorem sized_of_run {m : σ} (hinit : vmaInit E m = .ok s) {es : List Event}
    (hrun : Run (AnyStep E) ⟨s, []⟩ es μ)
    (hreg : Guarded (AnyStep E) (fun _ e => Regular e) ⟨s, []⟩ es) : Sized E μ := by
  have hstart : Recorded (⟨s, []⟩) :=
    ⟨vmaInit_inv (sound_trivial E) trivial hinit, by simp, by simp⟩
  exact Recorded.sized
    (hrun.invariant_of_guarded hstart (fun _ _ _ h hok hstep => h.step hok hstep) hreg)

/-- The allocator after `vma_init`, over consecutive structures. -/
def bumpStart : State ℕ := ⟨[⟨0xD0010000, 0xC0100000, 0xFEFF000⟩], [], [], 0xD0010010⟩

theorem bumpStart_eq : vmaInit bump 0xD0010000 = .ok bumpStart := rfl

theorem sized_of_run_bump : ∃ μ : Ledger ℕ,
    Run (AnyStep bump) ⟨bumpStart, []⟩ [.vmalloc 5000, .vmalloc 1, .vmfree 0xC0100000] μ ∧
      Sized bump μ := by
  have hrun : Run (AnyStep bump) ⟨bumpStart, []⟩ [.vmalloc 5000, .vmalloc 1, .vmfree 0xC0100000]
      ⟨⟨[⟨0xD0010000, 0xC0103000, 0xFEFC000⟩], [⟨0xD0010020, 0xC0102000, 4096⟩],
        [⟨0xD0010010, 0xC0100000, 8192⟩], 0xD0010030⟩,
        [⟨0xC0102000, 1, ⟨0xD0010020, 0xC0102000, 4096⟩⟩]⟩ := by
    refine .snoc (.snoc (.snoc .nil (.vmalloc (by decide) rfl rfl)) (.vmalloc (by decide) rfl rfl))
      (.vmfree (.tail _ (.head _)) rfl)
  refine ⟨_, hrun, sized_of_run bumpStart_eq hrun ?_⟩
  have hall : ∀ e ∈ [Event.vmalloc 5000, .vmalloc 1, .vmfree 0xC0100000], Regular e := by
    simp [Regular]
  exact fun p e _ hp _ => hall e (hp.subset (by simp))

/-- **Empty requests.**  A request for no bytes and one for 5000 get areas with the same start, and
`vmfree` of the second pointer releases the area of the first.  After the empty area is freed,
`do_defrag` fails its assertion.  A request for `0xFFFFF001` bytes gets an empty area too. -/
theorem empty_area :
    (∃ μ : Ledger ℕ, Run (AnyStep bump) ⟨bumpStart, []⟩ [.vmalloc 0, .vmalloc 5000] μ ∧
      μ.live = [⟨0xC0100000, 5000, ⟨0xD0010020, 0xC0100000, 8192⟩⟩,
        ⟨0xC0100000, 0, ⟨0xD0010010, 0xC0100000, 0⟩⟩] ∧
      (vmfree bump 0xC0100000 μ.state).map (·.defragQueue) =
        .ok [⟨0xD0010010, 0xC0100000, 0⟩]) ∧
    (∃ μ : Ledger ℕ, Run (AnyStep bump) ⟨bumpStart, []⟩ [.vmalloc 0, .vmfree 0xC0100000] μ ∧
      doDefrag bump μ.state = .error .assertion) ∧
    ∃ μ : Ledger ℕ, Run (AnyStep bump) ⟨bumpStart, []⟩ [.vmalloc 0xFFFFF001] μ ∧
      μ.live = [⟨0xC0100000, 0xFFFFF001, ⟨0xD0010010, 0xC0100000, 0⟩⟩] := by
  refine ⟨⟨_, .snoc (.snoc .nil (.vmalloc (by decide) rfl rfl)) (.vmalloc (by decide) rfl rfl),
    rfl, rfl⟩, ⟨_, .snoc (.snoc .nil (.vmalloc (by decide) rfl rfl)) (.vmfree
      (mem_singleton.mpr rfl) rfl), rfl⟩,
    ⟨_, .snoc .nil (.vmalloc (by decide) rfl rfl), rfl⟩⟩

/-! ### Free areas with gaps between them -/

variable {a b node : Area} {l l' pre post before after : List Area} {m m' : σ}

theorem Area.Within.ok (h : a.Within) (hpos : a.size ≠ 0) : a.Ok :=
  ⟨h.start_aligned, h.size_aligned, Nat.pos_of_ne_zero hpos, h.lo, h.hi⟩

theorem before_of_gap (h : Gap a b) : Before a b := Nat.le_of_lt h

theorem insertAll_sorted {queue : List Area} (hl : l.Pairwise Before) (hin : ∀ a ∈ l, a.Within)
    (hq : ∀ a ∈ queue, a.Within)
    (hcall : queue.foldlM (fun list a => vIlistInsert a list) l = .ok l') :
    l'.Perm (l ++ queue) ∧ l'.Pairwise Before := by
  induction queue generalizing l with
  | nil =>
    cases hcall
    exact ⟨by simp, hl⟩
  | cons node queue ih =>
    rw [foldlM_cons, bind_eq_ok] at hcall
    obtain ⟨l1, hfirst, hrest⟩ := hcall
    have hnode : node.Within := hq node (by simp)
    obtain ⟨hperm, hsorted⟩ := vIlistInsert_sorted hnode hl hin hfirst
    have hin1 : ∀ c ∈ l1, c.Within := by
      intro c hc
      rcases mem_cons.mp (hperm.mem_iff.mp hc) with rfl | hc
      · exact hnode
      · exact hin c hc
    obtain ⟨hperm', hsorted'⟩ := ih hsorted hin1 (fun c hc => hq c (by simp [hc])) hrest
    refine ⟨hperm'.trans ?_, hsorted'⟩
    exact (hperm.append_right queue).trans perm_middle.symm

theorem size_ne_zero_of_vmaMerge {r : Option Area} (h : vmaMerge a b = .ok r) :
    a.size ≠ 0 ∧ b.size ≠ 0 := by
  rw [vmaMerge, bind_eq_ok] at h
  obtain ⟨_, hassert, -⟩ := h
  simp only [assertInvariants] at hassert
  split at hassert
  · rename_i hall
    exact ⟨hall.1, hall.2.1⟩
  · cases hassert

theorem size_ne_zero_of_mergeInto {r : Option (List Area)} (h : mergeInto a before = .ok r)
    (hne : before ≠ []) : a.size ≠ 0 := by
  obtain ⟨b, l, rfl⟩ := exists_cons_of_ne_nil hne
  rw [mergeInto, bind_eq_ok] at h
  obtain ⟨x, hmerge, -⟩ := h
  exact (size_ne_zero_of_vmaMerge hmerge).1

theorem mergeInto_ne_nil (h : mergeInto a before = .ok (some l)) : before ≠ [] ∧ l ≠ [] := by
  cases before with
  | nil => cases h
  | cons b rest =>
    rw [mergeInto, bind_eq_ok] at h
    obtain ⟨x, -, h⟩ := h
    cases x with
    | none => cases h
    | some b' =>
      cases h
      exact ⟨cons_ne_nil _ _, cons_ne_nil _ _⟩

/-- The second loop of `do_defrag` returns only if no area it comes to is empty,
unless there is just one. -/
theorem size_ne_zero_of_mergeLoop {r : List Area × σ} (h : mergeLoop E before a after m = .ok r)
    (hne : before ≠ [] ∨ after ≠ []) : a.size ≠ 0 ∧ ∀ b ∈ after, b.size ≠ 0 := by
  induction after generalizing before a m with
  | nil =>
    rw [mergeLoop, bind_eq_ok] at h
    obtain ⟨x, hmerge, -⟩ := h
    exact ⟨size_ne_zero_of_mergeInto hmerge (by simpa using hne), by simp⟩
  | cons b after ih =>
    rw [mergeLoop, bind_eq_ok] at h
    obtain ⟨x, hmerge, h⟩ := h
    cases x with
    | some before' =>
      -- merged into the area before, which is then before `b`
      simp only [bind_eq_ok] at h
      obtain ⟨m1, -, h⟩ := h
      obtain ⟨hbefore, hbefore'⟩ := mergeInto_ne_nil hmerge
      obtain ⟨hb, hafter⟩ := ih h (.inl hbefore')
      exact ⟨size_ne_zero_of_mergeInto hmerge hbefore, by simpa using ⟨hb, hafter⟩⟩
    | none =>
      simp only [bind_eq_ok] at h
      obtain ⟨y, hmerge', h⟩ := h
      obtain ⟨ha, hb⟩ := size_ne_zero_of_vmaMerge hmerge'
      have hafter : ∀ c ∈ after, c.size ≠ 0 := by
        cases y with
        | none => exact (ih h (.inl (cons_ne_nil _ _))).2
        | some b' =>
          simp only [bind_eq_ok] at h
          obtain ⟨m1, -, h⟩ := h
          by_cases hrest : after = []
          · simp [hrest]
          · exact (ih h (.inr hrest)).2
      exact ⟨ha, by simpa using ⟨hb, hafter⟩⟩

/-- **The free areas of any run**: the areas cover the range, and there are gaps
between those on the free list. -/
structure Roomy (s : State σ) : Prop where
  cover : addrs (areas s) = span vmaStart (vmaEnd - vmaStart)
  within : ∀ a ∈ areas s, a.Within
  gaps : s.vmaFreelist.Pairwise Gap

theorem roomy_doDefrag (h : Roomy s) (hcall : doDefrag E s = .ok s') : Roomy s' := by
  simp only [doDefrag, bind_eq_ok] at hcall
  obtain ⟨l, hinsert, hcall⟩ := hcall
  obtain ⟨hperm, hsorted⟩ := insertAll_sorted (h.gaps.imp before_of_gap)
    (fun a ha => h.within a (by simp [areas, ha])) (fun a ha => h.within a (by simp [areas, ha]))
    hinsert
  have hall : (l ++ s.vmaList).Perm (areas s) := (hperm.append_right _).trans (perm_areas s)
  have hwithin : ∀ a ∈ l, a.Within := fun a ha =>
    h.within a (hall.mem_iff.mp (by simp [ha]))
  -- what is left to show of the list that the second loop returns
  have hdone : ∀ {l' : List Area}, addrs l' = addrs l → (∀ a ∈ l', a.Within) → l'.Pairwise Gap →
      ∀ m : σ, Roomy { s with vmaFreelist := l', defragQueue := [], rest := m } := by
    intro l' haddrs hin hgap m
    refine ⟨?_, fun a ha => ?_, hgap⟩
    · rw [← h.cover, ← addrs_perm hall]
      simp [areas, haddrs]
    · rw [areas, append_nil, mem_append] at ha
      rcases ha with ha | ha
      · exact hin a ha
      · exact h.within a (by simp [areas, ha])
  cases l with
  | nil =>
    cases hcall
    exact hdone rfl (by simp) List.Pairwise.nil s.rest
  | cons a after =>
    simp only [bind_eq_ok, Prod.exists, pure, Except.pure, Except.ok.injEq] at hcall
    obtain ⟨l', m', hloop, rfl⟩ := hcall
    by_cases hafter : after = []
    · -- a single area has no neighbours and may be empty
      subst hafter
      obtain ⟨rfl, rfl⟩ := hloop
      exact hdone rfl hwithin (pairwise_singleton _ _) s.rest
    · obtain ⟨ha, hne⟩ := size_ne_zero_of_mergeLoop hloop (.inr hafter)
      have hsort : Sorted (List.reverse [] ++ a :: after) := by
        refine ⟨hsorted, fun c hc => (hwithin c hc).ok ?_⟩
        rcases mem_cons.mp hc with rfl | hc
        · exact ha
        · exact hne c hc
      have hspec := mergeLoop_spec (E := E) (m := s.rest) (S := 0)
        (fun _ _ => trivial) hsort List.Pairwise.nil trivial
      rw [hloop] at hspec
      exact hdone hspec.2.1 (fun c hc => (hspec.1.ok c hc).within) hspec.2.2.1 m'

theorem roomy_findSpace (h : Roomy s) {pages : ℕ} {vma : Area}
    (hcall : findSpace E pages s = .ok (vma, s')) : Roomy s' := by
  have hmod : pages * pageSize % 2 ^ 32 % pageSize = 0 := by
    simp only [pageSize]
    omega
  generalize hbytes : pages * pageSize % 2 ^ 32 = n at hmod
  obtain ⟨pre, fit, post, hfit, hresult⟩ := findSpace_eq_ok hbytes hcall
  obtain ⟨hlist, hsize⟩ := findFit_spec hfit
  have hwithin := h.within fit (by simp [areas, hlist])
  have hsplit := areas_split hlist
  rcases hresult with ⟨hlarge, self, m', -, rfl, rfl⟩ | ⟨-, rfl, rfl⟩
  · -- the first `n` bytes of the area are cut off; there may be none of them
    have hhi := hwithin.hi
    have hlo := hwithin.lo
    have hstart := hwithin.start_aligned
    have haligned := hwithin.size_aligned
    rw [vmaEnd_eq] at hhi
    rw [add32_eq (by omega), sub32_eq (by omega) hsize]
    obtain ⟨haddrs, -, hmem⟩ := areas_cut hlist hlarge.le self m' rfl
    refine ⟨haddrs.trans h.cover, fun c hc => ?_, ?_⟩
    · simp only [pageSize] at hmod hstart haligned
      rcases hmem c hc with rfl | rfl | hc
      · refine ⟨hwithin.start_aligned, hmod, hlo, ?_⟩
        rw [vmaEnd_eq]
        simp only
        omega
      · refine ⟨?_, ?_, hlo.trans (Nat.le_add_right _ _), ?_⟩
        · simp only [pageSize]
          omega
        · simp only [pageSize]
          omega
        · rw [vmaEnd_eq]
          simp only
          omega
      · exact h.within c hc
    · refine pairwise_replace (hlist ▸ h.gaps) (fun c hc => ?_) fun c hc => ?_
      · simp only [Gap] at hc ⊢
        omega
      · simp only [Gap] at hc ⊢
        omega
  · -- the area has the right size and is moved as it is
    have hperm : (areas (⟨pre ++ post, s.vmaList ++ [vma], s.defragQueue, s.rest⟩)).Perm
        (areas s) := areas_perm_concat.trans hsplit.symm
    refine ⟨(addrs_perm hperm).trans h.cover, fun c hc => h.within c (hperm.mem_iff.mp hc), ?_⟩
    exact (hlist ▸ h.gaps).sublist ((sublist_cons_self vma post).append_left pre)

theorem roomy_vmfree (h : Roomy s) {p : ℕ} (hcall : vmfree E p s = .ok s') : Roomy s' := by
  obtain ⟨pre, a, post, m, -, -, -, -, rfl, hperm⟩ := vmfree_eq_ok hcall
  exact ⟨(addrs_perm hperm).trans h.cover, fun c hc => h.within c (hperm.mem_iff.mp hc), h.gaps⟩

theorem roomy_step (h : Roomy μ.state) (hstep : AnyStep E μ e μ') : Roomy μ'.state := by
  cases hstep with
  | vmalloc _ hcall _ =>
    obtain ⟨vma, s1, m, hfind, -, -, rfl⟩ := vmalloc_eq_ok hcall
    have hroomy := roomy_findSpace h hfind
    exact ⟨hroomy.cover, hroomy.within, hroomy.gaps⟩
  | vmfree _ hcall => exact roomy_vmfree h hcall
  | defrag hcall => exact roomy_doDefrag h hcall

theorem roomy_of_run (hinit : vmaInit E m = .ok s) {es : List Event}
    (hrun : Run (AnyStep E) ⟨s, []⟩ es μ) : Roomy μ.state := by
  have hinv := vmaInit_inv (sound_trivial E) trivial hinit
  have hstart : Roomy s := by
    refine ⟨hinv.space.cover, fun a ha => (hinv.space.ok a ha).within, ?_⟩
    simp only [vmaInit, bind_eq_ok, Prod.exists] at hinit
    obtain ⟨self, m', -, hinit⟩ := hinit
    split at hinit
    · cases hinit
    · cases hinit
      exact pairwise_singleton _ _
  exact hrun.invariant (I := fun μ => Roomy μ.state) hstart fun _ _ _ h hstep => roomy_step h hstep

/-! ### Holes -/

/-- `n` addresses of the range from `x` on, none of them in an area of the list. -/
structure Hole (l : List Area) (x n : ℕ) : Prop where
  lo : vmaStart ≤ x
  hi : x + n ≤ vmaEnd
  free : ∀ y, x ≤ y → y < x + n → ∀ a ∈ l, ¬ (a.start ≤ y ∧ y < a.start + a.size)

theorem exists_area_of_covered (hgap : l.Pairwise Gap) {x n : ℕ} (hn : 0 < n)
    (hcover : ∀ y, x ≤ y → y < x + n → ∃ a ∈ l, a.start ≤ y ∧ y < a.start + a.size) :
    ∃ a ∈ l, n ≤ a.size := by
  obtain ⟨a, ha, hlo, hhi⟩ := hcover x (Nat.le_refl x) (by omega)
  refine ⟨a, ha, ?_⟩
  by_contra hsmall
  -- the first address behind `a` lies in another area, which touches `a`
  obtain ⟨b, hb, hlo', hhi'⟩ := hcover (a.start + a.size) (by omega) (by omega)
  have hne : a ≠ b := by
    rintro rfl
    omega
  have hsymm : Std.Symm fun a b : Area => Gap a b ∨ Gap b a := ⟨fun _ _ h => h.symm⟩
  rcases (hgap.imp fun h => Or.inl h : l.Pairwise fun a b => Gap a b ∨ Gap b a).forall ha hb hne
    with h | h
  · rw [Gap] at h
    omega
  · rw [Gap] at h
    omega

/-- **Room**: in every run, a request for at least one page does not run out of address space as
long as the range has a hole for it outside the areas that are handed out and those that have
been freed since the last `do_defrag`; it fails only where `slab_alloc` or `vm_map` does. -/
theorem vmalloc_of_hole (hinit : vmaInit E m = .ok s) {es : List Event}
    (hrun : Run (AnyStep E) ⟨s, []⟩ es μ) {bytes n x : ℕ}
    (hpages : pageRoundUp bytes = n * pageSize) (hn : 1 ≤ n)
    (hhole : Hole (μ.state.vmaList ++ μ.state.defragQueue) x (n * pageSize)) (f : Fault)
    (hfail : vmalloc E bytes μ.state = .error f) :
    (∃ m, E.slabAlloc sizeofVma m = .error f) ∨
      ∃ start size m, E.vmMap start size m = .error f := by
  have h := roomy_of_run hinit hrun
  have hpos : 0 < n * pageSize := Nat.mul_pos hn (by decide)
  have hlt : n * pageSize < 2 ^ 32 := by
    rw [← hpages, pageRoundUp, pageRoundDn, pageSize]
    omega
  -- every address of the hole is in a free area
  obtain ⟨a, ha, hsize⟩ := exists_area_of_covered (x := x) h.gaps hpos fun y hlo hhi => by
    have hy : y ∈ addrs (areas μ.state) := by
      have hbounds := hhole.lo
      have hbounds' := hhole.hi
      rw [h.cover, mem_span]
      omega
    obtain ⟨a, ha, hin⟩ := mem_cover.mp hy
    rw [areas, append_assoc, mem_append] at ha
    rcases ha with ha | ha
    · exact ⟨a, ha, hin⟩
    · exact absurd hin (hhole.free y hlo hhi a ha)
  have hfit : findFit (n * pageSize) [] none μ.state.vmaFreelist ≠ none := by
    intro hnone
    have hbest := best_findFit (n * pageSize) μ.state.vmaFreelist
    rw [hnone] at hbest
    exact absurd (hbest a ha) (not_lt.mpr hsize)
  rw [vmalloc, hpages, Nat.mul_div_cancel n (by decide), findSpace,
    Nat.mod_eq_of_lt hlt] at hfail
  obtain ⟨⟨pre, fit, post⟩, hfound⟩ := Option.ne_none_iff_exists'.mp hfit
  simp only [hfound] at hfail
  split at hfail
  · rw [vmaSplit] at hfail
    cases hslab : E.slabAlloc sizeofVma μ.state.rest with
    | error g =>
      simp only [hslab, bind, Except.bind, Except.error.injEq] at hfail
      exact .inl ⟨_, hfail ▸ hslab⟩
    | ok r =>
      simp only [hslab, bind, Except.bind, pure, Except.pure] at hfail
      split at hfail
      · rename_i g hmap
        cases hfail
        exact .inr ⟨_, _, _, hmap⟩
      · cases hfail
  · simp only [bind, Except.bind, pure, Except.pure] at hfail
    split at hfail
    · rename_i g hmap
      cases hfail
      exact .inr ⟨_, _, _, hmap⟩
    · cases hfail

theorem vmalloc_of_hole_bump : ∃ μ : Ledger ℕ,
    Run (AnyStep bump) ⟨bumpStart, []⟩ [.vmalloc 5000, .vmalloc 1, .vmfree 0xC0100000, .defrag] μ ∧
      ∀ f, vmalloc bump 8192 μ.state = .error f →
        (∃ m, bump.slabAlloc sizeofVma m = .error f) ∨
          ∃ start size m, bump.vmMap start size m = .error f := by
  have hrun : Run (AnyStep bump) ⟨bumpStart, []⟩
      [.vmalloc 5000, .vmalloc 1, .vmfree 0xC0100000, .defrag]
      ⟨⟨[⟨0xD0010010, 0xC0100000, 8192⟩, ⟨0xD0010000, 0xC0103000, 0xFEFC000⟩],
        [⟨0xD0010020, 0xC0102000, 4096⟩], [], 0xD0010030⟩,
        [⟨0xC0102000, 1, ⟨0xD0010020, 0xC0102000, 4096⟩⟩]⟩ := by
    refine .snoc (.snoc (.snoc (.snoc .nil (.vmalloc (by decide) rfl rfl))
      (.vmalloc (by decide) rfl rfl))
      (.vmfree (.tail _ (.head _)) rfl))
      (.defrag rfl)
  have hhole : Hole [⟨0xD0010020, 0xC0102000, 4096⟩] 0xC0100000 (2 * pageSize) := by
    refine ⟨by decide, by decide, fun y hlo hhi a ha => ?_⟩
    obtain rfl := mem_singleton.mp ha
    simp only [pageSize] at hhi
    simp only
    omega
  exact ⟨_, hrun, vmalloc_of_hole bumpStart_eq hrun (by decide) (by decide) hhole⟩

/-- **Freed space that is not looked at.**  The whole range is handed out and freed
again; nothing is handed out any more, and a request for one page still panics. -/
theorem queued_hole_panics : ∃ μ : Ledger ℕ,
    Run (AnyStep bump) ⟨bumpStart, []⟩ [.vmalloc 0xFEFF000, .vmfree 0xC0100000] μ ∧
      Hole μ.state.vmaList vmaStart (vmaEnd - vmaStart) ∧
      vmalloc bump 4096 μ.state = .error .panic := by
  have hhole : Hole [] vmaStart (vmaEnd - vmaStart) := by
    refine ⟨Nat.le_refl _, by decide, fun y _ _ a ha => ?_⟩
    simp at ha
  exact ⟨_, .snoc (.snoc .nil (.vmalloc (by decide) rfl rfl))
    (.vmfree (mem_singleton.mpr rfl) rfl), hhole, rfl⟩

/-- **Recovery**: in every run, when no area is handed out or queued, the free list is one
area, the whole range. -/
theorem freelist_recovers (hinit : vmaInit E m = .ok s) {es : List Event}
    (hrun : Run (AnyStep E) ⟨s, []⟩ es μ) (hlist : μ.state.vmaList = [])
    (hqueue : μ.state.defragQueue = []) :
    ∃ self, μ.state.vmaFreelist = [⟨self, vmaStart, vmaEnd - vmaStart⟩] := by
  obtain ⟨hcover, hin, hgaps⟩ := roomy_of_run hinit hrun
  rw [areas, hlist, hqueue, append_nil, append_nil] at hcover hin
  obtain ⟨⟨self, start, size⟩, ha, hsize⟩ := exists_area_of_covered (x := vmaStart) hgaps
    (show 0 < vmaEnd - vmaStart by decide)
    fun y hlo hhi => mem_cover.mp (show y ∈ addrs _ from hcover ▸ mem_span.mpr ⟨hlo, hhi⟩)
  obtain ⟨pre, post, hl⟩ := append_of_mem ha
  have hlo : vmaStart ≤ start := (hin _ ha).lo
  have hhi : start + size ≤ vmaEnd := (hin _ ha).hi
  dsimp only at hsize
  -- there is no room for a gap on either side
  rw [hl, pairwise_append, pairwise_cons] at hgaps
  obtain ⟨-, ⟨hpost, -⟩, hpre⟩ := hgaps
  obtain rfl : pre = [] := eq_nil_iff_forall_not_mem.mpr fun b hb => by
    have hgap : b.start + b.size < start := hpre b hb _ mem_cons_self
    have hblo := (hin b (by simp [hl, hb])).lo
    omega
  obtain rfl : post = [] := eq_nil_iff_forall_not_mem.mpr fun b hb => by
    have hgap : start + size < b.start := hpost b hb
    have hbhi := (hin b (by simp [hl, hb])).hi
    omega
  obtain ⟨rfl, rfl⟩ : start = vmaStart ∧ size = vmaEnd - vmaStart := by omega
  exact ⟨self, hl⟩

theorem freelist_recovers_bump : ∃ μ : Ledger ℕ,
    Run (AnyStep bump) ⟨bumpStart, []⟩ [.vmalloc 1, .vmfree 0xC0100000, .defrag] μ ∧
      ∃ self, μ.state.vmaFreelist = [⟨self, vmaStart, vmaEnd - vmaStart⟩] := by
  refine ⟨⟨⟨[⟨0xD0010000, 0xC0100000, 0xFEFF000⟩], [], [], 0xD0010020⟩, []⟩, ?run,
    freelist_recovers bumpStart_eq ?run rfl rfl⟩
  exact .snoc (.snoc (.snoc .nil (.vmalloc (by decide) rfl rfl)) (.vmfree (.head _) rfl))
    (.defrag rfl)

/-! ### One call on any lists -/

/-- **Defragmentation**: the queue gets empty, and the free list is sorted, covers the same
addresses, and no two areas of it touch.  The structures `freed`, each passed to `slab_free`
once, are those that are not on the list any more. -/
theorem do_defrag_coalesces (hl : Sorted s.vmaFreelist) (hq : ∀ a ∈ s.defragQueue, a.Ok)
    (hnd : (addrs (s.vmaFreelist ++ s.defragQueue)).Nodup) :
    Returns E (doDefrag E s) fun s' =>
      s'.defragQueue = [] ∧ s'.vmaList = s.vmaList ∧ Sorted s'.vmaFreelist ∧
        addrs s'.vmaFreelist = addrs (s.vmaFreelist ++ s.defragQueue) ∧
        s'.vmaFreelist.Pairwise Gap ∧
        ∃ freed : List ℕ, freed.foldlM (fun m p => E.slabFree p m) s.rest = .ok s'.rest ∧
          selfs (s.vmaFreelist ++ s.defragQueue) = selfs s'.vmaFreelist + freed := by
  have hdone := doDefrag_spec (E := E) (S := 0) (K := fun m S => ∃ freed : List ℕ,
    freed.foldlM (fun m p => E.slabFree p m) s.rest = .ok m ∧
      selfs (s.vmaFreelist ++ s.defragQueue) = S + freed) ?_ hl hq hnd ⟨[], rfl, by simp⟩
  · cases hcall : doDefrag E s with
    | error f =>
      rw [hcall] at hdone
      exact hdone
    | ok s' =>
      rw [hcall] at hdone
      obtain ⟨l, m, rfl, hsorted, haddrs, hgaps, hfreed⟩ := hdone
      rw [add_zero] at hfreed
      exact ⟨rfl, rfl, hsorted, haddrs, hgaps, hfreed⟩
  · rintro p m m' S hcall ⟨freed, hrun, hselfs⟩
    refine ⟨freed ++ [p], ?_, ?_⟩
    · rw [foldlM_append, hrun]
      exact (bind_pure _).trans hcall
    · have hperm : (p :: freed).Perm (freed ++ [p]) := (perm_append_singleton p freed).symm
      rw [hselfs, Multiset.cons_add, ← Multiset.add_cons, Multiset.cons_coe,
        Multiset.coe_eq_coe.mpr hperm]

/-- A free area, and an area that waits and starts where the free one ends. -/
def touching : State ℕ :=
  ⟨[⟨1, vmaStart, pageSize⟩], [], [⟨2, vmaStart + pageSize, pageSize⟩], 0⟩

theorem do_defrag_coalesces_touching : ∃ s' : State ℕ, doDefrag bump touching = .ok s' ∧
    s'.vmaFreelist = [⟨2, vmaStart, 2 * pageSize⟩] ∧ s'.vmaFreelist.Pairwise Gap := by
  have hfirst : Area.Ok ⟨1, vmaStart, pageSize⟩ :=
    ⟨by decide, by decide, by decide, by decide, by decide⟩
  have hsecond : Area.Ok ⟨2, vmaStart + pageSize, pageSize⟩ :=
    ⟨by decide, by decide, by decide, by decide, by decide⟩
  have hnd : (addrs (touching.vmaFreelist ++ touching.defragQueue)).Nodup := by
    simp only [touching, singleton_append, addrs, cover_cons, cover_nil, add_zero, ← span_add]
    exact nodup_span
  have hdone := do_defrag_coalesces (E := bump)
    ⟨pairwise_singleton _ _, by simpa [touching] using hfirst⟩
    (by simpa [touching] using hsecond) hnd
  have hcall : doDefrag bump touching = .ok ⟨[⟨2, vmaStart, 2 * pageSize⟩], [], [], 0⟩ := rfl
  exact ⟨_, hcall, rfl, hdone.2.2.2.2.1⟩

/-- **Best fit**: if no free area has the size asked for, `find_space` panics.  Otherwise
it takes its space from the first of the smallest areas that have it: the whole area, or
its first part, for which `slab_alloc` makes a structure. -/
theorem find_space_best_fit {pages n : ℕ} (hn : pages * pageSize = n) (hlt : n < 2 ^ 32)
    (hareas : ∀ a ∈ s.vmaFreelist, a.size < 2 ^ 32 ∧ a.start + a.size ≤ 2 ^ 32) :
    ((∀ a ∈ s.vmaFreelist, a.size < n) ∧ findSpace E pages s = .error .panic) ∨
      ∃ pre fit post, s.vmaFreelist = pre ++ fit :: post ∧ n ≤ fit.size ∧
        (∀ b ∈ s.vmaFreelist, n ≤ b.size → fit.size ≤ b.size) ∧
        (∀ b ∈ pre, n ≤ b.size → fit.size < b.size) ∧
        findSpace E pages s =
          if fit.size = n then
            .ok (fit, { s with vmaFreelist := pre ++ post, vmaList := s.vmaList ++ [fit] })
          else (E.slabAlloc sizeofVma s.rest).map fun new => (⟨new.1, fit.start, n⟩, { s with
            vmaFreelist := pre ++ ⟨fit.self, fit.start + n, fit.size - n⟩ :: post
            vmaList := s.vmaList ++ [⟨new.1, fit.start, n⟩], rest := new.2 }) := by
  have hn' : pages * pageSize % 2 ^ 32 = n := by rw [hn, Nat.mod_eq_of_lt hlt]
  have hbest := best_findFit n s.vmaFreelist
  cases hfit : findFit n [] none s.vmaFreelist with
  | none =>
    rw [hfit] at hbest
    exact .inl ⟨hbest, by simp only [findSpace, hn', hfit]⟩
  | some found =>
    obtain ⟨pre, fit, post⟩ := found
    rw [hfit] at hbest
    obtain ⟨⟨hlist, hsize⟩, hmin, hfirst⟩ := hbest
    simp only at hlist hsize
    obtain ⟨hsmall, hend⟩ := hareas fit (by simp [← hlist])
    refine .inr ⟨pre, fit, post, hlist.symm, hsize, hmin, hfirst, ?_⟩
    simp only [findSpace, hn', hfit]
    by_cases heq : fit.size = n
    · rw [if_pos heq, if_neg (by omega)]
    · have hstart : add32 fit.start n = fit.start + n := add32_eq (by omega)
      rw [if_neg heq, if_pos (by omega)]
      simp only [vmaSplit, hn', hstart, sub32_eq hsmall hsize]
      cases E.slabAlloc sizeofVma s.rest with
      | error f => rfl
      | ok new => rfl

/-- Free areas of 3, 2, 1 and 2 pages. -/
def fourAreas : State ℕ :=
  ⟨[⟨1, 0xC0100000, 0x3000⟩, ⟨2, 0xC0200000, 0x2000⟩, ⟨3, 0xC0300000, 0x1000⟩,
    ⟨4, 0xC0400000, 0x2000⟩], [], [], 0⟩

theorem find_space_best_fit_four : ∃ fit ∈ fourAreas.vmaFreelist, 0x2000 ≤ fit.size ∧
    ∀ b ∈ fourAreas.vmaFreelist, 0x2000 ≤ b.size → fit.size ≤ b.size := by
  rcases find_space_best_fit (E := bump) (s := fourAreas) (show 2 * pageSize = 0x2000 from rfl)
      (by decide) (by decide) with ⟨hsmall, -⟩ | ⟨pre, fit, post, hlist, hsize, hmin, -, -⟩
  · exact absurd (hsmall _ (mem_cons_self ..)) (by decide)
  · exact ⟨fit, by simp [hlist], hsize, hmin⟩

end Vma
