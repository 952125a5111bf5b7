/-
The virtual memory allocator (`mm/vma.c`).

The kernel's address range `[vma_start, vma_end)` is divided into areas, each
described by a `struct vma` on one of three lists: `vma_freelist` (free, by
address), `vma_list` (handed out by `vmalloc`) and `defrag_queue` (freed by
`vmfree`, waiting for `do_defrag`).  The structures come from the slab
allocator, and the areas handed out are backed by `vm_map`; those four
functions are a parameter here (`Env`), so that every result about the lists
holds whatever they do, and can be combined with what they do.

* `Partition` — the areas of the three lists partition the range;
* `Sound` — what the environment has to keep for an invariant `J` of its own;
* `vmalloc_inv`, `vmfree_inv`, `doDefrag_inv` — the calls keep both;
* `address_space_partition` — the invariant of every run.
-/
import Minima.Memory
import Minima.Runs
import Minima.Spans

namespace Vma

open List

/-! ### The functions of the source -/

/-- `struct vma`, at the address `self`; its linkage is its place in the list it
is on. -/
structure Area where
  self : ℕ
  start : ℕ
  size : ℕ
  deriving DecidableEq, Repr

/-- `sizeof(struct vma)` -/
def sizeofVma : ℕ := 16

/-- The functions of other files that `vma.c` calls, over their own state. -/
structure Env (σ : Type) where
  slabAlloc : ℕ → σ → Except Fault (ℕ × σ)
  slabFree : ℕ → σ → Except Fault σ
  vmMap : ℕ → ℕ → σ → Except Fault σ
  vmUnmap : ℕ → ℕ → σ → Except Fault σ

/-- The three lists, and the state of the other parts of the memory manager. -/
structure State (σ : Type) where
  vmaFreelist : List Area
  vmaList : List Area
  defragQueue : List Area
  rest : σ

/-- `vma_cmp`; `ret` stays unassigned when the areas overlap. -/
def vmaCmp (lhs rhs : Area) : Option ℤ :=
  let ret : Option ℤ := if add32 lhs.start lhs.size ≤ rhs.start then some (-1) else none
  let ret := if add32 lhs.start lhs.size = rhs.start then some 0 else ret
  if lhs.start ≥ add32 rhs.start rhs.size then some 1 else ret

/-- `v_ilist_insert(&node->linkage, list, vma_cmp)`: walk on while the
comparison gives the `1` it started with; the node goes in before the first
other result, or at the end. -/
def vIlistInsert (node : Area) : List Area → Except Fault (List Area)
  | [] => .ok [node]
  | pos :: list =>
    match vmaCmp node pos with
    | none => .error .unassigned
    | some res =>
      if res = 1 then (vIlistInsert node list).map (pos :: ·) else .ok (node :: pos :: list)

/-- `assert_invariants` -/
def assertInvariants (a b : Area) : Except Fault Unit :=
  let aE := add32 a.start a.size
  let bE := add32 b.start b.size
  if a.size ≠ 0 ∧ b.size ≠ 0 ∧ pageSize ≤ a.size ∧ pageSize ≤ b.size ∧
      ¬ (a.start ≥ b.start ∧ a.start < bE) ∧ ¬ (aE > b.start ∧ aE < bE) then .ok ()
  else .error .assertion

/-- `vma_merge`: the area `a` has been merged into, or `none`. -/
def vmaMerge (a into : Area) : Except Fault (Option Area) := do
  assertInvariants a into
  if add32 a.start a.size = into.start then
    return some { into with start := a.start, size := add32 into.size a.size }
  else if a.start = add32 into.start into.size then
    return some { into with size := add32 into.size a.size }
  else return none

/-- Merge `a` into its neighbour, the head of the list, if it has one. -/
def mergeInto (a : Area) : List Area → Except Fault (Option (List Area))
  | [] => .ok none
  | b :: l => do
    match ← vmaMerge a b with
    | some b => return some (b :: l)
    | none => return none

variable {σ : Type} (E : Env σ)

/-- The second loop of `do_defrag`, at area `a`, with the areas `before` it
(nearest first) and `after` it. -/
def mergeLoop : List Area → Area → List Area → σ → Except Fault (List Area × σ)
  | before, a, [], m => do
    match ← mergeInto a before with
    | some before =>
      let m ← E.slabFree a.self m
      return (before.reverse, m)
    | none => return ((a :: before).reverse, m)
  | before, a, b :: after, m => do
    match ← mergeInto a before with
    | some before =>
      let m ← E.slabFree a.self m
      mergeLoop before b after m
    | none =>
      match ← vmaMerge a b with
      | some b =>
        let m ← E.slabFree a.self m
        mergeLoop before b after m
      | none => mergeLoop (a :: before) b after m

/-- `do_defrag` -/
def doDefrag (s : State σ) : Except Fault (State σ) := do
  let freelist ← s.defragQueue.foldlM (fun list a => vIlistInsert a list) s.vmaFreelist
  match freelist with
  | [] => return { s with vmaFreelist := [], defragQueue := [] }
  | a :: after =>
    let (freelist, m) ← mergeLoop E [] a after s.rest
    return { s with vmaFreelist := freelist, defragQueue := [], rest := m }

/-- An area of a list, with what stands before and after it: what a pointer to
a linked area stands for. -/
abbrev Place := List Area × Area × List Area

/-- The two tests in the loop of `find_space`. -/
def betterFit (bytes : ℕ) (here : Place) : Option Place → Option Place
  | none => if here.2.1.size ≥ bytes then some here else none
  | some fit =>
    if here.2.1.size < fit.2.1.size ∧ here.2.1.size ≥ bytes then some here else some fit

/-- The loop of `find_space`; the areas `seen` have been looked at, `fit` is the
choice so far. -/
def findFit (bytes : ℕ) : List Area → Option Place → List Area → Option Place
  | _, fit, [] => fit
  | seen, fit, area :: list =>
    findFit bytes (seen ++ [area]) (betterFit bytes (seen, area, list) fit) list

/-- `vma_split`: the new area, and what is left of `from`. -/
def vmaSplit (src : Area) (pages : ℕ) (m : σ) : Except Fault (Area × Area × σ) := do
  let (self, m) ← E.slabAlloc sizeofVma m
  let bytes := pages * pageSize % 2 ^ 32
  return (⟨self, src.start, bytes⟩,
    { src with start := add32 src.start bytes, size := sub32 src.size bytes }, m)

/-- `find_space` -/
def findSpace (pages : ℕ) (s : State σ) : Except Fault (Area × State σ) :=
  let bytes := pages * pageSize % 2 ^ 32
  match findFit bytes [] none s.vmaFreelist with
  | none => .error .panic
  | some (pre, fit, post) =>
    if fit.size > bytes then do
      let (new, fit, m) ← vmaSplit E fit pages s.rest
      return (new, { s with
        vmaFreelist := pre ++ fit :: post, vmaList := s.vmaList ++ [new], rest := m })
    else
      .ok (fit, { s with vmaFreelist := pre ++ post, vmaList := s.vmaList ++ [fit] })

/-- `vmalloc` -/
def vmalloc (bytes : ℕ) (s : State σ) : Except Fault (ℕ × State σ) := do
  let pages := pageRoundUp bytes / pageSize
  let (vma, s) ← findSpace E pages s
  let m ← E.vmMap vma.start vma.size s.rest
  return (vma.start, { s with rest := m })

/-- `vmfree` -/
def vmfree (ptr : ℕ) (s : State σ) : Except Fault (State σ) :=
  match splitFirst (fun area => area.start = ptr) s.vmaList with
  | none => .error .panic
  | some (pre, a, post) => do
    let m ← E.vmUnmap a.start a.size s.rest
    return { s with vmaList := pre ++ post, defragQueue := s.defragQueue ++ [a], rest := m }

/-- `vma_start` of `vma_init` -/
def vmaStart : ℕ := pageRoundUp (virtOffset + 1024 * 1024)

/-- `vma_end` of `vma_init` -/
def vmaEnd : ℕ := pageRoundDn (pfaVirtOffset - pageSize)

/-- `vma_init` -/
def vmaInit (m : σ) : Except Fault (State σ) := do
  let (self, m) ← E.slabAlloc sizeofVma m
  if self = 0 then .error .assertion
  else return ⟨[⟨self, vmaStart, vmaEnd - vmaStart⟩], [], [], m⟩

/-! ### Sorted lists of areas -/

theorem vmaStart_eq : vmaStart = 0xC0100000 := by decide

theorem vmaEnd_eq : vmaEnd = 0xCFFFF000 := by decide

/-- A non-empty area of whole pages inside the range. -/
structure Area.Ok (a : Area) : Prop where
  start_aligned : a.start % pageSize = 0
  size_aligned : a.size % pageSize = 0
  pos : 0 < a.size
  lo : vmaStart ≤ a.start
  hi : a.start + a.size ≤ vmaEnd

/-- An area of whole pages inside the range, possibly empty. -/
structure Area.Within (a : Area) : Prop where
  start_aligned : a.start % pageSize = 0
  size_aligned : a.size % pageSize = 0
  lo : vmaStart ≤ a.start
  hi : a.start + a.size ≤ vmaEnd

theorem Area.Within.add32_eq {a : Area} (h : a.Within) :
    add32 a.start a.size = a.start + a.size := by
  have hhi := h.hi
  rw [vmaEnd_eq] at hhi
  exact Nat.mod_eq_of_lt (by omega)

theorem Area.Ok.within {a : Area} (h : a.Ok) : a.Within :=
  ⟨h.start_aligned, h.size_aligned, h.lo, h.hi⟩

theorem Area.Ok.add32_eq {a : Area} (h : a.Ok) : add32 a.start a.size = a.start + a.size :=
  h.within.add32_eq

theorem Area.Ok.pageSize_le {a : Area} (h : a.Ok) : pageSize ≤ a.size :=
  Nat.le_of_dvd h.pos (Nat.dvd_of_mod_eq_zero h.size_aligned)

/-- One area ends before the other starts. -/
def Before (a b : Area) : Prop := a.start + a.size ≤ b.start

/-- A list of areas in address order. -/
structure Sorted (l : List Area) : Prop where
  before : l.Pairwise Before
  ok : ∀ a ∈ l, a.Ok

/-- The addresses of a list of areas. -/
abbrev addrs (l : List Area) : Multiset ℕ := cover Area.start Area.size l

variable {a b x y node : Area} {l l' pre post : List Area}

theorem vmaCmp_of_before (hx : x.Ok) (hy : y.Ok) (h : Before x y) :
    vmaCmp x y = some (if x.start + x.size = y.start then 0 else -1) := by
  have hpos := hx.pos
  rw [Before] at h
  have hge : ¬ x.start ≥ y.start + y.size := by omega
  by_cases heq : x.start + x.size = y.start
  · simp [vmaCmp, hx.add32_eq, hy.add32_eq, heq, hge]
  · simp [vmaCmp, hx.add32_eq, hy.add32_eq, heq, hge, h]

theorem vmaCmp_of_after (hy : y.Ok) (h : Before y x) : vmaCmp x y = some 1 := by
  have hge : x.start ≥ y.start + y.size := h
  simp [vmaCmp, hy.add32_eq, hge]

theorem vmaCmp_eq_some (ha : a.Within) (hb : b.Within) {r : ℤ} (h : vmaCmp a b = some r) :
    if r = 1 then Before b a else Before a b := by
  simp only [vmaCmp, ha.add32_eq, hb.add32_eq] at h
  simp only [Before]
  by_cases hge : a.start ≥ b.start + b.size
  · rw [if_pos hge, Option.some.injEq] at h
    rw [if_pos h.symm]
    exact hge
  · rw [if_neg hge] at h
    by_cases heq : a.start + a.size = b.start
    · rw [if_pos heq, Option.some.injEq] at h
      rw [if_neg (by omega)]
      omega
    · rw [if_neg heq] at h
      by_cases hle : a.start + a.size ≤ b.start
      · rw [if_pos hle, Option.some.injEq] at h
        rw [if_neg (by omega)]
        exact hle
      · rw [if_neg hle] at h
        cases h

theorem vIlistInsert_sorted (hnode : node.Within) (hl : l.Pairwise Before)
    (hin : ∀ a ∈ l, a.Within) (hcall : vIlistInsert node l = .ok l') :
    l'.Perm (node :: l) ∧ l'.Pairwise Before := by
  induction l generalizing l' with
  | nil =>
    cases hcall
    exact ⟨List.Perm.refl _, pairwise_singleton _ _⟩
  | cons pos l ih =>
    obtain ⟨hpos, hl'⟩ := pairwise_cons.mp hl
    rw [vIlistInsert] at hcall
    cases hcmp : vmaCmp node pos with
    | none => simp [hcmp] at hcall
    | some r =>
      have hr := vmaCmp_eq_some hnode (hin pos (by simp)) hcmp
      simp only [hcmp] at hcall
      by_cases hone : r = 1
      · rw [if_pos hone] at hr hcall
        cases hrest : vIlistInsert node l with
        | error e =>
          rw [hrest] at hcall
          cases hcall
        | ok l1 =>
          rw [hrest] at hcall
          cases hcall
          obtain ⟨hperm, hsorted⟩ := ih hl' (fun c hc => hin c (by simp [hc])) hrest
          refine ⟨(hperm.cons pos).trans (List.Perm.swap _ _ _),
            pairwise_cons.mpr ⟨?_, hsorted⟩⟩
          intro c hc
          rcases mem_cons.mp (hperm.mem_iff.mp hc) with rfl | hc
          · exact hr
          · exact hpos c hc
      · rw [if_neg hone] at hr hcall
        cases hcall
        refine ⟨List.Perm.refl _, pairwise_cons.mpr ⟨?_, hl⟩⟩
        intro c hc
        rcases mem_cons.mp hc with rfl | hc
        · exact hr
        · have hc' := hpos c hc
          rw [Before] at hr hc' ⊢
          omega

theorem vIlistInsert_returns (hnode : node.Ok) (hl : ∀ b ∈ l, b.Ok)
    (hapart : ∀ b ∈ l, Apart node.start node.size b.start b.size) :
    ∃ l', vIlistInsert node l = .ok l' := by
  induction l with
  | nil => exact ⟨[node], rfl⟩
  | cons b l ih =>
    have hb : b.Ok := hl b (by simp)
    rcases hapart b (by simp) with h | h
    · have hne : ¬ (if node.start + node.size = b.start then (0 : ℤ) else -1) = 1 := by
        split <;> decide
      exact ⟨node :: b :: l,
        by simp only [vIlistInsert, vmaCmp_of_before hnode hb h, hne, if_false]⟩
    · obtain ⟨l', heq⟩ := ih (fun c hc => hl c (by simp [hc])) fun c hc => hapart c (by simp [hc])
      exact ⟨b :: l', by simp only [vIlistInsert, vmaCmp_of_after hb h, if_true, heq, Except.map]⟩

theorem vIlistInsert_spec (hnode : node.Ok) (hl : Sorted l)
    (hapart : ∀ b ∈ l, Apart node.start node.size b.start b.size) :
    ∃ l', vIlistInsert node l = .ok l' ∧ l'.Perm (node :: l) ∧ Sorted l' := by
  obtain ⟨l', heq⟩ := vIlistInsert_returns hnode hl.ok hapart
  obtain ⟨hperm, hbefore⟩ := vIlistInsert_sorted hnode.within hl.before
    (fun b hb => (hl.ok b hb).within) heq
  refine ⟨l', heq, hperm, hbefore, fun c hc => ?_⟩
  rcases mem_cons.mp (hperm.mem_iff.mp hc) with rfl | hc
  · exact hnode
  · exact hl.ok c hc

theorem Sorted.join (h : Sorted (pre ++ x :: y :: post)) (htouch : x.start + x.size = y.start)
    (self : ℕ) :
    Sorted (pre ++ ⟨self, x.start, x.size + y.size⟩ :: post) ∧
      addrs (pre ++ ⟨self, x.start, x.size + y.size⟩ :: post) = addrs (pre ++ x :: y :: post) := by
  have hx : x.Ok := h.ok x (by simp)
  have hy : y.Ok := h.ok y (by simp)
  obtain ⟨hpre, htail, hcross⟩ := pairwise_append.mp h.before
  obtain ⟨hxy, htail⟩ := pairwise_cons.mp htail
  obtain ⟨hypost, hpost⟩ := pairwise_cons.mp htail
  refine ⟨⟨pairwise_append.mpr ⟨hpre, pairwise_cons.mpr ⟨?_, hpost⟩, ?_⟩, ?_⟩, ?_⟩
  · intro c hc
    have hyc := hypost c hc
    simp only [Before] at hyc ⊢
    omega
  · intro c hc d hd
    rcases mem_cons.mp hd with rfl | hd
    · exact hcross c hc x (by simp)
    · exact hcross c hc d (by simp [hd])
  · intro c hc
    rw [mem_append, mem_cons] at hc
    rcases hc with hc | rfl | hc
    · exact h.ok c (by simp [hc])
    · have hhi := hy.hi
      refine ⟨hx.start_aligned, ?_, Nat.add_pos_left hx.pos _, hx.lo, ?_⟩
      · have h1 := hx.size_aligned
        have h2 := hy.size_aligned
        simp only [pageSize] at h1 h2 ⊢
        omega
      · simp only
        omega
    · exact h.ok c (by simp [hc])
  · simp only [addrs, cover_append, cover_cons, span_add, htouch, add_assoc]

theorem assertInvariants_ok (ha : a.Ok) (hb : b.Ok) (h : Before a b ∨ Before b a) :
    assertInvariants a b = .ok () := by
  have hpa := ha.pageSize_le
  have hpb := hb.pageSize_le
  have hpos : 0 < pageSize := by decide
  simp only [Before] at h
  rw [assertInvariants, if_pos]
  simp only [ha.add32_eq, hb.add32_eq]
  omega

theorem vmaMerge_of_after (ha : a.Ok) (hb : b.Ok) (h : Before b a) :
    vmaMerge a b = .ok (if b.start + b.size = a.start then some ⟨b.self, b.start, b.size + a.size⟩
      else none) := by
  have hpb := hb.pos
  have hhi := ha.hi
  rw [vmaEnd_eq] at hhi
  have hassert := assertInvariants_ok ha hb (.inr h)
  rw [Before] at h
  have hfirst : ¬ a.start + a.size = b.start := by omega
  have hsize : add32 b.size a.size = b.size + a.size := add32_eq (by omega)
  by_cases htouch : b.start + b.size = a.start
  · simp [vmaMerge, hassert, ha.add32_eq, hb.add32_eq, hfirst, hsize, htouch, bind, Except.bind,
      pure, Except.pure]
  · simp [vmaMerge, hassert, ha.add32_eq, hb.add32_eq, hfirst, htouch, Ne.symm htouch, bind,
      Except.bind, pure, Except.pure]

theorem vmaMerge_of_before (ha : a.Ok) (hb : b.Ok) (h : Before a b) :
    vmaMerge a b = .ok (if a.start + a.size = b.start then some ⟨b.self, a.start, a.size + b.size⟩
      else none) := by
  have hpb := hb.pos
  have hhi := hb.hi
  rw [vmaEnd_eq] at hhi
  have hassert := assertInvariants_ok ha hb (.inl h)
  rw [Before] at h
  have hsecond : ¬ a.start = b.start + b.size := by omega
  have hsize : add32 b.size a.size = a.size + b.size := by
    rw [add32_eq (by omega), Nat.add_comm]
  by_cases htouch : a.start + a.size = b.start
  · simp [vmaMerge, hassert, ha.add32_eq, hsize, htouch, bind, Except.bind, pure, Except.pure]
  · simp [vmaMerge, hassert, ha.add32_eq, hb.add32_eq, hsecond, htouch, bind, Except.bind, pure,
      Except.pure]

/-! ### Defragmentation -/

/-- The addresses of the structures of a list of areas. -/
def selfs (l : List Area) : Multiset ℕ := (l.map Area.self : List ℕ)

/-- What a merge has achieved: the structure of `a` is not needed any more, and
the rest of the list covers the same addresses. -/
structure Merged (a : Area) (l l' : List Area) : Prop where
  sorted : Sorted l'
  addrs_eq : addrs l' = addrs l
  selfs_eq : selfs l = a.self ::ₘ selfs l'

theorem addrs_perm {l l' : List Area} (h : l.Perm l') : addrs l = addrs l' := cover_perm _ _ h

theorem selfs_perm {l l' : List Area} (h : l.Perm l') : selfs l = selfs l' :=
  Multiset.coe_eq_coe.mpr (h.map _)

/-- Two areas in address order that do not touch. -/
def Gap (a b : Area) : Prop := a.start + a.size < b.start

theorem gaps_snoc {before : List Area} (hgap : (before.reverse).Pairwise Gap)
    (hlast : ∀ b ∈ before.head?, Gap b a) : ((a :: before).reverse).Pairwise Gap := by
  rw [reverse_cons, pairwise_append]
  refine ⟨hgap, pairwise_singleton _ _, fun c hc d hd => ?_⟩
  obtain rfl : d = a := by simpa using hd
  cases before with
  | nil => simp at hc
  | cons b rest =>
    have hb : Gap b d := hlast b rfl
    rw [reverse_cons, pairwise_append] at hgap
    rcases mem_cons.mp (mem_reverse.mp hc) with rfl | hc
    · exact hb
    · have hcb := hgap.2.2 c (mem_reverse.mpr hc) b (by simp)
      rw [Gap] at hb hcb ⊢
      omega

/-- **A merge with the area before**, or a gap to it; `before` are the areas that the
loop is through with. -/
theorem mergeInto_spec {before after : List Area} (h : Sorted (before.reverse ++ a :: after))
    (hgap : before.reverse.Pairwise Gap) :
    (mergeInto a before = .ok none ∧ ((a :: before).reverse).Pairwise Gap) ∨
      ∃ before', mergeInto a before = .ok (some before') ∧
        Merged a (before.reverse ++ a :: after) (before'.reverse ++ after) ∧
        before'.reverse.Pairwise Gap := by
  cases before with
  | nil => exact .inl ⟨rfl, pairwise_singleton _ _⟩
  | cons b before =>
    rw [reverse_cons, append_assoc, singleton_append] at h
    have hba : Before b a :=
      (pairwise_cons.mp (pairwise_append.mp h.before).2.1).1 a (by simp)
    have hmerge := vmaMerge_of_after (h.ok a (by simp)) (h.ok b (by simp)) hba
    by_cases htouch : b.start + b.size = a.start
    · obtain ⟨hsorted, haddrs⟩ := h.join htouch b.self
      rw [if_pos htouch] at hmerge
      refine .inr ⟨⟨b.self, b.start, b.size + a.size⟩ :: before, ?_, ⟨?_, ?_, ?_⟩, ?_⟩
      · rw [mergeInto, hmerge]
        rfl
      · simpa using hsorted
      · simpa using haddrs
      · have hperm : (before.reverse ++ b :: a :: after).Perm
            (a :: (before.reverse ++ b :: after)) :=
          (List.Perm.append_left _ (List.Perm.swap _ _ _)).trans perm_middle
        rw [reverse_cons, append_assoc, singleton_append, selfs_perm hperm]
        simp [selfs]
      · -- the area grows at its end, which is the end of what is through
        rw [reverse_cons, pairwise_append] at hgap ⊢
        refine ⟨hgap.1, pairwise_singleton _ _, fun c hc d hd => ?_⟩
        obtain rfl := mem_singleton.mp hd
        exact hgap.2.2 c hc b (by simp)
    · rw [if_neg htouch] at hmerge
      refine .inl ⟨by rw [mergeInto, hmerge]; rfl, gaps_snoc hgap fun c hc => ?_⟩
      obtain rfl : b = c := by simpa using hc
      rw [Before] at hba
      rw [Gap]
      omega

theorem vmaMerge_behind {before after : List Area}
    (h : Sorted (before.reverse ++ a :: b :: after)) :
    vmaMerge a b = .ok none ∨
      ∃ b', vmaMerge a b = .ok (some b') ∧
        Merged a (before.reverse ++ a :: b :: after) (before.reverse ++ b' :: after) := by
  have hb : b.Ok := h.ok b (by simp)
  have ha : a.Ok := h.ok a (by simp)
  have hab : Before a b :=
    (pairwise_cons.mp (pairwise_append.mp h.before).2.1).1 b (by simp)
  by_cases htouch : a.start + a.size = b.start
  · obtain ⟨hsorted, haddrs⟩ := h.join htouch b.self
    refine .inr ⟨⟨b.self, a.start, a.size + b.size⟩, ?_, hsorted, haddrs, ?_⟩
    · rw [vmaMerge_of_before ha hb hab, if_pos htouch]
    · simp [selfs]
  · left
    rw [vmaMerge_of_before ha hb hab, if_neg htouch]

/-- A computation whose only faults are those of `slab_free`, with a property
of its result. -/
def Returns {α : Type} (x : Except Fault α) (Q : α → Prop) : Prop :=
  match x with
  | .ok r => Q r
  | .error f => ∃ p m, E.slabFree p m = .error f

variable {E}

theorem Returns.bind {α β : Type} {x : Except Fault α} {f : α → Except Fault β} {P : α → Prop}
    {Q : β → Prop} (hx : Returns E x P) (hf : ∀ r, P r → Returns E (f r) Q) :
    Returns E (x >>= f) Q := by
  cases x with
  | ok r => exact hf r hx
  | error e => exact hx

theorem returns_slabFree (p : ℕ) (m : σ) :
    Returns E (E.slabFree p m) fun m' => E.slabFree p m = .ok m' := by
  cases h : E.slabFree p m with
  | ok m' => rfl
  | error e => exact ⟨p, m, h⟩

/-- **The second loop of `do_defrag`.**  The list stays sorted and covers the same addresses, with
gaps between its areas, and the structures merged away are returned to the slab allocator.  `K`
is any property that a `slab_free` of an allocated structure keeps. -/
theorem mergeLoop_spec {K : σ → Multiset ℕ → Prop}
    (hfree : ∀ {p m m' S}, E.slabFree p m = .ok m' → K m (p ::ₘ S) → K m' S)
    {before after : List Area} {m : σ} {S : Multiset ℕ}
    (h : Sorted (before.reverse ++ a :: after)) (hgap : before.reverse.Pairwise Gap)
    (hK : K m (selfs (before.reverse ++ a :: after) + S)) :
    Returns E (mergeLoop E before a after m) fun r =>
      Sorted r.1 ∧ addrs r.1 = addrs (before.reverse ++ a :: after) ∧ r.1.Pairwise Gap ∧
        K r.2 (selfs r.1 + S) := by
  -- what is left to do after a merge that has been followed by its `slab_free`
  have hmerged : ∀ {m m' : σ} {a : Area} {l l' : List Area}, Merged a l l' →
      K m (selfs l + S) → E.slabFree a.self m = .ok m' → K m' (selfs l' + S) := by
    intro m m' a l l' hl hK hcall
    rw [hl.selfs_eq, Multiset.cons_add] at hK
    exact hfree hcall hK
  induction after generalizing before a m with
  | nil =>
    rw [mergeLoop]
    rcases mergeInto_spec h hgap with ⟨hnone, hgap'⟩ | ⟨before', hsome, hl, hgap'⟩
    · rw [hnone]
      rw [← reverse_cons] at h hK
      exact ⟨h, by rw [reverse_cons], hgap', hK⟩
    · rw [hsome]
      refine (returns_slabFree a.self m).bind fun m' hcall => ?_
      rw [append_nil] at hl
      exact ⟨hl.sorted, hl.addrs_eq, hgap', hmerged hl hK hcall⟩
  | cons b after ih =>
    rw [mergeLoop]
    rcases mergeInto_spec h hgap with ⟨hnone, hgap'⟩ | ⟨before', hsome, hl, hgap'⟩
    · rw [hnone]
      rcases vmaMerge_behind h with hnone' | ⟨b', hsome', hl⟩
      · simp only [hnone', Except.bind, bind]
        have hrev : before.reverse ++ a :: b :: after = (a :: before).reverse ++ b :: after := by
          simp
        rw [hrev] at h hK ⊢
        exact ih h hgap' hK
      · simp only [hsome', Except.bind, bind]
        refine (returns_slabFree a.self m).bind fun m' hcall => ?_
        rw [← hl.addrs_eq]
        exact ih hl.sorted hgap (hmerged hl hK hcall)
    · rw [hsome]
      refine (returns_slabFree a.self m).bind fun m' hcall => ?_
      rw [← hl.addrs_eq]
      exact ih hl.sorted hgap' (hmerged hl hK hcall)

theorem insertAll_spec {queue : List Area} (hl : Sorted l) (hq : ∀ a ∈ queue, a.Ok)
    (hnd : (addrs (l ++ queue)).Nodup) :
    ∃ l', queue.foldlM (fun list a => vIlistInsert a list) l = .ok l' ∧
      l'.Perm (l ++ queue) ∧ Sorted l' := by
  induction queue generalizing l with
  | nil => exact ⟨l, rfl, by simp, hl⟩
  | cons a queue ih =>
    have hpos : ∀ c ∈ l ++ a :: queue, 0 < c.size := by
      intro c hc
      rcases mem_append.mp hc with hc | hc
      · exact (hl.ok c hc).pos
      · exact (hq c hc).pos
    have hapart := (pairwise_append.mp (apart_of_nodup hpos hnd)).2.2
    obtain ⟨l1, heq, hperm, hsorted⟩ := vIlistInsert_spec (hq a (by simp)) hl
      fun b hb => (hapart b hb a (by simp)).symm
    have hmove : (l1 ++ queue).Perm (l ++ a :: queue) :=
      (hperm.append_right queue).trans perm_middle.symm
    obtain ⟨l', heq', hperm', hsorted'⟩ := ih hsorted (fun c hc => hq c (by simp [hc]))
      (addrs_perm hmove ▸ hnd)
    refine ⟨l', ?_, hperm'.trans hmove, hsorted'⟩
    rw [foldlM_cons, heq]
    exact heq'

/-- **`do_defrag`** on a sorted list and a queue that do not overlap; its only faults
are those of `slab_free`. -/
theorem doDefrag_spec {K : σ → Multiset ℕ → Prop}
    (hfree : ∀ {p m m' S}, E.slabFree p m = .ok m' → K m (p ::ₘ S) → K m' S)
    {s : State σ} {S : Multiset ℕ} (hl : Sorted s.vmaFreelist) (hq : ∀ a ∈ s.defragQueue, a.Ok)
    (hnd : (addrs (s.vmaFreelist ++ s.defragQueue)).Nodup)
    (hK : K s.rest (selfs (s.vmaFreelist ++ s.defragQueue) + S)) :
    Returns E (doDefrag E s) fun s' => ∃ l m,
      s' = { s with vmaFreelist := l, defragQueue := [], rest := m } ∧ Sorted l ∧
        addrs l = addrs (s.vmaFreelist ++ s.defragQueue) ∧ l.Pairwise Gap ∧ K m (selfs l + S) := by
  obtain ⟨l, hinsert, hperm, hsorted⟩ := insertAll_spec hl hq hnd
  rw [doDefrag, hinsert, ← addrs_perm hperm]
  rw [← selfs_perm hperm] at hK
  cases l with
  | nil => exact ⟨[], s.rest, rfl, hsorted, rfl, List.Pairwise.nil, hK⟩
  | cons a after =>
    change Returns E (mergeLoop E [] a after s.rest >>= _) _
    have hmerge := @mergeLoop_spec _ E a _ hfree [] after s.rest S hsorted List.Pairwise.nil hK
    refine hmerge.bind ?_
    rintro ⟨l', m⟩ hdone
    exact ⟨l', m, rfl, hdone⟩

/-! ### The invariant -/

/-- All areas. -/
def areas (s : State σ) : List Area := s.vmaFreelist ++ s.vmaList ++ s.defragQueue

theorem perm_areas (s : State σ) :
    (s.vmaFreelist ++ s.defragQueue ++ s.vmaList).Perm (areas s) := by
  rw [areas, append_assoc, append_assoc]
  exact List.Perm.append_left _ perm_append_comm

/-- Start and size of the areas of a list. -/
def extents (l : List Area) : Multiset (ℕ × ℕ) := (l.map fun a => (a.start, a.size) : List (ℕ × ℕ))

/-- The areas cover the range and the free list is sorted. -/
structure Tiled (s : State σ) : Prop where
  cover : addrs (areas s) = span vmaStart (vmaEnd - vmaStart)
  ok : ∀ a ∈ areas s, a.Ok
  sorted : s.vmaFreelist.Pairwise Before

/-- Moreover `vma_list` holds the live pointers, each with the size asked for. -/
structure Space (s : State σ) (live : List (ℕ × ℕ)) : Prop extends Tiled s where
  live : (s.vmaList.map fun a => (a.start, a.size)).Perm
    (live.map fun b => (b.1, pageRoundUp b.2))

/-- An area that may be mapped next to the areas `A`. -/
structure Mappable (A : Multiset (ℕ × ℕ)) (start size : ℕ) : Prop where
  ok : Area.Ok ⟨0, start, size⟩
  apart : ∀ b ∈ A, Apart start size b.1 b.2

/-- What the environment has to keep for an invariant `J` of its state, which
may speak about the structures that are allocated and the areas that are
mapped. -/
structure Sound (E : Env σ) (J : σ → Multiset ℕ → Multiset (ℕ × ℕ) → Prop) : Prop where
  slabAlloc : ∀ {m p m' S A}, E.slabAlloc sizeofVma m = .ok (p, m') → J m S A → J m' (p ::ₘ S) A
  slabFree : ∀ {m p m' S A}, E.slabFree p m = .ok m' → J m (p ::ₘ S) A → J m' S A
  vmMap : ∀ {m m' S A start size}, E.vmMap start size m = .ok m' → Mappable A start size →
    J m S A → J m' S ((start, size) ::ₘ A)
  vmUnmap : ∀ {m m' S A start size}, E.vmUnmap start size m = .ok m' → Mappable A start size →
    J m S ((start, size) ::ₘ A) → J m' S A

/-- The areas partition the range, and `J` holds of their structures and of the
areas that are mapped. -/
structure Inv (J : σ → Multiset ℕ → Multiset (ℕ × ℕ) → Prop) (s : State σ)
    (live : List (ℕ × ℕ)) : Prop where
  space : Space s live
  rest : J s.rest (selfs (areas s)) (extents s.vmaList)

variable {J : σ → Multiset ℕ → Multiset (ℕ × ℕ) → Prop} {s s' : State σ} {live : List (ℕ × ℕ)}
  {p bytes : ℕ}

theorem Tiled.nodup (h : Tiled s) : (addrs (areas s)).Nodup := h.cover ▸ nodup_span

theorem Tiled.apart (h : Tiled s) :
    (areas s).Pairwise fun a b => Apart a.start a.size b.start b.size :=
  apart_of_nodup (fun a ha => (h.ok a ha).pos) h.nodup

theorem Tiled.mappable (h : Tiled s) (hlist : s.vmaList = pre ++ a :: post) :
    Mappable (extents (pre ++ post)) a.start a.size := by
  have hok := h.ok a (by simp [areas, hlist])
  refine ⟨⟨hok.start_aligned, hok.size_aligned, hok.pos, hok.lo, hok.hi⟩, fun b hb => ?_⟩
  obtain ⟨c, hc, rfl⟩ := mem_map.mp (Multiset.mem_coe.mp hb)
  have hpair := h.apart
  rw [areas, hlist] at hpair
  have hused := (pairwise_append.mp (pairwise_append.mp hpair).1).2.1
  exact (pairwise_cons.mp (hused.perm perm_middle fun h => h.symm)).1 c hc

theorem doDefrag_inv (hE : Sound E J) (h : Inv J s live) :
    Returns E (doDefrag E s) fun s' => Inv J s' live := by
  have hspace := h.space
  have hnd : (addrs (s.vmaFreelist ++ s.defragQueue)).Nodup := by
    have hall := hspace.nodup
    rw [← addrs_perm (perm_areas s), addrs, cover_append] at hall
    exact (Multiset.nodup_add.mp hall).1
  have hrest : J s.rest (selfs (s.vmaFreelist ++ s.defragQueue) + selfs s.vmaList)
      (extents s.vmaList) := by
    have hselfs := selfs_perm (perm_areas s)
    simp only [selfs, map_append, ← Multiset.coe_add] at hselfs ⊢
    rw [hselfs]
    simpa [selfs] using h.rest
  have hdone := doDefrag_spec (K := fun m S => J m S (extents s.vmaList))
    (fun hcall hK => hE.slabFree hcall hK)
    ⟨hspace.sorted, fun a ha => hspace.ok a (by simp [areas, ha])⟩
    (fun a ha => hspace.ok a (by simp [areas, ha])) hnd hrest
  cases hcall : doDefrag E s with
  | error f =>
    rw [hcall] at hdone
    exact hdone
  | ok s' =>
    rw [hcall] at hdone
    obtain ⟨l, m, rfl, hl, haddrs, -, hJ⟩ := hdone
    refine ⟨⟨⟨?_, ?_, hl.before⟩, hspace.live⟩, ?_⟩
    · rw [← hspace.cover, ← addrs_perm (perm_areas s)]
      simp only [areas, append_nil, addrs, cover_append] at haddrs ⊢
      rw [haddrs]
    · intro a ha
      rw [areas, append_nil, mem_append] at ha
      rcases ha with ha | ha
      · exact hl.ok a ha
      · exact hspace.ok a (by simp [areas, ha])
    · simpa [areas, selfs] using hJ

/-- The choice of `find_space` is an area of the list that is large enough. -/
def Fits (bytes : ℕ) (l : List Area) (x : Place) : Prop :=
  x.1 ++ x.2.1 :: x.2.2 = l ∧ bytes ≤ x.2.1.size

/-- The choice of `find_space` among the areas `seen`, the first ones of the list: the
first of the smallest areas that are large enough. -/
def Best (bytes : ℕ) (seen l : List Area) : Option Place → Prop
  | none => ∀ a ∈ seen, a.size < bytes
  | some x => Fits bytes l x ∧ (∀ b ∈ seen, bytes ≤ b.size → x.2.1.size ≤ b.size) ∧
      ∀ b ∈ x.1, bytes ≤ b.size → x.2.1.size < b.size

theorem betterFit_best {seen list : List Area} {fit : Option Place} (hl : seen ++ a :: list = l)
    (h : Best bytes seen l fit) :
    Best bytes (seen ++ [a]) l (betterFit bytes (seen, a, list) fit) := by
  cases fit with
  | none =>
    have hsmall : ∀ b ∈ seen, b.size < bytes := h
    by_cases hsize : a.size ≥ bytes
    · rw [betterFit, if_pos hsize]
      refine ⟨⟨hl, hsize⟩, fun b hb hfit => ?_, fun b hb hfit => ?_⟩
      · rcases mem_append.mp hb with hb | hb
        · exact absurd (hsmall b hb) (not_lt.mpr hfit)
        · rw [mem_singleton.mp hb]
      · exact absurd (hsmall b hb) (not_lt.mpr hfit)
    · rw [betterFit, if_neg hsize]
      intro b hb
      rcases mem_append.mp hb with hb | hb
      · exact hsmall b hb
      · rw [mem_singleton.mp hb]
        exact not_le.mp hsize
  | some f =>
    obtain ⟨hfits, hmin, hfirst⟩ := h
    by_cases hsize : a.size < f.2.1.size ∧ a.size ≥ bytes
    · -- strictly smaller than the choice so far, and so than all areas that fit before it
      rw [betterFit, if_pos hsize]
      refine ⟨⟨hl, hsize.2⟩, fun b hb hfit => ?_, fun b hb hfit => ?_⟩
      · rcases mem_append.mp hb with hb | hb
        · exact hsize.1.le.trans (hmin b hb hfit)
        · rw [mem_singleton.mp hb]
      · exact hsize.1.trans_le (hmin b hb hfit)
    · rw [betterFit, if_neg hsize]
      refine ⟨hfits, fun b hb hfit => ?_, hfirst⟩
      rcases mem_append.mp hb with hb | hb
      · exact hmin b hb hfit
      · rw [mem_singleton.mp hb] at hfit ⊢
        exact not_lt.mp fun hlt => hsize ⟨hlt, hfit⟩

theorem findFit_best {seen list : List Area} {fit : Option Place} (hl : seen ++ list = l)
    (h : Best bytes seen l fit) : Best bytes l l (findFit bytes seen fit list) := by
  induction list generalizing seen fit with
  | nil =>
    rw [append_nil] at hl
    exact hl ▸ h
  | cons area list ih => exact ih (by simpa using hl) (betterFit_best hl h)

theorem best_findFit (bytes : ℕ) (l : List Area) : Best bytes l l (findFit bytes [] none l) := by
  have hnone : Best bytes [] l none := by simp [Best]
  exact findFit_best rfl hnone

theorem findFit_spec {pre post : List Area} {fit : Area}
    (h : findFit bytes [] none l = some (pre, fit, post)) :
    l = pre ++ fit :: post ∧ bytes ≤ fit.size := by
  have hbest := best_findFit bytes l
  rw [h] at hbest
  exact ⟨hbest.1.1.symm, hbest.1.2⟩

theorem findSpace_eq_ok {pages n : ℕ} {vma : Area} (hn : pages * pageSize % 2 ^ 32 = n)
    (h : findSpace E pages s = .ok (vma, s')) :
    ∃ pre fit post, findFit n [] none s.vmaFreelist = some (pre, fit, post) ∧
      ((n < fit.size ∧ ∃ self m, E.slabAlloc sizeofVma s.rest = .ok (self, m) ∧
          vma = ⟨self, fit.start, n⟩ ∧
          s' = ⟨pre ++ ⟨fit.self, add32 fit.start n, sub32 fit.size n⟩ :: post,
            s.vmaList ++ [vma], s.defragQueue, m⟩) ∨
        (fit.size ≤ n ∧ vma = fit ∧
          s' = ⟨pre ++ post, s.vmaList ++ [vma], s.defragQueue, s.rest⟩)) := by
  rw [findSpace, hn] at h
  cases hfit : findFit n [] none s.vmaFreelist with
  | none => simp [hfit] at h
  | some found =>
    obtain ⟨pre, fit, post⟩ := found
    simp only [hfit] at h
    refine ⟨pre, fit, post, rfl, ?_⟩
    by_cases hlarge : n < fit.size
    · simp only [gt_iff_lt, hlarge, if_true, vmaSplit, hn, bind_eq_ok, Prod.exists, pure,
        Except.pure, Except.ok.injEq, Prod.mk.injEq] at h
      obtain ⟨new, rest, m, ⟨self, m', halloc, rfl, rfl, rfl⟩, rfl, rfl⟩ := h
      exact .inl ⟨hlarge, self, m', halloc, rfl, rfl⟩
    · simp only [gt_iff_lt, hlarge, if_false, Except.ok.injEq, Prod.mk.injEq] at h
      obtain ⟨rfl, rfl⟩ := h
      exact .inr ⟨not_lt.mp hlarge, rfl, rfl⟩

theorem areas_split (hl : s.vmaFreelist = pre ++ a :: post) :
    (areas s).Perm (a :: (pre ++ post ++ s.vmaList ++ s.defragQueue)) := by
  rw [areas, hl]
  simp only [append_assoc, cons_append]
  exact perm_middle

theorem areas_perm_concat {free used queue : List Area} {m : σ} :
    (areas (⟨free, used ++ [a], queue, m⟩ : State σ)).Perm
      (a :: areas (⟨free, used, queue, m⟩ : State σ)) := by
  simp only [areas, append_assoc, singleton_append]
  rw [← append_assoc, ← append_assoc]
  exact perm_middle

theorem Area.Ok.cut (h : a.Ok) {n : ℕ} (hmod : n % pageSize = 0) (hpos : 0 < n) (hlt : n < a.size)
    (self self' : ℕ) :
    Area.Ok ⟨self, a.start, n⟩ ∧ Area.Ok ⟨self', a.start + n, a.size - n⟩ := by
  have hstart := h.start_aligned
  have hsize := h.size_aligned
  have hhi := h.hi
  have hlo := h.lo
  simp only [pageSize] at hmod hstart hsize
  constructor
  · exact ⟨h.start_aligned, hmod, hpos, hlo, by simp only; omega⟩
  · refine ⟨?_, ?_, Nat.sub_pos_of_lt hlt, hlo.trans (Nat.le_add_right _ _), by simp only; omega⟩
    · simp only [pageSize]
      omega
    · simp only [pageSize]
      omega

theorem pairwise_replace {R : Area → Area → Prop} (h : (pre ++ x :: post).Pairwise R)
    (hbefore : ∀ c, R c x → R c y) (hafter : ∀ c, R x c → R y c) :
    (pre ++ y :: post).Pairwise R := by
  obtain ⟨hpre, htail, hcross⟩ := pairwise_append.mp h
  obtain ⟨hxpost, hpost⟩ := pairwise_cons.mp htail
  refine pairwise_append.mpr
    ⟨hpre, pairwise_cons.mpr ⟨fun c hc => hafter c (hxpost c hc), hpost⟩, fun c hc d hd => ?_⟩
  rcases mem_cons.mp hd with rfl | hd
  · exact hbefore c (hcross c hc x (by simp))
  · exact hcross c hc d (by simp [hd])

/-- The first `n` bytes of a free area are cut off. -/
theorem areas_cut (hl : s.vmaFreelist = pre ++ a :: post) {n : ℕ} (hle : n ≤ a.size) (self : ℕ)
    (m : σ) (hs' : s' = ⟨pre ++ ⟨a.self, a.start + n, a.size - n⟩ :: post,
      s.vmaList ++ [⟨self, a.start, n⟩], s.defragQueue, m⟩) :
    addrs (areas s') = addrs (areas s) ∧ selfs (areas s') = self ::ₘ selfs (areas s) ∧
      ∀ c ∈ areas s', c = ⟨self, a.start, n⟩ ∨ c = ⟨a.self, a.start + n, a.size - n⟩ ∨
        c ∈ areas s := by
  have hsplit := areas_split hl
  have hperm : (areas s').Perm (⟨self, a.start, n⟩ :: ⟨a.self, a.start + n, a.size - n⟩ ::
      (pre ++ post ++ s.vmaList ++ s.defragQueue)) :=
    hs' ▸ areas_perm_concat.trans ((areas_split rfl).cons _)
  refine ⟨?_, ?_, fun c hc => ?_⟩
  · rw [addrs_perm hperm, addrs_perm hsplit]
    simp only [addrs, cover_cons, ← add_assoc]
    rw [← span_add, Nat.add_sub_cancel' hle]
  · rw [selfs_perm hperm, selfs_perm hsplit]
    rfl
  · rw [hperm.mem_iff, mem_cons, mem_cons] at hc
    exact hc.imp_right (Or.imp_right fun hc => hsplit.mem_iff.mpr (mem_cons_of_mem _ hc))

theorem Tiled.move (h : Tiled s) (hl : s.vmaFreelist = pre ++ a :: post) (m : σ) :
    Tiled (⟨pre ++ post, s.vmaList ++ [a], s.defragQueue, m⟩ : State σ) ∧
      selfs (areas (⟨pre ++ post, s.vmaList ++ [a], s.defragQueue, m⟩ : State σ)) =
        selfs (areas s) := by
  have hperm : (areas (⟨pre ++ post, s.vmaList ++ [a], s.defragQueue, m⟩)).Perm
      (areas s) := areas_perm_concat.trans (areas_split hl).symm
  refine ⟨⟨(addrs_perm hperm).trans h.cover, fun b hb => h.ok b (hperm.mem_iff.mp hb), ?_⟩,
    selfs_perm hperm⟩
  exact (hl ▸ h.sorted).sublist ((sublist_cons_self a post).append_left pre)

theorem Tiled.cut (h : Tiled s) (hl : s.vmaFreelist = pre ++ a :: post) {n : ℕ}
    (hmod : n % pageSize = 0) (hpos : 0 < n) (hlt : n < a.size) (self : ℕ) (m : σ) :
    Tiled (⟨pre ++ ⟨a.self, a.start + n, a.size - n⟩ :: post, s.vmaList ++ [⟨self, a.start, n⟩],
        s.defragQueue, m⟩ : State σ) ∧
      selfs (areas (⟨pre ++ ⟨a.self, a.start + n, a.size - n⟩ :: post,
        s.vmaList ++ [⟨self, a.start, n⟩], s.defragQueue, m⟩ : State σ)) =
        self ::ₘ selfs (areas s) := by
  obtain ⟨haddrs, hselfs, hmem⟩ := areas_cut hl hlt.le self m rfl
  obtain ⟨hnew, hrest⟩ := (h.ok a ((areas_split hl).mem_iff.mpr mem_cons_self)).cut hmod hpos hlt
    self a.self
  refine ⟨⟨haddrs.trans h.cover, fun b hb => ?_, ?_⟩, hselfs⟩
  · rcases hmem b hb with rfl | rfl | hb
    · exact hnew
    · exact hrest
    · exact h.ok b hb
  · refine pairwise_replace (hl ▸ h.sorted) (fun c hc => ?_) fun c hc => ?_
    · simp only [Before] at hc ⊢
      omega
    · simp only [Before] at hc ⊢
      omega

theorem findSpace_spec (hE : Sound E J) (h : Inv J s live) {vma : Area}
    (hpos : 0 < pageRoundUp bytes)
    (hcall : findSpace E (pageRoundUp bytes / pageSize) s = .ok (vma, s')) :
    vma.size = pageRoundUp bytes ∧ s'.vmaList = s.vmaList ++ [vma] ∧ Tiled s' ∧
      Mappable (extents s.vmaList) vma.start vma.size ∧
      J s'.rest (selfs (areas s')) (extents s.vmaList) := by
  obtain ⟨pre, fit, post, hfit, ⟨hlarge, self, m, halloc, rfl, rfl⟩ | ⟨hle, rfl, rfl⟩⟩ :=
    findSpace_eq_ok (pages_mul bytes) hcall
  · -- the first bytes of the area are cut off
    obtain ⟨hlist, hsize⟩ := findFit_spec hfit
    have hhi := (h.space.ok fit (by simp [areas, hlist])).hi
    rw [vmaEnd_eq] at hhi
    rw [add32_eq (by omega), sub32_eq (by omega) hsize]
    obtain ⟨htiled, hselfs⟩ := h.space.cut hlist (pageRoundDn_mod _) hpos hlarge self m
    exact ⟨rfl, rfl, htiled, by
      simpa using htiled.mappable (a := ⟨self, fit.start, pageRoundUp bytes⟩) rfl,
      hselfs ▸ hE.slabAlloc halloc h.rest⟩
  · -- the area has the right size and is moved as it is
    obtain ⟨hlist, hsize⟩ := findFit_spec hfit
    obtain ⟨htiled, hselfs⟩ := h.space.move hlist s.rest
    exact ⟨hle.antisymm hsize, rfl, htiled, by simpa using htiled.mappable (a := vma) rfl,
      hselfs ▸ h.rest⟩

theorem vmalloc_eq_ok (h : vmalloc E bytes s = .ok (p, s')) : ∃ vma s1 m,
    findSpace E (pageRoundUp bytes / pageSize) s = .ok (vma, s1) ∧
      E.vmMap vma.start vma.size s1.rest = .ok m ∧ p = vma.start ∧ s' = { s1 with rest := m } := by
  simp only [vmalloc, bind_eq_ok, Prod.exists, pure, Except.pure, Except.ok.injEq,
    Prod.mk.injEq] at h
  obtain ⟨vma, s1, hfind, m, hmap, rfl, rfl⟩ := h
  exact ⟨vma, s1, m, hfind, hmap, rfl, rfl⟩

theorem vmalloc_inv (hE : Sound E J) (h : Inv J s live) (hlo : 1 ≤ bytes) (hhi : bytes ≤ 0xFFFFF000)
    (hcall : vmalloc E bytes s = .ok (p, s')) : Inv J s' ((p, bytes) :: live) := by
  obtain ⟨-, hge, -⟩ := pageRoundUp_spec (x := bytes) (by simp only [pageSize]; omega)
  obtain ⟨vma, s1, m, hfind, hmap, rfl, rfl⟩ := vmalloc_eq_ok hcall
  -- the new area is apart from those already handed out
  obtain ⟨hsize, hlist, htiled, hmappable, hJ⟩ := findSpace_spec hE h (by omega) hfind
  have hrest := hE.vmMap hmap hmappable hJ
  refine ⟨⟨⟨htiled.cover, htiled.ok, htiled.sorted⟩, ?_⟩, ?_⟩
  · rw [hlist, map_append, map_singleton, hsize]
    exact (perm_append_singleton _ _).trans (h.space.live.cons _)
  · have hext : extents s1.vmaList = (vma.start, vma.size) ::ₘ extents s.vmaList := by
      rw [hlist, extents, extents, map_append, map_singleton, Multiset.cons_coe]
      exact Multiset.coe_eq_coe.mpr (perm_append_singleton _ _)
    rw [show extents _ = _ from hext]
    exact hrest

theorem exists_area (h : Space s live) {b : ℕ × ℕ} (hb : b ∈ live) :
    ∃ a ∈ s.vmaList, a.start = b.1 ∧ a.size = pageRoundUp b.2 := by
  have hmem : (b.1, pageRoundUp b.2) ∈ s.vmaList.map fun a => (a.start, a.size) :=
    h.live.mem_iff.mpr (mem_map.mpr ⟨b, hb, rfl⟩)
  obtain ⟨a, ha, heq⟩ := mem_map.mp hmem
  exact ⟨a, ha, (Prod.mk.inj heq).1, (Prod.mk.inj heq).2⟩

theorem Tiled.eq_of_start (h : Tiled s) (ha : a ∈ areas s) (hb : b ∈ areas s)
    (heq : a.start = b.start) : a = b := by
  by_contra hne
  have hposa := (h.ok a ha).pos
  have hposb := (h.ok b hb).pos
  have hapart := apart_of_mem (fun c hc => (h.ok c hc).pos) h.nodup ha hb hne
  rw [Apart] at hapart
  omega

theorem vmfree_eq_ok (h : vmfree E p s = .ok s') : ∃ pre a post m,
    s.vmaList = pre ++ a :: post ∧ a.start = p ∧ (∀ c ∈ pre, c.start ≠ p) ∧
      E.vmUnmap a.start a.size s.rest = .ok m ∧
      s' = ⟨s.vmaFreelist, pre ++ post, s.defragQueue ++ [a], m⟩ ∧ (areas s').Perm (areas s) := by
  rw [vmfree] at h
  cases hscan : splitFirst (fun area => decide (area.start = p)) s.vmaList with
  | none => simp [hscan] at h
  | some found =>
    obtain ⟨pre, a, post⟩ := found
    obtain ⟨hlist, hfound, hbefore⟩ := splitFirst_eq_some hscan
    simp only [hscan, bind_eq_ok, pure, Except.pure, Except.ok.injEq] at h
    obtain ⟨m, hunmap, rfl⟩ := h
    refine ⟨pre, a, post, m, hlist, by simpa using hfound, by simpa using hbefore, hunmap, rfl, ?_⟩
    simp only [areas, hlist, append_assoc, cons_append]
    refine List.Perm.append_left _ (List.Perm.append_left _ ?_)
    rw [← append_assoc]
    exact perm_append_singleton _ _

theorem vmfree_inv (hE : Sound E J) (h : Inv J s live) {b : ℕ × ℕ} (hb : b ∈ live)
    (hcall : vmfree E b.1 s = .ok s') : Inv J s' (live.erase b) := by
  have hspace := h.space
  obtain ⟨c, hc, hstart, hsize⟩ := exists_area hspace hb
  obtain ⟨pre, a, post, m, hlist, ha, -, hunmap, rfl, hperm⟩ := vmfree_eq_ok hcall
  obtain rfl : a = c := hspace.eq_of_start (by simp [areas, hlist]) (by simp [areas, hc])
    (ha.trans hstart.symm)
  refine ⟨⟨⟨?_, fun x hx => hspace.ok x (hperm.mem_iff.mp hx), hspace.sorted⟩, ?_⟩, ?_⟩
  · rw [addrs_perm hperm]
    exact hspace.cover
  · have hlive := hspace.live
    rw [hlist, map_append, map_cons, ha, hsize] at hlive
    have herase := (perm_cons_erase hb).map fun b : ℕ × ℕ => (b.1, pageRoundUp b.2)
    rw [map_append]
    exact List.Perm.cons_inv ((perm_middle.symm.trans hlive).trans herase)
  · rw [selfs_perm hperm]
    have hrest := h.rest
    have hext : extents s.vmaList = (a.start, a.size) ::ₘ extents (pre ++ post) := by
      rw [hlist]
      exact Multiset.coe_eq_coe.mpr (perm_middle.map _)
    rw [hext] at hrest
    exact hE.vmUnmap hunmap (hspace.mappable hlist) hrest

/-! ### Runs -/

/-- The allocator and the live pointers, each with the size asked for. -/
structure Machine (σ : Type) where
  state : State σ
  live : List (ℕ × ℕ)

inductive Event
  /-- `vmalloc(bytes)` -/
  | vmalloc (bytes : ℕ)
  /-- `vmfree(p)` -/
  | vmfree (p : ℕ)
  /-- `do_defrag()` -/
  | defrag

/-- One call; it is a step if it returns. -/
inductive Step (E : Env σ) : Machine σ → Event → Machine σ → Prop
  | vmalloc {s s' : State σ} {live : List (ℕ × ℕ)} {bytes p : ℕ} (hlo : 1 ≤ bytes)
      (hhi : bytes ≤ 0xFFFFF000) (hcall : vmalloc E bytes s = .ok (p, s')) :
      Step E ⟨s, live⟩ (.vmalloc bytes) ⟨s', (p, bytes) :: live⟩
  | vmfree {s s' : State σ} {live : List (ℕ × ℕ)} {b : ℕ × ℕ} (hlive : b ∈ live)
      (hcall : vmfree E b.1 s = .ok s') : Step E ⟨s, live⟩ (.vmfree b.1) ⟨s', live.erase b⟩
  | defrag {s s' : State σ} {live : List (ℕ × ℕ)} (hcall : doDefrag E s = .ok s') :
      Step E ⟨s, live⟩ .defrag ⟨s', live⟩

theorem inv_step (hE : Sound E J) {μ μ' : Machine σ} {e : Event} (h : Inv J μ.state μ.live)
    (hstep : Step E μ e μ') : Inv J μ'.state μ'.live := by
  cases hstep with
  | vmalloc hlo hhi hcall => exact vmalloc_inv hE h hlo hhi hcall
  | vmfree hlive hcall => exact vmfree_inv hE h hlive hcall
  | defrag hcall =>
    have hret := doDefrag_inv hE h
    rw [hcall] at hret
    exact hret

theorem vmaInit_inv (hE : Sound E J) {m : σ} (hJ : J m 0 0) (hcall : vmaInit E m = .ok s) :
    Inv J s [] := by
  simp only [vmaInit, bind_eq_ok, Prod.exists] at hcall
  obtain ⟨self, m', halloc, hcall⟩ := hcall
  by_cases hself : self = 0
  · simp [hself] at hcall
  simp only [hself, if_false, pure, Except.pure, Except.ok.injEq] at hcall
  subst hcall
  have hok : Area.Ok ⟨self, vmaStart, vmaEnd - vmaStart⟩ := by
    constructor <;> simp [vmaStart_eq, vmaEnd_eq, pageSize]
  refine ⟨⟨⟨by simp [areas], ?_, pairwise_singleton _ _⟩, List.Perm.refl _⟩, ?_⟩
  · simpa [areas] using hok
  · have hrest := hE.slabAlloc halloc hJ
    simpa [areas, selfs, extents] using hrest

theorem inv_of_run (hE : Sound E J) {m : σ} (hJ : J m 0 0) (hinit : vmaInit E m = .ok s)
    {es : List Event} {μ : Machine σ} (hrun : Run (Step E) ⟨s, []⟩ es μ) :
    Inv J μ.state μ.live :=
  hrun.invariant (I := fun μ => Inv J μ.state μ.live) (vmaInit_inv hE hJ hinit)
    fun _ _ _ h hstep => inv_step hE h hstep

/-- **The partition of the address space.** -/
structure Partition (μ : Machine σ) : Prop where
  /-- the areas are page-aligned and not empty -/
  aligned : ∀ a ∈ areas μ.state, a.start % pageSize = 0 ∧ a.size % pageSize = 0 ∧ 0 < a.size
  /-- they are pairwise disjoint -/
  disjoint : (areas μ.state).Pairwise fun a b => Apart a.start a.size b.start b.size
  /-- they cover exactly the range -/
  covers : ∀ x, (∃ a ∈ areas μ.state, a.start ≤ x ∧ x < a.start + a.size) ↔
    vmaStart ≤ x ∧ x < vmaEnd
  /-- the free list is sorted by address -/
  sorted : μ.state.vmaFreelist.Pairwise fun a b => a.start + a.size ≤ b.start
  /-- a live pointer starts one area of `vma_list`, of the right size -/
  live : ∀ b ∈ μ.live, ∃! a, a ∈ μ.state.vmaList ∧ a.start = b.1
  size : ∀ b ∈ μ.live, ∀ a ∈ μ.state.vmaList, a.start = b.1 → a.size = pageRoundUp b.2
  /-- and there are no other areas on `vma_list` -/
  used : ∀ a ∈ μ.state.vmaList, ∃ b ∈ μ.live, b.1 = a.start

theorem Space.partition {μ : Machine σ} (h : Space μ.state μ.live) : Partition μ := by
  refine ⟨fun a ha => ⟨(h.ok a ha).start_aligned, (h.ok a ha).size_aligned, (h.ok a ha).pos⟩,
    h.apart, fun x => ?_, h.sorted, fun b hb => ?_, fun b hb a ha hstart => ?_, fun a ha => ?_⟩
  · rw [← mem_cover, show cover _ _ _ = _ from h.cover, mem_span, vmaStart_eq, vmaEnd_eq]
  · obtain ⟨a, ha, hstart, -⟩ := exists_area h hb
    refine ⟨a, ⟨ha, hstart⟩, fun c hc => ?_⟩
    exact h.eq_of_start (by simp [areas, hc.1]) (by simp [areas, ha]) (hc.2.trans hstart.symm)
  · obtain ⟨c, hc, hstart', hsize⟩ := exists_area h hb
    obtain rfl : a = c := h.eq_of_start (by simp [areas, ha]) (by simp [areas, hc])
      (hstart.trans hstart'.symm)
    exact hsize
  · have hmem : (a.start, a.size) ∈ μ.live.map fun b => (b.1, pageRoundUp b.2) :=
      h.live.mem_iff.mp (mem_map.mpr ⟨a, ha, rfl⟩)
    obtain ⟨b, hb, heq⟩ := mem_map.mp hmem
    exact ⟨b, hb, (Prod.mk.inj heq).1⟩

/-- **The address space stays partitioned** in every run of `vmalloc`, `vmfree` and `do_defrag`,
whatever the slab allocator and the page tables do; and `do_defrag` can only fail where
`slab_free` does. -/
theorem address_space_partition {m : σ} (hinit : vmaInit E m = .ok s) {es : List Event}
    {μ : Machine σ} (hrun : Run (Step E) ⟨s, []⟩ es μ) :
    Partition μ ∧ ∀ f, doDefrag E μ.state = .error f → ∃ p m', E.slabFree p m' = .error f := by
  have hE : Sound E fun _ _ _ => True := ⟨by simp, by simp, by simp, by simp⟩
  have hinv := inv_of_run hE trivial hinit hrun
  refine ⟨hinv.space.partition, fun f hfault => ?_⟩
  have hret := doDefrag_inv hE hinv
  rw [hfault] at hret
  exact hret

/-- A slab allocator that hands out consecutive structures. -/
def bump : Env ℕ where
  slabAlloc n m := .ok (m, m + n)
  slabFree _ m := .ok m
  vmMap _ _ m := .ok m
  vmUnmap _ _ m := .ok m

/-- Allocating two pages, freeing them and defragmenting leaves one free area. -/
theorem address_space_partition_bump :
    ∃ μ : Machine ℕ, Run (Step bump)
      ⟨⟨[⟨0xD0010000, 0xC0100000, 0xFEFF000⟩], [], [], 0xD0010010⟩, []⟩
      [.vmalloc 5000, .vmfree 0xC0100000, .defrag] μ ∧
      μ.state.vmaFreelist = [⟨0xD0010000, 0xC0100000, 0xFEFF000⟩] ∧ Partition μ := by
  have hinit : vmaInit bump 0xD0010000 =
      .ok ⟨[⟨0xD0010000, 0xC0100000, 0xFEFF000⟩], [], [], 0xD0010010⟩ := rfl
  have hrun : Run (Step bump) ⟨⟨[⟨0xD0010000, 0xC0100000, 0xFEFF000⟩], [], [], 0xD0010010⟩, []⟩
      [.vmalloc 5000, .vmfree 0xC0100000, .defrag]
      ⟨⟨[⟨0xD0010000, 0xC0100000, 0xFEFF000⟩], [], [], 0xD0010020⟩, []⟩ := by
    refine .snoc (.snoc (.snoc .nil (.vmalloc (by decide) (by decide) rfl))
      (.vmfree (b := (0xC0100000, 5000)) (by simp) rfl)) (.defrag rfl)
  exact ⟨_, hrun, rfl, (address_space_partition hinit hrun).1⟩

end Vma
