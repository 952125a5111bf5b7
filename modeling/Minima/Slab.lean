/-
The slab allocator (`mm/slab.c`).

`slab_alloc` and `slab_free` serve requests of up to a page from slabs, page
frames cut into chunks of one of ten sizes.  The free chunks of a slab are
linked through their first word; the `slab_meta` of a slab is a 32-byte chunk
of another slab, except for the static `bootstrap_meta`.

The functions below are those of the source, over a state that holds the
memory words, the free page frames and the ten lists of `slab_meta`s.  A
`slab_meta` is a record that knows its own address; the links of the free
chunks are in memory, where a stray write would break them.

* `doSlabAlloc`, `doSlabFree`, `slabInit` — the functions of the source;
* `Represents` — a state represents a table of slabs when every freelist is
  the chain of the free chunks of its slab;
* `doSlabAlloc_refines`, `doSlabFree_refines` — a call that returns does to the
  table what the policy says, and the chains survive.
-/
import Minima.SlabPolicy
import Minima.Memory
import Mathlib.Tactic.IntervalCases

open SlabSpace ListTable

namespace Slab

open Function List Multiset

/-! ### The functions of the source -/

/-- `chunk_sizes` -/
def chunkSizes : Fin 10 → ℕ := ![8, 16, 32, 64, 128, 256, 512, 1024, 2048, 4096]

/-- `sizeof(struct slab_meta)` -/
def sizeofMeta : ℕ := 20

/-- The loop of `round_up_pow2`, for at most `fuel` doublings. -/
def roundUpPow2From : ℕ → ℕ → ℕ → ℕ
  | 0, pow, _ => pow
  | fuel + 1, pow, v => if pow < v then roundUpPow2From fuel (pow * 2) v else pow

/-- `round_up_pow2`, for `v ≤ 2^31` (beyond that the shift of the source runs
out of the word, and no size gets there). -/
def roundUpPow2 (v : ℕ) : ℕ := roundUpPow2From 32 1 v

/-- `size_idx`; the `default` of the switch also takes `1`, `2` and `4`. -/
def sizeIdx (bytes : ℕ) : Fin 10 :=
  match roundUpPow2 bytes with
  | 8 => 0
  | 16 => 1
  | 32 => 2
  | 64 => 3
  | 128 => 4
  | 256 => 5
  | 512 => 6
  | 1024 => 7
  | 2048 => 8
  | _ => 9

/-- `struct slab_meta`, at the address `self`; its linkage is its place in the
list it is on. -/
structure SlabMeta where
  self : ℕ
  slab : ℕ
  freelist : ℕ
  freeSlots : ℕ
  deriving DecidableEq, Repr

/-- Memory, free frames and the lists `slabs[i]`. -/
structure State extends Memory where
  slabs : Fin 10 → List SlabMeta

/-- `chunk_put`; `free_slots` is a `uint16_t`. -/
def chunkPut (m : SlabMeta) (chunk : ℕ) (s : Memory) : SlabMeta × Memory :=
  ({ m with freelist := chunk, freeSlots := (m.freeSlots + 1) % 2 ^ 16 },
    s.store chunk m.freelist)

/-- `chunk_get` -/
def chunkGet (m : SlabMeta) (slotSize : ℕ) (s : Memory) : Except Fault (ℕ × SlabMeta × Memory) :=
  let chunk := m.freelist
  if chunk = 0 then .error .nullPointer
  else
    .ok (chunk,
      { m with freelist := s.mem chunk, freeSlots := (m.freeSlots + 2 ^ 16 - 1) % 2 ^ 16 },
      s.memset chunk slotSize)

/-- The chunks `prepare_slab` puts on the freelist, in this order. -/
def chunkAddrs (slab slotSize : ℕ) : List ℕ :=
  (List.range (pageSize / slotSize)).map fun i => slab + i * slotSize

/-- `prepare_slab` on the `slab_meta` at `self`.  Without a frame the first
`chunk_put` stores through `NULL`. -/
def prepareSlab (self slotSize : ℕ) (s : Memory) : Except Fault (SlabMeta × Memory) :=
  let (slab, s) := s.pfAlloc
  if slab = 0 then .error .nullPointer
  else
    .ok ((chunkAddrs slab slotSize).foldl (fun (m, s) chunk => chunkPut m chunk s)
      (⟨self, slab, 0, 0⟩, s))

/-- `slot_size == round_up_pow2(sizeof(*m)) && m->freelist && !m->freelist->next` -/
def lastOfHost (slotSize : ℕ) (s : Memory) (m : SlabMeta) : Bool :=
  slotSize = roundUpPow2 sizeofMeta ∧ m.freelist ≠ 0 ∧ s.mem m.freelist = 0

/-- `grab_a_slab`, given the `do_slab_alloc` it calls. -/
def grabASlab (alloc : ℕ → State → Except Fault (ℕ × State)) (slotSize : ℕ) (s : State) :
    Except Fault (SlabMeta × State) := do
  let (self, s) ← alloc sizeofMeta s
  let (m, mem) ← prepareSlab self slotSize s.toMemory
  return (m, { s with toMemory := mem })

/-- `do_slab_alloc`, for at most `fuel` nested calls.  The scan of the list
stops at the first slab that is down to the last chunk that can hold a
`slab_meta`, or has a free slot. -/
def doSlabAlloc : ℕ → ℕ → State → Except Fault (ℕ × State)
  | 0, _, _ => .error .diverged
  | fuel + 1, bytes, s =>
    let size := sizeIdx bytes
    let slotSize := chunkSizes size
    match splitFirst (fun m => lastOfHost slotSize s.toMemory m || m.freeSlots != 0)
        (s.slabs size) with
    | some (pre, m, post) =>
      if lastOfHost slotSize s.toMemory m then do
        let (chunk, m, mem) ← chunkGet m slotSize s.toMemory
        let (eager, mem) ← prepareSlab chunk slotSize mem
        let (p, eager, mem) ← chunkGet eager slotSize mem
        return (p, ⟨mem, update s.slabs size (pre ++ m :: post ++ [eager])⟩)
      else do
        let (p, m, mem) ← chunkGet m slotSize s.toMemory
        return (p, ⟨mem, update s.slabs size (pre ++ m :: post)⟩)
    | none => do
      let (new, s) ← grabASlab (doSlabAlloc fuel) slotSize s
      let (p, new, mem) ← chunkGet new slotSize s.toMemory
      return (p, ⟨mem, update s.slabs size (s.slabs size ++ [new])⟩)

/-- The two nested loops of `do_slab_free`: the first slab with the page of the
pointer, and where it is. -/
def findSlab (page : ℕ) (slabs : Fin 10 → List SlabMeta) :
    Option (Fin 10 × List SlabMeta × SlabMeta × List SlabMeta) :=
  (List.finRange 10).findSome? fun size =>
    (splitFirst (fun m => m.slab = page) (slabs size)).map fun found => (size, found)

/-- `do_slab_free`, for at most `fuel` nested calls. -/
def doSlabFree : ℕ → ℕ → State → Except Fault State
  | 0, _, _ => .error .diverged
  | fuel + 1, ptr, s =>
    match findSlab (pageRoundDn ptr) s.slabs with
    | none => .ok s
    | some (size, pre, m, post) =>
      let (m, mem) := chunkPut m ptr s.toMemory
      if m.freeSlots = pageSize / chunkSizes size then
        doSlabFree fuel m.self
          ⟨mem.pfFree m.slab, update s.slabs size (pre ++ post)⟩
      else .ok ⟨mem, update s.slabs size (pre ++ m :: post)⟩

/-- `slab_init`, with `bootstrap_meta` at the address `boot`. -/
def slabInit (boot : ℕ) (s : Memory) : Except Fault State := do
  let (m, mem) ← prepareSlab boot (roundUpPow2 sizeofMeta) s
  return ⟨mem, update (fun _ => []) (sizeIdx (roundUpPow2 sizeofMeta)) [m]⟩

/-! ### Size classes -/

variable {v : ℕ}

theorem roundUpPow2From_spec (fuel pow : ℕ) (hpow : 0 < pow) (h : v ≤ pow * 2 ^ fuel) :
    ∃ k ≤ fuel, roundUpPow2From fuel pow v = pow * 2 ^ k ∧ v ≤ pow * 2 ^ k ∧
      ∀ j < k, pow * 2 ^ j < v := by
  induction fuel generalizing pow with
  | zero => exact ⟨0, le_rfl, by simp [roundUpPow2From], by simpa using h, by simp⟩
  | succ fuel ih =>
    rw [roundUpPow2From]
    by_cases hlt : pow < v
    · rw [if_pos hlt]
      obtain ⟨k, hk, heq, hle, hmin⟩ := ih (pow * 2) (by omega)
        (by rwa [Nat.mul_assoc, ← Nat.pow_succ'])
      rw [Nat.mul_assoc, ← Nat.pow_succ'] at heq hle
      refine ⟨k + 1, by omega, heq, hle, fun j hj => ?_⟩
      cases j with
      | zero => simpa using hlt
      | succ j =>
        have := hmin j (by omega)
        rwa [Nat.mul_assoc, ← Nat.pow_succ'] at this
    · rw [if_neg hlt]
      exact ⟨0, by omega, by simp, by simp; omega, by simp⟩

theorem roundUpPow2From_least (h : v ≤ 2 ^ 31) :
    ∃ k, (∀ fuel, 31 ≤ fuel → roundUpPow2From fuel 1 v = 2 ^ k) ∧ v ≤ 2 ^ k ∧
      ∀ j < k, 2 ^ j < v := by
  have hfrom := fun fuel (hfuel : 31 ≤ fuel) => roundUpPow2From_spec (v := v) fuel 1 one_pos (by
    rw [Nat.one_mul]
    exact h.trans (Nat.pow_le_pow_right two_pos hfuel))
  simp only [Nat.one_mul] at hfrom
  obtain ⟨k, -, -, hle, hmin⟩ := hfrom 31 le_rfl
  refine ⟨k, fun fuel hfuel => ?_, hle, hmin⟩
  -- another exponent would not be the least
  obtain ⟨k', -, heq, hle', hmin'⟩ := hfrom fuel hfuel
  have hk : ¬ k < k' := fun hlt => (hmin' k hlt).not_ge hle
  have hk' : ¬ k' < k := fun hlt => (hmin k' hlt).not_ge hle'
  rw [heq, Nat.le_antisymm (not_lt.mp hk) (not_lt.mp hk')]

variable {n : ℕ}

theorem roundUpPow2_spec (h : n ≤ 4096) :
    ∃ k ≤ 12, roundUpPow2 n = 2 ^ k ∧ n ≤ 2 ^ k ∧ ∀ j < k, 2 ^ j < n := by
  obtain ⟨k, heq, hle, hmin⟩ := roundUpPow2From_least (v := n) (by omega)
  refine ⟨k, ?_, heq 32 (by decide), hle, hmin⟩
  by_contra hk
  have := hmin 12 (by omega)
  omega

theorem le_chunkSizes (h : n ≤ 4096) : n ≤ chunkSizes (sizeIdx n) := by
  obtain ⟨k, hk, heq, hle, -⟩ := roundUpPow2_spec h
  rw [sizeIdx, heq]
  interval_cases k <;> simp [chunkSizes] at hle ⊢ <;> omega

/-- Slots of class `i` are the smallest that `n` bytes fit into, and waste less than half. -/
def Tight (n : ℕ) (i : Fin 10) : Prop :=
  n ≤ chunkSizes i ∧ (∀ j, n ≤ chunkSizes j → chunkSizes i ≤ chunkSizes j) ∧
    chunkSizes i ≤ max 8 (2 * n - 1)

/-- The sizes up to 4 are rounded up to a power of two that is not in the switch. -/
theorem tight_sizeIdx_iff (h : n ≤ 4096) : Tight n (sizeIdx n) ↔ 5 ≤ n := by
  obtain ⟨k, hk, heq, hle, hmin⟩ := roundUpPow2_spec h
  rw [sizeIdx, heq]
  cases k with
  | zero => simp [Tight, chunkSizes, Fin.forall_fin_succ]; omega
  | succ k =>
    have hlt := hmin k (Nat.lt_succ_self k)
    have hk : k ≤ 11 := by omega
    interval_cases k <;> simp [Tight, chunkSizes, Fin.forall_fin_succ] at hle hlt ⊢ <;> omega

/-! ### Chains of free chunks -/

/-- The sizes of the kernel's allocator. -/
def kernel (boot : ℕ) : Layout (Fin 10) where
  page := pageSize
  slot := chunkSizes
  host := 2
  boot := boot
  slot_pos := by decide
  slot_dvd := by decide
  page_pos := by decide

/-- A `slab_meta` stands for a slab: its freelist is the chain of the slab's
free chunks and `free_slots` counts them. -/
structure RepMeta (mem : ℕ → ℕ) (m : SlabMeta) (a : Slab) : Prop where
  self : m.self = a.record
  slab : m.slab = a.page
  freeSlots : m.freeSlots = a.free.length
  chain : Chain mem 0 m.freelist a.free

/-- **The state represents the table**: list by list, every `slab_meta` stands
for its slab. -/
def Represents (s : State) (g : Fin 10 → List Slab) : Prop :=
  ∀ i, List.Forall₂ (RepMeta s.mem) (s.slabs i) (g i)

variable {s s' : Memory} {m m' : SlabMeta} {a : Slab} {slot c p : ℕ}

variable {mem mem' : ℕ → ℕ}

theorem RepMeta.congr (h : RepMeta mem m a) (heq : ∀ c ∈ a.free, mem' c = mem c) :
    RepMeta mem' m a :=
  ⟨h.self, h.slab, h.freeSlots, h.chain.congr heq⟩

theorem chunkPut_rep (h : RepMeta s.mem m a) (hc : c ≠ 0) (hoff : c ∉ a.free)
    (hlen : a.free.length + 1 < 2 ^ 16) :
    RepMeta (chunkPut m c s).2.mem (chunkPut m c s).1 { a with free := c :: a.free } := by
  refine ⟨h.self, h.slab, ?_, rfl, hc, ?_⟩
  · simp only [chunkPut, h.freeSlots, length_cons]
    exact Nat.mod_eq_of_lt hlen
  · simpa [chunkPut, Memory.store] using h.chain.update hoff m.freelist

theorem chunkGet_eq_ok : chunkGet m slot s = .ok (p, m', s') ↔
    p ≠ 0 ∧ p = m.freelist ∧ s' = s.memset p slot ∧
      m' = { m with freelist := s.mem p, freeSlots := (m.freeSlots + 2 ^ 16 - 1) % 2 ^ 16 } := by
  unfold chunkGet
  by_cases hnull : m.freelist = 0
  · simp only [hnull, if_true, reduceCtorEq, false_iff]
    rintro ⟨hp, rfl, -⟩
    exact hp rfl
  · simp only [hnull, if_false, Except.ok.injEq, Prod.mk.injEq]
    constructor
    · rintro ⟨rfl, rfl, rfl⟩
      exact ⟨hnull, rfl, rfl, rfl⟩
    · rintro ⟨-, rfl, rfl, rfl⟩
      exact ⟨rfl, rfl, rfl⟩

theorem chunkGet_ok (hget : chunkGet m slot s = .ok (p, m', s')) (h : RepMeta s.mem m a)
    (hsep : ∀ c ∈ a.free, p ∈ a.free → c ≠ p → ¬ (p ≤ c ∧ c < p + slot))
    (hlen : a.free.length < 2 ^ 16) :
    s' = s.memset p slot ∧ ∃ fr, a.free = p :: fr ∧ RepMeta s'.mem m' { a with free := fr } := by
  obtain ⟨hnull, rfl, rfl, rfl⟩ := chunkGet_eq_ok.mp hget
  obtain ⟨fr, hfr, hchain⟩ := h.chain.eq_cons hnull
  refine ⟨rfl, fr, hfr, h.self, h.slab, ?_, ?_⟩
  · simp only [h.freeSlots, hfr, length_cons] at hlen ⊢
    omega
  · have hnd := h.chain.nodup
    rw [hfr, List.nodup_cons] at hnd
    refine hchain.congr fun c hc => ?_
    have hne : c ≠ m.freelist := fun heq => hnd.1 (heq ▸ hc)
    have hfar := hsep c (by simp [hfr, hc]) (by simp [hfr]) hne
    simp [Memory.memset, hfar]

theorem chunkGet_of_free (slot : ℕ) (h : RepMeta s.mem m a) (hfree : a.free ≠ []) :
    ∃ r, chunkGet m slot s = .ok r := by
  have hnull : m.freelist ≠ 0 := by
    intro heq
    have := h.chain
    rw [heq] at this
    exact hfree this.eq_nil_of_null
  simp [chunkGet, hnull]

theorem chunkPut_foldl {l : List ℕ} (h : RepMeta s.mem m a) (hnull : ∀ c ∈ l, c ≠ 0)
    (hnd : l.Nodup) (hoff : ∀ c ∈ l, c ∉ a.free) (hlen : a.free.length + l.length < 2 ^ 16) :
    let r := l.foldl (fun (x : SlabMeta × Memory) chunk => chunkPut x.1 chunk x.2) (m, s)
    RepMeta r.2.mem r.1 { a with free := l.reverse ++ a.free } ∧
      r.2.pageFreelist = s.pageFreelist ∧ ∀ x ∉ l, r.2.mem x = s.mem x := by
  induction l generalizing m s a with
  | nil => exact ⟨h, rfl, fun _ _ => rfl⟩
  | cons c l ih =>
    rw [List.nodup_cons] at hnd
    rw [List.length_cons] at hlen
    have hput := chunkPut_rep h (hnull c List.mem_cons_self) (hoff c List.mem_cons_self) (by omega)
    have hoff' : ∀ x ∈ l, x ∉ c :: a.free := by
      intro x hx hmem
      rcases mem_cons.mp hmem with rfl | hmem
      · exact hnd.1 hx
      · exact hoff x (mem_cons_of_mem _ hx) hmem
    obtain ⟨hrep, hfl, hmem⟩ :=
      ih hput (fun x hx => hnull x (mem_cons_of_mem _ hx)) hnd.2 hoff'
      (by simp only [length_cons]; omega)
    refine ⟨by simpa using hrep, hfl, fun x hx => ?_⟩
    rw [List.mem_cons, not_or] at hx
    exact (hmem x hx.2).trans (Function.update_of_ne hx.1 _ _)

variable {boot : ℕ} {i : Fin 10}

theorem slots_lt (i : Fin 10) : pageSize / chunkSizes i < 2 ^ 16 := by
  revert i
  decide

variable {f : ℕ}

theorem chunk_clear (hp : p ∈ (kernel boot).chunks i f) (hc : c ∈ (kernel boot).chunks i f)
    (hne : c ≠ p) : ¬ (p ≤ c ∧ c < p + chunkSizes i) := by
  have hsep : p + chunkSizes i ≤ c ∨ c + chunkSizes i ≤ p := chunks_separate hp hc hne.symm
  omega

variable {self : ℕ} {s1 : Memory}

theorem prepareSlab_ok (boot : ℕ) (hprep : prepareSlab self (chunkSizes i) s = .ok (m, s1)) :
    ∃ f fl, s.pageFreelist = f :: fl ∧ s1.pageFreelist = fl ∧
      RepMeta s1.mem m ⟨self, f, ((kernel boot).chunks i f).reverse⟩ ∧
      ∀ x ∉ (kernel boot).chunks i f, s1.mem x = s.mem x := by
  unfold prepareSlab Memory.pfAlloc at hprep
  cases hfl : s.pageFreelist with
  | nil => simp [hfl] at hprep
  | cons f fl =>
    by_cases hf : f = 0
    · simp [hfl, hf] at hprep
    simp only [hfl, hf, if_false, Except.ok.injEq] at hprep
    have hempty : RepMeta s.mem ⟨self, f, 0, 0⟩ ⟨self, f, []⟩ := ⟨rfl, rfl, rfl, rfl⟩
    have hfold := chunkPut_foldl (s := { s with pageFreelist := fl })
      (l := (kernel boot).chunks i f) hempty ?_ nodup_chunks (by simp) ?_
    · have hr : chunkAddrs f (chunkSizes i) = (kernel boot).chunks i f := rfl
      rw [hr] at hprep
      simp only [append_nil] at hfold
      rw [hprep] at hfold
      exact ⟨f, fl, rfl, hfold.2.1, hfold.1, hfold.2.2⟩
    · intro c hc
      have := le_of_mem_chunks hc
      omega
    · rw [length_chunks, length_nil, Nat.zero_add]
      exact slots_lt i

/-- **A new slab** and the chunk taken from it: the chunks of a fresh page, all
but one of them free. -/
theorem newSlab_ok (boot : ℕ) (hprep : prepareSlab self (chunkSizes i) s = .ok (m, s1))
    (hget : chunkGet m (chunkSizes i) s1 = .ok (p, m', s'))
    (hframes : ∀ f ∈ s.pageFreelist, pageSize ∣ f) :
    ∃ f fl fr, s.pageFreelist = f :: fl ∧ s'.pageFreelist = fl ∧
      (p :: fr).Perm ((kernel boot).chunks i f) ∧ RepMeta s'.mem m' ⟨self, f, fr⟩ ∧
      ∀ x, pageRoundDn x ≠ f → s'.mem x = s.mem x := by
  obtain ⟨f, fl, hfl, hfl1, hrep, hmem⟩ := prepareSlab_ok boot hprep
  have hf : (kernel boot).page ∣ f := hframes f (by rw [hfl]; exact mem_cons_self)
  obtain ⟨rfl, fr, hfr, hrep'⟩ := chunkGet_ok hget hrep
    (fun c hc hp hne => chunk_clear (mem_reverse.mp hp) (mem_reverse.mp hc) hne)
    (by rw [length_reverse, length_chunks]; exact slots_lt i)
  have hperm : (p :: fr).Perm ((kernel boot).chunks i f) := by
    rw [show p :: fr = ((kernel boot).chunks i f).reverse from hfr.symm]
    exact reverse_perm _
  refine ⟨f, fl, fr, hfl, hfl1, hperm, hrep', fun x hx => ?_⟩
  have hxc : x ∉ (kernel boot).chunks i f := fun hc => hx (page_of_chunk hf hc)
  have hxp : ¬ (p ≤ x ∧ x < p + chunkSizes i) := fun hin =>
    hx (page_of_mem_chunks hf (hperm.mem_iff.mp mem_cons_self) hin.1 hin.2)
  simp [Memory.memset, hxp, hmem x hxc]

/-! ### Editing a represented table -/

variable {α β : Type*} {x : α} {R : α → β → Prop}

theorem forall₂_split {l1 l2 : List α} {u : List β} (h : List.Forall₂ R (l1 ++ x :: l2) u) :
    ∃ u1 y u2, u = u1 ++ y :: u2 ∧ List.Forall₂ R l1 u1 ∧ R x y ∧ List.Forall₂ R l2 u2 := by
  induction l1 generalizing u with
  | nil =>
    obtain ⟨y, u2, hxy, hu2, rfl⟩ := forall₂_cons_left_iff.mp h
    exact ⟨[], y, u2, rfl, .nil, hxy, hu2⟩
  | cons z l1 ih =>
    obtain ⟨w, u', hzw, hu', rfl⟩ := forall₂_cons_left_iff.mp h
    obtain ⟨u1, y, u2, rfl, h1, hxy, h2⟩ := ih hu'
    exact ⟨w :: u1, y, u2, rfl, .cons hzw h1, hxy, h2⟩

theorem forall₂_exists_left {l : List α} {u : List β} (h : List.Forall₂ R l u) {y : β}
    (hy : y ∈ u) :
    ∃ x ∈ l, R x y := by
  induction h with
  | nil => simp at hy
  | @cons x y' l u hxy _ ih =>
    rcases mem_cons.mp hy with rfl | hy
    · exact ⟨x, mem_cons_self, hxy⟩
    · obtain ⟨x', hx', hR⟩ := ih hy
      exact ⟨x', mem_cons_of_mem _ hx', hR⟩

theorem forall₂_exists_right {l : List α} {u : List β} (h : List.Forall₂ R l u) (hx : x ∈ l) :
    ∃ y ∈ u, R x y :=
  forall₂_exists_left h.flip hx

variable {u : List Slab} {l : List SlabMeta}

/-- **Frame rule.**  Lists whose free chunks keep their links. -/
theorem forall₂_frame (h : List.Forall₂ (RepMeta mem) l u)
    (heq : ∀ a ∈ u, ∀ c ∈ a.free, mem' c = mem c) : List.Forall₂ (RepMeta mem') l u := by
  induction h with
  | nil => exact .nil
  | cons hma _ ih =>
    exact .cons (hma.congr (heq _ mem_cons_self))
      (ih fun a ha => heq a (mem_cons_of_mem _ ha))

variable {σ : State} {g : Fin 10 → List Slab} {live : Multiset (Fin 10 × ℕ)}
  {pre post : List SlabMeta} {gpre gpost : List Slab}

theorem Represents.edit (h : Represents σ g) (ho : (kernel boot).Owned σ.pageFreelist g live)
    (hmem : ∀ x, pageRoundDn x ≠ f → s'.mem x = σ.mem x) (hpage : ∀ j ≠ i, ∀ b ∈ g j, b.page ≠ f)
    (hlu : List.Forall₂ (RepMeta s'.mem) l u) :
    Represents ⟨s', update σ.slabs i l⟩ (update g i u) := by
  intro j
  by_cases hj : j = i
  · subst hj
    simpa using hlu
  · simp only [update_of_ne hj]
    refine forall₂_frame (h j) fun b hb c hc => hmem c ?_
    have hc' : pageRoundDn c = b.page :=
      page_of_chunk (ho.page_ok j b hb).1 (ho.free_sub j b hb c hc)
    rw [hc']
    exact hpage j hj b hb

theorem forall₂_off_page (ho : (kernel boot).Owned σ.pageFreelist g live)
    (hu : ∀ b ∈ u, b ∈ g i ∧ b.page ≠ f) (hmem : ∀ x, pageRoundDn x ≠ f → s'.mem x = σ.mem x)
    (h : List.Forall₂ (RepMeta σ.mem) l u) : List.Forall₂ (RepMeta s'.mem) l u := by
  refine forall₂_frame h fun b hb c hc => hmem c ?_
  obtain ⟨hbg, hbf⟩ := hu b hb
  have hc' : pageRoundDn c = b.page :=
    page_of_chunk (ho.page_ok i b hbg).1 (ho.free_sub i b hbg c hc)
  rwa [hc']

theorem page_ne (ho : (kernel boot).Owned σ.pageFreelist g live) (hg : g i = gpre ++ a :: gpost) :
    (∀ j ≠ i, ∀ b ∈ g j, b.page ≠ a.page) ∧ ∀ b ∈ gpre ++ gpost, b ∈ g i ∧ b.page ≠ a.page := by
  have ha : a ∈ g i := by simp [hg]
  refine ⟨fun j hj b hb heq => hj (ho.same_slab hb ha heq).2, fun b hb => ?_⟩
  have hbg : b ∈ g i := by
    rcases mem_append.mp hb with hb | hb
    · simp [hg, hb]
    · simp [hg, hb]
  refine ⟨hbg, fun heq => ?_⟩
  obtain ⟨rfl, -⟩ := ho.same_slab hbg ha heq
  have hnd : (g i).Nodup := ho.nodup_slabs
  rw [hg, List.nodup_middle, List.nodup_cons] at hnd
  exact hnd.1 hb

variable {a' : Slab}

section

variable (h : Represents σ g) (ho : (kernel boot).Owned σ.pageFreelist g live)
include h ho

theorem Represents.replace (hg : g i = gpre ++ a :: gpost)
    (hpre : List.Forall₂ (RepMeta σ.mem) pre gpre) (hpost : List.Forall₂ (RepMeta σ.mem) post gpost)
    (hmem : ∀ x, pageRoundDn x ≠ a.page → s'.mem x = σ.mem x) (hm : RepMeta s'.mem m' a') :
    Represents ⟨s', update σ.slabs i (pre ++ m' :: post)⟩
      (update g i (gpre ++ a' :: gpost)) := by
  obtain ⟨hother, hsame⟩ := page_ne ho hg
  refine h.edit ho hmem hother (rel_append ?_ (.cons hm ?_))
  · exact forall₂_off_page ho (fun b hb => hsame b (mem_append_left _ hb)) hmem hpre
  · exact forall₂_off_page ho (fun b hb => hsame b (mem_append_right _ hb)) hmem hpost

theorem Represents.unlink (hg : g i = gpre ++ a :: gpost)
    (hpre : List.Forall₂ (RepMeta σ.mem) pre gpre) (hpost : List.Forall₂ (RepMeta σ.mem) post gpost)
    (hmem : ∀ x, pageRoundDn x ≠ a.page → s'.mem x = σ.mem x) :
    Represents ⟨s', update σ.slabs i (pre ++ post)⟩
      (update g i (gpre ++ gpost)) := by
  obtain ⟨hother, hsame⟩ := page_ne ho hg
  exact h.edit ho hmem hother (forall₂_off_page ho hsame hmem (rel_append hpre hpost))

theorem Represents.concat (hf : f ∈ σ.pageFreelist)
    (hmem : ∀ x, pageRoundDn x ≠ f → s'.mem x = σ.mem x) (hm : RepMeta s'.mem m' a') :
    Represents ⟨s', update σ.slabs i (σ.slabs i ++ [m'])⟩
      (update g i (g i ++ [a'])) := by
  have hfresh : ∀ j, ∀ b ∈ g j, b.page ≠ f := by
    rintro j b hb rfl
    have hdisj := (nodup_add.mp ho.frames_nodup).2.2
    exact disjoint_left.mp hdisj (mem_coe.mpr hf)
      (mem_total.mpr ⟨j, b, hb, by simp⟩)
  refine h.edit ho hmem (fun j _ => hfresh j) (rel_append ?_ (.cons hm .nil))
  exact forall₂_off_page ho (fun b hb => ⟨hb, hfresh i b hb⟩) hmem (h i)

end

/-! ### The calls refine the policy -/

theorem chunkSizes_eq_host (boot : ℕ) :
    chunkSizes i = roundUpPow2 sizeofMeta ↔ i = (kernel boot).host := by
  have h : ∀ i : Fin 10, chunkSizes i = roundUpPow2 sizeofMeta ↔ i = 2 := by decide
  exact h i

theorem sizeIdx_sizeofMeta (boot : ℕ) : sizeIdx sizeofMeta = (kernel boot).host :=
  show sizeIdx sizeofMeta = 2 by decide

theorem lastOfHost_iff (boot : ℕ) (h : RepMeta s.mem m a) :
    lastOfHost (chunkSizes i) s m = true ↔ i = (kernel boot).host ∧ ∃ r, a.free = [r] := by
  rw [lastOfHost, decide_eq_true_iff, chunkSizes_eq_host boot]
  refine and_congr_right fun _ => ?_
  constructor
  · rintro ⟨hnull, hnext⟩
    obtain ⟨fr, hfr, hchain⟩ := h.chain.eq_cons hnull
    rw [hnext] at hchain
    exact ⟨m.freelist, by rw [hfr, hchain.eq_nil_of_null]⟩
  · rintro ⟨r, hr⟩
    have hchain := h.chain
    rw [hr] at hchain
    obtain ⟨rfl, hnull, hnext⟩ := hchain
    exact ⟨hnull, hnext⟩

theorem free_eq_nil_of_skipped (h : RepMeta s.mem m a)
    (hskip : (lastOfHost (chunkSizes i) s m || m.freeSlots != 0) = false) : a.free = [] := by
  rw [Bool.or_eq_false_iff, bne_eq_false_iff_eq, h.freeSlots] at hskip
  exact eq_nil_of_length_eq_zero hskip.2

theorem forall₂_skipped (h : List.Forall₂ (RepMeta s.mem) l u)
    (hskip : ∀ m ∈ l, (lastOfHost (chunkSizes i) s m || m.freeSlots != 0) = false) :
    ∀ a ∈ u, a.free = [] := by
  induction h with
  | nil => simp
  | cons hma _ ih =>
    intro a ha
    rcases mem_cons.mp ha with rfl | ha
    · exact free_eq_nil_of_skipped hma (hskip _ mem_cons_self)
    · exact ih (fun m hm => hskip m (mem_cons_of_mem _ hm)) a ha

theorem chunkGet_slab (h : Represents σ g) (ho : (kernel boot).Owned σ.pageFreelist g live)
    (hg : g i = gpre ++ a :: gpost) (hpre : List.Forall₂ (RepMeta σ.mem) pre gpre)
    (hpost : List.Forall₂ (RepMeta σ.mem) post gpost) (hm : RepMeta σ.mem m a)
    (hget : chunkGet m (chunkSizes i) σ.toMemory = .ok (p, m', s')) :
    ∃ fr, a.free = p :: fr ∧ s'.pageFreelist = σ.pageFreelist ∧
      (∀ x, pageRoundDn x ≠ a.page → s'.mem x = σ.mem x) ∧
      Represents ⟨s', update σ.slabs i (pre ++ m' :: post)⟩
        (update g i (gpre ++ { a with free := fr } :: gpost)) := by
  have ha : a ∈ g i := by simp [hg]
  have hsub := ho.free_sub i a ha
  obtain ⟨rfl, fr, hfr, hm'⟩ := chunkGet_ok hget hm
    (fun c hc hp hne => chunk_clear (hsub p hp) (hsub c hc) hne)
    ((ho.length_free_le ha).trans_lt (slots_lt i))
  have hmem : ∀ x, pageRoundDn x ≠ a.page →
      (σ.toMemory.memset p (chunkSizes i)).mem x = σ.mem x := by
    intro x hx
    have hp : p ∈ (kernel boot).chunks i a.page := hsub p (by simp [hfr])
    have hxp : ¬ (p ≤ x ∧ x < p + chunkSizes i) := fun hin =>
      hx (page_of_mem_chunks (ho.page_ok i a ha).1 hp hin.1 hin.2)
    simp [Memory.memset, hxp]
  exact ⟨fr, hfr, rfl, hmem, h.replace ho hg hpre hpost hmem hm'⟩

theorem newSlab_slab (h : Represents σ g) (ho : (kernel boot).Owned σ.pageFreelist g live)
    (hprep : prepareSlab self (chunkSizes i) σ.toMemory = .ok (m, s1))
    (hget : chunkGet m (chunkSizes i) s1 = .ok (p, m', s')) :
    ∃ f fl fr, σ.pageFreelist = f :: fl ∧ s'.pageFreelist = fl ∧
      (p :: fr).Perm ((kernel boot).chunks i f) ∧
      (∀ x, pageRoundDn x ≠ f → s'.mem x = σ.mem x) ∧
      Represents ⟨s', update σ.slabs i (σ.slabs i ++ [m'])⟩
        (update g i (g i ++ [⟨self, f, fr⟩])) := by
  obtain ⟨f, fl, fr, hfl, hfl', hperm, hm', hmem⟩ := newSlab_ok boot hprep hget
    fun f hf => (ho.frame_ok f hf).1
  have hf : f ∈ σ.pageFreelist := by rw [hfl]; exact mem_cons_self
  exact ⟨f, fl, fr, hfl, hfl', hperm, hmem, h.concat ho hf hmem hm'⟩

/-- A call leaves memory alone outside the free frames and the pages of the
slabs. -/
def Confined (σ : State) (g : Fin 10 → List Slab) (s' : Memory) : Prop :=
  ∀ x, pageRoundDn x ∉ (σ.pageFreelist : Multiset ℕ) + pages g → s'.mem x = σ.mem x

theorem page_mem (fl : List ℕ) (ha : a ∈ g i) : a.page ∈ (fl : Multiset ℕ) + pages g :=
  mem_add.mpr (.inr (mem_total.mpr ⟨i, a, ha, by simp⟩))

theorem eager_refines {chunk q : ℕ} {m1 eager eager' : SlabMeta} {s2 s3 : Memory}
    (h : Represents σ g) (ho : (kernel boot).Owned σ.pageFreelist g live)
    (hg : g i = gpre ++ a :: gpost) (hskip : ∀ b ∈ gpre, b.free = [])
    (hpre : List.Forall₂ (RepMeta σ.mem) pre gpre) (hpost : List.Forall₂ (RepMeta σ.mem) post gpost)
    (hm : RepMeta σ.mem m a) (hlast : lastOfHost (chunkSizes i) σ.toMemory m = true)
    (hget : chunkGet m (chunkSizes i) σ.toMemory = .ok (chunk, m1, s1))
    (hprep : prepareSlab chunk (chunkSizes i) s1 = .ok (eager, s2))
    (hget' : chunkGet eager (chunkSizes i) s2 = .ok (q, eager', s3)) :
    ∃ g', (kernel boot).Alloc g σ.pageFreelist i q g' s3.pageFreelist ∧
      Represents ⟨s3, update σ.slabs i (pre ++ m1 :: post ++ [eager'])⟩ g' ∧
      Confined σ g s3 := by
  obtain ⟨hhost, r, hr⟩ := (lastOfHost_iff boot hm).mp hlast
  obtain ⟨fr, hfr, hfl, hmem, hrep⟩ := chunkGet_slab h ho hg hpre hpost hm hget
  obtain ⟨rfl, rfl⟩ : chunk = r ∧ fr = [] := by simpa [hr, eq_comm] using hfr
  have ho1 : (kernel boot).Owned s1.pageFreelist _ _ := hfl ▸ ho.take hg hr
  obtain ⟨f, fl, fr, hfl', hfl3, hperm, hmem', hrep'⟩ := newSlab_slab
    hrep ho1 hprep hget'
  simp only [update_self, update_idem] at hrep'
  have hfl1 : σ.pageFreelist = f :: fl := hfl.symm.trans hfl'
  have heager : (kernel boot).Alloc g (f :: fl) _ q _ fl :=
    .eager (hhost ▸ hg) hskip hr (hhost ▸ hperm)
  rw [← hhost] at heager
  refine ⟨_, by rw [hfl1, hfl3]; exact heager, hrep', fun x hx => (hmem' x ?_).trans (hmem x ?_)⟩
  · rintro rfl
    rw [hfl1] at hx
    exact hx (by simp)
  · exact fun heq => hx (heq ▸ page_mem σ.pageFreelist (i := i) (by simp [hg]))

theorem take_refines (h : Represents σ g) (ho : (kernel boot).Owned σ.pageFreelist g live)
    (hg : g i = gpre ++ a :: gpost) (hskip : ∀ b ∈ gpre, b.free = [])
    (hpre : List.Forall₂ (RepMeta σ.mem) pre gpre)
    (hpost : List.Forall₂ (RepMeta σ.mem) post gpost) (hm : RepMeta σ.mem m a)
    (hlast : ¬ lastOfHost (chunkSizes i) σ.toMemory m = true)
    (hget : chunkGet m (chunkSizes i) σ.toMemory = .ok (p, m', s')) :
    ∃ g', (kernel boot).Alloc g σ.pageFreelist i p g' s'.pageFreelist ∧
      Represents ⟨s', update σ.slabs i (pre ++ m' :: post)⟩ g' ∧ Confined σ g s' := by
  obtain ⟨fr, hfr, hfl, hmem, hrep⟩ := chunkGet_slab h ho hg hpre hpost hm hget
  refine ⟨_, ?_, hrep, fun x hx => hmem x fun heq =>
    hx (heq ▸ page_mem σ.pageFreelist (i := i) (by simp [hg]))⟩
  rw [hfl]
  refine .take hg hskip hfr fun hhost hnil => hlast ?_
  exact (lastOfHost_iff boot hm).mpr ⟨hhost, p, by rw [hfr, hnil]⟩

variable {fuel : ℕ} {σ' : State}

theorem doSlabAlloc_refines (hrun : doSlabAlloc fuel n σ = .ok (p, σ')) (h : Represents σ g)
    (ho : (kernel boot).Owned σ.pageFreelist g live) :
    ∃ g', (kernel boot).Alloc g σ.pageFreelist (sizeIdx n) p g' σ'.pageFreelist ∧
      Represents σ' g' ∧ Confined σ g σ'.toMemory := by
  induction fuel generalizing n p σ' with
  | zero => simp [doSlabAlloc] at hrun
  | succ fuel ih =>
    rw [doSlabAlloc] at hrun
    set i := sizeIdx n with hi
    cases hscan : splitFirst
        (fun m => lastOfHost (chunkSizes i) σ.toMemory m || m.freeSlots != 0) (σ.slabs i) with
    | some found =>
      obtain ⟨pre, m, post⟩ := found
      simp only [hscan] at hrun
      obtain ⟨hsplit, -, hskip⟩ := splitFirst_eq_some hscan
      obtain ⟨gpre, a, gpost, hg, hpre, hm, hpost⟩ := forall₂_split (hsplit ▸ h i)
      have hgpre := forall₂_skipped hpre hskip
      by_cases hlast : lastOfHost (chunkSizes i) σ.toMemory m = true
      · simp only [hlast, if_true, bind_eq_ok, Prod.exists, pure, Except.pure,
          Except.ok.injEq, Prod.mk.injEq] at hrun
        obtain ⟨chunk, m1, s1, hget, eager, s2, hprep, q, eager', s3, hget', rfl, rfl⟩ := hrun
        exact eager_refines h ho hg hgpre hpre hpost hm hlast hget hprep hget'
      · simp only [hlast, bind_eq_ok, Prod.exists, pure, Except.pure, Bool.false_eq_true, if_false,
          Except.ok.injEq, Prod.mk.injEq] at hrun
        obtain ⟨q, m1, s1, hget, rfl, rfl⟩ := hrun
        exact take_refines h ho hg hgpre hpre hpost hm hlast hget
    | none =>
      simp only [hscan, grabASlab, bind_eq_ok, Prod.exists, pure, Except.pure, Except.ok.injEq,
        Prod.mk.injEq] at hrun
      obtain ⟨new, σ2, ⟨self, σ1, halloc, m1, s2, hprep, rfl, rfl⟩, q, new', s3, hget, rfl, rfl⟩ :=
        hrun
      have hnone := forall₂_skipped (h i) (splitFirst_eq_none.mp hscan)
      obtain ⟨g1, hpolicy, hrep1, hmem1⟩ := ih halloc
      -- the hosting class never finds a chunk for itself this way
      have hne : i ≠ (kernel boot).host := by
        intro hhost
        obtain ⟨a, ha, hfree⟩ := hpolicy.exists_free rfl
        exact hfree (hnone a (hhost ▸ ha))
      obtain ⟨f, fl, fr, hfl, hfl3, hperm, hmem, hrep⟩ :=
        newSlab_slab hrep1 (ho.alloc hpolicy) hprep hget
      refine ⟨_, ?_, hrep, fun x hx => (hmem x ?_).trans (hmem1 x hx)⟩
      · rw [hfl] at hpolicy
        simp only [hfl3]
        exact .grow hne hnone hpolicy hperm
      · rintro rfl
        rw [hpolicy.pages_eq, hfl] at hx
        exact hx (by simp)

variable {page : ℕ} {slabs : Fin 10 → List SlabMeta}

theorem findSlab_eq_some (h : findSlab page slabs = some (i, pre, m, post)) :
    slabs i = pre ++ m :: post ∧ m.slab = page := by
  obtain ⟨j, -, hj⟩ := exists_of_findSome?_eq_some h
  rw [Option.map_eq_some_iff] at hj
  obtain ⟨found, hfound, heq⟩ := hj
  obtain ⟨rfl, rfl⟩ := heq
  obtain ⟨hsplit, hpage, -⟩ := splitFirst_eq_some hfound
  exact ⟨hsplit, by simpa using hpage⟩

theorem findSlab_eq_none (h : findSlab page slabs = none) : ∀ i, ∀ m ∈ slabs i, m.slab ≠ page := by
  intro i m hm
  have hi := findSome?_eq_none_iff.mp h i (mem_finRange i)
  rw [Option.map_eq_none_iff] at hi
  simpa using splitFirst_eq_none.mp hi m hm

variable {held : Multiset (Fin 10 × ℕ)}

theorem chunkPut_slab (ho : (kernel boot).Owned σ.pageFreelist g (held + live))
    (hheld : (kernel boot).Held p held) (hg : g i = gpre ++ a :: gpost)
    (hpage : a.page = pageRoundDn p) (hm : RepMeta σ.mem m a) :
    RepMeta (chunkPut m p σ.toMemory).2.mem (chunkPut m p σ.toMemory).1
        { a with free := p :: a.free } ∧
      ∀ x, pageRoundDn x ≠ a.page → (chunkPut m p σ.toMemory).2.mem x = σ.mem x := by
  have ha : a ∈ g i := by simp [hg]
  obtain ⟨rfl, hp⟩ := ho.held_chunk hheld ha hpage
  have hoff : p ∉ a.free := ho.live_not_free (b := (i, p)) (by simp) ha
  have hnull : p ≠ 0 := by
    have := le_of_mem_chunks hp
    have := (ho.page_ok i a ha).2
    omega
  have hlen := (ho.put hheld hg hpage).length_free_le (i := i)
    (s := { a with free := p :: a.free }) (by simp)
  refine ⟨chunkPut_rep hm hnull hoff (hlen.trans_lt (slots_lt i)), fun x hx => ?_⟩
  -- only the first word of the block has changed
  have hxp : x ≠ p := by
    rintro rfl
    exact hx hpage.symm
  exact update_of_ne hxp _ _

theorem pfFree_off_page {x : ℕ} (hpage : page % pageSize = 0) (hx : pageRoundDn x ≠ page) :
    (s.pfFree page).mem x = s.mem x := by
  have hne : x ≠ page := by
    rintro rfl
    exact hx (Nat.div_mul_cancel (Nat.dvd_of_mod_eq_zero hpage))
  exact update_of_ne hne _ _

theorem doSlabFree_refines (hrun : doSlabFree fuel p σ = .ok σ') (h : Represents σ g)
    (ho : (kernel boot).Owned σ.pageFreelist g (held + live)) (hheld : (kernel boot).Held p held) :
    ∃ g', (kernel boot).Free g σ.pageFreelist p g' σ'.pageFreelist ∧ Represents σ' g' ∧
      Confined σ g σ'.toMemory := by
  induction fuel generalizing p σ g held with
  | zero => simp [doSlabFree] at hrun
  | succ fuel ih =>
    rw [doSlabFree] at hrun
    cases hfind : findSlab (pageRoundDn p) σ.slabs with
    | none =>
      simp only [hfind, Except.ok.injEq] at hrun
      subst hrun
      refine ⟨g, .miss fun i a ha => ?_, h, fun _ _ => rfl⟩
      obtain ⟨m, hm, hrep⟩ := forall₂_exists_left (h i) ha
      rw [← hrep.slab]
      exact findSlab_eq_none hfind i m hm
    | some found =>
      obtain ⟨i, pre, m, post⟩ := found
      obtain ⟨hsplit, hslab⟩ := findSlab_eq_some hfind
      obtain ⟨gpre, a, gpost, hg, hpre, hm, hpost⟩ := forall₂_split (hsplit ▸ h i)
      have ha : a ∈ g i := by simp [hg]
      have hpage : a.page = pageRoundDn p := hm.slab.symm.trans hslab
      have hmine := page_mem σ.pageFreelist ha
      obtain ⟨hput, hmem⟩ := chunkPut_slab ho hheld hg hpage hm
      have hcount : (chunkPut m p σ.toMemory).1.freeSlots = a.free.length + 1 := hput.freeSlots
      simp only [hfind] at hrun
      by_cases hfull : (chunkPut m p σ.toMemory).1.freeSlots = pageSize / chunkSizes i
      · rw [if_pos hfull] at hrun
        have hfull' : a.free.length + 1 = (kernel boot).page / (kernel boot).slot i :=
          hcount.symm.trans hfull
        have hself : (chunkPut m p σ.toMemory).1.self = a.record := hm.self
        have hslab' : (chunkPut m p σ.toMemory).1.slab = a.page := hm.slab
        rw [hself, hslab'] at hrun
        have hmem' : ∀ x, pageRoundDn x ≠ a.page →
            ((chunkPut m p σ.toMemory).2.pfFree a.page).mem x = σ.mem x := fun x hx =>
          (pfFree_off_page (Nat.mod_eq_zero_of_dvd (ho.page_ok i a ha).1) hx).trans (hmem x hx)
        obtain ⟨g', hfree, hrep', hconf⟩ := ih hrun (h.unlink ho hg hpre hpost hmem')
          (ho.put_drop hheld hg hpage hfull') (held_recordBlock a)
        refine ⟨g', .drop hg hpage hfull' hfree, hrep', fun x hx => ?_⟩
        -- the page has moved from the slabs to the free frames
        refine (hconf x ?_).trans (hmem' x fun heq => hx (heq ▸ hmine))
        rwa [pages_drop σ.pageFreelist hg] at hx
      · rw [if_neg hfull, Except.ok.injEq] at hrun
        subst hrun
        exact ⟨_, .put hg hpage fun heq => hfull (hcount.trans heq),
          h.replace ho hg hpre hpost hmem hput, fun x hx => hmem x fun heq => hx (heq ▸ hmine)⟩

end Slab
