/-
Page frames and memory as a single thread of control sees them.

The allocators of the kernel (`mm/slab.c`, `mm/vma.c`) call `pf_alloc`,
`pf_zalloc` and `pf_free` (`mm/pfa.c`) and follow pointers stored in the frames
they get.  `Memory` holds the free frames in list order and the words stored
in memory, by address; a word of a frame is read and written through its
address in the window at `PFA_VIRT_OFFSET`.

* `pfAlloc`, `pfZalloc`, `pfFree`, `memset` — the functions of the source;
* `PageFrames.pfAlloc_run`, `PageFrames.pfFree_run` — a call of `pf_alloc` or
  `pf_free` that is not preempted does to the chain of free frames what
  `pfAlloc` and `pfFree` do to the list.
-/
import Minima.PageFrames
import Mathlib.Algebra.Group.Nat.Defs

/-- How a call can fail to return. -/
inductive Fault
  /-- a store or load through `NULL` -/
  | nullPointer
  /-- a failed `assert` -/
  | assertion
  /-- a call of `panic` -/
  | panic
  /-- a call of `halt` -/
  | halted
  /-- a load behind the end of a block of memory -/
  | outOfBounds
  /-- the use of a variable nobody has assigned -/
  | unassigned
  /-- the call has not returned within the steps the model allows -/
  | diverged
  /-- `pf_alloc` found no frame, in a run where it is taken to find one -/
  | outOfFrames
  deriving DecidableEq, Repr

theorem bind_eq_ok {α β : Type} {x : Except Fault α} {f : α → Except Fault β} {b : β} :
    x >>= f = .ok b ↔ ∃ a, x = .ok a ∧ f a = .ok b := by
  cases x with
  | error e => simp [bind, Except.bind]
  | ok a => simp [bind, Except.bind]

theorem toOption_eq_some {α : Type} {x : Except Fault α} {a : α} :
    x.toOption = some a ↔ x = .ok a := by
  cases x with
  | error e => simp [Except.toOption]
  | ok b => simp [Except.toOption]

/-- `PAGE_SIZE` -/
def pageSize : ℕ := 4096

/-- `VIRT_OFFSET`, where the kernel is mapped -/
def virtOffset : ℕ := 0xC0000000

/-- `PFA_VIRT_OFFSET`, where the page frames are mapped -/
def pfaVirtOffset : ℕ := 0xD0000000

/-- `PAGE_ROUND_DN` -/
def pageRoundDn (x : ℕ) : ℕ := x / pageSize * pageSize

/-- `PAGE_ROUND_UP`, in 32-bit arithmetic -/
def pageRoundUp (x : ℕ) : ℕ := pageRoundDn ((x + pageSize - 1) % 2 ^ 32)

theorem pageRoundDn_mod (x : ℕ) : pageRoundDn x % pageSize = 0 := Nat.mul_mod_left _ _

theorem pageRoundUp_spec {x : ℕ} (h : x + pageSize ≤ 2 ^ 32) :
    pageRoundUp x % pageSize = 0 ∧ x ≤ pageRoundUp x ∧ pageRoundUp x < x + pageSize := by
  refine ⟨pageRoundDn_mod _, ?_⟩
  simp only [pageRoundUp, pageRoundDn, pageSize] at *
  omega

theorem pages_mul (bytes : ℕ) :
    pageRoundUp bytes / pageSize * pageSize % 2 ^ 32 = pageRoundUp bytes := by
  have hmod : pageRoundUp bytes % pageSize = 0 := pageRoundDn_mod _
  rw [Nat.div_mul_cancel (Nat.dvd_of_mod_eq_zero hmod)]
  refine Nat.mod_eq_of_lt (lt_of_le_of_lt (Nat.div_mul_le_self _ _) (Nat.mod_lt _ ?_))
  decide

/-- Addition of 32-bit words. -/
def add32 (x y : ℕ) : ℕ := (x + y) % 2 ^ 32

/-- Subtraction of 32-bit words. -/
def sub32 (x y : ℕ) : ℕ := (x + (2 ^ 32 - y)) % 2 ^ 32

theorem add32_eq {x y : ℕ} (h : x + y < 2 ^ 32) : add32 x y = x + y := Nat.mod_eq_of_lt h

theorem sub32_eq {x y : ℕ} (hx : x < 2 ^ 32) (hy : y ≤ x) : sub32 x y = x - y := by
  rw [sub32]
  omega

/-- The free page frames, first one to be handed out first, and the words
stored in memory. -/
structure Memory where
  pageFreelist : List ℕ
  mem : ℕ → ℕ

namespace Memory

/-- A page frame seen through the window at `PFA_VIRT_OFFSET`. -/
def IsFrame (f : ℕ) : Prop := f % pageSize = 0 ∧ pfaVirtOffset ≤ f ∧ f + pageSize ≤ 2 ^ 32

/-- `*a = v` -/
def store (s : Memory) (a v : ℕ) : Memory := { s with mem := Function.update s.mem a v }

/-- `memset(p, 0, n)` -/
def memset (s : Memory) (p n : ℕ) : Memory :=
  { s with mem := fun a => if p ≤ a ∧ a < p + n then 0 else s.mem a }

/-- `pf_alloc`; `0` is the `NULL` it returns when there is no frame left and
nothing to purge. -/
def pfAlloc (s : Memory) : ℕ × Memory :=
  match s.pageFreelist with
  | [] => (0, s)
  | f :: fl => (f, { s with pageFreelist := fl })

/-- `pf_zalloc` -/
def pfZalloc (s : Memory) : ℕ × Memory :=
  let (page, s) := s.pfAlloc
  if page = 0 then (0, s) else (page, s.memset page pageSize)

/-- `pf_free`: the frame links to the old head and becomes the head. -/
def pfFree (s : Memory) (page : ℕ) : Memory :=
  { s.store page (s.pageFreelist.headD 0) with pageFreelist := page :: s.pageFreelist }

end Memory

/-! ### The list of free frames against the lock-free chain -/

namespace PageFrames

variable {Tid : Type} [DecidableEq Tid] {s : State Tid} {m : Memory} {t : Tid}

/-- The chain from `page_freelist` is the list of free frames, and the link
words are the words in memory. -/
def Represents (s : State Tid) (m : Memory) : Prop :=
  Chain s.next 0 s.pageFreelist m.pageFreelist ∧ s.next = m.mem

theorem pfAlloc_run (h : Represents s m) (hpc : s.pc t = .idle) (hfree : m.pageFreelist ≠ []) :
    ∃ s', Run Step s [.pfAlloc t, .run t, .run t, .run t, .run t] s' ∧ s'.pc t = .idle ∧
      s'.owned = (some t, m.pfAlloc.1) :: s.owned ∧ Represents s' m.pfAlloc.2 := by
  obtain ⟨hchain, hmem⟩ := h
  obtain ⟨f, fl, hfl⟩ := List.exists_cons_of_ne_nil hfree
  rw [hfl] at hchain
  obtain ⟨hhead, hf, htail⟩ := hchain
  refine ⟨{ s.goto t .idle with pageFreelist := s.next f, owned := (some t, f) :: s.owned },
    run_iff_foldlM.mpr ?_, by simp [State.goto], ?_, ?_, ?_⟩
  · simp [State.step, State.run, State.goto, hpc, hhead, hf]
  · simp [Memory.pfAlloc, hfl]
  · simpa [Memory.pfAlloc, hfl, State.goto] using htail
  · simpa [Memory.pfAlloc, hfl, State.goto] using hmem

theorem pfFree_run (h : Represents s m) (hpc : s.pc t = .idle) {f : ℕ} (hf : f ≠ 0)
    (hown : (some t, f) ∈ s.owned) (hoff : f ∉ m.pageFreelist) :
    ∃ s', Run Step s [.pfFree t f, .run t, .run t, .run t, .run t] s' ∧ s'.pc t = .idle ∧
      s'.owned = s.owned.erase (some t, f) ∧ Represents s' (m.pfFree f) := by
  obtain ⟨hchain, hmem⟩ := h
  have hhead : m.pageFreelist.headD 0 = s.pageFreelist := by
    cases hfl : m.pageFreelist with
    | nil => rw [hfl] at hchain; exact hchain.symm
    | cons g fl => rw [hfl] at hchain; exact hchain.1.symm
  refine ⟨{ s.goto t .idle with
      pageFreelist := f, next := Function.update s.next f s.pageFreelist,
      owned := s.owned.erase (some t, f) },
    run_iff_foldlM.mpr ?_, by simp [State.goto], rfl, ⟨rfl, hf, ?_⟩, ?_⟩
  · simp [State.step, State.run, State.goto, hpc, hown, Caller.pc]
  · simpa using hchain.update hoff s.pageFreelist
  · simp only [Memory.pfFree, Memory.store, hhead, hmem]

end PageFrames
