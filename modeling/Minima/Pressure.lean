/-
The memory manager when the page frames run out (`pf_alloc` of `mm/pfa.c`, with
`purge.c`, `slab.c`, `vma.c` and `kmalloc.c`).

`pf_alloc` calls `purgeable_purge` when the list of free frames is empty, and the
purge frees buffers through `kfree`: from deep inside an allocator the call goes
back into the allocators, with whatever semaphores are held by then.  Here the
calls of one task are programs of single actions, semaphore operations and calls
of `pf_alloc`; other tasks may change everything else between two of them.

* `slabAlloc`, `vmalloc`, `kmalloc`, `purgeableAlloc`, `purgeableGet` — the
  functions of the source as such programs;
* `slabAlloc_run` — as long as there are frames, `slabAlloc` does what
  `Slab.doSlabAlloc` does;
* `no_self_deadlock` — the purge does not come to a semaphore its own task
  holds, in the runs in which, whenever `pf_alloc` finds no frame, no region
  within reach of the purge is held by the task, nor has a slab buffer while the
  task holds `s_sem_slab`;
* `startPurge_stands`, `purgeableGet_shows` — the functions of `purge.c` do what they do
  in the model of its protocol;
* `slab_alloc_self_deadlock` — the purge of a slab buffer from inside
  `slab_alloc`.
-/
import Minima.Kmalloc
import Minima.Purge
import Mathlib.Algebra.Order.BigOperators.Group.Finset

namespace Pressure

open Slab (SlabMeta chunkGet chunkSizes sizeIdx)
open Function List Option Finset

/-! ### Programs -/

/-- The semaphores of the memory manager; a region is known by the address of its
`struct purgeable`. -/
inductive Lock
  /-- `s_sem_slab` -/
  | slab
  /-- `s_list` -/
  | list
  /-- `p->lock` -/
  | region (p : ℕ)
  deriving DecidableEq, Repr

/-- What the tasks share: the allocators, the list `s_purgeable` with the fields
of its regions (a `buf` of `0` is `NULL`), and the semaphores other tasks hold. -/
structure World where
  kernel : Kernel.State
  purgeable : List ℕ
  buf : ℕ → ℕ
  bytes : ℕ → ℕ
  taken : Lock → Bool

/-- What a task does: single actions on what is shared, `sem_pend`, `sem_post` and
calls of `pf_alloc`. -/
inductive Prog (α : Type) : Type 1
  | ret (a : α)
  | fault (f : Fault)
  | pend (x : Lock) (k : Prog α)
  | post (x : Lock) (k : Prog α)
  | act {β : Type} (f : World → Except Fault (β × World)) (k : β → Prog α)
  | pfAlloc (k : ℕ → Prog α)

namespace Prog

variable {α β : Type}

def bind : Prog α → (α → Prog β) → Prog β
  | .ret a, g => g a
  | .fault f, _ => .fault f
  | .pend x k, g => .pend x (k.bind g)
  | .post x k, g => .post x (k.bind g)
  | .act f k, g => .act f fun b => (k b).bind g
  | .pfAlloc k, g => .pfAlloc fun n => (k n).bind g

instance : Monad Prog where
  pure := .ret
  bind := Prog.bind

/-- An action on the slab allocator and the memory. -/
def onSlab (f : Slab.State → Except Fault (α × Slab.State)) : Prog α :=
  .act (fun w => (f w.kernel.rest.toState).map fun (a, σ) =>
    (a, { w with kernel := { w.kernel with rest := w.kernel.rest.withSlab σ } })) .ret

/-- An action on the page tables and the memory. -/
def onPaging (f : Paging.State → α × Paging.State) : Prog α :=
  .act (fun w =>
    let (a, s) := f w.kernel.rest.paging
    .ok (a, { w with kernel := { w.kernel with rest := w.kernel.rest.withPaging s } })) .ret

/-- An action on the lists of `vma.c`. -/
def onVma (f : Kernel.State → α × Kernel.State) : Prog α :=
  .act (fun w => let (a, s) := f w.kernel; .ok (a, { w with kernel := s })) .ret

end Prog

open Prog

/-! ### The functions of the source -/

/-- `pf_alloc` -/
def pfAlloc : Prog ℕ := .pfAlloc .ret

/-- `prepare_slab` on the `slab_meta` at `self` -/
def prepareSlab (self slotSize : ℕ) : Prog SlabMeta := do
  let slab ← pfAlloc
  if slab = 0 then .fault .nullPointer
  else
    onSlab fun s =>
      let (m, mem) := (Slab.chunkAddrs slab slotSize).foldl
        (fun (m, s) chunk => Slab.chunkPut m chunk s) (⟨self, slab, 0, 0⟩, s.toMemory)
      .ok (m, ⟨mem, s.slabs⟩)

/-- The scan of `do_slab_alloc` and the `chunk_get` at its end: the chunk, and
whether it was the last one that could hold a `slab_meta`. -/
def takeChunk (size : Fin 10) (s : Slab.State) :
    Except Fault (Option (Bool × ℕ) × Slab.State) :=
  let slotSize := chunkSizes size
  match splitFirst (fun m => Slab.lastOfHost slotSize s.toMemory m || m.freeSlots != 0)
      (s.slabs size) with
  | none => .ok (none, s)
  | some (before, m, after) => do
    let last := Slab.lastOfHost slotSize s.toMemory m
    let (chunk, m, mem) ← chunkGet m slotSize s.toMemory
    return (some (last, chunk), ⟨mem, update s.slabs size (before ++ m :: after)⟩)

/-- `v_ilist_prepend` of a new slab, and `chunk_get` from it -/
def addSlab (size : Fin 10) (m : SlabMeta) (s : Slab.State) :
    Except Fault (ℕ × Slab.State) := do
  let (p, m, mem) ← chunkGet m (chunkSizes size) s.toMemory
  return (p, ⟨mem, update s.slabs size (s.slabs size ++ [m])⟩)

/-- `do_slab_alloc`, for at most `fuel` nested calls -/
def doSlabAlloc : ℕ → ℕ → Prog ℕ
  | 0, _ => .fault .diverged
  | fuel + 1, bytes => do
    let size := sizeIdx bytes
    match ← onSlab (takeChunk size) with
    | some (false, chunk) => return chunk
    | some (true, chunk) =>
      let eager ← prepareSlab chunk (chunkSizes size)
      onSlab (addSlab size eager)
    | none =>
      let self ← doSlabAlloc fuel Slab.sizeofMeta
      let new ← prepareSlab self (chunkSizes size)
      onSlab (addSlab size new)

/-- `slab_alloc` -/
def slabAlloc (fuel bytes : ℕ) : Prog ℕ :=
  .pend .slab do
    let blk ← doSlabAlloc fuel bytes
    .post .slab (.ret blk)

/-- `slab_free` -/
def slabFree (fuel ptr : ℕ) : Prog ℕ :=
  .pend .slab do
    let _ ← onSlab fun s => (Slab.doSlabFree fuel ptr s).map fun s => ((), s)
    .post .slab (.ret 0)

/-- The `struct vma` at an address, on whichever list it is, and the same with new fields. -/
def areaAt (self : ℕ) (s : Kernel.State) : Option Vma.Area := (Vma.areas s).find? (·.self = self)

def setArea (area : Vma.Area) (s : Kernel.State) : Kernel.State :=
  let set := List.map fun a : Vma.Area => if a.self = area.self then area else a
  { s with
    vmaFreelist := set s.vmaFreelist
    vmaList := set s.vmaList
    defragQueue := set s.defragQueue }

/-- `find_space`.  `vma_split` reads and writes the fields of `fit` after `slab_alloc`, which may
have slept; if the `struct vma` is gone by then, its memory still has them. -/
def findSpace (fuel pages : ℕ) : Prog Vma.Area := do
  let bytes := pages * pageSize % 2 ^ 32
  match ← onVma fun s => (Vma.findFit bytes [] none s.vmaFreelist, s) with
  | none => .fault .panic
  | some (_, fit, _) =>
    if fit.size > bytes then do
      let self ← slabAlloc fuel Vma.sizeofVma
      onVma fun s =>
        let fit := (areaAt fit.self s).getD fit
        let new : Vma.Area := ⟨self, fit.start, bytes⟩
        let s := setArea { fit with
          start := add32 fit.start bytes, size := sub32 fit.size bytes } s
        (new, { s with vmaList := s.vmaList ++ [new] })
    else
      onVma fun s =>
        (fit, { s with vmaFreelist := s.vmaFreelist.erase fit, vmaList := s.vmaList ++ [fit] })

/-- `pf_zalloc` -/
def pfZalloc : Prog ℕ := do
  let page ← pfAlloc
  if page = 0 then return 0
  else onPaging fun s => (page, ⟨s.toMemory.memset page pageSize, s.pageDirectory⟩)

/-- The first half of the loop body of `vm_map`: a page table for `va`. -/
def mapTable (va : ℕ) : Prog Unit := do
  let present ← onPaging fun s =>
    (decide (Paging.Present (s.pageDirectory (Paging.vaPdIdx va))), s)
  if present then return ()
  else do
    let page ← pfZalloc
    onPaging fun s => ((),
      ⟨s.toMemory, update s.pageDirectory (Paging.vaPdIdx va) (Paging.entry page)⟩)

/-- The second half: a frame for `va`. -/
def mapFrame (va : ℕ) : Prog Unit := do
  let present ← onPaging fun s => (decide (Paging.Present (s.mem (s.pteAt va))), s)
  if present then return ()
  else do
    let page ← pfZalloc
    onPaging fun s => ((),
      ⟨s.toMemory.store (s.pteAt va) (Paging.entry page), s.pageDirectory⟩)

/-- `vm_map`, for the pages of an area -/
def vmMap : List ℕ → Prog Unit
  | [] => return ()
  | va :: pages => do
    mapTable va
    mapFrame va
    vmMap pages

/-- `vmalloc` -/
def vmalloc (fuel bytes : ℕ) : Prog ℕ := do
  let vma ← findSpace fuel (pageRoundUp bytes / pageSize)
  vmMap (Paging.pagesOf vma.start vma.size)
  return vma.start

/-- `kmalloc` -/
def kmalloc (fuel bytes : ℕ) : Prog ℕ :=
  if bytes ≤ pageSize then slabAlloc fuel bytes else vmalloc fuel bytes

/-- `sizeof(struct purgeable)` -/
def sizeofPurgeable : ℕ := 40

/-- `purgeable_alloc` -/
def purgeableAlloc (fuel bytes : ℕ) : Prog ℕ := do
  let p ← kmalloc fuel sizeofPurgeable
  if p = 0 then return 0
  else do
    let buf ← kmalloc fuel bytes
    .act (fun w => .ok ((), { w with
      buf := update w.buf p buf, bytes := update w.bytes p bytes })) fun _ =>
    .pend .list <|
    .act (fun w => .ok ((), { w with purgeable := w.purgeable ++ [p] })) fun _ =>
    .post .list (.ret p)

/-- `purgeable_get`, which returns with the lock of the region -/
def purgeableGet (fuel p : ℕ) : Prog ℕ :=
  .pend (.region p) <|
  .act (fun w => .ok ((w.buf p, w.bytes p), w)) fun (buf, bytes) => do
    if buf ≠ 0 then return buf
    else do
      let buf ← kmalloc fuel bytes
      .act (fun w => .ok ((), { w with buf := update w.buf p buf })) fun _ => .ret buf

/-- The calls of the memory manager by a task. -/
inductive Call
  | kmalloc (bytes : ℕ)
  | slabAlloc (bytes : ℕ)
  | slabFree (ptr : ℕ)
  | purgeableAlloc (bytes : ℕ)
  | purgeableGet (p : ℕ)

def Call.prog (fuel : ℕ) : Call → Prog ℕ
  | .kmalloc bytes => Pressure.kmalloc fuel bytes
  | .slabAlloc bytes => Pressure.slabAlloc fuel bytes
  | .slabFree ptr => Pressure.slabFree fuel ptr
  | .purgeableAlloc bytes => Pressure.purgeableAlloc fuel bytes
  | .purgeableGet p => Pressure.purgeableGet fuel p

/-! ### The purge, and the steps of a task -/

/-- Where a purge stands: at `sem_pend(&s_list)`, at the lock of region `p`, or at
`s_sem_slab` in the `kfree` of the buffer of `p`; `total` is `total_purged` and
`rest` what the loop has not come to. -/
inductive Place
  | list
  | region (total p : ℕ) (rest : List ℕ)
  | slab (total p : ℕ) (rest : List ℕ)
  deriving DecidableEq, Repr

def Place.lock : Place → Lock
  | .list => .list
  | .region _ p _ => .region p
  | .slab _ _ _ => .slab

/-- The code of a task: its own program, or a purge on behalf of a `pf_alloc` whose
result goes to `k`. -/
inductive Code
  | running (c : Prog ℕ)
  | purging (at_ : Place) (k : ℕ → Prog ℕ)

/-- A task among others: the semaphores it holds, and what it does next. -/
structure Task where
  world : World
  held : Lock → Bool
  code : Code

namespace World

variable (w : World)

def freelist : List ℕ := w.kernel.rest.pageFreelist

def setFreelist (fl : List ℕ) : World :=
  { w with kernel := { w.kernel with rest :=
    { w.kernel.rest with toState := { w.kernel.rest.toState with pageFreelist := fl } } } }

/-- The buffer of the region comes from the slab allocator, by the test in `kfree`. -/
def SlabBuf (p : ℕ) : Prop := w.buf p ≠ 0 ∧ pfaVirtOffset ≤ w.buf p

instance (p : ℕ) : Decidable (w.SlabBuf p) := inferInstanceAs (Decidable (_ ∧ _))

/-- What a purge of the region gives back. -/
def size (p : ℕ) : ℕ := if w.buf p = 0 then 0 else w.bytes p

/-- `kfree(p->buf); p->buf = NULL;` with nobody in the way -/
def freeBuf (fuel p : ℕ) : Except Fault World :=
  (Kernel.kfree fuel (w.buf p) w.kernel).map fun s =>
    { w with kernel := s, buf := update w.buf p 0 }

/-- `sem_pend(x)` does not block. -/
def Free (held : Lock → Bool) (x : Lock) : Prop := w.taken x = false ∧ held x = false

instance (held : Lock → Bool) (x : Lock) : Decidable (w.Free held x) :=
  inferInstanceAs (Decidable (_ ∧ _))

end World

/-- The end of `purgeable_purge` and the rest of `pf_alloc`. -/
def afterPurge (k : ℕ → Prog ℕ) (w : World) (held : Lock → Bool) (total : ℕ) : Task :=
  let held := update held .list false
  if total < pageSize then ⟨w, held, .running (k 0)⟩
  else
    match w.freelist with
    | [] => ⟨w, held, .running (.fault .assertion)⟩
    | f :: fl => ⟨w.setFreelist fl, held, .running (k f)⟩

/-- The loop of `purgeable_purge(PAGE_SIZE)`, up to a semaphore that is not free.  With interrupts
off, other tasks only run while this one sleeps.  The `on_purge` of the regions use no semaphore. -/
def purgeLoop (fuel : ℕ) (k : ℕ → Prog ℕ) : World → (Lock → Bool) → ℕ → List ℕ → Task
  | w, held, total, [] => afterPurge k w held total
  | w, held, total, p :: rest =>
    if ¬ w.Free held (.region p) then ⟨w, held, .purging (.region total p rest) k⟩
    else if w.buf p = 0 then purgeLoop fuel k w held total rest
    else
      if w.SlabBuf p ∧ ¬ w.Free held .slab then
        ⟨w, update held (.region p) true, .purging (.slab total p rest) k⟩
      else
        match w.freeBuf fuel p with
        | .error f => ⟨w, update held (.region p) true, .running (.fault f)⟩
        | .ok w =>
          let total := total + w.bytes p
          if pageSize ≤ total then afterPurge k w held total
          else purgeLoop fuel k w held total rest

/-- `purgeable_purge(PAGE_SIZE)` from `sem_pend(&s_list)` on. -/
def startPurge (fuel : ℕ) (k : ℕ → Prog ℕ) (w : World) (held : Lock → Bool) : Task :=
  if w.Free held .list then purgeLoop fuel k w (update held .list true) 0 w.purgeable
  else ⟨w, held, .purging .list k⟩

/-- The next step of the task, if it is not blocked. -/
def Task.next (fuel : ℕ) (t : Task) : Option Task :=
  match t.code with
  | .running (.ret _) | .running (.fault _) => none
  | .running (.pend x k) =>
    if t.world.Free t.held x then
      some { t with held := update t.held x true, code := .running k }
    else none
  | .running (.post x k) =>
    some { t with held := update t.held x false, code := .running k }
  | .running (.act f k) =>
    match f t.world with
    | .error e => some { t with code := .running (.fault e) }
    | .ok (b, w) => some { t with world := w, code := .running (k b) }
  | .running (.pfAlloc k) =>
    match t.world.freelist with
    | [] => some (startPurge fuel k t.world t.held)
    | f :: fl => some { t with world := t.world.setFreelist fl, code := .running (k f) }
  | .purging .list k =>
    if t.world.Free t.held .list then some (startPurge fuel k t.world t.held) else none
  | .purging (.region total p rest) k =>
    if t.world.Free t.held (.region p) then some (purgeLoop fuel k t.world t.held total (p :: rest))
    else none
  | .purging (.slab total p rest) k =>
    -- the purge has the lock of `p` and goes on with its buffer
    if t.world.Free t.held .slab then
      some (purgeLoop fuel k t.world (update t.held (.region p) false) total (p :: rest))
    else none

inductive Event
  /-- the next step of the task -/
  | run
  /-- other tasks leave everything as in `w` -/
  | other (w : World)

/-- Other tasks may do anything but take what the task holds. -/
def Step (fuel : ℕ) (t : Task) : Event → Task → Prop
  | .run, t' => t.next fuel = some t'
  | .other w, t' => (∀ x, t.held x = true → w.taken x = false) ∧ t' = { t with world := w }

/-! ### As long as there are frames -/

variable {α β : Type} {w w' w'' : World} {held : Lock → Bool} {fuel depth : ℕ}

theorem Prog.bind_assoc {γ : Type} (c : Prog α) (g : α → Prog β) (h : β → Prog γ) :
    (c.bind g).bind h = c.bind fun a => (g a).bind h := by
  induction c with
  | ret a => rfl
  | fault f => rfl
  | pend x k ih => exact congrArg _ ih
  | post x k ih => exact congrArg _ ih
  | act f k ih => exact congrArg _ (funext ih)
  | pfAlloc k ih => exact congrArg _ (funext ih)

/-- Undisturbed, the program returns `a` and leaves everything as in `w'`. -/
def Does (fuel : ℕ) (held : Lock → Bool) (c : Prog α) (w : World) (a : α) (w' : World) : Prop :=
  ∀ g : α → Prog ℕ, ∃ n, Run (Step fuel) ⟨w, held, .running (c.bind g)⟩
    (List.replicate n .run) ⟨w', held, .running (g a)⟩

theorem does_pure (a : α) : Does fuel held (pure a) w a w := fun _ => ⟨0, .nil⟩

variable {c : Prog α} {g : α → Prog β} {a : α}

theorem Does.bind {b : β} (hc : Does fuel held c w a w') (hg : Does fuel held (g a) w' b w'') :
    Does fuel held (c >>= g) w b w'' := by
  intro h
  obtain ⟨n, hn⟩ := hc fun a => (g a).bind h
  obtain ⟨m, hm⟩ := hg h
  refine ⟨n + m, ?_⟩
  rw [replicate_add]
  exact (Prog.bind_assoc c g h ▸ hn).append hm

/-- The state of the slab allocator, and the same with another one. -/
def World.slab (w : World) : Slab.State := w.kernel.rest.toState

def World.withSlab (w : World) (σ : Slab.State) : World :=
  { w with kernel := { w.kernel with rest := w.kernel.rest.withSlab σ } }

variable {σ : Slab.State}

theorem does_onSlab {f : Slab.State → Except Fault (α × Slab.State)} (hf : f w.slab = .ok (a, σ)) :
    Does fuel held (onSlab f) w a (w.withSlab σ) := by
  refine fun g => ⟨1, .snoc .nil ?_⟩
  have hf' : f w.kernel.rest.toState = .ok (a, σ) := hf
  simp [Step, Task.next, onSlab, Prog.bind, hf', Except.map, World.withSlab]

theorem does_prepareSlab {self slotSize : ℕ} {m : SlabMeta} {mem : Memory}
    (h : Slab.prepareSlab self slotSize w.slab.toMemory = .ok (m, mem)) :
    Does fuel held (prepareSlab self slotSize) w m (w.withSlab ⟨mem, w.slab.slabs⟩) := by
  unfold Slab.prepareSlab Memory.pfAlloc at h
  cases hfl : w.slab.pageFreelist with
  | nil => simp [hfl] at h
  | cons f fl =>
    simp only [hfl] at h
    split at h
    · cases h
    · next hf =>
      have hframe : Does fuel held pfAlloc w f (w.setFreelist fl) := by
        refine fun g => ⟨1, .snoc .nil ?_⟩
        have hfl' : w.freelist = f :: fl := hfl
        simp [Step, Task.next, pfAlloc, Prog.bind, hfl']
      refine hframe.bind ?_
      rw [if_neg hf]
      refine does_onSlab (congrArg Except.ok ?_)
      dsimp only [World.setFreelist, World.slab] at h ⊢
      rw [Except.ok.inj h]

variable {bytes : ℕ}

theorem does_doSlabAlloc {p : ℕ} (h : Slab.doSlabAlloc depth bytes w.slab = .ok (p, σ)) :
    Does fuel held (doSlabAlloc depth bytes) w p (w.withSlab σ) := by
  induction depth generalizing bytes p σ w with
  | zero => cases h
  | succ depth ih =>
    rw [Slab.doSlabAlloc] at h
    cases hscan : splitFirst (fun m => Slab.lastOfHost (Slab.chunkSizes (Slab.sizeIdx bytes))
        w.slab.toMemory m || m.freeSlots != 0) (w.slab.slabs (sizeIdx bytes)) with
    | none =>
      rw [hscan] at h
      obtain ⟨⟨new, s⟩, hgrab, h⟩ := bind_eq_ok.mp h
      obtain ⟨⟨q, m, mem⟩, hget, h⟩ := bind_eq_ok.mp h
      obtain ⟨⟨self, s1⟩, halloc, hgrab⟩ := bind_eq_ok.mp hgrab
      obtain ⟨⟨m1, mem1⟩, hprep, hgrab⟩ := bind_eq_ok.mp hgrab
      cases hgrab
      cases h
      have htake : takeChunk (sizeIdx bytes) w.slab = .ok (none, w.slab) := by
        rw [takeChunk, hscan]
      refine (does_onSlab htake).bind ((ih halloc).bind ((does_prepareSlab hprep).bind ?_))
      refine does_onSlab ?_
      show addSlab (sizeIdx bytes) new ⟨mem1, s1.slabs⟩ = _
      rw [addSlab, bind_eq_ok]
      exact ⟨_, hget, rfl⟩
    | some found =>
      obtain ⟨before, m, after⟩ := found
      rw [hscan] at h
      dsimp only at h
      split at h
      · next hlast =>
        obtain ⟨⟨chunk, m', mem⟩, hget, h⟩ := bind_eq_ok.mp h
        obtain ⟨⟨eager, mem1⟩, hprep, h⟩ := bind_eq_ok.mp h
        obtain ⟨⟨q, eager', mem2⟩, hget', h⟩ := bind_eq_ok.mp h
        cases h
        have htake : takeChunk (sizeIdx bytes) w.slab = .ok (some (true, chunk),
            ⟨mem, update w.slab.slabs (sizeIdx bytes) (before ++ m' :: after)⟩) := by
          rw [takeChunk, hscan]
          exact bind_eq_ok.mpr ⟨_, hget, by rw [hlast]; rfl⟩
        refine (does_onSlab htake).bind ((does_prepareSlab hprep).bind (does_onSlab ?_))
        show addSlab (sizeIdx bytes) eager ⟨mem1, _⟩ = _
        rw [addSlab, bind_eq_ok]
        refine ⟨_, hget', ?_⟩
        simp only [World.slab, World.withSlab, Kernel.Rest.withSlab, update_self,
          update_idem]
        rfl
      · next hlast =>
        obtain ⟨⟨chunk, m', mem⟩, hget, h⟩ := bind_eq_ok.mp h
        cases h
        have htake : takeChunk (sizeIdx bytes) w.slab = .ok (some (false, chunk),
            ⟨mem, update w.slab.slabs (sizeIdx bytes) (before ++ m' :: after)⟩) := by
          rw [takeChunk, hscan]
          exact bind_eq_ok.mpr ⟨_, hget, by rw [Bool.eq_false_iff.mpr hlast]; rfl⟩
        exact (does_onSlab htake).bind (does_pure _)

theorem slabAlloc_run {p : ℕ} (hfree : w.Free held .slab)
    (h : Slab.doSlabAlloc depth bytes w.slab = .ok (p, σ)) :
    ∃ n, Run (Step fuel) ⟨w, held, .running (slabAlloc depth bytes)⟩ (List.replicate n .run)
      ⟨w.withSlab σ, held, .running (.ret p)⟩ := by
  have hdoes : Does fuel (update held .slab true) (doSlabAlloc depth bytes) w p
      (w.withSlab σ) := does_doSlabAlloc h
  obtain ⟨n, hn⟩ := hdoes fun blk => .post .slab (.ret blk)
  have hheld : update (update held .slab true) .slab false = held := by
    rw [update_idem, ← hfree.2, update_eq_self]
  refine ⟨1 + n + 1, ?_⟩
  rw [replicate_add, replicate_add]
  refine (Run.append (.snoc .nil (if_pos hfree)) hn).snoc ?_
  exact congrArg (fun held => some (Task.mk _ held _)) hheld

/-- The purge stands at a semaphore that its own task holds. -/
def SelfDeadlock (t : Task) : Prop :=
  ∃ pl k, t.code = .purging pl k ∧ t.held pl.lock = true

/-! ### Programs and `s_list` -/

variable {R R' : Bool → α → Prop} {h : Bool}

/-- The program calls `pf_alloc` only without `s_list`, starting with (`h`) or
without it, and returns so that `R` holds. -/
def Prog.Wp (R : Bool → α → Prop) : Bool → Prog α → Prop
  | h, .ret a => R h a
  | _, .fault _ => True
  | h, .pend x k => k.Wp R (h || x = .list)
  | h, .post x k => k.Wp R (h && x ≠ .list)
  | h, .act _ k => ∀ b, (k b).Wp R h
  | h, .pfAlloc k => h = false ∧ ∀ n, (k n).Wp R false

theorem wp_mono (hR : ∀ h a, R h a → R' h a) (hc : c.Wp R h) : c.Wp R' h := by
  induction c generalizing h with
  | ret a => exact hR h a hc
  | fault f => trivial
  | pend x k ih => exact ih hc
  | post x k ih => exact ih hc
  | act f k ih => exact fun b => ih b (hc b)
  | pfAlloc k ih => exact ⟨hc.1, fun n => ih n (hc.2 n)⟩

theorem wp_bind {R : Bool → β → Prop} (hc : c.Wp (fun h a => (g a).Wp R h) h) :
    (c >>= g).Wp R h := by
  show (c.bind g).Wp R h
  induction c generalizing h with
  | ret a => exact hc
  | fault f => trivial
  | pend x k ih => exact ih hc
  | post x k ih => exact ih hc
  | act f k ih => exact fun b => ih b (hc b)
  | pfAlloc k ih => exact ⟨hc.1, fun n => ih n (hc.2 n)⟩

/-- The programs that return without `s_list` and never hold it at a `pf_alloc`. -/
structure Prog.Apart (c : Prog α) : Prop where
  wp : c.Wp (fun h _ => h = false) false

theorem Prog.Apart.bind (hc : c.Apart) (hg : ∀ a, (g a).Apart) : (c >>= g).Apart := by
  refine ⟨wp_bind (wp_mono (fun h a hh => ?_) hc.wp)⟩
  subst hh
  exact (hg a).wp

theorem apart_pfAlloc : pfAlloc.Apart := ⟨rfl, fun _ => rfl⟩

theorem apart_fault (f : Fault) : (Prog.fault f : Prog α).Apart := ⟨trivial⟩

theorem apart_pure (a : α) : (pure a : Prog α).Apart := ⟨rfl⟩

theorem apart_onSlab (f : Slab.State → Except Fault (α × Slab.State)) : (onSlab f).Apart :=
  ⟨fun _ => rfl⟩

theorem apart_onPaging (f : Paging.State → α × Paging.State) : (onPaging f).Apart := ⟨fun _ => rfl⟩

theorem apart_onVma (f : Kernel.State → α × Kernel.State) : (onVma f).Apart := ⟨fun _ => rfl⟩

theorem apart_prepareSlab (self slotSize : ℕ) : (prepareSlab self slotSize).Apart := by
  refine apart_pfAlloc.bind fun slab => ?_
  split
  · exact apart_fault _
  · exact apart_onSlab _

theorem apart_doSlabAlloc (fuel bytes : ℕ) : (doSlabAlloc fuel bytes).Apart := by
  induction fuel generalizing bytes with
  | zero => exact apart_fault _
  | succ fuel ih =>
    refine (apart_onSlab _).bind fun found => ?_
    split
    · exact apart_pure _
    · exact (apart_prepareSlab _ _).bind fun _ => apart_onSlab _
    · exact (ih _).bind fun _ => (apart_prepareSlab _ _).bind fun _ => apart_onSlab _

theorem apart_slabAlloc (fuel bytes : ℕ) : (slabAlloc fuel bytes).Apart :=
  ⟨((apart_doSlabAlloc fuel bytes).bind fun blk => ⟨show (Prog.post .slab (.ret blk)).Wp _ _ from
    rfl⟩).wp⟩

theorem apart_slabFree (fuel ptr : ℕ) : (slabFree fuel ptr).Apart := ⟨fun _ => rfl⟩

theorem apart_findSpace (fuel pages : ℕ) : (findSpace fuel pages).Apart := by
  refine (apart_onVma _).bind fun found => ?_
  split
  · exact apart_fault _
  · split
    · exact (apart_slabAlloc _ _).bind fun _ => apart_onVma _
    · exact apart_onVma _

theorem apart_pfZalloc : pfZalloc.Apart := by
  refine apart_pfAlloc.bind fun page => ?_
  split
  · exact apart_pure _
  · exact apart_onPaging _

theorem apart_mapTable (va : ℕ) : (mapTable va).Apart := by
  refine (apart_onPaging _).bind fun present => ?_
  split
  · exact apart_pure _
  · exact apart_pfZalloc.bind fun _ => apart_onPaging _

theorem apart_mapFrame (va : ℕ) : (mapFrame va).Apart := by
  refine (apart_onPaging _).bind fun present => ?_
  split
  · exact apart_pure _
  · exact apart_pfZalloc.bind fun _ => apart_onPaging _

theorem apart_vmMap (pages : List ℕ) : (vmMap pages).Apart := by
  induction pages with
  | nil => exact apart_pure _
  | cons va pages ih =>
    exact (apart_mapTable va).bind fun _ => (apart_mapFrame va).bind fun _ => ih

theorem apart_kmalloc (fuel bytes : ℕ) : (kmalloc fuel bytes).Apart := by
  unfold kmalloc
  split
  · exact apart_slabAlloc _ _
  · exact (apart_findSpace _ _).bind fun _ => (apart_vmMap _).bind fun _ => apart_pure _

theorem apart_prog (fuel : ℕ) (c : Call) : (c.prog fuel).Apart := by
  cases c with
  | kmalloc bytes => exact apart_kmalloc fuel bytes
  | slabAlloc bytes => exact apart_slabAlloc fuel bytes
  | slabFree ptr => exact apart_slabFree fuel ptr
  | purgeableAlloc bytes =>
    refine (apart_kmalloc _ _).bind fun p => ?_
    split
    · exact apart_pure _
    · exact (apart_kmalloc _ _).bind fun _ => ⟨fun _ _ => rfl⟩
  | purgeableGet p =>
    refine ⟨fun ⟨buf, bytes⟩ => Prog.Apart.wp ?_⟩
    dsimp only
    split
    · exact apart_pure _
    · exact (apart_kmalloc _ _).bind fun _ => ⟨fun _ => rfl⟩

/-! ### Within reach of a purge -/

variable {total p : ℕ} {rest : List ℕ}
  {k : ℕ → Prog ℕ} {t t' : Task} {e : Event}

/-- The regions the purge comes to before it has given back a page are neither
held by the task, nor have slab buffers if the task holds `s_sem_slab`. -/
def Clear (w : World) (held : Lock → Bool) (total : ℕ) (rest : List ℕ) : Prop :=
  ∀ before p after, rest = before ++ p :: after →
    total + ∑ q ∈ before.toFinset, w.size q < pageSize →
    held (.region p) = false ∧ (held .slab = true → ¬ w.SlabBuf p)

theorem Clear.head (h : Clear w held total (p :: rest)) (ht : total < pageSize) :
    held (.region p) = false ∧ (held .slab = true → ¬ w.SlabBuf p) :=
  h [] p rest rfl (by simpa using ht)

theorem sum_size_cons (hbuf : w'.buf = update w.buf p 0) (hbytes : w'.bytes = w.bytes)
    (before : List ℕ) : ∑ q ∈ (p :: before).toFinset, w.size q =
      w.size p + ∑ q ∈ before.toFinset, w'.size q := by
  have hsize : ∀ q, q ≠ p → w.size q = w'.size q := by
    intro q hq
    rw [World.size, World.size, hbuf, hbytes, update_of_ne hq]
  have hzero : w'.size p = 0 := by rw [World.size, hbuf, update_self, if_pos rfl]
  rw [toFinset_cons, ← insert_erase (mem_insert_self p before.toFinset),
    erase_insert_eq_erase, sum_insert (by simp), ← sum_erase _ hzero]
  exact congrArg _ (sum_congr rfl fun q hq => hsize q (ne_of_mem_erase hq))

theorem clear_cons_iff (w' : World) (hbuf : w'.buf = update w.buf p 0)
    (hbytes : w'.bytes = w.bytes) : Clear w held total (p :: rest) ↔
      (total < pageSize → held (.region p) = false ∧ (held .slab = true → ¬ w.SlabBuf p)) ∧
        Clear w' held (total + w.size p) rest := by
  have hslab : ∀ q, q ≠ p → (w'.SlabBuf q ↔ w.SlabBuf q) := by
    intro q hq
    rw [World.SlabBuf, World.SlabBuf, hbuf, update_of_ne hq]
  have hgone : ¬ w'.SlabBuf p := fun h => h.1 (by rw [hbuf, update_self])
  constructor
  · refine fun h => ⟨fun ht => h.head ht, ?_⟩
    intro before q after hrest hlt
    have hcons := sum_size_cons hbuf hbytes before
    obtain ⟨hheld, hq⟩ := h (p :: before) q after (by rw [hrest]; rfl) (by omega)
    refine ⟨hheld, fun hs hbuf' => ?_⟩
    by_cases hqp : q = p
    · exact hgone (hqp ▸ hbuf')
    · exact hq hs ((hslab q hqp).mp hbuf')
  · rintro ⟨hhead, htail⟩ before q after hrest hlt
    cases before with
    | nil =>
      obtain ⟨rfl, -⟩ := List.cons.inj hrest
      exact hhead (by simpa using hlt)
    | cons p' before =>
      obtain ⟨rfl, htl⟩ := List.cons.inj hrest
      have hcons := sum_size_cons hbuf hbytes before
      obtain ⟨hheld, hq⟩ := htail before q after htl (by omega)
      refine ⟨hheld, fun hs => ?_⟩
      -- a second occurrence of the first region is judged like the first one
      by_cases hqp : q = p
      · exact hqp ▸ (hhead (by omega)).2 hs
      · exact fun hb => hq hs ((hslab q hqp).mpr hb)

/-- The task is not at a semaphore of its own, and its purges started without
`s_list`. -/
def Safe (t : Task) : Prop :=
  match t.code with
  | .running c => c.Wp (fun _ _ => True) (t.held .list)
  | .purging pl k => t.held pl.lock = false ∧ (∀ n, (k n).Wp (fun _ _ => True) false) ∧
    match pl with
    | .list => True
    | .region total _ _ | .slab total _ _ => t.held .list = true ∧ total < pageSize

theorem safe_afterPurge (hk : ∀ n, (k n).Wp (fun _ _ => True) false) :
    Safe (afterPurge k w held total) := by
  unfold afterPurge
  split
  · simpa [Safe] using hk 0
  · split
    · trivial
    · simpa [Safe] using hk _

theorem safe_purgeLoop (hk : ∀ n, (k n).Wp (fun _ _ => True) false)
    (hclear : Clear w held total rest) (hlist : held .list = true) (ht : total < pageSize) :
    Safe (purgeLoop fuel k w held total rest) := by
  induction rest generalizing w total with
  | nil => exact safe_afterPurge hk
  | cons p rest ih =>
    obtain ⟨hregion, hslab⟩ := hclear.head ht
    rw [purgeLoop]
    split
    · exact ⟨hregion, hk, hlist, ht⟩
    · split
      · next hbuf =>
        have htail : Clear w held (total + w.size p) rest :=
          ((clear_cons_iff w (by rw [← hbuf, update_eq_self]) rfl).mp hclear).2
        rw [World.size, if_pos hbuf] at htail
        exact ih htail ht
      · next hbuf =>
        split
        · next hstop =>
          have hs : held .slab = false := Bool.eq_false_iff.mpr fun hs => hslab hs hstop.1
          exact ⟨by simpa [Place.lock] using hs, hk, by simpa using hlist, ht⟩
        · split
          · trivial
          · next w' hfree =>
            obtain ⟨s, -, rfl⟩ := Kernel.map_eq_ok.mp hfree
            dsimp only
            split
            · exact safe_afterPurge hk
            · next hlt =>
              have htail := ((clear_cons_iff
                { w with kernel := s, buf := update w.buf p 0 } rfl rfl).mp hclear).2
              rw [World.size, if_neg hbuf] at htail
              exact ih htail (Nat.not_le.mp hlt)

/-- **The condition is needed**: a purge that runs to its end, where it releases
`s_list`, came to nothing its own task holds. -/
theorem clear_of_purgeLoop (hlist : held .list = true)
    (hend : (purgeLoop fuel k w held total rest).held .list = false) :
    Clear w held total rest := by
  induction rest generalizing w total with
  | nil => exact fun before p after hrest => by simp at hrest
  | cons p rest ih =>
    rw [purgeLoop] at hend
    split at hend
    · simp [hlist] at hend
    · next hregion =>
      split at hend
      · next hbuf =>
        refine (clear_cons_iff w (by rw [← hbuf, update_eq_self]) rfl).mpr
          ⟨fun _ => ⟨(not_not.mp hregion).2, fun _ hs => hs.1 hbuf⟩, ?_⟩
        rw [World.size, if_pos hbuf]
        exact ih hend
      · next hbuf =>
        split at hend
        · simp [hlist] at hend
        · next hgo =>
          split at hend
          · simp [hlist] at hend
          · next w' hfree =>
            obtain ⟨s, -, rfl⟩ := Kernel.map_eq_ok.mp hfree
            have hhead : held .slab = true → ¬ w.SlabBuf p := by
              intro hs hb
              have hfree := (not_not.mp (not_and.mp hgo hb)).2
              simp [hs] at hfree
            refine (clear_cons_iff { w with kernel := s, buf := update w.buf p 0 } rfl
              rfl).mpr ⟨fun _ => ⟨(not_not.mp hregion).2, hhead⟩, ?_⟩
            rw [World.size, if_neg hbuf]
            dsimp only at hend
            split at hend
            · next hge =>
              -- the loop ends here: nothing further is within reach
              exact fun before q after _ hlt => absurd hlt (by omega)
            · exact ih hend

theorem safe_startPurge (hk : ∀ n, (k n).Wp (fun _ _ => True) false) (hlist : held .list = false)
    (hclear : Clear w held 0 w.purgeable) : Safe (startPurge fuel k w held) := by
  unfold startPurge
  split
  · refine safe_purgeLoop hk (fun before p after hrest hlt => ?_) (by simp) (by decide)
    simpa using hclear before p after hrest hlt
  · exact ⟨hlist, hk, trivial⟩

/-- The condition on the steps: whenever a purge starts or goes on after it slept,
what it comes to is clear.  A purge that slept at the lock of a region, or with
that lock in `kfree`, takes up that region again. -/
def InReach (t : Task) : Event → Prop
  | .other _ => True
  | .run =>
    match t.code with
    | .running (.pfAlloc _) =>
      t.world.freelist = [] → Clear t.world t.held 0 t.world.purgeable
    | .purging .list _ => Clear t.world t.held 0 t.world.purgeable
    | .purging (.region total p rest) _ | .purging (.slab total p rest) _ =>
      Clear t.world (update t.held (.region p) false) total (p :: rest)
    | _ => True

theorem Safe.next (h : Safe t) (hok : InReach t .run) (hstep : t.next fuel = some t') :
    Safe t' := by
  obtain ⟨w, held, code⟩ := t
  cases code with
  | running c =>
    cases c with
    | ret a => cases hstep
    | fault f => cases hstep
    | pend x k =>
      simp only [Task.next, ite_none_right_eq_some, some_inj] at hstep
      obtain ⟨-, rfl⟩ := hstep
      have hx : update held x true .list = (held .list || decide (x = .list)) := by
        by_cases hx : x = .list <;> simp [hx, eq_comm]
      simpa only [Safe, hx, Prog.Wp] using h
    | post x k =>
      cases hstep
      have hx : update held x false .list = (held .list && decide (x ≠ .list)) := by
        by_cases hx : x = .list <;> simp [hx, eq_comm]
      simpa only [Safe, hx, Prog.Wp] using h
    | act f k =>
      simp only [Task.next] at hstep
      split at hstep
      · cases hstep
        trivial
      · cases hstep
        exact h _
    | pfAlloc k =>
      obtain ⟨hlist, hk⟩ := h
      simp only [Task.next] at hstep
      split at hstep
      · next hfl =>
        cases hstep
        exact safe_startPurge hk hlist (hok hfl)
      · cases hstep
        dsimp only at hlist
        simpa only [Safe, hlist] using hk _
  | purging pl k =>
    obtain ⟨hfree, hk, hpl⟩ := h
    cases pl with
    | list =>
      simp only [Task.next, ite_none_right_eq_some, some_inj] at hstep
      obtain ⟨-, rfl⟩ := hstep
      exact safe_startPurge hk hfree hok
    | region total p rest =>
      simp only [Task.next, ite_none_right_eq_some, some_inj] at hstep
      obtain ⟨-, rfl⟩ := hstep
      have hheld : update held (.region p) false = held := by
        rw [← hfree]
        exact update_eq_self _ _
      exact safe_purgeLoop hk (by simpa only [InReach, hheld] using hok) hpl.1 hpl.2
    | slab total p rest =>
      simp only [Task.next, ite_none_right_eq_some, some_inj] at hstep
      obtain ⟨-, rfl⟩ := hstep
      exact safe_purgeLoop hk hok (by simpa using hpl.1) hpl.2

theorem Safe.step (h : Safe t) (hok : InReach t e) (hstep : Step fuel t e t') : Safe t' := by
  cases e with
  | run => exact h.next hok hstep
  | other w =>
    obtain ⟨-, rfl⟩ := hstep
    exact h

theorem Safe.not_selfDeadlock (h : Safe t) : ¬ SelfDeadlock t := by
  rintro ⟨pl, k, hcode, hheld⟩
  simp only [Safe, hcode] at h
  rw [h.1] at hheld
  cases hheld

/-- A task that calls the memory manager, with the regions it got before. -/
structure Calls (fuel : ℕ) (c : Call) (t : Task) : Prop where
  code : t.code = .running (c.prog fuel)
  held : ∀ x, t.held x = true → ∃ p, x = .region p

/-- **No self-deadlock** in the runs all of whose steps meet the condition. -/
theorem no_self_deadlock {c : Call} {t0 : Task} {es : List Event} (h0 : Calls fuel c t0)
    (hrun : Run (Step fuel) t0 es t) (hok : Guarded (Step fuel) InReach t0 es) :
    ¬ SelfDeadlock t := by
  have hlist : t0.held .list = false := by
    rw [Bool.eq_false_iff]
    intro hl
    obtain ⟨p, hp⟩ := h0.held _ hl
    cases hp
  have hsafe : Safe t0 := by
    rw [Safe, h0.code]
    rw [hlist]
    exact wp_mono (fun _ _ _ => trivial) (apart_prog fuel c).wp
  exact (Run.invariant_of_guarded hsafe (fun _ _ _ h hok hstep => h.step hok hstep) hrun
    hok).not_selfDeadlock

/-! ### The same purge in the model of `purge.c` -/

/-- A semaphore of that model as one of this. -/
def ofSem : Purge.Sem → Lock
  | .list => .list
  | .region p => .region p

/-- The regions and their semaphores, as that model has them. -/
structure Shows (w : World) (held : Lock → Bool) (g : Purge.Shared) : Prop where
  order : g.order = w.purgeable
  buf : ∀ p, g.buf p = if w.buf p = 0 then none else some (w.buf p)
  bytes : g.bytes = w.bytes
  count : ∀ x, g.count x = if w.Free held (ofSem x) then 1 else 0

variable {g : Purge.Shared} {x : Purge.Sem}

theorem ofSem_inj {y : Purge.Sem} : ofSem x = ofSem y ↔ x = y := by
  cases x <;> cases y <;> simp [ofSem]

theorem free_update {y : Purge.Sem} (b : Bool) (hne : y ≠ x) :
    w.Free (update held (ofSem x) b) (ofSem y) ↔ w.Free held (ofSem y) := by
  rw [World.Free, World.Free, update_of_ne fun h => hne (ofSem_inj.mp h)]

theorem Shows.pend (h : Shows w held g) (hfree : w.Free held (ofSem x)) :
    Shows w (update held (ofSem x) true)
      { g with count := update g.count x (g.count x - 1) } ∧ g.count x ≠ 0 := by
  refine ⟨⟨h.order, h.buf, h.bytes, fun y => ?_⟩, by simp [h.count, hfree]⟩
  by_cases hy : y = x
  · subst hy
    simp [h.count, World.Free, hfree.1, hfree.2]
  · simp only [update_of_ne hy, h.count, free_update _ hy]

theorem Shows.post (h : Shows w (update held (ofSem x) true) g) (hfree : w.Free held (ofSem x)) :
    Shows w held (g.post x) := by
  refine ⟨h.order, h.buf, h.bytes, fun y => ?_⟩
  by_cases hy : y = x
  · subst hy
    simp [Purge.Shared.post, h.count, World.Free, hfree.1, hfree.2]
  · simp only [Purge.Shared.post, update_of_ne hy, h.count, free_update _ hy]

/-- `kfree(p->buf); p->buf = NULL;` -/
theorem Shows.freeBuf (h : Shows w held g) (hfree : w.freeBuf fuel p = .ok w') :
    Shows w' held { g.kfreeBuf p with buf := update (g.kfreeBuf p).buf p none } ∧
      (g.kfreeBuf p).bytes p = w'.bytes p := by
  obtain ⟨s, -, rfl⟩ := Kernel.map_eq_ok.mp hfree
  obtain ⟨order, count, bytes, buf⟩ : (g.kfreeBuf p).order = g.order ∧
      (g.kfreeBuf p).count = g.count ∧ (g.kfreeBuf p).bytes = g.bytes ∧
      (g.kfreeBuf p).buf = g.buf := by
    rw [Purge.Shared.kfreeBuf]
    cases g.buf p <;> exact ⟨rfl, rfl, rfl, rfl⟩
  refine ⟨⟨order.trans h.order, fun q => ?_, bytes.trans h.bytes, fun x => ?_⟩, ?_⟩
  · by_cases hq : q = p
    · simp [hq]
    · simp only [update_of_ne hq, buf, h.buf]
  · exact (congrFun count x).trans (h.count x)
  · rw [bytes, h.bytes]

/-- The purge of a task that stands there is that of `t`; `k` is what follows `pf_alloc`. -/
inductive Stands (k : ℕ → Prog ℕ) (g : Purge.Shared) (total : ℕ) : Purge.PurgePc → Task → Prop
  | done {w : World} {held : Lock → Bool} (h : Shows w held g) :
      Stands k g total .post (afterPurge k w held total)
  | region {w : World} {held : Lock → Bool} {p : ℕ} {rest : List ℕ} (h : Shows w held g) :
      Stands k g total (.memPend p rest) ⟨w, held, .purging (.region total p rest) k⟩
  | slab {w : World} {held : Lock → Bool} {p : ℕ} {rest : List ℕ} (h : Shows w held g) :
      Stands k g total (.memFree p rest) ⟨w, held, .purging (.slab total p rest) k⟩
  | fault {w : World} {held : Lock → Bool} {p : ℕ} {rest : List ℕ} {f : Fault}
      (h : Shows w held g) : Stands k g total (.memFree p rest) ⟨w, held, .running (.fault f)⟩

/-- A step of `purgeable_purge(PAGE_SIZE)` in that model. -/
def PurgeStep (c : Purge.Caller) (a b : Purge.Shared × ℕ × Purge.PurgePc) : Prop :=
  Purge.purgeStep a.1 c pageSize a.2.1 a.2.2 = some (b.1, .purge c pageSize b.2.1 b.2.2)

theorem purgeLoop_stands (c : Purge.Caller) (h : Shows w held g) (ht : total < pageSize) :
    ∃ g' total' pc, Relation.ReflTransGen (PurgeStep c) (g, total, .visit rest) (g', total', pc) ∧
      Stands k g' total' pc (purgeLoop fuel k w held total rest) := by
  induction rest generalizing w g total with
  | nil => exact ⟨g, total, .post, .single rfl, .done h⟩
  | cons p rest ih =>
    have hvisit : PurgeStep c (g, total, .visit (p :: rest)) (g, total, .memPend p rest) := rfl
    rw [purgeLoop]
    by_cases hfree : w.Free held (.region p)
    swap
    · rw [if_pos hfree]
      exact ⟨g, total, _, .single hvisit, .region h⟩
    rw [if_neg (not_not.mpr hfree)]
    obtain ⟨h1, hcount⟩ := h.pend (x := .region p) hfree
    set g1 : Purge.Shared :=
      { g with count := update g.count (.region p) (g.count (.region p) - 1) }
    have hlock : Relation.ReflTransGen (PurgeStep c) (g, total, .visit (p :: rest))
        (g1, total, .memTest p rest) :=
      .tail (.single hvisit) (Purge.pend_map_eq_some.mpr ⟨hcount, rfl⟩)
    -- `sem_post(&p->lock)` and the test at the end of the loop body
    have hpost : ∀ (g2 : Purge.Shared) (n : ℕ), PurgeStep c (g2, total, .memPost p n rest)
        (g2.post (.region p), total + n, if pageSize ≤ total + n then .post else .visit rest) := by
      intro g2 n
      have hne : pageSize ≠ 0 := by decide
      simp only [PurgeStep, Purge.purgeStep, hne, ne_eq, not_false_eq_true, true_and]
    by_cases hbuf : w.buf p = 0
    · rw [if_pos hbuf]
      have htest : PurgeStep c (g1, total, .memTest p rest) (g1, total, .memPost p 0 rest) := by
        simp [PurgeStep, Purge.purgeStep, h1.buf, hbuf]
      have hend := hpost g1 0
      rw [Nat.add_zero, if_neg (Nat.not_le.mpr ht)] at hend
      obtain ⟨g', total', pc, hrun, hstands⟩ := ih (h1.post hfree) ht
      exact ⟨g', total', pc, ((hlock.tail htest).tail hend).trans hrun, hstands⟩
    rw [if_neg hbuf]
    have htest : PurgeStep c (g1, total, .memTest p rest) (g1, total, .memCallback p rest) := by
      simp [PurgeStep, Purge.purgeStep, h1.buf, hbuf]
    have hcall : PurgeStep c (g1, total, .memCallback p rest) (g1, total, .memFree p rest) := rfl
    have hfound := (hlock.tail htest).tail hcall
    split
    · exact ⟨g1, total, _, hfound, .slab h1⟩
    · split
      · exact ⟨g1, total, _, hfound, .fault h1⟩
      · next w' hw' =>
        obtain ⟨h2, hbytes⟩ := h1.freeBuf hw'
        obtain ⟨s, -, rfl⟩ := Kernel.map_eq_ok.mp hw'
        set g2 : Purge.Shared :=
          { g1.kfreeBuf p with buf := update (g1.kfreeBuf p).buf p none }
        have hend := hpost g2 (w.bytes p)
        have hkfree : PurgeStep c (g1, total, .memFree p rest)
            (g1.kfreeBuf p, total, .memClear p rest) := rfl
        have hclear : PurgeStep c (g1.kfreeBuf p, total, .memClear p rest)
            (g2, total, .memPost p (w.bytes p) rest) := by
          rw [PurgeStep, Purge.purgeStep, hbytes]
        have hrun := ((hfound.tail hkfree).tail hclear).tail hend
        dsimp only
        split
        · next hge =>
          rw [if_pos hge] at hrun
          exact ⟨_, _, _, hrun, .done (h2.post hfree)⟩
        · next hlt =>
          rw [if_neg hlt] at hrun
          obtain ⟨g', total', pc, hrun', hstands⟩ := ih (h2.post hfree) (Nat.not_le.mp hlt)
          exact ⟨g', total', pc, hrun.trans hrun', hstands⟩

/-- **The same `purgeable_purge`**: where the purge of `pf_alloc` stands when it has to wait or is
done, that of the model of `purge.c` gets to by its own steps. -/
theorem startPurge_stands (c : Purge.Caller) (h : Shows w held g) (hfree : w.Free held .list) :
    ∃ g' total pc, Relation.ReflTransGen (PurgeStep c) (g, 0, .pend) (g', total, pc) ∧
      Stands k g' total pc (startPurge fuel k w held) := by
  obtain ⟨h1, hcount⟩ := h.pend (x := .list) hfree
  have hpend : PurgeStep c (g, 0, .pend)
      ({ g with count := update g.count .list (g.count .list - 1) }, 0, .visit w.purgeable) :=
    Purge.pend_map_eq_some.mpr ⟨hcount, by rw [← h.order]⟩
  obtain ⟨g', total, pc, hrun, hstands⟩ := purgeLoop_stands c h1 (show 0 < pageSize by decide)
  rw [startPurge, if_pos hfree]
  exact ⟨g', total, pc, .head hpend hrun, hstands⟩

/-- **The same `purgeable_get`** up to the call of `kmalloc`, if the buffer is gone. -/
theorem purgeableGet_shows {l : Purge.Local} (h : Shows w held g)
    (hfree : w.Free held (.region p)) (hpc : l.pc = .getPend p) :
    ∃ g', Shows w (update held (.region p) true) g' ∧
      Relation.ReflTransGen (fun a b => Purge.runStep a.1 a.2 = some b) (g, l)
        (g', l.goto (if w.buf p = 0 then .getKmalloc p true else .getReturn p false)) ∧
      Run (Step fuel) ⟨w, held, .running (purgeableGet depth p)⟩ [.run, .run]
        ⟨w, update held (.region p) true, .running (if w.buf p ≠ 0 then return w.buf p else do
          let buf ← kmalloc depth (w.bytes p)
          .act (fun w => .ok ((), { w with buf := update w.buf p buf })) fun _ => .ret buf)⟩ := by
  obtain ⟨h1, hcount⟩ := h.pend (x := .region p) hfree
  have hfirst : Run (Step fuel) ⟨w, held, .running (purgeableGet depth p)⟩ [.run] _ :=
    .snoc .nil (if_pos hfree)
  set g1 : Purge.Shared := { g with count := update g.count (.region p) (g.count (.region p) - 1) }
  refine ⟨g1, h1, .head (b := (g1, l.goto (.getFlag p))) ?_
    (.head (b := (g1, l.goto (.getTest p (w.buf p == 0)))) ?_ (.single ?_)), hfirst.snoc rfl⟩
  · simp only [Purge.runStep, hpc]
    exact Purge.pend_map_eq_some.mpr ⟨hcount, rfl⟩
  · by_cases hbuf : w.buf p = 0 <;> simp [Purge.runStep, h1.buf, hbuf, Purge.Local.goto]
  · by_cases hbuf : w.buf p = 0 <;> simp [Purge.runStep, h1.buf, hbuf, Purge.Local.goto]

/-! ### Calls with the page frames used up -/

/-- `n` steps of the task, undisturbed. -/
def Task.after (fuel : ℕ) : ℕ → Task → Option Task
  | 0, t => some t
  | n + 1, t => (t.next fuel).bind (Task.after fuel n)

variable {n : ℕ}

theorem run_replicate_iff :
    Run (Step fuel) t (List.replicate n .run) t' ↔ t.after fuel n = some t' := by
  induction n generalizing t with
  | zero => rw [replicate_zero, run_nil_iff, Task.after, some_inj, eq_comm]
  | succ n ih =>
    rw [replicate_succ, run_cons_iff, Task.after, bind_eq_some_iff]
    exact exists_congr fun u => and_congr_right fun _ => ih

theorem clear_iff : Clear w held total rest ↔
    ∀ i : Fin rest.length, total + ∑ q ∈ (rest.take i).toFinset, w.size q < pageSize →
      held (.region rest[i]) = false ∧ (held .slab = true → ¬ w.SlabBuf rest[i]) := by
  constructor
  · intro h i
    refine h (rest.take i) rest[i] (rest.drop (i + 1)) ?_
    rw [Fin.getElem_fin, getElem_cons_drop, take_append_drop]
  · intro h before p after hrest
    subst hrest
    simpa using h ⟨before.length, by simp⟩

instance : Decidable (Clear w held total rest) := decidable_of_iff _ clear_iff.symm

instance : Decidable (InReach t .run) := by
  unfold InReach
  dsimp only
  split <;> infer_instance

theorem guarded_of_after (h : ∀ k < n, (t.after fuel k).all (fun u => InReach u .run) = true) :
    Guarded (Step fuel) InReach t (List.replicate n .run) := by
  intro es e u hpre hu
  have hall : ∀ x ∈ es ++ [e], x = .run := fun x hx => eq_of_mem_replicate (hpre.subset hx)
  have hlen : (es ++ [e]).length ≤ n := by simpa using hpre.length_le
  rw [length_append, length_singleton] at hlen
  have hes : es = List.replicate es.length .run :=
    eq_replicate_iff.mpr ⟨rfl, fun x hx => hall x (mem_append_left _ hx)⟩
  obtain rfl : e = .run := hall e (by simp)
  rw [hes] at hu
  simpa [run_replicate_iff.mp hu] using h _ hlen

/-- The frame of a slab of 32-byte chunks, three of them free. -/
def host : ℕ := 0xD0000000

/-- The frame of a slab of 64-byte chunks: a buffer and a `struct purgeable`. -/
def small : ℕ := 0xD0001000

/-- No free frame is left; the one region has the buffer `buf`. -/
def usedUp (buf bytes : ℕ) : World where
  kernel :=
    { vmaFreelist := []
      vmaList := [⟨host + 32, 0xC0100000, 8192⟩]
      defragQueue := []
      rest :=
        { pageFreelist := []
          mem := fun a =>
            if a = host + 64 then host + 96 else if a = host + 96 then host + 128
            -- the page table at `0xD0002000`, with two frames
            else if a = 0xD0002400 then 0x3003 else if a = 0xD0002404 then 0x4003 else 0
          slabs := fun size =>
            if size.val = 2 then [⟨host, host, host + 64, 3⟩]
            else if size.val = 3 then [⟨host + 160, small, 0, 0⟩]
            else []
          pageDirectory := fun i => if i = 768 then 0x2003 else 0 } }
  purgeable := [small + 64]
  buf := fun p => if p = small + 64 then buf else 0
  bytes := fun p => if p = small + 64 then bytes else 0
  taken := fun _ => false

/-- Two frames are free, and one chunk for a `slab_meta`. -/
def lastChunk : World :=
  (usedUp 0 0).withSlab { (usedUp 0 0).slab with
    pageFreelist := [0xD0005000, 0xD0006000]
    slabs := fun size => if size.val = 2 then [⟨host, host, host + 128, 1⟩] else [] }

/-- There is no slab of 4096 bytes.  Its `slab_meta` comes from a nested call, which puts the last
chunk into a slab for more of them. -/
theorem slabAlloc_run_nested : ∃ σ n, Run (Step 3)
    ⟨lastChunk, fun _ => false, .running (slabAlloc 2 4096)⟩ (List.replicate n .run)
    ⟨lastChunk.withSlab σ, fun _ => false, .running (.ret 0xD0006000)⟩ := by
  have hcall : ((Slab.doSlabAlloc 2 4096 lastChunk.slab).toOption.map fun r =>
      (r.1, (r.2.slabs 2).map SlabMeta.slab, (r.2.slabs 9).map SlabMeta.slab)) =
      some (0xD0006000, [host, 0xD0005000], [0xD0006000]) := by decide +kernel
  obtain ⟨⟨p, σ⟩, hcall, hp⟩ := map_eq_some_iff.mp hcall
  obtain rfl : p = 0xD0006000 := (Prod.mk.inj hp).1
  exact ⟨σ, slabAlloc_run ⟨rfl, rfl⟩ (toOption_eq_some.mp hcall)⟩

theorem clear_of_purgeLoop_vmalloc :
    Clear (usedUp 0xC0100000 8192) (· = .list) 0 [small + 64] := by
  have hend : (purgeLoop 3 .ret (usedUp 0xC0100000 8192) (· = .list) 0 [small + 64]).held .list =
      false := by decide +kernel
  exact clear_of_purgeLoop rfl hend

/-- A task that calls `slab_alloc(4096)`. -/
def caller (w : World) : Task := ⟨w, fun _ => false, .running (slabAlloc 3 4096)⟩

theorem caller_calls (w : World) : Calls 3 (.slabAlloc 4096) (caller w) :=
  ⟨rfl, fun x hx => by cases hx⟩

/-- The region has a buffer of two pages from `vmalloc`, which the purge gives back
while `slab_alloc` waits for its frame. -/
theorem no_self_deadlock_vmalloc :
    ∃ t, Run (Step 3) (caller (usedUp 0xC0100000 8192)) (List.replicate 7 .run) t ∧
      (∃ p, t.code = .running (.ret p)) ∧ ¬ SelfDeadlock t := by
  have hsome : ((caller (usedUp 0xC0100000 8192)).after 3 7).map
      (fun t => match t.code with | .running (.ret p) => some p | _ => none) =
        some (some 0xD0004000) := by decide +kernel
  obtain ⟨t, ht, hcode⟩ := map_eq_some_iff.mp hsome
  have hrun := run_replicate_iff.mpr ht
  have hok : Guarded (Step 3) InReach (caller (usedUp 0xC0100000 8192)) (List.replicate 7 .run) :=
    guarded_of_after (by decide +kernel)
  refine ⟨t, hrun, ?_, no_self_deadlock (caller_calls _) hrun hok⟩
  split at hcode
  · next p hret => exact ⟨p, hret⟩
  · cases hcode

/-- **The slab allocator against itself**: the purge frees a slab buffer from
inside `slab_alloc`. -/
theorem slab_alloc_self_deadlock :
    Calls 3 (.slabAlloc 4096) (caller (usedUp small 64)) ∧
      ∃ t, Run (Step 3) (caller (usedUp small 64)) (List.replicate 4 .run) t ∧ SelfDeadlock t := by
  have hsome : ((caller (usedUp small 64)).after 3 4).map
      (fun t => match t.code with | .purging pl _ => some (pl, t.held pl.lock) | _ => none) =
        some (some (.slab 0 (small + 64) [], true)) := by decide +kernel
  obtain ⟨t, ht, hcode⟩ := map_eq_some_iff.mp hsome
  refine ⟨caller_calls _, t, run_replicate_iff.mpr ht, ?_⟩
  split at hcode
  · next pl k hpl =>
    obtain ⟨rfl, hheld⟩ := Prod.mk.inj (some_inj.mp hcode)
    exact ⟨_, k, hpl, hheld⟩
  · cases hcode

end Pressure
