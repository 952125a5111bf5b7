/-
The ring buffer (`lib/ringbuf.c`) under preemption.

Any number of tasks call `_rb_write` and `_rb_read` with elements of one byte,
one step at a time: the four semaphore operations, the copy and the update of
the index.  Semaphores are atomic counters.  `written` and `delivered` record
the bytes copied in and out, in the order in which the copies happen inside the
`queue` sections.

* `Inv` — the counts of `n_free` and `n_used`, the tasks on their way between
  them and the number of unread bytes determine each other; the indices are the
  numbers of bytes modulo the capacity;
* `ringbuf_fifo` — **the buffer is a lossless bounded FIFO**, whoever runs.
-/
import Minima.Runs
import Minima.Census
import Mathlib.Algebra.Group.Nat.Defs
import Mathlib.Data.Nat.ModEq

namespace Ringbuf

open Census Function List

/-- The next step of a task. -/
inductive Pc (α : Type)
  | idle
  /-- `sem_pend(&b->n_free)` -/
  | writePendFree (data : α)
  /-- `sem_pend(&b->queue)` of `_rb_write` -/
  | writePendQueue (data : α)
  /-- `memcpy(&b->buf[(b->head + 1) & (b->cap - 1)], data, 1)` -/
  | writeCopy (data : α)
  /-- `b->head = (b->head + 1) & (b->cap - 1)` -/
  | writeHead
  /-- `sem_post(&b->queue)` of `_rb_write` -/
  | writePostQueue
  /-- `sem_post(&b->n_used)` -/
  | writePostUsed
  /-- `sem_pend(&b->n_used)` -/
  | readPendUsed
  /-- `sem_pend(&b->queue)` of `_rb_read` -/
  | readPendQueue
  /-- `memcpy(out, &b->buf[(b->tail + 1) & (b->cap - 1)], 1)` -/
  | readCopy
  /-- `b->tail = (b->tail + 1) & (b->cap - 1)`; the byte is in `*out` -/
  | readTail (out : α)
  /-- `sem_post(&b->queue)` of `_rb_read` -/
  | readPostQueue (out : α)
  /-- `sem_post(&b->n_free)` -/
  | readPostFree (out : α)
  deriving DecidableEq, Repr

/-- A `struct ringbuf` and the tasks using it. -/
structure State (Tid α : Type) where
  queue : ℕ
  nFree : ℕ
  nUsed : ℕ
  buf : ℕ → α
  cap : ℕ
  head : ℕ
  tail : ℕ
  pc : Tid → Pc α
  written : List α
  delivered : List α

inductive Event (Tid α : Type)
  /-- task `t` calls `_rb_write` -/
  | rbWrite (t : Tid) (data : α)
  /-- task `t` calls `_rb_read` -/
  | rbRead (t : Tid)
  /-- task `t` executes its next step -/
  | run (t : Tid)
  deriving DecidableEq, Repr

variable {Tid α : Type} {s s' : State Tid α} {e : Event Tid α} {t : Tid}

section Steps

variable [DecidableEq Tid]

def State.goto (s : State Tid α) (t : Tid) (c : Pc α) : State Tid α :=
  { s with pc := update s.pc t c }

/-- `(i + 1) & (cap - 1)` -/
def State.next (s : State Tid α) (i : ℕ) : ℕ := (i + 1) &&& (s.cap - 1)

/-- One step of task `t`; it cannot run while the count it waits for is zero. -/
def State.run (s : State Tid α) (t : Tid) : Option (State Tid α) :=
  match s.pc t with
  | .idle => none
  | .writePendFree data =>
    if s.nFree = 0 then none
    else some { s.goto t (.writePendQueue data) with nFree := s.nFree - 1 }
  | .writePendQueue data =>
    if s.queue = 0 then none
    else some { s.goto t (.writeCopy data) with queue := s.queue - 1 }
  | .writeCopy data =>
    some { s.goto t .writeHead with
      buf := update s.buf (s.next s.head) data
      written := s.written ++ [data] }
  | .writeHead => some { s.goto t .writePostQueue with head := s.next s.head }
  | .writePostQueue => some { s.goto t .writePostUsed with queue := s.queue + 1 }
  | .writePostUsed => some { s.goto t .idle with nUsed := s.nUsed + 1 }
  | .readPendUsed =>
    if s.nUsed = 0 then none
    else some { s.goto t .readPendQueue with nUsed := s.nUsed - 1 }
  | .readPendQueue =>
    if s.queue = 0 then none
    else some { s.goto t .readCopy with queue := s.queue - 1 }
  | .readCopy =>
    some { s.goto t (.readTail (s.buf (s.next s.tail))) with
      delivered := s.delivered ++ [s.buf (s.next s.tail)] }
  | .readTail out => some { s.goto t (.readPostQueue out) with tail := s.next s.tail }
  | .readPostQueue out => some { s.goto t (.readPostFree out) with queue := s.queue + 1 }
  | .readPostFree _ => some { s.goto t .idle with nFree := s.nFree + 1 }

def State.step (s : State Tid α) : Event Tid α → Option (State Tid α)
  | .rbWrite t data =>
    match s.pc t with
    | .idle => some (s.goto t (.writePendFree data))
    | _ => none
  | .rbRead t =>
    match s.pc t with
    | .idle => some (s.goto t .readPendUsed)
    | _ => none
  | .run t => s.run t

def Step (s : State Tid α) (e : Event Tid α) (s' : State Tid α) : Prop := s.step e = some s'

/-- After `rb_initialize`, with `head` and `tail` zero and no task inside. -/
structure Initial (capacity : ℕ) (s : State Tid α) : Prop where
  cap : s.cap = capacity
  queue : s.queue = 1
  nFree : s.nFree = capacity
  nUsed : s.nUsed = 0
  indices : s.head = 0 ∧ s.tail = 0
  idle : ∀ t, s.pc t = .idle
  fresh : s.written = [] ∧ s.delivered = []

/-! ### What one step can do -/

/-- The transitions, one constructor for each line of the code. -/
inductive Move (s : State Tid α) : Event Tid α → State Tid α → Prop
  | enterWrite {t : Tid} {data : α} (hpc : s.pc t = .idle) :
      Move s (.rbWrite t data) (s.goto t (.writePendFree data))
  | enterRead {t : Tid} (hpc : s.pc t = .idle) : Move s (.rbRead t) (s.goto t .readPendUsed)
  | takeFree {t : Tid} {data : α} (hpc : s.pc t = .writePendFree data) (h : s.nFree ≠ 0) :
      Move s (.run t) { s.goto t (.writePendQueue data) with nFree := s.nFree - 1 }
  | writeLock {t : Tid} {data : α} (hpc : s.pc t = .writePendQueue data) (h : s.queue ≠ 0) :
      Move s (.run t) { s.goto t (.writeCopy data) with queue := s.queue - 1 }
  | copyIn {t : Tid} {data : α} (hpc : s.pc t = .writeCopy data) :
      Move s (.run t) { s.goto t .writeHead with
        buf := update s.buf (s.next s.head) data
        written := s.written ++ [data] }
  | moveHead {t : Tid} (hpc : s.pc t = .writeHead) :
      Move s (.run t) { s.goto t .writePostQueue with head := s.next s.head }
  | writeUnlock {t : Tid} (hpc : s.pc t = .writePostQueue) :
      Move s (.run t) { s.goto t .writePostUsed with queue := s.queue + 1 }
  | giveUsed {t : Tid} (hpc : s.pc t = .writePostUsed) :
      Move s (.run t) { s.goto t .idle with nUsed := s.nUsed + 1 }
  | takeUsed {t : Tid} (hpc : s.pc t = .readPendUsed) (h : s.nUsed ≠ 0) :
      Move s (.run t) { s.goto t .readPendQueue with nUsed := s.nUsed - 1 }
  | readLock {t : Tid} (hpc : s.pc t = .readPendQueue) (h : s.queue ≠ 0) :
      Move s (.run t) { s.goto t .readCopy with queue := s.queue - 1 }
  | copyOut {t : Tid} (hpc : s.pc t = .readCopy) :
      Move s (.run t) { s.goto t (.readTail (s.buf (s.next s.tail))) with
        delivered := s.delivered ++ [s.buf (s.next s.tail)] }
  | moveTail {t : Tid} {out : α} (hpc : s.pc t = .readTail out) :
      Move s (.run t) { s.goto t (.readPostQueue out) with tail := s.next s.tail }
  | readUnlock {t : Tid} {out : α} (hpc : s.pc t = .readPostQueue out) :
      Move s (.run t) { s.goto t (.readPostFree out) with queue := s.queue + 1 }
  | giveFree {t : Tid} {out : α} (hpc : s.pc t = .readPostFree out) :
      Move s (.run t) { s.goto t .idle with nFree := s.nFree + 1 }

theorem move_of_run (hstep : s.run t = some s') : Move s (.run t) s' := by
  unfold State.run at hstep
  cases hpc : s.pc t <;>
    simp only [hpc, reduceCtorEq, Option.ite_none_left_eq_some, Option.some.injEq] at hstep
  case writePendFree =>
    obtain ⟨hne, rfl⟩ := hstep
    exact .takeFree hpc hne
  case writePendQueue =>
    obtain ⟨hne, rfl⟩ := hstep
    exact .writeLock hpc hne
  case writeCopy => exact hstep ▸ .copyIn hpc
  case writeHead => exact hstep ▸ .moveHead hpc
  case writePostQueue => exact hstep ▸ .writeUnlock hpc
  case writePostUsed => exact hstep ▸ .giveUsed hpc
  case readPendUsed =>
    obtain ⟨hne, rfl⟩ := hstep
    exact .takeUsed hpc hne
  case readPendQueue =>
    obtain ⟨hne, rfl⟩ := hstep
    exact .readLock hpc hne
  case readCopy => exact hstep ▸ .copyOut hpc
  case readTail => exact hstep ▸ .moveTail hpc
  case readPostQueue => exact hstep ▸ .readUnlock hpc
  case readPostFree => exact hstep ▸ .giveFree hpc

theorem move_of_step (hstep : Step s e s') : Move s e s' := by
  unfold Step State.step at hstep
  cases e with
  | rbWrite t data =>
    cases hpc : s.pc t <;> simp only [hpc, reduceCtorEq, Option.some.injEq] at hstep
    exact hstep ▸ .enterWrite hpc
  | rbRead t =>
    cases hpc : s.pc t <;> simp only [hpc, reduceCtorEq, Option.some.injEq] at hstep
    exact hstep ▸ .enterRead hpc
  | run t => exact move_of_run hstep

theorem cap_step (hstep : Step s e s') : s'.cap = s.cap := by
  cases move_of_step hstep <;> rfl

end Steps

/-! ### The tasks on their way -/

/-- In a `queue` section. -/
def inQueue : Pc α → ℕ
  | .writeCopy _ | .writeHead | .writePostQueue | .readCopy | .readTail _ | .readPostQueue _ => 1
  | _ => 0

/-- A writer that has a free slot and has not filled it. -/
def filling : Pc α → ℕ
  | .writePendQueue _ | .writeCopy _ => 1
  | _ => 0

/-- A writer that has filled its slot and not counted it in `n_used`. -/
def posting : Pc α → ℕ
  | .writeHead | .writePostQueue | .writePostUsed => 1
  | _ => 0

/-- A reader that has been promised a byte and has not copied it. -/
def fetching : Pc α → ℕ
  | .readPendQueue | .readCopy => 1
  | _ => 0

/-- A reader that has copied its byte and not counted the slot in `n_free`. -/
def releasing : Pc α → ℕ
  | .readTail _ | .readPostQueue _ | .readPostFree _ => 1
  | _ => 0

/-- A writer between the copy and the update of `head`. -/
def atHead : Pc α → ℕ
  | .writeHead => 1
  | _ => 0

/-- A reader between the copy and the update of `tail`. -/
def atTail : Pc α → ℕ
  | .readTail _ => 1
  | _ => 0

theorem atHead_le_inQueue (c : Pc α) : atHead c ≤ inQueue c := by
  cases c <;> simp [atHead, inQueue]

theorem atTail_le_inQueue (c : Pc α) : atTail c ≤ inQueue c := by
  cases c <;> simp [atTail, inQueue]

/-! ### The invariant -/

/-- Byte number `i` has been written and not been delivered. -/
def Unread (s : State Tid α) (i : ℕ) : Prop := s.delivered.length ≤ i ∧ i < s.written.length

/-- The unread bytes are in their slots, and the delivered ones were the first. -/
structure Contents (s : State Tid α) : Prop where
  unread : ∀ i, Unread s i → s.written[i]? = some (s.buf ((i + 1) % s.cap))
  order : s.delivered <+: s.written

theorem Contents.of_eq (h : Contents s) (hw : s'.written = s.written)
    (hd : s'.delivered = s.delivered) (hbuf : s'.buf = s.buf) (hcap : s'.cap = s.cap) :
    Contents s' := by
  refine ⟨fun i hi => ?_, ?_⟩
  · rw [Unread, hw, hd] at hi
    rw [hw, hbuf, hcap]
    exact h.unread i hi
  · rw [hw, hd]
    exact h.order

variable [Fintype Tid]

/-- What the three semaphores count. -/
structure Counts (s : State Tid α) : Prop where
  lock : s.queue + total inQueue s.pc = 1
  used : s.nUsed + total posting s.pc + total fetching s.pc + s.delivered.length =
    s.written.length
  free : s.nFree + total filling s.pc + total releasing s.pc + s.written.length =
    s.cap + s.delivered.length

/-- The indices are the numbers of bytes copied, modulo the capacity, up to the
task that has copied and not yet moved its index. -/
structure Indices (s : State Tid α) : Prop where
  mask : ∀ i, s.next i = (i + 1) % s.cap
  head : s.head + total atHead s.pc ≡ s.written.length [MOD s.cap]
  tail : s.tail + total atTail s.pc ≡ s.delivered.length [MOD s.cap]

/-- The inductive invariant. -/
structure Inv (s : State Tid α) : Prop where
  counts : Counts s
  indices : Indices s
  contents : Contents s

theorem Initial.inv {k : ℕ} (h : Initial (2 ^ k) s) : Inv s := by
  have hzero : ∀ w : Pc α → ℕ, w .idle = 0 → total w s.pc = 0 := fun w hw =>
    total_eq_zero fun t => by rw [h.idle t, hw]
  obtain ⟨hw, hd⟩ := h.fresh
  obtain ⟨hhead, htail⟩ := h.indices
  refine ⟨⟨?_, ?_, ?_⟩, ⟨fun i => ?_, ?_, ?_⟩, ⟨fun i hu => ?_, ?_⟩⟩
  · rw [h.queue, hzero _ rfl]
  · rw [h.nUsed, hzero _ rfl, hzero _ rfl, hw, hd]
    rfl
  · rw [h.nFree, hzero _ rfl, hzero _ rfl, hw, hd, h.cap]
    rfl
  · rw [State.next, h.cap, Nat.and_two_pow_sub_one_eq_mod]
  · rw [hhead, hzero _ rfl, hw]
    exact Nat.ModEq.refl _
  · rw [htail, hzero _ rfl, hd]
    exact Nat.ModEq.refl _
  · rw [Unread, hw] at hu
    exact absurd hu.2 (Nat.not_lt_zero i)
  · rw [hd]
    exact nil_prefix

variable [DecidableEq Tid]

/-- A step that moves task `t` to `c` keeps the counts if what changes in the
semaphores and records balances with where the task was and where it is. -/
theorem Counts.of_move {c : Pc α} (h : Counts s) (hpc : s'.pc = update s.pc t c)
    (hcap : s'.cap = s.cap)
    (hlock : s'.queue + inQueue c = s.queue + inQueue (s.pc t))
    (hused : s'.nUsed + posting c + fetching c + s'.delivered.length + s.written.length =
      s.nUsed + posting (s.pc t) + fetching (s.pc t) + s.delivered.length + s'.written.length)
    (hfree : s'.nFree + filling c + releasing c + s'.written.length + s.delivered.length =
      s.nFree + filling (s.pc t) + releasing (s.pc t) + s.written.length + s'.delivered.length) :
    Counts s' := by
  have hmove := fun w : Pc α → ℕ => total_update w s.pc t c
  simp only [← hpc] at hmove
  refine ⟨?_, ?_, ?_⟩
  · have h1 := h.lock
    have h2 := hmove inQueue
    omega
  · have h1 := h.used
    have h2 := hmove posting
    have h3 := hmove fetching
    omega
  · have h1 := h.free
    have h2 := hmove filling
    have h3 := hmove releasing
    omega

/-- **One step** keeps the counts: what a semaphore loses the task has, and what
the task gives up a semaphore or a record gets. -/
theorem Counts.step (h : Counts s) (hstep : Step s e s') : Counts s' := by
  cases move_of_step hstep <;>
    refine h.of_move rfl rfl ?_ ?_ ?_ <;>
    simp only [State.goto, *, inQueue, posting, fetching, filling, releasing,
      length_append, length_singleton] <;> omega

/-! ### The indices -/

theorem Indices.of_move {c : Pc α} (h : Indices s) (hpc : s'.pc = update s.pc t c)
    (hcap : s'.cap = s.cap)
    (hhead : s'.head + atHead c + s.written.length ≡
      s.head + atHead (s.pc t) + s'.written.length [MOD s.cap])
    (htail : s'.tail + atTail c + s.delivered.length ≡
      s.tail + atTail (s.pc t) + s'.delivered.length [MOD s.cap]) : Indices s' := by
  have balance : ∀ (w : Pc α → ℕ) (i i' n n' : ℕ), i + total w s.pc ≡ n [MOD s.cap] →
      i' + w c + n ≡ i + w (s.pc t) + n' [MOD s.cap] → i' + total w s'.pc ≡ n' [MOD s.cap] := by
    intro w i i' n n' hi hmove
    have htotal := total_update w s.pc t c
    rw [← hpc] at htotal
    refine Nat.ModEq.add_right_cancel' (w c + n + total w s.pc) ?_
    calc i' + total w s'.pc + (w c + n + total w s.pc)
        = i' + w c + n + (total w s'.pc + total w s.pc) := by omega
      _ ≡ i + w (s.pc t) + n' + (total w s'.pc + total w s.pc) [MOD s.cap] :=
          hmove.add_right _
      _ = i + total w s.pc + (n' + (total w s.pc + w c)) := by omega
      _ ≡ n + (n' + (total w s.pc + w c)) [MOD s.cap] := hi.add_right _
      _ = n' + (w c + n + total w s.pc) := by omega
  refine ⟨fun i => ?_, ?_, ?_⟩
  · have := h.mask i
    simpa only [State.next, hcap] using this
  · rw [hcap]
    exact balance _ _ _ _ _ h.head hhead
  · rw [hcap]
    exact balance _ _ _ _ _ h.tail htail

theorem Indices.step (h : Indices s) (hstep : Step s e s') : Indices s' := by
  cases move_of_step hstep with
  | @copyIn t data hpc =>
    refine h.of_move rfl rfl ?_ ?_ <;> simp only [State.goto, hpc, atHead, atTail, Nat.add_zero,
      length_append, length_singleton]
    · rw [Nat.add_right_comm, Nat.add_assoc]
    · rfl
  | @copyOut t hpc =>
    refine h.of_move rfl rfl ?_ ?_ <;> simp only [State.goto, hpc, atHead, atTail, Nat.add_zero,
      length_append, length_singleton]
    · rfl
    · rw [Nat.add_right_comm, Nat.add_assoc]
  | @moveHead t hpc =>
    refine h.of_move rfl rfl ?_ ?_ <;> simp only [State.goto, hpc, atHead, atTail, Nat.add_zero]
    · rw [h.mask]
      exact (Nat.mod_modEq _ _).add_right _
    · rfl
  | @moveTail t out hpc =>
    refine h.of_move rfl rfl ?_ ?_ <;> simp only [State.goto, hpc, atHead, atTail, Nat.add_zero]
    · rfl
    · rw [h.mask]
      exact (Nat.mod_modEq _ _).add_right _
  | _ =>
    refine h.of_move rfl rfl ?_ ?_ <;> simp only [State.goto, *, atHead, atTail] <;> rfl

/-! ### The bytes -/

/-- With a writer at its copy there is no other task in the section, so `head`
is up to date. -/
theorem next_head (hc : Counts s) (hi : Indices s) {data : α} (hpc : s.pc t = .writeCopy data) :
    s.next s.head = (s.written.length + 1) % s.cap := by
  have hzero : total atHead s.pc = 0 := by
    refine total_eq_zero_of_exclusive (t := t) atHead_le_inQueue ?_ ?_ ?_
    · have := hc.lock
      omega
    · rw [hpc]
      exact Nat.one_pos
    · rw [hpc]
      rfl
  have hhead := hi.head
  rw [hzero, Nat.add_zero] at hhead
  rw [hi.mask]
  exact hhead.add_right 1

theorem next_tail (hc : Counts s) (hi : Indices s) (hpc : s.pc t = .readCopy) :
    s.next s.tail = (s.delivered.length + 1) % s.cap := by
  have hzero : total atTail s.pc = 0 := by
    refine total_eq_zero_of_exclusive (t := t) atTail_le_inQueue ?_ ?_ ?_
    · have := hc.lock
      omega
    · rw [hpc]
      exact Nat.one_pos
    · rw [hpc]
      rfl
  have htail := hi.tail
  rw [hzero, Nat.add_zero] at htail
  rw [hi.mask]
  exact htail.add_right 1

/-- **No slot is overwritten before it is read**: a writer at its copy has been
given a slot, so fewer bytes than the capacity are unread. -/
theorem next_head_ne (hc : Counts s) (hi : Indices s) {data : α}
    (hpc : s.pc t = .writeCopy data) {i : ℕ} (hu : Unread s i) :
    s.next s.head ≠ (i + 1) % s.cap := by
  have hslot : 1 ≤ total filling s.pc := by
    have := weight_le_total filling s.pc t
    rwa [hpc] at this
  have hfree := hc.free
  obtain ⟨hge, hlt⟩ := hu
  rw [next_head hc hi hpc]
  intro heq
  have hmod : s.written.length ≡ i [MOD s.cap] := Nat.ModEq.add_right_cancel' 1 heq
  have hdvd := (Nat.modEq_iff_dvd' hlt.le).mp hmod.symm
  have := Nat.le_of_dvd (by omega) hdvd
  omega

theorem concat_prefix {l m : List α} {a : α} (h : l <+: m) (ha : m[l.length]? = some a) :
    l ++ [a] <+: m := by
  obtain ⟨r, rfl⟩ := h
  cases r with
  | nil => simp at ha
  | cons b r =>
    obtain rfl : b = a := by simpa using ha
    exact ⟨r, by simp⟩

theorem Contents.step (h : Contents s) (hc : Counts s) (hi : Indices s) (hstep : Step s e s') :
    Contents s' := by
  cases move_of_step hstep with
  | @copyIn t data hpc =>
    refine ⟨fun i hu => ?_, h.order.trans (prefix_append _ _)⟩
    obtain ⟨hge, hlt⟩ := hu
    simp only [State.goto, length_append, length_singleton] at hge hlt ⊢
    rcases Nat.lt_succ_iff_lt_or_eq.mp hlt with hold | rfl
    · rw [getElem?_append_left hold,
        update_of_ne (next_head_ne hc hi hpc ⟨hge, hold⟩).symm]
      exact h.unread i ⟨hge, hold⟩
    · rw [← next_head hc hi hpc, update_self]
      simp
  | @copyOut t hpc =>
    -- the reader was promised a byte, so the first unread byte exists and is in this slot
    have hbyte : 1 ≤ total fetching s.pc := by
      have := weight_le_total fetching s.pc t
      rwa [hpc] at this
    have hused := hc.used
    refine ⟨fun i hu => ?_, ?_⟩
    · obtain ⟨hge, hlt⟩ := hu
      simp only [State.goto, length_append, length_singleton] at hge hlt ⊢
      exact h.unread i ⟨by omega, hlt⟩
    · refine concat_prefix h.order ?_
      rw [next_tail hc hi hpc]
      exact h.unread _ ⟨le_rfl, by omega⟩
  | _ => exact h.of_eq rfl rfl rfl rfl

/-! ### Every run -/

theorem Inv.step (h : Inv s) (hstep : Step s e s') : Inv s' :=
  ⟨h.counts.step hstep, h.indices.step hstep, h.contents.step h.counts h.indices hstep⟩

/-- **The ring buffer is a lossless bounded FIFO**, for any number of tasks and any interleaving:
what has been delivered is a prefix of what has been written, at most the capacity is unread,
every unread byte is in its slot, and no writer is about to copy over one. -/
theorem ringbuf_fifo {k : ℕ} {s0 s : State Tid α} {es : List (Event Tid α)}
    (h0 : Initial (2 ^ k) s0) (hrun : Run Step s0 es s) :
    s.delivered <+: s.written ∧
    s.written.length ≤ s.delivered.length + 2 ^ k ∧
    (∀ i, Unread s i → s.written[i]? = some (s.buf ((i + 1) % 2 ^ k))) ∧
    (∀ t data, s.pc t = .writeCopy data → ∀ i, Unread s i →
      s.next s.head ≠ (i + 1) % 2 ^ k) := by
  obtain ⟨hinv, hcap⟩ : Inv s ∧ s.cap = 2 ^ k := by
    refine Run.invariant (I := fun s => Inv s ∧ s.cap = 2 ^ k) ⟨h0.inv, h0.cap⟩ ?_ hrun
    rintro s e s' ⟨hinv, hcap⟩ hstep
    exact ⟨hinv.step hstep, (cap_step hstep).trans hcap⟩
  refine ⟨hinv.contents.order, ?_, ?_, ?_⟩
  · have := hinv.counts.free
    omega
  · rw [← hcap]
    exact hinv.contents.unread
  · intro t data hpc i hu
    rw [← hcap]
    exact next_head_ne hinv.counts hinv.indices hpc hu

/-- A buffer with `cap` slots, just initialised. -/
def fresh (cap : ℕ) : State Bool ℕ where
  queue := 1
  nFree := cap
  nUsed := 0
  buf _ := 0
  cap := cap
  head := 0
  tail := 0
  pc _ := .idle
  written := []
  delivered := []

/-- One byte goes through while a second writer is still inside. -/
def overlap : List (Event Bool ℕ) :=
  .rbWrite true 7 :: List.replicate 6 (.run true) ++ [.rbRead false, .run false, .rbWrite true 8,
    .run true] ++ List.replicate 5 (.run false)

theorem ringbuf_fifo_overlap :
    ∃ s, Run Step (fresh (2 ^ 1)) overlap s ∧ s.delivered = [7] ∧ s.delivered <+: s.written := by
  have h0 : Initial (2 ^ 1) (fresh (2 ^ 1)) :=
    ⟨rfl, rfl, rfl, rfl, ⟨rfl, rfl⟩, fun _ => rfl, rfl, rfl⟩
  have hsome : (overlap.foldlM State.step (fresh (2 ^ 1))).isSome := by decide
  obtain ⟨s, hs⟩ := Option.isSome_iff_exists.mp hsome
  have hrun : Run Step (fresh (2 ^ 1)) overlap s := run_iff_foldlM.mpr hs
  refine ⟨s, hrun, ?_, (ringbuf_fifo h0 hrun).1⟩
  have hseven : (overlap.foldlM State.step (fresh (2 ^ 1))).map (·.delivered) = some [7] := by
    decide
  rw [hs] at hseven
  exact Option.some_inj.mp hseven

end Ringbuf
