/-
Purgeable memory (`mm/purge.c`) under preemption.

A purgeable region is a buffer that may be freed behind its owner's back, except
between `purgeable_get` and `purgeable_put`.  Any number of tasks call the
functions of the interface, one step at a time.  The semaphores `s_list` and the
locks of the regions are atomic counters.  The allocator is a parameter: `kmalloc`
returns any address that is not in use, or first runs out of page frames and
calls `purgeable_purge` itself.

* `Shared`, `Local`, `Step` — the regions, what each task is doing, and the
  steps of `purgeable_alloc`, `purgeable_get`, `purgeable_put`,
  `purgeable_free` and `purgeable_purge`;
* `Move` — what one step can do.
-/
import Minima.Runs
import Minima.Census
import Minima.Memory

namespace Purge

open Function Option

/-- The semaphores: `s_list`, and the lock of each region. -/
inductive Sem
  | list
  | region (r : ℕ)
  deriving DecidableEq, Repr

/-- Who called `purgeable_purge`: a task, or `pf_alloc` on behalf of the
`kmalloc` of `purgeable_alloc` or `purgeable_get`. -/
inductive Caller
  | user
  | alloc (bytes : ℕ)
  | get (r : ℕ) (wasPurged : Bool)
  deriving DecidableEq, Repr

/-- Inside `purgeable_purge`, with the regions of the list still to come. -/
inductive PurgePc
  /-- `sem_pend(&s_list)` -/
  | pend
  | visit (rest : List ℕ)
  /-- `sem_pend(&p->lock)` of `mem_purge` -/
  | memPend (r : ℕ) (rest : List ℕ)
  /-- `if (!p->buf)` -/
  | memTest (r : ℕ) (rest : List ℕ)
  /-- `p->on_purge(p->on_purge_ctx)` -/
  | memCallback (r : ℕ) (rest : List ℕ)
  /-- `kfree(p->buf)` -/
  | memFree (r : ℕ) (rest : List ℕ)
  /-- `p->buf = NULL` -/
  | memClear (r : ℕ) (rest : List ℕ)
  /-- `sem_post(&p->lock)`, before `mem_purge` returns `n` -/
  | memPost (r : ℕ) (n : ℕ) (rest : List ℕ)
  /-- `sem_post(&s_list)` -/
  | post
  deriving DecidableEq, Repr

/-- The next step of a task. -/
inductive Pc
  | idle
  /-- the calls of `kmalloc` in `purgeable_alloc` -/
  | allocKmalloc (bytes : ℕ)
  | allocPend (r : ℕ)
  /-- `v_ilist_prepend(&p->linkage, &s_purgeable)` -/
  | allocLink (r : ℕ)
  | allocPost (r : ℕ)
  | getPend (r : ℕ)
  /-- `*was_purged = p->buf ? 0 : 1` -/
  | getFlag (r : ℕ)
  /-- `if (!p->buf)` -/
  | getTest (r : ℕ) (wasPurged : Bool)
  /-- `kmalloc(p->bytes)` -/
  | getKmalloc (r : ℕ) (wasPurged : Bool)
  /-- `p->buf = a` -/
  | getStore (r : ℕ) (wasPurged : Bool) (a : ℕ)
  /-- `return p->buf` -/
  | getReturn (r : ℕ) (wasPurged : Bool)
  /-- the loop of `purgeable_put(ptr)`, called by the holder of region `r` -/
  | putScan (r ptr : ℕ) (cur : Option ℕ)
  /-- `sem_post` on the lock of the region found -/
  | putPost (r found : ℕ)
  | freePend (r : ℕ)
  /-- `sem_pend(&s_list)` of `purgeable_free` -/
  | freePendList (r : ℕ)
  /-- `v_ilist_remove(&p->linkage)` -/
  | freeUnlink (r : ℕ)
  | freePost (r : ℕ)
  /-- `kfree(p->buf)` and `kfree(p)` -/
  | freeKfree (r : ℕ)
  | purge (caller : Caller) (bytes total : ℕ) (pc : PurgePc)
  /-- the scan of `purgeable_put` has followed a link of a region that is gone -/
  | wild
  deriving DecidableEq, Repr

/-- A task: the regions it has got and not put back, with the pointers
`purgeable_get` returned, and the regions whose lock a `purgeable_put` of it was
to release and did not. -/
structure Local where
  pc : Pc
  mine : List (ℕ × ℕ)
  lost : List ℕ
  deriving DecidableEq, Repr

/-- What the tasks share.  A region is known by a number that is never used
again; `order` is the list `s_purgeable`.  `live` are the buffers allocated and
`content` what is in them; `lastPut` records the buffer and its contents at the
last `purgeable_put` of each region. -/
structure Shared where
  order : List ℕ
  buf : ℕ → Option ℕ
  bytes : ℕ → ℕ
  count : Sem → ℕ
  nextRegion : ℕ
  live : ℕ → Bool
  content : ℕ → ℕ
  lastPut : ℕ → Option (ℕ × ℕ)

/-- What a task does next, where there is a choice. -/
inductive Input
  | alloc (bytes : ℕ)
  | get (r : ℕ)
  | put (r ptr : ℕ)
  | free (r : ℕ)
  | purge (bytes : ℕ)
  /-- the holder of region `r` changes what is in the buffer -/
  | write (r ptr v : ℕ)
  /-- the next step of the function it is in -/
  | run
  /-- `kmalloc` returns `a` -/
  | kmalloc (a : ℕ)
  /-- `pf_alloc`, called by `kmalloc`, finds no frame and purges -/
  | pressure
  deriving DecidableEq, Repr

namespace Shared

/-- The count of a semaphore after `sem_pend`, which blocks at zero. -/
def pend (g : Shared) (x : Sem) : Option Shared :=
  if g.count x = 0 then none
  else some { g with count := update g.count x (g.count x - 1) }

/-- `sem_post` -/
def post (g : Shared) (x : Sem) : Shared :=
  { g with count := update g.count x (g.count x + 1) }

/-- `kfree(p->buf)` -/
def kfreeBuf (g : Shared) (r : ℕ) : Shared :=
  match g.buf r with
  | none => g
  | some a => { g with live := update g.live a false }

/-- The region after `c` in the list. -/
def next (g : Shared) (c : ℕ) : Option ℕ := (g.order.dropWhile (· ≠ c)).tail.head?

end Shared

/-- Back in the caller of `purgeable_purge`. -/
def Caller.return : Caller → Pc
  | .user => .idle
  | .alloc bytes => .allocKmalloc bytes
  | .get r wasPurged => .getKmalloc r wasPurged

/-- A step of `purgeable_purge`. -/
def purgeStep (g : Shared) (caller : Caller) (bytes total : ℕ) : PurgePc → Option (Shared × Pc)
  | .pend => (g.pend .list).map fun g => (g, .purge caller bytes total (.visit g.order))
  | .visit [] => some (g, .purge caller bytes total .post)
  | .visit (r :: rest) => some (g, .purge caller bytes total (.memPend r rest))
  | .memPend r rest =>
    (g.pend (.region r)).map fun g => (g, .purge caller bytes total (.memTest r rest))
  | .memTest r rest =>
    some (g, .purge caller bytes total
      (if g.buf r = none then .memPost r 0 rest else .memCallback r rest))
  | .memCallback r rest => some (g, .purge caller bytes total (.memFree r rest))
  | .memFree r rest => some (g.kfreeBuf r, .purge caller bytes total (.memClear r rest))
  | .memClear r rest =>
    some ({ g with buf := update g.buf r none },
      .purge caller bytes total (.memPost r (g.bytes r) rest))
  | .memPost r n rest =>
    some (g.post (.region r), .purge caller bytes (total + n)
      (if bytes ≠ 0 ∧ bytes ≤ total + n then .post else .visit rest))
  | .post => some (g.post .list, caller.return)

/-- A step of task `l` inside a function. -/
def runStep (g : Shared) (l : Local) : Option (Shared × Local) :=
  let goto (g : Shared) (c : Pc) := (g, { l with pc := c })
  match l.pc with
  | .idle | .allocKmalloc _ | .getKmalloc _ _ | .wild => none
  | .allocPend r => (g.pend .list).map fun g => goto g (.allocLink r)
  | .allocLink r => some (goto { g with order := g.order ++ [r] } (.allocPost r))
  | .allocPost _ => some (goto (g.post .list) .idle)
  | .getPend r => (g.pend (.region r)).map fun g => goto g (.getFlag r)
  | .getFlag r => some (goto g (.getTest r (g.buf r).isNone))
  | .getTest r wasPurged =>
    some (goto g (if g.buf r = none then .getKmalloc r wasPurged else .getReturn r wasPurged))
  | .getStore r wasPurged a =>
    some (goto { g with buf := update g.buf r (some a) } (.getReturn r wasPurged))
  | .getReturn r _ =>
    match g.buf r with
    | none => some (g, { l with pc := .idle, lost := r :: l.lost })
    | some ptr => some (g, { l with pc := .idle, mine := (r, ptr) :: l.mine })
  | .putScan r _ none => some (g, { l with pc := .idle, lost := r :: l.lost })
  | .putScan r ptr (some c) =>
    some (goto g (if c ∉ g.order then .wild
      else if g.buf c = some ptr then .putPost r c
      else .putScan r ptr (g.next c)))
  | .putPost r found =>
    some (g.post (.region found),
      { l with pc := .idle, lost := if found = r then l.lost else r :: l.lost })
  | .freePend r => (g.pend (.region r)).map fun g => goto g (.freePendList r)
  | .freePendList r =>
    -- `assert(p->bytes)`
    if g.bytes r = 0 then none else (g.pend .list).map fun g => goto g (.freeUnlink r)
  | .freeUnlink r => some (goto { g with order := g.order.erase r } (.freePost r))
  | .freePost r => some (goto (g.post .list) (.freeKfree r))
  | .freeKfree r =>
    some (goto { g.kfreeBuf r with buf := update g.buf r none } .idle)
  | .purge caller bytes total pc =>
    (purgeStep g caller bytes total pc).map fun (g, c) => goto g c

/-- A step of a task with a choice of input.  The region of a call is on the
list when the call is made. -/
def localStep (g : Shared) (l : Local) : Input → Option (Shared × Local)
  | .alloc bytes =>
    if l.pc = .idle then some (g, { l with pc := .allocKmalloc bytes }) else none
  | .get r =>
    if l.pc = .idle ∧ r ∈ g.order then some (g, { l with pc := .getPend r }) else none
  | .put r ptr =>
    if l.pc = .idle ∧ (r, ptr) ∈ l.mine then
      some ({ g with lastPut := update g.lastPut r (some (ptr, g.content ptr)) },
        { l with pc := .putScan r ptr g.order.head?, mine := l.mine.erase (r, ptr) })
    else none
  | .free r =>
    if l.pc = .idle ∧ r ∈ g.order then some (g, { l with pc := .freePend r }) else none
  | .purge bytes =>
    if l.pc = .idle then some (g, { l with pc := .purge .user bytes 0 .pend }) else none
  | .write r ptr v =>
    if l.pc = .idle ∧ (r, ptr) ∈ l.mine then
      some ({ g with content := update g.content ptr v }, l)
    else none
  | .run => runStep g l
  | .kmalloc a =>
    if g.live a then none
    else
      let g := { g with live := update g.live a true
                        content := update g.content a 0 }
      match l.pc with
      | .allocKmalloc bytes =>
        let r := g.nextRegion
        some ({ g with
            buf := update g.buf r (some a)
            bytes := update g.bytes r bytes
            count := update g.count (.region r) 1
            nextRegion := r + 1 },
          { l with pc := .allocPend r })
      | .getKmalloc r wasPurged => some (g, { l with pc := .getStore r wasPurged a })
      | _ => none
  | .pressure =>
    match l.pc with
    | .allocKmalloc bytes => some (g, { l with pc := .purge (.alloc bytes) pageSize 0 .pend })
    | .getKmalloc r wasPurged =>
      some (g, { l with pc := .purge (.get r wasPurged) pageSize 0 .pend })
    | _ => none

/-- The shared state and the tasks. -/
structure State (Tid : Type) where
  shared : Shared
  tasks : Tid → Local

inductive Event (Tid : Type)
  | task (t : Tid) (i : Input)
  /-- other code uses memory that is not in a buffer -/
  | other (a v : ℕ)
  deriving DecidableEq, Repr

variable {Tid : Type} [DecidableEq Tid]

def State.step (s : State Tid) : Event Tid → Option (State Tid)
  | .task t i =>
    (localStep s.shared (s.tasks t) i).map fun (g, l) =>
      { shared := g, tasks := update s.tasks t l }
  | .other a v =>
    if s.shared.live a then none
    else some { s with shared := { s.shared with
      content := update s.shared.content a v } }

def Step (s : State Tid) (e : Event Tid) (s' : State Tid) : Prop := s.step e = some s'

/-! ### What one step can do -/

def Local.goto (l : Local) (c : Pc) : Local := { l with pc := c }

/-- The steps of `purgeable_purge`. -/
inductive PurgeMove (g : Shared) (k : Caller) (bytes total : ℕ) : PurgePc → Shared → Pc → Prop
  | pend (h : g.count .list ≠ 0) :
      PurgeMove g k bytes total .pend
        { g with count := update g.count .list (g.count .list - 1) }
        (.purge k bytes total (.visit g.order))
  | finish : PurgeMove g k bytes total (.visit []) g (.purge k bytes total .post)
  | visit {r : ℕ} {rest : List ℕ} :
      PurgeMove g k bytes total (.visit (r :: rest)) g (.purge k bytes total (.memPend r rest))
  | lock {r : ℕ} {rest : List ℕ} (h : g.count (.region r) ≠ 0) :
      PurgeMove g k bytes total (.memPend r rest)
        { g with count := update g.count (.region r) (g.count (.region r) - 1) }
        (.purge k bytes total (.memTest r rest))
  | purged {r : ℕ} {rest : List ℕ} (h : g.buf r = none) :
      PurgeMove g k bytes total (.memTest r rest) g (.purge k bytes total (.memPost r 0 rest))
  | present {r : ℕ} {rest : List ℕ} (h : g.buf r ≠ none) :
      PurgeMove g k bytes total (.memTest r rest) g (.purge k bytes total (.memCallback r rest))
  | callback {r : ℕ} {rest : List ℕ} :
      PurgeMove g k bytes total (.memCallback r rest) g (.purge k bytes total (.memFree r rest))
  | free {r : ℕ} {rest : List ℕ} :
      PurgeMove g k bytes total (.memFree r rest) (g.kfreeBuf r)
        (.purge k bytes total (.memClear r rest))
  | clear {r : ℕ} {rest : List ℕ} :
      PurgeMove g k bytes total (.memClear r rest)
        { g with buf := update g.buf r none }
        (.purge k bytes total (.memPost r (g.bytes r) rest))
  | unlock {r n : ℕ} {rest : List ℕ} {p : PurgePc} (h : p = .post ∨ p = .visit rest) :
      PurgeMove g k bytes total (.memPost r n rest) (g.post (.region r))
        (.purge k bytes (total + n) p)
  | done : PurgeMove g k bytes total .post (g.post .list) k.return

/-- The steps of a task. -/
inductive Move (g : Shared) (l : Local) : Input → Shared → Local → Prop
  | callAlloc {bytes : ℕ} (h : l.pc = .idle) :
      Move g l (.alloc bytes) g (l.goto (.allocKmalloc bytes))
  | callGet {r : ℕ} (h : l.pc = .idle) (hr : r ∈ g.order) :
      Move g l (.get r) g (l.goto (.getPend r))
  | callPut {r ptr : ℕ} (h : l.pc = .idle) (hm : (r, ptr) ∈ l.mine) :
      Move g l (.put r ptr)
        { g with lastPut := update g.lastPut r (some (ptr, g.content ptr)) }
        { l with pc := .putScan r ptr g.order.head?, mine := l.mine.erase (r, ptr) }
  | callFree {r : ℕ} (h : l.pc = .idle) (hr : r ∈ g.order) :
      Move g l (.free r) g (l.goto (.freePend r))
  | callPurge {bytes : ℕ} (h : l.pc = .idle) :
      Move g l (.purge bytes) g (l.goto (.purge .user bytes 0 .pend))
  | write {r ptr v : ℕ} (h : l.pc = .idle) (hm : (r, ptr) ∈ l.mine) :
      Move g l (.write r ptr v) { g with content := update g.content ptr v } l
  | allocPend {r : ℕ} (h : l.pc = .allocPend r) (hc : g.count .list ≠ 0) :
      Move g l .run { g with count := update g.count .list (g.count .list - 1) }
        (l.goto (.allocLink r))
  | allocLink {r : ℕ} (h : l.pc = .allocLink r) :
      Move g l .run { g with order := g.order ++ [r] } (l.goto (.allocPost r))
  | allocPost {r : ℕ} (h : l.pc = .allocPost r) : Move g l .run (g.post .list) (l.goto .idle)
  | getPend {r : ℕ} (h : l.pc = .getPend r) (hc : g.count (.region r) ≠ 0) :
      Move g l .run
        { g with count := update g.count (.region r) (g.count (.region r) - 1) }
        (l.goto (.getFlag r))
  | getFlag {r : ℕ} (h : l.pc = .getFlag r) :
      Move g l .run g (l.goto (.getTest r (g.buf r).isNone))
  | getMissing {r : ℕ} {w : Bool} (h : l.pc = .getTest r w) (hb : g.buf r = none) :
      Move g l .run g (l.goto (.getKmalloc r w))
  | getPresent {r : ℕ} {w : Bool} (h : l.pc = .getTest r w) (hb : g.buf r ≠ none) :
      Move g l .run g (l.goto (.getReturn r w))
  | getStore {r a : ℕ} {w : Bool} (h : l.pc = .getStore r w a) :
      Move g l .run { g with buf := update g.buf r (some a) } (l.goto (.getReturn r w))
  | getNull {r : ℕ} {w : Bool} (h : l.pc = .getReturn r w) (hb : g.buf r = none) :
      Move g l .run g { l with pc := .idle, lost := r :: l.lost }
  | getReturn {r ptr : ℕ} {w : Bool} (h : l.pc = .getReturn r w) (hb : g.buf r = some ptr) :
      Move g l .run g { l with pc := .idle, mine := (r, ptr) :: l.mine }
  | putMiss {r ptr : ℕ} (h : l.pc = .putScan r ptr none) :
      Move g l .run g { l with pc := .idle, lost := r :: l.lost }
  | putWild {r ptr c : ℕ} (h : l.pc = .putScan r ptr (some c)) (hc : c ∉ g.order) :
      Move g l .run g (l.goto .wild)
  | putFound {r ptr c : ℕ} (h : l.pc = .putScan r ptr (some c)) (hc : c ∈ g.order)
      (hb : g.buf c = some ptr) : Move g l .run g (l.goto (.putPost r c))
  | putNext {r ptr c : ℕ} (h : l.pc = .putScan r ptr (some c)) (hc : c ∈ g.order)
      (hb : g.buf c ≠ some ptr) : Move g l .run g (l.goto (.putScan r ptr (g.next c)))
  | putPost {r found : ℕ} (h : l.pc = .putPost r found) :
      Move g l .run (g.post (.region found))
        { l with pc := .idle, lost := if found = r then l.lost else r :: l.lost }
  | freePend {r : ℕ} (h : l.pc = .freePend r) (hc : g.count (.region r) ≠ 0) :
      Move g l .run
        { g with count := update g.count (.region r) (g.count (.region r) - 1) }
        (l.goto (.freePendList r))
  | freePendList {r : ℕ} (h : l.pc = .freePendList r) (hc : g.count .list ≠ 0) :
      Move g l .run { g with count := update g.count .list (g.count .list - 1) }
        (l.goto (.freeUnlink r))
  | freeUnlink {r : ℕ} (h : l.pc = .freeUnlink r) :
      Move g l .run { g with order := g.order.erase r } (l.goto (.freePost r))
  | freePost {r : ℕ} (h : l.pc = .freePost r) :
      Move g l .run (g.post .list) (l.goto (.freeKfree r))
  | freeKfree {r : ℕ} (h : l.pc = .freeKfree r) :
      Move g l .run { g.kfreeBuf r with buf := update g.buf r none } (l.goto .idle)
  | purge {k : Caller} {bytes total : ℕ} {p : PurgePc} {g' : Shared} {c : Pc}
      (h : l.pc = .purge k bytes total p) (hp : PurgeMove g k bytes total p g' c) :
      Move g l .run g' (l.goto c)
  | kmallocAlloc {a bytes : ℕ} (h : l.pc = .allocKmalloc bytes) (ha : g.live a = false) :
      Move g l (.kmalloc a)
        { g with
          live := update g.live a true
          content := update g.content a 0
          buf := update g.buf g.nextRegion (some a)
          bytes := update g.bytes g.nextRegion bytes
          count := update g.count (.region g.nextRegion) 1
          nextRegion := g.nextRegion + 1 }
        (l.goto (.allocPend g.nextRegion))
  | kmallocGet {a r : ℕ} {w : Bool} (h : l.pc = .getKmalloc r w) (ha : g.live a = false) :
      Move g l (.kmalloc a)
        { g with live := update g.live a true
                 content := update g.content a 0 }
        (l.goto (.getStore r w a))
  | pressureAlloc {bytes : ℕ} (h : l.pc = .allocKmalloc bytes) :
      Move g l .pressure g (l.goto (.purge (.alloc bytes) pageSize 0 .pend))
  | pressureGet {r : ℕ} {w : Bool} (h : l.pc = .getKmalloc r w) :
      Move g l .pressure g (l.goto (.purge (.get r w) pageSize 0 .pend))

variable {g g' : Shared} {l l' : Local} {i : Input} {s s' : State Tid} {e : Event Tid}

theorem pend_map_eq_some {α : Type} {x : Sem} {f : Shared → α} {y : α} :
    (g.pend x).map f = some y ↔
      g.count x ≠ 0 ∧ f { g with count := update g.count x (g.count x - 1) } = y := by
  unfold Shared.pend
  by_cases h : g.count x = 0 <;> simp [h]

theorem purgeMove_of_step {k : Caller} {bytes total : ℕ} {p : PurgePc} {c : Pc}
    (h : purgeStep g k bytes total p = some (g', c)) : PurgeMove g k bytes total p g' c := by
  cases p with
  | pend =>
    obtain ⟨hne, heq⟩ := pend_map_eq_some.mp h
    cases heq
    exact .pend hne
  | visit rest =>
    cases rest with
    | nil =>
      cases h
      exact .finish
    | cons r rest =>
      cases h
      exact .visit
  | memPend r rest =>
    obtain ⟨hne, heq⟩ := pend_map_eq_some.mp h
    cases heq
    exact .lock hne
  | memTest r rest =>
    obtain ⟨rfl, rfl⟩ := h
    by_cases hb : g.buf r = none
    · rw [if_pos hb]
      exact .purged hb
    · rw [if_neg hb]
      exact .present hb
  | memCallback r rest =>
    cases h
    exact .callback
  | memFree r rest =>
    cases h
    exact .free
  | memClear r rest =>
    cases h
    exact .clear
  | memPost r n rest =>
    cases h
    refine .unlock ?_
    split
    · exact .inl rfl
    · exact .inr rfl
  | post =>
    cases h
    exact .done

theorem move_of_run (h : runStep g l = some (g', l')) : Move g l .run g' l' := by
  unfold runStep at h
  cases hpc : l.pc with
  | idle => simp [hpc] at h
  | allocKmalloc _ => simp [hpc] at h
  | getKmalloc _ _ => simp [hpc] at h
  | wild => simp [hpc] at h
  | allocPend r =>
    simp only [hpc] at h
    obtain ⟨hne, heq⟩ := pend_map_eq_some.mp h
    cases heq
    exact .allocPend hpc hne
  | allocLink r =>
    simp only [hpc] at h
    cases h
    exact .allocLink hpc
  | allocPost r =>
    simp only [hpc] at h
    cases h
    exact .allocPost hpc
  | getPend r =>
    simp only [hpc] at h
    obtain ⟨hne, heq⟩ := pend_map_eq_some.mp h
    cases heq
    exact .getPend hpc hne
  | getFlag r =>
    simp only [hpc] at h
    cases h
    exact .getFlag hpc
  | getTest r w =>
    simp only [hpc] at h
    cases h
    by_cases hb : g.buf r = none
    · rw [if_pos hb]
      exact .getMissing hpc hb
    · rw [if_neg hb]
      exact .getPresent hpc hb
  | getStore r w a =>
    simp only [hpc] at h
    cases h
    exact .getStore hpc
  | getReturn r w =>
    cases hb : g.buf r with
    | none =>
      simp only [hpc, hb] at h
      cases h
      exact .getNull hpc hb
    | some ptr =>
      simp only [hpc, hb] at h
      cases h
      exact .getReturn hpc hb
  | putScan r ptr cur =>
    cases cur with
    | none =>
      simp only [hpc] at h
      cases h
      exact .putMiss hpc
    | some c =>
      simp only [hpc] at h
      cases h
      by_cases hc : c ∈ g.order
      · rw [if_neg (not_not.mpr hc)]
        by_cases hb : g.buf c = some ptr
        · rw [if_pos hb]
          exact .putFound hpc hc hb
        · rw [if_neg hb]
          exact .putNext hpc hc hb
      · rw [if_pos hc]
        exact .putWild hpc hc
  | putPost r found =>
    simp only [hpc] at h
    cases h
    exact .putPost hpc
  | freePend r =>
    simp only [hpc] at h
    obtain ⟨hne, heq⟩ := pend_map_eq_some.mp h
    cases heq
    exact .freePend hpc hne
  | freePendList r =>
    simp only [hpc, ite_none_left_eq_some] at h
    obtain ⟨hne, heq⟩ := pend_map_eq_some.mp h.2
    cases heq
    exact .freePendList hpc hne
  | freeUnlink r =>
    simp only [hpc] at h
    cases h
    exact .freeUnlink hpc
  | freePost r =>
    simp only [hpc] at h
    cases h
    exact .freePost hpc
  | freeKfree r =>
    simp only [hpc] at h
    cases h
    exact .freeKfree hpc
  | purge k bytes total p =>
    simp only [hpc, map_eq_some_iff, Prod.exists, Prod.mk.injEq] at h
    obtain ⟨g'', c, hp, rfl, rfl⟩ := h
    exact .purge hpc (purgeMove_of_step hp)

theorem move_of_local (h : localStep g l i = some (g', l')) : Move g l i g' l' := by
  cases i with
  | alloc bytes =>
    simp only [localStep, ite_none_right_eq_some, some_inj, Prod.mk.injEq] at h
    obtain ⟨hpc, rfl, rfl⟩ := h
    exact .callAlloc hpc
  | get r =>
    simp only [localStep, ite_none_right_eq_some, some_inj, Prod.mk.injEq] at h
    obtain ⟨⟨hpc, hr⟩, rfl, rfl⟩ := h
    exact .callGet hpc hr
  | put r ptr =>
    simp only [localStep, ite_none_right_eq_some, some_inj, Prod.mk.injEq] at h
    obtain ⟨⟨hpc, hm⟩, rfl, rfl⟩ := h
    exact .callPut hpc hm
  | free r =>
    simp only [localStep, ite_none_right_eq_some, some_inj, Prod.mk.injEq] at h
    obtain ⟨⟨hpc, hr⟩, rfl, rfl⟩ := h
    exact .callFree hpc hr
  | purge bytes =>
    simp only [localStep, ite_none_right_eq_some, some_inj, Prod.mk.injEq] at h
    obtain ⟨hpc, rfl, rfl⟩ := h
    exact .callPurge hpc
  | write r ptr v =>
    simp only [localStep, ite_none_right_eq_some, some_inj, Prod.mk.injEq] at h
    obtain ⟨⟨hpc, hm⟩, rfl, rfl⟩ := h
    exact .write hpc hm
  | run => exact move_of_run h
  | kmalloc a =>
    simp only [localStep, ite_none_left_eq_some, Bool.not_eq_true] at h
    obtain ⟨ha, h⟩ := h
    split at h
    next bytes hpc =>
      obtain ⟨rfl, rfl⟩ := h
      exact .kmallocAlloc hpc ha
    next r w hpc =>
      obtain ⟨rfl, rfl⟩ := h
      exact .kmallocGet hpc ha
    next => simp at h
  | pressure =>
    simp only [localStep] at h
    split at h
    next bytes hpc =>
      obtain ⟨rfl, rfl⟩ := h
      exact .pressureAlloc hpc
    next r w hpc =>
      obtain ⟨rfl, rfl⟩ := h
      exact .pressureGet hpc
    next => simp at h

theorem step_cases (h : Step s e s') :
    (∃ t i g l, e = .task t i ∧ Move s.shared (s.tasks t) i g l ∧
      s' = { shared := g, tasks := update s.tasks t l }) ∨
    (∃ a v, e = .other a v ∧ s.shared.live a = false ∧
      s' = { s with shared := { s.shared with
        content := update s.shared.content a v } }) := by
  cases e with
  | task t i =>
    simp only [Step, State.step, map_eq_some_iff, Prod.exists] at h
    obtain ⟨g, l, hl, rfl⟩ := h
    exact .inl ⟨t, i, g, l, rfl, move_of_local hl, rfl⟩
  | other a v =>
    simp only [Step, State.step, ite_none_left_eq_some, some_inj,
      Bool.not_eq_true] at h
    obtain ⟨ha, rfl⟩ := h
    exact .inr ⟨a, v, rfl, ha, rfl⟩

/-! ### Who holds what -/

/-- The region whose lock the caller of a purge holds. -/
def Caller.regions : Caller → List ℕ
  | .get r _ => [r]
  | .user | .alloc _ => []

/-- The region whose lock a purge holds. -/
def PurgePc.regions : PurgePc → List ℕ
  | .memTest r _ | .memCallback r _ | .memFree r _ | .memClear r _ | .memPost r _ _ => [r]
  | .pend | .visit _ | .memPend _ _ | .post => []

/-- The regions whose lock a task holds inside a function. -/
def Pc.regions : Pc → List ℕ
  | .getFlag r | .getTest r _ | .getKmalloc r _ | .getStore r _ _ | .getReturn r _
  | .putScan r _ _ | .putPost r _
  | .freePendList r | .freeUnlink r | .freePost r | .freeKfree r => [r]
  | .purge k _ _ p => k.regions ++ p.regions
  | .idle | .allocKmalloc _ | .allocPend _ | .allocLink _ | .allocPost _ | .getPend _
  | .freePend _ | .wild => []

/-- The regions whose lock a task has taken and not released. -/
def Local.held (l : Local) : List ℕ := l.mine.map Prod.fst ++ l.lost ++ l.pc.regions

@[simp] theorem Local.goto_pc (l : Local) (c : Pc) : (l.goto c).pc = c := rfl
@[simp] theorem Local.goto_mine (l : Local) (c : Pc) : (l.goto c).mine = l.mine := rfl
@[simp] theorem Local.goto_lost (l : Local) (c : Pc) : (l.goto c).lost = l.lost := rfl

end Purge
