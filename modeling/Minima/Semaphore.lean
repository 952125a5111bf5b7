/-
Counting semaphores (`sync.c`) under preemption.

Any number of tasks run `sem_pend` and `sem_post` on one semaphore, one atomic
step at a time: the read of `s->count` and the `cmpxchg` of each try, the
section from `cli_push` to `sched` that enqueues the task, the `lock inc`, the
emptiness test, the read of the first waiter, its unlinking and the write of
its state.  The waiters list is the real ring of links, so that a stale or
repeated unlinking does to it what the code does.

* `semaphore_conservation` — the counter never goes negative and accounts for
  every completed `sem_pend` and every increment; a semaphore initialised to 1
  and used as `pend … post` excludes all but one task;
* `no_lost_wakeup` — no wakeup is lost in the runs in which no task goes to
  sleep on a positive count and no `sem_post` unlinks a waiter twice;
* `lost_wakeup` — one `sem_post` between the last failed test and `cli_push`
  leaves the waiter asleep on a count of 1.
-/
import Minima.Runs
import Minima.Ilist
import Mathlib.Algebra.BigOperators.Fin
import Mathlib.Algebra.Order.BigOperators.Group.Finset
import Mathlib.Tactic.Linarith

namespace Semaphore

open Function List Option Finset

/-- The states of `enum task_state` a semaphore puts a task in. -/
inductive TaskState
  | runnable
  | waitSemaphore
  deriving DecidableEq, Repr

/-- The next atomic step of a task, with the values it has read so far.  A
waiter is `none` where the list head itself was taken for one. -/
inductive Pc (Tid : Type)
  | idle
  /-- `val = s->count`, in try number `n` -/
  | pendRead (n : ℕ)
  /-- `cmpxchg(&s->count, val, val - 1)` -/
  | pendCas (n : ℕ) (val : ℤ)
  /-- out of tries, about to disable interrupts and enqueue -/
  | pendSleep
  /-- inside `sched()` -/
  | pendAsleep
  /-- `lock inc` -/
  | postInc
  /-- `v_ilist_is_empty(&s->waiters)` -/
  | postTest
  /-- `waiter = v_ilist_get_first(&s->waiters)` -/
  | postFirst
  /-- `v_ilist_remove(&waiter->waiting_on)` -/
  | postRemove (waiter : Option Tid)
  /-- `waiter->state = ts_runnable` -/
  | postWake (waiter : Option Tid)
  deriving DecidableEq, Repr

/-- Two's complement of 32 bits. -/
def toInt32 (x : ℤ) : ℤ := (x + 2 ^ 31) % 2 ^ 32 - 2 ^ 31

/-- The semaphore and the tasks.  The nodes of the waiters list are the list head (`none`) and the
`waiting_on` link of each task.  `pends` and `posts` count the completed `sem_pend` calls and the
increments; `inside` marks the tasks between a returned `sem_pend` and their next increment. -/
structure State (Tid : Type) where
  count : ℤ
  waiters : Ilist (Option Tid)
  taskState : Tid → TaskState
  pc : Tid → Pc Tid
  pends : ℕ
  posts : ℕ
  inside : Tid → Bool

inductive Event (Tid : Type)
  /-- task `t` calls `sem_pend` -/
  | semPend (t : Tid)
  /-- task `t` calls `sem_post` -/
  | semPost (t : Tid)
  /-- task `t` executes its next atomic step -/
  | run (t : Tid)
  deriving DecidableEq, Repr

def tries : ℕ := 2

variable {Tid : Type} {s s' : State Tid} {t : Tid} {e : Event Tid} {c : Pc Tid} {value : ℤ}

/-- After a failed try. -/
def nextTry (n : ℕ) : Pc Tid := if n + 1 < tries then .pendRead (n + 1) else .pendSleep

section Steps

variable [DecidableEq Tid]

def State.goto (s : State Tid) (t : Tid) (c : Pc Tid) : State Tid :=
  { s with pc := update s.pc t c }

/-- One atomic step of task `t`.  A sleeping task runs again only once its
state is `ts_runnable`.  The state write of a `sem_post` that took the list
head for a task hits neither the semaphore nor a task. -/
def State.run (s : State Tid) (t : Tid) : Option (State Tid) :=
  match s.pc t with
  | .idle => none
  | .pendRead n =>
      some (s.goto t (if s.count ≠ 0 then .pendCas n s.count else nextTry n))
  | .pendCas n val =>
      if s.count = val then
        some { s.goto t .idle with
          count := toInt32 (val - 1)
          pends := s.pends + 1
          inside := update s.inside t true }
      else some (s.goto t (nextTry n))
  | .pendSleep =>
      some { s.goto t .pendAsleep with
        taskState := update s.taskState t .waitSemaphore
        waiters := s.waiters.prepend (some t) none }
  | .pendAsleep =>
      if s.taskState t = .runnable then some (s.goto t (.pendRead 0)) else none
  | .postInc =>
      some { s.goto t .postTest with
        count := toInt32 (s.count + 1)
        posts := s.posts + 1
        inside := update s.inside t false }
  | .postTest => some (s.goto t (if s.waiters.isEmpty none then .idle else .postFirst))
  | .postFirst => some (s.goto t (.postRemove (s.waiters.next none)))
  | .postRemove waiter =>
      some { s.goto t (.postWake waiter) with waiters := s.waiters.remove waiter }
  | .postWake waiter =>
      some { s.goto t .idle with
        taskState := match waiter with
          | some u => update s.taskState u .runnable
          | none => s.taskState }

def State.step (s : State Tid) : Event Tid → Option (State Tid)
  | .semPend t => if s.pc t = .idle then some (s.goto t (.pendRead 0)) else none
  | .semPost t => if s.pc t = .idle then some (s.goto t .postInc) else none
  | .run t => s.run t

def Step (s : State Tid) (e : Event Tid) (s' : State Tid) : Prop := s.step e = some s'

/-- After `sem_init(s, value)`, with no task inside the semaphore's code. -/
structure Initial (value : ℤ) (s : State Tid) : Prop where
  count : s.count = value
  waiters : s.waiters.Ring none []
  idle : ∀ t, s.pc t = .idle
  fresh : s.pends = 0 ∧ s.posts = 0 ∧ ∀ t, s.inside t = false

theorem toInt32_of_range {x : ℤ} (h : -2 ^ 31 ≤ x) (h' : x < 2 ^ 31) : toInt32 x = x := by
  unfold toInt32
  omega

/-! ### What one step can do -/

/-- The transitions, one constructor for each branch of the code. -/
inductive Move (s : State Tid) : Event Tid → State Tid → Prop
  | enterPend {t : Tid} (hpc : s.pc t = .idle) : Move s (.semPend t) (s.goto t (.pendRead 0))
  | enterPost {t : Tid} (hpc : s.pc t = .idle) : Move s (.semPost t) (s.goto t .postInc)
  | read {t : Tid} {n : ℕ} (hpc : s.pc t = .pendRead n) (h : s.count ≠ 0) :
      Move s (.run t) (s.goto t (.pendCas n s.count))
  | readZero {t : Tid} {n : ℕ} (hpc : s.pc t = .pendRead n) (h : s.count = 0) :
      Move s (.run t) (s.goto t (nextTry n))
  | take {t : Tid} {n : ℕ} (hpc : s.pc t = .pendCas n s.count) :
      Move s (.run t) { s.goto t .idle with
        count := toInt32 (s.count - 1)
        pends := s.pends + 1
        inside := update s.inside t true }
  | miss {t : Tid} {n : ℕ} {val : ℤ} (hpc : s.pc t = .pendCas n val) (h : s.count ≠ val) :
      Move s (.run t) (s.goto t (nextTry n))
  | sleep {t : Tid} (hpc : s.pc t = .pendSleep) :
      Move s (.run t) { s.goto t .pendAsleep with
        taskState := update s.taskState t .waitSemaphore
        waiters := s.waiters.prepend (some t) none }
  | resume {t : Tid} (hpc : s.pc t = .pendAsleep) (h : s.taskState t = .runnable) :
      Move s (.run t) (s.goto t (.pendRead 0))
  | give {t : Tid} (hpc : s.pc t = .postInc) :
      Move s (.run t) { s.goto t .postTest with
        count := toInt32 (s.count + 1)
        posts := s.posts + 1
        inside := update s.inside t false }
  | noWaiter {t : Tid} (hpc : s.pc t = .postTest) (h : s.waiters.isEmpty none = true) :
      Move s (.run t) (s.goto t .idle)
  | waiter {t : Tid} (hpc : s.pc t = .postTest) (h : s.waiters.isEmpty none = false) :
      Move s (.run t) (s.goto t .postFirst)
  | first {t : Tid} (hpc : s.pc t = .postFirst) :
      Move s (.run t) (s.goto t (.postRemove (s.waiters.next none)))
  | unlink {t : Tid} {w : Option Tid} (hpc : s.pc t = .postRemove w) :
      Move s (.run t) { s.goto t (.postWake w) with waiters := s.waiters.remove w }
  | wake {t u : Tid} (hpc : s.pc t = .postWake (some u)) :
      Move s (.run t) { s.goto t .idle with
        taskState := update s.taskState u .runnable }
  | wakeHead {t : Tid} (hpc : s.pc t = .postWake none) : Move s (.run t) (s.goto t .idle)

theorem move_of_run (hstep : s.run t = some s') : Move s (.run t) s' := by
  unfold State.run at hstep
  match hpc : s.pc t with
  | .idle => simp [hpc] at hstep
  | .pendRead n =>
    simp only [hpc] at hstep
    cases hstep
    by_cases h : s.count = 0
    · rw [if_neg (not_not.mpr h)]
      exact .readZero hpc h
    · rw [if_pos h]
      exact .read hpc h
  | .pendCas n val =>
    simp only [hpc] at hstep
    by_cases hval : s.count = val
    · rw [if_pos hval, Option.some.injEq] at hstep
      subst hstep hval
      exact .take hpc
    · rw [if_neg hval, Option.some.injEq] at hstep
      subst hstep
      exact .miss hpc hval
  | .pendSleep =>
    simp only [hpc] at hstep
    cases hstep
    exact .sleep hpc
  | .pendAsleep =>
    simp only [hpc, ite_none_right_eq_some, Option.some.injEq] at hstep
    obtain ⟨hrun, rfl⟩ := hstep
    exact .resume hpc hrun
  | .postInc =>
    simp only [hpc] at hstep
    cases hstep
    exact .give hpc
  | .postTest =>
    simp only [hpc] at hstep
    cases hstep
    cases hempty : s.waiters.isEmpty none with
    | true =>
      exact .noWaiter hpc hempty
    | false =>
      exact .waiter hpc hempty
  | .postFirst =>
    simp only [hpc] at hstep
    cases hstep
    exact .first hpc
  | .postRemove w =>
    simp only [hpc] at hstep
    cases hstep
    exact .unlink hpc
  | .postWake (some u) =>
    simp only [hpc] at hstep
    cases hstep
    exact .wake hpc
  | .postWake none =>
    simp only [hpc] at hstep
    cases hstep
    exact .wakeHead hpc

theorem move_of_step (hstep : Step s e s') : Move s e s' := by
  unfold Step State.step at hstep
  cases e with
  | semPend t =>
    simp only [ite_none_right_eq_some, Option.some.injEq] at hstep
    obtain ⟨hpc, rfl⟩ := hstep
    exact .enterPend hpc
  | semPost t =>
    simp only [ite_none_right_eq_some, Option.some.injEq] at hstep
    obtain ⟨hpc, rfl⟩ := hstep
    exact .enterPost hpc
  | run t => exact move_of_run hstep

end Steps

/-! ### Conservation -/

/-- A task that is about to decrement has read a non-zero count. -/
def ReadNonzero (s : State Tid) : Prop := ∀ t n val, s.pc t = .pendCas n val → val ≠ 0

theorem nextTry_ne_pendCas (n m : ℕ) (val : ℤ) : (nextTry n : Pc Tid) ≠ .pendCas m val := by
  unfold nextTry
  split <;> simp

/-- The counter accounts for what has happened since `sem_init`. -/
structure Conserved (value : ℤ) (s : State Tid) : Prop where
  nonneg : 0 ≤ s.count
  balance : s.count + s.pends = value + s.posts
  read : ReadNonzero s

theorem Initial.conserved (h : Initial value s) (hv : 0 ≤ value) : Conserved value s := by
  refine ⟨h.count ▸ hv, ?_, ?_⟩
  · rw [h.count, h.fresh.1, h.fresh.2.1]
  · intro t n val hpc
    rw [h.idle t] at hpc
    exact absurd hpc (by simp)

section Conservation

variable [DecidableEq Tid]

/-- Moving task `t` to a program counter that is no `cmpxchg` of `sem_pend`,
or to one with a non-zero value. -/
theorem ReadNonzero.update (h : ReadNonzero s) (hpc : s'.pc = update s.pc t c)
    (hc : ∀ n val, c = .pendCas n val → val ≠ 0) : ReadNonzero s' := by
  intro u n val hu
  rw [hpc] at hu
  by_cases hut : u = t
  · subst hut
    rw [update_self] at hu
    exact hc n val hu
  · rw [update_of_ne hut] at hu
    exact h u n val hu

theorem readNonzero_step (h : ReadNonzero s) (hstep : Step s e s') : ReadNonzero s' := by
  cases move_of_step hstep with
  | read hpc hne =>
    refine h.update rfl fun n val heq => ?_
    simp only [Pc.pendCas.injEq] at heq
    exact heq.2 ▸ hne
  | readZero hpc _ => exact h.update rfl fun n val heq => absurd heq (nextTry_ne_pendCas _ _ _)
  | miss hpc _ => exact h.update rfl fun n val heq => absurd heq (nextTry_ne_pendCas _ _ _)
  | _ => exact h.update rfl fun n val heq => absurd heq (by simp)

theorem Conserved.step (h : Conserved value s) (hstep : Step s e s')
    (hfit : value + s'.posts - s'.pends < 2 ^ 31) : Conserved value s' := by
  have hread := readNonzero_step h.read hstep
  have hnonneg := h.nonneg
  have hbal := h.balance
  cases move_of_step hstep with
  | @take t n hpc =>
    have hne : s.count ≠ 0 := h.read t n _ hpc
    have hcount : toInt32 (s.count - 1) = s.count - 1 := by
      refine toInt32_of_range (by omega) ?_
      simp only [State.goto, Nat.cast_add, Nat.cast_one] at hfit
      omega
    refine ⟨?_, ?_, hread⟩
    · simp only [hcount]
      omega
    · simp only [hcount, State.goto, Nat.cast_add, Nat.cast_one]
      omega
  | @give t hpc =>
    have hcount : toInt32 (s.count + 1) = s.count + 1 := by
      refine toInt32_of_range (by omega) ?_
      simp only [State.goto, Nat.cast_add, Nat.cast_one] at hfit
      omega
    refine ⟨?_, ?_, hread⟩
    · simp only [hcount]
      omega
    · simp only [hcount, State.goto, Nat.cast_add, Nat.cast_one]
      omega
  | _ => exact ⟨hnonneg, hbal, hread⟩

theorem conserved_run {s0 : State Tid} {es : List (Event Tid)} (h0 : Initial value s0)
    (hv : 0 ≤ value) (hrun : Run Step s0 es s)
    (hfit : Everywhere Step (fun u : State Tid => value + u.posts - u.pends < 2 ^ 31) s0 es) :
    Conserved value s := by
  induction hrun with
  | nil => exact h0.conserved hv
  | snoc hr hs ih =>
    have hprev := ih fun p u hp hu => hfit p u (hp.trans (prefix_append _ _)) hu
    exact hprev.step hs (hfit _ _ (prefix_refl _) (.snoc hr hs))

end Conservation

/-! ### Mutual exclusion -/

section Exclusion

/-- The use as a lock: `sem_pend` by a task that does not hold the semaphore,
`sem_post` by the one that does. -/
def Bracketed (s : State Tid) : Event Tid → Prop
  | .semPend t => s.inside t = false
  | .semPost t => s.inside t = true
  | .run _ => True

instance (s : State Tid) (e : Event Tid) : Decidable (Bracketed s e) :=
  match e with
  | .semPend t => inferInstanceAs (Decidable (s.inside t = false))
  | .semPost t => inferInstanceAs (Decidable (s.inside t = true))
  | .run _ => inferInstanceAs (Decidable True)

/-- Where a task of a lock may be, depending on whether it holds it. -/
def InsideOk (s : State Tid) (t : Tid) : Pc Tid → Prop
  | .pendRead _ => s.inside t = false
  | .pendCas _ _ => s.inside t = false
  | .pendSleep => s.inside t = false
  | .pendAsleep => s.inside t = false
  | .postInc => s.inside t = true
  | _ => True

/-- The one unit of a lock is in the counter, or exactly one task has it. -/
structure Exclusive (s : State Tid) : Prop where
  unit : (s.count = 1 ∧ ∀ t, s.inside t = false) ∨
    (s.count = 0 ∧ ∃ t, s.inside t = true ∧ ∀ u, s.inside u = true → u = t)
  pcs : ∀ t, InsideOk s t (s.pc t)
  read : ReadNonzero s

theorem insideOk_nextTry {n : ℕ} (h : s.inside t = false) : InsideOk s t (nextTry n) := by
  unfold nextTry
  split <;> exact h

theorem Exclusive.pcs_at (h : Exclusive s) (hpc : s.pc t = c) : InsideOk s t c :=
  hpc ▸ h.pcs t

theorem Initial.exclusive (h : Initial 1 s) : Exclusive s where
  unit := .inl ⟨h.count, h.fresh.2.2⟩
  pcs := fun t => by rw [h.idle t]; trivial
  read := (h.conserved (by norm_num)).read

variable [DecidableEq Tid]

theorem Exclusive.pcs_update (h : Exclusive s) (hpc : s'.pc = update s.pc t c)
    (hinside : ∀ u ≠ t, s'.inside u = s.inside u) (hc : InsideOk s' t c) :
    ∀ u, InsideOk s' u (s'.pc u) := by
  intro u
  rw [hpc]
  by_cases hu : u = t
  · subst hu
    rwa [update_self]
  · rw [update_of_ne hu]
    have hsame := hinside u hu
    have := h.pcs u
    revert this
    cases s.pc u <;> simp only [InsideOk, hsame, imp_self]

theorem Exclusive.step (h : Exclusive s) (hb : Bracketed s e) (hstep : Step s e s') :
    Exclusive s' := by
  have hread := readNonzero_step h.read hstep
  cases move_of_step hstep with
  | @enterPend t hpc => exact ⟨h.unit, h.pcs_update rfl (fun _ _ => rfl) hb, hread⟩
  | @enterPost t hpc => exact ⟨h.unit, h.pcs_update rfl (fun _ _ => rfl) hb, hread⟩
  | @take t n hpc =>
    have hne : s.count ≠ 0 := h.read t n _ hpc
    obtain ⟨hone, hnobody⟩ := h.unit.resolve_right fun hz => hne hz.1
    refine ⟨.inr ⟨?_, t, ?_, ?_⟩, h.pcs_update rfl ?_ trivial, hread⟩
    · change toInt32 (s.count - 1) = 0
      rw [hone]
      rfl
    · exact update_self ..
    · intro u hu
      by_contra hut
      change update s.inside t true u = true at hu
      rw [update_of_ne hut, hnobody u] at hu
      exact absurd hu (by simp)
    · exact fun u hu => update_of_ne hu _ _
  | @give t hpc =>
    have hin : s.inside t = true := h.pcs_at hpc
    obtain ⟨hzero, t', ht', huniq⟩ := h.unit.resolve_left fun ho => by simp [ho.2 t] at hin
    obtain rfl := huniq t hin
    refine ⟨.inl ⟨?_, ?_⟩, h.pcs_update rfl ?_ trivial, hread⟩
    · change toInt32 (s.count + 1) = 1
      rw [hzero]
      rfl
    · intro u
      change update s.inside t false u = false
      by_cases hut : u = t
      · rw [hut, update_self]
      · rw [update_of_ne hut]
        by_contra hne
        exact hut (huniq u (by simpa using hne))
    · exact fun u hu => update_of_ne hu _ _
  | @read t n hpc hne =>
    exact ⟨h.unit, h.pcs_update rfl (fun _ _ => rfl) (h.pcs_at hpc), hread⟩
  | @readZero t n hpc hz =>
    exact ⟨h.unit, h.pcs_update rfl (fun _ _ => rfl) (insideOk_nextTry (h.pcs_at hpc)), hread⟩
  | @miss t n val hpc hne =>
    exact ⟨h.unit, h.pcs_update rfl (fun _ _ => rfl) (insideOk_nextTry (h.pcs_at hpc)), hread⟩
  | @sleep t hpc =>
    exact ⟨h.unit, h.pcs_update rfl (fun _ _ => rfl) (h.pcs_at hpc), hread⟩
  | @resume t hpc hrun =>
    exact ⟨h.unit, h.pcs_update rfl (fun _ _ => rfl) (h.pcs_at hpc), hread⟩
  | _ => exact ⟨h.unit, h.pcs_update rfl (fun _ _ => rfl) trivial, hread⟩

/-- **Semaphore conservation**, for any number of tasks and any interleaving: while fewer than
`2 ^ 31` units are outstanding the counter is never negative and equals the initial value plus
the increments minus the completed `sem_pend` calls; and a semaphore initialised to 1 never has
two tasks between a returned `sem_pend` and its `sem_post`. -/
theorem semaphore_conservation {value : ℤ} {s0 : State Tid} {es : List (Event Tid)}
    (h0 : Initial value s0) (hv : 0 ≤ value) (hrun : Run Step s0 es s) :
    (Everywhere Step (fun u : State Tid => value + u.posts - u.pends < 2 ^ 31) s0 es →
      0 ≤ s.count ∧ s.count + s.pends = value + s.posts) ∧
    (value = 1 → Guarded Step Bracketed s0 es →
      ∀ t u, s.inside t = true → s.inside u = true → t = u) := by
  constructor
  · intro hfit
    have h := conserved_run h0 hv hrun hfit
    exact ⟨h.nonneg, h.balance⟩
  · rintro rfl hb t u ht hu
    have h : Exclusive s := hrun.invariant_of_guarded h0.exclusive
      (fun _ _ _ hI hok hs => hI.step hok hs) hb
    rcases h.unit with ⟨-, hnobody⟩ | ⟨-, w, -, huniq⟩
    · rw [hnobody t] at ht
      exact absurd ht (by simp)
    · rw [huniq t ht, huniq u hu]

/-- A semaphore of two tasks, both idle. -/
def twoTasks (value : ℤ) : State (Fin 2) where
  count := value
  waiters := ⟨id, id⟩
  taskState := fun _ => .runnable
  pc := fun _ => .idle
  pends := 0
  posts := 0
  inside := fun _ => false

theorem twoTasks_initial (value : ℤ) : Initial value (twoTasks value) where
  count := rfl
  waiters := ⟨⟨rfl, rfl⟩, by simp⟩
  idle := fun _ => rfl
  fresh := ⟨rfl, rfl, fun _ => rfl⟩

/-- Task `t` takes the lock. -/
def lockRun (t : Tid) : List (Event Tid) := [.semPend t, .run t, .run t]

theorem lockRun_isSome : ((lockRun 0).foldlM State.step (twoTasks 1)).isSome = true := by decide

/-- The theorem at work: task 0 takes a semaphore initialised to 1. -/
theorem semaphore_conservation_lock :
    ∃ s, Initial 1 (twoTasks 1) ∧ Run Step (twoTasks 1) (lockRun 0) s ∧ s.inside 0 = true ∧
      0 ≤ s.count ∧ s.count + s.pends = 1 + s.posts ∧
      ∀ t u, s.inside t = true → s.inside u = true → t = u := by
  have hrun : Run Step (twoTasks 1) (lockRun 0) (Option.get _ lockRun_isSome) :=
    run_iff_foldlM.mpr (some_get _).symm
  obtain ⟨hcons, hexcl⟩ := semaphore_conservation (twoTasks_initial 1) (by norm_num) hrun
  obtain ⟨hnonneg, hbal⟩ := hcons (everywhere_of_take (by decide))
  exact ⟨_, twoTasks_initial 1, hrun, by decide, hnonneg, hbal,
    hexcl rfl (guarded_of_take (by decide))⟩

end Exclusion

/-! ### Lost wakeups -/

/-- Inside `sem_pend`. -/
def inPend : Pc Tid → Bool
  | .pendRead _ => true
  | .pendCas _ _ => true
  | .pendSleep => true
  | .pendAsleep => true
  | _ => false

/-- Inside `sem_post`. -/
def inPost : Pc Tid → Bool
  | .postInc => true
  | .postTest => true
  | .postFirst => true
  | .postRemove _ => true
  | .postWake _ => true
  | _ => false

/-- Task `t` is on `s->waiters`. -/
def OnWaiters (s : State Tid) (t : Tid) : Prop := s.waiters.OnList none (some t)

/-- Task `t` sleeps in `sem_pend`, on `s->waiters`. -/
def Asleep (s : State Tid) (t : Tid) : Prop :=
  s.pc t = .pendAsleep ∧ s.taskState t = .waitSemaphore ∧ OnWaiters s t

/-- **A lost wakeup**: the count is positive and a task waits for it, but no
`sem_post` is in progress and every task inside `sem_pend` is asleep. -/
def LostWakeup (s : State Tid) : Prop :=
  0 < s.count ∧ (∃ t, OnWaiters s t) ∧ (∀ t, inPost (s.pc t) = false) ∧
    ∀ t, inPend (s.pc t) = true → Asleep s t

/-- The condition on a step: a task enqueues itself only while the count is
still zero, a `sem_post` unlinks a waiter that is still on the list, and the
increment does not overflow. -/
def FreshSleep (s : State Tid) : Event Tid → Prop
  | .run t =>
    match s.pc t with
    | .pendSleep => s.count = 0
    | .postRemove waiter => s.waiters.OnList none waiter
    | .postInc => s.count < 2 ^ 31 - 1
    | _ => True
  | _ => True

/-- What a task contributes to the wakeups that are still to come: it is awake
inside `sem_pend` and will look at the count again, or it is inside `sem_post`
with its increment done and a waiter to wake. -/
def credit : Pc Tid → TaskState → ℕ
  | .pendRead _, _ => 1
  | .pendCas _ _, _ => 1
  | .pendSleep, _ => 1
  | .pendAsleep, .runnable => 1
  | .postTest, _ => 1
  | .postFirst, _ => 1
  | .postRemove _, _ => 1
  | .postWake _, _ => 1
  | _, _ => 0

theorem credit_nextTry (n : ℕ) (st : TaskState) : credit (nextTry n : Pc Tid) st = 1 := by
  unfold nextTry
  split <;> rfl

theorem nextTry_ne_postWake (n : ℕ) (w : Option Tid) : (nextTry n : Pc Tid) ≠ .postWake w := by
  unfold nextTry
  split <;> simp

section Wakeups

variable [Fintype Tid] {l : List Tid}

/-- All wakeups still to come. -/
def credits (s : State Tid) : ℕ := ∑ t, credit (s.pc t) (s.taskState t)

/-- **The wakeup invariant.**  The waiters list is a ring of sleeping tasks `l`; a waiter that is
being woken has one waker and is off the list; and while somebody waits, every unit of the count
is matched by a task that will look at it. -/
structure Wakeup (s : State Tid) (l : List Tid) : Prop where
  ring : s.waiters.Ring none (l.map some)
  asleep : ∀ t ∈ l, s.pc t = .pendAsleep ∧ s.taskState t = .waitSemaphore
  waking : ∀ t u, s.pc t = .postWake (some u) →
    u ∉ l ∧ s.pc u = .pendAsleep ∧ s.taskState u = .waitSemaphore ∧
      ∀ t', s.pc t' = .postWake (some u) → t' = t
  noHead : ∀ t, s.pc t ≠ .postWake none
  range : 0 ≤ s.count ∧ s.count < 2 ^ 31
  read : ReadNonzero s
  matched : l ≠ [] → s.count ≤ credits s

theorem Initial.wakeup (h : Initial value s) (hv : 0 ≤ value) (hv' : value < 2 ^ 31) :
    Wakeup s [] where
  ring := h.waiters
  asleep := by simp
  waking := fun t u hpc => by simp [h.idle t] at hpc
  noHead := fun t => by simp [h.idle t]
  range := by rw [h.count]; exact ⟨hv, hv'⟩
  read := (h.conserved hv).read
  matched := fun hne => absurd rfl hne

/-- A state that satisfies the invariant has lost no wakeup: the tasks that
match the positive count are neither asleep nor outside the semaphore. -/
theorem Wakeup.not_lostWakeup (h : Wakeup s l) : ¬ LostWakeup s := by
  rintro ⟨hpos, ⟨t, ht⟩, hpost, hpend⟩
  have hl : l ≠ [] := by
    rintro rfl
    exact absurd (h.ring.onList_iff.mp ht) (by simp)
  have hm := h.matched hl
  have hcred : credits s = 0 := by
    refine sum_eq_zero fun u _ => ?_
    have hu := hpost u
    have hu' := hpend u
    match hpc : s.pc u with
    | .idle => rfl
    | .pendRead n => exact absurd (hu' (by simp [hpc, inPend])).1 (by simp [hpc])
    | .pendCas n val => exact absurd (hu' (by simp [hpc, inPend])).1 (by simp [hpc])
    | .pendSleep => exact absurd (hu' (by simp [hpc, inPend])).1 (by simp [hpc])
    | .pendAsleep =>
      rw [(hu' (by simp [hpc, inPend])).2.1]
      rfl
    | .postInc => rfl
    | .postTest => simp [hpc, inPost] at hu
    | .postFirst => simp [hpc, inPost] at hu
    | .postRemove w => simp [hpc, inPost] at hu
    | .postWake w => simp [hpc, inPost] at hu
  omega

variable [DecidableEq Tid]

theorem credits_update {t : Tid}
    (h : ∀ u ≠ t, credit (s'.pc u) (s'.taskState u) = credit (s.pc u) (s.taskState u)) :
    credits s' + credit (s.pc t) (s.taskState t) =
      credits s + credit (s'.pc t) (s'.taskState t) := by
  unfold credits
  rw [← add_sum_erase _ _ (mem_univ t),
    ← add_sum_erase _ _ (mem_univ t),
    sum_congr rfl fun u hu => h u (ne_of_mem_erase hu)]
  omega

theorem credits_goto (s : State Tid) (t : Tid) (c : Pc Tid) :
    credits (s.goto t c) + credit (s.pc t) (s.taskState t) =
      credits s + credit c (s.taskState t) := by
  have h : credits (s.goto t c) + credit (s.pc t) (s.taskState t) =
      credits s + credit ((s.goto t c).pc t) ((s.goto t c).taskState t) :=
    credits_update fun u hu => by simp [State.goto, hu]
  simpa [State.goto] using h

namespace Wakeup

theorem frame (h : Wakeup s l) (hpc : s'.pc = update s.pc t c)
    (hstate : s'.taskState = s.taskState) (hwaiters : s'.waiters = s.waiters)
    (hawake : s.pc t = .pendAsleep → s.taskState t = .runnable) (hc : ∀ w, c ≠ .postWake w)
    (hrange : 0 ≤ s'.count ∧ s'.count < 2 ^ 31) (hread : ReadNonzero s')
    (hmatched : l ≠ [] → s'.count ≤ credits s') : Wakeup s' l := by
  have hne : ∀ u, s.pc u = .pendAsleep → s.taskState u = .waitSemaphore → u ≠ t := by
    rintro u hu hst rfl
    rw [hawake hu] at hst
    exact absurd hst (by simp)
  have hwake : ∀ u w, s'.pc u = .postWake w → s.pc u = .postWake w := by
    intro u w hu
    rw [hpc] at hu
    by_cases hut : u = t
    · subst hut
      rw [update_self] at hu
      exact absurd hu (hc w)
    · rwa [update_of_ne hut] at hu
  refine ⟨hwaiters ▸ h.ring, ?_, ?_, ?_, hrange, hread, hmatched⟩
  · intro u hu
    obtain ⟨hpcu, hst⟩ := h.asleep u hu
    rw [hpc, hstate, update_of_ne (hne u hpcu hst)]
    exact ⟨hpcu, hst⟩
  · intro u v hu
    obtain ⟨hv, hpcv, hst, huniq⟩ := h.waking u v (hwake u _ hu)
    refine ⟨hv, ?_, hstate ▸ hst, fun u' hu' => huniq u' (hwake u' _ hu')⟩
    rw [hpc, update_of_ne (hne v hpcv hst)]
    exact hpcv
  · exact fun u hu => h.noHead u (hwake u _ hu)

theorem goto (h : Wakeup s l) (hawake : s.pc t = .pendAsleep → s.taskState t = .runnable)
    (hc : ∀ w, c ≠ .postWake w) (hread : ReadNonzero (s.goto t c))
    (hcredit : credit (s.pc t) (s.taskState t) ≤ credit c (s.taskState t)) :
    Wakeup (s.goto t c) l := by
  refine h.frame rfl rfl rfl hawake hc h.range hread fun hl => ?_
  have hcred := credits_goto s t c
  have hm := h.matched hl
  change s.count ≤ _
  omega

theorem sleep (h : Wakeup s l) (hpc : s.pc t = .pendSleep) (hzero : s.count = 0)
    (hread : ReadNonzero s') (hs' : s' = { s.goto t .pendAsleep with
      taskState := update s.taskState t .waitSemaphore
      waiters := s.waiters.prepend (some t) none }) : Wakeup s' (l ++ [t]) := by
  have ht : ∀ u, s.pc u = .pendAsleep → u ≠ t := by
    rintro u hu rfl
    rw [hpc] at hu
    exact absurd hu (by simp)
  have htl : t ∉ l := fun hm => ht t (h.asleep t hm).1 rfl
  subst hs'
  refine ⟨?_, ?_, ?_, ?_, h.range, hread, ?_⟩
  · rw [map_append]
    exact h.ring.prepend (by simpa using htl)
  · intro u hu
    rcases mem_append.mp hu with hu | hu
    · have hut := ht u (h.asleep u hu).1
      simpa [State.goto, hut] using h.asleep u hu
    · obtain rfl := List.mem_singleton.mp hu
      simp [State.goto]
  · intro u v hu
    have hut : u ≠ t := by
      rintro rfl
      simp [State.goto] at hu
    have hu' : s.pc u = .postWake (some v) := by simpa [State.goto, hut] using hu
    obtain ⟨hv, hpcv, hst, huniq⟩ := h.waking u v hu'
    have hvt := ht v hpcv
    refine ⟨by simp [hv, hvt], by simpa [State.goto, hvt] using hpcv,
      by simpa [hvt] using hst, fun u' hu'' => huniq u' ?_⟩
    have hut' : u' ≠ t := by
      rintro rfl
      simp [State.goto] at hu''
    simpa [State.goto, hut'] using hu''
  · intro u hu
    have hut : u ≠ t := by
      rintro rfl
      simp [State.goto] at hu
    exact h.noHead u (by simpa [State.goto, hut] using hu)
  · intro _
    change s.count ≤ _
    rw [hzero]
    exact Int.natCast_nonneg _

variable {u : Tid}

theorem unlink {l1 l2 : List Tid} (h : Wakeup s (l1 ++ u :: l2))
    (hpc : s.pc t = .postRemove (some u)) (hread : ReadNonzero s')
    (hs' : s' = { s.goto t (.postWake (some u)) with waiters := s.waiters.remove (some u) }) :
    Wakeup s' (l1 ++ l2) := by
  have ht : ∀ v, s.pc v = .pendAsleep → v ≠ t := by
    rintro v hv rfl
    rw [hpc] at hv
    exact absurd hv (by simp)
  have hnd : (l1 ++ u :: l2).Nodup :=
    List.Nodup.of_map _ (nodup_cons.mp h.ring.nodup).2
  have hu : u ∉ l1 ++ l2 :=
    (nodup_cons.mp (perm_middle.nodup_iff.mp hnd)).1
  have hsub : ∀ v ∈ l1 ++ l2, v ∈ l1 ++ u :: l2 := fun v hv =>
    perm_middle.mem_iff.mpr (mem_cons_of_mem _ hv)
  -- nobody else was waking `u`: it was still on the list
  have hnew : ∀ v, s.pc v ≠ .postWake (some u) := fun v hv =>
    (h.waking v u hv).1 (by simp)
  subst hs'
  refine ⟨?_, ?_, ?_, ?_, h.range, hread, ?_⟩
  · have hring := h.ring
    rw [List.map_append, List.map_cons] at hring
    rw [List.map_append]
    exact hring.remove
  · intro v hv
    have hvt := ht v (h.asleep v (hsub v hv)).1
    simpa [State.goto, hvt] using h.asleep v (hsub v hv)
  · intro v w hv
    by_cases hvt : v = t
    · subst hvt
      obtain rfl : u = w := by simpa [State.goto] using hv
      obtain ⟨hpcu, hst⟩ := h.asleep u (by simp)
      refine ⟨hu, by simpa [State.goto, ht u hpcu] using hpcu, hst, fun v' hv' => ?_⟩
      by_contra hne
      exact hnew v' (by simpa [State.goto, hne] using hv')
    · have hv' : s.pc v = .postWake (some w) := by simpa [State.goto, hvt] using hv
      obtain ⟨hw, hpcw, hst, huniq⟩ := h.waking v w hv'
      refine ⟨fun hm => hw (hsub w hm), by simpa [State.goto, ht w hpcw] using hpcw, hst, ?_⟩
      intro v' hv''
      by_cases hvt' : v' = t
      · subst hvt'
        obtain rfl : u = w := by simpa [State.goto] using hv''
        exact absurd hv' (hnew v)
      · exact huniq v' (by simpa [State.goto, hvt'] using hv'')
  · intro v hv
    by_cases hvt : v = t
    · subst hvt
      simp [State.goto] at hv
    · exact h.noHead v (by simpa [State.goto, hvt] using hv)
  · intro _
    have hcred := credits_goto s t (.postWake (some u))
    rw [hpc] at hcred
    have hm := h.matched (by simp)
    change s.count ≤ (credits (s.goto t (.postWake (some u))) : ℤ)
    simp only [credit] at hcred
    omega

theorem wake (h : Wakeup s l) (hpc : s.pc t = .postWake (some u)) (hread : ReadNonzero s')
    (hs' : s' = { s.goto t .idle with
      taskState := update s.taskState u .runnable }) : Wakeup s' l := by
  obtain ⟨hul, hpcu, hst, huniq⟩ := h.waking t u hpc
  have hut : u ≠ t := by
    rintro rfl
    rw [hpc] at hpcu
    exact absurd hpcu (by simp)
  have ht : ∀ v, s.pc v = .pendAsleep → v ≠ t := by
    rintro v hv rfl
    rw [hpc] at hv
    exact absurd hv (by simp)
  have hold : ∀ v w, s'.pc v = .postWake w → v ≠ t ∧ s.pc v = .postWake w := by
    intro v w hv
    subst hs'
    by_cases hvt : v = t
    · subst hvt
      simp [State.goto] at hv
    · exact ⟨hvt, by simpa [State.goto, hvt] using hv⟩
  have hcred : credits s' = credits s := by
    -- the credit moves from the waker to the woken task
    have h1 := credits_goto s t .idle
    rw [hpc] at h1
    have h2 : credits s' + credit ((s.goto t .idle).pc u) ((s.goto t .idle).taskState u) =
        credits (s.goto t .idle) + credit (s'.pc u) (s'.taskState u) :=
      credits_update fun v hv => by simp [hs', State.goto, hv]
    have hu1 : credit ((s.goto t .idle).pc u) ((s.goto t .idle).taskState u) = 0 := by
      simp [State.goto, hut, hpcu, hst, credit]
    have hu2 : credit (s'.pc u) (s'.taskState u) = 1 := by
      simp [hs', State.goto, hut, hpcu, credit]
    simp only [credit] at h1
    omega
  have hneu : ∀ v ∈ l, v ≠ u := fun v hv heq => hul (heq ▸ hv)
  refine ⟨hs' ▸ h.ring, ?_, ?_, fun v hv => h.noHead v (hold v _ hv).2, hs' ▸ h.range, hread, ?_⟩
  · intro v hv
    have hvt := ht v (h.asleep v hv).1
    simpa [hs', State.goto, hvt, hneu v hv] using h.asleep v hv
  · intro v w hv
    obtain ⟨hvt, hv'⟩ := hold v _ hv
    obtain ⟨hw, hpcw, hstw, huniqw⟩ := h.waking v w hv'
    have hwu : w ≠ u := by
      rintro rfl
      exact hvt (huniq v hv')
    refine ⟨hw, by simpa [hs', State.goto, ht w hpcw] using hpcw,
      by simpa [hs', hwu] using hstw, fun v' hv'' => huniqw v' (hold v' _ hv'').2⟩
  · intro hl
    rw [hcred, hs']
    exact h.matched hl

end Wakeup

theorem wakeup_step (h : Wakeup s l) (hok : FreshSleep s e) (hstep : Step s e s') :
    ∃ l', Wakeup s' l' := by
  have hread := readNonzero_step h.read hstep
  obtain ⟨hnonneg, hlt⟩ := h.range
  cases move_of_step hstep with
  | @enterPend t hpc => exact ⟨l, h.goto (by simp [hpc]) (by simp) hread (by simp [hpc, credit])⟩
  | @enterPost t hpc => exact ⟨l, h.goto (by simp [hpc]) (by simp) hread (by simp [hpc, credit])⟩
  | @read t n hpc hne => exact ⟨l, h.goto (by simp [hpc]) (by simp) hread (by simp [hpc, credit])⟩
  | @readZero t n hpc hz =>
    exact ⟨l, h.goto (by simp [hpc]) (nextTry_ne_postWake n) hread
      (by rw [hpc, credit_nextTry]; rfl)⟩
  | @take t n hpc =>
    -- one unit of the count and one awake task go together
    have hne : s.count ≠ 0 := h.read t n _ hpc
    have hcount : toInt32 (s.count - 1) = s.count - 1 :=
      toInt32_of_range (by omega) (by omega)
    refine ⟨l, h.frame rfl rfl rfl (by simp [hpc]) (by simp) ?_ hread fun hl => ?_⟩
    · change 0 ≤ toInt32 (s.count - 1) ∧ toInt32 (s.count - 1) < 2 ^ 31
      omega
    · have hcred := credits_goto s t .idle
      simp only [hpc, credit] at hcred
      have hm := h.matched hl
      change toInt32 (s.count - 1) ≤ (credits (s.goto t .idle) : ℤ)
      omega
  | @miss t n val hpc hne =>
    exact ⟨l, h.goto (by simp [hpc]) (nextTry_ne_postWake n) hread
      (by rw [hpc, credit_nextTry]; rfl)⟩
  | @sleep t hpc =>
    have hzero : s.count = 0 := by simpa [FreshSleep, hpc] using hok
    exact ⟨l ++ [t], h.sleep hpc hzero hread rfl⟩
  | @resume t hpc hrun =>
    exact ⟨l, h.goto (fun _ => hrun) (by simp) hread (by simp [hpc, hrun, credit])⟩
  | @give t hpc =>
    have hfit : s.count < 2 ^ 31 - 1 := by simpa [FreshSleep, hpc] using hok
    have hcount : toInt32 (s.count + 1) = s.count + 1 :=
      toInt32_of_range (by omega) (by omega)
    refine ⟨l, h.frame rfl rfl rfl (by simp [hpc]) (by simp) ?_ hread fun hl => ?_⟩
    · change 0 ≤ toInt32 (s.count + 1) ∧ toInt32 (s.count + 1) < 2 ^ 31
      omega
    · have hcred := credits_goto s t .postTest
      simp only [hpc, credit] at hcred
      have hm := h.matched hl
      change toInt32 (s.count + 1) ≤ (credits (s.goto t .postTest) : ℤ)
      omega
  | @noWaiter t hpc hempty =>
    -- nobody waits, so nothing has to be matched
    have hl : l = [] := by simpa using h.ring.isEmpty_iff.mp hempty
    exact ⟨l, h.frame rfl rfl rfl (by simp [hpc]) (by simp) h.range hread
      fun hne => absurd hl hne⟩
  | @waiter t hpc hempty =>
    exact ⟨l, h.goto (by simp [hpc]) (by simp) hread (by simp [hpc, credit])⟩
  | @first t hpc => exact ⟨l, h.goto (by simp [hpc]) (by simp) hread (by simp [hpc, credit])⟩
  | @unlink t w hpc =>
    have hon : s.waiters.OnList none w := by simpa [FreshSleep, hpc] using hok
    rw [h.ring.onList_iff, List.mem_map] at hon
    obtain ⟨u, hu, rfl⟩ := hon
    obtain ⟨l1, l2, rfl⟩ := List.append_of_mem hu
    exact ⟨l1 ++ l2, h.unlink hpc hread rfl⟩
  | @wake t u hpc => exact ⟨l, h.wake hpc hread rfl⟩
  | @wakeHead t hpc => exact absurd hpc (h.noHead t)

/-- **No lost wakeup**, in the runs in which no task goes to sleep on a positive count, no
`sem_post` unlinks a waiter that has left the list, and the count does not overflow: no state
reached has a positive count that nobody is going to look at. -/
theorem no_lost_wakeup {value : ℤ} {s0 : State Tid} {es : List (Event Tid)}
    (h0 : Initial value s0) (hv : 0 ≤ value) (hv' : value < 2 ^ 31) (hrun : Run Step s0 es s)
    (hok : Guarded Step FreshSleep s0 es) : ¬ LostWakeup s := by
  obtain ⟨l, hl⟩ : ∃ l, Wakeup s l :=
    Run.invariant_of_guarded (I := fun s => ∃ l, Wakeup s l) ⟨[], h0.wakeup hv hv'⟩
      (fun _ _ _ ⟨_, hI⟩ hok hs => wakeup_step hI hok hs) hrun hok
  exact hl.not_lostWakeup

end Wakeups

/-- Task `t` fails both its tries on a zero count.  Before it disables
interrupts, task `u` runs a whole `sem_post`, which finds no waiter. -/
def lostRun (t u : Tid) : List (Event Tid) :=
  [.semPend t, .run t, .run t, .semPost u, .run u, .run u, .run t]

theorem lostRun_isSome : ((lostRun 0 1).foldlM State.step (twoTasks 0)).isSome = true := by decide

/-- **The lost wakeup.**  Task 0 sleeps on the waiters list, the count is 1,
and nobody is going to wake it. -/
theorem lost_wakeup :
    ∃ s, Initial 0 (twoTasks 0) ∧ Run Step (twoTasks 0) (lostRun 0 1) s ∧ s.count = 1 ∧
      LostWakeup s := by
  set s := ((lostRun 0 1).foldlM State.step (twoTasks 0)).get lostRun_isSome with hs
  have hcount : s.count = 1 := by decide
  have hon : OnWaiters s 0 := ⟨by simp, 1, by decide⟩
  refine ⟨s, twoTasks_initial 0, run_iff_foldlM.mpr (some_get _).symm, hcount,
    by omega, ⟨0, hon⟩, by decide, fun t ht => ?_⟩
  have ht0 : t = 0 := by
    revert t
    decide
  subst ht0
  exact ⟨by decide, by decide, hon⟩

/-- Task `t` sleeps before task `u` posts, and is woken. -/
def wokenRun (t u : Tid) : List (Event Tid) :=
  [.semPend t, .run t, .run t, .run t, .semPost u, .run u, .run u, .run u, .run u, .run u]

theorem wokenRun_isSome : ((wokenRun 0 1).foldlM State.step (twoTasks 0)).isSome = true := by decide

variable [DecidableEq Tid]

/-- A decidable form of the condition: the waiter is still the first one. -/
def freshSleepNow (s : State Tid) : Event Tid → Bool
  | .run t =>
    match s.pc t with
    | .pendSleep => s.count = 0
    | .postRemove waiter => waiter = s.waiters.next none ∧ waiter ≠ none
    | .postInc => s.count < 2 ^ 31 - 1
    | _ => true
  | _ => true

theorem freshSleep_of_now (h : freshSleepNow s e = true) : FreshSleep s e := by
  cases e with
  | run t =>
    cases hpc : s.pc t with
    | postRemove w =>
      simp only [freshSleepNow, hpc, decide_eq_true_iff] at h
      simp only [FreshSleep, hpc]
      exact ⟨h.2, 1, h.1.symm⟩
    | pendSleep => simpa [freshSleepNow, FreshSleep, hpc] using h
    | postInc => simpa [freshSleepNow, FreshSleep, hpc] using h
    | _ => simp [FreshSleep, hpc]
  | _ => trivial

/-- The theorem at work: a `sem_post` after the waiter has gone to sleep. -/
theorem no_lost_wakeup_woken :
    ∃ s, Initial 0 (twoTasks 0) ∧ Run Step (twoTasks 0) (wokenRun 0 1) s ∧
      Guarded Step FreshSleep (twoTasks 0) (wokenRun 0 1) ∧ s.taskState 0 = .runnable ∧
      ¬ LostWakeup s := by
  have hrun : Run Step (twoTasks 0) (wokenRun 0 1) (Option.get _ wokenRun_isSome) :=
    run_iff_foldlM.mpr (some_get _).symm
  have hok : Guarded Step FreshSleep (twoTasks 0) (wokenRun 0 1) := by
    intro p e u hp hu
    have hnow : Guarded Step (fun u e => freshSleepNow u e = true) (twoTasks 0) (wokenRun 0 1) :=
      guarded_of_take (by decide)
    exact freshSleep_of_now (hnow p e u hp hu)
  exact ⟨_, twoTasks_initial 0, hrun, hok, by decide,
    no_lost_wakeup (twoTasks_initial 0) (by norm_num) (by norm_num) hrun hok⟩

end Semaphore
