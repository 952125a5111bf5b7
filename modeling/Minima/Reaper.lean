/-
Stopping tasks and the reaper (`reaper`, `task_entry_point`, `task_kill` and
`update_task_state` of `sched.c`, `do_syscall` of `syscalls.c`).

A task that ends becomes `ts_stopping` and posts `reaper_call`; the reaper pends on
it, and in its sweep takes every stopping task off the run queue.  One sweep may take
several tasks, and tasks may stop behind its back, since the reaper may sleep in
`kfree`: so posts and stopping tasks do not match one by one.

* `Step` — what the current task does: it ends, sleeps, waits, wakes and creates
  others, or is interrupted by the timer; and the reaper, step by step;
* `Quiet` — whatever stops a task in the functions of the scheduler also posts;
* `inv_of_run` — unless a post is left over, all stopping tasks are ahead of the sweep;
* `stopping_is_reaped` — in runs without unknown system calls there is a post for a
  stopping task when the reaper is not in its sweep; and the reaper does not sleep
  through it, unless it has gone to sleep on a post before;
* `stopping_left_behind` — the task of an unknown system call stays where it is, and so
  does one that stops while the reaper goes to sleep.
-/
import Minima.Runs
import Minima.Sched

namespace Reaper

open Function List

/-! ### Tasks, and the reaper -/

/-- Where the reaper is. -/
inductive Pc
  /-- in `sem_pend(&reaper_call)`, before the read of the count in try `n` -/
  | pend (n : ℕ)
  /-- before the `cmpxchg` of the count -/
  | cas (n val : ℕ)
  /-- out of tries, before `cli_push` -/
  | enqueue
  /-- in the `sched` of `sem_pend` -/
  | asleep
  /-- `sem_pend` has returned -/
  | start
  /-- in its sweep, with the tasks that the loop has not come to -/
  | sweep (rest : List ℕ)
  deriving DecidableEq, Repr

/-- The state of the scheduler, the reaper, and for each task those that wait for its
end. -/
structure State extends Sched.State where
  reaper : ℕ
  pc : Pc
  waiters : ℕ → List ℕ

/-- Why a task ends. -/
inductive Cause
  /-- its entry function returns, in `task_entry_point` -/
  | exit
  | sysExit
  /-- `do_page_fault` and `do_gp_fault` -/
  | fault
  deriving DecidableEq, Repr

inductive Event
  /-- the current task ends -/
  | stop (why : Cause)
  /-- a system call without a handler -/
  | unknownCall
  /-- a timer tick -/
  | timer
  /-- `sched`, in a section -/
  | sched
  /-- the beginning of `sleep` -/
  | doze (till : ℕ)
  /-- `wait_tid` -/
  | waitTid (tid : ℕ)
  /-- the current task goes to sleep on a semaphore -/
  | block
  /-- `sem_post` of a semaphore wakes task `w` -/
  | wake (w : ℕ)
  /-- `task_create` makes task `t` -/
  | create (t : ℕ)
  /-- a step of the reaper -/
  | reaper
  deriving DecidableEq, Repr

namespace State

variable (s : State)

/-- The scheduler's part becomes `k`. -/
def withSched (k : Sched.State) : State := { s with toState := k }

/-- `task_kill(current)` and the end of `task_entry_point`, up to `sched`: interrupts are
disabled, so that nothing comes between the two. -/
def taskKill : Sched.State := (s.toState.setState s.current .stopping).postReaper

/-- The task that `task_prepare` makes. -/
def newTask (esp redzone : ℕ) : Sched.Task :=
  { kEsp := esp, redzoneTop := redzone, sleepTill := 0, state := .runnable, ticks := 20,
    priority := 20 }

/-- A task joins the end of the run queue.  The loop of the reaper comes to it unless it
has its next element already, and that is the head of the list. -/
def joinSweep (t : ℕ) : Pc → Pc
  | .sweep rest => .sweep (if rest = [] then [] else rest ++ [t])
  | pc => pc

/-- `sem_pend` after a failed try, of two. -/
def nextTry (n : ℕ) : Pc := if n + 1 < 2 then .pend (n + 1) else .enqueue

/-- The body of the sweep: a stopping task leaves the run queue, and those that wait for
it go on. -/
def reap (t : ℕ) : Sched.State :=
  (s.waiters t).foldl (fun k w => k.setState w .runnable)
    { s.toState with runqueue := s.runqueue.erase t }

end State

/-- A step of the reaper. -/
inductive ReaperStep (s : State) : State → Prop
  | read {n : ℕ} (hpc : s.pc = .pend n) :
      ReaperStep s { s with
        pc := if s.reaperCount ≠ 0 then .cas n s.reaperCount else State.nextTry n }
  | cas {n val : ℕ} (hpc : s.pc = .cas n val) (hval : s.reaperCount = val) :
      ReaperStep s { s with reaperCount := val - 1, pc := .start }
  | casFails {n val : ℕ} (hpc : s.pc = .cas n val) (hval : s.reaperCount ≠ val) :
      ReaperStep s { s with pc := State.nextTry n }
  | enqueue {fuel esp : ℕ} {k : Sched.State} (hpc : s.pc = .enqueue)
      (hsched : { s.toState.setState s.reaper .waitSemaphore with
        reaperWaiters := s.reaperWaiters ++ [s.reaper] }.sched fuel esp = some k) :
      ReaperStep s { s.withSched k with pc := .asleep }
  | resume (hpc : s.pc = .asleep) (hpicked : (s.tasks s.reaper).state = .runnable) :
      ReaperStep s { s with pc := .pend 0 }
  | start (hpc : s.pc = .start) : ReaperStep s { s with pc := .sweep s.runqueue }
  | pass {t : ℕ} {rest : List ℕ} (hpc : s.pc = .sweep (t :: rest))
      (hstate : (s.tasks t).state ≠ .stopping) : ReaperStep s { s with pc := .sweep rest }
  | reap {t : ℕ} {rest : List ℕ} (hpc : s.pc = .sweep (t :: rest))
      (hstate : (s.tasks t).state = .stopping) (hother : t ≠ s.current) :
      ReaperStep s { s.withSched (s.reap t) with
        pc := .sweep rest
        waiters := update s.waiters t [] }
  | finish (hpc : s.pc = .sweep []) : ReaperStep s { s with pc := .pend 0 }

/-- One event.  The reaper itself only sleeps in its sweep (in `kfree`) and on
`reaper_call`, and it never waits for a task. -/
inductive Step (s : State) : Event → State → Prop
  | stop {why : Cause} {fuel esp : ℕ} {k : Sched.State}
      (hsched : s.taskKill.sched fuel esp = some k) : Step s (.stop why) (s.withSched k)
  | unknownCall {fuel esp : ℕ} {k : Sched.State}
      (hsched : (s.toState.setState s.current .stopping).sched fuel esp = some k) :
      Step s .unknownCall (s.withSched k)
  | timer {fuel esp : ℕ} {k : Sched.State} (hsched : s.toState.doTimer fuel esp = some k) :
      Step s .timer (s.withSched k)
  | sched {fuel esp : ℕ} {k : Sched.State} (hsched : s.toState.sched fuel esp = some k) :
      Step s .sched (s.withSched k)
  | doze {till : ℕ} (hother : s.current ≠ s.reaper) :
      Step s (.doze till) (s.withSched (s.toState.setTask s.current
        { s.tasks s.current with state := .sleeping, sleepTill := till }))
  | waitTid {tid fuel esp : ℕ} {k : Sched.State} (hother : s.current ≠ s.reaper)
      (hfound : tid ∈ s.runqueue)
      (hsched : (s.toState.setState s.current .waitTask).sched fuel esp = some k) :
      Step s (.waitTid tid) { s.withSched k with
        waiters := update s.waiters tid (s.waiters tid ++ [s.current]) }
  | block {fuel esp : ℕ} {k : Sched.State}
      (hother : s.current ≠ s.reaper ∨ ∃ rest, s.pc = .sweep rest)
      (hsched : (s.toState.setState s.current .waitSemaphore).sched fuel esp = some k) :
      Step s .block (s.withSched k)
  | wake {w : ℕ} (hlist : w ∉ s.reaperWaiters) :
      Step s (.wake w) (s.withSched (s.toState.setState w .runnable))
  | create {t esp redzone : ℕ} (hnew : t ∉ s.runqueue) (hother : t ≠ s.reaper) :
      Step s (.create t) { s with
        tasks := update s.tasks t (State.newTask esp redzone)
        runqueue := s.runqueue ++ [t]
        waiters := update s.waiters t []
        pc := State.joinSweep t s.pc }
  | reaper {s' : State} (hcurrent : s.current = s.reaper) (hstep : ReaperStep s s') :
      Step s .reaper s'

/-- The reaper has been created, and has not run. -/
structure Initial (s : State) : Prop where
  pc : s.pc = .pend 0
  waiters : s.reaperWaiters = []
  nodup : s.runqueue.Nodup
  running : ∀ t ∈ s.runqueue, (s.tasks t).state ≠ .stopping

/-! ### The scheduler posts for what it stops -/

/-- The run queue stays as it is, a task that has been stopped has been posted for, and a
post leaves nobody on the list; those who stay on it stay asleep. -/
structure Quiet (k k' : Sched.State) : Prop where
  runqueue : k'.runqueue = k.runqueue
  count : k.reaperCount ≤ k'.reaperCount
  stops : ∀ t, (k'.tasks t).state = .stopping →
    (k.tasks t).state = .stopping ∨ k.reaperCount < k'.reaperCount
  list : k'.reaperWaiters = [] ∨ k'.reaperWaiters = k.reaperWaiters ∧
    k'.reaperCount = k.reaperCount ∧ ∀ w ∈ k.reaperWaiters,
      (k.tasks w).state = .waitSemaphore → (k'.tasks w).state = .waitSemaphore

namespace Quiet

variable {k k' k'' : Sched.State} {t : ℕ} {x : Sched.TaskState}

theorem refl (k : Sched.State) : Quiet k k :=
  ⟨rfl, le_rfl, fun _ h => .inl h, .inr ⟨rfl, rfl, fun _ _ h => h⟩⟩

theorem trans (h : Quiet k k') (h' : Quiet k' k'') : Quiet k k'' := by
  refine ⟨h'.runqueue.trans h.runqueue, h.count.trans h'.count, fun t ht => ?_, ?_⟩
  · have hcount := h.count
    have hcount' := h'.count
    rcases h'.stops t ht with ht | hlt
    · rcases h.stops t ht with ht | hlt
      · exact .inl ht
      · exact .inr (by omega)
    · exact .inr (by omega)
  · rcases h'.list with hnil | ⟨hsame', heq', hkept'⟩
    · exact .inl hnil
    rcases h.list with hnil | ⟨hsame, heq, hkept⟩
    · exact .inl (hsame'.trans hnil)
    · exact .inr ⟨hsame'.trans hsame, heq'.trans heq,
        fun w hw hstate => hkept' w (hsame ▸ hw) (hkept w hw hstate)⟩

theorem setTask {y : Sched.Task} (hstop : y.state = .stopping → (k.tasks t).state = .stopping)
    (hlist : t ∈ k.reaperWaiters → (k.tasks t).state = .waitSemaphore →
      y.state = .waitSemaphore) : Quiet k (k.setTask t y) := by
  have htask : ∀ u, ((k.setTask t y).tasks u).state =
      if u = t then y.state else (k.tasks u).state := by
    intro u
    by_cases hu : u = t
    · simp [Sched.State.setTask, hu]
    · simp [Sched.State.setTask, hu]
  refine ⟨rfl, le_rfl, fun u hu => .inl ?_, .inr ⟨rfl, rfl, fun w hw hstate => ?_⟩⟩
  · rw [htask] at hu
    by_cases heq : u = t
    · rw [if_pos heq] at hu
      rw [heq]
      exact hstop hu
    · rwa [if_neg heq] at hu
  · rw [htask]
    by_cases heq : w = t
    · rw [if_pos heq]
      rw [heq] at hw hstate
      exact hlist hw hstate
    · rwa [if_neg heq]

theorem setState (hx : x ≠ .stopping) (hlist : t ∉ k.reaperWaiters) : Quiet k (k.setState t x) :=
  setTask (fun h => absurd h hx) fun h => absurd h hlist

theorem setTicks (t : ℕ) (n : ℤ) : Quiet k (k.setTicks t n) :=
  setTask (fun h => h) fun _ h => h

theorem stopPost (t : ℕ) (hlist : k.reaperWaiters.length ≤ 1) :
    Quiet k (k.setState t .stopping).postReaper := by
  cases hw : k.reaperWaiters with
  | nil =>
    have hpost : (k.setState t .stopping).postReaper =
        { k.setState t .stopping with reaperCount := k.reaperCount + 1 } := by
      simp [Sched.State.postReaper, Sched.State.setState, Sched.State.setTask, hw]
    rw [hpost]
    exact ⟨rfl, Nat.le_succ _, fun _ _ => .inr (Nat.lt_succ_self _), .inl hw⟩
  | cons w ws =>
    have hws : ws = [] := by
      rw [hw] at hlist
      exact eq_nil_of_length_eq_zero (by simpa using hlist)
    have hpost : (k.setState t .stopping).postReaper =
        { k.setState t .stopping with
          reaperCount := k.reaperCount + 1
          reaperWaiters := ws }.setState w .runnable := by
      simp [Sched.State.postReaper, Sched.State.setState, Sched.State.setTask, hw]
    rw [hpost]
    exact ⟨rfl, Nat.le_succ _, fun _ _ => .inr (Nat.lt_succ_self _), .inl hws⟩

theorem length_le (h : Quiet k k') (hlist : k.reaperWaiters.length ≤ 1) :
    k'.reaperWaiters.length ≤ 1 := by
  rcases h.list with hnil | ⟨hsame, -⟩
  · simp [hnil]
  · rwa [hsame]

theorem updateTaskState (t ms : ℕ) (hlist : k.reaperWaiters.length ≤ 1) :
    Quiet k (k.updateTaskState t ms) := by
  have hwake : ∀ {k : Sched.State}, Quiet k
      (if (k.tasks t).state = .sleeping ∧ (k.tasks t).sleepTill ≤ ms then k.setState t .runnable
        else k) := by
    intro k
    split
    · rename_i hsleeping
      refine setTask (fun h => by cases h) fun _ hstate => ?_
      rw [hsleeping.1] at hstate
      cases hstate
    · exact refl k
  rw [Sched.State.updateTaskState]
  split
  · exact (stopPost t hlist).trans hwake
  · exact hwake

theorem scan (ms : ℕ) {l : List ℕ} {next next' : Option ℕ} {m m' : ℤ}
    (hlist : k.reaperWaiters.length ≤ 1) (hscan : k.scan ms l next m = (next', m', k')) :
    Quiet k k' := by
  induction l generalizing k next m with
  | nil =>
    cases hscan
    exact refl _
  | cons t l ih =>
    rw [Sched.State.scan] at hscan
    have hupdate := updateTaskState t ms hlist
    have hlist' := hupdate.length_le hlist
    split at hscan
    · exact hupdate.trans (ih hlist' hscan)
    · exact hupdate.trans (ih hlist' hscan)

theorem recharge (l : List ℕ) (k : Sched.State) : Quiet k (l.foldl Sched.State.recharge k) := by
  induction l generalizing k with
  | nil => exact refl k
  | cons t l ih =>
    have hone : Quiet k (k.recharge t) := by
      rw [Sched.State.recharge]
      split
      · exact setTicks t _
      · exact refl k
    exact hone.trans (ih _)

theorem findNextRunnable {fuel : ℕ} {next : Option ℕ} (hlist : k.reaperWaiters.length ≤ 1)
    (hfind : Sched.State.findNextRunnable fuel k = some (next, k')) : Quiet k k' := by
  induction fuel generalizing k with
  | zero => cases hfind
  | succ fuel ih =>
    rw [Sched.State.findNextRunnable] at hfind
    cases hscan : k.scan k.systemUptimeMs k.runqueue none (-1) with
    | mk next1 rest =>
      obtain ⟨m, k1⟩ := rest
      have hquiet := scan _ hlist hscan
      simp only [hscan] at hfind
      split at hfind
      · cases hfind
        exact hquiet
      · -- all runnable tasks are out of ticks: another round
        have hround := hquiet.trans (recharge k1.runqueue k1)
        exact hround.trans (ih (hround.length_le hlist) hfind)

theorem sched {fuel esp : ℕ} (hlist : k.reaperWaiters.length ≤ 1)
    (hsched : k.sched fuel esp = some k') : Quiet k k' := by
  obtain ⟨⟨next, k1⟩, hfind, hret⟩ := Option.bind_eq_some_iff.mp hsched
  have hquiet := findNextRunnable hlist hfind
  obtain rfl := Option.some.inj hret
  split
  · exact hquiet
  · have hswitch : Quiet k1 (k1.setTask k1.current { k1.tasks k1.current with kEsp := esp }) :=
      setTask (fun h => h) fun _ h => h
    exact hquiet.trans ⟨hswitch.runqueue, hswitch.count, hswitch.stops, hswitch.list⟩

theorem doTimer {fuel esp : ℕ} (hlist : k.reaperWaiters.length ≤ 1)
    (htimer : k.doTimer fuel esp = some k') : Quiet k k' := by
  have hclock : Quiet k k.advanceClock :=
    ⟨rfl, le_rfl, fun _ h => .inl h, .inr ⟨rfl, rfl, fun _ _ h => h⟩⟩
  rw [Sched.State.doTimer] at htimer
  split at htimer
  · cases htimer
    exact hclock.trans (setTicks _ _)
  · exact (hclock.trans (setTicks _ _)).trans (sched hlist htimer)

end Quiet

/-! ### The invariant -/

/-- The reaper comes to task `t` before it pends again. -/
def Pc.Ahead (t : ℕ) : Pc → Prop
  | .start => True
  | .sweep rest => t ∈ rest
  | _ => False

/-- The reaper is between the end of `sem_pend` and the end of its sweep. -/
def Pc.InSweep : Pc → Prop
  | .start => True
  | .sweep _ => True
  | _ => False

structure Inv (s : State) : Prop where
  nodup : s.runqueue.Nodup
  /-- a stopping task is ahead of the sweep, or there is a post -/
  owed : ∀ t ∈ s.runqueue, (s.tasks t).state = .stopping → s.pc.Ahead t ∨ 0 < s.reaperCount
  /-- only the reaper waits for posts, and only in `sem_pend` -/
  list : s.reaperWaiters = [] ∨ s.reaperWaiters = [s.reaper] ∧ s.pc = .asleep ∧
    (s.tasks s.reaper).state = .waitSemaphore

/-- The reaper has not gone to sleep on a post. -/
def Attentive (s : State) : Prop := s.reaperWaiters ≠ [] → s.reaperCount = 0

variable {s s' s0 : State} {e : Event} {k : Sched.State}

theorem inv_of_initial (h : Initial s) : Inv s :=
  ⟨h.nodup, fun t ht hstop => absurd hstop (h.running t ht), .inl h.waiters⟩

namespace Inv

theorem length_le (h : Inv s) : s.reaperWaiters.length ≤ 1 := by
  rcases h.list with hnil | ⟨hone, -⟩
  · simp [hnil]
  · simp [hone]

theorem list_of_pc (h : Inv s) (hpc : s.pc ≠ .asleep) : s.reaperWaiters = [] :=
  h.list.resolve_right fun hone => hpc hone.2.1

theorem quiet (h : Inv s) (hq : Quiet s.toState k) : Inv (s.withSched k) := by
  refine ⟨by rw [State.withSched, hq.runqueue]; exact h.nodup, fun t ht hstop => ?_, ?_⟩
  · have hcount : s.reaperCount ≤ k.reaperCount := hq.count
    have ht' : t ∈ s.runqueue := hq.runqueue ▸ ht
    rcases hq.stops t hstop with hstop | hlt
    · rcases h.owed t ht' hstop with hahead | hpos
      · exact .inl hahead
      · exact .inr (lt_of_lt_of_le hpos hcount)
    · exact .inr (lt_of_le_of_lt (Nat.zero_le _) hlt)
  · rcases hq.list with hnil | ⟨hsame, -, hkept⟩
    · exact .inl hnil
    · rcases h.list with hnil | ⟨hone, hpc, hstate⟩
      · exact .inl (hsame.trans hnil)
      · exact .inr ⟨hsame.trans hone, hpc, hkept s.reaper (by simp [hone]) hstate⟩

theorem not_mem_list (h : Inv s) {t : ℕ} (ht : t ≠ s.reaper) : t ∉ s.reaperWaiters := by
  rcases h.list with hnil | ⟨hone, -⟩
  · simp [hnil]
  · simpa [hone] using ht

theorem goto {pc : Pc} (h : Inv s) (hlist : s.pc = .asleep → s.reaperWaiters = [])
    (hahead : ∀ t ∈ s.runqueue, (s.tasks t).state = .stopping → s.pc.Ahead t → pc.Ahead t) :
    Inv { s with pc := pc } := by
  refine ⟨h.nodup, fun t ht hstop => ?_, .inl ?_⟩
  · rcases h.owed t ht hstop with hold | hpos
    · exact .inl (hahead t ht hstop hold)
    · exact .inr hpos
  · by_cases hpc : s.pc = .asleep
    · exact hlist hpc
    · exact h.list_of_pc hpc

end Inv

theorem reap_spec (s : State) (t : ℕ) :
    (s.reap t).runqueue = s.runqueue.erase t ∧ (s.reap t).reaperCount = s.reaperCount ∧
      (s.reap t).reaperWaiters = s.reaperWaiters ∧
      ∀ u, ((s.reap t).tasks u).state = .stopping ↔
        u ∉ s.waiters t ∧ (s.tasks u).state = .stopping := by
  have hfold : ∀ (l : List ℕ) (k : Sched.State),
      (l.foldl (fun k w => k.setState w .runnable) k).runqueue = k.runqueue ∧
      (l.foldl (fun k w => k.setState w .runnable) k).reaperCount = k.reaperCount ∧
      (l.foldl (fun k w => k.setState w .runnable) k).reaperWaiters = k.reaperWaiters ∧
      ∀ u, ((l.foldl (fun k w => k.setState w .runnable) k).tasks u).state = .stopping ↔
        u ∉ l ∧ (k.tasks u).state = .stopping := by
    intro l
    induction l with
    | nil => exact fun k => ⟨rfl, rfl, rfl, fun _ => by simp⟩
    | cons w l ih =>
      intro k
      obtain ⟨hrq, hcount, hlist, hstop⟩ := ih (k.setState w .runnable)
      refine ⟨hrq, hcount, hlist, fun u => (hstop u).trans ?_⟩
      by_cases huw : u = w
      · simp [Sched.State.setState, Sched.State.setTask, huw]
      · simp [Sched.State.setState, Sched.State.setTask, huw]
  exact hfold _ _

theorem Inv.reaperStep (h : Inv s) (hstep : ReaperStep s s') : Inv s' := by
  -- outside of its sweep the reaper is not ahead of anything
  have hnone : ∀ {pc : Pc}, s.pc = pc → (∀ t, ¬ pc.Ahead t) → ∀ {pc' : Pc}, ∀ t ∈ s.runqueue,
      (s.tasks t).state = .stopping → s.pc.Ahead t → pc'.Ahead t :=
    fun hpc hno _ t _ _ hahead => absurd (hpc ▸ hahead) (hno t)
  cases hstep with
  | read hpc =>
    exact h.goto (fun hsleep => by rw [hpc] at hsleep; cases hsleep) (hnone hpc fun _ => id)
  | @cas n val hpc hval =>
    exact ⟨h.nodup, fun _ _ _ => .inl trivial, .inl (h.list_of_pc (by rw [hpc]; simp))⟩
  | casFails hpc _ =>
    exact h.goto (fun hsleep => by rw [hpc] at hsleep; cases hsleep) (hnone hpc fun _ => id)
  | @enqueue fuel esp k hpc hsched =>
    have hlist : s.reaperWaiters = [] := h.list_of_pc (by rw [hpc]; simp)
    -- the reaper is on the list before `sched`
    have hqueued : Inv { s.withSched { s.toState.setState s.reaper .waitSemaphore with
        reaperWaiters := s.reaperWaiters ++ [s.reaper] } with pc := .asleep } := by
      refine ⟨h.nodup, fun t ht hstop => ?_, .inr ⟨by rw [hlist]; rfl, rfl, ?_⟩⟩
      · by_cases heq : t = s.reaper
        · simp [State.withSched, Sched.State.setState, Sched.State.setTask, heq] at hstop
        · have hold : (s.tasks t).state = .stopping := by
            simpa [State.withSched, Sched.State.setState, Sched.State.setTask, heq] using hstop
          rcases h.owed t ht hold with hahead | hpos
          · rw [hpc] at hahead
            exact hahead.elim
          · exact .inr hpos
      · simp [State.withSched, Sched.State.setState, Sched.State.setTask]
    exact hqueued.quiet (Quiet.sched hqueued.length_le hsched)
  | resume hpc hpicked =>
    refine h.goto (fun _ => ?_) (hnone hpc fun _ => id)
    refine h.list.resolve_right fun hone => ?_
    rw [hpicked] at hone
    cases hone.2.2
  | start hpc =>
    exact h.goto (fun hsleep => by rw [hpc] at hsleep; cases hsleep) fun t ht _ _ => ht
  | @pass t rest hpc hstate =>
    refine h.goto (fun hsleep => by rw [hpc] at hsleep; cases hsleep) fun u hu hstop hahead => ?_
    rw [hpc] at hahead
    rcases mem_cons.mp hahead with rfl | hmem
    · exact absurd hstop hstate
    · exact hmem
  | @reap t rest hpc hstate hother =>
    obtain ⟨hrq, hcount, hlist, hstop⟩ := reap_spec s t
    refine ⟨?_, fun u hu hustop => ?_, .inl ?_⟩
    · show (s.reap t).runqueue.Nodup
      rw [hrq]
      exact h.nodup.erase t
    · have hu' : u ∈ s.runqueue.erase t := hrq ▸ hu
      obtain ⟨hne, hmem⟩ := (h.nodup.mem_erase_iff).mp hu'
      rcases h.owed u hmem ((hstop u).mp hustop).2 with hahead | hpos
      · rw [hpc] at hahead
        exact .inl ((mem_cons.mp hahead).resolve_left hne)
      · exact .inr (show 0 < (s.reap t).reaperCount by rw [hcount]; exact hpos)
    · show (s.reap t).reaperWaiters = []
      rw [hlist]
      exact h.list_of_pc (by rw [hpc]; simp)
  | finish hpc =>
    exact h.goto (fun hsleep => by rw [hpc] at hsleep; cases hsleep)
      (hnone hpc fun _ => not_mem_nil)

theorem Pc.Ahead.joinSweep {pc : Pc} {u : ℕ} (h : pc.Ahead u) (t : ℕ) :
    (State.joinSweep t pc).Ahead u := by
  cases pc with
  | sweep rest =>
    have hne : rest ≠ [] := ne_nil_of_mem h
    rw [State.joinSweep, if_neg hne]
    exact mem_append_left _ h
  | start => trivial
  | pend _ | cas _ _ | enqueue | asleep => exact h

theorem Pc.Ahead.inSweep {pc : Pc} {u : ℕ} (h : pc.Ahead u) : pc.InSweep := by
  cases pc with
  | start | sweep _ => trivial
  | pend _ | cas _ _ | enqueue | asleep => exact h

theorem Inv.create (h : Inv s) {t esp redzone : ℕ} (hnew : t ∉ s.runqueue)
    (hother : t ≠ s.reaper) : Inv { s with
      tasks := update s.tasks t (State.newTask esp redzone)
      runqueue := s.runqueue ++ [t]
      waiters := update s.waiters t []
      pc := State.joinSweep t s.pc } := by
  refine ⟨?_, fun u hu hstop => ?_, ?_⟩
  · exact nodup_append.mpr ⟨h.nodup, by simp, fun u hu v hv => by
      obtain rfl := mem_singleton.mp hv
      exact fun heq => hnew (heq ▸ hu)⟩
  · by_cases hut : u = t
    · -- a new task runs
      simp [hut, State.newTask] at hstop
    · have hmem : u ∈ s.runqueue := by simpa [hut] using hu
      rcases h.owed u hmem (by simpa [hut] using hstop) with hahead | hpos
      · exact .inl (hahead.joinSweep t)
      · exact .inr hpos
  · rcases h.list with hnil | ⟨hone, hpc, hstate⟩
    · exact .inl hnil
    · refine .inr ⟨hone, ?_, ?_⟩
      · show State.joinSweep t s.pc = .asleep
        rw [hpc]
        rfl
      · show (update s.tasks t _ s.reaper).state = .waitSemaphore
        rw [update_of_ne hother.symm]
        exact hstate

/-- An event that neither the reaper nor `task_create` is in: the scheduler's part goes on
quietly, and the reaper stays where it is. -/
theorem quiet_of_step (h : Inv s) (hstep : Step s e s') (hknown : e ≠ .unknownCall)
    (hreaper : e ≠ .reaper) (hcreate : ∀ t, e ≠ .create t) :
    ∃ k w, Quiet s.toState k ∧ s' = { s.withSched k with waiters := w } := by
  have hlen := h.length_le
  cases hstep with
  | stop hsched =>
    have hpost := Quiet.stopPost s.current hlen
    exact ⟨_, s.waiters, hpost.trans (Quiet.sched (hpost.length_le hlen) hsched), rfl⟩
  | unknownCall _ => exact absurd rfl hknown
  | timer htimer => exact ⟨_, s.waiters, Quiet.doTimer hlen htimer, rfl⟩
  | sched hsched => exact ⟨_, s.waiters, Quiet.sched hlen hsched, rfl⟩
  | doze hother =>
    exact ⟨_, s.waiters, Quiet.setTask (fun hst => by cases hst)
      fun hmem => absurd hmem (h.not_mem_list hother), rfl⟩
  | waitTid hother _ hsched =>
    have hwait := Quiet.setState (x := .waitTask) (by simp)
      (h.not_mem_list hother)
    exact ⟨_, _, hwait.trans (Quiet.sched (hwait.length_le hlen) hsched), rfl⟩
  | block _ hsched =>
    have hwait : Quiet s.toState (s.toState.setState s.current .waitSemaphore) :=
      Quiet.setTask (fun hst => by cases hst) fun _ _ => rfl
    exact ⟨_, s.waiters, hwait.trans (Quiet.sched (hwait.length_le hlen) hsched), rfl⟩
  | wake hlist => exact ⟨_, s.waiters, Quiet.setState (by simp) hlist, rfl⟩
  | create _ _ => exact absurd rfl (hcreate _)
  | reaper _ _ => exact absurd rfl hreaper

/-- The system call has a handler. -/
def Known (_ : State) (e : Event) : Prop := e ≠ .unknownCall

/-- The reaper does not queue itself in `sem_pend` when it has been posted to since its
last try. -/
def Watchful (s : State) (e : Event) : Prop :=
  e = .reaper → s.pc = .enqueue → s.reaperCount = 0

theorem Inv.step (h : Inv s) (hknown : Known s e) (hstep : Step s e s') : Inv s' := by
  by_cases hreaper : e = .reaper
  · subst hreaper
    cases hstep with
    | reaper _ hstep => exact h.reaperStep hstep
  by_cases hcreate : ∃ t, e = .create t
  · obtain ⟨t, rfl⟩ := hcreate
    cases hstep with
    | create hnew hother => exact h.create hnew hother
  · obtain ⟨k, w, hquiet, rfl⟩ := quiet_of_step h hstep hknown hreaper
      fun t ht => hcreate ⟨t, ht⟩
    have hinv := h.quiet hquiet
    exact ⟨hinv.nodup, hinv.owed, hinv.list⟩

theorem attentive_of_quiet (h : Attentive s) (hq : Quiet s.toState k) :
    Attentive (s.withSched k) := by
  intro hne
  rcases hq.list with hnil | ⟨hsame, hcount, -⟩
  · exact absurd hnil hne
  · show k.reaperCount = 0
    rw [hcount]
    exact h fun hnil => hne (hsame.trans hnil)

theorem attentive_of_step (hinv : Inv s) (h : Attentive s) (hknown : Known s e)
    (hwatch : Watchful s e) (hstep : Step s e s') : Attentive s' := by
  by_cases hreaper : e = .reaper
  · subst hreaper
    cases hstep with
    | reaper _ hstep =>
      cases hstep with
      | cas hpc _ =>
        have hnil : s.reaperWaiters = [] := hinv.list_of_pc (by rw [hpc]; simp)
        exact fun hne => absurd hnil hne
      | enqueue hpc hsched =>
        have hlist : s.reaperWaiters = [] := hinv.list_of_pc (by rw [hpc]; simp)
        have hqueued : Attentive (s.withSched { s.toState.setState s.reaper .waitSemaphore with
            reaperWaiters := s.reaperWaiters ++ [s.reaper] }) := fun _ => hwatch rfl hpc
        have hlen : (s.reaperWaiters ++ [s.reaper]).length ≤ 1 := by simp [hlist]
        exact attentive_of_quiet hqueued (Quiet.sched hlen hsched)
      | reap hpc _ _ =>
        obtain ⟨-, hcount, hlist, -⟩ := reap_spec s _
        intro hne
        exact hcount.trans (h fun hnil => hne (hlist.trans hnil))
      | read _ => exact h
      | casFails _ _ => exact h
      | resume _ _ => exact h
      | start _ => exact h
      | pass _ _ => exact h
      | finish _ => exact h
  by_cases hcreate : ∃ t, e = .create t
  · obtain ⟨t, rfl⟩ := hcreate
    cases hstep with
    | create _ _ => exact h
  · obtain ⟨k, w, hquiet, rfl⟩ := quiet_of_step hinv hstep hknown hreaper
      fun t ht => hcreate ⟨t, ht⟩
    exact attentive_of_quiet h hquiet

/-! ### Runs -/

variable {es : List Event}

theorem inv_of_run (h0 : Initial s0) (hrun : Run Step s0 es s)
    (hknown : Guarded Step Known s0 es) : Inv s :=
  hrun.invariant_of_guarded (inv_of_initial h0) (fun _ _ _ h hk hstep => h.step hk hstep)
    hknown

theorem attentive_of_run (h0 : Initial s0) (hrun : Run Step s0 es s)
    (hknown : Guarded Step Known s0 es) (hwatch : Guarded Step Watchful s0 es) : Attentive s := by
  have hok : Guarded Step (fun s e => Known s e ∧ Watchful s e) s0 es :=
    fun p e u hp hu => ⟨hknown p e u hp hu, hwatch p e u hp hu⟩
  have hboth : Inv s ∧ Attentive s := by
    refine hrun.invariant_of_guarded (I := fun s => Inv s ∧ Attentive s)
      ⟨inv_of_initial h0, fun hne => absurd h0.waiters hne⟩ ?_ hok
    rintro s e t ⟨hinv, hatt⟩ ⟨hk, hw⟩ hstep
    exact ⟨hinv.step hk hstep, attentive_of_step hinv hatt hk hw hstep⟩
  exact hboth.2

/-- **Stopping tasks are reaped.**  In every state of a run without unknown system calls there is a
post for the reaper when a task is stopping, unless the reaper is in its sweep; and it is not
asleep then, if it never queues itself when it has been posted to. -/
theorem stopping_is_reaped (h0 : Initial s0) (hrun : Run Step s0 es s)
    (hknown : Guarded Step Known s0 es) :
    (¬ s.pc.InSweep → ∀ t ∈ s.runqueue, (s.tasks t).state = .stopping → 0 < s.reaperCount) ∧
      (Guarded Step Watchful s0 es → ¬ s.pc.InSweep →
        ∀ t ∈ s.runqueue, (s.tasks t).state = .stopping → s.reaper ∉ s.reaperWaiters) := by
  have hinv := inv_of_run h0 hrun hknown
  have hpost : ¬ s.pc.InSweep → ∀ t ∈ s.runqueue, (s.tasks t).state = .stopping →
      0 < s.reaperCount := by
    intro hout t ht hstop
    exact (hinv.owed t ht hstop).resolve_left fun hahead => hout hahead.inSweep
  refine ⟨hpost, fun hwatch hout t ht hstop hmem => ?_⟩
  have hzero := attentive_of_run h0 hrun hknown hwatch (ne_nil_of_mem hmem)
  have hpos := hpost hout t ht hstop
  omega

/-- The idle task, the reaper with its last tick, and task `2`. -/
def booted (current : ℕ) : State where
  tasks t := ⟨0xD0042F80, 0xD0041000, 0, if t = 0 then .wait else .runnable,
    if t = 1 then 1 else 20, 20⟩
  runqueue := [0, 1, 2]
  current := current
  idleTask := 0
  reaperCount := 0
  reaperWaiters := []
  systemUptimeMs := 0
  irq0Fractions := 0
  irq0FractionsPrev := 0
  reaper := 1
  pc := .pend 0
  waiters _ := []

theorem initial_booted (current : ℕ) : Initial (booted current) := by
  refine ⟨rfl, rfl, by simp [booted], fun t _ => ?_⟩
  show (if t = 0 then Sched.TaskState.wait else .runnable) ≠ .stopping
  split
  · simp
  · simp

theorem stopping_is_reaped_exit : ∃ s, Run Step (booted 2) [.stop .exit] s ∧
    2 ∈ s.runqueue ∧ (s.tasks 2).state = .stopping ∧ ¬ s.pc.InSweep ∧
    0 < s.reaperCount ∧ s.reaper ∉ s.reaperWaiters := by
  obtain ⟨k, hsched, hmem, hstop⟩ : ∃ k, (booted 2).taskKill.sched 2 0xD0042F40 = some k ∧
      2 ∈ k.runqueue ∧ (k.tasks 2).state = .stopping := ⟨_, rfl, by decide, by decide⟩
  have hrun : Run Step (booted 2) [.stop .exit] ((booted 2).withSched k) :=
    .snoc .nil (.stop hsched)
  have hevent : ∀ {p : List Event} {e : Event}, p ++ [e] <+: [Event.stop .exit] →
      e = .stop .exit := fun hp => mem_singleton.mp (hp.subset (by simp))
  have hreaped := stopping_is_reaped (initial_booted 2) hrun
    fun p e u hp _ => by rw [hevent hp]; exact fun heq => by cases heq
  have hout : ¬ ((booted 2).withSched k).pc.InSweep := id
  refine ⟨_, hrun, hmem, hstop, hout, hreaped.1 hout 2 hmem hstop, ?_⟩
  exact hreaped.2 (fun p e u hp _ => by rw [hevent hp]; exact fun heq => by cases heq)
    hout 2 hmem hstop

/-- After an unknown system call there is nobody to wake the reaper; and a task that stops between
its last try and its going to sleep leaves a post that it sleeps on. -/
theorem stopping_left_behind :
    (∃ es s, Run Step (booted 2) (.unknownCall :: es) s ∧ ¬ s.pc.InSweep ∧ 2 ∈ s.runqueue ∧
      (s.tasks 2).state = .stopping ∧ s.reaperCount = 0 ∧ s.reaper ∈ s.reaperWaiters) ∧
    ∃ es s, Run Step (booted 1) es s ∧ .unknownCall ∉ es ∧ ¬ s.pc.InSweep ∧ 2 ∈ s.runqueue ∧
      (s.tasks 2).state = .stopping ∧ s.reaper ∈ s.reaperWaiters := by
  constructor
  · have hcall := Run.snoc .nil (@Step.unknownCall (booted 2) 2 0xD0042F40 _ rfl)
    have hread := hcall.snoc (.reaper rfl (.read rfl))
    have hread' := hread.snoc (.reaper rfl (.read rfl))
    have hsleep := hread'.snoc (.reaper rfl (@ReaperStep.enqueue _ 2 0xD0042F40 _ rfl rfl))
    exact ⟨[.reaper, .reaper, .reaper], _, hsleep, id, by decide, rfl, rfl, by decide⟩
  · have hread := Run.snoc (R := Step) .nil
      (.reaper (s := booted 1) rfl (.read rfl))
    have hread' := hread.snoc (.reaper rfl (.read rfl))
    have htimer := hread'.snoc (@Step.timer _ 2 0xD0042F40 _ rfl)
    have hstop := htimer.snoc (@Step.stop _ .exit 2 0xD0042F40 _ rfl)
    have hsleep := hstop.snoc (.reaper rfl (@ReaperStep.enqueue _ 2 0xD0042F40 _ rfl rfl))
    exact ⟨_, _, hsleep, by decide, id, by decide, rfl, by decide⟩

end Reaper
