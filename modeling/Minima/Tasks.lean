/-
Creating a task and waiting for it (`task_create`, `wait_tid`, the exit of a
task and the `reaper` of `sched.c`).

Any number of tasks create further tasks, wait for the one just created, and
finish with some value; the reaper takes finished tasks off the run queue, frees
them and hands their value to the tasks that wait.  Every step may be followed
by a step of any other runnable task, as the timer interrupt allows; the code
between `cli_push` and `sched` is one step, and so is the reaper's treatment of
one task.  The reaper goes through `sem_pend(&reaper_call)` as in `Reaper`.

* `Inv` — a task that waits is on the list of a task that is still on the run
  queue, or has been given the exit value;
* `waiting_returns` — once the task waited for has stopped, the wait returns after enough
  steps of the reaper;
* `spawn_wait_iff` — if no task stops while the reaper makes up its mind to sleep, every wait
  returns the exit value iff no wait looks for a task that has been reaped already, or for one
  whose value is `-1` anyway;
* `reaperStep_shows` — the reaper here does what it does in `Reaper`.
-/
import Minima.Reaper
import Mathlib.Data.List.Nodup

namespace Tasks

open Function List Option

/-- The states of `enum task_state` that creating and waiting use. -/
inductive TaskState
  | runnable
  | waitTask
  | stopping
  deriving DecidableEq, Repr

/-- What creating and waiting use of a `struct task`. -/
structure Task where
  state : TaskState
  ret : ℤ
  waiters : List ℕ
  waitRetval : ℤ
  deriving DecidableEq, Repr

/-- Where a task is in its code. -/
inductive Pc
  /-- not created yet -/
  | unborn
  /-- in its entry function -/
  | running
  /-- `task_create` or `to_runqueue` has returned, before `wait_tid(tid)` -/
  | created (tid : ℕ)
  /-- inside `wait_tid(tid)`, from `sched()` on -/
  | waiting (tid : ℕ)
  /-- `wait_tid(tid)` has returned `ret` -/
  | returned (tid : ℕ) (ret : ℤ)
  /-- `t->ret` is set, before `cli()` -/
  | finishing
  /-- in its last `sched()` -/
  | stopped
  deriving DecidableEq, Repr

/-- The tasks by their ids, the run queue, the count of `reaper_call`, where the reaper is and
whether it is on the list of the semaphore.  `exited` records the value each task finished
with. -/
structure State where
  tasks : ℕ → Task
  pc : ℕ → Pc
  runqueue : List ℕ
  lastTid : ℕ
  reaperCall : ℕ
  reaper : Reaper.Pc
  listed : Bool
  exited : ℕ → Option ℤ

inductive Event
  /-- task `p` creates a task and puts it on the run queue -/
  | create (p : ℕ)
  /-- task `p` calls `wait_tid`, up to `sched()` -/
  | wait (p : ℕ)
  /-- task `p` returns from `sched()` and from `wait_tid` -/
  | resume (p : ℕ)
  /-- task `p` goes on after `wait_tid` -/
  | proceed (p : ℕ)
  /-- the entry function of task `p` returns `v`, or `p` calls `sys$exit(v)` -/
  | finish (p : ℕ) (v : ℤ)
  /-- task `p` stops -/
  | stop (p : ℕ)
  /-- a step of the reaper -/
  | reaper
  deriving DecidableEq, Repr

def State.goto (s : State) (p : ℕ) (c : Pc) : State := { s with pc := update s.pc p c }

def State.setTask (s : State) (p : ℕ) (t : Task) : State :=
  { s with tasks := update s.tasks p t }

/-- `find_task` -/
def State.findTask (s : State) (tid : ℕ) : Option ℕ := s.runqueue.find? (· = tid)

/-- The task that `task_prepare` returns. -/
def newTask : Task := ⟨.runnable, 0, [], 0⟩

/-- The loop of the reaper over the waiters of a task. -/
def wake (ret : ℤ) : List ℕ → (ℕ → Task) → ℕ → Task
  | [], tasks => tasks
  | w :: ws, tasks =>
    wake ret ws (update tasks w { tasks w with waitRetval := ret, state := .runnable })

/-- The reaper's treatment of a task that has stopped. -/
def State.reap (s : State) (t : ℕ) : State :=
  { s with
    runqueue := s.runqueue.erase t
    tasks := wake (s.tasks t).ret (s.tasks t).waiters
      (update s.tasks t { s.tasks t with waiters := [] }) }

/-- A step of the reaper. -/
def State.reaperStep (s : State) : Option State :=
  match s.reaper with
  | .pend n => some { s with
      reaper := if s.reaperCall ≠ 0 then .cas n s.reaperCall else Reaper.State.nextTry n }
  | .cas n val =>
    if s.reaperCall = val then some { s with reaperCall := val - 1, reaper := .start }
    else some { s with reaper := Reaper.State.nextTry n }
  | .enqueue => some { s with reaper := .asleep, listed := true }
  | .asleep => if s.listed then none else some { s with reaper := .pend 0 }
  | .start => some { s with reaper := .sweep s.runqueue }
  | .sweep [] => some { s with reaper := .pend 0 }
  | .sweep (t :: rest) =>
    some { (if (s.tasks t).state = .stopping then s.reap t else s) with reaper := .sweep rest }

/-- `wait_tid(tid)` by task `p`, up to `sched()`. -/
def State.waitTid (s : State) (p tid : ℕ) : Option State :=
  if tid < 1 then some (s.goto p (.returned tid (-1)))
  else if (s.tasks p).waitRetval ≠ 0 then none
  else match s.findTask tid with
    | none => some (s.goto p (.returned tid (-1)))
    | some waitee =>
      let s := s.setTask p { s.tasks p with state := .waitTask }
      some ((s.setTask waitee { s.tasks waitee with
        waiters := (s.tasks waitee).waiters ++ [p] }).goto p (.waiting tid))

/-- One step.  A task only runs while its state is `ts_runnable`. -/
def State.step (s : State) : Event → Option State
  | .create p =>
    if (s.tasks p).state = .runnable ∧ s.pc p = .running then
      some { (((s.setTask s.lastTid newTask).goto s.lastTid .running).goto p
          (.created s.lastTid)) with
        runqueue := s.runqueue ++ [s.lastTid]
        reaper := Reaper.State.joinSweep s.lastTid s.reaper
        lastTid := s.lastTid + 1 }
    else none
  | .wait p =>
    match s.pc p with
    | .created tid => if (s.tasks p).state = .runnable then s.waitTid p tid else none
    | _ => none
  | .resume p =>
    match s.pc p with
    | .waiting tid =>
      if (s.tasks p).state = .runnable then
        some ((s.setTask p { s.tasks p with waitRetval := 0 }).goto p
          (.returned tid (s.tasks p).waitRetval))
      else none
    | _ => none
  | .proceed p =>
    match s.pc p with
    | .returned _ _ => if (s.tasks p).state = .runnable then some (s.goto p .running) else none
    | _ => none
  | .finish p v =>
    if (s.tasks p).state = .runnable ∧ s.pc p = .running then
      some { (s.setTask p { s.tasks p with ret := v }).goto p .finishing with
        exited := update s.exited p (some v) }
    else none
  | .stop p =>
    if (s.tasks p).state = .runnable ∧ s.pc p = .finishing then
      some { (s.setTask p { s.tasks p with state := .stopping }).goto p .stopped with
        -- `sem_post(&reaper_call)`
        reaperCall := s.reaperCall + 1
        listed := false }
    else none
  | .reaper => s.reaperStep

def Step (s : State) (e : Event) (s' : State) : Prop := s.step e = some s'

/-- Some tasks are running; nobody waits or has finished. -/
structure Initial (s : State) : Prop where
  tid : 1 ≤ s.lastTid
  tasks : ∀ p, s.tasks p = newTask
  pc : ∀ p, s.pc p = if p ∈ s.runqueue then .running else .unborn
  runqueue : s.runqueue.Nodup ∧ ∀ p ∈ s.runqueue, p < s.lastTid
  reaper : s.reaper = .pend 0 ∧ s.reaperCall = 0 ∧ s.listed = false
  exited : ∀ p, s.exited p = none

/-! ### What one step can do -/

/-- The steps of the reaper before and after its sweep. -/
inductive Pends (s : State) : ℕ → Reaper.Pc → Bool → Prop
  | read {n : ℕ} (hr : s.reaper = .pend n) : Pends s s.reaperCall
      (if s.reaperCall ≠ 0 then .cas n s.reaperCall else Reaper.State.nextTry n) s.listed
  | take {n : ℕ} (hr : s.reaper = .cas n s.reaperCall) :
      Pends s (s.reaperCall - 1) .start s.listed
  | lost {n val : ℕ} (hr : s.reaper = .cas n val) (h : s.reaperCall ≠ val) :
      Pends s s.reaperCall (Reaper.State.nextTry n) s.listed
  | enqueue (hr : s.reaper = .enqueue) : Pends s s.reaperCall .asleep true
  | resume (hr : s.reaper = .asleep) (h : s.listed = false) :
      Pends s s.reaperCall (.pend 0) s.listed
  | finish (hr : s.reaper = .sweep []) : Pends s s.reaperCall (.pend 0) s.listed

/-- The transitions, one constructor for each path through the code. -/
inductive Move (s : State) : Event → State → Prop
  | create {p : ℕ} (hst : (s.tasks p).state = .runnable) (hpc : s.pc p = .running) :
      Move s (.create p) { (((s.setTask s.lastTid newTask).goto s.lastTid .running).goto p
          (.created s.lastTid)) with
        runqueue := s.runqueue ++ [s.lastTid]
        reaper := Reaper.State.joinSweep s.lastTid s.reaper
        lastTid := s.lastTid + 1 }
  | notFound {p tid : ℕ} (hst : (s.tasks p).state = .runnable) (hpc : s.pc p = .created tid)
      (h : tid < 1 ∨ tid ∉ s.runqueue) : Move s (.wait p) (s.goto p (.returned tid (-1)))
  | sleep {p tid : ℕ} (hst : (s.tasks p).state = .runnable) (hpc : s.pc p = .created tid)
      (h : tid ∈ s.runqueue) : Move s (.wait p)
        (((s.setTask p { s.tasks p with state := .waitTask }).setTask tid
          { (s.setTask p { s.tasks p with state := .waitTask }).tasks tid with
            waiters :=
              ((s.setTask p { s.tasks p with state := .waitTask }).tasks tid).waiters ++ [p]
          }).goto p (.waiting tid))
  | resume {p tid : ℕ} (hst : (s.tasks p).state = .runnable) (hpc : s.pc p = .waiting tid) :
      Move s (.resume p) ((s.setTask p { s.tasks p with waitRetval := 0 }).goto p
        (.returned tid (s.tasks p).waitRetval))
  | proceed {p tid : ℕ} {v : ℤ} (hst : (s.tasks p).state = .runnable)
      (hpc : s.pc p = .returned tid v) : Move s (.proceed p) (s.goto p .running)
  | finish {p : ℕ} {v : ℤ} (hst : (s.tasks p).state = .runnable) (hpc : s.pc p = .running) :
      Move s (.finish p v) { (s.setTask p { s.tasks p with ret := v }).goto p .finishing with
        exited := update s.exited p (some v) }
  | stop {p : ℕ} (hst : (s.tasks p).state = .runnable) (hpc : s.pc p = .finishing) :
      Move s (.stop p) { (s.setTask p { s.tasks p with state := .stopping }).goto p .stopped with
        reaperCall := s.reaperCall + 1
        listed := false }
  | pend {call : ℕ} {pc : Reaper.Pc} {listed : Bool} (h : Pends s call pc listed) :
      Move s .reaper { s with reaperCall := call, reaper := pc, listed := listed }
  | start (hr : s.reaper = .start) : Move s .reaper { s with reaper := .sweep s.runqueue }
  | skip {t : ℕ} {rest : List ℕ} (hr : s.reaper = .sweep (t :: rest))
      (h : (s.tasks t).state ≠ .stopping) : Move s .reaper { s with reaper := .sweep rest }
  | reap {t : ℕ} {rest : List ℕ} (hr : s.reaper = .sweep (t :: rest))
      (h : (s.tasks t).state = .stopping) :
      Move s .reaper { s.reap t with reaper := .sweep rest }

variable {s s' : State} {e : Event}

theorem findTask_eq (s : State) (tid : ℕ) :
    s.findTask tid = if tid ∈ s.runqueue then some tid else none := by
  unfold State.findTask
  induction s.runqueue with
  | nil => rfl
  | cons t ts ih =>
    by_cases h : t = tid
    · simp [h]
    · simp [h, Ne.symm h, ih]

variable {p : ℕ}

theorem move_of_wait (hstep : s.step (.wait p) = some s') : Move s (.wait p) s' := by
  simp only [State.step] at hstep
  split at hstep
  next tid hpc =>
    rw [ite_none_right_eq_some] at hstep
    obtain ⟨hst, hwait⟩ := hstep
    unfold State.waitTid at hwait
    by_cases htid : tid < 1
    · rw [if_pos htid, some_inj] at hwait
      exact hwait ▸ .notFound hst hpc (.inl htid)
    · rw [if_neg htid, ite_none_left_eq_some, findTask_eq] at hwait
      obtain ⟨-, hwait⟩ := hwait
      by_cases hmem : tid ∈ s.runqueue
      · simp only [if_pos hmem, some_inj] at hwait
        exact hwait ▸ .sleep hst hpc hmem
      · simp only [if_neg hmem, some_inj] at hwait
        exact hwait ▸ .notFound hst hpc (.inr hmem)
  next => simp at hstep

theorem move_of_reaper (hstep : s.reaperStep = some s') : Move s .reaper s' := by
  unfold State.reaperStep at hstep
  split at hstep
  next n hr => exact some_inj.mp hstep ▸ .pend (.read hr)
  next n val hr =>
    split at hstep
    next h => exact some_inj.mp hstep ▸ h ▸ .pend (.take (h ▸ hr))
    next h => exact some_inj.mp hstep ▸ .pend (.lost hr h)
  next hr => exact some_inj.mp hstep ▸ .pend (.enqueue hr)
  next hr =>
    rw [ite_none_left_eq_some, some_inj] at hstep
    exact hstep.2 ▸ .pend (.resume hr (by simpa using hstep.1))
  next hr => exact some_inj.mp hstep ▸ .start hr
  next hr => exact some_inj.mp hstep ▸ .pend (.finish hr)
  next t rest hr =>
    by_cases h : (s.tasks t).state = .stopping
    · rw [if_pos h, some_inj] at hstep
      exact hstep ▸ .reap hr h
    · rw [if_neg h, some_inj] at hstep
      exact hstep ▸ .skip hr h

theorem move_of_step (hstep : Step s e s') : Move s e s' := by
  unfold Step at hstep
  cases e with
  | create p =>
    simp only [State.step, ite_none_right_eq_some, some_inj] at hstep
    obtain ⟨⟨hst, hpc⟩, rfl⟩ := hstep
    exact .create hst hpc
  | wait p => exact move_of_wait hstep
  | resume p =>
    simp only [State.step] at hstep
    split at hstep
    next tid hpc =>
      simp only [ite_none_right_eq_some, some_inj] at hstep
      obtain ⟨hst, rfl⟩ := hstep
      exact .resume hst hpc
    next => simp at hstep
  | proceed p =>
    simp only [State.step] at hstep
    split at hstep
    next tid v hpc =>
      simp only [ite_none_right_eq_some, some_inj] at hstep
      obtain ⟨hst, rfl⟩ := hstep
      exact .proceed hst hpc
    next => simp at hstep
  | finish p v =>
    simp only [State.step, ite_none_right_eq_some, some_inj] at hstep
    obtain ⟨⟨hst, hpc⟩, rfl⟩ := hstep
    exact .finish hst hpc
  | stop p =>
    simp only [State.step, ite_none_right_eq_some, some_inj] at hstep
    obtain ⟨⟨hst, hpc⟩, rfl⟩ := hstep
    exact .stop hst hpc
  | reaper => exact move_of_reaper hstep

/-! ### The invariant -/

theorem wake_apply (ret : ℤ) (ws : List ℕ) (tasks : ℕ → Task) (u : ℕ) :
    wake ret ws tasks u =
      if u ∈ ws then { tasks u with waitRetval := ret, state := .runnable } else tasks u := by
  induction ws generalizing tasks with
  | nil => rfl
  | cons w ws ih =>
    rw [wake, ih]
    by_cases hu : u = w
    · subst hu
      by_cases hmem : u ∈ ws <;> simp [hmem]
    · simp [hu]

variable {rest : List ℕ} {t : ℕ}

theorem joinSweep_eq {pc : Reaper.Pc} (h : Reaper.State.joinSweep t pc = .sweep rest) :
    ∃ rest', pc = .sweep rest' ∧ rest = if rest' = [] then [] else rest' ++ [t] := by
  cases pc with
  | sweep rest' =>
    obtain rfl := Reaper.Pc.sweep.inj h
    exact ⟨rest', rfl, rfl⟩
  | pend _ | cas _ _ | enqueue | asleep | start => cases h

theorem Pends.not_sweep {call : ℕ} {pc : Reaper.Pc} {listed : Bool} (h : Pends s call pc listed)
    (rest : List ℕ) : pc ≠ .sweep rest := by
  cases h <;> grind [Reaper.State.nextTry]

/-- Which tasks exist, and where the reaper is. -/
structure Shape (s : State) : Prop where
  tid : 1 ≤ s.lastTid
  fresh : ∀ t, s.lastTid ≤ t → s.pc t = .unborn
  born : ∀ t ∈ s.runqueue, s.pc t ≠ .unborn
  nodup : s.runqueue.Nodup
  sweep : ∀ rest, s.reaper = .sweep rest → rest.Nodup ∧ ∀ t ∈ rest, t ∈ s.runqueue
  created : ∀ p tid, s.pc p = .created tid → 1 ≤ tid

/-- What is known of a task that has finished. -/
structure Finished (s : State) : Prop where
  value : ∀ t, s.pc t = .finishing ∨ s.pc t = .stopped → s.exited t = some (s.tasks t).ret
  pc : ∀ t v, s.exited t = some v → s.pc t = .finishing ∨ s.pc t = .stopped
  stopping : ∀ t, (s.tasks t).state = .stopping ↔ s.pc t = .stopped
  /-- the reaper has been called for it, or is on its way to it -/
  called : ∀ t ∈ s.runqueue, s.pc t = .stopped → 0 < s.reaperCall ∨ s.reaper.Ahead t

/-- What is known of a task that waits. -/
structure Waits (s : State) : Prop where
  waiter : ∀ p c, p ∈ (s.tasks c).waiters → s.pc p = .waiting c ∧ (s.tasks p).state = .waitTask
  /-- it has been given the exit value, or is on the list of a task not reaped yet -/
  waiting : ∀ p c, s.pc p = .waiting c →
    ((s.tasks p).state = .runnable ∧ s.exited c = some (s.tasks p).waitRetval) ∨
    ((s.tasks p).state = .waitTask ∧ p ∈ (s.tasks c).waiters ∧ c ∈ s.runqueue)
  retval : ∀ p, (∀ c, s.pc p ≠ .waiting c) → (s.tasks p).waitRetval = 0

variable {c : Pc}

theorem Shape.of_move (h : Shape s) (hpc : s'.pc = update s.pc p c) (hp : s.pc p ≠ .unborn)
    (hc : c ≠ .unborn) (hc' : ∀ tid, c ≠ .created tid) (hq : s'.runqueue = s.runqueue)
    (hl : s'.lastTid = s.lastTid) (hr : s'.reaper = s.reaper) : Shape s' := by
  obtain ⟨htid, hfresh, hborn, hnodup, hsweep, hcreated⟩ := h
  constructor <;> simp only [hpc, hq, hl, hr] <;> grind

theorem Shape.step (h : Shape s) (hstep : Step s e s') : Shape s' := by
  cases move_of_step hstep with
  | create hst hpc =>
    have hnew : s.lastTid ∉ s.runqueue := fun hmem => h.born _ hmem (h.fresh _ le_rfl)
    obtain ⟨htid, hfresh, hborn, hnodup, hsweep, hcreated⟩ := h
    constructor <;> simp only [State.goto, State.setTask]
    case sweep =>
      intro rest' hrest
      obtain ⟨rest, hr, rfl⟩ := joinSweep_eq hrest
      obtain ⟨hnd, hsub⟩ := hsweep rest hr
      split
      · simp
      · refine ⟨concat_eq_append ▸ hnd.concat fun hmem => hnew (hsub _ hmem), fun t ht => ?_⟩
        rcases mem_append.mp ht with ht | ht
        · exact mem_append_left _ (hsub t ht)
        · exact mem_append_right _ ht
    all_goals grind
  | notFound hst hpc _ => exact h.of_move rfl (by simp [hpc]) (by simp) (by simp) rfl rfl rfl
  | sleep hst hpc _ => exact h.of_move rfl (by simp [hpc]) (by simp) (by simp) rfl rfl rfl
  | resume hst hpc => exact h.of_move rfl (by simp [hpc]) (by simp) (by simp) rfl rfl rfl
  | proceed hst hpc => exact h.of_move rfl (by simp [hpc]) (by simp) (by simp) rfl rfl rfl
  | finish hst hpc => exact h.of_move rfl (by simp [hpc]) (by simp) (by simp) rfl rfl rfl
  | stop hst hpc => exact h.of_move rfl (by simp [hpc]) (by simp) (by simp) rfl rfl rfl
  | pend hpend =>
    exact ⟨h.tid, h.fresh, h.born, h.nodup, fun rest hrest => absurd hrest (hpend.not_sweep rest),
      h.created⟩
  | start hr =>
    refine ⟨h.tid, h.fresh, h.born, h.nodup, fun rest hrest => ?_, h.created⟩
    obtain rfl : s.runqueue = rest := Reaper.Pc.sweep.inj hrest
    exact ⟨h.nodup, fun t ht => ht⟩
  | @skip t rest hr _ =>
    obtain ⟨hnd, hsub⟩ := h.sweep _ hr
    refine ⟨h.tid, h.fresh, h.born, h.nodup, fun rest' hrest => ?_, h.created⟩
    obtain rfl : rest = rest' := Reaper.Pc.sweep.inj hrest
    exact ⟨hnd.of_cons, fun u hu => hsub u (mem_cons_of_mem _ hu)⟩
  | @reap t rest hr _ =>
    obtain ⟨hnd, hsub⟩ := h.sweep _ hr
    refine ⟨h.tid, h.fresh, fun u hu => h.born u (mem_of_mem_erase hu), h.nodup.erase t,
      fun rest' hrest => ?_, h.created⟩
    obtain rfl : rest = rest' := Reaper.Pc.sweep.inj hrest
    refine ⟨hnd.of_cons, fun u hu => ?_⟩
    have hne : u ≠ t := fun heq => (nodup_cons.mp hnd).1 (heq ▸ hu)
    exact (mem_erase_of_ne hne).mpr (hsub u (mem_cons_of_mem _ hu))

theorem Finished.of_move (h : Finished s) (hpc : s'.pc = update s.pc p c)
    (hp : s.pc p ≠ .finishing ∧ s.pc p ≠ .stopped) (hc : c ≠ .finishing ∧ c ≠ .stopped)
    (hret : ∀ t, (s'.tasks t).ret = (s.tasks t).ret)
    (hst : ∀ t, (s'.tasks t).state = .stopping ↔ (s.tasks t).state = .stopping)
    (hq : s'.runqueue = s.runqueue) (hr : s'.reaper = s.reaper ∧ s'.reaperCall = s.reaperCall)
    (hx : s'.exited = s.exited) : Finished s' := by
  obtain ⟨hvalue, hexited, hstopping, hcalled⟩ := h
  constructor <;> simp only [hpc, hret, hst, hq, hr, hx] <;> grind

theorem Finished.step (h : Finished s) (hs : Shape s) (hw : Waits s) (hstep : Step s e s') :
    Finished s' := by
  cases move_of_step hstep with
  | @create p hst hpc =>
    obtain ⟨hvalue, hexited, hstopping, hcalled⟩ := h
    have hnew := hs.fresh s.lastTid le_rfl
    constructor <;> simp only [State.goto, State.setTask]
    case called =>
      intro t ht hstopped
      have hold : s.pc t = .stopped ∧ t ∈ s.runqueue := by grind
      exact (hcalled t hold.2 hold.1).imp_right fun hahead => hahead.joinSweep _
    all_goals grind [newTask]
  | notFound hst hpc _ =>
    exact h.of_move rfl (by simp [hpc]) (by simp) (fun _ => rfl) (fun _ => .rfl) rfl ⟨rfl, rfl⟩ rfl
  | @sleep p tid hst hpc _ =>
    refine h.of_move rfl (by simp [hpc]) (by simp) (fun t => ?_) (fun t => ?_) rfl ⟨rfl, rfl⟩ rfl
    · simp only [State.goto, State.setTask]
      grind
    · simp only [State.goto, State.setTask]
      grind
  | @resume p tid hst hpc =>
    refine h.of_move rfl (by simp [hpc]) (by simp) (fun t => ?_) (fun t => ?_) rfl ⟨rfl, rfl⟩ rfl
    · simp only [State.goto, State.setTask]
      grind
    · simp only [State.goto, State.setTask]
      grind
  | proceed hst hpc =>
    exact h.of_move rfl (by simp [hpc]) (by simp) (fun _ => rfl) (fun _ => .rfl) rfl ⟨rfl, rfl⟩ rfl
  | @finish p v hst hpc =>
    obtain ⟨hvalue, hexited, hstopping, hcalled⟩ := h
    constructor <;> simp only [State.goto, State.setTask] <;> grind
  | @stop p hst hpc =>
    obtain ⟨hvalue, hexited, hstopping, hcalled⟩ := h
    constructor <;> simp only [State.goto, State.setTask] <;> grind
  | pend hpend =>
    refine ⟨h.value, h.pc, h.stopping, fun t ht hpc => ?_⟩
    have hcalled := h.called t ht hpc
    cases hpend <;> simp_all [Reaper.Pc.Ahead]
  | start hr => exact ⟨h.value, h.pc, h.stopping, fun t ht _ => .inr ht⟩
  | @skip t rest hr hne =>
    refine ⟨h.value, h.pc, h.stopping, fun u hu hpc => (h.called u hu hpc).imp_right ?_⟩
    -- the task passed over has not stopped, so it is not `u`
    have hut : u ≠ t := fun heq => hne ((h.stopping t).mpr (heq ▸ hpc))
    rw [hr]
    exact mem_of_ne_of_mem hut
  | @reap t rest hr hst =>
    obtain ⟨hvalue, hexited, hstopping, hcalled⟩ := h
    have hwaiters := fun p => hw.waiter p t
    have hnodup := hs.nodup
    constructor <;> simp only [State.reap, wake_apply] <;>
      grind [Reaper.Pc.Ahead]

theorem Waits.of_move (h : Waits s) (hpc : s'.pc = update s.pc p c)
    (hp : ∀ tid, s.pc p ≠ .waiting tid) (hc : ∀ tid, c ≠ .waiting tid)
    (hws : ∀ t, (s'.tasks t).waiters = (s.tasks t).waiters)
    (hrv : ∀ t, (s'.tasks t).waitRetval = (s.tasks t).waitRetval)
    (hst : ∀ t ≠ p, (s'.tasks t).state = (s.tasks t).state) (hq : s'.runqueue = s.runqueue)
    (hx : ∀ t v, s.exited t = some v → s'.exited t = some v) : Waits s' := by
  obtain ⟨hwaiter, hwaiting, hretval⟩ := h
  constructor <;> simp only [hpc, hws, hrv, hq] <;> grind

theorem Waits.step (h : Waits s) (hs : Shape s) (hf : Finished s) (hstep : Step s e s') :
    Waits s' := by
  cases move_of_step hstep with
  | @create p hst hpc =>
    obtain ⟨hwaiter, hwaiting, hretval⟩ := h
    have hnew := hs.fresh s.lastTid le_rfl
    have hborn := hs.born s.lastTid
    constructor <;> simp only [State.goto, State.setTask] <;>
      grind [newTask]
  | notFound hst hpc _ =>
    exact h.of_move rfl (by simp [hpc]) (by simp) (fun _ => rfl) (fun _ => rfl) (fun _ _ => rfl)
      rfl fun _ _ hx => hx
  | @sleep p tid hst hpc _ =>
    obtain ⟨hwaiter, hwaiting, hretval⟩ := h
    constructor <;> simp only [State.goto, State.setTask] <;> grind
  | @resume p tid hst hpc =>
    obtain ⟨hwaiter, hwaiting, hretval⟩ := h
    constructor <;> simp only [State.goto, State.setTask] <;> grind
  | proceed hst hpc =>
    exact h.of_move rfl (by simp [hpc]) (by simp) (fun _ => rfl) (fun _ => rfl) (fun _ _ => rfl)
      rfl fun _ _ hx => hx
  | @finish p v hst hpc =>
    refine h.of_move rfl (by simp [hpc]) (by simp) (fun t => ?_) (fun t => ?_) (fun t ht => ?_)
      rfl fun t v' hx => ?_
    · simp only [State.goto, State.setTask]
      grind
    · simp only [State.goto, State.setTask]
      grind
    · simp only [State.goto, State.setTask, update_of_ne ht]
    · -- `p` is still running, so it is not a task that had finished before
      have hne : t ≠ p := fun heq => by simpa [heq, hpc] using hf.pc t v' hx
      simpa only [update_of_ne hne] using hx
  | @stop p hst hpc =>
    refine h.of_move rfl (by simp [hpc]) (by simp) (fun t => ?_) (fun t => ?_) (fun t ht => ?_)
      rfl fun _ _ hx => hx
    · simp only [State.goto, State.setTask]
      grind
    · simp only [State.goto, State.setTask]
      grind
    · simp only [State.goto, State.setTask, update_of_ne ht]
  | pend _ => exact ⟨h.waiter, h.waiting, h.retval⟩
  | start _ => exact ⟨h.waiter, h.waiting, h.retval⟩
  | skip _ _ => exact ⟨h.waiter, h.waiting, h.retval⟩
  | @reap t rest hr hst =>
    -- a waiter of `t` gets the value `t` finished with; all others wait for other tasks
    obtain ⟨hwaiter, hwaiting, hretval⟩ := h
    have hvalue := hf.value t
    have hstopped := hf.stopping t
    constructor <;> simp only [State.reap, wake_apply] <;>
      grind

/-- The reaper is between its last look at the count of `reaper_call` and its going to sleep. -/
def drowsy : Reaper.Pc → Bool
  | .cas 1 _ => true
  | .enqueue => true
  | _ => false

/-- No task stops then: the reaper would not notice. -/
def Timely (s : State) : Event → Prop
  | .stop _ => drowsy s.reaper = false
  | _ => True

/-- The reaper does not sleep when it has been called. -/
structure Watched (s : State) : Prop where
  tries : ∀ n, s.reaper = .pend n ∨ (∃ val, s.reaper = .cas n val) → n < 2
  last : ∀ val, s.reaper = .cas 1 val → s.reaperCall = val
  enqueue : s.reaper = .enqueue → s.reaperCall = 0
  listed : s.listed = true → s.reaper = .asleep ∧ s.reaperCall = 0

/-- If the count has changed since the reaper has looked at it, that was its first try. -/
theorem Watched.first (h : Watched s) (n val : ℕ) (hr : s.reaper = .cas n val)
    (hne : s.reaperCall ≠ val) : n = 0 := by
  have hlt := h.tries n (.inr ⟨val, hr⟩)
  have hone : n ≠ 1 := fun heq => hne (h.last val (heq ▸ hr))
  omega

theorem Watched.step (h : Watched s) (hok : Timely s e) (hstep : Step s e s') : Watched s' := by
  have hfirst := h.first
  obtain ⟨htries, hlast, henqueue, hlisted⟩ := h
  cases move_of_step hstep with
  | create _ _ =>
    cases hr : s.reaper <;> constructor <;>
      simp_all [Reaper.State.joinSweep, State.goto, State.setTask]
  | stop _ _ =>
    constructor <;> simp only [State.goto, State.setTask] <;> grind [Timely, drowsy]
  | pend hpend => cases hpend <;> constructor <;> grind [Reaper.State.nextTry]
  | start _ | skip _ _ | reap _ _ =>
    constructor <;> simp only [State.reap] <;> grind
  | notFound _ _ _ | sleep _ _ _ | resume _ _ | proceed _ _ | finish _ _ =>
    exact ⟨htries, hlast, henqueue, hlisted⟩

/-! ### Every run -/

/-- The inductive invariant. -/
structure Inv (s : State) : Prop where
  shape : Shape s
  finished : Finished s
  waits : Waits s
  watched : Watched s
  returned : ∀ p tid v, s.pc p = .returned tid v → s.exited tid = some v

/-- A `wait_tid` finds the task it looks for on the run queue, or looks for one
that finished with the value `wait_tid` returns for a task it does not find. -/
def Found (s : State) : Event → Prop
  | .wait p => ∀ tid, s.pc p = .created tid → tid ∈ s.runqueue ∨ s.exited tid = some (-1)
  | _ => True

variable {v : ℤ}

theorem exited_step (h : Finished s) (hstep : Step s e s') (hx : s.exited t = some v) :
    s'.exited t = some v := by
  cases move_of_step hstep with
  | @finish p w hst hpc =>
    have hne : t ≠ p := fun heq => by simpa [heq, hpc] using h.pc t v hx
    simpa only [update_of_ne hne] using hx
  | _ => exact hx

theorem returned_step (hstep : Step s e s') {tid : ℕ} (hpc : s'.pc p = .returned tid v) :
    s.pc p = .returned tid v ∨
    (e = .wait p ∧ s.pc p = .created tid ∧ (tid < 1 ∨ tid ∉ s.runqueue) ∧ v = -1) ∨
    (s.pc p = .waiting tid ∧ (s.tasks p).state = .runnable ∧ v = (s.tasks p).waitRetval) := by
  cases move_of_step hstep <;> simp only [State.goto, State.setTask, State.reap] at hpc <;>
    grind

theorem Inv.step (h : Inv s) (hok : Timely s e ∧ Found s e) (hstep : Step s e s') : Inv s' := by
  refine ⟨h.shape.step hstep, h.finished.step h.shape h.waits hstep,
    h.waits.step h.shape h.finished hstep, h.watched.step hok.1 hstep,
    fun p tid v hpc => exited_step h.finished hstep ?_⟩
  obtain hold | ⟨rfl, hcr, hmiss, rfl⟩ | ⟨hwait, hrun, rfl⟩ := returned_step hstep hpc
  · exact h.returned p tid v hold
  · have htid := h.shape.created p tid hcr
    rcases hmiss with hlt | hmiss
    · omega
    · exact (hok.2 tid hcr).resolve_left hmiss
  · rcases h.waits.waiting p tid hwait with ⟨-, hval⟩ | ⟨hst, -⟩
    · exact hval
    · rw [hrun] at hst
      cases hst

theorem Initial.inv (h : Initial s) : Inv s := by
  have hpc : ∀ p, s.pc p = .running ∨ s.pc p = .unborn := by
    intro p
    rw [h.pc p]
    split
    · exact .inl rfl
    · exact .inr rfl
  refine ⟨⟨h.tid, fun t ht => ?_, fun t ht => ?_, h.runqueue.1, ?_, fun p tid hc => ?_⟩,
    ⟨fun t ht => ?_, fun t v hx => ?_, fun t => ?_, fun t _ hst => ?_⟩,
    ⟨fun p c hp => ?_, fun p c hp => ?_, fun p _ => ?_⟩, ?_, fun p tid v hp => ?_⟩
  · rw [h.pc t, if_neg fun hmem => absurd (h.runqueue.2 t hmem) (by omega)]
  · rw [h.pc t, if_pos ht]
    simp
  · rw [h.reaper.1]
    simp
  · rcases hpc p with hp | hp <;> simp [hp] at hc
  · rcases hpc t with hp | hp <;> simp [hp] at ht
  · rw [h.exited t] at hx
    cases hx
  · rw [h.tasks t]
    rcases hpc t with hp | hp <;> simp [hp, newTask]
  · rcases hpc t with hp | hp <;> simp [hp] at hst
  · rw [h.tasks c] at hp
    cases hp
  · rcases hpc p with hq | hq <;> simp [hq] at hp
  · rw [h.tasks p]
    rfl
  · obtain ⟨hr, hcall, hlisted⟩ := h.reaper
    constructor <;> simp [hr, hlisted]
  · rcases hpc p with hq | hq <;> simp [hq] at hp

/-- How many steps the reaper is away from task `c`, at most. -/
def distance (c : ℕ) (s : State) : ℕ :=
  match s.reaper with
  | .sweep rest => rest.length + if c ∈ rest then 0 else s.runqueue.length + 6
  | .start => s.runqueue.length + 1
  | .cas _ val => s.runqueue.length + if s.reaperCall = val then 2 else 4
  | .pend _ => s.runqueue.length + 3
  | .asleep => s.runqueue.length + 4
  | .enqueue => 0

theorem reaper_step (h : Inv s) {c : ℕ} (hmem : c ∈ s.runqueue) (hpc : s.pc c = .stopped) :
    ∃ s', Step s .reaper s' ∧ s'.pc = s.pc ∧ (c ∉ s'.runqueue ∨ distance c s' < distance c s) := by
  -- outside of its sweep the reaper has been called
  have hcall : ¬ s.reaper.Ahead c → s.reaperCall ≠ 0 := fun hnot =>
    ((h.finished.called c hmem hpc).resolve_right hnot).ne'
  simp only [Step, State.step, State.reaperStep]
  cases hr : s.reaper with
  | pend n =>
    have hcall := hcall (by simp [hr, Reaper.Pc.Ahead])
    exact ⟨_, rfl, rfl, .inr (by simp [distance, hr, hcall])⟩
  | cas n val =>
    dsimp only
    split
    next hval => exact ⟨_, rfl, rfl, .inr (by simp [distance, hr, hval])⟩
    next hval =>
      have hn := h.watched.first n val hr hval
      exact ⟨_, rfl, rfl, .inr (by simp [distance, hr, hval, hn, Reaper.State.nextTry])⟩
  | enqueue => exact absurd (h.watched.enqueue hr) (hcall (by simp [hr, Reaper.Pc.Ahead]))
  | asleep =>
    have hcall := hcall (by simp [hr, Reaper.Pc.Ahead])
    have hlisted : s.listed = false := by
      cases hl : s.listed with
      | false => rfl
      | true => exact absurd (h.watched.listed hl).2 hcall
    rw [if_neg (by simp [hlisted])]
    exact ⟨_, rfl, rfl, .inr (by simp [distance, hr])⟩
  | start => exact ⟨_, rfl, rfl, .inr (by simp [distance, hr, hmem])⟩
  | sweep rest =>
    cases rest with
    | nil => exact ⟨_, rfl, rfl, .inr (by simp [distance, hr])⟩
    | cons t rest =>
      have hkeep : (if (s.tasks t).state = .stopping then s.reap t else s).pc = s.pc := by
        split <;> rfl
      refine ⟨_, rfl, hkeep, ?_⟩
      by_cases htc : t = c
      · subst htc
        rw [if_pos ((h.finished.stopping t).mpr hpc)]
        exact .inl fun hin => (List.Nodup.mem_erase_iff h.shape.nodup).mp hin |>.1 rfl
      · have hlen : (if (s.tasks t).state = .stopping then s.reap t else s).runqueue.length ≤
            s.runqueue.length := by
          split
          · exact length_erase_le
          · exact le_rfl
        refine .inr ?_
        simp only [distance, hr, mem_cons, Ne.symm htc, false_or, length_cons]
        split <;> omega

/-- `wait_tid(tid)` by task `p` returns the value `tid` finished with, after enough steps of the
reaper. -/
def Returns (s : State) (p tid : ℕ) : Prop :=
  ∃ n s' v, Run Step s (replicate n .reaper ++ [.resume p]) s' ∧ s'.pc p = .returned tid v ∧
    s'.exited tid = some v

/-- **A wait returns** once the task waited for has stopped. -/
theorem waiting_returns (h : Inv s) {c : ℕ} (hp : s.pc p = .waiting c) (hc : s.pc c = .stopped) :
    Returns s p c := by
  have hgoal : ∃ n u, Run Step s (replicate n .reaper) u ∧
      (Inv u ∧ u.pc p = .waiting c ∧ u.pc c = .stopped) ∧ (u.tasks p).state = .runnable := by
    refine Run.exists_reaching (distance c) ?_ ⟨h, hp, hc⟩
    rintro u ⟨hu, hup, huc⟩ hnot
    have hmem : c ∈ u.runqueue := by
      rcases hu.waits.waiting p c hup with ⟨hst, -⟩ | ⟨-, -, hmem⟩
      · exact absurd hst hnot
      · exact hmem
    obtain ⟨u', hstep, hpc, hnear⟩ := reaper_step hu hmem huc
    have hu' := hu.step (e := .reaper) ⟨trivial, trivial⟩ hstep
    rw [← hpc] at hup huc
    refine ⟨u', hstep, ⟨hu', hup, huc⟩, hnear.imp_left fun hgone => ?_⟩
    -- `c` is off the run queue, so `p` has got its value
    rcases hu'.waits.waiting p c hup with ⟨hst, -⟩ | ⟨-, -, hmem'⟩
    · exact hst
    · exact absurd hmem' hgone
  obtain ⟨n, u, hrun, ⟨hu, hup, huc⟩, hst⟩ := hgoal
  have hstep : Step u (.resume p) ((u.setTask p { u.tasks p with waitRetval := 0 }).goto p
      (.returned c (u.tasks p).waitRetval)) := by
    simp [Step, State.step, hup, hst]
  have hpc : ((u.setTask p { u.tasks p with waitRetval := 0 }).goto p
      (.returned c (u.tasks p).waitRetval)).pc p = .returned c (u.tasks p).waitRetval :=
    update_self ..
  exact ⟨n, _, _, .snoc hrun hstep, hpc,
    (hu.step (e := .resume p) ⟨trivial, trivial⟩ hstep).returned p c _ hpc⟩

/-- What waiting for a task is for: a `wait_tid` that has returned has returned
the value the task finished with, and so will one that waits for a task that has stopped. -/
structure Good (s : State) : Prop where
  returned : ∀ p tid v, s.pc p = .returned tid v → s.exited tid = some v
  waiting : ∀ p tid, s.pc p = .waiting tid → s.pc tid = .stopped → Returns s p tid

theorem step_det {s t t' : State} (h : Step s e t) (h' : Step s e t') : t = t' :=
  some_inj.mp (h.symm.trans h')

/-- **Creating and waiting.**  If no task stops while the reaper is about to sleep, all waits of a
run do what they are for iff none of them looks for a task that has been reaped before, or only
for tasks that finished with `-1`. -/
theorem spawn_wait_iff {s0 s : State} {es : List Event} (h0 : Initial s0)
    (hrun : Run Step s0 es s) (htimely : Guarded Step Timely s0 es) :
    Everywhere Step Good s0 es ↔ Guarded Step Found s0 es := by
  refine Run.everywhere_iff_guarded (fun _ _ _ _ => step_det) h0.inv ?_ ?_ ?_ hrun htimely
  · exact fun u hu => ⟨hu.returned, fun p tid => waiting_returns hu⟩
  · exact fun u e u' hu hok hstep => hu.step hok hstep
  · intro u e u' hu hno hstep hgood
    cases e with
    | wait p =>
      obtain ⟨tid, hpc, hmiss⟩ : ∃ tid, u.pc p = .created tid ∧
          ¬ (tid ∈ u.runqueue ∨ u.exited tid = some (-1)) := by
        simpa [Found] using hno
      cases move_of_step hstep with
      | @notFound _ tid' hst hpc' _ =>
        obtain rfl : tid = tid' := by simpa [hpc] using hpc'
        have hx := hgood.returned p tid (-1) (update_self ..)
        exact hmiss (.inr hx)
      | @sleep _ tid' hst hpc' hmem =>
        obtain rfl : tid = tid' := by simpa [hpc] using hpc'
        exact hmiss (.inl hmem)
    | _ => exact hno trivial

/-! ### The reaper of `Reaper` -/

/-- What is the same in a state of `Reaper` and in one here. -/
structure Shows (r : Reaper.State) (s : State) : Prop where
  reaper : s.reaper = r.pc
  count : s.reaperCall = r.reaperCount
  listed : s.listed = true ↔ r.reaperWaiters ≠ []
  runqueue : s.runqueue = r.runqueue
  stopping : ∀ t, (s.tasks t).state = .stopping ↔ (r.tasks t).state = .stopping
  waiters : ∀ t, (s.tasks t).waiters = r.waiters t

/-- **The same reaper**: what it does there it does here, if the scheduler stops nobody as the
reaper goes to sleep. -/
theorem reaperStep_shows {r r' : Reaper.State} (h : Shows r s) (hr : Reaper.Inv r)
    (hstep : Reaper.ReaperStep r r') (hquiet : r.pc = .enqueue → r'.reaperWaiters ≠ [] ∧
      ∀ t, (r'.tasks t).state = .stopping ↔ (r.tasks t).state = .stopping) :
    ∃ s', Step s .reaper s' ∧ Shows r' s' := by
  obtain ⟨hreaper, hcount, hlisted, hqueue, hstopping, hwaiters⟩ := h
  simp only [Step, State.step, State.reaperStep]
  cases hstep with
  | read hpc =>
    rw [hreaper, hpc]
    exact ⟨_, rfl, by simp [hcount], hcount, hlisted, hqueue, hstopping, hwaiters⟩
  | cas hpc hval =>
    rw [hreaper, hpc]
    exact ⟨_, if_pos (hcount.trans hval), rfl, rfl, hlisted, hqueue, hstopping, hwaiters⟩
  | casFails hpc hval =>
    rw [hreaper, hpc]
    exact ⟨_, if_neg (hcount ▸ hval), rfl, hcount, hlisted, hqueue, hstopping, hwaiters⟩
  | enqueue hpc hsched =>
    obtain ⟨hlist, hstopping'⟩ := hquiet hpc
    have hnil : r.reaperWaiters = [] := hr.list_of_pc (by simp [hpc])
    have hq := Reaper.Quiet.sched (by simp [hnil]) hsched
    obtain ⟨-, hcount', -⟩ := hq.list.resolve_left hlist
    rw [hreaper, hpc]
    exact ⟨_, rfl, rfl, hcount.trans hcount'.symm, ⟨fun _ => hlist, fun _ => rfl⟩,
      hqueue.trans hq.runqueue.symm, fun t => (hstopping t).trans (hstopping' t).symm, hwaiters⟩
  | resume hpc hpicked =>
    have hnil : r.reaperWaiters = [] := by
      refine hr.list.resolve_right fun hone => ?_
      rw [hpicked] at hone
      cases hone.2.2
    rw [hreaper, hpc]
    exact ⟨_, if_neg fun hl => hlisted.mp hl hnil, rfl, hcount, hlisted, hqueue, hstopping,
      hwaiters⟩
  | start hpc =>
    rw [hreaper, hpc]
    exact ⟨_, rfl, by rw [hqueue], hcount, hlisted, hqueue, hstopping, hwaiters⟩
  | pass hpc hstate =>
    rw [hreaper, hpc]
    refine ⟨_, rfl, ?_⟩
    rw [if_neg fun hs => hstate ((hstopping _).mp hs)]
    exact ⟨rfl, hcount, hlisted, hqueue, hstopping, hwaiters⟩
  | @reap t rest hpc hstate _ =>
    obtain ⟨hrq, hcount', hlist, hstop⟩ := Reaper.reap_spec r t
    rw [hreaper, hpc]
    refine ⟨_, rfl, ?_⟩
    rw [if_pos ((hstopping t).mpr hstate)]
    refine ⟨rfl, hcount.trans hcount'.symm, hlisted.trans (by rw [← hlist]; rfl), ?_,
      fun u => ?_, fun u => ?_⟩
    · exact (congrArg (·.erase t) hqueue).trans hrq.symm
    · refine Iff.trans ?_ (hstop u).symm
      simp only [State.reap, wake_apply, hwaiters]
      by_cases hu : u ∈ r.waiters t
      · simp [hu]
      · by_cases hut : u = t
        · subst hut
          simp [hu, hstopping]
        · simp [hu, hut, hstopping]
    · simp only [State.reap, wake_apply, hwaiters]
      by_cases hut : u = t
      · subst hut
        split <;> simp
      · split <;> simp [hut, hwaiters]
  | finish hpc =>
    rw [hreaper, hpc]
    exact ⟨_, rfl, rfl, hcount, hlisted, hqueue, hstopping, hwaiters⟩

instance (s : State) : (e : Event) → Decidable (Found s e)
  | .wait p =>
    match h : s.pc p with
    | .created tid =>
      decidable_of_iff (tid ∈ s.runqueue ∨ s.exited tid = some (-1)) <| by
        simp [Found, h]
    | .unborn | .running | .waiting _ | .returned _ _ | .finishing | .stopped =>
      isTrue (by simp [Found, h])
  | .create _ | .resume _ | .proceed _ | .finish _ _ | .stop _ | .reaper => isTrue trivial

instance (s : State) : (e : Event) → Decidable (Timely s e)
  | .stop _ => inferInstanceAs (Decidable (_ = _))
  | .create _ | .wait _ | .resume _ | .proceed _ | .finish _ _ | .reaper => isTrue trivial

/-- One task is running; tasks 0 and 1 are the idle task and the reaper. -/
def console : State where
  tasks _ := newTask
  pc p := if p ∈ [2] then .running else .unborn
  runqueue := [2]
  lastTid := 3
  reaperCall := 0
  reaper := .pend 0
  listed := false
  exited _ := none

theorem console_initial : Initial console :=
  ⟨by decide, fun _ => rfl, fun _ => rfl, by decide, ⟨rfl, rfl, rfl⟩, fun _ => rfl⟩

/-- The new task finishes while its creator waits for it. -/
def patient : List Event :=
  [.create 2, .wait 2, .finish 3 7, .stop 3] ++ replicate 5 .reaper ++ [.resume 2]

/-- The new task finishes and is reaped before its creator waits for it. -/
def hurried : List Event :=
  [.create 2, .finish 3 7, .stop 3] ++ replicate 5 .reaper ++ [.wait 2]

theorem spawn_wait_iff_patient :
    ∃ s, Run Step console patient s ∧ s.pc 2 = .returned 3 7 ∧
      Everywhere Step Good console patient := by
  have hsome : (patient.foldlM State.step console).map (fun s => s.pc 2) =
      some (.returned 3 7) := by decide
  obtain ⟨s, hs, hpc⟩ := map_eq_some_iff.mp hsome
  have hrun : Run Step console patient s := run_iff_foldlM.mpr hs
  have hguard : Guarded Step Found console patient := guarded_of_take (by decide)
  have htimely : Guarded Step Timely console patient := guarded_of_take (by decide)
  exact ⟨s, hrun, hpc, (spawn_wait_iff console_initial hrun htimely).mpr hguard⟩

/-- **A wait that comes too late** returns `-1` for a task that finished with 7. -/
theorem wait_after_reaping :
    Initial console ∧ ∃ s, Run Step console hurried s ∧ s.pc 2 = .returned 3 (-1) ∧
      s.exited 3 = some 7 ∧ ¬ Good s := by
  have hsome : (hurried.foldlM State.step console).map (fun s => (s.pc 2, s.exited 3)) =
      some (.returned 3 (-1), some 7) := by decide
  obtain ⟨s, hs, hpc⟩ := map_eq_some_iff.mp hsome
  rw [Prod.mk.injEq] at hpc
  refine ⟨console_initial, s, run_iff_foldlM.mpr hs, hpc.1, hpc.2, fun hgood => ?_⟩
  have hx := hgood.returned 2 3 (-1) hpc.1
  rw [hpc.2] at hx
  exact absurd hx (by decide)

end Tasks
