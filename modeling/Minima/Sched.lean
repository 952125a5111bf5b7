/-
The scheduler (`find_next_runnable` and `sched` of `sched.c`, `do_timer` of
`timer.c`).

Each timer tick takes one tick from the current task; when it has none left the
scheduler looks for the runnable task with the most ticks, and once all runnable
tasks are down to zero it gives each of them its priority back.

* `State.findNextRunnable`, `State.sched`, `State.doTimer` — the functions of the
  source; the endless loop of `find_next_runnable` runs at most `fuel` rounds;
* `find_next_runnable_picks` — which task is chosen, and what becomes of the others;
* `Mid` — the states inside an epoch: some tasks are still to run, with all of
  their ticks, and the others have none left;
* `epoch` — from such a state on, each task that is still to run has one block of
  ticks, and then every task is to run again;
* `scheduling_share` — over any number of epochs each task has one block of
  `priority` ticks in each.
-/
import Mathlib.Algebra.BigOperators.Group.List.Basic
import Mathlib.Algebra.Group.Int.Defs
import Mathlib.Algebra.Ring.Nat
import Mathlib.Data.List.Flatten

namespace Sched

open List Option

/-! ### The functions of the source -/

/-- `enum task_state` -/
inductive TaskState
  | dead
  | runnable
  | wait
  | waitTask
  | waitSemaphore
  | sleeping
  | stopping
  deriving DecidableEq, Repr

/-- What the scheduler uses of a `struct task`. -/
structure Task where
  kEsp : ℕ
  redzoneTop : ℕ
  sleepTill : ℕ
  state : TaskState
  ticks : ℤ
  priority : ℤ
  deriving DecidableEq, Repr

/-- The value of an `int32_t`. -/
def int32 (x : ℤ) : ℤ := Int.bmod x (2 ^ 32)

theorem int32_eq {x : ℤ} (hlo : -2 ^ 31 ≤ x) (hhi : x < 2 ^ 31) : int32 x = x := by
  rw [int32, Int.bmod_def]
  omega

/-- The tasks by their ids, the run queue, the semaphore `reaper_call`, and the
clock. -/
structure State where
  tasks : ℕ → Task
  runqueue : List ℕ
  current : ℕ
  idleTask : ℕ
  reaperCount : ℕ
  reaperWaiters : List ℕ
  systemUptimeMs : ℕ
  irq0Fractions : ℕ
  irq0FractionsPrev : ℕ

namespace State

variable (s : State)

def setTask (t : ℕ) (x : Task) : State := { s with tasks := Function.update s.tasks t x }

/-- `t->state = x` -/
def setState (t : ℕ) (x : TaskState) : State := s.setTask t { s.tasks t with state := x }

/-- `t->ticks = x` -/
def setTicks (t : ℕ) (x : ℤ) : State := s.setTask t { s.tasks t with ticks := x }

/-- `sem_post(&reaper_call)` -/
def postReaper : State :=
  let s := { s with reaperCount := s.reaperCount + 1 }
  match s.reaperWaiters with
  | [] => s
  | waiter :: ws => { s with reaperWaiters := ws }.setState waiter .runnable

/-- `update_task_state` -/
def updateTaskState (t ms : ℕ) : State :=
  let s := if (s.tasks t).state = .runnable ∧ (s.tasks t).kEsp < (s.tasks t).redzoneTop then
    (s.setState t .stopping).postReaper else s
  if (s.tasks t).state = .sleeping ∧ (s.tasks t).sleepTill ≤ ms then s.setState t .runnable else s

/-- The first loop of `find_next_runnable` over the rest of the run queue, with
`next` and `max_ticks` so far. -/
def scan (ms : ℕ) : List ℕ → Option ℕ → ℤ → State → Option ℕ × ℤ × State
  | [], next, maxTicks, s => (next, maxTicks, s)
  | t :: ts, next, maxTicks, s =>
    let s := s.updateTaskState t ms
    if (s.tasks t).state = .runnable ∧ maxTicks < (s.tasks t).ticks then
      scan ms ts (some t) (s.tasks t).ticks s
    else scan ms ts next maxTicks s

/-- The body of the second loop of `find_next_runnable`. -/
def recharge (t : ℕ) : State :=
  if (s.tasks t).state = .runnable then
    s.setTicks t (int32 ((s.tasks t).ticks / 2 + (s.tasks t).priority))
  else s

/-- `find_next_runnable`, `fuel` rounds of its loop at most. -/
def findNextRunnable : ℕ → State → Option (Option ℕ × State)
  | 0, _ => none
  | fuel + 1, s =>
    let (next, maxTicks, s) := s.scan s.systemUptimeMs s.runqueue none (-1)
    if maxTicks ≠ 0 then some (next, s)
    else findNextRunnable fuel (s.runqueue.foldl recharge s)

/-- `switch_to(prev, next)` in the middle of `sched`: the stack pointer of the
task that leaves is saved. -/
def switchTo (esp next : ℕ) : State :=
  { s.setTask s.current { s.tasks s.current with kEsp := esp } with current := next }

/-- `sched`, up to the switch; `esp` is where the stack of the current task is
then. -/
def sched (fuel esp : ℕ) : Option State := do
  let (next, s) ← s.findNextRunnable fuel
  let next := next.getD s.idleTask
  return if next = s.current then s else s.switchTo esp next

/-- `irq0_fractions_per_tick` -/
def irq0FractionsPerTick : ℕ := 654025

/-- The clock in `do_timer`. -/
def advanceClock : State :=
  let ms := (s.systemUptimeMs + 1) % 2 ^ 32
  let fractions := (irq0FractionsPerTick + s.irq0Fractions) % 2 ^ 32
  { s with
    systemUptimeMs := if fractions < s.irq0FractionsPrev then (ms + 1) % 2 ^ 32 else ms
    irq0Fractions := fractions
    irq0FractionsPrev := fractions }

/-- `do_timer` -/
def doTimer (fuel esp : ℕ) : Option State :=
  let s := s.advanceClock
  let ticks := int32 ((s.tasks s.current).ticks - 1)
  if 0 < ticks then some (s.setTicks s.current ticks)
  else (s.setTicks s.current 0).sched fuel esp

end State

/-- `n` timer ticks, the first of them being the `k`-th, and the tasks that were
current when they came.  The stack of task `t` is at `esp i t` in the `i`-th
tick. -/
def timerTicks (fuel : ℕ) (esp : ℕ → ℕ → ℕ) : ℕ → ℕ → State → Option (List ℕ × State)
  | _, 0, s => some ([], s)
  | k, n + 1, s => do
    let s' ← s.doTimer fuel (esp k s.current)
    let (l, s'') ← timerTicks fuel esp (k + 1) n s'
    return (s.current :: l, s'')

/-! ### The choice of a task -/

/-- `update_task_state`, of a task that has not run into its red zone -/
def woken (ms : ℕ) (x : Task) : Task :=
  if x.state = .sleeping ∧ x.sleepTill ≤ ms then { x with state := .runnable } else x

/-- The second loop of `find_next_runnable`, at one task. -/
def recharged (x : Task) : Task :=
  if x.state = .runnable then { x with ticks := int32 (x.ticks / 2 + x.priority) } else x

variable {s s' : State} {t u : ℕ} {l : List ℕ} {f : Task → Task}

namespace State

/-- `f` done to the tasks of a list. -/
def mapTasks (f : Task → Task) (l : List ℕ) (s : State) : State :=
  { s with tasks := fun t => if t ∈ l then f (s.tasks t) else s.tasks t }

theorem mapTasks_tasks (ht : t ∈ l) : (s.mapTasks f l).tasks t = f (s.tasks t) := if_pos ht

theorem mapTasks_congr {g : Task → Task} (h : ∀ t ∈ l, f (s.tasks t) = g (s.tasks t)) :
    s.mapTasks f l = s.mapTasks g l := by
  have htasks : (s.mapTasks f l).tasks = (s.mapTasks g l).tasks := by
    funext t
    exact ite_congr rfl (h t) fun _ => rfl
  exact congrArg (fun tasks => { s with tasks }) htasks

theorem mapTasks_eq_self (h : ∀ t ∈ l, f (s.tasks t) = s.tasks t) : s.mapTasks f l = s := by
  have htasks : (s.mapTasks id l).tasks = s.tasks := funext fun t => ite_self _
  exact (mapTasks_congr h).trans (congrArg (fun tasks => { s with tasks }) htasks)

theorem mapTasks_cons (htl : t ∉ l) :
    (s.setTask t (f (s.tasks t))).mapTasks f l = s.mapTasks f (t :: l) := by
  have htasks : ((s.setTask t (f (s.tasks t))).mapTasks f l).tasks =
      (s.mapTasks f (t :: l)).tasks := by
    funext u
    by_cases hut : u = t
    · subst hut
      simp [mapTasks, setTask, htl]
    · simp [mapTasks, setTask, hut]
  exact congrArg (fun tasks => { s with tasks }) htasks

theorem foldl_mapTasks {step : State → ℕ → State}
    (hstep : ∀ s t, step s t = s.setTask t (f (s.tasks t))) (hnd : l.Nodup) :
    l.foldl step s = s.mapTasks f l := by
  induction l generalizing s with
  | nil => exact (mapTasks_eq_self (by simp)).symm
  | cons t l ih =>
    obtain ⟨htl, hnd⟩ := nodup_cons.mp hnd
    rw [foldl_cons, hstep, ih hnd, mapTasks_cons htl]

theorem setTask_self : s.setTask t (s.tasks t) = s :=
  congrArg (fun tasks => { s with tasks }) (Function.update_eq_self t s.tasks)

theorem recharge_eq (s : State) (t : ℕ) :
    s.recharge t = s.setTask t (recharged (s.tasks t)) := by
  by_cases hrun : (s.tasks t).state = .runnable
  · rw [recharge, if_pos hrun, recharged, if_pos hrun, setTicks]
  · rw [recharge, if_neg hrun, recharged, if_neg hrun, setTask_self]

theorem updateTaskState_eq (hstack : (s.tasks t).redzoneTop ≤ (s.tasks t).kEsp) (ms : ℕ) :
    s.updateTaskState t ms = s.setTask t (woken ms (s.tasks t)) := by
  simp only [updateTaskState, not_lt.mpr hstack, and_false, if_false]
  by_cases hwake : (s.tasks t).state = .sleeping ∧ (s.tasks t).sleepTill ≤ ms
  · rw [if_pos hwake, woken, if_pos hwake, setState]
  · rw [if_neg hwake, woken, if_neg hwake, setTask_self]

/-- The maximum search of the first loop, over tasks that do not change. -/
def best (s : State) : List ℕ → Option ℕ → ℤ → Option ℕ × ℤ
  | [], next, maxTicks => (next, maxTicks)
  | t :: ts, next, maxTicks =>
    if (s.tasks t).state = .runnable ∧ maxTicks < (s.tasks t).ticks then
      best s ts (some t) (s.tasks t).ticks
    else best s ts next maxTicks

/-- **The first loop** wakes the tasks whose time has come, and picks among the tasks as
they are then. -/
theorem scan_eq (ms : ℕ) (hnd : l.Nodup)
    (hstack : ∀ t ∈ l, (s.tasks t).redzoneTop ≤ (s.tasks t).kEsp) (next : Option ℕ) (m : ℤ) :
    s.scan ms l next m = (((s.mapTasks (woken ms) l).best l next m).1,
      ((s.mapTasks (woken ms) l).best l next m).2, s.mapTasks (woken ms) l) := by
  induction l generalizing s next m with
  | nil => rw [mapTasks_eq_self (by simp), scan, best]
  | cons t l ih =>
    obtain ⟨htl, hnd⟩ := nodup_cons.mp hnd
    have hstack' : ∀ u ∈ l, ((s.setTask t (woken ms (s.tasks t))).tasks u).redzoneTop ≤
        ((s.setTask t (woken ms (s.tasks t))).tasks u).kEsp := by
      intro u hu
      have hut : u ≠ t := fun heq => htl (heq ▸ hu)
      simpa [setTask, hut] using hstack u (mem_cons_of_mem t hu)
    have hself : (s.setTask t (woken ms (s.tasks t))).tasks t =
        (s.mapTasks (woken ms) (t :: l)).tasks t := by
      simp [setTask, mapTasks]
    rw [scan, updateTaskState_eq (hstack t (mem_cons_self ..)), best]
    simp only [hself]
    rw [← mapTasks_cons htl]
    split
    · exact ih hnd hstack' _ _
    · exact ih hnd hstack' _ _

/-- `t` is the first of the runnable tasks of the list that have the most ticks. -/
structure Picked (s : State) (l : List ℕ) (t : ℕ) : Prop where
  runnable : (s.tasks t).state = .runnable
  max : ∀ u ∈ l, (s.tasks u).state = .runnable → (s.tasks u).ticks ≤ (s.tasks t).ticks
  first : ∃ pre post, l = pre ++ t :: post ∧
    ∀ u ∈ pre, (s.tasks u).state = .runnable → (s.tasks u).ticks < (s.tasks t).ticks

theorem Picked.mem (h : s.Picked l t) : t ∈ l := by
  obtain ⟨pre, post, rfl, -⟩ := h.first
  simp

theorem Picked.cons (h : s.Picked l u)
    (ht : (s.tasks t).state = .runnable → (s.tasks t).ticks < (s.tasks u).ticks) :
    s.Picked (t :: l) u := by
  refine ⟨h.runnable, fun v hv hrun => ?_, ?_⟩
  · rcases mem_cons.mp hv with rfl | hv
    · exact Int.le_of_lt (ht hrun)
    · exact h.max v hv hrun
  · obtain ⟨pre, post, rfl, hfirst⟩ := h.first
    refine ⟨t :: pre, post, rfl, fun v hv hrun => ?_⟩
    rcases mem_cons.mp hv with rfl | hv
    · exact ht hrun
    · exact hfirst v hv hrun

theorem best_spec (s : State) (l : List ℕ) (next : Option ℕ) (m : ℤ) :
    (s.best l next m = (next, m) ∧
        ∀ u ∈ l, (s.tasks u).state = .runnable → (s.tasks u).ticks ≤ m) ∨
      ∃ t, s.best l next m = (some t, (s.tasks t).ticks) ∧ m < (s.tasks t).ticks ∧
        s.Picked l t := by
  induction l generalizing next m with
  | nil => exact .inl ⟨rfl, by simp⟩
  | cons t l ih =>
    by_cases hmore : (s.tasks t).state = .runnable ∧ m < (s.tasks t).ticks
    · -- `t` is the best so far; the rest of the loop starts from its ticks
      rw [best, if_pos hmore]
      right
      rcases ih (some t) (s.tasks t).ticks with ⟨heq, hall⟩ | ⟨u, heq, hlt, hpick⟩
      · refine ⟨t, heq, hmore.2, hmore.1, fun v hv hrun => ?_, [], l, rfl, by simp⟩
        rcases mem_cons.mp hv with rfl | hv
        · exact Int.le_refl _
        · exact hall v hv hrun
      · exact ⟨u, heq, Int.lt_trans hmore.2 hlt, hpick.cons fun _ => hlt⟩
    · rw [best, if_neg hmore]
      have hle : (s.tasks t).state = .runnable → (s.tasks t).ticks ≤ m := fun hrun =>
        Int.not_lt.mp fun hlt => hmore ⟨hrun, hlt⟩
      rcases ih next m with ⟨heq, hall⟩ | ⟨u, heq, hlt, hpick⟩
      · refine .inl ⟨heq, fun v hv hrun => ?_⟩
        rcases mem_cons.mp hv with rfl | hv
        · exact hle hrun
        · exact hall v hv hrun
      · exact .inr ⟨u, heq, hlt, hpick.cons fun hrun => Int.lt_of_le_of_lt (hle hrun) hlt⟩

theorem best_congr (next : Option ℕ) (m : ℤ)
    (h : ∀ t ∈ l, (s'.tasks t).state = (s.tasks t).state ∧ (s'.tasks t).ticks = (s.tasks t).ticks) :
    s'.best l next m = s.best l next m := by
  induction l generalizing next m with
  | nil => rfl
  | cons t l ih =>
    obtain ⟨hstate, hticks⟩ := h t (mem_cons_self ..)
    have ih := fun next m => ih next m fun u hu => h u (mem_cons_of_mem t hu)
    rw [best, best, hstate, hticks, ih, ih]

/-- The tasks of the run queue whose time has come are woken. -/
def awake (s : State) : State := s.mapTasks (woken s.systemUptimeMs) s.runqueue

theorem findNextRunnable_succ (hnd : s.runqueue.Nodup)
    (hstack : ∀ t ∈ s.runqueue, (s.tasks t).redzoneTop ≤ (s.tasks t).kEsp) (fuel : ℕ) :
    s.findNextRunnable (fuel + 1) =
      if (s.awake.best s.runqueue none (-1)).2 ≠ 0 then
        some ((s.awake.best s.runqueue none (-1)).1, s.awake)
      else (s.awake.mapTasks recharged s.runqueue).findNextRunnable fuel := by
  rw [findNextRunnable, scan_eq _ hnd hstack, ← foldl_mapTasks recharge_eq hnd]
  rfl

end State

theorem woken_same (ms : ℕ) (x : Task) : (woken ms x).ticks = x.ticks ∧
    (woken ms x).priority = x.priority ∧ (woken ms x).redzoneTop = x.redzoneTop ∧
    (woken ms x).kEsp = x.kEsp := by
  rw [woken]
  split
  · exact ⟨rfl, rfl, rfl, rfl⟩
  · exact ⟨rfl, rfl, rfl, rfl⟩

theorem woken_recharged (ms : ℕ) (x : Task) :
    woken ms (recharged (woken ms x)) = recharged (woken ms x) := by
  by_cases hwake : x.state = .sleeping ∧ x.sleepTill ≤ ms
  · simp [woken, recharged, hwake]
  · by_cases hrun : x.state = .runnable
    · simp [woken, recharged, hrun]
    · simp [woken, recharged, hwake, hrun]

theorem recharged_same (x : Task) : (recharged x).redzoneTop = x.redzoneTop ∧
    (recharged x).kEsp = x.kEsp := by
  rw [recharged]
  split
  · exact ⟨rfl, rfl⟩
  · exact ⟨rfl, rfl⟩

/-- A runnable task with as many ticks as its priority. -/
def toppedUp (x : Task) : Task :=
  if x.state = .runnable then { x with ticks := x.priority } else x

/-- There are runnable tasks, and they have no ticks left. -/
def State.Spent (s : State) : Prop :=
  (∃ t ∈ s.runqueue, (s.tasks t).state = .runnable) ∧
    ∀ t ∈ s.runqueue, (s.tasks t).state = .runnable → (s.tasks t).ticks = 0

/-- **The choice of a task**: two rounds of the loop are enough.  The tasks whose time has come are
woken; the next one is the first runnable one with the most ticks, after the runnable tasks have
got their priority as ticks if none of them had any. -/
theorem find_next_runnable_picks {fuel : ℕ} (hnd : s.runqueue.Nodup)
    (hticks : ∀ t ∈ s.runqueue, 0 ≤ (s.tasks t).ticks)
    (hprio : ∀ t ∈ s.runqueue, 1 ≤ (s.tasks t).priority ∧ (s.tasks t).priority < 2 ^ 31)
    (hstack : ∀ t ∈ s.runqueue, (s.tasks t).redzoneTop ≤ (s.tasks t).kEsp) (hfuel : 2 ≤ fuel) :
    ∃ next s', s.findNextRunnable fuel = some (next, s') ∧
      (next = none ↔ ∀ t ∈ s.runqueue, (s.awake.tasks t).state ≠ .runnable) ∧
      (s.awake.Spent → s' = s.awake.mapTasks toppedUp s.runqueue) ∧
      (¬ s.awake.Spent → s' = s.awake) ∧ ∀ t ∈ next, s'.Picked s.runqueue t := by
  obtain ⟨fuel, rfl⟩ : ∃ n, fuel = n + 2 := ⟨fuel - 2, by omega⟩
  have hawake : ∀ t ∈ s.runqueue, s.awake.tasks t = woken s.systemUptimeMs (s.tasks t) :=
    fun t ht => State.mapTasks_tasks ht
  have hpos : ∀ t ∈ s.runqueue, 0 ≤ (s.awake.tasks t).ticks := fun t ht => by
    rw [hawake t ht, (woken_same _ _).1]
    exact hticks t ht
  rw [State.findNextRunnable_succ hnd hstack]
  rcases s.awake.best_spec s.runqueue none (-1) with ⟨heq, hall⟩ | ⟨t, heq, -, hpick⟩
  · -- a runnable task would have been picked
    have hnone : ∀ t ∈ s.runqueue, (s.awake.tasks t).state ≠ .runnable := fun t ht hrun => by
      have hle := hall t ht hrun
      have hge := hpos t ht
      omega
    refine ⟨none, s.awake, by rw [heq]; rfl, iff_of_true rfl hnone, ?_, fun _ => rfl, by simp⟩
    rintro ⟨⟨t, ht, hrun⟩, -⟩
    exact absurd hrun (hnone t ht)
  have ht := hpick.mem
  have hrun := hpick.runnable
  have hsome : ∀ u, (some u : Option ℕ) = none ↔
      ∀ t ∈ s.runqueue, (s.awake.tasks t).state ≠ .runnable := fun u =>
    iff_of_false (by simp) fun hnone => hnone t ht hrun
  by_cases hzero : (s.awake.tasks t).ticks = 0
  swap
  · refine ⟨some t, s.awake, by rw [heq, if_pos hzero], hsome t, ?_, fun _ => rfl, ?_⟩
    · exact fun hspent => absurd (hspent.2 t ht hrun) hzero
    · intro u hu
      exact mem_some_iff.mp hu ▸ hpick
  -- all runnable tasks are spent, and get their priority
  have hspent : s.awake.Spent := by
    refine ⟨⟨t, ht, hrun⟩, fun u hu hurun => ?_⟩
    have hle := hpick.max u hu hurun
    have hge := hpos u hu
    omega
  set s2 := s.awake.mapTasks recharged s.runqueue with hs2
  have htasks : ∀ u ∈ s.runqueue,
      s2.tasks u = recharged (woken s.systemUptimeMs (s.tasks u)) := fun u hu => by
    rw [hs2, State.mapTasks_tasks hu, hawake u hu]
  have htop : s2 = s.awake.mapTasks toppedUp s.runqueue := by
    refine State.mapTasks_congr fun u hu => ?_
    obtain ⟨hlo, hhi⟩ := hprio u hu
    by_cases hurun : (s.awake.tasks u).state = .runnable
    · have hpri : (s.awake.tasks u).priority = (s.tasks u).priority := by
        rw [hawake u hu, (woken_same _ _).2.1]
      rw [recharged, toppedUp, if_pos hurun, if_pos hurun, hspent.2 u hu hurun, hpri,
        int32_eq (by omega) (by omega)]
      simp
    · rw [recharged, toppedUp, if_neg hurun, if_neg hurun]
  -- the second round finds the tasks as the recharge has left them
  have hwake2 : s2.awake = s2 := State.mapTasks_eq_self fun u hu => by
    rw [htasks u hu]
    exact woken_recharged _ _
  have hstack2 : ∀ u ∈ s2.runqueue, (s2.tasks u).redzoneTop ≤ (s2.tasks u).kEsp := by
    intro u hu
    rw [htasks u hu, (recharged_same _).1, (recharged_same _).2, (woken_same _ _).2.2.1,
      (woken_same _ _).2.2.2]
    exact hstack u hu
  have hround := State.findNextRunnable_succ (s := s2) hnd hstack2 fuel
  rw [hwake2] at hround
  rw [heq, if_neg (not_not.mpr hzero), hround]
  have htrun2 : (s2.tasks t).state = .runnable ∧ 1 ≤ (s2.tasks t).ticks := by
    rw [htop, State.mapTasks_tasks ht, toppedUp, if_pos hrun]
    refine ⟨hrun, ?_⟩
    rw [hawake t ht, (woken_same _ _).2.1]
    exact (hprio t ht).1
  rcases s2.best_spec s.runqueue none (-1) with ⟨heq2, hall⟩ | ⟨u, heq2, -, hpick2⟩
  · have hle := hall t ht htrun2.1
    omega
  · have hle := hpick2.max t ht htrun2.1
    refine ⟨some u, s2, ?_, hsome u, fun _ => htop, fun hno => absurd hspent hno, ?_⟩
    · rw [show s2.runqueue = s.runqueue from rfl, heq2, if_pos]
      omega
    · intro v hv
      exact mem_some_iff.mp hv ▸ hpick2

/-- Two tasks, one of them with twice the priority of the other. -/
def twoTasks : State where
  tasks t :=
    ⟨0xD0042F80, 0xD0041000, 0, .runnable, if t = 3 then 10 else 5, if t = 3 then 10 else 5⟩
  runqueue := [2, 3]
  current := 3
  idleTask := 0
  reaperCount := 0
  reaperWaiters := []
  systemUptimeMs := 0
  irq0Fractions := 0
  irq0FractionsPrev := 0

theorem find_next_runnable_picks_twoTasks : ∃ next s',
    twoTasks.findNextRunnable 2 = some (next, s') ∧
      (next = none ↔ ∀ t ∈ twoTasks.runqueue, (twoTasks.awake.tasks t).state ≠ .runnable) := by
  obtain ⟨next, s', hcall, hnone, -⟩ := find_next_runnable_picks (s := twoTasks) (by decide)
    (by decide) (by decide) (by decide) (Nat.le_refl 2)
  exact ⟨next, s', hcall, hnone⟩

/-! ### Scheduling tasks that stay runnable -/

/-- A runnable task with room left on its stack, which ends at `redzone`. -/
structure Task.Ready (prio : ℤ) (redzone : ℕ) (x : Task) : Prop where
  state : x.state = .runnable
  priority : x.priority = prio
  redzoneTop : x.redzoneTop = redzone
  stack : redzone ≤ x.kEsp

/-- The tasks of the run queue `rq` are ready, with the priorities `prio`. -/
structure Ready (rq : List ℕ) (prio : ℕ → ℤ) (redzone : ℕ → ℕ) (s : State) : Prop where
  runqueue : s.runqueue = rq
  task : ∀ t ∈ rq, (s.tasks t).Ready (prio t) (redzone t)

variable {rq : List ℕ} {prio : ℕ → ℤ} {redzone : ℕ → ℕ}

namespace Ready

section

variable (h : Ready rq prio redzone s)
include h

theorem setTask {x : Task}
    (hx : t ∈ rq → x.Ready (prio t) (redzone t)) : Ready rq prio redzone (s.setTask t x) := by
  refine ⟨h.runqueue, fun u hu => ?_⟩
  by_cases hut : u = t
  · subst hut
    simpa [State.setTask] using hx hu
  · simpa [State.setTask, hut] using h.task u hu

theorem setTicks (t : ℕ) (x : ℤ) :
    Ready rq prio redzone (s.setTicks t x) :=
  h.setTask fun ht =>
    ⟨(h.task t ht).state, (h.task t ht).priority, (h.task t ht).redzoneTop, (h.task t ht).stack⟩

theorem advanceClock : Ready rq prio redzone s.advanceClock :=
  ⟨h.runqueue, h.task⟩

theorem switchTo {esp : ℕ} (hesp : redzone s.current ≤ esp)
    (next : ℕ) : Ready rq prio redzone (s.switchTo esp next) := by
  have hleave : Ready rq prio redzone
      (s.setTask s.current { s.tasks s.current with kEsp := esp }) :=
    h.setTask fun ht =>
      ⟨(h.task _ ht).state, (h.task _ ht).priority, (h.task _ ht).redzoneTop, hesp⟩
  exact ⟨hleave.runqueue, hleave.task⟩

theorem awake : s.awake = s := by
  refine State.mapTasks_eq_self fun t ht => ?_
  rw [woken, if_neg]
  rintro ⟨hsleep, -⟩
  rw [(h.task t (h.runqueue ▸ ht)).state] at hsleep
  cases hsleep

theorem findNextRunnable_succ (hnd : rq.Nodup) (fuel : ℕ) :
    s.findNextRunnable (fuel + 1) =
      if (s.best rq none (-1)).2 ≠ 0 then some ((s.best rq none (-1)).1, s)
      else (s.mapTasks recharged rq).findNextRunnable fuel := by
  have hrq := h.runqueue
  rw [State.findNextRunnable_succ (hrq ▸ hnd) fun t ht => ?_, h.awake, hrq]
  rw [(h.task t (hrq ▸ ht)).redzoneTop]
  exact (h.task t (hrq ▸ ht)).stack

end

end Ready

/-! ### Inside an epoch -/

/-- The tasks in `F` are still to run and have all of their ticks; the others have
none left. -/
structure Charged (rq : List ℕ) (prio : ℕ → ℤ) (F : List ℕ) (s : State) : Prop where
  sub : ∀ t ∈ F, t ∈ rq
  full : ∀ t ∈ F, (s.tasks t).ticks = prio t
  spent : ∀ t ∈ rq, t ∉ F → (s.tasks t).ticks = 0

/-- The tasks in `F` are still to run, and one of them is about to start. -/
structure Mid (rq : List ℕ) (prio : ℕ → ℤ) (redzone : ℕ → ℕ) (F : List ℕ) (s : State) : Prop
    extends Ready rq prio redzone s, Charged rq prio F s where
  current : s.current ∈ F
  pick : ∀ fuel, 1 ≤ fuel → s.findNextRunnable fuel = some (some s.current, s)

/-- What a priority may be. -/
def Priorities (rq : List ℕ) (prio : ℕ → ℤ) : Prop := ∀ t ∈ rq, 1 ≤ prio t ∧ prio t < 2 ^ 31

variable {F : List ℕ} {fuel k n esp : ℕ}

/-- **The pick**: while some task is still to run, `find_next_runnable` finds one of
those in its first round; which one depends on the ticks only. -/
theorem findNextRunnable_of_charged (h : Ready rq prio redzone s) (hp : Priorities rq prio)
    (hnd : rq.Nodup) (hc : Charged rq prio F s) (hF : F ≠ []) :
    ∃ t ∈ F, ∀ s', Ready rq prio redzone s' →
      (∀ u ∈ rq, (s'.tasks u).ticks = (s.tasks u).ticks) →
      ∀ fuel, 1 ≤ fuel → s'.findNextRunnable fuel = some (some t, s') := by
  obtain ⟨u, hu⟩ := exists_mem_of_ne_nil F hF
  have hone := hp u (hc.sub u hu)
  rcases s.best_spec rq none (-1) with ⟨-, hall⟩ | ⟨t, heq, -, hpick⟩
  · have hle := hall u (hc.sub u hu) (h.task u (hc.sub u hu)).state
    rw [hc.full u hu] at hle
    omega
  -- some task has ticks left, so the maximum is positive
  have hle := hpick.max u (hc.sub u hu) (h.task u (hc.sub u hu)).state
  rw [hc.full u hu] at hle
  refine ⟨t, ?_, fun s' h' hticks fuel hfuel => ?_⟩
  · by_contra htF
    rw [hc.spent t hpick.mem htF] at hle
    omega
  · obtain ⟨fuel, rfl⟩ : ∃ n, fuel = n + 1 := ⟨fuel - 1, by omega⟩
    have hsame : s'.best rq none (-1) = s.best rq none (-1) := State.best_congr _ _ fun v hv =>
      ⟨(h'.task v hv).state.trans (h.task v hv).state.symm, hticks v hv⟩
    rw [h'.findNextRunnable_succ hnd, hsame, heq, if_pos]
    omega

/-- **The recharge**: when all tasks are down to zero, `find_next_runnable` gives
each of them its priority and goes on to its second round. -/
theorem findNextRunnable_of_spent (h : Ready rq prio redzone s) (hp : Priorities rq prio)
    (hnd : rq.Nodup) (hc : Charged rq prio [] s) (hrq : rq ≠ []) (fuel : ℕ) :
    ∃ s', s.findNextRunnable (fuel + 1) = s'.findNextRunnable fuel ∧ Ready rq prio redzone s' ∧
      s'.current = s.current ∧ Charged rq prio rq s' := by
  have hspent : ∀ t ∈ rq, (s.tasks t).ticks = 0 := fun t ht => hc.spent t ht (not_mem_nil)
  have htasks : ∀ t ∈ rq, (s.mapTasks recharged rq).tasks t =
      { s.tasks t with ticks := int32 ((s.tasks t).ticks / 2 + (s.tasks t).priority) } :=
    fun t ht => by rw [State.mapTasks_tasks ht, recharged, if_pos (h.task t ht).state]
  obtain ⟨u, hu⟩ := exists_mem_of_ne_nil rq hrq
  refine ⟨s.mapTasks recharged rq, ?_, ⟨h.runqueue, fun t ht => ?_⟩, rfl, fun _ ht => ht,
    fun t ht => ?_, fun t ht htn => absurd ht htn⟩
  · rw [h.findNextRunnable_succ hnd]
    rcases s.best_spec rq none (-1) with ⟨-, hall⟩ | ⟨t, heq, -, hpick⟩
    · have hle := hall u hu (h.task u hu).state
      rw [hspent u hu] at hle
      omega
    · rw [heq, if_neg (not_not.mpr (hspent t hpick.mem))]
  · rw [htasks t ht]
    exact ⟨(h.task t ht).state, (h.task t ht).priority, (h.task t ht).redzoneTop,
      (h.task t ht).stack⟩
  · obtain ⟨hlo, hhi⟩ := hp t ht
    rw [htasks t ht]
    simp only [hspent t ht, (h.task t ht).priority]
    rw [int32_eq (by omega) (by omega)]
    omega

/-- The tasks still to run after the current one: all of them again, if it was the
last one. -/
def upNext (rq F : List ℕ) : List ℕ := if F = [] then rq else F

theorem sched_mid (h : Ready rq prio redzone s) (hp : Priorities rq prio) (hnd : rq.Nodup)
    (hrq : rq ≠ []) (hc : Charged rq prio F s) (hesp : redzone s.current ≤ esp)
    (hfuel : 2 ≤ fuel) :
    ∃ s', s.sched fuel esp = some s' ∧ Mid rq prio redzone (upNext rq F) s' := by
  -- the state in which the last round of `find_next_runnable` scans the queue
  obtain ⟨s1, n, hn, hfind, hready, hcur, hcharged⟩ : ∃ s' n, 1 ≤ n ∧
      s.findNextRunnable fuel = s'.findNextRunnable n ∧ Ready rq prio redzone s' ∧
        s'.current = s.current ∧ Charged rq prio (upNext rq F) s' := by
    by_cases hF : F = []
    · subst hF
      obtain ⟨n, rfl⟩ : ∃ n, fuel = n + 1 := ⟨fuel - 1, by omega⟩
      obtain ⟨s', hs'⟩ := findNextRunnable_of_spent h hp hnd hc hrq n
      exact ⟨s', n, by omega, by simpa [upNext] using hs'⟩
    · exact ⟨s, fuel, by omega, rfl, h, rfl, by simpa [upNext, hF] using hc⟩
  have hne : upNext rq F ≠ [] := by
    rw [upNext]
    split
    · exact hrq
    · assumption
  obtain ⟨t, ht, hpick⟩ := findNextRunnable_of_charged hready hp hnd hcharged hne
  rw [State.sched, hfind, hpick s1 hready (fun _ _ => rfl) n hn]
  by_cases hsame : t = s1.current
  · refine ⟨s1, by simp [hsame], ⟨hready, hcharged, hsame ▸ ht, fun fuel hfuel => ?_⟩⟩
    rw [hpick s1 hready (fun _ _ => rfl) fuel hfuel, hsame]
  · -- the switch changes the stack pointer of one task and no ticks
    have hticks : ∀ u, ((s1.switchTo esp t).tasks u).ticks = (s1.tasks u).ticks := by
      intro u
      by_cases hu : u = s1.current
      · subst hu
        simp [State.switchTo, State.setTask]
      · simp [State.switchTo, State.setTask, hu]
    have hready' : Ready rq prio redzone (s1.switchTo esp t) := hready.switchTo (hcur ▸ hesp) t
    refine ⟨s1.switchTo esp t, by simp [hsame], ⟨hready', ⟨hcharged.sub, ?_, ?_⟩, ht, ?_⟩⟩
    · exact fun u hu => (hticks u).trans (hcharged.full u hu)
    · exact fun u hu huF => (hticks u).trans (hcharged.spent u hu huF)
    · exact fun fuel hfuel => hpick _ hready' (fun u _ => hticks u) fuel hfuel

/-! ### Blocks of ticks -/

variable {espOf : ℕ → ℕ → ℕ}

theorem timerTicks_add {l l' : List ℕ} {s'' : State}
    (h : timerTicks fuel espOf k n s = some (l, s')) {n' : ℕ}
    (h' : timerTicks fuel espOf (k + n) n' s' = some (l', s'')) :
    timerTicks fuel espOf k (n + n') s = some (l ++ l', s'') := by
  induction n generalizing k l s with
  | zero =>
    obtain ⟨rfl, rfl⟩ := h
    simpa using h'
  | succ n ih =>
    simp only [timerTicks, bind_eq_bind, bind_eq_some_iff] at h
    obtain ⟨s1, hstep, ⟨l1, s2⟩, hrest, heq⟩ := h
    obtain ⟨rfl, rfl⟩ := heq
    have hrest' := ih hrest (by rwa [show k + 1 + n = k + (n + 1) by omega])
    rw [show n + 1 + n' = (n + n') + 1 by omega, timerTicks, hstep]
    simp [hrest']

theorem doTimer_of_more (fuel esp : ℕ) {x : ℤ} (hx : (s.tasks s.current).ticks = x) (hlo : 1 < x)
    (hhi : x < 2 ^ 31) :
    s.doTimer fuel esp = some (s.advanceClock.setTicks s.current (x - 1)) := by
  have hticks : int32 ((s.advanceClock.tasks s.advanceClock.current).ticks - 1) = x - 1 := by
    show int32 ((s.tasks s.current).ticks - 1) = x - 1
    rw [hx, int32_eq (by omega) (by omega)]
  simp only [State.doTimer, hticks]
  rw [if_pos (by omega)]
  rfl

theorem countdown (fuel : ℕ) (espOf : ℕ → ℕ → ℕ) (k : ℕ) (h : Ready rq prio redzone s)
    (hx : (s.tasks s.current).ticks = (n : ℤ) + 1) (hn : (n : ℤ) + 1 < 2 ^ 31) :
    ∃ s', timerTicks fuel espOf k n s = some (List.replicate n s.current, s') ∧
      Ready rq prio redzone s' ∧ s'.current = s.current ∧ (s'.tasks s.current).ticks = 1 ∧
      ∀ u, u ≠ s.current → (s'.tasks u).ticks = (s.tasks u).ticks := by
  induction n generalizing k s with
  | zero => exact ⟨s, rfl, h, rfl, by simpa using hx, fun _ _ => rfl⟩
  | succ n ih =>
    have hstep := doTimer_of_more fuel (espOf k s.current) hx (by omega) hn
    have hticks : ((s.advanceClock.setTicks s.current ((n + 1 : ℕ) + 1 - 1 : ℤ)).tasks
        s.current).ticks = (n : ℤ) + 1 := by
      simp [State.setTicks, State.setTask]
    obtain ⟨s', hrest, hready, hcur, hone, hother⟩ :=
      ih (k + 1) (h.advanceClock.setTicks s.current _) hticks (by omega)
    refine ⟨s', ?_, hready, hcur, hone, fun u hu => ?_⟩
    · rw [timerTicks, hstep, replicate_succ]
      simp only [bind_eq_bind, bind_some, hrest]
      rfl
    · rw [hother u hu]
      simp [State.setTicks, State.setTask, State.advanceClock, hu]

theorem doTimer_last (esp : ℕ) (h : Ready rq prio redzone s) (hp : Priorities rq prio)
    (hnd : rq.Nodup) (hrq : rq ≠ []) (hone : (s.tasks s.current).ticks = 1)
    (hc : Charged rq prio F (s.setTicks s.current 0)) (hesp : redzone s.current ≤ esp)
    (hfuel : 2 ≤ fuel) :
    ∃ s', s.doTimer fuel esp = some s' ∧ Mid rq prio redzone (upNext rq F) s' := by
  have hticks : int32 ((s.advanceClock.tasks s.advanceClock.current).ticks - 1) = 0 := by
    show int32 ((s.tasks s.current).ticks - 1) = 0
    rw [hone]
    decide
  rw [State.doTimer]
  simp only [hticks, Int.lt_irrefl, if_false]
  exact sched_mid (h.advanceClock.setTicks s.advanceClock.current 0) hp hnd hrq
    ⟨hc.sub, hc.full, hc.spent⟩ hesp hfuel

/-- The ticks of one task in an epoch. -/
def block (prio : ℕ → ℤ) (t : ℕ) : List ℕ := List.replicate (prio t).toNat t

/-- **One block**: the task that is about to start has all of its ticks, one after
the other, and then the next one starts. -/
theorem block_ticks (h : Mid rq prio redzone F s) (hF : F.Nodup) (hp : Priorities rq prio)
    (hnd : rq.Nodup) (hesp : ∀ i, ∀ t ∈ rq, redzone t ≤ espOf i t) (hfuel : 2 ≤ fuel) :
    ∃ s', timerTicks fuel espOf k (prio s.current).toNat s = some (block prio s.current, s') ∧
      Mid rq prio redzone (upNext rq (F.erase s.current)) s' := by
  have hmem : s.current ∈ rq := h.sub _ h.current
  obtain ⟨hlo, hhi⟩ := hp _ hmem
  obtain ⟨n, hn⟩ : ∃ n : ℕ, prio s.current = (n : ℤ) + 1 := ⟨(prio s.current - 1).toNat, by omega⟩
  obtain ⟨s1, hrun, hready, hcur, hone, hother⟩ := countdown fuel espOf k
    h.toReady ((h.full _ h.current).trans hn) (by omega)
  -- what is left when the current task is down to zero
  have hticks : ∀ u, ((s1.setTicks s1.current 0).tasks u).ticks =
      if u = s.current then 0 else (s.tasks u).ticks := by
    intro u
    by_cases hu : u = s.current
    · simp [State.setTicks, State.setTask, hcur, hu]
    · simp [State.setTicks, State.setTask, hcur, hu, hother u hu]
  have hc : Charged rq prio (F.erase s.current) (s1.setTicks s1.current 0) := by
    refine ⟨fun t ht => h.sub t (mem_of_mem_erase ht), fun t ht => ?_, fun t ht htF => ?_⟩
    · obtain ⟨hne, htF⟩ := hF.mem_erase_iff.mp ht
      rw [hticks, if_neg hne, h.full t htF]
    · rw [hticks]
      split
      · rfl
      · rename_i hne
        exact h.spent t ht fun htF' => htF (hF.mem_erase_iff.mpr ⟨hne, htF'⟩)
  obtain ⟨s', hlast, hmid⟩ := doTimer_last (espOf (k + n) s1.current) hready hp hnd
    (ne_nil_of_mem hmem) (hcur ▸ hone) hc (hesp _ _ (hcur ▸ hmem)) hfuel
  refine ⟨s', ?_, hmid⟩
  have htotal : (prio s.current).toNat = n + 1 := by omega
  have hend : timerTicks fuel espOf (k + n) 1 s1 = some ([s.current], s') := by
    rw [timerTicks, hlast, hcur]
    rfl
  rw [block, htotal, replicate_succ']
  exact timerTicks_add hrun hend

/-- The number of ticks of some tasks in an epoch. -/
def total (prio : ℕ → ℤ) (l : List ℕ) : ℕ := (l.map fun t => (prio t).toNat).sum

/-- **The rest of an epoch**: each task that is still to run has one block of
ticks, in some order, and then all tasks are to run again. -/
theorem epoch (k : ℕ) (h : Mid rq prio redzone F s) (hF : F.Nodup) (hp : Priorities rq prio)
    (hnd : rq.Nodup) (hesp : ∀ i, ∀ t ∈ rq, redzone t ≤ espOf i t) (hfuel : 2 ≤ fuel) :
    ∃ (order : List ℕ) (s' : State), order.Perm F ∧
      timerTicks fuel espOf k (total prio F) s = some (order.flatMap (block prio), s') ∧
      Mid rq prio redzone rq s' := by
  -- by induction on the number of tasks that are still to run
  induction hlen : F.length generalizing k s F with
  | zero =>
    have hnil : F = [] := length_eq_zero_iff.mp hlen
    exact absurd h.current (by simp [hnil])
  | succ n ih =>
    have hperm : F.Perm (s.current :: F.erase s.current) := perm_cons_erase h.current
    have htotal : total prio F = (prio s.current).toNat + total prio (F.erase s.current) := by
      rw [total, (hperm.map _).sum_eq, map_cons, sum_cons, total]
    obtain ⟨s1, hrun, hmid⟩ := block_ticks h hF hp hnd hesp hfuel
    by_cases hlast : F.erase s.current = []
    · refine ⟨[s.current], s1, ?_, ?_, ?_⟩
      · rw [hlast] at hperm
        exact hperm.symm
      · rw [htotal, hlast]
        simpa [total] using hrun
      · simpa [upNext, hlast] using hmid
    · rw [upNext, if_neg hlast] at hmid
      have hlen' : (F.erase s.current).length = n := by
        rw [length_erase_of_mem h.current, hlen]
        omega
      obtain ⟨order, s', hord, hrest, hend⟩ :=
        ih (k + (prio s.current).toNat) hmid (hF.erase _) hlen'
      refine ⟨s.current :: order, s', (hord.cons _).trans hperm.symm, ?_, hend⟩
      rw [htotal, flatMap_cons]
      exact timerTicks_add hrun hrest

/-- Right after a recharge: every task of the run queue is runnable and has its positive priority
as ticks, and the current task is the one `find_next_runnable` picks. -/
structure Recharged (fuel : ℕ) (s : State) : Prop where
  nodup : s.runqueue.Nodup
  state : ∀ t ∈ s.runqueue, (s.tasks t).state = .runnable
  stack : ∀ t ∈ s.runqueue, (s.tasks t).redzoneTop ≤ (s.tasks t).kEsp
  priority : ∀ t ∈ s.runqueue, 1 ≤ (s.tasks t).priority ∧ (s.tasks t).priority < 2 ^ 31
  ticks : ∀ t ∈ s.runqueue, (s.tasks t).ticks = (s.tasks t).priority
  pick : ∃ s', s.findNextRunnable fuel = some (some s.current, s')

/-- The priority of a task. -/
def State.priorityOf (s : State) (t : ℕ) : ℤ := (s.tasks t).priority

/-- The top of the red zone of a task. -/
def State.redzoneOf (s : State) (t : ℕ) : ℕ := (s.tasks t).redzoneTop

theorem Recharged.mid (h : Recharged fuel s) (hfuel : 1 ≤ fuel) :
    Mid s.runqueue s.priorityOf s.redzoneOf s.runqueue s := by
  have hready : Ready s.runqueue s.priorityOf s.redzoneOf s :=
    ⟨rfl, fun t ht => ⟨h.state t ht, rfl, rfl, h.stack t ht⟩⟩
  have hcharged : Charged s.runqueue s.priorityOf s.runqueue s :=
    ⟨fun _ ht => ht, h.ticks, fun t ht htn => absurd ht htn⟩
  obtain ⟨s', hpick⟩ := h.pick
  have hrq : s.runqueue ≠ [] := by
    -- an empty queue gives no task
    intro hrq
    obtain ⟨fuel, rfl⟩ : ∃ n, fuel = n + 1 := ⟨fuel - 1, by omega⟩
    simp [State.findNextRunnable, hrq, State.scan] at hpick
  obtain ⟨t, ht, hfind⟩ := findNextRunnable_of_charged hready h.priority h.nodup hcharged hrq
  have hcur : t = s.current := by
    rw [hfind s hready (fun _ _ => rfl) fuel hfuel, Option.some.injEq, Prod.mk.injEq,
      Option.some.injEq] at hpick
    exact hpick.1
  exact ⟨hready, hcharged, hcur ▸ ht, hcur ▸ hfind s hready fun _ _ => rfl⟩

theorem Mid.recharged (h : Mid rq prio redzone rq s) (hp : Priorities rq prio) (hnd : rq.Nodup)
    (hfuel : 1 ≤ fuel) : Recharged fuel s := by
  have hrq := h.runqueue
  refine ⟨hrq ▸ hnd, ?_, ?_, ?_, ?_, s, h.pick fuel hfuel⟩
  · exact fun t ht => (h.task t (hrq ▸ ht)).state
  · intro t ht
    rw [(h.task t (hrq ▸ ht)).redzoneTop]
    exact (h.task t (hrq ▸ ht)).stack
  · intro t ht
    rw [(h.task t (hrq ▸ ht)).priority]
    exact hp t (hrq ▸ ht)
  · intro t ht
    rw [(h.task t (hrq ▸ ht)).priority]
    exact h.full t (hrq ▸ ht)

/-- **Scheduling share**: if all tasks of the run queue stay runnable, then after a recharge, in
each epoch of as many ticks as the priorities add up to, every task is current for as many ticks
as its priority, in one block; and the queue is recharged again. -/
theorem scheduling_share (hfuel : 2 ≤ fuel) (h : Recharged fuel s)
    (hesp : ∀ i, ∀ t ∈ s.runqueue, s.redzoneOf t ≤ espOf i t) (epochs : ℕ) :
    ∃ (orders : List (List ℕ)) (s' : State), orders.length = epochs ∧
      (∀ order ∈ orders, order.Perm s.runqueue) ∧
      timerTicks fuel espOf 0 (epochs * total s.priorityOf s.runqueue) s =
        some (orders.flatMap fun order => order.flatMap (block s.priorityOf), s') ∧
      Recharged fuel s' ∧ s'.runqueue = s.runqueue ∧
      ∀ t ∈ s.runqueue, (s'.tasks t).ticks = (s.tasks t).priority := by
  have hmid := h.mid (show 1 ≤ fuel by omega)
  suffices hrun : ∀ k s1, Mid s.runqueue s.priorityOf s.redzoneOf s.runqueue s1 →
      ∃ (orders : List (List ℕ)) (s' : State), orders.length = epochs ∧
        (∀ order ∈ orders, order.Perm s.runqueue) ∧
        timerTicks fuel espOf k (epochs * total s.priorityOf s.runqueue) s1 =
          some (orders.flatMap fun order => order.flatMap (block s.priorityOf), s') ∧
        Mid s.runqueue s.priorityOf s.redzoneOf s.runqueue s' by
    obtain ⟨orders, s', hlen, hperm, hticks, hend⟩ := hrun 0 s hmid
    exact ⟨orders, s', hlen, hperm, hticks, hend.recharged h.priority h.nodup (by omega),
      hend.runqueue, hend.full⟩
  -- by induction on the number of epochs
  induction epochs with
  | zero =>
    intro k s1 h1
    exact ⟨[], s1, rfl, by simp, by simp [timerTicks], h1⟩
  | succ epochs ih =>
    intro k s1 h1
    obtain ⟨order, s2, hord, hfirst, h2⟩ := epoch k h1 h.nodup h.priority h.nodup hesp hfuel
    obtain ⟨orders, s', hlen, hperm, hrest, hend⟩ := ih (k + total s.priorityOf s.runqueue) s2 h2
    refine ⟨order :: orders, s', by simp [hlen], ?_, ?_, hend⟩
    · intro o ho
      rcases mem_cons.mp ho with rfl | ho
      · exact hord
      · exact hperm o ho
    · rw [Nat.succ_mul, Nat.add_comm, flatMap_cons]
      exact timerTicks_add hfirst hrest

theorem scheduling_share_twoTasks :
    ∃ (orders : List (List ℕ)) (s' : State), orders.length = 4 ∧
      (∀ order ∈ orders, order.Perm [2, 3]) ∧
      timerTicks 2 (fun _ _ => 0xD0042F40) 0 (4 * total twoTasks.priorityOf [2, 3]) twoTasks =
        some (orders.flatMap fun order => order.flatMap (block twoTasks.priorityOf), s') ∧
      Recharged 2 s' ∧ s'.runqueue = [2, 3] ∧
      ∀ t ∈ [2, 3], (s'.tasks t).ticks = (twoTasks.tasks t).priority := by
  have hstack : ∀ t ∈ twoTasks.runqueue, (twoTasks.tasks t).redzoneTop ≤ (twoTasks.tasks t).kEsp :=
    by decide
  have hcharged : Recharged 2 twoTasks :=
    ⟨by decide, fun _ _ => rfl, hstack, by decide, by decide, twoTasks, rfl⟩
  have hesp : ∀ t ∈ twoTasks.runqueue, twoTasks.redzoneOf t ≤ 0xD0042F40 := by decide
  exact scheduling_share (Nat.le_refl 2) hcharged (fun _ => hesp) 4

end Sched
