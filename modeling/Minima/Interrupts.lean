/-
Nested sections without interrupts (`cli_push` and `cli_pop` of `x86.c`) across
context switches (`sched` of `sched.c`).

How deep a task is in such sections, and whether interrupts were enabled before
the outermost one, is kept in its `struct task`; whether interrupts are enabled is
a flag of the processor, which `switch_to` neither saves nor loads.  A task that is
switched to goes on with the flag as the previous task has left it, until an `iret`
loads another: at the end of the interrupt in which the task was taken off the
processor, or when it starts.

* `Cli.push`, `Cli.pop` — the two functions of the source;
* `Step` — what the running task and the processor do: a section is entered in two
  steps, since an interrupt may come between `read_eflags` and `cli`;
* `inv_of_run` — the depth of every task is the number of its open sections, and the
  saved flag is the flag at the entry of the outermost one;
* `sections_survive` — in a section interrupts are disabled, `cli_pop` does not panic,
  and the outermost one gives back the flag with which it was entered.
-/
import Minima.Runs
import Mathlib.Tactic.Set

namespace Interrupts

open Function List

/-! ### `cli_push` and `cli_pop` -/

/-- The fields of `struct task` for the sections. -/
structure Cli where
  cliDepth : ℤ
  cliIntEnabled : Bool

inductive Panic
  /-- `cli_pop while interruptible` -/
  | interruptible
  /-- `cli_pop undeflow` -/
  | undeflow
deriving DecidableEq

/-- `cli_push`, once `read_eflags` has returned `eflags` and `cli` has cleared the
flag. -/
def Cli.push (c : Cli) (eflags : Bool) : Cli where
  cliDepth := c.cliDepth + 1
  cliIntEnabled := if c.cliDepth = 0 then eflags else c.cliIntEnabled

/-- `cli_pop`, and the interrupt flag after it. -/
def Cli.pop (c : Cli) (intr : Bool) : Except Panic (Cli × Bool) :=
  if intr then .error .interruptible
  else
    let c : Cli := { c with cliDepth := c.cliDepth - 1 }
    if c.cliDepth < 0 then .error .undeflow
    else .ok (c, if c.cliDepth = 0 ∧ c.cliIntEnabled then true else intr)

/-! ### Tasks -/

/-- What a task is doing: the `eflags` of a `cli_push` that has not come to `cli`, and for each
open section, innermost first, the interrupt flag when it was entered.  The second is there for
the statements only. -/
structure Context where
  pending : Option Bool
  entered : List Bool

/-- An interrupt that has not returned: the interrupt flag that the processor has
pushed, and what it has interrupted. -/
structure Frame extends Context where
  intr : Bool

/-- A task; `fresh` until it has run for the first time. -/
structure Task extends Cli, Context where
  frames : List Frame
  fresh : Bool

variable {T : Type} [DecidableEq T]

/-- The interrupt flag of the processor, and the tasks. -/
structure State (T : Type) where
  intr : Bool
  current : T
  tasks : T → Task

def State.running (s : State T) : Task := s.tasks s.current

/-- The running task becomes `t`, and the interrupt flag `intr`. -/
def State.become (s : State T) (t : Task) (intr : Bool) : State T :=
  { s with intr := intr, tasks := update s.tasks s.current t }

/-- `switch_to(current, next)`: a task that has run before goes on where it has called
`switch_to`; a new one starts with the `iret` of `task_init`, and `eflags` is `0x200`. -/
def State.switchTo (s : State T) (next : T) : State T where
  intr := if (s.tasks next).fresh then true else s.intr
  current := next
  tasks := update s.tasks next { s.tasks next with fresh := false }

inductive Event (T : Type)
  /-- the first half of `cli_push`: `read_eflags` -/
  | readEflags
  /-- the second half: `cli`, after which nothing can come between -/
  | push
  | pop
  /-- an interrupt of a device, such as the timer -/
  | interrupt
  /-- `int 0x80` -/
  | trap
  /-- the end of an interrupt handler -/
  | iret
  /-- `sched`, which takes `next` for the task to run -/
  | sched (next : T)
  /-- `cli` and `sti` outside of sections -/
  | cli
  | sti

/-- One event.  Programs are balanced: there is a `cli_pop` for an open section only,
and a handler ends when it has closed its own. -/
inductive Step (s : State T) : Event T → State T → Prop
  | readEflags (hidle : s.running.pending = none) :
      Step s .readEflags (s.become { s.running with pending := some s.intr } s.intr)
  | push {eflags : Bool} (hread : s.running.pending = some eflags) :
      Step s .push (s.become { s.running with
        toCli := s.running.toCli.push eflags
        pending := none
        entered := eflags :: s.running.entered } false)
  | pop {b : Bool} {rest : List Bool} {c : Cli} {intr : Bool}
      (hidle : s.running.pending = none) (hopen : s.running.entered = b :: rest)
      (hpop : s.running.toCli.pop s.intr = .ok (c, intr)) :
      Step s .pop (s.become { s.running with toCli := c, entered := rest } intr)
  | interrupt (hintr : s.intr = true) :
      Step s .interrupt (s.become { s.running with
        pending := none
        entered := []
        frames := ⟨s.running.toContext, s.intr⟩ :: s.running.frames } false)
  | trap (hidle : s.running.pending = none) (hclosed : s.running.entered = []) :
      Step s .trap (s.become { s.running with
        frames := ⟨s.running.toContext, s.intr⟩ :: s.running.frames } false)
  | iret {f : Frame} {rest : List Frame} (hidle : s.running.pending = none)
      (hclosed : s.running.entered = []) (hframes : s.running.frames = f :: rest) :
      Step s .iret (s.become { s.running with
        toContext := f.toContext
        frames := rest } f.intr)
  | sched {next : T} (hidle : s.running.pending = none) (hintr : s.intr = false) :
      Step s (.sched next) (s.switchTo next)
  | cli (hidle : s.running.pending = none) (hclosed : s.running.entered = []) :
      Step s .cli { s with intr := false }
  | sti (hidle : s.running.pending = none) (hclosed : s.running.entered = []) :
      Step s .sti { s with intr := true }

/-- The state before any section: the running task is the one that has booted, all
others have been made by `task_create`. -/
structure Initial (s : State T) : Prop where
  depth : ∀ t, (s.tasks t).cliDepth = 0
  idle : ∀ t, (s.tasks t).pending = none ∧ (s.tasks t).entered = [] ∧ (s.tasks t).frames = []
  fresh : ∀ t, (s.tasks t).fresh = true ↔ t ≠ s.current

/-! ### The invariant -/

/-- What holds of every task: the sections it has open are on record, and it is in none
where it has been interrupted, or before it has started. -/
structure Task.Ok (t : Task) : Prop where
  depth : t.cliDepth = t.entered.length
  outermost : ∀ h : t.entered ≠ [], t.cliIntEnabled = t.entered.getLast h
  frames : ∀ f ∈ t.frames, f.entered = []
  fresh : t.fresh = true → t.entered = []

/-- Moreover interrupts are disabled while the running task is in a section. -/
structure Inv (s : State T) : Prop where
  ok : ∀ t, (s.tasks t).Ok
  started : s.running.fresh = false
  disabled : s.running.entered ≠ [] → s.intr = false

omit [DecidableEq T] in
theorem inv_of_initial {s : State T} (h : Initial s) : Inv s := by
  have hstarted : s.running.fresh = false := by
    rw [← Bool.not_eq_true, State.running, h.fresh]
    exact not_not.mpr rfl
  refine ⟨fun t => ?_, hstarted, fun hopen => absurd (h.idle s.current).2.1 hopen⟩
  obtain ⟨-, hentered, hframes⟩ := h.idle t
  refine ⟨?_, fun hne => absurd hentered hne, fun f hf => ?_, fun _ => hentered⟩
  · rw [h.depth t, hentered]
    rfl
  · rw [hframes] at hf
    cases hf

variable {s s' : State T} {t : Task} {e : Event T} {intr : Bool}

theorem Inv.become (h : Inv s) (ht : t.Ok) (hfresh : t.fresh = false)
    (hintr : t.entered ≠ [] → intr = false) : Inv (s.become t intr) := by
  refine ⟨fun i => ?_, by simpa [State.running, State.become] using hfresh, fun hopen => hintr ?_⟩
  · by_cases hi : i = s.current
    · subst hi
      simpa [State.become] using ht
    · simpa [State.become, update_of_ne hi] using h.ok i
  · simpa [State.running, State.become] using hopen

theorem Task.Ok.push (h : t.Ok) (eflags : Bool) (hfresh : t.fresh = false) :
    Task.Ok { t with
      toCli := t.toCli.push eflags
      pending := none
      entered := eflags :: t.entered } := by
  refine ⟨?_, fun _ => ?_, h.frames, fun hf => by simp [hfresh] at hf⟩
  · show t.cliDepth + 1 = _
    rw [h.depth, length_cons]
    rfl
  · show (if t.cliDepth = 0 then eflags else t.cliIntEnabled) = _
    by_cases hopen : t.entered = []
    · -- the outermost section: the flag is saved
      rw [if_pos (by rw [h.depth, hopen]; rfl)]
      simp [hopen]
    · have hpos : t.cliDepth ≠ 0 := by
        rw [h.depth]
        simpa using hopen
      rw [if_neg hpos, h.outermost hopen, getLast_cons hopen]

/-- `cli_pop` in a section does not panic, and gives back the interrupt flag with which
the outermost section was entered. -/
theorem Task.Ok.pop {b : Bool} {rest : List Bool} (h : t.Ok) (hopen : t.entered = b :: rest) :
    t.toCli.pop false = .ok (⟨rest.length, t.cliIntEnabled⟩, rest = [] && b) := by
  have hdepth : t.cliDepth - 1 = rest.length := by
    rw [h.depth, hopen, length_cons]
    omega
  rw [Cli.pop, if_neg Bool.false_ne_true]
  simp only [hdepth]
  cases rest with
  | nil =>
    have hsaved : t.cliIntEnabled = b := by
      rw [h.outermost (by simp [hopen])]
      simp [hopen]
    simp [hsaved]
  | cons c rest =>
    rfl

theorem Inv.switchTo (h : Inv s) (next : T) (hintr : s.intr = false) : Inv (s.switchTo next) := by
  refine ⟨fun i => ?_, by simp [State.running, State.switchTo], fun hopen => ?_⟩
  · by_cases hi : i = next
    · subst hi
      have hok := h.ok i
      simp only [State.switchTo, update_self]
      exact ⟨hok.depth, hok.outermost, hok.frames, fun hf => by cases hf⟩
    · simpa [State.switchTo, update_of_ne hi] using h.ok i
  · -- a task that is in a section has run before: the flag stays as it is
    have hopen' : (s.tasks next).entered ≠ [] := by
      simpa [State.running, State.switchTo] using hopen
    have hstarted : (s.tasks next).fresh = false := by
      rw [← Bool.not_eq_true]
      exact fun hfresh => hopen' ((h.ok next).fresh hfresh)
    show (if (s.tasks next).fresh then true else s.intr) = false
    rw [hstarted, hintr]
    rfl

theorem Inv.step (h : Inv s) (hstep : Step s e s') : Inv s' := by
  have hok : s.running.Ok := h.ok s.current
  have hstarted := h.started
  have hfresh : ∀ {p : Prop}, s.running.fresh = true → p := fun hf => by
    rw [hstarted] at hf
    cases hf
  cases hstep with
  | readEflags _ =>
    exact h.become ⟨hok.depth, hok.outermost, hok.frames, hok.fresh⟩ hstarted h.disabled
  | push hread => exact h.become (hok.push _ hstarted) hstarted fun _ => rfl
  | @pop b rest c intr _ hopen hpop =>
    have hintr : s.intr = false := h.disabled (by rw [hopen]; simp)
    rw [hintr, hok.pop hopen] at hpop
    obtain ⟨rfl, rfl⟩ := Prod.mk.inj (Except.ok.inj hpop)
    refine h.become ⟨rfl, fun hne => ?_, hok.frames, hfresh⟩ hstarted fun hne => ?_
    · have hlast := hok.outermost (by rw [hopen]; simp)
      simp only [hopen, getLast_cons hne] at hlast
      exact hlast
    · have hrest : rest ≠ [] := hne
      simp [hrest]
  | interrupt hintr =>
    -- with interrupts enabled there is no open section
    have hclosed : s.running.entered = [] := by
      by_contra hopen
      rw [h.disabled hopen] at hintr
      cases hintr
    refine h.become ⟨?_, fun hne => absurd rfl hne, fun f hf => ?_, fun _ => rfl⟩ hstarted
      fun _ => rfl
    · rw [hok.depth, hclosed]
    · rcases mem_cons.mp hf with rfl | hf
      · exact hclosed
      · exact hok.frames f hf
  | trap _ hclosed =>
    refine h.become ⟨hok.depth, hok.outermost, fun f hf => ?_, hok.fresh⟩ hstarted fun _ => rfl
    rcases mem_cons.mp hf with rfl | hf
    · exact hclosed
    · exact hok.frames f hf
  | @iret f rest _ hclosed hframes =>
    have hf : f.entered = [] := hok.frames f (by rw [hframes]; exact mem_cons_self)
    refine h.become ⟨?_, fun hne => absurd hf hne, fun f' hf' => hok.frames f' ?_, hfresh⟩ hstarted
      fun hne => absurd hf hne
    · rw [hok.depth, hclosed, hf]
    · rw [hframes]
      exact mem_cons_of_mem f hf'
  | sched _ hintr => exact h.switchTo _ hintr
  | cli _ _ => exact ⟨h.ok, hstarted, fun _ => rfl⟩
  | sti _ hclosed => exact ⟨h.ok, hstarted, fun hopen => absurd hclosed hopen⟩

theorem inv_of_run {s0 : State T} {es : List (Event T)} (hinit : Initial s0)
    (hrun : Run Step s0 es s) : Inv s :=
  hrun.invariant (inv_of_initial hinit) fun _ _ _ h hstep => h.step hstep

/-- **Sections survive context switches.**  In every state of a run of any number of tasks, the
running task has interrupts disabled if its depth is positive; and the `cli_pop` of a section
does not panic, and gives back the interrupt flag with which the outermost one was entered. -/
theorem sections_survive {s0 : State T} {es : List (Event T)} (hinit : Initial s0)
    (hrun : Run Step s0 es s) :
    (0 < s.running.cliDepth → s.intr = false) ∧
      ∀ b rest, s.running.entered = b :: rest →
        ∃ c intr, s.running.toCli.pop s.intr = .ok (c, intr) ∧ c.cliDepth = rest.length ∧
          (rest = [] → intr = b) := by
  have hinv := inv_of_run hinit hrun
  have hok : s.running.Ok := hinv.ok s.current
  constructor
  · intro hpos
    refine hinv.disabled fun hclosed => ?_
    rw [hok.depth, hclosed] at hpos
    simp at hpos
  · intro b rest hopen
    have hintr : s.intr = false := hinv.disabled (by rw [hopen]; simp)
    refine ⟨⟨rest.length, s.running.cliIntEnabled⟩, rest = [] && b, ?_, rfl, ?_⟩
    · rw [hintr]
      exact hok.pop hopen
    · rintro rfl
      simp

/-- The task that has booted; the others have not run. -/
def booted : State ℕ where
  intr := true
  current := 0
  tasks t := ⟨⟨0, false⟩, ⟨none, []⟩, [], decide (t ≠ 0)⟩

theorem initial_booted : Initial booted where
  depth _ := rfl
  idle _ := ⟨rfl, rfl, rfl⟩
  fresh t := by
    show decide (t ≠ 0) = true ↔ t ≠ 0
    exact decide_eq_true_iff

/-- The first task sleeps in a section, the second one starts and is interrupted by the
timer, and the first one goes on: its `cli_pop` enables interrupts. -/
theorem sections_survive_booted :
    ∃ s, Run Step booted [.readEflags, .push, .sched 1, .interrupt, .sched 0] s ∧
      s.running.entered = [true] ∧ ∃ c, s.running.toCli.pop s.intr = .ok (c, true) := by
  obtain ⟨s, hrun, hopen⟩ :
      ∃ s, Run Step booted [.readEflags, .push, .sched 1, .interrupt, .sched 0] s ∧
        s.running.entered = [true] :=
    ⟨_, .snoc (.snoc (.snoc (.snoc (.snoc .nil (.readEflags rfl)) (.push rfl)) (.sched rfl rfl))
      (.interrupt rfl)) (.sched rfl rfl), rfl⟩
  obtain ⟨-, hpop⟩ := sections_survive initial_booted hrun
  obtain ⟨c, intr, hret, -, hback⟩ := hpop true [] hopen
  rw [hback rfl] at hret
  exact ⟨s, hrun, hopen, c, hret⟩

end Interrupts
