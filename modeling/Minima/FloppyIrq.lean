/-
Floppy interrupts and the commands they answer (`drivers/floppy.c`).

The controller raises an interrupt when it is done with a command, sooner or later.
All the driver keeps of it is a counter, `floppy_interrupts`: `fdc_irq` counts up, and
`wait_irq` waits until the counter is positive and counts down.  A wait gives up after
two seconds; the interrupt may still come.

* `Routine.prog` — the commands that the functions of the driver send, each followed
  by a `wait_irq`;
* `State.step` — the driver and the controller, one step at a time;
* `interrupts_matched` — every wait gets the interrupt of its own command if no
  command is sent while an interrupt of an earlier one is not yet consumed or may still
  come; where one is, the next wait can go wrong;
* `late_seek_taken_for_recalibrate` — a seek that times out shifts the waits after it.
-/
import Minima.Runs

namespace FloppyIrq

open List Option

/-! ### The driver -/

/-- The commands that are followed by a `wait_irq`; a reset is a write to the digital
output register. -/
inductive Command
  | recalibrate
  | seek
  | readId
  | transfer
  | reset
  deriving DecidableEq, Repr

/-- Whether a byte that the controller does not take makes the routine return before
its `wait_irq`; `do_handle_cylinder` does not look at what `send_byte` returns. -/
def Command.checked : Command → Bool
  | .transfer | .reset => false
  | _ => true

/-- What a routine still has to do. -/
inductive Prog
  | done
  /-- the command is sent and waited for; after a timeout the routine returns -/
  | command (k : Command) (ok : Prog)
  /-- the controller's answer decides -/
  | either (p q : Prog)
  deriving DecidableEq, Repr

/-- A command that is sent again until the controller's answer is good. -/
def retry (k : Command) : ℕ → Prog
  | 0 => .done
  | n + 1 => .command k (.either .done (retry k n))

/-- `RECALIBRATE_RETRIES` -/
def recalibrateRetries : ℕ := 10

/-- `HANDLE_CYLINDER_RETRIES` -/
def handleCylinderRetries : ℕ := 20

/-- `cmd_recalibrate` -/
def cmdRecalibrate : Prog := retry .recalibrate recalibrateRetries

/-- `reset_drive` -/
def resetDrive : Prog := .command .reset (.either .done cmdRecalibrate)

/-- `cmd_seek_internal` -/
def cmdSeekInternal (retries : ℕ) : Prog := retry .seek retries

/-- `cmd_read_id` -/
def cmdReadId : Prog := .command .readId .done

/-- The loop of `do_handle_cylinder` -/
def handleCylinderLoop : Prog := retry .transfer handleCylinderRetries

inductive Routine
  | recalibrate
  | reset
  | seek (retries : ℕ)
  | readId
  | handleCylinder
  deriving DecidableEq, Repr

def Routine.prog : Routine → Prog
  | .recalibrate => cmdRecalibrate
  | .reset => resetDrive
  | .seek retries => cmdSeekInternal retries
  | .readId => cmdReadId
  | .handleCylinder => handleCylinderLoop

/-- `irq_timeout_ms` -/
def irqTimeoutMs : ℕ := 2000

/-- `irq_check_delay` -/
def irqCheckDelay : ℕ := 10

/-- Where the driver is: outside the routines, in one, or in the loop of `wait_irq`
after `slept` milliseconds. -/
inductive Pc
  | idle
  | run (p : Prog)
  | wait (ok : Prog) (slept : ℕ)
  deriving DecidableEq, Repr

/-- The driver and the controller.  Commands are numbered as they are sent.  `outstanding` are
those whose interrupts may still come; `raised` tells which command each interrupt counted was
raised for, the oldest first; `matched` are the commands before the waits that have returned 0,
each with the command whose interrupt was consumed. -/
structure State where
  floppyInterrupts : ℤ
  pc : Pc
  issued : ℕ
  outstanding : List ℕ
  raised : List ℕ
  matched : List (ℕ × ℕ)
  deriving DecidableEq

inductive Event
  /-- a routine is called -/
  | start (r : Routine)
  /-- the answer of the controller lets the routine return, or not -/
  | answer (good : Bool)
  | ret
  /-- a command is sent; `taken` if the controller takes all its bytes -/
  | issue (taken : Bool)
  /-- the test of the loop of `wait_irq`, and what follows it -/
  | poll
  /-- the interrupt of command `c` comes: `fdc_irq` -/
  | irq (c : ℕ)
  deriving DecidableEq, Repr

namespace State

/-- A command is sent.  A reset makes the controller forget what it was doing. -/
def issue (s : State) (k : Command) (ok : Prog) (taken : Bool) : State :=
  { s with
    issued := s.issued + 1
    outstanding := (if k = .reset then [] else s.outstanding) ++ [s.issued]
    pc := if taken || !k.checked then .wait ok 0 else .run .done }

/-- One turn of the loop of `wait_irq`, or its end. -/
def poll (s : State) (ok : Prog) (slept : ℕ) : Option State :=
  if s.floppyInterrupts ≤ 0 then
    if irqTimeoutMs ≤ slept + irqCheckDelay then some { s with pc := .run .done }
    else some { s with pc := .wait ok (slept + irqCheckDelay) }
  else
    match s.raised with
    | [] => none
    | c :: rest =>
      some { s with
        floppyInterrupts := s.floppyInterrupts - 1, pc := .run ok, raised := rest,
        matched := s.matched ++ [(s.issued - 1, c)] }

def step (s : State) : Event → Option State
  | .start r => if s.pc = .idle then some { s with pc := .run r.prog } else none
  | .answer good =>
    match s.pc with
    | .run (.either p q) => some { s with pc := .run (if good then p else q) }
    | _ => none
  | .ret => if s.pc = .run .done then some { s with pc := .idle } else none
  | .issue taken =>
    match s.pc with
    | .run (.command k ok) => some (s.issue k ok taken)
    | _ => none
  | .poll =>
    match s.pc with
    | .wait ok slept => s.poll ok slept
    | _ => none
  | .irq c =>
    if c ∈ s.outstanding then
      some { s with
        floppyInterrupts := s.floppyInterrupts + 1, outstanding := s.outstanding.erase c,
        raised := s.raised ++ [c] }
    else none

end State

def Step (s : State) (e : Event) (s' : State) : Prop := s.step e = some s'

def booted : State := ⟨0, .idle, 0, [], [], []⟩

/-- Every wait that has returned 0 has consumed the interrupt of its own command. -/
def Matched (s : State) : Prop := ∀ p ∈ s.matched, p.1 = p.2

/-- A command is sent only when all interrupts have been consumed and none of an
earlier command can come; a reset takes care of the latter itself. -/
def State.fresh (s : State) : Event → Bool
  | .issue _ =>
    match s.pc with
    | .run (.command k _) => s.floppyInterrupts = 0 ∧ (k = .reset ∨ s.outstanding = [])
    | _ => true
  | _ => true

/-! ### What a step does -/

variable {s s' : State} {e : Event}

/-- The driver moves on, without a command or an interrupt; only a wait leads to a wait. -/
def Moves (s s' : State) : Prop :=
  ∃ pc, s' = { s with pc := pc } ∧
    ∀ ok slept, pc = .wait ok slept → ∃ slept', s.pc = .wait ok slept'

theorem moves_run (s : State) (p : Prog) : Moves s { s with pc := .run p } :=
  ⟨.run p, rfl, fun _ _ h => by cases h⟩

theorem step_cases (h : Step s e s') :
    Moves s s' ∨
    (∃ taken k ok, e = .issue taken ∧ s.pc = .run (.command k ok) ∧ s' = s.issue k ok taken) ∨
    (∃ ok slept c rest, s.pc = .wait ok slept ∧ s.raised = c :: rest ∧
      s' = { s with
        floppyInterrupts := s.floppyInterrupts - 1, pc := .run ok, raised := rest,
        matched := s.matched ++ [(s.issued - 1, c)] }) ∨
    (∃ c ∈ s.outstanding, s' = { s with
      floppyInterrupts := s.floppyInterrupts + 1, outstanding := s.outstanding.erase c,
      raised := s.raised ++ [c] }) := by
  cases e with
  | start r =>
    simp only [Step, State.step] at h
    split at h
    · cases h
      exact .inl (moves_run s _)
    · cases h
  | answer good =>
    simp only [Step, State.step] at h
    split at h
    · cases h
      exact .inl (moves_run s _)
    · cases h
  | ret =>
    simp only [Step, State.step] at h
    split at h
    · cases h
      exact .inl ⟨.idle, rfl, fun _ _ h => by cases h⟩
    · cases h
  | issue taken =>
    simp only [Step, State.step] at h
    split at h
    · next k ok hpc => exact .inr (.inl ⟨taken, k, ok, rfl, hpc, (some_inj.mp h).symm⟩)
    · cases h
  | poll =>
    simp only [Step, State.step] at h
    split at h
    · next ok slept hpc =>
      unfold State.poll at h
      split at h
      · split at h
        · cases h
          exact .inl (moves_run s _)
        · cases h
          refine .inl ⟨.wait ok (slept + irqCheckDelay), rfl, ?_⟩
          intro ok' slept' heq
          cases heq
          exact ⟨slept, hpc⟩
      · split at h
        · cases h
        · next c rest hraised =>
          exact .inr (.inr (.inl ⟨ok, slept, c, rest, hpc, hraised, (some_inj.mp h).symm⟩))
    · cases h
  | irq c =>
    simp only [Step, State.step] at h
    split at h
    · next hc => exact .inr (.inr (.inr ⟨c, hc, (some_inj.mp h).symm⟩))
    · cases h

/-- What holds in every run: the counter counts the interrupts that have come and have
not been consumed, and all are for commands that have been sent. -/
structure Inv (s : State) : Prop where
  count : s.floppyInterrupts = s.raised.length
  old : ∀ c, c ∈ s.raised ∨ c ∈ s.outstanding → c < s.issued

theorem booted_inv : Inv booted := ⟨rfl, by simp [booted]⟩

theorem Inv.step (h : Inv s) (hs : Step s e s') : Inv s' := by
  rcases step_cases hs with ⟨pc, rfl, -⟩ | ⟨taken, k, ok, -, -, rfl⟩ |
    ⟨ok, slept, c, rest, -, hraised, rfl⟩ | ⟨c, hc, rfl⟩
  · exact ⟨h.count, h.old⟩
  · refine ⟨h.count, fun c hc => ?_⟩
    have hlt : c < s.issued ∨ c = s.issued := by
      rcases hc with hc | hc
      · exact .inl (h.old c (.inl hc))
      · rcases mem_append.mp hc with hc | hc
        · split at hc
          · cases hc
          · exact .inl (h.old c (.inr hc))
        · exact .inr (mem_singleton.mp hc)
    show c < s.issued + 1
    omega
  · refine ⟨?_, fun x hx => h.old x (hx.imp_left fun hx => by simp [hraised, hx])⟩
    have := h.count
    rw [hraised, length_cons] at this
    show s.floppyInterrupts - 1 = rest.length
    omega
  · refine ⟨?_, fun x hx => h.old x ?_⟩
    · have := h.count
      simp only [length_append, length_singleton]
      omega
    · rcases hx with hx | hx
      · rcases mem_append.mp hx with hx | hx
        · exact .inl hx
        · exact .inr (mem_singleton.mp hx ▸ hc)
      · exact .inr (mem_of_mem_erase hx)

/-- What holds in the runs that send no command too early: during a wait, only the
interrupt of its own command can come or have come. -/
structure Current (s : State) : Prop extends Inv s where
  own : ∀ ok slept, s.pc = .wait ok slept → ∀ c, c ∈ s.raised ∨ c ∈ s.outstanding →
    c + 1 = s.issued
  matched : Matched s

theorem booted_current : Current booted :=
  ⟨booted_inv, (fun _ _ h => by cases h), by simp [Matched, booted]⟩

theorem Current.step (h : Current s) (hfresh : s.fresh e = true) (hs : Step s e s') :
    Current s' := by
  have hinv := h.toInv.step hs
  rcases step_cases hs with ⟨pc, rfl, hpc⟩ | ⟨taken, k, ok, rfl, hpc, rfl⟩ |
    ⟨ok, slept, c, rest, hpc, hraised, rfl⟩ | ⟨c, hc, rfl⟩
  · refine ⟨hinv, fun ok slept hwait => ?_, h.matched⟩
    obtain ⟨slept', hold⟩ := hpc ok slept hwait
    exact h.own ok slept' hold
  · refine ⟨hinv, fun _ _ _ c hc => ?_, h.matched⟩
    -- nothing is left of the earlier commands
    simp only [State.fresh, hpc, decide_eq_true_eq] at hfresh
    have hnone : s.raised = [] := by
      have := h.count
      exact eq_nil_of_length_eq_zero (by omega)
    rcases hc with hc | hc
    · rw [show (s.issue k ok taken).raised = s.raised from rfl, hnone] at hc
      cases hc
    · rcases mem_append.mp hc with hc | hc
      · split at hc
        · cases hc
        · next hk =>
          rw [hfresh.2.resolve_left hk] at hc
          cases hc
      · rw [mem_singleton.mp hc]
        rfl
  · refine ⟨hinv, (fun _ _ hwait => by cases hwait), ?_⟩
    intro p hp
    rcases mem_append.mp hp with hp | hp
    · exact h.matched p hp
    · rw [mem_singleton.mp hp]
      have := h.own ok slept hpc c (.inl (by simp [hraised]))
      show s.issued - 1 = c
      omega
  · refine ⟨hinv, fun ok slept hwait x hx => h.own ok slept hwait x ?_, h.matched⟩
    rcases hx with hx | hx
    · rcases mem_append.mp hx with hx | hx
      · exact .inl hx
      · exact .inr (mem_singleton.mp hx ▸ hc)
    · exact .inr (mem_of_mem_erase hx)

/-! ### Runs -/

/-- **A stale interrupt is consumed.** In a wait whose oldest interrupt is that of an
earlier command, the next poll goes wrong. -/
theorem mismatch_of_poll {ok : Prog} {slept c : ℕ} {rest : List ℕ} (h : Inv s)
    (hpc : s.pc = .wait ok slept) (hraised : s.raised = c :: rest) (hc : c + 1 < s.issued) :
    ∃ s', Step s .poll s' ∧ ¬ Matched s' := by
  have hpos : ¬ s.floppyInterrupts ≤ 0 := by
    have := h.count
    rw [hraised, length_cons] at this
    omega
  refine ⟨{ s with
    floppyInterrupts := s.floppyInterrupts - 1, pc := .run ok, raised := rest,
    matched := s.matched ++ [(s.issued - 1, c)] }, ?_, ?_⟩
  · simp only [Step, State.step, hpc, State.poll, if_neg hpos, hraised]
  · intro hmatched
    have := hmatched (s.issued - 1, c) (by simp)
    omega

/-- **A command sent too early** can be answered by the interrupt of an earlier one. -/
theorem mismatch_of_stale {k : Command} {ok : Prog} (h : Inv s)
    (hpc : s.pc = .run (.command k ok)) (hstale : s.fresh (.issue true) = false) :
    ∃ es s', Run Step s (.issue true :: es) s' ∧ ¬ Matched s' := by
  have hissue : Step s (.issue true) (s.issue k ok true) := by
    simp only [Step, State.step, hpc]
  have hinv := h.step hissue
  have hwait : (s.issue k ok true).pc = .wait ok 0 := by simp [State.issue]
  simp only [State.fresh, hpc, decide_eq_false_iff_not, not_and_or, not_or] at hstale
  cases hraised : s.raised with
  | cons c rest =>
    -- an interrupt is there already
    have hc : c + 1 < (s.issue k ok true).issued := by
      have := h.old c (.inl (by simp [hraised]))
      show c + 1 < s.issued + 1
      omega
    obtain ⟨s', hpoll, hbad⟩ := mismatch_of_poll hinv hwait hraised hc
    exact ⟨[.poll], s', run_cons_iff.mpr ⟨_, hissue, .snoc .nil hpoll⟩, hbad⟩
  | nil =>
    -- one of those that may still come does
    have hzero : s.floppyInterrupts = 0 := by
      rw [h.count, hraised]
      rfl
    obtain ⟨hk, hout⟩ := hstale.resolve_left (not_not.mpr hzero)
    obtain ⟨c, hc⟩ := exists_mem_of_ne_nil _ hout
    have hc' : c ∈ (s.issue k ok true).outstanding := by simp [State.issue, hk, hc]
    have hirq : Step (s.issue k ok true) (.irq c) { s.issue k ok true with
        floppyInterrupts := s.floppyInterrupts + 1,
        outstanding := (s.issue k ok true).outstanding.erase c, raised := [c] } := by
      simp only [Step, State.step, if_pos hc', some_inj]
      simp [State.issue, hraised]
    have hlt : c + 1 < s.issued + 1 := by
      have := h.old c (.inr hc)
      omega
    obtain ⟨s', hpoll, hbad⟩ := mismatch_of_poll (hinv.step hirq) hwait rfl hlt
    exact ⟨[.irq c, .poll], s', run_cons_iff.mpr ⟨_, hissue, .snoc (.snoc .nil hirq) hpoll⟩, hbad⟩

/-- **Interrupts are matched to commands** in the runs in which no command is sent while an
interrupt of an earlier one is still to be consumed.  Where one is sent, the wait after it can
be answered by that interrupt. -/
theorem interrupts_matched {es : List Event} (hrun : Run Step booted es s) :
    (Guarded Step (fun s e => s.fresh e = true) booted es → Matched s) ∧
      (∀ k ok, s.pc = .run (.command k ok) → s.fresh (.issue true) = false →
        ∃ es' s', Run Step s (.issue true :: es') s' ∧ ¬ Matched s') := by
  constructor
  · intro hok
    exact (Run.invariant_of_guarded booted_current (fun _ _ _ h hf hs => h.step hf hs) hrun
      hok).matched
  · intro k ok hpc hstale
    have hinv : Inv s := Run.invariant booted_inv (fun _ _ _ h hs => h.step hs) hrun
    exact mismatch_of_stale hinv hpc hstale

/-- A read-id that is answered in time. -/
def answeredRun : List Event := [.start .readId, .issue true, .poll, .irq 0, .poll]

theorem interrupts_matched_answered :
    ∃ s, Run Step booted answeredRun s ∧ s.matched = [(0, 0)] ∧ Matched s := by
  have hrun : Run Step booted answeredRun ⟨0, .run .done, 1, [], [], [(0, 0)]⟩ :=
    run_iff_foldlM.mpr (by decide)
  refine ⟨_, hrun, rfl, (interrupts_matched hrun).1 ?_⟩
  exact guarded_of_take (by decide)

/-- A seek times out, `handle_cylinder` goes on with the recalibration of `detect_media`,
and the interrupt of the seek comes. -/
def lateRun : List Event :=
  [.start (.seek 10), .issue true] ++ List.replicate 200 .poll ++
    [.ret, .start .recalibrate, .issue true, .irq 0, .poll]

theorem late_seek_taken_for_recalibrate :
    ∃ s, Run Step booted lateRun s ∧ s.matched = [(1, 0)] ∧ ¬ Matched s := by
  refine ⟨⟨0, .run (.either .done (retry .recalibrate 9)), 2, [1], [], [(1, 0)]⟩,
    run_iff_foldlM.mpr (by decide +kernel), rfl, ?_⟩
  intro h
  exact absurd (h (1, 0) (by simp)) (by decide)

end FloppyIrq
