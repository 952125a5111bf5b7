/-
Time (`timer.c`, and `pit_initialize` of `pit.c`).

The timer interrupts a little more often than once a millisecond, and `do_timer`
counts a little more than one millisecond each time.

* `uptime_exact` — the value of the clock after any number of ticks;
* `clock_drift_iff` — it is within two milliseconds of the real time for the first
  6567 ticks, and not later.
-/
import Minima.Sched
import Mathlib.Algebra.Order.Ring.Abs
import Mathlib.Data.Rat.Cast.Order
import Mathlib.Tactic.Linarith

namespace Sched

open List

/-! ### The clock -/

/-- What `pit_initialize` writes, as ports and bytes. -/
def pitInitialize : List (ℕ × ℕ) :=
  let reload := 1193
  [(0x43, 0b00110100), (0x40, reload &&& 0xFF), (0x40, (reload &&& 0xFF00) >>> 8)]

/-- The reload value of channel 0 after these writes, low byte first. -/
def reloadValue (writes : List (ℕ × ℕ)) : ℕ :=
  ((writes.filter (·.1 = 0x40)).map Prod.snd).foldr (fun byte rest => byte + 256 * rest) 0

/-- The milliseconds in which the PIT, at 3579545/3 Hz, interrupts `n` times. -/
def elapsedMs (n : ℕ) : ℚ := n * (reloadValue pitInitialize * 3 * 1000 / 3579545)

namespace State

variable {s s' : State} {n fuel : ℕ}

/-- The variables of the clock. -/
def clock (s : State) : ℕ × ℕ × ℕ := (s.systemUptimeMs, s.irq0Fractions, s.irq0FractionsPrev)

theorem clock_postReaper (s : State) : s.postReaper.clock = s.clock := by
  rw [postReaper]
  cases s.reaperWaiters with
  | nil => rfl
  | cons waiter ws => rfl

theorem clock_updateTaskState (s : State) (t ms : ℕ) :
    (s.updateTaskState t ms).clock = s.clock := by
  rw [updateTaskState]
  split
  · split <;> exact clock_postReaper (s.setState t .stopping)
  · split <;> rfl

theorem clock_scan (ms : ℕ) (l : List ℕ) (next : Option ℕ) (m : ℤ) (s : State) :
    (s.scan ms l next m).2.2.clock = s.clock := by
  induction l generalizing next m s with
  | nil => rfl
  | cons t l ih =>
    rw [scan]
    split <;> rw [ih, clock_updateTaskState]

theorem clock_recharge (l : List ℕ) (s : State) : (l.foldl recharge s).clock = s.clock := by
  induction l generalizing s with
  | nil => rfl
  | cons t l ih =>
    rw [foldl_cons, ih, recharge]
    split <;> rfl

theorem clock_findNextRunnable {next : Option ℕ} (h : s.findNextRunnable fuel = some (next, s')) :
    s'.clock = s.clock := by
  induction fuel generalizing s with
  | zero => cases h
  | succ fuel ih =>
    rw [findNextRunnable] at h
    dsimp only at h
    split at h
    · cases h
      exact clock_scan ..
    · rw [ih h, clock_recharge, clock_scan]

theorem clock_doTimer {esp : ℕ} (h : s.doTimer fuel esp = some s') :
    s'.clock = s.advanceClock.clock := by
  rw [doTimer] at h
  split at h
  · cases h
    rfl
  · obtain ⟨⟨next, s1⟩, hnext, hs1⟩ := Option.bind_eq_some_iff.mp h
    have hclock := clock_findNextRunnable hnext
    cases hs1
    rw [← show _ = s.advanceClock.clock from hclock]
    split <;> rfl

/-- The clock after `n` ticks from zero. -/
def clockAt (n : ℕ) : ℕ × ℕ × ℕ :=
  ((n + irq0FractionsPerTick * n / 2 ^ 32) % 2 ^ 32, irq0FractionsPerTick * n % 2 ^ 32,
    irq0FractionsPerTick * n % 2 ^ 32)

/-- The fraction falls below its last value exactly when it has overflowed. -/
theorem clockAt_succ (h : s.clock = clockAt n) : s.advanceClock.clock = clockAt (n + 1) := by
  simp only [clock, clockAt, irq0FractionsPerTick, Prod.mk.injEq] at h
  obtain ⟨hms, hfrac, hprev⟩ := h
  obtain ⟨q, r, hr, hn⟩ : ∃ q r, r < 2 ^ 32 ∧ 654025 * n = 2 ^ 32 * q + r :=
    ⟨_, _, Nat.mod_lt _ (by decide), (Nat.div_add_mod _ _).symm⟩
  rw [hn, Nat.mul_add_mod, Nat.mod_eq_of_lt hr] at hfrac hprev
  rw [hn, Nat.mul_add_div (by decide), Nat.div_eq_of_lt hr] at hms
  have hnext : 654025 * (n + 1) = 2 ^ 32 * q + (654025 + r) := by omega
  simp only [clock, clockAt, advanceClock, irq0FractionsPerTick, hms, hfrac, hprev, hnext,
    Prod.mk.injEq, Nat.mul_add_mod, and_true]
  rw [Nat.mul_add_div (by decide)]
  by_cases hover : 654025 + r < 2 ^ 32
  · rw [Nat.mod_eq_of_lt hover, Nat.div_eq_of_lt hover, if_neg (by omega)]
    omega
  · rw [if_pos (by omega), show (654025 + r) / 2 ^ 32 = 1 by omega]
    omega

theorem clock_timerTicks {esp : ℕ → ℕ → ℕ} {k m : ℕ} {l : List ℕ} (h0 : s.clock = clockAt m)
    (h : timerTicks fuel esp k n s = some (l, s')) : s'.clock = clockAt (m + n) := by
  induction n generalizing s k m l with
  | zero =>
    cases h
    exact h0
  | succ n ih =>
    obtain ⟨s1, hs1, h⟩ := Option.bind_eq_some_iff.mp h
    obtain ⟨⟨l', s2⟩, hs2, h⟩ := Option.bind_eq_some_iff.mp h
    cases h
    rw [ih ((clock_doTimer hs1).trans (clockAt_succ h0)) hs2, Nat.add_right_comm, Nat.add_assoc]

end State

/-- **The clock is exact**: each carry of the fraction is counted once. -/
theorem uptime_exact {s s' : State} {fuel n : ℕ} {esp : ℕ → ℕ → ℕ} {l : List ℕ}
    (hboot : s.clock = (0, 0, 0)) (hrun : timerTicks fuel esp 0 n s = some (l, s')) :
    s'.irq0Fractions = n * 654025 % 2 ^ 32 ∧ s'.irq0FractionsPrev = s'.irq0Fractions ∧
      s'.systemUptimeMs = (n + n * 654025 / 2 ^ 32) % 2 ^ 32 := by
  have h := State.clock_timerTicks (m := 0) hboot hrun
  simp only [State.clock, State.clockAt, State.irq0FractionsPerTick, Nat.zero_add, Prod.mk.injEq,
    Nat.mul_comm 654025] at h
  obtain ⟨hms, hfrac, hprev⟩ := h
  exact ⟨hfrac, hprev.trans hfrac.symm, hms⟩

theorem uptime_exact_three : ∃ l s', timerTicks 1 (fun _ _ => 0) 0 3 twoTasks = some (l, s') ∧
    s'.irq0Fractions = 3 * 654025 % 2 ^ 32 := by
  obtain ⟨⟨l, s'⟩, hrun⟩ : ∃ r, timerTicks 1 (fun _ _ => 0) 0 3 twoTasks = some r := ⟨_, rfl⟩
  exact ⟨l, s', hrun, (uptime_exact rfl hrun).1⟩

theorem drift_clockAt_iff {n : ℕ} (hn : n < 2 ^ 32) :
    |((State.clockAt n).1 : ℚ) - elapsedMs n| < 2 ↔ n ≤ 6567 := by
  obtain ⟨ms, hms⟩ : ∃ ms, (n + 654025 * n / 4294967296) % 4294967296 = ms := ⟨_, rfl⟩
  have helapsed : elapsedMs n = n * (3579000 / 3579545) := by
    rw [elapsedMs, show reloadValue pitInitialize = 1193 by decide]
    norm_num
  -- both sides as integers
  have habs : |(ms : ℚ) - elapsedMs n| < 2 ↔ 3579545 * (ms : ℤ) < 3579000 * n + 7159090 ∧
      3579000 * (n : ℤ) < 3579545 * ms + 7159090 := by
    rw [helapsed, abs_lt, and_comm, ← @Int.cast_lt ℚ, ← @Int.cast_lt ℚ]
    push_cast
    refine and_congr ⟨fun h => ?_, fun h => ?_⟩ ⟨fun h => ?_, fun h => ?_⟩ <;> linarith
  rw [show (State.clockAt n).1 = ms from hms, habs]
  obtain ⟨q, hq⟩ : ∃ q, 654025 * n / 4294967296 = q := ⟨_, rfl⟩
  have hfew : n ≤ 6567 → q ≤ 1 := by omega
  have hmany : 6567 < n → 1 ≤ q ∧ q ≤ 654024 := by omega
  rw [hq] at hms
  clear hq habs
  by_cases hwrap : n + q < 4294967296
  · rw [Nat.mod_eq_of_lt hwrap] at hms
    omega
  · -- after the wrap the clock is far behind
    have hsmall : ms < 654024 := by omega
    omega

/-- **The clock drifts.**  After `n` calls of `do_timer` from boot, the clock is within two
milliseconds of the real time exactly if `n` is at most 6567. -/
theorem clock_drift_iff {s s' : State} {fuel n : ℕ} {esp : ℕ → ℕ → ℕ} {l : List ℕ}
    (hboot : s.clock = (0, 0, 0)) (hn : n < 2 ^ 32)
    (hrun : timerTicks fuel esp 0 n s = some (l, s')) :
    |(s'.systemUptimeMs : ℚ) - elapsedMs n| < 2 ↔ n ≤ 6567 := by
  have hms := congrArg Prod.fst (State.clock_timerTicks (m := 0) hboot hrun)
  rw [Nat.zero_add] at hms
  rw [← drift_clockAt_iff hn, ← hms]
  rfl

theorem clock_drift_iff_three : ∃ l s', timerTicks 1 (fun _ _ => 0) 0 3 twoTasks = some (l, s') ∧
    (|(s'.systemUptimeMs : ℚ) - elapsedMs 3| < 2 ↔ 3 ≤ 6567) := by
  obtain ⟨⟨l, s'⟩, hrun⟩ : ∃ r, timerTicks 1 (fun _ _ => 0) 0 3 twoTasks = some r := ⟨_, rfl⟩
  exact ⟨l, s', hrun, clock_drift_iff rfl (by decide) hrun⟩

/-- A task that has enough ticks left. -/
def longSlice : State :=
  { twoTasks with
    tasks := fun _ => ⟨0xD0042F80, 0xD0041000, 0, .runnable, 6569, 6569⟩
    runqueue := [] }

/-- After 6568 ticks the clock is more than two milliseconds ahead. -/
theorem clock_two_ms_ahead : ∃ l s', timerTicks 1 (fun _ _ => 0) 0 6568 longSlice = some (l, s') ∧
    s'.systemUptimeMs = 6569 ∧ ¬|(s'.systemUptimeMs : ℚ) - elapsedMs 6568| < 2 := by
  have hready : Ready [] (fun _ => 0) (fun _ => 0) longSlice := ⟨rfl, by simp⟩
  obtain ⟨s', hrun, -⟩ := countdown 1 (fun _ _ => 0) 0 hready rfl (by decide)
  have hms := congrArg Prod.fst (State.clock_timerTicks (m := 0) rfl hrun)
  change s'.systemUptimeMs = (State.clockAt 6568).1 at hms
  refine ⟨_, s', hrun, hms.trans (by decide), ?_⟩
  rw [hms, drift_clockAt_iff (by decide)]
  decide

end Sched
