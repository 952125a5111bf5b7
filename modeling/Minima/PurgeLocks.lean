/-
The order in which the purge interface takes its locks.

`purgeable_purge` takes `s_list` and then the lock of one region after the
other; `purgeable_free` takes the lock of its region and then `s_list`.

* `purge_deadlock_free` — there is no deadlock in the runs in which no
  `purgeable_free` waits for `s_list` while a purge holds it, and tasks that hold
  a region do nothing but put it back;
* `free_purge_deadlock` — one call of each is enough for a deadlock.
-/
import Minima.PurgeProtocol
import Minima.Deadlock
import Mathlib.Data.Fintype.Basic
import Mathlib.Data.Prod.Lex
import Mathlib.Order.WithBot

namespace Purge

open Function

variable {Tid : Type} {α : Type} [Preorder α] {ord : ℕ → α}
  {g g' : Shared} {l l' : Local} {i : Input} {s s' : State Tid} {e : Event Tid}

/-! ### Waiting and holding -/

/-- The semaphore a task is about to take. -/
def Pc.pends : Pc → Option Sem
  | .allocPend _ | .freePendList _ | .purge _ _ _ .pend => some .list
  | .getPend r | .freePend r | .purge _ _ _ (.memPend r _) => some (.region r)
  | _ => none

/-- A purge that holds `s_list`. -/
def Pc.purging : Pc → Bool
  | .purge _ _ _ .pend => false
  | .purge _ _ _ _ => true
  | _ => false

/-- A task that holds `s_list`. -/
def Pc.holdsList : Pc → Bool
  | .allocLink _ | .allocPost _ | .freeUnlink _ | .freePost _ => true
  | c => c.purging

/-- `purgeable_free` between its two locks. -/
def Pc.freeing : Pc → Bool
  | .freePendList _ => true
  | _ => false

/-- Task `t` is blocked in `sem_pend(x)`. -/
def Blocked (s : State Tid) (t : Tid) (x : Sem) : Prop :=
  (s.tasks t).pc.pends = some x ∧ s.shared.count x = 0

/-- Task `t` has taken `x` and not released it. -/
def Holds (s : State Tid) (t : Tid) : Sem → Prop
  | .list => (s.tasks t).pc.holdsList = true
  | .region r => r ∈ (s.tasks t).held

/-- The condition on the steps, for some order of the regions: a task that holds regions gets or
frees a smaller one only, and neither allocates nor purges; the `kmalloc` of `purgeable_get` does
not purge; `purgeable_free` does not take the lock of its region while a purge holds `s_list`, nor
a purge `s_list` while a `purgeable_free` is between its locks; and `purgeable_get` and
`purgeable_put` find what they look for. -/
def Orderly (ord : ℕ → α) (s : State Tid) : Event Tid → Prop
  | .task t (.get r) | .task t (.free r) => ∀ q ∈ (s.tasks t).mine, ord r < ord q.1
  | .task t (.alloc _) | .task t (.purge _) => (s.tasks t).mine = []
  | .task t .pressure => (s.tasks t).pc.regions = []
  | .task t .run =>
    match (s.tasks t).pc with
    | .getReturn r _ => s.shared.buf r ≠ none
    | .putScan _ _ none => False
    | .putScan r ptr (some c) => c ∈ s.shared.order ∧ (s.shared.buf c = some ptr → c = r)
    | .freePend _ => ∀ u, (s.tasks u).pc.purging = false
    | .purge _ _ _ .pend => ∀ u, (s.tasks u).pc.freeing = false
    | _ => True
  | _ => True

/-- The places where a task holds no region that it got before. -/
def Pc.empty : Pc → Bool
  | .allocKmalloc _ | .allocPend _ | .allocLink _ | .allocPost _ | .purge _ _ _ _ => true
  | _ => false

/-- What a task may be doing in such a run. -/
structure Tidy (ord : ℕ → α) (l : Local) : Prop where
  lost : l.lost = []
  empty : l.pc.empty = true → l.mine = []
  ordered : ∀ r, l.pc = .getPend r ∨ l.pc = .freePend r → ∀ q ∈ l.mine, ord r < ord q.1
  put : ∀ r found, l.pc = .putPost r found → found = r
  caller : ∀ r w bytes total p, l.pc ≠ .purge (.get r w) bytes total p

/-! ### One step -/

variable {k : Caller} {bytes total : ℕ} {p : PurgePc} {c : Pc}

theorem PurgeMove.caller (h : PurgeMove g k bytes total p g' c) :
    (∃ total p, c = .purge k bytes total p) ∨ c = k.return := by
  cases h with
  | done => exact .inr rfl
  | _ => exact .inl ⟨_, _, rfl⟩

theorem PurgeMove.tidy (h : PurgeMove g k bytes total p g' c) (hpc : l.pc = .purge k bytes total p)
    (hl : Tidy ord l) : Tidy ord (l.goto c) := by
  have hmine : l.mine = [] := hl.empty (by rw [hpc]; rfl)
  have hk : ∀ r w, k ≠ .get r w := fun r w hk => hl.caller r w _ _ _ (hk ▸ hpc)
  obtain ⟨total', p', rfl⟩ | rfl := h.caller
  · exact ⟨hl.lost, fun _ => hmine, by simp, by simp, fun r w _ _ _ hc => hk r w (by cases hc; rfl)⟩
  · cases k with
    | get r w => exact absurd rfl (hk r w)
    | user => exact ⟨hl.lost, fun _ => hmine, by simp [Caller.return], by simp [Caller.return],
        by simp [Caller.return]⟩
    | alloc bytes => exact ⟨hl.lost, fun _ => hmine, by simp [Caller.return],
        by simp [Caller.return], by simp [Caller.return]⟩

theorem Move.tidy {t : Tid} (h : Move s.shared (s.tasks t) i g' l') (hl : Tidy ord (s.tasks t))
    (hok : Orderly ord s (.task t i)) : Tidy ord l' := by
  obtain ⟨hlost, hempty, hord, hput, hcaller⟩ := id hl
  cases h with
  | callAlloc _ | callPurge _ => exact ⟨hlost, fun _ => hok, by simp, by simp, by simp⟩
  | callGet _ _ | callFree _ _ =>
    exact ⟨hlost, by simp [Pc.empty], by simpa [Orderly] using hok, by simp, by simp⟩
  | callPut _ _ | getReturn _ _ => exact ⟨hlost, by simp [Pc.empty], by simp, by simp, by simp⟩
  | write hpc _ => exact hl
  | getNull hpc hb =>
    simp only [Orderly, hpc] at hok
    exact absurd hb hok
  | putMiss hpc => simp only [Orderly, hpc] at hok
  | putWild hpc hc =>
    simp only [Orderly, hpc] at hok
    exact absurd hok.1 hc
  | putFound hpc _ hb =>
    simp only [Orderly, hpc] at hok
    exact ⟨hlost, by simp [Pc.empty], by simp, by simpa using hok.2 hb, by simp⟩
  | putPost hpc =>
    refine ⟨?_, by simp [Pc.empty], by simp, by simp, by simp⟩
    simpa only [if_pos (hput _ _ hpc)] using hlost
  | pressureGet hpc =>
    simp only [Orderly, hpc, Pc.regions] at hok
    cases hok
  | purge hpc hp => exact hp.tidy hpc hl
  | allocPend hpc _ | kmallocAlloc hpc _ =>
    exact ⟨hlost, fun _ => hempty (by rw [hpc]; rfl), by simp, by simp, by simp⟩
  | allocLink hpc | allocPost hpc | pressureAlloc hpc =>
    exact ⟨hlost, fun _ => hempty (by rw [hpc]; rfl), by simp, by simp, by simp⟩
  | getPend | getFlag | getMissing | getPresent | getStore | kmallocGet | putNext | freePend
  | freePendList | freeUnlink | freePost | freeKfree =>
    exact ⟨hlost, by simp [Pc.empty], by simp, by simp, by simp⟩

theorem Move.purging (h : Move g l i g' l') (hp : l'.pc.purging = true) :
    l.pc.purging = true ∨ (i = .run ∧ ∃ k bytes total, l.pc = .purge k bytes total .pend) := by
  cases h with
  | @purge k bytes total p g' c hpc hpm =>
    cases hpm with
    | pend _ => exact .inr ⟨rfl, k, bytes, total, hpc⟩
    | done => cases k <;> simp [Caller.return, Pc.purging] at hp
    | _ => exact .inl (by simp [hpc, Pc.purging])
  | write hpc _ => exact .inl hp
  | _ => simp [Pc.purging] at hp

theorem Move.freeing (h : Move g l i g' l') (hf : l'.pc.freeing = true) :
    i = .run ∧ ∃ r, l.pc = .freePend r := by
  cases h with
  | @purge k bytes total p g' c hpc hpm =>
    cases hpm with
    | done => cases k <;> simp [Caller.return, Pc.freeing] at hf
    | _ => simp [Pc.freeing] at hf
  | write hpc _ => simp [hpc, Pc.freeing] at hf
  | freePend hpc _ => exact ⟨rfl, _, hpc⟩
  | _ => simp [Pc.freeing] at hf

/-! ### Every run -/

/-- The invariant of such runs. -/
structure LocksInv (ord : ℕ → α) (s : State Tid) : Prop where
  tidy : ∀ t, Tidy ord (s.tasks t)
  apart : ∀ t u, (s.tasks t).pc.freeing = true → (s.tasks u).pc.purging = false

variable {x : Sem}

/-- A task that is blocked and holds a region is in `purgeable_free`, between its
two locks, or wants a smaller region. -/
theorem Tidy.blocked_region (h : Tidy ord l) {q : ℕ} (hx : l.pc.pends = some x) (hq : q ∈ l.held) :
    (∃ r, l.pc = .freePendList r) ∨
      ∃ r, (l.pc = .getPend r ∨ l.pc = .freePend r) ∧ ord r < ord q := by
  rw [Local.held, h.lost] at hq
  cases hpc : l.pc with
  | freePendList r => exact .inl ⟨r, rfl⟩
  | getPend r | freePend r =>
    refine .inr ⟨r, by simp, ?_⟩
    have hord := h.ordered r (by simp [hpc])
    simp only [hpc, Pc.regions, List.append_nil, List.mem_map] at hq
    obtain ⟨m, hm, rfl⟩ := hq
    exact hord m hm
  | allocPend r =>
    rw [hpc, h.empty (by rw [hpc]; rfl)] at hq
    simp [Pc.regions] at hq
  | purge k bytes total p =>
    rw [hpc, h.empty (by rw [hpc]; rfl)] at hq
    rw [hpc] at hx
    cases k with
    | get r w => exact absurd hpc (h.caller r w bytes total p)
    | _ => cases p <;> simp [Pc.regions, Caller.regions, PurgePc.regions, Pc.pends] at hq hx
  | _ => simp [hpc, Pc.pends] at hx

theorem blocked_list (hx : l.pc.pends = some x) (hl : l.pc.holdsList = true) :
    ∃ k bytes total r rest, l.pc = .purge k bytes total (.memPend r rest) := by
  cases hpc : l.pc with
  | purge k bytes total p =>
    rw [hpc] at hx hl
    cases p with
    | memPend r rest => exact ⟨k, bytes, total, r, rest, rfl⟩
    | _ => simp [Pc.pends, Pc.holdsList, Pc.purging] at hx hl
  | _ => simp_all [Pc.pends, Pc.holdsList, Pc.purging]

/-- Who may wait for whom: a `purgeable_free` between its locks for nobody, a task
that wants a region for one that wants a smaller region, a purge at the lock of a
region for any of these, and who wants `s_list` for that purge. -/
def Pc.rank (ord : ℕ → α) : Pc → ℕ ×ₗ WithBot α
  | .freePendList _ => toLex (0, ⊥)
  | .getPend r | .freePend r => toLex (1, (ord r : WithBot α))
  | .purge _ _ _ (.memPend _ _) => toLex (2, ⊥)
  | _ => toLex (3, ⊥)

theorem LocksInv.no_cycle (h : LocksInv ord s) : ¬ Deadlock.Cycle (Blocked s) (Holds s) := by
  refine Deadlock.no_cycle_of_rank (fun t => (s.tasks t).pc.rank ord) ?_
  rintro t u ⟨x, ⟨hx, -⟩, hholds⟩ ⟨y, hy, -⟩
  cases x with
  | list =>
    obtain ⟨k, bytes, total, q, rest, hpc⟩ := blocked_list hy hholds
    have hpurging : (s.tasks u).pc.purging = true := by rw [hpc]; rfl
    have ht : (s.tasks t).pc.rank ord = toLex (3, ⊥) := by
      cases hpt : (s.tasks t).pc with
      | freePendList r => simp [h.apart t u (by rw [hpt]; rfl)] at hpurging
      | purge k bytes total p => cases p <;> simp_all [Pc.pends, Pc.rank]
      | _ => simp_all [Pc.pends, Pc.rank]
    simp only [ht]
    simp [hpc, Pc.rank, Prod.Lex.toLex_lt_toLex]
  | region q =>
    have ht : (s.tasks t).pc.rank ord = toLex (1, (ord q : WithBot α)) ∨
        (s.tasks t).pc.rank ord = toLex (2, ⊥) := by
      cases hpt : (s.tasks t).pc with
      | purge k bytes total p => cases p <;> simp_all [Pc.pends, Pc.rank]
      | _ => simp_all [Pc.pends, Pc.rank]
    obtain ⟨r, hpc⟩ | ⟨r, hpc | hpc, hlt⟩ := (h.tidy u).blocked_region hy hholds <;>
      rcases ht with ht | ht <;> simp only [ht] <;>
      simp_all [Pc.rank, Prod.Lex.toLex_lt_toLex]

variable [DecidableEq Tid]

theorem LocksInv.step (h : LocksInv ord s) (hok : Orderly ord s e) (hstep : Step s e s') :
    LocksInv ord s' := by
  obtain ⟨t, i, g', l', rfl, hmove, rfl⟩ | ⟨a, v, rfl, -, rfl⟩ := step_cases hstep
  · refine ⟨fun u => ?_, fun u v hu => ?_⟩
    · by_cases hut : u = t
      · subst hut
        simpa only [update_self] using hmove.tidy (h.tidy u) hok
      · simpa only [update_of_ne hut] using h.tidy u
    · -- the last of the two to come into its section did so against the condition
      rw [Bool.eq_false_iff]
      intro hv
      by_cases hut : u = t
      · subst hut
        simp only [update_self] at hu
        obtain ⟨rfl, r, hpc⟩ := hmove.freeing hu
        simp only [Orderly, hpc] at hok
        by_cases hvu : v = u
        · subst hvu
          simp only [update_self] at hv
          rcases hmove.purging hv with hold | ⟨-, k, bytes, total, hpc'⟩
          · simp [hpc, Pc.purging] at hold
          · rw [hpc] at hpc'
            cases hpc'
        · simp only [update_of_ne hvu] at hv
          simp [hok v] at hv
      · simp only [update_of_ne hut] at hu
        by_cases hvt : v = t
        · subst hvt
          simp only [update_self] at hv
          rcases hmove.purging hv with hold | ⟨rfl, k, bytes, total, hpc⟩
          · simp [h.apart u v hu] at hold
          · simp only [Orderly, hpc] at hok
            simp [hok u] at hu
        · simp only [update_of_ne hvt] at hv
          simp [h.apart u v hu] at hv
  · exact ⟨h.tidy, h.apart⟩

/-- Nobody is inside the interface or holds a region. -/
def Quiet (s : State Tid) : Prop := ∀ t, s.tasks t = ⟨.idle, [], []⟩

/-- **No deadlock** in the runs all of whose steps meet the condition. -/
theorem purge_deadlock_free {s0 s : State Tid} {es : List (Event Tid)} (h0 : Quiet s0)
    (hrun : Run Step s0 es s) (hok : Guarded Step (Orderly ord) s0 es) :
    ¬ Deadlock.Cycle (Blocked s) (Holds s) := by
  have hinv : LocksInv ord s0 := by
    refine ⟨fun t => ?_, fun t u ht => ?_⟩
    · rw [h0 t]
      exact ⟨rfl, by simp, by simp, by simp, by simp⟩
    · rw [h0 t] at ht
      cases ht
  exact (Run.invariant_of_guarded hinv (fun _ _ _ h hok hstep => h.step hok hstep) hrun
    hok).no_cycle

instance (s : State Bool) (e : Event Bool) : Decidable (Orderly (id : ℕ → ℕ) s e) := by
  unfold Orderly
  split
  · infer_instance
  · infer_instance
  · infer_instance
  · infer_instance
  · infer_instance
  · split <;> infer_instance
  · infer_instance

/-- One task gets region 2 and then region 1, and the other one waits in a purge
until both are put back. -/
def nestedGets : List (Event Bool) :=
  [.task true (.get 2)] ++ runs true 4 ++ [.task true (.get 1)] ++ runs true 4 ++
    [.task false (.purge 0)] ++ runs false 2

theorem purge_deadlock_free_nested :
    ∃ s, Run Step twoRegions nestedGets s ∧ Blocked s false (.region 1) ∧
      ¬ Deadlock.Cycle (Blocked s) (Holds s) := by
  have hsome : (nestedGets.foldlM State.step twoRegions).map
      (fun s => ((s.tasks false).pc.pends, s.shared.count (.region 1))) =
        some (some (.region 1), 0) := by decide +kernel
  obtain ⟨s, hs, hblocked⟩ := Option.map_eq_some_iff.mp hsome
  rw [Prod.mk.injEq] at hblocked
  have hrun : Run Step twoRegions nestedGets s := run_iff_foldlM.mpr hs
  have hok : Guarded Step (Orderly (id)) twoRegions nestedGets :=
    guarded_of_take (by decide +kernel)
  exact ⟨s, hrun, hblocked, purge_deadlock_free (fun _ => rfl) hrun hok⟩

/-- A purge has taken `s_list` and a free the lock of the first region. -/
def freeDuringPurge : List (Event Bool) :=
  [.task true (.purge 0)] ++ runs true 2 ++ [.task false (.free 1)] ++ runs false 1

/-- **A purge and a free that wait for each other.** -/
theorem free_purge_deadlock :
    Quiet twoRegions ∧ ∃ s, Run Step twoRegions freeDuringPurge s ∧
      Deadlock.Cycle (Blocked s) (Holds s) := by
  have hsome : (freeDuringPurge.foldlM State.step twoRegions).map
      (fun s => ((s.tasks true).pc, (s.tasks false).pc, s.shared.count .list,
        s.shared.count (.region 1))) =
        some (.purge .user 0 0 (.memPend 1 [2]), .freePendList 1, 0, 0) := by decide +kernel
  obtain ⟨s, hs, hpc⟩ := Option.map_eq_some_iff.mp hsome
  simp only [Prod.mk.injEq] at hpc
  obtain ⟨hpurge, hfree, hlist, hregion⟩ := hpc
  refine ⟨fun _ => rfl, s, run_iff_foldlM.mpr hs, true, ?_⟩
  have hregionWait : Deadlock.WaitsFor (Blocked s) (Holds s) true false :=
    ⟨.region 1, ⟨by rw [hpurge]; rfl, hregion⟩, by simp [Holds, Local.held, hfree, Pc.regions]⟩
  have hlistWait : Deadlock.WaitsFor (Blocked s) (Holds s) false true :=
    ⟨.list, ⟨by rw [hfree]; rfl, hlist⟩, by rw [Holds, hpurge]; rfl⟩
  exact .tail (.single hregionWait) hlistWait

end Purge
