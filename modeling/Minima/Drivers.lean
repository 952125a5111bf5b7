/-
Driver loading (`drv.c`).

The drivers register themselves on one list.  `driver_init` walks that list and
probes the drivers whose dependencies have been initialised; the others it moves
to the end of the list it is walking, with the next node already saved.

* `driverInit` — the two loops of the source, on the links of the three lists;
* `Queue.run` — the same without links: a driver that is put off goes to the end of
  a queue, and the loop ends when it has visited a driver that was alone in it;
* `loadLoop_agree` — the loop over the links does what the queue does;
* `driver_init_correct_iff` — every driver is treated as it should be exactly if the
  drivers that are needed can all be initialised in some order, except for probes
  that nobody depends on, and at most one driver is not needed.
-/
import Mathlib.Data.Set.Finite.List
import Mathlib.Order.WellFoundedSet
import Minima.Ilist
import Minima.Memory

open Function

namespace Drivers

open List

variable {Name : Type}

section Source

variable [DecidableEq Name]

/-! ### The source -/

/-- The registered drivers in the order of their registration, known by their
names, and the fields of their `struct driver`; `probe` is what the driver's `probe`
returns if it is called. -/
structure Registry (Name : Type) where
  drivers : List Name
  nodup : drivers.Nodup
  deps : Name → List Name
  onDemand : Name → Bool
  probe : Name → ℤ

/-- `g_drivers`, `g_drivers_initialized` and `g_drivers_failed` -/
inductive Head
  | drivers
  | initialized
  | failed
  deriving DecidableEq

/-- The nodes of the lists: their heads, and the linkage of each driver. -/
inductive Node (Name : Type)
  | head (l : Head)
  | driver (d : Name)
  deriving DecidableEq

/-- What `driver_init` prints. -/
inductive Message (Name : Type)
  /-- `"Failed to load driver '%s'\n"` -/
  | failedToLoad (d : Name)
  /-- `"Failed to load driver '%s', missing dependencies: "`, and their names -/
  | missingDependencies (d : Name) (deps : List Name)
  deriving DecidableEq

/-- The links, the `on_demand` fields and the console.  `attempted` and `probed` record
the calls of `deps_loaded` and of the `probe` functions. -/
structure State (Name : Type) where
  links : Ilist (Node Name)
  onDemand : Name → Bool
  console : List (Message Name)
  attempted : List Name
  probed : List Name

/-- `find`; no list has more nodes than there are drivers. -/
def find (r : Registry Name) (s : State Name) (name : Name) (l : Head) :
    Except Fault (Option Name) :=
  match s.links.find (· = .driver name) (.head l) (r.drivers.length + 1)
    (s.links.next (.head l)) with
  | none => .error .diverged
  | some none => .ok none
  | some (some _) => .ok (some name)

/-- The loop of `deps_loaded`, over the dependencies still to be looked at. -/
def depsLoadedFrom (r : Registry Name) (s : State Name) :
    List Name → Except Fault (Bool × State Name)
  | [] => .ok (true, s)
  | depname :: rest => do
    match ← find r s depname .initialized with
    | some _ => depsLoadedFrom r s rest
    | none =>
      match ← find r s depname .drivers with
      | none => .error .nullPointer
      | some dep => .ok (false, { s with onDemand := update s.onDemand dep false })

/-- `deps_loaded` -/
def depsLoaded (r : Registry Name) (s : State Name) (d : Name) :
    Except Fault (Bool × State Name) :=
  depsLoadedFrom r { s with attempted := s.attempted ++ [d] } (r.deps d)

/-- `v_ilist_prepend(&d->linkage, l)` -/
def State.prepend (s : State Name) (d : Name) (l : Head) : State Name :=
  { s with links := s.links.prepend (.driver d) (.head l) }

/-- The call of `d->probe`, and what becomes of the driver. -/
def callProbe (r : Registry Name) (s : State Name) (d : Name) : State Name :=
  let s := { s with probed := s.probed ++ [d] }
  if r.probe d ≠ 0 then
    let s := { s with console := s.console ++ [Message.failedToLoad d] }
    s.prepend d .failed
  else s.prepend d .initialized

/-- The body of the first loop of `driver_init`. -/
def load (r : Registry Name) (s : State Name) (d : Name) : Except Fault (State Name) := do
  let s := { s with links := s.links.remove (.driver d) }
  if s.onDemand d then return s.prepend d .drivers
  let (loaded, s) ← depsLoaded r s d
  if loaded then return callProbe r s d
  return s.prepend d .drivers

/-- The first loop of `driver_init`, a `v_ilist_for_each_safe`, for at most `fuel`
iterations.  `temp` is the node to come after `node`, read before the body runs. -/
def loadLoop (r : Registry Name) :
    ℕ → State Name → Node Name → Node Name → Except Fault (State Name)
  | _, s, .head .drivers, _ => .ok s
  | fuel + 1, s, .driver d, temp => do
    let s ← load r s d
    loadLoop r fuel s temp (s.links.next temp)
  | _, _, _, _ => .error .diverged

/-- The names that the second loop prints: those dependencies that have failed. -/
def failedDeps (r : Registry Name) (s : State Name) : List Name → Except Fault (List Name)
  | [] => .ok []
  | depname :: rest => do
    let found ← find r s depname .failed
    let names ← failedDeps r s rest
    return found.toList ++ names

/-- The body of the second loop of `driver_init`. -/
def giveUp (r : Registry Name) (s : State Name) (d : Name) : Except Fault (State Name) := do
  let s := { s with links := s.links.remove (.driver d) }
  if s.onDemand d then return s
  let names ← failedDeps r s (r.deps d)
  let s := { s with console := s.console ++ [Message.missingDependencies d names] }
  return s.prepend d .failed

/-- The second loop of `driver_init`. -/
def giveUpLoop (r : Registry Name) :
    ℕ → State Name → Node Name → Node Name → Except Fault (State Name)
  | _, s, .head .drivers, _ => .ok s
  | fuel + 1, s, .driver d, temp => do
    let s ← giveUp r s d
    giveUpLoop r fuel s temp (s.links.next temp)
  | _, _, _, _ => .error .diverged

/-- `register_driver` of all drivers, on the three lists as `V_ILIST` declares them. -/
def Registry.registered (r : Registry Name) : State Name where
  links := r.drivers.foldl (fun L d => (L.init (.driver d)).prepend (.driver d) (.head .drivers))
    ⟨id, id⟩
  onDemand := r.onDemand
  console := []
  attempted := []
  probed := []

/-- `driver_init`, with at most `fuel` iterations of the first loop. -/
def driverInit (r : Registry Name) (fuel : ℕ) : Except Fault (State Name) := do
  let s := r.registered
  let node := s.links.next (.head .drivers)
  let s ← loadLoop r fuel s node (s.links.next node)
  let node := s.links.next (.head .drivers)
  giveUpLoop r r.drivers.length s node (s.links.next node)

/-! ### The queue -/

/-- The three lists without their links. -/
structure Queue (Name : Type) where
  pending : List Name
  initialized : List Name
  failed : List Name
  onDemand : Name → Bool
  attempted : List Name
  probed : List Name

/-- The first dependency of `d` that is not initialised. -/
def Queue.missing (r : Registry Name) (q : Queue Name) (d : Name) : Option Name :=
  (r.deps d).find? (!q.initialized.contains ·)

/-- A visit of the driver `d`, with the drivers of `rest` behind it in the queue. -/
def Queue.visit (r : Registry Name) (q : Queue Name) (d : Name) (rest : List Name) :
    Except Fault (Queue Name) :=
  if q.onDemand d then .ok { q with pending := rest ++ [d] }
  else
    match q.missing r d with
    | some dep =>
      if dep ∈ rest then
        .ok { q with
          pending := rest ++ [d], onDemand := update q.onDemand dep false,
          attempted := q.attempted ++ [d] }
      else .error .nullPointer
    | none =>
      let q := { q with
        pending := rest, attempted := q.attempted ++ [d], probed := q.probed ++ [d] }
      if r.probe d ≠ 0 then .ok { q with failed := q.failed ++ [d] }
      else .ok { q with initialized := q.initialized ++ [d] }

/-- The loop over the queue: it ends with a driver that has nothing behind it. -/
def Queue.run (r : Registry Name) : ℕ → Queue Name → Except Fault (Queue Name)
  | 0, q => if q.pending = [] then .ok q else .error .diverged
  | fuel + 1, q =>
    match q.pending with
    | [] => .ok q
    | d :: rest => do
      let q ← q.visit r d rest
      if rest = [] then return q
      run r fuel q

end Source

/-! ### From the links to the queue -/

/-- The links show these lists. -/
structure Shows (L : Ilist (Node Name)) (lists : Head → List Name) : Prop where
  ring : ∀ l, L.Ring (.head l) ((lists l).map .driver)
  disjoint : ∀ l l', l ≠ l' → (lists l).Disjoint (lists l')

variable {r : Registry Name} {s s' : State Name} {L : Ilist (Node Name)}
  {lists : Head → List Name} {l l' : Head} {d e : Name} {q q' : Queue Name} {rest : List Name}

theorem Shows.driver_mem_iff {k : List Name} :
    Node.driver d ∈ Node.head l :: k.map Node.driver ↔ d ∈ k := by
  simp

/-- The three lists of the queue. -/
def Queue.on (q : Queue Name) : Head → List Name
  | .drivers => q.pending
  | .initialized => q.initialized
  | .failed => q.failed

/-- The state on the links is that of the queue. -/
structure Rep (r : Registry Name) (s : State Name) (q : Queue Name) : Prop where
  lists : Shows s.links q.on
  length : q.pending.length + q.initialized.length + q.failed.length = r.drivers.length
  onDemand : s.onDemand = q.onDemand
  attempted : s.attempted = q.attempted
  probed : s.probed = q.probed

/-- Both fail in the same way, or both return, with states that fit. -/
def Agree (r : Registry Name) : Except Fault (State Name) → Except Fault (Queue Name) → Prop
  | .ok s, .ok q => Rep r s q
  | .error e, .error e' => e = e'
  | _, _ => False

theorem Agree.bind {x : Except Fault (State Name)} {y : Except Fault (Queue Name)}
    {f : State Name → Except Fault (State Name)} {g : Queue Name → Except Fault (Queue Name)}
    (h : Agree r x y) (hfg : ∀ s q, y = .ok q → Rep r s q → Agree r (f s) (g q)) :
    Agree r (x >>= f) (y >>= g) := by
  cases x with
  | error e =>
    cases y with
    | error e' => exact h
    | ok q => exact h.elim
  | ok s =>
    cases y with
    | error e' => exact h.elim
    | ok q => exact hfg s q rfl h

theorem update_on_drivers (q : Queue Name) (rest : List Name) :
    update q.on .drivers rest = { q with pending := rest }.on := by
  funext l
  cases l <;> rfl

theorem update_on_initialized (q : Queue Name) (rest : List Name) :
    update q.on .initialized rest = { q with initialized := rest }.on := by
  funext l
  cases l <;> rfl

theorem update_on_failed (q : Queue Name) (rest : List Name) :
    update q.on .failed rest = { q with failed := rest }.on := by
  funext l
  cases l <;> rfl

theorem Shows.ring_disjoint (h : Shows L lists) (hne : l ≠ l') :
    ∀ x ∈ Node.head l :: (lists l).map .driver, x ∉ Node.head l' :: (lists l').map .driver := by
  intro x hx hx'
  cases x with
  | head k =>
    simp only [mem_cons, Node.head.injEq, mem_map, reduceCtorEq, and_false, exists_false,
      or_false] at hx hx'
    exact hne (hx.symm.trans hx')
  | driver d => exact h.disjoint l l' hne (Shows.driver_mem_iff.mp hx) (Shows.driver_mem_iff.mp hx')

theorem Rep.next_drivers (h : Rep r s q) :
    s.links.next (.head .drivers) = (q.pending.map .driver).headD (.head .drivers) :=
  (h.lists.ring .drivers).next_head

theorem Rep.next_first (h : Rep r s q) (hq : q.pending = d :: rest) :
    s.links.next (.driver d) = (rest.map .driver).headD (.head .drivers) := by
  have hring := h.lists.ring .drivers
  rw [Queue.on, hq, map_cons] at hring
  exact hring.next_first

section Links

variable [DecidableEq Name]

namespace Shows

section

variable (h : Shows L lists)
include h

theorem init (hd : ∀ k, d ∉ lists k) :
    Shows (L.init (.driver d)) lists :=
  ⟨fun l => (h.ring l).init_other fun hmem => hd l (driver_mem_iff.mp hmem), h.disjoint⟩

theorem prepend (hd : ∀ k, d ∉ lists k) :
    Shows (L.prepend (.driver d) (.head l)) (update lists l (lists l ++ [d])) := by
  have hd' : ∀ k, Node.driver d ∉ Node.head k :: (lists k).map .driver := by
    intro k hk
    exact hd k (driver_mem_iff.mp hk)
  constructor
  · intro k
    by_cases hk : k = l
    · subst hk
      simpa using (h.ring k).prepend (hd' k)
    · rw [update_of_ne hk]
      exact (h.ring k).prepend_other (h.ring l) (h.ring_disjoint hk) (hd' k)
  · -- `d` is in none of the other lists
    have hnew : ∀ k, k ≠ l → (lists k).Disjoint (lists l ++ [d]) := by
      intro k hk x hx hx'
      rcases mem_append.mp hx' with hx' | hx'
      · exact h.disjoint k l hk hx hx'
      · exact hd k (mem_singleton.mp hx' ▸ hx)
    intro k k' hne
    by_cases hk : k = l
    · subst hk
      rw [update_self, update_of_ne (Ne.symm hne)]
      exact (hnew k' (Ne.symm hne)).symm
    · by_cases hk' : k' = l
      · subst hk'
        rw [update_self, update_of_ne hk]
        exact hnew k hk
      · rw [update_of_ne hk, update_of_ne hk']
        exact h.disjoint k k' hne

theorem remove (hl : lists l = d :: rest) :
    Shows (L.remove (.driver d)) (update lists l rest) ∧ ∀ k, d ∉ update lists l rest k := by
  have hring := h.ring l
  rw [hl, map_cons] at hring
  have hmem : d ∈ lists l := by simp [hl]
  have hdrest : d ∉ rest := by
    intro hd
    have := (nodup_cons.mp hring.nodup).2
    rw [nodup_cons] at this
    exact this.1 (mem_map_of_mem hd)
  have hsub : ∀ x ∈ rest, x ∈ lists l := fun x hx => by simp [hl, hx]
  refine ⟨⟨fun k => ?_, fun k k' hne => ?_⟩, fun k => ?_⟩
  · by_cases hk : k = l
    · subst hk
      rw [update_self]
      rw [← nil_append (List.map _ rest)]
      exact Ilist.Ring.remove hring
    · rw [update_of_ne hk]
      exact (h.ring k).remove_other (h.ring l) (mem_map_of_mem hmem) (h.ring_disjoint hk)
  · by_cases hk : k = l
    · subst hk
      rw [update_self, update_of_ne (Ne.symm hne)]
      exact fun x hx hx' => h.disjoint k k' hne (hsub x hx) hx'
    · by_cases hk' : k' = l
      · subst hk'
        rw [update_self, update_of_ne hk]
        exact fun x hx hx' => h.disjoint k k' hne hx (hsub x hx')
      · rw [update_of_ne hk, update_of_ne hk']
        exact h.disjoint k k' hne
  · by_cases hk : k = l
    · subst hk
      rwa [update_self]
    · rw [update_of_ne hk]
      exact fun hd => h.disjoint k l hk hd hmem

end

theorem find_eq (h : Shows s.links lists) (hlen : (lists l).length ≤ r.drivers.length) :
    find r s d l = .ok (if d ∈ lists l then some d else none) := by
  have hfuel : ((lists l).map Node.driver).length < r.drivers.length + 1 := by
    rw [length_map]
    omega
  have hfind := (h.ring l).find_eq (p := (· = Node.driver d)) hfuel
  unfold find
  rw [hfind]
  by_cases hd : d ∈ lists l
  · obtain ⟨x, hx⟩ : ∃ x, ((lists l).map Node.driver).find? (· = Node.driver d) = some x := by
      rw [← Option.isSome_iff_exists, find?_isSome]
      exact ⟨.driver d, mem_map_of_mem hd, by simp⟩
    rw [hx, if_pos hd]
  · have hnone : ((lists l).map Node.driver).find? (· = Node.driver d) = none := by
      rw [find?_eq_none]
      intro x hx
      obtain ⟨e, he, rfl⟩ := mem_map.mp hx
      simp only [Node.driver.injEq, decide_eq_true_eq]
      rintro rfl
      exact hd he
    rw [hnone, if_neg hd]

end Shows

theorem depsLoadedFrom_eq (h : Shows s.links lists)
    (hlen : ∀ l, (lists l).length ≤ r.drivers.length) (deps : List Name) :
    depsLoadedFrom r s deps =
      match deps.find? (!(lists .initialized).contains ·) with
      | some dep =>
        if dep ∈ lists .drivers then
          .ok (false, { s with onDemand := update s.onDemand dep false })
        else .error .nullPointer
      | none => .ok (true, s) := by
  induction deps with
  | nil => rfl
  | cons dep deps ih =>
    rw [depsLoadedFrom, h.find_eq (hlen .initialized), find?_cons]
    by_cases hinit : dep ∈ lists .initialized
    · have htest : (!(lists .initialized).contains dep) = false := by simp [hinit]
      simp only [hinit, htest, if_true, bind, Except.bind]
      exact ih
    · have htest : (!(lists .initialized).contains dep) = true := by simp [hinit]
      simp only [hinit, htest, if_false, bind, Except.bind, h.find_eq (hlen .drivers)]
      by_cases hdrv : dep ∈ lists .drivers
      · simp [hdrv]
      · simp [hdrv]

theorem load_agree (h : Rep r s q) (hq : q.pending = d :: rest) :
    Agree r (load r s d) (q.visit r d rest) := by
  obtain ⟨L, onDemand, console, attempted, probed⟩ := s
  obtain ⟨hlists, hlength, rfl, rfl, rfl⟩ := h
  obtain ⟨hshows, hd⟩ := hlists.remove (l := .drivers) hq
  rw [update_on_drivers] at hshows hd
  rw [hq, length_cons] at hlength
  have hlen : ∀ l, (({ q with pending := rest }).on l).length ≤ r.drivers.length := by
    intro l
    cases l <;> simp only [Queue.on] <;> omega
  -- put off, the driver goes to the end
  have hback := hshows.prepend (l := .drivers) hd
  rw [update_on_drivers] at hback
  have hbackLen : (rest ++ [d]).length + q.initialized.length + q.failed.length =
      r.drivers.length := by
    rw [length_append, length_singleton]
    omega
  unfold load Queue.visit
  by_cases hdemand : q.onDemand d = true
  · simp only [hdemand, if_true]
    exact ⟨hback, hbackLen, rfl, rfl, rfl⟩
  · simp only [hdemand, if_false, Bool.false_eq_true]
    rw [depsLoaded, depsLoadedFrom_eq hshows hlen]
    simp only [Queue.on, Queue.missing]
    cases (r.deps d).find? (!q.initialized.contains ·) with
    | some dep =>
      by_cases hdep : dep ∈ rest
      · simp only [hdep, if_true]
        exact ⟨hback, hbackLen, rfl, rfl, rfl⟩
      · simp only [hdep, if_false]
        exact rfl
    | none =>
      simp only [bind, Except.bind, pure, Except.pure, if_true, callProbe]
      by_cases hret : r.probe d = 0
      · have hinit := hshows.prepend (l := .initialized) hd
        rw [update_on_initialized] at hinit
        simp only [hret, ne_eq, not_true_eq_false, if_false]
        refine ⟨hinit, ?_, rfl, rfl, rfl⟩
        simp only [length_append, length_singleton]
        omega
      · have hfail := hshows.prepend (l := .failed) hd
        rw [update_on_failed] at hfail
        simp only [hret, ne_eq, not_false_eq_true, if_true]
        refine ⟨hfail, ?_, rfl, rfl, rfl⟩
        simp only [length_append, length_singleton]
        omega

theorem of_missing_eq_some (h : q.missing r d = some e) : e ∈ r.deps d ∧ e ∉ q.initialized :=
  ⟨mem_of_find?_eq_some h, by simpa using find?_some h⟩

theorem of_missing_eq_none (h : q.missing r d = none) : ∀ x ∈ r.deps d, x ∈ q.initialized := by
  intro x hx
  simpa using find?_eq_none.mp h x hx

theorem visit_cases (h : q.visit r d rest = .ok q') :
    (q.onDemand d = true ∧ q' = { q with pending := rest ++ [d] }) ∨
    (q.onDemand d = false ∧ ∃ dep, q.missing r d = some dep ∧ dep ∈ rest ∧
      q' = { q with
        pending := rest ++ [d], onDemand := update q.onDemand dep false,
        attempted := q.attempted ++ [d] }) ∨
    (q.onDemand d = false ∧ q.missing r d = none ∧ q'.pending = rest ∧
      q'.onDemand = q.onDemand ∧ q'.attempted = q.attempted ++ [d] ∧ q'.probed = q.probed ++ [d] ∧
      (r.probe d = 0 ∧ q'.initialized = q.initialized ++ [d] ∧ q'.failed = q.failed ∨
        r.probe d ≠ 0 ∧ q'.initialized = q.initialized ∧ q'.failed = q.failed ++ [d])) := by
  unfold Queue.visit at h
  split at h
  · next hdemand =>
    exact .inl ⟨hdemand, (Except.ok.inj h).symm⟩
  · next hdemand =>
    have hfalse : q.onDemand d = false := by simpa using hdemand
    refine .inr ?_
    split at h
    · next dep hfind =>
      split at h
      · next hdep => exact .inl ⟨hfalse, dep, hfind, hdep, (Except.ok.inj h).symm⟩
      · cases h
    · next hfind =>
      refine .inr ⟨hfalse, hfind, ?_⟩
      split at h
      · next hret =>
        cases h
        exact ⟨rfl, rfl, rfl, rfl, .inr ⟨hret, rfl, rfl⟩⟩
      · next hret =>
        cases h
        exact ⟨rfl, rfl, rfl, rfl, .inl ⟨not_not.mp hret, rfl, rfl⟩⟩

theorem visit_pending (h : q.visit r d rest = .ok q') :
    q'.pending = rest ++ [d] ∨ q'.pending = rest := by
  rcases visit_cases h with ⟨-, rfl⟩ | ⟨-, dep, -, -, rfl⟩ | ⟨-, -, hpending, -⟩
  · exact .inl rfl
  · exact .inl rfl
  · exact .inr hpending

theorem Queue.run_nil (hq : q.pending = []) (fuel : ℕ) : q.run r fuel = .ok q := by
  cases fuel with
  | zero => simp [Queue.run, hq]
  | succ fuel => simp [Queue.run, hq]

theorem Queue.run_cons (hq : q.pending = d :: rest) (fuel : ℕ) :
    q.run r (fuel + 1) =
      q.visit r d rest >>= fun q => if rest = [] then .ok q else q.run r fuel := by
  rw [Queue.run, hq]
  rfl

theorem Queue.run_of_visit (hq : q.pending = d :: rest) (hv : q.visit r d rest = .ok q')
    (fuel : ℕ) : q.run r (fuel + 1) = if rest = [] then .ok q' else q'.run r fuel := by
  rw [Queue.run_cons hq, hv]
  rfl

theorem loadLoop_head (fuel : ℕ) (temp : Node Name) :
    loadLoop r fuel s (.head .drivers) temp = .ok s := by
  cases fuel <;> rfl

/-- **The first loop** on the links is the loop over the queue: the saved node is
always the one that stands first when the body is done. -/
theorem loadLoop_agree (h : Rep r s q) (fuel : ℕ) :
    Agree r (loadLoop r fuel s (s.links.next (.head .drivers))
      (s.links.next (s.links.next (.head .drivers)))) (q.run r fuel) := by
  induction fuel generalizing s q with
  | zero =>
    rw [h.next_drivers]
    cases hq : q.pending with
    | nil =>
      rw [Queue.run_nil hq]
      exact h
    | cons d rest =>
      simp [loadLoop, Queue.run, hq, Agree]
  | succ fuel ih =>
    cases hq : q.pending with
    | nil =>
      rw [h.next_drivers, hq, Queue.run_nil hq]
      exact h
    | cons d rest =>
      have hnode : s.links.next (.head .drivers) = .driver d := by
        rw [h.next_drivers, hq]
        rfl
      rw [hnode, h.next_first hq, loadLoop, Queue.run_cons hq]
      refine (load_agree h hq).bind ?_
      intro s' q' hvisit hrep
      cases rest with
      | nil =>
        rw [map_nil, headD_nil, loadLoop_head]
        exact hrep
      | cons x rest =>
        have hfirst : s'.links.next (.head .drivers) = .driver x := by
          rw [hrep.next_drivers]
          rcases visit_pending hvisit with hp | hp <;> rw [hp] <;> rfl
        have hrun := ih hrep
        rw [hfirst] at hrun
        exact hrun

/-- The queue when all drivers have registered. -/
def Registry.queue (r : Registry Name) : Queue Name := ⟨r.drivers, [], [], r.onDemand, [], []⟩

theorem registered_rep (r : Registry Name) : Rep r r.registered r.queue := by
  have hfold : ∀ (ds : List Name) (L : Ilist (Node Name)) (lists : Head → List Name),
      Shows L lists → ds.Nodup → (∀ d ∈ ds, ∀ k, d ∉ lists k) →
      Shows (ds.foldl (fun L d => (L.init (.driver d)).prepend (.driver d) (.head .drivers)) L)
        (update lists .drivers (lists .drivers ++ ds)) := by
    intro ds
    induction ds with
    | nil =>
      intro L lists h _ _
      simpa using h
    | cons d ds ih =>
      intro L lists h hnd hnew
      rw [nodup_cons] at hnd
      have hd := hnew d mem_cons_self
      have hstep := (h.init hd).prepend (l := .drivers) hd
      have hrest := ih _ _ hstep hnd.2 ?_
      · simpa using hrest
      · intro e he k
        by_cases hk : k = .drivers
        · subst hk
          have hne : e ≠ d := fun heq => hnd.1 (heq ▸ he)
          simpa [hne] using hnew e (mem_cons_of_mem _ he) .drivers
        · simpa [hk] using hnew e (mem_cons_of_mem _ he) k
  have hempty : Shows (⟨id, id⟩ : Ilist (Node Name)) fun _ => [] :=
    ⟨fun l => ⟨⟨rfl, rfl⟩, by simp⟩, fun l l' _ => by simp⟩
  have hshows := hfold r.drivers _ _ hempty r.nodup (by simp)
  refine ⟨?_, by simp [Registry.queue], rfl, rfl, rfl⟩
  have hon : update (fun _ => []) .drivers ([] ++ r.drivers) = r.queue.on := by
    funext l
    cases l <;> rfl
  rwa [hon] at hshows

end Links

/-! ### What a visit keeps -/

/-- The drivers that have to be loaded: those that are not on demand, and what these
depend on. -/
inductive Needed (r : Registry Name) : Name → Prop
  | root {d : Name} (hd : d ∈ r.drivers) (hdemand : r.onDemand d = false) : Needed r d
  | dep {d e : Name} (he : Needed r e) (hd : d ∈ r.deps e) : Needed r d

/-- The invariant of the first loop. -/
structure Inv (r : Registry Name) (q : Queue Name) : Prop where
  perm : (q.pending ++ q.probed).Perm r.drivers
  initialized : q.initialized = q.probed.filter (r.probe · = 0)
  failed : q.failed = q.probed.filter (r.probe · ≠ 0)
  onDemand : ∀ d, r.onDemand d = false → q.onDemand d = false
  /-- only a driver whose dependencies are looked at asks for another one -/
  demanded : ∀ d, q.onDemand d = false → r.onDemand d = false ∨ ∃ e ∈ q.attempted, d ∈ r.deps e
  attempted : ∀ d ∈ q.attempted, q.onDemand d = false ∧ Needed r d
  probed : ∀ d ∈ q.probed, d ∈ q.attempted
  /-- a driver is probed after its dependencies -/
  order : ∀ l1 d l2, q.probed = l1 ++ d :: l2 → ∀ x ∈ r.deps d, x ∈ l1 ∧ r.probe x = 0

theorem queue_inv (r : Registry Name) : Inv r r.queue where
  perm := by simp [Registry.queue]
  initialized := by simp [Registry.queue]
  failed := by simp [Registry.queue]
  onDemand := fun _ h => h
  demanded := fun _ h => .inl h
  attempted := by simp [Registry.queue]
  probed := by simp [Registry.queue]
  order := by simp [Registry.queue]

namespace Inv

section

variable (h : Inv r q)
include h

theorem mem_drivers : d ∈ r.drivers ↔ d ∈ q.pending ∨ d ∈ q.probed := by
  rw [← h.perm.mem_iff, mem_append]

theorem nodup : (q.pending ++ q.probed).Nodup := h.perm.nodup_iff.mpr r.nodup

theorem mem_initialized : d ∈ q.initialized ↔ d ∈ q.probed ∧ r.probe d = 0 := by
  simp [h.initialized]

theorem mem_failed : d ∈ q.failed ↔ d ∈ q.probed ∧ r.probe d ≠ 0 := by
  simp [h.failed]

theorem not_probed (hd : d ∈ q.pending) : d ∉ q.probed :=
  fun hp => (nodup_append'.mp h.nodup).2.2 hd hp

theorem needed (hd : d ∈ r.drivers) (hdemand : q.onDemand d = false) :
    Needed r d := by
  rcases h.demanded d hdemand with hroot | ⟨e, he, hde⟩
  · exact .root hd hroot
  · exact .dep (h.attempted e he).2 hde

theorem deps_of_probed (hd : d ∈ q.probed) (he : e ∈ r.deps d) :
    e ∈ q.probed ∧ r.probe e = 0 := by
  obtain ⟨l1, l2, hl⟩ := append_of_mem hd
  obtain ⟨hmem, hret⟩ := h.order l1 d l2 hl e he
  exact ⟨by simp [hl, hmem], hret⟩

end

end Inv

/-- The drivers that have to be loaded can be loaded, and at most one other driver
is registered. -/
structure Loadable (r : Registry Name) : Prop where
  registered : ∀ d, Needed r d → d ∈ r.drivers
  acyclic : ∀ d, Needed r d → ¬ Relation.TransGen (fun e d => e ∈ r.deps d) d d
  probes : ∀ d e, Needed r d → e ∈ r.deps d → r.probe e = 0
  few : ∀ d ∈ r.drivers, ∀ e ∈ r.drivers, ¬ Needed r d → ¬ Needed r e → d = e

/-- The loop has ended: what is left is one driver that nobody has asked for, or none. -/
structure Done (r : Registry Name) (q : Queue Name) : Prop extends Inv r q where
  alone : q.pending.length ≤ 1
  unasked : ∀ d ∈ q.pending, q.onDemand d = true

theorem Done.needed_of_probed (h : Done r q) (hd : d ∈ q.probed) : Needed r d :=
  (h.attempted d (h.probed d hd)).2

theorem Done.probed_of_needed (h : Done r q) (hd : Needed r d) : d ∈ q.probed := by
  induction hd with
  | root hd hdemand =>
    rcases h.mem_drivers.mp hd with hp | hp
    · have := h.unasked _ hp
      rw [h.onDemand _ hdemand] at this
      cases this
    · exact hp
  | dep _ hdep ih => exact (h.deps_of_probed ih hdep).1

theorem Inv.exists_asking (h : Inv r q) (hr : Loadable r) (hd : Needed r d) (hp : d ∈ q.pending) :
    ∃ e ∈ q.pending, q.onDemand e = false := by
  induction hd with
  | root _ hdemand => exact ⟨_, hp, h.onDemand _ hdemand⟩
  | dep he hde ih =>
    refine ih ?_
    refine (h.mem_drivers.mp (hr.registered _ he)).resolve_right fun hprobed => ?_
    exact h.not_probed hp (h.deps_of_probed hprobed hde).1

/-- What `driver_init` should have done when it returns. -/
structure Correct (r : Registry Name) (s : State Name) : Prop where
  once : s.probed.Nodup
  /-- a driver is probed if it is wanted and all it depends on is initialised -/
  wanted : ∀ d ∈ r.drivers, d ∈ s.probed ↔
    (r.onDemand d = false ∨ ∃ e ∈ s.attempted, d ∈ r.deps e) ∧
      ∀ x ∈ r.deps d, s.links.OnList (.head .initialized) (.driver x)
  /-- it is probed after them -/
  order : ∀ l1 d l2, s.probed = l1 ++ d :: l2 → ∀ x ∈ r.deps d, x ∈ l1 ∧ r.probe x = 0
  settled : ∀ d ∈ r.drivers, r.onDemand d = false →
    Xor (s.links.OnList (.head .initialized) (.driver d))
      (s.links.OnList (.head .failed) (.driver d))

theorem Done.correct (h : Done r q) (hlists : Shows s.links { q with pending := [] }.on)
    (hattempted : s.attempted = q.attempted) (hprobed : s.probed = q.probed) : Correct r s := by
  have hmem : ∀ (k : List Name) (d : Name), Node.driver d ∈ k.map Node.driver ↔ d ∈ k := by
    intro k d
    simp
  have hinit : ∀ d, s.links.OnList (.head .initialized) (.driver d) ↔
      d ∈ q.probed ∧ r.probe d = 0 := by
    intro d
    rw [(hlists.ring .initialized).onList_iff, hmem]
    exact h.mem_initialized
  have hfail : ∀ d, s.links.OnList (.head .failed) (.driver d) ↔
      d ∈ q.probed ∧ r.probe d ≠ 0 := by
    intro d
    rw [(hlists.ring .failed).onList_iff, hmem]
    exact h.mem_failed
  constructor
  · rw [hprobed]
    exact (nodup_append'.mp h.nodup).2.1
  · intro d hd
    rw [hprobed, hattempted]
    constructor
    · intro hp
      refine ⟨h.demanded d (h.attempted d (h.probed d hp)).1, fun x hx => ?_⟩
      exact (hinit x).mpr (h.deps_of_probed hp hx)
    · rintro ⟨hwant, -⟩
      rcases hwant with hroot | ⟨e, he, hde⟩
      · exact h.probed_of_needed (.root hd hroot)
      · exact h.probed_of_needed (.dep (h.attempted e he).2 hde)
  · rw [hprobed]
    exact h.order
  · intro d hd hdemand
    have hp := h.probed_of_needed (.root hd hdemand)
    rw [hinit, hfail]
    by_cases hret : r.probe d = 0
    · exact .inl ⟨⟨hp, hret⟩, fun hf => hf.2 hret⟩
    · exact .inr ⟨⟨hp, hret⟩, fun hi => hret hi.2⟩

variable [DecidableEq Name]

theorem Inv.visit (h : Inv r q) (hq : q.pending = d :: rest) (hv : q.visit r d rest = .ok q') :
    Inv r q' := by
  have hperm := h.perm
  rw [hq] at hperm
  have hback : ((rest ++ [d]) ++ q.probed).Perm r.drivers := by
    refine List.Perm.trans ?_ hperm
    rw [append_assoc]
    exact perm_middle
  have hdrv : d ∈ r.drivers := h.mem_drivers.mpr (.inl (by simp [hq]))
  rcases visit_cases hv with ⟨-, rfl⟩ | ⟨hdemand, dep, hmissing, -, rfl⟩ |
    ⟨hdemand, hmissing, hpending, hflags, hattempted, hprobed, hlists⟩
  · exact { h with perm := hback }
  · -- `dep` is asked for by `d`
    have hdep := (of_missing_eq_some hmissing).1
    refine ⟨hback, h.initialized, h.failed, ?_, ?_, ?_, ?_, h.order⟩
    · intro x hx
      by_cases hxd : x = dep
      · simp [hxd]
      · simpa [hxd] using h.onDemand x hx
    · intro x hx
      by_cases hxd : x = dep
      · exact .inr ⟨d, by simp, hxd ▸ hdep⟩
      · have hold : q.onDemand x = false := by simpa [hxd] using hx
        refine (h.demanded x hold).imp_right ?_
        rintro ⟨e, he, hxe⟩
        exact ⟨e, mem_append_left _ he, hxe⟩
    · intro x hx
      have hold : q.onDemand x = false ∧ Needed r x := by
        rcases mem_append.mp hx with hx | hx
        · exact h.attempted x hx
        · obtain rfl : x = d := mem_singleton.mp hx
          exact ⟨hdemand, h.needed hdrv hdemand⟩
      by_cases hxd : x = dep
      · exact ⟨by simp [hxd], hold.2⟩
      · exact ⟨by simpa [hxd] using hold.1, hold.2⟩
    · intro x hx
      exact mem_append_left _ (h.probed x hx)
  · constructor
    · rw [hpending, hprobed, ← append_assoc]
      refine List.Perm.trans ?_ hperm
      exact (perm_append_singleton d _)
    · rw [hprobed, filter_append, ← h.initialized]
      rcases hlists with ⟨hret, hinit, -⟩ | ⟨hret, hinit, -⟩
      · simp [hinit, hret]
      · simp [hinit, hret]
    · rw [hprobed, filter_append, ← h.failed]
      rcases hlists with ⟨hret, -, hfail⟩ | ⟨hret, -, hfail⟩
      · simp [hfail, hret]
      · simp [hfail, hret]
    · rw [hflags]
      exact h.onDemand
    · intro x hx
      rw [hflags] at hx
      rw [hattempted]
      refine (h.demanded x hx).imp_right ?_
      rintro ⟨e, he, hxe⟩
      exact ⟨e, mem_append_left _ he, hxe⟩
    · intro x hx
      rw [hattempted, mem_append, mem_singleton] at hx
      rw [hflags]
      rcases hx with hx | rfl
      · exact h.attempted x hx
      · exact ⟨hdemand, h.needed hdrv hdemand⟩
    · intro x hx
      rw [hprobed, mem_append] at hx
      rw [hattempted, mem_append]
      exact hx.imp_left (h.probed x)
    · intro l1 x l2 hl y hy
      rw [hprobed] at hl
      rcases eq_nil_or_concat l2 with rfl | ⟨l2, z, rfl⟩
      · -- the last driver of the log is the one just probed
        obtain ⟨rfl, hdx⟩ := append_inj' hl rfl
        obtain rfl : d = x := by simpa using hdx
        exact h.mem_initialized.mp (of_missing_eq_none hmissing y hy)
      · rw [concat_eq_append, ← cons_append, ← append_assoc] at hl
        obtain ⟨hl, -⟩ := append_inj' hl rfl
        exact h.order l1 x l2 hl y hy

/-! ### A loop that ends -/

theorem Inv.run (h : Inv r q) {fuel : ℕ} (hrun : q.run r fuel = .ok q') : Done r q' := by
  have hnil : ∀ q : Queue Name, Inv r q → q.pending = [] → Done r q := by
    intro q h hq
    exact ⟨h, by simp [hq], by simp [hq]⟩
  induction fuel generalizing q with
  | zero =>
    simp only [Queue.run] at hrun
    split at hrun
    · next hq =>
      cases hrun
      exact hnil _ h hq
    · cases hrun
  | succ fuel ih =>
    cases hq : q.pending with
    | nil =>
      rw [Queue.run_nil hq] at hrun
      cases hrun
      exact hnil _ h hq
    | cons d rest =>
      rw [Queue.run_cons hq] at hrun
      obtain ⟨q1, hv, hrun⟩ := bind_eq_ok.mp hrun
      have h1 := h.visit hq hv
      split at hrun
      · next hrest =>
        cases hrun
        subst hrest
        rcases visit_cases hv with ⟨hdemand, rfl⟩ | ⟨-, dep, -, hdep, -⟩ | ⟨-, -, hpending, -⟩
        · refine ⟨h1, by simp, ?_⟩
          intro x hx
          obtain rfl : x = d := by simpa using hx
          exact hdemand
        · cases hdep
        · exact hnil _ h1 hpending
      · exact ih h1 hrun

namespace Done

theorem idxOf_lt (h : Inv r q) (hd : d ∈ q.probed) (he : e ∈ r.deps d) :
    q.probed.idxOf e < q.probed.idxOf d := by
  obtain ⟨l1, l2, hl⟩ := append_of_mem hd
  have hnd : q.probed.Nodup := (nodup_append'.mp h.nodup).2.1
  obtain ⟨hmem, -⟩ := h.order l1 d l2 hl e he
  have hd1 : d ∉ l1 := by
    rw [hl] at hnd
    intro hd1
    exact (nodup_append'.mp hnd).2.2 hd1 mem_cons_self
  rw [hl, idxOf_append_of_mem hmem, idxOf_append_of_notMem hd1]
  have := idxOf_lt_length_of_mem hmem
  omega

theorem loadable (h : Done r q) : Loadable r := by
  constructor
  · intro d hd
    exact h.mem_drivers.mpr (.inr (h.probed_of_needed hd))
  · intro d hd hcycle
    -- along a chain of dependencies the log is read backwards
    have hchain : ∀ e, Relation.TransGen (fun e d => e ∈ r.deps d) e d →
        e ∈ q.probed ∧ q.probed.idxOf e < q.probed.idxOf d := by
      intro e he
      induction he using Relation.TransGen.head_induction_on with
      | single hed =>
        have hp := h.probed_of_needed hd
        exact ⟨(h.deps_of_probed hp hed).1, idxOf_lt h.toInv hp hed⟩
      | head hex _ ih =>
        exact ⟨(h.deps_of_probed ih.1 hex).1, (idxOf_lt h.toInv ih.1 hex).trans ih.2⟩
    exact lt_irrefl _ (hchain d hcycle).2
  · intro d e hd he
    exact (h.deps_of_probed (h.probed_of_needed hd) he).2
  · intro d hd e he hnd hne
    have hpending : ∀ x ∈ r.drivers, ¬ Needed r x → x ∈ q.pending := by
      intro x hx hn
      exact (h.mem_drivers.mp hx).resolve_right fun hp => hn (h.needed_of_probed hp)
    have hd' := hpending d hd hnd
    have he' := hpending e he hne
    obtain ⟨x, hx⟩ : ∃ x, q.pending = [x] := by
      rw [← length_eq_one_iff]
      have := length_pos_of_mem hd'
      have := h.alone
      omega
    rw [hx, mem_singleton] at hd' he'
    rw [hd', he']

end Done

/-! ### Progress -/

/-- A visit of `d` gets somewhere: it probes the driver, or asks for another one. -/
def Productive (r : Registry Name) (q : Queue Name) (d : Name) : Prop :=
  q.onDemand d = false ∧ ∀ e, q.missing r d = some e → q.onDemand e = true

/-- What is still to be done: drivers to be probed or asked for. -/
def Queue.weight (q : Queue Name) : ℕ := q.pending.length + q.pending.countP q.onDemand

theorem countP_update {l : List Name} (f : Name → Bool) (he : e ∈ l) (hf : f e = true) :
    l.countP (update f e false) < l.countP f := by
  induction l with
  | nil => cases he
  | cons x l ih =>
    have hle : l.countP (update f e false) ≤ l.countP f := by
      refine countP_mono_left fun y _ hy => ?_
      by_cases hye : y = e
      · simp [hye] at hy
      · simpa [hye] using hy
    rw [countP_cons, countP_cons]
    by_cases hx : x = e
    · subst hx
      simp [hf]
      omega
    · have := ih ((mem_cons.mp he).resolve_left (Ne.symm hx))
      rw [update_of_ne hx]
      omega

theorem weight_lt (hq : q.pending = d :: rest) (hv : q.visit r d rest = .ok q')
    (hprod : Productive r q d) : q'.weight < q.weight := by
  unfold Queue.weight
  rw [hq]
  rcases visit_cases hv with ⟨hdemand, -⟩ | ⟨hdemand, dep, hmissing, hdep, rfl⟩ |
    ⟨hdemand, -, hpending, hflags, -⟩
  · rw [hprod.1] at hdemand
    cases hdemand
  · have hcount := countP_update q.onDemand
      (mem_append_left [d] hdep) (hprod.2 dep hmissing)
    have hperm : (rest ++ [d]).countP q.onDemand = (d :: rest).countP q.onDemand :=
      (perm_append_singleton d rest).countP_eq _
    simp only [length_append, length_cons, length_nil]
    omega
  · rw [hpending, hflags, countP_cons, length_cons]
    omega

/-- Any other visit only moves the driver to the end. -/
theorem rotate_of_visit (hv : q.visit r d rest = .ok q') (hprod : ¬ Productive r q d) :
    q'.pending = rest ++ [d] ∧ q'.onDemand = q.onDemand ∧ q'.initialized = q.initialized := by
  rcases visit_cases hv with ⟨-, rfl⟩ | ⟨hdemand, dep, hmissing, -, rfl⟩ | ⟨hdemand, hmissing, -⟩
  · exact ⟨rfl, rfl, rfl⟩
  · refine ⟨rfl, ?_, rfl⟩
    have hdep : q.onDemand dep = false := by
      by_contra htrue
      refine hprod ⟨hdemand, fun e he => ?_⟩
      obtain rfl := Option.mem_unique hmissing he
      simpa using htrue
    show update q.onDemand dep false = q.onDemand
    rw [← hdep, update_eq_self]
  · exact absurd ⟨hdemand, fun e he => by simp [hmissing] at he⟩ hprod

section Progress

variable (hr : Loadable r)

include hr

theorem Inv.pending_of_missing (h : Inv r q) (hd : Needed r d) (he : q.missing r d = some e) :
    e ∈ q.pending ∧ e ≠ d := by
  obtain ⟨hdep, hnew⟩ := of_missing_eq_some he
  refine ⟨?_, ?_⟩
  · refine (h.mem_drivers.mp (hr.registered e (.dep hd hdep))).resolve_right ?_
    intro hp
    exact hnew (h.mem_initialized.mpr ⟨hp, hr.probes d e hd hdep⟩)
  · rintro rfl
    exact hr.acyclic e hd (.single hdep)

theorem Inv.visit_ok (h : Inv r q) (hq : q.pending = d :: rest) :
    ∃ q', q.visit r d rest = .ok q' := by
  unfold Queue.visit
  split
  · exact ⟨_, rfl⟩
  · next hdemand =>
    have hd : Needed r d :=
      h.needed (h.mem_drivers.mpr (.inl (by simp [hq]))) (by simpa using hdemand)
    split
    · next dep hmissing =>
      obtain ⟨hdep, hne⟩ := h.pending_of_missing hr hd hmissing
      rw [hq, mem_cons] at hdep
      rw [if_pos (hdep.resolve_left hne)]
      exact ⟨_, rfl⟩
    · split
      · exact ⟨_, rfl⟩
      · exact ⟨_, rfl⟩

theorem Inv.exists_productive (h : Inv r q) (hd : Needed r d) (hp : d ∈ q.pending) :
    ∃ e ∈ q.pending, Productive r q e := by
  -- among the drivers that are waiting and wanted, one depends on no other
  let R : {x // x ∈ r.drivers ∧ Needed r x} → {x // x ∈ r.drivers ∧ Needed r x} → Prop :=
    fun a b => Relation.TransGen (fun e d => e ∈ r.deps d) a.1 b.1
  have hfinite : Finite {x // x ∈ r.drivers ∧ Needed r x} :=
    Set.Finite.subset (finite_toSet r.drivers) fun x hx => hx.1
  have hirrefl : Std.Irrefl R := ⟨fun a => hr.acyclic a.1 a.2.2⟩
  have hwf : WellFounded R := Finite.wellFounded_of_trans_of_irrefl R
  obtain ⟨e, he, hdemand⟩ := h.exists_asking hr hd hp
  have hdrv : ∀ {x}, x ∈ q.pending → x ∈ r.drivers := fun hx => h.mem_drivers.mpr (.inl hx)
  obtain ⟨⟨m, hm, hneed⟩, ⟨hmp, hmd⟩, hmin⟩ := hwf.has_min
    {a | a.1 ∈ q.pending ∧ q.onDemand a.1 = false}
    ⟨⟨e, hdrv he, h.needed (hdrv he) hdemand⟩, he, hdemand⟩
  refine ⟨m, hmp, hmd, fun x hx => ?_⟩
  by_contra hfalse
  have hxp := (h.pending_of_missing hr hneed hx).1
  have hdep := (of_missing_eq_some hx).1
  exact hmin ⟨x, hdrv hxp, .dep hneed hdep⟩ ⟨hxp, by simpa using hfalse⟩ (.single hdep)

theorem Inv.run_of_productive (h : Inv r q) {l1 l2 : List Name} (hq : q.pending = l1 ++ d :: l2)
    (hprod : Productive r q d)
    (hless : ∀ q', Inv r q' → q'.weight < q.weight → ∃ fuel q'', q'.run r fuel = .ok q'') :
    ∃ fuel q', q.run r fuel = .ok q' := by
  -- the induction is on the drivers that are visited before `d`
  induction l1 generalizing q l2 with
  | nil =>
    obtain ⟨q', hv⟩ := h.visit_ok hr hq
    obtain ⟨fuel, q'', hrun⟩ := hless q' (h.visit hq hv) (weight_lt hq hv hprod)
    refine ⟨fuel + 1, ?_⟩
    rw [Queue.run_of_visit hq hv]
    split
    · exact ⟨q', rfl⟩
    · exact ⟨q'', hrun⟩
  | cons x l1 ih =>
    rw [cons_append] at hq
    obtain ⟨q', hv⟩ := h.visit_ok hr hq
    have hinv := h.visit hq hv
    have hend : ∃ fuel q'', q'.run r fuel = .ok q'' := by
      by_cases hx : Productive r q x
      · exact hless q' hinv (weight_lt hq hv hx)
      · obtain ⟨hpending, hflags, hinit⟩ := rotate_of_visit hv hx
        have hweight : q'.weight = q.weight := by
          unfold Queue.weight
          rw [hpending, hflags, hq, (perm_append_singleton x _).countP_eq,
            (perm_append_singleton x _).length_eq]
        have hq' : q'.pending = l1 ++ d :: (l2 ++ [x]) := by
          rw [hpending]
          simp
        refine ih hinv hq' ?_ (by rw [hweight]; exact hless)
        unfold Productive Queue.missing
        rw [hflags, hinit]
        exact hprod
    obtain ⟨fuel, q'', hrun⟩ := hend
    refine ⟨fuel + 1, q'', ?_⟩
    rw [Queue.run_of_visit hq hv, if_neg (by simp)]
    exact hrun

theorem Inv.exists_run (h : Inv r q) : ∃ fuel q', q.run r fuel = .ok q' := by
  induction hw : q.weight using Nat.strong_induction_on generalizing q with
  | h w ih =>
    subst hw
    by_cases hwait : ∃ d ∈ q.pending, Needed r d
    · obtain ⟨d, hp, hd⟩ := hwait
      obtain ⟨e, he, hprod⟩ := h.exists_productive hr hd hp
      obtain ⟨l1, l2, hq⟩ := append_of_mem he
      exact h.run_of_productive hr hq hprod fun q' hinv hlt => ih _ hlt hinv rfl
    · -- nobody asks for what is left, and that is at most one driver
      cases hq : q.pending with
      | nil => exact ⟨0, q, Queue.run_nil hq 0⟩
      | cons d rest =>
        have hrest : rest = [] := by
          rw [eq_nil_iff_forall_not_mem]
          intro x hx
          have hmem : ∀ y ∈ q.pending, y ∈ r.drivers ∧ ¬ Needed r y := fun y hy =>
            ⟨h.mem_drivers.mpr (.inl hy), fun hn => hwait ⟨y, hy, hn⟩⟩
          obtain ⟨hxd, hxn⟩ := hmem x (by simp [hq, hx])
          obtain ⟨hdd, hdn⟩ := hmem d (by simp [hq])
          obtain rfl := hr.few x hxd d hdd hxn hdn
          have hnd := (nodup_append'.mp h.nodup).1
          rw [hq, nodup_cons] at hnd
          exact hnd.1 hx
        obtain ⟨q', hv⟩ := h.visit_ok hr hq
        refine ⟨1, q', ?_⟩
        rw [Queue.run_of_visit hq hv, if_pos hrest]

end Progress

/-! ### `driver_init` -/

theorem giveUpLoop_head (fuel : ℕ) (temp : Node Name) :
    giveUpLoop r fuel s (.head .drivers) temp = .ok s := by
  cases fuel <;> rfl

/-- **The second loop** finds nothing to report: a driver with a missing dependency
does not get that far. -/
theorem giveUpLoop_of_done (h : Rep r s q) (hdone : Done r q) :
    ∃ s', giveUpLoop r r.drivers.length s (s.links.next (.head .drivers))
        (s.links.next (s.links.next (.head .drivers))) = .ok s' ∧
      Shows s'.links { q with pending := [] }.on ∧ s'.attempted = q.attempted ∧
      s'.probed = q.probed ∧ s'.console = s.console := by
  cases hq : q.pending with
  | nil =>
    refine ⟨s, ?_, ?_, h.attempted, h.probed, rfl⟩
    · rw [h.next_drivers, hq]
      exact giveUpLoop_head _ _
    · have hself : update q.on .drivers q.pending = q.on := update_eq_self Head.drivers q.on
      rw [← update_on_drivers, ← hq, hself]
      exact h.lists
  | cons d rest =>
    obtain rfl : rest = [] := by
      have := hdone.alone
      rw [hq, length_cons] at this
      exact eq_nil_of_length_eq_zero (by omega)
    have hdemand : s.onDemand d = true := by
      rw [h.onDemand]
      exact hdone.unasked d (by simp [hq])
    obtain ⟨k, hk⟩ : ∃ k, r.drivers.length = k + 1 := by
      have := h.length
      rw [hq, length_cons] at this
      exact ⟨r.drivers.length - 1, by omega⟩
    have hnode : s.links.next (.head .drivers) = .driver d := by
      rw [h.next_drivers, hq]
      rfl
    have hgive : giveUp r s d = .ok { s with links := s.links.remove (.driver d) } := by
      unfold giveUp
      simp only [hdemand, if_true]
      rfl
    refine ⟨{ s with links := s.links.remove (.driver d) }, ?_, ?_, h.attempted, h.probed, rfl⟩
    · rw [hnode, h.next_first hq, hk, giveUpLoop, hgive]
      exact giveUpLoop_head _ _
    · rw [← update_on_drivers]
      exact (h.lists.remove (l := .drivers) hq).1

theorem loadable_of_driverInit {fuel : ℕ} (h : driverInit r fuel = .ok s) : Loadable r := by
  obtain ⟨s1, hload, -⟩ := bind_eq_ok.mp h
  have hagree := loadLoop_agree (registered_rep r) fuel
  rw [hload] at hagree
  cases hrun : r.queue.run r fuel with
  | error e =>
    rw [hrun] at hagree
    exact hagree.elim
  | ok q => exact ((queue_inv r).run hrun).loadable

theorem driverInit_of_loadable (hr : Loadable r) :
    ∃ fuel s, driverInit r fuel = .ok s ∧ Correct r s := by
  obtain ⟨fuel, q, hrun⟩ := (queue_inv r).exists_run hr
  have hdone := (queue_inv r).run hrun
  have hagree := loadLoop_agree (registered_rep r) fuel
  rw [hrun] at hagree
  cases hload : loadLoop r fuel r.registered (r.registered.links.next (.head .drivers))
      (r.registered.links.next (r.registered.links.next (.head .drivers))) with
  | error e =>
    rw [hload] at hagree
    exact hagree.elim
  | ok s1 =>
    rw [hload] at hagree
    obtain ⟨s, hgive, hlists, hattempted, hprobed, -⟩ := giveUpLoop_of_done hagree hdone
    refine ⟨fuel, s, ?_, hdone.correct hlists hattempted hprobed⟩
    unfold driverInit
    simp only [hload]
    exact hgive

/-- **Driver loading.** `driver_init` returns, and has then probed the right drivers in the right
order, exactly if all drivers that have to be loaded are registered, do not depend on each
other in a circle and are initialised if another one depends on them, and at most one driver is
registered that nobody needs. -/
theorem driver_init_correct_iff (r : Registry Name) :
    (∃ fuel s, driverInit r fuel = .ok s ∧ Correct r s) ↔ Loadable r := by
  constructor
  · rintro ⟨fuel, s, h, -⟩
    exact loadable_of_driverInit h
  · exact driverInit_of_loadable

/-- Driver 1 depends on driver 0, and the probe of driver 0 fails. -/
def brokenDependency : Registry ℕ where
  drivers := [0, 1]
  nodup := by decide
  deps := fun d => if d = 1 then [0] else []
  onDemand := fun _ => false
  probe := fun d => if d = 0 then -1 else 0

/-- `driver_init` never returns: it looks for driver 0 where it no longer is. -/
theorem broken_dependency_not_loaded :
    driverInit brokenDependency 2 = .error .nullPointer ∧
      ¬ ∃ fuel s, driverInit brokenDependency fuel = .ok s ∧ Correct brokenDependency s := by
  refine ⟨by rfl, ?_⟩
  rintro ⟨fuel, s, h, -⟩
  have hprobe := (loadable_of_driverInit h).probes 1 0 (.root (by decide) rfl) (by decide)
  revert hprobe
  decide

end Drivers
