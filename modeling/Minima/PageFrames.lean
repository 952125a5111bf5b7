/-
The lock-free page frame allocator (`mm/pfa.c`) under preemption.

`pf_alloc` and `pf_free` share the list head `page_freelist` and the link word
stored in every free frame.  The model runs any number of tasks through the
two functions one atomic step at a time: the reads of `page_freelist`, the
read of `old->next`, the write and the reload of `frame->next`, and the
`cmpxchg`.  Frames that are handed out belong to a task or to the purgeable
pool, and their owner may overwrite them at will.

* `FreelistSafe` — the freelist and the owned frames partition all frames, and
  no task is about to follow a `NULL` head;
* `FreshPop` — the condition under which a step keeps that: a pop that
  succeeds still knows the right successor, and the head read by the retry
  loop is not `NULL`;
* `freelist_safe_iff_freshPop` — a run is safe throughout iff all its steps
  meet that condition;
* `aba_breaks_freelist` — the run of two tasks on three frames in which the
  head comes back between the read of `old->next` and the `cmpxchg`.
-/
import Minima.Runs
import Minima.Chains
import Mathlib.Data.List.Perm.Subperm

namespace PageFrames

open List (Perm mem_cons_self nodup_append' perm_middle)
open Function Option

/-- Who called `pf_free`: the task itself, or `purgeable_purge` on behalf of a
`pf_alloc` that found the freelist empty. -/
inductive Caller
  | task
  | purge
  deriving DecidableEq, Repr

/-- The next atomic step of a task inside `pf_alloc` or `pf_free`, with the
values it has read so far. -/
inductive Pc
  | idle
  /-- `if (!page_freelist)` -/
  | allocTest
  /-- inside `purgeable_purge(PAGE_SIZE)` -/
  | allocPurge
  /-- `old = page_freelist` -/
  | allocHead
  /-- `new = old->next` -/
  | allocNext (old : ℕ)
  /-- `cmpxchg(&page_freelist, old, new)` -/
  | allocCas (old new : ℕ)
  /-- the read of `page_freelist` in `frame->next = page_freelist` -/
  | freeHead (k : Caller) (frame : ℕ)
  /-- the write of `frame->next` -/
  | freeLink (k : Caller) (frame head : ℕ)
  /-- `old = frame->next` -/
  | freeOld (k : Caller) (frame : ℕ)
  /-- `cmpxchg(&page_freelist, old, frame)` -/
  | freeCas (k : Caller) (frame old : ℕ)
  deriving DecidableEq, Repr

/-- Where `pf_free` returns to. -/
def Caller.pc : Caller → Pc
  | .task => .idle
  | .purge => .allocPurge

/-- The shared memory and the tasks.  Frames are the addresses `pf_alloc` returns, `0` is `NULL`.
`owned` records to whom each frame belongs (`none` is the purgeable pool); a frame belongs to the
task that frees it until its `cmpxchg` has succeeded. -/
structure State (Tid : Type) where
  pageFreelist : ℕ
  next : ℕ → ℕ
  owned : List (Option Tid × ℕ)
  pc : Tid → Pc

/-- The frames somebody owns. -/
def State.ownedFrames {Tid : Type} (s : State Tid) : List ℕ := s.owned.map Prod.snd

/-- What can happen next. -/
inductive Event (Tid : Type)
  /-- task `t` calls `pf_alloc` -/
  | pfAlloc (t : Tid)
  /-- task `t` calls `pf_free(frame)` on a frame of its own -/
  | pfFree (t : Tid) (frame : ℕ)
  /-- task `t` executes its next atomic step -/
  | run (t : Tid)
  /-- the purge started by `t` calls `pf_free` on a frame of the pool -/
  | purgeFrame (t : Tid) (frame : ℕ)
  /-- the purge started by `t` returns, with enough bytes or without -/
  | purged (t : Tid) (enough : Bool)
  /-- the owner of a frame overwrites its first word -/
  | write (o : Option Tid) (frame v : ℕ)
  /-- the owner of a frame passes it on -/
  | hand (o o' : Option Tid) (frame : ℕ)

variable {Tid : Type}

section Steps

variable [DecidableEq Tid]

def State.goto (s : State Tid) (t : Tid) (c : Pc) : State Tid :=
  { s with pc := update s.pc t c }

/-- An owner that is not in the middle of freeing one of its frames. -/
def State.atRest (s : State Tid) : Option Tid → Bool
  | none => true
  | some t => s.pc t = .idle

/-- One atomic step of task `t`.  Following a `NULL` head faults. -/
def State.run (s : State Tid) (t : Tid) : Option (State Tid) :=
  match s.pc t with
  | .idle => none
  | .allocPurge => none
  | .allocTest => some (s.goto t (if s.pageFreelist = 0 then .allocPurge else .allocHead))
  | .allocHead => some (s.goto t (.allocNext s.pageFreelist))
  | .allocNext old => if old = 0 then none else some (s.goto t (.allocCas old (s.next old)))
  | .allocCas old new =>
      if s.pageFreelist = old then
        some { s.goto t .idle with pageFreelist := new, owned := (some t, old) :: s.owned }
      else some (s.goto t .allocHead)
  | .freeHead k frame => some (s.goto t (.freeLink k frame s.pageFreelist))
  | .freeLink k frame head =>
      some { s.goto t (.freeOld k frame) with next := update s.next frame head }
  | .freeOld k frame => some (s.goto t (.freeCas k frame (s.next frame)))
  | .freeCas k frame old =>
      if s.pageFreelist = old then
        some { s.goto t k.pc with
          pageFreelist := frame, owned := s.owned.erase (some t, frame) }
      else some (s.goto t (.freeHead k frame))

/-- One event.  `pf_alloc` returns `NULL` when the purge did not free enough,
and asserts that the freelist is not empty when it did. -/
def State.step (s : State Tid) : Event Tid → Option (State Tid)
  | .pfAlloc t => if s.pc t = .idle then some (s.goto t .allocTest) else none
  | .pfFree t frame =>
      if s.pc t = .idle ∧ (some t, frame) ∈ s.owned then some (s.goto t (.freeHead .task frame))
      else none
  | .run t => s.run t
  | .purgeFrame t frame =>
      if s.pc t = .allocPurge ∧ (none, frame) ∈ s.owned then
        some { s.goto t (.freeHead .purge frame) with
          owned := (some t, frame) :: s.owned.erase (none, frame) }
      else none
  | .purged t enough =>
      if s.pc t = .allocPurge then
        if enough then
          if s.pageFreelist = 0 then none else some (s.goto t .allocHead)
        else some (s.goto t .idle)
      else none
  | .write o frame v =>
      if s.atRest o ∧ (o, frame) ∈ s.owned then
        some { s with next := update s.next frame v }
      else none
  | .hand o o' frame =>
      if s.atRest o ∧ (o, frame) ∈ s.owned then
        some { s with owned := (o', frame) :: s.owned.erase (o, frame) }
      else none

/-- The step relation the runs are made of. -/
def Step (s : State Tid) (e : Event Tid) (s' : State Tid) : Prop := s.step e = some s'

end Steps

/-- **What the allocator promises.**  The freelist is a finite chain `l` without repetitions, every
frame that was handed out has one owner, no frame is both, none is lost, and no task follows a
`NULL` head. -/
def FreelistSafe (frames : List ℕ) (s : State Tid) : Prop :=
  (∃ l, Chain s.next 0 s.pageFreelist l ∧ l.Nodup ∧ s.ownedFrames.Nodup ∧
    (∀ f ∈ l, f ∉ s.ownedFrames) ∧ ∀ f, f ∈ frames ↔ f ∈ l ∨ f ∈ s.ownedFrames) ∧
  ∀ t, s.pc t ≠ .allocNext 0

/-- The condition on a step of `pf_alloc`: the retry loop does not find the
list empty, and a `cmpxchg` that is going to succeed has the current successor
of the head in hand. -/
def FreshPop (s : State Tid) : Event Tid → Prop
  | .run t =>
    match s.pc t with
    | .allocHead => s.pageFreelist ≠ 0
    | .allocCas old new => s.pageFreelist = old → s.next old = new
    | _ => True
  | _ => True

/-- Before anybody calls the allocator: all frames are accounted for. -/
structure Initial (frames : List ℕ) (s : State Tid) : Prop where
  safe : FreelistSafe frames s
  idle : ∀ t, s.pc t = .idle
  proper : 0 ∉ frames

/-! ### The inductive invariant -/

/-- What a task inside the allocator may rely on: the frame it frees is still
its own, and the link it has reloaded is still the one in memory. -/
def PcOk (s : State Tid) (t : Tid) : Pc → Prop
  | .allocCas old _ => old ≠ 0
  | .freeHead _ frame => (some t, frame) ∈ s.owned
  | .freeLink _ frame _ => (some t, frame) ∈ s.owned
  | .freeOld _ frame => (some t, frame) ∈ s.owned
  | .freeCas _ frame old => (some t, frame) ∈ s.owned ∧ s.next frame = old
  | _ => True

structure Inv (frames : List ℕ) (s : State Tid) : Prop where
  safe : FreelistSafe frames s
  pcs : ∀ t, PcOk s t (s.pc t)
  proper : 0 ∉ frames

variable {frames : List ℕ} {s s' : State Tid} {t : Tid}

theorem freelistSafe_iff : FreelistSafe frames s ↔
    (∃ l, Chain s.next 0 s.pageFreelist l ∧ (l ++ s.ownedFrames).Nodup ∧
      ∀ f, f ∈ frames ↔ f ∈ l ++ s.ownedFrames) ∧ ∀ t, s.pc t ≠ .allocNext 0 := by
  refine and_congr_left fun _ => exists_congr fun l => and_congr_right fun _ => ?_
  simp only [nodup_append', List.mem_append]
  constructor
  · rintro ⟨hl, ho, hd, hf⟩
    exact ⟨⟨hl, ho, fun f hf ho => hd f hf ho⟩, hf⟩
  · rintro ⟨⟨hl, ho, hd⟩, hf⟩
    exact ⟨hl, ho, fun f hf ho => hd hf ho, hf⟩

variable {o : Option Tid} {f : ℕ}

theorem owner_unique (hnd : s.ownedFrames.Nodup) {o' : Option Tid} (h : (o, f) ∈ s.owned)
    (h' : (o', f) ∈ s.owned) : o = o' := by
  have := List.inj_on_of_nodup_map hnd h h' rfl
  exact congrArg Prod.fst this

theorem mem_ownedFrames (h : (o, f) ∈ s.owned) : f ∈ s.ownedFrames :=
  List.mem_map_of_mem h

theorem PcOk.mono {u : Tid} {c : Pc} (h : PcOk s u c)
    (howned : ∀ f, (some u, f) ∈ s.owned → (some u, f) ∈ s'.owned)
    (hnext : ∀ f, (some u, f) ∈ s.owned → s'.next f = s.next f) : PcOk s' u c := by
  cases c with
  | freeCas k f old => exact ⟨howned f h.1, (hnext f h.1).trans h.2⟩
  | freeHead k f => exact howned f h
  | freeLink k f head => exact howned f h
  | freeOld k f => exact howned f h
  | _ => exact h

theorem Inv.nodup_owned (h : Inv frames s) : s.ownedFrames.Nodup := by
  obtain ⟨⟨l, -, -, ho, -⟩, -⟩ := h.safe
  exact ho

theorem Initial.inv (h : Initial frames s) : Inv frames s :=
  ⟨h.safe, fun t => by rw [h.idle t]; trivial, h.proper⟩

theorem not_freeing_of_atRest (h : Inv frames s) (hrest : s.atRest o = true)
    (hown : (o, f) ∈ s.owned) (u : Tid) (hu : (some u, f) ∈ s.owned) : s.pc u = .idle := by
  obtain rfl := owner_unique h.nodup_owned hown hu
  simpa [State.atRest] using hrest

variable [DecidableEq Tid]

theorem ownedFrames_perm_erase (h : (o, f) ∈ s.owned) :
    s.ownedFrames.Perm (f :: (s.owned.erase (o, f)).map Prod.snd) :=
  (List.perm_cons_erase h).map Prod.snd

namespace Inv

variable {c : Pc}

theorem goto (h : Inv frames s) (hc : PcOk s t c) (hnull : c ≠ .allocNext 0) :
    Inv frames (s.goto t c) := by
  refine ⟨⟨h.safe.1, fun u => ?_⟩, fun u => ?_, h.proper⟩
  · by_cases hu : u = t
    · subst hu
      simpa [State.goto] using hnull
    · simpa [State.goto, hu] using h.safe.2 u
  · by_cases hu : u = t
    · subst hu
      simpa [State.goto, PcOk] using hc
    · simpa [State.goto, hu, PcOk] using h.pcs u

theorem pcs_of_mono (h : Inv frames s) (hpc : s'.pc = update s.pc t c) (hc : PcOk s' t c)
    (howned : ∀ u ≠ t, ∀ f, (some u, f) ∈ s.owned → (some u, f) ∈ s'.owned)
    (hnext : ∀ u ≠ t, ∀ f, (some u, f) ∈ s.owned → s'.next f = s.next f) :
    ∀ u, PcOk s' u (s'.pc u) := by
  intro u
  rw [hpc]
  by_cases hu : u = t
  · subst hu
    simpa using hc
  · rw [update_of_ne hu]
    exact (h.pcs u).mono (howned u hu) (hnext u hu)

theorem noNull_of_update (h : Inv frames s) (hpc : s'.pc = update s.pc t c)
    (hc : c ≠ .allocNext 0) : ∀ u, s'.pc u ≠ .allocNext 0 := by
  intro u
  rw [hpc]
  by_cases hu : u = t
  · subst hu
    simpa using hc
  · rw [update_of_ne hu]
    exact h.safe.2 u

variable {old : ℕ}

theorem pop (h : Inv frames s) {new : ℕ} (hpc : s.pc t = .allocCas old new)
    (hhead : s.pageFreelist = old) (hnew : s.next old = new) :
    Inv frames { s.goto t .idle with
      pageFreelist := new, owned := (some t, old) :: s.owned } := by
  have hold : old ≠ 0 := by
    have := h.pcs t
    rwa [hpc] at this
  obtain ⟨l, hl, hnd, hmem⟩ := (freelistSafe_iff.mp h.safe).1
  rw [hhead] at hl
  obtain ⟨l', rfl, hl'⟩ := hl.eq_cons hold
  rw [hnew] at hl'
  -- the frame changes sides, nothing else does
  have hperm : (l' ++ old :: s.ownedFrames).Perm (old :: l' ++ s.ownedFrames) :=
    perm_middle
  refine ⟨freelistSafe_iff.mpr ⟨⟨l', hl', ?_, fun f => ?_⟩, ?_⟩, ?_, h.proper⟩
  · exact hperm.nodup_iff.mpr hnd
  · exact (hmem f).trans hperm.mem_iff.symm
  · exact h.noNull_of_update rfl (by simp)
  · refine h.pcs_of_mono rfl trivial ?_ ?_
    · intro u _ f hf
      exact List.mem_cons_of_mem _ hf
    · intro u _ f _
      rfl

variable {k : Caller} {frame : ℕ}

theorem link (h : Inv frames s) {head : ℕ} (hpc : s.pc t = .freeLink k frame head) :
    Inv frames { s.goto t (.freeOld k frame) with
      next := update s.next frame head } := by
  have hown : (some t, frame) ∈ s.owned := by
    have := h.pcs t
    rwa [hpc] at this
  obtain ⟨l, hl, hnd, hmem⟩ := (freelistSafe_iff.mp h.safe).1
  have hoff : frame ∉ l := fun hf =>
    (nodup_append'.mp hnd).2.2 hf (mem_ownedFrames hown)
  refine ⟨freelistSafe_iff.mpr ⟨⟨l, hl.update hoff _, hnd, hmem⟩, ?_⟩, ?_, h.proper⟩
  · exact h.noNull_of_update rfl (by simp)
  · refine h.pcs_of_mono rfl hown (fun u _ f hf => hf) ?_
    intro u hu f hf
    -- another task's frame is another frame
    have hne : f ≠ frame := by
      rintro rfl
      exact hu (some_inj.mp (owner_unique h.nodup_owned hf hown))
    exact update_of_ne hne _ _

theorem push (h : Inv frames s) (hpc : s.pc t = .freeCas k frame old)
    (hhead : s.pageFreelist = old) :
    Inv frames { s.goto t k.pc with
      pageFreelist := frame, owned := s.owned.erase (some t, frame) } := by
  obtain ⟨hown, hnext⟩ : (some t, frame) ∈ s.owned ∧ s.next frame = old := by
    have := h.pcs t
    rwa [hpc] at this
  obtain ⟨l, hl, hnd, hmem⟩ := (freelistSafe_iff.mp h.safe).1
  have hperm : (frame :: l ++ (s.owned.erase (some t, frame)).map Prod.snd).Perm
      (l ++ s.ownedFrames) :=
    (perm_middle.symm).trans (Perm.append_left l (ownedFrames_perm_erase hown).symm)
  have hne : frame ≠ 0 := by
    rintro rfl
    exact h.proper ((hmem 0).mpr (List.mem_append_right _ (mem_ownedFrames hown)))
  refine ⟨freelistSafe_iff.mpr ⟨⟨frame :: l, ⟨rfl, hne, ?_⟩, ?_, fun f => ?_⟩, ?_⟩, ?_, h.proper⟩
  · rw [hhead, ← hnext] at hl
    exact hl
  · exact hperm.nodup_iff.mpr hnd
  · exact (hmem f).trans hperm.mem_iff.symm
  · exact h.noNull_of_update rfl (by cases k <;> simp [Caller.pc])
  · refine h.pcs_of_mono rfl (by cases k <;> trivial) ?_ (fun _ _ _ _ => rfl)
    intro u hu f hf
    exact (List.mem_erase_of_ne (by simp [hu])).mpr hf

theorem safe_hand (h : Inv frames s) {o o' : Option Tid} {f : ℕ} (hown : (o, f) ∈ s.owned) :
    ∃ l, Chain s.next 0 s.pageFreelist l ∧
      (l ++ ((o', f) :: s.owned.erase (o, f)).map Prod.snd).Nodup ∧
      ∀ g, g ∈ frames ↔ g ∈ l ++ ((o', f) :: s.owned.erase (o, f)).map Prod.snd := by
  obtain ⟨l, hl, hnd, hmem⟩ := (freelistSafe_iff.mp h.safe).1
  have hperm : (l ++ ((o', f) :: s.owned.erase (o, f)).map Prod.snd).Perm (l ++ s.ownedFrames) :=
    Perm.append_left l (ownedFrames_perm_erase hown).symm
  exact ⟨l, hl, hperm.nodup_iff.mpr hnd, fun g => (hmem g).trans hperm.mem_iff.symm⟩

end Inv

theorem inv_run (h : Inv frames s) (hok : FreshPop s (.run t)) (hstep : s.run t = some s') :
    Inv frames s' := by
  have hpcs := h.pcs t
  unfold State.run at hstep
  unfold FreshPop at hok
  match hpc : s.pc t with
  | .idle => simp [hpc] at hstep
  | .allocPurge => simp [hpc] at hstep
  | .allocTest =>
    simp only [hpc] at hstep
    cases hstep
    by_cases hempty : s.pageFreelist = 0
    · rw [if_pos hempty]
      exact h.goto trivial (by simp)
    · rw [if_neg hempty]
      exact h.goto trivial (by simp)
  | .allocHead =>
    simp only [hpc, Option.some.injEq] at hstep hok
    subst hstep
    exact h.goto trivial (by simpa using hok)
  | .allocNext old =>
    simp only [hpc] at hstep
    by_cases hold : old = 0
    · rw [if_pos hold] at hstep
      exact absurd hstep (by simp)
    · rw [if_neg hold, Option.some.injEq] at hstep
      subst hstep
      exact h.goto hold (by simp)
  | .allocCas old new =>
    simp only [hpc] at hstep hok
    by_cases hhead : s.pageFreelist = old
    · rw [if_pos hhead, Option.some.injEq] at hstep
      subst hstep
      exact h.pop hpc hhead (hok hhead)
    · rw [if_neg hhead, Option.some.injEq] at hstep
      subst hstep
      exact h.goto trivial (by simp)
  | .freeHead k frame =>
    simp only [hpc, Option.some.injEq] at hstep hpcs
    subst hstep
    exact h.goto hpcs (by simp)
  | .freeLink k frame head =>
    simp only [hpc] at hstep
    cases hstep
    exact h.link hpc
  | .freeOld k frame =>
    simp only [hpc, Option.some.injEq] at hstep hpcs
    subst hstep
    exact h.goto ⟨hpcs, rfl⟩ (by simp)
  | .freeCas k frame old =>
    simp only [hpc] at hstep hpcs
    by_cases hhead : s.pageFreelist = old
    · rw [if_pos hhead, Option.some.injEq] at hstep
      subst hstep
      exact h.push hpc hhead
    · rw [if_neg hhead, Option.some.injEq] at hstep
      subst hstep
      exact h.goto hpcs.1 (by simp)

/-- An owner at rest uses its frame: the tasks in the middle of `pf_free` have
other frames, so they do not notice. -/
theorem Inv.pcs_of_atRest {frame : ℕ} (h : Inv frames s) (hrest : s.atRest o = true)
    (hown : (o, frame) ∈ s.owned) (hpc : s'.pc = s.pc)
    (howned : ∀ u f, (some u, f) ∈ s.owned → f ≠ frame → (some u, f) ∈ s'.owned)
    (hnext : ∀ f, f ≠ frame → s'.next f = s.next f) : ∀ u, PcOk s' u (s'.pc u) := by
  intro u
  rw [hpc]
  by_cases hu : (some u, frame) ∈ s.owned
  · rw [not_freeing_of_atRest h hrest hown u hu]
    trivial
  · have hne : ∀ f, (some u, f) ∈ s.owned → f ≠ frame := by
      rintro f hf rfl
      exact hu hf
    exact (h.pcs u).mono (fun f hf => howned u f hf (hne f hf)) fun f hf => hnext f (hne f hf)

variable {e : Event Tid}

theorem inv_step (h : Inv frames s) (hok : FreshPop s e) (hstep : Step s e s') : Inv frames s' := by
  unfold Step State.step at hstep
  cases e with
  | pfAlloc t =>
    simp only [ite_none_right_eq_some, Option.some.injEq] at hstep
    obtain ⟨-, rfl⟩ := hstep
    exact h.goto trivial (by simp)
  | pfFree t frame =>
    simp only [ite_none_right_eq_some, Option.some.injEq] at hstep
    obtain ⟨⟨-, hown⟩, rfl⟩ := hstep
    exact h.goto hown (by simp)
  | run t => exact inv_run h hok hstep
  | purgeFrame t frame =>
    simp only [ite_none_right_eq_some, Option.some.injEq] at hstep
    obtain ⟨⟨-, hown⟩, rfl⟩ := hstep
    refine ⟨freelistSafe_iff.mpr ⟨h.safe_hand hown, h.noNull_of_update rfl (by simp)⟩, ?_, h.proper⟩
    refine h.pcs_of_mono rfl (mem_cons_self ..) ?_ (fun _ _ _ _ => rfl)
    intro u _ f hf
    exact List.mem_cons_of_mem _ ((List.mem_erase_of_ne (by simp)).mpr hf)
  | purged t enough =>
    simp only [ite_none_right_eq_some] at hstep
    obtain ⟨-, hstep⟩ := hstep
    cases enough with
    | true =>
      simp only [if_true, ite_none_left_eq_some, Option.some.injEq] at hstep
      obtain ⟨-, rfl⟩ := hstep
      exact h.goto trivial (by simp)
    | false =>
      cases hstep
      exact h.goto trivial (by simp)
  | write o frame v =>
    simp only [ite_none_right_eq_some, Option.some.injEq] at hstep
    obtain ⟨⟨hrest, hown⟩, rfl⟩ := hstep
    obtain ⟨l, hl, hnd, hmem⟩ := (freelistSafe_iff.mp h.safe).1
    have hoff : frame ∉ l := fun hf =>
      (nodup_append'.mp hnd).2.2 hf (mem_ownedFrames hown)
    refine ⟨freelistSafe_iff.mpr ⟨⟨l, hl.update hoff v, hnd, hmem⟩, h.safe.2⟩, ?_, h.proper⟩
    exact h.pcs_of_atRest hrest hown rfl (fun _ _ hf _ => hf)
      fun f hne => update_of_ne hne _ _
  | hand o o' frame =>
    simp only [ite_none_right_eq_some, Option.some.injEq] at hstep
    obtain ⟨⟨hrest, hown⟩, rfl⟩ := hstep
    refine ⟨freelistSafe_iff.mpr ⟨h.safe_hand hown, h.safe.2⟩, ?_, h.proper⟩
    refine h.pcs_of_atRest hrest hown rfl (fun u f hf hne => ?_) fun _ _ => rfl
    refine List.mem_cons_of_mem _ ((List.mem_erase_of_ne fun heq => hne ?_).mpr hf)
    exact (Prod.mk.inj heq).2

/-! ### Exactness -/

/-- A pop with a stale successor leaves the freelist with the wrong frames:
the chain from the new head cannot be the old chain without its first frame. -/
theorem not_safe_of_stale_pop (h : Inv frames s) {old new : ℕ} (hpc : s.pc t = .allocCas old new)
    (hhead : s.pageFreelist = old) (hnew : s.next old ≠ new) :
    ¬ FreelistSafe frames { s.goto t .idle with
      pageFreelist := new, owned := (some t, old) :: s.owned } := by
  intro hsafe
  have hold : old ≠ 0 := by
    have := h.pcs t
    rwa [hpc] at this
  obtain ⟨l, hl, hnd, hmem⟩ := (freelistSafe_iff.mp h.safe).1
  rw [hhead] at hl
  obtain ⟨l1, rfl, hl1⟩ := hl.eq_cons hold
  obtain ⟨l2, hl2, hnd2, hmem2⟩ := (freelistSafe_iff.mp hsafe).1
  change Chain s.next 0 new l2 at hl2
  change (l2 ++ old :: s.ownedFrames).Nodup at hnd2
  change ∀ f, f ∈ frames ↔ f ∈ l2 ++ old :: s.ownedFrames at hmem2
  -- both lists hold exactly the frames that are neither owned nor the popped one
  have hnd1 : (l1 ++ old :: s.ownedFrames).Nodup := perm_middle.nodup_iff.mpr hnd
  have hsame : ∀ f, f ∈ l1 ↔ f ∈ l2 := by
    intro f
    have h1 : f ∈ frames ↔ f ∈ l1 ++ old :: s.ownedFrames :=
      (hmem f).trans perm_middle.mem_iff.symm
    have h2 := hmem2 f
    have hd1 : f ∈ l1 → f ∉ old :: s.ownedFrames :=
      fun hf ho => (nodup_append'.mp hnd1).2.2 hf ho
    have hd2 : f ∈ l2 → f ∉ old :: s.ownedFrames :=
      fun hf ho => (nodup_append'.mp hnd2).2.2 hf ho
    rw [List.mem_append] at h1 h2
    tauto
  have hlen : l1.length = l2.length :=
    ((List.perm_ext_iff_of_nodup (nodup_append'.mp hnd1).1
      (nodup_append'.mp hnd2).1).mpr hsame).length_eq
  by_cases hnull : new = 0
  · subst hnull
    rw [hl2.eq_nil_of_null, List.length_nil, List.length_eq_zero_iff] at hlen
    subst hlen
    exact hnew hl1
  · obtain ⟨l2', rfl, hl2'⟩ := hl2.eq_cons hnull
    -- the new head is a later frame of the old chain, so its chain is shorter
    obtain ⟨r, hr, hsuf⟩ := hl1.suffix_of_mem ((hsame new).mpr (mem_cons_self ..))
    have heq : new :: l2' = new :: r := hl2.unique hr
    rw [heq] at hlen
    have hl1' : new :: r = l1 := hsuf.eq_of_length hlen.symm
    rw [← hl1'] at hl1
    exact hnew hl1.1

theorem not_safe_of_not_freshPop (h : Inv frames s) (hno : ¬ FreshPop s e) (hstep : Step s e s') :
    ¬ FreelistSafe frames s' := by
  unfold FreshPop at hno
  cases e with
  | run t =>
    unfold Step State.step State.run at hstep
    match hpc : s.pc t with
    | .allocHead =>
      simp only [hpc, not_not, Option.some.injEq] at hno hstep
      subst hstep
      intro hsafe
      exact hsafe.2 t (by simp [State.goto, hno])
    | .allocCas old new =>
      simp only [hpc, Classical.not_imp] at hno hstep
      rw [if_pos hno.1, Option.some.injEq] at hstep
      subst hstep
      exact not_safe_of_stale_pop h hpc hno.1 hno.2
    | .idle => simp [hpc] at hno
    | .allocTest => simp [hpc] at hno
    | .allocPurge => simp [hpc] at hno
    | .allocNext _ => simp [hpc] at hno
    | .freeHead _ _ => simp [hpc] at hno
    | .freeLink _ _ _ => simp [hpc] at hno
    | .freeOld _ _ => simp [hpc] at hno
    | .freeCas _ _ _ => simp [hpc] at hno
  | _ => exact absurd trivial hno

/-- **The freelist is safe exactly in the runs without a stale pop**, for any number of tasks and
any interleaving: every state keeps the frames partitioned between the freelist and their
owners, with no `NULL` head followed, iff every step meets `FreshPop`. -/
theorem freelist_safe_iff_freshPop {s0 : State Tid} {es : List (Event Tid)}
    (h0 : Initial frames s0) (hrun : Run Step s0 es s) :
    Everywhere Step (FreelistSafe frames) s0 es ↔ Guarded Step FreshPop s0 es := by
  refine hrun.everywhere_iff_guarded ?_ h0.inv (fun _ h => h.safe) ?_ ?_ guarded_true
  · intro s e t t' h h'
    exact some_inj.mp (h.symm.trans h')
  · exact fun s e t h hok hstep => inv_step h hok.2 hstep
  · exact fun s e t h hno hstep => not_safe_of_not_freshPop h hno hstep

/-! ### The head that comes back -/

/-- Three frames on the freelist, in this order, and two idle tasks. -/
def threeFrames : State (Fin 2) where
  pageFreelist := 0xD0010000
  next := fun f =>
    if f = 0xD0010000 then 0xD0011000 else if f = 0xD0011000 then 0xD0012000 else 0
  owned := []
  pc := fun _ => .idle

theorem threeFrames_initial :
    Initial [0xD0010000, 0xD0011000, 0xD0012000] threeFrames where
  safe := by
    refine ⟨⟨[0xD0010000, 0xD0011000, 0xD0012000], ?_, by decide, by decide, by decide, ?_⟩, ?_⟩
    · simp [Chain, threeFrames]
    · intro f
      simp [State.ownedFrames, threeFrames]
    · intro t
      simp [threeFrames]
  idle := fun _ => rfl
  proper := by decide

/-- A whole call of `pf_alloc` by `t` that nobody disturbs. -/
def popAlone (t : Fin 2) : List (Event (Fin 2)) := [.pfAlloc t, .run t, .run t, .run t, .run t]

/-- Task 0 is preempted in `pf_alloc` after it has read the head and its
successor.  Task 1 pops the head and the successor, and pushes the head back.
Then task 0 goes on. -/
def abaRun : List (Event (Fin 2)) :=
  [.pfAlloc 0, .run 0, .run 0, .run 0] ++ popAlone 1 ++ popAlone 1 ++
  [.pfFree 1 0xD0010000, .run 1, .run 1, .run 1, .run 1] ++ [.run 0]

theorem abaRun_isSome : (abaRun.foldlM State.step threeFrames).isSome = true := by decide

/-- **The head that comes back.**  From a freelist of three frames, two tasks reach a state in
which the second frame is the head of the freelist and owned by task 1. -/
theorem aba_breaks_freelist :
    ∃ s, Initial [0xD0010000, 0xD0011000, 0xD0012000] threeFrames ∧
      Run Step threeFrames abaRun s ∧
      s.pageFreelist = 0xD0011000 ∧ (some 1, 0xD0011000) ∈ s.owned ∧
      ¬ FreelistSafe [0xD0010000, 0xD0011000, 0xD0012000] s := by
  set s := (abaRun.foldlM State.step threeFrames).get abaRun_isSome with hs
  have hhead : s.pageFreelist = 0xD0011000 := by decide
  have hown : (some 1, 0xD0011000) ∈ s.owned := by decide
  refine ⟨s, threeFrames_initial, run_iff_foldlM.mpr (some_get _).symm, hhead, hown, ?_⟩
  rintro ⟨⟨l, hl, -, -, hd, -⟩, -⟩
  obtain ⟨l', rfl, -⟩ := hl.eq_cons (by decide)
  exact hd _ (mem_cons_self ..) (mem_ownedFrames hown)

/-- The theorem at work: one undisturbed pop from the three frames. -/
theorem freelist_safe_iff_freshPop_threeFrames :
    ∃ s, Initial [0xD0010000, 0xD0011000, 0xD0012000] threeFrames ∧
      Run Step threeFrames (popAlone 0) s ∧
      (Everywhere Step (FreelistSafe [0xD0010000, 0xD0011000, 0xD0012000]) threeFrames (popAlone 0)
        ↔ Guarded Step FreshPop threeFrames (popAlone 0)) := by
  have hsome : ((popAlone 0).foldlM State.step threeFrames).isSome = true := by decide
  have hrun : Run Step threeFrames (popAlone 0) (Option.get _ hsome) :=
    run_iff_foldlM.mpr (some_get _).symm
  exact ⟨_, threeFrames_initial, hrun, freelist_safe_iff_freshPop threeFrames_initial hrun⟩

end PageFrames
