/-
Runs of labelled transition systems.

`Run R s0 es s` says that the labels `es`, taken one after the other from
`s0`, lead to `s`.  A stateful component is modelled as such a relation, and a
safety theorem about it is an instance of one of the rules below:

* `Run.invariant` — what the start state satisfies and every step keeps holds
  in every state reached;
* `Run.invariant_of_guarded` — the same for the runs all of whose steps meet a
  condition on the state before the step and on its label;
* `Run.everywhere_iff_guarded` — when a step keeps the invariant *exactly* if
  it meets the condition, a run stays inside the invariant iff it is guarded;
* `Run.exists_reaching` — a goal that a step always brings closer is reached by
  enough such steps.
-/
import Mathlib.Data.List.Basic
import Mathlib.Data.List.Infix

section Runs

variable {σ α : Type*} {R : σ → α → σ → Prop} {s0 s t : σ} {es : List α}

/-- The labels `es` lead from `s0` to the last state, one `R`-step each. -/
inductive Run (R : σ → α → σ → Prop) (s0 : σ) : List α → σ → Prop
  | nil : Run R s0 [] s0
  | snoc {es : List α} {s t : σ} {e : α} : Run R s0 es s → R s e t → Run R s0 (es ++ [e]) t

/-- Every step of the run meets the condition `ok` in the state before it. -/
def Guarded (R : σ → α → σ → Prop) (ok : σ → α → Prop) (s0 : σ) (es : List α) : Prop :=
  ∀ p e u, p ++ [e] <+: es → Run R s0 p u → ok u e

/-- Every state the run goes through, its two ends included, satisfies `I`. -/
def Everywhere (R : σ → α → σ → Prop) (I : σ → Prop) (s0 : σ) (es : List α) : Prop :=
  ∀ p u, p <+: es → Run R s0 p u → I u

theorem run_nil_iff : Run R s0 [] s ↔ s = s0 := by
  constructor
  · intro h
    generalize hes : ([]) = es at h
    cases h with
    | nil => rfl
    | snoc _ _ => simp at hes
  · rintro rfl
    exact .nil

variable {e : α}

theorem run_snoc_iff : Run R s0 (es ++ [e]) t ↔ ∃ s, Run R s0 es s ∧ R s e t := by
  constructor
  · intro h
    generalize hes : es ++ [e] = es' at h
    cases h with
    | nil => simp at hes
    | snoc hrun hstep =>
      obtain ⟨rfl, he⟩ := List.append_inj' hes rfl
      obtain rfl : e = _ := by simpa using he
      exact ⟨_, hrun, hstep⟩
  · rintro ⟨s, hrun, hstep⟩
    exact .snoc hrun hstep

theorem run_cons_iff : Run R s0 (e :: es) t ↔ ∃ s, R s0 e s ∧ Run R s es t := by
  induction es using List.reverseRecOn generalizing t with
  | nil =>
    rw [show [e] = [] ++ [e] from rfl, run_snoc_iff]
    constructor
    · rintro ⟨s, hs, hstep⟩
      rw [run_nil_iff] at hs
      subst hs
      exact ⟨t, hstep, .nil⟩
    · rintro ⟨s, hstep, hs⟩
      rw [run_nil_iff] at hs
      subst hs
      exact ⟨s0, .nil, hstep⟩
  | append_singleton es e' ih =>
    rw [← List.cons_append, run_snoc_iff]
    constructor
    · rintro ⟨u, hu, hstep⟩
      obtain ⟨s, hs, hrun⟩ := ih.mp hu
      exact ⟨s, hs, .snoc hrun hstep⟩
    · rintro ⟨s, hs, hrun⟩
      obtain ⟨u, hu, hstep⟩ := run_snoc_iff.mp hrun
      exact ⟨u, ih.mpr ⟨s, hs, hu⟩, hstep⟩

theorem Run.append {es' : List α} (h : Run R s0 es s) (h' : Run R s es' t) :
    Run R s0 (es ++ es') t := by
  induction h' with
  | nil => simpa using h
  | snoc _ hstep ih =>
    rw [← List.append_assoc]
    exact .snoc ih hstep

variable {ok : σ → α → Prop}

theorem guarded_nil : Guarded R ok s0 [] := by
  intro p e u hp
  simp at hp

theorem guarded_true : Guarded R (fun _ _ => True) s0 es := fun _ _ _ _ _ => trivial

theorem guarded_cons (h : ok s0 e) (ht : ∀ s, R s0 e s → Guarded R ok s es) :
    Guarded R ok s0 (e :: es) := by
  intro p e' u hp hu
  cases p with
  | nil =>
    obtain ⟨rfl, -⟩ := List.cons_prefix_cons.mp hp
    rw [run_nil_iff] at hu
    exact hu ▸ h
  | cons a p =>
    obtain ⟨rfl, hpre⟩ := List.cons_prefix_cons.mp hp
    obtain ⟨s, hs, hu⟩ := run_cons_iff.mp hu
    exact ht s hs p e' u hpre hu

variable {f : σ → α → Option σ}

theorem run_iff_foldlM : Run (fun s e t => f s e = some t) s es t ↔ es.foldlM f s = some t := by
  induction es generalizing s with
  | nil => rw [run_nil_iff, List.foldlM_nil, Option.pure_def, Option.some_inj, eq_comm]
  | cons e es ih =>
    rw [run_cons_iff, List.foldlM_cons, Option.bind_eq_bind, Option.bind_eq_some_iff]
    exact exists_congr fun u => and_congr_right fun _ => ih

variable {I : σ → Prop}

theorem everywhere_of_take [DecidablePred I]
    (h : ∀ k ≤ es.length, ((es.take k).foldlM f s0).all (fun u => I u) = true) :
    Everywhere (fun s e t => f s e = some t) I s0 es := by
  intro p u hp hu
  have hk := h p.length hp.length_le
  rw [← List.prefix_iff_eq_take.mp hp, run_iff_foldlM.mp hu] at hk
  simpa using hk

theorem guarded_of_take [∀ s e, Decidable (ok s e)]
    (h : ∀ k < es.length, ((es.take k).foldlM f s0).all
      (fun u => (es[k]?).all fun e => ok u e) = true) :
    Guarded (fun s e t => f s e = some t) ok s0 es := by
  intro p e u hp hu
  have hlt : p.length < es.length := by
    have := hp.length_le
    rw [List.length_append, List.length_singleton] at this
    omega
  have hk := h p.length hlt
  have hpre : p <+: es := (List.prefix_append p [e]).trans hp
  have hget : es[p.length]? = some e := by
    obtain ⟨r, rfl⟩ := hp
    simp
  rw [← List.prefix_iff_eq_take.mp hpre, run_iff_foldlM.mp hu, hget] at hk
  simpa using hk

variable {p : List α}

theorem Guarded.restrict (h : Guarded R ok s0 es) (hp : p <+: es) : Guarded R ok s0 p :=
  fun q e u hq hu => h q e u (hq.trans hp) hu

/-- **Invariant rule.**  An invariant of the start state that every step keeps
holds in every state reached. -/
theorem Run.invariant (h0 : I s0) (hstep : ∀ s e t, I s → R s e t → I t) (hrun : Run R s0 es s) :
    I s := by
  induction hrun with
  | nil => exact h0
  | snoc _ hs ih => exact hstep _ _ _ ih hs

/-- **Guarded invariant rule.**  The same for steps that meet a condition, in
the runs all of whose steps do. -/
theorem Run.invariant_of_guarded (h0 : I s0) (hstep : ∀ s e t, I s → ok s e → R s e t → I t)
    (hrun : Run R s0 es s) (hok : Guarded R ok s0 es) : I s := by
  induction hrun with
  | nil => exact h0
  | snoc hr hs ih =>
    have hI := ih (hok.restrict (List.prefix_append _ _))
    exact hstep _ _ _ hI (hok _ _ _ (List.prefix_refl _) hr) hs

theorem Run.exists_initial (hrun : Run R s0 es s) (hp : p <+: es) : ∃ u, Run R s0 p u := by
  induction hrun with
  | nil =>
    rw [List.prefix_nil] at hp
    exact ⟨s0, hp ▸ .nil⟩
  | snoc hr hs ih =>
    rcases List.prefix_concat_iff.mp hp with rfl | hpre
    · exact ⟨_, .snoc hr hs⟩
    · exact ih hpre

theorem Run.det (hdet : ∀ s e t t', R s e t → R s e t' → t = t')
    (h : Run R s0 es s) (h' : Run R s0 es t) : s = t := by
  induction h generalizing t with
  | nil => exact (run_nil_iff.mp h').symm
  | snoc _ hs ih =>
    obtain ⟨u, hu, ht⟩ := run_snoc_iff.mp h'
    rw [ih hu] at hs
    exact hdet _ _ _ _ hs ht

/-- **Exactness rule.**  `J` is what may be seen of the invariant `I` of a deterministic system.
If guarded steps keep `I` and an unguarded step out of `I` always leaves `J`, then a run stays
in `J` iff all its steps are guarded.  All of them are known to meet the condition `pre`. -/
theorem Run.everywhere_iff_guarded {J : σ → Prop} {pre : σ → α → Prop}
    (hdet : ∀ s e t t', R s e t → R s e t' → t = t') (h0 : I s0) (hIJ : ∀ s, I s → J s)
    (hstep : ∀ s e t, I s → pre s e ∧ ok s e → R s e t → I t)
    (hbad : ∀ s e t, I s → ¬ ok s e → R s e t → ¬ J t) (hrun : Run R s0 es s)
    (hpre : Guarded R pre s0 es) : Everywhere R J s0 es ↔ Guarded R ok s0 es := by
  have hboth : ∀ {p u}, p <+: es → Guarded R ok s0 p → Run R s0 p u → I u := fun hp hok hu =>
    Run.invariant_of_guarded h0 hstep hu fun q e v hq hv =>
      ⟨hpre q e v (hq.trans hp) hv, hok q e v hq hv⟩
  constructor
  · intro hJ
    -- Along the run, `I` holds as long as all steps so far were guarded; the
    -- first unguarded step would show in `J`.
    have key : ∀ p, p <+: es → Guarded R ok s0 p := by
      intro p
      induction p using List.reverseRecOn with
      | nil =>
        intro _ q e u hq _
        simp at hq
      | append_singleton p e ih =>
        intro hp q e' u hq hu
        have hpe : p <+: es := (List.prefix_append p [e]).trans hp
        rcases List.prefix_concat_iff.mp hq with heq | hpre
        · obtain ⟨rfl, he⟩ := List.append_inj' heq rfl
          obtain rfl : e' = e := by simpa using he
          by_contra hno
          have hIu : I u := hboth hpe (ih hpe) hu
          obtain ⟨w, hw⟩ := hrun.exists_initial hp
          obtain ⟨u', hu', hstep'⟩ := run_snoc_iff.mp hw
          rw [hu'.det hdet hu] at hstep'
          exact hbad u e' w hIu hno hstep' (hJ _ w hp hw)
        · exact ih hpe q e' u hpre hu
    exact key es (List.prefix_refl _)
  · intro hok p u hp hu
    exact hIJ u (hboth hp (hok.restrict hp) hu)

/-- **Progress rule.**  If the step `e` leads from every state in `P` to a state in `P` that is in
`Q` or nearer to it, then enough of these steps lead from `P` into `Q`. -/
theorem Run.exists_reaching {P Q : σ → Prop} (μ : σ → ℕ)
    (hstep : ∀ s, P s → ¬ Q s → ∃ t, R s e t ∧ P t ∧ (Q t ∨ μ t < μ s)) (hs : P s) :
    ∃ n t, Run R s (List.replicate n e) t ∧ P t ∧ Q t := by
  induction hn : μ s using Nat.strong_induction_on generalizing s with
  | _ n ih =>
    by_cases hQ : Q s
    · exact ⟨0, s, .nil, hs, hQ⟩
    · obtain ⟨t, hst, hPt, hQt | hlt⟩ := hstep s hs hQ
      · exact ⟨1, t, run_cons_iff.mpr ⟨t, hst, .nil⟩, hPt, hQt⟩
      · obtain ⟨k, u, hrun, hPu, hQu⟩ := ih (μ t) (hn ▸ hlt) hPt rfl
        exact ⟨k + 1, u, run_cons_iff.mpr ⟨t, hst, hrun⟩, hPu, hQu⟩

end Runs
