/-
The reserved regions (`pfa_register_reserved_region` of `mm/pfa.c`).

`region_overlaps` asks whether the first frame of the new region, or the frame after its
last one, lies in the old region.  So it misses an old region that lies inside the new
one, and it reports a region that starts right where the new one ends.

* `regionOverlaps_iff` — what `region_overlaps` tells, case by case;
* `register_reserved_iff` — when a call panics exactly if the regions intersect, and when
  the regions stay disjoint over a run of calls.
-/
import Minima.PfaInit
import Minima.Runs

namespace PfaInit

open List

/-- The arguments of a call: at least one frame, and the end fits in 32 bits. -/
structure Call extends Region where
  pos : 1 ≤ pages
  small : start + pages < 2 ^ 32

namespace Region

variable (r new : Region)

/-- The half-open intervals have a frame in common. -/
def Intersects : Prop := ∃ p, r.Contains p ∧ new.Contains p

/-- The new region starts before the old one and goes on to its end at least. -/
def Swallows : Prop := new.start < r.start ∧ r.start + r.pages ≤ new.start + new.pages

/-- The old region starts where the new one ends. -/
def EndsAt : Prop := new.start + new.pages = r.start

end Region

/-- A call that returns. -/
def Register (s : State) (c : Call) (t : State) : Prop :=
  ∃ ret, pfaRegisterReservedRegion c.start c.pages s = .ok (ret, t)

/-- The regions have no frame in common. -/
def Disjoint (s : State) : Prop := s.sReserved.Pairwise fun r r' => ¬ r.Intersects r'

/-- The call panics exactly if the new region meets a registered one. -/
def Exact (s : State) (c : Call) : Prop :=
  pfaRegisterReservedRegion c.start c.pages s = .error .panic ↔
    ∃ r ∈ s.sReserved, r.Intersects c.toRegion

/-- With a full table, the call meets no region.  Otherwise it meets a region that it does
not swallow, or it swallows a region if and only if a region starts at its end. -/
def Judged (s : State) (c : Call) : Prop :=
  if maxRegions ≤ s.sReserved.length then ¬ ∃ r ∈ s.sReserved, r.Intersects c.toRegion
  else (∃ r ∈ s.sReserved, r.Intersects c.toRegion ∧ ¬ r.Swallows c.toRegion) ∨
    ((∃ r ∈ s.sReserved, r.EndsAt c.toRegion) ↔ ∃ r ∈ s.sReserved, r.Swallows c.toRegion)

/-- The table is full, or no registered region lies inside the new one. -/
def Unswallowed (s : State) (c : Call) : Prop :=
  maxRegions ≤ s.sReserved.length ∨ ∀ r ∈ s.sReserved, ¬ r.Swallows c.toRegion

variable {s s0 t : State} {c : Call} {r : Region} {calls : List Call}

theorem intersects_iff (hr : 1 ≤ r.pages) : r.Intersects c.toRegion ↔
    c.start < r.start + r.pages ∧ r.start < c.start + c.pages := by
  constructor
  · rintro ⟨p, ⟨hlo, hhi⟩, hlo', hhi'⟩
    omega
  · intro h
    have hc := c.pos
    exact ⟨max r.start c.start, ⟨by omega, by omega⟩, by omega, by omega⟩

/-- **`region_overlaps`** reports the regions that intersect, but for those inside the new
one, and those that start where the new one ends. -/
theorem regionOverlaps_iff (hr : 1 ≤ r.pages) : regionOverlaps r c.start c.pages = true ↔
    (r.Intersects c.toRegion ∧ ¬ r.Swallows c.toRegion) ∨ r.EndsAt c.toRegion := by
  rw [intersects_iff hr]
  simp only [regionOverlaps, Region.Swallows, Region.EndsAt, decide_eq_true_eq]
  omega

theorem register_panics_iff : pfaRegisterReservedRegion c.start c.pages s = .error .panic ↔
    s.sReserved.length < maxRegions ∧
      ∃ r ∈ s.sReserved, regionOverlaps r c.start c.pages = true := by
  rw [← any_eq_true, pfaRegisterReservedRegion]
  by_cases hfull : maxRegions ≤ s.sReserved.length
  · simp [hfull, not_lt.mpr hfull]
  · split <;> simp_all

theorem register_cases (h : Register s c t) : (maxRegions ≤ s.sReserved.length ∧ t = s) ∨
    s.sReserved.length < maxRegions ∧
      (∀ r ∈ s.sReserved, ¬ regionOverlaps r c.start c.pages = true) ∧
      t = { s with sReserved := s.sReserved ++ [c.toRegion] } := by
  obtain ⟨ret, h⟩ := h
  rw [pfaRegisterReservedRegion] at h
  by_cases hfull : maxRegions ≤ s.sReserved.length
  · rw [if_pos hfull] at h
    exact .inl ⟨hfull, (Prod.mk.inj (Except.ok.inj h)).2.symm⟩
  rw [if_neg hfull] at h
  split at h
  · cases h
  · rename_i hany
    refine .inr ⟨not_le.mp hfull, fun r hr hover => hany ?_,
      (Prod.mk.inj (Except.ok.inj h)).2.symm⟩
    exact any_eq_true.mpr ⟨r, hr, hover⟩

theorem register_det (h : Register s c t) {t' : State} (h' : Register s c t') : t = t' := by
  obtain ⟨ret, h⟩ := h
  obtain ⟨ret', h'⟩ := h'
  rw [h] at h'
  exact (Prod.mk.inj (Except.ok.inj h')).2

/-- Each registered region has a frame. -/
def EachFilled (s : State) : Prop := ∀ r ∈ s.sReserved, 1 ≤ r.pages

theorem EachFilled.register (hf : EachFilled s) (h : Register s c t) : EachFilled t := by
  rcases register_cases h with ⟨-, rfl⟩ | ⟨-, -, rfl⟩
  · exact hf
  · intro r hr
    rcases mem_append.mp hr with hr | hr
    · exact hf r hr
    · rw [mem_singleton.mp hr]
      exact c.pos

theorem disjoint_register (hf : EachFilled s) (hd : Disjoint s) (h : Register s c t) :
    Disjoint t ↔ Unswallowed s c := by
  rcases register_cases h with ⟨hfull, rfl⟩ | ⟨hroom, hover, rfl⟩
  · exact iff_of_true hd (.inl hfull)
  rw [Disjoint, pairwise_append, Unswallowed, or_iff_right (not_le.mpr hroom)]
  constructor
  · rintro ⟨-, -, hnew⟩ r hr hsw
    refine hnew r hr _ (mem_singleton.mpr rfl) ((intersects_iff (hf r hr)).mpr ?_)
    have hpos := hf r hr
    obtain ⟨hlo, hhi⟩ := hsw
    omega
  · intro hno
    refine ⟨hd, pairwise_singleton _ _, fun r hr r' hr' hmeet => hover r hr ?_⟩
    rw [mem_singleton.mp hr'] at hmeet
    exact (regionOverlaps_iff (hf r hr)).mpr (.inl ⟨hmeet, hno r hr⟩)

theorem exact_iff (hf : EachFilled s) : Exact s c ↔ Judged s c := by
  rw [Exact, Judged, register_panics_iff]
  by_cases hfull : maxRegions ≤ s.sReserved.length
  · rw [if_pos hfull, eq_false (not_lt.mpr hfull), false_and, false_iff]
  rw [if_neg hfull, and_iff_right (not_le.mp hfull)]
  have hover : (∃ r ∈ s.sReserved, regionOverlaps r c.start c.pages = true) ↔
      (∃ r ∈ s.sReserved, r.Intersects c.toRegion ∧ ¬ r.Swallows c.toRegion) ∨
        ∃ r ∈ s.sReserved, r.EndsAt c.toRegion := by
    rw [← exists_or]
    refine exists_congr fun r => ?_
    rw [← and_or_left]
    exact and_congr_right fun hr => regionOverlaps_iff (hf r hr)
  have hmeets : (∃ r ∈ s.sReserved, r.Intersects c.toRegion) ↔
      (∃ r ∈ s.sReserved, r.Intersects c.toRegion ∧ ¬ r.Swallows c.toRegion) ∨
        ∃ r ∈ s.sReserved, r.Swallows c.toRegion := by
    rw [← exists_or]
    refine exists_congr fun r => ?_
    rw [← and_or_left]
    refine and_congr_right fun hr => ?_
    have hin : r.Swallows c.toRegion → r.Intersects c.toRegion := by
      rintro ⟨hlo, hhi⟩
      have hpos := hf r hr
      exact (intersects_iff hpos).mpr ⟨by omega, by omega⟩
    constructor
    · intro h
      by_cases hsw : r.Swallows c.toRegion
      · exact .inr hsw
      · exact .inl ⟨h, hsw⟩
    · rintro (h | h)
      · exact h.1
      · exact hin h
  rw [hover, hmeets]
  by_cases hmet : ∃ r ∈ s.sReserved, r.Intersects c.toRegion ∧ ¬ r.Swallows c.toRegion
  · simp only [hmet, true_or]
  · simp only [hmet, false_or]

/-- **Registering reserved regions.**  In every run of calls, a call panics exactly if the new
region intersects a registered one iff it is `Judged`; and the regions stay disjoint iff no call
swallowed a region. -/
theorem register_reserved_iff (h0 : s0.sReserved = staticReserved)
    (hrun : Run Register s0 calls s) :
    (∀ c, Exact s c ↔ Judged s c) ∧
      (Everywhere Register Disjoint s0 calls ↔ Guarded Register Unswallowed s0 calls) := by
  have hf0 : EachFilled s0 := by
    rw [EachFilled, h0]
    decide
  have hd0 : Disjoint s0 := by
    rw [Disjoint, h0]
    simp only [staticReserved, pairwise_cons, mem_cons, not_mem_nil, or_false,
      forall_eq_or_imp, forall_eq, Region.Intersects, Region.Contains]
    refine ⟨⟨?_, ?_, ?_, ?_, ?_⟩, ⟨?_, ?_, ?_, ?_⟩, ⟨?_, ?_, ?_⟩, ⟨?_, ?_⟩, ?_, by simp⟩ <;>
      · rintro ⟨p, hp, hp'⟩
        omega
  constructor
  · intro c
    exact exact_iff (Run.invariant hf0 (fun _ _ _ hf h => hf.register h) hrun)
  · refine Run.everywhere_iff_guarded (I := fun s => EachFilled s ∧ Disjoint s)
      (fun s c t t' h h' => register_det h h') ⟨hf0, hd0⟩ (fun s h => h.2) ?_ ?_ hrun guarded_true
    · rintro s c t ⟨hf, hd⟩ ⟨-, hok⟩ h
      exact ⟨hf.register h, (disjoint_register hf hd h).mpr hok⟩
    · rintro s c t ⟨hf, hd⟩ hno h hdt
      exact hno ((disjoint_register hf hd h).mp hdt)

/-- The table of the source, before anything is registered. -/
def unregistered : State := ⟨⟨fun _ => 0, 0, false, 0⟩, 0, [], staticReserved, []⟩

/-- Frames 20 to 24. -/
def inTheWay : Call := ⟨⟨20, 5⟩, by decide, by decide⟩

/-- The two frames before them. -/
def justBefore : Call := ⟨⟨18, 2⟩, by decide, by decide⟩

/-- The frames 18 to 27, around them. -/
def around : Call := ⟨⟨18, 10⟩, by decide, by decide⟩

theorem run_inTheWay : Run Register unregistered [inTheWay]
    { unregistered with sReserved := staticReserved ++ [⟨20, 5⟩] } :=
  .snoc .nil ⟨0, rfl⟩

theorem register_reserved_iff_inTheWay :
    Everywhere Register Disjoint unregistered [inTheWay] := by
  refine (register_reserved_iff rfl run_inTheWay).2.mpr (guarded_cons (.inr ?_) fun _ _ =>
    guarded_nil)
  simp only [Region.Swallows]
  decide

/-- **After frames 20 to 24**, the two frames before them are refused, and the frames 18
to 27 are accepted. -/
theorem register_refuses_before_accepts_around :
    ∃ s, Run Register unregistered [inTheWay] s ∧ ¬ Exact s justBefore ∧ ¬ Exact s around ∧
      ∃ t, Register s around t ∧ ¬ Disjoint t := by
  refine ⟨_, run_inTheWay, fun h => ?_, fun h => ?_, _, ⟨0, rfl⟩, fun h => ?_⟩
  · obtain ⟨r, hr, p, ⟨hlo, hhi⟩, hlo', hhi'⟩ := h.mp rfl
    have hside : ∀ r ∈ staticReserved ++ [⟨20, 5⟩], r.start + r.pages ≤ 13 ∨ 20 ≤ r.start := by
      decide
    simp only [justBefore] at hlo' hhi'
    rcases hside r hr with hbelow | habove <;> omega
  · cases h.mpr ⟨⟨20, 5⟩, by decide, 20, by decide, by decide⟩
  · refine (pairwise_append.mp h).2.2 ⟨20, 5⟩ (by decide) ⟨18, 10⟩ (by decide) ?_
    exact ⟨20, by decide, by decide⟩

end PfaInit
