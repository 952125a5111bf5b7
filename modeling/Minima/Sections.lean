/-
A language for code with sections without interrupts, and a check that the sections
are closed on every path.

A function is a statement made of `cli_push`, `cli_pop`, `sched`, tests and calls.
What a test finds is not known beforehand: an execution records the outcomes of its
tests.  Some outcomes may be known to leave a section open, as when a function returns
early; these are the debts.  The check goes through a function once, with the number
of sections it has open and its debts so far, and wants the two to be equal wherever
the function returns.

* `Exec` — the executions of a statement, as one task sees them;
* `Deeper` — `n` more sections are open than before, whatever was open then;
* `flow`, `good` — the check;
* `deeper_of_exec` — if every function passes, then a call leaves as many sections
  open as there are debts in its record, and is never stopped by `cli_pop`;
* `view_of_switch` — a task among others finds its view after `sched` as `Exec` has it.
-/
import Minima.Interrupts
import Mathlib.Algebra.Ring.Nat
import Mathlib.Data.List.Basic

open Interrupts

namespace Sections

/-! ### Statements -/

/-- Statements, with tests `Q` and functions `F`. -/
inductive Stmt (Q F : Type)
  | skip
  | seq (a b : Stmt Q F)
  /-- `cli_push` -/
  | push
  /-- `cli_pop` -/
  | pop
  | sched
  | ite (q : Q) (a b : Stmt Q F)
  | while (q : Q) (body : Stmt Q F)
  /-- `for (;;)` -/
  | forever (body : Stmt Q F)
  /-- a call whose result is not looked at -/
  | call (f : F)
  /-- a call, and a test of its result -/
  | branch (f : F) (a b : Stmt Q F)
  /-- `return`, of a result that counts as true or as false -/
  | ret (ok : Bool)
  /-- a panic or a fault: the task does not go on -/
  | halt

/-- A sequence of statements. -/
def Stmt.block {Q F : Type} : List (Stmt Q F) → Stmt Q F
  | [] => .skip
  | s :: l => .seq s (block l)

/-- `assert(q)` -/
def Stmt.assert {Q F : Type} (q : Q) : Stmt Q F := .ite q .skip .halt

/-- What a task sees of the sections: its own fields and the interrupt flag. -/
structure View extends Cli where
  intr : Bool

/-- `cli_push` -/
def View.push (v : View) : View := ⟨v.toCli.push v.intr, false⟩

/-- How a statement ends: at its end, with a `return`, or because `cli_pop` panics or
`sched` is called with interrupts enabled. -/
inductive Outcome
  | next
  | returned (ok : Bool)
  | broken

/-- What a call comes to, when the function has come to its end or has returned. -/
inductive Outcome.Result : Outcome → Bool → Prop
  | next : Result .next true
  | returned (ok : Bool) : Result (.returned ok) ok

section Language

variable {Q F : Type} (body : F → Stmt Q F)

/-- The executions of a statement, with the outcomes of the tests.  Interrupts and other tasks
leave its view as it is: a task that is switched to finds interrupts disabled. -/
inductive Exec : Stmt Q F → View → List (Q × Bool) → View → Outcome → Prop
  | skip {v} : Exec .skip v [] v .next
  | seq {a b v v1 v' r r' o} (ha : Exec a v r v1 .next) (hb : Exec b v1 r' v' o) :
      Exec (.seq a b) v (r ++ r') v' o
  | seqStop {a b v v' r o} (ha : Exec a v r v' o) (ho : o ≠ .next) : Exec (.seq a b) v r v' o
  | push {v} : Exec .push v [] v.push .next
  | pop {v c intr} (h : v.toCli.pop v.intr = .ok (c, intr)) : Exec .pop v [] ⟨c, intr⟩ .next
  | popPanics {v e} (h : v.toCli.pop v.intr = .error e) : Exec .pop v [] v .broken
  | sched {v} (h : v.intr = false) : Exec .sched v [] v .next
  | schedEnabled {v} (h : v.intr = true) : Exec .sched v [] v .broken
  | iteTrue {q a b v v' r o} (h : Exec a v r v' o) : Exec (.ite q a b) v ((q, true) :: r) v' o
  | iteFalse {q a b v v' r o} (h : Exec b v r v' o) : Exec (.ite q a b) v ((q, false) :: r) v' o
  | whileFalse {q s v} : Exec (.while q s) v [(q, false)] v .next
  | whileTrue {q s v v1 v' r r' o} (hs : Exec s v r v1 .next)
      (hrest : Exec (.while q s) v1 r' v' o) :
      Exec (.while q s) v ((q, true) :: (r ++ r')) v' o
  | whileStop {q s v v' r o} (hs : Exec s v r v' o) (ho : o ≠ .next) :
      Exec (.while q s) v ((q, true) :: r) v' o
  | forever {s v v1 v' r r' o} (hs : Exec s v r v1 .next) (hrest : Exec (.forever s) v1 r' v' o) :
      Exec (.forever s) v (r ++ r') v' o
  | foreverStop {s v v' r o} (hs : Exec s v r v' o) (ho : o ≠ .next) :
      Exec (.forever s) v r v' o
  | call {f v v' r o ok} (h : Exec (body f) v r v' o) (ho : o.Result ok) :
      Exec (.call f) v r v' .next
  | callBroken {f v v' r} (h : Exec (body f) v r v' .broken) : Exec (.call f) v r v' .broken
  | branchTrue {f a b v v1 v' r r' o o'} (h : Exec (body f) v r v1 o) (ho : o.Result true)
      (ha : Exec a v1 r' v' o') : Exec (.branch f a b) v (r ++ r') v' o'
  | branchFalse {f a b v v1 v' r r' o o'} (h : Exec (body f) v r v1 o) (ho : o.Result false)
      (hb : Exec b v1 r' v' o') : Exec (.branch f a b) v (r ++ r') v' o'
  | branchBroken {f a b v v' r} (h : Exec (body f) v r v' .broken) :
      Exec (.branch f a b) v r v' .broken
  | ret {ok v} : Exec (.ret ok) v [] v (.returned ok)

end Language

/-! ### Sections that are open -/

/-- Interrupts are disabled in a section. -/
structure View.Ok (v : View) : Prop where
  depth : 0 ≤ v.cliDepth
  disabled : 0 < v.cliDepth → v.intr = false

/-- `n` more sections are open in `v` than in `v0`. -/
structure Deeper (n : ℕ) (v0 v : View) : Prop where
  depth : v.cliDepth = v0.cliDepth + n
  intr : v.intr = if n = 0 then v0.intr else false
  inner : 0 < v0.cliDepth → v.cliIntEnabled = v0.cliIntEnabled
  outermost : v0.cliDepth = 0 → 0 < n → v.cliIntEnabled = v0.intr

namespace Deeper

variable {n m : ℕ} {v0 v v' : View}

theorem refl (v : View) : Deeper 0 v v where
  depth := by simp
  intr := by simp
  inner _ := rfl
  outermost _ h := absurd h (lt_irrefl 0)

theorem ok (h : Deeper n v0 v) (h0 : v0.Ok) : v.Ok := by
  refine ⟨?_, fun hpos => ?_⟩
  · have := h0.depth
    rw [h.depth]
    omega
  · rw [h.intr]
    split
    · rename_i hn
      rw [h.depth, hn] at hpos
      exact h0.disabled (by simpa using hpos)
    · rfl

theorem trans (h : Deeper n v0 v) (h' : Deeper m v v') : Deeper (n + m) v0 v' := by
  have hdepth := h.depth
  refine ⟨?_, ?_, fun hpos => ?_, fun hzero hlt => ?_⟩
  · rw [h'.depth, hdepth]
    omega
  · rw [h'.intr, h.intr]
    by_cases hm : m = 0
    · simp [hm]
    · rw [if_neg hm, if_neg (by omega)]
  · rw [h'.inner (by omega), h.inner hpos]
  · -- the flag was saved in the first part or in the second
    rcases Nat.eq_zero_or_pos n with hn | hn
    · rw [h'.outermost (by omega) (by omega), h.intr, if_pos hn]
    · rw [h'.inner (by omega), h.outermost hzero hn]

theorem push (h : Deeper n v0 v) : Deeper (n + 1) v0 v.push := by
  refine h.trans ⟨rfl, rfl, fun hpos => ?_, fun hzero _ => ?_⟩
  · show (if v.cliDepth = 0 then v.intr else v.cliIntEnabled) = _
    rw [if_neg (by omega)]
  · show (if v.cliDepth = 0 then v.intr else v.cliIntEnabled) = _
    rw [if_pos hzero]

theorem pop (h : Deeper (n + 1) v0 v) (h0 : v0.Ok) :
    ∃ c intr, v.toCli.pop v.intr = .ok (c, intr) ∧ Deeper n v0 ⟨c, intr⟩ := by
  have hnonneg := h0.depth
  have hintr : v.intr = false := by rw [h.intr, if_neg (Nat.succ_ne_zero n)]
  have hdepth : v.cliDepth - 1 = v0.cliDepth + n := by
    rw [h.depth]
    push_cast
    omega
  refine ⟨⟨v0.cliDepth + n, v.cliIntEnabled⟩,
    if v0.cliDepth + n = 0 ∧ v.cliIntEnabled then true else false, ?_, rfl, ?_, h.inner, ?_⟩
  · rw [hintr, Cli.pop, if_neg Bool.false_ne_true]
    simp only [hdepth]
    rw [if_neg (by omega)]
  · by_cases hzero : v0.cliDepth = 0 ∧ n = 0
    · -- the outermost section: the flag is given back
      obtain ⟨hz, hn⟩ := hzero
      have hsaved := h.outermost hz (Nat.succ_pos n)
      simp [hz, hn, hsaved]
    · have hpos : v0.cliDepth + n ≠ 0 := by omega
      show (if v0.cliDepth + n = 0 ∧ v.cliIntEnabled then true else false) = _
      rw [if_neg fun hboth => hpos hboth.1]
      by_cases hn : n = 0
      · rw [if_pos hn, h0.disabled (by omega)]
      · rw [if_neg hn]
  · intro hz _
    exact h.outermost hz (Nat.succ_pos n)

end Deeper

/-! ### The check -/

section Check

variable {Q F : Type} (debt : Q → Bool → ℕ)

/-- The debts in a record. -/
def weight (r : List (Q × Bool)) : ℕ := (r.map fun a => debt a.1 a.2).sum

/-- The end of a test: its two branches have to agree, unless one of them does not come
to its end. -/
def join : Option (ℕ × ℕ) → Option (ℕ × ℕ) → Option (Option (ℕ × ℕ))
  | none, y => some y
  | x, none => some x
  | some x, some y => if x = y then some (some x) else none

/-- The check of a statement, from the number of open sections and debts at its
beginning.  It yields those at its end, if the end can be reached. -/
def flow : Stmt Q F → ℕ × ℕ → Option (Option (ℕ × ℕ))
  | .skip, x => some (some x)
  | .seq a b, x =>
    match flow a x with
    | some (some y) => flow b y
    | y => y
  | .push, x => some (some (x.1 + 1, x.2))
  | .pop, x =>
    match x.1 with
    | 0 => none
    | k + 1 => some (some (k, x.2))
  | .sched, x => if 0 < x.1 then some (some x) else none
  | .ite q a b, x =>
    match flow a (x.1, x.2 + debt q true), flow b (x.1, x.2 + debt q false) with
    | some y, some z => join y z
    | _, _ => none
  | .while q s, x =>
    if debt q true = 0 ∧ debt q false = 0 ∧ (flow s x = some none ∨ flow s x = some (some x)) then
      some (some x)
    else none
  | .forever s, x =>
    if flow s x = some none ∨ flow s x = some (some x) then some none else none
  | .call _, x => some (some x)
  | .branch _ a b, x =>
    match flow a x, flow b x with
    | some y, some z => join y z
    | _, _ => none
  | .ret _, x => if x.1 = x.2 then some none else none
  | .halt, _ => some none

/-- The check of a function. -/
def good (s : Stmt Q F) : Bool :=
  match flow debt s (0, 0) with
  | none => false
  | some none => true
  | some (some x) => x.1 = x.2

variable {debt} {body : F → Stmt Q F} {v0 v v' : View} {r r' : List (Q × Bool)} {o : Outcome}
  {k c l : ℕ} {x y z : Option (ℕ × ℕ)}

@[simp] theorem weight_append : weight debt (r ++ r') = weight debt r + weight debt r' := by
  simp [weight]

@[simp] theorem weight_cons {a : Q × Bool} : weight debt (a :: r) =
    debt a.1 a.2 + weight debt r := by
  simp [weight]

@[simp] theorem weight_nil : weight debt ([] : List (Q × Bool)) = 0 := rfl

variable {w : ℕ × ℕ}

theorem join_left (h : join (some w) z = some x) : x = some w := by
  cases z with
  | none => exact (Option.some.inj h).symm
  | some z =>
    rw [join] at h
    split at h
    · exact (Option.some.inj h).symm
    · cases h

theorem join_right (h : join y (some w) = some x) : x = some w := by
  cases y with
  | none => exact (Option.some.inj h).symm
  | some y =>
    rw [join] at h
    split at h
    · rename_i heq
      rw [← heq]
      exact (Option.some.inj h).symm
    · cases h

/-- What the check says of an execution from a state with `k` open sections of the
function itself, `c` debts and `l` sections that its calls have left open. -/
def Sound (v0 : View) (x : Option (ℕ × ℕ)) (n : ℕ) (v' : View) : Outcome → Prop
  | .next => ∃ k' c' l', x = some (k', c') ∧ Deeper (k' + l') v0 v' ∧ l' + c' = n
  | .returned _ => Deeper n v0 v'
  | .broken => False

variable {n : ℕ}

theorem Sound.join_left (h : Sound v0 y n v' o) (hj : join y z = some x) : Sound v0 x n v' o := by
  cases o with
  | next =>
    obtain ⟨k', c', l', rfl, hdeep, hsum⟩ := h
    exact ⟨k', c', l', Sections.join_left hj, hdeep, hsum⟩
  | returned ok => exact h
  | broken => exact h

theorem Sound.join_right (h : Sound v0 z n v' o) (hj : join y z = some x) : Sound v0 x n v' o := by
  cases o with
  | next =>
    obtain ⟨k', c', l', rfl, hdeep, hsum⟩ := h
    exact ⟨k', c', l', Sections.join_right hj, hdeep, hsum⟩
  | returned ok => exact h
  | broken => exact h

theorem Sound.of_stop (h : Sound v0 y n v' o) (ho : o ≠ .next) : Sound v0 x n v' o := by
  cases o with
  | next => exact absurd rfl ho
  | returned ok => exact h
  | broken => exact h

variable {s : Stmt Q F}

theorem deeper_of_sound (hgood : good debt s = true)
    (h : ∀ x, flow debt s (0, 0) = some x → Sound v0 x n v' o) :
    (∃ ok, o.Result ok) ∧ Deeper n v0 v' := by
  rw [good] at hgood
  cases hflow : flow debt s (0, 0) with
  | none => simp [hflow] at hgood
  | some x =>
    have hsound := h x hflow
    cases o with
    | next =>
      obtain ⟨k', c', l', rfl, hdeep, hsum⟩ := hsound
      have heq : k' = c' := by simpa [hflow] using hgood
      rw [show k' + l' = n by omega] at hdeep
      exact ⟨⟨true, .next⟩, hdeep⟩
    | returned ok => exact ⟨⟨ok, .returned ok⟩, hsound⟩
    | broken => exact hsound.elim

theorem deeper_of_call (hgood : good debt s = true) (h0 : v0.Ok) (hdeep : Deeper (k + l) v0 v)
    (ih : ∀ {k c l x v0}, v0.Ok → flow debt s (k, c) = some x → Deeper (k + l) v0 v →
      Sound v0 x (l + c + weight debt r) v' o) :
    (∃ ok, o.Result ok) ∧ Deeper (k + (l + weight debt r)) v0 v' := by
  obtain ⟨hresult, hcall⟩ := deeper_of_sound hgood fun x hx =>
    ih (l := 0) (hdeep.ok h0) hx (Deeper.refl v)
  rw [zero_add, zero_add] at hcall
  rw [← add_assoc]
  exact ⟨hresult, hdeep.trans hcall⟩

theorem exists_flow (h : flow debt s (k, c) = some none ∨
    flow debt s (k, c) = some (some (k, c))) :
    ∃ y, flow debt s (k, c) = some y ∧ ∀ w, y = some w → w = (k, c) := by
  rcases h with h | h
  · exact ⟨none, h, fun w hw => by cases hw⟩
  · exact ⟨_, h, fun w hw => (Option.some.inj hw).symm⟩

/-- **The check is sound**, for every statement of functions that pass it. -/
theorem sound_of_exec (hgood : ∀ f, good debt (body f) = true) (h : Exec body s v r v' o)
    (h0 : v0.Ok) (hflow : flow debt s (k, c) = some x) (hdeep : Deeper (k + l) v0 v) :
    Sound v0 x (l + c + weight debt r) v' o := by
  induction h generalizing k c l x v0 with
  | skip =>
    cases hflow
    exact ⟨k, c, l, rfl, hdeep, by simp⟩
  | @seq a b v v1 v' r r' o _ _ iha ihb =>
    rw [flow] at hflow
    cases ha : flow debt a (k, c) with
    | none => simp [ha] at hflow
    | some y =>
      obtain ⟨k1, c1, l1, rfl, hdeep1, hsum⟩ := iha h0 ha hdeep
      simp only [ha] at hflow
      have hb := ihb h0 hflow hdeep1
      rwa [hsum, add_assoc, ← weight_append] at hb
  | @seqStop a b v v' r o _ ho iha =>
    rw [flow] at hflow
    cases ha : flow debt a (k, c) with
    | none => simp [ha] at hflow
    | some y => exact (iha h0 ha hdeep).of_stop ho
  | push =>
    cases hflow
    refine ⟨k + 1, c, l, rfl, ?_, by simp⟩
    rw [show k + 1 + l = k + l + 1 by omega]
    exact hdeep.push
  | @pop v cl intr hpop =>
    cases k with
    | zero => cases hflow
    | succ k =>
      cases hflow
      rw [show k + 1 + l = k + l + 1 by omega] at hdeep
      obtain ⟨cl', intr', hpop', hdeep'⟩ := hdeep.pop h0
      rw [hpop] at hpop'
      cases hpop'
      exact ⟨k, c, l, rfl, hdeep', by simp⟩
  | @popPanics v e hpanic =>
    cases k with
    | zero => cases hflow
    | succ k =>
      rw [show k + 1 + l = k + l + 1 by omega] at hdeep
      obtain ⟨cl, intr, hpop, -⟩ := hdeep.pop h0
      rw [hpanic] at hpop
      cases hpop
  | sched _ =>
    rw [flow] at hflow
    split at hflow
    · cases hflow
      exact ⟨k, c, l, rfl, hdeep, by simp⟩
    · cases hflow
  | schedEnabled henabled =>
    rw [flow] at hflow
    split at hflow
    · -- in a section interrupts are disabled
      rw [hdeep.intr, if_neg (by omega)] at henabled
      cases henabled
    · cases hflow
  | @iteTrue q a b v v' r o _ ih =>
    rw [flow] at hflow
    split at hflow
    · rename_i y z ha hb
      have hs := (ih h0 ha hdeep).join_left hflow
      rwa [show l + (c + debt q true) + weight debt r = l + c + weight debt ((q, true) :: r) by
        simp; omega] at hs
    · cases hflow
  | @iteFalse q a b v v' r o _ ih =>
    rw [flow] at hflow
    split at hflow
    · rename_i y z ha hb
      have hs := (ih h0 hb hdeep).join_right hflow
      rwa [show l + (c + debt q false) + weight debt r = l + c + weight debt ((q, false) :: r) by
        simp; omega] at hs
    · cases hflow
  | @whileFalse q s v =>
    rw [flow] at hflow
    split at hflow
    · rename_i hcond
      cases hflow
      exact ⟨k, c, l, rfl, hdeep, by simp [hcond.2.1]⟩
    · cases hflow
  | @whileTrue q s v v1 v' r r' o _ _ ihs ihrest =>
    have hloop := hflow
    rw [flow] at hflow
    split at hflow
    · rename_i hcond
      -- the body comes back to the same number of sections and debts
      obtain ⟨y, hs, hy⟩ := exists_flow hcond.2.2
      obtain ⟨k1, c1, l1, rfl, hdeep1, hsum⟩ := ihs h0 hs hdeep
      cases hy _ rfl
      have hrest := ihrest h0 hloop hdeep1
      rwa [hsum, add_assoc, show weight debt r + weight debt r' =
        weight debt ((q, true) :: (r ++ r')) by simp [hcond.1]] at hrest
    · cases hflow
  | @whileStop q s v v' r o _ ho ihs =>
    rw [flow] at hflow
    split at hflow
    · rename_i hcond
      obtain ⟨y, hs, -⟩ := exists_flow hcond.2.2
      rw [show weight debt ((q, true) :: r) = weight debt r by simp [hcond.1]]
      exact (ihs h0 hs hdeep).of_stop ho
    · cases hflow
  | @forever s v v1 v' r r' o _ _ ihs ihrest =>
    have hloop := hflow
    rw [flow] at hflow
    split at hflow
    · rename_i hcond
      obtain ⟨y, hs, hy⟩ := exists_flow hcond
      obtain ⟨k1, c1, l1, rfl, hdeep1, hsum⟩ := ihs h0 hs hdeep
      cases hy _ rfl
      have hrest := ihrest h0 hloop hdeep1
      rwa [hsum, add_assoc, ← weight_append] at hrest
    · cases hflow
  | @foreverStop s v v' r o _ ho ihs =>
    rw [flow] at hflow
    split at hflow
    · rename_i hcond
      obtain ⟨y, hs, -⟩ := exists_flow hcond
      exact (ihs h0 hs hdeep).of_stop ho
    · cases hflow
  | @call f v v' r o ok _ _ ih =>
    cases hflow
    -- the function starts with no section of its own
    obtain ⟨-, hdeep1⟩ := deeper_of_call (hgood f) h0 hdeep ih
    exact ⟨k, c, l + weight debt r, rfl, hdeep1, by omega⟩
  | @callBroken f v v' r _ ih =>
    obtain ⟨⟨ok, hresult⟩, -⟩ := deeper_of_call (hgood f) h0 hdeep ih
    cases hresult
  | @branchTrue f a b v v1 v' r r' o o' _ _ _ ih iha =>
    rw [flow] at hflow
    split at hflow
    · rename_i y z ha hb
      obtain ⟨-, hdeep1⟩ := deeper_of_call (hgood f) h0 hdeep ih
      have hs := (iha h0 ha hdeep1).join_left hflow
      rwa [show l + weight debt r + c + weight debt r' = l + c + weight debt (r ++ r') by
        rw [weight_append]; omega] at hs
    · cases hflow
  | @branchFalse f a b v v1 v' r r' o o' _ _ _ ih ihb =>
    rw [flow] at hflow
    split at hflow
    · rename_i y z ha hb
      obtain ⟨-, hdeep1⟩ := deeper_of_call (hgood f) h0 hdeep ih
      have hs := (ihb h0 hb hdeep1).join_right hflow
      rwa [show l + weight debt r + c + weight debt r' = l + c + weight debt (r ++ r') by
        rw [weight_append]; omega] at hs
    · cases hflow
  | @branchBroken f a b v v' r _ ih =>
    obtain ⟨⟨ok, hresult⟩, -⟩ := deeper_of_call (hgood f) h0 hdeep ih
    cases hresult
  | ret =>
    rw [flow] at hflow
    split at hflow
    · rename_i heq
      have hk : k = c := heq
      show Deeper _ _ _
      rw [weight_nil, add_zero, ← hk, add_comm]
      exact hdeep
    · cases hflow

/-- **A call leaves open what its record owes**, and nothing else. -/
theorem deeper_of_exec (hgood : ∀ f, good debt (body f) = true) {f : F} (h0 : v.Ok)
    (h : Exec body (body f) v r v' o) :
    (∃ ok, o.Result ok) ∧ Deeper (weight debt r) v v' := by
  have hcall :=
    deeper_of_call (k := 0) (l := 0) (hgood f) h0 (Deeper.refl v) (sound_of_exec hgood h)
  rwa [zero_add, zero_add] at hcall

end Check

/-! ### The view of a task among others -/

section Tasks

variable {T : Type} [DecidableEq T] {s s' s'' : State T} {t : T}

/-- What the running task sees. -/
def view (s : State T) : View := ⟨s.running.toCli, s.intr⟩

theorem toCli_of_step {e : Event T} (hstep : Step s e s') (ht : s.current ≠ t) :
    (s'.tasks t).toCli = (s.tasks t).toCli := by
  cases hstep with
  | @sched next _ _ =>
    by_cases hn : t = next
    · subst hn
      simp [State.switchTo]
    · simp [State.switchTo, Function.update_of_ne hn]
  | cli _ _ => rfl
  | sti _ _ => rfl
  | _ => exact congrArg Task.toCli (Function.update_of_ne ht.symm _ _)

/-- **A task that has called `sched`** finds its fields as they were when it is switched
to again, and interrupts disabled. -/
theorem view_of_switch {es : List (Event T)} (hrun : Run Step s es s')
    (hoff : Guarded Step (fun s _ => s.current ≠ t) s es) (hstarted : (s'.tasks t).fresh = false)
    (hstep : Step s' (.sched t) s'') : view s'' = ⟨(s.tasks t).toCli, false⟩ := by
  have hkept : (s'.tasks t).toCli = (s.tasks t).toCli := by
    refine Run.invariant_of_guarded
      (I := fun s' : State T => (s'.tasks t).toCli = (s.tasks t).toCli) rfl ?_ hrun hoff
    intro s1 e s2 h hne hstep
    exact (toCli_of_step hstep hne).trans h
  cases hstep with
  | sched _ hintr =>
    rw [view, ← hkept]
    simp [State.running, State.switchTo, hstarted, hintr]

end Tasks

end Sections
