/-
Computations that make calls and may stop.

A `Traced κ ε α` records the calls of type `κ` it makes, in order, and then
either returns an `α` or stops with an `ε`.  The calls made before it stops stay
on record, so that one can speak about the calls of a computation that never
returns.

* `Traced.Meets` — every call is good, and a value returned satisfies `Q`;
* `Traced.Total` — the computation moreover returns;
* `Traced.Meets.bind`, `Traced.Total.bind` — the rules for a sequence of
  computations;
* `Traced.result_bind` — the value of a sequence, whatever calls it makes.
-/
import Mathlib.Data.List.Basic
import Mathlib.Tactic.Set

/-- A computation that makes calls and returns or stops. -/
structure Traced (κ ε α : Type) where
  calls : List κ
  result : Except ε α

namespace Traced

variable {κ ε α β : Type}

instance : Monad (Traced κ ε) where
  pure a := ⟨[], .ok a⟩
  bind x f :=
    match x.result with
    | .error e => ⟨x.calls, .error e⟩
    | .ok a => ⟨x.calls ++ (f a).calls, (f a).result⟩

/-- Makes one call. -/
def call (c : κ) : Traced κ ε Unit := ⟨[c], .ok ()⟩

/-- Stops. -/
def stop (e : ε) : Traced κ ε α := ⟨[], .error e⟩

/-- Goes on with the value if there is one. -/
def ofOption (e : ε) : Option α → Traced κ ε α
  | none => stop e
  | some a => pure a

/-- The value, if the computation returns. -/
def value (x : Traced κ ε α) : Option α := x.result.toOption

variable {x : Traced κ ε α} {a : α}

theorem value_eq_some : x.value = some a ↔ x.result = .ok a := by
  rw [value]
  cases x.result with
  | error e => simp [Except.toOption]
  | ok b => simp [Except.toOption]

@[simp] theorem result_pure (a : α) : (pure a : Traced κ ε α).result = .ok a := rfl

@[simp] theorem result_call (c : κ) : (call c : Traced κ ε Unit).result = .ok () := rfl

@[simp] theorem result_stop (e : ε) : (stop e : Traced κ ε α).result = .error e := rfl

@[simp] theorem ofOption_some (e : ε) (a : α) :
    (ofOption e (some a) : Traced κ ε α) = pure a := rfl

@[simp] theorem ofOption_none (e : ε) : (ofOption e none : Traced κ ε α) = stop e := rfl

@[simp] theorem pure_bind_eq (a : α) (f : α → Traced κ ε β) : (pure a >>= f) = f a := rfl

@[simp] theorem stop_bind (e : ε) (f : α → Traced κ ε β) : (stop e >>= f) = stop e := rfl

theorem result_bind (x : Traced κ ε α) (f : α → Traced κ ε β) :
    (x >>= f).result = x.result >>= fun a => (f a).result := by
  show (match x.result with
    | .error e => (⟨x.calls, .error e⟩ : Traced κ ε β)
    | .ok a => ⟨x.calls ++ (f a).calls, (f a).result⟩).result = _
  cases x.result <;> rfl

variable {f : α → Traced κ ε β}

theorem bind_of_ok (h : x.result = .ok a) : (x >>= f) = ⟨x.calls ++ (f a).calls, (f a).result⟩ := by
  show (match x.result with
    | .error e => (⟨x.calls, .error e⟩ : Traced κ ε β)
    | .ok a => ⟨x.calls ++ (f a).calls, (f a).result⟩) = _
  rw [h]

theorem bind_of_error {e : ε} (h : x.result = .error e) : (x >>= f) = ⟨x.calls, .error e⟩ := by
  show (match x.result with
    | .error e => (⟨x.calls, .error e⟩ : Traced κ ε β)
    | .ok a => ⟨x.calls ++ (f a).calls, (f a).result⟩) = _
  rw [h]

theorem result_bind_eq_ok {b : β} :
    (x >>= f).result = .ok b ↔ ∃ a, x.result = .ok a ∧ (f a).result = .ok b := by
  rw [result_bind]
  cases x.result with
  | error e => simp [bind, Except.bind]
  | ok a => simp [bind, Except.bind]

theorem result_ofOption {e : ε} {o : Option α} {a : α} :
    (ofOption e o : Traced κ ε α).result = .ok a ↔ o = some a := by
  cases o with
  | none => simp
  | some b => simp

@[simp] theorem result_call_bind (c : κ) (f : Unit → Traced κ ε β) :
    (call c >>= f).result = (f ()).result := rfl

/-- Every call of `x` is good, and the value it returns, if any, satisfies
`Q`. -/
structure Meets (good : κ → Prop) (x : Traced κ ε α) (Q : α → Prop) : Prop where
  calls : ∀ c ∈ x.calls, good c
  result : ∀ a, x.result = .ok a → Q a

section Rules

variable {good : κ → Prop} {Q : α → Prop} {P : β → Prop}

variable {a : α}

theorem meets_pure (h : Q a) : Meets good (pure a : Traced κ ε α) Q where
  calls := by simp [pure]
  result := by
    rintro b hb
    cases hb
    exact h

variable {c : κ}

theorem meets_call (h : good c) : Meets good (call c : Traced κ ε Unit) fun _ => True where
  calls := by simpa [call] using h
  result _ _ := trivial

variable {e : ε}

theorem meets_stop : Meets good (stop e : Traced κ ε α) Q where
  calls := by simp [stop]
  result := by simp

theorem meets_ofOption {o : Option α} (h : ∀ a, o = some a → Q a) :
    Meets good (ofOption e o : Traced κ ε α) Q := by
  cases o with
  | none => exact meets_stop
  | some a => exact meets_pure (h a rfl)

variable {Q' : α → Prop} {x : Traced κ ε α}

theorem Meets.mono (h : Meets good x Q) (hQ : ∀ a, Q a → Q' a) : Meets good x Q' where
  calls := h.calls
  result a ha := hQ a (h.result a ha)

theorem Meets.weaken {good' : κ → Prop} (h : Meets good x Q) (hgood : ∀ c, good c → good' c) :
    Meets good' x Q where
  calls c hc := hgood c (h.calls c hc)
  result := h.result

variable {f : α → Traced κ ε β}

/-- **A sequence** meets what its second part meets after every value the first
can return. -/
theorem Meets.bind (h : Meets good x Q) (hf : ∀ a, Q a → Meets good (f a) P) :
    Meets good (x >>= f) P where
  calls := by
    show ∀ c ∈ (match x.result with
      | .error e => (⟨x.calls, .error e⟩ : Traced κ ε β)
      | .ok a => ⟨x.calls ++ (f a).calls, (f a).result⟩).calls, good c
    cases hx : x.result with
    | error e => exact h.calls
    | ok a =>
      intro c hc
      rcases List.mem_append.mp hc with hc | hc
      · exact h.calls c hc
      · exact (hf a (h.result a hx)).calls c hc
  result b hb := by
    obtain ⟨a, ha, hb⟩ := result_bind_eq_ok.mp hb
    exact (hf a (h.result a ha)).result b hb

/-- `x` meets `Q` and returns. -/
structure Total (good : κ → Prop) (x : Traced κ ε α) (Q : α → Prop) : Prop
    extends Meets good x Q where
  returns : ∃ a, x.result = .ok a

theorem total_pure (h : Q a) : Total good (pure a : Traced κ ε α) Q :=
  ⟨meets_pure h, a, rfl⟩

theorem total_call (h : good c) : Total good (call c : Traced κ ε Unit) fun _ => True :=
  ⟨meets_call h, (), rfl⟩

theorem Total.mono (h : Total good x Q) (hQ : ∀ a, Q a → Q' a) : Total good x Q' :=
  ⟨h.toMeets.mono hQ, h.returns⟩

/-- **A sequence** returns if its second part does after every value the first can
return. -/
theorem Total.bind (h : Total good x Q) (hf : ∀ a, Q a → Total good (f a) P) :
    Total good (x >>= f) P where
  toMeets := h.toMeets.bind fun a ha => (hf a ha).toMeets
  returns := by
    obtain ⟨a, ha⟩ := h.returns
    obtain ⟨b, hb⟩ := (hf a (h.result a ha)).returns
    exact ⟨b, result_bind_eq_ok.mpr ⟨a, ha, hb⟩⟩

theorem Total.bind_ok (h : Total good x Q) (ha : x.result = .ok a) (hf : Total good (f a) P) :
    Total good (x >>= f) P := by
  have hx : Total good x (· = a) :=
    ⟨⟨h.calls, fun b hb => (Except.ok.inj (ha.symm.trans hb)).symm⟩, a, ha⟩
  exact hx.bind fun b hb => hb ▸ hf

theorem Total.exists_result (h : Total good x Q) : ∃ a, x.result = .ok a ∧ Q a := by
  obtain ⟨a, ha⟩ := h.returns
  exact ⟨a, ha, h.result a ha⟩

end Rules

end Traced
