/-
Programs that ask their environment.

A driver asks its device and goes on with whatever the answer is; a system call asks the
file system.  `Dialogue` is the tree of such a program: it returns, fails, or asks a
question and goes on for every answer there may be.

* `play`, `asked` — the outcome of a program for a sequence of answers, and what it is
  asked on the way;
* `Exact` — on answers that meet a condition the program goes on and returns a good result;
  after any other answer it is `Doomed`, whatever comes then;
* `Exact.bind` — programs one after the other;
* `Exact.play_iff` — then the outcome is good iff all answers meet the condition.
-/
import Mathlib.Data.Nat.Notation
import Mathlib.Logic.Basic

/-- A program with questions `Q`, answers `A q`, failures `ε` and results `α`. -/
inductive Dialogue (Q : Type) (A : Q → Type) (ε α : Type) : Type
  | ret (a : α)
  | fault (e : ε)
  | ask (q : Q) (k : A q → Dialogue Q A ε α)

namespace Dialogue

variable {Q : Type} {A : Q → Type} {ε α β : Type}

def bind (f : α → Dialogue Q A ε β) : Dialogue Q A ε α → Dialogue Q A ε β
  | ret a => f a
  | fault e => fault e
  | ask q k => ask q fun a => (k a).bind f

instance : Monad (Dialogue Q A ε) where
  pure := ret
  bind p f := p.bind f

@[simp] theorem ret_bind (a : α) (f : α → Dialogue Q A ε β) : ret a >>= f = f a := rfl

@[simp] theorem fault_bind (e : ε) (f : α → Dialogue Q A ε β) : fault e >>= f = fault e := rfl

/-- Ask, and return the answer. -/
def query (q : Q) : Dialogue Q A ε (A q) := ask q ret

/-- The outcome, if the `n`-th answer to `q` is `ans n q`. -/
def play (ans : ℕ → ∀ q, A q) : ℕ → Dialogue Q A ε α → Except ε α
  | _, ret a => .ok a
  | _, fault e => .error e
  | n, ask q k => play ans (n + 1) (k (ans n q))

/-- What is asked and answered on the way. -/
def asked (ans : ℕ → ∀ q, A q) : ℕ → Dialogue Q A ε α → List (Σ q, A q)
  | _, ret _ => []
  | _, fault _ => []
  | n, ask q k => ⟨q, ans n q⟩ :: asked ans (n + 1) (k (ans n q))

/-- Whatever the answers are, the program fails or returns a bad result. -/
def Doomed (bad : α → Prop) : Dialogue Q A ε α → Prop
  | ret a => bad a
  | fault _ => True
  | ask _ k => ∀ a, (k a).Doomed bad

/-- On answers that meet the condition, the program returns a good result; after the first
answer that does not, nothing can be saved. -/
def Exact (ok : ∀ q, A q → Prop) (good bad : α → Prop) : Dialogue Q A ε α → Prop
  | ret a => good a
  | fault _ => False
  | ask q k => ∀ a, (ok q a → (k a).Exact ok good bad) ∧ (¬ ok q a → (k a).Doomed bad)

variable {ok : ∀ q, A q → Prop} {good bad : α → Prop} {good' bad' : β → Prop}
  {p : Dialogue Q A ε α} {f : α → Dialogue Q A ε β}

theorem Doomed.bind (h : p.Doomed bad) (hbad : ∀ a, bad a → (f a).Doomed bad') :
    (p >>= f).Doomed bad' := by
  induction p with
  | ret a => exact hbad a h
  | fault e => trivial
  | ask q k ih => exact fun a => ih a (h a)

theorem Doomed.mono {bad1 : α → Prop} (h : p.Doomed bad) (hbad : ∀ a, bad a → bad1 a) :
    p.Doomed bad1 := by
  induction p with
  | ret a => exact hbad a h
  | fault e => trivial
  | ask q k ih => exact fun a => ih a (h a)

theorem doomed_of_forall (h : ∀ a, bad a) : p.Doomed bad := by
  induction p with
  | ret a => exact h a
  | fault e => trivial
  | ask q k ih => exact fun a => ih a

theorem Doomed.play_ne (h : p.Doomed bad) (ans : ℕ → ∀ q, A q) (n : ℕ) {a : α}
    (hplay : p.play ans n = .ok a) : bad a := by
  induction p generalizing n with
  | ret b =>
    cases hplay
    exact h
  | fault e => cases hplay
  | ask q k ih => exact ih _ (h _) (n + 1) hplay

theorem Exact.bind (h : p.Exact ok good bad) (hgood : ∀ a, good a → (f a).Exact ok good' bad')
    (hbad : ∀ a, bad a → (f a).Doomed bad') : (p >>= f).Exact ok good' bad' := by
  induction p with
  | ret a => exact hgood a h
  | fault e => exact h.elim
  | ask q k ih =>
    intro a
    exact ⟨fun hok => ih a ((h a).1 hok), fun hok => ((h a).2 hok).bind hbad⟩

theorem Exact.mono {good1 bad1 : α → Prop} (h : p.Exact ok good bad)
    (hgood : ∀ a, good a → good1 a) (hbad : ∀ a, bad a → bad1 a) : p.Exact ok good1 bad1 := by
  induction p with
  | ret a => exact hgood a h
  | fault e => exact h.elim
  | ask q k ih =>
    intro a
    exact ⟨fun hok => ih a ((h a).1 hok), fun hok => ((h a).2 hok).mono hbad⟩

theorem Exact.doomed (h : p.Exact ok good bad) : p.Doomed fun a => good a ∨ bad a := by
  induction p with
  | ret a => exact .inl h
  | fault e => exact h.elim
  | ask q k ih =>
    intro a
    by_cases hok : ok q a
    · exact ih a ((h a).1 hok)
    · exact ((h a).2 hok).mono fun _ => .inr

theorem Exact.play_iff (h : p.Exact ok good bad) (hbad : ∀ a, bad a → ¬ good a)
    (ans : ℕ → ∀ q, A q) (n : ℕ) :
    (∃ a, p.play ans n = .ok a ∧ good a) ↔ ∀ e ∈ p.asked ans n, ok e.1 e.2 := by
  induction p generalizing n with
  | ret a => exact ⟨fun _ e he => absurd he List.not_mem_nil, fun _ => ⟨a, rfl, h⟩⟩
  | fault e => exact h.elim
  | ask q k ih =>
    obtain ⟨hgood, hdoomed⟩ := h (ans n q)
    by_cases hok : ok q (ans n q)
    · refine (ih _ (hgood hok) (n + 1)).trans ⟨fun hrest e he => ?_, fun hall e he => ?_⟩
      · rcases List.mem_cons.mp he with rfl | he
        · exact hok
        · exact hrest e he
      · exact hall e (List.mem_cons_of_mem _ he)
    · constructor
      · rintro ⟨a, hplay, hgood'⟩
        exact absurd hgood' (hbad a ((hdoomed hok).play_ne ans (n + 1) hplay))
      · intro hall
        exact absurd (hall ⟨q, ans n q⟩ List.mem_cons_self) hok

end Dialogue
