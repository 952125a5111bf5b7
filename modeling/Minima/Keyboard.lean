/-
The keyboard, from scancodes to lines (`drivers/kbd.c`, and `getline` of `fs/vfs.c`).

One flag stands for both shift keys, and each event of one of them overwrites it.  A line is
edited in a buffer of `LINE_MAX` bytes, and a backspace on an empty line takes its length
below zero.

* `shift_state_iff` — the flag is right in all states iff no shift key is released while the
  other one is held;
* `getline_iff` — a line is right iff it ends before the buffer is full and every backspace
  has a byte to delete.
-/
import Mathlib.Data.List.Infix
import Mathlib.Data.UInt
import Mathlib.Logic.Function.Basic

namespace Keyboard

open Function List

/-! ### Shift keys -/

/-- `enum mod_key` -/
inductive ModKey
  | none | shift | ctrl | alt | e0 | lmeta | rmeta
  deriving DecidableEq

/-- `get_mod` -/
def getMod (scancode : UInt8) : ModKey :=
  let key := scancode &&& 0x7f
  if key = 0x2A ∨ key = 0x36 then .shift
  else if key = 0x1D then .ctrl
  else if key = 0x38 then .alt
  else if key = 0x60 then .e0
  else if key = 0x5B then .lmeta
  else if key = 0x5C then .rmeta
  else .none

/-- The `modifiers` after `check_special`.  No `mod_key` is 0x60, so that the branch for it is
never taken. -/
def checkSpecial (modifiers : ModKey → Bool) (scancode : UInt8) : ModKey → Bool :=
  if getMod scancode = .none then modifiers
  else update (update modifiers (getMod scancode) (scancode &&& 0x80 = 0)) .e0 false

/-- `received_scancode`: the byte that is written to the ring buffer. -/
def receivedScancode (codes : UInt8 → UInt8 × UInt8) (nFree : ℕ) (shift : Bool)
    (scancode : UInt8) : Option UInt8 :=
  let byte := if shift then (codes (scancode &&& 0x7f)).2 else (codes (scancode &&& 0x7f)).1
  if byte ≠ 0 ∧ scancode &&& 0x80 = 0 ∧ nFree ≠ 0 then some byte else none

/-- The `modifiers` after some scancodes. -/
def modifiers (es : List UInt8) : ModKey → Bool := es.foldl checkSpecial fun _ => false

/-- A key is held after some scancodes: the last one of the key is its make code. -/
def held (key : UInt8) (es : List UInt8) : Bool :=
  es.foldl (fun h e => if e &&& 0x7f = key then decide (e &&& 0x80 = 0) else h) false

def shiftHeld (es : List UInt8) : Bool := held 0x2A es || held 0x36 es

/-- The flag tells whether a shift key is held, and `received_scancode` picks its byte by that. -/
def Shown (es : List UInt8) : Prop :=
  modifiers es .shift = shiftHeld es ∧ ∀ codes nFree scancode,
    receivedScancode codes nFree (modifiers es .shift) scancode =
      receivedScancode codes nFree (shiftHeld es) scancode

variable {es p : List UInt8} {e : UInt8}

theorem modifiers_concat (p : List UInt8) (e : UInt8) :
    modifiers (p ++ [e]) .shift =
      if e &&& 0x7f = 0x2A ∨ e &&& 0x7f = 0x36 then decide (e &&& 0x80 = 0)
      else modifiers p .shift := by
  rw [modifiers, foldl_concat, checkSpecial, getMod]
  split_ifs <;> simp_all [modifiers]

theorem held_concat (key : UInt8) (p : List UInt8) (e : UInt8) : held key (p ++ [e]) =
    if e &&& 0x7f = key then decide (e &&& 0x80 = 0) else held key p := foldl_concat ..

/-- **The shift flag** is right all along iff no shift key is released while the other one is
held. -/
theorem shift_state_iff (es : List UInt8) : (∀ p, p <+: es → Shown p) ↔
    ∀ p e, p ++ [e] <+: es → e &&& 0x80 ≠ 0 → (e &&& 0x7f = 0x2A → held 0x36 p = false) ∧
      (e &&& 0x7f = 0x36 → held 0x2A p = false) := by
  constructor
  · intro h p e hpre hup
    have hflag := (h _ hpre).1
    rw [modifiers_concat, shiftHeld, held_concat, held_concat] at hflag
    constructor <;> intro hkey <;> simpa [hkey, hup] using hflag
  · intro h p hpre
    suffices hflag : modifiers p .shift = shiftHeld p from ⟨hflag, fun _ _ _ => by rw [hflag]⟩
    induction p using reverseRecOn with
    | nil => rfl
    | append_singleton p e ih =>
      have hp := ih ((prefix_append p [e]).trans hpre)
      have hother := h p e hpre
      rw [modifiers_concat, hp, shiftHeld, shiftHeld, held_concat, held_concat]
      by_cases hup : e &&& 0x80 = 0
      · split_ifs <;> simp_all
      · split_ifs <;> simp_all

/-- The left shift key alone. -/
theorem shift_state_left : ∀ p, p <+: [0x2A, 0xAA] → Shown p := by
  refine (shift_state_iff [0x2A, 0xAA]).mpr fun p e hpre hup => ?_
  rcases p with _ | ⟨a, _ | ⟨b, p⟩⟩
  · simp only [nil_append, cons_prefix_cons] at hpre
    rw [hpre.1]
    decide
  · simp only [cons_append, nil_append, cons_prefix_cons] at hpre
    rw [hpre.1, hpre.2.1]
    decide
  · simp [prefix_cons_iff] at hpre

/-- **Both shift keys** are pressed and the left one is released: the flag is 0, and the key
0x1E gives the byte that it has without shift. -/
theorem shift_lost : held 0x36 [0x2A, 0x36, 0xAA] = true ∧
    modifiers [0x2A, 0x36, 0xAA] .shift = false ∧ ¬ Shown [0x2A, 0x36, 0xAA] ∧
    receivedScancode (fun _ => (0x61, 0x41)) 1 (modifiers [0x2A, 0x36, 0xAA] .shift) 0x1E =
      some 0x61 :=
  ⟨by decide, by decide, fun h => absurd h.1 (by decide), by decide⟩

/-! ### Lines -/

/-- `LINE_MAX` -/
def lineMax : ℕ := 4096

/-- The variables of `getline`: `buf` by its indices, and those that were written to. -/
structure Line where
  bytes : ℕ
  buf : ℕ → UInt8
  written : List ℕ

def Line.store (l : Line) (i : ℕ) (c : UInt8) : Line :=
  { l with buf := update l.buf i c, written := i :: l.written }

/-- The body of the loop; `size_t` has 32 bits. -/
def Line.key (l : Line) (c : UInt8) : Line :=
  if c = 0x08 then
    let bytes := (l.bytes + 2 ^ 32 - 1) % 2 ^ 32
    { l.store bytes 0 with bytes }
  else { l.store l.bytes c with bytes := l.bytes + 1 }

/-- The loop; it waits when there are no keys. -/
def getlineLoop : List UInt8 → Line → Option Line
  | [], l => if l.bytes < lineMax then none else some l
  | c :: keys, l =>
    if l.bytes < lineMax then if c = 0x0A then some l else getlineLoop keys (l.key c) else some l

/-- `getline`, with the buffer as it was before. -/
def getline (buf : ℕ → UInt8) (keys : List UInt8) : Option Line :=
  (getlineLoop keys ⟨0, buf, []⟩).map fun l => l.store l.bytes 0

/-- A key on a line: a backspace deletes the last byte if there is one. -/
def press (line : List UInt8) (c : UInt8) : List UInt8 :=
  if c = 0x08 then line.dropLast else line ++ [c]

/-- The line up to the newline. -/
def edited (keys : List UInt8) : List UInt8 := (keys.takeWhile (· ≠ 0x0A)).foldl press []

/-- Only the buffer has been written to, and the line is in it. -/
structure Line.Holds (line : List UInt8) (l : Line) : Prop where
  inside : ∀ i ∈ l.written, i < lineMax
  length : l.bytes = line.length
  bytes : (range line.length).map l.buf = line

/-- **A line as it should be**, with a zero after it. -/
structure Line.Right (line : List UInt8) (l : Line) : Prop extends l.Holds line where
  zero : l.buf line.length = 0

/-- The newline comes before the buffer is full, and no backspace on an empty line. -/
def Regular : List UInt8 → List UInt8 → Prop
  | _, [] => False
  | line, c :: keys =>
    line.length < lineMax ∧ (c = 0x0A ∨ (c = 0x08 → line ≠ []) ∧ Regular (press line c) keys)

variable {line keys : List UInt8} {l l' : Line} {c : UInt8}

theorem map_update_range (f : ℕ → UInt8) {n i : ℕ} (h : n ≤ i) :
    (range n).map (update f i c) = (range n).map f :=
  map_congr_left fun _ hj => update_of_ne ((mem_range.mp hj).trans_le h).ne _ _

theorem Line.Holds.key (h : l.Holds line) (hlt : line.length < lineMax)
    (hc : c = 0x08 → line ≠ []) :
    (l.key c).Holds (press line c) := by
  obtain ⟨hin, hlen, hbytes⟩ := h
  rw [Line.key, press, hlen]
  split
  · obtain ⟨line, b, rfl⟩ := line.eq_nil_or_concat.resolve_left (hc ‹_›)
    simp only [concat_eq_append, length_append, length_singleton, range_succ, map_append] at *
    have hprev : (line.length + 1 + 2 ^ 32 - 1) % 2 ^ 32 = line.length := by
      rw [lineMax] at hlt
      omega
    rw [hprev, dropLast_concat]
    refine ⟨?_, rfl, (map_update_range _ le_rfl).trans (append_inj_left' hbytes rfl)⟩
    rintro i (_ | ⟨_, hi⟩)
    · omega
    · exact hin i hi
  · refine ⟨?_, by simp, ?_⟩
    · rintro i (_ | ⟨_, hi⟩)
      · exact hlt
      · exact hin i hi
    · rw [length_append, length_singleton, range_succ, map_append]
      simp only [Line.store, map_update_range _ le_rfl, hbytes, map_singleton, update_self]

theorem getlineLoop_full (h : lineMax ≤ l.bytes) : getlineLoop keys l = some l := by
  cases keys with
  | nil => exact if_neg (not_lt.mpr h)
  | cons c keys => exact if_neg (not_lt.mpr h)

theorem not_right_of_full (h : lineMax ≤ l.bytes) : ¬ (l.store l.bytes 0).Right line :=
  fun hr => absurd (hr.inside _ mem_cons_self) (not_lt.mpr h)

theorem Line.Holds.right (h : l.Holds line) (hlt : line.length < lineMax) :
    (l.store l.bytes 0).Right line := by
  obtain ⟨hin, hlen, hbytes⟩ := h
  refine ⟨⟨?_, hlen, (map_update_range _ hlen.ge).trans hbytes⟩, by simp [Line.store, hlen]⟩
  rintro i (_ | ⟨_, hi⟩)
  · rwa [hlen]
  · exact hin i hi

theorem getlineLoop_right_iff (h : l.Holds line) :
    (∃ l', getlineLoop keys l = some l' ∧
      (l'.store l'.bytes 0).Right ((keys.takeWhile (· ≠ 0x0A)).foldl press line)) ↔
      Regular line keys := by
  induction keys generalizing l line with
  | nil =>
    refine iff_of_false ?_ id
    rintro ⟨l', hrun, hright⟩
    obtain ⟨hfull, heq⟩ := Option.ite_none_left_eq_some.mp hrun
    cases heq
    exact not_right_of_full (not_lt.mp hfull) hright
  | cons c keys ih =>
    by_cases hlt : line.length < lineMax
    · rw [getlineLoop, h.length, if_pos hlt, Regular, and_iff_right hlt]
      by_cases hnl : c = 0x0A
      · rw [if_pos hnl, takeWhile_cons_of_neg (by simp [hnl])]
        exact iff_of_true ⟨l, rfl, h.right hlt⟩ (.inl hnl)
      · rw [if_neg hnl, takeWhile_cons_of_pos (by simpa using hnl), foldl_cons, or_iff_right hnl]
        by_cases hc : c = 0x08 → line ≠ []
        · rw [ih (h.key hlt hc), and_iff_right hc]
        · -- the length has become `2^32 - 1`, which ends the loop
          refine iff_of_false ?_ fun hreg => hc hreg.1
          obtain ⟨rfl, hnil⟩ := Classical.not_imp.mp hc
          have hfull : lineMax ≤ (l.key 0x08).bytes := by
            rw [Line.key, if_pos rfl, h.length, not_not.mp hnil]
            simp [lineMax]
          rintro ⟨l', hrun, hright⟩
          rw [getlineLoop_full hfull] at hrun
          obtain rfl := Option.some.inj hrun
          exact not_right_of_full hfull hright
    · have hfull : lineMax ≤ l.bytes := h.length ▸ not_lt.mp hlt
      refine iff_of_false ?_ fun hreg => hlt hreg.1
      rintro ⟨l', hrun, hright⟩
      rw [getlineLoop_full hfull] at hrun
      cases hrun
      exact not_right_of_full hfull hright

/-- **Line editing**: for which sequences of keys `getline` returns the line. -/
theorem getline_iff (buf : ℕ → UInt8) (keys : List UInt8) :
    (∃ l, getline buf keys = some l ∧ l.Right (edited keys)) ↔ Regular [] keys := by
  rw [← getlineLoop_right_iff (l := ⟨0, buf, []⟩) ⟨by simp, rfl, rfl⟩]
  simp only [getline, Option.map_eq_some_iff, exists_exists_and_eq_and, edited]

/-- **A backspace on an empty line** stores before the buffer, and -1 is returned. -/
theorem getline_outside : ∃ l, getline (fun _ => 0) [0x08] = some l ∧ l.bytes = 2 ^ 32 - 1 ∧
    2 ^ 32 - 1 ∈ l.written ∧ ¬ l.Right (edited [0x08]) := by
  refine ⟨_, rfl, rfl, mem_cons_self, fun h => ?_⟩
  exact absurd (h.inside _ mem_cons_self) (by decide)

end Keyboard
