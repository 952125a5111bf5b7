/-
What `mprotect` does to other pages (`mm/vma.c`).

`mprotect` gives a range of mapped pages new flags.  It writes them to the entry of
each page and also to the entry of its page table in the page directory, which is
shared by all pages of that table.  The page directory is its own last page table, so
each of its entries is the entry of a page as well: the page through which the kernel
sees that table.

* `mprotect` — the function of the source, on physical memory;
* `Tables.access` — the frame a page leads to and its effective flags;
* `mprotect_stamped` — exactly the entries on the way to the pages it comes to get the
  new flags;
* `mprotect_shows` — the same function on the kernel's view of memory does the same;
* `mprotect_framed_iff` — when no page outside the range is affected.
-/
import Minima.Exec

namespace Protect

open Paging Exec Function List

/-! ### The source -/

/-- Physical memory, by the addresses of its words, and the page directory. -/
structure Tables where
  mem : ℕ → ℕ
  cr3 : ℕ

namespace Tables

variable (s : Tables) (va : ℕ)

/-- `&page_directory[VA_PD_IDX(va)]`; `page_directory` shows the directory itself. -/
def pdeAt : ℕ := s.cr3 + 4 * vaPdIdx va

def pde : ℕ := s.mem (s.pdeAt va)

/-- `&page_table[VA_PT_IDX(va)]`, seen through the window at `PFA_VIRT_OFFSET` -/
def pteAt : ℕ := pageRoundDn (s.pde va) + 4 * vaPtIdx va

def pte : ℕ := s.mem (s.pteAt va)

/-- `*a = v` -/
def store (a v : ℕ) : Tables := { s with mem := update s.mem a v }

/-- The present, writable and user flags that the processor goes by: those that are set
in both entries. -/
def effective : ℕ := s.pde va &&& s.pte va &&& 7

/-- The frame a page leads to and what may be done with it. -/
def access : Option (ℕ × ℕ) :=
  if Present (s.effective va) then some (pageRoundDn (s.pte va), s.effective va) else none

def Mapped : Prop := Present (s.pde va) ∧ Present (s.pte va)

end Tables

/-- The loop body of `mprotect`; an error is a return of `-1` in the given state. -/
def protectPage (prot : ℕ) (s : Tables) (va : ℕ) : Except Tables Tables :=
  if ¬ Present (s.pde va) then .error s
  else
    let pde := stamp (protFlags prot) (s.pde va)
    let s := s.store (s.pdeAt va) pde
    if pde = 0 then .error s
    else if ¬ Present (s.pte va) ∧ prot &&& protWrite ≠ 0 then .error s
    else
      let pte := stamp (protFlags prot) (s.pte va)
      let s := s.store (s.pteAt va) pte
      if pte = 0 then .error s else .ok s

/-- `mprotect` -/
def mprotect (addr len prot : ℕ) (s : Tables) : ℤ × Tables :=
  match (pagesOf addr len).foldlM (protectPage prot) s with
  | .ok s => (0, s)
  | .error s => (-1, s)

/-- What an entry may give, and `prot` may ask for. -/
inductive Right
  | present
  | write
  | user

/-- The flag of a right in an entry. -/
def Right.flag : Right → ℕ
  | .present => ptePresent
  | .write => pteWritable
  | .user => pteUser

/-- The flags of `prot` that ask for it; `PROT_USR` has the bits of the other two. -/
def Right.prot : Right → ℕ
  | .present => protRead
  | .write => protWrite
  | .user => protUsr

/-- An entry gives the right. -/
def Gives (w : ℕ) (r : Right) : Prop := w &&& r.flag ≠ 0

/-- `mprotect` is asked for the right. -/
def Asks (prot : ℕ) (r : Right) : Prop := prot &&& r.prot ≠ 0

instance (prot : ℕ) (r : Right) : Decidable (Asks prot r) :=
  inferInstanceAs (Decidable (_ ≠ _))

/-! ### Entries with new flags -/

variable {s s1 s' : Tables} {va w f prot addr len : ℕ} {W : ℕ → Prop} {r : Right}

theorem gives_protFlags : Gives (protFlags prot) r ↔ Asks prot r := by
  cases r <;> simp only [Gives, Asks, Right.flag, Right.prot, protFlags] <;>
    split <;> split <;> split <;> simp_all +decide

theorem present_protFlags : Present (protFlags prot) ↔ Asks prot .present :=
  gives_protFlags (r := .present)

theorem protFlags_lt (prot : ℕ) : protFlags prot < 8 := by
  unfold protFlags
  split <;> split <;> split <;> decide

theorem stamp_eq (hf : f < 8) (w : ℕ) : stamp f w = pageRoundDn w + f := by
  have hdn : pageRoundDn w = 2 ^ 12 * (w / 2 ^ 12) := Nat.mul_comm _ _
  rw [stamp, hdn, Nat.two_pow_add_eq_or_of_lt (by omega)]

theorem pageRoundDn_stamp (hf : f < 8) (w : ℕ) : pageRoundDn (stamp f w) = pageRoundDn w := by
  rw [stamp_eq hf]
  simp only [pageRoundDn, pageSize]
  omega

theorem stamp_mod (hf : f < 8) (w : ℕ) : stamp f w % 8 = f := by
  rw [stamp_eq hf]
  simp only [pageRoundDn, pageSize]
  omega

theorem present_stamp (hf : f < 8) (w : ℕ) : Present (stamp f w) ↔ Present f := by
  rw [present_iff, present_iff]
  have := stamp_mod hf w
  omega

theorem and_and_seven (x y : ℕ) : x &&& y &&& 7 = x % 8 &&& y % 8 := by
  rw [show (7 : ℕ) = 2 ^ 3 - 1 from rfl, Nat.and_two_pow_sub_one_eq_mod, Nat.and_mod_two_pow]

theorem present_effective : Present (s.effective va) ↔ s.Mapped va := by
  have hodd : ∀ x y : ℕ, Present (x &&& y &&& 7) ↔ Present x ∧ Present y := by
    intro x y
    rw [and_and_seven, present_iff, present_iff, present_iff]
    have hx : x % 8 < 8 := Nat.mod_lt _ (by decide)
    have hy : y % 8 < 8 := Nat.mod_lt _ (by decide)
    have hsmall : ∀ a < 8, ∀ b < 8, (a &&& b) % 2 = 1 ↔ a % 2 = 1 ∧ b % 2 = 1 := by decide
    rw [hsmall _ hx _ hy]
    omega
  exact hodd _ _

/-- Of the words of `s`, those in `W` have got the new flags, and nothing else has
changed. -/
structure Stamped (f : ℕ) (W : ℕ → Prop) (s s' : Tables) : Prop where
  cr3 : s'.cr3 = s.cr3
  new : ∀ w, W w → s'.mem w = stamp f (s.mem w)
  old : ∀ w, ¬ W w → s'.mem w = s.mem w

namespace Stamped

theorem refl (f : ℕ) (s : Tables) : Stamped f (fun _ => False) s s :=
  ⟨rfl, fun _ h => h.elim, fun _ _ => rfl⟩

section

variable (h : Stamped f W s s')
include h

theorem congr {W' : ℕ → Prop} (hW : ∀ w, W' w ↔ W w) :
    Stamped f W' s s' :=
  ⟨h.cr3, fun w hw => h.new w ((hW w).mp hw), fun w hw => h.old w fun hw' => hw ((hW w).mpr hw')⟩

theorem pageRoundDn_mem (hf : f < 8) (w : ℕ) :
    pageRoundDn (s'.mem w) = pageRoundDn (s.mem w) := by
  by_cases hw : W w
  · rw [h.new w hw, pageRoundDn_stamp hf]
  · rw [h.old w hw]

theorem pdeAt (va : ℕ) : s'.pdeAt va = s.pdeAt va := by
  rw [Tables.pdeAt, h.cr3, ← Tables.pdeAt]

theorem pteAt (hf : f < 8) (va : ℕ) : s'.pteAt va = s.pteAt va := by
  rw [Tables.pteAt, Tables.pde, h.pdeAt, h.pageRoundDn_mem hf, ← Tables.pde, ← Tables.pteAt]

theorem stamp_mem (hf : f < 8) (w : ℕ) :
    stamp f (s'.mem w) = stamp f (s.mem w) := by
  rw [stamp, h.pageRoundDn_mem hf, ← stamp]

theorem store (hf : f < 8) (a : ℕ) :
    Stamped f (fun w => W w ∨ w = a) s (s'.store a (stamp f (s'.mem a))) := by
  refine ⟨h.cr3, fun w hw => ?_, fun w hw => ?_⟩
  · by_cases hwa : w = a
    · subst hwa
      simp only [Tables.store, update_self]
      exact h.stamp_mem hf w
    · simp only [Tables.store, update_of_ne hwa]
      exact h.new w (hw.resolve_right hwa)
  · rw [not_or] at hw
    simp only [Tables.store, update_of_ne hw.2]
    exact h.old w hw.1

end

end Stamped

theorem protectPage_stamped (h : Stamped (protFlags prot) W s s1) (hmapped : s.Mapped va)
    (hgo : Present (protFlags prot) ∨ ¬ W (s.pdeAt va) ∧ ¬ W (s.pteAt va) ∧
      s.pteAt va ≠ s.pdeAt va ∧ pageRoundDn (s.pde va) ≠ 0) :
    ∃ s2, Stamped (protFlags prot) (fun w => W w ∨ w = s.pdeAt va ∨ w = s.pteAt va) s s2 ∧
      protectPage prot s1 va =
        if stamp (protFlags prot) (s.pte va) = 0 then .error s2 else .ok s2 := by
  have hf := protFlags_lt prot
  set f := protFlags prot with hfdef
  have hpde : Present (s1.pde va) := by
    rw [Tables.pde, h.pdeAt]
    by_cases hw : W (s.pdeAt va)
    · rw [h.new _ hw, present_stamp hf]
      exact hgo.resolve_right fun hno => hno.1 hw
    · rw [h.old _ hw]
      exact hmapped.1
  have hnonzero : stamp f (s1.pde va) ≠ 0 := by
    rw [Tables.pde, h.pdeAt, h.stamp_mem hf, ← Tables.pde, stamp_eq hf]
    rcases hgo with hodd | ⟨-, -, -, hframe⟩
    · rw [present_iff] at hodd
      omega
    · omega
  have h2 := h.store hf (s1.pdeAt va)
  rw [h.pdeAt] at h2
  set s2 := s1.store (s.pdeAt va) (stamp f (s1.mem (s.pdeAt va))) with hs2
  have hpte : Present (s2.pte va) := by
    rw [Tables.pte, h2.pteAt hf]
    by_cases hw : W (s.pteAt va) ∨ s.pteAt va = s.pdeAt va
    · rw [h2.new _ hw, present_stamp hf]
      refine hgo.resolve_right ?_
      rintro ⟨-, hnot, hne, -⟩
      exact hw.elim hnot hne
    · rw [h2.old _ hw]
      exact hmapped.2
  have hlast : stamp f (s2.pte va) = stamp f (s.pte va) := by
    rw [Tables.pte, h2.pteAt hf, h2.stamp_mem hf, ← Tables.pte]
  have h3 := h2.store hf (s2.pteAt va)
  refine ⟨s2.store (s2.pteAt va) (stamp f (s2.pte va)), h3.congr fun w => ?_, ?_⟩
  · rw [h2.pteAt hf, or_assoc]
  · have hstore : s1.store (s1.pdeAt va) (stamp f (s1.pde va)) = s2 := by
      rw [hs2, Tables.pde, h.pdeAt]
    unfold protectPage
    simp only [hpde, not_true_eq_false, if_false, ← hfdef, hnonzero, hstore, hpte, false_and, hlast]

/-- The words on the way to the pages of a list. -/
def words (s : Tables) (l : List ℕ) (w : ℕ) : Prop := ∃ a ∈ l, w = s.pdeAt a ∨ w = s.pteAt a

theorem words_append (l : List ℕ) :
    words s (l ++ [va]) w ↔ words s l w ∨ w = s.pdeAt va ∨ w = s.pteAt va := by
  simp only [words, mem_append, mem_singleton]
  constructor
  · rintro ⟨a, ha | rfl, hw⟩
    · exact .inl ⟨a, ha, hw⟩
    · exact .inr hw
  · rintro (⟨a, ha, hw⟩ | hw)
    · exact ⟨a, .inl ha, hw⟩
    · exact ⟨va, .inr rfl, hw⟩

theorem protectPages_stamped (hpresent : Present (protFlags prot)) {done l : List ℕ}
    (h : Stamped (protFlags prot) (words s done) s s1) (hmapped : ∀ va ∈ l, s.Mapped va) :
    ∃ s2, Stamped (protFlags prot) (words s (done ++ l)) s s2 ∧
      l.foldlM (protectPage prot) s1 = .ok s2 := by
  induction l generalizing done s1 with
  | nil => exact ⟨s1, by simpa using h, rfl⟩
  | cons va l ih =>
    obtain ⟨s2, h2, heq⟩ := protectPage_stamped h (hmapped va (by simp)) (.inl hpresent)
    have hne : stamp (protFlags prot) (s.pte va) ≠ 0 := by
      rw [stamp_eq (protFlags_lt prot)]
      rw [present_iff] at hpresent
      omega
    rw [if_neg hne] at heq
    obtain ⟨s3, h3, hfold⟩ := ih (h2.congr fun w => words_append done)
      fun a ha => hmapped a (mem_cons_of_mem _ ha)
    refine ⟨s3, by simpa using h3, ?_⟩
    rw [foldlM_cons, heq]
    exact hfold

/-! ### The pages `mprotect` comes to -/

/-- The kernel's page tables: the last entry of the directory is the directory itself,
the other tables are not shared, and none is at address 0. -/
structure WellFormed (s : Tables) : Prop where
  selfMap : pageRoundDn (s.mem (s.cr3 + 4 * 1023)) = s.cr3
  present : Present (s.mem (s.cr3 + 4 * 1023))
  nonzero : ∀ i < 1024, Present (s.mem (s.cr3 + 4 * i)) → pageRoundDn (s.mem (s.cr3 + 4 * i)) ≠ 0
  distinct : ∀ i < 1024, ∀ j < 1024, Present (s.mem (s.cr3 + 4 * i)) →
    Present (s.mem (s.cr3 + 4 * j)) →
    pageRoundDn (s.mem (s.cr3 + 4 * i)) = pageRoundDn (s.mem (s.cr3 + 4 * j)) → i = j

/-- The pages of the list that the loop comes to.  Without `PROT_READ` the second page of
the same table is no longer found; and the loop ends at an entry that has become 0. -/
def reached (prot : ℕ) (s : Tables) : List ℕ → List ℕ
  | a :: b :: l =>
    if Asks prot .present then a :: b :: l
    else if vaPdIdx a ≠ vaPdIdx b ∧
      (pageRoundDn (s.pte a) ≠ 0 ∨ Asks prot .write ∨ Asks prot .user) then [a, b]
    else [a]
  | l => l

theorem reached_cons (prot : ℕ) (s : Tables) (a b : ℕ) (l : List ℕ) :
    reached prot s (a :: b :: l) =
      if Present (protFlags prot) then a :: b :: l
      else if vaPdIdx a ≠ vaPdIdx b ∧ stamp (protFlags prot) (s.pte a) ≠ 0 then [a, b]
      else [a] := by
  have hzero : protFlags prot ≠ 0 ↔ Asks prot .present ∨ Asks prot .write ∨ Asks prot .user := by
    simp only [Asks, Right.prot, protFlags]
    split <;> split <;> split <;> simp_all +decide
  rw [reached, stamp_eq (protFlags_lt prot)]
  simp only [present_protFlags]
  by_cases hread : Asks prot .present
  · simp only [hread, if_true]
  · have hflags := hzero.trans (or_iff_right hread)
    have hiff : pageRoundDn (s.pte a) + protFlags prot ≠ 0 ↔
        pageRoundDn (s.pte a) ≠ 0 ∨ Asks prot .write ∨ Asks prot .user := by
      rw [← hflags]
      omega
    simp only [hread, if_false, hiff]

theorem vaPdIdx_lt (va : ℕ) : vaPdIdx va < 1024 := Nat.mod_lt _ (by decide)

theorem vaPtIdx_lt (va : ℕ) : vaPtIdx va < 1024 := Nat.mod_lt _ (by decide)

theorem eq_of_idx {a b : ℕ} (ha : a % 4096 = 0 ∧ a < 2 ^ 32) (hb : b % 4096 = 0 ∧ b < 2 ^ 32)
    (hpd : vaPdIdx a = vaPdIdx b) (hpt : vaPtIdx a = vaPtIdx b) : a = b := by
  simp only [vaPdIdx, vaPtIdx] at hpd hpt
  omega

section WellFormed

variable (hwf : WellFormed s) {a b : ℕ}

include hwf

theorem cr3_mod : s.cr3 % 4096 = 0 := by
  rw [← hwf.selfMap]
  exact pageRoundDn_mod _

omit hwf in
theorem pdeAt_inj : s.pdeAt a = s.pdeAt b ↔ vaPdIdx a = vaPdIdx b := by
  simp only [Tables.pdeAt]
  omega

theorem pteAt_eq_pdeAt_iff (ha : Present (s.pde a)) :
    s.pteAt a = s.pdeAt b ↔ vaPdIdx a = 1023 ∧ vaPtIdx a = vaPdIdx b := by
  have hdir := cr3_mod hwf
  have hframe : pageRoundDn (s.pde a) % 4096 = 0 := pageRoundDn_mod _
  have hpt := vaPtIdx_lt a
  have hpd := vaPdIdx_lt b
  have htable : pageRoundDn (s.pde a) = s.cr3 ↔ vaPdIdx a = 1023 := by
    constructor
    · intro h
      refine hwf.distinct _ (vaPdIdx_lt a) 1023 (by decide) ha hwf.present ?_
      rw [hwf.selfMap]
      exact h
    · intro h
      rw [Tables.pde, Tables.pdeAt, h]
      exact hwf.selfMap
  rw [Tables.pteAt, Tables.pdeAt, ← htable]
  omega

theorem pteAt_inj (ha : Present (s.pde a)) (hb : Present (s.pde b)) :
    s.pteAt a = s.pteAt b ↔ vaPdIdx a = vaPdIdx b ∧ vaPtIdx a = vaPtIdx b := by
  have hfa : pageRoundDn (s.pde a) % 4096 = 0 := pageRoundDn_mod _
  have hfb : pageRoundDn (s.pde b) % 4096 = 0 := pageRoundDn_mod _
  have hpa := vaPtIdx_lt a
  have hpb := vaPtIdx_lt b
  constructor
  · intro h
    simp only [Tables.pteAt] at h
    exact ⟨hwf.distinct _ (vaPdIdx_lt a) _ (vaPdIdx_lt b) ha hb (by
      simp only [Tables.pde, Tables.pdeAt] at *
      omega), by omega⟩
  · rintro ⟨hpd, hpt⟩
    rw [Tables.pteAt, Tables.pteAt, Tables.pde, Tables.pde, pdeAt_inj.mpr hpd, hpt]

end WellFormed

theorem vas_eq_cons {fuel start stop a : ℕ} {t : List ℕ} (h : vas fuel start stop = a :: t)
    (hstart : start % 4096 = 0) (hstop : stop % 4096 = 0 ∧ stop < 2 ^ 32) :
    a = start ∧ a + 4096 ≤ stop ∧ ∃ fuel', t = vas fuel' (a + 4096) stop := by
  cases fuel with
  | zero => simp [vas] at h
  | succ fuel =>
    rw [vas] at h
    split at h
    · next hlt =>
      obtain ⟨rfl, rfl⟩ := List.cons.inj h
      refine ⟨rfl, by omega, fuel, ?_⟩
      rw [pageSize, add32_eq (by omega)]
    · cases h

/-- The state a loop of `mprotect` leaves, whether it returns early or not. -/
def stateOf : Except Tables Tables → Tables
  | .ok s => s
  | .error s => s

theorem mprotect_snd : (mprotect addr len prot s).2 =
    stateOf ((pagesOf addr len).foldlM (protectPage prot) s) := by
  unfold mprotect
  cases (pagesOf addr len).foldlM (protectPage prot) s <;> rfl

theorem stateOf_stuck (h : Stamped (protFlags prot) W s s1)
    (hpresent : ¬ Present (protFlags prot)) {l : List ℕ}
    (hl : ∀ b ∈ l.head?, W (s.pdeAt b)) : stateOf (l.foldlM (protectPage prot) s1) = s1 := by
  cases l with
  | nil => rfl
  | cons b l =>
    have hpde : ¬ Present (s1.pde b) := by
      rw [Tables.pde, h.pdeAt, h.new _ (hl b rfl), present_stamp (protFlags_lt prot)]
      exact hpresent
    rw [foldlM_cons, protectPage, if_pos hpde]
    rfl

theorem first_page (prot : ℕ) (hwf : WellFormed s) (hmapped : s.Mapped va) (hlo : va % 4096 = 0)
    (hhi : va + 4096 < 2 ^ 32) (l : List ℕ) :
    ∃ s2, Stamped (protFlags prot) (words s [va]) s s2 ∧
      stateOf ((va :: l).foldlM (protectPage prot) s) =
        if stamp (protFlags prot) (s.pte va) = 0 then s2
        else stateOf (l.foldlM (protectPage prot) s2) := by
  -- the page that shows the directory itself is the last one
  have hself : s.pteAt va ≠ s.pdeAt va := by
    rw [Ne, pteAt_eq_pdeAt_iff hwf hmapped.1]
    simp only [vaPdIdx, vaPtIdx]
    omega
  obtain ⟨s2, h2, heq⟩ := protectPage_stamped (Stamped.refl (protFlags prot) s) hmapped
    (.inr ⟨not_false, not_false, hself, hwf.nonzero _ (vaPdIdx_lt va) hmapped.1⟩)
  refine ⟨s2, h2.congr fun w => by simp [words], ?_⟩
  rw [foldlM_cons, heq]
  split <;> rfl

theorem second_page (hwf : WellFormed s) (h : Stamped (protFlags prot) (words s [va]) s s1)
    (hmapped : s.Mapped va) (hmapped' : s.Mapped (va + 4096)) (hlo : va % 4096 = 0)
    (hhi : va + 4096 + 4096 ≤ 2 ^ 32) (hslot : vaPdIdx va ≠ vaPdIdx (va + 4096)) (l : List ℕ) :
    ∃ s2, Stamped (protFlags prot) (words s [va, va + 4096]) s s2 ∧
      stateOf (((va + 4096) :: l).foldlM (protectPage prot) s1) =
        if stamp (protFlags prot) (s.pte (va + 4096)) = 0 then s2
        else stateOf (l.foldlM (protectPage prot) s2) := by
  have hlast : vaPdIdx va < 1023 ∧ vaPtIdx (va + 4096) = 0 ∧
      vaPdIdx (va + 4096) = vaPdIdx va + 1 := by
    simp only [vaPdIdx, vaPtIdx] at hslot ⊢
    omega
  have hpde : ¬ words s [va] (s.pdeAt (va + 4096)) := by
    rintro ⟨x, hx, hw⟩
    obtain rfl : x = va := by simpa using hx
    rcases hw with hw | hw
    · exact hslot (pdeAt_inj.mp hw).symm
    · have := (pteAt_eq_pdeAt_iff hwf hmapped.1).mp hw.symm
      omega
  have hpte : ¬ words s [va] (s.pteAt (va + 4096)) := by
    rintro ⟨x, hx, hw⟩
    obtain rfl : x = va := by simpa using hx
    rcases hw with hw | hw
    · have := (pteAt_eq_pdeAt_iff hwf hmapped'.1).mp hw
      omega
    · exact hslot ((pteAt_inj hwf hmapped'.1 hmapped.1).mp hw).1.symm
  have hself : s.pteAt (va + 4096) ≠ s.pdeAt (va + 4096) := by
    rw [Ne, pteAt_eq_pdeAt_iff hwf hmapped'.1]
    omega
  obtain ⟨s2, h2, heq⟩ := protectPage_stamped h hmapped'
    (.inr ⟨hpde, hpte, hself, hwf.nonzero _ (vaPdIdx_lt _) hmapped'.1⟩)
  refine ⟨s2, h2.congr fun w => words_append [va], ?_⟩
  rw [foldlM_cons, heq]
  split <;> rfl

theorem mprotect_stamped (prot : ℕ) (hwf : WellFormed s)
    (haddr : addr % 4096 = 0 ∧ addr < 2 ^ 32) (hlen : len % 4096 = 0)
    (hmapped : ∀ va ∈ pagesOf addr len, s.Mapped va) :
    Stamped (protFlags prot) (words s (reached prot s (pagesOf addr len))) s
      (mprotect addr len prot s).2 := by
  have hstop : add32 addr len % 4096 = 0 ∧ add32 addr len < 2 ^ 32 := by
    rw [add32]
    omega
  have hnone : Stamped (protFlags prot) (words s []) s s :=
    (Stamped.refl _ s).congr fun w => by simp [words]
  rw [mprotect_snd]
  by_cases hpresent : Present (protFlags prot)
  · obtain ⟨s2, h2, hfold⟩ := protectPages_stamped hpresent hnone hmapped
    have hreached : reached prot s (pagesOf addr len) = pagesOf addr len := by
      rcases pagesOf addr len with _ | ⟨a, _ | ⟨b, l⟩⟩
      · rfl
      · rfl
      · rw [reached_cons, if_pos hpresent]
    rw [hfold, hreached]
    exact h2
  · generalize hpages : pagesOf addr len = pages at hmapped ⊢
    rcases pages with _ | ⟨a, t⟩
    · exact hnone
    · obtain ⟨rfl, hahi, fuel, ht⟩ := vas_eq_cons hpages haddr.1 hstop
      have hma := hmapped a (by simp)
      obtain ⟨s2, h2, heq⟩ := first_page prot hwf hma haddr.1 (by omega) t
      rw [heq]
      rcases t with _ | ⟨b, t⟩
      · split <;> exact h2
      · obtain ⟨rfl, hbhi, fuel', ht'⟩ := vas_eq_cons ht.symm (by omega) hstop
        by_cases hnext : vaPdIdx a ≠ vaPdIdx (a + 4096) ∧ stamp (protFlags prot) (s.pte a) ≠ 0
        · obtain ⟨hslot, hzero⟩ := hnext
          obtain ⟨s3, h3, heq3⟩ := second_page hwf h2 hma (hmapped (a + 4096) (by simp)) haddr.1
            (by omega) hslot t
          -- a third page has the table of the second
          have hstuck : stateOf (t.foldlM (protectPage prot) s3) = s3 := by
            refine stateOf_stuck h3 hpresent fun c hc => ?_
            obtain ⟨t', rfl⟩ : ∃ t', t = c :: t' := head?_eq_some_iff.mp hc
            obtain ⟨rfl, -, -⟩ := vas_eq_cons ht'.symm (by omega) hstop
            refine ⟨a + 4096, by simp, .inl (pdeAt_inj.mpr ?_)⟩
            simp only [vaPdIdx] at hslot ⊢
            omega
          rw [if_neg hzero, heq3, hstuck, ite_self, reached_cons, if_neg hpresent,
            if_pos ⟨hslot, hzero⟩]
          exact h3
        · rw [reached_cons, if_neg hpresent, if_neg hnext]
          split
          · exact h2
          · next hzero =>
            have hslot : vaPdIdx a = vaPdIdx (a + 4096) := by
              by_contra hslot
              exact hnext ⟨hslot, hzero⟩
            rw [stateOf_stuck h2 hpresent]
            · exact h2
            · rintro c hc
              obtain rfl : a + 4096 = c := Option.some_inj.mp hc
              exact ⟨a, by simp, .inl (pdeAt_inj.mpr hslot.symm)⟩

/-! ### The same on the kernel's view of memory -/

/-- The kernel sees these tables as `t`: the directory, and the rest of memory through the window
at `PFA_VIRT_OFFSET`.  The table of a slot other than the last is not the directory. -/
structure Shows (s : Tables) (t : Paging.State) : Prop where
  aligned : s.cr3 % pageSize = 0
  directory : ∀ i < 1024, s.mem (s.cr3 + 4 * i) = t.pageDirectory i
  window : ∀ a < 2 ^ 32, pageRoundDn a ≠ s.cr3 → s.mem a = t.mem (add32 a pfaVirtOffset)
  word : ∀ i < 1024, t.pageDirectory i < 2 ^ 32
  table : ∀ i < 1023, Present (t.pageDirectory i) → pageRoundDn (t.pageDirectory i) ≠ s.cr3

namespace Shows

variable {t : Paging.State}

theorem pde_eq (h : Shows s t) : s.pde va = t.pageDirectory (vaPdIdx va) :=
  h.directory _ (vaPdIdx_lt va)

theorem pteAt_eq (h : Shows s t) (va : ℕ) : t.pteAt va = add32 (s.pteAt va) pfaVirtOffset ∧
    s.pteAt va < 2 ^ 32 ∧ pageRoundDn (s.pteAt va) = pageRoundDn (s.pde va) := by
  have hword := h.word _ (vaPdIdx_lt va)
  have hidx := vaPtIdx_lt va
  rw [Paging.State.pteAt, Tables.pteAt, h.pde_eq]
  simp only [frameOf, add32, pageRoundDn, pageSize] at *
  omega

theorem pte_eq (h : Shows s t) (htable : pageRoundDn (s.pde va) ≠ s.cr3) :
    s.pte va = t.mem (t.pteAt va) := by
  obtain ⟨hat, hlt, hround⟩ := h.pteAt_eq va
  rw [hat, Tables.pte, h.window _ hlt (by rwa [hround])]

/-- An entry of the directory is written that leads to the same table. -/
theorem storePde (h : Shows s t) (hw : w < 2 ^ 32)
    (hround : pageRoundDn w = pageRoundDn (t.pageDirectory (vaPdIdx va)))
    (hpresent : Present (t.pageDirectory (vaPdIdx va))) :
    Shows (s.store (s.pdeAt va) w)
      { t with pageDirectory := update t.pageDirectory (vaPdIdx va) w } where
  aligned := h.aligned
  directory j hj := by
    by_cases hji : j = vaPdIdx va
    · simp [Tables.store, Tables.pdeAt, hji]
    · have hne : s.cr3 + 4 * j ≠ s.pdeAt va := by
        rw [Tables.pdeAt]
        omega
      simp only [Tables.store, update_of_ne hji, update_of_ne hne]
      exact h.directory j hj
  window a ha hout := by
    have hne : a ≠ s.pdeAt va := by
      rintro rfl
      have haligned := h.aligned
      have hidx := vaPdIdx_lt va
      simp only [Tables.store, Tables.pdeAt, pageRoundDn, pageSize] at hout haligned
      omega
    simp only [Tables.store, update_of_ne hne]
    exact h.window a ha hout
  word j hj := by
    by_cases hji : j = vaPdIdx va
    · simpa [hji] using hw
    · simpa [hji] using h.word j hj
  table j hj hp := by
    by_cases hji : j = vaPdIdx va
    · subst hji
      simp only [update_self, hround]
      exact h.table _ hj hpresent
    · simp only [update_of_ne hji] at hp ⊢
      exact h.table j hj hp

/-- A word outside the directory is written. -/
theorem storeWord (h : Shows s t) {a : ℕ} (ha : a < 2 ^ 32) (hout : pageRoundDn a ≠ s.cr3) :
    Shows (s.store a w) { t with toMemory := t.toMemory.store (add32 a pfaVirtOffset) w } where
  aligned := h.aligned
  directory j hj := by
    have hne : s.cr3 + 4 * j ≠ a := by
      rintro rfl
      have haligned := h.aligned
      simp only [pageRoundDn, pageSize] at hout haligned
      omega
    simp only [Tables.store, update_of_ne hne]
    exact h.directory j hj
  window b hb hout' := by
    by_cases hba : b = a
    · simp [Tables.store, Memory.store, hba]
    · have hne : add32 b pfaVirtOffset ≠ add32 a pfaVirtOffset := by
        simp only [add32, pfaVirtOffset]
        omega
      simp only [Tables.store, Memory.store, update_of_ne hba, update_of_ne hne]
      exact h.window b hb hout'
  word := h.word
  table := h.table

end Shows

/-- Both return, or both end in the same place. -/
inductive Alike : Except Tables Tables → Except Paging.State Paging.State → Prop
  | ok {s : Tables} {t : Paging.State} (h : Shows s t) : Alike (.ok s) (.ok t)
  | error {s : Tables} {t : Paging.State} (h : Shows s t) : Alike (.error s) (.error t)

theorem protectEntry_alike {t : Paging.State} (h : Shows s t)
    (htable : pageRoundDn (s.pde va) ≠ s.cr3) (c : Prop) [Decidable c] :
    Alike
      (if ¬ Present (s.pte va) ∧ c then .error s
        else if stamp f (s.pte va) = 0 then .error (s.store (s.pteAt va) (stamp f (s.pte va)))
        else .ok (s.store (s.pteAt va) (stamp f (s.pte va))))
      (if ¬ Present (t.mem (t.pteAt va)) ∧ c then .error t
        else if stamp f (t.mem (t.pteAt va)) = 0 then
          .error ⟨t.toMemory.store (t.pteAt va) (stamp f (t.mem (t.pteAt va))), t.pageDirectory⟩
        else .ok ⟨t.toMemory.store (t.pteAt va) (stamp f (t.mem (t.pteAt va))),
          t.pageDirectory⟩) := by
  obtain ⟨hat, hlt, hround⟩ := h.pteAt_eq va
  have h' := h.storeWord (w := stamp f (s.pte va)) hlt (by rwa [hround])
  rw [← hat] at h'
  rw [← h.pte_eq htable]
  split
  · exact .error h
  · split
    · exact .error h'
    · exact .ok h'

theorem protectPage_alike {t : Paging.State} (prot : ℕ) (h : Shows s t)
    (hslot : vaPdIdx va < 1023) :
    Alike (protectPage prot s va) (Exec.protectPage prot t va) := by
  have hf := protFlags_lt prot
  have hword := h.word _ (vaPdIdx_lt va)
  rw [protectPage, Exec.protectPage, h.pde_eq]
  by_cases hpde : Present (t.pageDirectory (vaPdIdx va))
  · have hstamp : stamp (protFlags prot) (t.pageDirectory (vaPdIdx va)) < 2 ^ 32 := by
      rw [stamp_eq hf]
      simp only [pageRoundDn, pageSize]
      omega
    have h1 := h.storePde hstamp (pageRoundDn_stamp hf _) hpde
    rw [if_neg (not_not.mpr hpde), if_neg (not_not.mpr hpde)]
    dsimp only
    split
    · exact .error h1
    · refine protectEntry_alike h1 ?_ (prot &&& protWrite ≠ 0)
      rw [h1.pde_eq]
      simp only [update_self, pageRoundDn_stamp hf]
      exact h.table _ hslot hpde
  · rw [if_pos hpde, if_pos hpde]
    exact .error h

/-- **The same `mprotect`** as on the kernel's view of memory, for pages below the last slot: it
returns the same, and leaves tables that the kernel sees as the other leaves them. -/
theorem mprotect_shows {t : Paging.State} (prot : ℕ) (h : Shows s t)
    (hslot : ∀ va ∈ pagesOf addr len, vaPdIdx va < 1023) :
    (mprotect addr len prot s).1 = (Exec.mprotect addr len prot t).1 ∧
      Shows (mprotect addr len prot s).2 (Exec.mprotect addr len prot t).2 := by
  have hloop : Alike ((pagesOf addr len).foldlM (protectPage prot) s)
      ((pagesOf addr len).foldlM (Exec.protectPage prot) t) := by
    generalize pagesOf addr len = l at hslot
    induction l generalizing s t with
    | nil => exact .ok h
    | cons va l ih =>
      rw [foldlM_cons, foldlM_cons]
      have hpage := protectPage_alike prot h (hslot va mem_cons_self)
      generalize protectPage prot s va = x at hpage
      generalize Exec.protectPage prot t va = y at hpage
      cases hpage with
      | ok h' => exact ih h' fun a ha => hslot a (mem_cons_of_mem _ ha)
      | error h' => exact .error h'
  rw [mprotect, Exec.mprotect]
  generalize (pagesOf addr len).foldlM (protectPage prot) s = x at hloop ⊢
  generalize (pagesOf addr len).foldlM (Exec.protectPage prot) t = y at hloop ⊢
  cases hloop with
  | ok h' => exact ⟨rfl, h'⟩
  | error h' => exact ⟨rfl, h'⟩

/-! ### Pages outside the range -/

/-- The directory entry of page `v` is also that of a page of the list, or the entry
of one: of the page that shows the table of `v`. -/
def dirStamped (l : List ℕ) (v : ℕ) : Bool :=
  l.any fun a => vaPdIdx a = vaPdIdx v ∨ vaPdIdx a = 1023 ∧ vaPtIdx a = vaPdIdx v

/-- Page `v` shows the table of a page of the list. -/
def tabStamped (l : List ℕ) (v : ℕ) : Bool :=
  vaPdIdx v = 1023 ∧ l.any fun a => vaPdIdx a = vaPtIdx v

variable {l : List ℕ} {v : ℕ}

theorem words_pdeAt_iff (hwf : WellFormed s) (hl : ∀ a ∈ l, s.Mapped a) :
    words s l (s.pdeAt v) ↔ dirStamped l v = true := by
  simp only [words, dirStamped, any_eq_true, decide_eq_true_eq]
  refine exists_congr fun a => and_congr_right fun ha => or_congr ?_ ?_
  · rw [pdeAt_inj, eq_comm]
  · rw [eq_comm, pteAt_eq_pdeAt_iff hwf (hl a ha).1]

theorem words_pteAt_iff (hwf : WellFormed s) (hl : ∀ a ∈ l, s.Mapped a) (hv : s.Mapped v)
    (hlv : ∀ a ∈ l, ¬ (vaPdIdx v = vaPdIdx a ∧ vaPtIdx v = vaPtIdx a)) :
    words s l (s.pteAt v) ↔ tabStamped l v = true := by
  simp only [words, tabStamped, decide_eq_true_eq, any_eq_true]
  constructor
  · rintro ⟨a, ha, hw | hw⟩
    · obtain ⟨hslot, hidx⟩ := (pteAt_eq_pdeAt_iff hwf hv.1).mp hw
      exact ⟨hslot, a, ha, hidx.symm⟩
    · exact absurd ((pteAt_inj hwf hv.1 (hl a ha).1).mp hw) (hlv a ha)
  · rintro ⟨hslot, a, ha, hidx⟩
    exact ⟨a, ha, .inl ((pteAt_eq_pdeAt_iff hwf hv.1).mpr ⟨hslot, hidx.symm⟩)⟩

/-- A page that is not mapped stays so: the entries that change are those of mapped
pages. -/
theorem Stamped.not_mapped (h : Stamped f (words s l) s s') (hf : f < 8)
    (hl : ∀ a ∈ l, s.Mapped a) (hv : ¬ s.Mapped v) : ¬ s'.Mapped v := by
  have hpresent : ∀ w, words s l w → Present (s.mem w) := by
    rintro w ⟨a, ha, rfl | rfl⟩
    · exact (hl a ha).1
    · exact (hl a ha).2
  have hback : ∀ w, Present (s'.mem w) → Present (s.mem w) := by
    intro w hw
    by_cases hin : words s l w
    · exact hpresent w hin
    · rwa [h.old w hin] at hw
  rintro ⟨hpde, hpte⟩
  rw [Tables.pde, h.pdeAt] at hpde
  rw [Tables.pte, h.pteAt hf] at hpte
  exact hv ⟨hback _ hpde, hback _ hpte⟩

theorem Stamped.access_eq_iff (h : Stamped f W s s') (hf : f < 8) (hv : s.Mapped v) :
    s'.access v = s.access v ↔ s'.effective v = s.effective v := by
  have hframe : pageRoundDn (s'.pte v) = pageRoundDn (s.pte v) := by
    rw [Tables.pte, h.pteAt hf, h.pageRoundDn_mem hf, ← Tables.pte]
  have hpresent := present_effective.mpr hv
  rw [Tables.access, Tables.access, if_pos hpresent, hframe]
  constructor
  · intro heq
    split at heq
    · exact (Prod.mk.inj (Option.some_inj.mp heq)).2
    · cases heq
  · intro heq
    rw [heq, if_pos hpresent]

theorem reached_subset (prot : ℕ) (s : Tables) (l : List ℕ) : reached prot s l ⊆ l := by
  unfold reached
  split
  · split
    · exact List.Subset.refl _
    · split <;> simp
  · exact List.Subset.refl _

theorem mem_pagesOf (haddr : addr % 4096 = 0 ∧ addr < 2 ^ 32) (hlen : len % 4096 = 0)
    (hend : addr + len ≤ 2 ^ 32) (hva : va ∈ pagesOf addr len) :
    va % 4096 = 0 ∧ addr ≤ va ∧ va < addr + len := by
  by_cases hwrap : addr + len = 2 ^ 32
  · have hzero : add32 addr len = 0 := by
      rw [add32, hwrap]
      rfl
    rw [pagesOf, hzero] at hva
    exact absurd hva (by simp [vas])
  · rw [pagesOf, add32_eq (by omega)] at hva
    refine (mem_vas haddr.1 ?_ ?_ ?_).mp hva
    · simp only [pageSize]
      omega
    · simp only [pageSize]
      omega
    · simp only [pageSize]
      omega

/-- `prot` does no harm to a mapped page outside the range.  If the page shares a slot of the
directory with the pages `l`, then `prot` has to agree with the directory on every right that
the page's own entry gives; if it shows the table of one of them, then with its own entry on
every right that the directory gives; and if both, with the rights the page has. -/
structure Spared (prot : ℕ) (l : List ℕ) (s : Tables) (v : ℕ) : Prop where
  sharing : dirStamped l v → ¬ tabStamped l v →
    ∀ r, Gives (s.pte v) r → (Asks prot r ↔ Gives (s.pde v) r)
  showing : tabStamped l v → ¬ dirStamped l v →
    ∀ r, Gives (s.pde v) r → (Asks prot r ↔ Gives (s.pte v) r)
  both : dirStamped l v → tabStamped l v →
    ∀ r, Asks prot r ↔ Gives (s.pde v) r ∧ Gives (s.pte v) r

/-- No mapped page outside the range comes to harm. -/
def Harmless (prot addr len : ℕ) (s : Tables) : Prop :=
  ∀ v, v % 4096 = 0 → v < 2 ^ 32 → ¬ (addr ≤ v ∧ v < addr + len) → s.Mapped v →
    Spared prot (reached prot s (pagesOf addr len)) s v

instance (w : ℕ) (r : Right) : Decidable (Gives w r) := inferInstanceAs (Decidable (_ ≠ _))

theorem gives_mod (w : ℕ) (r : Right) : Gives (w % 8) r ↔ Gives w r := by
  have hflag : 7 &&& r.flag = r.flag := by cases r <;> rfl
  rw [Gives, Gives, show w % 8 = w &&& 7 from (Nat.and_two_pow_sub_one_eq_mod w 3).symm,
    Nat.and_assoc, hflag]

/-- The rights of a page are those that both of its entries give. -/
theorem and_seven_eq_iff {a b c d : ℕ} : a &&& b &&& 7 = c &&& d &&& 7 ↔
    ∀ r, Gives a r ∧ Gives b r ↔ Gives c r ∧ Gives d r := by
  have hand : ∀ x < 8, ∀ y < 8, ∀ r, Gives (x &&& y) r ↔ Gives x r ∧ Gives y r := by
    intro x hx y hy r
    cases r <;> revert x y <;> decide
  have heq : ∀ x < 8, ∀ y < 8, (∀ r, Gives x r ↔ Gives y r) → x = y := by
    have hall : ∀ x < 8, ∀ y < 8, (Gives x .present ↔ Gives y .present) ∧
        (Gives x .write ↔ Gives y .write) ∧ (Gives x .user ↔ Gives y .user) → x = y := by
      decide
    exact fun x hx y hy h => hall x hx y hy ⟨h .present, h .write, h .user⟩
  have hlt : ∀ x, x % 8 < 8 := fun x => Nat.mod_lt _ (by decide)
  have hgives : ∀ x y r, Gives (x % 8 &&& y % 8) r ↔ Gives x r ∧ Gives y r := fun x y r => by
    rw [hand _ (hlt x) _ (hlt y), gives_mod, gives_mod]
  rw [and_and_seven, and_and_seven]
  constructor
  · intro h r
    rw [← hgives, h, hgives]
  · intro h
    refine heq _ (lt_of_le_of_lt Nat.and_le_left (hlt a)) _
      (lt_of_le_of_lt Nat.and_le_left (hlt c)) fun r => ?_
    rw [hgives, h, hgives]

/-- What the two entries of a page give after the call. -/
theorem spared_iff (prot : ℕ) (l : List ℕ) (s : Tables) (v : ℕ) :
    (if dirStamped l v then protFlags prot else s.pde v) &&&
      (if tabStamped l v then protFlags prot else s.pte v) &&& 7 = s.effective v ↔
    Spared prot l s v := by
  rw [Tables.effective, and_seven_eq_iff]
  constructor
  · intro h
    refine ⟨fun hdir htab r => ?_, fun htab hdir r => ?_, fun hdir htab r => ?_⟩
    · have := h r
      simp only [hdir, htab, if_true, gives_protFlags] at this
      tauto
    · have := h r
      simp only [hdir, htab, if_true, gives_protFlags] at this
      tauto
    · have := h r
      simp only [hdir, htab, if_true, gives_protFlags, and_self] at this
      exact this
  · rintro ⟨hsharing, hshowing, hboth⟩ r
    by_cases hdir : dirStamped l v = true <;> by_cases htab : tabStamped l v = true
    · simp only [hdir, htab, if_true, gives_protFlags, and_self]
      exact hboth hdir htab r
    · have := hsharing hdir htab r
      simp only [hdir, htab, if_true, gives_protFlags]
      tauto
    · have := hshowing htab hdir r
      simp only [hdir, htab, if_true, gives_protFlags]
      tauto
    · simp only [hdir, htab]
      rfl

/-- **The frame of `mprotect`.** Translation and flags of all pages outside the range stay exactly
if the new flags are harmless to the mapped pages that share a directory entry with the range,
and to those that show its page tables. -/
theorem mprotect_framed_iff (hwf : WellFormed s) (haddr : addr % 4096 = 0 ∧ addr < 2 ^ 32)
    (hlen : len % 4096 = 0) (hend : addr + len ≤ 2 ^ 32)
    (hmapped : ∀ v, v % 4096 = 0 → addr ≤ v → v < addr + len → s.Mapped v) (prot : ℕ) :
    (∀ v, v % 4096 = 0 → v < 2 ^ 32 → ¬ (addr ≤ v ∧ v < addr + len) →
      (mprotect addr len prot s).2.access v = s.access v) ↔ Harmless prot addr len s := by
  have hf := protFlags_lt prot
  have hpages : ∀ va ∈ pagesOf addr len, s.Mapped va := fun va hva => by
    obtain ⟨hmod, hlo, hhi⟩ := mem_pagesOf haddr hlen hend hva
    exact hmapped va hmod hlo hhi
  have h := mprotect_stamped prot hwf haddr hlen hpages
  set s' := (mprotect addr len prot s).2
  set l := reached prot s (pagesOf addr len)
  have hl : ∀ a ∈ l, s.Mapped a := fun a ha => hpages a (reached_subset _ _ _ ha)
  refine forall_congr' fun v => imp_congr_right fun hmod => imp_congr_right fun hlt =>
    imp_congr_right fun hout => ?_
  by_cases hv : s.Mapped v
  · rw [h.access_eq_iff hf hv]
    -- no page of the list has the entry of `v`
    have hlv : ∀ a ∈ l, ¬ (vaPdIdx v = vaPdIdx a ∧ vaPtIdx v = vaPtIdx a) := by
      rintro a ha ⟨hpd, hpt⟩
      obtain ⟨hamod, halo, hahi⟩ := mem_pagesOf haddr hlen hend (reached_subset _ _ _ ha)
      obtain rfl := eq_of_idx ⟨hmod, hlt⟩ ⟨hamod, by omega⟩ hpd hpt
      exact hout ⟨halo, hahi⟩
    have hpde : s'.pde v % 8 =
        (if dirStamped l v then protFlags prot else s.pde v) % 8 := by
      rw [Tables.pde, h.pdeAt]
      by_cases hw : dirStamped l v = true
      · rw [h.new _ ((words_pdeAt_iff hwf hl).mpr hw), stamp_mod hf, if_pos hw]
        exact (Nat.mod_eq_of_lt hf).symm
      · rw [h.old _ fun hin => hw ((words_pdeAt_iff hwf hl).mp hin), if_neg hw]
        rfl
    have hpte : s'.pte v % 8 =
        (if tabStamped l v then protFlags prot else s.pte v) % 8 := by
      rw [Tables.pte, h.pteAt hf]
      by_cases hw : tabStamped l v = true
      · rw [h.new _ ((words_pteAt_iff hwf hl hv hlv).mpr hw), stamp_mod hf, if_pos hw]
        exact (Nat.mod_eq_of_lt hf).symm
      · rw [h.old _ fun hin => hw ((words_pteAt_iff hwf hl hv hlv).mp hin), if_neg hw]
        rfl
    rw [forall_prop_of_true hv, ← spared_iff, Tables.effective, and_and_seven, hpde, hpte,
      ← and_and_seven]
  · have hnone : s'.access v = s.access v := by
      have hv' := h.not_mapped hf hl hv
      rw [Tables.access, Tables.access, if_neg fun hp => hv (present_effective.mp hp),
        if_neg fun hp => hv' (present_effective.mp hp)]
    exact ⟨fun _ hm => absurd hm hv, fun _ => hnone⟩

/-- The directory at `0x1000` and the table of slot 0 at `0x2000`, with two entries. -/
def smallTables (first second : ℕ) : Tables where
  mem w :=
    if w = 0x1000 then 0x2007
    else if w = 0x1FFC then 0x1003
    else if w = 0x2000 then first
    else if w = 0x2004 then second
    else 0
  cr3 := 0x1000

theorem smallTables_slot {first second i : ℕ} (hi : i < 1024)
    (h : Present ((smallTables first second).mem (0x1000 + 4 * i))) : i = 0 ∨ i = 1023 := by
  by_contra hne
  have hzero : (smallTables first second).mem (0x1000 + 4 * i) = 0 := by
    rw [smallTables]
    dsimp only
    rw [if_neg (by omega), if_neg (by omega), if_neg (by omega), if_neg (by omega)]
  rw [hzero] at h
  exact not_present_zero h

theorem wellFormed_smallTables (first second : ℕ) : WellFormed (smallTables first second) where
  selfMap := by simp [smallTables, pageRoundDn, pageSize]
  present := by simp [smallTables, present_iff]
  nonzero i hi h := by
    obtain rfl | rfl := smallTables_slot hi h
    · simp [smallTables, pageRoundDn, pageSize]
    · simp [smallTables, pageRoundDn, pageSize]
  distinct i hi j hj h h' heq := by
    obtain rfl | rfl := smallTables_slot hi h
    · obtain rfl | rfl := smallTables_slot hj h'
      · rfl
      · simp [smallTables, pageRoundDn, pageSize] at heq
    · obtain rfl | rfl := smallTables_slot hj h'
      · simp [smallTables, pageRoundDn, pageSize] at heq
      · rfl

theorem mapped_first {first second v : ℕ} (h : Present first) (hv : v % 4096 = 0) (hlt : v < 4096) :
    (smallTables first second).Mapped v := by
  obtain rfl : v = 0 := by omega
  constructor
  · simp [smallTables, Tables.pde, Tables.pdeAt, vaPdIdx, present_iff]
  · simpa [smallTables, Tables.pte, Tables.pteAt, Tables.pde, Tables.pdeAt, vaPdIdx, vaPtIdx,
      pageRoundDn, pageSize] using h

/-- Making a page readable and writable that is alone in a table whose directory entry
has these flags already. -/
theorem mprotect_framed_iff_alone : WellFormed (smallTables 0x5007 0) ∧
    ∀ v, v % 4096 = 0 → v < 2 ^ 32 → ¬ (0 ≤ v ∧ v < 0 + 4096) →
      (mprotect 0 4096 3 (smallTables 0x5007 0)).2.access v =
        (smallTables 0x5007 0).access v := by
  refine ⟨wellFormed_smallTables _ _, (mprotect_framed_iff (wellFormed_smallTables _ _)
    (by decide) (by decide) (by decide)
    (fun v hv _ hlt => mapped_first (by decide) hv (by omega)) 3).mpr ?_⟩
  rintro v hmod hlt hout ⟨hpde, hpte⟩
  have hreached : reached 3 (smallTables 0x5007 0) (pagesOf 0 4096) = [0] := rfl
  rw [hreached, ← spared_iff]
  have hpd := vaPdIdx_lt v
  have hpt := vaPtIdx_lt v
  rcases smallTables_slot hpd hpde with hslot | hslot
  · -- the only page of slot 0 is in the range
    have hne : vaPtIdx v ≠ 0 := by
      simp only [vaPdIdx, vaPtIdx] at hslot ⊢
      omega
    have hzero : (smallTables 0x5007 0).pte v = 0 := by
      simp only [Tables.pte, Tables.pteAt, Tables.pde, Tables.pdeAt, hslot, smallTables,
        pageRoundDn, pageSize, Nat.mul_zero, Nat.add_zero, if_true]
      rw [if_neg (by omega), if_neg (by omega), if_neg (by omega)]
      split <;> rfl
    rw [hzero] at hpte
    exact absurd hpte not_present_zero
  · have hpde' : (smallTables 0x5007 0).pde v = 0x1003 := by
      simp [Tables.pde, Tables.pdeAt, hslot, smallTables]
    have hpteAt : (smallTables 0x5007 0).pteAt v = 0x1000 + 4 * vaPtIdx v := by
      simp [Tables.pteAt, hpde', pageRoundDn, pageSize]
    have hslots : vaPtIdx v = 0 ∨ vaPtIdx v = 1023 := by
      rw [Tables.pte, hpteAt] at hpte
      exact smallTables_slot hpt hpte
    have hzero : vaPdIdx 0 = 0 := by decide
    rcases hslots with hidx | hidx
    · have hpte' : (smallTables 0x5007 0).pte v = 0x2007 := by
        rw [Tables.pte, hpteAt, hidx]
        simp [smallTables]
      have htab : tabStamped [0] v = true := by simp [tabStamped, hslot, hidx, hzero]
      have hdir : dirStamped [0] v = false := by simp [dirStamped, hslot, hzero]
      rw [Tables.effective, hpde', hpte', htab, hdir]
      decide
    · have hpte' : (smallTables 0x5007 0).pte v = 0x1003 := by
        rw [Tables.pte, hpteAt, hidx]
        simp [smallTables]
      have htab : tabStamped [0] v = false := by simp [tabStamped, hidx, hzero]
      have hdir : dirStamped [0] v = false := by simp [dirStamped, hslot, hzero]
      rw [Tables.effective, hpde', hpte', htab, hdir]
      rfl

/-- Making one page read-only takes the right to write from the next. -/
theorem neighbour_loses_write :
    WellFormed (smallTables 0x5007 0x6007) ∧
      (smallTables 0x5007 0x6007).access 0 = some (0x5000, 7) ∧
      (smallTables 0x5007 0x6007).access 4096 = some (0x6000, 7) ∧
      (mprotect 0 4096 protRead (smallTables 0x5007 0x6007)).2.access 4096 = some (0x6000, 5) :=
  ⟨wellFormed_smallTables _ _, by decide, by decide, by decide⟩

end Protect
