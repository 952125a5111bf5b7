/-
The protocol of purgeable memory: getting, putting back and purging.

`purgeable_put` is given a buffer and finds its region by comparing addresses,
without holding any lock.  A purge frees a buffer *before* it clears the pointer
to it, and in between the allocator may give the same address to another region.

* `Inv` — the state of a region belongs to whoever holds its lock; while nobody
  does, its buffer is allocated and has the contents of the last put;
* `purgeable_protocol` — in the runs in which `kmalloc` never returns an address
  that a region still points to, regions are held by one task at a time, no
  buffer is freed while it is held, every put releases its own region, and a get
  that finds the buffer finds it as it was put back;
* `put_releases_wrong_region` — otherwise a put may release another region.
-/
import Minima.Purge

namespace Purge

open Census Function List Option

variable {Tid : Type} {g g' : Shared} {l l' : Local} {i : Input}
  {s s' : State Tid} {e : Event Tid}

/-! ### What is known of a region and of a task -/

/-- The buffer of region `r` is allocated, and is as it was at the last put. -/
def RegionOk (g : Shared) (r : ℕ) : Prop :=
  ∀ a, g.buf r = some a → g.live a = true ∧
    ∀ ptr v, g.lastPut r = some (ptr, v) → a = ptr ∧ g.content a = v

/-- What the caller of a purge relies on. -/
def CallerOk (g : Shared) : Caller → Prop
  | .user => True
  | .get r w => g.buf r = none ∧ w = true
  | .alloc _ => False

/-- What a purge relies on. -/
def PurgeOk (g : Shared) : PurgePc → Prop
  | .memTest r _ | .memCallback r _ | .memFree r _ => RegionOk g r
  | .memPost r _ _ => g.buf r = none
  | .pend | .visit _ | .memPend _ _ | .memClear _ _ | .post => True

/-- What a task relies on at each place. -/
def PcOk (g : Shared) : Pc → Prop
  | .idle | .getPend _ => True
  | .getFlag r => RegionOk g r
  | .getTest r w => RegionOk g r ∧ w = (g.buf r).isNone
  | .getKmalloc r w => g.buf r = none ∧ w = true
  | .getStore r w a => g.buf r = none ∧ w = true ∧ g.live a = true ∧ ∀ r', g.buf r' ≠ some a
  | .getReturn r w => (∃ a, g.buf r = some a ∧ g.live a = true) ∧ (w = false → RegionOk g r)
  | .putScan r ptr cur => RegionOk g r ∧ g.buf r = some ptr ∧
      ∃ pre c post, cur = some c ∧ g.order = pre ++ c :: post ∧ r ∈ c :: post
  | .putPost r found => found = r ∧ RegionOk g r
  | .purge k _ _ p => CallerOk g k ∧ PurgeOk g p
  | .allocKmalloc _ | .allocPend _ | .allocLink _ | .allocPost _ => False
  | .freePend _ | .freePendList _ | .freeUnlink _ | .freePost _ | .freeKfree _ | .wild => False

/-- What a task relies on. -/
structure LocalOk (g : Shared) (l : Local) : Prop where
  lost : l.lost = []
  pc : PcOk g l.pc
  mine : ∀ r ptr, (r, ptr) ∈ l.mine → g.buf r = some ptr ∧ g.live ptr = true

/-- `g'` has the same region `r` as `g`, with the same contents of its buffer as
long as that is allocated. -/
def Agree (g g' : Shared) (r : ℕ) : Prop :=
  g'.buf r = g.buf r ∧ g'.lastPut r = g.lastPut r ∧
    ∀ a, g.buf r = some a → g.live a = true → g'.live a = true ∧ g'.content a = g.content a

theorem RegionOk.frame {r : ℕ} (h : RegionOk g r) (hag : Agree g g' r) : RegionOk g' r := by
  intro a ha
  rw [hag.1] at ha
  obtain ⟨hlive, hput⟩ := h a ha
  obtain ⟨hlive', hcontent⟩ := hag.2.2 a ha hlive
  rw [hcontent, hag.2.1]
  exact ⟨hlive', hput⟩

theorem PcOk.frame {c : Pc} (hok : PcOk g c) (horder : g'.order = g.order)
    (hag : ∀ r ∈ c.regions, Agree g g' r)
    (hstore : ∀ r w a, c = .getStore r w a → g'.live a = true ∧ ∀ r', g'.buf r' ≠ some a) :
    PcOk g' c := by
  cases c with
  | getFlag r => exact RegionOk.frame hok (hag r (by simp [Pc.regions]))
  | getTest r w =>
    have ha := hag r (by simp [Pc.regions])
    exact ⟨hok.1.frame ha, by rw [ha.1]; exact hok.2⟩
  | getKmalloc r w =>
    have ha := hag r (by simp [Pc.regions])
    exact ⟨by rw [ha.1]; exact hok.1, hok.2⟩
  | getStore r w a =>
    have ha := hag r (by simp [Pc.regions])
    exact ⟨by rw [ha.1]; exact hok.1, hok.2.1, hstore r w a rfl⟩
  | getReturn r w =>
    have ha := hag r (by simp [Pc.regions])
    obtain ⟨⟨a, hbuf, hlive⟩, hreg⟩ := hok
    exact ⟨⟨a, by rw [ha.1]; exact hbuf, (ha.2.2 a hbuf hlive).1⟩, fun hw => (hreg hw).frame ha⟩
  | putScan r ptr cur =>
    have ha := hag r (by simp [Pc.regions])
    exact ⟨hok.1.frame ha, by rw [ha.1]; exact hok.2.1, by rw [horder]; exact hok.2.2⟩
  | putPost r found => exact ⟨hok.1, hok.2.frame (hag r (by simp [Pc.regions]))⟩
  | purge k bytes total p =>
    obtain ⟨hk, hp⟩ := hok
    refine ⟨?_, ?_⟩
    · cases k with
      | user => trivial
      | alloc _ => exact hk
      | get r w =>
        have ha := hag r (by simp [Pc.regions, Caller.regions])
        exact ⟨by rw [ha.1]; exact hk.1, hk.2⟩
    · cases p with
      | memTest r rest | memCallback r rest | memFree r rest =>
        exact RegionOk.frame hp (hag r (by simp [Pc.regions, PurgePc.regions]))
      | memPost r n rest =>
        have ha := hag r (by simp [Pc.regions, PurgePc.regions])
        show g'.buf r = none
        rw [ha.1]
        exact hp
      | _ => trivial
  | _ => exact hok

theorem LocalOk.frame (h : LocalOk g l) (horder : g'.order = g.order)
    (hag : ∀ r ∈ l.held, Agree g g' r)
    (hstore : ∀ r w a, l.pc = .getStore r w a → g'.live a = true ∧ ∀ r', g'.buf r' ≠ some a) :
    LocalOk g' l := by
  refine ⟨h.lost, h.pc.frame horder (fun r hr => hag r (mem_append_right _ hr)) hstore,
    fun r ptr hm => ?_⟩
  have ha := hag r (mem_append_left _ (mem_append_left _
    (mem_map.mpr ⟨(r, ptr), hm, rfl⟩)))
  obtain ⟨hbuf, hlive⟩ := h.mine r ptr hm
  exact ⟨by rw [ha.1]; exact hbuf, (ha.2.2 ptr hbuf hlive).1⟩

theorem LocalOk.buf_ne_none {r : ℕ} {w : Bool} (h : LocalOk g l) (hpc : l.pc = .getReturn r w) :
    g.buf r ≠ none := by
  have hok := h.pc
  rw [hpc] at hok
  obtain ⟨⟨a, ha, -⟩, -⟩ := hok
  simp [ha]

theorem LocalOk.scan_mem {r ptr : ℕ} {cur : Option ℕ} (h : LocalOk g l)
    (hpc : l.pc = .putScan r ptr cur) : ∃ c ∈ g.order, cur = some c := by
  have hok := h.pc
  rw [hpc] at hok
  obtain ⟨-, -, pre, c, post, rfl, hord, -⟩ := hok
  exact ⟨c, by rw [hord]; simp, rfl⟩

/-! ### What one step does to the rest -/

/-- The inputs of getting, putting back and purging. -/
def Input.Shared : Input → Prop
  | .alloc _ | .free _ => False
  | .get _ | .put _ _ | .purge _ | .write _ _ _ | .run | .kmalloc _ | .pressure => True

theorem Move.agree (h : Move g l i g' l') (hok : LocalOk g l) (hin : i.Shared)
    (hfresh : ∀ a, i = .kmalloc a → ∀ r, g.buf r ≠ some a)
    (hdist : ∀ r r' a, g.buf r = some a → g.buf r' = some a → r = r') {r : ℕ}
    (hr : r ∉ l.held) : Agree g g' r := by
  have hsame : Agree g g r := ⟨rfl, rfl, fun _ _ hlive => ⟨hlive, rfl⟩⟩
  have hpcok := hok.pc
  have hnot : ∀ r' ∈ l.pc.regions, r ≠ r' := fun r' hr' heq =>
    hr (heq ▸ mem_append_right _ hr')
  have hnotMine : ∀ r' ptr, (r', ptr) ∈ l.mine → r ≠ r' := fun r' ptr hm heq =>
    hr (heq ▸ mem_append_left _ (mem_append_left _
      (mem_map.mpr ⟨(r', ptr), hm, rfl⟩)))
  cases h with
  | callAlloc _ => exact hin.elim
  | callFree _ _ => exact hin.elim
  | @callPut r' ptr hpc hm =>
    exact ⟨rfl, update_of_ne (hnotMine r' ptr hm) .., fun _ _ hlive => ⟨hlive, rfl⟩⟩
  | @write r' ptr v hpc hm =>
    refine ⟨rfl, rfl, fun a ha hlive => ⟨hlive, update_of_ne ?_ ..⟩⟩
    rintro rfl
    exact hnotMine r' a hm (hdist r r' a ha (hok.mine r' a hm).1)
  | @getStore r' a w hpc =>
    rw [hpc] at hnot
    exact ⟨update_of_ne (hnot r' (by simp [Pc.regions])) .., rfl,
      fun _ _ hlive => ⟨hlive, rfl⟩⟩
  | @kmallocGet a r' w hpc hlive =>
    refine ⟨rfl, rfl, fun b hb hlive => ?_⟩
    have hne : b ≠ a := fun heq => hfresh a rfl r (heq ▸ hb)
    exact ⟨(update_of_ne hne ..).trans hlive, update_of_ne hne ..⟩
  | @purge k bytes total p g' c hpc hp =>
    rw [hpc] at hnot
    cases hp with
    | @free r' rest =>
      have hne := hnot r' (by simp [Pc.regions, PurgePc.regions])
      unfold Shared.kfreeBuf
      cases hb : g.buf r' with
      | none => exact hsame
      | some b =>
        refine ⟨rfl, rfl, fun a ha hlive => ⟨(update_of_ne ?_ ..).trans hlive, rfl⟩⟩
        rintro rfl
        exact hne (hdist r r' a ha hb)
    | @clear r' rest =>
      exact ⟨update_of_ne (hnot r' (by simp [Pc.regions, PurgePc.regions])) .., rfl,
        fun _ _ hlive => ⟨hlive, rfl⟩⟩
    | _ => exact hsame
  | @kmallocAlloc a bytes hpc _ =>
    rw [hpc] at hpcok
    exact hpcok.elim
  | @freeKfree r' hpc =>
    rw [hpc] at hpcok
    exact hpcok.elim
  | _ => exact hsame

theorem Local.count_held (l : Local) (r : ℕ) :
    l.held.count r =
      (l.mine.map Prod.fst).count r + l.lost.count r + l.pc.regions.count r := by
  simp [Local.held, Nat.add_assoc]

theorem count_erase_mine {m : List (ℕ × ℕ)} {r' ptr : ℕ} (h : (r', ptr) ∈ m) (r : ℕ) :
    ((m.erase (r', ptr)).map Prod.fst).count r + [r'].count r = (m.map Prod.fst).count r := by
  have := ((perm_cons_erase h).map Prod.fst).count_eq r
  rw [map_cons, count_cons] at this
  rw [this, count_singleton]

theorem count_pend {c : Sem → ℕ} {r r' : ℕ} (h : c (.region r') ≠ 0) :
    update c (.region r') (c (.region r') - 1) (.region r) + [r'].count r =
      c (.region r) := by
  by_cases hr : r = r'
  · subst hr
    rw [update_self, count_singleton_self]
    omega
  · rw [update_of_ne (by simpa using hr),
      count_eq_zero_of_not_mem (by simpa using hr), Nat.add_zero]

theorem count_post (c : Sem → ℕ) (r r' : ℕ) :
    update c (.region r') (c (.region r') + 1) (.region r) =
      c (.region r) + [r'].count r := by
  by_cases hr : r = r'
  · subst hr
    rw [update_self, count_singleton_self]
  · rw [update_of_ne (by simpa using hr),
      count_eq_zero_of_not_mem (by simpa using hr), Nat.add_zero]

theorem count_list (c : Sem → ℕ) (n r : ℕ) :
    update c .list n (.region r) = c (.region r) :=
  update_of_ne (by simp) ..

theorem PurgeMove.locks {k : Caller} {bytes total : ℕ} {p : PurgePc} {c : Pc}
    (h : PurgeMove g k bytes total p g' c) (r : ℕ) :
    g'.count (.region r) + c.regions.count r =
      g.count (.region r) + (k.regions ++ p.regions).count r := by
  cases h with
  | pend _ => simp only [count_list, Pc.regions, PurgePc.regions]
  | finish => rfl
  | visit => rfl
  | lock hc =>
    have := count_pend (r := r) hc
    simp only [Pc.regions, PurgePc.regions, count_append, count_nil] at this ⊢
    omega
  | purged _ => rfl
  | present _ => rfl
  | callback => rfl
  | @free r' rest =>
    unfold Shared.kfreeBuf
    split <;> rfl
  | clear => rfl
  | @unlock r' n rest p hp =>
    rcases hp with rfl | rfl <;>
      simp only [Shared.post, count_post, Pc.regions, PurgePc.regions, count_append,
        count_nil] <;> omega
  | done =>
    cases k <;> simp [Shared.post, Pc.regions, PurgePc.regions, Caller.regions, Caller.return]

theorem Move.locks (h : Move g l i g' l') (hok : LocalOk g l) (hin : i.Shared) (r : ℕ) :
    g'.count (.region r) + l'.held.count r = g.count (.region r) + l.held.count r := by
  have hpcok := hok.pc
  rw [l.count_held, l'.count_held]
  cases h with
  | callAlloc _ => exact hin.elim
  | callFree _ _ => exact hin.elim
  | callGet hpc _ => simp [hpc, Pc.regions]
  | @callPut r' ptr hpc hm =>
    have := count_erase_mine hm r
    simp only [hpc, Pc.regions, count_nil]
    omega
  | callPurge hpc => simp [hpc, Pc.regions, Caller.regions, PurgePc.regions]
  | write hpc _ => rfl
  | getPend hpc hc =>
    have := count_pend (r := r) hc
    simp only [hpc, Local.goto_pc, Local.goto_mine, Local.goto_lost, Pc.regions, count_nil]
    omega
  | getFlag hpc => simp [hpc, Pc.regions]
  | getMissing hpc _ => simp [hpc, Pc.regions]
  | getPresent hpc _ => simp [hpc, Pc.regions]
  | getStore hpc => simp [hpc, Pc.regions]
  | getNull hpc hb => exact absurd hb (hok.buf_ne_none hpc)
  | @getReturn r' ptr w hpc hb =>
    simp only [hpc, Pc.regions, map_cons, count_cons, count_nil]
    omega
  | putMiss hpc =>
    obtain ⟨c, -, hc⟩ := hok.scan_mem hpc
    cases hc
  | putWild hpc hc =>
    obtain ⟨c, hmem, heq⟩ := hok.scan_mem hpc
    cases heq
    exact absurd hmem hc
  | putFound hpc _ _ => simp [hpc, Pc.regions]
  | putNext hpc _ _ => simp [hpc, Pc.regions]
  | @putPost r' found hpc =>
    rw [hpc] at hpcok
    obtain ⟨rfl, -⟩ := hpcok
    simp only [hpc, Shared.post, count_post, Pc.regions, if_pos, count_nil]
    omega
  | @purge k bytes total p g' c hpc hp =>
    have := hp.locks r
    simp only [hpc, Local.goto_pc, Local.goto_mine, Local.goto_lost, Pc.regions] at this ⊢
    omega
  | kmallocGet hpc _ => simp [hpc, Pc.regions]
  | pressureGet hpc => simp [hpc, Pc.regions, Caller.regions, PurgePc.regions]
  | _ =>
    simp only [PcOk, *] at hpcok

/-! ### What one step does for the task -/

theorem next_eq {pre post : List ℕ} {c : ℕ} (h : g.order = pre ++ c :: post)
    (hnd : g.order.Nodup) : g.next c = post.head? := by
  have hdrop : ∀ pre : List ℕ, c ∉ pre → (pre ++ c :: post).dropWhile (· ≠ c) = c :: post := by
    intro pre hpre
    induction pre with
    | nil => simp
    | cons x pre ih =>
      rw [mem_cons, not_or] at hpre
      rw [cons_append, dropWhile_cons_of_pos (by simpa using Ne.symm hpre.1), ih hpre.2]
  have hnot : c ∉ pre := by
    rw [h] at hnd
    exact fun hmem => (nodup_append.mp hnd).2.2 c hmem c mem_cons_self rfl
  rw [Shared.next, h, hdrop pre hnot, tail_cons]

theorem scan_next {r c : ℕ} {pre post : List ℕ} (h : g.order = pre ++ c :: post)
    (hnd : g.order.Nodup) (hr : r ∈ c :: post) (hne : r ≠ c) :
    ∃ pre' c' post', g.next c = some c' ∧ g.order = pre' ++ c' :: post' ∧ r ∈ c' :: post' := by
  have hmem : r ∈ post := mem_of_ne_of_mem hne hr
  obtain ⟨c', post', rfl⟩ := exists_cons_of_ne_nil (ne_nil_of_mem hmem)
  exact ⟨pre ++ [c], c', post', by rw [next_eq h hnd, head?_cons], by simp [h], hmem⟩

theorem PurgeMove.ok {k : Caller} {bytes total : ℕ} {p : PurgePc} {c : Pc}
    (h : PurgeMove g k bytes total p g' c) (hk : CallerOk g k) (hp : PurgeOk g p)
    (hfree : ∀ r, g.count (.region r) ≠ 0 → RegionOk g r) : PcOk g' c := by
  cases h with
  | pend _ => exact ⟨by cases k <;> exact hk, trivial⟩
  | finish => exact ⟨hk, trivial⟩
  | visit => exact ⟨hk, trivial⟩
  | @lock r rest hc => exact ⟨by cases k <;> exact hk, hfree r hc⟩
  | purged hb => exact ⟨hk, hb⟩
  | present _ => exact ⟨hk, hp⟩
  | callback => exact ⟨hk, hp⟩
  | @free r rest =>
    refine ⟨?_, trivial⟩
    cases k with
    | user => trivial
    | alloc _ => exact hk
    | get r' w =>
      refine ⟨?_, hk.2⟩
      unfold Shared.kfreeBuf
      split <;> exact hk.1
  | @clear r rest =>
    refine ⟨?_, update_self ..⟩
    cases k with
    | user => trivial
    | alloc _ => exact hk
    | get r' w =>
      refine ⟨?_, hk.2⟩
      show update g.buf r none r' = none
      by_cases hr : r' = r
      · rw [hr, update_self]
      · rw [update_of_ne hr]
        exact hk.1
  | unlock hnext =>
    refine ⟨by cases k <;> exact hk, ?_⟩
    rcases hnext with rfl | rfl <;> trivial
  | done =>
    cases k with
    | user => trivial
    | alloc _ => exact hk.elim
    | get r w => exact hk

theorem PurgeMove.mine {k : Caller} {bytes total : ℕ} {p : PurgePc} {c : Pc} {r ptr : ℕ}
    (h : PurgeMove g k bytes total p g' c) (hr : r ∉ p.regions) (hbuf : g.buf r = some ptr)
    (hlive : g.live ptr = true)
    (hdist : ∀ r r' a, g.buf r = some a → g.buf r' = some a → r = r') :
    g'.buf r = some ptr ∧ g'.live ptr = true := by
  cases h with
  | @free r' rest =>
    have hne : r ≠ r' := fun heq => hr (by simp [PurgePc.regions, heq])
    unfold Shared.kfreeBuf
    cases hb : g.buf r' with
    | none => exact ⟨hbuf, hlive⟩
    | some b =>
      refine ⟨hbuf, (update_of_ne ?_ ..).trans hlive⟩
      rintro rfl
      exact hne (hdist r r' ptr hbuf hb)
  | @clear r' rest =>
    have hne : r ≠ r' := fun heq => hr (by simp [PurgePc.regions, heq])
    exact ⟨(update_of_ne hne ..).trans hbuf, hlive⟩
  | _ => exact ⟨hbuf, hlive⟩

theorem not_mem_regions (hcount : ∀ r, l.held.count r ≤ 1) {r ptr : ℕ} (hm : (r, ptr) ∈ l.mine) :
    r ∉ l.pc.regions := by
  intro hr
  have h1 : 0 < (l.mine.map Prod.fst).count r :=
    count_pos_iff.mpr (mem_map.mpr ⟨(r, ptr), hm, rfl⟩)
  have h2 : 0 < l.pc.regions.count r := count_pos_iff.mpr hr
  have := hcount r
  rw [l.count_held] at this
  omega

theorem Move.ok (h : Move g l i g' l') (hok : LocalOk g l) (hin : i.Shared)
    (hfresh : ∀ a, i = .kmalloc a → ∀ r, g.buf r ≠ some a)
    (hdist : ∀ r r' a, g.buf r = some a → g.buf r' = some a → r = r')
    (hnd : g.order.Nodup) (hlisted : ∀ r ptr, (r, ptr) ∈ l.mine → r ∈ g.order)
    (hcount : ∀ r, l.held.count r ≤ 1)
    (hfree : ∀ r, g.count (.region r) ≠ 0 → RegionOk g r) : LocalOk g' l' := by
  have hpcok := hok.pc
  have hmine := hok.mine
  cases h with
  | callAlloc _ => exact hin.elim
  | callFree _ _ => exact hin.elim
  | callGet _ _ => exact ⟨hok.lost, trivial, hmine⟩
  | @callPut r ptr hpc hm =>
    obtain ⟨hbuf, hlive⟩ := hmine r ptr hm
    refine ⟨hok.lost, ⟨?_, hbuf, ?_⟩, fun r' ptr' hm' => hmine r' ptr' (mem_of_mem_erase hm')⟩
    · intro a ha
      obtain rfl := mem_unique hbuf ha
      refine ⟨hlive, fun ptr' v hput => ?_⟩
      simpa only [update_self, some_inj, Prod.mk.injEq] using hput
    · obtain ⟨c, post, hord⟩ := exists_cons_of_ne_nil (ne_nil_of_mem (hlisted r ptr hm))
      have hr := hlisted r ptr hm
      rw [hord] at hr
      exact ⟨[], c, post, by rw [hord, head?_cons], hord, hr⟩
  | callPurge _ => exact ⟨hok.lost, ⟨trivial, trivial⟩, hmine⟩
  | write hpc _ => exact ⟨hok.lost, by rw [hpc]; trivial, hmine⟩
  | @getPend r hpc hc => exact ⟨hok.lost, hfree r hc, hmine⟩
  | getFlag hpc =>
    rw [hpc] at hpcok
    exact ⟨hok.lost, ⟨hpcok, rfl⟩, hmine⟩
  | getMissing hpc hb =>
    rw [hpc] at hpcok
    exact ⟨hok.lost, ⟨hb, by rw [hpcok.2, hb]; rfl⟩, hmine⟩
  | @getPresent r w hpc hb =>
    rw [hpc] at hpcok
    obtain ⟨a, ha⟩ := ne_none_iff_exists'.mp hb
    exact ⟨hok.lost, ⟨⟨a, ha, (hpcok.1 a ha).1⟩, fun _ => hpcok.1⟩, hmine⟩
  | @getStore r a w hpc =>
    have hreg := fun r' ptr (hm : (r', ptr) ∈ l.mine) => not_mem_regions hcount hm
    rw [hpc] at hpcok hreg
    refine ⟨hok.lost, ⟨⟨a, update_self .., hpcok.2.2.1⟩, fun hw => ?_⟩,
      fun r' ptr hm => ?_⟩
    · rw [hpcok.2.1] at hw
      cases hw
    · have hne : r' ≠ r := fun heq => hreg r' ptr hm (by simp [Pc.regions, heq])
      exact ⟨(update_of_ne hne ..).trans (hmine r' ptr hm).1, (hmine r' ptr hm).2⟩
  | getNull hpc hb => exact absurd hb (hok.buf_ne_none hpc)
  | @getReturn r ptr w hpc hb =>
    rw [hpc] at hpcok
    obtain ⟨⟨a, ha, hlive⟩, -⟩ := hpcok
    obtain rfl := mem_unique hb ha
    refine ⟨hok.lost, trivial, fun r' ptr' hm => ?_⟩
    rcases mem_cons.mp hm with heq | hm
    · cases heq
      exact ⟨hb, hlive⟩
    · exact hmine r' ptr' hm
  | putMiss hpc =>
    obtain ⟨c, -, hc⟩ := hok.scan_mem hpc
    cases hc
  | putWild hpc hc =>
    obtain ⟨c, hmem, heq⟩ := hok.scan_mem hpc
    cases heq
    exact absurd hmem hc
  | @putFound r ptr c hpc _ hb =>
    rw [hpc] at hpcok
    exact ⟨hok.lost, ⟨hdist c r ptr hb hpcok.2.1, hpcok.1⟩, hmine⟩
  | @putNext r ptr c hpc _ hb =>
    rw [hpc] at hpcok
    obtain ⟨hreg, hbuf, pre, c', post, heq, hord, hmem⟩ := hpcok
    cases heq
    have hne : r ≠ c := fun heq => hb (heq ▸ hbuf)
    exact ⟨hok.lost, ⟨hreg, hbuf, scan_next hord hnd hmem hne⟩, hmine⟩
  | @putPost r found hpc =>
    rw [hpc] at hpcok
    exact ⟨by rw [if_pos hpcok.1]; exact hok.lost, trivial, hmine⟩
  | @purge k bytes total p g' c hpc hp =>
    have hreg := fun r' ptr (hm : (r', ptr) ∈ l.mine) => not_mem_regions hcount hm
    rw [hpc] at hpcok hreg
    refine ⟨hok.lost, hp.ok hpcok.1 hpcok.2 hfree, fun r ptr hm => ?_⟩
    have hr : r ∉ p.regions := fun hin => hreg r ptr hm (mem_append_right _ hin)
    exact hp.mine hr (hmine r ptr hm).1 (hmine r ptr hm).2 hdist
  | @kmallocGet a r w hpc hlive =>
    rw [hpc] at hpcok
    refine ⟨hok.lost, ⟨hpcok.1, hpcok.2, update_self .., hfresh a rfl⟩,
      fun r' ptr hm => ⟨(hmine r' ptr hm).1, ?_⟩⟩
    have hne : ptr ≠ a := fun heq => hfresh a rfl r' (heq ▸ (hmine r' ptr hm).1)
    exact (update_of_ne hne ..).trans (hmine r' ptr hm).2
  | pressureGet hpc =>
    rw [hpc] at hpcok
    exact ⟨hok.lost, ⟨hpcok, trivial⟩, hmine⟩
  | _ => simp only [PcOk, *] at hpcok

/-- The region a task is getting. -/
def Pc.getting : Pc → List ℕ
  | .getPend r | .getFlag r | .getTest r _ | .getKmalloc r _ | .getStore r _ _ | .getReturn r _
  | .purge (.get r _) _ _ _ => [r]
  | _ => []

theorem PurgeMove.order {k : Caller} {bytes total : ℕ} {p : PurgePc} {c : Pc}
    (h : PurgeMove g k bytes total p g' c) : g'.order = g.order ∧
      c.getting = (Pc.purge k bytes total p).getting := by
  cases h with
  | @free r rest =>
    refine ⟨?_, by cases k <;> rfl⟩
    unfold Shared.kfreeBuf
    split <;> rfl
  | done => cases k <;> exact ⟨rfl, rfl⟩
  | _ => cases k <;> exact ⟨rfl, rfl⟩

theorem Move.order (h : Move g l i g' l') (hok : LocalOk g l) : g'.order = g.order := by
  have hpcok := hok.pc
  cases h with
  | purge _ hp => exact hp.order.1
  | allocLink hpc | freeUnlink hpc | freeKfree hpc =>
    rw [hpc] at hpcok
    exact hpcok.elim
  | _ => rfl

/-- The regions a task gets or has got are on the list. -/
def Listed (g : Shared) (l : Local) : Prop :=
  (∀ r ∈ l.pc.getting, r ∈ g.order) ∧ ∀ r ptr, (r, ptr) ∈ l.mine → r ∈ g.order

theorem Move.listed (h : Move g l i g' l') (hok : LocalOk g l) (hl : Listed g l) :
    Listed g' l' := by
  have horder := h.order hok
  obtain ⟨hget, hmine⟩ := hl
  rw [Listed, horder]
  cases h with
  | callGet hpc hr => exact ⟨by simpa [Pc.getting] using hr, hmine⟩
  | callPut hpc hm =>
    exact ⟨by simp [Pc.getting], fun r ptr hin => hmine r ptr (mem_of_mem_erase hin)⟩
  | write hpc _ => exact ⟨hget, hmine⟩
  | @getReturn r ptr w hpc hb =>
    refine ⟨by simp [Pc.getting], fun r' ptr' hin => ?_⟩
    rcases mem_cons.mp hin with heq | hin
    · cases heq
      exact hget r (by simp [hpc, Pc.getting])
    · exact hmine r' ptr' hin
  | purge hpc hp =>
    refine ⟨?_, hmine⟩
    rw [Local.goto_pc, hp.order.2, ← hpc]
    exact hget
  | getPend hpc _ | getMissing hpc _ | getPresent hpc _ | kmallocGet hpc _ =>
    exact ⟨by simpa [hpc, Pc.getting] using hget, hmine⟩
  | getFlag hpc | getStore hpc | pressureGet hpc =>
    exact ⟨by simpa [hpc, Pc.getting] using hget, hmine⟩
  | _ => exact ⟨by simp [Pc.getting], hmine⟩

/-- No two regions have the same buffer. -/
def Distinct (g : Shared) : Prop := ∀ r r' a, g.buf r = some a → g.buf r' = some a → r = r'

section

variable (h : Move g l i g' l')
include h

theorem Move.buf (hok : LocalOk g l) {r a : ℕ} (ha : g'.buf r = some a) :
    g.buf r = some a ∨ (∃ w, l.pc = .getStore r w a) := by
  have hpcok := hok.pc
  cases h with
  | @getStore r' b w hpc =>
    dsimp only at ha
    by_cases hr : r = r'
    · subst hr
      rw [update_self, some_inj] at ha
      exact .inr ⟨w, ha ▸ hpc⟩
    · rw [update_of_ne hr] at ha
      exact .inl ha
  | @purge k bytes total p g' c hpc hp =>
    cases hp with
    | @free r' rest =>
      unfold Shared.kfreeBuf at ha
      split at ha <;> exact .inl ha
    | @clear r' rest =>
      dsimp only at ha
      by_cases hr : r = r'
      · subst hr
        rw [update_self] at ha
        cases ha
      · rw [update_of_ne hr] at ha
        exact .inl ha
    | _ => exact .inl ha
  | kmallocAlloc hpc _ =>
    rw [hpc] at hpcok
    exact hpcok.elim
  | freeKfree hpc =>
    rw [hpc] at hpcok
    exact hpcok.elim
  | _ => exact .inl ha

theorem Move.distinct (hok : LocalOk g l) (hd : Distinct g) :
    Distinct g' := by
  intro r r' a hr hr'
  rcases h.buf hok hr with hold | ⟨w, hpc⟩
  · rcases h.buf hok hr' with hold' | ⟨w', hpc'⟩
    · exact hd r r' a hold hold'
    · have hpcok := hok.pc
      rw [hpc'] at hpcok
      exact absurd hold (hpcok.2.2.2 r)
  · have hpcok := hok.pc
    rw [hpc] at hpcok
    rcases h.buf hok hr' with hold' | ⟨w', hpc'⟩
    · exact absurd hold' (hpcok.2.2.2 r')
    · rw [hpc] at hpc'
      cases hpc'
      rfl

theorem Move.store (hok : LocalOk g l) {a : ℕ} (hlive : g.live a = true)
    (hnew : ∀ r, g.buf r ≠ some a) (hne : ∀ r w, l.pc ≠ .getStore r w a) :
    g'.live a = true ∧ ∀ r, g'.buf r ≠ some a := by
  refine ⟨?_, fun r hr => ?_⟩
  · have hpcok := hok.pc
    cases h with
    | @kmallocGet b r w hpc hb =>
      by_cases hab : a = b
      · rw [hab, hb] at hlive
        cases hlive
      · exact (update_of_ne hab ..).trans hlive
    | @purge k bytes total p g' c hpc hp =>
      cases hp with
      | @free r rest =>
        unfold Shared.kfreeBuf
        cases hb : g.buf r with
        | none => exact hlive
        | some b =>
          refine (update_of_ne ?_ ..).trans hlive
          rintro rfl
          exact hnew r hb
      | _ => exact hlive
    | kmallocAlloc hpc _ =>
      rw [hpc] at hpcok
      exact hpcok.elim
    | freeKfree hpc =>
      rw [hpc] at hpcok
      exact hpcok.elim
    | _ => exact hlive
  · rcases h.buf hok hr with hold | ⟨w, hpc⟩
    · exact hnew r hold
    · exact hne r w hpc

theorem Move.released (hok : LocalOk g l) {r : ℕ} (hold : g.count (.region r) = 0)
    (hnew : g'.count (.region r) ≠ 0) : RegionOk g' r := by
  have hpcok := hok.pc
  cases h with
  | @putPost r' found hpc =>
    rw [hpc] at hpcok
    obtain ⟨rfl, hreg⟩ := hpcok
    have hr : r = found := by
      by_contra hne
      simp only [Shared.post] at hnew
      rw [update_of_ne (by simpa using hne)] at hnew
      exact hnew hold
    exact hr ▸ hreg
  | @purge k bytes total p g' c hpc hp =>
    rw [hpc] at hpcok
    cases hp with
    | @unlock r' n rest p hnext =>
      have hr : r = r' := by
        by_contra hne
        simp only [Shared.post] at hnew
        rw [update_of_ne (by simpa using hne)] at hnew
        exact hnew hold
      intro a ha
      have hnone : g.buf r = none := hr ▸ hpcok.2
      rw [show (g.post (.region r')).buf r = g.buf r from rfl, hnone] at ha
      cases ha
    | pend _ => exact absurd hold (by simpa [count_list] using hnew)
    | done => exact absurd hold (by simpa [Shared.post, count_list] using hnew)
    | lock hc =>
      have := count_pend (r := r) hc
      dsimp only at hnew
      omega
    | @free r' rest =>
      refine absurd hold ?_
      unfold Shared.kfreeBuf at hnew
      split at hnew <;> exact hnew
    | _ => exact absurd hold hnew
  | getPend hpc hc =>
    have := count_pend (r := r) hc
    dsimp only at hnew
    omega
  | allocPend hpc _ | freePend hpc _ | freePendList hpc _ | kmallocAlloc hpc _ =>
    rw [hpc] at hpcok
    exact hpcok.elim
  | allocPost hpc | freePost hpc | freeKfree hpc =>
    rw [hpc] at hpcok
    exact hpcok.elim
  | _ => exact absurd hold hnew

theorem Move.stored {r a : ℕ} {w : Bool} (hpc : l'.pc = .getStore r w a) : g.live a = false := by
  cases h with
  | @kmallocGet b r' w' hold hb =>
    simp only [Local.goto_pc, Pc.getStore.injEq] at hpc
    exact hpc.2.2 ▸ hb
  | write hold _ =>
    rw [hold] at hpc
    cases hpc
  | @purge k bytes total p g' c hold hp =>
    cases hp with
    | done => cases k <;> simp [Caller.return] at hpc
    | _ => simp at hpc
  | _ => simp at hpc

end

/-! ### Every run -/

section Runs

variable [Fintype Tid]

/-- The inductive invariant. -/
structure Inv (s : State Tid) : Prop where
  nodup : s.shared.order.Nodup
  listed : ∀ t, Listed s.shared (s.tasks t)
  locks : ∀ r, s.shared.count (.region r) + total (fun l => l.held.count r) s.tasks = 1
  tasks : ∀ t, LocalOk s.shared (s.tasks t)
  free : ∀ r, s.shared.count (.region r) ≠ 0 → RegionOk s.shared r
  distinct : Distinct s.shared
  stores : ∀ t u r r' w w' a, (s.tasks t).pc = .getStore r w a →
    (s.tasks u).pc = .getStore r' w' a → t = u

theorem Inv.count_le (h : Inv s) (t : Tid) (r : ℕ) : (s.tasks t).held.count r ≤ 1 := by
  have h1 := h.locks r
  have h2 := weight_le_total (fun l : Local => l.held.count r) s.tasks t
  omega

theorem Inv.not_held (h : Inv s) {r : ℕ} (hc : s.shared.count (.region r) ≠ 0) (t : Tid) :
    r ∉ (s.tasks t).held := by
  intro hr
  have h1 := h.locks r
  have h2 := weight_le_total (fun l : Local => l.held.count r) s.tasks t
  have h3 : 0 < (s.tasks t).held.count r := count_pos_iff.mpr hr
  omega

theorem Inv.other_step (h : Inv s) {a v : ℕ} (ha : s.shared.live a = false) :
    Inv { s with shared := { s.shared with content := update s.shared.content a v } } := by
  have hagree : ∀ r, Agree s.shared
      { s.shared with content := update s.shared.content a v } r := by
    refine fun r => ⟨rfl, rfl, fun b _ hlive => ⟨hlive, update_of_ne ?_ ..⟩⟩
    rintro rfl
    rw [ha] at hlive
    cases hlive
  refine ⟨h.nodup, h.listed, h.locks, fun t => ?_, fun r hr => (h.free r hr).frame (hagree r),
    h.distinct, h.stores⟩
  refine (h.tasks t).frame rfl (fun r _ => hagree r) fun r w b hpc => ?_
  have hst := (h.tasks t).pc
  rw [hpc] at hst
  exact hst.2.2

/-- Any regions, all of them free, and no task inside the interface. -/
structure Initial (s : State Tid) : Prop where
  order : s.shared.order.Nodup
  count : ∀ r, s.shared.count (.region r) = 1
  buf : ∀ r a, s.shared.buf r = some a → s.shared.live a = true
  distinct : Distinct s.shared
  lastPut : ∀ r, s.shared.lastPut r = none
  tasks : ∀ t, s.tasks t = ⟨.idle, [], []⟩

theorem Initial.inv (h : Initial s) : Inv s := by
  refine ⟨h.order, fun t => ?_, fun r => ?_, fun t => ?_, fun r _ a ha => ⟨h.buf r a ha, ?_⟩,
    h.distinct, fun t u r r' w w' a hpc => ?_⟩
  · rw [h.tasks t]
    exact ⟨by simp [Pc.getting], by simp⟩
  · have hzero : total (fun l : Local => l.held.count r) s.tasks = 0 := by
      refine total_eq_zero fun t => ?_
      rw [h.tasks t]
      rfl
    rw [h.count r, hzero]
  · rw [h.tasks t]
    exact ⟨rfl, trivial, by simp⟩
  · simp [h.lastPut r]
  · rw [h.tasks t] at hpc
    cases hpc

variable [DecidableEq Tid]

theorem Inv.exclusive (h : Inv s) {t u : Tid} {r : ℕ} (ht : r ∈ (s.tasks t).held)
    (hu : r ∈ (s.tasks u).held) : t = u := by
  have hlock := h.locks r
  have hle : total (fun l : Local => l.held.count r) s.tasks ≤ 1 := by omega
  exact eq_of_total_le_one hle (count_pos_iff.mpr ht) (count_pos_iff.mpr hu)

/-- `kmalloc` returns no address that a region still points to. -/
def Fresh (s : State Tid) : Event Tid → Prop
  | .task _ (.kmalloc a) => ∀ r, s.shared.buf r ≠ some a
  | _ => True

/-- Getting, putting back and purging, and other uses of memory. -/
def Event.Shared : Event Tid → Prop
  | .task _ i => i.Shared
  | .other _ _ => True

def SharedStep (s : State Tid) (e : Event Tid) (s' : State Tid) : Prop :=
  Step s e s' ∧ e.Shared

theorem Inv.task_step (h : Inv s) {t : Tid} (hmove : Move s.shared (s.tasks t) i g' l')
    (hin : i.Shared) (hfresh : ∀ a, i = .kmalloc a → ∀ r, s.shared.buf r ≠ some a) :
    Inv { shared := g', tasks := update s.tasks t l' } := by
  have hok := h.tasks t
  have horder := hmove.order hok
  have hagree : ∀ r, r ∉ (s.tasks t).held → Agree s.shared g' r := fun r hr =>
    hmove.agree hok hin hfresh h.distinct hr
  have hok' : LocalOk g' l' := hmove.ok hok hin hfresh h.distinct h.nodup (h.listed t).2
    (h.count_le t) h.free
  refine ⟨?_, fun u => ?_, fun r => ?_, fun u => ?_, fun r hr => ?_, hmove.distinct hok h.distinct,
    ?_⟩
  · simpa only [horder] using h.nodup
  · by_cases hu : u = t
    · subst hu
      simpa only [update_self] using hmove.listed hok (h.listed u)
    · simp only [update_of_ne hu, Listed, horder]
      exact h.listed u
  · have h1 := h.locks r
    have h2 := hmove.locks hok hin r
    have h3 := total_update (fun l : Local => l.held.count r) s.tasks t l'
    simp only at h3 ⊢
    omega
  · by_cases hu : u = t
    · subst hu
      simpa only [update_self] using hok'
    · -- what `u` holds, `t` does not, and what `u` stores nobody else has
      simp only [update_of_ne hu]
      refine (h.tasks u).frame horder (fun r hr => hagree r fun hrt => hu (h.exclusive hr hrt)) ?_
      intro r w a hpc
      have hst := (h.tasks u).pc
      rw [hpc] at hst
      exact hmove.store hok hst.2.2.1 hst.2.2.2 fun r' w' hpc' =>
        hu (h.stores u t r r' w w' a hpc hpc')
  · by_cases hold : s.shared.count (.region r) = 0
    · exact hmove.released hok hold hr
    · exact (h.free r hold).frame (hagree r (h.not_held hold t))
  · -- a task that has just allocated a buffer got one that was not allocated before
    have hnew : ∀ r w a, l'.pc = .getStore r w a → ∀ u, ∀ r' w',
        (s.tasks u).pc ≠ .getStore r' w' a := by
      intro r w a hpc u r' w' hpc'
      have hst := (h.tasks u).pc
      rw [hpc'] at hst
      exact absurd (hmove.stored hpc) (by simp [hst.2.2.1])
    intro u v r r' w w' a hpcu hpcv
    by_cases hu : u = t
    · by_cases hv : v = t
      · rw [hu, hv]
      · subst hu
        simp only [update_self] at hpcu
        simp only [update_of_ne hv] at hpcv
        exact absurd hpcv (hnew r w a hpcu v r' w')
    · by_cases hv : v = t
      · subst hv
        simp only [update_self] at hpcv
        simp only [update_of_ne hu] at hpcu
        exact absurd hpcu (hnew r' w' a hpcv u r w)
      · simp only [update_of_ne hu] at hpcu
        simp only [update_of_ne hv] at hpcv
        exact h.stores u v r r' w w' a hpcu hpcv

theorem Inv.step (h : Inv s) (hok : Fresh s e) (hstep : SharedStep s e s') : Inv s' := by
  obtain ⟨hstep, hin⟩ := hstep
  obtain ⟨t, i, g', l', rfl, hmove, rfl⟩ | ⟨a, v, rfl, ha, rfl⟩ := step_cases hstep
  · refine h.task_step hmove hin fun a hi => ?_
    subst hi
    exact hok
  · exact h.other_step ha

/-- What the interface promises: a region is held by one task at a time; the buffer of a region
that is held is allocated; a put releases the region it was called for; and a get about to
return a buffer that was not purged finds it as the last put left it. -/
structure Protocol (s : State Tid) : Prop where
  exclusive : ∀ t u r, r ∈ (s.tasks t).held → r ∈ (s.tasks u).held → t = u
  kept : ∀ t r ptr, ((r, ptr) ∈ (s.tasks t).mine ∨
    ∃ cur, (s.tasks t).pc = .putScan r ptr cur) → s.shared.live ptr = true
  releases : ∀ t r found, (s.tasks t).pc = .putPost r found → found = r
  released : ∀ t, (s.tasks t).lost = []
  unchanged : ∀ t r, (s.tasks t).pc = .getReturn r false → ∀ ptr v,
    s.shared.lastPut r = some (ptr, v) → s.shared.buf r = some ptr ∧ s.shared.content ptr = v

theorem Inv.protocol (h : Inv s) : Protocol s := by
  refine ⟨fun t u r => h.exclusive, ?_, ?_, fun t => (h.tasks t).lost, ?_⟩
  · rintro t r ptr (hm | ⟨cur, hpc⟩)
    · exact ((h.tasks t).mine r ptr hm).2
    · have hok := (h.tasks t).pc
      rw [hpc] at hok
      exact (hok.1 ptr hok.2.1).1
  · intro t r found hpc
    have hok := (h.tasks t).pc
    rw [hpc] at hok
    exact hok.1
  · intro t r hpc ptr v hput
    have hok := (h.tasks t).pc
    rw [hpc] at hok
    obtain ⟨⟨a, ha, -⟩, hreg⟩ := hok
    obtain ⟨rfl, hv⟩ := (hreg rfl a ha).2 ptr v hput
    exact ⟨ha, hv⟩

/-- **The protocol of purgeable memory** is kept in every run of gets, puts and
purges in which `kmalloc` never returns an address that a region still points
to. -/
theorem purgeable_protocol {s0 s : State Tid} {es : List (Event Tid)} (h0 : Initial s0)
    (hrun : Run SharedStep s0 es s) (hfresh : Guarded SharedStep Fresh s0 es) : Protocol s :=
  (Run.invariant_of_guarded h0.inv (fun _ _ _ h hok hstep => h.step hok hstep) hrun
    hfresh).protocol

end Runs

theorem run_shared [DecidableEq Tid] {s0 s : State Tid} {es : List (Event Tid)}
    (h : Run Step s0 es s) (hall : ∀ e ∈ es, e.Shared) : Run SharedStep s0 es s := by
  induction h with
  | nil => exact .nil
  | @snoc es s t e _ hs ih =>
    exact .snoc (ih fun e' he' => hall e' (mem_append_left _ he'))
      ⟨hs, hall e (mem_append_right _ mem_cons_self)⟩

instance : (e : Event Tid) → Decidable e.Shared
  | .task _ (.alloc _) | .task _ (.free _) => isFalse id
  | .task _ (.get _) | .task _ (.put _ _) | .task _ (.purge _) | .task _ (.write _ _ _)
  | .task _ .run | .task _ (.kmalloc _) | .task _ .pressure | .other _ _ => isTrue trivial

/-- Two regions and two tasks. -/
def twoRegions : State Bool where
  shared :=
    { order := [1, 2]
      buf := fun r => if r = 1 then some 10 else if r = 2 then some 20 else none
      bytes := fun _ => 64
      count := fun _ => 1
      nextRegion := 3
      live := fun a => a = 10 ∨ a = 20
      content := fun _ => 0
      lastPut := fun _ => none }
  tasks _ := ⟨.idle, [], []⟩

theorem twoRegions_initial : Initial twoRegions := by
  refine ⟨by decide, fun _ => rfl, fun r a h => ?_, fun r r' a h h' => ?_, fun _ => rfl,
    fun _ => rfl⟩
  · simp only [twoRegions] at h ⊢
    grind
  · simp only [twoRegions] at h h'
    grind

def runs (t : Bool) (n : ℕ) : List (Event Bool) := List.replicate n (.task t .run)

/-- A region is got, changed and put back, and got again. -/
def getTwice : List (Event Bool) :=
  [.task true (.get 2)] ++ runs true 4 ++ [.task true (.write 2 20 7), .task true (.put 2 20)] ++
    runs true 3 ++ [.task false (.get 2)] ++ runs false 3

theorem purgeable_protocol_getTwice :
    ∃ s, Run SharedStep twoRegions getTwice s ∧ (s.tasks false).pc = .getReturn 2 false ∧
      s.shared.buf 2 = some 20 ∧ s.shared.content 20 = 7 := by
  have hsome : (getTwice.foldlM State.step twoRegions).map
      (fun s => ((s.tasks false).pc, s.shared.lastPut 2)) =
        some (.getReturn 2 false, some (20, 7)) := by decide +kernel
  obtain ⟨s, hs, hpc⟩ := map_eq_some_iff.mp hsome
  rw [Prod.mk.injEq] at hpc
  have hrun : Run SharedStep twoRegions getTwice s :=
    run_shared (run_iff_foldlM.mpr hs) (by decide +kernel)
  have hno : ∀ e ∈ getTwice, ∀ t a, e ≠ .task t (.kmalloc a) := by
    simp [getTwice, runs]
  have hfresh : Guarded SharedStep Fresh twoRegions getTwice := by
    intro p e u hp _
    have he : e ∈ getTwice := hp.subset (mem_append_right _ mem_cons_self)
    unfold Fresh
    split
    · next t a => exact absurd rfl (hno _ he t a)
    · trivial
  exact ⟨s, hrun, hpc.1,
    (purgeable_protocol twoRegions_initial hrun hfresh).unchanged false 2 hpc.1 20 7 hpc.2⟩

/-- Both regions are purged and region 1 gets the buffer 10 again.  A purge frees that buffer and,
before it has cleared the pointer, region 2 gets the same address and is put back. -/
def reuse : List (Event Bool) :=
  [.task true (.purge 0)] ++ runs true 17 ++
  [.task false (.get 1)] ++ runs false 3 ++ [.task false (.kmalloc 10)] ++ runs false 2 ++
  [.task false (.put 1 10)] ++ runs false 2 ++
  [.task true (.purge 0)] ++ runs true 6 ++
  [.task false (.get 2)] ++ runs false 3 ++ [.task false (.kmalloc 10)] ++ runs false 2 ++
  [.task false (.put 2 10)] ++ runs false 1

/-- **A put that releases another region**: the scan stops at region 1, which
the purge is about to clear. -/
theorem put_releases_wrong_region :
    Initial twoRegions ∧ ∃ s, Run SharedStep twoRegions reuse s ∧
      (s.tasks false).pc = .putPost 2 1 ∧ ¬ Protocol s := by
  have hsome : (reuse.foldlM State.step twoRegions).map (fun s => (s.tasks false).pc) =
      some (.putPost 2 1) := by decide +kernel
  obtain ⟨s, hs, hpc⟩ := map_eq_some_iff.mp hsome
  refine ⟨twoRegions_initial, s, run_shared (run_iff_foldlM.mpr hs) (by decide +kernel), hpc,
    fun hprot => ?_⟩
  exact absurd (hprot.releases false 2 1 hpc) (by decide)

end Purge
