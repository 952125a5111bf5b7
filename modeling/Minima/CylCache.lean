/-
The cylinder cache as a sequence of calls (`cyl_cache_read` of `drivers/floppy.c`, and
`mm/purge.c`).

Here the disks stay in the drives and the device reads succeed.  Then nothing is left but
the cache itself: the cylinders of each drive in the order of last use, each with a number,
purgeable memory and its lock, the list of all purgeable memory that `purgeable_purge`
goes through, and the transfer buffer with its tags.

* `cylCacheRead`, `purgeablePut`, `purgeablePurge` — the functions of the source;
* `Cache.Ok`, `Inv` — the invariant of the lists and of the transfer buffer;
* `cyl_cache_refines` — every call returns the cylinder asked for, a miss reuses the
  entry that was used least recently, no assertion fails, and without purges the cache has
  the last 16 cylinders asked for;
* `cylCacheRead_forget` — without locks and times, a call is one of the model of the driver.
-/
import Minima.Floppy
import Minima.Lru

open Floppy (Format Medium Data memcpy cylinderCacheCyls einval eio)

namespace CylCache

open Function List Option

variable {β : Type}

/-! ### The driver -/

/-- `struct cylinder`, with its purgeable memory and the lock on that.  `id` stands for
its address, and `used` counts the calls up to the one that last used it. -/
structure Slot (β : Type) where
  id : ℕ
  data : Data β
  locked : Bool
  num : ℤ
  used : ℕ

/-- `struct cyl_cache` -/
structure Cache (β : Type) where
  cylSize : ℕ
  lruCyls : List (Slot β)

/-- `struct floppy_drive` -/
structure Drive (β : Type) where
  f : Option Format
  cache : Option (Cache β)

/-- The drives, `s_purgeable` by drive and cylinder, the transfer buffer and its tags.
`calls` counts the calls of `cyl_cache_read`. -/
structure State (β : Type) where
  drives : ℕ → Drive β
  sPurgeable : List (ℕ × ℕ)
  dmaBuf : ℕ → β
  dmaBufCyl : ℤ
  dmaBufDrv : ℤ
  calls : ℕ

/-- What happens to be in memory: in what `kmalloc` returns, and in the transfer buffer
after attempts that failed. -/
structure Junk (β : Type) where
  allocated : ℕ → β
  left : ℕ → β
  fresh : ℕ → β

/-- `check_media_changed` while `DSKCHG` is not set: a disk that is not known yet is
detected. -/
def Drive.checkMediaChanged (m : Medium β) (d : Drive β) : Drive β :=
  if d.f.isSome then d else { d with f := some m.format }

namespace State

variable (s : State β)

def setDrive (n : ℕ) (d : Drive β) : State β := { s with drives := update s.drives n d }

def setCache (n : ℕ) (c : Cache β) : State β :=
  s.setDrive n { s.drives n with cache := some c }

/-- `read_cyl`, which succeeds in the end -/
def readCyl (m : Medium β) (n cyl : ℕ) (left : ℕ → β) : State β :=
  { s with dmaBuf := m.fill cyl left, dmaBufCyl := cyl, dmaBufDrv := n }

end State

/-- `cyl_cache_init` -/
def cylCacheInit (cylSize : ℕ) : Cache β :=
  ⟨cylSize, (List.range cylinderCacheCyls).map fun i => ⟨i, .null, false, -1, 0⟩⟩

/-- `cyl_cache_destroy` of the cache of drive `n` -/
def cylCacheDestroy (n : ℕ) (c : Cache β) (s : State β) : Except Fault (State β) :=
  if c.lruCyls.any fun e => e.data.isNull then .error .assertion
  else .ok { s with sPurgeable := s.sPurgeable.filter fun p => p.1 ≠ n }

/-- The cache for cylinders of this size: the one there is, or a new one. -/
def getCache (n cylSize : ℕ) (s : State β) : Except Fault (Cache β × State β) :=
  match (s.drives n).cache with
  | none => .ok (cylCacheInit cylSize, s)
  | some c =>
    if c.cylSize ≠ cylSize then do
      let s ← cylCacheDestroy n c s
      return (cylCacheInit cylSize, s)
    else .ok (c, s)

/-- `purgeable_get`: whether the memory was purged, the buffer, and the entry with its lock held.
Nobody will release a lock that is held already. -/
def purgeableGet (fresh : ℕ → β) (e : Slot β) : Except Fault (Bool × (ℕ → β) × Slot β) :=
  if e.locked then .error .diverged
  else match e.data with
    | .null => .error .assertion
    | .purged => .ok (true, fresh, { e with data := .buf fresh, locked := true })
    | .buf b => .ok (false, b, { e with locked := true })

/-- The search, from the most recently used end. -/
def findCyl (cyl : ℤ) (l : List (Slot β)) : Option (List (Slot β) × Slot β × List (Slot β)) :=
  splitLast (fun e => !e.data.isNull && decide (e.num = cyl)) l

/-- `purgeable_alloc` for an entry that has no memory yet -/
def purgeableAlloc (n : ℕ) (allocated : ℕ → β) (e : Slot β) (s : State β) : Slot β × State β :=
  if e.data.isNull then
    ({ e with data := .buf allocated, locked := false },
      { s with sPurgeable := s.sPurgeable ++ [(n, e.id)] })
  else (e, s)

/-- The transfer buffer is filled, unless the tags say that it holds the cylinder. -/
def updateDmaBuf (m : Medium β) (n : ℕ) (cyl : ℤ) (left : ℕ → β) (s : State β) : State β :=
  if cyl ≠ s.dmaBufCyl ∨ n ≠ s.dmaBufDrv then s.readCyl m n cyl.toNat left else s

/-- `cyl_cache_read` after the search has found nothing -/
def cylCacheMiss (m : Medium β) (n : ℕ) (cyl : ℤ) (x : Junk β) (c : Cache β) (s : State β) :
    Except Fault (ℤ × Option (ℕ × (ℕ → β)) × State β) :=
  match c.lruCyls with
  | [] => .error .nullPointer
  | miss :: rest => do
    let (miss, s) := purgeableAlloc n x.allocated miss s
    let s := updateDmaBuf m n cyl x.left s
    let (_, dst, miss) ← purgeableGet x.fresh miss
    let dst := memcpy dst s.dmaBuf c.cylSize
    let miss := { miss with data := .buf dst, num := cyl, used := s.calls + 1 }
    return (0, some (miss.id, dst),
      { s.setCache n { c with lruCyls := rest ++ [miss] } with calls := s.calls + 1 })

/-- `cyl_cache_read`; what it returns, and the entry and buffer that are locked -/
def cylCacheRead (disk : ℕ → Medium β) (n : ℕ) (cyl : ℤ) (x : Junk β) (s : State β) :
    Except Fault (ℤ × Option (ℕ × (ℕ → β)) × State β) :=
  if cyl < 0 then .ok (-einval, none, s)
  else
    let s := s.setDrive n ((s.drives n).checkMediaChanged (disk n))
    match (s.drives n).f with
    | none => .ok (-eio, none, s)
    | some f => do
      let (c, s) ← getCache n f.cylSize s
      let s := s.setCache n c
      match findCyl cyl c.lruCyls with
      | some (before, test, after) =>
        let (purged, locked, test) ← purgeableGet x.fresh test
        -- a purged entry should have the number -1, and not that of the cylinder
        if purged then .error .assertion
        else
          let test := { test with used := s.calls + 1 }
          return (0, some (test.id, locked),
            { s.setCache n { c with lruCyls := before ++ after ++ [test] } with
              calls := s.calls + 1 })
      | none => cylCacheMiss (disk n) n cyl x c s

/-- A change of the entry with this address. -/
def onId (id : ℕ) (g : Slot β → Slot β) (e : Slot β) : Slot β := if e.id = id then g e else e

def Cache.modify (c : Cache β) (id : ℕ) (g : Slot β → Slot β) : Cache β :=
  { c with lruCyls := c.lruCyls.map (onId id g) }

/-- The entry without its buffer and number. -/
def Slot.purge (e : Slot β) : Slot β := { e with data := .purged, num := -1 }

def Slot.unlock (e : Slot β) : Slot β := { e with locked := false }

/-- `purgeable_put` of the buffer of this entry -/
def purgeablePut (n id : ℕ) (s : State β) : State β :=
  match (s.drives n).cache with
  | none => s
  | some c => s.setCache n (c.modify id Slot.unlock)

/-- `mem_purge` with `on_cyl_purge`; the bytes that were freed -/
def memPurge (s : State β) (p : ℕ × ℕ) : Except Fault (ℕ × State β) :=
  match (s.drives p.1).cache with
  | none => .error .nullPointer
  | some c =>
    match c.lruCyls.find? fun e => e.id = p.2 with
    | none => .error .nullPointer
    | some e =>
      if e.locked then .error .diverged
      else match e.data with
        | .buf _ =>
          if e.num < 0 then .error .assertion
          else .ok (c.cylSize, s.setCache p.1 (c.modify p.2 Slot.purge))
        | _ => .ok (0, s)

/-- The loop of `purgeable_purge` -/
def purgeLoop (bytes : ℕ) : List (ℕ × ℕ) → ℕ → State β → Except Fault (ℕ × State β)
  | [], total, s => .ok (total, s)
  | p :: ps, total, s => do
    let (freed, s) ← memPurge s p
    if bytes ≠ 0 ∧ bytes ≤ total + freed then return (total + freed, s)
    purgeLoop bytes ps (total + freed) s

/-- `purgeable_purge` -/
def purgeablePurge (bytes : ℕ) (s : State β) : Except Fault (ℕ × State β) :=
  purgeLoop bytes s.sPurgeable 0 s

/-! ### Sequences of calls -/

inductive Event (β : Type)
  /-- `cyl_cache_read`, and `purgeable_put` of what it returns -/
  | read (n : ℕ) (cyl : ℤ) (x : Junk β)
  /-- `purgeable_purge` -/
  | purge (bytes : ℕ)

/-- `cyl_cache_read` and `purgeable_put`: what was returned, and the state -/
def readPut (disk : ℕ → Medium β) (n : ℕ) (cyl : ℤ) (x : Junk β) (s : State β) :
    Except Fault (ℤ × Option (ℕ → β) × State β) := do
  let (ret, out, s) ← cylCacheRead disk n cyl x s
  match out with
  | none => return (ret, none, s)
  | some (id, b) => return (ret, some b, purgeablePut n id s)

def State.step (disk : ℕ → Medium β) (s : State β) : Event β → Except Fault (State β)
  | .read n cyl x => do
    let (_, _, s) ← readPut disk n cyl x s
    return s
  | .purge bytes => do
    let (_, s) ← purgeablePurge bytes s
    return s

def Step (disk : ℕ → Medium β) (s : State β) (e : Event β) (s' : State β) : Prop :=
  s.step disk e = .ok s'

/-- Nothing has been read yet. -/
structure Initial (s : State β) : Prop where
  drives : ∀ n, s.drives n = ⟨none, none⟩
  sPurgeable : s.sPurgeable = []
  tags : s.dmaBufCyl = -1 ∧ s.dmaBufDrv = -1
  calls : s.calls = 0

/-! ### The lists of cylinders -/

variable {s s' : State β} {m : Medium β} {e e' : Slot β} {l before after : List (Slot β)}
  {n id t : ℕ} {cyl : ℤ} {x : Junk β}

/-- The entries of a new cache. -/
def initSlots : List (Slot β) :=
  (List.range cylinderCacheCyls).map fun i => ⟨i, .null, false, -1, 0⟩

/-- The entries of a drive; those of the new cache if there is none yet. -/
def Drive.slots (d : Drive β) : List (Slot β) := (d.cache.map Cache.lruCyls).getD initSlots

/-- An entry with a number holds that cylinder; without a number it has no buffer. -/
def Slot.Ok (m : Medium β) (e : Slot β) : Prop :=
  (e.num = -1 ∧ ∀ b, e.data ≠ .buf b) ∨ (0 ≤ e.num ∧ ∃ b, e.data = .buf b ∧ m.Holds e.num.toNat b)

/-- **The list of a drive** after `t` calls. -/
structure Slots (m : Medium β) (t : ℕ) (l : List (Slot β)) : Prop where
  length : l.length = cylinderCacheCyls
  ids : (l.map Slot.id).Nodup
  free : ∀ e ∈ l, e.locked = false
  ok : ∀ e ∈ l, e.Ok m
  nums : l.Pairwise fun a b => 0 ≤ a.num → a.num ≠ b.num
  order : l.Pairwise fun a b => a.used < b.used ∨ (a.used = 0 ∧ b.used = 0)
  past : ∀ e ∈ l, e.used ≤ t

namespace Slots

theorem init (m : Medium β) (t : ℕ) : Slots m t initSlots := by
  have hnew : ∀ e ∈ (initSlots : List (Slot β)),
      e.data = .null ∧ e.locked = false ∧ e.num = -1 ∧ e.used = 0 := by
    intro e he
    obtain ⟨i, -, rfl⟩ := mem_map.mp he
    exact ⟨rfl, rfl, rfl, rfl⟩
  refine ⟨by simp [initSlots], ?_, fun e he => (hnew e he).2.1, fun e he => ?_, ?_, ?_,
    fun e he => ?_⟩
  · have hids : (initSlots : List (Slot β)).map Slot.id = List.range cylinderCacheCyls := by
      rw [initSlots, List.map_map]
      exact List.map_id _
    rw [hids]
    exact nodup_range
  · obtain ⟨hdata, -, hnum, -⟩ := hnew e he
    refine .inl ⟨hnum, fun b hb => ?_⟩
    rw [hdata] at hb
    cases hb
  · refine pairwise_of_forall_mem_list fun a ha b _ hpos => ?_
    rw [(hnew a ha).2.2.1] at hpos
    omega
  · exact pairwise_of_forall_mem_list fun a ha b hb =>
      .inr ⟨(hnew a ha).2.2.2, (hnew b hb).2.2.2⟩
  · rw [(hnew e he).2.2.2]
    exact Nat.zero_le t

theorem mono {t' : ℕ} (h : Slots m t l) (ht : t ≤ t') : Slots m t' l :=
  { h with past := fun e he => (h.past e he).trans ht }

theorem requeue (h : Slots m t (before ++ e :: after)) (hid : e'.id = e.id)
    (hfree : e'.locked = false) (hok : e'.Ok m) (hused : e'.used = t + 1)
    (hnum : ∀ a ∈ before ++ after, a.num ≠ e'.num) :
    Slots m (t + 1) (before ++ after ++ [e']) := by
  have hsub : List.Sublist (before ++ after) (before ++ e :: after) :=
    (List.Sublist.refl before).append (sublist_cons_self e after)
  have hperm : (before ++ after ++ [e']).Perm (before ++ e' :: after) := by
    rw [append_assoc]
    exact (perm_append_singleton e' after).append_left before
  have hold : ∀ a ∈ before ++ after, a ∈ before ++ e :: after := fun a ha => hsub.subset ha
  have hall : ∀ (P : Slot β → Prop), (∀ a ∈ before ++ e :: after, P a) → P e' →
      ∀ a ∈ before ++ after ++ [e'], P a := by
    intro P hP he' a ha
    rcases mem_append.mp ha with ha | ha
    · exact hP a (hold a ha)
    · rwa [mem_singleton.mp ha]
  refine ⟨?_, ?_, hall _ h.free hfree, hall _ h.ok hok, ?_, ?_, ?_⟩
  · rw [hperm.length_eq, ← h.length]
    simp
  · refine ((hperm.map Slot.id).nodup_iff).mpr ?_
    have hids := h.ids
    simp only [map_append, map_cons] at hids ⊢
    rwa [hid]
  · refine pairwise_append.mpr ⟨h.nums.sublist hsub, pairwise_singleton _ _, ?_⟩
    intro a ha b hb _
    rw [mem_singleton.mp hb]
    exact hnum a ha
  · refine pairwise_append.mpr ⟨h.order.sublist hsub, pairwise_singleton _ _, ?_⟩
    intro a ha b hb
    rw [mem_singleton.mp hb, hused]
    exact .inl (Nat.lt_succ_of_le (h.past a (hold a ha)))
  · exact hall _ (fun a ha => (h.past a ha).trans (Nat.le_succ t)) hused.le

theorem purge (h : Slots m t l) (id : ℕ) : Slots m t (l.map (onId id Slot.purge)) := by
  have hkept : ∀ e : Slot β, (onId id Slot.purge e).id = e.id ∧
      (onId id Slot.purge e).locked = e.locked ∧ (onId id Slot.purge e).used = e.used := by
    intro e
    rw [onId]
    split <;> exact ⟨rfl, rfl, rfl⟩
  have hnum : ∀ e : Slot β, (onId id Slot.purge e).num = -1 ∨ onId id Slot.purge e = e := by
    intro e
    rw [onId]
    split
    · exact .inl rfl
    · exact .inr rfl
  refine ⟨by rw [length_map, h.length], ?_, ?_, ?_, ?_, ?_, ?_⟩
  · have hids : (l.map (onId id Slot.purge)).map Slot.id = l.map Slot.id := by
      rw [List.map_map]
      exact List.map_congr_left fun e _ => (hkept e).1
    rw [hids]
    exact h.ids
  · intro e he
    obtain ⟨a, ha, rfl⟩ := mem_map.mp he
    rw [(hkept a).2.1]
    exact h.free a ha
  · intro e he
    obtain ⟨a, ha, rfl⟩ := mem_map.mp he
    rw [onId]
    split
    · exact .inl ⟨rfl, fun b hb => by cases hb⟩
    · exact h.ok a ha
  · refine pairwise_map.mpr (h.nums.imp fun {a b} hab hpos => ?_)
    rcases hnum a with ha | ha
    · omega
    · rw [ha] at hpos ⊢
      rcases hnum b with hb | hb
      · omega
      · rw [hb]
        exact hab hpos
  · refine pairwise_map.mpr (h.order.imp fun {a b} hab => ?_)
    rw [(hkept a).2.2, (hkept b).2.2]
    exact hab
  · intro e he
    obtain ⟨a, ha, rfl⟩ := mem_map.mp he
    rw [(hkept a).2.2]
    exact h.past a ha

end Slots

/-! ### The calls -/

/-- **The invariant.** -/
structure Inv (disk : ℕ → Medium β) (s : State β) : Prop where
  format : ∀ n f, (s.drives n).f = some f → f = (disk n).format
  size : ∀ n c, (s.drives n).cache = some c → c.cylSize = (disk n).format.cylSize
  slots : ∀ n, Slots (disk n) s.calls (s.drives n).slots
  registered : ∀ p ∈ s.sPurgeable, (s.drives p.1).cache.isSome ∧
    p.2 ∈ (s.drives p.1).slots.map Slot.id
  dma : ∀ n : ℕ, s.dmaBufDrv = n → (disk n).Holds s.dmaBufCyl.toNat s.dmaBuf

theorem Initial.inv (disk : ℕ → Medium β) (h : Initial s) : Inv disk s := by
  refine ⟨fun n f hf => ?_, fun n c hc => ?_, fun n => ?_, fun p hp => ?_, fun n hn => ?_⟩
  · rw [h.drives] at hf
    cases hf
  · rw [h.drives] at hc
    cases hc
  · rw [h.drives]
    exact Slots.init _ _
  · rw [h.sPurgeable] at hp
    cases hp
  · rw [h.tags.2] at hn
    omega

/-- The drive `n` after a call that leaves the list `l`. -/
def State.withSlots (disk : ℕ → Medium β) (n : ℕ) (l : List (Slot β)) (s : State β) : State β :=
  s.setDrive n ⟨some (disk n).format, some ⟨(disk n).format.cylSize, l⟩⟩

theorem setDrive_drives (s : State β) (n k : ℕ) (d : Drive β) :
    (s.setDrive n d).drives k = if k = n then d else s.drives k := by
  simp only [State.setDrive, update_apply]

variable {c : Cache β}

theorem Inv.setDrive {disk : ℕ → Medium β} {d : Drive β} (h : Inv disk s)
    (hf : ∀ f, d.f = some f → f = (disk n).format) (hc : d.cache = some c)
    (hsize : c.cylSize = (disk n).format.cylSize) (hl : Slots (disk n) s.calls c.lruCyls)
    (hids : ∀ i ∈ (s.drives n).slots.map Slot.id, i ∈ c.lruCyls.map Slot.id) :
    Inv disk (s.setDrive n d) := by
  have hslots : d.slots = c.lruCyls := by
    rw [Drive.slots, hc]
    rfl
  refine ⟨fun k f hf' => ?_, fun k c' hc' => ?_, fun k => ?_, fun p hp => ?_, h.dma⟩
  · rw [setDrive_drives] at hf'
    split at hf'
    · rename_i hk
      rw [hk]
      exact hf f hf'
    · exact h.format k f hf'
  · rw [setDrive_drives] at hc'
    split at hc'
    · rename_i hk
      rw [hk, ← hsize, some_inj.mp (hc.symm.trans hc')]
    · exact h.size k c' hc'
  · rw [setDrive_drives]
    split
    · rename_i hk
      rw [hk, hslots]
      exact hl
    · exact h.slots k
  · obtain ⟨hsome, hmem⟩ := h.registered p hp
    rw [setDrive_drives]
    split
    · rename_i hk
      rw [hslots, hc]
      exact ⟨rfl, hids _ (hk ▸ hmem)⟩
    · exact ⟨hsome, hmem⟩

theorem withSlots_slots (disk : ℕ → Medium β) (n : ℕ) (l : List (Slot β)) (s : State β) :
    ((s.withSlots disk n l).drives n).slots = l := by
  rw [State.withSlots, setDrive_drives, if_pos rfl]
  rfl

theorem slots_eq (h : (s.drives n).cache = some c) : (s.drives n).slots = c.lruCyls := by
  rw [Drive.slots, h]
  rfl

theorem getCache_eq {size : ℕ} (h : ∀ c, (s.drives n).cache = some c → c.cylSize = size) :
    getCache n size s = .ok (⟨size, (s.drives n).slots⟩, s) := by
  rw [getCache, Drive.slots]
  cases hc : (s.drives n).cache with
  | none => rfl
  | some c =>
    have hsize := h c hc
    show (if c.cylSize ≠ size then _ else _) = _
    rw [if_neg (not_not.mpr hsize), ← hsize]
    rfl

theorem Slots.findCyl (h : Slots m t l) (hcyl : 0 ≤ cyl) :
    (∃ before e after b, findCyl cyl l = some (before, e, after) ∧ l = before ++ e :: after ∧
      e.num = cyl ∧ e.data = .buf b ∧ m.Holds cyl.toNat b) ∨
    (CylCache.findCyl cyl l = none ∧ ∀ e ∈ l, e.num ≠ cyl) := by
  cases hfind : CylCache.findCyl cyl l with
  | none =>
    refine .inr ⟨rfl, fun e he hnum => ?_⟩
    have hnot := splitLast_eq_none.mp hfind e he
    rcases h.ok e he with ⟨hneg, -⟩ | ⟨-, b, hb, -⟩
    · omega
    · simp [hb, hnum, Data.isNull] at hnot
  | some r =>
    obtain ⟨before, e, after⟩ := r
    obtain ⟨hl, htest, -⟩ := splitLast_eq_some hfind
    have hnum : e.num = cyl := by simpa using (Bool.and_eq_true_iff.mp htest).2
    rcases h.ok e (by simp [hl]) with ⟨hneg, -⟩ | ⟨-, b, hb, hholds⟩
    · omega
    · exact .inl ⟨before, e, after, b, rfl, hl, hnum, hb, hnum ▸ hholds⟩

/-- What `cyl_cache_read` and `purgeable_put` do to drive `n`: the entry `e`, which has the
cylinder or else is the first of all, moves to the end with the cylinder. -/
structure Used (disk : ℕ → Medium β) (n : ℕ) (cyl : ℤ) (b : ℕ → β) (s s' : State β) : Prop where
  holds : (disk n).Holds cyl.toNat b
  inv : Inv disk s'
  calls : s'.calls = s.calls + 1
  others : ∀ k, k ≠ n → s'.drives k = s.drives k
  slots : ∃ before e after, (s.drives n).slots = before ++ e :: after ∧
    (s'.drives n).slots = before ++ after ++ [⟨e.id, .buf b, false, cyl, s.calls + 1⟩] ∧
    (e.num = cyl ∨ before = [] ∧ ∀ a ∈ (s.drives n).slots, a.num ≠ cyl)

theorem map_unlock (hl : ∀ a ∈ l, a.locked = false) (e : Slot β) :
    (l ++ [e]).map (onId e.id Slot.unlock) = l ++ [e.unlock] := by
  have hold : l.map (onId e.id Slot.unlock) = l := by
    conv_rhs => rw [← map_id l]
    refine map_congr_left fun a ha => ?_
    have hfree := hl a ha
    rw [onId]
    split
    · cases a
      simp_all [Slot.unlock]
    · rfl
  rw [map_append, hold, map_singleton, onId, if_pos rfl]

theorem purgeablePut_withSlots (disk : ℕ → Medium β) (n t : ℕ) (s : State β)
    (hl : ∀ a ∈ l, a.locked = false) (e : Slot β) :
    purgeablePut n e.id { s.withSlots disk n (l ++ [e]) with calls := t } =
      { s.withSlots disk n (l ++ [e.unlock]) with calls := t } := by
  simp only [purgeablePut, State.withSlots, State.setDrive, State.setCache, update_self,
    Cache.modify, map_unlock hl, update_idem]

section Calls

variable {disk : ℕ → Medium β}

theorem setCache_withSlots (s : State β) (l l' : List (Slot β)) :
    (s.withSlots disk n l).setCache n ⟨(disk n).format.cylSize, l'⟩ = s.withSlots disk n l' := by
  simp only [State.withSlots, State.setDrive, State.setCache, update_self,
    update_idem]

theorem Inv.cylCacheRead_eq (h : Inv disk s) (hcyl : 0 ≤ cyl) :
    cylCacheRead disk n cyl x s = (match findCyl cyl (s.drives n).slots with
      | some (before, test, after) => do
        let (purged, locked, test) ← purgeableGet x.fresh test
        if purged then .error .assertion
        else
          let test := { test with used := s.calls + 1 }
          return (0, some (test.id, locked),
            { s.withSlots disk n (before ++ after ++ [test]) with calls := s.calls + 1 })
      | none => cylCacheMiss (disk n) n cyl x ⟨(disk n).format.cylSize, (s.drives n).slots⟩
          (s.withSlots disk n (s.drives n).slots)) := by
  have hcheck : (s.drives n).checkMediaChanged (disk n) =
      ⟨some (disk n).format, (s.drives n).cache⟩ := by
    rw [Drive.checkMediaChanged]
    cases hf : (s.drives n).f with
    | none => rfl
    | some f =>
      show s.drives n = _
      rw [← h.format n f hf, ← hf]
  have hdrive : (s.setDrive n ⟨some (disk n).format, (s.drives n).cache⟩).drives n =
      ⟨some (disk n).format, (s.drives n).cache⟩ := by
    simp [State.setDrive]
  have hcache := getCache_eq
    (fun c hc => h.size n c (by rwa [hdrive] at hc))
  have hset : (s.setDrive n ⟨some (disk n).format, (s.drives n).cache⟩).setCache n
      ⟨(disk n).format.cylSize, (s.drives n).slots⟩ = s.withSlots disk n (s.drives n).slots := by
    simp only [State.withSlots, State.setDrive, State.setCache, update_self,
      update_idem]
  have hslots : Drive.slots ⟨some (disk n).format, (s.drives n).cache⟩ = (s.drives n).slots := rfl
  rw [hdrive, hslots] at hcache
  simp only [cylCacheRead, if_neg (Int.not_lt.mpr hcyl), hcheck, hdrive, hcache, bind, Except.bind,
    hset, setCache_withSlots]
  rfl

variable {b : ℕ → β}

theorem Inv.used (h : Inv disk s) (hl : (s.drives n).slots = before ++ e :: after) (hcyl : 0 ≤ cyl)
    (hholds : (disk n).Holds cyl.toNat b)
    (hwhich : e.num = cyl ∨ before = [] ∧ ∀ a ∈ (s.drives n).slots, a.num ≠ cyl)
    {regs : List (ℕ × ℕ)} (hregs : ∀ p ∈ regs, p ∈ s.sPurgeable ∨ p = (n, e.id)) {buf : ℕ → β}
    {bufCyl bufDrv : ℤ} (hdma : ∀ k : ℕ, bufDrv = k → (disk k).Holds bufCyl.toNat buf) :
    Used disk n cyl b s
      ⟨(s.withSlots disk n (before ++ after ++ [⟨e.id, .buf b, false, cyl, s.calls + 1⟩])).drives,
        regs, buf, bufCyl, bufDrv, s.calls + 1⟩ := by
  have hslots := h.slots n
  -- no other entry has the cylinder
  have hnums : ∀ a ∈ before ++ after, a.num ≠ cyl := by
    intro a ha
    rcases hwhich with rfl | ⟨-, hnone⟩
    · intro hnum
      rw [hl] at hslots
      have hmiddle := hslots.nums.perm perm_middle fun {a b} hab hpos heq =>
        hab (heq ▸ hpos) heq.symm
      exact (pairwise_cons.mp hmiddle).1 a ha hcyl hnum.symm
    · refine hnone a ?_
      rw [hl]
      simp only [mem_append, mem_cons] at ha ⊢
      tauto
  rw [hl] at hslots
  have hnew : Slots (disk n) (s.calls + 1)
      (before ++ after ++ [⟨e.id, .buf b, false, cyl, s.calls + 1⟩]) :=
    hslots.requeue rfl rfl (.inr ⟨hcyl, b, rfl, hholds⟩) rfl hnums
  have hids : ∀ i, i ∈ (s.drives n).slots.map Slot.id ↔
      i ∈ (before ++ after ++ [(⟨e.id, .buf b, false, cyl, s.calls + 1⟩ : Slot β)]).map
        Slot.id := by
    intro i
    rw [hl]
    simp only [map_append, map_cons, map_nil, mem_append, mem_cons,
      not_mem_nil, or_false]
    tauto
  have hbump : Inv disk { s with calls := s.calls + 1 } :=
    ⟨h.format, h.size, fun k => (h.slots k).mono (Nat.le_succ _), h.registered, h.dma⟩
  have hw : Inv disk (State.withSlots disk n _ { s with calls := s.calls + 1 }) :=
    hbump.setDrive (fun f hf => (some_inj.mp hf).symm) rfl rfl hnew
      fun i hi => (hids i).mp hi
  refine ⟨hholds, ⟨hw.format, hw.size, hw.slots, fun p hp => ?_, hdma⟩, rfl, fun k hk => ?_,
    before, e, after, hl, ?_, hwhich⟩
  · rcases hregs p hp with hp | rfl
    · exact hw.registered p hp
    · show ((s.withSlots disk n _).drives n).cache.isSome ∧
        e.id ∈ ((s.withSlots disk n _).drives n).slots.map Slot.id
      rw [withSlots_slots]
      refine ⟨by simp [State.withSlots, State.setDrive], ?_⟩
      simp
  · simp [State.withSlots, State.setDrive, hk]
  · exact withSlots_slots disk n _ s

theorem Inv.readPut_hit (h : Inv disk s)
    (hfind : findCyl e.num (s.drives n).slots = some (before, e, after))
    (hl : (s.drives n).slots = before ++ e :: after) (hb : e.data = .buf b) (hcyl : 0 ≤ e.num)
    (hholds : (disk n).Holds e.num.toNat b) :
    ∃ s', readPut disk n e.num x s = .ok (0, some b, s') ∧ Used disk n e.num b s s' := by
  have hslots := h.slots n
  rw [hl] at hslots
  have hfree : e.locked = false := hslots.free e (by simp)
  have hget : purgeableGet x.fresh e = .ok (false, b, { e with locked := true }) := by
    rw [purgeableGet, hfree, if_neg (by simp), hb]
  have hread : cylCacheRead disk n e.num x s = .ok (0, some (e.id, b),
      { s.withSlots disk n (before ++ after ++ [{ e with locked := true, used := s.calls + 1 }])
        with calls := s.calls + 1 }) := by
    rw [h.cylCacheRead_eq hcyl, hfind]
    simp only [hget]
    rfl
  have hothers : ∀ a ∈ before ++ after, a.locked = false := by
    intro a ha
    refine hslots.free a ?_
    simp only [mem_append, mem_cons] at ha ⊢
    tauto
  have hput := purgeablePut_withSlots disk n (s.calls + 1) s hothers
    { e with locked := true, used := s.calls + 1 }
  have hunlock : Slot.unlock { e with locked := true, used := s.calls + 1 } =
      ⟨e.id, .buf b, false, e.num, s.calls + 1⟩ := by
    rw [Slot.unlock, hb]
  rw [hunlock] at hput
  refine ⟨_, ?_, h.used hl hcyl hholds (.inl rfl) (fun p hp => .inl hp) h.dma⟩
  rw [readPut, hread]
  exact congrArg (fun s => Except.ok (0, some b, s)) hput

theorem Inv.updateDmaBuf (h : Inv disk s) (n : ℕ) (cyl : ℤ) (left : ℕ → β)
    (regs : List (ℕ × ℕ)) (drives : ℕ → Drive β) :
    ∃ buf bufCyl bufDrv,
      updateDmaBuf (disk n) n cyl left { s with drives := drives, sPurgeable := regs } =
        ⟨drives, regs, buf, bufCyl, bufDrv, s.calls⟩ ∧
      (disk n).Holds cyl.toNat buf ∧
      ∀ k : ℕ, bufDrv = k → (disk k).Holds bufCyl.toNat buf := by
  have hfill : (disk n).Holds cyl.toNat ((disk n).fill cyl.toNat left) := by
    intro i hi
    exact if_pos (hi.trans_le (Floppy.cylSize_le_dmaTransferBytes (disk n).known))
  rw [CylCache.updateDmaBuf]
  split
  · refine ⟨_, _, _, rfl, hfill, fun k hk => ?_⟩
    obtain rfl : n = k := Int.ofNat.inj hk
    rwa [Int.toNat_natCast]
  · rename_i hskip
    obtain ⟨hc, hd⟩ := not_or.mp hskip
    refine ⟨s.dmaBuf, s.dmaBufCyl, s.dmaBufDrv, rfl, ?_, h.dma⟩
    rw [not_not.mp hc]
    exact h.dma n (not_not.mp hd).symm

theorem Inv.readPut_miss (h : Inv disk s) (hcyl : 0 ≤ cyl)
    (hfind : findCyl cyl (s.drives n).slots = none)
    (hnone : ∀ a ∈ (s.drives n).slots, a.num ≠ cyl) :
    ∃ b s', readPut disk n cyl x s = .ok (0, some b, s') ∧ Used disk n cyl b s s' := by
  have hslots := h.slots n
  obtain ⟨e, rest, hl⟩ : ∃ e rest, (s.drives n).slots = e :: rest := by
    refine exists_cons_of_length_pos ?_
    rw [hslots.length]
    decide
  have hfree := hslots.free
  rw [hl] at hfree
  -- the entry and the list of purgeable memory after `purgeable_alloc`
  obtain ⟨data, regs, halloc, hregs, hdata⟩ : ∃ data regs,
      purgeableAlloc n x.allocated e (s.withSlots disk n (s.drives n).slots) =
        ({ e with data := data, locked := false },
          { s.withSlots disk n (s.drives n).slots with sPurgeable := regs }) ∧
      (∀ p ∈ regs, p ∈ s.sPurgeable ∨ p = (n, e.id)) ∧ data.isNull = false := by
    rw [purgeableAlloc]
    split
    · refine ⟨.buf x.allocated, s.sPurgeable ++ [(n, e.id)], rfl, fun p hp => ?_, rfl⟩
      simpa using hp
    · rename_i hnull
      refine ⟨e.data, s.sPurgeable, ?_, fun p hp => .inl hp, by simpa using hnull⟩
      rw [← hfree e mem_cons_self]
      rfl
  obtain ⟨buf, bufCyl, bufDrv, hupdate, hbuf, hdma⟩ :=
    h.updateDmaBuf n cyl x.left regs (s.withSlots disk n (s.drives n).slots).drives
  obtain ⟨purged, dst, hget⟩ : ∃ purged dst,
      purgeableGet x.fresh { e with data := data, locked := false } =
        .ok (purged, dst, { e with data := .buf dst, locked := true }) := by
    cases data with
    | null => cases hdata
    | purged => exact ⟨true, x.fresh, rfl⟩
    | buf b => exact ⟨false, b, rfl⟩
  have hread : cylCacheRead disk n cyl x s =
      .ok (0, some (e.id, memcpy dst buf (disk n).format.cylSize),
        { State.withSlots disk n (rest ++ [⟨e.id, .buf (memcpy dst buf (disk n).format.cylSize),
            true, cyl, s.calls + 1⟩]) ⟨s.drives, regs, buf, bufCyl, bufDrv, s.calls⟩
          with calls := s.calls + 1 }) := by
    rw [h.cylCacheRead_eq hcyl, hfind]
    simp only [cylCacheMiss, hl]
    rw [← hl, halloc]
    have hupdate' : CylCache.updateDmaBuf (disk n) n cyl x.left
        { s.withSlots disk n (s.drives n).slots with sPurgeable := regs } = _ := hupdate
    simp only [hget, hupdate']
    simp only [bind, Except.bind, pure, Except.pure, State.setCache, State.withSlots,
      State.setDrive, update_self, update_idem]
  have hput := purgeablePut_withSlots disk n (s.calls + 1)
    ⟨s.drives, regs, buf, bufCyl, bufDrv, s.calls⟩
    (fun a ha => hfree a (mem_cons_of_mem _ ha))
    ⟨e.id, .buf (memcpy dst buf (disk n).format.cylSize), true, cyl, s.calls + 1⟩
  have hholds : (disk n).Holds cyl.toNat (memcpy dst buf (disk n).format.cylSize) := by
    intro i hi
    rw [memcpy, if_pos hi]
    exact hbuf i hi
  refine ⟨_, _, ?_, h.used (show _ = [] ++ e :: rest from hl) hcyl hholds (.inr ⟨rfl, hnone⟩)
    hregs hdma⟩
  rw [readPut, hread]
  exact congrArg (fun s => Except.ok (0, some _, s)) hput

theorem Inv.readPut_ok (h : Inv disk s) (hcyl : 0 ≤ cyl) (n : ℕ) (x : Junk β) :
    ∃ b s', readPut disk n cyl x s = .ok (0, some b, s') ∧ Used disk n cyl b s s' := by
  rcases (h.slots n).findCyl hcyl with ⟨before, e, after, b, hfind, hl, rfl, hb, hholds⟩ |
    ⟨hfind, hnone⟩
  · obtain ⟨s', hread, hused⟩ := h.readPut_hit hfind hl hb hcyl hholds
    exact ⟨b, s', hread, hused⟩
  · exact h.readPut_miss hcyl hfind hnone

theorem readPut_neg (hcyl : cyl < 0) : readPut disk n cyl x s = .ok (-einval, none, s) := by
  rw [readPut, cylCacheRead, if_pos hcyl]
  rfl

theorem Used.nums (h : Used disk n cyl b s s') (hinv : Inv disk s) (hcyl : 0 ≤ cyl) :
    (s'.drives n).slots.map Slot.num = Lru.touch cyl ((s.drives n).slots.map Slot.num) := by
  obtain ⟨before, e, after, hl, hl', hwhich⟩ := h.slots
  have hnums := (hinv.slots n).nums
  rw [hl', Lru.touch]
  rcases hwhich with hnum | ⟨rfl, hnone⟩
  · -- the cylinder was there, once
    rw [hl] at hnums ⊢
    have hnot : cyl ∉ before.map Slot.num := by
      intro hmem
      obtain ⟨a, ha, hanum⟩ := mem_map.mp hmem
      have hne := (pairwise_append.mp hnums).2.2 a ha e mem_cons_self
      exact hne (by omega) (by omega)
    have herase : ((before ++ e :: after).map Slot.num).erase cyl =
        before.map Slot.num ++ after.map Slot.num := by
      rw [map_append, map_cons, hnum, erase_append_right _ hnot,
        erase_cons_head]
    rw [if_pos (by simp [hnum]), herase]
    simp
  · have hnot : cyl ∉ (s.drives n).slots.map Slot.num := by
      intro hmem
      obtain ⟨a, ha, hanum⟩ := mem_map.mp hmem
      exact hnone a ha hanum
    rw [if_neg hnot, hl]
    simp

theorem Inv.memPurge {p : ℕ × ℕ} (h : Inv disk s) (hp : p ∈ s.sPurgeable) :
    ∃ freed s', memPurge s p = .ok (freed, s') ∧ Inv disk s' ∧ s'.sPurgeable = s.sPurgeable := by
  obtain ⟨hsome, hmem⟩ := h.registered p hp
  obtain ⟨c, hc⟩ := isSome_iff_exists.mp hsome
  have hslots := h.slots p.1
  rw [slots_eq hc] at hmem hslots
  obtain ⟨e0, he0, hid0⟩ := mem_map.mp hmem
  obtain ⟨e, hfind⟩ : ∃ e, c.lruCyls.find? (fun e => e.id = p.2) = some e := by
    rw [← isSome_iff_exists, find?_isSome]
    exact ⟨e0, he0, by simpa using hid0⟩
  have he : e ∈ c.lruCyls := mem_of_find?_eq_some hfind
  simp only [CylCache.memPurge, hc, hfind, hslots.free e he]
  rcases hslots.ok e he with ⟨-, hnobuf⟩ | ⟨hpos, b, hb, -⟩
  · cases hd : e.data with
    | buf b => exact absurd hd (hnobuf b)
    | null => exact ⟨0, s, rfl, h, rfl⟩
    | purged => exact ⟨0, s, rfl, h, rfl⟩
  · -- the entry has a number
    rw [hb]
    refine ⟨c.cylSize, s.setCache p.1 (c.modify p.2 Slot.purge), ?_, ?_, rfl⟩
    · simp only [if_neg (Int.not_lt.mpr hpos), Bool.false_eq_true, if_false]
    · refine h.setDrive (h.format p.1) rfl (h.size p.1 c hc) (hslots.purge p.2) fun i hi => ?_
      rw [slots_eq hc] at hi
      obtain ⟨a, ha, rfl⟩ := mem_map.mp hi
      refine mem_map.mpr ⟨_, mem_map_of_mem ha, ?_⟩
      rw [onId]
      split <;> rfl

theorem Inv.purgeablePurge (h : Inv disk s) (bytes : ℕ) :
    ∃ total s', purgeablePurge bytes s = .ok (total, s') ∧ Inv disk s' := by
  have hloop : ∀ (ps : List (ℕ × ℕ)) (total : ℕ) (s : State β), Inv disk s →
      (∀ p ∈ ps, p ∈ s.sPurgeable) →
      ∃ total' s', purgeLoop bytes ps total s = .ok (total', s') ∧ Inv disk s' := by
    intro ps
    induction ps with
    | nil =>
      intro total s h _
      exact ⟨total, s, rfl, h⟩
    | cons p ps ih =>
      intro total s h hps
      obtain ⟨freed, s1, hpurge, h1, hregs⟩ := h.memPurge (hps p mem_cons_self)
      simp only [purgeLoop, hpurge, bind, Except.bind]
      split
      · exact ⟨_, s1, rfl, h1⟩
      · refine ih _ s1 h1 fun q hq => ?_
        rw [hregs]
        exact hps q (mem_cons_of_mem _ hq)
  exact hloop s.sPurgeable 0 s h fun p hp => hp

/-! ### Runs -/

theorem Inv.step_ok (h : Inv disk s) (e : Event β) : ∃ s', Step disk s e s' := by
  cases e with
  | read n cyl x =>
    rcases lt_or_ge cyl 0 with hneg | hcyl
    · exact ⟨s, bind_eq_ok.mpr ⟨_, readPut_neg hneg, rfl⟩⟩
    · obtain ⟨b, s', hread, -⟩ := h.readPut_ok hcyl n x
      exact ⟨s', bind_eq_ok.mpr ⟨_, hread, rfl⟩⟩
  | purge bytes =>
    obtain ⟨total, s', hpurge, -⟩ := h.purgeablePurge bytes
    exact ⟨s', bind_eq_ok.mpr ⟨_, hpurge, rfl⟩⟩

theorem Inv.step_read (h : Inv disk s) (hs : Step disk s (.read n cyl x) s') :
    (cyl < 0 ∧ s' = s) ∨ (0 ≤ cyl ∧ ∃ b, Used disk n cyl b s s') := by
  obtain ⟨r, hr, heq⟩ := bind_eq_ok.mp hs
  rcases lt_or_ge cyl 0 with hneg | hcyl
  · rw [readPut_neg hneg] at hr
    cases hr
    exact .inl ⟨hneg, (Except.ok.inj heq).symm⟩
  · obtain ⟨b, s1, hread, hused⟩ := h.readPut_ok hcyl n x
    rw [hread] at hr
    cases hr
    cases heq
    exact .inr ⟨hcyl, b, hused⟩

theorem Inv.step {e : Event β} (h : Inv disk s) (hs : Step disk s e s') : Inv disk s' := by
  cases e with
  | read n cyl x =>
    rcases h.step_read hs with ⟨-, rfl⟩ | ⟨-, b, hused⟩
    · exact h
    · exact hused.inv
  | purge bytes =>
    obtain ⟨total, s1, hpurge, h1⟩ := h.purgeablePurge bytes
    obtain ⟨r, hr, heq⟩ := bind_eq_ok.mp hs
    rw [hpurge] at hr
    cases hr
    cases heq
    exact h1

variable {s0 : State β} {es : List (Event β)}

theorem Run.inv (h0 : Initial s0) (hrun : Run (Step disk) s0 es s) : Inv disk s :=
  hrun.invariant (h0.inv disk) fun _ _ _ h hs => h.step hs

/-- The cylinder of drive `n` that is asked for. -/
def Event.request (n : ℕ) : Event β → Option ℤ
  | .read k cyl _ => if k = n ∧ 0 ≤ cyl then some cyl else none
  | .purge _ => none

/-- The cylinders of drive `n` that were asked for, in order. -/
def requests (n : ℕ) (es : List (Event β)) : List ℤ := es.filterMap (Event.request n)

theorem requests_concat (n : ℕ) (es : List (Event β)) (e : Event β) :
    requests n (es ++ [e]) = requests n es ++ (e.request n).toList := by
  rw [requests, filterMap_append, requests]
  cases h : e.request n with
  | none => rw [filterMap_cons_none h, filterMap_nil, toList_none]
  | some cyl => rw [filterMap_cons_some h, filterMap_nil, toList_some]

theorem nums_eq_lastUsed (h0 : Initial s0) (hrun : Run (Step disk) s0 es s)
    (hpurge : ∀ bytes, .purge bytes ∉ es) (n : ℕ) :
    (s.drives n).slots.map Slot.num = Lru.lastUsed cylinderCacheCyls (-1) (requests n es) := by
  induction hrun with
  | nil =>
    rw [h0.drives, requests, filterMap_nil, Lru.lastUsed_nil]
    rfl
  | @snoc es s s' e hrun hs ih =>
    have hinv := Run.inv h0 hrun
    replace ih := ih fun bytes hmem => hpurge bytes (mem_append_left _ hmem)
    cases e with
    | purge bytes =>
      exact absurd (mem_append_right _ (mem_singleton_self _)) (hpurge bytes)
    | read k cyl x =>
      rw [requests_concat, Event.request]
      rcases hinv.step_read hs with ⟨hneg, rfl⟩ | ⟨hcyl, b, hused⟩
      · rw [if_neg fun h => absurd h.2 (by omega), toList_none, append_nil, ih]
      · by_cases hk : k = n
        · subst hk
          rw [if_pos ⟨rfl, hcyl⟩, toList_some,
            ← Lru.touch_lastUsed (by decide) (by omega), ← ih]
          exact hused.nums hinv hcyl
        · rw [if_neg fun h => hk h.1, toList_none, append_nil,
            hused.others n (Ne.symm hk)]
          exact ih

/-- The cylinder is in the cache of drive `n`. -/
def Cached (s : State β) (n : ℕ) (cyl : ℤ) : Prop :=
  ∃ e ∈ (s.drives n).slots, e.num = cyl ∧ ∃ b, e.data = .buf b

/-- What is asked of the cache in a state: 16 entries with different numbers, in the order of last
use; a read returns the cylinder asked for, from its entry or else the one that was used least
recently; and every call returns. -/
structure Refines (disk : ℕ → Medium β) (s : State β) : Prop where
  lists : ∀ n c, (s.drives n).cache = some c → c.lruCyls.length = cylinderCacheCyls ∧
    (c.lruCyls.Pairwise fun a b => 0 ≤ a.num → a.num ≠ b.num) ∧
    c.lruCyls.Pairwise fun a b => a.used ≤ b.used
  reads : ∀ n cyl x, 0 ≤ cyl → ∃ b s', readPut disk n cyl x s = .ok (0, some b, s') ∧
    (disk n).Holds cyl.toNat b ∧
    ∃ before e after, (s.drives n).slots = before ++ e :: after ∧
      (s'.drives n).slots = before ++ after ++ [⟨e.id, .buf b, false, cyl, s.calls + 1⟩] ∧
      (e.num = cyl ∨ ∀ a ∈ (s.drives n).slots, a.num ≠ cyl ∧ e.used ≤ a.used)
  returns : ∀ e, ∃ s', Step disk s e s'

theorem Slots.used_le (h : Slots m t l) : l.Pairwise fun a b => a.used ≤ b.used :=
  h.order.imp fun {a b} hab => by omega

theorem Inv.refines (h : Inv disk s) : Refines disk s := by
  refine ⟨fun n c hc => ?_, fun n cyl x hcyl => ?_, h.step_ok⟩
  · have hslots := h.slots n
    rw [slots_eq hc] at hslots
    exact ⟨hslots.length, hslots.nums, hslots.used_le⟩
  · obtain ⟨b, s', hread, hused⟩ := h.readPut_ok hcyl n x
    obtain ⟨before, e, after, hl, hl', hwhich⟩ := hused.slots
    refine ⟨b, s', hread, hused.holds, before, e, after, hl, hl', ?_⟩
    rcases hwhich with hnum | ⟨rfl, hnone⟩
    · exact .inl hnum
    · -- the first entry of a list in the order of last use
      refine .inr fun a ha => ⟨hnone a ha, ?_⟩
      have horder := (h.slots n).used_le
      rw [hl, nil_append] at horder ha
      rcases mem_cons.mp ha with rfl | ha
      · exact Nat.le_refl _
      · exact (pairwise_cons.mp horder).1 a ha

theorem Inv.cached_iff (h : Inv disk s) (hcyl : 0 ≤ cyl) :
    Cached s n cyl ↔ cyl ∈ (s.drives n).slots.map Slot.num := by
  constructor
  · rintro ⟨e, he, hnum, -⟩
    exact mem_map.mpr ⟨e, he, hnum⟩
  · intro hmem
    obtain ⟨e, he, hnum⟩ := mem_map.mp hmem
    rcases (h.slots n).ok e he with ⟨hneg, -⟩ | ⟨-, b, hb, -⟩
    · omega
    · exact ⟨e, he, hnum, b, hb⟩

/-- **The cylinder cache refines direct reads**, and if nothing was purged, each drive's cache has
the last 16 different cylinders that were asked for. -/
theorem cyl_cache_refines (disk : ℕ → Medium β) {s0 s : State β} {es : List (Event β)}
    (h0 : Initial s0) (hrun : Run (Step disk) s0 es s) :
    Refines disk s ∧ ((∀ bytes, .purge bytes ∉ es) → ∀ n cyl, 0 ≤ cyl →
      (Cached s n cyl ↔ cyl ∈ (requests n es).dedup.rtake cylinderCacheCyls)) := by
  have hinv := Run.inv h0 hrun
  refine ⟨hinv.refines, fun hpurge n cyl hcyl => ?_⟩
  rw [hinv.cached_iff hcyl, nums_eq_lastUsed h0 hrun hpurge n, Lru.mem_lastUsed (by omega)]

theorem exists_run (h0 : Initial s0) (es : List (Event β)) : ∃ s, Run (Step disk) s0 es s := by
  induction es using List.reverseRecOn with
  | nil => exact ⟨s0, .nil⟩
  | append_singleton es e ih =>
    obtain ⟨s, hrun⟩ := ih
    obtain ⟨s', hs⟩ := (Run.inv h0 hrun).step_ok e
    exact ⟨s', .snoc hrun hs⟩

end Calls

/-! ### The same calls in the model of the driver -/

/-- Without the lock, the address and the time. -/
def Slot.forget (e : Slot β) : Floppy.Cylinder β := ⟨e.data, e.num⟩

def Cache.forget (c : Cache β) : Floppy.Cache β := ⟨c.cylSize, c.lruCyls.map Slot.forget⟩

def Drive.forget (m : Medium β) (d : Drive β) : Floppy.Drive β :=
  ⟨d.f, some m, d.cache.map Cache.forget⟩

/-- The state as the model of the whole driver has it, with these disks in the drives. -/
def State.forget (disk : ℕ → Medium β) (clean : Bool) (s : State β) : Floppy.State β :=
  ⟨fun n => (s.drives n).forget (disk n), s.dmaBuf, s.dmaBufCyl, s.dmaBufDrv, clean, none⟩

/-- The disks stay, nothing is purged, and the first transfer fails: that leaves in the buffer
what was there before the one that succeeds. -/
def Junk.script (x : Junk β) : Floppy.Script β :=
  let reading : Floppy.Attempt β :=
    ⟨.same, 0, 0, fun i => if i = 0 then .failed x.left else .done⟩
  ⟨.same, .same, x.allocated, [], ⟨reading, .found, reading⟩, [], x.fresh⟩

section Forget

variable (disk : ℕ → Medium β) (clean : Bool)

theorem forget_setDrive (s : State β) (n : ℕ) (d : Drive β) :
    (s.setDrive n d).forget disk clean = (s.forget disk clean).setDrive n (d.forget (disk n)) := by
  simp only [State.forget, State.setDrive, Floppy.State.setDrive, Floppy.State.mk.injEq, and_true]
  exact funext fun k => apply_update (fun i (d : Drive β) => d.forget (disk i)) s.drives n d k

theorem forget_setCache (s : State β) (n : ℕ) (c : Cache β) :
    (s.setCache n c).forget disk clean = (s.forget disk clean).setCache n c.forget :=
  forget_setDrive disk clean s n _

theorem checkMediaChanged_forget (s : State β) (n : ℕ) :
    (s.forget disk clean).checkMediaChanged n .same =
      .ok ((s.setDrive n ((s.drives n).checkMediaChanged (disk n))).forget disk clean) := by
  have hdrive : ((s.drives n).forget (disk n)).checkMediaChanged .same =
      .ok (((s.drives n).checkMediaChanged (disk n)).forget (disk n)) := by
    cases hf : (s.drives n).f <;>
      simp [Floppy.Drive.checkMediaChanged, Floppy.Drive.mediaInserted, Drive.forget,
        Drive.checkMediaChanged, hf]
  rw [forget_setDrive]
  simp only [Floppy.State.checkMediaChanged]
  rw [show (s.forget disk clean).drives n = (s.drives n).forget (disk n) from rfl, hdrive]
  simp [Floppy.Media.changed, State.forget, Floppy.State.setDrive, bind, Except.bind, pure,
    Except.pure]

theorem checkMediaChanged_known (hf : (s.drives n).f.isSome) :
    (s.forget disk clean).checkMediaChanged n .same = .ok (s.forget disk clean) := by
  rw [checkMediaChanged_forget, Drive.checkMediaChanged, if_pos hf, State.setDrive, update_eq_self]

theorem cylCacheInit_forget (cylSize : ℕ) :
    (cylCacheInit cylSize : Cache β).forget = Floppy.cylCacheInit cylSize := by
  rw [cylCacheInit, Cache.forget, Floppy.cylCacheInit, List.map_map]
  rw [show Slot.forget ∘ (fun i => (⟨i, .null, false, -1, 0⟩ : Slot β)) = fun _ => ⟨.null, -1⟩ from
    rfl, map_const', length_range]

theorem getCache_forget {cylSize : ℕ} {c : Cache β} (h : getCache n cylSize s = .ok (c, s')) :
    ((s.drives n).forget (disk n)).getCache cylSize = .ok c.forget ∧
      s'.forget disk clean = s.forget disk clean := by
  rw [getCache] at h
  simp only [Floppy.Drive.getCache, Drive.forget]
  cases hc : (s.drives n).cache with
  | none =>
    rw [hc] at h
    cases h
    exact ⟨congrArg Except.ok (cylCacheInit_forget cylSize).symm, rfl⟩
  | some c0 =>
    simp only [hc] at h
    have hany : c0.forget.lruCyls.any (fun s => s.data.isNull) =
        c0.lruCyls.any fun e => e.data.isNull := any_map
    simp only [Option.map_some, Floppy.cylCacheDestroy, hany]
    simp only [cylCacheDestroy] at h
    by_cases hsize : c0.cylSize = cylSize
    · rw [if_neg (not_not.mpr hsize)] at h
      cases h
      exact ⟨if_neg (not_not.mpr hsize), rfl⟩
    · rw [if_pos hsize] at h
      rw [if_pos (show c0.forget.cylSize ≠ cylSize from hsize)]
      by_cases hnull : (c0.lruCyls.any fun e => e.data.isNull) = true
      · rw [if_pos hnull] at h
        cases h
      · rw [if_neg hnull] at h ⊢
        cases h
        exact ⟨congrArg Except.ok (cylCacheInit_forget cylSize).symm, rfl⟩

theorem findCyl_forget (cyl : ℤ) (l : List (Slot β)) :
    Floppy.findCyl cyl (l.map Slot.forget) = (findCyl cyl l).map fun found =>
      (found.1.map Slot.forget, found.2.1.forget, found.2.2.map Slot.forget) := by
  rw [Floppy.findCyl, findCyl, splitLast, ← map_reverse, splitFirst_map, Option.map_map,
    Option.map_map]
  refine congrArg (fun f => Option.map f _) (funext fun found => ?_)
  simp only [Function.comp_apply, map_reverse]

theorem readCyl_forget (hf : (s.drives n).f.isSome) (c : ℕ) :
    Floppy.readCyl (s.forget disk clean) n c x.script.reading =
      .ok (0, (s.readCyl (disk n) n c x.left).forget disk true) := by
  have hcheck := checkMediaChanged_known disk clean hf
  obtain ⟨f, hf⟩ := isSome_iff_exists.mp hf
  have hdrive : (s.forget disk clean).drives n =
      ⟨some f, some (disk n), (s.drives n).cache.map Cache.forget⟩ := by
    simp only [State.forget, Drive.forget, hf]
  have hloop : Floppy.transferLoop (disk n) n c x.script.reading.first.transfer
      Floppy.handleCylinderRetries (s.forget disk clean) =
      (0, (s.readCyl (disk n) n c x.left).forget disk true) := rfl
  have hhandle : Floppy.doHandleCylinder (s.forget disk clean) n c x.script.reading.first =
      .ok (0, (s.readCyl (disk n) n c x.left).forget disk true) := by
    simp only [Floppy.doHandleCylinder, hdrive]
    rw [show x.script.reading.first.media = .same from rfl, hcheck]
    rw [← hloop]
    simp only [bind, Except.bind, hdrive]
    rfl
  simp only [Floppy.readCyl, hhandle, bind, Except.bind, if_true]
  rfl

theorem updateDmaBuf_forget (hf : (s.drives n).f.isSome) (cyl : ℤ) (x : Junk β) :
    ∃ clean', Floppy.updateDmaBuf (s.forget disk clean) n cyl
        (cyl = (s.forget disk clean).dmaBufCyl ∧ (s.forget disk clean).dmaBufDrv = n)
        x.script.reading =
      .ok (0, (updateDmaBuf (disk n) n cyl x.left s).forget disk clean') := by
  by_cases hskip : cyl = s.dmaBufCyl ∧ s.dmaBufDrv = n
  · refine ⟨clean, ?_⟩
    rw [updateDmaBuf, if_neg (by rw [not_or, not_not, not_not]; exact ⟨hskip.1, hskip.2.symm⟩)]
    exact if_pos (decide_eq_true hskip)
  · refine ⟨true, ?_⟩
    rw [updateDmaBuf, if_pos (by rw [← not_and_or, eq_comm (a := (n : ℤ))]; exact hskip),
      ← readCyl_forget disk clean hf]
    exact if_neg (by rw [decide_eq_true_iff]; exact hskip)

theorem updateDmaBuf_with (m : Medium β) (n : ℕ) (cyl : ℤ) (left : ℕ → β) (s : State β)
    (drives : ℕ → Drive β) (l : List (ℕ × ℕ)) :
    updateDmaBuf m n cyl left { s with drives, sPurgeable := l } =
      { updateDmaBuf m n cyl left s with drives, sPurgeable := l } := by
  simp only [updateDmaBuf]
  split <;> rfl

theorem purgeableAlloc_forget (n : ℕ) (x : Junk β) (e : Slot β) (s : State β) :
    ∃ e' l, purgeableAlloc n x.allocated e s = (e', { s with sPurgeable := l }) ∧
      (if e.forget.data.isNull then { e.forget with data := .buf x.script.allocated }
        else e.forget) = e'.forget := by
  by_cases hnull : e.data.isNull = true
  · exact ⟨_, _, if_pos hnull, if_pos hnull⟩
  · exact ⟨_, _, if_neg hnull, if_neg hnull⟩

theorem purgeableGet_ok {e e' : Slot β} {fresh dst : ℕ → β} {purged : Bool}
    (h : purgeableGet fresh e = .ok (purged, dst, e')) :
    (e.data = .purged ∧ purged = true ∧ dst = fresh) ∨
      (e.data = .buf dst ∧ purged = false ∧ e' = { e with locked := true }) := by
  rw [purgeableGet] at h
  split at h
  · cases h
  · cases hdata : e.data <;> simp only [hdata] at h <;> cases h
    · exact .inl ⟨rfl, rfl, rfl⟩
    · exact .inr ⟨rfl, rfl, rfl⟩

theorem takeOver_forget {c : Cache β} {e e' : Slot β} {rest : List (Slot β)} {purged : Bool}
    {dst fresh : ℕ → β} (hc : (s.drives n).cache = some c) (hl : c.lruCyls = e :: rest)
    (hget : purgeableGet fresh e = .ok (purged, dst, e')) (skipped : Bool) (used : ℕ) :
    Floppy.takeOver (s.forget disk clean) n cyl c.cylSize fresh skipped =
      .ok (⟨n, cyl, memcpy dst s.dmaBuf c.cylSize, skipped⟩,
        (s.setCache n { c with lruCyls := rest ++ [{ e' with
          data := .buf (memcpy dst s.dmaBuf c.cylSize), num := cyl, used }] }).forget
          disk clean) := by
  have hcache : ((s.forget disk clean).drives n).cache = some c.forget := by
    simp only [State.forget, Drive.forget, hc, Option.map_some]
  have hlist : c.forget.lruCyls = e.forget :: rest.map Slot.forget := by
    rw [Cache.forget, hl, map_cons]
  rw [forget_setCache, Cache.forget, map_append]
  simp only [Floppy.takeOver, hcache, hlist]
  rcases purgeableGet_ok hget with ⟨hdata, -, rfl⟩ | ⟨hdata, -, -⟩ <;>
    simp only [Slot.forget, hdata] <;> rfl

theorem cylCacheMiss_forget {c : Cache β} {ret : ℤ} {out : Option (ℕ × (ℕ → β))}
    (hf : (s.drives n).f.isSome) (h : cylCacheMiss (disk n) n cyl x c s = .ok (ret, out, s')) :
    ∃ clean' skipped, Floppy.cylCacheMiss (s.forget disk clean) n cyl c.forget x.script =
      .ok (ret, out.map fun p => ⟨n, cyl, p.2, skipped⟩, s'.forget disk clean') := by
  rw [cylCacheMiss] at h
  cases hl : c.lruCyls with
  | nil =>
    rw [hl] at h
    cases h
  | cons miss rest =>
    obtain ⟨miss1, l, halloc, hmiss1⟩ := purgeableAlloc_forget n x miss s
    have hread : ∀ drives l,
        updateDmaBuf (disk n) n cyl x.left { s with drives, sPurgeable := l } =
          { updateDmaBuf (disk n) n cyl x.left s with drives, sPurgeable := l } :=
      updateDmaBuf_with (disk n) n cyl x.left s
    simp only [hl, halloc, hread s.drives l] at h
    generalize updateDmaBuf (disk n) n cyl x.left s = u at h hread
    obtain ⟨⟨purged, dst, miss2⟩, hget, hret⟩ := bind_eq_ok.mp h
    cases hret
    -- the model of the driver puts the entry back before the disk is read
    set c1 : Cache β := { c with lruCyls := miss1 :: rest } with hc1
    have hf1 : ((s.setCache n c1).drives n).f.isSome := by
      simpa [State.setCache, State.setDrive] using hf
    obtain ⟨clean', hupdate⟩ := updateDmaBuf_forget disk clean hf1 cyl x
    set v : State β := { u with drives := (s.setCache n c1).drives, sPurgeable := s.sPurgeable }
      with hv
    rw [show updateDmaBuf (disk n) n cyl x.left (s.setCache n c1) = v from hread _ _,
      forget_setCache] at hupdate
    have hcache : (v.drives n).cache = some c1 := by
      simp [hv, State.setCache, State.setDrive]
    have hlist : c.forget.lruCyls = miss.forget :: rest.map Slot.forget := by
      rw [Cache.forget, hl, map_cons]
    refine ⟨clean', decide (cyl = s.dmaBufCyl ∧ s.dmaBufDrv = n), ?_⟩
    simp only [Floppy.cylCacheMiss, hlist, hmiss1]
    refine bind_eq_ok.mpr ⟨_, rfl, bind_eq_ok.mpr ⟨_, hupdate, ?_⟩⟩
    refine bind_eq_ok.mpr ⟨_, rfl, bind_eq_ok.mpr
      ⟨_, takeOver_forget disk clean' hcache rfl hget _ (u.calls + 1), ?_⟩⟩
    refine congrArg Except.ok (Prod.ext rfl (Prod.ext rfl ?_))
    simp only [hv, hc1, State.forget, State.setCache, State.setDrive, update_idem, update_self]

/-- **A call that returns here returns the same in the model of the driver**, for hardware that
does what is taken for granted here. -/
theorem cylCacheRead_forget {ret : ℤ} {out : Option (ℕ × (ℕ → β))}
    (h : cylCacheRead disk n cyl x s = .ok (ret, out, s')) :
    ∃ clean' skipped, Floppy.cylCacheRead (s.forget disk clean) n cyl x.script =
      .ok (ret, out.map fun p => ⟨n, cyl, p.2, skipped⟩, s'.forget disk clean') := by
  rw [cylCacheRead] at h
  by_cases hneg : cyl < 0
  · rw [if_pos hneg] at h
    cases h
    exact ⟨clean, false, if_pos hneg⟩
  rw [if_neg hneg] at h
  set s1 := s.setDrive n ((s.drives n).checkMediaChanged (disk n)) with hs1
  have hknown : (s1.drives n).f.isSome := by
    simp only [hs1, State.setDrive, update_self, Drive.checkMediaChanged]
    split
    · assumption
    · rfl
  have hfirst : (s.forget disk clean).checkMediaChanged n x.script.first =
      .ok (s1.forget disk clean) := checkMediaChanged_forget disk clean s n
  have hsecond : (s1.forget disk clean).checkMediaChanged n x.script.second =
      .ok (s1.forget disk clean) := checkMediaChanged_known disk clean hknown
  obtain ⟨f, hf⟩ := isSome_iff_exists.mp hknown
  have hfloppy : ((s1.forget disk clean).drives n).f = some f := hf
  simp only [hf] at h
  obtain ⟨⟨c, s2⟩, hget, h⟩ := bind_eq_ok.mp h
  obtain ⟨hcache, hs2⟩ := getCache_forget disk clean hget
  have hset : (s1.forget disk clean).setCache n c.forget = (s2.setCache n c).forget disk clean := by
    rw [forget_setCache, hs2]
  have hcache : ((s1.forget disk clean).drives n).getCache f.cylSize = .ok c.forget := hcache
  have hfind : Floppy.findCyl cyl c.forget.lruCyls = _ := findCyl_forget cyl c.lruCyls
  simp only [Floppy.cylCacheRead, if_neg hneg, hfirst, bind, Except.bind, hfloppy, isNone_some,
    Bool.false_eq_true, if_false, hsecond, hcache, hfind, hset]
  cases hfound : findCyl cyl c.lruCyls with
  | none =>
    simp only [hfound, Option.map_none] at h ⊢
    refine cylCacheMiss_forget disk clean ?_ h
    have hf2 : (s2.drives n).f = some f := (congrArg (fun t => (t.drives n).f) hs2).trans hf
    simp [State.setCache, State.setDrive, hf2]
  | some found =>
    obtain ⟨before, test, after⟩ := found
    simp only [hfound, Option.map_some] at h ⊢
    obtain ⟨⟨purged, locked, test'⟩, hlock, h⟩ := bind_eq_ok.mp h
    rcases purgeableGet_ok hlock with ⟨-, rfl, -⟩ | ⟨hdata, rfl, rfl⟩
    · cases h
    · cases h
      refine ⟨clean, false, ?_⟩
      simp only [Slot.forget, hdata]
      refine congrArg Except.ok (Prod.ext rfl (Prod.ext rfl ?_))
      have hlast := forget_setCache disk clean (s2.setCache n c) n
        ⟨c.cylSize, before ++ after ++ [⟨test.id, .buf locked, true, test.num, s2.calls + 1⟩]⟩
      rw [Cache.forget, map_append, map_append] at hlast
      exact hlast.symm

end Forget

/-! ### An example -/

/-- Nothing has been read yet, and memory is clear. -/
def clear : State Bool := ⟨fun _ => ⟨none, none⟩, [], fun _ => false, -1, -1, 0⟩

theorem clear_initial : Initial clear := ⟨fun _ => rfl, rfl, ⟨rfl, rfl⟩, rfl⟩

/-- Two disks, all of one bit each. -/
def twoDisks (n : ℕ) : Medium Bool := ⟨⟨80, 2, 18, 2⟩, Floppy.format1440_known, fun _ _ => n == 0⟩

def zeros : Junk Bool := ⟨fun _ => false, fun _ => false, fun _ => false⟩

/-- The same cylinder of both disks, a purge of everything, and the first disk again. -/
theorem cyl_cache_refines_two : Initial clear ∧
    ∃ s, Run (Step twoDisks) clear
      [.read 0 5 zeros, .read 1 5 zeros, .purge 0, .read 0 5 zeros] s ∧ Refines twoDisks s := by
  obtain ⟨s, hrun⟩ := exists_run clear_initial
    [.read 0 5 zeros, .read 1 5 zeros, .purge 0, .read 0 5 zeros]
  exact ⟨clear_initial, s, hrun, (cyl_cache_refines twoDisks clear_initial hrun).1⟩

end CylCache
