/-
The cylinder cache of the floppy driver (`drivers/floppy.c`).

A read goes through two caches: the cylinders of each drive, kept in purgeable
memory, and the one buffer that the controller transfers into, tagged with the
drive and cylinder it was last filled from.  A disk may be taken out and another
one put in at any time; the driver learns of it in `check_media_changed`.

The model runs whole calls of `cyl_cache_read`.  What the hardware and other
tasks do during a call (what the disk-change line says, which seeks and
transfers fail, which cylinders are purged) is part of the label of the step.

* `checkMediaChanged`, `doHandleCylinder`, `handleCylinder`, `cylCacheRead` — the
  functions of the source;
* `Inv` — the cached cylinders, and the transfer buffer as long as nothing has
  happened to it since it was tagged, hold what is on the disks;
* `cyl_cache_coherent` — a call that returns a buffer returns the cylinder asked
  for, in the runs that never rely on the tags after a change of disks or a
  failed transfer;
* `stale_after_swap` — the tags survive a change of disks.
-/
import Minima.ListTable
import Minima.Memory
import Minima.Runs

open ListTable

namespace Floppy

open List Option

/-! ### Disks -/

/-- `struct floppy_format`, without what only the controller sees -/
structure Format where
  cyls : ℕ
  heads : ℕ
  sectorsPerTrack : ℕ
  sectorSize : ℕ
  deriving DecidableEq, Repr

/-- `floppy_formats`, from its entry 1 on -/
def floppyFormats : List Format :=
  [⟨40, 2, 9, 2⟩, ⟨40, 2, 9, 2⟩, ⟨80, 2, 9, 2⟩, ⟨80, 2, 15, 2⟩, ⟨80, 1, 9, 2⟩, ⟨80, 2, 9, 2⟩,
    ⟨80, 2, 18, 2⟩, ⟨80, 2, 36, 2⟩]

namespace Format

variable (f : Format)

/-- `flop_block_size` -/
def blockSize : ℕ := 128 <<< f.sectorSize

/-- The size of a cylinder, as `cyl_cache_read` computes it. -/
def cylSize : ℕ := f.blockSize * f.sectorsPerTrack * f.heads

/-- `dma_transfer_bytes` -/
def dmaTransferBytes : ℕ := 2 * f.sectorsPerTrack * 512

end Format

theorem cylSize_le_dmaTransferBytes {f : Format} (hf : f ∈ floppyFormats) :
    f.cylSize ≤ f.dmaTransferBytes := by
  have hall : ∀ f ∈ floppyFormats, f.cylSize ≤ f.dmaTransferBytes := by decide
  exact hall f hf

/-- A disk: its format, and the bytes of each cylinder, by cylinder and offset. -/
structure Medium (β : Type) where
  format : Format
  known : format ∈ floppyFormats
  data : ℕ → ℕ → β

variable {β : Type}

/-- The buffer `b` holds cylinder `c` of the disk. -/
def Medium.Holds (m : Medium β) (c : ℕ) (b : ℕ → β) : Prop :=
  ∀ i < m.format.cylSize, b i = m.data c i

/-! ### The driver -/

/-- The memory of a cylinder: `NULL`, or purgeable with or without its buffer. -/
inductive Data (β : Type)
  | null
  | purged
  | buf (b : ℕ → β)

/-- `struct cylinder`; `flags` is left out, nobody sets `CYL_DIRTY`. -/
structure Cylinder (β : Type) where
  data : Data β
  num : ℤ

/-- `struct cyl_cache`, the least recently used cylinder first. -/
structure Cache (β : Type) where
  cylSize : ℕ
  lruCyls : List (Cylinder β)

/-- `struct floppy_drive`: `f` is `NULL` while no disk is known to be there;
`medium` is the disk as `check_media_changed` has last seen it. -/
structure Drive (β : Type) where
  f : Option Format
  medium : Option (Medium β)
  cache : Option (Cache β)

/-- What a successful `cyl_cache_read` has returned, and whether it took the data
from the transfer buffer as it was. -/
structure Returned (β : Type) where
  drive : ℕ
  cyl : ℤ
  buf : ℕ → β
  skipped : Bool

/-- The drives, the transfer buffer and its tags.  `clean` records that the tagged
drive has kept its disk and no transfer has failed since the tags were set;
`returned` is what the last step has returned. -/
structure State (β : Type) where
  drives : ℕ → Drive β
  dmaBuf : ℕ → β
  dmaBufCyl : ℤ
  dmaBufDrv : ℤ
  clean : Bool
  returned : Option (Returned β)

def State.setDrive (s : State β) (n : ℕ) (d : Drive β) : State β :=
  { s with drives := Function.update s.drives n d }

@[simp] theorem State.setDrive_self (s : State β) (n : ℕ) (d : Drive β) :
    (s.setDrive n d).drives n = d := by
  simp [State.setDrive]

theorem State.setDrive_of_ne (s : State β) {n k : ℕ} (h : k ≠ n) (d : Drive β) :
    (s.setDrive n d).drives k = s.drives k := by
  simp [State.setDrive, h]

theorem State.forall_setDrive {s : State β} {n : ℕ} {d : Drive β} {p : ℕ → Drive β → Prop}
    (hd : p n d) (h : ∀ k, k ≠ n → p k (s.drives k)) : ∀ k, p k ((s.setDrive n d).drives k) :=
  (Function.forall_update_iff _ p).mpr ⟨hd, h⟩

/-- What `check_media_changed` finds. -/
inductive Media (β : Type)
  /-- `DSKCHG` is not set -/
  | same
  /-- `DSKCHG` is set and stays set -/
  | ejected
  /-- `DSKCHG` is set and goes away with the seek: a disk is there -/
  | inserted (m : Medium β)
  /-- a disk is there, but its format is not found -/
  | unreadable

/-- `cyl_cache_invalidate` -/
def Cache.invalidate (c : Cache β) : Cache β :=
  { c with lruCyls := c.lruCyls.map fun s => { s with num := -1 } }

namespace Drive

/-- `media_ejected` -/
def mediaEjected (d : Drive β) : Except Fault (Drive β) :=
  match d.cache with
  | none => .error .nullPointer
  | some c => .ok { d with f := none, cache := some c.invalidate }

/-- `media_inserted`; without a disk the format is not found. -/
def mediaInserted (d : Drive β) : Except Fault (Drive β) :=
  match d.medium with
  | none => .error .assertion
  | some m => .ok { d with f := some m.format }

/-- The first branch of `check_media_changed`, if it is taken. -/
def noteEjected (d : Drive β) : Except Fault (Drive β) :=
  if d.f.isSome then d.mediaEjected else .ok d

/-- `check_media_changed` -/
def checkMediaChanged (d : Drive β) : Media β → Except Fault (Drive β)
  | .same => if d.f.isSome then .ok d else d.mediaInserted
  | .ejected => do
    let d ← d.noteEjected
    return { d with medium := none }
  | .inserted m => do
    let d ← d.noteEjected
    { d with medium := some m }.mediaInserted
  | .unreadable => do
    let _ ← d.noteEjected
    .error .assertion

end Drive

/-- Whether `check_media_changed` saw another disk or none. -/
def Media.changed : Media β → Bool
  | .same => false
  | _ => true

/-- `check_media_changed` on drive `n` -/
def State.checkMediaChanged (s : State β) (n : ℕ) (o : Media β) : Except Fault (State β) := do
  let d ← (s.drives n).checkMediaChanged o
  return { s.setDrive n d with clean := s.clean && !(o.changed && decide (s.dmaBufDrv = n)) }

/-- `mem_purge` of a cylinder, with `on_cyl_purge` -/
def Cylinder.purge (c : Cylinder β) : Except Fault (Cylinder β) :=
  match c.data with
  | .buf _ => if c.num < 0 then .error .assertion else .ok ⟨.purged, -1⟩
  | _ => .ok c

/-- A purge of the cylinder at place `i` of the list of drive `n`. -/
def State.purge (s : State β) (n i : ℕ) : Except Fault (State β) :=
  match (s.drives n).cache with
  | none => .ok s
  | some c =>
    match c.lruCyls[i]? with
    | none => .ok s
    | some cyl => do
      let cyl ← cyl.purge
      return s.setDrive n
        { s.drives n with cache := some { c with lruCyls := c.lruCyls.set i cyl } }

/-- What becomes of `detect_media` on the disk that is there. -/
inductive Detect
  | found
  /-- `cmd_recalibrate` fails -/
  | failed (ret : ℤ)
  /-- no format of the drive is found -/
  | unknown

/-- `detect_media`; what it returns, and the drive. -/
def Drive.detectMedia (d : Drive β) : Detect → ℤ × Drive β
  | .found =>
    match d.medium with
    | none => (1, { d with f := none })
    | some m => (0, { d with f := some m.format })
  | .failed ret => (ret, d)
  | .unknown => (1, { d with f := none })

/-- One transfer: it succeeds, it fails, or the controller does not answer.  A
transfer that does not succeed leaves anything in the buffer. -/
inductive Transfer (β : Type)
  | done
  | failed (left : ℕ → β)
  | timeout (left : ℕ → β)

/-- What the hardware does in one `do_handle_cylinder`. -/
structure Attempt (β : Type) where
  media : Media β
  seek : ℤ
  readId : ℤ
  transfer : ℕ → Transfer β

/-- `EIO` -/
def eio : ℤ := 9

/-- `EINVAL` -/
def einval : ℤ := 2

/-- `HANDLE_CYLINDER_RETRIES` -/
def handleCylinderRetries : ℕ := 20

/-- The disk writes a cylinder to the transfer buffer. -/
def Medium.fill (m : Medium β) (cyl : ℕ) (b : ℕ → β) : ℕ → β :=
  fun i => if i < m.format.dmaTransferBytes then m.data cyl i else b i

/-- The loop of `do_handle_cylinder`, with `fuel` iterations to go. -/
def transferLoop (m : Medium β) (n cyl : ℕ) (out : ℕ → Transfer β) :
    ℕ → State β → ℤ × State β
  | 0, s => (-eio, s)
  | fuel + 1, s =>
    match out (handleCylinderRetries - (fuel + 1)) with
    | .done =>
      (0, { s with
        dmaBuf := m.fill cyl s.dmaBuf, dmaBufCyl := cyl, dmaBufDrv := n, clean := true })
    | .failed left => transferLoop m n cyl out fuel { s with dmaBuf := left, clean := false }
    | .timeout left => (-1, { s with dmaBuf := left, clean := false })

/-- `do_handle_cylinder` with `dma_dir_read` -/
def doHandleCylinder (s : State β) (n cyl : ℕ) (x : Attempt β) : Except Fault (ℤ × State β) := do
  if (s.drives n).f.isNone then return (-eio, s)
  -- `cmd_seek`
  let s ← s.checkMediaChanged n x.media
  match (s.drives n).f, (s.drives n).medium with
  | some _, some m =>
    if x.seek ≠ 0 then return (x.seek, s)
    if x.readId ≠ 0 then return (-1, s)
    return transferLoop m n cyl x.transfer handleCylinderRetries s
  | _, _ => return (-eio, s)

/-- What the hardware does in one `handle_cylinder`. -/
structure Reading (β : Type) where
  first : Attempt β
  detect : Detect
  second : Attempt β

/-- `handle_cylinder` and `read_cyl` -/
def readCyl (s : State β) (n cyl : ℕ) (x : Reading β) : Except Fault (ℤ × State β) := do
  let (ret, s) ← doHandleCylinder s n cyl x.first
  if ret = 0 then return (0, s)
  let (ret, d) := (s.drives n).detectMedia x.detect
  let s := s.setDrive n d
  if ret ≠ 0 then return (ret, s)
  doHandleCylinder s n cyl x.second

/-- `CYLINDER_CACHE_CYLS` -/
def cylinderCacheCyls : ℕ := 16

/-- `cyl_cache_init` -/
def cylCacheInit (cylSize : ℕ) : Cache β := ⟨cylSize, List.replicate cylinderCacheCyls ⟨.null, -1⟩⟩

def Data.isNull : Data β → Bool
  | .null => true
  | _ => false

/-- `cyl_cache_destroy`: `purgeable_free` asserts that there is something to free. -/
def cylCacheDestroy (c : Cache β) : Except Fault Unit :=
  if c.lruCyls.any fun s => s.data.isNull then .error .assertion else .ok ()

/-- The cache for cylinders of this size: the one there is, or a new one. -/
def Drive.getCache (d : Drive β) (cylSize : ℕ) : Except Fault (Cache β) :=
  match d.cache with
  | none => .ok (cylCacheInit cylSize)
  | some c =>
    if c.cylSize ≠ cylSize then do
      cylCacheDestroy c
      return cylCacheInit cylSize
    else .ok c

/-- The search of `cyl_cache_read`, from the most recently used end: what stands
before the cylinder found, the cylinder, and what stands after it. -/
def findCyl (cyl : ℤ) (l : List (Cylinder β)) :
    Option (List (Cylinder β) × Cylinder β × List (Cylinder β)) :=
  (splitFirst (fun s => !s.data.isNull && decide (s.num = cyl)) l.reverse).map
    fun (after, s, before) => (before.reverse, s, after.reverse)

/-- `memcpy(dst, src, n)` -/
def memcpy (dst src : ℕ → β) (n : ℕ) : ℕ → β := fun i => if i < n then src i else dst i

/-- What hardware and other tasks do during one `cyl_cache_read`: what its two
checks find, the purges (drive and place in the list) before and after the disk
is read, and what is in the memory it gets. -/
structure Script (β : Type) where
  first : Media β
  second : Media β
  allocated : ℕ → β
  purgedBefore : List (ℕ × ℕ)
  reading : Reading β
  purgedAfter : List (ℕ × ℕ)
  fresh : ℕ → β

def State.purgeAll (s : State β) (l : List (ℕ × ℕ)) : Except Fault (State β) :=
  l.foldlM (fun s (n, i) => s.purge n i) s

def State.setCache (s : State β) (n : ℕ) (c : Cache β) : State β :=
  s.setDrive n { s.drives n with cache := some c }

/-- The end of `cyl_cache_read`: the first cylinder of the list takes over the data
in the transfer buffer and moves to the end. -/
def takeOver (s : State β) (n : ℕ) (cyl : ℤ) (cylSize : ℕ) (fresh : ℕ → β) (skipped : Bool) :
    Except Fault (Returned β × State β) :=
  match (s.drives n).cache with
  | none => .error .nullPointer
  | some c =>
    match c.lruCyls with
    | [] => .error .nullPointer
    | miss :: rest =>
      let dst := match miss.data with
        | .buf b => b
        | _ => fresh
      let dst := memcpy dst s.dmaBuf cylSize
      .ok (⟨n, cyl, dst, skipped⟩, s.setCache n { c with lruCyls := rest ++ [⟨.buf dst, cyl⟩] })

/-- `read_cyl`, unless the tags say that the cylinder is in the buffer already -/
def updateDmaBuf (s : State β) (n : ℕ) (cyl : ℤ) (skip : Bool) (x : Reading β) :
    Except Fault (ℤ × State β) :=
  if skip then .ok (0, s) else readCyl s n cyl.toNat x

/-- `cyl_cache_read` after the search has found nothing -/
def cylCacheMiss (s : State β) (n : ℕ) (cyl : ℤ) (c : Cache β) (x : Script β) :
    Except Fault (ℤ × Option (Returned β) × State β) :=
  match c.lruCyls with
  | [] => .error .nullPointer
  | miss :: rest => do
    let miss := if miss.data.isNull then { miss with data := .buf x.allocated } else miss
    let s ← (s.setCache n { c with lruCyls := miss :: rest }).purgeAll x.purgedBefore
    let skip : Bool := cyl = s.dmaBufCyl ∧ s.dmaBufDrv = n
    let (ret, s) ← updateDmaBuf s n cyl skip x.reading
    if ret ≠ 0 then return (ret, none, s)
    let s ← s.purgeAll x.purgedAfter
    let (out, s) ← takeOver s n cyl c.cylSize x.fresh skip
    return (0, some out, s)

/-- `cyl_cache_read` -/
def cylCacheRead (s : State β) (n : ℕ) (cyl : ℤ) (x : Script β) :
    Except Fault (ℤ × Option (Returned β) × State β) := do
  if cyl < 0 then return (-einval, none, s)
  let s ← s.checkMediaChanged n x.first
  if (s.drives n).f.isNone then return (-eio, none, s)
  -- `flop_block_size` checks again, and `d->f` is used without another test
  let s ← s.checkMediaChanged n x.second
  match (s.drives n).f with
  | none => .error .nullPointer
  | some f =>
    let c ← (s.drives n).getCache f.cylSize
    let s := s.setCache n c
    match findCyl cyl c.lruCyls with
    | some (before, test, after) =>
      match test.data with
      | .buf b =>
        return (0, some ⟨n, cyl, b, false⟩,
          s.setCache n { c with lruCyls := before ++ after ++ [test] })
      | _ => .error .assertion
    | none => cylCacheMiss s n cyl c x

inductive Event (β : Type)
  /-- `cyl_cache_read` of cylinder `cyl` of drive `n` -/
  | read (n : ℕ) (cyl : ℤ) (x : Script β)
  /-- `check_media_changed` in one of the other functions -/
  | check (n : ℕ) (o : Media β)
  /-- a purge between two calls -/
  | purge (n i : ℕ)

/-- One step; there is none if the call does not return. -/
def State.step (s : State β) : Event β → Option (State β)
  | .read n cyl x =>
    (cylCacheRead s n cyl x).toOption.map fun (_, out, s) => { s with returned := out }
  | .check n o => (s.checkMediaChanged n o).toOption.map fun s => { s with returned := none }
  | .purge n i => (s.purge n i).toOption.map fun s => { s with returned := none }

def Step (s : State β) (e : Event β) (s' : State β) : Prop := s.step e = some s'

/-- The driver before it has read anything; disks may be in the drives. -/
structure Initial (s : State β) : Prop where
  drives : ∀ n, (s.drives n).f = none ∧ (s.drives n).cache = none
  tags : s.dmaBufCyl = -1 ∧ s.dmaBufDrv = -1
  returned : s.returned = none

/-! ### What the buffers hold -/

variable {s s' : State β} {d d' : Drive β} {m : Medium β} {o : Media β} {n k cyl : ℕ} {ret : ℤ}

/-- A valid cylinder of the cache holds its cylinder of the disk. -/
def Cylinder.Ok (m : Medium β) (e : Cylinder β) : Prop :=
  0 ≤ e.num → ∃ b, e.data = .buf b ∧ m.Holds e.num.toNat b

theorem Cylinder.ok_of_neg {e : Cylinder β} (h : e.num < 0) : e.Ok m :=
  fun h' => absurd h' (by omega)

structure Drive.Ok (d : Drive β) : Prop where
  present : ∀ f, d.f = some f → ∃ m, d.medium = some m ∧ m.format = f
  cached : ∀ m c, d.medium = some m → d.cache = some c → ∀ e ∈ c.lruCyls, e.Ok m

/-- The invariant. -/
structure Inv (s : State β) : Prop where
  drives : ∀ n, (s.drives n).Ok
  dma : s.clean = true → ∀ (n : ℕ) m, s.dmaBufDrv = n → (s.drives n).medium = some m →
    m.Holds s.dmaBufCyl.toNat s.dmaBuf

/-- No cylinder of the cache is valid. -/
def Drive.Empty (d : Drive β) : Prop := ∀ c, d.cache = some c → ∀ e ∈ c.lruCyls, e.num < 0

theorem Drive.Empty.ok (h : d.Empty)
    (hf : ∀ f, d.f = some f → ∃ m, d.medium = some m ∧ m.format = f) : d.Ok :=
  ⟨hf, fun _ c _ hc e he => Cylinder.ok_of_neg (h c hc e he)⟩

theorem mediaEjected_spec (h : d.mediaEjected = .ok d') :
    d'.Empty ∧ d'.f = none := by
  unfold Drive.mediaEjected at h
  split at h
  · cases h
  · cases h
    refine ⟨fun c hc e he => ?_, rfl⟩
    cases hc
    obtain ⟨a, -, rfl⟩ := mem_map.mp he
    exact Int.negSucc_lt_zero 0

theorem noteEjected_spec (h : d.noteEjected = .ok d') :
    d'.f = none ∧ (d'.Empty ∨ d.f = none ∧ d' = d) := by
  unfold Drive.noteEjected at h
  split at h
  · exact ⟨(mediaEjected_spec h).2, .inl (mediaEjected_spec h).1⟩
  · next hnone =>
    cases h
    have hf : d.f = none := by simpa using hnone
    exact ⟨hf, .inr ⟨hf, rfl⟩⟩

theorem mediaInserted_spec (h : d.mediaInserted = .ok d') :
    ∃ m, d.medium = some m ∧ d' = { d with f := some m.format } := by
  unfold Drive.mediaInserted at h
  split at h
  · cases h
  · next m hm => exact ⟨m, hm, (Except.ok.inj h).symm⟩

/-- The disk after a check. -/
def Media.after (o : Media β) (m : Option (Medium β)) : Option (Medium β) :=
  match o with
  | .same => m
  | .inserted m => some m
  | _ => none

theorem Media.same_of_after {med : Option (Medium β)} (h : o.after med = some m)
    (ho : ∀ m, o ≠ .inserted m) : o = .same ∧ med = some m := by
  cases o with
  | same => exact ⟨rfl, h⟩
  | inserted m' => exact absurd rfl (ho m')
  | ejected => cases h
  | unreadable => cases h

/-- No cylinder outlives the disk it is from: a disk that comes in while `d->f` is
`NULL` finds no valid cylinder. -/
def Drive.Unseen (d : Drive β) (o : Media β) : Prop :=
  ∀ m, o = .inserted m → d.f = none → d.Empty

theorem Drive.Ok.check (h : d.Ok) (hunseen : d.Unseen o) (hd : d.checkMediaChanged o = .ok d') :
    d'.Ok ∧ d'.medium = o.after d.medium := by
  cases o with
  | same =>
    simp only [Drive.checkMediaChanged] at hd
    split at hd
    · cases hd
      exact ⟨h, rfl⟩
    · obtain ⟨m, hm, rfl⟩ := mediaInserted_spec hd
      exact ⟨⟨fun f hf => ⟨m, hm, some_inj.mp hf⟩, h.cached⟩, rfl⟩
  | ejected =>
    obtain ⟨d1, hd1, hd⟩ := bind_eq_ok.mp hd
    cases hd
    refine ⟨⟨fun f hf => ?_, fun m c hm => by cases hm⟩, rfl⟩
    rw [(noteEjected_spec hd1).1] at hf
    cases hf
  | inserted m =>
    obtain ⟨d1, hd1, hd⟩ := bind_eq_ok.mp hd
    obtain ⟨m', hm', rfl⟩ := mediaInserted_spec hd
    obtain rfl : m = m' := some_inj.mp hm'
    have hempty : d1.Empty := by
      rcases (noteEjected_spec hd1).2 with hempty | ⟨hf, rfl⟩
      · exact hempty
      · exact hunseen m rfl hf
    exact ⟨Drive.Empty.ok (fun c hc => hempty c hc)
      fun f hf => ⟨m, rfl, some_inj.mp hf⟩, rfl⟩
  | unreadable =>
    obtain ⟨d1, -, hd⟩ := bind_eq_ok.mp hd
    cases hd

theorem Inv.setDrive (h : Inv s) (hd : d.Ok) (hm : d.medium = (s.drives n).medium) :
    Inv (s.setDrive n d) := by
  refine ⟨State.forall_setDrive hd fun k _ => h.drives k, fun hclean k m hk hmk => ?_⟩
  refine h.dma hclean k m hk ?_
  by_cases hkn : k = n
  · subst hkn
    simpa [hm] using hmk
  · simpa [State.setDrive_of_ne, hkn] using hmk

theorem Inv.check (h : Inv s) (hunseen : (s.drives n).Unseen o)
    (hs : s.checkMediaChanged n o = .ok s') :
    Inv s' ∧ (s'.drives n).medium = o.after (s.drives n).medium := by
  obtain ⟨d, hd, hs⟩ := bind_eq_ok.mp hs
  cases hs
  obtain ⟨hok, hmed⟩ := (h.drives n).check hunseen hd
  refine ⟨⟨State.forall_setDrive hok fun k _ => h.drives k, fun hclean k m hk hmk => ?_⟩,
    by simpa using hmed⟩
  · simp only [Bool.and_eq_true, Bool.not_eq_true', Bool.and_eq_false_iff, decide_eq_false_iff_not]
      at hclean
    refine h.dma hclean.1 k m hk ?_
    by_cases hkn : k = n
    · -- the tags name this drive, so the check saw no change
      subst hkn
      have hsame : o.changed = false := hclean.2.resolve_right (not_not.mpr hk)
      have hafter : o.after (s.drives k).medium = (s.drives k).medium := by
        cases o <;> simp_all [Media.changed, Media.after]
      simpa [hmed, hafter] using hmk
    · simpa [State.setDrive_of_ne, hkn] using hmk

/-! ### Purges, transfers and reads -/

/-- The disks, the transfer buffer and its tags are as before. -/
structure SameDisks (s s' : State β) : Prop where
  medium : ∀ n, (s'.drives n).medium = (s.drives n).medium
  dmaBuf : s'.dmaBuf = s.dmaBuf
  dmaBufCyl : s'.dmaBufCyl = s.dmaBufCyl
  dmaBufDrv : s'.dmaBufDrv = s.dmaBufDrv
  clean : s'.clean = s.clean

theorem SameDisks.refl (s : State β) : SameDisks s s := ⟨fun _ => rfl, rfl, rfl, rfl, rfl⟩

theorem SameDisks.trans {s'' : State β} (h : SameDisks s s') (h' : SameDisks s' s'') :
    SameDisks s s'' :=
  ⟨fun n => (h'.medium n).trans (h.medium n), h'.dmaBuf.trans h.dmaBuf,
    h'.dmaBufCyl.trans h.dmaBufCyl, h'.dmaBufDrv.trans h.dmaBufDrv, h'.clean.trans h.clean⟩

theorem sameDisks_setDrive (hm : d.medium = (s.drives n).medium) :
    SameDisks s (s.setDrive n d) :=
  ⟨State.forall_setDrive (p := fun k d => d.medium = (s.drives k).medium) hm fun _ _ => rfl,
    rfl, rfl, rfl, rfl⟩

theorem Cylinder.Ok.purge {e e' : Cylinder β} (h : e.Ok m) (he : e.purge = .ok e') : e'.Ok m := by
  unfold Cylinder.purge at he
  split at he
  · split at he
    · cases he
    · cases he
      exact Cylinder.ok_of_neg (Int.negSucc_lt_zero 0)
  · cases he
    exact h

theorem Inv.purge {i : ℕ} (h : Inv s) (hs : s.purge n i = .ok s') : Inv s' ∧ SameDisks s s' := by
  unfold State.purge at hs
  split at hs
  · cases hs
    exact ⟨h, .refl s⟩
  · next c hc =>
    split at hs
    · cases hs
      exact ⟨h, .refl s⟩
    · next e he =>
      obtain ⟨e', he', hs⟩ := bind_eq_ok.mp hs
      cases hs
      refine ⟨h.setDrive ⟨(h.drives n).present, fun m c' hm hc' a ha => ?_⟩ rfl,
        sameDisks_setDrive rfl⟩
      cases hc'
      have hcached := (h.drives n).cached m c hm hc
      rcases mem_or_eq_of_mem_set ha with ha | rfl
      · exact hcached a ha
      · exact (hcached e (mem_of_getElem? he)).purge he'

theorem Inv.purgeAll {l : List (ℕ × ℕ)} (h : Inv s) (hs : s.purgeAll l = .ok s') :
    Inv s' ∧ SameDisks s s' := by
  induction l generalizing s with
  | nil =>
    cases hs
    exact ⟨h, .refl _⟩
  | cons p l ih =>
    obtain ⟨s1, hs1, hs⟩ := bind_eq_ok.mp hs
    obtain ⟨h1, hsame1⟩ := h.purge hs1
    obtain ⟨h2, hsame2⟩ := ih h1 hs
    exact ⟨h2, hsame1.trans hsame2⟩

/-- **The loop of the transfers**, with the disk `m` in drive `n`. -/
theorem Inv.transferLoop {out : ℕ → Transfer β} {fuel : ℕ} (h : Inv s)
    (hm : (s.drives n).medium = some m) (hs : transferLoop m n cyl out fuel s = (ret, s')) :
    Inv s' ∧ s'.drives = s.drives ∧ (ret = 0 → m.Holds cyl s'.dmaBuf) := by
  induction fuel generalizing s with
  | zero =>
    cases hs
    exact ⟨h, rfl, fun h0 => by cases h0⟩
  | succ fuel ih =>
    rw [Floppy.transferLoop] at hs
    split at hs
    · cases hs
      have hfill : m.Holds cyl (m.fill cyl s.dmaBuf) := fun i hi =>
        if_pos (hi.trans_le (cylSize_le_dmaTransferBytes m.known))
      refine ⟨⟨h.drives, fun _ k m' hk hm' => ?_⟩, rfl, fun _ => hfill⟩
      obtain rfl : n = k := Int.ofNat.inj hk
      obtain rfl := mem_unique hm hm'
      simpa using hfill
    · next left _ =>
      exact ih (s := { s with dmaBuf := left, clean := false })
        ⟨h.drives, fun hc => by cases hc⟩ hm hs
    · cases hs
      exact ⟨⟨h.drives, fun hc => by cases hc⟩, rfl, fun h0 => by cases h0⟩

theorem Inv.doHandleCylinder {x : Attempt β} (h : Inv s)
    (hs : doHandleCylinder s n cyl x = .ok (ret, s')) :
    Inv s' ∧ (∀ m, (s'.drives n).medium = some m →
        (s.drives n).medium = some m ∨ x.media = .inserted m) ∧
      (ret = 0 → ∃ m, (s'.drives n).medium = some m ∧ m.Holds cyl s'.dmaBuf) := by
  unfold Floppy.doHandleCylinder at hs
  split at hs
  · cases hs
    exact ⟨h, fun m hm => .inl hm, fun h0 => by cases h0⟩
  · next hf =>
    obtain ⟨s1, hs1, hs⟩ := bind_eq_ok.mp hs
    have hunseen : (s.drives n).Unseen x.media := fun m _ hnone => by simp [hnone] at hf
    obtain ⟨h1, hmed1⟩ := h.check hunseen hs1
    have hold : ∀ m, (s1.drives n).medium = some m →
        (s.drives n).medium = some m ∨ x.media = .inserted m := by
      intro m hm
      cases ho : x.media <;> simp_all [Media.after]
    split at hs
    · next m hmf hm =>
      split at hs
      · next hseek =>
        cases hs
        exact ⟨h1, hold, fun h0 => absurd h0 hseek⟩
      · split at hs
        · cases hs
          exact ⟨h1, hold, fun h0 => by cases h0⟩
        · obtain ⟨h2, hdrives, hholds⟩ := h1.transferLoop hm (Except.ok.inj hs)
          rw [hdrives]
          exact ⟨h2, hold, fun h0 => ⟨m, hm, hholds h0⟩⟩
    · cases hs
      exact ⟨h1, hold, fun h0 => by cases h0⟩

theorem Inv.detectMedia {r : Detect} (h : Inv s) :
    Inv (s.setDrive n ((s.drives n).detectMedia r).2) ∧
      ((s.drives n).detectMedia r).2.medium = (s.drives n).medium := by
  have hmed : ((s.drives n).detectMedia r).2.medium = (s.drives n).medium := by
    unfold Drive.detectMedia
    split
    · split <;> rfl
    · rfl
    · rfl
  refine ⟨h.setDrive ⟨fun f hf => ?_, fun m c hm hc => ?_⟩ hmed, hmed⟩
  · rw [hmed]
    unfold Drive.detectMedia at hf
    split at hf
    · split at hf
      · cases hf
      · next m hm => exact ⟨m, hm, some_inj.mp hf⟩
    · exact (h.drives n).present f hf
    · cases hf
  · rw [hmed] at hm
    refine (h.drives n).cached m c hm ?_
    unfold Drive.detectMedia at hc
    split at hc
    · split at hc <;> exact hc
    · exact hc
    · exact hc

theorem Inv.readCyl {x : Reading β} (h : Inv s) (hs : readCyl s n cyl x = .ok (ret, s')) :
    Inv s' ∧ (∀ m, (s'.drives n).medium = some m → (s.drives n).medium = some m ∨
        x.first.media = .inserted m ∨ x.second.media = .inserted m) ∧
      (ret = 0 → ∃ m, (s'.drives n).medium = some m ∧ m.Holds cyl s'.dmaBuf) := by
  obtain ⟨⟨ret1, s1⟩, hs1, hs⟩ := bind_eq_ok.mp hs
  obtain ⟨h1, hold1, hholds1⟩ := h.doHandleCylinder hs1
  dsimp only at hs
  split at hs
  · next h0 =>
    cases hs
    exact ⟨h1, fun m hm => (hold1 m hm).imp_right .inl, fun _ => hholds1 h0⟩
  · obtain ⟨h2, hmed2⟩ := h1.detectMedia (n := n) (r := x.detect)
    split at hs
    · next hne =>
      cases hs
      refine ⟨h2, fun m hm => ?_, fun h0 => absurd h0 hne⟩
      rw [State.setDrive_self, hmed2] at hm
      exact (hold1 m hm).imp_right .inl
    · obtain ⟨h3, hold3, hholds3⟩ := h2.doHandleCylinder hs
      refine ⟨h3, fun m hm => ?_, hholds3⟩
      rcases hold3 m hm with hm | hm
      · rw [State.setDrive_self, hmed2] at hm
        exact (hold1 m hm).imp_right .inl
      · exact .inr (.inr hm)

/-! ### The cache -/

variable {c : Cache β} {z : ℤ} {out : Option (Returned β)}

/-- What has been returned is the cylinder asked for, of the disk that is there;
if no transfer was made for it, that cylinder is in the transfer buffer. -/
def Good (s : State β) (out : Option (Returned β)) : Prop :=
  ∀ r, out = some r → ∃ m, (s.drives r.drive).medium = some m ∧ m.Holds r.cyl.toNat r.buf ∧
    (r.skipped = true → m.Holds r.cyl.toNat s.dmaBuf)

theorem good_none : Good s none := fun r hr => by cases hr

theorem findCyl_eq_some {l before after : List (Cylinder β)} {e : Cylinder β}
    (h : findCyl z l = some (before, e, after)) : l = before ++ e :: after ∧ e.num = z := by
  obtain ⟨hl, hp, -⟩ := splitLast_eq_some h
  exact ⟨hl, by simpa using (Bool.and_eq_true_iff.mp hp).2⟩

theorem findCyl_eq_none {l : List (Cylinder β)} (h : findCyl z l = none) (hz : 0 ≤ z)
    {e : Cylinder β} (he : e ∈ l) (hok : e.Ok m) : e.num ≠ z := by
  rintro rfl
  obtain ⟨b, hb, -⟩ := hok hz
  have hall := splitLast_eq_none.mp h e he
  simp [hb, Data.isNull] at hall

theorem Inv.setCache (h : Inv s) (hm : (s.drives n).medium = some m)
    (hc : ∀ e ∈ c.lruCyls, e.Ok m) : Inv (s.setCache n c) := by
  refine h.setDrive ⟨(h.drives n).present, fun m' c' hm' hc' => ?_⟩ rfl
  obtain rfl := mem_unique hm hm'
  cases hc'
  exact hc

theorem sameDisks_setCache : SameDisks s (s.setCache n c) := sameDisks_setDrive rfl

theorem getCache_eq {size : ℕ} (hc : d.getCache size = .ok c) :
    d.cache = some c ∧ c.cylSize = size ∨
      c = cylCacheInit size ∧ ∀ c', d.cache = some c' → c'.cylSize ≠ size := by
  unfold Drive.getCache at hc
  split at hc
  · next hnone =>
    cases hc
    exact .inr ⟨rfl, fun c' hc' => by rw [hnone] at hc'; cases hc'⟩
  · next c0 hsome =>
    split at hc
    · next hne =>
      obtain ⟨-, -, hc⟩ := bind_eq_ok.mp hc
      cases hc
      exact .inr ⟨rfl, fun c' hc' => some_inj.mp (hsome.symm.trans hc') ▸ hne⟩
    · next heq =>
      cases hc
      exact .inl ⟨hsome, not_not.mp heq⟩

theorem getCache_spec {size : ℕ} (h : d.Ok) (hm : d.medium = some m)
    (hc : d.getCache size = .ok c) :
    (∀ e ∈ c.lruCyls, e.Ok m) ∧ c.cylSize = size ∧
      ∀ c', d.cache = some c' → c'.cylSize = size → c = c' := by
  rcases getCache_eq hc with ⟨hold, hsize⟩ | ⟨rfl, hnew⟩
  · exact ⟨h.cached m c hm hold, hsize, fun c' hc' _ => some_inj.mp (hold.symm.trans hc')⟩
  · refine ⟨fun e he => ?_, rfl, fun c' hc' hsize => absurd hsize (hnew c' hc')⟩
    rw [eq_of_mem_replicate he]
    exact Cylinder.ok_of_neg (Int.negSucc_lt_zero 0)

theorem Inv.takeOver {size : ℕ} {fresh : ℕ → β} {skipped : Bool} {r : Returned β} (h : Inv s)
    (hm : (s.drives n).medium = some m) (hholds : m.Holds z.toNat s.dmaBuf)
    (hsize : m.format.cylSize ≤ size)
    (hs : takeOver s n z size fresh skipped = .ok (r, s')) : Inv s' ∧ Good s' (some r) := by
  unfold Floppy.takeOver at hs
  split at hs
  · cases hs
  · next c hc =>
    split at hs
    · cases hs
    · next miss rest hcyls =>
      cases hs
      have hdst : ∀ dst, m.Holds z.toNat (memcpy dst s.dmaBuf size) := by
        intro dst i hi
        rw [memcpy, if_pos (hi.trans_le hsize)]
        exact hholds i hi
      refine ⟨h.setCache hm fun e he => ?_, fun r hr => ?_⟩
      · rcases mem_append.mp he with he | he
        · exact (h.drives n).cached m c hm hc e (hcyls ▸ mem_cons_of_mem _ he)
        · obtain rfl := mem_singleton.mp he
          exact fun _ => ⟨_, rfl, hdst _⟩
      · cases hr
        exact ⟨m, (sameDisks_setCache.medium n).trans hm, hdst _, fun _ => hholds⟩

/-- **A miss**: if the tags are trusted, they can be, and a disk that is first
seen here has cylinders that fit into the cache. -/
theorem Inv.cylCacheMiss {x : Script β} (h : Inv s) (hm : (s.drives n).medium = some m)
    (hc : ∀ e ∈ c.lruCyls, e.Ok m) (hsize : c.cylSize = m.format.cylSize)
    (htags : z = s.dmaBufCyl → s.dmaBufDrv = n → s.clean = true)
    (hfits : ∀ m', x.reading.first.media = .inserted m' ∨ x.reading.second.media = .inserted m' →
      m'.format.cylSize ≤ m.format.cylSize)
    (hs : cylCacheMiss s n z c x = .ok (ret, out, s')) : Inv s' ∧ Good s' out := by
  unfold Floppy.cylCacheMiss at hs
  split at hs
  · cases hs
  · next miss rest hcyls =>
    rw [hcyls] at hc
    obtain ⟨s1, hs1, hs⟩ := bind_eq_ok.mp hs
    obtain ⟨⟨ret2, s2⟩, hs2, hs⟩ := bind_eq_ok.mp hs
    have h₀ : Inv (s.setCache n { c with lruCyls :=
        (if miss.data.isNull then { miss with data := .buf x.allocated } else miss) :: rest }) := by
      refine h.setCache hm fun e he => ?_
      rcases mem_cons.mp he with rfl | he
      · split
        · next hnull =>
          -- a cylinder without memory is not valid
          intro hnum
          obtain ⟨b, hb, -⟩ := hc miss mem_cons_self hnum
          simp [hb, Data.isNull] at hnull
        · exact hc miss mem_cons_self
      · exact hc e (mem_cons_of_mem _ he)
    obtain ⟨h1, hsame1⟩ := h₀.purgeAll hs1
    replace hsame1 : SameDisks s s1 := sameDisks_setCache.trans hsame1
    have hm1 : (s1.drives n).medium = some m := (hsame1.medium n).trans hm
    -- the buffer after the read, or without it
    have hread : Inv s2 ∧ (ret2 = 0 → ∃ m', (s2.drives n).medium = some m' ∧
        m'.Holds z.toNat s2.dmaBuf ∧ m'.format.cylSize ≤ m.format.cylSize) := by
      unfold updateDmaBuf at hs2
      split at hs2
      · next hskip =>
        cases hs2
        obtain ⟨hcyl, hdrv⟩ := of_decide_eq_true hskip
        have hclean : s1.clean = true := by
          rw [hsame1.clean]
          exact htags (hcyl.trans hsame1.dmaBufCyl) (hsame1.dmaBufDrv.symm.trans hdrv)
        refine ⟨h1, fun _ => ⟨m, hm1, ?_, le_rfl⟩⟩
        rw [hcyl]
        exact h1.dma hclean n m hdrv hm1
      · obtain ⟨h2, hold, hholds⟩ := h1.readCyl hs2
        refine ⟨h2, fun h0 => ?_⟩
        obtain ⟨m', hm', hm'z⟩ := hholds h0
        refine ⟨m', hm', hm'z, ?_⟩
        rcases hold m' hm' with hsame | hins
        · obtain rfl := mem_unique hm1 hsame
          exact le_rfl
        · exact hfits m' hins
    obtain ⟨h2, hread⟩ := hread
    dsimp only at hs
    split at hs
    · cases hs
      exact ⟨h2, good_none⟩
    · next h0 =>
      obtain ⟨m', hm', hholds, hle⟩ := hread (not_not.mp h0)
      obtain ⟨s3, hs3, hs⟩ := bind_eq_ok.mp hs
      obtain ⟨⟨r, s4⟩, hs4, hs⟩ := bind_eq_ok.mp hs
      cases hs
      obtain ⟨h3, hsame3⟩ := h2.purgeAll hs3
      refine h3.takeOver ((hsame3.medium n).trans hm') ?_ (hsize ▸ hle) hs4
      rw [hsame3.dmaBuf]
      exact hholds

theorem check_tags (hs : s.checkMediaChanged n o = .ok s') :
    s'.dmaBufCyl = s.dmaBufCyl ∧ s'.dmaBufDrv = s.dmaBufDrv := by
  obtain ⟨d, -, hs⟩ := bind_eq_ok.mp hs
  cases hs
  exact ⟨rfl, rfl⟩

theorem check_same (hs : s.checkMediaChanged n .same = .ok s') :
    s'.clean = s.clean ∧ (s'.drives n).cache = (s.drives n).cache := by
  obtain ⟨d, hd, hs⟩ := bind_eq_ok.mp hs
  cases hs
  refine ⟨by simp [Media.changed], ?_⟩
  simp only [State.setDrive_self, Drive.checkMediaChanged] at hd ⊢
  split at hd
  · cases hd
    rfl
  · obtain ⟨m, -, rfl⟩ := mediaInserted_spec hd
    rfl

/-- The cylinder is in the cache. -/
def Drive.Cached (d : Drive β) (z : ℤ) : Prop :=
  ∃ c m, d.cache = some c ∧ d.medium = some m ∧ c.cylSize = m.format.cylSize ∧
    ∃ e ∈ c.lruCyls, e.num = z

/-- The condition on the steps.  A disk that comes in while `d->f` is `NULL` finds
no valid cylinder; a cylinder that the tags name is asked for only if it is
cached, or else no other disk was seen in that drive and no transfer has failed
since the tags were set, during this call included; and a disk first seen
inside `read_cyl` has no larger cylinders than the one before. -/
def Coherent (s : State β) : Event β → Prop
  | .read n z x =>
    (s.drives n).Unseen x.first ∧
    (z = s.dmaBufCyl → s.dmaBufDrv = n → (∀ m, x.first ≠ .inserted m) ∧
      (∀ m, x.second ≠ .inserted m) ∧ (s.clean = true ∨ (s.drives n).Cached z)) ∧
    ∀ m, x.second.after (x.first.after (s.drives n).medium) = some m → ∀ m',
      x.reading.first.media = .inserted m' ∨ x.reading.second.media = .inserted m' →
        m'.format.cylSize ≤ m.format.cylSize
  | .check n o => (s.drives n).Unseen o
  | .purge _ _ => True

theorem Inv.cylCacheRead {x : Script β} (h : Inv s) (hok : Coherent s (.read n z x))
    (hs : cylCacheRead s n z x = .ok (ret, out, s')) : Inv s' ∧ Good s' out := by
  obtain ⟨hunseen, htags, hfits⟩ := hok
  unfold Floppy.cylCacheRead at hs
  split at hs
  · cases hs
    exact ⟨h, good_none⟩
  · next hneg =>
    have hz : 0 ≤ z := by omega
    obtain ⟨s1, hs1, hs⟩ := bind_eq_ok.mp hs
    obtain ⟨h1, hmed1⟩ := h.check hunseen hs1
    split at hs
    · cases hs
      exact ⟨h1, good_none⟩
    · next hf1 =>
      obtain ⟨s2, hs2, hs⟩ := bind_eq_ok.mp hs
      obtain ⟨h2, hmed2⟩ := h1.check (fun m _ hnone => by simp [hnone] at hf1) hs2
      split at hs
      · cases hs
      · next f hf =>
        obtain ⟨m, hm, rfl⟩ := (h2.drives n).present f hf
        obtain ⟨c, hc, hs⟩ := bind_eq_ok.mp hs
        obtain ⟨hcyls, hsize, hsame⟩ := getCache_spec (h2.drives n) hm hc
        have h3 : Inv (s2.setCache n c) := h2.setCache hm hcyls
        have hm3 : ((s2.setCache n c).drives n).medium = some m :=
          (sameDisks_setCache.medium n).trans hm
        rw [hmed2, hmed1] at hm
        split at hs
        · next before e after hfind =>
          obtain ⟨hl, rfl⟩ := findCyl_eq_some hfind
          have he : e.Ok m := hcyls e (by simp [hl])
          split at hs
          · next b hb =>
            cases hs
            refine ⟨h3.setCache hm3 fun a ha => hcyls a ?_, fun r hr => ?_⟩
            · rw [hl, perm_middle.mem_iff]
              exact (perm_append_comm.mem_iff).mp ha
            · cases hr
              obtain ⟨b', hb', hholds⟩ := he hz
              cases hb.symm.trans hb'
              exact ⟨m, (sameDisks_setCache.medium n).trans hm3, hholds, fun hf => by cases hf⟩
          · cases hs
        · next hfind =>
          refine h3.cylCacheMiss hm3 hcyls hsize (fun hzt hdrv => ?_) (hfits m hm) hs
          -- the read is skipped: the checks of this call saw no change
          have ht1 := check_tags hs1
          have ht2 := check_tags hs2
          obtain ⟨hfirst, hsecond, hclean⟩ := htags (hzt.trans (ht2.1.trans ht1.1))
            ((ht2.2.trans ht1.2).symm.trans hdrv)
          obtain ⟨hsame2, hm1⟩ := Media.same_of_after hm hsecond
          obtain ⟨hsame1, hm0⟩ := Media.same_of_after hm1 hfirst
          rw [hsame1] at hs1
          rw [hsame2] at hs2
          have hclean2 : s2.clean = s.clean := (check_same hs2).1.trans (check_same hs1).1
          rcases hclean with hclean | ⟨c0, m0, hc0, hcm0, hsize0, e, he, hnum⟩
          · exact hclean2.trans hclean
          · -- a cached cylinder would have been found
            obtain rfl := mem_unique hcm0 hm0
            have hcache : (s2.drives n).cache = some c0 :=
              (check_same hs2).2.trans ((check_same hs1).2.trans hc0)
            obtain rfl := hsame c0 hcache hsize0
            exact absurd hnum (findCyl_eq_none hfind hz he (hcyls e he))

theorem Inv.step {e : Event β} (h : Inv s) (hok : Coherent s e) (hs : Step s e s') :
    Inv s' ∧ Good s' s'.returned := by
  cases e with
  | read n z x =>
    obtain ⟨⟨ret, out, s1⟩, hs1, rfl⟩ := map_eq_some_iff.mp hs
    obtain ⟨h1, hgood⟩ := h.cylCacheRead hok (toOption_eq_some.mp hs1)
    exact ⟨⟨h1.drives, h1.dma⟩, hgood⟩
  | check n o =>
    obtain ⟨s1, hs1, rfl⟩ := map_eq_some_iff.mp hs
    have h1 := (h.check hok (toOption_eq_some.mp hs1)).1
    exact ⟨⟨h1.drives, h1.dma⟩, good_none⟩
  | purge n i =>
    obtain ⟨s1, hs1, rfl⟩ := map_eq_some_iff.mp hs
    have h1 := (h.purge (toOption_eq_some.mp hs1)).1
    exact ⟨⟨h1.drives, h1.dma⟩, good_none⟩

theorem Initial.inv (h : Initial s) : Inv s := by
  refine ⟨fun n => ⟨fun f hf => ?_, fun m c _ hc => ?_⟩, fun _ n m hn => ?_⟩
  · rw [(h.drives n).1] at hf
    cases hf
  · rw [(h.drives n).2] at hc
    cases hc
  · rw [h.tags.2] at hn
    omega

/-- **Coherence of the two caches** in the runs all of whose steps meet the
condition. -/
theorem cyl_cache_coherent {s0 : State β} {es : List (Event β)} (h₀ : Initial s0)
    (hrun : Run Step s0 es s) (hok : Guarded Step Coherent s0 es) : Good s s.returned := by
  have hinv : Inv s ∧ Good s s.returned := by
    refine Run.invariant_of_guarded (I := fun s => Inv s ∧ Good s s.returned) ?_
      (fun _ _ _ h hok hs => h.1.step hok hs) hrun hok
    refine ⟨h₀.inv, ?_⟩
    rw [h₀.returned]
    exact good_none
  exact hinv.2

/-! ### A change of disks -/

/-- Nothing goes wrong and the disk stays in the drive. -/
def smooth : Attempt Bool := ⟨.same, 0, 0, fun _ => .done⟩

def undisturbed : Script Bool where
  first := .same
  second := .same
  allocated _ := false
  purgedBefore := []
  reading := ⟨smooth, .found, smooth⟩
  purgedAfter := []
  fresh _ := false

theorem format1440_known : (⟨80, 2, 18, 2⟩ : Format) ∈ floppyFormats := by decide

/-- A disk of 1.44 megabytes, all of it the same bit. -/
def disk (b : Bool) : Medium Bool := ⟨⟨80, 2, 18, 2⟩, format1440_known, fun _ _ => b⟩

/-- The first disk is in drive 0. -/
def poweredOn : State Bool where
  drives n := ⟨none, if n = 0 then some (disk false) else none, none⟩
  dmaBuf _ := false
  dmaBufCyl := -1
  dmaBufDrv := -1
  clean := true
  returned := none

theorem poweredOn_initial : Initial poweredOn := ⟨fun _ => ⟨rfl, rfl⟩, ⟨rfl, rfl⟩, rfl⟩

/-- Cylinder 0 of the first disk is read, the second disk comes in, and cylinder
`z` is read. -/
def swap (z : ℤ) : List (Event Bool) :=
  [.read 0 0 undisturbed, .check 0 (.inserted (disk true)), .read 0 z undisturbed]

theorem coherent_undisturbed {s : State Bool} (h : z = s.dmaBufCyl → s.dmaBufDrv ≠ n) :
    Coherent s (.read n z undisturbed) := by
  refine ⟨fun m hm => ?_, fun hz hn => absurd hn (h hz), fun m _ m' hm' => ?_⟩
  · cases hm
  · rcases hm' with hm' | hm' <;> cases hm'

theorem cyl_cache_coherent_swap :
    ∃ s, Run Step poweredOn (swap 1) s ∧ s.returned.map (fun r => r.buf 0) = some true ∧
      Good s s.returned := by
  have hsome : ((swap 1).foldlM State.step poweredOn).map
      (fun s => s.returned.map fun r => r.buf 0) = some (some true) := by decide +kernel
  obtain ⟨s, hs, hbuf⟩ := map_eq_some_iff.mp hsome
  have hrun : Run Step poweredOn (swap 1) s := run_iff_foldlM.mpr hs
  have hok : Guarded Step Coherent poweredOn (swap 1) := by
    refine guarded_cons (coherent_undisturbed (by decide)) fun s1 hs1 => ?_
    have hs1' : (poweredOn.step (.read 0 0 undisturbed)).map (fun s =>
        (s.dmaBufCyl, (s.drives 0).f.isSome)) = some (0, true) := by decide +kernel
    rw [hs1, map_some, some_inj, Prod.mk.injEq] at hs1'
    refine guarded_cons (fun m _ hnone => ?_) fun s2 hs2 => ?_
    · -- the driver knows of the first disk
      rw [hnone] at hs1'
      cases hs1'.2
    · obtain ⟨s3, hs3, rfl⟩ := map_eq_some_iff.mp hs2
      have htags := (check_tags (toOption_eq_some.mp hs3)).1
      refine guarded_cons (coherent_undisturbed fun hz => ?_) fun _ _ => guarded_nil
      rw [htags, hs1'.1] at hz
      cases hz
  exact ⟨s, hrun, hbuf, cyl_cache_coherent poweredOn_initial hrun hok⟩

/-- **A stale cylinder**: after the change of disks the tags still name cylinder 0
of the first one. -/
theorem stale_after_swap :
    Initial poweredOn ∧ ∃ s, Run Step poweredOn (swap 0) s ∧ ¬ Good s s.returned := by
  have hsome : ((swap 0).foldlM State.step poweredOn).map (fun s =>
      (s.returned.map fun r => (r.drive, r.cyl, r.buf 0), (s.drives 0).medium.map fun m =>
        (decide (0 < m.format.cylSize), m.data 0 0))) =
      some (some (0, 0, false), some (true, true)) := by decide +kernel
  obtain ⟨s, hs, hout⟩ := map_eq_some_iff.mp hsome
  refine ⟨poweredOn_initial, s, run_iff_foldlM.mpr hs, fun hgood => ?_⟩
  obtain ⟨hret, hmed⟩ := Prod.mk.inj hout
  obtain ⟨r, hr, hfields⟩ := map_eq_some_iff.mp hret
  obtain ⟨m, hm, hholds, -⟩ := hgood r hr
  simp only [Prod.mk.injEq] at hfields
  obtain ⟨hdrive, hcyl, hbuf⟩ := hfields
  rw [hdrive] at hm
  rw [hm, map_some, some_inj, Prod.mk.injEq] at hmed
  have h0 := hholds 0 (of_decide_eq_true hmed.1)
  rw [hcyl, hbuf] at h0
  exact absurd (h0.trans hmed.2) (by decide)

end Floppy
