/-
The blocks of an ext2 file (`read_block`, `read_indirect` and `read_i_block` of
`fs/ext2/ext2.c`).

The inode has twelve pointers to data blocks and one pointer each to a block of
pointers, a block of blocks of pointers, and one more level.  `read_i_block`
finds file block `idx` through them.

The device is a parameter: `dev bytes off` is what `vfs_read_at` on the device
returns and stores, in any monad, so that a device may fail, or fail only
sometimes.

* `readBlock`, `readIndirect`, `readIBlock` — the functions of the source;
* `readIBlock_twoTone` — on a volume whose first block is all ones and every
  other block all twos, every file block but the first reads as twos, through
  whatever pointers it is found.
-/
import Minima.Memory

namespace Ext2

open List

/-! ### The functions of the source -/

variable {m : Type → Type}

/-- What reading uses of a `struct ext2_fs`. -/
structure Fs (m : Type → Type) where
  dev : ℕ → ℕ → m (ℤ × List ℕ)
  devBlockSize : ℕ
  blockSize : ℕ

/-- What reading uses of a `struct inode`.  The words of `rest`, from `generation` to the end of
the structure, are read as pointers by a loop that passes the others. -/
structure Inode where
  bytesLsb : ℕ
  dirBlocks : Fin 12 → ℕ
  singlyLinked : ℕ
  doublyLinked : ℕ
  triplyLinked : ℕ
  rest : Fin 7 → ℕ

/-- Multiplication of 32-bit words. -/
def mul32 (x y : ℕ) : ℕ := x * y % 2 ^ 32

section Functions

variable [Monad m] (fs : Fs m)

/-- The loop of `read_block`, over the offsets on the device. -/
def readBlockLoop : List ℕ → List ℕ → m (ℤ × List ℕ)
  | [], data => pure (0, data)
  | off :: offs, data => do
    let (ret, bytes) ← fs.dev fs.devBlockSize off
    if ret ≠ 0 then pure (1, data ++ bytes) else readBlockLoop offs (data ++ bytes)

/-- `read_block` -/
def readBlock (b : ℕ) : m (ℤ × List ℕ) :=
  readBlockLoop fs ((List.range (fs.blockSize / fs.devBlockSize)).map fun i =>
    add32 (mul32 b fs.blockSize) (i * fs.devBlockSize)) []

/-- `((blkaddr_t *)block)[k]` -/
def blkptr (block : List ℕ) (k : ℕ) : ℕ :=
  block.getD (4 * k) 0 + 2 ^ 8 * block.getD (4 * k + 1) 0 + 2 ^ 16 * block.getD (4 * k + 2) 0 +
    2 ^ 24 * block.getD (4 * k + 3) 0

/-- `apb`, the addresses in a block -/
def Fs.apb (fs : Fs m) : ℕ := fs.blockSize / 4

/-- `read_indirect` at block index `idx`, in the pointer table `cur`. -/
def readIndirect (idx : ℕ) : ℕ → List ℕ → m (ℤ × List ℕ)
  | 0, cur =>
    let b := blkptr cur (idx % fs.apb)
    if b = 0 then pure (1, []) else readBlock fs b
  | depth + 1, cur => do
    let curIdx :=
      if depth = 0 then idx / fs.apb % fs.apb
      else idx / mul32 fs.apb fs.apb % mul32 fs.apb fs.apb
    let (ret, nextBlock) ← readBlock fs (blkptr cur curIdx)
    if ret ≠ 0 then pure (1, []) else readIndirect idx depth nextBlock

/-- One of the three `if` blocks of `read_i_block`. -/
def readLinked (linked idx depth : ℕ) : m (ℤ × List ℕ) := do
  let (ret, block) ← readBlock fs linked
  if ret ≠ 0 then pure (ret, []) else readIndirect fs idx depth block

/-- `dir_blocks[idx]`, or `0` beyond the array, which the source does not read. -/
def Inode.dirBlock (i : Inode) (idx : ℕ) : ℕ := if h : idx < 12 then i.dirBlocks ⟨idx, h⟩ else 0

/-- `read_i_block` -/
def readIBlock (i : Inode) (idx : ℕ) : m (ℤ × List ℕ) :=
  if i.dirBlock idx ≠ 0 then readBlock fs (i.dirBlock idx)
  else
    let idx := sub32 idx 12
    if idx < fs.apb ∧ i.singlyLinked ≠ 0 then readLinked fs i.singlyLinked idx 0
    else
      let idx := sub32 idx fs.apb
      if idx < mul32 fs.apb fs.apb ∧ i.doublyLinked ≠ 0 then readLinked fs i.doublyLinked idx 1
      else
        let idx := sub32 idx (mul32 fs.apb fs.apb)
        if idx < mul32 (mul32 fs.apb fs.apb) fs.apb ∧ i.triplyLinked ≠ 0 then
          readLinked fs i.triplyLinked idx 2
        else pure (1, [])

end Functions

/-! ### A volume with blocks of two kinds -/

section TwoTone

variable [Monad m] [LawfulMonad m]

theorem mul32_eq {x y : ℕ} (h : x * y < 2 ^ 32) : mul32 x y = x * y := Nat.mod_eq_of_lt h

theorem readBlockLoop_replicate (fs : Fs m) {offs : List ℕ} {v : ℕ} (data : List ℕ)
    (h : ∀ off ∈ offs, fs.dev fs.devBlockSize off = pure (0, List.replicate fs.devBlockSize v)) :
    readBlockLoop fs offs data =
      pure (0, data ++ List.replicate (offs.length * fs.devBlockSize) v) := by
  induction offs generalizing data with
  | nil => simp [readBlockLoop]
  | cons off offs ih =>
    rw [readBlockLoop, h off mem_cons_self, pure_bind]
    simp only [ne_eq, not_true_eq_false, if_false]
    rw [ih _ fun x hx => h x (mem_cons_of_mem _ hx), append_assoc,
      ← replicate_add, length_cons, Nat.succ_mul, Nat.add_comm fs.devBlockSize]

theorem blkptr_replicate {n v k : ℕ} (hk : 4 * k + 3 < n) :
    blkptr (List.replicate n v) k = v * 0x01010101 := by
  have hget : ∀ j < 4, (List.replicate n v).getD (4 * k + j) 0 = v := by
    intro j hj
    rw [getD_eq_getElem?_getD, getElem?_replicate, if_pos (by omega)]
    rfl
  have h0 := hget 0 (by decide)
  rw [Nat.add_zero] at h0
  rw [blkptr, h0, hget 1 (by decide), hget 2 (by decide), hget 3 (by decide)]
  omega

/-- The pointer that a block of twos is full of. -/
def twos : ℕ := 0x02020202

/-- The device: the bytes of block 1 are ones, all others are twos. -/
def twoToneFs (m : Type → Type) [Monad m] (bs : ℕ) : Fs m where
  dev bytes off := pure (0, List.replicate bytes (if off / bs = 1 then 1 else 2))
  devBlockSize := 512
  blockSize := bs

/-- The file: its first block is block 1, all other pointers are `twos`. -/
def twoToneInode (size : ℕ) : Inode where
  bytesLsb := size
  dirBlocks i := if i = 0 then 1 else twos
  singlyLinked := twos
  doublyLinked := twos
  triplyLinked := twos
  rest _ := 0

variable {e : ℕ}

section

variable (he : 10 ≤ e)
include he

theorem readBlock_twoTone {b q v : ℕ} (hb : mul32 b (2 ^ e) = q * 2 ^ e)
    (hend : q * 2 ^ e + 2 ^ e ≤ 2 ^ 32) (hv : (if q = 1 then 1 else 2) = v) :
    readBlock (twoToneFs m (2 ^ e)) b = pure (0, List.replicate (2 ^ e) v) := by
  have hpos : 0 < 2 ^ e := Nat.two_pow_pos e
  have hsize : 2 ^ e / 512 * 512 = 2 ^ e :=
    Nat.div_mul_cancel (Nat.pow_dvd_pow 2 (show 9 ≤ e by omega))
  have hread : ∀ off ∈ (List.range (2 ^ e / 512)).map fun i =>
      add32 (mul32 b (2 ^ e)) (i * 512),
      (twoToneFs m (2 ^ e)).dev 512 off = pure (0, List.replicate 512 v) := by
    intro off hoff
    obtain ⟨i, hi, rfl⟩ := mem_map.mp hoff
    rw [mem_range] at hi
    have hlt : i * 512 < 2 ^ e := by omega
    have hdiv : add32 (mul32 b (2 ^ e)) (i * 512) / 2 ^ e = q := by
      rw [hb, add32_eq (by omega), Nat.mul_comm, Nat.mul_add_div hpos, Nat.div_eq_of_lt hlt,
        Nat.add_zero]
    simp only [twoToneFs, hdiv, hv]
  have hloop := readBlockLoop_replicate (twoToneFs m (2 ^ e)) [] hread
  rw [length_map, length_range, nil_append] at hloop
  exact hloop.trans (by rw [show (twoToneFs m (2 ^ e)).devBlockSize = 512 from rfl, hsize])

theorem readBlock_one (he' : e ≤ 30) :
    readBlock (twoToneFs m (2 ^ e)) 1 = pure (0, List.replicate (2 ^ e) 1) := by
  have hpow : 2 ^ e ≤ 2 ^ 30 := Nat.pow_le_pow_right (by decide) he'
  refine readBlock_twoTone (q := 1) he ?_ (by omega) rfl
  exact mul32_eq (by omega)

theorem readBlock_twos (he' : e ≤ 30) :
    readBlock (twoToneFs m (2 ^ e)) twos = pure (0, List.replicate (2 ^ e) 2) := by
  have hsplit : 2 ^ 32 = 2 ^ (32 - e) * 2 ^ e := by
    rw [← Nat.pow_add]
    congr 1
    omega
  have hmod : mul32 twos (2 ^ e) = twos % 2 ^ (32 - e) * 2 ^ e := by
    rw [mul32, hsplit, Nat.mul_mod_mul_right]
  refine readBlock_twoTone he hmod ?_ (if_neg ?_)
  · have hlt := Nat.mod_lt twos (Nat.two_pow_pos (32 - e))
    have := Nat.mul_le_mul_right (2 ^ e) (Nat.succ_le_of_lt hlt)
    rw [Nat.succ_mul] at this
    exact this.trans hsplit.ge
  · -- the block number is even
    obtain ⟨k, hk⟩ : 2 ∣ 2 ^ (32 - e) := Nat.pow_dvd_pow 2 (show 1 ≤ 32 - e by omega)
    have hdiv := Nat.div_add_mod twos (2 ^ (32 - e))
    rw [hk, Nat.mul_assoc] at hdiv
    intro hone
    rw [hk] at hone
    rw [hone, twos] at hdiv
    omega

theorem readIndirect_twos (he' : e ≤ 30) {idx depth : ℕ} (hdepth : depth ≤ 2)
    (hidx : depth = 2 → idx / mul32 (2 ^ e / 4) (2 ^ e / 4) %
      mul32 (2 ^ e / 4) (2 ^ e / 4) < 2 ^ e / 4) :
    readIndirect (twoToneFs m (2 ^ e)) idx depth (List.replicate (2 ^ e) 2) =
      pure (0, List.replicate (2 ^ e) 2) := by
  have hapb : (twoToneFs m (2 ^ e)).apb = 2 ^ e / 4 := rfl
  have hpos : 0 < 2 ^ e / 4 :=
    Nat.div_pos (Nat.pow_le_pow_right (show 0 < 2 by decide) (show 2 ≤ e by omega)) (by decide)
  have hptr : ∀ k < 2 ^ e / 4, blkptr (List.replicate (2 ^ e) 2) k = twos := fun k hk =>
    blkptr_replicate (by omega)
  induction depth with
  | zero =>
    rw [readIndirect, hapb, hptr _ (Nat.mod_lt _ hpos)]
    exact readBlock_twos he he'
  | succ depth ih =>
    have hcur : (if depth = 0 then idx / (2 ^ e / 4) % (2 ^ e / 4) else
        idx / mul32 (2 ^ e / 4) (2 ^ e / 4) % mul32 (2 ^ e / 4) (2 ^ e / 4)) < 2 ^ e / 4 := by
      split
      · exact Nat.mod_lt _ hpos
      · exact hidx (by omega)
    rw [readIndirect, hapb, hptr _ hcur, readBlock_twos he he', pure_bind]
    exact ih (by omega) fun h => by omega

theorem readLinked_twos (he' : e ≤ 30) {idx depth : ℕ} (hdepth : depth ≤ 2)
    (hidx : depth = 2 → idx / mul32 (2 ^ e / 4) (2 ^ e / 4) %
      mul32 (2 ^ e / 4) (2 ^ e / 4) < 2 ^ e / 4) :
    readLinked (twoToneFs m (2 ^ e)) twos idx depth = pure (0, List.replicate (2 ^ e) 2) := by
  rw [readLinked, readBlock_twos he he', pure_bind]
  exact readIndirect_twos he he' hdepth hidx

theorem readIBlock_zero (he' : e ≤ 30) (size : ℕ) :
    readIBlock (twoToneFs m (2 ^ e)) (twoToneInode size) 0 =
      pure (0, List.replicate (2 ^ e) 1) :=
  readBlock_one he he'

theorem readIBlock_twoTone (he' : e ≤ 30) (size : ℕ) {i : ℕ} (hpos : 0 < i)
    (hlt : i * 2 ^ e < 2 ^ 32) :
    readIBlock (twoToneFs m (2 ^ e)) (twoToneInode size) i =
      pure (0, List.replicate (2 ^ e) 2) := by
  have hapb : (twoToneFs m (2 ^ e)).apb = 2 ^ e / 4 := rfl
  have htwos : twos ≠ 0 := by decide
  rw [readIBlock, hapb]
  by_cases hdir : i < 12
  · have hblock : (twoToneInode size).dirBlock i = twos := by
      rw [Inode.dirBlock, dif_pos hdir]
      exact if_neg fun h => hpos.ne' (congrArg Fin.val h)
    rw [hblock, if_pos htwos]
    exact readBlock_twos he he'
  rw [Inode.dirBlock, dif_neg hdir, if_neg (not_not.mpr rfl)]
  -- there are `a ≥ 256` pointers in a block, and fewer than `2^30 / a` blocks in the file
  obtain ⟨a, ha⟩ : ∃ a, 2 ^ e / 4 = a := ⟨_, rfl⟩
  have hfour : 4 ∣ 2 ^ e := Nat.pow_dvd_pow 2 (show 2 ≤ e by omega)
  have hbs : 2 ^ e = 4 * a := by omega
  have hmin : 256 ≤ a := by
    have : 2 ^ 10 ≤ 2 ^ e := Nat.pow_le_pow_right (by decide) he
    omega
  have hia : i * a < 2 ^ 30 := by
    rw [hbs, Nat.mul_left_comm] at hlt
    omega
  have hi : i < 2 ^ 32 := (Nat.le_mul_of_pos_right i (by omega)).trans_lt (hia.trans (by decide))
  have hlinked : ∀ {idx depth}, depth ≤ 2 → (depth = 2 → idx / mul32 a a % mul32 a a < a) →
      readLinked (twoToneFs m (2 ^ e)) twos idx depth = pure (0, List.replicate (2 ^ e) 2) :=
    fun hdepth hidx => readLinked_twos he he' hdepth (by rw [ha]; exact hidx)
  have hidx1 : sub32 i 12 = i - 12 := sub32_eq hi (by omega)
  simp only [ha, hidx1]
  by_cases h1 : i - 12 < a
  · rw [if_pos ⟨h1, htwos⟩]
    exact hlinked (by decide) (by simp)
  rw [if_neg fun h => h1 h.1]
  have haa : a * a < 2 ^ 30 := (Nat.mul_le_mul_right a (by omega)).trans_lt hia
  have hmul2 : mul32 a a = a * a := mul32_eq (by omega)
  have hidx2 : sub32 (i - 12) a = i - 12 - a := sub32_eq (by omega) (by omega)
  simp only [hmul2, hidx2] at hlinked ⊢
  by_cases h2 : i - 12 - a < a * a
  · rw [if_pos ⟨h2, htwos⟩]
    exact hlinked (by decide) (by simp)
  rw [if_neg fun h => h2 h.1]
  have haaa : a * a * a < 2 ^ 30 := (Nat.mul_le_mul_right a (by omega)).trans_lt hia
  have hmul3 : mul32 (a * a) a = a * a * a := mul32_eq (by omega)
  have hidx3 : sub32 (i - 12 - a) (a * a) = i - 12 - a - a * a := sub32_eq (by omega) (by omega)
  have h3 : i - 12 - a - a * a < a * a * a := by
    by_contra hge
    have hle : a * a * a * a ≤ i * a := Nat.mul_le_mul_right a (by omega)
    have h256 : 256 * 256 * 256 * 256 ≤ a * a * a * a :=
      Nat.mul_le_mul (Nat.mul_le_mul (Nat.mul_le_mul hmin hmin) hmin) hmin
    omega
  simp only [hmul3, hidx3]
  rw [if_pos ⟨h3, htwos⟩]
  exact hlinked le_rfl fun _ => (Nat.mod_le _ _).trans_lt (Nat.div_lt_of_lt_mul h3)

end

end TwoTone

end Ext2
