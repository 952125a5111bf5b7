/-
Reading an ext2 file (`ext2_read` and `ext2_read_at` of `fs/ext2/ext2.c`).

Both functions copy the file block by block.  The loop takes file block
`bytes_read / block_size`, whatever the offset is, and starts in every block at
`offset % block_size`.

* `ext2ReadAt`, `ext2Read`, `readSeq` — the functions of the source, and
  successive reads of one open file;
* `readFrom_eq` — what the loop copies;
* `ext2_reads_iff` — for which file sizes, offsets and lengths this is the
  contents of the file, for one read and for a sequence of reads;
* `ext2_read_at_first_block` — a read at the second block that delivers the first.
-/
import Minima.Blocks
import Minima.Ext2Blocks
import Mathlib.Algebra.Group.Int.Defs

namespace Ext2

open Blocks List

variable {m : Type → Type} {B : ℕ → List ℕ}

/-! ### The functions of the source -/

/-- A 32-bit word as an `ssize_t`. -/
def toSsize (x : ℕ) : ℤ := if x < 2 ^ 31 then x else x - 2 ^ 32

/-- An `ssize_t` as a 32-bit word. -/
def ofSsize (x : ℤ) : ℕ := (x % 2 ^ 32).toNat

/-- The bytes that `memcpy(dst, block + off, count)` stores: `none` for a byte
that lies outside the block. -/
def memcpy (block : List ℕ) (off count : ℕ) : List (Option ℕ) :=
  (List.range count).map fun k => block[off + k]?

/-- What a read has done when it returns. -/
structure Got where
  ret : ℤ
  stored : List (Option ℕ)
  freed : Bool
deriving DecidableEq

section Functions

variable [Monad m] (fs : Fs m) (inode : Inode)

/-- The loop of both reads; an error of `read_i_block` leaves it at once,
without `kfree(block)`. -/
def readLoop (off : ℕ) (toRead : ℤ) : ℕ → ℤ → List (Option ℕ) → ExceptT Fault m Got
  | 0, _, _ => throw .diverged
  | fuel + 1, bytesRead, buf => do
    let blkIdx := (bytesRead / fs.blockSize).toNat
    let (ret, block) ← (readIBlock fs inode blkIdx : m (ℤ × List ℕ))
    if ret ≠ 0 then pure ⟨ret, buf, false⟩
    else
      let blkBytes := min (toRead - bytesRead) fs.blockSize
      let blkOffset := off % fs.blockSize
      let buf := buf ++ memcpy block blkOffset (ofSsize blkBytes)
      let bytesRead := bytesRead + blkBytes
      if bytesRead < toRead then readLoop off toRead fuel bytesRead buf
      else pure ⟨bytesRead, buf, true⟩

/-- The common body of the two reads. -/
def readFrom (bytes off : ℕ) : ExceptT Fault m Got :=
  let remain := sub32 inode.bytesLsb off
  let toRead := toSsize (min bytes remain)
  readLoop fs inode off toRead (toRead.toNat + 1) 0 []

/-- `ext2_read_at` -/
def ext2ReadAt (bytes off : ℕ) : ExceptT Fault m Got := readFrom fs inode bytes off

/-- `ext2_read`, with the offset of the file before and after. -/
def ext2Read (offset bytes : ℕ) : ExceptT Fault m (Got × ℕ) := do
  let got ← readFrom fs inode bytes offset
  pure (got, if got.freed then add32 offset (ofSsize got.ret) else offset)

/-- Successive calls of `ext2_read` on one file. -/
def readSeq : ℕ → List ℕ → ExceptT Fault m (List Got)
  | _, [] => pure []
  | offset, n :: ns => do
    let (got, offset) ← ext2Read fs inode offset n
    let gots ← readSeq offset ns
    pure (got :: gots)

end Functions

/-! ### The contents of a file -/

section Content

variable [Monad m] {fs : Fs m} {inode : Inode}

/-- The data blocks of the file are `B 0`, `B 1`, ...: `read_i_block` returns
them, each one a full block. -/
structure Holds (fs : Fs m) (inode : Inode) (B : ℕ → List ℕ) : Prop where
  reads : ∀ i, i * fs.blockSize < inode.bytesLsb → readIBlock fs inode i = pure (0, B i)
  full : ∀ i, i * fs.blockSize < inode.bytesLsb → (B i).length = fs.blockSize

/-- The first `bytes_lsb` bytes of the data blocks. -/
def content (fs : Fs m) (inode : Inode) (B : ℕ → List ℕ) : List ℕ :=
  (concat B ((inode.bytesLsb + fs.blockSize - 1) / fs.blockSize)).take inode.bytesLsb

theorem le_ceil_mul {size bs : ℕ} (hbs : 0 < bs) : size ≤ (size + bs - 1) / bs * bs := by
  have hdiv := Nat.div_add_mod (size + bs - 1) bs
  have hmod := Nat.mod_lt (size + bs - 1) hbs
  rw [Nat.mul_comm] at hdiv
  omega

section

variable (h : Holds fs inode B) (hbs : 0 < fs.blockSize)
include h hbs

theorem Holds.full_of_lt :
    ∀ i < (inode.bytesLsb + fs.blockSize - 1) / fs.blockSize, (B i).length = fs.blockSize := by
  intro i hi
  refine h.full i ?_
  have hle := (Nat.le_div_iff_mul_le hbs).mp (Nat.succ_le_of_lt hi)
  rw [Nat.succ_mul] at hle
  omega

theorem Holds.length_content :
    (content fs inode B).length = inode.bytesLsb := by
  rw [content, length_take, length_concat (h.full_of_lt hbs),
    Nat.min_eq_left (le_ceil_mul hbs)]

theorem Holds.getElem?_content {p : ℕ} (hp : p < inode.bytesLsb) :
    (content fs inode B)[p]? = (B (p / fs.blockSize))[p % fs.blockSize]? := by
  rw [content, getElem?_take, if_pos hp,
    getElem?_concat (h.full_of_lt hbs) (hp.trans_le (le_ceil_mul hbs))]

end

end Content

/-! ### What the loop copies -/

/-- The bytes that the loop has stored after `count` bytes, with `r` for the
offset in a block. -/
def copied (B : ℕ → List ℕ) (bs r count : ℕ) : List (Option ℕ) :=
  (List.range count).map fun p => (B (p / bs))[r + p % bs]?

theorem copied_add {bs k c : ℕ} (r : ℕ) (hbs : 0 < bs) (hc : c ≤ bs) :
    copied B bs r (k * bs + c) = copied B bs r (k * bs) ++ memcpy (B k) r c := by
  rw [copied, range_add, map_append, map_map]
  congr 1
  refine map_congr_left fun p hp => ?_
  have hlt : p < bs := (mem_range.mp hp).trans_le hc
  simp only [Function.comp_apply]
  rw [Nat.mul_comm k bs, Nat.mul_add_div hbs, Nat.mul_add_mod, Nat.div_eq_of_lt hlt,
    Nat.mod_eq_of_lt hlt, Nat.add_zero]

theorem ofSsize_natCast {x : ℕ} (hx : x < 2 ^ 32) : ofSsize x = x := by
  rw [ofSsize]
  omega

section Loop

variable [Monad m] {fs : Fs m} {inode : Inode} {o n : ℕ}

/-- **Which reads deliver the contents**, for the blocks of one file: byte `k`
comes from block `k / block_size`, and belongs to block `(o + k) / block_size`. -/
theorem copied_eq_iff (h : Holds fs inode B) (hbs : 0 < fs.blockSize) (ho : o ≤ inode.bytesLsb) :
    copied B fs.blockSize (o % fs.blockSize) (min n (inode.bytesLsb - o)) =
        (((content fs inode B).drop o).take n).map some ↔
      ∀ k < min n (inode.bytesLsb - o),
        (B (k / fs.blockSize))[o % fs.blockSize + k % fs.blockSize]? =
          (B ((o + k) / fs.blockSize))[(o + k) % fs.blockSize]? := by
  have hlen := h.length_content hbs
  have hbyte : ∀ k < min n (inode.bytesLsb - o),
      ((((content fs inode B).drop o).take n).map some)[k]? =
        some ((B ((o + k) / fs.blockSize))[(o + k) % fs.blockSize]?) := by
    intro k hk
    have hlt : o + k < (content fs inode B).length := by omega
    rw [getElem?_map, getElem?_take, if_pos (by omega), getElem?_drop,
      ← h.getElem?_content hbs (by omega), getElem?_eq_getElem hlt]
    rfl
  have hcopied : ∀ k < min n (inode.bytesLsb - o),
      (copied B fs.blockSize (o % fs.blockSize) (min n (inode.bytesLsb - o)))[k]? =
        some ((B (k / fs.blockSize))[o % fs.blockSize + k % fs.blockSize]?) := by
    intro k hk
    rw [copied, getElem?_map, getElem?_range hk]
    rfl
  constructor
  · intro heq k hk
    have hk' := hbyte k hk
    rw [← heq, hcopied k hk] at hk'
    exact Option.some.inj hk'
  · intro hall
    refine ext_getElem? fun k => ?_
    by_cases hk : k < min n (inode.bytesLsb - o)
    · rw [hbyte k hk, hcopied k hk, hall k hk]
    · rw [getElem?_eq_none (by simp [copied]; omega),
        getElem?_eq_none (by simp [hlen]; omega)]

variable [LawfulMonad m]

theorem readLoop_succ {off fuel : ℕ} {toRead bytesRead : ℤ} {block : List ℕ}
    {buf : List (Option ℕ)}
    (h : readIBlock fs inode (bytesRead / fs.blockSize).toNat = pure (0, block)) :
    readLoop fs inode off toRead (fuel + 1) bytesRead buf =
      let blkBytes := min (toRead - bytesRead) fs.blockSize
      let buf := buf ++ memcpy block (off % fs.blockSize) (ofSsize blkBytes)
      if bytesRead + blkBytes < toRead then
        readLoop fs inode off toRead fuel (bytesRead + blkBytes) buf
      else pure ⟨bytesRead + blkBytes, buf, true⟩ := by
  rw [readLoop, h, liftM_pure, pure_bind]
  simp only [ne_eq, not_true_eq_false, if_false]

theorem readLoop_eq (h : Holds fs inode B) (hbs : 0 < fs.blockSize) (hbs' : fs.blockSize < 2 ^ 31)
    (off : ℕ) {count : ℕ} (hpos : 0 < inode.bytesLsb) (hcount : count ≤ inode.bytesLsb) {fuel k : ℕ}
    (hk : k = 0 ∨ k * fs.blockSize < count) (hfuel : count - k * fs.blockSize < fuel) :
    readLoop fs inode off count fuel (k * fs.blockSize : ℕ)
        (copied B fs.blockSize (off % fs.blockSize) (k * fs.blockSize)) =
      pure ⟨count, copied B fs.blockSize (off % fs.blockSize) count, true⟩ := by
  induction fuel generalizing k with
  | zero => omega
  | succ fuel ih =>
    have hread : k * fs.blockSize < inode.bytesLsb := by
      rcases hk with rfl | hk <;> omega
    have hidx : ((k * fs.blockSize : ℕ) / (fs.blockSize : ℤ)).toNat = k := by
      rw [← Int.natCast_ediv, Int.toNat_natCast, Nat.mul_div_cancel k hbs]
    have hle : k * fs.blockSize ≤ count := by
      rcases hk with rfl | hk <;> omega
    obtain ⟨c, rfl⟩ := Nat.exists_eq_add_of_le hle
    rw [readLoop_succ (by rw [hidx]; exact h.reads k hread)]
    have hbytes : min (((k * fs.blockSize + c : ℕ) : ℤ) - (k * fs.blockSize : ℕ))
        (fs.blockSize : ℤ) = (min c fs.blockSize : ℕ) := by
      omega
    have hadd := copied_add (B := B) (k := k) (off % fs.blockSize) hbs
      (Nat.min_le_right c fs.blockSize)
    simp only [hbytes, ofSsize_natCast (show min c fs.blockSize < 2 ^ 32 by omega), ← hadd,
      ← Int.natCast_add, Int.ofNat_lt]
    by_cases hlast : c ≤ fs.blockSize
    · -- the rest of the read is in this round
      rw [Nat.min_eq_left hlast, if_neg (Nat.lt_irrefl _)]
    · have hmin : min c fs.blockSize = fs.blockSize := Nat.min_eq_right (by omega)
      rw [hmin, if_pos (by omega)]
      have hnext : k * fs.blockSize + fs.blockSize = (k + 1) * fs.blockSize :=
        (Nat.succ_mul k fs.blockSize).symm
      rw [hnext]
      exact ih (.inr (by omega)) (by omega)

theorem readFrom_eq (h : Holds fs inode B) (hbs : 0 < fs.blockSize) (hbs' : fs.blockSize < 2 ^ 31)
    (hsize : inode.bytesLsb < 2 ^ 32) (hpos : 0 < inode.bytesLsb) (ho : o ≤ inode.bytesLsb)
    (hn : min n (inode.bytesLsb - o) < 2 ^ 31) :
    readFrom fs inode n o = pure ⟨(min n (inode.bytesLsb - o) : ℕ),
      copied B fs.blockSize (o % fs.blockSize) (min n (inode.bytesLsb - o)), true⟩ := by
  have hto : toSsize (min n (sub32 inode.bytesLsb o)) = (min n (inode.bytesLsb - o) : ℕ) := by
    rw [sub32_eq hsize ho, toSsize, if_pos hn]
  rw [readFrom]
  simp only [hto, Int.toNat_natCast]
  have hloop := readLoop_eq h hbs hbs' o hpos
    ((Nat.min_le_right n _).trans (Nat.sub_le inode.bytesLsb o)) (.inl rfl)
    (Nat.lt_succ_of_le (Nat.sub_le _ _))
  rw [Nat.zero_mul] at hloop
  exact hloop

theorem readFrom_neg (h : Holds fs inode B) (hsize : inode.bytesLsb < 2 ^ 32)
    (ho : o ≤ inode.bytesLsb) (hn : 2 ^ 31 ≤ min n (inode.bytesLsb - o)) :
    ∃ stored, readFrom fs inode n o =
      pure ⟨(min n (inode.bytesLsb - o) : ℕ) - 2 ^ 32, stored, true⟩ := by
  obtain ⟨count, hcount⟩ : ∃ count, min n (inode.bytesLsb - o) = count := ⟨_, rfl⟩
  have hto : toSsize (min n (sub32 inode.bytesLsb o)) = (count : ℤ) - 2 ^ 32 := by
    rw [sub32_eq hsize ho, hcount, toSsize, if_neg (by omega)]
  have hfirst : readIBlock fs inode ((0 : ℤ) / fs.blockSize).toNat = pure (0, B 0) := by
    rw [Int.zero_ediv]
    exact h.reads 0 (by omega)
  rw [hcount, readFrom]
  simp only [hto]
  rw [readLoop_succ hfirst]
  have hbytes : min ((count : ℤ) - 2 ^ 32 - 0) (fs.blockSize : ℤ) = count - 2 ^ 32 := by omega
  simp only [hbytes, Int.zero_add, Int.lt_irrefl, if_false]
  exact ⟨_, rfl⟩

theorem ext2Read_eq (h : Holds fs inode B) (hbs : 0 < fs.blockSize) (hbs' : fs.blockSize < 2 ^ 31)
    (hsize : inode.bytesLsb < 2 ^ 32) (hpos : 0 < inode.bytesLsb) (ho : o ≤ inode.bytesLsb)
    (hn : min n (inode.bytesLsb - o) < 2 ^ 31) :
    ext2Read fs inode o n = pure (⟨(min n (inode.bytesLsb - o) : ℕ),
      copied B fs.blockSize (o % fs.blockSize) (min n (inode.bytesLsb - o)), true⟩,
      o + min n (inode.bytesLsb - o)) := by
  rw [ext2Read, readFrom_eq h hbs hbs' hsize hpos ho hn, pure_bind]
  simp only [if_true]
  rw [ofSsize_natCast (by omega), add32_eq (by omega)]

end Loop

/-! ### Which reads return the contents of the file -/

/-- `ext2_read_at(file, buf, n, o)` is right on every volume with blocks of
`2^e` bytes and every file of `size` bytes on it. -/
def ReadsAt (e size o n : ℕ) : Prop :=
  ∀ (fs : Fs Id) (inode : Inode) (B : ℕ → List ℕ), fs.blockSize = 2 ^ e →
    inode.bytesLsb = size → Holds fs inode B →
    ∃ got, ext2ReadAt fs inode n o = pure got ∧ got.ret = (min n (size - o) : ℕ) ∧
      got.stored = (((content fs inode B).drop o).take n).map some

/-- The reads of sizes `ns` return consecutive slices of `c`, from `o` on. -/
def Consecutive (c : List ℕ) : ℕ → List ℕ → List Got → Prop
  | _, [], [] => True
  | o, n :: ns, got :: gots =>
    got.ret = (min n (c.length - o) : ℕ) ∧ got.stored = ((c.drop o).take n).map some ∧
      Consecutive c (o + min n (c.length - o)) ns gots
  | _, _, _ => False

/-- Successive calls of `ext2_read` from offset `o` on are right on every such
volume. -/
def ReadsFrom (e size o : ℕ) (ns : List ℕ) : Prop :=
  ∀ (fs : Fs Id) (inode : Inode) (B : ℕ → List ℕ), fs.blockSize = 2 ^ e →
    inode.bytesLsb = size → Holds fs inode B →
    ∃ gots, readSeq fs inode o ns = pure gots ∧ Consecutive (content fs inode B) o ns gots ∧
      gots.flatMap Got.stored <+: ((content fs inode B).drop o).map some

/-- The file is not empty, the number of bytes to read is an `ssize_t`, and the
read starts at the start of the file or ends within its first block. -/
def Fits (e size o n : ℕ) : Prop :=
  0 < size ∧ min n (size - o) < 2 ^ 31 ∧
    (min n (size - o) = 0 ∨ o = 0 ∨ o + min n (size - o) ≤ 2 ^ e)

/-- Each of the successive reads fits, at its own offset. -/
def FitsAll (e size : ℕ) : ℕ → List ℕ → Prop
  | _, [] => True
  | o, n :: ns => Fits e size o n ∧ FitsAll e size (o + min n (size - o)) ns

theorem Consecutive.isSlice {c : List ℕ} {o : ℕ} {ns : List ℕ} {gots : List Got}
    (h : Consecutive c o ns gots) : gots.flatMap Got.stored <+: (c.drop o).map some := by
  induction ns generalizing o gots with
  | nil =>
    cases gots with
    | nil => exact nil_prefix
    | cons got gots => exact h.elim
  | cons n ns ih =>
    cases gots with
    | nil => exact h.elim
    | cons got gots =>
      obtain ⟨-, hstored, hrest⟩ := h
      obtain ⟨rest, hrest⟩ := ih hrest
      refine ⟨rest, ?_⟩
      rw [flatMap_cons, append_assoc, hrest, hstored, ← map_append,
        ← drop_drop]
      congr 1
      rw [← length_drop, take_eq_take_min]
      exact take_append_drop _ _

section Volumes

variable {e size o n : ℕ} {fs : Fs Id} {inode : Inode}

theorem pure_inj {α : Type} {a b : α} (h : (pure a : ExceptT Fault Id α) = pure b) : a = b :=
  Except.ok.inj h

theorem bind_eq_pure {α β : Type} {x : ExceptT Fault Id α} {f : α → ExceptT Fault Id β} {b : β}
    (h : x >>= f = pure b) : ∃ a, x = pure a ∧ f a = pure b := by
  cases hx : (show Except Fault α from x) with
  | error fault =>
    obtain rfl : x = throw fault := hx
    exact nomatch h
  | ok a =>
    obtain rfl : x = pure a := hx
    exact ⟨a, rfl, by rwa [pure_bind] at h⟩

/-- A file with no blocks. -/
def noBlocks : Inode where
  bytesLsb := 0
  dirBlocks _ := 0
  singlyLinked := 0
  doublyLinked := 0
  triplyLinked := 0
  rest _ := 0

theorem readFrom_noBlocks (n : ℕ) : readFrom fs noBlocks n 0 = pure ⟨1, [], false⟩ := by
  have hblock : readIBlock fs noBlocks 0 = pure (1, []) := by
    simp [readIBlock, Inode.dirBlock, noBlocks]
  simp [readFrom, readLoop, hblock]

/-- The blocks of the file with blocks of two kinds. -/
def twoToneBlocks (e i : ℕ) : List ℕ := List.replicate (2 ^ e) (if i = 0 then 1 else 2)

theorem holds_twoTone (he : 10 ≤ e) (he' : e ≤ 30) (hsize : size < 2 ^ 32) :
    Holds (twoToneFs Id (2 ^ e)) (twoToneInode size) (twoToneBlocks e) where
  reads i hi := by
    rcases Nat.eq_zero_or_pos i with rfl | hpos
    · exact readIBlock_zero he he' size
    · rw [readIBlock_twoTone he he' size hpos (hi.trans hsize), twoToneBlocks, if_neg hpos.ne']
  full i _ := length_replicate

theorem ReadsAt.fits (he : 10 ≤ e) (he' : e ≤ 30) (hsize : size < 2 ^ 32) (ho : o ≤ size)
    (h : ReadsAt e size o n) : Fits e size o n := by
  have hbs : 0 < 2 ^ e := Nat.two_pow_pos e
  have hbs' : 2 ^ e < 2 ^ 31 := Nat.pow_lt_pow_right (by decide) (by omega)
  have hpos : 0 < size := by
    by_contra hzero
    obtain rfl : size = 0 := by omega
    obtain rfl : o = 0 := by omega
    obtain ⟨got, hgot, hret, -⟩ := h (twoToneFs Id (2 ^ e)) noBlocks (fun _ => []) rfl rfl
      ⟨fun i hi => absurd hi (Nat.not_lt_zero _), fun i hi => absurd hi (Nat.not_lt_zero _)⟩
    obtain rfl := pure_inj ((readFrom_noBlocks n).symm.trans hgot)
    simp at hret
  -- on the volume with two kinds of blocks a byte of a wrong block is seen
  have hholds := holds_twoTone he he' hsize
  obtain ⟨got, hgot, hret, hstored⟩ := h _ _ _ rfl rfl hholds
  have hlt : min n (size - o) < 2 ^ 31 := by
    by_contra hge
    obtain ⟨stored, hneg⟩ := readFrom_neg hholds hsize ho (Nat.le_of_not_lt hge)
    obtain rfl := pure_inj (hneg.symm.trans hgot)
    have hret : ((min n (size - o) : ℕ) : ℤ) - 2 ^ 32 = (min n (size - o) : ℕ) := hret
    omega
  refine ⟨hpos, hlt, ?_⟩
  obtain rfl := pure_inj ((readFrom_eq hholds hbs hbs' hsize hpos ho hlt).symm.trans hgot)
  have hall := (copied_eq_iff hholds hbs ho).mp hstored
  by_contra hnot
  by_cases hfirst : o < 2 ^ e
  · -- the copy runs over the end of the first block
    have hbad : (twoToneBlocks e ((2 ^ e - o) / 2 ^ e))[o % 2 ^ e + (2 ^ e - o) % 2 ^ e]? =
        (twoToneBlocks e ((o + (2 ^ e - o)) / 2 ^ e))[(o + (2 ^ e - o)) % 2 ^ e]? :=
      hall (2 ^ e - o) (show 2 ^ e - o < min n (size - o) by omega)
    rw [Nat.mod_eq_of_lt hfirst, Nat.mod_eq_of_lt (show 2 ^ e - o < 2 ^ e by omega),
      Nat.add_sub_of_le hfirst.le, Nat.mod_self] at hbad
    simp [twoToneBlocks] at hbad
  · -- the copy starts in the first block, the slice in a later one
    have hbad : (twoToneBlocks e (0 / 2 ^ e))[o % 2 ^ e + 0 % 2 ^ e]? =
        (twoToneBlocks e ((o + 0) / 2 ^ e))[(o + 0) % 2 ^ e]? :=
      hall 0 (show 0 < min n (size - o) by omega)
    have hblock : o / 2 ^ e ≠ 0 := (Nat.div_pos (by omega) hbs).ne'
    simp [twoToneBlocks, hblock, Nat.mod_lt o hbs] at hbad

theorem Fits.readsAt (he' : e ≤ 30) (hsize : size < 2 ^ 32) (ho : o ≤ size)
    (h : Fits e size o n) : ReadsAt e size o n := by
  intro fs inode B hfs hinode hholds
  obtain ⟨hpos, hlt, hfits⟩ := h
  subst hinode
  have hbs : 0 < fs.blockSize := hfs ▸ Nat.two_pow_pos e
  have hbs' : fs.blockSize < 2 ^ 31 := hfs ▸ Nat.pow_lt_pow_right (by decide) (by omega)
  refine ⟨_, readFrom_eq hholds hbs hbs' hsize hpos ho hlt, rfl,
    (copied_eq_iff hholds hbs ho).mpr fun k hk => ?_⟩
  rcases hfits with hzero | rfl | hend
  · omega
  · rw [Nat.zero_mod, Nat.zero_add, Nat.zero_add]
  · have hlast : o + k < fs.blockSize := by omega
    rw [Nat.div_eq_of_lt hlast, Nat.mod_eq_of_lt hlast, Nat.div_eq_of_lt (show k < _ by omega),
      Nat.mod_eq_of_lt (show k < _ by omega), Nat.mod_eq_of_lt (show o < _ by omega)]

theorem readsAt_iff (he : 10 ≤ e) (he' : e ≤ 30) (hsize : size < 2 ^ 32) (ho : o ≤ size) :
    ReadsAt e size o n ↔ Fits e size o n :=
  ⟨ReadsAt.fits he he' hsize ho, Fits.readsAt he' hsize ho⟩

theorem ext2ReadAt_of_readSeq {ns : List ℕ} {gots : List Got}
    (h : readSeq fs inode o (n :: ns) = pure gots) :
    ∃ got rest, gots = got :: rest ∧ ext2ReadAt fs inode n o = pure got := by
  obtain ⟨⟨got, offset⟩, hread, hseq⟩ := bind_eq_pure h
  obtain ⟨rest, -, hpure⟩ := bind_eq_pure hseq
  obtain ⟨got', hgot, hpair⟩ := bind_eq_pure hread
  obtain rfl : got' = got := congrArg Prod.fst (pure_inj hpair)
  exact ⟨got', rest, (pure_inj hpure).symm, hgot⟩

theorem Fits.readSeq_cons (he' : e ≤ 30) (hfs : fs.blockSize = 2 ^ e)
    (hsize : inode.bytesLsb < 2 ^ 32) (hholds : Holds fs inode B) (ho : o ≤ inode.bytesLsb)
    (h : Fits e inode.bytesLsb o n) :
    ∃ got, ext2ReadAt fs inode n o = pure got ∧ ∀ ns, readSeq fs inode o (n :: ns) =
      readSeq fs inode (o + min n (inode.bytesLsb - o)) ns >>= fun gots => pure (got :: gots) := by
  have hbs : 0 < fs.blockSize := hfs ▸ Nat.two_pow_pos e
  have hbs' : fs.blockSize < 2 ^ 31 := hfs ▸ Nat.pow_lt_pow_right (by decide) (by omega)
  refine ⟨_, readFrom_eq hholds hbs hbs' hsize h.1 ho h.2.1, fun ns => ?_⟩
  rw [readSeq, ext2Read_eq hholds hbs hbs' hsize h.1 ho h.2.1, pure_bind]

theorem readsFrom_iff (he : 10 ≤ e) (he' : e ≤ 30) (hsize : size < 2 ^ 32) {ns : List ℕ}
    (ho : o ≤ size) : ReadsFrom e size o ns ↔ FitsAll e size o ns := by
  induction ns generalizing o with
  | nil =>
    exact ⟨fun _ => trivial, fun _ _ _ _ _ _ _ => ⟨[], rfl, trivial, nil_prefix⟩⟩
  | cons n ns ih =>
    have hend : o + min n (size - o) ≤ size := by omega
    have hlen : ∀ {fs : Fs Id} {inode B}, fs.blockSize = 2 ^ e → inode.bytesLsb = size →
        Holds fs inode B → (content fs inode B).length = size := fun hfs hinode hholds =>
      (hholds.length_content (hfs ▸ Nat.two_pow_pos e)).trans hinode
    constructor
    · intro h
      have hat : ReadsAt e size o n := by
        intro fs inode B hfs hinode hholds
        obtain ⟨gots, hrun, hcons, -⟩ := h fs inode B hfs hinode hholds
        obtain ⟨got, rest, rfl, hgot⟩ := ext2ReadAt_of_readSeq hrun
        exact ⟨got, hgot, hlen hfs hinode hholds ▸ hcons.1, hcons.2.1⟩
      have hfits := hat.fits he he' hsize ho
      refine ⟨hfits, (ih hend).mp fun fs inode B hfs hinode hholds => ?_⟩
      obtain ⟨gots, hrun, hcons, -⟩ := h fs inode B hfs hinode hholds
      have hlen := hlen hfs hinode hholds
      subst hinode
      obtain ⟨got, -, hseq⟩ := hfits.readSeq_cons he' hfs hsize hholds ho
      rw [hseq] at hrun
      obtain ⟨rest, hrest, hpure⟩ := bind_eq_pure hrun
      obtain rfl := pure_inj hpure
      have htail := hcons.2.2
      rw [hlen] at htail
      exact ⟨rest, hrest, htail, htail.isSlice⟩
    · rintro ⟨hfits, hall⟩ fs inode B hfs hinode hholds
      obtain ⟨got, hgot, hret, hstored⟩ := hfits.readsAt he' hsize ho fs inode B hfs hinode hholds
      obtain ⟨rest, hrest, htail, -⟩ := (ih hend).mpr hall fs inode B hfs hinode hholds
      have hlen := hlen hfs hinode hholds
      subst hinode
      obtain ⟨got', hgot', hseq⟩ := hfits.readSeq_cons he' hfs hsize hholds ho
      obtain rfl := pure_inj (hgot.symm.trans hgot')
      have hcons : Consecutive (content fs inode B) o (n :: ns) (got :: rest) := by
        rw [Consecutive, hlen]
        exact ⟨hret, hstored, htail⟩
      exact ⟨got :: rest, by rw [hseq, hrest, pure_bind], hcons, hcons.isSlice⟩

end Volumes

/-- **Reads return the contents of the file exactly when they fit**, for every block size
`1024 << k` and every file size: one read at an offset, and successive reads of an open file. -/
theorem ext2_reads_iff (e size : ℕ) (he : 10 ≤ e) (he' : e ≤ 30) (hsize : size < 2 ^ 32) :
    (∀ o n, o ≤ size → (ReadsAt e size o n ↔ Fits e size o n)) ∧
      ∀ ns, ReadsFrom e size 0 ns ↔ FitsAll e size 0 ns :=
  ⟨fun _ _ ho => readsAt_iff he he' hsize ho, fun _ => readsFrom_iff he he' hsize (Nat.zero_le _)⟩

/-- A file of two blocks of 1024 bytes: reading all of it is right, reading it
in two halves is not. -/
theorem ext2_reads_iff_two_blocks :
    (10 ≤ 10 ∧ 10 ≤ 30 ∧ 2048 < 2 ^ 32) ∧ ReadsFrom 10 2048 0 [2048, 1] ∧
      ¬ ReadsFrom 10 2048 0 [1024, 1024] := by
  have h := (ext2_reads_iff 10 2048 (by decide) (by decide) (by decide)).2
  rw [h, h]
  simp [FitsAll, Fits]

/-- **The second block of a file reads as its first**: with blocks of 1024 bytes
and a file of one block of ones and one of twos, one byte at offset 1024 is a
one. -/
theorem ext2_read_at_first_block :
    Holds (twoToneFs Id 1024) (twoToneInode 2048) (twoToneBlocks 10) ∧
      ((content (twoToneFs Id 1024) (twoToneInode 2048) (twoToneBlocks 10)).drop 1024).take 1 =
        [2] ∧
      ext2ReadAt (twoToneFs Id 1024) (twoToneInode 2048) 1 1024 = pure ⟨1, [some 1], true⟩ := by
  refine ⟨holds_twoTone (e := 10) (by decide) (by decide) (by decide), ?_, ?_⟩
  · decide +kernel
  · have hrun : (show Except Fault Got from
        ext2ReadAt (twoToneFs Id 1024) (twoToneInode 2048) 1 1024) = .ok ⟨1, [some 1], true⟩ := by
      decide +kernel
    exact hrun

end Ext2
