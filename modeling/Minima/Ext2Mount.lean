/-
Mounting an ext2 volume (`find_superblock`, `ext2_mount` and `get_inode` of
`fs/ext2/ext2.c`).

`find_superblock` checks the signature, the size and that two ways to count the
block groups agree.  Other fields of the superblock, and inode numbers found in
directories, go unchecked into divisions, a shift and two array indices.
`ext2_mount` takes the block group descriptors from block 2.

A division by zero and an access outside a buffer stop the machine (`Trap`); the
reads of the device are on record.

* `findSuperblock`, `ext2Mount`, `getInode` — the functions of the source;
* `getInode_returns_iff` — when a call of `get_inode` does not trap;
* `malformed_safe_iff` — which superblocks are harmless, whatever else is on the
  device;
* `inode_location_iff` — on which well-formed volumes the inodes are found.
-/
import Minima.Ext2
import Minima.Ext2Dir
import Minima.Ext2Map

namespace Ext2

open Nat (add_assoc add_zero div_eq_of_lt mod_eq_of_lt mod_le mod_lt mul_le_mul_right pow_add
  succ_le_of_lt succ_mul zero_mul)
open List (mem_map mem_range range replicate)
open Blocks Traced

/-! ### The functions of the source -/

/-- How a call can fail to return. -/
inductive Trap
  /-- a division by zero -/
  | divideError
  /-- an access outside a buffer -/
  | outside
  /-- a failed `assert` -/
  | assertion
  deriving DecidableEq

/-- Computations that read a device, at the offsets on record. -/
abbrev Io := Traced ℕ Trap

/-- What is used of a `struct vfs_stat`. -/
structure Stat where
  blockSize : ℕ
  size : ℕ

/-- An open device: what `vfs_stat` and `vfs_read_at` do. -/
structure Device where
  stat : Except ℤ Stat
  read (bytes off : ℕ) : ℤ × List ℕ

/-- What is used of a `struct ext2_superblock`. -/
structure Superblock where
  inodesTotal : ℕ
  blocksTotal : ℕ
  blockSize : ℕ
  blocksPerBgroup : ℕ
  inodesPerBgroup : ℕ
  ext2Signature : ℕ
  inodeSize : ℕ
  deriving DecidableEq

/-- The superblock in a buffer. -/
def superblockOf (super : List ℕ) : Superblock where
  inodesTotal := le32 super 0
  blocksTotal := le32 super 4
  blockSize := le32 super 24
  blocksPerBgroup := le32 super 32
  inodesPerBgroup := le32 super 40
  ext2Signature := le16 super 56
  inodeSize := le16 super 88

/-- `1024 << sb->block_size`, as the machine shifts: only the last five bits of the
count are used, and what leaves the word is lost. -/
def Superblock.shifted (sb : Superblock) : ℕ := 1024 * 2 ^ (sb.blockSize % 32) % 2 ^ 32

/-- The device below a file system with blocks of `blockSize` bytes. -/
def Device.fs (dev : Device) (devBlockSize blockSize : ℕ) : Fs Id where
  dev bytes off := dev.read bytes off
  devBlockSize := devBlockSize
  blockSize := blockSize

/-- Division of unsigned words. -/
def div32 (x y : ℕ) : Io ℕ := if y = 0 then .stop .divideError else pure (x / y)

/-- The checks of `find_superblock`. -/
def checkSuperblock (super : Superblock) (size : ℕ) : Io (Option Superblock) :=
  if super.ext2Signature ≠ 0xEF53 then pure none
  else if mul32 super.blocksTotal super.shifted ≠ size then pure none
  else do
    let blockGroups0 ← div32 (sub32 (add32 super.inodesTotal super.inodesPerBgroup) 1)
      super.inodesPerBgroup
    let blockGroups1 ← div32 (sub32 (add32 super.blocksTotal super.blocksPerBgroup) 1)
      super.blocksPerBgroup
    if blockGroups0 ≠ blockGroups1 then pure none else pure (some super)

/-- `find_superblock` -/
def findSuperblock (dev : Device) : Io (Option Superblock) :=
  match dev.stat with
  | .error _ => pure none
  | .ok st => do
    let count ← div32 1024 st.blockSize
    let (ret, super) ← readBlockLoop ((dev.fs st.blockSize 0).spied Trap)
      ((range count).map fun i => mul32 (i + 2) st.blockSize) []
    if ret ≠ 0 then pure none else checkSuperblock (superblockOf super) st.size

/-- What is used of a `struct ext2_fs`; `bdesc` has the bytes of the descriptors. -/
structure Mounted where
  fs : Fs Id
  sb : Superblock
  bdesc : List ℕ

/-- `bdesc[group].inode_table_start`, for the descriptors in a buffer; a descriptor
has 32 bytes. -/
def tableStart (bdesc : List ℕ) (group : ℕ) : ℕ := le32 bdesc (32 * group + 8)

/-- A `struct inode`, with its mode. -/
structure Record where
  mode : ℕ
  inode : Inode

/-- The `struct inode` at byte `k` of a buffer. -/
def recordAt (block : List ℕ) (k : ℕ) : Record := ⟨le16 block k, inodeAt block k⟩

/-- `sizeof(struct inode)` -/
def inodeBytes : ℕ := 128

/-- `i_idx`, an `ssize_t` -/
def Mounted.iIdx (v : Mounted) (i : ℕ) : ℤ := toSsize (sub32 i 1 % v.sb.inodesPerBgroup)

/-- `inode_blk`: the product and the quotient are signed. -/
def Mounted.inodeBlk (v : Mounted) (i : ℕ) : ℕ :=
  ofSsize ((toSsize (ofSsize (v.iIdx i * v.sb.inodeSize))).tdiv v.fs.blockSize)

/-- The end of `get_inode`, which takes the record out of a block of the table. -/
def takeRecord (v : Mounted) (i : ℕ) (block : List ℕ) : Io (ℤ × Option Record) := do
  let inodesPerBlock ← div32 v.fs.blockSize v.sb.inodeSize
  if inodesPerBlock = 0 then .stop .divideError
  else
    -- the offset is negative if `i_idx` is
    let off := (v.iIdx i).tmod inodesPerBlock * v.sb.inodeSize
    if 0 ≤ off ∧ off + inodeBytes ≤ v.fs.blockSize then
      pure (0, some (recordAt block off.toNat))
    else .stop .outside

/-- `get_inode`, with what it stores in `*out`. -/
def getInode (v : Mounted) (i : ℕ) : Io (ℤ × Option Record) := do
  let group ← div32 (sub32 i 1) v.sb.inodesPerBgroup
  if v.fs.blockSize / 32 ≤ group then .stop .outside
  else if v.fs.blockSize = 0 then .stop .divideError
  else do
    let (ret, block) ← readBlock (v.fs.spied Trap) (add32 (tableStart v.bdesc group) (v.inodeBlk i))
    if ret ≠ 0 then pure (1, none) else takeRecord v i block

/-- `-EINVAL` -/
def einval : ℤ := -2

/-- `-EIO` -/
def eio : ℤ := -9

/-- `ext2_mount`, for the superblock that `find_superblock` has found.  The block
size is that of a shift that does not overflow. -/
def ext2Mount (dev : Device) (sb : Option Superblock) : Io (ℤ × Option Mounted) :=
  match sb with
  | none => pure (einval, none)
  | some sb =>
    match dev.stat with
    | .error e => pure (e, none)
    | .ok st =>
      if st.blockSize = 0 then .stop .assertion
      else do
        let fs := dev.fs st.blockSize sb.shifted
        let (ret, bdesc) ← readBlock (fs.spied Trap) 2
        if ret ≠ 0 then pure (eio, none)
        else do
          let (ret, root) ← getInode ⟨fs, sb, bdesc⟩ 2
          match root with
          | none => pure (eio, none)
          | some root =>
            if ret ≠ 0 ∨ mode2Type root.mode ≠ .dir then pure (eio, none)
            else pure (0, some ⟨fs, sb, bdesc⟩)

/-! ### Calls that return -/

section Returns

variable {α β : Type} {x : Io α} {f : α → Io β} {a : α}

/-- The computation does not trap. -/
def Returns (x : Io α) : Prop := ∃ a, x.result = .ok a

theorem returns_pure : Returns (pure a : Io α) := ⟨a, rfl⟩

theorem not_returns_stop {e : Trap} : ¬ Returns (.stop e : Io α) := by
  rintro ⟨a, ha⟩
  cases ha

theorem result_bind_of_ok (h : x.result = .ok a) : (x >>= f).result = (f a).result := by
  rw [result_bind, h]
  rfl

theorem returns_bind (h : x.result = .ok a) : Returns (x >>= f) ↔ Returns (f a) := by
  rw [Returns, Returns, result_bind_of_ok h]

theorem returns_of_bind (h : Returns (x >>= f)) : Returns x := by
  obtain ⟨b, hb⟩ := h
  obtain ⟨a, ha, -⟩ := result_bind_eq_ok.mp hb
  exact ⟨a, ha⟩

theorem div32_result {n d : ℕ} (h : d ≠ 0) : (div32 n d).result = .ok (n / d) := by
  rw [div32, if_neg h]
  rfl

theorem returns_div32 {n d : ℕ} (h : Returns (div32 n d)) : d ≠ 0 := by
  intro h0
  rw [div32, if_pos h0] at h
  exact not_returns_stop h

theorem readBlock_result (fs : Fs Id) (ε : Type) (b : ℕ) :
    (readBlock (fs.spied ε) b).result = .ok (readBlock fs b) :=
  (readBlockLoop_spied fs ε _ []).1

end Returns

/-! ### `get_inode` -/

section GetInode

variable {v : Mounted} {i : ℕ}

/-- The byte of the block at which the record begins. -/
def Mounted.slot (v : Mounted) (i : ℕ) : ℤ :=
  (v.iIdx i).tmod ↑(v.fs.blockSize / v.sb.inodeSize) * v.sb.inodeSize

/-- The record of the inode lies inside a block of the table. -/
structure Mounted.Inside (v : Mounted) (i : ℕ) : Prop where
  size : v.sb.inodeSize ≠ 0
  fits : v.sb.inodeSize ≤ v.fs.blockSize
  begins : 0 ≤ v.slot i
  ends : v.slot i + inodeBytes ≤ v.fs.blockSize

theorem takeRecord_eq (hin : v.Inside i) (block : List ℕ) :
    takeRecord v i block = pure (0, some (recordAt block (v.slot i).toNat)) := by
  have hpos : v.fs.blockSize / v.sb.inodeSize ≠ 0 :=
    (Nat.div_pos hin.fits (Nat.pos_of_ne_zero hin.size)).ne'
  rw [takeRecord, div32, if_neg hin.size, pure_bind_eq, if_neg hpos]
  exact if_pos ⟨hin.begins, hin.ends⟩

theorem inside_of_takeRecord {block : List ℕ} (h : Returns (takeRecord v i block)) :
    v.Inside i := by
  rw [takeRecord] at h
  have hsize := returns_div32 (returns_of_bind h)
  rw [returns_bind (div32_result hsize)] at h
  by_cases hzero : v.fs.blockSize / v.sb.inodeSize = 0
  · rw [if_pos hzero] at h
    exact absurd h not_returns_stop
  rw [if_neg hzero] at h
  by_cases hoff : 0 ≤ v.slot i ∧ v.slot i + inodeBytes ≤ v.fs.blockSize
  · refine ⟨hsize, ?_, hoff.1, hoff.2⟩
    by_contra hlt
    exact hzero (div_eq_of_lt (Nat.lt_of_not_le hlt))
  · change Returns (if 0 ≤ v.slot i ∧ v.slot i + inodeBytes ≤ v.fs.blockSize then _ else _) at h
    rw [if_neg hoff] at h
    exact absurd h not_returns_stop

/-- The group of the inode. -/
def Mounted.group (v : Mounted) (i : ℕ) : ℕ := sub32 i 1 / v.sb.inodesPerBgroup

/-- The block of the inode table that is read. -/
def Mounted.inodeBlock (v : Mounted) (i : ℕ) : ℕ :=
  add32 (tableStart v.bdesc (v.group i)) (v.inodeBlk i)

theorem getInode_eq (hipg : v.sb.inodesPerBgroup ≠ 0) (hbs : v.fs.blockSize ≠ 0)
    (hgroup : v.group i < v.fs.blockSize / 32) :
    getInode v i = readBlock (v.fs.spied Trap) (v.inodeBlock i) >>= fun r =>
      if r.1 ≠ 0 then pure (1, none) else takeRecord v i r.2 := by
  rw [getInode, div32, if_neg hipg, pure_bind_eq]
  show (if v.fs.blockSize / 32 ≤ v.group i then _ else _) = _
  rw [if_neg (Nat.not_le.mpr hgroup), if_neg hbs]
  rfl

/-- **A call of `get_inode` does not trap** iff the group has a descriptor and the
record is inside the block, unless the block cannot be read. -/
theorem getInode_returns_iff (hipg : v.sb.inodesPerBgroup ≠ 0) (hbs : v.fs.blockSize ≠ 0) :
    Returns (getInode v i) ↔ v.group i < v.fs.blockSize / 32 ∧
      ((readBlock v.fs (v.inodeBlock i)).1 = 0 → v.Inside i) := by
  by_cases hgroup : v.group i < v.fs.blockSize / 32
  · rw [and_iff_right hgroup, getInode_eq hipg hbs hgroup,
      returns_bind (readBlock_result v.fs Trap _)]
    by_cases hread : (readBlock v.fs (v.inodeBlock i)).1 = 0
    · rw [if_neg (not_not.mpr hread)]
      constructor
      · intro h _
        exact inside_of_takeRecord h
      · intro hin
        rw [takeRecord_eq (hin hread)]
        exact returns_pure
    · rw [if_pos hread]
      exact iff_of_true returns_pure fun h => absurd h hread
  · refine iff_of_false ?_ fun h => hgroup h.1
    rw [getInode, returns_bind (div32_result hipg)]
    show ¬ Returns (if v.fs.blockSize / 32 ≤ v.group i then _ else _)
    rw [if_pos (Nat.le_of_not_lt hgroup)]
    exact not_returns_stop

theorem iIdx_eq (hi : 0 < i ∧ i < 2 ^ 32)
    (hlt : (i - 1) % v.sb.inodesPerBgroup < 2 ^ 31) :
    v.iIdx i = ↑((i - 1) % v.sb.inodesPerBgroup) := by
  rw [Mounted.iIdx, sub32_eq hi.2 hi.1, toSsize, if_pos hlt]

theorem inodeBlk_eq {idx : ℕ} (hidx : v.iIdx i = idx) (hlt : idx * v.sb.inodeSize < 2 ^ 31) :
    v.inodeBlk i = idx * v.sb.inodeSize / v.fs.blockSize := by
  have hword : ∀ x : ℕ, x < 2 ^ 31 → ofSsize x = x := by
    intro x hx
    rw [ofSsize, Int.emod_eq_of_lt (by omega) (by omega), Int.toNat_natCast]
  rw [Mounted.inodeBlk, hidx, ← Int.natCast_mul, hword _ hlt, toSsize, if_pos hlt,
    ← Int.ofNat_tdiv, hword _ ((Nat.div_le_self _ _).trans_lt hlt)]

/-- What `Minima.Ext2Dir` has of a mounted file system. -/
def Mounted.volume (v : Mounted) (requiredFeatures : ℕ) : Volume Id where
  toFs := v.fs
  inodesPerBgroup := v.sb.inodesPerBgroup
  inodeSize := v.sb.inodeSize
  requiredFeatures := requiredFeatures
  inodeTableStart := tableStart v.bdesc

/-- `getNode` of `Minima.Ext2Dir` is `get_inode` where that does not trap and no
signed number overflows. -/
theorem getInode_eq_getNode {idx features : ℕ} (hipg : v.sb.inodesPerBgroup ≠ 0)
    (hbs : v.fs.blockSize ≠ 0) (hgroup : v.group i < v.fs.blockSize / 32) (hin : v.Inside i)
    (hidx : sub32 i 1 % v.sb.inodesPerBgroup = idx) (hlt : idx < 2 ^ 31)
    (hprod : idx * v.sb.inodeSize < 2 ^ 31) :
    (getInode v i).result = .ok (match (getNode (v.volume features) i).run with
      | none => (1, none)
      | some n => (0, some ⟨n.mode, n.inode⟩)) := by
  have hiIdx : v.iIdx i = idx := by rw [Mounted.iIdx, hidx, toSsize, if_pos hlt]
  have hslot : (v.slot i).toNat = idx % (v.fs.blockSize / v.sb.inodeSize) * v.sb.inodeSize := by
    rw [Mounted.slot, hiIdx, ← Int.ofNat_tmod, ← Int.natCast_mul, Int.toNat_natCast]
  have hnode : (getNode (v.volume features) i).run =
      if (readBlock v.fs (v.inodeBlock i)).1 ≠ 0 then none
      else some ⟨i, le16 (readBlock v.fs (v.inodeBlock i)).2 (v.slot i).toNat,
        mode2Type (le16 (readBlock v.fs (v.inodeBlock i)).2 (v.slot i).toNat),
        inodeAt (readBlock v.fs (v.inodeBlock i)).2 (v.slot i).toNat⟩ := by
    rw [hslot, Mounted.inodeBlock, inodeBlk_eq hiIdx hprod, ← mul32_eq (hprod.trans (by decide)),
      ← hidx]
    rfl
  rw [hnode, getInode_eq hipg hbs hgroup, result_bind_of_ok (readBlock_result v.fs Trap _)]
  by_cases hread : (readBlock v.fs (v.inodeBlock i)).1 ≠ 0
  · rw [if_pos hread, if_pos hread]
    rfl
  · rw [if_neg hread, if_neg hread, takeRecord_eq hin]
    rfl

theorem iIdx_succ {idx : ℕ} (h : idx < v.sb.inodesPerBgroup) (hlt : idx < 2 ^ 32) :
    v.iIdx (idx + 1) = toSsize idx := by
  rw [Mounted.iIdx, sub32, show idx + 1 + (2 ^ 32 - 1) = idx + 2 ^ 32 by omega,
    Nat.add_mod_right, mod_eq_of_lt hlt, mod_eq_of_lt h]

/-- **All the records of a group are inside** a block iff the last one in a block is
and no index that is negative as an `ssize_t` is taken to a negative slot. -/
theorem records_inside_iff {ipg ipb isz bs : ℕ} (hipg : 0 < ipg) (hword : ipg < 2 ^ 32)
    (hipb : 0 < ipb) (hsmall : ipb ≤ 2 ^ 30) (hisz : 0 < isz) :
    (∀ idx < ipg, 0 ≤ (toSsize idx).tmod ipb * isz ∧
      (toSsize idx).tmod ipb * isz + inodeBytes ≤ bs) ↔
    (min ipg ipb - 1) * isz + inodeBytes ≤ bs ∧
      (ipg ≤ 2 ^ 31 ∨ ipb = 1 ∨ ipg = 2 ^ 31 + 1 ∧ 2 ^ 31 % ipb = 0) := by
  -- the slot of an index, by its sign
  have hpos : ∀ idx, idx < 2 ^ 31 → (toSsize idx).tmod ipb * (isz : ℤ) = ↑(idx % ipb * isz) := by
    intro idx hlt
    rw [toSsize, if_pos hlt, ← Int.ofNat_tmod, ← Int.natCast_mul]
  have hneg : ∀ idx, 2 ^ 31 ≤ idx → idx < 2 ^ 32 →
      (toSsize idx).tmod ipb * (isz : ℤ) = -(((2 ^ 32 - idx) % ipb * isz : ℕ) : ℤ) := by
    intro idx hge hlt
    have hcast : ((idx : ℤ) - 2 ^ 32) = -((2 ^ 32 - idx : ℕ) : ℤ) := by omega
    rw [toSsize, if_neg (by omega), hcast, Int.neg_tmod, ← Int.ofNat_tmod, Int.neg_mul,
      ← Int.natCast_mul]
  have hzero : ∀ k, 0 ≤ -((k % ipb * isz : ℕ) : ℤ) → k % ipb = 0 := by
    intro k hk
    have hmul : k % ipb * isz = 0 := by omega
    rcases Nat.mul_eq_zero.mp hmul with h | h
    · exact h
    · omega
  constructor
  · intro h
    refine ⟨?_, ?_⟩
    · have hlast := (h (min ipg ipb - 1) (by omega)).2
      rw [hpos _ (by omega), mod_eq_of_lt (by omega)] at hlast
      omega
    · by_cases hle : ipg ≤ 2 ^ 31
      · exact .inl hle
      have h₀ := hzero _ (hneg (2 ^ 31) le_rfl (by decide) ▸ (h (2 ^ 31) (by omega)).1)
      by_cases hone : ipg = 2 ^ 31 + 1
      · exact .inr (.inr ⟨hone, h₀⟩)
      -- two neighbours cannot both be multiples of a number above one
      have h1 := hzero _ (hneg (2 ^ 31 + 1) (by omega) (by decide) ▸ (h (2 ^ 31 + 1) (by omega)).1)
      have hdvd : ipb ∣ 1 := by
        have := Nat.dvd_sub (Nat.dvd_of_mod_eq_zero h₀) (Nat.dvd_of_mod_eq_zero h1)
        simpa using this
      exact .inr (.inl (Nat.dvd_one.mp hdvd))
  · rintro ⟨hlast, hsign⟩ idx hidx
    by_cases hlt : idx < 2 ^ 31
    · have hle : idx % ipb ≤ min ipg ipb - 1 := by
        have hmod := mod_lt idx hipb
        have hself := mod_le idx ipb
        omega
      have hmul := mul_le_mul_right isz hle
      rw [hpos idx hlt]
      omega
    · have hslot : (2 ^ 32 - idx) % ipb = 0 := by
        rcases hsign with h | h | ⟨h, hmod⟩
        · omega
        · rw [h]
          exact Nat.mod_one _
        · obtain rfl : idx = 2 ^ 31 := by omega
          exact hmod
      rw [hneg idx (by omega) (by omega), hslot, zero_mul]
      omega

end GetInode

/-! ### `find_superblock` and `ext2_mount` -/

section Mount

variable {dev : Device} {sb : Superblock} {size : ℕ}

/-- The two ways to count the block groups agree. -/
def Superblock.SameGroups (sb : Superblock) : Prop :=
  sub32 (add32 sb.inodesTotal sb.inodesPerBgroup) 1 / sb.inodesPerBgroup =
    sub32 (add32 sb.blocksTotal sb.blocksPerBgroup) 1 / sb.blocksPerBgroup

theorem checkSuperblock_divides (hsig : sb.ext2Signature = 0xEF53)
    (hsize : mul32 sb.blocksTotal sb.shifted = size) :
    (Returns (checkSuperblock sb size) ↔ sb.inodesPerBgroup ≠ 0 ∧ sb.blocksPerBgroup ≠ 0) ∧
      (∀ sb', (checkSuperblock sb size).result = .ok (some sb') ↔
        (sb.inodesPerBgroup ≠ 0 ∧ sb.blocksPerBgroup ≠ 0) ∧ sb.SameGroups ∧ sb = sb') := by
  rw [checkSuperblock, if_neg (not_not.mpr hsig), if_neg (not_not.mpr hsize), div32, div32]
  by_cases hipg : sb.inodesPerBgroup = 0
  · rw [if_pos hipg, stop_bind]
    refine ⟨iff_of_false not_returns_stop fun h => h.1 hipg, fun sb' => ?_⟩
    exact iff_of_false (by simp) fun h => h.1.1 hipg
  rw [if_neg hipg, pure_bind_eq]
  by_cases hbpg : sb.blocksPerBgroup = 0
  · rw [if_pos hbpg, stop_bind]
    refine ⟨iff_of_false not_returns_stop fun h => h.2 hbpg, fun sb' => ?_⟩
    exact iff_of_false (by simp) fun h => h.1.2 hbpg
  rw [if_neg hbpg, pure_bind_eq]
  unfold Superblock.SameGroups
  split_ifs with hgroups
  · refine ⟨iff_of_true returns_pure ⟨hipg, hbpg⟩, fun sb' => ?_⟩
    simp [hgroups]
  · refine ⟨iff_of_true returns_pure ⟨hipg, hbpg⟩, fun sb' => ?_⟩
    simp [hipg, hbpg, not_not.mp hgroups]

theorem checkSuperblock_refuses (h : sb.ext2Signature = 0xEF53 →
    mul32 sb.blocksTotal sb.shifted ≠ size) : checkSuperblock sb size = pure none := by
  rw [checkSuperblock]
  by_cases hsig : sb.ext2Signature = 0xEF53
  · rw [if_neg (not_not.mpr hsig), if_pos (h hsig)]
  · rw [if_pos hsig]

/-- The device has `size` bytes in blocks of 512, and a superblock at byte 1024. -/
structure Device.Holds (dev : Device) (super : List ℕ) (size : ℕ) : Prop where
  stat : dev.stat = .ok ⟨512, size⟩
  first : dev.read 512 1024 = (0, super.take 512)
  second : dev.read 512 1536 = (0, super.drop 512)

theorem findSuperblock_result {super : List ℕ} (h : dev.Holds super size) :
    (findSuperblock dev).result = (checkSuperblock (superblockOf super) size).result := by
  have hread : readBlockLoop (dev.fs 512 0) [1024, 1536] [] = (0, super) := by
    have hdev : ∀ off, (dev.fs 512 0).dev (dev.fs 512 0).devBlockSize off = dev.read 512 off :=
      fun off => rfl
    rw [readBlockLoop, hdev, h.first]
    show readBlockLoop (dev.fs 512 0) [1536] (super.take 512) = _
    rw [readBlockLoop, hdev, h.second]
    show (0, super.take 512 ++ super.drop 512) = _
    rw [List.take_append_drop]
  have hspied := (readBlockLoop_spied (dev.fs 512 0) Trap [1024, 1536] []).1
  rw [hread] at hspied
  rw [findSuperblock, h.stat]
  show (div32 1024 512 >>= _).result = _
  show (readBlockLoop ((dev.fs 512 0).spied Trap) [1024, 1536] [] >>= _).result = _
  rw [result_bind_of_ok hspied]
  rfl

/-- The file system that a mount leaves. -/
def Device.mounted (dev : Device) (sb : Superblock) : Mounted where
  fs := dev.fs 512 sb.shifted
  sb := sb
  bdesc := (readBlock (dev.fs 512 sb.shifted) 2).2

theorem ext2Mount_result (hstat : dev.stat = .ok ⟨512, size⟩) :
    (ext2Mount dev (some sb)).result =
      if (readBlock (dev.mounted sb).fs 2).1 ≠ 0 then .ok (eio, none)
      else (getInode (dev.mounted sb) 2).result.map fun r => match r.2 with
        | none => (eio, none)
        | some root => if r.1 ≠ 0 ∨ mode2Type root.mode ≠ .dir then (eio, none)
          else (0, some (dev.mounted sb)) := by
  rw [ext2Mount, hstat]
  show (if (512 : ℕ) = 0 then _ else _ : Io (ℤ × Option Mounted)).result = _
  rw [if_neg (by decide), result_bind_of_ok (readBlock_result _ Trap 2)]
  show (if (readBlock (dev.mounted sb).fs 2).1 ≠ 0 then _ else _ :
    Io (ℤ × Option Mounted)).result = _
  by_cases hread : (readBlock (dev.mounted sb).fs 2).1 ≠ 0
  · rw [if_pos hread, if_pos hread]
    rfl
  rw [if_neg hread, if_neg hread, result_bind]
  show (getInode (dev.mounted sb) 2).result >>= _ = _
  cases (getInode (dev.mounted sb) 2).result with
  | error e => rfl
  | ok r =>
    rcases r with ⟨ret, root⟩
    cases root with
    | none => rfl
    | some root =>
      show (if ret ≠ 0 ∨ mode2Type root.mode ≠ .dir then pure (eio, none)
        else pure (0, some (dev.mounted sb)) : Io (ℤ × Option Mounted)).result =
          .ok (if ret ≠ 0 ∨ mode2Type root.mode ≠ .dir then _ else _)
      by_cases hdir : ret ≠ 0 ∨ mode2Type root.mode ≠ .dir
      · rw [if_pos hdir, if_pos hdir]
        rfl
      · rw [if_neg hdir, if_neg hdir]
        rfl

end Mount

/-! ### Malformed volumes -/

section Malformed

variable {v : Mounted} {sb : Superblock}

/-- The superblock is one with which no inode number can do harm. -/
structure Sane (sb : Superblock) : Prop where
  /-- the shift does not overflow -/
  shift : sb.blockSize ≤ 20
  inodeSize : sb.inodeSize ≠ 0
  fits : sb.inodeSize ≤ sb.shifted
  /-- the group of the largest inode number has a descriptor in the block -/
  groups : (2 ^ 32 - 2) / sb.inodesPerBgroup < sb.shifted / 32
  /-- the last record of a block ends in the block -/
  records : (min sb.inodesPerBgroup (sb.shifted / sb.inodeSize) - 1) * sb.inodeSize + inodeBytes ≤
    sb.shifted
  /-- no index is negative as an `ssize_t`, or such an index begins a block -/
  sign : sb.inodesPerBgroup ≤ 2 ^ 31 ∨ sb.shifted / sb.inodeSize = 1 ∨
    sb.inodesPerBgroup = 2 ^ 31 + 1 ∧ 2 ^ 31 % (sb.shifted / sb.inodeSize) = 0

theorem shifted_eq (h : sb.blockSize ≤ 20) :
    sb.shifted = 1024 * 2 ^ sb.blockSize ∧ 1024 ≤ sb.shifted ∧ sb.shifted ≤ 2 ^ 30 := by
  have hpow : 2 ^ sb.blockSize ≤ 2 ^ 20 := Nat.pow_le_pow_right (by decide) h
  have hone : 1 ≤ 2 ^ sb.blockSize := Nat.one_le_two_pow
  have heq : sb.shifted = 1024 * 2 ^ sb.blockSize := by
    rw [Superblock.shifted, mod_eq_of_lt (show sb.blockSize < 32 by omega),
      mod_eq_of_lt (by omega)]
  omega

/-- The fields of a superblock are words. -/
structure Superblock.Words (sb : Superblock) : Prop where
  inodesPerBgroup : sb.inodesPerBgroup < 2 ^ 32
  inodeSize : sb.inodeSize < 2 ^ 16

theorem inside_iff (hsize : v.sb.inodeSize ≠ 0) (hfits : v.sb.inodeSize ≤ v.fs.blockSize) {i : ℕ} :
    v.Inside i ↔ 0 ≤ v.slot i ∧ v.slot i + inodeBytes ≤ v.fs.blockSize :=
  ⟨fun h => ⟨h.begins, h.ends⟩, fun h => ⟨hsize, hfits, h.1, h.2⟩⟩

theorem forall_inside_iff (hipg : 0 < v.sb.inodesPerBgroup) (hword : v.sb.inodesPerBgroup < 2 ^ 32)
    (hsize : v.sb.inodeSize ≠ 0) (hfits : v.sb.inodeSize ≤ v.fs.blockSize)
    (hsmall : v.fs.blockSize ≤ 2 ^ 30) :
    (∀ i, 0 < i → i < 2 ^ 32 → v.Inside i) ↔
      (min v.sb.inodesPerBgroup (v.fs.blockSize / v.sb.inodeSize) - 1) * v.sb.inodeSize +
          inodeBytes ≤ v.fs.blockSize ∧
        (v.sb.inodesPerBgroup ≤ 2 ^ 31 ∨ v.fs.blockSize / v.sb.inodeSize = 1 ∨
          v.sb.inodesPerBgroup = 2 ^ 31 + 1 ∧ 2 ^ 31 % (v.fs.blockSize / v.sb.inodeSize) = 0) := by
  have hpos : 0 < v.sb.inodeSize := Nat.pos_of_ne_zero hsize
  rw [← records_inside_iff hipg hword (Nat.div_pos hfits hpos)
    ((Nat.div_le_self _ _).trans hsmall) hpos]
  constructor
  · intro h idx hidx
    have hin := (inside_iff hsize hfits).mp (h (idx + 1) (by omega) (by omega))
    rwa [Mounted.slot, iIdx_succ hidx (by omega)] at hin
  · intro h i _ _
    exact (inside_iff hsize hfits).mpr (h _ (mod_lt _ hipg))

theorem Sane.returns (h : Sane v.sb) (hbs : v.fs.blockSize = v.sb.shifted)
    (hipg : v.sb.inodesPerBgroup ≠ 0) (hword : v.sb.inodesPerBgroup < 2 ^ 32) {i : ℕ} (hi : 0 < i)
    (hlt : i < 2 ^ 32) : Returns (getInode v i) := by
  obtain ⟨-, hmin, hmax⟩ := shifted_eq h.shift
  have hall := (forall_inside_iff (Nat.pos_of_ne_zero hipg) hword h.inodeSize (hbs ▸ h.fits)
    (by omega)).mpr (by rw [hbs]; exact ⟨h.records, h.sign⟩)
  rw [getInode_returns_iff hipg (by omega)]
  refine ⟨?_, fun _ => hall i hi hlt⟩
  have hgroup : v.group i ≤ (2 ^ 32 - 2) / v.sb.inodesPerBgroup := by
    refine Nat.div_le_div_right ?_
    rw [sub32_eq hlt hi]
    omega
  rw [hbs]
  exact hgroup.trans_lt h.groups

theorem sane_of_returns (hread : ∀ b, (readBlock v.fs b).1 = 0) (hshift : v.sb.blockSize ≤ 20)
    (hbs : v.fs.blockSize = v.sb.shifted) (hipg : v.sb.inodesPerBgroup ≠ 0)
    (hword : v.sb.inodesPerBgroup < 2 ^ 32)
    (h : ∀ i, 0 < i → i < 2 ^ 32 → Returns (getInode v i)) : Sane v.sb := by
  obtain ⟨-, hmin, hmax⟩ := shifted_eq hshift
  have hcall : ∀ i, 0 < i → i < 2 ^ 32 → v.group i < v.fs.blockSize / 32 ∧ v.Inside i := by
    intro i hi hlt
    obtain ⟨hgroup, hin⟩ := (getInode_returns_iff hipg (by omega)).mp (h i hi hlt)
    exact ⟨hgroup, hin (hread _)⟩
  obtain ⟨hlast, hin⟩ := hcall (2 ^ 32 - 1) (by decide) (by decide)
  obtain ⟨hrecords, hsign⟩ := (forall_inside_iff (Nat.pos_of_ne_zero hipg) hword hin.size hin.fits
    (by omega)).mp fun i hi hlt => (hcall i hi hlt).2
  rw [hbs] at hlast hrecords hsign
  exact ⟨hshift, hin.size, hbs ▸ hin.fits, hlast, hrecords, hsign⟩

/-- The superblock is refused, or nothing that is done with it traps: its shift does not overflow,
and `get_inode` stays inside the descriptors and the block for every inode number. -/
structure SafeOn (dev : Device) : Prop where
  find : Returns (findSuperblock dev)
  shift : ∀ sb, (findSuperblock dev).result = .ok (some sb) → 1024 * 2 ^ sb.blockSize < 2 ^ 31
  mount : ∀ sb, (findSuperblock dev).result = .ok (some sb) → Returns (ext2Mount dev (some sb))
  inodes : ∀ sb, (findSuperblock dev).result = .ok (some sb) →
    ∀ v, (ext2Mount dev (some sb)).result = .ok (0, some v) →
      ∀ i, 0 < i → i < 2 ^ 32 → Returns (getInode v i)

/-- Whatever else is on the device. -/
def Safe (super : List ℕ) (size : ℕ) : Prop := ∀ dev : Device, dev.Holds super size → SafeOn dev

/-- The superblock is refused, without a division by zero, or sane. -/
def Harmless (sb : Superblock) (size : ℕ) : Prop :=
  sb.ext2Signature = 0xEF53 → mul32 sb.blocksTotal sb.shifted = size →
    sb.inodesPerBgroup ≠ 0 ∧ sb.blocksPerBgroup ≠ 0 ∧ (sb.SameGroups → Sane sb)

theorem mounted_of_result {dev : Device} {size : ℕ} (hstat : dev.stat = .ok ⟨512, size⟩)
    (h : (ext2Mount dev (some sb)).result = .ok (0, some v)) : v = dev.mounted sb := by
  have hfails : (Except.ok (eio, none) : Except Trap (ℤ × Option Mounted)) ≠ .ok (0, some v) := by
    intro heq
    exact absurd (congrArg Prod.fst (Except.ok.inj heq)) (show eio ≠ 0 by decide)
  rw [ext2Mount_result hstat] at h
  split_ifs at h with hread
  · exact absurd h hfails
  · cases hroot : (getInode (dev.mounted sb) 2).result with
    | error e =>
      rw [hroot] at h
      cases h
    | ok r =>
      rw [hroot] at h
      rcases r with ⟨ret, root⟩
      cases root with
      | none => exact absurd h hfails
      | some root =>
        change Except.ok (if ret ≠ 0 ∨ mode2Type root.mode ≠ .dir then (eio, none)
          else (0, some (dev.mounted sb))) = Except.ok (0, some v) at h
        split_ifs at h with hdir
        · exact absurd h hfails
        · exact (Option.some_inj.mp (congrArg Prod.snd (Except.ok.inj h))).symm

theorem Harmless.safe {super : List ℕ} {size : ℕ}
    (hword : (superblockOf super).inodesPerBgroup < 2 ^ 32)
    (h : Harmless (superblockOf super) size) : Safe super size := by
  intro dev hdev
  have hfind := findSuperblock_result hdev
  by_cases hcheck : (superblockOf super).ext2Signature = 0xEF53 →
      mul32 (superblockOf super).blocksTotal (superblockOf super).shifted ≠ size
  · rw [checkSuperblock_refuses hcheck] at hfind
    have hnone : ∀ sb, (findSuperblock dev).result ≠ .ok (some sb) := by
      intro sb hsb
      rw [hfind] at hsb
      cases hsb
    exact ⟨⟨none, hfind⟩, fun sb hsb => absurd hsb (hnone sb),
      fun sb hsb => absurd hsb (hnone sb), fun sb hsb => absurd hsb (hnone sb)⟩
  obtain ⟨hsig, hsize⟩ : _ ∧ _ := Classical.not_imp.mp hcheck
  rw [not_not] at hsize
  obtain ⟨hipg, hbpg, hsane⟩ := h hsig hsize
  obtain ⟨hret, hsome⟩ := checkSuperblock_divides hsig hsize
  have hfound : ∀ sb, (findSuperblock dev).result = .ok (some sb) →
      Sane sb ∧ sb = superblockOf super := by
    intro sb hsb
    obtain ⟨-, hgroups, rfl⟩ := (hsome sb).mp (hfind ▸ hsb)
    exact ⟨hsane hgroups, rfl⟩
  refine ⟨?_, ?_, ?_, ?_⟩
  · rw [Returns, hfind]
    exact hret.mpr ⟨hipg, hbpg⟩
  · intro sb hsb
    obtain ⟨hs, -⟩ := hfound sb hsb
    obtain ⟨heq, -, hmax⟩ := shifted_eq hs.shift
    omega
  · intro sb hsb
    obtain ⟨hs, rfl⟩ := hfound sb hsb
    obtain ⟨r, hr⟩ := Sane.returns (v := dev.mounted (superblockOf super)) hs rfl hipg hword
      (show 0 < 2 by decide) (by decide)
    rw [Returns, ext2Mount_result hdev.stat, hr]
    split_ifs
    · exact ⟨_, rfl⟩
    · exact ⟨_, rfl⟩
  · intro sb hsb v hv i hi hlt
    obtain ⟨hs, rfl⟩ := hfound sb hsb
    obtain rfl := mounted_of_result hdev.stat hv
    exact Sane.returns (v := dev.mounted (superblockOf super)) hs rfl hipg hword hi hlt

/-- A device with the superblock, and with nothing but the byte `0x41` elsewhere:
every mode there is that of a directory. -/
def fillDevice (super : List ℕ) (size : ℕ) : Device where
  stat := .ok ⟨512, size⟩
  read bytes off := (0, if off = 1024 then super.take 512 else if off = 1536 then super.drop 512
    else replicate bytes 0x41)

theorem fillDevice_holds (super : List ℕ) (size : ℕ) : (fillDevice super size).Holds super size :=
  ⟨rfl, rfl, rfl⟩

section Fill

variable {super : List ℕ} {size e : ℕ}

theorem readBlock_fill_ok (bs b : ℕ) : (readBlock ((fillDevice super size).fs 512 bs) b).1 = 0 := by
  have hloop : ∀ offs data,
      (readBlockLoop ((fillDevice super size).fs 512 bs) offs data).1 = 0 := by
    intro offs
    induction offs with
    | nil => exact fun data => rfl
    | cons off offs ih => exact fun data => ih _
  exact hloop _ _

theorem readBlock_fill {bs n b : ℕ} (hn : 2 ^ 32 = n * bs) (hdvd : 512 ∣ bs)
    (hb : 2048 ≤ mul32 b bs) :
    readBlock ((fillDevice super size).fs 512 bs) b = (0, replicate bs 0x41) := by
  obtain ⟨q, hq, hend⟩ := mul32_block hn b
  have hread : ∀ off ∈ (range (bs / 512)).map fun i => add32 (mul32 b bs) (i * 512),
      ((fillDevice super size).fs 512 bs).dev 512 off = pure (0, replicate 512 0x41) := by
    intro off hoff
    obtain ⟨k, hk, rfl⟩ := mem_map.mp hoff
    rw [mem_range] at hk
    rw [add32_eq (by omega)]
    show (0, if mul32 b bs + k * 512 = 1024 then super.take 512
      else if mul32 b bs + k * 512 = 1536 then super.drop 512
      else replicate 512 0x41) = ((0, replicate 512 0x41))
    rw [if_neg (by omega), if_neg (by omega)]
  have hloop := readBlockLoop_replicate ((fillDevice super size).fs 512 bs) [] hread
  rw [List.length_map, List.length_range, List.nil_append] at hloop
  refine hloop.trans ?_
  show (0, replicate (bs / 512 * 512) 0x41) = _
  rw [Nat.div_mul_cancel hdvd]

theorem fill_offset {k : ℕ} (he : e ≤ 20) (hk : k = 0 ∨ k = 1 ∧ e ≤ 6) :
    2048 ≤ mul32 (0x41414141 + k) (1024 * 2 ^ e) := by
  have hzero : ∀ e ≤ 20, 2048 ≤ mul32 (0x41414141 + 0) (1024 * 2 ^ e) := by decide
  have hone : ∀ e ≤ 6, 2048 ≤ mul32 (0x41414141 + 1) (1024 * 2 ^ e) := by decide
  rcases hk with rfl | ⟨rfl, hsmall⟩
  · exact hzero e he
  · exact hone e hsmall

theorem le16_replicate {n k : ℕ} (h : k + 1 < n) : le16 (replicate n 0x41) k = 0x4141 := by
  rw [le16, List.getD_eq_getElem?_getD, List.getD_eq_getElem?_getD, List.getElem?_replicate,
    List.getElem?_replicate, if_pos (by omega), if_pos h]
  rfl

/-- **`fillDevice` is mounted**, if that does not trap. -/
theorem fillDevice_mounts {sb : Superblock} (hshift : sb.blockSize ≤ 20)
    (hwords : sb.Words) (hipg : sb.inodesPerBgroup ≠ 0)
    (h : Returns (ext2Mount (fillDevice super size) (some sb))) :
    (ext2Mount (fillDevice super size) (some sb)).result =
      .ok (0, some ((fillDevice super size).mounted sb)) := by
  obtain ⟨hbs, hmin, hmax⟩ := shifted_eq hshift
  set v := (fillDevice super size).mounted sb with hv
  have hsize : v.fs.blockSize = sb.shifted := rfl
  have hblocks : 2 ^ 32 = 2 ^ (22 - sb.blockSize) * sb.shifted := by
    rw [hbs, show 1024 = 2 ^ 10 from rfl, ← pow_add, ← pow_add]
    congr 1
    omega
  have hdvd : 512 ∣ sb.shifted := by
    rw [hbs]
    exact Nat.dvd_mul_right_of_dvd (by decide) _
  -- the descriptors
  have hbdesc : readBlock v.fs 2 = (0, replicate sb.shifted 0x41) := by
    refine readBlock_fill hblocks hdvd ?_
    rw [mul32_eq (by omega)]
    omega
  have hfirst : (readBlock v.fs 2).1 = 0 := congrArg Prod.fst hbdesc
  have hstart : ∀ g, 32 * g + 32 ≤ sb.shifted → tableStart v.bdesc g = 0x41414141 := by
    intro g hg
    have hbytes : v.bdesc = replicate sb.shifted 0x41 := congrArg Prod.snd hbdesc
    rw [tableStart, hbytes, le32, le16_replicate (by omega), le16_replicate (by omega)]
    rfl
  -- the root inode
  have hroot : Returns (getInode v 2) := by
    rw [Returns, ext2Mount_result rfl, ← hv, if_neg (not_not.mpr hfirst)] at h
    obtain ⟨r, hr⟩ := h
    cases hres : (getInode v 2).result with
    | error e =>
      rw [hres] at hr
      cases hr
    | ok r => exact ⟨r, hres⟩
  obtain ⟨hgroup, hin⟩ := (getInode_returns_iff hipg (by omega)).mp hroot
  replace hin := hin (readBlock_fill_ok _ _)
  have hblk : v.inodeBlk 2 = 0 ∨ v.inodeBlk 2 = 1 ∧ sb.blockSize ≤ 6 := by
    have hidx : v.iIdx 2 = ↑(1 % sb.inodesPerBgroup) := iIdx_eq (v := v) (by decide)
      ((mod_le _ _).trans_lt (by decide))
    have hle : 1 % sb.inodesPerBgroup * sb.inodeSize ≤ sb.inodeSize := by
      have := mul_le_mul_right sb.inodeSize (mod_le 1 sb.inodesPerBgroup)
      omega
    have hword := hwords.inodeSize
    have hfits : sb.inodeSize ≤ sb.shifted := hin.fits
    rw [inodeBlk_eq hidx (show 1 % sb.inodesPerBgroup * sb.inodeSize < 2 ^ 31 by omega)]
    show 1 % sb.inodesPerBgroup * sb.inodeSize / sb.shifted = 0 ∨ _
    by_cases hlt : 1 % sb.inodesPerBgroup * sb.inodeSize < sb.shifted
    · exact .inl (div_eq_of_lt hlt)
    · -- the record fills the block, which is therefore small
      have hsame : 1 % sb.inodesPerBgroup * sb.inodeSize = sb.shifted := by omega
      refine .inr ⟨?_, ?_⟩
      · show 1 % sb.inodesPerBgroup * sb.inodeSize / sb.shifted = 1
        rw [hsame, Nat.div_self (by omega)]
      · by_contra hlarge
        have hpow : 2 ^ 7 ≤ 2 ^ sb.blockSize := Nat.pow_le_pow_right (by decide) (by omega)
        omega
  have hblock : readBlock v.fs (v.inodeBlock 2) = (0, replicate sb.shifted 0x41) := by
    refine readBlock_fill hblocks hdvd ?_
    rw [Mounted.inodeBlock, hstart _ (by rw [hsize] at hgroup; omega), add32_eq (by omega), hbs]
    exact fill_offset hshift hblk
  have hmode : (recordAt (replicate sb.shifted 0x41) (v.slot 2).toNat).mode = 0x4141 := by
    have hends := hin.ends
    rw [hsize, inodeBytes] at hends
    refine le16_replicate ?_
    omega
  rw [ext2Mount_result rfl, ← hv, if_neg (not_not.mpr hfirst),
    getInode_eq hipg (by omega) hgroup, result_bind_of_ok (readBlock_result _ Trap _), hblock,
    takeRecord_eq hin]
  show Except.ok (if (0 : ℤ) ≠ 0 ∨ mode2Type (recordAt (replicate sb.shifted 0x41)
    (v.slot 2).toNat).mode ≠ .dir then (eio, none) else (0, some v)) = _
  rw [hmode, if_neg (by decide)]

end Fill

theorem le16_lt {b : List ℕ} (h : ∀ x ∈ b, x < 256) (k : ℕ) : le16 b k < 2 ^ 16 := by
  have hget : ∀ j, b.getD j 0 < 256 := by
    intro j
    rw [List.getD_eq_getElem?_getD]
    cases hj : b[j]? with
    | none => exact Nat.zero_lt_succ _
    | some x => exact h x (List.mem_of_getElem? hj)
  have h₀ := hget k
  have h1 := hget (k + 1)
  rw [le16]
  omega

theorem superblockOf_words {super : List ℕ} (h : ∀ x ∈ super, x < 256) :
    (superblockOf super).Words where
  inodesPerBgroup := by
    have h₀ := le16_lt h 40
    have h1 := le16_lt h 42
    show le16 super 40 + 2 ^ 16 * le16 super 42 < 2 ^ 32
    omega
  inodeSize := le16_lt h 88

/-- **Malformed superblocks.**  Whatever else is on the device, a superblock is
refused or does no harm iff it is harmless. -/
theorem malformed_safe_iff (super : List ℕ) (size : ℕ) (hbytes : ∀ x ∈ super, x < 256) :
    Safe super size ↔ Harmless (superblockOf super) size := by
  have hwords := superblockOf_words hbytes
  refine ⟨?_, Harmless.safe hwords.inodesPerBgroup⟩
  intro hsafe hsig hsize
  have hdev := fillDevice_holds super size
  have hon := hsafe _ hdev
  have hfind := findSuperblock_result hdev
  obtain ⟨hret, hsome⟩ := checkSuperblock_divides hsig hsize
  have hreturns := hon.find
  rw [Returns, hfind] at hreturns
  obtain ⟨hipg, hbpg⟩ := hret.mp hreturns
  refine ⟨hipg, hbpg, ?_⟩
  intro hgroups
  have hfound := hfind.trans ((hsome _).mpr ⟨⟨hipg, hbpg⟩, hgroups, rfl⟩)
  -- the shift does not overflow, so the device can be mounted, and all its inodes read
  have hshift : (superblockOf super).blockSize ≤ 20 := by
    have hlt := hon.shift _ hfound
    by_contra hgt
    have hpow : 2 ^ 21 ≤ 2 ^ (superblockOf super).blockSize :=
      Nat.pow_le_pow_right (by decide) (by omega)
    omega
  have hmount := fillDevice_mounts hshift hwords hipg (hon.mount _ hfound)
  exact sane_of_returns (v := (fillDevice super size).mounted (superblockOf super))
    (fun b => readBlock_fill_ok _ b) hshift rfl hipg hwords.inodesPerBgroup
    (hon.inodes _ hfound _ hmount)

/-- The superblock of a volume of 100 blocks of 1024 bytes and one group of
`n * 2^24 + m * 2^8` inodes. -/
def oneGroup (n m : ℕ) : List ℕ := (range 1024).map fun k =>
  if k = 3 ∨ k = 43 then n else if k = 1 ∨ k = 41 then m else if k = 4 then 100
  else if k = 33 then 0x20 else if k = 56 then 0x53 else if k = 57 then 0xEF
  else if k = 88 then 128 else 0

/-- A superblock with which every inode number has a descriptor. -/
theorem huge_group_safe : Safe (oneGroup 8 0) 102400 := by
  refine (malformed_safe_iff (oneGroup 8 0) 102400 (by decide +kernel)).mpr ?_
  have hsb : superblockOf (oneGroup 8 0) = ⟨2 ^ 27, 100, 0, 8192, 2 ^ 27, 0xEF53, 128⟩ := by
    decide +kernel
  rw [hsb]
  intro _ _
  exact ⟨by decide, by decide, fun _ => ⟨by decide, by decide, by decide, by decide, by decide,
    .inl (by decide)⟩⟩

/-- **Two harmful superblocks**: a group without inodes is divided by, and an inode number from a
directory entry leads outside the descriptors. -/
theorem small_groups_trap :
    (findSuperblock (fillDevice (oneGroup 0 0) 102400)).result = .error .divideError ∧
    (findSuperblock (fillDevice (oneGroup 0 1) 102400)).result =
      .ok (some (superblockOf (oneGroup 0 1))) ∧
    (getInode ((fillDevice (oneGroup 0 1) 102400).mounted (superblockOf (oneGroup 0 1)))
      10000).result = .error .outside := by
  refine ⟨?_, ?_, ?_⟩
  · rw [findSuperblock_result (fillDevice_holds _ _)]
    have hsb : superblockOf (oneGroup 0 0) = ⟨0, 100, 0, 8192, 0, 0xEF53, 128⟩ := by
      decide +kernel
    rw [hsb]
    rfl
  · rw [findSuperblock_result (fillDevice_holds _ _)]
    have hsb : superblockOf (oneGroup 0 1) = ⟨256, 100, 0, 8192, 256, 0xEF53, 128⟩ := by
      decide +kernel
    rw [hsb]
    rfl
  · have hsb : superblockOf (oneGroup 0 1) = ⟨256, 100, 0, 8192, 256, 0xEF53, 128⟩ := by
      decide +kernel
    rw [hsb]
    rfl

end Malformed

/-! ### Well-formed volumes -/

section Volumes

/-- The `n` bytes from byte `q` of a volume on. -/
def window (bytes : ℕ → ℕ) (q n : ℕ) : List ℕ := (range n).map fun k => bytes (q + k)

/-- A volume of `size` bytes, as a device. -/
def imageDevice (bytes : ℕ → ℕ) (size : ℕ) : Device where
  stat := .ok ⟨512, size⟩
  read n off := if off + n ≤ size then (0, window bytes off n) else (eio, [])

/-- The table of the inodes of a group, as the format has it: the descriptors are
in the block that follows the one with the superblock, which is at byte 1024. -/
def formatTableStart (bytes : ℕ → ℕ) (bs group : ℕ) : ℕ :=
  tableStart (window bytes ((1024 / bs + 1) * bs) bs) group

/-- The byte at which the format has the record of inode `i`. -/
def recordByte (bytes : ℕ → ℕ) (sb : Superblock) (i : ℕ) : ℕ :=
  formatTableStart bytes sb.shifted ((i - 1) / sb.inodesPerBgroup) * sb.shifted +
    (i - 1) % sb.inodesPerBgroup * sb.inodeSize

/-- A well-formed volume with `groups` block groups, whose descriptors are in one
block. -/
structure WellFormedVolume (bytes : ℕ → ℕ) (size : ℕ) (sb : Superblock) (groups : ℕ) : Prop where
  super : superblockOf (window bytes 1024 1024) = sb
  signature : sb.ext2Signature = 0xEF53
  /-- blocks of 1024, 2048 or 4096 bytes -/
  blockSize : sb.blockSize ≤ 2
  total : sb.blocksTotal * sb.shifted = size
  word : size < 2 ^ 32
  descriptors : 3 * sb.shifted ≤ size
  inodeSize : ∃ k, sb.inodeSize = 2 ^ k
  record : inodeBytes ≤ sb.inodeSize
  fits : sb.inodeSize ≤ sb.shifted
  /-- the bitmap of the inodes of a group is one block -/
  bitmap : sb.inodesPerBgroup ≤ 8 * sb.shifted
  inodes : groups * sb.inodesPerBgroup = sb.inodesTotal
  blocks : groups = (sb.blocksTotal + sb.blocksPerBgroup - 1) / sb.blocksPerBgroup
  oneBlock : groups * 32 ≤ sb.shifted
  tables : ∀ g < groups, formatTableStart bytes sb.shifted g * sb.shifted +
    sb.inodesPerBgroup * sb.inodeSize ≤ size
  root : 2 ≤ sb.inodesTotal
  rootDir : mode2Type (recordAt (window bytes (recordByte bytes sb 2) inodeBytes) 0).mode = .dir

/-- The call of `get_inode` reads the block of the device that byte `pos` lies in,
and delivers the record there. -/
structure ReadsRecord (bytes : ℕ → ℕ) (v : Mounted) (i pos : ℕ) : Prop where
  reads : (getInode v i).calls =
    (range (v.fs.blockSize / 512)).map fun k => pos / v.fs.blockSize * v.fs.blockSize + k * 512
  result : (getInode v i).result = .ok (0, some (recordAt (window bytes pos inodeBytes) 0))

theorem window_getD {bytes : ℕ → ℕ} {q n j : ℕ} (h : j < n) :
    (window bytes q n).getD j 0 = bytes (q + j) := by
  rw [window, List.getD_eq_getElem?_getD, List.getElem?_map, List.getElem?_range h]
  rfl

theorem recordAt_window {bytes : ℕ → ℕ} {q n o : ℕ} (h : o + inodeBytes ≤ n) :
    recordAt (window bytes q n) o = recordAt (window bytes (q + o) inodeBytes) 0 := by
  have hword : ∀ j, j + 2 ≤ inodeBytes →
      le16 (window bytes q n) (o + j) = le16 (window bytes (q + o) inodeBytes) j := by
    intro j hj
    rw [le16, le16, window_getD (by omega), window_getD (by omega), window_getD (by omega),
      window_getD (by omega)]
    simp only [add_assoc]
  have hlong : ∀ j, j + 4 ≤ inodeBytes →
      le32 (window bytes q n) (o + j) = le32 (window bytes (q + o) inodeBytes) j := by
    intro j hj
    rw [le32, le32, add_assoc, hword _ (by omega), hword _ (by omega)]
  have hwords : ∀ j len, j + 4 * len ≤ inodeBytes → ∀ k : Fin len,
      le32 (window bytes q n) (o + j + 4 * k) =
        le32 (window bytes (q + o) inodeBytes) (0 + j + 4 * k) := by
    intro j len hlen k
    rw [add_assoc, hlong _ (by omega), Nat.zero_add]
  have hblocks := hwords 40 12 (by decide)
  have hrest := hwords 100 7 (by decide)
  have hmode := hword 0 (by decide)
  rw [add_zero] at hmode
  rw [recordAt, recordAt, hmode, inodeAt, inodeAt, hlong 4 (by decide), hlong 88 (by decide),
    hlong 92 (by decide), hlong 96 (by decide)]
  simp only [hblocks, hrest, Nat.zero_add]

variable {bytes : ℕ → ℕ} {size : ℕ} {sb : Superblock} {groups : ℕ}

theorem concat_window {q n k : ℕ} :
    concat (fun i => window bytes (q + i * n) n) k = window bytes q (k * n) := by
  induction k with
  | zero => simp [concat, window]
  | succ k ih =>
    rw [concat_succ, ih, succ_mul, window, window, window, List.range_add, List.map_append,
      List.map_map]
    simp only [Function.comp_def, add_assoc]

theorem readBlock_image {bs b q : ℕ} (hdvd : 512 ∣ bs) (hq : mul32 b bs = q)
    (hend : q + bs ≤ size) (hword : size < 2 ^ 32) :
    readBlock ((imageDevice bytes size).fs 512 bs) b = (0, window bytes q bs) := by
  have hcount : bs / 512 * 512 = bs := Nat.div_mul_cancel hdvd
  have hread : ∀ k ∈ range (bs / 512), ((imageDevice bytes size).fs 512 bs).dev
      ((imageDevice bytes size).fs 512 bs).devBlockSize (add32 (mul32 b bs) (k * 512)) =
        pure (0, window bytes (q + k * 512) 512) := by
    intro k hk
    rw [mem_range] at hk
    rw [hq, add32_eq (by omega)]
    exact if_pos (show q + k * 512 + 512 ≤ size by omega)
  have hloop := readBlockLoop_parts [] hread
  refine hloop.trans ?_
  show (0, concat (fun k => window bytes (q + k * 512) 512) (bs / 512)) = _
  rw [concat_window, hcount]

section

variable (h : WellFormedVolume bytes size sb groups)
include h

theorem WellFormedVolume.shifted :
    sb.shifted = 1024 ∨ sb.shifted = 2048 ∨ sb.shifted = 4096 := by
  obtain ⟨heq, -, -⟩ := shifted_eq (h.blockSize.trans (by decide))
  have hcases : ∀ e ≤ 2, 1024 * 2 ^ e = 1024 ∨ 1024 * 2 ^ e = 2048 ∨ 1024 * 2 ^ e = 4096 := by
    decide
  rw [heq]
  exact hcases _ h.blockSize

theorem WellFormedVolume.blocksOf :
    2 ^ 32 = 2 ^ 32 / sb.shifted * sb.shifted ∧ 512 ∣ sb.shifted := by
  rcases h.shifted with h | h | h
  all_goals
    rw [h]
    decide

theorem WellFormedVolume.pos :
    0 < groups ∧ 0 < sb.inodesPerBgroup ∧ 0 < sb.inodeSize := by
  have hroot := h.root
  rw [← h.inodes] at hroot
  have hrec := h.record
  rw [inodeBytes] at hrec
  refine ⟨?_, ?_, by omega⟩
  · rcases Nat.eq_zero_or_pos groups with h0 | hpos
    · rw [h0, zero_mul] at hroot
      omega
    · exact hpos
  · rcases Nat.eq_zero_or_pos sb.inodesPerBgroup with h0 | hpos
    · rw [h0, Nat.mul_zero] at hroot
      omega
    · exact hpos

end

/-- Where the code has the table of a group: in the descriptors of block 2. -/
def codeTableStart (bytes : ℕ → ℕ) (bs group : ℕ) : ℕ := tableStart (window bytes (2 * bs) bs) group

/-- What is mounted. -/
def imageMounted (bytes : ℕ → ℕ) (size : ℕ) (sb : Superblock) : Mounted :=
  (imageDevice bytes size).mounted sb

section

variable (h : WellFormedVolume bytes size sb groups)
include h

theorem WellFormedVolume.readDescriptors :
    readBlock (imageMounted bytes size sb).fs 2 =
      (0, window bytes (2 * sb.shifted) sb.shifted) := by
  have hdesc := h.descriptors
  have hword := h.word
  refine readBlock_image h.blocksOf.2 (mul32_eq (by omega)) (by omega) hword

theorem WellFormedVolume.tableStart_eq (g : ℕ) :
    tableStart (imageMounted bytes size sb).bdesc g = codeTableStart bytes sb.shifted g := by
  have hbdesc : (imageMounted bytes size sb).bdesc = window bytes (2 * sb.shifted) sb.shifted :=
    congrArg Prod.snd h.readDescriptors
  rw [hbdesc, codeTableStart]

theorem WellFormedVolume.mul32_table {start blk : ℕ}
    (hblk : start % (2 ^ 32 / sb.shifted) + blk < 2 ^ 32 / sb.shifted) :
    mul32 (add32 start blk) sb.shifted =
      (start % (2 ^ 32 / sb.shifted) + blk) * sb.shifted := by
  obtain ⟨hn, -⟩ := h.blocksOf
  generalize 2 ^ 32 / sb.shifted = n at hn hblk ⊢
  have hmod : (start + blk) % 2 ^ 32 * sb.shifted % 2 ^ 32 = (start + blk) % n * sb.shifted := by
    rw [hn, Nat.mul_mod_mul_right, Nat.mod_mul_right_mod]
  rw [mul32, add32, hmod, Nat.add_mod, mod_eq_of_lt (show blk < n by omega),
    mod_eq_of_lt hblk]

end

/-- The numbers of a record: its group, the block and the slot. -/
structure Located (sb : Superblock) (groups i : ℕ) : Prop where
  group : (i - 1) / sb.inodesPerBgroup < groups
  index : (i - 1) % sb.inodesPerBgroup < sb.inodesPerBgroup
  /-- the product does not overflow -/
  small : (i - 1) % sb.inodesPerBgroup * sb.inodeSize < 2 ^ 31
  /-- block and slot make up the byte in the table -/
  split : (i - 1) % sb.inodesPerBgroup * sb.inodeSize =
    (i - 1) % sb.inodesPerBgroup * sb.inodeSize / sb.shifted * sb.shifted +
      (i - 1) % sb.inodesPerBgroup % (sb.shifted / sb.inodeSize) * sb.inodeSize
  slot : (i - 1) % sb.inodesPerBgroup % (sb.shifted / sb.inodeSize) * sb.inodeSize + sb.inodeSize ≤
    sb.shifted

theorem WellFormedVolume.located (h : WellFormedVolume bytes size sb groups) {i : ℕ} (hi : 1 ≤ i)
    (hle : i ≤ sb.inodesTotal) : Located sb groups i := by
  obtain ⟨hgroups, hipg, hisz⟩ := h.pos
  obtain ⟨idx, hidx⟩ : ∃ idx, (i - 1) % sb.inodesPerBgroup = idx := ⟨_, rfl⟩
  have hlt : idx < sb.inodesPerBgroup := hidx ▸ mod_lt _ hipg
  -- an inode size that is a power of two divides the block size
  have hdvd : sb.inodeSize ∣ sb.shifted := by
    obtain ⟨k, hk⟩ := h.inodeSize
    obtain ⟨heq, -, -⟩ := shifted_eq (h.blockSize.trans (by decide))
    have hpow : sb.shifted = 2 ^ (10 + sb.blockSize) := by rw [heq, pow_add]
    have hfits := h.fits
    rw [hk, hpow] at hfits ⊢
    exact Nat.pow_dvd_pow 2 ((Nat.pow_le_pow_iff_right (by decide)).mp hfits)
  obtain ⟨ipb, hipb⟩ := hdvd
  have hdiv : sb.shifted / sb.inodeSize = ipb := by rw [hipb, Nat.mul_div_cancel_left _ hisz]
  have hpos : 0 < ipb := by
    have hfits := h.fits
    rw [hipb] at hfits
    exact Nat.pos_of_mul_pos_left (hisz.trans_le hfits)
  have hmod := mod_lt idx hpos
  refine ⟨?_, mod_lt _ hipg, ?_, ?_, ?_⟩
  · rw [Nat.div_lt_iff_lt_mul hipg, h.inodes]
    omega
  · have hmax : sb.shifted ≤ 4096 := by
      rcases h.shifted with h | h | h <;> omega
    have hbitmap := h.bitmap
    have hfits := h.fits
    rw [hidx]
    calc idx * sb.inodeSize ≤ (8 * 4096) * 4096 := Nat.mul_le_mul (by omega) (by omega)
      _ < 2 ^ 31 := by decide
  · rw [hidx, hdiv, hipb, Nat.mul_comm sb.inodeSize ipb, Nat.mul_div_mul_right _ _ hisz]
    have hsplit := Nat.div_add_mod idx ipb
    rw [← Nat.mul_assoc, ← Nat.add_mul, Nat.mul_comm (idx / ipb), hsplit]
  · rw [hidx, hdiv, hipb, ← Nat.succ_mul, Nat.mul_comm sb.inodeSize]
    exact Nat.mul_le_mul_right _ (Nat.succ_le_of_lt hmod)

/-- What `get_inode` computes for an inode of the volume. -/
structure Computed (bytes : ℕ → ℕ) (size : ℕ) (sb : Superblock) (i : ℕ) : Prop where
  word : i < 2 ^ 32
  group : (imageMounted bytes size sb).group i = (i - 1) / sb.inodesPerBgroup
  hasDescriptor : (i - 1) / sb.inodesPerBgroup < sb.shifted / 32
  block : (imageMounted bytes size sb).inodeBlock i =
    add32 (codeTableStart bytes sb.shifted ((i - 1) / sb.inodesPerBgroup))
      ((i - 1) % sb.inodesPerBgroup * sb.inodeSize / sb.shifted)
  slot : (imageMounted bytes size sb).slot i =
    ↑((i - 1) % sb.inodesPerBgroup % (sb.shifted / sb.inodeSize) * sb.inodeSize)
  inside : (imageMounted bytes size sb).Inside i

section

variable (h : WellFormedVolume bytes size sb groups)
include h

theorem WellFormedVolume.computed {i : ℕ} (hi : 1 ≤ i)
    (hle : i ≤ sb.inodesTotal) : Computed bytes size sb i := by
  have hloc := h.located hi hle
  have hmax : sb.shifted ≤ 4096 := by
    rcases h.shifted with h | h | h <;> omega
  have hgroups : groups ≤ sb.shifted / 32 := by
    have := h.oneBlock
    omega
  have hbitmap := h.bitmap
  have hword : i < 2 ^ 32 := by
    have hmul : groups * sb.inodesPerBgroup ≤ 128 * (8 * 4096) :=
      Nat.mul_le_mul (by omega) (by omega)
    rw [h.inodes] at hmul
    omega
  have hidx : (imageMounted bytes size sb).iIdx i = ↑((i - 1) % sb.inodesPerBgroup) := by
    refine iIdx_eq ⟨hi, hword⟩ ?_
    have := hloc.index
    show (i - 1) % sb.inodesPerBgroup < 2 ^ 31
    omega
  have hgroup : (imageMounted bytes size sb).group i = (i - 1) / sb.inodesPerBgroup := by
    rw [Mounted.group, sub32_eq hword hi]
    rfl
  have hslot : (imageMounted bytes size sb).slot i =
      ↑((i - 1) % sb.inodesPerBgroup % (sb.shifted / sb.inodeSize) * sb.inodeSize) := by
    rw [Mounted.slot, hidx, ← Int.ofNat_tmod]
    exact (Int.natCast_mul _ _).symm
  refine ⟨hword, hgroup, hloc.group.trans_le hgroups, ?_, hslot, ?_⟩
  · rw [Mounted.inodeBlock, hgroup, h.tableStart_eq, inodeBlk_eq hidx hloc.small]
    rfl
  · have hrecord := h.record
    have hends := hloc.slot
    refine ⟨h.pos.2.2.ne', h.fits, ?_, ?_⟩
    · rw [hslot]
      exact Int.natCast_nonneg _
    · rw [hslot]
      show _ ≤ (sb.shifted : ℤ)
      omega

/-- **An inode is found** if block 2 has the table of its group where the format has
it, up to what a 32-bit offset cannot tell apart. -/
theorem WellFormedVolume.readsRecord {i : ℕ}
    (hi : 1 ≤ i) (hle : i ≤ sb.inodesTotal)
    (hagree : codeTableStart bytes sb.shifted ((i - 1) / sb.inodesPerBgroup) %
      (2 ^ 32 / sb.shifted) = formatTableStart bytes sb.shifted ((i - 1) / sb.inodesPerBgroup)) :
    ReadsRecord bytes (imageMounted bytes size sb) i (recordByte bytes sb i) := by
  have hloc := h.located hi hle
  have hcomp := h.computed hi hle
  obtain ⟨hn, hdvd⟩ := h.blocksOf
  have hbs : 0 < sb.shifted := by
    rcases h.shifted with h | h | h <;> omega
  have htable := h.tables _ hloc.group
  have hsplit := hloc.split
  have hends := hloc.slot
  have hrecord := h.record
  have hpos : 0 < sb.inodeSize := h.pos.2.2
  rw [recordByte]
  -- the block of the table and the slot in it
  generalize formatTableStart bytes sb.shifted ((i - 1) / sb.inodesPerBgroup) = start at *
  generalize hblk : (i - 1) % sb.inodesPerBgroup * sb.inodeSize / sb.shifted = blk at *
  generalize hslot : (i - 1) % sb.inodesPerBgroup % (sb.shifted / sb.inodeSize) * sb.inodeSize =
    slot at *
  have hbyte : start * sb.shifted + (i - 1) % sb.inodesPerBgroup * sb.inodeSize =
      (start + blk) * sb.shifted + slot := by
    rw [hsplit, Nat.add_mul]
    omega
  have hlast : (i - 1) % sb.inodesPerBgroup * sb.inodeSize + sb.inodeSize ≤
      sb.inodesPerBgroup * sb.inodeSize := by
    have := mul_le_mul_right sb.inodeSize (succ_le_of_lt hloc.index)
    rwa [succ_mul] at this
  have hsize : (start + blk) * sb.shifted + sb.shifted ≤ size := by
    have hlt : (start + blk) * sb.shifted < sb.blocksTotal * sb.shifted := by
      rw [h.total]
      omega
    have := mul_le_mul_right sb.shifted
      (succ_le_of_lt (Nat.lt_of_mul_lt_mul_right hlt))
    rwa [succ_mul, h.total] at this
  have hword := h.word
  have hoff : mul32 ((imageMounted bytes size sb).inodeBlock i) sb.shifted =
      (start + blk) * sb.shifted := by
    have hlt : start + blk < 2 ^ 32 / sb.shifted := by
      refine Nat.lt_of_mul_lt_mul_right (a := sb.shifted) ?_
      omega
    rw [hcomp.block, hblk, h.mul32_table (hagree.symm ▸ hlt), hagree]
  have hread : readBlock (imageMounted bytes size sb).fs ((imageMounted bytes size sb).inodeBlock i)
      = (0, window bytes ((start + blk) * sb.shifted) sb.shifted) :=
    readBlock_image hdvd hoff hsize hword
  have heq := getInode_eq h.pos.2.1.ne' hbs.ne'
    (hcomp.group ▸ hcomp.hasDescriptor)
  rw [bind_of_ok (readBlock_result _ Trap _), hread, if_neg (not_not.mpr rfl),
    takeRecord_eq hcomp.inside] at heq
  rw [hbyte]
  refine ⟨?_, ?_⟩
  · have hcalls := (readBlockLoop_spied _ Trap _ _).2.2.2 (congrArg Prod.fst hread)
    have hdiv : ((start + blk) * sb.shifted + slot) / sb.shifted = start + blk := by
      rw [Nat.mul_comm, Nat.mul_add_div hbs, div_eq_of_lt (by omega), add_zero]
    rw [heq]
    show (readBlock ((imageMounted bytes size sb).fs.spied Trap) _).calls ++ [] =
      (range (sb.shifted / 512)).map fun k =>
        ((start + blk) * sb.shifted + slot) / sb.shifted * sb.shifted + k * 512
    rw [List.append_nil, hdiv]
    refine hcalls.trans ?_
    refine List.map_congr_left ?_
    intro k hk
    rw [mem_range] at hk
    have hk' : k * 512 < sb.shifted := (imageMounted bytes size sb).fs.part_lt hk
    show add32 (mul32 _ sb.shifted) (k * 512) = _
    rw [hoff, add32_eq (by omega)]
  · rw [heq, hcomp.slot, Int.toNat_natCast]
    show Except.ok (0, some (recordAt (window bytes ((start + blk) * sb.shifted) sb.shifted) _)) = _
    rw [hslot, recordAt_window (by omega)]

theorem WellFormedVolume.agree_of_reads {g : ℕ}
    (hg : g < groups) (hread : ReadsRecord bytes (imageMounted bytes size sb)
      (g * sb.inodesPerBgroup + 1) (recordByte bytes sb (g * sb.inodesPerBgroup + 1))) :
    codeTableStart bytes sb.shifted g % (2 ^ 32 / sb.shifted) =
      formatTableStart bytes sb.shifted g := by
  obtain ⟨-, hipg, hisz⟩ := h.pos
  obtain ⟨hn, hdvd⟩ := h.blocksOf
  have hbs : 512 ≤ sb.shifted := by
    rcases h.shifted with h | h | h <;> omega
  have hle : g * sb.inodesPerBgroup + 1 ≤ sb.inodesTotal := by
    have := mul_le_mul_right sb.inodesPerBgroup (succ_le_of_lt hg)
    rw [succ_mul, h.inodes] at this
    omega
  have hcomp := h.computed (by omega) hle
  have hgroup : (g * sb.inodesPerBgroup + 1 - 1) / sb.inodesPerBgroup = g := by
    rw [Nat.add_sub_cancel, Nat.mul_div_cancel _ hipg]
  have hindex : (g * sb.inodesPerBgroup + 1 - 1) % sb.inodesPerBgroup = 0 := by
    rw [Nat.add_sub_cancel, Nat.mul_mod_left]
  have hblock := hcomp.block
  rw [hgroup, hindex, zero_mul, Nat.zero_div] at hblock
  have hmod : codeTableStart bytes sb.shifted g % (2 ^ 32 / sb.shifted) + 0 <
      2 ^ 32 / sb.shifted := by
    refine mod_lt _ (Nat.div_pos ?_ (by omega))
    have := h.word
    have := h.descriptors
    omega
  -- the first byte that is read
  have hfirst : codeTableStart bytes sb.shifted g % (2 ^ 32 / sb.shifted) * sb.shifted ∈
      (getInode (imageMounted bytes size sb) (g * sb.inodesPerBgroup + 1)).calls := by
    rw [getInode_eq hipg.ne' (show sb.shifted ≠ 0 by omega)
      (hcomp.group ▸ hcomp.hasDescriptor), bind_of_ok (readBlock_result _ Trap _)]
    refine List.mem_append_left _ ((readBlockLoop_spied _ Trap _ []).2.2.1 _ ?_)
    obtain ⟨c, hc⟩ : ∃ c, sb.shifted / 512 = c + 1 :=
      ⟨_, (Nat.succ_pred (Nat.div_pos hbs (by decide)).ne').symm⟩
    show ((range (sb.shifted / 512)).map fun k =>
      add32 (mul32 _ sb.shifted) (k * 512)).head? = _
    have hlt : codeTableStart bytes sb.shifted g % (2 ^ 32 / sb.shifted) * sb.shifted < 2 ^ 32 :=
      (Nat.mul_lt_mul_of_pos_right hmod (by omega)).trans_eq hn.symm
    rw [hc, List.range_succ_eq_map, List.map_cons, List.head?_cons, hblock, h.mul32_table hmod,
      add_zero, zero_mul, add32_eq (by omega), add_zero]
  rw [hread.reads] at hfirst
  obtain ⟨k, hk, hoff⟩ := mem_map.mp hfirst
  have hk' : k * 512 < sb.shifted :=
    (imageMounted bytes size sb).fs.part_lt (mem_range.mp hk)
  have hpos : recordByte bytes sb (g * sb.inodesPerBgroup + 1) =
      formatTableStart bytes sb.shifted g * sb.shifted := by
    rw [recordByte, hgroup, hindex, zero_mul, add_zero]
  have hdiv := congrArg (· / sb.shifted) hoff
  change (_ / sb.shifted * sb.shifted + k * 512) / sb.shifted = _ / sb.shifted at hdiv
  rw [hpos, Nat.mul_div_cancel _ (by omega), Nat.mul_div_cancel _ (by omega), Nat.mul_comm,
    Nat.mul_add_div (by omega), div_eq_of_lt hk', add_zero] at hdiv
  exact hdiv.symm

end

/-- **Inode location.**  A well-formed volume is mounted and all its inodes are read
where the format has them iff its blocks have 1024 bytes, or block 2 happens to
repeat the descriptors, up to what a 32-bit offset cannot tell apart. -/
theorem inode_location_iff (h : WellFormedVolume bytes size sb groups) :
    (∃ v, (ext2Mount (imageDevice bytes size) (some sb)).result = .ok (0, some v) ∧
      ∀ i, 1 ≤ i → i ≤ sb.inodesTotal → ReadsRecord bytes v i (recordByte bytes sb i)) ↔
    sb.blockSize = 0 ∨ ∀ g < groups, codeTableStart bytes sb.shifted g % (2 ^ 32 / sb.shifted) =
      formatTableStart bytes sb.shifted g := by
  constructor
  · rintro ⟨v, hv, hall⟩
    obtain rfl := mounted_of_result rfl hv
    refine .inr fun g hg => h.agree_of_reads hg (hall _ (by omega) ?_)
    have := mul_le_mul_right sb.inodesPerBgroup (succ_le_of_lt hg)
    have hipg := h.pos.2.1
    rw [succ_mul, h.inodes] at this
    omega
  · intro hcond
    have hagree : ∀ g < groups, codeTableStart bytes sb.shifted g % (2 ^ 32 / sb.shifted) =
        formatTableStart bytes sb.shifted g := by
      rcases hcond with h0 | hagree
      · -- the block after that of the superblock is block 2
        intro g hg
        have hbs : sb.shifted = 1024 := by
          rw [Superblock.shifted, h0]
          rfl
        have htable := h.tables g hg
        have hword := h.word
        rw [hbs] at htable ⊢
        have hsame : codeTableStart bytes 1024 g = formatTableStart bytes 1024 g := rfl
        refine mod_eq_of_lt ?_
        omega
      · exact hagree
    have hreads : ∀ i, 1 ≤ i → i ≤ sb.inodesTotal →
        ReadsRecord bytes (imageMounted bytes size sb) i (recordByte bytes sb i) :=
      fun i hi hle => h.readsRecord hi hle (hagree _ (h.located hi hle).group)
    refine ⟨imageMounted bytes size sb, ?_, hreads⟩
    have hroot := (hreads 2 (by decide) h.root).result
    have hdesc : (readBlock (imageMounted bytes size sb).fs 2).1 = 0 :=
      congrArg Prod.fst h.readDescriptors
    rw [ext2Mount_result rfl]
    show (if (readBlock (imageMounted bytes size sb).fs 2).1 ≠ 0 then _
      else (getInode (imageMounted bytes size sb) 2).result.map _) = _
    rw [if_neg (not_not.mpr hdesc), hroot]
    show Except.ok (if (0 : ℤ) ≠ 0 ∨ mode2Type (recordAt (window bytes (recordByte bytes sb 2)
      inodeBytes) 0).mode ≠ .dir then _ else _) = _
    rw [h.rootDir, if_neg (by decide)]
    rfl

/-- A volume of 16 blocks of `1024 << e` bytes, with the table of its 16 inodes in
block 3 and the descriptor that says so at byte 2048. -/
def tinyVolume (e k : ℕ) : ℕ :=
  if k = 1024 ∨ k = 1028 ∨ k = 1064 then 16 else if k = 1048 then e else if k = 1057 then 0x20
  else if k = 1080 then 0x53 else if k = 1081 then 0xEF else if k = 1112 then 128
  else if k = 2056 then 3 else if k = 3 * (1024 * 2 ^ e) + 129 then 0x41 else 0

/-- Its superblock. -/
def tinySuperblock (e : ℕ) : Superblock := ⟨16, 16, e, 8192, 16, 0xEF53, 128⟩

theorem tinyVolume_wellFormed {e : ℕ} (he : e ≤ 1) :
    WellFormedVolume (tinyVolume e) (16 * (1024 * 2 ^ e)) (tinySuperblock e) 1 := by
  have hcases : e = 0 ∨ e = 1 := by omega
  rcases hcases with rfl | rfl
  all_goals
    exact ⟨by decide +kernel, rfl, by decide, by decide, by decide, by decide, ⟨7, rfl⟩, by decide,
      by decide, by decide, by decide, by decide, by decide, by decide +kernel, by decide,
      by decide +kernel⟩

/-- With blocks of 1024 bytes all is well. -/
theorem tiny_blocks_located :
    ∃ v, (ext2Mount (imageDevice (tinyVolume 0) 16384) (some (tinySuperblock 0))).result =
        .ok (0, some v) ∧ ∀ i, 1 ≤ i → i ≤ 16 →
      ReadsRecord (tinyVolume 0) v i (recordByte (tinyVolume 0) (tinySuperblock 0) i) :=
  (inode_location_iff (tinyVolume_wellFormed (show 0 ≤ 1 by decide))).mpr (.inl rfl)

/-- **With blocks of 2048 bytes** the descriptors are looked for in the wrong block,
and the volume cannot be mounted. -/
theorem larger_blocks_not_mounted :
    WellFormedVolume (tinyVolume 1) 32768 (tinySuperblock 1) 1 ∧
      (ext2Mount (imageDevice (tinyVolume 1) 32768) (some (tinySuperblock 1))).value.map Prod.fst =
        some eio :=
  ⟨tinyVolume_wellFormed le_rfl, by decide +kernel⟩

end Volumes

end Ext2
