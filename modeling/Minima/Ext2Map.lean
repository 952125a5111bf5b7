/-
The block map of an ext2 file (`read_indirect` and `read_i_block` of
`fs/ext2/ext2.c`), compared with that of the format.

The format has file block `idx` behind a pointer of the inode: a direct one, or
the root of a tree of pointer tables, in which the digits of `idx`, less the
blocks before the tree, are the entries to follow.  `read_i_block` finds the tree
by subtracting from `idx` and the digits by division, all in 32-bit words.

`readIBlockWith` is `read_i_block` over any arithmetic: with the one that wraps
it is `readIBlock`, and with one that refuses to wrap and to leave a table it
shows which operations are safe.

* `readIBlock_map` — if no pointer on the way is zero, the device has the blocks
  they point to and its reads succeed, the block the format assigns is read, no
  product and no difference wraps, and every table is read inside;
* `far_pointer_reads_block_one` — a pointer beyond the last byte that an offset
  can address;
* `readIBlock_place` — the values of the differences that do wrap miss all the
  ranges that are tested later;
* `holes_detected_iff` — if a pointer on the way is zero, this is noticed and
  block 0 is not read iff the zero is not an entry of a table of tables.
-/
import Minima.Traced
import Minima.Blocks
import Minima.Ext2Blocks

namespace Ext2

open Blocks List

/-! ### The block map of the format -/

section Format

/-- The last `d + 1` digits of `n` in base `a`, the most significant first. -/
def digits (a : ℕ) : ℕ → ℕ → List ℕ
  | 0, n => [n % a]
  | d + 1, n => n / a ^ (d + 1) % a :: digits a d n

/-- Where the format has file block `idx`, with `a` pointers in a block: a pointer
of the inode and the entries to follow from there. -/
def place (a : ℕ) (i : Inode) (idx : ℕ) : Option (ℕ × List ℕ) :=
  if idx < 12 then some (i.dirBlock idx, [])
  else if idx - 12 < a then some (i.singlyLinked, digits a 0 (idx - 12))
  else if idx - 12 - a < a ^ 2 then some (i.doublyLinked, digits a 1 (idx - 12 - a))
  else if idx - 12 - a - a ^ 2 < a ^ 3 then
    some (i.triplyLinked, digits a 2 (idx - 12 - a - a ^ 2))
  else none

theorem exists_place {a idx : ℕ} (i : Inode) (h : idx < 12 + a + a ^ 2 + a ^ 3) :
    ∃ root ks, place a i idx = some (root, ks) := by
  rw [place]
  split_ifs with h₀ h1 h2 h3
  · exact ⟨_, _, rfl⟩
  · exact ⟨_, _, rfl⟩
  · exact ⟨_, _, rfl⟩
  · exact ⟨_, _, rfl⟩
  · omega

variable (D : ℕ → List ℕ)

/-- The pointers met from block `b` on, where `D b` is what block `b` holds. -/
def pointers : ℕ → List ℕ → List ℕ
  | b, [] => [b]
  | b, k :: ks => b :: pointers (blkptr (D b) k) ks

/-- The block that they lead to. -/
def target : ℕ → List ℕ → ℕ
  | b, [] => b
  | b, k :: ks => target (blkptr (D b) k) ks

theorem mem_pointers_self (b : ℕ) (ks : List ℕ) : b ∈ pointers D b ks := by
  cases ks with
  | nil => exact mem_singleton_self b
  | cons k ks => exact mem_cons_self

theorem pointers_tail {b k : ℕ} {ks : List ℕ} {p : ℕ} (hp : p ∈ pointers D (blkptr (D b) k) ks) :
    p ∈ pointers D b (k :: ks) :=
  mem_cons_of_mem _ hp

end Format

/-! ### `read_i_block` over any arithmetic -/

/-- The operations of `read_i_block` whose result may not be what is meant. -/
structure Arith (m : Type → Type) where
  sub : ℕ → ℕ → m ℕ
  mul : ℕ → ℕ → m ℕ
  /-- entry `k` of a table of `apb` pointers -/
  entry (apb : ℕ) (table : List ℕ) (k : ℕ) : m ℕ

section With

variable {m : Type → Type} [Monad m] (A : Arith m) (fs : Fs m)

/-- `read_block` -/
def readBlockWith (b : ℕ) : m (ℤ × List ℕ) := do
  let diskBlockOffset ← A.mul b fs.blockSize
  readBlockLoop fs ((List.range (fs.blockSize / fs.devBlockSize)).map fun i =>
    add32 diskBlockOffset (i * fs.devBlockSize)) []

/-- `cur_idx` of `read_indirect` at depth `depth + 1`. -/
def curIdxWith (idx depth : ℕ) : m ℕ :=
  if depth = 0 then pure (idx / fs.apb % fs.apb)
  else do
    let apb2 ← A.mul fs.apb fs.apb
    pure (idx / apb2 % apb2)

/-- `read_indirect` -/
def readIndirectWith (idx : ℕ) : ℕ → List ℕ → m (ℤ × List ℕ)
  | 0, cur => do
    let b ← A.entry fs.apb cur (idx % fs.apb)
    if b = 0 then pure (1, []) else readBlockWith A fs b
  | depth + 1, cur => do
    let curIdx ← curIdxWith A fs idx depth
    let b ← A.entry fs.apb cur curIdx
    let (ret, nextBlock) ← readBlockWith A fs b
    if ret ≠ 0 then pure (1, []) else readIndirectWith idx depth nextBlock

/-- One of the three `if` blocks of `read_i_block`. -/
def readLinkedWith (linked idx depth : ℕ) : m (ℤ × List ℕ) := do
  let (ret, block) ← readBlockWith A fs linked
  if ret ≠ 0 then pure (ret, []) else readIndirectWith A fs idx depth block

/-- `read_i_block` -/
def readIBlockWith (i : Inode) (idx : ℕ) : m (ℤ × List ℕ) :=
  if i.dirBlock idx ≠ 0 then readBlockWith A fs (i.dirBlock idx)
  else do
    let idx ← A.sub idx 12
    if idx < fs.apb ∧ i.singlyLinked ≠ 0 then readLinkedWith A fs i.singlyLinked idx 0
    else do
      let idx ← A.sub idx fs.apb
      let apb2 ← A.mul fs.apb fs.apb
      if idx < apb2 ∧ i.doublyLinked ≠ 0 then readLinkedWith A fs i.doublyLinked idx 1
      else do
        let idx ← A.sub idx apb2
        let apb3 ← A.mul apb2 fs.apb
        if idx < apb3 ∧ i.triplyLinked ≠ 0 then readLinkedWith A fs i.triplyLinked idx 2
        else pure (1, [])

end With

/-! ### The arithmetic of the machine, and one that refuses -/

section Arithmetics

variable {m : Type → Type} [Monad m]

/-- The arithmetic of the machine. -/
def wrapping : Arith m where
  sub x y := pure (sub32 x y)
  mul x y := pure (mul32 x y)
  entry _ table k := pure (blkptr table k)

section Wrapping

variable [LawfulMonad m] (fs : Fs m)

theorem readBlockWith_wrapping (b : ℕ) : readBlockWith wrapping fs b = readBlock fs b :=
  pure_bind ..

theorem readIndirectWith_wrapping (idx depth : ℕ) (cur : List ℕ) :
    readIndirectWith wrapping fs idx depth cur = readIndirect fs idx depth cur := by
  induction depth generalizing cur with
  | zero =>
    rw [readIndirectWith, readIndirect]
    simp only [wrapping, pure_bind]
    exact if_congr Iff.rfl rfl (readBlockWith_wrapping fs _)
  | succ depth ih =>
    rw [readIndirectWith, readIndirect]
    have hidx : curIdxWith wrapping fs idx depth = pure (if depth = 0 then idx / fs.apb % fs.apb
        else idx / mul32 fs.apb fs.apb % mul32 fs.apb fs.apb) := by
      rw [curIdxWith]
      split
      · rfl
      · exact pure_bind ..
    rw [hidx, pure_bind]
    simp only [readBlockWith_wrapping, ih]
    exact pure_bind ..

theorem readLinkedWith_wrapping (linked idx depth : ℕ) :
    readLinkedWith wrapping fs linked idx depth = readLinked fs linked idx depth := by
  simp only [readLinkedWith, readLinked, readBlockWith_wrapping, readIndirectWith_wrapping]

theorem readIBlockWith_wrapping (i : Inode) (idx : ℕ) :
    readIBlockWith wrapping fs i idx = readIBlock fs i idx := by
  rw [readIBlockWith, readIBlock]
  simp only [readBlockWith_wrapping, readLinkedWith_wrapping]
  simp only [wrapping, pure_bind]

end Wrapping

/-- What a careful arithmetic refuses. -/
inductive Refusal
  | wraps
  | outsideTable
  deriving DecidableEq

/-- Arithmetic that refuses to wrap and to read outside a table. -/
def checked : Arith (ExceptT Refusal m) where
  sub x y := if y ≤ x then pure (x - y) else throw .wraps
  mul x y := if x * y < 2 ^ 32 then pure (x * y) else throw .wraps
  entry apb table k := if k < apb then pure (blkptr table k) else throw .outsideTable

/-- The same device, below a computation that may refuse. -/
def Fs.lifted (fs : Fs m) : Fs (ExceptT Refusal m) where
  dev bytes off := ExceptT.lift (fs.dev bytes off)
  devBlockSize := fs.devBlockSize
  blockSize := fs.blockSize

/-- An arithmetic is exact where nothing goes wrong. -/
structure Arith.Exact (A : Arith m) : Prop where
  sub : ∀ {x y}, x < 2 ^ 32 → y ≤ x → A.sub x y = pure (x - y)
  mul : ∀ {x y}, x * y < 2 ^ 32 → A.mul x y = pure (x * y)
  entry : ∀ {apb table k}, k < apb → A.entry apb table k = pure (blkptr table k)

theorem wrapping_exact : (wrapping : Arith m).Exact where
  sub hx hy := congrArg pure (sub32_eq hx hy)
  mul h := congrArg pure (mul32_eq h)
  entry _ := rfl

theorem checked_exact : (checked : Arith (ExceptT Refusal m)).Exact where
  sub _ hy := if_pos hy
  mul h := if_pos h
  entry h := if_pos h

end Arithmetics

/-! ### The block that is read -/

/-- The block sizes in use. -/
def Fs.UsualSize {m : Type → Type} (fs : Fs m) : Prop :=
  fs.blockSize = 1024 ∨ fs.blockSize = 2048 ∨ fs.blockSize = 4096

variable {m : Type → Type}

theorem Fs.UsualSize.apb {fs : Fs m} (h : fs.UsualSize) :
    256 ≤ fs.apb ∧ fs.apb ≤ 1024 ∧ fs.apb * fs.apb ≤ 2 ^ 20 ∧
      fs.apb * fs.apb * fs.apb ≤ 2 ^ 30 := by
  rw [Fs.apb]
  rcases h with h | h | h
  all_goals
    rw [h]
    decide

theorem Fs.UsualSize.apb_pow {fs : Fs m} (h : fs.UsualSize) :
    fs.apb ^ 2 = fs.apb * fs.apb ∧ fs.apb ^ 3 = fs.apb * fs.apb * fs.apb ∧
      fs.apb ≤ fs.apb * fs.apb ∧ fs.apb * fs.apb ≤ fs.apb * fs.apb * fs.apb := by
  have hpos : 0 < fs.apb := by
    have := h.apb
    omega
  exact ⟨Nat.pow_two _, by rw [Nat.pow_succ, Nat.pow_two], Nat.le_mul_self _,
    Nat.le_mul_of_pos_right _ hpos⟩

theorem Fs.part_lt (fs : Fs m) {k : ℕ} (hk : k < fs.blockSize / fs.devBlockSize) :
    k * fs.devBlockSize < fs.blockSize := by
  have hdev : 0 < fs.devBlockSize := by
    rcases Nat.eq_zero_or_pos fs.devBlockSize with h0 | hpos
    · rw [h0, Nat.div_zero] at hk
      omega
    · exact hpos
  have hle := Nat.div_mul_le_self fs.blockSize fs.devBlockSize
  have hmul := Nat.mul_le_mul_right fs.devBlockSize (Nat.succ_le_of_lt hk)
  rw [Nat.succ_mul] at hmul
  omega

section Reads

variable {m : Type → Type} [Monad m] {fs : Fs m} {D : ℕ → List ℕ}

/-- The device has a block `b`, the reads of its parts succeed, and `data` is what
they deliver.  An offset on a device is a 32-bit word. -/
structure Stored (fs : Fs m) (b : ℕ) (data : List ℕ) : Prop where
  onDevice : b * fs.blockSize + fs.blockSize ≤ 2 ^ 32
  parts : ∃ part : ℕ → List ℕ, data = concat part (fs.blockSize / fs.devBlockSize) ∧
    ∀ k < fs.blockSize / fs.devBlockSize,
      fs.dev fs.devBlockSize (b * fs.blockSize + k * fs.devBlockSize) = pure (0, part k)

variable {b : ℕ} {data : List ℕ}

theorem Stored.lifted [LawfulMonad m] (h : Stored fs b data) : Stored fs.lifted b data where
  onDevice := h.onDevice
  parts := by
    obtain ⟨part, hdata, hpart⟩ := h.parts
    refine ⟨part, hdata, ?_⟩
    intro k hk
    show ExceptT.lift (fs.dev fs.devBlockSize (b * fs.blockSize + k * fs.devBlockSize)) = _
    rw [hpart k hk, ExceptT.lift, map_pure]
    rfl

variable [LawfulMonad m] {A : Arith m}

variable {ks : List ℕ}

theorem readBlockLoop_parts {part : ℕ → List ℕ} {off : ℕ → ℕ} (data : List ℕ)
    (h : ∀ k ∈ ks, fs.dev fs.devBlockSize (off k) = pure (0, part k)) :
    readBlockLoop fs (ks.map off) data = pure (0, data ++ ks.flatMap part) := by
  induction ks generalizing data with
  | nil => simp [readBlockLoop]
  | cons k ks ih =>
    rw [map_cons, readBlockLoop, h k mem_cons_self, pure_bind]
    simp only [ne_eq, not_true_eq_false, if_false]
    rw [ih _ fun x hx => h x (mem_cons_of_mem _ hx), append_assoc, flatMap_cons]

theorem readBlockWith_stored (hA : A.Exact) (hbs : 0 < fs.blockSize) (h : Stored fs b data) :
    readBlockWith A fs b = pure (0, data) := by
  obtain ⟨part, rfl, hpart⟩ := h.parts
  have hfits := h.onDevice
  rw [readBlockWith, hA.mul (by omega), pure_bind]
  have hread : ∀ k ∈ List.range (fs.blockSize / fs.devBlockSize),
      fs.dev fs.devBlockSize (add32 (b * fs.blockSize) (k * fs.devBlockSize)) =
        pure (0, part k) := by
    intro k hk
    rw [mem_range] at hk
    have hlt := fs.part_lt hk
    rw [add32_eq (by omega)]
    exact hpart k hk
  exact readBlockLoop_parts [] hread

variable {idx depth : ℕ}

section

variable (hA : A.Exact) (hbs : fs.UsualSize)
include hA hbs

theorem curIdxWith_eq (hdepth : depth < 2) (hidx : idx < fs.apb ^ 3) :
    curIdxWith A fs idx depth = pure (idx / fs.apb ^ (depth + 1) % fs.apb) := by
  obtain ⟨hmin, -, hmul, -⟩ := hbs.apb
  have hpow : fs.apb ^ 3 = fs.apb * fs.apb * fs.apb := by rw [Nat.pow_succ, Nat.pow_two]
  rw [curIdxWith]
  by_cases h0 : depth = 0
  · rw [if_pos h0, h0, Nat.pow_one]
  · obtain rfl : depth = 1 := by omega
    rw [if_neg h0, hA.mul (by omega), pure_bind, Nat.pow_two]
    -- the index is below `apb³`, so neither remainder changes anything
    have hlt : idx / (fs.apb * fs.apb) < fs.apb := Nat.div_lt_of_lt_mul (hpow ▸ hidx)
    rw [Nat.mod_eq_of_lt hlt, Nat.mod_eq_of_lt (hlt.trans_le (Nat.le_mul_self _))]

/-- **The tables are followed along the digits.**  The induction is on the depth:
one level reads the block its digit points to. -/
theorem readIndirectWith_follow (hdepth : depth ≤ 2) (hidx : idx < fs.apb ^ 3)
    (h : ∀ p ∈ pointers D b (digits fs.apb depth idx), p ≠ 0 ∧ Stored fs p (D p)) :
    readIndirectWith A fs idx depth (D b) =
      pure (0, D (target D b (digits fs.apb depth idx))) := by
  have hpos : 0 < fs.apb := by
    have := hbs.apb
    omega
  have hsize : 0 < fs.blockSize := by
    rcases hbs with h | h | h <;> omega
  induction depth generalizing b with
  | zero =>
    rw [readIndirectWith, hA.entry (Nat.mod_lt _ hpos), pure_bind]
    obtain ⟨hne, hstored⟩ := h _ (pointers_tail D (mem_pointers_self D _ _))
    rw [if_neg hne]
    exact readBlockWith_stored hA hsize hstored
  | succ depth ih =>
    rw [readIndirectWith, curIdxWith_eq hA hbs (by omega) hidx, pure_bind,
      hA.entry (Nat.mod_lt _ hpos), pure_bind]
    obtain ⟨-, hstored⟩ := h _ (pointers_tail D (mem_pointers_self D _ _))
    rw [readBlockWith_stored hA hsize hstored, pure_bind]
    exact ih (by omega) fun p hp => h p (pointers_tail D hp)

theorem readLinkedWith_follow (hdepth : depth ≤ 2) (hidx : idx < fs.apb ^ 3)
    (h : ∀ p ∈ pointers D b (digits fs.apb depth idx), p ≠ 0 ∧ Stored fs p (D p)) :
    readLinkedWith A fs b idx depth = pure (0, D (target D b (digits fs.apb depth idx))) := by
  have hsize : 0 < fs.blockSize := by
    rcases hbs with h | h | h <;> omega
  obtain ⟨-, hstored⟩ := h b (mem_pointers_self D _ _)
  rw [readLinkedWith, readBlockWith_stored hA hsize hstored, pure_bind]
  exact readIndirectWith_follow hA hbs hdepth hidx h

theorem readIBlockWith_follow {i : Inode} {root : ℕ} (hplace : place fs.apb i idx = some (root, ks))
    (h : ∀ p ∈ pointers D root ks, p ≠ 0 ∧ Stored fs p (D p)) :
    readIBlockWith A fs i idx = pure (0, D (target D root ks)) := by
  obtain ⟨hmin, hmax, hmul2, hmul3⟩ := hbs.apb
  obtain ⟨hpow2, hpow3, hle2, hle3⟩ := hbs.apb_pow
  obtain ⟨hroot, hstored⟩ := h root (mem_pointers_self D _ _)
  rw [place] at hplace
  rw [readIBlockWith]
  split_ifs at hplace with h₀ h1 h2 h3
  · obtain ⟨rfl, rfl⟩ : i.dirBlock idx = root ∧ [] = ks := by simpa using hplace
    rw [if_pos hroot]
    exact readBlockWith_stored hA (by rcases hbs with h | h | h <;> omega) hstored
  -- from here on the direct pointers are left behind
  all_goals
    obtain ⟨rfl, rfl⟩ : _ = root ∧ _ = ks := by simpa using hplace
    rw [Inode.dirBlock, dif_neg h₀, if_neg (not_not.mpr rfl)]
    rw [hA.sub (by omega) (by omega), pure_bind]
  · rw [if_pos ⟨h1, hroot⟩]
    exact readLinkedWith_follow hA hbs (by omega) (by omega) h
  · rw [if_neg fun h => h1 h.1, hA.sub (by omega) (by omega), pure_bind,
      hA.mul (by omega), pure_bind, if_pos ⟨by omega, hroot⟩]
    exact readLinkedWith_follow hA hbs (by omega) (by omega) h
  · rw [if_neg fun h => h1 h.1, hA.sub (by omega) (by omega), pure_bind,
      hA.mul (by omega), pure_bind, if_neg fun h => h2 (hpow2 ▸ h.1),
      hA.sub (by omega) (by omega), pure_bind, hA.mul (by omega), pure_bind,
      if_pos ⟨by omega, hroot⟩, ← hpow2]
    exact readLinkedWith_follow hA hbs (by omega) (by omega) h

end

/-- **The block map.**  Every file block up to the last one of the third tree has a place in the
format.  If no pointer on the way there is zero, the device has the blocks they point to and its
reads succeed, `read_i_block` reads the block there, without wrapping around and without leaving
a table. -/
theorem readIBlock_map (hbs : fs.UsualSize) (i : Inode) {idx : ℕ}
    (hidx : idx < 12 + fs.apb + fs.apb ^ 2 + fs.apb ^ 3) :
    ∃ root ks, place fs.apb i idx = some (root, ks) ∧ ∀ D : ℕ → List ℕ,
      (∀ p ∈ pointers D root ks, p ≠ 0 ∧ Stored fs p (D p)) →
      readIBlock fs i idx = pure (0, D (target D root ks)) ∧
      readIBlockWith checked fs.lifted i idx = pure (0, D (target D root ks)) := by
  obtain ⟨root, ks, hplace⟩ := exists_place i hidx
  refine ⟨root, ks, hplace, ?_⟩
  intro D h
  constructor
  · rw [← readIBlockWith_wrapping]
    exact readIBlockWith_follow wrapping_exact hbs hplace h
  · have hlifted : ∀ p ∈ pointers D root ks, p ≠ 0 ∧ Stored fs.lifted p (D p) := by
      intro p hp
      obtain ⟨hne, hstored⟩ := h p hp
      exact ⟨hne, hstored.lifted⟩
    exact readIBlockWith_follow checked_exact hbs hplace hlifted

end Reads

/-- A device whose word `n` is `n % 1000 + 1`, so that no two entries of a table are equal. -/
def countingFs : Fs Id where
  dev bytes off := (0, (List.range (bytes / 4)).flatMap fun k =>
    [((off / 4 + k) % 1000 + 1) % 256, ((off / 4 + k) % 1000 + 1) / 256, 0, 0])
  devBlockSize := 512
  blockSize := 1024

/-- A block of that device. -/
def countingBlock (b : ℕ) : List ℕ := (countingFs.dev 1024 (b * 1024)).2

/-- A file all of whose pointers are `b`. -/
def pointingTo (b : ℕ) : Inode := ⟨0, fun _ => b, b, b, b, fun _ => 0⟩

/-- A block of the third tree: entry 3 of table 1 is 260, entry 5 of table 260 is 566, and entry 7
of table 566 is 904. -/
theorem counting_read_through_tables :
    place countingFs.apb (pointingTo 1) 263699 = some (1, [3, 5, 7]) ∧
      readIBlock countingFs (pointingTo 1) 263699 = (0, countingBlock 904) := by
  refine ⟨by decide +kernel, ?_⟩
  obtain ⟨root, ks, hroot, hmap⟩ := readIBlock_map (show countingFs.UsualSize from Or.inl rfl)
    (pointingTo 1) (show 263699 < 12 + 256 + 256 ^ 2 + 256 ^ 3 by decide)
  obtain ⟨rfl, rfl⟩ : 1 = root ∧ [3, 5, 7] = ks := by
    rw [show place countingFs.apb (pointingTo 1) 263699 = some (1, [3, 5, 7]) by decide +kernel]
      at hroot
    simpa using hroot
  have hpath : pointers countingBlock 1 [3, 5, 7] = [1, 260, 566, 904] := by decide +kernel
  refine (hmap countingBlock ?_).1
  rw [hpath]
  have hparts : ∀ b ∈ [1, 260, 566, 904], countingBlock b =
      concat (fun k => (countingFs.dev 512 (b * 1024 + k * 512)).2) 2 := by
    decide +kernel
  have hsmall : ∀ b ∈ [1, 260, 566, 904], b ≠ 0 ∧ b * 1024 + 1024 ≤ 2 ^ 32 := by decide
  intro b hb
  exact ⟨(hsmall b hb).1, (hsmall b hb).2, _, hparts b hb, fun _ _ => rfl⟩

/-- **A pointer whose byte offset wraps.**  The first block of the file is block `2 ^ 22 + 1`, all
twos, but the product with the block size is taken as a 32-bit word: block 1, all ones, is
delivered without an error. -/
theorem far_pointer_reads_block_one :
    place (twoToneFs Id 1024).apb (pointingTo (2 ^ 22 + 1)) 0 = some (2 ^ 22 + 1, []) ∧
      (twoToneFs Id 1024).dev 1024 ((2 ^ 22 + 1) * 1024) = (0, List.replicate 1024 2) ∧
      readIBlock (twoToneFs Id 1024) (pointingTo (2 ^ 22 + 1)) 0 = (0, List.replicate 1024 1) ∧
      readIBlockWith checked (twoToneFs Id 1024).lifted (pointingTo (2 ^ 22 + 1)) 0 =
        throw .wraps := by
  refine ⟨by decide +kernel, rfl, ?_, rfl⟩
  have hwraps : mul32 (2 ^ 22 + 1) (2 ^ 10) = 1 * 2 ^ 10 := by decide
  have hread : readBlock (twoToneFs Id (2 ^ 10)) (2 ^ 22 + 1) =
      pure (0, List.replicate (2 ^ 10) 1) := readBlock_twoTone le_rfl hwraps (by decide) rfl
  rw [readIBlock, if_pos (by decide)]
  exact hread

/-! ### Holes -/

section Spy

/-- The device, with the offsets of its reads on record. -/
def Fs.spied (fs : Fs Id) (ε : Type) : Fs (Traced ℕ ε) where
  dev bytes off := ⟨[off], .ok (fs.dev bytes off)⟩
  devBlockSize := fs.devBlockSize
  blockSize := fs.blockSize

variable {fs : Fs Id}

/-- The contents of block `b`. -/
def Fs.block (fs : Fs Id) (b : ℕ) : List ℕ := (readBlock fs b).2

/-- The device reads of `read_block(fs, b, ...)` succeed. -/
def Fs.Readable (fs : Fs Id) (b : ℕ) : Prop := (readBlock fs b).1 = 0

/-- An error is returned, and no byte of block 0 of the device has been read. -/
structure Noticed (fs : Fs Id) (x : Traced ℕ Empty (ℤ × List ℕ)) : Prop where
  returns : ∃ r, x.result = .ok r ∧ r.1 ≠ 0
  avoids : ∀ off ∈ x.calls, fs.blockSize ≤ off

theorem readBlockLoop_spied (fs : Fs Id) (ε : Type) (offs data : List ℕ) :
    (readBlockLoop (fs.spied ε) offs data).result = .ok (readBlockLoop fs offs data) ∧
      (readBlockLoop (fs.spied ε) offs data).calls <+: offs ∧
      (∀ off, offs.head? = some off → off ∈ (readBlockLoop (fs.spied ε) offs data).calls) ∧
      ((readBlockLoop fs offs data).1 = 0 →
        (readBlockLoop (fs.spied ε) offs data).calls = offs) := by
  induction offs generalizing data with
  | nil => exact ⟨rfl, nil_prefix, by simp, fun _ => rfl⟩
  | cons off offs ih =>
    rcases hread : fs.dev fs.devBlockSize off with ⟨ret, bytes⟩
    have hdev : ((fs.spied ε).dev (fs.spied ε).devBlockSize off).result = .ok (ret, bytes) :=
      congrArg Except.ok hread
    have hstep : readBlockLoop fs (off :: offs) data =
        if ret ≠ 0 then pure (1, data ++ bytes) else readBlockLoop fs offs (data ++ bytes) := by
      show (match fs.dev fs.devBlockSize off with
        | (ret, bytes) => if ret ≠ 0 then pure (1, data ++ bytes)
          else readBlockLoop fs offs (data ++ bytes)) = _
      rw [hread]
    rw [hstep, readBlockLoop, Traced.bind_of_ok hdev]
    simp only
    have hcall : ((fs.spied ε).dev (fs.spied ε).devBlockSize off).calls = [off] := rfl
    rw [hcall]
    by_cases hret : ret ≠ 0
    · rw [if_pos hret, if_pos hret]
      exact ⟨rfl, by simp [pure], by simp, fun h => absurd h one_ne_zero⟩
    · rw [if_neg hret, if_neg hret]
      obtain ⟨hres, hcalls, -, hall⟩ := ih (data ++ bytes)
      exact ⟨hres, cons_prefix_cons.mpr ⟨rfl, hcalls⟩, by simp,
        fun h => congrArg (off :: ·) (hall h)⟩

theorem mul32_block {bs n : ℕ} (hn : 2 ^ 32 = n * bs) (b : ℕ) :
    ∃ q, mul32 b bs = q * bs ∧ q * bs + bs ≤ 2 ^ 32 := by
  have hpos : 0 < n := by
    rcases Nat.eq_zero_or_pos n with h0 | hpos
    · rw [h0, Nat.zero_mul] at hn
      omega
    · exact hpos
  refine ⟨b % n, ?_, ?_⟩
  · rw [mul32, hn, Nat.mul_mod_mul_right]
  · have := Nat.mul_le_mul_right bs (Nat.succ_le_of_lt (Nat.mod_lt b hpos))
    rw [Nat.succ_mul] at this
    omega

variable {m : Type → Type}

theorem Fs.UsualSize.dvd {fs : Fs m} (hbs : fs.UsualSize) : ∃ n, 2 ^ 32 = n * fs.blockSize := by
  rcases hbs with h | h | h
  · exact ⟨2 ^ 22, by omega⟩
  · exact ⟨2 ^ 21, by omega⟩
  · exact ⟨2 ^ 20, by omega⟩

theorem readBlock_spied (hbs : fs.UsualSize) (hdev : 0 < fs.devBlockSize)
    (hle : fs.devBlockSize ≤ fs.blockSize) (ε : Type) (b : ℕ) :
    (readBlock (fs.spied ε) b).result = .ok (readBlock fs b) ∧
      ((∀ off ∈ (readBlock (fs.spied ε) b).calls, fs.blockSize ≤ off) ↔
        mul32 b fs.blockSize ≠ 0) := by
  obtain ⟨hres, hcalls, hhead, -⟩ := readBlockLoop_spied fs ε
    ((List.range (fs.blockSize / fs.devBlockSize)).map fun i =>
      add32 (mul32 b fs.blockSize) (i * fs.devBlockSize)) []
  refine ⟨hres, ?_⟩
  obtain ⟨n, hn⟩ := hbs.dvd
  obtain ⟨q, hq, hend⟩ := mul32_block hn b
  have hparts : 0 < fs.blockSize / fs.devBlockSize := Nat.div_pos hle hdev
  constructor
  · -- the first device block of block 0 would be read at once
    intro havoid hzero
    have hfirst : mul32 b fs.blockSize ∈ (readBlock (fs.spied ε) b).calls := by
      refine hhead _ ?_
      obtain ⟨n, hn⟩ : ∃ n, fs.blockSize / fs.devBlockSize = n + 1 :=
        ⟨_, (Nat.succ_pred hparts.ne').symm⟩
      rw [hn, range_succ_eq_map, map_cons, head?_cons, Nat.zero_mul, add32_eq]
      · rfl
      · omega
    have := havoid _ hfirst
    omega
  · intro hne off hoff
    obtain ⟨k, hk, rfl⟩ := mem_map.mp (hcalls.subset hoff)
    have hlt := fs.part_lt (mem_range.mp hk)
    rw [add32_eq (by omega), hq]
    have hq1 : 1 ≤ q := by
      rcases Nat.eq_zero_or_pos q with h0 | hpos
      · rw [hq, h0, Nat.zero_mul] at hne
        exact absurd rfl hne
      · exact hpos
    have := Nat.mul_le_mul_right fs.blockSize hq1
    omega

/-- As far as the device can be read, no table from block `b` on is block 0, under
its own number or one that the 32-bit offset takes for 0. -/
def Clean (fs : Fs Id) : ℕ → List ℕ → Prop
  | _, [] => True
  | b, k :: ks => mul32 b fs.blockSize ≠ 0 ∧
    (fs.Readable b → Clean fs (blkptr (fs.block b) k) ks)

/-- Reading table `b` and following it, with the error `err` if it cannot be read. -/
def readTable (fs : Fs Id) (err : ℤ → ℤ) (idx depth b : ℕ) : Traced ℕ Empty (ℤ × List ℕ) := do
  let (ret, block) ← readBlock (fs.spied Empty) b
  if ret ≠ 0 then pure (err ret, []) else readIndirect (fs.spied Empty) idx depth block

theorem noticed_bind {x : Traced ℕ Empty (ℤ × List ℕ)} {r : ℤ × List ℕ}
    {f : ℤ × List ℕ → Traced ℕ Empty (ℤ × List ℕ)} (hx : x.result = .ok r) :
    Noticed fs (x >>= f) ↔ (∀ off ∈ x.calls, fs.blockSize ≤ off) ∧ Noticed fs (f r) := by
  rw [Traced.bind_of_ok hx]
  constructor
  · intro h
    exact ⟨fun off hoff => h.avoids off (mem_append_left _ hoff), h.returns,
      fun off hoff => h.avoids off (mem_append_right _ hoff)⟩
  · rintro ⟨hx, h⟩
    refine ⟨h.returns, ?_⟩
    intro off hoff
    rcases mem_append.mp hoff with hoff | hoff
    · exact hx off hoff
    · exact h.avoids off hoff

theorem noticed_pure {ret : ℤ} {data : List ℕ} (h : ret ≠ 0) :
    Noticed fs (pure (ret, data) : Traced ℕ Empty (ℤ × List ℕ)) where
  returns := ⟨_, rfl, h⟩
  avoids := by simp [pure]

variable {idx depth : ℕ}

/-- One level of `read_indirect` is a table that is read without looking at its
number. -/
theorem readIndirect_succ (hbs : fs.UsualSize) (hdepth : depth < 2) (hidx : idx < fs.apb ^ 3)
    (cur : List ℕ) :
    readIndirect (fs.spied Empty) idx (depth + 1) cur =
      readTable fs (fun _ => 1) idx depth (blkptr cur (idx / fs.apb ^ (depth + 1) % fs.apb)) := by
  have hcur : (if depth = 0 then idx / fs.apb % fs.apb
      else idx / mul32 fs.apb fs.apb % mul32 fs.apb fs.apb) =
        idx / fs.apb ^ (depth + 1) % fs.apb := by
    have h := curIdxWith_eq (wrapping_exact) hbs hdepth hidx
    rw [curIdxWith] at h
    split_ifs at h with h0
    · rw [if_pos h0]
      exact h
    · rw [if_neg h0]
      exact h
  rw [readIndirect, readTable]
  show (readBlock (fs.spied Empty) (blkptr cur (if depth = 0 then idx / fs.apb % fs.apb
      else idx / mul32 fs.apb fs.apb % mul32 fs.apb fs.apb)) >>= _) = _
  rw [hcur]

/-- **A zero on the way through the tables** is noticed iff the tables are clean.
The induction is on the depth; the last level is the one that is checked. -/
theorem readTable_noticed_iff (hbs : fs.UsualSize) (hdev : 0 < fs.devBlockSize)
    (hle : fs.devBlockSize ≤ fs.blockSize) {err : ℤ → ℤ} (herr : ∀ r, r ≠ 0 → err r ≠ 0) {b : ℕ}
    (hdepth : depth ≤ 2) (hidx : idx < fs.apb ^ 3)
    (hzero : 0 ∈ pointers fs.block b (digits fs.apb depth idx)) :
    Noticed fs (readTable fs err idx depth b) ↔ Clean fs b (digits fs.apb depth idx) := by
  have hfirst : ∀ {b}, b = 0 → mul32 b fs.blockSize = 0 := by
    rintro b rfl
    rw [mul32, Nat.zero_mul]
    rfl
  induction depth generalizing b err with
  | zero =>
    obtain ⟨hres, havoid⟩ := readBlock_spied hbs hdev hle Empty b
    rw [readTable, noticed_bind hres, havoid, digits, Clean]
    refine and_congr_right fun hne => iff_of_true ?_ fun _ => trivial
    show Noticed fs (if (readBlock fs b).1 ≠ 0 then pure (err (readBlock fs b).1, [])
      else readIndirect (fs.spied Empty) idx 0 (fs.block b))
    by_cases hread : (readBlock fs b).1 ≠ 0
    · rw [if_pos hread]
      exact noticed_pure (herr _ hread)
    · rw [if_neg hread, readIndirect]
      -- `b` itself is not zero, so the pointer to the data is
      rcases mem_cons.mp hzero with h0 | h0
      · exact absurd (hfirst h0.symm) hne
      · have h0 : blkptr (fs.block b) (idx % fs.apb) = 0 := (mem_singleton.mp h0).symm
        show Noticed fs (if blkptr (fs.block b) (idx % fs.apb) = 0 then pure (1, []) else _)
        rw [if_pos h0]
        exact noticed_pure one_ne_zero
  | succ depth ih =>
    obtain ⟨hres, havoid⟩ := readBlock_spied hbs hdev hle Empty b
    rw [readTable, noticed_bind hres, havoid, digits, Clean]
    refine and_congr_right fun hne => ?_
    show Noticed fs (if (readBlock fs b).1 ≠ 0 then pure (err (readBlock fs b).1, [])
      else readIndirect (fs.spied Empty) idx (depth + 1) (fs.block b)) ↔ _
    by_cases hread : (readBlock fs b).1 ≠ 0
    · rw [if_pos hread]
      exact iff_of_true (noticed_pure (herr _ hread)) fun h => absurd h hread
    · rw [if_neg hread, readIndirect_succ hbs (by omega) hidx]
      have hreadable : fs.Readable b := not_not.mp hread
      rw [forall_prop_of_true hreadable]
      rcases mem_cons.mp hzero with h0 | h0
      · exact absurd (hfirst h0.symm) hne
      · exact ih (fun _ _ => one_ne_zero) (by omega) h0

/-- **Which pointer of the inode decides.**  If it is zero, the index, less more than
there is, misses every range that is tested later, and the call fails; otherwise
the block or the tree behind it is read. -/
theorem readIBlock_place [Monad m] {fs : Fs m} (hbs : fs.UsualSize) {i : Inode} {root : ℕ}
    {ks : List ℕ} (hplace : place fs.apb i idx = some (root, ks)) :
    (root = 0 → readIBlock fs i idx = pure (1, [])) ∧
    (root ≠ 0 → (ks = [] ∧ readIBlock fs i idx = readBlock fs root) ∨
      ∃ depth ≤ 2, ∃ j < fs.apb ^ 3, ks = digits fs.apb depth j ∧
        readIBlock fs i idx = readLinked fs root j depth) := by
  obtain ⟨hmin, hmax, hmul2, hmul3⟩ := hbs.apb
  obtain ⟨hpow2, hpow3, hle2, hle3⟩ := hbs.apb_pow
  have hsub : ∀ {x y}, x < y → y ≤ 2 ^ 30 → 2 ^ 32 - 2 ^ 30 ≤ sub32 x y := by
    intro x y hxy hy
    rw [sub32, Nat.mod_eq_of_lt (by omega)]
    omega
  have hfar : ∀ {x y}, 2 ^ 31 ≤ x → x < 2 ^ 32 → y ≤ 2 ^ 20 → sub32 x y = x - y := by
    intro x y hx hlt hy
    exact sub32_eq hlt (by omega)
  have hword : ∀ x y, sub32 x y < 2 ^ 32 := fun x y => Nat.mod_lt _ (by decide)
  rw [place] at hplace
  rw [readIBlock, mul32_eq (show fs.apb * fs.apb < 2 ^ 32 by omega),
    mul32_eq (show fs.apb * fs.apb * fs.apb < 2 ^ 32 by omega)]
  split_ifs at hplace with h₀ h1 h2 h3
  · obtain ⟨rfl, rfl⟩ : i.dirBlock idx = root ∧ [] = ks := by simpa using hplace
    refine ⟨?_, fun hroot => .inl ⟨rfl, if_pos hroot⟩⟩
    intro hroot
    have hfst := hsub h₀ (by omega)
    have hlt := hword idx 12
    rw [if_neg (not_not.mpr hroot), if_neg fun h => by omega]
    rw [hfar (by omega) hlt (by omega), if_neg fun h => by omega]
    rw [hfar (by omega) (by omega) hmul2, if_neg fun h => by omega]
  all_goals
    obtain ⟨rfl, rfl⟩ : _ = root ∧ _ = ks := by simpa using hplace
    rw [Inode.dirBlock, dif_neg h₀, if_neg (not_not.mpr rfl)]
    rw [sub32_eq (by omega) (show 12 ≤ idx by omega)]
  · refine ⟨?_, fun hroot => .inr ⟨0, by omega, idx - 12, by omega, rfl, if_pos ⟨h1, hroot⟩⟩⟩
    intro hroot
    have hsnd := hsub h1 (by omega)
    have hlt := hword (idx - 12) fs.apb
    rw [if_neg fun h => h.2 hroot, if_neg fun h => by omega]
    rw [hfar (by omega) hlt hmul2, if_neg fun h => by omega]
  · rw [if_neg fun h => h1 h.1, sub32_eq (by omega) (show fs.apb ≤ idx - 12 by omega)]
    refine ⟨?_, fun hroot => .inr ⟨1, by omega, _, by omega, rfl, if_pos ⟨by omega, hroot⟩⟩⟩
    intro hroot
    have hthd := hsub (hpow2 ▸ h2) (by omega)
    rw [if_neg fun h => h.2 hroot, if_neg fun h => by omega]
  · rw [if_neg fun h => h1 h.1, sub32_eq (by omega) (show fs.apb ≤ idx - 12 by omega),
      if_neg fun h => h2 (hpow2 ▸ h.1), sub32_eq (by omega) (by omega), ← hpow2]
    refine ⟨fun hroot => if_neg fun h => h.2 hroot, fun hroot => .inr ⟨2, le_rfl, _, h3, rfl, ?_⟩⟩
    exact if_pos ⟨h3, hroot⟩

/-- **Holes.**  If a pointer on the way to a file block is zero, `read_i_block` returns an error
without reading block 0 iff the pointer of the inode is zero, or the tables on the way, as far
as they can be read, are other blocks than block 0. -/
theorem holes_detected_iff (hbs : fs.UsualSize) (hdev : 0 < fs.devBlockSize)
    (hle : fs.devBlockSize ≤ fs.blockSize) {i : Inode} {idx root : ℕ} {ks : List ℕ}
    (hplace : place fs.apb i idx = some (root, ks)) (hzero : 0 ∈ pointers fs.block root ks) :
    Noticed fs (readIBlock (fs.spied Empty) i idx) ↔ root = 0 ∨ Clean fs root ks := by
  have hspied : (fs.spied Empty).UsualSize := hbs
  obtain ⟨hroot, htree⟩ := readIBlock_place hspied hplace
  by_cases h0 : root = 0
  · rw [hroot h0]
    exact iff_of_true (noticed_pure one_ne_zero) (.inl h0)
  rw [or_iff_right h0]
  rcases htree h0 with ⟨rfl, -⟩ | ⟨depth, hdepth, j, hj, rfl, hread⟩
  · exact absurd (mem_singleton.mp hzero).symm h0
  · rw [hread]
    exact readTable_noticed_iff hbs hdev hle (fun _ h => h) hdepth hj hzero

end Spy

/-- A block of pointers to block 1. -/
def toOne (bytes : ℕ) : List ℕ := (List.replicate (bytes / 4) [1, 0, 0, 0]).flatten

/-- A device whose block 1 is empty; all its other words are one. -/
def holeFs : Fs Id where
  dev bytes off := (0, if off / 1024 = 1 then List.replicate bytes 0 else toOne bytes)
  devBlockSize := 512
  blockSize := 1024

/-- A file whose tables are all in block 1. -/
def holeInode : Inode := ⟨0, fun _ => 0, 1, 1, 1, fun _ => 0⟩

/-- A zero in the last table is noticed. -/
theorem hole_in_last_table :
    place holeFs.apb holeInode 12 = some (1, [0]) ∧ 0 ∈ pointers holeFs.block 1 [0] ∧
      Noticed holeFs (readIBlock (holeFs.spied Empty) holeInode 12) := by
  have hplace : place holeFs.apb holeInode 12 = some (1, [0]) := by decide +kernel
  have hzero : 0 ∈ pointers holeFs.block 1 [0] := by decide +kernel
  refine ⟨hplace, hzero, ?_⟩
  refine (holes_detected_iff (.inl rfl) (by decide) (by decide) hplace hzero).mpr (.inr ?_)
  exact ⟨by decide, fun _ => trivial⟩

/-- **A zero in a table of tables is not**: block 0 is read and taken for the table
that is missing, and the call succeeds. -/
theorem hole_in_table_of_tables :
    place holeFs.apb holeInode (12 + 256) = some (1, [0, 0]) ∧
      0 ∈ pointers holeFs.block 1 [0, 0] ∧
      (readIBlock (holeFs.spied Empty) holeInode (12 + 256)).value =
        some (0, List.replicate 1024 0) ∧
      (readIBlock (holeFs.spied Empty) holeInode (12 + 256)).calls =
        [1024, 1536, 0, 512, 1024, 1536] := by
  decide +kernel

end Ext2
