/-
Walking an ext2 directory (`iterate_dirents` of `fs/ext2/ext2.c`) whatever its
blocks hold.

The loop trusts the lengths on disk: it reads a header wherever the last record
ends, as long as that is before the end of the block, and passes the record on
without a look at the length of its name.  It takes the blocks from
`dir_blocks[i]` until a pointer is zero, and there are only twelve of these.

* `blockLoop_eq` — the calls that are made, for every content of the blocks;
* `iterate_dirents_safe_iff` — every header and every name lies inside its block
  iff the walk meets only records for which this is so;
* `iterate_dirents_complete_iff` — the calls are those for the live entries of a
  well-formed directory iff it has at most twelve blocks: after twelve the table
  of pointers is taken for a block of records.
-/
import Minima.Ext2Dir
import Minima.Ext2Map

namespace Ext2

open List

/-! ### The headers and the calls -/

section Walk

variable (v : Volume Id)

/-- How far the next header is from the one at `off`. -/
def stride (block : List ℕ) (off : ℕ) : ℕ :=
  if (direntAt block off).size ≠ 0 then (direntAt block off).size else v.blockSize

/-- The offsets of the headers that the loop over a block reads. -/
def headers (block : List ℕ) : ℕ → ℕ → List ℕ
  | 0, _ => []
  | fuel + 1, off =>
    if off < v.blockSize then off :: headers block fuel (off + stride v block off) else []

/-- The header at `off` is that of an entry in use. -/
def IsLive (block : List ℕ) (off : ℕ) : Bool := (direntAt block off).inode ≠ 0

/-- The blocks that the loop walks through: up to a zero pointer, or one that
cannot be read. -/
def walked (words : List ℕ) : List ℕ :=
  words.takeWhile fun b => b ≠ 0 ∧ (readBlock v.toFs b).1 = 0

/-- The calls, each as a block and an offset in it. -/
def calls (words : List ℕ) : List (ℕ × ℕ) :=
  (walked v words).flatMap fun b =>
    ((headers v (v.block b) (v.blockSize + 1) 0).filter (IsLive (v.block b))).map (b, ·)

variable {v} {off fuel : ℕ}

theorem stride_pos (block : List ℕ) (h : off < v.blockSize) : 0 < stride v block off := by
  rw [stride]
  split
  · omega
  · omega

variable {σ : Type} (cb : DirEntry → σ → Id σ)

/-- The callback for one call. -/
def callAt (v : Volume Id) (c : σ) (p : ℕ × ℕ) : σ := (cb (direntAt (v.block p.1) p.2) c).run

/-- **One block**, on every content: each header is at least a byte after the
last, so that as many rounds as the block has bytes are enough. -/
theorem direntLoop_eq (b : ℕ) (h : v.blockSize - off < fuel) (c : σ) :
    direntLoop v cb (v.block b) fuel off c = pure
      ((((headers v (v.block b) fuel off).filter (IsLive (v.block b))).map (b, ·)).foldl
        (callAt cb v) c) := by
  induction fuel generalizing off c with
  | zero => omega
  | succ fuel ih =>
    rw [direntLoop, headers]
    by_cases hoff : off < v.blockSize
    · have hpos := stride_pos (v.block b) hoff
      have htail := @ih (off + stride v (v.block b) off) (by omega)
      rw [if_pos hoff, if_pos hoff]
      by_cases hino : (direntAt (v.block b) off).inode = 0
      · rw [filter_cons_of_neg (by simp [IsLive, hino])]
        simp only [hino, if_true]
        exact htail c
      · rw [filter_cons_of_pos (by simp [IsLive, hino])]
        simp only [hino, if_false]
        exact htail _
    · rw [if_neg hoff, if_neg hoff]
      rfl

theorem blockLoop_eq (words : List ℕ) (c : σ) :
    blockLoop v cb words c =
      if walked v words = words then throw .unassigned
      else pure ((calls v words).foldl (callAt cb v) c) := by
  induction words generalizing c with
  | nil => rfl
  | cons b words ih =>
    by_cases hb : b = 0 ∨ (readBlock v.toFs b).1 ≠ 0
    · have hwalked : walked v (b :: words) = [] :=
        takeWhile_cons_of_neg (by simpa using hb.resolve_left)
      rw [if_neg (by simp [hwalked]), calls, hwalked, blockLoop]
      by_cases hzero : b = 0
      · rw [if_pos hzero]
        rfl
      · rw [if_neg hzero]
        exact if_pos (hb.resolve_left hzero)
    · obtain ⟨hne, hread⟩ := not_or.mp hb
      have hwalked : walked v (b :: words) = b :: walked v words :=
        takeWhile_cons_of_pos (by simpa using ⟨hne, not_not.mp hread⟩)
      rw [blockLoop, if_neg hne, calls, hwalked, flatMap_cons, foldl_append]
      simp only [List.cons.injEq, true_and]
      refine Eq.trans ?_ (ih _)
      refine (if_neg hread).trans ?_
      exact congrArg (· >>= blockLoop v cb words) (direntLoop_eq cb b (Nat.lt_succ_self _) c)

end Walk

/-! ### Safety -/

/-- The header at `off` lies inside the block and so does the name, if the
record is passed on. -/
def InBlock (v : Volume Id) (block : List ℕ) (off : ℕ) : Prop :=
  off + 8 ≤ v.blockSize ∧
    (IsLive block off → off + 8 + nameLen v (direntAt block off) ≤ v.blockSize)

/-- **Safe iteration**: with any callback it returns, all headers it reads lie
inside their blocks, and all names it passes on do. -/
def SafeWalk (v : Volume Id) (inode : Inode) : Prop :=
  (∀ {σ : Type} (cb : DirEntry → σ → Id σ) (c : σ), ∃ c', iterateDirents v cb inode c = pure c') ∧
    ∀ b ∈ walked v inode.blockWords, ∀ off ∈ headers v (v.block b) (v.blockSize + 1) 0,
      InBlock v (v.block b) off

/-- The records from `off` on are in the block up to one whose length leads to
its end or past it; a length of zero does. -/
inductive Walkable (v : Volume Id) (block : List ℕ) : ℕ → Prop
  | past {off : ℕ} : v.blockSize ≤ off → Walkable v block off
  | record {off : ℕ} : InBlock v block off → Walkable v block (off + stride v block off) →
      Walkable v block off

variable {v : Volume Id} {block : List ℕ} {off fuel : ℕ}

theorem walkable_iff (h : off < v.blockSize) :
    Walkable v block off ↔ InBlock v block off ∧ Walkable v block (off + stride v block off) := by
  constructor
  · intro hwalk
    cases hwalk with
    | past hpast => omega
    | record hin hnext => exact ⟨hin, hnext⟩
  · rintro ⟨hin, hnext⟩
    exact .record hin hnext

theorem headers_inBlock_iff (h : v.blockSize - off < fuel) :
    (∀ o ∈ headers v block fuel off, InBlock v block o) ↔ Walkable v block off := by
  induction fuel generalizing off with
  | zero => omega
  | succ fuel ih =>
    rw [headers]
    by_cases hoff : off < v.blockSize
    · have hpos := stride_pos block hoff
      rw [if_pos hoff, walkable_iff hoff, forall_mem_cons, ih (by omega)]
    · rw [if_neg hoff]
      exact iff_of_true (fun o ho => nomatch ho) (.past (by omega))

theorem returns_iff {inode : Inode} {σ : Type} (cb : DirEntry → σ → Id σ) (c : σ) :
    (∃ c', iterateDirents v cb inode c = pure c') ↔
      walked v inode.blockWords ≠ inode.blockWords := by
  rw [iterateDirents, blockLoop_eq]
  by_cases h : walked v inode.blockWords = inode.blockWords
  · rw [if_pos h]
    refine iff_of_false ?_ (not_not.mpr h)
    rintro ⟨c', hc'⟩
    cases hc'
  · rw [if_neg h]
    exact iff_of_true ⟨_, rfl⟩ h

/-- **When iteration is safe**: one of the words of the inode ends it, and each
block that is walked through has records that can be walked. -/
theorem iterate_dirents_safe_iff (v : Volume Id) (inode : Inode) :
    SafeWalk v inode ↔ walked v inode.blockWords ≠ inode.blockWords ∧
      ∀ b ∈ walked v inode.blockWords, Walkable v (v.block b) 0 := by
  refine and_congr ⟨fun h => ?_, fun h σ cb c => (returns_iff cb c).mpr h⟩ ?_
  · exact (returns_iff (fun _ => pure) ()).mp (h _ _)
  · exact forall₂_congr fun b _ => headers_inBlock_iff (Nat.lt_succ_self _)

/-- A volume all of whose blocks are full of the bytes `252, 3`. -/
def oddVolume : Volume Id :=
  { fooVolume with
    dev := fun bytes _ => pure (0, (List.range bytes).map fun k => if k % 2 = 0 then 252 else 3)
    devBlockSize := 1024 }

/-- **A header across the end of the block**: the record at 0 has length 1020,
and the one at 1020 is read and passed on. -/
theorem header_past_block :
    calls oddVolume fooDir.inode.blockWords = [(5, 0), (5, 1020)] ∧
      ¬ SafeWalk oddVolume fooDir.inode := by
  have hheaders : headers oddVolume (oddVolume.block 5) 1025 0 = [0, 1020] := by decide +kernel
  have hwalked : walked oddVolume fooDir.inode.blockWords = [5] := by decide +kernel
  refine ⟨by decide +kernel, fun h => ?_⟩
  have hin := h.2 5 (hwalked ▸ mem_singleton_self 5) 1020 (hheaders ▸ by decide)
  exact absurd hin.1 (by decide)

/-! ### Completeness -/

/-- The offsets of the entries in use among the records `es`, from `off` on. -/
def liveOffsets : ℕ → List Entry → List ℕ
  | _, [] => []
  | off, e :: es =>
    if e.inode = 0 then liveOffsets (off + e.recLen) es else off :: liveOffsets (off + e.recLen) es

/-- The calls for the entries in use, in the order of the file, where the data
blocks `ptrs` hold the records `blocks`. -/
def expected (ptrs : List ℕ) (blocks : List (List Entry)) : List (ℕ × ℕ) :=
  (ptrs.zip blocks).flatMap fun p => (liveOffsets 0 p.2).map (p.1, ·)

/-- **A well-formed directory** of any size: its data blocks `ptrs` hold the
records `blocks`, the block map of the format leads to them, and no table of
pointers is a data block. -/
structure Directory (v : Volume Id) (inode : Inode) (ptrs : List ℕ) (blocks : List (List Entry)) :
    Prop where
  holds : List.Forall₂ (BlockHolds v) ptrs blocks
  direct : List.ofFn inode.dirBlocks = ptrs.take 12 ++ List.replicate (12 - ptrs.length) 0
  unused : ptrs.length ≤ 12 → inode.singlyLinked = 0
  mapped : ∀ i (hi : i < ptrs.length), 12 ≤ i → ∃ root ks, place v.apb inode i = some (root, ks) ∧
    target v.block root ks = ptrs[i] ∧ (∀ p ∈ pointers v.block root ks, p ≠ 0 ∧ v.Readable p) ∧
    ∀ p ∈ (pointers v.block root ks).dropLast, p ∉ ptrs

/-- The callback is called for each entry in use, in order, and for nothing else. -/
def Complete (v : Volume Id) (inode : Inode) (ptrs : List ℕ) (blocks : List (List Entry)) : Prop :=
  calls v inode.blockWords = expected ptrs blocks ∧
    ∀ {σ : Type} (cb : DirEntry → σ → Id σ) (c : σ),
      iterateDirents v cb inode c = pure ((expected ptrs blocks).foldl (callAt cb v) c)

theorem headers_laid {es : List Entry} (h : Laid v block off es)
    (hfuel : v.blockSize - off < fuel) :
    (headers v block fuel off).filter (IsLive block) = liveOffsets off es := by
  induction h generalizing fuel with
  | done =>
    obtain ⟨fuel, rfl⟩ : ∃ k, fuel = k + 1 := ⟨fuel - 1, by omega⟩
    rw [headers, if_neg (Nat.lt_irrefl _)]
    rfl
  | @record off e es hd hlen hend _ ih =>
    obtain ⟨fuel, rfl⟩ : ∃ k, fuel = k + 1 := ⟨fuel - 1, by omega⟩
    have hstride : stride v block off = e.recLen := by
      rw [stride, hd.size, if_pos (by omega)]
    rw [headers, if_pos (by omega), hstride, liveOffsets]
    by_cases hino : e.inode = 0
    · rw [filter_cons_of_neg (by simp [IsLive, hd.inode, hino]), if_pos hino, ih (by omega)]
    · rw [filter_cons_of_pos (by simp [IsLive, hd.inode, hino]), if_neg hino, ih (by omega)]

variable {ptrs : List ℕ} {blocks : List (List Entry)}

theorem calls_append (h : List.Forall₂ (BlockHolds v) ptrs blocks) (words : List ℕ) :
    walked v (ptrs ++ words) = ptrs ++ walked v words ∧
      calls v (ptrs ++ words) = expected ptrs blocks ++ calls v words := by
  induction h with
  | nil => exact ⟨rfl, rfl⟩
  | @cons b es ptrs blocks hb _ ih =>
    obtain ⟨hne, bytes, hread, hlaid⟩ := hb
    have hret : (readBlock v.toFs b).1 = 0 := congrArg (fun r : Id (ℤ × List ℕ) => r.run.1) hread
    have hblock : v.block b = bytes := congrArg (fun r : Id (ℤ × List ℕ) => r.run.2) hread
    have hwalked : walked v (b :: ptrs ++ words) = b :: walked v (ptrs ++ words) :=
      takeWhile_cons_of_pos (by simpa using ⟨hne, hret⟩)
    have hlive := headers_laid hlaid (Nat.lt_succ_self _)
    refine ⟨by rw [hwalked, ih.1]; rfl, ?_⟩
    rw [calls, hwalked, flatMap_cons, hblock]
    refine (congrArg₂ (· ++ ·) (congrArg _ hlive) ih.2).trans ?_
    exact (append_assoc ..).symm

theorem fst_mem_of_expected {p : ℕ × ℕ} (h : p ∈ expected ptrs blocks) : p.1 ∈ ptrs := by
  obtain ⟨q, hq, hp⟩ := mem_flatMap.mp h
  obtain ⟨off, -, rfl⟩ := mem_map.mp hp
  exact (of_mem_zip hq).1

variable {inode : Inode}

theorem Directory.complete (h : Directory v inode ptrs blocks) (hlen : ptrs.length ≤ 12) :
    Complete v inode ptrs blocks := by
  -- the pointer after those to the data blocks is zero
  obtain ⟨rest, hwords⟩ : ∃ rest, inode.blockWords = ptrs ++ 0 :: rest := by
    rw [Inode.blockWords, h.direct, h.unused hlen, take_of_length_le hlen, append_assoc,
      append_assoc]
    cases hk : 12 - ptrs.length with
    | zero => exact ⟨_, rfl⟩
    | succ k => exact ⟨_, rfl⟩
  obtain ⟨hwalked, hcalls⟩ := calls_append h.holds (0 :: rest)
  rw [show walked v (0 :: rest) = [] from rfl, append_nil] at hwalked
  rw [show calls v (0 :: rest) = [] from rfl, append_nil] at hcalls
  refine ⟨by rw [hwords, hcalls], fun cb c => ?_⟩
  rw [iterateDirents, blockLoop_eq, hwords, hwalked, if_neg (by simp), hcalls]

/-- After twelve blocks the next pointer is that to the table, which is walked
through like a block of records: its first pointer is the inode of a record. -/
theorem Directory.table_call (h : Directory v inode ptrs blocks) (hlen : 12 < ptrs.length) :
    inode.singlyLinked ∉ ptrs ∧ (inode.singlyLinked, 0) ∈ calls v inode.blockWords := by
  obtain ⟨root, ks, hplace, -, hptrs, htables⟩ := h.mapped 12 hlen le_rfl
  have hapb : 0 < v.apb := by
    by_contra hzero
    simp [place, Nat.eq_zero_of_not_pos hzero] at hplace
  have hbs : 0 < v.blockSize := Nat.pos_of_div_pos hapb
  obtain ⟨rfl, rfl⟩ : inode.singlyLinked = root ∧ [0] = ks := by
    simpa [place, hapb, digits] using hplace
  obtain ⟨hne, hread⟩ := hptrs _ (mem_pointers_self ..)
  have hfirst : blkptr (v.block inode.singlyLinked) 0 ≠ 0 := (hptrs _ (by simp [pointers])).1
  have hlive : IsLive (v.block inode.singlyLinked) 0 = true := by
    refine decide_eq_true fun hzero => hfirst ?_
    simp only [direntAt, le32, le16, Nat.zero_add, Nat.reduceAdd] at hzero
    simp only [blkptr, Nat.mul_zero, Nat.zero_add]
    omega
  refine ⟨htables _ (by simp [pointers]), ?_⟩
  have hwords : inode.blockWords = ptrs.take 12 ++ inode.singlyLinked ::
      ([inode.doublyLinked, inode.triplyLinked] ++ List.ofFn inode.rest) := by
    rw [Inode.blockWords, h.direct, Nat.sub_eq_zero_of_le hlen.le]
    simp
  rw [hwords, (calls_append (forall₂_take 12 h.holds) _).2]
  refine mem_append_right _ (mem_flatMap.mpr ⟨inode.singlyLinked, ?_, ?_⟩)
  · rw [walked, takeWhile_cons_of_pos (by simpa using ⟨hne, hread⟩)]
    exact mem_cons_self
  · refine mem_map_of_mem (mem_filter.mpr ⟨?_, hlive⟩)
    rw [headers, if_pos hbs]
    exact mem_cons_self

theorem Directory.not_complete (h : Directory v inode ptrs blocks) (hlen : 12 < ptrs.length) :
    ¬ Complete v inode ptrs blocks := by
  intro hc
  obtain ⟨hnot, hcall⟩ := h.table_call hlen
  rw [hc.1] at hcall
  exact hnot (fst_mem_of_expected hcall)

/-- **When iteration is complete**: for every well-formed directory, with deleted
entries anywhere, iff it has at most twelve blocks. -/
theorem iterate_dirents_complete_iff (v : Volume Id) (inode : Inode) (ptrs : List ℕ)
    (blocks : List (List Entry)) (h : Directory v inode ptrs blocks) :
    Complete v inode ptrs blocks ↔ ptrs.length ≤ 12 := by
  refine ⟨fun hc => ?_, h.complete⟩
  exact Nat.le_of_not_lt fun hlen => h.not_complete hlen hc

/-- A volume with a table in block 20 whose first pointer is 112; every other
block has one record. -/
def rowVolume : Volume Id :=
  { fooVolume with
    dev := fun _ off => pure (0, if off = 20480 then 112 :: List.replicate 1023 0
      else [2, 0, 0, 0, 0, 4, 1, 2, 0x2E] ++ List.replicate 1015 0)
    devBlockSize := 1024 }

/-- A directory of `n` blocks there, from block 100 on. -/
def rowInode (n : ℕ) : Inode where
  bytesLsb := n * 1024
  dirBlocks i := if i.val < n then 100 + i.val else 0
  singlyLinked := if 12 < n then 20 else 0
  doublyLinked := 0
  triplyLinked := 0
  rest _ := 0

theorem rowDirectory {n : ℕ} (hn : n = 12 ∨ n = 13) :
    Directory rowVolume (rowInode n) (List.range' 100 n)
      ((List.range' 100 n).map fun _ => [⟨2, 1024, dot⟩]) where
  holds := by
    refine forall₂_map_right_iff.mpr (forall₂_same.mpr fun b hb => ?_)
    have hrange := mem_range'_1.mp hb
    refine ⟨by omega, [2, 0, 0, 0, 0, 4, 1, 2, 0x2E] ++ List.replicate 1015 0, ?_, ?_⟩
    · have hoff : add32 (mul32 b 1024) (0 * 1024) ≠ 20480 := by
        rw [mul32, add32]
        omega
      exact congrArg (fun bytes => ((0, bytes))) (if_neg hoff)
    · exact .record ⟨by decide +kernel, by decide +kernel, by decide +kernel, by decide +kernel,
        by decide⟩ (by decide) (by decide) .done
  direct := by
    rcases hn with rfl | rfl
    · decide
    · decide
  unused hlen := by
    rw [length_range'] at hlen
    exact if_neg (by omega)
  mapped i hi hlow := by
    rw [length_range'] at hi
    obtain rfl : i = 12 := by omega
    obtain rfl : n = 13 := by omega
    have htarget : target rowVolume.block 20 [0] = 112 := by decide +kernel
    have hptrs : pointers rowVolume.block 20 [0] = [20, 112] := by decide +kernel
    refine ⟨20, [0], by decide, htarget, ?_, ?_⟩
    · intro p hp
      rcases mem_pair.mp hp with rfl | rfl
      · exact ⟨by decide, rfl⟩
      · exact ⟨by decide, rfl⟩
    · decide

/-- Twelve blocks are all walked through. -/
theorem iterate_dirents_complete_iff_twelve :
    ∃ ptrs blocks, Directory rowVolume (rowInode 12) ptrs blocks ∧
      Complete rowVolume (rowInode 12) ptrs blocks :=
  ⟨_, _, rowDirectory (.inl rfl),
    (iterate_dirents_complete_iff _ _ _ _ (rowDirectory (.inl rfl))).mpr (by decide)⟩

/-- **Of thirteen blocks** the last is left out and the table taken for one. -/
theorem thirteen_blocks_not_complete :
    ∃ ptrs blocks, Directory rowVolume (rowInode 13) ptrs blocks ∧
      (20, 0) ∈ calls rowVolume (rowInode 13).blockWords ∧
      ¬ Complete rowVolume (rowInode 13) ptrs blocks :=
  ⟨_, _, rowDirectory (.inr rfl), ((rowDirectory (.inr rfl)).table_call (by decide)).2,
    (rowDirectory (.inr rfl)).not_complete (by decide)⟩

end Ext2
