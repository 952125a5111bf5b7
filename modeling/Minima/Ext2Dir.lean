/-
Name lookup in ext2 directories (`iterate_dirents`, `lookup_cb` and
`ext2_lookup` of `fs/ext2/ext2.c`).

A directory is a file whose blocks are filled with records: an inode number, the
length of the record, the length of a name and the name.  `iterate_dirents`
walks the records of the direct blocks and calls back for each one that is in
use; `lookup_cb` compares the name with `strncmp`, bounded by the length of the
record's name, and stores the node it finds.

* `iterateDirents_eq` — in a well-formed directory the callback is called once
  for every live entry, in order;
* `ext2Lookup_eq` — the last live entry whose name is a *prefix* of the name
  looked up decides;
* `ext2_lookup_exact_iff` — so the lookup is exact iff that entry, if there is
  one, leads to the inode of an entry with exactly that name.
-/
import Minima.Ext2
import Mathlib.Data.List.Infix
import Mathlib.Tactic.Set

/-! ### Strings -/

namespace CString

open List

/-- `strncmp`, on the bytes before a terminator and on the bytes of an array. -/
def strncmp : List ℕ → List ℕ → ℕ → ℤ
  | _, _, 0 => 0
  | s1, s2, n + 1 =>
    if s1.headD 0 ≠ s2.headD 0 then (s1.headD 0 : ℤ) - s2.headD 0
    else if s1.headD 0 = 0 then 0
    else strncmp s1.tail s2.tail n

theorem strncmp_eq_zero_iff {s p rest : List ℕ} (hs : 0 ∉ s) (hp : 0 ∉ p) :
    strncmp s (p ++ rest) p.length = 0 ↔ p <+: s := by
  induction p generalizing s with
  | nil => simp [strncmp]
  | cons b p ih =>
    have hb : b ≠ 0 := fun h => hp (h ▸ mem_cons_self)
    have hp' : 0 ∉ p := fun h => hp (mem_cons_of_mem _ h)
    rw [length_cons, strncmp, cons_append]
    cases s with
    | nil => simp [hb, hb.symm]
    | cons a s =>
      have ha : a ≠ 0 := fun h => hs (h ▸ mem_cons_self)
      have hs' : 0 ∉ s := fun h => hs (mem_cons_of_mem _ h)
      simp only [headD_cons, tail_cons, cons_prefix_cons]
      by_cases hab : a = b
      · subst hab
        simpa [ha] using ih hs' hp'
      · simp only [ne_eq, hab, not_false_eq_true, if_true]
        constructor
        · intro h
          exact absurd (by exact_mod_cast Int.sub_eq_zero.mp h) hab
        · rintro ⟨rfl, -⟩
          exact absurd rfl hab

end CString

namespace Vfs

/-- `enum vfs_node_type` -/
inductive NodeType
  | unknown
  | file
  | dir
  | devChar
  | devBlock
  | fifo
  | socket
  | symlink
  | mountpoint
  deriving DecidableEq, Repr

end Vfs

namespace Ext2

open CString Vfs List

variable {m : Type → Type}

/-! ### The functions of the source -/

/-- The 16-bit word at byte `k` of a buffer. -/
def le16 (b : List ℕ) (k : ℕ) : ℕ := b.getD k 0 + 2 ^ 8 * b.getD (k + 1) 0

/-- The 32-bit word at byte `k` of a buffer. -/
def le32 (b : List ℕ) (k : ℕ) : ℕ := le16 b k + 2 ^ 16 * le16 b (k + 2)

/-- What looking up a name uses of a `struct ext2_fs`, its superblock and its
block group descriptors included. -/
structure Volume (m : Type → Type) extends Fs m where
  inodesPerBgroup : ℕ
  inodeSize : ℕ
  requiredFeatures : ℕ
  /-- `bdesc[group].inode_table_start` -/
  inodeTableStart : ℕ → ℕ

/-- What looking up a name uses of a `struct ext2_node`. -/
structure Node where
  id : ℕ
  mode : ℕ
  type : NodeType
  inode : Inode

/-- A `struct inode` in memory, at byte `k` of a buffer. -/
def inodeAt (block : List ℕ) (k : ℕ) : Inode where
  bytesLsb := le32 block (k + 4)
  dirBlocks i := le32 block (k + 40 + 4 * i)
  singlyLinked := le32 block (k + 88)
  doublyLinked := le32 block (k + 92)
  triplyLinked := le32 block (k + 96)
  rest i := le32 block (k + 100 + 4 * i)

/-- `mode_2_type` -/
def mode2Type (mode : ℕ) : NodeType :=
  match mode &&& 0xF000 with
  | 0x1000 => .fifo
  | 0x2000 => .devChar
  | 0x4000 => .dir
  | 0x6000 => .devBlock
  | 0x8000 => .file
  | 0xA000 => .symlink
  | 0xC000 => .socket
  | _ => .unknown

/-- `struct dir_entry`; `name` has the bytes from the name on to the end of the
buffer. -/
structure DirEntry where
  inode : ℕ
  size : ℕ
  nameLengthLsb : ℕ
  type : ℕ
  name : List ℕ

/-- The `struct dir_entry` at byte `off` of a buffer. -/
def direntAt (block : List ℕ) (off : ℕ) : DirEntry where
  inode := le32 block off
  size := le16 block (off + 4)
  nameLengthLsb := block.getD (off + 6) 0
  type := block.getD (off + 7) 0
  name := block.drop (off + 8)

/-- The words that `dir_blocks[i]` reads, one after the other: the array and,
past its end, the three pointers that follow it and the rest of the inode. -/
def Inode.blockWords (i : Inode) : List ℕ :=
  List.ofFn i.dirBlocks ++ [i.singlyLinked, i.doublyLinked, i.triplyLinked] ++ List.ofFn i.rest

section Functions

variable [Monad m] (v : Volume m)

/-- `get_inode` and the fields `get_node` takes from the inode. -/
def getNode (i : ℕ) : m (Option Node) := do
  let group := sub32 i 1 / v.inodesPerBgroup
  let iIdx := sub32 i 1 % v.inodesPerBgroup
  let inodeBlk := mul32 iIdx v.inodeSize / v.blockSize
  let (ret, block) ← readBlock v.toFs (add32 (v.inodeTableStart group) inodeBlk)
  if ret ≠ 0 then pure none
  else
    let off := iIdx % (v.blockSize / v.inodeSize) * v.inodeSize
    let mode := le16 block off
    pure (some ⟨i, mode, mode2Type mode, inodeAt block off⟩)

section Iterate

variable {σ : Type} (cb : DirEntry → σ → m σ)

/-- The loop of `iterate_dirents` over the records of one block. -/
def direntLoop (block : List ℕ) : ℕ → ℕ → σ → ExceptT Fault m σ
  | 0, _, _ => throw .diverged
  | fuel + 1, blkOffset, c =>
    if blkOffset < v.blockSize then do
      let dirent := direntAt block blkOffset
      let blkOffset := blkOffset + if dirent.size ≠ 0 then dirent.size else v.blockSize
      if dirent.inode = 0 then direntLoop block fuel blkOffset c
      else
        let c ← cb dirent c
        direntLoop block fuel blkOffset c
    else pure c

/-- The loop of `iterate_dirents` over the blocks.  A loop that passes the end of
the inode reads on in the stack. -/
def blockLoop : List ℕ → σ → ExceptT Fault m σ
  | [], _ => throw .unassigned
  | b :: bs, c =>
    if b = 0 then pure c
    else do
      let (ret, curBlk) ← (readBlock v.toFs b : m _)
      if ret ≠ 0 then pure c
      else
        let c ← direntLoop v cb curBlk (v.blockSize + 1) 0 c
        blockLoop bs c

/-- `iterate_dirents` -/
def iterateDirents (inode : Inode) (ctx : σ) : ExceptT Fault m σ :=
  blockLoop v cb inode.blockWords ctx

end Iterate

/-- `EXT2_REQ_DIR_TYPE_FIELD` is set. -/
def Volume.dirTypeField (v : Volume m) : Bool := v.requiredFeatures &&& 0x0002 ≠ 0

/-- The length of the name as `lookup_cb` computes it. -/
def nameLen (v : Volume m) (e : DirEntry) : ℕ :=
  if v.dirTypeField then e.nameLengthLsb else (e.type <<< 8) ||| e.nameLengthLsb

/-- `lookup_cb` -/
def lookupCb (name : List ℕ) (e : DirEntry) (out : Option Node) : m (Option Node) :=
  if strncmp name e.name (nameLen v e) ≠ 0 then pure out else getNode v e.inode

/-- What `ext2_lookup` stores in `*out`. -/
inductive Found
  /-- the directory itself -/
  | self
  /-- `fs->base.parent_node` -/
  | parentNode
  /-- a new node -/
  | node (n : Node)

/-- `-ENOENT` -/
def enoent : ℤ := -3

def dot : List ℕ := [0x2E]

def dotDot : List ℕ := [0x2E, 0x2E]

/-- `ext2_lookup`; `isRoot` is `d == fs->root`. -/
def ext2Lookup (d : Node) (isRoot : Bool) (name : List ℕ) : ExceptT Fault m (ℤ × Option Found) :=
  if name = dot then pure (0, some .self)
  else if isRoot ∧ name = dotDot then pure (0, some .parentNode)
  else do
    let temp ← iterateDirents v (lookupCb v name) d.inode none
    match temp with
    | none => pure (enoent, none)
    | some n => pure (0, some (.node n))

end Functions

/-! ### Well-formed directories -/

/-- A record of a directory, as the format has it. -/
structure Entry where
  inode : ℕ
  recLen : ℕ
  name : List ℕ
  deriving DecidableEq

/-- The header and the name of record `e` are what the code finds at `d`. -/
structure Describes (v : Volume m) (d : DirEntry) (e : Entry) : Prop where
  inode : d.inode = e.inode
  size : d.size = e.recLen
  nameLen : nameLen v d = e.name.length
  name : e.name <+: d.name
  noNul : 0 ∉ e.name

/-- The records of a block from byte `off` on, one after the other by their
length, up to the end of the block. -/
inductive Laid (v : Volume m) (block : List ℕ) : ℕ → List Entry → Prop
  | done : Laid v block v.blockSize []
  | record {off : ℕ} {e : Entry} {es : List Entry} :
      Describes v (direntAt block off) e → 8 + e.name.length ≤ e.recLen →
      off + e.recLen ≤ v.blockSize → Laid v block (off + e.recLen) es → Laid v block off (e :: es)

/-- Block `b` can be read and holds the records `es`. -/
def BlockHolds [Monad m] (v : Volume m) (b : ℕ) (es : List Entry) : Prop :=
  b ≠ 0 ∧ ∃ bytes, readBlock v.toFs b = pure (0, bytes) ∧ Laid v bytes 0 es

/-- **A well-formed directory**: its blocks are all direct and hold the records
`blocks`. -/
def WellFormed [Monad m] (v : Volume m) (inode : Inode) (blocks : List (List Entry)) : Prop :=
  ∃ ptrs : List ℕ, ptrs.length ≤ 12 ∧
    inode.blockWords.take 15 = ptrs ++ List.replicate (15 - ptrs.length) 0 ∧
    List.Forall₂ (BlockHolds v) ptrs blocks

/-- The entries in use, in the order of the file. -/
def live (es : List Entry) : List Entry := es.filter (·.inode ≠ 0)

section Iterate

variable [Monad m] [LawfulMonad m] {v : Volume m} {σ : Type} {cb : DirEntry → σ → m σ}
  {cb' : Entry → σ → m σ}

theorem live_cons (e : Entry) (es : List Entry) :
    live (e :: es) = if e.inode = 0 then live es else e :: live es := by
  by_cases h : e.inode = 0 <;> simp [live, h]

theorem live_append (es es' : List Entry) : live (es ++ es') = live es ++ live es' :=
  filter_append ..

/-- One block: the induction is on the records, and a record is never empty, so
that as many rounds as the block has bytes are enough. -/
theorem direntLoop_laid (hcb : ∀ d e c, Describes v d e → cb d c = cb' e c) {block : List ℕ}
    {off fuel : ℕ} {es : List Entry} (h : Laid v block off es) (c : σ)
    (hfuel : v.blockSize < off + fuel) :
    direntLoop v cb block fuel off c =
      liftM ((live es).foldlM (fun c e => cb' e c) c) := by
  induction h generalizing fuel c with
  | done =>
    obtain ⟨fuel, rfl⟩ : ∃ k, fuel = k + 1 := ⟨fuel - 1, by omega⟩
    rw [direntLoop, if_neg (Nat.lt_irrefl _)]
    exact (liftM_pure _).symm
  | @record off e es hd hlen hend _ ih =>
    obtain ⟨fuel, rfl⟩ : ∃ k, fuel = k + 1 := ⟨fuel - 1, by omega⟩
    have hrec : e.recLen ≠ 0 := by omega
    rw [direntLoop, if_pos (by omega), live_cons]
    simp only [hd.size, hd.inode, ne_eq, hrec, not_false_eq_true, if_true]
    by_cases hino : e.inode = 0
    · rw [if_pos hino, if_pos hino]
      exact ih c (by omega)
    · rw [if_neg hino, if_neg hino, foldlM_cons, liftM_bind, hcb _ _ _ hd]
      exact bind_congr fun c' => ih c' (by omega)

variable {blocks : List (List Entry)}

theorem blockLoop_forall₂ (hcb : ∀ d e c, Describes v d e → cb d c = cb' e c) {ptrs rest : List ℕ}
    (h : List.Forall₂ (BlockHolds v) ptrs blocks) (c : σ) :
    blockLoop v cb (ptrs ++ 0 :: rest) c =
      liftM ((live blocks.flatten).foldlM (fun c e => cb' e c) c) := by
  induction h generalizing c with
  | nil =>
    exact (liftM_pure _).symm
  | @cons b es ptrs blocks hb _ ih =>
    obtain ⟨hne, bytes, hread, hlaid⟩ := hb
    rw [cons_append, blockLoop, if_neg hne, hread, liftM_pure, pure_bind]
    simp only [ne_eq, not_true_eq_false, if_false]
    rw [direntLoop_laid hcb hlaid c (by omega), flatten_cons, live_append,
      foldlM_append, liftM_bind]
    exact bind_congr fun c' => ih c'

/-- **Iteration over a well-formed directory**: the callback is called for the
live entries, in order, and for nothing else. -/
theorem iterateDirents_eq (hcb : ∀ d e c, Describes v d e → cb d c = cb' e c) {inode : Inode}
    (h : WellFormed v inode blocks) (c : σ) :
    iterateDirents v cb inode c =
      liftM ((live blocks.flatten).foldlM (fun c e => cb' e c) c) := by
  obtain ⟨ptrs, hlen, hwords, hblocks⟩ := h
  obtain ⟨k, hk⟩ : ∃ k, 15 - ptrs.length = k + 1 := ⟨14 - ptrs.length, by omega⟩
  rw [iterateDirents, ← take_append_drop 15 inode.blockWords, hwords, hk, replicate_succ,
    append_assoc, cons_append]
  exact blockLoop_forall₂ hcb hblocks c

end Iterate

/-! ### Looking up a name -/

/-- The last entry whose name `name` begins with. -/
def lastPrefix (name : List ℕ) (es : List Entry) : Option Entry :=
  (es.filter (·.name <+: name)).getLast?

theorem lastPrefix_cons (name : List ℕ) (e : Entry) (es : List Entry) :
    lastPrefix name (e :: es) =
      (lastPrefix name es).or (if e.name <+: name then some e else none) := by
  by_cases h : e.name <+: name
  · simp [lastPrefix, h, getLast?_cons]
  · simp [lastPrefix, h]

variable {name : List ℕ} {es : List Entry}

theorem lastPrefix_eq_some {e : Entry} (h : lastPrefix name es = some e) :
    e ∈ es ∧ e.name <+: name := by
  simpa using mem_filter.mp (mem_of_getLast? h)

theorem lastPrefix_eq_none (h : lastPrefix name es = none) : ∀ e ∈ es, e.name ≠ name := by
  intro e he hname
  have hnil := filter_eq_nil_iff.mp (getLast?_eq_none_iff.mp h) e he
  exact hnil (by simp [hname])

section Lookup

variable [Monad m] {v : Volume m} {name : List ℕ}

theorem lookupCb_eq (hname : 0 ∉ name) {d : DirEntry} {e : Entry} (c : Option Node)
    (h : Describes v d e) :
    lookupCb v name d c = if e.name <+: name then getNode v e.inode else pure c := by
  obtain ⟨rest, hrest⟩ := h.name
  rw [lookupCb, h.nameLen, ← hrest, h.inode]
  by_cases hpre : e.name <+: name
  · rw [if_pos hpre, if_neg (not_not.mpr ((strncmp_eq_zero_iff hname h.noNul).mpr hpre))]
  · rw [if_neg hpre, if_pos fun h0 => hpre ((strncmp_eq_zero_iff hname h.noNul).mp h0)]

variable [LawfulMonad m]

variable {node : ℕ → Node}

theorem foldlM_lookup {es : List Entry}
    (hnode : ∀ e ∈ es, getNode v e.inode = pure (some (node e.inode))) (c : Option Node) :
    es.foldlM (fun c e => if e.name <+: name then getNode v e.inode else pure c) c =
      pure (((lastPrefix name es).map fun e => node e.inode).or c) := by
  induction es generalizing c with
  | nil => simp [lastPrefix]
  | cons e es ih =>
    have htail := ih fun e' he' => hnode e' (mem_cons_of_mem _ he')
    rw [foldlM_cons, lastPrefix_cons]
    by_cases h : e.name <+: name
    · rw [if_pos h, if_pos h, hnode e mem_cons_self, pure_bind, htail]
      cases lastPrefix name es <;> rfl
    · rw [if_neg h, if_neg h, pure_bind, htail, Option.or_none]

/-- **`ext2_lookup`** finds the last live entry whose name is a prefix of the
name looked up. -/
theorem ext2Lookup_eq {d : Node} {isRoot : Bool} {blocks : List (List Entry)}
    (hdir : WellFormed v d.inode blocks) (hname : 0 ∉ name) (hdot : name ≠ dot)
    (hdots : ¬ (isRoot = true ∧ name = dotDot))
    (hnode : ∀ e ∈ live blocks.flatten, getNode v e.inode = pure (some (node e.inode))) :
    ext2Lookup v d isRoot name =
      pure (match lastPrefix name (live blocks.flatten) with
        | none => (enoent, none)
        | some e => (0, some (.node (node e.inode)))) := by
  rw [ext2Lookup, if_neg hdot, if_neg hdots,
    iterateDirents_eq (fun d e c hd => lookupCb_eq hname c hd) hdir, foldlM_lookup hnode,
    liftM_pure, pure_bind, Option.or_none]
  cases lastPrefix name (live blocks.flatten) <;> rfl

end Lookup

/-! ### Exactness -/

/-- `ext2_lookup` does what it is for, in a directory with the live entries `es`: it finds an entry
of that name if there is one, and returns `-ENOENT` if there is none. -/
def ExactLookup (v : Volume Id) (d : Node) (isRoot : Bool) (name : List ℕ) (es : List Entry) :
    Prop :=
  (∃ e ∈ es, e.name = name ∧ ∃ n, getNode v e.inode = pure (some n) ∧
    ext2Lookup v d isRoot name = pure (0, some (.node n))) ∨
  (∀ e ∈ es, e.name ≠ name) ∧ ext2Lookup v d isRoot name = pure (enoent, none)

/-- The last entry whose name is a prefix of `name`, if there is one, has the
inode of an entry with exactly this name. -/
def Unshadowed (name : List ℕ) (es : List Entry) : Prop :=
  ∀ e, lastPrefix name es = some e → ∃ e' ∈ es, e'.name = name ∧ e'.inode = e.inode

variable {v : Volume Id}

theorem getNode_id {i : ℕ} {n : Node} (h : getNode v i = pure (some n)) : n.id = i := by
  unfold getNode at h
  simp only [bind, pure] at h
  split at h
  next ret block _ =>
  by_cases hret : ret ≠ 0
  · rw [if_pos hret] at h
    cases h
  · rw [if_neg hret] at h
    cases h
    rfl

theorem exists_nodes (hread : ∀ e ∈ es, ∃ n, getNode v e.inode = pure (some n)) :
    ∃ node : ℕ → Node, ∀ e ∈ es, getNode v e.inode = pure (some (node e.inode)) := by
  refine ⟨fun i => Option.getD (getNode v i).run ⟨0, 0, .unknown, noBlocks⟩, ?_⟩
  intro e he
  obtain ⟨n, hn⟩ := hread e he
  simp [hn]

/-- **Exact lookup**, for every well-formed directory all of whose inodes can be
read and every name that `ext2_lookup` does not treat apart. -/
theorem ext2_lookup_exact_iff (v : Volume Id) (d : Node) (isRoot : Bool)
    (blocks : List (List Entry)) (hdir : WellFormed v d.inode blocks)
    (hread : ∀ e ∈ live blocks.flatten, ∃ n, getNode v e.inode = pure (some n))
    (name : List ℕ) (hname : 0 ∉ name) (hdot : name ≠ dot)
    (hdots : ¬ (isRoot = true ∧ name = dotDot)) :
    ExactLookup v d isRoot name (live blocks.flatten) ↔ Unshadowed name (live blocks.flatten) := by
  set es := live blocks.flatten with hes
  obtain ⟨node, hnode⟩ := exists_nodes hread
  have heq := ext2Lookup_eq hdir hname hdot hdots hnode
  constructor
  · rintro (⟨e', he', hexact, n, hn, hfound⟩ | ⟨hnone, hfound⟩) e hlast
    · -- the node found is that of the last prefix, and its id says which inode that is
      rw [hlast, hfound] at heq
      have hn' : n = node e.inode := by
        have := pure_inj heq
        simpa using this
      refine ⟨e', he', hexact, ?_⟩
      rw [← getNode_id hn, hn']
      exact getNode_id (hnode e (lastPrefix_eq_some hlast).1)
    · rw [hlast, hfound] at heq
      have := pure_inj heq
      simp at this
  · intro hcond
    cases hlast : lastPrefix name es with
    | none =>
      rw [hlast] at heq
      exact .inr ⟨lastPrefix_eq_none hlast, heq⟩
    | some e =>
      rw [hlast] at heq
      obtain ⟨e', he', hexact, hino⟩ := hcond e hlast
      have hsame : getNode v e'.inode = pure (some (node e.inode)) := by
        rw [hnode e' he', hino]
      exact .inl ⟨e', he', hexact, _, hsame, heq⟩

/-- The entries `.`, `..` and `foo` of a directory of one block. -/
def fooEntries : List Entry := [⟨2, 12, dot⟩, ⟨2, 12, dotDot⟩, ⟨12, 1000, [102, 111, 111]⟩]

/-- The block they are in. -/
def fooBlock : List ℕ :=
  [2, 0, 0, 0, 12, 0, 1, 2, 0x2E, 0, 0, 0, 2, 0, 0, 0, 12, 0, 2, 2, 0x2E, 0x2E, 0, 0,
    12, 0, 0, 0, 232, 3, 3, 1, 102, 111, 111] ++ List.replicate 989 0

/-- A volume with this block as its block 5 and zeros elsewhere. -/
def fooVolume : Volume Id where
  dev bytes off := pure (0, if off / 1024 = 5 then (fooBlock.drop (off % 1024)).take bytes
    else List.replicate bytes 0)
  devBlockSize := 512
  blockSize := 1024
  inodesPerBgroup := 64
  inodeSize := 128
  requiredFeatures := 2
  inodeTableStart _ := 7

/-- The directory. -/
def fooDir : Node where
  id := 2
  mode := 0x4000
  type := .dir
  inode := { bytesLsb := 1024, dirBlocks := fun i => if i.val = 0 then 5 else 0
             singlyLinked := 0, doublyLinked := 0, triplyLinked := 0, rest := fun _ => 0 }

theorem fooDir_wellFormed : WellFormed fooVolume fooDir.inode [fooEntries] := by
  have hread : readBlock fooVolume.toFs 5 = pure (0, fooBlock) := by
    show ((_, _)) = (_, _)
    decide +kernel
  have hlaid : Laid fooVolume fooBlock 0 fooEntries := by
    refine .record ⟨?_, ?_, ?_, ?_, ?_⟩ ?_ ?_
      (.record ⟨?_, ?_, ?_, ?_, ?_⟩ ?_ ?_ (.record ⟨?_, ?_, ?_, ?_, ?_⟩ ?_ ?_ .done)) <;>
      decide +kernel
  exact ⟨[5], by decide, by decide, .cons ⟨by decide, fooBlock, hread, hlaid⟩ .nil⟩

theorem fooDir_readable :
    ∀ e ∈ live [fooEntries].flatten, ∃ n, getNode fooVolume e.inode = pure (some n) := by
  intro e _
  exact ⟨_, rfl⟩

/-- Looking up `foo` there is exact. -/
theorem ext2_lookup_exact_iff_foo :
    ExactLookup fooVolume fooDir true [102, 111, 111] (live [fooEntries].flatten) := by
  refine (ext2_lookup_exact_iff fooVolume fooDir true [fooEntries] fooDir_wellFormed
    fooDir_readable [102, 111, 111] (by decide) (by decide) (by decide)).mpr ?_
  intro e he
  have hfoo : lastPrefix [102, 111, 111] (live [fooEntries].flatten) =
      some ⟨12, 1000, [102, 111, 111]⟩ := by decide
  obtain rfl := Option.mem_unique hfoo he
  exact ⟨_, mem_of_elem_eq_true (by decide), rfl, rfl⟩

/-- **Looking up `foobar`** there, which does not exist, finds `foo`. -/
theorem ext2_lookup_foobar :
    WellFormed fooVolume fooDir.inode [fooEntries] ∧
    (∀ e ∈ live [fooEntries].flatten, e.name ≠ [102, 111, 111, 98, 97, 114]) ∧
    (∃ n, n.id = 12 ∧ ext2Lookup fooVolume fooDir true [102, 111, 111, 98, 97, 114] =
      pure (0, some (.node n))) ∧
    ¬ ExactLookup fooVolume fooDir true [102, 111, 111, 98, 97, 114]
      (live [fooEntries].flatten) := by
  obtain ⟨node, hnode⟩ := exists_nodes fooDir_readable
  have hother : ∀ e ∈ live [fooEntries].flatten, e.name ≠ [102, 111, 111, 98, 97, 114] := by
    decide
  have hfoo : lastPrefix [102, 111, 111, 98, 97, 114] (live [fooEntries].flatten) =
      some ⟨12, 1000, [102, 111, 111]⟩ := by decide
  have hfound : ext2Lookup fooVolume fooDir true [102, 111, 111, 98, 97, 114] =
      pure (0, some (.node (node 12))) := by
    rw [ext2Lookup_eq fooDir_wellFormed (by decide) (by decide) (by decide) hnode, hfoo]
  refine ⟨fooDir_wellFormed, hother, ⟨node 12, ?_, hfound⟩, ?_⟩
  · exact getNode_id (hnode ⟨12, 1000, [102, 111, 111]⟩ (mem_of_elem_eq_true (by decide)))
  · rintro (⟨e, he, hname, -⟩ | ⟨-, hnone⟩)
    · exact hother e he hname
    · have := pure_inj (hnone.symm.trans hfound)
      simp at this

end Ext2
