/-
Paths that go down and up again.

`p/c/..` is `p` if `c` is a directory or a mountpoint in `p`.  Each file system
has its own `..`: memfs follows a pointer, devfs and ext2 know the parent of
their root, and below the root ext2 reads an entry of the directory and makes a
new node.  The root of an ext2 file system that is reached in this way is not
the node `fs->root`, so from there `..` does not leave the file system.

* `lookup_dotDot` — from an entry of a directory, `..` leads back to it, or in
  ext2 to a new node with its inode number;
* `walk_twin` — in the root file system such a node leads to the same files;
* `dotDot_cancel_iff` — `p/c/../q` and `p/q` are the same file for all `q` iff `p`
  is not the root of an ext2 file system mounted below `/`;
* `dotDot_stays` — the test of `vfs_test` on a mounted ext2 file system, with two
  levels of `..`.
-/
import Minima.VfsDispatch

namespace Vfs

open List Option
open Ext2 (Entry lastPrefix live dot dotDot enoent)
open Traced

/-! ### Values of lookups -/

/-- What `vfs_traverse(NULL, path, &n)` of task `t` returns. -/
def resolve (s : State) (t : ℕ) (path : List ℕ) : Except Stop (Except ℤ Ptr) :=
  (vfsTraverse s t none path).result.map Prod.fst

section Values

variable {s : State} {p q : Ptr} {n m : Node} {F : Fs} {name : Name}

theorem lookup_of_dir {depth : ℕ} (hget : s.get p = some n)
    (hdir : n.type = .dir ∨ n.type = .mountpoint) :
    (vfsLookupN (depth + 1) s p name).result = (fsLookup s p n name).result >>= fun found =>
      match found with
      | .error e => .ok (.error e)
      | .ok none => .error .assertion
      | .ok (some q) => (s.deref q >>= fun node =>
          if node.type ≠ .mountpoint then pure (.ok q)
          else if name = dotDot then s.vfs node.fs >>= fun mounted =>
            (.ofOption .nullPointer mounted.parent : Do ℕ) >>= fun parent =>
              vfsLookupN depth (s.patch parent q) q name
          else s.rootOf node.fs >>= fun r => pure (.ok (.node r)) : Do (Except ℤ Ptr)).result := by
  have hsearch : ¬ (n.type ≠ .dir ∧ n.type ≠ .mountpoint) :=
    fun h => hdir.elim h.1 h.2
  rw [vfsLookupN, State.deref, hget, ofOption_some, pure_bind_eq, if_neg hsearch, result_bind]
  congr 1
  funext found
  cases found with
  | error e => rfl
  | ok o => cases o <;> rfl

variable {e : ℤ}

section

variable (hget : s.get p = some n) (hdir : n.type = .dir)
include hget hdir

theorem lookup_of_error (h : (fsLookup s p n name).result = .ok (.error e)) :
    (vfsLookup s p name).result = .ok (.error e) := by
  rw [vfsLookup, lookup_of_dir hget (.inl hdir), h]
  rfl

theorem lookup_of_found (h : (fsLookup s p n name).result = .ok (.ok (some q)))
    (hq : s.get q = some m) (hm : m.type ≠ .mountpoint) :
    (vfsLookup s p name).result = .ok (.ok q) := by
  rw [vfsLookup, lookup_of_dir hget (.inl hdir), h]
  show (State.deref s q >>= _).result = _
  rw [State.deref, hq, ofOption_some, pure_bind_eq, if_pos hm]
  rfl

theorem lookup_of_mountpoint (h : (fsLookup s p n dotDot).result = .ok (.ok (some q)))
    (hq : s.get q = some m) (hm : m.type = .mountpoint) {G : Fs} {g : ℕ} (hG : s.fss m.fs = some G)
    (hpar : G.parent = some g) :
    (vfsLookup s p dotDot).result = (vfsLookupN (s.next + 1) (s.patch g q) q dotDot).result := by
  rw [vfsLookup, lookup_of_dir hget (.inl hdir), h]
  show (State.deref s q >>= _).result = _
  rw [State.deref, hq, ofOption_some, pure_bind_eq, if_neg (not_not.mpr hm), if_pos rfl, State.vfs,
    hG, ofOption_some, pure_bind_eq, hpar, ofOption_some, pure_bind_eq]

end

variable {names : List Name}

theorem walk_cons (h : (vfsLookup s p name).result = .ok (.ok q)) :
    (walk s p (name :: names)).result = (walk s q names).result := by
  rw [walk, result_bind, h]
  rfl

theorem walk_cons_error (h : (vfsLookup s p name).result = .ok (.error e)) :
    (walk s p (name :: names)).result = .ok (.error e) := by
  rw [walk, result_bind, h]
  rfl

theorem walk_append {names' : List Name} (h : (walk s p names).result = .ok (.ok q)) :
    (walk s p (names ++ names')).result = (walk s q names').result := by
  induction names generalizing p with
  | nil =>
    cases h
    rfl
  | cons name names ih =>
    rw [walk, result_bind_eq_ok] at h
    obtain ⟨found, hfound, h⟩ := h
    cases found with
    | error e => cases h
    | ok p' =>
      rw [cons_append, walk_cons hfound]
      exact ih h

theorem lookup_of_walk (h : (walk s p [name]).result = .ok (.ok q)) :
    (vfsLookup s p name).result = .ok (.ok q) := by
  rw [walk, result_bind_eq_ok] at h
  obtain ⟨found, hfound, h⟩ := h
  cases found with
  | error e => cases h
  | ok p' =>
    cases h
    exact hfound

variable {t : ℕ} {path : List ℕ} {r : Addr}

theorem resolve_abs (habs : path.head? = some slash) (hr : (vfsGetRoot s).result = .ok r) :
    resolve s t path = (walk s (.node r) (components path)).result := by
  rw [resolve, vfsTraverse, result_bind, startOf, if_pos habs, result_bind, hr]
  show (walk s (.node r) (components path) >>= fun found =>
    (pure (found, s))).result.map Prod.fst = _
  rw [result_bind]
  cases (walk s (.node r) (components path)).result <;> rfl

theorem getRoot_of_resolve (habs : path.head? = some slash) (h : resolve s t path = .ok (.ok q)) :
    ∃ r, (vfsGetRoot s).result = .ok r := by
  rw [resolve, vfsTraverse, result_bind, startOf, if_pos habs, result_bind] at h
  cases hr : (vfsGetRoot s).result with
  | ok r => exact ⟨r, rfl⟩
  | error e =>
    rw [hr] at h
    cases h

theorem getRoot_usable (hI : Inv s) (h : (vfsGetRoot s).result = .ok r) : Usable s (.node r) := by
  rw [vfsGetRoot, result_bind_eq_ok] at h
  obtain ⟨g, hg, h⟩ := h
  have hroot : s.root = some g := by
    cases hs : s.root with
    | none =>
      rw [hs] at hg
      cases hg
    | some g' =>
      rw [hs] at hg
      cases hg
      rfl
  obtain ⟨G, r', hG, hk, hr'⟩ := hI.root g hroot
  rw [State.rootOf, State.vfs, hG, ofOption_some, pure_bind_eq, hr', ofOption_some] at h
  cases h
  obtain ⟨m, hm, -, htype, -⟩ := hI.live_root hG hk hr'
  exact ⟨m, G, hm, by simp [htype]⟩

end Values

/-! ### Up from an entry of a directory -/

section Up

variable {s : State} {p q : Ptr} {n m : Node} {F : Fs} {name : Name}

theorem fsLookup_root {g : ℕ} {G : Fs} {r k : Addr} (hI : Inv s) (hG : s.fss g = some G)
    (hk : G.freed = false) (hr : G.root = some r) (hm : s.nodes r = some m)
    (hpar : G.parentNode = some k) :
    (fsLookup s (.node r) m dotDot).result = .ok (.ok (some (.node k))) := by
  obtain ⟨m', hm', -, hmade, htype, hshape, -, hup⟩ := (hI.fs g G hG hk).root r hr
  obtain rfl := mem_unique hm hm'
  obtain ⟨m', hlive, -⟩ := hI.live_root hG hk hr
  obtain rfl := mem_unique hm hlive.get
  have hfs : m.fs = g := (hI.plain hlive (by simp [htype])).trans hmade
  have hself : G.root.map Ptr.node = some (.node r) ∧ dotDot = dotDot := ⟨by rw [hr]; rfl, rfl⟩
  rw [fsLookup_result (hfs ▸ hG)]
  cases hkind : G.kind with
  | mem =>
    obtain rfl := mem_unique hpar (hup hkind)
    have hmem : m.shape = .memfsNode := by rw [hshape, hkind]; rfl
    rw [memfsLookup, if_neg (by decide), if_neg (not_not.mpr hmem), if_pos rfl]
    rfl
  | dev =>
    rw [devfsLookup, if_neg (by decide), if_pos hself, hpar]
    rfl
  | ext2 =>
    rw [ext2Lookup, if_neg (by decide), if_pos hself, hpar]
    rfl

section Mem

variable {a k : Addr} {d c : Node}

theorem lookup_up_child (hI : Inv s) (hd : Live s (.node a) d F) (hdir : d.type = .dir)
    (hshape : d.shape = .memfsNode) (hc : MemAt s d.made k c) (hup : c.up = a)
    (hcdir : c.type = .dir) : (vfsLookup s (.node k) dotDot).result = .ok (.ok (.node a)) := by
  have hclive := hc.live hd.fs hd.fsKept
  have hfs : c.fs = d.made := (hI.plain hclive (by simp [hcdir])).trans hc.2.2.1
  have hkind : F.kind = .mem := by rw [← hI.kind hd, hshape, Shape.kind]
  have hfound := fsLookup_up (p := .node k) (hfs ▸ hd.fs) hkind hc.2.2.2
  rw [hup] at hfound
  exact lookup_of_found hc.1 hcdir hfound hd.get (by simp [hdir])

theorem lookup_up_mounted (hI : Inv s) (hd : Live s (.node a) d F) (hdir : d.type = .dir)
    (hshape : d.shape = .memfsNode) (hc : MemAt s d.made k c) (hup : c.up = a)
    (hmp : c.type = .mountpoint) {G : Fs} {r : Addr} (hG : s.fss c.fs = some G)
    (hr : G.root = some r) : (vfsLookup s (.node r) dotDot).result = .ok (.ok (.node a)) := by
  have hclive := hc.live hd.fs hd.fsKept
  have hkind : F.kind = .mem := by rw [← hI.kind hd, hshape, Shape.kind]
  obtain ⟨⟨G', r', hG', hGk, -, hparNode, hpar⟩, hnroot, -⟩ := (hI.node k c F hclive).mount hmp
  obtain rfl := mem_unique hG hG'
  obtain ⟨m, hm, -, hmdir, -⟩ := hI.live_root hG hGk hr
  have hlt : a < k := by
    obtain ⟨hlt, -⟩ := (hI.node k c F hclive).up hc.2.2.2 hnroot
    rwa [hup] at hlt
  -- the recursive call, with the file system of the directory patched in
  have hk : (s.patch c.made (.node k)).get (.node k) = some { c with fs := c.made } :=
    patch_get_self c.made hc.1
  have ha : (s.patch c.made (.node k)).get (.node a) = some d :=
    (modifyNode_of_ne _ (Nat.ne_of_lt hlt)).trans hd.get
  have hF : (s.patch c.made (.node k)).fss c.made = some F := hclive.fs
  have hfound := fsLookup_up (p := .node k) (n := { c with fs := c.made }) hF hkind hc.2.2.2
  rw [lookup_of_mountpoint hm.get hmdir (fsLookup_root hI hG hGk hr hm.get hparNode) hc.1 hmp hG
    hpar, lookup_of_dir hk (.inr hmp), hfound]
  show (State.deref _ (.node c.up) >>= _).result = _
  rw [hup, State.deref, ha, ofOption_some, pure_bind_eq, if_pos (by simp [hdir])]
  rfl

end Mem

/-! ### Up in an ext2 file system -/

/-- The directories of a disk form a tree below inode 2, and have the entries that
say so. -/
structure Disk.Consistent (d : Disk) (parent : ℕ → ℕ) : Prop where
  root : d.type 2 = .dir ∧ parent 2 = 2
  dots : ∀ i, d.type i = .dir → ∃ e1 e2 rest, live (d.entries i) = e1 :: e2 :: rest ∧
    e1.name = dot ∧ e2.name = dotDot ∧ e2.inode = parent i ∧
    (∀ e ∈ rest, e.name ≠ [] ∧ e.name ≠ dot ∧ e.name ≠ dotDot) ∧
    ∀ e ∈ rest, d.type e.inode = .dir → parent e.inode = i

theorem eq_of_prefix_dotDot {l : List ℕ} (h : l <+: dotDot) : l = [] ∨ l = dot ∨ l = dotDot := by
  obtain ⟨k, rfl⟩ : ∃ k, l = dotDot.take k := ⟨l.length, prefix_iff_eq_take.mp h⟩
  match k with
  | 0 => exact .inl rfl
  | 1 => exact .inr (.inl rfl)
  | k + 2 => exact .inr (.inr (by simp [dotDot]))

variable {d : Disk} {parent : ℕ → ℕ} {i : ℕ}

theorem Disk.Consistent.lastPrefix_dotDot (h : d.Consistent parent) (hi : d.type i = .dir) :
    ∃ e, lastPrefix dotDot (live (d.entries i)) = some e ∧ e.inode = parent i := by
  obtain ⟨e1, e2, rest, hlive, h₁, h2, hpar, hnames, -⟩ := h.dots i hi
  have hrest : lastPrefix dotDot rest = none := by
    rw [lastPrefix, getLast?_eq_none_iff, filter_eq_nil_iff]
    intro e he hpre
    obtain ⟨hn, hd, hdd⟩ := hnames e he
    rcases eq_of_prefix_dotDot (of_decide_eq_true hpre) with h | h | h
    · exact hn h
    · exact hd h
    · exact hdd h
  refine ⟨e2, ?_, hpar⟩
  rw [hlive, Ext2.lastPrefix_cons, Ext2.lastPrefix_cons, hrest, h2]
  simp

variable {c : Name}

/-- A directory found under the name of an entry has the directory searched as its
parent, even if it is not the entry of that name. -/
theorem Disk.Consistent.parent_of_lastPrefix (h : d.Consistent parent) (hi : d.type i = .dir)
    {e : Entry} (hc : c ∈ ((live (d.entries i)).drop 2).map Entry.name)
    (he : lastPrefix c (live (d.entries i)) = some e) (hdir : d.type e.inode = .dir) :
    parent e.inode = i := by
  obtain ⟨e1, e2, rest, hlive, -, -, -, -, hparent⟩ := h.dots i hi
  rw [hlive] at hc he
  obtain ⟨e', he', hname⟩ := mem_map.mp hc
  rw [Ext2.lastPrefix_cons, Ext2.lastPrefix_cons] at he
  cases hrest : lastPrefix c rest with
  | none => exact absurd hname (Ext2.lastPrefix_eq_none hrest e' he')
  | some e'' =>
    rw [hrest] at he
    obtain rfl : e'' = e := by simpa using he
    exact hparent e'' (Ext2.lastPrefix_eq_some hrest).1 hdir

/-- `p` is the root of an ext2 file system that is mounted below `/`. -/
def ExtRootBelow (s : State) (p : Ptr) : Prop :=
  ∃ a n F, p = .node a ∧ s.nodes a = some n ∧ s.fss n.made = some F ∧ F.kind = .ext2 ∧
    F.root = some a ∧ s.root ≠ some n.made

theorem Inv.disk_type (hI : Inv s) (h : Live s p n F) (hs : n.shape = .ext2Node)
    (hdir : n.type = .dir) : F.disk.type n.id = .dir := by
  cases p with
  | node a => exact (hI.node a n F h).inode hs (.inl hdir)
  | ext2 g i =>
    obtain ⟨G, hG, -, -, rfl⟩ := get_ext2 h.get
    obtain rfl := mem_unique hG h.fs
    exact hdir

theorem lookup_entry (hI : Inv s) (h : Live s p n F) (hs : n.shape = .ext2Node)
    (hdir : n.type = .dir) (hdot : name ≠ dot)
    (hroot : ¬ (F.root.map Ptr.node = some p ∧ name = dotDot)) :
    (vfsLookup s p name).result = .ok (match lastPrefix name (live (F.disk.entries n.id)) with
      | some e => .ok (.ext2 n.made e.inode)
      | none => .error enoent) := by
  have hfs := hI.plain h (by simp [hdir])
  have hkind : F.kind = .ext2 := by rw [← hI.kind h, hs, Shape.kind]
  have hfound : (fsLookup s p n name).result = (ext2Lookup F p n name).result := by
    rw [fsLookup_result (hfs ▸ h.fs), hkind]
  rw [ext2Lookup, if_neg hdot, if_neg hroot, if_neg (not_not.mpr hs), hfs] at hfound
  cases he : lastPrefix name (live (F.disk.entries n.id)) with
  | none =>
    rw [he] at hfound
    exact lookup_of_error h.get hdir hfound
  | some e =>
    rw [he] at hfound
    exact lookup_of_found h.get hdir hfound (hI.live_inode h hs e.inode).get
      (type_inodeNode_ne _ _ _)

theorem lookup_dot (hI : Inv s) (h : Live s p n F) (hs : n.shape = .ext2Node)
    (hdir : n.type = .dir) : (vfsLookup s p dot).result = .ok (.ok p) := by
  have hfs := hI.plain h (by simp [hdir])
  have hkind : F.kind = .ext2 := by rw [← hI.kind h, hs, Shape.kind]
  have hfound : (fsLookup s p n dot).result = .ok (.ok (some p)) := by
    rw [fsLookup_result (hfs ▸ h.fs), hkind]
    rfl
  exact lookup_of_found h.get hdir hfound h.get (by simp [hdir])

/-- **Up from an entry.**  If the entry `c` of the directory `p` leads to the
directory `q`, then `..` leads from `q` to `p`, or in ext2 to a new node for the
inode of `p`. -/
theorem lookup_dotDot (hI : Inv s) {d : Node} (hd : Live s p d F) (hdir : d.type = .dir)
    (hdisk : F.kind = .ext2 → F.disk.Consistent parent) {names : List Name}
    (hnames : (readdirNames s d).result = .ok names) (hc : c ∈ names) (hdot : c ≠ dot)
    (hdots : c ≠ dotDot) (hq : (vfsLookup s p c).result = .ok (.ok q)) (hm : s.get q = some m)
    (hmdir : m.type = .dir) :
    (d.shape ≠ .ext2Node ∧ (vfsLookup s q dotDot).result = .ok (.ok p)) ∨
      (d.shape = .ext2Node ∧ (vfsLookup s q dotDot).result = .ok (.ok (.ext2 d.made d.id))) := by
  have hplain : d.type ≠ .mountpoint := by simp [hdir]
  obtain ⟨q0, m0, M, hfound, hm0, hthrough⟩ :=
    (vfsLookup_through hI hd hplain c).result _ hq q rfl
  cases hfound with
  | self h => exact absurd h hdot
  | up _ h => exact absurd h hdots
  | parent _ _ _ h => exact absurd h hdots
  | device _ _ hk =>
    -- a device is neither a directory nor a mountpoint
    obtain ⟨u, hu, -, -, -, hudir, hump⟩ := (hI.fs _ F hd.fs hd.fsKept).device _ hk
    obtain rfl := mem_unique hu hm0.get
    cases hthrough with
    | plain _ =>
      obtain rfl := mem_unique hu hm
      exact absurd hmdir hudir
    | above h => exact absurd h hump
    | below h => exact absurd h hump
  | child hs _ _ hk =>
    obtain ⟨a, rfl⟩ : ∃ a, p = .node a := by
      cases p with
      | node a => exact ⟨a, rfl⟩
      | ext2 g i =>
        obtain ⟨G, -, -, -, rfl⟩ := get_ext2 hd.get
        cases hs
    obtain ⟨-, u, hu, hup, -⟩ := (hI.node a d F hd).child hs _ (mem_of_find?_eq_some hk)
    obtain rfl := mem_unique hu.1 hm0.get
    refine .inl ⟨by simp [hs], ?_⟩
    cases hthrough with
    | plain _ =>
      obtain rfl := mem_unique hu.1 hm
      exact lookup_up_child hI hd hdir hs hu hup hmdir
    | above _ h => exact absurd h hdots
    | below hmp _ hG hr => exact lookup_up_mounted hI hd hdir hs hu hup hmp hG hr
  | @entry e hs _ _ he =>
    refine .inr ⟨hs, ?_⟩
    have hkind : F.kind = .ext2 := by rw [← hI.kind hd, hs, Shape.kind]
    have hentry := hI.live_inode hd hs e.inode
    obtain ⟨rfl, rfl⟩ := hentry.unique hm0
    cases hthrough with
    | above h => exact absurd h (type_inodeNode_ne _ _ _)
    | below h => exact absurd h (type_inodeNode_ne _ _ _)
    | plain _ =>
      obtain rfl := mem_unique hentry.get hm
      -- the inode of the entry has the inode of `p` as its parent
      have hidir := hI.disk_type hd hs hdir
      have hrest : c ∈ ((live (F.disk.entries d.id)).drop 2).map Entry.name := by
        have hfs := hI.plain hd hplain
        rw [readdirNames, State.vfs, hfs, hd.fs, ofOption_some, pure_bind_eq, hkind] at hnames
        rw [if_neg (not_not.mpr hs)] at hnames
        obtain rfl := Except.ok.inj hnames
        exact hc
      have hcons := hdisk hkind
      have hpar := hcons.parent_of_lastPrefix hidir hrest he hmdir
      obtain ⟨e', he', hino⟩ := hcons.lastPrefix_dotDot hmdir
      rw [lookup_entry hI hentry rfl hmdir (by decide) (by rintro ⟨h, -⟩; simp at h)]
      show Except.ok (match lastPrefix dotDot (live (F.disk.entries e.inode)) with
        | some e => Except.ok (Ptr.ext2 d.made e.inode)
        | none => .error enoent) = _
      rw [he']
      dsimp only
      rw [hino, hpar]

end Up

/-! ### The same file -/

/-- Both fail, or both find the same file: the same file system and node id. -/
def SameFile (s : State) (r r' : Except Stop (Except ℤ Ptr)) : Prop :=
  (∃ e e', r = .ok (.error e) ∧ r' = .ok (.error e')) ∨
    ∃ q q' n n', r = .ok (.ok q) ∧ r' = .ok (.ok q') ∧ s.get q = some n ∧ s.get q' = some n' ∧
      n.fs = n'.fs ∧ n.id = n'.id

/-- Two nodes for one directory of an ext2 file system, neither of them the root of
one that is mounted below `/`. -/
structure Twin (s : State) (x y : Ptr) (n m : Node) (F : Fs) : Prop where
  left : Live s x n F
  right : Live s y m F
  shape : n.shape = .ext2Node ∧ m.shape = .ext2Node
  made : n.made = m.made
  id : n.id = m.id
  dir : n.type = .dir ∧ m.type = .dir
  below : ¬ ExtRootBelow s x ∧ ¬ ExtRootBelow s y

section Twin

variable {s : State} {x y : Ptr} {n m : Node} {F : Fs}

theorem Twin.symm (h : Twin s x y n m F) : Twin s y x m n F :=
  ⟨h.right, h.left, h.shape.symm, h.made.symm, h.id.symm, h.dir.symm, h.below.symm⟩

theorem sameFile_refl (hI : Inv s) (h : Usable s x) (names : List Name) :
    SameFile s (walk s x names).result (walk s x names).result := by
  obtain ⟨r, hr, hq⟩ := (walk_total hI names h).exists_result
  match r with
  | .error e => exact .inl ⟨e, e, hr, hr⟩
  | .ok q =>
    obtain ⟨u, U, hu, -⟩ := hq q rfl
    exact .inr ⟨q, q, u, u, hr, hr, hu.get, hu.get, rfl, rfl⟩

theorem not_extRootBelow_ext2 (g i : ℕ) : ¬ ExtRootBelow s (.ext2 g i) := by
  rintro ⟨a, n, F, h, -⟩
  cases h

theorem Twin.lookup_root (hI : Inv s) (h : Twin s x y n m F)
    (hroot : F.root.map Ptr.node = some x) :
    (vfsLookup s x dotDot).result = .ok (.ok x) ∧ n.id = 2 := by
  obtain ⟨a, ha, rfl⟩ := map_eq_some_iff.mp hroot
  have hkind : F.kind = .ext2 := by rw [← hI.kind h.left, h.shape.1, Shape.kind]
  obtain ⟨n', hn', -, -, -, -, hid, -⟩ := (hI.fs _ F h.left.fs h.left.fsKept).root a ha
  obtain rfl := mem_unique h.left.get hn'
  have hself : s.root = some n.made := by
    by_contra hne
    exact h.below.1 ⟨a, n, F, rfl, h.left.get, h.left.fs, hkind, ha, hne⟩
  rcases (hI.fs _ F h.left.fs h.left.fsKept).parent a ha with ⟨-, hpar⟩ | ⟨hnot, -⟩
  · have hfound := fsLookup_root hI h.left.fs h.left.fsKept ha h.left.get hpar
    exact ⟨lookup_of_found h.left.get h.dir.1 hfound h.left.get (by simp [h.dir.1]), hid hkind⟩
  · exact absurd hself hnot

variable {parent : ℕ → ℕ}

theorem Twin.lookup_dotDot (hI : Inv s) (h : Twin s x y n m F) (hdisk : F.disk.Consistent parent)
    (hroot : F.root.map Ptr.node ≠ some x) :
    (vfsLookup s x dotDot).result = .ok (.ok (.ext2 n.made (parent n.id))) := by
  obtain ⟨e, he, hino⟩ := hdisk.lastPrefix_dotDot (hI.disk_type h.left h.shape.1 h.dir.1)
  rw [lookup_entry hI h.left h.shape.1 h.dir.1 (by decide) fun hr => hroot hr.1, he]
  dsimp only
  rw [hino]

theorem Twin.of_root (hI : Inv s) (h : Twin s x y n m F) (hdisk : F.disk.Consistent parent)
    (hid : n.id = 2) : Twin s x (.ext2 n.made (parent n.id)) n (inodeNode n.made 2 F.disk) F := by
  rw [hid, hdisk.root.2]
  exact ⟨h.left, hI.live_inode h.left h.shape.1 2, ⟨h.shape.1, rfl⟩, rfl, hid,
    ⟨h.dir.1, hdisk.root.1⟩, h.below.1, not_extRootBelow_ext2 _ _⟩

theorem walk_twin (hI : Inv s) (hdisk : F.disk.Consistent parent) (names : List Name) :
    ∀ {x y : Ptr} {n m : Node}, Twin s x y n m F →
    SameFile s (walk s x names).result (walk s y names).result := by
  induction names with
  | nil =>
    intro x y n m h
    have hn := hI.plain h.left (by simp [h.dir.1])
    have hm := hI.plain h.right (by simp [h.dir.2])
    exact .inr ⟨x, y, n, m, rfl, rfl, h.left.get, h.right.get, by rw [hn, hm, h.made], h.id⟩
  | cons name names ih =>
    intro x y n m h
    by_cases hdot : name = dot
    · subst hdot
      rw [walk_cons (lookup_dot hI h.left h.shape.1 h.dir.1),
        walk_cons (lookup_dot hI h.right h.shape.2 h.dir.2)]
      exact ih h
    have hentry : ∀ i, Usable s (.ext2 n.made i) := fun i =>
      ⟨_, F, hI.live_inode h.left h.shape.1 i, type_inodeNode_ne _ _ _⟩
    by_cases hdots : name = dotDot
    · subst hdots
      by_cases hx : F.root.map Ptr.node = some x
      · obtain ⟨hlx, hid⟩ := h.lookup_root hI hx
        by_cases hy : F.root.map Ptr.node = some y
        · obtain ⟨hly, -⟩ := h.symm.lookup_root hI hy
          rw [walk_cons hlx, walk_cons hly]
          exact ih h
        · rw [walk_cons hlx, walk_cons (h.symm.lookup_dotDot hI hdisk hy), ← h.made, ← h.id]
          exact ih (h.of_root hI hdisk hid)
      · by_cases hy : F.root.map Ptr.node = some y
        · obtain ⟨hly, hid⟩ := h.symm.lookup_root hI hy
          rw [walk_cons hly, walk_cons (h.lookup_dotDot hI hdisk hx), h.made, h.id]
          exact ih (h.symm.of_root hI hdisk hid).symm
        · rw [walk_cons (h.lookup_dotDot hI hdisk hx), walk_cons (h.symm.lookup_dotDot hI hdisk hy),
            ← h.made, ← h.id]
          exact sameFile_refl hI (hentry _) names
    · -- any other name leads both to one node, or to none
      have hx := lookup_entry hI h.left h.shape.1 h.dir.1 hdot fun hr => hdots hr.2
      have hy := lookup_entry hI h.right h.shape.2 h.dir.2 hdot fun hr => hdots hr.2
      rw [← h.made, ← h.id] at hy
      cases he : lastPrefix name (live (F.disk.entries n.id)) with
      | none =>
        rw [he] at hx hy
        rw [walk_cons_error hx, walk_cons_error hy]
        exact .inl ⟨_, _, rfl, rfl⟩
      | some e =>
        rw [he] at hx hy
        rw [walk_cons hx, walk_cons hy]
        exact sameFile_refl hI (hentry _) names

end Twin

/-! ### Cancelling `..` -/

/-- `p/c/../q` and `p/q` are the same file, for every `q`. -/
def Cancels (s : State) (t : ℕ) (p : List ℕ) (c : Name) : Prop :=
  ∀ q, SameFile s (resolve s t (p ++ slash :: (c ++ slash :: (dotDot ++ slash :: q))))
    (resolve s t (p ++ slash :: q))

/-- Every ext2 file system is on a consistent disk. -/
def ConsistentDisks (s : State) : Prop :=
  ∀ g G, s.fss g = some G → G.kind = .ext2 → ∃ parent, G.disk.Consistent parent

section Cancel

variable {s : State} {t : ℕ} {p : List ℕ} {c : Name} {D E : Ptr} {d e : Node} {F : Fs}

theorem ExtRootBelow.kind (hd : Live s D d F) (h : ExtRootBelow s D) : F.kind = .ext2 := by
  obtain ⟨a, n, F', rfl, hn, hF', hkind, -⟩ := h
  obtain rfl := mem_unique hd.get hn
  obtain rfl := mem_unique hd.fs hF'
  exact hkind

theorem ExtRootBelow.lookup_dotDot (hI : Inv s) (hd : Live s D d F) (h : ExtRootBelow s D) {q : Ptr}
    (hq : (vfsLookup s D dotDot).result = .ok (.ok q)) :
    ∃ n, s.get q = some n ∧ n.fs ≠ d.made := by
  obtain ⟨a, n, F', rfl, hn, hF', hkind, hroot, hnot⟩ := h
  obtain rfl := mem_unique hd.get hn
  obtain rfl := mem_unique hd.fs hF'
  rcases (hI.fs _ F hd.fs hd.fsKept).parent a hroot with ⟨hself, -⟩ |
    ⟨-, k, m, M, hpar, hm, hlt, hdev, -⟩
  · exact absurd hself hnot
  -- the parent node is older than the root, so it is a node of another file system
  have hmade : m.made ≠ d.made := by
    intro hmade
    have hM := hm.fs
    rw [hmade, hd.fs] at hM
    obtain rfl := some_inj.mp hM
    obtain ⟨r, hr, hle⟩ := (hI.node k m F hm).root hdev
    rw [hroot] at hr
    obtain rfl := some_inj.mp hr
    exact Nat.not_lt.mpr hle hlt
  obtain ⟨n', hn', -, -, htype, hshape, -⟩ := (hI.fs _ F hd.fs hd.fsKept).root a hroot
  obtain rfl := mem_unique hd.get hn'
  have hplain : d.type ≠ .mountpoint := by simp [htype]
  rw [hkind] at hshape
  obtain ⟨q0, m0, M0, hfound, hm0, hthrough⟩ :=
    (vfsLookup_through hI hd hplain dotDot).result _ hq q rfl
  cases hfound with
  | self h => cases h
  | up hs _ =>
    rw [hshape] at hs
    cases hs
  | child hs _ _ _ =>
    rw [hshape] at hs
    cases hs
  | device hs _ _ =>
    rw [hkind] at hs
    cases hs
  | entry _ _ hne _ => exact absurd ⟨by rw [hroot]; rfl, rfl⟩ hne
  | parent _ _ _ _ hk =>
    obtain rfl := mem_unique hpar hk
    obtain ⟨rfl, rfl⟩ := hm.unique hm0
    cases hthrough with
    | plain hmp => exact ⟨m, hm.get, by rw [hI.plain hm hmp]; exact hmade⟩
    | above _ _ hq => exact ⟨_, hq.live.get, by rw [hI.plain hq.live hq.type, hq.made]; exact hmade⟩
    | below _ h => exact absurd rfl h

/-- **Cancelling `..`.**  Let the absolute path `p` lead to a directory and its entry `c` to a
directory or through a mountpoint.  Then `p/c/../q` and `p/q` are the same file for all `q`
exactly if `p` is not the root of an ext2 file system that is mounted below `/`. -/
theorem dotDot_cancel_iff {es : List Event} (hrun : Run Step {} es s)
    (hok : Guarded Step Proper {} es) (hdisks : ConsistentDisks s)
    (habs : p.head? = some slash) (hD : resolve s t p = .ok (.ok D)) (hd : s.get D = some d)
    (hdir : d.type = .dir) {names : List Name} (hnames : (readdirNames s d).result = .ok names)
    (hc : c ∈ names) (hname : c ≠ [] ∧ slash ∉ c) (hdot : c ≠ dot) (hdots : c ≠ dotDot)
    (hE : resolve s t (p ++ slash :: c) = .ok (.ok E)) (he : s.get E = some e)
    (hedir : e.type = .dir) : Cancels s t p c ↔ ¬ ExtRootBelow s D := by
  have hI := inv_of_run hrun hok
  obtain ⟨r, hr⟩ := getRoot_of_resolve habs hD
  have habs' : ∀ l, (p ++ l).head? = some slash := by
    intro l
    rw [head?_append, habs]
    rfl
  -- both paths go through `D`
  rw [resolve_abs habs hr] at hD
  have husable := (walk_total hI _ (getRoot_usable hI hr)).result _ hD D rfl
  obtain ⟨d', F, hlive, hplain⟩ := husable
  obtain rfl := mem_unique hd hlive.get
  rw [resolve_abs (habs' _) hr, components_append, components_name hname.2 hname.1,
    walk_append hD] at hE
  have hlookup := lookup_of_walk hE
  have hleft : ∀ q, resolve s t (p ++ slash :: (c ++ slash :: (dotDot ++ slash :: q))) =
      (walk s E (dotDot :: components q)).result := by
    intro q
    rw [resolve_abs (habs' _) hr, components_append, components_append, components_append,
      components_name hname.2 hname.1, walk_append hD, singleton_append, walk_cons hlookup]
    rfl
  have hright : ∀ q, resolve s t (p ++ slash :: q) = (walk s D (components q)).result := by
    intro q
    rw [resolve_abs (habs' _) hr, components_append, walk_append hD]
  have hconsistent : ∃ parent, F.kind = .ext2 → F.disk.Consistent parent := by
    by_cases hkind : F.kind = .ext2
    · obtain ⟨parent, hparent⟩ := hdisks _ F hlive.fs hkind
      exact ⟨parent, fun _ => hparent⟩
    · exact ⟨id, fun h => absurd h hkind⟩
  obtain ⟨parent, hdisk⟩ := hconsistent
  rcases lookup_dotDot hI hlive hdir hdisk hnames hc hdot hdots hlookup he hedir with
    ⟨hs, hup⟩ | ⟨hs, hup⟩
  · -- back at the same node: the rest of the path is walked from there
    have hcancels : Cancels s t p c := by
      intro q
      rw [hleft, hright, walk_cons hup]
      exact sameFile_refl hI ⟨d, F, hlive, hplain⟩ _
    refine ⟨fun _ hbelow => hs (kind_eq_ext2_iff.mp ?_), fun _ => hcancels⟩
    rw [hI.kind hlive]
    exact hbelow.kind hlive
  · have hkind : F.kind = .ext2 := by rw [← hI.kind hlive, hs, Shape.kind]
    have hnew := hI.live_inode hlive hs d.id
    have hidir := hI.disk_type hlive hs hdir
    constructor
    · -- two levels up: on the left still in the file system, on the right outside
      intro hcancels hbelow
      obtain ⟨e', he', hino⟩ := (hdisk hkind).lastPrefix_dotDot hidir
      have hstay : (vfsLookup s (.ext2 d.made d.id) dotDot).result = .ok
          (match lastPrefix dotDot (live (F.disk.entries d.id)) with
            | some e => .ok (.ext2 d.made e.inode)
            | none => .error enoent) :=
        lookup_entry (n := inodeNode d.made d.id F.disk) hI hnew rfl hidir (by decide)
          (by rintro ⟨h, -⟩; simp at h)
      rw [he'] at hstay
      have hsame := hcancels dotDot
      rw [hleft, hright, components_name (by decide) (by decide), walk_cons hup, walk_cons hstay]
        at hsame
      rcases hsame with ⟨e1, -, h, -⟩ | ⟨q, q', n, n', h, hq', hn, hn', hfs, -⟩
      · cases h
      · cases h
        obtain ⟨n'', hn'', hne⟩ := hbelow.lookup_dotDot hI hlive (lookup_of_walk hq')
        obtain rfl := mem_unique hn' hn''
        have hlive' := hI.live_inode hlive hs e'.inode
        obtain rfl := mem_unique hn hlive'.get
        exact hne hfs.symm
    · intro hbelow q
      rw [hleft, hright, walk_cons hup]
      have htwin : Twin s (.ext2 d.made d.id) D (inodeNode d.made d.id F.disk) d F :=
        ⟨hnew, hlive, ⟨rfl, hs⟩, rfl, rfl, ⟨hidir, hdir⟩, not_extRootBelow_ext2 _ _, hbelow⟩
      exact walk_twin hI (hdisk hkind) _ htwin

end Cancel

/-! ### A mounted disk -/

/-- A disk with a directory `s`, inode 12, in its root. -/
def exampleDisk : Disk where
  sb := true
  entries i :=
    if i = 2 then [⟨2, 12, dot⟩, ⟨2, 12, dotDot⟩, ⟨12, 1000, [115]⟩]
    else if i = 12 then [⟨12, 12, dot⟩, ⟨2, 1012, dotDot⟩]
    else []
  mode i := if i = 2 ∨ i = 12 then 0x4000 else 0

theorem exampleDisk_consistent : exampleDisk.Consistent fun _ => 2 where
  root := ⟨by decide, rfl⟩
  dots i hi := by
    have hi' : i = 2 ∨ i = 12 := by
      by_contra h
      simp only [exampleDisk, Disk.type, if_neg h] at hi
      cases hi
    rcases hi' with rfl | rfl
    · exact ⟨⟨2, 12, dot⟩, ⟨2, 12, dotDot⟩, [⟨12, 1000, [115]⟩], by decide, rfl, rfl, rfl,
        by decide, fun _ _ _ => rfl⟩
    · exact ⟨⟨12, 12, dot⟩, ⟨2, 1012, dotDot⟩, [], by decide, rfl, rfl, rfl, by simp, by simp⟩

/-- A memfs on `/` with the disk mounted on `/u`. -/
def diskEvents : List Event :=
  [.memfsNew, .mount 0 0 [0x2F], .mkdir 0 none [117], .ext2New exampleDisk,
    .mount 0 1 [0x2F, 117]]

theorem diskEvents_proper : Guarded Step Proper {} diskEvents :=
  guarded_of_take (by decide +kernel)

theorem diskEvents_consistent {s : State} (h : diskEvents.foldlM State.after {} = some s) :
    ConsistentDisks s := by
  have hI := inv_of_run (run_iff_foldlM.mpr h) diskEvents_proper
  have hnext : (diskEvents.foldlM State.after {}).map State.nextFs = some 2 := by decide +kernel
  have hmem : (diskEvents.foldlM State.after {}).map (fun s => (s.fss 0).map Fs.kind) =
      some (some .mem) := by decide +kernel
  have hdisk : (diskEvents.foldlM State.after {}).map (fun s => (s.fss 1).map Fs.disk) =
      some (some exampleDisk) := rfl
  rw [h] at hnext hmem hdisk
  intro g G hG hkind
  have hlt := hI.nextFs g G hG
  rw [some_inj.mp hnext] at hlt
  match g with
  | 0 =>
    have : (s.fss 0).map Fs.kind = some .mem := some_inj.mp hmem
    rw [hG] at this
    cases hkind.symm.trans (some_inj.mp this)
  | 1 =>
    have : (s.fss 1).map Fs.disk = some exampleDisk := some_inj.mp hdisk
    rw [hG] at this
    rw [some_inj.mp this]
    exact ⟨_, exampleDisk_consistent⟩
  | g + 2 => omega

/-- `/u/../q` is `/q`: up through the mountpoint. -/
theorem dotDot_cancel_iff_mounted :
    ∃ s, Run Step {} diskEvents s ∧ resolve s 0 [0x2F, 0x2F, 117] = .ok (.ok (.node 2)) ∧
      Cancels s 0 [0x2F] [117] := by
  have hcheck : (diskEvents.foldlM State.after {}).map (fun s : State =>
      (resolve s 0 [0x2F], s.nodes 0, resolve s 0 [0x2F, 0x2F, 117], s.nodes 2)) =
      some (.ok (.ok (.node 0)),
        some ⟨0, 0, .dir, 0, .memfsNode, [0x2F], 0, [1], false⟩,
        .ok (.ok (.node 2)), some (inodeNode 1 2 exampleDisk)) := by decide +kernel
  obtain ⟨s, hs, hvals⟩ := map_eq_some_iff.mp hcheck
  have hrun : Run Step {} diskEvents s := run_iff_foldlM.mpr hs
  simp only [Prod.mk.injEq] at hvals
  obtain ⟨hD, hd, hE, he⟩ := hvals
  have hnames : (diskEvents.foldlM State.after {}).map (fun s : State =>
      (readdirNames s ⟨0, 0, .dir, 0, .memfsNode, [0x2F], 0, [1], false⟩).result) =
      some (.ok [[117]]) := by decide +kernel
  have hroot : (diskEvents.foldlM State.after {}).map State.root = some (some 0) := by
    decide +kernel
  rw [hs] at hnames hroot
  refine ⟨s, hrun, hE, (dotDot_cancel_iff hrun diskEvents_proper (diskEvents_consistent hs) rfl hD
    hd rfl (some_inj.mp hnames) mem_cons_self (by decide) (by decide) (by decide) hE he
    (by decide)).mpr ?_⟩
  rintro ⟨a, n, F, ha, hn, hF, -, -, hne⟩
  cases ha
  obtain rfl := mem_unique hd hn
  exact hne (some_inj.mp hroot)

/-- **Two levels of `..`.**  From the directory `/u/s` of the disk mounted on `/u`,
`../..` is the root of the disk, where from `/u` one `..` is `/`. -/
theorem dotDot_stays :
    ∃ s, Run Step {} diskEvents s ∧ Guarded Step Proper {} diskEvents ∧ ConsistentDisks s ∧
      resolve s 0 [0x2F, 117] = .ok (.ok (.node 2)) ∧
      resolve s 0 [0x2F, 117, 0x2F, 115] = .ok (.ok (.ext2 1 12)) ∧
      resolve s 0 [0x2F, 117, 0x2F, 115, 0x2F, 46, 46, 0x2F, 46, 46] = .ok (.ok (.ext2 1 2)) ∧
      resolve s 0 [0x2F, 117, 0x2F, 46, 46] = .ok (.ok (.node 0)) ∧
      ¬ Cancels s 0 [0x2F, 117] [115] := by
  have hpaths : (diskEvents.foldlM State.after {}).map (fun s : State =>
      (resolve s 0 [0x2F, 117], resolve s 0 [0x2F, 117, 0x2F, 115])) =
      some (.ok (.ok (.node 2)), .ok (.ok (.ext2 1 12))) := by decide +kernel
  have hups : (diskEvents.foldlM State.after {}).map (fun s : State =>
      (resolve s 0 [0x2F, 117, 0x2F, 115, 0x2F, 46, 46, 0x2F, 46, 46],
        resolve s 0 [0x2F, 117, 0x2F, 46, 46])) =
      some (.ok (.ok (.ext2 1 2)), .ok (.ok (.node 0))) := by decide +kernel
  have hfiles : (diskEvents.foldlM State.after {}).map (fun s : State =>
      ((s.get (.ext2 1 2)).map Node.fs, (s.get (.node 0)).map Node.fs)) =
      some (some 1, some 0) := by decide +kernel
  obtain ⟨s, hs, hvals⟩ := map_eq_some_iff.mp hpaths
  rw [hs] at hups hfiles
  simp only [Prod.mk.injEq, map_some, some_inj] at hvals hups hfiles
  obtain ⟨hu, hus⟩ := hvals
  obtain ⟨hup, hout⟩ := hups
  obtain ⟨hfs, hfs'⟩ := hfiles
  refine ⟨s, run_iff_foldlM.mpr hs, diskEvents_proper, diskEvents_consistent hs, hu, hus, hup, hout,
    fun hcancels => ?_⟩
  have hsame : SameFile s (.ok (.ok (.ext2 1 2))) (.ok (.ok (.node 0))) := by
    rw [← hup, ← hout]
    exact hcancels dotDot
  rcases hsame with ⟨e, -, h, -⟩ | ⟨q, q', n, n', h, h', hn, hn', hsamefs, -⟩
  · cases h
  · cases h
    cases h'
    rw [hn] at hfs
    rw [hn'] at hfs'
    have h1 : n.fs = 1 := some_inj.mp hfs
    have h0 : n'.fs = 0 := some_inj.mp hfs'
    rw [h1, h0] at hsamefs
    cases hsamefs

end Vfs
