/-
The nodes and file systems of the VFS, and lookups among them.

`fs->ops->f(node)` casts `node` to the struct of the file system `fs`, and
nothing checks the cast.  It is right as long as the field `fs` of every node
that is used is the file system that made the node, which a mount breaks for
the node mounted on.

* `Inv` — what the nodes and file systems are like as long as nobody mounts on
  the root of a file system;
* `Found` — what the lookup of a file system can find;
* `climb_total` — going up from a mountpoint ends at a node of the file system
  it is in;
* `vfsLookup_through`, `walk_total` — from a node nothing is mounted on, a
  lookup makes sound calls only, returns, and finds another such node:
  mountpoints are gone through, down and up.
-/
import Minima.Vfs

namespace Vfs

open Function Option
open Ext2 (Entry lastPrefix live dot dotDot enoent)
open Traced

/-! ### Nodes in use -/

/-- `p` points to the node `n` of the file system `F`, neither of them freed. -/
structure Live (s : State) (p : Ptr) (n : Node) (F : Fs) : Prop where
  get : s.get p = some n
  kept : n.freed = false
  fs : s.fss n.made = some F
  fsKept : F.freed = false

/-- `p` points to a node on which nothing is mounted. -/
def Usable (s : State) (p : Ptr) : Prop :=
  ∃ n F, Live s p n F ∧ n.type ≠ .mountpoint

/-- What is mounted on the node `n` at `a`. -/
def Mounted (s : State) (a : Addr) (n : Node) : Prop :=
  ∃ G r, s.fss n.fs = some G ∧ G.freed = false ∧ G.root = some r ∧
    G.parentNode = some a ∧ G.parent = some n.made

/-- The node at `a` is a `memfs_node` of the file system `g`. -/
def MemAt (s : State) (g : ℕ) (a : Addr) (c : Node) : Prop :=
  s.nodes a = some c ∧ c.freed = false ∧ c.made = g ∧ c.shape = .memfsNode

/-- What holds of a node in use at address `a`.  A node is younger than the
directory it is in, and that is younger than the root. -/
structure NodeInv (s : State) (a : Addr) (n : Node) (F : Fs) : Prop where
  kind : n.shape.kind = F.kind
  plain : n.type ≠ .mountpoint → n.fs = n.made
  mount : n.type = .mountpoint → Mounted s a n ∧ F.root ≠ some a ∧ n.shape.kind ≠ .dev
  root : n.shape.kind ≠ .dev → ∃ r, F.root = some r ∧ r ≤ a
  devRoot : n.shape.kind = .dev → n.type = .dir → F.root = some a
  inode : n.shape = .ext2Node → n.type = .dir ∨ n.type = .mountpoint → F.disk.type n.id = .dir
  up : n.shape = .memfsNode → F.root ≠ some a → n.up < a ∧ ∃ u, MemAt s n.made n.up u
  child : n.shape = .memfsNode → ∀ k ∈ n.children,
    a < k ∧ ∃ c, MemAt s n.made k c ∧ c.up = a ∧ c.name ≠ dot ∧ c.name ≠ dotDot

/-- What holds of a file system in use.  The parent node of one that is mounted is
older than its root; only the root file system is its own parent. -/
structure FsInv (s : State) (g : ℕ) (G : Fs) : Prop where
  root : ∀ r, G.root = some r → ∃ n, s.nodes r = some n ∧ n.freed = false ∧ n.made = g ∧
    n.type = .dir ∧ n.shape = G.kind.rootShape ∧ (G.kind = .ext2 → n.id = 2) ∧
    (G.kind = .mem → G.parentNode = some n.up)
  parent : ∀ r, G.root = some r → (s.root = some g ∧ G.parentNode = some r) ∨
    (s.root ≠ some g ∧ ∃ k n F, G.parentNode = some k ∧ Live s (.node k) n F ∧ k < r ∧
      n.shape.kind ≠ .dev ∧ G.parent = some n.made)
  device : ∀ k ∈ G.devices, ∃ n, s.nodes k = some n ∧ n.freed = false ∧ n.made = g ∧
    n.shape = .devfsNode ∧ n.type ≠ .dir ∧ n.type ≠ .mountpoint
  fresh : G.root = none → G.kind = .mem → G.parentNode = none

/-- The file system `g` has been mounted. -/
def HasRoot (s : State) (g : ℕ) : Prop := ∃ G, s.fss g = some G ∧ G.root ≠ none

/-- What a node refers to exists, also if the node has been freed. -/
structure NodeRefs (s : State) (n : Node) : Prop where
  up : n.shape = .memfsNode → n.up < s.next
  mount : n.type = .mountpoint → HasRoot s n.fs

/-- What a file system refers to exists. -/
structure FsRefs (s : State) (G : Fs) : Prop where
  parentNode : ∀ k, G.parentNode = some k → k < s.next
  device : ∀ k ∈ G.devices, k < s.next
  parent : ∀ h, G.parent = some h → HasRoot s h

/-- The invariant of the runs considered here. -/
structure Inv (s : State) : Prop where
  node : ∀ a n F, Live s (.node a) n F → NodeInv s a n F
  fs : ∀ g G, s.fss g = some G → G.freed = false → FsInv s g G
  root : ∀ g, s.root = some g → ∃ G r, s.fss g = some G ∧ G.freed = false ∧ G.root = some r
  next : ∀ a n, s.nodes a = some n → a < s.next ∧ n.made < s.nextFs
  nextFs : ∀ g G, s.fss g = some G → g < s.nextFs
  devfs : ∀ g, s.devfs = some g → ∃ G, s.fss g = some G ∧ G.kind = .dev ∧ G.freed = false
  file : ∀ i f, s.files i = some f → ∃ n F, s.get f.node = some n ∧ n.made = f.fs ∧
    s.fss f.fs = some F ∧ ∀ sh ∈ F.kind.casts .fileOp, n.shape = sh
  refs : ∀ a n, s.nodes a = some n → NodeRefs s n
  fsRefs : ∀ g G, s.fss g = some G → FsRefs s G

theorem inv_boot : Inv {} where
  node a n F h := by cases h.get
  fs g G h := by cases h
  root g h := by cases h
  next a n h := by cases h
  nextFs g G h := by cases h
  devfs g h := by cases h
  file i f h := by cases h
  refs a n h := by cases h
  fsRefs g G h := by cases h

variable {sh : Shape}

theorem shape_eq_of_kind (h : sh.kind ≠ .dev) : sh = .memfsNode ∨ sh = .ext2Node := by
  cases sh <;> simp_all [Shape.kind]

theorem kind_eq_mem_iff : sh.kind = .mem ↔ sh = .memfsNode := by
  cases sh <;> simp [Shape.kind]

theorem kind_eq_ext2_iff : sh.kind = .ext2 ↔ sh = .ext2Node := by
  cases sh <;> simp [Shape.kind]

variable {s : State} {g : ℕ} {n : Node}

theorem get_ext2 {i : ℕ} (h : s.get (.ext2 g i) = some n) :
    ∃ F, s.fss g = some F ∧ F.kind = .ext2 ∧ F.root ≠ none ∧ n = inodeNode g i F.disk := by
  simp only [State.get, bind_eq_some_iff] at h
  obtain ⟨F, hF, h⟩ := h
  by_cases hk : F.kind = .ext2 ∧ F.root ≠ none
  · rw [if_pos hk] at h
    cases h
    exact ⟨F, hF, hk.1, hk.2, rfl⟩
  · rw [if_neg hk] at h
    cases h

theorem type_inodeNode_ne (g i : ℕ) (d : Disk) : (inodeNode g i d).type ≠ .mountpoint := by
  simp only [inodeNode, Disk.type, Ext2.mode2Type]
  split <;> simp

variable {p : Ptr} {F : Fs}

theorem Live.unique {n' : Node} {F' : Fs} (h : Live s p n F) (h' : Live s p n' F') :
    n = n' ∧ F = F' := by
  obtain rfl := mem_unique h.get h'.get
  exact ⟨rfl, some_inj.mp (h.fs.symm.trans h'.fs)⟩

theorem MemAt.live {a : Addr} {c : Node} (h : MemAt s g a c) (hF : s.fss g = some F)
    (hk : F.freed = false) : Live s (.node a) c F :=
  ⟨h.1, h.2.1, h.2.2.1 ▸ hF, hk⟩

/-! ### What a lookup finds -/

/-- What the lookup of `name` in the directory `n` of the file system `F` can
find. -/
inductive Found (s : State) (p : Ptr) (n : Node) (F : Fs) (name : Name) : Ptr → Prop
  | self (h : name = dot) : Found s p n F name p
  | up (hs : n.shape = .memfsNode) (h : name = dotDot) : Found s p n F name (.node n.up)
  | child {k : Addr} (hs : n.shape = .memfsNode) (hdot : name ≠ dot) (hdots : name ≠ dotDot)
      (hk : n.children.find? (s.named name) = some k) : Found s p n F name (.node k)
  | parent {a k : Addr} (hs : n.shape ≠ .memfsNode) (hr : F.root = some a) (hp : p = .node a)
      (h : name = dotDot) (hk : F.parentNode = some k) : Found s p n F name (.node k)
  | device {k : Addr} (hs : F.kind = .dev) (hdot : name ≠ dot)
      (hk : k ∈ F.devices) : Found s p n F name (.node k)
  | entry {e : Entry} (hs : n.shape = .ext2Node) (hdot : name ≠ dot)
      (hdots : ¬ (F.root.map Ptr.node = some p ∧ name = dotDot))
      (he : lastPrefix name (live (F.disk.entries n.id)) = some e) :
      Found s p n F name (.ext2 n.made e.inode)

/-- What a lookup operation returns: an error, something found, or `NULL` as the
parent of a file system that is not mounted. -/
structure FoundIn (s : State) (p : Ptr) (n : Node) (F : Fs) (name : Name)
    (r : Except ℤ (Option Ptr)) : Prop where
  found : ∀ q, r = .ok (some q) → Found s p n F name q
  null : r = .ok none → ∃ a, F.root = some a ∧ p = .node a ∧ F.parentNode = none

variable {name : Name}

theorem FoundIn.of_found {q : Ptr} (h : Found s p n F name q) :
    FoundIn s p n F name (.ok (some q)) where
  found q' hq := by
    cases hq
    exact h
  null h := by cases h

theorem FoundIn.of_error (e : ℤ) : FoundIn s p n F name (.error e) where
  found q h := by cases h
  null h := by cases h

section Lookup

variable {s : State} {p : Ptr} {n : Node} {F : Fs} {name : Name}

variable {op : Op}

theorem dispatch_total {g : ℕ} (hF : s.fss g = some F) (hmade : n.made = g) (hn : n.freed = false)
    (hk : F.freed = false) (hcast : ∀ sh ∈ F.kind.casts op, n.shape = sh) :
    Total Call.Sound (dispatch s op g n) (· = F) := by
  rw [dispatch, State.vfs, hF, ofOption_some, pure_bind_eq]
  have hsound : Call.Sound ⟨g, F.kind, op, n.made, n.shape, n.freed || F.freed⟩ :=
    ⟨by simp [hn, hk], hmade, hcast⟩
  exact (total_call hsound).bind fun _ _ => total_pure rfl

theorem casts_of_kind (h : n.shape.kind = F.kind)
    (hop : F.kind = .dev → op = .lookup ∨ op = .readdir) :
    ∀ sh ∈ F.kind.casts op, n.shape = sh := by
  intro sh hsh
  cases hk : F.kind with
  | mem =>
    rw [hk] at h hsh
    rw [kind_eq_mem_iff.mp h]
    cases op <;> simp_all [Kind.casts]
  | ext2 =>
    rw [hk] at h hsh
    rw [kind_eq_ext2_iff.mp h]
    cases op <;> simp_all [Kind.casts]
  | dev =>
    rw [hk] at hsh
    rcases hop hk with rfl | rfl
    · simp [Kind.casts] at hsh
    · simp [Kind.casts] at hsh

theorem memfsLookup_found (hs : n.shape = .memfsNode) :
    Total Call.Sound (memfsLookup s p n name) (FoundIn s p n F name) := by
  rw [memfsLookup]
  by_cases hdot : name = dot
  · rw [if_pos hdot]
    exact total_pure (.of_found (.self hdot))
  rw [if_neg hdot, if_neg (not_not.mpr hs)]
  by_cases hdots : name = dotDot
  · rw [if_pos hdots]
    exact total_pure (.of_found (.up hs hdots))
  rw [if_neg hdots]
  cases hk : n.children.find? (s.named name) with
  | none => exact total_pure (.of_error _)
  | some k => exact total_pure (.of_found (.child hs hdot hdots hk))

theorem foundIn_parent {a : Addr} (hs : n.shape ≠ .memfsNode) (ha : F.root = some a)
    (hp : Ptr.node a = p) (hname : name = dotDot) :
    FoundIn s p n F name (.ok (F.parentNode.map Ptr.node)) where
  found q hq := by
    obtain ⟨k, hk, rfl⟩ := map_eq_some_iff.mp (Except.ok.inj hq)
    exact .parent hs ha hp.symm hname hk
  null h := ⟨a, ha, hp.symm, map_eq_none_iff.mp (Except.ok.inj h)⟩

theorem devfsLookup_found (hk : F.kind = .dev) (hs : n.shape ≠ .memfsNode) :
    FoundIn s p n F name (devfsLookup s F p name) := by
  rw [devfsLookup]
  by_cases hdot : name = dot
  · rw [if_pos hdot]
    exact .of_found (.self hdot)
  rw [if_neg hdot]
  by_cases hroot : F.root.map Ptr.node = some p ∧ name = dotDot
  · rw [if_pos hroot]
    obtain ⟨a, ha, hap⟩ := map_eq_some_iff.mp hroot.1
    exact foundIn_parent hs ha hap hroot.2
  rw [if_neg hroot]
  cases hd : F.devices.find? (s.named name) with
  | none => exact .of_error _
  | some k => exact .of_found (.device hk hdot (List.mem_of_find?_eq_some hd))

theorem ext2Lookup_found (hs : n.shape = .ext2Node) (hfs : n.fs = n.made) :
    Total Call.Sound (ext2Lookup F p n name) (FoundIn s p n F name) := by
  rw [ext2Lookup]
  by_cases hdot : name = dot
  · rw [if_pos hdot]
    exact total_pure (.of_found (.self hdot))
  rw [if_neg hdot]
  by_cases hroot : F.root.map Ptr.node = some p ∧ name = dotDot
  · rw [if_pos hroot]
    obtain ⟨a, ha, hap⟩ := map_eq_some_iff.mp hroot.1
    exact total_pure (foundIn_parent (by simp [hs]) ha hap hroot.2)
  rw [if_neg hroot, if_neg (not_not.mpr hs), hfs]
  cases he : lastPrefix name (live (F.disk.entries n.id)) with
  | none => exact total_pure (.of_error _)
  | some e => exact total_pure (.of_found (.entry hs hdot hroot he))

theorem fsLookup_total (p : Ptr) (name : Name) (hfs : n.fs = n.made) (hn : n.freed = false)
    (hF : s.fss n.made = some F) (hk : F.freed = false) (hkind : n.shape.kind = F.kind) :
    Total Call.Sound (fsLookup s p n name) (FoundIn s p n F name) := by
  rw [fsLookup, hfs]
  refine (dispatch_total hF rfl hn hk (casts_of_kind hkind fun _ => .inl rfl)).bind ?_
  intro G hG
  rw [hG]
  cases hkd : F.kind with
  | mem => exact memfsLookup_found (kind_eq_mem_iff.mp (hkind.trans hkd))
  | dev =>
    have hs : n.shape ≠ .memfsNode := by
      intro hs
      rw [hs, hkd] at hkind
      cases hkind
    exact total_pure (devfsLookup_found hkd hs)
  | ext2 => exact ext2Lookup_found (kind_eq_ext2_iff.mp (hkind.trans hkd)) hfs

theorem fsLookup_result (hF : s.fss n.fs = some F) :
    (fsLookup s p n name).result = match F.kind with
      | .mem => (memfsLookup s p n name).result
      | .dev => .ok (devfsLookup s F p name)
      | .ext2 => (ext2Lookup F p n name).result := by
  rw [fsLookup, dispatch, State.vfs, hF, ofOption_some, pure_bind_eq, result_bind]
  show (match F.kind with
    | .mem => memfsLookup s p n name
    | .dev => pure (devfsLookup s F p name)
    | .ext2 => ext2Lookup F p n name).result = _
  cases F.kind <;> rfl

theorem fsLookup_up (hF : s.fss n.fs = some F) (hkind : F.kind = .mem)
    (hs : n.shape = .memfsNode) :
    (fsLookup s p n dotDot).result = .ok (.ok (some (.node n.up))) := by
  rw [fsLookup_result hF, hkind]
  rw [memfsLookup, if_neg (by decide), if_neg (not_not.mpr hs), if_pos rfl]
  rfl

end Lookup

/-! ### Going through mountpoints -/

/-- Every directory of an ext2 file system has an entry `..`. -/
def DotDots (s : State) : Prop :=
  ∀ g G, s.fss g = some G → G.kind = .ext2 → ∀ i, G.disk.type i = .dir →
    lastPrefix dotDot (live (G.disk.entries i)) ≠ none

section Walk

variable {s : State} {p q : Ptr} {n : Node} {F : Fs} {name : Name}

theorem Inv.kind (hI : Inv s) (h : Live s p n F) : n.shape.kind = F.kind := by
  cases p with
  | node a => exact (hI.node a n F h).kind
  | ext2 g i =>
    obtain ⟨G, hG, hkind, -, rfl⟩ := get_ext2 h.get
    obtain rfl := mem_unique hG h.fs
    exact hkind.symm

theorem Inv.plain (hI : Inv s) (h : Live s p n F) (hn : n.type ≠ .mountpoint) : n.fs = n.made := by
  cases p with
  | node a => exact (hI.node a n F h).plain hn
  | ext2 g i =>
    obtain ⟨G, -, -, -, rfl⟩ := get_ext2 h.get
    rfl

variable {g : ℕ} {G : Fs} {r : Addr}

theorem Inv.live_root (hI : Inv s) (hG : s.fss g = some G) (hk : G.freed = false)
    (hr : G.root = some r) :
    ∃ m, Live s (.node r) m G ∧ m.made = g ∧ m.type = .dir ∧ m.shape = G.kind.rootShape := by
  obtain ⟨m, hm, hfree, hmade, htype, hshape, -⟩ := (hI.fs g G hG hk).root r hr
  exact ⟨m, ⟨hm, hfree, by rw [hmade]; exact hG, hk⟩, hmade, htype, hshape⟩

variable {k : Addr}

theorem Inv.live_parent (hI : Inv s) (hG : s.fss g = some G) (hk : G.freed = false)
    (hr : G.root = some r) (hpar : G.parentNode = some k) : ∃ m M, Live s (.node k) m M := by
  rcases (hI.fs g G hG hk).parent r hr with ⟨-, hself⟩ | ⟨-, k', m, M, hk', hlive, -⟩
  · obtain rfl := mem_unique hself hpar
    obtain ⟨m, hm, -⟩ := hI.live_root hG hk hr
    exact ⟨m, G, hm⟩
  · obtain rfl := mem_unique hk' hpar
    exact ⟨m, M, hlive⟩

theorem Inv.live_inode (hI : Inv s) (h : Live s p n F) (hs : n.shape = .ext2Node) (i : ℕ) :
    Live s (.ext2 n.made i) (inodeNode n.made i F.disk) F := by
  have hkind : F.kind = .ext2 := by rw [← hI.kind h, hs, Shape.kind]
  have hroot : F.root ≠ none := by
    cases p with
    | ext2 g i =>
      obtain ⟨G, hG, -, hroot, rfl⟩ := get_ext2 h.get
      obtain rfl := mem_unique hG h.fs
      exact hroot
    | node a =>
      obtain ⟨r, hr, -⟩ := (hI.node a n F h).root (by simp [hs, Shape.kind])
      simp [hr]
  refine ⟨?_, rfl, h.fs, h.fsKept⟩
  simp only [State.get, h.fs, bind_some]
  rw [if_pos ⟨hkind, hroot⟩]

variable {a : Addr}

theorem Inv.hasRoot (hI : Inv s) (h : Live s (.node a) n F) (hdev : n.shape.kind ≠ .dev) :
    HasRoot s n.made := by
  obtain ⟨r, hr, -⟩ := (hI.node a n F h).root hdev
  exact ⟨F, h.fs, by simp [hr]⟩

theorem Found.live (hI : Inv s) (h : Live s p n F) (hq : Found s p n F name q) :
    ∃ m M, Live s q m M := by
  cases hq with
  | self _ => exact ⟨n, F, h⟩
  | up hs _ =>
    cases p with
    | ext2 g i =>
      obtain ⟨G, -, -, -, rfl⟩ := get_ext2 h.get
      cases hs
    | node a =>
      have hinv := hI.node a n F h
      by_cases hroot : F.root = some a
      · -- the `up` pointer of a root is the parent node of the file system
        obtain ⟨n', hn', -, -, -, -, -, hup⟩ := (hI.fs _ F h.fs h.fsKept).root a hroot
        obtain rfl := mem_unique hn' h.get
        have hmem : F.kind = .mem := by rw [← hinv.kind, hs, Shape.kind]
        exact hI.live_parent h.fs h.fsKept hroot (hup hmem)
      · obtain ⟨-, u, hu⟩ := hinv.up hs hroot
        exact ⟨u, F, hu.live h.fs h.fsKept⟩
  | child hs _ _ hk =>
    cases p with
    | ext2 g i =>
      obtain ⟨G, -, -, -, rfl⟩ := get_ext2 h.get
      cases hs
    | node a =>
      obtain ⟨-, c, hc, -⟩ := (hI.node a n F h).child hs _ (List.mem_of_find?_eq_some hk)
      exact ⟨c, F, hc.live h.fs h.fsKept⟩
  | parent _ hr _ _ hk => exact hI.live_parent h.fs h.fsKept hr hk
  | device _ _ hk =>
    obtain ⟨m, hm, hfree, hmade, -⟩ := (hI.fs _ F h.fs h.fsKept).device _ hk
    exact ⟨m, F, hm, hfree, by rw [hmade]; exact h.fs, h.fsKept⟩
  | entry hs _ _ _ => exact ⟨_, F, hI.live_inode h hs _⟩

/-- `s'` is `s` where from `k` on the `fs` fields may have been patched. -/
structure Patched (k : Addr) (s s' : State) : Prop where
  fss : s'.fss = s.fss
  below : ∀ a < k, s'.nodes a = s.nodes a
  node : ∀ a n, s.nodes a = some n → ∃ g, s'.nodes a = some { n with fs := g }

theorem patched_self (s : State) (k : Addr) : Patched k s s :=
  ⟨rfl, fun _ _ => rfl, fun _ n hn => ⟨n.fs, hn⟩⟩

variable {s' : State}

theorem Patched.patch {j : Addr} (h : Patched k s s') (hj : j ≤ k) (g : ℕ) :
    Patched j s (s'.patch g (.node j)) where
  fss := h.fss
  below a ha := by
    show update _ _ _ a = _
    rw [update_of_ne (Nat.ne_of_lt ha)]
    exact h.below a (Nat.lt_of_lt_of_le ha hj)
  node a m hm := by
    obtain ⟨g', hg'⟩ := h.node a m hm
    show ∃ g, update _ _ _ a = _
    by_cases haj : a = j
    · subst haj
      rw [update_self, hg']
      exact ⟨g, rfl⟩
    · rw [update_of_ne haj]
      exact ⟨g', hg'⟩

theorem Patched.get_ext2 (h : Patched k s s') (g i : ℕ) :
    s'.get (.ext2 g i) = s.get (.ext2 g i) := by
  simp only [State.get, h.fss]

theorem patch_get_self {m : Node} {g' : ℕ} (g : ℕ) (h : s'.nodes a = some { m with fs := g' }) :
    (s'.patch g (.node a)).nodes a = some { m with fs := g } := by
  show update _ _ _ a = _
  rw [update_self, h]
  rfl

/-- What a lookup of `..` can find from a mountpoint: a node on which nothing is
mounted, of the same file system. -/
structure Above (s : State) (g : ℕ) (q : Ptr) (m : Node) (F : Fs) : Prop where
  live : Live s q m F
  made : m.made = g
  type : m.type ≠ .mountpoint

/-- **Going up** from a mountpoint whose `fs` has been patched, possibly over
further mountpoints.  The nodes above it are older, so none of them is patched
yet.  Only an ext2 file system without an entry `..` stops it. -/
theorem climb_total (hI : Inv s) (depth : ℕ) : ∀ {k : Addr} {s' : State} {n : Node},
    k < depth → Patched k s s' → Live s (.node k) n F → n.type = .mountpoint →
    s'.nodes k = some { n with fs := n.made } →
    Total Call.Sound (vfsLookupN depth s' (.node k) dotDot) fun r =>
      (∀ q, r = .ok q → ∃ m, Above s n.made q m F) ∧ ∀ e, r = .error e → ¬ DotDots s := by
  induction depth with
  | zero => exact fun h => absurd h (Nat.not_lt_zero _)
  | succ depth ih =>
    intro k s' n hdepth hs' hlive hmp hnode
    have hinv := hI.node k n F hlive
    obtain ⟨-, hnroot, hdev⟩ := hinv.mount hmp
    have hF : s'.fss n.made = some F := by rw [hs'.fss]; exact hlive.fs
    have hlook := fsLookup_total (n := { n with fs := n.made }) (.node k) dotDot rfl
      hlive.kept hF hlive.fsKept hinv.kind
    rw [vfsLookupN, State.deref, State.get, hnode, ofOption_some, pure_bind_eq,
      if_neg (by simp [hmp])]
    rcases shape_eq_of_kind hdev with hs | hs
    · have hkind : F.kind = .mem := by rw [← hinv.kind, hs, Shape.kind]
      obtain ⟨hlt, u, hu⟩ := hinv.up hs hnroot
      have hulive := hu.live hlive.fs hlive.fsKept
      have hunode : s'.nodes n.up = some u := (hs'.below _ hlt).trans hu.1
      refine hlook.bind_ok (fsLookup_up hF hkind hs) ?_
      dsimp only
      rw [State.deref, State.get, hunode, ofOption_some, pure_bind_eq]
      by_cases hump : u.type = .mountpoint
      · -- another mountpoint: its `fs` is the file system mounted on it
        obtain ⟨⟨G, r, hG, -, -, -, hpar⟩, -, -⟩ := (hI.node _ u F hulive).mount hump
        rw [if_neg (not_not.mpr hump), if_pos rfl, State.vfs, hs'.fss, hG, ofOption_some,
          pure_bind_eq, hpar, ofOption_some, pure_bind_eq]
        have hup : n.up < depth := Nat.lt_of_lt_of_le hlt (Nat.le_of_lt_succ hdepth)
        have hnext := ih hup (hs'.patch (Nat.le_of_lt hlt) u.made) hulive hump
          (patch_get_self u.made hunode)
        rwa [hu.2.2.1] at hnext ⊢
      · rw [if_pos hump]
        refine total_pure ⟨fun q hq => ?_, fun e he => by cases he⟩
        cases hq
        exact ⟨u, hulive, hu.2.2.1, hump⟩
    · have hkind : F.kind = .ext2 := by rw [← hinv.kind, hs, Shape.kind]
      have hnot : ¬ (F.root.map Ptr.node = some (.node k) ∧ dotDot = dotDot) := by
        rintro ⟨hroot, -⟩
        obtain ⟨a, ha, hak⟩ := map_eq_some_iff.mp hroot
        cases hak
        exact hnroot ha
      have hres : (fsLookup s' (.node k) { n with fs := n.made } dotDot).result = _ :=
        fsLookup_result hF
      rw [hkind] at hres
      rw [ext2Lookup, if_neg (by decide), if_neg hnot, if_neg (not_not.mpr hs)] at hres
      cases he : lastPrefix dotDot (live (F.disk.entries n.id)) with
      | none =>
        rw [he] at hres
        refine hlook.bind_ok hres
          (total_pure ⟨(fun q hq => by cases hq), fun _ _ hdots => ?_⟩)
        exact hdots _ F hlive.fs hkind n.id (hinv.inode hs (.inr hmp)) he
      | some e =>
        rw [he] at hres
        have hentry := hI.live_inode hlive hs e.inode
        refine hlook.bind_ok hres ?_
        dsimp only
        rw [State.deref, hs'.get_ext2, hentry.get, ofOption_some, pure_bind_eq,
          if_pos (type_inodeNode_ne _ _ _)]
        refine total_pure ⟨fun q hq => ?_, fun e he => by cases he⟩
        cases hq
        exact ⟨_, hentry, rfl, type_inodeNode_ne _ _ _⟩

theorem Live.exists_addr (h : Live s p n F) (hn : n.type = .mountpoint) : ∃ a, p = .node a := by
  cases p with
  | node a => exact ⟨a, rfl⟩
  | ext2 g i =>
    obtain ⟨G, -, -, -, rfl⟩ := get_ext2 h.get
    exact absurd hn (type_inodeNode_ne _ _ _)

/-- Where a lookup that finds `q0` ends: there, or if something is mounted on it
above it or at the root of what is mounted. -/
inductive Through (s : State) (name : Name) (q0 : Ptr) (m : Node) (M : Fs) : Ptr → Prop
  | plain (hm : m.type ≠ .mountpoint) : Through s name q0 m M q0
  | above {q : Ptr} {m' : Node} (hm : m.type = .mountpoint) (hname : name = dotDot)
      (hq : Above s m.made q m' M) : Through s name q0 m M q
  | below {G : Fs} {r : Addr} (hm : m.type = .mountpoint) (hname : name ≠ dotDot)
      (hG : s.fss m.fs = some G) (hr : G.root = some r) : Through s name q0 m M (.node r)

theorem vfsLookup_through (hI : Inv s) (h : Live s p n F) (hn : n.type ≠ .mountpoint)
    (name : Name) :
    Total Call.Sound (vfsLookup s p name) fun r => ∀ q, r = .ok q →
      ∃ q0 m M, Found s p n F name q0 ∧ Live s q0 m M ∧ Through s name q0 m M q := by
  rw [vfsLookup, vfsLookupN, State.deref, h.get, ofOption_some, pure_bind_eq]
  by_cases hdir : n.type ≠ .dir ∧ n.type ≠ .mountpoint
  · rw [if_pos hdir]
    exact total_pure fun q hq => by cases hq
  rw [if_neg hdir]
  refine (fsLookup_total p name (hI.plain h hn) h.kept h.fs h.fsKept (hI.kind h)).bind ?_
  intro found hfound
  match found with
  | .error e => exact total_pure fun q hq => by cases hq
  | .ok none =>
    -- a file system with a root has a parent node
    obtain ⟨a, ha, -, hnone⟩ := hfound.null rfl
    rcases (hI.fs _ F h.fs h.fsKept).parent a ha with ⟨-, hpar⟩ | ⟨-, k, -, -, hpar, -⟩
    · rw [hnone] at hpar
      cases hpar
    · rw [hnone] at hpar
      cases hpar
  | .ok (some q0) =>
    have hq0 := hfound.found q0 rfl
    obtain ⟨m, M, hm⟩ := hq0.live hI h
    dsimp only
    rw [State.deref, hm.get, ofOption_some, pure_bind_eq]
    by_cases hmp : m.type = .mountpoint
    · obtain ⟨k, rfl⟩ := hm.exists_addr hmp
      obtain ⟨⟨G, r, hG, hGk, hr, -, hpar⟩, -, -⟩ := (hI.node k m M hm).mount hmp
      rw [if_neg (not_not.mpr hmp)]
      by_cases hdots : name = dotDot
      · rw [if_pos hdots, State.vfs, hG, ofOption_some, pure_bind_eq, hpar, ofOption_some,
          pure_bind_eq]
        have hdepth : k < s.next + 1 := Nat.lt_succ_of_lt (hI.next k m hm.get).1
        have hclimb := climb_total hI (s.next + 1) hdepth
          ((patched_self s k).patch (Nat.le_refl k) m.made) hm hmp (patch_get_self m.made hm.get)
        rw [← hdots] at hclimb
        refine hclimb.mono fun r hr q hq => ?_
        obtain ⟨m', hm'⟩ := hr.1 q hq
        exact ⟨_, m, M, hq0, hm, .above hmp hdots hm'⟩
      · rw [if_neg hdots, State.rootOf, State.vfs, hG, ofOption_some, pure_bind_eq, hr,
          ofOption_some, pure_bind_eq]
        refine total_pure fun q hq => ?_
        cases hq
        exact ⟨_, m, M, hq0, hm, .below hmp hdots hG hr⟩
    · rw [if_pos hmp]
      refine total_pure fun q hq => ?_
      cases hq
      exact ⟨_, m, M, hq0, hm, .plain hmp⟩

theorem Through.usable (hI : Inv s) {q0 : Ptr} {m : Node} {M : Fs} (hm : Live s q0 m M)
    (h : Through s name q0 m M q) : Usable s q := by
  cases h with
  | plain hmp => exact ⟨m, M, hm, hmp⟩
  | above _ _ hq => exact ⟨_, M, hq.live, hq.type⟩
  | below hmp _ hG hr =>
    obtain ⟨k, rfl⟩ := hm.exists_addr hmp
    obtain ⟨⟨G', r', hG', hk, -⟩, -⟩ := (hI.node k m M hm).mount hmp
    obtain rfl := mem_unique hG' hG
    obtain ⟨m', hm', -, htype, -⟩ := hI.live_root hG hk hr
    exact ⟨m', _, hm', by simp [htype]⟩

theorem vfsLookup_total (hI : Inv s) (h : Usable s p) (name : Name) :
    Total Call.Sound (vfsLookup s p name) fun r => ∀ q, r = .ok q → Usable s q := by
  obtain ⟨n, F, h, hn⟩ := h
  refine (vfsLookup_through hI h hn name).mono fun r hr q hq => ?_
  obtain ⟨q0, m, M, -, hm, hthrough⟩ := hr q hq
  exact hthrough.usable hI hm

theorem walk_total (hI : Inv s) (names : List Name) : ∀ {p : Ptr}, Usable s p →
    Total Call.Sound (walk s p names) fun r => ∀ q, r = .ok q → Usable s q := by
  induction names with
  | nil =>
    intro p hp
    refine total_pure fun q hq => ?_
    cases hq
    exact hp
  | cons name names ih =>
    intro p hp
    refine (vfsLookup_total hI hp name).bind fun found hfound => ?_
    match found with
    | .error e => exact total_pure fun q hq => by cases hq
    | .ok q => exact ih (hfound q rfl)

end Walk

end Vfs
