/-
The virtual file system and the file systems below it (`fs/vfs.c`, `fs/mem.c`,
`fs/dev.c` and the operations of `fs/ext2/ext2.c` that the VFS calls).

A `struct vfs_node` is the first member of a larger struct, and an operation
`fs->ops->f(node)` casts the node it gets to the struct of its own file system.
A mount is recorded in the node mounted on: its `type` becomes
`nt_mountpoint` and its `fs` the file system mounted there.  `vfs_lookup` goes
down through such a node to the root of the file system mounted, and up through
it by putting the parent file system into the node for the time of a recursive
call.

Nodes live at addresses; `made` and `shape` are ghost fields that say which file
system made a node and which struct it is part of.  `get_node` of ext2 makes a
new node at every call, of which nothing but its inode number can be told, so
such a node is a value, `Ptr.ext2`, until somebody keeps it: the root of the file
system, a working directory, a node mounted on.  Every call through an
operations table is on record (`Call`).

* `vfsLookup`, `vfsTraverse`, `vfsMount`, `vfsUnmount`, `vfsChdir`, `vfsOpen`,
  `vfsClose`, `vfsCreate`, `vfsMkdir` — the functions of `vfs.c`;
* `State.step` — a sequence of them, by any tasks;
* `components_append` — the components of a path are those of its parts;
* `ext2Lookup_disk` — `ext2_lookup` of `Minima.Ext2Dir` finds in the bytes of a
  directory what the lookup here finds in its entries.
-/
import Minima.Traced
import Minima.Runs
import Minima.Ext2Dir
import Mathlib.Logic.Function.Basic

namespace Vfs

open Function
open Ext2 (Entry lastPrefix live dot dotDot enoent)

/-! ### File systems, nodes and files -/

abbrev Name := List ℕ

abbrev Addr := ℕ

def einval : ℤ := -2

def enosys : ℤ := -4

def eexist : ℤ := -5

def eio : ℤ := -9

def enotsup : ℤ := -11

def enotdir : ℤ := -13

/-- The operations tables: `memfs_ops`, `devfs_ops`, `ext2_ops`. -/
inductive Kind
  | mem
  | dev
  | ext2
  deriving DecidableEq

/-- The struct a `vfs_node` is part of; the root of devfs is a bare one. -/
inductive Shape
  | vfsNode
  | memfsNode
  | devfsNode
  | ext2Node
  deriving DecidableEq

/-- The file systems that nodes of a struct belong to. -/
def Shape.kind : Shape → Kind
  | .vfsNode => .dev
  | .devfsNode => .dev
  | .memfsNode => .mem
  | .ext2Node => .ext2

/-- The struct that the root node of a file system is part of. -/
def Kind.rootShape : Kind → Shape
  | .mem => .memfsNode
  | .dev => .vfsNode
  | .ext2 => .ext2Node

/-- A `struct vfs_node` and what follows it in memory: `name`, `up` and
`children` of a `memfs_node`, `dev->name` of a `devfs_node`. -/
structure Node where
  fs : ℕ
  id : ℕ
  type : NodeType
  /-- the file system that made the node -/
  made : ℕ
  /-- the struct it is part of -/
  shape : Shape
  name : Name := []
  up : Addr := 0
  /-- the list through `next` that begins at `children` -/
  children : List Addr := []
  freed : Bool := false
  deriving DecidableEq

/-- A pointer to a node: in memory, or just made by `get_node` of ext2. -/
inductive Ptr
  | node (a : Addr)
  | ext2 (fs inode : ℕ)
  deriving DecidableEq

/-- What an ext2 file system reads from its device. -/
structure Disk where
  /-- `find_superblock` has found one -/
  sb : Bool
  /-- the records of a directory, by inode number -/
  entries : ℕ → List Entry
  mode : ℕ → ℕ

def Disk.type (d : Disk) (i : ℕ) : NodeType := Ext2.mode2Type (d.mode i)

/-- A `struct vfs` and what follows it in memory. -/
structure Fs where
  kind : Kind
  parent : Option ℕ := none
  parentNode : Option Addr := none
  /-- `fs->root` of memfs and ext2, `&fs->root` of a devfs that has been mounted -/
  root : Option Addr := none
  lastId : ℕ := 0
  devices : List Addr := []
  disk : Disk := ⟨false, fun _ => [], fun _ => 0⟩
  freed : Bool := false

/-- A `struct vfs_file`; `fs` is the file system whose table `ops` is. -/
structure File where
  node : Ptr
  fs : ℕ

structure State where
  nodes : Addr → Option Node := fun _ => none
  next : Addr := 0
  fss : ℕ → Option Fs := fun _ => none
  nextFs : ℕ := 0
  /-- `root` -/
  root : Option ℕ := none
  /-- `s_devfs` -/
  devfs : Option ℕ := none
  /-- `current->cwd`, by task -/
  cwd : ℕ → Option Addr := fun _ => none
  files : ℕ → Option File := fun _ => none
  nextFile : ℕ := 0

/-- The node `get_node` makes for an inode. -/
def inodeNode (g i : ℕ) (d : Disk) : Node where
  fs := g
  id := i
  type := d.type i
  made := g
  shape := .ext2Node

/-- What a pointer points to.  `get_node` is called for a file system that has
been mounted. -/
def State.get (s : State) : Ptr → Option Node
  | .node a => s.nodes a
  | .ext2 g i => (s.fss g).bind fun F =>
    if F.kind = .ext2 ∧ F.root ≠ none then some (inodeNode g i F.disk) else none

def State.modifyNode (s : State) (a : Addr) (f : Node → Node) : State :=
  { s with nodes := update s.nodes a ((s.nodes a).map f) }

def State.modifyFs (s : State) (g : ℕ) (f : Fs → Fs) : State :=
  { s with fss := update s.fss g ((s.fss g).map f) }

def State.alloc (s : State) (n : Node) : State :=
  { s with nodes := update s.nodes s.next (some n), next := s.next + 1 }

/-- The address of a node that is kept: a node just made gets one. -/
def State.keep (s : State) (n : Node) : Ptr → Addr × State
  | .node a => (a, s)
  | .ext2 _ _ => (s.next, s.alloc n)

/-! ### Calls through the operations tables -/

inductive Op
  | lookup
  | readdir
  | create
  | mkdir
  | openNode
  | closeFile
  /-- any of `file->ops` -/
  | fileOp
  deriving DecidableEq

/-- The struct that an operation casts its node to, if it does. -/
def Kind.casts : Kind → Op → Option Shape
  | .mem, .openNode => none
  | .mem, .closeFile => none
  | .mem, _ => some .memfsNode
  | .dev, .openNode => some .devfsNode
  | .dev, .closeFile => some .devfsNode
  | .dev, .fileOp => some .devfsNode
  | .dev, _ => none
  | .ext2, .openNode => none
  | .ext2, .closeFile => none
  | .ext2, _ => some .ext2Node

/-- A call `fs->ops->f(node)` or `file->ops->f(file)`, with what there is to know
about the node. -/
structure Call where
  fs : ℕ
  kind : Kind
  op : Op
  made : ℕ
  shape : Shape
  /-- the node or the file system has been freed -/
  freed : Bool
  deriving DecidableEq

/-- The node was made by that very file system, and is part of the struct that
the operation casts it to. -/
structure Call.Sound (c : Call) : Prop where
  alive : c.freed = false
  made : c.made = c.fs
  cast : ∀ sh ∈ c.kind.casts c.op, c.shape = sh

instance (c : Call) : Decidable c.Sound :=
  decidable_of_iff (c.freed = false ∧ c.made = c.fs ∧ ∀ sh ∈ c.kind.casts c.op, c.shape = sh)
    ⟨fun h => ⟨h.1, h.2.1, h.2.2⟩, fun h => ⟨h.alive, h.made, h.cast⟩⟩

/-- How a call can fail to return. -/
inductive Stop
  /-- an access through `NULL` -/
  | nullPointer
  /-- a failed `assert` -/
  | assertion
  /-- an access beyond the struct that the node is part of -/
  | badCast
  /-- the recursion has not ended within the depth the model allows -/
  | diverged
  deriving DecidableEq

abbrev Do := Traced Call Stop

def State.deref (s : State) (p : Ptr) : Do Node := .ofOption .nullPointer (s.get p)

def State.vfs (s : State) (g : ℕ) : Do Fs := .ofOption .nullPointer (s.fss g)

/-- `fs->ops->f(node)` -/
def dispatch (s : State) (op : Op) (g : ℕ) (n : Node) : Do Fs := do
  let F ← s.vfs g
  .call ⟨g, F.kind, op, n.made, n.shape, n.freed || F.freed⟩
  pure F

/-! ### Looking up names -/

/-- `strcmp` with the name of a memfs node or of a device -/
def State.named (s : State) (name : Name) (k : Addr) : Bool :=
  (s.nodes k).map Node.name = some name

def memfsLookup (s : State) (dir : Ptr) (d : Node) (name : Name) : Do (Except ℤ (Option Ptr)) :=
  if name = dot then pure (.ok (some dir))
  else if d.shape ≠ .memfsNode then .stop .badCast
  else if name = dotDot then pure (.ok (some (.node d.up)))
  else match d.children.find? (s.named name) with
    | some k => pure (.ok (some (.node k)))
    | none => pure (.error enoent)

/-- `devfs_lookup`, which looks at `dir` only to compare its address. -/
def devfsLookup (s : State) (F : Fs) (dir : Ptr) (name : Name) : Except ℤ (Option Ptr) :=
  if name = dot then .ok (some dir)
  else if F.root.map Ptr.node = some dir ∧ name = dotDot then .ok (F.parentNode.map Ptr.node)
  else match F.devices.find? (s.named name) with
    | some k => .ok (some (.node k))
    | none => .error enoent

/-- `ext2_lookup`: the last live entry whose name is a prefix of `name` decides
(`Ext2.ext2Lookup_eq`). -/
def ext2Lookup (F : Fs) (dir : Ptr) (d : Node) (name : Name) : Do (Except ℤ (Option Ptr)) :=
  if name = dot then pure (.ok (some dir))
  else if F.root.map Ptr.node = some dir ∧ name = dotDot then
    pure (.ok (F.parentNode.map Ptr.node))
  else if d.shape ≠ .ext2Node then .stop .badCast
  else match lastPrefix name (live (F.disk.entries d.id)) with
    | some e => pure (.ok (some (.ext2 d.fs e.inode)))
    | none => pure (.error enoent)

/-- `dir->fs->ops->lookup(dir, name, &node)` -/
def fsLookup (s : State) (dir : Ptr) (d : Node) (name : Name) : Do (Except ℤ (Option Ptr)) := do
  let F ← dispatch s .lookup d.fs d
  match F.kind with
  | .mem => memfsLookup s dir d name
  | .dev => pure (devfsLookup s F dir name)
  | .ext2 => ext2Lookup F dir d name

/-- `fs->ops->get_root(fs)` -/
def State.rootOf (s : State) (g : ℕ) : Do Addr := do
  let F ← s.vfs g
  .ofOption .nullPointer F.root

/-- The assignment to `node->fs` for the time of a recursive call. -/
def State.patch (s : State) (g : ℕ) : Ptr → State
  | .node a => s.modifyNode a fun n => { n with fs := g }
  | .ext2 _ _ => s

/-- `vfs_lookup` on a directory, with a bound on the depth of its recursion.  The
old value of `node->fs` is restored after the recursive call, and a lookup
changes nothing else, so only the pointer found is passed on. -/
def vfsLookupN : ℕ → State → Ptr → Name → Do (Except ℤ Ptr)
  | 0, _, _, _ => .stop .diverged
  | depth + 1, s, dir, name => do
    let d ← s.deref dir
    if d.type ≠ .dir ∧ d.type ≠ .mountpoint then pure (.error enotdir)
    else do
      let found ← fsLookup s dir d name
      match found with
      | .error e => pure (.error e)
      | .ok none => .stop .assertion
      | .ok (some p) => do
        let node ← s.deref p
        if node.type ≠ .mountpoint then pure (.ok p)
        else if name = dotDot then do
          let mounted ← s.vfs node.fs
          let parent ← .ofOption .nullPointer mounted.parent
          vfsLookupN depth (s.patch parent p) p name
        else do
          let r ← s.rootOf node.fs
          pure (.ok (.node r))

/-- `vfs_lookup` on a directory: a recursion deeper than there are nodes does not
end. -/
def vfsLookup (s : State) (dir : Ptr) (name : Name) : Do (Except ℤ Ptr) :=
  vfsLookupN (s.next + 2) s dir name

/-! ### Paths -/

/-- The byte `/`. -/
def slash : ℕ := 0x2F

/-- The loop over `v_tok_consume`, with the part of a component already read. -/
def tokens : Name → List ℕ → List Name
  | part, [] => if part = [] then [] else [part]
  | part, b :: path =>
    if b = slash then (if part = [] then tokens [] path else part :: tokens [] path)
    else tokens (part ++ [b]) path

/-- The components of a path: the non-empty parts between slashes. -/
def components (path : List ℕ) : List Name := tokens [] path

/-- The loop of `vfs_traverse`. -/
def walk (s : State) : Ptr → List Name → Do (Except ℤ Ptr)
  | cur, [] => pure (.ok cur)
  | cur, name :: names => do
    let found ← vfsLookup s cur name
    match found with
    | .error e => pure (.error e)
    | .ok p => walk s p names

def vfsGetRoot (s : State) : Do Addr := do
  let g ← .ofOption .nullPointer s.root
  s.rootOf g

/-- `vfs_get_cwd` of task `t`, which begins at the root. -/
def vfsGetCwd (s : State) (t : ℕ) : Do (Addr × State) :=
  match s.cwd t with
  | some a => pure (a, s)
  | none => do
    let r ← vfsGetRoot s
    pure (r, { s with cwd := update s.cwd t (some r) })

/-- The directory a function of `vfs.c` works on: its argument, or the working
directory if that is `NULL`. -/
def dirOrCwd (s : State) (t : ℕ) : Option Ptr → Do (Ptr × State)
  | some p => pure (p, s)
  | none => do
    let (a, s) ← vfsGetCwd s t
    pure (.node a, s)

/-- Where `vfs_traverse` begins. -/
def startOf (s : State) (t : ℕ) (start : Option Ptr) (path : List ℕ) : Do (Ptr × State) :=
  if path.head? = some slash then do
    let r ← vfsGetRoot s
    pure (.node r, s)
  else dirOrCwd s t start

def vfsTraverse (s : State) (t : ℕ) (start : Option Ptr) (path : List ℕ) :
    Do (Except ℤ Ptr × State) := do
  let (cur, s) ← startOf s t start path
  let found ← walk s cur (components path)
  pure (found, s)

def vfsChdir (s : State) (t : ℕ) (path : List ℕ) : Do (ℤ × State) := do
  let (found, s) ← vfsTraverse s t none path
  match found with
  | .error e => pure (e, s)
  | .ok p => do
    let n ← s.deref p
    if n.type ≠ .dir then pure (enotdir, s)
    else pure (0, { (s.keep n p).2 with
      cwd := update s.cwd t (some (s.keep n p).1) })

/-! ### Mounting -/

/-- The node `memfs_node_create` makes, after the one that links it has set `up`. -/
def memfsNode (g : ℕ) (F : Fs) (name : Name) (type : NodeType) (up : Addr) : Node where
  fs := g
  id := F.lastId
  type := type
  made := g
  shape := .memfsNode
  name := name
  up := up

def memfsMount (s : State) (g : ℕ) (F : Fs) : State :=
  (s.alloc (memfsNode g F [slash] .dir (F.parentNode.getD s.next))).modifyFs g fun F =>
    { F with root := some s.next, lastId := F.lastId + 1 }

/-- The node `fs->root` of devfs, as `devfs_mount` fills it in. -/
def devfsRoot (g : ℕ) : Node where
  fs := g
  id := 0
  type := .dir
  made := g
  shape := .vfsNode

/-- `devfs_mount`.  The node is inside the `struct devfs`, so a second mount
fills in the same one. -/
def devfsMount (s : State) (g : ℕ) (F : Fs) : State :=
  match F.root with
  | some r => s.modifyNode r fun _ => devfsRoot g
  | none => (s.alloc (devfsRoot g)).modifyFs g fun F => { F with root := some s.next }

/-- `ext2_mount`.  Where the root inode is not a directory, `fs->root` has been
set when the function fails; nothing reads it then. -/
def ext2Mount (s : State) (g : ℕ) (F : Fs) : ℤ × State :=
  if F.disk.sb = false then (einval, s)
  else if F.disk.type 2 ≠ .dir then (eio, s)
  else (0, (s.alloc (inodeNode g 2 F.disk)).modifyFs g fun F => { F with root := some s.next })

/-- `fs->ops->mount(fs)` -/
def fsMount (s : State) (g : ℕ) : Do (ℤ × State) := do
  let F ← s.vfs g
  match F.kind with
  | .mem => pure (0, memfsMount s g F)
  | .dev => pure (0, devfsMount s g F)
  | .ext2 => pure (ext2Mount s g F)

/-- The first mount on `/`. -/
def mountRoot (s : State) (g : ℕ) : Do (ℤ × State) := do
  let (ret, s) ← fsMount s g
  if ret ≠ 0 then pure (ret, s)
  else do
    let r ← s.rootOf g
    pure (0, { s.modifyFs g (fun F => { F with parentNode := some r }) with root := some g })

/-- A mount on the directory `p`, whose node is `n`. -/
def mountOn (s : State) (g : ℕ) (p : Ptr) (n : Node) : Do (ℤ × State) := do
  let (ret, s') ← fsMount ((s.keep n p).2.modifyFs g fun F =>
    { F with parentNode := some (s.keep n p).1, parent := some n.fs }) g
  if ret ≠ 0 then pure (ret, s')
  else pure (0, s'.modifyNode (s.keep n p).1 fun n => { n with type := .mountpoint, fs := g })

def vfsMount (s : State) (t g : ℕ) (path : List ℕ) : Do (ℤ × State) :=
  if s.root = none ∧ path = [slash] then mountRoot s g
  else do
    let (found, s) ← vfsTraverse s t none path
    match found with
    | .error e => pure (e, s)
    | .ok p => do
      let n ← s.deref p
      if n.type ≠ .dir then pure (enotdir, s)
      else mountOn s g p n

/-- The names `vfs_readdir` gives out from index 2 on. -/
def readdirNames (s : State) (d : Node) : Do (List Name) := do
  let F ← s.vfs d.fs
  match F.kind with
  | .mem =>
    if d.shape ≠ .memfsNode then .stop .badCast
    else pure (d.children.filterMap fun k => (s.nodes k).map Node.name)
  | .dev => pure (F.devices.filterMap fun k => (s.nodes k).map Node.name)
  | .ext2 =>
    if d.shape ≠ .ext2Node then .stop .badCast
    else pure ((live (F.disk.entries d.id)).drop 2 |>.map Entry.name)

/-- The loop of `memfs_recurse_free`, where `recurse` is the function itself.  A node that has been
freed is still read, and keeps its contents until the loop is over.  The loop stops before a node
of another struct, found behind a mountpoint: what is read there as `mfn->data` is another field,
or lies beyond the end. -/
def freeEntries (recurse : Ptr → Do (List Addr)) (s : State) (dir : Ptr) (d : Node) :
    List Name → Do (List Addr)
  | [] => do
    let _ ← dispatch s .readdir d.fs d
    pure []
  | name :: names => do
    let _ ← dispatch s .readdir d.fs d
    let found ← vfsLookup s dir name
    match found with
    | .error _ => .stop .assertion
    | .ok (.ext2 _ _) => .stop .badCast
    | .ok (.node k) => do
      let n ← s.deref (.node k)
      if n.shape ≠ .memfsNode then .stop .badCast
      else do
        let below ← if n.type = .dir then recurse (.node k) else pure []
        let rest ← freeEntries recurse s dir d names
        pure (below ++ k :: rest)

/-- `memfs_recurse_free`; returns what it frees. -/
def memfsRecurseFree : ℕ → State → Ptr → Do (List Addr)
  | 0, _, _ => .stop .diverged
  | depth + 1, s, dir => do
    let d ← s.deref dir
    let names ← readdirNames s d
    freeEntries (memfsRecurseFree depth s) s dir d names

def State.free (s : State) (l : List Addr) : State :=
  { s with nodes := fun a => if a ∈ l then (s.nodes a).map fun n => { n with freed := true }
                             else s.nodes a }

/-- `memfs_unmount`.  Of a memfs that was never mounted `fs->root` is `NULL`, and
`vfs_readdir` reads the working directory instead. -/
def memfsUnmount (s : State) (t g : ℕ) (F : Fs) : Do (ℤ × State) := do
  let (dir, s) ← dirOrCwd s t (F.root.map Ptr.node)
  let l ← memfsRecurseFree (s.next + 2) s dir
  pure (0, (s.free l).modifyFs g fun F => { F with freed := true })

/-- The part of `vfs_unmount` that takes the mount out of the node mounted on.  Only the root file
system has no parent; its parent node is its own root. -/
def detach (s : State) (F : Fs) : Do State :=
  match F.parentNode with
  | none => pure s
  | some k => do
    let n ← s.deref (.node k)
    if n.type ≠ .mountpoint then .stop .assertion
    else do
      let parent ← .ofOption .nullPointer F.parent
      pure (s.modifyNode k fun n => { n with type := .dir, fs := parent })

def vfsUnmount (s : State) (t g : ℕ) : Do (ℤ × State) := do
  let F ← s.vfs g
  let s ← detach s F
  match F.kind with
  | .dev => pure (enotsup, s)
  | .ext2 => pure (enosys, s)
  | .mem => do
    let (ret, s) ← memfsUnmount s t g F
    pure (ret, { s with root := if s.root = some g then none else s.root })

/-! ### Files -/

def vfsOpen (s : State) (p : Ptr) : Do (ℤ × State) := do
  let n ← s.deref p
  let F ← dispatch s .openNode n.fs n
  -- `devfs_open` reads `n->type` and `n->dev`
  if F.kind = .dev ∧ n.shape ≠ .devfsNode then .stop .badCast
  else pure (0, { s with
    files := update s.files s.nextFile (some ⟨p, n.fs⟩), nextFile := s.nextFile + 1 })

def vfsClose (s : State) (i : ℕ) : Do (ℤ × State) := do
  let f ← .ofOption .nullPointer (s.files i)
  let n ← s.deref f.node
  let F ← dispatch s .closeFile n.fs n
  if F.kind = .dev ∧ n.shape ≠ .devfsNode then .stop .badCast
  else pure (0, { s with files := update s.files i none })

/-- `vfs_read`, `vfs_write`, `vfs_seek`, `vfs_stat` and their like: `file->ops->f` -/
def vfsFileOp (s : State) (i : ℕ) : Do Unit := do
  let f ← .ofOption .nullPointer (s.files i)
  let n ← s.deref f.node
  let _ ← dispatch s .fileOp f.fs n

/-- `memfs_create` and `memfs_mkdir`, with `memfs_add_child` -/
def memfsAdd (type : NodeType) (s : State) (dir : Ptr) (d : Node) (F : Fs) (name : Name) :
    Do State :=
  match dir with
  | .ext2 _ _ => .stop .badCast
  | .node a =>
    if d.shape ≠ .memfsNode then .stop .badCast
    else pure (((s.alloc (memfsNode d.fs F name type a)).modifyFs d.fs fun F =>
      { F with lastId := F.lastId + 1 }).modifyNode a fun n =>
        { n with children := s.next :: n.children })

/-- What `vfs_create` and `vfs_mkdir` have in common; only memfs has the
operations. -/
def vfsMake (op : Op) (type : NodeType) (s : State) (t : ℕ) (dir : Option Ptr) (name : Name) :
    Do (ℤ × State) := do
  let (p, s) ← dirOrCwd s t dir
  let d ← s.deref p
  let F ← s.vfs d.fs
  if F.kind ≠ .mem then pure (enotsup, s)
  else do
    let found ← vfsLookup s p name
    match found with
    | .ok _ => pure (eexist, s)
    | .error _ => do
      let F ← dispatch s op d.fs d
      let s ← memfsAdd type s p d F name
      pure (0, s)

def vfsCreate := vfsMake .create .file

def vfsMkdir := vfsMake .mkdir .dir

/-! ### Sequences of operations -/

/-- What a task can do. -/
inductive Event
  | memfsNew
  | devfsGet
  /-- `devfs_register_char` or `devfs_register_block` -/
  | register (name : Name) (block : Bool)
  | ext2New (disk : Disk)
  | mount (t g : ℕ) (path : List ℕ)
  | unmount (t g : ℕ)
  | chdir (t : ℕ) (path : List ℕ)
  | lookup (t : ℕ) (dir : Option Ptr) (name : Name)
  | traverse (t : ℕ) (start : Option Ptr) (path : List ℕ)
  | openNode (p : Ptr)
  | closeFile (i : ℕ)
  | fileOp (i : ℕ)
  | create (t : ℕ) (dir : Option Ptr) (name : Name)
  | mkdir (t : ℕ) (dir : Option Ptr) (name : Name)

def State.newFs (s : State) (F : Fs) : State :=
  { s with fss := update s.fss s.nextFs (some F), nextFs := s.nextFs + 1 }

/-- The node of a device that is registered. -/
def deviceNode (g : ℕ) (name : Name) (block : Bool) : Node where
  fs := g
  id := 999
  type := if block then .devBlock else .devChar
  made := g
  shape := .devfsNode
  name := name

def devfsRegister (s : State) (name : Name) (block : Bool) : Do State := do
  let g ← .ofOption .nullPointer s.devfs
  pure ((s.alloc (deviceNode g name block)).modifyFs g fun F =>
    { F with devices := s.next :: F.devices })

def State.step (s : State) : Event → Do State
  | .memfsNew => pure (s.newFs { kind := .mem })
  | .devfsGet =>
    match s.devfs with
    | some _ => pure s
    | none => pure { s.newFs { kind := .dev } with devfs := some s.nextFs }
  | .register name block => devfsRegister s name block
  | .ext2New disk => pure (s.newFs { kind := .ext2, disk := disk })
  | .mount t g path => do
    let (_, s) ← vfsMount s t g path
    pure s
  | .unmount t g => do
    let (_, s) ← vfsUnmount s t g
    pure s
  | .chdir t path => do
    let (_, s) ← vfsChdir s t path
    pure s
  | .lookup t dir name => do
    let (p, s) ← dirOrCwd s t dir
    let _ ← vfsLookup s p name
    pure s
  | .traverse t start path => do
    let (_, s) ← vfsTraverse s t start path
    pure s
  | .openNode p => do
    let (_, s) ← vfsOpen s p
    pure s
  | .closeFile i => do
    let (_, s) ← vfsClose s i
    pure s
  | .fileOp i => do
    vfsFileOp s i
    pure s
  | .create t dir name => do
    let (_, s) ← vfsCreate s t dir name
    pure s
  | .mkdir t dir name => do
    let (_, s) ← vfsMkdir s t dir name
    pure s

/-- The state after an event whose calls all return. -/
def State.after (s : State) (e : Event) : Option State := (s.step e).value

def Step (s : State) (e : Event) (s' : State) : Prop := s.after e = some s'

/-! ### Components -/

theorem tokens_append (part a b : List ℕ) :
    tokens part (a ++ slash :: b) = tokens part a ++ tokens [] b := by
  induction a generalizing part with
  | nil =>
    by_cases hpart : part = []
    · simp [tokens, hpart]
    · simp [tokens, hpart]
  | cons c a ih =>
    by_cases hc : c = slash
    · by_cases hpart : part = []
      · simp [tokens, hc, hpart, ih]
      · simp [tokens, hc, hpart, ih]
    · simp [tokens, hc, ih]

theorem tokens_of_noSlash {part c : List ℕ} (h : slash ∉ c) (hne : part ++ c ≠ []) :
    tokens part c = [part ++ c] := by
  induction c generalizing part with
  | nil =>
    rw [List.append_nil] at hne
    simp [tokens, hne]
  | cons b c ih =>
    have hb : b ≠ slash := fun hb => h (hb ▸ List.mem_cons_self)
    have htail := @ih (part ++ [b]) (fun hc => h (List.mem_cons_of_mem _ hc)) (by simp)
    simpa [tokens, hb] using htail

theorem components_append (a b : List ℕ) :
    components (a ++ slash :: b) = components a ++ components b :=
  tokens_append [] a b

theorem components_name {c : Name} (h : slash ∉ c) (hne : c ≠ []) : components c = [c] :=
  tokens_of_noSlash h (by simpa using hne)

/-! ### Directories of an ext2 file system as bytes -/

/-- A directory whose bytes hold the entries `F.disk` has for it is searched by
`ext2_lookup` as `ext2Lookup` searches the entries: what is found has the same
inode number. -/
theorem ext2Lookup_disk {v : Ext2.Volume Id} {F : Fs} {dir : Ptr} {d : Node} {e : Ext2.Node}
    {blocks : List (List Entry)} {name : Name} (hshape : d.shape = .ext2Node)
    (hdisk : F.disk.entries d.id = blocks.flatten)
    (hdir : Ext2.WellFormed v e.inode blocks) (hname : 0 ∉ name) (hdot : name ≠ dot)
    (hdots : ¬ (F.root.map Ptr.node = some dir ∧ name = dotDot))
    (hread : ∀ e ∈ live blocks.flatten, ∃ n, Ext2.getNode v e.inode = pure (some n)) :
    (∀ i, (ext2Lookup F dir d name).result = .ok (.ok (some (.ext2 d.fs i))) →
      ∃ n : Ext2.Node, n.id = i ∧
        Ext2.ext2Lookup v e (F.root.map Ptr.node = some dir) name = pure (0, some (.node n))) ∧
    ((ext2Lookup F dir d name).result = .ok (.error enoent) →
      Ext2.ext2Lookup v e (F.root.map Ptr.node = some dir) name = pure (enoent, none)) := by
  obtain ⟨node, hnode⟩ := Ext2.exists_nodes hread
  have hroot : ¬ (decide (F.root.map Ptr.node = some dir) = true ∧ name = dotDot) := by
    simpa using hdots
  have heq := Ext2.ext2Lookup_eq hdir hname hdot hroot hnode
  have hcast : ¬ d.shape ≠ .ext2Node := not_not.mpr hshape
  rw [ext2Lookup, if_neg hdot, if_neg hdots, if_neg hcast, hdisk]
  rw [heq]
  cases hlast : lastPrefix name (live blocks.flatten) with
  | none => simp
  | some en =>
    constructor
    · intro i hi
      obtain rfl : en.inode = i := by simpa using hi
      exact ⟨_, Ext2.getNode_id (hnode en (Ext2.lastPrefix_eq_some hlast).1), rfl⟩
    · simp

end Vfs
