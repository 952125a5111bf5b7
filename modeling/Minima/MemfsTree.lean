/-
The tree of a memfs.

`memfs_create` and `memfs_mkdir` put a new node at the front of a list of children
and look at nothing: that no directory has two entries of one name, and none
called `.` or `..`, rests on the `vfs_lookup` that `vfs_create` and `vfs_mkdir`
make before.

* `make_spec` — a call on a directory of a memfs fails and changes nothing, or adds
  a node under a name that was free;
* `Grown` — what a sequence of such calls makes of a memfs that has just been
  mounted, and `Grown.added`, its step;
* `memfs_tree` — after any sequence of calls the nodes of the memfs form a tree with
  distinct names and numbers; `vfs_lookup` and `vfs_readdir` find the names that
  have been created, and no others.
-/
import Minima.VfsReaddir
import Mathlib.Logic.Relation

namespace Vfs

open Function List Option
open Ext2 (Entry lastPrefix live dot dotDot enoent)
open Traced

/-! ### The calls -/

/-- A call of `vfs_create` or `vfs_mkdir`. -/
structure Make where
  mkdir : Bool
  task : ℕ
  dir : Option Ptr
  name : Name

def State.make (s : State) (c : Make) : Do (ℤ × State) :=
  if c.mkdir then vfsMkdir s c.task c.dir c.name else vfsCreate s c.task c.dir c.name

/-- The node a call works on: its argument, or the working directory of the task. -/
def Make.target (s : State) (c : Make) : Option Addr :=
  match c.dir with
  | some (.node a) => some a
  | some (.ext2 _ _) => none
  | none => s.cwd c.task

/-- The call works on the node at `a`, a directory of a memfs. -/
structure OnDir (s : State) (c : Make) (a : Addr) : Prop where
  target : c.target s = some a
  dir : ∃ d F, Live s (.node a) d F ∧ F.kind = .mem ∧ d.type = .dir

/-- A call that has made the node at `node` under the name `name` in `dir`. -/
structure Birth where
  dir : Addr
  name : Name
  node : Addr
  deriving DecidableEq

/-- A call on a directory of a memfs, with a record of what has been made. -/
def MakeStep (x : State × List Birth) (c : Make) (y : State × List Birth) : Prop :=
  ∃ a ret, OnDir x.1 c a ∧ (x.1.make c).result = .ok (ret, y.1) ∧
    y.2 = if ret = 0 then ⟨a, c.name, x.1.next⟩ :: x.2 else x.2

/-- A new node `name` in the directory at `a` of the memfs `g`. -/
def State.added (s : State) (a : Addr) (g : ℕ) (F : Fs) (name : Name) (type : NodeType) : State :=
  ((s.alloc (memfsNode g F name type a)).modifyFs g fun F =>
    { F with lastId := F.lastId + 1 }).modifyNode a fun n =>
      { n with children := s.next :: n.children }

section Make

variable {s : State} {a : Addr} {d : Node} {F : Fs} {name : Name}

theorem dirOrCwd_target {c : Make} (h : c.target s = some a) :
    dirOrCwd s c.task c.dir = pure (.node a, s) := by
  obtain ⟨mkdir, t, dir, name⟩ := c
  rcases dir with _ | p | ⟨g, i⟩
  · change s.cwd t = some a at h
    show (vfsGetCwd s t >>= _) = _
    rw [vfsGetCwd, h]
    rfl
  · cases h
    rfl
  · cases h

theorem vfsMake_mem {op : Op} {type : NodeType} {t : ℕ} {dir : Option Ptr} (hI : Inv s)
    (h : Live s (.node a) d F) (hkind : F.kind = .mem) (hdir : d.type = .dir)
    (htarget : dirOrCwd s t dir = pure (.node a, s)) :
    (vfsMake op type s t dir name).result = (vfsLookup s (.node a) name).result >>= fun found =>
      match found with
      | .ok _ => .ok (eexist, s)
      | .error _ => .ok (0, s.added a d.made F name type) := by
  have hs : d.shape = .memfsNode := kind_eq_mem_iff.mp ((hI.kind h).trans hkind)
  have hfs : d.fs = d.made := hI.plain h (by simp [hdir])
  rw [vfsMake, htarget, pure_bind_eq]
  dsimp only
  rw [State.deref, h.get, ofOption_some, pure_bind_eq, hfs, State.vfs, h.fs, ofOption_some,
    pure_bind_eq, if_neg (not_not.mpr hkind), result_bind]
  congr 1
  funext found
  cases found with
  | ok q => rfl
  | error e =>
    rw [dispatch, State.vfs, h.fs, ofOption_some, pure_bind_eq, result_bind_eq_ok]
    refine ⟨F, rfl, ?_⟩
    rw [memfsAdd, if_neg (not_not.mpr hs), pure_bind_eq, hfs]
    rfl

/-- **A call** on a directory of a memfs returns.  It changes nothing and returns an
error, or it adds a node under a name that neither is taken nor `.` or `..`. -/
theorem make_spec (hI : Inv s) (hdots : DotDots s) {c : Make} (hon : c.target s = some a)
    (h : Live s (.node a) d F) (hkind : F.kind = .mem) (hdir : d.type = .dir) :
    (s.make c).result = .ok (eexist, s) ∨
      ((c.name ≠ dot ∧ c.name ≠ dotDot) ∧ c.name ∉ s.names d.children ∧
        ∃ type, (type = .file ∨ type = .dir) ∧
          (s.make c).result = .ok (0, s.added a d.made F c.name type)) := by
  have hs : d.shape = .memfsNode := kind_eq_mem_iff.mp ((hI.kind h).trans hkind)
  obtain ⟨type, htype, hmake⟩ : ∃ type, (type = .file ∨ type = .dir) ∧
      (s.make c).result = (vfsLookup s (.node a) c.name).result >>= fun found =>
        match found with
        | .ok _ => .ok (eexist, s)
        | .error _ => .ok (0, s.added a d.made F c.name type) := by
    rw [State.make]
    cases c.mkdir with
    | true => exact ⟨.dir, .inr rfl, vfsMake_mem hI h hkind hdir (dirOrCwd_target hon)⟩
    | false => exact ⟨.file, .inl rfl, vfsMake_mem hI h hkind hdir (dirOrCwd_target hon)⟩
  by_cases hfree : ∃ q, (vfsLookup s (.node a) c.name).result = .ok (.ok q)
  · obtain ⟨q, hq⟩ := hfree
    left
    rw [hmake, hq]
    rfl
  · rw [lookup_mem_iff hI hdots h hdir hs] at hfree
    obtain ⟨hdot, hfree⟩ := not_or.mp hfree
    obtain ⟨hdd, hfree⟩ := not_or.mp hfree
    refine .inr ⟨⟨hdot, hdd⟩, hfree, type, htype, ?_⟩
    rw [hmake, lookup_mem_none hI h hdir hs ⟨hdot, hdd⟩ hfree]
    rfl

end Make

/-! ### A new node -/

section Added

variable {s : State} {a : Addr} {d : Node} {F : Fs} {name : Name} {type : NodeType}

theorem added_nodes_iff (hd : s.nodes a = some d) (hne : a ≠ s.next) (g : ℕ) (name : Name)
    (type : NodeType) {b : Addr} {m : Node} :
    (s.added a g F name type).nodes b = some m ↔
      (b = s.next ∧ m = memfsNode g F name type a) ∨
      (b = a ∧ m = { d with children := s.next :: d.children }) ∨
      (b ≠ s.next ∧ b ≠ a ∧ s.nodes b = some m) := by
  have hdir : (s.added a g F name type).nodes a =
      some { d with children := s.next :: d.children } :=
    modifyNode_self _ ((update_of_ne hne _ _).trans hd)
  have hnew : (s.added a g F name type).nodes s.next = some (memfsNode g F name type a) :=
    (modifyNode_of_ne _ (Ne.symm hne)).trans (update_self ..)
  by_cases hb : b = s.next
  · subst hb
    rw [hnew, some_inj]
    simp [Ne.symm hne, eq_comm]
  by_cases hba : b = a
  · subst hba
    rw [hdir, some_inj]
    simp [hne, eq_comm]
  · have hold : (s.added a g F name type).nodes b = s.nodes b :=
      (modifyNode_of_ne _ hba).trans (update_of_ne hb _ _)
    rw [hold]
    simp [hb, hba]

theorem added_nodes (hI : Inv s) (h : Live s (.node a) d F) (g : ℕ) (name : Name)
    (type : NodeType) {b : Addr} {m : Node} :
    (s.added a g F name type).nodes b = some m ↔
      (b = s.next ∧ m = memfsNode g F name type a) ∨
      (b = a ∧ m = { d with children := s.next :: d.children }) ∨
      (b ≠ s.next ∧ b ≠ a ∧ s.nodes b = some m) :=
  added_nodes_iff h.get (hI.ne_next h.get) g name type

theorem added_fss {g : ℕ} (hF : s.fss g = some F) {h' : ℕ} :
    (s.added a g F name type).fss h' =
      if h' = g then some { F with lastId := F.lastId + 1 } else s.fss h' := by
  show update s.fss g ((s.fss g).map _) h' = _
  by_cases hh : h' = g
  · subst hh
    rw [update_self, hF, if_pos rfl]
    rfl
  · rw [update_of_ne hh, if_neg hh]

theorem added_next (g : ℕ) : (s.added a g F name type).next = s.next + 1 := rfl

theorem added_field {α : Type} (f : Node → α) (hf : ∀ n l, f { n with children := l } = f n)
    (hI : Inv s) (h : Live s (.node a) d F) (g : ℕ) (name : Name) (type : NodeType) {k : Addr}
    (hk : k ≠ s.next) : ((s.added a g F name type).nodes k).map f = (s.nodes k).map f := by
  by_cases hka : k = a
  · subst hka
    have hget : s.nodes k = some d := h.get
    have hdir := (added_nodes hI h g name type).mpr (.inr (.inl ⟨rfl, rfl⟩))
    rw [hdir, hget, map_some, map_some, hf]
  · have hold : (s.added a g F name type).nodes k = s.nodes k :=
      (modifyNode_of_ne _ hka).trans (update_of_ne hk _ _)
    rw [hold]

theorem added_names (hI : Inv s) (h : Live s (.node a) d F) (g : ℕ) {l : List Addr}
    (hl : ∀ k ∈ l, k ≠ s.next) : (s.added a g F name type).names l = s.names l :=
  filterMap_congr fun k hk => added_field Node.name (fun _ _ => rfl) hI h g name type (hl k hk)

theorem added_names_new (hI : Inv s) (h : Live s (.node a) d F) (g : ℕ) {l : List Addr}
    (hl : ∀ k ∈ l, k ≠ s.next) :
    (s.added a g F name type).names (s.next :: l) = name :: s.names l := by
  have hnew := (added_nodes hI h g name type).mpr (.inl ⟨rfl, rfl⟩)
  rw [State.names, filterMap_cons_some (by rw [hnew]; rfl)]
  congr 1
  exact added_names hI h g hl

end Added

/-! ### The nodes of a memfs -/

/-- The node at `a` is `n`, a node of the file system `g`. -/
def NodeOf (s : State) (g : ℕ) (a : Addr) (n : Node) : Prop := s.nodes a = some n ∧ n.made = g

/-- The nodes of a file system. -/
def State.nodesOf (s : State) (g : ℕ) : List Addr :=
  (List.range s.next).filter fun a => (s.nodes a).map Node.made = some g

/-- A memfs that has just been made and mounted: it has its root and nothing
else. -/
structure Fresh (s : State) (g : ℕ) (r : Addr) : Prop where
  fs : ∃ F, s.fss g = some F ∧ F.freed = false ∧ F.kind = .mem ∧ F.root = some r ∧ F.lastId = 1
  root : ∃ n, NodeOf s g r n ∧ n.id = 0 ∧ n.children = []
  only : s.nodesOf g = [r]

/-- What holds of a memfs after calls that have made the nodes in `log`: nothing is
mounted in it, every node is a child of the one it points up to, and the names and
numbers are distinct. -/
structure Grown (s : State) (g : ℕ) (r : Addr) (F : Fs) (log : List Birth) : Prop where
  fs : s.fss g = some F ∧ F.freed = false ∧ F.kind = .mem ∧ F.root = some r
  root : ∃ n, NodeOf s g r n
  node : ∀ a n, NodeOf s g a n → n.freed = false ∧ n.type ≠ .mountpoint
  listed : ∀ a n, NodeOf s g a n → a ≠ r → ∃ u, NodeOf s g n.up u ∧ a ∈ u.children
  names : ∀ a n, NodeOf s g a n → (s.names n.children).Nodup
  count : F.lastId = (s.nodesOf g).length
  id : ∀ a n, NodeOf s g a n → n.id < F.lastId
  ids : ∀ a n a' n', NodeOf s g a n → NodeOf s g a' n' → n.id = n'.id → a = a'
  record : ∀ a n, NodeOf s g a n → ∀ name k, ⟨a, name, k⟩ ∈ log ↔
    k ∈ n.children ∧ ∃ c, s.nodes k = some c ∧ c.name = name
  old : ∀ b ∈ log, b.dir < s.next

section Grown

variable {s : State} {g : ℕ} {r : Addr} {F : Fs} {log : List Birth}

theorem mem_nodesOf (hI : Inv s) {a : Addr} : a ∈ s.nodesOf g ↔ ∃ n, NodeOf s g a n := by
  rw [State.nodesOf, mem_filter, mem_range, decide_eq_true_eq, map_eq_some_iff]
  constructor
  · rintro ⟨-, n, hn, hmade⟩
    exact ⟨n, hn, hmade⟩
  · rintro ⟨n, hn, hmade⟩
    exact ⟨(hI.next a n hn).1, n, hn, hmade⟩

theorem Fresh.grown (hI : Inv s) (h : Fresh s g r) : ∃ F, Grown s g r F [] := by
  obtain ⟨F, hF, hk, hkind, hr, hlast⟩ := h.fs
  obtain ⟨n, hn, hid, hchildren⟩ := h.root
  have honly : ∀ a m, NodeOf s g a m → a = r ∧ m = n := by
    intro a m hm
    have hmem := (mem_nodesOf hI).mpr ⟨m, hm⟩
    rw [h.only, mem_singleton] at hmem
    subst hmem
    exact ⟨rfl, some_inj.mp (hm.1.symm.trans hn.1)⟩
  obtain ⟨n', hn', hmade, htype, -⟩ := hI.live_root hF hk hr
  obtain ⟨-, rfl⟩ := honly r n' ⟨hn'.get, hmade⟩
  refine ⟨F, ⟨hF, hk, hkind, hr⟩, ⟨n', hn⟩, fun a m hm => ?_, fun a m hm hne => ?_,
    fun a m hm => ?_, ?_, fun a m hm => ?_, fun a m a' m' hm hm' _ => ?_,
    fun a m hm name k => ?_, by simp⟩
  · obtain ⟨rfl, rfl⟩ := honly a m hm
    exact ⟨hn'.kept, by simp [htype]⟩
  · exact absurd (honly a m hm).1 hne
  · obtain ⟨-, rfl⟩ := honly a m hm
    rw [hchildren]
    exact nodup_nil
  · rw [hlast, h.only]
    rfl
  · obtain ⟨-, rfl⟩ := honly a m hm
    rw [hid, hlast]
    exact Nat.zero_lt_one
  · rw [(honly a m hm).1, (honly a' m' hm').1]
  · obtain ⟨-, rfl⟩ := honly a m hm
    simp [hchildren]

theorem Grown.live (hI : Inv s) (hG : Grown s g r F log) {a : Addr} {n : Node}
    (hn : NodeOf s g a n) : Live s (.node a) n F ∧ n.shape = .memfsNode := by
  obtain ⟨hF, hk, hkind, -⟩ := hG.fs
  have hlive : Live s (.node a) n F := ⟨hn.1, (hG.node a n hn).1, by rw [hn.2]; exact hF, hk⟩
  exact ⟨hlive, kind_eq_mem_iff.mp ((hI.kind hlive).trans hkind)⟩

theorem Inv.child_ne_next (hI : Inv s) {a : Addr} {n : Node} {F : Fs} (h : Live s (.node a) n F)
    (hs : n.shape = .memfsNode) : ∀ k ∈ n.children, k ≠ s.next := by
  intro k hk
  obtain ⟨c, hc⟩ := hI.child_node h hs k hk
  exact hI.ne_next hc

section Step

variable {a : Addr} {d : Node} {F' : Fs} {name : Name} {type : NodeType}

section

variable (hI : Inv s) (h : Live s (.node a) d F') (name : Name) (type : NodeType)
include hI h

theorem nodeOf_added {b : Addr} {m : Node} : NodeOf (s.added a d.made F' name type) g b m ↔
      (d.made = g ∧ b = s.next ∧ m = memfsNode d.made F' name type a) ∨
      (d.made = g ∧ b = a ∧ m = { d with children := s.next :: d.children }) ∨
      (b ≠ s.next ∧ b ≠ a ∧ NodeOf s g b m) := by
  rw [NodeOf, added_nodes hI h]
  constructor
  · rintro ⟨⟨rfl, rfl⟩ | ⟨rfl, rfl⟩ | ⟨hb, hba, hm⟩, hmade⟩
    · exact .inl ⟨hmade, rfl, rfl⟩
    · exact .inr (.inl ⟨hmade, rfl, rfl⟩)
    · exact .inr (.inr ⟨hb, hba, hm, hmade⟩)
  · rintro (⟨hmade, rfl, rfl⟩ | ⟨hmade, rfl, rfl⟩ | ⟨hb, hba, hm, hmade⟩)
    · exact ⟨.inl ⟨rfl, rfl⟩, hmade⟩
    · exact ⟨.inr (.inl ⟨rfl, rfl⟩), hmade⟩
    · exact ⟨.inr (.inr ⟨hb, hba, hm⟩), hmade⟩

theorem nodeOf_kept {b : Addr} {m : Node} (hm : NodeOf s g b m) :
    ∃ m', NodeOf (s.added a d.made F' name type) g b m' ∧ m.children ⊆ m'.children := by
  by_cases hba : b = a
  · subst hba
    obtain rfl := mem_unique h.get hm.1
    exact ⟨_, (nodeOf_added hI h name type).mpr (.inr (.inl ⟨hm.2, rfl, rfl⟩)),
      subset_cons_self _ _⟩
  · exact ⟨m, (nodeOf_added hI h name type).mpr (.inr (.inr ⟨hI.ne_next hm.1, hba, hm⟩)),
      List.Subset.refl _⟩

theorem nodesOf_added :
    (s.added a d.made F' name type).nodesOf g =
      s.nodesOf g ++ if d.made = g then [s.next] else [] := by
  have hnew := (added_nodes hI h d.made name type).mpr (.inl ⟨rfl, rfl⟩)
  rw [State.nodesOf, added_next, range_succ, filter_append, State.nodesOf]
  congr 1
  · refine filter_congr fun b hb => ?_
    have hne : b ≠ s.next := Nat.ne_of_lt (mem_range.mp hb)
    rw [added_field Node.made (fun _ _ => rfl) hI h d.made name type hne]
  · rw [filter_singleton, hnew, map_some]
    by_cases hg : d.made = g
    · simp [memfsNode, hg]
    · simp [memfsNode, hg]

end

theorem Grown.fs_added (hG : Grown s g r F log) (h : Live s (.node a) d F') :
    ∃ F1, (s.added a d.made F' name type).fss g = some F1 ∧ F1.freed = false ∧ F1.kind = .mem ∧
      F1.root = some r ∧ F1.lastId = F.lastId + (if d.made = g then 1 else 0) := by
  obtain ⟨hF, hk, hkind, hr⟩ := hG.fs
  rw [added_fss h.fs]
  by_cases hg : g = d.made
  · subst hg
    obtain rfl := mem_unique h.fs hF
    rw [if_pos rfl, if_pos rfl]
    exact ⟨_, rfl, hk, hkind, hr, rfl⟩
  · rw [if_neg hg, if_neg (Ne.symm hg)]
    exact ⟨F, hF, hk, hkind, hr, rfl⟩

theorem Grown.lastId_eq (hG : Grown s g r F log) (h : Live s (.node a) d F') (hg : d.made = g) :
    F'.lastId = F.lastId := by
  subst hg
  obtain rfl := mem_unique h.fs hG.fs.1
  rfl

section

variable (hI : Inv s) (hG : Grown s g r F log) (h : Live s (.node a) d F')
include hI hG h

theorem Grown.ids_added {b b' : Addr} {m m' : Node}
    (hm : NodeOf (s.added a d.made F' name type) g b m)
    (hm' : NodeOf (s.added a d.made F' name type) g b' m') (hid : m.id = m'.id) : b = b' := by
  have hnew : ∀ b m, d.made = g → NodeOf s g b m → m.id ≠ F'.lastId := by
    intro b m hg hm
    rw [hG.lastId_eq h hg]
    exact Nat.ne_of_lt (hG.id b m hm)
  -- apart from the new one, a node has the number of a node that was there
  have hcases : ∀ b m, NodeOf (s.added a d.made F' name type) g b m →
      (b = s.next ∧ d.made = g ∧ m.id = F'.lastId) ∨ ∃ n, NodeOf s g b n ∧ n.id = m.id := by
    intro b m hm
    rcases (nodeOf_added hI h name type).mp hm with ⟨hg, rfl, rfl⟩ | ⟨hg, rfl, rfl⟩ | ⟨-, -, hold⟩
    · exact .inl ⟨rfl, hg, rfl⟩
    · exact .inr ⟨d, ⟨h.get, hg⟩, rfl⟩
    · exact .inr ⟨m, hold, rfl⟩
  rcases hcases b m hm with ⟨rfl, hg, hlast⟩ | ⟨n, hn, hnid⟩
  · rcases hcases b' m' hm' with ⟨rfl, -⟩ | ⟨n', hn', hnid'⟩
    · rfl
    · exact absurd (hnid'.trans (hid.symm.trans hlast)) (hnew b' n' hg hn')
  · rcases hcases b' m' hm' with ⟨rfl, hg, hlast⟩ | ⟨n', hn', hnid'⟩
    · exact absurd (hnid.trans (hid.trans hlast)) (hnew b n hg hn)
    · exact hG.ids b n b' n' hn hn' (hnid.trans (hid.trans hnid'.symm))

theorem Grown.record_added (hs : d.shape = .memfsNode) {b : Addr} {m : Node}
    (hm : NodeOf (s.added a d.made F' name type) g b m) (nm : Name) (k : Addr) :
    (⟨b, nm, k⟩ : Birth) ∈ (⟨a, name, s.next⟩ : Birth) :: log ↔ k ∈ m.children ∧
      ∃ c, (s.added a d.made F' name type).nodes k = some c ∧ c.name = nm := by
  have hsame : ∀ k ≠ s.next, ((∃ c, (s.added a d.made F' name type).nodes k = some c ∧
      c.name = nm) ↔ ∃ c, s.nodes k = some c ∧ c.name = nm) := by
    intro k hk
    rw [← map_eq_some_iff, ← map_eq_some_iff,
      added_field Node.name (fun _ _ => rfl) hI h d.made name type hk]
  rw [mem_cons, Birth.mk.injEq]
  rcases (nodeOf_added hI h name type).mp hm with ⟨-, rfl, rfl⟩ | ⟨hg, rfl, rfl⟩ | ⟨-, hba, hold⟩
  · -- nothing has been made in the new node
    constructor
    · rintro (⟨hba, -⟩ | hlog)
      · exact absurd hba.symm (hI.ne_next h.get)
      · exact absurd (hG.old _ hlog) (Nat.lt_irrefl _)
    · rintro ⟨hk, -⟩
      cases hk
  · have hdne := hI.child_ne_next h hs
    show _ ↔ k ∈ s.next :: d.children ∧ _
    rw [mem_cons, hG.record b d ⟨h.get, hg⟩ nm k]
    by_cases hk : k = s.next
    · subst hk
      have hc := (added_nodes hI h d.made name type).mpr (.inl ⟨rfl, rfl⟩)
      rw [hc]
      constructor
      · rintro (⟨-, rfl, -⟩ | ⟨hmem, -⟩)
        · exact ⟨.inl rfl, _, rfl, rfl⟩
        · exact absurd rfl (hdne _ hmem)
      · rintro ⟨-, c, hc, rfl⟩
        cases hc
        exact .inl ⟨rfl, rfl, rfl⟩
    · rw [hsame k hk]
      simp [hk]
  · obtain ⟨hlive, hshape⟩ := hG.live hI hold
    have hne := hI.child_ne_next hlive hshape
    rw [hG.record b m hold nm k]
    constructor
    · rintro (⟨hba', -⟩ | ⟨hk, hc⟩)
      · exact absurd hba' hba
      · exact ⟨hk, (hsame k (hne k hk)).mpr hc⟩
    · rintro ⟨hk, hc⟩
      exact .inr ⟨hk, (hsame k (hne k hk)).mp hc⟩

theorem Grown.added (hs : d.shape = .memfsNode) (hname : name ∉ s.names d.children)
    (ht : type ≠ .mountpoint) :
    ∃ F1, Grown (s.added a d.made F' name type) g r F1 (⟨a, name, s.next⟩ :: log) := by
  obtain ⟨F1, hF1, hk1, hkind1, hr1, hlast⟩ : ∃ F1, (s.added a d.made F' name type).fss g =
    some F1 ∧ F1.freed = false ∧ F1.kind = .mem ∧ F1.root = some r ∧
      F1.lastId = F.lastId + (if d.made = g then 1 else 0) := hG.fs_added h
  have hadd := @nodeOf_added s g a d F' hI h name type
  have hdir : d.made = g → NodeOf s g a d := fun hg => ⟨h.get, hg⟩
  refine ⟨F1, ⟨hF1, hk1, hkind1, hr1⟩, ?_, fun b m hm => ?_, fun b m hm hne => ?_,
    fun b m hm => ?_, ?_, fun b m hm => ?_,
    fun b m b' m' hm hm' hid => hG.ids_added hI h hm hm' hid,
    fun b m hm nm k => hG.record_added hI h hs hm nm k, ?_⟩
  · obtain ⟨n, hn⟩ := hG.root
    obtain ⟨n', hn', -⟩ := nodeOf_kept hI h name type hn
    exact ⟨n', hn'⟩
  · rcases hadd.mp hm with ⟨-, rfl, rfl⟩ | ⟨hg, rfl, rfl⟩ | ⟨-, -, hold⟩
    · exact ⟨rfl, ht⟩
    · exact hG.node b d (hdir hg)
    · exact hG.node b m hold
  · have hkept : ∀ n, NodeOf s g b n → ∃ u, NodeOf (s.added a d.made F' name type) g n.up u ∧
        b ∈ u.children := by
      intro n hn
      obtain ⟨u, hu, hmem⟩ := hG.listed b n hn hne
      obtain ⟨u', hu', hsub⟩ := nodeOf_kept hI h name type hu
      exact ⟨u', hu', hsub hmem⟩
    rcases hadd.mp hm with ⟨hg, rfl, rfl⟩ | ⟨hg, rfl, rfl⟩ | ⟨-, -, hold⟩
    · exact ⟨_, hadd.mpr (.inr (.inl ⟨hg, rfl, rfl⟩)), mem_cons_self⟩
    · exact hkept d (hdir hg)
    · exact hkept m hold
  · rcases hadd.mp hm with ⟨-, rfl, rfl⟩ | ⟨hg, rfl, rfl⟩ | ⟨-, -, hold⟩
    · exact nodup_nil
    · show ((s.added b d.made F' name type).names (s.next :: d.children)).Nodup
      rw [added_names_new hI h _ (hI.child_ne_next h hs)]
      exact nodup_cons.mpr ⟨hname, hG.names b d (hdir hg)⟩
    · obtain ⟨hlive, hshape⟩ := hG.live hI hold
      rw [added_names hI h _ (hI.child_ne_next hlive hshape)]
      exact hG.names b m hold
  · rw [hlast, nodesOf_added hI h, hG.count, length_append]
    by_cases hg : d.made = g
    · rw [if_pos hg, if_pos hg]
      rfl
    · rw [if_neg hg, if_neg hg]
      rfl
  · rw [hlast]
    rcases hadd.mp hm with ⟨hg, rfl, rfl⟩ | ⟨hg, rfl, rfl⟩ | ⟨-, -, hold⟩
    · rw [if_pos hg]
      show F'.lastId < F.lastId + 1
      rw [hG.lastId_eq h hg]
      exact Nat.lt_succ_self _
    · exact Nat.lt_of_lt_of_le (hG.id b d (hdir hg)) (Nat.le_add_right _ _)
    · exact Nat.lt_of_lt_of_le (hG.id b m hold) (Nat.le_add_right _ _)
  · intro b hb
    rcases mem_cons.mp hb with rfl | hb
    · exact Nat.lt_succ_of_lt (hI.next a d h.get).1
    · exact Nat.lt_succ_of_lt (hG.old b hb)

end

end Step

theorem grown_run {s0 : State} {cs : List Make} (hI : Inv s0) (hdots : DotDots s0)
    (h0 : Fresh s0 g r) (hrun : Run MakeStep (s0, []) cs (s, log)) :
    Inv s ∧ DotDots s ∧ ∃ F, Grown s g r F log := by
  refine hrun.invariant (I := fun x => Inv x.1 ∧ DotDots x.1 ∧ ∃ F, Grown x.1 g r F x.2)
    ⟨hI, hdots, h0.grown hI⟩ ?_
  rintro ⟨s, log⟩ c ⟨s', log'⟩ ⟨hI, hdots, F, hG⟩ ⟨a, ret, hon, hres, hlog⟩
  obtain ⟨d, F', h, hkind, hdir⟩ := hon.dir
  rcases make_spec hI hdots hon.target h hkind hdir with heq | ⟨hname, hfree, type, htype, heq⟩
  · obtain ⟨rfl, rfl⟩ : ret = eexist ∧ s' = s := by
      rw [heq, Except.ok.injEq, Prod.mk.injEq] at hres
      exact ⟨hres.1.symm, hres.2.symm⟩
    rw [hlog, if_neg (by decide)]
    exact ⟨hI, hdots, F, hG⟩
  · obtain ⟨rfl, rfl⟩ : ret = 0 ∧ s' = s.added a d.made F' c.name type := by
      rw [heq, Except.ok.injEq, Prod.mk.injEq] at hres
      exact ⟨hres.1.symm, hres.2.symm⟩
    have hs : d.shape = .memfsNode := kind_eq_mem_iff.mp ((hI.kind h).trans hkind)
    have ht : type ≠ .mountpoint := by rcases htype with rfl | rfl <;> decide
    rw [hlog, if_pos rfl]
    refine ⟨hI.addChild h hs hname ht, ?_, hG.added hI h hs hfree ht⟩
    intro g' G' hG' hext
    rw [added_fss h.fs] at hG'
    by_cases hg : g' = d.made
    · rw [if_pos hg] at hG'
      cases hG'
      exact absurd (hkind.symm.trans hext) (by decide)
    · rw [if_neg hg] at hG'
      exact hdots g' G' hG' hext

end Grown

/-! ### The tree -/

/-- The node at `k` is on the list of children of the node at `a`. -/
def Child (s : State) (g : ℕ) (a k : Addr) : Prop := ∃ n, NodeOf s g a n ∧ k ∈ n.children

/-- The nodes of the file system `g` form a tree with the root `r`. -/
structure Tree (s : State) (g : ℕ) (r : Addr) : Prop where
  root : ∃ n, NodeOf s g r n
  unlisted : ∀ a, ¬ Child s g a r
  inside : ∀ a k, Child s g a k → ∃ c, NodeOf s g k c ∧ c.up = a
  parent : ∀ k c, NodeOf s g k c → k ≠ r → ∃! a, Child s g a k
  once : ∀ a n, NodeOf s g a n → n.children.Nodup
  reach : ∀ a n, NodeOf s g a n → Relation.ReflTransGen (Child s g) r a
  acyclic : ∀ a, ¬ Relation.TransGen (Child s g) a a

/-- What the calls made so far, of which `log` is the record, have made of the
memfs `g`. -/
structure MemfsContract (s : State) (g : ℕ) (r : Addr) (log : List Birth) : Prop where
  root : ∃ F, s.fss g = some F ∧ F.root = some r
  tree : Tree s g r
  names : ∀ a n, NodeOf s g a n →
    (s.names n.children).Nodup ∧ ∀ name ∈ s.names n.children, name ≠ dot ∧ name ≠ dotDot
  /-- `id` is a 32-bit counter -/
  ids : (s.nodesOf g).length < 2 ^ 32 → ∀ a n a' n', NodeOf s g a n → NodeOf s g a' n' →
    n.id % 2 ^ 32 = n'.id % 2 ^ 32 → a = a'
  lookup : ∀ a n, NodeOf s g a n → n.type = .dir → ∀ name, name ≠ dot → name ≠ dotDot →
    (∃ res, (vfsLookup s (.node a) name).result = .ok res) ∧
      ∀ q, (vfsLookup s (.node a) name).result = .ok (.ok q) ↔
        ∃ k, q = .node k ∧ ⟨a, name, k⟩ ∈ log
  readdir : ∀ a n, NodeOf s g a n → n.type = .dir → ∃ names : List Name, names.Nodup ∧
    (∀ name, name ∈ names ↔ ∃ k, ⟨a, name, k⟩ ∈ log) ∧
    ∀ idx null, (vfsReaddir s (.node a) idx null).result = .ok (match idx with
      | 0 => .ok (.name dot)
      | 1 => .ok (.name dotDot)
      | i + 2 => match names[i]? with
        | some name => .ok (.name name)
        | none => .error enoent)
  failed : ∀ c a, OnDir s c a → ∃ ret s', (s.make c).result = .ok (ret, s') ∧ (ret ≠ 0 → s' = s)

section Tree

variable {s : State} {g : ℕ} {r : Addr} {F : Fs} {log : List Birth}

theorem Grown.child (hI : Inv s) (hG : Grown s g r F log) {a k : Addr} (h : Child s g a k) :
    a < k ∧ ∃ c, NodeOf s g k c ∧ c.up = a ∧ c.name ≠ dot ∧ c.name ≠ dotDot := by
  obtain ⟨n, hn, hk⟩ := h
  obtain ⟨hlive, hs⟩ := hG.live hI hn
  obtain ⟨hlt, c, hc, hup, hdots⟩ := (hI.node a n F hlive).child hs k hk
  exact ⟨hlt, c, ⟨hc.1, hc.2.2.1.trans hn.2⟩, hup, hdots⟩

theorem nodup_of_names {l : List Addr} (h : ∀ k ∈ l, ∃ c, s.nodes k = some c)
    (hnames : (s.names l).Nodup) : l.Nodup := by
  induction l with
  | nil => exact nodup_nil
  | cons k l ih =>
    obtain ⟨c, hc⟩ := h k mem_cons_self
    rw [names_cons hc, nodup_cons] at hnames
    refine nodup_cons.mpr ⟨fun hk => hnames.1 ?_, ?_⟩
    · exact mem_names.mpr ⟨k, hk, c, hc, rfl⟩
    · exact ih (fun k' hk' => h k' (mem_cons_of_mem _ hk')) hnames.2

theorem eq_of_name_eq {l : List Addr} (h : ∀ k ∈ l, ∃ c, s.nodes k = some c)
    (hnames : (s.names l).Nodup) {k k' : Addr} {c c' : Node} (hk : k ∈ l) (hk' : k' ∈ l)
    (hc : s.nodes k = some c) (hc' : s.nodes k' = some c') (hname : c.name = c'.name) :
    k = k' := by
  obtain ⟨i, hi⟩ := mem_iff_getElem?.mp hk
  obtain ⟨j, hj⟩ := mem_iff_getElem?.mp hk'
  have hni : (s.names l)[i]? = some c.name := by
    rw [getElem?_names h, hi, bind_some, hc, map_some]
  have hnj : (s.names l)[j]? = some c'.name := by
    rw [getElem?_names h, hj, Option.bind_some, hc', Option.map_some]
  have hlt : i < (s.names l).length := (List.getElem?_eq_some_iff.mp hni).1
  rw [hname] at hni
  obtain rfl : i = j := (List.getElem?_inj hlt hnames).mp (hni.trans hnj.symm)
  exact some_inj.mp (hi.symm.trans hj)

theorem Grown.lt_of_transGen (hI : Inv s) (hG : Grown s g r F log) {a k : Addr}
    (h : Relation.TransGen (Child s g) a k) : a < k := by
  induction h with
  | single h => exact (hG.child hI h).1
  | tail _ h ih => exact Nat.lt_trans ih (hG.child hI h).1

theorem Grown.tree (hI : Inv s) (hG : Grown s g r F log) : Tree s g r where
  root := hG.root
  unlisted a h := by
    have hlt := (hG.child hI h).1
    obtain ⟨n, hn, -⟩ := h
    obtain ⟨hlive, hs⟩ := hG.live hI hn
    obtain ⟨r', hr', hle⟩ := (hI.node a n F hlive).root (by simp [hs, Shape.kind])
    obtain rfl := mem_unique hr' hG.fs.2.2.2
    exact absurd hlt (Nat.not_lt.mpr hle)
  inside a k h := by
    obtain ⟨-, c, hc, hup, -⟩ := hG.child hI h
    exact ⟨c, hc, hup⟩
  parent k c hc hne := by
    obtain ⟨u, hu, hmem⟩ := hG.listed k c hc hne
    refine ⟨c.up, ⟨u, hu, hmem⟩, fun a ha => ?_⟩
    obtain ⟨-, c', hc', hup, -⟩ := hG.child hI ha
    obtain rfl := mem_unique hc.1 hc'.1
    exact hup.symm
  once a n hn := by
    obtain ⟨hlive, hs⟩ := hG.live hI hn
    exact nodup_of_names (hI.child_node hlive hs) (hG.names a n hn)
  reach a n hn := by
    induction a using Nat.strong_induction_on generalizing n with
    | _ a ih =>
      by_cases hne : a = r
      · rw [hne]
      · obtain ⟨u, hu, hmem⟩ := hG.listed a n hn hne
        have hchild : Child s g n.up a := ⟨u, hu, hmem⟩
        exact (ih n.up (hG.child hI hchild).1 u hu).tail hchild
  acyclic a h := Nat.lt_irrefl a (hG.lt_of_transGen hI h)

theorem Grown.mem_names_iff (hG : Grown s g r F log) {a : Addr} {n : Node} (hn : NodeOf s g a n)
    (name : Name) : name ∈ s.names n.children ↔ ∃ k, ⟨a, name, k⟩ ∈ log := by
  rw [mem_names]
  refine exists_congr fun k => ?_
  rw [hG.record a n hn]

theorem Grown.lookup_iff (hI : Inv s) (hG : Grown s g r F log) {a : Addr} {n : Node}
    (hn : NodeOf s g a n) (hdir : n.type = .dir) {name : Name}
    (hname : name ≠ dot ∧ name ≠ dotDot) :
    (∃ res, (vfsLookup s (.node a) name).result = .ok res) ∧
      ∀ q, (vfsLookup s (.node a) name).result = .ok (.ok q) ↔
        ∃ k, q = .node k ∧ ⟨a, name, k⟩ ∈ log := by
  obtain ⟨hlive, hs⟩ := hG.live hI hn
  cases hfind : n.children.find? (s.named name) with
  | none =>
    have hnone := find_named_eq_none.mp hfind
    rw [lookup_mem_none hI hlive hdir hs hname hnone]
    refine ⟨⟨_, rfl⟩, fun q => ⟨?_, ?_⟩⟩
    · intro h
      cases h
    · rintro ⟨k, -, hlog⟩
      exact absurd ((hG.mem_names_iff hn name).mpr ⟨k, hlog⟩) hnone
  | some k =>
    have hk := mem_of_find?_eq_some hfind
    obtain ⟨c, hc, hcname⟩ := named_iff.mp (find?_some hfind)
    have hlog : ⟨a, name, k⟩ ∈ log := (hG.record a n hn name k).mpr ⟨hk, c, hc, hcname⟩
    obtain ⟨-, c', hc', -⟩ := hG.child hI ⟨n, hn, hk⟩
    obtain rfl := mem_unique hc hc'.1
    -- nothing is mounted on the child, so it is what the lookup returns
    have hresult : (vfsLookup s (.node a) name).result = .ok (.ok (.node k)) := by
      rcases lookup_mem_child hI hlive hdir hs hname hfind hc with ⟨-, h⟩ | ⟨hmp, -⟩
      · exact h
      · exact absurd hmp (hG.node k c hc').2
    rw [hresult]
    refine ⟨⟨_, rfl⟩, fun q => ⟨fun h => ?_, ?_⟩⟩
    · cases h
      exact ⟨k, rfl, hlog⟩
    · -- two nodes of one name would be one name twice on the list
      rintro ⟨k', rfl, hlog'⟩
      obtain ⟨hk', c', hc', hcname'⟩ := (hG.record a n hn name k').mp hlog'
      rw [eq_of_name_eq (hI.child_node hlive hs) (hG.names a n hn) hk hk' hc hc'
        (hcname.trans hcname'.symm)]

/-- **memfs.**  After any sequence of calls of `vfs_create` and `vfs_mkdir` on directories, the
nodes of a memfs form a tree; names and numbers are distinct; what has been made, and nothing
else, is found and listed; and a call that fails changes nothing. -/
theorem memfs_tree {s0 : State} {cs : List Make} (hI : Inv s0) (hdots : DotDots s0)
    (h0 : Fresh s0 g r) (hrun : Run MakeStep (s0, []) cs (s, log)) :
    MemfsContract s g r log := by
  obtain ⟨hI, hdots, F, hG⟩ := grown_run hI hdots h0 hrun
  refine ⟨⟨F, hG.fs.1, hG.fs.2.2.2⟩, hG.tree hI, fun a n hn => ⟨hG.names a n hn, ?_⟩, ?_,
    fun a n hn hdir name hdot hdd => hG.lookup_iff hI hn hdir ⟨hdot, hdd⟩,
    fun a n hn hdir => ?_, fun c a hon => ?_⟩
  · intro name hname
    obtain ⟨k, hk, c, hc, rfl⟩ := mem_names.mp hname
    obtain ⟨-, c', hc', -, hne⟩ := hG.child hI ⟨n, hn, hk⟩
    obtain rfl := mem_unique hc hc'.1
    exact hne
  · -- fewer than 2 ^ 32 nodes have been counted, so no number has wrapped around
    intro hfew a n a' n' hn hn' hid
    have hlt := hG.id a n hn
    have hlt' := hG.id a' n' hn'
    rw [hG.count] at hlt hlt'
    rw [Nat.mod_eq_of_lt (Nat.lt_trans hlt hfew), Nat.mod_eq_of_lt (Nat.lt_trans hlt' hfew)] at hid
    exact hG.ids a n a' n' hn hn' hid
  · obtain ⟨hlive, hs⟩ := hG.live hI hn
    exact ⟨s.names n.children, hG.names a n hn, hG.mem_names_iff hn,
      fun idx null => readdir_mem hI hlive (by simp [hdir]) hs idx null⟩
  · obtain ⟨d, F', h, hkind, hdir⟩ := hon.dir
    rcases make_spec hI hdots hon.target h hkind hdir with heq | ⟨-, -, type, -, heq⟩
    · exact ⟨eexist, s, heq, fun _ => rfl⟩
    · exact ⟨0, _, heq, fun hne => absurd rfl hne⟩

end Tree

/-- The state after operations that all return. -/
def reached (es : List Event) : State := (es.foldlM State.after {}).getD {}

theorem run_reached {es : List Event} (h : (es.foldlM State.after {}).isSome = true) :
    Run Step {} es (reached es) := by
  obtain ⟨s, hs⟩ := isSome_iff_exists.mp h
  refine run_iff_foldlM.mpr ?_
  rw [reached, hs]
  rfl

/-- A memfs on `/`, and nothing else. -/
def rootMemfs : State := reached [.memfsNew, .mount 0 0 [slash]]

theorem rootMemfs_inv : Inv rootMemfs :=
  inv_of_run (run_reached (by decide +kernel)) (guarded_of_take
    (by decide +kernel))

theorem rootMemfs_fresh : Fresh rootMemfs 0 0 where
  fs := ⟨_, rfl, rfl, rfl, rfl, rfl⟩
  root := ⟨_, ⟨rfl, rfl⟩, rfl, rfl⟩
  only := by decide +kernel

theorem rootMemfs_dotDots : DotDots rootMemfs := by
  intro g G hG hext
  rcases g with _ | g
  · obtain rfl := some_inj.mp hG
    cases hext
  · cases hG

/-- The state after a call. -/
def State.afterMake (s : State) (c : Make) : State := ((s.make c).value.map Prod.snd).getD s

/-- A directory `d`, a file `f` in it, and a second call for the name `d`, which
fails: `d` and `f` are found. -/
theorem memfs_tree_two_levels :
    ∃ s, Run MakeStep (rootMemfs, [])
        [⟨true, 0, some (.node 0), [100]⟩, ⟨false, 0, some (.node 1), [102]⟩,
          ⟨true, 0, some (.node 0), [100]⟩] (s, [⟨1, [102], 2⟩, ⟨0, [100], 1⟩]) ∧
      MemfsContract s 0 0 [⟨1, [102], 2⟩, ⟨0, [100], 1⟩] := by
  set s1 := rootMemfs.afterMake ⟨true, 0, some (.node 0), [100]⟩ with hs1
  set s2 := s1.afterMake ⟨false, 0, some (.node 1), [102]⟩ with hs2
  have h1 : MakeStep (rootMemfs, []) ⟨true, 0, some (.node 0), [100]⟩ (s1, [⟨0, [100], 1⟩]) :=
    ⟨0, 0, ⟨rfl, _, _, ⟨rfl, rfl, rfl, rfl⟩, rfl, rfl⟩, rfl, rfl⟩
  have h2 : MakeStep (s1, [⟨0, [100], 1⟩]) ⟨false, 0, some (.node 1), [102]⟩
      (s2, [⟨1, [102], 2⟩, ⟨0, [100], 1⟩]) :=
    ⟨1, 0, ⟨rfl, _, _, ⟨rfl, rfl, rfl, rfl⟩, rfl, rfl⟩, rfl, rfl⟩
  have h3 : MakeStep (s2, [⟨1, [102], 2⟩, ⟨0, [100], 1⟩]) ⟨true, 0, some (.node 0), [100]⟩
      (s2, [⟨1, [102], 2⟩, ⟨0, [100], 1⟩]) :=
    ⟨0, eexist, ⟨rfl, _, _, ⟨rfl, rfl, rfl, rfl⟩, rfl, rfl⟩, rfl, rfl⟩
  have hrun := run_cons_iff.mpr ⟨_, h1, run_cons_iff.mpr ⟨_, h2, run_cons_iff.mpr ⟨_, h3, .nil⟩⟩⟩
  exact ⟨s2, hrun, memfs_tree rootMemfs_inv rootMemfs_dotDots rootMemfs_fresh hrun⟩

end Vfs
