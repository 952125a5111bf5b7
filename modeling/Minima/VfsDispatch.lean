/-
Calls through the operations tables of the VFS.

Every operation of `vfs.c` ends in calls `fs->ops->f(node)`, and `f` relies on
`node` being one of its own.

* `step_meets` — an operation makes sound calls only and keeps the invariant if
  it begins at a node on which nothing is mounted, mounts a file system that was
  not mounted before and not on a root, opens no root of devfs, and unmounts a
  memfs only when nothing is mounted in it;
* `dispatch_sound` — so in a run of such operations every call is sound;
* `dispatch_unsound` — a mount on the working directory, a second mount on `/`
  and opening the root of devfs each lead to a call that is not.
-/
import Minima.VfsChanges

namespace Vfs

open Function List Option
open Ext2 (Entry lastPrefix live dot dotDot enoent)
open Traced

/-! ### Freeing a memfs -/

section Free

variable {s : State} {g : ℕ} {F : Fs}

theorem dispatch_own {op : Op} {n : Node} {p : Ptr} (hI : Inv s) (h : Live s p n F)
    (hn : n.type ≠ .mountpoint) (hop : F.kind = .dev → op = .lookup ∨ op = .readdir) :
    Meets Call.Sound (dispatch s op n.fs n) (· = F) := by
  rw [hI.plain h hn]
  exact (dispatch_total h.fs rfl h.kept h.fsKept (casts_of_kind (hI.kind h) hop)).toMeets

theorem vfsLookup_own (hI : Inv s) {a : Addr} {d : Node} (h : Live s (.node a) d F)
    (hs : d.shape = .memfsNode)
    (hin : ∀ b n F, Live s (.node b) n F → n.made = d.made → n.type ≠ .mountpoint)
    {name : Name} (hname : name ≠ dot ∧ name ≠ dotDot) :
    Meets Call.Sound (vfsLookup s (.node a) name) fun r =>
      ∀ q, r = .ok q → ∃ k c, q = .node k ∧ MemAt s d.made k c := by
  refine (vfsLookup_through hI h (hin a d F h rfl) name).toMeets.mono fun r hr q hq => ?_
  obtain ⟨q0, m, M, hfound, hm, hthrough⟩ := hr q hq
  cases hfound with
  | self h' => exact absurd h' hname.1
  | up _ h' => exact absurd h' hname.2
  | parent hs' => exact absurd hs hs'
  | device hdev =>
    rw [← hI.kind h, hs] at hdev
    cases hdev
  | entry hs' =>
    rw [hs] at hs'
    cases hs'
  | child _ _ _ hk =>
    obtain ⟨-, c, hc, -⟩ := (hI.node a d F h).child hs _ (mem_of_find?_eq_some hk)
    obtain rfl := mem_unique hc.1 hm.get
    have hplain := hin _ c M hm hc.2.2.1
    cases hthrough with
    | plain _ => exact ⟨_, c, rfl, hc⟩
    | above hmp => exact absurd hmp hplain
    | below hmp => exact absurd hmp hplain

/-- **`memfs_recurse_free`** makes sound calls and frees nodes of the file system
only, if nothing is mounted in it. -/
theorem memfsRecurseFree_meets (hI : Inv s) (hF : s.fss g = some F) (hk : F.freed = false)
    (hin : ∀ b n F, Live s (.node b) n F → n.made = g → n.type ≠ .mountpoint) (depth : ℕ) :
    ∀ {a : Addr} {d : Node}, MemAt s g a d →
      Meets Call.Sound (memfsRecurseFree depth s (.node a)) fun l =>
        ∀ k ∈ l, ∀ n, s.nodes k = some n → n.made = g := by
  induction depth with
  | zero => exact fun _ => meets_stop
  | succ depth ih =>
    intro a d hd
    have hlive := hd.live hF hk
    have hplain := hin a d F hlive hd.2.2.1
    have hfs : s.fss d.fs = some F := by rw [hI.plain hlive hplain]; exact hlive.fs
    have hkind : F.kind = .mem := by rw [← hI.kind hlive, hd.2.2.2, Shape.kind]
    rw [memfsRecurseFree, State.deref, hlive.get, ofOption_some, pure_bind_eq, readdirNames,
      State.vfs, hfs, ofOption_some, pure_bind_eq, hkind]
    rw [if_neg (not_not.mpr hd.2.2.2), pure_bind_eq]
    -- every name read is the name of a child, so neither `.` nor `..`
    have hnames : ∀ name ∈ d.children.filterMap (fun k => (s.nodes k).map Node.name),
        name ≠ dot ∧ name ≠ dotDot := by
      intro name hname
      obtain ⟨k, hkc, hkn⟩ := mem_filterMap.mp hname
      obtain ⟨-, c, hc, -, hdots⟩ := (hI.node a d F hlive).child hd.2.2.2 k hkc
      rw [hc.1] at hkn
      cases hkn
      exact hdots
    generalize d.children.filterMap (fun k => (s.nodes k).map Node.name) = names at hnames
    have hown : ∀ op, Meets Call.Sound (dispatch s op d.fs d) (· = F) :=
      fun op => dispatch_own hI hlive hplain fun hdev => by rw [hkind] at hdev; cases hdev
    induction names with
    | nil => exact (hown .readdir).bind fun _ _ => meets_pure fun k hk => by cases hk
    | cons name names ihn =>
      have hrest := ihn fun name' h' => hnames name' (mem_cons_of_mem _ h')
      refine (hown .readdir).bind fun _ _ => ?_
      refine (vfsLookup_own hI hlive hd.2.2.2 (by rw [hd.2.2.1]; exact hin)
        (hnames name mem_cons_self)).bind fun found hfound => ?_
      cases found with
      | error e => exact meets_stop
      | ok p =>
        obtain ⟨k, c, rfl, hc⟩ := hfound p rfl
        rw [hd.2.2.1] at hc
        dsimp only
        rw [State.deref, State.get, hc.1, ofOption_some, pure_bind_eq,
          if_neg (not_not.mpr hc.2.2.2)]
        have hcont : ∀ below : List Addr, (∀ k ∈ below, ∀ n, s.nodes k = some n → n.made = g) →
            Meets Call.Sound (freeEntries (memfsRecurseFree depth s) s (.node a) d names >>=
              fun rest => pure (below ++ k :: rest))
              fun l => ∀ k ∈ l, ∀ n, s.nodes k = some n → n.made = g := by
          intro below hb
          refine hrest.bind fun rest hr => meets_pure fun j hj n hn => ?_
          rcases mem_append.mp hj with hj | hj
          · exact hb j hj n hn
          · rcases mem_cons.mp hj with rfl | hj
            · obtain rfl := mem_unique hc.1 hn
              exact hc.2.2.1
            · exact hr j hj n hn
        by_cases hdir : c.type = .dir
        · rw [if_pos hdir]
          exact (ih hc).bind hcont
        · rw [if_neg hdir]
          exact hcont [] fun k hk => by cases hk

end Free

/-! ### The operations of a run -/

/-- Where an operation begins, if it gets that far. -/
def BeginsUsable (s : State) : Except Stop (Ptr × State) → Prop
  | .error _ => True
  | .ok (p, _) => Usable s p

/-- `p` is the root of a file system. -/
def IsRoot (s : State) : Ptr → Prop
  | .ext2 _ _ => False
  | .node a => ∃ n ∈ s.nodes a, ∃ F ∈ s.fss n.made, F.root = some a

/-- The directory that a path leads to, if it leads to one, is not a root. -/
def EndsBelowRoot (s : State) : Except Stop (Except ℤ Ptr × State) → Prop
  | .ok (.ok p, _) => ¬ IsRoot s p
  | _ => True

/-- A file system that has not been mounted yet. -/
def Unmounted (s : State) (g : ℕ) : Prop := ∃ G ∈ s.fss g, G.root = none ∧ G.freed = false

/-- No other file system is mounted on a node of `g`, nor was mounted on one when
it was last mounted. -/
def NothingIn (s : State) (g : ℕ) : Prop :=
  ∀ h < s.nextFs, h ≠ g → ∀ H ∈ s.fss h, ∀ k ∈ H.parentNode, ∀ n ∈ s.nodes k, n.made ≠ g

/-- The condition on an operation: it begins at a node on which nothing is
mounted and that has not been freed; a file system is mounted once, and not on a
root; a memfs is unmounted when nothing is mounted in it; the root of devfs is
not opened; no entry is called `.` or `..`. -/
def Proper (s : State) : Event → Prop
  | .memfsNew => True
  | .devfsGet => True
  | .register _ _ => True
  | .ext2New _ => True
  | .mount t g path => Unmounted s g ∧ BeginsUsable s (startOf s t none path).result ∧
    EndsBelowRoot s (vfsTraverse s t none path).result
  | .unmount _ g => ∃ G ∈ s.fss g, G.freed = false ∧ G.root ≠ none ∧
    (G.kind = .mem → NothingIn s g)
  | .chdir t path => BeginsUsable s (startOf s t none path).result
  | .lookup t dir _ => BeginsUsable s (dirOrCwd s t dir).result
  | .traverse t start path => BeginsUsable s (startOf s t start path).result
  | .openNode p => Usable s p ∧ ∀ n ∈ s.get p, n.shape ≠ .vfsNode
  | .closeFile i => ∀ f ∈ s.files i, Usable s f.node
  | .fileOp i => ∀ f ∈ s.files i, Usable s f.node
  | .create t dir name => BeginsUsable s (dirOrCwd s t dir).result ∧ name ≠ dot ∧ name ≠ dotDot
  | .mkdir t dir name => BeginsUsable s (dirOrCwd s t dir).result ∧ name ≠ dot ∧ name ≠ dotDot

section Operations

variable {s : State}

variable {p : Ptr}

theorem Usable.of_cwd {c : ℕ → Option Addr} (h : Usable { s with cwd := c } p) : Usable s p := by
  obtain ⟨n, F, h, hn⟩ := h
  refine ⟨n, F, ⟨?_, h.kept, h.fs, h.fsKept⟩, hn⟩
  cases p with
  | node a => exact h.get
  | ext2 g i => exact h.get

theorem vfsGetRoot_meets : Meets Call.Sound (vfsGetRoot s) fun _ => True := by
  refine (meets_ofOption fun g _ => trivial).bind fun g _ => ?_
  exact (meets_ofOption fun F _ => trivial).bind fun F _ => meets_ofOption fun _ _ => trivial

variable {t : ℕ} {dir : Option Ptr}

theorem dirOrCwd_meets :
    Meets Call.Sound (dirOrCwd s t dir) fun r => ∃ c, r.2 = { s with cwd := c } := by
  cases dir with
  | some p => exact meets_pure ⟨s.cwd, rfl⟩
  | none =>
    have hcwd : Meets Call.Sound (vfsGetCwd s t) fun r => ∃ c, r.2 = { s with cwd := c } := by
      rw [vfsGetCwd]
      cases s.cwd t with
      | some a => exact meets_pure ⟨s.cwd, rfl⟩
      | none => exact vfsGetRoot_meets.bind fun r _ => meets_pure ⟨_, rfl⟩
    exact hcwd.bind fun r hr => meets_pure hr

variable {start : Option Ptr} {path : List ℕ}

theorem startOf_meets :
    Meets Call.Sound (startOf s t start path) fun r => ∃ c, r.2 = { s with cwd := c } := by
  rw [startOf]
  by_cases habs : path.head? = some slash
  · rw [if_pos habs]
    exact vfsGetRoot_meets.bind fun r _ => meets_pure ⟨s.cwd, rfl⟩
  · rw [if_neg habs]
    exact dirOrCwd_meets

theorem begins_meets {x : Do (Ptr × State)}
    (hx : Meets Call.Sound x fun r => ∃ c, r.2 = { s with cwd := c })
    (h : BeginsUsable s x.result) :
    Meets Call.Sound x fun r => Usable s r.1 ∧ ∃ c, r.2 = { s with cwd := c } where
  calls := hx.calls
  result r hr := by
    rw [hr] at h
    exact ⟨h, hx.result r hr⟩

theorem vfsTraverse_meets (hI : Inv s) (h : BeginsUsable s (startOf s t start path).result) :
    Meets Call.Sound (vfsTraverse s t start path) fun r =>
      (∃ c, r.2 = { s with cwd := c }) ∧ ∀ q, r.1 = .ok q → Usable s q := by
  refine (begins_meets startOf_meets h).bind ?_
  rintro ⟨p, s'⟩ ⟨hp, c, rfl⟩
  refine (walk_total (hI.cwd c) (components path) hp.cwd).toMeets.bind fun r hr => ?_
  exact meets_pure ⟨⟨c, rfl⟩, fun q hq => (hr q hq).of_cwd⟩

theorem Inv.keep (hI : Inv s) {n : Node} {F : Fs} (h : Live s p n F) :
    Inv (s.keep n p).2 ∧ Live (s.keep n p).2 (.node (s.keep n p).1) n F ∧
      (s.keep n p).2.fss = s.fss ∧ (s.keep n p).2.root = s.root := by
  cases p with
  | node a => exact ⟨hI, h, rfl, rfl⟩
  | ext2 g i =>
    obtain ⟨G, hG, hkind, hroot, rfl⟩ := get_ext2 h.get
    obtain rfl := mem_unique hG h.fs
    exact ⟨hI.alloc_inode i hG hkind hroot h.fsKept,
      ⟨update_self .., rfl, hG, h.fsKept⟩, rfl, rfl⟩

theorem vfsChdir_meets (hI : Inv s) (h : BeginsUsable s (startOf s t none path).result) :
    Meets Call.Sound (vfsChdir s t path) fun r => Inv r.2 := by
  refine (vfsTraverse_meets hI h).bind ?_
  rintro ⟨found, s'⟩ ⟨⟨c, rfl⟩, hfound⟩
  cases found with
  | error e => exact meets_pure (hI.cwd c)
  | ok p =>
    obtain ⟨n, F, hn, -⟩ := (hfound p rfl).cwd
    dsimp only
    rw [State.deref, hn.get, ofOption_some, pure_bind_eq]
    by_cases hdir : n.type ≠ .dir
    · rw [if_pos hdir]
      exact meets_pure (hI.cwd c)
    · rw [if_neg hdir]
      exact meets_pure (((hI.cwd c).keep hn).1.cwd _)

theorem vfsOpen_meets (hI : Inv s) (h : Usable s p) (hroot : ∀ n ∈ s.get p, n.shape ≠ .vfsNode) :
    Meets Call.Sound (vfsOpen s p) fun r => Inv r.2 := by
  obtain ⟨n, F, h, hn⟩ := h
  have hshape := hroot n h.get
  -- a node of devfs other than its root is the node of a device
  have hcast : ∀ op, ∀ sh ∈ F.kind.casts op, n.shape = sh := by
    intro op sh hsh
    have hkind := hI.kind h
    cases hs : n.shape with
    | vfsNode => exact absurd hs hshape
    | memfsNode =>
      rw [← hkind, hs, Shape.kind] at hsh
      cases op <;> simp_all [Kind.casts]
    | devfsNode =>
      rw [← hkind, hs, Shape.kind] at hsh
      cases op <;> simp_all [Kind.casts]
    | ext2Node =>
      rw [← hkind, hs, Shape.kind] at hsh
      cases op <;> simp_all [Kind.casts]
  rw [vfsOpen, State.deref, h.get, ofOption_some, pure_bind_eq, hI.plain h hn]
  refine (dispatch_total h.fs rfl h.kept h.fsKept (hcast .openNode)).toMeets.bind fun G hG => ?_
  by_cases hbad : G.kind = .dev ∧ n.shape ≠ .devfsNode
  · rw [if_pos hbad]
    exact meets_stop
  · rw [if_neg hbad]
    refine meets_pure (hI.of_eq rfl rfl rfl rfl rfl rfl fun i f hf => ?_)
    by_cases hi : i = s.nextFile
    · subst hi
      change update s.files _ _ _ = _ at hf
      rw [update_self] at hf
      cases hf
      refine .inr ⟨n, F, ?_, rfl, h.fs, hcast .fileOp⟩
      cases p with
      | node a => exact h.get
      | ext2 g i => exact h.get
    · exact .inl ((update_of_ne hi _ _).symm.trans hf)

variable {i : ℕ}

theorem Inv.live_file (hI : Inv s) {f : File} (hf : s.files i = some f) (h : Usable s f.node) :
    ∃ n F, Live s f.node n F ∧ n.fs = n.made ∧ n.made = f.fs ∧
      ∀ sh ∈ F.kind.casts .fileOp, n.shape = sh := by
  obtain ⟨n, F, h, hn⟩ := h
  obtain ⟨n', F', hn', hmade, hF', hcast⟩ := hI.file i f hf
  obtain rfl := mem_unique h.get hn'
  obtain rfl : F = F' := by
    have hF := h.fs
    rw [hmade, hF'] at hF
    exact (some_inj.mp hF).symm
  exact ⟨n, F, h, hI.plain h hn, hmade, hcast⟩

theorem vfsClose_meets (hI : Inv s) (h : ∀ f ∈ s.files i, Usable s f.node) :
    Meets Call.Sound (vfsClose s i) fun r => Inv r.2 := by
  refine (meets_ofOption fun f hf => hf).bind fun f hf => ?_
  obtain ⟨n, F, hn, hfs, hmade, hcast⟩ := hI.live_file hf (h f hf)
  have hcast' : ∀ sh ∈ F.kind.casts .closeFile, n.shape = sh := by
    intro sh hsh
    refine hcast sh ?_
    cases hk : F.kind <;> simp_all [Kind.casts]
  rw [State.deref, hn.get, ofOption_some, pure_bind_eq, hfs]
  refine (dispatch_total hn.fs rfl hn.kept hn.fsKept hcast').toMeets.bind fun G hG => ?_
  by_cases hbad : G.kind = .dev ∧ n.shape ≠ .devfsNode
  · rw [if_pos hbad]
    exact meets_stop
  · rw [if_neg hbad]
    refine meets_pure (hI.of_eq rfl rfl rfl rfl rfl rfl fun j f' hf' => ?_)
    by_cases hj : j = i
    · subst hj
      change update s.files _ _ _ = _ at hf'
      rw [update_self] at hf'
      cases hf'
    · exact .inl ((update_of_ne hj _ _).symm.trans hf')

theorem vfsFileOp_meets (hI : Inv s) (h : ∀ f ∈ s.files i, Usable s f.node) :
    Meets Call.Sound (vfsFileOp s i) fun _ => True := by
  refine (meets_ofOption fun f hf => hf).bind fun f hf => ?_
  obtain ⟨n, F, hn, -, hmade, hcast⟩ := hI.live_file hf (h f hf)
  rw [State.deref, hn.get, ofOption_some, pure_bind_eq, ← hmade]
  exact (dispatch_total hn.fs rfl hn.kept hn.fsKept hcast).toMeets.bind fun _ _ =>
    meets_pure trivial

theorem vfsMake_meets (hI : Inv s) {op : Op} {type : NodeType} {name : Name}
    (ht : type ≠ .mountpoint) (h : BeginsUsable s (dirOrCwd s t dir).result)
    (hname : name ≠ dot ∧ name ≠ dotDot) :
    Meets Call.Sound (vfsMake op type s t dir name) fun r => Inv r.2 := by
  refine (begins_meets dirOrCwd_meets h).bind ?_
  rintro ⟨p, s'⟩ ⟨hp, c, rfl⟩
  have hI' := hI.cwd c
  have hp' := hp.cwd (c := c)
  obtain ⟨d, F, hd, hplain⟩ := hp'
  have hfs := hI'.plain hd hplain
  dsimp only
  rw [State.deref, hd.get, ofOption_some, pure_bind_eq, State.vfs, hfs, hd.fs, ofOption_some,
    pure_bind_eq]
  by_cases hmem : F.kind ≠ .mem
  · rw [if_pos hmem]
    exact meets_pure hI'
  rw [if_neg hmem]
  have hkind : F.kind = .mem := not_not.mp hmem
  refine (vfsLookup_total hI' ⟨d, F, hd, hplain⟩ name).toMeets.bind fun found _ => ?_
  cases found with
  | ok q => exact meets_pure hI'
  | error e =>
    rw [← hfs]
    refine (dispatch_own hI' hd hplain fun hdev => by rw [hkind] at hdev; cases hdev).bind ?_
    rintro G rfl
    have hshape : d.shape = .memfsNode := kind_eq_mem_iff.mp ((hI'.kind hd).trans hkind)
    cases p with
    | ext2 g i => exact meets_stop
    | node a =>
      rw [memfsAdd, if_neg (not_not.mpr hshape), pure_bind_eq, hfs]
      exact meets_pure (hI'.addChild hd hshape hname ht)

end Operations

/-! ### Mounting and unmounting -/

/-- The root node `n` and the record `G'` that the first mount of a file system
leaves behind. -/
structure Rooted (s : State) (g : ℕ) (G : Fs) (n : Node) (G' : Fs) : Prop where
  node : n.fs = g ∧ n.made = g ∧ n.freed = false ∧ n.type = .dir ∧ n.children = []
  shape : n.shape = G.kind.rootShape
  id : G.kind = .ext2 → n.id = 2
  up : G.kind = .mem → n.up = G.parentNode.getD s.next
  same : G'.kind = G.kind ∧ G'.freed = G.freed ∧ G'.devices = G.devices ∧ G'.disk = G.disk
  disk : G.kind = .ext2 → G.disk.type 2 = .dir
  parent : G'.parent = G.parent ∧ G'.parentNode = G.parentNode
  root : G'.root = some s.next
  name : n.name = [] ∨ n.name = [slash]

/-- A file system and its root node are put in place. -/
def State.rooted (s : State) (g : ℕ) (n : Node) (G : Fs) : State :=
  { s with nodes := update s.nodes s.next (some n), next := s.next + 1
           fss := update s.fss g (some G) }

variable {s : State} {g : ℕ} {G : Fs}

theorem alloc_modifyFs (n : Node) (f : Fs → Fs) (hG : s.fss g = some G) :
    (s.alloc n).modifyFs g f = s.rooted g n (f G) := by
  simp only [State.alloc, State.modifyFs, State.rooted, hG, map_some]

theorem fsMount_unmounted (hG : s.fss g = some G) (hr : G.root = none) :
    (∃ ret, ret ≠ 0 ∧ fsMount s g = pure (ret, s) ∧ G.kind = .ext2) ∨
      ∃ n G', fsMount s g = pure (0, s.rooted g n G') ∧ Rooted s g G n G' := by
  rw [fsMount, State.vfs, hG, ofOption_some, pure_bind_eq]
  cases hk : G.kind with
  | mem =>
    refine .inr ⟨memfsNode g G [slash] .dir (G.parentNode.getD s.next),
      { G with root := some s.next, lastId := G.lastId + 1 }, ?_, ?_⟩
    · rw [memfsMount, alloc_modifyFs _ _ hG]
    · exact ⟨⟨rfl, rfl, rfl, rfl, rfl⟩, by simp [hk, memfsNode, Kind.rootShape], by simp [hk],
        fun _ => rfl, ⟨rfl, rfl, rfl, rfl⟩, by simp [hk], ⟨rfl, rfl⟩, rfl, .inr rfl⟩
  | dev =>
    refine .inr ⟨devfsRoot g, { G with root := some s.next }, ?_, ?_⟩
    · rw [devfsMount, hr]
      rw [alloc_modifyFs _ _ hG]
    · exact ⟨⟨rfl, rfl, rfl, rfl, rfl⟩, by simp [hk, devfsRoot, Kind.rootShape], by simp [hk],
        by simp [hk], ⟨rfl, rfl, rfl, rfl⟩, by simp [hk], ⟨rfl, rfl⟩, rfl, .inl rfl⟩
  | ext2 =>
    rw [ext2Mount]
    by_cases hsb : G.disk.sb = false
    · rw [if_pos hsb]
      exact .inl ⟨einval, by decide, rfl, rfl⟩
    rw [if_neg hsb]
    by_cases hdir : G.disk.type 2 ≠ .dir
    · rw [if_pos hdir]
      exact .inl ⟨eio, by decide, rfl, rfl⟩
    rw [if_neg hdir, alloc_modifyFs _ _ hG]
    refine .inr ⟨inodeNode g 2 G.disk, { G with root := some s.next }, rfl, ?_⟩
    exact ⟨⟨rfl, rfl, rfl, not_not.mp hdir, rfl⟩, by simp [hk, inodeNode, Kind.rootShape],
      fun _ => rfl, by simp [hk], ⟨rfl, rfl, rfl, rfl⟩, fun _ => not_not.mp hdir, ⟨rfl, rfl⟩, rfl,
      .inl rfl⟩

section Mount

variable {s : State} {g : ℕ} {G : Fs}

theorem rootOf_eq {r : Addr} (hG : s.fss g = some G) (hr : G.root = some r) :
    s.rootOf g = pure r := by
  rw [State.rootOf, State.vfs, hG, ofOption_some, pure_bind_eq, hr, ofOption_some]

theorem mountRoot_meets (hI : Inv s) (hroot : s.root = none) (hG : s.fss g = some G)
    (hr : G.root = none) (hk : G.freed = false) :
    Meets Call.Sound (mountRoot s g) fun r => Inv r.2 := by
  rw [mountRoot]
  rcases fsMount_unmounted hG hr with ⟨ret, hret, heq, -⟩ | ⟨n, G', heq, hnew⟩
  · rw [heq, pure_bind_eq]
    dsimp only
    rw [if_pos hret]
    exact meets_pure hI
  · have hG' : (s.rooted g n G').fss g = some G' := update_self ..
    rw [heq, pure_bind_eq]
    dsimp only
    rw [if_neg (not_not.mpr rfl), rootOf_eq hG' hnew.root, pure_bind_eq]
    have hfss : ((s.rooted g n G').modifyFs g fun F => { F with parentNode := some s.next }).fss =
        update s.fss g (some { G' with parentNode := some s.next }) := by
      show update (update s.fss g (some G')) g _ = _
      rw [update_idem, hG']
      rfl
    refine meets_pure (hI.setRoot rfl rfl hfss rfl rfl rfl hG hr hk hnew.node hnew.shape hnew.id
      ⟨hnew.same.1, hnew.same.2.1.trans hk, hnew.same.2.2⟩ hnew.disk hnew.root ?_
      (.inl ⟨hroot, rfl, rfl, hnew.parent.1⟩))
    intro hmem
    rw [hnew.up hmem, (hI.fs g G hG hk).fresh hr hmem]
    rfl

variable {p : Ptr} {n : Node} {F : Fs}

theorem Inv.kind_ne_dev (hI : Inv s) (h : Live s p n F) (hdir : n.type = .dir)
    (hroot : ¬ IsRoot s p) : n.shape.kind ≠ .dev := by
  intro hdev
  cases p with
  | ext2 g i =>
    obtain ⟨G, -, -, -, rfl⟩ := get_ext2 h.get
    cases hdev
  | node a => exact hroot ⟨n, h.get, F, h.fs, (hI.node a n F h).devRoot hdev hdir⟩

theorem Inv.keep_ne_root (hI : Inv s) (h : Live s p n F) (hroot : ¬ IsRoot s p) :
    F.root ≠ some (s.keep n p).1 := by
  cases p with
  | node a => exact fun hr => hroot ⟨n, h.get, F, h.fs, hr⟩
  | ext2 g i =>
    intro hr
    obtain ⟨m, hm, -⟩ := hI.live_root h.fs h.fsKept hr
    exact hI.ne_next hm.get rfl

theorem mountOn_eq (hG : s.fss g = some G) (hr : G.root = none)
    (hfss : (s.keep n p).2.fss = s.fss) :
    (∃ ret, ret ≠ 0 ∧ G.kind = .ext2 ∧ mountOn s g p n = pure (ret, (s.keep n p).2.modifyFs g
      fun F => { F with parentNode := some (s.keep n p).1, parent := some n.fs })) ∨
    ∃ m G', Rooted (s.keep n p).2
        g { G with parentNode := some (s.keep n p).1, parent := some n.fs } m G' ∧
      mountOn s g p n = pure (0, ((s.keep n p).2.rooted g m G').modifyNode (s.keep n p).1
        fun n => { n with type := .mountpoint, fs := g }) := by
  set k := (s.keep n p).1 with hk
  set s1 := (s.keep n p).2.modifyFs g fun F =>
    { F with parentNode := some k, parent := some n.fs } with hs1
  have hG1 : s1.fss g = some { G with parentNode := some k, parent := some n.fs } := by
    show update (s.keep n p).2.fss g (((s.keep n p).2.fss g).map _) g = _
    rw [update_self, hfss, hG]
    rfl
  have hrooted : ∀ m G', s1.rooted g m G' = (s.keep n p).2.rooted g m G' := by
    intro m G'
    simp only [hs1, State.rooted, State.modifyFs, update_idem]
  rw [mountOn, ← hk, ← hs1]
  rcases fsMount_unmounted hG1 hr with ⟨ret, hret, heq, hkind⟩ | ⟨m, G', heq, hnew⟩
  · refine .inl ⟨ret, hret, hkind, ?_⟩
    rw [heq, pure_bind_eq]
    dsimp only
    rw [if_pos hret]
  · refine .inr ⟨m, G', ⟨hnew.node, hnew.shape, hnew.id, hnew.up, hnew.same, hnew.disk,
      hnew.parent, hnew.root, hnew.name⟩, ?_⟩
    rw [heq, pure_bind_eq]
    dsimp only
    rw [if_neg (not_not.mpr rfl), hrooted]

theorem mountOn_meets (hI : Inv s) (hG : s.fss g = some G) (hr : G.root = none)
    (hk : G.freed = false) (h : Live s p n F) (hdir : n.type = .dir) (hroot : ¬ IsRoot s p) :
    Meets Call.Sound (mountOn s g p n) fun r => Inv r.2 := by
  have hfs : n.fs = n.made := hI.plain h (by simp [hdir])
  have hdev := hI.kind_ne_dev h hdir hroot
  have hne := hI.keep_ne_root h hroot
  obtain ⟨hI0, hlive, hfss, -⟩ := hI.keep h
  have hG0 : (s.keep n p).2.fss g = some G := by rw [hfss]; exact hG
  rcases mountOn_eq hG hr hfss with ⟨ret, -, hkind, heq⟩ | ⟨m, G', hnew, heq⟩
  · rw [heq]
    refine meets_pure (hI0.setParent hG0 hr (by simp [hkind]) (hI0.next _ n hlive.get).1 ?_)
    rw [hfs]
    exact hI0.hasRoot hlive hdev
  · rw [heq]
    -- first the root node, then the mark on the node mounted on
    have hI1 : Inv ((s.keep n p).2.rooted g m G') := by
      refine hI0.setRoot rfl rfl rfl rfl rfl rfl hG0 hr hk hnew.node hnew.shape hnew.id
        ⟨hnew.same.1, hnew.same.2.1.trans hk, hnew.same.2.2⟩ hnew.disk hnew.root ?_ (.inr ⟨rfl, ?_⟩)
      · intro hmem
        rw [hnew.up hmem, hnew.parent.2]
        rfl
      · refine ⟨(s.keep n p).1, n, F, hnew.parent.2, hlive, hdev, ?_⟩
        rw [hnew.parent.1, ← hfs]
    have hmade : n.made ≠ g := by
      rintro rfl
      obtain ⟨r, hroot', -⟩ := (hI0.node _ n F hlive).root hdev
      obtain rfl := mem_unique h.fs hG
      rw [hr] at hroot'
      cases hroot'
    have hlive1 : Live ((s.keep n p).2.rooted g m G') (.node (s.keep n p).1) n F := by
      refine ⟨?_, hlive.kept, ?_, hlive.fsKept⟩
      · exact (update_of_ne (hI0.ne_next hlive.get) _ _).trans hlive.get
      · exact (update_of_ne hmade _ _).trans hlive.fs
    refine meets_pure (hI1.retype hlive1 hne hdev (.inl hdir) (fun h => absurd rfl h) fun _ => ?_)
    refine ⟨G', (s.keep n p).2.next, update_self .., hnew.same.2.1.trans hk, hnew.root,
      hnew.parent.2, ?_⟩
    rw [hnew.parent.1, ← hfs]

theorem vfsMount_meets (hI : Inv s) {t : ℕ} {path : List ℕ} (hg : Unmounted s g)
    (hstart : BeginsUsable s (startOf s t none path).result)
    (hend : EndsBelowRoot s (vfsTraverse s t none path).result) :
    Meets Call.Sound (vfsMount s t g path) fun r => Inv r.2 := by
  obtain ⟨G, hG, hr, hk⟩ := hg
  rw [vfsMount]
  by_cases hfirst : s.root = none ∧ path = [slash]
  · rw [if_pos hfirst]
    exact mountRoot_meets hI hfirst.1 hG hr hk
  rw [if_neg hfirst]
  have htrav : Meets Call.Sound (vfsTraverse s t none path) fun r =>
      (∃ c, r.2 = { s with cwd := c }) ∧ ∀ q, r.1 = .ok q → Usable s q ∧ ¬ IsRoot s q := by
    refine ⟨(vfsTraverse_meets hI hstart).calls, fun r hr => ?_⟩
    obtain ⟨hc, husable⟩ := (vfsTraverse_meets hI hstart).result r hr
    refine ⟨hc, fun q hq => ⟨husable q hq, ?_⟩⟩
    obtain ⟨found, s'⟩ := r
    obtain rfl : found = .ok q := hq
    rw [hr] at hend
    exact hend
  refine htrav.bind ?_
  rintro ⟨found, s'⟩ ⟨⟨c, rfl⟩, hfound⟩
  cases found with
  | error e => exact meets_pure (hI.cwd c)
  | ok p =>
    obtain ⟨husable, hroot⟩ := hfound p rfl
    obtain ⟨n, F, hn, -⟩ := husable.cwd
    dsimp only
    rw [State.deref, hn.get, ofOption_some, pure_bind_eq]
    by_cases hdir : n.type ≠ .dir
    · rw [if_pos hdir]
      exact meets_pure (hI.cwd c)
    · rw [if_neg hdir]
      refine mountOn_meets (hI.cwd c) hG hr hk hn (not_not.mp hdir) fun hisroot => hroot ?_
      cases p with
      | node a => exact hisroot
      | ext2 g i => exact hisroot

end Mount

section Unmount

variable {s : State} {g : ℕ} {G : Fs}

theorem detach_meets (hI : Inv s) (hG : s.fss g = some G) (hk : G.freed = false)
    (hr : G.root ≠ none) :
    Meets Call.Sound (detach s G) fun s' => Inv s' ∧ s'.fss = s.fss ∧ s'.root = s.root ∧
      s.root ≠ some g ∧ ∃ k h, G.parentNode = some k ∧
        s' = s.modifyNode k fun n => { n with type := .dir, fs := h } := by
  obtain ⟨r, hr⟩ := ne_none_iff_exists'.mp hr
  rcases (hI.fs g G hG hk).parent r hr with ⟨-, hpar⟩ | ⟨hnot, k, m, F, hpar, hm, -, -, hmade⟩
  · obtain ⟨m, hm, -, htype, -⟩ := hI.live_root hG hk hr
    rw [detach, hpar]
    dsimp only
    rw [State.deref, hm.get, ofOption_some, pure_bind_eq, if_pos (by simp [htype])]
    exact meets_stop
  · rw [detach, hpar]
    dsimp only
    rw [State.deref, hm.get, ofOption_some, pure_bind_eq]
    by_cases hmp : m.type ≠ .mountpoint
    · rw [if_pos hmp]
      exact meets_stop
    · rw [if_neg hmp, hmade, ofOption_some, pure_bind_eq]
      obtain ⟨-, hnroot, hdev⟩ := (hI.node k m F hm).mount (not_not.mp hmp)
      have hI' : Inv (s.modifyNode k fun n => { n with type := .dir, fs := m.made }) :=
        hI.retype hm hnroot hdev (.inr (not_not.mp hmp)) (fun _ => rfl) fun h => by cases h
      exact meets_pure ⟨hI', rfl, rfl, hnot, k, m.made, rfl, rfl⟩

theorem vfsUnmount_meets (hI : Inv s) {t : ℕ} (hG : s.fss g = some G) (hk : G.freed = false)
    (hr : G.root ≠ none) (hin : G.kind = .mem → NothingIn s g) :
    Meets Call.Sound (vfsUnmount s t g) fun r => Inv r.2 := by
  rw [vfsUnmount, State.vfs, hG, ofOption_some, pure_bind_eq]
  refine (detach_meets hI hG hk hr).bind ?_
  rintro s' ⟨hI', hfss, hroot, hnot, k, h, hpar, hs'⟩
  cases hkind : G.kind with
  | dev => exact meets_pure hI'
  | ext2 => exact meets_pure hI'
  | mem =>
    obtain ⟨r, hr⟩ := ne_none_iff_exists'.mp hr
    have hG' : s'.fss g = some G := by rw [hfss]; exact hG
    obtain ⟨m, hm, hmade, -, hshape⟩ := hI'.live_root hG' hk hr
    have hmem : MemAt s' g r m := ⟨hm.get, hm.kept, hmade, by rw [hshape, hkind]; rfl⟩
    -- the node `g` was mounted on is the only one that `g` can be mounted on
    have hout : ∀ a n F, Live s' (.node a) n F → n.type = .mountpoint → n.fs ≠ g := by
      rintro a n F hn hmp rfl
      obtain ⟨⟨H, -, hH, -, -, hHpar, -⟩, -⟩ := (hI'.node a n F hn).mount hmp
      obtain rfl := mem_unique hG' hH
      obtain rfl := mem_unique hpar hHpar
      have hget := hn.get
      rw [hs'] at hget
      change update s.nodes k ((s.nodes k).map _) k = some n at hget
      rw [update_self] at hget
      obtain ⟨n0, -, rfl⟩ := map_eq_some_iff.mp hget
      cases hmp
    have hmadeEq : ∀ a n, s'.nodes a = some n → ∃ n0, s.nodes a = some n0 ∧ n0.made = n.made := by
      intro a n hn
      rw [hs'] at hn
      by_cases ha : a = k
      · subst ha
        change update s.nodes a ((s.nodes a).map _) a = some n at hn
        rw [update_self] at hn
        obtain ⟨n0, hn0, rfl⟩ := map_eq_some_iff.mp hn
        exact ⟨n0, hn0, rfl⟩
      · exact ⟨n, (modifyNode_of_ne _ ha).symm.trans hn, rfl⟩
    have hin' : ∀ h H k n, h ≠ g → s'.fss h = some H → H.parentNode = some k →
        s'.nodes k = some n → n.made ≠ g := by
      intro h H k n hne hH hHpar hn
      obtain ⟨n0, hn0, hmade0⟩ := hmadeEq k n hn
      rw [hfss] at hH
      rw [← hmade0]
      exact hin hkind h (hI.nextFs h H hH) hne H hH k hHpar n0 hn0
    have hplain : ∀ b n F, Live s' (.node b) n F → n.made = g → n.type ≠ .mountpoint := by
      intro b n F hn hmade hmp
      obtain ⟨⟨H, -, hH, -, -, hHpar, -⟩, -⟩ := (hI'.node b n F hn).mount hmp
      exact hin' n.fs H b n (hout b n F hn hmp) hH hHpar hn.get hmade
    have hfree := memfsRecurseFree_meets hI' hG' hk hplain (s'.next + 2) hmem
    have hunmount : Meets Call.Sound (memfsUnmount s' t g G) fun r =>
        Inv r.2 ∧ r.2.root = s'.root := by
      rw [memfsUnmount, hr]
      show Meets Call.Sound ((pure (.node r, s') : Do (Ptr × State)) >>= _) _
      refine hfree.bind fun l hl => meets_pure ⟨?_, rfl⟩
      exact hI'.free hG' hkind hl (hroot ▸ hnot) hin' hout
    refine hunmount.bind ?_
    rintro ⟨ret, s''⟩ ⟨hI'', hroot''⟩
    refine meets_pure ?_
    rw [if_neg (by rw [hroot'', hroot]; exact hnot)]
    exact hI''

end Unmount

theorem step_meets (hI : Inv s) {e : Event} (h : Proper s e) : Meets Call.Sound (s.step e) Inv := by
  cases e with
  | memfsNew => exact meets_pure (hI.newFs rfl rfl rfl rfl)
  | ext2New disk => exact meets_pure (hI.newFs rfl rfl rfl rfl)
  | devfsGet =>
    rw [State.step]
    cases s.devfs with
    | some g => exact meets_pure hI
    | none =>
      refine meets_pure ?_
      have hnew := hI.newFs (F := { kind := .dev }) rfl rfl rfl rfl
      refine hnew.update (A := fun _ => False) (B := fun _ => False)
        { grows := ⟨fun a u hu => ⟨u, hu, .refl u⟩, fun g G hG => ⟨G, hG, .refl G⟩⟩
          type := fun _ _ _ _ _ _ _ _ hu hu' => type_of_eq rfl hu hu'
          devfs := fun g hg => .inr ⟨{ kind := .dev }, ?_, rfl, rfl⟩ }
      cases hg
      exact update_self ..
  | register name block =>
    refine (meets_ofOption fun g hg => hI.devfs g hg).bind ?_
    rintro g ⟨G, hG, hkind, -⟩
    exact meets_pure (hI.register hG hkind name block)
  | mount t g path =>
    exact (vfsMount_meets hI h.1 h.2.1 h.2.2).bind fun _ hr => meets_pure hr
  | unmount t g =>
    obtain ⟨G, hG, hk, hr, hin⟩ := h
    exact (vfsUnmount_meets hI hG hk hr hin).bind fun _ hr => meets_pure hr
  | chdir t path => exact (vfsChdir_meets hI h).bind fun _ hr => meets_pure hr
  | lookup t dir name =>
    refine (begins_meets dirOrCwd_meets h).bind ?_
    rintro ⟨p, s'⟩ ⟨hp, c, rfl⟩
    exact (vfsLookup_total (hI.cwd c) hp.cwd name).toMeets.bind fun _ _ => meets_pure (hI.cwd c)
  | traverse t start path =>
    refine (vfsTraverse_meets hI h).bind ?_
    rintro ⟨found, s'⟩ ⟨⟨c, rfl⟩, -⟩
    exact meets_pure (hI.cwd c)
  | openNode p => exact (vfsOpen_meets hI h.1 h.2).bind fun _ hr => meets_pure hr
  | closeFile i => exact (vfsClose_meets hI h).bind fun _ hr => meets_pure hr
  | fileOp i => exact (vfsFileOp_meets hI h).bind fun _ _ => meets_pure hI
  | create t dir name =>
    exact (vfsMake_meets hI (by decide) h.1 h.2).bind fun _ hr => meets_pure hr
  | mkdir t dir name =>
    exact (vfsMake_meets hI (by decide) h.1 h.2).bind fun _ hr => meets_pure hr

theorem inv_of_run {es : List Event} (hrun : Run Step {} es s) (hok : Guarded Step Proper {} es) :
    Inv s :=
  hrun.invariant_of_guarded inv_boot
    (fun _ _ s' hI hp hstep => (step_meets hI hp).result s' (value_eq_some.mp hstep)) hok

/-- **Dispatch.**  In a run whose operations all meet the condition, every call through an
operations table gets a node that the file system of the table has made, part of the struct that
the operation casts it to. -/
theorem dispatch_sound {s : State} {es : List Event} {e : Event} (hrun : Run Step {} es s)
    (hok : Guarded Step Proper {} es) (he : Proper s e) :
    ∀ c ∈ (s.step e).calls, c.Sound :=
  (step_meets (inv_of_run hrun hok) he).calls

/-! ### Runs -/

instance (s : State) (p : Ptr) : Decidable (Usable s p) :=
  decidable_of_iff
    (∃ n ∈ s.get p, ∃ F ∈ s.fss n.made, n.freed = false ∧ F.freed = false ∧ n.type ≠ .mountpoint)
    ⟨fun ⟨n, hn, F, hF, h, hk, ht⟩ => ⟨n, F, ⟨hn, h, hF, hk⟩, ht⟩,
      fun ⟨n, F, h, ht⟩ => ⟨n, h.get, F, h.fs, h.kept, h.fsKept, ht⟩⟩

instance (s : State) : (r : Except Stop (Ptr × State)) → Decidable (BeginsUsable s r)
  | .error _ => inferInstanceAs (Decidable True)
  | .ok (p, _) => inferInstanceAs (Decidable (Usable s p))

instance (s : State) : (p : Ptr) → Decidable (IsRoot s p)
  | .ext2 _ _ => inferInstanceAs (Decidable False)
  | .node a => inferInstanceAs (Decidable (∃ n ∈ s.nodes a, ∃ F ∈ s.fss n.made, F.root = some a))

instance (s : State) : (r : Except Stop (Except ℤ Ptr × State)) → Decidable (EndsBelowRoot s r)
  | .error _ => inferInstanceAs (Decidable True)
  | .ok (.error _, _) => inferInstanceAs (Decidable True)
  | .ok (.ok p, _) => inferInstanceAs (Decidable (¬ IsRoot s p))

instance (s : State) (g : ℕ) : Decidable (Unmounted s g) :=
  inferInstanceAs (Decidable (∃ G ∈ s.fss g, G.root = none ∧ G.freed = false))

instance (s : State) (g : ℕ) : Decidable (NothingIn s g) :=
  inferInstanceAs (Decidable (∀ h < s.nextFs, h ≠ g → ∀ H ∈ s.fss h, ∀ k ∈ H.parentNode,
    ∀ n ∈ s.nodes k, n.made ≠ g))

instance (s : State) : (e : Event) → Decidable (Proper s e)
  | .memfsNew => inferInstanceAs (Decidable True)
  | .devfsGet => inferInstanceAs (Decidable True)
  | .register _ _ => inferInstanceAs (Decidable True)
  | .ext2New _ => inferInstanceAs (Decidable True)
  | .mount t g path => inferInstanceAs (Decidable (Unmounted s g ∧
      BeginsUsable s (startOf s t none path).result ∧
      EndsBelowRoot s (vfsTraverse s t none path).result))
  | .unmount _ g => inferInstanceAs (Decidable (∃ G ∈ s.fss g, G.freed = false ∧ G.root ≠ none ∧
      (G.kind = .mem → NothingIn s g)))
  | .chdir t path => inferInstanceAs (Decidable (BeginsUsable s (startOf s t none path).result))
  | .lookup t dir _ => inferInstanceAs (Decidable (BeginsUsable s (dirOrCwd s t dir).result))
  | .traverse t start path =>
    inferInstanceAs (Decidable (BeginsUsable s (startOf s t start path).result))
  | .openNode p => inferInstanceAs (Decidable (Usable s p ∧ ∀ n ∈ s.get p, n.shape ≠ .vfsNode))
  | .closeFile i => inferInstanceAs (Decidable (∀ f ∈ s.files i, Usable s f.node))
  | .fileOp i => inferInstanceAs (Decidable (∀ f ∈ s.files i, Usable s f.node))
  | .create t dir name => inferInstanceAs (Decidable (BeginsUsable s (dirOrCwd s t dir).result ∧
      name ≠ dot ∧ name ≠ dotDot))
  | .mkdir t dir name => inferInstanceAs (Decidable (BeginsUsable s (dirOrCwd s t dir).result ∧
      name ≠ dot ∧ name ≠ dotDot))

/-- A memfs on `/`, devfs on `/d` with a device `t`, and a memfs on `/m` that is
the working directory. -/
def exampleEvents : List Event :=
  [.memfsNew, .mount 0 0 [0x2F], .mkdir 0 none [100], .devfsGet, .register [116] false,
    .mount 0 1 [0x2F, 100], .mkdir 0 none [109], .memfsNew, .mount 0 2 [0x2F, 109],
    .chdir 0 [109]]

/-- In it, the path `../d/t` goes up through one mountpoint and down through
another: four calls of three file systems. -/
theorem dispatch_sound_upDown :
    ∃ s, Run Step {} exampleEvents s ∧ Guarded Step Proper {} exampleEvents ∧
      Proper s (.traverse 0 none [46, 46, 0x2F, 100, 0x2F, 116]) ∧
      (s.step (.traverse 0 none [46, 46, 0x2F, 100, 0x2F, 116])).calls.map Call.fs = [2, 0, 0, 1] ∧
      ∀ c ∈ (s.step (.traverse 0 none [46, 46, 0x2F, 100, 0x2F, 116])).calls, c.Sound := by
  have hguard : Guarded Step Proper {} exampleEvents :=
    guarded_of_take (by decide +kernel)
  have hfold : (exampleEvents.foldlM State.after {}).map (fun s : State =>
      (decide (Proper s (.traverse 0 none [46, 46, 0x2F, 100, 0x2F, 116])),
        (s.step (.traverse 0 none [46, 46, 0x2F, 100, 0x2F, 116])).calls.map Call.fs)) =
      some (true, [2, 0, 0, 1]) := by decide +kernel
  obtain ⟨s, hs, hcheck⟩ := map_eq_some_iff.mp hfold
  have hrun : Run Step {} exampleEvents s := run_iff_foldlM.mpr hs
  obtain ⟨hproper, hcalls⟩ := Prod.mk.inj hcheck
  have hp := of_decide_eq_true hproper
  exact ⟨s, hrun, hguard, hp, hcalls, dispatch_sound hrun hguard hp⟩

/-- **Unsound calls.**  After a mount of devfs on the working directory, and after a second mount
on `/`, a lookup calls `devfs_lookup` with a node of memfs; opening the root of devfs calls
`devfs_open` with a node that is no `devfs_node`. -/
theorem dispatch_unsound :
    (∃ s, Run Step {} [.memfsNew, .mount 0 0 [0x2F], .mkdir 0 none [100], .chdir 0 [100],
        .devfsGet, .mount 0 1 [0x2F, 100]] s ∧
      (s.step (.lookup 0 none [116])).calls = [⟨1, .dev, .lookup, 0, .memfsNode, false⟩]) ∧
    (∃ s, Run Step {} [.memfsNew, .mount 0 0 [0x2F], .devfsGet, .mount 0 1 [0x2F]] s ∧
      (s.step (.traverse 0 none [0x2F, 116])).calls =
        [⟨1, .dev, .lookup, 0, .memfsNode, false⟩]) ∧
    (∃ s, Run Step {} [.memfsNew, .mount 0 0 [0x2F], .mkdir 0 none [100], .devfsGet,
        .mount 0 1 [0x2F, 100]] s ∧
      (s.step (.openNode (.node 2))).calls = [⟨1, .dev, .openNode, 1, .vfsNode, false⟩]) ∧
    ¬ Call.Sound ⟨1, .dev, .lookup, 0, .memfsNode, false⟩ ∧
    ¬ Call.Sound ⟨1, .dev, .openNode, 1, .vfsNode, false⟩ := by
  have hrun : ∀ (es : List Event) (e : Event) (cs : List Call),
      (es.foldlM State.after {}).map (fun s : State => (s.step e).calls) =
        some cs → ∃ s, Run Step {} es s ∧ (s.step e).calls = cs := by
    intro es e cs h
    obtain ⟨s, hs, hcs⟩ := map_eq_some_iff.mp h
    exact ⟨s, run_iff_foldlM.mpr hs, hcs⟩
  refine ⟨hrun _ _ _ (by decide +kernel), hrun _ _ _ (by decide +kernel),
    hrun _ _ _ (by decide +kernel), by decide, by decide⟩

end Vfs
