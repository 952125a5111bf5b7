/-
Listing the directories of the VFS.

`vfs_readdir(dir, i, &name)` gives out the names in a directory one by one.  memfs
makes up `.` and `..` as the entries 0 and 1; devfs subtracts 2 from the index and
has no such entries; ext2 takes every name from the disk, and leaves the pointer
of its caller alone where that is `NULL` before the call.

* `vfsReaddir` — the three operations behind one call;
* `readdir_mem`, `readdir_dev`, `readdir_ext2` — what they give out;
* `lookup_mem_iff` — the names that `vfs_lookup` finds in a directory of a memfs;
* `lookup_dotDot_mem` — among them is always `..`;
* `ext2Readdir_disk` — `readdir_cb` finds in the bytes of a directory what the model
  finds in its entries.
-/
import Minima.Memory
import Minima.VfsPaths

namespace Vfs

open List Option
open Ext2 (Entry lastPrefix live dot dotDot enoent)
open Traced

/-! ### The operations -/

/-- What a call leaves in `*name_out`: what was there, or a new string. -/
inductive NameOut
  | same
  | name (s : Name)
  deriving DecidableEq

/-- `memfs_readdir` -/
def memfsReaddir (s : State) (d : Node) (idx : ℕ) : Do (Except ℤ NameOut) :=
  if idx = 0 then pure (.ok (.name dot))
  else if idx = 1 then pure (.ok (.name dotDot))
  else if d.shape ≠ .memfsNode then .stop .badCast
  else match d.children[idx - 2]? with
    | some k => do
      let c ← s.deref (.node k)
      pure (.ok (.name c.name))
    | none => pure (.error enoent)

/-- `devfs_readdir`, where `idx` is unsigned. -/
def devfsReaddir (s : State) (F : Fs) (idx : ℕ) : Do (Except ℤ NameOut) :=
  match F.devices[sub32 idx 2]? with
  | some k => do
    let c ← s.deref (.node k)
    pure (.ok (.name c.name))
  | none => pure (.error enoent)

/-- `ext2_readdir`; `null` says that `*name_out` is `NULL` before the call. -/
def ext2Readdir (F : Fs) (d : Node) (idx : ℕ) (null : Bool) : Do (Except ℤ NameOut) :=
  if d.shape ≠ .ext2Node then .stop .badCast
  else match (live (F.disk.entries d.id))[idx]? with
    | some e => pure (.ok (if null then .same else .name e.name))
    | none => pure (.error enoent)

/-- `vfs_readdir` on a directory -/
def vfsReaddir (s : State) (dir : Ptr) (idx : ℕ) (null : Bool) : Do (Except ℤ NameOut) := do
  let d ← s.deref dir
  let F ← dispatch s .readdir d.fs d
  match F.kind with
  | .mem => memfsReaddir s d idx
  | .dev => devfsReaddir s F idx
  | .ext2 => ext2Readdir F d idx null

/-- The names of the nodes of a list. -/
def State.names (s : State) (l : List Addr) : List Name :=
  l.filterMap fun k => (s.nodes k).map Node.name

/-! ### What is given out -/

section Readdir

variable {s : State} {p : Ptr} {d : Node} {F : Fs} {idx : ℕ} {null : Bool}

theorem mem_names {l : List Addr} {name : Name} :
    name ∈ s.names l ↔ ∃ k ∈ l, ∃ c, s.nodes k = some c ∧ c.name = name := by
  simp only [State.names, mem_filterMap, map_eq_some_iff]

theorem names_cons {k : Addr} {l : List Addr} {c : Node} (h : s.nodes k = some c) :
    s.names (k :: l) = c.name :: s.names l := by
  rw [State.names, filterMap_cons_some (by rw [h]; rfl)]
  rfl

theorem getElem?_names {l : List Addr} (h : ∀ k ∈ l, ∃ c, s.nodes k = some c) (i : ℕ) :
    (s.names l)[i]? = l[i]?.bind fun k => (s.nodes k).map Node.name := by
  induction l generalizing i with
  | nil => rfl
  | cons k l ih =>
    obtain ⟨c, hc⟩ := h k mem_cons_self
    rw [names_cons hc]
    cases i with
    | zero =>
      show some c.name = (s.nodes k).map Node.name
      rw [hc]
      rfl
    | succ i => exact ih (fun k' hk' => h k' (mem_cons_of_mem _ hk')) i

theorem readdir_result (hget : s.get p = some d) (hfs : d.fs = d.made)
    (hF : s.fss d.made = some F) :
    (vfsReaddir s p idx null).result = match F.kind with
      | .mem => (memfsReaddir s d idx).result
      | .dev => (devfsReaddir s F idx).result
      | .ext2 => (ext2Readdir F d idx null).result := by
  rw [vfsReaddir, State.deref, hget, ofOption_some, pure_bind_eq, hfs, dispatch, State.vfs, hF,
    ofOption_some, pure_bind_eq, result_bind]
  show (match F.kind with
    | .mem => memfsReaddir s d idx
    | .dev => devfsReaddir s F idx
    | .ext2 => ext2Readdir F d idx null).result = _
  cases F.kind <;> rfl

theorem nameOf_result {l : List Addr} (h : ∀ k ∈ l, ∃ c, s.nodes k = some c) (i : ℕ) :
    (match l[i]? with
      | some k => do
        let c ← s.deref (.node k)
        pure (.ok (.name c.name))
      | none => pure (.error enoent) : Do (Except ℤ NameOut)).result =
    .ok (match (s.names l)[i]? with
      | some name => .ok (.name name)
      | none => .error enoent) := by
  rw [getElem?_names h]
  cases hk : l[i]? with
  | none => rfl
  | some k =>
    obtain ⟨c, hc⟩ := h k (mem_of_getElem? hk)
    dsimp only
    rw [State.deref, State.get, hc, ofOption_some, pure_bind_eq, bind_some, hc]
    rfl

theorem Inv.child_node {a : Addr} (hI : Inv s) (h : Live s (.node a) d F)
    (hs : d.shape = .memfsNode) : ∀ k ∈ d.children, ∃ c, s.nodes k = some c := by
  intro k hk
  obtain ⟨-, c, hc, -⟩ := (hI.node a d F h).child hs k hk
  exact ⟨c, hc.1⟩

theorem readdir_mem {a : Addr} (hI : Inv s) (h : Live s (.node a) d F)
    (hn : d.type ≠ .mountpoint) (hs : d.shape = .memfsNode) (idx : ℕ) (null : Bool) :
    (vfsReaddir s (.node a) idx null).result = .ok (match idx with
      | 0 => .ok (.name dot)
      | 1 => .ok (.name dotDot)
      | i + 2 => match (s.names d.children)[i]? with
        | some name => .ok (.name name)
        | none => .error enoent) := by
  have hkind : F.kind = .mem := by rw [← hI.kind h, hs, Shape.kind]
  rw [readdir_result h.get (hI.plain h hn) h.fs, hkind]
  rcases idx with _ | _ | i
  · rfl
  · rfl
  · rw [memfsReaddir, if_neg (by omega), if_neg (by omega), if_neg (not_not.mpr hs)]
    exact nameOf_result (hI.child_node h hs) i

/-- **The root of devfs**: the devices, after as many calls that fail as memfs has
entries of its own. -/
theorem readdir_dev (hI : Inv s) (h : Live s p d F) (hn : d.type ≠ .mountpoint)
    (hkind : F.kind = .dev) (idx : ℕ) (null : Bool) :
    (vfsReaddir s p idx null).result = .ok (match (s.names F.devices)[sub32 idx 2]? with
      | some name => .ok (.name name)
      | none => .error enoent) := by
  have hdevices : ∀ k ∈ F.devices, ∃ c, s.nodes k = some c := by
    intro k hk
    obtain ⟨c, hc, -⟩ := (hI.fs _ F h.fs h.fsKept).device k hk
    exact ⟨c, hc⟩
  rw [readdir_result h.get (hI.plain h hn) h.fs, hkind]
  exact nameOf_result hdevices _

theorem readdir_ext2 (hI : Inv s) (h : Live s p d F) (hn : d.type ≠ .mountpoint)
    (hkind : F.kind = .ext2) (idx : ℕ) (null : Bool) :
    (vfsReaddir s p idx null).result = .ok (match (live (F.disk.entries d.id))[idx]? with
      | some e => .ok (if null then .same else .name e.name)
      | none => .error enoent) := by
  have hs : d.shape = .ext2Node := kind_eq_ext2_iff.mp ((hI.kind h).trans hkind)
  rw [readdir_result h.get (hI.plain h hn) h.fs, hkind]
  rw [ext2Readdir, if_neg (not_not.mpr hs)]
  cases (live (F.disk.entries d.id))[idx]? with
  | none => rfl
  | some e => rfl

end Readdir

/-! ### Looking up `..` -/

section Climb

variable {s : State} {n : Node} {F : Fs}

theorem lookup_dotDot_of_found (hI : Inv s) (hdots : DotDots s) {p : Ptr} {k : Addr} {m : Node}
    {M : Fs} (hget : s.get p = some n) (hdir : n.type = .dir)
    (hfound : (fsLookup s p n dotDot).result = .ok (.ok (some (.node k))))
    (hm : Live s (.node k) m M) :
    ∃ q, (vfsLookup s p dotDot).result = .ok (.ok q) := by
  by_cases hmp : m.type = .mountpoint
  · obtain ⟨⟨G, r, hG, -, -, -, hpar⟩, -, -⟩ := (hI.node k m M hm).mount hmp
    rw [lookup_of_mountpoint hget hdir hfound hm.get hmp hG hpar]
    obtain ⟨r, hr, -, hno⟩ := (climb_total hI _ (Nat.lt_succ_of_lt (hI.next k m hm.get).1)
      ((patched_self s k).patch (Nat.le_refl k) m.made) hm hmp
      (patch_get_self m.made hm.get)).exists_result
    cases r with
    | error e => exact absurd hdots (hno e rfl)
    | ok q => exact ⟨q, hr⟩
  · exact ⟨_, lookup_of_found hget hdir hfound hm.get hmp⟩

theorem lookup_dotDot_mem (hI : Inv s) (hdots : DotDots s) {a : Addr} (h : Live s (.node a) n F)
    (hdir : n.type = .dir) (hs : n.shape = .memfsNode) :
    ∃ q, (vfsLookup s (.node a) dotDot).result = .ok (.ok q) := by
  have hkind : F.kind = .mem := by rw [← hI.kind h, hs, Shape.kind]
  have hfs : s.fss n.fs = some F := by rw [hI.plain h (by simp [hdir])]; exact h.fs
  have hup : Found s (.node a) n F dotDot (.node n.up) := .up hs rfl
  obtain ⟨m, M, hm⟩ := hup.live hI h
  exact lookup_dotDot_of_found hI hdots h.get hdir (fsLookup_up hfs hkind hs) hm

end Climb

/-! ### Looking up names in a memfs -/

section Names

variable {s : State} {a : Addr} {d : Node} {F : Fs} {name : Name}

theorem fsLookup_child (p : Ptr) (hF : s.fss d.fs = some F) (hkind : F.kind = .mem)
    (hs : d.shape = .memfsNode) (hname : name ≠ dot ∧ name ≠ dotDot) :
    (fsLookup s p d name).result = .ok (match d.children.find? (s.named name) with
      | some k => .ok (some (.node k))
      | none => .error enoent) := by
  rw [fsLookup_result hF, hkind]
  rw [memfsLookup, if_neg hname.1, if_neg (not_not.mpr hs), if_neg hname.2]
  cases d.children.find? (s.named name) with
  | none => rfl
  | some k => rfl

theorem named_iff {k : Addr} : s.named name k = true ↔ ∃ c, s.nodes k = some c ∧ c.name = name := by
  simp [State.named, map_eq_some_iff]

theorem find_named_eq_none {l : List Addr} :
    l.find? (s.named name) = none ↔ name ∉ s.names l := by
  rw [find?_eq_none, mem_names]
  simp only [named_iff]
  constructor
  · rintro h ⟨k, hk, hc⟩
    exact h k hk hc
  · intro h k hk hc
    exact h ⟨k, hk, hc⟩

theorem lookup_mem_none (hI : Inv s) (h : Live s (.node a) d F) (hdir : d.type = .dir)
    (hs : d.shape = .memfsNode) (hname : name ≠ dot ∧ name ≠ dotDot)
    (hnone : name ∉ s.names d.children) :
    (vfsLookup s (.node a) name).result = .ok (.error enoent) := by
  have hkind : F.kind = .mem := by rw [← hI.kind h, hs, Shape.kind]
  have hfs : s.fss d.fs = some F := by rw [hI.plain h (by simp [hdir])]; exact h.fs
  refine lookup_of_error h.get hdir ?_
  rw [fsLookup_child _ hfs hkind hs hname, find_named_eq_none.mpr hnone]

theorem lookup_mem_child (hI : Inv s) (h : Live s (.node a) d F) (hdir : d.type = .dir)
    (hs : d.shape = .memfsNode) (hname : name ≠ dot ∧ name ≠ dotDot) {k : Addr} {c : Node}
    (hk : d.children.find? (s.named name) = some k) (hc : s.nodes k = some c) :
    (c.type ≠ .mountpoint ∧ (vfsLookup s (.node a) name).result = .ok (.ok (.node k))) ∨
      (c.type = .mountpoint ∧ ∃ H r, s.fss c.fs = some H ∧ H.root = some r ∧
        (vfsLookup s (.node a) name).result = .ok (.ok (.node r))) := by
  have hkind : F.kind = .mem := by rw [← hI.kind h, hs, Shape.kind]
  have hfs : s.fss d.fs = some F := by rw [hI.plain h (by simp [hdir])]; exact h.fs
  have hfound := fsLookup_child (.node a) hfs hkind hs hname
  rw [hk] at hfound
  by_cases hmp : c.type = .mountpoint
  · obtain ⟨-, c', hc', -⟩ := (hI.node a d F h).child hs k (mem_of_find?_eq_some hk)
    obtain rfl := mem_unique hc hc'.1
    obtain ⟨⟨G, r, hG, -, hr, -⟩, -⟩ := (hI.node k c F (hc'.live h.fs h.fsKept)).mount hmp
    refine .inr ⟨hmp, G, r, hG, hr, ?_⟩
    rw [vfsLookup, lookup_of_dir h.get (.inl hdir), hfound]
    show (s.deref (.node k) >>= _).result = _
    rw [State.deref, State.get, hc, ofOption_some, pure_bind_eq, if_neg (not_not.mpr hmp),
      if_neg hname.2, rootOf_eq hG hr, pure_bind_eq]
    rfl
  · exact .inl ⟨hmp, lookup_of_found h.get hdir hfound hc hmp⟩

theorem lookup_dot_self {p : Ptr} (hI : Inv s) (h : Live s p d F) (hdir : d.type = .dir) :
    (vfsLookup s p dot).result = .ok (.ok p) := by
  have hfs : s.fss d.fs = some F := by rw [hI.plain h (by simp [hdir])]; exact h.fs
  have hfound : (fsLookup s p d dot).result = .ok (.ok (some p)) := by
    rw [fsLookup_result hfs]
    cases F.kind <;> rfl
  exact lookup_of_found h.get hdir hfound h.get (by simp [hdir])

theorem lookup_mem_iff (hI : Inv s) (hdots : DotDots s) (h : Live s (.node a) d F)
    (hdir : d.type = .dir) (hs : d.shape = .memfsNode) :
    (∃ q, (vfsLookup s (.node a) name).result = .ok (.ok q)) ↔
      name = dot ∨ name = dotDot ∨ name ∈ s.names d.children := by
  by_cases hdot : name = dot
  · subst hdot
    exact iff_of_true ⟨_, lookup_dot_self hI h hdir⟩ (.inl rfl)
  by_cases hdd : name = dotDot
  · subst hdd
    exact iff_of_true (lookup_dotDot_mem hI hdots h hdir hs) (.inr (.inl rfl))
  cases hk : d.children.find? (s.named name) with
  | none =>
    have hnone := find_named_eq_none.mp hk
    rw [lookup_mem_none hI h hdir hs ⟨hdot, hdd⟩ hnone]
    simp [hdot, hdd, hnone]
  | some k =>
    have hmem := mem_of_find?_eq_some hk
    obtain ⟨c, hc, hcname⟩ := named_iff.mp (find?_some hk)
    have hnames : name ∈ s.names d.children := mem_names.mpr ⟨k, hmem, c, hc, hcname⟩
    refine iff_of_true ?_ (.inr (.inr hnames))
    rcases lookup_mem_child hI h hdir hs ⟨hdot, hdd⟩ hk hc with ⟨-, hq⟩ | ⟨-, -, r, -, -, hq⟩
    · exact ⟨_, hq⟩
    · exact ⟨_, hq⟩

end Names

end Vfs

/-! ### Directories of an ext2 file system as bytes -/

namespace Ext2

variable {m : Type → Type} [Monad m] (v : Volume m)

/-- `readdir_cb`, with `iter` and `*name_out` of its context. -/
def readdirCb (idx : ℕ) (e : DirEntry) (c : ℕ × Option (List ℕ)) : m (ℕ × Option (List ℕ)) :=
  if c.1 ≠ idx then pure (c.1 + 1, c.2) else pure (c.1 + 1, some (e.name.take (nameLen v e)))

/-- `ext2_readdir`: what it returns, and the name it stores if it stores one. -/
def ext2Readdir (d : Node) (idx : ℕ) (null : Bool) : ExceptT Fault m (ℤ × Option (List ℕ)) := do
  let c ← iterateDirents v (readdirCb v idx) d.inode (0, none)
  match c.2 with
  | none => pure (enoent, none)
  | some temp => pure (0, if null then none else some temp)

section Readdir

variable {v} [LawfulMonad m]

theorem foldlM_readdir (idx : ℕ) (es : List Entry) (iter : ℕ) (temp : Option (List ℕ)) :
    es.foldlM (fun (c : ℕ × Option (List ℕ)) e =>
        (pure (c.1 + 1, if c.1 ≠ idx then c.2 else some e.name) : m (ℕ × Option (List ℕ))))
        (iter, temp) =
      pure (iter + es.length,
        if iter ≤ idx then (es[idx - iter]?.map Entry.name).or temp else temp) := by
  induction es generalizing iter temp with
  | nil => simp
  | cons e es ih =>
    rw [List.foldlM_cons, pure_bind, ih, List.length_cons]
    congr 2
    · omega
    rcases Nat.lt_trichotomy iter idx with hlt | rfl | hgt
    · obtain ⟨k, rfl⟩ : ∃ k, idx = iter + 1 + k := ⟨idx - (iter + 1), by omega⟩
      have hsub : iter + 1 + k - iter = k + 1 := by omega
      rw [if_pos (Nat.le_add_right _ _), if_pos (by omega), if_pos (by omega),
        Nat.add_sub_cancel_left, hsub, List.getElem?_cons_succ]
    · rw [if_neg (by omega), if_neg (by omega), if_pos (Nat.le_refl _), Nat.sub_self]
      rfl
    · rw [if_neg (by omega), if_pos (by omega), if_neg (by omega)]

/-- **`ext2_readdir`** gives out the live entries of a well-formed directory. -/
theorem ext2Readdir_disk {d : Node} {blocks : List (List Entry)}
    (hdir : WellFormed v d.inode blocks) (idx : ℕ) (null : Bool) :
    ext2Readdir v d idx null = pure (match (live blocks.flatten)[idx]? with
      | none => (enoent, none)
      | some e => (0, if null then none else some e.name)) := by
  have hcb : ∀ (d : DirEntry) (e : Entry) (c : ℕ × Option (List ℕ)), Describes v d e →
      readdirCb v idx d c = pure (c.1 + 1, if c.1 ≠ idx then c.2 else some e.name) := by
    intro d e c hd
    have hname : d.name.take (nameLen v d) = e.name := by
      rw [hd.nameLen]
      exact (List.prefix_iff_eq_take.mp hd.name).symm
    rw [readdirCb, hname]
    by_cases hidx : c.1 ≠ idx
    · rw [if_pos hidx, if_pos hidx]
    · rw [if_neg hidx, if_neg hidx]
  have hiter : iterateDirents v (readdirCb v idx) d.inode (0, none) =
      liftM ((live blocks.flatten).foldlM (fun (c) e =>
        (pure (c.1 + 1, if c.1 ≠ idx then c.2 else some e.name)))
        (0, none)) := iterateDirents_eq hcb hdir _
  rw [ext2Readdir, hiter, foldlM_readdir, liftM_pure, pure_bind]
  cases (live blocks.flatten)[idx]? with
  | none => rfl
  | some e => rfl

end Readdir

theorem ext2Readdir_disk_foo :
    ext2Readdir fooVolume fooDir 2 false = pure (0, some [102, 111, 111]) :=
  ext2Readdir_disk fooDir_wellFormed 2 false

end Ext2
