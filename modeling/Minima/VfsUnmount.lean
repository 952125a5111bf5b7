/-
Unmounting a file system.

`vfs_unmount` takes the mount out of the node mounted on and then calls
`fs->ops->unmount`, which may refuse: devfs and ext2 always do.  The root file
system is mounted on no node, so it fails the assertion that its parent node is a
mountpoint.  Only `memfs_unmount` does anything: it goes through the directories of
the memfs, and through what is mounted in them.

* `Down`, `OnlyMemfs` — what `memfs_recurse_free` comes to, and that it is all memfs;
* `reach_disjoint` — it comes to every node in one way only;
* `memfsRecurseFree_ok_iff` — the walk up to the first node that is not of a memfs;
* `returnsAtomically_of_onlyMemfs`, `not_returnsAtomically` — a memfs with memfs below
  is unmounted; devfs, ext2 and the root file system are not, and leave a trace;
* `unmount_leaves_traces` — a refused unmount of devfs and of ext2, and the one of
  the root file system.
-/
import Minima.VfsListing

namespace Vfs

open List Option
open Ext2 (Entry lastPrefix live dot dotDot enoent)
open Traced

/-! ### Going down through directories and mounts -/

/-- The entry `c` at `k` leads to `b`: it is there, or `b` is the root of what is mounted on it. -/
def Leads (s : State) (k : Addr) (c : Node) (b : Addr) : Prop :=
  (c.type ≠ .mountpoint ∧ b = k) ∨
    (c.type = .mountpoint ∧ ∃ H, s.fss c.fs = some H ∧ H.root = some b)

/-- An entry of the memfs directory at `a` leads to `b`. -/
def Down (s : State) (a b : Addr) : Prop :=
  ∃ d k c, s.nodes a = some d ∧ d.shape = .memfsNode ∧ d.type = .dir ∧ k ∈ d.children ∧
    s.nodes k = some c ∧ Leads s k c b

/-- From `a` down there are nodes of memfs only. -/
def OnlyMemfs (s : State) (a : Addr) : Prop :=
  ∀ b, Relation.ReflTransGen (Down s) a b → ∃ n, s.nodes b = some n ∧ n.shape = .memfsNode

section Down

variable {s : State} {a b : Addr} {d : Node} {F : Fs}

theorem Down.live (hI : Inv s) (ha : Live s (.node a) d F) (h : Down s a b) :
    a < b ∧ ∃ n G, Live s (.node b) n G := by
  obtain ⟨d', k, c, hd, hs, -, hk, hc, hb⟩ := h
  obtain rfl := mem_unique ha.get hd
  obtain ⟨hlt, c', hc', -⟩ := (hI.node a d F ha).child hs k hk
  obtain rfl := mem_unique hc hc'.1
  have hlive := hc'.live ha.fs ha.fsKept
  rcases hb with ⟨-, rfl⟩ | ⟨hmp, H, hH, hr⟩
  · exact ⟨hlt, c, F, hlive⟩
  · -- the node mounted on is older than the root of what is mounted
    obtain ⟨⟨H', r, hH', hk', -, hpar, -⟩, -⟩ := (hI.node k c F hlive).mount hmp
    obtain rfl := mem_unique hH hH'
    obtain ⟨m, hm, -⟩ := hI.live_root hH hk' hr
    refine ⟨Nat.lt_of_lt_of_le hlt ?_, m, H, hm⟩
    rcases (hI.fs _ H hH hk').parent b hr with ⟨-, hself⟩ | ⟨-, j, -, -, hj, -, hjb, -⟩
    · exact Nat.le_of_eq (some_inj.mp (hpar.symm.trans hself))
    · obtain rfl := mem_unique hpar hj
      exact Nat.le_of_lt hjb

theorem live_of_reach (hI : Inv s) (ha : Live s (.node a) d F)
    (h : Relation.ReflTransGen (Down s) a b) : a ≤ b ∧ ∃ n G, Live s (.node b) n G := by
  induction h with
  | refl => exact ⟨Nat.le_refl _, d, F, ha⟩
  | tail _ hdown ih =>
    obtain ⟨hle, n, G, hn⟩ := ih
    obtain ⟨hlt, hlive⟩ := hdown.live hI hn
    exact ⟨Nat.le_of_lt (Nat.lt_of_le_of_lt hle hlt), hlive⟩

variable {k k' : Addr} {c c' : Node} {a' : Addr} {d' : Node} {F' : Fs}

/-- The root of what is mounted on an entry is a directory, and leads back to the entry. -/
theorem mounted_root (hI : Inv s) (ha : Live s (.node a) d F) (hs : d.shape = .memfsNode)
    (hk : k ∈ d.children) (hc : s.nodes k = some c) (hmp : c.type = .mountpoint) {H : Fs}
    (hH : s.fss c.fs = some H) (hb : H.root = some b) :
    ∃ m, s.nodes b = some m ∧ m.type = .dir ∧ m.made = c.fs ∧ H.parentNode = some k ∧
      (m.shape = .memfsNode → m.up = k) := by
  obtain ⟨-, c', hc', -⟩ := (hI.node a d F ha).child hs k hk
  obtain rfl := mem_unique hc hc'.1
  have hlive := hc'.live ha.fs ha.fsKept
  obtain ⟨⟨H', _, hH', hkept, -, hpar, -⟩, -⟩ := (hI.node k c F hlive).mount hmp
  obtain rfl := mem_unique hH hH'
  obtain ⟨m, hm, hmade, hdir, -⟩ := hI.live_root hH hkept hb
  refine ⟨m, hm.get, hdir, hmade, hpar, fun hshape => ?_⟩
  obtain ⟨m', hm', -, -, -, -, -, hup⟩ := (hI.fs _ H hH hkept).root b hb
  obtain rfl := mem_unique hm.get hm'
  have hkind : H.kind = .mem := by rw [← hI.kind hm, hshape, Shape.kind]
  exact (some_inj.mp (hpar.symm.trans (hup hkind))).symm

theorem Down.plain (hI : Inv s) (ha : Live s (.node a) d F) (h : Down s a b) {n : Node}
    (hn : s.nodes b = some n) : n.type ≠ .mountpoint := by
  obtain ⟨d', k, c, hd, hs, -, hk, hc, ⟨hplain, rfl⟩ | ⟨hmp, H, hH, hr⟩⟩ := h
  · obtain rfl := mem_unique hc hn
    exact hplain
  · obtain rfl := mem_unique ha.get hd
    obtain ⟨m, hm, hdir, -⟩ := mounted_root hI ha hs hk hc hmp hH hr
    obtain rfl := mem_unique hm hn
    simp [hdir]

/-- What is mounted somewhere is not an entry of a directory: it has the node mounted on above
itself, which is not a directory. -/
theorem entry_not_mounted (hI : Inv s) (ha : Live s (.node a) d F) (ha' : Live s (.node a') d' F')
    (hs : d.shape = .memfsNode) (hs' : d'.shape = .memfsNode) (hdir : d.type = .dir)
    (hk : k ∈ d.children) (hk' : k' ∈ d'.children) (hc' : s.nodes k' = some c')
    (hmp : c'.type = .mountpoint) {H : Fs} (hH : s.fss c'.fs = some H) : H.root ≠ some k := by
  intro hr
  obtain ⟨m, hm, -, -, -, hup⟩ := mounted_root hI ha' hs' hk' hc' hmp hH hr
  obtain ⟨-, m', hm', hmup, -⟩ := (hI.node a d F ha).child hs k hk
  obtain rfl := mem_unique hm hm'.1
  rw [hup hm'.2.2.2] at hmup
  subst hmup
  obtain rfl := mem_unique hc' ha.get
  rw [hmp] at hdir
  cases hdir

/-- **One entry leads to a node.** -/
theorem entry_unique (hI : Inv s) (ha : Live s (.node a) d F) (ha' : Live s (.node a') d' F')
    (hs : d.shape = .memfsNode) (hs' : d'.shape = .memfsNode) (hdir : d.type = .dir)
    (hdir' : d'.type = .dir) (hk : k ∈ d.children) (hk' : k' ∈ d'.children)
    (hc : s.nodes k = some c) (hc' : s.nodes k' = some c') (hb : Leads s k c b)
    (hb' : Leads s k' c' b) : k = k' := by
  rcases hb with ⟨-, rfl⟩ | ⟨hmp, H, hH, hr⟩
  · rcases hb' with ⟨-, rfl⟩ | ⟨hmp', H', hH', hr'⟩
    · rfl
    · exact absurd hr' (entry_not_mounted hI ha ha' hs hs' hdir hk hk' hc' hmp' hH')
  · rcases hb' with ⟨-, rfl⟩ | ⟨hmp', H', hH', hr'⟩
    · exact absurd hr (entry_not_mounted hI ha' ha hs' hs hdir' hk' hk hc hmp hH)
    · obtain ⟨m, hm, -, hmade, hpar, -⟩ := mounted_root hI ha hs hk hc hmp hH hr
      obtain ⟨m', hm', -, hmade', hpar', -⟩ := mounted_root hI ha' hs' hk' hc' hmp' hH' hr'
      obtain rfl := mem_unique hm hm'
      rw [← hmade, hmade', hH'] at hH
      cases hH
      exact some_inj.mp (hpar.symm.trans hpar')

theorem down_unique (hI : Inv s) (ha : Live s (.node a) d F) (ha' : Live s (.node a') d' F')
    (h : Down s a b) (h' : Down s a' b) : a = a' := by
  obtain ⟨_, k, c, hd, hs, hdir, hk, hc, hb⟩ := h
  obtain rfl := mem_unique ha.get hd
  obtain ⟨_, k', c', hd', hs', hdir', hk', hc', hb'⟩ := h'
  obtain rfl := mem_unique ha'.get hd'
  obtain rfl := entry_unique hI ha ha' hs hs' hdir hdir' hk hk' hc hc' hb hb'
  obtain ⟨-, c1, hc1, hup, -⟩ := (hI.node a d F ha).child hs k hk
  obtain ⟨-, c2, hc2, hup', -⟩ := (hI.node a' d' F' ha').child hs' k hk'
  obtain rfl := mem_unique hc1.1 hc2.1
  exact hup.symm.trans hup'

/-- What one entry leads down to, another does not. -/
theorem reach_disjoint (hI : Inv s) (ha : Live s (.node a) d F) {b' x : Addr} (hb : Down s a b)
    (hb' : Down s a b') (h : Relation.ReflTransGen (Down s) b x)
    (h' : Relation.ReflTransGen (Down s) b' x) : b = b' := by
  obtain ⟨hab, n, G, hn⟩ := hb.live hI ha
  obtain ⟨hab', n', G', hn'⟩ := hb'.live hI ha
  -- neither leads back up
  have hnot : ∀ {x y z : Addr} {n : Node} {G : Fs}, Live s (.node y) n G → a < y →
      Relation.ReflTransGen (Down s) y z → Down s z x → Down s a x → False := by
    intro x y z n G hy hay hz hzx hax
    obtain ⟨hle, m, M, hm⟩ := live_of_reach hI hy hz
    obtain rfl := down_unique hI hm ha hzx hax
    exact Nat.lt_irrefl _ (Nat.lt_of_lt_of_le hay hle)
  induction h with
  | refl =>
    rcases h'.cases_tail with rfl | ⟨z, hz, hzx⟩
    · rfl
    · exact (hnot hn' hab' hz hzx hb).elim
  | tail hy hyx ih =>
    rcases h'.cases_tail with rfl | ⟨z, hz, hzx⟩
    · exact (hnot hn hab hy hyx hb').elim
    · obtain ⟨-, m, M, hm⟩ := live_of_reach hI hn hy
      obtain ⟨-, m', M', hm'⟩ := live_of_reach hI hn' hz
      obtain rfl := down_unique hI hm hm' hyx hzx
      exact ih hz

theorem onlyMemfs_iff (ha : s.nodes a = some d) :
    OnlyMemfs s a ↔ d.shape = .memfsNode ∧ ∀ b, Down s a b → OnlyMemfs s b := by
  constructor
  · intro h
    obtain ⟨d', hd', hs⟩ := h a .refl
    obtain rfl := mem_unique ha hd'
    exact ⟨hs, fun b hb c hc => h c (.head hb hc)⟩
  · rintro ⟨hs, h⟩ b hb
    rcases hb.cases_head with rfl | ⟨c, hc, hcb⟩
    · exact ⟨d, ha, hs⟩
    · exact h c hc b hcb

theorem lookup_listed (hI : Inv s) (ha : Live s (.node a) d F) (hdir : d.type = .dir)
    (hs : d.shape = .memfsNode) {name : Name} (hname : name ∈ s.names d.children) :
    ∃ b, Down s a b ∧ (vfsLookup s (.node a) name).result = .ok (.ok (.node b)) := by
  cases hfind : d.children.find? (s.named name) with
  | none => exact absurd hname (find_named_eq_none.mp hfind)
  | some k =>
    have hk := mem_of_find?_eq_some hfind
    obtain ⟨c, hc, hcname⟩ := named_iff.mp (find?_some hfind)
    obtain ⟨-, c', hc', -, hdots⟩ := (hI.node a d F ha).child hs k hk
    obtain rfl := mem_unique hc hc'.1
    rw [hcname] at hdots
    rcases lookup_mem_child hI ha hdir hs hdots hfind hc with
      ⟨hmp, hq⟩ | ⟨hmp, H, r, hH, hr, hq⟩
    · exact ⟨k, ⟨d, k, c, ha.get, hs, hdir, hk, hc, .inl ⟨hmp, rfl⟩⟩, hq⟩
    · exact ⟨r, ⟨d, k, c, ha.get, hs, hdir, hk, hc, .inr ⟨hmp, H, hH, hr⟩⟩, hq⟩

section

variable (hI : Inv s) (hS : Siblings s) (ha : Live s (.node a) d F)
include hI hS ha

theorem find_child (hdir : d.type = .dir) (hs : d.shape = .memfsNode) (hk : k ∈ d.children)
    (hc : s.nodes k = some c) :
    d.children.find? (s.named c.name) = some k := by
  cases hfind : d.children.find? (s.named c.name) with
  | none =>
    have hname : c.name ∈ s.names d.children := mem_names.mpr ⟨k, hk, c, hc, rfl⟩
    exact absurd hname (find_named_eq_none.mp hfind)
  | some k' =>
    obtain ⟨c', hc', hname⟩ := named_iff.mp (find?_some hfind)
    have hnodup := (hS a d ha.get).2 (.inl hdir)
    rw [eq_of_name_eq (hI.child_node ha hs) hnodup hk (mem_of_find?_eq_some hfind) hc hc'
      hname.symm]

theorem lookup_child_iff (hs : d.shape = .memfsNode) (hdir : d.type = .dir) (hk : k ∈ d.children)
    (hc : s.nodes k = some c) :
    (vfsLookup s (.node a) c.name).result = .ok (.ok (.node b)) ↔ Leads s k c b := by
  obtain ⟨-, c', hc', -, hdots⟩ := (hI.node a d F ha).child hs k hk
  obtain rfl := mem_unique hc hc'.1
  have hfind := find_child hI hS ha hdir hs hk hc
  rcases lookup_mem_child hI ha hdir hs hdots hfind hc with ⟨hmp, hq⟩ | ⟨hmp, H, r, hH, hr, hq⟩
  · rw [hq]
    simp [Leads, hmp, eq_comm]
  · rw [hq]
    simp [Leads, hmp, hH, hr]

theorem listed_of_down (h : Down s a b) :
    ∃ name ∈ s.names d.children, (vfsLookup s (.node a) name).result = .ok (.ok (.node b)) := by
  obtain ⟨d', k, c, hd, hs, hdir, hk, hc, hb⟩ := h
  obtain rfl := mem_unique ha.get hd
  exact ⟨c.name, mem_names.mpr ⟨k, hk, c, hc, rfl⟩,
    (lookup_child_iff hI hS ha hs hdir hk hc).mpr hb⟩

end

variable {s' : State}

theorem down_congr (hI : Inv s) (hnodes : ∀ j, k < j → s'.nodes j = s.nodes j)
    (hfss : s'.fss = s.fss) (ha : Live s (.node a) d F) (hka : k < a) :
    Down s' a b ↔ Down s a b := by
  rw [Down, Down, hnodes a hka]
  simp only [Leads, hfss]
  refine exists_congr fun d' => exists_congr fun j => exists_congr fun c => ?_
  refine and_congr_right fun hd => and_congr_right fun hs => and_congr_right fun _ =>
    and_congr_right fun hj => ?_
  obtain rfl := mem_unique ha.get hd
  rw [hnodes j (Nat.lt_trans hka ((hI.node a d F ha).child hs j hj).1)]

theorem reach_congr (hI : Inv s) (hnodes : ∀ j, k < j → s'.nodes j = s.nodes j)
    (hfss : s'.fss = s.fss) (ha : Live s (.node a) d F) (hka : k < a) :
    Relation.ReflTransGen (Down s') a b ↔ Relation.ReflTransGen (Down s) a b := by
  constructor
  · intro h
    induction h with
    | refl => exact .refl
    | tail _ hdown ih =>
      obtain ⟨hle, n, G, hn⟩ := live_of_reach hI ha ih
      exact ih.tail ((down_congr hI hnodes hfss hn (Nat.lt_of_lt_of_le hka hle)).mp hdown)
  · intro h
    induction h with
    | refl => exact .refl
    | tail hab hdown ih =>
      obtain ⟨hle, n, G, hn⟩ := live_of_reach hI ha hab
      exact ih.tail ((down_congr hI hnodes hfss hn (Nat.lt_of_lt_of_le hka hle)).mpr hdown)

theorem onlyMemfs_congr (hI : Inv s) (hnodes : ∀ j, k < j → s'.nodes j = s.nodes j)
    (hfss : s'.fss = s.fss) (ha : Live s (.node a) d F) (hka : k < a) :
    OnlyMemfs s' a ↔ OnlyMemfs s a := by
  refine forall_congr' fun b => ?_
  rw [reach_congr hI hnodes hfss ha hka]
  refine imp_congr_right fun hb => ?_
  rw [hnodes b (Nat.lt_of_lt_of_le hka (live_of_reach hI ha hb).1)]

end Down

/-! ### `memfs_recurse_free` -/

section Free

variable {s : State} {a : Addr} {d : Node} {F : Fs}

theorem dispatch_readdir (hF : s.fss d.fs = some F) :
    (dispatch s .readdir d.fs d).result = .ok F := by
  rw [dispatch, State.vfs, hF, ofOption_some, pure_bind_eq]
  rfl

variable {recurse : Ptr → Do (List Addr)} {names : List Name} {l : List Addr}

/-- One round of the loop: the name leads to a node of a memfs, the recursion on it
returns if it is a directory, and so does the rest of the loop. -/
theorem freeEntries_cons_ok (hF : s.fss d.fs = some F) {name : Name} :
    (freeEntries recurse s (.node a) d (name :: names)).result = .ok l ↔
      ∃ b n below rest, (vfsLookup s (.node a) name).result = .ok (.ok (.node b)) ∧
        s.nodes b = some n ∧ n.shape = .memfsNode ∧
        (if n.type = .dir then recurse (.node b) else pure []).result = .ok below ∧
        (freeEntries recurse s (.node a) d names).result = .ok rest ∧
        l = below ++ b :: rest := by
  constructor
  · intro hl
    obtain ⟨_, _, hl⟩ := result_bind_eq_ok.mp hl
    obtain ⟨found, hfound, hl⟩ := result_bind_eq_ok.mp hl
    rcases found with e | b | ⟨g, i⟩
    · cases hl
    · obtain ⟨n, hn, hl⟩ := result_bind_eq_ok.mp hl
      have hget : s.nodes b = some n := result_ofOption.mp hn
      by_cases hs : n.shape ≠ .memfsNode
      · rw [if_pos hs] at hl
        cases hl
      rw [if_neg hs, ← apply_ite (· >>= _)] at hl
      obtain ⟨below, hbelow, hl⟩ := result_bind_eq_ok.mp hl
      obtain ⟨rest, hrest, hl⟩ := result_bind_eq_ok.mp hl
      cases hl
      exact ⟨b, n, below, rest, hfound, hget, not_not.mp hs, hbelow, hrest, rfl⟩
    · cases hl
  · rintro ⟨b, n, below, rest, hfound, hn, hs, hbelow, hrest, rfl⟩
    refine result_bind_eq_ok.mpr ⟨F, dispatch_readdir hF, result_bind_eq_ok.mpr ⟨_, hfound, ?_⟩⟩
    refine result_bind_eq_ok.mpr ⟨n, result_ofOption.mpr hn, ?_⟩
    rw [if_neg (not_not.mpr hs), ← apply_ite (· >>= _)]
    exact result_bind_eq_ok.mpr ⟨below, hbelow, result_bind_eq_ok.mpr ⟨rest, hrest, rfl⟩⟩

theorem freeEntries_nil_ok (hF : s.fss d.fs = some F) :
    (freeEntries recurse s (.node a) d []).result = .ok l ↔ l = [] := by
  rw [freeEntries, result_bind, dispatch_readdir hF]
  constructor
  · intro h
    cases h
    rfl
  · rintro rfl
    rfl

theorem freeEntries_ok_iff (hF : s.fss d.fs = some F) :
    (∃ l, (freeEntries recurse s (.node a) d names).result = .ok l) ↔
      ∀ name ∈ names, ∃ b n, (vfsLookup s (.node a) name).result = .ok (.ok (.node b)) ∧
        s.nodes b = some n ∧ n.shape = .memfsNode ∧
        (n.type = .dir → ∃ l, (recurse (.node b)).result = .ok l) := by
  induction names with
  | nil => exact iff_of_true ⟨[], (freeEntries_nil_ok hF).mpr rfl⟩ (by simp)
  | cons name names ih =>
    rw [forall_mem_cons]
    refine Iff.trans ?_ (and_congr_right fun _ => ih)
    constructor
    · rintro ⟨l, hl⟩
      obtain ⟨b, n, below, rest, hq, hn, hs, hbelow, hrest, -⟩ := (freeEntries_cons_ok hF).mp hl
      refine ⟨⟨b, n, hq, hn, hs, fun hdir => ⟨below, ?_⟩⟩, rest, hrest⟩
      rw [if_pos hdir] at hbelow
      exact hbelow
    · rintro ⟨⟨b, n, hq, hn, hs, hrec⟩, rest, hrest⟩
      have hbelow : ∃ below,
          (if n.type = .dir then recurse (.node b) else pure []).result = .ok below := by
        by_cases hdir : n.type = .dir
        · rw [if_pos hdir]
          exact hrec hdir
        · rw [if_neg hdir]
          exact ⟨[], rfl⟩
      obtain ⟨below, hbelow⟩ := hbelow
      exact ⟨_, (freeEntries_cons_ok hF).mpr ⟨b, n, below, rest, hq, hn, hs, hbelow, hrest, rfl⟩⟩

theorem memfsRecurseFree_eq (ha : s.nodes a = some d) (hs : d.shape = .memfsNode)
    (hF : s.fss d.fs = some F) (hkind : F.kind = .mem) (depth : ℕ) :
    memfsRecurseFree (depth + 1) s (.node a) =
      freeEntries (memfsRecurseFree depth s) s (.node a) d (s.names d.children) := by
  have hget : s.get (.node a) = some d := ha
  rw [memfsRecurseFree, State.deref, hget, ofOption_some, pure_bind_eq, readdirNames,
    State.vfs, hF, ofOption_some, pure_bind_eq, hkind]
  rw [if_neg (not_not.mpr hs), pure_bind_eq]
  rfl

theorem Inv.memfs_dir (hI : Inv s) (ha : Live s (.node a) d F) (hs : d.shape = .memfsNode)
    (hdir : d.type = .dir) : s.fss d.fs = some F ∧ F.kind = .mem := by
  constructor
  · rw [hI.plain ha (by simp [hdir])]
    exact ha.fs
  · rw [← hI.kind ha, hs, Shape.kind]

/-- **`memfs_recurse_free`** returns iff it comes to nodes of memfs only.  Down is to
younger nodes, so the recursion ends. -/
theorem memfsRecurseFree_ok_iff (hI : Inv s) (hS : Siblings s) (depth : ℕ) :
    ∀ {a : Addr} {d : Node} {F : Fs}, Live s (.node a) d F → d.shape = .memfsNode →
      d.type = .dir → s.next < depth + a →
      ((∃ l, (memfsRecurseFree depth s (.node a)).result = .ok l) ↔ OnlyMemfs s a) := by
  induction depth with
  | zero =>
    intro a d F ha _ _ hlt
    rw [Nat.zero_add] at hlt
    exact absurd (hI.next a d ha.get).1 (Nat.lt_asymm hlt)
  | succ depth ih =>
    intro a d F ha hs hdir hlt
    obtain ⟨hfs, hkind⟩ := hI.memfs_dir ha hs hdir
    have hrec := memfsRecurseFree_eq ha.get hs hfs hkind depth
    rw [hrec, freeEntries_ok_iff hfs, onlyMemfs_iff ha.get]
    -- the same for one node further down
    have hnext : ∀ b, Down s a b → (OnlyMemfs s b ↔ ∃ n, s.nodes b = some n ∧
        n.shape = .memfsNode ∧
        (n.type = .dir → ∃ l, (memfsRecurseFree depth s (.node b)).result = .ok l)) := by
      intro b hb
      obtain ⟨hab, n, G, hn⟩ := hb.live hI ha
      have hlt' : s.next < depth + b := by
        refine Nat.lt_of_lt_of_le hlt ?_
        rw [Nat.add_assoc, Nat.add_comm 1 a]
        exact Nat.add_le_add_left hab depth
      constructor
      · intro honly
        obtain ⟨n', hn', hshape⟩ := honly b .refl
        obtain rfl := mem_unique hn.get hn'
        exact ⟨n, hn', hshape, fun hd => (ih hn hshape hd hlt').mpr honly⟩
      · rintro ⟨n', hn', hshape, hl⟩
        obtain rfl := mem_unique hn.get hn'
        by_cases hd : n.type = .dir
        · exact (ih hn hshape hd hlt').mp (hl hd)
        · refine (onlyMemfs_iff hn').mpr ⟨hshape, ?_⟩
          rintro c ⟨n', -, -, hn'', -, hd', -⟩
          obtain rfl := mem_unique hn' hn''
          exact absurd hd' hd
    constructor
    · intro h
      refine ⟨hs, fun b hb => ?_⟩
      obtain ⟨name, hname, hq⟩ := listed_of_down hI hS ha hb
      obtain ⟨b', n, hq', hn, hrest⟩ := h name hname
      rw [hq] at hq'
      cases hq'
      exact (hnext b hb).mpr ⟨n, hn, hrest⟩
    · rintro ⟨-, h⟩ name hname
      obtain ⟨b, hb, hq⟩ := lookup_listed hI ha hdir hs hname
      obtain ⟨n, hn, hrest⟩ := (hnext b hb).mp (h b hb)
      exact ⟨b, n, hq, hn, hrest⟩

end Free

/-! ### Unmounting -/

/-- The file system `g` is mounted: it is the root file system, or the node it is
mounted on says so. -/
structure MountedFs (s : State) (g : ℕ) (G : Fs) : Prop where
  fs : s.fss g = some G
  kept : G.freed = false
  rooted : G.root ≠ none
  place : s.root = some g ∨
    ∃ k m, G.parentNode = some k ∧ s.nodes k = some m ∧ m.type = .mountpoint ∧ m.fs = g

/-- The `type` and `fs` fields of the nodes and the root file system are as they
were, so every path leads where it led. -/
structure Unchanged (s s' : State) : Prop where
  node : ∀ a, (s'.nodes a).map (fun n => (n.type, n.fs)) = (s.nodes a).map fun n => (n.type, n.fs)
  root : s'.root = s.root
  path : ∀ t path, resolve s' t path = resolve s t path

/-- `vfs_unmount` returns, and if it returns an error it has changed nothing. -/
def ReturnsAtomically (s : State) (t g : ℕ) : Prop :=
  ∃ ret s', (vfsUnmount s t g).result = .ok (ret, s') ∧ (ret ≠ 0 → Unchanged s s')

section Unmount

variable {s : State} {t g : ℕ} {G : Fs}

theorem unmount_root (hI : Inv s) (h : MountedFs s g G) (hroot : s.root = some g) :
    (vfsUnmount s t g).result = .error .assertion := by
  obtain ⟨r, hr⟩ := ne_none_iff_exists'.mp h.rooted
  rcases (hI.fs g G h.fs h.kept).parent r hr with ⟨-, hpar⟩ | ⟨hnot, -⟩
  · obtain ⟨m, hm, -, htype, -⟩ := hI.live_root h.fs h.kept hr
    rw [vfsUnmount, State.vfs, h.fs, ofOption_some, pure_bind_eq, detach, hpar]
    dsimp only
    rw [State.deref, hm.get, ofOption_some, pure_bind_eq, if_pos (by simp [htype])]
    rfl
  · exact absurd hroot hnot

theorem not_unchanged_of_detach {k : Addr} {m : Node} {h : ℕ} (hm : s.nodes k = some m)
    (hmp : m.type = .mountpoint) :
    ¬ Unchanged s (s.modifyNode k fun n => { n with type := .dir, fs := h }) := by
  intro hsame
  have hnode := hsame.node k
  rw [modifyNode_self _ hm, hm, map_some, map_some, some_inj,
    Prod.mk.injEq] at hnode
  rw [hmp] at hnode
  cases hnode.1

/-- The node mounted on is detached before `fs->ops->unmount` is called; it is older than all that
is in the file system. -/
theorem exists_detached (hI : Inv s) (hS : Siblings s) (h : MountedFs s g G)
    (hroot : s.root ≠ some g) :
    ∃ s1 k r, detach s G = pure s1 ∧ ¬ Unchanged s s1 ∧ Inv s1 ∧ Siblings s1 ∧ s1.fss = s.fss ∧
      G.root = some r ∧ k < r ∧ ∀ j, k < j → s1.nodes j = s.nodes j := by
  obtain ⟨k, m, hpar, hm, hmp, -⟩ := h.place.resolve_left hroot
  obtain ⟨r, hr⟩ := ne_none_iff_exists'.mp h.rooted
  rcases (hI.fs g G h.fs h.kept).parent r hr with
    ⟨hself, -⟩ | ⟨-, k', m', F, hpar', hm', hlt, -, hmade⟩
  · exact absurd hself hroot
  · obtain rfl := mem_unique hpar hpar'
    obtain rfl := mem_unique hm hm'.get
    have hdetach : detach s G =
        pure (s.modifyNode k fun n => { n with type := .dir, fs := m.made }) := by
      rw [detach, hpar]
      dsimp only
      rw [State.deref, hm'.get, ofOption_some, pure_bind_eq, if_neg (not_not.mpr hmp), hmade,
        ofOption_some, pure_bind_eq]
    have hdet := congrArg Traced.result hdetach
    exact ⟨_, k, r, hdetach, not_unchanged_of_detach hm hmp,
      ((detach_meets hI h.fs h.kept h.rooted).result _ hdet).1, (detach_kept hdet).siblings hS, rfl,
      hr, hlt, fun j hj => modifyNode_of_ne _ (Nat.ne_of_gt hj)⟩

/-- **Unmounting the root file system, devfs or ext2** fails an assertion, or changes the node
mounted on and returns an error. -/
theorem not_returnsAtomically (hI : Inv s) (hS : Siblings s) (h : MountedFs s g G)
    (hnot : s.root = some g ∨ G.kind ≠ .mem) : ¬ ReturnsAtomically s t g := by
  rintro ⟨ret, s', hres, hsame⟩
  by_cases hroot : s.root = some g
  · rw [unmount_root hI h hroot] at hres
    cases hres
  obtain ⟨s1, k, r, hdetach, hchanged, -⟩ := exists_detached hI hS h hroot
  rw [vfsUnmount, State.vfs, h.fs, ofOption_some, pure_bind_eq, hdetach, pure_bind_eq] at hres
  cases hkind : G.kind with
  | mem => exact absurd hkind (hnot.resolve_left hroot)
  | dev =>
    rw [hkind] at hres
    cases hres
    exact hchanged (hsame (by decide))
  | ext2 =>
    rw [hkind] at hres
    cases hres
    exact hchanged (hsame (by decide))

/-- **Unmounting a memfs** with nothing but memfs below returns 0. -/
theorem returnsAtomically_of_onlyMemfs (hI : Inv s) (hS : Siblings s) (h : MountedFs s g G)
    (hroot : s.root ≠ some g) (hkind : G.kind = .mem) (honly : ∀ r ∈ G.root, OnlyMemfs s r) :
    ReturnsAtomically s t g := by
  obtain ⟨s1, k, r, hdetach, -, hI1, hS1, hfss, hr, hlt, hnodes⟩ := exists_detached hI hS h hroot
  obtain ⟨d, hd, -⟩ := hI.live_root h.fs h.kept hr
  obtain ⟨d1, hd1, -, hd1type, hd1shape⟩ := hI1.live_root (hfss ▸ h.fs) h.kept hr
  rw [hkind] at hd1shape
  have hdepth : s1.next < s1.next + 2 + r :=
    Nat.lt_of_lt_of_le (Nat.lt_add_of_pos_right Nat.two_pos) (Nat.le_add_right _ _)
  -- the directories below the root are not touched by the detaching
  obtain ⟨l, hl⟩ := (memfsRecurseFree_ok_iff hI1 hS1 (s1.next + 2) hd1 hd1shape hd1type hdepth).mpr
    ((onlyMemfs_congr hI hnodes hfss hd hlt).mpr (honly r hr))
  rw [ReturnsAtomically, vfsUnmount, State.vfs, h.fs, ofOption_some, pure_bind_eq, hdetach,
    pure_bind_eq, hkind]
  dsimp only
  rw [memfsUnmount, hr]
  exact ⟨0, _, result_bind_eq_ok.mpr ⟨_, result_bind_eq_ok.mpr ⟨(.node r, s1), rfl,
    result_bind_eq_ok.mpr ⟨l, hl, rfl⟩⟩, rfl⟩, fun hne => absurd rfl hne⟩

end Unmount

/-- A memfs on `/m`, in a memfs on `/`. -/
def memfsBelow : List Event :=
  [.memfsNew, .mount 0 0 [slash], .mkdir 0 none [109], .memfsNew, .mount 0 1 [slash, 109]]

/-- An ext2 file system on `/e`, in a memfs on `/`. -/
def ext2Below : List Event :=
  [.memfsNew, .mount 0 0 [slash], .mkdir 0 none [101],
    .ext2New ⟨true, fun _ => [⟨2, 12, dot⟩, ⟨2, 12, dotDot⟩], fun _ => 0x4000⟩,
    .mount 0 1 [slash, 101]]

/-- **Failed unmounts.**  Unmounting devfs returns `-ENOTSUP`, and ext2 `-ENOSYS`; but then the
paths lead to the directories below.  Unmounting the root file system fails an assertion. -/
theorem unmount_leaves_traces :
    (∃ s', (vfsUnmount (reached devfsBelow) 0 1).result = .ok (enotsup, s') ∧
      resolve (reached devfsBelow) 0 [slash, 100] = .ok (.ok (.node 3)) ∧
      resolve s' 0 [slash, 100] = .ok (.ok (.node 1)) ∧
      ((reached devfsBelow).nodes 1).map Node.type = some .mountpoint ∧
      (s'.nodes 1).map Node.type = some .dir) ∧
    (∃ s', (vfsUnmount (reached ext2Below) 0 1).result = .ok (enosys, s') ∧
      resolve (reached ext2Below) 0 [slash, 101] = .ok (.ok (.node 2)) ∧
      resolve s' 0 [slash, 101] = .ok (.ok (.node 1)) ∧
      ((reached ext2Below).nodes 1).map Node.type = some .mountpoint ∧
      (s'.nodes 1).map Node.type = some .dir) ∧
    (vfsUnmount rootMemfs 0 0).result = .error .assertion ∧
    (reached devfsBelow).root = some 0 ∧ rootMemfs.root = some 0 ∧
    Run Step {} devfsBelow (reached devfsBelow) ∧ Run Step {} ext2Below (reached ext2Below) := by
  exact ⟨⟨_, rfl, rfl, rfl, rfl, rfl⟩, ⟨_, rfl, rfl, rfl, rfl, rfl⟩, rfl, rfl, rfl,
    run_reached (by decide +kernel), run_reached (by decide +kernel)⟩

end Vfs
