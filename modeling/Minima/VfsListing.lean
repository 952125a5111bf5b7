/-
Listing a directory and looking up names in it.

Whoever walks through a directory takes names from `vfs_readdir` and looks them up:
`count_subdirs` from index 0 on, `dump_recursive` and `memfs_recurse_free` from
index 2 on.  That this finds every entry once takes names that are distinct, which
holds of the directories of a memfs, and a numbering without gaps, which only memfs
has.

* `Kept`, `step_kept` — what the operations other than `vfs_create` and `vfs_mkdir`
  leave of the lists of children;
* `siblings_of_run` — so the names in a directory of a memfs stay distinct;
* `readdir_agrees_iff` — listing and lookup agree in a directory iff it is one of a
  memfs;
* `readdir_gaps` — devfs has no entries 0 and 1, and ext2 gives no names to a caller
  whose pointer is `NULL`.
-/
import Minima.MemfsTree
import Minima.VfsPaths

namespace Vfs

open Function List Option
open Ext2 (Entry lastPrefix live dot dotDot enoent)
open Traced

/-! ### Operations that keep the lists of children -/

/-- A directory, or one that something is mounted on. -/
def Node.DirLike (n : Node) : Prop := n.type = .dir ∨ n.type = .mountpoint

/-- Nodes keep their names, and their children unless they have none. -/
structure Kept (s s' : State) : Prop where
  next : s.next ≤ s'.next
  name : ∀ k < s.next, (s'.nodes k).map Node.name = (s.nodes k).map Node.name
  node : ∀ a n', s'.nodes a = some n' → n'.children = [] ∨
    ∃ n, s.nodes a = some n ∧ n'.children = n.children ∧ (n'.DirLike → n.DirLike)

section Kept

variable {s s' s'' : State}

theorem kept_of_nodes (hnodes : s'.nodes = s.nodes) (hnext : s'.next = s.next) : Kept s s' where
  next := Nat.le_of_eq hnext.symm
  name k _ := by rw [hnodes]
  node a n' hn' := by
    rw [hnodes] at hn'
    exact .inr ⟨n', hn', rfl, fun h => h⟩

theorem Kept.trans (h : Kept s s') (h' : Kept s' s'') : Kept s s'' where
  next := Nat.le_trans h.next h'.next
  name k hk := (h'.name k (Nat.lt_of_lt_of_le hk h.next)).trans (h.name k hk)
  node a n'' hn'' := by
    rcases h'.node a n'' hn'' with hnil | ⟨n', hn', hsame', hdir'⟩
    · exact .inl hnil
    rcases h.node a n' hn' with hnil | ⟨n, hn, hsame, hdir⟩
    · exact .inl (hsame'.trans hnil)
    · exact .inr ⟨n, hn, hsame'.trans hsame, fun h => hdir (hdir' h)⟩

variable {n : Node}

theorem kept_alloc (hn : n.children = [])
    (hnodes : s'.nodes = update s.nodes s.next (some n)) (hnext : s'.next = s.next + 1) :
    Kept s s' where
  next := by rw [hnext]; exact Nat.le_succ _
  name k hk := by rw [hnodes, update_of_ne (Nat.ne_of_lt hk)]
  node a n' hn' := by
    rw [hnodes] at hn'
    by_cases ha : a = s.next
    · subst ha
      rw [update_self, some_inj] at hn'
      exact .inl (hn' ▸ hn)
    · rw [update_of_ne ha] at hn'
      exact .inr ⟨n', hn', rfl, fun h => h⟩

theorem kept_modifyNode {k : Addr} {f : Node → Node} (hname : ∀ n, (f n).name = n.name)
    (hchildren : ∀ n, (f n).children = n.children)
    (hdir : ∀ n, s.nodes k = some n → (f n).DirLike → n.DirLike) :
    Kept s (s.modifyNode k f) where
  next := Nat.le_refl _
  name j _ := by
    by_cases hj : j = k
    · subst hj
      show (Function.update s.nodes j ((s.nodes j).map f) j).map Node.name = _
      rw [Function.update_self, Option.map_map]
      congr 1
      exact funext hname
    · rw [modifyNode_of_ne _ hj]
  node a n' hn' := by
    by_cases ha : a = k
    · subst ha
      change update s.nodes a ((s.nodes a).map f) a = some n' at hn'
      rw [update_self] at hn'
      obtain ⟨n, hn, rfl⟩ := map_eq_some_iff.mp hn'
      exact .inr ⟨n, hn, hchildren n, hdir n hn⟩
    · exact .inr ⟨n', (modifyNode_of_ne _ ha).symm.trans hn', rfl, fun h => h⟩

theorem kept_free (l : List Addr) : Kept s (s.free l) where
  next := Nat.le_refl _
  name k _ := by
    show (if k ∈ l then (s.nodes k).map _ else s.nodes k).map Node.name = _
    by_cases hk : k ∈ l
    · rw [if_pos hk, Option.map_map]
      rfl
    · rw [if_neg hk]
  node a n' hn' := by
    obtain ⟨_, hn, rfl | rfl⟩ := nodes_free hn' <;> exact .inr ⟨_, hn, rfl, fun h => h⟩

variable {p : Ptr}

theorem kept_keep (h : s.get p = some n) : Kept s (s.keep n p).2 := by
  cases p with
  | node a => exact kept_of_nodes rfl rfl
  | ext2 g i =>
    obtain ⟨F, -, -, -, rfl⟩ := get_ext2 h
    exact kept_alloc rfl rfl rfl

variable {t : ℕ} {path : List ℕ}

theorem traverse_cwd {start : Option Ptr} {r : Except ℤ Ptr × State}
    (h : (vfsTraverse s t start path).result = .ok r) : ∃ c, r.2 = { s with cwd := c } := by
  obtain ⟨⟨p, s1⟩, hstart, h⟩ := result_bind_eq_ok.mp h
  obtain ⟨found, -, h⟩ := result_bind_eq_ok.mp h
  cases h
  exact startOf_meets.result _ hstart

theorem kept_cwd (c : ℕ → Option Addr) : Kept s { s with cwd := c } := kept_of_nodes rfl rfl

variable {g : ℕ} {G : Fs} {x : ℤ × State}

theorem mountRoot_kept (hG : s.fss g = some G) (hr : G.root = none)
    (h : (mountRoot s g).result = .ok x) : Kept s x.2 := by
  rw [mountRoot] at h
  rcases fsMount_unmounted hG hr with ⟨ret, hret, heq, -⟩ | ⟨n, G', heq, hnew⟩
  · rw [heq, pure_bind_eq] at h
    dsimp only at h
    rw [if_pos hret] at h
    cases h
    exact kept_of_nodes rfl rfl
  · rw [heq, pure_bind_eq] at h
    obtain ⟨r, -, h⟩ := result_bind_eq_ok.mp h
    cases h
    exact kept_alloc hnew.node.2.2.2.2 rfl rfl

theorem mountOn_kept (hG : s.fss g = some G) (hr : G.root = none) (hp : s.get p = some n)
    (hdir : n.type = .dir) (h : (mountOn s g p n).result = .ok x) : Kept s x.2 := by
  have hfss : (s.keep n p).2.fss = s.fss := by cases p <;> rfl
  rcases mountOn_eq hG hr hfss with ⟨ret, -, -, heq⟩ | ⟨m, G', hnew, heq⟩
  · rw [heq] at h
    cases h
    exact (kept_keep hp).trans (kept_of_nodes rfl rfl)
  · rw [heq] at h
    cases h
    have hroot : Kept (s.keep n p).2 ((s.keep n p).2.rooted g m G') :=
      kept_alloc hnew.node.2.2.2.2 rfl rfl
    refine ((kept_keep hp).trans hroot).trans (kept_modifyNode (fun _ => rfl) (fun _ => rfl) ?_)
    -- the node mounted on is the directory `n`
    intro n' hn' _
    have hkept : ((s.keep n p).2.rooted g m G').nodes (s.keep n p).1 = some n ∨
        (s.keep n p).1 = (s.keep n p).2.next := by
      by_cases hk : (s.keep n p).1 = (s.keep n p).2.next
      · exact .inr hk
      · refine .inl ((update_of_ne hk _ _).trans ?_)
        cases p with
        | node a => exact hp
        | ext2 g i => exact update_self ..
    rcases hkept with hkept | hk
    · obtain rfl := mem_unique hkept hn'
      exact .inl hdir
    · have hself : ((s.keep n p).2.rooted g m G').nodes (s.keep n p).1 = some m := by
        rw [hk]
        exact update_self ..
      obtain rfl := mem_unique hself hn'
      exact .inl hnew.node.2.2.2.1

theorem vfsMount_kept (hg : Unmounted s g) (h : (vfsMount s t g path).result = .ok x) :
    Kept s x.2 := by
  obtain ⟨G, hG, hr, -⟩ := hg
  rw [vfsMount] at h
  by_cases hfirst : s.root = none ∧ path = [slash]
  · rw [if_pos hfirst] at h
    exact mountRoot_kept hG hr h
  rw [if_neg hfirst] at h
  obtain ⟨⟨found, s1⟩, htrav, h⟩ := result_bind_eq_ok.mp h
  obtain ⟨c, hc⟩ := traverse_cwd htrav
  subst hc
  cases found with
  | error e =>
    cases h
    exact kept_cwd c
  | ok p =>
    obtain ⟨n, hn, h⟩ := result_bind_eq_ok.mp h
    have hget := result_ofOption.mp hn
    by_cases hdir : n.type ≠ .dir
    · rw [if_pos hdir] at h
      cases h
      exact kept_cwd c
    · rw [if_neg hdir] at h
      exact (kept_cwd c).trans (mountOn_kept hG hr hget
        (not_not.mp hdir) h)

theorem detach_kept {F : Fs} {s1 : State} (h : (detach s F).result = .ok s1) : Kept s s1 := by
  rw [detach] at h
  cases hpar : F.parentNode with
  | none =>
    rw [hpar] at h
    cases h
    exact kept_of_nodes rfl rfl
  | some k =>
    rw [hpar] at h
    obtain ⟨n, hn, h⟩ := result_bind_eq_ok.mp h
    have hget : s.nodes k = some n := result_ofOption.mp hn
    by_cases hmp : n.type ≠ .mountpoint
    · rw [if_pos hmp] at h
      cases h
    · rw [if_neg hmp] at h
      obtain ⟨parent, -, h⟩ := result_bind_eq_ok.mp h
      cases h
      refine kept_modifyNode (fun _ => rfl) (fun _ => rfl) fun n' hn' _ => ?_
      obtain rfl := mem_unique hget hn'
      exact .inr (not_not.mp hmp)

theorem dirOrCwd_kept {dir : Option Ptr} {r : Ptr × State} (h : (dirOrCwd s t dir).result = .ok r) :
    Kept s r.2 := by
  obtain ⟨c, hc⟩ := dirOrCwd_meets.result r h
  rw [hc]
  exact kept_cwd c

theorem vfsUnmount_kept (h : (vfsUnmount s t g).result = .ok x) : Kept s x.2 := by
  obtain ⟨F, -, h⟩ := result_bind_eq_ok.mp h
  obtain ⟨s1, hdetach, h⟩ := result_bind_eq_ok.mp h
  refine (detach_kept hdetach).trans ?_
  cases hkind : F.kind with
  | dev =>
    rw [hkind] at h
    cases h
    exact kept_of_nodes rfl rfl
  | ext2 =>
    rw [hkind] at h
    cases h
    exact kept_of_nodes rfl rfl
  | mem =>
    rw [hkind] at h
    obtain ⟨⟨ret, s2⟩, hmem, h⟩ := result_bind_eq_ok.mp h
    cases h
    obtain ⟨⟨dir, s3⟩, hdir, hmem⟩ := result_bind_eq_ok.mp hmem
    obtain ⟨l, -, hmem⟩ := result_bind_eq_ok.mp hmem
    cases hmem
    exact (dirOrCwd_kept hdir).trans ((kept_free l).trans (kept_of_nodes rfl rfl))

/-- The event is an operation on a file. -/
def Event.OnFile : Event → Prop
  | .openNode _ => True
  | .closeFile _ => True
  | .fileOp _ => True
  | _ => False

variable {e : Event}

theorem step_file (he : e.OnFile) (h : (s.step e).result = .ok s') :
    ∃ f i, s' = { s with files := f, nextFile := i } := by
  have hdev : ∀ {P : Prop} [Decidable P] {r s1 : ℤ × State},
      (if P then .stop .badCast else pure r : Do (ℤ × State)).result = .ok s1 → s1 = r := by
    intro P _ r s1 h
    by_cases hP : P
    · rw [if_pos hP] at h
      cases h
    · rw [if_neg hP] at h
      cases h
      rfl
  cases e with
  | openNode p =>
    obtain ⟨x, hx, h⟩ := result_bind_eq_ok.mp h
    cases h
    obtain ⟨n, -, hx⟩ := result_bind_eq_ok.mp hx
    obtain ⟨F, -, hx⟩ := result_bind_eq_ok.mp hx
    rw [hdev hx]
    exact ⟨_, _, rfl⟩
  | closeFile i =>
    obtain ⟨x, hx, h⟩ := result_bind_eq_ok.mp h
    cases h
    obtain ⟨f, -, hx⟩ := result_bind_eq_ok.mp hx
    obtain ⟨n, -, hx⟩ := result_bind_eq_ok.mp hx
    obtain ⟨F, -, hx⟩ := result_bind_eq_ok.mp hx
    rw [hdev hx]
    exact ⟨_, _, rfl⟩
  | fileOp i =>
    obtain ⟨x, -, h⟩ := result_bind_eq_ok.mp h
    cases h
    exact ⟨_, _, rfl⟩
  | _ => exact he.elim

theorem kept_file (he : e.OnFile) (h : (s.step e).result = .ok s') : Kept s s' := by
  obtain ⟨f, i, rfl⟩ := step_file he h
  exact kept_of_nodes rfl rfl

/-- The event is a call of `vfs_create` or `vfs_mkdir`. -/
def Event.Makes : Event → Prop
  | .create _ _ _ => True
  | .mkdir _ _ _ => True
  | _ => False

theorem step_kept (he : Proper s e) (hnot : ¬ e.Makes) (h : (s.step e).result = .ok s') :
    Kept s s' := by
  cases e with
  | memfsNew =>
    cases h
    exact kept_of_nodes rfl rfl
  | ext2New disk =>
    cases h
    exact kept_of_nodes rfl rfl
  | devfsGet =>
    rw [State.step] at h
    cases hdev : s.devfs with
    | some g =>
      rw [hdev] at h
      cases h
      exact kept_of_nodes rfl rfl
    | none =>
      rw [hdev] at h
      cases h
      exact kept_of_nodes rfl rfl
  | register name block =>
    obtain ⟨g, -, h⟩ := result_bind_eq_ok.mp h
    cases h
    exact kept_alloc rfl rfl rfl
  | mount t g path =>
    obtain ⟨x, hx, h⟩ := result_bind_eq_ok.mp h
    cases h
    exact vfsMount_kept he.1 hx
  | unmount t g =>
    obtain ⟨x, hx, h⟩ := result_bind_eq_ok.mp h
    cases h
    exact vfsUnmount_kept hx
  | chdir t path =>
    obtain ⟨x, hx, h⟩ := result_bind_eq_ok.mp h
    cases h
    obtain ⟨⟨found, s1⟩, htrav, hx⟩ := result_bind_eq_ok.mp hx
    obtain ⟨c, hc⟩ := traverse_cwd htrav
    subst hc
    cases found with
    | error e =>
      cases hx
      exact kept_cwd c
    | ok p =>
      obtain ⟨n, hn, hx⟩ := result_bind_eq_ok.mp hx
      by_cases hdir : n.type ≠ .dir
      · rw [if_pos hdir] at hx
        cases hx
        exact kept_cwd c
      · rw [if_neg hdir] at hx
        cases hx
        exact (kept_cwd c).trans ((kept_keep (result_ofOption.mp hn)).trans (kept_cwd _))
  | lookup t dir name =>
    obtain ⟨x, hx, h⟩ := result_bind_eq_ok.mp h
    obtain ⟨found, -, h⟩ := result_bind_eq_ok.mp h
    cases h
    exact dirOrCwd_kept hx
  | traverse t start path =>
    obtain ⟨x, hx, h⟩ := result_bind_eq_ok.mp h
    cases h
    obtain ⟨c, hc⟩ := traverse_cwd hx
    rw [hc]
    exact kept_cwd c
  | openNode p => exact kept_file (e := .openNode p) trivial h
  | closeFile i => exact kept_file (e := .closeFile i) trivial h
  | fileOp i => exact kept_file (e := .fileOp i) trivial h
  | create t dir name => exact absurd trivial hnot
  | mkdir t dir name => exact absurd trivial hnot

end Kept

/-! ### Names in one directory -/

/-- The names in a directory are distinct.  A file can have children too, for
`vfs_create` takes an error of `vfs_lookup` for a free name; their names need not
be. -/
def Siblings (s : State) : Prop :=
  ∀ a n, s.nodes a = some n →
    (∀ k ∈ n.children, k < s.next) ∧ (n.DirLike → (s.names n.children).Nodup)

section Siblings

variable {s s' : State}

theorem Kept.siblings (h : Kept s s') (hS : Siblings s) : Siblings s' := by
  intro a n' hn'
  rcases h.node a n' hn' with hnil | ⟨n, hn, hsame, hdir⟩
  · rw [hnil]
    exact ⟨by simp, fun _ => nodup_nil⟩
  · obtain ⟨hlt, hnodup⟩ := hS a n hn
    rw [hsame]
    refine ⟨fun k hk => Nat.lt_of_lt_of_le (hlt k hk) h.next, fun hd => ?_⟩
    have hnames : s'.names n.children = s.names n.children :=
      filterMap_congr fun k hk => h.name k (hlt k hk)
    rw [hnames]
    exact hnodup (hdir hd)

variable {a : Addr} {d : Node} {F : Fs} {name : Name} {type : NodeType}

theorem siblings_added (hI : Inv s) (hS : Siblings s) (h : Live s (.node a) d F)
    (hname : d.DirLike → name ∉ s.names d.children) : Siblings (s.added a d.made F name type) := by
  have hold : ∀ b n, s.nodes b = some n → ∀ k ∈ n.children, k ≠ s.next :=
    fun b n hn k hk => Nat.ne_of_lt ((hS b n hn).1 k hk)
  intro b m hm
  rcases (added_nodes hI h d.made name type).mp hm with ⟨-, rfl⟩ | ⟨rfl, rfl⟩ | ⟨-, -, hm⟩
  · refine ⟨fun k hk => ?_, fun _ => nodup_nil⟩
    cases hk
  · obtain ⟨hlt, hnodup⟩ := hS b d h.get
    refine ⟨fun k hk => ?_, fun hdir => ?_⟩
    · rcases mem_cons.mp hk with rfl | hk
      · exact Nat.lt_succ_self _
      · exact Nat.lt_succ_of_lt (hlt k hk)
    · show ((s.added b d.made F name type).names (s.next :: d.children)).Nodup
      rw [added_names_new hI h _ (hold b d h.get)]
      exact nodup_cons.mpr ⟨hname hdir, hnodup hdir⟩
  · obtain ⟨hlt, hnodup⟩ := hS b m hm
    refine ⟨fun k hk => Nat.lt_succ_of_lt (hlt k hk), fun hdir => ?_⟩
    rw [added_names hI h _ (hold b m hm)]
    exact hnodup hdir

theorem free_of_lookup_error (hI : Inv s) {e : ℤ} (h : Live s (.node a) d F) (hdir : d.type = .dir)
    (hs : d.shape = .memfsNode) (hname : name ≠ dot ∧ name ≠ dotDot)
    (herr : (vfsLookup s (.node a) name).result = .ok (.error e)) : name ∉ s.names d.children := by
  rw [← find_named_eq_none]
  cases hk : d.children.find? (s.named name) with
  | none => rfl
  | some k =>
    obtain ⟨c, hc, -⟩ := named_iff.mp (find?_some hk)
    rcases lookup_mem_child hI h hdir hs hname hk hc with ⟨-, hq⟩ | ⟨-, -, r, -, -, hq⟩
    · rw [herr] at hq
      cases hq
    · rw [herr] at hq
      cases hq

theorem vfsMake_siblings (hI : Inv s) (hS : Siblings s) {op : Op} {t : ℕ} {dir : Option Ptr}
    (h : BeginsUsable s (dirOrCwd s t dir).result) (hname : name ≠ dot ∧ name ≠ dotDot)
    {x : ℤ × State} (hx : (vfsMake op type s t dir name).result = .ok x) : Siblings x.2 := by
  obtain ⟨⟨p, s1⟩, hdir, hx⟩ := result_bind_eq_ok.mp hx
  obtain ⟨hp, c, hc⟩ := (begins_meets dirOrCwd_meets h).result _ hdir
  dsimp only at hp hc hx
  subst hc
  have hI' := hI.cwd c
  have hS' := (kept_cwd c).siblings hS
  obtain ⟨d, F, hd, hplain⟩ := hp.cwd
  have hfs := hI'.plain hd hplain
  rw [State.deref, hd.get, ofOption_some, pure_bind_eq, State.vfs, hfs, hd.fs, ofOption_some,
    pure_bind_eq] at hx
  by_cases hmem : F.kind ≠ .mem
  · rw [if_pos hmem] at hx
    cases hx
    exact hS'
  rw [if_neg hmem] at hx
  have hshape : d.shape = .memfsNode :=
    kind_eq_mem_iff.mp ((hI'.kind hd).trans (not_not.mp hmem))
  obtain ⟨found, hfound, hx⟩ := result_bind_eq_ok.mp hx
  cases found with
  | ok q =>
    cases hx
    exact hS'
  | error e =>
    obtain ⟨G, hG, hx⟩ := result_bind_eq_ok.mp hx
    obtain rfl : F = G := by
      rw [dispatch, State.vfs, hd.fs, ofOption_some, pure_bind_eq] at hG
      cases hG
      rfl
    obtain ⟨s2, hadd, hx⟩ := result_bind_eq_ok.mp hx
    cases hx
    cases p with
    | ext2 g i => cases hadd
    | node a =>
      rw [memfsAdd, if_neg (not_not.mpr hshape), hfs] at hadd
      cases hadd
      refine siblings_added hI' hS' hd fun hlike => ?_
      exact free_of_lookup_error hI' hd (hlike.resolve_right hplain) hshape hname hfound

theorem siblings_step (hI : Inv s) (hS : Siblings s) {e : Event} (he : Proper s e)
    (h : (s.step e).result = .ok s') : Siblings s' := by
  by_cases hmakes : e.Makes
  · cases e with
    | create t dir name =>
      obtain ⟨x, hx, h⟩ := result_bind_eq_ok.mp h
      cases h
      exact vfsMake_siblings hI hS he.1 he.2 hx
    | mkdir t dir name =>
      obtain ⟨x, hx, h⟩ := result_bind_eq_ok.mp h
      cases h
      exact vfsMake_siblings hI hS he.1 he.2 hx
    | _ => exact hmakes.elim
  · exact (step_kept he hmakes h).siblings hS

theorem siblings_of_run {es : List Event} (hrun : Run Step {} es s)
    (hok : Guarded Step Proper {} es) : Inv s ∧ Siblings s := by
  refine hrun.invariant_of_guarded (I := fun s => Inv s ∧ Siblings s)
    ⟨inv_boot, fun a n hn => by cases hn⟩ (fun u e u' hIS hp hstep => ?_) hok
  have hresult := value_eq_some.mp hstep
  exact ⟨(step_meets hIS.1 hp).result u' hresult, siblings_step hIS.1 hIS.2 hp hresult⟩

end Siblings

/-! ### Agreement -/

/-- `vfs_readdir` and `vfs_lookup` agree on a directory: whatever the pointer of the
caller is, the calls that succeed are those with an index below `n`, and they give
out the names that can be looked up, each of them once.  `size_t` has 32 bits. -/
def ReaddirAgrees (s : State) (p : Ptr) : Prop :=
  ∃ n, ∀ null : Bool,
    (∀ i < 2 ^ 32, (∃ out, (vfsReaddir s p i null).result = .ok (.ok out)) ↔ i < n) ∧
    (∀ name, (∃ i < 2 ^ 32, (vfsReaddir s p i null).result = .ok (.ok (.name name))) ↔
      ∃ q, (vfsLookup s p name).result = .ok (.ok q)) ∧
    ∀ i < 2 ^ 32, ∀ j < 2 ^ 32, ∀ name, (vfsReaddir s p i null).result = .ok (.ok (.name name)) →
      (vfsReaddir s p j null).result = .ok (.ok (.name name)) → i = j

section Agreement

variable {s : State} {p : Ptr} {d : Node} {F : Fs}

/-- In devfs the first call fails, so none would have to succeed; but `.` can be
looked up. -/
theorem devfs_disagrees (hI : Inv s) (h : Live s p d F) (hdir : d.type = .dir)
    (hkind : F.kind = .dev) (hfew : F.devices.length + 2 ≤ 2 ^ 32) : ¬ ReaddirAgrees s p := by
  rintro ⟨n, hn⟩
  obtain ⟨hcount, hnames, -⟩ := hn false
  have hplain : d.type ≠ .mountpoint := by simp [hdir]
  have hnone : (s.names F.devices)[sub32 0 2]? = none := by
    rw [getElem?_eq_none_iff]
    have hle : (s.names F.devices).length ≤ F.devices.length := length_filterMap_le _ _
    have hsub : sub32 0 2 = 2 ^ 32 - 2 := rfl
    omega
  have hfirst : ¬ 0 < n := by
    rw [← hcount 0 (by omega), readdir_dev hI h hplain hkind, hnone]
    rintro ⟨out, hout⟩
    cases hout
  obtain ⟨i, hi, hdot⟩ := (hnames dot).mpr ⟨p, lookup_dot_self hI h hdir⟩
  exact hfirst (Nat.zero_lt_of_lt ((hcount i hi).mp ⟨_, hdot⟩))

/-- ext2 gives no name to a caller whose pointer is `NULL`; but `.` can be looked
up. -/
theorem ext2_disagrees (hI : Inv s) (h : Live s p d F) (hdir : d.type = .dir)
    (hkind : F.kind = .ext2) : ¬ ReaddirAgrees s p := by
  rintro ⟨n, hn⟩
  obtain ⟨-, hnames, -⟩ := hn true
  have hplain : d.type ≠ .mountpoint := by simp [hdir]
  obtain ⟨i, -, hdot⟩ := (hnames dot).mpr ⟨p, lookup_dot_self hI h hdir⟩
  rw [readdir_ext2 hI h hplain hkind] at hdot
  cases hentry : (live (F.disk.entries d.id))[i]? with
  | none =>
    rw [hentry] at hdot
    cases hdot
  | some e =>
    rw [hentry] at hdot
    cases hdot

theorem agrees_of_list (names : List Name) (hnodup : names.Nodup) (hlen : names.length ≤ 2 ^ 32)
    (hread : ∀ i null, (vfsReaddir s p i null).result = .ok (match names[i]? with
      | some name => .ok (.name name)
      | none => .error enoent))
    (hlookup : ∀ name, (∃ q, (vfsLookup s p name).result = .ok (.ok q)) ↔ name ∈ names) :
    ReaddirAgrees s p := by
  have hname : ∀ i null name, (vfsReaddir s p i null).result = .ok (.ok (.name name)) ↔
      names[i]? = some name := by
    intro i null name
    rw [hread]
    cases names[i]? with
    | none => simp
    | some name' => simp
  refine ⟨names.length, fun null => ⟨fun i _ => ?_, fun name => ?_, fun i _ j _ name hi hj => ?_⟩⟩
  · rw [hread]
    cases hi : names[i]? with
    | none => simpa using hi
    | some name => simpa using (List.getElem?_eq_some_iff.mp hi).1
  · rw [hlookup, List.mem_iff_getElem?]
    constructor
    · rintro ⟨i, -, hi⟩
      exact ⟨i, (hname i null name).mp hi⟩
    · rintro ⟨i, hi⟩
      have hlt := (List.getElem?_eq_some_iff.mp hi).1
      exact ⟨i, Nat.lt_of_lt_of_le hlt hlen, (hname i null name).mpr hi⟩
  · rw [hname] at hi hj
    exact (List.getElem?_inj (List.getElem?_eq_some_iff.mp hi).1 hnodup).mp (hi.trans hj.symm)

theorem memfs_agrees (hI : Inv s) (hS : Siblings s) (hdots : DotDots s) {a : Addr}
    (h : Live s (.node a) d F) (hdir : d.type = .dir) (hs : d.shape = .memfsNode)
    (hfew : d.children.length + 2 ≤ 2 ^ 32) : ReaddirAgrees s (.node a) := by
  have hchild : ∀ name ∈ s.names d.children, name ≠ dot ∧ name ≠ dotDot := by
    intro name hname
    obtain ⟨k, hk, c, hc, rfl⟩ := mem_names.mp hname
    obtain ⟨-, c', hc', -, hne⟩ := (hI.node a d F h).child hs k hk
    obtain rfl := mem_unique hc hc'.1
    exact hne
  refine agrees_of_list (dot :: dotDot :: s.names d.children) ?_ ?_ ?_ ?_
  · refine nodup_cons.mpr ⟨?_, nodup_cons.mpr ⟨?_, (hS a d h.get).2 (.inl hdir)⟩⟩
    · intro hmem
      rcases mem_cons.mp hmem with heq | hmem
      · cases heq
      · exact (hchild dot hmem).1 rfl
    · intro hmem
      exact (hchild dotDot hmem).2 rfl
  · have hle : (s.names d.children).length ≤ d.children.length := length_filterMap_le _ _
    rw [length_cons, length_cons]
    omega
  · intro i null
    rw [readdir_mem hI h (by simp [hdir]) hs]
    rcases i with _ | _ | i
    · rfl
    · rfl
    · rfl
  · intro name
    rw [lookup_mem_iff hI hdots h hdir hs, mem_cons, mem_cons]

/-- **Listing and lookup** agree in a directory iff it is one of a memfs.  Where its `..` leads up
through a mount into ext2, that has to have an entry `..` there. -/
theorem readdir_agrees_iff {es : List Event} (hrun : Run Step {} es s)
    (hok : Guarded Step Proper {} es) (hdots : DotDots s) (h : Live s p d F)
    (hdir : d.type = .dir) (hfew : d.children.length + 2 ≤ 2 ^ 32)
    (hfew' : F.devices.length + 2 ≤ 2 ^ 32) : ReaddirAgrees s p ↔ F.kind = .mem := by
  obtain ⟨hI, hS⟩ := siblings_of_run hrun hok
  cases hkind : F.kind with
  | mem =>
    have hs : d.shape = .memfsNode := kind_eq_mem_iff.mp ((hI.kind h).trans hkind)
    cases p with
    | node a => exact iff_of_true (memfs_agrees hI hS hdots h hdir hs hfew) rfl
    | ext2 g i =>
      obtain ⟨G, -, -, -, rfl⟩ := get_ext2 h.get
      cases hs
  | dev => exact iff_of_false (devfs_disagrees hI h hdir hkind hfew') (by decide)
  | ext2 => exact iff_of_false (ext2_disagrees hI h hdir hkind) (by decide)

end Agreement

/-- The root of a memfs with one directory in it. -/
theorem readdir_agrees_root :
    ReaddirAgrees (reached [.memfsNew, .mount 0 0 [slash], .mkdir 0 none [100]]) (.node 0) := by
  have hdots : DotDots (reached [.memfsNew, .mount 0 0 [slash], .mkdir 0 none [100]]) := by
    intro g G hG hext
    rcases g with _ | g
    · obtain rfl := some_inj.mp hG
      cases hext
    · cases hG
  exact (readdir_agrees_iff (run_reached (by decide +kernel))
    (guarded_of_take (by decide +kernel)) hdots ⟨rfl, rfl, rfl, rfl⟩ rfl
    (by decide) (by decide)).mpr rfl

/-- devfs on `/d`, with the device `t`. -/
def devfsBelow : List Event :=
  [.memfsNew, .mount 0 0 [slash], .mkdir 0 none [100], .devfsGet, .register [116] false,
    .mount 0 1 [slash, 100]]

/-- An ext2 file system on `/`, with a file `f`. -/
def ext2Root : List Event :=
  [.ext2New ⟨true, fun _ => [⟨2, 12, dot⟩, ⟨2, 12, dotDot⟩, ⟨12, 1000, [102]⟩], fun _ => 0x4000⟩,
    .mount 0 0 [slash]]

/-- **The numbering is not the same everywhere.**  On the root of devfs the calls for 0 and 1 fail,
and the one for 2 gives out `t`.  In ext2 a call for 2 gives out `f`, but to a caller whose
pointer is `NULL` it returns 0 and gives out nothing. -/
theorem readdir_gaps :
    Run Step {} devfsBelow (reached devfsBelow) ∧
      (∀ null, (vfsReaddir (reached devfsBelow) (.node 3) 0 null).result = .ok (.error enoent) ∧
        (vfsReaddir (reached devfsBelow) (.node 3) 1 null).result = .ok (.error enoent) ∧
        (vfsReaddir (reached devfsBelow) (.node 3) 2 null).result = .ok (.ok (.name [116]))) ∧
      ¬ ReaddirAgrees (reached devfsBelow) (.node 3) ∧
      Run Step {} ext2Root (reached ext2Root) ∧
      (vfsReaddir (reached ext2Root) (.node 0) 2 false).result = .ok (.ok (.name [102])) ∧
      (vfsReaddir (reached ext2Root) (.node 0) 2 true).result = .ok (.ok .same) ∧
      ¬ ReaddirAgrees (reached ext2Root) (.node 0) := by
  have hdev : Run Step {} devfsBelow (reached devfsBelow) := run_reached (by decide +kernel)
  have hext : Run Step {} ext2Root (reached ext2Root) := run_reached (by decide +kernel)
  have hdevI := inv_of_run hdev (guarded_of_take (by decide +kernel))
  have hextI := inv_of_run hext (guarded_of_take (by decide +kernel))
  refine ⟨hdev, fun null => ⟨rfl, rfl, rfl⟩, ?_, hext, rfl, rfl, ?_⟩
  · exact devfs_disagrees hdevI ⟨rfl, rfl, rfl, rfl⟩ rfl rfl (by decide)
  · exact ext2_disagrees hextI ⟨rfl, rfl, rfl, rfl⟩ rfl rfl

end Vfs
