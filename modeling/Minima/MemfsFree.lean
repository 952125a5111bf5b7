/-
The memory that unmounting a memfs frees.

`memfs_recurse_free` takes the names in a directory one by one from `vfs_readdir`,
looks each of them up, goes down if it leads to a directory, and frees the node it
leads to.  So it reads the list of children again for each of them, with the nodes
it has freed; it frees what `vfs_lookup` returns, which for a mountpoint is the root
of the file system mounted there; and nobody frees the root of the memfs, the names
of its nodes, or the copies of the names that `vfs_readdir` makes.

Every access to a node, every `kfree` and every copy of a name is on record (`Access`).
The memory of a node that has been freed keeps its contents until memory is asked for
again, which `vfs_readdir` does for the copy of a name (`Reused`).

* `recurseWalk` — `memfs_recurse_free` with its accesses, and `recurseWalk_ok_iff`:
  it frees the nodes that `memfsRecurseFree` says;
* `FreesExactly` — each node, name and buffer of the memfs is freed once, and nothing
  else is freed, entered, or read after it was freed;
* `unmount_never_frees_exactly` — that holds of no memfs;
* `unmountWalk_intact_iff` — no node is read after its memory may have been handed out
  again iff all entries of a directory but the last are mountpoints;
* `unmount_atomic` — when a file system is unmounted without a trace of failure.
-/
import Minima.VfsUnmount

namespace Vfs

open List Option
open Ext2 (Entry lastPrefix live dot dotDot enoent)
open Relation (ReflTransGen TransGen)
open Traced

/-! ### Accesses -/

/-- What `memfs_unmount` does to memory. -/
inductive Access
  /-- a field of the node is read -/
  | read (a : Addr)
  /-- `memfs_recurse_free` is called for the node -/
  | enter (a : Addr)
  /-- `kfree` of the node, of its `name`, and of its `data` -/
  | freeNode (a : Addr)
  | freeName (a : Addr)
  | freeData (a : Addr)
  /-- `kfree` of the `struct memfs` -/
  | freeFs (g : ℕ)
  /-- the copy of a name that `vfs_readdir` makes -/
  | copyName (name : Name)
  deriving DecidableEq

abbrev Walk := Traced Access Stop

def reads (l : List Addr) : Walk Unit := ⟨l.map .read, .ok ()⟩

/-- The nodes that the loop of `memfs_lookup` reads, up to the one of that name. -/
def State.searched (s : State) (l : List Addr) (name : Name) : List Addr :=
  l.take (l.findIdx (s.named name) + 1)

/-- The end of the loop: `mfn->data` and then `mfn` are freed. -/
def freeNode (data : Addr → ℕ) (k : Addr) : Walk Unit :=
  ⟨.read k :: (if data k ≠ 0 then [.freeData k] else []) ++ [.freeNode k], .ok ()⟩

/-- What `vfs_lookup` of a name that was listed has found. -/
def foundNode (s : State) : Except Stop (Except ℤ Ptr) → Walk (Addr × Node)
  | .error e => .stop e
  | .ok (.error _) => .stop .assertion
  | .ok (.ok (.ext2 _ _)) => .stop .badCast
  | .ok (.ok (.node k)) => do
    reads [k]
    let n ← .ofOption .nullPointer (s.nodes k)
    if n.shape ≠ .memfsNode then .stop .badCast else pure (k, n)

/-- The recursion, on directories. -/
def enterDir (recurse : Addr → Walk Unit) (k : Addr) (n : Node) : Walk Unit :=
  if n.type = .dir then recurse k else pure ()

/-- The loop of `memfs_recurse_free`, from entry `i` on: `vfs_readdir` reads the
children up to that one, and `vfs_lookup` up to the one of the name. -/
def freeWalk (data : Addr → ℕ) (recurse : Addr → Walk Unit) (s : State) (dir : Addr) (d : Node) :
    List Name → ℕ → Walk Unit
  | [], i => reads (dir :: d.children.take (i + 1))
  | name :: names, i => do
    reads (dir :: d.children.take (i + 1))
    .call (.copyName name)
    reads (dir :: s.searched d.children name)
    let (k, n) ← foundNode s (vfsLookup s (.node dir) name).result
    enterDir recurse k n
    freeNode data k
    freeWalk data recurse s dir d names (i + 1)

/-- `memfs_recurse_free` on a directory of a memfs -/
def recurseWalk (data : Addr → ℕ) : ℕ → State → Addr → Walk Unit
  | 0, _, _ => .stop .diverged
  | depth + 1, s, dir => do
    .call (.enter dir)
    let d ← .ofOption .nullPointer (s.nodes dir)
    freeWalk data (recurseWalk data depth s) s dir d (s.names d.children) 0

/-- `memfs_unmount` of the memfs `g` with the root at `r` -/
def unmountWalk (data : Addr → ℕ) (s : State) (g : ℕ) (r : Addr) : Walk Unit := do
  recurseWalk data (s.next + 2) s r
  .call (.freeFs g)

/-- The nodes that are freed. -/
def freedNodes (l : List Access) : List Addr :=
  l.filterMap fun x => match x with
    | .freeNode a => some a
    | _ => none

/-! ### One round of the loop -/

section Round

variable {data : Addr → ℕ} {recurse : Addr → Walk Unit} {s : State} {dir : Addr} {d : Node}

variable {q : Except Stop (Except ℤ Ptr)} {k : Addr} {n : Node}

theorem foundNode_ok_iff :
    (foundNode s q).result = .ok (k, n) ↔
      q = .ok (.ok (.node k)) ∧ s.nodes k = some n ∧ n.shape = .memfsNode := by
  rcases q with e | e | j | ⟨g, i⟩
  · exact iff_of_false (by simp [foundNode]) (by simp)
  · exact iff_of_false (by simp [foundNode]) (by simp)
  · have hres : (foundNode s (.ok (.ok (.node j)))).result = .ok (k, n) ↔
        ∃ m, s.nodes j = some m ∧
          (if m.shape ≠ .memfsNode then stop .badCast else pure (j, m) : Walk _).result
            = .ok (k, n) := by
      rw [foundNode, result_bind_eq_ok]
      simp only [result_bind_eq_ok, result_ofOption]
      constructor
      · rintro ⟨_, _, h⟩
        exact h
      · intro h
        exact ⟨(), rfl, h⟩
    rw [hres]
    constructor
    · rintro ⟨m, hm, h⟩
      by_cases hs : m.shape ≠ .memfsNode
      · rw [if_pos hs] at h
        cases h
      · rw [if_neg hs] at h
        cases h
        exact ⟨rfl, hm, not_not.mp hs⟩
    · rintro ⟨hj, hm, hs⟩
      cases hj
      exact ⟨n, hm, by rw [if_neg (not_not.mpr hs)]; rfl⟩
  · exact iff_of_false (by simp [foundNode]) (by simp)

theorem foundNode_calls (h : (foundNode s q).result = .ok (k, n)) :
    (foundNode s q).calls = [.read k] := by
  obtain ⟨rfl, hn, hs⟩ := foundNode_ok_iff.mp h
  rw [foundNode, hn, ofOption_some, pure_bind_eq, if_neg (not_not.mpr hs)]
  rfl

variable {name : Name} {names : List Name} {i : ℕ}

theorem freeWalk_cons_ok :
    (freeWalk data recurse s dir d (name :: names) i).result = .ok () ↔
      ∃ k n, (vfsLookup s (.node dir) name).result = .ok (.ok (.node k)) ∧
        s.nodes k = some n ∧ n.shape = .memfsNode ∧ (enterDir recurse k n).result = .ok () ∧
        (freeWalk data recurse s dir d names (i + 1)).result = .ok () := by
  constructor
  · intro h
    obtain ⟨_, _, h⟩ := result_bind_eq_ok.mp h
    obtain ⟨_, _, h⟩ := result_bind_eq_ok.mp h
    obtain ⟨_, _, h⟩ := result_bind_eq_ok.mp h
    obtain ⟨⟨k, n⟩, hfound, h⟩ := result_bind_eq_ok.mp h
    obtain ⟨_, henter, h⟩ := result_bind_eq_ok.mp h
    obtain ⟨hq, hn, hs⟩ := foundNode_ok_iff.mp hfound
    exact ⟨k, n, hq, hn, hs, henter, h⟩
  · rintro ⟨k, n, hq, hn, hs, henter, h⟩
    refine result_bind_eq_ok.mpr ⟨(), rfl, result_bind_eq_ok.mpr ⟨(), rfl,
      result_bind_eq_ok.mpr ⟨(), rfl, result_bind_eq_ok.mpr ⟨(k, n), ?_, ?_⟩⟩⟩⟩
    · exact foundNode_ok_iff.mpr ⟨hq, hn, hs⟩
    · exact result_bind_eq_ok.mpr ⟨(), henter, result_bind_eq_ok.mpr ⟨(), rfl, h⟩⟩

theorem freeWalk_cons_calls (hq : (vfsLookup s (.node dir) name).result = .ok (.ok (.node k)))
    (hn : s.nodes k = some n) (hs : n.shape = .memfsNode)
    (henter : (enterDir recurse k n).result = .ok ()) :
    (freeWalk data recurse s dir d (name :: names) i).calls =
      (dir :: d.children.take (i + 1)).map .read ++ (.copyName name ::
        ((dir :: s.searched d.children name).map .read ++ (.read k ::
          ((enterDir recurse k n).calls ++ ((freeNode data k).calls ++
            (freeWalk data recurse s dir d names (i + 1)).calls))))) := by
  have hfound := foundNode_ok_iff.mpr ⟨hq, hn, hs⟩
  rw [freeWalk, bind_of_ok rfl, bind_of_ok rfl, bind_of_ok rfl,
    bind_of_ok hfound]
  dsimp only
  rw [bind_of_ok henter, bind_of_ok rfl, foundNode_calls hfound]
  rfl

theorem freeWalk_starts (names : List Name) (i : ℕ) :
    ∃ q, (freeWalk data recurse s dir d names i).calls =
      (dir :: d.children.take (i + 1)).map .read ++ q := by
  cases names with
  | nil => exact ⟨[], (append_nil _).symm⟩
  | cons name names =>
    exact ⟨_, rfl⟩

end Round

/-! ### The nodes that are freed -/

section Freed

variable {data : Addr → ℕ} {s : State} {a : Addr} {d : Node} {F : Fs}

theorem freedNodes_append (l l' : List Access) :
    freedNodes (l ++ l') = freedNodes l ++ freedNodes l' :=
  filterMap_append

@[simp] theorem freedNodes_reads (l : List Addr) : freedNodes (l.map .read) = [] := by
  induction l with
  | nil => rfl
  | cons b l ih => exact ih

@[simp] theorem freedNodes_freeNode (data : Addr → ℕ) (k : Addr) :
    freedNodes (freeNode data k).calls = [k] := by
  rw [freeNode]
  by_cases h : data k ≠ 0
  · rw [if_pos h]
    rfl
  · rw [if_neg h]
    rfl

variable {recurse : Addr → Walk Unit} {name : Name} {names : List Name} {k : Addr}

theorem freedNodes_round {i : ℕ} {n : Node}
    (hq : (vfsLookup s (.node a) name).result = .ok (.ok (.node k))) (hn : s.nodes k = some n)
    (hs : n.shape = .memfsNode) (hok : (enterDir recurse k n).result = .ok ()) :
    freedNodes (freeWalk data recurse s a d (name :: names) i).calls =
      freedNodes (enterDir recurse k n).calls ++
        k :: freedNodes (freeWalk data recurse s a d names (i + 1)).calls := by
  rw [freeWalk_cons_calls hq hn hs hok, freedNodes_append, freedNodes_reads, nil_append]
  show freedNodes ((a :: s.searched d.children name).map .read ++ _) = _
  rw [freedNodes_append, freedNodes_reads, nil_append]
  show freedNodes ((enterDir recurse k n).calls ++ _) = _
  rw [freedNodes_append, freedNodes_append, freedNodes_freeNode]
  rfl

theorem freeWalk_ok_iff {recurse' : Ptr → Do (List Addr)} (hF : s.fss d.fs = some F)
    (hrec : ∀ name ∈ names, ∀ k n, (vfsLookup s (.node a) name).result = .ok (.ok (.node k)) →
      s.nodes k = some n → n.shape = .memfsNode → n.type = .dir →
      ∀ l, (recurse' (.node k)).result = .ok l ↔
        (recurse k).result = .ok () ∧ freedNodes (recurse k).calls = l) :
    ∀ i l, (freeEntries recurse' s (.node a) d names).result = .ok l ↔
      (freeWalk data recurse s a d names i).result = .ok () ∧
        freedNodes (freeWalk data recurse s a d names i).calls = l := by
  induction names with
  | nil =>
    intro i l
    rw [freeEntries_nil_ok hF, freeWalk, reads]
    rw [freedNodes_reads]
    exact ⟨fun h => ⟨rfl, h.symm⟩, fun h => h.2.symm⟩
  | cons name names ih =>
    intro i l
    have ih := ih fun x hx => hrec x (mem_cons_of_mem name hx)
    rw [freeEntries_cons_ok hF, freeWalk_cons_ok]
    -- a directory that is found is entered in both
    have henter : ∀ k n below, (vfsLookup s (.node a) name).result = .ok (.ok (.node k)) →
        s.nodes k = some n → n.shape = .memfsNode →
        ((if n.type = .dir then recurse' (.node k) else pure []).result = .ok below ↔
          (enterDir recurse k n).result = .ok () ∧
            freedNodes (enterDir recurse k n).calls = below) := by
      intro k n below hq hn hs
      rw [enterDir]
      by_cases hdir : n.type = .dir
      · rw [if_pos hdir, if_pos hdir]
        exact hrec name mem_cons_self k n hq hn hs hdir below
      · rw [if_neg hdir, if_neg hdir]
        constructor
        · intro h
          cases h
          exact ⟨rfl, rfl⟩
        · rintro ⟨-, rfl⟩
          rfl
    constructor
    · rintro ⟨k, n, below, rest, hq, hn, hs, hbelow, hrest, rfl⟩
      obtain ⟨hok, rfl⟩ := (henter k n below hq hn hs).mp hbelow
      obtain ⟨hwalk, rfl⟩ := (ih (i + 1) rest).mp hrest
      exact ⟨⟨k, n, hq, hn, hs, hok, hwalk⟩, freedNodes_round hq hn hs hok⟩
    · rintro ⟨⟨k, n, hq, hn, hs, hok, hrest⟩, rfl⟩
      exact ⟨k, n, _, _, hq, hn, hs, (henter k n _ hq hn hs).mpr ⟨hok, rfl⟩,
        (ih (i + 1) _).mpr ⟨hrest, rfl⟩, freedNodes_round hq hn hs hok⟩

theorem lookup_down (hI : Inv s) (ha : Live s (.node a) d F) (hs : d.shape = .memfsNode)
    (hdir : d.type = .dir) (hname : name ∈ s.names d.children)
    (hq : (vfsLookup s (.node a) name).result = .ok (.ok (.node k))) : Down s a k := by
  obtain ⟨b, hb, hq'⟩ := lookup_listed hI ha hdir hs hname
  rw [hq] at hq'
  cases hq'
  exact hb

theorem recurseWalk_succ (ha : s.nodes a = some d) (depth : ℕ) :
    recurseWalk data (depth + 1) s a = (call (.enter a) >>= fun _ =>
      freeWalk data (recurseWalk data depth s) s a d (s.names d.children) 0) := by
  rw [recurseWalk, ha]
  rfl

/-- **`memfs_recurse_free`** with its accesses returns when `memfsRecurseFree` does,
and frees the nodes that one says. -/
theorem recurseWalk_ok_iff (hI : Inv s) (depth : ℕ) :
    ∀ {a : Addr} {d : Node} {F : Fs}, Live s (.node a) d F → d.shape = .memfsNode →
      d.type = .dir → ∀ l, (memfsRecurseFree depth s (.node a)).result = .ok l ↔
        (recurseWalk data depth s a).result = .ok () ∧
          freedNodes (recurseWalk data depth s a).calls = l := by
  induction depth with
  | zero =>
    intro a d F _ _ _ l
    exact iff_of_false (by simp [memfsRecurseFree]) (by simp [recurseWalk])
  | succ depth ih =>
    intro a d F ha hs hdir l
    obtain ⟨hfs, hkind⟩ := hI.memfs_dir ha hs hdir
    have hrec := memfsRecurseFree_eq ha.get hs hfs hkind depth
    rw [hrec, recurseWalk_succ ha.get]
    refine freeWalk_ok_iff hfs ?_ 0 l
    intro name hname k n hq hk hshape htype
    obtain ⟨-, n', G, hn'⟩ := (lookup_down hI ha hs hdir hname hq).live hI ha
    obtain rfl := mem_unique hk hn'.get
    exact ih hn' hshape htype

/-! ### What is freed and read -/

/-- Of the accesses from a directory at `a` down: nodes further down are freed, and no name; those
read are `a`, nodes further down, or mountpoints. -/
def Below (s : State) (a : Addr) : Access → Prop
  | .read b => ReflTransGen (Down s) a b ∨ ∃ c, s.nodes b = some c ∧ c.type = .mountpoint
  | .freeNode b => TransGen (Down s) a b
  | .freeName _ => False
  | _ => True

theorem Below.up {b : Addr} (hab : Down s a b) {x : Access} (h : Below s b x) : Below s a x := by
  cases x with
  | read c => exact h.imp_left fun hc => hc.head hab
  | freeNode c => exact TransGen.head hab h
  | freeName c => exact h
  | _ => trivial

theorem lt_of_transGen (hI : Inv s) (ha : Live s (.node a) d F) {b : Addr}
    (h : TransGen (Down s) a b) : a < b := by
  obtain ⟨c, hac, hcb⟩ := TransGen.head'_iff.mp h
  obtain ⟨hlt, n, G, hn⟩ := hac.live hI ha
  exact Nat.lt_of_lt_of_le hlt (live_of_reach hI hn hcb).1

variable {P : Access → Prop}

theorem reads_meets {l : List Addr} (h : ∀ b ∈ l, P (.read b)) :
    Meets P (reads l) fun _ => True where
  calls x hx := by
    obtain ⟨b, hb, rfl⟩ := mem_map.mp hx
    exact h b hb
  result _ _ := trivial

theorem mem_freeNode {x : Access} (h : x ∈ (freeNode data k).calls) :
    x = .read k ∨ x = .freeData k ∨ x = .freeNode k := by
  rw [freeNode] at h
  by_cases hdata : data k ≠ 0
  · simpa [hdata] using h
  · simp [hdata] at h
    tauto

theorem foundNode_meets {q : Except Stop (Except ℤ Ptr)}
    (h : ∀ k, q = .ok (.ok (.node k)) → P (.read k)) :
    Meets P (foundNode s q) fun x =>
      q = .ok (.ok (.node x.1)) ∧ s.nodes x.1 = some x.2 ∧ x.2.shape = .memfsNode where
  calls := by
    rcases q with e | e | k | ⟨g, i⟩
    · exact (meets_stop (Q := fun _ => True)).calls
    · exact (meets_stop (Q := fun _ => True)).calls
    · have hread : ∀ b ∈ [k], P (.read b) := fun b hb => mem_singleton.mp hb ▸ h k rfl
      refine (Meets.bind (P := fun _ => True) (reads_meets hread) fun _ _ =>
        (meets_ofOption fun _ _ => trivial).bind fun n _ => ?_).calls
      by_cases hs : n.shape ≠ .memfsNode
      · rw [if_pos hs]
        exact meets_stop
      · rw [if_neg hs]
        exact meets_pure trivial
    · exact (meets_stop (Q := fun _ => True)).calls
  result x hx := foundNode_ok_iff.mp hx

/-- The accesses of the loop are good if those to the directory and its entries are, to what the
names lead to, and those of the recursion. -/
theorem freeWalk_meets (hdir : P (.read a)) (hchild : ∀ k ∈ d.children, P (.read k))
    (hcopy : ∀ name, P (.copyName name))
    (hfound : ∀ name ∈ names, ∀ k, (vfsLookup s (.node a) name).result = .ok (.ok (.node k)) →
      P (.read k) ∧ P (.freeData k) ∧ P (.freeNode k))
    (hrec : ∀ name ∈ names, ∀ k n, (vfsLookup s (.node a) name).result = .ok (.ok (.node k)) →
      s.nodes k = some n → n.shape = .memfsNode → n.type = .dir →
      Meets P (recurse k) fun _ => True) :
    ∀ i, Meets P (freeWalk data recurse s a d names i) fun _ => True := by
  have hreads : ∀ l, l ⊆ d.children → Meets P (reads (a :: l)) fun _ => True :=
    fun l hl => reads_meets (forall_mem_cons.mpr ⟨hdir, fun k hk => hchild k (hl hk)⟩)
  induction names with
  | nil =>
    intro i
    exact hreads _ (take_subset _ _)
  | cons name names ih =>
    intro i
    have hrest := ih (fun x hx => hfound x (mem_cons_of_mem name hx))
      (fun x hx => hrec x (mem_cons_of_mem name hx)) (i + 1)
    refine (hreads _ (take_subset _ _)).bind fun _ _ => ?_
    refine (meets_call (hcopy name)).bind fun _ _ => ?_
    refine (hreads _ (take_subset _ _)).bind fun _ _ =>
      (foundNode_meets fun k hk => (hfound name mem_cons_self k hk).1).bind ?_
    rintro ⟨k, n⟩ ⟨hq, hn, hs⟩
    have henter : Meets P (enterDir recurse k n) fun _ => True := by
      rw [enterDir]
      by_cases hdir : n.type = .dir
      · rw [if_pos hdir]
        exact hrec name mem_cons_self k n hq hn hs hdir
      · rw [if_neg hdir]
        exact meets_pure trivial
    obtain ⟨hread, hdata, hnode⟩ := hfound name mem_cons_self k hq
    have hfree : Meets P (freeNode data k) fun _ => True := by
      refine ⟨fun x hx => ?_, fun _ _ => trivial⟩
      rcases mem_freeNode hx with rfl | rfl | rfl
      · exact hread
      · exact hdata
      · exact hnode
    exact henter.bind fun _ _ => hfree.bind fun _ _ => hrest

/-- **The walk stays below** its directory. -/
theorem recurseWalk_meets (hI : Inv s) (depth : ℕ) :
    ∀ {a : Addr} {d : Node} {F : Fs}, Live s (.node a) d F → d.shape = .memfsNode →
      d.type = .dir → Meets (Below s a) (recurseWalk data depth s a) fun _ => True := by
  induction depth with
  | zero =>
    intro a d F _ _ _
    exact meets_stop
  | succ depth ih =>
    intro a d F ha hs hdir
    rw [recurseWalk_succ ha.get]
    refine (meets_call trivial).bind fun _ _ =>
      freeWalk_meets (.inl .refl) ?_ (fun _ => trivial) ?_ ?_ 0
    · intro k hk
      obtain ⟨c, hc⟩ := hI.child_node ha hs k hk
      by_cases hmp : c.type = .mountpoint
      · exact .inr ⟨c, hc, hmp⟩
      · exact .inl (.single ⟨d, k, c, ha.get, hs, hdir, hk, hc, .inl ⟨hmp, rfl⟩⟩)
    · intro name hname k hq
      have hdown := lookup_down hI ha hs hdir hname hq
      exact ⟨.inl (.single hdown), trivial, .single hdown⟩
    · intro name hname k n hq hk hshape htype
      have hdown := lookup_down hI ha hs hdir hname hq
      obtain ⟨-, n', G, hn'⟩ := hdown.live hI ha
      obtain rfl := mem_unique hk hn'.get
      exact (ih hn' hshape htype).weaken fun x hx => hx.up hdown

end Freed

/-! ### What is read again, and what is entered -/

/-- The node is read after it was freed. -/
def ReadAfterFree (l : List Access) (a : Addr) : Prop :=
  ∃ l1 l2, l = l1 ++ .freeNode a :: l2 ∧ Access.read a ∈ l2

section Again

variable {data : Addr → ℕ} {s : State} {a b : Addr} {d : Node} {F : Fs}

theorem ReadAfterFree.of_infix {l l' : List Access} (h : ReadAfterFree l a) (hl : l <:+: l') :
    ReadAfterFree l' a := by
  obtain ⟨l1, l2, rfl, hread⟩ := h
  obtain ⟨p, q, rfl⟩ := hl
  exact ⟨p ++ l1, l2 ++ q, by simp, mem_append_left q hread⟩

/-- The round for one of the names, and what comes after it. -/
theorem freeWalk_round {recurse : Addr → Walk Unit} {name : Name} {names names' : List Name} :
    ∀ {i : ℕ}, (freeWalk data recurse s a d (names ++ name :: names') i).result = .ok () →
      ∃ k n, (vfsLookup s (.node a) name).result = .ok (.ok (.node k)) ∧ s.nodes k = some n ∧
        n.shape = .memfsNode ∧ (enterDir recurse k n).result = .ok () ∧
        (freeWalk data recurse s a d names' (i + names.length + 1)).result = .ok () ∧
        (enterDir recurse k n).calls ++ ((freeNode data k).calls ++
          (freeWalk data recurse s a d names' (i + names.length + 1)).calls) <:+
            (freeWalk data recurse s a d (names ++ name :: names') i).calls := by
  induction names with
  | nil =>
    intro i h
    obtain ⟨k, n, hq, hn, hs, henter, hrest⟩ := freeWalk_cons_ok.mp h
    refine ⟨k, n, hq, hn, hs, henter, hrest, ?_⟩
    rw [nil_append, freeWalk_cons_calls hq hn hs henter]
    exact ⟨(a :: d.children.take (i + 1)).map .read ++ (.copyName name ::
      ((a :: s.searched d.children name).map .read ++ [.read k])), by simp⟩
  | cons first names ih =>
    intro i h
    obtain ⟨k, n, hq, hn, hs, henter, hrest⟩ := freeWalk_cons_ok.mp h
    obtain ⟨k', n', hq', hn', hs', henter', hrest', hin⟩ := ih hrest
    rw [length_cons, Nat.add_comm names.length, ← Nat.add_assoc]
    refine ⟨k', n', hq', hn', hs', henter', hrest', hin.trans ?_⟩
    rw [cons_append, freeWalk_cons_calls hq hn hs henter]
    exact ⟨(a :: d.children.take (i + 1)).map .read ++ (.copyName first ::
      ((a :: s.searched d.children first).map .read ++ (.read k ::
        ((enterDir recurse k n).calls ++ (freeNode data k).calls)))), by simp⟩

theorem length_names {l : List Addr} (h : ∀ k ∈ l, ∃ c, s.nodes k = some c) :
    (s.names l).length = l.length := by
  induction l with
  | nil => rfl
  | cons k l ih =>
    obtain ⟨c, hc⟩ := h k mem_cons_self
    rw [names_cons hc, length_cons, length_cons, ih fun x hx => h x (mem_cons_of_mem k hx)]

variable {depth : ℕ} {k : Addr} {c n : Node}

section Dir

variable (hI : Inv s) (hS : Siblings s) (ha : Live s (.node a) d F) (hs : d.shape = .memfsNode)
  (hdir : d.type = .dir)
include hI hS ha hs hdir

/-- In a walk that returns, the node `b` that a child `k` leads to is entered, if it is a
directory, and freed; and then the loop goes on with the next entry. -/
theorem recurseWalk_entry (h : (recurseWalk data (depth + 1) s a).result = .ok ()) {p q : List Addr}
    (hk : d.children = p ++ k :: q) (hc : s.nodes k = some c) (hb : Leads s k c b)
    (hn : s.nodes b = some n) :
    n.shape = .memfsNode ∧ (enterDir (recurseWalk data depth s) b n).result = .ok () ∧
      (freeWalk data (recurseWalk data depth s) s a d (s.names q) (p.length + 1)).result = .ok () ∧
      (enterDir (recurseWalk data depth s) b n).calls ++ ((freeNode data b).calls ++
        (freeWalk data (recurseWalk data depth s) s a d (s.names q) (p.length + 1)).calls) <:+
          (recurseWalk data (depth + 1) s a).calls := by
  rw [recurseWalk_succ ha.get] at h ⊢
  have hnode := hI.child_node ha hs
  have hnames : s.names d.children = s.names p ++ c.name :: s.names q := by
    rw [hk, State.names, filterMap_append]
    exact congrArg (_ ++ ·) (names_cons hc)
  have hlen : (s.names p).length = p.length :=
    length_names fun x hx => hnode x (hk ▸ mem_append_left _ hx)
  rw [hnames] at h ⊢
  obtain ⟨b', n', hq, hn', hshape, henter, hrest, hin⟩ := freeWalk_round h
  have hk' : k ∈ d.children := hk ▸ mem_append_right p mem_cons_self
  have hq' : (vfsLookup s (.node a) c.name).result = .ok (.ok (.node b)) :=
    (lookup_child_iff hI hS ha hs hdir hk' hc).mpr hb
  rw [hq'] at hq
  cases hq
  obtain rfl := mem_unique hn hn'
  rw [Nat.zero_add, hlen] at hrest hin
  exact ⟨hshape, henter, hrest, hin.trans (suffix_append [Access.enter a] _)⟩

/-- The entries up to the one freed are read again. -/
theorem recurseWalk_child (h : (recurseWalk data (depth + 1) s a).result = .ok ())
    (hk : k ∈ d.children) (hc : s.nodes k = some c) (hb : Leads s k c b) (hn : s.nodes b = some n) :
    n.shape = .memfsNode ∧ (enterDir (recurseWalk data depth s) b n).result = .ok () ∧
      (enterDir (recurseWalk data depth s) b n).calls <:+:
        (recurseWalk data (depth + 1) s a).calls ∧
      ∃ l, .freeNode b :: l <:+: (recurseWalk data (depth + 1) s a).calls ∧ Access.read k ∈ l := by
  obtain ⟨p, q, hpq⟩ := append_of_mem hk
  obtain ⟨hshape, henter, -, hin⟩ := recurseWalk_entry hI hS ha hs hdir h hpq hc hb hn
  obtain ⟨l, hl⟩ : ∃ l, (freeWalk data (recurseWalk data depth s) s a d (s.names q)
      (p.length + 1)).calls = (a :: d.children.take (p.length + 1 + 1)).map .read ++ l :=
    freeWalk_starts ..
  rw [hl] at hin
  have hread : Access.read k ∈ (a :: d.children.take (p.length + 1 + 1)).map .read ++ l := by
    refine mem_append_left l (mem_map.mpr ⟨k, mem_cons_of_mem a ?_, rfl⟩)
    rw [hpq, take_append, Nat.add_assoc, Nat.add_sub_cancel_left]
    exact mem_append_right _ mem_cons_self
  refine ⟨hshape, henter, (prefix_append _ _).isInfix.trans hin.isInfix, _,
    (List.IsSuffix.trans ?_ hin).isInfix, hread⟩
  exact ⟨(enterDir (recurseWalk data depth s) b n).calls ++
      (.read b :: if data b ≠ 0 then [.freeData b] else []), by simp [freeNode]⟩

theorem recurseWalk_below (h : (recurseWalk data depth s a).result = .ok ())
    (hab : ReflTransGen (Down s) a b) (hn : s.nodes b = some n) (hndir : n.type = .dir) :
    n.shape = .memfsNode ∧ ∃ depth', (recurseWalk data (depth' + 1) s b).result = .ok () ∧
      (recurseWalk data (depth' + 1) s b).calls <:+: (recurseWalk data depth s a).calls := by
  induction hab using ReflTransGen.head_induction_on generalizing d F depth with
  | refl =>
    obtain rfl := mem_unique ha.get hn
    cases depth with
    | zero => cases h
    | succ depth => exact ⟨hs, depth, h, infix_rfl⟩
  | head hdown hcb ih =>
    obtain ⟨-, m, G, hm⟩ := hdown.live hI ha
    -- the node in between is a directory too
    have hmdir : m.type = .dir := by
      rcases hcb.cases_head with rfl | ⟨e, ⟨m', -, -, hm', -, hdir', -⟩, -⟩
      · obtain rfl := mem_unique hm.get hn
        exact hndir
      · obtain rfl := mem_unique hm.get hm'
        exact hdir'
    obtain ⟨d', k, c', hd, -, -, hk, hc', hc⟩ := hdown
    obtain rfl := mem_unique ha.get hd
    cases depth with
    | zero => cases h
    | succ depth =>
      obtain ⟨hmshape, hok, hin, -⟩ := recurseWalk_child hI hS ha hs hdir h hk hc' hc hm.get
      rw [enterDir, if_pos hmdir] at hok hin
      obtain ⟨hshape, depth', hbok, hbin⟩ := ih hm hmshape hmdir hok
      exact ⟨hshape, depth', hbok, hbin.trans hin⟩

end Dir

theorem enter_mem (h : (recurseWalk data depth s a).result = .ok ()) :
    Access.enter a ∈ (recurseWalk data depth s a).calls := by
  cases depth with
  | zero => cases h
  | succ depth => exact mem_cons_self

end Again

/-! ### Memory that is handed out again -/

/-- A node is read after it was freed and memory has been asked for since, so that it may hold
something else. -/
def Reused (l : List Access) : Prop :=
  ∃ a name, [.freeNode a, .copyName name, .read a] <+ l

/-- In every directory from `a` down, something is mounted on each entry but the last: no name is
copied after an entry was freed. -/
def Tidy (s : State) (a : Addr) : Prop :=
  ∀ b d, ReflTransGen (Down s) a b → s.nodes b = some d → d.type = .dir →
    ∀ k ∈ d.children.dropLast, ∀ c, s.nodes k = some c → c.type = .mountpoint

section Reused

variable {l l' : List Access}

theorem copyName_not_mem_reads (as : List Addr) (name : Name) :
    .copyName name ∉ as.map Access.read := by
  intro h
  obtain ⟨b, -, hb⟩ := mem_map.mp h
  cases hb

theorem not_reused_of_noCopy (h : ∀ name, .copyName name ∉ l) : ¬ Reused l := by
  rintro ⟨a, name, hsub⟩
  exact h name (hsub.subset (mem_cons_of_mem _ mem_cons_self))

theorem reused_cons {x : Access} (hx : ∀ a, x ≠ .freeNode a) : Reused (x :: l) ↔ Reused l := by
  refine exists₂_congr fun a name => ⟨fun h => ?_, fun h => h.cons x⟩
  exact h.of_cons_of_ne (hx a).symm

theorem reused_reads_append (as : List Addr) : Reused (as.map .read ++ l) ↔ Reused l := by
  induction as with
  | nil => exact Iff.rfl
  | cons a as ih => exact (reused_cons (by simp)).trans ih

/-- One part after the other, where the second reads nothing that the first frees. -/
theorem not_reused_append (h : ¬ Reused l) (h' : ¬ Reused l')
    (hcross : ∀ a, .freeNode a ∈ l → .read a ∉ l') : ¬ Reused (l ++ l') := by
  rintro ⟨a, name, hsub⟩
  obtain ⟨l1, l2, heq, hl1, hl2⟩ := sublist_append_iff.mp hsub
  -- the three accesses are all in one of the parts, or the first and the last are not
  rcases l1 with _ | ⟨x, l1⟩
  · exact h' ⟨a, name, heq ▸ hl2⟩
  obtain ⟨rfl, htail⟩ := cons_eq_cons.mp (heq.trans (cons_append ..))
  rcases eq_nil_or_concat' l2 with rfl | ⟨l2, y, rfl⟩
  · rw [append_nil] at htail
    exact h ⟨a, name, htail ▸ hl1⟩
  · have hlast : y = .read a := by
      have := congrArg getLast? htail
      simpa [eq_comm] using this
    exact hcross a (hl1.subset mem_cons_self) (hl2.subset (by simp [hlast]))

variable {data : Addr → ℕ} {s : State} {a b : Addr} {d : Node} {F : Fs}
variable {recurse : Addr → Walk Unit} {k : Addr} {c : Node} {cs : List Addr}

theorem reach_plain (hI : Inv s) (ha : Live s (.node a) d F) (hb : Down s a b) {y : Addr}
    (h : ReflTransGen (Down s) b y) {n : Node} (hn : s.nodes y = some n) :
    n.type ≠ .mountpoint := by
  rcases h.cases_tail with rfl | ⟨z, hz, hzy⟩
  · exact hb.plain hI ha hn
  · obtain ⟨-, m, M, hm⟩ := hb.live hI ha
    obtain ⟨-, n', G, hn'⟩ := live_of_reach hI hm hz
    exact hzy.plain hI hn' hn

/-- Of the entries of a directory, what one of them leads down to is at most the entry itself. -/
theorem reach_child (hI : Inv s) (ha : Live s (.node a) d F) (hs : d.shape = .memfsNode)
    (hdir : d.type = .dir) (hb : Down s a b) (h : ReflTransGen (Down s) b k)
    (hk : k ∈ d.children) : k = b := by
  obtain ⟨c, hc⟩ := hI.child_node ha hs k hk
  have hdown : Down s a k :=
    ⟨d, k, c, ha.get, hs, hdir, hk, hc, .inl ⟨reach_plain hI ha hb h hc, rfl⟩⟩
  exact reach_disjoint hI ha hdown hb .refl h

/-- The access is not a read further down from `b`. -/
def Spares (s : State) (b : Addr) : Access → Prop
  | .read y => ¬ ReflTransGen (Down s) b y
  | _ => True

/-- After a mountpoint, nothing is read that is further down from what is mounted there. -/
theorem freeWalk_spares (hI : Inv s) (hS : Siblings s) (ha : Live s (.node a) d F)
    (hs : d.shape = .memfsNode) (hdir : d.type = .dir)
    (hrec : ∀ x n, Down s a x → s.nodes x = some n → n.shape = .memfsNode → n.type = .dir →
      Meets (Below s x) (recurse x) fun _ => True)
    (hcs : k :: cs <:+ d.children) (hc : s.nodes k = some c) (hb : Leads s k c b)
    (hmp : c.type = .mountpoint) (i : ℕ) :
    Meets (Spares s b) (freeWalk data recurse s a d (s.names cs) i) fun _ => True := by
  have hk : k ∈ d.children := hcs.subset mem_cons_self
  have hdown : Down s a b := ⟨d, k, c, ha.get, hs, hdir, hk, hc, hb⟩
  obtain ⟨hab, m, M, hm⟩ := hdown.live hI ha
  -- the other names lead somewhere else
  have hother : ∀ name ∈ s.names cs, ∀ x,
      (vfsLookup s (.node a) name).result = .ok (.ok (.node x)) → Down s a x ∧ b ≠ x := by
    intro name hname x hq
    obtain ⟨k', hk', c', hc', rfl⟩ := mem_names.mp hname
    have hmem : k' ∈ d.children := hcs.subset (mem_cons_of_mem k hk')
    have hx := (lookup_child_iff hI hS ha hs hdir hmem hc').mp hq
    refine ⟨⟨d, k', c', ha.get, hs, hdir, hmem, hc', hx⟩, ?_⟩
    rintro rfl
    obtain rfl := entry_unique hI ha ha hs hs hdir hdir hk hmem hc hc' hb hx
    have hnodup : (s.names (k :: cs)).Nodup :=
      ((hS a d ha.get).2 (.inl hdir)).sublist (hcs.sublist.filterMap _)
    rw [names_cons hc, nodup_cons] at hnodup
    exact hnodup.1 (mem_names.mpr ⟨k, hk', c, hc, rfl⟩)
  refine freeWalk_meets ?_ ?_ (fun _ => trivial) ?_ ?_ i
  · intro h
    exact absurd (live_of_reach hI hm h).1 (Nat.not_le.mpr hab)
  · intro k' hk' h
    obtain rfl := reach_child hI ha hs hdir hdown h hk'
    obtain ⟨-, rfl⟩ | ⟨-, H, hH, hr⟩ := hb
    · exact reach_plain hI ha hdown h hc hmp
    · exact entry_not_mounted hI ha ha hs hs hdir hk' hk hc hmp hH hr
  · intro name hname x hq
    obtain ⟨hx, hne⟩ := hother name hname x hq
    exact ⟨fun h => hne (reach_disjoint hI ha hdown hx h .refl), trivial, trivial⟩
  · intro name hname x n hq hn hshape hndir
    obtain ⟨hx, hne⟩ := hother name hname x hq
    refine (hrec x n hx hn hshape hndir).weaken fun z hz => ?_
    cases z with
    | read y =>
      intro h
      rcases hz with hxy | ⟨c', hc', hmp'⟩
      · exact hne (reach_disjoint hI ha hdown hx h hxy)
      · exact reach_plain hI ha hdown h hc' hmp'
    | _ => trivial

/-- **The loop over a directory** whose entries but the last are mountpoints.  The induction is on
the entries: what is freed for a mountpoint is not read again, and after the last entry is freed no
name is copied. -/
theorem freeWalk_intact (hI : Inv s) (hS : Siblings s) (ha : Live s (.node a) d F)
    (hs : d.shape = .memfsNode) (hdir : d.type = .dir)
    (hrec : ∀ x n, Down s a x → s.nodes x = some n → n.shape = .memfsNode → n.type = .dir →
      Meets (Below s x) (recurse x) (fun _ => True) ∧
        ((recurse x).result = .ok () → ¬ Reused (recurse x).calls))
    (hcs : cs <:+ d.children)
    (htidy : ∀ k ∈ cs.dropLast, ∀ c, s.nodes k = some c → c.type = .mountpoint) :
    ∀ i, (freeWalk data recurse s a d (s.names cs) i).result = .ok () →
      ¬ Reused (freeWalk data recurse s a d (s.names cs) i).calls := by
  induction cs with
  | nil =>
    intro i _
    exact not_reused_of_noCopy (copyName_not_mem_reads _)
  | cons k cs ih =>
    intro i hok
    have hk : k ∈ d.children := hcs.subset mem_cons_self
    obtain ⟨c, hc⟩ := hI.child_node ha hs k hk
    rw [names_cons hc] at hok ⊢
    obtain ⟨b, n, hq, hn, hshape, henter, hrest⟩ := freeWalk_cons_ok.mp hok
    have hb := (lookup_child_iff hI hS ha hs hdir hk hc).mp hq
    have hdown : Down s a b := ⟨d, k, c, ha.get, hs, hdir, hk, hc, hb⟩
    obtain ⟨hab, n', G, hn'⟩ := hdown.live hI ha
    obtain ⟨hin, hfreed⟩ : ¬ Reused (enterDir recurse b n).calls ∧
        ∀ x, .freeNode x ∈ (enterDir recurse b n).calls → TransGen (Down s) b x := by
      rw [enterDir] at henter ⊢
      by_cases hndir : n.type = .dir
      · rw [if_pos hndir] at henter ⊢
        obtain ⟨hmeets, hnot⟩ := hrec b n hdown hn hshape hndir
        exact ⟨hnot henter, fun x hx => hmeets.calls _ hx⟩
      · rw [if_neg hndir]
        exact ⟨not_reused_of_noCopy (by simp [pure]), fun x hx => nomatch hx⟩
    have hbelow : ∀ x, TransGen (Down s) b x → b < x := fun x => lt_of_transGen hI hn'
    have hfree : ∀ x, .read x ∈ (freeNode data b).calls → x = b := by
      intro x hx
      rcases mem_freeNode hx with h | h | h <;> cases h
      rfl
    have hnocopy : ∀ name, .copyName name ∉ (freeNode data b).calls := by
      intro name hx
      rcases mem_freeNode hx with h | h | h <;> cases h
    rw [freeWalk_cons_calls hq hn hshape henter, reused_reads_append, reused_cons (by simp),
      reused_reads_append, reused_cons (by simp)]
    by_cases hmp : c.type = .mountpoint
    · have hspares : ∀ x ∈ (freeWalk data recurse s a d (s.names cs) (i + 1)).calls, Spares s b x :=
        (freeWalk_spares hI hS ha hs hdir (fun x n hx hn hsh hd => (hrec x n hx hn hsh hd).1) hcs hc
          hb hmp (i + 1)).calls
      refine not_reused_append hin (not_reused_append (not_reused_of_noCopy hnocopy)
        (ih ((suffix_cons k cs).trans hcs) ?_ (i + 1) hrest) ?_) ?_
      · intro k' hk'
        cases cs with
        | nil => cases hk'
        | cons x xs => exact htidy k' (mem_cons_of_mem k hk')
      · intro x hx hread
        rcases mem_freeNode hx with h | h | h <;> cases h
        exact hspares _ hread .refl
      · intro x hx hread
        rcases mem_append.mp hread with hread | hread
        · exact Nat.ne_of_gt (hbelow x (hfreed x hx)) (hfree x hread)
        · exact hspares _ hread (hfreed x hx).to_reflTransGen
    · -- the last entry
      obtain rfl : cs = [] := by
        cases cs with
        | nil => rfl
        | cons x xs => exact absurd (htidy k mem_cons_self c hc) hmp
      have hlast : (freeWalk data recurse s a d (s.names []) (i + 1)).calls =
          (a :: d.children.take (i + 1 + 1)).map .read := rfl
      rw [hlast]
      refine not_reused_append hin (not_reused_of_noCopy ?_) ?_
      · intro name hx
        rcases mem_append.mp hx with hx | hx
        · exact hnocopy name hx
        · exact copyName_not_mem_reads _ name hx
      · intro x hx hread
        have hbx := hbelow x (hfreed x hx)
        rcases mem_append.mp hread with hread | hread
        · exact Nat.ne_of_gt hbx (hfree x hread)
        · obtain ⟨y, hy, hxy⟩ := mem_map.mp hread
          cases hxy
          rcases mem_cons.mp hy with rfl | hy
          · exact Nat.lt_irrefl _ (hab.trans hbx)
          · exact Nat.ne_of_gt hbx (reach_child hI ha hs hdir hdown
              (hfreed _ hx).to_reflTransGen (take_subset _ _ hy))

theorem Tidy.down (h : Tidy s a) (hb : Down s a b) : Tidy s b :=
  fun x d hx => h x d (hx.head hb)

theorem recurseWalk_intact (hI : Inv s) (hS : Siblings s) (depth : ℕ) :
    ∀ {a : Addr} {d : Node} {F : Fs}, Live s (.node a) d F → d.shape = .memfsNode →
      d.type = .dir → Tidy s a → (recurseWalk data depth s a).result = .ok () →
      ¬ Reused (recurseWalk data depth s a).calls := by
  induction depth with
  | zero =>
    intro a d F _ _ _ _ h
    cases h
  | succ depth ih =>
    intro a d F ha hs hdir htidy h
    rw [recurseWalk_succ ha.get] at h ⊢
    refine (reused_cons (by simp)).not.mpr (freeWalk_intact hI hS ha hs hdir ?_ suffix_rfl
      (htidy a d .refl ha.get hdir) 0 h)
    intro x n hx hn hshape hndir
    obtain ⟨-, n', G, hn'⟩ := hx.live hI ha
    obtain rfl := mem_unique hn hn'.get
    exact ⟨recurseWalk_meets hI depth hn' hshape hndir, ih hn' hshape hndir (htidy.down hx)⟩

/-- **An entry before another** that is not a mountpoint is freed, then the name of the next one is
copied, and then it is read. -/
theorem recurseWalk_reused {depth : ℕ} (hI : Inv s) (hS : Siblings s) (ha : Live s (.node a) d F)
    (hs : d.shape = .memfsNode) (hdir : d.type = .dir)
    (h : (recurseWalk data (depth + 1) s a).result = .ok ()) (hk : k ∈ d.children.dropLast)
    (hc : s.nodes k = some c) (hplain : c.type ≠ .mountpoint) :
    Reused (recurseWalk data (depth + 1) s a).calls := by
  obtain ⟨p, k', q, hpq⟩ : ∃ p k' q, d.children = p ++ k :: k' :: q := by
    have hne : d.children ≠ [] := by
      rintro hnil
      rw [hnil] at hk
      cases hk
    obtain ⟨p, q, hp⟩ := append_of_mem hk
    rw [← dropLast_append_getLast hne, hp]
    cases q with
    | nil => exact ⟨p, d.children.getLast hne, [], by simp⟩
    | cons x q => exact ⟨p, x, q ++ [d.children.getLast hne], by simp⟩
  have hnode := hI.child_node ha hs
  obtain ⟨c', hc'⟩ := hnode k' (by simp [hpq])
  obtain ⟨-, -, hrest, hin⟩ :=
    recurseWalk_entry hI hS ha hs hdir h hpq hc (.inl ⟨hplain, rfl⟩) hc
  rw [names_cons hc'] at hrest hin
  obtain ⟨b, n, hq, hn, hshape, henter, -⟩ := freeWalk_cons_ok.mp hrest
  obtain ⟨l, hl⟩ : ∃ l, (freeWalk data (recurseWalk data depth s) s a d (s.names q)
      (p.length + 1 + 1)).calls = (a :: d.children.take (p.length + 1 + 1 + 1)).map .read ++ l :=
    freeWalk_starts ..
  have hread : Access.read k ∈ (a :: d.children.take (p.length + 1 + 1 + 1)).map .read ++ l := by
    refine mem_append_left l (mem_map.mpr ⟨k, mem_cons_of_mem a ?_, rfl⟩)
    rw [hpq, take_append, Nat.add_assoc, Nat.add_assoc, Nat.add_sub_cancel_left]
    exact mem_append_right _ mem_cons_self
  refine ⟨k, c'.name, List.Sublist.trans ?_ hin.sublist⟩
  have hfreed : [.freeNode k] <+ (freeNode data k).calls :=
    singleton_sublist.mpr (by simp [freeNode])
  have hagain : [.copyName c'.name, .read k] <+ (freeWalk data (recurseWalk data depth s) s a d
      (c'.name :: s.names q) (p.length + 1)).calls := by
    rw [freeWalk_cons_calls hq hn hshape henter, hl]
    refine ((singleton_sublist.mpr ?_).cons_cons (Access.copyName c'.name)).trans
      (sublist_append_right _ _)
    exact mem_append_right _ (mem_cons_of_mem _ (mem_append_right _ (mem_append_right _ hread)))
  exact (hfreed.append hagain).trans (sublist_append_right _ _)

end Reused

/-! ### Unmounting -/

/-- `memfs_unmount` frees exactly the memory of the memfs `g` with the root at `r`. -/
structure FreesExactly (data : Addr → ℕ) (s : State) (g : ℕ) (r : Addr) : Prop where
  returns : (unmountWalk data s g r).result = .ok ()
  node : ∀ a n, NodeOf s g a n → (unmountWalk data s g r).calls.count (.freeNode a) = 1 ∧
    (unmountWalk data s g r).calls.count (.freeName a) = 1 ∧
    (data a ≠ 0 → (unmountWalk data s g r).calls.count (.freeData a) = 1)
  fs : (unmountWalk data s g r).calls.count (.freeFs g) = 1
  /-- no node is read after it was freed -/
  intact : ∀ a, ¬ ReadAfterFree (unmountWalk data s g r).calls a
  /-- no node of another file system is freed or descended into -/
  own : ∀ a x, x ∈ (unmountWalk data s g r).calls →
    (x = .freeNode a ∨ x = .freeName a ∨ x = .freeData a ∨ x = .enter a) → ∃ n, NodeOf s g a n

/-- **Unmounting leaves no trace of a failure**: `vfs_unmount` returns, if it returns an error it
has changed nothing, and `memfs_unmount` reads no node whose memory may have been handed out
again. -/
structure UnmountAtomic (data : Addr → ℕ) (s : State) (t g : ℕ) : Prop where
  returns : ReturnsAtomically s t g
  intact : ∀ G r s', s.fss g = some G → G.kind = .mem → G.root = some r →
    (detach s G).result = .ok s' → ¬ Reused (unmountWalk data s' g r).calls

section Unmount

variable {data : Addr → ℕ} {s : State} {g : ℕ} {G : Fs} {r : Addr}

theorem unmountWalk_meets (hI : Inv s) (hG : s.fss g = some G) (hkept : G.freed = false)
    (hkind : G.kind = .mem) (hr : G.root = some r) :
    Meets (Below s r) (unmountWalk data s g r) fun _ => True := by
  obtain ⟨d, hd, -, hdir, hs⟩ := hI.live_root hG hkept hr
  rw [hkind] at hs
  exact (recurseWalk_meets hI (s.next + 2) hd hs hdir).bind fun _ _ =>
    meets_call trivial

/-- **`memfs_unmount`** never frees exactly the memory of its memfs: the root and the names are
left.  If it returns, each entry further down is read after it was freed; and where another memfs
is mounted on the entry, its root is entered and freed instead. -/
theorem unmount_never_frees_exactly (hI : Inv s) (hS : Siblings s) (hG : s.fss g = some G)
    (hkept : G.freed = false) (hkind : G.kind = .mem) (hr : G.root = some r) :
    ¬ FreesExactly data s g r ∧ Access.freeNode r ∉ (unmountWalk data s g r).calls ∧
      (∀ a, Access.freeName a ∉ (unmountWalk data s g r).calls) ∧
      ((unmountWalk data s g r).result = .ok () → ∀ b d k c,
        Relation.ReflTransGen (Down s) r b → s.nodes b = some d → d.type = .dir →
        k ∈ d.children → s.nodes k = some c →
          (c.type ≠ .mountpoint → ReadAfterFree (unmountWalk data s g r).calls k) ∧
          (c.type = .mountpoint → ∀ H x, s.fss c.fs = some H → H.root = some x →
            Access.enter x ∈ (unmountWalk data s g r).calls ∧
            Access.freeNode x ∈ (unmountWalk data s g r).calls ∧ ∀ n, ¬ NodeOf s g x n)) := by
  have hmeets : Meets (Below s r) (unmountWalk data s g r) fun _ => True :=
    unmountWalk_meets hI hG hkept hkind hr
  obtain ⟨n, hn, hmade, hdir, hs⟩ := hI.live_root hG hkept hr
  rw [hkind] at hs
  have hroot : Access.freeNode r ∉ (unmountWalk data s g r).calls :=
    fun h => Nat.lt_irrefl r (lt_of_transGen hI hn (hmeets.calls _ h))
  refine ⟨?_, hroot, fun a h => hmeets.calls _ h, ?_⟩
  · -- the root is a node of the memfs
    intro h
    have hcount := (h.node r n ⟨hn.get, hmade⟩).1
    rw [count_eq_zero_of_not_mem hroot] at hcount
    cases hcount
  · intro hok b d k c hrb hd hddir hk hc
    obtain ⟨_, hwalk, -⟩ := result_bind_eq_ok.mp hok
    have hcalls :
        (recurseWalk data (s.next + 2) s r).calls <:+: (unmountWalk data s g r).calls := by
      rw [unmountWalk, bind_of_ok hwalk]
      exact (prefix_append _ _).isInfix
    obtain ⟨hshape, depth, hbok, hin⟩ := recurseWalk_below hI hS hn hs hdir hwalk hrb hd hddir
    obtain ⟨hle, d', D, hd'⟩ := live_of_reach hI hn hrb
    obtain rfl := mem_unique hd hd'.get
    replace hin := hin.trans hcalls
    constructor
    · intro hplain
      obtain ⟨-, -, -, l, ⟨p, q, hl⟩, hread⟩ :=
        recurseWalk_child hI hS hd' hshape hddir hbok hk hc (.inl ⟨hplain, rfl⟩) hc
      refine ReadAfterFree.of_infix ⟨p, l ++ q, ?_, mem_append_left q hread⟩ hin
      rw [← hl, append_assoc, cons_append]
    · intro hmp H x hH hx
      have hb : Leads s k c x := .inr ⟨hmp, H, hH, hx⟩
      obtain ⟨hbx, -⟩ := Down.live hI hd' ⟨d, k, c, hd, hshape, hddir, hk, hc, hb⟩
      obtain ⟨m, hm, hmdir, hmmade, -⟩ := mounted_root hI hd' hshape hk hc hmp hH hx
      obtain ⟨-, hmok, hmin, l, hl, -⟩ := recurseWalk_child hI hS hd' hshape hddir hbok hk hc hb hm
      rw [enterDir, if_pos hmdir] at hmok hmin
      refine ⟨(hmin.trans hin).subset (enter_mem hmok),
        (hl.trans hin).subset mem_cons_self, ?_⟩
      -- the root of the memfs is further up
      rintro n' ⟨hn', hn'made⟩
      obtain rfl := mem_unique hm hn'
      rw [← hmmade, hn'made, hG] at hH
      obtain rfl := some_inj.mp hH
      obtain rfl := mem_unique hr hx
      exact Nat.lt_irrefl r (Nat.lt_of_le_of_lt hle hbx)

/-- It returns iff there is nothing but memfs further down. -/
theorem unmountWalk_ok_iff (hI : Inv s) (hS : Siblings s) (hG : s.fss g = some G)
    (hkept : G.freed = false) (hkind : G.kind = .mem) (hr : G.root = some r) :
    (unmountWalk data s g r).result = .ok () ↔ OnlyMemfs s r := by
  obtain ⟨d, hd, -, hdir, hs⟩ := hI.live_root hG hkept hr
  rw [hkind] at hs
  have hdepth : s.next < s.next + 2 + r :=
    Nat.lt_of_lt_of_le (Nat.lt_add_of_pos_right Nat.two_pos) (Nat.le_add_right _ _)
  rw [← memfsRecurseFree_ok_iff hI hS (s.next + 2) hd hs hdir hdepth]
  constructor
  · intro h
    obtain ⟨_, hwalk, -⟩ := result_bind_eq_ok.mp h
    exact ⟨_, (recurseWalk_ok_iff hI (s.next + 2) hd hs hdir _).mpr ⟨hwalk, rfl⟩⟩
  · rintro ⟨l, hl⟩
    have hwalk : (recurseWalk data (s.next + 2) s r).result = .ok () :=
      ((recurseWalk_ok_iff hI (s.next + 2) hd hs hdir l).mp hl).1
    exact result_bind_eq_ok.mpr ⟨(), hwalk, rfl⟩

theorem tidy_congr {s' : State} {k : Addr} {d : Node} {F : Fs} (hI : Inv s)
    (hnodes : ∀ j, k < j → s'.nodes j = s.nodes j) (hfss : s'.fss = s.fss)
    (hr : Live s (.node r) d F) (hkr : k < r) (honly : OnlyMemfs s r) : Tidy s' r ↔ Tidy s r := by
  refine forall₂_congr fun b n => ?_
  rw [reach_congr hI hnodes hfss hr hkr]
  refine imp_congr_right fun hb => ?_
  obtain ⟨hle, m, M, hm⟩ := live_of_reach hI hr hb
  have hkb := Nat.lt_of_lt_of_le hkr hle
  rw [hnodes b hkb]
  refine imp_congr_right fun hn => imp_congr_right fun _ => forall₂_congr fun j hj => ?_
  obtain rfl := mem_unique hn hm.get
  obtain ⟨n', hn', hs⟩ := honly b hb
  obtain rfl := mem_unique hn hn'
  have hbj := ((hI.node b n M hm).child hs j (dropLast_subset _ hj)).1
  rw [hnodes j (hkb.trans hbj)]

/-- **No memory is read after it may have been handed out again** iff each directory has
mountpoints only before its last entry. -/
theorem unmountWalk_intact_iff (hI : Inv s) (hS : Siblings s) (hG : s.fss g = some G)
    (hkept : G.freed = false) (hkind : G.kind = .mem) (hr : G.root = some r)
    (honly : OnlyMemfs s r) : ¬ Reused (unmountWalk data s g r).calls ↔ Tidy s r := by
  obtain ⟨n, hn, -, hdir, hs⟩ := hI.live_root hG hkept hr
  rw [hkind] at hs
  have hok : (unmountWalk data s g r).result = .ok () :=
    (unmountWalk_ok_iff hI hS hG hkept hkind hr).mpr honly
  obtain ⟨_, hwalk, -⟩ := result_bind_eq_ok.mp hok
  have hcalls : (unmountWalk data s g r).calls =
      (recurseWalk data (s.next + 2) s r).calls ++ [.freeFs g] := by
    rw [unmountWalk, bind_of_ok hwalk]
    rfl
  rw [hcalls]
  constructor
  · intro hintact b d hrb hd hddir k hk c hc
    by_contra hplain
    obtain ⟨hshape, depth, hbok, hin⟩ := recurseWalk_below hI hS hn hs hdir hwalk hrb hd hddir
    obtain ⟨-, d', D, hd'⟩ := live_of_reach hI hn hrb
    obtain rfl := mem_unique hd hd'.get
    obtain ⟨x, name, hsub⟩ := recurseWalk_reused hI hS hd' hshape hddir hbok hk hc hplain
    exact hintact ⟨x, name, (hsub.trans hin.sublist).trans (sublist_append_left _ _)⟩
  · intro htidy
    exact not_reused_append (recurseWalk_intact hI hS (s.next + 2) hn hs hdir htidy hwalk)
      (not_reused_of_noCopy (by simp)) (by simp)

/-- **Unmounting.**  A memfs below the root with nothing but memfs in it, in whose directories only
the last entry is not a mountpoint, is unmounted without a trace.  The root file system, devfs and
ext2 never are; nor is a memfs with memfs in it in which an entry that is freed comes before
another. -/
theorem unmount_atomic {es : List Event} (hrun : Run Step {} es s)
    (hok : Guarded Step Proper {} es) (h : MountedFs s g G) (t : ℕ) :
    (s.root ≠ some g ∧ G.kind = .mem ∧ (∀ r ∈ G.root, OnlyMemfs s r ∧ Tidy s r) →
      UnmountAtomic data s t g) ∧
    (UnmountAtomic data s t g →
      s.root ≠ some g ∧ G.kind = .mem ∧ ∀ r ∈ G.root, OnlyMemfs s r → Tidy s r) := by
  obtain ⟨hI, hS⟩ := siblings_of_run hrun hok
  -- detaching changes nothing further down, so the walk can be judged before it
  have hwalk : s.root ≠ some g → G.kind = .mem → ∀ r ∈ G.root, OnlyMemfs s r →
      ∀ s', (detach s G).result = .ok s' →
        (¬ Reused (unmountWalk data s' g r).calls ↔ Tidy s r) := by
    intro hroot hkind r hr honly s' hs'
    obtain ⟨s1, k, r', hdetach, -, hI1, hS1, hfss, hr', hlt, hnodes⟩ :=
      exists_detached hI hS h hroot
    obtain rfl := mem_unique hr hr'
    rw [hdetach] at hs'
    cases hs'
    obtain ⟨d, hd, -⟩ := hI.live_root h.fs h.kept hr
    rw [← tidy_congr hI hnodes hfss hd hlt honly]
    exact unmountWalk_intact_iff hI1 hS1 (hfss ▸ h.fs) h.kept hkind hr
      ((onlyMemfs_congr hI hnodes hfss hd hlt).mpr honly)
  constructor
  · rintro ⟨hroot, hkind, hbelow⟩
    refine ⟨returnsAtomically_of_onlyMemfs hI hS h hroot hkind fun r hr => (hbelow r hr).1, ?_⟩
    intro G' r s' hG' _ hr hs'
    obtain rfl := mem_unique h.fs hG'
    exact (hwalk hroot hkind r hr (hbelow r hr).1 s' hs').mpr (hbelow r hr).2
  · rintro ⟨hret, hintact⟩
    obtain ⟨hroot, hkind⟩ : s.root ≠ some g ∧ G.kind = .mem := by
      by_contra hnot
      refine not_returnsAtomically hI hS h ?_ hret
      tauto
    refine ⟨hroot, hkind, fun r hr honly => ?_⟩
    obtain ⟨s1, k, r', hdetach, -⟩ := exists_detached hI hS h hroot
    have hs1 := congrArg Traced.result hdetach
    exact (hwalk hroot hkind r hr honly s1 hs1).mp (hintact G r s1 h.fs hkind hr hs1)

end Unmount

/-- A memfs on `/m` with a file `f` and a directory `n`, and a memfs on `/m/n`. -/
def memfsInside : List Event :=
  memfsBelow ++ [.create 0 (some (.node 2)) [102], .mkdir 0 (some (.node 2)) [110], .memfsNew,
    .mount 0 2 [slash, 109, slash, 110]]

/-- The file has a buffer. -/
def fileData (a : Addr) : ℕ := if a = 3 then 4096 else 0

theorem unmount_never_frees_inside :
    ¬ FreesExactly fileData (reached memfsInside) 1 2 ∧
      Access.freeNode 2 ∉ (unmountWalk fileData (reached memfsInside) 1 2).calls := by
  have hrun : Run Step {} memfsInside (reached memfsInside) := run_reached (by decide +kernel)
  have hguard : Guarded Step Proper {} memfsInside :=
    guarded_of_take (by decide +kernel)
  obtain ⟨hI, hS⟩ := siblings_of_run hrun hguard
  have hfs : ∃ G, (reached memfsInside).fss 1 = some G ∧ G.freed = false ∧ G.kind = .mem ∧
      G.root = some 2 := ⟨_, rfl, rfl, rfl, rfl⟩
  obtain ⟨G, hG, hkept, hkind, hr⟩ := hfs
  obtain ⟨hnot, hroot, -⟩ := unmount_never_frees_exactly hI hS hG hkept hkind hr
  exact ⟨hnot, hroot⟩

/-- A memfs on `/m` with the file `f` in it. -/
def memfsWithFile : List Event := memfsBelow ++ [.create 0 (some (.node 2)) [102]]

/-- It can be unmounted. -/
theorem unmount_atomic_one_file : UnmountAtomic fileData (reached memfsWithFile) 0 1 := by
  have hrun : Run Step {} memfsWithFile (reached memfsWithFile) := run_reached (by decide +kernel)
  have hdown : ∀ b c, Down (reached memfsWithFile) b c → b = 2 ∨ b = 3 → c = 3 := by
    rintro b c ⟨d, k, n, hd, -, hdir, hk, hn, hc⟩ (rfl | rfl)
    · obtain rfl := some_inj.mp hd
      obtain rfl : k = 3 := mem_singleton.mp hk
      obtain rfl := some_inj.mp hn
      rcases hc with ⟨-, rfl⟩ | ⟨hmp, -⟩
      · rfl
      · cases hmp
    · obtain rfl := some_inj.mp hd
      cases hdir
  have hreach : ∀ b, ReflTransGen (Down (reached memfsWithFile)) 2 b → b = 2 ∨ b = 3 := by
    intro b hb
    induction hb with
    | refl => exact .inl rfl
    | tail _ hbc ih => exact .inr (hdown _ _ hbc ih)
  refine (unmount_atomic hrun (guarded_of_take (by decide +kernel))
    ⟨rfl, rfl, by decide, .inr ⟨1, _, rfl, rfl, rfl, rfl⟩⟩ 0).1 ⟨by decide, rfl, fun r hr => ?_⟩
  obtain rfl : 2 = r := some_inj.mp hr
  constructor
  · intro b hb
    rcases hreach b hb with rfl | rfl
    · exact ⟨_, rfl, rfl⟩
    · exact ⟨_, rfl, rfl⟩
  · intro b d hb hd _ k hk
    rcases hreach b hb with rfl | rfl <;> obtain rfl := some_inj.mp hd <;> cases hk

/-- What unmounting the memfs on `/m` does. -/
def unmountInside : List Access :=
  [.enter 2, .read 2, .read 4, .copyName [110], .read 2, .read 4, .read 5,
    .enter 5, .read 5, .read 5, .freeNode 5,
    .read 2, .read 4, .read 3, .copyName [102], .read 2, .read 4, .read 3, .read 3, .read 3,
    .freeData 3, .freeNode 3, .read 2, .read 4, .read 3, .freeFs 1]

/-- **Unmounting the memfs on `/m`.**  The file `f` at 3 is freed and then read; the root
at 5 of the memfs on `/m/n` is entered and freed; and the root at 2, the directory `n`
at 4 and the names stay. -/
theorem unmount_frees_others :
    Run Step {} memfsInside (reached memfsInside) ∧
    unmountWalk fileData (reached memfsInside) 1 2 = ⟨unmountInside, .ok ()⟩ ∧
    (reached memfsInside).nodesOf 1 = [2, 3, 4] ∧ (reached memfsInside).nodesOf 2 = [5] ∧
    freedNodes unmountInside = [5, 3] ∧ ReadAfterFree unmountInside 3 ∧
    ¬ FreesExactly fileData (reached memfsInside) 1 2 := by
  have hwalk : unmountWalk fileData (reached memfsInside) 1 2 = ⟨unmountInside, .ok ()⟩ := rfl
  refine ⟨run_reached (by decide +kernel), hwalk, by decide +kernel, by decide +kernel, rfl, ?_, ?_⟩
  · exact ⟨unmountInside.take 21, unmountInside.drop 22, rfl, by decide⟩
  · intro h
    have hcount := (h.node 2 _ ⟨rfl, rfl⟩).1
    exact absurd hcount (by decide)

end Vfs
