/-
Changes to the nodes and file systems of the VFS that keep their invariant.

An operation changes a few nodes and file systems; what holds of the others
follows from what no operation changes in a node or a file system.

* `Inv.update` — the invariant after an update need be shown for the nodes and
  file systems updated only;
* `Inv.newFs`, `Inv.alloc_inode`, `Inv.setParent`, `Inv.register`,
  `Inv.setRoot`, `Inv.retype`, `Inv.addChild`, `Inv.free` — the changes that the
  operations are made of.
-/
import Minima.VfsInv

namespace Vfs

open Function Option
open Ext2 (Entry lastPrefix live dot dotDot enoent)
open Traced

/-! ### Changes that keep the invariant -/

/-- What no operation changes in a node, but for freeing it. -/
structure SameNode (u u' : Node) : Prop where
  freed : u'.freed = u.freed
  made : u'.made = u.made
  shape : u'.shape = u.shape
  up : u'.up = u.up
  id : u'.id = u.id
  name : u'.name = u.name

/-- What no operation changes in a file system, but for freeing it; the root and
the parent stay once the file system is mounted. -/
structure SameFs (G G' : Fs) : Prop where
  kind : G'.kind = G.kind
  freed : G'.freed = G.freed
  disk : G'.disk = G.disk
  root : ∀ r, G.root = some r → G'.root = some r
  parent : G.root ≠ none → G'.parent = G.parent ∧ G'.parentNode = G.parentNode

theorem SameNode.refl (u : Node) : SameNode u u := ⟨rfl, rfl, rfl, rfl, rfl, rfl⟩

theorem SameFs.refl (G : Fs) : SameFs G G := ⟨rfl, rfl, rfl, fun _ h => h, fun _ => ⟨rfl, rfl⟩⟩

/-- Nodes and file systems stay what they are. -/
structure Grows (s s' : State) : Prop where
  node : ∀ a u, s.nodes a = some u → ∃ u', s'.nodes a = some u' ∧ SameNode u u'
  fs : ∀ g G, s.fss g = some G → ∃ G', s'.fss g = some G' ∧ SameFs G G'

section Grows

variable {s s' : State} {a : Addr} {n : Node} {F : Fs}

theorem Grows.live (hg : Grows s s') (h : Live s (.node a) n F) :
    ∃ n' F', Live s' (.node a) n' F' ∧ SameNode n n' ∧ SameFs F F' := by
  obtain ⟨n', hn', hsame⟩ := hg.node a n h.get
  obtain ⟨F', hF', hsameF⟩ := hg.fs _ F h.fs
  refine ⟨n', F', ⟨hn', hsame.freed.trans h.kept, ?_, hsameF.freed.trans h.fsKept⟩, hsame, hsameF⟩
  rw [hsame.made]
  exact hF'

variable {g : ℕ}

theorem Grows.memAt (hg : Grows s s') {c : Node} (h : MemAt s g a c) :
    ∃ c', MemAt s' g a c' ∧ SameNode c c' := by
  obtain ⟨c', hc', hsame⟩ := hg.node a c h.1
  exact ⟨c', ⟨hc', hsame.freed.trans h.2.1, hsame.made.trans h.2.2.1,
    hsame.shape.trans h.2.2.2⟩, hsame⟩

theorem NodeInv.grow (h : NodeInv s a n F) (hg : Grows s s') {F' : Fs} (hF : SameFs F F') :
    NodeInv s' a n F' where
  kind := h.kind.trans hF.kind.symm
  plain := h.plain
  mount hmp := by
    obtain ⟨⟨G, r, hG, hGk, hr, hparNode, hpar⟩, hnroot, hdev⟩ := h.mount hmp
    obtain ⟨G', hG', hsame⟩ := hg.fs _ G hG
    obtain ⟨hpar', hparNode'⟩ := hsame.parent (by simp [hr])
    obtain ⟨r', hr', -⟩ := h.root hdev
    refine ⟨⟨G', r, hG', hsame.freed.trans hGk, hsame.root r hr, hparNode'.trans hparNode,
      hpar'.trans hpar⟩, ?_, hdev⟩
    rw [hF.root r' hr', ← hr']
    exact hnroot
  root hdev := by
    obtain ⟨r, hr, hle⟩ := h.root hdev
    exact ⟨r, hF.root r hr, hle⟩
  devRoot hdev hdir := hF.root a (h.devRoot hdev hdir)
  inode := by
    rw [hF.disk]
    exact h.inode
  up hs hroot := by
    have hnroot : F.root ≠ some a := fun hr => hroot (hF.root a hr)
    obtain ⟨hlt, u, hu⟩ := h.up hs hnroot
    obtain ⟨u', hu', -⟩ := hg.memAt hu
    exact ⟨hlt, u', hu'⟩
  child hs k hk := by
    obtain ⟨hlt, c, hc, hup, hdots⟩ := h.child hs k hk
    obtain ⟨c', hc', hsame⟩ := hg.memAt hc
    exact ⟨hlt, c', hc', hsame.up.trans hup, hsame.name ▸ hdots⟩

theorem FsInv.grow {G G' : Fs} (h : FsInv s g G) (hg : Grows s s') (hG : SameFs G G')
    (hr : G'.root = G.root) (hd : G'.devices = G.devices) (hpar : G'.parentNode = G.parentNode)
    (hroot : s'.root = some g ↔ s.root = some g)
    (ht : ∀ a u u', (G.root = some a ∨ a ∈ G.devices) → s.nodes a = some u →
      s'.nodes a = some u' → u'.type = u.type) : FsInv s' g G' where
  root r hr' := by
    rw [hr] at hr'
    obtain ⟨n, hn, hfree, hmade, htype, hshape, hid, hup⟩ := h.root r hr'
    obtain ⟨n', hn', hsame⟩ := hg.node r n hn
    refine ⟨n', hn', hsame.freed.trans hfree, hsame.made.trans hmade,
      (ht r n n' (.inl hr') hn hn').trans htype, ?_, ?_, ?_⟩
    · rw [hsame.shape, hG.kind]
      exact hshape
    · rw [hG.kind, hsame.id]
      exact hid
    · rw [hG.kind, hsame.up, hpar]
      exact hup
  parent r hr' := by
    rw [hr] at hr'
    obtain ⟨hparent, -⟩ := hG.parent (by simp [hr'])
    rw [hroot, hparent, hpar]
    refine (h.parent r hr').imp_right ?_
    rintro ⟨hnot, k, n, F, hk, hlive, hlt, hdev, hmade⟩
    obtain ⟨n', F', hlive', hsame, -⟩ := hg.live hlive
    exact ⟨fun hs' => hnot (hroot.mp hs'), k, n', F', hk, hlive', hlt, hsame.shape ▸ hdev,
      hsame.made ▸ hmade⟩
  device k hk := by
    rw [hd] at hk
    obtain ⟨n, hn, hfree, hmade, hshape, hdir, hmp⟩ := h.device k hk
    obtain ⟨n', hn', hsame⟩ := hg.node k n hn
    have htype := ht k n n' (.inr hk) hn hn'
    exact ⟨n', hn', hsame.freed.trans hfree, hsame.made.trans hmade, hsame.shape.trans hshape,
      htype ▸ hdir, htype ▸ hmp⟩
  fresh hr' hkind := by
    rw [hr] at hr'
    rw [hG.kind] at hkind
    exact hpar.trans (h.fresh hr' hkind)

theorem Grows.hasRoot (hg : Grows s s') (h : HasRoot s g) : HasRoot s' g := by
  obtain ⟨G, hG, hr⟩ := h
  obtain ⟨r, hr⟩ := ne_none_iff_exists'.mp hr
  obtain ⟨G', hG', hsame⟩ := hg.fs g G hG
  exact ⟨G', hG', by simp [hsame.root r hr]⟩

theorem NodeRefs.grow (h : NodeRefs s n) (hg : Grows s s') (hnext : s.next ≤ s'.next) :
    NodeRefs s' n where
  up hs := Nat.lt_of_lt_of_le (h.up hs) hnext
  mount hmp := hg.hasRoot (h.mount hmp)

theorem FsRefs.grow (h : FsRefs s F) (hg : Grows s s') (hnext : s.next ≤ s'.next) :
    FsRefs s' F where
  parentNode k hk := Nat.lt_of_lt_of_le (h.parentNode k hk) hnext
  device k hk := Nat.lt_of_lt_of_le (h.device k hk) hnext
  parent g hg' := hg.hasRoot (h.parent g hg')

theorem Grows.get (hg : Grows s s') {p : Ptr} (h : s.get p = some n) :
    ∃ n', s'.get p = some n' ∧ n'.made = n.made ∧ n'.shape = n.shape := by
  cases p with
  | node a =>
    obtain ⟨n', hn', hsame⟩ := hg.node a n h
    exact ⟨n', hn', hsame.made, hsame.shape⟩
  | ext2 g i =>
    obtain ⟨G, hG, hkind, hroot, rfl⟩ := get_ext2 h
    obtain ⟨G', hG', hsame⟩ := hg.fs g G hG
    obtain ⟨r, hr⟩ := ne_none_iff_exists'.mp hroot
    refine ⟨inodeNode g i G'.disk, ?_, rfl, rfl⟩
    simp only [State.get, hG', bind_some]
    rw [if_pos ⟨hsame.kind.trans hkind, by simp [hsame.root r hr]⟩]

end Grows

/-- `s'` is `s` but for the nodes in `A` and the file systems in `B`, for which the
invariant holds in `s'`. -/
structure Update (s s' : State) (A : Addr → Prop) (B : ℕ → Prop) : Prop where
  grows : Grows s s'
  nodes : ∀ a, ¬ A a → s'.nodes a = s.nodes a := by exact fun _ _ => rfl
  fss : ∀ g, ¬ B g → s'.fss g = s.fss g := by exact fun _ _ => rfl
  type : ∀ g G a u u', s.fss g = some G → G.freed = false → (G.root = some a ∨ a ∈ G.devices) →
    s.nodes a = some u → s'.nodes a = some u' → u'.type = u.type
  newNode : ∀ a n, A a → s'.nodes a = some n → (a < s'.next ∧ n.made < s'.nextFs) ∧
      NodeRefs s' n ∧ ∀ F, Live s' (.node a) n F → NodeInv s' a n F := by
    exact fun _ _ h => h.elim
  old : ∀ g, B g → s.nextFs ≤ g ∨ ∃ G, s.fss g = some G := by exact fun _ h => h.elim
  newFs : ∀ g G, B g → s'.fss g = some G →
      g < s'.nextFs ∧ FsRefs s' G ∧ (G.freed = false → FsInv s' g G) := by
    exact fun _ _ h => h.elim
  next : s.next ≤ s'.next := by exact Nat.le_refl _
  nextFs : s.nextFs ≤ s'.nextFs := by exact Nat.le_refl _
  root : ∀ g, ¬ B g → (s'.root = some g ↔ s.root = some g) := by exact fun _ _ => Iff.rfl
  rootFs : ∀ g, s'.root = some g → s.root = some g ∨
    ∃ G r, s'.fss g = some G ∧ G.freed = false ∧ G.root = some r := by exact fun _ h => .inl h
  devfs : ∀ g, s'.devfs = some g → s.devfs = some g ∨
    ∃ G, s'.fss g = some G ∧ G.kind = .dev ∧ G.freed = false := by exact fun _ h => .inl h
  files : ∀ i f, s'.files i = some f → s.files i = some f ∨
    ∃ n F, s'.get f.node = some n ∧ n.made = f.fs ∧
      s'.fss f.fs = some F ∧ ∀ sh ∈ F.kind.casts .fileOp, n.shape = sh := by
    exact fun _ _ h => .inl h

section Update

variable {s s' : State} {A : Addr → Prop} {B : ℕ → Prop}

theorem Update.live_old (hI : Inv s) (hU : Update s s' A B) {a : Addr} {n : Node} {F : Fs}
    (ha : ¬ A a) (h : Live s' (.node a) n F) : ∃ F0, Live s (.node a) n F0 ∧ SameFs F0 F := by
  have hn : s.nodes a = some n := (hU.nodes a ha).symm.trans h.get
  have hfs : ∃ F0, s.fss n.made = some F0 := by
    by_cases hB : B n.made
    · rcases hU.old _ hB with hle | hold
      · exact absurd (hI.next a n hn).2 (Nat.not_lt.mpr hle)
      · exact hold
    · exact ⟨F, (hU.fss _ hB).symm.trans h.fs⟩
  obtain ⟨F0, hF0⟩ := hfs
  obtain ⟨F', hF', hsame⟩ := hU.grows.fs _ F0 hF0
  obtain rfl := mem_unique hF' h.fs
  exact ⟨F0, ⟨hn, h.kept, hF0, hsame.freed.symm.trans h.fsKept⟩, hsame⟩

theorem Inv.update (hI : Inv s) (hU : Update s s' A B) : Inv s' where
  node a n F h := by
    by_cases ha : A a
    · exact (hU.newNode a n ha h.get).2.2 F h
    · obtain ⟨F0, hold, hsame⟩ := hU.live_old hI ha h
      exact (hI.node a n F0 hold).grow hU.grows hsame
  fs g G hG hk := by
    by_cases hB : B g
    · exact (hU.newFs g G hB hG).2.2 hk
    · have hold : s.fss g = some G := (hU.fss g hB).symm.trans hG
      exact (hI.fs g G hold hk).grow hU.grows (.refl G) rfl rfl rfl (hU.root g hB)
        fun a u u' ha hu hu' => hU.type g G a u u' hold hk ha hu hu'
  root g hg := by
    rcases hU.rootFs g hg with hold | hnew
    · obtain ⟨G, r, hG, hk, hr⟩ := hI.root g hold
      obtain ⟨G', hG', hsame⟩ := hU.grows.fs g G hG
      exact ⟨G', r, hG', hsame.freed.trans hk, hsame.root r hr⟩
    · exact hnew
  next a n hn := by
    by_cases ha : A a
    · exact (hU.newNode a n ha hn).1
    · obtain ⟨h1, h2⟩ := hI.next a n ((hU.nodes a ha).symm.trans hn)
      exact ⟨Nat.lt_of_lt_of_le h1 hU.next, Nat.lt_of_lt_of_le h2 hU.nextFs⟩
  nextFs g G hG := by
    by_cases hB : B g
    · exact (hU.newFs g G hB hG).1
    · exact Nat.lt_of_lt_of_le (hI.nextFs g G ((hU.fss g hB).symm.trans hG)) hU.nextFs
  devfs g hg := by
    rcases hU.devfs g hg with hold | hnew
    · obtain ⟨G, hG, hkind, hk⟩ := hI.devfs g hold
      obtain ⟨G', hG', hsame⟩ := hU.grows.fs g G hG
      exact ⟨G', hG', hsame.kind.trans hkind, hsame.freed.trans hk⟩
    · exact hnew
  file i f hf := by
    rcases hU.files i f hf with hold | hnew
    · obtain ⟨n, F, hn, hmade, hF, hcast⟩ := hI.file i f hold
      obtain ⟨n', hn', hmade', hshape⟩ := hU.grows.get hn
      obtain ⟨F', hF', hsame⟩ := hU.grows.fs _ F hF
      refine ⟨n', F', hn', hmade'.trans hmade, hF', ?_⟩
      rw [hsame.kind, hshape]
      exact hcast
    · exact hnew
  refs a n hn := by
    by_cases ha : A a
    · exact (hU.newNode a n ha hn).2.1
    · exact (hI.refs a n ((hU.nodes a ha).symm.trans hn)).grow hU.grows hU.next
  fsRefs g G hG := by
    by_cases hB : B g
    · exact (hU.newFs g G hB hG).2.1
    · exact (hI.fsRefs g G ((hU.fss g hB).symm.trans hG)).grow hU.grows hU.next

end Update

section Changes

variable {s' : State} {a : Addr} {u : Node}

theorem type_of_eq {s : State} {u' : Node} (h : s'.nodes a = s.nodes a) (hu : s.nodes a = some u)
    (hu' : s'.nodes a = some u') : u'.type = u.type := by
  rw [h, hu] at hu'
  cases hu'
  rfl

variable {g : ℕ} {G : Fs}

theorem FsInv.of_unmounted {s : State} (hr : G.root = none)
    (hf : G.kind = .mem → G.parentNode = none)
    (hd : ∀ k ∈ G.devices, ∃ n, s.nodes k = some n ∧ n.freed = false ∧ n.made = g ∧
      n.shape = .devfsNode ∧ n.type ≠ .dir ∧ n.type ≠ .mountpoint) : FsInv s g G where
  root r h := by
    rw [hr] at h
    cases h
  parent r h := by
    rw [hr] at h
    cases h
  device := hd
  fresh _ := hf

variable {s : State}

theorem fss_grows {G' : Fs} (hG : s.fss g = some G) (hself : s'.fss g = some G')
    (hsame : SameFs G G') (hother : ∀ h, h ≠ g → s'.fss h = s.fss h) :
    ∀ h H, s.fss h = some H → ∃ H', s'.fss h = some H' ∧ SameFs H H' := by
  intro h H hH
  by_cases hh : h = g
  · subst hh
    obtain rfl := mem_unique hG hH
    exact ⟨G', hself, hsame⟩
  · exact ⟨H, (hother h hh).trans hH, .refl H⟩

theorem Inv.of_eq (hI : Inv s) (hnodes : s'.nodes = s.nodes) (hfss : s'.fss = s.fss)
    (hnext : s'.next = s.next) (hnextFs : s'.nextFs = s.nextFs) (hroot : s'.root = s.root)
    (hdevfs : s'.devfs = s.devfs) (hfiles : ∀ i f, s'.files i = some f → s.files i = some f ∨
      ∃ n F, s'.get f.node = some n ∧ n.made = f.fs ∧
        s'.fss f.fs = some F ∧ ∀ sh ∈ F.kind.casts .fileOp, n.shape = sh) : Inv s' := by
  refine hI.update (A := fun _ => False) (B := fun _ => False)
    { grows := ⟨fun a u hu => ⟨u, by rw [hnodes]; exact hu, .refl u⟩,
        fun g G hG => ⟨G, by rw [hfss]; exact hG, .refl G⟩⟩
      nodes := fun a _ => by rw [hnodes]
      fss := fun g _ => by rw [hfss]
      next := by rw [hnext]
      nextFs := by rw [hnextFs]
      type := fun _ _ a _ _ _ _ _ hu hu' => type_of_eq (congrFun hnodes a) hu hu'
      root := fun g _ => by rw [hroot]
      rootFs := fun g hg => .inl (hroot ▸ hg)
      devfs := fun g hg => .inl (hdevfs ▸ hg)
      files := hfiles }

theorem Inv.cwd (hI : Inv s) (c : ℕ → Option Addr) : Inv { s with cwd := c } :=
  hI.of_eq rfl rfl rfl rfl rfl rfl fun _ _ h => .inl h

theorem Usable.cwd {p : Ptr} {c : ℕ → Option Addr} (h : Usable s p) :
    Usable { s with cwd := c } p := by
  obtain ⟨n, F, h, hn⟩ := h
  refine ⟨n, F, ⟨?_, h.kept, h.fs, h.fsKept⟩, hn⟩
  cases p with
  | node a => exact h.get
  | ext2 g i => exact h.get

variable {F : Fs}

theorem Inv.newFs (hI : Inv s) (hr : F.root = none) (hd : F.devices = [])
    (hpar : F.parentNode = none) (hparent : F.parent = none) : Inv (s.newFs F) := by
  have hold : ∀ g G, s.fss g = some G → (s.newFs F).fss g = some G := by
    intro g G hG
    have hne : g ≠ s.nextFs := Nat.ne_of_lt (hI.nextFs g G hG)
    show Function.update _ _ _ g = _
    rw [Function.update_of_ne hne]
    exact hG
  refine hI.update (A := fun _ => False)
    { grows := ⟨fun a u hu => ⟨u, hu, .refl u⟩, fun g G hG => ⟨G, hold g G hG, .refl G⟩⟩
      fss := fun g hg => update_of_ne hg _ _
      nextFs := Nat.le_succ _
      old := fun g hg => .inl (Nat.le_of_eq hg.symm)
      newFs := ?_
      type := fun _ _ _ _ _ _ _ _ hu hu' => type_of_eq rfl hu hu' }
  rintro g G rfl hG
  obtain rfl : F = G := by
    simpa [State.newFs, update_self] using hG
  exact ⟨Nat.lt_succ_self _, ⟨by simp [hpar], by simp [hd], by simp [hparent]⟩,
    fun _ => .of_unmounted hr (fun _ => hpar) (by simp [hd])⟩

theorem Inv.ne_next (hI : Inv s) (h : s.nodes a = some u) : a ≠ s.next :=
  Nat.ne_of_lt (hI.next a u h).1

theorem Inv.alloc_nodes (hI : Inv s) (n : Node) (h : s.nodes a = some u) :
    (s.alloc n).nodes a = some u := by
  show Function.update _ _ _ a = _
  rw [Function.update_of_ne (hI.ne_next h)]
  exact h

theorem Inv.alloc_inode (hI : Inv s) (i : ℕ) (hF : s.fss g = some F) (hkind : F.kind = .ext2)
    (hroot : F.root ≠ none) (hk : F.freed = false) : Inv (s.alloc (inodeNode g i F.disk)) := by
  obtain ⟨r, hr⟩ := ne_none_iff_exists'.mp hroot
  obtain ⟨m, hm, -⟩ := hI.live_root hF hk hr
  have hself : (s.alloc (inodeNode g i F.disk)).nodes s.next = some (inodeNode g i F.disk) :=
    update_self ..
  have hnew : NodeInv (s.alloc (inodeNode g i F.disk)) s.next (inodeNode g i F.disk) F :=
    { kind := hkind.symm
      plain := fun _ => rfl
      mount := fun h => absurd h (type_inodeNode_ne _ _ _)
      root := fun _ => ⟨r, hr, Nat.le_of_lt (hI.next r m hm.get).1⟩
      devRoot := fun h => by cases h
      inode := fun _ h => h.resolve_right (type_inodeNode_ne _ _ _)
      up := fun h => by cases h
      child := fun h => by cases h }
  refine hI.update (B := fun _ => False)
    { grows := ⟨fun a u hu => ⟨u, hI.alloc_nodes _ hu, .refl u⟩, fun g G hG => ⟨G, hG, .refl G⟩⟩
      nodes := fun a ha => update_of_ne ha _ _
      next := Nat.le_succ _
      newNode := ?_
      type := fun _ _ a u u' _ _ _ hu hu' => type_of_eq (update_of_ne (hI.ne_next hu) _ _)
        hu hu' }
  rintro a n rfl hn
  obtain rfl := mem_unique hself hn
  refine ⟨⟨Nat.lt_succ_self _, hI.nextFs g F hF⟩,
    ⟨nofun, fun h => absurd h (type_inodeNode_ne _ _ _)⟩, fun G hlive => ?_⟩
  obtain rfl := mem_unique hF hlive.fs
  exact hnew

variable {k : Addr}

theorem Inv.setParent (hI : Inv s) (hG : s.fss g = some G) (hr : G.root = none)
    (hkind : G.kind ≠ .mem) {h : ℕ} (hlt : k < s.next) (hh : HasRoot s h) :
    Inv (s.modifyFs g fun F => { F with parentNode := some k, parent := some h }) := by
  have hself : (s.modifyFs g fun F => { F with parentNode := some k, parent := some h }).fss g =
      some { G with parentNode := some k, parent := some h } := by
    show Function.update _ _ _ g = _
    rw [Function.update_self, hG]
    rfl
  have hgrows : Grows s (s.modifyFs g fun F => { F with parentNode := some k, parent := some h }) :=
    ⟨fun a u hu => ⟨u, hu, .refl u⟩, fss_grows hG hself
      ⟨rfl, rfl, rfl, fun _ h => h, fun hne => absurd hr hne⟩ fun _ hg => update_of_ne hg _ _⟩
  refine hI.update (A := fun _ => False)
    { grows := hgrows
      fss := fun g' hg => update_of_ne hg _ _
      old := fun g' hg => .inr ⟨G, hg ▸ hG⟩
      newFs := ?_
      type := fun _ _ a u u' _ _ _ hu hu' => type_of_eq rfl hu hu' }
  rintro g' G' rfl hG'
  obtain rfl := mem_unique hself hG'
  refine ⟨hI.nextFs g' G hG, ⟨fun k' hk' => ?_, (hI.fsRefs g' G hG).device, fun h' hh' => ?_⟩,
    fun hk => .of_unmounted hr (fun hmem => absurd hmem hkind) (hI.fs g' G hG hk).device⟩
  · obtain rfl : k = k' := some_inj.mp hk'
    exact hlt
  · obtain rfl : h = h' := some_inj.mp hh'
    exact hgrows.hasRoot hh

theorem Inv.register (hI : Inv s) (hG : s.fss g = some G) (hkind : G.kind = .dev) (name : Name)
    (block : Bool) :
    Inv ((s.alloc (deviceNode g name block)).modifyFs g fun F =>
      { F with devices := s.next :: F.devices }) := by
  set s' := (s.alloc (deviceNode g name block)).modifyFs g fun F =>
    { F with devices := s.next :: F.devices } with hs'
  have hself : s'.fss g = some { G with devices := s.next :: G.devices } := by
    show Function.update s.fss g ((s.fss g).map _) g = _
    rw [Function.update_self, hG]
    rfl
  have hnode : s'.nodes s.next = some (deviceNode g name block) := update_self ..
  have hgrows : Grows s s' :=
    ⟨fun a u hu => ⟨u, hI.alloc_nodes _ hu, .refl u⟩, fss_grows hG hself
      ⟨rfl, rfl, rfl, fun _ h => h, fun _ => ⟨rfl, rfl⟩⟩ fun _ hg => update_of_ne hg _ _⟩
  have hdevice : (deviceNode g name block).type ≠ .dir ∧
      (deviceNode g name block).type ≠ .mountpoint := by
    cases block <;> simp [deviceNode]
  refine hI.update
    { grows := hgrows
      nodes := fun a ha => update_of_ne ha _ _
      fss := fun g' hg => update_of_ne hg _ _
      next := Nat.le_succ _
      old := fun g' hg => .inr ⟨G, hg ▸ hG⟩
      newNode := ?_
      newFs := ?_
      type := fun _ _ a u u' _ _ _ hu hu' => type_of_eq (update_of_ne (hI.ne_next hu) _ _)
        hu hu' }
  · rintro a n rfl hn
    obtain rfl := mem_unique hnode hn
    refine ⟨⟨Nat.lt_succ_self _, hI.nextFs g G hG⟩, ⟨nofun, fun h => absurd h hdevice.2⟩,
      fun F hlive => ?_⟩
    obtain rfl := mem_unique hself hlive.fs
    exact
      { kind := hkind.symm
        plain := fun _ => rfl
        mount := fun h => absurd h hdevice.2
        root := fun h => absurd rfl h
        devRoot := fun _ h => absurd h hdevice.1
        inode := fun h => by cases h
        up := fun h => by cases h
        child := fun h => by cases h }
  · rintro g' G' rfl hG'
    obtain rfl := mem_unique hself hG'
    have hrefs := (hI.fsRefs g' G hG).grow hgrows (Nat.le_succ _)
    refine ⟨hI.nextFs g' G hG, ⟨hrefs.parentNode, fun k hk => ?_, hrefs.parent⟩, fun hk => ?_⟩
    · rcases List.mem_cons.mp hk with rfl | hk
      · exact Nat.lt_succ_self _
      · exact hrefs.device k hk
    · have hold := (hI.fs g' G hG hk).grow hgrows (.refl G) rfl rfl rfl Iff.rfl
        fun a u u' _ hu hu' => type_of_eq (update_of_ne (hI.ne_next hu) _ _) hu hu'
      refine ⟨hold.root, hold.parent, fun k hk' => ?_, hold.fresh⟩
      rcases List.mem_cons.mp hk' with rfl | hk'
      · exact ⟨_, hnode, rfl, rfl, rfl, hdevice⟩
      · exact hold.device k hk'

theorem kind_rootShape (k : Kind) : k.rootShape.kind = k := by
  cases k <;> rfl

/-- A file system gets its root node, and with it a place: as the root file
system, or on the node that has been set as its parent. -/
theorem Inv.setRoot (hI : Inv s) {G' : Fs} {n : Node}
    (hnodes : s'.nodes = Function.update s.nodes s.next (some n)) (hnext : s'.next = s.next + 1)
    (hfss : s'.fss = Function.update s.fss g (some G')) (hnextFs : s'.nextFs = s.nextFs)
    (hdevfs : s'.devfs = s.devfs) (hfiles : s'.files = s.files) (hG : s.fss g = some G)
    (hr : G.root = none) (hk : G.freed = false)
    (hn : n.fs = g ∧ n.made = g ∧ n.freed = false ∧ n.type = .dir ∧ n.children = [])
    (hshape : n.shape = G.kind.rootShape) (hid : G.kind = .ext2 → n.id = 2)
    (hG' : G'.kind = G.kind ∧ G'.freed = false ∧ G'.devices = G.devices ∧ G'.disk = G.disk)
    (hdisk : G.kind = .ext2 → G.disk.type 2 = .dir) (hr' : G'.root = some s.next)
    (hup : G.kind = .mem → G'.parentNode = some n.up)
    (hplace : (s.root = none ∧ s'.root = some g ∧ G'.parentNode = some s.next ∧
        G'.parent = G.parent) ∨
      (s'.root = s.root ∧ ∃ k m F, G'.parentNode = some k ∧ Live s (.node k) m F ∧
        m.shape.kind ≠ .dev ∧ G'.parent = some m.made)) : Inv s' := by
  obtain ⟨hnfs, hmade, hfree, htype, hchildren⟩ := hn
  obtain ⟨hkind, hk', hdev, hsamedisk⟩ := hG'
  have hself : s'.fss g = some G' := by rw [hfss, update_self]
  have hnode : s'.nodes s.next = some n := by rw [hnodes, update_self]
  have hold : ∀ a, a ≠ s.next → s'.nodes a = s.nodes a := fun a ha => by
    rw [hnodes, update_of_ne ha]
  have holdFs : ∀ h, h ≠ g → s'.fss h = s.fss h := fun h hne => by
    rw [hfss, update_of_ne hne]
  have hgrows : Grows s s' := by
    refine ⟨fun a u hu => ⟨u, (hold a (hI.ne_next hu)).trans hu, .refl u⟩, fss_grows hG hself
      ⟨hkind, hk'.trans hk.symm, hsamedisk, fun r hroot => ?_, fun hroot => absurd hr hroot⟩ holdFs⟩
    rw [hr] at hroot
    cases hroot
  have hnot : s.root ≠ some g := by
    intro hroot
    obtain ⟨H, r, hH, -, hHr⟩ := hI.root g hroot
    rw [hG] at hH
    cases hH
    rw [hr] at hHr
    cases hHr
  have hparentNode : ∀ k, G'.parentNode = some k → k < s'.next := by
    intro k hk
    rw [hnext]
    rcases hplace with ⟨-, -, hself, -⟩ | ⟨-, k', m, F, hk', hlive, -⟩
    · obtain rfl := mem_unique hself hk
      exact Nat.lt_succ_self _
    · obtain rfl := mem_unique hk' hk
      exact Nat.lt_succ_of_lt (hI.next k' m hlive.get).1
  have hroot : ∀ h, h ≠ g → (s'.root = some h ↔ s.root = some h) := by
    intro h hne
    rcases hplace with ⟨hnone, hsome, -⟩ | ⟨hsame, -⟩
    · rw [hnone, hsome]
      simp [Ne.symm hne]
    · rw [hsame]
  refine hI.update
    { grows := hgrows
      nodes := hold
      fss := holdFs
      next := by rw [hnext]; exact Nat.le_succ _
      nextFs := Nat.le_of_eq hnextFs.symm
      root := hroot
      old := fun h hh => .inr ⟨G, hh ▸ hG⟩
      type := fun _ _ a u u' _ _ _ hu hu' => type_of_eq (hold a (hI.ne_next hu)) hu hu'
      devfs := fun h hh => .inl (hdevfs ▸ hh)
      files := fun i f hf => .inl (by rw [hfiles] at hf; exact hf)
      newNode := ?_
      newFs := ?_
      rootFs := ?_ }
  · rintro a n' rfl hn'
    obtain rfl := mem_unique hnode hn'
    refine ⟨?_, ⟨fun hs => hparentNode _ (hup ?_), fun h => ?_⟩, fun F hlive => ?_⟩
    · rw [hnext, hnextFs, hmade]
      exact ⟨Nat.lt_succ_self _, hI.nextFs g G hG⟩
    · rw [← kind_rootShape G.kind, ← hshape, hs, Shape.kind]
    · rw [htype] at h
      cases h
    obtain rfl : G' = F := by
      have hF := hlive.fs
      rw [hmade, hself] at hF
      exact some_inj.mp hF
    exact
      { kind := by rw [hshape, kind_rootShape, hkind]
        plain := fun _ => hnfs.trans hmade.symm
        mount := fun h => by rw [htype] at h; cases h
        root := fun _ => ⟨s.next, hr', Nat.le_refl _⟩
        devRoot := fun _ _ => hr'
        inode := fun hs _ => by
          have hext : G.kind = .ext2 := by rw [← kind_rootShape G.kind, ← hshape, hs, Shape.kind]
          rw [hsamedisk, hid hext]
          exact hdisk hext
        up := fun _ h => absurd hr' h
        child := fun _ k hk => by rw [hchildren] at hk; cases hk }
  · rintro h H rfl hH
    obtain rfl := mem_unique hself hH
    have hrefs := (hI.fsRefs h G hG).grow hgrows (by rw [hnext]; exact Nat.le_succ _)
    refine ⟨hnextFs ▸ hI.nextFs h G hG, ⟨hparentNode, hdev ▸ hrefs.device, fun p hp => ?_⟩,
      fun _ => ⟨fun r hroot => ?_, fun r hroot => ?_, fun k hk => ?_, fun h => ?_⟩⟩
    · rcases hplace with ⟨-, -, -, hsame⟩ | ⟨-, k, m, F, -, hlive, hmdev, hpar⟩
      · exact hrefs.parent p (hsame ▸ hp)
      · obtain rfl := mem_unique hpar hp
        exact hgrows.hasRoot (hI.hasRoot hlive hmdev)
    · obtain rfl := mem_unique hr' hroot
      exact ⟨n, hnode, hfree, hmade, htype, hkind ▸ hshape, hkind ▸ hid, hkind ▸ hup⟩
    · obtain rfl := mem_unique hr' hroot
      refine hplace.imp (fun hfirst => ⟨hfirst.2.1, hfirst.2.2.1⟩) ?_
      rintro ⟨hsame, k, m, F, hk, hlive, hdev, hpar⟩
      obtain ⟨m', F', hlive', hm', -⟩ := hgrows.live hlive
      exact ⟨hsame ▸ hnot, k, m', F', hk, hlive', (hI.next k m hlive.get).1, hm'.shape ▸ hdev,
        hm'.made ▸ hpar⟩
    · rw [hdev] at hk
      obtain ⟨m, hm, hrest⟩ := (hI.fs h G hG ‹_›).device k hk
      exact ⟨m, (hold k (hI.ne_next hm)).trans hm, hrest⟩
    · rw [hr'] at h
      cases h
  · intro h hh
    rcases hplace with ⟨-, hsome, -⟩ | ⟨hsame, -⟩
    · obtain rfl := mem_unique hsome hh
      exact .inr ⟨G', s.next, hself, hk', hr'⟩
    · exact .inl (hsame ▸ hh)

theorem modifyNode_self (f : Node → Node) (h : s.nodes a = some u) :
    (s.modifyNode a f).nodes a = some (f u) := by
  show update _ _ _ a = _
  rw [update_self, h]
  rfl

theorem modifyNode_of_ne {b : Addr} (f : Node → Node) (h : b ≠ a) :
    (s.modifyNode a f).nodes b = s.nodes b :=
  update_of_ne h _ _

theorem Inv.retype (hI : Inv s) {m : Node} (h : Live s (.node k) m F) (hroot : F.root ≠ some k)
    (hdev : m.shape.kind ≠ .dev) (hdir : m.type = .dir ∨ m.type = .mountpoint) {τ : NodeType}
    (hplain : τ ≠ .mountpoint → g = m.made)
    (hmount : τ = .mountpoint → Mounted s k { m with type := τ, fs := g }) :
    Inv (s.modifyNode k fun n => { n with type := τ, fs := g }) := by
  have hself := modifyNode_self (fun n : Node => { n with type := τ, fs := g }) h.get
  have hgrows : Grows s (s.modifyNode k fun n => { n with type := τ, fs := g }) := by
    refine ⟨fun a u hu => ?_, fun h H hH => ⟨H, hH, .refl H⟩⟩
    by_cases ha : a = k
    · subst ha
      obtain rfl := mem_unique h.get hu
      exact ⟨_, hself, rfl, rfl, rfl, rfl, rfl, rfl⟩
    · exact ⟨u, (modifyNode_of_ne _ ha).trans hu, .refl u⟩
  have hinv := (hI.node k m F h).grow hgrows (.refl F)
  refine hI.update (B := fun _ => False)
    { grows := hgrows
      nodes := fun a ha => modifyNode_of_ne _ ha
      newNode := ?_
      type := ?_ }
  · -- neither a root nor a device is at `k`
    intro h' H a u u' hH hHk ha hu hu'
    by_cases hak : a = k
    · subst hak
      rcases ha with ha | ha
      · obtain ⟨u, hu, -, hmade, -⟩ := (hI.fs h' H hH hHk).root a ha
        obtain rfl := mem_unique h.get hu
        obtain rfl := mem_unique (hmade ▸ h.fs) hH
        exact absurd ha hroot
      · obtain ⟨u, hu, -, -, hshape, -⟩ := (hI.fs h' H hH hHk).device a ha
        obtain rfl := mem_unique h.get hu
        rw [hshape] at hdev
        exact absurd rfl hdev
    · exact type_of_eq (modifyNode_of_ne _ hak) hu hu'
  · rintro a n rfl hn
    obtain rfl := mem_unique hself hn
    refine ⟨hI.next a m h.get, ⟨(hI.refs a m h.get).up, fun hτ => ?_⟩, fun H hlive => ?_⟩
    · obtain ⟨G, r, hG, -, hr, -⟩ := hmount hτ
      exact ⟨G, hG, by simp [hr]⟩
    · obtain rfl := mem_unique h.fs hlive.fs
      exact ⟨hinv.kind, fun hτ => hplain hτ, fun hτ => ⟨hmount hτ, hroot, hdev⟩, hinv.root,
        fun h => absurd h hdev, fun hs _ => hinv.inode hs hdir, hinv.up, hinv.child⟩

theorem Inv.addChild (hI : Inv s) {d : Node} (h : Live s (.node a) d F)
    (hshape : d.shape = .memfsNode) {name : Name} {type : NodeType}
    (hname : name ≠ dot ∧ name ≠ dotDot) (ht : type ≠ .mountpoint) :
    Inv (((s.alloc (memfsNode d.made F name type a)).modifyFs d.made fun F =>
      { F with lastId := F.lastId + 1 }).modifyNode a fun n =>
        { n with children := s.next :: n.children }) := by
  set s' := ((s.alloc (memfsNode d.made F name type a)).modifyFs d.made fun F =>
      { F with lastId := F.lastId + 1 }).modifyNode a fun n =>
        { n with children := s.next :: n.children } with hs'
  have hlt : a < s.next := (hI.next a d h.get).1
  have hparent : s'.nodes a = some { d with children := s.next :: d.children } :=
    modifyNode_self _ (hI.alloc_nodes _ h.get)
  have hnode : s'.nodes s.next = some (memfsNode d.made F name type a) :=
    (modifyNode_of_ne _ (Nat.ne_of_gt hlt)).trans (update_self ..)
  have hself : s'.fss d.made = some { F with lastId := F.lastId + 1 } := by
    show Function.update s.fss d.made ((s.fss d.made).map _) d.made = _
    rw [Function.update_self, h.fs]
    rfl
  have hold : ∀ b, ¬ (b = a ∨ b = s.next) → s'.nodes b = s.nodes b := by
    intro b hb
    obtain ⟨hba, hbn⟩ := not_or.mp hb
    exact (modifyNode_of_ne _ hba).trans (update_of_ne hbn _ _)
  have hsame : SameFs F { F with lastId := F.lastId + 1 } :=
    ⟨rfl, rfl, rfl, fun _ h => h, fun _ => ⟨rfl, rfl⟩⟩
  have hgrows : Grows s s' := by
    refine ⟨fun b u hu => ?_, fss_grows h.fs hself hsame fun _ hg => update_of_ne hg _ _⟩
    by_cases hba : b = a
    · subst hba
      obtain rfl := mem_unique h.get hu
      exact ⟨_, hparent, rfl, rfl, rfl, rfl, rfl, rfl⟩
    · exact ⟨u, (hold b (not_or.mpr ⟨hba, hI.ne_next hu⟩)).trans hu, .refl u⟩
  have htype : ∀ b u u', s.nodes b = some u → s'.nodes b = some u' → u'.type = u.type := by
    intro b u u' hu hu'
    by_cases hba : b = a
    · subst hba
      obtain rfl := mem_unique h.get hu
      obtain rfl := mem_unique hparent hu'
      rfl
    · exact type_of_eq (hold b (not_or.mpr ⟨hba, hI.ne_next hu⟩)) hu hu'
  have hinv := hI.node a d F h
  have hinv' := hinv.grow hgrows hsame
  obtain ⟨r, hr, hle⟩ := hinv.root (by simp [hshape, Shape.kind])
  have hmem : MemAt s' d.made a { d with children := s.next :: d.children } :=
    ⟨hparent, h.kept, rfl, hshape⟩
  refine hI.update
    { grows := hgrows
      nodes := hold
      fss := fun g hg => update_of_ne hg _ _
      next := Nat.le_succ _
      old := fun g hg => .inr ⟨F, hg ▸ h.fs⟩
      type := fun _ _ b u u' _ _ _ hu hu' => htype b u u' hu hu'
      newNode := ?_
      newFs := ?_ }
  · rintro b n (rfl | rfl) hn
    · -- the directory: the new node is one of its children
      obtain rfl := mem_unique hparent hn
      have hold := (hI.refs b d h.get).grow hgrows (Nat.le_succ _)
      refine ⟨⟨Nat.lt_succ_of_lt hlt, hI.nextFs _ F h.fs⟩, ⟨hold.up, hold.mount⟩,
        fun G hlive => ?_⟩
      obtain rfl := mem_unique hself hlive.fs
      refine ⟨hinv'.kind, hinv'.plain, hinv'.mount, hinv'.root, hinv'.devRoot, hinv'.inode,
        hinv'.up, fun hs k hk => ?_⟩
      rcases List.mem_cons.mp hk with rfl | hk
      · exact ⟨hlt, _, ⟨hnode, rfl, rfl, rfl⟩, rfl, hname⟩
      · exact hinv'.child hs k hk
    · obtain rfl := mem_unique hnode hn
      refine ⟨⟨Nat.lt_succ_self _, hI.nextFs _ F h.fs⟩,
        ⟨fun _ => Nat.lt_succ_of_lt hlt, fun h => absurd h ht⟩, fun G hlive => ?_⟩
      obtain rfl := mem_unique hself hlive.fs
      exact
        { kind := by rw [← hinv'.kind, hshape]; rfl
          plain := fun _ => rfl
          mount := fun h => absurd h ht
          root := fun _ => ⟨r, hr, Nat.le_trans hle (Nat.le_of_lt hlt)⟩
          devRoot := fun h => by cases h
          inode := fun h => by cases h
          up := fun _ _ => ⟨hlt, _, hmem⟩
          child := fun _ k hk => by cases hk }
  · rintro g G rfl hG
    obtain rfl := mem_unique hself hG
    have hold := (hI.fsRefs _ F h.fs).grow hgrows (Nat.le_succ _)
    exact ⟨hI.nextFs _ F h.fs, ⟨hold.parentNode, hold.device, hold.parent⟩,
      fun _ => (hI.fs _ F h.fs h.fsKept).grow hgrows hsame rfl rfl rfl Iff.rfl
        fun b u u' _ hu hu' => htype b u u' hu hu'⟩

theorem nodes_free {l : List Addr} {n' : Node} (h : (s.free l).nodes a = some n') :
    ∃ n, s.nodes a = some n ∧ (n' = n ∨ n' = { n with freed := true }) := by
  change (if a ∈ l then (s.nodes a).map _ else s.nodes a) = some n' at h
  by_cases ha : a ∈ l
  · rw [if_pos ha] at h
    obtain ⟨n, hn, rfl⟩ := map_eq_some_iff.mp h
    exact ⟨n, hn, .inr rfl⟩
  · rw [if_neg ha] at h
    exact ⟨n', h, .inl rfl⟩

theorem Inv.free (hI : Inv s) {l : List Addr} (hG : s.fss g = some G) (hkind : G.kind = .mem)
    (hl : ∀ a ∈ l, ∀ n, s.nodes a = some n → n.made = g) (hroot : s.root ≠ some g)
    (hin : ∀ h H k n, h ≠ g → s.fss h = some H → H.parentNode = some k → s.nodes k = some n →
      n.made ≠ g) (hout : ∀ a n F, Live s (.node a) n F → n.type = .mountpoint → n.fs ≠ g) :
    Inv ((s.free l).modifyFs g fun F => { F with freed := true }) := by
  set s' := (s.free l).modifyFs g fun F => { F with freed := true } with hs'
  have hself : s'.fss g = some { G with freed := true } := by
    show Function.update s.fss g ((s.fss g).map _) g = _
    rw [Function.update_self, hG]
    rfl
  have hfss : ∀ h, h ≠ g → s'.fss h = s.fss h := fun h hh => update_of_ne hh _ _
  -- nodes of other file systems stay as they are
  have hother : ∀ a n, s.nodes a = some n → n.made ≠ g → s'.nodes a = some n := by
    intro a n hn hmade
    show (if a ∈ l then _ else s.nodes a) = _
    rw [if_neg fun ha => hmade (hl a ha n hn)]
    exact hn
  have hlive : ∀ a n F, Live s' (.node a) n F → Live s (.node a) n F ∧ n.made ≠ g := by
    intro a n F h
    have hmade : n.made ≠ g := by
      intro hmade
      have hF := h.fs
      rw [hmade, hself] at hF
      have := h.fsKept
      rw [← some_inj.mp hF] at this
      cases this
    obtain ⟨n0, hn0, rfl | rfl⟩ := nodes_free h.get
    · exact ⟨⟨hn0, h.kept, (hfss _ hmade).symm.trans h.fs, h.fsKept⟩, hmade⟩
    · cases h.kept
  have hmem : ∀ h k c, h ≠ g → MemAt s h k c → MemAt s' h k c := by
    rintro h k c hh ⟨hc, hfree, rfl, hshape⟩
    exact ⟨hother k c hc hh, hfree, rfl, hshape⟩
  have hlive' : ∀ a n F, Live s (.node a) n F → n.made ≠ g → Live s' (.node a) n F :=
    fun a n F h hmade => ⟨hother a n h.get hmade, h.kept, (hfss _ hmade).trans h.fs, h.fsKept⟩
  have hrooted : ∀ h, HasRoot s h → HasRoot s' h := by
    rintro h ⟨H, hH, hr⟩
    by_cases hne : h = g
    · subst hne
      obtain rfl := mem_unique hG hH
      exact ⟨_, hself, hr⟩
    · exact ⟨H, (hfss h hne).trans hH, hr⟩
  refine ⟨fun a n F h => ?_, fun h H hH hk => ?_, fun h hh => ?_, fun a n' hn' => ?_,
    fun h H hH => ?_, fun h hh => ?_, fun i f hf => ?_, fun a n' hn' => ?_, fun h H hH => ?_⟩
  · obtain ⟨hold, hmade⟩ := hlive a n F h
    have hinv := hI.node a n F hold
    refine ⟨hinv.kind, hinv.plain, fun hmp => ?_, hinv.root, hinv.devRoot, hinv.inode,
      fun hs hr => ?_, fun hs k hk => ?_⟩
    · obtain ⟨⟨H, r, hH, hrest⟩, hnroot⟩ := hinv.mount hmp
      exact ⟨⟨H, r, (hfss _ (hout a n F hold hmp)).trans hH, hrest⟩, hnroot⟩
    · obtain ⟨hlt, u, hu⟩ := hinv.up hs hr
      exact ⟨hlt, u, hmem _ _ u hmade hu⟩
    · obtain ⟨hlt, c, hc, hrest⟩ := hinv.child hs k hk
      exact ⟨hlt, c, hmem _ _ c hmade hc, hrest⟩
  · have hne : h ≠ g := by
      rintro rfl
      obtain rfl := mem_unique hself hH
      cases hk
    have hold : s.fss h = some H := (hfss h hne).symm.trans hH
    have hinv := hI.fs h H hold hk
    refine ⟨fun r hr => ?_, fun r hr => ?_, fun k hk' => ?_, hinv.fresh⟩
    · obtain ⟨n, hn, hfree, hmade, hrest⟩ := hinv.root r hr
      exact ⟨n, hother r n hn (hmade ▸ hne), hfree, hmade, hrest⟩
    · refine (hinv.parent r hr).imp_right ?_
      rintro ⟨hnot, k, n, F, hpar, hn, hrest⟩
      exact ⟨hnot, k, n, F, hpar, hlive' k n F hn (hin h H k n hne hold hpar hn.get), hrest⟩
    · obtain ⟨n, hn, hfree, hmade, hrest⟩ := hinv.device k hk'
      exact ⟨n, hother k n hn (hmade ▸ hne), hfree, hmade, hrest⟩
  · obtain ⟨H, r, hH, hrest⟩ := hI.root h hh
    have hne : h ≠ g := fun hhg => hroot (hhg ▸ hh)
    exact ⟨H, r, (hfss h hne).trans hH, hrest⟩
  · obtain ⟨n, hn, hsame⟩ := nodes_free hn'
    have hold := hI.next a n hn
    obtain rfl | rfl := hsame <;> exact hold
  · by_cases hne : h = g
    · exact hne ▸ hI.nextFs g G hG
    · exact hI.nextFs h H ((hfss h hne).symm.trans hH)
  · obtain ⟨H, hH, hdev, hk⟩ := hI.devfs h hh
    have hne : h ≠ g := by
      rintro rfl
      obtain rfl := mem_unique hG hH
      rw [hkind] at hdev
      cases hdev
    exact ⟨H, (hfss h hne).trans hH, hdev, hk⟩
  · obtain ⟨n, F, hn, hmade, hF, hcast⟩ := hI.file i f hf
    -- the table of operations is still there after its file system is freed
    have hF' : ∃ F', s'.fss f.fs = some F' ∧ F'.kind = F.kind := by
      by_cases hne : f.fs = g
      · rw [hne, hG] at hF
        cases hF
        exact ⟨{ G with freed := true }, by rw [hne]; exact hself, rfl⟩
      · exact ⟨F, (hfss _ hne).trans hF, rfl⟩
    obtain ⟨F', hF', hkind'⟩ := hF'
    have hget : ∃ n', s'.get f.node = some n' ∧ n'.made = n.made ∧ n'.shape = n.shape := by
      cases hp : f.node with
      | node a =>
        rw [hp] at hn
        change s.nodes a = some n at hn
        show ∃ n', (if a ∈ l then (s.nodes a).map _ else s.nodes a) = some n' ∧ _
        by_cases ha : a ∈ l
        · exact ⟨{ n with freed := true }, by rw [if_pos ha, hn]; rfl, rfl, rfl⟩
        · exact ⟨n, by rw [if_neg ha, hn], rfl, rfl⟩
      | ext2 h i =>
        rw [hp] at hn
        obtain ⟨H, hH, hext, hr, rfl⟩ := get_ext2 hn
        have hne : h ≠ g := by
          rintro rfl
          rw [hG] at hH
          cases hH
          rw [hkind] at hext
          cases hext
        refine ⟨inodeNode h i H.disk, ?_, rfl, rfl⟩
        simp only [State.get, (hfss h hne).trans hH, bind_some]
        rw [if_pos ⟨hext, hr⟩]
    obtain ⟨n', hn', hmade', hshape⟩ := hget
    exact ⟨n', F', hn', hmade'.trans hmade, hF', by rw [hkind', hshape]; exact hcast⟩
  · obtain ⟨n, hn, hsame⟩ := nodes_free hn'
    have hold := hI.refs a n hn
    obtain rfl | rfl := hsame <;>
      exact ⟨hold.up, fun hmp => hrooted _ (hold.mount hmp)⟩
  · by_cases hne : h = g
    · subst hne
      obtain rfl := mem_unique hself hH
      have hold := hI.fsRefs h G hG
      exact ⟨hold.parentNode, hold.device, fun p hp => hrooted p (hold.parent p hp)⟩
    · have hold := hI.fsRefs h H ((hfss h hne).symm.trans hH)
      exact ⟨hold.parentNode, hold.device, fun p hp => hrooted p (hold.parent p hp)⟩

end Changes

end Vfs
