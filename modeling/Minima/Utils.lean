/-
`dirname` and `basename` of `utils.c`.

* `dirname_basename_split_iff` — a path is taken apart into its directory and its last
  component iff it does not end with a slash.
-/
import Minima.Vfs

namespace Vfs

open List Ext2

/-! ### Components of a path -/

variable {path : List ℕ}

theorem tokens_legal : ∀ {part : Name}, slash ∉ part →
    ∀ c ∈ tokens part path, c ≠ [] ∧ slash ∉ c := by
  induction path with
  | nil =>
    intro part hpart c hc
    by_cases hnil : part = []
    · simp [tokens, hnil] at hc
    · simp only [tokens, if_neg hnil, mem_singleton] at hc
      exact hc ▸ ⟨hnil, hpart⟩
  | cons b path ih =>
    intro part hpart c hc
    by_cases hb : b = slash
    · by_cases hnil : part = []
      · simp only [tokens, if_pos hb, if_pos hnil] at hc
        exact ih (by simp) c hc
      · simp only [tokens, if_pos hb, if_neg hnil, mem_cons] at hc
        rcases hc with rfl | hc
        · exact ⟨hnil, hpart⟩
        · exact ih (by simp) c hc
    · simp only [tokens, if_neg hb] at hc
      exact ih (by simp [hpart, Ne.symm hb]) c hc

theorem components_legal : ∀ c ∈ components path, c ≠ [] ∧ slash ∉ c :=
  tokens_legal (by simp)

/-! ### The two functions -/

/-- The loops over a path: the last slash in front of a rest that `counts`, and `others`. -/
def scanSlash (counts : List ℕ → Bool) (i : ℕ) (r : Option ℕ × ℕ) : List ℕ → Option ℕ × ℕ
  | [] => r
  | c :: path =>
    if c = slash ∧ counts path then scanSlash counts (i + 1) (some i, r.2) path
    else scanSlash counts (i + 1) (r.1, r.2 + 1) path

/-- `dirname` of a path that is not NULL.  A slash counts if no slash follows. -/
def dirname (path : List ℕ) : List ℕ :=
  let r := scanSlash (·.head? ≠ some slash) 0 (none, 0) path
  if r.1 = some 0 ∨ r.2 = 0 then [slash] else r.1.elim dot path.take

/-- `basename` -/
def basename (path : List ℕ) : List ℕ :=
  let base := path.drop ((scanSlash (fun _ => true) 0 (none, 0) path).1.elim 0 (· + 1))
  if base = [] then [slash] else base

/-- `dirname` and `basename` take a path apart, where `.` may stand for the empty path. -/
def Splits (path : List ℕ) : Prop :=
  (∃ names, (names = components (dirname path) ∨ dirname path = dot ∧ names = []) ∧
      names ++ [basename path] = components path) ∧
    ((dirname path).head? = some slash ↔ path.head? = some slash)

variable {counts : List ℕ → Bool} {base path : List ℕ}

theorem scanSlash_noSlash (h : slash ∉ base) (i : ℕ) (r : Option ℕ × ℕ) :
    scanSlash counts i r base = (r.1, r.2 + base.length) := by
  induction base generalizing i r with
  | nil => rfl
  | cons c base ih =>
    rw [mem_cons, not_or] at h
    rw [scanSlash, if_neg fun hc => h.1 hc.1.symm, ih h.2, length_cons, Nat.add_right_comm]
    rfl

theorem scanSlash_append (counts : List ℕ → Bool) (h : slash ∉ base) (hcounts : counts base = true)
    (pre : List ℕ) (i : ℕ) (r : Option ℕ × ℕ) : ∃ others,
      scanSlash counts i r (pre ++ slash :: base) =
        (some (i + pre.length), others + base.length) := by
  induction pre generalizing i r with
  | nil =>
    rw [nil_append, scanSlash, if_pos ⟨rfl, hcounts⟩, scanSlash_noSlash h]
    exact ⟨r.2, rfl⟩
  | cons c pre ih =>
    rw [cons_append, scanSlash, length_cons, ← Nat.add_assoc, Nat.add_right_comm]
    split
    · exact ih _ _
    · exact ih _ _

theorem basename_append (h : slash ∉ base) (pre : List ℕ) :
    basename (pre ++ slash :: base) = if base = [] then [slash] else base := by
  obtain ⟨others, hscan⟩ := scanSlash_append (fun _ => true) h rfl pre 0 (none, 0)
  have hdrop : (pre ++ slash :: base).drop (0 + pre.length + 1) = base := by
    simp
  rw [basename, hscan]
  simp only [Option.elim_some, hdrop]

theorem dirname_append (h : slash ∉ base) (hne : base ≠ []) (pre : List ℕ) :
    dirname (pre ++ slash :: base) = if pre = [] then [slash] else pre := by
  have hcounts : decide (base.head? ≠ some slash) = true :=
    decide_eq_true fun hhead => h (mem_of_mem_head? hhead)
  obtain ⟨others, hscan⟩ := scanSlash_append (·.head? ≠ some slash) h hcounts pre 0
    (none, 0)
  have hlen := length_pos_iff.mpr hne
  rw [dirname, hscan]
  by_cases hpre : pre = []
  · simp [hpre]
  · simp [hpre, hne]

/-- **A path is taken apart** iff it does not end with a slash. -/
theorem dirname_basename_split_iff (h : components path ≠ []) :
    Splits path ↔ path.getLast? ≠ some slash := by
  constructor
  · rintro ⟨⟨names, -, hsplit⟩, -⟩ hlast
    obtain ⟨pre, rfl⟩ := getLast?_eq_some_iff.mp hlast
    have hmem : basename (pre ++ [slash]) ∈ components (pre ++ [slash]) := by
      rw [← hsplit]
      exact mem_append_right _ mem_cons_self
    rw [basename_append not_mem_nil, if_pos rfl] at hmem
    exact (components_legal _ hmem).2 mem_cons_self
  · intro hlast
    by_cases hslash : slash ∈ path
    · obtain ⟨last, rest, hrev, hnone⟩ := eq_append_cons_of_mem (mem_reverse.mpr hslash)
      obtain ⟨pre, base, rfl, hbase⟩ : ∃ pre base, path = pre ++ slash :: base ∧ slash ∉ base :=
        ⟨rest.reverse, last.reverse, by simpa using congrArg reverse hrev, by simpa using hnone⟩
      have hne : base ≠ [] := by
        rintro rfl
        simp at hlast
      have hcomponents : components (pre ++ slash :: base) = components pre ++ [base] := by
        rw [components_append, components_name hbase hne]
      rw [Splits, dirname_append hbase hne, basename_append hbase, if_neg hne, hcomponents]
      by_cases hpre : pre = []
      · exact ⟨⟨[], .inl (by rw [if_pos hpre]; rfl), by rw [hpre]; rfl⟩, by simp [hpre]⟩
      · rw [if_neg hpre]
        exact ⟨⟨_, .inl rfl, rfl⟩, by rw [head?_append_of_ne_nil _ hpre]⟩
    · -- the path is one component
      have hne : path ≠ [] := fun h0 => h (by rw [h0]; rfl)
      have hdir : dirname path = dot := by
        simp [dirname, scanSlash_noSlash hslash, hne]
      have hbase : basename path = path := by
        simp [basename, scanSlash_noSlash hslash, hne]
      rw [Splits, hdir, hbase, components_name hslash hne]
      refine ⟨⟨[], .inr ⟨rfl, rfl⟩, rfl⟩, fun hdot => absurd hdot (by decide), fun hhead => ?_⟩
      exact absurd (mem_of_mem_head? hhead) hslash

theorem split_ab : Splits [0x61, slash, 0x62] :=
  (dirname_basename_split_iff (by decide)).mpr (by decide)

/-- `a/` has the directory `a` and the base `/`. -/
theorem trailing_slash_not_split : ¬ Splits [0x61, slash] := by
  rintro ⟨⟨names, hnames, hsplit⟩, -⟩
  have hbase : basename [0x61, slash] = [slash] := by decide
  have hlast := congrArg getLast? hsplit
  rw [hbase, getLast?_concat] at hlast
  exact absurd hlast (by decide)

end Vfs
