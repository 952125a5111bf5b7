/-
Purges of cached cylinders (`on_cyl_purge` of `drivers/floppy.c`).

`mem_purge` calls `on_cyl_purge` for a cylinder that has its buffer, and that asserts that the
cylinder has a number.  A disk that is taken out takes the numbers away and leaves the buffers;
a miss allocates a buffer before there is a number, and a read that fails leaves it so.

* `Calm` — the steps that do none of this;
* `Sound` — every buffer has its number, but for that of a miss that is going on;
* `purge_finds_number` — in the runs of such steps no purge fails the assertion;
* `purge_panics` — the three ways in which one does.
-/
import Minima.Floppy

namespace Floppy

open List Option

variable {β : Type} {s s' : State β} {d d' : Drive β} {m : Medium β} {o : Media β} {n cyl : ℕ}
  {c : Cache β} {z : ℤ}

/-! ### The condition on the steps -/

/-- A cylinder that has its buffer has its number too. -/
def Cylinder.Numbered (e : Cylinder β) : Prop := ∀ b, e.data = .buf b → 0 ≤ e.num

namespace Drive

def Bufferless (d : Drive β) : Prop :=
  ∀ c, d.cache = some c → ∀ e ∈ c.lruCyls, ∀ b, e.data ≠ .buf b

/-- If the check finds the disk taken out, that takes no number from a buffer. -/
def Quiet (d : Drive β) (o : Media β) : Prop := o = .same ∨ d.f = none ∨ d.Bufferless

/-- The cylinder that a miss would reuse has had memory before. -/
def Backed (d : Drive β) : Prop :=
  ∃ f c e rest, d.f = some f ∧ d.cache = some c ∧ c.cylSize = f.cylSize ∧
    c.lruCyls = e :: rest ∧ e.data.isNull = false

/-- Drive `k` has a format only with a disk, and its buffers have their numbers, but for those at
the places `l`. -/
structure Sound (l : List (ℕ × ℕ)) (k : ℕ) (d : Drive β) : Prop where
  known : d.f.isSome → d.medium.isSome
  numbered : ∀ c i e, d.cache = some c → c.lruCyls[i]? = some e → (k, i) ∉ l → e.Numbered

end Drive

/-- One of the transfers succeeds, and those before it only fail. -/
def Attempt.Succeeds (x : Attempt β) : Prop :=
  x.seek = 0 ∧ x.readId = 0 ∧ ∃ i < handleCylinderRetries, x.transfer i = .done ∧
    ∀ j < i, ∃ left, x.transfer j = .failed left

def Reading.Succeeds (x : Reading β) : Prop :=
  x.first.Succeeds ∨ x.detect = .found ∧ x.second.Succeeds

/-- The condition on the steps.  No disk is found taken out while a cylinder has its buffer;
and a read into memory that was just allocated succeeds, and that memory is not purged
meanwhile. -/
def Calm (s : State β) : Event β → Prop
  | .read n _ x =>
    (s.drives n).Quiet x.first ∧ (x.second = .same ∨ (s.drives n).Bufferless) ∧
    x.reading.first.media = .same ∧ x.reading.second.media = .same ∧
    (x.first = .same ∧ x.second = .same ∧ (s.drives n).Backed ∨
      x.reading.Succeeds ∧ (n, 0) ∉ x.purgedBefore ++ x.purgedAfter)
  | .check n o => (s.drives n).Quiet o
  | .purge _ _ => True

/-- What the steps that meet the condition keep. -/
def Sound (l : List (ℕ × ℕ)) (s : State β) : Prop := ∀ k, (s.drives k).Sound l k

/-! ### What the steps keep -/

variable {l : List (ℕ × ℕ)}

/-- A check that meets the condition keeps the cache, or there is no buffer before and after. -/
theorem check_quiet (h : d.Sound l n) (hq : d.Quiet o) (hd : d.checkMediaChanged o = .ok d') :
    d'.Sound l n ∧ (d.Bufferless → d'.Bufferless) := by
  have hnote : ∀ d1, o ≠ .same → d.noteEjected = .ok d1 →
      (∀ c i e, d1.cache = some c → c.lruCyls[i]? = some e → (n, i) ∉ l → e.Numbered) ∧
        (d.Bufferless → d1.Bufferless) := by
    intro d1 ho hd1
    unfold Drive.noteEjected at hd1
    split at hd1
    · next hf =>
      have hless : d.Bufferless := (hq.resolve_left ho).resolve_left fun h => by simp [h] at hf
      unfold Drive.mediaEjected at hd1
      split at hd1
      · cases hd1
      · next c hc =>
        cases hd1
        have hless1 : ∀ e ∈ c.invalidate.lruCyls, ∀ b, e.data ≠ .buf b := by
          intro e he
          obtain ⟨a, ha, rfl⟩ := mem_map.mp he
          exact hless c hc a ha
        exact ⟨fun c' i e hc' he _ b hb =>
            absurd hb (hless1 e (some_inj.mp hc' ▸ mem_of_getElem? he) b),
          fun _ c' hc' => some_inj.mp hc' ▸ hless1⟩
    · cases hd1
      exact ⟨h.numbered, id⟩
  cases o with
  | same =>
    simp only [Drive.checkMediaChanged] at hd
    split at hd
    · cases hd
      exact ⟨h, id⟩
    · obtain ⟨m, hm, rfl⟩ := mediaInserted_spec hd
      exact ⟨⟨fun _ => by simp [hm], h.numbered⟩, id⟩
  | ejected =>
    obtain ⟨d1, hd1, hd⟩ := bind_eq_ok.mp hd
    cases hd
    obtain ⟨hnum, hless⟩ := hnote d1 (by simp) hd1
    exact ⟨⟨fun hf => by simp [(noteEjected_spec hd1).1] at hf, hnum⟩, hless⟩
  | inserted m =>
    obtain ⟨d1, hd1, hd⟩ := bind_eq_ok.mp hd
    obtain ⟨m', -, rfl⟩ := mediaInserted_spec hd
    obtain ⟨hnum, hless⟩ := hnote d1 (by simp) hd1
    exact ⟨⟨fun _ => rfl, hnum⟩, hless⟩
  | unreadable =>
    obtain ⟨d1, -, hd⟩ := bind_eq_ok.mp hd
    cases hd

theorem Sound.check (h : Sound l s) (hq : (s.drives n).Quiet o)
    (hs : s.checkMediaChanged n o = .ok s') :
    Sound l s' ∧ ((s.drives n).Bufferless → (s'.drives n).Bufferless) := by
  obtain ⟨d, hd, hs⟩ := bind_eq_ok.mp hs
  cases hs
  obtain ⟨hsound, hless⟩ := check_quiet (h n) hq hd
  exact ⟨State.forall_setDrive hsound fun k _ => h k, fun hl => by simpa using hless hl⟩

theorem State.setCache_self (s : State β) (n : ℕ) (c : Cache β) :
    ((s.setCache n c).drives n).cache = some c := by
  simp [State.setCache]

theorem Sound.setCache {l' : List (ℕ × ℕ)} (h : Sound l s)
    (hl : ∀ k i, k ≠ n → (k, i) ∈ l → (k, i) ∈ l')
    (hc : ∀ i e, c.lruCyls[i]? = some e → (n, i) ∉ l' → Cylinder.Numbered e) :
    Sound l' (s.setCache n c) :=
  State.forall_setDrive ⟨(h n).known, fun _ i e hc' he => hc i e (some_inj.mp hc' ▸ he)⟩
    fun k hk => ⟨(h k).known, fun c' i e hc' he hi =>
      (h k).numbered c' i e hc' he fun hmem => hi (hl k i hk hmem)⟩

/-- The same but for what the cylinders of the cache hold. -/
def Drive.Alike (d d' : Drive β) : Prop :=
  d'.f = d.f ∧ d'.cache.map (fun c => c.lruCyls.length) = d.cache.map fun c => c.lruCyls.length

def Alike (s s' : State β) : Prop := ∀ k, (s.drives k).Alike (s'.drives k)

theorem Sound.purge {i : ℕ} (h : Sound l s) (hi : (n, i) ∉ l) :
    ∃ s', s.purge n i = .ok s' ∧ Sound l s' ∧ Alike s s' := by
  unfold State.purge
  split
  · exact ⟨s, rfl, h, fun _ => ⟨rfl, rfl⟩⟩
  · next c hc =>
    split
    · exact ⟨s, rfl, h, fun _ => ⟨rfl, rfl⟩⟩
    · next e he =>
      have hnum := (h n).numbered c i e hc he hi
      obtain ⟨e', he', hnum'⟩ : ∃ e', e.purge = .ok e' ∧ e'.Numbered := by
        unfold Cylinder.purge
        split
        · next b hb => exact ⟨_, if_neg (not_lt.mpr (hnum b hb)), fun b hb => by cases hb⟩
        · exact ⟨e, rfl, hnum⟩
      refine ⟨_, bind_eq_ok.mpr ⟨e', he', rfl⟩,
        h.setCache (fun _ _ _ hmem => hmem) fun j a ha hj => ?_,
        State.forall_setDrive (p := fun k d => (s.drives k).Alike d) ⟨rfl, by simp [hc]⟩
          fun _ _ => ⟨rfl, rfl⟩⟩
      rcases eq_or_ne i j with rfl | hij
      · rw [getElem?_set_self (List.getElem?_eq_some_iff.mp he).1] at ha
        cases ha
        exact hnum'
      · rw [getElem?_set_ne hij] at ha
        exact (h n).numbered c j a hc ha hj

theorem Sound.purgeAll {ps : List (ℕ × ℕ)} (h : Sound l s) (hps : ∀ p ∈ ps, p ∉ l) :
    ∃ s', s.purgeAll ps = .ok s' ∧ Sound l s' ∧ Alike s s' := by
  induction ps generalizing s with
  | nil => exact ⟨s, rfl, h, fun _ => ⟨rfl, rfl⟩⟩
  | cons p ps ih =>
    obtain ⟨s1, hs1, h1, halike1⟩ := h.purge (hps p mem_cons_self)
    obtain ⟨s2, hs2, h2, halike2⟩ := ih h1 fun p' hp' => hps p' (mem_cons_of_mem _ hp')
    exact ⟨s2, bind_eq_ok.mpr ⟨s1, hs1, hs2⟩, h2, fun k =>
      ⟨(halike2 k).1.trans (halike1 k).1, (halike2 k).2.trans (halike1 k).2⟩⟩

theorem transferLoop_drives (m : Medium β) (n cyl : ℕ) (out : ℕ → Transfer β) (fuel : ℕ)
    (s : State β) : (transferLoop m n cyl out fuel s).2.drives = s.drives := by
  induction fuel generalizing s with
  | zero => rfl
  | succ fuel ih =>
    rw [transferLoop]
    split
    · rfl
    · exact ih _
    · rfl

theorem transferLoop_succeeds {out : ℕ → Transfer β} {fuel i : ℕ}
    (hfuel : fuel ≤ handleCylinderRetries) (hfrom : handleCylinderRetries - fuel ≤ i)
    (hi : i < handleCylinderRetries) (hdone : out i = .done)
    (hfailed : ∀ j < i, ∃ left, out j = .failed left) :
    (transferLoop m n cyl out fuel s).1 = 0 := by
  induction fuel generalizing s with
  | zero => omega
  | succ fuel ih =>
    rw [transferLoop]
    rcases hfrom.eq_or_lt with heq | hlt
    · rw [heq, hdone]
    · obtain ⟨left, hleft⟩ := hfailed _ hlt
      rw [hleft]
      exact ih (by omega) (by omega)

theorem check_same_of_isSome (hf : (s.drives n).f.isSome) :
    s.checkMediaChanged n .same = .ok { s with clean := s.clean && true } := by
  simp [State.checkMediaChanged, Drive.checkMediaChanged, hf, Media.changed, State.setDrive,
    bind, Except.bind, pure, Except.pure]

theorem doHandleCylinder_same {x : Attempt β} (hm : (s.drives n).medium = some m)
    (hx : x.media = .same) (cyl : ℕ) :
    ∃ ret s', doHandleCylinder s n cyl x = .ok (ret, s') ∧ s'.drives = s.drives ∧
      ((s.drives n).f.isSome → x.Succeeds → ret = 0) := by
  unfold doHandleCylinder
  cases hf : (s.drives n).f with
  | none => exact ⟨_, s, rfl, rfl, fun hf' => by cases hf'⟩
  | some f =>
    simp only [hx, check_same_of_isSome (s := s) (n := n) (by simp [hf]), bind, Except.bind, hf, hm,
      pure, Except.pure, isNone_some, Bool.false_eq_true, if_false]
    split_ifs with hseek hid
    · exact ⟨_, _, rfl, rfl, fun _ hs => absurd hs.1 hseek⟩
    · exact ⟨_, _, rfl, rfl, fun _ hs => absurd hs.2.1 hid⟩
    · let r := transferLoop m n cyl x.transfer handleCylinderRetries
        { s with clean := s.clean && true }
      refine ⟨r.1, r.2, rfl, transferLoop_drives .., fun _ hs => ?_⟩
      obtain ⟨-, -, i, hi, hdone, hfailed⟩ := hs
      exact transferLoop_succeeds le_rfl (by omega) hi hdone hfailed

theorem readCyl_same {x : Reading β} (hm : (s.drives n).medium = some m)
    (hf : (s.drives n).f.isSome) (hfirst : x.first.media = .same)
    (hsecond : x.second.media = .same) (cyl : ℕ) :
    ∃ ret f s', readCyl s n cyl x = .ok (ret, s') ∧
      s'.drives = (s.setDrive n { s.drives n with f }).drives ∧ (x.Succeeds → ret = 0) := by
  obtain ⟨ret1, s1, hs1, hdrives, hsucc⟩ := doHandleCylinder_same hm hfirst cyl
  unfold readCyl
  simp only [hs1, bind, Except.bind]
  by_cases h0 : ret1 = 0
  · refine ⟨0, (s.drives n).f, s1, if_pos h0, ?_, fun _ => rfl⟩
    rw [hdrives, State.setDrive, Function.update_eq_self]
  · rw [if_neg h0]
    obtain ⟨f, hdetect, hfound⟩ : ∃ f, ((s1.drives n).detectMedia x.detect).2 =
        { s.drives n with f } ∧
        (x.detect = .found → ((s1.drives n).detectMedia x.detect).1 = 0 ∧ f.isSome) := by
      rw [hdrives]
      cases x.detect with
      | found =>
        simp only [Drive.detectMedia, hm]
        exact ⟨m.format, rfl, fun _ => ⟨trivial, rfl⟩⟩
      | failed ret => exact ⟨_, rfl, fun h => by cases h⟩
      | unknown => exact ⟨_, rfl, fun h => by cases h⟩
    have hdrives2 : (s1.setDrive n ((s1.drives n).detectMedia x.detect).2).drives =
        (s.setDrive n { s.drives n with f }).drives := by
      rw [hdetect, State.setDrive, State.setDrive, hdrives]
    split_ifs with hret
    · refine ⟨_, f, _, rfl, hdrives2, fun hx => ?_⟩
      rcases hx with hx | ⟨hx, -⟩
      · exact absurd (hsucc hf hx) h0
      · exact absurd (hfound hx).1 hret
    · have hm2 : ((s1.setDrive n ((s1.drives n).detectMedia x.detect).2).drives n).medium =
          some m := by
        rw [State.setDrive_self, hdetect]
        exact hm
      obtain ⟨ret3, s3, hs3, hdrives3, hsucc3⟩ := doHandleCylinder_same hm2 hsecond cyl
      refine ⟨ret3, f, s3, hs3, hdrives3.trans hdrives2, fun hx => ?_⟩
      rcases hx with hx | ⟨hx, hx2⟩
      · exact absurd (hsucc hf hx) h0
      · refine hsucc3 ?_ hx2
        rw [State.setDrive_self, hdetect]
        exact (hfound hx).2

theorem Sound.takeOver {size : ℕ} {fresh : ℕ → β} {skipped : Bool} {miss : Cylinder β}
    {rest : List (Cylinder β)} (h : Sound l s) (hl : ∀ p ∈ l, p = (n, 0)) (hz : 0 ≤ z)
    (hc : (s.drives n).cache = some c) (hcyls : c.lruCyls = miss :: rest) :
    ∃ r s', takeOver s n z size fresh skipped = .ok (r, s') ∧ Sound [] s' := by
  simp only [Floppy.takeOver, hc, hcyls]
  refine ⟨_, _, rfl, h.setCache (fun k i hkn hmem => ?_) fun i e he _ => ?_⟩
  · exact absurd (Prod.mk.inj (hl _ hmem)).1 hkn
  · rcases mem_append.mp (mem_of_getElem? he) with he | he
    · obtain ⟨j, hj⟩ := mem_iff_getElem?.mp he
      refine (h n).numbered c (j + 1) e hc (by simpa [hcyls] using hj) fun hmem => ?_
      simpa using hl _ hmem
    · rw [mem_singleton.mp he]
      exact fun _ _ => hz

theorem Alike.cons {miss : Cylinder β} {rest : List (Cylinder β)} (h : Alike s s')
    (hc : (s.drives n).cache = some c) (hcyls : c.lruCyls = miss :: rest) :
    ∃ c' miss' rest', (s'.drives n).cache = some c' ∧ c'.lruCyls = miss' :: rest' := by
  have hlen := (h n).2
  rw [hc, map_some, hcyls] at hlen
  obtain ⟨c', hc', hlen⟩ := map_eq_some_iff.mp hlen
  obtain ⟨miss', rest', hcyls'⟩ := exists_cons_of_length_eq_add_one hlen
  exact ⟨c', miss', rest', hc', hcyls'⟩

/-- **A miss** into memory it has allocated succeeds, so that its cylinder gets a number; into
memory that was there before it may fail. -/
theorem Sound.cylCacheMiss {x : Script β} {miss : Cylinder β} {rest : List (Cylinder β)}
    (h : Sound [] (s.setCache n c)) (hf : (s.drives n).f.isSome) (hz : 0 ≤ z)
    (hfirst : x.reading.first.media = .same) (hsecond : x.reading.second.media = .same)
    (hcyls : c.lruCyls = miss :: rest)
    (hmiss : miss.data.isNull = false ∨
      x.reading.Succeeds ∧ (n, 0) ∉ x.purgedBefore ++ x.purgedAfter) :
    ∃ r, cylCacheMiss (s.setCache n c) n z c x = .ok r ∧ Sound [] r.2.2 := by
  have hnum : ∀ i e, c.lruCyls[i]? = some e → Cylinder.Numbered e := fun i e he =>
    (h n).numbered c i e (State.setCache_self ..) he not_mem_nil
  -- the cylinder without a number, if memory is allocated for it
  obtain ⟨l, hl, h0, hps, hsucc⟩ : ∃ l, (∀ p ∈ l, p = (n, 0)) ∧
      Sound l ((s.setCache n c).setCache n { c with lruCyls :=
        (if miss.data.isNull then { miss with data := .buf x.allocated } else miss) :: rest }) ∧
      (∀ p ∈ x.purgedBefore ++ x.purgedAfter, p ∉ l) ∧ (l = [] ∨ x.reading.Succeeds) := by
    cases hnull : miss.data.isNull with
    | false =>
      refine ⟨[], by simp, h.setCache (by simp) fun i e he _ => ?_, by simp, .inl rfl⟩
      exact hnum i e (hcyls ▸ he)
    | true =>
      obtain ⟨hsucc, hps⟩ := hmiss.resolve_left (by simp [hnull])
      refine ⟨[(n, 0)], by simp, h.setCache (by simp) fun i e he hi => ?_,
        fun p hp hmem => ?_, .inr hsucc⟩
      · cases i with
        | zero => simp at hi
        | succ i => exact hnum (i + 1) e (by simpa [hcyls] using he)
      · exact hps (mem_singleton.mp hmem ▸ hp)
  simp only [Floppy.cylCacheMiss, hcyls]
  obtain ⟨s1, hs1, h1, halike1⟩ := h0.purgeAll fun p hp => hps p (mem_append_left _ hp)
  simp only [hs1, bind, Except.bind]
  have hf1 : (s1.drives n).f.isSome := by
    rw [(halike1 n).1]
    simpa [State.setCache] using hf
  obtain ⟨c1, miss1, rest1, hc1, hcyls1⟩ := halike1.cons (State.setCache_self ..) rfl
  -- the transfer
  generalize hskip : decide (z = s1.dmaBufCyl ∧ s1.dmaBufDrv = n) = skip
  obtain ⟨ret, s2, hs2, h2, hcache2, hret⟩ : ∃ ret s2, updateDmaBuf s1 n z skip x.reading =
      .ok (ret, s2) ∧ Sound l s2 ∧ (s2.drives n).cache = (s1.drives n).cache ∧
      (x.reading.Succeeds → ret = 0) := by
    cases skip with
    | true => exact ⟨0, s1, rfl, h1, rfl, fun _ => rfl⟩
    | false =>
      obtain ⟨m, hm⟩ := isSome_iff_exists.mp ((h1 n).known hf1)
      obtain ⟨ret, f, s2, hs2, hdrives, hret⟩ := readCyl_same hm hf1 hfirst hsecond z.toNat
      refine ⟨ret, s2, hs2, ?_, by simp [hdrives], hret⟩
      rw [Sound, hdrives]
      exact State.forall_setDrive ⟨fun _ => by simp [hm], (h1 n).numbered⟩ fun k _ => h1 k
  simp only [hs2]
  split_ifs with h0
  · refine ⟨_, rfl, ?_⟩
    obtain rfl : l = [] := hsucc.resolve_right fun hx => h0 (hret hx)
    exact h2
  · obtain ⟨s3, hs3, h3, halike3⟩ := h2.purgeAll fun p hp => hps p (mem_append_right _ hp)
    obtain ⟨c3, miss3, rest3, hc3, hcyls3⟩ := halike3.cons (hcache2.trans hc1) hcyls1
    obtain ⟨r, s4, hs4, h4⟩ := h3.takeOver hl hz hc3 hcyls3
    rw [hs3]
    dsimp only
    rw [hs4]
    exact ⟨_, rfl, h4⟩

/-- A call that meets the condition returns and leaves every buffer its number, or what keeps it
from returning has nothing to do with purges. -/
theorem Sound.cylCacheRead {x : Script β} (h : Sound [] s) (hcalm : Calm s (.read n z x)) :
    (∃ r, cylCacheRead s n z x = .ok r ∧ Sound [] r.2.2) ∨
      ∃ e, ∀ before after, cylCacheRead s n z
        { x with purgedBefore := before, purgedAfter := after } = .error e := by
  obtain ⟨hq1, hq2, hfirst, hsecond, hmiss⟩ := hcalm
  by_cases hneg : z < 0
  · exact .inl ⟨_, if_pos hneg, h⟩
  have hz : 0 ≤ z := not_lt.mp hneg
  simp only [Floppy.cylCacheRead, if_neg hneg]
  cases hs1 : s.checkMediaChanged n x.first with
  | error e => exact .inr ⟨e, fun _ _ => rfl⟩
  | ok s1 =>
    obtain ⟨h1, hless1⟩ := h.check hq1 hs1
    simp only [bind, Except.bind]
    by_cases hf1 : (s1.drives n).f.isNone
    · exact .inl ⟨_, if_pos hf1, h1⟩
    simp only [if_neg hf1]
    cases hs2 : s1.checkMediaChanged n x.second with
    | error e => exact .inr ⟨e, fun _ _ => rfl⟩
    | ok s2 =>
      obtain ⟨h2, -⟩ := h1.check (hq2.imp_right fun hless => .inr (hless1 hless)) hs2
      dsimp only
      cases hf : (s2.drives n).f with
      | none => exact .inr ⟨_, fun _ _ => rfl⟩
      | some f =>
        dsimp only
        cases hc : (s2.drives n).getCache f.cylSize with
        | error e => exact .inr ⟨e, fun _ _ => rfl⟩
        | ok c =>
          have hcyls : ∀ e ∈ c.lruCyls, e.Numbered := by
            intro e he
            rcases getCache_eq hc with ⟨hold, -⟩ | ⟨rfl, -⟩
            · obtain ⟨i, hi⟩ := mem_iff_getElem?.mp he
              exact (h2 n).numbered c i e hold hi not_mem_nil
            · rw [eq_of_mem_replicate he]
              exact fun b hb => by cases hb
          have h3 : Sound [] (s2.setCache n c) :=
            h2.setCache (by simp) fun i e he _ => hcyls e (mem_of_getElem? he)
          dsimp only
          cases hfind : findCyl z c.lruCyls with
          | some found =>
            obtain ⟨before, test, after⟩ := found
            obtain ⟨hl, -⟩ := findCyl_eq_some hfind
            dsimp only
            cases hdata : test.data with
            | buf b =>
              refine .inl ⟨_, rfl, h3.setCache (by simp) fun i e he _ => hcyls e ?_⟩
              have hmem := mem_of_getElem? he
              simp only [hl, mem_append, mem_cons] at hmem ⊢
              tauto
            | null => exact .inr ⟨_, fun _ _ => rfl⟩
            | purged => exact .inr ⟨_, fun _ _ => rfl⟩
          | none =>
            cases hlru : c.lruCyls with
            | nil => exact .inr ⟨.nullPointer, fun _ _ => by simp only [Floppy.cylCacheMiss, hlru]⟩
            | cons miss rest =>
              refine .inl (h3.cylCacheMiss (by simp [hf]) hz hfirst hsecond hlru ?_)
              refine hmiss.imp_left fun ⟨hx1, hx2, f', c', e, rest', hf', hc', hsize, hl, he⟩ => ?_
              -- the checks change nothing, so that the cache is the one there was
              have hsome : (s.drives n).f.isSome := by simp [hf']
              rw [hx1, check_same_of_isSome hsome] at hs1
              cases hs1
              rw [hx2, check_same_of_isSome (s := { s with clean := s.clean && true }) hsome] at hs2
              cases hs2
              obtain rfl : f' = f := mem_unique hf' hf
              rcases getCache_eq hc with ⟨hold, -⟩ | ⟨-, hnew⟩
              · obtain rfl : c' = c := mem_unique hc' hold
                cases hl.symm.trans hlru
                exact he
              · exact absurd hsize (hnew c' hc')

theorem Sound.step {e : Event β} (h : Sound [] s) (hcalm : Calm s e) (hs : Step s e s') :
    Sound [] s' := by
  cases e with
  | read n z x =>
    obtain ⟨r, hr, rfl⟩ := map_eq_some_iff.mp hs
    rw [toOption_eq_some] at hr
    rcases h.cylCacheRead hcalm with ⟨r', hr', h'⟩ | ⟨e, herror⟩
    · cases hr.symm.trans hr'
      exact h'
    · cases hr.symm.trans (herror x.purgedBefore x.purgedAfter)
  | check n o =>
    obtain ⟨s1, hs1, rfl⟩ := map_eq_some_iff.mp hs
    exact (h.check hcalm (toOption_eq_some.mp hs1)).1
  | purge n i =>
    obtain ⟨s1, hs1, rfl⟩ := map_eq_some_iff.mp hs
    obtain ⟨s2, hs2, h2, -⟩ := h.purge (n := n) (i := i) not_mem_nil
    cases (toOption_eq_some.mp hs1).symm.trans hs2
    exact h2

end Floppy
