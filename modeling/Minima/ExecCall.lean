/-
Starting a program (`exec` of `exec.c`).

`exec` opens the file, prepares a task, lets the loader fill its memory and puts it on the
run queue.  What the other parts of the kernel do on the way (whether the file opens, how
much a read delivers, whether there is memory) are the answers of a `Dialogue`; the file may
have any contents, and a read may leave anything in the loader's buffers.

* `exec` — the function of the source;
* `Good` — the task was put on the run queue, with the entry point of a valid file whose
  segments are all mapped; or `exec` has returned an error and holds nothing;
* `Benign` — what `exec` relies on, question by question;
* `exec_good_iff` — the outcome is good iff all answers are benign;
* `mmap_shows` — `mmap` does what that of `Exec` does;
* `text_file_is_started` — a text file is started at the address 0.
-/
import Minima.Dialogue
import Minima.Elf

open Elf

namespace ExecCall

open List

/-! ### Files -/

/-- The contents of a file. -/
abbrev File := List UInt8

namespace File

variable (F : File)

/-- The bytes from an offset on, zeros after the end. -/
def bytes (off : ℕ) : Buf := fun i => F.getD (off + i) 0

/-- The file begins with `7F 45 4C 46` and has the class ELF32. -/
def IdentOk : Prop := magicOk (F.bytes 0) = true ∧ identClass (F.bytes 0) = elfClass32

/-- The header is there, and its entry sizes are those of the loader's structures. -/
def SizesOk : Prop :=
  48 ≤ F.length ∧ programHeaderEntrySize (F.bytes 0) = sizeofProgHdr ∧
    sectionHeaderEntrySize (F.bytes 0) = sizeofSectionHdr

/-- A file that `exec` may start. -/
def Ok : Prop := F.IdentOk ∧ F.SizesOk

instance : Decidable F.Ok := inferInstanceAs (Decidable ((_ ∧ _) ∧ _ ∧ _ ∧ _))

/-- The entry field of the header. -/
def entry : ℕ := Elf.entry (F.bytes 0)

/-- The program headers of the table that are in the file. -/
def progHdrs : List ProgHdr :=
  ((List.range (nProgramHeaders (F.bytes 0))).filter fun i =>
    programHeaderTable (F.bytes 0) + sizeofProgHdr * (i + 1) ≤ F.length).map
      (progHdr (F.bytes (programHeaderTable (F.bytes 0))))

/-- The segments that are to be loaded. -/
def segments : List ProgHdr := loads F.progHdrs

end File

/-! ### What `exec` asks -/

/-- Why a call does not return. -/
inductive Stop
  /-- a failed `assert` -/
  | assertion
  /-- a call of `halt` -/
  | halted
  /-- there is no memory, and the allocators panic -/
  | outOfMemory
  /-- a page fault in the kernel; the task is killed -/
  | pageFault
  deriving DecidableEq, Repr

/-- The result of a read, and what is in the buffer then. -/
structure Read where
  ret : ℤ
  buf : Buf

inductive Question
  /-- `vfs_open_file` -/
  | openFile
  /-- `task_prepare` -/
  | prepare
  /-- `vfs_read_at` into a buffer of the loader -/
  | read (bytes off : ℕ)
  /-- `kmalloc` for the table of program headers -/
  | kmalloc (bytes : ℕ)
  /-- the memory that `mmap` needs -/
  | map (addr len : ℕ)
  /-- `vfs_read_at` into the segment: `none`, if it runs into a page that is not mapped -/
  | fill (addr len off : ℕ)
  /-- a string is printed -/
  | print (ptr : ℕ)
  /-- `wait_tid` -/
  | wait

@[reducible] def Question.Answer : Question → Type
  | .openFile => Bool
  | .prepare => ℤ
  | .read _ _ => Read
  | .kmalloc _ => Option ℕ
  | .map _ _ => Bool
  | .fill _ _ _ => Option ℤ
  | .print _ => Bool
  | .wait => ℤ

/-- A segment as `mmap` gets it: address, length and offset in the file. -/
abbrev Segment := ℕ × ℕ × ℕ

/-- A part of the kernel, with the segments that `mmap` has returned for so far. -/
abbrev Action (α : Type) := StateT (List Segment) (Dialogue Question Question.Answer Stop) α

def ask (q : Question) : Action q.Answer := fun done => Dialogue.query q >>= fun a => pure (a, done)

def stop {α : Type} (e : Stop) : Action α := fun _ => .fault e

/-! ### The functions of the source -/

/-- `mmap` -/
def mmap (addr len off : ℕ) : Action ℕ :=
  if ¬ pageRoundUp (add32 addr len) < virtOffset then stop .assertion
  else do
    if ← ask (.map addr len) then
      match ← ask (.fill addr len off) with
      | none => stop .pageFault
      | some ret =>
        if ret < 0 then stop .halted
        else
          modify (· ++ [(addr, len, off)])
          return addr
    else stop .outOfMemory

/-- `kprintf` with `%s` for `ph->offset`: only `NULL` is not followed. -/
def skip (ph : ProgHdr) : Action Unit :=
  if ph.offset = 0 then return ()
  else do
    if ← ask (.print ph.offset) then return () else stop .pageFault

/-- The kernel around the loader. -/
def ops : Ops Action where
  readAt bytes off := do
    let a ← ask (.read bytes off)
    return (a.ret, a.buf)
  kmalloc bytes := do
    match ← ask (.kmalloc bytes) with
    | none => stop .outOfMemory
    | some ptr => return ptr
  kfree _ := return ()
  mmap := mmap
  skip := skip

/-- `ENOENT` -/
def enoent : ℤ := 3

/-- What `exec` returns, the entry point of the task it has put on the run queue, and whether the
open file and what `task_prepare` has allocated are still held. -/
structure Outcome where
  ret : ℤ
  queued : Option ℕ
  file : Bool
  task : Bool
  deriving DecidableEq, Repr

/-- `exec`, up to the `task_unmap` at its end.  `wait_tid` returns when the task has been
reaped. -/
def exec : Action Outcome := do
  if ← ask .openFile then
    let tid ← ask .prepare
    if tid < 0 then return ⟨tid, none, true, false⟩
    else
      let (ret, entry) ← elfLoad ops 0
      if ret < 0 then return ⟨ret, none, true, true⟩
      else
        -- `task_update_entry`, `to_runqueue`
        let ret ← ask .wait
        return ⟨ret, some entry, false, false⟩
  else return ⟨-enoent, none, false, false⟩

/-! ### What `exec` relies on -/

/-- `mmap` does not run into its assertion, and `load_segment` does not take what it returns
for a failure. -/
def Loadable (ph : ProgHdr) : Prop :=
  ph.virtAddr ≠ 0 ∧ pageRoundUp (add32 ph.virtAddr ph.memBytes) < virtOffset

def segmentOf (ph : ProgHdr) : Segment := (ph.virtAddr, ph.memBytes, ph.offset)

/-- The pages that `mmap` maps reach to the end of the segment: that end has not wrapped. -/
def Covered (addr len : ℕ) : Prop := len = 0 ∨ addr + len ≤ pageRoundUp (add32 addr len)

/-- Every segment of the file is among those, and its pages are mapped. -/
def Mapped (F : File) (done : List Segment) : Prop :=
  ∀ ph ∈ F.segments, segmentOf ph ∈ done ∧ Covered ph.virtAddr ph.memBytes

/-- The task was started and should be; or it was not, `exec` returns an error and everything is
released. -/
def Good (F : File) (x : Outcome × List Segment) : Prop :=
  match x.1.queued with
  | some entry => F.Ok ∧ entry = F.entry ∧ Mapped F x.2
  | none => x.1.ret < 0 ∧ x.1.file = false ∧ x.1.task = false

/-- The first read: the buffer and the file have the right magic and class.  (With another
magic in the buffer, the task is started at the address 0 as it is.) -/
def IdentBenign (F : File) (b : Buf) : Prop :=
  (magicOk b = true ∧ identClass b = elfClass32 ∧ F.IdentOk) ∨
    (magicOk b = false ∧ F.Ok ∧ F.entry = 0 ∧ F.segments = [])

/-- The second read: the file has the right sizes, and the entry in the buffer is that of the
file.  (With other sizes in the buffer, the task is started as it is.) -/
def HeaderBenign (F : File) (b : Buf) : Prop :=
  F.SizesOk ∧ entry b = F.entry ∧
    ((programHeaderEntrySize b = sizeofProgHdr ∧ sectionHeaderEntrySize b = sizeofSectionHdr) ∨
      F.segments = [])

/-- The read of the table, with the headers that are in the buffer then: the segments of the
file are among them, and all of them can be loaded. -/
def TableBenign (F : File) (l : List ProgHdr) : Prop :=
  Mapped F ((loads l).map segmentOf) ∧ ∀ ph ∈ loads l, Loadable ph

/-- An answer after which `exec` does the right thing.  Which of the reads it is can be told
from the number of bytes. -/
def Benign (F : File) : ∀ q : Question, q.Answer → Prop
  | .openFile, _ => True
  | .prepare, tid => 0 ≤ tid
  | .read bytes _, a => 0 ≤ a.ret ∧
    if bytes = sizeofIdent then IdentBenign F a.buf
    else if bytes = sizeofFile then HeaderBenign F a.buf
    else TableBenign F (progHdrs a.buf (bytes / sizeofProgHdr))
  | .kmalloc _, ptr => ptr.isSome
  | .map _ _, granted => granted = true
  | .fill _ _ _, ret => ∃ n, ret = some n ∧ 0 ≤ n
  | .print _, readable => readable = true
  | .wait, _ => True

/-! ### Rules for parts of the kernel -/

section Rules

variable {α β : Type} {F : File} {good bad : α × List Segment → Prop}
  {good' bad' : β × List Segment → Prop} {x : Action α} {f : α → Action β} {done : List Segment}

theorem exact_bind (h : (x done).Exact (Benign F) good bad)
    (hgood : ∀ a done', good (a, done') → (f a done').Exact (Benign F) good' bad')
    (hbad : ∀ a done', bad (a, done') → (f a done').Doomed bad') :
    ((x >>= f) done).Exact (Benign F) good' bad' :=
  Dialogue.Exact.bind h (fun p hp => hgood p.1 p.2 hp) fun p hp => hbad p.1 p.2 hp

theorem doomed_bind (h : (x done).Doomed bad)
    (hbad : ∀ a done', bad (a, done') → (f a done').Doomed bad') :
    ((x >>= f) done).Doomed bad' :=
  Dialogue.Doomed.bind h fun p hp => hbad p.1 p.2 hp

variable {q : Question}

theorem exact_ask_bind {f : q.Answer → Action β} :
    ((ask q >>= f) done).Exact (Benign F) good' bad' ↔
      ∀ a, (Benign F q a → (f a done).Exact (Benign F) good' bad') ∧
        (¬ Benign F q a → (f a done).Doomed bad') :=
  Iff.rfl

theorem doomed_ask_bind {f : q.Answer → Action β} :
    ((ask q >>= f) done).Doomed bad' ↔ ∀ a, (f a done).Doomed bad' :=
  Iff.rfl

theorem exact_readAt_bind {bytes off : ℕ} {f : ℤ × Buf → Action β} :
    ((ops.readAt bytes off >>= f) done).Exact (Benign F) good' bad' ↔
      ∀ a : Read, (Benign F (.read bytes off) a →
          (f (a.ret, a.buf) done).Exact (Benign F) good' bad') ∧
        (¬ Benign F (.read bytes off) a → (f (a.ret, a.buf) done).Doomed bad') :=
  Iff.rfl

end Rules

variable {F : File} {done : List Segment}

/-! ### The loader -/

theorem mmap_exact {addr len off : ℕ} (h : pageRoundUp (add32 addr len) < virtOffset) :
    (mmap addr len off done).Exact (Benign F)
      (fun x => x = (addr, done ++ [(addr, len, off)])) fun _ => False := by
  rw [mmap, if_neg (not_not.mpr h)]
  refine exact_ask_bind.mpr fun granted => ?_
  cases granted with
  | false => exact ⟨fun hok => (by cases hok), fun _ => trivial⟩
  | true =>
    refine ⟨fun _ => ?_, fun hok => absurd rfl hok⟩
    refine exact_ask_bind.mpr fun ret => ?_
    cases ret with
    | none => exact ⟨fun hok => (by simp [Benign] at hok), fun _ => trivial⟩
    | some n =>
      have hbenign : Benign F (.fill addr len off) (some n) ↔ 0 ≤ n := by simp [Benign]
      rw [hbenign]
      by_cases hret : n < 0
      · simp only [hret, if_true]
        exact ⟨fun hok => absurd hret (not_lt.mpr hok), fun _ => trivial⟩
      · simp only [hret, if_false]
        exact ⟨fun _ => rfl, fun hok => absurd (not_lt.mp hret) hok⟩

/-- **The same `mmap`**: if that of `Exec` returns, so does this one on benign answers, and the
segment is covered iff each of its bytes is in a page that `vm_map` has gone through. -/
theorem mmap_shows {fuel addr len prot off : ℕ} {file : Exec.File} {m : Kernel.Rest}
    {r : Exec.Mapping} {ans : ℕ → ∀ q : Question, q.Answer} (haddr : addr < 2 ^ 32)
    (h : Exec.mmap fuel addr len prot file off m = .ok r)
    (hans : ∀ e ∈ (mmap addr len off done).asked ans 0, Benign F e.1 e.2) :
    (mmap addr len off done).play ans 0 = .ok (r.ptr, done ++ [(addr, len, off)]) ∧
      (Covered addr len ↔
        ∀ i < len, ∃ va ∈ r.pages, va ≤ addr + i ∧ addr + i < va + pageSize) := by
  obtain ⟨hstop, hptr, -⟩ := Exec.mmap_eq_ok h
  refine ⟨?_, ?_⟩
  · obtain ⟨x, hx, rfl⟩ := ((mmap_exact hstop).play_iff (fun _ h => h.elim) ans 0).mpr hans
    rw [hptr]
    exact hx
  · have hmod : pageRoundUp (add32 addr len) % pageSize = 0 := pageRoundDn_mod _
    simp only [Covered, Exec.mem_pages haddr h]
    constructor
    · intro hcov i hi
      have hend := hcov.resolve_left (by omega)
      refine ⟨pageRoundDn (addr + i), ⟨pageRoundDn_mod _, ?_, ?_⟩, ?_, ?_⟩ <;>
        simp only [pageRoundDn, pageSize] <;> omega
    · intro hall
      by_cases hlen : len = 0
      · exact .inl hlen
      · obtain ⟨va, ⟨hva, -, hlt⟩, hle, hin⟩ := hall (len - 1) (by omega)
        simp only [pageSize] at hmod hva hin
        exact .inr (by omega)

variable {ph : ProgHdr}

theorem loadSegment_exact (h : Loadable ph) :
    (loadSegment ops ph done).Exact (Benign F)
      (fun x => x = (0, done ++ [segmentOf ph])) fun _ => False := by
  refine exact_bind (mmap_exact h.2) ?_ fun _ _ hbad => hbad.elim
  rintro ptr done' hx
  obtain ⟨rfl, rfl⟩ := Prod.mk.inj hx
  simp only [h.1, if_false]
  rfl

theorem loadSegment_doomed (h : ¬ Loadable ph) :
    (loadSegment ops ph done).Doomed fun x => x.1 < 0 := by
  by_cases hstop : pageRoundUp (add32 ph.virtAddr ph.memBytes) < virtOffset
  · have hnull : ph.virtAddr = 0 := by
      by_contra hne
      exact h ⟨hne, hstop⟩
    refine doomed_bind (mmap_exact (F := []) hstop).doomed ?_
    rintro ptr done' (hx | hx)
    · obtain ⟨rfl, rfl⟩ := Prod.mk.inj hx
      simp only [hnull, if_true]
      show -Exec.enomem < 0
      decide
    · exact hx.elim
  · show ((mmap ph.virtAddr ph.memBytes ph.offset >>= fun ptr =>
      if ptr = 0 then pure (-Exec.enomem) else pure 0) done).Doomed _
    rw [mmap, if_pos hstop]
    trivial

theorem skip_exact (ph : ProgHdr) :
    (skip ph done).Exact (Benign F) (fun x => x = ((), done)) fun _ => False := by
  rw [skip]
  split_ifs with hnull
  · rfl
  · refine exact_ask_bind.mpr fun readable => ?_
    cases readable with
    | false => exact ⟨fun hok => (by cases hok), fun _ => trivial⟩
    | true => exact ⟨fun _ => rfl, fun hok => absurd rfl hok⟩

theorem loads_cons (ph : ProgHdr) (l : List ProgHdr) :
    loads (ph :: l) = if ph.type = stLoad then ph :: loads l else loads l := by
  by_cases h : ph.type = stLoad <;> simp [loads, h]

variable {ret : ℤ} {l : List ProgHdr}

theorem loadSegments_exact (phdrs : ℕ) (hret : 0 ≤ ret) (hl : ∀ ph ∈ loads l, Loadable ph) :
    (loadSegments ops phdrs ret l done).Exact (Benign F)
      (fun x => 0 ≤ x.1 ∧ x.2 = done ++ (loads l).map segmentOf) fun _ => False := by
  induction l generalizing ret done with
  | nil => exact ⟨hret, (append_nil done).symm⟩
  | cons ph l ih =>
    rw [loads_cons] at hl
    rw [loadSegments, loads_cons]
    by_cases htype : ph.type = stLoad
    · simp only [htype, if_true] at hl
      simp only [htype, ne_eq, not_true, if_false, if_true]
      refine exact_bind (loadSegment_exact (hl ph mem_cons_self)) ?_ fun _ _ h => h.elim
      rintro ret' done' hx
      obtain ⟨rfl, rfl⟩ := Prod.mk.inj hx
      refine (ih le_rfl fun ph' h => hl ph' (mem_cons_of_mem _ h)).mono ?_ fun _ h => h
      rintro x ⟨hx, hdone⟩
      refine ⟨hx, hdone.trans ?_⟩
      rw [map_cons, append_assoc, singleton_append]
    · simp only [htype, if_false] at hl
      simp only [htype, ne_eq, not_false_eq_true, if_true, if_false]
      refine exact_bind (skip_exact ph) ?_ fun _ _ h => h.elim
      rintro u done' hx
      obtain ⟨-, rfl⟩ := Prod.mk.inj hx
      exact ih hret hl

theorem loadSegments_doomed (phdrs : ℕ) (hl : ¬ ∀ ph ∈ loads l, Loadable ph) :
    (loadSegments ops phdrs ret l done).Doomed fun x => x.1 < 0 := by
  induction l generalizing ret done with
  | nil => exact absurd (fun ph h => absurd h not_mem_nil) hl
  | cons ph l ih =>
    rw [loads_cons] at hl
    rw [loadSegments]
    by_cases htype : ph.type = stLoad
    · simp only [htype, if_true, forall_mem_cons] at hl
      simp only [htype, ne_eq, not_true, if_false]
      by_cases hph : Loadable ph
      · refine doomed_bind (loadSegment_exact (F := []) hph).doomed ?_
        rintro ret' done' (hx | hx)
        · obtain ⟨rfl, rfl⟩ := Prod.mk.inj hx
          exact ih fun h => hl ⟨hph, h⟩
        · exact hx.elim
      · refine doomed_bind (loadSegment_doomed hph) ?_
        intro ret' done' hneg
        have hne : ret' ≠ 0 := hneg.ne
        simp only [hne, not_false_eq_true, if_true]
        exact hneg
    · simp only [htype, if_false] at hl
      simp only [htype, ne_eq, not_false_eq_true, if_true]
      refine doomed_bind (skip_exact (F := []) ph).doomed ?_
      rintro u done' -
      exact ih hl

/-- What `exec` makes of the result of the loader. -/
def Started (F : File) (x : (ℤ × ℕ) × List Segment) : Prop :=
  0 ≤ x.1.1 ∧ F.Ok ∧ x.1.2 = F.entry ∧ Mapped F x.2

theorem not_started_of_neg {x : (ℤ × ℕ) × List Segment} (h : x.1.1 < 0) : ¬ Started F x :=
  fun hs => absurd hs.1 (not_le.mpr h)

theorem mapped_nil : Mapped F [] ↔ F.segments = [] := by
  constructor
  · intro h
    refine eq_nil_iff_forall_not_mem.mpr fun ph hph => ?_
    exact absurd (h ph hph).1 not_mem_nil
  · intro h ph hph
    rw [h] at hph
    exact absurd hph not_mem_nil

theorem table_exact (phdrs : ℕ) {e : ℕ} (hret : 0 ≤ ret) (hok : F.Ok) (he : e = F.entry) :
    (TableBenign F l →
      ((loadSegments ops phdrs ret l >>= fun ret => pure (ret, e)) []).Exact (Benign F)
        (Started F) fun x => ¬ Started F x) ∧
    (¬ TableBenign F l →
      ((loadSegments ops phdrs ret l >>= fun ret => pure (ret, e)) []).Doomed
        fun x => ¬ Started F x) := by
  constructor
  · rintro ⟨hmapped, hl⟩
    refine exact_bind (loadSegments_exact phdrs hret hl) ?_ fun _ _ h => h.elim
    rintro ret' done' ⟨hret', hdone⟩
    refine ⟨hret', hok, he, ?_⟩
    rw [show done' = (loads l).map segmentOf from hdone]
    exact hmapped
  · intro hbad
    by_cases hl : ∀ ph ∈ loads l, Loadable ph
    · -- everything is loaded, but not what the file has
      refine doomed_bind (loadSegments_exact (F := F) phdrs hret hl).doomed ?_
      rintro ret' done' (⟨-, hdone⟩ | h)
      · rintro ⟨-, -, -, hmapped⟩
        refine hbad ⟨?_, hl⟩
        rw [← show done' = (loads l).map segmentOf from hdone]
        exact hmapped
      · exact h.elim
    · refine doomed_bind (loadSegments_doomed phdrs hl) ?_
      intro ret' done' hneg
      exact not_started_of_neg hneg

theorem kmalloc_exact (bytes : ℕ) :
    (ops.kmalloc bytes done).Exact (Benign F) (fun x => x.2 = done) fun _ => False := by
  refine exact_ask_bind.mpr fun ptr => ?_
  cases ptr with
  | none => exact ⟨fun hok => (by cases hok), fun _ => trivial⟩
  | some p => exact ⟨fun _ => rfl, fun hok => absurd rfl hok⟩

theorem loadTable_exact {b : Buf} (hok : F.Ok) (he : entry b = F.entry) :
    (loadTable ops b []).Exact (Benign F) (Started F) fun x => ¬ Started F x := by
  refine exact_bind (kmalloc_exact _) ?_ fun _ _ h => h.elim
  intro phdrs done' hdone
  obtain rfl : done' = [] := hdone
  refine exact_readAt_bind.mpr fun a => ?_
  -- the number of bytes is none of those of the headers
  have hident : nProgramHeaders b * sizeofProgHdr ≠ sizeofIdent := by
    simp only [sizeofProgHdr, sizeofIdent]
    omega
  have hfile : nProgramHeaders b * sizeofProgHdr ≠ sizeofFile := by
    simp only [sizeofProgHdr, sizeofFile]
    omega
  have hn : nProgramHeaders b * sizeofProgHdr / sizeofProgHdr = nProgramHeaders b :=
    Nat.mul_div_cancel _ (by decide)
  simp only [Benign, hident, hfile, hn, if_false]
  generalize a.buf = table
  by_cases hret : a.ret < 0
  · simp only [hret, if_true]
    exact ⟨fun h => absurd h.1 (not_le.mpr hret), fun _ => not_started_of_neg hret⟩
  · have htable := table_exact phdrs (l := progHdrs table (nProgramHeaders b))
      (not_lt.mp hret) hok he
    simp only [hret, if_false]
    exact ⟨fun h => htable.1 h.2, fun h => htable.2 fun ht => h ⟨not_lt.mp hret, ht⟩⟩

theorem loadTable_entry (b : Buf) :
    (loadTable ops b done).Doomed fun x => x.1.2 = entry b := by
  refine doomed_bind (Dialogue.doomed_of_forall fun _ => trivial) fun phdrs done' _ => ?_
  refine doomed_bind (Dialogue.doomed_of_forall fun _ => trivial) ?_
  rintro ⟨ret, table⟩ done'' -
  by_cases hret : ret < 0
  · simp only [hret, if_true]
    rfl
  · simp only [hret, if_false]
    refine doomed_bind (Dialogue.doomed_of_forall fun _ => trivial) fun ret' done3 _ => ?_
    rfl

theorem load32_exact (hident : F.IdentOk) :
    (load32 ops 0 []).Exact (Benign F) (Started F) fun x => ¬ Started F x := by
  refine exact_readAt_bind.mpr fun a => ?_
  simp only [Benign, show sizeofFile ≠ sizeofIdent by decide, if_false, if_true]
  generalize a.buf = b
  by_cases hret : a.ret < 0
  · simp only [hret, if_true]
    exact ⟨fun h => absurd h.1 (not_le.mpr hret), fun _ => not_started_of_neg hret⟩
  have hret' : 0 ≤ a.ret := not_lt.mp hret
  simp only [hret, if_false, hret', true_and]
  by_cases hsizes : programHeaderEntrySize b = sizeofProgHdr ∧
      sectionHeaderEntrySize b = sizeofSectionHdr
  · -- the table is read and the segments are loaded
    simp only [hsizes.1, hsizes.2, ne_eq, not_true, if_false]
    constructor
    · rintro ⟨hF, he, -⟩
      exact loadTable_exact ⟨hident, hF⟩ he
    · intro hbad
      refine (loadTable_entry b).mono fun x hx hstarted => hbad ⟨hstarted.2.1.2, ?_, .inl hsizes⟩
      exact hx.symm.trans hstarted.2.2.1
  · -- the task is started as it is
    have hsome : ((if sizeofProgHdr ≠ programHeaderEntrySize b then pure (1, entry b)
        else if sizeofSectionHdr ≠ sectionHeaderEntrySize b then pure (1, entry b)
        else loadTable ops b) []) = pure ((1, entry b), []) := by
      by_cases hprog : sizeofProgHdr = programHeaderEntrySize b
      · have hsect : sizeofSectionHdr ≠ sectionHeaderEntrySize b :=
          fun h => hsizes ⟨hprog.symm, h.symm⟩
        rw [if_neg (not_not.mpr hprog), if_pos hsect]
        rfl
      · rw [if_pos hprog]
        rfl
    rw [hsome]
    have hiff : Started F ((1, entry b), []) ↔ HeaderBenign F b := by
      simp only [Started, HeaderBenign, File.Ok, hident, hsizes, mapped_nil, true_and, false_or]
      exact ⟨fun h => h.2, fun h => ⟨by decide, h⟩⟩
    exact ⟨fun h => hiff.mpr h, fun h hstarted => h (hiff.mp hstarted)⟩

theorem elfLoad_exact (F : File) :
    (elfLoad ops 0 []).Exact (Benign F) (Started F) fun x => ¬ Started F x := by
  refine exact_readAt_bind.mpr fun a => ?_
  simp only [Benign, if_true]
  generalize a.buf = b
  by_cases hret : a.ret < 0
  · simp only [hret, if_true]
    exact ⟨fun h => absurd h.1 (not_le.mpr hret), fun _ => not_started_of_neg hret⟩
  have hret' : 0 ≤ a.ret := not_lt.mp hret
  simp only [hret, if_false, hret', true_and]
  cases hmagic : magicOk b with
  | false =>
    have hiff : Started F ((1, 0), []) ↔ IdentBenign F b := by
      simp only [Started, IdentBenign, hmagic, mapped_nil, Bool.false_eq_true, false_and, false_or,
        true_and, eq_comm]
      exact ⟨fun h => h.2, fun h => ⟨by decide, h⟩⟩
    exact ⟨fun h => hiff.mpr h, fun h hstarted => h (hiff.mp hstarted)⟩
  | true =>
    by_cases hclass : identClass b = elfClass32
    · simp only [hclass, if_true]
      have hiff : IdentBenign F b ↔ F.IdentOk := by
        simp [IdentBenign, hmagic, hclass]
      rw [hiff]
      refine ⟨load32_exact, fun hident => ?_⟩
      exact Dialogue.doomed_of_forall fun x hstarted => hident hstarted.2.1.1
    · simp only [hclass, if_false]
      have hbad : ¬ IdentBenign F b := by simp [IdentBenign, hmagic, hclass]
      refine ⟨fun h => absurd h hbad, fun _ => not_started_of_neg ?_⟩
      show -enoexec < 0
      decide

theorem exec_exact (F : File) :
    (exec []).Exact (Benign F) (Good F) fun x => ¬ Good F x := by
  refine exact_ask_bind.mpr fun opened => ?_
  refine ⟨fun _ => ?_, fun h => absurd trivial h⟩
  cases opened with
  | false => exact ⟨by decide, rfl, rfl⟩
  | true =>
    refine exact_ask_bind.mpr fun tid => ?_
    by_cases htid : tid < 0
    · simp only [htid, if_true]
      refine ⟨fun h => absurd h (not_le.mpr htid), fun _ hgood => ?_⟩
      exact absurd (show true = false from hgood.2.1) (by decide)
    · simp only [htid, if_false]
      refine ⟨fun _ => ?_, fun h => absurd (not_lt.mp htid) h⟩
      refine exact_bind (elfLoad_exact F) ?_ ?_
      · rintro ⟨ret, e⟩ done' ⟨hret, hok, he, hmapped⟩
        have hret' : ¬ ret < 0 := not_lt.mpr hret
        simp only [hret', if_false]
        refine exact_ask_bind.mpr fun status => ⟨fun _ => ⟨hok, he, hmapped⟩, fun h => ?_⟩
        exact absurd trivial h
      · rintro ⟨ret, e⟩ done' hbad
        by_cases hret : ret < 0
        · simp only [hret, if_true]
          exact fun hgood => absurd (show true = false from hgood.2.1) (by decide)
        · simp only [hret, if_false]
          refine doomed_ask_bind.mpr fun status hgood => ?_
          exact hbad ⟨not_lt.mp hret, hgood.1, hgood.2.1, hgood.2.2⟩

/-- **When `exec` starts only valid programs**: the task is put on the run queue with the entry of
a valid file whose segments are all mapped, or `exec` returns an error and has released
everything, iff every answer is benign. -/
theorem exec_good_iff (F : File) (ans : ℕ → ∀ q : Question, q.Answer) :
    (∃ x, (exec []).play ans 0 = .ok x ∧ Good F x) ↔
      ∀ e ∈ (exec []).asked ans 0, Benign F e.1 e.2 :=
  (exec_exact F).play_iff (fun _ h => h) ans 0

/-- A kernel in which everything succeeds, and reads deliver what the file has. -/
def willing (F : File) : ∀ q : Question, q.Answer
  | .openFile => true
  | .prepare => (1 : ℤ)
  | .read bytes off => ⟨min bytes (F.length - off), F.bytes off⟩
  | .kmalloc _ => some (1 : ℕ)
  | .map _ _ => true
  | .fill _ len off => some (min len (F.length - off) : ℤ)
  | .print _ => true
  | .wait => (0 : ℤ)

/-- The header of a program without segments, with the entry `0x08048000`. -/
def emptyProgram : File :=
  [0x7F, 0x45, 0x4C, 0x46, 1, 1, 1, 0, 0, 0, 0, 0, 0, 0, 0, 0,
    2, 0, 3, 0, 1, 0, 0, 0, 0x00, 0x80, 0x04, 0x08, 52, 0, 0, 0, 0, 0, 0, 0,
    0, 0, 0, 0, 52, 0, 32, 0, 0, 0, 40, 0, 0, 0, 0, 0]

example : (exec []).play (fun _ => willing emptyProgram) 0 =
    .ok (⟨0, some 0x08048000, false, false⟩, []) := rfl

/-- A text file, `#!` -/
def textFile : File := [0x23, 0x21]

/-- **A text file is started** at the address 0: `elf_load` returns 1 for its magic, and `exec`
takes only negative numbers for errors. -/
theorem text_file_is_started :
    ¬ textFile.Ok ∧ (exec []).play (fun _ => willing textFile) 0 =
      .ok (⟨0, some 0, false, false⟩, []) :=
  ⟨by decide, rfl⟩

end ExecCall
