/-
Files of memfs (`memfs_read`, `memfs_write`, `memfs_seek` and `memfs_stat` of
`fs/mem.c`).

A file is a buffer, `n->data`, of `n->capacity` bytes, or none.  A write beyond
its end gets a larger buffer from `kmalloc`, copies the old one and frees it; the
open files that share the node find the new one through it.

What a file is for is a list of bytes that its open files share, each with an
offset of its own (`Contents`).

* `State.step` — the functions of the source on one file and its open files;
* `Contents.step` — what they are for;
* `step_refines` — one call: the buffer stays as long as the file says, and
  nothing outside a buffer is touched;
* `memfs_refines` — any sequence of calls, on any number of open files.
-/
import Minima.Ext2

namespace Memfs

open Function List
open Ext2 (toSsize)

/-! ### Buffers -/

/-- The buffers that `kmalloc` has given out, by address. -/
abbrev Heap := ℕ → Option (List ℕ)

namespace Heap

/-- `kmalloc(bytes)`, zero-filled, where `a` is what it returns. -/
def kmalloc (h : Heap) (a bytes : ℕ) : Heap :=
  update h a (some (List.replicate bytes 0))

def kfree (h : Heap) (a : ℕ) : Heap := if a = 0 then h else update h a none

/-- The bytes that `memcpy(..., a + off, bytes)` reads: none for an access outside
the buffer. -/
def load (h : Heap) (a off bytes : ℕ) : Option (List ℕ) :=
  if bytes = 0 then some []
  else (h a).bind fun buf =>
    if off + bytes ≤ buf.length then some ((buf.drop off).take bytes) else none

/-- `memcpy(a + off, src, ...)` -/
def store (h : Heap) (a off : ℕ) (src : List ℕ) : Option Heap :=
  if src = [] then some h
  else (h a).bind fun buf =>
    if off + src.length ≤ buf.length then
      some (update h a (some (buf.take off ++ src ++ buf.drop (off + src.length))))
    else none

end Heap

/-! ### The functions of the source -/

/-- A `memfs_node` that is a file, the buffers, and the offsets of the open
files. -/
structure State where
  heap : Heap
  data : ℕ
  capacity : ℕ
  id : ℕ
  mode : ℕ
  offset : ℕ → Option ℕ

/-- `struct vfs_stat` -/
structure Stat where
  size : ℕ
  blockSize : ℕ
  offset : ℕ
  id : ℕ
  mode : ℕ
  links : ℕ
  uid : ℕ
  gid : ℕ
  deriving DecidableEq

/-- What a call returns. -/
inductive Reply
  /-- of `memfs_read`, with what it has stored in `buf` -/
  | read (ret : ℤ) (buf : List ℕ)
  | written (ret : ℤ)
  | sought (ret : ℕ)
  | stat (out : Stat)
  | opened
  | closed
  deriving DecidableEq

def State.setOffset (s : State) (f off : ℕ) : State :=
  { s with offset := update s.offset f (some off) }

def memfsRead (s : State) (f bytes : ℕ) : Option (State × Reply) := do
  let off ← s.offset f
  if s.capacity ≤ off then some (s, .read 0 [])
  else do
    let remain := sub32 s.capacity off
    let toRead := if bytes ≤ remain then bytes else remain
    let buf ← s.heap.load s.data off toRead
    some (s.setOffset f (add32 off toRead), .read (toSsize toRead) buf)

/-- The part of `memfs_write` that gets a larger buffer. -/
def grow (s : State) (newsize newbuf : ℕ) : Option State := do
  let heap := s.heap.kmalloc newbuf newsize
  let old ← heap.load s.data 0 s.capacity
  let heap ← heap.store newbuf 0 old
  some { s with heap := heap.kfree s.data, data := newbuf, capacity := newsize }

/-- The rest of `memfs_write`. -/
def writeInPlace (s : State) (f off : ℕ) (buf : List ℕ) : Option (State × Reply) := do
  let heap ← s.heap.store s.data off buf
  some ({ s with heap := heap }.setOffset f (add32 off buf.length),
    .written (toSsize buf.length))

/-- `-ENOMEM` -/
def enomem : ℤ := -12

/-- `memfs_write`, where `newbuf` is what `kmalloc` returns if it is called. -/
def memfsWrite (s : State) (f : ℕ) (buf : List ℕ) (newbuf : ℕ) : Option (State × Reply) := do
  let off ← s.offset f
  if s.capacity < add32 off buf.length then
    if newbuf = 0 then some (s, .written enomem)
    else do
      let s ← grow s (add32 off buf.length) newbuf
      writeInPlace s f off buf
  else writeInPlace s f off buf

/-- The offset that `memfs_seek` sets. -/
def sought (capacity off offset mode : ℕ) : ℕ :=
  match mode with
  | 0 => offset
  | 1 => add32 off offset
  | 2 => add32 capacity offset
  | _ => off

def memfsSeek (s : State) (f offset mode : ℕ) : Option (State × Reply) := do
  let off ← s.offset f
  some (s.setOffset f (sought s.capacity off offset mode),
    .sought (sought s.capacity off offset mode))

def memfsStat (s : State) (f : ℕ) : Option (State × Reply) := do
  let off ← s.offset f
  some (s, .stat ⟨s.capacity, 512, off, s.id, s.mode, 0, 1000, 1000⟩)

/-- A call on an open file; a new one gets the number `f`. -/
inductive Event
  | openFile (f : ℕ)
  | closeFile (f : ℕ)
  | read (f bytes : ℕ)
  | write (f : ℕ) (buf : List ℕ) (newbuf : ℕ)
  | seek (f offset mode : ℕ)
  | stat (f : ℕ)

def State.step (s : State) : Event → Option (State × Reply)
  | .openFile f => some (s.setOffset f 0, .opened)
  | .closeFile f => some ({ s with offset := update s.offset f none }, .closed)
  | .read f bytes => memfsRead s f bytes
  | .write f buf newbuf => memfsWrite s f buf newbuf
  | .seek f offset mode => memfsSeek s f offset mode
  | .stat f => memfsStat s f

def State.run (s : State) : List Event → Option (State × List Reply)
  | [] => some (s, [])
  | e :: es => do
    let (s, r) ← s.step e
    let (s, rs) ← s.run es
    some (s, r :: rs)

/-! ### What a file is for -/

/-- `l`, with zeros at the end up to length `n`. -/
def pad (l : List ℕ) (n : ℕ) : List ℕ := l ++ List.replicate (n - l.length) 0

/-- `l` with `w` in place of what it has from `off` on; a gap between the end of
`l` and `off` is filled with zeros. -/
def overwrite (l : List ℕ) (off : ℕ) (w : List ℕ) : List ℕ :=
  (pad l off).take off ++ w ++ l.drop (off + w.length)

/-- A list of bytes, and the offsets of the open files. -/
structure Contents where
  bytes : List ℕ
  id : ℕ
  mode : ℕ
  offset : ℕ → Option ℕ

def Contents.setOffset (c : Contents) (f off : ℕ) : Contents :=
  { c with offset := update c.offset f (some off) }

/-- Where a seek leads: `offset` bytes from the beginning, from `off`, or from the end. -/
def Contents.seek (c : Contents) (off offset mode : ℕ) : ℕ :=
  if mode = 0 then offset
  else if mode = 1 then (off + offset) % 2 ^ 32
  else if mode = 2 then (c.bytes.length + offset) % 2 ^ 32
  else off

/-- A call on an open file whose offset is `off`. -/
def Contents.call (c : Contents) (off : ℕ) : Event → Contents × Reply
  | .openFile f => (c.setOffset f 0, .opened)
  | .closeFile f => ({ c with offset := update c.offset f none }, .closed)
  | .read f bytes =>
    let slice := (c.bytes.drop off).take bytes
    (c.setOffset f (off + slice.length), .read (toSsize slice.length) slice)
  | .write f buf _ =>
    ({ c with bytes := overwrite c.bytes off buf }.setOffset f (off + buf.length),
      .written (toSsize buf.length))
  | .seek f offset mode =>
    (c.setOffset f (c.seek off offset mode), .sought (c.seek off offset mode))
  | .stat _ => (c, .stat {
      size := c.bytes.length, blockSize := 512, offset := off, id := c.id, mode := c.mode
      links := 0, uid := 1000, gid := 1000 })

/-- The open file that an event is about. -/
def Event.file : Event → ℕ
  | .openFile f => f
  | .closeFile f => f
  | .read f _ => f
  | .write f _ _ => f
  | .seek f _ _ => f
  | .stat f => f

def Contents.step (c : Contents) (e : Event) : Contents × Reply :=
  c.call ((c.offset e.file).getD 0) e

def Contents.run (c : Contents) : List Event → Contents × List Reply
  | [] => (c, [])
  | e :: es =>
    let (c, r) := c.step e
    let (c, rs) := c.run es
    (c, r :: rs)

/-! ### The buffer holds the contents -/

/-- The bytes of the file. -/
def State.bytes (s : State) : List ℕ := (s.heap s.data).getD []

/-- What the file is, seen from outside. -/
def State.contents (s : State) : Contents := ⟨s.bytes, s.id, s.mode, s.offset⟩

/-- The buffer is as long as the file says, and is not one that has been freed. -/
structure Inv (s : State) : Prop where
  null : s.heap 0 = none
  live : s.data ≠ 0 → ∃ buf, s.heap s.data = some buf
  length : s.bytes.length = s.capacity
  word : s.capacity < 2 ^ 32

/-- The call is on an open file (or opens one), an offset and a length add up to a
32-bit word, and `kmalloc`, if it is called, returns a new buffer. -/
def Allowed (s : State) : Event → Prop
  | .openFile f => s.offset f = none
  | .closeFile f => ∃ off, s.offset f = some off
  | .read f bytes => ∃ off, s.offset f = some off ∧ off + bytes ≤ 2 ^ 32 - 1
  | .write f buf newbuf => ∃ off, s.offset f = some off ∧ off + buf.length ≤ 2 ^ 32 - 1 ∧
    (s.capacity < off + buf.length → newbuf ≠ 0 ∧ s.heap newbuf = none)
  | .seek f _ _ => ∃ off, s.offset f = some off
  | .stat f => ∃ off, s.offset f = some off

section Buffers

variable {s : State}

theorem bytes_of_some {buf : List ℕ} (h : s.heap s.data = some buf) : s.bytes = buf := by
  rw [State.bytes, h]
  rfl

theorem Inv.buffer (h : Inv s) (hpos : 0 < s.capacity) : s.heap s.data = some s.bytes := by
  cases hbuf : s.heap s.data with
  | none =>
    have hlen := h.length
    rw [State.bytes, hbuf] at hlen
    exact absurd hlen hpos.ne
  | some buf => rw [bytes_of_some hbuf]

theorem Inv.load (h : Inv s) {off n : ℕ} (hle : off + n ≤ s.capacity) :
    s.heap.load s.data off n = some ((s.bytes.drop off).take n) := by
  by_cases hn : n = 0
  · rw [Heap.load, if_pos hn, hn, take_zero]
  · rw [Heap.load, if_neg hn, h.buffer (by omega)]
    exact if_pos (h.length.symm ▸ hle)

theorem Inv.store (h : Inv s) {off : ℕ} {src : List ℕ} (hle : off + src.length ≤ s.capacity) :
    ∃ heap, s.heap.store s.data off src = some heap ∧ Inv { s with heap := heap } ∧
      ({ s with heap := heap } : State).bytes =
        s.bytes.take off ++ src ++ s.bytes.drop (off + src.length) := by
  by_cases hsrc : src = []
  · refine ⟨s.heap, if_pos hsrc, h, ?_⟩
    show s.bytes = _
    rw [hsrc, append_nil, length_nil, Nat.add_zero, take_append_drop]
  · have hlen : 0 < src.length := length_pos_of_ne_nil hsrc
    have hbuf := h.buffer (by omega)
    have hdata : s.data ≠ 0 := by
      intro h0
      rw [h0, h.null] at hbuf
      cases hbuf
    refine ⟨update s.heap s.data
      (some (s.bytes.take off ++ src ++ s.bytes.drop (off + src.length))), ?_, ?_, ?_⟩
    · rw [Heap.store, if_neg hsrc, hbuf]
      exact if_pos (h.length.symm ▸ hle)
    · refine ⟨?_, fun _ => ⟨_, update_self ..⟩, ?_, h.word⟩
      · show update s.heap s.data _ 0 = none
        rw [update_of_ne hdata.symm]
        exact h.null
      · show (Option.getD (update s.heap s.data _ s.data) []).length = s.capacity
        rw [update_self]
        have := h.length
        simp only [Option.getD_some, length_append, length_take, length_drop]
        omega
    · show Option.getD (update s.heap s.data _ s.data) [] = _
      rw [update_self]
      rfl

theorem Inv.grow (h : Inv s) {newsize newbuf : ℕ} (hsize : s.capacity < newsize)
    (hword : newsize < 2 ^ 32) (hnew : newbuf ≠ 0) (hfree : s.heap newbuf = none) :
    ∃ s', grow s newsize newbuf = some s' ∧ Inv s' ∧ s'.capacity = newsize ∧
      s'.bytes = pad s.bytes newsize ∧ s'.id = s.id ∧ s'.mode = s.mode ∧ s'.offset = s.offset := by
  have hlen := h.length
  -- the old buffer is another one, if there is one
  have hother : ∀ buf, s.heap s.data = some buf → s.data ≠ newbuf := by
    intro buf hbuf heq
    rw [heq, hfree] at hbuf
    cases hbuf
  have hload : (s.heap.kmalloc newbuf newsize).load s.data 0 s.capacity = some s.bytes := by
    by_cases h0 : s.capacity = 0
    · rw [Heap.load, if_pos h0, length_eq_zero_iff.mp (hlen.trans h0)]
    · have hbuf := h.buffer (Nat.pos_of_ne_zero h0)
      rw [Heap.load, if_neg h0, Heap.kmalloc, update_of_ne (hother _ hbuf), hbuf]
      show (if 0 + s.capacity ≤ s.bytes.length then _ else _) = _
      rw [if_pos (by omega), drop_zero, ← hlen, take_length]
  obtain ⟨heap, hstore, hval, hrest⟩ : ∃ heap,
      (s.heap.kmalloc newbuf newsize).store newbuf 0 s.bytes = some heap ∧
      heap newbuf = some (pad s.bytes newsize) ∧ ∀ a, a ≠ newbuf → heap a = s.heap a := by
    by_cases hnil : s.bytes = []
    · refine ⟨_, if_pos hnil, ?_, fun a ha => update_of_ne ha ..⟩
      rw [Heap.kmalloc, update_self, hnil]
      rfl
    · refine ⟨update (s.heap.kmalloc newbuf newsize) newbuf (some (pad s.bytes newsize)),
        ?_, update_self .., ?_⟩
      · rw [Heap.store, if_neg hnil, Heap.kmalloc, update_self]
        show (if 0 + s.bytes.length ≤ (List.replicate newsize 0).length then _ else _) = _
        rw [length_replicate, if_pos (by omega), take_zero, nil_append, Nat.zero_add,
          drop_replicate]
        rfl
      · intro a ha
        rw [update_of_ne ha, Heap.kmalloc, update_of_ne ha]
  have hkeep : heap.kfree s.data newbuf = some (pad s.bytes newsize) := by
    by_cases h0 : s.data = 0
    · rw [Heap.kfree, if_pos h0, hval]
    · obtain ⟨buf, hbuf⟩ := h.live h0
      rw [Heap.kfree, if_neg h0, update_of_ne (hother buf hbuf).symm, hval]
  have hnull : heap.kfree s.data 0 = none := by
    by_cases h0 : s.data = 0
    · rw [Heap.kfree, if_pos h0, hrest 0 hnew.symm, h.null]
    · rw [Heap.kfree, if_neg h0, update_of_ne (Ne.symm h0), hrest 0 hnew.symm, h.null]
  refine ⟨{ s with heap := heap.kfree s.data, data := newbuf, capacity := newsize },
    ?_, ?_, rfl, ?_, rfl, rfl, rfl⟩
  · rw [Memfs.grow, hload]
    show ((s.heap.kmalloc newbuf newsize).store newbuf 0 s.bytes).bind _ = _
    rw [hstore]
    rfl
  · refine ⟨hnull, fun _ => ⟨_, hkeep⟩, ?_, hword⟩
    show (Option.getD (heap.kfree s.data newbuf) []).length = newsize
    rw [hkeep]
    simp only [pad, Option.getD_some, length_append, length_replicate]
    omega
  · show Option.getD (heap.kfree s.data newbuf) [] = _
    rw [hkeep]
    rfl

end Buffers

/-! ### Calls -/

section Calls

variable {s : State} {f off : ℕ}

theorem Inv.setOffset (h : Inv s) (f off : ℕ) : Inv (s.setOffset f off) :=
  ⟨h.null, h.live, h.length, h.word⟩

theorem contents_step {e : Event} (hoff : s.offset e.file = some off) :
    s.contents.step e = s.contents.call off e := by
  show s.contents.call ((s.offset e.file).getD 0) e = _
  rw [hoff]
  rfl

theorem read_refines (h : Inv s) {bytes : ℕ} (hoff : s.offset f = some off)
    (hsum : off + bytes ≤ 2 ^ 32 - 1) :
    ∃ s' r, memfsRead s f bytes = some (s', r) ∧ Inv s' ∧
      s.contents.call off (.read f bytes) = (s'.contents, r) := by
  have hlen := h.length
  have hword := h.word
  by_cases hend : s.capacity ≤ off
  · -- nothing is left to read, and the offset stays what it is
    refine ⟨s, .read 0 [], ?_, h, ?_⟩
    · rw [memfsRead, hoff]
      exact if_pos hend
    · have hnil : (s.contents.bytes.drop off).take bytes = [] := by
        rw [drop_eq_nil_of_le (show s.contents.bytes.length ≤ off from hlen.le.trans hend),
          take_nil]
      have hsame : s.contents.setOffset f off = s.contents := by
        show (⟨s.bytes, s.id, s.mode, update s.offset f (some off)⟩ : Contents) = _
        rw [← hoff, update_eq_self]
        rfl
      rw [Contents.call, hnil]
      show (s.contents.setOffset f off, _) = _
      rw [hsame]
      rfl
  · have hremain : sub32 s.capacity off = s.capacity - off := sub32_eq hword (by omega)
    obtain ⟨n, hn⟩ : ∃ n, (if bytes ≤ s.capacity - off then bytes else s.capacity - off) = n :=
      ⟨_, rfl⟩
    have hle : n ≤ bytes ∧ off + n ≤ s.capacity := by
      rw [← hn]
      split <;> omega
    have hslice : (s.bytes.drop off).take bytes = (s.bytes.drop off).take n := by
      rw [← hn]
      split
      · rfl
      · rw [take_of_length_le, take_of_length_le] <;>
          rw [length_drop] <;> omega
    have hcount : ((s.bytes.drop off).take n).length = n := by
      rw [length_take, length_drop]
      omega
    refine ⟨s.setOffset f (off + n), .read (toSsize n) ((s.bytes.drop off).take n), ?_,
      h.setOffset .., ?_⟩
    · rw [memfsRead, hoff]
      show (if s.capacity ≤ off then _ else _) = _
      rw [if_neg hend, hremain, hn, h.load hle.2]
      show some (s.setOffset f (add32 off n), _) = _
      rw [add32_eq (by omega)]
    · show (s.contents.setOffset f (off + ((s.bytes.drop off).take bytes).length),
        Reply.read (toSsize ((s.bytes.drop off).take bytes).length) ((s.bytes.drop off).take bytes))
          = _
      rw [hslice, hcount]
      rfl

theorem writeInPlace_refines (h : Inv s) {buf : List ℕ} (hle : off + buf.length ≤ s.capacity) :
    ∃ s', writeInPlace s f off buf = some (s', .written (toSsize buf.length)) ∧ Inv s' ∧
      s'.contents = { s.contents with
        bytes := s.bytes.take off ++ buf ++ s.bytes.drop (off + buf.length)
        offset := update s.offset f (some (off + buf.length)) } := by
  obtain ⟨heap, hstore, hinv, hbytes⟩ := h.store hle
  have hword := h.word
  refine ⟨{ s with heap := heap }.setOffset f (off + buf.length), ?_, hinv.setOffset .., ?_⟩
  · rw [writeInPlace, hstore, ← add32_eq (show off + buf.length < 2 ^ 32 by omega)]
    rfl
  · rw [← hbytes]
    rfl

theorem overwrite_inside {l w : List ℕ} (h : off ≤ l.length) :
    overwrite l off w = l.take off ++ w ++ l.drop (off + w.length) := by
  rw [overwrite, pad, take_append_of_le_length h]

theorem overwrite_pad {l w : List ℕ} (h : l.length < off + w.length) :
    overwrite (pad l (off + w.length)) off w = overwrite l off w := by
  have hlen : (pad l (off + w.length)).length = off + w.length := by
    rw [pad, length_append, length_replicate]
    omega
  have htake : (pad l (off + w.length)).take off = (pad l off).take off := by
    by_cases hle : off ≤ l.length
    · rw [pad, pad, take_append_of_le_length hle, take_append_of_le_length hle]
    · rw [pad, pad, take_append, take_append, take_replicate, take_replicate]
      congr 2
      omega
  rw [overwrite_inside (by omega), htake, overwrite, drop_eq_nil_of_le hlen.le,
    drop_eq_nil_of_le h.le]

theorem write_refines (h : Inv s) {buf : List ℕ} {newbuf : ℕ} (hoff : s.offset f = some off)
    (hsum : off + buf.length ≤ 2 ^ 32 - 1)
    (hnew : s.capacity < off + buf.length → newbuf ≠ 0 ∧ s.heap newbuf = none) :
    ∃ s' r, memfsWrite s f buf newbuf = some (s', r) ∧ Inv s' ∧
      s.contents.call off (.write f buf newbuf) = (s'.contents, r) := by
  have hlen := h.length
  have hstop : add32 off buf.length = off + buf.length := add32_eq (by omega)
  by_cases hlt : s.capacity < off + buf.length
  · -- the file grows first, up to the end of what is written
    obtain ⟨hne, hfree⟩ := hnew hlt
    obtain ⟨s1, hgrow, hinv, hcap, hbytes, hid, hmode, hoffset⟩ := h.grow hlt (by omega) hne hfree
    obtain ⟨s', hwrite, hinv', hcontents⟩ :=
      writeInPlace_refines hinv (show off + buf.length ≤ s1.capacity by omega)
    refine ⟨s', .written (toSsize buf.length), ?_, hinv', ?_⟩
    · rw [memfsWrite, hoff]
      show (if s.capacity < add32 off buf.length then _ else _) = _
      rw [hstop, if_pos hlt, if_neg hne, hgrow]
      exact hwrite
    · have hover : overwrite s.bytes off buf =
          s1.bytes.take off ++ buf ++ s1.bytes.drop (off + buf.length) := by
        rw [← overwrite_pad (by omega), ← hbytes, overwrite_inside]
        rw [hinv.length]
        omega
      rw [Contents.call, hcontents]
      show ((⟨overwrite s.bytes off buf, s.id, s.mode, _⟩ : Contents), _) = _
      rw [hover, ← hid, ← hmode]
      show (_, _) = ((⟨_, s1.id, s1.mode, update s1.offset f _⟩ : Contents), _)
      rw [hoffset]
      rfl
  · obtain ⟨s', hwrite, hinv', hcontents⟩ :=
      writeInPlace_refines h (show off + buf.length ≤ s.capacity by omega)
    refine ⟨s', .written (toSsize buf.length), ?_, hinv', ?_⟩
    · rw [memfsWrite, hoff]
      show (if s.capacity < add32 off buf.length then _ else _) = _
      rw [hstop, if_neg hlt]
      exact hwrite
    · rw [Contents.call, hcontents]
      show ((⟨overwrite s.bytes off buf, s.id, s.mode, _⟩ : Contents), _) = _
      rw [overwrite_inside (by omega)]
      rfl

/-- **What one open file writes, another one at the same offset reads.** -/
theorem read_after_write (h : Inv s) {g newbuf : ℕ} {buf : List ℕ} (hne : g ≠ f)
    (hok : Allowed s (.write f buf newbuf)) (hg : s.offset g = s.offset f) :
    ∃ s1 s2, memfsWrite s f buf newbuf = some (s1, .written (toSsize buf.length)) ∧
      memfsRead s1 g buf.length = some (s2, .read (toSsize buf.length) buf) := by
  obtain ⟨off, hf, hsum, hnew⟩ := hok
  obtain ⟨s1, _, hwrite, hinv, hcall⟩ := write_refines h hf hsum hnew
  obtain ⟨hc, rfl⟩ := Prod.mk.inj hcall
  have hoff : s1.offset g = some off := by
    rw [← hf, ← hg]
    exact (congrArg (·.offset g) hc).symm.trans (update_of_ne hne ..)
  obtain ⟨s2, _, hread, -, hcall⟩ := read_refines hinv hoff hsum
  have hlen : ((pad s.bytes off).take off).length = off := by simp [pad, le_add_tsub]
  have hslice : (s1.contents.bytes.drop off).take buf.length = buf := by
    rw [← hc]
    show ((overwrite s.bytes off buf).drop off).take buf.length = buf
    rw [overwrite, append_assoc, drop_left' hlen, take_left]
  rw [Contents.call, hslice] at hcall
  obtain ⟨-, rfl⟩ := Prod.mk.inj hcall
  exact ⟨s1, s2, hwrite, hread⟩

theorem step_refines (h : Inv s) {e : Event} (hok : Allowed s e) :
    ∃ s' r, s.step e = some (s', r) ∧ Inv s' ∧ s.contents.step e = (s'.contents, r) := by
  have hlen := h.length
  cases e with
  | openFile f => exact ⟨_, _, rfl, h.setOffset .., rfl⟩
  | closeFile f => exact ⟨_, _, rfl, ⟨h.null, h.live, h.length, h.word⟩, rfl⟩
  | read f bytes =>
    obtain ⟨off, hoff, hsum⟩ := hok
    rw [contents_step hoff]
    exact read_refines h hoff hsum
  | write f buf newbuf =>
    obtain ⟨off, hoff, hsum, hnew⟩ := hok
    rw [contents_step hoff]
    exact write_refines h hoff hsum hnew
  | seek f offset mode =>
    obtain ⟨off, hoff⟩ := hok
    have hseek : s.contents.seek off offset mode = sought s.capacity off offset mode := by
      rw [← hlen]
      rcases mode with _ | _ | _ | _ <;> rfl
    refine ⟨_, .sought (sought s.capacity off offset mode), ?_,
      h.setOffset f (sought s.capacity off offset mode), ?_⟩
    · show memfsSeek s f offset mode = _
      rw [memfsSeek, hoff]
      rfl
    · rw [contents_step hoff, Contents.call, hseek]
      rfl
  | stat f =>
    obtain ⟨off, hoff⟩ := hok
    refine ⟨s, .stat ⟨s.capacity, 512, off, s.id, s.mode, 0, 1000, 1000⟩, ?_, h, ?_⟩
    · show memfsStat s f = _
      rw [memfsStat, hoff]
      rfl
    · rw [contents_step hoff, Contents.call, ← hlen]
      rfl

end Calls

/-! ### Sequences of calls -/

/-- Every call of the sequence is allowed when it is made. -/
def AllAllowed (s : State) : List Event → Prop
  | [] => True
  | e :: es => Allowed s e ∧ ∀ s' r, s.step e = some (s', r) → AllAllowed s' es

/-- **Files of memfs are lists of bytes.**  Any sequence of allowed calls on any number of open
files returns what it would on a list of bytes that the open files share. -/
theorem memfs_refines {s : State} (h : Inv s) {es : List Event} (hok : AllAllowed s es) :
    ∃ s' rs, s.run es = some (s', rs) ∧ Inv s' ∧ s.contents.run es = (s'.contents, rs) := by
  induction es generalizing s with
  | nil => exact ⟨s, [], rfl, h, rfl⟩
  | cons e es ih =>
    obtain ⟨s1, r, hstep, hinv, hcontents⟩ := step_refines h hok.1
    obtain ⟨s', rs, hrun, hinv', hrest⟩ := ih hinv (hok.2 s1 r hstep)
    refine ⟨s', r :: rs, ?_, hinv', ?_⟩
    · rw [State.run, hstep]
      show (s1.run es).bind _ = _
      rw [hrun]
      rfl
    · rw [Contents.run, hcontents]
      show ((s1.contents.run es).1, r :: (s1.contents.run es).2) = _
      rw [hrest]

/-- A file that has just been created, with one open file. -/
def fresh : State := ⟨fun _ => none, 0, 0, 1, 0o755, update (fun _ => none) 0 (some 0)⟩

theorem fresh_inv : Inv fresh := ⟨rfl, fun h => absurd rfl h, rfl, by decide⟩

theorem read_after_write_fresh : ∃ s1 s2,
    memfsWrite (fresh.setOffset 1 0) 0 [7, 8] 4096 = some (s1, .written 2) ∧
      memfsRead s1 1 2 = some (s2, .read 2 [7, 8]) :=
  read_after_write (fresh_inv.setOffset 1 0) (by decide)
    ⟨0, rfl, by decide, fun _ => ⟨by decide, rfl⟩⟩ rfl

theorem allAllowed_cons {s s' : State} {e : Event} {r : Reply} {es : List Event}
    (hok : Allowed s e) (hstep : s.step e = some (s', r)) (h : AllAllowed s' es) :
    AllAllowed s (e :: es) := by
  refine ⟨hok, ?_⟩
  intro t q ht
  rw [hstep, Option.some_inj, Prod.mk.injEq] at ht
  obtain ⟨rfl, -⟩ := ht
  exact h

/-- Two open files: what is written through one behind a gap is read through the
other. -/
theorem gap_read_through_other :
    (fresh.run [.openFile 1, .seek 0 2 0, .write 0 [7, 8] 4096, .read 1 9]).map Prod.snd =
        some [.opened, .sought 2, .written 2, .read 4 [0, 0, 7, 8]] ∧
      ∃ s' rs, fresh.run [.openFile 1, .seek 0 2 0, .write 0 [7, 8] 4096, .read 1 9] =
        some (s', rs) ∧ Inv s' ∧
        fresh.contents.run [.openFile 1, .seek 0 2 0, .write 0 [7, 8] 4096, .read 1 9] =
          (s'.contents, rs) := by
  refine ⟨by decide +kernel, memfs_refines fresh_inv ?_⟩
  refine allAllowed_cons rfl rfl ?_
  refine allAllowed_cons ⟨0, rfl⟩ rfl ?_
  -- the write takes a new buffer; only the offset it leaves to the other file matters
  obtain ⟨s1, r, hwrite, -, hcontents⟩ : ∃ s' r,
      memfsWrite ((fresh.setOffset 1 0).setOffset 0 2) 0 [7, 8] 4096 = some (s', r) ∧ Inv s' ∧
        ((fresh.setOffset 1 0).setOffset 0 2).contents.call 2 (.write 0 [7, 8] 4096) =
          (s'.contents, r) :=
    write_refines ((fresh_inv.setOffset 1 0).setOffset 0 2) rfl (by decide)
      fun _ => ⟨by decide, rfl⟩
  refine allAllowed_cons ⟨2, rfl, by decide, fun _ => ⟨by decide, rfl⟩⟩ hwrite ?_
  refine ⟨⟨0, ?_, by decide⟩, fun _ _ _ => trivial⟩
  have hother := congrArg (fun c => c.1.offset 1) hcontents
  exact hother.symm

end Memfs
