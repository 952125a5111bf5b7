/-
ELF files and their loader (`lib/elf.h`, and `load_segment`, `load_32` and `elf_load` of
`exec.c`).

The loader reads the headers of a file into buffers and looks at the fields there.  What
the reads deliver, what `mmap` does and what it needs memory for is up to the rest of the
kernel.  So the functions are written over any monad that has these operations, `Ops`.

* `le16`, `le32`, `progHdr` — the fields of the headers, in a buffer;
* `loadSegment`, `loadSegments`, `loadTable`, `load32`, `elfLoad` — the functions of the source.
-/
import Minima.Exec

namespace Elf

/-! ### The headers -/

/-- What is in a buffer, by offset. -/
abbrev Buf := ℕ → UInt8

/-- A little-endian `u16` -/
def le16 (b : Buf) (i : ℕ) : ℕ := (b i).toNat + 2 ^ 8 * (b (i + 1)).toNat

/-- A little-endian `u32` -/
def le32 (b : Buf) (i : ℕ) : ℕ := le16 b i + 2 ^ 16 * le16 b (i + 2)

/-- `sizeof(struct elf_ident)` -/
def sizeofIdent : ℕ := 16

/-- `sizeof(struct elf_file32)` -/
def sizeofFile : ℕ := 52

/-- `sizeof(struct prog_hdr32)` -/
def sizeofProgHdr : ℕ := 32

/-- `sizeof(struct section_hdr32)` -/
def sizeofSectionHdr : ℕ := 40

/-- `memcmp(&ident.magic, elf_hdr, sizeof(elf_hdr))` finds no difference. -/
def magicOk (b : Buf) : Bool := b 0 = 0x7F ∧ b 1 = 0x45 ∧ b 2 = 0x4C ∧ b 3 = 0x46

/-- `ident.class` -/
def identClass (b : Buf) : ℕ := (b 4).toNat

/-- `ELF_CLASS32` -/
def elfClass32 : ℕ := 1

/-- `elf.entry` -/
def entry (b : Buf) : ℕ := le32 b 24

/-- `elf.program_header_table` -/
def programHeaderTable (b : Buf) : ℕ := le32 b 28

/-- `elf.program_header_entry_size` -/
def programHeaderEntrySize (b : Buf) : ℕ := le16 b 42

/-- `elf.n_program_headers` -/
def nProgramHeaders (b : Buf) : ℕ := le16 b 44

/-- `elf.section_header_entry_size` -/
def sectionHeaderEntrySize (b : Buf) : ℕ := le16 b 46

/-- `st_load` -/
def stLoad : ℕ := 1

/-- `struct prog_hdr32`, without the fields nobody looks at -/
structure ProgHdr where
  type : ℕ
  offset : ℕ
  virtAddr : ℕ
  segBytes : ℕ
  memBytes : ℕ
  deriving DecidableEq, Repr

/-- The program header `i` of a table. -/
def progHdr (b : Buf) (i : ℕ) : ProgHdr where
  type := le32 b (sizeofProgHdr * i)
  offset := le32 b (sizeofProgHdr * i + 4)
  virtAddr := le32 b (sizeofProgHdr * i + 8)
  segBytes := le32 b (sizeofProgHdr * i + 16)
  memBytes := le32 b (sizeofProgHdr * i + 20)

/-- The program headers of a table with `n` of them. -/
def progHdrs (b : Buf) (n : ℕ) : List ProgHdr := (List.range n).map (progHdr b)

/-- The segments that are to be loaded. -/
def loads (l : List ProgHdr) : List ProgHdr := l.filter fun ph => ph.type = stLoad

/-! ### The loader -/

/-- `ENOEXEC` -/
def enoexec : ℤ := 15

/-- What the loader needs of the kernel. -/
structure Ops (m : Type → Type) where
  /-- `vfs_read_at(file, buf, bytes, at)`: what it returns, and what is in the buffer then -/
  readAt : ℕ → ℕ → m (ℤ × Buf)
  kmalloc : ℕ → m ℕ
  kfree : ℕ → m Unit
  /-- `mmap(task, addr, len, PROT_READ|PROT_WRITE|PROT_USR, 0, file, off)` -/
  mmap : ℕ → ℕ → ℕ → m ℕ
  /-- the message about a header of another type; it has `%s` for `ph->offset` -/
  skip : ProgHdr → m Unit

section Loader

variable {m : Type → Type} [Monad m] (ops : Ops m)

/-- `load_segment` -/
def loadSegment (ph : ProgHdr) : m ℤ := do
  let ptr ← ops.mmap ph.virtAddr ph.memBytes ph.offset
  if ptr = 0 then return -Exec.enomem else return 0

/-- The loop of `load_32`, with the value of `ret` so far; `phdrs` is freed after the last
header only. -/
def loadSegments (phdrs : ℕ) : ℤ → List ProgHdr → m ℤ
  | ret, [] => do
    ops.kfree phdrs
    return ret
  | ret, ph :: l =>
    if ph.type ≠ stLoad then do
      ops.skip ph
      loadSegments phdrs ret l
    else do
      let ret ← loadSegment ops ph
      if ret ≠ 0 then return ret else loadSegments phdrs ret l

/-- `load_32` from the table of program headers on. -/
def loadTable (elf : Buf) : m (ℤ × ℕ) := do
  let n := nProgramHeaders elf
  let phdrs ← ops.kmalloc (n * sizeofProgHdr)
  let (ret, table) ← ops.readAt (n * sizeofProgHdr) (programHeaderTable elf)
  if ret < 0 then
    ops.kfree phdrs
    return (ret, entry elf)
  else
    let ret ← loadSegments ops phdrs ret (progHdrs table n)
    return (ret, entry elf)

/-- `load_32`: what it returns, and `*entry_out`. -/
def load32 (entryOut : ℕ) : m (ℤ × ℕ) := do
  let (ret, elf) ← ops.readAt sizeofFile 0
  if ret < 0 then return (ret, entryOut)
  else if sizeofProgHdr ≠ programHeaderEntrySize elf then return (1, entry elf)
  else if sizeofSectionHdr ≠ sectionHeaderEntrySize elf then return (1, entry elf)
  else loadTable ops elf

/-- `elf_load`: what it returns, and `*entry_out`. -/
def elfLoad (entryOut : ℕ) : m (ℤ × ℕ) := do
  let (ret, ident) ← ops.readAt sizeofIdent 0
  if ret < 0 then return (ret, entryOut)
  else if magicOk ident = false then return (1, entryOut)
  else if identClass ident = elfClass32 then load32 ops entryOut
  else return (-enoexec, entryOut)

end Loader

end Elf
