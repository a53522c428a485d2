import Djstub.Fullstub
import Djstub.Stores

/-! The loaders of `elf.c` and `coff.c`, with `_long_read` of `util.c` and the
allocation in `stub.c`. `int`, `long`, pointers and `size_t` are 32 bits wide. The
sections come from anything that can be read; headers from what a file has. -/

namespace Djstub

open Bytes Loop Stores

/-! ## util.c -/

/-- `char tmp[PAGE_SIZE]` -/
def Page := { b : Bytes // b.length = 4096 }

/-- The buffer after `d` has been read to its front. -/
def Page.fill (tmp : Page) (d : Bytes) : Page :=
  ⟨(d ++ tmp.1.drop d.length).take 4096, by
    have h := tmp.2
    rw [List.length_take, List.length_append, List.length_drop]
    omega⟩

theorem Page.take_even (tmp : Page) (n : Nat) :
    (tmp.1.take ((n + n % 2) % 2 ^ 32)).length % 2 = 0 := by
  have h := tmp.2
  rw [List.length_take]
  omega

/-- `farmemcpy` through the pointer of the caller; its assertion on the length is `h`. -/
def farmemcpy (offset : Nat) (src : Bytes) (h : src.length % 2 = 0) : Store := ⟨offset, src, h⟩

/-- `farmemset`, likewise. -/
def farmemset (offset : Nat) (val : UInt8) (size : Nat) (h : size % 2 = 0) : Store :=
  ⟨offset, List.replicate size val, by rw [List.length_replicate, h]⟩

theorem even_rounded (len : Nat) : (len + len % 2) % 2 ^ 32 % 2 = 0 := by omega

/-- The variables of `_long_read`, the state of the file it reads and what it has
stored. -/
structure LongRead (σ : Type) where
  file : σ
  tmp : Page
  done : Nat
  size : Nat
  stores : List Store

/-- One round of `_long_read`. `read` delivers some bytes, or fails with -1. -/
def longReadStep {σ : Type} (read : σ → Nat → Option Bytes × σ) (offset : Nat) (s : LongRead σ) :
    Step (LongRead σ) (LongRead σ) :=
  if s.size = 0 then .stop s
  else
    let todo := min s.size 4096
    let r := read s.file todo
    let tmp := r.1.elim s.tmp s.tmp.fill
    let rd := r.1.elim (2 ^ 32 - 1) List.length
    let s' : LongRead σ :=
      if rd ≠ 0 then
        { file := r.2
          tmp
          done := (s.done + rd) % 2 ^ 32
          size := (s.size + 2 ^ 32 - rd) % 2 ^ 32
          -- the length is rounded up to a word
          stores := s.stores ++ [farmemcpy ((offset + s.done) % 2 ^ 32)
            (tmp.1.take ((rd + rd % 2) % 2 ^ 32)) (tmp.take_even rd)] }
      else { s with file := r.2, tmp }
    if rd < todo then .stop s' else .next s'

/-- An open file: `lseek` with `SEEK_SET`, and `read`. -/
structure OpenFile (σ : Type) where
  lseek : σ → Nat → σ
  read : σ → Nat → Option Bytes × σ

/-- `_long_read`, for at most `fuel` rounds of its loop. -/
def longRead {σ : Type} (io : OpenFile σ) (fuel : Nat) (tmp : Page) (file : σ) (offset size : Nat)
    (stores : List Store) : Option (LongRead σ) :=
  run (longReadStep io.read offset) fuel { file, tmp, done := 0, size, stores }

/-- `read` from position `pos` of the file. -/
def fileRead (f : Bytes) (pos n : Nat) : Option Bytes × Nat :=
  (some (slice f pos n), pos + (slice f pos n).length)

/-- A file that has the bytes `f`. It delivers what there is, and does not fail. -/
def fileOps (f : Bytes) : OpenFile Nat := { lseek := Djstub.lseek, read := fileRead f }

/-- More rounds than `_long_read` has on a file: but for the last two, each of them
reads something. -/
def rounds (f : Bytes) : Nat := f.length + 2

/-! ## Headers -/

/-- What the header readers complain about before they return NULL. -/
inductive HeaderError where
  | cantReadElf
  | notElf
  | elfClass (n : Nat)
  | badElf
  | cantReadPhdr
  | alignment (n : Nat)
  | badCoff
  | optSize (n : Nat)
  | badOpt
  | sections
  deriving DecidableEq, Repr

/-- The position after `lseek(ifile, offs, SEEK_CUR)`. -/
def lseekCur (pos offs : Nat) : Nat :=
  let p := (pos : Int) + toInt32 offs
  if 0 ≤ p ∧ p < 2 ^ 31 then p.toNat else pos

/-- `Elf32_Phdr` -/
structure Phdr where
  type : Nat
  offset : Nat
  vaddr : Nat
  filesz : Nat
  memsz : Nat
  align : Nat
  deriving DecidableEq, Repr

def Phdr.parse (b : Bytes) : Phdr :=
  { type := u32 b 0, offset := u32 b 4, vaddr := u32 b 8, filesz := u32 b 16, memsz := u32 b 20
    align := u32 b 28 }

/-- `PT_LOAD` -/
def Phdr.isLoad (p : Phdr) : Prop := p.type = 1

instance (p : Phdr) : Decidable p.isLoad := inferInstanceAs (Decidable (_ = _))

/-- `struct elf_h` -/
structure ElfH where
  va : Nat
  length : Nat
  entry : Nat
  phdr : List Phdr
  deriving DecidableEq, Repr

/-- The loop over the program headers, with `beg` and `end`. -/
def elfHull : List Phdr → Nat → Nat → Except HeaderError (Nat × Nat)
  | [], first, last => .ok (first, last)
  | p :: ps, first, last =>
    if ¬ p.isLoad then elfHull ps first last
    else if p.align ≠ 4096 then .error (.alignment p.align)
    else
      elfHull ps (if p.vaddr < first ∨ first = 0 then p.vaddr else first)
        (if (p.vaddr + p.memsz) % 2 ^ 32 > last then (p.vaddr + p.memsz) % 2 ^ 32 else last)

/-- The headers, and where the file stands behind them. -/
def readElfHeaders (f : Bytes) (pos : Nat) : Except HeaderError (ElfH × Nat) :=
  let ehdr := slice f pos 0x34
  if ehdr.length ≠ 0x34 then .error .cantReadElf
  else if slice ehdr 0 4 ≠ [0x7f, 0x45, 0x4c, 0x46] then .error .notElf
  else if byteAt ehdr 4 ≠ 1 then .error (.elfClass (byteAt ehdr 4))
  else if u16 ehdr 0x28 ≠ 0x34 ∨ u16 ehdr 0x2a ≠ 0x20 then .error .badElf
  else
    let phoff := u32 ehdr 0x1c
    let phnum := u16 ehdr 0x2c
    let pos := if phoff > 0x34 then lseekCur (pos + 0x34) (phoff - 0x34) else pos + 0x34
    let tbl := slice f pos (0x20 * phnum)
    if tbl.length ≠ 0x20 * phnum then .error .cantReadPhdr
    else
      let phdr := (List.range phnum).map fun i => Phdr.parse (slice tbl (i * 0x20) 0x20)
      (elfHull phdr 0 0).map fun hull =>
        ({ va := hull.1, length := (hull.2 + 2 ^ 32 - hull.1) % 2 ^ 32, entry := u32 ehdr 0x18, phdr },
          pos + tbl.length)

/-- `struct scn_header` -/
structure Scn where
  vaddr : Nat
  size : Nat
  scnptr : Nat
  deriving DecidableEq, Repr

def Scn.parse (b : Bytes) : Scn := { vaddr := u32 b 12, size := u32 b 16, scnptr := u32 b 20 }

/-- `struct coff_h`, and the static `scns`. -/
structure CoffH where
  length : Nat
  entry : Nat
  text : Scn
  data : Scn
  bss : Scn
  deriving DecidableEq, Repr

def readCoffHeaders (f : Bytes) (pos : Nat) : Except HeaderError (CoffH × Nat) :=
  let chdr := slice f pos 20
  if chdr.length ≠ 20 then .error .badCoff
  else if u16 chdr 16 < 28 then .error (.optSize (u16 chdr 16))
  else
    let ohdr := slice f (pos + 20) 28
    if ohdr.length ≠ 28 then .error .badOpt
    else
      let pos := if u16 chdr 16 > 28 then lseekCur (pos + 48) (u16 chdr 16 - 28) else pos + 48
      let scns := slice f pos 120
      if scns.length ≠ 120 then .error .sections
      else
        let bss := Scn.parse (slice scns 80 40)
        .ok
          ({ length := (bss.vaddr + bss.size) % 2 ^ 32
             entry := u32 ohdr 16
             text := Scn.parse (slice scns 0 40)
             data := Scn.parse (slice scns 40 40)
             bss }, pos + 120)

/-- The `void *` between the functions of a loader. -/
inductive Handle where
  | coff (h : CoffH)
  | elf (h : ElfH)
  deriving DecidableEq, Repr

def LdOps.readHeaders (ops : LdOps) (f : Bytes) (pos : Nat) : Except HeaderError (Handle × Nat) :=
  match ops with
  | .coff => (readCoffHeaders f pos).map fun r => (.coff r.1, r.2)
  | .elf => (readElfHeaders f pos).map fun r => (.elf r.1, r.2)

def Handle.getVa : Handle → Nat
  | .coff _ => 0
  | .elf h => h.va

def Handle.getLength : Handle → Nat
  | .coff h => h.length
  | .elf h => h.length

def Handle.getEntry : Handle → Nat
  | .coff h => h.entry
  | .elf h => h.entry

/-! ## Sections -/

/-- The state of the file, and the stores so far. -/
structure Load (σ : Type) where
  file : σ
  stores : List Store

section
variable {σ : Type}

def Load.memset (l : Load σ) (offset size : Nat) : Load σ :=
  { l with
    stores := l.stores ++ [farmemset offset 0 ((size + size % 2) % 2 ^ 32) (even_rounded size)] }

/-- Go on, unless the program has exited. -/
def andThen (x : Option (Step (Load σ) (Load σ))) (k : Load σ → Option (Step (Load σ) (Load σ))) :
    Option (Step (Load σ) (Load σ)) :=
  match x with
  | some (.next l) => k l
  | some (.stop l) => some (.stop l)
  | none => none

variable (io : OpenFile σ) (fuel : Nat) (tmp : Page)

/-- Seek, read and compare, as in `read_section`; an incomplete read exits. -/
def readSection (coffset scnptr vaddr size : Nat) (l : Load σ) : Option (Step (Load σ) (Load σ)) :=
  (longRead io fuel tmp (io.lseek l.file ((coffset + scnptr) % 2 ^ 32)) vaddr size l.stores).map
    fun r => if r.done ≠ size then .stop ⟨r.file, r.stores⟩ else .next ⟨r.file, r.stores⟩

/-- The body of the loop in `read_elf_sections`. -/
def readPhdr (offset : Nat) (p : Phdr) (l : Load σ) : Option (Step (Load σ) (Load σ)) :=
  andThen (readSection io fuel tmp offset p.offset p.vaddr p.filesz l) fun l =>
    some (.next (if p.memsz > p.filesz then
      l.memset ((p.vaddr + p.filesz) % 2 ^ 32) (p.memsz - p.filesz) else l))

/-- `.next` when the function returns, `.stop` when it exits. -/
def readElfSections (offset : Nat) : List Phdr → Load σ → Option (Step (Load σ) (Load σ))
  | [], l => some (.next l)
  | p :: ps, l =>
    if ¬ p.isLoad then readElfSections offset ps l
    else andThen (readPhdr io fuel tmp offset p l) (readElfSections offset ps)

def readCoffSections (offset : Nat) (h : CoffH) (l : Load σ) : Option (Step (Load σ) (Load σ)) :=
  andThen (readSection io fuel tmp offset h.text.scnptr h.text.vaddr h.text.size l) fun l =>
    andThen (readSection io fuel tmp offset h.data.scnptr h.data.vaddr h.data.size l) fun l =>
      some (.next (l.memset h.bss.vaddr h.bss.size))

def Handle.readSections (offset : Nat) (l : Load σ) : Handle → Option (Step (Load σ) (Load σ))
  | .coff h => readCoffSections io fuel tmp offset h l
  | .elf h => readElfSections io fuel tmp offset h.phdr l

end

/-! ## The block -/

/-- `PAGE_ALIGN` -/
def pageAlign (addr : Nat) : Nat := (addr + 4096 - 1) % 2 ^ 32 &&& (2 ^ 32 - 4096)

/-- `alloc_size` -/
def allocSize (vaSize : Nat) : Nat := pageAlign (max vaSize 0x10000)

def memBase (memLin va : Nat) : Nat := (memLin + 2 ^ 32 - va) % 2 ^ 32

end Djstub
