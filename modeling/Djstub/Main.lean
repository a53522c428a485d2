import Djstub.Buffers
import Djstub.Coff2exe

/-! `main` of `djstubify2.py` on a disk: the options, the template check, the
generator behind `-g`, and `coff2exe` with its two ways of placing the output.
A path stands for the file it names. Opening a file for writing truncates it, and
from then on it shows what the buffers have let through. -/

namespace Djstub

open Bytes Layout Loop Buffers

/-! ## Files -/

structure Disk (π : Type) where
  files : π → Option Bytes
  /-- `open(p, "wb")` succeeds. -/
  writable : π → Bool
  /-- `shutil.move` onto `p` succeeds. -/
  movable : π → Bool
  /-- The name `mkstemp` comes up with. -/
  temp : π
  /-- How the files that are open are buffered. -/
  buffers : Buffering := .ofSize 8192

section
variable {π : Type} [DecidableEq π]

/-- Replace what stands at `p`; `none` removes it. -/
def Disk.set (d : Disk π) (p : π) (c : Option Bytes) : Disk π :=
  { d with files := fun q => if q = p then c else d.files q }

@[simp] theorem Disk.set_files_self (d : Disk π) (p : π) (c : Option Bytes) :
    (d.set p c).files p = c := if_pos rfl

/-- The same disk under other buffers. -/
def Disk.buffered (d : Disk π) (b : Buffering) : Disk π := { d with buffers := b }

theorem Disk.set_files_of_ne (d : Disk π) {p q : π} (c : Option Bytes) (h : q ≠ p) :
    (d.set p c).files q = d.files q := if_neg h

@[simp] theorem Disk.set_temp (d : Disk π) (p : π) (c : Option Bytes) :
    (d.set p c).temp = d.temp := rfl

end

/-- How the program ends: `main` returns, `sys.exit`, or an exception. -/
inductive Exit where
  | ret (code : Int)
  | exit (code : Nat)
  | raise
  deriving DecidableEq, Repr

/-! ## Options -/

/-- The options of `getopt`; for numbers `none` is a text that `int` refuses, for
`-o` the empty text. -/
inductive Opt (π : Type) where
  | v | d | i | r | s | g | h
  | V (optarg : Option Int)
  | l (optarg : π)
  | t (optarg : Option Int)
  | n (optarg : Option Int)
  | f (optarg : Option Int)
  | o (optarg : Option π)
  | S (optarg : π)
  deriving DecidableEq, Repr

/-- The globals and the locals of `main`; `noverlay` is the length of `overlay`. -/
structure Globals (π : Type) where
  info : Bool
  rmstub : Bool
  strip : Bool
  generate : Bool
  overlay : List π
  stubVer : Nat
  start : Option Bytes
  oname : Option π
  nmoffs : Int
  stubFlags : Int
  typeMap : Int
  typeVal : Int
  typeShift : Nat
  reqVer : Int
  deriving DecidableEq, Repr

def Globals.init {π : Type} : Globals π :=
  { info := false, rmstub := false, strip := false, generate := false, overlay := [], stubVer := 8,
    start := none, oname := none, nmoffs := 0, stubFlags := 0, typeMap := 0, typeVal := 0,
    typeShift := 0, reqVer := 0 }

/-- `-V` -/
def reqVersion {π : Type} (m : Globals π) (optarg : Option Int) : Except Exit (Globals π) :=
  let reqVer := optarg.getD 0
  if reqVer = 0 then .error (.exit 1)
  else if reqVer > m.stubVer then .error (.exit 1)
  else if reqVer = m.stubVer - 1 then .ok { m with reqVer, stubVer := reqVer.toNat }
  else if reqVer < m.stubVer - 1 then .error (.exit 1)
  else .ok { m with reqVer }

/-- One round of the option loop. -/
def option {π : Type} (d : Disk π) (m : Globals π) : Opt π → Except Exit (Globals π)
  | .v => .error (.exit 0)
  | .V optarg => reqVersion m optarg
  | .d => .ok m
  | .i => .ok { m with info := true }
  | .r => .ok { m with rmstub := true }
  | .s => .ok { m with strip := true }
  | .g => .ok { m with generate := true }
  | .l optarg =>
    if m.typeVal = 0 then .error (.exit 1)
    else .ok { m with overlay := m.overlay ++ [optarg], typeShift := m.typeShift + 4 }
  | .t optarg =>
    let typeVal := optarg.getD 0
    if typeVal = 0 then .error (.exit 1)
    else .ok { m with typeVal, typeMap := m.typeMap.lor (typeVal * 2 ^ m.typeShift) }
  | .n optarg =>
    match optarg with
    | none => .error .raise
    | some nmoffs => .ok { m with nmoffs }
  | .f optarg =>
    match optarg with
    | none => .error .raise
    | some flags => .ok { m with stubFlags := m.stubFlags.lor flags }
  | .o optarg => .ok { m with oname := optarg }
  | .h => .error (.exit 0)
  | .S optarg =>
    match d.files optarg with
    | none => .error (.exit 1)
    | some b => .ok { m with start := some b }

def options {π : Type} (d : Disk π) (m : Globals π) : List (Opt π) → Except Exit (Globals π)
  | [] => .ok m
  | o :: os =>
    match option d m o with
    | .error e => .error e
    | .ok m => options d m os

/-- Without `-V`, overlays make the version 7 and clear flag 0x80. -/
def downgrade {π : Type} (m : Globals π) : Globals π :=
  if m.reqVer = 0 ∧ m.stubVer ≥ 8 ∧ m.overlay ≠ [] then
    if m.stubVer = 8 then { m with stubVer := 7, stubFlags := m.stubFlags.land (-129) } else m
  else m

/-! ## `-g` -/

/-- An exception that nobody catches ends the program. -/
def raising {α : Type} : Option α → Except Exit α
  | none => .error .raise
  | some a => .ok a

/-- The size of the overlay at `p`, into slot `i`. -/
def writeSize {π : Type} (d : Disk π) (start : Bytes) (i : Nat) (p : π) : Except Exit Bytes :=
  match d.files p with
  | none => .error (.ret 1)
  | some c => raising (writeU32 start (0x1c + i * 4) c.length)

/-- The sizes of the overlays, into the slots from `i` on. -/
def writeSizes {π : Type} (d : Disk π) (start : Bytes) (i : Nat) : List π → Except Exit Bytes
  | [] => .ok start
  | p :: ps => do
    let start ← writeSize d start i p
    writeSizes d start (i + 1) ps

/-- `start[offset] = value` -/
def writeByte (buf : Bytes) (offset : Nat) (value : Nat) : Option Bytes :=
  if value < 256 ∧ offset < buf.length then some (patch buf offset [UInt8.ofNat value]) else none

/-- The writes behind the sizes, in the source's order. -/
def writeFields {π : Type} (m : Globals π) (size : Nat) (start : Bytes) : Option Bytes :=
  match writeU32 start 0x28 m.nmoffs with
  | none => none
  | some b1 =>
    match writeU16 b1 0x36 m.typeMap with
    | none => none
    | some b2 =>
      match writeU16 b2 0x38 m.stubFlags with
      | none => none
      | some b3 =>
        match writeByte b3 0x3b m.stubVer with
        | none => none
        | some b4 => writeU32 b4 0x3c size

/-- The read loop of `copy_file`. -/
def copyFile (rest : Bytes) : Bytes :=
  let rd := rest.take 4096
  if _h : rd = [] then [] else rd ++ copyFile (rest.drop 4096)
termination_by rest.length
decreasing_by
  have hne : rest ≠ [] := by
    rintro rfl
    exact _h List.take_nil
  have hr := List.length_pos_iff.mpr hne
  rw [List.length_drop]
  omega

/-- The reader of `copy_file`, and what has been written to the output so far. -/
structure Copying where
  reader : Reader
  written : Bytes

/-- One round of that loop; `raw` is in the file it reads. -/
def copyFileStep (b : Buffering) (raw : Bytes → Bytes) (s : Copying) : Step Copying Bytes :=
  let rd := b.read (raw s.written) s.written.length 4096 s.reader
  if rd.1 = [] then .stop s.written else .next ⟨rd.2, s.written ++ rd.1⟩

section
variable {π : Type} [DecidableEq π]

/-- The output with the overlays behind what has been written; `some none` when one
of them cannot be opened. An overlay that is the output itself is read back while
it is written. -/
def copyOverlays (fuel : Nat) (d : Disk π) (oname : π) : List π → Bytes → Option (Option Bytes)
  | [], written => some (some written)
  | p :: ps, written =>
    if p = oname then
      match run (copyFileStep d.buffers d.buffers.onDisk) fuel ⟨.fresh, written⟩ with
      | none => none
      | some written => copyOverlays fuel d oname ps written
    else
      match d.files p with
      | none => some none
      | some c => copyOverlays fuel d oname ps (written ++ copyFile c)

/-- `main` with `-g`, once the template has been checked. -/
def generate (fuel : Nat) (d : Disk π) (m : Globals π) (start : Bytes) : Option (Exit × Disk π) :=
  match m.oname with
  | none => some (.ret 1, d)
  | some oname =>
    match writeSizes d start 0 m.overlay with
    | .error e => some (e, d)
    | .ok sized =>
      match writeFields m start.length sized with
      | none => some (.raise, d)
      | some header =>
        if d.writable oname then
          match copyOverlays fuel d oname m.overlay header with
          | none => none
          | some none => some (.ret 1, d.set oname none)
          | some (some written) => some (.ret 0, d.set oname (some written))
        else some (.ret 1, d)

/-! ## Converting a file -/

def Failure.exit (e : Failure) : Exit := if e.message.isSome then .ret (-1) else .raise

/-- The variables of the copy loop. -/
structure Copy where
  reader : Reader
  coffFileSize : Int
  written : Bytes

/-- The stub has been written, and the input stands at the payload. -/
def Copy.enter (b : Buffering) (o : Options) (f : Bytes) (p : Prepared) : Copy where
  reader := b.reader f p.coffset
  coffFileSize := p.coffFileSize
  written := if o.rmstub then [] else p.stub

/-- One round of the copy loop; `raw` is in the input. -/
def copyChunk (b : Buffering) (raw : Bytes) (p : Prepared) (s : Copy) : Step Copy Bytes :=
  if 0 < s.coffFileSize then
    let chunkToRead := if p.rmoverlay then min 4096 s.coffFileSize.toNat else 4096
    let rd := b.read raw s.written.length chunkToRead s.reader
    if rd.1 = [] then .stop s.written
    else
      let buf :=
        if p.rmoverlay ∧ rd.1.length > s.coffFileSize then rd.1.take s.coffFileSize.toNat else rd.1
      .next
        { reader := rd.2
          coffFileSize := if p.rmoverlay then s.coffFileSize - buf.length else s.coffFileSize
          written := s.written ++ buf }
  else .stop s.written

/-- The same while the input is the output that is being written. -/
def copyBack (b : Buffering) (p : Prepared) (s : Copy) : Step Copy Bytes :=
  copyChunk b (b.onDisk s.written) p s

/-- `coff2exe` once the stub is complete. Where the output is the input, the payload
is read back while it is written. -/
def writeOutput (fuel : Nat) (d : Disk π) (o : Options) (fname : π) (oname : Option π) (f : Bytes)
    (p : Prepared) : Option (Exit × Disk π) :=
  if o.info then some (.ret 0, d)
  else
    match oname with
    | some oname =>
      if d.writable oname then
        if oname = fname then
          match run (copyBack d.buffers p) fuel (.enter d.buffers o f p) with
          | none => none
          | some written => some (.ret 0, d.set oname (some written))
        else some (.ret 0, d.set oname (some (p.outBytes o f)))
      else some (.ret (-1), d)
    | none =>
      let d := d.set d.temp (some (p.outBytes o f))
      if d.movable fname then
        some (.ret 0, (d.set fname (d.files d.temp)).set d.temp none)
      else some (.ret (-1), d)

/-- `coff2exe` on the disk. -/
def convert (fuel : Nat) (d : Disk π) (tmpl : Bytes) (stubVer : Nat) (o : Options) (fname : π)
    (oname : Option π) : Option (Exit × Disk π) :=
  match d.files fname with
  | none => some (.ret (-1), d)
  | some f =>
    match run (walkStep f o) fuel Walk.init with
    | none => none
    | some (.error e) => some (e.exit, d)
    | some (.ok w) =>
      match prepare tmpl stubVer f w with
      | .error e => some (e.exit, d)
      | .ok p => writeOutput fuel d o fname oname f p

def Globals.options (m : Globals π) : Options :=
  { info := m.info, rmstub := m.rmstub, strip := m.strip }

/-- `main`; `none` when `fuel` iterations do not finish a loop. -/
def main (fuel : Nat) (d : Disk π) (opts : List (Opt π)) (args : List π) :
    Option (Exit × Disk π) :=
  match options d Globals.init opts with
  | .error e => some (e, d)
  | .ok m =>
    match m.start with
    | none => some (.raise, d)
    | some start =>
      if stubAccepted start then
        let m := downgrade m
        if m.generate then generate fuel d m start
        else
          match args with
          | [] => some (.ret 1, d)
          | fname :: _ =>
            match convert fuel d start m.stubVer m.options fname m.oname with
            | none => none
            | some (.ret code, d) => some (.ret (if code = 0 then 0 else 1), d)
            | some (e, d) => some (e, d)
      else some (.ret 1, d)

end

end Djstub
