import Djstub.Dpmi
import Djstub.Environ
import Djstub.Program

/-! `fullstub` of `stub.c` from its start up to the jump into the program, with the
low memory functions of `util.c`, as they are built without GCC. -/

namespace Djstub

open Bytes Loop Stores

/-! ## The surroundings -/

/-- What `main` and the C library provide: the arguments, `__dpmi_psp`, the selector
in `ds`, `esp`, the address of `stubinfo` and `open`. A null pointer in `argv` or
`envp` is `none`. -/
structure Process where
  argc : Nat
  argv0 : Bytes
  env : Bytes
  envp : Option (List Slot)
  psp : Nat
  ds : Nat
  esp : Nat
  stubinfo : Nat
  openFile : Bytes → Option (Nat × Bytes)

/-- The string at `p`. -/
def cstring (mem : Bytes) (p : Nat) : Bytes := (mem.drop p).takeWhile (· ≠ 0)

/-- `"ELFEXEC="` -/
def elfexecName : Bytes := [0x45, 0x4c, 0x46, 0x45, 0x58, 0x45, 0x43, 0x3d]

/-- The first loop over `envp`: the file that is named there. `none` where it would
read something else than a pointer. -/
def elfexecLoop (env : Bytes) : List Slot → Option (Option Bytes)
  | .ptr p :: envp =>
    if (cstring env p).take 8 = elfexecName then some (some ((cstring env p).drop 8))
    else elfexecLoop env envp
  | .null :: _ => some none
  | _ => none

def Process.elfexec (p : Process) : Option (Option Bytes) :=
  match p.envp with
  | none => some none
  | some envp => elfexecLoop p.env envp

/-- `_basename`: what follows the last backslash. -/
def basename (name : Bytes) : Bytes := (name.reverse.takeWhile (· ≠ 0x5c)).reverse

/-! ## stubinfo.h -/

/-- `_GO32_StubInfo`. The fields from `uentry` on are never set. -/
structure Go32StubInfo extends StubInfo where
  magic : Bytes
  size : Nat
  minstack : Nat
  memoryHandle : Nat
  initialSize : Nat
  minkeep : Nat
  dsSelector : Nat
  dsSegment : Nat
  pspSelector : Nat
  csSelector : Nat
  envSize : Nat
  argv0 : Bytes
  dpmiServer : Bytes
  selfFd : Nat
  memBase : Nat
  deriving DecidableEq, Repr

/-- `STUBINFO_END` -/
def sizeofStubInfo : Nat := 0xa4

/-- `"dj32ldr (C) stsp"` -/
def stubMagic : Bytes :=
  [0x64, 0x6a, 0x33, 0x32, 0x6c, 0x64, 0x72, 0x20, 0x28, 0x43, 0x29, 0x20, 0x73, 0x74, 0x73, 0x70]

/-- `"CWSDPMI.EXE"` -/
def cwsdpmi : Bytes := [0x43, 0x57, 0x53, 0x44, 0x50, 0x4d, 0x49, 0x2e, 0x45, 0x58, 0x45]

def zeros16 : Bytes := List.replicate 16 0

/-- `stubinfo.argv0` -/
def argv0Field (name : Bytes) : Bytes := patch (strncpy zeros16 (basename name) 16) 15 [0]

/-! ## util.c -/

section
variable {σ : Type} (h : Host σ) (p : Process)

def Process.pspSegment : Nat := p.psp >>> 4 % 2 ^ 16

def getLowPool : Nat := (p.psp >>> 4 + 0x10) % 2 ^ 16

/-- Its assertion keeps the program from freeing its own stack. -/
def shrinkLow (para : Nat) : Calls σ Unit := do
  exitIf (¬ p.esp > 0x110000)
  let r ← Calls.of (h.int21 { eax := 0x4a00, ebx := 0x10 + para, es := p.pspSegment })
  exitIf r.carry

def freeLow (seg : Nat) : Calls σ Unit := do
  let r ← Calls.of (h.int21 { eax := 0x4900, es := seg })
  exitIf r.carry

/-- `memmove` in low memory. -/
structure Move where
  dst : Nat
  src : Nat
  len : Nat
  deriving DecidableEq, Repr

/-- The selector of the PSP, or `none` for -1; and what has been moved. -/
def dpmiInit (para : Nat) : Calls σ (Option (Nat × Option Move)) := do
  let r ← Calls.of (h.int2f { eax := 0x1687, ebx := 0x1000, carry := true })
  if r.carry then pure none
  else
    exitIf (r.ebx &&& 1 = 0)
    exitIf (r.ebx &&& 0x1402 ≠ 0x402 ∧ (r.eax ≠ 0 ∨ r.esi ≠ 0))
    shrinkLow h p ((para + r.esi) % 2 ^ 16)
    let newseg := getLowPool p + para
    let move : Option Move :=
      if r.esi ≠ 0 then
        some { dst := newseg <<< 4 % 2 ^ 32, src := r.eax <<< 4 % 2 ^ 32, len := r.esi <<< 4 % 2 ^ 32 }
      else none
    let f ← Calls.of (h.enter r.es r.edi (1 ||| if r.esi ≠ 0 then 0x1000 else 0) newseg)
    exitIf f.carry
    callIf (r.esi ≠ 0) (freeLow h (r.eax % 2 ^ 16))
    pure (some (f.es % 2 ^ 16, move))

/-! ## stub.c -/

/-- `alloc_psp` -/
def allocPsp : Calls σ Nat := do
  let sel ← dpmiSegmentToDescriptor h (p.psp >>> 4)
  let _ ← dpmiSetSegmentLimit h (sel % 2 ^ 16) 0xff
  pure (sel % 2 ^ 16)

def minkeep : Nat := 0x4000

/-- `ds_selector` and `cs_selector` -/
def lowSelectors : Calls σ (Nat × Nat) := do
  let ds ← dpmiSegmentToDescriptor h (getLowPool p)
  let _ ← dpmiSetSegmentLimit h (ds % 2 ^ 16) (minkeep - 1)
  let cs ← dpmiCreateAliasDescriptor h (ds % 2 ^ 16)
  let _ ← dpmiSetDescriptorAccessRights h (cs % 2 ^ 16) 0xfb
  pure (ds % 2 ^ 16, cs % 2 ^ 16)

/-- Base, access rights and limit of a selector of the client. -/
def flatSelector (sel base rights : Nat) : Calls σ Unit := do
  let _ ← dpmiSetSegmentBaseAddress h sel base
  let _ ← dpmiSetDescriptorAccessRights h sel rights
  let _ ← dpmiSetSegmentLimit h sel (2 ^ 32 - 1)

/-- `stubinfo_fs` -/
def infoSelector : Calls σ Nat := do
  let fs ← dpmiCreateAliasDescriptor h p.ds
  let base ← dpmiGetSegmentBaseAddress h (fs % 2 ^ 16)
  let _ ← dpmiSetSegmentBaseAddress h (fs % 2 ^ 16) ((base.2 + p.stubinfo) % 2 ^ 32)
  let _ ← dpmiSetSegmentLimit h (fs % 2 ^ 16) (sizeofStubInfo - 1)
  pure (fs % 2 ^ 16)

/-- What is made for the client before anything is loaded. -/
structure Client where
  low : Nat × Nat
  entry : Nat
  ds : Nat
  memLin : Nat
  memoryHandle : Nat
  fs : Nat
  deriving DecidableEq, Repr

def makeClient (va vaSize : Nat) : Calls σ Client := do
  let low ← lowSelectors h p
  let entry ← dpmiAllocateLdtDescriptors h 1
  let ds ← dpmiAllocateLdtDescriptors h 1
  let mem ← dpmiAllocateMemory h (allocSize vaSize)
  exitIf (mem.1 = 2 ^ 32 - 1)
  flatSelector h (entry % 2 ^ 16) (memBase mem.2.1 va) 0xc0fb
  flatSelector h (ds % 2 ^ 16) (memBase mem.2.1 va) 0xc0f3
  let fs ← infoSelector h p
  pure { low, entry := entry % 2 ^ 16, ds := ds % 2 ^ 16, memLin := mem.2.1
         memoryHandle := mem.2.2, fs }

/-- What `farmemcpy` and `farmemset` ask the host for at every store: where the segment
starts. The store itself goes through a near pointer. -/
def farStore (sel : Nat) (st : Store) : Calls σ Store := do
  let base ← dpmiGetSegmentBaseAddress h sel
  exitIf (base.1 = 2 ^ 32 - 1)
  pure (st.shift 32 base.2)

/-- Low memory is given back and `psp_sel` is set. -/
def nukeLow : Calls σ (Nat × Option Move) := do
  let r ← dpmiInit h p (minkeep >>> 4)
  match r with
  | some r => pure r
  | none =>
    shrinkLow h p (minkeep >>> 4)
    let sel ← allocPsp h p
    pure (sel, none)

/-- The state in which the program is entered: its registers, `stubinfo`, what has
been stored and moved through near pointers of the stub, and where the file stands. -/
structure Jump where
  cs : Nat
  eip : Nat
  ds : Nat
  es : Nat
  fs : Nat
  info : Go32StubInfo
  stores : List Store
  moved : Option Move
  filePos : Nat

/-- The header walk; with `ELFEXEC` there is none. -/
def findPayload (fuel : Nat) (f : Bytes) : Option Bytes → Option (LdOps × StubWalk)
  | some _ => some (.elf, { StubWalk.init with flags := 1 <<< 16 })
  | none => (run (stubStep f) fuel StubWalk.init).join

def goInfo (i : StubInfo) (handle : Handle) (c : Client) (envSize fd psp : Nat) : Go32StubInfo :=
  { i with
    magic := stubMagic
    size := sizeofStubInfo
    minstack := 0x80000
    memoryHandle := c.memoryHandle
    initialSize := max handle.getLength 0x10000
    minkeep
    dsSelector := c.low.1
    dsSegment := getLowPool p
    pspSelector := psp
    csSelector := c.low.2
    envSize
    argv0 := argv0Field (cstring p.argv0 0)
    dpmiServer := strncpy zeros16 cwsdpmi 16
    selfFd := fd
    memBase := memBase c.memLin handle.getVa }

/-- From the payload on. -/
def startPayload (tmp : Page) (fd : Nat) (f : Bytes) (ops : LdOps) (w : StubWalk) : Calls σ Jump :=
  match ops.readHeaders f w.pos, envSize p.env p.envp (some p.argv0) with
  | .ok (handle, pos), some envSize => do
    let c ← makeClient h p handle.getVa handle.getLength
    match handle.readSections (fileOps f) (rounds f) tmp w.coffset ⟨pos, []⟩ with
    | some (.next l) =>
      let stores ← l.stores.mapM (farStore h c.ds)
      let low ← nukeLow h p
      pure {
        cs := c.entry
        eip := handle.getEntry
        ds := c.ds
        es := p.ds
        fs := c.fs
        info := goInfo p w.publish handle c envSize fd low.1
        stores
        moved := low.2
        filePos := lseek l.file w.noffset }
    | _ => failure
  | _, _ => failure

/-- `fullstub`. It fails where the program exits, or when `fuel` iterations do not
finish the header walk. -/
def fullstub (fuel : Nat) (tmp : Page) : Calls σ Jump :=
  if p.argc = 0 then failure
  else
    match p.elfexec with
    | none => failure
    | some exec =>
      match p.openFile (exec.getD (cstring p.argv0 0)) with
      | none => failure
      | some (fd, f) =>
        match findPayload fuel f exec with
        | none => failure
        | some (ops, w) => startPayload h p tmp fd f ops w

end

end Djstub
