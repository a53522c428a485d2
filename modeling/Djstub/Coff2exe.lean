import Djstub.Header
import Djstub.Loop

/-! `coff2exe` of `djstubify2.py`: the header walk, the new stub header and the
copy loop, as a function of the bytes of the input file. What happens on disk
is in `Djstub.Main`. -/

namespace Djstub

open Bytes Layout Loop

/-- The globals `rmstub` and `strip` and the argument `info`. -/
structure Options where
  info : Bool
  rmstub : Bool
  strip : Bool
  deriving DecidableEq, Repr

/-- Every way `coff2exe` ends without returning 0. -/
inductive Failure where
  | stubTooOld (stubV : Nat)
  | unableToFindOvl (tp : Nat)
  | unexpectedCoff
  | unexpectedElf
  | unableToReadHeader
  | stripsFirstOverlay
  | negativeSeek
  | overflowError
  deriving DecidableEq, Repr

/-- The message on stderr, for the failures that make `coff2exe` return -1; the
others are exceptions. -/
def Failure.message : Failure → Option String
  | .stubTooOld stubV => some s!"stub too old: {stubV}"
  | .unableToFindOvl tp => some s!"unable to find ovl {tp}"
  | .unexpectedCoff => some "Unexpected COFF payload, header is invalid"
  | .unexpectedElf => some "Unexpected ELF payload, header is invalid"
  | .unableToReadHeader | .stripsFirstOverlay | .negativeSeek | .overflowError => none

/-! ## What is printed -/

def payloadDsc : List String :=
  ["COFF DOS payload", "ELF (dj32) DOS payload", "ELF (dj64) DOS payload",
    "ELF host payload", "ELF debug info", "ELF (dj32) debug info"]

def elfMach (mach : Nat) : String :=
  match mach with
  | 3 => "i386"
  | 62 => "x86_64"
  | 40 => "arm"
  | 183 => "aarch64"
  | 243 => "riscv"
  | _ => "unsupported ELF machine type"

/-- `elf_id`; `e_machine` is at 18 in both classes. -/
def elfId (f : Bytes) (offs : Nat) : String :=
  let buf := slice f offs 64
  if buf.length ≠ 64 then "???"
  else if slice buf 0 4 ≠ [0x7f, 0x45, 0x4c, 0x46] then "Not an ELF"
  else if byteAt buf 4 = 1 ∨ byteAt buf 4 = 2 then elfMach (u16 buf 18)
  else "unsupported ELF class"

def identify (num : Nat) (f : Bytes) (offs : Nat) : String :=
  if num = ObjType.otCoff.value ∨ num ≥ ObjType.otMax.value then "???"
  else elfId f offs ++ "/" ++ payloadDsc.getD num ""

/-- A line of `ibuf`, with the values it is formatted from. -/
inductive Info where
  | dj64Format
  | dosPayloadDynamic
  | coffOverlay (offs sz : Nat)
  | overlay (i : Nat) (typeVal : Nat) (ident : String) (name : Bytes) (offs sz : Nat)
  | stubVersion (v : Nat)
  | stubFlags (flags : Nat)
  | exeFormat
  | coffPayload (coffset : Int)
  | elfPayload (ident : String) (coffset : Int)
  deriving DecidableEq, Repr

def isDebug (typeVal : Nat) : Prop :=
  typeVal = ObjType.otD64.value ∨ typeVal = ObjType.otD32.value

instance (typeVal : Nat) : Decidable (isDebug typeVal) := by
  unfold isDebug; infer_instance

/-- The overlay name behind the overlay whose type is given by flag 0x2000. -/
def ovlName (f buf : Bytes) (offs : Nat) (dj32 : Bool) : Bytes :=
  let nmoff := u32 buf 0x28
  if nmoff = 0 then []
  else
    let tp := if dj32 then ObjType.otDj32 else ObjType.otE64
    match findOffs tp.value buf with
    | none => []
    | some noff => (slice f (offs + noff + nmoff) 20).takeWhile (· ≠ 0)

def overlayLines (f buf : Bytes) (name : Bytes) (offs : Nat) (info : Bool) : List Info :=
  if u16 buf 0x36 = 0 then
    (listing buf offs).entries.map fun e => .coffOverlay e.offs e.size
  else if info then
    (listing buf offs).entries.map fun e =>
      .overlay e.idx e.tag (identify e.tag f e.offs) (if isDebug e.tag then name else []) e.offs e.size
  else []

/-! ## The header walk -/

structure Walk where
  coffset : Int
  mzhdrBuf : Bytes
  coffFileSize : Int
  rmoverlay : Nat
  canCopyOvl : Nat
  stubV : Nat
  flags : Nat
  ibuf : List Info
  deriving DecidableEq, Repr

def Walk.init : Walk :=
  { coffset := 0, mzhdrBuf := List.replicate 0x40 0, coffFileSize := 0, rmoverlay := 0,
    canCopyOvl := 0, stubV := 0, flags := 0, ibuf := [] }

def isMz (buf : Bytes) : Prop := byteAt buf 0 = 0x4d ∧ byteAt buf 1 = 0x5a
def isLfanew (buf : Bytes) : Prop := byteAt buf 8 = 4 ∧ byteAt buf 9 = 0
def isCoff (buf : Bytes) : Prop := byteAt buf 0 = 0x4c ∧ byteAt buf 1 = 0x01
def isElf (buf : Bytes) : Prop :=
  byteAt buf 0 = 0x7f ∧ byteAt buf 1 = 0x45 ∧ byteAt buf 2 = 0x4c ∧ byteAt buf 3 = 0x46

instance (buf : Bytes) : Decidable (isMz buf) := by unfold isMz; infer_instance
instance (buf : Bytes) : Decidable (isLfanew buf) := by unfold isLfanew; infer_instance
instance (buf : Bytes) : Decidable (isCoff buf) := by unfold isCoff; infer_instance
instance (buf : Bytes) : Decidable (isElf buf) := by unfold isElf; infer_instance

/-- The check of `main` on the template; without it the stub counts as corrupted. -/
def stubAccepted (tmpl : Bytes) : Prop := 0x40 ≤ tmpl.length ∧ isMz tmpl ∧ isLfanew tmpl

instance (tmpl : Bytes) : Decidable (stubAccepted tmpl) := by
  unfold stubAccepted; infer_instance

/-- The type that `-r` looks for. -/
def rmType (flags : Nat) : Nat :=
  (if flags &&& 0x80 ≠ 0 then
    if flags &&& 0x2000 ≠ 0 then ObjType.otDj32 else ObjType.otE64
  else ObjType.otCoff).value

abbrev WalkResult := Except Failure Walk

/-- `-r`: leave the walk at the selected overlay. -/
def removeStub (w : Walk) (buf : Bytes) : Step Walk WalkResult :=
  let tp := rmType w.flags
  match findOffs tp buf, findSize tp buf with
  | some off, some sz => .stop (.ok { w with coffset := w.coffset + off, coffFileSize := sz })
  | _, _ => .stop (.error (.unableToFindOvl tp))

/-- `-s`: keep what the listing has passed, without its last overlay. -/
def stripOverlay (w : Walk) (l : Listing) : Except Failure Walk :=
  let coffFileSize := (l.offs : Int) - l.sz - w.coffset
  if l.i > 1 then
    match writeU32 w.mzhdrBuf (0x1c + (l.i - 1) * 4) 0 with
    | none => .error .overflowError
    | some mzhdrBuf => .ok { w with coffFileSize, mzhdrBuf }
  else .error .stripsFirstOverlay

/-- An MZ header with lfanew. -/
def lfanewHeader (f : Bytes) (o : Options) (w : Walk) (buf : Bytes) : Step Walk WalkResult :=
  let stubV := byteAt buf 0x3b
  if stubV < 8 then .stop (.error (.stubTooOld stubV))
  else
    let flags := u16 buf 0x38
    let dyn := flags &&& 0x4000 = 0 ∧ flags &&& 0x80 ≠ 0
    let dj32 := flags &&& 0x2000 ≠ 0
    let offs := u32 buf 0x3c
    let rmoverlay := if o.rmstub ∨ o.strip then w.rmoverlay + 1 else w.rmoverlay
    let name := ovlName f buf offs dj32
    let head :=
      if o.info then (if dyn then [Info.dj64Format, .dosPayloadDynamic] else [.dj64Format]) else []
    let w := { w with
      stubV, flags, coffset := offs, mzhdrBuf := buf, canCopyOvl := w.canCopyOvl + 1, rmoverlay,
      ibuf := w.ibuf ++ head }
    if o.info ∨ rmoverlay ≠ 0 then
      let l := listing buf offs
      let w := { w with ibuf := w.ibuf ++ overlayLines f buf name offs o.info }
      let tail := [Info.stubVersion (byteAt buf 0x3b), .stubFlags flags]
      if o.rmstub then removeStub w buf
      else if o.strip ∧ isDebug l.typeVal then
        match stripOverlay w l with
        | .error e => .stop (.error e)
        | .ok w => .next { w with ibuf := w.ibuf ++ tail }
      else .next { w with ibuf := w.ibuf ++ tail }
    else .next w

/-- The length an old-style MZ header declares. -/
def oldMzLength (buf : Bytes) : Int :=
  let blocks := byteAt buf 4 + byteAt buf 5 * 256
  let partialLen := byteAt buf 2 + byteAt buf 3 * 256
  (blocks * 512 : Int) + (if partialLen ≠ 0 then (partialLen : Int) - 512 else 0)

/-- One iteration of the header loop. -/
def walkStep (f : Bytes) (o : Options) (w : Walk) : Step Walk WalkResult :=
  if w.coffset < 0 then .stop (.error .negativeSeek)
  else
    let buf := slice f w.coffset.toNat 0x40
    if buf.length < 0x40 then .stop (.error .unableToReadHeader)
    else if isMz buf then
      if isLfanew buf then lfanewHeader f o w buf
      else
        .next { w with
          coffset := w.coffset + oldMzLength buf
          ibuf := w.ibuf ++ if o.info then [.exeFormat] else [] }
    else if isCoff buf then
      if w.stubV ≠ 0 ∧ w.flags &&& 0x80 ≠ 0 then .stop (.error .unexpectedCoff)
      else
        .stop (.ok { w with
          ibuf := w.ibuf ++ if o.info ∧ w.stubV = 0 then [.coffPayload w.coffset] else [] })
    else if isElf buf then
      if w.stubV ≠ 0 ∧ w.flags &&& 0x80 = 0 then .stop (.error .unexpectedElf)
      else
        .stop (.ok { w with
          ibuf := w.ibuf ++ if o.info ∧ w.stubV = 0 then
            [.elfPayload (elfId f w.coffset.toNat) w.coffset] else [] })
    else .stop (.ok w)

/-! ## The new stub and the output -/

/-- `_binary_stub_exe_start` when the walk is over. -/
def newStub (tmpl : Bytes) (stubVer : Nat) (w : Walk) (coffFileSize : Int) : Option Bytes :=
  let start :=
    if w.canCopyOvl ≠ 0 then some (patch tmpl 0x1c (slice w.mzhdrBuf 0x1c 0x20))
    else writeU32 tmpl 0x1c coffFileSize
  let stubVer := if w.stubV ≠ 0 then w.stubV else stubVer
  match start with
  | none => none
  | some start =>
    if stubVer < 256 then writeU32 (patch start 0x3b [UInt8.ofNat stubVer]) 0x3c tmpl.length
    else none

/-- What the copy needs once the walk is over. -/
structure Prepared where
  stub : Bytes
  coffset : Nat
  coffFileSize : Int
  rmoverlay : Bool
  ibuf : List Info
  deriving DecidableEq, Repr

def prepare (tmpl : Bytes) (stubVer : Nat) (f : Bytes) (w : Walk) : Except Failure Prepared :=
  let coffFileSize := if w.coffFileSize = 0 then (f.length : Int) - w.coffset else w.coffFileSize
  match newStub tmpl stubVer w coffFileSize with
  | none => .error .overflowError
  | some stub => .ok ⟨stub, w.coffset.toNat, coffFileSize, w.rmoverlay ≠ 0, w.ibuf⟩

/-- The copy loop over the bytes from the current position on. -/
def copyLoop (rmoverlay : Bool) (rest : Bytes) (coffFileSize : Int) : Bytes :=
  if 0 < coffFileSize then
    let chunkToRead := if rmoverlay then min 4096 coffFileSize.toNat else 4096
    let buf := rest.take chunkToRead
    if _h : buf = [] then []
    else
      let buf := if rmoverlay ∧ buf.length > coffFileSize then buf.take coffFileSize.toNat else buf
      buf ++ copyLoop rmoverlay (rest.drop chunkToRead)
        (if rmoverlay then coffFileSize - buf.length else coffFileSize)
  else []
termination_by rest.length
decreasing_by
  have hne : rest ≠ [] := by
    rintro rfl
    exact _h List.take_nil
  have hr := List.length_pos_iff.mpr hne
  simp only [List.length_drop, dite_eq_ite]
  split <;> omega

/-- What a successful run gives: the listing, or the bytes of the output file. -/
inductive Output where
  | info (ibuf : List Info)
  | file (out : Bytes)
  deriving DecidableEq, Repr

/-- The stub, unless it is removed, and then the payload found in `f`. -/
def Prepared.outBytes (p : Prepared) (o : Options) (f : Bytes) : Bytes :=
  (if o.rmstub then [] else p.stub) ++ copyLoop p.rmoverlay (f.drop p.coffset) p.coffFileSize

/-- `coff2exe` on a file with bytes `f`, the template and the global `stub_ver`;
`none` when `fuel` iterations do not finish the header walk. -/
def coff2exe (fuel : Nat) (tmpl : Bytes) (stubVer : Nat) (o : Options) (f : Bytes) :
    Option (Except Failure Output) :=
  match run (walkStep f o) fuel Walk.init with
  | none => none
  | some (.error e) => some (.error e)
  | some (.ok w) =>
    match prepare tmpl stubVer f w with
    | .error e => some (.error e)
    | .ok p => some (.ok (if o.info then .info p.ibuf else .file (p.outBytes o f)))

end Djstub
