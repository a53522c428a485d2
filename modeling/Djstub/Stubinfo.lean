import Djstub.Entry
import Djstub.Extents

/-! `stubinfo` as the program finds it. It reads through `fs`, at the offsets that
`stubinfo.h` gives to the assembler. -/

namespace Djstub

open Bytes Layout Loop Stores

/-! ## Strings in arrays -/

/-- `s` in an array of `n` bytes, and zeros behind it. -/
def padded (n : Nat) (s : Bytes) : Bytes := s ++ List.replicate (n - s.length) 0

section
variable {n : Nat} {s t : Bytes}

theorem padded_length (hs : s.length ≤ n) : (padded n s).length = n := by
  rw [padded, List.length_append, List.length_replicate]
  omega

theorem takeWhile_padded (h0 : ∀ x ∈ s, x ≠ 0) : (padded n s).takeWhile (· ≠ 0) = s := by
  have hs : ∀ x ∈ s, decide (x ≠ 0) = true := fun x hx => decide_eq_true (h0 x hx)
  have hz : (List.replicate (n - s.length) (0 : UInt8)).takeWhile (· ≠ 0) = [] := by
    cases n - s.length with
    | zero => rfl
    | succ k => rfl
  rw [padded, List.takeWhile_append_of_pos hs, hz, List.append_nil]

theorem cstring_padded (h0 : ∀ x ∈ s, x ≠ 0) : cstring (padded n s) 0 = s :=
  takeWhile_padded h0

theorem drop_padded {k : Nat} (hk : s.length ≤ k) :
    (padded n s).drop k = List.replicate (n - k) 0 := by
  rw [padded, List.drop_append, List.drop_of_length_le hk, List.nil_append, List.drop_replicate]
  congr 1
  omega

theorem strncpy_padded {dst src : Bytes} (hdst : dst.length = n) :
    strncpy dst src n = padded n ((src.take n).takeWhile (· ≠ 0)) := by
  have hlen : ((src.take n).takeWhile (· ≠ 0)).length ≤ n :=
    Nat.le_trans (List.takeWhile_prefix _).length_le (List.length_take_le n _)
  show patch dst 0 (padded n ((src.take n).takeWhile (· ≠ 0))) = _
  rw [patch, List.take_zero, List.nil_append, padded_length hlen,
    List.drop_of_length_le (by omega), List.append_nil]

/-- `strcat` in a buffer that has the room. -/
theorem strcat_padded (h0 : ∀ x ∈ s, x ≠ 0) (hn : s.length + t.length < n) :
    strcat (padded n s) t = padded n (s ++ t) := by
  have hlen : (s ++ t ++ [0]).length = s.length + t.length + 1 := by
    rw [List.length_append, List.length_append, List.length_singleton]
  have hrest : n - (s.length + t.length) = 1 + (n - (s.length + t.length + 1)) := by omega
  rw [strcat, takeWhile_padded h0, patch, List.take_zero, List.nil_append, Nat.zero_add, hlen,
    drop_padded (by omega), padded, List.length_append, hrest, List.replicate_add,
    List.append_assoc (s ++ t)]
  rfl

/-- The last byte is set to zero. -/
theorem patch_padded (hs : s.length ≤ n + 1) :
    patch (padded (n + 1) s) n [0] = padded (n + 1) (s.take n) := by
  have hdrop : (padded (n + 1) s).drop (n + 1) = [] :=
    List.drop_of_length_le (Nat.le_of_eq (padded_length hs))
  have htake : (padded (n + 1) s).take n = padded n (s.take n) := by
    rw [padded, padded, List.take_append, List.take_replicate, List.length_take]
    congr 2
    omega
  rw [patch, List.length_singleton, hdrop, htake, List.append_nil, padded, padded,
    List.append_assoc, ← List.replicate_succ']
  congr 2
  rw [List.length_take]
  omega

end

/-! ## The fields -/

inductive StubinfoField where
  | magic | size | minstack | memoryHandle | initialSize | minkeep | dsSelector | dsSegment
  | pspSelector | csSelector | envSize | reserved | argv0 | dpmiServer | stubinfoVer | selfFd
  | selfOffs | selfSize | payloadOffs | payloadSize | payload2Offs | payload2Size | payload2Name
  | memBase | flags | uentry | cplFd | uplBase | uplSize | elfloadArg
  deriving DecidableEq, Repr

namespace StubinfoField

/-- In the order of the structure. -/
def all : List StubinfoField :=
  [magic, size, minstack, memoryHandle, initialSize, minkeep, dsSelector, dsSegment, pspSelector,
    csSelector, envSize, reserved, argv0, dpmiServer, stubinfoVer, selfFd, selfOffs, selfSize,
    payloadOffs, payloadSize, payload2Offs, payload2Size, payload2Name, memBase, flags, uentry,
    cplFd, uplBase, uplSize, elfloadArg]

/-- The size of an element, and how many there are. -/
def type : StubinfoField → Nat × Nat
  | magic | argv0 | dpmiServer => (1, 16)
  | reserved => (1, 8)
  | payload2Name => (1, 20)
  | minkeep | dsSelector | dsSegment | pspSelector | csSelector | envSize => (2, 1)
  | _ => (4, 1)

def sizeOf (x : StubinfoField) : Nat := x.type.1 * x.type.2

/-- The `STUBINFO_*` macros. -/
def offs : StubinfoField → Nat
  | magic => 0
  | size => 0x10
  | minstack => 0x14
  | memoryHandle => 0x18
  | initialSize => 0x1c
  | minkeep => 0x20
  | dsSelector => 0x22
  | dsSegment => 0x24
  | pspSelector => 0x26
  | csSelector => 0x28
  | envSize => 0x2a
  | reserved => 0x2c
  | argv0 => 0x34
  | dpmiServer => 0x44
  | stubinfoVer => 0x54
  | selfFd => 0x58
  | selfOffs => 0x5C
  | selfSize => 0x60
  | payloadOffs => 0x64
  | payloadSize => 0x68
  | payload2Offs => 0x6C
  | payload2Size => 0x70
  | payload2Name => 0x74
  | memBase => 0x88
  | flags => 0x8C
  | uentry => 0x90
  | cplFd => 0x94
  | uplBase => 0x98
  | uplSize => 0x9C
  | elfloadArg => 0xA0

def table : List (StubinfoField × Nat) := all.map fun x => (x, x.sizeOf)

/-- Every field is aligned where the one before it ends, so that there is no padding,
and the macro says where that is. -/
theorem offs_placed (x : StubinfoField) : x.offs % x.type.1 = 0 ∧
    ∃ e, Layout.find x 0 table = some e ∧ e.offs = x.offs ∧ e.size = x.sizeOf := by
  cases x <;> exact ⟨rfl, _, rfl, rfl, rfl⟩

theorem total_table : Layout.total table = sizeofStubInfo := rfl

end StubinfoField

/-- An `int32_t`. -/
def ofInt32 (n : Int) : Nat := (n % 2 ^ 32).toNat

theorem toInt32_ofInt32 {n : Int} (h1 : -2 ^ 31 ≤ n) (h2 : n < 2 ^ 31) :
    toInt32 (ofInt32 n) = n := by
  unfold toInt32 ofInt32
  split <;> omega

theorem ofInt32_lt (n : Int) : ofInt32 n < 2 ^ 32 := by
  unfold ofInt32
  omega

/-- The bytes of a field. -/
def Go32StubInfo.field (i : Go32StubInfo) : StubinfoField → Bytes
  | .magic => i.magic
  | .size => toBytes 4 i.size
  | .minstack => toBytes 4 i.minstack
  | .memoryHandle => toBytes 4 i.memoryHandle
  | .initialSize => toBytes 4 i.initialSize
  | .minkeep => toBytes 2 i.minkeep
  | .dsSelector => toBytes 2 i.dsSelector
  | .dsSegment => toBytes 2 i.dsSegment
  | .pspSelector => toBytes 2 i.pspSelector
  | .csSelector => toBytes 2 i.csSelector
  | .envSize => toBytes 2 i.envSize
  | .reserved => List.replicate 8 0
  | .argv0 => i.argv0
  | .dpmiServer => i.dpmiServer
  | .stubinfoVer => toBytes 4 i.stubinfoVer
  | .selfFd => toBytes 4 i.selfFd
  | .selfOffs => toBytes 4 i.selfOffs
  | .selfSize => toBytes 4 (ofInt32 i.selfSize)
  | .payloadOffs => toBytes 4 i.payloadOffs
  | .payloadSize => toBytes 4 (ofInt32 i.payloadSize)
  | .payload2Offs => toBytes 4 i.payload2Offs
  | .payload2Size => toBytes 4 (ofInt32 i.payload2Size)
  | .payload2Name => i.payload2Name
  | .memBase => toBytes 4 i.memBase
  | .flags => toBytes 4 i.flags
  | .uentry | .cplFd | .uplBase | .uplSize | .elfloadArg => toBytes 4 0

/-- The structure in memory. -/
def Go32StubInfo.bytes (i : Go32StubInfo) : Bytes := (StubinfoField.all.map i.field).flatten

/-- What is read at the offset of a field. -/
def fieldAt (b : Bytes) (x : StubinfoField) : Bytes := slice b x.offs x.sizeOf

def Go32StubInfo.parse (b : Bytes) : Go32StubInfo where
  selfOffs := fromBytes (fieldAt b .selfOffs)
  selfSize := toInt32 (fromBytes (fieldAt b .selfSize))
  payloadOffs := fromBytes (fieldAt b .payloadOffs)
  payloadSize := toInt32 (fromBytes (fieldAt b .payloadSize))
  payload2Offs := fromBytes (fieldAt b .payload2Offs)
  payload2Size := toInt32 (fromBytes (fieldAt b .payload2Size))
  payload2Name := fieldAt b .payload2Name
  stubinfoVer := fromBytes (fieldAt b .stubinfoVer)
  flags := fromBytes (fieldAt b .flags)
  magic := fieldAt b .magic
  size := fromBytes (fieldAt b .size)
  minstack := fromBytes (fieldAt b .minstack)
  memoryHandle := fromBytes (fieldAt b .memoryHandle)
  initialSize := fromBytes (fieldAt b .initialSize)
  minkeep := fromBytes (fieldAt b .minkeep)
  dsSelector := fromBytes (fieldAt b .dsSelector)
  dsSegment := fromBytes (fieldAt b .dsSegment)
  pspSelector := fromBytes (fieldAt b .pspSelector)
  csSelector := fromBytes (fieldAt b .csSelector)
  envSize := fromBytes (fieldAt b .envSize)
  argv0 := fieldAt b .argv0
  dpmiServer := fieldAt b .dpmiServer
  selfFd := fromBytes (fieldAt b .selfFd)
  memBase := fromBytes (fieldAt b .memBase)

/-- Every value fits into its field. -/
structure Go32StubInfo.Fits (i : Go32StubInfo) : Prop where
  selfOffs : i.selfOffs < 2 ^ 32
  selfSize : -2 ^ 31 ≤ i.selfSize ∧ i.selfSize < 2 ^ 31
  payloadOffs : i.payloadOffs < 2 ^ 32
  payloadSize : -2 ^ 31 ≤ i.payloadSize ∧ i.payloadSize < 2 ^ 31
  payload2Offs : i.payload2Offs < 2 ^ 32
  payload2Size : -2 ^ 31 ≤ i.payload2Size ∧ i.payload2Size < 2 ^ 31
  payload2Name : i.payload2Name.length = 20
  stubinfoVer : i.stubinfoVer < 2 ^ 32
  flags : i.flags < 2 ^ 32
  magic : i.magic.length = 16
  size : i.size < 2 ^ 32
  minstack : i.minstack < 2 ^ 32
  memoryHandle : i.memoryHandle < 2 ^ 32
  initialSize : i.initialSize < 2 ^ 32
  minkeep : i.minkeep < 2 ^ 16
  dsSelector : i.dsSelector < 2 ^ 16
  dsSegment : i.dsSegment < 2 ^ 16
  pspSelector : i.pspSelector < 2 ^ 16
  csSelector : i.csSelector < 2 ^ 16
  envSize : i.envSize < 2 ^ 16
  argv0 : i.argv0.length = 16
  dpmiServer : i.dpmiServer.length = 16
  selfFd : i.selfFd < 2 ^ 32
  memBase : i.memBase < 2 ^ 32

section
variable {i : Go32StubInfo} (hi : i.Fits)
include hi

theorem Go32StubInfo.Fits.field_length (x : StubinfoField) : (i.field x).length = x.sizeOf := by
  cases x with
  | magic => exact hi.magic
  | argv0 => exact hi.argv0
  | dpmiServer => exact hi.dpmiServer
  | payload2Name => exact hi.payload2Name
  | reserved => rfl
  | _ => exact toBytes_length _ _

theorem Go32StubInfo.Fits.bytes_length : i.bytes.length = sizeofStubInfo := by
  rw [Go32StubInfo.bytes, List.length_flatten, List.map_map, ← StubinfoField.total_table,
    Layout.total, StubinfoField.table, List.map_map]
  congr 1
  exact List.map_congr_left fun x _ => hi.field_length x

theorem Go32StubInfo.Fits.fieldAt_bytes (x : StubinfoField) : fieldAt i.bytes x = i.field x := by
  obtain ⟨-, e, hfind, hoffs, hsize⟩ := x.offs_placed
  have hmap : i.bytes = (StubinfoField.table.map fun p => i.field p.1).flatten := by
    rw [StubinfoField.table, List.map_map]
    rfl
  have hlen : ∀ p ∈ StubinfoField.table, (i.field p.1).length = p.2 := by
    intro p hp
    obtain ⟨y, -, rfl⟩ := List.mem_map.mp hp
    exact hi.field_length y
  rw [fieldAt, ← hoffs, ← hsize]
  exact Layout.slice_of_find hlen hfind hmap

/-- What has been stored is read. -/
theorem Go32StubInfo.Fits.parse_bytes : Go32StubInfo.parse i.bytes = i := by
  have h2 {n : Nat} (hn : n < 2 ^ 16) : fromBytes (toBytes 2 n) = n := fromBytes_toBytes hn
  have h4 {n : Nat} (hn : n < 2 ^ 32) : fromBytes (toBytes 4 n) = n := fromBytes_toBytes hn
  unfold Go32StubInfo.parse
  simp only [hi.fieldAt_bytes, Go32StubInfo.field, h4, h2, hi.selfOffs, hi.payloadOffs,
    hi.payload2Offs, hi.stubinfoVer, hi.flags, hi.size, hi.minstack, hi.memoryHandle,
    hi.initialSize, hi.minkeep, hi.dsSelector, hi.dsSegment, hi.pspSelector, hi.csSelector,
    hi.envSize, hi.selfFd, hi.memBase, ofInt32_lt, toInt32_ofInt32 hi.selfSize.1 hi.selfSize.2,
    toInt32_ofInt32 hi.payloadSize.1 hi.payloadSize.2,
    toInt32_ofInt32 hi.payload2Size.1 hi.payload2Size.2]

end

/-! ## What the header walk leaves -/

theorem toInt32_range {n : Nat} (h : n < 2 ^ 32) : -2 ^ 31 ≤ toInt32 n ∧ toInt32 n < 2 ^ 31 := by
  unfold toInt32
  split <;> omega

/-- The variables are 32 bits wide, and the name has room for a suffix. -/
structure StubWalk.Fits (w : StubWalk) : Prop where
  coffset : w.coffset < 2 ^ 32
  coffsize : w.coffsize < 2 ^ 32
  noffset : w.noffset < 2 ^ 32
  nsize : w.nsize < 2 ^ 32
  noffset2 : w.noffset2 < 2 ^ 32
  nsize2 : w.nsize2 < 2 ^ 32
  stubinfoVer : w.stubinfoVer < 2 ^ 32
  flags : w.flags < 2 ^ 32
  payload2Name : ∃ s : Bytes, s.length ≤ 12 ∧ (∀ x ∈ s, x ≠ 0) ∧ w.payload2Name = padded 20 s

theorem StubWalk.Fits.init : StubWalk.init.Fits := by
  refine ⟨?_, ?_, ?_, ?_, ?_, ?_, ?_, ?_, [], Nat.zero_le _, by simp, rfl⟩ <;> decide

/-- The name in a header. -/
def headerName (h : Bytes) : Bytes := cstring (slice h 0x30 12) 0

theorem headerName_length (h : Bytes) : (headerName h).length ≤ 12 :=
  Nat.le_trans (List.takeWhile_prefix _).length_le (List.length_take_le 12 _)

theorem cstring_ne_zero (b : Bytes) (p : Nat) : ∀ x ∈ cstring b p, x ≠ 0 := by
  intro x hx
  simpa using List.mem_takeWhile_imp hx

theorem nameField_padded (h : Bytes) : nameField h = padded 13 (headerName h) := by
  have hname : ((slice h 0x30 12).take 12).takeWhile (· ≠ 0) = headerName h := by
    rw [slice, List.take_take]
    rfl
  have hlen := headerName_length h
  have hrest : 13 - (headerName h).length = 12 - (headerName h).length + 1 := by omega
  rw [nameField, padded, hname, hrest, List.replicate_succ', List.append_assoc]

namespace StubWalk.Fits
variable {w : StubWalk} (hw : w.Fits)
include hw

theorem pass_name (h : Bytes) : (w.pass h).payload2Name = padded 20 (headerName h) := by
  obtain ⟨s, hs, -, hname⟩ := hw.payload2Name
  have hlen := headerName_length h
  rw [payload2Name_pass, hname, nameField_padded, drop_padded (by omega), padded, padded,
    List.append_assoc, ← List.replicate_add]
  congr 2
  omega

theorem pass (h : Bytes) : (w.pass h).Fits where
  coffset := u32_lt _ _
  coffsize := u32_lt _ _
  noffset := by
    show (if _ then _ else _) < _
    split
    · exact Nat.mod_lt _ (by decide)
    · exact hw.noffset
  nsize := u32_lt _ _
  noffset2 := by
    show (if _ then _ else _) < _
    split
    · exact Nat.mod_lt _ (by decide)
    · exact hw.noffset2
  nsize2 := u32_lt _ _
  stubinfoVer := by
    refine Nat.or_lt_two_pow hw.stubinfoVer ?_
    have := byteAt_lt h 0x3b
    rw [Nat.shiftLeft_eq]
    omega
  flags := by
    show w.flags / 2 ^ 16 * 2 ^ 16 + u16 h 0x38 < 2 ^ 32
    have h1 := hw.flags
    have h2 := u16_lt h 0x38
    omega
  payload2Name := ⟨_, headerName_length h, cstring_ne_zero _ _, hw.pass_name h⟩

theorem step (f : Bytes) : (stubStep f w).Keeps StubWalk.Fits fun r =>
    ∀ ops w', r = some (ops, w') → w'.Fits := by
  have hcase := stubStep_cases f w
  generalize stubStep f w = r at hcase ⊢
  cases hcase with
  | exits => exact fun _ _ h => by cases h
  | lfanew => exact hw.pass _
  | payload ops =>
    rintro _ _ ⟨⟩
    exact { hw with }

end StubWalk.Fits

theorem findPayload_fits {fuel : Nat} {f : Bytes} {exec : Option Bytes} {ops : LdOps} {w : StubWalk}
    (h : findPayload fuel f exec = some (ops, w)) : w.Fits := by
  cases exec with
  | some name =>
    cases h
    exact { StubWalk.Fits.init with flags := by decide }
  | none =>
    have hends : Ends (stubStep f) .init (some (ops, w)) := ⟨fuel, Option.join_eq_some_iff.mp h⟩
    exact Ends.kept (I := StubWalk.Fits) (fun _ hw => hw.step f) hends .init ops w rfl

/-- `".dbg"` -/
def dbgSuffix : Bytes := [0x2e, 0x64, 0x62, 0x67]

/-- The name of the second payload. -/
def dbgName (s : Bytes) : Bytes := if s = [] then [] else s ++ dbgSuffix

theorem dbgName_ne_zero {s : Bytes} (h0 : ∀ x ∈ s, x ≠ 0) : ∀ x ∈ dbgName s, x ≠ 0 := by
  have hdbg : ∀ x ∈ dbgSuffix, x ≠ 0 := by simp [dbgSuffix]
  unfold dbgName
  split
  · simp
  · intro x hx
    exact (List.mem_append.mp hx).elim (h0 x) (hdbg x)

theorem publish_name {w : StubWalk} {s : Bytes} (hs : s.length ≤ 12) (h0 : ∀ x ∈ s, x ≠ 0)
    (hw : w.payload2Name = padded 20 s) : w.publish.payload2Name = padded 20 (dbgName s) := by
  show (if w.payload2Name.getD 0 0 ≠ 0 then strcat w.payload2Name dbgSuffix else w.payload2Name) = _
  rw [hw]
  cases s with
  | nil => rfl
  | cons x s =>
    have hx : x ≠ 0 := h0 x (List.mem_cons_self ..)
    have hroom : (x :: s).length + dbgSuffix.length < 20 := by
      have hdbg : dbgSuffix.length = 4 := rfl
      omega
    rw [if_pos (by exact hx), strcat_padded h0 hroom, dbgName, if_neg (List.cons_ne_nil x s)]

theorem argv0Field_padded (name : Bytes) :
    argv0Field name = padded 16 ((cstring (basename name) 0).take 15) := by
  have hlen : (((basename name).take 16).takeWhile (· ≠ 0)).length ≤ 16 :=
    Nat.le_trans (List.takeWhile_prefix _).length_le (List.length_take_le 16 _)
  have hcopy : strncpy zeros16 (basename name) 16 =
      padded 16 (((basename name).take 16).takeWhile (· ≠ 0)) := strncpy_padded rfl
  rw [argv0Field, hcopy, patch_padded hlen]
  congr 1
  show _ = ((basename name).takeWhile (· ≠ 0)).take 15
  rw [← List.take_takeWhile, List.take_take, show min 15 16 = 15 from rfl]

theorem foldl_pass_fits {w : StubWalk} (hw : w.Fits) (hs : List Bytes) :
    (hs.foldl StubWalk.pass w).Fits := by
  induction hs generalizing w with
  | nil => exact hw
  | cons h hs ih => exact ih (hw.pass h)

/-- The name that counts is that in the last header. -/
theorem walk_name {f : Bytes} {ops : LdOps} {w : StubWalk} {hs : List Bytes} {h : Bytes} {q : Nat}
    (hw : Ends (stubStep f) .init (some (ops, w))) (ht : Trail f 0 (hs ++ [h]) q) :
    cstring w.payload2Name 0 = headerName h := by
  obtain ⟨hs', q', ht', -, rfl⟩ := stubWalk_iff.mp hw
  obtain ⟨rfl, rfl⟩ := ht'.unique ht
  have hname := (foldl_pass_fits .init hs).pass_name h
  rw [List.foldl_append]
  show cstring ((hs.foldl StubWalk.pass .init).pass h).payload2Name 0 = _
  rw [hname]
  exact cstring_padded (cstring_ne_zero _ _)

/-! ## What is in `fs` -/

theorem readHeaders_getLength {ops : LdOps} {f : Bytes} {pos pos' : Nat} {handle : Handle}
    (h : ops.readHeaders f pos = .ok (handle, pos')) : handle.getLength < 2 ^ 32 := by
  rcases readHeaders_ok h with ⟨c, hc, rfl⟩ | ⟨e, he, rfl⟩
  · obtain ⟨-, -, -, -, -, -, hlen⟩ := readCoffHeaders_ok hc
    exact hlen.trans_lt (Nat.mod_lt _ (by decide))
  · obtain ⟨-, last, -, hlen⟩ := readElfHeaders_ok he
    exact hlen.trans_lt (Nat.mod_lt _ (by decide))

section
variable {σ : Type} {h : Host σ} {p : Process} {s s' : σ}

theorem makeClient_values {va vaSize : Nat} {c : Client}
    (hrun : makeClient h p va vaSize s = some (c, s')) :
    c.low.1 < 2 ^ 16 ∧ c.low.2 < 2 ^ 16 ∧ c.memoryHandle < 2 ^ 32 := by
  obtain ⟨low, s1, hlow, hrun⟩ := Calls.bind_eq_some.mp hrun
  obtain ⟨entry, s2, -, hrun⟩ := Calls.bind_eq_some.mp hrun
  obtain ⟨ds, s3, -, hrun⟩ := Calls.bind_eq_some.mp hrun
  obtain ⟨mem, s4, hmem, hrun⟩ := Calls.bind_eq_some.mp hrun
  obtain ⟨_, s5, -, hrun⟩ := Calls.bind_eq_some.mp hrun
  obtain ⟨_, s6, -, hrun⟩ := Calls.bind_eq_some.mp hrun
  obtain ⟨_, s7, -, hrun⟩ := Calls.bind_eq_some.mp hrun
  obtain ⟨fs, s8, -, hrun⟩ := Calls.bind_eq_some.mp hrun
  cases Calls.pure_eq_some.mp hrun
  obtain ⟨r, t, -, hmem⟩ := Calls.bind_eq_some.mp hmem
  cases Calls.pure_eq_some.mp hmem
  obtain ⟨sel1, t1, -, hlow⟩ := Calls.bind_eq_some.mp hlow
  obtain ⟨_, t2, -, hlow⟩ := Calls.bind_eq_some.mp hlow
  obtain ⟨sel2, t3, -, hlow⟩ := Calls.bind_eq_some.mp hlow
  obtain ⟨_, t4, -, hlow⟩ := Calls.bind_eq_some.mp hlow
  cases Calls.pure_eq_some.mp hlow
  exact ⟨Nat.mod_lt _ (by decide), Nat.mod_lt _ (by decide), wide_lt _ _⟩

/-- Either way there is a selector. -/
theorem nukeLow_values {r : Nat × Option Move} (hrun : nukeLow h p s = some (r, s')) :
    r.1 < 2 ^ 16 := by
  obtain ⟨x, s1, hinit, hrun⟩ := Calls.bind_eq_some.mp hrun
  cases x with
  | some x =>
    cases Calls.pure_eq_some.mp hrun
    obtain ⟨q, t, -, hinit⟩ := Calls.bind_eq_some.mp hinit
    split at hinit
    · cases Calls.pure_eq_some.mp hinit
    · obtain ⟨_, t1, -, hinit⟩ := Calls.bind_eq_some.mp hinit
      obtain ⟨_, t2, -, hinit⟩ := Calls.bind_eq_some.mp hinit
      obtain ⟨_, t3, -, hinit⟩ := Calls.bind_eq_some.mp hinit
      obtain ⟨f, t4, -, hinit⟩ := Calls.bind_eq_some.mp hinit
      obtain ⟨_, t5, -, hinit⟩ := Calls.bind_eq_some.mp hinit
      obtain ⟨_, t6, -, hinit⟩ := Calls.bind_eq_some.mp hinit
      cases Calls.pure_eq_some.mp hinit
      exact Nat.mod_lt _ (by decide)
  | none =>
    obtain ⟨_, s2, -, hrun⟩ := Calls.bind_eq_some.mp hrun
    obtain ⟨sel, s3, hpsp, hrun⟩ := Calls.bind_eq_some.mp hrun
    cases Calls.pure_eq_some.mp hrun
    obtain ⟨sel', t1, -, hpsp⟩ := Calls.bind_eq_some.mp hpsp
    obtain ⟨_, t2, -, hpsp⟩ := Calls.bind_eq_some.mp hpsp
    cases Calls.pure_eq_some.mp hpsp
    exact Nat.mod_lt _ (by decide)

theorem envSize_lt {env : Bytes} {envp : Option (List Slot)} {argv0 : Option Bytes} {n : Nat}
    (hn : envSize env envp argv0 = some n) : n < 2 ^ 16 := by
  unfold envSize at hn
  dsimp only at hn
  split at hn
  · cases hn
  · cases hn
    exact Nat.mod_lt _ (by decide)

/-- Every start that gets as far as the jump has filled the structure in. -/
theorem goInfo_fits {w : StubWalk} (hw : w.Fits) {handle : Handle} (hlen : handle.getLength < 2 ^ 32)
    {c : Client} (hc : c.low.1 < 2 ^ 16 ∧ c.low.2 < 2 ^ 16 ∧ c.memoryHandle < 2 ^ 32)
    {envSize fd psp : Nat} (henv : envSize < 2 ^ 16) (hfd : fd < 2 ^ 31) (hpsp : psp < 2 ^ 16) :
    (goInfo p w.publish handle c envSize fd psp).Fits where
  selfOffs := hw.coffset
  selfSize := toInt32_range hw.coffsize
  payloadOffs := hw.noffset
  payloadSize := toInt32_range hw.nsize
  payload2Offs := hw.noffset2
  payload2Size := toInt32_range hw.nsize2
  payload2Name := by
    obtain ⟨n, hn, h0, hname⟩ := hw.payload2Name
    have hpub : (goInfo p w.publish handle c envSize fd psp).payload2Name = padded 20 (dbgName n) :=
      publish_name hn h0 hname
    rw [hpub]
    apply padded_length
    unfold dbgName
    split
    · exact Nat.zero_le _
    · rw [List.length_append]
      exact Nat.add_le_add hn (show dbgSuffix.length ≤ 8 by decide)
  stubinfoVer := Nat.or_lt_two_pow hw.stubinfoVer (by decide)
  flags := hw.flags
  magic := rfl
  size := show sizeofStubInfo < 2 ^ 32 by decide
  minstack := show 0x80000 < 2 ^ 32 by decide
  memoryHandle := hc.2.2
  initialSize := max_lt hlen (by decide)
  minkeep := show Djstub.minkeep < 2 ^ 16 by decide
  dsSelector := hc.1
  dsSegment := Nat.mod_lt _ (by decide)
  pspSelector := hpsp
  csSelector := hc.2.1
  envSize := henv
  argv0 := by
    have harg : (goInfo p w.publish handle c envSize fd psp).argv0 = _ := argv0Field_padded _
    rw [harg]
    apply padded_length
    exact Nat.le_trans (List.length_take_le 15 _) (by decide)
  dpmiServer := rfl
  selfFd := Nat.lt_trans hfd (by decide)
  memBase := Nat.mod_lt _ (by decide)

end

/-- The bytes of a segment. -/
def Descriptor.view (d : Descriptor) (m : Memory 32) : Bytes :=
  (List.range (d.limit + 1)).map fun k => m (BitVec.ofNat 32 (d.base + k))

theorem view_blit {d : Descriptor} {m : Memory 32} {a : Nat} {b : Bytes} (hbase : d.base = a % 2 ^ 32)
    (hlen : b.length = d.limit + 1) (hlt : d.limit < 2 ^ 32) :
    d.view (blit m (BitVec.ofNat 32 a) b) = b := by
  apply List.ext_getElem?
  intro k
  rw [Descriptor.view, List.getElem?_map]
  by_cases hk : k < b.length
  · have haddr : BitVec.ofNat 32 (d.base + k) = BitVec.ofNat 32 a + BitVec.ofNat 32 k := by
      apply BitVec.eq_of_toNat_eq
      simp only [BitVec.toNat_add, BitVec.toNat_ofNat, hbase]
      omega
    rw [List.getElem?_range (by omega), Option.map_some, haddr, blit_add m _ b (by omega),
      List.getElem?_eq_getElem hk]
    rfl
  · have hout : (List.range (d.limit + 1))[k]? = none := by
      rw [List.getElem?_eq_none_iff, List.length_range]
      omega
    rw [hout, List.getElem?_eq_none (by omega)]
    rfl

theorem enterProgram_info {σ : Type} {h : Host σ} {p : Process} {s s' : σ} {fd : Nat} {P : Program}
    {i : StubInfo} {q : Nat} {j : Jump} (hrun : enterProgram h p fd P i q s = some (j, s')) :
    ∃ c envSize psp, (c.low.1 < 2 ^ 16 ∧ c.low.2 < 2 ^ 16 ∧ c.memoryHandle < 2 ^ 32) ∧
      envSize < 2 ^ 16 ∧ psp < 2 ^ 16 ∧ j.info = goInfo p i P.handle c envSize fd psp := by
  unfold enterProgram at hrun
  cases henv : envSize p.env p.envp (some p.argv0) with
  | none =>
    rw [henv] at hrun
    cases hrun
  | some env =>
    rw [henv] at hrun
    obtain ⟨c, s1, hclient, hrun⟩ := Calls.bind_eq_some.mp hrun
    obtain ⟨_, s2, -, hrun⟩ := Calls.bind_eq_some.mp hrun
    obtain ⟨low, s3, hnuke, hrun⟩ := Calls.bind_eq_some.mp hrun
    cases Calls.pure_eq_some.mp hrun
    exact ⟨c, env, low.1, makeClient_values hclient, envSize_lt henv, nukeLow_values hnuke, rfl⟩

/-- The structure that the program finds in the segment `fs` is the one that `fullstub`
has filled in, the segment ends where it ends, and both names in it are ended. -/
theorem stubinfo_read_back {σ : Type} {h : Host σ} {ldt : σ → Ldt} (doc : Documented h ldt)
    {p : Process} {s s' : σ} {log : Log} (hok : log.Granted) {d : Descriptor}
    (hd : ldt s p.ds = some d) (hfd : ∀ name r, p.openFile name = some r → r.1 < 2 ^ 31) {fuel : Nat}
    {tmp : Page} {j : Jump}
    (hrun : fullstub h.watched p fuel tmp (s, []) = some (j, (s', log))) :
    (∃ e, ldt s' j.fs = some e ∧ e.limit + 1 = j.info.bytes.length ∧ ∀ m : Memory 32,
      Go32StubInfo.parse
        (e.view (blit m (BitVec.ofNat 32 (d.base + p.stubinfo)) j.info.bytes)) = j.info) ∧
    cstring j.info.argv0 0 = (basename (cstring p.argv0 0)).take 15 ∧
    (∀ fd f hs k q, p.elfexec = some none → p.openFile (cstring p.argv0 0) = some (fd, f) →
      Trail f 0 (hs ++ [k]) q → cstring j.info.payload2Name 0 = dbgName (headerName k)) ∧
    ∀ name, p.elfexec = some (some name) → cstring j.info.payload2Name 0 = [] := by
  obtain ⟨-, fd, f, ops, w, ⟨exec, hexec, hopen, hfind⟩, hstart⟩ := fullstub_eq_some.mp hrun
  obtain ⟨P, hload⟩ := load_of_startPayload hstart
  obtain ⟨q, heq⟩ := startPayload_of_load h.watched p fd hload
  rw [heq] at hstart
  obtain ⟨pos, -, hheaders, -, -⟩ := load_eq_some.mp hload
  have hw := findPayload_fits hfind
  obtain ⟨hent, -⟩ := enterProgram_spec doc hok hd (readHeaders_getVa hheaders) hstart
  obtain ⟨rights, hfs⟩ := hent.info
  obtain ⟨c, envSize, psp, hc, henv, hpsp, hinfo⟩ := enterProgram_info hstart
  have hfits : j.info.Fits := by
    rw [hinfo]
    exact goInfo_fits hw (readHeaders_getLength hheaders) hc henv (hfd _ _ hopen) hpsp
  have hsize : j.info.size = sizeofStubInfo := by rw [hinfo]; rfl
  obtain ⟨n, hn, h0, hname⟩ := hw.payload2Name
  have hstem : cstring w.payload2Name 0 = n := by rw [hname, cstring_padded h0]
  have hdbg : cstring j.info.payload2Name 0 = dbgName n := by
    have hpub : j.info.payload2Name = padded 20 (dbgName n) := by
      rw [hinfo]
      exact publish_name hn h0 hname
    rw [hpub]
    exact cstring_padded (dbgName_ne_zero h0)
  refine ⟨⟨_, hfs, ?_, fun m => ?_⟩, ?_, ?_, ?_⟩
  · rw [hfits.bytes_length, hsize]
    rfl
  · have hlen : j.info.bytes.length = j.info.size - 1 + 1 := by rw [hfits.bytes_length, hsize]; rfl
    have hlt : j.info.size - 1 < 2 ^ 32 := by rw [hsize]; decide
    rw [view_blit rfl hlen hlt]
    exact hfits.parse_bytes
  · have harg : j.info.argv0 = _ := (congrArg Go32StubInfo.argv0 hinfo).trans (argv0Field_padded _)
    have hbase : ∀ x ∈ basename (cstring p.argv0 0), x ≠ 0 := by
      intro x hx
      apply cstring_ne_zero p.argv0 0 x
      exact List.mem_reverse.mp ((List.takeWhile_prefix _).subset (List.mem_reverse.mp hx))
    have hall : cstring (basename (cstring p.argv0 0)) 0 = basename (cstring p.argv0 0) :=
      List.takeWhile_eq_self_iff.mpr fun x hx => decide_eq_true (hbase x hx)
    rw [harg, hall]
    exact cstring_padded fun x hx => hbase x (List.mem_of_mem_take hx)
  · intro fd' f' hs k q' hnone hopen' ht
    cases hexec.symm.trans hnone
    cases hopen.symm.trans hopen'
    have hends : Ends (stubStep f) .init (some (ops, w)) :=
      ⟨fuel, Option.join_eq_some_iff.mp hfind⟩
    rw [hdbg, ← hstem, walk_name hends ht]
  · intro name hsome
    cases hexec.symm.trans hsome
    cases hfind
    rw [hdbg, ← hstem]
    rfl

/-- A header with the name `"G"` in front of an image. -/
def namedExe : Bytes := patch (overlayHeader 0 0 0 0 8 0x40) 0x30 [0x47] ++ smallElf

/-- `C:\` with twenty letters is started, and nothing is in the environment. -/
def namedProcess : Process :=
  { execProcess with
    argv0 := [0x43, 0x3a, 0x5c] ++ List.replicate 20 0x41 ++ [0], env := [0, 0], envp := some [.null]
    openFile := fun _ => some (5, namedExe) }

theorem stubinfo_read_back_named : ∃ j s' log e,
    fullstub tableHost.watched namedProcess 2 blankPage (firstState, []) = some (j, (s', log)) ∧
      s'.table j.fs = some e ∧ e.limit + 1 = j.info.bytes.length ∧
      (∀ m : Memory 32,
        Go32StubInfo.parse (e.view (blit m (BitVec.ofNat 32 0x5000) j.info.bytes)) = j.info) ∧
      cstring j.info.argv0 0 = List.replicate 15 0x41 ∧
      cstring j.info.payload2Name 0 = [0x47, 0x2e, 0x64, 0x62, 0x67] := by
  have hrun : (fullstub tableHost.watched namedProcess 2 blankPage (firstState, [])).map
      (fun r => decide (Log.Granted r.2.2)) = some true := by
    decide +kernel
  obtain ⟨⟨j, s', log⟩, hrun, hlog⟩ := Option.map_eq_some_iff.mp hrun
  have hfd : ∀ name r, namedProcess.openFile name = some r → r.1 < 2 ^ 31 := by
    rintro name r ⟨⟩
    decide
  have hops : LdOps.Matches .elf (headerAt namedExe 0x40) := (by decide : isElf (headerAt namedExe 0x40))
  have htrail : Trail namedExe 0 ([] ++ [headerAt namedExe 0]) 0x40 :=
    .jump (by decide) (by decide) (by decide) (by decide) (by decide)
      (.payload 0x40 (by decide) hops.magic)
  obtain ⟨⟨e, he, hlim, hread⟩, harg, hname, -⟩ := stubinfo_read_back tableHost_documented
    (s := firstState) (of_decide_eq_true hlog) (d := ⟨0, 2 ^ 32 - 1, 0xf3, none⟩) rfl hfd hrun
  exact ⟨j, s', log, e, hrun, he, hlim, hread, harg.trans (by decide),
    (hname 5 namedExe [] _ 0x40 (by decide) rfl htrail).trans (by decide)⟩

end Djstub
