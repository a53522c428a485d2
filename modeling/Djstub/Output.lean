import Djstub.Chain

/-! What `coff2exe` writes, in closed form: the template with a new header area,
then the payload, for the plain and the stripping mode; the selected extent for
`-r`. -/

namespace Djstub

open Bytes Layout Loop

/-- One chunk, then what is left of the count. -/
private theorem take_chunk (rest : Bytes) {n : Int} {c : Nat} (hc : c ≤ n.toNat) :
    (rest.take c ++
      if 0 < n - (rest.take c).length then (rest.drop c).take (n - (rest.take c).length).toNat
      else []) = rest.take n.toNat := by
  rw [List.length_take]
  by_cases hs : rest.length ≤ c
  · have hn : rest.take n.toNat = rest := List.take_of_length_le (by omega)
    rw [List.drop_eq_nil_of_le hs, List.take_of_length_le hs, hn]
    simp
  · rw [Nat.min_eq_left (by omega)]
    split
    · have hsplit : n.toNat = c + (n - c).toNat := by omega
      conv => rhs; rw [hsplit, List.take_add]
    · rw [List.append_nil, show n.toNat = c by omega]

/-- The copy loop copies everything, or as much as it was told to. -/
theorem copyLoop_eq (rmoverlay : Bool) (rest : Bytes) (n : Int) :
    copyLoop rmoverlay rest n =
      if 0 < n then (if rmoverlay then rest.take n.toNat else rest) else [] := by
  induction hk : rest.length using Nat.strongRecOn generalizing rest n with
  | ind k ih =>
    rw [copyLoop]
    split
    case isFalse => rfl
    next hn =>
    cases rmoverlay with
    | false =>
      simp only [Bool.false_eq_true, if_false, false_and]
      split
      · next h => rw [List.take_eq_nil_iff] at h; simpa using h.symm
      · next h =>
        have hne : rest ≠ [] := by rintro rfl; exact h List.take_nil
        have hr := List.length_pos_iff.mpr hne
        rw [ih _ (by rw [List.length_drop]; omega) _ _ rfl]
        simp [hn]
    | true =>
      obtain ⟨c, hc⟩ : ∃ c, c = min 4096 n.toNat := ⟨_, rfl⟩
      have hle : ¬ ((rest.take c).length : Int) > n := by
        rw [List.length_take]; omega
      simp only [if_true, ← hc, hle, and_false, if_false]
      split
      · next h =>
        rw [List.take_eq_nil_iff] at h
        have hr : rest = [] := h.resolve_left (by omega)
        rw [hr]; simp
      · next h =>
        have hne : rest ≠ [] := by rintro rfl; exact h List.take_nil
        have hr := List.length_pos_iff.mpr hne
        rw [ih _ (by rw [List.length_drop]; omega) _ _ rfl]
        exact take_chunk rest (by omega)

/-- The template with new bytes 0x1c..0x3b and its own length as lfanew. -/
def restubbed (tmpl area : Bytes) : Bytes := patch tmpl 0x1c (area ++ toBytes 4 tmpl.length)

/-- The header area for an image without a stub: its size, then the template's
own bytes up to the version. -/
def rawArea (tmpl : Bytes) (stubVer size : Nat) : Bytes :=
  toBytes 4 size ++ slice tmpl 0x20 0x1b ++ [UInt8.ofNat stubVer]

theorem byte_byteAt {b : Bytes} {i : Nat} (h : i < b.length) :
    slice b i 1 = [UInt8.ofNat (byteAt b i)] := by
  simp only [slice, byteAt, List.getD_eq_getElem?_getD, List.getElem?_eq_getElem h,
    Option.getD_some, UInt8.ofNat_toNat]
  rw [List.drop_eq_getElem_cons h]
  rfl

section
variable {tmpl : Bytes} (ht : 0x40 ≤ tmpl.length)
include ht

private theorem writeLfanew {area : Bytes} (ha : area.length = 0x20) :
    writeU32 (patch tmpl 0x1c area) 0x3c tmpl.length =
      if tmpl.length < 2 ^ 32 then some (restubbed tmpl area) else none := by
  have hp := patch_length (b := tmpl) (d := area) (i := 0x1c) (by omega)
  have hd := toBytes_length 4 tmpl.length
  split
  · rw [writeU32_eq_some]
    refine ⟨by omega, by omega, by omega, ?_⟩
    rw [restubbed, patch_append (by omega), ha]
    simp
  · next hn =>
    unfold writeU32
    rw [if_neg (fun h => hn (by omega))]

theorem newStub_lfanew {w : Walk} (hc : w.canCopyOvl ≠ 0) (hm : w.mzhdrBuf.length = 0x40)
    (hv : w.stubV = byteAt w.mzhdrBuf 0x3b) (h8 : 8 ≤ w.stubV) (stubVer : Nat) (size : Int) :
    newStub tmpl stubVer w size =
      if tmpl.length < 2 ^ 32 then some (restubbed tmpl (slice w.mzhdrBuf 0x1c 0x20)) else none := by
  have ha : (slice w.mzhdrBuf 0x1c 0x20).length = 0x20 := slice_length_of_le (by omega)
  have hs0 : w.stubV ≠ 0 := by omega
  have hlt : w.stubV < 256 := by rw [hv]; exact byteAt_lt _ _
  -- the version written at 0x3b is already there
  have hsame : patch (slice w.mzhdrBuf 0x1c 0x20) 0x1f [UInt8.ofNat w.stubV] =
      slice w.mzhdrBuf 0x1c 0x20 := by
    have h1 : slice (slice w.mzhdrBuf 0x1c 0x20) 0x1f 1 = [UInt8.ofNat w.stubV] := by
      rw [slice_slice (by omega), byte_byteAt (by omega), hv]
    rw [← h1]
    exact patch_slice (by omega)
  have hstart : patch (patch tmpl 0x1c (slice w.mzhdrBuf 0x1c 0x20)) 0x3b [UInt8.ofNat w.stubV] =
      patch tmpl 0x1c (slice w.mzhdrBuf 0x1c 0x20) := by
    rw [show (0x3b : Nat) = 0x1c + 0x1f from rfl, patch_patch_inside (by omega) (by simp; omega), hsame]
  unfold newStub
  rw [if_pos hc, if_pos hs0]
  dsimp only
  rw [if_pos hlt, hstart, writeLfanew ht ha]

theorem newStub_raw {w : Walk} (hc : w.canCopyOvl = 0) (hv : w.stubV = 0) (stubVer : Nat)
    (size : Int) (s : Bytes) :
    newStub tmpl stubVer w size = some s ↔
      0 ≤ size ∧ size < 2 ^ 32 ∧ stubVer < 256 ∧ tmpl.length < 2 ^ 32 ∧
        s = restubbed tmpl (rawArea tmpl stubVer size.toNat) := by
  have hl4 := toBytes_length 4 size.toNat
  have hls : (slice tmpl 0x20 0x1b).length = 0x1b := slice_length_of_le (by omega)
  have ha : (rawArea tmpl stubVer size.toNat).length = 0x20 := by simp [rawArea, hl4, hls]
  have hstart : patch (patch tmpl 0x1c (toBytes 4 size.toNat)) 0x3b [UInt8.ofNat stubVer] =
      patch tmpl 0x1c (rawArea tmpl stubVer size.toNat) := by
    have hp := patch_length (b := tmpl) (d := toBytes 4 size.toNat) (i := 0x1c) (by omega)
    have hsl : slice (patch tmpl 0x1c (toBytes 4 size.toNat)) 0x20 0x1b = slice tmpl 0x20 0x1b :=
      slice_patch_of_disjoint (by omega) (by omega)
    have hback : patch (patch tmpl 0x1c (toBytes 4 size.toNat)) 0x20 (slice tmpl 0x20 0x1b) =
        patch tmpl 0x1c (toBytes 4 size.toNat) := by
      rw [← hsl]
      exact patch_slice (by omega)
    rw [rawArea, patch_append (by simp; omega), patch_append (by omega), hl4, List.length_append,
      hl4, hls, hback]
  have hc' : ¬ w.canCopyOvl ≠ 0 := by omega
  have hv' : ¬ w.stubV ≠ 0 := by omega
  unfold newStub
  rw [if_neg hc', if_neg hv']
  dsimp only
  cases h1 : writeU32 tmpl 0x1c size with
  | none =>
    simp only [reduceCtorEq, false_iff]
    rintro ⟨h2, h3, -⟩
    rw [writeU32_eq_some.mpr ⟨h2, h3, (by omega), rfl⟩] at h1
    cases h1
  | some start =>
    obtain ⟨h2, h3, -, rfl⟩ := writeU32_eq_some.mp h1
    dsimp only
    rw [hstart, writeLfanew ht ha]
    constructor
    · intro h
      split at h
      case isFalse => cases h
      next hlt =>
      split at h
      case isFalse => cases h
      next hL => exact ⟨h2, h3, hlt, hL, (Option.some.inj h).symm⟩
    · rintro ⟨-, -, hlt, hL, rfl⟩
      rw [if_pos hlt, if_pos hL]

end

/-! ## Headers with the same overlay information -/

/-- Bytes 0x1c..0x3b agree. -/
def SameArea (h h' : Bytes) : Prop := slice h 0x1c 0x20 = slice h' 0x1c 0x20

namespace SameArea
variable {h h' : Bytes} (e : SameArea h h')
include e

theorem slice_eq {k n : Nat} (hk : 0x1c ≤ k) (hn : k + n ≤ 0x3c) : slice h k n = slice h' k n := by
  obtain ⟨j, rfl⟩ : ∃ j, k = 0x1c + j := ⟨k - 0x1c, by omega⟩
  rw [← slice_slice (n := 0x20) (by omega), ← slice_slice (n := 0x20) (by omega), e]

theorem u16_eq {k : Nat} (hk : 0x1c ≤ k) (hn : k + 2 ≤ 0x3c) : u16 h k = u16 h' k := by
  simp only [u16, e.slice_eq hk hn]

theorem u32_eq {k : Nat} (hk : 0x1c ≤ k) (hn : k + 4 ≤ 0x3c) : u32 h k = u32 h' k := by
  simp only [u32, e.slice_eq hk hn]

theorem version_eq : byteAt h 0x3b = byteAt h' 0x3b := by
  have h1 := byteAt_slice (b := h) (i := 0x1c) (n := 0x20) (k := 0x1f) (by omega)
  have h2 := byteAt_slice (b := h') (i := 0x1c) (n := 0x20) (k := 0x1f) (by omega)
  rw [e] at h1
  rw [← h1, ← h2]

theorem table_eq : table h = table h' :=
  table_congr (e.u16_eq (by omega) (by omega)) fun _ _ => e.u32_eq (by omega) (by omega)

theorem listing_eq (offs : Nat) : listing h offs = listing h' offs :=
  listing_congr (e.u16_eq (by omega) (by omega)) (fun _ _ => e.u32_eq (by omega) (by omega)) offs

theorem cut_eq : cut h = cut h' := by
  simp only [cut, e.listing_eq]

end SameArea

/-! ## A file behind a new stub -/

section
variable {tmpl area : Bytes} (ht : stubAccepted tmpl) (ha : area.length = 0x20)
include ht ha

theorem restubbed_length : (restubbed tmpl area).length = tmpl.length := by
  have h1 := toBytes_length 4 tmpl.length
  have h2 := ht.1
  rw [restubbed, patch_length (by simp; omega)]

theorem restubbed_header (body : Bytes) :
    headerAt (restubbed tmpl area ++ body) 0 = slice (restubbed tmpl area) 0 0x40 := by
  have h1 := restubbed_length ht ha
  have h2 := ht.1
  exact slice_append_left (by omega)

theorem restubbed_byte (body : Bytes) {k : Nat} (hk : k < 0x1c) :
    byteAt (headerAt (restubbed tmpl area ++ body) 0) k = byteAt tmpl k := by
  have h1 := toBytes_length 4 tmpl.length
  have h2 := ht.1
  rw [restubbed_header ht ha, byteAt_slice (by omega), Nat.zero_add, restubbed,
    byteAt_patch_of_disjoint (by simp; omega) (by omega)]

theorem restubbed_sameArea (body : Bytes) :
    slice (headerAt (restubbed tmpl area ++ body) 0) 0x1c 0x20 = area := by
  have h1 := toBytes_length 4 tmpl.length
  have h2 := ht.1
  have h3 := slice_patch_inside (b := tmpl) (d := area ++ toBytes 4 tmpl.length) (i := 0x1c)
    (j := 0) (n := 0x20) (by simp; omega) (by simp; omega)
  rw [restubbed_header ht ha, slice_slice (by omega), restubbed]
  rw [Nat.zero_add, ← Nat.add_zero 0x1c, h3, slice_append_left (by omega), ← ha, slice_zero_length]

theorem restubbed_lfanew (hL : tmpl.length < 2 ^ 32) (body : Bytes) :
    u32 (headerAt (restubbed tmpl area ++ body) 0) 0x3c = tmpl.length := by
  have h1 := toBytes_length 4 tmpl.length
  have h2 := ht.1
  have h3 := slice_patch_inside (b := tmpl) (d := area ++ toBytes 4 tmpl.length) (i := 0x1c)
    (j := 0x20) (n := 4) (by simp; omega) (by simp; omega)
  rw [restubbed_header ht ha, u32_slice (by omega), restubbed, u32,
    show 0 + 0x3c = 0x1c + 0x20 from rfl, h3, slice_append_right (by omega), ha, Nat.sub_self]
  exact u32_toBytes hL

theorem restubbed_isMz (body : Bytes) :
    isMz (headerAt (restubbed tmpl area ++ body) 0) ∧
      isLfanew (headerAt (restubbed tmpl area ++ body) 0) := by
  unfold isMz isLfanew
  rw [restubbed_byte ht ha body (by omega), restubbed_byte ht ha body (by omega),
    restubbed_byte ht ha body (by omega), restubbed_byte ht ha body (by omega)]
  exact ht.2

theorem restubbed_oldMz (body : Bytes) : OldMz (restubbed tmpl area ++ body) 0 0 := by
  have h1 := restubbed_length ht ha
  have h2 := ht.1
  refine .here 0 ?_ fun h => h.2 (restubbed_isMz ht ha body).2
  rw [restubbed_header ht ha]
  exact slice_length_of_le (by omega)

/-- A new stub hands the walk over to the payload behind it. -/
theorem restubbed_chain (hL : tmpl.length < 2 ^ 32) {body : Bytes}
    (hl : (headerAt body 0).length = 0x40) (hm : ¬ isMz (headerAt body 0)) :
    Chain (restubbed tmpl area ++ body) 0 [headerAt (restubbed tmpl area ++ body) 0]
      tmpl.length ∧
    headerAt (restubbed tmpl area ++ body) tmpl.length = headerAt body 0 := by
  have h1 := restubbed_length ht ha
  have hhead : headerAt (restubbed tmpl area ++ body) tmpl.length = headerAt body 0 := by
    rw [headerAt, slice_append_right (by omega), h1, Nat.sub_self]
  refine ⟨.lfanew (restubbed_oldMz ht ha body) (restubbed_isMz ht ha body).1 ?_, hhead⟩
  rw [restubbed_lfanew ht ha hL]
  refine .payload (.here _ (by rw [hhead]; exact hl) fun h => hm ?_) (by rw [hhead]; exact hm)
  rw [hhead] at h
  exact h.1

end

/-! ## The output in closed form -/

/-- What the options make of a header: with `-s` a debug overlay is cut off. -/
def cutOf (o : Options) (h : Bytes) : Option Cut := if o.strip then cut h else none

theorem cutOf_eq_some {o : Options} {h : Bytes} {c : Cut} :
    cutOf o h = some c ↔ o.strip = true ∧ cut h = some c := by
  rw [cutOf, Option.ite_none_right_eq_some]

/-- The bytes to keep, if one of the headers has been cut; the last one counts. -/
def limit (o : Options) (hs : List Bytes) : Option Nat :=
  hs.foldl (fun k h => (cutOf o h).elim k fun c => some c.keep) none

/-- The new header area behind the headers `hs`. -/
def areaOf (o : Options) (tmpl : Bytes) (stubVer size : Nat) (hs : List Bytes) : Bytes :=
  match hs.getLast? with
  | none => rawArea tmpl stubVer size
  | some h => slice ((cutOf o h).elim h (cutHeader h)) 0x1c 0x20

/-- The payload checks, against the last header. -/
def Consistent (hs : List Bytes) (buf : Bytes) : Prop :=
  ∀ h, hs.getLast? = some h →
    (isCoff buf → u16 h 0x38 &&& 0x80 = 0) ∧ (isElf buf → u16 h 0x38 &&& 0x80 ≠ 0)

theorem consistent_nil (buf : Bytes) : Consistent [] buf := by simp [Consistent]

theorem consistent_concat (hs : List Bytes) (h buf : Bytes) :
    Consistent (hs ++ [h]) buf ↔
      (isCoff buf → u16 h 0x38 &&& 0x80 = 0) ∧ (isElf buf → u16 h 0x38 &&& 0x80 ≠ 0) := by
  simp [Consistent]

theorem cutHeader_length {h : Bytes} (hl : h.length = 0x40) {c : Cut} (hc : cut h = some c) :
    (cutHeader h c).length = 0x40 := by
  have hi := cut_i_le hc
  have ht := toBytes_length 4 0
  rw [cutHeader, patch_length (by omega), hl]

theorem cutHeader_u16 {h : Bytes} (hl : h.length = 0x40) {c : Cut} (hi : c.i ≤ 4) {k : Nat}
    (hk : 0x2c ≤ k) : u16 (cutHeader h c) k = u16 h k := by
  have h4 := toBytes_length 4 0
  rw [u16, cutHeader, slice_patch_of_disjoint (by omega) (by omega), u16]

theorem cutHeader_byteAt {h : Bytes} (hl : h.length = 0x40) {c : Cut} (hi : c.i ≤ 4) {k : Nat}
    (hk : 0x2c ≤ k) : byteAt (cutHeader h c) k = byteAt h k := by
  have h4 := toBytes_length 4 0
  exact byteAt_patch_of_disjoint (by omega) (by omega)

/-- Bytes are kept only after a cut that leaves some. -/
theorem cut_keep_pos {h : Bytes} {c : Cut} (hc : cut h = some c) (hi : 1 < c.i) : 0 < c.keep := by
  obtain ⟨-, rfl⟩ := cut_eq_some.mp hc
  dsimp only at hi ⊢
  have hpos : ∀ (T : List (Nat × Nat)), AllSized T → 0 < T.length → 0 < total T := by
    intro T hT hlen
    cases T with
    | nil => simp at hlen
    | cons p T =>
      have := hT p (by simp)
      rw [total_cons]
      omega
  by_cases hm : u16 h 0x36 = 0
  · rw [listing_empty hm] at hi
    simp at hi
  · rcases listing_split hm with ⟨T, t, n, hT, hsz, hl⟩ | ⟨T, t, U, hT, hsz, hl⟩
    · rw [hl] at hi ⊢
      dsimp only at hi ⊢
      have hT' : AllSized T := fun q hq => hsz q (by rw [hT]; simp [hq])
      have := hpos T hT' (by omega)
      omega
    · rw [hl] at hi ⊢
      dsimp only at hi ⊢
      have := hpos T hsz (by omega)
      omega

theorem limit_concat (o : Options) (hs : List Bytes) (h : Bytes) :
    limit o (hs ++ [h]) = (cutOf o h).elim (limit o hs) fun c => some c.keep := by
  simp [limit, List.foldl_append]

/-- With no header passed the walk has only moved. -/
theorem after_nil (o : Options) (p : Nat) :
    Walk.init.after o [] p = { Walk.init with coffset := p } := rfl

theorem foldl_pass_size (o : Options) (hs : List Bytes) :
    (hs.foldl (Walk.pass o) Walk.init.bare).coffFileSize = ((limit o hs).getD 0 : Nat) := by
  induction hs using List.reverseRecOn with
  | nil => rfl
  | append_singleton hs h ih =>
    rw [List.foldl_append, limit_concat]
    simp only [List.foldl_cons, List.foldl_nil, Walk.pass, ih, cutOf]
    cases (if o.strip = true then cut h else none) <;> rfl

/-- After at least one header the walk holds the last one. -/
theorem after_concat (o : Options) (hs : List Bytes) (h : Bytes) (p : Nat) :
    let w := Walk.init.after o (hs ++ [h]) p
    w.coffset = p ∧ w.mzhdrBuf = (cutOf o h).elim h (cutHeader h) ∧
      w.coffFileSize = ((limit o (hs ++ [h])).getD 0 : Nat) ∧ w.canCopyOvl ≠ 0 ∧
      w.stubV = byteAt h 0x3b ∧ w.flags = u16 h 0x38 ∧
      (o.rmstub = false → (w.rmoverlay ≠ 0 ↔ o.strip = true)) := by
  refine ⟨rfl, ?_, foldl_pass_size o (hs ++ [h]), ?_, ?_, ?_, ?_⟩
  · simp [Walk.after, List.foldl_append, Walk.pass, cutOf]
  · simp [Walk.after, List.foldl_append, Walk.pass]
  · simp [Walk.after, List.foldl_append, Walk.pass]
  · simp [Walk.after, List.foldl_append, Walk.pass]
  · intro hr
    have hzero : o.strip = false → ∀ hs : List Bytes,
        (hs.foldl (Walk.pass o) Walk.init.bare).rmoverlay = 0 := by
      intro hs0 hs
      induction hs using List.reverseRecOn with
      | nil => rfl
      | append_singleton hs h ih => simp [List.foldl_append, Walk.pass, hr, hs0, ih]
    cases hs' : o.strip with
    | false =>
      have := hzero hs' (hs ++ [h])
      simpa [Walk.after, List.foldl_append] using this
    | true => simp [Walk.after, List.foldl_append, Walk.pass, hs']

/-- The payload bytes that are copied from `p` on. -/
def bodyOf (o : Options) (f : Bytes) (hs : List Bytes) (p : Nat) : Bytes :=
  match limit o hs with
  | none => f.drop p
  | some k => slice f p k

/-- What has to hold for a run without `-r` to return 0, besides the walk. -/
structure Fits (tmpl : Bytes) (stubVer : Nat) (f : Bytes) (hs : List Bytes) (p : Nat) : Prop where
  template : tmpl.length < 2 ^ 32
  size : hs = [] → f.length - p < 2 ^ 32
  version : hs = [] → stubVer < 256

/-- The walk of a run: a chain of admitted headers in front of a payload that
fits the last of them. -/
structure Accepts (o : Options) (f : Bytes) (hs : List Bytes) (p : Nat) : Prop where
  chain : Chain f 0 hs p
  admits : ∀ h ∈ hs, Admits o h
  consistent : Consistent hs (headerAt f p)

theorem limit_pos {o : Options} {hs : List Bytes} (ha : ∀ h ∈ hs, Admits o h) {k : Nat}
    (hk : limit o hs = some k) : 0 < k := by
  induction hs using List.reverseRecOn with
  | nil => cases hk
  | append_singleton hs h ih =>
    rw [limit_concat] at hk
    cases hc : cutOf o h with
    | none =>
      rw [hc] at hk
      exact ih (fun x hx => ha x (by simp [hx])) hk
    | some c =>
      rw [hc] at hk
      cases hk
      obtain ⟨hs, hc⟩ := cutOf_eq_some.mp hc
      exact cut_keep_pos hc ((ha h (by simp)).strips hs c hc)

theorem limit_nostrip {o : Options} (hs : List Bytes) (ho : o.strip = false) :
    limit o hs = none := by
  induction hs using List.reverseRecOn with
  | nil => rfl
  | append_singleton hs h ih => simp [limit_concat, cutOf, ho, ih]

theorem Walk.of_bare {w w' : Walk} (h : w.bare = w') :
    w.coffset = w'.coffset ∧ w.mzhdrBuf = w'.mzhdrBuf ∧ w.coffFileSize = w'.coffFileSize ∧
      w.rmoverlay = w'.rmoverlay ∧ w.canCopyOvl = w'.canCopyOvl ∧ w.stubV = w'.stubV := by
  subst h
  exact ⟨rfl, rfl, rfl, rfl, rfl, rfl⟩

/-- Some payload bytes are always copied. -/
theorem bodyOf_ne_nil {o : Options} {f : Bytes} {hs : List Bytes} {p : Nat}
    (hacc : Accepts o f hs p) : bodyOf o f hs p ≠ [] := by
  have hend := (header_length_iff f p).mp hacc.chain.payload_header.1
  intro h
  have hlen := congrArg List.length h
  unfold bodyOf at hlen
  cases hk : limit o hs with
  | none =>
    rw [hk] at hlen
    simp only [List.length_drop, List.length_nil] at hlen
    omega
  | some k =>
    have hk0 := limit_pos hacc.admits hk
    rw [hk] at hlen
    simp only [slice_length, List.length_nil] at hlen
    omega

section
variable {tmpl : Bytes} (ht : 0x40 ≤ tmpl.length) {o : Options} (hr : o.rmstub = false)
  {f : Bytes}
include ht hr

/-- The end of a run whose walk has passed the headers `hs`. -/
theorem prepare_after {hs : List Bytes} {p : Nat} (hacc : Accepts o f hs p) (stubVer : Nat)
    {w : Walk} (hw : w.bare = Walk.init.after o hs p) :
    (Fits tmpl stubVer f hs p → ∃ q, prepare tmpl stubVer f w = .ok q ∧
      q.stub = restubbed tmpl (areaOf o tmpl stubVer (f.length - p) hs) ∧
      q.outBytes o f = restubbed tmpl (areaOf o tmpl stubVer (f.length - p) hs) ++ bodyOf o f hs p) ∧
    (¬ Fits tmpl stubVer f hs p → ∃ e, prepare tmpl stubVer f w = .error e) := by
  have hfull := (header_length_iff f p).mp hacc.chain.payload_header.1
  have hcof : w.coffset = p := (Walk.of_bare hw).1
  obtain ⟨-, hmz, hsz, hrm, hcan, hsv⟩ := Walk.of_bare hw
  have hn : ((f.length : Int) - p).toNat = f.length - p := by omega
  have hpos : 0 < (f.length : Int) - p := by omega
  rcases List.eq_nil_or_concat hs with rfl | ⟨hs', h, hh⟩
  · rw [after_nil] at hmz hsz hrm hcan hsv
    have hsz0 : w.coffFileSize = 0 := hsz
    have hrm0 : w.rmoverlay = 0 := hrm
    have hraw := newStub_raw ht (w := w) hcan hsv stubVer ((f.length : Int) - p)
    constructor
    · intro hfit
      have hsize := hfit.size rfl
      have hs := (hraw _).mpr ⟨by omega, by omega, hfit.version rfl, hfit.template, rfl⟩
      rw [hn] at hs
      simp only [prepare, hsz0, if_true, hcof, hs]
      refine ⟨_, rfl, rfl, ?_⟩
      simp only [Prepared.outBytes, hr, Bool.false_eq_true, if_false, hrm0, ne_eq,
        not_true_eq_false, decide_false, copyLoop_eq, hpos, if_true, hn, Int.toNat_natCast]
      rfl
    · intro hfit
      cases hs : newStub tmpl stubVer w ((f.length : Int) - p) with
      | none =>
        refine ⟨.overflowError, ?_⟩
        simp only [prepare, hsz0, if_true, hcof, hs]
      | some s =>
        obtain ⟨-, h2, h3, h4, -⟩ := (hraw s).mp hs
        exact absurd ⟨h4, fun _ => by omega, fun _ => h3⟩ hfit
  · rw [List.concat_eq_append] at hh
    subst hh
    obtain ⟨-, hmz', hsz', hcan', hsv', -, hrm'⟩ := after_concat o hs' h p
    rw [hmz'] at hmz
    rw [hsz'] at hsz
    rw [← hcan] at hcan'
    rw [hsv'] at hsv
    rw [← hrm] at hrm'
    have hadm := hacc.admits h (by simp)
    have hlen := (hacc.chain.mem (h := h) (by simp)).1
    have hne : hs' ++ [h] ≠ [] := by simp
    have harea : slice w.mzhdrBuf 0x1c 0x20 =
        areaOf o tmpl stubVer (f.length - p) (hs' ++ [h]) := by
      simp [areaOf, hmz]
    -- the cut moves neither the length nor the version
    have hcut : w.mzhdrBuf.length = 0x40 ∧ byteAt w.mzhdrBuf 0x3b = byteAt h 0x3b := by
      rw [hmz]
      cases hc : cutOf o h with
      | none => exact ⟨hlen, rfl⟩
      | some c =>
        have hc' := (cutOf_eq_some.mp hc).2
        exact ⟨cutHeader_length hlen hc', cutHeader_byteAt hlen (cut_i_le hc') (by decide)⟩
    have hstub (size : Int) := newStub_lfanew ht hcan' hcut.1 (by rw [hsv, hcut.2])
      (by rw [hsv]; exact hadm.version) stubVer size
    rw [harea] at hstub
    constructor
    · intro hfit
      simp only [prepare, hstub, hfit.template, if_true]
      refine ⟨_, rfl, rfl, ?_⟩
      simp only [Prepared.outBytes, hr, Bool.false_eq_true, if_false, copyLoop_eq, hcof, hsz,
        Int.toNat_natCast, bodyOf]
      congr 1
      cases hk : limit o (hs' ++ [h]) with
      | none =>
        simp only [Option.getD_none, Nat.cast_zero, if_true, hpos, hn]
        split
        · exact List.take_of_length_le (by rw [List.length_drop])
        · rfl
      | some k =>
        have hk0 := limit_pos hacc.admits hk
        have hs : o.strip = true := by
          by_contra hs
          rw [limit_nostrip _ (by simpa using hs)] at hk
          cases hk
        have hk1 : ¬ (k : Int) = 0 := by omega
        have hk2 : (0 : Int) < k := by omega
        simp only [Option.getD_some, hk1, if_false, hk2, if_true, Int.toNat_natCast,
          (hrm' hr).mpr hs, ne_eq, not_false_eq_true, decide_true]
        rfl
    · intro hfit
      have hL : ¬ tmpl.length < 2 ^ 32 := fun hL =>
        hfit ⟨hL, fun h0 => absurd h0 hne, fun h0 => absurd h0 hne⟩
      refine ⟨.overflowError, ?_⟩
      simp only [prepare, hstub, hL, if_false]

end

/-! ## Runs -/

/-- `coff2exe` returns 0 with this output. -/
def Returns (tmpl : Bytes) (stubVer : Nat) (o : Options) (f : Bytes) (out : Output) : Prop :=
  ∃ fuel, coff2exe fuel tmpl stubVer o f = some (.ok out)

theorem returns_iff {tmpl : Bytes} {stubVer : Nat} {o : Options} {f : Bytes} {out : Output} :
    Returns tmpl stubVer o f out ↔ ∃ w, Ends (walkStep f o) Walk.init (.ok w) ∧
      ∃ q, prepare tmpl stubVer f w = .ok q ∧
        out = if o.info then .info q.ibuf else .file (q.outBytes o f) := by
  constructor
  · rintro ⟨fuel, h⟩
    unfold coff2exe at h
    split at h
    · cases h
    · cases h
    · next w hw =>
      split at h
      · cases h
      · next q hq => exact ⟨w, ⟨fuel, hw⟩, q, hq, by cases h; rfl⟩
  · rintro ⟨w, ⟨fuel, hw⟩, q, hq, rfl⟩
    refine ⟨fuel, ?_⟩
    unfold coff2exe
    rw [hw]
    dsimp only
    rw [hq]

/-- More fuel does not change how a run ends. -/
theorem coff2exe_unique {tmpl : Bytes} {stubVer : Nat} {o : Options} {f : Bytes} {n m : Nat}
    {r r' : Except Failure Output} (h : coff2exe n tmpl stubVer o f = some r)
    (h' : coff2exe m tmpl stubVer o f = some r') : r = r' := by
  unfold coff2exe at h h'
  cases hn : run (walkStep f o) n Walk.init with
  | none => rw [hn] at h; cases h
  | some x =>
    cases hm : run (walkStep f o) m Walk.init with
    | none => rw [hm] at h'; cases h'
    | some y =>
      have hxy : x = y := Ends.unique ⟨n, hn⟩ ⟨m, hm⟩
      subst hxy
      rw [hn] at h
      rw [hm] at h'
      exact Option.some.inj (h.symm.trans h')

theorem Returns.unique {tmpl : Bytes} {stubVer : Nat} {o : Options} {f : Bytes} {out out' : Output}
    (h : Returns tmpl stubVer o f out) (h' : Returns tmpl stubVer o f out') : out = out' := by
  obtain ⟨n, hn⟩ := h
  obtain ⟨m, hm⟩ := h'
  exact Except.ok.inj (coff2exe_unique hn hm)

theorem not_returns_of_error {tmpl : Bytes} {stubVer : Nat} {o : Options} {f : Bytes} {n : Nat}
    {e : Failure} (h : coff2exe n tmpl stubVer o f = some (.error e)) (out : Output) :
    ¬ Returns tmpl stubVer o f out := by
  rintro ⟨m, hm⟩
  cases coff2exe_unique h hm

theorem payloadOk_after {o : Options} {hs : List Bytes} (ha : ∀ h ∈ hs, Admits o h) (p : Nat)
    (buf : Bytes) :
    PayloadOk (Walk.init.after o hs p).stubV (Walk.init.after o hs p).flags buf ↔
      Consistent hs buf := by
  rcases List.eq_nil_or_concat hs with rfl | ⟨hs', h, hh⟩
  · have h0 : (Walk.init.after o [] p).stubV = 0 := rfl
    simp [PayloadOk, Consistent, h0]
  · rw [List.concat_eq_append] at hh
    subst hh
    obtain ⟨-, -, -, -, hv, hf, -⟩ := after_concat o hs' h p
    have h8 := (ha h (by simp)).version
    have h0 : byteAt h 0x3b ≠ 0 := by omega
    rw [hv, hf]
    simp [PayloadOk, Consistent, h0]

section
variable {tmpl : Bytes} (ht : 0x40 ≤ tmpl.length) {o : Options} (hr : o.rmstub = false)
  {f : Bytes} {stubVer : Nat}
include ht hr

theorem returns_of_accepts {hs : List Bytes} {p : Nat} (hacc : Accepts o f hs p)
    (hfit : Fits tmpl stubVer f hs p) :
    ∃ q : Prepared, q.outBytes o f =
        restubbed tmpl (areaOf o tmpl stubVer (f.length - p) hs) ++ bodyOf o f hs p ∧
      Returns tmpl stubVer o f (if o.info then .info q.ibuf else .file (q.outBytes o f)) := by
  obtain ⟨w, hw, hb⟩ := walk_complete hr hacc.chain Walk.init rfl hacc.admits
    ((payloadOk_after hacc.admits p _).mpr hacc.consistent)
  obtain ⟨q, hq, -, hout⟩ := (prepare_after ht hr hacc stubVer hb).1 hfit
  exact ⟨q, hout, returns_iff.mpr ⟨w, hw, q, hq, rfl⟩⟩

/-- What a finished walk has prepared. -/
theorem accepts_of_prepared {w : Walk} {q : Prepared} (hw : Ends (walkStep f o) Walk.init (.ok w))
    (hq : prepare tmpl stubVer f w = .ok q) :
    ∃ hs p, Accepts o f hs p ∧ Fits tmpl stubVer f hs p ∧
      q.stub = restubbed tmpl (areaOf o tmpl stubVer (f.length - p) hs) ∧
      q.outBytes o f =
        restubbed tmpl (areaOf o tmpl stubVer (f.length - p) hs) ++ bodyOf o f hs p := by
  obtain ⟨hs, p, hch, hadm, hpay, hb⟩ := walk_sound hr hw
  have hacc : Accepts o f hs p := ⟨hch, hadm, (payloadOk_after hadm p _).mp hpay⟩
  obtain ⟨hok, herr⟩ := prepare_after ht hr hacc stubVer hb
  by_cases hfit : Fits tmpl stubVer f hs p
  · obtain ⟨q', hq', hstub, hout⟩ := hok hfit
    rw [hq] at hq'
    cases hq'
    exact ⟨hs, p, hacc, hfit, hstub, hout⟩
  · obtain ⟨e, he⟩ := herr hfit
    rw [hq] at he
    cases he

theorem accepts_of_returns {out : Output} (h : Returns tmpl stubVer o f out) :
    ∃ hs p, Accepts o f hs p ∧ Fits tmpl stubVer f hs p := by
  obtain ⟨w, hw, q, hq, -⟩ := returns_iff.mp h
  obtain ⟨hs, p, hacc, hfit, -⟩ := accepts_of_prepared ht hr hw hq
  exact ⟨hs, p, hacc, hfit⟩

/-- A run without `-r` and `-i` in closed form. -/
theorem returns_file_iff (hi : o.info = false) {g : Bytes} :
    Returns tmpl stubVer o f (.file g) ↔ ∃ hs p, Accepts o f hs p ∧ Fits tmpl stubVer f hs p ∧
      g = restubbed tmpl (areaOf o tmpl stubVer (f.length - p) hs) ++ bodyOf o f hs p := by
  constructor
  · intro h
    obtain ⟨w, hw, q, hq, hg⟩ := returns_iff.mp h
    obtain ⟨hs, p, hacc, hfit, -, hout⟩ := accepts_of_prepared ht hr hw hq
    rw [hi, if_neg (by simp), hout] at hg
    cases hg
    exact ⟨hs, p, hacc, hfit, rfl⟩
  · rintro ⟨hs, p, hacc, hfit, rfl⟩
    obtain ⟨q, hq, h'⟩ := returns_of_accepts ht hr hacc hfit
    rw [hi, hq] at h'
    exact h'

end

end Djstub
