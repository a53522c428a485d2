import Djstub.Layout

/-! The 0x40-byte MZ header of `djstubify2.py`: overlay sizes at 0x1c, name
offset at 0x28, type map at 0x36, flags at 0x38, version at 0x3b and lfanew at
0x3c. The loops over the type map are written as in the source; `table` is the
list of overlays they all describe, and each loop is related to it. -/

namespace Djstub

open Bytes Layout

/-- `ObjType` -/
inductive ObjType where
  | otCoff | otDj32 | otE32 | otE64 | otD64 | otD32 | otMax
  deriving DecidableEq, Repr

def ObjType.value : ObjType → Nat
  | .otCoff => 0
  | .otDj32 => 1
  | .otE32 => 2
  | .otE64 => 3
  | .otD64 => 4
  | .otD32 => 5
  | .otMax => 6

private theorem shiftRight_lt {m : Nat} (h : m ≠ 0) : m >>> 4 < m := by
  rw [Nat.shiftRight_eq_div_pow]; omega

def findIdxLoop (typeVal typeMap cnt : Nat) : Option Nat :=
  if _h : typeMap = 0 then none
  else if typeMap &&& 0xf = typeVal then some cnt
  else findIdxLoop typeVal (typeMap >>> 4) (cnt + 1)
termination_by typeMap
decreasing_by exact shiftRight_lt _h

/-- `find_idx`; `none` is the source's -1, here and below. -/
def findIdx (typeVal : Nat) (buf : Bytes) : Option Nat :=
  let typeMap := u16 buf 0x36
  if typeVal = 0 ∧ typeMap = 0 then some 0 else findIdxLoop typeVal typeMap 0

def findSize (typeVal : Nat) (buf : Bytes) : Option Nat :=
  match findIdx typeVal buf with
  | none => none
  | some idx => some (u32 buf (0x1c + idx * 4))

def findOffsLoop (buf : Bytes) (typeVal typeMap offs cnt : Nat) : Option Nat :=
  if _h : typeMap = 0 then none
  else if typeMap &&& 0xf = typeVal then some offs
  else findOffsLoop buf typeVal (typeMap >>> 4) (offs + u32 buf (0x1c + cnt * 4)) (cnt + 1)
termination_by typeMap
decreasing_by exact shiftRight_lt _h

def findOffs (typeVal : Nat) (buf : Bytes) : Option Nat :=
  let typeMap := u16 buf 0x36
  if typeVal = 0 ∧ typeMap = 0 then some 0 else findOffsLoop buf typeVal typeMap 0 0

/-- `write_u16`: `to_bytes` raises on a value that does not fit, the assignment
to the memoryview on a place that is not inside the buffer. -/
def writeU16 (buf : Bytes) (offset : Nat) (value : Int) : Option Bytes :=
  if 0 ≤ value ∧ value < 2 ^ 16 ∧ offset + 2 ≤ buf.length then
    some (patch buf offset (toBytes 2 value.toNat))
  else none

def writeU32 (buf : Bytes) (offset : Nat) (value : Int) : Option Bytes :=
  if 0 ≤ value ∧ value < 2 ^ 32 ∧ offset + 4 ≤ buf.length then
    some (patch buf offset (toBytes 4 value.toNat))
  else none

/-- The variables `type_val`, `sz`, `i` and `offs` of the overlay listing, and
the entries it has printed. -/
structure Listing where
  typeVal : Nat
  sz : Nat
  i : Nat
  offs : Nat
  entries : List (Placed Nat)
  deriving DecidableEq, Repr

def listLoop (buf : Bytes) (typeMap : Nat) (l : Listing) : Listing :=
  if _h : typeMap = 0 then l
  else
    let typeVal := typeMap &&& 0xf
    let sz := u32 buf (0x1c + l.i * 4)
    if sz = 0 then { l with typeVal, sz }
    else
      listLoop buf (typeMap >>> 4)
        { typeVal, sz, i := l.i + 1, offs := l.offs + sz,
          entries := l.entries ++ [⟨l.i, typeVal, l.offs, sz⟩] }
termination_by typeMap
decreasing_by exact shiftRight_lt _h

/-- The overlay listing of `coff2exe` for overlays from offset `offs` on. An
empty type map is listed as one COFF overlay and leaves the offset alone. -/
def listing (buf : Bytes) (offs : Nat) : Listing :=
  let typeMap := u16 buf 0x36
  if typeMap = 0 then
    let sz := u32 buf 0x1c
    ⟨0, sz, 0, offs, [⟨0, ObjType.otCoff.value, offs, sz⟩]⟩
  else listLoop buf typeMap ⟨0, 0, 0, offs, []⟩

/-! ## The overlays a header describes -/

/-- Sizes for the nibbles of a type map, from slot `i` on. -/
def tableFrom (buf : Bytes) (i : Nat) : List Nat → List (Nat × Nat)
  | [] => []
  | t :: ts => (t, u32 buf (0x1c + i * 4)) :: tableFrom buf (i + 1) ts

/-- Type and size of every overlay: one for each nibble up to the highest
non-zero one, or a single overlay of type 0 for an empty map. -/
def table (buf : Bytes) : List (Nat × Nat) :=
  if u16 buf 0x36 = 0 then [(0, u32 buf 0x1c)]
  else tableFrom buf 0 (Nat.digits 16 (u16 buf 0x36))

theorem digits_step {m : Nat} (h : m ≠ 0) :
    Nat.digits 16 m = (m &&& 0xf) :: Nat.digits 16 (m >>> 4) := by
  have h1 : m &&& 0xf = m % 16 := Nat.and_two_pow_sub_one_eq_mod m 4
  have h2 : m >>> 4 = m / 16 := Nat.shiftRight_eq_div_pow m 4
  rw [Nat.digits_def' (by omega) (by omega), h1, h2]

theorem tableFrom_length (buf : Bytes) (i : Nat) (ts : List Nat) :
    (tableFrom buf i ts).length = ts.length := by
  induction ts generalizing i with
  | nil => rfl
  | cons t ts ih => simp [tableFrom, ih]

theorem tableFrom_getElem? (buf : Bytes) (i : Nat) (ts : List Nat) (k : Nat) :
    (tableFrom buf i ts)[k]? = ts[k]?.map fun t => (t, u32 buf (0x1c + (i + k) * 4)) := by
  induction ts generalizing i k with
  | nil => simp [tableFrom]
  | cons t ts ih =>
    cases k with
    | zero => simp [tableFrom]
    | succ k =>
      simp only [tableFrom, List.getElem?_cons_succ, ih]
      rw [show i + 1 + k = i + (k + 1) by omega]

theorem findIdxLoop_eq (buf : Bytes) (t m i base : Nat) :
    findIdxLoop t m i =
      ((layoutFrom i base (tableFrom buf i (Nat.digits 16 m))).find? fun e => e.tag = t).map
        Placed.idx := by
  induction m using Nat.strongRecOn generalizing i base with
  | ind m ih =>
    rw [findIdxLoop]
    split
    · next h => simp [h, tableFrom, layoutFrom]
    · next h =>
      rw [digits_step h, tableFrom, layoutFrom, List.find?_cons]
      split
      · next ht => simp [ht]
      · next ht => simp only [ht, decide_false]; exact ih _ (shiftRight_lt h) _ _

theorem findOffsLoop_eq (buf : Bytes) (t m i base : Nat) :
    findOffsLoop buf t m base i =
      ((layoutFrom i base (tableFrom buf i (Nat.digits 16 m))).find? fun e => e.tag = t).map
        Placed.offs := by
  induction m using Nat.strongRecOn generalizing i base with
  | ind m ih =>
    rw [findOffsLoop]
    split
    · next h => simp [h, tableFrom, layoutFrom]
    · next h =>
      rw [digits_step h, tableFrom, layoutFrom, List.find?_cons]
      split
      · next ht => simp [ht]
      · next ht => simp only [ht, decide_false]; exact ih _ (shiftRight_lt h) _ _

/-- `find_idx` is a lookup in the table. -/
theorem findIdx_eq (t : Nat) (buf : Bytes) :
    findIdx t buf = (find t 0 (table buf)).map Placed.idx := by
  unfold findIdx find layout table
  by_cases hm : u16 buf 0x36 = 0
  · by_cases ht : t = 0
    · simp [hm, ht, layoutFrom]
    · simp [hm, ht, layoutFrom, findIdxLoop, Ne.symm ht]
  · simp only [hm, and_false, if_false]
    exact findIdxLoop_eq buf t _ 0 0

theorem findOffs_eq (t : Nat) (buf : Bytes) :
    findOffs t buf = (find t 0 (table buf)).map Placed.offs := by
  unfold findOffs find layout table
  by_cases hm : u16 buf 0x36 = 0
  · by_cases ht : t = 0
    · simp [hm, ht, layoutFrom]
    · simp [hm, ht, layoutFrom, findOffsLoop, Ne.symm ht]
  · simp only [hm, and_false, if_false]
    exact findOffsLoop_eq buf t _ 0 0

/-- Entry `k` takes its size from slot `k`. -/
theorem table_getElem?_eq (buf : Bytes) (k : Nat) :
    (table buf)[k]? =
      (if u16 buf 0x36 = 0 then [0] else Nat.digits 16 (u16 buf 0x36))[k]?.map
        fun t => (t, u32 buf (0x1c + k * 4)) := by
  unfold table
  split
  · cases k with
    | zero => rfl
    | succ k => simp
  · rw [tableFrom_getElem?, Nat.zero_add]

theorem table_getElem? {buf : Bytes} {k : Nat} {t n : Nat} (h : (table buf)[k]? = some (t, n)) :
    n = u32 buf (0x1c + k * 4) := by
  rw [table_getElem?_eq] at h
  obtain ⟨t', -, ht'⟩ := Option.map_eq_some_iff.mp h
  exact (congrArg Prod.snd ht').symm

theorem findSize_eq (t : Nat) (buf : Bytes) :
    findSize t buf = (find t 0 (table buf)).map Placed.size := by
  unfold findSize
  rw [findIdx_eq]
  cases h : find t 0 (table buf) with
  | none => rfl
  | some e =>
    simp only [Option.map_some]
    rw [← table_getElem? (find_spec h).1]

/-! ## The listing -/

/-- The listing loop over the table instead of the bytes. -/
def scan : List (Nat × Nat) → Listing → Listing
  | [], l => l
  | (t, n) :: T, l =>
    if n = 0 then { l with typeVal := t, sz := n }
    else
      scan T
        { typeVal := t, sz := n, i := l.i + 1, offs := l.offs + n,
          entries := l.entries ++ [⟨l.i, t, l.offs, n⟩] }

theorem listLoop_eq_scan (buf : Bytes) (m : Nat) (l : Listing) :
    listLoop buf m l = scan (tableFrom buf l.i (Nat.digits 16 m)) l := by
  induction m using Nat.strongRecOn generalizing l with
  | ind m ih =>
    rw [listLoop]
    split
    · next h => simp [h, tableFrom, scan]
    · next h =>
      rw [digits_step h, tableFrom, scan]
      split
      · next hn => simp only [hn, if_pos]
      · next hn => simp only [hn, if_false]; exact ih _ (shiftRight_lt h) _

/-- All overlays of the list have bytes. -/
def AllSized (T : List (Nat × Nat)) : Prop := ∀ p ∈ T, p.2 ≠ 0

theorem scan_append {T : List (Nat × Nat)} (hT : AllSized T) (U : List (Nat × Nat)) (l : Listing) :
    scan (T ++ U) l = scan U (scan T l) := by
  induction T generalizing l with
  | nil => rfl
  | cons p T ih =>
    obtain ⟨t, n⟩ := p
    have hn : n ≠ 0 := hT (t, n) (by simp)
    simp only [List.cons_append, scan, hn, if_false]
    exact ih (fun q hq => hT q (by simp [hq])) _

/-- Sized overlays are all listed, one after another. -/
theorem scan_sized {T : List (Nat × Nat)} (hT : AllSized T) (l : Listing) :
    (scan T l).i = l.i + T.length ∧ (scan T l).offs = l.offs + total T ∧
      (scan T l).entries = l.entries ++ layoutFrom l.i l.offs T := by
  induction T generalizing l with
  | nil => simp [scan, layoutFrom]
  | cons p T ih =>
    obtain ⟨t, n⟩ := p
    have hn : n ≠ 0 := hT (t, n) (by simp)
    simp only [scan, hn, if_false]
    obtain ⟨hi, ho, he⟩ := ih (fun q hq => hT q (by simp [hq]))
      ⟨t, n, l.i + 1, l.offs + n, l.entries ++ [⟨l.i, t, l.offs, n⟩]⟩
    dsimp only at hi ho
    refine ⟨?_, ?_, ?_⟩
    · rw [hi, List.length_cons]; omega
    · rw [ho, total_cons]; omega
    · rw [he, layoutFrom]; simp

/-- When every overlay has bytes, the loop leaves the last one in `type_val`
and `sz`. -/
theorem scan_last {T : List (Nat × Nat)} {t n : Nat} (hT : AllSized (T ++ [(t, n)]))
    (l : Listing) :
    (scan (T ++ [(t, n)]) l).typeVal = t ∧ (scan (T ++ [(t, n)]) l).sz = n := by
  have hn : n ≠ 0 := hT (t, n) (by simp)
  rw [scan_append (fun q hq => hT q (by simp [hq]))]
  simp [scan, hn]

/-- An overlay without bytes ends the loop and leaves its type in `type_val`. -/
theorem scan_stop {T U : List (Nat × Nat)} (hT : AllSized T) (t : Nat) (l : Listing) :
    scan (T ++ (t, 0) :: U) l = { scan T l with typeVal := t, sz := 0 } := by
  rw [scan_append hT]
  simp [scan]

/-- Every table is a run of sized overlays, then possibly one without bytes. -/
theorem sized_split (T : List (Nat × Nat)) :
    AllSized T ∨ ∃ U t V, T = U ++ (t, 0) :: V ∧ AllSized U := by
  induction T with
  | nil => exact Or.inl (by intro p hp; cases hp)
  | cons p T ih =>
    obtain ⟨t, n⟩ := p
    by_cases hn : n = 0
    · subst hn
      exact Or.inr ⟨[], t, T, rfl, by intro p hp; cases hp⟩
    · rcases ih with h | ⟨U, t', V, rfl, hU⟩
      · left
        intro q hq
        rcases List.mem_cons.mp hq with rfl | hq
        · exact hn
        · exact h q hq
      · right
        refine ⟨(t, n) :: U, t', V, rfl, ?_⟩
        intro q hq
        rcases List.mem_cons.mp hq with rfl | hq
        · exact hn
        · exact hU q hq

theorem listing_of_map {buf : Bytes} (h : u16 buf 0x36 ≠ 0) (offs : Nat) :
    listing buf offs = scan (table buf) ⟨0, 0, 0, offs, []⟩ := by
  simp only [listing, table, h, if_false]
  exact listLoop_eq_scan buf _ _

/-- A type map has four nibbles at most. -/
theorem table_length_le (buf : Bytes) : (table buf).length ≤ 4 := by
  unfold table
  split
  · simp
  · rw [tableFrom_length, Nat.digits_length_le_iff (by omega)]
    exact u16_lt buf 0x36

/-- Headers with the same type map and sizes have the same table. -/
theorem table_congr {a b : Bytes} (hm : u16 a 0x36 = u16 b 0x36)
    (hs : ∀ k < 4, u32 a (0x1c + k * 4) = u32 b (0x1c + k * 4)) : table a = table b := by
  have hlen := table_length_le a
  apply List.ext_getElem?
  intro k
  by_cases hk : k < 4
  · rw [table_getElem?_eq, table_getElem?_eq, hm, hs k hk]
  · have hb := table_length_le b
    rw [List.getElem?_eq_none (by omega), List.getElem?_eq_none (by omega)]

/-- Writing a slot changes the size of one overlay. -/
theorem table_patch_slot {buf : Bytes} (hl : 0x3c ≤ buf.length) {k n : Nat} (hk : k < 4)
    (hn : n < 2 ^ 32) :
    table (patch buf (0x1c + k * 4) (toBytes 4 n)) = (table buf).modify k fun e => (e.1, n) := by
  have h4 := toBytes_length 4 n
  have hm : u16 (patch buf (0x1c + k * 4) (toBytes 4 n)) 0x36 = u16 buf 0x36 := by
    rw [u16, slice_patch_of_disjoint (by omega) (by omega), u16]
  have hlen := table_length_le buf
  apply List.ext_getElem?
  intro j
  rw [List.getElem?_modify, table_getElem?_eq, table_getElem?_eq, hm, Option.map_eq_map,
    Option.map_map]
  by_cases hj : k = j
  · subst hj
    have hu : u32 (patch buf (0x1c + k * 4) (toBytes 4 n)) (0x1c + k * 4) = n := by
      have h1 := slice_patch_self (b := buf) (d := toBytes 4 n) (i := 0x1c + k * 4) (by omega)
      rw [h4] at h1
      rw [u32, h1]
      exact (fromBytes_toBytes (by omega))
    simp [hu, Function.comp_def]
  · by_cases hj4 : j < 4
    · have hu : u32 (patch buf (0x1c + k * 4) (toBytes 4 n)) (0x1c + j * 4) =
          u32 buf (0x1c + j * 4) := by
        rw [u32, slice_patch_of_disjoint (by omega) (by omega), u32]
      simp [hj, hu, Function.comp_def]
    · have hnone := List.getElem?_eq_none (l := table buf) (i := j) (by omega)
      rw [table_getElem?_eq, Option.map_eq_none_iff] at hnone
      simp [hnone]

/-- The listing stops behind the last overlay, or at the first one without
bytes. -/
theorem listing_split {buf : Bytes} (h : u16 buf 0x36 ≠ 0) :
    (∃ T t n, table buf = T ++ [(t, n)] ∧ AllSized (table buf) ∧ ∀ offs,
      listing buf offs = ⟨t, n, T.length + 1, offs + total T + n, layout offs (table buf)⟩) ∨
    (∃ T t U, table buf = T ++ (t, 0) :: U ∧ AllSized T ∧ ∀ offs,
      listing buf offs = ⟨t, 0, T.length, offs + total T, layout offs T⟩) := by
  rcases sized_split (table buf) with hT | ⟨T, t, U, hT, hU⟩
  · left
    rcases List.eq_nil_or_concat (table buf) with hn | ⟨T, ⟨t, n⟩, hc⟩
    · have hl : (table buf).length = (Nat.digits 16 (u16 buf 0x36)).length := by
        simp only [table, h, if_false, tableFrom_length]
      rw [hn] at hl
      exact absurd (Nat.digits_eq_nil_iff_eq_zero.mp (List.length_eq_zero_iff.mp hl.symm)) h
    · rw [List.concat_eq_append] at hc
      refine ⟨T, t, n, hc, hT, fun offs => ?_⟩
      obtain ⟨h1, h2, h3⟩ := scan_sized hT ⟨0, 0, 0, offs, []⟩
      have hT' := hT
      rw [hc] at hT'
      obtain ⟨h4, h5⟩ := scan_last hT' ⟨0, 0, 0, offs, []⟩
      rw [← hc] at h4 h5
      rw [listing_of_map h]
      generalize scan (table buf) ⟨0, 0, 0, offs, []⟩ = l at *
      obtain ⟨ty, sz, i, off, es⟩ := l
      simp only [List.nil_append] at h1 h2 h3 h4 h5
      subst h4 h5 h3
      rw [h1, h2, hc, layout]
      simp [Nat.add_assoc]
  · right
    refine ⟨T, t, U, hT, hU, fun offs => ?_⟩
    obtain ⟨h1, h2, h3⟩ := scan_sized hU ⟨0, 0, 0, offs, []⟩
    rw [listing_of_map h, hT, scan_stop hU]
    simp only [h1, h2, h3]
    simp [layout]

theorem listing_empty {buf : Bytes} (h : u16 buf 0x36 = 0) (offs : Nat) :
    listing buf offs = ⟨0, u32 buf 0x1c, 0, offs, layout offs (table buf)⟩ := by
  simp [listing, table, h, layout, layoutFrom, ObjType.value]

theorem listing_congr {a b : Bytes} (hm : u16 a 0x36 = u16 b 0x36)
    (hs : ∀ k < 4, u32 a (0x1c + k * 4) = u32 b (0x1c + k * 4)) (offs : Nat) :
    listing a offs = listing b offs := by
  have ht := table_congr hm hs
  have h0 : u32 a 0x1c = u32 b 0x1c := hs 0 (by decide)
  by_cases hz : u16 a 0x36 = 0
  · rw [listing_empty hz, listing_empty (hm ▸ hz), ht, h0]
  · rw [listing_of_map hz, listing_of_map (hm ▸ hz), ht]

/-- The listing counts its offsets from the given one. -/
theorem listing_offs (buf : Bytes) (offs : Nat) :
    (listing buf offs).typeVal = (listing buf 0).typeVal ∧
      (listing buf offs).sz = (listing buf 0).sz ∧ (listing buf offs).i = (listing buf 0).i ∧
      (listing buf offs).offs = offs + (listing buf 0).offs := by
  by_cases hm : u16 buf 0x36 = 0
  · rw [listing_empty hm, listing_empty hm]
    exact ⟨rfl, rfl, rfl, rfl⟩
  · rcases listing_split hm with ⟨T, t, n, -, -, hl⟩ | ⟨T, t, U, -, -, hl⟩
    · rw [hl offs, hl 0]
      exact ⟨rfl, rfl, rfl, by simp only; omega⟩
    · rw [hl offs, hl 0]
      exact ⟨rfl, rfl, rfl, by simp only; omega⟩

theorem listing_i_le (buf : Bytes) (offs : Nat) : (listing buf offs).i ≤ 4 := by
  have hlen := table_length_le buf
  by_cases hm : u16 buf 0x36 = 0
  · rw [listing_empty hm]; simp
  · rcases listing_split hm with ⟨T, t, n, hT, -, hl⟩ | ⟨T, t, U, hT, -, hl⟩
    · rw [hT] at hlen
      rw [hl]
      simpa using hlen
    · rw [hT, List.length_append, List.length_cons] at hlen
      rw [hl]
      simp only
      omega

end Djstub
