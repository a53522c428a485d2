import Djstub.Header

/-! The overlay listing of `coff2exe` against the lookups by type. Both read the
nibbles of the type map; the listing stops at a size of zero, the lookups do
not. -/

namespace Djstub

open Bytes Layout

/-! ## Nibbles of the type map -/

def nibble (typeMap k : Nat) : Nat := typeMap >>> (4 * k) % 16

/-- A type that the map names: one of its nibbles up to the highest one that is
not zero. An empty map names type 0. -/
def Names (typeMap t : Nat) : Prop :=
  if typeMap = 0 then t = 0 else ∃ k j, k ≤ j ∧ nibble typeMap j ≠ 0 ∧ nibble typeMap k = t

theorem nibble_eq_getD (m k : Nat) : nibble m k = (Nat.digits 16 m).getD k 0 := by
  have hpow : (2 : Nat) ^ (4 * k) = 16 ^ k := pow_mul 2 4 k
  rw [Nat.getD_digits m k (by decide), nibble, Nat.shiftRight_eq_div_pow, hpow]

/-- The digits end at the highest nibble that is not zero. -/
theorem lt_digits_length_iff {m k : Nat} :
    k < (Nat.digits 16 m).length ↔ ∃ j, k ≤ j ∧ nibble m j ≠ 0 := by
  constructor
  · intro hk
    have hne : Nat.digits 16 m ≠ [] := List.ne_nil_of_length_pos (by omega)
    have hlast := Nat.getLast_digit_ne_zero 16 (Nat.digits_ne_nil_iff_ne_zero.mp hne)
    refine ⟨(Nat.digits 16 m).length - 1, by omega, ?_⟩
    rw [nibble_eq_getD, List.getD_eq_getElem _ _ (by omega), ← List.getLast_eq_getElem]
    exact hlast
  · rintro ⟨j, hkj, hj⟩
    by_contra hk
    rw [nibble_eq_getD, List.getD_eq_default _ _ (by omega)] at hj
    exact hj rfl

theorem digits_getElem?_iff {m k t : Nat} :
    (Nat.digits 16 m)[k]? = some t ↔ (∃ j, k ≤ j ∧ nibble m j ≠ 0) ∧ nibble m k = t := by
  rw [← lt_digits_length_iff, nibble_eq_getD, List.getElem?_eq_some_iff]
  constructor
  · rintro ⟨hk, ht⟩
    exact ⟨hk, (List.getD_eq_getElem _ _ hk).trans ht⟩
  · rintro ⟨hk, ht⟩
    exact ⟨hk, (List.getD_eq_getElem _ _ hk).symm.trans ht⟩

theorem nibble_zero (k : Nat) : nibble 0 k = 0 := by
  rw [nibble, Nat.zero_shiftRight]

/-- The types in the table are the nibbles. -/
theorem table_tag {h : Bytes} {k t n : Nat} (ht : (table h)[k]? = some (t, n)) :
    nibble (u16 h 0x36) k = t := by
  rw [table_getElem?_eq] at ht
  obtain ⟨t', ht', heq⟩ := Option.map_eq_some_iff.mp ht
  obtain ⟨rfl, -⟩ := Prod.mk.inj heq
  split at ht'
  · next h0 =>
    rw [h0, nibble_zero]
    cases k with
    | zero => exact Option.some.inj ht'
    | succ k => cases ht'
  · exact (digits_getElem?_iff.mp ht').2

theorem table_names {h : Bytes} {t : Nat} :
    (∃ (k : Nat) (p : Nat × Nat), (table h)[k]? = some p ∧ p.1 = t) ↔ Names (u16 h 0x36) t := by
  simp only [table_getElem?_eq, Names]
  split
  · next h0 =>
    constructor
    · rintro ⟨k, p, hp, rfl⟩
      cases k with
      | zero =>
        cases hp
        rfl
      | succ k => cases hp
    · rintro rfl
      exact ⟨0, _, rfl, rfl⟩
  · constructor
    · rintro ⟨k, p, hp, rfl⟩
      obtain ⟨t, ht, rfl⟩ := Option.map_eq_some_iff.mp hp
      obtain ⟨⟨j, hkj, hj⟩, hk⟩ := digits_getElem?_iff.mp ht
      exact ⟨k, j, hkj, hj, hk⟩
    · rintro ⟨k, j, hkj, hj, hk⟩
      have ht := digits_getElem?_iff.mpr ⟨⟨j, hkj, hj⟩, hk⟩
      exact ⟨k, _, by rw [ht]; rfl, rfl⟩

/-! ## Listing and lookups -/

/-- Every entry of the listing stands in the table. -/
theorem listing_entry {h : Bytes} {offs : Nat} {e : Placed Nat}
    (he : e ∈ (listing h offs).entries) :
    (table h)[e.idx]? = some (e.tag, e.size) ∧ e.offs = offs + total ((table h).take e.idx) := by
  have hlayout (T U : List (Nat × Nat)) (hT : table h = T ++ U) (hmem : e ∈ layout offs T) :
      (table h)[e.idx]? = some (e.tag, e.size) ∧ e.offs = offs + total ((table h).take e.idx) := by
    obtain ⟨k, hk⟩ := List.getElem?_of_mem hmem
    rw [layout_getElem?] at hk
    obtain ⟨p, hp, rfl⟩ := Option.map_eq_some_iff.mp hk
    have hlt := (List.getElem?_eq_some_iff.mp hp).1
    rw [hT]
    dsimp only
    rw [List.getElem?_append_left hlt, List.take_append_of_le_length (Nat.le_of_lt hlt)]
    exact ⟨hp, rfl⟩
  by_cases hm : u16 h 0x36 = 0
  · rw [listing_empty hm] at he
    exact hlayout (table h) [] (List.append_nil _).symm he
  · rcases listing_split hm with ⟨T, t, n, -, -, hl⟩ | ⟨T, t, U, hT, -, hl⟩
    · rw [hl] at he
      exact hlayout (table h) [] (List.append_nil _).symm he
    · rw [hl] at he
      exact hlayout T ((t, 0) :: U) hT he

theorem lookups_eq_none_iff (t : Nat) (h : Bytes) :
    (findIdx t h = none ↔ ¬ Names (u16 h 0x36) t) ∧
      (findSize t h = none ↔ ¬ Names (u16 h 0x36) t) ∧
      (findOffs t h = none ↔ ¬ Names (u16 h 0x36) t) := by
  have hnone : find t 0 (table h) = none ↔ ¬ Names (u16 h 0x36) t := by
    rw [find_eq_none_iff, ← table_names]
    simp only [not_exists, not_and, ne_eq]
  rw [findIdx_eq, findSize_eq, findOffs_eq, Option.map_eq_none_iff, Option.map_eq_none_iff,
    Option.map_eq_none_iff]
  exact ⟨hnone, hnone, hnone⟩

/-- Entries that are the first ones of their type are what the lookups find, and
the lookups find nothing exactly for types that the map does not name. -/
theorem listing_lookups_agree (h : Bytes) :
    (∀ e ∈ (listing h (u32 h 0x3c)).entries, nibble (u16 h 0x36) e.idx = e.tag ∧
      ((∀ k < e.idx, nibble (u16 h 0x36) k ≠ e.tag) →
        findIdx e.tag h = some e.idx ∧ (findOffs e.tag h).map (u32 h 0x3c + ·) = some e.offs ∧
          findSize e.tag h = some e.size)) ∧
      ∀ t, (findIdx t h = none ↔ ¬ Names (u16 h 0x36) t) ∧
        (findSize t h = none ↔ ¬ Names (u16 h 0x36) t) ∧
        (findOffs t h = none ↔ ¬ Names (u16 h 0x36) t) := by
  refine ⟨fun e he => ?_, fun t => lookups_eq_none_iff t h⟩
  obtain ⟨hentry, hoffs⟩ := listing_entry he
  refine ⟨table_tag hentry, fun hfirst => ?_⟩
  have hfind := find_of_first hentry (fun k hk p hp => by
    rw [← table_tag hp]
    exact hfirst k hk) 0
  rw [findIdx_eq, findOffs_eq, findSize_eq, hfind]
  refine ⟨rfl, ?_, rfl⟩
  rw [hoffs, Option.map_some, Option.map_some, Nat.zero_add]

/-- A map with an inner zero nibble, whose third overlay has no bytes. -/
def gapHeader : Bytes :=
  List.replicate 0x1c 0 ++ [5, 0, 0, 0, 6, 0, 0, 0] ++ List.replicate 18 0 ++ [0x02, 0x34] ++
    List.replicate 8 0

theorem listing_lookups_agree_gap :
    (findIdx 0 gapHeader = some 1 ∧ (findOffs 0 gapHeader).map (0 + ·) = some 5 ∧
      findSize 0 gapHeader = some 6) ∧ findIdx 5 gapHeader = none := by
  have hmap : u16 gapHeader 0x36 = 0x3402 := by decide +kernel
  have hlisted : (⟨1, 0, 5, 6⟩ : Placed Nat) ∈ (listing gapHeader (u32 gapHeader 0x3c)).entries := by
    decide +kernel
  have hfirst : ∀ k < 1, nibble (u16 gapHeader 0x36) k ≠ 0 := by
    rw [hmap]
    decide
  have hnames : ¬ Names (u16 gapHeader 0x36) 5 := by
    rw [← table_names]
    rintro ⟨k, p, hp, hp5⟩
    have hall : ∀ p ∈ table gapHeader, p.1 ≠ 5 := by decide +kernel
    exact hall p (List.mem_of_getElem? hp) hp5
  obtain ⟨hlist, hnone⟩ := listing_lookups_agree gapHeader
  exact ⟨(hlist _ hlisted).2 hfirst, (hnone 5).1.mpr hnames⟩

/-- Listed are the first two, found are all four. -/
example : (listing gapHeader 0).entries = [⟨0, 2, 0, 5⟩, ⟨1, 0, 5, 6⟩] ∧
    [2, 0, 4, 3].map (fun t => findOffs t gapHeader) = [some 0, some 5, some 11, some 11] := by
  decide +kernel

end Djstub
