import Djstub.Pack

/-! What `-g` makes of any sequence of `-t` and `-l`, and what it leaves of the
template. `-t` adds to the type map where the next overlay goes, and stays in
force for all overlays that follow. -/

namespace Djstub

open Bytes Layout Loop

/-! ## Nibbles -/

theorem testBit_nibble (n s b : Nat) :
    (n >>> s % 16).testBit b = (decide (b < 4) && n.testBit (s + b)) := by
  rw [show 16 = 2 ^ 4 from rfl, Nat.testBit_mod_two_pow, Nat.testBit_shiftRight]

theorem nibble_eq_iff {n s v : Nat} (hv : v < 16) :
    n >>> s % 16 = v ↔ ∀ b < 4, n.testBit (s + b) = v.testBit b := by
  constructor
  · rintro rfl b hb
    rw [testBit_nibble]
    simp [hb]
  · intro hall
    apply Nat.eq_of_testBit_eq
    intro b
    rw [testBit_nibble]
    by_cases hb : b < 4
    · simp [hb, hall b hb]
    · have hlt : v < 2 ^ b :=
        Nat.lt_of_lt_of_le hv (Nat.pow_le_pow_right (n := 2) (by decide) (by omega : 4 ≤ b))
      simp [hb, Nat.testBit_lt_two_pow hlt]

theorem nibble_lor_iff {n s v : Nat} :
    n >>> s % 16 ||| v = v ↔ ∀ b < 4, n.testBit (s + b) = true → v.testBit b = true := by
  constructor
  · intro h b hb hn
    rw [← h, Nat.testBit_or, testBit_nibble]
    simp [hb, hn]
  · intro hall
    apply Nat.eq_of_testBit_eq
    intro b
    rw [Nat.testBit_or, testBit_nibble]
    by_cases hb : b < 4
    · cases hn : n.testBit (s + b) with
      | false => simp
      | true => simp [hall b hb hn]
    · simp [hb]

/-- A map that has not become negative is that of naturals. -/
theorem lor_shift {a v : Int} {s : Nat} (h : 0 ≤ a.lor (v * 2 ^ s)) :
    0 ≤ a ∧ ∀ j, (a.lor (v * 2 ^ s)).toNat.testBit j =
      (a.toNat.testBit j || (decide (s ≤ j) && v.toNat.testBit (j - s))) := by
  obtain ⟨ha, hb⟩ := lor_nonneg h
  have hv : 0 ≤ v := nonneg_of_mul_nonneg_left hb (by positivity)
  lift a to Nat using ha
  lift v to Nat using hv
  refine ⟨Int.natCast_nonneg a, fun j => ?_⟩
  have hcast : Int.lor (a : Int) ((v : Int) * 2 ^ s) = ((a ||| v * 2 ^ s : Nat) : Int) := by
    rw [show (v : Int) * 2 ^ s = ((v * 2 ^ s : Nat) : Int) by push_cast; rfl]
    rfl
  rw [hcast, Int.toNat_natCast, Int.toNat_natCast, Int.toNat_natCast, Nat.testBit_or,
    Nat.testBit_mul_two_pow]

/-! ## The types in front of each overlay -/

section
variable {π : Type}

def isOverlay : Opt π → Bool
  | .l _ => true
  | _ => false

/-- The values given by `-t`. -/
def typeVals (os : List (Opt π)) : List Int :=
  os.filterMap fun o =>
    match o with
    | .t v => some (v.getD 0)
    | _ => none

/-- The values in front of each `-l`, and those behind the last one. -/
def typeGroups (os : List (Opt π)) : List (List Int) := (os.splitOnP isOverlay).map typeVals

theorem typeGroups_l (p : π) (os : List (Opt π)) :
    typeGroups (.l p :: os) = [] :: typeGroups os := by
  have hp : isOverlay (.l p) = true := rfl
  rw [typeGroups, List.splitOnP_cons_eq_if_modifyHead, if_pos hp]
  rfl

theorem typeGroups_cons {o : Opt π} (ho : isOverlay o = false) (os : List (Opt π)) :
    typeGroups (o :: os) = (typeGroups os).modifyHead (typeVals [o] ++ ·) := by
  rw [typeGroups, typeGroups, List.splitOnP_cons_eq_if_modifyHead, ho, if_neg (by simp)]
  cases os.splitOnP isOverlay with
  | nil => rfl
  | cons g gs =>
    have hcons : typeVals (o :: g) = typeVals [o] ++ typeVals g := by
      rw [typeVals, typeVals, typeVals, ← List.filterMap_append]
      rfl
    simp [hcons]

theorem typeGroups_other {o : Opt π} (ho : isLink o = false) (os : List (Opt π)) :
    typeGroups (o :: os) = typeGroups os := by
  have hov : isOverlay o = false ∧ typeVals [o] = [] := by
    cases o with
    | l p => cases ho
    | t v => cases ho
    | _ => exact ⟨rfl, rfl⟩
  rw [typeGroups_cons hov.1, hov.2]
  cases typeGroups os <;> rfl

theorem typeGroups_ne_nil (os : List (Opt π)) : typeGroups os ≠ [] := by
  simp [typeGroups]

/-- Some value of the groups sets bit `j`; the first group is shifted by `s`. -/
def Marks : List (List Int) → Nat → Nat → Prop
  | [], _, _ => False
  | ts :: gs, s, j => (∃ x ∈ ts, s ≤ j ∧ x.toNat.testBit (j - s) = true) ∨ Marks gs (s + 4) j

theorem marks_iff {gs : List (List Int)} {s j : Nat} : Marks gs s j ↔
    ∃ k ts x, gs[k]? = some ts ∧ x ∈ ts ∧ s + 4 * k ≤ j ∧
      x.toNat.testBit (j - (s + 4 * k)) = true := by
  induction gs generalizing s with
  | nil => simp [Marks]
  | cons ts gs ih =>
    rw [Marks, ih]
    constructor
    · rintro (⟨x, hx, hle, hb⟩ | ⟨k, us, x, hk, hx, hle, hb⟩)
      · exact ⟨0, ts, x, rfl, hx, hle, hb⟩
      · have hs : s + 4 * (k + 1) = s + 4 + 4 * k := by omega
        exact ⟨k + 1, us, x, hk, hx, by rw [hs]; exact hle, by rw [hs]; exact hb⟩
    · rintro ⟨k, us, x, hk, hx, hle, hb⟩
      cases k with
      | zero =>
        cases hk
        exact .inl ⟨x, hx, hle, hb⟩
      | succ k =>
        have hs : s + 4 * (k + 1) = s + 4 + 4 * k := by omega
        rw [hs] at hle hb
        exact .inr ⟨k, us, x, hk, hx, hle, hb⟩

theorem marks_modifyHead {gs : List (List Int)} (hne : gs ≠ []) (us : List Int) (s j : Nat) :
    Marks (gs.modifyHead (us ++ ·)) s j ↔
      (∃ x ∈ us, s ≤ j ∧ x.toNat.testBit (j - s) = true) ∨ Marks gs s j := by
  cases gs with
  | nil => exact absurd rfl hne
  | cons ts gs =>
    simp only [List.modifyHead_cons, Marks, List.mem_append, or_and_right, exists_or, or_assoc]

/-- The type map at the end of the option loop. -/
theorem options_typeMap {d : Disk π} {m m' : Globals π} {os : List (Opt π)}
    (h : options d m os = .ok m') (h0 : 0 ≤ m'.typeMap) :
    0 ≤ m.typeMap ∧ ∀ j, m'.typeMap.toNat.testBit j = true ↔
      m.typeMap.toNat.testBit j = true ∨ Marks (typeGroups os) m.typeShift j := by
  induction os generalizing m with
  | nil =>
    cases h
    refine ⟨h0, fun j => ?_⟩
    simp [typeGroups, typeVals, Marks]
  | cons o os ih =>
    obtain ⟨m1, h1, h2⟩ := options_cons h
    obtain ⟨hpos, hbits⟩ := ih h2
    cases hl : isLink o with
    | false =>
      -- neither the map nor the shift has changed
      obtain ⟨-, hmap, -, hshift⟩ : m1.overlay = m.overlay ∧ m1.typeMap = m.typeMap ∧
          m1.typeVal = m.typeVal ∧ m1.typeShift = m.typeShift := by
        simpa [Globals.links] using option_other h1 hl
      rw [hmap, hshift] at hbits
      rw [hmap] at hpos
      rw [typeGroups_other hl]
      exact ⟨hpos, hbits⟩
    | true =>
      cases o with
      | l p =>
        obtain ⟨-, rfl⟩ := option_l.mp h1
        refine ⟨hpos, fun j => ?_⟩
        rw [hbits, typeGroups_l, Marks]
        simp
      | t v =>
        obtain ⟨-, rfl⟩ := option_t.mp h1
        obtain ⟨hpos', hbits'⟩ := lor_shift hpos
        refine ⟨hpos', fun j => ?_⟩
        have hv : typeVals [(.t v : Opt π)] = [v.getD 0] := rfl
        rw [hbits, typeGroups_cons rfl, marks_modifyHead (typeGroups_ne_nil os), hbits', hv]
        simp [or_assoc]
      | _ => cases hl

/-- Every overlay has a type of its own in 1..15, the last one in front of it, and
no value so far has a bit there that this type lacks. -/
def TypesApart (gs : List (List Int)) : Prop :=
  ∀ i ts, gs[i]? = some ts → ∃ v : Int, ts.getLast? = some v ∧ 1 ≤ v ∧ v ≤ 15 ∧
    ∀ k us, k ≤ i → gs[k]? = some us → ∀ u ∈ us, u.toNat >>> (4 * (i - k)) % 16 ||| v.toNat = v.toNat

/-- The nibble of each overlay in a type map is the last type in front of it. -/
def TypesKept (map : Nat) (gs : List (List Int)) : Prop :=
  ∀ i ts, gs[i]? = some ts → ∃ v : Int, ts.getLast? = some v ∧ 1 ≤ v ∧ v ≤ 15 ∧
    ((map >>> (4 * i) % 16 : Nat) : Int) = v

theorem nibble_marks_iff {map i : Nat} {gs : List (List Int)}
    (hmap : ∀ j, map.testBit j = true ↔ Marks gs 0 j) {ts : List Int} (hts : gs[i]? = some ts)
    {v : Int} (hv : v ∈ ts) (h0 : 0 ≤ v) (h15 : v ≤ 15) :
    ((map >>> (4 * i) % 16 : Nat) : Int) = v ↔ ∀ k us, k ≤ i → gs[k]? = some us →
      ∀ u ∈ us, u.toNat >>> (4 * (i - k)) % 16 ||| v.toNat = v.toNat := by
  have hcast : ((map >>> (4 * i) % 16 : Nat) : Int) = v ↔ map >>> (4 * i) % 16 = v.toNat := by
    omega
  rw [hcast, nibble_eq_iff (by omega)]
  constructor
  · intro hall k us hk hus u hu
    refine nibble_lor_iff.mpr fun b hb hbit => ?_
    rw [← hall b hb, hmap, marks_iff]
    refine ⟨k, us, u, hus, hu, by omega, ?_⟩
    rw [show 4 * i + b - (0 + 4 * k) = 4 * (i - k) + b by omega]
    exact hbit
  · intro hall b hb
    rw [Bool.eq_iff_iff, hmap, marks_iff]
    constructor
    · rintro ⟨k, us, u, hus, hu, hle, hbit⟩
      rw [show 4 * i + b - (0 + 4 * k) = 4 * (i - k) + b by omega] at hbit
      exact nibble_lor_iff.mp (hall k us (by omega) hus u hu) b hb hbit
    · intro hbit
      refine ⟨i, ts, v, hts, hv, by omega, ?_⟩
      rw [show 4 * i + b - (0 + 4 * i) = b by omega]
      exact hbit

theorem typesKept_iff {map : Nat} {gs : List (List Int)}
    (hmap : ∀ j, map.testBit j = true ↔ Marks gs 0 j) :
    TypesKept map gs.dropLast ↔ TypesApart gs.dropLast := by
  have hdrop {k i : Nat} (hk : k ≤ i) (hi : i < gs.dropLast.length) : gs.dropLast[k]? = gs[k]? := by
    rw [List.getElem?_dropLast, if_pos (by rw [List.length_dropLast] at hi; omega)]
  refine forall_congr' fun i => forall_congr' fun ts => forall_congr' fun hts => ?_
  have hi := (List.getElem?_eq_some_iff.mp hts).1
  refine exists_congr fun v => and_congr_right fun hlast => and_congr_right fun h1 =>
    and_congr_right fun h15 => ?_
  rw [hdrop (Nat.le_refl i) hi] at hts
  rw [nibble_marks_iff hmap hts (List.mem_of_getLast? hlast) (by omega) h15]
  refine forall_congr' fun k => forall_congr' fun us => forall_congr' fun hk => ?_
  rw [hdrop hk hi]

variable [DecidableEq π] {fuel : Nat} {d d' : Disk π} {opts : List (Opt π)} {args : List π}
  {m : Globals π} {oname : π}

/-- A run of `-g` that returns 0 keeps the types of its overlays, exactly if they
are given apart. -/
theorem types_kept_iff (hrun : main fuel d opts args = some (.ret 0, d'))
    (hm : options d Globals.init opts = .ok m) (hg : m.generate = true) (ho : m.oname = some oname) :
    ∃ g, d'.files oname = some g ∧ (TypesKept (u16 g 0x36) (typeGroups opts).dropLast ↔
      TypesApart (typeGroups opts).dropLast) := by
  obtain ⟨start, g, hd', hgen⟩ := main_generate hrun hm hg ho
  obtain ⟨-, htm, -, -⟩ := hgen.fields
  refine ⟨g, hd', typesKept_iff fun j => ?_⟩
  obtain ⟨-, hbits⟩ := options_typeMap hm (by omega)
  have hmap : u16 g 0x36 = m.typeMap.toNat := by omega
  rw [hmap, hbits]
  simp [Globals.init]

end

/-- `-t 1`, then two overlays. -/
def sharedType : List (Opt Nat) := [.S 0, .g, .o (some 9), .t (some 1), .l 1, .l 2]

/-- The second overlay has no type: its nibble is 0. -/
theorem types_dropped :
    ∃ d' m g, main 0 packDisk sharedType [] = some (.ret 0, d') ∧
      options packDisk Globals.init sharedType = .ok m ∧ m.generate = true ∧ m.oname = some 9 ∧
      d'.files 9 = some g ∧ ¬ TypesKept (u16 g 0x36) (typeGroups sharedType).dropLast := by
  have hrun : (main 0 packDisk sharedType []).map (fun r => (r.1, (r.2.files 9).isSome)) =
      some (.ret 0, true) := by decide +kernel
  obtain ⟨d', hmain, hsome⟩ := main_of_map Option.isSome hrun
  obtain ⟨g, hg⟩ := Option.isSome_iff_exists.mp hsome
  refine ⟨d', _, g, hmain, rfl, rfl, rfl, hg, fun hkept => ?_⟩
  obtain ⟨v, hv, -⟩ := hkept 1 [] (by decide)
  cases hv

theorem types_kept_one :
    ∃ d' g, main 0 packDisk (packOpts 1) [] = some (.ret 0, d') ∧ d'.files 9 = some g ∧
      TypesKept (u16 g 0x36) (typeGroups (packOpts 1)).dropLast := by
  have hrun : (main 0 packDisk (packOpts 1) []).map (fun r => (r.1, r.2.files 8)) =
      some (.ret 0, none) := by decide +kernel
  obtain ⟨d', hmain, -⟩ := main_of_map id hrun
  obtain ⟨g, hg, hiff⟩ := types_kept_iff hmain rfl rfl rfl
  refine ⟨d', g, hmain, hg, hiff.mpr ?_⟩
  have hgroups : (typeGroups (packOpts 1)).dropLast = [[1]] := by decide
  rw [hgroups]
  intro i ts hts
  obtain ⟨rfl, rfl⟩ : i = 0 ∧ [1] = ts := by
    cases i with
    | zero => exact ⟨rfl, Option.some.inj hts⟩
    | succ i => cases hts
  refine ⟨1, rfl, by decide, by decide, fun k us hk hus u hu => ?_⟩
  obtain rfl : k = 0 := by omega
  cases hus
  rw [List.mem_singleton.mp hu]
  rfl

/-! ## The template -/

section
variable {π : Type}

/-- The files given by `-l`. -/
def linked (os : List (Opt π)) : List π :=
  os.filterMap fun o =>
    match o with
    | .l p => some p
    | _ => none

theorem options_linked {d : Disk π} {m m' : Globals π} {os : List (Opt π)}
    (h : options d m os = .ok m') : m'.overlay = m.overlay ++ linked os := by
  induction os generalizing m with
  | nil =>
    cases h
    simp [linked]
  | cons o os ih =>
    obtain ⟨m1, h1, h2⟩ := options_cons h
    rw [ih h2]
    cases hl : isLink o with
    | false =>
      have hover : m1.overlay = m.overlay := congrArg Prod.fst (option_other h1 hl)
      have hlinked : linked (o :: os) = linked os := by
        cases o with
        | l p => cases hl
        | t v => cases hl
        | _ => rfl
      rw [hover, hlinked]
    | true =>
      cases o with
      | l p =>
        obtain ⟨-, rfl⟩ := option_l.mp h1
        simp [linked]
      | t v =>
        obtain ⟨-, rfl⟩ := option_t.mp h1
        rfl
      | _ => cases hl

/-- The file starts with the template, but for the bytes 0x1c to 0x3f. -/
def KeepsStub (start g : Bytes) : Prop :=
  ∀ k < start.length, k < 0x1c ∨ 0x40 ≤ k → g[k]? = start[k]?

/-- Sizes written from 0x1c on keep what lies behind the header, exactly if they
have been there. -/
theorem sizes_keep_iff {start : Bytes} {cs : List Bytes} (hin : 0x1c + cs.length * 4 ≤ start.length) :
    (∀ k, 0x40 ≤ k → (patch start 0x1c (sizeBytes cs))[k]? = start[k]?) ↔
      ∀ i c, 9 ≤ i → cs[i]? = some c → slice start (0x1c + i * 4) 4 = toBytes 4 c.length := by
  have hlen := sizeBytes_length cs
  constructor
  · intro hkeep i c hi hc
    have hlt := (List.getElem?_eq_some_iff.mp hc).1
    have hinside : slice (patch start 0x1c (sizeBytes cs)) (0x1c + i * 4) 4 =
        slice (sizeBytes cs) (i * 4) 4 :=
      slice_patch_inside (by omega) (by omega)
    rw [← sizeBytes_slice hc, ← hinside]
    exact slice_congr fun k _ => (hkeep (0x1c + i * 4 + k) (by omega)).symm
  · intro hslots k hk
    rw [patch_getElem? (by omega)]
    split
    · next hsize =>
      have hlt : (k - 0x1c) / 4 < cs.length := by omega
      have hslot := hslots ((k - 0x1c) / 4) _ (by omega) (List.getElem?_eq_getElem hlt)
      rw [← sizeBytes_slice (List.getElem?_eq_getElem hlt)] at hslot
      have hbyte := congrArg (fun b => b[(k - 0x1c) % 4]?) hslot
      simp only [slice_getElem?, if_pos (Nat.mod_lt (k - 0x1c) (by decide : 0 < 4))] at hbyte
      rw [show 0x1c + (k - 0x1c) / 4 * 4 + (k - 0x1c) % 4 = k by omega,
        show (k - 0x1c) / 4 * 4 + (k - 0x1c) % 4 = k - 0x1c by omega] at hbyte
      exact hbyte.symm
    · rfl

variable [DecidableEq π] {fuel : Nat} {d d' : Disk π} {opts : List (Opt π)} {args : List π}
  {m : Globals π} {oname : π}

/-- A run of `-g` that returns 0 keeps the code of its template, exactly if every
size from the tenth overlay on is what the template has in its place. -/
theorem template_intact_iff (hrun : main fuel d opts args = some (.ret 0, d'))
    (hm : options d Globals.init opts = .ok m) (hg : m.generate = true) (ho : m.oname = some oname) :
    ∃ start g, m.start = some start ∧ d'.files oname = some g ∧ (KeepsStub start g ↔
      ∀ i p c, 9 ≤ i → (linked opts)[i]? = some p → d.files p = some c →
        slice start (0x1c + i * 4) 4 = toBytes 4 c.length) := by
  obtain ⟨start, g, hd', hgen⟩ := main_generate hrun hm hg ho
  refine ⟨start, g, hgen.template, hd', ?_⟩
  have h40 := hgen.accepted.1
  obtain ⟨sized, header, cs', hsz, hh, -, rfl⟩ := hgen.content
  obtain ⟨cs, hcs, -, hin, rfl⟩ := writeSizes_ok (by omega) hsz
  rw [Nat.zero_add] at hin
  have hlen := sizeBytes_length cs
  have hpl := patch_length (b := start) (d := sizeBytes cs) (i := 0x1c) (by omega)
  have hf := writeFields_ok hh
  have hhl : header.length = start.length := hf.length.trans hpl
  -- in front of the sizes nothing is written
  have hlow (k : Nat) (hk : k < 0x1c) : header[k]? = start[k]? := by
    have hs := hf.low k 1 (by omega)
    have hbyte := congrArg (fun b => b[0]?) hs
    simp only [slice_getElem?, Nat.lt_one_iff, if_true, Nat.add_zero] at hbyte
    rw [hbyte, patch_getElem? (by omega), if_neg (by omega)]
  have hhigh (k : Nat) (hk : 0x40 ≤ k) : header[k]? = (patch start 0x1c (sizeBytes cs))[k]? :=
    writeFields_high hh hk
  have hkeep : KeepsStub start (header ++ cs'.flatten) ↔
      ∀ k, 0x40 ≤ k → (patch start 0x1c (sizeBytes cs))[k]? = start[k]? := by
    constructor
    · intro h k hk
      by_cases hlt : k < start.length
      · rw [← hhigh k hk, ← h k hlt (.inr hk), List.getElem?_append_left (by omega)]
      · rw [List.getElem?_eq_none (by omega), List.getElem?_eq_none (by omega)]
    · intro h k hlt hk
      rw [List.getElem?_append_left (by omega)]
      rcases hk with hk | hk
      · exact hlow k hk
      · exact (hhigh k hk).trans (h k hk)
  have hover : linked opts = m.overlay := by
    rw [options_linked hm]
    rfl
  have hat (i : Nat) : (m.overlay[i]?).map d.files = (cs[i]?).map some := by
    rw [← List.getElem?_map, hcs, List.getElem?_map]
  rw [hkeep, sizes_keep_iff hin, hover]
  constructor
  · intro hall i p c hi hp hc
    have hci := hat i
    rw [hp, Option.map_some, hc] at hci
    obtain ⟨c', hc', hcc⟩ := Option.map_eq_some_iff.mp hci.symm
    exact hall i c hi (hc'.trans hcc)
  · intro hall i c hi hc
    have hci := hat i
    rw [hc, Option.map_some] at hci
    obtain ⟨p, hp, hpc⟩ := Option.map_eq_some_iff.mp hci
    exact hall i p c hi hp hpc

end

/-- `packDisk` with a template of four bytes of code. -/
def codeDisk : Disk Nat :=
  { packDisk with files := fun p => [bareTemplate ++ [0x90, 0x90, 0x90, 0x90], coffImage][p]? }

/-- `-t 1`, then `n` overlays. -/
def manyOverlays (n : Nat) : List (Opt Nat) :=
  [.S 0, .g, .o (some 9), .t (some 1)] ++ List.replicate n (.l 1)

/-- The size of the tenth overlay replaces the first code. -/
theorem tenth_size_in_code :
    ∃ d' m start g, main 0 codeDisk (manyOverlays 10) [] = some (.ret 0, d') ∧
      options codeDisk Globals.init (manyOverlays 10) = .ok m ∧ m.generate = true ∧
      m.oname = some 9 ∧ m.start = some start ∧ d'.files 9 = some g ∧ ¬ KeepsStub start g := by
  have hrun : (main 0 codeDisk (manyOverlays 10) []).map
      (fun r => (r.1, (r.2.files 9).map fun g => g[0x40]?)) = some (.ret 0, some (some 0x40)) := by
    decide +kernel
  obtain ⟨d', hmain, hsome⟩ := main_of_map (Option.map fun g => g[0x40]?) hrun
  obtain ⟨g, hg, hbyte⟩ := Option.map_eq_some_iff.mp hsome
  refine ⟨d', _, _, g, hmain, rfl, rfl, rfl, rfl, hg, fun hkeep => ?_⟩
  have hcode := hkeep 0x40 (by decide) (.inr (by decide))
  rw [hbyte] at hcode
  exact absurd hcode (by decide)

theorem template_intact_nine :
    ∃ d' start g, main 0 codeDisk (manyOverlays 9) [] = some (.ret 0, d') ∧
      d'.files 9 = some g ∧ KeepsStub start g := by
  have hrun : (main 0 codeDisk (manyOverlays 9) []).map (fun r => (r.1, r.2.files 8)) =
      some (.ret 0, none) := by decide +kernel
  obtain ⟨d', hmain, -⟩ := main_of_map id hrun
  obtain ⟨start, g, -, hg, hiff⟩ := template_intact_iff hmain rfl rfl rfl
  refine ⟨d', start, g, hmain, hg, hiff.mpr fun i p c hi hp => ?_⟩
  have hlen : (linked (manyOverlays 9)).length = 9 := by decide
  rw [List.getElem?_eq_none (by omega)] at hp
  cases hp

end Djstub
