import Djstub.Pack

/-! What `coff2exe` reads back from a generated file: the overlays in its listing,
and whether it accepts the file at all. -/

namespace Djstub

open Bytes Layout Loop

section
variable {g : Bytes}

/-- The nibbles of a type map: those of the overlays, and some above them. -/
theorem digits_types {ts : List Nat} (hts : ∀ t ∈ ts, 1 ≤ t ∧ t ≤ 15) (high : Nat) :
    Nat.digits 16 (Nat.ofDigits 16 ts + 16 ^ ts.length * high) = ts ++ Nat.digits 16 high := by
  rw [← Nat.ofDigits_digits 16 high, ← Nat.ofDigits_append, Nat.ofDigits_digits]
  refine Nat.digits_ofDigits 16 (by decide) _ (fun t ht => ?_) fun hne => ?_
  · rcases List.mem_append.mp ht with ht | ht
    · have := (hts t ht).2
      omega
    · exact Nat.digits_lt_base (by decide) ht
  · by_cases h0 : Nat.digits 16 high = []
    · have hts' : ts ≠ [] := fun h => hne (by rw [h, h0]; rfl)
      rw [List.getLast_append_left hne h0]
      have := (hts _ (List.getLast_mem hts')).1
      omega
    · rw [List.getLast_append_right h0]
      exact Nat.getLast_digit_ne_zero 16 (Nat.digits_ne_nil_iff_ne_zero.mp h0)

/-- Every type in 1..15 takes a nibble, so a type map of 16 bits holds four. -/
theorem types_length_le {ts : List Nat} (hts : ∀ t ∈ ts, 1 ≤ t ∧ t ≤ 15) {high : Nat}
    (h16 : Nat.ofDigits 16 ts + 16 ^ ts.length * high < 2 ^ 16) :
    ts.length + (Nat.digits 16 high).length ≤ 4 := by
  rw [← List.length_append, ← digits_types hts, Nat.digits_length_le_iff (by decide)]
  exact h16

/-- The table of a header with the given type map and slots. -/
theorem table_append {h : Bytes} {ts us ns : List Nat} (hd : Nat.digits 16 (u16 h 0x36) = ts ++ us)
    (hne : ts ≠ []) (hlen : ts.length = ns.length)
    (hns : ∀ k n, ns[k]? = some n → u32 h (0x1c + k * 4) = n) :
    u16 h 0x36 ≠ 0 ∧ table h = ts.zip ns ++ tableFrom h ns.length us := by
  have h0 : u16 h 0x36 ≠ 0 := by
    intro h0
    rw [h0, Nat.digits_zero] at hd
    exact hne (List.append_eq_nil_iff.mp hd.symm).1
  refine ⟨h0, ?_⟩
  apply List.ext_getElem?
  intro k
  have hzip : (ts.zip ns).length = ns.length := by rw [List.length_zip, hlen, Nat.min_self]
  rw [table_getElem?_eq, if_neg h0, hd]
  by_cases hk : k < ns.length
  · have h1 := List.getElem?_eq_getElem (l := ts) (i := k) (by omega)
    have h2 := List.getElem?_eq_getElem hk
    rw [List.getElem?_append_left (by omega), List.getElem?_append_left (by omega), h1,
      Option.map_some, hns k _ h2, eq_comm, List.getElem?_zip_eq_some]
    exact ⟨h1, h2⟩
  · rw [List.getElem?_append_right (by omega), List.getElem?_append_right (by omega), hzip, hlen,
      tableFrom_getElem?, show ns.length + (k - ns.length) = k by omega]

theorem scan_prefix (U : List (Nat × Nat)) (l : Listing) : l.entries <+: (scan U l).entries := by
  induction U generalizing l with
  | nil => exact List.prefix_rfl
  | cons p U ih =>
    obtain ⟨t, n⟩ := p
    rw [scan]
    split
    · exact List.prefix_rfl
    · exact (List.prefix_append _ _).trans (ih ⟨t, n, l.i + 1, l.offs + n, l.entries ++ [_]⟩)

/-- Overlays with bytes are listed. What the type map has above them is not listed
if its first size is zero. -/
theorem listing_zip {h : Bytes} {ts us ns : List Nat} (h0 : u16 h 0x36 ≠ 0)
    (hlen : ts.length = ns.length) (htab : table h = ts.zip ns ++ tableFrom h ns.length us)
    (hpos : ∀ n ∈ ns, n ≠ 0) (offs : Nat) :
    if us = [] ∨ u32 h (0x1c + ns.length * 4) = 0 then
      (listing h offs).entries = layout offs (ts.zip ns)
    else ns.length < (listing h offs).entries.length := by
  have hs : AllSized (ts.zip ns) := fun p hp => hpos p.2 (List.of_mem_zip hp).2
  obtain ⟨-, -, he⟩ := scan_sized hs ⟨0, 0, 0, offs, []⟩
  rw [List.nil_append] at he
  rw [listing_of_map h0, htab, scan_append hs]
  cases us with
  | nil =>
    rw [if_pos (.inl rfl)]
    exact he
  | cons u us =>
    rw [tableFrom]
    by_cases hz : u32 h (0x1c + ns.length * 4) = 0
    · rw [if_pos (.inr hz), scan, if_pos hz]
      exact he
    · rw [if_neg (by simp [hz]), scan, if_neg hz]
      refine Nat.lt_of_lt_of_le ?_ ( scan_prefix (tableFrom h (ns.length + 1) us) _).length_le
      rw [List.length_append, he, layoutFrom_length, List.length_zip, hlen, Nat.min_self]
      exact Nat.lt_succ_self _

/-- A header with the type map and the sizes of the overlays. -/
theorem listing_packed {ts us : List Nat} {cs : List Bytes}
    (hd : Nat.digits 16 (u16 g 0x36) = ts ++ us) (hn : ts ≠ []) (hlen : ts.length = cs.length)
    (h4 : cs.length + us.length ≤ 4) (hne : ∀ c ∈ cs, c ≠ [])
    (hslot : ∀ i c, cs[i]? = some c → u32 g (0x1c + i * 4) = c.length) (offs : Nat) :
    if us = [] ∨ u32 g (0x1c + cs.length * 4) = 0 then
      (listing (headerAt g 0) offs).entries = layout offs (ts.zip (cs.map List.length))
    else cs.length < (listing (headerAt g 0) offs).entries.length := by
  have hread (k : Nat) (hk : k < 4) : u32 (headerAt g 0) (0x1c + k * 4) = u32 g (0x1c + k * 4) := by
    rw [u32, slice_headerAt _ (by omega), u32]
  have hns : ∀ k n, (cs.map List.length)[k]? = some n →
      u32 (headerAt g 0) (0x1c + k * 4) = n := by
    intro k n hk
    rw [List.getElem?_map] at hk
    obtain ⟨c, hkc, rfl⟩ := Option.map_eq_some_iff.mp hk
    have hkl := (List.getElem?_eq_some_iff.mp hkc).1
    rw [hread k (by omega), hslot k c hkc]
  have hd' : Nat.digits 16 (u16 (headerAt g 0) 0x36) = ts ++ us := by
    rw [← hd, u16, slice_headerAt _ (by omega), u16]
  have hlen' : ts.length = (cs.map List.length).length := by rw [hlen, List.length_map]
  obtain ⟨h36, htab⟩ := table_append hd' hn hlen' hns
  have hpos : ∀ n ∈ cs.map List.length, n ≠ 0 := by
    intro n hmem
    obtain ⟨c, hcm, rfl⟩ := List.mem_map.mp hmem
    exact fun h0 => hne c hcm (List.length_eq_zero_iff.mp h0)
  have hzip := listing_zip h36 hlen' htab hpos offs
  rw [List.length_map] at hzip
  by_cases hu : us = []
  · rw [if_pos (.inl hu)] at hzip ⊢
    exact hzip
  · have hul := List.length_pos_iff.mpr hu
    rw [hread _ (by omega)] at hzip
    exact hzip

theorem total_zip {ts ns : List Nat} (hlen : ts.length = ns.length) : total (ts.zip ns) = ns.sum := by
  rw [total, List.map_snd_zip (Nat.le_of_eq hlen.symm)]

/-- The extent of overlay `i` behind the header. -/
theorem slice_packed {n : Nat} {ts : List Nat} {cs : List Bytes} (hg : g.drop n = cs.flatten)
    (hlen : ts.length = cs.length) {i : Nat} {c : Bytes} (hi : cs[i]? = some c) :
    slice g (n + total ((ts.zip (cs.map List.length)).take i)) c.length = c := by
  have htake : (ts.zip (cs.map List.length)).take i = (ts.take i).zip ((cs.take i).map List.length) := by
    rw [List.map_take]
    exact List.take_zipWith
  rw [htake, total_zip (by simp [hlen])]
  exact slice_flatten hg hi

end

/-- What a reader should get back from a generated file: the sizes in their
slots, the name offset, and a listing that finds every overlay. -/
structure RoundTrip (g : Bytes) (ts : List Nat) (cs : List Bytes) (nmoffs : Int) : Prop where
  sizes : ∀ i c, cs[i]? = some c → u32 g (0x1c + 4 * i) = c.length
  name : (u32 g 0x28 : Int) = nmoffs
  count : (listing (headerAt g 0) (u32 g 0x3c)).entries.length = cs.length
  entry : ∀ i t c, ts[i]? = some t → cs[i]? = some c → ∃ offs,
    (listing (headerAt g 0) (u32 g 0x3c)).entries[i]? = some (Placed.mk i t offs c.length) ∧
      slice g offs c.length = c


section
variable {g : Bytes} {ts us : List Nat} {cs : List Bytes} {nmoffs : Int}

theorem RoundTrip.slot (h : RoundTrip g ts cs nmoffs) (i : Nat) (c : Bytes)
    (hi : cs[i]? = some c) : u32 g (0x1c + i * 4) = c.length := by
  rw [Nat.mul_comm]
  exact h.sizes i c hi

/-- The type map has the overlays' nibbles at its bottom and no room for more than
four. -/
structure Mapped (g : Bytes) (ts us : List Nat) (cs : List Bytes) : Prop where
  digits : Nat.digits 16 (u16 g 0x36) = ts ++ us
  types_ne : ts ≠ []
  length : ts.length = cs.length
  room : cs.length + us.length ≤ 4
  bytes : ∀ c ∈ cs, c ≠ []

/-- A file that can be read back lists nothing behind its overlays. -/
theorem RoundTrip.entries (h : RoundTrip g ts cs nmoffs) (hm : Mapped g ts us cs) :
    (us = [] ∨ u32 g (0x1c + cs.length * 4) = 0) ∧ (listing (headerAt g 0) (u32 g 0x3c)).entries =
      layout (u32 g 0x3c) (ts.zip (cs.map List.length)) := by
  have hent := listing_packed hm.digits hm.types_ne hm.length hm.room hm.bytes h.slot (u32 g 0x3c)
  have hcount := h.count
  split at hent
  · next hend => exact ⟨hend, hent⟩
  · omega

/-- And it has room for them. -/
theorem RoundTrip.fits (h : RoundTrip g ts cs nmoffs) (hm : Mapped g ts us cs) :
    u32 g 0x3c + cs.flatten.length ≤ g.length := by
  obtain ⟨-, hent⟩ := h.entries hm
  have hlen := hm.length
  have hext : extents g (u32 g 0x3c) (ts.zip (cs.map List.length)) = cs := by
    refine List.ext_getElem? fun i => ?_
    rw [extents, ← hent, List.getElem?_map]
    cases hci : cs[i]? with
    | none =>
      rw [List.getElem?_eq_none (h.count ▸ List.getElem?_eq_none_iff.mp hci)]
      rfl
    | some c =>
      have hil := (List.getElem?_eq_some_iff.mp hci).1
      obtain ⟨offs, he, hs⟩ := h.entry i _ c (List.getElem?_eq_getElem (by omega)) hci
      rw [he]
      exact congrArg some hs
  have hflat := congrArg List.length (extents_flatten g (u32 g 0x3c) (ts.zip (cs.map List.length)))
  rw [hext, slice_length, total_zip (by rw [hlen, List.length_map]), ← List.length_flatten] at hflat
  have hpos : cs.flatten.length ≠ 0 := by
    obtain ⟨c, cs', rfl⟩ := List.exists_cons_of_length_pos (hlen ▸ List.length_pos_iff.mpr hm.types_ne)
    have := List.length_pos_iff.mpr (hm.bytes c (List.mem_cons_self ..))
    rw [List.flatten_cons, List.length_append]
    omega
  omega

/-- Behind the template the overlays can be read back exactly when the slots hold
their sizes and the listing ends behind them. -/
theorem roundTrip_iff (hm : Mapped g ts us cs) (hname : (u32 g 0x28 : Int) = nmoffs)
    (hdrop : g.drop (u32 g 0x3c) = cs.flatten) :
    RoundTrip g ts cs nmoffs ↔ (∀ i c, cs[i]? = some c → u32 g (0x1c + i * 4) = c.length) ∧
      (us = [] ∨ u32 g (0x1c + cs.length * 4) = 0) := by
  refine ⟨fun h => ⟨h.slot, (h.entries hm).1⟩, fun ⟨hslot, hend⟩ => ?_⟩
  have hent := listing_packed hm.digits hm.types_ne hm.length hm.room hm.bytes hslot (u32 g 0x3c)
  rw [if_pos hend] at hent
  refine ⟨fun i c hic => by rw [Nat.mul_comm]; exact hslot i c hic, hname, ?_, ?_⟩
  · rw [hent, layout_length, List.length_zip, hm.length, List.length_map, Nat.min_self]
  · intro i t c hti hci
    refine ⟨_, ?_, slice_packed hdrop hm.length hci⟩
    have hz : (ts.zip (cs.map List.length))[i]? = some (t, c.length) := by
      rw [List.getElem?_zip_eq_some]
      exact ⟨hti, by rw [List.getElem?_map, hci]; rfl⟩
    rw [hent, layout_getElem?, hz]
    rfl

end

section
variable {π : Type} [DecidableEq π] {d : Disk π} {m : Globals π} {oname : π} {start g : Bytes}
  {ovls : List (Nat × π)} {cs : List Bytes} {opts : List (Opt π)} {rest : List (Option Int)}

/-- The type map of a generated file. -/
theorem Generated.mapped (hgen : Generated d m oname start g)
    (hm : options d Globals.init opts = .ok m) (hi : IntroducesThen opts ovls rest) (hn : ovls ≠ [])
    (hcs : m.overlay.map d.files = cs.map some) (hne : ∀ c ∈ cs, c ≠ []) :
    ∃ us, Mapped g (ovls.map Prod.fst) us cs ∧ (us = [] ↔ rest = []) := by
  obtain ⟨-, htm, -, -⟩ := hgen.fields
  obtain ⟨hov, high, hmap, hrest⟩ := options_overlays_then hm hi (htm ▸ Int.natCast_nonneg _)
  have hts : ∀ t ∈ ovls.map Prod.fst, 1 ≤ t ∧ t ≤ 15 := by
    intro t ht
    obtain ⟨e, he, rfl⟩ := List.mem_map.mp ht
    exact hi.2 e he
  have hlen : ovls.length = cs.length := by
    have h1 := congrArg List.length hcs
    rw [hov] at h1
    simpa using h1
  have hl : (ovls.map Prod.fst).length = ovls.length := List.length_map _
  have h16 : u16 g 0x36 =
      Nat.ofDigits 16 (ovls.map Prod.fst) + 16 ^ (ovls.map Prod.fst).length * high := by
    rw [hl]
    exact Int.ofNat_inj.mp (htm.trans hmap)
  have h4 := types_length_le hts (h16 ▸ u16_lt g 0x36)
  refine ⟨Nat.digits 16 high, ⟨?_, by simpa using hn, hl.trans hlen, by omega, hne⟩, ?_⟩
  · rw [h16, digits_types hts]
  · rw [Nat.digits_eq_nil_iff_eq_zero, hrest]

/-- What stands in the first three slots comes from the overlays and the template,
what stands in the fourth is the name offset. -/
theorem Generated.slots_iff (hgen : Generated d m oname start g) {us : List Nat} {ts : List Nat}
    (hcs : m.overlay.map d.files = cs.map some) (hmap : Mapped g ts us cs) :
    (∀ i c, cs[i]? = some c → u32 g (0x1c + i * 4) = c.length) ↔
      cs.length ≤ 3 ∨ ∃ c, cs[3]? = some c ∧ m.nmoffs = c.length := by
  obtain ⟨hname, -⟩ := hgen.fields
  have h4 := hmap.room
  constructor
  · intro hslot
    by_cases h3 : cs.length ≤ 3
    · exact .inl h3
    · have hc3 := List.getElem?_eq_getElem (l := cs) (i := 3) (by omega)
      refine .inr ⟨_, hc3, ?_⟩
      rw [← hname]
      exact congrArg Int.ofNat (hslot 3 _ hc3)
  · intro hcond i c hic
    by_cases hi3 : i < 3
    · exact hgen.slot hcs hic hi3
    · have hil := (List.getElem?_eq_some_iff.mp hic).1
      have hi3' : i = 3 := by omega
      subst hi3'
      obtain ⟨c', hc', hnc⟩ := hcond.resolve_left (by omega)
      rw [hic] at hc'
      cases hc'
      rw [← hname] at hnc
      exact Int.ofNat_inj.mp hnc

theorem Generated.end_iff (hgen : Generated d m oname start g) {us : List Nat} {ts : List Nat}
    (hcs : m.overlay.map d.files = cs.map some) (hmap : Mapped g ts us cs)
    (hrest : us = [] ↔ rest = []) :
    us = [] ∨ u32 g (0x1c + cs.length * 4) = 0 ↔
      (rest ≠ [] → (cs.length < 3 → u32 start (0x1c + cs.length * 4) = 0) ∧
        (cs.length = 3 → m.nmoffs = 0)) := by
  obtain ⟨hname, -⟩ := hgen.fields
  have h4 := hmap.room
  rw [or_iff_not_imp_left, ne_eq, ← hrest]
  refine imp_congr_right fun hu => ?_
  have hul := List.length_pos_iff.mpr hu
  rcases Nat.lt_or_ge cs.length 3 with h3 | h3
  · rw [hgen.slot_behind hcs (Nat.le_refl _) h3]
    exact ⟨fun h => ⟨fun _ => h, fun h => absurd h (by omega)⟩, fun h => h.1 h3⟩
  · have h3' : cs.length = 3 := by omega
    rw [h3', ← hname]
    exact ⟨fun h => ⟨fun h => absurd h (by decide), fun _ => congrArg Int.ofNat h⟩,
      fun h => Int.ofNat_inj.mp (h.2 rfl)⟩

theorem Generated.lfanew (hgen : Generated d m oname start g) : u32 g 0x3c = start.length := by
  rw [← hgen.stub.offs, u32, u32, slice_headerAt _ (by omega)]

/-- A generated file can be read back exactly when the output is no overlay, the fourth
size, if there is one, is what `-n` writes over it, and nothing is listed for the
`-t` behind the last overlay. -/
theorem generate_roundTrip_iff {fuel : Nat} {d' : Disk π} {args : List π}
    (hrun : main fuel d opts args = some (.ret 0, d')) (hm : options d Globals.init opts = .ok m)
    (hg : m.generate = true) (hi : IntroducesThen opts ovls rest) (hn : ovls ≠ [])
    (ho : m.oname = some oname) (hs : m.start = some start)
    (hc : (ovls.map Prod.snd).map d.files = cs.map some) (hne : ∀ c ∈ cs, c ≠ []) :
    ∃ g, d'.files oname = some g ∧ (RoundTrip g (ovls.map Prod.fst) cs m.nmoffs ↔
      oname ∉ ovls.map Prod.snd ∧
        (cs.length ≤ 3 ∨ ∃ c, cs[3]? = some c ∧ m.nmoffs = c.length) ∧
        (rest ≠ [] → (cs.length < 3 → u32 start (0x1c + cs.length * 4) = 0) ∧
          (cs.length = 3 → m.nmoffs = 0))) := by
  obtain ⟨start', g, hd', hgen⟩ := main_generate hrun hm hg ho
  cases hs.symm.trans hgen.template
  obtain ⟨hname, htm, -⟩ := hgen.fields
  obtain ⟨hov, -⟩ := options_overlays_then hm hi (htm ▸ Int.natCast_nonneg _)
  rw [← hov] at hc ⊢
  obtain ⟨us, hmap, hrest⟩ := hgen.mapped hm hi hn hc hne
  refine ⟨g, hd', ?_⟩
  by_cases hapart : oname ∈ m.overlay
  · refine iff_of_false (fun hrt => ?_) fun h => h.1 hapart
    -- the overlay that has been emptied is missing behind the template
    obtain ⟨-, cs', -, hcs'⟩ := hgen.sources
    obtain ⟨header, -, hhl, -, -, hgl⟩ := hgen.shape hc hcs'
    have hfits := hrt.fits hmap
    rw [hgen.lfanew, hgl, List.length_append, hhl] at hfits
    obtain ⟨hle, hall⟩ := opened_length hc hcs'
    have hempty := hall.mp (by omega) oname hapart rfl
    obtain ⟨c, hcm, hcd⟩ : ∃ c ∈ cs, some c = d.files oname := by
      rw [← List.mem_map, ← hc]
      exact List.mem_map_of_mem hapart
    rw [hempty, Option.some.injEq] at hcd
    exact hne c hcm hcd
  · have hdrop := (hgen.hasStub ⟨hapart, hc⟩).2
    rw [← hgen.lfanew] at hdrop
    rw [roundTrip_iff hmap hname hdrop, hgen.slots_iff hc hmap, hgen.end_iff hc hmap hrest]
    exact (and_iff_right hapart).symm

end

/-- Four overlays and no `-n`: the name offset 0 replaces the fourth size. -/
theorem generate_fourth_lost :
    ∃ d' m g, main 0 packDisk (packOpts 4) [] = some (.ret 0, d') ∧
      options packDisk Globals.init (packOpts 4) = .ok m ∧ m.generate = true ∧ m.nmoffs = 0 ∧
      Introduces (packOpts 4) [(1, 1), (1, 2), (1, 3), (1, 4)] ∧
      Copied packDisk 9 [1, 2, 3, 4] [coffImage, [1], [2], [3]] ∧ d'.files 9 = some g ∧
      ¬ RoundTrip g [1, 1, 1, 1] [coffImage, [1], [2], [3]] 0 := by
  have hrun : (main 0 packDisk (packOpts 4) []).map (fun r => (r.1, (r.2.files 9).isSome)) =
      some (.ret 0, true) := by decide +kernel
  obtain ⟨d', hmain, hsome⟩ := main_of_map Option.isSome hrun
  obtain ⟨g, hg⟩ := Option.isSome_iff_exists.mp hsome
  refine ⟨d', _, g, hmain, rfl, rfl, rfl, ⟨by decide, by decide⟩, ⟨by decide, rfl⟩, hg,
    fun hrt => ?_⟩
  have h3 := hrt.sizes 3 [3] rfl
  have hn := hrt.name
  rw [h3] at hn
  exact absurd hn (by decide)

theorem generate_roundTrip_one :
    ∃ d' g, main 0 packDisk (packOpts 1) [] = some (.ret 0, d') ∧ d'.files 9 = some g ∧
      RoundTrip g [1] [coffImage] 0 := by
  have hrun : (main 0 packDisk (packOpts 1) []).map (fun r => (r.1, r.2.files 8)) =
      some (.ret 0, none) := by decide +kernel
  obtain ⟨d', hmain, -⟩ := main_of_map id hrun
  have hi : IntroducesThen (packOpts 1) [(1, 1)] [] := ⟨by decide, by decide⟩
  have hc : ([(1, 1)].map Prod.snd).map packDisk.files = [coffImage].map some := rfl
  obtain ⟨g, hg, hiff⟩ :=
    generate_roundTrip_iff hmain rfl rfl hi (by decide) rfl rfl hc (by decide)
  exact ⟨d', g, hmain, hg, hiff.mpr ⟨by decide, .inl (by decide), fun h => absurd rfl h⟩⟩

section
variable {tmpl : Bytes} (ht : 0x40 ≤ tmpl.length) (hL : tmpl.length < 2 ^ 32)

include ht hL

end

section
variable {π : Type} [DecidableEq π] {d : Disk π} {m : Globals π} {oname : π} {start g : Bytes}

theorem Generated.version (hgen : Generated d m oname start g) :
    byteAt (headerAt g 0) 0x3b = (downgrade m).stubVer := by
  obtain ⟨-, -, -, hv⟩ := hgen.fields
  rw [← hv]
  exact byteAt_congr (slice_headerAt g (by omega))

end

end Djstub
