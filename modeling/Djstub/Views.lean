import Djstub.Archive

/-! What is seen of an archive: the listing of `-i`, the file that `-r` takes out,
and the extents that the loader publishes. -/

namespace Djstub

open Bytes Layout Loop

/-! ## The overlays in the file -/

theorem contents_before (vs : List Overlay) (i : Nat) :
    before (vs.map Overlay.data) i = total ((vs.map Overlay.slot).take i) := by
  rw [before, ← List.map_take, ← List.map_take, ← contents_length, contents, List.length_flatten]

namespace Represents
variable {a : Archive} {n : Nat} {g : Bytes} (r : Represents a n g)
include r

theorem packed : g.drop n = (a.overlays.map Overlay.data ++ [a.tail]).flatten := by
  rw [r.body, Archive.body, List.flatten_append, List.flatten_singleton, contents]

/-- Every overlay stands where the sizes of the ones before it say. -/
theorem slice_overlay {i : Nat} {v : Overlay} (hi : a.overlays[i]? = some v) :
    slice g (n + total ((a.overlays.map Overlay.slot).take i)) v.data.length = v.data := by
  have hlt := (List.getElem?_eq_some_iff.mp hi).1
  have hget : (a.overlays.map Overlay.data ++ [a.tail])[i]? = some v.data := by
    rw [List.getElem?_append_left (by rw [List.length_map]; exact hlt), List.getElem?_map, hi]
    rfl
  have htake : (a.overlays.map Overlay.data ++ [a.tail]).take i =
      (a.overlays.map Overlay.data).take i :=
    List.take_append_of_le_length (by rw [List.length_map]; exact Nat.le_of_lt hlt)
  have hs := slice_flatten r.packed hget
  rw [htake] at hs
  rw [← contents_before]
  exact hs

theorem extents_eq : extents g n (a.overlays.map Overlay.slot) = a.overlays.map Overlay.data := by
  apply List.ext_getElem?
  intro i
  rw [extents, List.getElem?_map, layout_getElem?, List.getElem?_map, List.getElem?_map]
  cases hi : a.overlays[i]? with
  | none => rfl
  | some v => exact congrArg some (r.slice_overlay hi)

/-! ## -i -/

theorem listing_of_slots (hm : u16 (headerAt g 0) 0x36 ≠ 0) (offs : Nat) :
    (listing (headerAt g 0) offs).entries = layout offs (a.overlays.map Overlay.slot) := by
  have hT := r.slots
  rw [Archive.slots] at hT
  obtain ⟨-, -, he⟩ := scan_sized (allSized_slots a.overlays) ⟨0, 0, 0, offs, []⟩
  rw [listing_of_map hm, hT]
  cases a.hidden with
  | nil =>
    rw [List.map_nil, List.append_nil, he]
    rfl
  | cons t U =>
    rw [List.map_cons, scan_stop (allSized_slots _), he]
    rfl

theorem listing_entries (hne : a.overlays ≠ []) (offs : Nat) :
    (listing (headerAt g 0) offs).entries = layout offs (a.overlays.map Overlay.slot) := by
  by_cases hm : u16 (headerAt g 0) 0x36 = 0
  · -- an empty map describes one overlay
    have hT := r.slots
    rw [Archive.slots] at hT
    have hlen := congrArg List.length hT
    rw [table, if_pos hm, List.length_append, List.length_map, List.length_map] at hlen
    have hpos := List.length_pos_iff.mpr hne
    have hh : a.hidden = [] := List.length_eq_zero_iff.mp (by rw [List.length_singleton] at hlen; omega)
    rw [hh, List.map_nil, List.append_nil] at hT
    rw [listing_empty hm, hT]
  · exact r.listing_of_slots hm offs

/-- `-i` accepts the file and lists the overlays. -/
theorem listed (hacc : a.Accepted) {tmpl : Bytes} (ht : 0x40 ≤ tmpl.length)
    (hL : tmpl.length < 2 ^ 32) (stubVer : Nat) :
    Returns tmpl stubVer .listing g (.info (headerLines g (headerAt g 0))) := by
  refine returns_listing ht hL r.stub ?_ (r.full_iff.mpr hacc.long) r.not_isMz
    (r.consistent_iff.mpr ⟨hacc.coff, hacc.elf⟩) stubVer
  rw [r.version]
  exact hacc.version

/-- Any other file it refuses, at the header of the stub or at that of the payload. -/
theorem refused (hn : ¬ a.Accepted) (tmpl : Bytes) (stubVer : Nat) :
    ∃ e, coff2exe 2 tmpl stubVer .listing g = some (.error e) := by
  have hfirst : walkStep g .listing Walk.init = lfanewHeader g .listing Walk.init (headerAt g 0) := by
    rw [walkStep_full (c := 0) rfl r.stub.full, if_pos r.stub.mz, if_pos r.stub.lfanew]
  by_cases hadm : Admits .listing (headerAt g 0)
  · obtain ⟨w, hw, hbare⟩ := lfanewHeader_next rfl r.stub.full hadm g Walk.init
    rw [hw] at hfirst
    have hcoffset : w.coffset = n := by
      rw [← r.stub.offs]
      exact congrArg Walk.coffset hbare
    have hstubV : w.stubV = a.version := by
      rw [← r.version]
      exact congrArg Walk.stubV hbare
    have hflags : w.flags = a.flags := by
      rw [← r.flags]
      exact congrArg Walk.flags hbare
    have hver := hadm.version
    rw [r.version] at hver
    have hstop : ∃ e, walkStep g .listing w = .stop (.error e) := by
      by_cases hl : 0x40 ≤ a.body.length
      · rcases walkStep_payload (o := .listing) hcoffset (r.full_iff.mpr hl) r.not_isMz with
          ⟨hok, -⟩ | ⟨-, h⟩
        · rw [hstubV, hflags, r.headerAt_body, PayloadOk, isCoff_headerAt, isElf_headerAt] at hok
          obtain ⟨hcoff, helf⟩ := hok (by omega)
          exact absurd ⟨hver, hl, hcoff, helf⟩ hn
        · exact h
      · refine walkStep_short ?_
        rintro ⟨c, hc, hfull⟩
        obtain rfl : n = c := by omega
        exact hl (r.full_iff.mp hfull)
    obtain ⟨e, he⟩ := hstop
    exact ⟨e, by rw [coff2exe, run_of_next hfirst, run_of_stop he]⟩
  · obtain ⟨e, he⟩ := lfanewHeader_error rfl hadm g Walk.init
    rw [he] at hfirst
    exact ⟨e, by rw [coff2exe, run_of_stop hfirst]⟩

end Represents

/-! ## -r -/

/-- The overlay of the type that the flags ask for. An empty slot of the type stands
for what follows the overlays. -/
def Archive.select (a : Archive) : Option Bytes :=
  match a.overlays.find? fun v => v.type = rmType a.flags with
  | some v => some v.data
  | none => if rmType a.flags ∈ a.hidden then some a.tail else none

theorem find_overlay {t : Nat} {vs : List Overlay} {v : Overlay}
    (h : (vs.find? fun v => v.type = t) = some v) : ∃ k, vs[k]? = some v ∧
      find t 0 (vs.map Overlay.slot) =
        some ⟨k, t, total ((vs.map Overlay.slot).take k), v.data.length⟩ := by
  obtain ⟨ht, k, hk, hget, hbefore⟩ := List.find?_eq_some_iff_getElem.mp h
  have hv : vs[k]? = some v := by rw [List.getElem?_eq_getElem hk, hget]
  have htype : v.type = t := by simpa using ht
  refine ⟨k, hv, ?_⟩
  have hslot : (vs.map Overlay.slot)[k]? = some (t, v.data.length) := by
    rw [List.getElem?_map, hv, ← htype]
    rfl
  rw [find_of_first hslot (fun j hj p hp => ?_), Nat.zero_add]
  rw [List.getElem?_map, List.getElem?_eq_getElem (by omega)] at hp
  rw [← Option.some.inj hp]
  simpa [Overlay.slot] using hbefore j hj

theorem find_no_overlay {t : Nat} {vs : List Overlay}
    (h : (vs.find? fun v => v.type = t) = none) : find t 0 (vs.map Overlay.slot) = none := by
  refine find_eq_none_iff.mpr fun k p hp => ?_
  rw [List.getElem?_map] at hp
  obtain ⟨v, hv, rfl⟩ := Option.map_eq_some_iff.mp hp
  simpa [Overlay.slot] using List.find?_eq_none.mp h v (List.mem_of_getElem? hv)

/-- Empty slots stand one upon the other. -/
theorem find_hidden (t base i : Nat) (ts : List Nat) :
    ((layoutFrom i base (ts.map fun t => (t, 0))).find? fun e => e.tag = t).map
        (fun e => (e.offs, e.size)) = if t ∈ ts then some (base, 0) else none := by
  induction ts generalizing i with
  | nil => rfl
  | cons u ts ih =>
    rw [List.map_cons, layoutFrom, List.find?_cons]
    by_cases hu : u = t
    · simp [hu]
    · simp [hu, ih, Ne.symm hu]

theorem selected_of_find {f h : Bytes} {x : Option (Nat × Nat)}
    (hx : (find (rmType (u16 h 0x38)) 0 (table h)).map (fun e => (e.offs, e.size)) = x) :
    selected f h = x.map fun p => if p.2 = 0 then f.drop (u32 h 0x3c + p.1) else
      slice f (u32 h 0x3c + p.1) p.2 := by
  rw [selected, findOffs_eq, findSize_eq, ← hx]
  cases find (rmType (u16 h 0x38)) 0 (table h) with
  | none => rfl
  | some e => rfl

namespace Represents
variable {a : Archive} {n : Nat} {g : Bytes} (r : Represents a n g)
include r

theorem selected_eq : selected g (headerAt g 0) = a.select := by
  rw [Archive.select]
  cases hf : a.overlays.find? fun v => v.type = rmType a.flags with
  | some v =>
    obtain ⟨k, hk, hfind⟩ := find_overlay hf
    have h := selected_of_find (f := g) (h := headerAt g 0)
      (x := some (total ((a.overlays.map Overlay.slot).take k), v.data.length))
      (by rw [r.flags, r.slots, Archive.slots, find_append hfind]; rfl)
    have hpos : v.data.length ≠ 0 := fun h0 => v.filled (List.length_eq_zero_iff.mp h0)
    rw [h, Option.map_some]
    dsimp only
    rw [if_neg hpos, r.stub.offs, r.slice_overlay hk]
  | none =>
    have hno := find_no_overlay hf
    have h := selected_of_find (f := g) (h := headerAt g 0)
      (x := if rmType a.flags ∈ a.hidden then some (total (a.overlays.map Overlay.slot), 0) else none)
      (by
        rw [find, layout] at hno
        rw [r.flags, r.slots, Archive.slots, find, layout, layoutFrom_append, List.find?_append, hno,
          Option.none_or, find_hidden, Nat.zero_add])
    rw [h]
    dsimp only
    by_cases hh : rmType a.flags ∈ a.hidden
    · rw [if_pos hh, if_pos hh, Option.map_some, if_pos rfl, r.stub.offs, ← List.drop_drop, r.body,
        Archive.body, ← contents_length, List.drop_left]
    · rw [if_neg hh, if_neg hh]
      rfl

/-- `-r` takes out the selected overlay. -/
theorem removed_iff {tmpl : Bytes} (ht : 0x40 ≤ tmpl.length) (stubVer : Nat) (x : Bytes) :
    Returns tmpl stubVer .remove g (.file x) ↔
      8 ≤ a.version ∧ tmpl.length < 2 ^ 32 ∧ a.select = some x := by
  rw [returns_remove_lfanew ht rfl rfl r.stub.oldMz r.stub.mz, r.version, r.selected_eq]

/-! ## The loader -/

theorem sizes_eq {i : Nat} (hi : i < 3) :
    u32 (headerAt g 0) (0x1c + i * 4) = ovlSize (a.overlays.map Overlay.data) i := by
  by_cases hlt : i < a.slots.length
  · obtain ⟨⟨t, s⟩, hget⟩ : ∃ p, (table (headerAt g 0))[i]? = some p :=
      ⟨_, by rw [r.slots]; exact List.getElem?_eq_getElem hlt⟩
    rw [← table_getElem? hget, ovlSize, List.getElem?_map]
    rw [r.slots, Archive.slots] at hget
    cases hv : a.overlays[i]? with
    | some v =>
      rw [List.getElem?_append_left (by
        rw [List.length_map]
        exact (List.getElem?_eq_some_iff.mp hv).1), List.getElem?_map, hv] at hget
      exact (congrArg Prod.snd (Option.some.inj hget)).symm
    | none =>
      rw [List.getElem?_append_right (by
        rw [List.length_map]
        exact List.getElem?_eq_none_iff.mp hv), List.getElem?_map] at hget
      obtain ⟨t', -, ht'⟩ := Option.map_eq_some_iff.mp hget
      exact (congrArg Prod.snd ht').symm
  · have hlen : a.overlays.length ≤ i := by
      rw [Archive.slots, List.length_append, List.length_map] at hlt
      omega
    rw [r.unused i hi (by omega), ovlSize, List.getElem?_eq_none (by rw [List.length_map]; exact hlen)]
    rfl

/-- An extent of the right size holds the overlay if it starts where the overlays
before it end. -/
theorem holds (hn : n ≤ g.length) (hlen : g.length < 2 ^ 31) {i offs : Nat}
    (ho : ovlSize (a.overlays.map Overlay.data) i ≠ 0 →
      offs = n + before (a.overlays.map Overlay.data) i) :
    Holds g (offs, toInt32 (ovlSize (a.overlays.map Overlay.data) i))
      ((a.overlays.map Overlay.data)[i]?.getD []) := by
  cases hi : (a.overlays.map Overlay.data)[i]? with
  | none =>
    rw [ovlSize, hi]
    exact ⟨rfl, rfl⟩
  | some c =>
    have hlt := (List.getElem?_eq_some_iff.mp hi).1
    have hget : (a.overlays.map Overlay.data ++ [a.tail])[i]? = some c := by
      rw [List.getElem?_append_left hlt, hi]
    have hsize : ovlSize (a.overlays.map Overlay.data ++ [a.tail]) i =
        ovlSize (a.overlays.map Overlay.data) i := by rw [ovlSize, ovlSize, hget, hi]
    have hbefore : before (a.overlays.map Overlay.data ++ [a.tail]) i =
        before (a.overlays.map Overlay.data) i := by
      rw [before, before, List.take_append_of_le_length (Nat.le_of_lt hlt)]
    rw [← hsize, ← hbefore] at ho
    have h := holds_packed hn r.packed hlen ho
    rw [hsize, hget] at h
    exact h

/-- `fullstub` stops at the payload, and publishes the first three overlays. -/
theorem loaded (hl : 0x40 ≤ a.body.length) (hlen : g.length < 2 ^ 31) {ops : LdOps}
    (ho : ops.Matches a.body) :
    ∃ s, Ends (stubStep g) StubWalk.init (some (ops, s)) ∧ s.pos = n ∧ s.coffset = n ∧
      ∀ i < 3, ∃ e, s.publish.extents[i]? = some e ∧
        Holds g e ((a.overlays.map Overlay.data)[i]?.getD []) := by
  have hfull := (header_length_iff g n).mp (r.full_iff.mpr hl)
  have hhead : ops.Matches (headerAt g n) := by
    have h := ho.header []
    rwa [List.append_nil, ← r.headerAt_body] at h
  have hseek : lseek 0x40 n = n := if_pos (by omega)
  refine ⟨_, stubWalk_one r.stub (by omega) (r.full_iff.mpr hl) hhead, ?_, r.stub.offs, ?_⟩
  · show lseek 0x40 (u32 (headerAt g 0) 0x3c) = n
    rw [r.stub.offs, hseek]
  have hne : ∀ c ∈ a.overlays.map Overlay.data, c ≠ [] := by
    intro c hc
    obtain ⟨v, -, rfl⟩ := List.mem_map.mp hc
    exact v.filled
  have hin (i : Nat) : n + before (a.overlays.map Overlay.data) i ≤ g.length := by
    have h1 := congrArg List.length r.body
    have h2 := total_take_le (a.overlays.map Overlay.slot) i
    rw [Archive.body, List.length_append, List.length_drop, contents_length] at h1
    rw [contents_before]
    omega
  have z0 := r.sizes_eq (i := 0) (by decide)
  have z1 := r.sizes_eq (i := 1) (by decide)
  have z2 := r.sizes_eq (i := 2) (by decide)
  simp only [Nat.zero_mul, Nat.one_mul, Nat.add_zero, Nat.reduceMul, Nat.reduceAdd] at z0 z1 z2
  have b0 : before (a.overlays.map Overlay.data) 0 = 0 := rfl
  have b1 : before (a.overlays.map Overlay.data) 1 = _ := before_succ _ 0
  have b2 : before (a.overlays.map Overlay.data) 2 = _ := before_succ _ 1
  have l1 := hin 1
  have l2 := hin 2
  rw [extents_pass, r.stub.offs, z0, z1, z2]
  intro i hi
  obtain rfl | rfl | rfl : i = 0 ∨ i = 1 ∨ i = 2 := by omega
  · exact ⟨_, rfl, r.holds (by omega) hlen fun _ => by omega⟩
  · refine ⟨_, rfl, r.holds (by omega) hlen fun h1 => ?_⟩
    rw [if_pos (ovlSize_ne_zero hne (by omega) h1)]
    omega
  · refine ⟨_, rfl, r.holds (by omega) hlen fun h2 => ?_⟩
    rw [if_pos (ovlSize_ne_zero hne (by omega) h2), if_pos (ovlSize_ne_zero hne (by omega) h2)]
    omega

end Represents
end Djstub
