import Djstub.Reread
import Djstub.Views

/-! What happens to an overlay after it has been linked. From a file that `-g` or
a plain run has written, any number of runs with and without `-s` leaves the first
overlays as they were linked, under the types they were linked with. -/

namespace Djstub

open Bytes Layout Loop Simulation

/-! ## What an archive can become -/

/-- The overlays of `a` are the first ones of `b`, and `b` had no others in front
of the types that `a` has hidden. -/
structure Archive.Descends (a b : Archive) : Prop where
  overlays : a.overlays <+: b.overlays
  some : b.overlays ≠ [] → a.overlays ≠ []
  types : a.slots.map Prod.fst = b.slots.map Prod.fst
  body : a.body <+: b.body
  flags : a.flags = b.flags
  version : a.version = b.version

theorem Archive.Descends.refl (a : Archive) : a.Descends a :=
  ⟨List.prefix_refl _, id, rfl, List.prefix_refl _, rfl, rfl⟩

theorem Archive.Descends.trans {a b c : Archive} (h : a.Descends b) (h' : b.Descends c) :
    a.Descends c :=
  ⟨h.overlays.trans h'.overlays, fun hc => h.some (h'.some hc), h.types.trans h'.types,
    h.body.trans h'.body, h.flags.trans h'.flags, h.version.trans h'.version⟩

/-- The first overlay stays. -/
theorem Archive.Descends.head_eq {a b : Archive} (h : a.Descends b) {v : Overlay}
    (hv : b.overlays.head? = .some v) : a.overlays.head? = .some v := by
  have hne : a.overlays ≠ [] := by
    refine h.some fun hb => ?_
    rw [hb] at hv
    cases hv
  obtain ⟨t, ht⟩ := h.overlays
  rw [← hv, ← ht, List.head?_append_of_ne_nil _ hne]

theorem Archive.hide_descends {a : Archive} {v : Overlay} (hv : a.overlays.getLast? = .some v)
    (hlen : 1 < a.overlays.length) : (a.hide v).Descends a := by
  refine ⟨List.dropLast_prefix _, fun _ => List.ne_nil_of_length_pos ?_, ?_,
    Archive.hide_body_prefix hv, rfl, rfl⟩
  · show 0 < a.overlays.dropLast.length
    rw [List.length_dropLast]
    omega
  · rw [Archive.slots_split hv, Archive.slots, Archive.hide]
    simp

theorem Archive.rewrite_descends {o : Rewrite} {a a' : Archive} (h : a.rewrite o = .some a') :
    a'.Descends a := by
  have hstep := (Archive.rewrite_eq_some.mp h).2
  split at hstep
  case isFalse =>
    cases hstep
    exact .refl a
  next =>
  unfold Archive.strip at hstep
  split at hstep
  case isFalse =>
    cases hstep
    exact .refl a
  next =>
  split at hstep
  case isFalse => cases hstep
  next hlen =>
  obtain ⟨v, hv, rfl⟩ := Option.map_eq_some_iff.mp hstep
  exact Archive.hide_descends hv hlen

/-- The archive in `debugExe`. -/
def debugArchive : Archive :=
  ⟨0, 8, [⟨0, coffImage, by decide⟩, ⟨4, List.replicate 0x40 0, by decide⟩], [], []⟩

theorem debugExe_represents : Represents debugArchive 0x40 debugExe where
  stub := ⟨by decide +kernel, by decide +kernel, by decide +kernel, by decide +kernel⟩
  slots := by decide +kernel
  unused := by decide +kernel
  flags := by decide +kernel
  version := by decide +kernel
  body := by decide +kernel
  plain := by decide +kernel

/-- `-s`, and a plain run after it. -/
def stripAndRestub : List Rewrite := [⟨bareTemplate, 8, true⟩, ⟨bareTemplate, 8, false⟩]

theorem debugExe_runs : Runs Rewrite.Writes stripAndRestub debugExe strippedExe := by
  have h1 : Rewrite.Writes ⟨bareTemplate, 8, true⟩ debugExe strippedExe :=
    ⟨by decide, 2, by decide +kernel⟩
  have h2 : Rewrite.Writes ⟨bareTemplate, 8, false⟩ strippedExe strippedExe :=
    ⟨by decide, 2, by decide +kernel⟩
  exact .cons h1 (.cons h2 (.nil _))

/-- Runs on a file, in terms of the archive that it holds. -/
theorem rewrites_follow_archive {a : Archive} {n : Nat} {g : Bytes} (r : Represents a n g)
    (os : List Rewrite) :
    (∀ g', Runs Rewrite.Writes os g g' → ∃ a' n',
      runOps (fun o a => a.rewrite o) os a = some a' ∧ Represents a' n' g') ∧
    ∀ a', runOps (fun o a => a.rewrite o) os a = some a' →
      ∃ g' n', Runs Rewrite.Writes os g g' ∧ Represents a' n' g' := by
  constructor
  · intro g' hr
    obtain ⟨a', ha', n', r'⟩ := rewrite_refines.run_sound ⟨n, r⟩ hr
    exact ⟨a', n', ha', r'⟩
  · intro a' ha'
    obtain ⟨g', hr, n', r'⟩ := rewrite_refines.run_complete ⟨n, r⟩ ha'
    exact ⟨g', n', hr, r'⟩

theorem rewrites_follow_archive_debugExe : ∃ a' n',
    runOps (fun o a => a.rewrite o) stripAndRestub debugArchive = some a' ∧
      Represents a' n' strippedExe :=
  (rewrites_follow_archive debugExe_represents stripAndRestub).1 strippedExe debugExe_runs

theorem Represents.descends {a : Archive} {n : Nat} {g g' : Bytes} (r : Represents a n g)
    {os : List Rewrite} (hrun : Runs Rewrite.Writes os g g') :
    ∃ a' n', Represents a' n' g' ∧ a'.Descends a := by
  obtain ⟨a', ⟨n', r'⟩, hd⟩ := rewrite_refines.invariant (I := fun b => b.Descends a)
    (fun o b b' hb h => (Archive.rewrite_descends h).trans hb) ⟨n, r⟩ (.refl a) hrun
  exact ⟨a', n', r', hd⟩

/-- Whatever runs with and without `-s` succeed on a file, its first overlays stay
listed and in place behind the new stub, and no other bytes appear there. -/
theorem overlays_survive {a : Archive} {n : Nat} {g g' : Bytes} (r : Represents a n g)
    (hne : a.overlays ≠ []) {os : List Rewrite} (hrun : Runs Rewrite.Writes os g g') :
    ∃ n' vs, HasStub g' n' ∧ vs ≠ [] ∧ vs <+: a.overlays ∧
      (listing (headerAt g' 0) n').entries = layout n' (vs.map Overlay.slot) ∧
      extents g' n' (vs.map Overlay.slot) = vs.map Overlay.data ∧
      g'.drop n' <+: g.drop n ∧
      (table (headerAt g' 0)).map Prod.fst = (table (headerAt g 0)).map Prod.fst ∧
      u16 (headerAt g' 0) 0x38 = u16 (headerAt g 0) 0x38 ∧
      byteAt (headerAt g' 0) 0x3b = byteAt (headerAt g 0) 0x3b := by
  obtain ⟨a', n', r', hd⟩ := r.descends hrun
  refine ⟨n', a'.overlays, r'.stub, hd.some hne, hd.overlays, r'.listing_entries (hd.some hne) n',
    r'.extents_eq, ?_, ?_, ?_, ?_⟩
  · rw [r'.body, r.body]
    exact hd.body
  · rw [r'.slots, r.slots, hd.types]
  · rw [r'.flags, r.flags, hd.flags]
  · rw [r'.version, r.version, hd.version]

theorem overlays_survive_debugExe : ∃ n' vs, HasStub strippedExe n' ∧ vs ≠ [] ∧
    vs <+: debugArchive.overlays ∧
    extents strippedExe n' (vs.map Overlay.slot) = vs.map Overlay.data := by
  have hne : debugArchive.overlays ≠ [] := by decide
  obtain ⟨n', vs, hstub, hvs, hpre, -, hext, -⟩ :=
    overlays_survive debugExe_represents hne debugExe_runs
  exact ⟨n', vs, hstub, hvs, hpre, hext⟩

/-! ## Where archives come from -/

theorem exists_overlays {ts : List Nat} {cs : List Bytes} (hlen : ts.length = cs.length)
    (hne : ∀ c ∈ cs, c ≠ []) :
    ∃ vs : List Overlay, vs.map Overlay.type = ts ∧ vs.map Overlay.data = cs := by
  induction cs generalizing ts with
  | nil => exact ⟨[], (List.length_eq_zero_iff.mp hlen).symm, rfl⟩
  | cons c cs ih =>
    cases ts with
    | nil => cases hlen
    | cons t ts =>
      obtain ⟨vs, rfl, rfl⟩ := ih (Nat.succ.inj hlen) fun c hc => hne c (List.mem_cons_of_mem _ hc)
      exact ⟨⟨t, c, hne c List.mem_cons_self⟩ :: vs, rfl, rfl⟩

theorem map_slot_eq_zip (vs : List Overlay) :
    vs.map Overlay.slot = (vs.map Overlay.type).zip ((vs.map Overlay.data).map List.length) := by
  induction vs with
  | nil => rfl
  | cons v vs ih => simp only [List.map_cons, List.zip_cons_cons, ih, Overlay.slot]

/-- What `-g` puts together. -/
theorem generated_represents {π : Type} [DecidableEq π] {d : Disk π} {m : Globals π}
    {opts : List (Opt π)} {oname : π} {start g : Bytes} {ovls : List (Nat × π)} {cs : List Bytes}
    (hm : options d Globals.init opts = .ok m) (hgen : Generated d m oname start g)
    (hi : Introduces opts ovls) (h0 : ovls ≠ []) (h3 : ovls.length ≤ 3)
    (hc : Copied d oname (ovls.map Prod.snd) cs) (hne : ∀ c ∈ cs, c ≠ []) (hz : ZeroArea start)
    (hplain : ¬ isMz cs.flatten) :
    ∃ a, Represents a start.length g ∧ a.overlays.map Overlay.type = ovls.map Prod.fst ∧
      a.overlays.map Overlay.data = cs := by
  obtain ⟨hov, hmap⟩ := options_overlays hm hi
  rw [← hov] at hc
  obtain ⟨hstub, hdrop⟩ := hgen.hasStub hc
  have hlen : (ovls.map Prod.fst).length = cs.length := by
    have h1 := congrArg List.length hc.2
    rw [hov] at h1
    simpa using h1
  have hcount : cs.length ≤ 3 := by simpa [← hlen] using h3
  have hts : ∀ t ∈ ovls.map Prod.fst, 1 ≤ t ∧ t ≤ 15 := by
    intro t ht
    obtain ⟨e, he, rfl⟩ := List.mem_map.mp ht
    exact hi.2 e he
  have hdigits : Nat.digits 16 (u16 (headerAt g 0) 0x36) = ovls.map Prod.fst ++ [] := by
    have htm := hgen.fields.2.1
    rw [hmap] at htm
    rw [u16, slice_headerAt _ (by omega), ← u16, Int.ofNat_inj.mp htm]
    exact digits_types hts 0
  have hsize (k : Nat) (hk : k < 3) : u32 (headerAt g 0) (0x1c + k * 4) = u32 g (0x1c + k * 4) := by
    rw [u32, slice_headerAt _ (by omega), ← u32]
  obtain ⟨vs, htypes, hdata⟩ := exists_overlays hlen hne
  have hslots : table (headerAt g 0) = vs.map Overlay.slot := by
    rw [map_slot_eq_zip, htypes, hdata]
    refine ((table_append hdigits (by simpa using h0) (by simpa using hlen) fun k n hk => ?_).2).trans
      (List.append_nil _)
    rw [List.getElem?_map] at hk
    obtain ⟨c, hkc, rfl⟩ := Option.map_eq_some_iff.mp hk
    have hlt := (List.getElem?_eq_some_iff.mp hkc).1
    rw [hsize k (by omega), hgen.slot hc.2 hkc (by omega)]
  have hbody : (⟨u16 (headerAt g 0) 0x38, byteAt (headerAt g 0) 0x3b, vs, [], []⟩ : Archive).body =
      cs.flatten := by
    rw [Archive.body, contents, hdata, List.append_nil]
  refine ⟨⟨u16 (headerAt g 0) 0x38, byteAt (headerAt g 0) 0x3b, vs, [], []⟩,
    ⟨hstub, ?_, ?_, rfl, rfl, ?_, ?_⟩, htypes, hdata⟩
  · rw [hslots, Archive.slots, List.map_nil, List.append_nil]
  · intro i hi3 hle
    have hcnt : vs.length = cs.length := by rw [← hdata, List.length_map]
    simp only [Archive.slots, List.map_nil, List.append_nil, List.length_map] at hle
    rw [hsize i hi3]
    exact hgen.slot_zero hz hc.2 (by omega) hi3
  · rw [hdrop, hbody]
  · rw [hbody]
    exact hplain

/-- What a plain run makes of an image behind old-style stubs. -/
theorem stubified_represents {tmpl : Bytes} (ht : stubAccepted tmpl) (hz : ZeroArea tmpl)
    {M : List Bytes} (hM : ∀ m ∈ M, OldImage m) {C : Bytes} (hl : 0x40 ≤ C.length) (hm : ¬ isMz C)
    {stubVer : Nat} {g : Bytes} (hret : Returns tmpl stubVer .plain (M.flatten ++ C) (.file g)) :
    Represents ⟨0, stubVer, [⟨0, C, List.ne_nil_of_length_pos (by omega)⟩], [], []⟩ tmpl.length g := by
  obtain ⟨hL, h32, hver, rfl⟩ := (returns_images_iff ht.1 hM hl hm).mp hret
  have ha := rawArea_length ht.1 stubVer C.length
  obtain ⟨hsize, hv, hsame⟩ := rawArea_header ht.1 hver h32 (restubbed_sameArea ht ha C)
  obtain ⟨hmap, hflags⟩ := rawArea_zero hz hsame
  have hbody : (⟨0, stubVer, [⟨0, C, List.ne_nil_of_length_pos (by omega)⟩], [], []⟩ : Archive).body =
      C := by
    simp [Archive.body, contents]
  refine ⟨restubbed_hasStub ht ha hL C, ?_, ?_, hflags, hv, ?_, ?_⟩
  · rw [table, if_pos hmap, hsize]
    rfl
  · intro i hi hle
    have h1 : 1 ≤ i := hle
    rw [u32, hsame _ _ (by omega) (by omega), hz.slice_eq (by omega)]
    rfl
  · rw [hbody, ← restubbed_length ht ha, List.drop_left]
  · rw [hbody]
    exact hm

end Djstub
