import Djstub.Remove

/-! Plain runs of `coff2exe`, one after another: what a new stub does to a file
that already has one, and how `-r` takes it off again. -/

namespace Djstub

open Bytes Layout Loop

/-- The global `stub_ver` before any option. -/
def defaultStubVer : Nat := 8

/-- No `-i`, `-r` or `-s`. -/
def Options.plain : Options := { info := false, rmstub := false, strip := false }

def Options.remove : Options := { info := false, rmstub := true, strip := false }

/-- The template's bytes 0x1c..0x3b are zero. -/
def ZeroArea (tmpl : Bytes) : Prop := slice tmpl 0x1c 0x20 = List.replicate 0x20 0

instance (tmpl : Bytes) : Decidable (ZeroArea tmpl) := by unfold ZeroArea; infer_instance

theorem ZeroArea.slice_eq {tmpl : Bytes} (hz : ZeroArea tmpl) {j n : Nat} (h : j + n ≤ 0x20) :
    slice tmpl (0x1c + j) n = List.replicate n 0 := by
  rw [← slice_slice h, hz]
  simp only [slice, List.drop_replicate, List.take_replicate]
  congr 1
  omega

theorem admits_of_version {o : Options} (ho : o.strip = false) {h : Bytes}
    (h8 : 8 ≤ byteAt h 0x3b) : Admits o h :=
  ⟨h8, fun hs => by rw [ho] at hs; cases hs⟩

/-- A run on a file whose chain of headers is known. -/
theorem returns_file_of_chain {tmpl : Bytes} (ht : 0x40 ≤ tmpl.length) {o : Options}
    (hr : o.rmstub = false) (hi : o.info = false) {f : Bytes} {stubVer : Nat} {hs : List Bytes}
    {p : Nat} (hch : Chain f 0 hs p) {g : Bytes} :
    Returns tmpl stubVer o f (.file g) ↔ Accepts o f hs p ∧ Fits tmpl stubVer f hs p ∧
      g = restubbed tmpl (areaOf o tmpl stubVer (f.length - p) hs) ++ bodyOf o f hs p := by
  rw [returns_file_iff ht hr hi]
  constructor
  · rintro ⟨hs', p', hacc, hrest⟩
    obtain ⟨rfl, rfl⟩ := hch.unique hacc.chain
    exact ⟨hacc, hrest⟩
  · rintro ⟨hacc, hrest⟩
    exact ⟨hs, p, hacc, hrest⟩

/-- A plain run on a file without lfanew header. -/
theorem returns_raw_iff {tmpl : Bytes} (ht : 0x40 ≤ tmpl.length) {f : Bytes} {stubVer p : Nat}
    (hch : Chain f 0 [] p) {g : Bytes} :
    Returns tmpl stubVer .plain f (.file g) ↔ Fits tmpl stubVer f [] p ∧
      g = restubbed tmpl (rawArea tmpl stubVer (f.length - p)) ++ f.drop p := by
  rw [returns_file_of_chain ht rfl rfl hch]
  constructor
  · exact And.right
  · exact fun h => ⟨⟨hch, by simp, consistent_nil _⟩, h⟩

/-! ## A stubbed file -/

theorem rawArea_length {tmpl : Bytes} (ht : 0x40 ≤ tmpl.length) (stubVer size : Nat) :
    (rawArea tmpl stubVer size).length = 0x20 := by
  have h4 := toBytes_length 4 size
  have hs : (slice tmpl 0x20 0x1b).length = 0x1b := slice_length_of_le (by omega)
  simp [rawArea, h4, hs]

/-- A header written for an image without a stub: the size and the version are
new, what stands between them is the template's. -/
theorem rawArea_header {tmpl : Bytes} (ht : 0x40 ≤ tmpl.length) {stubVer size : Nat}
    (hv : stubVer < 256) (hn : size < 2 ^ 32) {h : Bytes}
    (ha : slice h 0x1c 0x20 = rawArea tmpl stubVer size) :
    u32 h 0x1c = size ∧ byteAt h 0x3b = stubVer ∧
      ∀ k n, 0x20 ≤ k → k + n ≤ 0x3b → slice h k n = slice tmpl k n := by
  have h4 := toBytes_length 4 size
  have hs : (slice tmpl 0x20 0x1b).length = 0x1b := slice_length_of_le (by omega)
  refine ⟨?_, ?_, ?_⟩
  · have hu32 : u32 h 0x1c = u32 (slice h 0x1c 0x20) 0 := (u32_slice (k := 0) (by omega)).symm
    rw [hu32, ha, rawArea, u32, slice_append_left (by simp [h4]),
      slice_append_left (by omega)]
    exact u32_toBytes hn
  · have h1 := byteAt_slice (b := h) (i := 0x1c) (n := 0x20) (k := 0x1f) (by omega)
    rw [show (0x3b : Nat) = 0x1c + 0x1f from rfl, ← h1, ha, rawArea]
    simp only [byteAt, List.getD_eq_getElem?_getD]
    rw [List.getElem?_append_right (by simp [h4, hs])]
    simp [h4, hs, Nat.mod_eq_of_lt hv]
  · intro k n hk hkn
    obtain ⟨j, rfl⟩ : ∃ j, k = 0x20 + j := ⟨k - 0x20, by omega⟩
    have h1 := slice_slice (b := h) (i := 0x1c) (n := 0x20) (j := 4 + j) (m := n) (by omega)
    rw [show 0x20 + j = 0x1c + (4 + j) by omega, ← h1, ha, rawArea,
      slice_append_left (by simp [h4, hs]; omega), slice_append_right (by omega), h4,
      slice_slice (by omega), show 0x20 + (4 + j - 4) = 0x1c + (4 + j) by omega]

/-- With a zero header area the type map and the flags stay empty. -/
theorem rawArea_zero {tmpl : Bytes} (hz : ZeroArea tmpl) {h : Bytes}
    (hsame : ∀ k n, 0x20 ≤ k → k + n ≤ 0x3b → slice h k n = slice tmpl k n) :
    u16 h 0x36 = 0 ∧ u16 h 0x38 = 0 := by
  have h36 : slice tmpl 0x36 2 = List.replicate 2 0 := hz.slice_eq (j := 0x1a) (by omega)
  have h38 : slice tmpl 0x38 2 = List.replicate 2 0 := hz.slice_eq (j := 0x1c) (by omega)
  constructor
  · rw [u16, hsame _ _ (by omega) (by omega), h36]
    rfl
  · rw [u16, hsame _ _ (by omega) (by omega), h38]
    rfl

/-- A complete header with lfanew at the front, pointing at offset `n`. -/
structure HasStub (g : Bytes) (n : Nat) : Prop where
  full : (headerAt g 0).length = 0x40
  mz : isMz (headerAt g 0)
  lfanew : isLfanew (headerAt g 0)
  offs : u32 (headerAt g 0) 0x3c = n

theorem HasStub.oldMz {g : Bytes} {n : Nat} (h : HasStub g n) : OldMz g 0 0 :=
  .here 0 h.full fun hn => hn.2 h.lfanew

section
variable {tmpl area : Bytes} (ht : stubAccepted tmpl) (ha : area.length = 0x20)
include ht ha

theorem restubbed_hasStub (hL : tmpl.length < 2 ^ 32) (body : Bytes) :
    HasStub (restubbed tmpl area ++ body) tmpl.length where
  full := (restubbed_oldMz ht ha body).header_length
  mz := (restubbed_isMz ht ha body).1
  lfanew := (restubbed_isMz ht ha body).2
  offs := restubbed_lfanew ht ha hL body

/-- A second run on a stubbed file. -/
theorem returns_restubbed_iff (hL : tmpl.length < 2 ^ 32) {o : Options} (hr : o.rmstub = false)
    (hi : o.info = false) {body : Bytes} (hl : (headerAt body 0).length = 0x40)
    (hm : ¬ isMz (headerAt body 0)) (stubVer : Nat) (g : Bytes) :
    Returns tmpl stubVer o (restubbed tmpl area ++ body) (.file g) ↔
      Admits o (headerAt (restubbed tmpl area ++ body) 0) ∧
      Consistent [headerAt (restubbed tmpl area ++ body) 0] (headerAt body 0) ∧
      g = (match cutOf o (headerAt (restubbed tmpl area ++ body) 0) with
        | none => restubbed tmpl area ++ body
        | some c =>
          restubbed tmpl (slice (cutHeader (headerAt (restubbed tmpl area ++ body) 0) c) 0x1c 0x20) ++
            slice (restubbed tmpl area ++ body) tmpl.length c.keep) := by
  have hlen := restubbed_length ht ha
  obtain ⟨hch, hhead⟩ := restubbed_chain ht ha hL hl hm
  have harea := restubbed_sameArea ht ha body
  have hdrop : (restubbed tmpl area ++ body).drop tmpl.length = body := by
    rw [← hlen, List.drop_left]
  rw [returns_file_of_chain ht.1 hr hi hch]
  have hnew : restubbed tmpl (areaOf o tmpl stubVer
        ((restubbed tmpl area ++ body).length - tmpl.length)
        [headerAt (restubbed tmpl area ++ body) 0]) ++
      bodyOf o (restubbed tmpl area ++ body) [headerAt (restubbed tmpl area ++ body) 0]
        tmpl.length = (match cutOf o (headerAt (restubbed tmpl area ++ body) 0) with
        | none => restubbed tmpl area ++ body
        | some c =>
          restubbed tmpl (slice (cutHeader (headerAt (restubbed tmpl area ++ body) 0) c) 0x1c 0x20) ++
            slice (restubbed tmpl area ++ body) tmpl.length c.keep) := by
    have hlim := limit_concat o [] (headerAt (restubbed tmpl area ++ body) 0)
    rw [List.nil_append] at hlim
    simp only [areaOf, bodyOf, hlim, List.getLast?_singleton]
    cases cutOf o (headerAt (restubbed tmpl area ++ body) 0) with
    | none => simp only [Option.elim_none, harea, limit, List.foldl_nil, hdrop]
    | some c => rfl
  rw [hnew]
  constructor
  · rintro ⟨hacc, -, hg⟩
    have hcons := hacc.consistent
    rw [hhead] at hcons
    exact ⟨hacc.admits _ (by simp), hcons, hg⟩
  · rintro ⟨hadm, hcons, hg⟩
    refine ⟨⟨hch, ?_, by rw [hhead]; exact hcons⟩, ⟨hL, by simp, by simp⟩, hg⟩
    intro h hh
    rw [List.mem_singleton] at hh
    subst hh
    exact hadm

/-- A second plain run keeps the header area and the body, provided it gets past
the header. -/
theorem restub_again (hL : tmpl.length < 2 ^ 32) {body : Bytes} (hl : (headerAt body 0).length = 0x40)
    (hm : ¬ isMz (headerAt body 0)) (stubVer : Nat) (g : Bytes) :
    Returns tmpl stubVer .plain (restubbed tmpl area ++ body) (.file g) ↔
      8 ≤ byteAt (headerAt (restubbed tmpl area ++ body) 0) 0x3b ∧
      Consistent [headerAt (restubbed tmpl area ++ body) 0] (headerAt body 0) ∧
      g = restubbed tmpl area ++ body := by
  rw [returns_restubbed_iff ht ha hL rfl rfl hl hm]
  exact and_congr_left fun _ => ⟨fun h => h.version, admits_of_version rfl⟩

end

/-! ## What `-i` prints -/

def Options.listing : Options := { info := true, rmstub := false, strip := false }

/-- The lines for one header with lfanew. -/
def headerLines (f h : Bytes) : List Info :=
  let flags := u16 h 0x38
  (if flags &&& 0x4000 = 0 ∧ flags &&& 0x80 ≠ 0 then [Info.dj64Format, .dosPayloadDynamic]
    else [.dj64Format]) ++
  overlayLines f h (ovlName f h (u32 h 0x3c) (flags &&& 0x2000 ≠ 0)) (u32 h 0x3c) true ++
  [.stubVersion (byteAt h 0x3b), .stubFlags flags]

theorem walkStep_listing {f : Bytes} {w : Walk} {c : Nat} (hw : w.coffset = c)
    (hl : (headerAt f c).length = 0x40) (hm : isMz (headerAt f c)) (hn : isLfanew (headerAt f c))
    (h8 : 8 ≤ byteAt (headerAt f c) 0x3b) :
    ∃ w', walkStep f .listing w = .next w' ∧ w'.bare = w.pass .listing (headerAt f c) ∧
      w'.ibuf = w.ibuf ++ headerLines f (headerAt f c) := by
  have hv : ¬ byteAt (headerAt f c) 0x3b < 8 := by omega
  rw [walkStep_full hw hl, if_pos hm, if_pos hn]
  unfold lfanewHeader
  dsimp only
  rw [if_neg hv]
  simp only [Options.listing, Bool.false_eq_true, or_self, if_false, if_true, true_or, false_and]
  refine ⟨_, rfl, rfl, ?_⟩
  simp only [headerLines, List.append_assoc]

theorem prepare_ibuf {tmpl : Bytes} {stubVer : Nat} {f : Bytes} {w : Walk} {q : Prepared}
    (h : prepare tmpl stubVer f w = .ok q) : q.ibuf = w.ibuf := by
  unfold prepare at h
  dsimp only at h
  split at h
  · cases h
  · cases h; rfl

/-- `-i` on a file that goes on with the payload behind its stub. -/
theorem returns_listing {tmpl : Bytes} (ht : 0x40 ≤ tmpl.length) (hL : tmpl.length < 2 ^ 32)
    {f : Bytes} {n : Nat} (hstub : HasStub f n) (h8 : 8 ≤ byteAt (headerAt f 0) 0x3b)
    (hl : (headerAt f n).length = 0x40) (hp : ¬ isMz (headerAt f n))
    (hcons : Consistent [headerAt f 0] (headerAt f n)) (stubVer : Nat) :
    Returns tmpl stubVer .listing f (.info (headerLines f (headerAt f 0))) := by
  have hacc : Accepts .listing f [headerAt f 0] n := by
    refine ⟨.lfanew hstub.oldMz hstub.mz ?_, ?_, hcons⟩
    · rw [hstub.offs]
      exact .payload (.here n hl fun h => hp h.1) hp
    · intro h hh
      rw [List.mem_singleton] at hh
      subst hh
      exact admits_of_version rfl h8
  obtain ⟨w1, hs1, hb1, hi1⟩ := walkStep_listing (f := f) (w := Walk.init) (c := 0) rfl hstub.full
    hstub.mz hstub.lfanew h8
  have hc1 : w1.coffset = (n : Nat) := by
    rw [(Walk.of_bare hb1).1]
    exact congrArg Int.ofNat hstub.offs
  have hv1 : w1.stubV ≠ 0 := by
    rw [(Walk.of_bare hb1).2.2.2.2.2]
    simp only [Walk.pass]
    omega
  -- behind a header nothing is printed for the payload
  have hs2 : walkStep f .listing w1 = .stop (.ok w1) := by
    have hpay := (consistent_concat [] (headerAt f 0) _).mp hcons
    have hflags : w1.flags = u16 (headerAt f 0) 0x38 := by
      have := congrArg Walk.flags hb1
      exact this
    rw [← hflags] at hpay
    rw [walkStep_full hc1 hl, if_neg hp]
    by_cases hc : isCoff (headerAt f n)
    · have h80 := hpay.1 hc
      simp [hc, h80, hv1]
    · by_cases he : isElf (headerAt f n)
      · have h80 := hpay.2 he
        simp [hc, he, h80, hv1]
      · simp [hc, he]
  have hends : Ends (walkStep f .listing) Walk.init (.ok w1) :=
    (ends_next hs1).mpr ((ends_stop hs2).mpr rfl)
  have hafter : w1.bare = Walk.init.after .listing [headerAt f 0] n := by
    rw [hb1, ← hstub.offs]
    rfl
  obtain ⟨q, hq, -⟩ := (prepare_after ht rfl hacc stubVer hafter).1 ⟨hL, by simp, by simp⟩
  refine returns_iff.mpr ⟨w1, hends, q, hq, ?_⟩
  rw [prepare_ibuf hq, hi1]
  rfl

/-! ## Magic numbers -/

theorem byteAt_headerAt (C : Bytes) {k : Nat} (hk : k < 0x40) :
    byteAt (headerAt C 0) k = byteAt C k := by
  rw [headerAt, byteAt_slice hk, Nat.zero_add]

/-- The magic of a file is that of its first header. -/
theorem isMz_headerAt (C : Bytes) : isMz (headerAt C 0) ↔ isMz C := by
  simp only [isMz, byteAt_headerAt C (show 0 < 0x40 by decide),
    byteAt_headerAt C (show 1 < 0x40 by decide)]

theorem isCoff_headerAt (C : Bytes) : isCoff (headerAt C 0) ↔ isCoff C := by
  simp only [isCoff, byteAt_headerAt C (show 0 < 0x40 by decide),
    byteAt_headerAt C (show 1 < 0x40 by decide)]

theorem isElf_headerAt (C : Bytes) : isElf (headerAt C 0) ↔ isElf C := by
  simp only [isElf, byteAt_headerAt C (show 0 < 0x40 by decide),
    byteAt_headerAt C (show 1 < 0x40 by decide), byteAt_headerAt C (show 2 < 0x40 by decide),
    byteAt_headerAt C (show 3 < 0x40 by decide)]

theorem not_isMz_of_magic {C : Bytes} (hC : isCoff C ∨ isElf C) : ¬ isMz C := by
  rintro ⟨h, -⟩
  rcases hC with hc | he
  · have := hc.1
    omega
  · have := he.1
    omega

/-! ## Stubifying twice -/

theorem areaOf_plain (tmpl : Bytes) (stubVer size : Nat) (hs : List Bytes) (h : Bytes) :
    areaOf .plain tmpl stubVer size (hs ++ [h]) = slice h 0x1c 0x20 := by
  simp [areaOf, cutOf, Options.plain]

theorem bodyOf_plain (f : Bytes) (hs : List Bytes) (p : Nat) : bodyOf .plain f hs p = f.drop p := by
  simp only [bodyOf, limit_nostrip (o := .plain) hs rfl]

theorem headerAt_drop (f : Bytes) (p : Nat) : headerAt (f.drop p) 0 = headerAt f p := by
  rw [headerAt, slice_drop, Nat.add_zero]

/-- The header area that a plain run writes. -/
theorem areaOf_plain_length {tmpl : Bytes} (ht : 0x40 ≤ tmpl.length) (stubVer size : Nat) {f : Bytes}
    {hs : List Bytes} {p : Nat} (hch : Chain f 0 hs p) :
    (areaOf .plain tmpl stubVer size hs).length = 0x20 := by
  rcases List.eq_nil_or_concat hs with rfl | ⟨hs', h, rfl⟩
  · exact rawArea_length ht stubVer size
  · rw [List.concat_eq_append] at hch ⊢
    have hl := (hch.mem (h := h) (by simp)).1
    rw [areaOf_plain]
    exact slice_length_of_le (by omega)

/-- A second plain run returns the output of the first one unchanged exactly
when the file had an lfanew header, or a COFF payload. -/
theorem restub_idempotent_iff {tmpl : Bytes} (ht : stubAccepted tmpl) (hz : ZeroArea tmpl)
    {f g : Bytes} {hs : List Bytes} {p : Nat} (hch : Chain f 0 hs p)
    (hpay : isCoff (headerAt f p) ∨ isElf (headerAt f p))
    (hret : Returns tmpl defaultStubVer .plain f (.file g)) :
    Returns tmpl defaultStubVer .plain g (.file g) ↔ hs ≠ [] ∨ isCoff (headerAt f p) := by
  obtain ⟨hacc, hfit, hg⟩ := (returns_file_of_chain ht.1 rfl rfl hch).mp hret
  have ha := areaOf_plain_length ht.1 defaultStubVer (f.length - p) hch
  rw [bodyOf_plain] at hg
  obtain ⟨hl, hm⟩ := hch.payload_header
  have hl0 : (headerAt (f.drop p) 0).length = 0x40 := by rw [headerAt_drop]; exact hl
  have hm0 : ¬ isMz (headerAt (f.drop p) 0) := by rw [headerAt_drop]; exact hm
  have hagain := restub_again ht ha hfit.template hl0 hm0 defaultStubVer g
  have harea := restubbed_sameArea ht ha (f.drop p)
  rw [headerAt_drop, ← hg] at hagain
  rw [← hg] at harea
  rw [hagain]
  rcases List.eq_nil_or_concat hs with rfl | ⟨hs', h, rfl⟩
  · -- no flag is set in the header of an image without a stub
    obtain ⟨-, hver, hsame⟩ := rawArea_header ht.1 (by decide) (hfit.size rfl) harea
    obtain ⟨-, hflags⟩ := rawArea_zero hz hsame
    have hcons := consistent_concat [] (headerAt g 0) (headerAt f p)
    rw [hflags] at hcons
    constructor
    · rintro ⟨-, h, -⟩
      exact .inr (hpay.resolve_right fun he => (hcons.mp h).2 he rfl)
    · intro h
      have hc := h.resolve_left fun hne => hne rfl
      exact ⟨Nat.le_of_eq hver.symm,
        hcons.mpr ⟨fun _ => rfl, fun he => absurd he (isCoff_not_isElf hc)⟩, rfl⟩
  · rw [List.concat_eq_append] at *
    rw [areaOf_plain] at harea
    have hsame : SameArea (headerAt g 0) h := harea
    constructor
    · exact fun _ => .inl (by simp)
    · intro _
      refine ⟨?_, (consistent_concat [] (headerAt g 0) (headerAt f p)).mpr ?_, rfl⟩
      · rw [hsame.version_eq]
        exact (hacc.admits h (by simp)).version
      · rw [hsame.u16_eq (by omega) (by omega)]
        exact (consistent_concat hs' h (headerAt f p)).mp hacc.consistent

/-- A smallest template with a zero header area. -/
def bareTemplate : Bytes :=
  [0x4d, 0x5a] ++ List.replicate 6 0 ++ [4] ++ List.replicate 0x37 0

def elfImage : Bytes := [0x7f, 0x45, 0x4c, 0x46] ++ List.replicate 0x3c 0
def coffImage : Bytes := [0x4c, 0x01] ++ List.replicate 0x3e 0

/-- What a plain run makes of an image that has no stub. -/
def stubbed (tmpl : Bytes) (stubVer : Nat) (C : Bytes) : Bytes :=
  restubbed tmpl (rawArea tmpl stubVer C.length) ++ C

/-- The output for a bare ELF image has flag 0x80 clear, and a second run
refuses it. -/
theorem restub_elf_refused :
    stubAccepted bareTemplate ∧ ZeroArea bareTemplate ∧ Chain elfImage 0 [] 0 ∧
      isElf (headerAt elfImage 0) ∧
      Returns bareTemplate defaultStubVer .plain elfImage
        (.file (stubbed bareTemplate defaultStubVer elfImage)) ∧
      coff2exe 2 bareTemplate defaultStubVer .plain
        (stubbed bareTemplate defaultStubVer elfImage) = some (.error .unexpectedElf) ∧
      ¬ ∃ out, Returns bareTemplate defaultStubVer .plain
        (stubbed bareTemplate defaultStubVer elfImage) out := by
  have hrun : coff2exe 2 bareTemplate defaultStubVer .plain
      (stubbed bareTemplate defaultStubVer elfImage) = some (.error .unexpectedElf) := by
    decide +kernel
  refine ⟨by decide, by decide, .payload (.here 0 (by decide) (by decide)) (by decide), by decide,
    ⟨1, by decide +kernel⟩, hrun, ?_⟩
  rintro ⟨out, h⟩
  exact not_returns_of_error hrun out h

theorem coffImage_chain : Chain coffImage 0 [] 0 :=
  .payload (.here 0 (by decide) (by decide)) (by decide)

theorem restub_idempotent_coff :
    Returns bareTemplate defaultStubVer .plain (stubbed bareTemplate defaultStubVer coffImage)
      (.file (stubbed bareTemplate defaultStubVer coffImage)) :=
  (restub_idempotent_iff (by decide) (by decide) coffImage_chain (.inl (by decide))
    ⟨1, by decide +kernel⟩).mpr (.inr (by decide))

/-! ## Taking the stub off again -/

/-- An old-style image: bytes 8 and 9 are not 4, 0, and the header declares the
image's own length. -/
structure OldImage (m : Bytes) : Prop where
  full : 10 ≤ m.length
  mz : isMz m
  old : ¬ isLfanew m
  declares : oldMzLength m = m.length

theorem oldMzLength_congr {a b : Bytes} (h : ∀ k, 2 ≤ k → k < 6 → byteAt a k = byteAt b k) :
    oldMzLength a = oldMzLength b := by
  simp only [oldMzLength, h 2 (by omega) (by omega), h 3 (by omega) (by omega),
    h 4 (by omega) (by omega), h 5 (by omega) (by omega)]

/-- Old-style images are passed one after another. -/
theorem oldMz_of_images (pre : Bytes) {M : List Bytes} (hM : ∀ m ∈ M, OldImage m) {C : Bytes}
    (hl : 0x40 ≤ C.length) (hm : ¬ isMz C) :
    OldMz (pre ++ (M.flatten ++ C)) pre.length (pre.length + M.flatten.length : Nat) := by
  induction M generalizing pre with
  | nil =>
    have hhead : headerAt (pre ++ C) pre.length = headerAt C 0 := by
      rw [headerAt, slice_append_right (Nat.le_refl _), Nat.sub_self]
    rw [← isMz_headerAt, ← hhead] at hm
    have hfull : (headerAt (pre ++ C) pre.length).length = 0x40 := by
      rw [header_length_iff, List.length_append]
      omega
    exact .here _ hfull fun h => hm h.1
  | cons m M ih =>
    have hmi := hM m (by simp)
    have hfull := hmi.full
    have hbyte (k : Nat) (hk : k < 10) :
        byteAt (headerAt (pre ++ ((m :: M).flatten ++ C)) pre.length) k = byteAt m k := by
      rw [headerAt, byteAt_slice (by omega)]
      refine byteAt_eq_of_getElem? ?_
      rw [List.getElem?_append_right (by omega), List.flatten_cons, List.append_assoc,
        List.getElem?_append_left (by omega)]
      congr 1
      omega
    have hlen : oldMzLength (headerAt (pre ++ ((m :: M).flatten ++ C)) pre.length) = m.length := by
      rw [← hmi.declares]
      exact oldMzLength_congr fun k _ hk => hbyte k (by omega)
    refine .skip _ _ ?_ ?_ ?_ ?_
    · rw [header_length_iff]
      simp
      omega
    · exact ⟨by rw [hbyte 0 (by omega)]; exact hmi.mz.1, by rw [hbyte 1 (by omega)]; exact hmi.mz.2⟩
    · rintro ⟨h8, h9⟩
      rw [hbyte 8 (by omega)] at h8
      rw [hbyte 9 (by omega)] at h9
      exact hmi.old ⟨h8, h9⟩
    · have h := ih (pre ++ m) fun x hx => hM x (by simp [hx])
      rw [hlen]
      simpa [Nat.add_assoc] using h

theorem chain_of_images {M : List Bytes} (hM : ∀ m ∈ M, OldImage m) {C : Bytes}
    (hl : 0x40 ≤ C.length) (hm : ¬ isMz C) : Chain (M.flatten ++ C) 0 [] M.flatten.length := by
  have h := oldMz_of_images [] hM hl hm
  simp only [List.nil_append, List.length_nil, Nat.zero_add] at h
  refine .payload h ?_
  rw [headerAt, slice_append_right (Nat.le_refl _), Nat.sub_self, isMz_headerAt]
  exact hm

/-- Old-style images in front of a payload leave no trace in the output. -/
theorem returns_images_iff {tmpl : Bytes} (ht : 0x40 ≤ tmpl.length) {M : List Bytes}
    (hM : ∀ m ∈ M, OldImage m) {C : Bytes} (hl : 0x40 ≤ C.length) (hm : ¬ isMz C) {stubVer : Nat}
    {g : Bytes} :
    Returns tmpl stubVer .plain (M.flatten ++ C) (.file g) ↔
      tmpl.length < 2 ^ 32 ∧ C.length < 2 ^ 32 ∧ stubVer < 256 ∧
        g = restubbed tmpl (rawArea tmpl stubVer C.length) ++ C := by
  have hlen : (M.flatten ++ C).length - M.flatten.length = C.length := by simp
  rw [returns_raw_iff ht (chain_of_images hM hl hm), hlen, List.drop_left]
  constructor
  · rintro ⟨hfit, hg⟩
    have hsize := hfit.size rfl
    rw [hlen] at hsize
    exact ⟨hfit.template, hsize, hfit.version rfl, hg⟩
  · rintro ⟨hL, hsize, hv, hg⟩
    exact ⟨⟨hL, fun _ => by rw [hlen]; exact hsize, fun _ => hv⟩, hg⟩

/-- Old-style images in front of a payload change nothing in the output, and
`-r` gives the payload back. -/
theorem remove_undoes_restub {tmpl : Bytes} (ht : stubAccepted tmpl) (hz : ZeroArea tmpl)
    {C : Bytes} (hl : 0x40 ≤ C.length) (h32 : C.length < 2 ^ 32) (hC : isCoff C ∨ isElf C)
    {M : List Bytes} (hM : ∀ m ∈ M, OldImage m) :
    (∀ g, Returns tmpl defaultStubVer .plain (M.flatten ++ C) (.file g) ↔
      Returns tmpl defaultStubVer .plain C (.file g)) ∧
    (tmpl.length < 2 ^ 32 → ∃ g, Returns tmpl defaultStubVer .plain C (.file g)) ∧
    ∀ g, Returns tmpl defaultStubVer .plain C (.file g) →
      Returns tmpl defaultStubVer .remove g (.file C) := by
  have hm := not_isMz_of_magic hC
  have hC' {g : Bytes} := @returns_images_iff tmpl ht.1 [] (by simp) C hl hm defaultStubVer g
  rw [List.flatten_nil, List.nil_append] at hC'
  refine ⟨fun g => ?_, fun hL => ?_, fun g h => ?_⟩
  · rw [returns_images_iff ht.1 hM hl hm, hC']
  · exact ⟨_, hC'.mpr ⟨hL, h32, by decide, rfl⟩⟩
  · obtain ⟨hL, -, -, rfl⟩ := hC'.mp h
    have ha := rawArea_length ht.1 defaultStubVer C.length
    obtain ⟨hsize, hver, hsame⟩ :=
      rawArea_header ht.1 (by decide) h32 (restubbed_sameArea ht ha C)
    obtain ⟨hmap, hflags⟩ := rawArea_zero hz hsame
    refine (returns_remove_lfanew ht.1 rfl rfl (restubbed_oldMz ht ha C)
      (restubbed_isMz ht ha C).1).mpr ⟨Nat.le_of_eq hver.symm, hL, ?_⟩
    -- an empty type map makes all bytes behind the stub one COFF overlay
    have htab : table (headerAt (restubbed tmpl (rawArea tmpl defaultStubVer C.length) ++ C) 0) =
        [(0, C.length)] := by
      rw [table, if_pos hmap, hsize]
    have hne : C.length ≠ 0 := by omega
    have hlen := restubbed_length ht ha
    rw [selected, hflags, findOffs_eq, findSize_eq, htab, restubbed_lfanew ht ha hL]
    simp only [rmType, find, layout, layoutFrom]
    simp [ObjType.value, hne, slice_append_right, hlen, slice_zero_length]

/-- An old-style image of 64 bytes: one block, of which 64 bytes are used. -/
def oldImage : Bytes := [0x4d, 0x5a, 0x40, 0, 1, 0] ++ List.replicate 0x3a 0

theorem remove_undoes_restub_coff :
    (∀ g, Returns bareTemplate defaultStubVer .plain ([oldImage, oldImage].flatten ++ coffImage)
        (.file g) ↔ Returns bareTemplate defaultStubVer .plain coffImage (.file g)) ∧
    (bareTemplate.length < 2 ^ 32 →
      ∃ g, Returns bareTemplate defaultStubVer .plain coffImage (.file g)) ∧
    ∀ g, Returns bareTemplate defaultStubVer .plain coffImage (.file g) →
      Returns bareTemplate defaultStubVer .remove g (.file coffImage) := by
  have hold : OldImage oldImage := ⟨by decide, by decide, by decide, by decide⟩
  exact remove_undoes_restub (by decide) (by decide) (by decide) (by decide) (.inl (by decide))
    (M := [oldImage, oldImage]) (by simp [hold])

/-! ## Removal of an exact extent -/

/-- `-r` writes the extent that the header declares, exactly if that is not empty
or nothing follows it. -/
theorem remove_exact_iff {tmpl : Bytes} (ht : 0x40 ≤ tmpl.length) (hL : tmpl.length < 2 ^ 32)
    {o : Options} (hr : o.rmstub = true) (hi : o.info = false) (stubVer : Nat) {f : Bytes}
    (hl : (headerAt f 0).length = 0x40) (hm : isMz (headerAt f 0)) (hn : isLfanew (headerAt f 0))
    (h8 : 8 ≤ byteAt (headerAt f 0) 0x3b) {off size : Nat}
    (ho : findOffs (rmType (u16 (headerAt f 0) 0x38)) (headerAt f 0) = some off)
    (hs : findSize (rmType (u16 (headerAt f 0) 0x38)) (headerAt f 0) = some size)
    (hfit : u32 (headerAt f 0) 0x3c + off + size ≤ f.length) :
    Returns tmpl stubVer o f (.file (slice f (u32 (headerAt f 0) 0x3c + off) size)) ↔
      size ≠ 0 ∨ u32 (headerAt f 0) 0x3c + off = f.length := by
  have hmz : OldMz f 0 0 := .here 0 hl fun h => h.2 hn
  rw [returns_remove_lfanew ht hr hi hmz hm, selected, ho, hs]
  simp only [h8, hL, true_and, Option.some.injEq]
  by_cases h0 : size = 0
  · -- the rest of the file is taken
    have hnil : slice f (u32 (headerAt f 0) 0x3c + off) 0 = [] := List.take_zero
    simp only [h0, if_true, hnil, List.drop_eq_nil_iff, ne_eq, not_true_eq_false, false_or]
    omega
  · simp only [h0, if_false, ne_eq, not_false_eq_true, true_or]

/-- A header for a COFF overlay of `n` bytes and one with debug information. -/
def sizedExe (n : UInt8) : Bytes :=
  patch (patch (patch (patch bareTemplate 0x1c [n, 0, 0, 0, 5]) 0x36 [0x40]) 0x3b [8]) 0x3c [0x40] ++
    [1, 2, 3, 4, 5]

/-- Instead of the empty overlay the debug information is written. -/
theorem remove_takes_rest :
    (isMz (headerAt (sizedExe 0) 0) ∧ isLfanew (headerAt (sizedExe 0) 0) ∧
      8 ≤ byteAt (headerAt (sizedExe 0) 0) 0x3b) ∧
    findOffs (rmType (u16 (headerAt (sizedExe 0) 0) 0x38)) (headerAt (sizedExe 0) 0) = some 0 ∧
    findSize (rmType (u16 (headerAt (sizedExe 0) 0) 0x38)) (headerAt (sizedExe 0) 0) = some 0 ∧
    u32 (headerAt (sizedExe 0) 0) 0x3c + 0 + 0 ≤ (sizedExe 0).length ∧
    Returns bareTemplate defaultStubVer .remove (sizedExe 0) (.file [1, 2, 3, 4, 5]) ∧
    ¬ Returns bareTemplate defaultStubVer .remove (sizedExe 0)
      (.file (slice (sizedExe 0) (u32 (headerAt (sizedExe 0) 0) 0x3c + 0) 0)) := by
  have hret : Returns bareTemplate defaultStubVer .remove (sizedExe 0) (.file [1, 2, 3, 4, 5]) :=
    ⟨1, by decide +kernel⟩
  refine ⟨by decide, by decide +kernel, by decide +kernel, by decide, hret, fun hempty => ?_⟩
  cases hret.unique hempty

theorem remove_exact_two :
    Returns bareTemplate defaultStubVer .remove (sizedExe 2) (.file (slice (sizedExe 2) 0x40 2)) := by
  have ht : 0x40 ≤ bareTemplate.length := by decide
  have hr : Options.remove.rmstub = true := rfl
  have hl : (headerAt (sizedExe 2) 0).length = 0x40 := by decide
  have ho : findOffs (rmType (u16 (headerAt (sizedExe 2) 0) 0x38)) (headerAt (sizedExe 2) 0) =
      some 0 := by
    decide +kernel
  have hs : findSize (rmType (u16 (headerAt (sizedExe 2) 0) 0x38)) (headerAt (sizedExe 2) 0) =
      some 2 := by
    decide +kernel
  exact (remove_exact_iff ht (by decide) hr rfl defaultStubVer hl (by decide) (by decide) (by decide)
    ho hs (by decide)).mpr (.inl (by decide))

end Djstub
