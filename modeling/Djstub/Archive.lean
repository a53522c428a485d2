import Djstub.Handover
import Djstub.Simulation
import Djstub.Strip

/-! What a stubbed file is for: a list of overlays. `Archive` says what `coff2exe`
does to it in terms of the overlays alone, `Represents` which bytes stand for one,
and every run with and without `-s` is a step of the archive. -/

namespace Djstub

open Bytes Layout Loop Simulation

/-! ## Archives -/

structure Overlay where
  type : Nat
  data : Bytes
  filled : data ≠ []

def Overlay.slot (v : Overlay) : Nat × Nat := (v.type, v.data.length)

/-- The overlays that are listed, the types behind them whose slots are empty, and
the bytes behind the last overlay. -/
structure Archive where
  flags : Nat
  version : Nat
  overlays : List Overlay
  hidden : List Nat
  tail : Bytes

def contents (vs : List Overlay) : Bytes := (vs.map Overlay.data).flatten

@[simp] theorem contents_append (vs ws : List Overlay) :
    contents (vs ++ ws) = contents vs ++ contents ws := by simp [contents]

@[simp] theorem contents_singleton (v : Overlay) : contents [v] = v.data := by simp [contents]

theorem contents_length (vs : List Overlay) :
    (contents vs).length = total (vs.map Overlay.slot) := by
  induction vs with
  | nil => rfl
  | cons v vs ih =>
    rw [List.map_cons, total_cons, ← ih, ← List.singleton_append, contents_append,
      contents_singleton, List.length_append]
    rfl

theorem allSized_slots (vs : List Overlay) : AllSized (vs.map Overlay.slot) := by
  intro p hp
  obtain ⟨v, -, rfl⟩ := List.mem_map.mp hp
  exact fun h => v.filled (List.length_eq_zero_iff.mp h)

namespace Archive

def body (a : Archive) : Bytes := contents a.overlays ++ a.tail

def slots (a : Archive) : List (Nat × Nat) :=
  a.overlays.map Overlay.slot ++ a.hidden.map fun t => (t, 0)

/-- The type at which the listing stops. -/
def stopType (a : Archive) : Option Nat :=
  a.hidden.head?.or (a.overlays.getLast?.map Overlay.type)

def StopsAtDebug (a : Archive) : Prop := ∃ t ∈ a.stopType, isDebug t

instance (a : Archive) : Decidable a.StopsAtDebug :=
  match h : a.stopType with
  | none => isFalse (by simp [StopsAtDebug, h])
  | some t => decidable_of_iff (isDebug t) (by simp [StopsAtDebug, h])

/-- The slot of the last overlay is cleared. Its bytes go with it, unless an empty
slot has been taken for the overlay to strip. -/
def hide (a : Archive) (v : Overlay) : Archive :=
  { a with
    overlays := a.overlays.dropLast
    hidden := v.type :: a.hidden
    tail := if a.hidden = [] then [] else v.data }

/-- `-s` -/
def strip (a : Archive) : Option Archive :=
  if a.StopsAtDebug then
    if 1 < a.overlays.length then a.overlays.getLast?.map a.hide else none
  else some a

/-- The payload has a whole header of the kind that the flags announce. -/
structure Accepted (a : Archive) : Prop where
  version : 8 ≤ a.version
  long : 0x40 ≤ a.body.length
  coff : isCoff a.body → a.flags &&& 0x80 = 0
  elf : isElf a.body → a.flags &&& 0x80 ≠ 0

instance (a : Archive) : Decidable a.Accepted :=
  decidable_of_iff (8 ≤ a.version ∧ 0x40 ≤ a.body.length ∧
      (isCoff a.body → a.flags &&& 0x80 = 0) ∧ (isElf a.body → a.flags &&& 0x80 ≠ 0))
    ⟨fun ⟨h1, h2, h3, h4⟩ => ⟨h1, h2, h3, h4⟩, fun h => ⟨h.version, h.long, h.coff, h.elf⟩⟩

end Archive

/-- A run of `coff2exe` that writes a stub: the template, the global `stub_ver`,
and whether `-s` is given. -/
structure Rewrite where
  tmpl : Bytes
  stubVer : Nat
  strip : Bool

def Rewrite.options (o : Rewrite) : Options :=
  { info := false, rmstub := false, strip := o.strip }

/-- The run as an operation on the archive. -/
def Archive.rewrite (o : Rewrite) (a : Archive) : Option Archive :=
  if stubAccepted o.tmpl ∧ o.tmpl.length < 2 ^ 32 ∧ a.Accepted then
    if o.strip then a.strip else some a
  else none

/-- The run on a file. -/
def Rewrite.Writes (o : Rewrite) (g g' : Bytes) : Prop :=
  stubAccepted o.tmpl ∧ Returns o.tmpl o.stubVer o.options g (.file g')

/-! ## Files that hold an archive -/

/-- The stub ends at `n` and describes the overlays behind it. -/
structure Represents (a : Archive) (n : Nat) (g : Bytes) : Prop where
  stub : HasStub g n
  slots : table (headerAt g 0) = a.slots
  unused : ∀ i < 3, a.slots.length ≤ i → u32 (headerAt g 0) (0x1c + i * 4) = 0
  flags : u16 (headerAt g 0) 0x38 = a.flags
  version : byteAt (headerAt g 0) 0x3b = a.version
  body : g.drop n = a.body
  plain : ¬ isMz a.body

theorem table_ne_nil (h : Bytes) : table h ≠ [] := by
  unfold table
  split
  · simp
  · next hm =>
    intro hnil
    have hlen := tableFrom_length h 0 (Nat.digits 16 (u16 h 0x36))
    rw [hnil, List.length_nil] at hlen
    exact Nat.digits_ne_nil_iff_ne_zero.mpr hm (List.length_eq_zero_iff.mp hlen.symm)

/-- The cut of a header, in terms of the overlays. -/
theorem Archive.cut_eq {a : Archive} {h : Bytes} (hT : table h = a.slots) :
    (¬ a.StopsAtDebug → cut h = none) ∧
      (a.StopsAtDebug → ∃ keep, cut h = some ⟨a.overlays.length, keep⟩ ∧
        ∀ v, a.overlays.getLast? = some v → keep = (a.hide v).body.length) := by
  rcases hh : a.hidden with _ | ⟨t, U⟩
  · rcases List.eq_nil_or_concat a.overlays with hv | ⟨vs, v, hv⟩
    · rw [slots, hh, hv] at hT
      exact absurd hT (table_ne_nil h)
    · rw [List.concat_eq_append] at hv
      have hT' : table h = vs.map Overlay.slot ++ [(v.type, v.data.length)] := by
        rw [hT, slots, hh, hv]
        simp [Overlay.slot]
      have hs : AllSized (table h) := by
        rw [hT, slots, hh, List.map_nil, List.append_nil]
        exact allSized_slots _
      have hstop : a.StopsAtDebug ↔ isDebug v.type := by simp [StopsAtDebug, stopType, hh, hv]
      rw [cut_of_sized hT' hs, hstop]
      refine ⟨fun hd => if_neg hd, fun hd =>
        ⟨total (vs.map Overlay.slot), by rw [if_pos hd, hv]; simp, fun w hw => ?_⟩⟩
      simp [hide, body, hh, hv, contents_length]
  · have hT' : table h = a.overlays.map Overlay.slot ++ (t, 0) :: U.map fun t => (t, 0) := by
      rw [hT, slots, hh]
      rfl
    have hstop : a.StopsAtDebug ↔ isDebug t := by simp [StopsAtDebug, stopType, hh]
    rw [cut_of_stopped hT' (allSized_slots _), hstop]
    refine ⟨fun hd => if_neg hd, fun hd =>
      ⟨total (a.overlays.map Overlay.slot), by rw [if_pos hd]; simp, fun v hv => ?_⟩⟩
    rw [hide, body]
    dsimp only
    rw [hh, if_neg (by simp), ← contents_singleton v, ← contents_append, contents_length,
      List.dropLast_append_getLast? v hv]

/-! ## One run -/

namespace Represents
variable {a : Archive} {n : Nat} {g : Bytes} (r : Represents a n g)
include r

theorem headerAt_body : headerAt g n = headerAt a.body 0 := by rw [← r.body, headerAt_drop]

theorem full_iff : (headerAt g n).length = 0x40 ↔ 0x40 ≤ a.body.length := by
  rw [r.headerAt_body, header_length_iff, Nat.zero_add]

theorem not_isMz : ¬ isMz (headerAt g n) := by
  rw [r.headerAt_body, isMz_headerAt]
  exact r.plain

theorem chain (hl : 0x40 ≤ a.body.length) : Chain g 0 [headerAt g 0] n := by
  refine .lfanew r.stub.oldMz r.stub.mz ?_
  rw [r.stub.offs]
  exact .payload (.here n (r.full_iff.mpr hl) fun h => r.not_isMz h.1) r.not_isMz

/-- Nothing is accepted without a payload header. -/
theorem long_of_chain {hs : List Bytes} {p : Nat} (hch : Chain g 0 hs p) : 0x40 ≤ a.body.length := by
  have hin : n + 0x40 ≤ g.length := by
    cases hch with
    | payload ho hm =>
      rw [← r.stub.oldMz.unique ho] at hm
      exact absurd r.stub.mz hm
    | lfanew ho _ hch =>
      rw [← r.stub.oldMz.unique ho, r.stub.offs] at hch
      have := hch.start_full
      omega
  rw [← r.body, List.length_drop]
  omega

theorem consistent_iff : Consistent [headerAt g 0] (headerAt g n) ↔
    (isCoff a.body → a.flags &&& 0x80 = 0) ∧ (isElf a.body → a.flags &&& 0x80 ≠ 0) := by
  have h := consistent_concat [] (headerAt g 0) (headerAt g n)
  rw [List.nil_append] at h
  rw [h, r.headerAt_body, isCoff_headerAt, isElf_headerAt, r.flags]

/-- A run without `-r` and `-i` on the file. -/
theorem returns_iff {tmpl : Bytes} (ht : 0x40 ≤ tmpl.length) {o : Options} (hr : o.rmstub = false)
    (hi : o.info = false) (stubVer : Nat) (g' : Bytes) :
    Returns tmpl stubVer o g (.file g') ↔ tmpl.length < 2 ^ 32 ∧ a.Accepted ∧
      (∀ c, cutOf o (headerAt g 0) = some c → 1 < c.i) ∧
      g' = restubbed tmpl (slice ((cutOf o (headerAt g 0)).elim (headerAt g 0)
        (cutHeader (headerAt g 0))) 0x1c 0x20) ++
          ((cutOf o (headerAt g 0)).elim a.body fun c => a.body.take c.keep) := by
  have hbody : bodyOf o g [headerAt g 0] n =
      (cutOf o (headerAt g 0)).elim a.body fun c => a.body.take c.keep := by
    have hlim := limit_concat o [] (headerAt g 0)
    rw [List.nil_append] at hlim
    rw [bodyOf, hlim]
    cases cutOf o (headerAt g 0) with
    | none => exact r.body
    | some c => exact congrArg (List.take c.keep) r.body
  have hstrips : (∀ c, cutOf o (headerAt g 0) = some c → 1 < c.i) ↔
      (o.strip = true → ∀ c, cut (headerAt g 0) = some c → 1 < c.i) := by
    simp only [cutOf_eq_some, and_imp]
    exact ⟨fun h hs c hc => h c hs hc, fun h c hs hc => h hs c hc⟩
  constructor
  · intro h
    obtain ⟨hs, p, hacc, -⟩ := accepts_of_returns ht hr h
    have hl := r.long_of_chain hacc.chain
    obtain ⟨hacc, hfit, hg⟩ := (returns_file_of_chain ht hr hi (r.chain hl)).mp h
    have hadm := hacc.admits _ (List.mem_singleton_self _)
    obtain ⟨hcoff, helf⟩ := r.consistent_iff.mp hacc.consistent
    have hver := hadm.version
    rw [r.version] at hver
    exact ⟨hfit.template, ⟨hver, hl, hcoff, helf⟩, hstrips.mpr hadm.strips, by rw [hg, hbody]; rfl⟩
  · rintro ⟨hL, hacc, hcut, hg⟩
    refine (returns_file_of_chain ht hr hi (r.chain hacc.long)).mpr
      ⟨⟨r.chain hacc.long, ?_, r.consistent_iff.mpr ⟨hacc.coff, hacc.elf⟩⟩,
        ⟨hL, by simp, by simp⟩, by rw [hg, hbody]; rfl⟩
    intro h hh
    rw [List.mem_singleton.mp hh]
    exact ⟨by rw [r.version]; exact hacc.version, hstrips.mp hcut⟩

end Represents

/-- A new stub over a header and a body. -/
theorem represents_restubbed {tmpl : Bytes} (ht : stubAccepted tmpl) (hL : tmpl.length < 2 ^ 32)
    {h : Bytes} (hl : h.length = 0x40) {a : Archive} (hslots : table h = a.slots)
    (hunused : ∀ i < 3, a.slots.length ≤ i → u32 h (0x1c + i * 4) = 0)
    (hflags : u16 h 0x38 = a.flags) (hver : byteAt h 0x3b = a.version) (hplain : ¬ isMz a.body) :
    Represents a tmpl.length (restubbed tmpl (slice h 0x1c 0x20) ++ a.body) := by
  have ha : (slice h 0x1c 0x20).length = 0x20 := slice_length_of_le (by omega)
  have hsame : SameArea (headerAt (restubbed tmpl (slice h 0x1c 0x20) ++ a.body) 0) h :=
    restubbed_sameArea ht ha a.body
  refine ⟨restubbed_hasStub ht ha hL a.body, hsame.table_eq.trans hslots, fun i hi hle => ?_,
    (hsame.u16_eq (by omega) (by omega)).trans hflags, hsame.version_eq.trans hver, ?_, hplain⟩
  · rw [hsame.u32_eq (by omega) (by omega)]
    exact hunused i hi hle
  · rw [← restubbed_length ht ha, List.drop_left]

theorem LdOps.Matches.append {ops : LdOps} {b : Bytes} (h : ops.Matches b) (c : Bytes) :
    ops.Matches (b ++ c) := by
  cases ops with
  | coff =>
    obtain ⟨h0, h1⟩ : isCoff b := h
    exact ⟨by rw [byteAt_append (by omega), h0], by rw [byteAt_append (by omega), h1]⟩
  | elf =>
    obtain ⟨h0, h1, h2, h3⟩ : isElf b := h
    exact ⟨by rw [byteAt_append (by omega), h0], by rw [byteAt_append (by omega), h1],
      by rw [byteAt_append (by omega), h2], by rw [byteAt_append (by omega), h3]⟩

theorem isMz_extend {b c : Bytes} (h : b <+: c) (hm : isMz b) : isMz c := by
  obtain ⟨t, rfl⟩ := h
  obtain ⟨h0, h1⟩ := hm
  exact ⟨by rw [byteAt_append (by omega), h0], by rw [byteAt_append (by omega), h1]⟩

section
variable {a : Archive} {v : Overlay} (hv : a.overlays.getLast? = some v)
include hv

theorem Archive.hide_body_prefix : (a.hide v).body <+: a.body := by
  have hsplit : a.body = contents a.overlays.dropLast ++ (v.data ++ a.tail) := by
    rw [body, ← List.dropLast_append_getLast? v hv, contents_append, contents_singleton,
      List.append_assoc, List.dropLast_concat]
  rw [hsplit, hide, body]
  dsimp only
  split
  · rw [List.append_nil]
    exact List.prefix_append _ _
  · rw [List.prefix_append_right_inj]
    exact List.prefix_append _ _

theorem Archive.slots_split : a.slots =
    a.overlays.dropLast.map Overlay.slot ++ (v.type, v.data.length) :: a.hidden.map fun t => (t, 0) := by
  conv_lhs => rw [slots, ← List.dropLast_append_getLast? v hv]
  simp [Overlay.slot]

/-- The header with the cleared slot. -/
theorem Represents.hide {n : Nat} {g : Bytes} (r : Represents a n g) {tmpl : Bytes}
    (ht : stubAccepted tmpl) (hL : tmpl.length < 2 ^ 32) :
    Represents (a.hide v) tmpl.length (restubbed tmpl (slice (cutHeader (headerAt g 0)
      ⟨a.overlays.length, (a.hide v).body.length⟩) 0x1c 0x20) ++ (a.hide v).body) := by
  have hl := r.stub.full
  have hpos : a.overlays.length = (a.overlays.dropLast.map Overlay.slot).length + 1 := by
    rw [List.length_map, List.length_dropLast]
    cases hov : a.overlays with
    | nil => rw [hov] at hv; cases hv
    | cons w ws => simp
  have hT := r.slots.trans (Archive.slots_split hv)
  have h4 := table_length_le (headerAt g 0)
  have hlen := congrArg List.length (Archive.slots_split hv)
  rw [r.slots] at h4
  simp only [List.length_append, List.length_cons, List.length_map] at hlen hpos
  have htable := table_cutHeader hl hT (a.hide v).body.length
  have hslots : (a.hide v).slots = a.overlays.dropLast.map Overlay.slot ++
      (v.type, 0) :: a.hidden.map fun t => (t, 0) := rfl
  have hi : (Cut.mk a.overlays.length (a.hide v).body.length).i ≤ 4 := by
    show a.overlays.length ≤ 4
    omega
  rw [List.length_map, ← hpos] at htable
  have hcl : (cutHeader (headerAt g 0) ⟨a.overlays.length, (a.hide v).body.length⟩).length = 0x40 := by
    rw [cutHeader, patch_length (by rw [toBytes_length]; dsimp only; omega), hl]
  refine represents_restubbed ht hL hcl (htable.trans hslots.symm) (fun i hi3 hle => ?_) ?_ ?_
    fun hm => r.plain (isMz_extend (Archive.hide_body_prefix hv) hm)
  · rw [hslots] at hle
    simp only [List.length_append, List.length_cons, List.length_map] at hle
    rw [cutHeader, u32, slice_patch_of_disjoint (by rw [toBytes_length]; dsimp only; omega)
      (by rw [toBytes_length]; dsimp only; omega)]
    exact r.unused i hi3 (by omega)
  · rw [cutHeader_u16 hl hi (by omega)]
    exact r.flags
  · rw [cutHeader_byteAt hl hi (by omega)]
    exact r.version

end

/-! ## Runs -/

theorem Rewrite.Writes.unique {o : Rewrite} {g g1 g2 : Bytes} (h1 : o.Writes g g1)
    (h2 : o.Writes g g2) : g1 = g2 := Output.file.inj (h1.2.unique h2.2)

theorem Archive.rewrite_eq_some {o : Rewrite} {a a' : Archive} :
    a.rewrite o = some a' ↔ (stubAccepted o.tmpl ∧ o.tmpl.length < 2 ^ 32 ∧ a.Accepted) ∧
      (if o.strip then a.strip else some a) = some a' := by
  unfold rewrite
  split
  · next h => simp only [h, true_and]
  · next h =>
    constructor
    · intro h'
      cases h'
    · rintro ⟨h', -⟩
      exact absurd h' h

namespace Represents
variable {a : Archive} {n : Nat} {g : Bytes} (r : Represents a n g)
include r

/-- The cut of a run, if the archive takes the run. -/
theorem cutOf_some {o : Rewrite} (hs : o.strip = true) (hd : a.StopsAtDebug) : ∃ keep,
    cutOf o.options (headerAt g 0) = some ⟨a.overlays.length, keep⟩ ∧
      ∀ v, a.overlays.getLast? = some v → keep = (a.hide v).body.length := by
  obtain ⟨keep, hcut, hkeep⟩ := (Archive.cut_eq r.slots).2 hd
  exact ⟨keep, cutOf_eq_some.mpr ⟨hs, hcut⟩, hkeep⟩

theorem cutOf_none {o : Rewrite} (h : ¬ (o.strip = true ∧ a.StopsAtDebug)) :
    cutOf o.options (headerAt g 0) = none := by
  refine Option.eq_none_iff_forall_ne_some.mpr fun c hc => ?_
  obtain ⟨hs, hcut⟩ := cutOf_eq_some.mp hc
  rw [(Archive.cut_eq r.slots).1 fun hd => h ⟨hs, hd⟩] at hcut
  cases hcut

theorem writes_of_rewrite {o : Rewrite} {a' : Archive} (h : a.rewrite o = some a') :
    ∃ g', o.Writes g g' ∧ Represents a' o.tmpl.length g' := by
  obtain ⟨⟨ht, hL, hacc⟩, hstep⟩ := Archive.rewrite_eq_some.mp h
  by_cases hcut : o.strip = true ∧ a.StopsAtDebug
  · obtain ⟨hs, hd⟩ := hcut
    obtain ⟨keep, hc, hkeep⟩ := r.cutOf_some hs hd
    rw [if_pos hs, Archive.strip, if_pos hd] at hstep
    split at hstep
    case isFalse => cases hstep
    next hlen =>
    obtain ⟨v, hv, rfl⟩ := Option.map_eq_some_iff.mp hstep
    rw [hkeep v hv] at hc
    refine ⟨_, ⟨ht, (r.returns_iff ht.1 rfl rfl o.stubVer _).mpr ⟨hL, hacc, fun c hc' => ?_, rfl⟩⟩, ?_⟩
    · rw [hc] at hc'
      cases hc'
      exact hlen
    · rw [hc, Option.elim_some, Option.elim_some,
        ← List.prefix_iff_eq_take.mp (Archive.hide_body_prefix hv)]
      exact r.hide hv ht hL
  · have hc := r.cutOf_none hcut
    have ha : a = a' := by
      by_cases hs : o.strip = true
      · rw [if_pos hs, Archive.strip, if_neg fun hd => hcut ⟨hs, hd⟩] at hstep
        exact Option.some.inj hstep
      · rw [if_neg hs] at hstep
        exact Option.some.inj hstep
    subst ha
    refine ⟨_, ⟨ht, (r.returns_iff ht.1 rfl rfl o.stubVer _).mpr ⟨hL, hacc, fun c hc' => ?_, rfl⟩⟩, ?_⟩
    · rw [hc] at hc'
      cases hc'
    · rw [hc, Option.elim_none, Option.elim_none]
      exact represents_restubbed ht hL r.stub.full r.slots r.unused r.flags r.version r.plain

theorem rewrite_of_writes {o : Rewrite} {g' : Bytes} (h : o.Writes g g') :
    ∃ a', a.rewrite o = some a' := by
  obtain ⟨ht, hret⟩ := h
  obtain ⟨hL, hacc, hcut, -⟩ := (r.returns_iff ht.1 rfl rfl o.stubVer g').mp hret
  have hstep : ∃ a', (if o.strip then a.strip else some a) = some a' := by
    split
    case isFalse => exact ⟨a, rfl⟩
    next hs =>
    unfold Archive.strip
    split
    case isFalse => exact ⟨a, rfl⟩
    next hd =>
    obtain ⟨keep, hc, -⟩ := r.cutOf_some hs hd
    have hlen : 1 < a.overlays.length := hcut _ hc
    rw [if_pos hlen]
    have hne : a.overlays ≠ [] := List.ne_nil_of_length_pos (by omega)
    exact ⟨_, by rw [List.getLast?_eq_some_getLast hne]; rfl⟩
  obtain ⟨a', ha⟩ := hstep
  exact ⟨a', Archive.rewrite_eq_some.mpr ⟨⟨ht, hL, hacc⟩, ha⟩⟩

end Represents

/-- A run of `coff2exe` without `-r` and `-i` does to the file what the archive
says, and fails where the archive says so. -/
theorem rewrite_refines : Refines (fun a g => ∃ n, Represents a n g)
    (fun o a => a.rewrite o) Rewrite.Writes := by
  constructor
  · rintro o a g g' ⟨n, r⟩ h
    obtain ⟨a', ha⟩ := r.rewrite_of_writes h
    obtain ⟨g1, h1, r1⟩ := r.writes_of_rewrite ha
    rw [h.unique h1]
    exact ⟨a', ha, _, r1⟩
  · rintro o a a' g ⟨n, r⟩ h
    obtain ⟨g', h', r'⟩ := r.writes_of_rewrite h
    exact ⟨g', h', _, r'⟩

end Djstub
