import Djstub.Fullstub
import Djstub.Pack

/-! What the loader finds in the files that `djstubify` writes: behind a new stub
on a file that had one, and in a generated file. -/

namespace Djstub

open Bytes Layout Loop

/-! ## A file that is stubified again -/

/-- What the walk has taken from the last header: the payload offset, the sizes,
the lower flags and the version. -/
structure StubWalk.Reads (s : StubWalk) (h : Bytes) (offs : Nat) : Prop where
  coffset : s.coffset = offs
  coffsize : s.coffsize = u32 h 0x1c
  nsize : s.nsize = u32 h 0x20
  nsize2 : s.nsize2 = u32 h 0x24
  flags : s.flags % 2 ^ 16 = u16 h 0x38

theorem pass_reads (s : StubWalk) (h : Bytes) : (s.pass h).Reads h (u32 h 0x3c) := by
  have hu := u16_lt h 0x38
  refine ⟨rfl, rfl, rfl, rfl, ?_⟩
  simp only [StubWalk.pass]
  omega

theorem Trail.payload_full {f : Bytes} {c p : Nat} {hs : List Bytes} (h : Trail f c hs p) :
    (headerAt f p).length = 0x40 := by
  induction h with
  | payload _ hl _ => exact hl
  | lfanew _ _ _ _ ih => exact ih

theorem Trail.last {f : Bytes} {c p : Nat} {hs : List Bytes} {h : Bytes}
    (ht : Trail f c (hs ++ [h]) p) (hoff : u32 h 0x3c < 2 ^ 31) : u32 h 0x3c = p := by
  generalize hl : hs ++ [h] = l at ht
  induction ht generalizing hs with
  | payload => simp at hl
  | @lfanew c p ks _ _ _ ht ih =>
    cases hs with
    | nil =>
      obtain ⟨rfl, rfl⟩ := List.cons.inj hl
      rw [lseek, if_pos hoff] at ht
      cases ht
      rfl
    | cons k hs =>
      obtain ⟨-, hks⟩ := List.cons.inj hl
      exact ih hks

/-- The payload checks of `coff2exe` against the loader that `fullstub` chose. -/
theorem consistent_ops (hs : List Bytes) {ops : LdOps} {h buf : Bytes} (ho : ops.Matches buf) :
    Consistent (hs ++ [h]) buf ↔ (u16 h 0x38 &&& 0x80 ≠ 0 ↔ ops = .elf) := by
  rw [consistent_concat]
  cases ops with
  | coff =>
    have hc : isCoff buf := ho
    simp [hc, isCoff_not_isElf hc]
  | elf =>
    have he : isElf buf := ho
    have hc : ¬ isCoff buf := fun hc => isCoff_not_isElf hc he
    simp [hc, he]

/-- When a plain run of `coff2exe` returns 0 on a file that `fullstub` loads
through one or more headers, and what it writes. -/
theorem returns_trail_iff {tmpl : Bytes} (ht : 0x40 ≤ tmpl.length) (hL : tmpl.length < 2 ^ 32)
    {f : Bytes} (hf : f.length ≤ 2 ^ 31) {hs : List Bytes} {h : Bytes} {p : Nat}
    (htr : Trail f 0 (hs ++ [h]) p) {ops : LdOps} (ho : ops.Matches (headerAt f p))
    (stubVer : Nat) (g : Bytes) :
    Returns tmpl stubVer .plain f (.file g) ↔
      (∀ k ∈ hs ++ [h], u32 k 0x3c < 2 ^ 31 ∧ 8 ≤ byteAt k 0x3b) ∧
      (u16 h 0x38 &&& 0x80 ≠ 0 ↔ ops = .elf) ∧
      g = restubbed tmpl (slice h 0x1c 0x20) ++ f.drop p := by
  rw [← consistent_ops hs ho, ← areaOf_plain tmpl stubVer (f.length - p) hs h,
    ← bodyOf_plain f (hs ++ [h]) p]
  constructor
  · intro hr
    obtain ⟨hs', p', hacc, -, hg⟩ := (returns_file_iff ht rfl rfl).mp hr
    obtain ⟨rfl, rfl, hoff⟩ := htr.unique_chain hf hacc.chain
    exact ⟨fun k hk => ⟨hoff k hk, (hacc.admits k hk).version⟩, hacc.consistent, hg⟩
  · rintro ⟨hall, hcons, hg⟩
    have hch : Chain f 0 (hs ++ [h]) p := htr.chain fun k hk => (hall k hk).1
    exact (returns_file_iff ht rfl rfl).mpr ⟨hs ++ [h], p,
      ⟨hch, fun k hk => admits_of_version rfl (hall k hk).2, hcons⟩,
      ⟨hL, by simp, by simp⟩, hg⟩

/-- Re-stubbing keeps what the loader sees. On a file that `fullstub` loads
through one or more headers the walk of a plain run of `coff2exe` ends at the
same payload; in the output `fullstub` finds that payload behind the template,
with what the last header said. -/
theorem restub_keeps_payload {tmpl : Bytes} (ht : stubAccepted tmpl) (hL : tmpl.length < 2 ^ 31)
    {f : Bytes} (hf : f.length ≤ 2 ^ 31) {ops : LdOps} {s : StubWalk}
    (hwalk : Ends (stubStep f) StubWalk.init (some (ops, s))) (hm : isMz (headerAt f 0))
    (stubVer : Nat) :
    ∃ hs h p, Trail f 0 (hs ++ [h]) p ∧
      (∀ g, Returns tmpl stubVer .plain f (.file g) ↔
        (∀ k ∈ hs ++ [h], u32 k 0x3c < 2 ^ 31 ∧ 8 ≤ byteAt k 0x3b) ∧
        (u16 h 0x38 &&& 0x80 ≠ 0 ↔ ops = .elf) ∧
        g = restubbed tmpl (slice h 0x1c 0x20) ++ f.drop p) ∧
      ∀ g, Returns tmpl stubVer .plain f (.file g) →
        s.Reads h p ∧
        (∃ w, Ends (walkStep f .plain) Walk.init (.ok w) ∧ w.coffset = p) ∧
        ∃ s', Ends (stubStep g) StubWalk.init (some (ops, s')) ∧ s'.Reads h tmpl.length ∧
          s'.stubinfoVer = byteAt h 0x3b <<< 16 := by
  obtain ⟨l, p, htr, ho, rfl⟩ := stubWalk_iff.mp hwalk
  rcases List.eq_nil_or_concat l with rfl | ⟨hs, h, hl⟩
  · -- no header has been passed
    cases htr with
    | payload _ _ hp => exact absurd hm (not_isMz_of_magic hp)
  rw [List.concat_eq_append] at hl
  subst hl
  have hret := returns_trail_iff ht.1 (by omega) hf htr ho stubVer
  refine ⟨hs, h, p, htr, hret, fun g hr => ?_⟩
  obtain ⟨hall, hflag, rfl⟩ := (hret g).mp hr
  have hch : Chain f 0 (hs ++ [h]) p := htr.chain fun k hk => (hall k hk).1
  have hh : h.length = 0x40 := (hch.mem (by simp)).1
  have ha : (slice h 0x1c 0x20).length = 0x20 := slice_length_of_le (by omega)
  refine ⟨?_, ?_, ?_⟩
  · obtain ⟨t, hpass⟩ := foldl_pass_concat StubWalk.init hs h
    obtain ⟨h1, h2, h3, h4, h5⟩ := pass_reads t h
    rw [htr.last (hall h (by simp)).1] at h1
    rw [hpass]
    exact ⟨h1, h2, h3, h4, h5⟩
  · obtain ⟨w, hw, hb⟩ := walk_complete (o := .plain) rfl hch Walk.init rfl
      (fun k hk => admits_of_version rfl (hall k hk).2)
      ((payloadOk_after (fun k hk => admits_of_version rfl (hall k hk).2) p _).mpr
        ((consistent_ops hs ho).mpr hflag))
    exact ⟨w, hw, congrArg Walk.coffset hb⟩
  · have hsame : SameArea (headerAt (restubbed tmpl (slice h 0x1c 0x20) ++ f.drop p) 0) h :=
      restubbed_sameArea ht ha (f.drop p)
    have hstub := restubbed_hasStub ht ha (by omega) (f.drop p)
    obtain ⟨hl', -⟩ := hch.payload_header
    rw [← headerAt_drop] at hl' ho
    obtain ⟨-, hhead⟩ := restubbed_chain ht ha (by omega) hl' (not_isMz_of_magic ho.magic)
    rw [← hhead] at hl' ho
    have hend := stubWalk_one hstub hL hl' ho
    obtain ⟨h1, h2, h3, h4, h5⟩ := pass_reads StubWalk.init
      (headerAt (restubbed tmpl (slice h 0x1c 0x20) ++ f.drop p) 0)
    rw [hstub.offs] at h1
    rw [hsame.u32_eq (by omega) (by omega)] at h2 h3 h4
    rw [hsame.u16_eq (by omega) (by omega)] at h5
    refine ⟨_, hend, ⟨h1, h2, h3, h4, h5⟩, ?_⟩
    rw [← hsame.version_eq]
    exact Nat.zero_or _

theorem restub_keeps_payload_coff :
    ∃ g s, Returns bareTemplate defaultStubVer .plain (stubbed bareTemplate defaultStubVer coffImage)
        (.file g) ∧
      Ends (stubStep g) StubWalk.init (some (.coff, s)) ∧ s.coffset = 0x40 := by
  have hf : (stubbed bareTemplate defaultStubVer coffImage).length ≤ 2 ^ 31 := by
    decide +kernel
  have hwalk : Ends (stubStep (stubbed bareTemplate defaultStubVer coffImage)) StubWalk.init
      (some (.coff, StubWalk.init.pass
        (headerAt (stubbed bareTemplate defaultStubVer coffImage) 0))) :=
    ⟨2, by decide +kernel⟩
  have ht : stubAccepted bareTemplate := by decide
  obtain ⟨hs, h, p, -, -, hall⟩ :=
    restub_keeps_payload ht (by decide) hf hwalk (by decide) defaultStubVer
  have hret : Returns bareTemplate defaultStubVer .plain
      (stubbed bareTemplate defaultStubVer coffImage)
      (.file (stubbed bareTemplate defaultStubVer coffImage)) := ⟨2, by decide +kernel⟩
  obtain ⟨-, -, s, hs, hr, -⟩ := hall _ hret
  exact ⟨_, s, hret, hs, hr.coffset⟩

/-! ## A generated file -/

/-- An extent of `stubinfo` that holds `c`. -/
def Holds (g : Bytes) (e : Nat × Int) (c : Bytes) : Prop :=
  e.2 = c.length ∧ slice g e.1 c.length = c

/-- The size of overlay `i`, zero for a missing one. -/
abbrev ovlSize (cs : List Bytes) (i : Nat) : Nat := (cs[i]?.getD []).length

/-- The bytes in front of overlay `i`. -/
def before (cs : List Bytes) (i : Nat) : Nat := ((cs.take i).map List.length).sum

theorem before_succ (cs : List Bytes) (i : Nat) : before cs (i + 1) = before cs i + ovlSize cs i := by
  rw [before, before, ovlSize, List.take_add_one]
  cases cs[i]? with
  | none => simp
  | some c => simp

/-- The extents that one header leads to. -/
theorem extents_pass (h : Bytes) : (StubWalk.init.pass h).publish.extents =
    [(u32 h 0x3c, toInt32 (u32 h 0x1c)),
      (if u32 h 0x1c ≠ 0 then (u32 h 0x3c + u32 h 0x1c) % 2 ^ 32 else 0, toInt32 (u32 h 0x20)),
      (if u32 h 0x20 ≠ 0 then
        ((if u32 h 0x1c ≠ 0 then (u32 h 0x3c + u32 h 0x1c) % 2 ^ 32 else 0) + u32 h 0x20) % 2 ^ 32
        else 0, toInt32 (u32 h 0x24))] := rfl

section
variable {g : Bytes} {n : Nat} {cs : List Bytes} (hn : n ≤ g.length) (hg : g.drop n = cs.flatten)

theorem ovlSize_ne_zero (hne : ∀ c ∈ cs, c ≠ []) {i j : Nat} (hij : i < j) (hj : ovlSize cs j ≠ 0) :
    ovlSize cs i ≠ 0 := by
  have hlt : j < cs.length := by
    by_contra h
    rw [ovlSize, List.getElem?_eq_none (by omega)] at hj
    exact hj rfl
  rw [ovlSize, List.getElem?_eq_getElem (by omega)]
  exact fun h0 => hne _ (List.getElem_mem _) (List.length_eq_zero_iff.mp h0)

include hn hg

theorem before_le (i : Nat) : n + before cs i ≤ g.length := by
  have h1 := congrArg List.length hg
  have h2 := congrArg List.length (congrArg List.flatten (List.take_append_drop i cs))
  simp only [List.length_drop, List.flatten_append, List.length_append, List.length_flatten] at h1 h2
  rw [before]
  omega

/-- An extent with the right size holds the overlay if it starts where the one
before it ends, unless there is nothing in it. -/
theorem holds_packed (hlen : g.length < 2 ^ 31) {i offs : Nat}
    (ho : ovlSize cs i ≠ 0 → offs = n + before cs i) :
    Holds g (offs, toInt32 (ovlSize cs i)) (cs[i]?.getD []) := by
  have h1 := before_le hn hg (i + 1)
  rw [before_succ] at h1
  refine ⟨toInt32_of_lt (by omega), ?_⟩
  by_cases h0 : ovlSize cs i = 0
  · rw [List.length_eq_zero_iff.mp h0]
    rfl
  · cases hi : cs[i]? with
    | none =>
      rw [ovlSize, hi] at h0
      exact absurd rfl h0
    | some c =>
      rw [ho h0]
      exact slice_flatten hg hi

omit hn hg in
/-- The extents that a stub in front of overlays publishes. -/
theorem extents_get (hstub : HasStub g n) (hne : ∀ c ∈ cs, c ≠ [])
    (hslot : ∀ i < 3, u32 g (0x1c + i * 4) = ovlSize cs i) {i : Nat} (hi : i < 3) :
    ∃ offs, (StubWalk.init.pass (headerAt g 0)).publish.extents[i]? =
        some (offs, toInt32 (ovlSize cs i)) ∧
      (ovlSize cs i ≠ 0 → n + before cs i < 2 ^ 32 → offs = n + before cs i) := by
  have hsize (i : Nat) (hi : i < 3) : u32 (headerAt g 0) (0x1c + i * 4) = ovlSize cs i := by
    rw [headerAt, u32_slice (by omega), Nat.zero_add, hslot i hi]
  have z0 : u32 (headerAt g 0) 0x1c = ovlSize cs 0 := hsize 0 (by omega)
  have z1 : u32 (headerAt g 0) 0x20 = ovlSize cs 1 := hsize 1 (by omega)
  have z2 : u32 (headerAt g 0) 0x24 = ovlSize cs 2 := hsize 2 (by omega)
  have b0 : before cs 0 = 0 := rfl
  have b1 : before cs 1 = before cs 0 + ovlSize cs 0 := before_succ cs 0
  have b2 : before cs 2 = before cs 1 + ovlSize cs 1 := before_succ cs 1
  rw [extents_pass, hstub.offs, z0, z1, z2]
  obtain rfl | rfl | rfl : i = 0 ∨ i = 1 ∨ i = 2 := by omega
  · exact ⟨_, rfl, fun _ _ => by omega⟩
  · refine ⟨_, rfl, fun h1 hlt => ?_⟩
    rw [if_pos (ovlSize_ne_zero hne (by omega) h1)]
    omega
  · refine ⟨_, rfl, fun h2 hlt => ?_⟩
    rw [if_pos (ovlSize_ne_zero hne (by omega) h2), if_pos (ovlSize_ne_zero hne (by omega) h2)]
    omega

/-- The sizes in the header lead to the overlays behind it. -/
theorem publish_extents (hstub : HasStub g n) (hlen : g.length < 2 ^ 31) (hne : ∀ c ∈ cs, c ≠ [])
    (hslot : ∀ i < 3, u32 g (0x1c + i * 4) = ovlSize cs i) {i : Nat} (hi : i < 3) :
    ∃ e, (StubWalk.init.pass (headerAt g 0)).publish.extents[i]? = some e ∧
      Holds g e (cs[i]?.getD []) := by
  have hle := before_le hn hg i
  obtain ⟨offs, he, hoffs⟩ := extents_get hstub hne hslot hi
  exact ⟨_, he, holds_packed hn hg hlen fun h0 => hoffs h0 (by omega)⟩

omit hg in
/-- Where the extents hold the overlays, the file has room for all of them. -/
theorem extents_fit (hstub : HasStub g n) (hlen : g.length < 2 ^ 31) (hne : ∀ c ∈ cs, c ≠ [])
    (hslot : ∀ i < 3, u32 g (0x1c + i * 4) = ovlSize cs i) (hcount : cs.length ≤ 3)
    (hext : ∀ (i : Nat) (c : Bytes), cs[i]? = some c → ∃ offs,
      (StubWalk.init.pass (headerAt g 0)).publish.extents[i]? = some (offs, (c.length : Int)) ∧
        slice g offs c.length = c) :
    n + cs.flatten.length ≤ g.length := by
  have hfit (k : Nat) (hk : k ≤ cs.length) : n + before cs k ≤ g.length := by
    induction k with
    | zero => exact hn
    | succ k ih =>
      have ih := ih (by omega)
      have hck := List.getElem?_eq_getElem hk
      generalize cs[k] = c at hck
      have hne' : c ≠ [] := hne c (List.mem_of_getElem? hck)
      have hsz : ovlSize cs k = c.length := by rw [ovlSize, hck, Option.getD_some]
      have hpos := List.length_pos_iff.mpr hne'
      obtain ⟨offs, he, hoffs⟩ := extents_get hstub hne hslot (i := k) (by omega)
      obtain ⟨offs', he', hsl⟩ := hext k c hck
      simp only [he, Option.some.injEq, Prod.mk.injEq] at he'
      rw [← he'.1, hoffs (by omega) (by omega)] at hsl
      have hin := congrArg List.length hsl
      rw [slice_length] at hin
      rw [before_succ, hsz]
      omega
  have hall := hfit cs.length (Nat.le_refl _)
  rwa [before, List.take_length, ← List.length_flatten] at hall

omit hn hg in
/-- A stub that publishes its own payload as the first extent was the last one on the
way to it. -/
theorem walk_of_selfOffs (hstub : HasStub g n) (hlt : n < 2 ^ 31) {ops : LdOps} {s : StubWalk}
    (hwalk : Ends (stubStep g) StubWalk.init (some (ops, s))) (hself : s.publish.selfOffs = n) :
    s = StubWalk.init.pass (headerAt g 0) := by
  obtain ⟨hs, p, htr, hops, rfl⟩ := stubWalk_iff.mp hwalk
  have hoffs : (hs.foldl StubWalk.pass StubWalk.init).coffset = n := hself
  have hp : p = n := by
    rcases List.eq_nil_or_concat' hs with rfl | ⟨hs', h, rfl⟩
    · cases htr with
      | payload _ _ hpay => exact absurd hstub.mz (not_isMz_of_magic hpay)
    · obtain ⟨t, ht⟩ := foldl_pass_concat StubWalk.init hs' h
      rw [ht] at hoffs
      have hlast : u32 h 0x3c = n := hoffs
      rw [← htr.last (by omega), hlast]
  have hfull := htr.payload_full
  rw [hp] at hfull hops
  have hsame := (stubWalk_one hstub hlt hfull hops).unique hwalk
  simp only [Option.some.injEq, Prod.mk.injEq, true_and] at hsame
  exact hsame.symm

end

/-- `fullstub` loads the first of the overlays `cs` behind a template of `n` bytes, and
publishes where all of them are. -/
def HandsOver (g : Bytes) (n : Nat) (ops : LdOps) (cs : List Bytes) : Prop :=
  ∃ s, Ends (stubStep g) StubWalk.init (some (ops, s)) ∧ s.pos = n ∧ s.publish.selfOffs = n ∧
    (∀ (i : Nat) (c : Bytes), cs[i]? = some c → ∃ offs,
      s.publish.extents[i]? = some (offs, (c.length : Int)) ∧ slice g offs c.length = c) ∧
    ∀ i, cs.length ≤ i → i < 3 → ∃ offs, s.publish.extents[i]? = some (offs, 0)

/-- From the packer to the loader: `fullstub` loads the first overlay of a generated file
with up to three and publishes the extents of all, exactly if the output is none of
them. -/
theorem generate_loads_iff {π : Type} [DecidableEq π] {fuel : Nat} {d d' : Disk π} {m : Globals π}
    {opts : List (Opt π)} {args : List π} {oname : π} {start c0 : Bytes} {cs : List Bytes}
    {ops : LdOps} (hrun : main fuel d opts args = some (.ret 0, d'))
    (hm : options d Globals.init opts = .ok m) (hgen : m.generate = true) (ho : m.oname = some oname)
    (hs : m.start = some start) (hz : ZeroArea start) (hc : m.overlay.map d.files = cs.map some)
    (h3 : cs.length ≤ 3) (hne : ∀ c ∈ cs, c ≠ []) (h0 : cs[0]? = some c0) (hops : ops.Matches c0)
    (h40 : 0x40 ≤ cs.flatten.length) :
    ∃ g, d'.files oname = some g ∧
      (g.length < 2 ^ 31 → (HandsOver g start.length ops cs ↔ oname ∉ m.overlay)) := by
  obtain ⟨start', g, hd', hgen'⟩ := main_generate hrun hm hgen ho
  cases hs.symm.trans hgen'.template
  refine ⟨g, hd', fun hlen => ?_⟩
  have hstub := hgen'.stub
  obtain ⟨-, cs', -, hcs'⟩ := hgen'.sources
  have hslot (i : Nat) (hi3 : i < 3) : u32 g (0x1c + i * 4) = ovlSize cs i := by
    cases hci : cs[i]? with
    | none =>
      rw [hgen'.slot_zero hz hc (List.getElem?_eq_none_iff.mp hci) hi3, ovlSize, hci]
      rfl
    | some c =>
      rw [hgen'.slot hc hci hi3, ovlSize, hci]
      rfl
  obtain ⟨header, -, hhl, -, -, hgl⟩ := hgen'.shape hc hcs'
  have hsum := congrArg List.length hgl
  rw [List.length_append, hhl] at hsum
  constructor
  · rintro ⟨s, hwalk, -, hself, hext, -⟩ hmem
    rw [walk_of_selfOffs hstub (by omega) hwalk hself] at hext
    have hfit := extents_fit (by omega) hstub hlen hne hslot h3 hext
    -- the overlay that has been emptied is missing behind the template
    obtain ⟨hle, hall⟩ := opened_length hc hcs'
    have hempty := hall.mp (by omega) oname hmem rfl
    obtain ⟨c, hcm, hcd⟩ : ∃ c ∈ cs, some c = d.files oname := by
      rw [← List.mem_map, ← hc]
      exact List.mem_map_of_mem hmem
    rw [hempty, Option.some.injEq] at hcd
    exact hne c hcm hcd
  · intro hapart
    have hdrop := (hgen'.hasStub ⟨hapart, hc⟩).2
    have hdl := congrArg List.length hdrop
    rw [List.length_drop] at hdl
    have hext {i : Nat} (hi : i < 3) := publish_extents (by omega) hdrop hstub hlen hne hslot hi
    -- the payload header is that of the first overlay
    have hhead : ops.Matches (headerAt g start.length) := by
      obtain ⟨cs', rfl⟩ : ∃ cs', cs = c0 :: cs' := by
        cases cs with
        | nil => cases h0
        | cons c cs' => cases h0; exact ⟨cs', rfl⟩
      rw [← headerAt_drop, hdrop, List.flatten_cons]
      exact hops.header cs'.flatten
    have hfull : (headerAt g start.length).length = 0x40 :=
      (header_length_iff g start.length).mpr (by omega)
    have hseek : lseek 0x40 start.length = start.length := if_pos (by omega)
    refine ⟨_, stubWalk_one hstub (by omega) hfull hhead, ?_, hstub.offs, ?_, ?_⟩
    · show lseek 0x40 (u32 (headerAt g 0) 0x3c) = start.length
      rw [hstub.offs, hseek]
    · intro i c hci
      have hil := (List.getElem?_eq_some_iff.mp hci).1
      obtain ⟨⟨offs, size⟩, he, hsz, hsl⟩ := hext (i := i) (by omega)
      rw [hci] at hsz hsl
      cases hsz
      exact ⟨offs, he, hsl⟩
    · intro i hcl hi3
      obtain ⟨⟨offs, size⟩, he, hsz, -⟩ := hext hi3
      rw [List.getElem?_eq_none hcl] at hsz
      cases hsz
      exact ⟨offs, he⟩

/-- Over its own overlay `-g` leaves a bare stub, and `fullstub` finds nothing to load. -/
theorem generate_over_overlay :
    ZeroArea bareTemplate ∧
    ∃ d', main 1 packDisk [.S 0, .g, .o (some 1), .t (some 1), .l 1] [] = some (.ret 0, d') ∧
      ∃ g, d'.files 1 = some g ∧ g.length = bareTemplate.length ∧
        packDisk.files 1 = some coffImage ∧ LdOps.Matches .coff coffImage ∧
        0x40 ≤ coffImage.length ∧ ¬ HandsOver g bareTemplate.length .coff [coffImage] := by
  have hrun : (main 1 packDisk [.S 0, .g, .o (some 1), .t (some 1), .l 1] []).map (fun r => (r.1,
      (r.2.files 1).map fun g => (g.length, (run (stubStep g) 2 StubWalk.init).map Option.isSome))) =
      some (.ret 0, some (64, some false)) := by decide +kernel
  obtain ⟨d', hmain, hmap⟩ := main_of_map
    (Option.map fun g => (g.length, (run (stubStep g) 2 StubWalk.init).map Option.isSome)) hrun
  obtain ⟨g, hg, hmap⟩ := Option.map_eq_some_iff.mp hmap
  obtain ⟨hlen, hmap⟩ := Prod.mk.inj hmap
  obtain ⟨r, hwalk, hr⟩ := Option.map_eq_some_iff.mp hmap
  have hcoff : LdOps.Matches .coff coffImage := (by decide : isCoff coffImage)
  refine ⟨by decide, d', hmain, g, hg, hlen, rfl, hcoff, by decide, ?_⟩
  rintro ⟨s, hs, -⟩
  rw [Ends.unique ⟨2, hwalk⟩ hs] at hr
  cases hr

theorem generate_loads_packed :
    ∃ d' g, main 0 packDisk (packOpts 3) [] = some (.ret 0, d') ∧ d'.files 9 = some g ∧
      HandsOver g 0x40 .coff [coffImage, [1], [2]] := by
  have hrun : (main 0 packDisk (packOpts 3) []).map
      (fun r => (r.1, (r.2.files 9).map List.length)) = some (.ret 0, some 130) := by decide +kernel
  obtain ⟨d', hmain, hlen⟩ := main_of_map (Option.map List.length) hrun
  obtain ⟨g, hfile, hlen⟩ := Option.map_eq_some_iff.mp hlen
  have hc : [1, 2, 3].map packDisk.files = [coffImage, [1], [2]].map some := rfl
  have hops : LdOps.Matches .coff coffImage := (by decide : isCoff coffImage)
  obtain ⟨g', hg', hiff⟩ := generate_loads_iff hmain rfl rfl rfl rfl (by decide) hc (by decide)
    (by decide) rfl hops (by decide)
  cases hfile.symm.trans hg'
  exact ⟨d', g, hmain, hfile, (hiff (by omega)).mpr (by decide)⟩

end Djstub
