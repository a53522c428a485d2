import Djstub.Folds
import Djstub.Handover

/-! What `fullstub` publishes about a chain of headers, against what the last one
of them says alone, and against what `coff2exe` finds in it. A size of zero makes
`fullstub` keep the offset it had. -/

namespace Djstub

open Bytes Layout Loop Folds

/-! ## The innermost header -/

/-- The version of the stub, in bits 16 to 23 of `stubinfo_ver`. -/
def StubWalk.version (s : StubWalk) : Nat := s.stubinfoVer >>> 16 % 2 ^ 8

/-- The same overlays, flags and version. -/
structure StubWalk.SameInfo (s t : StubWalk) : Prop where
  coffsize : s.coffsize = t.coffsize
  noffset : s.noffset = t.noffset
  nsize : s.nsize = t.nsize
  noffset2 : s.noffset2 = t.noffset2
  nsize2 : s.nsize2 = t.nsize2
  payload2Name : s.payload2Name = t.payload2Name
  flags : s.flags % 2 ^ 16 = t.flags % 2 ^ 16
  version : s.version = t.version

theorem version_pass (s : StubWalk) (h : Bytes) :
    (s.pass h).version = s.version ||| byteAt h 0x3b := by
  have hb : byteAt h 0x3b % 2 ^ 8 = byteAt h 0x3b := Nat.mod_eq_of_lt (byteAt_lt h 0x3b)
  show (s.stubinfoVer ||| byteAt h 0x3b <<< 16) >>> 16 % 2 ^ 8 = _
  rw [Nat.shiftRight_or_distrib, Nat.shiftLeft_shiftRight, Nat.or_mod_two_pow, hb]
  rfl

/-- The name with its end, as the header has it. -/
def nameField (h : Bytes) : Bytes :=
  let s := ((slice h 0x30 12).take 12).takeWhile (· ≠ 0)
  s ++ List.replicate (12 - s.length) 0 ++ [0]

theorem payload2Name_pass (s : StubWalk) (h : Bytes) :
    (s.pass h).payload2Name = nameField h ++ s.payload2Name.drop 13 := by
  have hlen : (((slice h 0x30 12).take 12).takeWhile (· ≠ 0)).length ≤ 12 :=
    Nat.le_trans (List.takeWhile_prefix _).length_le (List.length_take_le 12 _)
  show patch (strncpy s.payload2Name (slice h 0x30 12) 12) 12 [0] = _
  rw [nameField, strncpy]
  generalize ((slice h 0x30 12).take 12).takeWhile (· ≠ 0) = t at hlen ⊢
  have ht : (t ++ List.replicate (12 - t.length) 0).length = 12 := by
    rw [List.length_append, List.length_replicate]
    omega
  dsimp only [patch]
  rw [ht, List.take_zero, List.nil_append, List.take_left' ht, List.drop_append, ht,
    List.drop_of_length_le (by rw [ht]; simp), List.nil_append, List.drop_drop]
  rfl

/-- The bytes behind the name are never touched. -/
theorem payload2Name_foldl (s : StubWalk) (hs : List Bytes) :
    (hs.foldl StubWalk.pass s).payload2Name.drop 13 = s.payload2Name.drop 13 := by
  induction hs generalizing s with
  | nil => rfl
  | cons h hs ih =>
    have hlen : (nameField h).length = 13 := by
      have hle : (((slice h 0x30 12).take 12).takeWhile (· ≠ 0)).length ≤ 12 :=
        Nat.le_trans (List.takeWhile_prefix _).length_le (List.length_take_le 12 _)
      simp only [nameField, List.length_append, List.length_replicate, List.length_singleton]
      omega
    rw [List.foldl_cons, ih, payload2Name_pass, List.drop_append, hlen,
      List.drop_of_length_le (Nat.le_of_eq hlen), List.nil_append]
    rfl

/-! What an earlier header can leave behind -/

/-- Where the overlay of the last header with one ends, if any has one. -/
theorem noffset_foldl (hs : List Bytes) :
    ((∀ k ∈ hs, u32 k 0x1c = 0) ∧ (hs.foldl StubWalk.pass .init).noffset = 0) ∨
      ∃ pre k, Last (fun k => u32 k 0x1c ≠ 0) hs pre k ∧
        (hs.foldl StubWalk.pass .init).noffset = (u32 k 0x3c + u32 k 0x1c) % 2 ^ 32 := by
  rcases foldl_last StubWalk.pass StubWalk.noffset (P := fun k => u32 k 0x1c ≠ 0)
    (fun _ _ hk => if_neg hk) .init hs with ⟨hnone, hv⟩ | ⟨pre, k, hlast, hv⟩
  · exact .inl ⟨fun k hk => not_not.mp (hnone k hk), hv⟩
  · obtain ⟨post, -, hk, -⟩ := id hlast
    exact .inr ⟨pre, k, hlast, hv.trans (if_pos hk)⟩

theorem noffset2_foldl (hs : List Bytes) :
    ((∀ k ∈ hs, u32 k 0x20 = 0) ∧ (hs.foldl StubWalk.pass .init).noffset2 = 0) ∨
      ∃ pre k, Last (fun k => u32 k 0x20 ≠ 0) hs pre k ∧ (hs.foldl StubWalk.pass .init).noffset2 =
        (((pre ++ [k]).foldl StubWalk.pass .init).noffset + u32 k 0x20) % 2 ^ 32 := by
  rcases foldl_last StubWalk.pass StubWalk.noffset2 (P := fun k => u32 k 0x20 ≠ 0)
    (fun _ _ hk => if_neg hk) .init hs with ⟨hnone, hv⟩ | ⟨pre, k, hlast, hv⟩
  · exact .inl ⟨fun k hk => not_not.mp (hnone k hk), hv⟩
  · obtain ⟨post, -, hk, -⟩ := id hlast
    refine .inr ⟨pre, k, hlast, hv.trans ?_⟩
    rw [List.foldl_append]
    exact if_pos hk

theorem version_foldl (hs : List Bytes) :
    (hs.foldl StubWalk.pass .init).version = hs.foldl (fun v k => v ||| byteAt k 0x3b) 0 :=
  (List.foldl_hom StubWalk.version fun s k => (version_pass s k).symm).symm

/-- The headers before the last one leave nothing: no offset stays where the last
one has no size, and no bit of a version that the last one lacks. -/
structure LeavesNothing (hs : List Bytes) (h : Bytes) : Prop where
  noffset : u32 h 0x1c ≠ 0 ∨ ∀ pre k, Last (fun k => u32 k 0x1c ≠ 0) hs pre k →
    (u32 k 0x3c + u32 k 0x1c) % 2 ^ 32 = 0
  noffset2 : u32 h 0x20 ≠ 0 ∨ ∀ pre k, Last (fun k => u32 k 0x20 ≠ 0) hs pre k →
    ∃ pre' k', Last (fun k => u32 k 0x1c ≠ 0) (pre ++ [k]) pre' k' ∧
      (u32 k' 0x3c + u32 k' 0x1c + u32 k 0x20) % 2 ^ 32 = 0
  version : ∀ k ∈ hs, byteAt k 0x3b ||| byteAt h 0x3b = byteAt h 0x3b

theorem noffset_eq_zero_iff (hs : List Bytes) : (hs.foldl StubWalk.pass .init).noffset = 0 ↔
    ∀ pre k, Last (fun k => u32 k 0x1c ≠ 0) hs pre k → (u32 k 0x3c + u32 k 0x1c) % 2 ^ 32 = 0 := by
  rcases noffset_foldl hs with ⟨hnone, hv⟩ | ⟨pre, k, hlast, hv⟩
  · refine iff_of_true hv fun pre k hlast => ?_
    obtain ⟨post, rfl, hk, -⟩ := hlast
    exact absurd (hnone k (by simp)) hk
  · rw [hv]
    constructor
    · intro h0 pre' k' hlast'
      obtain ⟨-, rfl⟩ := hlast.unique hlast'
      exact h0
    · exact fun hall => hall pre k hlast

theorem noffset2_eq_zero_iff (hs : List Bytes) : (hs.foldl StubWalk.pass .init).noffset2 = 0 ↔
    ∀ pre k, Last (fun k => u32 k 0x20 ≠ 0) hs pre k →
      ∃ pre' k', Last (fun k => u32 k 0x1c ≠ 0) (pre ++ [k]) pre' k' ∧
        (u32 k' 0x3c + u32 k' 0x1c + u32 k 0x20) % 2 ^ 32 = 0 := by
  rcases noffset2_foldl hs with ⟨hnone, hv⟩ | ⟨pre, k, hlast, hv⟩
  · refine iff_of_true hv fun pre k hlast => ?_
    obtain ⟨post, rfl, hk, -⟩ := hlast
    exact absurd (hnone k (by simp)) hk
  · obtain ⟨post, -, hk, -⟩ := id hlast
    have hlt := u32_lt k 0x20
    rw [hv]
    constructor
    · intro h0 pre₁ k₁ hlast₁
      obtain ⟨rfl, rfl⟩ := hlast.unique hlast₁
      rcases noffset_foldl (pre ++ [k]) with ⟨-, hn⟩ | ⟨pre', k', hlast', hn⟩
      · -- nothing in front of a size that is not zero
        rw [hn, Nat.zero_add, Nat.mod_eq_of_lt hlt] at h0
        exact absurd h0 hk
      · rw [hn, Nat.mod_add_mod] at h0
        exact ⟨pre', k', hlast', h0⟩
    · intro hall
      obtain ⟨pre', k', hlast', h0⟩ := hall pre k hlast
      rcases noffset_foldl (pre ++ [k]) with ⟨hnone, -⟩ | ⟨pre₁, k₁, hlast₁, hn⟩
      · obtain ⟨post', hl', hk', -⟩ := hlast'
        exact absurd (hnone k' (by rw [hl']; simp)) hk'
      · obtain ⟨-, rfl⟩ := hlast'.unique hlast₁
        rw [hn, Nat.mod_add_mod]
        exact h0

theorem Trail.unique {f : Bytes} {c p p' : Nat} {hs hs' : List Bytes} (h : Trail f c hs p)
    (h' : Trail f c hs' p') : hs = hs' ∧ p = p' := by
  induction h generalizing hs' with
  | payload c _ hp =>
    cases h' with
    | payload => exact ⟨rfl, rfl⟩
    | lfanew _ hm _ _ => exact absurd hm (not_isMz_of_magic hp)
  | lfanew _ hm _ _ ih =>
    cases h' with
    | payload _ _ hp => exact absurd hm (not_isMz_of_magic hp)
    | lfanew _ _ _ ht =>
      obtain ⟨rfl, rfl⟩ := ih ht
      exact ⟨rfl, rfl⟩

theorem noffset_pass_iff (r : StubWalk) (h : Bytes) :
    (r.pass h).noffset = (StubWalk.init.pass h).noffset ↔ u32 h 0x1c ≠ 0 ∨ r.noffset = 0 := by
  by_cases h0 : u32 h 0x1c = 0
  · have hz {s : StubWalk} : (s.pass h).noffset = s.noffset := if_neg (fun hn => hn h0)
    rw [hz, hz]
    exact ⟨.inr, fun hor => hor.resolve_left fun hn => hn h0⟩
  · have hp {s : StubWalk} : (s.pass h).noffset = (u32 h 0x3c + u32 h 0x1c) % 2 ^ 32 := if_pos h0
    rw [hp, hp]
    exact iff_of_true rfl (.inl h0)

theorem noffset2_pass_iff {r : StubWalk} {h : Bytes}
    (hn : (r.pass h).noffset = (StubWalk.init.pass h).noffset) :
    (r.pass h).noffset2 = (StubWalk.init.pass h).noffset2 ↔ u32 h 0x20 ≠ 0 ∨ r.noffset2 = 0 := by
  by_cases h0 : u32 h 0x20 = 0
  · have hz {s : StubWalk} : (s.pass h).noffset2 = s.noffset2 := if_neg (fun hn => hn h0)
    rw [hz, hz]
    exact ⟨.inr, fun hor => hor.resolve_left fun hn => hn h0⟩
  · have hp {s : StubWalk} : (s.pass h).noffset2 = ((s.pass h).noffset + u32 h 0x20) % 2 ^ 32 :=
      if_pos h0
    rw [hp, hp, hn]
    exact iff_of_true rfl (.inl h0)

/-- The walk leaves what the last header alone would leave, exactly if the
headers before it leave nothing. -/
theorem innermost_only_iff {f : Bytes} {ops : LdOps} {s : StubWalk} {hs : List Bytes} {h : Bytes}
    {p : Nat} (hw : Ends (stubStep f) .init (some (ops, s))) (ht : Trail f 0 (hs ++ [h]) p) :
    s.SameInfo (StubWalk.init.pass h) ↔ LeavesNothing hs h := by
  obtain ⟨l, p', ht', -, rfl⟩ := stubWalk_iff.mp hw
  obtain ⟨rfl, rfl⟩ := ht.unique ht'
  have hname := payload2Name_foldl .init hs
  have hn := noffset_eq_zero_iff hs
  have hn2 := noffset2_eq_zero_iff hs
  have hver : hs.foldl (fun v k => v ||| byteAt k 0x3b) 0 ||| byteAt h 0x3b = byteAt h 0x3b ↔
      0 ||| byteAt h 0x3b = byteAt h 0x3b ∧ ∀ k ∈ hs, byteAt k 0x3b ||| byteAt h 0x3b = byteAt h 0x3b :=
    foldl_absorbed _ _ _ _
  rw [← version_foldl, Nat.zero_or, and_iff_right rfl] at hver
  rw [List.foldl_append, List.foldl_cons, List.foldl_nil]
  generalize hs.foldl StubWalk.pass .init = r at hname hn hn2 hver ⊢
  have hone : (StubWalk.init.pass h).version = byteAt h 0x3b := by
    rw [version_pass]
    exact Nat.zero_or _
  constructor
  · intro hsame
    have hnoffs : (r.pass h).noffset = (StubWalk.init.pass h).noffset := hsame.noffset
    refine ⟨?_, ?_, ?_⟩
    · rw [← hn, ← noffset_pass_iff]
      exact hnoffs
    · rw [← hn2, ← noffset2_pass_iff hnoffs]
      exact hsame.noffset2
    · rw [← hver, ← version_pass, ← hone]
      exact hsame.version
  · rintro ⟨h1, h2, h3⟩
    rw [← hn, ← noffset_pass_iff] at h1
    rw [← hn2, ← noffset2_pass_iff h1] at h2
    rw [← hver, ← version_pass, ← hone] at h3
    have hname' : (r.pass h).payload2Name = (StubWalk.init.pass h).payload2Name := by
      rw [payload2Name_pass, payload2Name_pass, hname]
    exact ⟨rfl, h1, rfl, h2, rfl, hname', ((pass_reads r h).flags).trans (pass_reads .init h).flags.symm,
      h3⟩

/-- A header with three sizes, a type map, a version and lfanew. -/
def overlayHeader (a b c map ver lfanew : Nat) : Bytes :=
  [0x4d, 0x5a] ++ List.replicate 6 0 ++ [4] ++ List.replicate 0x13 0 ++ toBytes 4 a ++ toBytes 4 b ++
    toBytes 4 c ++ List.replicate 0xe 0 ++ toBytes 2 map ++ [0, 0, 0] ++ toBytes 1 ver ++
    toBytes 4 lfanew

/-- A COFF payload behind two headers with one size each. -/
def nestedExe (a b : Nat) : Bytes :=
  overlayHeader a 0 0 0 8 0x40 ++ overlayHeader b 0 0 0 8 0x80 ++ coffImage

/-- The inner header has no overlay, and `noffset` is that of the outer one. -/
theorem innermost_leaks :
    Trail (nestedExe 5 0) 0 ([headerAt (nestedExe 5 0) 0] ++ [headerAt (nestedExe 5 0) 0x40]) 0x80 ∧
    ∃ s, Ends (stubStep (nestedExe 5 0)) .init (some (.coff, s)) ∧
      ¬ s.SameInfo (StubWalk.init.pass (headerAt (nestedExe 5 0) 0x40)) := by
  have hops : LdOps.Matches .coff (headerAt (nestedExe 5 0) 0x80) :=
    (by decide : isCoff (headerAt (nestedExe 5 0) 0x80))
  have hinner : Trail (nestedExe 5 0) 0x40 [headerAt (nestedExe 5 0) 0x40] 0x80 :=
    .jump (by decide) (by decide) (by decide) (by decide) (by decide)
      (.payload 0x80 (by decide) hops.magic)
  have htrail : Trail (nestedExe 5 0) 0
      ([headerAt (nestedExe 5 0) 0] ++ [headerAt (nestedExe 5 0) 0x40]) 0x80 :=
    .jump (by decide) (by decide) (by decide) (by decide) (by decide) hinner
  refine ⟨htrail, _, stubWalk_iff.mpr ⟨_, 0x80, htrail, hops, rfl⟩, fun hsame => ?_⟩
  exact absurd hsame.noffset (by decide +kernel)

theorem innermost_only_nested : ∃ s, Ends (stubStep (nestedExe 5 6)) .init (some (.coff, s)) ∧
    s.SameInfo (StubWalk.init.pass (headerAt (nestedExe 5 6) 0x40)) := by
  have hops : LdOps.Matches .coff (headerAt (nestedExe 5 6) 0x80) :=
    (by decide : isCoff (headerAt (nestedExe 5 6) 0x80))
  have hinner : Trail (nestedExe 5 6) 0x40 [headerAt (nestedExe 5 6) 0x40] 0x80 :=
    .jump (by decide) (by decide) (by decide) (by decide) (by decide)
      (.payload 0x80 (by decide) hops.magic)
  have htrail : Trail (nestedExe 5 6) 0
      ([headerAt (nestedExe 5 6) 0] ++ [headerAt (nestedExe 5 6) 0x40]) 0x80 :=
    .jump (by decide) (by decide) (by decide) (by decide) (by decide) hinner
  have hw := (stubWalk_iff (s := .init)).mpr ⟨_, 0x80, htrail, hops, rfl⟩
  refine ⟨_, hw, (innermost_only_iff hw htrail).mpr ⟨.inl (by decide), .inr ?_, by decide⟩⟩
  rintro pre k ⟨post, hl, hk, -⟩
  have hmem : k ∈ [headerAt (nestedExe 5 6) 0] := by
    rw [hl]
    simp
  rw [List.mem_singleton.mp hmem] at hk
  exact absurd (by decide) hk

/-! ## The overlays of one header -/

/-- Extent `i` is that of the overlay of type `t`, as `coff2exe` finds it. -/
def StubInfo.Agrees (info : StubInfo) (h : Bytes) (i t : Nat) : Prop :=
  ∃ o s, findOffs t h = some o ∧ findSize t h = some s ∧
    info.extents[i]? = some (u32 h 0x3c + o, (s : Int))

/-- The first three overlays, found by their types. -/
theorem find_three {h : Bytes} {t0 t1 t2 : Nat} {rest : List Nat}
    (hd : Nat.digits 16 (u16 h 0x36) = t0 :: t1 :: t2 :: rest) (hnd : [t0, t1, t2].Nodup) :
    (findOffs t0 h = some 0 ∧ findSize t0 h = some (u32 h 0x1c)) ∧
      (findOffs t1 h = some (u32 h 0x1c) ∧ findSize t1 h = some (u32 h 0x20)) ∧
      findOffs t2 h = some (u32 h 0x1c + u32 h 0x20) ∧ findSize t2 h = some (u32 h 0x24) := by
  have h0 : u16 h 0x36 ≠ 0 := by
    intro h0
    rw [h0, Nat.digits_zero] at hd
    cases hd
  have htable : table h = (t0, u32 h 0x1c) :: (t1, u32 h 0x20) :: (t2, u32 h 0x24) ::
      tableFrom h 3 rest := by
    rw [table, if_neg h0, hd]
    rfl
  obtain ⟨h01, h02, h12⟩ : t0 ≠ t1 ∧ t0 ≠ t2 ∧ t1 ≠ t2 := by
    simpa [and_assoc] using hnd
  simp [findOffs_eq, findSize_eq, htable, find, layout, layoutFrom, h01, h02, h12]

/-- A payload does not start at its own header. -/
theorem Trail.lfanew_ne_zero {f : Bytes} {h : Bytes} {p : Nat} (ht : Trail f 0 [h] p) :
    u32 h 0x3c ≠ 0 := by
  intro h0
  cases ht with
  | lfanew _ hm _ ht =>
    have hseek : lseek (0 + 0x40) 0 = 0 := if_pos (by decide)
    rw [h0, hseek] at ht
    cases ht with
    | payload _ _ hp => exact absurd hm (not_isMz_of_magic hp)

/-- Sizes from 2^31 on are published as negative numbers. -/
theorem toInt32_eq_iff {n : Nat} (hn : n < 2 ^ 32) : toInt32 n = n ↔ n < 2 ^ 31 := by
  unfold toInt32
  split <;> omega

theorem StubInfo.agrees_iff {info : StubInfo} {h : Bytes} {i t o s e : Nat} (hs32 : s < 2 ^ 32)
    (ho : findOffs t h = some o) (hs : findSize t h = some s)
    (he : info.extents[i]? = some (e, toInt32 s)) :
    info.Agrees h i t ↔ e = u32 h 0x3c + o ∧ s < 2 ^ 31 := by
  rw [← toInt32_eq_iff hs32]
  constructor
  · rintro ⟨o', s', ho', hs', he'⟩
    rw [ho] at ho'
    rw [hs] at hs'
    rw [he] at he'
    cases ho'
    cases hs'
    exact Prod.mk.inj (Option.some.inj he')
  · rintro ⟨rfl, hsz⟩
    exact ⟨o, s, ho, hs, by rw [he, hsz]⟩

/-- Sums that are only made when the piece before them is not empty. -/
theorem guarded_sums_iff {n a b c : Nat} (hn : n ≠ 0) (hsum : n + a + b < 2 ^ 32) :
    ((b ≠ 0 → (if a ≠ 0 then (n + a) % 2 ^ 32 else 0) = n + a) ∧
      (c ≠ 0 → (if b ≠ 0 then ((if a ≠ 0 then (n + a) % 2 ^ 32 else 0) + b) % 2 ^ 32 else 0) =
        n + (a + b))) ↔ (b ≠ 0 → a ≠ 0) ∧ (c ≠ 0 → b ≠ 0) := by
  constructor
  · rintro ⟨h1, h2⟩
    refine ⟨fun hb ha => ?_, fun hc hb => ?_⟩
    · have h1' := h1 hb
      rw [if_neg (not_not.mpr ha)] at h1'
      omega
    · have h2' := h2 hc
      rw [if_neg (not_not.mpr hb)] at h2'
      omega
  · rintro ⟨h1, h2⟩
    refine ⟨fun hb => ?_, fun hc => ?_⟩
    · rw [if_pos (h1 hb)]
      omega
    · rw [if_pos (h2 hc), if_pos (h1 (h2 hc))]
      omega

/-- `fullstub` publishes what `coff2exe` finds, exactly if no overlay that is not
empty comes behind an empty one, and each is smaller than 2 GiB. -/
theorem overlays_agree_iff {f : Bytes} {ops : LdOps} {s : StubWalk} {h : Bytes} {p : Nat}
    (hw : Ends (stubStep f) .init (some (ops, s))) (ht : Trail f 0 [h] p) {t0 t1 t2 : Nat}
    {rest : List Nat} (hd : Nat.digits 16 (u16 h 0x36) = t0 :: t1 :: t2 :: rest)
    (hnd : [t0, t1, t2].Nodup) (hsum : u32 h 0x3c + u32 h 0x1c + u32 h 0x20 < 2 ^ 32) :
    (∀ i t, [t0, t1, t2][i]? = some t → u32 h (0x1c + i * 4) ≠ 0 → s.publish.Agrees h i t) ↔
      ((u32 h 0x20 ≠ 0 → u32 h 0x1c ≠ 0) ∧ (u32 h 0x24 ≠ 0 → u32 h 0x20 ≠ 0)) ∧
        ∀ i < 3, u32 h (0x1c + i * 4) < 2 ^ 31 := by
  have hne := ht.lfanew_ne_zero
  obtain ⟨l, p', ht', -, rfl⟩ := stubWalk_iff.mp hw
  obtain ⟨rfl, rfl⟩ := ht.unique ht'
  obtain ⟨⟨ho0, hs0⟩, ⟨ho1, hs1⟩, ho2, hs2⟩ := find_three hd hnd
  have h0 : (StubWalk.init.pass h).publish.Agrees h 0 t0 ↔
      u32 h 0x3c = u32 h 0x3c + 0 ∧ u32 h 0x1c < 2 ^ 31 :=
    StubInfo.agrees_iff (u32_lt _ _) ho0 hs0 rfl
  have h1 : (StubWalk.init.pass h).publish.Agrees h 1 t1 ↔
      (if u32 h 0x1c ≠ 0 then (u32 h 0x3c + u32 h 0x1c) % 2 ^ 32 else 0) =
        u32 h 0x3c + u32 h 0x1c ∧ u32 h 0x20 < 2 ^ 31 :=
    StubInfo.agrees_iff (u32_lt _ _) ho1 hs1 rfl
  have h2 : (StubWalk.init.pass h).publish.Agrees h 2 t2 ↔
      (if u32 h 0x20 ≠ 0 then
        ((if u32 h 0x1c ≠ 0 then (u32 h 0x3c + u32 h 0x1c) % 2 ^ 32 else 0) + u32 h 0x20) % 2 ^ 32
        else 0) = u32 h 0x3c + (u32 h 0x1c + u32 h 0x20) ∧ u32 h 0x24 < 2 ^ 31 :=
    StubInfo.agrees_iff (u32_lt _ _) ho2 hs2 rfl
  have hall : (∀ i t, [t0, t1, t2][i]? = some t → u32 h (0x1c + i * 4) ≠ 0 →
      (StubWalk.init.pass h).publish.Agrees h i t) ↔
      (u32 h 0x1c ≠ 0 → (StubWalk.init.pass h).publish.Agrees h 0 t0) ∧
      (u32 h 0x20 ≠ 0 → (StubWalk.init.pass h).publish.Agrees h 1 t1) ∧
      (u32 h 0x24 ≠ 0 → (StubWalk.init.pass h).publish.Agrees h 2 t2) := by
    constructor
    · exact fun hi => ⟨hi 0 t0 rfl, hi 1 t1 rfl, hi 2 t2 rfl⟩
    · rintro ⟨hi0, hi1, hi2⟩ i t hi hsize
      match i, hi with
      | 0, rfl => exact hi0 hsize
      | 1, rfl => exact hi1 hsize
      | 2, rfl => exact hi2 hsize
  have hsmall : (∀ i < 3, u32 h (0x1c + i * 4) < 2 ^ 31) ↔
      u32 h 0x1c < 2 ^ 31 ∧ u32 h 0x20 < 2 ^ 31 ∧ u32 h 0x24 < 2 ^ 31 := by
    refine ⟨fun hi => ⟨hi 0 (by decide), hi 1 (by decide), hi 2 (by decide)⟩, ?_⟩
    rintro ⟨hi0, hi1, hi2⟩ i hi
    obtain rfl | rfl | rfl : i = 0 ∨ i = 1 ∨ i = 2 := by omega
    · exact hi0
    · exact hi1
    · exact hi2
  refine hall.trans ?_
  rw [h0, h1, h2, hsmall, ← guarded_sums_iff hne hsum]
  -- an empty overlay is small enough
  constructor
  · rintro ⟨hi0, hi1, hi2⟩
    exact ⟨⟨fun hb => (hi1 hb).1, fun hc => (hi2 hc).1⟩, by omega, by omega, by omega⟩
  · rintro ⟨⟨hb, hc⟩, hi0, hi1, hi2⟩
    exact ⟨fun _ => ⟨rfl, hi0⟩, fun h => ⟨hb h, hi1⟩, fun h => ⟨hc h, hi2⟩⟩

/-- A COFF payload behind a header for three overlays. -/
def overlayExe (a b c : Nat) : Bytes := overlayHeader a b c 0x321 8 0x40 ++ coffImage

/-- The third overlay starts behind the first one, `payload2_offs` is 0. -/
theorem overlays_disagree_gap :
    Trail (overlayExe 6 0 5) 0 [headerAt (overlayExe 6 0 5) 0] 0x40 ∧
    Nat.digits 16 (u16 (headerAt (overlayExe 6 0 5) 0) 0x36) = [1, 2, 3] ∧
    ∃ s, Ends (stubStep (overlayExe 6 0 5)) .init (some (.coff, s)) ∧
      ¬ ∀ i t, [1, 2, 3][i]? = some t → u32 (headerAt (overlayExe 6 0 5) 0) (0x1c + i * 4) ≠ 0 →
        s.publish.Agrees (headerAt (overlayExe 6 0 5) 0) i t := by
  have hops : LdOps.Matches .coff (headerAt (overlayExe 6 0 5) 0x40) :=
    (by decide : isCoff (headerAt (overlayExe 6 0 5) 0x40))
  have htrail : Trail (overlayExe 6 0 5) 0 [headerAt (overlayExe 6 0 5) 0] 0x40 :=
    .jump (by decide) (by decide) (by decide) (by decide) (by decide)
      (.payload 0x40 (by decide) hops.magic)
  have hmap : u16 (headerAt (overlayExe 6 0 5) 0) 0x36 = 0x321 := by decide
  refine ⟨htrail, by rw [hmap]; norm_num, _, stubWalk_iff.mpr ⟨_, 0x40, htrail, hops, rfl⟩, ?_⟩
  intro hall
  obtain ⟨o, sz, ho, -, he⟩ := hall 2 3 rfl (by decide)
  have hext : (StubWalk.init.pass (headerAt (overlayExe 6 0 5) 0)).publish.extents[2]? =
      some (0, 5) := by
    decide +kernel
  have hoffs : 0 = u32 (headerAt (overlayExe 6 0 5) 0) 0x3c + o :=
    congrArg Prod.fst (Option.some.inj (hext.symm.trans he))
  have hlf : u32 (headerAt (overlayExe 6 0 5) 0) 0x3c = 0x40 := by decide
  omega

theorem overlays_agree_packed :
    ∃ s, Ends (stubStep (overlayExe 6 5 0)) .init (some (.coff, s)) ∧
      s.publish.Agrees (headerAt (overlayExe 6 5 0) 0) 1 2 := by
  have hops : LdOps.Matches .coff (headerAt (overlayExe 6 5 0) 0x40) :=
    (by decide : isCoff (headerAt (overlayExe 6 5 0) 0x40))
  have htrail : Trail (overlayExe 6 5 0) 0 [headerAt (overlayExe 6 5 0) 0] 0x40 :=
    .jump (by decide) (by decide) (by decide) (by decide) (by decide)
      (.payload 0x40 (by decide) hops.magic)
  have hw := (stubWalk_iff (s := .init)).mpr ⟨_, 0x40, htrail, hops, rfl⟩
  have hmap : u16 (headerAt (overlayExe 6 5 0) 0) 0x36 = 0x321 := by decide
  have hd : Nat.digits 16 (u16 (headerAt (overlayExe 6 5 0) 0) 0x36) = 1 :: 2 :: 3 :: [] := by
    rw [hmap]
    norm_num
  exact ⟨_, hw, (overlays_agree_iff hw htrail hd (by decide) (by decide +kernel)).mpr
    ⟨⟨by decide, by decide⟩, by decide +kernel⟩ 1 2 rfl (by decide)⟩

end Djstub
