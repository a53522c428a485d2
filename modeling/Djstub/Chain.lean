import Djstub.Coff2exe

/-! The chain of headers in front of a payload, as a relation on the file
alone, and the walk of `coff2exe` over it. Old-style MZ images are passed by
their declared length, headers with lfanew by a jump. -/

namespace Djstub

open Bytes Layout Loop

/-- The header at offset `c`. -/
abbrev headerAt (f : Bytes) (c : Nat) : Bytes := slice f c 0x40

/-- Old-style MZ images lead from offset `c` to a complete header at `p` that is
not another one of them. -/
inductive OldMz (f : Bytes) : Int → Nat → Prop where
  | here (c : Nat) : (headerAt f c).length = 0x40 →
      ¬ (isMz (headerAt f c) ∧ ¬ isLfanew (headerAt f c)) → OldMz f c c
  | skip (c p : Nat) : (headerAt f c).length = 0x40 → isMz (headerAt f c) →
      ¬ isLfanew (headerAt f c) → OldMz f (c + oldMzLength (headerAt f c)) p → OldMz f c p

/-- From offset `c` the lfanew headers `hs` lead to a payload at `p`. -/
inductive Chain (f : Bytes) : Int → List Bytes → Nat → Prop where
  | payload {c : Int} {p : Nat} : OldMz f c p → ¬ isMz (headerAt f p) → Chain f c [] p
  | lfanew {c : Int} {q p : Nat} {hs : List Bytes} : OldMz f c q → isMz (headerAt f q) →
      Chain f (u32 (headerAt f q) 0x3c) hs p → Chain f c (headerAt f q :: hs) p

theorem header_length_le (f : Bytes) (c : Nat) : (headerAt f c).length ≤ 0x40 := by
  rw [slice_length]; omega

theorem header_length_iff (f : Bytes) (c : Nat) :
    (headerAt f c).length = 0x40 ↔ c + 0x40 ≤ f.length := by
  rw [slice_length]; omega

theorem OldMz.header_length {f : Bytes} {c : Int} {p : Nat} (h : OldMz f c p) :
    (headerAt f p).length = 0x40 := by
  induction h with
  | here c hl _ => exact hl
  | skip _ _ _ _ _ _ ih => exact ih

theorem OldMz.lfanew {f : Bytes} {c : Int} {p : Nat} (h : OldMz f c p)
    (hm : isMz (headerAt f p)) : isLfanew (headerAt f p) := by
  induction h with
  | here c _ hn => exact Classical.not_not.mp fun hl => hn ⟨hm, hl⟩
  | skip _ _ _ _ _ _ ih => exact ih hm

theorem OldMz.unique {f : Bytes} {c : Int} {p q : Nat} (hp : OldMz f c p) (hq : OldMz f c q) :
    p = q := by
  generalize hd : c = d at hq
  induction hp generalizing d with
  | here c _ hn =>
    cases hq with
    | here c' _ _ => omega
    | skip c' q _ hm hl _ =>
      have hc : c = c' := by omega
      subst hc
      exact absurd ⟨hm, hl⟩ hn
  | skip c p _ hm hl _ ih =>
    cases hq with
    | here _ _ hn =>
      have hc : c = q := by omega
      subst hc
      exact absurd ⟨hm, hl⟩ hn
    | skip c' q _ _ _ hq =>
      have hc : c = c' := by omega
      subst hc
      exact ih _ rfl hq

/-- A file has at most one chain. -/
theorem Chain.unique {f : Bytes} {c : Int} {hs hs' : List Bytes} {p p' : Nat}
    (h : Chain f c hs p) (h' : Chain f c hs' p') : hs = hs' ∧ p = p' := by
  induction h generalizing hs' with
  | payload ho hn =>
    cases h' with
    | payload ho' _ => exact ⟨rfl, ho.unique ho'⟩
    | lfanew ho' hm _ =>
      rw [← ho.unique ho'] at hm
      exact absurd hm hn
  | lfanew ho hm _ ih =>
    cases h' with
    | payload ho' hn =>
      rw [← ho.unique ho'] at hn
      exact absurd hm hn
    | lfanew ho' _ hc =>
      have hq := ho.unique ho'
      subst hq
      obtain ⟨h1, h2⟩ := ih hc
      exact ⟨by rw [h1], h2⟩

theorem Chain.payload_header {f : Bytes} {c : Int} {hs : List Bytes} {p : Nat}
    (h : Chain f c hs p) : (headerAt f p).length = 0x40 ∧ ¬ isMz (headerAt f p) := by
  induction h with
  | payload ho hn => exact ⟨ho.header_length, hn⟩
  | lfanew _ _ _ ih => exact ih

theorem Chain.mem {f : Bytes} {c : Int} {hs : List Bytes} {p : Nat} (hc : Chain f c hs p)
    {h : Bytes} (hh : h ∈ hs) : h.length = 0x40 ∧ isMz h ∧ isLfanew h := by
  induction hc with
  | payload => cases hh
  | lfanew ho hm _ ih =>
    rcases List.mem_cons.mp hh with rfl | hh
    · exact ⟨ho.header_length, hm, ho.lfanew hm⟩
    · exact ih hh

theorem isCoff_not_isElf {buf : Bytes} (h : isCoff buf) : ¬ isElf buf := by
  intro he
  have := h.1
  have := he.1
  omega

/-! ## One header -/

/-- What `-s` makes of a header: the number of overlays its listing passes and
the bytes of those that stay. -/
structure Cut where
  i : Nat
  keep : Nat
  deriving DecidableEq, Repr

def cut (h : Bytes) : Option Cut :=
  let l := listing h 0
  if isDebug l.typeVal then some ⟨l.i, l.offs - l.sz⟩ else none

theorem cut_eq_some {h : Bytes} {c : Cut} : cut h = some c ↔ isDebug (listing h 0).typeVal ∧
    ⟨(listing h 0).i, (listing h 0).offs - (listing h 0).sz⟩ = c := by
  simp only [cut, Option.ite_none_right_eq_some, Option.some.injEq]

theorem cut_isSome (h : Bytes) : (∃ c, cut h = some c) ↔ isDebug (listing h 0).typeVal := by
  simp only [cut_eq_some, exists_and_left, exists_eq', and_true]

theorem cut_i_le {h : Bytes} {c : Cut} (hc : cut h = some c) : c.i ≤ 4 := by
  obtain ⟨-, rfl⟩ := cut_eq_some.mp hc
  exact listing_i_le h 0

/-- Headers that the walk gets past. -/
structure Admits (o : Options) (h : Bytes) : Prop where
  version : 8 ≤ byteAt h 0x3b
  strips : o.strip = true → ∀ c, cut h = some c → 1 < c.i

/-- The header written by `-s`: the slot before the listing's end is cleared. -/
def cutHeader (h : Bytes) (c : Cut) : Bytes := patch h (0x1c + (c.i - 1) * 4) (toBytes 4 0)

/-- The walk after an admitted header, with nothing printed. -/
def Walk.pass (o : Options) (w : Walk) (h : Bytes) : Walk :=
  let c := if o.strip then cut h else none
  { coffset := u32 h 0x3c
    mzhdrBuf := c.elim h (cutHeader h)
    coffFileSize := c.elim w.coffFileSize fun c => c.keep
    rmoverlay := if o.rmstub ∨ o.strip then w.rmoverlay + 1 else w.rmoverlay
    canCopyOvl := w.canCopyOvl + 1
    stubV := byteAt h 0x3b
    flags := u16 h 0x38
    ibuf := [] }

def Walk.bare (w : Walk) : Walk := { w with ibuf := [] }

theorem writeU32_eq_some {b : Bytes} {off : Nat} {v : Int} {b' : Bytes} :
    writeU32 b off v = some b' ↔
      0 ≤ v ∧ v < 2 ^ 32 ∧ off + 4 ≤ b.length ∧ b' = patch b off (toBytes 4 v.toNat) := by
  rw [writeU32, Option.ite_none_right_eq_some, Option.some.injEq, and_assoc, and_assoc]
  exact and_congr_right' (and_congr_right' (and_congr_right' eq_comm))

theorem writeU16_eq_some {b : Bytes} {off : Nat} {v : Int} {b' : Bytes} :
    writeU16 b off v = some b' ↔
      0 ≤ v ∧ v < 2 ^ 16 ∧ off + 2 ≤ b.length ∧ b' = patch b off (toBytes 2 v.toNat) := by
  rw [writeU16, Option.ite_none_right_eq_some, Option.some.injEq, and_assoc, and_assoc]
  exact and_congr_right' (and_congr_right' (and_congr_right' eq_comm))

theorem listing_sz_le (h : Bytes) (hd : isDebug (listing h 0).typeVal) :
    (listing h 0).sz ≤ (listing h 0).offs := by
  by_cases hm : u16 h 0x36 = 0
  · rw [listing_empty hm] at hd
    simp [isDebug, ObjType.value] at hd
  · rcases listing_split hm with ⟨T, t, n, -, -, hl⟩ | ⟨T, t, U, -, -, hl⟩
    · rw [hl]; simp
    · rw [hl]; simp

/-- `-s` at a header that it may strip. -/
theorem stripOverlay_ok {w : Walk} {h : Bytes} (hlen : w.mzhdrBuf.length = 0x40) {c : Cut}
    (hc : cut h = some c) (hi : 1 < c.i) (offs : Nat) (hw : w.coffset = offs) :
    stripOverlay w (listing h offs) =
      .ok { w with coffFileSize := c.keep, mzhdrBuf := cutHeader w.mzhdrBuf c } := by
  obtain ⟨hd, rfl⟩ := cut_eq_some.mp hc
  obtain ⟨-, hsz, hli, hlo⟩ := listing_offs h offs
  have hle := listing_sz_le h hd
  have h4 := listing_i_le h 0
  dsimp only at hi
  have hw' : writeU32 w.mzhdrBuf (0x1c + ((listing h 0).i - 1) * 4) 0 =
      some (cutHeader w.mzhdrBuf ⟨(listing h 0).i, (listing h 0).offs - (listing h 0).sz⟩) :=
    writeU32_eq_some.mpr ⟨by omega, by omega, by omega, rfl⟩
  unfold stripOverlay
  rw [hsz, hli, hlo, if_pos hi, hw', hw]
  simp only
  congr 2
  omega

theorem stripOverlay_error {w : Walk} {h : Bytes} {c : Cut} (hc : cut h = some c) (hi : ¬ 1 < c.i)
    (offs : Nat) : ∃ e, stripOverlay w (listing h offs) = .error e := by
  obtain ⟨-, rfl⟩ := cut_eq_some.mp hc
  unfold stripOverlay
  rw [(listing_offs h offs).2.2.1, if_neg hi]
  exact ⟨_, rfl⟩

/-- An lfanew header, without `-r`: the walk goes on exactly if it is admitted. -/
theorem lfanewHeader_next {o : Options} (hr : o.rmstub = false) {h : Bytes} (hl : h.length = 0x40)
    (ha : Admits o h) (f : Bytes) (w : Walk) :
    ∃ w', lfanewHeader f o w h = .next w' ∧ w'.bare = w.pass o h := by
  have hv : ¬ byteAt h 0x3b < 8 := by have := ha.version; omega
  obtain ⟨i, r, s⟩ := o
  dsimp only at hr
  subst hr
  cases s with
  | false =>
    unfold lfanewHeader
    by_cases hm : w.rmoverlay = 0 <;> cases i <;> simp [hv, hm, Walk.bare, Walk.pass]
  | true =>
    cases hc : cut h with
    | none =>
      have hd : ¬ isDebug (listing h (u32 h 0x3c)).typeVal := by
        rw [(listing_offs h _).1]
        intro hd
        obtain ⟨c, hc'⟩ := (cut_isSome h).mpr hd
        rw [hc] at hc'
        cases hc'
      unfold lfanewHeader
      simp [hv, hd, Walk.bare, Walk.pass, hc]
    | some c =>
      have hd : isDebug (listing h (u32 h 0x3c)).typeVal := by
        rw [(listing_offs h _).1]
        exact (cut_isSome h).mp ⟨c, hc⟩
      have hi : 1 < c.i := ha.strips rfl c hc
      unfold lfanewHeader
      simp only [hv, hd, if_false, or_true, if_true, Bool.false_eq_true, and_self, ne_eq,
        Nat.add_eq_zero_iff, one_ne_zero, and_false, not_false_eq_true]
      rw [stripOverlay_ok hl hc hi _ rfl]
      refine ⟨_, rfl, ?_⟩
      simp [Walk.bare, Walk.pass, hc]

theorem lfanewHeader_error {o : Options} (hr : o.rmstub = false) {h : Bytes} (ha : ¬ Admits o h)
    (f : Bytes) (w : Walk) : ∃ e, lfanewHeader f o w h = .stop (.error e) := by
  by_cases hv : byteAt h 0x3b < 8
  · exact ⟨.stubTooOld (byteAt h 0x3b), by simp [lfanewHeader, hv]⟩
  · obtain ⟨hs, c, hc, hi⟩ : o.strip = true ∧ ∃ c, cut h = some c ∧ ¬ 1 < c.i := by
      by_contra hn
      refine ha ⟨by omega, fun hs c hc => ?_⟩
      by_contra hi
      exact hn ⟨hs, c, hc, hi⟩
    have hd : isDebug (listing h (u32 h 0x3c)).typeVal := by
      rw [(listing_offs h _).1]
      exact (cut_isSome h).mp ⟨c, hc⟩
    unfold lfanewHeader
    simp only [hv, hd, hr, hs, if_false, or_true, if_true, Bool.false_eq_true, and_self, ne_eq,
      Nat.add_eq_zero_iff, one_ne_zero, and_false, not_false_eq_true]
    obtain ⟨e, he⟩ := stripOverlay_error hc hi (u32 h 0x3c)
    exact ⟨e, by rw [he]⟩

/-! ## One iteration -/

/-- The consistency checks at the payload; without an lfanew header nothing is
checked. -/
def PayloadOk (stubV flags : Nat) (buf : Bytes) : Prop :=
  stubV ≠ 0 → (isCoff buf → flags &&& 0x80 = 0) ∧ (isElf buf → flags &&& 0x80 ≠ 0)

section
variable {f : Bytes} {o : Options} {w : Walk} {c : Nat} (hw : w.coffset = c)
include hw

theorem walkStep_full (hl : (headerAt f c).length = 0x40) :
    walkStep f o w =
      if isMz (headerAt f c) then
        if isLfanew (headerAt f c) then lfanewHeader f o w (headerAt f c)
        else
          .next { w with
            coffset := w.coffset + oldMzLength (headerAt f c)
            ibuf := w.ibuf ++ if o.info then [.exeFormat] else [] }
      else if isCoff (headerAt f c) then
        if w.stubV ≠ 0 ∧ w.flags &&& 0x80 ≠ 0 then .stop (.error .unexpectedCoff)
        else
          .stop (.ok { w with
            ibuf := w.ibuf ++ if o.info ∧ w.stubV = 0 then [.coffPayload w.coffset] else [] })
      else if isElf (headerAt f c) then
        if w.stubV ≠ 0 ∧ w.flags &&& 0x80 = 0 then .stop (.error .unexpectedElf)
        else
          .stop (.ok { w with
            ibuf := w.ibuf ++ if o.info ∧ w.stubV = 0 then
              [.elfPayload (elfId f c) w.coffset] else [] })
      else .stop (.ok w) := by
  have h1 : ¬ w.coffset < 0 := by omega
  have h2 : w.coffset.toNat = c := by omega
  have h3 : ¬ (slice f c 0x40).length < 0x40 := Nat.not_lt.mpr (Nat.le_of_eq hl.symm)
  simp only [walkStep, h1, h3, if_false, h2]

theorem walkStep_payload (hl : (headerAt f c).length = 0x40) (hm : ¬ isMz (headerAt f c)) :
    (PayloadOk w.stubV w.flags (headerAt f c) ∧
      ∃ ib, walkStep f o w = .stop (.ok { w with ibuf := ib })) ∨
    (¬ PayloadOk w.stubV w.flags (headerAt f c) ∧ ∃ e, walkStep f o w = .stop (.error e)) := by
  rw [walkStep_full hw hl, if_neg hm]
  by_cases hc : isCoff (headerAt f c)
  · have he := isCoff_not_isElf hc
    rw [if_pos hc]
    by_cases hx : w.stubV ≠ 0 ∧ w.flags &&& 0x80 ≠ 0
    · rw [if_pos hx]
      exact Or.inr ⟨fun hp => hx.2 ((hp hx.1).1 hc), _, rfl⟩
    · rw [if_neg hx]
      refine Or.inl ⟨fun hs => ⟨fun _ => ?_, fun h => absurd h he⟩, _, rfl⟩
      by_contra hf
      exact hx ⟨hs, hf⟩
  · rw [if_neg hc]
    by_cases he : isElf (headerAt f c)
    · rw [if_pos he]
      by_cases hx : w.stubV ≠ 0 ∧ w.flags &&& 0x80 = 0
      · rw [if_pos hx]
        exact Or.inr ⟨fun hp => (hp hx.1).2 he hx.2, _, rfl⟩
      · rw [if_neg hx]
        exact Or.inl ⟨fun hs => ⟨fun h => absurd h hc, fun _ hf => hx ⟨hs, hf⟩⟩, _, rfl⟩
    · rw [if_neg he]
      exact Or.inl ⟨fun _ => ⟨fun h => absurd h hc, fun h => absurd h he⟩, w.ibuf, rfl⟩

end

/-- Everything that one iteration without `-r` can do. -/
inductive WalkCase (f : Bytes) (o : Options) (w : Walk) : Step Walk WalkResult → Prop where
  | error (e : Failure) : WalkCase f o w (.stop (.error e))
  | old (c : Nat) (ib : List Info) : w.coffset = c → (headerAt f c).length = 0x40 →
      isMz (headerAt f c) → ¬ isLfanew (headerAt f c) →
      WalkCase f o w (.next { w with coffset := c + oldMzLength (headerAt f c), ibuf := ib })
  | lfanew (c : Nat) (w' : Walk) : w.coffset = c → (headerAt f c).length = 0x40 →
      isMz (headerAt f c) → isLfanew (headerAt f c) → Admits o (headerAt f c) →
      w'.bare = w.pass o (headerAt f c) → WalkCase f o w (.next w')
  | payload (c : Nat) (ib : List Info) : w.coffset = c → (headerAt f c).length = 0x40 →
      ¬ isMz (headerAt f c) → PayloadOk w.stubV w.flags (headerAt f c) →
      WalkCase f o w (.stop (.ok { w with ibuf := ib }))

theorem walkStep_short {f : Bytes} {o : Options} {w : Walk}
    (h : ¬ ∃ c : Nat, w.coffset = c ∧ (headerAt f c).length = 0x40) :
    ∃ e, walkStep f o w = .stop (.error e) := by
  unfold walkStep
  split
  · exact ⟨_, rfl⟩
  · next hc =>
    have hlt : (slice f w.coffset.toNat 0x40).length < 0x40 := by
      by_contra hn
      exact h ⟨w.coffset.toNat, by omega,
        Nat.le_antisymm (header_length_le f _) (Nat.not_lt.mp hn)⟩
    simp only [hlt, if_true]
    exact ⟨_, rfl⟩

theorem walkStep_cases {o : Options} (hr : o.rmstub = false) (f : Bytes) (w : Walk) :
    WalkCase f o w (walkStep f o w) := by
  by_cases hfull : ∃ c : Nat, w.coffset = c ∧ (headerAt f c).length = 0x40
  · obtain ⟨c, hw, hl⟩ := hfull
    by_cases hm : isMz (headerAt f c)
    · have hstep := walkStep_full (o := o) hw hl
      rw [if_pos hm] at hstep
      by_cases hn : isLfanew (headerAt f c)
      · rw [hstep, if_pos hn]
        by_cases ha : Admits o (headerAt f c)
        · obtain ⟨w', h1, h2⟩ := lfanewHeader_next hr hl ha f w
          rw [h1]
          exact .lfanew c w' hw hl hm hn ha h2
        · obtain ⟨e, h1⟩ := lfanewHeader_error hr ha f w
          rw [h1]
          exact .error e
      · rw [hstep, if_neg hn, hw]
        exact .old c _ hw hl hm hn
    · rcases walkStep_payload (o := o) hw hl hm with ⟨hp, ib, h1⟩ | ⟨-, e, h1⟩
      · rw [h1]
        exact .payload c ib hw hl hm hp
      · rw [h1]
        exact .error e
  · obtain ⟨e, h1⟩ := walkStep_short (o := o) hfull
    rw [h1]
    exact .error e

/-! ## The whole walk -/

/-- Where a finished walk is: the headers have been passed in order. -/
def Walk.after (o : Options) (w : Walk) (hs : List Bytes) (p : Nat) : Walk :=
  { hs.foldl (Walk.pass o) w.bare with coffset := p }

theorem after_congr {o : Options} {w v : Walk}
    (h : { w with coffset := 0 }.bare = { v with coffset := 0 }.bare)
    (hs : List Bytes) (p : Nat) : w.after o hs p = v.after o hs p := by
  simp only [Walk.bare, Walk.mk.injEq] at h
  obtain ⟨-, h1, h2, h3, h4, h5, h6, -⟩ := h
  cases hs with
  | nil => simp [Walk.after, Walk.bare, h1, h2, h3, h4, h5, h6]
  | cons x hs => simp [Walk.after, Walk.bare, Walk.pass, h2, h3, h4]

theorem Chain.old {f : Bytes} {c p : Nat} {hs : List Bytes} (hl : (headerAt f c).length = 0x40)
    (hm : isMz (headerAt f c)) (hn : ¬ isLfanew (headerAt f c))
    (h : Chain f (c + oldMzLength (headerAt f c)) hs p) : Chain f c hs p := by
  cases h with
  | payload ho hp => exact .payload (.skip c p hl hm hn ho) hp
  | lfanew ho hp hc => exact .lfanew (.skip c _ hl hm hn ho) hp hc

/-- A walk without `-r` that finishes has passed a chain of admitted headers. -/
theorem walk_sound {f : Bytes} {o : Options} (hr : o.rmstub = false) {w w' : Walk}
    (h : Ends (walkStep f o) w (.ok w')) :
    ∃ hs p, Chain f w.coffset hs p ∧ (∀ h ∈ hs, Admits o h) ∧
      PayloadOk (w.after o hs p).stubV (w.after o hs p).flags (headerAt f p) ∧
      w'.bare = w.after o hs p := by
  generalize he : Except.ok w' = r at h
  revert he
  refine Ends.induct (P := fun w r => Except.ok w' = r → ∃ hs p, Chain f w.coffset hs p ∧
    (∀ h ∈ hs, Admits o h) ∧
    PayloadOk (w.after o hs p).stubV (w.after o hs p).flags (headerAt f p) ∧
    w'.bare = w.after o hs p) ?_ ?_ h
  · rintro w r hs rfl
    have hcase := walkStep_cases hr f w
    rw [hs] at hcase
    cases hcase with
    | payload c ib hw hl hm hp =>
      refine ⟨[], c, ?_, by simp, hp, ?_⟩
      · rw [hw]
        exact .payload (.here c hl fun h => hm h.1) hm
      · simp [Walk.after, Walk.bare, hw]
  · rintro w w1 r hs - ih rfl
    obtain ⟨hs', p, hch, hadm, hpay, hbare⟩ := ih rfl
    have hcase := walkStep_cases hr f w
    rw [hs] at hcase
    cases hcase with
    | old c ib hw hl hm hn =>
      have hafter : w.after o hs' p = Walk.after o
          { w with coffset := c + oldMzLength (headerAt f c), ibuf := ib } hs' p :=
        after_congr (by simp [Walk.bare]) hs' p
      refine ⟨hs', p, ?_, hadm, ?_, ?_⟩
      · rw [hw]; exact Chain.old hl hm hn hch
      · rw [hafter]; exact hpay
      · rw [hafter]; exact hbare
    | lfanew c _ hw hl hm hn ha h2 =>
      have hcof : w1.coffset = u32 (headerAt f c) 0x3c := by
        have := congrArg Walk.coffset h2
        simpa [Walk.bare, Walk.pass] using this
      have hafter : w1.after o hs' p = w.after o (headerAt f c :: hs') p := by
        simp only [Walk.after, List.foldl_cons, h2]
        rfl
      refine ⟨headerAt f c :: hs', p, ?_, ?_, ?_, ?_⟩
      · rw [hw]
        rw [hcof] at hch
        exact .lfanew (.here c hl fun h => h.2 hn) hm hch
      · intro h hh
        rcases List.mem_cons.mp hh with rfl | hh
        · exact ha
        · exact hadm h hh
      · rw [← hafter]; exact hpay
      · rw [← hafter]; exact hbare

/-- Old-style MZ images only move the walk. -/
theorem oldMz_ends {f : Bytes} {o : Options} {c : Int} {p : Nat} (h : OldMz f c p) :
    ∀ w : Walk, w.coffset = c → ∃ ib, ∀ r,
      Ends (walkStep f o) w r ↔ Ends (walkStep f o) { w with coffset := p, ibuf := ib } r := by
  induction h with
  | here c _ _ =>
    intro w hw
    exact ⟨w.ibuf, fun r => by rw [← hw]⟩
  | skip c p hl hm hn _ ih =>
    intro w hw
    obtain ⟨ib, h1⟩ : ∃ ib, walkStep f o w =
        .next { w with coffset := c + oldMzLength (headerAt f c), ibuf := ib } := by
      rw [walkStep_full hw hl, if_pos hm, if_neg hn, hw]
      exact ⟨_, rfl⟩
    obtain ⟨ib', h2⟩ := ih { w with coffset := c + oldMzLength (headerAt f c), ibuf := ib } rfl
    exact ⟨ib', fun r => (ends_next h1).trans (h2 r)⟩

/-- A chain of admitted headers is walked to its end. -/
theorem walk_complete {f : Bytes} {o : Options} (hr : o.rmstub = false) {c : Int}
    {hs : List Bytes} {p : Nat} (hch : Chain f c hs p) :
    ∀ w : Walk, w.coffset = c → (∀ h ∈ hs, Admits o h) →
      PayloadOk (w.after o hs p).stubV (w.after o hs p).flags (headerAt f p) →
      ∃ w', Ends (walkStep f o) w (.ok w') ∧ w'.bare = w.after o hs p := by
  induction hch with
  | @payload c p ho hm =>
    intro w hw _ hp
    obtain ⟨ib, hib⟩ := oldMz_ends (o := o) ho w hw
    have hpay : PayloadOk w.stubV w.flags (headerAt f p) := hp
    rcases walkStep_payload (f := f) (o := o) (w := { w with coffset := p, ibuf := ib }) rfl
      ho.header_length hm with ⟨-, ib', h1⟩ | ⟨hn, -⟩
    · exact ⟨_, (hib _).mpr ((ends_stop h1).mpr rfl), rfl⟩
    · exact absurd hpay hn
  | @lfanew c q p hs ho hm _ ih =>
    intro w hw hadm hp
    obtain ⟨ib, hib⟩ := oldMz_ends (o := o) ho w hw
    obtain ⟨w1, h1, h2⟩ := lfanewHeader_next hr ho.header_length
      (hadm _ (List.mem_cons_self ..)) f { w with coffset := q, ibuf := ib }
    have hstep : walkStep f o { w with coffset := q, ibuf := ib } = .next w1 := by
      rw [walkStep_full rfl ho.header_length, if_pos hm, if_pos (ho.lfanew hm), h1]
    have hcof : w1.coffset = u32 (headerAt f q) 0x3c := by
      have := congrArg Walk.coffset h2
      simpa [Walk.bare, Walk.pass] using this
    have hafter : w1.after o hs p = w.after o (headerAt f q :: hs) p := by
      simp only [Walk.after, List.foldl_cons, h2]
      rfl
    obtain ⟨w', he, hb⟩ := ih w1 hcof (fun h hh => hadm h (List.mem_cons_of_mem _ hh))
      (by rw [hafter]; exact hp)
    exact ⟨w', (hib _).mpr ((ends_next hstep).mpr he), by rw [hb, hafter]⟩

end Djstub
