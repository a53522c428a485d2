import Djstub.Output

/-! `coff2exe -r` in closed form: the old-style images are passed, the first
header with lfanew names the overlay, and only that overlay is written. -/

namespace Djstub

open Bytes Layout Loop

/-- The bytes that `-r` selects behind the header `h`. An overlay of size zero
stands for the rest of the file. -/
def selected (f h : Bytes) : Option Bytes :=
  match findOffs (rmType (u16 h 0x38)) h, findSize (rmType (u16 h 0x38)) h with
  | some off, some sz =>
    some (if sz = 0 then f.drop (u32 h 0x3c + off) else slice f (u32 h 0x3c + off) sz)
  | _, _ => none

/-- A walk that does not fail passes old-style images only up to some header. -/
theorem oldMz_of_ends {f : Bytes} {o : Options} {w w' : Walk}
    (h : Ends (walkStep f o) w (.ok w')) : ∃ q, OldMz f w.coffset q := by
  generalize he : Except.ok w' = r at h
  revert he
  have hcase (w : Walk) (h1 : ¬ ∃ e, walkStep f o w = .stop (.error e)) :
      ∃ c : Nat, w.coffset = c ∧ (headerAt f c).length = 0x40 :=
    Classical.not_not.mp fun hn => h1 (walkStep_short hn)
  refine Ends.induct (P := fun w r => Except.ok w' = r → ∃ q, OldMz f w.coffset q) ?_ ?_ h
  · rintro w r hs rfl
    obtain ⟨c, hw, hl⟩ := hcase w (by rw [hs]; rintro ⟨e, he⟩; cases he)
    rw [hw]
    refine ⟨c, .here c hl ?_⟩
    rintro ⟨hm, hn⟩
    rw [walkStep_full hw hl, if_pos hm, if_neg hn] at hs
    cases hs
  · rintro w w1 r hs - ih rfl
    obtain ⟨c, hw, hl⟩ := hcase w (by rw [hs]; rintro ⟨e, he⟩; cases he)
    obtain ⟨q, hq⟩ := ih rfl
    rw [hw]
    by_cases hold : isMz (headerAt f c) ∧ ¬ isLfanew (headerAt f c)
    · refine ⟨q, .skip c q hl hold.1 hold.2 ?_⟩
      rw [walkStep_full hw hl, if_pos hold.1, if_neg hold.2, hw] at hs
      cases hs
      exact hq
    · exact ⟨c, .here c hl hold⟩

/-- The walk behind the old-style images. -/
theorem oldMz_walk {f : Bytes} {o : Options} {q : Nat} (ho : OldMz f 0 q) :
    ∃ w : Walk, w.bare = { Walk.init with coffset := q } ∧
      ∀ r, Ends (walkStep f o) Walk.init r ↔ Ends (walkStep f o) w r := by
  obtain ⟨ib, hib⟩ := oldMz_ends (o := o) ho Walk.init rfl
  exact ⟨_, rfl, hib⟩

/-- The walk once `-r` has selected an overlay behind the header `h`. -/
def Walk.remove (w : Walk) (h : Bytes) (off sz : Nat) (ibuf : List Info) : Walk :=
  { coffset := (u32 h 0x3c : Int) + off
    mzhdrBuf := h
    coffFileSize := sz
    rmoverlay := w.rmoverlay + 1
    canCopyOvl := w.canCopyOvl + 1
    stubV := byteAt h 0x3b
    flags := u16 h 0x38
    ibuf }

/-- With `-r` the walk ends at the first header with lfanew. -/
theorem walkStep_remove {f : Bytes} {o : Options} (hr : o.rmstub = true) {w : Walk} {q : Nat}
    (hw : w.coffset = q) (hl : (headerAt f q).length = 0x40) (hm : isMz (headerAt f q))
    (hn : isLfanew (headerAt f q)) :
    (8 ≤ byteAt (headerAt f q) 0x3b ∧ ∃ off sz ib,
      selected f (headerAt f q) = some (if sz = 0 then f.drop (u32 (headerAt f q) 0x3c + off)
        else slice f (u32 (headerAt f q) 0x3c + off) sz) ∧
      walkStep f o w = .stop (.ok (w.remove (headerAt f q) off sz ib))) ∨
    ((byteAt (headerAt f q) 0x3b < 8 ∨ selected f (headerAt f q) = none) ∧
      ∃ e, walkStep f o w = .stop (.error e)) := by
  rw [walkStep_full hw hl, if_pos hm, if_pos hn]
  generalize headerAt f q = h
  unfold lfanewHeader
  dsimp only
  by_cases hv : byteAt h 0x3b < 8
  · rw [if_pos hv]
    exact .inr ⟨.inl hv, _, rfl⟩
  · rw [if_neg hv, if_pos (.inr (by simp [hr])), if_pos hr]
    simp only [hr, true_or, if_true, removeStub]
    cases ho : findOffs (rmType (u16 h 0x38)) h with
    | none =>
      refine .inr ⟨.inr ?_, _, rfl⟩
      simp [selected, ho]
    | some off =>
      cases hs : findSize (rmType (u16 h 0x38)) h with
      | none =>
        refine .inr ⟨.inr ?_, _, rfl⟩
        simp [selected, ho, hs]
      | some sz =>
        refine .inl ⟨by omega, off, sz, _, ?_, rfl⟩
        simp only [selected, ho, hs]

/-- What a run with `-r` finds at the header `q` behind the old-style images. -/
inductive RemoveCase (tmpl : Bytes) (stubVer : Nat) (f : Bytes) (q : Nat) : Bytes → Prop where
  | overlay {g : Bytes} : isMz (headerAt f q) → 8 ≤ byteAt (headerAt f q) 0x3b →
      tmpl.length < 2 ^ 32 → selected f (headerAt f q) = some g →
      RemoveCase tmpl stubVer f q g
  | payload : ¬ isMz (headerAt f q) → Fits tmpl stubVer f [] q →
      RemoveCase tmpl stubVer f q (f.drop q)

/-- Copying the rest of the file by its size copies all of it. -/
theorem copyLoop_rest (rmoverlay : Bool) (f : Bytes) (c : Nat) :
    copyLoop rmoverlay (f.drop c) ((f.length : Int) - c) = f.drop c := by
  rw [copyLoop_eq]
  split
  · split
    · exact List.take_of_length_le (by rw [List.length_drop]; omega)
    · rfl
  · exact (List.drop_eq_nil_of_le (by omega)).symm

section
variable {tmpl : Bytes} (ht : 0x40 ≤ tmpl.length) {o : Options} (hr : o.rmstub = true)
  {f : Bytes} {stubVer : Nat}
include ht hr

theorem prepare_remove {h : Bytes} (hl : h.length = 0x40) (h8 : 8 ≤ byteAt h 0x3b) (w : Walk)
    (off sz : Nat) (ib : List Info) :
    (tmpl.length < 2 ^ 32 → ∃ q, prepare tmpl stubVer f (w.remove h off sz ib) = .ok q ∧
      q.outBytes o f =
        if sz = 0 then f.drop (u32 h 0x3c + off) else slice f (u32 h 0x3c + off) sz) ∧
    (¬ tmpl.length < 2 ^ 32 → ∃ e, prepare tmpl stubVer f (w.remove h off sz ib) = .error e) := by
  have hst (size : Int) := newStub_lfanew ht (w := w.remove h off sz ib) (by simp [Walk.remove])
    hl rfl h8 stubVer size
  have hcof : (w.remove h off sz ib).coffset = ((u32 h 0x3c + off : Nat) : Int) := by
    simp [Walk.remove]
  have hsz : (w.remove h off sz ib).coffFileSize = sz := rfl
  have hrm : (w.remove h off sz ib).rmoverlay ≠ 0 := by simp [Walk.remove]
  constructor
  · intro hL
    simp only [prepare, hst, hL, if_true]
    refine ⟨_, rfl, ?_⟩
    simp only [Prepared.outBytes, hr, if_true, List.nil_append, hcof, hsz, Int.toNat_natCast]
    by_cases h0 : sz = 0
    · simp only [h0, Nat.cast_zero, if_true, copyLoop_rest]
    · have hpos : 0 < (sz : Int) := by omega
      have hne : ¬ (sz : Int) = 0 := by omega
      simp only [h0, hne, if_false, copyLoop_eq, hpos, if_true, hrm, ne_eq, not_false_eq_true,
        decide_true, Int.toNat_natCast]
      rfl
  · intro hL
    simp only [prepare, hst, hL, if_false]
    exact ⟨_, rfl⟩

variable (hi : o.info = false)
include hi

theorem returns_remove_lfanew {q : Nat} (ho : OldMz f 0 q) (hm : isMz (headerAt f q)) {g : Bytes} :
    Returns tmpl stubVer o f (.file g) ↔ 8 ≤ byteAt (headerAt f q) 0x3b ∧
      tmpl.length < 2 ^ 32 ∧ selected f (headerAt f q) = some g := by
  have hl := ho.header_length
  obtain ⟨w, hw, hends⟩ := oldMz_walk (o := o) ho
  have hw : w.coffset = q := (Walk.of_bare hw).1
  simp only [returns_iff, hends, hi, Bool.false_eq_true, if_false]
  rcases walkStep_remove hr hw hl hm (ho.lfanew hm) with
    ⟨h8, off, sz, ib, hsel, hstep⟩ | ⟨hbad, e, hstep⟩
  · simp only [ends_stop hstep, Except.ok.injEq, exists_eq_left', hsel, Option.some.injEq, h8,
      true_and]
    obtain ⟨hok, herr⟩ := @prepare_remove _ ht o hr f stubVer _ hl h8 w off sz ib
    by_cases hL : tmpl.length < 2 ^ 32
    · obtain ⟨p, hp, hout⟩ := hok hL
      simp only [hp, Except.ok.injEq, exists_eq_left', hout, Output.file.injEq, hL, true_and]
      exact eq_comm
    · obtain ⟨e, he⟩ := herr hL
      simp only [he, reduceCtorEq, false_and, exists_false, hL]
  · simp only [ends_stop hstep, reduceCtorEq, false_and, exists_false, false_iff]
    rintro ⟨h8, -, hsel⟩
    rcases hbad with h | h
    · omega
    · rw [hsel] at h
      cases h

theorem returns_remove_payload {q : Nat} (ho : OldMz f 0 q) (hm : ¬ isMz (headerAt f q)) {g : Bytes} :
    Returns tmpl stubVer o f (.file g) ↔ Fits tmpl stubVer f [] q ∧ g = f.drop q := by
  have hl := ho.header_length
  obtain ⟨w, hw, hends⟩ := oldMz_walk (o := o) ho
  have hsv : w.stubV = 0 := (Walk.of_bare hw).2.2.2.2.2
  simp only [returns_iff, hends, hi, Bool.false_eq_true, if_false]
  rcases walkStep_payload (o := o) (Walk.of_bare hw).1 hl hm with ⟨-, ib, hstep⟩ | ⟨hbad, -⟩
  · simp only [ends_stop hstep, Except.ok.injEq, exists_eq_left']
    -- the bytes behind the stub are those of the run that keeps it
    have hacc : Accepts ⟨false, false, false⟩ f [] q :=
      ⟨.payload ho hm, by simp, consistent_nil _⟩
    obtain ⟨hok, herr⟩ := prepare_after ht rfl hacc stubVer (w := { w with ibuf := ib }) hw
    by_cases hfit : Fits tmpl stubVer f [] q
    · obtain ⟨p, hp, hstub, hout⟩ := hok hfit
      have hcopy : p.outBytes o f = f.drop q := by
        simp only [Prepared.outBytes, Bool.false_eq_true, if_false, hstub] at hout
        simp only [Prepared.outBytes, hr, if_true, List.nil_append]
        exact List.append_cancel_left hout
      simp only [hp, Except.ok.injEq, exists_eq_left', hcopy, Output.file.injEq, hfit, true_and]
    · obtain ⟨e, he⟩ := herr hfit
      simp only [he, reduceCtorEq, false_and, exists_false, hfit]
  · exact absurd (fun h => absurd hsv h) hbad

/-- A run with `-r` in closed form. -/
theorem returns_remove_iff {g : Bytes} :
    Returns tmpl stubVer o f (.file g) ↔ ∃ q, OldMz f 0 q ∧ RemoveCase tmpl stubVer f q g := by
  constructor
  · intro h
    obtain ⟨w, hw, -⟩ := returns_iff.mp h
    obtain ⟨q, hq⟩ := oldMz_of_ends hw
    refine ⟨q, hq, ?_⟩
    by_cases hm : isMz (headerAt f q)
    · obtain ⟨h8, hL, hsel⟩ := (returns_remove_lfanew ht hr hi hq hm).mp h
      exact .overlay hm h8 hL hsel
    · obtain ⟨hfit, rfl⟩ := (returns_remove_payload ht hr hi hq hm).mp h
      exact .payload hm hfit
  · rintro ⟨q, hq, hcase⟩
    cases hcase with
    | overlay hm h8 hL hsel => exact (returns_remove_lfanew ht hr hi hq hm).mpr ⟨h8, hL, hsel⟩
    | payload hm hfit => exact (returns_remove_payload ht hr hi hq hm).mpr ⟨hfit, rfl⟩

end

end Djstub
