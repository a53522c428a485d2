import Djstub.Remove
import Djstub.Fullstub

/-! Where the header walks stop. The offset of the next header depends on the
file and the options only, so a walk runs forever exactly if the headers lead
into a circle. -/

namespace Djstub

open Bytes Layout Loop

/-! ## coff2exe -/

/-- Headers with lfanew behind which `coff2exe` goes on. -/
def GoesOn (o : Options) (h : Bytes) : Prop :=
  8 ≤ byteAt h 0x3b ∧ o.rmstub = false ∧
    (o.strip = true → isDebug (listing h 0).typeVal → 1 < (listing h 0).i)

instance (o : Options) (h : Bytes) : Decidable (GoesOn o h) := by unfold GoesOn; infer_instance

/-- The offset of the header behind the one at `c`. -/
def walkLink (f : Bytes) (o : Options) (c : Int) : Option Int :=
  let h := headerAt f c.toNat
  if c < 0 ∨ h.length ≠ 0x40 ∨ ¬ isMz h then none
  else if ¬ isLfanew h then some (c + oldMzLength h)
  else if GoesOn o h then some (u32 h 0x3c)
  else none

theorem goesOn_iff {o : Options} {h : Bytes} : GoesOn o h ↔ o.rmstub = false ∧ Admits o h := by
  constructor
  · rintro ⟨h8, hr, hs⟩
    refine ⟨hr, h8, fun ho c hc => ?_⟩
    obtain ⟨hd, rfl⟩ := cut_eq_some.mp hc
    exact hs ho hd
  · rintro ⟨hr, h8, hs⟩
    exact ⟨h8, hr, fun ho hd => hs ho _ (cut_eq_some.mpr ⟨hd, rfl⟩)⟩

section
variable {f : Bytes} {o : Options} {w : Walk} {c : Nat} (hw : w.coffset = c)
  (hl : (headerAt f c).length = 0x40)
include hw hl

/-- The link behind a complete header. -/
theorem walkLink_full : walkLink f o w.coffset =
    if ¬ isMz (headerAt f c) then none
    else if ¬ isLfanew (headerAt f c) then some (c + oldMzLength (headerAt f c))
    else if GoesOn o (headerAt f c) then some (u32 (headerAt f c) 0x3c)
    else none := by
  rw [hw]
  have h0 : ¬ (c : Int) < 0 := by omega
  simp only [walkLink, Int.toNat_natCast, hl, h0, ne_eq, not_true_eq_false, false_or]

/-- A header with lfanew is jumped over or ends the walk. -/
theorem walkStep_lfanew (hm : isMz (headerAt f c)) (hn : isLfanew (headerAt f c)) :
    (GoesOn o (headerAt f c) ∧ ∃ w', walkStep f o w = .next w' ∧
      w'.coffset = u32 (headerAt f c) 0x3c) ∨
    (¬ GoesOn o (headerAt f c) ∧ ∃ r, walkStep f o w = .stop r) := by
  rw [goesOn_iff]
  cases hr : o.rmstub with
  | true =>
    refine .inr ⟨by simp, ?_⟩
    rcases walkStep_remove hr hw hl hm hn with ⟨-, off, sz, ib, -, h1⟩ | ⟨-, e, h1⟩
    · exact ⟨_, h1⟩
    · exact ⟨_, h1⟩
  | false =>
    rw [walkStep_full hw hl, if_pos hm, if_pos hn]
    by_cases ha : Admits o (headerAt f c)
    · obtain ⟨w', h1, h2⟩ := lfanewHeader_next hr hl ha f w
      exact .inl ⟨⟨rfl, ha⟩, w', h1, congrArg Walk.coffset h2⟩
    · obtain ⟨e, h1⟩ := lfanewHeader_error hr ha f w
      exact .inr ⟨fun h => ha h.2, _, h1⟩

end

theorem walkStep_follows (f : Bytes) (o : Options) :
    Follows (walkStep f o) Walk.coffset (walkLink f o) := by
  intro w
  by_cases hfull : ∃ c : Nat, w.coffset = c ∧ (headerAt f c).length = 0x40
  · obtain ⟨c, hw, hl⟩ := hfull
    rw [walkLink_full hw hl]
    by_cases hm : isMz (headerAt f c)
    · rw [if_neg (fun h => h hm)]
      by_cases hn : isLfanew (headerAt f c)
      · rw [if_neg (fun h => h hn)]
        rcases walkStep_lfanew (o := o) hw hl hm hn with ⟨hg, w', h1, h2⟩ | ⟨hg, r, h1⟩
        · exact .inl ⟨w', h1, by rw [if_pos hg, h2]⟩
        · exact .inr ⟨r, h1, if_neg hg⟩
      · have hstep := walkStep_full (o := o) hw hl
        rw [if_pos hm, if_neg hn, hw] at hstep
        exact .inl ⟨_, hstep, if_pos hn⟩
    · rw [if_pos hm]
      rcases walkStep_payload (o := o) hw hl hm with ⟨-, ib, h1⟩ | ⟨-, e, h1⟩
      · exact .inr ⟨_, h1, rfl⟩
      · exact .inr ⟨_, h1, rfl⟩
  · obtain ⟨e, he⟩ := walkStep_short (o := o) hfull
    refine .inr ⟨_, he, if_pos ?_⟩
    by_contra hn
    refine hfull ⟨w.coffset.toNat, by omega, ?_⟩
    by_contra hl
    exact hn (.inr (.inl hl))

/-- Only offsets inside the file lead on. -/
theorem walkLink_finite (f : Bytes) (o : Options) : {c | walkLink f o c ≠ none}.Finite := by
  refine (Set.finite_Icc (0 : Int) f.length).subset fun c hc => ?_
  by_contra hout
  refine hc (if_pos ?_)
  by_contra hn
  have hl : (headerAt f c.toNat).length = 0x40 := by
    by_contra hl
    exact hn (.inr (.inl hl))
  have := (header_length_iff f c.toNat).mp hl
  exact hout ⟨by omega, by omega⟩

/-! ## fullstub -/

/-- The position of the header behind the one at `c`. -/
def stubLink (f : Bytes) (c : Nat) : Option Nat :=
  let h := headerAt f c
  if h.length = 0x40 ∧ isMz h ∧ isLfanew h then some (lseek (c + 0x40) (u32 h 0x3c)) else none

theorem stubStep_follows (f : Bytes) : Follows (stubStep f) StubWalk.pos (stubLink f) := by
  intro s
  by_cases hlink : (headerAt f s.pos).length = 0x40 ∧ isMz (headerAt f s.pos) ∧
      isLfanew (headerAt f s.pos)
  · exact .inl ⟨_, stubStep_lfanew hlink.1 hlink.2.1 hlink.2.2, if_pos hlink⟩
  · refine .inr ?_
    have hcase := stubStep_cases f s
    generalize stubStep f s = x at hcase
    cases hcase with
    | exits => exact ⟨_, rfl, if_neg hlink⟩
    | lfanew hl hm hn => exact absurd ⟨hl, hm, hn⟩ hlink
    | payload ops _ _ => exact ⟨_, rfl, if_neg hlink⟩

theorem stubLink_finite (f : Bytes) : {c | stubLink f c ≠ none}.Finite := by
  refine (Set.finite_Icc 0 f.length).subset fun c hc => ?_
  by_contra hout
  refine hc (if_neg fun hl => ?_)
  have := (header_length_iff f c).mp hl.1
  exact hout ⟨by omega, by omega⟩

/-- Both walks stop on a file exactly if the headers that they follow from
offset 0 on do not lead into a circle. -/
theorem walks_end_iff (f : Bytes) (o : Options) :
    ((∃ r, Ends (walkStep f o) Walk.init r) ↔ ¬ Cyclic (walkLink f o) 0) ∧
      ((∃ r, Ends (stubStep f) StubWalk.init r) ↔ ¬ Cyclic (stubLink f) 0) :=
  ⟨(walkStep_follows f o).ends_iff (walkLink_finite f o) Walk.init,
    (stubStep_follows f).ends_iff (stubLink_finite f) StubWalk.init⟩

/-- A walk on which every header leads beyond its own offset comes to an end, and to no
offset twice. -/
theorem walks_end_of_forward (f : Bytes) (o : Options) :
    (Upward (walkLink f o) 0 →
      (∃ r, Ends (walkStep f o) Walk.init r) ∧ ¬ Cyclic (walkLink f o) 0) ∧
    (Upward (stubLink f) 0 →
      (∃ r, Ends (stubStep f) StubWalk.init r) ∧ ¬ Cyclic (stubLink f) 0) := by
  obtain ⟨hwalk, hstub⟩ := walks_end_iff f o
  exact ⟨fun h => ⟨hwalk.mpr h.not_cyclic, h.not_cyclic⟩,
    fun h => ⟨hstub.mpr h.not_cyclic, h.not_cyclic⟩⟩

/-- A header whose lfanew is its own offset. -/
def loopExe : Bytes :=
  [0x4d, 0x5a] ++ List.replicate 6 0 ++ [4, 0] ++ List.replicate 49 0 ++ [8, 0, 0, 0, 0]

/-- Neither walk gets past it. -/
theorem loopExe_walks_forever :
    (¬ ∃ r, Ends (walkStep loopExe ⟨false, false, false⟩) Walk.init r) ∧
      ¬ ∃ r, Ends (stubStep loopExe) StubWalk.init r := by
  have h1 : walkLink loopExe ⟨false, false, false⟩ 0 = some 0 := by decide +kernel
  have h2 : stubLink loopExe 0 = some 0 := by decide +kernel
  exact ⟨fun ⟨_, hr⟩ => (walkStep_follows _ _).not_cyclic hr ⟨0, .refl, .single h1⟩,
    fun ⟨_, hr⟩ => (stubStep_follows _).not_cyclic hr ⟨0, .refl, .single h2⟩⟩

/-- Two headers, each in front of the next. -/
theorem walks_end_forward_stubbed :
    (∃ r, Ends (walkStep (stubbed bareTemplate 8 coffImage) .plain) Walk.init r) ∧
      ∃ r, Ends (stubStep (stubbed bareTemplate 8 coffImage)) StubWalk.init r := by
  have h0 : walkLink (stubbed bareTemplate 8 coffImage) .plain 0 = some 0x40 := by decide +kernel
  have h1 : walkLink (stubbed bareTemplate 8 coffImage) .plain 0x40 = none := by decide +kernel
  have h2 : stubLink (stubbed bareTemplate 8 coffImage) 0 = some 0x40 := by decide +kernel
  have h3 : stubLink (stubbed bareTemplate 8 coffImage) 0x40 = none := by decide +kernel
  obtain ⟨hwalk, hstub⟩ := walks_end_of_forward (stubbed bareTemplate 8 coffImage) .plain
  exact ⟨(hwalk (.two h0 h1 (by decide))).1, (hstub (.two h2 h3 (by decide))).1⟩

end Djstub
