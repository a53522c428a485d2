import Djstub.Folds
import Djstub.Restub

/-! `coff2exe -s`. The listing leaves the type that `-s` looks at either behind
the last overlay or at the first overlay without bytes; both ends are treated. -/

namespace Djstub

open Bytes Layout Loop Folds

def Options.stripping : Options := { info := false, rmstub := false, strip := true }

/-! ## The cut of one header -/

/-- All overlays have bytes: the last one is cut off if it is debug info. -/
theorem cut_of_sized {h : Bytes} {T : List (Nat × Nat)} {t n : Nat} (hT : table h = T ++ [(t, n)])
    (hs : AllSized (table h)) :
    cut h = if isDebug t then some ⟨T.length + 1, total T⟩ else none := by
  by_cases hm : u16 h 0x36 = 0
  · have ht : t = 0 := by
      rw [table, if_pos hm] at hT
      cases T with
      | nil => simp at hT; exact hT.1.symm
      | cons p T => simp at hT
    subst ht
    simp [cut, listing_empty hm, isDebug, ObjType.value]
  · rw [hT] at hs
    obtain ⟨h1, h2⟩ := scan_last hs ⟨0, 0, 0, 0, []⟩
    obtain ⟨h3, h4, -⟩ := scan_sized hs ⟨0, 0, 0, 0, []⟩
    simp only [cut, listing_of_map hm, hT, h1, h2, h3, h4]
    simp

/-- The listing stops at an overlay without bytes: the one before it is cut off
if the stopping one is debug info. -/
theorem cut_of_stopped {h : Bytes} {T U : List (Nat × Nat)} {t : Nat}
    (hT : table h = T ++ (t, 0) :: U) (hs : AllSized T) :
    cut h = if isDebug t then some ⟨T.length, total T⟩ else none := by
  by_cases hm : u16 h 0x36 = 0
  · have ht : t = 0 := by
      rw [table, if_pos hm] at hT
      cases T with
      | nil => simp at hT; exact hT.1.1.symm
      | cons p T => simp at hT
    subst ht
    simp [cut, listing_empty hm, isDebug, ObjType.value]
  · obtain ⟨h3, h4, -⟩ := scan_sized hs ⟨0, 0, 0, 0, []⟩
    simp only [cut, listing_of_map hm, hT, scan_stop hs, h3, h4]
    simp

theorem modify_append_cons {α : Type} (A B : List α) (x : α) (f : α → α) :
    (A ++ x :: B).modify A.length f = A ++ f x :: B := by
  rw [List.modify_eq_take_cons_drop (by simp)]
  simp

/-- The table of a header whose slot has been cleared. -/
theorem table_cutHeader {h : Bytes} (hl : h.length = 0x40) {A B : List (Nat × Nat)} {t n : Nat}
    (hT : table h = A ++ (t, n) :: B) (keep : Nat) :
    table (cutHeader h ⟨A.length + 1, keep⟩) = A ++ (t, 0) :: B := by
  have h4 := table_length_le h
  rw [hT, List.length_append, List.length_cons] at h4
  rw [cutHeader, table_patch_slot (by omega) (by dsimp only; omega) (by decide), hT]
  exact modify_append_cons A B (t, n) _

/-- A cut is one of these two. -/
inductive CutCase (h : Bytes) : Cut → Prop where
  | sized (T : List (Nat × Nat)) (t n : Nat) : table h = T ++ [(t, n)] → AllSized (table h) →
      isDebug t → CutCase h ⟨T.length + 1, total T⟩
  | stopped (T U : List (Nat × Nat)) (t : Nat) : table h = T ++ (t, 0) :: U → AllSized T →
      isDebug t → CutCase h ⟨T.length, total T⟩

theorem cutCase {h : Bytes} {c : Cut} (hc : cut h = some c) : CutCase h c := by
  rcases sized_split (table h) with hs | ⟨T, t, U, hT, hs⟩
  · rcases List.eq_nil_or_concat (table h) with hn | ⟨T, ⟨t, n⟩, hT⟩
    · have hm : u16 h 0x36 ≠ 0 := fun hm => by rw [table, if_pos hm] at hn; cases hn
      have hl : listing h 0 = ⟨0, 0, 0, 0, []⟩ := by rw [listing_of_map hm, hn]; rfl
      simp [cut, hl, isDebug, ObjType.value] at hc
    · rw [List.concat_eq_append] at hT
      rw [cut_of_sized hT hs] at hc
      split at hc
      · next hd => cases hc; exact .sized T t n hT hs hd
      · cases hc
  · rw [cut_of_stopped hT hs] at hc
    split at hc
    · next hd => cases hc; exact .stopped T U t hT hs hd
    · cases hc

/-- Clearing the slot of an overlay that the listing has passed shows. -/
theorem cutHeader_table_ne {h : Bytes} (hl : h.length = 0x40) {c : Cut} (hc : cut h = some c)
    (hi : 1 < c.i) : table (cutHeader h c) ≠ table h := by
  have hne : ∀ (A B : List (Nat × Nat)) (t n keep : Nat), table h = A ++ (t, n) :: B → n ≠ 0 →
      table (cutHeader h ⟨A.length + 1, keep⟩) ≠ table h := by
    intro A B t n keep hT hn heq
    rw [table_cutHeader hl hT keep, hT] at heq
    simp at heq
    exact hn heq.symm
  cases cutCase hc with
  | sized T t n hT hs _ => exact hne T [] t n _ hT (hs (t, n) (by rw [hT]; simp))
  | stopped T U t hT hs _ =>
    rcases List.eq_nil_or_concat T with rfl | ⟨T', ⟨t', n'⟩, rfl⟩
    · simp at hi
    · rw [List.concat_eq_append] at *
      have h1 := hne T' ((t, 0) :: U) t' n' (total (T' ++ [(t', n')])) (by rw [hT]; simp)
        (hs (t', n') (by simp))
      simpa using h1

/-- The listing stopped at an overlay without bytes, and the one before it is
not debug info. -/
def Spared (h : Bytes) : Prop :=
  ∃ T t n t' U, table h = T ++ (t, n) :: (t', 0) :: U ∧ AllSized (T ++ [(t, n)]) ∧ ¬ isDebug t

/-- What the next `-s` finds in a header that has been cut. -/
theorem cut_cutHeader_iff {h : Bytes} (hl : h.length = 0x40) {c : Cut} (hc : cut h = some c)
    (hi : 1 < c.i) : cut (cutHeader h c) = none ↔ Spared h := by
  constructor
  · intro hnone
    cases cutCase hc with
    | sized T t n hT hs hd =>
      have h1 := table_cutHeader hl hT (total T)
      rw [cut_of_stopped h1 (fun q hq => hs q (by rw [hT]; simp [hq])), if_pos hd] at hnone
      cases hnone
    | stopped T U t hT hs hd =>
      rcases List.eq_nil_or_concat T with rfl | ⟨T', ⟨t', n'⟩, rfl⟩
      · simp at hi
      · rw [List.concat_eq_append] at *
        have hT' : table h = T' ++ (t', n') :: (t, 0) :: U := by rw [hT]; simp
        refine ⟨T', t', n', t, U, hT', hs, fun hd' => ?_⟩
        have h1 := table_cutHeader hl hT' (total (T' ++ [(t', n')]))
        have h2 := cut_of_stopped h1 (fun q hq => hs q (by simp [hq]))
        rw [if_pos hd'] at h2
        rw [List.length_append, List.length_singleton, h2] at hnone
        cases hnone
  · rintro ⟨T, t, n, t', U, hT, hs, hd⟩
    have hT' : table h = (T ++ [(t, n)]) ++ (t', 0) :: U := by rw [hT]; simp
    rw [cut_of_stopped hT' hs] at hc
    split at hc
    case isFalse => cases hc
    next =>
    cases hc
    have h1 := table_cutHeader hl hT (total (T ++ [(t, n)]))
    have h2 := cut_of_stopped h1 (fun q hq => hs q (by simp [hq]))
    rw [if_neg hd] at h2
    simpa using h2

/-! ## Stripping twice -/

section
variable {tmpl area : Bytes} (ht : stubAccepted tmpl) (ha : area.length = 0x20)
include ht ha

/-- A second `-s` leaves a stubbed file alone exactly when it cuts nothing. -/
theorem strip_again (hL : tmpl.length < 2 ^ 32) {body : Bytes} (hl : (headerAt body 0).length = 0x40)
    (hm : ¬ isMz (headerAt body 0)) (stubVer : Nat) :
    Returns tmpl stubVer .stripping (restubbed tmpl area ++ body)
        (.file (restubbed tmpl area ++ body)) ↔
      8 ≤ byteAt (headerAt (restubbed tmpl area ++ body) 0) 0x3b ∧
      cut (headerAt (restubbed tmpl area ++ body) 0) = none ∧
      Consistent [headerAt (restubbed tmpl area ++ body) 0] (headerAt body 0) := by
  have hfull := (restubbed_oldMz ht ha body).header_length
  have harea := restubbed_sameArea ht ha body
  rw [returns_restubbed_iff ht ha hL rfl rfl hl hm]
  simp only [cutOf, Options.stripping, if_true]
  cases hc : cut (headerAt (restubbed tmpl area ++ body) 0) with
  | none =>
    constructor
    · rintro ⟨h1, h2, -⟩
      exact ⟨h1.version, rfl, h2⟩
    · rintro ⟨h1, -, h2⟩
      refine ⟨⟨h1, ?_⟩, h2, rfl⟩
      intro _ c hc'
      rw [hc] at hc'
      cases hc'
  | some c =>
    simp only [reduceCtorEq, false_and, and_false, iff_false]
    rintro ⟨hadm, -, hg⟩
    have hi := hadm.strips rfl c hc
    have hcl := cutHeader_length hfull hc
    have hca : (slice (cutHeader (headerAt (restubbed tmpl area ++ body) 0) c) 0x1c 0x20).length =
        0x20 := slice_length_of_le (by omega)
    have hsame := restubbed_sameArea ht hca (slice (restubbed tmpl area ++ body) tmpl.length c.keep)
    rw [← hg] at hsame
    have heq : SameArea (headerAt (restubbed tmpl area ++ body) 0)
      (cutHeader (headerAt (restubbed tmpl area ++ body) 0) c) := hsame
    exact cutHeader_table_ne hfull hc hi heq.table_eq.symm

/-- Without a full header behind the stub nothing is returned. -/
theorem not_returns_short (hL : tmpl.length < 2 ^ 32) {o : Options} (hr : o.rmstub = false)
    {body : Bytes} (hl : body.length < 0x40) (stubVer : Nat) (out : Output) :
    ¬ Returns tmpl stubVer o (restubbed tmpl area ++ body) out := by
  intro h
  have hlen := restubbed_length ht ha
  obtain ⟨hs, p, hacc, -⟩ := accepts_of_returns ht.1 hr h
  have hnot (p : Nat) : ¬ OldMz (restubbed tmpl area ++ body) (tmpl.length : Nat) p := by
    intro ho
    generalize hc : ((tmpl.length : Nat) : Int) = c at ho
    have hshort : ¬ (headerAt (restubbed tmpl area ++ body) tmpl.length).length = 0x40 := by
      rw [header_length_iff, List.length_append]
      omega
    cases ho with
    | here c hfull _ =>
      rw [← Int.ofNat_inj.mp hc] at hfull
      exact hshort hfull
    | skip c p hfull _ _ _ =>
      rw [← Int.ofNat_inj.mp hc] at hfull
      exact hshort hfull
  cases hacc.chain with
  | payload ho hm =>
    rw [← (restubbed_oldMz ht ha body).unique ho] at hm
    exact hm (restubbed_isMz ht ha body).1
  | lfanew ho hm hch =>
    rw [← (restubbed_oldMz ht ha body).unique ho, restubbed_lfanew ht ha hL] at hch
    cases hch with
    | payload ho' _ => exact hnot _ ho'
    | lfanew ho' _ _ => exact hnot _ ho'

end

/-! ## What is left to strip, over the table -/

/-- The listing of `T` ends at debug info, behind the overlays `A`: it ends at the
first overlay without bytes, or else at the last one. -/
def EndsAtDebug (T A : List (Nat × Nat)) : Prop :=
  ∃ t n U, T = A ++ (t, n) :: U ∧ AllSized A ∧ isDebug t ∧ (n = 0 ∨ U = [])

theorem cut_of_endsAtDebug {h : Bytes} {A : List (Nat × Nat)} (hA : EndsAtDebug (table h) A) :
    ∃ i, cut h = some ⟨i, total A⟩ := by
  obtain ⟨t, n, U, hT, hs, hd, hn⟩ := hA
  by_cases h0 : n = 0
  · subst h0
    exact ⟨_, by rw [cut_of_stopped hT hs, if_pos hd]⟩
  · obtain rfl := hn.resolve_left h0
    have hall : AllSized (table h) := by
      intro q hq
      rw [hT, List.mem_append, List.mem_singleton] at hq
      rcases hq with hq | rfl
      · exact hs q hq
      · exact h0
    exact ⟨_, by rw [cut_of_sized hT hall, if_pos hd]⟩

theorem cut_keep_iff {h : Bytes} {k : Nat} :
    (∃ i, cut h = some ⟨i, k⟩) ↔ ∃ A, EndsAtDebug (table h) A ∧ total A = k := by
  constructor
  · rintro ⟨i, hc⟩
    cases cutCase hc with
    | sized T t n hT hs hd =>
      exact ⟨T, ⟨t, n, [], hT, fun q hq => hs q (by rw [hT]; simp [hq]), hd, .inr rfl⟩, rfl⟩
    | stopped T U t hT hs hd => exact ⟨T, ⟨t, 0, U, hT, hs, hd, .inl rfl⟩, rfl⟩
  · rintro ⟨A, hA, rfl⟩
    exact cut_of_endsAtDebug hA

/-- `-s` finds debug info at the end of the listing. -/
def EndsInDebug (h : Bytes) : Prop := ∃ A, EndsAtDebug (table h) A

theorem cut_eq_none_iff {h : Bytes} : cut h = none ↔ ¬ EndsInDebug h := by
  constructor
  · rintro hc ⟨A, hA⟩
    obtain ⟨i, hi⟩ := cut_of_endsAtDebug hA
    rw [hc] at hi
    cases hi
  · intro hA
    cases hc : cut h with
    | none => rfl
    | some c =>
      obtain ⟨A, h1, -⟩ := cut_keep_iff.mp ⟨c.i, hc⟩
      exact absurd ⟨A, h1⟩ hA

/-- The last of the headers `hs` whose listing ends at debug info keeps at least
the 0x40 bytes of a payload header. -/
def KeepsHeader (hs : List Bytes) : Prop :=
  ∀ us h, Last EndsInDebug hs us h → ∀ A, EndsAtDebug (table h) A → 0x40 ≤ total A

theorem keepsHeader_iff (hs : List Bytes) :
    KeepsHeader hs ↔ ∀ k, limit .stripping hs = some k → 0x40 ≤ k := by
  have hcut (h : Bytes) : cutOf .stripping h = cut h := by simp [cutOf, Options.stripping]
  have hkeep : ∀ (k : Option Nat) h, ¬ EndsInDebug h →
      id ((cutOf .stripping h).elim k fun c => some c.keep) = id k := by
    intro k h hn
    rw [hcut, cut_eq_none_iff.mpr hn, Option.elim_none]
  rcases foldl_last _ id hkeep none hs with ⟨hnone, hlim⟩ | ⟨us, h, hlast, hlim⟩
  · have hlim : limit .stripping hs = none := hlim
    rw [hlim]
    refine iff_of_true (fun us h hl => ?_) (fun k hk => by cases hk)
    obtain ⟨ws, rfl, hP, -⟩ := hl
    exact absurd hP (hnone h (by simp))
  · obtain ⟨-, -, ⟨A, hA⟩, -⟩ := id hlast
    obtain ⟨i, hi⟩ := cut_of_endsAtDebug hA
    have hlim : limit .stripping hs = some (total A) := by
      refine hlim.trans ?_
      rw [hcut, hi]
      rfl
    simp only [hlim, Option.some.injEq, forall_eq']
    constructor
    · intro H
      exact H us h hlast A hA
    · intro h40 us' h' hlast' B hB
      obtain ⟨-, rfl⟩ := hlast.unique hlast'
      obtain ⟨j, hj⟩ := cut_of_endsAtDebug hB
      have hkept := congrArg Cut.keep (Option.some.inj (hi.symm.trans hj))
      exact h40.trans_eq hkept

/-- The first `-s` has left nothing for the next one: an image without a stub
meets a template that passes its own checks, or the last header has no debug
overlay to cut, or one whose loss hides no other. -/
def Settled (tmpl : Bytes) (stubVer : Nat) (f : Bytes) (hs : List Bytes) (p : Nat) : Prop :=
  match hs.getLast? with
  | none =>
    8 ≤ stubVer ∧
      ¬ EndsInDebug (patch tmpl 0x1c (toBytes 4 (f.length - p))) ∧
      Consistent [tmpl] (headerAt f p)
  | some h => (¬ EndsInDebug h ∨ Spared h) ∧ KeepsHeader hs

theorem settled_nil {tmpl : Bytes} {stubVer : Nat} {f : Bytes} {p : Nat} :
    Settled tmpl stubVer f [] p ↔
      8 ≤ stubVer ∧ cut (patch tmpl 0x1c (toBytes 4 (f.length - p))) = none ∧
        Consistent [tmpl] (headerAt f p) := by
  rw [cut_eq_none_iff]
  rfl

theorem settled_concat {tmpl : Bytes} {stubVer : Nat} {f : Bytes} {hs : List Bytes} {h : Bytes}
    {p : Nat} :
    Settled tmpl stubVer f (hs ++ [h]) p ↔
      (cut h = none ∨ Spared h) ∧ ∀ k, limit .stripping (hs ++ [h]) = some k → 0x40 ≤ k := by
  rw [cut_eq_none_iff, ← keepsHeader_iff]
  simp [Settled]

/-- The header that `-s` leaves behind an image without a stub, as the next one
sees it. -/
theorem cut_rawArea {tmpl : Bytes} (ht : 0x40 ≤ tmpl.length) {size : Nat} (hn : size < 2 ^ 32)
    {h : Bytes} (hsize : u32 h 0x1c = size)
    (hsame : ∀ k n, 0x20 ≤ k → k + n ≤ 0x3b → slice h k n = slice tmpl k n) :
    cut h = cut (patch tmpl 0x1c (toBytes 4 size)) := by
  have h4 := toBytes_length 4 size
  have hslot : ∀ k < 4, u32 h (0x1c + k * 4) =
      u32 (patch tmpl 0x1c (toBytes 4 size)) (0x1c + k * 4) := by
    intro k hk
    cases k with
    | zero =>
      have hself := slice_patch_self (b := tmpl) (d := toBytes 4 size) (i := 0x1c) (by omega)
      rw [h4] at hself
      simp only [Nat.zero_mul, Nat.add_zero]
      rw [hsize, u32, hself]
      exact (fromBytes_toBytes hn).symm
    | succ k =>
      rw [u32, hsame _ _ (by omega) (by omega), u32,
        slice_patch_of_disjoint (by omega) (by omega)]
  have hmap : u16 h 0x36 = u16 (patch tmpl 0x1c (toBytes 4 size)) 0x36 := by
    rw [u16, hsame _ _ (by omega) (by omega), u16, slice_patch_of_disjoint (by omega) (by omega)]
  simp only [cut, listing_congr hmap hslot]

/-- The header that `-s` makes of the last one. -/
theorem stripped_header {tmpl : Bytes} (stubVer size : Nat) {hs : List Bytes} {h : Bytes}
    (hl : h.length = 0x40) (hadm : Admits .stripping h) :
    ∃ h1, areaOf .stripping tmpl stubVer size (hs ++ [h]) = slice h1 0x1c 0x20 ∧
      h1.length = 0x40 ∧ byteAt h1 0x3b = byteAt h 0x3b ∧ u16 h1 0x38 = u16 h 0x38 ∧
      (cut h1 = none ↔ cut h = none ∨ Spared h) := by
  have harea : areaOf .stripping tmpl stubVer size (hs ++ [h]) =
      slice ((cut h).elim h (cutHeader h)) 0x1c 0x20 := by
    simp [areaOf, cutOf, Options.stripping]
  rw [harea]
  cases hc : cut h with
  | none => exact ⟨h, rfl, hl, rfl, rfl, by simp [hc]⟩
  | some c =>
    have hi : 1 < c.i := hadm.strips rfl c hc
    have hi4 := cut_i_le hc
    refine ⟨cutHeader h c, rfl, cutHeader_length hl hc, cutHeader_byteAt hl hi4 (by omega),
      cutHeader_u16 hl hi4 (by omega), ?_⟩
    rw [cut_cutHeader_iff hl hc hi]
    simp

/-- The body is long enough for a payload header unless a cut has left less. -/
theorem bodyOf_full_iff {o : Options} {f : Bytes} {p : Nat} (hp : p + 0x40 ≤ f.length)
    (hs : List Bytes) :
    0x40 ≤ (bodyOf o f hs p).length ↔ ∀ k, limit o hs = some k → 0x40 ≤ k := by
  unfold bodyOf
  cases limit o hs with
  | none => simp; omega
  | some k => simp [slice_length]; omega

theorem headerAt_bodyOf {o : Options} {f : Bytes} {hs : List Bytes} {p : Nat}
    (h40 : 0x40 ≤ (bodyOf o f hs p).length) : headerAt (bodyOf o f hs p) 0 = headerAt f p := by
  unfold bodyOf at h40 ⊢
  cases hlim : limit o hs with
  | none => exact headerAt_drop f p
  | some k =>
    rw [hlim] at h40
    simp only [slice_length] at h40
    simp only [headerAt]
    rw [slice_slice (by omega), Nat.add_zero]

/-- A second `-s` returns the output of the first one unchanged exactly when the
first one has left nothing to cut. -/
theorem strip_idempotent_iff {tmpl : Bytes} (ht : stubAccepted tmpl) {stubVer : Nat} {f g : Bytes}
    {hs : List Bytes} {p : Nat} (hch : Chain f 0 hs p)
    (hret : Returns tmpl stubVer .stripping f (.file g)) :
    Returns tmpl stubVer .stripping g (.file g) ↔ Settled tmpl stubVer f hs p := by
  obtain ⟨hacc, hfit, hg⟩ := (returns_file_of_chain ht.1 rfl rfl hch).mp hret
  obtain ⟨hl, hm⟩ := hch.payload_header
  have hend := (header_length_iff f p).mp hl
  have hL := hfit.template
  rcases List.eq_nil_or_concat hs with rfl | ⟨hs', h, rfl⟩
  · -- no header: everything is kept and the template's own table counts
    have hg' : g = restubbed tmpl (rawArea tmpl stubVer (f.length - p)) ++ f.drop p := hg
    subst hg'
    have ha := rawArea_length ht.1 stubVer (f.length - p)
    have harea := restubbed_sameArea ht ha (f.drop p)
    rw [strip_again ht ha hL (by rw [headerAt_drop]; exact hl) (by rw [headerAt_drop]; exact hm),
      headerAt_drop]
    obtain ⟨hsize, hver, hsame⟩ := rawArea_header ht.1 (hfit.version rfl) (hfit.size rfl) harea
    generalize headerAt (restubbed tmpl (rawArea tmpl stubVer (f.length - p)) ++ f.drop p) 0 = h1
      at hsize hver hsame
    have hcut := cut_rawArea ht.1 (hfit.size rfl) hsize hsame
    have hflags : u16 h1 0x38 = u16 tmpl 0x38 := by
      rw [u16, hsame _ _ (by omega) (by omega), u16]
    have hc1 := consistent_concat [] h1 (headerAt f p)
    have hc2 := consistent_concat [] tmpl (headerAt f p)
    rw [List.nil_append] at hc1 hc2
    rw [hver, hcut, hc1, hflags, ← hc2, settled_nil]
  · rw [List.concat_eq_append] at *
    have hadm := hacc.admits h (by simp)
    have hhl := (hch.mem (h := h) (by simp)).1
    have hcons := (consistent_concat hs' h (headerAt f p)).mp hacc.consistent
    obtain ⟨h1, hh1, hlen1, hver, hflags, hcut⟩ :=
      @stripped_header tmpl stubVer (f.length - p) hs' h hhl hadm
    rw [hh1] at hg
    have ha : (slice h1 0x1c 0x20).length = 0x20 := slice_length_of_le (by omega)
    rw [settled_concat, ← bodyOf_full_iff hend]
    subst hg
    by_cases h40 : 0x40 ≤ (bodyOf .stripping f (hs' ++ [h]) p).length
    · have hhead := headerAt_bodyOf h40
      have hsame : SameArea (headerAt (restubbed tmpl (slice h1 0x1c 0x20) ++
          bodyOf .stripping f (hs' ++ [h]) p) 0) h1 := restubbed_sameArea ht ha _
      rw [strip_again ht ha hL (by rw [hhead]; exact hl) (by rw [hhead]; exact hm),
        hsame.version_eq, hver, hsame.cut_eq, hcut, hhead]
      have hcons' := consistent_concat [] (headerAt (restubbed tmpl (slice h1 0x1c 0x20) ++
        bodyOf .stripping f (hs' ++ [h]) p) 0) (headerAt f p)
      rw [hsame.u16_eq (by omega) (by omega), hflags] at hcons'
      constructor
      · rintro ⟨-, hc, -⟩
        exact ⟨hc, h40⟩
      · rintro ⟨hc, -⟩
        exact ⟨hadm.version, hc, hcons'.mpr hcons⟩
    · constructor
      · intro h
        exact absurd h (not_returns_short ht ha hL rfl (by omega) _ _)
      · intro h
        exact absurd h.2 h40

/-- A COFF image of 64 bytes with 64 bytes of debug info behind it. -/
def debugExe : Bytes :=
  patch (patch (patch bareTemplate 0x1c (toBytes 4 0x40 ++ toBytes 4 0x40)) 0x36 [0x40])
    0x3b [8, 0x40] ++ coffImage ++ List.replicate 0x40 0

/-- `debugExe` after `-s`. -/
def strippedExe : Bytes :=
  patch (patch (patch bareTemplate 0x1c (toBytes 4 0x40)) 0x36 [0x40]) 0x3b [8, 0x40] ++ coffImage

/-- The second `-s` stops at the cleared overlay, takes it for the one to strip
and finds that it is the first one left. -/
theorem strip_twice_asserts :
    stubAccepted bareTemplate ∧
      Returns bareTemplate defaultStubVer .stripping debugExe (.file strippedExe) ∧
      coff2exe 2 bareTemplate defaultStubVer .stripping strippedExe =
        some (.error .stripsFirstOverlay) ∧
      ¬ ∃ out, Returns bareTemplate defaultStubVer .stripping strippedExe out := by
  have hrun : coff2exe 2 bareTemplate defaultStubVer .stripping strippedExe =
      some (.error .stripsFirstOverlay) := by
    decide +kernel
  refine ⟨by decide, ⟨2, by decide +kernel⟩, hrun, ?_⟩
  rintro ⟨out, h⟩
  exact not_returns_of_error hrun out h

theorem strip_idempotent_coff :
    Returns bareTemplate defaultStubVer .stripping
      (stubbed bareTemplate defaultStubVer coffImage)
      (.file (stubbed bareTemplate defaultStubVer coffImage)) :=
  (strip_idempotent_iff (by decide) coffImage_chain ⟨1, by decide +kernel⟩).mpr
    (settled_nil.mpr ⟨by decide, by decide +kernel, (consistent_concat [] _ _).mpr (by decide)⟩)

/-! ## A trailing debug overlay -/

/-- A header at `q`, directly followed by a payload it is consistent with, whose
overlays all have bytes in the file; those of `T` are kept and the last one, of
type `t` and size `n`, is debug info. -/
structure DebugTail (f : Bytes) (q : Nat) (T : List (Nat × Nat)) (t n : Nat) : Prop where
  start : OldMz f 0 q
  mz : isMz (headerAt f q)
  version : 8 ≤ byteAt (headerAt f q) 0x3b
  overlays : table (headerAt f q) = T ++ [(t, n)]
  several : T ≠ []
  sized : AllSized (T ++ [(t, n)])
  debug : isDebug t
  inside : u32 (headerAt f q) 0x3c + total (T ++ [(t, n)]) ≤ f.length
  long : 0x40 ≤ total T
  magic : isCoff (headerAt f (u32 (headerAt f q) 0x3c)) ∨ isElf (headerAt f (u32 (headerAt f q) 0x3c))
  coff : isCoff (headerAt f (u32 (headerAt f q) 0x3c)) → u16 (headerAt f q) 0x38 &&& 0x80 = 0
  elf : isElf (headerAt f (u32 (headerAt f q) 0x3c)) → u16 (headerAt f q) 0x38 &&& 0x80 ≠ 0

namespace DebugTail
variable {f : Bytes} {q : Nat} {T : List (Nat × Nat)} {t n : Nat} (d : DebugTail f q T t n)
include d

theorem cut_eq : cut (headerAt f q) = some ⟨T.length + 1, total T⟩ := by
  have hs := d.sized
  rw [← d.overlays] at hs
  rw [cut_of_sized d.overlays hs, if_pos d.debug]

theorem map_ne : u16 (headerAt f q) 0x36 ≠ 0 := by
  intro hm
  have hT := d.overlays
  rw [table, if_pos hm] at hT
  have h1 := congrArg List.length hT
  rw [List.length_append, List.length_singleton, List.length_singleton] at h1
  exact d.several (List.length_eq_zero_iff.mp (by omega))

theorem payload_length : u32 (headerAt f q) 0x3c + 0x40 ≤ f.length := by
  have h1 := d.inside
  have h2 := d.long
  rw [total_append] at h1
  omega

theorem chain : Chain f 0 [headerAt f q] (u32 (headerAt f q) 0x3c) := by
  have hm := not_isMz_of_magic d.magic
  exact .lfanew d.start d.mz
    (.payload (.here _ ((header_length_iff f _).mpr d.payload_length) fun h => hm h.1) hm)

theorem accepts : Accepts .stripping f [headerAt f q] (u32 (headerAt f q) 0x3c) := by
  refine ⟨d.chain, ?_, (consistent_concat [] _ _).mpr ⟨d.coff, d.elf⟩⟩
  intro h hh
  rw [List.mem_singleton] at hh
  subst hh
  refine ⟨d.version, fun _ c hc => ?_⟩
  rw [d.cut_eq] at hc
  cases hc
  have h1 := List.length_pos_iff.mpr d.several
  show 1 < T.length + 1
  omega

theorem length_lt : T.length < 4 := by
  have h1 := table_length_le (headerAt f q)
  rw [d.overlays, List.length_append] at h1
  exact h1

/-- The file that is written. -/
theorem returns {tmpl : Bytes} (ht : 0x40 ≤ tmpl.length) (hL : tmpl.length < 2 ^ 32)
    (stubVer : Nat) :
    Returns tmpl stubVer .stripping f (.file
      (restubbed tmpl (slice (patch (headerAt f q) (0x1c + T.length * 4) (toBytes 4 0)) 0x1c 0x20) ++
        slice f (u32 (headerAt f q) 0x3c) (total T))) := by
  refine (returns_file_of_chain ht rfl rfl d.chain).mpr ⟨d.accepts, ⟨hL, by simp, by simp⟩, ?_⟩
  have hcut : cutOf .stripping (headerAt f q) = some ⟨T.length + 1, total T⟩ := d.cut_eq
  have hlim : limit .stripping [headerAt f q] = some (total T) := by
    rw [← List.nil_append [headerAt f q], limit_concat, hcut]
    rfl
  simp only [areaOf, bodyOf, hlim, List.getLast?_singleton, hcut]
  rfl

/-- The entries that are kept. -/
theorem kept_entries :
    (listing (headerAt f q) (u32 (headerAt f q) 0x3c)).entries.take T.length =
      layout (u32 (headerAt f q) 0x3c) T := by
  have hs := d.sized
  rw [← d.overlays] at hs
  obtain ⟨-, -, he⟩ := scan_sized hs ⟨0, 0, 0, u32 (headerAt f q) 0x3c, []⟩
  rw [listing_of_map d.map_ne, he, List.nil_append, d.overlays, ← layout, ← layout_take,
    List.take_left]

/-- The kept overlay of a type, if the type's first overlay is a kept one. -/
theorem find_kept {ty k : Nat} (hk : findIdx ty (headerAt f q) = some k) (hkT : k < T.length) :
    ∃ e, find ty 0 T = some e ∧ find ty 0 (T ++ [(t, n)]) = some e ∧ e.size ≠ 0 ∧
      e.offs + e.size ≤ total T := by
  rw [findIdx_eq, d.overlays] at hk
  obtain ⟨e, he, rfl⟩ := Option.map_eq_some_iff.mp hk
  have heT := find_take he hkT
  rw [List.take_left] at heT
  obtain ⟨hTk, hoff⟩ := find_spec heT
  have h1 := total_take_add_le hTk
  refine ⟨e, heT, he, d.sized _ (List.mem_append_left _ (List.mem_of_getElem? hTk)), by omega⟩

end DebugTail

/-- What the readers see of a stripped file: behind a stub of length `l` the pieces
`T` of `f`, under the header at `q` with the last size cleared. -/
structure Stripped (f : Bytes) (q : Nat) (T : List (Nat × Nat)) (t l : Nat) (g : Bytes) : Prop where
  hasStub : HasStub g l
  overlays : table (headerAt g 0) = T ++ [(t, 0)]
  map_ne : u16 (headerAt g 0) 0x36 ≠ 0
  flags : u16 (headerAt g 0) 0x38 = u16 (headerAt f q) 0x38
  version : byteAt (headerAt g 0) 0x3b = byteAt (headerAt f q) 0x3b
  kept : g.drop l = (extents f (u32 (headerAt f q) 0x3c) T).flatten

/-- The file that `-s` writes is seen so. -/
theorem DebugTail.stripped {f : Bytes} {q : Nat} {T : List (Nat × Nat)} {t n : Nat}
    (d : DebugTail f q T t n) {tmpl : Bytes} (ht : stubAccepted tmpl) (hL : tmpl.length < 2 ^ 32) :
    Stripped f q T t tmpl.length (restubbed tmpl
        (slice (patch (headerAt f q) (0x1c + T.length * 4) (toBytes 4 0)) 0x1c 0x20) ++
      (extents f (u32 (headerAt f q) 0x3c) T).flatten) := by
  have hl := d.start.header_length
  have h4 := d.length_lt
  have hp := patch_length (b := headerAt f q) (d := toBytes 4 0) (i := 0x1c + T.length * 4)
    (by rw [toBytes_length]; omega)
  have ha : (slice (patch (headerAt f q) (0x1c + T.length * 4) (toBytes 4 0)) 0x1c 0x20).length =
      0x20 := slice_length_of_le (by omega)
  have hsame : SameArea (headerAt (restubbed tmpl
        (slice (patch (headerAt f q) (0x1c + T.length * 4) (toBytes 4 0)) 0x1c 0x20) ++
      (extents f (u32 (headerAt f q) 0x3c) T).flatten) 0)
      (patch (headerAt f q) (0x1c + T.length * 4) (toBytes 4 0)) :=
    restubbed_sameArea ht ha _
  have hi : (Cut.mk (T.length + 1) (total T)).i ≤ 4 := h4
  have hmap := (hsame.u16_eq (k := 0x36) (by omega) (by omega)).trans
    (cutHeader_u16 hl hi (by omega))
  refine ⟨restubbed_hasStub ht ha hL _, ?_, by rw [hmap]; exact d.map_ne,
    (hsame.u16_eq (by omega) (by omega)).trans (cutHeader_u16 hl hi (by omega)),
    hsame.version_eq.trans (cutHeader_byteAt hl hi (by omega)), ?_⟩
  · rw [hsame.table_eq]
    exact table_cutHeader hl d.overlays (total T)
  · rw [← restubbed_length ht ha, List.drop_left]

namespace Stripped
variable {f g : Bytes} {q : Nat} {T : List (Nat × Nat)} {t n l : Nat} (s : Stripped f q T t l g)
include s

/-- The kept bytes stand behind the new stub. -/
theorem slice_eq {j m : Nat} (hjm : j + m ≤ total T) :
    slice g (l + j) m = slice f (u32 (headerAt f q) 0x3c + j) m := by
  rw [← slice_drop, s.kept, extents_flatten, slice_slice hjm]

theorem entries (hT : AllSized T) :
    (listing (headerAt g 0) (u32 (headerAt g 0) 0x3c)).entries = layout l T := by
  obtain ⟨-, -, he⟩ := scan_sized hT ⟨0, 0, 0, l, []⟩
  rw [s.hasStub.offs, listing_of_map s.map_ne, s.overlays, scan_stop hT, he]
  rfl

variable (d : DebugTail f q T t n) {tmpl : Bytes} (ht : 0x40 ≤ tmpl.length)
  (hL : tmpl.length < 2 ^ 32) (stubVer : Nat)
include d ht hL

/-- `-i` accepts a stripped file. -/
theorem listed :
    Returns tmpl stubVer .listing g (.info (headerLines g (headerAt g 0))) := by
  have hlong := d.long
  have hhead : headerAt g l = headerAt f (u32 (headerAt f q) 0x3c) :=
    s.slice_eq (j := 0) (m := 0x40) (by omega)
  refine returns_listing ht hL s.hasStub (by rw [s.version]; exact d.version) ?_ ?_ ?_ stubVer
  · rw [hhead]
    exact (header_length_iff f _).mpr d.payload_length
  · rw [hhead]
    exact not_isMz_of_magic d.magic
  · rw [hhead]
    refine (consistent_concat [] _ _).mpr ?_
    rw [s.flags]
    exact ⟨d.coff, d.elf⟩

/-- `-r` extracts from a stripped file what it extracts from the original. -/
theorem removed {k : Nat} (hk : findIdx (rmType (u16 (headerAt f q) 0x38)) (headerAt f q) = some k)
    (hkT : k < T.length) :
    ∃ x, Returns tmpl stubVer .remove g (.file x) ∧ Returns tmpl stubVer .remove f (.file x) := by
  obtain ⟨e, heT, he, hn, hin⟩ := d.find_kept hk hkT
  refine ⟨slice f (u32 (headerAt f q) 0x3c + e.offs) e.size, ?_, ?_⟩
  · refine (returns_remove_lfanew ht rfl rfl s.hasStub.oldMz s.hasStub.mz).mpr
      ⟨by rw [s.version]; exact d.version, hL, ?_⟩
    rw [selected, findOffs_eq, findSize_eq, s.overlays, s.flags, find_append heT, s.hasStub.offs]
    simp only [Option.map_some, hn, if_false]
    rw [s.slice_eq hin]
  · refine (returns_remove_lfanew ht rfl rfl d.start d.mz).mpr ⟨d.version, hL, ?_⟩
    rw [selected, findOffs_eq, findSize_eq, d.overlays, he]
    simp only [Option.map_some, hn, if_false]

end Stripped

/-- `-s` removes a trailing debug overlay and nothing else. -/
theorem strip_removes_debug {tmpl : Bytes} (ht : stubAccepted tmpl) (hL : tmpl.length < 2 ^ 32)
    (stubVer : Nat) {f : Bytes} {q : Nat} {T : List (Nat × Nat)} {t n : Nat}
    (d : DebugTail f q T t n) :
    ∃ g, Returns tmpl stubVer .stripping f (.file g) ∧
      g = restubbed tmpl
          (slice (patch (headerAt f q) (0x1c + T.length * 4) (toBytes 4 0)) 0x1c 0x20) ++
        (extents f (u32 (headerAt f q) 0x3c) T).flatten ∧
      Returns tmpl stubVer .listing g (.info (headerLines g (headerAt g 0))) ∧
      (listing (headerAt g 0) (u32 (headerAt g 0) 0x3c)).entries =
        ((listing (headerAt f q) (u32 (headerAt f q) 0x3c)).entries.take T.length).map
          (fun e => { e with offs := tmpl.length + (e.offs - u32 (headerAt f q) 0x3c) }) ∧
      (∀ e ∈ (listing (headerAt f q) (u32 (headerAt f q) 0x3c)).entries.take T.length,
        slice g (tmpl.length + (e.offs - u32 (headerAt f q) 0x3c)) e.size = slice f e.offs e.size) ∧
      ∀ k, findIdx (rmType (u16 (headerAt f q) 0x38)) (headerAt f q) = some k → k < T.length →
        ∃ x, Returns tmpl stubVer .remove g (.file x) ∧ Returns tmpl stubVer .remove f (.file x) := by
  have s := d.stripped ht hL
  have hret := d.returns ht.1 hL stubVer
  rw [← extents_flatten] at hret
  refine ⟨_, hret, rfl, s.listed d ht.1 hL stubVer, ?_, ?_,
    fun k hk hkT => s.removed d ht.1 hL stubVer hk hkT⟩
  · rw [d.kept_entries, s.entries fun p hp => d.sized p (List.mem_append_left _ hp)]
    exact layout_base _ tmpl.length T
  · intro e he
    rw [d.kept_entries] at he
    obtain ⟨k, hk⟩ := List.getElem?_of_mem he
    rw [layout_getElem?] at hk
    obtain ⟨⟨t', n'⟩, hTk, rfl⟩ := Option.map_eq_some_iff.mp hk
    rw [Nat.add_sub_cancel_left]
    exact s.slice_eq (total_take_add_le hTk)

theorem debugExe_tail : DebugTail debugExe 0 [(0, 0x40)] 4 0x40 where
  start := .here 0 (by decide) (by decide)
  mz := by decide
  version := by decide
  overlays := by decide +kernel
  several := by decide
  sized := by simp [AllSized]
  debug := by decide
  inside := by decide +kernel
  long := by decide
  magic := by decide
  coff := by decide
  elf := by decide

theorem strip_removes_debug_debugExe :
    ∃ g, Returns bareTemplate defaultStubVer .stripping debugExe (.file g) ∧
      g = restubbed bareTemplate
          (slice (patch (headerAt debugExe 0) (0x1c + 1 * 4) (toBytes 4 0)) 0x1c 0x20) ++
        (extents debugExe (u32 (headerAt debugExe 0) 0x3c) [(0, 0x40)]).flatten := by
  obtain ⟨g, hret, hg, -⟩ :=
    strip_removes_debug (show stubAccepted bareTemplate by decide) (by decide) defaultStubVer
      debugExe_tail
  exact ⟨g, hret, hg⟩

end Djstub
