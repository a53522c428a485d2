import Djstub.Entry

/-! The low memory of a start: the block of the program is cut down to the PSP and the
low pool, and what the DPMI server has allocated elsewhere is moved behind these. -/

namespace Djstub

open Stores

/-! ## Calls that leave something alone -/

section
variable {σ α τ : Type} {φ : σ → τ}

/-- `φ` is the same. -/
def Same (φ : σ → τ) (s s' : σ) : Prop := φ s' = φ s

instance : Std.Refl (Same φ) := ⟨fun _ => rfl⟩

instance : IsTrans σ (Same φ) := ⟨fun _ _ _ h1 h2 => Eq.trans h2 h1⟩

/-- Whatever the result is, `φ` of the state is the same. -/
abbrev Calls.Keeps (φ : σ → τ) (x : Calls σ α) : Prop := x.Along (Same φ)

end

/-! ## Blocks of DOS -/

/-- The size in paragraphs of the block that starts at a segment. -/
abbrev Blocks := Nat → Option Nat

/-- Blocks have no paragraph in common, and end where the segments do at the latest. -/
structure Blocks.Sound (B : Blocks) : Prop where
  apart : ∀ {x y m n : Nat}, x ≠ y → B x = some m → B y = some n → x + m ≤ y ∨ y + n ≤ x
  reach : ∀ {x n : Nat}, B x = some n → x + n ≤ 2 ^ 16

/-- The answer of the DPMI server to function 0x1687. -/
def Host.server {σ : Type} (h : Host σ) (s : σ) : Regs × σ :=
  h.int2f { eax := 0x1687, ebx := 0x1000, carry := true } s

/-- The documented part of the interrupts as far as low memory is concerned, for a
program whose block is `own`: functions 0x49 and 0x4a of DOS work on the blocks, those
of DPMI that are used here do not, and what a server wants to have moved is a block
of its own. As the program has to take it, it is no larger than what is below the
BIOS, which has the segments from 0xf000 on. -/
structure DosDocumented {σ : Type} (h : Host σ) (blocks : σ → Blocks) (own : Nat) : Prop where
  sound : ∀ s, (blocks s).Sound
  resize : ∀ seg paras s, (h.int21 { eax := 0x4a00, ebx := paras, es := seg } s).1.carry = false →
    blocks (h.int21 { eax := 0x4a00, ebx := paras, es := seg } s).2 =
      Function.update (blocks s) seg (some (paras % 2 ^ 16))
  free : ∀ seg s, (h.int21 { eax := 0x4900, es := seg } s).1.carry = false →
    blocks (h.int21 { eax := 0x4900, es := seg } s).2 = Function.update (blocks s) seg none
  server : ∀ s, (h.server s).1.carry = false → (h.server s).1.esi ≠ 0 → (h.server s).1.eax ≠ own ∧
    blocks s (h.server s).1.eax = some (h.server s).1.esi ∧ (h.server s).1.esi ≤ 0xf000
  int31 : ∀ r s, r.eax ∉ [0x100, 0x101, 0x102] → blocks (h.int31 r s).2 = blocks s
  int2f : ∀ r s, blocks (h.int2f r s).2 = blocks s
  enter : ∀ sel off eax ebx s, blocks (h.enter sel off eax ebx s).2 = blocks s

section
variable {σ : Type} {h : Host σ} {blocks : σ → Blocks} {p : Process}

section
variable {own : Nat} (dos : DosDocumented h blocks own)
include dos

theorem DosDocumented.keeps {α : Type} {req : Regs} (hreq : req.eax ∉ [0x100, 0x101, 0x102])
    (k : Regs → α) : (do let r ← Calls.of (h.int31 req); pure (k r) : Calls σ α).Keeps blocks :=
  .bind (.of fun s => dos.int31 req s hreq) fun _ => .pure _

theorem farStore_low (sel : Nat) (st : Store) : (farStore h sel st).Keeps blocks :=
  .bind (dos.keeps (by simp) _) fun _ => .bind (.exitIf _) fun _ => .pure _

theorem makeClient_low (va vaSize : Nat) : (makeClient h p va vaSize).Keeps blocks := by
  have hflat (sel base rights : Nat) : (flatSelector h sel base rights).Keeps blocks := by
    refine .bind (dos.keeps (by simp) _) fun _ => .bind (dos.keeps (by simp) _) fun _ => ?_
    exact .bind (dos.keeps (by simp) _) fun _ => .pure _
  have hlow : (lowSelectors h p).Keeps blocks := by
    refine .bind (dos.keeps (by simp) _) fun _ => .bind (dos.keeps (by simp) _) fun _ => ?_
    exact .bind (dos.keeps (by simp) _) fun _ => .bind (dos.keeps (by simp) _) fun _ => .pure _
  have hinfo : (infoSelector h p).Keeps blocks := by
    refine .bind (dos.keeps (by simp) _) fun _ => .bind (dos.keeps (by simp) _) fun _ => ?_
    exact .bind (dos.keeps (by simp) _) fun _ => .bind (dos.keeps (by simp) _) fun _ => .pure _
  refine .bind hlow fun _ => .bind (dos.keeps (by simp) _) fun _ => ?_
  refine .bind (dos.keeps (by simp) _) fun _ => .bind (dos.keeps (by simp) _) fun _ => ?_
  refine .bind (.exitIf _) fun _ => .bind (hflat _ _ _) fun _ => .bind (hflat _ _ _) fun _ => ?_
  exact .bind hinfo fun _ => .pure _

end

/-! ## The block of the program -/

/-- What becomes of the blocks: `own` keeps the PSP and `para` paragraphs behind it.
Where there is something to move, its block is gone, and `own` has it at its end. -/
inductive Shrinks (own para : Nat) (B : Blocks) : Option Move → Blocks → Prop where
  | plain : Shrinks own para B none (Function.update B own (some (0x10 + para)))
  | moved {seg n : Nat} : n ≠ 0 → B seg = some n → seg ≠ own →
      seg + n ≤ own ∨ own + (0x10 + para + n) ≤ seg → own + (0x10 + para + n) ≤ 2 ^ 16 →
      Shrinks own para B (some ⟨(own + (0x10 + para)) * 16, seg * 16, n * 16⟩)
        (Function.update (Function.update B own (some (0x10 + para + n))) seg none)

variable (dos : DosDocumented h blocks p.pspSegment) {s s' : σ}
include dos

theorem shrinkLow_low {para : Nat} {u : Unit} (hrun : shrinkLow h p para s = some (u, s')) :
    blocks s' = Function.update (blocks s) p.pspSegment (some ((0x10 + para) % 2 ^ 16)) := by
  obtain ⟨_, t, h1, hrun⟩ := Calls.bind_eq_some.mp hrun
  cases (exitIf_eq_some.mp h1).2
  obtain ⟨r, t, h2, hrun⟩ := Calls.bind_eq_some.mp hrun
  obtain ⟨hcarry, heq⟩ := exitIf_eq_some.mp hrun
  cases heq
  have hb := dos.resize p.pspSegment (0x10 + para) s
  rw [Calls.of_eq_some.mp h2] at hb
  exact hb (by simpa using hcarry)

theorem freeLow_low {seg : Nat} {u : Unit} (hrun : freeLow h seg s = some (u, s')) :
    blocks s' = Function.update (blocks s) seg none := by
  obtain ⟨r, t, h1, hrun⟩ := Calls.bind_eq_some.mp hrun
  obtain ⟨hcarry, heq⟩ := exitIf_eq_some.mp hrun
  cases heq
  have hb := dos.free seg s
  rw [Calls.of_eq_some.mp h1] at hb
  exact hb (by simpa using hcarry)

theorem dpmiInit_low (hpsp : p.psp < 2 ^ 20) {para : Nat} (hpara : para ≤ 0x400)
    {r : Option (Nat × Option Move)} (hrun : dpmiInit h p para s = some (r, s')) :
    (r = none ∧ blocks s' = blocks s) ∨
      ∃ psp move, r = some (psp, move) ∧ Shrinks p.pspSegment para (blocks s) move (blocks s') := by
  have hown : p.pspSegment = p.psp >>> 4 := by
    rw [Process.pspSegment, Nat.shiftRight_eq_div_pow]
    omega
  obtain ⟨r, s1, h1, hrun⟩ := Calls.bind_eq_some.mp hrun
  have hr : (h.server s).1 = r := congrArg Prod.fst (Calls.of_eq_some.mp h1)
  have hb1 : blocks s1 = blocks s := Calls.Along.of (R := Same blocks) (dos.int2f _) _ _ _ h1
  split at hrun
  · cases Calls.pure_eq_some.mp hrun
    exact .inl ⟨rfl, hb1⟩
  next hcarry =>
  refine .inr ?_
  obtain ⟨_, t, h2, hrun⟩ := Calls.bind_eq_some.mp hrun
  cases (exitIf_eq_some.mp h2).2
  obtain ⟨_, t, h3, hrun⟩ := Calls.bind_eq_some.mp hrun
  cases (exitIf_eq_some.mp h3).2
  obtain ⟨_, s4, h4, hrun⟩ := Calls.bind_eq_some.mp hrun
  obtain ⟨f, s5, h5, hrun⟩ := Calls.bind_eq_some.mp hrun
  obtain ⟨_, t, h6, hrun⟩ := Calls.bind_eq_some.mp hrun
  cases (exitIf_eq_some.mp h6).2
  obtain ⟨_, s7, h7, hrun⟩ := Calls.bind_eq_some.mp hrun
  cases Calls.pure_eq_some.mp hrun
  have hb4 := shrinkLow_low dos h4
  have hb5 : blocks s5 = blocks s4 :=
    Calls.Along.of (R := Same blocks) (dos.enter _ _ _ _) _ _ _ h5
  rw [hb1] at hb4
  refine ⟨_, _, rfl, ?_⟩
  by_cases hz : r.esi = 0
  · -- nothing to move
    rw [callIf, if_neg (not_not.mpr hz)] at h7
    cases Calls.pure_eq_some.mp h7
    rw [if_neg (not_not.mpr hz), hb5, hb4, hz, Nat.add_zero, Nat.mod_eq_of_lt (by omega : para < 2 ^ 16),
      Nat.mod_eq_of_lt (by omega)]
    exact .plain
  · rw [callIf, if_pos hz] at h7
    obtain ⟨hne, hblock, hn⟩ := dos.server s (by rw [hr]; simpa using hcarry) (by rw [hr]; exact hz)
    rw [hr] at hne hblock hn
    have hseg := (dos.sound s).reach hblock
    have hsize : (0x10 + (para + r.esi) % 2 ^ 16) % 2 ^ 16 = 0x10 + para + r.esi := by omega
    have hseg16 : r.eax % 2 ^ 16 = r.eax := Nat.mod_eq_of_lt (by omega)
    rw [hsize] at hb4
    have hb7 := freeLow_low dos h7
    rw [hb5, hb4, hseg16] at hb7
    have hmine : blocks s4 p.pspSegment = some (0x10 + para + r.esi) := by rw [hb4, Function.update_self]
    have hother : blocks s4 r.eax = some r.esi := by rw [hb4, Function.update_of_ne hne, hblock]
    have hreach := (dos.sound s4).reach hmine
    have hpool : getLowPool p + para = p.pspSegment + (0x10 + para) := by
      rw [getLowPool, ← hown]
      omega
    rw [if_pos hz, hb7, hpool, Nat.shiftLeft_eq, Nat.shiftLeft_eq, Nat.shiftLeft_eq,
      Nat.mod_eq_of_lt (by omega), Nat.mod_eq_of_lt (by omega), Nat.mod_eq_of_lt (by omega)]
    exact .moved hz hblock hne ((dos.sound s4).apart hne hother hmine) hreach

/-- With a DPMI server or without, `fullstub` keeps the low pool. -/
theorem nukeLow_low (hpsp : p.psp < 2 ^ 20) {low : Nat × Option Move}
    (hrun : nukeLow h p s = some (low, s')) :
    Shrinks p.pspSegment 0x400 (blocks s) low.2 (blocks s') := by
  obtain ⟨r, s1, h1, hrun⟩ := Calls.bind_eq_some.mp hrun
  obtain ⟨rfl, hb1⟩ | ⟨psp, move, rfl, hmove⟩ := dpmiInit_low dos hpsp (by decide) h1
  · obtain ⟨_, s2, h2, hrun⟩ := Calls.bind_eq_some.mp hrun
    obtain ⟨sel, s3, h3, hrun⟩ := Calls.bind_eq_some.mp hrun
    cases Calls.pure_eq_some.mp hrun
    have hpsp : (allocPsp h p).Keeps blocks :=
      .bind (dos.keeps (by simp) _) fun _ => .bind (dos.keeps (by simp) _) fun _ => .pure _
    have hb3 : blocks s' = blocks s2 := hpsp _ _ _ h3
    rw [hb3, shrinkLow_low dos h2, hb1]
    exact .plain
  · cases Calls.pure_eq_some.mp hrun
    exact hmove

omit dos in
/-- A low pool of `size` bytes from the segment `pool` on: it is in the block `own`, behind
the PSP, and what has been moved is the rest of the block. -/
structure LowKept (own pool size : Nat) (B : Blocks) (move : Option Move) (B' : Blocks) : Prop where
  start : pool = own + 0x10
  block : ∃ n, B' own = some n ∧ pool * 16 + size ≤ (own + n) * 16 ∧ ∀ mv, move = some mv →
    mv.dst = pool * 16 + size ∧ mv.dst + mv.len = (own + n) * 16
  /-- It was a block of its own, away from where it is now. -/
  source : ∀ mv, move = some mv → ∃ seg n, mv.src = seg * 16 ∧ mv.len = n * 16 ∧ B seg = some n ∧
    B' seg = none ∧ (mv.src + mv.len ≤ mv.dst ∨ mv.dst + mv.len ≤ mv.src)
  others : ∀ seg, seg ≠ own → (∀ mv, move = some mv → mv.src ≠ seg * 16) → B' seg = B seg

omit dos in
theorem Shrinks.kept {own para : Nat} {B B' : Blocks} {move : Option Move}
    (hs : Shrinks own para B move B') : LowKept own (own + 0x10) (para * 16) B move B' := by
  cases hs with
  | plain =>
    refine ⟨rfl, ⟨_, Function.update_self .., by omega, fun mv hmv => ?_⟩, fun mv hmv => ?_,
      fun seg hseg _ => Function.update_of_ne hseg ..⟩
    · cases hmv
    · cases hmv
  | @moved seg n hz hblock hne hapart hreach =>
    have hmine : Function.update (Function.update B own (some (0x10 + para + n))) seg none own =
        some (0x10 + para + n) := by
      rw [Function.update_of_ne hne.symm, Function.update_self]
    refine ⟨rfl, ⟨_, hmine, by omega, fun mv hmv => ?_⟩, fun mv hmv => ?_, fun k hk hmoved => ?_⟩
    · cases hmv
      constructor
      · dsimp only
        omega
      · dsimp only
        omega
    · cases hmv
      refine ⟨seg, n, rfl, rfl, hblock, Function.update_self .., ?_⟩
      dsimp only
      omega
    · have hk' : k ≠ seg := fun h => hmoved _ rfl (by rw [h])
      rw [Function.update_of_ne hk', Function.update_of_ne hk]

/-- However a start goes, when the program is entered the block behind the PSP holds the
low pool that `stubinfo` names and nothing else but what the server has asked to be
moved; this has been copied from a block that is free now, and all others are as before. -/
theorem low_pool_kept (hpsp : p.psp < 2 ^ 20) {fuel : Nat} {tmp : Page} {j : Jump}
    (hrun : fullstub h p fuel tmp s = some (j, s')) :
    LowKept p.pspSegment j.info.dsSegment j.info.minkeep (blocks s) j.moved (blocks s') := by
  obtain ⟨-, fd, f, ops, w, -, hstart⟩ := fullstub_eq_some.mp hrun
  obtain ⟨P, hload⟩ := load_of_startPayload hstart
  obtain ⟨q, heq⟩ := startPayload_of_load h p fd hload
  rw [heq] at hstart
  unfold enterProgram at hstart
  cases henv : envSize p.env p.envp (some p.argv0) with
  | none =>
    rw [henv] at hstart
    cases hstart
  | some env =>
    rw [henv] at hstart
    obtain ⟨c, s1, hclient, hstart⟩ := Calls.bind_eq_some.mp hstart
    obtain ⟨stores, s2, hstores, hstart⟩ := Calls.bind_eq_some.mp hstart
    obtain ⟨low, s3, hnuke, hstart⟩ := Calls.bind_eq_some.mp hstart
    cases Calls.pure_eq_some.mp hstart
    have hs := nukeLow_low dos hpsp hnuke
    have hb2 : blocks s2 = blocks s1 := Calls.Along.mapM (farStore_low dos c.ds) _ _ _ _ hstores
    have hb1 : blocks s1 = blocks s := makeClient_low dos _ _ _ _ _ hclient
    rw [hb2, hb1] at hs
    have hkept := hs.kept
    obtain ⟨n, hn, hle, -⟩ := hkept.block
    have hreach := (dos.sound s').reach hn
    have hpool : getLowPool p = p.pspSegment + 0x10 := by
      rw [getLowPool, Process.pspSegment]
      rw [Process.pspSegment] at hle hreach
      omega
    change LowKept p.pspSegment (getLowPool p) 0x4000 _ _ _
    rw [hpool]
    exact hkept

end

/-! ## A server -/

/-- The size of the block at 0x1234, and whether the server has its block at 0xc000. -/
structure PoolState where
  size : Fin 0xa001
  server : Bool
  deriving DecidableEq

def PoolState.blocks (s : PoolState) : Blocks := fun seg =>
  if seg = 0x1234 then some s.size
  else if seg = 0xc000 ∧ s.server = true then some 0x20
  else none

theorem PoolState.blocks_cases {s : PoolState} {x n : Nat} (h : s.blocks x = some n) :
    (x = 0x1234 ∧ n = s.size) ∨ (x = 0xc000 ∧ n = 0x20) := by
  unfold PoolState.blocks at h
  split at h
  next hx => exact .inl ⟨hx, (Option.some.inj h).symm⟩
  next =>
    split at h
    next hx => exact .inr ⟨hx.1, (Option.some.inj h).symm⟩
    next => cases h

/-- A host with this low memory, that says yes to everything else and has an extension. -/
def poolHost : Host PoolState where
  int31 r s := (if r.eax = 0x501 then { ebx := 0x40, edi := 1 } else { eax := 0x27 }, s)
  int2f r s :=
    (if r.eax = 0x168a then { eax := 0x1600, es := 0xb7, edi := 0x40 }
      else if s.server then { eax := 0xc000, ebx := 0x403, esi := 0x20 }
      else { carry := true }, s)
  int21 r s :=
    match r.eax with
    | 0x4a00 =>
      if h : r.es = 0x1234 ∧ r.ebx < 0xa001 then ({}, { s with size := ⟨r.ebx, h.2⟩ })
      else ({ carry := true }, s)
    | 0x4900 =>
      if r.es = 0xc000 ∧ s.server = true then ({}, { s with server := false })
      else ({ carry := true }, s)
    | _ => ({}, s)
  enter _ _ _ _ s := ({ es := 0xa7 }, s)

theorem poolHost_documented : DosDocumented poolHost PoolState.blocks 0x1234 where
  sound s := by
    have hsize := s.size.isLt
    refine ⟨fun {x y m n} hne hx hy => ?_, fun {x n} hx => ?_⟩
    · rcases PoolState.blocks_cases hx with ⟨rfl, rfl⟩ | ⟨rfl, rfl⟩ <;>
        rcases PoolState.blocks_cases hy with ⟨rfl, rfl⟩ | ⟨rfl, rfl⟩ <;> omega
    · rcases PoolState.blocks_cases hx with ⟨rfl, rfl⟩ | ⟨rfl, rfl⟩ <;> omega
  resize seg paras s hr := by
    by_cases h : seg = 0x1234 ∧ paras < 0xa001
    · obtain ⟨rfl, hlt⟩ := h
      have heq : (poolHost.int21 { eax := 0x4a00, ebx := paras, es := 0x1234 } s).2 =
          { s with size := ⟨paras, hlt⟩ } := by simp [poolHost, hlt]
      rw [heq, Nat.mod_eq_of_lt (by omega : paras < 2 ^ 16)]
      funext k
      by_cases hk : k = 0x1234
      · rw [hk, Function.update_self]
        rfl
      · rw [Function.update_of_ne hk]
        simp only [PoolState.blocks, if_neg hk]
    · simp only [poolHost, h, dite_false] at hr
      cases hr
  free seg s hr := by
    by_cases h : seg = 0xc000 ∧ s.server = true
    · obtain ⟨rfl, hserver⟩ := h
      have heq : (poolHost.int21 { eax := 0x4900, es := 0xc000 } s).2 = { s with server := false } := by
        simp [poolHost, hserver]
      rw [heq]
      funext k
      by_cases hk : k = 0xc000
      · rw [hk, Function.update_self]
        rfl
      · rw [Function.update_of_ne hk]
        simp [PoolState.blocks, hk]
    · simp only [poolHost, h, if_false] at hr
      cases hr
  server s hr hz := by
    cases hserver : s.server with
    | false =>
      simp [Host.server, poolHost, hserver] at hr
    | true =>
      have hx : (poolHost.server s).1 = { eax := 0xc000, ebx := 0x403, esi := 0x20 } := by
        simp [Host.server, poolHost, hserver]
      rw [hx]
      exact ⟨by decide, by simp [PoolState.blocks, hserver], by decide⟩
  int31 _ _ _ := rfl
  int2f _ _ := rfl
  enter _ _ _ _ _ := rfl

theorem low_pool_kept_server : ∃ j s',
    fullstub poolHost execProcess 0 blankPage ⟨0x2000, true⟩ = some (j, s') ∧
      LowKept 0x1234 j.info.dsSegment j.info.minkeep (PoolState.blocks ⟨0x2000, true⟩) j.moved
        s'.blocks := by
  have hrun : (fullstub poolHost execProcess 0 blankPage ⟨0x2000, true⟩).isSome = true := by
    decide +kernel
  obtain ⟨⟨j, s'⟩, hrun⟩ := Option.isSome_iff_exists.mp hrun
  exact ⟨j, s', hrun, low_pool_kept poolHost_documented (p := execProcess) (by decide) hrun⟩

end Djstub
