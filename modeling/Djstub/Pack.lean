import Djstub.Main
import Djstub.Restub

/-! What `-g` writes: the option loop collects the overlays, the header gets
their sizes and types, and the contents follow. Then what `coff2exe` reads back
from the result. -/

namespace Djstub

open Bytes Layout Loop Buffers

section
variable {π : Type}

/-! ## The option loop -/

theorem options_cons {d : Disk π} {m m' : Globals π} {o : Opt π} {os : List (Opt π)}
    (h : options d m (o :: os) = .ok m') :
    ∃ m1, option d m o = .ok m1 ∧ options d m1 os = .ok m' := by
  rw [options] at h
  cases ho : option d m o with
  | error e => rw [ho] at h; cases h
  | ok m1 => rw [ho] at h; exact ⟨m1, rfl, h⟩

theorem options_append {d : Disk π} {m m' : Globals π} {os os' : List (Opt π)}
    (h : options d m (os ++ os') = .ok m') :
    ∃ m1, options d m os = .ok m1 ∧ options d m1 os' = .ok m' := by
  induction os generalizing m with
  | nil => exact ⟨m, rfl, h⟩
  | cons o os ih =>
    obtain ⟨m1, h1, h2⟩ := options_cons h
    obtain ⟨m2, h3, h4⟩ := ih h2
    exact ⟨m2, by rw [options, h1]; exact h3, h4⟩

/-- The options that build the list of overlays. -/
def isLink : Opt π → Bool
  | .l _ => true
  | .t _ => true
  | _ => false

/-- The command line gives each of the overlays its own `-t` in 1..15. -/
def Introduces (opts : List (Opt π)) (ovls : List (Nat × π)) : Prop :=
  opts.filter isLink = ovls.flatMap (fun e => [.t (some e.1), .l e.2]) ∧
    ∀ e ∈ ovls, 1 ≤ e.1 ∧ e.1 ≤ 15

/-- The same, and `rest` are the values of the `-t` behind the last overlay. -/
def IntroducesThen (opts : List (Opt π)) (ovls : List (Nat × π)) (rest : List (Option Int)) : Prop :=
  opts.filter isLink = ovls.flatMap (fun e => [.t (some e.1), .l e.2]) ++ rest.map .t ∧
    ∀ e ∈ ovls, 1 ≤ e.1 ∧ e.1 ≤ 15

theorem option_l {d : Disk π} {m m' : Globals π} {p : π} :
    option d m (.l p) = .ok m' ↔ m.typeVal ≠ 0 ∧
      m' = { m with overlay := m.overlay ++ [p], typeShift := m.typeShift + 4 } := by
  simp only [option]
  split
  · next h => simp [h]
  · next h =>
    rw [Except.ok.injEq, eq_comm]
    exact (and_iff_right h).symm

theorem option_t {d : Disk π} {m m' : Globals π} {v : Option Int} :
    option d m (.t v) = .ok m' ↔ v.getD 0 ≠ 0 ∧
      m' = { m with typeVal := v.getD 0,
                    typeMap := m.typeMap.lor (v.getD 0 * 2 ^ m.typeShift) } := by
  simp only [option]
  split
  · next h => simp [h]
  · next h =>
    rw [Except.ok.injEq, eq_comm]
    exact (and_iff_right h).symm

/-- What `-l` and `-t` read and write. -/
def Globals.links (m : Globals π) : List π × Int × Int × Nat :=
  (m.overlay, m.typeMap, m.typeVal, m.typeShift)

/-- Other options leave the overlays alone. -/
theorem option_other {d : Disk π} {m m' : Globals π} {o : Opt π} (h : option d m o = .ok m')
    (ho : isLink o = false) : m'.links = m.links := by
  cases o with
  | V optarg =>
    simp only [option, reqVersion] at h
    repeat' split at h
    all_goals cases h
    all_goals rfl
  | l p => cases ho
  | t v => cases ho
  | n v => cases v <;> cases h; rfl
  | f v => cases v <;> cases h; rfl
  | S p => simp only [option] at h; split at h <;> cases h; rfl
  | _ => cases h <;> rfl

/-- `-l` and `-t` look at the overlays only. -/
theorem option_link {d : Disk π} {m m' m2 : Globals π} {o : Opt π} (h : option d m o = .ok m')
    (ho : isLink o = true) (hm : m2.links = m.links) :
    ∃ m2', option d m2 o = .ok m2' ∧ m2'.links = m'.links := by
  simp only [Globals.links, Prod.mk.injEq] at hm
  obtain ⟨h1, h2, h3, h4⟩ := hm
  cases o with
  | l p =>
    obtain ⟨hv, rfl⟩ := option_l.mp h
    refine ⟨_, option_l.mpr ⟨?_, rfl⟩, by simp [Globals.links, h1, h2, h3, h4]⟩
    rw [h3]
    exact hv
  | t v =>
    obtain ⟨hv, rfl⟩ := option_t.mp h
    exact ⟨_, option_t.mpr ⟨hv, rfl⟩, by simp [Globals.links, h1, h2, h4]⟩
  | _ => cases ho

theorem options_links {d : Disk π} {m m' m2 : Globals π} {os : List (Opt π)}
    (h : options d m os = .ok m') (hm : m2.links = m.links) :
    ∃ m2', options d m2 (os.filter isLink) = .ok m2' ∧ m2'.links = m'.links := by
  induction os generalizing m m2 with
  | nil => cases h; exact ⟨m2, rfl, hm⟩
  | cons o os ih =>
    obtain ⟨m1, h1, h2⟩ := options_cons h
    cases ho : isLink o with
    | false =>
      rw [List.filter_cons_of_neg (by simp [ho])]
      exact ih h2 (hm.trans (option_other h1 ho).symm)
    | true =>
      rw [List.filter_cons_of_pos ho]
      obtain ⟨m3, h3, h4⟩ := option_link h1 ho hm
      obtain ⟨m4, h5, h6⟩ := ih h2 h4
      exact ⟨m4, by rw [options, h3]; exact h5, h6⟩

/-- A nibble above the ones that are there. -/
theorem lor_nibble {ts : List Nat} (hts : ∀ t ∈ ts, t < 16) (t : Nat) :
    Int.lor ((Nat.ofDigits 16 ts : Nat) : Int) ((t : Int) * 2 ^ (4 * ts.length)) =
      (Nat.ofDigits 16 (ts ++ [t]) : Nat) := by
  have hlt : Nat.ofDigits 16 ts < 2 ^ (4 * ts.length) := by
    have h1 := Nat.ofDigits_lt_base_pow_length (b := 16) (by decide) hts
    rwa [show (16 : Nat) = 2 ^ 4 from rfl, ← pow_mul] at h1
  have hcast : ((t : Int) * 2 ^ (4 * ts.length)) = ((t * 2 ^ (4 * ts.length) : Nat) : Int) := by
    push_cast; rfl
  have hor := Nat.two_pow_add_eq_or_of_lt hlt t
  rw [hcast]
  show ((Nat.ofDigits 16 ts ||| t * 2 ^ (4 * ts.length) : Nat) : Int) = _
  rw [Nat.ofDigits_append, Nat.ofDigits_singleton, Nat.lor_comm, Nat.mul_comm t, ← hor]
  rw [show (16 : Nat) ^ ts.length = 2 ^ (4 * ts.length) by rw [pow_mul]; rfl, Nat.add_comm]

theorem options_introduced {d : Disk π} {m m' : Globals π} {ovls : List (Nat × π)} {ts : List Nat}
    (h : options d m (ovls.flatMap fun e => [.t (some e.1), .l e.2]) = .ok m')
    (hov : ∀ e ∈ ovls, 1 ≤ e.1 ∧ e.1 ≤ 15) (hts : ∀ t ∈ ts, t < 16)
    (hmap : m.typeMap = (Nat.ofDigits 16 ts : Nat)) (hshift : m.typeShift = 4 * ts.length) :
    m'.overlay = m.overlay ++ ovls.map Prod.snd ∧
      m'.typeMap = (Nat.ofDigits 16 (ts ++ ovls.map Prod.fst) : Nat) ∧
      m'.typeShift = 4 * (ts.length + ovls.length) := by
  induction ovls generalizing m ts with
  | nil =>
    cases h
    simp [hmap, hshift]
  | cons e ovls ih =>
    obtain ⟨m1, h1, h2⟩ := options_cons h
    obtain ⟨m2, h3, h4⟩ := options_cons h2
    have he := hov e (by simp)
    obtain ⟨-, rfl⟩ := option_t.mp h1
    obtain ⟨-, rfl⟩ := option_l.mp h3
    rw [Option.getD_some] at h4
    rw [hmap, hshift, lor_nibble hts] at h4
    obtain ⟨h5, h6, h7⟩ := @ih _ (ts ++ [e.1]) h4 (fun x hx => hov x (by simp [hx]))
      (fun t ht => by
        rcases List.mem_append.mp ht with ht | ht
        · exact hts t ht
        · rw [List.mem_singleton.mp ht]; omega) rfl
      (by simp; omega)
    rw [List.length_append, List.length_singleton] at h7
    exact ⟨by simpa using h5, by simpa using h6, by rw [h7, List.length_cons]; omega⟩

/-- The overlays and the type map behind the option loop. -/
theorem options_overlays {d : Disk π} {m : Globals π} {opts : List (Opt π)}
    {ovls : List (Nat × π)} (h : options d Globals.init opts = .ok m) (hi : Introduces opts ovls) :
    m.overlay = ovls.map Prod.snd ∧ m.typeMap = (Nat.ofDigits 16 (ovls.map Prod.fst) : Nat) := by
  have hinit : (Globals.init : Globals π).links = Globals.init.links := rfl
  obtain ⟨m2, h2, h3⟩ := options_links h hinit
  rw [hi.1] at h2
  have hnil : ∀ t ∈ ([] : List Nat), t < 16 := by simp
  obtain ⟨h4, h5, -⟩ := options_introduced h2 hi.2 hnil rfl rfl
  simp only [Globals.links, Prod.mk.injEq] at h3
  rw [← h3.1, ← h3.2.1]
  exact ⟨h4, h5⟩

theorem lor_nonneg {a b : Int} (h : 0 ≤ a.lor b) : 0 ≤ a ∧ 0 ≤ b := by
  cases a with
  | ofNat n =>
    cases b with
    | ofNat k => exact ⟨Int.natCast_nonneg n, Int.natCast_nonneg k⟩
    | negSucc k => exact absurd h (Int.not_le.mpr (Int.negSucc_lt_zero _))
  | negSucc n => cases b <;> exact absurd h (Int.not_le.mpr (Int.negSucc_lt_zero _))

/-- What has become negative stays negative. -/
theorem options_rest_nonneg {d : Disk π} {m m' : Globals π} {rest : List (Option Int)}
    (h : options d m (rest.map .t) = .ok m') (h0 : 0 ≤ m'.typeMap) : 0 ≤ m.typeMap := by
  induction rest generalizing m with
  | nil =>
    cases h
    exact h0
  | cons v rest ih =>
    obtain ⟨m1, h1, h2⟩ := options_cons h
    obtain ⟨-, rfl⟩ := option_t.mp h1
    exact (lor_nonneg (ih h2)).1

theorem or_above {low k : Nat} (hlow : low < 2 ^ k) (high v : Nat) :
    (low + 2 ^ k * high) ||| v * 2 ^ k = low + 2 ^ k * (high ||| v) := by
  have hor : 2 ^ k * high ||| v * 2 ^ k = 2 ^ k * (high ||| v) := by
    rw [Nat.mul_comm (2 ^ k) high, Nat.mul_comm (2 ^ k) (high ||| v), ← Nat.shiftLeft_eq,
      ← Nat.shiftLeft_eq, ← Nat.shiftLeft_eq, Nat.shiftLeft_or_distrib]
  rw [Nat.add_comm, Nat.add_comm low, Nat.two_pow_add_eq_or_of_lt hlow,
    Nat.two_pow_add_eq_or_of_lt hlow, Nat.or_right_comm, hor]

/-- The `-t` behind the last overlay add nibbles above those of the overlays. -/
theorem options_rest {d : Disk π} {m m' : Globals π} {rest : List (Option Int)} {k low high : Nat}
    (h : options d m (rest.map .t) = .ok m') (hlow : low < 2 ^ k)
    (hmap : m.typeMap = (low + 2 ^ k * high : Nat)) (hshift : m.typeShift = k)
    (h0 : 0 ≤ m'.typeMap) :
    m'.overlay = m.overlay ∧ ∃ high', m'.typeMap = (low + 2 ^ k * high' : Nat) ∧
      (high' = 0 ↔ high = 0 ∧ rest = []) := by
  induction rest generalizing m high with
  | nil =>
    cases h
    exact ⟨rfl, high, hmap, by simp⟩
  | cons v rest ih =>
    obtain ⟨m1, h1, h2⟩ := options_cons h
    have hpos := options_rest_nonneg h2 h0
    obtain ⟨hv, rfl⟩ := option_t.mp h1
    have hv0 : 0 ≤ v.getD 0 := nonneg_of_mul_nonneg_left (lor_nonneg hpos).2 (by positivity)
    obtain ⟨n, hn⟩ := Int.eq_ofNat_of_zero_le hv0
    have hlor : m.typeMap.lor (v.getD 0 * 2 ^ m.typeShift) = (low + 2 ^ k * (high ||| n) : Nat) := by
      rw [hmap, hn, hshift, show (n : Int) * 2 ^ k = ((n * 2 ^ k : Nat) : Int) by push_cast; rfl,
        ← or_above hlow]
      rfl
    obtain ⟨h3, high', h4, h5⟩ := ih h2 hlor hshift
    refine ⟨h3, high', h4, h5.trans ?_⟩
    simp only [Nat.or_eq_zero_iff, reduceCtorEq, and_false, iff_false, not_and]
    omega

/-- The same with `-t` behind the last overlay, where the type map is still a number. -/
theorem options_overlays_then {d : Disk π} {m : Globals π} {opts : List (Opt π)}
    {ovls : List (Nat × π)} {rest : List (Option Int)} (h : options d Globals.init opts = .ok m)
    (hi : IntroducesThen opts ovls rest) (h0 : 0 ≤ m.typeMap) :
    m.overlay = ovls.map Prod.snd ∧ ∃ high : Nat,
      m.typeMap = (Nat.ofDigits 16 (ovls.map Prod.fst) + 16 ^ ovls.length * high : Nat) ∧
      (high = 0 ↔ rest = []) := by
  have hinit : (Globals.init : Globals π).links = Globals.init.links := rfl
  obtain ⟨m2, h2, h3⟩ := options_links h hinit
  rw [hi.1] at h2
  obtain ⟨m1, h1, h4⟩ := options_append h2
  have hnil : ∀ t ∈ ([] : List Nat), t < 16 := by simp
  obtain ⟨hov, hmap, hshift⟩ := options_introduced h1 hi.2 hnil rfl rfl
  simp only [Globals.links, Prod.mk.injEq] at h3
  rw [← h3.1, ← h3.2.1]
  rw [← h3.2.1] at h0
  have hlow : Nat.ofDigits 16 (ovls.map Prod.fst) < 2 ^ (4 * ovls.length) := by
    have hl : (ovls.map Prod.fst).length = ovls.length := List.length_map _
    rw [pow_mul, ← hl]
    refine Nat.ofDigits_lt_base_pow_length (b := 16) (by decide) fun t ht => ?_
    obtain ⟨e, he, rfl⟩ := List.mem_map.mp ht
    have := (hi.2 e he).2
    omega
  have hmap' : m1.typeMap = (Nat.ofDigits 16 (ovls.map Prod.fst) + 2 ^ (4 * ovls.length) * 0 : Nat) := by
    simpa using hmap
  obtain ⟨h5, high, h6, h7⟩ := options_rest h4 hlow hmap' (by simpa using hshift) h0
  rw [pow_mul] at h6
  exact ⟨h5.trans hov, high, h6, by simpa using h7⟩

theorem downgrade_fields (m : Globals π) :
    (downgrade m).overlay = m.overlay ∧ (downgrade m).nmoffs = m.nmoffs ∧
      (downgrade m).typeMap = m.typeMap ∧ (downgrade m).oname = m.oname ∧
      (downgrade m).generate = m.generate ∧
      (8 ≤ (downgrade m).stubVer → (downgrade m).stubFlags = m.stubFlags) := by
  unfold downgrade
  split
  · split
    · simp
    · simp
  · simp

theorem downgrade_options (m : Globals π) : (downgrade m).options = m.options := by
  unfold downgrade
  split
  · split <;> rfl
  · rfl

/-! ## The header -/

theorem raising_ok {α : Type} {x : Option α} {a : α} (h : raising x = .ok a) : x = some a := by
  cases x with
  | none => cases h
  | some a' => cases h; rfl

theorem writeSize_ok {d : Disk π} {start b : Bytes} {i : Nat} {p : π}
    (h : writeSize d start i p = .ok b) :
    ∃ c, d.files p = some c ∧ c.length < 2 ^ 32 ∧ 0x1c + i * 4 + 4 ≤ start.length ∧
      b = patch start (0x1c + i * 4) (toBytes 4 c.length) := by
  unfold writeSize at h
  split at h
  · cases h
  · next c hf =>
    obtain ⟨-, hlt, hin, hb⟩ := writeU32_eq_some.mp (raising_ok h)
    exact ⟨c, hf, by omega, hin, by rw [hb, Int.toNat_natCast]⟩

theorem writeSizes_cons {d : Disk π} {start b : Bytes} {i : Nat} {p : π} {ps : List π}
    (h : writeSizes d start i (p :: ps) = .ok b) :
    ∃ b1, writeSize d start i p = .ok b1 ∧ writeSizes d b1 (i + 1) ps = .ok b := by
  rw [writeSizes] at h
  cases hs : writeSize d start i p with
  | error e => rw [hs] at h; cases h
  | ok b1 => rw [hs] at h; exact ⟨b1, rfl, h⟩

theorem writeSizes_error {d : Disk π} {start : Bytes} {i : Nat} {ps : List π} {e : Exit}
    (h : writeSizes d start i ps = .error e) : e ≠ .ret 0 := by
  induction ps generalizing start i with
  | nil => cases h
  | cons p ps ih =>
    rw [writeSizes] at h
    cases hs : writeSize d start i p with
    | error e' =>
      rw [hs] at h
      cases h
      unfold writeSize at hs
      split at hs
      · cases hs
        decide
      · next c hf =>
        cases hw : writeU32 start (0x1c + i * 4) c.length with
        | none => rw [hw] at hs; cases hs; decide
        | some b => rw [hw] at hs; cases hs
    | ok b1 =>
      rw [hs] at h
      exact ih h

/-- The sizes as they stand in the slots. -/
def sizeBytes (cs : List Bytes) : Bytes := cs.flatMap fun c => toBytes 4 c.length

theorem sizeBytes_length (cs : List Bytes) : (sizeBytes cs).length = cs.length * 4 := by
  induction cs with
  | nil => rfl
  | cons c cs ih =>
    have h4 := toBytes_length 4 c.length
    simp only [sizeBytes, List.flatMap_cons, List.length_append, List.length_cons] at ih ⊢
    omega

/-- The slots hold the sizes of the overlays one after another. -/
theorem writeSizes_ok {d : Disk π} {start b : Bytes} {i : Nat} {ps : List π}
    (hin : 0x1c + i * 4 ≤ start.length) (h : writeSizes d start i ps = .ok b) :
    ∃ cs : List Bytes, ps.map d.files = cs.map some ∧ (∀ c ∈ cs, c.length < 2 ^ 32) ∧
      0x1c + (i + cs.length) * 4 ≤ start.length ∧
      b = patch start (0x1c + i * 4) (sizeBytes cs) := by
  induction ps generalizing start i with
  | nil =>
    cases h
    exact ⟨[], rfl, by simp, by simpa using hin, by simp [patch, sizeBytes]⟩
  | cons p ps ih =>
    obtain ⟨b1, h1, h2⟩ := writeSizes_cons h
    obtain ⟨c, hf, hlt, hin1, rfl⟩ := writeSize_ok h1
    have h4 := toBytes_length 4 c.length
    have hpl := patch_length (b := start) (d := toBytes 4 c.length) (i := 0x1c + i * 4) (by omega)
    obtain ⟨cs, hcs, hlt', hin', rfl⟩ := ih (by omega) h2
    have hsl := sizeBytes_length cs
    rw [hpl] at hin'
    refine ⟨c :: cs, by simp [hf, hcs], ?_, ?_, ?_⟩
    · intro x hx
      rcases List.mem_cons.mp hx with rfl | hx
      · exact hlt
      · exact hlt' x hx
    · rw [List.length_cons]
      omega
    · rw [show sizeBytes (c :: cs) = toBytes 4 c.length ++ sizeBytes cs from rfl,
        patch_append (by omega), h4]
      congr 1
      omega

/-- `b'` is `b` with the `n` bytes at `off` rewritten. -/
structure Rewrites (b b' : Bytes) (off n : Nat) : Prop where
  inside : off + n ≤ b.length
  length : b'.length = b.length
  outside : ∀ k, k < off ∨ off + n ≤ k → b'[k]? = b[k]?

theorem Rewrites.of_patch {b d : Bytes} {off : Nat} (h : off + d.length ≤ b.length) :
    Rewrites b (patch b off d) off d.length where
  inside := h
  length := patch_length h
  outside k hk := by rw [patch_getElem? h, if_neg (by omega)]

theorem Rewrites.slice {b b' : Bytes} {off n k l : Nat} (h : Rewrites b b' off n)
    (hk : k + l ≤ off ∨ off + n ≤ k) : slice b' k l = slice b k l :=
  slice_congr fun j _ => h.outside (k + j) (by omega)

/-- A number written at `off` is read back there. -/
theorem patch_number {b : Bytes} {off w n : Nat} (hin : off + w ≤ b.length) (hn : n < 256 ^ w) :
    Rewrites b (patch b off (toBytes w n)) off w ∧
      fromBytes (slice (patch b off (toBytes w n)) off w) = n := by
  have hl := toBytes_length w n
  have hr : Rewrites b (patch b off (toBytes w n)) off (toBytes w n).length := .of_patch (by omega)
  have hs := slice_patch_self (b := b) (d := toBytes w n) (i := off) (by omega)
  rw [hl] at hr hs
  exact ⟨hr, by rw [hs, fromBytes_toBytes hn]⟩

theorem writeU32_ok {b b' : Bytes} {off : Nat} {v : Int} (h : writeU32 b off v = some b') :
    Rewrites b b' off 4 ∧ (u32 b' off : Int) = v := by
  obtain ⟨h0, hv, hin, rfl⟩ := writeU32_eq_some.mp h
  obtain ⟨hr, hread⟩ := patch_number (n := v.toNat) hin (by omega)
  exact ⟨hr, by rw [u32, hread]; omega⟩

theorem writeU16_ok {b b' : Bytes} {off : Nat} {v : Int} (h : writeU16 b off v = some b') :
    Rewrites b b' off 2 ∧ (u16 b' off : Int) = v := by
  obtain ⟨h0, hv, hin, rfl⟩ := writeU16_eq_some.mp h
  obtain ⟨hr, hread⟩ := patch_number (n := v.toNat) hin (by omega)
  exact ⟨hr, by rw [u16, hread]; omega⟩

theorem writeByte_ok {b b' : Bytes} {off v : Nat} (h : writeByte b off v = some b') :
    Rewrites b b' off 1 ∧ byteAt b' off = v := by
  unfold writeByte at h
  split at h
  · next hv =>
    cases h
    refine ⟨Rewrites.of_patch (d := [UInt8.ofNat v]) hv.2, ?_⟩
    have hs := slice_patch_self (d := [UInt8.ofNat v]) (i := off) (b := b) hv.2
    have hb := byteAt_slice (b := patch b off [UInt8.ofNat v]) (i := off) (n := 1) (k := 0) (by omega)
    rw [List.length_singleton] at hs
    rw [hs, Nat.add_zero] at hb
    rw [← hb]
    simp [byteAt, Nat.mod_eq_of_lt hv.1]
  · cases h

/-- The five writes. -/
theorem writeFields_eq_some {m : Globals π} {size : Nat} {b g : Bytes}
    (h : writeFields m size b = some g) :
    ∃ b1 b2 b3 b4, writeU32 b 0x28 m.nmoffs = some b1 ∧ writeU16 b1 0x36 m.typeMap = some b2 ∧
      writeU16 b2 0x38 m.stubFlags = some b3 ∧ writeByte b3 0x3b m.stubVer = some b4 ∧
      writeU32 b4 0x3c size = some g := by
  unfold writeFields at h
  split at h
  · cases h
  next b1 h1 =>
  split at h
  · cases h
  next b2 h2 =>
  split at h
  · cases h
  next b3 h3 =>
  split at h
  · cases h
  next b4 h4 =>
  exact ⟨b1, b2, b3, b4, h1, h2, h3, h4, h⟩

/-- The fields of a generated header; the rest is as it was. -/
structure Fields (m : Globals π) (size : Nat) (b g : Bytes) : Prop where
  length : g.length = b.length
  nmoffs : (u32 g 0x28 : Int) = m.nmoffs
  typeMap : (u16 g 0x36 : Int) = m.typeMap
  stubFlags : (u16 g 0x38 : Int) = m.stubFlags
  stubVer : byteAt g 0x3b = m.stubVer
  lfanew : u32 g 0x3c = size
  low : ∀ k n, k + n ≤ 0x28 → slice g k n = slice b k n
  mid : ∀ k n, 0x2c ≤ k → k + n ≤ 0x36 → slice g k n = slice b k n
  size : size < 2 ^ 32

theorem writeFields_ok {m : Globals π} {size : Nat} {b g : Bytes}
    (h : writeFields m size b = some g) : Fields m size b g := by
  obtain ⟨b1, b2, b3, b4, h1, h2, h3, h4, h5⟩ := writeFields_eq_some h
  obtain ⟨w1, v1⟩ := writeU32_ok h1
  obtain ⟨w2, v2⟩ := writeU16_ok h2
  obtain ⟨w3, v3⟩ := writeU16_ok h3
  obtain ⟨w4, v4⟩ := writeByte_ok h4
  obtain ⟨w5, v5⟩ := writeU32_ok h5
  have v5' : u32 g 0x3c = size := Int.ofNat_inj.mp v5
  -- each field is read behind the writes that follow it
  refine ⟨?_, ?_, ?_, ?_, ?_, v5', ?_, ?_, ?_⟩
  · rw [w5.length, w4.length, w3.length, w2.length, w1.length]
  · rw [u32, w5.slice (by decide), w4.slice (by decide), w3.slice (by decide), w2.slice (by decide)]
    exact v1
  · rw [u16, w5.slice (by decide), w4.slice (by decide), w3.slice (by decide)]
    exact v2
  · rw [u16, w5.slice (by decide), w4.slice (by decide)]
    exact v3
  · rw [← v4]
    exact byteAt_congr (w5.slice (by decide))
  · intro k n hk
    rw [w5.slice (by omega), w4.slice (by omega), w3.slice (by omega), w2.slice (by omega),
      w1.slice (by omega)]
  · intro k n hk hk'
    rw [w5.slice (by omega), w4.slice (by omega), w3.slice (by omega), w2.slice (by omega),
      w1.slice (by omega)]
  · rw [← v5']
    exact u32_lt _ _

/-- No field reaches beyond the header. -/
theorem writeFields_high {m : Globals π} {size : Nat} {b g : Bytes}
    (h : writeFields m size b = some g) {k : Nat} (hk : 0x40 ≤ k) : g[k]? = b[k]? := by
  obtain ⟨b1, b2, b3, b4, h1, h2, h3, h4, h5⟩ := writeFields_eq_some h
  rw [(writeU32_ok h5).1.outside k (by omega), (writeByte_ok h4).1.outside k (by omega),
    (writeU16_ok h3).1.outside k (by omega), (writeU16_ok h2).1.outside k (by omega),
    (writeU32_ok h1).1.outside k (by omega)]

/-- `copy_file` copies the whole file. -/
theorem copyFile_eq (c : Bytes) : copyFile c = c := by
  induction hk : c.length using Nat.strongRecOn generalizing c with
  | ind k ih =>
    rw [copyFile]
    split
    · next h =>
      rw [List.take_eq_nil_iff] at h
      simpa using h.symm
    · next h =>
      have hne : c ≠ [] := by rintro rfl; exact h List.take_nil
      have hr := List.length_pos_iff.mpr hne
      rw [ih _ (by rw [List.length_drop]; omega) _ rfl, List.take_append_drop]

/-- The loop of `copy_file`, on a file that stays as it is. -/
theorem ends_copyFileStep (b : Buffering) (c : Bytes) {r : Reader} {p : Nat} (h : r.At c p)
    (written : Bytes) : Ends (copyFileStep b fun _ => c) ⟨r, written⟩ (written ++ c.drop p) := by
  induction hn : c.length - p using Nat.strongRecOn generalizing r p written with
  | ind n ih =>
    obtain ⟨hout, hnext⟩ := h.read b written.length 4096
    have hlen := slice_length c p 4096
    by_cases hnil : slice c p 4096 = []
    · have hstop : copyFileStep b (fun _ => c) ⟨r, written⟩ = .stop written := by
        simp only [copyFileStep, hout, hnil, if_true]
      rw [hnil, List.length_nil] at hlen
      rw [ends_stop hstop, List.drop_eq_nil_of_le (by omega), List.append_nil]
    · have hstep : copyFileStep b (fun _ => c) ⟨r, written⟩ =
          .next ⟨(b.read c written.length 4096 r).2, written ++ slice c p 4096⟩ := by
        simp only [copyFileStep, hout, hnil, if_false]
      have hpos := List.length_pos_iff.mpr hnil
      have hrest := ih _ (by omega) hnext (written ++ slice c p 4096) rfl
      rw [ends_next hstep]
      rw [List.append_assoc, ← List.drop_drop] at hrest
      rwa [show slice c p 4096 ++ (c.drop p).drop (slice c p 4096).length = c.drop p from
        take_append_drop_length (c.drop p) 4096] at hrest

/-- `copyFile` is that loop on a file that is opened to be read. -/
theorem ends_copyFile (b : Buffering) (c written : Bytes) :
    Ends (copyFileStep b fun _ => c) ⟨.fresh, written⟩ (written ++ copyFile c) := by
  rw [copyFile_eq]
  exact ends_copyFileStep b c (Reader.fresh_at c) written

/-- Read back while it is written, a file adds nothing to itself: as long as everything
fits the buffer there is nothing to read, and beyond that there always is. -/
theorem copyFileStep_output {b : Buffering} {written w : Bytes}
    (h : Ends (copyFileStep b b.onDisk) ⟨.fresh, written⟩ w) : w = written := by
  rcases Nat.lt_or_ge b.size written.length with hlt | hfit
  · refine absurd (h.kept (Q := fun _ => False)
      (I := fun s => s.reader.pos + written.length = s.written.length + s.reader.ahead.length) ?_ ?_) id
    · intro s hs
      have hdisk := b.onDisk_length s.written
      have hmore : s.reader.ahead ≠ [] ∨ s.reader.pos < (b.onDisk s.written).length := by
        by_cases hnil : s.reader.ahead = []
        · rw [hnil, List.length_nil] at hs
          exact .inr (by omega)
        · exact .inl hnil
      have hne : (b.read (b.onDisk s.written) s.written.length 4096 s.reader).1 ≠ [] :=
        b.read_ne_nil (by decide) hmore
      have hpos := b.read_pos (b.onDisk s.written) s.written.length 4096 s.reader
      simp only [copyFileStep, if_neg hne, Step.Keeps, List.length_append]
      omega
    · exact Nat.add_comm _ _
  · have hstop : copyFileStep b b.onDisk ⟨.fresh, written⟩ = .stop written := by
      simp only [copyFileStep, b.onDisk_of_fits hfit, Reader.fresh, b.read_nil, if_true]
    exact ((ends_stop hstop).mp h).symm

/-- The overlays as they are copied: the one that is the output is empty by then. -/
theorem copyOverlays_eq [DecidableEq π] {d : Disk π} {oname : π} {ps : List π} {fuel : Nat}
    {written g : Bytes} (h : copyOverlays fuel d oname ps written = some (some g)) :
    ∃ cs : List Bytes, ps.map (d.set oname (some [])).files = cs.map some ∧
      g = written ++ cs.flatten := by
  induction ps generalizing written with
  | nil =>
    cases h
    exact ⟨[], rfl, (List.append_nil _).symm⟩
  | cons p ps ih =>
    rw [copyOverlays] at h
    split at h
    · next hp =>
      subst hp
      split at h
      · cases h
      next w hw =>
      rw [copyFileStep_output ⟨_, hw⟩] at h
      obtain ⟨cs, hcs, rfl⟩ := ih h
      refine ⟨[] :: cs, ?_, rfl⟩
      rw [List.map_cons, List.map_cons, Disk.set_files_self, hcs]
    · next hp =>
      split at h
      · cases h
      next c hc =>
      obtain ⟨cs, hcs, rfl⟩ := ih h
      refine ⟨c :: cs, ?_, ?_⟩
      · rw [List.map_cons, List.map_cons, Disk.set_files_of_ne _ _ hp, hc, hcs]
      · rw [copyFile_eq, List.flatten_cons, List.append_assoc]

/-! ## The generated file -/

/-- The overlays at `ps` have the contents `cs`, and the output is none of them. -/
def Copied (d : Disk π) (oname : π) (ps : List π) (cs : List Bytes) : Prop :=
  oname ∉ ps ∧ ps.map d.files = cs.map some

variable [DecidableEq π]

theorem Copied.opened {d : Disk π} {oname : π} {ps : List π} {cs : List Bytes}
    (h : Copied d oname ps cs) : ps.map (d.set oname (some [])).files = cs.map some := by
  rw [← h.2]
  refine List.map_congr_left fun p hp => d.set_files_of_ne _ ?_
  rintro rfl
  exact h.1 hp

/-- What is in the files is in them once. -/
theorem contents_unique {l : List (Option Bytes)} {cs cs' : List Bytes} (h : l = cs.map some)
    (h' : l = cs'.map some) : cs = cs' :=
  (List.map_inj_right fun _ _ => Option.some.inj).mp (h.symm.trans h')

/-- What a run of `-g` that returns 0 leaves in its output. -/
structure Generated (d : Disk π) (m : Globals π) (oname : π) (start g : Bytes) : Prop where
  template : m.start = some start
  accepted : stubAccepted start
  named : m.oname = some oname
  content : ∃ sized header, ∃ cs : List Bytes, writeSizes d start 0 m.overlay = .ok sized ∧
    writeFields (downgrade m) start.length sized = some header ∧
    m.overlay.map (d.set oname (some [])).files = cs.map some ∧ g = header ++ cs.flatten

section
variable {d : Disk π} {m : Globals π} {oname : π} {start g : Bytes} {cs : List Bytes}

theorem Generated.sources (hgen : Generated d m oname start g) :
    ∃ cs cs' : List Bytes, m.overlay.map d.files = cs.map some ∧
      m.overlay.map (d.set oname (some [])).files = cs'.map some := by
  obtain ⟨sized, header, cs', hs, -, hcs', -⟩ := hgen.content
  have h40 := hgen.accepted.1
  obtain ⟨cs, hcs, -⟩ := writeSizes_ok (by omega) hs
  exact ⟨cs, cs', hcs, hcs'⟩

/-- The generated file: the header fields over the sizes, then what has been copied. -/
theorem Generated.shape (hgen : Generated d m oname start g) {cs' : List Bytes}
    (hcs : m.overlay.map d.files = cs.map some)
    (hcs' : m.overlay.map (d.set oname (some [])).files = cs'.map some) :
    ∃ header, Fields (downgrade m) start.length (patch start 0x1c (sizeBytes cs)) header ∧
      header.length = start.length ∧ (∀ c ∈ cs, c.length < 2 ^ 32) ∧
      0x1c + cs.length * 4 ≤ start.length ∧ g = header ++ cs'.flatten := by
  obtain ⟨sized, header, cs1, hs, hh, hcs1, rfl⟩ := hgen.content
  have h40 := hgen.accepted.1
  obtain ⟨cs0, h1, h2, h3, rfl⟩ := writeSizes_ok (by omega) hs
  have hsame : cs0 = cs := contents_unique h1 hcs
  have hsame' : cs1 = cs' := contents_unique hcs1 hcs'
  rw [hsame, Nat.zero_add] at h3
  rw [hsame] at h2 hh
  rw [hsame']
  have hl := patch_length (b := start) (d := sizeBytes cs) (i := 0x1c)
    (by rw [sizeBytes_length]; omega)
  have hf := writeFields_ok hh
  exact ⟨header, hf, hf.length.trans hl, h2, h3, rfl⟩

/-- The fields of a generated file are those of the options. -/
theorem Generated.fields (hgen : Generated d m oname start g) :
    (u32 g 0x28 : Int) = m.nmoffs ∧ (u16 g 0x36 : Int) = m.typeMap ∧
      (u16 g 0x38 : Int) = (downgrade m).stubFlags ∧ byteAt g 0x3b = (downgrade m).stubVer := by
  obtain ⟨cs, cs', hcs, hcs'⟩ := hgen.sources
  obtain ⟨header, hf, hhl, -, -, rfl⟩ := hgen.shape hcs hcs'
  have h40 := hgen.accepted.1
  have hread (k n : Nat) (hk : k + n ≤ 0x40) :
      slice (header ++ cs'.flatten) k n = slice header k n :=
    slice_append_left (by omega)
  obtain ⟨-, hnm, htm, -, -, -⟩ := downgrade_fields m
  refine ⟨?_, ?_, ?_, ?_⟩
  · rw [u32, hread _ _ (by omega), ← hnm]
    exact hf.nmoffs
  · rw [u16, hread _ _ (by omega), ← htm]
    exact hf.typeMap
  · rw [u16, hread _ _ (by omega)]
    exact hf.stubFlags
  · rw [← hf.stubVer]
    exact byteAt_congr (hread _ _ (by omega))

theorem sizeBytes_slice {cs : List Bytes} {i : Nat} {c : Bytes} (hi : cs[i]? = some c) :
    slice (sizeBytes cs) (i * 4) 4 = toBytes 4 c.length := by
  induction cs generalizing i with
  | nil => cases hi
  | cons a cs ih =>
    have h4 := toBytes_length 4 a.length
    rw [show sizeBytes (a :: cs) = toBytes 4 a.length ++ sizeBytes cs from rfl]
    cases i with
    | zero =>
      cases hi
      have hs := slice_zero_length (toBytes 4 c.length)
      rw [h4] at hs
      rw [Nat.zero_mul, slice_append_left (by omega), hs]
    | succ i =>
      rw [slice_append_right (by omega), h4, show (i + 1) * 4 - 4 = i * 4 by omega]
      exact ih hi

/-- Slot `i` of a list of sizes. -/
theorem sizeBytes_slot {cs : List Bytes} (h32 : ∀ c ∈ cs, c.length < 2 ^ 32) {i : Nat} {c : Bytes}
    (hi : cs[i]? = some c) : fromBytes (slice (sizeBytes cs) (i * 4) 4) = c.length := by
  rw [sizeBytes_slice hi]
  exact fromBytes_toBytes (h32 c (List.mem_of_getElem? hi))

theorem slice_headerAt (g : Bytes) {k n : Nat} (hk : k + n ≤ 0x40) :
    slice (headerAt g 0) k n = slice g k n := by
  rw [headerAt, slice_slice hk, Nat.zero_add]

/-- The slots of a generated file up to the name offset. -/
theorem Generated.slot (hgen : Generated d m oname start g)
    (hcs : m.overlay.map d.files = cs.map some) {i : Nat} {c : Bytes} (hi : cs[i]? = some c)
    (hi3 : i < 3) : u32 g (0x1c + i * 4) = c.length := by
  obtain ⟨-, cs', -, hcs'⟩ := hgen.sources
  obtain ⟨header, hf, hhl, h32, hin, rfl⟩ := hgen.shape hcs hcs'
  have h40 := hgen.accepted.1
  have hlen := (List.getElem?_eq_some_iff.mp hi).1
  rw [u32, slice_append_left (by omega), hf.low _ _ (by omega),
    slice_patch_inside (by rw [sizeBytes_length]; omega) (by rw [sizeBytes_length]; omega)]
  exact sizeBytes_slot h32 hi

/-- The slots that no overlay takes are those of the template. -/
theorem Generated.slot_behind (hgen : Generated d m oname start g)
    (hcs : m.overlay.map d.files = cs.map some) {i : Nat} (hi : cs.length ≤ i) (hi3 : i < 3) :
    u32 g (0x1c + i * 4) = u32 start (0x1c + i * 4) := by
  obtain ⟨-, cs', -, hcs'⟩ := hgen.sources
  obtain ⟨header, hf, hhl, h32, hin, rfl⟩ := hgen.shape hcs hcs'
  have h40 := hgen.accepted.1
  rw [u32, slice_append_left (by omega), hf.low _ _ (by omega),
    slice_patch_of_disjoint (by rw [sizeBytes_length]; omega) (by rw [sizeBytes_length]; omega), u32]

theorem Generated.slot_zero (hgen : Generated d m oname start g) (hz : ZeroArea start)
    (hcs : m.overlay.map d.files = cs.map some) {i : Nat} (hi : cs.length ≤ i) (hi3 : i < 3) :
    u32 g (0x1c + i * 4) = 0 := by
  rw [hgen.slot_behind hcs hi hi3, u32, hz.slice_eq (by omega)]
  rfl

/-- The template's header stands in front of what has been copied. -/
theorem Generated.stub (hgen : Generated d m oname start g) : HasStub g start.length := by
  obtain ⟨cs, cs', hcs, hcs'⟩ := hgen.sources
  obtain ⟨header, hf, hhl, -, hin, rfl⟩ := hgen.shape hcs hcs'
  have h40 := hgen.accepted.1
  have hread (k n : Nat) (hk : k + n ≤ 0x40) :
      slice (headerAt (header ++ cs'.flatten) 0) k n = slice header k n := by
    rw [slice_headerAt _ hk, slice_append_left (by omega)]
  have hlow (k : Nat) (hk : k < 0x1c) :
      byteAt (headerAt (header ++ cs'.flatten) 0) k = byteAt start k := by
    refine byteAt_congr ?_
    rw [hread _ _ (by omega), hf.low _ _ (by omega),
      slice_patch_of_disjoint (by rw [sizeBytes_length]; omega) (by omega)]
  have hacc := hgen.accepted.2
  unfold isMz isLfanew at hacc
  refine ⟨?_, ?_, ?_, ?_⟩
  · rw [header_length_iff, List.length_append]
    omega
  · rw [isMz, hlow 0 (by decide), hlow 1 (by decide)]
    exact hacc.1
  · rw [isLfanew, hlow 8 (by decide), hlow 9 (by decide)]
    exact hacc.2
  · rw [u32, hread _ _ (by omega)]
    exact hf.lfanew

/-- The overlays follow the template; one that is the output contributes nothing. -/
theorem Generated.body (hgen : Generated d m oname start g) {cs' : List Bytes}
    (hcs' : m.overlay.map (d.set oname (some [])).files = cs'.map some) :
    g.drop start.length = cs'.flatten := by
  obtain ⟨cs, -, hcs, -⟩ := hgen.sources
  obtain ⟨header, -, hhl, -, -, rfl⟩ := hgen.shape hcs hcs'
  rw [← hhl, List.drop_left]

theorem Generated.hasStub (hgen : Generated d m oname start g) (hc : Copied d oname m.overlay cs) :
    HasStub g start.length ∧ g.drop start.length = cs.flatten :=
  ⟨hgen.stub, hgen.body hc.opened⟩

/-- An overlay that the output has emptied leaves the file shorter. -/
theorem opened_length {ps : List π} {cs' : List Bytes} (hcs : ps.map d.files = cs.map some)
    (hcs' : ps.map (d.set oname (some [])).files = cs'.map some) :
    cs'.flatten.length ≤ cs.flatten.length ∧
      (cs'.flatten.length = cs.flatten.length ↔ ∀ p ∈ ps, p = oname → d.files p = some []) := by
  induction ps generalizing cs cs' with
  | nil =>
    cases cs with
    | cons => cases hcs
    | nil =>
      cases cs' with
      | cons => cases hcs'
      | nil => simp
  | cons p ps ih =>
    cases cs with
    | nil => cases hcs
    | cons c cs =>
      cases cs' with
      | nil => cases hcs'
      | cons c' cs' =>
        obtain ⟨hc, hcs⟩ := List.cons.inj hcs
        obtain ⟨hc', hcs'⟩ := List.cons.inj hcs'
        obtain ⟨hle, hiff⟩ := ih hcs hcs'
        simp only [List.flatten_cons, List.length_append, List.forall_mem_cons, ← hiff]
        by_cases hp : p = oname
        · subst hp
          rw [Disk.set_files_self] at hc'
          cases hc'
          rw [hc]
          simp only [List.length_nil, forall_const, Option.some.injEq, ← List.length_eq_zero_iff]
          omega
        · rw [Disk.set_files_of_ne _ _ hp, hc] at hc'
          cases hc'
          simp only [hp, false_implies, true_and]
          omega

end

/-! ## Runs -/

theorem generate_zero_iff {fuel : Nat} {d d' : Disk π} {m : Globals π} {start : Bytes} :
    generate fuel d m start = some (.ret 0, d') ↔ ∃ oname sized header g, m.oname = some oname ∧
      writeSizes d start 0 m.overlay = .ok sized ∧ writeFields m start.length sized = some header ∧
      d.writable oname = true ∧ copyOverlays fuel d oname m.overlay header = some (some g) ∧
      d' = d.set oname (some g) := by
  constructor
  · intro h
    unfold generate at h
    split at h
    · cases h
    next oname ho =>
    split at h
    · next e he =>
      cases h
      exact absurd rfl (writeSizes_error he)
    next sized hsz =>
    split at h
    · cases h
    next header hh =>
    split at h
    case isFalse => cases h
    next hw =>
    split at h
    · cases h
    · cases h
    next g hb =>
    cases h
    exact ⟨oname, sized, header, g, ho, hsz, hh, hw, hb, rfl⟩
  · rintro ⟨oname, sized, header, g, ho, hsz, hh, hw, hb, rfl⟩
    simp only [generate, ho, hsz, hh, hw, hb, if_true]

/-- Behind the option loop a run that returns 0 has generated or converted. -/
theorem main_ok {fuel : Nat} {d d' : Disk π} {opts : List (Opt π)} {args : List π} {m : Globals π}
    (h : main fuel d opts args = some (.ret 0, d')) (hm : options d Globals.init opts = .ok m) :
    ∃ start, m.start = some start ∧ stubAccepted start ∧
      ((m.generate = true ∧ generate fuel d (downgrade m) start = some (.ret 0, d')) ∨
        (m.generate = false ∧ ∃ fname rest, args = fname :: rest ∧
          convert fuel d start (downgrade m).stubVer m.options fname m.oname =
            some (.ret 0, d'))) := by
  obtain ⟨-, -, -, ho, hg, -⟩ := downgrade_fields m
  have hopt := downgrade_options m
  unfold main at h
  rw [hm] at h
  dsimp only at h
  split at h
  · cases h
  next start hs =>
  split at h
  case isFalse => cases h
  next hacc =>
  refine ⟨start, hs, hacc, ?_⟩
  rw [hg, ho, hopt] at h
  cases hgen : m.generate with
  | true =>
    rw [hgen, if_pos rfl] at h
    exact .inl ⟨rfl, h⟩
  | false =>
    rw [hgen, if_neg (by simp)] at h
    split at h
    · cases h
    next fname rest =>
    refine .inr ⟨rfl, fname, rest, rfl, ?_⟩
    split at h
    · cases h
    · next code d1 hc =>
      simp only [Option.some.injEq, Prod.mk.injEq, Exit.ret.injEq] at h
      obtain ⟨h0, rfl⟩ := h
      split at h0
      · next hcode => rw [hc, hcode]
      · cases h0
    · next e d1 hne hc =>
      cases h
      exact absurd rfl (hne 0)

/-- A run of `-g` that returns 0 has generated its output. -/
theorem main_generate {fuel : Nat} {d d' : Disk π} {opts : List (Opt π)} {args : List π}
    {m : Globals π} {oname : π} (h : main fuel d opts args = some (.ret 0, d'))
    (hm : options d Globals.init opts = .ok m) (hg : m.generate = true) (ho : m.oname = some oname) :
    ∃ start g, d'.files oname = some g ∧ Generated d m oname start g := by
  obtain ⟨h1, -, -, h2, -⟩ := downgrade_fields m
  obtain ⟨start, hs, hacc, hcase⟩ := main_ok h hm
  rcases hcase with ⟨-, hgen⟩ | ⟨hf, -⟩
  · obtain ⟨oname', sized, header, g, ho', hsz, hh, -, hb, rfl⟩ := generate_zero_iff.mp hgen
    rw [h1] at hsz hb
    rw [h2, ho] at ho'
    cases ho'
    obtain ⟨cs', hcs', rfl⟩ := copyOverlays_eq hb
    exact ⟨start, _, by simp, hs, hacc, ho, sized, header, cs', hsz, hh, hcs', rfl⟩
  · rw [hg] at hf
    cases hf

theorem main_of_map {β : Type} (φ : Option Bytes → β) {fuel : Nat} {d : Disk π}
    {opts : List (Opt π)} {args : List π} {p : π} {e : Exit} {c : β}
    (h : (main fuel d opts args).map (fun r => (r.1, φ (r.2.files p))) = some (e, c)) :
    ∃ d', main fuel d opts args = some (e, d') ∧ φ (d'.files p) = c := by
  obtain ⟨⟨e', d'⟩, hr, he⟩ := Option.map_eq_some_iff.mp h
  simp only [Prod.mk.injEq] at he
  obtain ⟨rfl, rfl⟩ := he
  exact ⟨d', hr, rfl⟩

end

/-- A template at 0 and four overlays behind it. -/
def packDisk : Disk Nat where
  files p := [bareTemplate, coffImage, [1], [2], [3]][p]?
  writable _ := true
  movable _ := true
  temp := 100

/-- `-S 0 -g -o 9`, then each overlay with type 1. -/
def packOpts (n : Nat) : List (Opt Nat) :=
  [.S 0, .g, .o (some 9)] ++ (List.range n).flatMap fun i => [.t (some 1), .l (i + 1)]

end Djstub
