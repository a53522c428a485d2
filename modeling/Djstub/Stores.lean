import Djstub.Bytes

/-! Runs of stores into memory, and the addresses that they reach. A store moves
whole words, so its length is even. -/

namespace Stores

open Bytes

structure Store where
  offset : Nat
  data : Bytes
  even : data.length % 2 = 0

/-- The addresses of one store. -/
def Store.range (s : Store) : Set Nat := Set.Ico s.offset (s.offset + s.data.length)

/-- The addresses that some store reaches. -/
def written (L : List Store) : Set Nat := {x | ∃ s ∈ L, x ∈ s.range}

@[simp] theorem written_nil : written [] = ∅ := by simp [written]

theorem written_append (L M : List Store) : written (L ++ M) = written L ∪ written M := by
  ext x
  simp only [written, List.mem_append, Set.mem_ofPred_eq, Set.mem_union, or_and_right, exists_or]

theorem written_singleton (s : Store) : written [s] = s.range := by simp [written]

/-- Stores that continue where the ones before them end. -/
theorem written_continue {L M : List Store} {a b c : Nat} (hL : written L = Set.Ico a b)
    (hM : written M = Set.Ico b c) (hab : a ≤ b) (hbc : b ≤ c) : written (L ++ M) = Set.Ico a c := by
  rw [written_append, hL, hM, Set.Ico_union_Ico_eq_Ico hab hbc]

/-! ## Memory -/

/-- A memory with addresses of `w` bits. -/
abbrev Memory (w : Nat) := BitVec w → UInt8

variable {w : Nat}

/-- The memory with `d` from address `a` on. Addresses wrap. -/
def blit (m : Memory w) (a : BitVec w) (d : Bytes) : Memory w :=
  fun x => d[(x - a).toNat]?.getD (m x)

/-- The stores one after another. -/
def applyAll (L : List Store) (m : Memory w) : Memory w :=
  L.foldl (fun m s => blit m (BitVec.ofNat w s.offset) s.data) m

@[simp] theorem blit_nil (m : Memory w) (a : BitVec w) : blit m a [] = m := by
  funext x
  simp [blit]

/-- The distance to an address `n` further on. -/
theorem toNat_sub_add (x a : BitVec w) (n : Nat) (hn : n < 2 ^ w) :
    (x - (a + BitVec.ofNat w n)).toNat =
      if n ≤ (x - a).toNat then (x - a).toNat - n else (x - a).toNat + 2 ^ w - n := by
  have hx := (x - a).isLt
  have hsub : x - (a + BitVec.ofNat w n) = x - a - BitVec.ofNat w n := by
    rw [BitVec.sub_sub]
  rw [hsub, BitVec.toNat_sub, BitVec.toNat_ofNat, Nat.mod_eq_of_lt hn]
  split
  · next h =>
    have hle : 2 ^ w - n + (x - a).toNat = (x - a).toNat - n + 2 ^ w := by omega
    rw [hle, Nat.add_mod_right, Nat.mod_eq_of_lt (by omega)]
  · next h =>
    rw [Nat.mod_eq_of_lt (by omega)]
    omega

theorem blit_append (m : Memory w) (a : BitVec w) {d e : Bytes} (h : d.length + e.length ≤ 2 ^ w) :
    blit m a (d ++ e) = blit (blit m a d) (a + BitVec.ofNat w d.length) e := by
  funext x
  have hx := (x - a).isLt
  by_cases he : e = []
  · subst he
    simp
  have hpos := List.length_pos_iff.mpr he
  simp only [blit]
  rw [toNat_sub_add x a d.length (by omega)]
  by_cases hd : (x - a).toNat < d.length
  · have h1 : ¬ d.length ≤ (x - a).toNat := by omega
    have h2 : e[(x - a).toNat + 2 ^ w - d.length]? = none := List.getElem?_eq_none (by omega)
    rw [if_neg h1, h2, List.getElem?_append_left hd, Option.getD_none]
  · have h1 : d.length ≤ (x - a).toNat := by omega
    rw [if_pos h1, List.getElem?_append_right h1, List.getElem?_eq_none (l := d) h1]
    rfl

/-- The byte at distance `k`. -/
theorem blit_add (m : Memory w) (a : BitVec w) (d : Bytes) {k : Nat} (hk : k < 2 ^ w) :
    blit m a d (a + BitVec.ofNat w k) = d[k]?.getD (m (a + BitVec.ofNat w k)) := by
  have hdist : (a + BitVec.ofNat w k - a).toNat = k := by
    rw [BitVec.add_comm, BitVec.add_sub_cancel, BitVec.toNat_ofNat, Nat.mod_eq_of_lt hk]
  rw [blit, hdist]

/-- The byte at address `x`, where nothing wraps. -/
theorem blit_ofNat (m : Memory w) {a x : Nat} (d : Bytes) (hx : x < 2 ^ w) (ha : a + d.length ≤ 2 ^ w) :
    blit m (BitVec.ofNat w a) d (BitVec.ofNat w x) =
      if a ≤ x then d[x - a]?.getD (m (BitVec.ofNat w x)) else m (BitVec.ofNat w x) := by
  split
  · next h =>
    have hsum : BitVec.ofNat w x = BitVec.ofNat w a + BitVec.ofNat w (x - a) := by
      rw [← BitVec.ofNat_add]
      congr 1
      omega
    rw [hsum]
    exact blit_add m _ d (by omega)
  · next h =>
    by_cases hd : d = []
    · rw [hd, blit_nil]
    have hpos := List.length_pos_iff.mpr hd
    have hdist : (BitVec.ofNat w x - BitVec.ofNat w a).toNat = x + 2 ^ w - a := by
      rw [BitVec.toNat_sub, BitVec.toNat_ofNat, BitVec.toNat_ofNat, Nat.mod_eq_of_lt hx,
        Nat.mod_eq_of_lt (by omega : a < 2 ^ w), Nat.mod_eq_of_lt (by omega)]
      omega
    rw [blit, hdist, List.getElem?_eq_none (by omega), Option.getD_none]

theorem applyAll_append (L M : List Store) (m : Memory w) :
    applyAll (L ++ M) m = applyAll M (applyAll L m) := by
  rw [applyAll, List.foldl_append]
  rfl

/-- The store through a segment with base `b`. -/
def Store.shift (w b : Nat) (s : Store) : Store := { s with offset := (b + s.offset) % 2 ^ w }

theorem blit_from (b a x : BitVec w) (m : Memory w) (d : Bytes) :
    blit m (b + a) d (b + x) = blit (fun y => m (b + y)) a d x := by
  have hdist : b + x - (b + a) = x - a := by
    rw [BitVec.add_comm b x, BitVec.add_comm b a, add_sub_add_right_eq_sub]
  rw [blit, blit, hdist]

/-- Through the segment everything is where the stores say. -/
theorem applyAll_shift (b : Nat) (L : List Store) (m : Memory w) (x : BitVec w) :
    applyAll (L.map (Store.shift w b)) m (BitVec.ofNat w b + x) =
      applyAll L (fun y => m (BitVec.ofNat w b + y)) x := by
  induction L generalizing m with
  | nil => rfl
  | cons s L ih =>
    have haddr : BitVec.ofNat w (s.shift w b).offset = BitVec.ofNat w b + BitVec.ofNat w s.offset := by
      rw [← BitVec.ofNat_add]
      apply BitVec.eq_of_toNat_eq
      simp [Store.shift]
    have hfirst : (fun y => blit m (BitVec.ofNat w (s.shift w b).offset) s.data (BitVec.ofNat w b + y)) =
        blit (fun y => m (BitVec.ofNat w b + y)) (BitVec.ofNat w s.offset) s.data := by
      rw [haddr]
      exact funext fun y => blit_from _ _ y m s.data
    show applyAll (L.map (Store.shift w b)) (blit m (BitVec.ofNat w (s.shift w b).offset) s.data)
      (BitVec.ofNat w b + x) = _
    rw [ih, hfirst]
    rfl

/-- The stores put `d` at `a`, and nothing else anywhere. The last byte may be the
one behind the end of the memory. -/
structure Puts (w : Nat) (L : List Store) (a : Nat) (d : Bytes) : Prop where
  memory : ∀ m : Memory w, applyAll L m = blit m (BitVec.ofNat w a) d
  range : a + d.length ≤ 2 ^ w + 1 → written L = Set.Ico a (a + d.length)

theorem Puts.nil (w a : Nat) : Puts w [] a [] :=
  ⟨fun m => (blit_nil m _).symm, fun _ => by simp⟩

/-- A store whose address has wrapped. -/
theorem Puts.single {s : Store} {a : Nat} (h : s.offset = a % 2 ^ w) : Puts w [s] a s.data := by
  constructor
  · intro m
    have hmod : BitVec.ofNat w (a % 2 ^ w) = BitVec.ofNat w a := by
      apply BitVec.eq_of_toNat_eq
      simp
    show blit m (BitVec.ofNat w s.offset) s.data = _
    rw [h, hmod]
  · intro hfit
    rw [written_singleton, Store.range, h]
    by_cases hd : s.data.length = 0
    · simp [hd]
    · have heven := s.even
      rw [Nat.mod_eq_of_lt (by omega)]

theorem Puts.append {L M : List Store} {a : Nat} {d e : Bytes} (hL : Puts w L a d)
    (hM : Puts w M (a + d.length) e) (hlen : d.length + e.length ≤ 2 ^ w) :
    Puts w (L ++ M) a (d ++ e) := by
  constructor
  · intro m
    rw [applyAll_append, hL.memory, hM.memory, blit_append m _ hlen, BitVec.ofNat_add]
  · intro hfit
    rw [List.length_append] at hfit ⊢
    rw [← Nat.add_assoc]
    exact written_continue (hL.range (by omega)) (hM.range (by omega)) (by omega) (by omega)

/-! ## Images -/

/-- Bytes with the place where they belong. -/
structure Part where
  addr : Nat
  data : Bytes

def Part.range (q : Part) : Set Nat := Set.Ico q.addr (q.addr + q.data.length)

/-- After the stores every part is in place. They reach no other address, but for
one byte behind each part that is not empty. -/
structure Image (w : Nat) (L : List Store) (parts : List Part) : Prop where
  holds : ∀ q ∈ parts, ∀ (m : Memory w) (k : Nat) (b : UInt8), q.data[k]? = some b →
    applyAll L m (BitVec.ofNat w (q.addr + k)) = b
  frame : ∀ (m : Memory w) (x : Nat), x < 2 ^ w →
    (∀ q ∈ parts, x < q.addr ∨ q.addr + q.data.length < x ∨ q.data.length = 0) →
    applyAll L m (BitVec.ofNat w x) = m (BitVec.ofNat w x)

theorem Image.nil (w : Nat) : Image w [] [] :=
  ⟨fun _ hq => absurd hq List.not_mem_nil, fun _ _ _ _ => rfl⟩

/-- One part, rounded up to a word. -/
theorem Puts.image {L : List Store} {a : Nat} {d pad : Bytes} (h : Puts w L a (d ++ pad))
    (hpad : pad.length = d.length % 2) (hfit : a + d.length < 2 ^ w) : Image w L [⟨a, d⟩] := by
  have hlen : (d ++ pad).length = d.length + d.length % 2 := by rw [List.length_append, hpad]
  constructor
  · intro q hq m k b hb
    rw [List.mem_singleton.mp hq] at hb ⊢
    have hk := (List.getElem?_eq_some_iff.mp hb).1
    dsimp only at hk hb ⊢
    rw [h.memory, BitVec.ofNat_add, blit_add m _ _ (by omega), List.getElem?_append_left hk, hb,
      Option.getD_some]
  · intro m x hx hout
    have hq : x < a ∨ a + d.length < x ∨ d.length = 0 := hout _ (List.mem_singleton_self _)
    rw [h.memory, blit_ofNat m _ hx (by omega)]
    split
    · rw [List.getElem?_eq_none (by omega), Option.getD_none]
    · rfl

/-- What the first stores spill over, later ones that need the place repair. -/
theorem Image.cons {L M : List Store} {q : Part} {parts : List Part} (hL : Image w L [q])
    (hM : Image w M parts) (hasc : ∀ r ∈ parts, q.addr ≤ r.addr)
    (hdisj : ∀ r ∈ parts, Disjoint q.range r.range) (hfit : q.addr + q.data.length ≤ 2 ^ w) :
    Image w (L ++ M) (q :: parts) := by
  constructor
  · intro r hr m k b hb
    rw [applyAll_append]
    rcases List.mem_cons.mp hr with rfl | hr
    · have hk := (List.getElem?_eq_some_iff.mp hb).1
      rw [hM.frame _ _ (by omega), hL.holds r (List.mem_singleton_self r) m k b hb]
      intro t ht
      by_cases h0 : t.data.length = 0
      · exact .inr (.inr h0)
      · -- a part that is not empty starts behind this one
        have hnot : t.addr ∉ r.range := fun hin =>
          Set.disjoint_left.mp (hdisj t ht) hin (Set.mem_Ico.mpr ⟨Nat.le_refl _, by omega⟩)
        have hle := hasc t ht
        rw [Part.range, Set.mem_Ico] at hnot
        omega
    · exact hM.holds r hr _ k b hb
  · intro m x hx hout
    rw [applyAll_append, hM.frame _ x hx fun r hr => hout r (List.mem_cons_of_mem _ hr)]
    refine hL.frame m x hx fun r hr => ?_
    rw [List.mem_singleton.mp hr]
    exact hout q List.mem_cons_self

/-- Two parts that meet are one. -/
theorem Image.join {L : List Store} {a b : Nat} {d e : Bytes} (h : Image w L [⟨a, d⟩, ⟨b, e⟩])
    (hb : b = a + d.length) : Image w L [⟨a, d ++ e⟩] := by
  subst hb
  constructor
  · intro q hq m k x hx
    rw [List.mem_singleton.mp hq] at hx ⊢
    dsimp only at hx ⊢
    by_cases hk : k < d.length
    · rw [List.getElem?_append_left hk] at hx
      exact h.holds ⟨a, d⟩ (by simp) m k x hx
    · rw [List.getElem?_append_right (by omega)] at hx
      have hat := h.holds ⟨a + d.length, e⟩ (by simp) m (k - d.length) x hx
      dsimp only at hat
      rwa [show a + d.length + (k - d.length) = a + k by omega] at hat
  · intro m x hx hout
    have hq := hout _ (List.mem_singleton_self _)
    dsimp only at hq
    rw [List.length_append] at hq
    refine h.frame m x hx fun q hq' => ?_
    rcases List.mem_cons.mp hq' with rfl | hq'
    · dsimp only
      omega
    · rw [List.mem_singleton.mp hq']
      dsimp only
      omega

end Stores
