import Mathlib

/-! Byte strings: slices that stop at the end of the string, little-endian
numbers, and patches of a fixed place. -/

abbrev Bytes := List UInt8

namespace Bytes

def byteAt (b : Bytes) (i : Nat) : Nat := (b.getD i 0).toNat

/-- `b[i : i + n]`, cut off at the end of `b`. -/
def slice (b : Bytes) (i n : Nat) : Bytes := (b.drop i).take n

/-- Little-endian value. -/
def fromBytes : Bytes → Nat
  | [] => 0
  | x :: b => x.toNat + 256 * fromBytes b

/-- The `w` low bytes of `n`, least significant first. -/
def toBytes : Nat → Nat → Bytes
  | 0, _ => []
  | w + 1, n => UInt8.ofNat (n % 256) :: toBytes w (n / 256)

def u16 (b : Bytes) (i : Nat) : Nat := fromBytes (slice b i 2)
def u32 (b : Bytes) (i : Nat) : Nat := fromBytes (slice b i 4)

/-- `b` with the bytes from `i` on replaced by `d`. -/
def patch (b : Bytes) (i : Nat) (d : Bytes) : Bytes := b.take i ++ d ++ b.drop (i + d.length)

/-! ## Slices -/

theorem slice_getElem? (b : Bytes) (i n k : Nat) :
    (slice b i n)[k]? = if k < n then b[i + k]? else none := by
  unfold slice
  rw [List.getElem?_take]
  split
  · rw [List.getElem?_drop]
  · rfl

theorem slice_length (b : Bytes) (i n : Nat) : (slice b i n).length = min n (b.length - i) := by
  simp [slice]

theorem slice_length_of_le {b : Bytes} {i n : Nat} (h : i + n ≤ b.length) :
    (slice b i n).length = n := by
  rw [slice_length]; omega

/-- Equal bytes give equal slices. -/
theorem slice_congr {a b : Bytes} {i j n : Nat} (h : ∀ k < n, a[i + k]? = b[j + k]?) :
    slice a i n = slice b j n := by
  apply List.ext_getElem?
  intro k
  rw [slice_getElem?, slice_getElem?]
  split
  · exact h k ‹_›
  · rfl

theorem slice_zero_length (b : Bytes) : slice b 0 b.length = b := by simp [slice]

theorem slice_append_left {a b : Bytes} {i n : Nat} (h : i + n ≤ a.length) :
    slice (a ++ b) i n = slice a i n := by
  apply slice_congr
  intro k hk
  exact List.getElem?_append_left (by omega)

theorem slice_append_right {a b : Bytes} {i n : Nat} (h : a.length ≤ i) :
    slice (a ++ b) i n = slice b (i - a.length) n := by
  apply slice_congr
  intro k _
  rw [List.getElem?_append_right (by omega)]
  congr 1
  omega

theorem slice_slice {b : Bytes} {i n j m : Nat} (h : j + m ≤ n) :
    slice (slice b i n) j m = slice b (i + j) m := by
  apply slice_congr
  intro k hk
  rw [slice_getElem?, if_pos (by omega)]
  congr 1
  omega

theorem slice_drop (b : Bytes) (p i n : Nat) : slice (b.drop p) i n = slice b (p + i) n := by
  simp [slice, List.drop_drop]

theorem slice_add (b : Bytes) (i n m : Nat) :
    slice b i (n + m) = slice b i n ++ slice b (i + n) m := by
  simp [slice, List.take_add, List.drop_drop]

theorem byteAt_eq_of_getElem? {a b : Bytes} {i j : Nat} (h : a[i]? = b[j]?) :
    byteAt a i = byteAt b j := by
  simp only [byteAt, List.getD_eq_getElem?_getD, h]

theorem byteAt_lt (b : Bytes) (i : Nat) : byteAt b i < 256 := (b.getD i 0).toNat_lt

theorem byteAt_slice {b : Bytes} {i n k : Nat} (h : k < n) :
    byteAt (slice b i n) k = byteAt b (i + k) :=
  byteAt_eq_of_getElem? (by rw [slice_getElem?, if_pos h])

/-! ## Little-endian numbers -/

/-- A byte that is not zero lies inside. -/
theorem byteAt_append {a : Bytes} {i : Nat} (h : byteAt a i ≠ 0) (b : Bytes) :
    byteAt (a ++ b) i = byteAt a i := by
  by_cases hi : i < a.length
  · exact byteAt_eq_of_getElem? (List.getElem?_append_left hi)
  · have h0 : byteAt a i = 0 := by
      rw [byteAt, List.getD_eq_getElem?_getD, List.getElem?_eq_none (by omega)]
      rfl
    exact absurd h0 h

theorem byteAt_congr {a b : Bytes} {i j : Nat} (h : slice a i 1 = slice b j 1) :
    byteAt a i = byteAt b j := by
  have ha := byteAt_slice (b := a) (i := i) (n := 1) (k := 0) (by decide)
  have hb := byteAt_slice (b := b) (i := j) (n := 1) (k := 0) (by decide)
  rw [h] at ha
  exact ha.symm.trans hb

theorem toBytes_length (w n : Nat) : (toBytes w n).length = w := by
  induction w generalizing n with
  | zero => rfl
  | succ w ih => simp [toBytes, ih]

theorem fromBytes_lt (b : Bytes) : fromBytes b < 256 ^ b.length := by
  induction b with
  | nil => simp [fromBytes]
  | cons x b ih =>
    have hx : x.toNat < 256 := x.toNat_lt
    rw [fromBytes, List.length_cons, Nat.pow_succ]
    omega

theorem fromBytes_toBytes {w n : Nat} (h : n < 256 ^ w) : fromBytes (toBytes w n) = n := by
  induction w generalizing n with
  | zero => simp at h; simp [toBytes, fromBytes, h]
  | succ w ih =>
    have hx : (UInt8.ofNat (n % 256)).toNat = n % 256 := by simp
    rw [Nat.pow_succ] at h
    rw [toBytes, fromBytes, ih (by omega), hx]
    omega

theorem u16_lt (b : Bytes) (i : Nat) : u16 b i < 2 ^ 16 := by
  have h := fromBytes_lt (slice b i 2)
  have hl : (slice b i 2).length ≤ 2 := by rw [slice_length]; omega
  exact Nat.lt_of_lt_of_le h (Nat.pow_le_pow_right (by omega) hl)

theorem u32_lt (b : Bytes) (i : Nat) : u32 b i < 2 ^ 32 := by
  have h := fromBytes_lt (slice b i 4)
  have hl : (slice b i 4).length ≤ 4 := by rw [slice_length]; omega
  exact Nat.lt_of_lt_of_le h (Nat.pow_le_pow_right (by omega) hl)

theorem u32_toBytes {n : Nat} (h : n < 2 ^ 32) : u32 (toBytes 4 n) 0 = n := by
  have hs := slice_zero_length (toBytes 4 n)
  rw [toBytes_length] at hs
  rw [u32, hs, fromBytes_toBytes h]

theorem u32_slice {b : Bytes} {i n k : Nat} (h : k + 4 ≤ n) :
    u32 (slice b i n) k = u32 b (i + k) := by
  simp only [u32, slice_slice h]

/-! ## Patches -/

theorem patch_length {b d : Bytes} {i : Nat} (h : i + d.length ≤ b.length) :
    (patch b i d).length = b.length := by
  simp [patch]; omega

theorem patch_getElem? {b d : Bytes} {i : Nat} (h : i + d.length ≤ b.length) (k : Nat) :
    (patch b i d)[k]? = if i ≤ k ∧ k < i + d.length then d[k - i]? else b[k]? := by
  unfold patch
  have hl : (b.take i).length = i := by simp; omega
  by_cases h1 : k < i
  · rw [List.getElem?_append_left (by simp; omega), List.getElem?_append_left (by omega),
      List.getElem?_take, if_pos h1, if_neg (by omega)]
  · by_cases h2 : k < i + d.length
    · rw [List.getElem?_append_left (by simp; omega), List.getElem?_append_right (by omega),
        if_pos (by omega), hl]
    · rw [List.getElem?_append_right (by simp; omega), if_neg (by omega), List.getElem?_drop]
      congr 1
      simp
      omega

theorem slice_patch_inside {b d : Bytes} {i j n : Nat} (h : i + d.length ≤ b.length)
    (hj : j + n ≤ d.length) : slice (patch b i d) (i + j) n = slice d j n := by
  apply slice_congr
  intro k hk
  rw [patch_getElem? h, if_pos (by omega)]
  congr 1
  omega

theorem slice_patch_self {b d : Bytes} {i : Nat} (h : i + d.length ≤ b.length) :
    slice (patch b i d) i d.length = d := by
  have hs := slice_patch_inside (j := 0) (n := d.length) h (by omega)
  rwa [slice_zero_length] at hs

theorem slice_patch_of_disjoint {b d : Bytes} {i j n : Nat} (h : i + d.length ≤ b.length)
    (hd : j + n ≤ i ∨ i + d.length ≤ j) : slice (patch b i d) j n = slice b j n := by
  apply slice_congr
  intro k hk
  rw [patch_getElem? h, if_neg (by omega)]

theorem byteAt_patch_of_disjoint {b d : Bytes} {i k : Nat} (h : i + d.length ≤ b.length)
    (hd : k < i ∨ i + d.length ≤ k) : byteAt (patch b i d) k = byteAt b k :=
  byteAt_eq_of_getElem? (by rw [patch_getElem? h, if_neg (by omega)])

/-- Writing back what is already there changes nothing. -/
theorem patch_slice {b : Bytes} {i n : Nat} (h : i + n ≤ b.length) :
    patch b i (slice b i n) = b := by
  have hl := slice_length_of_le h
  apply List.ext_getElem?
  intro k
  rw [patch_getElem? (by omega), hl]
  split
  · rw [slice_getElem?, if_pos (by omega)]
    congr 1
    omega
  · rfl

theorem patch_append {b d e : Bytes} {i : Nat} (h : i + d.length + e.length ≤ b.length) :
    patch b i (d ++ e) = patch (patch b i d) (i + d.length) e := by
  have hd := patch_length (b := b) (d := d) (i := i) (by omega)
  apply List.ext_getElem?
  intro k
  rw [patch_getElem? (by simp; omega), patch_getElem? (by omega), patch_getElem? (by omega),
    List.length_append, List.getElem?_append]
  split
  · split
    · rw [if_neg (by omega), if_pos (by omega)]
    · rw [if_pos (by omega)]
      congr 1
      omega
  · rw [if_neg (by omega), if_neg (by omega)]

/-- A patch of a patch, inside it. -/
theorem patch_patch_inside {b d e : Bytes} {i j : Nat} (h : i + d.length ≤ b.length)
    (hj : j + e.length ≤ d.length) : patch (patch b i d) (i + j) e = patch b i (patch d j e) := by
  have hd := patch_length h
  have he := patch_length hj
  apply List.ext_getElem?
  intro k
  rw [patch_getElem? (by omega), patch_getElem? h, patch_getElem? (by omega),
    patch_getElem? (by omega), he]
  split
  · rw [if_pos (by omega), if_pos (by omega)]
    congr 1
    omega
  · split
    · rw [if_neg (by omega)]
    · rfl

end Bytes
