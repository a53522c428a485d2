import Djstub.Bytes

/-! Files that are read and written through buffers. What has been written reaches
the file when it no longer fits the buffer, the rest when the file is closed; a
reader takes in more than it hands out. When exactly a buffer is emptied and how
much a reader takes in is left open. -/

namespace Buffers

open Bytes

/-- The behaviour of the buffers, by the number of bytes that have been written. -/
structure Buffering where
  /-- So many bytes does the buffer of a writer hold. -/
  size : Nat
  /-- So many of the bytes that have been written have reached the file. -/
  passed : Nat → Nat
  /-- Nothing does while everything fits. -/
  fits : ∀ n ≤ size, passed n = 0
  /-- The buffer holds no more than its size. -/
  full : ∀ n, n ≤ passed n + size
  /-- So many bytes does a reader take in beyond those it is asked for. -/
  ahead : Nat → Nat
  /-- So many bytes does a reader still hold when the output is opened. -/
  held : Nat

/-- A writer that holds back its last `size` bytes, and a reader that takes in what it
is asked for. -/
def Buffering.ofSize (size : Nat) : Buffering where
  size
  passed n := n - size
  fits _ h := Nat.sub_eq_zero_of_le h
  full n := by omega
  ahead _ := 0
  held := 0

/-- What is in a file that is being written. -/
def Buffering.onDisk (b : Buffering) (written : Bytes) : Bytes :=
  written.take (b.passed written.length)

/-- A reader: the position up to which it has taken in the file, and what of that
it has not handed out. -/
structure Reader where
  pos : Nat
  ahead : Bytes
  deriving DecidableEq, Repr

def Reader.fresh : Reader := ⟨0, []⟩

/-- The reader of a file `f` that has been read before, at position `p`. -/
def Buffering.reader (b : Buffering) (f : Bytes) (p : Nat) : Reader :=
  ⟨p + (slice f p b.held).length, slice f p b.held⟩

/-- `read(n)`, when the file holds `raw`: what is there already comes first. -/
def Buffering.read (b : Buffering) (raw : Bytes) (now n : Nat) (r : Reader) : Bytes × Reader :=
  let got := if r.ahead.length < n then slice raw r.pos (n - r.ahead.length + b.ahead now) else []
  ((r.ahead ++ got).take n, ⟨r.pos + got.length, (r.ahead ++ got).drop n⟩)

theorem Buffering.onDisk_of_fits (b : Buffering) {written : Bytes} (h : written.length ≤ b.size) :
    b.onDisk written = [] := by
  rw [Buffering.onDisk, b.fits _ h, List.take_zero]

theorem Buffering.onDisk_length (b : Buffering) (written : Bytes) :
    written.length ≤ (b.onDisk written).length + b.size := by
  have := b.full written.length
  rw [Buffering.onDisk, List.length_take]
  omega

theorem Buffering.read_nil (b : Buffering) (now n pos : Nat) :
    b.read [] now n ⟨pos, []⟩ = ([], ⟨pos, []⟩) := by
  simp [Buffering.read, slice]

/-- A reader that is asked for bytes hands some out, unless it holds none and stands
at the end of the file. -/
theorem Buffering.read_ne_nil (b : Buffering) {raw : Bytes} {now n : Nat} {r : Reader} (hn : n ≠ 0)
    (h : r.ahead ≠ [] ∨ r.pos < raw.length) : (b.read raw now n r).1 ≠ [] := by
  rw [Buffering.read, ne_eq, List.take_eq_nil_iff, not_or]
  refine ⟨hn, fun hnil => ?_⟩
  obtain ⟨h1, h2⟩ := List.append_eq_nil_iff.mp hnil
  have hpos := h.resolve_left (· h1)
  rw [h1, List.length_nil, if_pos (Nat.pos_of_ne_zero hn)] at h2
  have := congrArg List.length h2
  rw [slice_length, List.length_nil] at this
  omega

/-- The position moves on by what is handed out and what is held more. -/
theorem Buffering.read_pos (b : Buffering) (raw : Bytes) (now n : Nat) (r : Reader) :
    (b.read raw now n r).2.pos + r.ahead.length =
      r.pos + (b.read raw now n r).1.length + (b.read raw now n r).2.ahead.length := by
  simp only [Buffering.read]
  generalize (if r.ahead.length < n then _ else _ : Bytes) = got
  rw [List.length_take, List.length_drop, List.length_append]
  omega

/-! ## A file that stays as it is -/

/-- The reader of `f` stands at `p`: what it holds and what it has not taken in yet
are the bytes from there on. -/
structure Reader.At (r : Reader) (f : Bytes) (p : Nat) : Prop where
  rest : r.ahead ++ f.drop r.pos = f.drop p
  pos : r.pos = p + r.ahead.length

theorem Reader.fresh_at (f : Bytes) : Reader.fresh.At f 0 := ⟨rfl, rfl⟩

theorem take_append_drop_length (x : Bytes) (k : Nat) : x.take k ++ x.drop (x.take k).length = x := by
  rw [List.length_take]
  by_cases h : k ≤ x.length
  · rw [Nat.min_eq_left h, List.take_append_drop]
  · rw [Nat.min_eq_right (by omega), List.drop_length, List.append_nil,
      List.take_of_length_le (by omega)]

theorem Buffering.reader_at (b : Buffering) (f : Bytes) (p : Nat) : (b.reader f p).At f p where
  rest := by
    rw [Buffering.reader, ← List.drop_drop]
    exact take_append_drop_length (f.drop p) b.held
  pos := rfl

/-- Buffers are not seen on a file that nobody changes. -/
theorem Reader.At.read {r : Reader} {f : Bytes} {p : Nat} (h : r.At f p) (b : Buffering)
    (now n : Nat) :
    (b.read f now n r).1 = slice f p n ∧
      (b.read f now n r).2.At f (p + (slice f p n).length) := by
  obtain ⟨got, hread, hgot, henough⟩ : ∃ got,
      b.read f now n r = ((r.ahead ++ got).take n, ⟨r.pos + got.length, (r.ahead ++ got).drop n⟩) ∧
      got ++ f.drop (r.pos + got.length) = f.drop r.pos ∧
      (n ≤ (r.ahead ++ got).length ∨ f.drop (r.pos + got.length) = []) := by
    refine ⟨_, rfl, ?_⟩
    split
    · rw [← List.drop_drop]
      refine ⟨take_append_drop_length _ _, ?_⟩
      rw [List.length_append, List.drop_drop, List.drop_eq_nil_iff, slice_length]
      omega
    · exact ⟨rfl, .inl (by rw [List.append_nil]; omega)⟩
  have hall : (r.ahead ++ got) ++ f.drop (r.pos + got.length) = f.drop p := by
    rw [List.append_assoc, hgot, h.rest]
  have hout : (r.ahead ++ got).take n = slice f p n := by
    rw [slice, ← hall]
    rcases henough with hle | hnil
    · exact (List.take_append_of_le_length hle).symm
    · rw [hnil, List.append_nil]
  rw [hread]
  refine ⟨hout, ?_, ?_⟩
  · calc (r.ahead ++ got).drop n ++ f.drop (r.pos + got.length)
        = ((r.ahead ++ got).take n ++ ((r.ahead ++ got).drop n ++ f.drop (r.pos + got.length))).drop
            ((r.ahead ++ got).take n).length := List.drop_left.symm
      _ = (f.drop p).drop ((r.ahead ++ got).take n).length := by
        rw [← List.append_assoc, List.take_append_drop, hall]
      _ = f.drop (p + (slice f p n).length) := by rw [List.drop_drop, hout]
  · have hpos := h.pos
    rw [← hout]
    simp only [List.length_take, List.length_drop, List.length_append]
    omega

end Buffers
