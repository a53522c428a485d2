import Djstub.Block
import Djstub.Image

/-! What a payload means: the program that a loader makes of it. The loaders seek
from where the payload starts, so a payload means the same at any place of a file
and whatever follows it. -/

namespace Djstub

open Bytes Loop Stores

/-! ## Programs -/

/-- What the header reader says, and what is stored. -/
structure Program where
  handle : Handle
  stores : List Store

/-- The two calls of `fullstub` into a loader; `none` where it exits. -/
def LdOps.load (ops : LdOps) (tmp : Page) (f : Bytes) (pos coffset : Nat) : Option Program :=
  match ops.readHeaders f pos with
  | .error _ => none
  | .ok (h, pos) =>
    match h.readSections (fileOps f) (rounds f) tmp coffset ⟨pos, []⟩ with
    | some (.next l) => some ⟨h, l.stores⟩
    | _ => none

/-- File offsets that `lseek` does not refuse. -/
def Handle.Seekable (h : Handle) : Prop :=
  ∀ s ∈ h.segments, ∀ o, s.offset = some o → s.filesz = 0 ∨ o < 2 ^ 31

/-- The payload is this program, by itself. -/
structure Denotes (tmp : Page) (ops : LdOps) (c : Bytes) (P : Program) : Prop where
  magic : ops.Matches c
  long : 0x40 ≤ c.length
  loads : ops.load tmp c 0 0 = some P
  seekable : P.handle.Seekable
  table : ops = .elf → u32 c 0x1c < 2 ^ 31

theorem except_map_ok {ε α β : Type} {x : Except ε α} {k : α → β} {b : β} (h : x.map k = .ok b) :
    ∃ a, x = .ok a ∧ k a = b := by
  cases x with
  | error e => cases h
  | ok a => exact ⟨a, rfl, Except.ok.inj h⟩

/-! ## The payload inside a file -/

/-- From `p` on the file goes on with `c`. -/
structure Holding (f : Bytes) (p : Nat) (c : Bytes) : Prop where
  start : p ≤ f.length
  bytes : c <+: f.drop p
  small : f.length < 2 ^ 31

namespace Holding
variable {f c : Bytes} {p : Nat} (e : Holding f p c)
include e

theorem slice_eq {i n : Nat} (h : i + n ≤ c.length) : slice f (p + i) n = slice c i n := by
  obtain ⟨t, ht⟩ := e.bytes
  rw [← slice_drop, ← ht, slice_append_left h]

theorem length_le : p + c.length ≤ f.length := by
  have h := e.bytes.length_le
  rw [List.length_drop] at h
  have := e.start
  omega

/-! ## _long_read -/

/-- A read that gets all of its bytes from the payload. -/
theorem fileRead_eq {q n : Nat} (h : q + n ≤ c.length) :
    fileRead f (p + q) n = ((fileRead c q n).1, p + (fileRead c q n).2) := by
  rw [fileRead, fileRead, e.slice_eq h, Nat.add_assoc]

theorem longReadStep_eq (offset : Nat) {s : LongRead Nat} (h : s.file + s.size ≤ c.length) :
    longReadStep (fileRead f) offset { s with file := p + s.file } =
      (longReadStep (fileRead c) offset s).map (fun s => { s with file := p + s.file })
        fun s => { s with file := p + s.file } := by
  have hread := e.fileRead_eq (q := s.file) (n := min s.size 4096) (by omega)
  simp only [longReadStep]
  rw [hread]
  by_cases h0 : s.size = 0
  · rw [if_pos h0, if_pos h0]
    rfl
  · rw [if_neg h0, if_neg h0]
    dsimp only
    split <;> split <;> rfl

theorem longRead_eq (fuel : Nat) (tmp : Page) {q n : Nat} (h : q + n ≤ c.length) (hn : n < 2 ^ 32)
    (offset : Nat) (stores : List Store) :
    longRead (fileOps f) fuel tmp (p + q) offset n stores =
      (longRead (fileOps c) fuel tmp q offset n stores).map fun s => { s with file := p + s.file } := by
  refine run_map (φ := fun s : LongRead Nat => { s with file := p + s.file })
    (I := fun s : LongRead Nat => s.file + s.size ≤ c.length ∧ s.size < 2 ^ 32 ∧ s.done < 2 ^ 32)
    ?_ (fun s hs => e.longReadStep_eq offset hs.1) _
    (s := { file := q, tmp, done := 0, size := n, stores }) ⟨h, hn, Nat.two_pow_pos 32⟩
  rintro s s' ⟨hfit, hsize, hdone⟩ hstep
  by_cases h0 : s.size = 0
  · rw [longReadStep_done offset h0] at hstep
    cases hstep
  have hlen := slice_length c s.file (min s.size 4096)
  have hread : fileRead c s.file (min s.size 4096) = (some (slice c s.file (min s.size 4096)), _) := rfl
  obtain ⟨tmp', new, pad, -, -, hstep'⟩ := longReadStep_delivers offset h0 hsize hdone hread (by omega)
  rw [hstep', if_neg (by omega)] at hstep
  cases hstep
  dsimp only
  omega

end Holding

/-! ## Sections -/

/-- From any position `act'` stores what `act` does. -/
def Repeats (act act' : Load Nat → Option (Step (Load Nat) (Load Nat))) : Prop :=
  ∀ l l1, act l = some (.next l1) → ∀ q, ∃ q', act' ⟨q, l.stores⟩ = some (.next ⟨q', l1.stores⟩)

theorem Repeats.andThen {act act' k k' : Load Nat → Option (Step (Load Nat) (Load Nat))}
    (h : Repeats act act') (hk : Repeats k k') :
    Repeats (fun l => andThen (act l) k) fun l => andThen (act' l) k' := by
  intro l l2 heq q
  dsimp only at heq
  cases hl : act l with
  | none =>
    rw [hl] at heq
    cases heq
  | some r =>
    cases r with
    | stop l1 =>
      rw [hl] at heq
      cases heq
    | next l1 =>
      rw [hl] at heq
      obtain ⟨q1, h1⟩ := h l l1 hl q
      obtain ⟨q2, h2⟩ := hk l1 l2 heq q1
      exact ⟨q2, by dsimp only; rw [h1]; exact h2⟩

theorem repeats_stores (k : List Store → List Store) :
    Repeats (fun l => some (.next ⟨l.file, k l.stores⟩)) fun l =>
      some (.next ⟨l.file, k l.stores⟩) := by
  rintro l l1 heq q
  cases heq
  exact ⟨q, rfl⟩

theorem repeats_memset (offset size : Nat) :
    Repeats (fun l => some (.next (l.memset offset size))) fun l =>
      some (.next (l.memset offset size)) :=
  repeats_stores fun st => st ++ [farmemset offset 0 ((size + size % 2) % 2 ^ 32) (even_rounded size)]

theorem repeats_inOrder {acts acts' : List (Load Nat → Option (Step (Load Nat) (Load Nat)))}
    (h : List.Forall₂ Repeats acts acts') : Repeats (inOrder acts) (inOrder acts') := by
  induction h with
  | nil => exact repeats_stores id
  | cons hact _ ih => exact hact.andThen ih

namespace Holding
variable {f c : Bytes} {p : Nat} (e : Holding f p c)
include e

theorem rounds_le : rounds c ≤ rounds f := by
  have := e.length_le
  rw [rounds, rounds]
  omega

/-- The section is stored again, from wherever the file stands. -/
theorem readSection_repeats (tmp : Page) {scnptr size : Nat} (vaddr : Nat) (hsize : size < 2 ^ 32)
    (hseek : size = 0 ∨ scnptr < 2 ^ 31) :
    Repeats (readSection (fileOps c) (rounds c) tmp 0 scnptr vaddr size)
      (readSection (fileOps f) (rounds f) tmp p scnptr vaddr size) := by
  intro l l1 hl q
  rw [readSection] at hl
  obtain ⟨r, -, -, hr, hdone, -⟩ :=
    longRead_file (Nat.le_refl (rounds c)) tmp (lseek l.file ((0 + scnptr) % 2 ^ 32)) vaddr hsize
      l.stores
  have hr' : longRead (fileOps c) (rounds c) tmp ((fileOps c).lseek l.file ((0 + scnptr) % 2 ^ 32))
      vaddr size l.stores = some r := hr
  rw [hr', Option.map_some] at hl
  split at hl
  · cases hl
  next hall =>
  cases hl
  by_cases h0 : size = 0
  · -- nothing is read, and a seek may be refused
    subst h0
    cases hr
    exact ⟨_, rfl⟩
  · have hlt : scnptr < 2 ^ 31 := hseek.resolve_left h0
    rw [Nat.zero_add, Nat.mod_eq_of_lt (by omega), lseek, if_pos hlt] at hr hdone
    have hfit : scnptr + size ≤ c.length := by omega
    have hle := e.length_le
    have hsmall := e.small
    have hf := e.longRead_eq (rounds f) tmp hfit hsize vaddr l.stores
    have hmono : longRead (fileOps c) (rounds f) tmp scnptr vaddr size l.stores = some r :=
      run_mono e.rounds_le hr
    rw [hmono, Option.map_some] at hf
    have hseek' : (fileOps f).lseek q ((p + scnptr) % 2 ^ 32) = p + scnptr := by
      show lseek q _ = _
      rw [Nat.mod_eq_of_lt (by omega), lseek, if_pos (by omega)]
    refine ⟨p + r.file, ?_⟩
    rw [readSection, hseek', hf, Option.map_some, if_neg hall]

theorem readPhdr_repeats (tmp : Page) {h : Phdr} (hsize : h.filesz < 2 ^ 32)
    (hseek : h.filesz = 0 ∨ h.offset < 2 ^ 31) :
    Repeats (readPhdr (fileOps c) (rounds c) tmp 0 h) (readPhdr (fileOps f) (rounds f) tmp p h) := by
  refine (e.readSection_repeats tmp h.vaddr hsize hseek).andThen ?_
  by_cases hz : h.memsz > h.filesz
  · simp only [hz, if_true]
    exact repeats_memset _ _
  · simp only [hz, if_false]
    exact repeats_stores id

theorem readSections_repeats (tmp : Page) {h : Handle} (hs : h.Seekable)
    (hsize : ∀ s ∈ h.segments, s.filesz < 2 ^ 32) :
    Repeats (fun l => h.readSections (fileOps c) (rounds c) tmp 0 l) fun l =>
      h.readSections (fileOps f) (rounds f) tmp p l := by
  cases h with
  | elf h =>
    have hall : List.Forall₂ Repeats (h.loads.map (readPhdr (fileOps c) (rounds c) tmp 0))
        (h.loads.map (readPhdr (fileOps f) (rounds f) tmp p)) := by
      rw [List.forall₂_map_left_iff, List.forall₂_map_right_iff, List.forall₂_same]
      intro ph hph
      have hmem : ph.segment ∈ (Handle.elf h).segments := List.mem_map_of_mem hph
      exact e.readPhdr_repeats tmp (hsize _ hmem) (hs _ hmem _ rfl)
    simp only [Handle.readSections, readElfSections_eq]
    exact repeats_inOrder hall
  | coff h =>
    have htext : ⟨some h.text.scnptr, h.text.vaddr, h.text.size, h.text.size⟩ ∈
        (Handle.coff h).segments := by simp [Handle.segments]
    have hdata : ⟨some h.data.scnptr, h.data.vaddr, h.data.size, h.data.size⟩ ∈
        (Handle.coff h).segments := by simp [Handle.segments]
    refine (e.readSection_repeats tmp _ (hsize _ htext) (hs _ htext _ rfl)).andThen ?_
    refine (e.readSection_repeats tmp _ (hsize _ hdata) (hs _ hdata _ rfl)).andThen ?_
    exact repeats_memset _ _

/-! ## Headers -/

/-- A seek from the current position, to where something can be read. -/
theorem lseekCur_eq {a k n : Nat} (hk : k < 2 ^ 31) (hn : n ≠ 0)
    (hfull : (slice c (lseekCur a k) n).length = n) : lseekCur (p + a) k = p + lseekCur a k := by
  have hle := e.length_le
  have hsmall := e.small
  have hlen := slice_length c (a + k) n
  by_cases h : a + k < 2 ^ 31
  · have hc : lseekCur a k = a + k := by
      rw [lseekCur, toInt32_of_lt hk, if_pos (by omega)]
      omega
    rw [hc] at hfull ⊢
    rw [lseekCur, toInt32_of_lt hk, if_pos (by omega)]
    omega
  · -- refused in both
    rw [lseekCur, lseekCur, toInt32_of_lt hk, if_neg (by omega), if_neg (by omega)]

/-- A table behind a header, found by the length that the header states. -/
theorem table_eq {a x k n : Nat} (hk : x - k < 2 ^ 31)
    (hfull : (slice c (if x > k then lseekCur a (x - k) else a) n).length = n) :
    slice f (if x > k then lseekCur (p + a) (x - k) else p + a) n =
      slice c (if x > k then lseekCur a (x - k) else a) n := by
  by_cases hn : n = 0
  · subst hn
    simp [slice]
  have heq : (if x > k then lseekCur (p + a) (x - k) else p + a) =
      p + if x > k then lseekCur a (x - k) else a := by
    split
    next h =>
      rw [if_pos h] at hfull
      exact e.lseekCur_eq hk hn hfull
    · rfl
  rw [heq]
  generalize (if x > k then lseekCur a (x - k) else a) = q at hfull
  have hlen := slice_length c q n
  exact e.slice_eq (by omega)

theorem readCoffHeaders_repeats {a q : Nat} {h : CoffH} (hc : readCoffHeaders c a = .ok (h, q)) :
    ∃ q', readCoffHeaders f (p + a) = .ok (h, q') := by
  have hohdr := slice_length c (a + 20) 28
  have hopt := u16_lt (slice c a 20) 16
  have hscns := e.table_eq (a := a + 48) (x := u16 (slice c a 20) 16) (k := 28) (n := 120) (by omega)
  unfold readCoffHeaders at hc ⊢
  dsimp only at hc ⊢
  by_cases h1 : (slice c a 20).length = 20
  case neg =>
    rw [if_pos h1] at hc
    cases hc
  have hchdr := slice_length c a 20
  rw [e.slice_eq (by omega), if_neg (not_not.mpr h1)]
  rw [if_neg (not_not.mpr h1)] at hc
  simp only [← Nat.add_assoc] at hscns
  generalize (if u16 (slice c a 20) 16 > 28 then lseekCur (a + 48) (u16 (slice c a 20) 16 - 28)
    else a + 48) = s at hc hscns
  generalize (if u16 (slice c a 20) 16 > 28 then lseekCur (p + a + 48) (u16 (slice c a 20) 16 - 28)
    else p + a + 48) = s' at hscns ⊢
  split at hc
  · cases hc
  next h2 =>
  split at hc
  · cases hc
  next h3 =>
  split at hc
  · cases hc
  next h4 =>
  rw [if_neg h2, Nat.add_assoc, e.slice_eq (by omega), if_neg h3, hscns (not_not.mp h4), if_neg h4]
  cases hc
  exact ⟨_, rfl⟩

theorem readElfHeaders_repeats {a q : Nat} {h : ElfH} (hoff : u32 c (a + 0x1c) < 2 ^ 31)
    (hc : readElfHeaders c a = .ok (h, q)) : ∃ q', readElfHeaders f (p + a) = .ok (h, q') := by
  have hphoff : u32 (slice c a 0x34) 0x1c = u32 c (a + 0x1c) := u32_slice (by omega)
  have htbl := e.table_eq (a := a + 0x34) (x := u32 (slice c a 0x34) 0x1c) (k := 0x34)
    (n := 0x20 * u16 (slice c a 0x34) 0x2c) (by omega)
  unfold readElfHeaders at hc ⊢
  dsimp only at hc ⊢
  by_cases h1 : (slice c a 0x34).length = 0x34
  case neg =>
    rw [if_pos h1] at hc
    cases hc
  have hehdr := slice_length c a 0x34
  rw [e.slice_eq (by omega), if_neg (not_not.mpr h1)]
  rw [if_neg (not_not.mpr h1)] at hc
  simp only [← Nat.add_assoc] at htbl
  generalize (if u32 (slice c a 0x34) 0x1c > 0x34 then
    lseekCur (a + 0x34) (u32 (slice c a 0x34) 0x1c - 0x34) else a + 0x34) = s at hc htbl
  generalize (if u32 (slice c a 0x34) 0x1c > 0x34 then
    lseekCur (p + a + 0x34) (u32 (slice c a 0x34) 0x1c - 0x34) else p + a + 0x34) = s' at htbl ⊢
  split at hc
  · cases hc
  next h2 =>
  split at hc
  · cases hc
  next h3 =>
  split at hc
  · cases hc
  next h4 =>
  split at hc
  · cases hc
  next h5 =>
  rw [if_neg h2, if_neg h3, if_neg h4, htbl (not_not.mp h5), if_neg h5]
  generalize (List.range (u16 (slice c a 0x34) 0x2c)).map (fun i =>
    Phdr.parse (slice (slice c s (0x20 * u16 (slice c a 0x34) 0x2c)) (i * 0x20) 0x20)) = ps at hc ⊢
  cases hull : elfHull ps 0 0 with
  | error x =>
    rw [hull] at hc
    cases hc
  | ok r =>
    rw [hull] at hc
    cases hc
    exact ⟨_, rfl⟩

theorem readHeaders_repeats {ops : LdOps} {a q : Nat} {h : Handle}
    (hoff : ops = .elf → u32 c (a + 0x1c) < 2 ^ 31) (hc : ops.readHeaders c a = .ok (h, q)) :
    ∃ q', ops.readHeaders f (p + a) = .ok (h, q') := by
  cases ops with
  | coff =>
    obtain ⟨⟨h', q1⟩, hr, heq⟩ := except_map_ok hc
    cases heq
    obtain ⟨q', hf⟩ := e.readCoffHeaders_repeats hr
    exact ⟨q', by rw [LdOps.readHeaders, hf]; rfl⟩
  | elf =>
    obtain ⟨⟨h', q1⟩, hr, heq⟩ := except_map_ok hc
    cases heq
    obtain ⟨q', hf⟩ := e.readElfHeaders_repeats (hoff rfl) hr
    exact ⟨q', by rw [LdOps.readHeaders, hf]; rfl⟩

end Holding

theorem readHeaders_filesz {ops : LdOps} {f : Bytes} {pos pos' : Nat} {h : Handle}
    (hh : ops.readHeaders f pos = .ok (h, pos')) : ∀ s ∈ h.segments, s.filesz < 2 ^ 32 := by
  intro s hs
  rcases readHeaders_ok hh with ⟨c, hc, rfl⟩ | ⟨e, he, rfl⟩
  · obtain ⟨scns, -, -, h1, h2, h3, -⟩ := readCoffHeaders_ok hc
    simp only [Handle.segments, h1, h2, h3, List.mem_cons, List.not_mem_nil, or_false] at hs
    rcases hs with rfl | rfl | rfl
    · exact u32_lt _ _
    · exact u32_lt _ _
    · exact Nat.two_pow_pos 32
  · obtain ⟨htable, -⟩ := readElfHeaders_ok he
    obtain ⟨p, hp, rfl⟩ := List.mem_map.mp hs
    rw [ElfH.loads, htable.phdr] at hp
    obtain ⟨i, -, rfl⟩ := List.mem_map.mp (List.mem_filter.mp hp).1
    exact u32_lt _ _

theorem load_eq_some {ops : LdOps} {tmp : Page} {f : Bytes} {P : Program} {pos coffset : Nat} :
    ops.load tmp f pos coffset = some P ↔ ∃ pos' l, ops.readHeaders f pos = .ok (P.handle, pos') ∧
      P.handle.readSections (fileOps f) (rounds f) tmp coffset ⟨pos', []⟩ = some (.next l) ∧
        l.stores = P.stores := by
  unfold LdOps.load
  constructor
  · intro hload
    cases hh : ops.readHeaders f pos with
    | error e =>
      rw [hh] at hload
      cases hload
    | ok r =>
      rw [hh] at hload
      dsimp only at hload
      split at hload
      next l hl =>
        cases hload
        exact ⟨r.2, l, rfl, hl, rfl⟩
      · cases hload
  · rintro ⟨pos', l, hh, hl, hst⟩
    rw [hh]
    dsimp only
    rw [hl]
    dsimp only
    rw [hst]

/-- A payload is loaded from inside a file as it is loaded alone. -/
theorem load_embedded {tmp : Page} {ops : LdOps} {f c : Bytes} {p : Nat} {P : Program}
    (hP : Denotes tmp ops c P) (e : Holding f p c) : ops.load tmp f p p = some P := by
  obtain ⟨q, l, hh, hl, hst⟩ := load_eq_some.mp hP.loads
  obtain ⟨q', hf⟩ := e.readHeaders_repeats (a := 0) (by simpa using hP.table) hh
  obtain ⟨q1, hrep⟩ := e.readSections_repeats tmp hP.seekable (readHeaders_filesz hh) ⟨q, []⟩ l hl q'
  rw [Nat.add_zero] at hf
  exact load_eq_some.mpr ⟨q', _, hf, hrep, hst⟩

theorem exists_denotes {tmp : Page} {ops : LdOps} {c : Bytes} {h : Handle} {pos : Nat}
    (hmagic : ops.Matches c) (hlong : 0x40 ≤ c.length) (hh : ops.readHeaders c 0 = .ok (h, pos))
    (hload : (ops.load tmp c 0 0).isSome = true)
    (hseek : ∀ s ∈ h.segments, ∀ o ∈ s.offset, s.filesz = 0 ∨ o < 2 ^ 31)
    (htable : u32 c 0x1c < 2 ^ 31) : ∃ P, Denotes tmp ops c P := by
  obtain ⟨P, hP⟩ := Option.isSome_iff_exists.mp hload
  obtain ⟨q, l, hh', -, -⟩ := load_eq_some.mp hP
  rw [hh] at hh'
  obtain ⟨hhandle, -⟩ := Prod.mk.inj (Except.ok.inj hh')
  refine ⟨P, hmagic, hlong, hP, ?_, fun _ => htable⟩
  rw [← hhandle]
  exact hseek

theorem smallElf_denotes : ∃ P, Denotes blankPage .elf smallElf P := by
  have hh : LdOps.elf.readHeaders smallElf 0 = .ok (.elf smallElfH, 0x94) := by
    rw [LdOps.readHeaders, smallElf_headers]
    rfl
  exact exists_denotes (by decide +kernel : isElf smallElf) (by decide +kernel) hh (by decide +kernel)
    (by decide) (by decide +kernel)

theorem smallCoff_denotes : ∃ P, Denotes blankPage .coff (smallCoff 0x3000 1) P := by
  have hh : LdOps.coff.readHeaders (smallCoff 0x3000 1) 0 = .ok (smallHandle 0x3000 1, 168) := by
    decide +kernel
  exact exists_denotes (by decide +kernel : isCoff (smallCoff 0x3000 1)) (by decide +kernel) hh
    (by decide +kernel) (by decide) (by decide +kernel)

end Djstub
