import Djstub.Reads

/-! What the loaders store lies in the block that `stub.c` has allocated, except
for the byte by which the last store of a section is rounded up. -/

namespace Djstub

open Bytes Loop Stores

/-! ## Segments -/

/-- What a loader puts at one place: bytes of the file, then zeros. Without an
offset nothing is read. -/
structure Segment where
  offset : Option Nat
  vaddr : Nat
  filesz : Nat
  memsz : Nat
  deriving DecidableEq, Repr

namespace Segment

/-- The memory range of the segment. -/
def range (s : Segment) : Set Nat := Set.Ico s.vaddr (s.vaddr + s.memsz)

/-- The length of the last stretch that is stored: the zeros, or the file bytes
where there are none. -/
def lastLen (s : Segment) : Nat := if s.filesz < s.memsz then s.memsz - s.filesz else s.filesz

/-- The addresses that are stored to. -/
def stored (s : Segment) : Set Nat := Set.Ico s.vaddr (s.vaddr + s.memsz + s.lastLen % 2)

/-- Where the file stands when the segment is read. -/
def start {σ : Type} (s : Segment) (io : OpenFile σ) (coffset : Nat) (file : σ) : σ :=
  s.offset.elim file fun offs => io.lseek file ((coffset + offs) % 2 ^ 32)

/-- Sizes that do not wrap. -/
structure Bounded (s : Segment) : Prop where
  filesz : s.filesz ≤ s.memsz
  fits : s.vaddr + s.memsz ≤ 2 ^ 32
  small : s.memsz + 1 < 2 ^ 32

theorem stored_file {s : Segment} (h : s.memsz = s.filesz) :
    s.stored = Set.Ico s.vaddr (s.vaddr + s.filesz + s.filesz % 2) := by
  rw [stored, lastLen, if_neg (by omega), h]

/-- The zeros start below the byte that rounds up the file bytes. -/
theorem stored_zeros {s : Segment} (h : s.filesz < s.memsz) :
    s.stored = Set.Ico s.vaddr (s.vaddr + s.filesz + s.filesz % 2) ∪
      Set.Ico (s.vaddr + s.filesz)
        (s.vaddr + s.filesz + (s.memsz - s.filesz + (s.memsz - s.filesz) % 2)) := by
  rw [stored, lastLen, if_pos h, Set.Ico_union_Ico' (by omega) (by omega)]
  congr 1 <;> omega

end Segment

section
variable {σ : Type}

/-- `act` loads the segment, or what comes of it before it exits. -/
structure Loads (io : OpenFile σ) (coffset : Nat) (s : Segment)
    (act : Load σ → Option (Step (Load σ) (Load σ))) : Prop where
  held : ∀ (l : Load σ) cs file', Delivers io.read (s.start io coffset l.file) s.filesz cs file' →
    (delivered cs).length = s.filesz → ∃ new,
      act l = some (.next ⟨file', l.stores ++ new⟩) ∧ written new = s.stored
  cut : ∀ (l : Load σ) cs file', Delivers io.read (s.start io coffset l.file) s.filesz cs file' →
    (delivered cs).length ≠ s.filesz → ∃ new,
      act l = some (.stop ⟨file', l.stores ++ new⟩) ∧
        written new ⊆ Set.Ico s.vaddr (s.vaddr + s.filesz)

variable (io : OpenFile σ) {fuel : Nat} (tmp : Page)

theorem readSection_loads (coffset scnptr : Nat) {vaddr size : Nat} (hfit : vaddr + size ≤ 2 ^ 32)
    (hlt : size < 2 ^ 32) (hfuel : size < fuel) :
    Loads io coffset ⟨some scnptr, vaddr, size, size⟩
      (readSection io fuel tmp coffset scnptr vaddr size) := by
  have hread (l : Load σ) (cs : List Call) (file' : σ)
      (hcs : Delivers io.read (io.lseek l.file ((coffset + scnptr) % 2 ^ 32)) size cs file') :
      ∃ new, readSection io fuel tmp coffset scnptr vaddr size l =
          some (if (delivered cs).length ≠ size then .stop ⟨file', l.stores ++ new⟩
            else .next ⟨file', l.stores ++ new⟩) ∧
        written new =
          Set.Ico vaddr (vaddr + (delivered cs).length + (delivered cs).length % 2) := by
    obtain ⟨hcalls, -, hle⟩ := hcs.bounds
    obtain ⟨r, new, pad, hr, hdone, hfile, hstores, hpad, hputs⟩ :=
      hcs.longRead vaddr hlt (by omega : cs.length < fuel) tmp l.stores
    have hdata : (delivered cs ++ pad).length = (delivered cs).length + (delivered cs).length % 2 := by
      rw [List.length_append, hpad, hdone]
    refine ⟨new, by rw [readSection, hr, Option.map_some, hdone, hfile, hstores], ?_⟩
    rw [hputs.range (by omega), hdata, Nat.add_assoc]
  constructor
  · intro l cs file' hcs hall
    have hall' : (delivered cs).length = size := hall
    obtain ⟨new, hr, hw⟩ := hread l cs file' hcs
    rw [if_neg (fun h => h hall')] at hr
    exact ⟨new, hr, by rw [hw, hall', Segment.stored_file rfl]⟩
  · intro l cs file' hcs hshort
    have hshort' : (delivered cs).length ≠ size := hshort
    obtain ⟨-, -, hle⟩ := hcs.bounds
    obtain ⟨new, hr, hw⟩ := hread l cs file' hcs
    rw [if_pos hshort'] at hr
    refine ⟨new, hr, ?_⟩
    rw [hw]
    dsimp only at hle ⊢
    exact Set.Ico_subset_Ico (Nat.le_refl _) (by omega)

theorem Load.memset_stores (l : Load σ) (offset : Nat) {size : Nat} (h : size + 1 < 2 ^ 32) :
    ∃ st, l.memset offset size = ⟨l.file, l.stores ++ [st]⟩ ∧
      st.range = Set.Ico offset (offset + (size + size % 2)) := by
  refine ⟨_, rfl, ?_⟩
  simp only [Store.range, farmemset, List.length_replicate]
  rw [Nat.mod_eq_of_lt (by omega)]

end

/-! ## Loaders -/

def Phdr.segment (p : Phdr) : Segment := ⟨some p.offset, p.vaddr, p.filesz, p.memsz⟩

def ElfH.loads (h : ElfH) : List Phdr := h.phdr.filter fun p => p.isLoad

/-- All that a loader puts into memory. -/
def Handle.segments : Handle → List Segment
  | .elf h => h.loads.map Phdr.segment
  | .coff h => [⟨some h.text.scnptr, h.text.vaddr, h.text.size, h.text.size⟩,
      ⟨some h.data.scnptr, h.data.vaddr, h.data.size, h.data.size⟩, ⟨none, h.bss.vaddr, 0, h.bss.size⟩]

section
variable {σ : Type} (io : OpenFile σ) {fuel : Nat} (tmp : Page)

theorem readPhdr_loads (coffset : Nat) {p : Phdr} (hb : p.segment.Bounded) (hfuel : p.filesz < fuel) :
    Loads io coffset p.segment (readPhdr io fuel tmp coffset p) := by
  obtain ⟨hfs, hfit, hsmall⟩ := hb
  dsimp only [Phdr.segment] at hfs hfit hsmall
  have hread := readSection_loads io tmp coffset p.offset
    (show p.vaddr + p.filesz ≤ 2 ^ 32 by omega) (by omega) hfuel
  constructor
  · intro l cs file' hcs hall
    obtain ⟨new, hact, hw⟩ := hread.held l cs file' hcs hall
    have hw' : written new = Set.Ico p.vaddr (p.vaddr + p.filesz + p.filesz % 2) :=
      hw.trans (Segment.stored_file rfl)
    by_cases hz : p.filesz < p.memsz
    · obtain ⟨st, hst, hrange⟩ := Load.memset_stores ⟨file', l.stores ++ new⟩
        ((p.vaddr + p.filesz) % 2 ^ 32) (show p.memsz - p.filesz + 1 < 2 ^ 32 by omega)
      rw [Nat.mod_eq_of_lt (by omega : p.vaddr + p.filesz < 2 ^ 32)] at hst hrange
      refine ⟨new ++ [st], ?_, ?_⟩
      · rw [readPhdr, hact]
        simp only [andThen, gt_iff_lt, hz, if_true]
        rw [Nat.mod_eq_of_lt (by omega : p.vaddr + p.filesz < 2 ^ 32), hst, List.append_assoc]
      · rw [written_append, hw', written_singleton, hrange]
        exact (Segment.stored_zeros (s := p.segment) hz).symm
    · refine ⟨new, ?_, ?_⟩
      · rw [readPhdr, hact]
        simp only [andThen, gt_iff_lt, hz, if_false]
      · rw [hw']
        exact (Segment.stored_file (s := p.segment) (show p.memsz = p.filesz by omega)).symm
  · intro l cs file' hcs hshort
    obtain ⟨new, hact, hw⟩ := hread.cut l cs file' hcs hshort
    exact ⟨new, by rw [readPhdr, hact, andThen], hw⟩

theorem memset_loads (coffset : Nat) {vaddr size : Nat} (h : size + 1 < 2 ^ 32) :
    Loads io coffset ⟨none, vaddr, 0, size⟩ fun l => some (.next (l.memset vaddr size)) := by
  constructor
  · intro l cs file' hcs _
    cases hcs with
    | short h0 => exact absurd rfl h0
    | full h0 => exact absurd rfl h0
    | done =>
      obtain ⟨st, hst, hrange⟩ := l.memset_stores vaddr h
      refine ⟨[st], by rw [hst]; rfl, ?_⟩
      rw [written_singleton, hrange, Segment.stored, Segment.lastLen]
      split
      · congr 1
        dsimp only
        omega
      · congr 1
        dsimp only at *
        omega
  · intro l cs file' hcs hshort
    have hle := hcs.bounds.2.2
    dsimp only at hle hshort
    omega

/-- One section after another, until the program exits. -/
def inOrder : List (Load σ → Option (Step (Load σ) (Load σ))) → Load σ →
    Option (Step (Load σ) (Load σ))
  | [], l => some (.next l)
  | act :: acts, l => andThen (act l) (inOrder acts)

theorem readElfSections_eq (offset : Nat) (ps : List Phdr) (l : Load σ) :
    readElfSections io fuel tmp offset ps l =
      inOrder ((ps.filter fun p => p.isLoad).map (readPhdr io fuel tmp offset)) l := by
  induction ps generalizing l with
  | nil => rfl
  | cons p ps ih =>
    rw [readElfSections]
    by_cases hp : p.isLoad
    · rw [if_neg (fun h => h hp), List.filter_cons_of_pos (by simpa using hp), List.map_cons, inOrder]
      congr 1
      exact funext ih
    · rw [if_pos hp, List.filter_cons_of_neg (by simpa using hp), ih]

/-- No read of the segments fails, and `ld` are those in front of the first one that
does not come completely. -/
inductive Loaded (io : OpenFile σ) (coffset : Nat) : σ → List Segment → List Segment → Prop where
  | nil (file : σ) : Loaded io coffset file [] []
  | held {file file' : σ} {s : Segment} {ss ld : List Segment} {cs : List Call} :
      Delivers io.read (s.start io coffset file) s.filesz cs file' →
      (delivered cs).length = s.filesz → Loaded io coffset file' ss ld →
      Loaded io coffset file (s :: ss) (s :: ld)
  | cut {file file' : σ} {s : Segment} {ss : List Segment} {cs : List Call} :
      Delivers io.read (s.start io coffset file) s.filesz cs file' →
      (delivered cs).length ≠ s.filesz → Loaded io coffset file (s :: ss) []

/-- A file has what its length says. -/
theorem exists_loaded (f : Bytes) (coffset : Nat) (ss : List Segment) :
    ∀ pos, ∃ ld, Loaded (fileOps f) coffset pos ss ld := by
  induction ss with
  | nil => exact fun pos => ⟨[], .nil pos⟩
  | cons s ss ih =>
    intro pos
    obtain ⟨cs, hcs, -⟩ := fileRead_delivers f s.filesz (s.start (fileOps f) coffset pos)
    by_cases hall : (delivered cs).length = s.filesz
    · obtain ⟨ld, hld⟩ := ih _
      exact ⟨s :: ld, .held hcs hall hld⟩
    · exact ⟨[], .cut hcs hall⟩

/-- A file that is long enough for all segments. -/
theorem loaded_all {f : Bytes} {coffset : Nat} {ss : List Segment}
    (h : ∀ s ∈ ss, ∀ pos, s.filesz ≤ f.length - s.start (fileOps f) coffset pos) :
    ∀ {pos : Nat}, Loaded (fileOps f) coffset pos ss ss := by
  induction ss with
  | nil => exact fun {pos} => .nil pos
  | cons s ss ih =>
    intro pos
    obtain ⟨cs, hcs, hdel⟩ := fileRead_delivers f s.filesz (s.start (fileOps f) coffset pos)
    have hlen := slice_length f (s.start (fileOps f) coffset pos) s.filesz
    have hle := h s List.mem_cons_self pos
    exact .held hcs (by rw [hdel]; omega) (ih fun t ht => h t (List.mem_cons_of_mem _ ht))

variable {io tmp}

theorem Loaded.mem {coffset : Nat} {file : σ} {ss ld : List Segment}
    (h : Loaded io coffset file ss ld) {s : Segment} (hs : s ∈ ld) : s ∈ ss := by
  induction h with
  | nil => exact hs
  | held _ _ _ ih =>
    rcases List.mem_cons.mp hs with rfl | hs
    · exact List.mem_cons_self
    · exact List.mem_cons_of_mem _ (ih hs)
  | cut => cases hs

/-- The stores reach all of what is loaded, and beyond it no more than the
segments have to hold. -/
structure Covers (ss ld : List Segment) (W : Set Nat) : Prop where
  lower : ∀ s ∈ ld, s.stored ⊆ W
  upper : ∀ x ∈ W, (∃ s ∈ ld, x ∈ s.stored) ∨ ∃ s ∈ ss, x ∈ s.range

/-- The state that a loader leaves behind, returned or not. -/
def lastState : Step (Load σ) (Load σ) → Load σ
  | .next l => l
  | .stop l => l

theorem inOrder_covers {coffset : Nat} {ss : List Segment}
    {acts : List (Load σ → Option (Step (Load σ) (Load σ)))}
    (h : List.Forall₂ (Loads io coffset) ss acts) (hfs : ∀ s ∈ ss, s.filesz ≤ s.memsz) :
    ∀ (l : Load σ) (ld : List Segment), Loaded io coffset l.file ss ld → ∃ r new,
      inOrder acts l = some r ∧ (lastState r).stores = l.stores ++ new ∧ Covers ss ld (written new) := by
  induction h with
  | nil =>
    intro l ld hld
    cases hld
    exact ⟨.next l, [], rfl, by simp [lastState], by simp, by simp⟩
  | @cons s act ss acts hact _ ih =>
    intro l ld hld
    rw [inOrder]
    cases hld with
    | held hcs hall hrest =>
      obtain ⟨new, hl, hw⟩ := hact.held l _ _ hcs hall
      obtain ⟨r, new', hr, hst, hlow, hup⟩ := ih (fun t ht => hfs t (List.mem_cons_of_mem _ ht))
        ⟨_, l.stores ++ new⟩ _ hrest
      rw [hl, andThen]
      refine ⟨r, new ++ new', hr, by rw [hst, List.append_assoc], ?_, ?_⟩
      · intro t ht
        rw [written_append, hw]
        rcases List.mem_cons.mp ht with rfl | ht
        · exact Set.subset_union_left
        · exact (hlow t ht).trans Set.subset_union_right
      · intro x hx
        rw [written_append, hw] at hx
        rcases hx with hx | hx
        · exact .inl ⟨s, List.mem_cons_self, hx⟩
        · rcases hup x hx with ⟨t, ht, hx⟩ | ⟨t, ht, hx⟩
          · exact .inl ⟨t, List.mem_cons_of_mem _ ht, hx⟩
          · exact .inr ⟨t, List.mem_cons_of_mem _ ht, hx⟩
    | cut hcs hshort =>
      obtain ⟨new, hl, hw⟩ := hact.cut l _ _ hcs hshort
      rw [hl, andThen]
      refine ⟨_, new, rfl, rfl, by simp, fun x hx => .inr ⟨s, List.mem_cons_self, ?_⟩⟩
      have hle := hfs s List.mem_cons_self
      exact Set.Ico_subset_Ico (Nat.le_refl _) (by omega) (hw hx)

/-- What either loader stores. -/
theorem readSections_covers (tmp : Page) {coffset : Nat} {h : Handle}
    (hb : ∀ s ∈ h.segments, s.Bounded) (hfuel : ∀ s ∈ h.segments, s.filesz < fuel) {l : Load σ}
    {ld : List Segment} (hld : Loaded io coffset l.file h.segments ld) :
    ∃ r new, h.readSections io fuel tmp coffset l = some r ∧
      (lastState r).stores = l.stores ++ new ∧ Covers h.segments ld (written new) := by
  have hfs : ∀ s ∈ h.segments, s.filesz ≤ s.memsz := fun s hs => (hb s hs).filesz
  cases h with
  | elf h =>
    have hall : List.Forall₂ (Loads io coffset) (h.loads.map Phdr.segment)
        (h.loads.map (readPhdr io fuel tmp coffset)) := by
      rw [List.forall₂_map_left_iff, List.forall₂_map_right_iff, List.forall₂_same]
      intro p hp
      have hmem : p.segment ∈ (Handle.elf h).segments := List.mem_map_of_mem hp
      exact readPhdr_loads io tmp coffset (hb _ hmem) (hfuel _ hmem)
    obtain ⟨r, new, hr, hrest⟩ := inOrder_covers hall hfs l ld hld
    exact ⟨r, new, by rw [Handle.readSections, readElfSections_eq]; exact hr, hrest⟩
  | coff h =>
    have htext : ⟨some h.text.scnptr, h.text.vaddr, h.text.size, h.text.size⟩ ∈
        (Handle.coff h).segments := by simp [Handle.segments]
    have hdata : ⟨some h.data.scnptr, h.data.vaddr, h.data.size, h.data.size⟩ ∈
        (Handle.coff h).segments := by simp [Handle.segments]
    obtain ⟨-, ht, ht'⟩ := hb _ htext
    obtain ⟨-, hd, hd'⟩ := hb _ hdata
    obtain ⟨-, -, hz⟩ := hb ⟨none, h.bss.vaddr, 0, h.bss.size⟩ (by simp [Handle.segments])
    dsimp only at ht' hd'
    have hall : List.Forall₂ (Loads io coffset) (Handle.coff h).segments
        [readSection io fuel tmp coffset h.text.scnptr h.text.vaddr h.text.size,
          readSection io fuel tmp coffset h.data.scnptr h.data.vaddr h.data.size,
          fun l => some (.next (l.memset h.bss.vaddr h.bss.size))] :=
      .cons (readSection_loads io tmp coffset _ ht (by omega) (hfuel _ htext))
        (.cons (readSection_loads io tmp coffset _ hd (by omega) (hfuel _ hdata))
          (.cons (memset_loads io coffset hz) .nil))
    obtain ⟨r, new, hr, hrest⟩ := inOrder_covers hall hfs l ld hld
    refine ⟨r, new, ?_, hrest⟩
    rw [← hr]
    rfl

end

/-! ## The block -/

theorem pageAlign_eq {n : Nat} (h : n + 4095 < 2 ^ 32) : pageAlign n = (n + 4095) / 4096 * 4096 := by
  have hmask : (2 ^ 32 - 4096 : Nat) = (2 ^ 20 - 1) <<< 12 := by decide
  have hshift (m : Nat) : m / 4096 * 4096 = (m >>> 12) <<< 12 := by
    rw [Nat.shiftLeft_eq, Nat.shiftRight_eq_div_pow]
  rw [pageAlign, show n + 4096 - 1 = n + 4095 by omega, Nat.mod_eq_of_lt h, hmask, hshift]
  apply Nat.eq_of_testBit_eq
  intro i
  rw [Nat.testBit_and, Nat.testBit_shiftLeft, Nat.testBit_shiftLeft, Nat.testBit_two_pow_sub_one,
    Nat.testBit_shiftRight]
  by_cases hi : 12 ≤ i
  · rw [show 12 + (i - 12) = i by omega]
    by_cases h32 : i < 32
    · simp [hi, show i - 12 < 20 by omega]
    · rw [Nat.testBit_lt_two_pow (Nat.lt_of_lt_of_le h (Nat.pow_le_pow_right (by omega) (by omega)))]
      simp
  · simp [hi]

/-- An accepted COFF header. -/
theorem readCoffHeaders_ok {f : Bytes} {pos pos' : Nat} {h : CoffH}
    (hh : readCoffHeaders f pos = .ok (h, pos')) :
    ∃ scns, scns = slice f (if u16 (slice f pos 20) 16 > 28 then
        lseekCur (pos + 48) (u16 (slice f pos 20) 16 - 28) else pos + 48) 120 ∧
      28 ≤ u16 (slice f pos 20) 16 ∧
      h.text = Scn.parse (slice scns 0 40) ∧ h.data = Scn.parse (slice scns 40 40) ∧
      h.bss = Scn.parse (slice scns 80 40) ∧ h.length = (h.bss.vaddr + h.bss.size) % 2 ^ 32 := by
  unfold readCoffHeaders at hh
  dsimp only at hh
  generalize (if u16 (slice f pos 20) 16 > 28 then lseekCur (pos + 48) (u16 (slice f pos 20) 16 - 28)
    else pos + 48) = q at hh ⊢
  split at hh
  · cases hh
  split at hh
  · cases hh
  next hopt =>
  split at hh
  · cases hh
  split at hh
  · cases hh
  cases hh
  exact ⟨_, rfl, by omega, rfl, rfl, rfl, rfl⟩

/-- `n` program headers from `start` on. -/
def phdrTable (f : Bytes) (start n : Nat) : List Phdr :=
  (List.range n).map fun i => Phdr.parse (slice f (start + i * 0x20) 0x20)

/-- Where the program headers of an ELF file at `offset` are looked for. -/
def phdrStart (f : Bytes) (offset : Nat) : Nat :=
  if u32 f (offset + 0x1c) > 0x34 then lseekCur (offset + 0x34) (u32 f (offset + 0x1c) - 0x34)
  else offset + 0x34

/-- The program headers are those of the table that the ELF header names: it stands at
`e_phoff`, unless that is inside the header or nowhere that `lseek` can go. -/
structure ElfH.FromTable (f : Bytes) (offset : Nat) (h : ElfH) : Prop where
  phdr : h.phdr = phdrTable f (phdrStart f offset) (u16 f (offset + 0x2c))
  start : 0x34 ≤ u32 f (offset + 0x1c) → offset + u32 f (offset + 0x1c) < 2 ^ 31 →
    phdrStart f offset = offset + u32 f (offset + 0x1c)

theorem phdrStart_eq {f : Bytes} {offset : Nat} (h1 : 0x34 ≤ u32 f (offset + 0x1c))
    (h2 : offset + u32 f (offset + 0x1c) < 2 ^ 31) :
    phdrStart f offset = offset + u32 f (offset + 0x1c) := by
  unfold phdrStart
  split
  · rw [lseekCur, toInt32_of_lt (by omega), if_pos (by omega)]
    omega
  · omega

/-- An accepted ELF header. -/
theorem readElfHeaders_ok {f : Bytes} {pos pos' : Nat} {h : ElfH}
    (hh : readElfHeaders f pos = .ok (h, pos')) :
    h.FromTable f pos ∧ ∃ last, elfHull h.phdr 0 0 = .ok (h.va, last) ∧
      h.length = (last + 2 ^ 32 - h.va) % 2 ^ 32 := by
  have hphoff : u32 (slice f pos 0x34) 0x1c = u32 f (pos + 0x1c) := u32_slice (by decide)
  have hphnum : u16 (slice f pos 0x34) 0x2c = u16 f (pos + 0x2c) := by
    rw [u16, u16, slice_slice (by decide)]
  have htable (q : Nat) : (List.range (u16 f (pos + 0x2c))).map (fun i =>
      Phdr.parse (slice (slice f q (0x20 * u16 f (pos + 0x2c))) (i * 0x20) 0x20)) =
      phdrTable f q (u16 f (pos + 0x2c)) := by
    refine List.map_congr_left fun i hi => ?_
    have hlt := List.mem_range.mp hi
    rw [slice_slice (by omega)]
  unfold readElfHeaders at hh
  dsimp only at hh
  rw [hphoff, hphnum, htable, ← phdrStart] at hh
  split at hh
  · cases hh
  split at hh
  · cases hh
  split at hh
  · cases hh
  split at hh
  · cases hh
  split at hh
  · cases hh
  cases hull : elfHull (phdrTable f (phdrStart f pos) (u16 f (pos + 0x2c))) 0 0 with
  | error e =>
    rw [hull] at hh
    cases hh
  | ok r =>
    rw [hull] at hh
    cases hh
    exact ⟨⟨rfl, phdrStart_eq⟩, r.2, hull, rfl⟩

theorem readHeaders_ok {ops : LdOps} {f : Bytes} {pos pos' : Nat} {h : Handle}
    (hh : ops.readHeaders f pos = .ok (h, pos')) :
    (∃ c, readCoffHeaders f pos = .ok (c, pos') ∧ h = .coff c) ∨
      ∃ e, readElfHeaders f pos = .ok (e, pos') ∧ h = .elf e := by
  have hmap {α : Type} {x : Except HeaderError α} {g : α → Handle × Nat}
      (hx : x.map g = .ok (h, pos')) : ∃ a, x = .ok a ∧ g a = (h, pos') := by
    cases x with
    | error e => cases hx
    | ok a => exact ⟨a, rfl, Except.ok.inj hx⟩
  cases ops with
  | coff =>
    obtain ⟨⟨c, q⟩, hr, he⟩ := hmap hh
    obtain ⟨rfl, rfl⟩ := Prod.mk.inj he
    exact .inl ⟨c, hr, rfl⟩
  | elf =>
    obtain ⟨⟨e, q⟩, hr, he⟩ := hmap hh
    obtain ⟨rfl, rfl⟩ := Prod.mk.inj he
    exact .inr ⟨e, hr, rfl⟩

/-- The addresses of the header readers are 32 bits wide. -/
theorem readHeaders_vaddr {ops : LdOps} {f : Bytes} {pos pos' : Nat} {h : Handle}
    (hh : ops.readHeaders f pos = .ok (h, pos')) : ∀ s ∈ h.segments, s.vaddr < 2 ^ 32 := by
  intro s hs
  rcases readHeaders_ok hh with ⟨c, hc, rfl⟩ | ⟨e, he, rfl⟩
  · obtain ⟨scns, -, -, h1, h2, h3, -⟩ := readCoffHeaders_ok hc
    simp only [Handle.segments, h1, h2, h3, List.mem_cons, List.not_mem_nil, or_false] at hs
    rcases hs with rfl | rfl | rfl
    · exact u32_lt _ _
    · exact u32_lt _ _
    · exact u32_lt _ _
  · obtain ⟨htable, -⟩ := readElfHeaders_ok he
    obtain ⟨p, hp, rfl⟩ := List.mem_map.mp hs
    rw [ElfH.loads, htable.phdr] at hp
    obtain ⟨i, -, rfl⟩ := List.mem_map.mp (List.mem_filter.mp hp).1
    exact u32_lt _ _

theorem elfHull_lt {ps : List Phdr} (hps : ∀ p ∈ ps, p.vaddr < 2 ^ 32) :
    ∀ {first last : Nat} {r : Nat × Nat}, first < 2 ^ 32 → elfHull ps first last = .ok r →
      r.1 < 2 ^ 32 := by
  induction ps with
  | nil =>
    rintro first last r hfirst ⟨⟩
    exact hfirst
  | cons p ps ih =>
    intro first last r hfirst hr
    have hrest := fun q hq => hps q (List.mem_cons_of_mem p hq)
    rw [elfHull] at hr
    split at hr
    · exact ih hrest hfirst hr
    · split at hr
      · cases hr
      · refine ih hrest ?_ hr
        split
        · exact hps p List.mem_cons_self
        · exact hfirst

theorem readHeaders_getVa {ops : LdOps} {f : Bytes} {pos pos' : Nat} {h : Handle}
    (hh : ops.readHeaders f pos = .ok (h, pos')) : h.getVa < 2 ^ 32 := by
  rcases readHeaders_ok hh with ⟨c, hc, rfl⟩ | ⟨e, he, rfl⟩
  · exact Nat.two_pow_pos 32
  · obtain ⟨htable, last, hull, -⟩ := readElfHeaders_ok he
    refine elfHull_lt (fun p hp => ?_) (Nat.two_pow_pos 32) hull
    rw [htable.phdr] at hp
    obtain ⟨i, -, rfl⟩ := List.mem_map.mp hp
    exact u32_lt _ _

/-- From `va` up to the end of the block, linear addresses follow offsets. -/
theorem linear_mem_iff {memLin va n x : Nat} (hva : va ≤ x) (hx : x ≤ va + n) (h32 : va ≤ 2 ^ 32)
    (hn : n < 2 ^ 32) (hlin : memLin + n ≤ 2 ^ 32) :
    (memBase memLin va + x) % 2 ^ 32 ∈ Set.Ico memLin (memLin + n) ↔ x < va + n := by
  have hmod : (memBase memLin va + x) % 2 ^ 32 = (memLin + (x - va)) % 2 ^ 32 := by
    rw [memBase, Nat.mod_add_mod]
    have hadd : memLin + 2 ^ 32 - va + x = memLin + (x - va) + 2 ^ 32 := by omega
    rw [hadd, Nat.add_mod_right]
  rw [hmod, Set.mem_Ico]
  by_cases hend : memLin + (x - va) < 2 ^ 32
  · rw [Nat.mod_eq_of_lt hend]
    omega
  · -- the byte behind a block that ends with the address space
    have h0 : memLin + (x - va) = 2 ^ 32 := by omega
    rw [h0, Nat.mod_self]
    omega

/-- The block has room for everything between `va` and `va + length`. -/
theorem allocSize_bounds {n : Nat} (h : max n 0x10000 + 4095 < 2 ^ 32) :
    n ≤ allocSize n ∧ allocSize n < 2 ^ 32 := by
  rw [allocSize, pageAlign_eq h]
  omega

/-- As long as no read fails, all stores of a loader stay inside the block exactly when
no section that comes completely ends with the block and has an odd last stretch. -/
theorem stores_inside_iff {σ : Type} {io : OpenFile σ} {ops : LdOps} {f : Bytes}
    {pos pos' : Nat} {h : Handle}
    (hh : ops.readHeaders f pos = .ok (h, pos')) (hsz : ∀ s ∈ h.segments, s.filesz ≤ s.memsz)
    (hin : ∀ s ∈ h.segments, s.range ⊆ Set.Ico h.getVa (h.getVa + h.getLength))
    (hva : h.getVa + h.getLength ≤ 2 ^ 32) (hround : max h.getLength 0x10000 + 4095 < 2 ^ 32)
    {memLin : Nat} (hlin : memLin + allocSize h.getLength ≤ 2 ^ 32) (tmp : Page)
    {coffset : Nat} {file : σ}
    {ld : List Segment} (hld : Loaded io coffset file h.segments ld) :
    ∃ fuel r, h.readSections io fuel tmp coffset ⟨file, []⟩ = some r ∧
      ((∀ x ∈ written (lastState r).stores, (memBase memLin h.getVa + x) % 2 ^ 32 ∈
          Set.Ico memLin (memLin + allocSize h.getLength)) ↔
        ∀ s ∈ ld, ¬ (s.vaddr + s.memsz = h.getVa + allocSize h.getLength ∧ s.lastLen % 2 = 1)) := by
  have hlen : h.getLength + 4095 < 2 ^ 32 := by omega
  obtain ⟨hroom, halloc⟩ := allocSize_bounds hround
  clear hround
  have hvaddr := readHeaders_vaddr hh
  have hends : ∀ s ∈ h.segments, s.memsz ≠ 0 →
      h.getVa ≤ s.vaddr ∧ s.vaddr + s.memsz ≤ h.getVa + h.getLength := fun s hs h0 =>
    (Set.Ico_subset_Ico_iff (by omega)).mp (hin s hs)
  have hb : ∀ s ∈ h.segments, s.Bounded := by
    intro s hs
    have h1 := hvaddr s hs
    have h2 := hsz s hs
    by_cases h0 : s.memsz = 0
    · exact ⟨h2, by omega, by omega⟩
    · have h3 := hends s hs h0
      exact ⟨h2, by omega, by omega⟩
  have hfuel : ∀ s ∈ h.segments, s.filesz < 2 ^ 32 := by
    intro s hs
    have h1 := (hb s hs).filesz
    have h2 := (hb s hs).small
    omega
  obtain ⟨r, new, hr, hst, hlow, hup⟩ := readSections_covers tmp hb hfuel (l := ⟨file, []⟩) hld
  rw [List.nil_append] at hst
  refine ⟨2 ^ 32, r, hr, ?_⟩
  rw [hst]
  have hlinear {x : Nat} (h1 : h.getVa ≤ x) (h2 : x ≤ h.getVa + allocSize h.getLength) :
      (memBase memLin h.getVa + x) % 2 ^ 32 ∈ Set.Ico memLin (memLin + allocSize h.getLength) ↔
        x < h.getVa + allocSize h.getLength :=
    linear_mem_iff h1 h2 (by omega) (by omega) hlin
  constructor
  · -- the rounding byte is stored
    rintro hall s hs ⟨hend, hodd⟩
    have hmem := hld.mem hs
    have hfs := hsz s hmem
    have h0 : s.memsz ≠ 0 := by
      intro h0
      rw [Segment.lastLen, if_neg (by omega)] at hodd
      omega
    obtain ⟨h1, h2⟩ := hends s hmem h0
    have hx : s.vaddr + s.memsz ∈ s.stored := Set.mem_Ico.mpr ⟨by omega, by omega⟩
    have := (hlinear (by omega) (by omega)).mp (hall _ (hlow s hs hx))
    omega
  · intro hcond x hx
    rcases hup x hx with ⟨s, hs, hxs⟩ | ⟨s, hs, hxs⟩
    · have hmem := hld.mem hs
      have hfs := hsz s hmem
      have hc := hcond s hs
      obtain ⟨hx1, hx2⟩ := Set.mem_Ico.mp hxs
      have h0 : s.memsz ≠ 0 := by
        intro h0
        rw [Segment.lastLen, if_neg (by omega)] at hx2
        omega
      obtain ⟨h1, h2⟩ := hends s hmem h0
      exact (hlinear (by omega) (by omega)).mpr (by omega)
    · obtain ⟨hx1, hx2⟩ := Set.mem_Ico.mp hxs
      obtain ⟨h1, h2⟩ := hends s hs (by omega)
      exact (hlinear (by omega) (by omega)).mpr (by omega)

def scnBytes (vaddr size scnptr : Nat) : Bytes :=
  List.replicate 12 0 ++ toBytes 4 vaddr ++ toBytes 4 size ++ toBytes 4 scnptr ++
    List.replicate 16 0

/-- A COFF file with a byte of text and a byte of data. -/
def smallCoff (vaddr size : Nat) : Bytes :=
  [0x4c, 1, 3, 0] ++ List.replicate 12 0 ++ [28, 0, 0, 0] ++ List.replicate 28 0 ++
    scnBytes 0x1000 1 168 ++ scnBytes 0x2000 1 169 ++ scnBytes vaddr size 0 ++ [0xc3, 0]

def smallHandle (vaddr size : Nat) : Handle :=
  .coff { length := vaddr + size, entry := 0, text := ⟨0x1000, 1, 168⟩, data := ⟨0x2000, 1, 169⟩
          bss := ⟨vaddr, size, 0⟩ }

theorem smallHandle_sizes (vaddr size : Nat) :
    ∀ s ∈ (smallHandle vaddr size).segments, s.filesz ≤ s.memsz := by
  simp [smallHandle, Handle.segments]

theorem smallHandle_range {vaddr size : Nat} (h : 0x2001 ≤ vaddr) :
    ∀ s ∈ (smallHandle vaddr size).segments, s.range ⊆ Set.Ico 0 (0 + (vaddr + size)) := by
  intro s hs
  simp only [smallHandle, Handle.segments, List.mem_cons, List.not_mem_nil, or_false] at hs
  rcases hs with rfl | rfl | rfl <;>
    exact Set.Ico_subset_Ico (by omega) (by dsimp only; omega)

/-- The file holds both bytes. -/
theorem smallHandle_loaded (vaddr size : Nat) :
    Loaded (fileOps (smallCoff vaddr size)) 0 168 (smallHandle vaddr size).segments
      (smallHandle vaddr size).segments := by
  have hlen : (smallCoff vaddr size).length = 170 := by simp [smallCoff, scnBytes, toBytes_length]
  refine loaded_all fun s hs pos => ?_
  simp only [smallHandle, Handle.segments, List.mem_cons, List.not_mem_nil, or_false] at hs
  rw [hlen]
  rcases hs with rfl | rfl | rfl
  · exact (by decide : 1 ≤ 170 - 168)
  · exact (by decide : 1 ≤ 170 - 169)
  · exact Nat.zero_le _

/-- A byte of bss at the end of the first 64K: the byte behind the block is
cleared as well. -/
theorem bss_overruns_block :
    LdOps.coff.readHeaders (smallCoff 0xffff 1) 0 = .ok (smallHandle 0xffff 1, 168) ∧
      (∀ s ∈ (smallHandle 0xffff 1).segments, s.filesz ≤ s.memsz) ∧
      (∀ s ∈ (smallHandle 0xffff 1).segments, s.range ⊆ Set.Ico 0 (0 + 0x10000)) ∧
      ∃ fuel r, (smallHandle 0xffff 1).readSections (fileOps (smallCoff 0xffff 1)) fuel blankPage 0
          ⟨168, []⟩ = some r ∧
        ¬ ∀ x ∈ written (lastState r).stores, (memBase 0x400000 0 + x) % 2 ^ 32 ∈
          Set.Ico 0x400000 (0x400000 + allocSize 0x10000) := by
  have hb : ∀ s ∈ (smallHandle 0xffff 1).segments, s.Bounded := by
    intro s hs
    simp only [smallHandle, Handle.segments, List.mem_cons, List.not_mem_nil, or_false] at hs
    rcases hs with rfl | rfl | rfl <;> exact ⟨by decide, by decide, by decide⟩
  have hfuel : ∀ s ∈ (smallHandle 0xffff 1).segments, s.filesz < 2 := by decide
  obtain ⟨r, new, hr, hst, hlow, -⟩ :=
    readSections_covers blankPage hb hfuel (l := ⟨168, []⟩) (smallHandle_loaded 0xffff 1)
  refine ⟨by decide +kernel, smallHandle_sizes _ _, smallHandle_range (by decide), _, r, hr,
    fun hall => ?_⟩
  have hbss : ⟨none, 0xffff, 0, 1⟩ ∈ (smallHandle 0xffff 1).segments := by decide
  have hx : 0x10000 ∈ (⟨none, 0xffff, 0, 1⟩ : Segment).stored :=
    Set.mem_Ico.mpr ⟨by decide, by decide⟩
  rw [hst] at hall
  exact absurd (hall _ (hlow _ hbss hx)) (by decide +kernel)

theorem stores_inside_small :
    ∃ fuel r, (smallHandle 0x3000 1).readSections (fileOps (smallCoff 0x3000 1)) fuel blankPage 0
        ⟨168, []⟩ = some r ∧
      ∀ x ∈ written (lastState r).stores, (memBase 0x400000 0 + x) % 2 ^ 32 ∈
        Set.Ico 0x400000 (0x400000 + allocSize 0x3001) := by
  have hh : LdOps.coff.readHeaders (smallCoff 0x3000 1) 0 = .ok (smallHandle 0x3000 1, 168) := by
    decide +kernel
  have hlin : 0x400000 + allocSize (smallHandle 0x3000 1).getLength ≤ 2 ^ 32 := by decide +kernel
  obtain ⟨fuel, r, hr, hiff⟩ := stores_inside_iff hh (smallHandle_sizes _ _)
    (smallHandle_range (by decide)) (by decide +kernel) (by decide +kernel) hlin blankPage
    (smallHandle_loaded 0x3000 1)
  exact ⟨fuel, r, hr, hiff.mpr (by decide +kernel)⟩

end Djstub
