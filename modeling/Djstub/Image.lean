import Djstub.Hull

/-! What stands in memory when a loader has returned: the bytes of the file where
its headers want them, and zeros behind them. Every copy is rounded up to a word,
so it may leave a byte of the buffer in the next segment, which is loaded later. -/

namespace Djstub

open Bytes Loop Stores

/-! ## One part -/

/-- `act` puts one part in place and goes on. -/
def Sets {σ : Type} (q : Part) (act : Load σ → Option (Step (Load σ) (Load σ))) : Prop :=
  ∀ l : Load σ, ∃ file new, act l = some (.next ⟨file, l.stores ++ new⟩) ∧ Image 32 new [q]

theorem readSection_sets {f : Bytes} {fuel coffset scnptr start size : Nat} (hfuel : rounds f ≤ fuel)
    (tmp : Page) {vaddr : Nat}
    (hfile : size = 0 ∨ (coffset + scnptr) % 2 ^ 32 = start ∧ start < 2 ^ 31 ∧ start + size ≤ f.length)
    (hfit : vaddr + size < 2 ^ 32) :
    Sets ⟨vaddr, slice f start size⟩
      (readSection (fileOps f) fuel tmp coffset scnptr vaddr size) := by
  intro l
  obtain ⟨r, new, pad, hr, hdone, -, hstores, hpad, hputs⟩ := longRead_file hfuel tmp
    (lseek l.file ((coffset + scnptr) % 2 ^ 32)) vaddr (show size < 2 ^ 32 by omega) l.stores
  have hall : r.done = size ∧
      slice f (lseek l.file ((coffset + scnptr) % 2 ^ 32)) size = slice f start size := by
    rcases hfile with rfl | ⟨hstart, hseek, hin⟩
    · exact ⟨by rw [hdone, Nat.zero_min], by simp [slice]⟩
    · rw [lseek, hstart, if_pos hseek] at hdone ⊢
      exact ⟨by omega, rfl⟩
  obtain ⟨hsize, hslice⟩ := hall
  have hlen : (slice f start size).length = size := by
    rw [← hslice, slice_length, ← hdone, hsize]
  rw [hslice] at hputs
  refine ⟨r.file, new, ?_, hputs.image (by rw [hpad, hsize, hlen]) (by rw [hlen]; exact hfit)⟩
  have hr' : longRead (fileOps f) fuel tmp ((fileOps f).lseek l.file ((coffset + scnptr) % 2 ^ 32))
      vaddr size l.stores = some r := hr
  rw [readSection, hr', Option.map_some, if_neg (fun h => h hsize), hstores]

theorem memset_sets {σ : Type} {vaddr size : Nat} (hfit : vaddr + size < 2 ^ 32)
    (hround : size + 1 < 2 ^ 32) :
    Sets ⟨vaddr, List.replicate size 0⟩ fun l : Load σ => some (.next (l.memset vaddr size)) := by
  intro l
  refine ⟨l.file, [farmemset vaddr 0 ((size + size % 2) % 2 ^ 32) (even_rounded size)], rfl, ?_⟩
  have hputs : Puts 32 [farmemset vaddr 0 ((size + size % 2) % 2 ^ 32) (even_rounded size)] vaddr _ :=
    .single (Nat.mod_eq_of_lt (by omega : vaddr < 2 ^ 32)).symm
  have hdata : (farmemset vaddr 0 ((size + size % 2) % 2 ^ 32) (even_rounded size)).data =
      List.replicate size 0 ++ List.replicate (size % 2) 0 := by
    show List.replicate ((size + size % 2) % 2 ^ 32) 0 = _
    rw [Nat.mod_eq_of_lt (by omega), List.replicate_add]
  rw [hdata] at hputs
  exact hputs.image (by rw [List.length_replicate, List.length_replicate])
    (by rw [List.length_replicate]; exact hfit)

/-- What a program header asks for. -/
def Phdr.part (f : Bytes) (offset : Nat) (p : Phdr) : Part :=
  ⟨p.vaddr, slice f (offset + p.offset) p.filesz ++ List.replicate (p.memsz - p.filesz) 0⟩

/-- The file bytes and the zeros of a segment meet, so the zeros cover the byte
that rounds up the file bytes. -/
theorem readPhdr_sets {f : Bytes} {fuel offset : Nat} {p : Phdr} (hfuel : rounds f ≤ fuel)
    (tmp : Page) (hsize : p.filesz ≤ p.memsz)
    (hfile : p.filesz = 0 ∨ offset + p.offset + p.filesz ≤ f.length) (hf : f.length < 2 ^ 31)
    (hfit : p.vaddr + p.memsz < 2 ^ 32) (hround : p.memsz - p.filesz + 1 < 2 ^ 32) :
    Sets (p.part f offset) (readPhdr (fileOps f) fuel tmp offset p) := by
  have hread : Sets ⟨p.vaddr, slice f (offset + p.offset) p.filesz⟩
      (readSection (fileOps f) fuel tmp offset p.offset p.vaddr p.filesz) :=
    readSection_sets hfuel tmp (hfile.imp_right fun h => ⟨by omega, by omega, h⟩) (by omega)
  have hlen : (slice f (offset + p.offset) p.filesz).length = p.filesz := by
    rw [slice_length]
    omega
  intro l
  obtain ⟨pos, new, hact, himg⟩ := hread l
  by_cases hz : p.filesz < p.memsz
  · have hzeros : Sets ⟨p.vaddr + p.filesz, List.replicate (p.memsz - p.filesz) 0⟩
        fun l : Load Nat => some (.next (l.memset (p.vaddr + p.filesz) (p.memsz - p.filesz))) :=
      memset_sets (by omega) hround
    obtain ⟨pos', new', hact', himg'⟩ := hzeros ⟨pos, l.stores ++ new⟩
    refine ⟨pos', new ++ new', ?_, ?_⟩
    · rw [readPhdr, hact]
      simp only [andThen, gt_iff_lt, hz, if_true]
      rw [Nat.mod_eq_of_lt (by omega), ← List.append_assoc]
      exact hact'
    · have hboth : Image 32 (new ++ new') [⟨p.vaddr, slice f (offset + p.offset) p.filesz⟩,
          ⟨p.vaddr + p.filesz, List.replicate (p.memsz - p.filesz) 0⟩] := by
        refine himg.cons himg' ?_ ?_ (by dsimp only; omega)
        · intro r hr
          rw [List.mem_singleton.mp hr]
          exact Nat.le_add_right _ _
        · intro r hr
          rw [List.mem_singleton.mp hr, Part.range, Part.range, hlen]
          exact Set.Ico_disjoint_Ico_same
      exact hboth.join (by rw [hlen])
  · refine ⟨pos, new, ?_, ?_⟩
    · rw [readPhdr, hact]
      simp only [andThen, gt_iff_lt, hz, if_false]
    · rw [Phdr.part, show p.memsz - p.filesz = 0 by omega, List.replicate_zero, List.append_nil]
      exact himg

/-! ## All parts -/

/-- Parts in ascending order that do not overlap are all in place in the end. -/
theorem inOrder_image {σ : Type} {parts : List Part}
    {acts : List (Load σ → Option (Step (Load σ) (Load σ)))}
    (h : List.Forall₂ Sets parts acts) (hfit : ∀ q ∈ parts, q.addr + q.data.length ≤ 2 ^ 32) :
    parts.Pairwise (fun q r => q.addr ≤ r.addr) →
      parts.Pairwise (fun q r => Disjoint q.range r.range) →
      ∀ l : Load σ, ∃ file new, inOrder acts l = some (.next ⟨file, l.stores ++ new⟩) ∧
        Image 32 new parts := by
  induction h with
  | nil => exact fun _ _ l => ⟨l.file, [], by simp [inOrder], .nil 32⟩
  | @cons q act parts acts hact _ ih =>
    intro hasc hdisj l
    rw [List.pairwise_cons] at hasc hdisj
    obtain ⟨pos, new, hl, himg⟩ := hact l
    obtain ⟨pos', new', hr, himg'⟩ := ih (fun r hr => hfit r (List.mem_cons_of_mem _ hr)) hasc.2
      hdisj.2 ⟨pos, l.stores ++ new⟩
    refine ⟨pos', new ++ new', ?_, himg.cons himg' hasc.1 hdisj.1 (hfit q List.mem_cons_self)⟩
    rw [inOrder, hl, andThen, hr, List.append_assoc]

/-! ## ELF -/

/-- The header describes a segment of the file that no sum of 32 bits wraps for, the
length of the zeros rounded up included. -/
structure Phdr.Sound (f : Bytes) (offset : Nat) (p : Phdr) : Prop where
  size : p.filesz ≤ p.memsz
  file : Set.Ico (offset + p.offset) (offset + p.offset + p.filesz) ⊆ Set.Ico 0 f.length
  fits : p.vaddr + p.memsz < 2 ^ 32
  round : p.memsz - p.filesz + 1 < 2 ^ 32

theorem Phdr.Sound.held {f : Bytes} {offset : Nat} {p : Phdr} (h : p.Sound f offset) :
    p.filesz = 0 ∨ offset + p.offset + p.filesz ≤ f.length := by
  by_cases h0 : p.filesz = 0
  · exact .inl h0
  · exact .inr ((Set.Ico_subset_Ico_iff (by omega)).mp h.file).2

theorem Phdr.Sound.slice_length {f : Bytes} {offset : Nat} {p : Phdr} (h : p.Sound f offset) :
    (slice f (offset + p.offset) p.filesz).length = p.filesz := by
  have := h.held
  rw [Bytes.slice_length]
  omega

theorem Phdr.Sound.part_file {f : Bytes} {offset : Nat} {p : Phdr} (h : p.Sound f offset) {j : Nat}
    (hj : j < p.filesz) : (p.part f offset).data[j]? = f[offset + p.offset + j]? := by
  rw [Phdr.part, List.getElem?_append_left (by rw [h.slice_length]; exact hj), slice_getElem?,
    if_pos hj]

theorem Phdr.Sound.part_zero {f : Bytes} {offset : Nat} {p : Phdr} (h : p.Sound f offset) {j : Nat}
    (h1 : p.filesz ≤ j) (h2 : j < p.memsz) : (p.part f offset).data[j]? = some 0 := by
  rw [Phdr.part, List.getElem?_append_right (by rw [h.slice_length]; exact h1), h.slice_length]
  exact List.getElem?_replicate_of_lt (by omega)

theorem Phdr.Sound.part_length {f : Bytes} {offset : Nat} {p : Phdr} (h : p.Sound f offset) :
    (p.part f offset).data.length = p.memsz := by
  have := h.size
  rw [Phdr.part, List.length_append, h.slice_length, List.length_replicate]
  omega

theorem Phdr.Sound.part_range {f : Bytes} {offset : Nat} {p : Phdr} (h : p.Sound f offset) :
    (p.part f offset).range = p.segment.range := by
  rw [Part.range, h.part_length]
  rfl

/-- Where a section stands in the file. -/
def Scn.start (coffset : Nat) (s : Scn) : Int := coffset + toInt32 s.scnptr

/-- The header describes a section with bytes of the file. -/
def Scn.Inside (f : Bytes) (coffset : Nat) (s : Scn) : Prop :=
  s.size = 0 ∨ 0 ≤ s.start coffset ∧ s.start coffset + s.size ≤ f.length

def Scn.range (s : Scn) : Set Nat := Set.Ico s.vaddr (s.vaddr + s.size)

/-- Sections that can be put in place together: they come in ascending order, do not
overlap, and the file has their bytes. -/
def Handle.Sound (f : Bytes) (offset : Nat) : Handle → Prop
  | .elf h => (∀ p ∈ h.loads, p.Sound f offset) ∧
      (h.loads.Pairwise fun p q => p.vaddr ≤ q.vaddr) ∧
      h.loads.Pairwise fun p q => Disjoint p.segment.range q.segment.range
  | .coff h => (∀ s ∈ [h.text, h.data, h.bss], s.vaddr < 2 ^ 31 ∧ s.size < 2 ^ 31) ∧
      ([h.text, h.data, h.bss].Pairwise fun s t => s.vaddr ≤ t.vaddr) ∧
      ([h.text, h.data, h.bss].Pairwise fun s t => Disjoint s.range t.range) ∧
      ∀ s ∈ [h.text, h.data], s.Inside f offset

/-- The sections that the header asks for stand in memory `m`: the bytes of the file,
with zeros behind them. -/
def Handle.InPlace (f : Bytes) (offset : Nat) (m : Memory 32) : Handle → Prop
  | .elf h => ∀ p ∈ h.loads,
      (∀ j < p.filesz, f[offset + p.offset + j]? = some (m (BitVec.ofNat 32 (p.vaddr + j)))) ∧
      ∀ j, p.filesz ≤ j → j < p.memsz → m (BitVec.ofNat 32 (p.vaddr + j)) = 0
  | .coff h =>
      (∀ s ∈ [h.text, h.data], ∀ j < s.size,
        f[(s.start offset).toNat + j]? = some (m (BitVec.ofNat 32 (s.vaddr + j)))) ∧
      ∀ j < h.bss.size, m (BitVec.ofNat 32 (h.bss.vaddr + j)) = 0

theorem readElfSections_image {f : Bytes} {fuel offset : Nat} {h : ElfH} (hfuel : rounds f ≤ fuel)
    (hf : f.length < 2 ^ 31)
    (hsound : ∀ p ∈ h.loads, p.Sound f offset) (hasc : h.loads.Pairwise fun p q => p.vaddr ≤ q.vaddr)
    (hdisj : h.loads.Pairwise fun p q => Disjoint p.segment.range q.segment.range)
    (tmp : Page) (pos : Nat) :
    ∃ l, (Handle.elf h).readSections (fileOps f) fuel tmp offset ⟨pos, []⟩ = some (.next l) ∧
      ∀ m : Memory 32, (Handle.elf h).InPlace f offset (applyAll l.stores m) ∧
        ∀ x < 2 ^ 32, (∀ p ∈ h.loads, x ∉ Set.Icc p.vaddr (p.vaddr + p.memsz)) →
          applyAll l.stores m (BitVec.ofNat 32 x) = m (BitVec.ofNat 32 x) := by
  have hall : List.Forall₂ Sets (h.loads.map fun p => p.part f offset)
      (h.loads.map (readPhdr (fileOps f) fuel tmp offset)) := by
    rw [List.forall₂_map_left_iff, List.forall₂_map_right_iff, List.forall₂_same]
    intro p hp
    have hs := hsound p hp
    exact readPhdr_sets hfuel tmp hs.size hs.held hf hs.fits hs.round
  obtain ⟨pos₁, new, hl, himg⟩ := inOrder_image hall
    (fun q hq => by
      obtain ⟨p, hp, rfl⟩ := List.mem_map.mp hq
      rw [(hsound p hp).part_length]
      exact Nat.le_of_lt (hsound p hp).fits)
    (List.pairwise_map.mpr hasc)
    (List.pairwise_map.mpr (hdisj.imp_of_mem fun hp hq hd => by
      rw [(hsound _ hp).part_range, (hsound _ hq).part_range]
      exact hd))
    ⟨pos, []⟩
  rw [List.nil_append] at hl
  refine ⟨⟨pos₁, new⟩, by rw [Handle.readSections, readElfSections_eq]; exact hl, fun m => ⟨?_, ?_⟩⟩
  · intro p hp
    have hs := hsound p hp
    have hholds := himg.holds _ (List.mem_map_of_mem hp) m
    constructor
    · intro j hj
      have hheld := hs.held
      have hb := List.getElem?_eq_getElem (l := f) (i := offset + p.offset + j) (by omega)
      rw [hb]
      exact congrArg some (hholds j _ (by rw [hs.part_file hj, hb])).symm
    · intro j h1 h2
      exact hholds j 0 (hs.part_zero h1 h2)
  · intro x hx hout
    refine himg.frame m x hx fun q hq => ?_
    obtain ⟨p, hp, rfl⟩ := List.mem_map.mp hq
    have hnot := hout p hp
    rw [Set.mem_Icc] at hnot
    rw [(hsound p hp).part_length, Phdr.part]
    dsimp only
    omega

/-- The memory image of an accepted ELF file: all segments of its table at once hold the
bytes of the file and the zeros behind them, and no more than the byte behind each
segment is lost. -/
theorem elf_image {f : Bytes} {offset pos' : Nat} {h : ElfH}
    (hh : readElfHeaders f offset = .ok (h, pos')) (hf : f.length < 2 ^ 31)
    (hsound : ∀ p ∈ h.loads, p.Sound f offset) (hasc : h.loads.Pairwise fun p q => p.vaddr ≤ q.vaddr)
    (hdisj : h.loads.Pairwise fun p q => Disjoint p.segment.range q.segment.range)
    (tmp : Page) (pos : Nat) :
    h.FromTable f offset ∧
    ∃ l, (Handle.elf h).readSections (fileOps f) (rounds f) tmp offset ⟨pos, []⟩ = some (.next l) ∧
      ∀ m : Memory 32,
        (∀ p ∈ h.loads,
          (∀ j < p.filesz, f[offset + p.offset + j]? =
            some (applyAll l.stores m (BitVec.ofNat 32 (p.vaddr + j)))) ∧
          ∀ j, p.filesz ≤ j → j < p.memsz →
            applyAll l.stores m (BitVec.ofNat 32 (p.vaddr + j)) = 0) ∧
        ∀ x < 2 ^ 32, (∀ p ∈ h.loads, x ∉ Set.Icc p.vaddr (p.vaddr + p.memsz)) →
          applyAll l.stores m (BitVec.ofNat 32 x) = m (BitVec.ofNat 32 x) :=
  ⟨(readElfHeaders_ok hh).1,
    readElfSections_image (Nat.le_refl _) hf hsound hasc hdisj tmp pos⟩

/-- Two segments that meet at an odd address: the zeros of the first one spill
over into the second one. -/
def smallElf : Bytes :=
  elfBytes [phdrBytes 1 0x94 0x1000 1 4, phdrBytes 4 0 0 0 0, phdrBytes 1 0x95 0x1004 1 1] [0xc3, 0x90]

def smallElfH : ElfH :=
  { va := 0x1000, length := 5, entry := 0x1000
    phdr := [⟨1, 0x94, 0x1000, 1, 4, 4096⟩, ⟨4, 0, 0, 0, 0, 4096⟩, ⟨1, 0x95, 0x1004, 1, 1, 4096⟩] }

theorem smallElf_headers : readElfHeaders smallElf 0 = .ok (smallElfH, 0x94) := by
  decide +kernel

theorem smallElf_sound : (Handle.elf smallElfH).Sound smallElf 0 := by
  have hloads : smallElfH.loads = [⟨1, 0x94, 0x1000, 1, 4, 4096⟩, ⟨1, 0x95, 0x1004, 1, 1, 4096⟩] := by
    decide
  show _ ∧ _ ∧ _
  rw [hloads]
  refine ⟨?_, by decide, List.pairwise_pair.mpr Set.Ico_disjoint_Ico_same⟩
  simp only [List.forall_mem_cons]
  refine ⟨?_, ?_, fun _ hp => absurd hp List.not_mem_nil⟩
  · exact ⟨by decide, Set.Ico_subset_Ico (by decide) (by decide +kernel), by decide, by decide⟩
  · exact ⟨by decide, Set.Ico_subset_Ico (by decide) (by decide +kernel), by decide, by decide⟩

theorem elf_image_small : ∃ l, (Handle.elf smallElfH).readSections (fileOps smallElf) (rounds smallElf)
      blankPage 0 ⟨0x94, []⟩ = some (.next l) ∧
    ∀ m : Memory 32, smallElf[0x95]? = some (applyAll l.stores m (BitVec.ofNat 32 0x1004)) := by
  obtain ⟨hsound, hasc, hdisj⟩ := smallElf_sound
  obtain ⟨-, l, hl, hmem⟩ := elf_image smallElf_headers (by decide +kernel) hsound hasc hdisj
    blankPage 0x94
  exact ⟨l, hl, fun m => ((hmem m).1 ⟨1, 0x95, 0x1004, 1, 1, 4096⟩ (by decide)).1 0 (by decide)⟩

/-! ## COFF -/

def Scn.part (f : Bytes) (coffset : Nat) (s : Scn) : Part :=
  ⟨s.vaddr, slice f (s.start coffset).toNat s.size⟩

theorem Scn.Inside.held {f : Bytes} {coffset : Nat} {s : Scn} (h : s.Inside f coffset)
    (hf : f.length < 2 ^ 31) (hs : s.scnptr < 2 ^ 32) :
    s.size = 0 ∨ (coffset + s.scnptr) % 2 ^ 32 = (s.start coffset).toNat ∧
      (s.start coffset).toNat < 2 ^ 31 ∧ (s.start coffset).toNat + s.size ≤ f.length := by
  refine h.imp_right ?_
  rintro ⟨h0, hin⟩
  refine ⟨?_, by omega, by omega⟩
  rw [Scn.start, toInt32] at *
  split at h0 <;> omega

theorem Scn.Inside.part_length {f : Bytes} {coffset : Nat} {s : Scn} (h : s.Inside f coffset)
    (hf : f.length < 2 ^ 31) (hs : s.scnptr < 2 ^ 32) : (s.part f coffset).data.length = s.size := by
  have := h.held hf hs
  rw [Scn.part, slice_length]
  omega

/-- The section headers stand behind the optional header, whatever its size. -/
theorem readCoffHeaders_scns {f : Bytes} {offset pos' : Nat} {h : CoffH}
    (hh : readCoffHeaders f offset = .ok (h, pos'))
    (hoff : offset + 20 + u16 f (offset + 16) < 2 ^ 31) :
    h.text = Scn.parse (slice f (offset + 20 + u16 f (offset + 16)) 40) ∧
      h.data = Scn.parse (slice f (offset + 20 + u16 f (offset + 16) + 40) 40) ∧
      h.bss = Scn.parse (slice f (offset + 20 + u16 f (offset + 16) + 80) 40) ∧
      h.length = (h.bss.vaddr + h.bss.size) % 2 ^ 32 := by
  obtain ⟨scns, hscns, hopt, htext, hdata, hbss, hlen⟩ := readCoffHeaders_ok hh
  have hu : u16 (slice f offset 20) 16 = u16 f (offset + 16) := by
    rw [u16, u16, slice_slice (by decide)]
  rw [hu] at hscns hopt
  have hpos : (if u16 f (offset + 16) > 28 then lseekCur (offset + 48) (u16 f (offset + 16) - 28)
      else offset + 48) = offset + 20 + u16 f (offset + 16) := by
    split
    · rw [lseekCur, toInt32_of_lt (by omega), if_pos (by omega)]
      omega
    · omega
  rw [hpos] at hscns
  rw [hscns, slice_slice (by decide)] at htext hdata hbss
  exact ⟨htext, hdata, hbss, hlen⟩

/-- What a COFF header asks for. -/
def CoffH.parts (f : Bytes) (coffset : Nat) (h : CoffH) : List Part :=
  [h.text.part f coffset, h.data.part f coffset, ⟨h.bss.vaddr, List.replicate h.bss.size 0⟩]

theorem readCoffSections_image {f : Bytes} {fuel offset : Nat} {h : CoffH}
    (hfuel : rounds f ≤ fuel) (hf : f.length < 2 ^ 31)
    (hscnptr : ∀ s ∈ [h.text, h.data], s.scnptr < 2 ^ 32)
    (hsmall : ∀ s ∈ [h.text, h.data, h.bss], s.vaddr < 2 ^ 31 ∧ s.size < 2 ^ 31)
    (hasc : [h.text, h.data, h.bss].Pairwise fun s t => s.vaddr ≤ t.vaddr)
    (hdisj : [h.text, h.data, h.bss].Pairwise fun s t => Disjoint s.range t.range)
    (hin : ∀ s ∈ [h.text, h.data], s.Inside f offset) (tmp : Page) (pos : Nat) :
    ∃ l, (Handle.coff h).readSections (fileOps f) fuel tmp offset ⟨pos, []⟩ = some (.next l) ∧
      ∀ m : Memory 32, (Handle.coff h).InPlace f offset (applyAll l.stores m) := by
  have hlen {s : Scn} (hs : s ∈ [h.text, h.data]) : (s.part f offset).data.length = s.size :=
    (hin s hs).part_length hf (hscnptr s hs)
  have hrange {s : Scn} (hs : s ∈ [h.text, h.data]) : (s.part f offset).range = s.range := by
    rw [Part.range, hlen hs]
    rfl
  have hzeros : (⟨h.bss.vaddr, List.replicate h.bss.size 0⟩ : Part).range = h.bss.range := by
    rw [Part.range, List.length_replicate]
    rfl
  have hsets {s : Scn} (hs : s ∈ [h.text, h.data]) (hfit : s.vaddr + s.size < 2 ^ 32) :
      Sets (s.part f offset) (readSection (fileOps f) fuel tmp offset s.scnptr s.vaddr s.size) :=
    readSection_sets hfuel tmp ((hin s hs).held hf (hscnptr s hs)) hfit
  obtain ⟨ht, hd, hb, -⟩ : (h.text.vaddr < 2 ^ 31 ∧ h.text.size < 2 ^ 31) ∧
      (h.data.vaddr < 2 ^ 31 ∧ h.data.size < 2 ^ 31) ∧
      (h.bss.vaddr < 2 ^ 31 ∧ h.bss.size < 2 ^ 31) ∧ _ := by
    simpa only [List.forall_mem_cons] using hsmall
  have hall : List.Forall₂ Sets (h.parts f offset)
      [readSection (fileOps f) fuel tmp offset h.text.scnptr h.text.vaddr h.text.size,
        readSection (fileOps f) fuel tmp offset h.data.scnptr h.data.vaddr h.data.size,
        fun l => some (.next (l.memset h.bss.vaddr h.bss.size))] :=
    .cons (hsets (by simp) (by omega))
      (.cons (hsets (by simp) (by omega)) (.cons (memset_sets (by omega) (by omega)) .nil))
  have hfit : ∀ q ∈ h.parts f offset, q.addr + q.data.length ≤ 2 ^ 32 := by
    simp only [CoffH.parts, List.forall_mem_cons, hlen List.mem_cons_self,
      hlen (List.mem_cons_of_mem _ List.mem_cons_self), List.length_replicate]
    exact ⟨by dsimp only [Scn.part]; omega, by dsimp only [Scn.part]; omega, by omega, by simp⟩
  obtain ⟨pos₁, new, hl, himg⟩ := inOrder_image hall hfit
    (by simpa [CoffH.parts, Scn.part] using hasc)
    (by simpa [CoffH.parts, hzeros, hrange] using hdisj) ⟨pos, []⟩
  rw [List.nil_append] at hl
  refine ⟨⟨pos₁, new⟩, hl, fun m => ⟨?_, ?_⟩⟩
  · intro s hs j hj
    have hheld := (hin s hs).held hf (hscnptr s hs)
    have hmem : s.part f offset ∈ h.parts f offset := by
      rcases List.mem_cons.mp hs with rfl | hs
      · exact List.mem_cons_self
      · rw [List.mem_singleton.mp hs]
        exact List.mem_cons_of_mem _ List.mem_cons_self
    have hb := List.getElem?_eq_getElem (l := f) (i := (s.start offset).toNat + j) (by omega)
    rw [hb]
    refine congrArg some (himg.holds _ hmem m j _ ?_).symm
    rw [Scn.part, slice_getElem?, if_pos hj, hb]
  · intro j hj
    exact himg.holds ⟨h.bss.vaddr, List.replicate h.bss.size 0⟩ (by simp [CoffH.parts]) m j 0
      (List.getElem?_replicate_of_lt hj)

/-- Offsets of sections are 32 bits wide. -/
theorem readCoffHeaders_scnptr {f : Bytes} {pos pos' : Nat} {h : CoffH}
    (hh : readCoffHeaders f pos = .ok (h, pos')) : ∀ s ∈ [h.text, h.data], s.scnptr < 2 ^ 32 := by
  obtain ⟨scns, -, -, htext, hdata, -⟩ := readCoffHeaders_ok hh
  rw [htext, hdata]
  simp only [List.forall_mem_cons]
  exact ⟨u32_lt _ _, u32_lt _ _, fun _ hs => absurd hs List.not_mem_nil⟩

/-- The memory image of an accepted COFF file with three sections in order. -/
theorem coff_image {f : Bytes} {offset pos' : Nat} {h : CoffH}
    (hh : readCoffHeaders f offset = .ok (h, pos')) (hf : f.length < 2 ^ 31)
    (hscns : offset + 20 + u16 f (offset + 16) + 120 ≤ f.length)
    (hsmall : ∀ s ∈ [h.text, h.data, h.bss], s.vaddr < 2 ^ 31 ∧ s.size < 2 ^ 31)
    (hasc : [h.text, h.data, h.bss].Pairwise fun s t => s.vaddr ≤ t.vaddr)
    (hdisj : [h.text, h.data, h.bss].Pairwise fun s t => Disjoint s.range t.range)
    (hin : ∀ s ∈ [h.text, h.data], s.Inside f offset) (tmp : Page) (pos : Nat) :
    (h.text = Scn.parse (slice f (offset + 20 + u16 f (offset + 16)) 40) ∧
      h.data = Scn.parse (slice f (offset + 20 + u16 f (offset + 16) + 40) 40) ∧
      h.bss = Scn.parse (slice f (offset + 20 + u16 f (offset + 16) + 80) 40)) ∧
    (Handle.coff h).getLength = h.bss.vaddr + h.bss.size ∧
    ∃ l, (Handle.coff h).readSections (fileOps f) (rounds f) tmp offset ⟨pos, []⟩ = some (.next l) ∧
      ∀ m : Memory 32,
        (∀ s ∈ [h.text, h.data], ∀ j < s.size, f[(s.start offset).toNat + j]? =
          some (applyAll l.stores m (BitVec.ofNat 32 (s.vaddr + j)))) ∧
        ∀ j < h.bss.size, applyAll l.stores m (BitVec.ofNat 32 (h.bss.vaddr + j)) = 0 := by
  obtain ⟨htext, hdata, hbss, hlen⟩ := readCoffHeaders_scns hh (by omega)
  have hend : (Handle.coff h).getLength = h.bss.vaddr + h.bss.size := by
    obtain ⟨hb1, hb2⟩ := hsmall h.bss (by simp)
    rw [Handle.getLength, hlen, Nat.mod_eq_of_lt (by omega)]
  exact ⟨⟨htext, hdata, hbss⟩, hend, readCoffSections_image (Nat.le_refl _) hf
    (readCoffHeaders_scnptr hh) hsmall hasc hdisj hin tmp pos⟩

theorem coff_image_small :
    ∃ l, (smallHandle 0x2001 1).readSections (fileOps (smallCoff 0x2001 1))
        (rounds (smallCoff 0x2001 1)) blankPage 0 ⟨168, []⟩ = some (.next l) ∧
      ∀ m : Memory 32, applyAll l.stores m (BitVec.ofNat 32 0x2001) = 0 := by
  have hh : readCoffHeaders (smallCoff 0x2001 1) 0 =
      .ok (⟨0x2002, 0, ⟨0x1000, 1, 168⟩, ⟨0x2000, 1, 169⟩, ⟨0x2001, 1, 0⟩⟩, 168) := by
    decide +kernel
  obtain ⟨-, -, l, hl, hmem⟩ := coff_image hh (by decide +kernel) (by decide +kernel) (by decide)
    (by decide)
    (by
      simp only [List.pairwise_cons, List.mem_cons, List.not_mem_nil, or_false, forall_eq_or_imp,
        forall_eq, Scn.range]
      refine ⟨⟨?_, ?_⟩, ?_, fun _ h => absurd h id, .nil⟩
      all_goals exact Set.Ico_disjoint_Ico.mpr (by decide))
    (by
      simp only [List.mem_cons, List.not_mem_nil, or_false, forall_eq_or_imp, forall_eq]
      exact ⟨.inr (by decide +kernel), .inr (by decide +kernel)⟩)
    blankPage 168
  exact ⟨l, hl, fun m => (hmem m).2 0 (by decide)⟩

/-! ## Either loader -/

theorem readSections_inPlace {ops : LdOps} {f : Bytes} {pos pos' offset : Nat} {h : Handle}
    (hh : ops.readHeaders f pos = .ok (h, pos')) (hf : f.length < 2 ^ 31) (hs : h.Sound f offset)
    (tmp : Page) (q : Nat) :
    ∃ l, h.readSections (fileOps f) (rounds f) tmp offset ⟨q, []⟩ = some (.next l) ∧
      ∀ m : Memory 32, h.InPlace f offset (applyAll l.stores m) := by
  rcases readHeaders_ok hh with ⟨c, hc, rfl⟩ | ⟨e, he, rfl⟩
  · obtain ⟨hsmall, hasc, hdisj, hin⟩ := hs
    exact readCoffSections_image (Nat.le_refl _) hf (readCoffHeaders_scnptr hc) hsmall hasc hdisj
      hin tmp q
  · obtain ⟨hsound, hasc, hdisj⟩ := hs
    obtain ⟨l, hl, hmem⟩ := readElfSections_image (Nat.le_refl _) hf hsound hasc hdisj tmp q
    exact ⟨l, hl, fun m => (hmem m).1⟩

end Djstub
