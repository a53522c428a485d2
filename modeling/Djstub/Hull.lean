import Djstub.Block
import Djstub.Folds

/-! The range that `read_elf_headers` computes for an ELF file. Its lower end is
the least address unless a segment at 0 is followed by another one: 0 also stands
for an address that has not been set. -/

namespace Djstub

open Bytes Folds

/-- `beg` after one program header. -/
def lowest (first vaddr : Nat) : Nat := if vaddr < first ∨ first = 0 then vaddr else first

/-- The two ends are folds over the segments that are loaded. -/
theorem elfHull_ok {ps : List Phdr}
    (hfit : ∀ p ∈ ps.filter (fun p => p.isLoad), p.vaddr + p.memsz < 2 ^ 32) :
    ∀ {first last : Nat} {r : Nat × Nat}, elfHull ps first last = .ok r →
      r.1 = ((ps.filter fun p => p.isLoad).map Phdr.vaddr).foldl lowest first ∧
      r.2 = ((ps.filter fun p => p.isLoad).map fun p => p.vaddr + p.memsz).foldl max last := by
  induction ps with
  | nil =>
    intro first last r h
    cases h
    exact ⟨rfl, rfl⟩
  | cons p ps ih =>
    intro first last r h
    rw [elfHull] at h
    by_cases hp : p.isLoad
    · rw [List.filter_cons_of_pos (by simpa using hp)] at hfit ⊢
      rw [if_neg (fun hn => hn hp)] at h
      split at h
      · cases h
      · have hlt := hfit p List.mem_cons_self
        rw [Nat.mod_eq_of_lt hlt] at h
        have hmax : (if p.vaddr + p.memsz > last then p.vaddr + p.memsz else last) =
            max last (p.vaddr + p.memsz) := by
          rw [Nat.max_def]
          split <;> split <;> omega
        rw [hmax] at h
        exact ih (fun q hq => hfit q (List.mem_cons_of_mem _ hq)) h
    · rw [List.filter_cons_of_neg (by simpa using hp)] at hfit ⊢
      rw [if_pos hp] at h
      exact ih hfit h

theorem foldl_max_isGreatest {l : List Nat} (hne : l ≠ []) :
    IsGreatest {x | x ∈ l} (l.foldl max 0) := by
  obtain ⟨hmem, hall⟩ : l.foldl max 0 ∈ 0 :: l ∧ ∀ x ∈ 0 :: l, x ≤ l.foldl max 0 :=
    foldl_picks (r := fun a b => b ≤ a) (P := fun _ => True) (fun a => Nat.le_refl a)
      (fun a b c h1 h2 => Nat.le_trans h2 h1) (fun a b _ _ => ⟨by omega, by omega, by omega⟩)
      trivial fun _ _ => trivial
  have hup : ∀ x ∈ l, x ≤ l.foldl max 0 := fun x hx => hall x (List.mem_cons_of_mem _ hx)
  refine ⟨?_, hup⟩
  rcases List.mem_cons.mp hmem with h | h
  · -- all are zero
    obtain ⟨x, hx⟩ := List.exists_mem_of_ne_nil l hne
    have hx0 := hup x hx
    have : x = 0 := by omega
    rw [h, ← this]
    exact hx
  · exact h

theorem foldl_lowest_cons (x : Nat) (l : List Nat) :
    (x :: l).foldl lowest 0 = l.foldl lowest x := by
  have hstart : lowest 0 x = x := if_pos (.inr rfl)
  rw [List.foldl_cons, hstart]

theorem foldl_lowest_mem {l : List Nat} (hne : l ≠ []) : l.foldl lowest 0 ∈ l := by
  have hmem (a : Nat) (l : List Nat) : l.foldl lowest a ∈ a :: l :=
    (foldl_picks (r := fun _ _ => True) (P := fun _ => True) (fun _ => trivial)
      (fun _ _ _ _ _ => trivial) (fun a b _ _ => ⟨(ite_eq_or_eq _ b a).symm, trivial, trivial⟩)
      trivial fun _ _ => trivial).1
  cases l with
  | nil => exact absurd rfl hne
  | cons x l =>
    rw [foldl_lowest_cons]
    exact hmem x l

/-- Without a zero the marker does no harm. -/
theorem foldl_lowest_isLeast {l : List Nat} (hne : l ≠ []) (h0 : ∀ x ∈ l, x ≠ 0) :
    IsLeast {x | x ∈ l} (l.foldl lowest 0) := by
  cases l with
  | nil => exact absurd rfl hne
  | cons x l =>
    rw [foldl_lowest_cons]
    refine foldl_picks (r := fun a b => a ≤ b) (P := fun a => a ≠ 0)
      (fun a => Nat.le_refl a) (fun a b c h1 h2 => Nat.le_trans h1 h2) (fun a b ha hb => ?_)
      (h0 x List.mem_cons_self) fun b hb => h0 b (List.mem_cons_of_mem _ hb)
    unfold lowest
    split <;> refine ⟨?_, ?_, ?_⟩ <;> omega

/-- The lower end is the least address exactly if 0 comes last or not at all. -/
theorem foldl_lowest_iff {l : List Nat} (hne : l ≠ []) :
    IsLeast {x | x ∈ l} (l.foldl lowest 0) ↔ (∀ x ∈ l, x ≠ 0) ∨ l.getLast? = some 0 := by
  obtain ⟨l', x, rfl⟩ : ∃ l' x, l = l' ++ [x] := by
    rcases List.eq_nil_or_concat l with h | ⟨l', x, h⟩
    · exact absurd h hne
    · exact ⟨l', x, by rw [h, List.concat_eq_append]⟩
  have hfold : (l' ++ [x]).foldl lowest 0 = lowest (l'.foldl lowest 0) x := by
    rw [List.foldl_append]
    rfl
  constructor
  · intro hleast
    by_cases h0 : ∀ y ∈ l' ++ [x], y ≠ 0
    · exact .inl h0
    · right
      have hzero : 0 ∈ l' ++ [x] := by
        by_contra hn
        exact h0 fun y hy hy0 => hn (hy0 ▸ hy)
      have hle : (l' ++ [x]).foldl lowest 0 ≤ 0 := hleast.2 hzero
      -- a last address other than 0 would have been kept
      have hx : x = 0 := by
        rw [hfold, lowest] at hle
        split at hle <;> omega
      rw [List.getLast?_concat, hx]
  · rintro (h0 | hlast)
    · exact foldl_lowest_isLeast hne h0
    · rw [List.getLast?_concat] at hlast
      cases hlast
      have hzero : (l' ++ [0]).foldl lowest 0 = 0 := by
        rw [hfold, lowest]
        split <;> omega
      rw [hzero]
      exact ⟨List.mem_append_right _ (List.mem_singleton_self 0), fun y _ => Nat.zero_le y⟩

/-- The range of an accepted ELF file reaches from the least address to the greatest
end of its program headers, exactly if no segment at 0 stands in front of another one. -/
theorem elf_hull_iff {f : Bytes} {pos pos' : Nat} {h : ElfH}
    (hh : readElfHeaders f pos = .ok (h, pos')) (hne : h.loads ≠ [])
    (hfit : ∀ p ∈ h.loads, p.vaddr + p.memsz < 2 ^ 32) :
    h.FromTable f pos ∧
      ((IsLeast {x | ∃ p ∈ h.loads, p.vaddr = x} (Handle.elf h).getVa ∧
        IsGreatest {x | ∃ p ∈ h.loads, p.vaddr + p.memsz = x}
          ((Handle.elf h).getVa + (Handle.elf h).getLength)) ↔
        (∀ p ∈ h.loads, p.vaddr ≠ 0) ∨ ∃ p, h.loads.getLast? = some p ∧ p.vaddr = 0) := by
  obtain ⟨htable, last, hull, hlen⟩ := readElfHeaders_ok hh
  refine ⟨htable, ?_⟩
  obtain ⟨hva, hlast⟩ : h.va = (h.loads.map Phdr.vaddr).foldl lowest 0 ∧
      last = (h.loads.map fun p => p.vaddr + p.memsz).foldl max 0 := elfHull_ok hfit hull
  have hmapne {g : Phdr → Nat} : h.loads.map g ≠ [] := fun hn => hne (List.map_eq_nil_iff.mp hn)
  have hset (g : Phdr → Nat) : {x | ∃ p ∈ h.loads, g p = x} = {x | x ∈ h.loads.map g} := by
    ext x
    exact List.mem_map.symm
  have hgreat := foldl_max_isGreatest (hmapne (g := fun p => p.vaddr + p.memsz))
  rw [← hlast, ← hset] at hgreat
  -- the lower end is the address of some segment, and so not above the upper end
  have hle : h.va ≤ last := by
    obtain ⟨p, hp, hpva⟩ := List.mem_map.mp (foldl_lowest_mem hmapne)
    have := hgreat.2 ⟨p, hp, rfl⟩
    rw [← hva] at hpva
    omega
  have hbound : last < 2 ^ 32 := by
    obtain ⟨p, hp, hplast⟩ := hgreat.1
    have := hfit p hp
    omega
  have hend : (Handle.elf h).getVa + (Handle.elf h).getLength = last := by
    show h.va + h.length = last
    rw [hlen]
    omega
  rw [hend, and_iff_left hgreat, hset, show (Handle.elf h).getVa = _ from hva,
    foldl_lowest_iff hmapne, List.getLast?_map, List.forall_mem_map, Option.map_eq_some_iff]

def phdrBytes (type offset vaddr filesz memsz : Nat) : Bytes :=
  toBytes 4 type ++ toBytes 4 offset ++ toBytes 4 vaddr ++ toBytes 4 vaddr ++ toBytes 4 filesz ++
    toBytes 4 memsz ++ toBytes 4 5 ++ toBytes 4 4096

/-- An ELF file with its program headers behind the header. -/
def elfBytes (phdrs : List Bytes) (body : Bytes) : Bytes :=
  [0x7f, 0x45, 0x4c, 0x46, 1, 1, 1, 0] ++ List.replicate 8 0 ++ [2, 0, 3, 0, 1, 0, 0, 0] ++
    toBytes 4 0x1000 ++ toBytes 4 0x34 ++ List.replicate 8 0 ++ toBytes 2 0x34 ++ toBytes 2 0x20 ++
    toBytes 2 phdrs.length ++ List.replicate 6 0 ++ phdrs.flatten ++ body

/-- A segment at 0 is forgotten when the one at 0x1000 comes. -/
theorem elf_hull_forgets_zero :
    ∃ h pos', readElfHeaders (elfBytes [phdrBytes 1 0 0 4 16, phdrBytes 1 0 0x1000 4 16] []) 0 =
        .ok (h, pos') ∧ h.loads ≠ [] ∧ (∀ p ∈ h.loads, p.vaddr + p.memsz < 2 ^ 32) ∧
      ¬ (IsLeast {x | ∃ p ∈ h.loads, p.vaddr = x} (Handle.elf h).getVa ∧
        IsGreatest {x | ∃ p ∈ h.loads, p.vaddr + p.memsz = x}
          ((Handle.elf h).getVa + (Handle.elf h).getLength)) := by
  refine ⟨⟨0x1000, 0x10, 0x1000, [⟨1, 0, 0, 4, 16, 4096⟩, ⟨1, 0, 0x1000, 4, 16, 4096⟩]⟩, 0x74,
    by decide +kernel, by decide, by decide, ?_⟩
  rintro ⟨hleast, -⟩
  have hzero : (0x1000 : Nat) ≤ 0 := hleast.2 ⟨⟨1, 0, 0, 4, 16, 4096⟩, by decide, rfl⟩
  omega

theorem elf_hull_small :
    ∃ h pos', readElfHeaders (elfBytes [phdrBytes 1 0 0x2000 4 16, phdrBytes 1 0 0x1000 4 16] []) 0 =
        .ok (h, pos') ∧ IsLeast {x | ∃ p ∈ h.loads, p.vaddr = x} (Handle.elf h).getVa ∧
      IsGreatest {x | ∃ p ∈ h.loads, p.vaddr + p.memsz = x}
        ((Handle.elf h).getVa + (Handle.elf h).getLength) := by
  have hh : readElfHeaders (elfBytes [phdrBytes 1 0 0x2000 4 16, phdrBytes 1 0 0x1000 4 16] []) 0 =
      .ok (⟨0x1000, 0x1010, 0x1000, [⟨1, 0, 0x2000, 4, 16, 4096⟩, ⟨1, 0, 0x1000, 4, 16, 4096⟩]⟩,
        0x74) := by
    decide +kernel
  exact ⟨_, _, hh, (elf_hull_iff hh (by decide) (by decide)).2.mpr (.inl (by decide))⟩

end Djstub
