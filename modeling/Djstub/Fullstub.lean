import Djstub.Restub

/-! The header walk of `fullstub` in `stub.c` and what it publishes. Unsigned
variables are 32 bits wide, `off_t` and the `int32_t` fields are signed; `lseek`
refuses a negative offset and leaves the position where it was. -/

namespace Djstub

open Bytes Layout Loop

/-- `struct ldops *` -/
inductive LdOps where
  | coff | elf
  deriving DecidableEq, Repr

/-- The variables of the walk, and what it has put into `stubinfo`. -/
structure StubWalk where
  pos : Nat
  coffset : Nat
  coffsize : Nat
  noffset : Nat
  nsize : Nat
  noffset2 : Nat
  nsize2 : Nat
  payload2Name : Bytes
  stubinfoVer : Nat
  flags : Nat
  deriving DecidableEq, Repr

def StubWalk.init : StubWalk :=
  { pos := 0, coffset := 0, coffsize := 0, noffset := 0, nsize := 0, noffset2 := 0, nsize2 := 0,
    payload2Name := List.replicate 20 0, stubinfoVer := 0, flags := 0 }

/-- `strncpy(dst, src, n)`: up to the first zero byte, then zeros. -/
def strncpy (dst src : Bytes) (n : Nat) : Bytes :=
  let s := (src.take n).takeWhile (· ≠ 0)
  patch dst 0 (s ++ List.replicate (n - s.length) 0)

/-- The position after `lseek(ifile, coffset, SEEK_SET)`. -/
def lseek (pos coffset : Nat) : Nat := if coffset < 2 ^ 31 then coffset else pos

/-- An MZ header with lfanew. -/
def StubWalk.pass (s : StubWalk) (buf : Bytes) : StubWalk :=
  let coffset := u32 buf 0x3c
  let coffsize := u32 buf 0x1c
  let noffset := if coffsize ≠ 0 then (coffset + coffsize) % 2 ^ 32 else s.noffset
  let nsize := u32 buf 0x20
  let noffset2 := if nsize ≠ 0 then (noffset + nsize) % 2 ^ 32 else s.noffset2
  let nsize2 := u32 buf 0x24
  let payload2Name := patch (strncpy s.payload2Name (slice buf 0x30 12) 12) 12 [0]
  { pos := lseek (s.pos + 0x40) coffset
    coffset, coffsize, noffset, nsize, noffset2, nsize2, payload2Name
    stubinfoVer := s.stubinfoVer ||| byteAt buf 0x3b <<< 16
    -- only the two lower bytes of `flags` are overwritten
    flags := s.flags / 2 ^ 16 * 2 ^ 16 + u16 buf 0x38 }

/-- One iteration of the header loop; `none` stands for the exits. -/
def stubStep (f : Bytes) (s : StubWalk) : Step StubWalk (Option (LdOps × StubWalk)) :=
  let buf := slice f s.pos 0x40
  if buf.length ≠ 0x40 then .stop none
  else if isMz buf ∧ isLfanew buf then .next (s.pass buf)
  else if isCoff buf then .stop (some (.coff, { s with pos := lseek (s.pos + 0x40) s.coffset }))
  else if isElf buf then .stop (some (.elf, { s with pos := lseek (s.pos + 0x40) s.coffset }))
  else .stop none

/-- The extents in `stubinfo`. -/
structure StubInfo where
  selfOffs : Nat
  selfSize : Int
  payloadOffs : Nat
  payloadSize : Int
  payload2Offs : Nat
  payload2Size : Int
  payload2Name : Bytes
  stubinfoVer : Nat
  flags : Nat
  deriving DecidableEq, Repr

/-- The three extents, one for each overlay the loader knows. -/
def StubInfo.extents (i : StubInfo) : List (Nat × Int) :=
  [(i.selfOffs, i.selfSize), (i.payloadOffs, i.payloadSize), (i.payload2Offs, i.payload2Size)]

/-- A `uint32_t` assigned to an `int32_t`. -/
def toInt32 (n : Nat) : Int := if n < 2 ^ 31 then n else n - 2 ^ 32

theorem toInt32_of_lt {n : Nat} (h : n < 2 ^ 31) : toInt32 n = n := if_pos h

/-- `strcat`, in a buffer that has the room. -/
def strcat (dst src : Bytes) : Bytes :=
  let s := dst.takeWhile (· ≠ 0)
  patch dst 0 (s ++ src ++ [0])

/-- What `fullstub` stores when everything has been loaded. -/
def StubWalk.publish (s : StubWalk) : StubInfo :=
  { selfOffs := s.coffset
    selfSize := toInt32 s.coffsize
    payloadOffs := s.noffset
    payloadSize := toInt32 s.nsize
    payload2Offs := s.noffset2
    payload2Size := toInt32 s.nsize2
    payload2Name :=
      if s.payload2Name.getD 0 0 ≠ 0 then strcat s.payload2Name [0x2e, 0x64, 0x62, 0x67]
      else s.payload2Name
    stubinfoVer := s.stubinfoVer ||| 3
    flags := s.flags }

/-- The magic number each loader is chosen by. -/
def LdOps.Matches : LdOps → Bytes → Prop
  | .coff, buf => isCoff buf
  | .elf, buf => isElf buf

theorem LdOps.Matches.magic {ops : LdOps} {buf : Bytes} (h : ops.Matches buf) :
    isCoff buf ∨ isElf buf := by
  cases ops with
  | coff => exact .inl h
  | elf => exact .inr h

/-- The loader is chosen by the first bytes. -/
theorem LdOps.Matches.header {ops : LdOps} {buf : Bytes} (h : ops.Matches buf) (b : Bytes) :
    ops.Matches (headerAt (buf ++ b) 0) := by
  cases ops with
  | coff =>
    have hc : isCoff buf := h
    refine (isCoff_headerAt _).mpr ?_
    obtain ⟨h0, h1⟩ := hc
    exact ⟨by rw [byteAt_append (by omega), h0], by rw [byteAt_append (by omega), h1]⟩
  | elf =>
    have he : isElf buf := h
    refine (isElf_headerAt _).mpr ?_
    obtain ⟨h0, h1, h2, h3⟩ := he
    exact ⟨by rw [byteAt_append (by omega), h0], by rw [byteAt_append (by omega), h1],
      by rw [byteAt_append (by omega), h2], by rw [byteAt_append (by omega), h3]⟩

/-! ## Steps -/

section
variable {f : Bytes} {s : StubWalk}

theorem stubStep_lfanew (hl : (headerAt f s.pos).length = 0x40) (hm : isMz (headerAt f s.pos))
    (hn : isLfanew (headerAt f s.pos)) : stubStep f s = .next (s.pass (headerAt f s.pos)) := by
  have h1 : ¬ (headerAt f s.pos).length ≠ 0x40 := fun h => h hl
  simp only [stubStep]
  rw [if_neg h1, if_pos ⟨hm, hn⟩]

theorem stubStep_payload (ops : LdOps) (hl : (headerAt f s.pos).length = 0x40)
    (ho : ops.Matches (headerAt f s.pos)) :
    stubStep f s = .stop (some (ops, { s with pos := lseek (s.pos + 0x40) s.coffset })) := by
  have h1 : ¬ (headerAt f s.pos).length ≠ 0x40 := fun h => h hl
  simp only [stubStep]
  rw [if_neg h1]
  cases ops with
  | coff =>
    have hc : isCoff (headerAt f s.pos) := ho
    have hm := not_isMz_of_magic (.inl hc)
    rw [if_neg (fun h => hm h.1), if_pos hc]
  | elf =>
    have he : isElf (headerAt f s.pos) := ho
    have hm := not_isMz_of_magic (.inr he)
    rw [if_neg (fun h => hm h.1), if_neg (fun h => isCoff_not_isElf h he), if_pos he]

/-- An iteration that does not exit has read one of these headers. -/
inductive StubCase (f : Bytes) (s : StubWalk) : Step StubWalk (Option (LdOps × StubWalk)) → Prop where
  | exits : StubCase f s (.stop none)
  | lfanew : (headerAt f s.pos).length = 0x40 → isMz (headerAt f s.pos) →
      isLfanew (headerAt f s.pos) → StubCase f s (.next (s.pass (headerAt f s.pos)))
  | payload (ops : LdOps) : (headerAt f s.pos).length = 0x40 → ops.Matches (headerAt f s.pos) →
      StubCase f s (.stop (some (ops, { s with pos := lseek (s.pos + 0x40) s.coffset })))

theorem stubStep_cases (f : Bytes) (s : StubWalk) : StubCase f s (stubStep f s) := by
  by_cases hl : (headerAt f s.pos).length = 0x40
  · by_cases hm : isMz (headerAt f s.pos) ∧ isLfanew (headerAt f s.pos)
    · rw [stubStep_lfanew hl hm.1 hm.2]
      exact .lfanew hl hm.1 hm.2
    · by_cases hc : isCoff (headerAt f s.pos)
      · rw [stubStep_payload .coff hl hc]
        exact .payload .coff hl hc
      · by_cases he : isElf (headerAt f s.pos)
        · rw [stubStep_payload .elf hl he]
          exact .payload .elf hl he
        · have h1 : stubStep f s = .stop none := by
            simp only [stubStep]
            rw [if_neg (fun h => h hl), if_neg hm, if_neg hc, if_neg he]
          rw [h1]
          exact .exits
  · have h1 : stubStep f s = .stop none := by
      simp only [stubStep]
      rw [if_pos hl]
    rw [h1]
    exact .exits

end

/-! ## The whole walk -/

/-- From position `c` the headers `hs` are passed and a payload header is read at
`p`. A jump that `lseek` refuses leads to the bytes behind the header. -/
inductive Trail (f : Bytes) : Nat → List Bytes → Nat → Prop where
  | payload (c : Nat) : (headerAt f c).length = 0x40 →
      isCoff (headerAt f c) ∨ isElf (headerAt f c) → Trail f c [] c
  | lfanew {c p : Nat} {hs : List Bytes} : (headerAt f c).length = 0x40 → isMz (headerAt f c) →
      isLfanew (headerAt f c) → Trail f (lseek (c + 0x40) (u32 (headerAt f c) 0x3c)) hs p →
      Trail f c (headerAt f c :: hs) p

/-- A jump that `lseek` does not refuse. -/
theorem Trail.jump {f : Bytes} {c n p : Nat} {hs : List Bytes} (hl : (headerAt f c).length = 0x40)
    (hm : isMz (headerAt f c)) (hn : isLfanew (headerAt f c)) (ho : u32 (headerAt f c) 0x3c = n)
    (hlt : n < 2 ^ 31) (h : Trail f n hs p) : Trail f c (headerAt f c :: hs) p :=
  .lfanew hl hm hn (by rw [ho, lseek, if_pos hlt]; exact h)

/-- The walk ends at the end of its trail, in a state that depends on the headers
alone. -/
theorem stubWalk_iff {f : Bytes} {s s' : StubWalk} {ops : LdOps} :
    Ends (stubStep f) s (some (ops, s')) ↔ ∃ hs p, Trail f s.pos hs p ∧
      ops.Matches (headerAt f p) ∧
      s' = { hs.foldl StubWalk.pass s with
        pos := lseek (p + 0x40) (hs.foldl StubWalk.pass s).coffset } := by
  constructor
  · intro h
    generalize hr : some (ops, s') = r at h
    revert hr
    refine Ends.induct (P := fun s r => some (ops, s') = r → ∃ hs p, Trail f s.pos hs p ∧
      ops.Matches (headerAt f p) ∧
      s' = { hs.foldl StubWalk.pass s with
        pos := lseek (p + 0x40) (hs.foldl StubWalk.pass s).coffset }) ?_ ?_ h
    · rintro s r hst rfl
      have hcase := stubStep_cases f s
      rw [hst] at hcase
      cases hcase with
      | payload _ hl ho =>
        exact ⟨[], s.pos, .payload _ hl ho.magic, ho, rfl⟩
    · rintro s s1 r hst - ih rfl
      obtain ⟨hs, p, ht, ho, hs'⟩ := ih rfl
      have hcase := stubStep_cases f s
      rw [hst] at hcase
      cases hcase with
      | lfanew hl hm hn =>
        exact ⟨headerAt f s.pos :: hs, p, .lfanew hl hm hn ht, ho, hs'⟩
  · rintro ⟨hs, p, ht, ho, rfl⟩
    generalize hc : s.pos = c at ht
    induction ht generalizing s with
    | payload c hl _ =>
      subst hc
      exact (ends_stop (stubStep_payload ops hl ho)).mpr rfl
    | lfanew hl hm hn _ ih =>
      subst hc
      exact (ends_next (stubStep_lfanew hl hm hn)).mpr (ih ho rfl)

theorem foldl_pass_concat (s : StubWalk) (hs : List Bytes) (h : Bytes) :
    ∃ t : StubWalk, (hs ++ [h]).foldl StubWalk.pass s = t.pass h :=
  ⟨hs.foldl StubWalk.pass s, by rw [List.foldl_append]; rfl⟩

/-- Where no jump is refused, `coff2exe` finds the same chain of headers. -/
theorem Trail.chain {f : Bytes} {c p : Nat} {hs : List Bytes} (h : Trail f c hs p)
    (hoff : ∀ h ∈ hs, u32 h 0x3c < 2 ^ 31) : Chain f c hs p := by
  induction h with
  | payload c hl hp =>
    have hm := not_isMz_of_magic hp
    exact .payload (.here c hl fun h => hm h.1) hm
  | @lfanew c p hs hl hm hn _ ih =>
    have h1 := ih fun h hh => hoff h (List.mem_cons_of_mem _ hh)
    rw [lseek, if_pos (hoff _ (List.mem_cons_self ..))] at h1
    exact .lfanew (.here c hl fun h => h.2 hn) hm h1

/-- A chain starts inside the file. -/
theorem Chain.start_full {f : Bytes} {c : Int} {hs : List Bytes} {p : Nat} (h : Chain f c hs p) :
    c + 0x40 ≤ f.length := by
  have hold {q : Nat} (ho : OldMz f c q) : c + 0x40 ≤ f.length := by
    cases ho with
    | here _ hl _ =>
      have := (header_length_iff f q).mp hl
      omega
    | skip n _ hl _ _ _ =>
      have := (header_length_iff f n).mp hl
      omega
  cases h with
  | payload ho _ => exact hold ho
  | lfanew ho _ _ => exact hold ho

/-- Where `coff2exe` finds a chain, `fullstub` has taken none of its headers for
something else. -/
theorem Trail.unique_chain {f : Bytes} (hf : f.length ≤ 2 ^ 31) {c p p' : Nat}
    {hs hs' : List Bytes} (h : Trail f c hs p) (h' : Chain f c hs' p') :
    hs' = hs ∧ p' = p ∧ ∀ h ∈ hs, u32 h 0x3c < 2 ^ 31 := by
  induction h generalizing hs' with
  | payload c hl hp =>
    have hm := not_isMz_of_magic hp
    obtain ⟨rfl, rfl⟩ := h'.unique (.payload (.here c hl fun h => hm h.1) hm)
    exact ⟨rfl, rfl, by simp⟩
  | @lfanew c p hs hl hm hn _ ih =>
    have h0 : OldMz f c c := .here c hl fun h => h.2 hn
    cases h' with
    | payload ho hnm =>
      rw [← h0.unique ho] at hnm
      exact absurd hm hnm
    | lfanew ho hm' hch =>
      have hq := h0.unique ho
      subst hq
      have hlt : u32 (headerAt f c) 0x3c < 2 ^ 31 := by
        have := hch.start_full
        omega
      rw [lseek, if_pos hlt] at ih
      obtain ⟨rfl, rfl, hoff⟩ := ih hch
      refine ⟨rfl, rfl, fun h hh => ?_⟩
      rcases List.mem_cons.mp hh with rfl | hh
      · exact hlt
      · exact hoff h hh

/-- A file with one header in front of its payload. -/
theorem stubWalk_one {g : Bytes} {n : Nat} {ops : LdOps} (hstub : HasStub g n) (hlt : n < 2 ^ 31)
    (hp : (headerAt g n).length = 0x40) (ho : ops.Matches (headerAt g n)) :
    Ends (stubStep g) StubWalk.init (some (ops, StubWalk.init.pass (headerAt g 0))) := by
  have hseek (m : Nat) : lseek m n = n := by rw [lseek, if_pos hlt]
  have ht : Trail g 0 [headerAt g 0] n :=
    .jump hstub.full hstub.mz hstub.lfanew hstub.offs hlt (.payload n hp ho.magic)
  refine stubWalk_iff.mpr ⟨[headerAt g 0], n, ht, ho, ?_⟩
  simp only [List.foldl_cons, List.foldl_nil, StubWalk.pass, hstub.offs, hseek]

end Djstub
