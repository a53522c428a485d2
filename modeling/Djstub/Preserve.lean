import Djstub.Entry
import Djstub.Lifecycle

/-! Which program a file starts. What has been linked first is entered, however often
the stub has been replaced and debug overlays have been stripped since then, and
also when `-r` has taken it out again. -/

namespace Djstub

open Bytes Layout Loop Simulation Stores

section
variable {σ : Type} (h : Host σ) {p : Process} {tmp : Page} {fd : Nat} {ops : LdOps} {P : Program}

theorem Process.Finds.mono {fuel n : Nat} {f : Bytes} {w : StubWalk}
    (hfind : p.Finds fuel fd f ops w) (hn : fuel ≤ n) : p.Finds n fd f ops w := by
  obtain ⟨exec, hexec, hopen, hwalk⟩ := hfind
  refine ⟨exec, hexec, hopen, ?_⟩
  cases exec with
  | some name => exact hwalk
  | none =>
    unfold findPayload at hwalk ⊢
    cases hr : run (stubStep f) fuel StubWalk.init with
    | none =>
      rw [hr] at hwalk
      cases hwalk
    | some r =>
      rw [run_mono hn hr]
      rwa [hr] at hwalk

/-- From some fuel on `fullstub` does what `x` does. -/
def Process.Does (p : Process) (tmp : Page) (x : Calls σ Jump) : Prop :=
  ∃ N, ∀ fuel, N ≤ fuel → fullstub h p fuel tmp = x

theorem fullstub_of_finds {fuel : Nat} {f : Bytes} {w : StubWalk} (hargc : p.argc ≠ 0)
    (hfind : p.Finds fuel fd f ops w) (hload : ops.load tmp f w.pos w.coffset = some P) :
    ∃ q, p.Does h tmp (enterProgram h p fd P w.publish q) := by
  obtain ⟨q, hq⟩ := startPayload_of_load h p fd hload
  refine ⟨q, fuel, fun n hn => ?_⟩
  obtain ⟨exec, hexec, hopen, hwalk⟩ := hfind.mono hn
  rw [fullstub, if_neg hargc, hexec]
  dsimp only
  rw [hopen]
  dsimp only
  rw [hwalk]
  exact hq

/-- `argv[0]` is opened, and its file has the contents `f`. -/
structure Process.RunsFile (p : Process) (fd : Nat) (f : Bytes) : Prop where
  argc : p.argc ≠ 0
  elfexec : p.elfexec = some none
  opened : p.openFile (cstring p.argv0 0) = some (fd, f)

theorem Represents.holding {a : Archive} {n : Nat} {g : Bytes} (r : Represents a n g) {v : Overlay}
    (hv : a.overlays.head? = some v) (hlen : g.length < 2 ^ 31) : Holding g n v.data := by
  obtain ⟨vs, hvs⟩ : ∃ vs, a.overlays = v :: vs := List.head?_eq_some_iff.mp hv
  have hbody : g.drop n = v.data ++ (contents vs ++ a.tail) := by
    rw [r.body, Archive.body, hvs, contents, List.map_cons, List.flatten_cons, List.append_assoc]
    rfl
  refine ⟨?_, ⟨_, hbody.symm⟩, hlen⟩
  have h1 := congrArg List.length hbody
  have h2 := List.length_pos_iff.mpr v.filled
  rw [List.length_drop, List.length_append] at h1
  omega

/-- The first overlay is what is started. -/
theorem Represents.starts {a : Archive} {n : Nat} {g : Bytes} (r : Represents a n g) {v : Overlay}
    (hv : a.overlays.head? = some v) (hlen : g.length < 2 ^ 31) (hP : Denotes tmp ops v.data P)
    (hp : p.RunsFile fd g) :
    ∃ i q, p.Does h tmp (enterProgram h p fd P i q) ∧
      ∀ k < 3, ∃ e, i.extents[k]? = some e ∧ Holds g e ((a.overlays.map Overlay.data)[k]?.getD []) := by
  have e := r.holding hv hlen
  obtain ⟨t, ht⟩ := e.bytes
  rw [r.body] at ht
  have hmagic : ops.Matches a.body := by
    rw [← ht]
    exact hP.magic.append t
  have hlong : 0x40 ≤ a.body.length := by
    have := hP.long
    rw [← ht, List.length_append]
    omega
  obtain ⟨w, ⟨fuel, hwalk⟩, hpos, hoffs, hext⟩ := r.loaded hlong hlen hmagic
  have hfind : p.Finds fuel fd g ops w := ⟨none, hp.elfexec, hp.opened, by rw [findPayload, hwalk]; rfl⟩
  have hload : ops.load tmp g w.pos w.coffset = some P := by
    rw [hpos, hoffs]
    exact load_embedded hP e
  obtain ⟨q, hq⟩ := fullstub_of_finds h hp.argc hfind hload
  exact ⟨w.publish, q, hq, hext⟩

theorem Represents.starts_descendant {a : Archive} {n : Nat} {g g' : Bytes} (r : Represents a n g)
    {v : Overlay} (hv : a.overlays.head? = some v) (hP : Denotes tmp ops v.data P)
    {os : List Rewrite} (hos : Runs Rewrite.Writes os g g') (hlen : g'.length < 2 ^ 31)
    (hp : p.RunsFile fd g') :
    ∃ i q vs, p.Does h tmp (enterProgram h p fd P i q) ∧ vs ≠ [] ∧
      vs <+: a.overlays.map Overlay.data ∧
      ∀ k < 3, ∃ e, i.extents[k]? = some e ∧ Holds g' e (vs[k]?.getD []) := by
  obtain ⟨a', n', r', hd⟩ := r.descends hos
  have hv' : a'.overlays.head? = some v := hd.head_eq hv
  have hne : a'.overlays ≠ [] := by
    rintro h
    rw [h] at hv'
    cases hv'
  obtain ⟨i, q, hq, hext⟩ := r'.starts h hv' hlen hP hp
  exact ⟨i, q, _, hq, by simpa using hne, hd.overlays.map Overlay.data, hext⟩

/-! ## From the link to the start -/

/-- The template, an ELF payload and its debug info. -/
def gameDisk : Disk Nat :=
  { packDisk with files := fun p => [bareTemplate, smallElf, [7, 7, 7]][p]? }

/-- `-S 0 -V 8 -g -f 0x2080 -o 9 -t 1 -l 1 -t 5 -l 2` -/
def gameOpts : List (Opt Nat) :=
  [.S 0, .V (some 8), .g, .f (some 0x2080), .o (some 9), .t (some 1), .l 1, .t (some 5), .l 2]

/-- What this writes. -/
def gameExe : Bytes :=
  patch (patch (patch bareTemplate 0x1c (toBytes 4 150 ++ toBytes 4 3)) 0x36 [0x51, 0, 0x80, 0x20])
    0x3b [8, 0x40] ++ smallElf ++ [7, 7, 7]

/-- `gameExe` after `-s`. -/
def strippedGame : Bytes :=
  patch (patch (patch bareTemplate 0x1c (toBytes 4 150)) 0x36 [0x51, 0, 0x80, 0x20])
    0x3b [8, 0x40] ++ smallElf

theorem gameExe_linked : ∃ d', main 0 gameDisk gameOpts [] = some (.ret 0, d') ∧
    d'.files 9 = some gameExe := by
  have hrun : (main 0 gameDisk gameOpts []).map (fun r => (r.1, r.2.files 9)) =
      some (.ret 0, some gameExe) := by decide +kernel
  exact main_of_map id hrun

theorem gameExe_stripped :
    Runs Rewrite.Writes [⟨bareTemplate, 8, true⟩] gameExe strippedGame := by
  have h1 : Rewrite.Writes ⟨bareTemplate, 8, true⟩ gameExe strippedGame :=
    ⟨by decide, 2, by decide +kernel⟩
  exact .cons h1 (.nil _)

/-- A process whose `argv[0]` has these contents. -/
def startProcess (f : Bytes) : Process :=
  { execProcess with envp := none, openFile := fun _ => some (5, f) }

section
variable {π : Type} [DecidableEq π] {fuel : Nat} {d d' : Disk π} {m : Globals π}
  {opts : List (Opt π)} {args : List π} {oname : π} {start g g' c : Bytes} {ovls : List (Nat × π)}
  {cs : List Bytes} {os : List Rewrite}

/-- What `-g` has linked first is the first overlay. -/
theorem linked_represents (hrun : main fuel d opts args = some (.ret 0, d'))
    (hm : options d Globals.init opts = .ok m) (hgen : m.generate = true) (hi : Introduces opts ovls)
    (h3 : ovls.length ≤ 3) (ho : m.oname = some oname)
    (hc : Copied d oname (ovls.map Prod.snd) cs) (hne : ∀ c ∈ cs, c ≠ []) (hs : m.start = some start)
    (hz : ZeroArea start) (hfile : d'.files oname = some g) (hfirst : cs.head? = some c)
    (hmagic : ops.Matches c) :
    ∃ a v, Represents a start.length g ∧ a.overlays.map Overlay.type = ovls.map Prod.fst ∧
      a.overlays.map Overlay.data = cs ∧ a.overlays.head? = some v ∧ v.data = c := by
  obtain ⟨start', g1, hg1, hgen'⟩ := main_generate hrun hm hgen ho
  cases hs.symm.trans hgen'.template
  cases hfile.symm.trans hg1
  obtain ⟨cs', rfl⟩ : ∃ cs', cs = c :: cs' := List.head?_eq_some_iff.mp hfirst
  have h0 : ovls ≠ [] := by
    rintro rfl
    cases hc.2
  have hplain : ¬ isMz (c :: cs').flatten := not_isMz_of_magic (hmagic.append cs'.flatten).magic
  obtain ⟨a, r, htypes, hdata⟩ := generated_represents hm hgen' hi h0 h3 hc hne hz hplain
  obtain ⟨v, vs, hvs, hv, -⟩ := List.map_eq_cons_iff.mp hdata
  exact ⟨a, v, r, htypes, hdata, by rw [hvs]; rfl, hv⟩

/-- The program that `-g` has linked first is started, after any number of runs on the
file, and `stubinfo` describes the first of the overlays behind it. -/
theorem linked_program_survives (hrun : main fuel d opts args = some (.ret 0, d'))
    (hm : options d Globals.init opts = .ok m) (hgen : m.generate = true) (hi : Introduces opts ovls)
    (h3 : ovls.length ≤ 3) (ho : m.oname = some oname)
    (hc : Copied d oname (ovls.map Prod.snd) cs) (hne : ∀ c ∈ cs, c ≠ []) (hs : m.start = some start)
    (hz : ZeroArea start) (hfile : d'.files oname = some g) (hfirst : cs.head? = some c)
    (hP : Denotes tmp ops c P) (hos : Runs Rewrite.Writes os g g') (hlen : g'.length < 2 ^ 31)
    (hp : p.RunsFile fd g') :
    ∃ i q vs, p.Does h tmp (enterProgram h p fd P i q) ∧ vs ≠ [] ∧ vs <+: cs ∧
      ∀ k < 3, ∃ e, i.extents[k]? = some e ∧ Holds g' e (vs[k]?.getD []) := by
  obtain ⟨a, v, r, -, hdata, hv, rfl⟩ :=
    linked_represents hrun hm hgen hi h3 ho hc hne hs hz hfile hfirst hP.magic
  have hall := r.starts_descendant h hv hP hos hlen hp
  rwa [hdata] at hall

theorem linked_program_survives_game : ∃ P, Denotes blankPage .elf smallElf P ∧ ∃ i q,
    (startProcess strippedGame).Does tableHost blankPage
      (enterProgram tableHost (startProcess strippedGame) 5 P i q) := by
  obtain ⟨P, hP⟩ := smallElf_denotes
  obtain ⟨d', hrun, hfile⟩ := gameExe_linked
  have hi : Introduces gameOpts [(1, 1), (5, 2)] := ⟨by decide, by decide⟩
  have hc : Copied gameDisk 9 ([(1, 1), (5, 2)].map Prod.snd) [smallElf, [7, 7, 7]] :=
    ⟨by decide, rfl⟩
  have hne : ∀ c ∈ [smallElf, [7, 7, 7]], c ≠ [] := by decide +kernel
  obtain ⟨i, q, vs, hq, -⟩ := linked_program_survives tableHost hrun rfl rfl hi (by decide) rfl
    hc hne rfl (by decide) hfile rfl hP gameExe_stripped (by decide +kernel)
    (p := startProcess strippedGame) ⟨by decide, rfl, rfl⟩
  exact ⟨P, hP, i, q, hq⟩

/-- `ELFEXEC` names a file with the contents `f`. -/
structure Process.Executes (p : Process) (fd : Nat) (f : Bytes) : Prop where
  argc : p.argc ≠ 0
  opened : ∃ name, p.elfexec = some (some name) ∧ p.openFile name = some (fd, f)

/-- If it is of the type that `-r` looks for, `-r` takes it out after any number of runs
on the file, as long as the stub is not too old for it, and by itself it starts the same
program, without payloads. -/
theorem removed_program_starts (hrun : main fuel d opts args = some (.ret 0, d'))
    (hm : options d Globals.init opts = .ok m) (hgen : m.generate = true) (hi : Introduces opts ovls)
    (h3 : ovls.length ≤ 3) (ho : m.oname = some oname)
    (hc : Copied d oname (ovls.map Prod.snd) cs) (hne : ∀ c ∈ cs, c ≠ []) (hs : m.start = some start)
    (hz : ZeroArea start) (hfile : d'.files oname = some g) (hfirst : cs.head? = some c)
    (htype : (ovls.map Prod.fst).head? = some (rmType (u16 (headerAt g 0) 0x38)))
    (hP : Denotes tmp .elf c P) (hos : Runs Rewrite.Writes os g g') {tmpl : Bytes}
    (ht : 0x40 ≤ tmpl.length) (ht32 : tmpl.length < 2 ^ 32) (stubVer : Nat)
    (hver : 8 ≤ byteAt (headerAt g' 0) 0x3b) (hp : p.Executes fd c) :
    Returns tmpl stubVer .remove g' (.file c) ∧
      ∃ i q, p.Does h tmp (enterProgram h p fd P i q) ∧ i.flags = 2 ^ 16 ∧
      i.extents = [(0, 0), (0, 0), (0, 0)] := by
  obtain ⟨a, v, r, htypes, -, hv, rfl⟩ :=
    linked_represents hrun hm hgen hi h3 ho hc hne hs hz hfile hfirst hP.magic
  obtain ⟨a', n', r', hd⟩ := r.descends hos
  have hv' : a'.overlays.head? = some v := hd.head_eq hv
  obtain ⟨vs, hvs⟩ : ∃ vs, a'.overlays = v :: vs := List.head?_eq_some_iff.mp hv'
  have hvtype : v.type = rmType a'.flags := by
    rw [← htypes, List.head?_map, hv, r.flags, ← hd.flags] at htype
    exact Option.some.inj htype
  have hfind : a'.overlays.find? (fun u => u.type = rmType a'.flags) = some v := by
    rw [hvs, List.find?_cons_of_pos (by simpa using hvtype)]
  have hselect : a'.select = some v.data := by
    rw [Archive.select, hfind]
  rw [r'.version] at hver
  have hret := (r'.removed_iff ht stubVer v.data).mpr ⟨hver, ht32, hselect⟩
  obtain ⟨name, hname, hopen⟩ := hp.opened
  have hfind : p.Finds 0 fd v.data .elf { StubWalk.init with flags := 1 <<< 16 } :=
    ⟨some name, hname, hopen, rfl⟩
  obtain ⟨q, hq⟩ := fullstub_of_finds h hp.argc hfind hP.loads
  exact ⟨hret, _, q, hq, rfl, rfl⟩

end

theorem removed_program_starts_game : Returns bareTemplate 8 .remove strippedGame (.file smallElf) ∧
    ∃ P, Denotes blankPage .elf smallElf P ∧ ∃ i q, execProcess.Does tableHost blankPage
      (enterProgram tableHost execProcess 5 P i q) ∧ i.flags = 2 ^ 16 := by
  obtain ⟨P, hP⟩ := smallElf_denotes
  obtain ⟨d', hrun, hfile⟩ := gameExe_linked
  have hi : Introduces gameOpts [(1, 1), (5, 2)] := ⟨by decide, by decide⟩
  have hc : Copied gameDisk 9 ([(1, 1), (5, 2)].map Prod.snd) [smallElf, [7, 7, 7]] :=
    ⟨by decide, rfl⟩
  have hne : ∀ c ∈ [smallElf, [7, 7, 7]], c ≠ [] := by decide +kernel
  have htype :
      ([(1, 1), (5, 2)].map Prod.fst).head? = some (rmType (u16 (headerAt gameExe 0) 0x38)) := by
    decide +kernel
  have hexec : execProcess.Executes 5 smallElf := ⟨by decide, [0x41], by decide, rfl⟩
  have ht : 0x40 ≤ bareTemplate.length := by decide
  obtain ⟨hret, i, q, hq, hflags, -⟩ := removed_program_starts tableHost hrun rfl rfl hi (by decide)
    rfl hc hne rfl (by decide) hfile rfl htype hP gameExe_stripped ht (by decide) 8
    (by decide +kernel) hexec
  exact ⟨hret, P, hP, i, q, hq, hflags⟩

/-- The program that a plain run has put a stub in front of is started. -/
theorem stubified_program_survives {tmpl : Bytes} (ht : stubAccepted tmpl) (hz : ZeroArea tmpl)
    {M : List Bytes} (hM : ∀ m ∈ M, OldImage m) {c g g' : Bytes} (hP : Denotes tmp ops c P)
    {stubVer : Nat} (hret : Returns tmpl stubVer .plain (M.flatten ++ c) (.file g))
    {os : List Rewrite} (hos : Runs Rewrite.Writes os g g') (hlen : g'.length < 2 ^ 31)
    (hp : p.RunsFile fd g') :
    ∃ i q, p.Does h tmp (enterProgram h p fd P i q) ∧
      ∃ e, i.extents[0]? = some e ∧ Holds g' e c := by
  have r := stubified_represents ht hz hM hP.long (not_isMz_of_magic hP.magic.magic) hret
  obtain ⟨i, q, vs, hq, hne, hvs, hext⟩ := r.starts_descendant h rfl hP hos hlen hp
  have hall : vs = [c] := by
    obtain ⟨t, ht⟩ := hvs
    cases vs with
    | nil => exact absurd rfl hne
    | cons b vs =>
      rw [List.map_singleton, List.cons_append] at ht
      obtain ⟨hb, ht⟩ := List.cons.inj ht
      rw [(List.append_eq_nil_iff.mp ht).1, hb]
  obtain ⟨e, he, hh⟩ := hext 0 (by decide)
  rw [hall] at hh
  exact ⟨i, q, hq, e, he, hh⟩

end

/-- A COFF file behind an old-style stub. -/
theorem stubified_program_survives_coff : ∃ P, Denotes blankPage .coff (smallCoff 0x3000 1) P ∧
    ∃ i q, (startProcess (stubbed bareTemplate 8 (smallCoff 0x3000 1))).Does tableHost blankPage
      (enterProgram tableHost (startProcess (stubbed bareTemplate 8 (smallCoff 0x3000 1))) 5 P i
        q) := by
  obtain ⟨P, hP⟩ := smallCoff_denotes
  have hold : ∀ m ∈ [oldImage], OldImage m := by
    simp only [List.mem_singleton, forall_eq]
    exact ⟨by decide, by decide, by decide, by decide⟩
  have hret : Returns bareTemplate 8 .plain ([oldImage].flatten ++ smallCoff 0x3000 1)
      (.file (stubbed bareTemplate 8 (smallCoff 0x3000 1))) := ⟨2, by decide +kernel⟩
  obtain ⟨i, q, hq, -⟩ := stubified_program_survives tableHost (by decide) (by decide) hold hP
    hret (.nil _) (by decide +kernel)
    (p := startProcess (stubbed bareTemplate 8 (smallCoff 0x3000 1))) ⟨by decide, rfl, rfl⟩
  exact ⟨P, hP, i, q, hq⟩

end Djstub
