import Djstub.Ministub
import Djstub.Pack

/-! Sessions of the tool: runs of `main` with any options, on any files, that end in any
way. What they leave alone, and what they make of a program that has been linked. -/

namespace Djstub

open Bytes Layout Loop Simulation

section
variable {π : Type}

/-! ## What a run leaves alone -/

/-- `d'` differs from `d` in files of `S` at most. -/
structure Disk.Frame (S : Set π) (d d' : Disk π) : Prop where
  files : ∀ q, q ∉ S → d'.files q = d.files q
  writable : d'.writable = d.writable
  movable : d'.movable = d.movable
  temp : d'.temp = d.temp

namespace Disk.Frame

variable {S T : Set π} {d d' d'' : Disk π}

theorem refl (S : Set π) (d : Disk π) : Disk.Frame S d d := ⟨fun _ _ => rfl, rfl, rfl, rfl⟩

theorem trans (h : Disk.Frame S d d') (h' : Disk.Frame S d' d'') : Disk.Frame S d d'' where
  files q hq := (h'.files q hq).trans (h.files q hq)
  writable := h'.writable.trans h.writable
  movable := h'.movable.trans h.movable
  temp := h'.temp.trans h.temp

theorem mono (h : Disk.Frame S d d') (hST : S ⊆ T) : Disk.Frame T d d' :=
  ⟨fun q hq => h.files q fun hS => hq (hST hS), h.writable, h.movable, h.temp⟩

theorem set [DecidableEq π] (h : Disk.Frame S d d') {p : π} (hp : p ∈ S) (c : Option Bytes) :
    Disk.Frame S d (d'.set p c) where
  files q hq := by
    have hne : q ≠ p := by
      rintro rfl
      exact hq hp
    rw [Disk.set_files_of_ne _ _ hne, h.files q hq]
  writable := h.writable
  movable := h.movable
  temp := h.temp

theorem of_buffered {b : Buffers.Buffering} (h : Disk.Frame S (d.buffered b) d') : Disk.Frame S d d' :=
  ⟨h.files, h.writable, h.movable, h.temp⟩

end Disk.Frame

/-- The name that the last `-o` gives. -/
def lastOutput : List (Opt π) → Option π → Option π
  | [], oname => oname
  | .o optarg :: os, _ => lastOutput os optarg
  | _ :: os, oname => lastOutput os oname

theorem lastOutput_append (os os' : List (Opt π)) (oname : Option π) :
    lastOutput (os ++ os') oname = lastOutput os' (lastOutput os oname) := by
  induction os generalizing oname with
  | nil => rfl
  | cons o os ih => cases o <;> exact ih _

/-- What the options `os` may do to the output name, the template, `-r` and `-g`. -/
structure Parsed (os : List (Opt π)) (m m' : Globals π) : Prop where
  oname : m'.oname = lastOutput os m.oname
  rmstub : Opt.r ∉ os → m'.rmstub = m.rmstub
  start : (∀ p, Opt.S p ∉ os) → m'.start = m.start
  generate : Opt.g ∈ os ∨ m.generate = true → m'.generate = true

namespace Parsed

variable {m m' m'' : Globals π} {o : Opt π} {os os' : List (Opt π)}

theorem refl (m : Globals π) : Parsed [] m m :=
  ⟨rfl, fun _ => rfl, fun _ => rfl, fun h => h.elim (by simp) id⟩

theorem trans (h : Parsed os m m') (h' : Parsed os' m' m'') :
    Parsed (os ++ os') m m'' where
  oname := by rw [h'.oname, h.oname, lastOutput_append]
  rmstub hr := by
    rw [List.mem_append, not_or] at hr
    rw [h'.rmstub hr.2, h.rmstub hr.1]
  start hs := by
    simp only [List.mem_append, not_or] at hs
    rw [h'.start fun p => (hs p).2, h.start fun p => (hs p).1]
  generate hg := by
    rw [List.mem_append] at hg
    rcases hg with (hg | hg) | hg
    · exact h'.generate (.inr (h.generate (.inl hg)))
    · exact h'.generate (.inl hg)
    · exact h'.generate (.inr (h.generate (.inr hg)))

/-- Most options have nothing to do with these. -/
theorem of_same (hname : m'.oname = lastOutput [o] m.oname) (hr : m'.rmstub = m.rmstub)
    (hs : m'.start = m.start) (hg : m'.generate = m.generate) (ho : o ≠ .g) :
    Parsed [o] m m' where
  oname := hname
  rmstub _ := hr
  start _ := hs
  generate h := by
    rw [hg]
    rcases h with h | h
    · exact absurd (List.mem_singleton.mp h).symm ho
    · exact h

theorem of_option {d : Disk π} (h : option d m o = .ok m') : Parsed [o] m m' := by
  cases o with
  | V optarg =>
    simp only [option, reqVersion] at h
    repeat' split at h
    all_goals cases h
    all_goals exact .of_same rfl rfl rfl rfl (by simp)
  | l p =>
    obtain ⟨-, rfl⟩ := option_l.mp h
    exact .of_same rfl rfl rfl rfl (by simp)
  | t v =>
    obtain ⟨-, rfl⟩ := option_t.mp h
    exact .of_same rfl rfl rfl rfl (by simp)
  | n v =>
    cases v with
    | none => cases h
    | some v =>
      cases h
      exact .of_same rfl rfl rfl rfl (by simp)
  | f v =>
    cases v with
    | none => cases h
    | some v =>
      cases h
      exact .of_same rfl rfl rfl rfl (by simp)
  | S p =>
    simp only [option] at h
    split at h
    · cases h
    · cases h
      exact ⟨rfl, fun _ => rfl, fun hs => absurd (List.mem_singleton_self _) (hs p),
        fun hg => hg.elim (by simp) id⟩
  | r =>
    cases h
    exact ⟨rfl, fun hr => absurd (List.mem_singleton_self _) hr, fun _ => rfl,
      fun hg => hg.elim (by simp) id⟩
  | g =>
    cases h
    exact ⟨rfl, fun _ => rfl, fun _ => rfl, fun _ => rfl⟩
  | v => cases h
  | h => cases h
  | _ =>
    cases h
    exact .of_same rfl rfl rfl rfl (by simp)

theorem of_options {d : Disk π} (h : options d m os = .ok m') : Parsed os m m' := by
  induction os generalizing m with
  | nil =>
    cases h
    exact .refl _
  | cons o os ih =>
    obtain ⟨m1, h1, h2⟩ := options_cons h
    exact (of_option h1).trans (ih h2)

end Parsed

end

section
variable {π : Type} [DecidableEq π] {fuel : Nat} {d d' : Disk π} {x : Exit}

theorem generate_frame {m : Globals π} {start : Bytes}
    (h : generate fuel d m start = some (x, d')) : Disk.Frame {q | m.oname = some q} d d' := by
  unfold generate at h
  cases ho : m.oname with
  | none =>
    rw [ho] at h
    cases h
    exact .refl _ _
  | some oname =>
    have hmem : oname ∈ {q | some oname = some q} := rfl
    rw [ho] at h
    dsimp only at h
    split at h
    · cases h
      exact .refl _ _
    split at h
    · cases h
      exact .refl _ _
    split at h
    · split at h
      · cases h
      · cases h
        exact (Disk.Frame.refl _ d).set hmem _
      · cases h
        exact (Disk.Frame.refl _ d).set hmem _
    · cases h
      exact .refl _ _

/-- The files that `coff2exe` may write. -/
def written (temp fname : π) (oname : Option π) : Set π :=
  match oname with
  | some oname => {oname}
  | none => {fname, temp}

theorem writeOutput_frame {o : Options} {fname : π} {oname : Option π} {f : Bytes} {p : Prepared}
    (h : writeOutput fuel d o fname oname f p = some (x, d')) :
    Disk.Frame (written d.temp fname oname) d d' := by
  unfold writeOutput at h
  split at h
  · cases h
    exact .refl _ _
  cases oname with
  | some oname =>
    have hmem : oname ∈ written d.temp fname (some oname) := rfl
    dsimp only at h
    split at h
    · split at h
      · split at h
        · cases h
        · cases h
          exact (Disk.Frame.refl _ d).set hmem _
      · cases h
        exact (Disk.Frame.refl _ d).set hmem _
    · cases h
      exact .refl _ _
  | none =>
    have hfile : fname ∈ written d.temp fname none := .inl rfl
    have htemp : d.temp ∈ written d.temp fname none := .inr rfl
    dsimp only at h
    split at h
    · cases h
      exact (((Disk.Frame.refl _ d).set htemp _).set hfile _).set htemp _
    · cases h
      exact (Disk.Frame.refl _ d).set htemp _

theorem convert_frame {tmpl : Bytes} {stubVer : Nat} {o : Options} {fname : π} {oname : Option π}
    (h : convert fuel d tmpl stubVer o fname oname = some (x, d')) :
    Disk.Frame (written d.temp fname oname) d d' := by
  unfold convert at h
  split at h
  · cases h
    exact .refl _ _
  split at h
  · cases h
  · cases h
    exact .refl _ _
  split at h
  · cases h
    exact .refl _ _
  · exact writeOutput_frame h

/-- Whatever `main` returns, it has left the disk alone, generated or converted. -/
theorem main_cases {opts : List (Opt π)} {args : List π} (h : main fuel d opts args = some (x, d')) :
    d' = d ∨ ∃ m start, options d Globals.init opts = .ok m ∧ stubAccepted start ∧
      ((m.generate = true ∧ ∃ x, generate fuel d (downgrade m) start = some (x, d')) ∨
        (m.generate = false ∧ ∃ fname rest x, args = fname :: rest ∧
          convert fuel d start (downgrade m).stubVer m.options fname m.oname = some (x, d'))) := by
  unfold main at h
  cases hm : options d Globals.init opts with
  | error e =>
    rw [hm] at h
    cases h
    exact .inl rfl
  | ok m =>
  obtain ⟨-, -, -, hname, hgen, -⟩ := downgrade_fields m
  rw [hm] at h
  dsimp only at h
  split at h
  · cases h
    exact .inl rfl
  next start hstart =>
  split at h
  case isFalse =>
    cases h
    exact .inl rfl
  next hacc =>
  split at h
  next hg =>
    rw [hgen] at hg
    exact .inr ⟨m, start, rfl, hacc, .inl ⟨hg, x, h⟩⟩
  next hg =>
    rw [hgen] at hg
    split at h
    · cases h
      exact .inl rfl
    next fname rest =>
    refine .inr ⟨m, start, rfl, hacc, .inr ⟨by simpa using hg, fname, rest, ?_⟩⟩
    rw [hname, downgrade_options] at h
    split at h
    · cases h
    next hconv =>
      cases h
      exact ⟨_, rfl, hconv⟩
    next hconv =>
      cases h
      exact ⟨_, rfl, hconv⟩

/-- In place and without `-r` a file stays as it is, or is replaced by what `coff2exe`
makes of it. -/
theorem convert_in_place {tmpl g : Bytes} {stubVer : Nat} {o : Options} {file : π}
    (hfile : file ≠ d.temp)
    (hg : d.files file = some g) (h : convert fuel d tmpl stubVer o file none = some (x, d')) :
    d'.files file = some g ∨ ∃ g', d'.files file = some g' ∧ o.info = false ∧
      coff2exe fuel tmpl stubVer o g = some (.ok (.file g')) := by
  unfold convert at h
  rw [hg] at h
  dsimp only at h
  split at h
  · cases h
  · cases h
    exact .inl hg
  next w hw =>
  split at h
  · cases h
    exact .inl hg
  next q hq =>
  unfold writeOutput at h
  split at h
  · cases h
    exact .inl hg
  next hinfo =>
  dsimp only at h
  split at h
  · cases h
    refine .inr ⟨q.outBytes o g, ?_, by simpa using hinfo, ?_⟩
    · rw [Disk.set_temp, Disk.set_files_of_ne _ _ hfile, Disk.set_files_self, Disk.set_files_self]
    · rw [coff2exe, hw]
      dsimp only
      rw [hq]
      dsimp only
      rw [if_neg hinfo]
  · cases h
    exact .inl (by rw [Disk.set_files_of_ne _ _ hfile, hg])

end

/-! ## Commands -/

/-- A command line. -/
structure Command (π : Type) where
  opts : List (Opt π)
  args : List π

namespace Command

variable {π : Type}

def oname (c : Command π) : Option π := lastOutput c.opts none

/-- The files that a command may write. -/
def outputs (c : Command π) (temp : π) : Set π :=
  match c.oname with
  | some oname => {oname}
  | none => {q | c.args.head? = some q ∨ q = temp}

/-- The command has some other file as its output, or it works on `file` in place and
does not take the stub away. -/
def Spares (file : π) (c : Command π) : Prop :=
  c.oname ≠ some file ∧ (c.oname = none → c.args.head? = some file → Opt.r ∉ c.opts)

variable [DecidableEq π] {c : Command π} {d d' : Disk π}

/-- `main` ends with these files, whatever it returns and whatever the buffers do. -/
def Leaves (c : Command π) (d d' : Disk π) : Prop :=
  ∃ b fuel x, main fuel (d.buffered b) c.opts c.args = some (x, d')

theorem leaves_of_main {fuel : Nat} {x : Exit} (h : main fuel d c.opts c.args = some (x, d')) :
    c.Leaves d d' := ⟨d.buffers, fuel, x, h⟩

theorem frame (h : c.Leaves d d') : Disk.Frame (c.outputs d.temp) d d' := by
  obtain ⟨b, fuel, x, h⟩ := h
  refine Disk.Frame.of_buffered (b := b) ?_
  rcases main_cases h with rfl | ⟨m, start, hm, -, ⟨-, x, hgen⟩ | ⟨-, fname, rest, x, hargs, hconv⟩⟩
  · exact .refl _ _
  · have ho : (downgrade m).oname = c.oname :=
      (downgrade_fields m).2.2.2.1.trans (Parsed.of_options hm).oname
    refine (generate_frame hgen).mono fun q hq => ?_
    rw [ho] at hq
    rw [outputs, show c.oname = some q from hq]
    rfl
  · refine (convert_frame hconv).mono ?_
    rw [show m.oname = c.oname from (Parsed.of_options hm).oname]
    unfold written outputs
    rw [hargs]
    cases c.oname with
    | some oname => exact subset_rfl
    | none =>
      rintro q (rfl | rfl)
      · exact .inl rfl
      · exact .inr rfl

/-- A file that is not an output changes only where it is converted in place. -/
theorem in_place (h : c.Leaves d d') {file : π} (hc : c.oname ≠ some file) (htemp : file ≠ d.temp) :
    d'.files file = d.files file ∨ ∃ b fuel x m start,
      options (d.buffered b) Globals.init c.opts = .ok m ∧ stubAccepted start ∧ c.oname = none ∧
      c.args.head? = some file ∧
      convert fuel (d.buffered b) start (downgrade m).stubVer m.options file none = some (x, d') := by
  by_cases hq : file ∈ c.outputs d.temp
  case neg => exact .inl ((frame h).files file hq)
  cases ho : c.oname with
  | some oname =>
    rw [outputs, ho] at hq
    rw [ho, show file = oname from hq] at hc
    exact absurd rfl hc
  | none =>
    rw [outputs, ho] at hq
    have hfile : c.args.head? = some file := hq.resolve_right htemp
    obtain ⟨b, fuel, x, h⟩ := h
    rcases main_cases h with rfl | ⟨m, start, hm, hacc, ⟨-, x, hgen⟩ | ⟨-, fname, rest, x, hargs, hconv⟩⟩
    · exact .inl rfl
    · have hname : (downgrade m).oname = none :=
        (downgrade_fields m).2.2.2.1.trans ((Parsed.of_options hm).oname.trans ho)
      refine .inl ((generate_frame hgen).files file fun hq => ?_)
      rw [hname] at hq
      cases hq
    · rw [hargs] at hfile
      cases hfile
      rw [show m.oname = none from (Parsed.of_options hm).oname.trans ho] at hconv
      exact .inr ⟨b, fuel, x, m, start, hm, hacc, rfl, by rw [hargs]; rfl, hconv⟩

/-- A command that spares the file rewrites it once, or not at all. -/
theorem rewrites (h : c.Leaves d d') {file : π} (hc : c.Spares file) (htemp : file ≠ d.temp) {g : Bytes}
    (hg : d.files file = some g) : ∃ os g', d'.files file = some g' ∧ Runs Rewrite.Writes os g g' := by
  rcases in_place h hc.1 htemp with hsame | ⟨b, fuel, x, m, start, hm, hacc, ho, hfile, hconv⟩
  · exact ⟨[], g, hsame.trans hg, .nil g⟩
  have hg' : (d.buffered b).files file = some g := hg
  rcases convert_in_place (d := d.buffered b) htemp hg' hconv with hsame | ⟨g', hg', hinfo, hrun⟩
  · exact ⟨[], g, hsame, .nil g⟩
  · have hr : m.rmstub = false := (Parsed.of_options hm).rmstub (hc.2 ho hfile)
    have hopt : m.options = { info := false, rmstub := false, strip := m.strip } := by
      rw [Globals.options, hr]
      exact congrArg (fun i => Options.mk i false m.strip) hinfo
    rw [hopt] at hrun
    exact ⟨[⟨start, (downgrade m).stubVer, m.strip⟩], g', hg', .cons ⟨hacc, fuel, hrun⟩ (.nil g')⟩

end Command

/-! ## From the link to the start, whatever has been run since -/

section
variable {π : Type} [DecidableEq π] {d d' : Disk π} {cmds : List (Command π)}

/-- No command writes a file that none of them names as its output. -/
theorem session_frame (hses : Runs Command.Leaves cmds d d') {S : Set π}
    (hS : ∀ c ∈ cmds, c.outputs d.temp ⊆ S) : Disk.Frame S d d' := by
  induction hses with
  | nil d => exact .refl _ _
  | cons hc _ ih =>
    have hframe := (Command.frame hc).mono (hS _ (List.mem_cons_self ..))
    refine hframe.trans (ih fun c hmem => ?_)
    rw [hframe.temp]
    exact hS c (List.mem_cons_of_mem _ hmem)

theorem session_rewrites (hses : Runs Command.Leaves cmds d d') {file : π}
    (hspare : ∀ c ∈ cmds, c.Spares file) (htemp : file ≠ d.temp) {g : Bytes}
    (hg : d.files file = some g) : ∃ os g', d'.files file = some g' ∧ Runs Rewrite.Writes os g g' := by
  obtain ⟨os, g', ⟨hg', -⟩, hrun⟩ := hses.traced (S := fun d g => d.files file = some g ∧ file ≠ d.temp)
    (fun c d d1 g hc ⟨hg, htemp⟩ hstep => by
      obtain ⟨os, g', hg', hrun⟩ := Command.rewrites hstep hc htemp hg
      exact ⟨os, g', ⟨hg', by rw [(Command.frame hstep).temp]; exact htemp⟩, hrun⟩)
    hspare ⟨hg, htemp⟩
  exact ⟨os, g', hg', hrun⟩

variable {σ : Type} (h : Host σ) {fuel : Nat} {d'' : Disk π} {m : Globals π}
  {opts : List (Opt π)} {args : List π} {oname : π} {start g c : Bytes} {ovls : List (Nat × π)}
  {cs : List Bytes} {tmp : Page} {ops : LdOps} {P : Program}

/-- The program that `-g` has linked first is what DOS gets to run, after any session that
spares the file: it may have been listed, stripped and given other stubs, runs may have
failed, and other files may have been worked on in between. -/
theorem session_keeps_program (hrun : main fuel d opts args = some (.ret 0, d'))
    (hm : options d Globals.init opts = .ok m) (hgen : m.generate = true) (hi : Introduces opts ovls)
    (h3 : ovls.length ≤ 3) (ho : m.oname = some oname)
    (hc : Copied d oname (ovls.map Prod.snd) cs) (hne : ∀ c ∈ cs, c ≠ []) (hs : m.start = some start)
    (hz : ZeroArea start) (hfile : d'.files oname = some g) (hfirst : cs.head? = some c)
    (hP : Denotes tmp ops c P) (hses : Runs Command.Leaves cmds d' d'')
    (hspare : ∀ c ∈ cmds, c.Spares oname) (htemp : oname ≠ d.temp) :
    ∃ g'' vs, d''.files oname = some g'' ∧ vs ≠ [] ∧ vs <+: cs ∧
      (g''.length < 2 ^ 31 → Boots h tmp P vs g'') := by
  have htemp' : oname ≠ d'.temp := by
    rw [(Command.frame (c := ⟨opts, args⟩) (Command.leaves_of_main hrun)).temp]
    exact htemp
  obtain ⟨os, g'', hg'', hos⟩ := session_rewrites hses hspare htemp' hfile
  obtain ⟨a, v, r, -, hdata, hv, rfl⟩ :=
    linked_represents hrun hm hgen hi h3 ho hc hne hs hz hfile hfirst hP.magic
  obtain ⟨a'', n'', r'', hd⟩ := r.descends hos
  have hv'' := hd.head_eq hv
  refine ⟨g'', a''.overlays.map Overlay.data, hg'', ?_, hdata ▸ hd.overlays.map Overlay.data,
    fun hlen => r''.boots h hv'' hlen hP⟩
  intro hnil
  rw [List.map_eq_nil_iff.mp hnil] at hv''
  cases hv''

end

/-! ## Programs that the tool refuses to work on -/

section
variable {π : Type} [DecidableEq π] {d d' d'' : Disk π} {cmds : List (Command π)}

/-- Whatever it is asked for, `coff2exe` gets no further than the first header. -/
def Refused (g : Bytes) : Prop := ∀ o, ∃ e, walkStep g o Walk.init = .stop (.error e)

theorem HasStub.refused {g : Bytes} {n : Nat} (hs : HasStub g n)
    (hver : byteAt (headerAt g 0) 0x3b < 8) :
    Refused g := by
  intro o
  have hstep := walkStep_full (o := o) (w := Walk.init) (c := 0) rfl hs.full
  rw [if_pos hs.mz, if_pos hs.lfanew, lfanewHeader] at hstep
  dsimp only at hstep
  rw [if_pos hver] at hstep
  exact ⟨_, hstep⟩

theorem convert_refused {g tmpl : Bytes} {stubVer fuel : Nat} {o : Options} {file : π} {oname : Option π}
    {x : Exit} (hg : d.files file = some g) (hr : Refused g)
    (h : convert fuel d tmpl stubVer o file oname = some (x, d')) : d' = d := by
  obtain ⟨e, he⟩ := hr o
  unfold convert at h
  rw [hg] at h
  dsimp only at h
  cases fuel with
  | zero => cases h
  | succ n =>
    rw [run_of_stop he] at h
    cases h
    rfl

theorem Command.leaves_refused {c : Command π} (h : c.Leaves d d') {file : π} (hc : c.oname ≠ some file)
    (htemp : file ≠ d.temp) {g : Bytes} (hg : d.files file = some g) (hr : Refused g) :
    d'.files file = some g := by
  rcases in_place h hc htemp with hsame | ⟨b, fuel, x, m, start, -, -, -, -, hconv⟩
  · exact hsame.trans hg
  · have hg' : (d.buffered b).files file = some g := hg
    rw [convert_refused hg' hr hconv, hg']

theorem session_refused (hses : Runs Command.Leaves cmds d d') {file : π}
    (hout : ∀ c ∈ cmds, c.oname ≠ some file) (htemp : file ≠ d.temp) {g : Bytes}
    (hg : d.files file = some g) (hr : Refused g) : d'.files file = some g := by
  refine (hses.kept (Q := fun d => file ≠ d.temp ∧ d.files file = some g) ?_ hout ⟨htemp, hg⟩).2
  rintro c d d1 hc ⟨htemp, hg⟩ hstep
  exact ⟨by rw [(Command.frame hstep).temp]; exact htemp, Command.leaves_refused hstep hc htemp hg hr⟩

/-- The version is still the default, or 7. -/
def Globals.Old (m : Globals π) : Prop := m.stubVer = 7 ∨ m.reqVer = 0 ∧ m.stubVer = 8

omit [DecidableEq π] in
theorem option_old {m m' : Globals π} {o : Opt π} (hm : m.Old) (hV : ∀ v, o = .V v → v = some 7)
    (h : option d m o = .ok m') : m'.Old := by
  cases o with
  | V optarg =>
    cases hV optarg rfl
    rw [option, reqVersion] at h
    rcases hm with h7 | ⟨-, h8⟩
    · simp only [h7, Option.getD_some] at h
      cases h
      exact .inl rfl
    · simp only [h8, Option.getD_some] at h
      cases h
      exact .inl rfl
  | l p =>
    obtain ⟨-, rfl⟩ := option_l.mp h
    exact hm
  | t v =>
    obtain ⟨-, rfl⟩ := option_t.mp h
    exact hm
  | n v =>
    cases v with
    | none => cases h
    | some v =>
      cases h
      exact hm
  | f v =>
    cases v with
    | none => cases h
    | some v =>
      cases h
      exact hm
  | S p =>
    simp only [option] at h
    split at h
    · cases h
    · cases h
      exact hm
  | v => cases h
  | h => cases h
  | _ =>
    cases h
    exact hm

omit [DecidableEq π] in
theorem options_old {m m' : Globals π} {os : List (Opt π)} (hm : m.Old)
    (hV : ∀ v, Opt.V v ∈ os → v = some 7) (h : options d m os = .ok m') : m'.Old := by
  induction os generalizing m with
  | nil =>
    cases h
    exact hm
  | cons o os ih =>
    obtain ⟨m1, h1, h2⟩ := options_cons h
    refine ih (option_old hm (fun v ho => hV v ?_) h1) (fun v hv => hV v (List.mem_cons_of_mem _ hv)) h2
    rw [ho]
    exact List.mem_cons_self ..

omit [DecidableEq π] in
theorem Globals.Old.downgraded {m : Globals π} (hm : m.Old) (hov : m.overlay ≠ []) :
    (downgrade m).stubVer = 7 := by
  rcases hm with h7 | ⟨h0, h8⟩
  · rw [downgrade, if_neg (by simp [h7]), h7]
  · rw [downgrade, if_pos ⟨h0, by simp [h8], hov⟩, if_pos h8]

variable {σ : Type} (h : Host σ) {fuel : Nat} {m : Globals π}
  {opts : List (Opt π)} {args : List π} {oname : π} {start g c : Bytes} {ovls : List (Nat × π)}
  {cs : List Bytes} {tmp : Page} {ops : LdOps} {P : Program}

/-- What has been linked without `-V`, or with `-V 7`, is out of reach of the tool: it
stays as it is whatever is tried on it, also with `-r`, unless some command writes its
output there. DOS starts it all the same, with all of up to three overlays. -/
theorem old_program_stays (hrun : main fuel d opts args = some (.ret 0, d'))
    (hm : options d Globals.init opts = .ok m) (hgen : m.generate = true)
    (hV : ∀ v, Opt.V v ∈ opts → v = some 7) (hov : m.overlay ≠ []) (ho : m.oname = some oname)
    (hfile : d'.files oname = some g) (hses : Runs Command.Leaves cmds d' d'')
    (hout : ∀ c ∈ cmds, c.oname ≠ some oname) (htemp : oname ≠ d.temp) :
    d''.files oname = some g ∧ (Introduces opts ovls → ovls.length ≤ 3 →
      Copied d oname (ovls.map Prod.snd) cs → (∀ c ∈ cs, c ≠ []) → m.start = some start →
      ZeroArea start → cs.head? = some c → Denotes tmp ops c P → g.length < 2 ^ 31 →
      Boots h tmp P cs g) := by
  constructor
  · obtain ⟨start', g1, hg1, hgen'⟩ := main_generate hrun hm hgen ho
    cases hfile.symm.trans hg1
    have hold : (downgrade m).stubVer = 7 := (options_old (.inr ⟨rfl, rfl⟩) hV hm).downgraded hov
    have htemp' : oname ≠ d'.temp := by
      rw [(Command.frame (c := ⟨opts, args⟩) (Command.leaves_of_main hrun)).temp]
      exact htemp
    refine session_refused hses hout htemp' hfile (hgen'.stub.refused ?_)
    rw [hgen'.version, hold]
    decide
  · intro hi h3 hc hne hs hz hfirst hP hlen
    obtain ⟨a, v, r, -, hdata, hv, rfl⟩ :=
      linked_represents hrun hm hgen hi h3 ho hc hne hs hz hfile hfirst hP.magic
    rw [← hdata]
    exact r.boots h hv hlen hP

end

/-! ## A session -/

/-- `-S 0 -s 9`, `-S 0 -V 3 9`, which is refused, and `-S 0 -i 9`. -/
def gameSession : List (Command Nat) :=
  [⟨[.S 0, .s], [9]⟩, ⟨[.S 0, .V (some 3)], [9]⟩, ⟨[.S 0, .i], [9]⟩]

theorem gameSession_run : ∃ d' d'', main 0 gameDisk gameOpts [] = some (.ret 0, d') ∧
    d'.files 9 = some gameExe ∧ Runs Command.Leaves gameSession d' d'' ∧
    d''.files 9 = some strippedGame := by
  have hrun : ((main 0 gameDisk gameOpts []).bind fun r => (main 2 r.2 [.S 0, .s] [9]).bind fun r1 =>
      (main 2 r1.2 [.S 0, .V (some 3)] [9]).bind fun r2 => (main 2 r2.2 [.S 0, .i] [9]).map fun r3 =>
        (r.1, r.2.files 9, r3.2.files 9)) = some (.ret 0, some gameExe, some strippedGame) := by
    decide +kernel
  obtain ⟨⟨x, d'⟩, h0, hrun⟩ := Option.bind_eq_some_iff.mp hrun
  obtain ⟨⟨x1, d1⟩, h1, hrun⟩ := Option.bind_eq_some_iff.mp hrun
  obtain ⟨⟨x2, d2⟩, h2, hrun⟩ := Option.bind_eq_some_iff.mp hrun
  obtain ⟨⟨x3, d3⟩, h3, hrun⟩ := Option.map_eq_some_iff.mp hrun
  simp only [Prod.mk.injEq] at hrun
  obtain ⟨rfl, hg, hg3⟩ := hrun
  have hses : Runs Command.Leaves gameSession d' d3 :=
    .cons (Command.leaves_of_main h1)
      (.cons (Command.leaves_of_main h2) (.cons (Command.leaves_of_main h3) (.nil d3)))
  exact ⟨d', d3, h0, hg, hses, hg3⟩

theorem session_frame_game : ∃ d', main 0 gameDisk gameOpts [] = some (.ret 0, d') ∧
    d'.files 1 = some smallElf := by
  obtain ⟨d', d'', hrun, -⟩ := gameSession_run
  have hses : Runs Command.Leaves [⟨gameOpts, []⟩] gameDisk d' :=
    .cons (Command.leaves_of_main hrun) (.nil d')
  have hframe := session_frame hses (S := {9})
    (by simp [gameOpts, Command.outputs, Command.oname, lastOutput])
  exact ⟨d', hrun, hframe.files 1 (by decide)⟩

theorem session_keeps_program_game : ∃ P, Denotes blankPage .elf smallElf P ∧ ∃ d' d'' vs,
    main 0 gameDisk gameOpts [] = some (.ret 0, d') ∧ Runs Command.Leaves gameSession d' d'' ∧
    vs <+: [smallElf, [7, 7, 7]] ∧ Boots tableHost blankPage P vs strippedGame ∧
    ∃ envp i q, (startBoot true [0x41] strippedGame).Does tableHost blankPage firstState
      (enterProgram tableHost ((startBoot true [0x41] strippedGame).process envp) 5 P i q) := by
  obtain ⟨P, hP⟩ := smallElf_denotes
  obtain ⟨d', d'', hrun, hfile, hses, hend⟩ := gameSession_run
  have hi : Introduces gameOpts [(1, 1), (5, 2)] := ⟨by decide, by decide⟩
  have hc : Copied gameDisk 9 ([(1, 1), (5, 2)].map Prod.snd) [smallElf, [7, 7, 7]] :=
    ⟨by decide, rfl⟩
  have hne : ∀ c ∈ [smallElf, [7, 7, 7]], c ≠ [] := by decide +kernel
  have hspare : ∀ c ∈ gameSession, c.Spares 9 := by
    simp [gameSession, Command.Spares, Command.oname, lastOutput]
  obtain ⟨g, vs, hg, -, hvs, hboot⟩ := session_keeps_program tableHost hrun rfl rfl hi (by decide)
    rfl hc hne rfl (by decide) hfile rfl hP hses hspare (by decide)
  rw [hend] at hg
  cases hg
  have hboots := hboot (by decide +kernel)
  obtain ⟨envp, i, q, -, hq, -⟩ := hboots (startBoot true [0x41] strippedGame) firstState [[0x41]] [1, 0]
    [0x53] 5 (startBoot_fromDos (by decide)) (startBoot_builtin tableHost firstState) (by decide) rfl
  exact ⟨P, hP, d', d'', vs, hrun, hses, hvs, hboots, envp, i, q, hq⟩

/-- `gameOpts` without `-V` -/
def oldOpts : List (Opt Nat) :=
  [.S 0, .g, .f (some 0x2080), .o (some 9), .t (some 1), .l 1, .t (some 5), .l 2]

/-- `-S 0 -s 9` and `-S 0 -r 9` -/
def oldSession : List (Command Nat) := [⟨[.S 0, .s], [9]⟩, ⟨[.S 0, .r], [9]⟩]

theorem old_program_stays_game : ∃ P, Denotes blankPage .elf smallElf P ∧ ∃ d' d'' g,
    main 0 gameDisk oldOpts [] = some (.ret 0, d') ∧ Runs Command.Leaves oldSession d' d'' ∧
    d''.files 9 = some g ∧ Boots tableHost blankPage P [smallElf, [7, 7, 7]] g := by
  obtain ⟨P, hP⟩ := smallElf_denotes
  have hall : ((main 0 gameDisk oldOpts []).bind fun r => (main 2 r.2 [.S 0, .s] [9]).bind fun r1 =>
      (main 2 r1.2 [.S 0, .r] [9]).map fun r2 => (r.1, r1.1, r2.1, (r.2.files 9).map List.length)) =
        some (.ret 0, .ret 1, .ret 1, some 217) := by
    decide +kernel
  obtain ⟨⟨x, d'⟩, hrun, hall⟩ := Option.bind_eq_some_iff.mp hall
  obtain ⟨⟨x1, d1⟩, h1, hall⟩ := Option.bind_eq_some_iff.mp hall
  obtain ⟨⟨x2, d2⟩, h2, hall⟩ := Option.map_eq_some_iff.mp hall
  simp only [Prod.mk.injEq] at hall
  obtain ⟨rfl, -, -, hlen⟩ := hall
  obtain ⟨g, hg, hlen⟩ := Option.map_eq_some_iff.mp hlen
  have hi : Introduces oldOpts [(1, 1), (5, 2)] := ⟨by decide, by decide⟩
  have hc : Copied gameDisk 9 ([(1, 1), (5, 2)].map Prod.snd) [smallElf, [7, 7, 7]] :=
    ⟨by decide, rfl⟩
  have hne : ∀ c ∈ [smallElf, [7, 7, 7]], c ≠ [] := by decide +kernel
  have hses : Runs Command.Leaves oldSession d' d2 :=
    .cons (Command.leaves_of_main h1) (.cons (Command.leaves_of_main h2) (.nil d2))
  have hout : ∀ c ∈ oldSession, c.oname ≠ some 9 := by simp [oldSession, Command.oname, lastOutput]
  obtain ⟨hsame, hboots⟩ :=
    old_program_stays tableHost hrun rfl rfl (by simp [oldOpts]) (by decide) rfl hg
    hses hout (by decide)
  exact ⟨P, hP, d', d2, g, hrun, hses, hsame,
    hboots hi (by decide) hc hne rfl (by decide) rfl hP (by rw [hlen]; decide)⟩

end Djstub
