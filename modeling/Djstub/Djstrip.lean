import Djstub.Lifecycle
import Djstub.Lines

/-! `djstrip`: a shell script that lists a file with `-i`, looks for `debug info` in
what is printed and only then runs `-s` on it. -/

namespace Djstub

open Bytes Layout Lines Loop Simulation

/-! ## The text of a listing -/

abbrev Text := List Char

def decimal (n : Nat) : Text := Nat.toDigits 10 n

def decimalInt (z : Int) : Text := if z < 0 then '-' :: decimal z.natAbs else decimal z.natAbs

/-- `iprintf`. `decode` is `bytes.decode` with errors ignored. -/
def Info.text (decode : Bytes → Text) : Info → Text
  | .dj64Format => "dj64 file format\n".toList
  | .dosPayloadDynamic => "DOS payload dynamic\n".toList
  | .coffOverlay offs sz =>
    "Overlay 0 (i386/".toList ++ (payloadDsc.getD ObjType.otCoff.value "").toList ++
      ")\n\tat ".toList ++ decimal offs ++ ", size ".toList ++ decimal sz ++ ['\n']
  | .overlay i typeVal ident name offs sz =>
    "Overlay ".toList ++ decimal i ++ " (".toList ++ ident.toList ++
      (if isDebug typeVal then " for ".toList ++ decode name else []) ++
      ")\n\tat ".toList ++ decimal offs ++ ", size ".toList ++ decimal sz ++ ['\n']
  | .stubVersion v => "Stub version: ".toList ++ decimal v ++ ['\n']
  | .stubFlags flags =>
    "Stub flags: 0x".toList ++ (Nat.toDigits 16 flags).leftpad 4 '0' ++ ['\n']
  | .exeFormat => "exe/djgpp file format\n".toList
  | .coffPayload coffset => "COFF payload at ".toList ++ decimalInt coffset ++ ['\n']
  | .elfPayload ident coffset =>
    "ELF payload for ".toList ++ ident.toList ++ " at ".toList ++ decimalInt coffset ++ ['\n']

def infoText (decode : Bytes → Text) (ibuf : List Info) : Text :=
  (ibuf.map (Info.text decode)).flatten

/-- `"debug info"` -/
def debugInfo : Text := ['d', 'e', 'b', 'u', 'g', ' ', 'i', 'n', 'f', 'o']

/-- The line of a debug overlay. -/
def Info.ShowsDebug : Info → Prop
  | .overlay _ typeVal .. => isDebug typeVal
  | _ => False

/-- What is said about an ELF file is what `elf_id` says. -/
def Info.Made (f : Bytes) : Info → Prop
  | .overlay _ typeVal ident .. => ∃ offs, ident = identify typeVal f offs
  | .elfPayload ident _ => ∃ offs, ident = elfId f offs
  | _ => True

theorem decimal_digit {n : Nat} {c : Char} (h : c ∈ decimal n) : c.isDigit = true :=
  Nat.isDigit_of_mem_toDigits (by decide) (by decide) h

theorem not_mem_decimal {c : Char} (hc : c.isDigit = false) (n : Nat) : c ∉ decimal n := by
  intro h
  rw [decimal_digit h] at hc
  cases hc

theorem not_mem_decimalInt {c : Char} (hc : c.isDigit = false) (hm : c ≠ '-') (z : Int) :
    c ∉ decimalInt z := by
  unfold decimalInt
  split
  · rw [List.mem_cons]
    exact fun h => h.elim hm (not_mem_decimal hc _)
  · exact not_mem_decimal hc _

theorem elfId_mem (f : Bytes) (offs : Nat) : elfId f offs ∈
    ["???", "Not an ELF", "unsupported ELF class", "i386", "x86_64", "arm", "aarch64", "riscv",
      "unsupported ELF machine type"] := by
  unfold elfId elfMach
  dsimp only
  split
  · simp
  · split
    · simp
    · split
      · split <;> simp
      · simp

theorem not_mem_elfId (f : Bytes) (offs : Nat) : 'b' ∉ (elfId f offs).toList := by
  have hall : ∀ s ∈ ["???", "Not an ELF", "unsupported ELF class", "i386", "x86_64", "arm",
      "aarch64", "riscv", "unsupported ELF machine type"], 'b' ∉ s.toList := by decide
  exact hall _ (elfId_mem f offs)

theorem not_mem_identify {t : Nat} (ht : ¬ isDebug t) (f : Bytes) (offs : Nat) :
    'b' ∉ (identify t f offs).toList := by
  unfold identify
  split
  · decide
  next h =>
    have hcase : t = 1 ∨ t = 2 ∨ t = 3 := by
      have h0 : ObjType.otCoff.value = 0 := rfl
      have h4 : ObjType.otD64.value = 4 := rfl
      have h5 : ObjType.otD32.value = 5 := rfl
      have h6 : ObjType.otMax.value = 6 := rfl
      unfold isDebug at ht
      omega
    rw [String.toList_append, String.toList_append, List.mem_append, List.mem_append]
    have hdsc : 'b' ∉ (payloadDsc.getD t "").toList := by
      rcases hcase with rfl | rfl | rfl <;> decide
    have hid := not_mem_elfId f offs
    have hbar : 'b' ∉ "/".toList := by decide
    tauto

theorem debugInfo_identify {t : Nat} (ht : isDebug t) (f : Bytes) (offs : Nat) :
    debugInfo <:+: (identify t f offs).toList := by
  have hid : identify t f offs = elfId f offs ++ "/" ++ payloadDsc.getD t "" := by
    rcases ht with rfl | rfl <;> rfl
  have hdsc : debugInfo <:+: (payloadDsc.getD t "").toList := by
    rcases ht with rfl | rfl <;> decide
  rw [hid, String.toList_append]
  exact List.infix_append_of_infix_right hdsc

theorem Info.text_ends (decode : Bytes → Text) (l : Info) : ∃ b, l.text decode = b ++ ['\n'] := by
  cases l with
  | dj64Format => exact ⟨"dj64 file format".toList, rfl⟩
  | dosPayloadDynamic => exact ⟨"DOS payload dynamic".toList, rfl⟩
  | exeFormat => exact ⟨"exe/djgpp file format".toList, rfl⟩
  | _ => exact ⟨_, rfl⟩

/-- In the line of anything else a letter of the pattern is missing, whatever numbers
it shows. -/
theorem Info.text_misses (decode : Bytes → Text) {f : Bytes} {l : Info} (hl : l.Made f)
    (hs : ¬ l.ShowsDebug) : ∃ c ∈ ['b', 'g', 'n'], c ∉ l.text decode := by
  have hb (n : Nat) := not_mem_decimal (c := 'b') rfl n
  have hg (n : Nat) := not_mem_decimal (c := 'g') rfl n
  have hz (z : Int) := not_mem_decimalInt (c := 'b') rfl (by decide) z
  cases l with
  | dj64Format => exact ⟨'b', by decide, show 'b' ∉ "dj64 file format\n".toList by decide⟩
  | dosPayloadDynamic => exact ⟨'b', by decide, show 'b' ∉ "DOS payload dynamic\n".toList by decide⟩
  | exeFormat => exact ⟨'b', by decide, show 'b' ∉ "exe/djgpp file format\n".toList by decide⟩
  | coffOverlay offs sz =>
    refine ⟨'b', by decide, ?_⟩
    unfold Info.text
    simp only [List.mem_append, not_or]
    refine ⟨⟨⟨⟨⟨⟨?_, ?_⟩, ?_⟩, hb offs⟩, ?_⟩, hb sz⟩, ?_⟩ <;> decide
  | stubVersion v =>
    refine ⟨'g', by decide, ?_⟩
    unfold Info.text
    simp only [List.mem_append, not_or]
    refine ⟨⟨?_, hg v⟩, ?_⟩ <;> decide
  | stubFlags flags =>
    have h1 : 'n' ∉ Nat.toDigits 16 flags := by
      intro h
      obtain ⟨d, hd, hn⟩ := mem_toDigits (by decide) h
      revert d
      decide
    refine ⟨'n', by decide, ?_⟩
    unfold Info.text
    simp only [List.leftpad, List.mem_append, List.mem_replicate, not_or]
    exact ⟨⟨by decide, fun h => absurd h.2 (by decide), h1⟩, by decide⟩
  | coffPayload coffset =>
    refine ⟨'b', by decide, ?_⟩
    unfold Info.text
    simp only [List.mem_append, not_or]
    refine ⟨⟨?_, hz coffset⟩, ?_⟩ <;> decide
  | elfPayload ident coffset =>
    obtain ⟨offs, rfl⟩ := hl
    refine ⟨'b', by decide, ?_⟩
    unfold Info.text
    simp only [List.mem_append, not_or]
    refine ⟨⟨⟨⟨?_, not_mem_elfId f offs⟩, ?_⟩, hz coffset⟩, ?_⟩ <;> decide
  | overlay i typeVal ident name offs sz =>
    obtain ⟨p, rfl⟩ := hl
    have ht : ¬ isDebug typeVal := hs
    refine ⟨'b', by decide, ?_⟩
    unfold Info.text
    simp only [if_neg ht, List.mem_append, not_or]
    refine ⟨⟨⟨⟨⟨⟨⟨⟨⟨?_, hb i⟩, ?_⟩, not_mem_identify ht f p⟩, ?_⟩, ?_⟩, hb offs⟩, ?_⟩, hb sz⟩, ?_⟩ <;>
      decide

theorem Info.text_shows (decode : Bytes → Text) {f : Bytes} {l : Info} (hl : l.Made f)
    (hs : l.ShowsDebug) : debugInfo <:+: l.text decode := by
  cases l with
  | overlay i typeVal ident name offs sz =>
    obtain ⟨p, rfl⟩ := hl
    unfold Info.text
    simp only [List.append_assoc]
    iterate 3 apply List.infix_append_of_infix_right
    exact List.infix_append_of_infix_left (debugInfo_identify hs f p)
  | _ => exact hs.elim

/-- Only the line of a debug overlay has the pattern. -/
theorem Info.text_debug (decode : Bytes → Text) {f : Bytes} {l : Info} (hl : l.Made f) :
    debugInfo <:+: l.text decode ↔ l.ShowsDebug := by
  refine ⟨fun h => ?_, l.text_shows decode hl⟩
  by_contra hs
  obtain ⟨c, hc, hmiss⟩ := l.text_misses decode hl hs
  have hall : ∀ c ∈ ['b', 'g', 'n'], c ∈ debugInfo := by simp [debugInfo]
  exact not_infix (hall c hc) hmiss h

/-- What the script looks for is a debug overlay in the listing. -/
theorem grep_debugInfo (decode : Bytes → Text) {f : Bytes} {ibuf : List Info}
    (hm : ∀ l ∈ ibuf, l.Made f) :
    grep '\n' debugInfo (infoText decode ibuf) ≠ [] ↔ ∃ l ∈ ibuf, l.ShowsDebug := by
  have hends : ∀ t ∈ ibuf.map (Info.text decode), ∃ b, t = b ++ ['\n'] := by
    intro t ht
    obtain ⟨l, -, rfl⟩ := List.mem_map.mp ht
    exact l.text_ends decode
  rw [grep_ne_nil_iff (by decide), infoText, infix_flatten (by decide) (by decide) hends]
  constructor
  · rintro ⟨t, ht, hin⟩
    obtain ⟨l, hl, rfl⟩ := List.mem_map.mp ht
    exact ⟨l, hl, (Info.text_debug decode (hm l hl)).mp hin⟩
  · rintro ⟨l, hl, hs⟩
    exact ⟨_, List.mem_map_of_mem hl, (Info.text_debug decode (hm l hl)).mpr hs⟩

/-! ## The script -/

/-- How `main` ends with a failure of `coff2exe`. -/
def Failure.code (e : Failure) : Exit := if e.message.isSome then .ret 1 else .raise

theorem Failure.code_ne (e : Failure) : e.code ≠ .ret 0 := by
  unfold Failure.code
  split <;> decide

theorem coff2exe_mono {tmpl : Bytes} {stubVer : Nat} {o : Options} {f : Bytes} {n m : Nat}
    (hnm : n ≤ m) {r : Except Failure Output} (h : coff2exe n tmpl stubVer o f = some r) :
    coff2exe m tmpl stubVer o f = some r := by
  unfold coff2exe at h ⊢
  cases hn : run (walkStep f o) n Walk.init with
  | none =>
    rw [hn] at h
    cases h
  | some x =>
    rw [hn] at h
    rw [run_mono hnm hn]
    exact h

section
variable {π : Type} [DecidableEq π]

/-- The listing that `main` prints. -/
def printed (fuel : Nat) (d : Disk π) (opts : List (Opt π)) (args : List π) : Option (List Info) :=
  match options d Globals.init opts with
  | .error _ => some []
  | .ok m =>
    match m.start, args with
    | some start, fname :: _ =>
      match d.files fname with
      | none => some []
      | some f =>
        if stubAccepted start ∧ m.generate = false ∧ m.info = true then
          match coff2exe fuel start (downgrade m).stubVer m.options f with
          | none => none
          | some (.ok (.info ibuf)) => some ibuf
          | some _ => some []
        else some []
    | _, _ => some []

/-- `djstrip`; `stub` is the file that the wrapper of `djstubify` passes with `-S`. -/
def djstrip (decode : Bytes → Text) (stub : π) (fuel : Nat) (d : Disk π) :
    Option π → Option (Exit × Disk π)
  | none => some (.exit 0, d)
  | some file =>
    match printed fuel d [.S stub, .i] [file] with
    | none => none
    | some ibuf =>
      if grep '\n' debugInfo (infoText decode ibuf) = [] then some (.exit 1, d)
      else main fuel d [.S stub, .s] [file]

theorem djstrip_some (decode : Bytes → Text) (stub : π) (fuel : Nat) (d : Disk π) (file : π) :
    djstrip decode stub fuel d (some file) =
      match printed fuel d [.S stub, .i] [file] with
      | none => none
      | some ibuf =>
        if grep '\n' debugInfo (infoText decode ibuf) = [] then some (.exit 1, d)
        else main fuel d [.S stub, .s] [file] := rfl

/-- The template and a file on the disk. -/
structure Disk.Holds (d : Disk π) (stub : π) (tmpl : Bytes) (file : π) (f : Bytes) : Prop where
  template : d.files stub = some tmpl
  accepted : stubAccepted tmpl
  short : tmpl.length < 2 ^ 32
  input : d.files file = some f
  movable : d.movable file = true
  fresh : d.files d.temp = none

section
variable {d : Disk π} {stub file : π} {tmpl f : Bytes} (hd : d.Holds stub tmpl file f)
include hd

omit [DecidableEq π] in
theorem Disk.Holds.temp_ne : file ≠ d.temp := by
  rintro h
  have hf := hd.input
  rw [h, hd.fresh] at hf
  cases hf

theorem Disk.Holds.set (hne : stub ≠ file) (g : Bytes) :
    (d.set file (some g)).Holds stub tmpl file g where
  template := by rw [Disk.set_files_of_ne _ _ hne, hd.template]
  accepted := hd.accepted
  short := hd.short
  input := Disk.set_files_self _ _ _
  movable := hd.movable
  fresh := by rw [Disk.set_temp, Disk.set_files_of_ne _ _ hd.temp_ne.symm, hd.fresh]

/-- After the move only the file is another. -/
theorem Disk.Holds.moved (g : Bytes) :
    ((d.set d.temp (some g)).set file (some g)).set d.temp none = d.set file (some g) := by
  have hfiles : (((d.set d.temp (some g)).set file (some g)).set d.temp none).files =
      (d.set file (some g)).files := by
    funext q
    by_cases hq : q = d.temp
    · rw [hq, Disk.set_files_self, Disk.set_files_of_ne _ _ hd.temp_ne.symm, hd.fresh]
    · rw [Disk.set_files_of_ne _ _ hq]
      by_cases hqf : q = file
      · rw [hqf, Disk.set_files_self, Disk.set_files_self]
      · rw [Disk.set_files_of_ne _ _ hqf, Disk.set_files_of_ne _ _ hq, Disk.set_files_of_ne _ _ hqf]
  exact congrArg (fun files => { d with files }) hfiles

omit [DecidableEq π] in
/-- The options of the script: the template, and what is to be done. -/
theorem script_options {o : Opt π} {m : Globals π}
    (ho : option d { Globals.init with start := some tmpl } o = .ok m) :
    options d Globals.init [.S stub, o] = .ok m := by
  have hS : option d Globals.init (.S stub) = .ok { Globals.init with start := some tmpl } := by
    rw [option, hd.template]
  rw [options, hS]
  dsimp only
  rw [options, ho]
  rfl

omit [DecidableEq π] in
theorem printed_listing {fuel : Nat} {ibuf : List Info}
    (h : coff2exe fuel tmpl defaultStubVer .listing f = some (.ok (.info ibuf))) :
    printed fuel d [.S stub, .i] [file] = some ibuf := by
  unfold printed
  rw [script_options hd (o := .i) rfl]
  dsimp only
  rw [hd.input]
  dsimp only
  rw [if_pos ⟨hd.accepted, rfl, rfl⟩]
  show (match coff2exe fuel tmpl defaultStubVer .listing f with
    | none => none
    | some (.ok (.info ibuf)) => some ibuf
    | some _ => some []) = some ibuf
  rw [h]

omit [DecidableEq π] in
theorem printed_error {fuel : Nat} {e : Failure}
    (h : coff2exe fuel tmpl defaultStubVer .listing f = some (.error e)) :
    printed fuel d [.S stub, .i] [file] = some [] := by
  unfold printed
  rw [script_options hd (o := .i) rfl]
  dsimp only
  rw [hd.input]
  dsimp only
  rw [if_pos ⟨hd.accepted, rfl, rfl⟩]
  show (match coff2exe fuel tmpl defaultStubVer .listing f with
    | none => none
    | some (.ok (.info ibuf)) => some ibuf
    | some _ => some []) = some []
  rw [h]

theorem main_strip {fuel : Nat} : main fuel d [.S stub, .s] [file] =
    match convert fuel d tmpl defaultStubVer .stripping file none with
    | none => none
    | some (.ret code, d) => some (.ret (if code = 0 then 0 else 1), d)
    | some (e, d) => some (e, d) := by
  unfold main
  rw [script_options hd (o := .s) rfl]
  dsimp only
  rw [if_pos hd.accepted]
  rfl

theorem main_strip_ok {fuel : Nat} {g : Bytes}
    (h : coff2exe fuel tmpl defaultStubVer .stripping f = some (.ok (.file g))) :
    main fuel d [.S stub, .s] [file] = some (.ret 0, d.set file (some g)) := by
  have hconv : convert fuel d tmpl defaultStubVer .stripping file none =
      some (.ret 0, d.set file (some g)) := by
    unfold coff2exe at h
    unfold convert
    rw [hd.input]
    dsimp only
    cases hw : run (walkStep f .stripping) fuel Walk.init with
    | none =>
      rw [hw] at h
      cases h
    | some x =>
      rw [hw] at h
      cases x with
      | error e => cases h
      | ok w =>
        dsimp only at h ⊢
        cases hp : prepare tmpl defaultStubVer f w with
        | error e =>
          rw [hp] at h
          cases h
        | ok q =>
          rw [hp] at h
          cases h
          dsimp only [writeOutput]
          rw [if_neg (by decide), if_pos (show (d.set _ _).movable file = true from hd.movable),
            Disk.set_temp, Disk.set_files_self, hd.moved]
  rw [main_strip hd, hconv]
  rfl

theorem main_strip_error {fuel : Nat} {e : Failure}
    (h : coff2exe fuel tmpl defaultStubVer .stripping f = some (.error e)) :
    main fuel d [.S stub, .s] [file] = some (e.code, d) := by
  have hconv : convert fuel d tmpl defaultStubVer .stripping file none = some (e.exit, d) := by
    unfold coff2exe at h
    unfold convert
    rw [hd.input]
    dsimp only
    cases hw : run (walkStep f .stripping) fuel Walk.init with
    | none =>
      rw [hw] at h
      cases h
    | some x =>
      rw [hw] at h
      cases x with
      | error e => cases h; rfl
      | ok w =>
        dsimp only at h ⊢
        cases hp : prepare tmpl defaultStubVer f w with
        | error e =>
          rw [hp] at h
          cases h
          rfl
        | ok q =>
          rw [hp] at h
          cases h
  rw [main_strip hd, hconv, Failure.exit, Failure.code]
  cases e.message.isSome with
  | true => rfl
  | false => rfl

end

/-! ## A file with debug info -/

/-- `bytes.decode` of ASCII. -/
def ascii (b : Bytes) : Text := b.map fun x => Char.ofNat x.toNat

/-- The template, and `debugExe`. -/
def debugDisk : Disk Nat := { packDisk with files := fun p => [bareTemplate, debugExe][p]? }

theorem debugDisk_holds : debugDisk.Holds 0 bareTemplate 1 debugExe :=
  ⟨rfl, by decide, by decide, rfl, rfl, rfl⟩

theorem debugArchive_accepted : debugArchive.Accepted :=
  ⟨by decide, by decide +kernel, fun _ => by decide, fun h => absurd h (by decide +kernel)⟩

/-! ## On an archive -/

/-- A debug overlay is listed. -/
def Archive.ListsDebug (a : Archive) : Prop := ∃ v ∈ a.overlays, isDebug v.type

/-- A line for a header is for an overlay, or says nothing of ELF files. -/
theorem headerLines_cases {f h : Bytes} {l : Info} (hl : l ∈ headerLines f h) :
    (l.Made f ∧ ¬ l.ShowsDebug) ∨ u16 h 0x36 ≠ 0 ∧ ∃ e ∈ (listing h (u32 h 0x3c)).entries, ∃ name,
      l = .overlay e.idx e.tag (identify e.tag f e.offs) name e.offs e.size := by
  unfold headerLines overlayLines at hl
  simp only [List.mem_append, if_true] at hl
  rcases hl with (hl | hl) | hl
  · left
    split at hl <;> fin_cases hl <;> exact ⟨trivial, id⟩
  · split at hl
    · obtain ⟨e, -, rfl⟩ := List.mem_map.mp hl
      exact .inl ⟨trivial, id⟩
    next hm =>
      obtain ⟨e, he, rfl⟩ := List.mem_map.mp hl
      exact .inr ⟨hm, e, he, _, rfl⟩
  · left
    fin_cases hl <;> exact ⟨trivial, id⟩

theorem headerLines_made (f h : Bytes) : ∀ l ∈ headerLines f h, l.Made f := by
  intro l hl
  rcases headerLines_cases hl with ⟨hm, -⟩ | ⟨-, e, -, name, rfl⟩
  · exact hm
  · exact ⟨e.offs, rfl⟩

theorem shows_debug_iff (f h : Bytes) : (∃ l ∈ headerLines f h, l.ShowsDebug) ↔
    u16 h 0x36 ≠ 0 ∧ ∃ e ∈ (listing h (u32 h 0x3c)).entries, isDebug e.tag := by
  constructor
  · rintro ⟨l, hl, hs⟩
    rcases headerLines_cases hl with ⟨-, hn⟩ | ⟨hm, e, he, name, rfl⟩
    · exact absurd hs hn
    · exact ⟨hm, e, he, hs⟩
  · rintro ⟨hm, e, he, hs⟩
    have hmem : Info.overlay e.idx e.tag (identify e.tag f e.offs)
        (if isDebug e.tag then ovlName f h (u32 h 0x3c) (u16 h 0x38 &&& 0x2000 ≠ 0) else [])
        e.offs e.size ∈ overlayLines f h
          (ovlName f h (u32 h 0x3c) (u16 h 0x38 &&& 0x2000 ≠ 0)) (u32 h 0x3c) true := by
      rw [overlayLines, if_neg hm, if_pos rfl]
      exact List.mem_map_of_mem he
    exact ⟨_, List.mem_append_left _ (List.mem_append_right _ hmem), hs⟩

theorem Represents.shows_debug {a : Archive} {n : Nat} {g : Bytes} (r : Represents a n g) :
    (∃ l ∈ headerLines g (headerAt g 0), l.ShowsDebug) ↔ a.ListsDebug := by
  rw [shows_debug_iff]
  by_cases hm : u16 (headerAt g 0) 0x36 = 0
  · refine iff_of_false (fun h => h.1 hm) ?_
    rintro ⟨v, hv, hd⟩
    have hT := r.slots
    rw [table, if_pos hm] at hT
    have hslot : v.slot ∈ a.slots := List.mem_append_left _ (List.mem_map_of_mem hv)
    rw [← hT, List.mem_singleton] at hslot
    rw [show v.type = 0 from congrArg Prod.fst hslot] at hd
    exact absurd hd (by decide)
  · rw [r.listing_of_slots hm, and_iff_right hm]
    have htags := layout_tags (u32 (headerAt g 0) 0x3c) (a.overlays.map Overlay.slot)
    rw [List.map_map] at htags
    constructor
    · rintro ⟨e, he, hd⟩
      have hmem : e.tag ∈ a.overlays.map (Prod.fst ∘ Overlay.slot) := by
        rw [← htags]
        exact List.mem_map_of_mem he
      obtain ⟨v, hv, ht⟩ := List.mem_map.mp hmem
      exact ⟨v, hv, by rw [show v.type = e.tag from ht]; exact hd⟩
    · rintro ⟨v, hv, hd⟩
      have hmem : v.type ∈ (layout (u32 (headerAt g 0) 0x3c) (a.overlays.map Overlay.slot)).map
          Placed.tag := by
        rw [htags]
        exact List.mem_map_of_mem hv
      obtain ⟨e, he, ht⟩ := List.mem_map.mp hmem
      exact ⟨e, he, by rw [ht]; exact hd⟩

theorem Archive.strip_eq_none {a : Archive} (h : a.strip = none) :
    a.StopsAtDebug ∧ ¬ 1 < a.overlays.length := by
  unfold Archive.strip at h
  split at h
  next hd =>
    refine ⟨hd, fun hlen => ?_⟩
    rw [if_pos hlen, Option.map_eq_none_iff, List.getLast?_eq_none_iff] at h
    rw [h] at hlen
    cases hlen
  · cases h

/-- The assertion of `-s`. -/
theorem Represents.strip_fails {a : Archive} {n : Nat} {f : Bytes} (r : Represents a n f)
    (ha : a.strip = none) (tmpl : Bytes) (stubVer : Nat) :
    ∃ e, coff2exe 1 tmpl stubVer .stripping f = some (.error e) := by
  obtain ⟨hd, hlen⟩ := a.strip_eq_none ha
  obtain ⟨keep, hcut, -⟩ := (Archive.cut_eq r.slots).2 hd
  have hadm : ¬ Admits .stripping (headerAt f 0) := fun h => hlen (h.strips rfl _ hcut)
  obtain ⟨e, he⟩ := lfanewHeader_error rfl hadm f Walk.init
  have hstep : walkStep f .stripping Walk.init = .stop (.error e) := by
    rw [walkStep_full (c := 0) rfl r.stub.full, if_pos r.stub.mz, if_pos r.stub.lfanew, he]
  refine ⟨e, ?_⟩
  rw [coff2exe, run_of_stop hstep]

/-- The script ends so on the disk, given enough fuel. -/
def Djstrips (decode : Bytes → Text) (stub file : π) (d : Disk π) (x : Exit) (d' : Disk π) : Prop :=
  ∃ N, ∀ fuel, N ≤ fuel → djstrip decode stub fuel d (some file) = some (x, d')

section
variable (decode : Bytes → Text) {stub file : π} {tmpl : Bytes} {d : Disk π} {a : Archive} {n : Nat}
  {f : Bytes} (r : Represents a n f) (hd : d.Holds stub tmpl file f)
include r hd

theorem djstrips_none (hn : ¬ (a.Accepted ∧ a.ListsDebug)) :
    Djstrips decode stub file d (.exit 1) d := by
  have hlines : ∃ N ibuf, grep '\n' debugInfo (infoText decode ibuf) = [] ∧
      ∀ fuel, N ≤ fuel → printed fuel d [.S stub, .i] [file] = some ibuf := by
    by_cases hacc : a.Accepted
    · obtain ⟨N, hlist⟩ := r.listed hacc hd.accepted.1 hd.short defaultStubVer
      refine ⟨N, _, ?_, fun fuel hN => printed_listing hd (coff2exe_mono hN hlist)⟩
      by_contra h
      exact hn ⟨hacc, r.shows_debug.mp ((grep_debugInfo decode (headerLines_made f _)).mp h)⟩
    · -- nothing is printed to stdout
      obtain ⟨e, he⟩ := r.refused hacc tmpl defaultStubVer
      exact ⟨2, [], rfl, fun fuel hN => printed_error hd (coff2exe_mono hN he)⟩
  obtain ⟨N, ibuf, hgrep, hprint⟩ := hlines
  refine ⟨N, fun fuel hN => ?_⟩
  rw [djstrip_some, hprint fuel hN]
  dsimp only
  rw [if_pos hgrep]

theorem djstrips_main (hacc : a.Accepted) (hdbg : a.ListsDebug) {x : Exit} {d' : Disk π} {N : Nat}
    (hmain : ∀ fuel, N ≤ fuel → main fuel d [.S stub, .s] [file] = some (x, d')) :
    Djstrips decode stub file d x d' := by
  obtain ⟨M, hlist⟩ := r.listed hacc hd.accepted.1 hd.short defaultStubVer
  refine ⟨max N M, fun fuel hN => ?_⟩
  have hgrep : grep '\n' debugInfo (infoText decode (headerLines f (headerAt f 0))) ≠ [] :=
    (grep_debugInfo decode (headerLines_made f _)).mpr (r.shows_debug.mpr hdbg)
  rw [djstrip_some, printed_listing hd (coff2exe_mono (Nat.le_trans (Nat.le_max_right N M) hN) hlist)]
  dsimp only
  rw [if_neg hgrep]
  exact hmain fuel (Nat.le_trans (Nat.le_max_left N M) hN)

theorem djstrips_strip (hacc : a.Accepted) (hdbg : a.ListsDebug) {a' : Archive}
    (hs : a.strip = some a') : ∃ g, Represents a' tmpl.length g ∧
      Djstrips decode stub file d (.ret 0) (d.set file (some g)) := by
  have hrw : a.rewrite ⟨tmpl, defaultStubVer, true⟩ = some a' :=
    Archive.rewrite_eq_some.mpr ⟨⟨hd.accepted, hd.short, hacc⟩, hs⟩
  obtain ⟨g, ⟨-, N, hret⟩, r'⟩ := r.writes_of_rewrite hrw
  refine ⟨g, r', djstrips_main decode r hd hacc hdbg (N := N) fun fuel hN => ?_⟩
  exact main_strip_ok hd (coff2exe_mono hN hret)

/-- `djstrip` asks the archive whether it has a debug overlay, which nobody is told of a
file that `-i` does not accept, and then does to the file what `-s` does to the archive.
Whenever it fails the disk is as it was. -/
theorem djstrip_follows_archive :
    (¬ (a.Accepted ∧ a.ListsDebug) ∧ Djstrips decode stub file d (.exit 1) d) ∨
    ((a.Accepted ∧ a.ListsDebug) ∧ a.strip = none ∧
      ∃ x, x ≠ .ret 0 ∧ Djstrips decode stub file d x d) ∨
    ((a.Accepted ∧ a.ListsDebug) ∧ ∃ a' g, a.strip = some a' ∧ Represents a' tmpl.length g ∧
      Djstrips decode stub file d (.ret 0) (d.set file (some g))) := by
  by_cases hdbg : a.Accepted ∧ a.ListsDebug
  · right
    cases hs : a.strip with
    | none =>
      left
      obtain ⟨e, he⟩ := r.strip_fails hs tmpl defaultStubVer
      refine ⟨hdbg, rfl, _, e.code_ne,
        djstrips_main decode r hd hdbg.1 hdbg.2 (N := 1) fun fuel hN => ?_⟩
      exact main_strip_error hd (coff2exe_mono hN he)
    | some a' =>
      right
      obtain ⟨g, r', hrun⟩ := djstrips_strip decode r hd hdbg.1 hdbg.2 hs
      exact ⟨hdbg, a', g, rfl, r', hrun⟩
  · exact .inl ⟨hdbg, djstrips_none decode r hd hdbg⟩

end

theorem djstrip_follows_archive_debugExe : ∃ a' g, debugArchive.strip = some a' ∧
    Represents a' 0x40 g ∧ Djstrips ascii 0 1 debugDisk (.ret 0) (debugDisk.set 1 (some g)) := by
  have hdbg : debugArchive.ListsDebug := ⟨_, .tail _ (.head _), by decide⟩
  have hstop : debugArchive.StopsAtDebug := ⟨4, rfl, by decide⟩
  have hstrip : debugArchive.strip ≠ none := by
    rw [Archive.strip, if_pos hstop]
    decide
  rcases djstrip_follows_archive ascii debugExe_represents debugDisk_holds with
    ⟨hn, -⟩ | ⟨-, hn, -⟩ | ⟨-, a', g, ha', r', hrun⟩
  · exact absurd ⟨debugArchive_accepted, hdbg⟩ hn
  · exact absurd hn hstrip
  · exact ⟨a', g, ha', r', hrun⟩

/-- What is left is accepted, if it is long enough. -/
theorem Archive.Accepted.hide {a : Archive} (hacc : a.Accepted) {v : Overlay}
    (hv : a.overlays.getLast? = some v) (hlong : 0x40 ≤ (a.hide v).body.length) :
    (a.hide v).Accepted := by
  obtain ⟨b, hb⟩ := Archive.hide_body_prefix hv
  have hmatch (ops : LdOps) (h : ops.Matches (a.hide v).body) : ops.Matches a.body := by
    rw [← hb]
    exact h.append b
  exact ⟨hacc.version, hlong, fun h => hacc.coff (hmatch .coff h),
    fun h => hacc.elf (hmatch .elf h)⟩

/-- If all debug overlays are behind the others, `djstrip` takes away one of them each
time, then it fails, and every other overlay is still there. -/
theorem djstrip_until_done (decode : Bytes → Text) {stub file : π} {tmpl : Bytes} (hne : stub ≠ file)
    {ps ds : List Overlay} (hps : ps ≠ []) (hplain : ∀ v ∈ ps, ¬ isDebug v.type)
    (hdbg : ∀ v ∈ ds, isDebug v.type) (hlong : 0x40 ≤ (contents ps).length) {d : Disk π} {a : Archive}
    {n : Nat} {f : Bytes} (r : Represents a n f) (hacc : a.Accepted) (hd : d.Holds stub tmpl file f)
    (hov : a.overlays = ps ++ ds) (hhid : ∀ t ∈ a.hidden, isDebug t) :
    ∃ a' n' g d', Represents a' n' g ∧ a'.overlays = ps ∧ a'.flags = a.flags ∧
      a'.version = a.version ∧ d'.files file = some g ∧ (∀ q, q ≠ file → d'.files q = d.files q) ∧
      Runs (fun (_ : Unit) d d' => Djstrips decode stub file d (.ret 0) d')
        (List.replicate ds.length ()) d d' ∧ Djstrips decode stub file d' (.exit 1) d' := by
  induction ds using List.reverseRecOn generalizing a n f d with
  | nil =>
    rw [List.append_nil] at hov
    have hnone : ¬ (a.Accepted ∧ a.ListsDebug) := by
      rintro ⟨-, v, hv, ht⟩
      rw [hov] at hv
      exact hplain v hv ht
    exact ⟨a, n, f, d, r, hov, rfl, rfl, hd.input, fun _ _ => rfl, .nil d,
      djstrips_none decode r hd hnone⟩
  | append_singleton ds v ih =>
    have hv : a.overlays.getLast? = some v := by
      rw [hov, ← List.append_assoc, List.getLast?_concat]
    have hdrop : (a.hide v).overlays = ps ++ ds := by
      show a.overlays.dropLast = _
      rw [hov, ← List.append_assoc, List.dropLast_concat]
    have hvd : isDebug v.type := hdbg v (by simp)
    have hstop : a.StopsAtDebug := by
      unfold Archive.StopsAtDebug Archive.stopType
      rw [hv]
      cases hh : a.hidden with
      | nil => exact ⟨v.type, rfl, hvd⟩
      | cons t ts => exact ⟨t, rfl, hhid t (by rw [hh]; exact List.mem_cons_self ..)⟩
    have hlen : 1 < a.overlays.length := by
      have hpos := List.length_pos_iff.mpr hps
      rw [hov]
      simp only [List.length_append, List.length_singleton]
      omega
    have hstrip : a.strip = some (a.hide v) := by
      rw [Archive.strip, if_pos hstop, if_pos hlen, hv]
      rfl
    obtain ⟨g, r', hrun⟩ :=
      djstrips_strip decode r hd hacc ⟨v, List.mem_of_getLast? hv, hvd⟩ hstrip
    have hbody : 0x40 ≤ (a.hide v).body.length := by
      rw [Archive.body, hdrop, contents_append]
      simp only [List.length_append]
      omega
    have hhid' : ∀ t ∈ (a.hide v).hidden, isDebug t := by
      intro t ht
      rcases List.mem_cons.mp ht with rfl | ht
      · exact hvd
      · exact hhid t ht
    obtain ⟨a', n', g', d', hr, hps', hfl, hver, hfile, hother, hruns, hlast⟩ :=
      ih (fun u hu => hdbg u (List.mem_append_left _ hu)) r' (hacc.hide hv hbody) (hd.set hne g)
        hdrop hhid'
    refine ⟨a', n', g', d', hr, hps', hfl, hver, hfile, fun q hq => ?_, ?_, hlast⟩
    · rw [hother q hq, Disk.set_files_of_ne _ _ hq]
    · rw [List.length_append, List.length_singleton, List.replicate_succ]
      exact .cons hrun hruns

theorem djstrip_until_done_debugExe : ∃ a' n' g d', Represents a' n' g ∧
    a'.overlays = [⟨0, coffImage, by decide⟩] ∧ d'.files 1 = some g ∧
      Runs (fun (_ : Unit) d d' => Djstrips ascii 0 1 d (.ret 0) d') [()] debugDisk d' ∧
      Djstrips ascii 0 1 d' (.exit 1) d' := by
  have hps : ([⟨0, coffImage, by decide⟩] : List Overlay) ≠ [] := by decide
  have hds : ∀ v ∈ ([⟨4, List.replicate 0x40 0, by decide⟩] : List Overlay), isDebug v.type := by
    decide
  obtain ⟨a', n', g, d', hr, hov, -, -, hfile, -, hruns, hlast⟩ :=
    djstrip_until_done ascii (by decide) hps (by decide) hds (by decide +kernel) debugExe_represents
      debugArchive_accepted debugDisk_holds rfl (by decide)
  exact ⟨a', n', g, d', hr, hov, hfile, hruns, hlast⟩

end

end Djstub
