import Djstub.Pack

/-! Where the output goes. A run either moves a temporary file over its input or
opens the file that `-o` names; what it leaves there is compared with the output
in terms of the original files alone, whatever the buffers do. -/

namespace Djstub

open Bytes Layout Loop Buffers

/-! ## Converting -/

section
variable {π : Type}

theorem Failure.exit_ne (e : Failure) : e.exit ≠ .ret 0 := by
  cases e <;> simp [Failure.exit, Failure.message]

/-- What a conversion that returns 0 has gone through. -/
structure Converted (d : Disk π) (tmpl : Bytes) (stubVer : Nat) (o : Options) (fname : π)
    (f : Bytes) (w : Walk) (p : Prepared) : Prop where
  input : d.files fname = some f
  walk : Ends (walkStep f o) Walk.init (.ok w)
  prepared : prepare tmpl stubVer f w = .ok p

theorem Converted.returns {d : Disk π} {tmpl : Bytes} {stubVer : Nat} {o : Options} {fname : π}
    {f : Bytes} {w : Walk} {p : Prepared} (h : Converted d tmpl stubVer o fname f w p)
    (hi : o.info = false) : Returns tmpl stubVer o f (.file (p.outBytes o f)) :=
  returns_iff.mpr ⟨w, h.walk, p, h.prepared, by rw [hi]; rfl⟩

/-- The output in terms of the original files; `-o` does not come in. -/
inductive Intended (d : Disk π) (m : Globals π) (start : Bytes) (args : List π) : Bytes → Prop where
  | generated {sized header : Bytes} {cs : List Bytes} : m.generate = true →
      writeSizes d start 0 m.overlay = .ok sized →
      writeFields m start.length sized = some header → m.overlay.map d.files = cs.map some →
      Intended d m start args (header ++ cs.flatten)
  | converted {fname : π} {f y : Bytes} : m.generate = false → args.head? = some fname →
      d.files fname = some f → Returns start m.stubVer m.options f (.file y) →
      Intended d m start args y

theorem Intended.unique {d : Disk π} {m : Globals π} {start : Bytes} {args : List π} {x y : Bytes}
    (hx : Intended d m start args x) (hy : Intended d m start args y) : x = y := by
  cases hx with
  | generated hg hs hf hc =>
    cases hy with
    | generated _ hs' hf' hc' =>
      rw [hs] at hs'
      cases hs'
      rw [hf] at hf'
      cases hf'
      rw [contents_unique hc hc']
    | converted hg' _ _ _ => rw [hg] at hg'; cases hg'
  | converted hg ha hf hr =>
    cases hy with
    | generated hg' _ _ _ => rw [hg] at hg'; cases hg'
    | converted _ ha' hf' hr' =>
      rw [ha] at ha'
      cases ha'
      rw [hf] at hf'
      cases hf'
      cases hr.unique hr'
      rfl

variable [DecidableEq π]

theorem convert_zero_iff {fuel : Nat} {d d' : Disk π} {tmpl : Bytes} {stubVer : Nat} {o : Options}
    {fname : π} {oname : Option π} :
    convert fuel d tmpl stubVer o fname oname = some (.ret 0, d') ↔ ∃ f w p,
      d.files fname = some f ∧ run (walkStep f o) fuel Walk.init = some (.ok w) ∧
      prepare tmpl stubVer f w = .ok p ∧
      writeOutput fuel d o fname oname f p = some (.ret 0, d') := by
  constructor
  · intro h
    unfold convert at h
    split at h
    · cases h
    next f hf =>
    split at h
    · cases h
    · next e he =>
      simp only [Option.some.injEq, Prod.mk.injEq] at h
      exact absurd h.1 e.exit_ne
    next w hw =>
    split at h
    · next e he =>
      simp only [Option.some.injEq, Prod.mk.injEq] at h
      exact absurd h.1 e.exit_ne
    next p hp =>
    exact ⟨f, w, p, hf, hw, hp, h⟩
  · rintro ⟨f, w, p, hf, hw, hp, h⟩
    simp only [convert, hf, hw, hp, h]

/-- What the copy loop leaves in an input that it is writing over. -/
def Overwritten (b : Buffering) (o : Options) (f : Bytes) (p : Prepared) (x : Bytes) : Prop :=
  Ends (copyBack b p) (.enter b o f p) x

theorem writeOutput_file {fuel : Nat} {d d' : Disk π} {o : Options} {fname : π} {oname : Option π}
    {f : Bytes} {p : Prepared} (hi : o.info = false) (hf : d.files fname = some f)
    (htemp : d.files d.temp = none)
    (h : writeOutput fuel d o fname oname f p = some (.ret 0, d')) :
    ∃ x, d'.files (oname.getD fname) = some x ∧
      (oname ≠ some fname → x = p.outBytes o f) ∧
      (oname = some fname → Overwritten d.buffers o f p x) := by
  simp only [writeOutput, hi, Bool.false_eq_true, if_false] at h
  cases oname with
  | some oname =>
    dsimp only at h ⊢
    split at h
    case isFalse => cases h
    split at h
    · next hn =>
      split at h
      · cases h
      next x hx =>
      cases h
      exact ⟨x, by simp, fun hne => absurd (by rw [hn]) hne, fun _ => ⟨fuel, hx⟩⟩
    · next hn =>
      cases h
      exact ⟨_, by simp, fun _ => rfl, fun he => absurd (Option.some.inj he) hn⟩
  | none =>
    dsimp only at h ⊢
    split at h
    · cases h
      have hne : fname ≠ d.temp := by
        rintro rfl
        rw [htemp] at hf
        cases hf
      exact ⟨_, by simp [Disk.set_files_of_ne _ _ hne], fun _ => rfl, fun he => by cases he⟩
    · cases h

/-- The file a conversion leaves. -/
theorem convert_ok {fuel : Nat} {d d' : Disk π} {tmpl : Bytes} {stubVer : Nat} {o : Options}
    {fname : π} {oname : Option π} (hi : o.info = false) (htemp : d.files d.temp = none)
    (h : convert fuel d tmpl stubVer o fname oname = some (.ret 0, d')) :
    ∃ f w p x, Converted d tmpl stubVer o fname f w p ∧ d'.files (oname.getD fname) = some x ∧
      (oname ≠ some fname → x = p.outBytes o f) ∧
      (oname = some fname → Overwritten d.buffers o f p x) := by
  obtain ⟨f, w, p, hf, hw, hp, hout⟩ := convert_zero_iff.mp h
  obtain ⟨x, hx, hapart, hover⟩ := writeOutput_file hi hf htemp hout
  exact ⟨f, w, p, x, ⟨hf, ⟨fuel, hw⟩, hp⟩, hx, hapart, hover⟩

/-- The extent that `-r` selects has no bytes in the file. -/
def NothingSelected (f : Bytes) : Prop :=
  ∃ q, OldMz f 0 q ∧ isMz (headerAt f q) ∧ selected f (headerAt f q) = some []

/-- What stands behind the stub in an output. -/
def Prepared.body (p : Prepared) (f : Bytes) : Bytes :=
  copyLoop p.rmoverlay (f.drop p.coffset) p.coffFileSize

theorem outBytes_eq (p : Prepared) (o : Options) (f : Bytes) :
    p.outBytes o f = (if o.rmstub then [] else p.stub) ++ p.body f := rfl

theorem body_eq_nil {p : Prepared} {f : Bytes} :
    p.body f = [] ↔ p.coffFileSize ≤ 0 ∨ f.drop p.coffset = [] := by
  rw [Prepared.body, copyLoop_eq]
  split
  · next hpos =>
    rw [or_iff_right (by omega)]
    split
    · rw [List.take_eq_nil_iff, or_iff_right (by omega)]
    · rfl
  · next hpos => exact iff_of_true rfl (.inl (by omega))

omit [DecidableEq π] in
/-- The copy loop stops where there is nothing to read. -/
theorem copyChunk_stop (b : Buffering) (p : Prepared) {s : Copy} {raw : Bytes}
    (h : s.coffFileSize ≤ 0 ∨ s.reader.ahead = [] ∧ raw = []) :
    copyChunk b raw p s = .stop s.written := by
  by_cases hpos : 0 < s.coffFileSize
  · obtain ⟨hnil, rfl⟩ := h.resolve_left (by omega)
    obtain ⟨⟨pos, ahead⟩, size, written⟩ := s
    cases hnil
    simp only [copyChunk, hpos, b.read_nil, if_true]
  · simp only [copyChunk, hpos, if_false]

omit [DecidableEq π] in
/-- Where nothing is selected, nothing is read back. -/
theorem Overwritten.nothing {b : Buffering} {o : Options} {f : Bytes} {p : Prepared} {x : Bytes}
    (h : Overwritten b o f p x) (hr : o.rmstub = true) (hnil : p.body f = []) : x = [] := by
  have hwritten : (Copy.enter b o f p).written = [] := by rw [Copy.enter, hr, if_pos rfl]
  have hdisk : b.onDisk [] = [] := b.onDisk_of_fits (Nat.zero_le _)
  have hstop : copyBack b p (.enter b o f p) = .stop [] := by
    rw [copyBack, hwritten, hdisk]
    refine (copyChunk_stop b p ?_).trans (by rw [hwritten])
    rcases body_eq_nil.mp hnil with hsize | hdrop
    · exact .inl hsize
    · refine .inr ⟨?_, rfl⟩
      show (f.drop p.coffset).take b.held = []
      rw [hdrop, List.take_nil]
  exact ((ends_stop hstop).mp h).symm

/-- A reader that holds nothing finds nothing behind what still fits the buffer. -/
theorem run_overwritten (o : Options) (f : Bytes) (p : Prepared) {fuel : Nat} (hfuel : fuel ≠ 0) :
    run (copyBack (.ofSize p.stub.length) p) fuel (.enter (.ofSize p.stub.length) o f p) =
      some (if o.rmstub then [] else p.stub) := by
  obtain ⟨n, rfl⟩ := Nat.exists_eq_succ_of_ne_zero hfuel
  have hheld : (Copy.enter (.ofSize p.stub.length) o f p).reader.ahead = [] := by
    show (f.drop p.coffset).take 0 = []
    exact List.take_zero
  have hfits : (Copy.enter (.ofSize p.stub.length) o f p).written.length ≤ p.stub.length := by
    simp only [Copy.enter]
    split
    · exact Nat.zero_le _
    · exact Nat.le_refl _
  refine run_of_stop ?_ n
  rw [copyBack, Buffering.onDisk_of_fits _ hfits]
  exact copyChunk_stop _ p (.inr ⟨hheld, rfl⟩)

/-- The body of an output is empty only where `-r` selects nothing. -/
theorem body_eq_nil_iff {tmpl : Bytes} (ht : 0x40 ≤ tmpl.length) {stubVer : Nat} {o : Options}
    (hi : o.info = false) {f : Bytes} {w : Walk} {p : Prepared}
    (hw : Ends (walkStep f o) Walk.init (.ok w)) (hp : prepare tmpl stubVer f w = .ok p) :
    p.body f = [] ↔ o.rmstub = true ∧ NothingSelected f := by
  have hret : Returns tmpl stubVer o f (.file (p.outBytes o f)) :=
    returns_iff.mpr ⟨w, hw, p, hp, by rw [hi]; rfl⟩
  cases hr : o.rmstub with
  | false =>
    simp only [Bool.false_eq_true, false_and, iff_false]
    obtain ⟨hs, q, hacc, -, hstub, hout⟩ := accepts_of_prepared ht hr hw hp
    rw [outBytes_eq, hr, if_neg (by simp), hstub] at hout
    rw [List.append_cancel_left hout]
    exact bodyOf_ne_nil hacc
  | true =>
    have hout : p.outBytes o f = p.body f := by
      rw [outBytes_eq, hr]
      rfl
    rw [hout] at hret
    obtain ⟨q, hq, hcase⟩ := (returns_remove_iff ht hr hi).mp hret
    simp only [true_and]
    constructor
    · intro h0
      rw [h0] at hcase
      generalize hx : ([] : Bytes) = x at hcase
      cases hcase with
      | overlay hm _ _ hs => exact ⟨q, hq, hm, by rw [hs, hx]⟩
      | payload hm _ =>
        have h1 := (header_length_iff f q).mp hq.header_length
        have h2 := congrArg List.length hx
        rw [List.length_drop] at h2
        simp at h2
        omega
    · rintro ⟨q', hq', hm', hs'⟩
      rw [← hq.unique hq'] at hm' hs'
      generalize p.body f = x at hcase
      cases hcase with
      | overlay _ _ _ hs => rw [hs'] at hs; exact (Option.some.inj hs).symm
      | payload hm _ => exact absurd hm' hm

/-! ## Runs of `main` -/

/-- The path of the output. -/
def outPath (m : Globals π) (args : List π) : Option π :=
  if m.generate then m.oname else m.oname.or args.head?

/-- The output does not overwrite a file that is still to be read; files with
nothing to read do not count. -/
def Apart (d : Disk π) (m : Globals π) (args : List π) : Prop :=
  if m.generate then ∀ p ∈ m.overlay, m.oname = some p → d.files p = some []
  else ∀ fname f, args.head? = some fname → m.oname = some fname → d.files fname = some f →
    m.rmstub = true ∧ NothingSelected f

/-- Whatever the buffers do, a run that returns 0 leaves a file with `P` at `p`. -/
def Yields (d : Disk π) (opts : List (Opt π)) (args : List π) (p : π) (P : Bytes → Prop) : Prop :=
  ∀ b fuel d', main fuel (d.buffered b) opts args = some (.ret 0, d') →
    ∃ x, d'.files p = some x ∧ P x

section
variable {d d' : Disk π} {opts : List (Opt π)} {args : List π} {m : Globals π} {start : Bytes}

omit [DecidableEq π] in
/-- The options do not see the buffers. -/
theorem options_buffered (d : Disk π) (b : Buffering) (m : Globals π) (os : List (Opt π)) :
    options (d.buffered b) m os = options d m os := by
  induction os generalizing m with
  | nil => rfl
  | cons o os ih =>
    have ho : option (d.buffered b) m o = option d m o := by cases o <;> rfl
    rw [options, options, ho]
    split
    · rfl
    · exact ih _

omit [DecidableEq π] in
theorem writeSizes_buffered (d : Disk π) (b : Buffering) (start : Bytes) (i : Nat) (ps : List π) :
    writeSizes (d.buffered b) start i ps = writeSizes d start i ps := by
  induction ps generalizing start i with
  | nil => rfl
  | cons p ps ih =>
    rw [writeSizes, writeSizes]
    exact congrArg _ (funext fun b => ih b (i + 1))

/-- A conversion that returns 0 is a run that returns 0. -/
theorem main_of_convert {fuel : Nat} {fname : π} {rest : List π}
    (hm : options d Globals.init opts = .ok m) (hs : m.start = some start)
    (hacc : stubAccepted start) (hg : m.generate = false)
    (h : convert fuel d start (downgrade m).stubVer m.options fname m.oname = some (.ret 0, d')) :
    main fuel d opts (fname :: rest) = some (.ret 0, d') := by
  obtain ⟨-, -, -, ho, hgen, -⟩ := downgrade_fields m
  simp only [main, hm, hs, hacc, hgen, hg, ho, downgrade_options, h, if_true, if_false,
    Bool.false_eq_true]

/-- What `-g` leaves is intended, unless the output has emptied an overlay. -/
theorem Generated.intended_iff {g : Bytes} {oname : π} {b : Buffering}
    (hgen : Generated (d.buffered b) m oname start g) (hg : m.generate = true) :
    Intended d (downgrade m) start args g ↔ ∀ p ∈ m.overlay, p = oname → d.files p = some [] := by
  obtain ⟨hov, -, -, -, hdg, -⟩ := downgrade_fields m
  obtain ⟨cs, -, hcs, -⟩ := hgen.sources
  obtain ⟨sized, header, cs', hsz, hh, hcs', rfl⟩ := hgen.content
  rw [writeSizes_buffered] at hsz
  have hint : Intended d (downgrade m) start args (header ++ cs.flatten) :=
    .generated (hdg.trans hg) (by rw [hov]; exact hsz) hh (by rw [hov]; exact hcs)
  obtain ⟨-, hlen⟩ := opened_length hcs hcs'
  constructor
  · intro h
    exact hlen.mp (congrArg List.length (List.append_cancel_left (h.unique hint)))
  · intro hempty
    have hsame : m.overlay.map ((d.buffered b).set oname (some [])).files = cs.map some := by
      rw [← hcs]
      refine List.map_congr_left fun p hp => ?_
      by_cases hpo : p = oname
      · subst hpo
        rw [Disk.set_files_self]
        exact (hempty p hp rfl).symm
      · exact Disk.set_files_of_ne _ _ hpo
    rw [contents_unique hcs' hsame]
    exact hint

/-- Over its own input a conversion can lose what it should copy. -/
theorem convert_over_input {fuel : Nat} {fname : π} {rest : List π} {f : Bytes}
    (hm : options d Globals.init opts = .ok m) (hs : m.start = some start)
    (hacc : stubAccepted start) (hg : m.generate = false) (hi : m.info = false)
    (hok : convert fuel d start (downgrade m).stubVer m.options fname m.oname = some (.ret 0, d'))
    (hf : d.files fname = some f) (hn : m.oname = some fname)
    (h : Yields d opts (fname :: rest) fname (Intended d (downgrade m) start (fname :: rest))) :
    m.rmstub = true ∧ NothingSelected f := by
  obtain ⟨-, -, -, -, hdg, -⟩ := downgrade_fields m
  obtain ⟨f', w, p, hf', hw, hp, hout⟩ := convert_zero_iff.mp hok
  cases hf.symm.trans hf'
  have hconv : Converted d start (downgrade m).stubVer m.options fname f w p := ⟨hf, ⟨fuel, hw⟩, hp⟩
  have hfuel : fuel ≠ 0 := by
    rintro rfl
    cases hw
  have hwr : d.writable fname = true := by
    by_contra hwr
    simp [writeOutput, hn, hwr, Globals.options, hi] at hout
  -- the buffer keeps the stub back, and the reader has dropped what it held
  have hlost : main fuel (d.buffered (.ofSize p.stub.length)) opts (fname :: rest) =
      some (.ret 0, (d.buffered (.ofSize p.stub.length)).set fname
        (some (if m.rmstub then [] else p.stub))) := by
    refine main_of_convert (by rw [options_buffered, hm]) hs hacc hg ?_
    refine convert_zero_iff.mpr ⟨f, w, p, hf, hw, hp, ?_⟩
    have hw' : (d.buffered (.ofSize p.stub.length)).writable fname = true := hwr
    have hinfo : m.options.info = false := hi
    simp only [writeOutput, hinfo, hn, hw', if_true, Bool.false_eq_true, if_false]
    rw [show (d.buffered (.ofSize p.stub.length)).buffers = .ofSize p.stub.length from rfl,
      run_overwritten m.options f p hfuel]
    rfl
  obtain ⟨x, hx, hxi⟩ := h _ _ _ hlost
  rw [Disk.set_files_self, Option.some.injEq] at hx
  have hint : Intended d (downgrade m) start (fname :: rest) (p.outBytes m.options f) :=
    .converted (hdg.trans hg) rfl hf (by rw [downgrade_options]; exact hconv.returns hi)
  have hnil := hxi.unique hint
  rw [← hx, outBytes_eq] at hnil
  refine (body_eq_nil_iff hacc.1 hi hconv.walk hconv.prepared).mp ?_
  exact (List.self_eq_append_right.mp hnil)

/-- Runs that write leave the intended bytes, whatever the buffers do, exactly when
their output is apart from the files they read. -/
theorem output_intended_iff {fuel : Nat} (hrun : main fuel d opts args = some (.ret 0, d'))
    (hm : options d Globals.init opts = .ok m) (hw : m.generate = true ∨ m.info = false)
    (htemp : d.files d.temp = none) :
    ∃ start p, m.start = some start ∧ outPath m args = some p ∧
      (Yields d opts args p (Intended d (downgrade m) start args) ↔ Apart d m args) := by
  obtain ⟨start, hs, hacc, hcase⟩ := main_ok hrun hm
  obtain ⟨-, -, -, ho, hdg, -⟩ := downgrade_fields m
  have hopt (b : Buffering) : options (d.buffered b) Globals.init opts = .ok m := by
    rw [options_buffered, hm]
  refine ⟨start, ?_⟩
  rcases hcase with ⟨hgen, hok⟩ | ⟨hgen, fname, rest, rfl, hok⟩
  · obtain ⟨oname, -, -, -, hon, -⟩ := generate_zero_iff.mp hok
    rw [ho] at hon
    refine ⟨oname, hs, by rw [outPath, if_pos hgen]; exact hon, ?_⟩
    have hapart : Apart d m args ↔ ∀ p ∈ m.overlay, p = oname → d.files p = some [] := by
      rw [Apart, if_pos hgen, hon]
      simp only [Option.some.injEq]
      exact ⟨fun h p hp he => h p hp he.symm, fun h p hp he => h p hp he.symm⟩
    rw [hapart]
    have hfile {b : Buffering} {fuel : Nat} {d'' : Disk π}
        (hrun : main fuel (d.buffered b) opts args = some (.ret 0, d'')) :
        ∃ g, d''.files oname = some g ∧ Generated (d.buffered b) m oname start g := by
      obtain ⟨start', g, hd, hgen⟩ := main_generate hrun (hopt b) hgen hon
      cases hs.symm.trans hgen.template
      exact ⟨g, hd, hgen⟩
    constructor
    · intro h
      obtain ⟨g, hd, hg⟩ := hfile (b := d.buffers) hrun
      obtain ⟨g', hd', hint⟩ := h d.buffers _ _ hrun
      cases hd.symm.trans hd'
      exact (hg.intended_iff hgen).mp hint
    · intro h b fuel d'' hrun
      obtain ⟨g, hd, hg⟩ := hfile hrun
      exact ⟨g, hd, (hg.intended_iff hgen).mpr h⟩
  · have hi : m.info = false := hw.resolve_left (by rw [hgen]; simp)
    refine ⟨m.oname.getD fname, hs, ?_, ?_⟩
    · rw [outPath, if_neg (by rw [hgen]; simp), List.head?_cons]
      cases m.oname <;> rfl
    rw [Apart, if_neg (by rw [hgen]; simp)]
    constructor
    · rintro h _ f ⟨⟩ hn hf
      rw [hn, Option.getD_some] at h
      exact convert_over_input hm hs hacc hgen hi hok hf hn h
    · intro h b fuel d'' hrun
      obtain ⟨start', hs', -, hcase⟩ := main_ok hrun (hopt b)
      cases hs.symm.trans hs'
      obtain ⟨-, fname', rest', ⟨⟩, hok⟩ := hcase.resolve_left (by rw [hgen]; simp)
      have htemp' : (d.buffered b).files (d.buffered b).temp = none := htemp
      obtain ⟨f, w, p, x, hconv, hx, hapart, hover⟩ := convert_ok hi htemp' hok
      refine ⟨x, hx, .converted (hdg.trans hgen) rfl hconv.input ?_⟩
      have hx : x = p.outBytes m.options f := by
        by_cases hn : m.oname = some fname
        · obtain ⟨hr, hnothing⟩ := h fname f rfl hn hconv.input
          have hnil := (body_eq_nil_iff hacc.1 hi hconv.walk hconv.prepared).mpr ⟨hr, hnothing⟩
          rw [(hover hn).nothing hr hnil, outBytes_eq, hnil, if_pos (by exact hr), List.append_nil]
        · exact hapart hn
      rw [hx, downgrade_options]
      exact hconv.returns hi

end

end

/-- Over its own input a conversion leaves a bare stub, where the in-place run
leaves the stubbed image. -/
theorem output_over_input_lost :
    (∃ d', main 1 packDisk [.S 0, .o (some 1)] [1] = some (.ret 0, d') ∧
      d'.files 1 = some (restubbed bareTemplate (rawArea bareTemplate 8 0x40))) ∧
    (∃ d', main 1 packDisk [.S 0] [1] = some (.ret 0, d') ∧
      d'.files 1 = some (stubbed bareTemplate 8 coffImage)) ∧
    restubbed bareTemplate (rawArea bareTemplate 8 0x40) ≠ stubbed bareTemplate 8 coffImage :=
  ⟨main_of_map id (by decide +kernel), main_of_map id (by decide +kernel), by decide +kernel⟩

theorem output_intended_in_place :
    ∃ start, Yields packDisk [.S 0] [1] 1 (Intended packDisk (downgrade
      { Globals.init with start := some bareTemplate }) start [1]) := by
  have hrun : (main 1 packDisk [.S 0] [1]).map (fun r => (r.1, r.2.files 8)) =
      some (.ret 0, none) := by decide +kernel
  obtain ⟨d', hmain, -⟩ := main_of_map id hrun
  obtain ⟨start, p, -, hp, hiff⟩ := output_intended_iff hmain rfl (.inr rfl) rfl
  cases hp
  exact ⟨start, hiff.mpr fun _ _ _ h => nomatch h⟩

end Djstub
