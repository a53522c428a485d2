import Djstub.Place

/-! `coff2exe` on the disk, one iteration of its loops after the other. The input
is read from the disk as it is at that moment, and an output that is open shows what
its buffer has let through. The disk is first written to when the headers have been
accepted and the new stub is complete, and from there on a conversion ends with 0. -/

namespace Djstub

open Bytes Loop Buffers

/-! ## The steps of a conversion -/

/-- Where `coff2exe` stands. -/
inductive Stage (π : Type) where
  | opening
  | walking (w : Walk)
  | prepared (p : Prepared)
  | copying (ofile : π) (p : Prepared) (s : Copy)
  | closing (ofile : π) (written : Bytes)

structure Conversion (π : Type) where
  disk : Disk π
  stage : Stage π

section
variable {π : Type} [DecidableEq π]

/-- An output that is open, with so much written to it. -/
def Disk.showing (d : Disk π) (ofile : π) (written : Bytes) : Disk π :=
  d.set ofile (some (d.buffers.onDisk written))

/-- Behind the header loop and the checks: print the listing, or open the output
and write the stub. -/
def openOutput (o : Options) (oname : Option π) (d : Disk π) (f : Bytes) (p : Prepared) :
    Step (Conversion π) (Exit × Disk π) :=
  if o.info then .stop (.ret 0, d)
  else
    let s := Copy.enter d.buffers o f p
    match oname with
    | some oname =>
      if d.writable oname then .next ⟨d.showing oname s.written, .copying oname p s⟩
      else .stop (.ret (-1), d)
    | none => .next ⟨d.showing d.temp s.written, .copying d.temp p s⟩

/-- The output gets its bytes; without `-o` it is then moved over the input. -/
def closeOutput (fname : π) (oname : Option π) (d : Disk π) (ofile : π) (written : Bytes) :
    Exit × Disk π :=
  let d := d.set ofile (some written)
  match oname with
  | some _ => (.ret 0, d)
  | none =>
    if d.movable fname then (.ret 0, (d.set fname (d.files ofile)).set ofile none)
    else (.ret (-1), d)

def convertStep (tmpl : Bytes) (stubVer : Nat) (o : Options) (fname : π) (oname : Option π)
    (s : Conversion π) : Step (Conversion π) (Exit × Disk π) :=
  let f := (s.disk.files fname).getD []
  match s.stage with
  | .opening =>
    match s.disk.files fname with
    | none => .stop (.ret (-1), s.disk)
    | some _ => .next { s with stage := .walking Walk.init }
  | .walking w =>
    match walkStep f o w with
    | .next w => .next { s with stage := .walking w }
    | .stop (.error e) => .stop (e.exit, s.disk)
    | .stop (.ok w) =>
      match prepare tmpl stubVer f w with
      | .error e => .stop (e.exit, s.disk)
      | .ok p => .next { s with stage := .prepared p }
  | .prepared p => openOutput o oname s.disk f p
  | .copying ofile p c =>
    match copyChunk s.disk.buffers f p c with
    | .next c => .next ⟨s.disk.showing ofile c.written, .copying ofile p c⟩
    | .stop written => .next { s with stage := .closing ofile written }
  | .closing ofile written => .stop (closeOutput fname oname s.disk ofile written)

theorem Disk.set_set (d : Disk π) (p : π) (c c' : Option Bytes) :
    (d.set p c).set p c' = d.set p c' := by
  simp only [Disk.set]
  congr 1
  funext q
  split <;> rfl

/-! ## The end of a conversion -/

variable {tmpl : Bytes} {stubVer : Nat} {o : Options} {fname : π} {oname : Option π} {d : Disk π}
  {r : Exit × Disk π}

theorem ends_closing (ofile : π) (written : Bytes) :
    Ends (convertStep tmpl stubVer o fname oname) ⟨d, .closing ofile written⟩ r ↔
      closeOutput fname oname d ofile written = r := by
  have hstep : convertStep tmpl stubVer o fname oname ⟨d, .closing ofile written⟩ =
      .stop (closeOutput fname oname d ofile written) := rfl
  exact ends_stop hstep

theorem Disk.showing_showing (d : Disk π) (ofile : π) (w w' : Bytes) :
    (d.showing ofile w).showing ofile w' = d.showing ofile w' := Disk.set_set ..

theorem closeOutput_showing (d : Disk π) (ofile : π) (w written : Bytes) :
    closeOutput fname oname (d.showing ofile w) ofile written =
      closeOutput fname oname d ofile written := by
  have hset : (d.showing ofile w).set ofile (some written) = d.set ofile (some written) :=
    Disk.set_set ..
  simp only [closeOutput, hset]

omit [DecidableEq π] in
theorem copyChunk_written {b : Buffering} {raw : Bytes} {p : Prepared} {s : Copy} {w : Bytes}
    (h : copyChunk b raw p s = .stop w) : w = s.written := by
  simp only [copyChunk] at h
  repeat' split at h
  all_goals cases h
  all_goals rfl

/-- The copy loop of a conversion whose input holds `raw` while so much is written. -/
theorem ends_copying {ofile : π} {raw : Bytes → Bytes}
    (hraw : ∀ w, ((d.showing ofile w).files fname).getD [] = raw w) (p : Prepared) (s : Copy) :
    Ends (convertStep tmpl stubVer o fname oname)
        ⟨d.showing ofile s.written, .copying ofile p s⟩ r ↔
      ∃ w, Ends (fun s => copyChunk d.buffers (raw s.written) p s) s w ∧
        closeOutput fname oname d ofile w = r := by
  have hstep (s : Copy) : convertStep tmpl stubVer o fname oname
      ⟨d.showing ofile s.written, .copying ofile p s⟩ =
        match copyChunk d.buffers (raw s.written) p s with
        | .next c => .next ⟨(d.showing ofile s.written).showing ofile c.written, .copying ofile p c⟩
        | .stop w => .next ⟨d.showing ofile s.written, .closing ofile w⟩ := by
    rw [← hraw]
    rfl
  have hnext : ∀ s s', copyChunk d.buffers (raw s.written) p s = .next s' →
      convertStep tmpl stubVer o fname oname ⟨d.showing ofile s.written, .copying ofile p s⟩ =
        .next ⟨d.showing ofile s'.written, .copying ofile p s'⟩ := by
    intro s s' hs
    rw [hstep, hs]
    dsimp only
    rw [Disk.showing_showing]
  have hstop : ∀ s w, copyChunk d.buffers (raw s.written) p s = .stop w →
      convertStep tmpl stubVer o fname oname ⟨d.showing ofile s.written, .copying ofile p s⟩ =
        .next ⟨d.showing ofile w, .closing ofile w⟩ := by
    intro s w hs
    rw [hstep, hs, copyChunk_written hs]
  refine (ends_inner (fun s => (⟨d.showing ofile s.written, .copying ofile p s⟩ : Conversion π))
    (fun w => .next ⟨d.showing ofile w, .closing ofile w⟩) hnext hstop).trans ?_
  refine exists_congr fun w => and_congr_right fun _ => ?_
  exact (ends_closing ofile w).trans (by rw [closeOutput_showing])

omit [DecidableEq π] in
/-- On an input that stays as it is, the copy loop appends what `copyLoop` gives. -/
theorem ends_copyChunk (b : Buffering) (f : Bytes) (p : Prepared) {s : Copy} {pos : Nat}
    (h : s.reader.At f pos) :
    Ends (fun s => copyChunk b f p s) s
      (s.written ++ copyLoop p.rmoverlay (f.drop pos) s.coffFileSize) := by
  induction hn : f.length - pos using Nat.strongRecOn generalizing s pos with
  | ind n ih =>
    rw [copyLoop]
    by_cases hpos : 0 < s.coffFileSize
    · rw [if_pos hpos]
      dsimp only
      generalize hchunk :
        (if p.rmoverlay = true then min 4096 s.coffFileSize.toNat else 4096) = chunk
      obtain ⟨hout, hnext⟩ := h.read b s.written.length chunk
      by_cases hbuf : slice f pos chunk = []
      · have hstop : copyChunk b f p s = .stop s.written := by
          simp only [copyChunk, hpos, hchunk, hout, hbuf, if_true]
        rw [dif_pos (show (f.drop pos).take chunk = [] from hbuf), List.append_nil]
        exact (ends_stop hstop).mpr rfl
      · have hlen := List.length_pos_iff.mpr hbuf
        have hle := slice_length f pos chunk
        have hdrop : f.drop (pos + (slice f pos chunk).length) = (f.drop pos).drop chunk := by
          rw [List.drop_drop, List.drop_eq_drop_iff]
          omega
        rw [dif_neg (show ¬ (f.drop pos).take chunk = [] from hbuf), ← hdrop]
        generalize hkept :
            (if p.rmoverlay = true ∧ ((slice f pos chunk).length : Int) > s.coffFileSize then
          (slice f pos chunk).take s.coffFileSize.toNat else slice f pos chunk) = kept
        have hmore : copyChunk b f p s = .next
            ⟨(b.read f s.written.length chunk s.reader).2,
              if p.rmoverlay then s.coffFileSize - kept.length else s.coffFileSize,
              s.written ++ kept⟩ := by
          simp only [copyChunk, hpos, hchunk, hout, hbuf, hkept, if_true, if_false]
        rw [← List.append_assoc]
        refine (ends_next hmore).mpr ?_
        subst hkept
        exact ih _ (by omega) hnext rfl
    · have hstop : copyChunk b f p s = .stop s.written := by
        simp only [copyChunk, hpos, if_false]
      rw [if_neg hpos, List.append_nil]
      exact (ends_stop hstop).mpr rfl

/-- The copy loop of a conversion whose output is not its input. -/
theorem ends_copying_apart {f : Bytes} (hf : d.files fname = some f) {ofile : π}
    (hn : fname ≠ ofile) (p : Prepared) :
    Ends (convertStep tmpl stubVer o fname oname) ⟨d.showing ofile (Copy.enter d.buffers o f p).written,
        .copying ofile p (.enter d.buffers o f p)⟩ r ↔
      closeOutput fname oname d ofile (p.outBytes o f) = r := by
  have hraw : ∀ w, ((d.showing ofile w).files fname).getD [] = f := fun w => by
    rw [Disk.showing, Disk.set_files_of_ne _ _ hn, hf, Option.getD_some]
  rw [ends_copying hraw]
  have hends := ends_copyChunk d.buffers f p (s := .enter d.buffers o f p)
    (d.buffers.reader_at f p.coffset)
  constructor
  · rintro ⟨w, hw, hr⟩
    rw [hw.unique hends] at hr
    exact hr
  · exact fun hr => ⟨_, hends, hr⟩

/-- Once the stub is complete, a conversion ends as `convert` does. -/
theorem ends_prepared {f : Bytes} (hf : d.files fname = some f) (htemp : d.files d.temp = none)
    (p : Prepared) :
    Ends (convertStep tmpl stubVer o fname oname) ⟨d, .prepared p⟩ r ↔
      ∃ fuel, writeOutput fuel d o fname oname f p = some r := by
  have hstep : convertStep tmpl stubVer o fname oname ⟨d, .prepared p⟩ =
      openOutput o oname d f p := by
    simp only [convertStep, hf, Option.getD_some]
  rw [ends_iff_leaves, hstep, openOutput]
  by_cases hi : o.info = true
  · simp only [writeOutput, hi, if_true, Option.some.injEq, exists_const]
    rfl
  · simp only [writeOutput, hi, Bool.false_eq_true, if_false]
    cases oname with
    | some oname =>
      dsimp only
      by_cases hw : d.writable oname = true
      · rw [if_pos hw]
        simp only [hw, if_true]
        by_cases hn : oname = fname
        · subst hn
          have hraw : ∀ w, ((d.showing oname w).files oname).getD [] = d.buffers.onDisk w := fun w => by
            rw [Disk.showing, Disk.set_files_self, Option.getD_some]
          refine (ends_copying hraw p _).trans ?_
          simp only [if_true]
          constructor
          · rintro ⟨w, ⟨fuel, hrun⟩, hr⟩
            refine ⟨fuel, ?_⟩
            rw [show run (copyBack d.buffers p) fuel (.enter d.buffers o f p) = some w from hrun]
            exact congrArg some hr
          · rintro ⟨fuel, h⟩
            split at h
            · cases h
            next w hrun => exact ⟨w, ⟨fuel, hrun⟩, Option.some.inj h⟩
        · simp only [hn, if_false, exists_const, Option.some.injEq]
          exact ends_copying_apart hf (fun h => hn h.symm) p
      · rw [if_neg hw]
        simp only [hw, Bool.false_eq_true, if_false, exists_const, Option.some.injEq]
        rfl
    | none =>
      have hne : fname ≠ d.temp := by
        rintro rfl
        rw [htemp] at hf
        cases hf
      dsimp only
      refine (ends_copying_apart hf hne p).trans ?_
      rw [exists_const, closeOutput, ← Option.some.injEq, apply_ite some]
      rfl

/-- The headers of the input `f`, up to the complete stub. -/
def afterWalk (tmpl : Bytes) (stubVer : Nat) (d : Disk π) (f : Bytes) :
    WalkResult → Step (Conversion π) (Exit × Disk π)
  | .error e => .stop (e.exit, d)
  | .ok w =>
    match prepare tmpl stubVer f w with
    | .error e => .stop (e.exit, d)
    | .ok p => .next ⟨d, .prepared p⟩

theorem ends_walking {f : Bytes} (hf : d.files fname = some f) (w : Walk) :
    Ends (convertStep tmpl stubVer o fname oname) ⟨d, .walking w⟩ r ↔
      ∃ res, Ends (walkStep f o) w res ∧
        Leaves (convertStep tmpl stubVer o fname oname) (afterWalk tmpl stubVer d f res) r := by
  refine ends_inner (fun w => ⟨d, .walking w⟩) (afterWalk tmpl stubVer d f) ?_ ?_
  · intro w w' hw
    simp only [convertStep, hf, Option.getD_some, hw]
  · intro w res hw
    cases res with
    | error e => simp only [convertStep, hf, Option.getD_some, hw, afterWalk]
    | ok w' => simp only [convertStep, hf, Option.getD_some, hw, afterWalk]

/-- More fuel never changes what is written. -/
theorem writeOutput_mono {n k : Nat} (hnk : n ≤ k) {f : Bytes} {p : Prepared}
    (h : writeOutput n d o fname oname f p = some r) :
    writeOutput k d o fname oname f p = some r := by
  rw [← h]
  unfold writeOutput at h ⊢
  cases hrun : run (copyBack d.buffers p) n (.enter d.buffers o f p) with
  | some w => rw [run_mono hnk hrun]
  | none =>
    rw [hrun] at h
    split
    · rfl
    · next hi =>
      rw [if_neg hi] at h
      split
      · split
        · next hw =>
          split
          · next hn =>
            dsimp only at h
            rw [if_pos hw, if_pos hn] at h
            cases h
          · rfl
        · rfl
      · rfl

/-- `convert` is what the steps lead to. -/
theorem ends_convert_iff (htemp : d.files d.temp = none) :
    Ends (convertStep tmpl stubVer o fname oname) ⟨d, .opening⟩ r ↔
      ∃ fuel, convert fuel d tmpl stubVer o fname oname = some r := by
  cases hf : d.files fname with
  | none =>
    have hstep : convertStep tmpl stubVer o fname oname ⟨d, .opening⟩ = .stop (.ret (-1), d) := by
      simp only [convertStep, hf]
    simp only [ends_stop hstep, convert, hf, Option.some.injEq, exists_const]
  | some f =>
    have hstep : convertStep tmpl stubVer o fname oname ⟨d, .opening⟩ =
        .next ⟨d, .walking Walk.init⟩ := by
      simp only [convertStep, hf]
    rw [ends_next hstep, ends_walking hf]
    constructor
    · rintro ⟨res, ⟨fuel, hrun⟩, hl⟩
      cases res with
      | error e =>
        exact ⟨fuel, by simp only [convert, hf, hrun]; exact congrArg some hl⟩
      | ok w =>
        dsimp only [afterWalk] at hl
        cases hp : prepare tmpl stubVer f w with
        | error e =>
          rw [hp] at hl
          exact ⟨fuel, by simp only [convert, hf, hrun, hp]; exact congrArg some hl⟩
        | ok p =>
          rw [hp] at hl
          obtain ⟨fuel', hout⟩ := (ends_prepared hf htemp p).mp hl
          refine ⟨max fuel fuel', ?_⟩
          have hrun' := run_mono (Nat.le_max_left fuel fuel') hrun
          simp only [convert, hf, hrun', hp]
          exact writeOutput_mono (Nat.le_max_right fuel fuel') hout
    · rintro ⟨fuel, h⟩
      simp only [convert, hf] at h
      cases hrun : run (walkStep f o) fuel Walk.init with
      | none =>
        rw [hrun] at h
        cases h
      | some res =>
        rw [hrun] at h
        refine ⟨res, ⟨fuel, hrun⟩, ?_⟩
        cases res with
        | error e => exact Option.some.inj h
        | ok w =>
          dsimp only [afterWalk] at h ⊢
          cases hp : prepare tmpl stubVer f w with
          | error e =>
            rw [hp] at h
            exact Option.some.inj h
          | ok p =>
            rw [hp] at h
            exact (ends_prepared hf htemp p).mpr ⟨fuel, h⟩

/-! ## Rejected inputs -/

/-- Up to the complete stub the disk is as it was. Behind it only the move could
still fail. -/
def Untouched (d : Disk π) (fname : π) (s : Conversion π) : Prop :=
  match s.stage with
  | .opening | .walking _ | .prepared _ => s.disk = d
  | .copying .. | .closing .. => s.disk.movable fname = true

theorem Untouched.step (hmove : d.movable fname = true) {s : Conversion π}
    (hs : Untouched d fname s) :
    (convertStep tmpl stubVer o fname oname s).Keeps (Untouched d fname)
      fun r => r.1 ≠ .ret 0 → r.2 = d := by
  obtain ⟨disk, stage⟩ := s
  cases stage with
  | opening =>
    have hdisk : disk = d := hs
    simp only [convertStep]
    split
    · exact fun _ => hdisk
    · exact hdisk
  | walking w =>
    have hdisk : disk = d := hs
    simp only [convertStep]
    split
    · exact hdisk
    · exact fun _ => hdisk
    · split
      · exact fun _ => hdisk
      · exact hdisk
  | prepared p =>
    have hdisk : disk = d := hs
    subst hdisk
    simp only [convertStep, openOutput]
    split
    · exact fun _ => rfl
    · split
      · split
        · exact hmove
        · exact fun _ => rfl
      · exact hmove
  | copying ofile p c =>
    simp only [convertStep]
    split
    · exact hs
    · exact hs
  | closing ofile written =>
    have hmove' : (disk.set ofile (some written)).movable fname = true := hs
    intro he
    refine absurd ?_ he
    dsimp only [closeOutput]
    split
    · rfl
    · rw [if_pos hmove']

theorem Untouched.ends (hmove : d.movable fname = true) {s : Conversion π}
    (hs : Untouched d fname s) (h : Ends (convertStep tmpl stubVer o fname oname) s r)
    (he : r.1 ≠ .ret 0) : r.2 = d :=
  h.kept (fun _ hs => hs.step hmove) hs he

/-- A conversion that does not return 0 leaves the disk as it was: nothing is
created, truncated or changed. -/
theorem rejected_untouched {d' : Disk π} {e : Exit} (hmove : d.movable fname = true)
    (h : Ends (convertStep tmpl stubVer o fname oname) ⟨d, .opening⟩ (e, d')) (he : e ≠ .ret 0) :
    d' = d := by
  have hstart : Untouched d fname ⟨d, .opening⟩ := rfl
  exact hstart.ends hmove h he

/-- The same for a run of `main`: no option and no failure of a conversion changes
the disk. -/
theorem main_rejected {fuel : Nat} {d d' : Disk π} {opts : List (Opt π)} {args : List π}
    {m : Globals π} {e : Exit} (hm : options d Globals.init opts = .ok m)
    (hg : m.generate = false) (htemp : d.files d.temp = none)
    (hmove : ∀ fname, args.head? = some fname → d.movable fname = true)
    (h : main fuel d opts args = some (e, d')) (he : e ≠ .ret 0) : d' = d := by
  obtain ⟨-, -, -, -, hgen, -⟩ := downgrade_fields m
  unfold main at h
  rw [hm] at h
  dsimp only at h
  split at h
  · cases h
    rfl
  next start _ =>
  split at h
  case isFalse =>
    cases h
    rfl
  rw [hgen, hg, if_neg (by simp)] at h
  cases args with
  | nil =>
    cases h
    rfl
  | cons fname rest =>
    dsimp only at h
    have hstart : Untouched d fname ⟨d, .opening⟩ := rfl
    have hconv {r : Exit × Disk π} (hc : convert fuel d start (downgrade m).stubVer
        (downgrade m).options fname (downgrade m).oname = some r) (hr : r.1 ≠ .ret 0) : r.2 = d :=
      hstart.ends (hmove fname rfl) ((ends_convert_iff htemp).mpr ⟨fuel, hc⟩) hr
    split at h
    · cases h
    · next code d1 hc =>
      cases h
      refine hconv hc fun hcode => he ?_
      rw [Exit.ret.inj hcode]
      rfl
    · next hne hc =>
      cases h
      exact hconv hc fun hcode => hne 0 hcode

end

/-- A stub whose payload has been cut off behind six bytes. -/
def cutDisk : Disk Nat :=
  { packDisk with files := fun p => [bareTemplate, (stubbed bareTemplate 8 coffImage).take 70][p]? }

theorem rejected_untouched_cut :
    ∃ e d', Ends (convertStep bareTemplate 8 ⟨false, false, true⟩ 1 (some 9)) ⟨cutDisk, .opening⟩
      (e, d') ∧ e ≠ .ret 0 ∧ d' = cutDisk := by
  have hrun : (run (convertStep bareTemplate 8 ⟨false, false, true⟩ 1 (some 9)) 3
      ⟨cutDisk, .opening⟩).map Prod.fst = some .raise := by
    decide +kernel
  obtain ⟨⟨e, d'⟩, hends, he⟩ := Option.map_eq_some_iff.mp hrun
  have he0 : e ≠ .ret 0 := by
    rw [show e = .raise from he]
    simp
  exact ⟨e, d', ⟨3, hends⟩, he0, rejected_untouched rfl ⟨3, hends⟩ he0⟩

end Djstub
