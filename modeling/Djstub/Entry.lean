import Djstub.Startup

/-! What the program finds when it is entered. The descriptors that `fullstub` has
made are followed through all calls, on a host that grants them as documented. -/

namespace Djstub

open Bytes Loop Stores

section
variable {σ : Type} {h : Host σ} {ldt : σ → Ldt} {s s' : σ × Log} {p : Process}
  (doc : Documented h ldt) (hok : s'.2.Granted)
include doc hok

theorem flatSelector_spec {sel base rights : Nat} (hbase : base < 2 ^ 32) (hrights : rights < 2 ^ 16)
    {u : Unit}
    (hrun : flatSelector h.watched sel base rights s = some (u, s')) :
    s.2.Granted ∧ ∀ d, ldt s.1 sel = some d → ldt s'.1 =
      Function.update (ldt s.1) sel (some ⟨base, 2 ^ 32 - 1, rights, d.segment⟩) := by
  obtain ⟨r1, s1, h1, hrun⟩ := Calls.bind_eq_some.mp hrun
  obtain ⟨r2, s2, h2, hrun⟩ := Calls.bind_eq_some.mp hrun
  obtain ⟨r3, s3, h3, hrun⟩ := Calls.bind_eq_some.mp hrun
  cases Calls.pure_eq_some.mp hrun
  obtain ⟨ok2, l3⟩ := doc.setLimit_spec hok (by decide) h3
  obtain ⟨ok1, l2⟩ := doc.setRights_spec ok2 hrights h2
  obtain ⟨ok0, l1⟩ := doc.setBase_spec ok1 hbase h1
  refine ⟨ok0, fun d hd => ?_⟩
  have e1 := l1 d hd
  have e2 := l2 { d with base } (by rw [e1, Function.update_self])
  have e3 := l3 { d with base, rights } (by rw [e2, Function.update_self])
  rw [e3, e2, e1, Function.update_idem, Function.update_idem]

theorem infoSelector_spec {fs : Nat} (hrun : infoSelector h.watched p s = some (fs, s')) :
    s.2.Granted ∧ ∀ d, ldt s.1 p.ds = some d → ∃ rights, Adds (ldt s.1) fs
      ⟨(d.base + p.stubinfo) % 2 ^ 32, sizeofStubInfo - 1, rights, none⟩ (ldt s'.1) := by
  obtain ⟨sel, s1, h1, hrun⟩ := Calls.bind_eq_some.mp hrun
  obtain ⟨base, s2, h2, hrun⟩ := Calls.bind_eq_some.mp hrun
  obtain ⟨r3, s3, h3, hrun⟩ := Calls.bind_eq_some.mp hrun
  obtain ⟨r4, s4, h4, hrun⟩ := Calls.bind_eq_some.mp hrun
  cases Calls.pure_eq_some.mp hrun
  obtain ⟨ok3, l4⟩ := doc.setLimit_spec hok (by decide) h4
  obtain ⟨ok2, l3⟩ := doc.setBase_spec ok3 (Nat.mod_lt _ (by decide)) h3
  obtain ⟨ok1, l2, hbase⟩ := doc.getBase_spec ok2 h2
  obtain ⟨ok0, l1⟩ := doc.createAlias_spec ok1 h1
  refine ⟨ok0, fun d hd => ?_⟩
  obtain ⟨rights, ha⟩ := l1 d hd
  rw [hbase _ ha.new, l2] at l3
  have e3 := l3 _ ha.new
  have e4 := l4 _ (by rw [e3, Function.update_self])
  refine ⟨rights, ?_⟩
  rw [e4, e3]
  exact (ha.update _).update _

/-- The descriptors of low memory. Nothing else is changed in the table. -/
theorem lowSelectors_spec {low : Nat × Nat}
    (hrun : lowSelectors h.watched p s = some (low, s')) :
    s.2.Granted ∧ ∃ d, d.base = getLowPool p * 16 ∧ d.limit = minkeep - 1 ∧
      d.segment = some (getLowPool p) ∧ ldt s'.1 low.1 = some d ∧
      ldt s'.1 low.2 = some ⟨d.base, d.limit, 0xfb, none⟩ ∧
      ∀ k e, ldt s.1 k = some e → ∃ e', ldt s'.1 k = some e' ∧ e'.base = e.base ∧
        (k ≠ low.1 → e' = e) := by
  obtain ⟨ds, s1, h1, hrun⟩ := Calls.bind_eq_some.mp hrun
  obtain ⟨r2, s2, h2, hrun⟩ := Calls.bind_eq_some.mp hrun
  obtain ⟨cs, s3, h3, hrun⟩ := Calls.bind_eq_some.mp hrun
  obtain ⟨r4, s4, h4, hrun⟩ := Calls.bind_eq_some.mp hrun
  cases Calls.pure_eq_some.mp hrun
  obtain ⟨ok3, l4⟩ := doc.setRights_spec hok (by decide) h4
  obtain ⟨ok2, l3⟩ := doc.createAlias_spec ok3 h3
  obtain ⟨ok1, l2⟩ := doc.setLimit_spec ok2 (by decide) h2
  obtain ⟨ok0, d, hbase, hseg, hold, l1⟩ := doc.segmentToDescriptor_spec ok1 h1
  have hpool : getLowPool p % 2 ^ 16 = getLowPool p := Nat.mod_mod _ _
  rw [hpool] at hbase hseg
  have e2 := l2 d (by rw [l1, Function.update_self])
  rw [l1, Function.update_idem] at e2
  obtain ⟨rights, ha⟩ := l3 _ (by rw [e2, Function.update_self])
  have e4 := l4 _ ha.new
  have ha' := ha.update ⟨d.base, minkeep - 1, 0xfb, none⟩
  have hds : ldt s2.1 (ds % 2 ^ 16) = some { d with limit := minkeep - 1 } := by
    rw [e2, Function.update_self]
  rw [← e4] at ha'
  refine ⟨ok0, { d with limit := minkeep - 1 }, hbase, rfl, hseg, ha'.keeps hds, ha'.new, ?_⟩
  intro k e hk
  by_cases hkds : k = ds % 2 ^ 16
  · subst hkds
    rcases hold with hold | hold
    · rw [hold] at hk
      cases hk
    · rw [hold] at hk
      cases hk
      exact ⟨_, ha'.keeps hds, rfl, fun h => absurd rfl h⟩
  · refine ⟨e, ha'.keeps ?_, rfl, fun _ => rfl⟩
    rw [e2, Function.update_of_ne hkds, hk]

/-- A selector for a real-mode segment. It is none of those that stand for others. -/
theorem allocPsp_spec {sel : Nat} (hrun : allocPsp h.watched p s = some (sel, s')) :
    s.2.Granted ∧ (∃ d, ldt s'.1 sel = some d ∧ d.base = p.pspSegment * 16 ∧ d.limit = 0xff) ∧
      ∀ k d, ldt s.1 k = some d → d.segment ≠ some p.pspSegment → ldt s'.1 k = some d := by
  obtain ⟨sel, s1, h1, hrun⟩ := Calls.bind_eq_some.mp hrun
  obtain ⟨r2, s2, h2, hrun⟩ := Calls.bind_eq_some.mp hrun
  cases Calls.pure_eq_some.mp hrun
  obtain ⟨ok1, l2⟩ := doc.setLimit_spec hok (by decide) h2
  obtain ⟨ok0, d, hbase, hseg, hold, l1⟩ := doc.segmentToDescriptor_spec ok1 h1
  have e2 := l2 d (by rw [l1, Function.update_self])
  rw [l1, Function.update_idem] at e2
  refine ⟨ok0, ⟨{ d with limit := 0xff }, by rw [e2, Function.update_self], hbase, rfl⟩, ?_⟩
  intro k e hk hne
  have hks : k ≠ sel % 2 ^ 16 := by
    rintro rfl
    rcases hold with hold | hold
    · rw [hold] at hk
      cases hk
    · rw [hold] at hk
      cases hk
      exact hne hseg
  rw [e2, Function.update_of_ne hks, hk]

end

/-! ## The log -/

section
variable {σ : Type} (h : Host σ) (p : Process)

theorem flatSelector_grows (sel base rights : Nat) :
    (flatSelector h.watched sel base rights).Along Grows := by
  refine .bind (call_grows h _ _) fun _ => .bind (call_grows h _ _) fun _ => ?_
  exact .bind (call_grows h _ _) fun _ => .pure _

theorem infoSelector_grows : (infoSelector h.watched p).Along Grows := by
  refine .bind (call_grows h _ _) fun _ => .bind (call_grows h _ _) fun _ => ?_
  exact .bind (call_grows h _ _) fun _ => .bind (call_grows h _ _) fun _ => .pure _

theorem farStore_grows (sel : Nat) (st : Store) : (farStore h.watched sel st).Along Grows :=
  .bind (call_grows h _ _) fun _ => .bind (.exitIf _) fun _ => .pure _

theorem int21_grows (req : Regs) : (Calls.of (h.watched.int21 req)).Along Grows :=
  .of fun s => List.prefix_refl s.2

theorem shrinkLow_grows (para : Nat) : (shrinkLow h.watched p para).Along Grows :=
  .bind (.exitIf _) fun _ => .bind (int21_grows h _) fun _ => .exitIf _

theorem dpmiInit_grows (para : Nat) : (dpmiInit h.watched p para).Along Grows := by
  refine .bind (.of fun s => List.prefix_refl s.2) fun r => ?_
  split
  · exact .pure none
  · refine .bind (.exitIf _) fun _ => .bind (.exitIf _) fun _ => ?_
    refine .bind (shrinkLow_grows h p _) fun _ => .bind (.of fun s => List.prefix_refl s.2) fun f => ?_
    refine .bind (.exitIf _) fun _ => .bind (.callIf _ ?_) fun _ => .pure _
    exact .bind (int21_grows h _) fun _ => .exitIf _

theorem nukeLow_grows : (nukeLow h.watched p).Along Grows := by
  refine .bind (dpmiInit_grows h p _) fun r => ?_
  cases r with
  | some r => exact .pure r
  | none =>
    refine .bind (shrinkLow_grows h p _) fun _ => .bind ?_ fun _ => .pure _
    exact .bind (call_grows h _ _) fun _ => .bind (call_grows h _ _) fun _ => .pure _

end

/-- `memLin` and `handle` are the host's answer to the request for the block of a program
that is `vaSize` bytes long. -/
def BlockOf (vaSize memLin handle : Nat) (log : Log) : Prop :=
  ∃ a : Regs,
    ({ eax := 0x501, ebx := allocSize vaSize >>> 16, ecx := allocSize vaSize % 2 ^ 16 }, a) ∈ log ∧
    memLin = wide a.ebx a.ecx ∧ handle = wide a.esi a.edi

/-- The descriptors of the client. `base` is where the stub's own data segment
starts. -/
structure ClientTable (p : Process) (base va : Nat) (c : Client) (L : Ldt) : Prop where
  low : ∃ d, L c.low.1 = some d ∧ d.base = getLowPool p * 16 ∧ d.limit = minkeep - 1 ∧
    d.segment = some (getLowPool p)
  lowCode : L c.low.2 = some ⟨getLowPool p * 16, minkeep - 1, 0xfb, none⟩
  entry : L c.entry = some ⟨memBase c.memLin va, 2 ^ 32 - 1, 0xc0fb, none⟩
  ds : L c.ds = some ⟨memBase c.memLin va, 2 ^ 32 - 1, 0xc0f3, none⟩
  fs : ∃ rights, L c.fs = some ⟨(base + p.stubinfo) % 2 ^ 32, sizeofStubInfo - 1, rights, none⟩

theorem getLowPool_ne (p : Process) : getLowPool p ≠ p.pspSegment := by
  rw [getLowPool, Process.pspSegment]
  omega

theorem ClientTable.keeps {p : Process} {base va : Nat} {c : Client} {L L' : Ldt}
    (ht : ClientTable p base va c L)
    (hL : ∀ k d, L k = some d → d.segment ≠ some p.pspSegment → L' k = some d) :
    ClientTable p base va c L' := by
  obtain ⟨⟨d, hd, hb, hl, hs⟩, h2, h3, h4, ⟨rights, h5⟩⟩ := ht
  have hne : d.segment ≠ some p.pspSegment := by
    rw [hs]
    exact fun h => getLowPool_ne p (Option.some.inj h)
  exact ⟨⟨d, hL _ d hd hne, hb, hl, hs⟩, hL _ _ h2 (by simp), hL _ _ h3 (by simp),
    hL _ _ h4 (by simp), ⟨rights, hL _ _ h5 (by simp)⟩⟩

section
variable {σ : Type} {h : Host σ} {ldt : σ → Ldt} {s s' : σ × Log} {p : Process}
  (doc : Documented h ldt) (hok : s'.2.Granted)
include doc hok

theorem farStore_spec {sel : Nat} {d : Descriptor} (hd : ldt s.1 sel = some d) {st st' : Store}
    (hrun : farStore h.watched sel st s = some (st', s')) :
    s.2.Granted ∧ ldt s'.1 = ldt s.1 ∧ st' = st.shift 32 d.base := by
  obtain ⟨base, s1, h1, hrun⟩ := Calls.bind_eq_some.mp hrun
  obtain ⟨_, t, hexit, hrun⟩ := Calls.bind_eq_some.mp hrun
  cases (exitIf_eq_some.mp hexit).2
  cases Calls.pure_eq_some.mp hrun
  obtain ⟨ok, l1, hbase⟩ := doc.getBase_spec hok h1
  exact ⟨ok, l1, by rw [hbase d hd]⟩

/-- All stores go to where the descriptor says. -/
theorem farStores_spec {sel : Nat} {d : Descriptor} (hd : ldt s.1 sel = some d) {L L' : List Store}
    (hrun : L.mapM (farStore h.watched sel) s = some (L', s')) :
    s.2.Granted ∧ ldt s'.1 = ldt s.1 ∧ L' = L.map (Store.shift 32 d.base) := by
  induction L generalizing s L' with
  | nil =>
    cases Calls.pure_eq_some.mp hrun
    exact ⟨hok, rfl, rfl⟩
  | cons st L ih =>
    rw [List.mapM_cons] at hrun
    obtain ⟨st', s1, h1, hrun⟩ := Calls.bind_eq_some.mp hrun
    obtain ⟨L1, s2, h2, hrun⟩ := Calls.bind_eq_some.mp hrun
    cases Calls.pure_eq_some.mp hrun
    have hgrows : s1.2 <+: s'.2 := Calls.Along.mapM (farStore_grows h sel) L _ _ _ h2
    obtain ⟨ok0, l1, rfl⟩ := farStore_spec doc (hok.before hgrows) hd h1
    obtain ⟨-, l2, rfl⟩ := ih (by rw [l1]; exact hd) h2
    exact ⟨ok0, l2.trans l1, rfl⟩

theorem makeClient_spec {va vaSize : Nat} {c : Client}
    (hrun : makeClient h.watched p va vaSize s = some (c, s')) :
    s.2.Granted ∧ BlockOf vaSize c.memLin c.memoryHandle s'.2 ∧
      ∀ d, ldt s.1 p.ds = some d → ClientTable p d.base va c (ldt s'.1) := by
  obtain ⟨low, s1, h1, hrun⟩ := Calls.bind_eq_some.mp hrun
  obtain ⟨entry, s2, h2, hrun⟩ := Calls.bind_eq_some.mp hrun
  obtain ⟨ds, s3, h3, hrun⟩ := Calls.bind_eq_some.mp hrun
  obtain ⟨mem, s4, h4, hrun⟩ := Calls.bind_eq_some.mp hrun
  obtain ⟨_, t, hexit, hrun⟩ := Calls.bind_eq_some.mp hrun
  cases (exitIf_eq_some.mp hexit).2
  obtain ⟨_, s5, h5, hrun⟩ := Calls.bind_eq_some.mp hrun
  obtain ⟨_, s6, h6, hrun⟩ := Calls.bind_eq_some.mp hrun
  obtain ⟨fs, s7, h7, hrun⟩ := Calls.bind_eq_some.mp hrun
  cases Calls.pure_eq_some.mp hrun
  have hbase : memBase mem.2.1 va < 2 ^ 32 := Nat.mod_lt _ (by decide)
  obtain ⟨ok6, l7⟩ := infoSelector_spec doc hok h7
  obtain ⟨ok5, l6⟩ := flatSelector_spec doc ok6 hbase (by decide) h6
  obtain ⟨ok4, l5⟩ := flatSelector_spec doc ok5 hbase (by decide) h5
  obtain ⟨ok3, l4, a, ha, hlin, hhandle⟩ := doc.allocateMemory_spec ok4 h4
  obtain ⟨ok2, dd, hdd, a3⟩ := doc.allocate_spec ok3 h3
  obtain ⟨ok1, de, hde, a2⟩ := doc.allocate_spec ok2 h2
  obtain ⟨ok0, dl, hlb, hll, hls, low1, low2, hkeep⟩ := lowSelectors_spec doc ok1 h1
  have hgrows : s4.2 <+: s'.2 :=
    (flatSelector_grows _ _ _ _ _ _ _ h5).trans
      ((flatSelector_grows _ _ _ _ _ _ _ h6).trans (infoSelector_grows _ _ _ _ _ h7))
  refine ⟨ok0, ⟨a, hgrows.subset ha, hlin, hhandle⟩, fun d hd => ?_⟩
  obtain ⟨d1, hd1, hd1b, -⟩ := hkeep p.ds d hd
  -- both selectors of the client are new when they are set
  have a2' := a2.update ⟨memBase mem.2.1 va, 2 ^ 32 - 1, 0xc0fb, none⟩
  have a3' : Adds (ldt s2.1) (ds % 2 ^ 16) dd (ldt s4.1) := by rw [l4]; exact a3
  have e5 := l5 de (a3'.keeps a2.new)
  have e6 := l6 dd (by rw [e5, Function.update_of_ne (a3'.ne a2.new).symm, a3'.new])
  have hother {k : Nat} {e : Descriptor} (hk : ldt s1.1 k = some e) : ldt s6.1 k = some e := by
    rw [e6, Function.update_of_ne (a3'.ne (a2.keeps hk)), e5, Function.update_of_ne (a2.ne hk),
      a3'.keeps (a2.keeps hk)]
  obtain ⟨rights, a7⟩ := l7 d1 (hother hd1)
  rw [hd1b] at a7
  refine ⟨⟨dl, a7.keeps (hother low1), hlb, hll, hls⟩, ?_, a7.keeps ?_, a7.keeps ?_, rights, a7.new⟩
  · rw [a7.keeps (hother low2), hlb, hll]
  · rw [e6, Function.update_of_ne (a3'.ne a2.new), e5, Function.update_self, hde]
  · rw [e6, Function.update_self, hdd]

/-- Nothing in the table goes away. -/
def KeepsAll (L L' : Ldt) : Prop := ∀ k d, L k = some d → L' k = some d

theorem shrinkLow_spec {para : Nat} {u : Unit} (hrun : shrinkLow h.watched p para s = some (u, s')) :
    s.2.Granted ∧ ldt s'.1 = ldt s.1 := by
  obtain ⟨_, t, h1, hrun⟩ := Calls.bind_eq_some.mp hrun
  cases (exitIf_eq_some.mp h1).2
  obtain ⟨r, t, h2, hrun⟩ := Calls.bind_eq_some.mp hrun
  cases (exitIf_eq_some.mp hrun).2
  cases Calls.of_eq_some.mp h2
  exact ⟨hok, doc.int21 _ _⟩

theorem freeLow_spec {seg : Nat} {u : Unit} (hrun : freeLow h.watched seg s = some (u, s')) :
    s.2.Granted ∧ ldt s'.1 = ldt s.1 := by
  obtain ⟨r, t, h1, hrun⟩ := Calls.bind_eq_some.mp hrun
  cases (exitIf_eq_some.mp hrun).2
  cases Calls.of_eq_some.mp h1
  exact ⟨hok, doc.int21 _ _⟩

omit doc in
theorem callIf_spec {P : Prop} [Decidable P] {x : Calls (σ × Log) Unit} {u : Unit}
    (hx : x s = some (u, s') → s.2.Granted ∧ ldt s'.1 = ldt s.1)
    (hrun : callIf P x s = some (u, s')) : s.2.Granted ∧ ldt s'.1 = ldt s.1 := by
  unfold callIf at hrun
  split at hrun
  · exact hx hrun
  · cases Calls.pure_eq_some.mp hrun
    exact ⟨hok, rfl⟩

theorem dpmiInit_spec {para : Nat} {r : Option (Nat × Option Move)}
    (hrun : dpmiInit h.watched p para s = some (r, s')) :
    s.2.Granted ∧ KeepsAll (ldt s.1) (ldt s'.1) := by
  obtain ⟨r, s1, h1, hrun⟩ := Calls.bind_eq_some.mp hrun
  cases Calls.of_eq_some.mp h1
  split at hrun
  · -- there is no server
    cases Calls.pure_eq_some.mp hrun
    exact ⟨hok, fun k d hk => by rw [← hk]; exact congrFun (doc.int2f _ _) k⟩
  · obtain ⟨_, t, h2, hrun⟩ := Calls.bind_eq_some.mp hrun
    cases (exitIf_eq_some.mp h2).2
    obtain ⟨_, t, h3, hrun⟩ := Calls.bind_eq_some.mp hrun
    cases (exitIf_eq_some.mp h3).2
    obtain ⟨_, s4, h4, hrun⟩ := Calls.bind_eq_some.mp hrun
    obtain ⟨f, s5, h5, hrun⟩ := Calls.bind_eq_some.mp hrun
    cases Calls.of_eq_some.mp h5
    obtain ⟨_, t, h6, hrun⟩ := Calls.bind_eq_some.mp hrun
    cases (exitIf_eq_some.mp h6).2
    obtain ⟨_, s7, h7, hrun⟩ := Calls.bind_eq_some.mp hrun
    cases Calls.pure_eq_some.mp hrun
    obtain ⟨ok4, hfree⟩ := callIf_spec hok (fun hfree => freeLow_spec doc hok hfree) h7
    obtain ⟨ok1, hshrink⟩ := shrinkLow_spec doc (show s4.2.Granted from ok4) h4
    refine ⟨ok1, fun k d hk => ?_⟩
    rw [hfree]
    refine doc.enter _ _ _ _ _ _ _ ?_
    rw [hshrink, ← hk]
    exact congrFun (doc.int2f _ _) k

/-- Neither way of giving low memory back touches the client. -/
theorem nukeLow_spec {r : Nat × Option Move} (hrun : nukeLow h.watched p s = some (r, s')) :
    s.2.Granted ∧ ∀ k d, ldt s.1 k = some d → d.segment ≠ some p.pspSegment → ldt s'.1 k = some d := by
  obtain ⟨x, s1, h1, hrun⟩ := Calls.bind_eq_some.mp hrun
  cases x with
  | some x =>
    cases Calls.pure_eq_some.mp hrun
    obtain ⟨ok, hkeep⟩ := dpmiInit_spec doc hok h1
    exact ⟨ok, fun k d hk _ => hkeep k d hk⟩
  | none =>
    obtain ⟨_, s2, h2, hrun⟩ := Calls.bind_eq_some.mp hrun
    obtain ⟨sel, s3, h3, hrun⟩ := Calls.bind_eq_some.mp hrun
    cases Calls.pure_eq_some.mp hrun
    obtain ⟨ok2, -, hpsp⟩ := allocPsp_spec doc hok h3
    obtain ⟨ok1, hshrink⟩ := shrinkLow_spec doc ok2 h2
    obtain ⟨ok0, hkeep⟩ := dpmiInit_spec doc ok1 h1
    refine ⟨ok0, fun k d hk hne => hpsp k d ?_ hne⟩
    rw [hshrink]
    exact hkeep k d hk

end

/-! ## The run -/

section
variable {σ : Type} {h : Host σ} {p : Process} {s s' : σ} {tmp : Page} {fd : Nat} {f : Bytes}
  {ops : LdOps} {w : StubWalk} {j : Jump}

/-- The file that is loaded, and what the header walk finds in it. -/
def Process.Finds (p : Process) (fuel fd : Nat) (f : Bytes) (ops : LdOps) (w : StubWalk) : Prop :=
  ∃ exec, p.elfexec = some exec ∧ p.openFile (exec.getD (cstring p.argv0 0)) = some (fd, f) ∧
    findPayload fuel f exec = some (ops, w)

theorem fullstub_eq_some {fuel : Nat} : fullstub h p fuel tmp s = some (j, s') ↔ p.argc ≠ 0 ∧
    ∃ fd f ops w, p.Finds fuel fd f ops w ∧ startPayload h p tmp fd f ops w s = some (j, s') := by
  have hfail : ¬ (failure : Calls σ Jump) s = some (j, s') := fun h => by cases h
  unfold fullstub
  constructor
  · intro hrun
    split at hrun
    · exact absurd hrun hfail
    next hargc =>
    cases hexec : p.elfexec with
    | none =>
      rw [hexec] at hrun
      exact absurd hrun hfail
    | some exec =>
    rw [hexec] at hrun
    dsimp only at hrun
    cases hopen : p.openFile (exec.getD (cstring p.argv0 0)) with
    | none =>
      rw [hopen] at hrun
      exact absurd hrun hfail
    | some file =>
    rw [hopen] at hrun
    dsimp only at hrun
    cases hfind : findPayload fuel file.2 exec with
    | none =>
      rw [hfind] at hrun
      exact absurd hrun hfail
    | some found =>
      rw [hfind] at hrun
      exact ⟨hargc, file.1, file.2, found.1, found.2, ⟨exec, hexec, hopen, hfind⟩, hrun⟩
  · rintro ⟨hargc, fd, f, ops, w, ⟨exec, hexec, hopen, hfind⟩, hrun⟩
    rw [if_neg hargc, hexec]
    dsimp only
    rw [hopen]
    dsimp only
    rw [hfind]
    exact hrun

/-- What the program is entered with, once it has been read: the host is called, and
the file is not needed any more. -/
def enterProgram (h : Host σ) (p : Process) (fd : Nat) (P : Program) (i : StubInfo) (filePos : Nat) :
    Calls σ Jump :=
  match envSize p.env p.envp (some p.argv0) with
  | none => failure
  | some envSize => do
    let c ← makeClient h p P.handle.getVa P.handle.getLength
    let stores ← P.stores.mapM (farStore h c.ds)
    let low ← nukeLow h p
    pure {
      cs := c.entry
      eip := P.handle.getEntry
      ds := c.ds
      es := p.ds
      fs := c.fs
      info := goInfo p i P.handle c envSize fd low.1
      stores
      moved := low.2
      filePos }

theorem startPayload_of_load (h : Host σ) (p : Process) (fd : Nat) {P : Program}
    (hload : ops.load tmp f w.pos w.coffset = some P) :
    ∃ q, startPayload h p tmp fd f ops w = enterProgram h p fd P w.publish q := by
  obtain ⟨pos, l, hh, hl, hst⟩ := load_eq_some.mp hload
  refine ⟨lseek l.file w.noffset, ?_⟩
  unfold startPayload enterProgram
  rw [hh, ← hst]
  cases envSize p.env p.envp (some p.argv0) with
  | none => rfl
  | some env =>
    dsimp only
    rw [hl]

/-- A start that gets as far as the jump has read a program. -/
theorem load_of_startPayload (hrun : startPayload h p tmp fd f ops w s = some (j, s')) :
    ∃ P, ops.load tmp f w.pos w.coffset = some P := by
  have hfail {s : σ} : ¬ (failure : Calls σ Jump) s = some (j, s') := fun h => by cases h
  unfold startPayload at hrun
  cases hh : ops.readHeaders f w.pos with
  | error e =>
    rw [hh] at hrun
    exact absurd hrun hfail
  | ok r =>
  cases henv : envSize p.env p.envp (some p.argv0) with
  | none =>
    rw [hh, henv] at hrun
    exact absurd hrun hfail
  | some env =>
  rw [hh, henv] at hrun
  obtain ⟨c, s1, h1, hrun⟩ := Calls.bind_eq_some.mp hrun
  cases hsec : r.1.readSections (fileOps f) (rounds f) tmp w.coffset ⟨r.2, []⟩ with
  | none =>
    rw [hsec] at hrun
    exact absurd hrun hfail
  | some x =>
    rw [hsec] at hrun
    cases x with
    | stop l => exact absurd hrun hfail
    | next l => exact ⟨⟨r.1, l.stores⟩, load_eq_some.mpr ⟨r.2, l, hh, hsec, rfl⟩⟩

end

/-- The machine at the entry of the program that `handle` describes, with the descriptor
table `L` and the log of the start. `base` is where the stub's own data segment starts. -/
structure Entered (p : Process) (base : Nat) (handle : Handle) (j : Jump) (L : Ldt) (log : Log) :
    Prop where
  eip : j.eip = handle.getEntry
  code : L j.cs = some ⟨j.info.memBase, 2 ^ 32 - 1, 0xc0fb, none⟩
  data : L j.ds = some ⟨j.info.memBase, 2 ^ 32 - 1, 0xc0f3, none⟩
  info : ∃ rights, L j.fs = some ⟨(base + p.stubinfo) % 2 ^ 32, j.info.size - 1, rights, none⟩
  low : ∃ d, L j.info.dsSelector = some d ∧ d.base = j.info.dsSegment * 16 ∧
    d.limit = j.info.minkeep - 1
  lowCode : L j.info.csSelector = some ⟨j.info.dsSegment * 16, j.info.minkeep - 1, 0xfb, none⟩
  /-- In both flat segments the block starts at the lowest address of the program. -/
  block : BlockOf handle.getLength ((j.info.memBase + handle.getVa) % 2 ^ 32) j.info.memoryHandle log

theorem enterProgram_spec {σ : Type} {h : Host σ} {ldt : σ → Ldt} (doc : Documented h ldt)
    {p : Process} {s s' : σ × Log} (hok : s'.2.Granted) {d : Descriptor}
    (hd : ldt s.1 p.ds = some d) {fd : Nat} {P : Program} (hva : P.handle.getVa < 2 ^ 32)
    {i : StubInfo} {q : Nat} {j : Jump}
    (hrun : enterProgram h.watched p fd P i q s = some (j, s')) :
    Entered p d.base P.handle j (ldt s'.1) s'.2 ∧
      j.stores = P.stores.map (Store.shift 32 j.info.memBase) := by
  unfold enterProgram at hrun
  cases henv : envSize p.env p.envp (some p.argv0) with
  | none =>
    rw [henv] at hrun
    cases hrun
  | some env =>
    rw [henv] at hrun
    obtain ⟨c, s1, hclient, hrun⟩ := Calls.bind_eq_some.mp hrun
    obtain ⟨stores, s2, hstores, hrun⟩ := Calls.bind_eq_some.mp hrun
    obtain ⟨low, s3, hnuke, hrun⟩ := Calls.bind_eq_some.mp hrun
    cases Calls.pure_eq_some.mp hrun
    have hgrows : s1.2 <+: s'.2 :=
      (Calls.Along.mapM (farStore_grows h c.ds) P.stores _ _ _ hstores).trans
      (nukeLow_grows h p _ _ _ hnuke)
    obtain ⟨ok2, hkeep⟩ := nukeLow_spec doc hok hnuke
    obtain ⟨-, ⟨a, ha, hlin, hhandle⟩, htable⟩ := makeClient_spec doc (hok.before hgrows) hclient
    have ht := htable d hd
    obtain ⟨-, hsame, rfl⟩ := farStores_spec doc ok2 ht.ds hstores
    rw [← hsame] at ht
    obtain ⟨⟨e, he, hb, hl, -⟩, hcode, hentry, hds, hfs⟩ := ht.keeps hkeep
    have hstart : (memBase c.memLin P.handle.getVa + P.handle.getVa) % 2 ^ 32 = c.memLin := by
      have hlt : c.memLin < 2 ^ 32 := by rw [hlin]; exact wide_lt _ _
      rw [memBase]
      omega
    refine ⟨⟨rfl, hentry, hds, hfs, ⟨e, he, hb, hl⟩, hcode, a, hgrows.subset ha, ?_, hhandle⟩, rfl⟩
    exact hstart.trans hlin

/-- On a host that refuses nothing, a run of `fullstub` that gets as far as the jump
enters the program that its loader has read, in a flat address space that has the block
of the host at the lowest address of the program, with `stubinfo` in `fs` and all names
of the low memory block on the same bytes. Near pointers of a stub whose data segment
starts at 0 are linear addresses; then the sections stand in that address space. -/
theorem program_entered {σ : Type} {h : Host σ} {ldt : σ → Ldt} (doc : Documented h ldt)
    {p : Process} {s s' : σ} {log : Log} (hok : log.Granted) {d : Descriptor}
    (hd : ldt s p.ds = some d) {fuel : Nat} {tmp : Page} {j : Jump}
    (hrun : fullstub h.watched p fuel tmp (s, []) = some (j, (s', log))) :
    ∃ fd f ops w handle q, p.Finds fuel fd f ops w ∧ ops.readHeaders f w.pos = .ok (handle, q) ∧
      Entered p d.base handle j (ldt s') log ∧
      (d.base = 0 → f.length < 2 ^ 31 → handle.Sound f w.coffset → ∀ m : Memory 32,
        handle.InPlace f w.coffset fun x =>
          applyAll j.stores m (BitVec.ofNat 32 j.info.memBase + x)) := by
  obtain ⟨-, fd, f, ops, w, hfind, hstart⟩ := fullstub_eq_some.mp hrun
  obtain ⟨P, hload⟩ := load_of_startPayload hstart
  obtain ⟨q, heq⟩ := startPayload_of_load h.watched p fd hload
  obtain ⟨pos, l, hh, hl, hst⟩ := load_eq_some.mp hload
  rw [heq] at hstart
  obtain ⟨hent, hstores⟩ := enterProgram_spec doc hok hd (readHeaders_getVa hh) hstart
  refine ⟨fd, f, ops, w, P.handle, pos, hfind, hh, hent, fun _ hf hsound m => ?_⟩
  obtain ⟨l', hl', hplace⟩ := readSections_inPlace hh hf hsound tmp pos
  rw [hl] at hl'
  cases hl'
  have hview : (fun x => applyAll j.stores m (BitVec.ofNat 32 j.info.memBase + x)) =
      applyAll l.stores fun y => m (BitVec.ofNat 32 j.info.memBase + y) := by
    funext x
    rw [hstores, hst, applyAll_shift]
  rw [hview]
  exact hplace _

/-! ## A host -/

/-- The next free selector, and the table. -/
structure HostState where
  next : Nat
  table : Ldt

/-- The answer, and the table with `d` at `sel`. -/
def HostState.grant (s : HostState) (r : Regs) (sel : Nat) (d : Descriptor) : Regs × HostState :=
  (r, ⟨max s.next (sel + 8), Function.update s.table sel (some d)⟩)

def HostState.refuse (s : HostState) : Regs × HostState := ({ carry := true }, s)

/-- A new selector for `d`. -/
def HostState.add (s : HostState) (d : Descriptor) : Regs × HostState :=
  if s.next < 2 ^ 16 ∧ s.table s.next = none then s.grant { eax := s.next } s.next d else s.refuse

/-- A host that does what is documented, with a block of memory at 4M. -/
def tableHost : Host HostState where
  int31 r s :=
    match r.eax with
    | 0 => s.add ⟨0, 0, 0xf3, none⟩
    | 2 => s.add ⟨r.ebx % 2 ^ 16 * 16, 0xffff, 0xf3, some (r.ebx % 2 ^ 16)⟩
    | 6 =>
      match s.table r.ebx with
      | some d =>
        if d.base < 2 ^ 32 then ({ ecx := d.base >>> 16, edx := d.base % 2 ^ 16 }, s) else s.refuse
      | none => s.refuse
    | 7 => (s.table r.ebx).elim s.refuse fun d => s.grant {} r.ebx { d with base := wide r.ecx r.edx }
    | 8 => (s.table r.ebx).elim s.refuse fun d => s.grant {} r.ebx { d with limit := wide r.ecx r.edx }
    | 9 =>
      (s.table r.ebx).elim s.refuse fun d => s.grant {} r.ebx { d with rights := r.ecx % 2 ^ 16 }
    | 0xa => (s.table r.ebx).elim s.refuse fun d => s.add ⟨d.base, d.limit, 0xf3, none⟩
    | 0x501 => ({ ebx := 0x40, ecx := 0, edi := 1 }, s)
    | _ => s.refuse
  int2f _ s := ({ carry := true }, s)
  int21 _ s := ({}, s)
  enter _ _ _ _ s := ({ carry := true }, s)

theorem HostState.add_granted {s : HostState} {d : Descriptor} (hr : (s.add d).1.carry = false) :
    Adds s.table (s.add d).1.sel d (s.add d).2.table := by
  unfold HostState.add at hr ⊢
  split at hr
  next h =>
    rw [if_pos h]
    have hsel : (Regs.sel { eax := s.next }) = s.next := Nat.mod_eq_of_lt h.1
    show Adds s.table (Regs.sel { eax := s.next }) d _
    rw [hsel]
    exact ⟨h.2, rfl⟩
  · cases hr

/-- A call that changes a descriptor that there is. -/
theorem elim_granted {s : HostState} {sel : Nat} (k : Descriptor → Descriptor) {d : Descriptor}
    (hd : s.table sel = some d) :
    ((s.table sel).elim s.refuse fun d => s.grant {} sel (k d)).2.table =
      Function.update s.table sel (some (k d)) := by
  rw [hd]
  rfl

theorem tableHost_documented : Documented tableHost HostState.table where
  allocate s hr := ⟨_, rfl, HostState.add_granted hr⟩
  segmentToDescriptor seg s hr := by
    obtain ⟨hnone, hupd⟩ := HostState.add_granted hr
    exact ⟨_, rfl, rfl, .inl hnone, hupd⟩
  getBase sel s hr := by
    obtain ⟨d, hd⟩ : ∃ d, s.table sel = some d := by
      cases hd : s.table sel with
      | none =>
        simp only [tableHost, hd] at hr
        cases hr
      | some d => exact ⟨d, rfl⟩
    by_cases hlt : d.base < 2 ^ 32
    · simp only [tableHost, hd, hlt, if_true]
      exact ⟨trivial, fun e he => by rw [← Option.some.inj he, wide_split hlt]⟩
    · simp only [tableHost, hd, hlt, if_false] at hr
      cases hr
  setBase sel hi lo s _ d hd := elim_granted (fun d => { d with base := wide hi lo }) hd
  setLimit sel hi lo s _ d hd := elim_granted (fun d => { d with limit := wide hi lo }) hd
  setRights sel rights s _ d hd := elim_granted (fun d => { d with rights := rights % 2 ^ 16 }) hd
  createAlias sel s hr d hd := by
    simp only [tableHost, hd, Option.elim_some] at hr ⊢
    exact ⟨0xf3, HostState.add_granted hr⟩
  allocateMemory hi lo s _ := rfl
  int2f _ _ := rfl
  int21 _ _ := rfl
  enter _ _ _ _ _ _ _ hk := hk

/-- `ELFEXEC=A` -/
def execEnv : Bytes := elfexecName ++ [0x41, 0, 0]

def execProcess : Process where
  argc := 1
  argv0 := [0x53, 0]
  env := execEnv
  envp := some [.ptr 0, .null]
  psp := 0x12340
  ds := 0xf
  esp := 0x200000
  stubinfo := 0x5000
  openFile name := if name = [0x41] then some (5, smallElf) else none

/-- The data segment of the stub is all there is. -/
def firstState : HostState :=
  ⟨0x17, Function.update (fun _ => none) 0xf (some ⟨0, 2 ^ 32 - 1, 0xf3, none⟩)⟩

theorem exec_run : ∃ j s' log, Log.Granted log ∧
    fullstub tableHost.watched execProcess 0 blankPage (firstState, []) = some (j, (s', log)) := by
  have hrun : (fullstub tableHost.watched execProcess 0 blankPage (firstState, [])).map
      (fun r => decide (Log.Granted r.2.2)) = some true := by
    decide +kernel
  obtain ⟨⟨j, s', log⟩, hrun, hlog⟩ := Option.map_eq_some_iff.mp hrun
  exact ⟨j, s', log, of_decide_eq_true hlog, hrun⟩

theorem program_entered_exec : ∃ j s' log,
    fullstub tableHost.watched execProcess 0 blankPage (firstState, []) = some (j, (s', log)) ∧
      Entered execProcess 0 (.elf smallElfH) j s'.table log ∧
      ∀ m : Memory 32, (Handle.elf smallElfH).InPlace smallElf 0 fun x =>
        applyAll j.stores m (BitVec.ofNat 32 j.info.memBase + x) := by
  obtain ⟨j, s', log, hlog, hrun⟩ := exec_run
  obtain ⟨fd, f, ops, w, handle, q, ⟨exec, hexec, hopen, hfind⟩, hh, hent, hplace⟩ :=
    program_entered tableHost_documented (s := firstState) hlog (d := ⟨0, 2 ^ 32 - 1, 0xf3, none⟩) rfl
      hrun
  cases hexec.symm.trans (by decide : execProcess.elfexec = some (some [0x41]))
  cases hopen.symm.trans (rfl : execProcess.openFile [0x41] = some (5, smallElf))
  cases hfind
  have hheaders : LdOps.elf.readHeaders smallElf 0 = .ok (.elf smallElfH, 0x94) := by
    rw [LdOps.readHeaders, smallElf_headers]
    rfl
  cases hh.symm.trans hheaders
  exact ⟨j, s', log, hrun, hent, hplace rfl (by decide +kernel) smallElf_sound⟩

end Djstub
