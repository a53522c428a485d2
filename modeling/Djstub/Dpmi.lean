import Mathlib

/-! The DPMI calls of the loader: the wrappers of `dpmi.c` as they are built without
GCC, and what DPMI 0.9 documents about the calls they make. The host and DOS are
outside the program, and so a parameter. -/

namespace Djstub

/-- The registers of a software interrupt, and the carry flag. Registers that a call
does not read are 0. -/
structure Regs where
  eax : Nat := 0
  ebx : Nat := 0
  ecx : Nat := 0
  edx : Nat := 0
  esi : Nat := 0
  edi : Nat := 0
  es : Nat := 0
  carry : Bool := false
  deriving DecidableEq, Repr

/-- What answers the interrupts, over states of its own. `enter` is a far call: the
selector and the offset, `eax` and `ebx`. -/
structure Host (σ : Type) where
  int31 : Regs → σ → Regs × σ
  int2f : Regs → σ → Regs × σ
  int21 : Regs → σ → Regs × σ
  enter : Nat → Nat → Nat → Nat → σ → Regs × σ

/-! ## Calls in a row -/

section
variable {σ α β : Type}

/-- A computation that calls the host; `none` where the program exits. -/
abbrev Calls (σ α : Type) := StateT σ Option α

def Calls.of (x : σ → α × σ) : Calls σ α := fun s => some (x s)

/-- `exit` if the condition holds. -/
def exitIf (P : Prop) [Decidable P] : Calls σ Unit := fun s => if P then none else some ((), s)

/-- `x` if the condition holds. -/
def callIf (P : Prop) [Decidable P] (x : Calls σ Unit) : Calls σ Unit := if P then x else pure ()

/-- The first of two computations has come to its end. -/
theorem Calls.bind_eq_some {x : Calls σ α} {k : α → Calls σ β} {s : σ} {r : β × σ} :
    (x >>= k) s = some r ↔ ∃ a s', x s = some (a, s') ∧ k a s' = some r := by
  show (x s).bind (fun p => k p.1 p.2) = some r ↔ _
  rw [Option.bind_eq_some_iff]
  exact ⟨fun ⟨p, h1, h2⟩ => ⟨p.1, p.2, h1, h2⟩, fun ⟨a, s', h1, h2⟩ => ⟨(a, s'), h1, h2⟩⟩

theorem Calls.pure_eq_some {a : α} {s : σ} {r : α × σ} :
    (pure a : Calls σ α) s = some r ↔ (a, s) = r := Option.some_inj

theorem Calls.of_eq_some {x : σ → α × σ} {s : σ} {r : α × σ} :
    Calls.of x s = some r ↔ x s = r := Option.some_inj

theorem exitIf_eq_some {P : Prop} [Decidable P] {s : σ} {r : Unit × σ} :
    exitIf P s = some r ↔ ¬ P ∧ ((), s) = r := by
  unfold exitIf
  split <;> simp [*]

/-- Whatever the result is, the states before and after are related. -/
def Calls.Along (R : σ → σ → Prop) (x : Calls σ α) : Prop := ∀ s a s', x s = some (a, s') → R s s'

namespace Calls.Along
variable {R : σ → σ → Prop}

theorem of {x : σ → α × σ} (hx : ∀ s, R s (x s).2) : (Calls.of x).Along R := by
  intro s a s' hrun
  have h := hx s
  rw [Calls.of_eq_some.mp hrun] at h
  exact h

theorem bind [IsTrans σ R] {x : Calls σ α} {k : α → Calls σ β} (hx : x.Along R)
    (hk : ∀ a, (k a).Along R) : (x >>= k).Along R := by
  intro s b s' hrun
  obtain ⟨a, s1, h1, h2⟩ := Calls.bind_eq_some.mp hrun
  exact IsTrans.trans _ _ _ (hx _ _ _ h1) (hk a _ _ _ h2)

variable [Std.Refl R]

theorem pure (a : α) : (Pure.pure a : Calls σ α).Along R := by
  intro s b s' hrun
  cases Calls.pure_eq_some.mp hrun
  exact Std.Refl.refl s

theorem exitIf (P : Prop) [Decidable P] : (exitIf P : Calls σ Unit).Along R := by
  intro s b s' hrun
  cases (exitIf_eq_some.mp hrun).2
  exact Std.Refl.refl s

theorem callIf (P : Prop) [Decidable P] {x : Calls σ Unit} (hx : x.Along R) :
    (callIf P x).Along R := by
  unfold Djstub.callIf
  split
  · exact hx
  · exact .pure ()

theorem mapM [IsTrans σ R] {k : α → Calls σ β} (hk : ∀ a, (k a).Along R) (l : List α) :
    (l.mapM k).Along R := by
  induction l with
  | nil => exact .pure []
  | cons a l ih =>
    rw [List.mapM_cons]
    exact .bind (hk a) fun _ => .bind ih fun _ => .pure _

end Calls.Along

end

/-! ## dpmi.c -/

section
variable {σ : Type} (h : Host σ)

/-- `eax`, or -1 with the carry flag. -/
def Regs.result (r : Regs) : Nat := if r.carry then 2 ^ 32 - 1 else r.eax

/-- Two 16-bit registers that hold one number. -/
def wide (hi lo : Nat) : Nat := hi % 2 ^ 16 * 2 ^ 16 + lo % 2 ^ 16

def dpmiAllocateLdtDescriptors (count : Nat) : Calls σ Nat := do
  let r ← Calls.of (h.int31 { eax := 0, ecx := count })
  pure r.result

def dpmiSegmentToDescriptor (segment : Nat) : Calls σ Nat := do
  let r ← Calls.of (h.int31 { eax := 2, ebx := segment })
  pure r.result

/-- The result, and the address. -/
def dpmiGetSegmentBaseAddress (selector : Nat) : Calls σ (Nat × Nat) := do
  let r ← Calls.of (h.int31 { eax := 6, ebx := selector })
  pure (r.result, wide r.ecx r.edx)

def dpmiSetSegmentBaseAddress (selector address : Nat) : Calls σ Nat := do
  let r ← Calls.of (h.int31
    { eax := 7, ebx := selector, ecx := address >>> 16, edx := address % 2 ^ 16 })
  pure r.result

def dpmiSetSegmentLimit (selector limit : Nat) : Calls σ Nat := do
  let r ← Calls.of (h.int31
    { eax := 8, ebx := selector, ecx := limit >>> 16, edx := limit % 2 ^ 16 })
  pure r.result

def dpmiSetDescriptorAccessRights (selector rights : Nat) : Calls σ Nat := do
  let r ← Calls.of (h.int31 { eax := 9, ebx := selector, ecx := rights })
  pure r.result

def dpmiCreateAliasDescriptor (selector : Nat) : Calls σ Nat := do
  let r ← Calls.of (h.int31 { eax := 0xa, ebx := selector })
  pure r.result

/-- The result, the linear address and the handle. -/
def dpmiAllocateMemory (size : Nat) : Calls σ (Nat × Nat × Nat) := do
  let r ← Calls.of (h.int31 { eax := 0x501, ebx := size >>> 16, ecx := size % 2 ^ 16 })
  pure (r.result, wide r.ebx r.ecx, wide r.esi r.edi)

end

/-! ## The descriptor table -/

/-- A descriptor. `segment` is the real-mode segment it stands for, if it was made
for one. -/
structure Descriptor where
  base : Nat
  limit : Nat
  rights : Nat
  segment : Option Nat
  deriving DecidableEq, Repr

abbrev Ldt := Nat → Option Descriptor

/-- The selector in `ax`. -/
def Regs.sel (r : Regs) : Nat := r.result % 2 ^ 16

section
variable {σ : Type}

/-- The host answers the request without the carry flag only as `P` says, of the
tables before and after. -/
def Host.Grants (h : Host σ) (ldt : σ → Ldt) (req : Regs) (P : Ldt → Regs → Ldt → Prop) : Prop :=
  ∀ s, (h.int31 req s).1.carry = false → P (ldt s) (h.int31 req s).1 (ldt (h.int31 req s).2)

/-- `L'` is `L` with another descriptor. -/
def Adds (L : Ldt) (sel : Nat) (d : Descriptor) (L' : Ldt) : Prop :=
  L sel = none ∧ L' = Function.update L sel (some d)

/-- What is documented of the calls that the loader makes. Segments and access rights are
in 16-bit registers. -/
structure Documented (h : Host σ) (ldt : σ → Ldt) : Prop where
  allocate : h.Grants ldt { eax := 0, ecx := 1 } fun L r L' =>
    ∃ d, d.segment = none ∧ Adds L r.sel d L'
  segmentToDescriptor : ∀ seg, h.Grants ldt { eax := 2, ebx := seg } fun L r L' =>
    ∃ d, d.base = seg % 2 ^ 16 * 16 ∧ d.segment = some (seg % 2 ^ 16) ∧
      (L r.sel = none ∨ L r.sel = some d) ∧
      L' = Function.update L r.sel (some d)
  getBase : ∀ sel, h.Grants ldt { eax := 6, ebx := sel } fun L r L' =>
    L' = L ∧ ∀ d, L sel = some d → wide r.ecx r.edx = d.base
  setBase : ∀ sel hi lo, h.Grants ldt { eax := 7, ebx := sel, ecx := hi, edx := lo } fun L _ L' =>
    ∀ d, L sel = some d → L' = Function.update L sel (some { d with base := wide hi lo })
  setLimit : ∀ sel hi lo, h.Grants ldt { eax := 8, ebx := sel, ecx := hi, edx := lo } fun L _ L' =>
    ∀ d, L sel = some d → L' = Function.update L sel (some { d with limit := wide hi lo })
  setRights : ∀ sel rights, h.Grants ldt { eax := 9, ebx := sel, ecx := rights } fun L _ L' =>
    ∀ d, L sel = some d → L' = Function.update L sel (some { d with rights := rights % 2 ^ 16 })
  createAlias : ∀ sel, h.Grants ldt { eax := 0xa, ebx := sel } fun L r L' =>
    ∀ d, L sel = some d → ∃ rights, Adds L r.sel ⟨d.base, d.limit, rights, none⟩ L'
  allocateMemory : ∀ hi lo, h.Grants ldt { eax := 0x501, ebx := hi, ecx := lo } fun L _ L' => L' = L
  int2f : ∀ r s, ldt (h.int2f r s).2 = ldt s
  int21 : ∀ r s, ldt (h.int21 r s).2 = ldt s
  enter : ∀ sel off eax ebx s k d, ldt s k = some d → ldt (h.enter sel off eax ebx s).2 k = some d

/-- The calls of interrupt 0x31, with the answers. -/
abbrev Log := List (Regs × Regs)

/-- Nothing has been refused. -/
def Log.Granted (l : Log) : Prop := ∀ e ∈ l, e.2.carry = false

instance (l : Log) : Decidable l.Granted := inferInstanceAs (Decidable (∀ e ∈ l, _))

theorem Log.Granted.before {l l' : Log} (h : l'.Granted) (hle : l <+: l') : l.Granted :=
  fun e he => h e (hle.subset he)

/-- The host with a log. -/
def Host.watched (h : Host σ) : Host (σ × Log) where
  int31 r s := let x := h.int31 r s.1; (x.1, x.2, s.2 ++ [(r, x.1)])
  int2f r s := let x := h.int2f r s.1; (x.1, x.2, s.2)
  int21 r s := let x := h.int21 r s.1; (x.1, x.2, s.2)
  enter sel off eax ebx s := let x := h.enter sel off eax ebx s.1; (x.1, x.2, s.2)

/-- The log goes on. -/
def Grows (s s' : σ × Log) : Prop := s.2 <+: s'.2

instance : Std.Refl (Grows (σ := σ)) := ⟨fun s => List.prefix_refl s.2⟩

instance : IsTrans (σ × Log) Grows := ⟨fun _ _ _ h1 h2 => h1.trans h2⟩

/-- A wrapper's call is on record. -/
theorem call_grows {α : Type} (h : Host σ) (req : Regs) (k : Regs → α) :
    (do let r ← Calls.of (h.watched.int31 req); pure (k r) : Calls (σ × Log) α).Along Grows :=
  .bind (.of fun _ => List.prefix_append _ _) fun _ => .pure _

theorem wide_split {n : Nat} (h : n < 2 ^ 32) : wide (n >>> 16) (n % 2 ^ 16) = n := by
  rw [wide, Nat.shiftRight_eq_div_pow]
  omega

theorem wide_lt (hi lo : Nat) : wide hi lo < 2 ^ 32 := by
  unfold wide
  omega

/-! ## Calls that are granted -/

variable {h : Host σ} {ldt : σ → Ldt} {s s' : σ × Log}

/-- A wrapper's call that nobody has refused. -/
theorem granted_call {α : Type} {req : Regs} {k : Regs → α} {a : α}
    (hrun : (do let r ← Calls.of (h.watched.int31 req); pure (k r)) s = some (a, s'))
    (hok : s'.2.Granted) : s.2.Granted ∧ ∃ r, a = k r ∧ (req, r) ∈ s'.2 ∧
      ∀ P, h.Grants ldt req P → P (ldt s.1) r (ldt s'.1) := by
  have hgrows := call_grows h req k _ _ _ hrun
  obtain ⟨r, s1, h1, h2⟩ := Calls.bind_eq_some.mp hrun
  cases Calls.pure_eq_some.mp h2
  cases Calls.of_eq_some.mp h1
  have hmem : (req, (h.int31 req s.1).1) ∈ s.2 ++ [(req, (h.int31 req s.1).1)] := by simp
  exact ⟨hok.before hgrows, _, rfl, hmem, fun P hP => hP s.1 (hok _ hmem)⟩

section
variable (doc : Documented h ldt) (hok : s'.2.Granted)
include doc hok

theorem Documented.allocate_spec {sel : Nat}
    (hrun : dpmiAllocateLdtDescriptors h.watched 1 s = some (sel, s')) :
    s.2.Granted ∧ ∃ d, d.segment = none ∧ Adds (ldt s.1) (sel % 2 ^ 16) d (ldt s'.1) := by
  obtain ⟨hs, r, rfl, -, hP⟩ := granted_call hrun hok
  exact ⟨hs, hP _ doc.allocate⟩

theorem Documented.segmentToDescriptor_spec {seg sel : Nat}
    (hrun : dpmiSegmentToDescriptor h.watched seg s = some (sel, s')) :
    s.2.Granted ∧ ∃ d, d.base = seg % 2 ^ 16 * 16 ∧ d.segment = some (seg % 2 ^ 16) ∧
      (ldt s.1 (sel % 2 ^ 16) = none ∨ ldt s.1 (sel % 2 ^ 16) = some d) ∧
      ldt s'.1 = Function.update (ldt s.1) (sel % 2 ^ 16) (some d) := by
  obtain ⟨hs, r, rfl, -, hP⟩ := granted_call hrun hok
  exact ⟨hs, hP _ (doc.segmentToDescriptor seg)⟩

theorem Documented.getBase_spec {sel : Nat} {r : Nat × Nat}
    (hrun : dpmiGetSegmentBaseAddress h.watched sel s = some (r, s')) :
    s.2.Granted ∧ ldt s'.1 = ldt s.1 ∧ ∀ d, ldt s.1 sel = some d → r.2 = d.base := by
  obtain ⟨hs, r, rfl, -, hP⟩ := granted_call hrun hok
  exact ⟨hs, hP _ (doc.getBase sel)⟩

theorem Documented.setBase_spec {sel addr r : Nat} (haddr : addr < 2 ^ 32)
    (hrun : dpmiSetSegmentBaseAddress h.watched sel addr s = some (r, s')) :
    s.2.Granted ∧ ∀ d, ldt s.1 sel = some d →
      ldt s'.1 = Function.update (ldt s.1) sel (some { d with base := addr }) := by
  obtain ⟨hs, r, rfl, -, hP⟩ := granted_call hrun hok
  have hset := hP _ (doc.setBase sel _ _)
  rw [wide_split haddr] at hset
  exact ⟨hs, hset⟩

theorem Documented.setLimit_spec {sel limit r : Nat} (hlimit : limit < 2 ^ 32)
    (hrun : dpmiSetSegmentLimit h.watched sel limit s = some (r, s')) :
    s.2.Granted ∧ ∀ d, ldt s.1 sel = some d →
      ldt s'.1 = Function.update (ldt s.1) sel (some { d with limit }) := by
  obtain ⟨hs, r, rfl, -, hP⟩ := granted_call hrun hok
  have hset := hP _ (doc.setLimit sel _ _)
  rw [wide_split hlimit] at hset
  exact ⟨hs, hset⟩

theorem Documented.setRights_spec {sel rights r : Nat} (hrights : rights < 2 ^ 16)
    (hrun : dpmiSetDescriptorAccessRights h.watched sel rights s = some (r, s')) :
    s.2.Granted ∧ ∀ d, ldt s.1 sel = some d →
      ldt s'.1 = Function.update (ldt s.1) sel (some { d with rights }) := by
  obtain ⟨hs, r, rfl, -, hP⟩ := granted_call hrun hok
  have hset := hP _ (doc.setRights sel rights)
  rw [Nat.mod_eq_of_lt hrights] at hset
  exact ⟨hs, hset⟩

theorem Documented.createAlias_spec {sel new : Nat}
    (hrun : dpmiCreateAliasDescriptor h.watched sel s = some (new, s')) :
    s.2.Granted ∧ ∀ d, ldt s.1 sel = some d →
      ∃ rights, Adds (ldt s.1) (new % 2 ^ 16) ⟨d.base, d.limit, rights, none⟩ (ldt s'.1) := by
  obtain ⟨hs, r, rfl, -, hP⟩ := granted_call hrun hok
  exact ⟨hs, hP _ (doc.createAlias sel)⟩

/-- The answer is that of the host to the request for `size` bytes. -/
theorem Documented.allocateMemory_spec {size : Nat} {r : Nat × Nat × Nat}
    (hrun : dpmiAllocateMemory h.watched size s = some (r, s')) :
    s.2.Granted ∧ ldt s'.1 = ldt s.1 ∧ ∃ a : Regs,
      ({ eax := 0x501, ebx := size >>> 16, ecx := size % 2 ^ 16 }, a) ∈ s'.2 ∧
      r.2.1 = wide a.ebx a.ecx ∧ r.2.2 = wide a.esi a.edi := by
  obtain ⟨hs, a, rfl, hmem, hP⟩ := granted_call hrun hok
  exact ⟨hs, hP _ (doc.allocateMemory _ _), a, hmem, rfl, rfl⟩

end

end

/-! ## Tables -/

namespace Adds
variable {L L' : Ldt} {sel : Nat} {d : Descriptor} (ha : Adds L sel d L')
include ha

theorem new : L' sel = some d := by
  rw [ha.2, Function.update_self]

theorem ne {k : Nat} {e : Descriptor} (hk : L k = some e) : k ≠ sel := by
  rintro rfl
  rw [ha.1] at hk
  cases hk

theorem keeps {k : Nat} {e : Descriptor} (hk : L k = some e) : L' k = some e := by
  rw [ha.2, Function.update_of_ne (ha.ne hk), hk]

/-- The new descriptor is changed. -/
theorem update (e : Descriptor) : Adds L sel e (Function.update L' sel (some e)) := by
  refine ⟨ha.1, ?_⟩
  rw [ha.2, Function.update_idem]

end Adds

end Djstub
