import Mathlib

/-! Refinement between two machines that take the same operations. The abstract
one is a partial function, the concrete one a relation; where the relation holds,
either both take an operation or neither does. -/

namespace Simulation

variable {ο α κ : Type}

/-- The operations one after another. -/
inductive Runs (step : ο → κ → κ → Prop) : List ο → κ → κ → Prop where
  | nil (c : κ) : Runs step [] c c
  | cons {o : ο} {os : List ο} {c c1 c2 : κ} : step o c c1 → Runs step os c1 c2 →
      Runs step (o :: os) c c2

theorem Runs.append {step : ο → κ → κ → Prop} {os os' : List ο} {c c1 c2 : κ} (h : Runs step os c c1)
    (h' : Runs step os' c1 c2) : Runs step (os ++ os') c c2 := by
  induction h with
  | nil c => exact h'
  | cons hs _ ih => exact .cons hs (ih h')

/-- Where each operation is a run of another machine, of any length, so is each run. -/
theorem Runs.traced {ο' κ' : Type} {step : ο → κ → κ → Prop} {step' : ο' → κ' → κ' → Prop}
    {I : ο → Prop} {S : κ → κ' → Prop}
    (hstep : ∀ o c c1 x, I o → S c x → step o c c1 → ∃ os' x', S c1 x' ∧ Runs step' os' x x')
    {os : List ο} {c c1 : κ} {x : κ'} (h : Runs step os c c1) (hI : ∀ o ∈ os, I o) (hS : S c x) :
    ∃ os' x', S c1 x' ∧ Runs step' os' x x' := by
  induction h generalizing x with
  | nil c => exact ⟨[], x, hS, .nil x⟩
  | @cons o os c c1 c2 hs _ ih =>
    obtain ⟨os1, x1, hS1, hr1⟩ := hstep o _ _ _ (hI o (List.mem_cons_self ..)) hS hs
    obtain ⟨os2, x2, hS2, hr2⟩ := ih (fun o ho => hI o (List.mem_cons_of_mem _ ho)) hS1
    exact ⟨os1 ++ os2, x2, hS2, hr1.append hr2⟩

/-- What each operation with `I` keeps, a run of these keeps. -/
theorem Runs.kept {step : ο → κ → κ → Prop} {I : ο → Prop} {Q : κ → Prop}
    (hstep : ∀ o c c1, I o → Q c → step o c c1 → Q c1) {os : List ο} {c c1 : κ}
    (h : Runs step os c c1) (hI : ∀ o ∈ os, I o) (hQ : Q c) : Q c1 := by
  induction h with
  | nil c => exact hQ
  | @cons o os c c1 c2 hs _ ih =>
    exact ih (fun o ho => hI o (List.mem_cons_of_mem _ ho))
      (hstep o c c1 (hI o (List.mem_cons_self ..)) hQ hs)

/-- The operations one after another, as long as they are defined. -/
def runOps (step : ο → α → Option α) (os : List ο) (a : α) : Option α :=
  os.foldlM (fun a o => step o a) a

@[simp] theorem runOps_nil (step : ο → α → Option α) (a : α) : runOps step [] a = some a := rfl

theorem runOps_cons (step : ο → α → Option α) (o : ο) (os : List ο) (a : α) :
    runOps step (o :: os) a = (step o a).bind (runOps step os) := List.foldlM_cons

/-- `R` relates states that take the same operations to states that it relates. -/
structure Refines (R : α → κ → Prop) (astep : ο → α → Option α) (cstep : ο → κ → κ → Prop) :
    Prop where
  sound : ∀ {o a c c'}, R a c → cstep o c c' → ∃ a', astep o a = some a' ∧ R a' c'
  complete : ∀ {o a a' c}, R a c → astep o a = some a' → ∃ c', cstep o c c' ∧ R a' c'

variable {R : α → κ → Prop} {astep : ο → α → Option α} {cstep : ο → κ → κ → Prop}

theorem Refines.run_sound (h : Refines R astep cstep) {os : List ο} {a : α} {c c' : κ}
    (hR : R a c) (hr : Runs cstep os c c') : ∃ a', runOps astep os a = some a' ∧ R a' c' := by
  induction hr generalizing a with
  | nil c => exact ⟨a, rfl, hR⟩
  | cons hs _ ih =>
    obtain ⟨a1, ha1, hR1⟩ := h.sound hR hs
    obtain ⟨a', ha', hR'⟩ := ih hR1
    exact ⟨a', by rw [runOps_cons, ha1]; exact ha', hR'⟩

theorem Refines.run_complete (h : Refines R astep cstep) {os : List ο} {a a' : α} {c : κ}
    (hR : R a c) (hr : runOps astep os a = some a') : ∃ c', Runs cstep os c c' ∧ R a' c' := by
  induction os generalizing a c with
  | nil =>
    cases hr
    exact ⟨c, .nil c, hR⟩
  | cons o os ih =>
    rw [runOps_cons] at hr
    obtain ⟨a1, ha1, hr1⟩ := Option.bind_eq_some_iff.mp hr
    obtain ⟨c1, hc1, hR1⟩ := h.complete hR ha1
    obtain ⟨c', hc', hR'⟩ := ih hR1 hr1
    exact ⟨c', .cons hc1 hc', hR'⟩

/-- What every operation keeps, a run keeps. -/
theorem runOps_kept {I : α → Prop} (hstep : ∀ o a a', I a → astep o a = some a' → I a')
    {os : List ο} {a a' : α} (ha : I a) (hr : runOps astep os a = some a') : I a' := by
  induction os generalizing a with
  | nil =>
    cases hr
    exact ha
  | cons o os ih =>
    rw [runOps_cons] at hr
    obtain ⟨a1, ha1, hr1⟩ := Option.bind_eq_some_iff.mp hr
    exact ih (hstep o a a1 ha ha1) hr1

/-- Invariants of the abstract machine hold of the concrete one. -/
theorem Refines.invariant (h : Refines R astep cstep) {I : α → Prop}
    (hstep : ∀ o a a', I a → astep o a = some a' → I a') {os : List ο} {a : α} {c c' : κ}
    (hR : R a c) (ha : I a) (hr : Runs cstep os c c') : ∃ a', R a' c' ∧ I a' := by
  obtain ⟨a', ha', hR'⟩ := h.run_sound hR hr
  exact ⟨a', hR', runOps_kept hstep ha ha'⟩

end Simulation
