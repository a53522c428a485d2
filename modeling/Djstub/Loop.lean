import Mathlib

/-! Loops given by a step function. `run` iterates the step with fuel, so it can
be executed; `Ends` says that some amount of fuel is enough. A loop that never
stops ends with nothing, and no rule below assumes that it does stop. -/

namespace Loop

open Relation

/-- What one iteration does: go on in a new state, or leave the loop. -/
inductive Step (σ ρ : Type) where
  | next (s : σ)
  | stop (r : ρ)
  deriving DecidableEq

variable {σ ρ : Type}

def run (step : σ → Step σ ρ) : Nat → σ → Option ρ
  | 0, _ => none
  | n + 1, s =>
    match step s with
    | .next s' => run step n s'
    | .stop r => some r

/-- The loop entered in state `s` is left with result `r`. -/
def Ends (step : σ → Step σ ρ) (s : σ) (r : ρ) : Prop := ∃ n, run step n s = some r

theorem run_of_next {step : σ → Step σ ρ} {s s' : σ} (h : step s = .next s') (n : Nat) :
    run step (n + 1) s = run step n s' := by
  simp only [run, h]

theorem run_of_stop {step : σ → Step σ ρ} {s : σ} {r : ρ} (h : step s = .stop r) (n : Nat) :
    run step (n + 1) s = some r := by
  simp only [run, h]

/-- More fuel never changes a result. -/
theorem run_mono {step : σ → Step σ ρ} {n m : Nat} {s : σ} {r : ρ} (hnm : n ≤ m)
    (h : run step n s = some r) : run step m s = some r := by
  induction n generalizing m s with
  | zero => simp [run] at h
  | succ n ih =>
    obtain ⟨k, rfl⟩ : ∃ k, m = k + 1 := ⟨m - 1, by omega⟩
    cases hs : step s with
    | next s' =>
      rw [run_of_next hs] at h ⊢
      exact ih (by omega) h
    | stop r' =>
      rw [run_of_stop hs] at h ⊢
      exact h

/-- A loop has at most one result. -/
theorem Ends.unique {step : σ → Step σ ρ} {s : σ} {r r' : ρ}
    (h : Ends step s r) (h' : Ends step s r') : r = r' := by
  obtain ⟨n, hn⟩ := h
  obtain ⟨m, hm⟩ := h'
  have h1 := run_mono (Nat.le_max_left n m) hn
  have h2 := run_mono (Nat.le_max_right n m) hm
  rw [h1] at h2
  exact Option.some.inj h2

theorem ends_next {step : σ → Step σ ρ} {s s' : σ} (hs : step s = .next s') {r : ρ} :
    Ends step s r ↔ Ends step s' r := by
  constructor
  · rintro ⟨n, hn⟩
    cases n with
    | zero => simp [run] at hn
    | succ n =>
      rw [run_of_next hs] at hn
      exact ⟨n, hn⟩
  · rintro ⟨n, hn⟩
    exact ⟨n + 1, by rw [run_of_next hs]; exact hn⟩

theorem ends_stop {step : σ → Step σ ρ} {s : σ} {r' : ρ} (hs : step s = .stop r') {r : ρ} :
    Ends step s r ↔ r' = r := by
  constructor
  · rintro ⟨n, hn⟩
    cases n with
    | zero => simp [run] at hn
    | succ n =>
      rw [run_of_stop hs] at hn
      exact Option.some.inj hn
  · rintro rfl
    exact ⟨1, run_of_stop hs 0⟩

/-- Induction on a finished run, from its last iteration back to its first. -/
theorem Ends.induct {step : σ → Step σ ρ} {P : σ → ρ → Prop}
    (stop : ∀ s r, step s = .stop r → P s r)
    (next : ∀ s s' r, step s = .next s' → Ends step s' r → P s' r → P s r)
    {s : σ} {r : ρ} (h : Ends step s r) : P s r := by
  obtain ⟨n, hn⟩ := h
  induction n generalizing s with
  | zero => simp [run] at hn
  | succ n ih =>
    cases hs : step s with
    | next s' =>
      rw [run_of_next hs] at hn
      exact next s s' r hs ⟨n, hn⟩ (ih hn)
    | stop r' =>
      rw [run_of_stop hs] at hn
      cases hn
      exact stop s r hs

/-- An iteration keeps the invariant, or leaves the loop with a result in `Q`. -/
def Step.Keeps (I : σ → Prop) (Q : ρ → Prop) : Step σ ρ → Prop
  | .next s => I s
  | .stop r => Q r

/-- What every iteration keeps holds of the result. -/
theorem Ends.kept {step : σ → Step σ ρ} {I : σ → Prop} {Q : ρ → Prop}
    (hstep : ∀ s, I s → (step s).Keeps I Q) {s : σ} {r : ρ} (h : Ends step s r) (hs : I s) : Q r := by
  refine Ends.induct (P := fun s r => I s → Q r) ?_ ?_ h hs
  · intro s r hr hI
    have hk := hstep s hI
    rw [hr] at hk
    exact hk
  · intro s s' r hs' _ ih hI
    have hk := hstep s hI
    rw [hs'] at hk
    exact ih hk

/-! ## Loops side by side -/

section
variable {σ' ρ' : Type}

def Step.map (φ : σ → σ') (ψ : ρ → ρ') : Step σ ρ → Step σ' ρ'
  | .next s => .next (φ s)
  | .stop r => .stop (ψ r)

/-- A loop whose states are images of those of another loop has the image of its
result. -/
theorem run_map {step : σ → Step σ ρ} {step' : σ' → Step σ' ρ'} {φ : σ → σ'} {ψ : ρ → ρ'}
    {I : σ → Prop} (hkeep : ∀ s s', I s → step s = .next s' → I s')
    (hstep : ∀ s, I s → step' (φ s) = (step s).map φ ψ) (n : Nat) {s : σ} (hs : I s) :
    run step' n (φ s) = (run step n s).map ψ := by
  induction n generalizing s with
  | zero => rfl
  | succ n ih =>
    have himage := hstep s hs
    cases h : step s with
    | next s' =>
      rw [h] at himage
      rw [run_of_next h, run_of_next himage, ih (hkeep s s' hs h)]
    | stop r =>
      rw [h] at himage
      rw [run_of_stop h, run_of_stop himage]
      rfl

end

/-! ## Loops inside loops -/

/-- How the loop ends behind an iteration. -/
def Leaves (step : σ → Step σ ρ) : Step σ ρ → ρ → Prop
  | .next s, r => Ends step s r
  | .stop r', r => r' = r

theorem ends_iff_leaves {step : σ → Step σ ρ} {s : σ} {r : ρ} :
    Ends step s r ↔ Leaves step (step s) r := by
  cases hs : step s with
  | next s' => exact ends_next hs
  | stop r' => exact ends_stop hs

/-- A loop that runs another loop in some of its states: the inner one ends, and
`after` says how its result goes on. -/
theorem ends_inner {α β : Type} {step : σ → Step σ ρ} {inner : α → Step α β} (state : α → σ)
    (after : β → Step σ ρ)
    (next : ∀ a a', inner a = .next a' → step (state a) = .next (state a'))
    (stop : ∀ a b, inner a = .stop b → step (state a) = after b) {a : α} {r : ρ} :
    Ends step (state a) r ↔ ∃ b, Ends inner a b ∧ Leaves step (after b) r := by
  constructor
  · intro h
    refine Ends.induct (P := fun s r => ∀ a, s = state a →
      ∃ b, Ends inner a b ∧ Leaves step (after b) r) ?_ ?_ h a rfl
    · rintro _ r hs a rfl
      cases ha : inner a with
      | next a' =>
        rw [next a a' ha] at hs
        cases hs
      | stop b =>
        rw [stop a b ha] at hs
        exact ⟨b, (ends_stop ha).mpr rfl, by rw [hs]; rfl⟩
    · rintro _ s' r hs hr ih a rfl
      cases ha : inner a with
      | next a' =>
        rw [next a a' ha] at hs
        cases hs
        obtain ⟨b, hb, hl⟩ := ih a' rfl
        exact ⟨b, (ends_next ha).mpr hb, hl⟩
      | stop b =>
        rw [stop a b ha] at hs
        exact ⟨b, (ends_stop ha).mpr rfl, by rw [hs]; exact hr⟩
  · rintro ⟨b, hb, hl⟩
    refine Ends.induct (P := fun a b => Leaves step (after b) r → Ends step (state a) r) ?_ ?_ hb hl
    · intro a b ha hl
      rw [ends_iff_leaves, stop a b ha]
      exact hl
    · intro a a' b ha _ ih hl
      exact (ends_next (next a a' ha)).mpr (ih hl)

/-! ## Loops that stop -/

section
variable {σ ρ α : Type}

/-- The loop goes from position to position along `link`, and stops where it
leads nowhere. -/
def Follows (step : σ → Step σ ρ) (pos : σ → α) (link : α → Option α) : Prop :=
  ∀ s, (∃ s', step s = .next s' ∧ link (pos s) = some (pos s')) ∨
    (∃ r, step s = .stop r ∧ link (pos s) = none)

/-- `b` follows `a`. -/
def Leads (link : α → Option α) (a b : α) : Prop := link a = some b

/-- From `a` the links lead into a circle. -/
def Cyclic (link : α → Option α) (a : α) : Prop :=
  ∃ b, ReflTransGen (Leads link) a b ∧ TransGen (Leads link) b b

/-- Where `a` leads to `b`, everything else behind `a` is behind `b`. -/
theorem Leads.reach {link : α → Option α} {a b c : α} (h : Leads link a b)
    (hc : ReflTransGen (Leads link) a c) : c = a ∨ ReflTransGen (Leads link) b c := by
  rcases hc.cases_head with hca | ⟨b', hb, hbc⟩
  · exact .inl hca.symm
  · have heq : b' = b := Option.some.inj (hb.symm.trans h)
    rw [heq] at hbc
    exact .inr hbc

/-- Each link on the way from `a` goes up. -/
def Upward [LT α] (link : α → Option α) (a : α) : Prop :=
  ∀ b c, ReflTransGen (Leads link) a b → link b = some c → b < c

/-- Links that go up lead into no circle. -/
theorem Upward.not_cyclic [Preorder α] {link : α → Option α} {a : α} (h : Upward link a) :
    ¬ Cyclic link a := by
  rintro ⟨b, hab, hbb⟩
  have hup {d : α} (hbd : TransGen (Leads link) b d) : b < d := by
    induction hbd with
    | single hc => exact h _ _ hab hc
    | tail hbc hc ih => exact lt_trans ih (h _ _ (hab.trans hbc.to_reflTransGen) hc)
  exact lt_irrefl b (hup hbb)

/-- Two positions, one above the other. -/
theorem Upward.two [LT α] {link : α → Option α} {a b : α} (ha : link a = some b) (hb : link b = none)
    (hab : a < b) : Upward link a := by
  intro c d hc hcd
  have hends {c : α} (hc : ReflTransGen (Leads link) b c) : c = b := by
    rcases hc.cases_head with hc | ⟨e, he, -⟩
    · exact hc.symm
    · exact absurd (hb.symm.trans he) (Option.some_ne_none e).symm
  rcases hc.cases_head with rfl | ⟨e, he, hec⟩
  · cases ha.symm.trans hcd
    exact hab
  · cases ha.symm.trans he
    rw [hends hec, hb] at hcd
    cases hcd

variable {step : σ → Step σ ρ} {pos : σ → α} {link : α → Option α}

theorem Cyclic.of_leads {a b : α} (h : Leads link a b) : Cyclic link a ↔ Cyclic link b := by
  constructor
  · rintro ⟨c, hac, hcc⟩
    rcases h.reach hac with rfl | hbc
    · obtain ⟨b', hb', hback⟩ := TransGen.head'_iff.mp hcc
      have heq : b' = b := Option.some.inj (hb'.symm.trans h)
      rw [heq] at hback
      exact ⟨c, hback, hcc⟩
    · exact ⟨c, hbc, hcc⟩
  · rintro ⟨c, hbc, hcc⟩
    exact ⟨c, .head h hbc, hcc⟩

/-- A finished loop has met no circle. -/
theorem Follows.not_cyclic (hf : Follows step pos link) {s : σ} {r : ρ} (h : Ends step s r) :
    ¬ Cyclic link (pos s) := by
  refine Ends.induct (P := fun s _ => ¬ Cyclic link (pos s)) ?_ ?_ h
  · rintro s r hs ⟨b, hsb, hbb⟩
    have hnone : link (pos s) = none := by
      rcases hf s with ⟨s', h1, -⟩ | ⟨-, -, h2⟩
      · rw [hs] at h1
        cases h1
      · exact h2
    -- nothing follows the position at which the loop stops
    have hstuck {c : α} (hc : ReflTransGen (Leads link) (pos s) c) : c = pos s := by
      rcases hc.cases_head with hc | ⟨c', hc', -⟩
      · exact hc.symm
      · rw [Leads, hnone] at hc'
        cases hc'
    have hb := hstuck hsb
    subst hb
    obtain ⟨c, hc, -⟩ := TransGen.head'_iff.mp hbb
    rw [Leads, hnone] at hc
    cases hc
  · intro s s' r hs _ ih hcyc
    rcases hf s with ⟨s1, h1, h2⟩ | ⟨r', h1, -⟩
    · rw [hs] at h1
      cases h1
      exact ih ((Cyclic.of_leads h2).mp hcyc)
    · rw [hs] at h1
      cases h1

/-- Where only finitely many positions lead on, a loop without a circle stops. -/
theorem Follows.ends (hf : Follows step pos link) (hfin : {a | link a ≠ none}.Finite) {s : σ}
    (h : ¬ Cyclic link (pos s)) : ∃ r, Ends step s r := by
  have hsub (a : α) : {b | ReflTransGen (Leads link) a b ∧ link b ≠ none}.Finite :=
    hfin.subset fun b hb => hb.2
  induction hn : {b | ReflTransGen (Leads link) (pos s) b ∧ link b ≠ none}.ncard
    using Nat.strongRecOn generalizing s with
  | ind n ih =>
    rcases hf s with ⟨s', hs, hl⟩ | ⟨r, hs, -⟩
    · have hlead : Leads link (pos s) (pos s') := hl
      have hacyc : ¬ Cyclic link (pos s') := fun hc => h ((Cyclic.of_leads hlead).mpr hc)
      have hlt : {b | ReflTransGen (Leads link) (pos s') b ∧ link b ≠ none}.ncard < n := by
        rw [← hn]
        refine Set.ncard_lt_ncard ⟨fun b hb => ⟨.head hlead hb.1, hb.2⟩, fun hsup => ?_⟩ (hsub _)
        have hself : pos s ∈ {b | ReflTransGen (Leads link) (pos s) b ∧ link b ≠ none} :=
          ⟨.refl, by rw [hl]; exact Option.some_ne_none _⟩
        exact h ⟨pos s, .refl, .head' hlead (hsup hself).1⟩
      obtain ⟨r, hr⟩ := ih _ hlt hacyc rfl
      exact ⟨r, (ends_next hs).mpr hr⟩
    · exact ⟨r, (ends_stop hs).mpr rfl⟩

theorem Follows.ends_iff (hf : Follows step pos link) (hfin : {a | link a ≠ none}.Finite) (s : σ) :
    (∃ r, Ends step s r) ↔ ¬ Cyclic link (pos s) :=
  ⟨fun ⟨_, hr⟩ => hf.not_cyclic hr, hf.ends hfin⟩

end
end Loop
