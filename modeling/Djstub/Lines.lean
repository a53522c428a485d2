import Mathlib

/-! Text that is searched line by line. A pattern without the separator is in some
line if it is in the text. -/

namespace Lines

variable {α : Type} {a : α} {p : List α}

/-- What does not contain `a` is on one side of it. -/
theorem infix_cut (hp : a ∉ p) (xs ys : List α) :
    p <:+: xs ++ a :: ys ↔ p <:+: xs ∨ p <:+: ys := by
  constructor
  · intro h
    rcases List.infix_append_iff.mp h with h | h | ⟨l1, l2, rfl, h1, h2⟩
    · exact .inl h
    · rcases List.infix_cons_iff.mp h with h | h
      · cases p with
        | nil => exact .inl List.nil_infix
        | cons x p =>
          obtain ⟨t, ht⟩ := h
          cases ht
          exact absurd (List.mem_cons_self ..) hp
      · exact .inr h
    · cases l2 with
      | nil =>
        rw [List.append_nil]
        exact .inl h1.isInfix
      | cons x l2 =>
        obtain ⟨t, ht⟩ := h2
        cases ht
        exact absurd (List.mem_append_right _ (List.mem_cons_self ..)) hp
  · rintro (h | h)
    · exact List.infix_append_of_infix_left h
    · exact List.infix_append_of_infix_right (List.infix_cons h)

theorem infix_intercalate (hp : a ∉ p) {ls : List (List α)} (hne : ls ≠ []) :
    p <:+: [a].intercalate ls ↔ ∃ l ∈ ls, p <:+: l := by
  induction ls with
  | nil => exact absurd rfl hne
  | cons l ls ih =>
    cases ls with
    | nil => simp
    | cons l' ls =>
      have hcut : [a].intercalate (l :: l' :: ls) = l ++ a :: [a].intercalate (l' :: ls) := by
        simp [List.intercalate]
      rw [hcut, infix_cut hp, ih (List.cons_ne_nil _ _)]
      exact (List.exists_mem_cons_iff _ _ _).symm

/-- The lines that contain `p`. -/
def grep [DecidableEq α] (a : α) (p t : List α) : List (List α) :=
  (t.splitOn a).filter (p <:+: ·)

theorem grep_ne_nil_iff [DecidableEq α] (hp : a ∉ p) (t : List α) : grep a p t ≠ [] ↔ p <:+: t := by
  have hjoin : [a].intercalate (t.splitOn a) = t := List.intercalate_splitOn a
  rw [← hjoin, infix_intercalate hp (List.splitOn_ne_nil a t), hjoin]
  simp [grep, List.filter_eq_nil_iff]

/-- Texts that are ended by the separator. -/
theorem infix_flatten (hp : a ∉ p) (hne : p ≠ []) {ts : List (List α)}
    (hts : ∀ t ∈ ts, ∃ b, t = b ++ [a]) : p <:+: ts.flatten ↔ ∃ t ∈ ts, p <:+: t := by
  induction ts with
  | nil => simp [hne]
  | cons t ts ih =>
    obtain ⟨b, rfl⟩ := hts t (List.mem_cons_self ..)
    have hb : p <:+: b ++ [a] ↔ p <:+: b := by
      rw [infix_cut hp, List.infix_nil, or_iff_left hne]
    rw [List.flatten_cons, List.append_assoc, List.singleton_append, infix_cut hp,
      ih fun t ht => hts t (List.mem_cons_of_mem _ ht), List.exists_mem_cons_iff, hb]

theorem not_infix {c : α} (hc : c ∈ p) {t : List α} (ht : c ∉ t) : ¬ p <:+: t :=
  fun h => ht (h.subset hc)

/-- The digits of a number. -/
theorem mem_toDigits {b : Nat} (hb : 1 < b) {n : Nat} {c : Char} (h : c ∈ Nat.toDigits b n) :
    ∃ d < b, c = Nat.digitChar d := by
  induction n using Nat.strongRecOn with
  | ind n ih =>
    by_cases hn : n < b
    · rw [Nat.toDigits_of_lt_base hn, List.mem_singleton] at h
      exact ⟨n, hn, h⟩
    · rw [Nat.toDigits_of_base_le hb (by omega), List.mem_append, List.mem_singleton] at h
      rcases h with h | h
      · exact ih (n / b) (Nat.div_lt_self (by omega) hb) h
      · exact ⟨n % b, Nat.mod_lt _ (by omega), h⟩

end Lines
