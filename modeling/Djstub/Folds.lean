import Mathlib

/-! What is left at the end of a loop that keeps one value of a list: an extreme
one, or the last one of a kind. -/

namespace Folds

variable {α β σ : Type}

/-- An operation that picks one of its arguments and is below both leaves an
element of the list below all others. `P` holds of the values that can be picked. -/
theorem foldl_picks {op : α → α → α} {r : α → α → Prop} {P : α → Prop} (hrefl : ∀ a, r a a)
    (htrans : ∀ a b c, r a b → r b c → r a c)
    (hop : ∀ a b, P a → P b → (op a b = a ∨ op a b = b) ∧ r (op a b) a ∧ r (op a b) b)
    {l : List α} : ∀ {a : α}, P a → (∀ b ∈ l, P b) →
      l.foldl op a ∈ a :: l ∧ ∀ b ∈ a :: l, r (l.foldl op a) b := by
  induction l with
  | nil =>
    intro a _ _
    exact ⟨List.mem_singleton_self a, fun b hb => by rw [List.mem_singleton.mp hb]; exact hrefl a⟩
  | cons b l ih =>
    intro a ha hl
    obtain ⟨hpick, hra, hrb⟩ := hop a b ha (hl b List.mem_cons_self)
    have hP : P (op a b) := by
      rcases hpick with h | h
      · rw [h]; exact ha
      · rw [h]; exact hl b List.mem_cons_self
    obtain ⟨hmem, hall⟩ := ih hP fun c hc => hl c (List.mem_cons_of_mem _ hc)
    rw [List.foldl_cons]
    constructor
    · rcases List.mem_cons.mp hmem with h | h
      · rw [h]
        rcases hpick with h | h
        · rw [h]; exact List.mem_cons_self
        · rw [h]; exact List.mem_cons_of_mem _ List.mem_cons_self
      · exact List.mem_cons_of_mem _ (List.mem_cons_of_mem _ h)
    · intro c hc
      have hfirst := hall _ List.mem_cons_self
      rcases List.mem_cons.mp hc with rfl | hc
      · exact htrans _ _ _ hfirst hra
      · rcases List.mem_cons.mp hc with rfl | hc
        · exact htrans _ _ _ hfirst hrb
        · exact hall c (List.mem_cons_of_mem _ hc)

/-- `k` is the last element of the list with `P`, and `pre` come before it. -/
def Last (P : β → Prop) (l pre : List β) (k : β) : Prop :=
  ∃ post, l = pre ++ k :: post ∧ P k ∧ ∀ q ∈ post, ¬ P q

/-- Behind the last element with `P` there is no other one. -/
theorem Last.not_behind {P : β → Prop} {post as post' : List β} {k k' : β}
    (hpost : ∀ q ∈ post, ¬ P q) (hk' : P k') (h : k :: post = as ++ k' :: post') :
    as = [] ∧ k = k' := by
  cases as with
  | nil => exact ⟨rfl, (List.cons.inj h).1⟩
  | cons a as =>
    obtain ⟨-, rfl⟩ := List.cons.inj h
    exact absurd hk' (hpost k' (by simp))

theorem Last.unique {P : β → Prop} {l pre pre' : List β} {k k' : β} (h : Last P l pre k)
    (h' : Last P l pre' k') : pre = pre' ∧ k = k' := by
  obtain ⟨post, hl, hk, hpost⟩ := h
  obtain ⟨post', hl', hk', hpost'⟩ := h'
  rw [hl] at hl'
  rcases List.append_eq_append_iff.mp hl' with ⟨as, rfl, has⟩ | ⟨as, rfl, has⟩
  · obtain ⟨rfl, rfl⟩ := Last.not_behind hpost hk' has
    exact ⟨by simp, rfl⟩
  · obtain ⟨rfl, rfl⟩ := Last.not_behind hpost' hk has
    exact ⟨by simp, rfl⟩

/-- A value that only elements with `P` change is decided by the last of them. -/
theorem foldl_last {P : β → Prop} (step : σ → β → σ) (v : σ → α)
    (hkeep : ∀ s k, ¬ P k → v (step s k) = v s) (s : σ) (l : List β) :
    ((∀ k ∈ l, ¬ P k) ∧ v (l.foldl step s) = v s) ∨
      ∃ pre k, Last P l pre k ∧ v (l.foldl step s) = v (step (pre.foldl step s) k) := by
  induction l using List.reverseRecOn with
  | nil => exact .inl ⟨fun _ hk => absurd hk List.not_mem_nil, rfl⟩
  | append_singleton l k ih =>
    rw [List.foldl_append, List.foldl_cons, List.foldl_nil]
    by_cases hk : P k
    · exact .inr ⟨l, k, ⟨[], rfl, hk, fun _ hq => absurd hq List.not_mem_nil⟩, rfl⟩
    · rw [hkeep _ k hk]
      rcases ih with ⟨hnone, hv⟩ | ⟨pre, k', ⟨post, rfl, hk', hpost⟩, hv⟩
      · refine .inl ⟨fun q hq => ?_, hv⟩
        rcases List.mem_append.mp hq with hq | hq
        · exact hnone q hq
        · rw [List.mem_singleton.mp hq]
          exact hk
      · refine .inr ⟨pre, k', ⟨post ++ [k], by simp, hk', fun q hq => ?_⟩, hv⟩
        rcases List.mem_append.mp hq with hq | hq
        · exact hpost q hq
        · rw [List.mem_singleton.mp hq]
          exact hk

/-- What a join absorbs, it absorbs piece by piece. -/
theorem foldl_absorbed {op : α → α → α} [hassoc : Std.Associative op] [hcomm : Std.Commutative op]
    [hidem : Std.IdempotentOp op] (g : β → α) (b : α) (l : List β) :
    ∀ a, op (l.foldl (fun a k => op a (g k)) a) b = b ↔ op a b = b ∧ ∀ k ∈ l, op (g k) b = b := by
  have hop (a x : α) : op (op a x) b = b ↔ op a b = b ∧ op x b = b := by
    constructor
    · intro h
      constructor
      · rw [← h, hassoc.assoc, ← hassoc.assoc a a, hidem.idempotent]
      · rw [← h, hcomm.comm a x, hassoc.assoc, ← hassoc.assoc x x, hidem.idempotent]
    · rintro ⟨h1, h2⟩
      rw [hassoc.assoc, h2, h1]
  induction l with
  | nil => intro a; simp
  | cons k l ih =>
    intro a
    rw [List.foldl_cons, ih, hop, and_assoc, List.forall_mem_cons]

end Folds
