import Djstub.Bytes

/-! Tagged pieces laid out one after another. `layout` gives every piece its
index and its offset, a prefix sum of the sizes before it. -/

namespace Layout

variable {τ : Type}

structure Placed (τ : Type) where
  idx : Nat
  tag : τ
  offs : Nat
  size : Nat
  deriving DecidableEq, Repr

/-- Place the pieces from offset `base` on, numbering them from `i`. -/
def layoutFrom (i base : Nat) : List (τ × Nat) → List (Placed τ)
  | [] => []
  | (t, n) :: T => ⟨i, t, base, n⟩ :: layoutFrom (i + 1) (base + n) T

def layout (base : Nat) (T : List (τ × Nat)) : List (Placed τ) := layoutFrom 0 base T

/-- Bytes taken by the pieces. -/
def total (T : List (τ × Nat)) : Nat := (T.map Prod.snd).sum

@[simp] theorem total_nil : total ([] : List (τ × Nat)) = 0 := rfl

@[simp] theorem total_cons (p : τ × Nat) (T : List (τ × Nat)) :
    total (p :: T) = p.2 + total T := by simp [total]

@[simp] theorem total_append (T U : List (τ × Nat)) : total (T ++ U) = total T + total U := by
  simp [total]

theorem total_take_le (T : List (τ × Nat)) (k : Nat) : total (T.take k) ≤ total T := by
  have h : total T = total (T.take k) + total (T.drop k) := by
    rw [← total_append, List.take_append_drop]
  omega

/-- A piece ends before the total. -/
theorem total_take_add_le {T : List (τ × Nat)} {k : Nat} {t : τ} {n : Nat}
    (h : T[k]? = some (t, n)) : total (T.take k) + n ≤ total T := by
  have h1 : T.take (k + 1) = T.take k ++ [(t, n)] := by
    rw [List.take_add_one, h, Option.toList_some]
  have h2 := total_take_le T (k + 1)
  rw [h1, total_append] at h2
  simpa [total] using h2

theorem layoutFrom_length (i base : Nat) (T : List (τ × Nat)) :
    (layoutFrom i base T).length = T.length := by
  induction T generalizing i base with
  | nil => rfl
  | cons p T ih => simp [layoutFrom, ih]

theorem layoutFrom_append (i base : Nat) (T U : List (τ × Nat)) :
    layoutFrom i base (T ++ U) =
      layoutFrom i base T ++ layoutFrom (i + T.length) (base + total T) U := by
  induction T generalizing i base with
  | nil => simp [layoutFrom]
  | cons p T ih =>
    simp only [List.cons_append, layoutFrom, ih, List.length_cons, total_cons]
    rw [Nat.add_assoc i 1, Nat.add_comm 1, Nat.add_assoc base]

theorem layoutFrom_getElem? (i base : Nat) (T : List (τ × Nat)) (k : Nat) :
    (layoutFrom i base T)[k]? =
      T[k]?.map fun p => ⟨i + k, p.1, base + total (T.take k), p.2⟩ := by
  induction T generalizing i base k with
  | nil => simp [layoutFrom]
  | cons p T ih =>
    cases k with
    | zero => simp [layoutFrom]
    | succ k =>
      simp only [layoutFrom, List.getElem?_cons_succ, ih, List.take_succ_cons, total_cons]
      cases T[k]? with
      | none => rfl
      | some q =>
        simp
        omega

theorem layout_length (base : Nat) (T : List (τ × Nat)) : (layout base T).length = T.length :=
  layoutFrom_length 0 base T

theorem layout_getElem? (base : Nat) (T : List (τ × Nat)) (k : Nat) :
    (layout base T)[k]? = T[k]?.map fun p => ⟨k, p.1, base + total (T.take k), p.2⟩ := by
  unfold layout
  simpa using layoutFrom_getElem? 0 base T k

theorem layout_tags (base : Nat) (T : List (τ × Nat)) :
    (layout base T).map Placed.tag = T.map Prod.fst := by
  apply List.ext_getElem?
  intro k
  rw [List.getElem?_map, layout_getElem?, List.getElem?_map, Option.map_map]
  rfl

theorem layout_take (base k : Nat) (T : List (τ × Nat)) :
    layout base (T.take k) = (layout base T).take k := by
  apply List.ext_getElem?
  intro j
  rw [layout_getElem?, List.getElem?_take, List.getElem?_take, layout_getElem?]
  split
  · rw [List.take_take, Nat.min_eq_left (by omega)]
  · rfl

/-- Moving the base moves every offset and nothing else. -/
theorem layout_base (base base' : Nat) (T : List (τ × Nat)) :
    layout base' T =
      (layout base T).map fun e => ⟨e.idx, e.tag, base' + (e.offs - base), e.size⟩ := by
  apply List.ext_getElem?
  intro j
  rw [List.getElem?_map, layout_getElem?, layout_getElem?]
  cases T[j]? with
  | none => rfl
  | some p => simp

/-! ## Looking a tag up -/

/-- The first piece with tag `t`. -/
def find [DecidableEq τ] (t : τ) (base : Nat) (T : List (τ × Nat)) : Option (Placed τ) :=
  (layout base T).find? fun e => e.tag = t

/-- Pieces after the first hit do not matter to a lookup. -/
theorem find_take [DecidableEq τ] {t : τ} {base : Nat} {T : List (τ × Nat)} {e : Placed τ} {k : Nat}
    (h : find t base T = some e) (hk : e.idx < k) : find t base (T.take k) = some e := by
  unfold find at h ⊢
  obtain ⟨he, as, bs, hl, has⟩ := List.find?_eq_some_iff_append.mp h
  have hi : e.idx = as.length := by
    have h1 : (layout base T)[as.length]? = some e := by rw [hl]; simp
    rw [layout_getElem?] at h1
    cases hT : T[as.length]? with
    | none => rw [hT] at h1; simp at h1
    | some p => rw [hT] at h1; simp at h1; rw [← h1]
  rw [layout_take, List.find?_eq_some_iff_append]
  refine ⟨he, as, bs.take (k - as.length - 1), ?_, has⟩
  rw [hl, List.take_append, List.take_of_length_le (by omega)]
  congr 1
  obtain ⟨m, hm⟩ : ∃ m, k - as.length = m + 1 := ⟨k - as.length - 1, by omega⟩
  rw [hm, List.take_succ_cons, Nat.add_sub_cancel]

/-- A lookup that succeeds does not look at what follows. -/
theorem find_append [DecidableEq τ] {t : τ} {base : Nat} {T : List (τ × Nat)} {e : Placed τ}
    (h : find t base T = some e) (U : List (τ × Nat)) : find t base (T ++ U) = some e := by
  unfold find layout at h ⊢
  rw [layoutFrom_append, List.find?_append, h, Option.some_or]

theorem find_spec [DecidableEq τ] {t : τ} {base : Nat} {T : List (τ × Nat)} {e : Placed τ}
    (h : find t base T = some e) :
    T[e.idx]? = some (t, e.size) ∧ e.offs = base + total (T.take e.idx) := by
  have hm := List.mem_of_find?_eq_some h
  have ht : e.tag = t := by simpa using List.find?_some h
  obtain ⟨j, hj⟩ := List.getElem?_of_mem hm
  rw [layout_getElem?] at hj
  cases hT : T[j]? with
  | none => rw [hT] at hj; simp at hj
  | some p =>
    rw [hT] at hj
    simp at hj
    subst hj
    simp only at ht ⊢
    exact ⟨by rw [hT, ← ht], trivial⟩

/-- The first piece with the tag is found. -/
theorem find_of_first [DecidableEq τ] {t : τ} {T : List (τ × Nat)} {i n : Nat}
    (h : T[i]? = some (t, n)) (hfirst : ∀ k < i, ∀ p, T[k]? = some p → p.1 ≠ t) (base : Nat) :
    find t base T = some ⟨i, t, base + total (T.take i), n⟩ := by
  have hi : (layout base T)[i]? = some ⟨i, t, base + total (T.take i), n⟩ := by
    rw [layout_getElem?, h]
    rfl
  obtain ⟨hlt, heq⟩ := List.getElem?_eq_some_iff.mp hi
  refine List.find?_eq_some_iff_getElem.mpr ⟨by simp, i, hlt, heq, fun k hk => ?_⟩
  have hk' := List.getElem?_eq_getElem (Nat.lt_trans hk hlt)
  rw [layout_getElem?] at hk'
  obtain ⟨p, hp, he⟩ := Option.map_eq_some_iff.mp hk'
  rw [← he]
  simpa using hfirst k hk p hp

/-- Nothing is found where no piece has the tag. -/
theorem find_eq_none_iff [DecidableEq τ] {t : τ} {base : Nat} {T : List (τ × Nat)} :
    find t base T = none ↔ ∀ (k : Nat) (p : τ × Nat), T[k]? = some p → p.1 ≠ t := by
  rw [find, List.find?_eq_none]
  constructor
  · intro hnone k p hp ht
    have hk : (layout base T)[k]? = some ⟨k, p.1, base + total (T.take k), p.2⟩ := by
      rw [layout_getElem?, hp]
      rfl
    exact hnone _ (List.mem_of_getElem? hk) (by simpa using ht)
  · intro hall e he ht
    obtain ⟨k, hk⟩ := List.getElem?_of_mem he
    rw [layout_getElem?] at hk
    obtain ⟨p, hp, rfl⟩ := Option.map_eq_some_iff.mp hk
    exact hall k p hp (by simpa using ht)

/-! ## The bytes of a piece -/

/-- The contents of all pieces. -/
def extents (f : Bytes) (base : Nat) (T : List (τ × Nat)) : List Bytes :=
  (layout base T).map fun e => Bytes.slice f e.offs e.size

theorem extents_flatten (f : Bytes) (base : Nat) (T : List (τ × Nat)) :
    (extents f base T).flatten = Bytes.slice f base (total T) := by
  unfold extents layout
  generalize 0 = i
  induction T generalizing i base with
  | nil => simp [layoutFrom, Bytes.slice]
  | cons p T ih =>
    rw [layoutFrom, List.map_cons, List.flatten_cons, ih, total_cons, Bytes.slice_add]

/-- If the pieces' contents stand one after another from `n` on, the extent of
piece `i` holds its contents. -/
theorem slice_flatten {g : Bytes} {n : Nat} {cs : List Bytes} (hg : g.drop n = cs.flatten)
    {i : Nat} {c : Bytes} (h : cs[i]? = some c) :
    Bytes.slice g (n + ((cs.take i).map List.length).sum) c.length = c := by
  induction cs generalizing n i with
  | nil => cases h
  | cons a cs ih =>
    rw [List.flatten_cons] at hg
    cases i with
    | zero =>
      cases h
      simp [Bytes.slice, hg]
    | succ i =>
      have hrest : g.drop (n + a.length) = cs.flatten := by
        rw [← List.drop_drop, hg, List.drop_left]
      have htail := ih hrest h
      rw [Nat.add_assoc] at htail
      simpa using htail

/-- Contents of the sizes that the table gives stand where it says. -/
theorem slice_of_find [DecidableEq τ] {T : List (τ × Nat)} {c : τ → Bytes}
    (hc : ∀ p ∈ T, (c p.1).length = p.2) {t : τ} {base : Nat} {e : Placed τ}
    (h : find t base T = some e) {g : Bytes} (hg : g.drop base = (T.map fun p => c p.1).flatten) :
    Bytes.slice g e.offs e.size = c t := by
  obtain ⟨ht, hoffs⟩ := find_spec h
  have hmem : (t, e.size) ∈ T := List.mem_of_getElem? ht
  have hsum : (((T.map fun p => c p.1).take e.idx).map List.length).sum = total (T.take e.idx) := by
    rw [← List.map_take, List.map_map, total]
    congr 1
    exact List.map_congr_left fun p hp => hc p (List.mem_of_mem_take hp)
  have hpiece : (T.map fun p => c p.1)[e.idx]? = some (c t) := by rw [List.getElem?_map, ht]; rfl
  have hs := slice_flatten hg hpiece
  rw [hsum, hc _ hmem, ← hoffs] at hs
  exact hs

end Layout
