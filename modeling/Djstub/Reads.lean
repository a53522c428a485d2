import Djstub.Loader

/-! `_long_read` under any behaviour of `read`. As long as no call fails, the
bytes are put where they belong and are counted right; after a failed call, -1
is added to the count. -/

namespace Djstub

open Bytes Loop Stores

/-! ## Calls -/

/-- A call of `read`: the count asked for, and the bytes that came; `none` is -1. -/
structure Call where
  todo : Nat
  result : Option Bytes
  deriving DecidableEq, Repr

def asked (cs : List Call) : Nat := (cs.map Call.todo).sum

def delivered (cs : List Call) : Bytes := (cs.map fun c => c.result.getD []).flatten

/-- The number of calls that returned -1. -/
def failures (cs : List Call) : Nat := cs.countP fun c => c.result.isNone

section
variable {σ : Type}

/-- `read` with a record of its calls. -/
def recorded (read : σ → Nat → Option Bytes × σ) (s : σ × List Call) (n : Nat) :
    Option Bytes × (σ × List Call) :=
  let r := read s.1 n
  (r.1, (r.2, s.2 ++ [⟨n, r.1⟩]))

/-- Reading `n` bytes in chunks, up to the first short one, meets no failure. -/
inductive Delivers (read : σ → Nat → Option Bytes × σ) : σ → Nat → List Call → σ → Prop where
  | done (s : σ) : Delivers read s 0 [] s
  | short {s s' : σ} {n : Nat} {d : Bytes} : n ≠ 0 → read s (min n 4096) = (some d, s') →
      d.length < min n 4096 → Delivers read s n [⟨min n 4096, some d⟩] s'
  | full {s s' s'' : σ} {n : Nat} {d : Bytes} {cs : List Call} : n ≠ 0 →
      read s (min n 4096) = (some d, s') → d.length = min n 4096 →
      Delivers read s' (n - d.length) cs s'' →
      Delivers read s n (⟨min n 4096, some d⟩ :: cs) s''

variable {read : σ → Nat → Option Bytes × σ}

theorem Delivers.bounds {s s' : σ} {n : Nat} {cs : List Call} (h : Delivers read s n cs s') :
    cs.length ≤ n ∧ asked cs ≤ n ∧ (delivered cs).length ≤ n := by
  induction h with
  | done s => simp [asked, delivered]
  | short h0 _ hlt =>
    simp only [asked, delivered, List.map_cons, List.map_nil, List.sum_cons, List.sum_nil,
      List.flatten_cons, List.flatten_nil, Option.getD_some, List.length_append, List.length_cons,
      List.length_nil]
    omega
  | full h0 _ hlen _ ih =>
    simp only [asked, delivered] at ih
    simp only [asked, delivered, List.map_cons, List.sum_cons, List.flatten_cons, Option.getD_some,
      List.length_append, List.length_cons]
    omega

theorem Delivers.recorded {s s' : σ} {n : Nat} {cs : List Call} (h : Delivers read s n cs s') :
    ∀ log, Delivers (recorded read) (s, log) n cs (s', log ++ cs) := by
  induction h with
  | done s =>
    intro log
    rw [List.append_nil]
    exact .done _
  | short h0 hr hlt =>
    intro log
    exact .short h0 (by simp [Djstub.recorded, hr]) hlt
  | @full s s' s'' n d cs h0 hr hlen _ ih =>
    intro log
    have hrest := ih (log ++ [⟨min n 4096, some d⟩])
    rw [List.append_assoc] at hrest
    exact .full h0 (by simp [Djstub.recorded, hr]) hlen hrest

/-! ## Rounds -/

variable (offset : Nat) {s : LongRead σ}

/-- The bytes of a word-aligned copy: what was read, and a byte of the old buffer. -/
theorem Page.take_fill (tmp : Page) {d : Bytes} (hd : d.length ≤ 4096) :
    ∃ pad : Bytes, pad.length = d.length % 2 ∧
      (tmp.fill d).1.take ((d.length + d.length % 2) % 2 ^ 32) = d ++ pad := by
  have ht := tmp.2
  refine ⟨(tmp.1.drop d.length).take (d.length % 2), ?_, ?_⟩
  · rw [List.length_take, List.length_drop]
    omega
  · rw [Nat.mod_eq_of_lt (by omega), Page.fill, List.take_take, Nat.min_eq_left (by omega),
      List.take_append, List.take_of_length_le (by omega), Nat.add_sub_cancel_left]

theorem longReadStep_done (hs : s.size = 0) : longReadStep read offset s = .stop s := if_pos hs

/-- A round whose read succeeds. -/
theorem longReadStep_delivers {d : Bytes} {f' : σ} (hs : s.size ≠ 0) (hsz : s.size < 2 ^ 32)
    (hdn : s.done < 2 ^ 32) (hr : read s.file (min s.size 4096) = (some d, f'))
    (hle : d.length ≤ min s.size 4096) :
    ∃ (tmp : Page) (new : List Store) (pad : Bytes),
      pad.length = d.length % 2 ∧ Puts 32 new (offset + s.done) (d ++ pad) ∧
      longReadStep read offset s =
        (if d.length < min s.size 4096 then Step.stop else Step.next)
          { file := f', tmp, done := (s.done + d.length) % 2 ^ 32
            size := (s.size + 2 ^ 32 - d.length) % 2 ^ 32, stores := s.stores ++ new } := by
  by_cases h0 : d.length = 0
  · refine ⟨s.tmp.fill d, [], [], by rw [h0]; rfl, ?_, ?_⟩
    · rw [List.length_eq_zero_iff.mp h0]
      exact .nil 32 _
    · unfold longReadStep
      rw [if_neg hs]
      simp only [hr, Option.elim_some, h0, ne_eq, not_true_eq_false, if_false, Nat.add_zero,
        Nat.sub_zero, Nat.add_mod_right, Nat.mod_eq_of_lt hsz, Nat.mod_eq_of_lt hdn, List.append_nil]
      split <;> rfl
  · obtain ⟨pad, hpad, hdata⟩ := s.tmp.take_fill (d := d) (by omega)
    refine ⟨s.tmp.fill d, [farmemcpy ((offset + s.done) % 2 ^ 32)
      ((s.tmp.fill d).1.take ((d.length + d.length % 2) % 2 ^ 32)) ((s.tmp.fill d).take_even _)],
      pad, hpad, ?_, ?_⟩
    · rw [← hdata]
      exact .single rfl
    · unfold longReadStep
      rw [if_neg hs]
      simp only [hr, Option.elim_some, h0, ne_eq, not_false_eq_true, if_true]
      split <;> rfl

/-- A round whose read fails: nothing is copied, the count goes down and the rest
goes up. -/
theorem longReadStep_fails (hs : s.size ≠ 0) (hr : (read s.file (min s.size 4096)).1 = none) :
    ∃ st, longReadStep read offset s = .next
      { file := (read s.file (min s.size 4096)).2, tmp := s.tmp
        done := (s.done + (2 ^ 32 - 1)) % 2 ^ 32, size := (s.size + 1) % 2 ^ 32
        stores := s.stores ++ [st] } := by
  refine ⟨farmemcpy ((offset + s.done) % 2 ^ 32)
    (s.tmp.1.take ((2 ^ 32 - 1 + (2 ^ 32 - 1) % 2) % 2 ^ 32)) (s.tmp.take_even _), ?_⟩
  unfold longReadStep
  rw [if_neg hs]
  simp only [hr, Option.elim_none]
  have hsub : s.size + 2 ^ 32 - (2 ^ 32 - 1) = s.size + 1 := by omega
  rw [if_neg (by omega), if_pos (by decide), hsub]

/-- The rounds of a loop whose reads succeed. Every chunk but the last one is
even, so the copies meet. -/
theorem Delivers.run {f f' : σ} {n : Nat} {cs : List Call} (h : Delivers read f n cs f') :
    ∀ s : LongRead σ, s.file = f → s.size = n → s.done + n < 2 ^ 32 →
    ∃ (r : LongRead σ) (new : List Store) (pad : Bytes),
      run (longReadStep read offset) (cs.length + 1) s = some r ∧
      r.file = f' ∧ r.done = s.done + (delivered cs).length ∧ r.stores = s.stores ++ new ∧
      pad.length = (delivered cs).length % 2 ∧ Puts 32 new (offset + s.done) (delivered cs ++ pad) := by
  induction h with
  | done f =>
    intro s hf hsz hlt
    exact ⟨s, [], [], run_of_stop (longReadStep_done offset hsz) 0, hf, rfl, by simp, rfl, .nil 32 _⟩
  | @short f f' n d h0 hr hlen =>
    intro s hf hsz hlt
    subst hf hsz
    obtain ⟨tmp, new, pad, hpad, hputs, hstep⟩ :=
      longReadStep_delivers offset h0 (by omega) (by omega) hr (by omega)
    rw [if_pos hlen] at hstep
    have hdel : delivered [⟨min s.size 4096, some d⟩] = d := by simp [delivered]
    rw [hdel]
    exact ⟨_, new, pad, run_of_stop hstep _, rfl, Nat.mod_eq_of_lt (by omega), rfl, hpad, hputs⟩
  | @full f f1 f' n d cs h0 hr hlen hrest ih =>
    intro s hf hsz hlt
    subst hf hsz
    obtain ⟨tmp, new, pad, hpad, hputs, hstep⟩ :=
      longReadStep_delivers offset h0 (by omega) (by omega) hr (by omega)
    have hdone : (s.done + d.length) % 2 ^ 32 = s.done + d.length := Nat.mod_eq_of_lt (by omega)
    have hsize : (s.size + 2 ^ 32 - d.length) % 2 ^ 32 = s.size - d.length := by
      rw [Nat.sub_add_comm (by omega), Nat.add_mod_right, Nat.mod_eq_of_lt (by omega)]
    rw [if_neg (by omega), hdone, hsize] at hstep
    have hdel : delivered (⟨min s.size 4096, some d⟩ :: cs) = d ++ delivered cs := by
      simp [delivered]
    rw [hdel]
    by_cases hlast : s.size - d.length = 0
    · -- nothing is left to read
      rw [hlast] at hrest hstep
      cases hrest with
      | short h _ _ => exact absurd rfl h
      | full h _ _ _ => exact absurd rfl h
      | done =>
        have hnil : d ++ delivered [] = d := by simp [delivered]
        rw [hnil]
        have hrun := run_of_next hstep 1
        have hlast : longReadStep read offset
            ⟨f1, tmp, s.done + d.length, 0, s.stores ++ new⟩ = .stop _ :=
          longReadStep_done offset rfl
        rw [run_of_stop hlast 0] at hrun
        exact ⟨_, new, pad, hrun, rfl, rfl, rfl, hpad, hputs⟩
    · have hpad0 : pad = [] := List.length_eq_zero_iff.mp (by omega)
      subst hpad0
      rw [List.append_nil] at hputs
      obtain ⟨r, new', pad', hrun, h1, h2, h3, h4, h5⟩ := ih
        { file := f1, tmp, done := s.done + d.length, size := s.size - d.length
          stores := s.stores ++ new } rfl rfl (by dsimp only; omega)
      have hb := hrest.bounds
      dsimp only at h2 h3 h5
      rw [← Nat.add_assoc] at h5
      refine ⟨r, new ++ new', pad', ?_, h1, by rw [h2, List.length_append]; omega,
        by rw [h3, List.append_assoc], by rw [h4, List.length_append]; omega, ?_⟩
      · rw [List.length_cons, run_of_next hstep]
        exact hrun
      · rw [List.append_assoc]
        exact hputs.append h5 (by rw [List.length_append]; omega)

/-- Reading from a file does not fail. -/
theorem fileRead_delivers (f : Bytes) (n : Nat) : ∀ pos, ∃ cs,
    Delivers (fileRead f) pos n cs (pos + min n (f.length - pos)) ∧ delivered cs = slice f pos n := by
  induction n using Nat.strongRecOn with
  | ind n ih =>
    intro pos
    by_cases h0 : n = 0
    · subst h0
      rw [Nat.zero_min, Nat.add_zero]
      exact ⟨[], .done pos, by simp [delivered, slice]⟩
    have hlen := slice_length f pos (min n 4096)
    by_cases hshort : (slice f pos (min n 4096)).length < min n 4096
    · have hall : slice f pos (min n 4096) = slice f pos n := by
        rw [slice, slice, List.take_of_length_le (by rw [List.length_drop]; omega),
          List.take_of_length_le (by rw [List.length_drop]; omega)]
      have hstep : Delivers (fileRead f) pos n _ _ := .short h0 rfl hshort
      rw [show pos + (slice f pos (min n 4096)).length = pos + min n (f.length - pos) by omega] at hstep
      exact ⟨_, hstep, by simpa [delivered] using hall⟩
    · have hfull : (slice f pos (min n 4096)).length = min n 4096 := by omega
      obtain ⟨cs, hcs, hdel⟩ := ih (n - min n 4096) (by omega) (pos + min n 4096)
      rw [show pos + min n 4096 + min (n - min n 4096) (f.length - (pos + min n 4096)) =
        pos + min n (f.length - pos) by omega] at hcs
      refine ⟨_, .full h0 rfl hfull (by rw [hfull]; exact hcs), ?_⟩
      have hsplit : n = min n 4096 + (n - min n 4096) := by omega
      have hcons : delivered (⟨min n 4096, some (slice f pos (min n 4096))⟩ :: cs) =
          slice f pos (min n 4096) ++ delivered cs := by
        simp [delivered]
      rw [hcons, hdel, ← slice_add, ← hsplit]

/-- Calls that deliver nothing end the loop. -/
theorem Delivers.length_le {f f' : σ} {n : Nat} {cs : List Call} (h : Delivers read f n cs f') :
    cs.length ≤ (delivered cs).length + 1 := by
  induction h with
  | done s => exact Nat.zero_le _
  | short _ _ _ => simp
  | full h0 _ hlen _ ih =>
    simp only [delivered] at ih
    simp only [delivered, List.map_cons, List.flatten_cons, Option.getD_some, List.length_append,
      List.length_cons]
    omega

/-- `_long_read` puts what comes of the section at `offset`. -/
theorem Delivers.longRead {io : OpenFile σ} {file file' : σ} {size fuel : Nat} {cs : List Call}
    (h : Delivers io.read file size cs file') (hsize : size < 2 ^ 32) (hfuel : cs.length < fuel)
    (tmp : Page) (stores : List Store) :
    ∃ (r : LongRead σ) (new : List Store) (pad : Bytes),
      longRead io fuel tmp file offset size stores = some r ∧
      r.done = (delivered cs).length ∧ r.file = file' ∧ r.stores = stores ++ new ∧
      pad.length = r.done % 2 ∧ Puts 32 new offset (delivered cs ++ pad) := by
  obtain ⟨r, new, pad, hrun, hfile, hdone, hstores, hpad, hputs⟩ := h.run offset
    { file, tmp, done := 0, size, stores } rfl rfl (by simpa using hsize)
  rw [Nat.zero_add] at hdone
  rw [← hdone] at hpad
  exact ⟨r, new, pad, run_mono (by omega) hrun, hdone, hfile, hstores, hpad, hputs⟩

/-- `_long_read` from a file. -/
theorem longRead_file {f : Bytes} {fuel : Nat} (hfuel : rounds f ≤ fuel) (tmp : Page)
    (pos offset : Nat) {size : Nat} (hsize : size < 2 ^ 32) (stores : List Store) :
    ∃ (r : LongRead Nat) (new : List Store) (pad : Bytes),
      longRead (fileOps f) fuel tmp pos offset size stores = some r ∧
      r.done = min size (f.length - pos) ∧ r.file = pos + r.done ∧ r.stores = stores ++ new ∧
      pad.length = r.done % 2 ∧ Puts 32 new offset (slice f pos size ++ pad) := by
  obtain ⟨cs, hcs, hdel⟩ := fileRead_delivers f size pos
  have hlen := hcs.length_le
  have hslice := slice_length f pos size
  rw [rounds] at hfuel
  rw [hdel] at hlen
  have hio : Delivers (fileOps f).read pos size cs (pos + min size (f.length - pos)) := hcs
  obtain ⟨r, new, pad, hrun, hdone, hfile, hstores, hpad, hputs⟩ :=
    hio.longRead offset hsize (by omega : cs.length < fuel) tmp stores
  rw [hdel, hslice] at hdone
  rw [hdel] at hputs
  exact ⟨r, new, pad, hrun, hdone, by rw [hfile, hdone], hstores, hpad, hputs⟩

/-! ## Accounting -/

/-- What the callers of `_long_read` rely on: it returns the number of bytes that
came, these stand in memory at `offset` and, but for the byte that rounds them up,
nothing else does; and it asks for no more than `size` bytes, in no more than
`size` calls. So if it returns `size`, all of the section is there. -/
structure Accounts (offset size : Nat) (cs : List Call) (r : LongRead σ) : Prop where
  calls : cs.length ≤ size
  asked : asked cs ≤ size
  count : r.done = (delivered cs).length
  holds : ∀ (m : Memory 32) (k : Nat) (b : UInt8), (delivered cs)[k]? = some b →
    applyAll r.stores m (BitVec.ofNat 32 (offset + k)) = b
  frame : ∀ (m : Memory 32) (k : Nat), r.done + r.done % 2 ≤ k → k < 2 ^ 32 →
    applyAll r.stores m (BitVec.ofNat 32 (offset + k)) = m (BitVec.ofNat 32 (offset + k))
  whole : r.done = size → ∀ (m : Memory 32) (k : Nat), k < size → ∃ b,
    (delivered cs)[k]? = some b ∧ applyAll r.stores m (BitVec.ofNat 32 (offset + k)) = b

/-- `read` delivers no more than it is asked for. -/
def Honest (read : σ → Nat → Option Bytes × σ) : Prop :=
  ∀ s n d, (read s n).1 = some d → d.length ≤ n

/-- The state in which `_long_read` enters its loop. -/
def LongRead.enter (file : σ) (tmp : Page) (size : Nat) : LongRead σ :=
  { file, tmp, done := 0, size, stores := [] }

theorem Delivers.accounts {f f' : σ} {size : Nat} {cs : List Call}
    (h : Delivers read f size cs f') (hsize : size < 2 ^ 32) (tmp : Page) (offset : Nat) :
    ∃ r, Ends (longReadStep (Djstub.recorded read) offset) (.enter (f, []) tmp size) r ∧
      r.file.2 = cs ∧ Accounts offset size cs r := by
  obtain ⟨hcalls, hasked, hlen⟩ := h.bounds
  obtain ⟨r, new, pad, hrun, hfile, hdone, hstores, hpad, hputs⟩ :=
    (h.recorded []).run offset (.enter (f, []) tmp size) rfl rfl
      (by simpa [LongRead.enter] using hsize)
  simp only [LongRead.enter, Nat.zero_add, Nat.add_zero, List.nil_append] at hdone hstores hputs
  have hmem (m : Memory 32) (k : Nat) (hk : k < 2 ^ 32) :
      applyAll r.stores m (BitVec.ofNat 32 (offset + k)) =
        (delivered cs ++ pad)[k]?.getD (m (BitVec.ofNat 32 (offset + k))) := by
    rw [hstores, hputs.memory, BitVec.ofNat_add]
    exact blit_add m _ _ hk
  have hholds (m : Memory 32) (k : Nat) (b : UInt8) (hb : (delivered cs)[k]? = some b) :
      applyAll r.stores m (BitVec.ofNat 32 (offset + k)) = b := by
    have hk := (List.getElem?_eq_some_iff.mp hb).1
    rw [hmem m k (by omega), List.getElem?_append_left hk, hb, Option.getD_some]
  refine ⟨r, ⟨_, hrun⟩, by rw [hfile]; rfl, hcalls, hasked, hdone, hholds, ?_, ?_⟩
  · intro m k hlow hk
    rw [hmem m k hk, List.getElem?_eq_none (by rw [List.length_append]; omega), Option.getD_none]
  · intro hall m k hk
    have hb := List.getElem?_eq_getElem (l := delivered cs) (i := k) (by omega)
    exact ⟨_, hb, hholds m k _ hb⟩

/-- Everything that one round can do, with its call on record. -/
inductive Round (read : σ → Nat → Option Bytes × σ) (s : LongRead (σ × List Call)) :
    Step (LongRead (σ × List Call)) (LongRead (σ × List Call)) → Prop where
  | done : s.size = 0 → Round read s (.stop s)
  | fails (s' : LongRead (σ × List Call)) : s.file.2 ++ [⟨min s.size 4096, none⟩] = s'.file.2 →
      s'.done = (s.done + (2 ^ 32 - 1)) % 2 ^ 32 → s'.size < 2 ^ 32 → Round read s (.next s')
  | short (s' : LongRead (σ × List Call)) (d : Bytes) : s.size ≠ 0 →
      read s.file.1 (min s.size 4096) = (some d, s'.file.1) → d.length < min s.size 4096 →
      s.file.2 ++ [⟨min s.size 4096, some d⟩] = s'.file.2 →
      s'.done = (s.done + d.length) % 2 ^ 32 → Round read s (.stop s')
  | full (s' : LongRead (σ × List Call)) (d : Bytes) : s.size ≠ 0 →
      read s.file.1 (min s.size 4096) = (some d, s'.file.1) → d.length = min s.size 4096 →
      s.file.2 ++ [⟨min s.size 4096, some d⟩] = s'.file.2 →
      s'.done = (s.done + d.length) % 2 ^ 32 → s'.size = s.size - d.length → Round read s (.next s')

theorem longReadStep_round (offset : Nat) (hread : Honest read) {s : LongRead (σ × List Call)}
    (hdn : s.done < 2 ^ 32) (hsz : s.size < 2 ^ 32) :
    Round read s (longReadStep (Djstub.recorded read) offset s) := by
  by_cases h0 : s.size = 0
  · rw [longReadStep_done offset h0]
    exact .done h0
  obtain ⟨⟨res, f'⟩, hr⟩ : ∃ r, read s.file.1 (min s.size 4096) = r := ⟨_, rfl⟩
  have hrec : Djstub.recorded read s.file (min s.size 4096) =
      (res, f', s.file.2 ++ [⟨min s.size 4096, res⟩]) := by
    simp only [Djstub.recorded, hr]
  cases res with
  | none =>
    obtain ⟨st, hstep⟩ := longReadStep_fails offset h0 (congrArg Prod.fst hrec)
    rw [hstep, hrec]
    exact .fails _ rfl rfl (Nat.mod_lt _ (by decide))
  | some d =>
    have hle : d.length ≤ min s.size 4096 := hread _ _ _ (by rw [hr])
    obtain ⟨tmp, new, pad, -, -, hstep⟩ := longReadStep_delivers offset h0 hsz hdn hrec hle
    rw [hstep]
    split
    · next hshort => exact .short _ d h0 hr hshort rfl rfl
    · next hshort =>
      refine .full _ d h0 hr (by omega) rfl rfl ?_
      dsimp only
      rw [Nat.sub_add_comm (by omega), Nat.add_mod_right, Nat.mod_eq_of_lt (by omega)]

/-- The count of a finished loop: every failed call has added -1. Without one, the
section has been read. -/
theorem recorded_run {offset : Nat} (hread : Honest read) {s r : LongRead (σ × List Call)}
    (h : Ends (longReadStep (Djstub.recorded read) offset) s r) :
    s.done < 2 ^ 32 → s.size < 2 ^ 32 → ∃ cs, r.file.2 = s.file.2 ++ cs ∧
      r.done < 2 ^ 32 ∧ (r.done + failures cs) % 2 ^ 32 = (s.done + (delivered cs).length) % 2 ^ 32 ∧
      (failures cs ≠ 0 ∨ ∃ cs' f', Delivers read s.file.1 s.size cs' f') := by
  refine Ends.induct (P := fun s r => s.done < 2 ^ 32 → s.size < 2 ^ 32 → ∃ cs,
    r.file.2 = s.file.2 ++ cs ∧
    r.done < 2 ^ 32 ∧ (r.done + failures cs) % 2 ^ 32 = (s.done + (delivered cs).length) % 2 ^ 32 ∧
    (failures cs ≠ 0 ∨ ∃ cs' f', Delivers read s.file.1 s.size cs' f')) ?_ ?_ h
  · intro s r hs hdn hsz
    have hround := longReadStep_round offset hread hdn hsz
    rw [hs] at hround
    cases hround with
    | done h0 =>
      exact ⟨[], by simp, hdn, by simp [delivered, failures], .inr ⟨[], _, by rw [h0]; exact .done _⟩⟩
    | short _ d h0 hr hshort hfile hdone =>
      refine ⟨_, hfile.symm, by rw [hdone]; exact Nat.mod_lt _ (by decide), ?_,
        .inr ⟨_, _, .short h0 hr hshort⟩⟩
      rw [hdone]
      simp [delivered, failures]
  · intro s s' r hs _ ih hdn hsz
    have hround := longReadStep_round offset hread hdn hsz
    rw [hs] at hround
    cases hround with
    | fails _ hfile hdone hsize =>
      obtain ⟨cs, h1, hlt, h2, -⟩ := ih (by rw [hdone]; exact Nat.mod_lt _ (by decide)) hsize
      rw [← hfile, List.append_assoc] at h1
      have hfail : failures ([⟨min s.size 4096, none⟩] ++ cs) = failures cs + 1 := by
        simp [failures]
      have hdel : delivered ([⟨min s.size 4096, none⟩] ++ cs) = delivered cs := by simp [delivered]
      refine ⟨_, h1, hlt, ?_, .inl (by omega)⟩
      rw [hfail, hdel]
      omega
    | full _ d h0 hr hlen hfile hdone hsize =>
      obtain ⟨cs, h1, hlt, h2, h3⟩ := ih (by rw [hdone]; exact Nat.mod_lt _ (by decide)) (by omega)
      rw [← hfile, List.append_assoc] at h1
      have hfail : failures ([⟨min s.size 4096, some d⟩] ++ cs) = failures cs := by
        simp [failures]
      have hdel : (delivered ([⟨min s.size 4096, some d⟩] ++ cs)).length =
          d.length + (delivered cs).length := by
        simp [delivered]
      refine ⟨_, h1, hlt, ?_, ?_⟩
      · rw [hfail, hdel]
        omega
      · rw [hfail]
        refine h3.imp_right ?_
        rintro ⟨cs', f', hd⟩
        rw [hsize] at hd
        exact ⟨_, _, .full h0 hr hlen hd⟩

theorem failures_le (cs : List Call) : failures cs ≤ cs.length := List.countP_le_length

/-- `_long_read` keeps its accounts exactly if no call fails, as long as the calls
before it have filled their chunks. -/
theorem longRead_accounts_iff (hread : Honest read) (file : σ) (tmp : Page) (offset : Nat)
    {size : Nat} (hsize : size < 2 ^ 32) :
    (∃ r, Ends (longReadStep (Djstub.recorded read) offset) (.enter (file, []) tmp size) r ∧
      Accounts offset size r.file.2 r) ↔ ∃ cs file', Delivers read file size cs file' := by
  constructor
  · rintro ⟨r, hr, hacc⟩
    obtain ⟨cs, h1, hlt, h2, h3⟩ := recorded_run hread hr (Nat.two_pow_pos 32) hsize
    simp only [LongRead.enter, List.nil_append, Nat.zero_add] at h1 h2
    subst h1
    refine h3.resolve_left fun hne => hne ?_
    -- with fewer than 2 ^ 32 failures the count is off
    have hcount := hacc.count
    have hcalls := hacc.calls
    have hle := failures_le r.file.2
    omega
  · rintro ⟨cs, file', hd⟩
    obtain ⟨r, hr, hcs, hacc⟩ := hd.accounts hsize tmp offset
    exact ⟨r, hr, by rw [hcs]; exact hacc⟩

end

theorem fileRead_honest (f : Bytes) : Honest (fileRead f) := by
  intro pos n d hd
  cases hd
  rw [slice_length]
  omega

def blankPage : Page := ⟨List.replicate 4096 0, List.length_replicate⟩

/-- A file that fails once and then delivers whatever it is asked for. -/
def flakyRead : Nat → Nat → Option Bytes × Nat
  | 0, _ => (none, 1)
  | k + 1, n => (some (List.replicate n 0xff), k + 1)

/-- Ten bytes are asked for and ten are returned, but eleven have come, the first
of them in front of the section. -/
theorem longRead_miscounts :
    Honest flakyRead ∧
      (∃ r, Ends (longReadStep (recorded flakyRead) 0x1000) (.enter (0, []) blankPage 10) r ∧
        r.done = 10 ∧ (delivered r.file.2).length = 11) ∧
      ¬ ∃ r, Ends (longReadStep (recorded flakyRead) 0x1000) (.enter (0, []) blankPage 10) r ∧
        Accounts 0x1000 10 r.file.2 r := by
  have hrun : (run (longReadStep (recorded flakyRead) 0x1000) 3 (.enter (0, []) blankPage 10)).map
      (fun r => (r.done, (delivered r.file.2).length)) = some (10, 11) := by decide +kernel
  obtain ⟨r, hr, hdata⟩ := Option.map_eq_some_iff.mp hrun
  obtain ⟨hdone, hlen⟩ := Prod.mk.inj hdata
  refine ⟨?_, ⟨r, ⟨3, hr⟩, hdone, hlen⟩, ?_⟩
  · intro k n d hd
    cases k with
    | zero => cases hd
    | succ k =>
      cases hd
      simp
  · rintro ⟨r', hr', hacc⟩
    have heq := Ends.unique hr' ⟨3, hr⟩
    subst heq
    have hcount := hacc.count
    omega

theorem longRead_accounts_file :
    ∃ r, Ends (longReadStep (recorded (fileRead [1, 2, 3])) 0x1000) (.enter (0, []) blankPage 3) r ∧
      Accounts 0x1000 3 r.file.2 r := by
  obtain ⟨cs, hcs, -⟩ := fileRead_delivers [1, 2, 3] 3 0
  have hsize : 3 < 2 ^ 32 := by decide
  exact (longRead_accounts_iff (fileRead_honest _) 0 blankPage 0x1000 hsize).mpr ⟨cs, _, hcs⟩

end Djstub
