import Djstub.Bytes
import Djstub.Loop

/-! The environment of the stub. `main` of `ministub.c` splits the block that DOS
hands over in two scans, one to count the strings and one to store where they
start; `fullstub` adds the length of the block up again from the pieces. -/

namespace Djstub

open Bytes Loop

/-! ## The scans of main -/

/-- The variables of a scan, and what it collects. -/
structure Scan (α : Type) where
  acc : α
  i : Nat
  letter : Bool
  deriving DecidableEq, Repr

/-- One iteration of a scan, where `found` is done at the first letter of a
string. The result `none` stands for an access outside of the block or the array. -/
def scanStep {α : Type} (env : Bytes) (found : α → Nat → Option α) (s : Scan α) :
    Step (Scan α) (Option (Scan α)) :=
  match env[s.i]? with
  | none => .stop none
  | some c =>
    if c = 0 then
      match env[s.i + 1]? with
      | none => .stop none
      | some c =>
        if c = 0 then .stop (some { s with letter := false })
        else .next { s with i := s.i + 1, letter := false }
    else if s.letter then .next { s with i := s.i + 1 }
    else
      match found s.acc s.i with
      | none => .stop none
      | some acc => .next { acc, i := s.i + 1, letter := true }

/-- `envc++` -/
def countStep (env : Bytes) : Scan Nat → Step (Scan Nat) (Option (Scan Nat)) :=
  scanStep env fun envc _ => some (envc + 1)

/-- A `char *` in `envp`: what `malloc` has left there, `NULL`, or a place in the
block. -/
inductive Slot where
  | garbage
  | null
  | ptr (i : Nat)
  deriving DecidableEq, Repr

/-- `envp[envc2++] = &env[i]` -/
def store (a : List Slot × Nat) (i : Nat) : Option (List Slot × Nat) :=
  if a.2 < a.1.length then some (a.1.set a.2 (.ptr i), a.2 + 1) else none

def fillStep (env : Bytes) :
    Scan (List Slot × Nat) → Step (Scan (List Slot × Nat)) (Option (Scan (List Slot × Nat))) :=
  scanStep env store

/-- The array before the second scan. -/
def newEnvp (envc : Nat) : List Slot := (List.replicate (envc + 1) Slot.garbage).set envc .null

/-- `envc` and `envp`; `none` when `fuel` iterations do not finish a scan. -/
def splitEnv (fuel : Nat) (env : Bytes) : Option (Option (Nat × List Slot)) :=
  match run (countStep env) fuel ⟨0, 0, false⟩ with
  | none => none
  | some none => some none
  | some (some s) =>
    let envc := s.acc
    if envc ≠ 0 then
      match run (fillStep env) fuel ⟨(newEnvp envc, 0), 0, false⟩ with
      | none => none
      | some none => some none
      | some (some s) => some (some (envc, s.acc.1))
    else some (some (envc, newEnvp envc))

/-! ## The length in fullstub -/

def strlen (mem : Bytes) (p : Nat) : Nat := ((mem.drop p).takeWhile (· ≠ 0)).length

/-- `main` copies `argv[0]` upwards. -/
def copyArgv0 (mem : Bytes) (p : Nat) : Bytes := (mem.drop p).takeWhile (· ≠ 0) ++ [0]

/-- The loop over `envp`; `none` where it would read something else than a pointer. -/
def envLoop (env : Bytes) : List Slot → Nat → Option Nat
  | .ptr p :: envp, i => envLoop env envp (i + (strlen env p + 1))
  | .null :: _, i => some i
  | _, _ => none

/-- `stubinfo.env_size`, an `unsigned short`. `argv0` is the memory that `argv[0]`
points to; a `NULL` is `none`. -/
def envSize (env : Bytes) (envp : Option (List Slot)) (argv0 : Option Bytes) : Option Nat :=
  let strings := match envp with
    | none => some 3
    | some envp => envLoop env envp 3
  match strings with
  | none => none
  | some i =>
    let i := match argv0 with
      | none => i
      | some argv0 => i + (strlen argv0 0 + 1)
    some (i % 2 ^ 16)

/-! ## Strings of a block -/

/-- The first two zeros in a row. -/
def FirstPair (env : Bytes) (p : Nat) : Prop :=
  env[p]? = some 0 ∧ env[p + 1]? = some 0 ∧ ∀ q < p, ¬ (env[q]? = some 0 ∧ env[q + 1]? = some 0)

/-- A longest run of bytes that are not zero starts at `i`. -/
def Starts (env : Bytes) (i : Nat) : Prop := byteAt env i ≠ 0 ∧ (i = 0 ∨ byteAt env (i - 1) = 0)

instance (env : Bytes) (i : Nat) : Decidable (Starts env i) := by unfold Starts; infer_instance

/-- The starts in front of `p`, in order. -/
def starts (env : Bytes) (p : Nat) : List Nat := (List.range p).filter fun i => Starts env i

theorem exists_firstPair {env : Bytes} (h : ∃ q : Nat, env[q]? = some 0 ∧ env[q + 1]? = some 0) :
    ∃ p, FirstPair env p :=
  ⟨Nat.find h, (Nat.find_spec h).1, (Nat.find_spec h).2, fun _ hq => Nat.find_min h hq⟩

theorem FirstPair.unique {env : Bytes} {p q : Nat} (hp : FirstPair env p) (hq : FirstPair env q) :
    p = q := by
  rcases Nat.lt_trichotomy p q with h | h | h
  · exact absurd ⟨hp.1, hp.2.1⟩ (hq.2.2 p h)
  · exact h
  · exact absurd ⟨hq.1, hq.2.1⟩ (hp.2.2 q h)

theorem byteAt_eq_zero_iff {env : Bytes} {i : Nat} {c : UInt8} (h : env[i]? = some c) :
    byteAt env i = 0 ↔ c = 0 := by
  rw [byteAt, List.getD_eq_getElem?_getD, h, Option.getD_some]
  exact UInt8.toNat_inj (b := 0)

section
variable {env : Bytes} {p : Nat} (hp : FirstPair env p)
include hp

theorem FirstPair.byte {i : Nat} (hi : i ≤ p) : ∃ c, env[i]? = some c := by
  have hlt := (List.getElem?_eq_some_iff.mp hp.1).1
  exact ⟨_, List.getElem?_eq_getElem (by omega)⟩

theorem FirstPair.byteAt_eq_zero : byteAt env p = 0 := (byteAt_eq_zero_iff hp.1).mpr rfl

/-- A zero in front of the pair is followed by a letter. -/
theorem FirstPair.starts_succ {i : Nat} (hi : i < p) (h0 : byteAt env i = 0) :
    Starts env (i + 1) := by
  obtain ⟨c, hc⟩ := hp.byte (i := i) (by omega)
  obtain ⟨c', hc'⟩ := hp.byte (i := i + 1) (by omega)
  rw [byteAt_eq_zero_iff hc] at h0
  refine ⟨fun h1 => ?_, .inr (by rw [Nat.add_sub_cancel, byteAt_eq_zero_iff hc]; exact h0)⟩
  rw [byteAt_eq_zero_iff hc'] at h1
  rw [h0] at hc
  rw [h1] at hc'
  exact hp.2.2 i hi ⟨hc, hc'⟩

end

/-! ## What the scans do -/

/-- The flag `letter` on arrival at `i`. -/
def letterAt (env : Bytes) (i : Nat) : Bool := decide (i ≠ 0 ∧ byteAt env (i - 1) ≠ 0)

theorem letterAt_succ (env : Bytes) (i : Nat) :
    letterAt env (i + 1) = decide (byteAt env i ≠ 0) := by
  simp [letterAt]

theorem starts_iff_letterAt {env : Bytes} {i : Nat} :
    Starts env i ↔ byteAt env i ≠ 0 ∧ letterAt env i = false := by
  rw [Starts, letterAt, decide_eq_false_iff_not, not_and_or, not_not, not_not]

section
variable {α : Type} {env : Bytes} {p : Nat} (hp : FirstPair env p) {found : α → Nat → Option α}
include hp

theorem scanStep_pair (acc : α) (letter : Bool) :
    scanStep env found ⟨acc, p, letter⟩ = .stop (some ⟨acc, p, false⟩) := by
  simp only [scanStep, hp.1, hp.2.1, if_true]

/-- In front of the pair the scan goes on, and calls `found` where a string starts. -/
theorem scanStep_before {i : Nat} (hi : i < p) {acc acc' : α}
    (hacc : if Starts env i then found acc i = some acc' else acc' = acc) :
    scanStep env found ⟨acc, i, letterAt env i⟩ = .next ⟨acc', i + 1, letterAt env (i + 1)⟩ := by
  obtain ⟨c, hc⟩ := hp.byte (i := i) (by omega)
  have h0 := byteAt_eq_zero_iff hc
  rw [letterAt_succ]
  by_cases hz : byteAt env i = 0
  · have hs : ¬ Starts env i := fun hs => hs.1 hz
    rw [if_neg hs] at hacc
    subst hacc
    obtain ⟨c', hc'⟩ := hp.byte (i := i + 1) (by omega)
    have h1 := (hp.starts_succ hi hz).1
    rw [ne_eq, byteAt_eq_zero_iff hc'] at h1
    simp only [scanStep, hc, h0.mp hz, if_true, hc', h1, if_false, hz, ne_eq, not_true_eq_false,
      decide_false]
  · have hne : ¬ c = 0 := fun h => hz (h0.mpr h)
    cases hl : letterAt env i with
    | true =>
      have hs : ¬ Starts env i := fun hs => by
        rw [(starts_iff_letterAt.mp hs).2] at hl
        cases hl
      rw [if_neg hs] at hacc
      subst hacc
      simp only [scanStep, hc, hne, if_false, if_true, hz, ne_eq, not_false_eq_true, decide_true]
    | false =>
      rw [if_pos (starts_iff_letterAt.mpr ⟨hz, hl⟩)] at hacc
      simp only [scanStep, hc, hne, if_false, Bool.false_eq_true, hacc, hz, ne_eq,
        not_false_eq_true, decide_true]

/-- A scan stops at the pair, with `found` done at every start. -/
theorem ends_scan_from {n i : Nat} (hn : i + n = p) {acc acc' : α}
    (hacc : ((List.range' i n).filter fun i => Starts env i).foldlM found acc = some acc') :
    Ends (scanStep env found) ⟨acc, i, letterAt env i⟩ (some ⟨acc', p, false⟩) := by
  induction n generalizing i acc with
  | zero =>
    cases hacc
    obtain rfl : i = p := by omega
    exact (ends_stop (scanStep_pair hp _ _)).mpr rfl
  | succ n ih =>
    rw [List.range'_succ] at hacc
    by_cases hs : Starts env i
    · rw [List.filter_cons_of_pos (by simpa using hs), List.foldlM_cons] at hacc
      obtain ⟨a, ha, hrest⟩ := Option.bind_eq_some_iff.mp hacc
      exact (ends_next (scanStep_before hp (by omega) (by rw [if_pos hs]; exact ha))).mpr
        (ih (by omega) hrest)
    · rw [List.filter_cons_of_neg (by simpa using hs)] at hacc
      exact (ends_next (scanStep_before hp (by omega) (by rw [if_neg hs]))).mpr
        (ih (by omega) hacc)

theorem ends_scan {acc acc' : α} (hacc : (starts env p).foldlM found acc = some acc') :
    Ends (scanStep env found) ⟨acc, 0, false⟩ (some ⟨acc', p, false⟩) := by
  rw [starts, List.range_eq_range'] at hacc
  exact ends_scan_from hp (Nat.zero_add p) hacc

end

theorem foldlM_count (is : List Nat) (envc : Nat) :
    is.foldlM (fun envc _ => some (envc + 1)) envc = some (envc + is.length) := by
  induction is generalizing envc with
  | nil => rfl
  | cons i is ih =>
    rw [List.foldlM_cons, Option.bind_eq_bind, Option.bind_some, ih, List.length_cons]
    congr 1
    omega

/-- Each start goes into the next slot that has not been written. -/
theorem foldlM_store (is : List Nat) (pre post : List Slot) :
    is.foldlM store (pre ++ List.replicate is.length .garbage ++ post, pre.length) =
      some (pre ++ is.map .ptr ++ post, pre.length + is.length) := by
  induction is generalizing pre with
  | nil => simp
  | cons i is ih =>
    have hstore : store (pre ++ List.replicate (i :: is).length .garbage ++ post, pre.length) i =
        some ((pre ++ [.ptr i]) ++ List.replicate is.length .garbage ++ post,
          (pre ++ [Slot.ptr i]).length) := by
      simp [store, List.replicate_succ]
    rw [List.foldlM_cons, hstore, Option.bind_eq_bind, Option.bind_some, ih]
    simp
    omega

theorem newEnvp_eq (envc : Nat) : newEnvp envc = List.replicate envc .garbage ++ [.null] := by
  rw [newEnvp, List.replicate_succ', List.set_append_right _ _ (by simp)]
  simp

section
variable {env : Bytes} {p : Nat} (hp : FirstPair env p)
include hp

theorem ends_count :
    Ends (countStep env) ⟨0, 0, false⟩ (some ⟨(starts env p).length, p, false⟩) :=
  ends_scan hp (by rw [foldlM_count, Nat.zero_add])

theorem ends_fill :
    Ends (fillStep env) ⟨(newEnvp (starts env p).length, 0), 0, false⟩
      (some ⟨((starts env p).map .ptr ++ [.null], (starts env p).length), p, false⟩) := by
  refine ends_scan hp ?_
  have hstore := foldlM_store (starts env p) [] [.null]
  rw [List.nil_append, List.nil_append, List.length_nil, Nat.zero_add] at hstore
  rw [newEnvp_eq, hstore]

theorem splitEnv_eq : ∃ fuel, splitEnv fuel env =
    some (some ((starts env p).length, (starts env p).map .ptr ++ [.null])) := by
  obtain ⟨n, hn⟩ := ends_count hp
  obtain ⟨m, hm⟩ := ends_fill hp
  refine ⟨max n m, ?_⟩
  rw [splitEnv, run_mono (Nat.le_max_left n m) hn]
  dsimp only
  split
  · rw [run_mono (Nat.le_max_right n m) hm]
  · next h0 =>
    have hnil := List.length_eq_zero_iff.mp (not_not.mp h0)
    rw [hnil]
    rfl

end

/-! ## The length of a block -/

theorem strlen_of_zero {mem : Bytes} {i : Nat} (h : byteAt mem i = 0) : strlen mem i = 0 := by
  rw [strlen, List.length_eq_zero_iff, List.takeWhile_eq_nil_iff]
  intro hlt
  have hc := List.getElem?_eq_getElem (l := mem.drop i) hlt
  rw [List.getElem?_drop, Nat.add_zero] at hc
  simpa using (byteAt_eq_zero_iff hc).mp h

theorem strlen_of_ne {mem : Bytes} {i : Nat} (h : byteAt mem i ≠ 0) :
    strlen mem i = strlen mem (i + 1) + 1 := by
  have hlt : i < mem.length := by
    by_contra hge
    rw [byteAt, List.getD_eq_default _ _ (by omega)] at h
    exact h rfl
  have hc : mem[i] ≠ 0 := fun h0 =>
    h ((byteAt_eq_zero_iff (List.getElem?_eq_getElem hlt)).mpr h0)
  rw [strlen, List.drop_eq_getElem_cons hlt, List.takeWhile_cons_of_pos (by simpa using hc),
    List.length_cons, strlen]

/-- From `i` up to the pair: the strings that start there, and what is left of the
one that has started before, with their ends. -/
theorem sum_strings {env : Bytes} {p : Nat} (hp : FirstPair env p) {n i : Nat} (hn : i + n = p) :
    (((List.range' i n).filter fun i => Starts env i).map fun i => strlen env i + 1).sum +
      (if Starts env i then 0 else strlen env i + 1) = n + 1 := by
  induction n generalizing i with
  | zero =>
    obtain rfl : i = p := by omega
    have h0 := hp.byteAt_eq_zero
    rw [if_neg (fun hs => hs.1 h0), strlen_of_zero h0]
    rfl
  | succ n ih =>
    have hrest := ih (i := i + 1) (by omega)
    rw [List.range'_succ]
    by_cases h0 : byteAt env i = 0
    · have hs : ¬ Starts env i := fun hs => hs.1 h0
      rw [if_pos (hp.starts_succ (by omega) h0)] at hrest
      rw [List.filter_cons_of_neg (by simpa using hs), if_neg hs, strlen_of_zero h0]
      omega
    · have hnext : ¬ Starts env (i + 1) := by
        rw [starts_iff_letterAt, letterAt_succ]
        simp [h0]
      have hlen := strlen_of_ne h0
      rw [if_neg hnext] at hrest
      by_cases hs : Starts env i
      · rw [List.filter_cons_of_pos (by simpa using hs), if_pos hs, List.map_cons, List.sum_cons]
        omega
      · rw [List.filter_cons_of_neg (by simpa using hs), if_neg hs]
        omega

theorem envLoop_eq (env : Bytes) (is : List Nat) (i : Nat) :
    envLoop env (is.map .ptr ++ [.null]) i = some (i + (is.map fun p => strlen env p + 1).sum) := by
  induction is generalizing i with
  | nil => rfl
  | cons p is ih =>
    rw [List.map_cons, List.cons_append, envLoop, ih, List.map_cons, List.sum_cons]
    congr 1
    omega

/-- The strings of a block that starts with a letter, up to the pair. -/
theorem envLoop_starts {env : Bytes} {p : Nat} (hp : FirstPair env p) (h0 : byteAt env 0 ≠ 0) :
    envLoop env ((starts env p).map .ptr ++ [.null]) 3 = some (3 + (p + 1)) := by
  have hsum := sum_strings hp (Nat.zero_add p)
  rw [if_pos ⟨h0, .inl rfl⟩, Nat.add_zero, ← List.range_eq_range'] at hsum
  rw [envLoop_eq, starts, hsum]

/-! ## Blocks of DOS -/

/-- The variables, each with its end. -/
def varBytes (vars : List Bytes) : Bytes := vars.flatMap (· ++ [0])

/-- The variables, an end, a count of two bytes and the path of the program. -/
def dosBlock (vars : List Bytes) (cnt path : Bytes) : Bytes :=
  varBytes vars ++ ([0] ++ cnt ++ (path ++ [0]))

theorem varBytes_cons (v : Bytes) (vars : List Bytes) :
    varBytes (v :: vars) = v ++ 0 :: varBytes vars := by
  simp [varBytes]

/-- No two zeros stand next to each other. -/
theorem varBytes_no_pair {vars : List Bytes} (hv : ∀ v ∈ vars, v ≠ [] ∧ 0 ∉ v) (q : Nat) :
    ¬ ((varBytes vars)[q]? = some 0 ∧ (varBytes vars)[q + 1]? = some 0) := by
  induction vars generalizing q with
  | nil => simp [varBytes]
  | cons v vars ih =>
    rintro ⟨h0, h1⟩
    rw [varBytes_cons] at h0 h1
    have hzero := (hv v List.mem_cons_self).2
    have hvars : ∀ v ∈ vars, v ≠ [] ∧ 0 ∉ v := fun w hw => hv w (List.mem_cons_of_mem _ hw)
    by_cases hq : q < v.length
    · rw [List.getElem?_append_left hq] at h0
      exact hzero (List.mem_of_getElem? h0)
    · obtain ⟨k, rfl⟩ : ∃ k, q = v.length + k := ⟨q - v.length, by omega⟩
      rw [List.getElem?_append_right (by omega)] at h0 h1
      have hk0 : v.length + k - v.length = k := by omega
      have hk1 : v.length + k + 1 - v.length = k + 1 := by omega
      rw [hk0] at h0
      rw [hk1, List.getElem?_cons_succ] at h1
      cases k with
      | succ k =>
        rw [List.getElem?_cons_succ] at h0
        exact ih hvars k ⟨h0, h1⟩
      | zero =>
        -- the next variable starts with a letter
        cases vars with
        | nil => cases h1
        | cons w vars =>
          obtain ⟨hne, hzero'⟩ := hvars w List.mem_cons_self
          rw [varBytes_cons, List.getElem?_append_left (List.length_pos_iff.mpr hne)] at h1
          exact hzero' (List.mem_of_getElem? h1)

theorem varBytes_getLast {vars : List Bytes} (hne : vars ≠ []) :
    ∃ b : Bytes, varBytes vars = b ++ [0] := by
  obtain ⟨vars', v, rfl⟩ : ∃ vars' v, vars = vars' ++ [v] := by
    rcases List.eq_nil_or_concat vars with h | ⟨vars', v, h⟩
    · exact absurd h hne
    · exact ⟨vars', v, by rw [h, List.concat_eq_append]⟩
  exact ⟨varBytes vars' ++ v, by simp [varBytes]⟩

section
variable {vars : List Bytes} (hne : vars ≠ []) (hv : ∀ v ∈ vars, v ≠ [] ∧ 0 ∉ v) (cnt path : Bytes)
include hne hv

/-- The pair is the end of the last variable and the end behind it. -/
theorem dosBlock_firstPair :
    ∃ p, p + 1 = (varBytes vars).length ∧ FirstPair (dosBlock vars cnt path) p := by
  obtain ⟨b, hb⟩ := varBytes_getLast hne
  have hlen : b.length + 1 = (varBytes vars).length := by rw [hb]; simp
  refine ⟨b.length, hlen, ?_, ?_, ?_⟩
  · rw [dosBlock, List.getElem?_append_left (by omega), hb]
    simp
  · rw [dosBlock, List.getElem?_append_right (by omega), hlen, Nat.sub_self]
    rfl
  · intro q hq hpair
    refine varBytes_no_pair hv q ?_
    rwa [dosBlock, List.getElem?_append_left (by omega), List.getElem?_append_left (by omega)]
      at hpair

theorem dosBlock_letter : byteAt (dosBlock vars cnt path) 0 ≠ 0 := by
  cases vars with
  | nil => exact absurd rfl hne
  | cons v vars =>
    obtain ⟨hv0, hzero⟩ := hv v List.mem_cons_self
    cases v with
    | nil => exact absurd rfl hv0
    | cons c v =>
      have hc : (dosBlock ((c :: v) :: vars) cnt path)[0]? = some c := by
        rw [dosBlock, varBytes_cons]
        rfl
      rw [ne_eq, byteAt_eq_zero_iff hc]
      rintro rfl
      exact hzero List.mem_cons_self

end

/-- The copy of the path is as long as the path. -/
theorem strlen_copyArgv0 {vars : List Bytes} {cnt path : Bytes} (hcnt : cnt.length = 2)
    (hpath : 0 ∉ path) :
    strlen (copyArgv0 (dosBlock vars cnt path) ((varBytes vars).length + 3)) 0 = path.length := by
  have hdrop : (dosBlock vars cnt path).drop ((varBytes vars).length + 3) = path ++ [0] := by
    rw [dosBlock, List.drop_append, List.drop_of_length_le (by omega), List.nil_append,
      Nat.add_sub_cancel_left]
    exact List.drop_left' (by simp [hcnt])
  have htake : (path ++ [0]).takeWhile (· ≠ 0) = path := by
    have hall : path.takeWhile (· ≠ 0) = path :=
      List.takeWhile_eq_self_iff.mpr fun c hc => by
        simpa using fun h0 : c = 0 => hpath (h0 ▸ hc)
    rw [List.takeWhile_append, hall, if_pos rfl]
    simp
  rw [copyArgv0, hdrop, htake, strlen, List.drop_zero, htake]

/-- Both scans stop at the first pair of zeros, the second one fills the slots that
the first one has counted, and the length that `fullstub` adds up is that of the
block. -/
theorem environ_split_size :
    (∀ env : Bytes, (∃ q : Nat, env[q]? = some 0 ∧ env[q + 1]? = some 0) →
      ∃ p, FirstPair env p ∧
        Ends (countStep env) ⟨0, 0, false⟩ (some ⟨(starts env p).length, p, false⟩) ∧
        Ends (fillStep env) ⟨(newEnvp (starts env p).length, 0), 0, false⟩
          (some ⟨((starts env p).map .ptr ++ [.null], (starts env p).length), p, false⟩) ∧
        ∃ fuel, splitEnv fuel env =
          some (some ((starts env p).length, (starts env p).map .ptr ++ [.null]))) ∧
    ∀ (vars : List Bytes) (cnt path : Bytes), vars ≠ [] → (∀ v ∈ vars, v ≠ [] ∧ 0 ∉ v) →
      cnt.length = 2 → 0 ∉ path →
      ∃ fuel envc envp, splitEnv fuel (dosBlock vars cnt path) = some (some (envc, envp)) ∧
        envSize (dosBlock vars cnt path) (some envp)
            (some (copyArgv0 (dosBlock vars cnt path) ((varBytes vars).length + 3))) =
          some ((dosBlock vars cnt path).length % 2 ^ 16) := by
  constructor
  · intro env hpair
    obtain ⟨p, hp⟩ := exists_firstPair hpair
    exact ⟨p, hp, ends_count hp, ends_fill hp, splitEnv_eq hp⟩
  · intro vars cnt path hne hv hcnt hpath
    obtain ⟨p, hlen, hp⟩ := dosBlock_firstPair hne hv cnt path
    obtain ⟨fuel, hsplit⟩ := splitEnv_eq hp
    refine ⟨fuel, _, _, hsplit, ?_⟩
    have hblock : (dosBlock vars cnt path).length = 3 + (p + 1) + (path.length + 1) := by
      simp only [dosBlock, List.length_append, List.length_singleton]
      omega
    simp only [envSize, envLoop_starts hp (dosBlock_letter hne hv cnt path),
      strlen_copyArgv0 hcnt hpath, hblock]

/-- A zero in front of two strings, and a block of two variables. -/
theorem environ_split_size_two :
    Ends (countStep [0, 0x41, 0x42, 0, 0x43, 0, 0]) ⟨0, 0, false⟩ (some ⟨2, 5, false⟩) ∧
    ∃ fuel envc envp,
      splitEnv fuel (dosBlock [[0x41], [0x42, 0x43]] [1, 0] [0x44]) = some (some (envc, envp)) ∧
      envSize (dosBlock [[0x41], [0x42, 0x43]] [1, 0] [0x44]) (some envp)
        (some (copyArgv0 (dosBlock [[0x41], [0x42, 0x43]] [1, 0] [0x44]) 8)) = some 10 := by
  have hpair : FirstPair [0, 0x41, 0x42, 0, 0x43, 0, 0] 5 := ⟨rfl, rfl, by decide⟩
  constructor
  · obtain ⟨p, hp, hcount, -⟩ := environ_split_size.1 _ ⟨5, hpair.1, hpair.2.1⟩
    rw [hp.unique hpair] at hcount
    exact hcount
  · exact environ_split_size.2 [[0x41], [0x42, 0x43]] [1, 0] [0x44] (by decide) (by decide) rfl
      (by decide)

/-- A zero in front of the first string counts for nothing. -/
example : splitEnv 7 [0, 0x41, 0x42, 0, 0x43, 0, 0] = some (some (2, [.ptr 1, .ptr 4, .null])) := by
  decide

end Djstub
