import Djstub.LowMemory
import Djstub.Preserve

/-! `main` of `ministub.c`: the environment, the choice between a loader that the host
provides and the builtin one, and the call of either. -/

namespace Djstub

open Bytes Layout Loop Simulation Stores

/-! ## The strings of the environment -/

/-- The bytes of a string are not the first of one, and none is zero. -/
theorem filter_starts {env pre v post : Bytes} (henv : env = pre ++ (v ++ 0 :: post)) (hne : v ≠ [])
    (h0 : 0 ∉ v) (hpre : pre = [] ∨ byteAt env (pre.length - 1) = 0) :
    (List.range' pre.length v.length).filter (fun i => Starts env i) = [pre.length] ∧
      ¬ Starts env (pre.length + v.length) ∧ cstring env pre.length = v := by
  have hbyte {k : Nat} (hk : k < v.length) : byteAt env (pre.length + k) ≠ 0 := by
    have hget : env[pre.length + k]? = some v[k] := by
      rw [henv, List.getElem?_append_right (Nat.le_add_right ..), Nat.add_sub_cancel_left,
        List.getElem?_append_left hk, List.getElem?_eq_getElem hk]
    rw [ne_eq, byteAt_eq_zero_iff hget]
    intro hz
    exact h0 (hz ▸ List.getElem_mem hk)
  have hlen : 0 < v.length := List.length_pos_iff.mpr hne
  obtain ⟨m, hm⟩ : ∃ m, v.length = m + 1 := ⟨v.length - 1, by omega⟩
  have hfirst : Starts env pre.length := by
    refine ⟨hbyte hlen, ?_⟩
    rcases hpre with rfl | h
    · exact .inl rfl
    · exact .inr h
  have hrest : (List.range' (pre.length + 1) m).filter (fun i => Starts env i) = [] := by
    rw [List.filter_eq_nil_iff]
    intro i hi hs
    obtain ⟨hi1, hi2⟩ := List.mem_range'_1.mp hi
    rcases (of_decide_eq_true hs).2 with h | h
    · omega
    · have hprev := hbyte (k := i - 1 - pre.length) (by omega)
      rw [show pre.length + (i - 1 - pre.length) = i - 1 by omega] at hprev
      exact hprev h
  refine ⟨?_, ?_, ?_⟩
  · rw [hm, List.range'_succ, List.filter_cons_of_pos (by simpa using hfirst), hrest]
  · have hget : env[pre.length + v.length]? = some 0 := by
      rw [henv, List.getElem?_append_right (Nat.le_add_right ..), Nat.add_sub_cancel_left,
        List.getElem?_append_right (Nat.le_refl _), Nat.sub_self]
      rfl
    exact fun h => h.1 ((byteAt_eq_zero_iff hget).mpr rfl)
  · have hv : ∀ x ∈ v, decide (x ≠ 0) = true := fun x hx =>
      decide_eq_true fun hz => h0 (hz ▸ hx)
    rw [cstring, henv, List.drop_left, List.takeWhile_append_of_pos hv,
      List.takeWhile_cons_of_neg (by simp), List.append_nil]

/-- The strings that start in the block are the variables. -/
theorem strings_from {vars : List Bytes} (hne : vars ≠ []) (hv : ∀ v ∈ vars, v ≠ [] ∧ 0 ∉ v)
    {env pre rest : Bytes} (henv : env = pre ++ (varBytes vars ++ rest))
    (hpre : pre = [] ∨ byteAt env (pre.length - 1) = 0) :
    ((List.range' pre.length ((varBytes vars).length - 1)).filter fun i => Starts env i).map
      (cstring env) = vars := by
  induction vars generalizing pre with
  | nil => exact absurd rfl hne
  | cons v vars ih =>
    obtain ⟨hv0, hzero⟩ := hv v (List.mem_cons_self ..)
    have henv1 : env = pre ++ (v ++ 0 :: (varBytes vars ++ rest)) := by
      rw [henv, varBytes_cons, List.append_assoc, List.cons_append]
    obtain ⟨hfilter, hend, hstr⟩ := filter_starts henv1 hv0 hzero hpre
    have hlen : (varBytes (v :: vars)).length - 1 = v.length + (varBytes vars).length := by
      rw [varBytes_cons, List.length_append, List.length_cons]
      omega
    rw [hlen, ← List.range'_append_1, List.filter_append, hfilter, List.map_append, List.map_singleton,
      hstr]
    cases vars with
    | nil => rfl
    | cons w ws =>
      have hpos : 0 < (varBytes (w :: ws)).length := by
        rw [varBytes_cons, List.length_append, List.length_cons]
        omega
      obtain ⟨m, hm⟩ : ∃ m, (varBytes (w :: ws)).length = m + 1 := ⟨_, (Nat.succ_pred hpos.ne').symm⟩
      have henv2 : env = (pre ++ v ++ [0]) ++ (varBytes (w :: ws) ++ rest) := by
        rw [henv1]
        simp
      have hlen2 : (pre ++ v ++ [0]).length = pre.length + v.length + 1 := by
        rw [List.length_append, List.length_append, List.length_singleton]
      have hprev : byteAt env ((pre ++ v ++ [0]).length - 1) = 0 := by
        have hget : env[(pre ++ v ++ [0]).length - 1]? = some 0 := by
          rw [henv2, List.getElem?_append_left (by omega), hlen2, Nat.add_sub_cancel]
          simp
        exact (byteAt_eq_zero_iff hget).mpr rfl
      have htail :=
        ih (List.cons_ne_nil w ws) (fun u hu => hv u (List.mem_cons_of_mem _ hu)) henv2 (.inr hprev)
      rw [hlen2, hm, Nat.add_sub_cancel] at htail
      rw [hm, List.range'_succ, List.filter_cons_of_neg (by simpa using hend), htail]
      rfl

section
variable {vars : List Bytes} (hne : vars ≠ []) (hv : ∀ v ∈ vars, v ≠ [] ∧ 0 ∉ v)
include hne hv

/-- The pointers of `envp` are those of the variables, in their order. -/
theorem strings_dosBlock (cnt path : Bytes) {p : Nat} (hp : p + 1 = (varBytes vars).length) :
    (starts (dosBlock vars cnt path) p).map (cstring (dosBlock vars cnt path)) = vars := by
  have h := @strings_from vars hne hv (dosBlock vars cnt path) [] _ rfl (.inl rfl)
  rwa [← hp, Nat.add_sub_cancel, List.length_nil, ← List.range_eq_range'] at h

end

/-- The file that the first `ELFEXEC=` of the environment names. -/
def elfexecOf (vars : List Bytes) : Option Bytes :=
  (vars.find? fun v => v.take 8 = elfexecName).map (·.drop 8)

theorem elfexecLoop_eq (env : Bytes) (is : List Nat) :
    elfexecLoop env (is.map .ptr ++ [.null]) = some (elfexecOf (is.map (cstring env))) := by
  induction is with
  | nil => rfl
  | cons p is ih =>
    rw [List.map_cons, List.cons_append, elfexecLoop, List.map_cons, elfexecOf, List.find?_cons]
    by_cases h : (cstring env p).take 8 = elfexecName
    · rw [if_pos h, decide_eq_true h]
      rfl
    · rw [if_neg h, decide_eq_false h, ih]
      rfl

theorem splitEnv_mono {env : Bytes} {n m : Nat} (hnm : n ≤ m) {r : Option (Nat × List Slot)}
    (h : splitEnv n env = some r) : splitEnv m env = some r := by
  unfold splitEnv at h ⊢
  cases hc : run (countStep env) n ⟨0, 0, false⟩ with
  | none =>
    rw [hc] at h
    cases h
  | some c =>
    rw [hc] at h
    rw [run_mono hnm hc]
    cases c with
    | none => exact h
    | some c =>
      dsimp only at h ⊢
      split at h
      next hz =>
        rw [if_pos hz]
        cases hf : run (fillStep env) n ⟨(newEnvp c.acc, 0), 0, false⟩ with
        | none =>
          rw [hf] at h
          cases h
        | some x =>
          rw [hf] at h
          rw [run_mono hnm hf]
          exact h
      next hz =>
        rw [if_neg hz]
        exact h

/-! ## ministub.c -/

/-- What the startup code of the C library provides: the block that `__dpmi_env` points
to, with `argv[0]` inside it, `getenv`, the addresses of `argv`, of `ext_nm` and of
what `malloc` returns for `envp`; the rest is as in `Process`. -/
structure Boot where
  argc : Nat
  argv : Nat
  argv0 : Nat
  env : Bytes
  envp : Nat
  extNm : Nat
  getenv : Bytes → Option Bytes
  psp : Nat
  ds : Nat
  esp : Nat
  stubinfo : Nat
  openFile : Bytes → Option (Nat × Bytes)

/-- What `fullstub` is called with: the strings of the environment stay in low memory,
`argv[0]` has been copied. -/
def Boot.process (b : Boot) (envp : List Slot) : Process :=
  { argc := b.argc
    argv0 := copyArgv0 b.env b.argv0
    env := b.env
    envp := some envp
    psp := b.psp
    ds := b.ds
    esp := b.esp
    stubinfo := b.stubinfo
    openFile := b.openFile }

/-- `"COMCOM_FULLSTUB"` -/
def comcomFullstub : Bytes :=
  [0x43, 0x4f, 0x4d, 0x43, 0x4f, 0x4d, 0x5f, 0x46, 0x55, 0x4c, 0x4c, 0x53, 0x54, 0x55, 0x42]

/-- `DJSTUB_API_VER | (MINISTUB_VER << 8)` -/
def stubVersion : Nat := 5 ||| 9 <<< 8

/-- What is left of `main` when it has ended: the program that `fullstub` has entered,
or the call of the extension, with `envp` and `argv[0]` as they are then. -/
inductive Launch where
  | jump (j : Jump)
  | call (sel off : Nat) (regs : Regs) (envp : List Slot) (argv0 : Bytes) (moved : Option Move)

section
variable {σ : Type} (h : Host σ) (b : Boot)

/-- What `DPMIQueryExtension` makes of the answer: `ah` is cleared only where `al` is zero. -/
def Regs.extension (r : Regs) : Nat × Nat × Nat :=
  if r.eax % 2 ^ 8 ≠ 0 then (r.eax, 0, 0)
  else (r.eax / 2 ^ 16 * 2 ^ 16, r.es % 2 ^ 16, r.edi % 2 ^ 16)

/-- `DPMIQueryExtension`: the result, and where the extension is entered. -/
def dpmiQueryExtension : Calls σ (Nat × Nat × Nat) := do
  let r ← Calls.of (h.int2f { eax := 0x168a, esi := b.extNm })
  pure r.extension

/-- `err`, `sel` and `off`, after the choice of the loader. -/
def Boot.query : Calls σ (Nat × Nat × Nat) :=
  if (b.getenv comcomFullstub).isSome then pure (1, 0, 0) else dpmiQueryExtension h b

/-- The registers that `enter_stub` loads. -/
def enterStub (envc psp fd : Nat) : Regs :=
  { eax := psp ||| stubVersion <<< 16
    ebx := envc
    ecx := b.argc
    edx := b.argv
    esi := b.envp
    edi := fd }

/-- The rest of `main` where `err` is set. -/
def builtinLoader (p : Process) (fuel : Nat) (tmp : Page) : Calls σ Launch := do
  let j ← fullstub h p fuel tmp
  pure (.jump j)

/-- The rest of `main` where the host has the extension. -/
def callExtension (sel off envc : Nat) (envp : List Slot) : Calls σ Launch :=
  let p := b.process envp
  match p.openFile (cstring p.argv0 0) with
  | none => failure
  | some (fd, _) => do
    let r ← dpmiInit h p 0
    match r with
    | none => failure
    | some (psp, move) => pure (.call sel off (enterStub b envc psp fd) envp p.argv0 move)

/-- `main`: no result where the process exits. -/
def Boot.main (fuel : Nat) (tmp : Page) : Calls σ Launch :=
  if b.argc = 0 then failure
  else
    match splitEnv fuel b.env with
    | some (some (envc, envp)) => do
      let q ← b.query h
      if q.1 ≠ 0 then builtinLoader h (b.process envp) fuel tmp
      else callExtension h b q.2.1 q.2.2 envc envp
    | _ => failure

end

/-! ## The start by DOS -/

theorem cstring_ended {v : Bytes} (h0 : 0 ∉ v) : cstring (v ++ [0]) 0 = v := by
  rw [cstring, List.drop_zero,
    List.takeWhile_append_of_pos fun c hc => by simpa using fun hz : c = 0 => h0 (hz ▸ hc)]
  simp

/-- DOS has started the program at `path` with these variables. -/
structure Boot.FromDos (b : Boot) (vars : List Bytes) (cnt path : Bytes) : Prop where
  argc : b.argc ≠ 0
  env : b.env = dosBlock vars cnt path
  argv0 : b.argv0 = (varBytes vars).length + 3
  filled : vars ≠ []
  strings : ∀ v ∈ vars, v ≠ [] ∧ 0 ∉ v
  count : cnt.length = 2
  path : 0 ∉ path

namespace Boot.FromDos

variable {b : Boot} {vars : List Bytes} {cnt path : Bytes} (hb : b.FromDos vars cnt path)
include hb

/-- From some fuel on `main` has a pointer to each variable, and with these and `argv[0]`
`fullstub` gets at the length of what DOS has put there. -/
theorem split : ∃ (N : Nat) (is : List Nat), is.map (cstring b.env) = vars ∧
    (∀ fuel, N ≤ fuel → splitEnv fuel b.env = some (some (vars.length, is.map .ptr ++ [.null]))) ∧
    envSize b.env (some (is.map .ptr ++ [.null])) (some (copyArgv0 b.env b.argv0)) =
      some (b.env.length % 2 ^ 16) := by
  obtain ⟨p, hlen, hp⟩ := dosBlock_firstPair hb.filled hb.strings cnt path
  obtain ⟨N, hsplit⟩ := splitEnv_eq hp
  have hstr := strings_dosBlock hb.filled hb.strings cnt path hlen
  have hcnt := congrArg List.length hstr
  rw [List.length_map] at hcnt
  rw [hcnt] at hsplit
  refine ⟨N, starts (dosBlock vars cnt path) p, ?_, fun fuel hfuel => ?_, ?_⟩
  · rw [hb.env, hstr]
  · rw [hb.env]
    exact splitEnv_mono hfuel hsplit
  · have hblock : (dosBlock vars cnt path).length = 3 + (p + 1) + (path.length + 1) := by
      simp only [dosBlock, List.length_append, List.length_singleton, hb.count]
      omega
    simp only [hb.env, hb.argv0, envSize,
      envLoop_starts hp (dosBlock_letter hb.filled hb.strings cnt path),
      strlen_copyArgv0 hb.count hb.path, hblock]

theorem copyArgv0_eq : copyArgv0 b.env b.argv0 = path ++ [0] := by
  have hdrop : b.env.drop b.argv0 = path ++ [0] := by
    have hcnt := hb.count
    rw [hb.env, hb.argv0, dosBlock, List.drop_append, List.drop_of_length_le (by omega),
      List.nil_append, Nat.add_sub_cancel_left]
    exact List.drop_left' (by simp [hcnt])
  rw [copyArgv0, hdrop]
  exact congrArg (· ++ [0]) (cstring_ended hb.path)

theorem copied : cstring (copyArgv0 b.env b.argv0) 0 = path := by
  rw [hb.copyArgv0_eq]
  exact cstring_ended hb.path

end Boot.FromDos

/-- Where the host has been asked for the extension, or not. -/
def Boot.asked {σ : Type} (h : Host σ) (b : Boot) (s : σ) : σ :=
  if (b.getenv comcomFullstub).isSome then s else (h.int2f { eax := 0x168a, esi := b.extNm } s).2

/-- The host's answer. -/
def Boot.answer {σ : Type} (h : Host σ) (b : Boot) (s : σ) : Regs :=
  (h.int2f { eax := 0x168a, esi := b.extNm } s).1

/-- `COMCOM_FULLSTUB` is not set, and the host knows the extension: apart from `ah` its
answer is zero. -/
def Boot.Extended {σ : Type} (h : Host σ) (b : Boot) (s : σ) : Prop :=
  b.getenv comcomFullstub = none ∧ (b.answer h s).eax % 2 ^ 8 = 0 ∧ (b.answer h s).eax / 2 ^ 16 = 0

theorem Regs.extension_ne_zero {r : Regs} :
    r.extension.1 ≠ 0 ↔ ¬ (r.eax % 2 ^ 8 = 0 ∧ r.eax / 2 ^ 16 = 0) := by
  unfold Regs.extension
  split
  next hal => exact ⟨fun _ h => hal h.1, fun _ => by omega⟩
  next hal => exact ⟨fun h0 h => h0 (Nat.mul_eq_zero.mpr (.inl h.2)), fun h => by omega⟩

section
variable {σ : Type} {h : Host σ} {b : Boot} {tmp : Page} {s s' : σ} {l : Launch}

theorem query_extended (hx : b.Extended h s) :
    b.query h s = some ((0, (b.answer h s).es % 2 ^ 16, (b.answer h s).edi % 2 ^ 16), b.asked h s) := by
  obtain ⟨hget, hal, hhigh⟩ := hx
  have hres : (b.answer h s).extension =
      (0, (b.answer h s).es % 2 ^ 16, (b.answer h s).edi % 2 ^ 16) := by
    rw [Regs.extension, if_neg (not_not.mpr hal), hhigh, Nat.zero_mul]
  rw [Boot.query, Boot.asked, hget, ← hres]
  rfl

theorem query_builtin (hx : ¬ b.Extended h s) : ∃ q, b.query h s = some (q, b.asked h s) ∧ q.1 ≠ 0 := by
  unfold Boot.query Boot.asked
  by_cases hget : (b.getenv comcomFullstub).isSome = true
  · rw [if_pos hget, if_pos hget]
    exact ⟨_, rfl, Nat.one_ne_zero⟩
  · rw [if_neg hget, if_neg hget]
    have hnone : b.getenv comcomFullstub = none := by simpa using hget
    exact ⟨_, rfl, Regs.extension_ne_zero.mpr fun h => hx ⟨hnone, h⟩⟩

/-- The only call of the host that the choice needs is the one for the extension. -/
theorem main_eq {fuel envc : Nat} {envp : List Slot} (hargc : b.argc ≠ 0)
    (hsplit : splitEnv fuel b.env = some (some (envc, envp))) :
    (b.Extended h s → b.main h fuel tmp s =
      callExtension h b ((b.answer h s).es % 2 ^ 16) ((b.answer h s).edi % 2 ^ 16) envc envp
        (b.asked h s)) ∧
    (¬ b.Extended h s → b.main h fuel tmp s =
      builtinLoader h (b.process envp) fuel tmp (b.asked h s)) := by
  have hbind {q : Nat × Nat × Nat} (hq : b.query h s = some (q, b.asked h s)) :
      b.main h fuel tmp s = (if q.1 ≠ 0 then builtinLoader h (b.process envp) fuel tmp
        else callExtension h b q.2.1 q.2.2 envc envp) (b.asked h s) := by
    rw [Boot.main, if_neg hargc, hsplit]
    exact (congrArg (Option.bind · _) hq).trans rfl
  constructor
  · intro hx
    rw [hbind (query_extended hx)]
    rfl
  · intro hx
    obtain ⟨q, hq, hne⟩ := query_builtin hx
    rw [hbind hq, if_pos hne]

end

/-! ## From the link to the start by DOS -/

section
variable {σ : Type} (h : Host σ) {b : Boot} {tmp : Page} {s : σ} {vars : List Bytes}
  {cnt path : Bytes}

/-- From some fuel on `main` asks for the extension, and then does what `x` does. -/
def Boot.Does (b : Boot) (tmp : Page) (s : σ) (x : Calls σ Jump) : Prop :=
  ∃ N, ∀ fuel, N ≤ fuel →
    b.main h fuel tmp s = (x >>= fun j => pure (Launch.jump j)) (b.asked h s)

variable (tmp) in
/-- With the builtin loader `main` does what `fullstub` does. -/
theorem Boot.FromDos.builtin (hb : b.FromDos vars cnt path) (hx : ¬ b.Extended h s) :
    ∃ envp, (b.process envp).elfexec = some (elfexecOf vars) ∧
      envSize b.env (some envp) (some (copyArgv0 b.env b.argv0)) = some (b.env.length % 2 ^ 16) ∧
      ∀ x, (b.process envp).Does h tmp x → b.Does h tmp s x := by
  obtain ⟨N, is, hstr, hsplit, hsize⟩ := hb.split
  refine ⟨is.map .ptr ++ [.null], ?_, hsize, fun x ⟨M, hM⟩ => ⟨max N M, fun fuel hfuel => ?_⟩⟩
  · rw [← hstr]
    exact elfexecLoop_eq b.env is
  · rw [(main_eq hb.argc (hsplit fuel (le_of_max_le_left hfuel))).2 hx, builtinLoader,
      hM fuel (le_of_max_le_right hfuel)]

/-- What the first `ELFEXEC` names is started as it is, whatever `argv[0]` is. -/
theorem elfexec_boots (hb : b.FromDos vars cnt path) (hx : ¬ b.Extended h s) {name f : Bytes} {fd : Nat}
    {P : Program} (hname : elfexecOf vars = some name) (hopen : b.openFile name = some (fd, f))
    (hP : LdOps.elf.load tmp f 0 0 = some P) :
    ∃ envp i q,
      envSize b.env (some envp) (some (copyArgv0 b.env b.argv0)) = some (b.env.length % 2 ^ 16) ∧
      b.Does h tmp s (enterProgram h (b.process envp) fd P i q) ∧ i.flags = 2 ^ 16 ∧
      i.extents = [(0, 0), (0, 0), (0, 0)] := by
  obtain ⟨envp, hexec, hsize, hdoes⟩ := hb.builtin h tmp hx
  rw [hname] at hexec
  have hfind : (b.process envp).Finds 0 fd f .elf { StubWalk.init with flags := 1 <<< 16 } :=
    ⟨some name, hexec, hopen, rfl⟩
  obtain ⟨q, hq⟩ := fullstub_of_finds h hb.argc hfind hP
  exact ⟨envp, _, q, hsize, hdoes _ hq, rfl, rfl⟩

/-- Where `argv[0]` has the contents `g` and nothing else is asked for, `main` enters `P`,
and `stubinfo` describes the overlays `vs`. -/
def Boots (tmp : Page) (P : Program) (vs : List Bytes) (g : Bytes) : Prop :=
  ∀ (b : Boot) (s : σ) (vars : List Bytes) (cnt path : Bytes) (fd : Nat),
    b.FromDos vars cnt path → ¬ b.Extended h s → elfexecOf vars = none →
    b.openFile path = some (fd, g) →
    ∃ envp i q,
      envSize b.env (some envp) (some (copyArgv0 b.env b.argv0)) = some (b.env.length % 2 ^ 16) ∧
      b.Does h tmp s (enterProgram h (b.process envp) fd P i q) ∧
      ∀ k < 3, ∃ e, i.extents[k]? = some e ∧ Holds g e (vs[k]?.getD [])

theorem Represents.boots {a : Archive} {n : Nat} {g : Bytes} (r : Represents a n g) {v : Overlay}
    (hv : a.overlays.head? = some v) (hlen : g.length < 2 ^ 31) {ops : LdOps} {P : Program}
    (hP : Denotes tmp ops v.data P) : Boots h tmp P (a.overlays.map Overlay.data) g := by
  intro b s vars cnt path fd hb hx hname hopen
  obtain ⟨envp, hexec, hsize, hdoes⟩ := hb.builtin h tmp hx
  have hp : (b.process envp).RunsFile fd g := ⟨hb.argc, by rw [hexec, hname], by
    rw [← hopen, ← hb.copied]
    rfl⟩
  obtain ⟨i, q, hq, hext⟩ := r.starts h hv hlen hP hp
  exact ⟨envp, i, q, hsize, hdoes _ hq, hext⟩

variable (tmp) in
/-- The host's extension is called for every run that gets so far, with the number of the
variables, the file that is open and the version, and it finds the low memory cut down
to the PSP and what the host has had moved. -/
theorem main_calls_extension {blocks : σ → Blocks} (dos : DosDocumented h blocks (b.psp >>> 4 % 2 ^ 16))
    (hpsp : b.psp < 2 ^ 20) (hb : b.FromDos vars cnt path) (hx : b.Extended h s) :
    ∃ (N : Nat) (is : List Nat), is.map (cstring b.env) = vars ∧ ∀ fuel, N ≤ fuel → ∀ l s',
      b.main h fuel tmp s = some (l, s') ↔ ∃ fd f psp move,
        b.openFile path = some (fd, f) ∧
        dpmiInit h (b.process (is.map .ptr ++ [.null])) 0 (b.asked h s) = some (some (psp, move), s') ∧
        l = .call ((b.answer h s).es % 2 ^ 16) ((b.answer h s).edi % 2 ^ 16)
          (enterStub b vars.length psp fd) (is.map .ptr ++ [.null]) (path ++ [0]) move ∧
        Shrinks (b.psp >>> 4 % 2 ^ 16) 0 (blocks (b.asked h s)) move (blocks s') := by
  obtain ⟨N, is, hstr, hsplit, -⟩ := hb.split
  refine ⟨N, is, hstr, fun fuel hfuel l s' => ?_⟩
  have hpath : cstring (b.process (is.map .ptr ++ [.null])).argv0 0 = path := hb.copied
  rw [(main_eq hb.argc (hsplit fuel hfuel)).1 hx]
  rw [callExtension, hpath]
  constructor
  · intro hrun
    cases hopen : b.openFile path with
    | none =>
      rw [show (b.process _).openFile path = none from hopen] at hrun
      cases hrun
    | some r =>
      rw [show (b.process _).openFile path = some r from hopen] at hrun
      obtain ⟨x, s1, hinit, hrun⟩ := Calls.bind_eq_some.mp hrun
      cases x with
      | none => cases hrun
      | some x =>
        cases Calls.pure_eq_some.mp hrun
        refine ⟨r.1, r.2, x.1, x.2, rfl, hinit, ?_, ?_⟩
        · rw [← hb.copyArgv0_eq]
          rfl
        · obtain ⟨hnone, -⟩ | ⟨psp, move, heq, hmove⟩ := dpmiInit_low dos hpsp (by decide) hinit
          · cases hnone
          · cases heq
            exact hmove
  · rintro ⟨fd, f, psp, move, hopen, hinit, rfl, -⟩
    rw [show (b.process _).openFile path = some (fd, f) from hopen]
    refine Calls.bind_eq_some.mpr ⟨_, _, hinit, ?_⟩
    rw [← hb.copyArgv0_eq]
    rfl

end

/-! ## A boot -/

/-- A program that has been started with one variable, and `COMCOM_FULLSTUB` if `full`. -/
def startBoot (full : Bool) (var f : Bytes) : Boot where
  argc := 1
  argv := 0x1000
  argv0 := var.length + 4
  env := dosBlock [var] [1, 0] [0x53]
  envp := 0x2000
  extNm := 0x3000
  getenv _ := if full then some [] else none
  psp := 0x12340
  ds := 0xf
  esp := 0x200000
  stubinfo := 0x5000
  openFile _ := some (5, f)

theorem startBoot_fromDos {full : Bool} {var f : Bytes} (hv : var ≠ [] ∧ 0 ∉ var) :
    (startBoot full var f).FromDos [var] [1, 0] [0x53] where
  argc := Nat.one_ne_zero
  env := rfl
  argv0 := by simp [startBoot, varBytes]
  filled := List.cons_ne_nil _ _
  strings := by simpa using hv
  count := rfl
  path := by decide

theorem startBoot_builtin {σ : Type} (h : Host σ) (s : σ) {var f : Bytes} :
    ¬ (startBoot true var f).Extended h s := fun hx => by cases hx.1

theorem elfexec_boots_exec : ∃ P envp i q,
    (startBoot true (elfexecName ++ [0x41]) smallElf).Does tableHost
    blankPage firstState
    (enterProgram tableHost
      ((startBoot true (elfexecName ++ [0x41]) smallElf).process envp) 5 P i q) := by
  obtain ⟨P, hP⟩ := smallElf_denotes
  have hb : (startBoot true (elfexecName ++ [0x41]) smallElf).FromDos [elfexecName ++ [0x41]]
      [1, 0] [0x53] :=
    startBoot_fromDos (by decide)
  have hname : elfexecOf [elfexecName ++ [0x41]] = some [0x41] := by decide
  obtain ⟨envp, i, q, -, hq, -⟩ :=
    elfexec_boots tableHost hb (startBoot_builtin tableHost firstState) hname
    rfl hP.loads
  exact ⟨P, envp, i, q, hq⟩

theorem main_calls_extension_pool : ∃ N, ∀ fuel, N ≤ fuel → ∃ l s' move,
    (startBoot false [0x41] []).main poolHost fuel blankPage ⟨0x2000, true⟩ = some (l, s') ∧
      Shrinks 0x1234 0 (PoolState.blocks ⟨0x2000, true⟩) move s'.blocks := by
  have hb : (startBoot false [0x41] []).FromDos [[0x41]] [1, 0] [0x53] := startBoot_fromDos (by decide)
  have hx : (startBoot false [0x41] []).Extended poolHost ⟨0x2000, true⟩ := ⟨rfl, by decide, by decide⟩
  obtain ⟨N, is, -, hmain⟩ :=
    main_calls_extension poolHost blankPage poolHost_documented (by decide) hb hx
  refine ⟨N, fun fuel hfuel => ?_⟩
  have hinit : dpmiInit poolHost ((startBoot false [0x41] []).process []) 0 ⟨0x2000, true⟩ =
      some (some (0xa7, some ⟨0x12440, 0xc0000, 0x200⟩), ⟨0x30, false⟩) := by decide +kernel
  obtain ⟨hnone, -⟩ | ⟨psp, move, heq, hmove⟩ := dpmiInit_low poolHost_documented
    (p := (startBoot false [0x41] []).process []) (by decide) (by decide) hinit
  · cases hnone
  · cases heq
    exact ⟨_, _, _, (hmain fuel hfuel _ _).mpr ⟨5, [], _, _, rfl, hinit, rfl, hmove⟩, hmove⟩

end Djstub
