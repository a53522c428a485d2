import Djstub.Session

/-! `djlink`: a shared library is split into what is loaded and its debug info, and both
are linked behind a stub. The tools that do the splitting are parameters. -/

namespace Djstub

open Bytes Layout Simulation

/-! ## The script -/

/-- `readelf`, `objcopy` and `strip` as the script calls them. -/
structure Binutils where
  /-- `readelf -S` shows a section `.debug_info`. -/
  hasDebug : Bytes → Bool
  /-- `objcopy --only-keep-debug` -/
  onlyKeepDebug : Bytes → Bytes
  strip : Bytes → Bytes
  /-- `objcopy --add-gnu-debuglink` with the file of the debug info. -/
  addDebuglink : Bytes → Bytes → Bytes
  /-- What is cut out of `readelf -S`: where `.gnu_debuglink` is. -/
  linkOffs : Bytes → Option Int

section
variable {π : Type}

variable [DecidableEq π]

end

/-! ## What comes out of it -/

section
variable {π : Type} {rest : List (Opt π)} {stub so : π}

/-- Behind the options of the caller there is nothing that names a file to be read as the
template or to be written. -/
structure Trailing (dopt : List (Opt π)) : Prop where
  oname : ∀ name, lastOutput dopt name = name
  start : ∀ p, Opt.S p ∉ dopt

theorem Trailing.append {a b : List (Opt π)} (ha : Trailing a) (hb : Trailing b) :
    Trailing (a ++ b) where
  oname name := by rw [lastOutput_append, hb.oname, ha.oname]
  start p := by
    rw [List.mem_append, not_or]
    exact ⟨ha.start p, hb.start p⟩

variable {T : Option (Option Int)} {dopt : List (Opt π)} {d d' : Disk π} {m : Globals π}

variable [DecidableEq π] {σ : Type} (h : Host σ) {fuel : Nat} {oname : π} {t : Nat}
  {ovls : List (Nat × π)}
  {start c : Bytes} {cs : List Bytes} {tmp : Page} {ops : LdOps} {P : Program}

/-- What is linked: the library, or what the tools split it into. -/
def Binutils.linked (u : Binutils) (lib : Bytes) : Option π → List Bytes
  | none => [lib]
  | some _ => [u.addDebuglink (u.strip lib) (u.onlyKeepDebug lib), u.onlyKeepDebug lib]

end

/-! ## A link -/

end Djstub
