import BinfmtSupport.ImportRehearsal
import BinfmtSupport.Orphans

/-!
A command line with and without --test. Where nothing that cannot be foreseen comes in
between, what a successful command does is what it demonstrates from the same two stores.
-/
namespace BinfmtSupport.Demonstration

open CText Kvhash Format Regstring Journal Stores Actions Loading Enabling Installing
open AllFormats CommandLine Records Rejection Replacement Steady Rehearsal
open TableRehearsal ImportRehearsal

def Rehearsable (env : Env) (s : Store) (o : Options) : Prop :=
  match o.mode, o.name with
  | some .install, name => Vacant env s (name.getD [])
  | some .import, given => ExpectedImport env s given
  | some .enable, some name => Foreseen env s name
  | some .enable, none => ForeseenAll env s
  | _, _ => True

section Commands
variable {env : Env} {s : Store} {m' : Memory} {opts : List Opt} {o : Options} {es : List Effect}

/-- An installation of a new name, or of a stored one that is not in the kernel. -/
theorem rehearse_install (htest : env.test = false) (hrel : Reliable env)
    (hparse : parse opts = .ok o) (hmode : o.mode = some .install)
    (hvacant : Vacant env s (o.name.getD []))
    (hrun : (installMode env (o.name.getD []) (formatArgs o)).run s Memory.fresh =
      ⟨.returned true, m', es⟩) :
    demonstrated ((installMode (trial env) (o.name.getD []) (formatArgs o)).run s
      Memory.fresh).memory = performed es s := by
  obtain ⟨name, hname⟩ : ∃ name, o.name.getD [] = name := ⟨_, rfl⟩
  rw [hname] at hvacant hrun ⊢
  have hres : isReserved name = false := hname ▸ (installable_of_parse hparse hmode).2
  obtain ⟨hdir, hctl⟩ := plain_of_unreserved hvacant.named hres
  cases hnew : binfmtNew (formatArgs o) with
  | error value =>
    simp only [installMode, hnew] at hrun
    cases hrun
  | ok made =>
    cases made with
    | error why =>
      simp only [installMode, hnew, run_warn_bind] at hrun
      exact absurd hrun (actInstall_null_ne_returned htest hrel
        (Or.inr ⟨hvacant.entry, hdir, hctl⟩) true)
    | ok b =>
      simp only [installMode, hnew] at hrun ⊢
      have hpackage : b.package = some (packageOf o) := by
        rw [(accepted_of_binfmtNew hnew).package, argument_formatArgs_package]
      have howner : ∀ old, visible s Memory.fresh.formats name = some old →
          old.package = b.package ∧ b.package.isSome = true := by
        intro old hold
        refine ⟨?_, by rw [hpackage]; rfl⟩
        obtain ⟨oldPackage, hq⟩ := package_of_record ((visible_empty s name).symm.trans hold)
        by_contra hne
        obtain ⟨m₁, hforeign, -⟩ := run_actInstall_foreign hrel hold hpackage hq
          (fun heq => hne (by rw [hq, hpackage, heq]))
        rw [hforeign] at hrun
        cases hrun
      obtain ⟨c, hc⟩ : ∃ c, (visible s Memory.fresh.formats name).getD b = c := ⟨_, rfl⟩
      have hmagic := magic_of_view (t := Memory.fresh.formats) (visible_empty s)
      have hcomp : Comparable s Memory.fresh.formats name c :=
        comparable_of_magic (hc ▸ magic_getD hmagic (magic_of_options hparse hmode hnew)) hmagic
      obtain ⟨-, -, n', htrial, hshow, -⟩ := rehearse_actInstall (n := Memory.fresh) htest hrel
        hdir hctl (fun _ => rfl) hvacant.entry hvacant.entry hvacant.loadable hvacant.intact
        hvacant.tmp (Batch.loads_of_accepted hnew) howner hc hcomp hrun
      rw [htrial]
      exact hshow

/-- The mode of a command line in both processes. -/
theorem rehearse_runMode (htest : env.test = false) (hrel : Reliable env)
    (hparse : parse opts = .ok o) (hmode : Orphans.Changing o) (hready : Rehearsable env s o)
    (hrun : (runMode env o).run s Memory.fresh = ⟨.returned true, m', es⟩) :
    demonstrated ((runMode (trial env) o).run s Memory.fresh).memory = performed es s := by
  rw [runMode] at hrun ⊢
  rcases hmode with hmode | hmode | hmode | hmode | hmode
  · simp only [Rehearsable, hmode] at hready hrun ⊢
    exact rehearse_install htest hrel hparse hmode hready hrun
  · simp only [hmode] at hrun ⊢
    exact rehearse_actRemove htest (o.name.getD []) (packageOf o) hrun
  · simp only [Rehearsable, hmode] at hready hrun ⊢
    exact rehearse_actImport htest hrel o.name hready hrun
  · simp only [hmode] at hrun ⊢
    cases hname : o.name with
    | some name =>
      simp only [Rehearsable, hmode, hname] at hready hrun ⊢
      exact rehearse_enableOne htest hrel hready hrun
    | none =>
      simp only [Rehearsable, hmode, hname] at hready hrun ⊢
      exact rehearse_enableAll htest hrel hready hrun
  · simp only [hmode] at hrun ⊢
    cases hname : o.name with
    | some name =>
      simp only [hname] at hrun ⊢
      obtain ⟨-, -, n', htrial, -, hshow⟩ :=
        rehearse_actDisableName (s := s) (n := Memory.fresh) htest rfl hrun
      change demonstrated ((actDisableName (trial env) name).run s Memory.fresh).memory = _
      rw [htrial]
      exact hshow
    | none =>
      simp only [hname] at hrun ⊢
      exact rehearse_disableAll htest hrun

/-- The end of main shows nothing. -/
theorem demonstrated_exitStatus (p : Act Bool) (s : Store) (m : Memory) :
    demonstrated ((exitStatus p).run s m).memory = demonstrated (p.run s m).memory := by
  have hend : ∀ worked, Prog.Leaves demonstrated
      (if worked = true then return () else quit .previousErrors : Act Unit) := by
    intro worked s m
    cases worked <;> rfl
  exact Prog.view_run_bind p hend s m

/-- Over every pair of stores, a command that succeeds does what it demonstrates from there,
unless the kernel, the module or a leftover file comes in between. -/
theorem demonstrated_eq_performed (env : Env) (htest : env.test = false) (hrel : Reliable env)
    (before after : List Opt) (o : Options) (hparse : parse (before ++ after) = .ok o)
    (hreal : o.test = false) (hmode : Orphans.Changing o) (s : Store)
    (hready : Rehearsable env s o)
    (hworks : ((CommandLine.main env (before ++ after)).run s Memory.fresh).outcome =
      .returned ()) :
    demonstrated ((CommandLine.main env (before ++ .test :: after)).run s Memory.fresh).memory =
      performed ((CommandLine.main env (before ++ after)).run s Memory.fresh).effects s := by
  have hmain : CommandLine.main env (before ++ after) = exitStatus (runMode env o) := by
    simp only [CommandLine.main, hparse, hreal, test_eq_self htest]
  have htrial : CommandLine.main env (before ++ .test :: after) =
      exitStatus (runMode (trial env) o) := by
    simp only [CommandLine.main, parse_test hparse]
    rfl
  rw [hmain] at hworks ⊢
  rw [htrial, demonstrated_exitStatus]
  rcases hend : (exitStatus (runMode env o)).run s Memory.fresh with ⟨outcome, m', es⟩
  rw [hend] at hworks
  obtain rfl : outcome = .returned () := hworks
  obtain ⟨worked, m₁, fs, gs, hrun, hlast, rfl⟩ := Prog.returned_of_run_bind hend
  cases worked with
  | true =>
    cases hlast
    rw [List.append_nil]
    exact rehearse_runMode htest hrel hparse hmode hready hrun
  | false => cases hlast

end Commands

section Example

open Orphans

/-- A first installation, with --test as the last option. -/
theorem demonstrated_install :
    demonstrated ((CommandLine.main plainEnv (installOptions ++ [.test])).run emptyStore
      Memory.fresh).memory =
    performed ((CommandLine.main plainEnv (installOptions ++ [])).run emptyStore
      Memory.fresh).effects emptyStore :=
  demonstrated_eq_performed plainEnv rfl plainEnv_reliable installOptions [] installParsed
    (by decide +kernel) rfl (Or.inl rfl) emptyStore
    ⟨by decide, by decide, by decide, fun h => absurd h (by decide), by decide +kernel⟩
    (by decide +kernel)

def installedContents : List Byte := text "pkg\nmagic\n0\nAB\n\n/usr/bin/prog\n\n\n\n"

example : performed ((CommandLine.main plainEnv installOptions).run emptyStore
    Memory.fresh).effects emptyStore = [.install installedContents,
      .enable (text "prog") (text ":prog:M:0:AB::/usr/bin/prog:\n")] := by decide +kernel

/-- The manual entry is left alone, and --test shows the record that would be installed
without it. -/
theorem manual_entry_demonstrated :
    Reliable plainEnv ∧ parse installOptions = .ok installParsed ∧
    ((CommandLine.main plainEnv installOptions).run manualStore Memory.fresh).outcome =
      .returned () ∧
    performed ((CommandLine.main plainEnv installOptions).run manualStore
      Memory.fresh).effects manualStore = [] ∧
    demonstrated ((CommandLine.main plainEnv (installOptions ++ [.test])).run manualStore
      Memory.fresh).memory = [.install installedContents] :=
  ⟨plainEnv_reliable, by decide +kernel, by decide +kernel, by decide +kernel, by decide +kernel⟩

end Example
end BinfmtSupport.Demonstration
