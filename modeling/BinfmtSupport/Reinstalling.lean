import BinfmtSupport.Undoing
import BinfmtSupport.TableRehearsal
import BinfmtSupport.Batch
import BinfmtSupport.Sweeping

/-!
Installing once more. An installation that replaces a format makes the line for the kernel from
the record that was stored before. The same installation again drops the entry and makes it
from the new record, as the whole database asks for; from then on it changes nothing.
-/
namespace BinfmtSupport.Reinstalling

open CText Kvhash Format Regstring Journal Stores Actions Loading Enabling Installing
open Records AllFormats Footprint Isolation Replacement Steady Rejection TableRehearsal Batch
open Sweeping Undoing

structure Placed (u : Store) (name : Text) (b : Binfmt) : Prop where
  file : u.file name = some b.contents
  tmp : u.file (tmpName name) = none

def asked (env : Env) (r : Registration) : List Entry :=
  ((entryOf (decodeLine r.regstring)).filter env.accepts).toList

section Kernel
variable {env : Env} {s u : Store} {name : Text} {b : Binfmt} {r : Registration}

theorem visible_of_files (h : ∀ key, u.file key = s.file key) (key : Text) :
    visible u ∅ key = visible s ∅ key := by
  rw [visible_empty, visible_empty, record_congr (h key)]

theorem lineOf_of_files (h : ∀ key, u.file key = s.file key) :
    LineOf env u name r ↔ LineOf env s name r := by
  simp only [LineOf, record_congr (h name), needsDetector_congr name _ (visible_of_files h)]

theorem exists_lineOf (hrecord : u.record name = some b) : ∃ r, LineOf env u name r := by
  by_cases hneeds : NeedsDetector u ∅ name b
  · exact ⟨_, b, true, hrecord, by simp [hneeds], rfl⟩
  · exact ⟨_, b, false, hrecord, by simp [hneeds], rfl⟩

/-- Up to the rename the kernel only loses what it had under the name. -/
theorem kernel_replay_placing (hdir : isDirectoryName name = false)
    (hctl : isControlName name = false) (hreg : u.kernel.hasRegister = true) :
    (replay (placing u name b) u).kernel.entries =
        u.kernel.entries.filter (fun e => e.name ≠ name) ∧
      (replay (placing u name b) u).kernel.hasRegister = true := by
  have hfiles : ∀ v : Store, (replay (moving u name b) v).kernel = v.kernel :=
    fun v => kernel_replay_of_files _ v (fun e he => files_of_mem_moving he)
  rw [placing, replay_append, hfiles, dropping]
  split
  · exact ⟨rfl, hreg⟩
  · rename_i hex
    rw [procExists_eq_hasEntry hreg hdir hctl, Bool.not_eq_true, hasEntry_eq_false_iff] at hex
    refine ⟨?_, hreg⟩
    rw [replay_nil, eq_comm, List.filter_eq_self]
    intro e he
    simpa using hex e he

/-- Enabling a name that the kernel does not have adds the entry of its line. -/
theorem entries_replay_enabling (htest : env.test = false) (hrel : Reliable env)
    (hdir : isDirectoryName name = false) (hctl : isControlName name = false)
    (hcolon : colon ∉ name) (hreg : u.kernel.hasRegister = true)
    (hfree : u.kernel.hasEntry name = false) (hr : r.name = name) :
    (replay (enabling env u name r).2 u).kernel.entries = u.kernel.entries ++ asked env r := by
  have hloads := loads_of_hasRegister htest hrel hreg
  have hsame := entries_replay_of_setup _ u (setup_isSetup htest u)
  have hnone : (replay (setup env u) u).kernel.procExists name = false := by
    rw [procExists_eq_hasEntry (hasRegister_setup htest hloads) hdir hctl, Kernel.hasEntry, hsame]
    exact hfree
  rw [enabling, if_pos ⟨hloads, hnone⟩, asked, accepted]
  cases hentry : entryOf (decodeLine r.regstring) with
  | none =>
    rw [Option.filter_none, Option.toList_none, List.append_nil]
    exact hsame
  | some e =>
    have hname : e.name = name := (name_of_colonless hentry (hr ▸ hcolon)).trans hr
    simp only [hname, hnone, Bool.not_false, Bool.true_and]
    cases htakes : env.accepts e with
    | true =>
      rw [Option.filter_some_pos htakes, Option.toList_some, if_pos rfl, replay_append]
      change (replay (setup env u) u).kernel.entries ++ [e] = _
      rw [hsame]
    | false =>
      rw [Option.filter_some_neg (by simp [htakes]), Option.toList_none, List.append_nil,
        if_neg Bool.false_ne_true]
      exact hsame

end Kernel

section Installations
variable {env : Env} {s u : Store} {name package : Text} {args : Arguments} {b : Binfmt}

/-- The record of the same package may be replaced, and nobody has used the name otherwise. -/
structure Ours (s : Store) (name : Text) (b : Binfmt) : Prop where
  owner : ∀ old, s.record name = some old → old.package = b.package ∧ b.package.isSome = true
  manual : ¬ Manual s name
  register : s.kernel.hasRegister = true

/-- One installation: it stores the record, and the kernel gets the line of the record that was
stored before, if there was one. -/
theorem installed_spec (htest : env.test = false) (hrel : Reliable env) (hname : Nameable name)
    (hcolon : colon ∉ name) (hnew : binfmtNew args = .ok (.ok b)) (hours : Ours s name b)
    {c : Binfmt} (hc : (s.record name).getD b = c) {d : Bool}
    (hd : d = true ↔ NeedsDetector (withoutTmp s name) ∅ name c)
    (hmagic : c.magic.isSome = true) :
    (∀ key, (installed env name b s).file key = if key = name then some b.contents
      else if key = tmpName name then none else s.file key) ∧
    (installed env name b s).kernel.hasRegister = true ∧
    (installed env name b s).kernel.entries = s.kernel.entries.filter (fun e => e.name ≠ name) ++
      asked env (registrationOf name c (chooseInterpreter env c d)) := by
  obtain ⟨hdir, hctl⟩ := plain_of_nameable hname
  have hcomp : Comparable (withoutTmp s name) Memory.fresh.formats name c :=
    comparable_of_magic hmagic (magic_of_view (visible_empty _))
  have howner : ∀ old, visible s Memory.fresh.formats name = some old →
      old.package = b.package ∧ b.package.isSome = true :=
    fun old hold => hours.owner old ((visible_empty s name).symm.trans hold)
  have hold : (visible s Memory.fresh.formats name).getD b = c := by
    rw [show visible s Memory.fresh.formats name = s.record name from visible_empty s name, hc]
  obtain ⟨m', hrun⟩ : ∃ m', (actInstall env name (some b)).run s Memory.fresh =
      ⟨.returned (enabling env (replay (placing s name b) s) name
          (registrationOf name c (chooseInterpreter env c d))).1, m',
        placing s name b ++ (enabling env (replay (placing s name b) s) name
          (registrationOf name c (chooseInterpreter env c d))).2⟩ := by
    obtain ⟨m', hrun, -⟩ := run_actInstall_line htest hrel hdir hctl (loads_of_accepted hnew)
      howner hours.manual hold hcomp hd
    exact ⟨m', hrun⟩
  obtain ⟨hentries, hreg⟩ := kernel_replay_placing (b := b) hdir hctl hours.register
  have hfree : (replay (placing s name b) s).kernel.hasEntry name = false := by
    rw [hasEntry_eq_false_iff, hentries]
    intro e he
    simpa using (List.mem_filter.mp he).2
  have hloads := loads_of_hasRegister htest hrel hreg
  generalize hline : registrationOf name c (chooseInterpreter env c d) = line at hrun ⊢
  have hlineName : line.name = name := by rw [← hline, registrationOf]
  have hadm := admindir_replay_of_noFiles _ (replay (placing s name b) s)
    (files_of_enabling htest (replay (placing s name b) s) name line)
  have hstate : installed env name b s = replay (enabling env (replay (placing s name b) s) name
      line).2 (replay (placing s name b) s) := by
    rw [installed, hrun, Ran.state, replay_append]
  rw [hstate]
  refine ⟨fun key => ?_, (frame_enabling htest hloads hlineName hcolon).1, ?_⟩
  · rw [← file_replay_placing hdir hctl key, Store.file, hadm, ← Store.file]
  · rw [entries_replay_enabling htest hrel hdir hctl hcolon hreg hfree hlineName, hentries]

/-- A new entry of the name is dropped by the next installation. -/
theorem filter_append_asked {r : Registration} (hr : r.name = name) (hcolon : colon ∉ name)
    (entries : List Entry) : (entries.filter (fun e => e.name ≠ name) ++ asked env r).filter
      (fun e => e.name ≠ name) = entries.filter (fun e => e.name ≠ name) := by
  have hnone : (asked env r).filter (fun e => e.name ≠ name) = [] := by
    rw [List.filter_eq_nil_iff]
    intro e he
    rw [asked, Option.mem_toList, Option.filter_eq_some_iff] at he
    have hname : e.name = name := (name_of_colonless he.1 (hr ▸ hcolon)).trans hr
    simp [hname]
  rw [List.filter_append, hnone, List.append_nil, List.filter_filter]
  simp

/-- Where the record is stored already, an installation makes the entry that a restart would
make, and leaves the database as it is. -/
theorem installed_again (htest : env.test = false) (hrel : Reliable env) (hname : Nameable name)
    (hcolon : colon ∉ name) (hnew : binfmtNew args = .ok (.ok b))
    (hpackage : b.package = some package) (hnul : NulFree package)
    (hspace : NoTrailingSpace package) (hplaced : Placed u name b)
    (hreg : u.kernel.hasRegister = true) {r : Registration} (hline : LineOf env u name r) :
    (∀ key, (installed env name b u).file key = u.file key) ∧
    (installed env name b u).kernel.hasRegister = true ∧
    (installed env name b u).kernel.entries =
      u.kernel.entries.filter (fun e => e.name ≠ name) ++ asked env r := by
  have hrecord : u.record name = some (reread b) := by
    rw [record_of_file hplaced.file,
      binfmtLoad_contents b (accepted_of_binfmtNew hnew).fields_noNewline]
    rfl
  have howner : (reread b).package = some package := by
    change some (readBack (b.package.getD [])) = some package
    rw [hpackage, Option.getD_some, (readBack_eq_self_iff hnul).mpr hspace]
  have hours : Ours u name b := by
    refine ⟨fun old hold => ?_, fun hmanual => ?_, hreg⟩
    · rw [hrecord, Option.some.injEq] at hold
      rw [← hold, howner, hpackage]
      exact ⟨rfl, rfl⟩
    · have hnone := hmanual.1
      rw [hplaced.file] at hnone
      cases hnone
  obtain ⟨c, d, hc, hd, rfl⟩ := hline
  have hneeds : d = true ↔ NeedsDetector (withoutTmp u name) ∅ name c :=
    hd.trans (needsDetector_congr name c
      (Rehearsal.visible_withoutTmp hplaced.tmp ∅)).symm
  obtain ⟨hfiles, hreg', hentries⟩ := installed_spec htest hrel hname hcolon hnew hours
    (congrArg (fun x => Option.getD x b) hc) hneeds (isSome_magic_of_record hc)
  refine ⟨fun key => ?_, hreg', hentries⟩
  rw [hfiles]
  split
  · rename_i hkey
    rw [hkey, hplaced.file]
  · split
    · rename_i hkey
      rw [hkey, hplaced.tmp]
    · rfl

theorem iterated (htest : env.test = false) (hrel : Reliable env) (hname : Nameable name)
    (hcolon : colon ∉ name) (hnew : binfmtNew args = .ok (.ok b))
    (hpackage : b.package = some package) (hnul : NulFree package)
    (hspace : NoTrailingSpace package) (hplaced : Placed u name b)
    (hreg : u.kernel.hasRegister = true) {r : Registration} (hline : LineOf env u name r) (n : ℕ) :
    (∀ key, ((installed env name b)^[n + 1] u).file key = u.file key) ∧
    ((installed env name b)^[n + 1] u).kernel.hasRegister = true ∧
    ((installed env name b)^[n + 1] u).kernel.entries =
      u.kernel.entries.filter (fun e => e.name ≠ name) ++ asked env r := by
  induction n with
  | zero =>
    exact installed_again htest hrel hname hcolon hnew hpackage hnul hspace hplaced hreg hline
  | succ n ih =>
    obtain ⟨hfiles, hreg', hentries⟩ := ih
    have hplaced' : Placed ((installed env name b)^[n + 1] u) name b :=
      ⟨(hfiles name).trans hplaced.file, (hfiles _).trans hplaced.tmp⟩
    obtain ⟨hfiles', hreg'', hentries'⟩ := installed_again htest hrel hname hcolon hnew hpackage
      hnul hspace hplaced' hreg' ((lineOf_of_files hfiles).mpr hline)
    have hr : r.name = name := by
      obtain ⟨c, d, -, -, rfl⟩ := hline
      rfl
    rw [Function.iterate_succ_apply']
    refine ⟨fun key => (hfiles' key).trans (hfiles key), hreg'', ?_⟩
    rw [hentries', hentries, filter_append_asked hr hcolon]

/-- Whatever was stored and registered under the name before: from the second installation of
the same record on the database and the kernel stay as they are, and the entry of the name is
the one that a restart would make, behind all others. -/
theorem reinstalled (env : Env) (htest : env.test = false) (hrel : Reliable env) (name : Text)
    (hname : Nameable name) (hcolon : colon ∉ name) (args : Arguments) (b : Binfmt)
    (hnew : binfmtNew args = .ok (.ok b)) (hmagic : b.magic.isSome = true) (package : Text)
    (hpackage : b.package = some package) (hnul : NulFree package)
    (hspace : NoTrailingSpace package) (s : Store) (hours : Ours s name b) :
    ∃ r, LineOf env (installed env name b s) name r ∧ ∀ n : ℕ,
      (∀ key, ((installed env name b)^[n + 2] s).file key = (installed env name b s).file key) ∧
      ((installed env name b)^[n + 2] s).kernel.entries =
        s.kernel.entries.filter (fun e => e.name ≠ name) ++ asked env r := by
  obtain ⟨d, hd⟩ : ∃ d : Bool, d = true ↔
      NeedsDetector (withoutTmp s name) ∅ name ((s.record name).getD b) := by
    by_cases hneeds : NeedsDetector (withoutTmp s name) ∅ name ((s.record name).getD b)
    · exact ⟨true, by simp [hneeds]⟩
    · exact ⟨false, by simp [hneeds]⟩
  have hmagic' : ((s.record name).getD b).magic.isSome = true := by
    cases hrecord : s.record name with
    | none => exact hmagic
    | some old => exact isSome_magic_of_record hrecord
  obtain ⟨hfiles, hreg, hentries⟩ :=
    installed_spec htest hrel hname hcolon hnew hours rfl hd hmagic'
  have hplaced : Placed (installed env name b s) name b := by
    refine ⟨?_, ?_⟩
    · rw [hfiles, if_pos rfl]
    · rw [hfiles, if_neg (tmpName_ne name).symm, if_pos rfl]
  have hrecord : (installed env name b s).record name = some (reread b) := by
    rw [record_of_file hplaced.file,
      binfmtLoad_contents b (accepted_of_binfmtNew hnew).fields_noNewline]
    rfl
  obtain ⟨r, hline⟩ := exists_lineOf hrecord
  refine ⟨r, hline, fun n => ?_⟩
  obtain ⟨hfiles', -, hentries'⟩ := iterated htest hrel hname hcolon hnew hpackage hnul hspace
    hplaced hreg hline n
  rw [Function.iterate_succ_apply]
  refine ⟨hfiles', ?_⟩
  rw [hentries', hentries]
  congr 1
  refine filter_append_asked ?_ hcolon s.kernel.entries
  rfl

def newArguments : Arguments :=
  kvhashInsert (kvhashInsert (kvhashInsert ∅ (text "package") (some (text "pkg")))
    (text "magic") (some (text "ABCE"))) (text "interpreter") (some (text "/usr/bin/new"))

theorem ours_upgraded : Ours upgraded (text "prog") newRecord := by
  have hrecord : upgraded.record (text "prog") = some (reread oldRecord) := by decide +kernel
  refine ⟨fun old hold => ?_, fun hmanual => ?_, by decide +kernel⟩
  · rw [hrecord, Option.some.injEq] at hold
    rw [← hold]
    decide
  · have hfile : (upgraded.file (text "prog")).isSome = true := by decide +kernel
    rw [hmanual.1] at hfile
    cases hfile

theorem reinstalled_upgraded :
    ∃ r, LineOf plainEnv (installed plainEnv (text "prog") newRecord upgraded) (text "prog") r ∧
      ∀ n : ℕ, (∀ key, ((installed plainEnv (text "prog") newRecord)^[n + 2] upgraded).file key =
          (installed plainEnv (text "prog") newRecord upgraded).file key) ∧
        ((installed plainEnv (text "prog") newRecord)^[n + 2] upgraded).kernel.entries =
          upgraded.kernel.entries.filter (fun e => e.name ≠ text "prog") ++ asked plainEnv r :=
  reinstalled plainEnv rfl plainEnv_reliable (text "prog") (by decide) (by decide) newArguments
    newRecord (by decide +kernel) rfl (text "pkg") rfl (by decide) (by decide) upgraded
    ours_upgraded

end Installations

end BinfmtSupport.Reinstalling
