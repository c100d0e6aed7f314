import BinfmtSupport.Interruption
import BinfmtSupport.Isolation
import BinfmtSupport.Rejection

/-!
An installation under a free name and the removal of it by the same package undo each
other. The two are separate processes: the second knows of the first only what it reads
back from the file, where it has to find the package again, and the entry under the name
of the file.
-/
namespace BinfmtSupport.Undoing

open CText Kvhash Format Regstring Journal Stores Actions Loading Enabling Installing
open Records AllFormats Footprint Isolation Rejection

/-- Nothing is stored or enabled under the name, and no temporary file is in the way. -/
structure Free (s : Store) (name : Text) : Prop where
  file : s.file name = none
  tmp : s.file (tmpName name) = none
  entry : s.kernel.hasEntry name = false

def installed (env : Env) (name : Text) (b : Binfmt) (s : Store) : Store :=
  ((actInstall env name (some b)).run s Memory.fresh).state s

def removed (env : Env) (name package : Text) (s : Store) : Store :=
  ((actRemove env name package).run s Memory.fresh).state s

section Install
variable {env : Env} {name : Text} {b : Binfmt} {s : Store}

theorem procExists_of_free (hname : Nameable name) (hfree : Free s name) :
    s.kernel.procExists name = false := by
  obtain ⟨hdir, hctl⟩ := plain_of_nameable hname
  simp [Kernel.procExists, hdir, hctl, hfree.entry]

/-- Under a free name there is nothing to check and nothing to disable. -/
theorem run_actInstall_free (htest : env.test = false) (hname : Nameable name)
    (hfree : Free s name) : (actInstall env name (some b)).run s Memory.fresh =
      (installFile env name (some b)).run s Memory.fresh := by
  rw [run_actInstall_loaded (run_loadFormat_missing env name true s Memory.fresh hfree.file),
    run_comparePackages_free (kvhashLookup_empty name), replaceFormat, Prog.run_observe_bind,
    if_neg (by simp [hfree.file]), run_installUnlessManual env htest,
    if_neg (by simp [procExists_of_free hname hfree])]

/-- The stores after an installation under a free name: the record is there, and there is
a new entry under the name or none at all. -/
structure Added (s u : Store) (name : Text) (b : Binfmt) : Prop where
  files : ∀ key, u.file key = if key = name then some b.contents else s.file key
  entries : u.kernel.entries = s.kernel.entries ∨
    u.kernel.hasRegister = true ∧ ∃ e, e.name = name ∧ u.kernel.entries = s.kernel.entries ++ [e]

/-- Enabling adds an entry of the name at most, and makes sure that it can be seen. -/
theorem entries_actEnableName (htest : env.test = false) (hcolon : colon ∉ name) (m : Memory) :
    let u := ((actEnableName env name).run s m).state s
    u.kernel.entries = s.kernel.entries ∨
      u.kernel.hasRegister = true ∧
        ∃ e, e.name = name ∧ u.kernel.entries = s.kernel.entries ++ [e] := by
  rcases actEnableName_cases env htest name s m with
    ⟨m', es, hrun, hset, -⟩ | ⟨o, m', es, hrun, -, hset, -⟩ |
    ⟨m', es, b, d, r, e, hrun, hset, hreg, -, -, -, -, hr, hacc⟩
  · left
    rw [hrun]
    exact entries_replay_of_setup es s hset
  · left
    rw [hrun]
    exact entries_replay_of_setup es s hset
  · right
    have hname : e.name = name := by
      subst hr
      exact name_of_colonless (entry_of_accepted env hacc).1 hcolon
    rw [hrun, Ran.state, replay_append, replay_cons, replay_nil, apply_def]
    refine ⟨hreg, e, hname, ?_⟩
    change (replay es s).kernel.entries ++ [e] = _
    rw [entries_replay_of_setup es s hset]

theorem added_of_install (htest : env.test = false) (hrel : Reliable env)
    (hname : Nameable name) (hcolon : colon ∉ name) (hfree : Free s name) :
    Added s (installed env name b s) name b := by
  have hdir := (plain_of_nameable hname).1
  rw [installed, run_actInstall_free htest hname hfree]
  rcases installFile_cases env htest name b s Memory.fresh with
    ⟨m', es, -, -, hfails⟩ | ⟨m₁, -, -, hrun⟩
  · rw [hfails hrel] at hdir
    cases hdir
  · rcases hen : (actEnableName env name).run (replay (moving s name b) s)
      { m₁ with formats := kvhashInsert m₁.formats name b } with ⟨o, m₂, es⟩
    obtain ⟨m', hend, -⟩ := enableInstalled_run env name b _ m₁ _ m₂ rfl o es hen
    have hnofile := files_of_actEnableName env htest name (replay (moving s name b) s)
      { m₁ with formats := kvhashInsert m₁.formats name b }
    have hentries := entries_actEnableName (s := replay (moving s name b) s) htest hcolon
      { m₁ with formats := kvhashInsert m₁.formats name b }
    have hkernel : (replay (moving s name b) s).kernel = s.kernel :=
      kernel_replay_of_files _ s (fun e he => files_of_mem_moving he)
    rw [hen] at hnofile hentries
    rw [hrun, hend, Ran.after_mk]
    simp only [Ran.state, replay_append] at hentries ⊢
    rw [hkernel] at hentries
    refine ⟨?_, hentries⟩
    intro key
    have hadm := admindir_replay_of_noFiles es (replay (moving s name b) s) hnofile
    have hsame : (replay es (replay (moving s name b) s)).file key =
        (replay (moving s name b) s).file key := by simp only [Store.file, hadm]
    rw [hsame, file_replay_moving]
    split
    · rfl
    · split
      · rename_i htmp
        rw [htmp, hfree.tmp]
      · rfl

end Install

section Remove
variable {env : Env} {name package : Text} {b : Binfmt} {u : Store}

/-- The owner's removal gets past the check of the packages. -/
theorem run_actRemove_owner (hrel : Reliable env) (hrecord : u.record name = some b)
    (hpackage : b.package = some package) : ∃ m₁,
      (actRemove env name package).run u Memory.fresh = (removeFormat env name).run u m₁ := by
  have hfile : (u.file name).isSome = true := by
    cases hf : u.file name with
    | none =>
      rw [record_of_missing hf] at hrecord
      cases hrecord
    | some content => rfl
  have hload := run_loadFormat_quiet env name u Memory.fresh hfile (ok_of_reliable hrel _)
  refine ⟨{ Memory.fresh.tick with
    formats := remembered Memory.fresh.formats name (u.record name) }, ?_⟩
  rw [actRemove, Prog.run_observe_bind, if_pos hfile, Prog.run_bind_returned hload,
    Prog.run_recollect_bind]
  have hlook : kvhashLookup (remembered Memory.fresh.formats name (u.record name)) name =
      some b := by
    rw [lookup_remembered_self, visible, hrecord]
    rfl
  simp only [hlook, hpackage, if_true]
  rfl

/-- With all calls succeeding the removal proper drops the entry and deletes the file. -/
theorem removeFormat_of_reliable (htest : env.test = false) (hrel : Reliable env)
    (hname : Nameable name) (m : Memory) : ∃ m' drop, (removeFormat env name).run u m =
      ⟨.returned true, m', drop ++ [.unlink name]⟩ ∧ Dropped name u drop := by
  rcases removeFormat_cases env htest name u m with
    ⟨m', es, -, -, -, hfails⟩ | ⟨m', drop, -, -, time, hfail⟩ | hdone
  · obtain ⟨hdir, hctl⟩ := plain_of_nameable hname
    rw [dropFails_of_reliable env hrel, hdir, hctl] at hfails
    cases hfails
  · rw [ok_of_reliable hrel] at hfail
    cases hfail
  · exact hdone

/-- Anybody else's removal does nothing. -/
theorem effects_actRemove_foreign (env : Env) {other : Text} (hrecord : u.record name = some b)
    (hpackage : b.package ≠ some other) :
    ((actRemove env name other).run u Memory.fresh).effects = [] := by
  rcases actRemove_cases env name other u Memory.fresh with ⟨o, m', hrun, -⟩ | ⟨m₁, -, howner, -⟩
  · rw [hrun]
  · have hvisible : visible u Memory.fresh.formats name = some b := by
      rw [visible, hrecord]
      rfl
    exact absurd (howner b hvisible) hpackage

/-- Dropping the name from the kernel gives back the entries that were there before. -/
theorem entries_dropped {s : Store} {drop : List Effect} (hname : Nameable name)
    (hfree : s.kernel.hasEntry name = false) (hadded : Added s u name b)
    (hdrop : Dropped name u drop) :
    (replay drop u).kernel.entries = s.kernel.entries := by
  have hnone : s.kernel.entries.filter (fun e => e.name ≠ name) = s.kernel.entries := by
    rw [hasEntry_eq_false_iff] at hfree
    rw [List.filter_eq_self]
    intro e he
    simpa using hfree e he
  have hshown : u.kernel.procExists name = false → u.kernel.entries = s.kernel.entries := by
    intro hhidden
    rcases hadded.entries with hsame | ⟨hreg, e, he, hentries⟩
    · exact hsame
    · obtain ⟨hdir, hctl⟩ := plain_of_nameable hname
      rw [procExists_eq_hasEntry hreg hdir hctl, hasEntry_eq_false_iff, hentries] at hhidden
      exact absurd he (hhidden e (by simp))
  rcases hdrop.shape with ⟨rfl, hex⟩ | ⟨rfl, -⟩
  · exact hshown hex
  · change u.kernel.entries.filter (fun e => e.name ≠ name) = s.kernel.entries
    rcases hadded.entries with hsame | ⟨-, e, he, hentries⟩
    · rw [hsame, hnone]
    · rw [hentries, List.filter_append, hnone]
      simp [he]

end Remove

/-- Installing a format under a free name and removing it as the same package restores
every file and every entry, whether or not the kernel took the format; in between, no other
package can remove it. -/
theorem remove_undoes_install (env₁ env₂ : Env) (htest₁ : env₁.test = false)
    (htest₂ : env₂.test = false) (hrel₁ : Reliable env₁) (hrel₂ : Reliable env₂)
    (name : Text) (hname : Nameable name) (hcolon : colon ∉ name) (args : Arguments)
    (b : Binfmt) (hnew : binfmtNew args = .ok (.ok b)) (package : Text)
    (hpackage : b.package = some package) (hnul : NulFree package)
    (hspace : NoTrailingSpace package) (s : Store) (hfree : Free s name) :
    Untouched s (removed env₂ name package (installed env₁ name b s)) ∧
    ∀ env other, other ≠ package →
      removed env name other (installed env₁ name b s) = installed env₁ name b s := by
  have hadded := added_of_install (b := b) htest₁ hrel₁ hname hcolon hfree
  generalize installed env₁ name b s = u at hadded
  have hrecord : u.record name = some (reread b) := by
    have hfile := hadded.files name
    rw [if_pos rfl] at hfile
    rw [record_of_file hfile,
      binfmtLoad_contents b (accepted_of_binfmtNew hnew).fields_noNewline]
    rfl
  have howner : (reread b).package = some package := by
    change some (readBack (b.package.getD [])) = some package
    rw [hpackage, Option.getD_some, (readBack_eq_self_iff hnul).mpr hspace]
  refine ⟨?_, ?_⟩
  · obtain ⟨m₁, hrun⟩ := run_actRemove_owner hrel₂ hrecord howner
    obtain ⟨m', drop, hremove, hdrop⟩ := removeFormat_of_reliable (u := u) htest₂ hrel₂ hname m₁
    rw [removed, hrun, hremove, Ran.state, replay_append, replay_cons, replay_nil, apply_def]
    refine ⟨?_, entries_dropped hname hfree.entry hadded hdrop⟩
    intro key
    have hkept : (replay drop u).file key = u.file key := by
      simp only [Store.file, hdrop.admindir]
    rw [file_unlink, hkept, hadded.files]
    split
    · rename_i hkey
      rw [hkey, hfree.file]
    · rfl
  · intro env other hne
    have hforeign : (reread b).package ≠ some other := by
      rw [howner]
      simpa using Ne.symm hne
    rw [removed, Ran.state, effects_actRemove_foreign env hrecord hforeign]
    rfl

section Example

open Interruption

def busy : Store := busyStore [jarEntry, qemuEntry]

theorem free_busy : Free busy (text "prog") := ⟨by decide, by decide, by decide⟩

/-- An installation next to other formats, and its removal. -/
theorem remove_undoes_install_busy :
    Untouched busy (removed plainEnv (text "prog") (text "pkg")
      (installed plainEnv (text "prog") firstRecord busy)) ∧
    ∀ env other, other ≠ text "pkg" →
      removed env (text "prog") other (installed plainEnv (text "prog") firstRecord busy) =
        installed plainEnv (text "prog") firstRecord busy :=
  remove_undoes_install plainEnv plainEnv rfl rfl plainEnv_reliable plainEnv_reliable
    (text "prog") (by decide) (by decide) firstArguments firstRecord (by decide +kernel)
    (text "pkg") rfl (by decide) (by decide) busy free_busy

end Example
end BinfmtSupport.Undoing
