import BinfmtSupport.CommandLine
import BinfmtSupport.Footprint
import BinfmtSupport.Records

/-!
Do operations on one format leave the stored record of another alone? Records and
temporary files share one flat directory, and the temporary file of a format has the name
of the format with ".tmp" after it. That is a name like any other, and the format that
has it is the only one that an operation on another name can touch.
-/
namespace BinfmtSupport.Isolation

open CText Kvhash Format Journal Stores Actions CommandLine Loading Enabling Installing
open Records AllFormats Triples Footprint

def Nameable (name : Text) : Prop := name ≠ [] ∧ slash ∉ name ∧ isReserved name = false

instance (name : Text) : Decidable (Nameable name) :=
  inferInstanceAs (Decidable (name ≠ [] ∧ slash ∉ name ∧ isReserved name = false))

/-- Whatever the stores are and whichever calls fail, no operation on `n` creates, changes
or deletes the file `m`: no installation, no removal and no import of a file called `n`. -/
def Isolated (n m : Text) : Prop := ∀ env s memory,
  (∀ b, (((actInstall env n b).run s memory).state s).file m = s.file m) ∧
  (∀ package, (((actRemove env n package).run s memory).state s).file m = s.file m) ∧
  ∀ path, (importPath env path).2 = n →
    (((actImportName env path).run s memory).state s).file m = s.file m

section Plain

theorem plain_of_nameable {name : Text} (h : Nameable name) :
    isDirectoryName name = false ∧ isControlName name = false :=
  plain_of_unreserved h.1 h.2.2

def storeWith (name : Text) (content : List Byte) : Store :=
  { emptyStore with admindir := emptyStore.admindir.insert name content }

theorem file_storeWith (name key : Text) (content : List Byte) :
    (storeWith name content).file key = if key = name then some content else none := by
  change (emptyStore.admindir.insert name content).lookup key = _
  by_cases h : key = name
  · subst h
    rw [if_pos rfl, AList.lookup_insert]
  · rw [if_neg h, AList.lookup_insert_ne h]
    rfl

end Plain

/-- The operations on one name keep the file of another, unless that is the temporary one. -/
theorem isolated_of_ne {n m : Text} (hne : n ≠ m) (htmp : m ≠ tmpName n) : Isolated n m := by
  intro env s memory
  have hapart : Apart n (fun t : Store => t.file m = s.file m) AnyTable := by
    refine ⟨?_, fun _ _ _ _ _ => trivial, fun _ _ _ => trivial, fun _ _ => trivial⟩
    intro e t he ht
    rw [file_apply_of_notMem e m t (he.files (Ne.symm hne) htmp)]
    exact ht
  refine ⟨fun b => ?_, fun package => ?_, fun path hpath => ?_⟩
  · exact ((keeps_actInstall env hapart b).along rfl trivial).final
  · exact ((keeps_actRemove env hapart package).along rfl trivial).final
  · rw [← hpath] at hapart
    exact ((keeps_actImportName env hapart.load (keeps_actInstall env hapart)).along rfl
      trivial).final

/-- A first installation of `n` on an ordinary machine takes the file `n.tmp` away. -/
theorem install_takes_tmp {n : Text} (hn : Nameable n) (content : List Byte) (b : Binfmt) :
    (((actInstall plainEnv n (some b)).run (storeWith (tmpName n) content)
      Memory.fresh).state (storeWith (tmpName n) content)).file (tmpName n) = none := by
  obtain ⟨hdir, hctl⟩ := plain_of_nameable hn
  have hfile : (storeWith (tmpName n) content).file n = none := by
    rw [file_storeWith, if_neg (tmpName_ne n)]
  have hhidden : (storeWith (tmpName n) content).kernel.procExists n = false := by
    simp [storeWith, emptyStore, Kernel.procExists, Kernel.hasEntry, hdir, hctl]
  have hstep : (actInstall plainEnv n (some b)).run (storeWith (tmpName n) content)
      Memory.fresh = (installFile plainEnv n (some b)).run (storeWith (tmpName n) content)
        Memory.fresh := by
    rw [run_actInstall_loaded (run_loadFormat_missing plainEnv n true _ _ hfile),
      run_comparePackages_free (kvhashLookup_empty n), replaceFormat, Prog.run_observe_bind,
      if_neg (by simp [hfile]),
      run_installUnlessManual plainEnv rfl, if_neg (by simp [hhidden])]
  rw [hstep]
  rcases installFile_cases plainEnv rfl n b (storeWith (tmpName n) content) Memory.fresh with
    ⟨m', es, -, -, hbad⟩ | ⟨m₁, -, -, hrun⟩
  · rw [hbad plainEnv_reliable] at hdir
    cases hdir
  · rw [hrun]
    rcases hen : (actEnableName plainEnv n).run (replay (moving (storeWith (tmpName n) content)
      n b) (storeWith (tmpName n) content)) { m₁ with formats := kvhashInsert m₁.formats n b }
      with ⟨o, m₂, es⟩
    obtain ⟨m₃, hend, -⟩ := enableInstalled_run plainEnv n b _ m₁ _ m₂ rfl o es hen
    have hfiles := files_of_actEnableName plainEnv rfl n (replay (moving (storeWith (tmpName n)
      content) n b) (storeWith (tmpName n) content))
      { m₁ with formats := kvhashInsert m₁.formats n b }
    rw [hen] at hfiles
    rw [hend, Ran.after_mk, Ran.state, replay_append]
    rw [file_replay_of_notMem es _ _ (fun e he => by simp [hfiles e he]), file_replay_moving,
      if_neg (tmpName_ne n).symm, if_pos rfl]

/-- Exactly one name is not safe from the operations on another. -/
theorem isolated_iff (n m : Text) (hne : n ≠ m) (hn : Nameable n) :
    Isolated n m ↔ m ≠ tmpName n := by
  constructor
  · rintro h rfl
    have hkept := (h plainEnv (storeWith (tmpName n) []) Memory.fresh).1
      (some ⟨none, [], [], none, [], none, none, none, none⟩)
    rw [install_takes_tmp hn, file_storeWith, if_pos rfl] at hkept
    cases hkept
  · exact isolated_of_ne hne

section Example

theorem isolated_prog_other :
    Isolated (text "prog") (text "other") ↔ text "other" ≠ tmpName (text "prog") :=
  isolated_iff (text "prog") (text "other") (by decide) (by decide)

def progRecord : Binfmt :=
  ⟨some (text "pkg"), text "magic", text "0", some (text "AB"), [],
    some (text "/usr/bin/prog"), none, none, none⟩

def tmpOptions : List Opt :=
  [.mode .install [text "prog.tmp", text "/usr/bin/other"], .package (text "other"),
    .extension (text "tmp")]

def tmpRecord : Binfmt :=
  ⟨some (text "other"), text "extension", text "0", some (text "tmp"), [],
    some (text "/usr/bin/other"), none, none, none⟩

def tmpInstalled : Store :=
  ((actInstall plainEnv (text "prog.tmp") (some tmpRecord)).run emptyStore Memory.fresh).state
    emptyStore

/-- Installing "prog" deletes the stored record of "prog.tmp". -/
theorem tmp_deleted :
    Nameable (text "prog") ∧ Nameable (text "prog.tmp") ∧ recordOf tmpOptions = some tmpRecord ∧
    tmpInstalled.record (text "prog.tmp") = some (stored tmpRecord) ∧
    ((actInstall plainEnv (text "prog") (some progRecord)).run tmpInstalled
      Memory.fresh).outcome = .returned true ∧
    (((actInstall plainEnv (text "prog") (some progRecord)).run tmpInstalled
      Memory.fresh).state tmpInstalled).file (text "prog.tmp") = none ∧
    ¬ Isolated (text "prog") (text "prog.tmp") := by
  have hstored : tmpInstalled.record (text "prog.tmp") = some (stored tmpRecord) := by
    decide +kernel
  have hgone : (((actInstall plainEnv (text "prog") (some progRecord)).run tmpInstalled
      Memory.fresh).state tmpInstalled).file (text "prog.tmp") = none := by decide +kernel
  refine ⟨by decide, by decide, by decide +kernel, hstored, by decide +kernel, hgone, ?_⟩
  intro h
  have hkept := (h plainEnv tmpInstalled Memory.fresh).1 (some progRecord)
  rw [hgone] at hkept
  rw [record_of_missing hkept.symm] at hstored
  cases hstored

end Example
end BinfmtSupport.Isolation
