import BinfmtSupport.CommandLine
import BinfmtSupport.Failure
import BinfmtSupport.Isolation
import BinfmtSupport.Records

/-!
Who may change a stored record. The package of a record is its owner: act_install,
act_remove and act_import each look at it before their first step, and what they look at
is the record in the table, which is the stored one as long as nobody else writes the file.
Operations of others on the name then have no effects at all; operations on another name
reach it only by the name of the temporary file or by a colon in the name.
-/
namespace BinfmtSupport.Ownership

open CText Kvhash Format Regstring Journal Stores Actions CommandLine Loading Enabling
open Installing Records Triples Footprint Failure

def OwnedBy (s : Store) (name package : Text) : Prop :=
  ∃ b, s.record name = some b ∧ b.package = some package

def TableOwned (name package : Text) (t : Table Text Binfmt) : Prop :=
  ∀ b, kvhashLookup t name = some b → b.package = some package

/-- The file is not one from which the owner imports: it belongs to another package, or
the stored record is a local one. -/
def ForeignFile (env : Env) (path package : Text) : Prop :=
  package = [colon] ∨ ∀ content, env.files path = some content →
    argument (importTable content) "package" ≠ some package

/-- Neither name is a path that may lead to the file of the other one. -/
def Plain (other name : Text) : Prop := slash ∉ other ∧ slash ∉ name

/-- Nor does an operation on `other` reach `name` by its temporary file or by a colon. -/
structure Clear (other name : Text) : Prop where
  plain : Plain other name
  file : name ≠ tmpName other
  entry : name ≠ entryName other

section Record
variable {s : Store} {name package : Text}

theorem OwnedBy.congr {t : Store} (h : OwnedBy s name package) (hsame : Unchanged s t name) :
    OwnedBy t name package := by
  obtain ⟨b, hb, hpackage⟩ := h
  exact ⟨b, (record_congr hsame.1).trans hb, hpackage⟩

theorem unchanged_refl (s : Store) (name : Text) : Unchanged s s name := ⟨rfl, rfl⟩

theorem entriesNamed_dropOther {other : Text} (hne : name ≠ other) (t : Store) :
    entriesNamed ((Effect.dropEntry other).apply t).kernel name = entriesNamed t.kernel name := by
  simp only [Effect.apply, entriesNamed, List.filter_filter]
  apply List.filter_congr
  intro e _
  by_cases he : e.name = name
  · simp [he, hne]
  · simp [he]

theorem tableOwned_remembered {t : Table Text Binfmt} (h : OwnedBy s name package)
    (ht : TableOwned name package t) (key : Text) :
    TableOwned name package (remembered t key (s.record key)) := by
  intro b hb
  rw [lookup_remembered] at hb
  cases hold : kvhashLookup t name with
  | some old =>
    rw [hold, Option.some_or, Option.some.injEq] at hb
    subst hb
    exact ht old hold
  | none =>
    rw [hold, Option.none_or] at hb
    split at hb
    · rename_i hkey
      subst hkey
      obtain ⟨own, hown, hpackage⟩ := h
      rw [hown, Option.some.injEq] at hb
      subst hb
      exact hpackage
    · cases hb

/-- The entries of a name are left alone by what happens under another one, unless the
kernel takes that for the same name. -/
theorem entriesNamed_apply_of_on {other : Text} {e : Effect} (h : On other e)
    (hne : name ≠ other) (hclear : name ≠ entryName other) (t : Store) :
    entriesNamed (e.apply t).kernel name = entriesNamed t.kernel name := by
  cases e with
  | register r entry =>
    have hname : entry.name ≠ name := by
      rw [h.entry_register]
      exact hclear.symm
    simp [Effect.apply, entriesNamed, List.filter_append, hname]
  | dropEntry entry =>
    rw [h.entry_dropped]
    exact entriesNamed_dropOther hne t
  | append file byte => rw [kernel_apply_of_files _ _ (by simp [Effect.files])]
  | rename source dest => rw [kernel_apply_of_files _ _ (by simp [Effect.files])]
  | umount => rfl
  | unlink file => rfl
  | create file => rfl
  | modprobe result => rfl
  | mount => rfl
  | status enabled => rfl

/-- Nothing that happens under another name can break what is said about this one, unless
it is the temporary file or the kernel takes it for the name of the entry. -/
theorem apart_of_clear {other : Text} (h : OwnedBy s name package) (hne : other ≠ name)
    (hclear : Clear other name) :
    Apart other (fun t => Unchanged s t name) (TableOwned name package) := by
  refine ⟨?_, ?_, ?_, ?_⟩
  · rintro e t he ⟨hfile, hentry⟩
    refine ⟨?_, ?_⟩
    · rw [file_apply_of_notMem e name t (he.files (Ne.symm hne) hclear.file)]
      exact hfile
    · rw [← hentry]
      exact entriesNamed_apply_of_on he (Ne.symm hne) hclear.entry t
  · intro t table key hsame htable
    exact tableOwned_remembered (h.congr hsame) htable key
  · intro table b htable r hr
    rw [kvhashLookup_insert_ne (Ne.symm hne)] at hr
    exact htable r hr
  · intro table htable r hr
    apply htable r
    rw [← hr]
    exact (AList.lookup_erase_ne (Ne.symm hne)).symm

end Record

section Foreign
variable (env : Env) {s : Store} {name package : Text} (hown : OwnedBy s name package)
include hown

/-- After loading, the table has a record of the owner under the name. -/
theorem triple_loadFormat_owned : Triple (fun t => Unchanged s t name)
    (fun t m => Unchanged s t name ∧ TableOwned name package m.formats)
    (loadFormat env name true)
    (fun _ t m => (Unchanged s t name ∧ TableOwned name package m.formats) ∧
      ∃ b, kvhashLookup m.formats name = some b ∧ b.package = some package) := by
  refine triple_of_run (fun t m h => ?_)
  rcases loadFormat_cases env name true t m with ⟨m', hrun, hformats, -⟩ | ⟨m', hrun, -⟩
  · refine ⟨_, m', [], hrun, along_nil.mpr h.1, fun _ _ => ?_⟩
    have htable : TableOwned name package m'.formats := by
      rw [hformats]
      exact tableOwned_remembered (hown.congr h.1) h.2 name
    obtain ⟨own, hrecord, -⟩ := hown.congr h.1
    have hlook := lookup_remembered_self t m.formats name
    rw [← hformats, visible, hrecord] at hlook
    refine ⟨⟨h.1, htable⟩, ?_⟩
    cases hb : kvhashLookup m.formats name with
    | none =>
      rw [hb, Option.none_or] at hlook
      exact ⟨own, hlook, htable own hlook⟩
    | some b =>
      rw [hb, Option.some_or] at hlook
      exact ⟨b, hlook, htable b hlook⟩
  · exact ⟨_, m', [], hrun, along_nil.mpr h.1, fun _ hb => by cases hb⟩

/-- What follows the loading of an owned record may assume that it found the owner's. -/
theorem keeps_of_loaded {α : Type} {f : Memory → Act α}
    (h : ∀ m b, kvhashLookup m.formats name = some b → b.package = some package →
      Keeps (fun t => Unchanged s t name) (TableOwned name package) (f m)) :
    Keeps (fun t => Unchanged s t name) (TableOwned name package) (do
      loadFormat env name true
      let m ← Prog.recollect
      f m : Act α) := by
  refine Triple.bind (triple_loadFormat_owned env hown) (fun _ => ?_)
  refine triple_recollect_bind (fun n => ?_)
  intro t m hpre
  obtain ⟨⟨hinv, b, hb, hpackage⟩, rfl⟩ := hpre
  exact h m b hb hpackage t m hinv

/-- An installation by another package, or one of no record. -/
theorem keeps_actInstall_foreign (b : Option Binfmt)
    (hforeign : ∀ new, b = some new → new.package ≠ some package) :
    Keeps (fun t => Unchanged s t name) (TableOwned name package) (actInstall env name b) := by
  rw [actInstall.eq_def]
  refine keeps_of_loaded env hown (fun m old hlook hpackage => ?_)
  simp only [hlook]
  cases b with
  | none => exact stays_crash
  | some new =>
    have hne := hforeign new rfl
    cases hnew : new.package with
    | none =>
      simp only [hnew]
      exact stays_crash
    | some p =>
      rw [hnew] at hne
      simp only [hnew, hpackage]
      rw [if_neg (fun heq => hne (by rw [heq]))]
      exact keeps_warn_pure _ _

theorem keeps_actRemove_foreign (p : Text) (hforeign : p ≠ package) :
    Keeps (fun t => Unchanged s t name) (TableOwned name package) (actRemove env name p) := by
  refine stays_observe_bind (fun u => ?_)
  split
  · refine keeps_of_loaded env hown (fun m old hlook hpackage => ?_)
    simp only [hlook, hpackage]
    rw [if_neg hforeign]
    exact keeps_warn_pure _ _
  · exact keeps_warn_pure _ _

theorem keeps_importRecord_foreign (path : Text) (import_ : Arguments)
    (hforeign : argument import_ "package" ≠ some package) :
    Keeps (fun t => Unchanged s t name) (TableOwned name package)
      (importRecord env path name import_) := by
  rw [importRecord]
  split
  · cases hnew : binfmtNew import_ with
    | error value =>
      simp only
      split
      · exact (keeps_warn _).bind (fun _ => keeps_quit _)
      · exact keeps_quit _
    | ok result =>
      have hinstall : ∀ b, (∀ new, b = some new → new.package ≠ some package) →
          Keeps (fun t => Unchanged s t name) (TableOwned name package)
            (actInstall env name b >>= fun _ => pure true) :=
        fun b hb => (keeps_actInstall_foreign env hown b hb).bind (fun _ => stays_pure _)
      cases result with
      | error why =>
        have hnull := (keeps_warn (I := fun t => Unchanged s t name)
          (T := TableOwned name package) (.rejected path why)).bind
            (fun _ => hinstall none (fun _ h => by cases h))
        simp only
        split
        · exact (keeps_warn _).bind (fun _ => hnull)
        · exact hnull
      | ok b =>
        have hacc := Records.accepted_of_binfmtNew hnew
        have hother : b.package ≠ some package := by
          rw [hacc.package]
          exact hforeign
        have hsome := hinstall (some b) (fun new h => by
          cases h
          exact hother)
        simp only
        split
        · exact (keeps_warn _).bind (fun _ => hsome)
        · exact hsome
  · exact keeps_warn_pure _ _

/-- Importing a format file that is not the owner's, under the name of the record. -/
theorem keeps_actImportName_foreign (path : Text) (hname : (importPath env path).2 = name)
    (hforeign : ForeignFile env (importPath env path).1 package) :
    Keeps (fun t => Unchanged s t name) (TableOwned name package) (actImportName env path) := by
  rcases hpath : importPath env path with ⟨file, id⟩
  rw [hpath] at hname hforeign
  cases (hname : id = name)
  rw [actImportName.eq_def, hpath]
  simp only
  split
  · exact keeps_warn_pure _ _
  · refine Triple.bind (triple_getImport env file) (fun table => ?_)
    intro t m hpre
    obtain ⟨hinv, htable⟩ := hpre
    cases table with
    | none => exact keeps_warn_pure _ _ t m hinv
    | some import_ =>
      obtain ⟨content, hcontent, rfl⟩ := htable import_ rfl
      simp only
      split
      · exact keeps_warn_pure _ _ t m hinv
      · refine keeps_of_loaded env hown (fun n old hlook hpackage => ?_) t m hinv
        simp only [hlook, hpackage]
        split
        · exact keeps_warn_pure _ _
        · rename_i hnot
          refine keeps_importRecord_foreign env hown file _ ?_
          rcases hforeign with hlocal | hother
          · exact absurd hlocal hnot
          · exact hother content hcontent

end Foreign

/-- A run beside the owner. It does not install, remove or import the format of this name
for its package, and what else it installs or imports is clear of the name. -/
inductive Bystander (env : Env) (o : Options) (name package : Text) : Prop
  | install (hmode : o.mode = some .install)
      (hforeign : o.name.getD [] = name → packageOf o ≠ package)
      (hclear : o.name.getD [] ≠ name → Clear (o.name.getD []) name)
  | remove (hmode : o.mode = some .remove)
      (hforeign : o.name.getD [] = name → packageOf o ≠ package)
      (hplain : o.name.getD [] ≠ name → Plain (o.name.getD []) name)
  | imports (hmode : o.mode = some .import)
      (hforeign : ∀ path ∈ imported env o.name, (importPath env path).2 = name →
        ForeignFile env (importPath env path).1 package)
      (hclear : ∀ path ∈ imported env o.name, (importPath env path).2 ≠ name →
        Clear (importPath env path).2 name)

/-- One run of somebody else, which may be cut anywhere. -/
inductive Step (name package : Text) : Store → Store → Prop
  | run (env : Env) (opts : List Opt) (o : Options) (s : Store) (done : List Effect)
      (hparse : parse opts = .ok o) (hby : Bystander env o name package)
      (hdone : done <+: ((CommandLine.main env opts).run s Memory.fresh).effects) :
      Step name package s (replay done s)

section Runs
variable {s : Store} {name package : Text}

theorem tableOwned_fresh : TableOwned name package Memory.fresh.formats := by
  intro b hb
  cases hb

/-- Removing another name has no temporary file and makes no entry. -/
theorem along_actRemove_other (env : Env) {other : Text} (hne : other ≠ name) (p : Text)
    (m : Memory) : Along (fun t => Unchanged s t name)
      ((actRemove env other p).run s m).effects s := by
  have hstep : ∀ e : Effect, e = .status false ∨ e = .dropEntry other ∨ e = .unlink other →
      ∀ t, Unchanged s t name → Unchanged s (e.apply t) name := by
    rintro e (rfl | rfl | rfl) t ⟨hfile, hentry⟩
    · exact ⟨hfile, hentry⟩
    · refine ⟨hfile, ?_⟩
      rw [entriesNamed_dropOther (Ne.symm hne), hentry]
    · refine ⟨?_, hentry⟩
      rw [file_unlink, if_neg (Ne.symm hne)]
      exact hfile
  refine along_of_forall (fun e he => hstep e ?_) (unchanged_refl s name)
  cases htest : env.test with
  | true =>
    rw [AllFormats.silent_actRemove_test env htest other p s m] at he
    cases he
  | false =>
    have hdropped : ∀ drop, Dropped other s drop → e ∈ drop → e = .dropEntry other := by
      intro drop hdrop hmem
      rcases hdrop.shape with ⟨rfl, -⟩ | ⟨rfl, -⟩
      · cases hmem
      · exact List.mem_singleton.mp hmem
    rcases actRemove_cases env other p s m with ⟨o, m', hrun, -⟩ | ⟨m₁, -, -, hrun⟩
    · rw [hrun] at he
      cases he
    · rw [hrun] at he
      rcases removeFormat_cases env htest other s m₁ with
        ⟨m', es, hrun', hes, -⟩ | ⟨m', drop, hrun', hdrop, -⟩ | ⟨m', drop, hrun', hdrop⟩
      · rw [hrun'] at he
        rcases hes with rfl | rfl
        · cases he
        · exact Or.inl (List.mem_singleton.mp he)
      · rw [hrun'] at he
        exact Or.inr (Or.inl (hdropped drop hdrop he))
      · rw [hrun'] at he
        rcases List.mem_append.mp he with he | he
        · exact Or.inr (Or.inl (hdropped drop hdrop he))
        · exact Or.inr (Or.inr (List.mem_singleton.mp he))

variable (hown : OwnedBy s name package)
include hown

theorem keeps_actImport_bystander (env : Env) (import_ : Option Text)
    (hforeign : ∀ path ∈ imported env import_, (importPath env path).2 = name →
      ForeignFile env (importPath env path).1 package)
    (hclear : ∀ path ∈ imported env import_, (importPath env path).2 ≠ name →
      Clear (importPath env path).2 name) :
    Keeps (fun t => Unchanged s t name) (TableOwned name package) (actImport env import_) := by
  refine keeps_actImport env import_ (fun path hpath => ?_)
  by_cases hname : (importPath env path).2 = name
  · exact keeps_actImportName_foreign env hown path hname (hforeign path hpath hname)
  · have hapart := apart_of_clear hown hname (hclear path hpath hname)
    exact keeps_actImportName env hapart.load (keeps_actInstall env hapart)

/-- At every point of somebody else's run the format is as it was. -/
theorem unchanged_step {t : Store} (h : Step name package s t) : Unchanged s t name := by
  obtain ⟨env, opts, o, _, done, hparse, hby, hdone⟩ := h
  rw [effects_main hparse] at hdone
  have hstart := unchanged_refl s name
  cases hby with
  | install hmode hforeign hclear =>
    have hinstall : ∀ b, (∀ new, b = some new → new.package = some (packageOf o)) →
        Keeps (fun t => Unchanged s t name) (TableOwned name package)
          (actInstall { env with test := o.test } (o.name.getD []) b) := by
      intro b hb
      by_cases hname : o.name.getD [] = name
      · rw [hname]
        refine keeps_actInstall_foreign _ hown b (fun new hnew heq => hforeign hname ?_)
        exact Option.some.inj ((hb new hnew).symm.trans heq)
      · exact keeps_actInstall _ (apart_of_clear hown hname (hclear hname)) b
    simp only [runMode, hmode, installMode] at hdone
    split at hdone
    · have hquit : ∀ w, Keeps (fun t => Unchanged s t name) (TableOwned name package)
          (quit w : Act Bool) := fun w => keeps_quit w
      exact (hquit _).along hstart tableOwned_fresh done hdone
    · exact ((keeps_warn _).bind (fun _ => hinstall none (fun _ h => by cases h))).along hstart
        tableOwned_fresh done hdone
    · rename_i b hb
      refine (hinstall (some b) (fun new hnew => ?_)).along hstart tableOwned_fresh done hdone
      cases hnew
      rw [(Records.accepted_of_binfmtNew hb).package, argument_formatArgs_package]
  | remove hmode hforeign hplain =>
    simp only [runMode, hmode] at hdone
    by_cases hname : o.name.getD [] = name
    · rw [hname] at hdone
      exact (keeps_actRemove_foreign _ hown _ (hforeign hname)).along hstart tableOwned_fresh
        done hdone
    · exact along_actRemove_other _ hname _ _ done hdone
  | imports hmode hforeign hclear =>
    simp only [runMode, hmode] at hdone
    exact (keeps_actImport_bystander hown { env with test := o.test } o.name hforeign
      hclear).along hstart tableOwned_fresh done hdone

end Runs

/-- In every sequence of runs beside the owner, the stored record and the kernel entries of
an owned name stay as they are, at every point and whatever fails. -/
theorem owner_only (name package : Text) (s t : Store) (hown : OwnedBy s name package)
    (hruns : Relation.ReflTransGen (Step name package) s t) : Unchanged s t name := by
  induction hruns with
  | refl => exact unchanged_refl s name
  | tail _ hstep ih =>
    obtain ⟨hfile, hentry⟩ := unchanged_step (hown.congr ih) hstep
    exact ⟨hfile.trans ih.1, hentry.trans ih.2⟩

section Example

open Isolation

def importEnv : Env where
  __ := plainEnv
  importNames := [text "prog", text "prog.tmp"]
  files := fun path =>
    if path = text "/usr/share/binfmts/prog" then
      some (text "package pkg\nmagic AB\ninterpreter /usr/bin/prog\n")
    else if path = text "/usr/share/binfmts/prog.tmp" then
      some (text "package pkg\nextension tmp\ninterpreter /usr/bin/prog\n")
    else none

/-- Only the format "prog.tmp" is stored, and it belongs to the package "other". -/
def otherStored : Store := storeWith (text "prog.tmp") tmpRecord.contents

theorem owned_otherStored : OwnedBy otherStored (text "prog.tmp") (text "other") :=
  ⟨stored tmpRecord, by decide +kernel, by decide⟩

def removeOptions : List Opt :=
  [.mode .remove [text "prog.tmp", text "/usr/bin/other"], .package (text "pkg")]

/-- A removal by another package, from its start to its end. -/
theorem owner_only_removal : Unchanged otherStored
    (((CommandLine.main plainEnv removeOptions).run otherStored Memory.fresh).state otherStored)
    (text "prog.tmp") := by
  refine owner_only (text "prog.tmp") (text "other") otherStored _ owned_otherStored
    (Relation.ReflTransGen.single (Step.run plainEnv removeOptions
      { Options.none with
        mode := some .remove, name := text "prog.tmp", interpreter := text "/usr/bin/other",
        package := text "pkg" } otherStored _ (by decide +kernel) ?_ List.prefix_rfl))
  exact .remove rfl (fun _ => by decide) (fun hne => absurd rfl hne)

/-- One import of both files hands the format "prog.tmp" over to "pkg": importing "prog"
takes its file away as a temporary one, and then nobody owns the name. -/
theorem import_takes_over :
    OwnedBy otherStored (text "prog.tmp") (text "other") ∧
    ForeignFile importEnv (importPath importEnv (text "prog.tmp")).1 (text "other") ∧
    ((CommandLine.main importEnv [.mode .import []]).run otherStored Memory.fresh).outcome =
      .returned () ∧
    OwnedBy (((CommandLine.main importEnv [.mode .import []]).run otherStored
      Memory.fresh).state otherStored) (text "prog.tmp") (text "pkg") ∧
    ¬ Unchanged otherStored (((CommandLine.main importEnv [.mode .import []]).run otherStored
      Memory.fresh).state otherStored) (text "prog.tmp") := by
  have htaken : OwnedBy (((CommandLine.main importEnv [.mode .import []]).run otherStored
      Memory.fresh).state otherStored) (text "prog.tmp") (text "pkg") :=
    ⟨⟨some (text "pkg"), text "extension", text "0", some (text "tmp"), [],
      some (text "/usr/bin/prog"), some [], some [], some []⟩, by decide +kernel, rfl⟩
  refine ⟨owned_otherStored, Or.inr ?_, by decide +kernel, htaken, ?_⟩
  · intro content hcontent
    have hfile : importEnv.files (importPath importEnv (text "prog.tmp")).1 =
        some (text "package pkg\nextension tmp\ninterpreter /usr/bin/prog\n") := by decide +kernel
    rw [hfile, Option.some.injEq] at hcontent
    subst hcontent
    decide +kernel
  · intro hsame
    obtain ⟨b, hb, hpkg⟩ := htaken
    obtain ⟨b', hb', hother⟩ := owned_otherStored.congr hsame
    rw [hb, Option.some.injEq] at hb'
    subst hb'
    rw [hpkg] at hother
    exact absurd hother (by decide)

end Example
end BinfmtSupport.Ownership
