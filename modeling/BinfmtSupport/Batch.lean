import BinfmtSupport.Isolation
import BinfmtSupport.Steady

/-!
One file of --import, in a process that has records of some names already: whether the process
leaves everything as it is or installs the file, with the line of which record and with or
without a detector. All of that depends on the records that it knows, and what it knows
afterwards follows from the decision.
-/
namespace BinfmtSupport.Batch

open CText Kvhash Format Regstring Journal Stores Actions Loading Enabling Installing
open AllFormats CommandLine Records Rejection Replacement Steady

/-- An entry of importdir, whose name has no slash, and the record that binfmt_new makes of
its file. -/
structure Importable (env : Env) (name : Text) (b : Binfmt) : Prop where
  entry : name ≠ [] ∧ slash ∉ name
  file : ∃ content, env.files (env.importdir ++ [slash] ++ name) = some content ∧
    binfmtNew (importTable content) = .ok (.ok b)
  package : b.package.isSome = true

/-- The older record of the name, if there is one, belongs to the same package, and that
is not the local administrator. -/
def Replaceable (s : Store) (t : Table Text Binfmt) (name : Text) (b : Binfmt) : Prop :=
  ∀ old, visible s t name = some old → old.package = b.package ∧ old.package ≠ some [colon]

/-- What a process that holds these records decides about a file: to leave everything as it
is, or to install the file and to enable the format with the line of a record, with or
without a detector. -/
inductive Decision (s : Store) (t : Table Text Binfmt) (name : Text) (b : Binfmt) :
    Option (Binfmt × Bool) → Prop
  | kept {old : Binfmt} {package : Text} (hold : visible s t name = some old)
      (hpackage : old.package = some package)
      (hwhy : package = [colon] ∨ b.package ≠ some package) : Decision s t name b none
  | manual (howner : Replaceable s t name b) (h : Manual s name) : Decision s t name b none
  | placed (howner : Replaceable s t name b) (h : ¬ Manual s name) {c : Binfmt}
      (hc : (visible s t name).getD b = c) (hcomp : Comparable (withoutTmp s name) t name c)
      {d : Bool} (hd : d = true ↔ NeedsDetector (withoutTmp s name) t name c) :
      Decision s t name b (some (c, d))

def importing (env : Env) (s : Store) (name : Text) (b : Binfmt) :
    Option (Binfmt × Bool) → List Effect
  | none => []
  | some (c, d) => placing s name b ++ (enabling env (replay (placing s name b) s) name
      (registrationOf name c (chooseInterpreter env c d))).2

def learned (s : Store) (t : Table Text Binfmt) (name : Text) :
    Option (Binfmt × Bool) → Text → Option Binfmt
  | none, key => visible s t key
  | some (c, _), key => if key = name then some c else visible (withoutTmp s name) t key

section Import
variable {env : Env} {s : Store} {m : Memory} {name : Text} {b : Binfmt}

theorem visible_reload (s : Store) (t : Table Text Binfmt) {key : Text} (hne : key ≠ name) :
    visible (withoutTmp s name) (remembered t name (s.record name)) key =
      visible (withoutTmp s name) t key := by
  rw [visible, visible, lookup_remembered, if_neg hne, Option.or_none]

/-- Loading the record of the name changes no decision about it. -/
theorem Decision.reload {t : Table Text Binfmt} {x : Option (Binfmt × Bool)}
    (h : Decision s t name b x) : Decision s (remembered t name (s.record name)) name b x := by
  have hname : visible s (remembered t name (s.record name)) name = visible s t name :=
    sameView_remembered s t name name
  have howner : Replaceable s t name b →
      Replaceable s (remembered t name (s.record name)) name b := by
    intro h old hold
    exact h old (hname ▸ hold)
  cases h with
  | kept hold hpackage hwhy => exact .kept (hname.trans hold) hpackage hwhy
  | manual hown h => exact .manual (howner hown) h
  | placed hown h hc hcomp hd =>
    refine .placed (howner hown) h (hname ▸ hc)
      (hcomp.congr (fun _ hne => visible_reload s t hne)) (hd.trans ?_)
    exact (needsDetector_congr_others (fun _ hne => visible_reload s t hne)).symm

theorem learned_reload {t : Table Text Binfmt} (x : Option (Binfmt × Bool)) (key : Text) :
    learned s (remembered t name (s.record name)) name x key = learned s t name x key := by
  rcases x with - | ⟨c, d⟩
  · exact sameView_remembered s t name key
  · rw [learned, learned]
    split
    · rfl
    · rename_i hne
      exact visible_reload s t hne

theorem loads_of_accepted {args : Arguments} (h : binfmtNew args = .ok (.ok b)) :
    (binfmtLoad b.contents).toOption.isSome = true := by
  rw [binfmtLoad_contents b (accepted_of_binfmtNew h).fields_noNewline]
  rfl

/-- act_install carries out the decision. -/
theorem run_actInstall (htest : env.test = false) (hrel : Reliable env)
    (hdir : isDirectoryName name = false) (hctl : isControlName name = false)
    (hpackage : b.package.isSome = true) (hloads : (binfmtLoad b.contents).toOption.isSome = true)
    {x : Option (Binfmt × Bool)} (hx : Decision s m.formats name b x)
    (hlocal : ∀ old, visible s m.formats name = some old → old.package ≠ some [colon]) :
    ∃ r m', (actInstall env name (some b)).run s m =
        ⟨.returned r, m', importing env s name b x⟩ ∧
      ∀ key, visible (replay (importing env s name b x) s) m'.formats key =
        learned s m.formats name x key := by
  cases hx with
  | @kept old oldPackage hold hpackage' hwhy =>
    obtain ⟨package, hp⟩ := Option.isSome_iff_exists.mp hpackage
    have hne : package ≠ oldPackage := by
      rcases hwhy with hcolon | hne
      · subst hcolon
        exact absurd hpackage' (hlocal old hold)
      · rintro rfl
        exact hne hp
    obtain ⟨m', hrun, hview, -⟩ := run_actInstall_foreign hrel hold hp hpackage' hne
    exact ⟨false, m', hrun, hview⟩
  | manual howner h =>
    obtain ⟨m₁, hf₁, -, hrun⟩ :=
      run_actInstall_checked hrel (fun old ho => ⟨(howner old ho).1, hpackage⟩)
    obtain ⟨m', hkeep, hf'⟩ := run_replaceFormat_manual (m := m₁) (b := b) htest h
    refine ⟨true, m', hrun.trans hkeep, fun key => ?_⟩
    rw [hf', hf₁]
    exact sameView_remembered s m.formats name key
  | placed howner h hc hcomp hd =>
    obtain ⟨m', hrun, hview⟩ := run_actInstall_line htest hrel hdir hctl hloads
      (fun old ho => ⟨(howner old ho).1, hpackage⟩) h hc hcomp hd
    refine ⟨_, m', hrun, fun key => ?_⟩
    rw [importing, replay_append]
    exact hview key

theorem exists_package {args : Arguments} (hnew : binfmtNew args = .ok (.ok b))
    (hpackage : b.package.isSome = true) : kvhashExists args (text "package") = true := by
  rw [(accepted_of_binfmtNew hnew).package, argument] at hpackage
  rw [kvhashExists_eq]
  cases hl : kvhashLookup args (text "package") with
  | none => simp [hl] at hpackage
  | some value => rfl

/-- The end of act_import hands the record on. -/
theorem run_importRecord (env : Env) (path name : Text) {args : Arguments}
    (hnew : binfmtNew args = .ok (.ok b))
    (hpackage : kvhashExists args (text "package") = true) (s : Store) (m : Memory) :
    ∃ m', m'.formats = m.formats ∧ m'.answers = m.answers ∧
      (importRecord env path name args).run s m =
        ((actInstall env name (some b) >>= fun _ => pure true : Act Bool)).run s m' := by
  rw [importRecord, if_pos hpackage]
  simp only [hnew]
  cases (argument args "interpreter").any env.executable with
  | true => exact ⟨m, rfl, rfl, rfl⟩
  | false =>
    refine ⟨m.warned (.noExecutable path (argument args "interpreter")), rfl, rfl, ?_⟩
    rw [if_pos (by simp), run_warn_bind]

/-- Once its table is read, act_import carries out the decision of the process. -/
theorem run_importUnlessLocal (htest : env.test = false) (hrel : Reliable env)
    (hdir : isDirectoryName name = false) (hctl : isControlName name = false) (path : Text)
    {args : Arguments} (hnew : binfmtNew args = .ok (.ok b)) (hpackage : b.package.isSome = true)
    {x : Option (Binfmt × Bool)} (hx : Decision s m.formats name b x) :
    ∃ r m', (importUnlessLocal env path name args).run s m =
        ⟨.returned r, m', importing env s name b x⟩ ∧
      ∀ key, visible (replay (importing env s name b x) s) m'.formats key =
        learned s m.formats name x key := by
  obtain ⟨m₁, hload, hf₁, -⟩ := run_loadFormat hrel name s m
  have hlook : kvhashLookup m₁.formats name = visible s m.formats name := by
    rw [hf₁, lookup_remembered_self]
  have hview : visible s m₁.formats name = visible s m.formats name := by
    rw [hf₁]
    exact sameView_remembered s m.formats name name
  have hx₁ : Decision s m₁.formats name b x := hf₁ ▸ hx.reload
  have hinstall : (∀ old, visible s m.formats name = some old → old.package ≠ some [colon]) →
      ∃ r m', (importRecord env path name args).run s m₁ =
          ⟨.returned r, m', importing env s name b x⟩ ∧
        ∀ key, visible (replay (importing env s name b x) s) m'.formats key =
          learned s m.formats name x key := by
    intro hlocal
    obtain ⟨m₂, hf₂, -, hrecord⟩ := run_importRecord env path name hnew
      (exists_package hnew hpackage) s m₁
    obtain ⟨r, m₃, hrun, hafter⟩ := run_actInstall (m := m₂) htest hrel hdir hctl hpackage
      (loads_of_accepted hnew) (hf₂ ▸ hx₁) (by rw [hf₂, hview]; exact hlocal)
    refine ⟨true, m₃, ?_, fun key => ?_⟩
    · rw [hrecord, Prog.run_bind_returned hrun, Prog.run_pure, Ran.after_mk, List.append_nil]
    · rw [hafter, hf₂, hf₁]
      exact learned_reload x key
  by_cases hlocal : ∃ old, visible s m.formats name = some old ∧ old.package = some [colon]
  · obtain ⟨old, hv, hp⟩ := hlocal
    have hnone : x = none := by
      cases hx with
      | kept => rfl
      | manual => rfl
      | placed howner h hc hcomp hd => exact absurd hp (howner old hv).2
    subst hnone
    refine ⟨true, _, run_importUnlessLocal_local hload (hlook.trans hv) hp, fun key => ?_⟩
    change visible s m₁.formats key = visible s m.formats key
    rw [hf₁]
    exact sameView_remembered s m.formats name key
  · have hother : ∀ old, visible s m.formats name = some old → old.package ≠ some [colon] :=
      fun old hv hp => hlocal ⟨old, hv, hp⟩
    have hpackaged : ∀ old, visible s m.formats name = some old →
        ∃ package, old.package = some package := by
      intro old hv
      cases hx with
      | kept hold hp hwhy =>
        rw [hv] at hold
        cases hold
        exact ⟨_, hp⟩
      | manual howner h => exact Option.isSome_iff_exists.mp ((howner old hv).1 ▸ hpackage)
      | placed howner h hc hcomp hd =>
        exact Option.isSome_iff_exists.mp ((howner old hv).1 ▸ hpackage)
    rw [run_importUnlessLocal_record hload
      (fun old hold => hpackaged old (hlook.symm.trans hold))
      (fun old hold => hother old (hlook.symm.trans hold))]
    exact hinstall hother

theorem run_getImport (hrel : Reliable env) {path : Text} {content : List Byte}
    (hfile : env.files path = some content) (s : Store) (m : Memory) :
    (getImport env path).run s m = ⟨.returned (some (importTable content)), m.tick, []⟩ := by
  simp only [getImport, hfile, run_succeeds_bind, ok_of_reliable hrel, if_true]
  rfl

/-- act_import gets as far as the stored record. -/
theorem run_actImportName_read (hrel : Reliable env) {path id : Text}
    (hpath : importPath env name = (path, id)) {content : List Byte}
    (hfile : env.files path = some content) (hres : isReserved id = false)
    (hnonempty : (importTable content).entries.isEmpty = false) (s : Store) (m : Memory) :
    (actImportName env name).run s m =
      (importUnlessLocal env path id (importTable content)).run s m.tick := by
  simp only [actImportName, hpath, hres, Bool.false_eq_true, if_false]
  rw [Prog.run_bind_returned (run_getImport hrel hfile s m)]
  simp only [hnonempty, Bool.false_eq_true, if_false, replay_nil, Ran.after_nil]

/-- act_import of an importable file carries out the decision of the process. -/
theorem run_actImportName (htest : env.test = false) (hrel : Reliable env)
    (himp : Importable env name b) (hres : isReserved name = false)
    {x : Option (Binfmt × Bool)} (hx : Decision s m.formats name b x) :
    ∃ r m', (actImportName env name).run s m = ⟨.returned r, m', importing env s name b x⟩ ∧
      ∀ key, visible (replay (importing env s name b x) s) m'.formats key =
        learned s m.formats name x key := by
  obtain ⟨content, hcontent, hnew⟩ := himp.file
  obtain ⟨hdir, hctl⟩ := plain_of_unreserved himp.entry.1 hres
  have hpath : importPath env name = (env.importdir ++ [slash] ++ name, name) :=
    if_neg himp.entry.2
  have hnonempty : (importTable content).entries.isEmpty = false := by
    have hexists := exists_package hnew himp.package
    rw [kvhashExists, decide_eq_true_eq, AList.mem_keys, AList.keys] at hexists
    cases hentries : (importTable content).entries with
    | nil => simp [hentries, List.keys] at hexists
    | cons entry rest => rfl
  rw [run_actImportName_read hrel hpath hcontent hres hnonempty]
  exact run_importUnlessLocal htest hrel hdir hctl _ hnew himp.package hx

theorem run_actImportName_reserved (himp : Importable env name b) (hres : isReserved name = true) :
    (actImportName env name).run s m = ⟨.returned false, m.warned (.reserved name), []⟩ := by
  have hpath : importPath env name = (env.importdir ++ [slash] ++ name, name) :=
    if_neg himp.entry.2
  simp only [actImportName, hpath, hres, if_true]
  rfl

end Import

end BinfmtSupport.Batch
