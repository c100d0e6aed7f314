import BinfmtSupport.Triples
import BinfmtSupport.Steady

/-!
The actions on one name and the record that may be missing. Records come into the table
from files, so what is there has all its members. Whether anything is there is asked before
it is used, by every action but one: act_enable does not ask under --test.
-/
namespace BinfmtSupport.Presence

open CText Kvhash Format Regstring Journal Stores Actions Loading Enabling Rejection Steady
open Triples

def Filled (t : Table Text Binfmt) : Prop :=
  ∀ key b, kvhashLookup t key = some b → b.package.isSome = true ∧ b.magic.isSome = true

theorem filled_fresh : Filled Memory.fresh.formats := by
  intro key b hb
  simp [Memory.fresh] at hb

abbrev Safe {α : Type} (p : Act α) : Prop := Orderly (fun m : Memory => Filled m.formats) p

section Calls
variable (env : Env)

theorem safe_warn (w : Warning) : Safe (warn w) := orderly_remember (fun _ h => h)

theorem safe_answer (a : Answer) : Safe (answer a) := orderly_remember (fun _ h => h)

theorem safe_warn_pure {α : Type} (w : Warning) (a : α) : Safe (warn w >>= fun _ => pure a) :=
  (safe_warn w).bind (fun _ => orderly_pure a)

theorem safe_emit_pure {α : Type} (e : Effect) (a : α) :
    Safe (Prog.emit e >>= fun _ => pure a : Act α) :=
  Orderly.bind (orderly_emit e) (fun _ => orderly_pure a)

theorem safe_nextFault : Safe (nextFault env) :=
  orderly_of_run (fun _ m h => ⟨_, m.tick, [], rfl, by simp, fun _ _ => h⟩)

theorem safe_succeeds : Safe (succeeds env) := by
  refine (safe_nextFault env).bind (fun fault => ?_)
  cases fault <;> exact orderly_pure _

end Calls

section Loading
variable (env : Env)

theorem filled_of_record {s : Store} {name : Text} {b : Binfmt} (h : s.record name = some b) :
    b.package.isSome = true ∧ b.magic.isSome = true := by
  obtain ⟨package, hpackage⟩ := package_of_record h
  exact ⟨by rw [hpackage]; rfl, isSome_magic_of_record h⟩

/-- A record that is loaded has its members. -/
theorem filled_remembered {t : Table Text Binfmt} (h : Filled t) (s : Store) (name : Text) :
    Filled (remembered t name (s.record name)) := by
  intro key b hb
  rw [lookup_remembered, Option.or_eq_some_iff] at hb
  rcases hb with hb | ⟨-, hb⟩
  · exact h key b hb
  · exact filled_of_record (Option.ite_none_right_eq_some.mp hb).2

theorem filled_delete {t : Table Text Binfmt} (h : Filled t) (name : Text) :
    Filled (kvhashDelete t name) := by
  intro key b hb
  by_cases hk : key = name
  · rw [hk, kvhashLookup, kvhashDelete, AList.lookup_erase] at hb
    cases hb
  · rw [kvhashLookup, kvhashDelete, AList.lookup_erase_ne hk] at hb
    exact h key b hb

theorem filled_visible {s : Store} {t u : Table Text Binfmt} (h : Filled t)
    (hview : ∀ key, kvhashLookup u key = visible s t key) : Filled u := by
  intro key b hb
  rw [hview, visible, Option.or_eq_some_iff] at hb
  rcases hb with hb | ⟨-, hb⟩
  · exact h key b hb
  · exact filled_of_record hb

theorem safe_loadFormat (name : Text) (quiet : Bool) : Safe (loadFormat env name quiet) := by
  refine orderly_of_run (fun s m h => ?_)
  rcases loadFormat_cases env name quiet s m with ⟨m', hrun, hformats, -⟩ | ⟨m', hrun, -⟩
  · refine ⟨_, m', [], hrun, by simp, fun _ _ => ?_⟩
    rw [hformats]
    exact filled_remembered h s name
  · exact ⟨_, m', [], hrun, by simp, fun _ hb => by cases hb⟩

theorem safe_loadAllFormats (quiet : Bool) : Safe (loadAllFormats env quiet) := by
  refine orderly_of_run (fun s m h => ?_)
  rcases loadAllFormats_cases env quiet s m with ⟨m', hrun, hview, -⟩ | ⟨m', hrun, -⟩
  · exact ⟨_, m', [], hrun, by simp, fun _ _ => filled_visible h hview⟩
  · exact ⟨_, m', [], hrun, by simp, fun _ hb => by cases hb⟩

/-- Records with a magic are compared without harm. -/
theorem safe_needDetector (name : Text) {b : Binfmt} (hb : b.magic.isSome = true) :
    Safe (needDetector env name b) := by
  have hscan : ∀ t keys, Filled t → Safe (scanFormats name b t keys) := by
    intro t keys ht
    refine orderly_of_run (fun s m h => ?_)
    rcases scanFormats_cases name b t keys s m with
      ⟨hrun, -⟩ | ⟨hrun, -⟩ | ⟨-, key, -, -, other, hother, hnone⟩
    · exact ⟨_, m, [], hrun, by simp, fun _ _ => h⟩
    · exact ⟨_, m, [], hrun, by simp, fun _ _ => h⟩
    · obtain ⟨magic, hmagic⟩ := Option.isSome_iff_exists.mp hb
      obtain ⟨magic', hmagic'⟩ := Option.isSome_iff_exists.mp (ht key other hother).2
      exact absurd hnone (binfmtEquals_ne_none hmagic hmagic')
  rw [needDetector]
  split
  · exact orderly_pure _
  · refine (safe_loadAllFormats env true).bind (fun _ => ?_)
    exact orderly_recollect_bind (fun m h => hscan _ _ h)

theorem safe_register (name : Text) (r : Registration) : Safe (Actions.register env name r) := by
  have hwrite : Safe (writeRegister env r) := by
    refine (safe_nextFault env).bind (fun fault => ?_)
    cases fault with
    | none =>
      refine orderly_observe_bind (fun s => ?_)
      cases accepted env s.kernel r with
      | none => exact orderly_pure _
      | some e => exact safe_emit_pure _ _
    | error written => exact orderly_pure _
    | ignored => exact orderly_pure _
  rw [Actions.register]
  split
  · exact (safe_answer _).bind (fun _ => orderly_pure _)
  · refine (safe_succeeds env).bind (fun ok => ?_)
    split
    · refine hwrite.bind (fun written => ?_)
      split
      · exact orderly_pure _
      · exact safe_warn_pure _ _
    · exact safe_warn_pure _ _

end Loading

section Actions
variable (env : Env)

theorem safe_actDisableName (name : Text) : Safe (actDisableName env name) := by
  have hwrite : Safe (writeMinusOne env name) := by
    refine (safe_nextFault env).bind (fun fault => ?_)
    cases fault with
    | none =>
      dsimp only
      split
      · exact orderly_pure _
      · split <;> exact safe_emit_pure _ _
    | error written => exact orderly_pure _
    | ignored => exact orderly_pure _
  have hdrop : Safe (dropEntry env name) := by
    refine (safe_succeeds env).bind (fun ok => ?_)
    split
    · split
      · exact safe_warn_pure _ _
      · refine hwrite.bind (fun written => ?_)
        split
        · refine orderly_observe_bind (fun s => ?_)
          split
          · exact safe_warn_pure _ _
          · exact orderly_pure _
        · exact safe_warn_pure _ _
    · exact safe_warn_pure _ _
  refine orderly_observe_bind (fun s => ?_)
  split
  · split
    · split
      · exact (safe_answer _).bind (fun _ => orderly_pure _)
      · exact hdrop
    · exact orderly_pure _
  · exact orderly_pure _

theorem safe_actRemove (name package : Text) : Safe (actRemove env name package) := by
  have hfile : Safe (removeFile env name) := by
    rw [removeFile]
    split
    · exact (safe_answer _).bind (fun _ => orderly_pure _)
    · refine (safe_succeeds env).bind (fun ok => ?_)
      split
      · refine Orderly.bind (orderly_emit _) (fun _ => ?_)
        refine Orderly.bind (orderly_remember (fun m h => ?_)) (fun _ => orderly_pure _)
        exact filled_delete h name
      · exact safe_warn_pure _ _
  have hformat : Safe (removeFormat env name) := by
    refine (safe_actDisableName env name).bind (fun ok => ?_)
    split
    · exact hfile
    · exact safe_warn_pure _ _
  refine orderly_observe_bind (fun s => ?_)
  split
  · refine (safe_loadFormat env name true).bind (fun _ => ?_)
    refine orderly_recollect_bind (fun m h => ?_)
    cases hold : kvhashLookup m.formats name with
    | none => exact hformat
    | some old =>
      obtain ⟨oldPackage, hpackage⟩ := Option.isSome_iff_exists.mp (h name old hold).1
      simp only [hpackage]
      split
      · exact hformat
      · exact safe_warn_pure _ _
  · exact safe_warn_pure _ _

theorem safe_actDisplayName (name : Text) : Safe (actDisplayName env name) := by
  refine (safe_loadFormat env name false).bind (fun _ => ?_)
  refine orderly_recollect_bind (fun m h => ?_)
  cases hold : kvhashLookup m.formats name with
  | none => exact safe_warn_pure _ _
  | some b =>
    obtain ⟨package, hpackage⟩ := Option.isSome_iff_exists.mp (h name b hold).1
    refine orderly_observe_bind (fun s => ?_)
    simp only [hpackage]
    exact (safe_answer _).bind (fun _ => orderly_pure _)

end Actions

section Enable
variable (env : Env)

/-- Looking for the record of a name ends badly exactly where nobody asks whether there is
one: under --test, with no file and no cached record. A file that holds none is noticed. -/
theorem crashed_enableFormat_iff (name : Text) (s : Store) {m : Memory} (h : Filled m.formats) :
    ((enableFormat env name).run s m).outcome = .crashed ↔
      env.test = true ∧ s.file name = none ∧ kvhashLookup m.formats name = none := by
  rcases loadFormat_cases env name false s m with ⟨m', hrun, hformats, hintact⟩ | ⟨m', hrun, -⟩
  · have hintact : Intact s name := hintact.resolve_left Bool.false_ne_true
    have hlookup : kvhashLookup m'.formats name = visible s m.formats name := by
      rw [hformats, lookup_remembered_self]
    have hfilled : Filled m'.formats := hformats ▸ filled_remembered h s name
    rw [enableFormat, Prog.run_bind_returned hrun, replay_nil, Ran.after_nil,
      Prog.run_recollect_bind, hlookup]
    cases hvis : visible s m.formats name with
    | none =>
      obtain ⟨hfile, hnone⟩ := missing_of_visible hintact hvis
      by_cases htest : env.test = true
      · simp [htest, hfile, hnone]
      · refine iff_of_false ?_ (fun hall => htest hall.1)
        simp only [htest, Bool.false_eq_true, if_false]
        exact (safe_warn_pure _ _ s m' hfilled).1
    | some b =>
      have hb := (hfilled name b (hlookup.trans hvis)).2
      have hrest : Safe (needDetector env name b >>= fun detector => Actions.register env name
          (registrationOf name b (chooseInterpreter env b detector))) :=
        (safe_needDetector env name hb).bind (fun detector => safe_register env name _)
      refine iff_of_false (hrest s m' hfilled).1 (fun hall => ?_)
      rw [visible, hall.2.2, record_of_missing hall.2.1] at hvis
      cases hvis
  · rw [enableFormat, Prog.run_bind_exited hrun]
    refine iff_of_false (by simp) (fun hall => ?_)
    rw [run_loadFormat_missing env name false s m hall.2.1] at hrun
    cases hrun

/-- act_enable for a name under --test, or without. -/
theorem crashed_actEnableName_iff (name : Text) (s : Store) {m : Memory} (h : Filled m.formats) :
    ((actEnableName env name).run s m).outcome = .crashed ↔
      env.test = true ∧ s.kernel.procExists name = false ∧ s.file name = none ∧
        kvhashLookup m.formats name = none := by
  cases htest : env.test with
  | true =>
    have hload : (loadBinfmtMisc env).run s m =
        ⟨.returned true, { m with answers := m.answers ++ [.load] }, []⟩ := by
      rw [loadBinfmtMisc, if_pos htest]
      rfl
    rw [actEnableName, Prog.run_bind_returned hload, replay_nil, Ran.after_nil, if_pos rfl,
      Prog.run_observe_bind]
    cases hex : s.kernel.procExists name with
    | true =>
      refine iff_of_false ?_ (by simp)
      exact (safe_warn_pure (.alreadyEnabled name) true s _ h).1
    | false =>
      rw [if_neg Bool.false_ne_true, crashed_enableFormat_iff env name s (by exact h), htest]
      simp
  | false =>
    refine iff_of_false ?_ (by simp)
    obtain ⟨r, m', es, hload, hformats, -⟩ := loadBinfmtMisc_cases env htest s m
    have h' : Filled m'.formats := hformats ▸ h
    rw [actEnableName, Prog.run_bind_returned hload, Ran.outcome_after]
    cases r with
    | false => simp
    | true =>
      rw [if_pos rfl, Prog.run_observe_bind]
      split
      · exact (safe_warn_pure (.alreadyEnabled name) true _ m' h').1
      · rw [crashed_enableFormat_iff env name _ h']
        simp [htest]

end Enable

inductive Action
  | enable
  | disable
  | remove (package : Text)
  | display
deriving DecidableEq

def perform (env : Env) (name : Text) : Action → Act Bool
  | .enable => actEnable env (some name)
  | .disable => actDisable env (some name)
  | .remove package => actRemove env name package
  | .display => actDisplay env (some name)

/-- No action on a name uses a record that is missing, except that act_enable does so under
--test where the name is neither in procdir nor in the database. -/
theorem perform_crashed_iff (env : Env) (name : Text) (action : Action) (s : Store) (m : Memory)
    (h : Filled m.formats) : ((perform env name action).run s m).outcome ≠ .crashed ↔
      ¬ (action = .enable ∧ env.test = true ∧ s.kernel.procExists name = false ∧
        s.file name = none ∧ kvhashLookup m.formats name = none) := by
  cases action with
  | enable =>
    rw [not_iff_not, and_iff_right rfl]
    exact crashed_actEnableName_iff env name s h
  | disable => exact iff_of_true (safe_actDisableName env name s m h).1 (by simp)
  | remove package => exact iff_of_true (safe_actRemove env name package s m h).1 (by simp)
  | display => exact iff_of_true (safe_actDisplayName env name s m h).1 (by simp)

def wineKnown : Memory :=
  let record := (busyStore []).record (text "wine")
  { Memory.fresh with formats := remembered ∅ (text "wine") record }

/-- It shows how it would enable the other one. -/
theorem perform_enable_stored :
    ((perform { plainEnv with test := true } (text "jar") .enable).run (busyStore [wineEntry])
      wineKnown).outcome ≠ .crashed :=
  (perform_crashed_iff { plainEnv with test := true } (text "jar") .enable (busyStore [wineEntry])
    wineKnown (filled_remembered filled_fresh _ _)).mpr (by decide +kernel)

/-- Under --test, --enable for a name that nobody has installed uses the absent record;
without --test it says that the name is not in the database. -/
theorem enable_missing_crashes : Filled Memory.fresh.formats ∧
    ((perform { plainEnv with test := true } (text "jar") .enable).run emptyStore
      Memory.fresh).outcome = .crashed ∧
    ((perform plainEnv (text "jar") .enable).run emptyStore Memory.fresh).outcome =
      .returned false :=
  ⟨filled_fresh, by decide +kernel, by decide +kernel⟩

end BinfmtSupport.Presence
