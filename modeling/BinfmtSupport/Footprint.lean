import BinfmtSupport.AllFormats
import BinfmtSupport.Triples

/-!
What an operation on one format can touch: the file of its name, the temporary file beside
it, and kernel entries of its name, where the kernel ends a name at its first colon.
Invariants that none of these effects can break survive the operation at every point,
whatever fails, and so does what they say about the table of formats.
-/
namespace BinfmtSupport.Footprint

open CText Kvhash Format Regstring Journal Stores Actions Loading Enabling Installing Triples

def entryName (name : Text) : Text := name.takeWhile (fun c => c ≠ colon)

theorem entryName_eq_self {name : Text} (h : colon ∉ name) : entryName name = name := by
  apply List.takeWhile_eq_self_iff.mpr
  intro c hc
  have hne : c ≠ colon := fun hcolon => h (hcolon ▸ hc)
  simpa using hne

/-- A name without a colon arrives in the kernel as it is. -/
theorem name_of_colonless {r : Registration} {e : Entry}
    (h : entryOf (decodeLine r.regstring) = some e) (hcolon : colon ∉ r.name) :
    e.name = r.name :=
  (name_of_entryOf h).trans (entryName_eq_self hcolon)

def OfEnable (name : Text) : Effect → Prop
  | .register _ entry => entry.name = entryName name
  | e => e.isSetup = true

def OfDisable (name : Text) : Effect → Prop
  | .dropEntry entry => entry = name
  | e => e.isSetup = true

def OfWrite (name : Text) : Effect → Prop
  | .unlink file => file = tmpName name
  | .create file => file = tmpName name
  | .append file _ => file = tmpName name
  | _ => False

def On (name : Text) (e : Effect) : Prop :=
  OfEnable name e ∨ OfDisable name e ∨ OfWrite name e ∨ e = .rename (tmpName name) name ∨
    e = .unlink name

theorem On.entry_register {name : Text} {r : Registration} {e : Entry}
    (h : On name (.register r e)) : e.name = entryName name := by
  simpa [On, OfEnable, OfDisable, OfWrite, Effect.isSetup] using h

theorem On.entry_dropped {name entry : Text} (h : On name (.dropEntry entry)) : entry = name := by
  simpa [On, OfEnable, OfDisable, OfWrite, Effect.isSetup] using h

/-- Such effects leave all files but two alone. -/
theorem On.files {name file : Text} {e : Effect} (h : On name e) (hne : file ≠ name)
    (htmp : file ≠ tmpName name) : file ∉ e.files := by
  rcases h with h | h | h | rfl | rfl
  · cases e <;> simp_all [OfEnable, Effect.files, Effect.isSetup]
  · cases e <;> simp_all [OfDisable, Effect.files, Effect.isSetup]
  · cases e <;> simp_all [OfWrite, Effect.files]
  · simp [Effect.files, hne, htmp]
  · simp [Effect.files, hne]

def Kept (E : Effect → Prop) (I : Store → Prop) : Prop := ∀ e s, E e → I s → I (e.apply s)

/-- Two invariants, of the stores and of the table, that no operation on this name breaks:
neither by its effects nor by what it loads, inserts or deletes. -/
structure Apart (name : Text) (I : Store → Prop) (T : Table Text Binfmt → Prop) : Prop where
  effect : Kept (On name) I
  load : ∀ s t key, I s → T t → T (remembered t key (s.record key))
  insert : ∀ t b, T t → T (kvhashInsert t name b)
  delete : ∀ t, T t → T (kvhashDelete t name)

abbrev Keeps {α : Type} (I : Store → Prop) (T : Table Text Binfmt → Prop) (p : Act α) : Prop :=
  Stays I (fun m : Memory => T m.formats) p

def AnyTable (_ : Table Text Binfmt) : Prop := True

section Calls
variable (env : Env) {I : Store → Prop} {T : Table Text Binfmt → Prop}

theorem keeps_answer (a : Answer) : Keeps I T (answer a) := stays_remember (fun _ h => h)

theorem keeps_warn (w : Warning) : Keeps I T (warn w) := stays_remember (fun _ h => h)

theorem keeps_quit {α : Type} (w : Warning) : Keeps I T (quit w : Act α) :=
  (keeps_warn w).bind (fun _ => stays_exit 2)

/-- Warn and give back a value: how most of the error branches end. -/
theorem keeps_warn_pure {α : Type} (w : Warning) (a : α) :
    Keeps I T (warn w >>= fun _ => pure a) := (keeps_warn w).bind (fun _ => stays_pure a)

theorem keeps_nextFault : Keeps I T (nextFault env) :=
  triple_of_run (fun _ m h => ⟨_, m.tick, [], rfl, along_nil.mpr h.1, fun _ _ => h⟩)

theorem keeps_succeeds : Keeps I T (succeeds env) := by
  refine (keeps_nextFault env).bind (fun fault => ?_)
  cases fault <;> exact stays_pure _

theorem keeps_emit {E : Effect → Prop} (h : Kept E I) {e : Effect} (he : E e) :
    Keeps I T (Prog.emit e : Act PUnit) := stays_emit (fun s hs => h e s he hs)

/-- One effect, and a value to return. -/
theorem keeps_emit_pure {E : Effect → Prop} (h : Kept E I) {e : Effect} {α : Type} (a : α)
    (he : E e) : Keeps I T (Prog.emit e >>= fun _ => pure a : Act α) :=
  (keeps_emit h he).bind (fun _ => stays_pure a)

/-- Deleting a file if it is there. -/
theorem keeps_unlinkFile {file : Text} (h : ∀ s, I s → I ((Effect.unlink file).apply s)) :
    Keeps I T (unlinkFile env file) := by
  refine (keeps_succeeds env).bind (fun ok => ?_)
  split
  · refine stays_observe_bind (fun s => ?_)
    split
    · exact Stays.bind (stays_emit h) (fun _ => stays_pure _)
    · exact stays_pure _
  · exact stays_pure _

end Calls

section Loading
variable (env : Env) {I : Store → Prop} {T : Table Text Binfmt → Prop}
  (hload : ∀ s t key, I s → T t → T (remembered t key (s.record key)))
include hload

theorem keeps_loadFormat (key : Text) (quiet : Bool) : Keeps I T (loadFormat env key quiet) := by
  refine triple_of_run (fun s m h => ?_)
  rcases loadFormat_cases env key quiet s m with ⟨m', hrun, hformats, -⟩ | ⟨m', hrun, -⟩
  · refine ⟨_, m', [], hrun, along_nil.mpr h.1, fun _ _ => ⟨h.1, ?_⟩⟩
    change T m'.formats
    rw [hformats]
    exact hload s m.formats key h.1 h.2
  · exact ⟨_, m', [], hrun, along_nil.mpr h.1, fun _ hb => by cases hb⟩

theorem keeps_loadAllFormats (quiet : Bool) : Keeps I T (loadAllFormats env quiet) := by
  have hnames : ∀ names, Keeps I T (loadFormats env quiet names) := by
    intro names
    induction names with
    | nil => exact stays_pure _
    | cons key rest ih => exact (keeps_loadFormat env hload key quiet).bind (fun _ => ih)
  refine (keeps_succeeds env).bind (fun ok => ?_)
  split
  · exact stays_observe_bind (fun s => hnames _)
  · exact keeps_quit _

theorem keeps_needDetector (name : Text) (b : Binfmt) : Keeps I T (needDetector env name b) := by
  have hscan : ∀ t keys, Keeps I T (scanFormats name b t keys) := by
    intro t keys
    refine triple_of_run (fun s m h => ?_)
    rcases scanFormats_cases name b t keys s m with ⟨hrun, -⟩ | ⟨hrun, -⟩ | ⟨hrun, -⟩
    · exact ⟨_, m, [], hrun, along_nil.mpr h.1, fun _ _ => h⟩
    · exact ⟨_, m, [], hrun, along_nil.mpr h.1, fun _ _ => h⟩
    · exact ⟨_, m, [], hrun, along_nil.mpr h.1, fun _ hb => by cases hb⟩
  rw [needDetector]
  split
  · exact stays_pure _
  · refine (keeps_loadAllFormats env hload true).bind (fun _ => ?_)
    exact stays_recollect_bind (fun m => hscan _ _)

end Loading

section Steps
variable (env : Env) {name : Text} {I : Store → Prop} {T : Table Text Binfmt → Prop}

theorem keeps_loadBinfmtMisc (h : Kept (fun e => e.isSetup = true) I) :
    Keeps I T (loadBinfmtMisc env) := by
  have hmodule : Keeps I T (loadModule env) := by
    refine stays_observe_bind (fun s => ?_)
    split
    · refine (keeps_succeeds env).bind (fun ok => ?_)
      split
      · exact keeps_emit_pure h _ rfl
      · exact keeps_warn_pure _ _
    · exact stays_pure _
  have hmount : Keeps I T (mountFilesystem env) := by
    refine stays_observe_bind (fun s => ?_)
    split
    · refine (keeps_succeeds env).bind (fun ok => ?_)
      split
      · exact keeps_emit_pure h _ rfl
      · exact keeps_warn_pure _ _
    · exact stays_pure _
  have hswitch : Keeps I T (switchOn env) := by
    refine stays_observe_bind (fun s => ?_)
    split
    · refine (keeps_succeeds env).bind (fun ok => ?_)
      split
      · exact keeps_emit_pure h _ rfl
      · exact keeps_warn_pure _ _
    · exact keeps_warn_pure _ _
  rw [loadBinfmtMisc]
  split
  · exact (keeps_answer _).bind (fun _ => stays_pure _)
  · refine hmodule.bind (fun loaded => ?_)
    split
    · refine stays_observe_bind (fun s => ?_)
      split
      · refine hmount.bind (fun mounted => ?_)
        split
        · exact hswitch
        · exact stays_pure _
      · exact keeps_warn_pure _ _
    · exact stays_pure _

theorem keeps_register (h : Kept (OfEnable name) I) (r : Registration) (hname : r.name = name) :
    Keeps I T (Actions.register env name r) := by
  have hwrite : Keeps I T (writeRegister env r) := by
    refine (keeps_nextFault env).bind (fun fault => ?_)
    cases fault with
    | none =>
      refine stays_observe_bind (fun s => ?_)
      cases hacc : accepted env s.kernel r with
      | none => exact stays_pure _
      | some e =>
        have he : e.name = entryName name := by
          rw [name_of_entryOf (entry_of_accepted env hacc).1, hname]
          rfl
        exact keeps_emit_pure h _ he
    | error written => exact stays_pure _
    | ignored => exact stays_pure _
  rw [Actions.register]
  split
  · exact (keeps_answer _).bind (fun _ => stays_pure _)
  · refine (keeps_succeeds env).bind (fun ok => ?_)
    split
    · refine hwrite.bind (fun written => ?_)
      split
      · exact stays_pure _
      · exact keeps_warn_pure _ _
    · exact keeps_warn_pure _ _

theorem kept_setup_of_enable (h : Kept (OfEnable name) I) :
    Kept (fun e => e.isSetup = true) I := by
  intro e s he
  apply h
  cases e <;> simp_all [OfEnable, Effect.isSetup]

theorem keeps_actEnableName (h : Kept (OfEnable name) I)
    (hload : ∀ s t key, I s → T t → T (remembered t key (s.record key))) :
    Keeps I T (actEnableName env name) := by
  have hformat : Keeps I T (enableFormat env name) := by
    refine (keeps_loadFormat env hload name false).bind (fun _ => ?_)
    refine stays_recollect_bind (fun m => ?_)
    cases kvhashLookup m.formats name with
    | none =>
      simp only
      split
      · exact stays_crash
      · exact keeps_warn_pure _ _
    | some b =>
      refine (keeps_needDetector env hload name b).bind (fun detector => ?_)
      exact keeps_register env h _ rfl
  refine (keeps_loadBinfmtMisc env (kept_setup_of_enable h)).bind (fun loaded => ?_)
  split
  · refine stays_observe_bind (fun s => ?_)
    split
    · exact keeps_warn_pure _ _
    · exact hformat
  · exact stays_pure _

theorem keeps_actDisableName (h : Kept (OfDisable name) I) :
    Keeps I T (actDisableName env name) := by
  have hminus : Keeps I T (writeMinusOne env name) := by
    refine (keeps_nextFault env).bind (fun fault => ?_)
    cases fault with
    | none =>
      simp only
      split
      · exact stays_pure _
      · split
        · exact keeps_emit_pure h _ rfl
        · exact keeps_emit_pure h _ rfl
    | error written => exact stays_pure _
    | ignored => exact stays_pure _
  have hdrop : Keeps I T (Actions.dropEntry env name) := by
    refine (keeps_succeeds env).bind (fun ok => ?_)
    split
    · split
      · exact keeps_warn_pure _ _
      · refine hminus.bind (fun written => ?_)
        split
        · refine stays_observe_bind (fun s => ?_)
          split
          · exact keeps_warn_pure _ _
          · exact stays_pure _
        · exact keeps_warn_pure _ _
    · exact keeps_warn_pure _ _
  refine stays_observe_bind (fun s => ?_)
  split
  · split
    · split
      · exact (keeps_answer _).bind (fun _ => stays_pure _)
      · exact hdrop
    · exact stays_pure _
  · exact stays_pure _

/-- Writing the temporary file, whether or not there is a record to write. -/
theorem keeps_binfmtWrite (h : Kept (OfWrite name) I) (b : Option Binfmt) :
    Keeps I T (binfmtWrite env b (tmpName name)) := by
  have happend : ∀ bytes, Keeps I T (appendBytes (tmpName name) bytes) := by
    intro bytes
    induction bytes with
    | nil => exact stays_pure _
    | cons byte rest ih =>
      exact Stays.bind (keeps_emit h (e := .append (tmpName name) byte) rfl) (fun _ => ih)
  have hcontents : ∀ content, Keeps I T (writeContents env (tmpName name) content) := by
    intro content
    refine (keeps_nextFault env).bind (fun fault => ?_)
    cases fault <;> exact (happend _).bind (fun _ => stays_pure _)
  rw [binfmtWrite.eq_def]
  refine (keeps_unlinkFile env (fun s => h (.unlink (tmpName name)) s rfl)).bind (fun gone => ?_)
  split
  · refine (keeps_succeeds env).bind (fun ok => ?_)
    split
    · refine Stays.bind (keeps_emit h (e := .create (tmpName name)) rfl) (fun _ => ?_)
      cases b with
      | none => exact stays_crash
      | some b =>
        refine (hcontents _).bind (fun written => ?_)
        split
        · exact stays_pure _
        · exact keeps_warn_pure _ _
    · exact keeps_warn_pure _ _
  · exact keeps_warn_pure _ _

theorem keeps_renameMv (h : ∀ s, I s → I ((Effect.rename (tmpName name) name).apply s)) :
    Keeps I T (renameMv env (tmpName name) name) := by
  have htry : Keeps I T (tryRename env (tmpName name) name) := by
    refine (keeps_succeeds env).bind (fun ok => ?_)
    split
    · split
      · exact stays_pure _
      · exact Stays.bind (stays_emit h) (fun _ => stays_pure _)
    · exact stays_pure _
  refine htry.bind (fun moved => ?_)
  split
  · exact stays_pure _
  · exact htry

/-- act_install keeps what disabling the name and writing its file keep. -/
theorem keeps_actInstall_of_file {b : Option Binfmt}
    (hload : ∀ s t key, I s → T t → T (remembered t key (s.record key)))
    (hdisable : Keeps I T (actDisableName env name)) (hfile : Keeps I T (installFile env name b)) :
    Keeps I T (actInstall env name b) := by
  have hmanual : Keeps I T (installUnlessManual env name b) := by
    refine stays_observe_bind (fun s => ?_)
    split
    · exact keeps_warn_pure _ _
    · exact hfile
  have hreplace : Keeps I T (replaceFormat env name b) := by
    refine stays_observe_bind (fun s => ?_)
    split
    · refine hdisable.bind (fun worked => ?_)
      split
      · exact hmanual
      · exact keeps_warn_pure _ _
    · exact hmanual
  rw [actInstall.eq_def]
  refine (keeps_loadFormat env hload name true).bind (fun _ => ?_)
  refine stays_recollect_bind (fun m => ?_)
  split
  · exact hreplace
  · split
    · exact stays_crash
    · split
      · split
        · exact hreplace
        · exact keeps_warn_pure _ _
      · exact stays_crash

end Steps

section Actions
variable (env : Env) {name : Text} {I : Store → Prop} {T : Table Text Binfmt → Prop}
  (h : Apart name I T)
include h

theorem Apart.enable : Kept (OfEnable name) I := fun e s he => h.effect e s (Or.inl he)

theorem Apart.disable : Kept (OfDisable name) I := fun e s he => h.effect e s (Or.inr (Or.inl he))

theorem Apart.write : Kept (OfWrite name) I :=
  fun e s he => h.effect e s (Or.inr (Or.inr (Or.inl he)))

theorem Apart.move (s : Store) (hs : I s) : I ((Effect.rename (tmpName name) name).apply s) :=
  h.effect _ s (Or.inr (Or.inr (Or.inr (Or.inl rfl)))) hs

theorem Apart.unlink (s : Store) (hs : I s) : I ((Effect.unlink name).apply s) :=
  h.effect _ s (Or.inr (Or.inr (Or.inr (Or.inr rfl)))) hs

theorem keeps_installFile (b : Option Binfmt) : Keeps I T (installFile env name b) := by
  have hinstalled : ∀ b, Keeps I T (enableInstalled env name b) := by
    intro b
    have hinsert : Keeps I T (Prog.remember (fun m : Memory =>
        { m with formats := kvhashInsert m.formats name b }) : Act PUnit) :=
      stays_remember (fun m hm => h.insert m.formats b hm)
    refine hinsert.bind (fun _ => (keeps_actEnableName env h.enable h.load).bind (fun worked => ?_))
    split
    · exact stays_pure _
    · exact keeps_warn_pure _ _
  rw [installFile.eq_def]
  split
  · cases b with
    | none => exact stays_crash
    | some b => exact (keeps_answer _).bind (fun _ => hinstalled b)
  · refine (keeps_binfmtWrite env h.write b).bind (fun written => ?_)
    split
    · refine (keeps_renameMv env h.move).bind (fun moved => ?_)
      split
      · cases b with
        | none => exact stays_crash
        | some b => exact hinstalled b
      · exact keeps_warn_pure _ _
    · exact stays_pure _

/-- An installation under this name keeps the invariants, and so does one of no record. -/
theorem keeps_actInstall (b : Option Binfmt) : Keeps I T (actInstall env name b) :=
  keeps_actInstall_of_file env h.load (keeps_actDisableName env h.disable)
    (keeps_installFile env h b)

theorem keeps_actRemove (package : Text) : Keeps I T (actRemove env name package) := by
  have hfile : Keeps I T (removeFile env name) := by
    rw [removeFile]
    split
    · exact (keeps_answer _).bind (fun _ => stays_pure _)
    · refine (keeps_succeeds env).bind (fun ok => ?_)
      split
      · refine Stays.bind (stays_emit h.unlink) (fun _ => ?_)
        have hdelete : Keeps I T (Prog.remember (fun m : Memory =>
            { m with formats := kvhashDelete m.formats name }) : Act PUnit) :=
          stays_remember (fun m hm => h.delete m.formats hm)
        exact hdelete.bind (fun _ => stays_pure _)
      · exact keeps_warn_pure _ _
  have hformat : Keeps I T (removeFormat env name) := by
    refine (keeps_actDisableName env h.disable).bind (fun worked => ?_)
    split
    · exact hfile
    · exact keeps_warn_pure _ _
  refine stays_observe_bind (fun s => ?_)
  split
  · refine (keeps_loadFormat env h.load name true).bind (fun _ => ?_)
    refine stays_recollect_bind (fun m => ?_)
    cases kvhashLookup m.formats name with
    | none => exact hformat
    | some old =>
      cases hpackage : old.package with
      | none =>
        simp only [hpackage]
        exact stays_crash
      | some oldPackage =>
        simp only [hpackage]
        split
        · exact hformat
        · exact keeps_warn_pure _ _
  · exact keeps_warn_pure _ _

end Actions

section Import
variable (env : Env) {I : Store → Prop} {T : Table Text Binfmt → Prop}

/-- The table that get_import hands over is the one of the format file. -/
theorem triple_getImport (path : Text) :
    Triple I (fun s m => I s ∧ T m.formats) (getImport env path)
      (fun r s m => (I s ∧ T m.formats) ∧ ∀ import_, r = some import_ →
        ∃ content, env.files path = some content ∧ import_ = importTable content) := by
  have hnone : Triple I (fun s m => I s ∧ T m.formats) (do
        warn (.unableToOpen path)
        return none : Act (Option Arguments))
      (fun r s m => (I s ∧ T m.formats) ∧ ∀ import_, r = some import_ →
        ∃ content, env.files path = some content ∧ import_ = importTable content) :=
    Triple.bind (keeps_warn _)
      (fun _ => triple_pure (fun _ _ h => h.1) (fun _ _ h => ⟨h, fun _ hr => by cases hr⟩))
  rw [getImport.eq_def]
  cases hfile : env.files path with
  | none =>
    rw [hfile] at hnone
    exact hnone
  | some content =>
    refine Triple.bind (keeps_succeeds env) (fun ok => ?_)
    split
    · refine triple_pure (fun _ _ h => h.1) (fun _ _ h => ⟨h, ?_⟩)
      intro import_ hr
      exact ⟨content, rfl, (Option.some.inj hr).symm⟩
    · rw [hfile] at hnone
      exact hnone

/-- Importing keeps what loading and installing under the name keep. -/
theorem keeps_actImportName {path : Text}
    (hload : ∀ s t key, I s → T t → T (remembered t key (s.record key)))
    (hinstall : ∀ b, Keeps I T (actInstall env (importPath env path).2 b)) :
    Keeps I T (actImportName env path) := by
  rcases hpath : importPath env path with ⟨file, id⟩
  rw [hpath] at hinstall
  have hdone : ∀ b, Keeps I T (actInstall env id b >>= fun _ => pure true) :=
    fun b => (hinstall b).bind (fun _ => stays_pure _)
  have hrecord : ∀ import_, Keeps I T (importRecord env file id import_) := by
    intro import_
    rw [importRecord]
    split
    · cases binfmtNew import_ with
      | error value =>
        simp only
        split
        · exact (keeps_warn _).bind (fun _ => keeps_quit _)
        · exact keeps_quit _
      | ok result =>
        cases result with
        | error why =>
          have hnull := (keeps_warn (I := I) (T := T) (.rejected file why)).bind
            (fun _ => hdone none)
          simp only
          split
          · exact (keeps_warn _).bind (fun _ => hnull)
          · exact hnull
        | ok b =>
          simp only
          split
          · exact (keeps_warn _).bind (fun _ => hdone (some b))
          · exact hdone (some b)
    · exact keeps_warn_pure _ _
  have hunless : ∀ import_, Keeps I T (importUnlessLocal env file id import_) := by
    intro import_
    refine (keeps_loadFormat env hload id true).bind (fun _ => ?_)
    refine stays_recollect_bind (fun m => ?_)
    cases kvhashLookup m.formats id with
    | none => exact hrecord import_
    | some b =>
      cases hpackage : b.package with
      | none =>
        simp only [hpackage]
        exact stays_crash
      | some package =>
        simp only [hpackage]
        split
        · exact keeps_warn_pure _ _
        · exact hrecord import_
  rw [actImportName.eq_def, hpath]
  simp only
  split
  · exact keeps_warn_pure _ _
  · have himport : Keeps I T (getImport env file) :=
      (triple_getImport env file).conseq (fun _ _ hP => hP) (fun _ _ _ hQ => hQ.1)
    refine himport.bind (fun table => ?_)
    cases table with
    | none => exact keeps_warn_pure _ _
    | some import_ =>
      simp only
      split
      · exact keeps_warn_pure _ _
      · exact hunless import_

def imported : Option Text → List Text
  | some path => [path]
  | none => env.importNames

/-- A run of imports keeps what each of them keeps. -/
theorem keeps_actImport (import_ : Option Text)
    (h : ∀ path ∈ imported env import_, Keeps I T (actImportName env path)) :
    Keeps I T (actImport env import_) := by
  cases import_ with
  | some path => exact h path List.mem_cons_self
  | none =>
    have heach : ∀ names, (∀ path ∈ names, path ∈ env.importNames) →
        Keeps I T (importEach env names) := by
      intro names
      induction names with
      | nil => exact fun _ => stays_pure _
      | cons path rest ih =>
        intro hmem
        have hrest := ih (fun p hp => hmem p (List.mem_cons_of_mem path hp))
        rw [importEach]
        split
        · refine (h path (hmem path List.mem_cons_self)).bind (fun worked => ?_)
          exact hrest.bind (fun others => stays_pure _)
        · exact hrest
    refine (keeps_succeeds env).bind (fun ok => ?_)
    split
    · exact heach env.importNames (fun _ hp => hp)
    · exact keeps_warn_pure _ _

end Import
end BinfmtSupport.Footprint
