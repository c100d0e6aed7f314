import BinfmtSupport.Batch
import BinfmtSupport.TableRehearsal

/-!
The rehearsal of an import. What happens to a file depends on the stored record of its name
and on what act_install finds; after an installation the names of the other files are as they
were, in the stores of the real process as in those of the rehearsing one.
-/
namespace BinfmtSupport.ImportRehearsal

open CText Kvhash Format Regstring Journal Stores Actions Loading Enabling Installing
open AllFormats Records Rejection Replacement Steady Rehearsal TableRehearsal

/-- A name for a new format: the kernel has no entry of it, no temporary file is in the way,
an older file can be read, and the module can be loaded. -/
structure Vacant (env : Env) (s : Store) (name : Text) : Prop where
  named : name ≠ []
  entry : s.kernel.hasEntry name = false
  tmp : s.file (tmpName name) = none
  intact : Intact s name
  loadable : loads env s = true

def Withheld (s : Store) (id : Text) (import_ : Arguments) : Prop :=
  ∃ old package, s.record id = some old ∧ old.package = some package ∧
    (package = [colon] ∨ ∀ b, binfmtNew import_ = .ok (.ok b) → b.package ≠ some package)

/-- A file that is installed when it is imported, and whose line the kernel takes. -/
structure Admitted (env : Env) (s : Store) (id : Text) (import_ : Arguments) : Prop
    extends Vacant env s id where
  colonless : colon ∉ id
  magic : ∀ b, binfmtNew import_ = .ok (.ok b) → b.magic.isSome = true
  takes : ∀ b, binfmtNew import_ = .ok (.ok b) → ∀ c, (s.record id).getD b = c → ∀ d, ∃ e,
    entryOf (decodeLine (registrationOf id c (chooseInterpreter env c d)).regstring) = some e ∧
      env.accepts e = true

/-- What the two processes share before the files of these names are imported. -/
structure Between (env : Env) (u : Store) (m : Memory) (s : Store) (n : Memory)
    (names : List Text) : Prop where
  agree : Agree u m s n
  magic : ∀ key c, visible u m.formats key = some c → c.magic.isSome = true
  loadable : loads env s = true → loads env u = true
  record : ∀ id ∈ names, visible u m.formats id = s.record id
  entry : ∀ id ∈ names, u.kernel.hasEntry id = s.kernel.hasEntry id
  tmp : ∀ id ∈ names, u.file (tmpName id) = s.file (tmpName id)

def Expected (env : Env) (s : Store) (name : Text) : Prop :=
  ∀ content, env.files (importPath env name).1 = some content →
    Withheld s (importPath env name).2 (importTable content) ∨
      Admitted env s (importPath env name).2 (importTable content)

structure ExpectedAll (env : Env) (s : Store) : Prop where
  distinct : env.importNames.Nodup
  plain : ∀ name ∈ env.importNames, slash ∉ name
  apart : ∀ name ∈ env.importNames, ∀ other ∈ env.importNames, other ≠ tmpName name
  each : ∀ name ∈ env.importNames, Expected env s name

def ExpectedImport (env : Env) (s : Store) : Option Text → Prop
  | some name => Expected env s name
  | none => ExpectedAll env s

section Import
variable {env : Env} {s u : Store} {m m' n : Memory} {name path id : Text} {es : List Effect}

/-- An import that returns 1 has read a file. -/
theorem content_of_actImportName (hrel : Reliable env) (hpath : importPath env name = (path, id))
    (hrun : (actImportName env name).run u m = ⟨.returned true, m', es⟩) :
    ∃ content, env.files path = some content ∧ isReserved id = false ∧
      (importTable content).entries.isEmpty = false := by
  simp only [actImportName, hpath] at hrun
  cases hres : isReserved id with
  | true =>
    rw [hres, if_pos rfl] at hrun
    cases hrun
  | false =>
    rw [hres, if_neg Bool.false_ne_true] at hrun
    cases hfile : env.files path with
    | none =>
      simp only [getImport, hfile] at hrun
      cases hrun
    | some content =>
      refine ⟨content, rfl, rfl, ?_⟩
      rw [Prog.run_bind_returned (Batch.run_getImport hrel hfile u m)] at hrun
      cases hempty : (importTable content).entries.isEmpty with
      | false => rfl
      | true =>
        simp only [hempty, if_true] at hrun
        cases hrun

/-- Without a record an installation does not come to its end, over an older record or under
a free name. -/
theorem actInstall_null_ne_returned (htest : env.test = false) (hrel : Reliable env)
    (h : (visible u m.formats id).isSome = true ∨ u.kernel.hasEntry id = false ∧
      isDirectoryName id = false ∧ isControlName id = false) (r : Bool) :
    (actInstall env id none).run u m ≠ ⟨.returned r, m', es⟩ := by
  intro hrun
  obtain ⟨m₁, hload, hf₁, -⟩ := run_loadFormat hrel id u m
  rw [run_actInstall_loaded hload] at hrun
  cases hnone : kvhashLookup m₁.formats id with
  | none =>
    rw [run_comparePackages_free hnone] at hrun
    obtain ⟨hentry, hdir, hctl⟩ : u.kernel.hasEntry id = false ∧
        isDirectoryName id = false ∧ isControlName id = false := by
      rw [hf₁, lookup_remembered_self] at hnone
      simpa [hnone] using h
    rcases replaceFormat_cases env htest id none u m₁ with
      ⟨m₂, -, -, hex⟩ | ⟨m₂, fs, -, -, -, -, hfails⟩ | ⟨m₂, drop, -, -, -, -, hreplace⟩
    · rw [procExists_of_noEntry hdir hctl hentry] at hex
      cases hex
    · rw [dropFails_of_reliable env hrel, hdir, hctl] at hfails
      cases hfails
    · obtain ⟨m₃, hnull⟩ := run_installFile_null env id htest (replay drop u) m₂
      rw [ok_of_reliable hrel, ok_of_reliable hrel, if_pos rfl, if_pos rfl] at hnull
      rw [hreplace, hnull] at hrun
      cases hrun
  | some old =>
    rw [run_comparePackages_null hnone] at hrun
    cases hrun

/-- Nor does one without a package over an older record. -/
theorem actInstall_unpackaged_ne_returned (hrel : Reliable env) {b old : Binfmt}
    (hold : visible u m.formats id = some old) (hb : b.package = none) (r : Bool) :
    (actInstall env id (some b)).run u m ≠ ⟨.returned r, m', es⟩ := by
  intro hrun
  obtain ⟨m₁, hload, hf₁, -⟩ := run_loadFormat hrel id u m
  have hlook : kvhashLookup m₁.formats id = some old := by
    rw [hf₁, lookup_remembered_self, hold]
  rw [run_actInstall_loaded hload, run_comparePackages_unpackaged hlook (Or.inl hb)] at hrun
  cases hrun

/-- The kernel takes a line of a name that it does not have. -/
theorem enabling_of_takes (htest : env.test = false) (hdir : isDirectoryName name = false)
    (hctl : isControlName name = false) (hentry : u.kernel.hasEntry name = false)
    (hcolon : colon ∉ name) {r : Registration} (hname : r.name = name)
    (htakes : ∃ e, entryOf (decodeLine r.regstring) = some e ∧ env.accepts e = true) :
    (enabling env u name r).1 = true := by
  obtain ⟨e, he, haccepts⟩ := htakes
  have hename : e.name = name :=
    (Footprint.name_of_colonless he (hname ▸ hcolon)).trans hname
  have hentries := entries_replay_of_setup _ u (setup_isSetup htest u)
  have hfree : (replay (setup env u) u).kernel.procExists e.name = false := by
    rw [hename]
    refine procExists_of_noEntry hdir hctl ?_
    rw [Kernel.hasEntry, hentries]
    exact hentry
  have hacc : accepted env (replay (setup env u) u).kernel r = some e := by
    simp [accepted, he, hfree, haccepts]
  unfold enabling
  split
  · rw [hacc]
  · rfl

/-- An import that returns 1 has made a record of its file. -/
theorem record_of_importRecord (htest : env.test = false) (hrel : Reliable env)
    (h : (visible u m.formats id).isSome = true ∨ u.kernel.hasEntry id = false ∧
      isDirectoryName id = false ∧ isControlName id = false) {import_ : Arguments}
    (hrun : (importRecord env path id import_).run u m = ⟨.returned true, m', es⟩) :
    kvhashExists import_ (text "package") = true ∧ ∃ b, binfmtNew import_ = .ok (.ok b) := by
  rw [importRecord] at hrun
  cases hexists : kvhashExists import_ (text "package") with
  | false =>
    rw [hexists, if_neg Bool.false_ne_true] at hrun
    cases hrun
  | true =>
    refine ⟨rfl, ?_⟩
    rw [hexists, if_pos rfl] at hrun
    cases hnew : binfmtNew import_ with
    | error value =>
      simp only [hnew] at hrun
      split at hrun <;> cases hrun
    | ok made =>
      cases made with
      | ok b => exact ⟨b, rfl⟩
      | error why =>
        -- the NULL goes on to act_install, which crashes
        exfalso
        have hnull : ∀ k : Memory, k.formats = m.formats →
            ((warn (.rejected path why) >>= fun _ => actInstall env id none >>= fun _ =>
              pure true : Act Bool)).run u k ≠ ⟨.returned true, m', es⟩ := by
          intro k hk hcrash
          rw [run_warn_bind] at hcrash
          obtain ⟨r, m₁, fs, gs, hone, -, -⟩ := Prog.returned_of_run_bind hcrash
          refine actInstall_null_ne_returned htest hrel ?_ r hone
          rw [← hk] at h
          exact h
        simp only [hnew] at hrun
        cases hfound : (argument import_ "interpreter").any env.executable with
        | true =>
          rw [hfound] at hrun
          exact hnull m rfl hrun
        | false =>
          rw [hfound, if_pos (by simp), run_warn_bind] at hrun
          exact hnull (m.warned _) rfl hrun

theorem Between.views {names : List Text} (h : Between env u m s n names) {m₁ n₁ : Memory}
    (hview : ∀ key, visible u m₁.formats key = visible u m.formats key)
    (hview' : ∀ key, visible s n₁.formats key = visible s n.formats key) :
    Between env u m₁ s n₁ names where
  agree key := by rw [hview', hview, h.agree]
  magic key c hc := h.magic key c ((hview key).symm.trans hc)
  loadable := h.loadable
  record id hid := (hview id).trans (h.record id hid)
  entry := h.entry
  tmp := h.tmp

theorem Between.tail {names : List Text} (h : Between env u m s n (id :: names)) :
    Between env u m s n names where
  agree := h.agree
  magic := h.magic
  loadable := h.loadable
  record other hother := h.record other (List.mem_cons_of_mem id hother)
  entry other hother := h.entry other (List.mem_cons_of_mem id hother)
  tmp other hother := h.tmp other (List.mem_cons_of_mem id hother)

/-- An installation takes nothing from the names that are still to come. -/
theorem Between.installed {rest : List Text} (h : Between env u m s n (id :: rest))
    (htest : env.test = false) (hrel : Reliable env) (hdir : isDirectoryName id = false)
    (hctl : isControlName id = false) (hentry : u.kernel.hasEntry id = false)
    (hloads : loads env u = true) (hcolon : colon ∉ id)
    (hother : ∀ other ∈ rest, other ≠ id ∧ tmpName other ≠ id) {b c : Binfmt}
    (hmagic : c.magic.isSome = true) {r : Registration} (hr : r.name = id)
    (hes : es = placing u id b ++ (enabling env (replay (placing u id b) u) id r).2) {n' : Memory}
    (hview : ∀ key, visible (replay es u) m'.formats key =
      if key = id then some c else visible u m.formats key)
    (hview' : ∀ key, visible s n'.formats key =
      if key = id then some c else visible s n.formats key) :
    Between env (replay es u) m' s n' rest := by
  obtain ⟨-, hkernel⟩ := kernel_replay_placing (b := b) (procExists_of_noEntry hdir hctl hentry)
  obtain ⟨hreg, hentries⟩ :=
    frame_enabling htest ((loads_congr hkernel).trans hloads) hr hcolon
  have hadm := admindir_replay_of_noFiles _ (replay (placing u id b) u)
    (files_of_enabling htest (replay (placing u id b) u) id r)
  have hreplay : replay es u = replay (enabling env (replay (placing u id b) u) id r).2
      (replay (placing u id b) u) := by rw [hes, replay_append]
  rw [← hreplay] at hreg hentries hadm
  rw [hkernel] at hentries
  have htail := h.tail
  constructor
  case agree =>
    intro key
    rw [hview, hview', h.agree]
  case magic =>
    intro key c' hc'
    rw [hview] at hc'
    split at hc'
    · cases hc'
      exact hmagic
    · exact h.magic key c' hc'
  case loadable => exact fun _ => loads_of_hasRegister htest hrel hreg
  case record =>
    intro other hmem
    rw [hview, if_neg (hother other hmem).1]
    exact htail.record other hmem
  case entry =>
    intro other hmem
    rw [hentries other (hother other hmem).1]
    exact htail.entry other hmem
  case tmp =>
    intro other hmem
    have hne : tmpName other ≠ tmpName id :=
      fun heq => (hother other hmem).1 (List.append_cancel_right heq)
    have hfile : (replay es u).file (tmpName other) =
        (replay (placing u id b) u).file (tmpName other) := by
      simp only [Store.file, hadm]
    rw [hfile, file_replay_placing hdir hctl, if_neg (hother other hmem).2, if_neg hne]
    exact htail.tmp other hmem

/-- A file that nothing stands in the way of is installed in both processes. -/
theorem rehearse_admitted {rest : List Text} (h : Between env u m s n (id :: rest))
    (htest : env.test = false) (hrel : Reliable env) (hres : isReserved id = false)
    (hother : ∀ other ∈ rest, other ≠ id ∧ tmpName other ≠ id) {import_ : Arguments}
    (hadm : Admitted env s id import_) {b : Binfmt} (hnew : binfmtNew import_ = .ok (.ok b))
    (howner : ∀ old, visible u m.formats id = some old →
      old.package = b.package ∧ b.package.isSome = true) {r : Bool}
    (hrun : (actInstall env id (some b)).run u m = ⟨.returned r, m', es⟩) :
    ∃ r' n', (actInstall (trial env) id (some b)).run s n = ⟨.returned r', n', []⟩ ∧
      demonstrated n' = demonstrated n ++ performed es u ∧
      Between env (replay es u) m' s n' rest := by
  obtain ⟨hdir, hctl⟩ := plain_of_unreserved hadm.named hres
  have hmem : id ∈ id :: rest := List.mem_cons_self
  have hentry : u.kernel.hasEntry id = false := (h.entry id hmem).trans hadm.entry
  have htmp : u.file (tmpName id) = none := (h.tmp id hmem).trans hadm.tmp
  have hloads := h.loadable hadm.loadable
  have hb := Batch.loads_of_accepted hnew
  obtain ⟨c, hc⟩ : ∃ c, (visible u m.formats id).getD b = c := ⟨_, rfl⟩
  have hmagic : c.magic.isSome = true := hc ▸ magic_getD h.magic (hadm.magic b hnew)
  have hcomp : Comparable u m.formats id c := comparable_of_magic hmagic h.magic
  obtain ⟨-, hkernel⟩ := kernel_replay_placing (b := b) (procExists_of_noEntry hdir hctl hentry)
  obtain ⟨m₁, d, -, hreal, -⟩ :=
    run_actInstall_vacant htest hrel hdir hctl hentry htmp hb howner hc hcomp
  have htrue := enabling_of_takes htest hdir hctl (u := replay (placing u id b) u)
    (by rw [hkernel]; exact hentry) hadm.colonless rfl
    (hadm.takes b hnew c (by rw [← h.record id hmem]; exact hc) d)
  rw [htrue, hrun] at hreal
  simp only [Ran.mk.injEq, Outcome.returned.injEq] at hreal
  rw [hreal.1] at hrun
  obtain ⟨⟨line, hline, hes⟩, hview, n', htrial, hshow, hview'⟩ := rehearse_actInstall htest hrel
    hdir hctl h.agree hentry hadm.entry hloads hadm.intact htmp hb howner hc hcomp hrun
  exact ⟨true, n', htrial, hshow, h.installed htest hrel hdir hctl hentry hloads hadm.colonless
    hother hmagic hline hes hview hview'⟩

/-- act_install of an imported record, which may turn out to belong to another package. -/
theorem rehearse_imported {rest : List Text} (h : Between env u m s n (id :: rest))
    (htest : env.test = false) (hrel : Reliable env) (hres : isReserved id = false)
    (hother : ∀ other ∈ rest, other ≠ id ∧ tmpName other ≠ id) {import_ : Arguments}
    (hready : Withheld s id import_ ∨ Admitted env s id import_)
    (hlocal : ∀ old, s.record id = some old → old.package ≠ some [colon]) {b : Binfmt}
    (hnew : binfmtNew import_ = .ok (.ok b)) {r : Bool}
    (hrun : (actInstall env id (some b)).run u m = ⟨.returned r, m', es⟩) :
    ∃ r' n', (actInstall (trial env) id (some b)).run s n = ⟨.returned r', n', []⟩ ∧
      demonstrated n' = demonstrated n ++ performed es u ∧
      Between env (replay es u) m' s n' rest := by
  have hrecord := h.record id List.mem_cons_self
  cases hv : visible u m.formats id with
  | none =>
    rcases hready with ⟨old, package, hold, -, -⟩ | hadm
    · rw [← hrecord, hv] at hold
      cases hold
    · exact rehearse_admitted h htest hrel hres hother hadm hnew (by simp [hv]) hrun
  | some old =>
    have hold : s.record id = some old := hrecord.symm.trans hv
    obtain ⟨oldPackage, hq⟩ := package_of_record hold
    by_cases hsame : b.package = some oldPackage
    · -- the file replaces the stored record
      have hadm : Admitted env s id import_ := by
        rcases hready with ⟨old', package, hold', hpackage, hwhy⟩ | hadm
        · rw [hold] at hold'
          cases hold'
          rcases hwhy with rfl | hwhy
          · exact absurd hpackage (hlocal old hold)
          · exact absurd (hsame.trans (hq.symm.trans hpackage)) (hwhy b hnew)
        · exact hadm
      refine rehearse_admitted h htest hrel hres hother hadm hnew ?_ hrun
      rw [hv]
      rintro _ ⟨⟩
      exact ⟨hq.trans hsame.symm, by rw [hsame]; rfl⟩
    · cases hp : b.package with
      | none => exact absurd hrun (actInstall_unpackaged_ne_returned hrel hv hp r)
      | some package =>
        have hne : package ≠ oldPackage := by
          rintro rfl
          exact hsame hp
        obtain ⟨m₁, hreal, hview, -⟩ := run_actInstall_foreign hrel hv hp hq hne
        have hrel' : Reliable (trial env) := hrel
        obtain ⟨n₁, htrial, hview', hquiet⟩ := run_actInstall_foreign hrel'
          ((h.agree id).trans hv) hp hq hne
        rw [hreal] at hrun
        cases hrun
        refine ⟨false, n₁, htrial, ?_, h.tail.views hview hview'⟩
        rw [demonstrated, hquiet, performed_nil, List.append_nil]
        rfl

/-- act_import after the checks of the stored record. -/
theorem rehearse_importRecord {rest : List Text} (h : Between env u m s n (id :: rest))
    (htest : env.test = false) (hrel : Reliable env) (hres : isReserved id = false)
    (hother : ∀ other ∈ rest, other ≠ id ∧ tmpName other ≠ id) {import_ : Arguments}
    (hready : Withheld s id import_ ∨ Admitted env s id import_)
    (hlocal : ∀ old, s.record id = some old → old.package ≠ some [colon])
    (hrun : (importRecord env path id import_).run u m = ⟨.returned true, m', es⟩) :
    ∃ n', (importRecord (trial env) path id import_).run s n = ⟨.returned true, n', []⟩ ∧
      demonstrated n' = demonstrated n ++ performed es u ∧
      Between env (replay es u) m' s n' rest := by
  have hname : (visible u m.formats id).isSome = true ∨ u.kernel.hasEntry id = false ∧
      isDirectoryName id = false ∧ isControlName id = false := by
    rcases hready with ⟨old, -, hold, -⟩ | hadm
    · rw [h.record id List.mem_cons_self, hold]
      exact Or.inl rfl
    · exact Or.inr ⟨(h.entry id List.mem_cons_self).trans hadm.entry,
        plain_of_unreserved hadm.named hres⟩
  obtain ⟨hexists, b, hnew⟩ := record_of_importRecord htest hrel hname hrun
  obtain ⟨m₁, hf₁, -, hreal⟩ := Batch.run_importRecord env path id hnew hexists u m
  obtain ⟨n₁, hf₁', hquiet, htrial⟩ := Batch.run_importRecord (trial env) path id hnew hexists
    s n
  have hview : ∀ key, visible u m₁.formats key = visible u m.formats key :=
    fun key => by rw [hf₁]
  have hview' : ∀ key, visible s n₁.formats key = visible s n.formats key :=
    fun key => by rw [hf₁']
  rw [hreal] at hrun
  obtain ⟨r, m₂, fs, gs, hone, hend, rfl⟩ := Prog.returned_of_run_bind hrun
  cases hend
  obtain ⟨r', n', hone', hshow, hnext⟩ := rehearse_imported
    (h.views hview hview') htest hrel
    hres hother hready hlocal hnew hone
  rw [List.append_nil]
  refine ⟨n', ?_, ?_, hnext⟩
  · rw [htrial, Prog.run_bind_returned hone']
    rfl
  · rw [hshow, demonstrated, hquiet]
    rfl

/-- One file in both processes. -/
theorem rehearse_actImportName {rest : List Text} (h : Between env u m s n (id :: rest))
    (htest : env.test = false) (hrel : Reliable env) (hpath : importPath env name = (path, id))
    (hother : ∀ other ∈ rest, other ≠ id ∧ tmpName other ≠ id) (hready : Expected env s name)
    (hrun : (actImportName env name).run u m = ⟨.returned true, m', es⟩) :
    ∃ n', (actImportName (trial env) name).run s n = ⟨.returned true, n', []⟩ ∧
      demonstrated n' = demonstrated n ++ performed es u ∧
      Between env (replay es u) m' s n' rest := by
  obtain ⟨content, hfile, hres, hnonempty⟩ := content_of_actImportName hrel hpath hrun
  have hready' := hready content (by rw [hpath]; exact hfile)
  rw [hpath] at hready'
  rw [Batch.run_actImportName_read hrel hpath hfile hres hnonempty] at hrun
  have hrel' : Reliable (trial env) := hrel
  rw [Batch.run_actImportName_read hrel' hpath hfile hres hnonempty]
  have hrecord := h.record id List.mem_cons_self
  obtain ⟨m₁, hload, hf₁, -⟩ := run_loadFormat hrel id u m.tick
  obtain ⟨n₁, hload', hf₁', hquiet⟩ := run_loadFormat hrel' id s n.tick
  have hnext : Between env u m₁ s n₁ (id :: rest) := by
    refine h.views ?_ ?_
    · rw [hf₁]
      exact sameView_remembered u m.formats id
    · rw [hf₁']
      exact sameView_remembered s n.formats id
  have hlook : kvhashLookup m₁.formats id = s.record id := by
    rw [hf₁, lookup_remembered_self]
    exact hrecord
  have hlook' : kvhashLookup n₁.formats id = s.record id := by
    rw [hf₁', lookup_remembered_self]
    exact (h.agree id).trans hrecord
  have hshown : demonstrated n₁ = demonstrated n := by
    rw [demonstrated, hquiet]
    rfl
  rw [← hshown]
  by_cases hlocal : ∃ old, s.record id = some old ∧ old.package = some [colon]
  · obtain ⟨old, hold, hp⟩ := hlocal
    rw [run_importUnlessLocal_local hload (hlook.trans hold) hp] at hrun
    cases hrun
    refine ⟨n₁.warned (.preservingLocalChanges id),
      run_importUnlessLocal_local hload' (hlook'.trans hold) hp, ?_,
      hnext.tail.views (fun _ => rfl) (fun _ => rfl)⟩
    rw [performed_nil, List.append_nil]
    rfl
  · have hother' : ∀ old, s.record id = some old → old.package ≠ some [colon] :=
      fun old hold hp => hlocal ⟨old, hold, hp⟩
    rw [run_importUnlessLocal_record hload
      (fun old hold => package_of_record (hlook.symm.trans hold))
      (fun old hold => hother' old (hlook.symm.trans hold))] at hrun
    rw [run_importUnlessLocal_record hload'
      (fun old hold => package_of_record (hlook'.symm.trans hold))
      (fun old hold => hother' old (hlook'.symm.trans hold))]
    exact rehearse_importRecord hnext htest hrel hres hother hready' hother' hrun

theorem rehearse_importEach (htest : env.test = false) (hrel : Reliable env) (names : List Text)
    (hdistinct : names.Nodup) (hplain : ∀ name ∈ names, slash ∉ name)
    (hapart : ∀ name ∈ names, ∀ other ∈ names, other ≠ tmpName name)
    (hready : ∀ name ∈ names, Expected env s name) (h : Between env u m s n names)
    (hrun : (importEach env names).run u m = ⟨.returned true, m', es⟩) :
    ∃ n', (importEach (trial env) names).run s n = ⟨.returned true, n', []⟩ ∧
      demonstrated n' = demonstrated n ++ performed es u := by
  induction names generalizing u m n es with
  | nil =>
    cases hrun
    exact ⟨n, rfl, (List.append_nil _).symm⟩
  | cons name rest ih =>
    rw [List.nodup_cons] at hdistinct
    have hplain' := fun other hother => hplain other (List.mem_cons_of_mem name hother)
    have hready' := fun other hother => hready other (List.mem_cons_of_mem name hother)
    have hapart' : ∀ first ∈ rest, ∀ other ∈ rest, other ≠ tmpName first := fun first hfirst other
      hother => hapart first (List.mem_cons_of_mem name hfirst) other
        (List.mem_cons_of_mem name hother)
    rw [importEach] at hrun ⊢
    cases hfile : (env.files (env.importdir ++ [slash] ++ name)).isSome with
    | false =>
      rw [hfile, if_neg Bool.false_ne_true] at hrun
      have hfile' : ((trial env).files ((trial env).importdir ++ [slash] ++ name)).isSome = false :=
        hfile
      rw [hfile', if_neg Bool.false_ne_true]
      exact ih hdistinct.2 hplain' hapart' hready' h.tail hrun
    | true =>
      rw [hfile, if_pos rfl] at hrun
      have hfile' : ((trial env).files ((trial env).importdir ++ [slash] ++ name)).isSome = true :=
        hfile
      rw [hfile', if_pos rfl]
      obtain ⟨worked, m₁, fs, hs, hone, hmore, rfl⟩ := Prog.returned_of_run_bind hrun
      obtain ⟨others, m₂, gs, ks, hrest, hend, rfl⟩ := Prog.returned_of_run_bind hmore
      rw [Prog.run_pure] at hend
      simp only [Ran.mk.injEq, Outcome.returned.injEq, Bool.and_eq_true] at hend
      obtain ⟨⟨rfl, rfl⟩, rfl, rfl⟩ := hend
      have hpath : importPath env name = (env.importdir ++ [slash] ++ name, name) :=
        if_neg (hplain name List.mem_cons_self)
      obtain ⟨n₁, htrial, hshow, hnext⟩ := rehearse_actImportName h htest hrel hpath
        (fun other hother => ⟨fun heq => hdistinct.1 (heq ▸ hother),
          (hapart other (List.mem_cons_of_mem name hother) name List.mem_cons_self).symm⟩)
        (hready name List.mem_cons_self) hone
      obtain ⟨n', htrial', hshow'⟩ := ih hdistinct.2 hplain' hapart' hready' hnext hrest
      refine ⟨n', ?_, ?_⟩
      · rw [Prog.run_bind_returned htrial, replay_nil, Prog.run_bind_returned htrial']
        rfl
      · rw [hshow', hshow, List.append_nil, performed_append, List.append_assoc]

/-- Two processes that start from the same stores. -/
theorem between_fresh (env : Env) (s : Store) (m : Memory) (hm : m.formats = ∅)
    (names : List Text) : Between env s m s m names where
  agree _ := rfl
  magic := magic_of_view (hm ▸ visible_empty s)
  loadable := id
  record id _ := by rw [hm, visible_empty]
  entry _ _ := rfl
  tmp _ _ := rfl

theorem rehearse_actImport (htest : env.test = false) (hrel : Reliable env) (given : Option Text)
    (hready : ExpectedImport env s given)
    (hrun : (actImport env given).run s Memory.fresh = ⟨.returned true, m', es⟩) :
    demonstrated ((actImport (trial env) given).run s Memory.fresh).memory = performed es s := by
  cases given with
  | some name =>
    obtain ⟨n', htrial, hshow, -⟩ := rehearse_actImportName
      (between_fresh env s Memory.fresh rfl [_]) htest hrel rfl (by simp) hready hrun
    rw [actImport, htrial]
    exact hshow
  | none =>
    rw [actImport, run_succeeds_bind, ok_of_reliable hrel, if_pos rfl] at hrun
    have hrel' : Reliable (trial env) := hrel
    rw [actImport, run_succeeds_bind, ok_of_reliable hrel', if_pos rfl]
    obtain ⟨n', htrial, hshow⟩ := rehearse_importEach htest hrel env.importNames hready.distinct
      hready.plain hready.apart hready.each (between_fresh env s Memory.fresh.tick rfl _) hrun
    change demonstrated ((importEach (trial env) env.importNames).run s _).memory = _
    rw [htrial]
    exact hshow

end Import
end BinfmtSupport.ImportRehearsal
