import BinfmtSupport.Batch
import BinfmtSupport.Ownership
import BinfmtSupport.TableRehearsal

/-!
One --import run over the whole directory, and one process for each file of it. The run never
forgets a record: for a format that it has upgraded it goes on with the record from before,
while a fresh process reads the new one. What each of them knows after some files have been
installed is written down from the database at the start and from the files, and the two leave
the same stores as long as for every file the same follows from either.
-/
namespace BinfmtSupport.Together

open CText Kvhash Format Regstring Journal Stores Actions Loading Enabling Installing
open AllFormats CommandLine Records Rejection Replacement Steady Footprint Failure Ownership
open TableRehearsal Batch

/-- The record that binfmt_new makes of the file of this name in importdir. -/
def newRecord (env : Env) (name : Text) : Option Binfmt :=
  match env.files (env.importdir ++ [slash] ++ name) with
  | some content =>
      match binfmtNew (importTable content) with
      | .ok (.ok b) => some b
      | _ => none
  | none => none

/-- What is known of each name once some files have been installed and the temporary files of
some names are gone: of an installed one something new, of all others what was stored. -/
def overlaid (new : Text → Option Binfmt) (s : Store) (placed gone : List Text) (key : Text) :
    Option Binfmt :=
  if key ∈ placed then new key else if key ∈ gone.map tmpName then none else s.record key

section Condition
variable (env : Env) (s : Store)

/-- The run keeps the first record that it has of a name. -/
def held (placed gone : List Text) : Text → Option Binfmt :=
  overlaid (fun key => (s.record key).or (newRecord env key)) s placed gone

/-- On the disk there is the new one, as it is read. -/
def onDisk (placed gone : List Text) : Text → Option Binfmt :=
  overlaid (fun key => (newRecord env key).map reread) s placed gone

def SharedIn (view : Text → Option Binfmt) (name : Text) (c : Binfmt) : Prop :=
  ∃ key, key ≠ name ∧ ∃ other, view key = some other ∧ binfmtEquals c other = some true

def ComparableIn (view : Text → Option Binfmt) (name : Text) (c : Binfmt) : Prop :=
  ∀ key, key ≠ name → ∀ other, view key = some other → binfmtEquals c other ≠ none

/-- The records that the run holds and those on the disk say the same of whether a format needs
a detector. A leftover temporary file that has been removed may still be known to the run. -/
structure Alike (placed : List Text) (name : Text) (c : Binfmt) : Prop where
  comparable : ComparableIn (held env s placed (name :: placed)) name c
  comparable' : ComparableIn (onDisk env s placed (name :: placed)) name c
  shared : SharedIn (held env s placed (name :: placed)) name c ↔
    SharedIn (onDisk env s placed (name :: placed)) name c
  leftover : ∀ g ∈ name :: placed, ∀ r, s.record (tmpName g) = some r →
    binfmtEquals c r = some false ∨
      binfmtEquals c r = some true ∧ SharedIn (onDisk env s placed (name :: placed)) name c

/-- No earlier file of another name registers its format under this one. -/
def Unnamed (earlier : List Text) (g : Text) : Prop := ∀ n ∈ earlier, n ≠ g → entryName n ≠ g

def Admitted (g : Text) (b : Binfmt) : Prop :=
  newRecord env g = some b ∧ isReserved g = false ∧ Replaceable s ∅ g b

/-- The file may be installed: it is admitted, and no manual entry has its name. -/
def MayInstall (earlier : List Text) (g : Text) (b : Binfmt) : Prop :=
  Admitted env s g b ∧ (Unnamed earlier g → ¬ Manual s g)

/-- The file is installed for sure: its name is stored, or the kernel has no entry of it. -/
def MustInstall (earlier : List Text) (g : Text) (b : Binfmt) : Prop :=
  Admitted env s g b ∧
    ((s.file g).isSome = true ∨ Unnamed earlier g ∧ s.kernel.hasEntry g = false)

/-- These may be the files that have been installed after the earlier ones. -/
structure Installs (earlier placed : List Text) : Prop where
  among : ∀ g ∈ placed, g ∈ earlier ∧ ∃ b, MayInstall env s earlier g b
  all : ∀ g ∈ earlier, ∀ b, MustInstall env s earlier g b → g ∈ placed

/-- The entries of importdir are distinct, none is the temporary file of another, and
what is stored at the start and what the earlier files bring leads the run and a fresh process
to the same line for each file that may be installed. -/
structure Consistent : Prop where
  distinct : env.importNames.Nodup
  apart : ∀ name ∈ env.importNames, ∀ other ∈ env.importNames, other ≠ tmpName name
  agree : ∀ earlier name later b, env.importNames = earlier ++ name :: later →
    MayInstall env s earlier name b → ∀ placed, Installs env s earlier placed →
      hasDetector ((s.record name).getD b) = true ∨
        Alike env s placed name ((s.record name).getD b)

/-- The stores and the memory of the run after the earlier files, of which it has installed
some. -/
structure After (earlier placed : List Text) (u : Store) (m : Memory) : Prop where
  installs : Installs env s earlier placed
  file : ∀ key, u.file key = if key ∈ placed then (newRecord env key).map Binfmt.contents
    else if key ∈ placed.map tmpName then none else s.file key
  known : ∀ key, key ∉ placed.map tmpName → visible u m.formats key = held env s placed placed key
  leftover : ∀ g ∈ placed, ∀ r, visible u m.formats (tmpName g) = some r →
    s.record (tmpName g) = some r
  entry : ∀ g, g ∉ placed → Unnamed earlier g →
    entriesNamed u.kernel g = entriesNamed s.kernel g
  register : s.kernel.hasRegister = true → u.kernel.hasRegister = true

end Condition

section Facts
variable {env : Env} {s u : Store} {m : Memory} {earlier placed gone : List Text}
  {name key g : Text} {b c : Binfmt}

theorem newRecord_of_importable (h : Importable env name b) : newRecord env name = some b := by
  obtain ⟨content, hfile, hnew⟩ := h.file
  simp only [newRecord, hfile, hnew]

theorem contents_load (h : newRecord env key = some b) :
    (binfmtLoad b.contents).toOption = some (reread b) := by
  unfold newRecord at h
  split at h
  · split at h
    · rename_i hnew
      cases h
      rw [binfmtLoad_contents b (accepted_of_binfmtNew hnew).fields_noNewline]
      rfl
    · cases h
  · cases h

theorem tmpName_injective : Function.Injective tmpName := fun _ _ h => List.append_cancel_right h

theorem hasEntry_of_entriesNamed {k k' : Kernel} (h : entriesNamed k' g = entriesNamed k g) :
    k'.hasEntry g = k.hasEntry g := by
  have hany : ∀ l : Kernel, l.hasEntry g = true ↔ ∃ e, e ∈ entriesNamed l g := by
    intro l
    simp [Kernel.hasEntry, entriesNamed]
  rw [Bool.eq_iff_iff, hany, hany, h]

theorem Unnamed.fewer {later : List Text} (h : Unnamed (earlier ++ later) g) : Unnamed earlier g :=
  fun n hn => h n (List.mem_append_left later hn)

/-- What is said of the earlier files is said of more of them as well. -/
theorem Installs.among_append (h : Installs env s earlier placed) (later : List Text) :
    ∀ g ∈ placed, g ∈ earlier ++ later ∧ ∃ b, MayInstall env s (earlier ++ later) g b := by
  intro g hg
  obtain ⟨hmem, b, hadmitted, hmanual⟩ := h.among g hg
  exact ⟨List.mem_append_left later hmem, b, hadmitted, fun hun => hmanual hun.fewer⟩

theorem Installs.all_append (h : Installs env s earlier placed) (later : List Text) :
    ∀ g ∈ earlier, ∀ b, MustInstall env s (earlier ++ later) g b → g ∈ placed := by
  rintro g hg b ⟨hadmitted, hwhy⟩
  exact h.all g hg b ⟨hadmitted, hwhy.imp_right (fun h => ⟨h.1.fewer, h.2⟩)⟩

theorem after_start (s : Store) {m : Memory} (hm : m.formats = ∅) : After env s [] [] s m := by
  refine ⟨⟨fun g hg => ?_, fun g hg => ?_⟩, fun key => ?_, fun key _ => ?_, fun g hg => ?_,
    fun _ _ _ => rfl, id⟩
  · cases hg
  · cases hg
  · simp
  · rw [hm, visible_empty]
    simp [held, overlaid]
  · cases hg

end Facts

section Views
variable {env : Env} {s u : Store} {m : Memory} {earlier placed : List Text}
  {name key : Text} {b c : Binfmt}

/-- The file comes next: it is none of the installed ones, and their names and temporary files
do not meet its own. -/
structure Next (earlier placed : List Text) (name : Text) : Prop where
  sub : ∀ g ∈ placed, g ∈ earlier
  new : name ∉ earlier
  untouched : ∀ g ∈ name :: earlier, ∀ other ∈ name :: earlier, other ≠ tmpName g

theorem Next.notMem (h : Next earlier placed name) : name ∉ placed :=
  fun hin => h.new (h.sub name hin)

theorem Next.notTmp (h : Next earlier placed name) : name ∉ placed.map tmpName := by
  intro hin
  obtain ⟨g, hg, heq⟩ := List.mem_map.mp hin
  exact h.untouched g (List.mem_cons_of_mem name (h.sub g hg)) name List.mem_cons_self heq.symm

theorem Next.tmp_notMem (h : Next earlier placed name) {g : Text} (hg : g ∈ name :: placed) :
    tmpName g ∉ placed := by
  intro hin
  have hg' : g ∈ name :: earlier := by
    rcases List.mem_cons.mp hg with rfl | hg
    · exact List.mem_cons_self
    · exact List.mem_cons_of_mem name (h.sub g hg)
  exact h.untouched g hg' (tmpName g) (List.mem_cons_of_mem name (h.sub _ hin)) rfl

/-- The run and a fresh process begin with the same record of the next name. -/
theorem After.visible_name (h : After env s earlier placed u m) (hnext : Next earlier placed name) :
    visible u m.formats name = s.record name := by
  rw [h.known name hnext.notTmp, held, overlaid, if_neg hnext.notMem, if_neg hnext.notTmp]

theorem After.file_name (h : After env s earlier placed u m) (hnext : Next earlier placed name) :
    u.file name = s.file name := by
  rw [h.file, if_neg hnext.notMem, if_neg hnext.notTmp]

/-- What a fresh process reads once the temporary file of the next name is gone. -/
theorem After.record_withoutTmp (h : After env s earlier placed u m)
    (hnext : Next earlier placed name) (key : Text) :
    (withoutTmp u name).record key = onDisk env s placed (name :: placed) key := by
  have hfile := file_withoutTmp u name key
  rw [h.file] at hfile
  rw [onDisk, overlaid, List.map_cons]
  by_cases hplaced : key ∈ placed
  · have hne : key ≠ tmpName name := fun heq =>
      hnext.tmp_notMem List.mem_cons_self (heq ▸ hplaced)
    rw [if_neg hne, if_pos hplaced] at hfile
    rw [if_pos hplaced]
    cases hnew : newRecord env key with
    | none =>
      rw [hnew] at hfile
      exact record_of_missing hfile
    | some b =>
      rw [hnew] at hfile
      exact (record_of_file hfile).trans (contents_load hnew)
  · rw [if_neg hplaced] at hfile ⊢
    by_cases htmp : key = tmpName name
    · rw [if_pos htmp] at hfile
      rw [if_pos (htmp ▸ List.mem_cons_self), record_of_missing hfile]
    · rw [if_neg htmp] at hfile
      by_cases hgone : key ∈ placed.map tmpName
      · rw [if_pos hgone] at hfile
        rw [if_pos (List.mem_cons_of_mem _ hgone), record_of_missing hfile]
      · rw [if_neg hgone] at hfile
        rw [if_neg (fun hin => (List.mem_cons.mp hin).elim htmp hgone), record_congr hfile]

/-- A name whose temporary file is not the one that goes is seen as before. -/
theorem visible_withoutTmp (u : Store) (t : Table Text Binfmt) (hne : key ≠ tmpName name) :
    visible (withoutTmp u name) t key = visible u t key := by
  have hfile : (withoutTmp u name).file key = u.file key := by
    rw [file_withoutTmp, if_neg hne]
  rw [visible, visible, record_congr hfile]

/-- Where the run looks for the spec of the next format it finds what it holds, or the record
of a temporary file that is gone. -/
theorem After.visible_cases (h : After env s earlier placed u m) (hnext : Next earlier placed name)
    (key : Text) :
    visible (withoutTmp u name) m.formats key = held env s placed (name :: placed) key ∨
      held env s placed (name :: placed) key = none ∧ (∃ g ∈ name :: placed, tmpName g = key) ∧
        ∀ r, visible (withoutTmp u name) m.formats key = some r → s.record key = some r := by
  by_cases hgone : key ∈ (name :: placed).map tmpName
  · obtain ⟨g, hg, rfl⟩ := List.mem_map.mp hgone
    refine Or.inr ⟨?_, ⟨g, hg, rfl⟩, fun r hr => ?_⟩
    · rw [held, overlaid, if_neg (hnext.tmp_notMem hg), if_pos hgone]
    · have hseen : visible u m.formats (tmpName g) = some r := by
        by_cases hname : g = name
        · have hnone : (withoutTmp u name).record (tmpName g) = none := by
            rw [hname]
            exact record_of_missing (by rw [file_withoutTmp, if_pos rfl])
          rw [visible, hnone, Option.or_none] at hr
          rw [visible, hr]
          rfl
        · rwa [visible_withoutTmp u _ (fun heq => hname (tmpName_injective heq))] at hr
      rcases List.mem_cons.mp hg with rfl | hg
      · have hkept : tmpName g ∉ placed.map tmpName := fun hin => by
          obtain ⟨g', hg', heq⟩ := List.mem_map.mp hin
          exact hnext.notMem (tmpName_injective heq ▸ hg')
        rw [h.known _ hkept, held, overlaid, if_neg (hnext.tmp_notMem List.mem_cons_self),
          if_neg hkept] at hseen
        exact hseen
      · exact h.leftover g hg r hseen
  · left
    have hkept : key ∉ placed.map tmpName := fun hin => hgone (List.mem_cons_of_mem _ hin)
    have hne : key ≠ tmpName name := by
      rintro rfl
      exact hgone List.mem_cons_self
    rw [visible_withoutTmp u _ hne, h.known key hkept, held, held, overlaid, overlaid,
      if_neg hkept, if_neg hgone]

/-- Whether it needs a detector or not, the line of the next format is the same for the run and
for a fresh process. -/
theorem After.alike (h : After env s earlier placed u m) (hnext : Next earlier placed name)
    (halike : hasDetector c = true ∨ Alike env s placed name c) :
    Comparable (withoutTmp u name) m.formats name c ∧ Comparable (withoutTmp u name) ∅ name c ∧
      (NeedsDetector (withoutTmp u name) m.formats name c ↔
        NeedsDetector (withoutTmp u name) ∅ name c) := by
  rcases halike with hdet | halike
  · exact ⟨Or.inl hdet, Or.inl hdet, iff_of_true (Or.inl hdet) (Or.inl hdet)⟩
  · have hdisk : ∀ key, visible (withoutTmp u name) ∅ key =
        onDisk env s placed (name :: placed) key :=
      fun key => (visible_empty _ key).trans (h.record_withoutTmp hnext key)
    have hshared : Shared (withoutTmp u name) ∅ name c ↔
        SharedIn (onDisk env s placed (name :: placed)) name c := by
      simp only [Shared, SharedIn, hdisk]
    refine ⟨Or.inr (fun key hne other hother => ?_), Or.inr (fun key hne other hother => ?_), ?_⟩
    · rcases h.visible_cases hnext key with hheld | ⟨-, ⟨g, hg, rfl⟩, hrecord⟩
      · exact halike.comparable key hne other (hheld ▸ hother)
      · rcases halike.leftover g hg other (hrecord other hother) with hfalse | ⟨htrue, -⟩
        · rw [hfalse]
          exact Option.some_ne_none false
        · rw [htrue]
          exact Option.some_ne_none true
    · exact halike.comparable' key hne other ((hdisk key).symm.trans hother)
    · refine or_congr Iff.rfl ⟨?_, fun hin => ?_⟩
      · rintro ⟨key, hne, other, hother, hequal⟩
        rw [hshared]
        rcases h.visible_cases hnext key with hheld | ⟨-, ⟨g, hg, rfl⟩, hrecord⟩
        · exact halike.shared.mp ⟨key, hne, other, hheld ▸ hother, hequal⟩
        · rcases halike.leftover g hg other (hrecord other hother) with hfalse | ⟨-, hin⟩
          · rw [hfalse] at hequal
            cases hequal
          · exact hin
      · obtain ⟨key, hne, other, hother, hequal⟩ := halike.shared.mpr (hshared.mp hin)
        refine ⟨key, hne, other, ?_, hequal⟩
        rcases h.visible_cases hnext key with hheld | ⟨hnone, -⟩
        · exact hheld.trans hother
        · rw [hnone] at hother
          cases hother

end Views

section Steps
variable {env : Env} {s u : Store} {m m' : Memory} {earlier placed : List Text}
  {name : Text} {b c : Binfmt} {d : Bool}

theorem replaceable_congr {s u : Store} {t t' : Table Text Binfmt}
    (h : visible u t' name = visible s t name) :
    Replaceable u t' name b ↔ Replaceable s t name b := by
  simp only [Replaceable, h]

/-- The run and a fresh process come to the same decision about the next file. It is to
install the file just if no older record and no manual entry keep it out. -/
theorem After.decision (h : After env s earlier placed u m) (hnext : Next earlier placed name)
    (halike : Replaceable s ∅ name b → ¬ Manual u name →
      hasDetector ((s.record name).getD b) = true ∨
        Alike env s placed name ((s.record name).getD b)) :
    (∃ d, Decision u m.formats name b (some ((s.record name).getD b, d)) ∧
      Decision u ∅ name b (some ((s.record name).getD b, d)) ∧
      Replaceable s ∅ name b ∧ ¬ Manual u name) ∨
    Decision u m.formats name b none ∧ Decision u ∅ name b none ∧
      (Replaceable s ∅ name b → Manual u name) := by
  have hrun := h.visible_name hnext
  have hfresh : visible u ∅ name = s.record name :=
    (visible_empty u name).trans (record_congr (h.file_name hnext))
  have hown := replaceable_congr (b := b) (hrun.trans (visible_empty s name).symm)
  have hown' := replaceable_congr (b := b) (hfresh.trans (visible_empty s name).symm)
  by_cases howner : Replaceable s ∅ name b
  · by_cases hmanual : Manual u name
    · exact Or.inr ⟨.manual (hown.mpr howner) hmanual, .manual (hown'.mpr howner) hmanual,
        fun _ => hmanual⟩
    · classical
      obtain ⟨hcomp, hcomp', hneeds⟩ := h.alike hnext (halike howner hmanual)
      refine Or.inl ⟨decide (NeedsDetector (withoutTmp u name) ∅ name ((s.record name).getD b)),
        ?_, ?_, howner, hmanual⟩
      · exact .placed (hown.mpr howner) hmanual (by rw [hrun]) hcomp (by simp [hneeds])
      · exact .placed (hown'.mpr howner) hmanual (by rw [hfresh]) hcomp' (by simp)
  · have hkept : ∃ old package, s.record name = some old ∧ old.package = some package ∧
        (package = [colon] ∨ b.package ≠ some package) := by
      simp only [Replaceable, not_forall] at howner
      obtain ⟨old, hold, hne⟩ := howner
      rw [visible_empty] at hold
      obtain ⟨package, hp⟩ := package_of_record hold
      refine ⟨old, package, hold, hp, ?_⟩
      by_contra hno
      push Not at hno
      refine hne ⟨hp.trans hno.2.symm, ?_⟩
      rw [hp]
      exact fun hcolon => hno.1 (Option.some.inj hcolon)
    obtain ⟨old, package, hold, hp, hwhy⟩ := hkept
    exact Or.inr ⟨.kept (hrun.trans hold) hp hwhy, .kept (hfresh.trans hold) hp hwhy,
      fun hin => absurd hin howner⟩

/-- The control files stay in view while a file is installed. -/
theorem hasRegister_importing (htest : env.test = false) (hrel : Reliable env)
    (hreg : u.kernel.hasRegister = true) :
    (replay (importing env u name b (some (c, d))) u).kernel.hasRegister = true := by
  have hplaced : (replay (placing u name b) u).kernel.hasRegister = true := by
    rw [placing, replay_append,
      kernel_replay_of_files _ _ (fun e he => files_of_mem_moving he), dropping]
    split
    · exact hreg
    · exact hreg
  rw [importing, replay_append, enabling]
  have hloads := loads_of_hasRegister htest hrel hplaced
  have hsetup := hasRegister_setup htest hloads
  split
  · split
    · rw [replay_append]
      exact hsetup
    · exact hsetup
  · exact hsetup

/-- Of the files an installation changes two. -/
theorem file_importing (htest : env.test = false) (hdir : isDirectoryName name = false)
    (hctl : isControlName name = false) (key : Text) :
    (replay (importing env u name b (some (c, d))) u).file key =
      if key = name then some b.contents else if key = tmpName name then none else u.file key := by
  have hfiles := files_of_enabling htest (replay (placing u name b) u) name
    (registrationOf name c (chooseInterpreter env c d))
  rw [importing, replay_append, file_replay_of_notMem _ key _
    (fun e he => by rw [hfiles e he]; exact List.not_mem_nil)]
  exact file_replay_placing hdir hctl key

/-- Installing a file under one name makes and drops no entry of another. -/
theorem entriesNamed_importing (htest : env.test = false) (hrel : Reliable env)
    (himp : Importable env name b) (hres : isReserved name = false)
    {x : Option (Binfmt × Bool)} (hx : Decision u m.formats name b x) {g : Text} (hne : g ≠ name)
    (hentry : entryName name ≠ g) :
    entriesNamed (replay (importing env u name b x) u).kernel g = entriesNamed u.kernel g := by
  have hapart : Footprint.Apart name
      (fun t : Store => entriesNamed t.kernel g = entriesNamed u.kernel g) AnyTable := by
    refine ⟨?_, fun _ _ _ _ _ => trivial, fun _ _ _ => trivial, fun _ _ => trivial⟩
    intro e t he ht
    rw [entriesNamed_apply_of_on he hne hentry.symm]
    exact ht
  have hid : (importPath env name).2 = name := by rw [importPath, if_neg himp.entry.2]
  obtain ⟨r, m', hrun, -⟩ := run_actImportName htest hrel himp hres hx
  have hkeeps : Keeps _ AnyTable (actImportName env name) :=
    keeps_actImportName env hapart.load (fun b => hid.symm ▸ keeps_actInstall env hapart b)
  have hfinal := (hkeeps.along (s := u) (m := m) rfl trivial).final
  rw [hrun] at hfinal
  exact hfinal

/-- A plain name is in procdir just if the control files are and an entry of it is. -/
theorem procExists_iff {k : Kernel} (hdir : isDirectoryName name = false)
    (hctl : isControlName name = false) :
    k.procExists name = true ↔ k.hasRegister = true ∧ k.hasEntry name = true := by
  simp [Kernel.procExists, Kernel.hasRegister, hdir, hctl, and_assoc]

/-- Leaving out a file changes nothing, if it need not be installed. -/
theorem After.skip (h : After env s earlier placed u m)
    (hview : ∀ key, visible u m'.formats key = visible u m.formats key)
    (hskip : ∀ b, ¬ MustInstall env s earlier name b) :
    After env s (earlier ++ [name]) placed u m' := by
  refine ⟨⟨h.installs.among_append [name], fun g hg b hmust => ?_⟩, h.file, ?_, ?_, ?_, h.register⟩
  · rcases List.mem_append.mp hg with hg | hg
    · exact h.installs.all_append [name] g hg b hmust
    · rw [List.mem_singleton.mp hg] at hmust
      exact absurd ⟨hmust.1, hmust.2.imp_right (fun h => ⟨h.1.fewer, h.2⟩)⟩ (hskip b)
  · intro key hkey
    rw [hview, h.known key hkey]
  · intro g hg r hr
    exact h.leftover g hg r ((hview _).symm.trans hr)
  · intro g hg hun
    exact h.entry g hg hun.fewer

/-- An installed file has its name stored anew, or there was no entry of it. -/
theorem After.not_mustInstall (h : After env s earlier placed u m)
    (hnext : Next earlier placed name) (hdir : isDirectoryName name = false)
    (hctl : isControlName name = false) (hnew : newRecord env name = some b)
    (hmanual : Replaceable s ∅ name b → Manual u name) (b' : Binfmt) :
    ¬ MustInstall env s earlier name b' := by
  rintro ⟨⟨hnew', -, howner⟩, hwhy⟩
  obtain rfl : b' = b := Option.some.inj (hnew'.symm.trans hnew)
  obtain ⟨hnone, hexists⟩ := hmanual howner
  rcases hwhy with hfile | ⟨hun, hno⟩
  · rw [← h.file_name hnext, hnone] at hfile
    cases hfile
  · have hentry := hasEntry_of_entriesNamed (h.entry name hnext.notMem hun)
    rw [((procExists_iff hdir hctl).mp hexists).2, hno] at hentry
    cases hentry

theorem After.mayInstall (h : After env s earlier placed u m) (hnext : Next earlier placed name)
    (hdir : isDirectoryName name = false) (hctl : isControlName name = false)
    (hadmitted : Admitted env s name b) (hmanual : ¬ Manual u name) :
    MayInstall env s earlier name b := by
  refine ⟨hadmitted, fun hun hstart => hmanual ⟨?_, ?_⟩⟩
  · rw [h.file_name hnext, hstart.1]
  · obtain ⟨hreg, hentry⟩ := (procExists_iff hdir hctl).mp hstart.2
    refine (procExists_iff hdir hctl).mpr ⟨h.register hreg, ?_⟩
    rw [hasEntry_of_entriesNamed (h.entry name hnext.notMem hun), hentry]

/-- The installed file is one that may be, and none that has to be is left out. -/
theorem Installs.install (h : Installs env s earlier placed) (hmay : MayInstall env s earlier name b) :
    Installs env s (earlier ++ [name]) (name :: placed) := by
  refine ⟨fun g hg => ?_, fun g hg b' hmust => ?_⟩
  · rcases List.mem_cons.mp hg with rfl | hg
    · exact ⟨List.mem_append_right earlier List.mem_cons_self, b, hmay.1,
        fun hun => hmay.2 hun.fewer⟩
    · exact h.among_append [name] g hg
  · rcases List.mem_append.mp hg with hg | hg
    · exact List.mem_cons_of_mem name (h.all_append [name] g hg b' hmust)
    · exact List.mem_singleton.mp hg ▸ List.mem_cons_self

/-- The disk has the file, and no temporary file of it. -/
theorem After.file_install (htest : env.test = false) (h : After env s earlier placed u m)
    (hnext : Next earlier placed name) (hdir : isDirectoryName name = false)
    (hctl : isControlName name = false) (hnew : newRecord env name = some b) (key : Text) :
    (replay (importing env u name b (some (c, d))) u).file key =
      if key ∈ name :: placed then (newRecord env key).map Binfmt.contents
      else if key ∈ (name :: placed).map tmpName then none else s.file key := by
  rw [file_importing htest hdir hctl, h.file]
  by_cases hkey : key = name
  · rw [if_pos hkey, if_pos (hkey ▸ List.mem_cons_self), hkey, hnew]
    rfl
  · have hplaced : key ∈ name :: placed ↔ key ∈ placed := by simp [hkey]
    rw [if_neg hkey]
    by_cases htmp : key = tmpName name
    · have hnot : key ∉ name :: placed := by
        rw [hplaced, htmp]
        exact hnext.tmp_notMem List.mem_cons_self
      rw [if_pos htmp, if_neg hnot, if_pos (by rw [htmp]; exact List.mem_cons_self)]
    · have hgone : key ∈ (name :: placed).map tmpName ↔ key ∈ placed.map tmpName := by
        rw [List.map_cons, List.mem_cons, or_iff_right htmp]
      simp only [if_neg htmp, hplaced, hgone]

/-- The run knows the record, unless it has known an older one. -/
theorem After.known_install (h : After env s earlier placed u m)
    (hnew : newRecord env name = some b) (hc : (s.record name).getD b = c) {key : Text}
    (hkey : key ∉ (name :: placed).map tmpName) :
    learned u m.formats name (some (c, d)) key = held env s (name :: placed) (name :: placed) key := by
  have hold : key ∉ placed.map tmpName := fun hin => hkey (List.mem_cons_of_mem _ hin)
  have hne : key ≠ tmpName name := by
    rintro rfl
    exact hkey List.mem_cons_self
  rw [learned, held, overlaid]
  by_cases hname : key = name
  · rw [if_pos hname, if_pos (hname ▸ List.mem_cons_self), hname, hnew, ← hc]
    cases s.record name <;> rfl
  · have hplaced : key ∈ name :: placed ↔ key ∈ placed := by simp [hname]
    rw [if_neg hname, visible_withoutTmp u _ hne, h.known key hold, held, overlaid]
    simp only [hplaced, if_neg hold, if_neg hkey]

/-- What an installation adds to what the run and the disk know. -/
theorem After.install (htest : env.test = false) (hrel : Reliable env)
    (h : After env s earlier placed u m) (hnext : Next earlier placed name)
    (hdir : isDirectoryName name = false) (hctl : isControlName name = false)
    (hadmitted : Admitted env s name b) (hmanual : ¬ Manual u name)
    (hc : (s.record name).getD b = c)
    (hview : ∀ key, visible (replay (importing env u name b (some (c, d))) u) m'.formats key =
      learned u m.formats name (some (c, d)) key)
    (hentries : ∀ g, g ≠ name → entryName name ≠ g →
      entriesNamed (replay (importing env u name b (some (c, d))) u).kernel g =
        entriesNamed u.kernel g) :
    After env s (earlier ++ [name]) (name :: placed)
      (replay (importing env u name b (some (c, d))) u) m' := by
  have hmay := h.mayInstall hnext hdir hctl hadmitted hmanual
  refine ⟨h.installs.install hmay, h.file_install htest hnext hdir hctl hadmitted.1,
    fun key hkey => (hview key).trans (h.known_install hadmitted.1 hc hkey),
    fun g hg r hr => ?_, fun g hg hun => ?_, fun hreg => ?_⟩
  · have hne : tmpName g ≠ name := by
      intro heq
      rcases List.mem_cons.mp hg with rfl | hg
      · exact tmpName_ne g heq.symm
      · exact hnext.notTmp (List.mem_map.mpr ⟨g, hg, heq⟩)
    rw [hview, learned, if_neg hne] at hr
    rcases h.visible_cases hnext (tmpName g) with hheld | ⟨-, -, hrecord⟩
    · rw [hheld, held, overlaid, if_neg (hnext.tmp_notMem hg),
        if_pos (List.mem_map_of_mem hg)] at hr
      cases hr
    · exact hrecord r hr
  · have hne : g ≠ name := fun heq => hg (heq ▸ List.mem_cons_self)
    have hclear := hun name (List.mem_append_right earlier List.mem_cons_self) (Ne.symm hne)
    rw [hentries g hne hclear]
    exact h.entry g (fun hin => hg (List.mem_cons_of_mem name hin)) hun.fewer
  · exact hasRegister_importing htest hrel (h.register hreg)

end Steps

section Runs
variable {env : Env} {s u : Store} {m m' : Memory} {earlier placed : List Text} {name : Text}
  {b : Binfmt}

def together (env : Env) (s : Store) : Store :=
  ((CommandLine.main env [.mode .import []]).run s Memory.fresh).state s

def separately (env : Env) (names : List Text) (s : Store) : Store :=
  names.foldl (fun t name =>
    ((CommandLine.main env [.mode .import [name]]).run t Memory.fresh).state t) s

theorem effects_import (htest : env.test = false) (following : List Text) :
    ((CommandLine.main env [.mode .import following]).run s m).effects =
      ((actImport env following.head?).run s m).effects := by
  have henv := CommandLine.test_eq_self htest
  cases following with
  | nil =>
    have hparse : parse [.mode .import []] = .ok { Options.none with mode := some .import } := rfl
    rw [effects_main hparse]
    change ((actImport { env with test := false } none).run s m).effects = _
    rw [henv]
    rfl
  | cons name rest =>
    have hparse : parse [.mode .import (name :: rest)] =
        .ok { Options.none with mode := some .import, name := some name } := rfl
    rw [effects_main hparse]
    change ((actImport { env with test := false } (some name)).run s m).effects = _
    rw [henv]
    rfl

/-- One file of the run has the effects of a fresh process, and what the run knows after it is
what the files up to this one say. -/
theorem After.step (htest : env.test = false) (hrel : Reliable env)
    (h : After env s earlier placed u m) (hnext : Next earlier placed name)
    (himp : Importable env name b)
    (hagree : MayInstall env s earlier name b →
      hasDetector ((s.record name).getD b) = true ∨
        Alike env s placed name ((s.record name).getD b)) :
    ∃ r m' es placed', (actImportName env name).run u m = ⟨.returned r, m', es⟩ ∧
      ((actImportName env name).run u Memory.fresh).effects = es ∧
      After env s (earlier ++ [name]) placed' (replay es u) m' := by
  have hnew := newRecord_of_importable himp
  cases hres : isReserved name with
  | true =>
    refine ⟨false, m.warned (.reserved name), [], placed, run_actImportName_reserved himp hres,
      by rw [run_actImportName_reserved himp hres], h.skip (fun _ => rfl) ?_⟩
    rintro b' ⟨⟨-, hfree, -⟩, -⟩
    rw [hres] at hfree
    cases hfree
  | false =>
    obtain ⟨hdir, hctl⟩ := plain_of_unreserved himp.entry.1 hres
    rcases h.decision hnext (fun howner hmanual =>
        hagree (h.mayInstall hnext hdir hctl ⟨hnew, hres, howner⟩ hmanual)) with
      ⟨d, hx, hx₀, howner, hmanual⟩ | ⟨hx, hx₀, hmanual⟩
    · obtain ⟨r, m', hrun, hview⟩ := run_actImportName htest hrel himp hres hx
      obtain ⟨r₀, m₀, hfresh, -⟩ :=
        run_actImportName (m := Memory.fresh) htest hrel himp hres hx₀
      exact ⟨r, m', _, name :: placed, hrun, by rw [hfresh],
        h.install htest hrel hnext hdir hctl ⟨hnew, hres, howner⟩ hmanual rfl hview
          (fun g hne hentry => entriesNamed_importing htest hrel himp hres hx hne hentry)⟩
    · obtain ⟨r, m', hrun, hview⟩ := run_actImportName htest hrel himp hres hx
      obtain ⟨r₀, m₀, hfresh, -⟩ :=
        run_actImportName (m := Memory.fresh) htest hrel himp hres hx₀
      exact ⟨r, m', _, placed, hrun, by rw [hfresh],
        h.skip hview (h.not_mustInstall hnext hdir hctl hnew hmanual)⟩

theorem Consistent.next (hcons : Consistent env s) {later : List Text}
    (hnames : env.importNames = earlier ++ name :: later) (h : Installs env s earlier placed) :
    Next earlier placed name := by
  have hmem : ∀ g ∈ name :: earlier, g ∈ env.importNames := by
    intro g hg
    rw [hnames]
    rcases List.mem_cons.mp hg with rfl | hg
    · exact List.mem_append_right earlier List.mem_cons_self
    · exact List.mem_append_left _ hg
  refine ⟨fun g hg => (h.among g hg).1, fun hin => ?_, fun g hg other hother =>
    hcons.apart g (hmem g hg) other (hmem other hother)⟩
  have hdistinct := hnames ▸ hcons.distinct
  exact (List.nodup_append.mp hdistinct).2.2 name hin name List.mem_cons_self rfl

/-- The induction is on the files that are left, with the ones before them in the invariant. -/
theorem importEach_separately (htest : env.test = false) (hrel : Reliable env)
    (hcons : Consistent env s) (later : List Text)
    (himp : ∀ name ∈ later, ∃ b, Importable env name b)
    (hnames : env.importNames = earlier ++ later) (h : After env s earlier placed u m) :
    ∃ r m' es, (importEach env later).run u m = ⟨.returned r, m', es⟩ ∧
      replay es u = separately env later u := by
  induction later generalizing earlier placed u m with
  | nil => exact ⟨true, m, [], rfl, rfl⟩
  | cons name later ih =>
    obtain ⟨b, hb⟩ := himp name List.mem_cons_self
    obtain ⟨content, hcontent, -⟩ := hb.file
    obtain ⟨r, m₁, es, placed', hrun, hfresh, hafter⟩ := h.step htest hrel
      (hcons.next hnames h.installs) hb
      (fun hmay => hcons.agree earlier name later b hnames hmay placed h.installs)
    obtain ⟨r', m', fs, hmore, hstate⟩ :=
      ih (fun n hn => himp n (List.mem_cons_of_mem name hn))
        (by rw [hnames, List.append_assoc, List.singleton_append]) hafter
    refine ⟨r && r', m', es ++ fs, ?_, ?_⟩
    · rw [importEach, if_pos (by rw [hcontent]; rfl), Prog.run_bind_returned hrun,
        Prog.run_bind_returned hmore, Prog.run_pure, Ran.after_mk, Ran.after_mk, List.append_nil]
    · have hone : ((CommandLine.main env [.mode .import [name]]).run u Memory.fresh).state u =
          replay es u := by
        rw [Ran.state, effects_import htest, ← hfresh]
        rfl
      rw [replay_append, separately, List.foldl_cons, hone]
      exact hstate

/-- Over every list of importable files, one run leaves the stores that separate processes
leave, as long as what is stored and what the files bring is consistent. -/
theorem together_eq_separately (env : Env) (htest : env.test = false) (hrel : Reliable env)
    (s : Store) (himp : ∀ name ∈ env.importNames, ∃ b, Importable env name b)
    (h : Consistent env s) : together env s = separately env env.importNames s := by
  have hstart : After env s [] [] s Memory.fresh.tick := after_start s rfl
  obtain ⟨r, m', es, hrun, hstate⟩ :=
    importEach_separately htest hrel h env.importNames himp rfl hstart
  have hopen : (actImport env none).run s Memory.fresh = ⟨.returned r, m', es⟩ := by
    rw [actImport, run_succeeds_bind, ok_of_reliable hrel, if_pos rfl]
    exact hrun
  rw [together, Ran.state, effects_import htest]
  change replay ((actImport env none).run s Memory.fresh).effects s = _
  rw [hopen]
  exact hstate

end Runs

section Example

open Isolation

def oneFile : List Byte := text "package pkg\ninterpreter /usr/bin/one\nmagic CD\n"

def twoFile : List Byte := text "package other\ninterpreter /usr/bin/two\nmagic CD\n"

def guardedFile : List Byte :=
  text "package other\ninterpreter /usr/bin/two\nmagic CD\ndetector /usr/bin/detect\n"

/-- An importdir with the files "one" and "two". -/
def directoryEnv (two : List Byte) : Env :=
  { plainEnv with
    importNames := [text "one", text "two"]
    files := fun path =>
      if path = text "/usr/share/binfmts/one" then some oneFile
      else if path = text "/usr/share/binfmts/two" then some two else none }

def oldStore : Store :=
  storeWith (text "one") (text "pkg\nmagic\n0\nAB\n\n/usr/bin/one\n\n\n\n")

def oneRecord : Binfmt :=
  ⟨some (text "pkg"), text "magic", text "0", some (text "CD"), [], some (text "/usr/bin/one"),
    none, none, none⟩

def twoRecord (detector : Option Text) : Binfmt :=
  ⟨some (text "other"), text "magic", text "0", some (text "CD"), [], some (text "/usr/bin/two"),
    detector, none, none⟩

theorem importable_directory {two : List Byte} {detector : Option Text}
    (htwo : binfmtNew (importTable two) = .ok (.ok (twoRecord detector))) :
    ∀ name ∈ (directoryEnv two).importNames, ∃ b, Importable (directoryEnv two) name b := by
  have hone : binfmtNew (importTable oneFile) = .ok (.ok oneRecord) := by decide +kernel
  intro name hname
  rcases List.mem_cons.mp hname with rfl | hname
  · exact ⟨oneRecord, by decide, ⟨oneFile, rfl, hone⟩, rfl⟩
  · rw [List.mem_singleton.mp hname]
    exact ⟨twoRecord detector, by decide, ⟨two, rfl, htwo⟩, rfl⟩

def lineup (s : Store) : List (Text × Text) :=
  s.kernel.entries.map (fun e => (e.name, e.interpreter))

theorem record_oldStore {key : Text} (h : key ≠ text "one") : oldStore.record key = none :=
  record_of_missing (by rw [oldStore, file_storeWith, if_neg h])

/-- Where "two" has a detector, nothing depends on the record of "one". -/
theorem consistent_guarded : Consistent (directoryEnv guardedFile) oldStore := by
  have htwo : binfmtNew (importTable guardedFile) =
      .ok (.ok (twoRecord (some (text "/usr/bin/detect")))) := by decide +kernel
  refine ⟨by decide, by decide, ?_⟩
  intro earlier name later b hnames hmay placed hinstalls
  have hnames' : [text "one", text "two"] = earlier ++ name :: later := hnames
  rcases earlier with - | ⟨first, rest⟩
  · obtain ⟨rfl, -⟩ := List.cons.inj hnames'
    have hplaced : placed = [] :=
      List.eq_nil_iff_forall_not_mem.mpr (fun g hg => List.not_mem_nil (hinstalls.among g hg).1)
    have hview : ∀ new : Text → Option Binfmt, ∀ key, key ≠ text "one" →
        overlaid new oldStore [] [text "one"] key = none := by
      intro new key hne
      rw [overlaid, if_neg List.not_mem_nil, record_oldStore hne, ite_self]
    have hnone : ∀ new c, ¬ SharedIn (overlaid new oldStore [] [text "one"]) (text "one") c := by
      rintro new c ⟨key, hne, other, hother, -⟩
      rw [hview new key hne] at hother
      cases hother
    rw [hplaced]
    refine Or.inr ⟨?_, ?_, iff_of_false (hnone _ _) (hnone _ _), ?_⟩
    · intro key hne other hother
      rw [held, hview _ key hne] at hother
      cases hother
    · intro key hne other hother
      rw [onDisk, hview _ key hne] at hother
      cases hother
    · intro g hg r hr
      rw [List.mem_singleton.mp hg, record_oldStore (by decide)] at hr
      cases hr
  · obtain ⟨rfl, hrest⟩ := List.cons.inj hnames'
    rcases rest with - | ⟨second, rest⟩
    · obtain ⟨rfl, -⟩ := List.cons.inj hrest
      have hnew : newRecord (directoryEnv guardedFile) (text "two") =
          some (twoRecord (some (text "/usr/bin/detect"))) :=
        newRecord_of_importable ⟨by decide, ⟨guardedFile, rfl, htwo⟩, rfl⟩
      obtain rfl : b = _ := Option.some.inj (hmay.1.1.symm.trans hnew)
      rw [record_oldStore (by decide)]
      exact Or.inl rfl
    · obtain ⟨-, hnil⟩ := List.cons.inj hrest
      simp at hnil

theorem together_guarded : together (directoryEnv guardedFile) oldStore =
    separately (directoryEnv guardedFile) [text "one", text "two"] oldStore := by
  have htwo : binfmtNew (importTable guardedFile) =
      .ok (.ok (twoRecord (some (text "/usr/bin/detect")))) := by decide +kernel
  exact together_eq_separately (directoryEnv guardedFile) rfl plainEnv_reliable oldStore
    (importable_directory htwo) consistent_guarded

/-- The run still knows "one" by the magic AB, and registers "two" for itself. A fresh
process reads that both formats now have the magic CD. -/
theorem old_record_decides : Reliable (directoryEnv twoFile) ∧
    (∀ name ∈ (directoryEnv twoFile).importNames, ∃ b, Importable (directoryEnv twoFile) name b) ∧
    lineup (together (directoryEnv twoFile) oldStore) =
      [(text "one", text "/usr/bin/one"), (text "two", text "/usr/bin/two")] ∧
    lineup (separately (directoryEnv twoFile) (directoryEnv twoFile).importNames oldStore) =
      [(text "one", text "/usr/bin/one"),
        (text "two", text "/usr/lib/binfmt-support/run-detectors")] ∧
    together (directoryEnv twoFile) oldStore ≠
      separately (directoryEnv twoFile) (directoryEnv twoFile).importNames oldStore := by
  have htwo : binfmtNew (importTable twoFile) = .ok (.ok (twoRecord none)) := by decide +kernel
  have hrun : lineup (together (directoryEnv twoFile) oldStore) =
      [(text "one", text "/usr/bin/one"), (text "two", text "/usr/bin/two")] := by decide +kernel
  have hfresh : lineup (separately (directoryEnv twoFile) (directoryEnv twoFile).importNames
      oldStore) = [(text "one", text "/usr/bin/one"),
        (text "two", text "/usr/lib/binfmt-support/run-detectors")] := by decide +kernel
  refine ⟨plainEnv_reliable, importable_directory htwo, hrun, hfresh, ?_⟩
  intro hsame
  rw [hsame, hfresh] at hrun
  exact absurd hrun (by decide)

end Example
end BinfmtSupport.Together
