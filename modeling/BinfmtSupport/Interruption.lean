import BinfmtSupport.Installing
import BinfmtSupport.Records

/-!
An installation that is cut short. The temporary file lies in the directory that a
later run enumerates, and there it counts as a format. So a later run finds the formats
that were there before exactly while the temporary file is as it was: before the first
step on it, or after the move if there was none; in between only if what is written so
far happens to read as the record that a file of that name held.
-/
namespace BinfmtSupport.Interruption

open CText Kvhash Format Journal Stores Actions Loading Enabling Installing Records

/-- A later run reads the whole database and finds what was there before; the installed
name may have its new record. -/
def Recovers (s u : Store) (name : Text) (b : Binfmt) : Prop :=
  ∀ env, Reliable env → ∃ m, (loadAllFormats env false).run u Memory.fresh =
      ⟨.returned (), m, []⟩ ∧
    (∀ key, key ≠ name → kvhashLookup m.formats key = s.record key) ∧
    (kvhashLookup m.formats name = s.record name ∨
      kvhashLookup m.formats name = some (reread b))

def writtenByte (file : Text) : Effect → Option Byte
  | .append f byte => if f = file then some byte else none
  | _ => none

def appended (file : Text) (done : List Effect) : List Byte :=
  done.filterMap (writtenByte file)

/-- Where the run can be cut without harm. -/
def SafeCut (s : Store) (name : Text) (done : List Effect) : Prop :=
  (∀ e ∈ done, e.files = []) ∨
  (.rename (tmpName name) name ∈ done ∧ s.file (tmpName name) = none) ∨
  (.create (tmpName name) ∈ done ∧ .rename (tmpName name) name ∉ done ∧
    ∃ old, s.record (tmpName name) = some old ∧
      binfmtLoad (appended (tmpName name) done) = .ok old)

section Reading

/-- What a later run needs, said of the files alone. -/
theorem recovers_iff (s u : Store) (name : Text) (b : Binfmt) :
    Recovers s u name b ↔ (∀ key, Intact u key) ∧
      (∀ key, key ≠ name → u.record key = s.record key) ∧
      (u.record name = s.record name ∨ u.record name = some (reread b)) := by
  constructor
  · intro h
    obtain ⟨m, hrun, hothers, hname⟩ := h plainEnv plainEnv_reliable
    rcases loadAllFormats_cases plainEnv false u Memory.fresh with
      ⟨m', hrun', hlook, hintact⟩ | ⟨m', hrun', -⟩
    · rw [hrun] at hrun'
      cases hrun'
      have hrecord : ∀ key, kvhashLookup m.formats key = u.record key := by
        intro key
        rw [hlook]
        exact visible_empty u key
      refine ⟨hintact.resolve_left Bool.false_ne_true, ?_, ?_⟩
      · intro key hne
        rw [← hrecord]
        exact hothers key hne
      · rw [← hrecord]
        exact hname
    · rw [hrun] at hrun'
      cases hrun'
  · rintro ⟨hintact, hothers, hname⟩ env hrel
    rcases loadAllFormats_cases env false u Memory.fresh with
      ⟨m, hrun, hlook, -⟩ | ⟨m, hrun, ⟨time, hfail⟩ | ⟨-, key, hbad⟩⟩
    · have hrecord : ∀ key, kvhashLookup m.formats key = u.record key := by
        intro key
        rw [hlook]
        exact visible_empty u key
      refine ⟨m, hrun, ?_, ?_⟩
      · intro key hne
        rw [hrecord]
        exact hothers key hne
      · rw [hrecord]
        exact hname
    · rw [ok_of_reliable hrel] at hfail
      cases hfail
    · exact absurd (hintact key) hbad

end Reading

section Stages

inductive Stage (s : Store) (name : Text) (b : Binfmt) : List Effect → Prop
  | before {done : List Effect} (h : ∀ e ∈ done, e.files = []) : Stage s name b done
  | cleared {drop : List Effect} (hdrop : ∀ e ∈ drop, e.files = [])
      (h : (s.file (tmpName name)).isSome = true) :
      Stage s name b (drop ++ [.unlink (tmpName name)])
  | begun {drop : List Effect} (hdrop : ∀ e ∈ drop, e.files = []) (k : ℕ) :
      Stage s name b (drop ++ writing s (tmpName name) (b.contents.take k))
  | moved {drop tail : List Effect} (hdrop : ∀ e ∈ drop, e.files = [])
      (htail : ∀ e ∈ tail, e.files = []) :
      Stage s name b (drop ++ (moving s name b ++ tail))

theorem cut_files {done es : List Effect} (h : done <+: es) (hes : ∀ e ∈ es, e.files = []) :
    ∀ e ∈ done, e.files = [] := fun e he => hes e (h.mem he)

/-- A cut within the work on the temporary file. -/
theorem stage_writing {s : Store} {name : Text} {b : Binfmt} {drop done : List Effect}
    (hdrop : ∀ e ∈ drop, e.files = []) (k : ℕ)
    (h : done <+: writing s (tmpName name) (b.contents.take k)) :
    Stage s name b (drop ++ done) := by
  have hbefore : Stage s name b (drop ++ []) := .before (by simpa using hdrop)
  rcases cut_append h with hclear | ⟨more, rfl, hmore⟩
  · unfold clearing at hclear
    split at hclear
    · rename_i hsome
      rw [List.prefix_cons_iff] at hclear
      rcases hclear with rfl | ⟨rest, rfl, hrest⟩
      · exact hbefore
      · rw [List.prefix_nil] at hrest
        subst hrest
        exact .cleared hdrop hsome
    · rw [List.prefix_nil] at hclear
      subst hclear
      exact hbefore
  · rw [List.prefix_cons_iff] at hmore
    rcases hmore with rfl | ⟨bytes, rfl, hbytes⟩
    · rw [List.append_nil]
      unfold clearing
      split
      · rename_i hsome
        exact .cleared hdrop hsome
      · exact hbefore
    · have htake : bytes = ((b.contents.take k).take bytes.length).map
          (Effect.append (tmpName name)) := by
        rw [List.map_take]
        exact List.prefix_iff_eq_take.mp hbytes
      rw [htake, List.take_take]
      exact .begun hdrop _

/-- Every cut of an installation is in one of the four stages. -/
theorem install_stage {env : Env} (htest : env.test = false) (name : Text) (b : Binfmt)
    (s : Store) (m : Memory) (done : List Effect)
    (h : done <+: ((actInstall env name (some b)).run s m).effects) : Stage s name b done := by
  rcases actInstall_cases env htest name b s m with
    ⟨o, m', es, hrun, hes, -⟩ | ⟨m', drop, es, hrun, hdrop, -, hun, -⟩ |
    ⟨o, m', m₁, m₂, drop, es, hrun, hdrop, -, -, -, -, -, hen⟩
  · rw [hrun] at h
    refine .before (cut_files h ?_)
    rcases hes with rfl | rfl <;> simp [Effect.files]
  · rw [hrun] at h
    rcases cut_append h with hd | ⟨more, rfl, hmore⟩
    · exact .before (cut_files hd hdrop.files)
    · cases hun with
      | untouched =>
        rw [List.prefix_nil] at hmore
        subst hmore
        exact .before (by simpa using hdrop.files)
      | cleared =>
        have hlonger : more <+: writing s (tmpName name) (b.contents.take 0) :=
          hmore.trans (List.prefix_append _ _)
        exact stage_writing hdrop.files 0 hlonger
      | written k => exact stage_writing hdrop.files k hmore
  · rw [hrun] at h
    have htail : ∀ e ∈ es, e.files = [] := by
      have hfiles := files_of_actEnableName env htest name
        (replay (drop ++ moving s name b) s) m₁
      rw [hen] at hfiles
      exact hfiles
    rcases cut_append h with hd | ⟨more, rfl, hmore⟩
    · exact .before (cut_files hd hdrop.files)
    · rcases cut_append hmore with hm | ⟨tail, rfl, hcut⟩
      · unfold moving at hm
        rcases cut_append hm with hw | ⟨last, rfl, hlast⟩
        · refine stage_writing hdrop.files b.contents.length ?_
          rwa [List.take_length]
        · rw [List.prefix_cons_iff] at hlast
          rcases hlast with rfl | ⟨rest, rfl, hrest⟩
          · refine stage_writing hdrop.files b.contents.length ?_
            simp only [List.take_length, List.append_nil]
            exact List.prefix_refl _
          · rw [List.prefix_nil] at hrest
            subst hrest
            have hmoved : Stage s name b (drop ++ (moving s name b ++ [])) :=
              .moved hdrop.files (by simp)
            rwa [List.append_nil] at hmoved
      · exact .moved hdrop.files (cut_files hcut htail)

end Stages

section Cuts
variable {s : Store} {name : Text} {b : Binfmt}

theorem file_replay_drop {drop : List Effect} (h : ∀ e ∈ drop, e.files = []) (key : Text) :
    (replay drop s).file key = s.file key := by
  simp only [Store.file, admindir_replay_of_noFiles drop s h]

theorem appended_of_noFiles {drop : List Effect} (h : ∀ e ∈ drop, e.files = []) (file : Text) :
    appended file drop = [] := by
  rw [appended, List.filterMap_eq_nil_iff]
  intro e he
  have hfiles := h e he
  cases e with
  | append f byte => simp [Effect.files] at hfiles
  | _ => rfl

theorem appended_writing (file : Text) (bytes : List Byte) :
    appended file (writing s file bytes) = bytes := by
  have hclear : appended file (clearing s file) = [] := by
    unfold clearing
    split <;> rfl
  have hbytes : appended file (bytes.map (Effect.append file)) = bytes := by
    induction bytes with
    | nil => rfl
    | cons byte rest ih =>
      have hbyte : writtenByte file (.append file byte) = some byte := if_pos rfl
      rw [List.map_cons, appended, List.filterMap_cons_some hbyte]
      exact congrArg (List.cons byte) ih
  have hsplit : appended file (writing s file bytes) =
      appended file (clearing s file) ++ appended file (bytes.map (Effect.append file)) := by
    rw [writing, appended, List.filterMap_append, List.filterMap_cons_none rfl]
    rfl
  rw [hsplit, hclear, hbytes, List.nil_append]

theorem rename_notMem_writing (file source dest : Text) (bytes : List Byte) :
    Effect.rename source dest ∉ writing s file bytes := by
  simp only [writing, clearing, List.mem_append, List.mem_cons, reduceCtorEq, List.mem_map,
    and_false, exists_false, or_false]
  split <;> simp

theorem notMem_of_noFiles {drop : List Effect} (h : ∀ e ∈ drop, e.files = []) {e : Effect}
    (he : e.files ≠ []) : e ∉ drop := fun hmem => he (h e hmem)

/-- Without a step on files nothing is lost. -/
theorem recovers_before {done : List Effect} (hall : ∀ key, Intact s key)
    (h : ∀ e ∈ done, e.files = []) : Recovers s (replay done s) name b := by
  have hrecord : ∀ key, (replay done s).record key = s.record key :=
    fun key => record_congr (file_replay_drop h key)
  rw [recovers_iff]
  refine ⟨?_, fun key _ => hrecord key, Or.inl (hrecord name)⟩
  intro key hsome
  rw [hrecord]
  rw [file_replay_drop h] at hsome
  exact hall key hsome

/-- A removed temporary file was a format. -/
theorem not_recovers_cleared {drop : List Effect} (hall : ∀ key, Intact s key)
    (h : (s.file (tmpName name)).isSome = true) :
    ¬ Recovers s (replay (drop ++ [.unlink (tmpName name)]) s) name b := by
  rw [recovers_iff]
  rintro ⟨-, hothers, -⟩
  have hlost := hothers (tmpName name) (tmpName_ne name).symm
  rw [record_of_missing] at hlost
  · have hwas := hall (tmpName name) h
    rw [← hlost] at hwas
    cases hwas
  · rw [replay_append, replay_cons, replay_nil, apply_def, file_unlink, if_pos rfl]

/-- While the temporary file is there, it has to read as it did before. -/
theorem recovers_begun_iff {drop : List Effect} (hall : ∀ key, Intact s key)
    (hdrop : ∀ e ∈ drop, e.files = []) (bytes : List Byte) :
    Recovers s (replay (drop ++ writing s (tmpName name) bytes) s) name b ↔
      ∃ old, s.record (tmpName name) = some old ∧ binfmtLoad bytes = .ok old := by
  have hadm := admindir_replay_of_noFiles drop s hdrop
  have hfile : ∀ key, (replay (drop ++ writing s (tmpName name) bytes) s).file key =
      if key = tmpName name then some bytes else s.file key := by
    intro key
    rw [replay_append, ← writing_congr hadm, file_replay_writing]
    simp only [Store.file, hadm]
  have htmp : (replay (drop ++ writing s (tmpName name) bytes) s).record (tmpName name) =
      (binfmtLoad bytes).toOption := record_of_file (by rw [hfile, if_pos rfl])
  have hothers : ∀ key, key ≠ tmpName name →
      (replay (drop ++ writing s (tmpName name) bytes) s).record key = s.record key :=
    fun key hne => record_congr (by rw [hfile, if_neg hne])
  rw [recovers_iff]
  constructor
  · rintro ⟨hintact, hsame, -⟩
    have hload := hintact (tmpName name) (by rw [hfile, if_pos rfl]; rfl)
    have hold := hsame (tmpName name) (tmpName_ne name).symm
    rw [htmp] at hload hold
    cases hb : binfmtLoad bytes with
    | error field =>
      rw [hb] at hload
      cases hload
    | ok old =>
      rw [hb] at hold
      exact ⟨old, hold.symm, rfl⟩
  · rintro ⟨old, hold, hload⟩
    have hsame : ∀ key, (replay (drop ++ writing s (tmpName name) bytes) s).record key =
        s.record key := by
      intro key
      by_cases hk : key = tmpName name
      · rw [hk, htmp, hload, hold]
        rfl
      · exact hothers key hk
    refine ⟨?_, fun key _ => hsame key, Or.inl (hsame name)⟩
    intro key hsome
    rw [hsame]
    by_cases hk : key = tmpName name
    · rw [hk, hold]
      rfl
    · rw [hfile, if_neg hk] at hsome
      exact hall key hsome

/-- After the move the new record is there, and the temporary file is not. -/
theorem recovers_moved_iff {drop tail : List Effect} (hall : ∀ key, Intact s key)
    (hdrop : ∀ e ∈ drop, e.files = []) (htail : ∀ e ∈ tail, e.files = [])
    (hload : binfmtLoad b.contents = .ok (reread b)) :
    Recovers s (replay (drop ++ (moving s name b ++ tail)) s) name b ↔
      s.file (tmpName name) = none := by
  have hadm := admindir_replay_of_noFiles drop s hdrop
  have hfile : ∀ key, (replay (drop ++ (moving s name b ++ tail)) s).file key =
      if key = name then some b.contents
      else if key = tmpName name then none else s.file key := by
    intro key
    rw [replay_append, replay_append, file_replay_drop htail, ← moving_congr hadm,
      file_replay_moving]
    simp only [Store.file, hadm]
  have hne := tmpName_ne name
  have hname : (replay (drop ++ (moving s name b ++ tail)) s).record name =
      some (reread b) := by
    rw [record_of_file (hfile name |>.trans (if_pos rfl)), hload]
    rfl
  rw [recovers_iff]
  constructor
  · rintro ⟨-, hothers, -⟩
    have hlost := hothers (tmpName name) hne.symm
    rw [record_of_missing (by rw [hfile, if_neg hne.symm, if_pos rfl])] at hlost
    by_contra hsome
    have hwas := hall (tmpName name) (Option.isSome_iff_ne_none.mpr hsome)
    rw [← hlost] at hwas
    cases hwas
  · intro hnone
    have hsame : ∀ key, key ≠ name →
        (replay (drop ++ (moving s name b ++ tail)) s).file key = s.file key := by
      intro key hk
      rw [hfile, if_neg hk]
      split
      · rename_i htmp
        rw [htmp, hnone]
      · rfl
    refine ⟨?_, fun key hk => record_congr (hsame key hk), Or.inr hname⟩
    intro key hsome
    by_cases hk : key = name
    · rw [hk, hname]
      rfl
    · rw [record_congr (hsame key hk)]
      rw [hsame key hk] at hsome
      exact hall key hsome

/-- A cut is safe by the stage in which it is. -/
theorem recovers_stage_iff (hall : ∀ key, Intact s key)
    (hload : binfmtLoad b.contents = .ok (reread b)) {done : List Effect}
    (hstage : Stage s name b done) :
    Recovers s (replay done s) name b ↔ SafeCut s name done := by
  cases hstage with
  | before h => exact ⟨fun _ => Or.inl h, fun _ => recovers_before hall h⟩
  | @cleared drop hdrop h =>
    refine iff_of_false (not_recovers_cleared hall h) ?_
    rintro (hfiles | ⟨hmem, -⟩ | ⟨hmem, -⟩)
    · have hunlink := hfiles (.unlink (tmpName name)) (by simp)
      cases hunlink
    · rcases List.mem_append.mp hmem with hd | hd
      · exact notMem_of_noFiles hdrop (by simp [Effect.files]) hd
      · simp at hd
    · rcases List.mem_append.mp hmem with hd | hd
      · exact notMem_of_noFiles hdrop (by simp [Effect.files]) hd
      · simp at hd
  | @begun drop hdrop k =>
    rw [recovers_begun_iff hall hdrop]
    have hcreate : Effect.create (tmpName name) ∈
        drop ++ writing s (tmpName name) (b.contents.take k) := by simp [writing]
    have hrename : Effect.rename (tmpName name) name ∉
        drop ++ writing s (tmpName name) (b.contents.take k) := by
      rw [List.mem_append, not_or]
      exact ⟨notMem_of_noFiles hdrop (by simp [Effect.files]),
        rename_notMem_writing _ _ _ _⟩
    have hbytes : appended (tmpName name) (drop ++ writing s (tmpName name)
        (b.contents.take k)) = b.contents.take k := by
      have hsplit : appended (tmpName name) (drop ++ writing s (tmpName name)
          (b.contents.take k)) = appended (tmpName name) drop ++
            appended (tmpName name) (writing s (tmpName name) (b.contents.take k)) :=
        List.filterMap_append
      rw [hsplit, appended_of_noFiles hdrop, appended_writing, List.nil_append]
    constructor
    · intro hold
      refine Or.inr (Or.inr ⟨hcreate, hrename, ?_⟩)
      rw [hbytes]
      exact hold
    · rintro (hfiles | ⟨hmem, -⟩ | ⟨-, -, hold⟩)
      · have hnone := hfiles _ hcreate
        cases hnone
      · exact absurd hmem hrename
      · rw [hbytes] at hold
        exact hold
  | @moved drop tail hdrop htail =>
    rw [recovers_moved_iff hall hdrop htail hload]
    have hrename : Effect.rename (tmpName name) name ∈
        drop ++ (moving s name b ++ tail) := by simp [moving]
    constructor
    · intro hnone
      exact Or.inr (Or.inl ⟨hrename, hnone⟩)
    · rintro (hfiles | ⟨-, hnone⟩ | ⟨-, hnot, -⟩)
      · have hno := hfiles _ hrename
        cases hno
      · exact hnone
      · exact absurd hrename hnot

end Cuts

/-- Exactly at which cuts of an installation a later run finds the formats that were
there before, apart from the installed name, which may have its new record. -/
theorem interrupted_recovers_iff (env : Env) (htest : env.test = false) (args : Arguments)
    (b : Binfmt) (hnew : binfmtNew args = .ok (.ok b)) (name : PlainName) (s : Store) (m : Memory)
    (hall : ∀ key, Intact s key) (done : List Effect)
    (hcut : done <+: ((actInstall env name.val (some b)).run s m).effects) :
    Recovers s (replay done s) name.val b ↔ SafeCut s name.val done :=
  recovers_stage_iff hall (binfmtLoad_contents b (accepted_of_binfmtNew hnew).fields_noNewline)
    (install_stage htest name.val b s m done hcut)

section Example

def firstArguments : Arguments :=
  kvhashInsert (kvhashInsert (kvhashInsert ∅ (text "package") (some (text "pkg")))
    (text "magic") (some (text "AB"))) (text "interpreter") (some (text "/usr/bin/new"))

def firstRecord : Binfmt :=
  ⟨some (text "pkg"), text "magic", text "0", some (text "AB"), [],
    some (text "/usr/bin/new"), none, none, none⟩

theorem intact_empty (key : Text) : Intact emptyStore key := by
  intro h
  cases h

def storedBefore : Store :=
  ⟨(AList.insert (text "wine") (text "wine\nmagic\n0\nMZ\n\n/usr/bin/wine\n\n\n\n") ∅).insert
      (text "prog") (text "pkg\nmagic\n0\nAB\n\n/usr/bin/old\n\n\n\n"), emptyStore.kernel⟩

def firstSteps (count : ℕ) : List Effect :=
  ((actInstall plainEnv (text "prog") (some firstRecord)).run storedBefore
    Memory.fresh).effects.take count

theorem intact_storedBefore (key : Text) : Intact storedBefore key := by
  intro hsome
  have hmem : key ∈ [text "prog", text "wine"] := by
    have hkeys : storedBefore.admindir.keys = [text "prog", text "wine"] := by decide +kernel
    rw [← hkeys, ← AList.mem_keys, ← AList.lookup_isSome]
    exact hsome
  simp only [List.mem_cons, List.not_mem_nil, or_false] at hmem
  rcases hmem with rfl | rfl <;> decide +kernel

/-- Cut between two bytes of the temporary file, the upgrade leaves a database that cannot be
read; cut after the move it leaves one that can. -/
theorem interrupted_recovers_upgrade :
    ¬ Recovers storedBefore (replay (firstSteps 5) storedBefore) (text "prog") firstRecord ∧
    Recovers storedBefore (replay (firstSteps 40) storedBefore) (text "prog") firstRecord := by
  have hcut : ∀ count, firstSteps count <+:
      ((actInstall plainEnv (text "prog") (some firstRecord)).run storedBefore
        Memory.fresh).effects := fun count => List.take_prefix count _
  constructor
  · rw [interrupted_recovers_iff plainEnv rfl firstArguments firstRecord (by decide +kernel)
      ⟨text "prog", by decide⟩ storedBefore Memory.fresh intact_storedBefore _ (hcut 5)]
    have hcreated : Effect.create (text "prog.tmp") ∈ firstSteps 5 := by decide +kernel
    rintro (hfiles | ⟨hrename, -⟩ | ⟨-, -, old, hold, -⟩)
    · exact absurd (hfiles _ hcreated) (by simp [Effect.files])
    · exact absurd hrename (by decide +kernel)
    · have hnone : storedBefore.record (text "prog.tmp") = none := by decide +kernel
      rw [show tmpName (text "prog") = text "prog.tmp" from rfl, hnone] at hold
      cases hold
  · exact (interrupted_recovers_iff plainEnv rfl firstArguments firstRecord (by decide +kernel)
      ⟨text "prog", by decide⟩ storedBefore Memory.fresh intact_storedBefore _ (hcut 40)).mpr
      (Or.inr (Or.inl ⟨by decide +kernel, by decide +kernel⟩))

/-- Killed once the temporary file is open, the next run finds a file without a record
and leaves. -/
theorem interrupted_by_open :
    binfmtNew firstArguments = .ok (.ok firstRecord) ∧ (∀ key, Intact emptyStore key) ∧
    [.create (text "prog.tmp")] <+:
      ((actInstall plainEnv (text "prog") (some firstRecord)).run emptyStore
        Memory.fresh).effects ∧
    ((loadAllFormats plainEnv false).run
      (replay [Effect.create (text "prog.tmp")] emptyStore) Memory.fresh).outcome =
      .exited 2 ∧
    ¬ Recovers emptyStore (replay [Effect.create (text "prog.tmp")] emptyStore) (text "prog")
      firstRecord := by
  have hexit : ((loadAllFormats plainEnv false).run
      (replay [Effect.create (text "prog.tmp")] emptyStore) Memory.fresh).outcome =
      .exited 2 := by decide +kernel
  refine ⟨by decide +kernel, intact_empty, by decide +kernel, hexit, ?_⟩
  intro h
  obtain ⟨m, hrun, -⟩ := h plainEnv plainEnv_reliable
  rw [hrun] at hexit
  cases hexit

end Example
end BinfmtSupport.Interruption
