import BinfmtSupport.CommandLine
import BinfmtSupport.Installing

/-!
Installing over an older record of the same package. The new record goes to the file,
but the table keeps the old one, and the line for the kernel is built from the table.
So the line is the new record's own exactly when the two records say the same in every
field that the line is built from.
-/
namespace BinfmtSupport.Replacement

open CText Kvhash Format Regstring Journal Stores Actions Loading Enabling Installing CommandLine

/-- The line is built from this record, with its interpreter or with run-detectors. -/
def OwnLine (env : Env) (name : Text) (b : Binfmt) (r : Registration) : Prop :=
  ∃ interpreter, (interpreter = b.interpreter ∨ interpreter = some env.runDetectors) ∧
    r = registrationOf name b interpreter

/-- The database once the temporary file of an installation is gone. -/
def withoutTmp (s : Store) (name : Text) : Store := (Effect.unlink (tmpName name)).apply s

/-- An older record from which the line comes out as from the new one. -/
structure SameLine (env : Env) (s : Store) (t : Table Text Binfmt) (name : Text)
    (old b : Binfmt) : Prop where
  type : old.type = text "magic" ↔ b.type = text "magic"
  offset : old.offset = b.offset
  magic : old.magic = b.magic
  mask : old.mask = b.mask
  credentials : isYes old.credentials = isYes b.credentials
  preserve : isYes old.preserve = isYes b.preserve
  interpreter : old.interpreter = b.interpreter ∨ old.interpreter = some env.runDetectors ∨
    NeedsDetector (withoutTmp s name) t name old

theorem file_withoutTmp (s : Store) (name key : Text) :
    (withoutTmp s name).file key = if key = tmpName name then none else s.file key :=
  file_unlink _ _ _

/-- Building a line loses nothing but the parts that the kernel never sees. -/
theorem registrationOf_eq_iff (name : Text) (b b' : Binfmt) (i i' : Option Text) :
    registrationOf name b i = registrationOf name b' i' ↔
      (b.type = text "magic" ↔ b'.type = text "magic") ∧ b.offset = b'.offset ∧
        b.magic = b'.magic ∧ b.mask = b'.mask ∧ i = i' ∧
        isYes b.credentials = isYes b'.credentials ∧ isYes b.preserve = isYes b'.preserve := by
  simp only [registrationOf, Registration.mk.injEq, true_and, decide_eq_decide]

section Table

/-- The record of the name itself does not count. -/
theorem needsDetector_congr_others {s u : Store} {t t' : Table Text Binfmt} {name : Text}
    {b : Binfmt} (h : ∀ key, key ≠ name → visible u t' key = visible s t key) :
    NeedsDetector u t' name b ↔ NeedsDetector s t name b := by
  rw [NeedsDetector, NeedsDetector, Shared, Shared]
  apply or_congr_right
  constructor
  · rintro ⟨key, hne, other, hv, heq⟩
    exact ⟨key, hne, other, (h key hne).symm.trans hv, heq⟩
  · rintro ⟨key, hne, other, hv, heq⟩
    exact ⟨key, hne, other, (h key hne).trans hv, heq⟩

variable {name : Text} {b : Binfmt} {s u : Store} (hfile : ∀ key, u.file key =
  if key = name then some b.contents else if key = tmpName name then none else s.file key)
include hfile

/-- Once the new file is in place the table still shows the older record of the name, if
there was one. -/
theorem visible_installed (t : Table Text Binfmt) (key : Text) :
    visible u (kvhashInsert (remembered t name (s.record name)) name b) key =
      if key = name then some ((visible s t name).getD b)
      else visible (withoutTmp s name) t key := by
  split
  · subst key
    rw [visible, kvhashLookup_insert, lookup_remembered, if_pos rfl, Option.some_or, visible]
  · rename_i hne
    rw [visible, visible, kvhashLookup_insert_ne hne, lookup_remembered, if_neg hne,
      Option.or_none]
    congr 1
    apply record_congr
    rw [hfile, if_neg hne, file_withoutTmp]

/-- The other records are those that are there without the temporary file. -/
theorem needsDetector_installed (t : Table Text Binfmt) (c : Binfmt) :
    NeedsDetector u (kvhashInsert (remembered t name (s.record name)) name b) name c ↔
      NeedsDetector (withoutTmp s name) t name c :=
  needsDetector_congr_others (fun key hne =>
    (visible_installed hfile t key).trans (if_neg hne))

end Table

section Install
variable {env : Env} {name : Text} {b : Binfmt} {s : Store} {m : Memory}

/-- A line is registered only in the last step, and then from the record in the table. -/
theorem install_registers (htest : env.test = false)
    (hret : ((actInstall env name (some b)).run s m).outcome = .returned true)
    (r : Registration) (e : Entry)
    (hreg : .register r e ∈ ((actInstall env name (some b)).run s m).effects) :
    (((actInstall env name (some b)).run s m).state s).file name = some b.contents ∧
    ∃ d, (d = true ↔ NeedsDetector (withoutTmp s name) m.formats name
        ((visible s m.formats name).getD b)) ∧
      r = registrationOf name ((visible s m.formats name).getD b)
        (chooseInterpreter env ((visible s m.formats name).getD b) d) := by
  rcases actInstall_cases env htest name b s m with
    ⟨o, m', es, hrun, hes, -⟩ | ⟨m', drop, es, hrun, -⟩ |
    ⟨o, m', m₁, m₂, drop, es, hrun, hdrop, -, -, -, hf₁, -, hen⟩
  · rw [hrun] at hreg
    rcases hes with rfl | rfl <;> simp at hreg
  · rw [hrun] at hret
    cases hret
  · have hfile := file_replay_dropped_moving hdrop b
    have hvis := visible_installed hfile m.formats
    rw [← hf₁] at hvis
    rw [hrun] at hret hreg ⊢
    have hold : Effect.register r e ∈ es := by
      simp only [List.mem_append] at hreg
      rcases hreg with h | h | h
      · rcases hdrop.shape with ⟨rfl, -⟩ | ⟨rfl, -⟩ <;> simp at h
      · exact absurd rfl (files_of_mem_moving h)
      · exact h
    rcases actEnableName_cases env htest name (replay (drop ++ moving s name b) s) m₁ with
      ⟨m₃, es₃, hrun₃, hset, -⟩ | ⟨o₃, m₃, es₃, hrun₃, hne, -⟩ |
      ⟨m₃, es₃, c, d, r₃, e₃, hrun₃, hset, -, -, -, hc, hd, hr₃, -⟩
    · rw [hen] at hrun₃
      cases hrun₃
      cases hset _ hold
    · rw [hen] at hrun₃
      cases hrun₃
      exact absurd hret hne
    · rw [hen] at hrun₃
      cases hrun₃
      rw [hvis, if_pos rfl] at hc
      cases hc
      have hline : Effect.register r e = .register r₃ e₃ := by
        rcases List.mem_append.mp hold with h | h
        · cases hset _ h
        · exact List.mem_singleton.mp h
      cases hline
      refine ⟨?_, d, ?_, hr₃⟩
      · change (replay (drop ++ (moving s name b ++ _)) s).file name = _
        rw [← List.append_assoc, replay_append, file_replay_of_notMem, hfile, if_pos rfl]
        intro x hx
        rcases List.mem_append.mp hx with h | h
        · rw [files_of_isSetup x (hset x h)]
          simp
        · rw [List.mem_singleton.mp h]
          simp [Effect.files]
      · rw [hd, hf₁]
        exact needsDetector_installed hfile m.formats _

/-- After an installation that worked and registered a line, the file holds the new
record, and the line is its own exactly when no older record that says otherwise was
in the table or in the database. -/
theorem install_ownLine_iff (htest : env.test = false)
    (hret : ((actInstall env name (some b)).run s m).outcome = .returned true)
    (r : Registration) (e : Entry)
    (hreg : .register r e ∈ ((actInstall env name (some b)).run s m).effects) :
    ((((actInstall env name (some b)).run s m).state s).file name = some b.contents ∧
      OwnLine env name b r) ↔
    ∀ old, visible s m.formats name = some old → SameLine env s m.formats name old b := by
  obtain ⟨hfile, d, hd, hr⟩ := install_registers htest hret r e hreg
  constructor
  · rintro ⟨-, i, hi, hown⟩ old hold
    rw [hold, Option.getD_some] at hd hr
    rw [hr, registrationOf_eq_iff] at hown
    obtain ⟨htype, hoffset, hmagic, hmask, hinterp, hcred, hpres⟩ := hown
    refine ⟨htype, hoffset, hmagic, hmask, hcred, hpres, ?_⟩
    cases d with
    | true => exact Or.inr (Or.inr (hd.mp rfl))
    | false =>
      have hsame : old.interpreter = i := hinterp
      rcases hi with hi | hi
      · exact Or.inl (hsame.trans hi)
      · exact Or.inr (Or.inl (hsame.trans hi))
  · intro hsame
    refine ⟨hfile, ?_⟩
    cases hold : visible s m.formats name with
    | none =>
      rw [hold, Option.getD_none] at hr
      refine ⟨chooseInterpreter env b d, ?_, hr⟩
      cases d with
      | true => exact Or.inr rfl
      | false => exact Or.inl rfl
    | some old =>
      rw [hold, Option.getD_some] at hd hr
      have hline := hsame old hold
      refine ⟨chooseInterpreter env old d, ?_, ?_⟩
      · cases d with
        | true => exact Or.inr rfl
        | false =>
          rcases hline.interpreter with h | h | h
          · exact Or.inl h
          · exact Or.inr h
          · exact absurd (hd.mpr h) Bool.false_ne_true
      · rw [hr, registrationOf_eq_iff]
        exact ⟨hline.type, hline.offset, hline.magic, hline.mask, rfl, hline.credentials,
          hline.preserve⟩

end Install

section Upgrade

def oldOptions : List Opt :=
  [.mode .install [text "prog", text "/usr/bin/old"], .package (text "pkg"),
    .magic (text "ABCD")]

def newOptions : List Opt :=
  [.mode .install [text "prog", text "/usr/bin/new"], .package (text "pkg"),
    .magic (text "ABCE")]

def oldRecord : Binfmt :=
  ⟨some (text "pkg"), text "magic", text "0", some (text "ABCD"), [],
    some (text "/usr/bin/old"), none, none, none⟩

def newRecord : Binfmt :=
  ⟨some (text "pkg"), text "magic", text "0", some (text "ABCE"), [],
    some (text "/usr/bin/new"), none, none, none⟩

def upgraded : Store :=
  ((actInstall plainEnv (text "prog") (some oldRecord)).run emptyStore Memory.fresh).state
    emptyStore

def probedRecord : Binfmt := { oldRecord with detector := some (text "/usr/lib/probe") }

/-- An upgrade that the line does not depend on registers its own line. -/
theorem install_ownLine_probed :
    (((actInstall plainEnv (text "prog") (some probedRecord)).run upgraded
      Memory.fresh).state upgraded).file (text "prog") = some probedRecord.contents ∧
    OwnLine plainEnv (text "prog") probedRecord
      (registrationOf (text "prog") oldRecord oldRecord.interpreter) := by
  refine (install_ownLine_iff rfl (by decide +kernel) _
    ⟨text "prog", text "M", text "0", text "ABCD", [], text "/usr/bin/old", [[]]⟩
    (by decide +kernel)).mpr (fun old hold => ?_)
  have hstored : visible upgraded Memory.fresh.formats (text "prog") =
      some { oldRecord with
        detector := some [], credentials := some [], preserve := some [] } := by
    decide +kernel
  cases hstored.symm.trans hold
  exact ⟨Iff.rfl, rfl, rfl, rfl, rfl, rfl, Or.inl rfl⟩

/-- The second installation stores the new record and registers the old magic. -/
theorem upgrade_registers_old :
    recordOf oldOptions = some oldRecord ∧ recordOf newOptions = some newRecord ∧
    ((actInstall plainEnv (text "prog") (some newRecord)).run upgraded
      Memory.fresh).outcome = .returned true ∧
    .register (registrationOf (text "prog") oldRecord oldRecord.interpreter)
      ⟨text "prog", text "M", text "0", text "ABCD", [], text "/usr/bin/old", [[]]⟩ ∈
      ((actInstall plainEnv (text "prog") (some newRecord)).run upgraded
        Memory.fresh).effects ∧
    (((actInstall plainEnv (text "prog") (some newRecord)).run upgraded
      Memory.fresh).state upgraded).file (text "prog") = some newRecord.contents ∧
    ¬ OwnLine plainEnv (text "prog") newRecord
      (registrationOf (text "prog") oldRecord oldRecord.interpreter) := by
  refine ⟨by decide +kernel, by decide +kernel, by decide +kernel, by decide +kernel,
    by decide +kernel, ?_⟩
  rintro ⟨interpreter, -, hline⟩
  have hmagic : some (text "ABCD") = some (text "ABCE") := congrArg Registration.magic hline
  revert hmagic
  decide

end Upgrade
end BinfmtSupport.Replacement
