import BinfmtSupport.CommandLine
import BinfmtSupport.Installing
import BinfmtSupport.Records

/-!
Writing a record and reading it back. The nine fields of an accepted record are copied
from the arguments, the writer adds newlines only, and the reader trims each line; so
the record comes back as it was exactly when no argument it was made of ends in white
space.
-/
namespace BinfmtSupport.RoundTrip

open CText Kvhash Format Journal Stores Actions Installing Records CommandLine

def recordKeys (args : Arguments) : List String :=
  ["package", "type", "offset",
    match resolveType args (argument args "type") (argument args "magic") with
    | .ok type => magicKey type
    | .error _ => "magic",
    "mask", "interpreter", "detector", "credentials", "preserve"]

/-- No value that goes into the record ends in white space. -/
def Untrimmed (args : Arguments) : Prop :=
  ∀ key ∈ recordKeys args, ∀ value, argument args key = some value → NoTrailingSpace value

section Fields
variable {args : Arguments} {b : Binfmt}

theorem recordKeys_of_accepted (h : Accepted args b) :
    recordKeys args = ["package", "type", "offset", magicKey b.type, "mask", "interpreter",
      "detector", "credentials", "preserve"] := by
  simp only [recordKeys, h.type]

theorem getD_iff (P : Text → Prop) (hnil : P []) (value : Option Text) :
    P (value.getD []) ↔ ∀ t, value = some t → P t := by
  cases value with
  | none => simp [hnil]
  | some t => simp

/-- A property of texts that the defaults have holds of all fields of a record exactly
when it holds of the arguments that the record is made of. -/
theorem fields_iff_arguments (P : Text → Prop) (hnil : P []) (hzero : P (text "0"))
    (hmagic : P (text "magic")) (hextension : P (text "extension")) (h : Accepted args b) :
    (∀ field ∈ b.fields, P (field.getD [])) ↔
      ∀ key ∈ recordKeys args, ∀ value, argument args key = some value → P value := by
  have htype : P b.type ↔ ∀ t, argument args "type" = some t → P t := by
    rcases h.type_cases with ht | ⟨ht, htype | htype⟩
    · simp [ht]
    · simp [ht, htype, hmagic]
    · simp [ht, htype, hextension]
  have hoffset : P b.offset ↔ ∀ t, argument args "offset" = some t → P t := by
    rw [h.offset]
    cases ho : argument args "offset" with
    | none => simp [defaultOffset, hzero]
    | some t =>
      cases t with
      | nil => simp [defaultOffset, hzero, hnil]
      | cons c t => simp [defaultOffset]
  rw [recordKeys_of_accepted h]
  simp only [Binfmt.fields, List.mem_cons, List.not_mem_nil, or_false, forall_eq_or_imp,
    forall_eq, Option.getD_some]
  rw [htype, hoffset, h.package, h.magic, h.mask, h.interpreter, h.detector, h.credentials,
    h.preserve]
  simp only [getD_iff P hnil]

end Fields

/-- A file that binfmt_write reports as written holds the contents of the record. -/
theorem file_of_binfmtWrite (env : Env) (b : Binfmt) (file : Text) (s : Store) (m : Memory)
    (hret : ((binfmtWrite env (some b) file).run s m).outcome = .returned true) :
    (((binfmtWrite env (some b) file).run s m).state s).file file = some b.contents := by
  rcases binfmtWrite_cases env b file s m with ⟨m', hrun, -⟩ | ⟨m', es, hrun, -⟩
  · rw [hrun]
    change (replay (writing s file b.contents) s).file file = _
    rw [file_replay_writing, if_pos rfl]
  · rw [hrun] at hret
    cases hret

/-- Writing works if the three calls that it makes do, and then reading gives an accepted
record back, with absent fields empty, exactly when no argument it was made of ends in white
space. -/
theorem write_load_iff (env : Env) (args : Arguments) (b : Binfmt)
    (hnul : ∀ key value, argument args key = some value → NulFree value)
    (hnew : binfmtNew args = .ok (.ok b)) (file : Text) (s : Store) (m : Memory) :
    (((binfmtWrite env (some b) file).run s m).outcome = .returned true ↔
      ∀ i < 3, env.ok (m.clock + i) = true) ∧
    (((binfmtWrite env (some b) file).run s m).outcome = .returned true →
      ((∃ content, (((binfmtWrite env (some b) file).run s m).state s).file file = some content ∧
        binfmtLoad content = .ok (stored b)) ↔ Untrimmed args)) := by
  have hacc := accepted_of_binfmtNew hnew
  have hfree : ∀ field ∈ b.fields, NulFree (field.getD []) := by
    rw [fields_iff_arguments NulFree (by decide) (by decide) (by decide) (by decide) hacc]
    intro key _ value hv
    exact hnul key value hv
  have hload := binfmtLoad_contents b hacc.fields_noNewline
  refine ⟨binfmtWrite_works_iff env b file s m, fun hret => ?_⟩
  rw [file_of_binfmtWrite env b file s m hret]
  simp only [Option.some.injEq, exists_eq_left', hload, Except.ok.injEq]
  rw [reread_eq_stored_iff b hfree]
  exact fields_iff_arguments NoTrailingSpace (by decide) (by decide) (by decide) (by decide) hacc

section Examples

def plainArguments : Arguments :=
  kvhashInsert (kvhashInsert (kvhashInsert ∅ (text "package") (some (text "pkg")))
    (text "magic") (some (text "AB"))) (text "interpreter") (some (text "/usr/bin/new"))

def plainRecord : Binfmt :=
  ⟨some (text "pkg"), text "magic", text "0", some (text "AB"), [],
    some (text "/usr/bin/new"), none, none, none⟩

/-- What a lookup finds is in the table. -/
theorem mem_of_argument {args : Arguments} {key : String} {value : Text}
    (h : argument args key = some value) : ⟨text key, some value⟩ ∈ args.entries := by
  unfold argument kvhashLookup at h
  rw [Option.join_eq_some_iff] at h
  exact AList.mem_lookup_iff.mp h

theorem nulFree_plain (key : String) (value : Text)
    (h : argument plainArguments key = some value) : NulFree value := by
  have hall : ∀ e ∈ plainArguments.entries, NulFree (e.2.getD []) := by decide
  exact hall _ (mem_of_argument h)

/-- A record without white space, written over an older one. -/
theorem write_load_plain :
    ((binfmtWrite plainEnv (some plainRecord) (text "wine")).run (busyStore [])
      Memory.fresh).outcome = .returned true ∧
    ((∃ content, (((binfmtWrite plainEnv (some plainRecord) (text "wine")).run (busyStore [])
        Memory.fresh).state (busyStore [])).file (text "wine") = some content ∧
      binfmtLoad content = .ok (stored plainRecord)) ↔ Untrimmed plainArguments) := by
  obtain ⟨hworks, hiff⟩ := write_load_iff plainEnv plainArguments plainRecord nulFree_plain
    (by decide +kernel) (text "wine") (busyStore []) Memory.fresh
  have hret := hworks.mpr (fun _ _ => rfl)
  exact ⟨hret, hiff hret⟩

def spacedOptions : List Opt :=
  [.mode .install [text "prog", text "/opt/my program "], .magic (text "AB")]

def spacedRecord : Binfmt :=
  ⟨some (text ":"), text "magic", text "0", some (text "AB"), [],
    some (text "/opt/my program "), none, none, none⟩

/-- An interpreter whose path ends in a space comes back without it. -/
theorem trailing_space_lost : recordOf spacedOptions = some spacedRecord ∧
    ((binfmtWrite plainEnv (some spacedRecord) (text "prog.tmp")).run emptyStore
      Memory.fresh).outcome = .returned true ∧
    (((binfmtWrite plainEnv (some spacedRecord) (text "prog.tmp")).run emptyStore
      Memory.fresh).state emptyStore).record (text "prog.tmp") =
      some { stored spacedRecord with interpreter := some (text "/opt/my program") } ∧
    (((binfmtWrite plainEnv (some spacedRecord) (text "prog.tmp")).run emptyStore
      Memory.fresh).state emptyStore).record (text "prog.tmp") ≠ some (stored spacedRecord) := by
  decide +kernel

end Examples
end BinfmtSupport.RoundTrip
