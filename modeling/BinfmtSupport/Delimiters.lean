import BinfmtSupport.Replacement

/-!
Which registration lines the kernel reads as they were meant. The fields are pasted
around colons as they are, and an absent magic or interpreter is printed as "(null)";
so a line is understood exactly when neither of these can happen.
-/
namespace BinfmtSupport.Delimiters

open CText Kvhash Format Regstring Journal Stores Actions Loading Enabling CommandLine

def lineFields (name : Text) (b : Binfmt) (interpreter : Option Text) : List Text :=
  [name, if b.type = text "magic" then text "M" else text "E", b.offset, b.magic.getD [],
    b.mask, interpreter.getD [],
    (if isYes b.credentials then text "C" else []) ++
      (if isYes b.preserve then text "P" else [])]

/-- No field of the line has a colon or is absent; of the two interpreters only the one
that is chosen counts. -/
structure LineSafe (env : Env) (s : Store) (t : Table Text Binfmt) (name : Text)
    (b : Binfmt) : Prop where
  name_free : colon ∉ name
  offset_free : colon ∉ b.offset
  magic_free : ∃ magic, b.magic = some magic ∧ colon ∉ magic
  mask_free : colon ∉ b.mask
  detector_free : NeedsDetector s t name b → colon ∉ env.runDetectors
  interpreter_free : ¬ NeedsDetector s t name b →
    ∃ interpreter, b.interpreter = some interpreter ∧ colon ∉ interpreter

section Decoding

theorem lineFields_eq (name : Text) (b : Binfmt) (interpreter : Option Text) :
    lineFields name b interpreter = (registrationOf name b interpreter).fields := by
  by_cases htype : b.type = text "magic" <;>
    simp [lineFields, Registration.fields, registrationOf, Registration.typeLetter,
      Registration.flags, htype]

/-- "(null)" is never what an absent string should read as. -/
theorem printed_eq_getD_iff (argument : Option Text) :
    printed argument = argument.getD [] ↔ argument.isSome = true := by
  cases argument with
  | none =>
    simp only [printed, Option.getD_none, Option.isSome_none, Bool.false_eq_true, iff_false]
    decide
  | some t => simp [printed]

/-- Whatever the line holds, splitting it leaves no colon in any part. -/
theorem noColon_of_decodeLine (r : Registration) :
    ∀ field ∈ decodeLine r.regstring, colon ∉ field := by
  rw [decodeLine_regstring]
  exact notMem_of_mem_splitOn colon _

/-- The parts of a line are its own fields exactly when it is printed as it is meant and
no field has a colon. -/
theorem decodeLine_fields_iff (r : Registration) :
    decodeLine r.regstring = r.fields ↔
      r.magic.isSome = true ∧ r.interpreter.isSome = true ∧ NoColon r := by
  constructor
  · intro h
    have hfields : ∀ field ∈ r.fields, colon ∉ field := by
      rw [← h]
      exact noColon_of_decodeLine r
    simp only [Registration.fields, List.mem_cons, List.not_mem_nil, or_false,
      forall_eq_or_imp, forall_eq] at hfields
    obtain ⟨hname, -, hoffset, hmagic, hmask, hinterp, -⟩ := hfields
    have hcolon : NoColon r := by
      refine ⟨hname, hoffset, ?_, hmask, ?_⟩
      · cases hm : r.magic with
        | none => decide
        | some magic => simpa [hm, printed] using hmagic
      · cases hi : r.interpreter with
        | none => decide
        | some interpreter => simpa [hi, printed] using hinterp
    have hprinted := (decodeLine_printedFields_iff r).mpr hcolon
    rw [h] at hprinted
    simp only [Registration.fields, Registration.printedFields, List.cons.injEq, and_true,
      true_and] at hprinted
    refine ⟨?_, ?_, hcolon⟩
    · exact (printed_eq_getD_iff r.magic).mp hprinted.1.symm
    · exact (printed_eq_getD_iff r.interpreter).mp hprinted.2.symm
  · rintro ⟨hmagic, hinterp, hcolon⟩
    rw [(decodeLine_printedFields_iff r).mpr hcolon]
    simp only [Registration.fields, Registration.printedFields,
      (printed_eq_getD_iff r.magic).mpr hmagic, (printed_eq_getD_iff r.interpreter).mpr hinterp]

end Decoding

section Enable
variable {env : Env} {name : Text} {s : Store} {m : Memory}

theorem chosen_safe_iff (b : Binfmt) (d : Bool)
    (hd : d = true ↔ NeedsDetector s m.formats name b) :
    ((registrationOf name b (chooseInterpreter env b d)).magic.isSome = true ∧
      (registrationOf name b (chooseInterpreter env b d)).interpreter.isSome = true ∧
      NoColon (registrationOf name b (chooseInterpreter env b d))) ↔
    LineSafe env s m.formats name b := by
  have hmagic : (registrationOf name b (chooseInterpreter env b d)).magic = b.magic := rfl
  have hinterp : (registrationOf name b (chooseInterpreter env b d)).interpreter =
      chooseInterpreter env b d := rfl
  constructor
  · rintro ⟨hm, hi, hname, hoffset, hm', hmask, hi'⟩
    rw [hmagic] at hm hm'
    rw [hinterp] at hi hi'
    obtain ⟨magic, hb⟩ := Option.isSome_iff_exists.mp hm
    refine ⟨hname, hoffset, ⟨magic, hb, ?_⟩, hmask, ?_, ?_⟩
    · simpa [hb, printed] using hm'
    · intro hneed
      have htrue := hd.mpr hneed
      simpa [htrue, chooseInterpreter, printed] using hi'
    · intro hneed
      have hfalse : d = false := by
        rw [← Bool.not_eq_true, hd]
        exact hneed
      simp only [hfalse, chooseInterpreter, Bool.false_eq_true, if_false] at hi hi'
      obtain ⟨interpreter, hb'⟩ := Option.isSome_iff_exists.mp hi
      exact ⟨interpreter, hb', by simpa [hb', printed] using hi'⟩
  · intro hsafe
    obtain ⟨magic, hb, hcolon⟩ := hsafe.magic_free
    have hchosen : ∃ interpreter, chooseInterpreter env b d = some interpreter ∧
        colon ∉ interpreter := by
      cases d with
      | true => exact ⟨env.runDetectors, rfl, hsafe.detector_free (hd.mp rfl)⟩
      | false =>
        apply hsafe.interpreter_free
        intro hneed
        exact Bool.false_ne_true (hd.mpr hneed)
    obtain ⟨interpreter, hi, hcolon'⟩ := hchosen
    refine ⟨?_, ?_, hsafe.name_free, hsafe.offset_free, ?_, hsafe.mask_free, ?_⟩
    · rw [hmagic, hb]
      rfl
    · rw [hinterp, hi]
      rfl
    · rw [hmagic, hb]
      exact hcolon
    · rw [hinterp, hi]
      exact hcolon'

/-- The kernel reads a line that act_enable registers as the seven fields of the record
exactly when the line is safe. -/
theorem enable_decodes_iff (htest : env.test = false) (r : Registration) (e : Entry)
    (hreg : .register r e ∈ ((actEnableName env name).run s m).effects) :
    ∃ b d, visible s m.formats name = some b ∧
      (d = true ↔ NeedsDetector s m.formats name b) ∧
      (decodeLine r.regstring = lineFields name b (chooseInterpreter env b d) ↔
        LineSafe env s m.formats name b) := by
  rcases actEnableName_cases env htest name s m with
    ⟨m', es, hrun, hset, -⟩ | ⟨o, m', es, hrun, -, hset, -⟩ |
    ⟨m', es, b, d, r', e', hrun, hset, -, -, -, hb, hd, hr', -⟩
  · rw [hrun] at hreg
    cases hset _ hreg
  · rw [hrun] at hreg
    cases hset _ hreg
  · rw [hrun] at hreg
    have hline : Effect.register r e = .register r' e' := by
      rcases List.mem_append.mp hreg with h | h
      · cases hset _ h
      · exact List.mem_singleton.mp h
    cases hline
    refine ⟨b, d, hb, hd, ?_⟩
    rw [lineFields_eq, ← hr', decodeLine_fields_iff, hr']
    exact chosen_safe_iff b d hd

end Enable

section Colon

def colonOptions : List Opt :=
  [.mode .install [text "prog", text "/usr/bin/new"], .magic (text "A:B")]

def colonRecord : Binfmt :=
  ⟨some (text ":"), text "magic", text "0", some (text "A:B"), [],
    some (text "/usr/bin/new"), none, none, none⟩

def plainRecord : Binfmt := { colonRecord with magic := some (text "AB") }

def holding (name : Text) (b : Binfmt) : Store :=
  (Effect.rename (tmpName name) name).apply
    (replay (Effect.create (tmpName name) :: b.contents.map (Effect.append (tmpName name)))
      emptyStore)

/-- An ordinary record, registered by a later --enable. -/
theorem enable_decodes_plain : ∃ b d,
    visible (holding (text "prog") plainRecord) Memory.fresh.formats (text "prog") = some b ∧
    (d = true ↔
      NeedsDetector (holding (text "prog") plainRecord) Memory.fresh.formats (text "prog") b) ∧
    (decodeLine (text ":prog:M:0:AB::/usr/bin/new:\n") =
        lineFields (text "prog") b (chooseInterpreter plainEnv b d) ↔
      LineSafe plainEnv (holding (text "prog") plainRecord) Memory.fresh.formats
        (text "prog") b) :=
  enable_decodes_iff rfl (registrationOf (text "prog") plainRecord plainRecord.interpreter)
    ⟨text "prog", text "M", text "0", text "AB", [], text "/usr/bin/new", [[]]⟩
    (by decide +kernel)

/-- A magic with a colon moves the mask and the interpreter by one field. -/
theorem colon_shifts_fields :
    recordOf colonOptions = some colonRecord ∧
    .register (registrationOf (text "prog") colonRecord colonRecord.interpreter)
      ⟨text "prog", text "M", text "0", text "A", text "B", [],
        [text "/usr/bin/new", []]⟩ ∈
      ((actInstall plainEnv (text "prog") (some colonRecord)).run emptyStore
        Memory.fresh).effects ∧
    decodeLine (registrationOf (text "prog") colonRecord colonRecord.interpreter).regstring ≠
      lineFields (text "prog") colonRecord colonRecord.interpreter := by
  decide +kernel

end Colon
end BinfmtSupport.Delimiters
