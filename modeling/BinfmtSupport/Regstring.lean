import BinfmtSupport.Format

/-!
The line written to the register file and the way the kernel takes it apart.
act_enable pastes the fields around a fixed delimiter without escaping; the
reader trusts the first character to be the delimiter. The two agree exactly on
fields without a colon.
-/
namespace BinfmtSupport.Regstring

open CText Format

/-- The arguments of the format string in act_enable. -/
structure Registration where
  name : Text
  magicType : Bool
  offset : Text
  magic : Option Text
  mask : Text
  interpreter : Option Text
  credentials : Bool
  preserve : Bool
deriving DecidableEq, Repr

/-- Both members are compared with "yes"; NULL and anything else mean no. -/
def isYes (field : Option Text) : Bool := field == some (text "yes")

/-- The spec of a record, with the interpreter that act_enable has chosen. -/
def registrationOf (name : Text) (binfmt : Binfmt) (interpreter : Option Text) :
    Registration where
  name := name
  magicType := binfmt.type = text "magic"
  offset := binfmt.offset
  magic := binfmt.magic
  mask := binfmt.mask
  interpreter := interpreter
  credentials := isYes binfmt.credentials
  preserve := isYes binfmt.preserve

/-- How printf shows a string argument that may be NULL. -/
def printed (argument : Option Text) : Text := argument.getD (text "(null)")

namespace Registration

def typeLetter (r : Registration) : Text := if r.magicType then text "M" else text "E"

def flags (r : Registration) : Text :=
  (if r.credentials then text "C" else []) ++ (if r.preserve then text "P" else [])

/-- ":%s:%c:%s:%s:%s:%s:%s%s\n" -/
def regstring (r : Registration) : Text :=
  [colon] ++ r.name ++ [colon] ++ r.typeLetter ++ [colon] ++ r.offset ++ [colon] ++
    printed r.magic ++ [colon] ++ r.mask ++ [colon] ++ printed r.interpreter ++ [colon] ++
    r.flags ++ [newline]

def printedFields (r : Registration) : List Text :=
  [r.name, r.typeLetter, r.offset, printed r.magic, r.mask, printed r.interpreter, r.flags]

def fields (r : Registration) : List Text :=
  [r.name, r.typeLetter, r.offset, r.magic.getD [], r.mask, r.interpreter.getD [], r.flags]

theorem regstring_eq (r : Registration) :
    r.regstring = colon :: [colon].intercalate r.printedFields ++ [newline] := by
  simp [regstring, printedFields, List.intercalate]

end Registration

/-- Drop the final newline, take the first character as delimiter and split. -/
def decodeLine (line : Text) : List Text :=
  match line.rdropWhile (· = newline) with
  | [] => []
  | delimiter :: rest => rest.splitOn delimiter

/-- A format as the kernel knows it. Fields after the sixth are flags. -/
structure Entry where
  name : Text
  type : Text
  offset : Text
  magic : Text
  mask : Text
  interpreter : Text
  flags : List Text
deriving DecidableEq, Repr

def entryOf : List Text → Option Entry
  | name :: type :: offset :: magic :: mask :: interpreter :: flags =>
      some ⟨name, type, offset, magic, mask, interpreter, flags⟩
  | _ => none

theorem flags_noNewline (r : Registration) : newline ∉ r.flags := by
  unfold Registration.flags
  cases r.credentials <;> cases r.preserve <;> decide

theorem flags_noColon (r : Registration) : colon ∉ r.flags := by
  unfold Registration.flags
  cases r.credentials <;> cases r.preserve <;> decide

theorem typeLetter_noColon (r : Registration) : colon ∉ r.typeLetter := by
  unfold Registration.typeLetter
  cases r.magicType <;> decide

/-- Only the newline of the format string is dropped from a registration line. -/
theorem regstring_dropNewline (r : Registration) :
    r.regstring.rdropWhile (· = newline) = colon :: [colon].intercalate r.printedFields := by
  rw [Registration.regstring_eq, List.rdropWhile_concat_pos _ _ _ (by simp)]
  have hfront : colon :: [colon].intercalate r.printedFields =
      (colon :: [colon].intercalate (r.printedFields.take 6)) ++ colon :: r.flags := by
    simp [Registration.printedFields, List.intercalate]
  rw [hfront, List.rdropWhile_eq_self_iff]
  intro hne
  have hmem : (colon :: [colon].intercalate (r.printedFields.take 6) ++
      colon :: r.flags).getLast hne ∈ colon :: r.flags := by
    rw [List.getLast_append_of_ne_nil _ (List.cons_ne_nil colon r.flags)]
    exact List.getLast_mem _
  have hnl : newline ∉ colon :: r.flags := by
    simpa [colon, newline] using flags_noNewline r
  simp only [decide_eq_true_eq]
  intro heq
  exact hnl (heq ▸ hmem)

theorem decodeLine_regstring (r : Registration) :
    decodeLine r.regstring = ([colon].intercalate r.printedFields).splitOn colon := by
  unfold decodeLine
  rw [regstring_dropNewline]

/-- No string that the line transports contains the delimiter. -/
def NoColon (r : Registration) : Prop :=
  colon ∉ r.name ∧ colon ∉ r.offset ∧ colon ∉ printed r.magic ∧ colon ∉ r.mask ∧
    colon ∉ printed r.interpreter

instance (r : Registration) : Decidable (NoColon r) :=
  inferInstanceAs (Decidable (colon ∉ r.name ∧ colon ∉ r.offset ∧ colon ∉ printed r.magic ∧
    colon ∉ r.mask ∧ colon ∉ printed r.interpreter))

theorem noColon_iff (r : Registration) :
    NoColon r ↔ ∀ field ∈ r.printedFields, colon ∉ field := by
  have ht := typeLetter_noColon r
  have hf := flags_noColon r
  simp only [NoColon, Registration.printedFields, List.mem_cons, List.not_mem_nil, or_false,
    forall_eq_or_imp, forall_eq]
  tauto

/-- The kernel recovers the printed strings exactly when none has a colon. -/
theorem decodeLine_printedFields_iff (r : Registration) :
    decodeLine r.regstring = r.printedFields ↔ NoColon r := by
  rw [decodeLine_regstring, noColon_iff]
  exact splitOn_intercalate_iff colon _ (by simp [Registration.printedFields])

/-- The entry that a line without stray colons creates. -/
theorem entryOf_decodeLine (r : Registration) (h : NoColon r) :
    entryOf (decodeLine r.regstring) = some ⟨r.name, r.typeLetter, r.offset, printed r.magic,
      r.mask, printed r.interpreter, [r.flags]⟩ := by
  rw [(decodeLine_printedFields_iff r).mpr h]
  rfl

/-- Whatever the fields are, the kernel takes the name up to its first colon. -/
theorem name_of_entryOf {r : Registration} {e : Entry}
    (h : entryOf (decodeLine r.regstring) = some e) :
    e.name = r.name.takeWhile (fun c => c ≠ colon) := by
  have hhead := head?_splitOn colon ([colon].intercalate r.printedFields)
  have hline : ([colon].intercalate r.printedFields).takeWhile (fun c => c ≠ colon) =
      r.name.takeWhile (fun c => c ≠ colon) := by
    have hjoin : [colon].intercalate r.printedFields =
        r.name ++ colon :: [colon].intercalate (r.printedFields.drop 1) := by
      simp [Registration.printedFields, List.intercalate]
    rw [hjoin, List.takeWhile_append]
    split
    · rename_i hlen
      have hall : r.name.takeWhile (fun c => c ≠ colon) = r.name :=
        (List.takeWhile_prefix _).eq_of_length hlen
      rw [hall, List.takeWhile_cons_of_neg (by simp), List.append_nil]
    · rfl
  rw [← decodeLine_regstring, hline] at hhead
  cases hfields : decodeLine r.regstring with
  | nil => simp [hfields] at hhead
  | cons name rest =>
    rw [hfields, List.head?_cons, Option.some.injEq] at hhead
    rw [hfields] at h
    unfold entryOf at h
    split at h
    · rename_i heq
      cases h
      cases heq
      exact hhead
    · cases h

end BinfmtSupport.Regstring
