import BinfmtSupport.CText
import BinfmtSupport.Kvhash

/-!
Binary format records and their files: format.c.
A `char *` member that the code lets be NULL is an `Option`; the members that
binfmt_new and binfmt_load always set (type, offset and mask) are plain text.
The member `name` is left out: nothing reads it back.
-/
namespace BinfmtSupport.Format

open CText Kvhash

structure Binfmt where
  package : Option Text
  type : Text
  offset : Text
  magic : Option Text
  mask : Text
  interpreter : Option Text
  detector : Option Text
  credentials : Option Text
  preserve : Option Text
deriving DecidableEq, Repr

def Binfmt.fields (b : Binfmt) : List (Option Text) :=
  [b.package, some b.type, some b.offset, b.magic, some b.mask, b.interpreter,
    b.detector, b.credentials, b.preserve]

/-- READ_LINE: a missing line is an error that names the field, unless optional. -/
def readLine (field : String) (optional : Bool) :
    List (List Byte) → Except Text (Text × List (List Byte))
  | [] => if optional then .ok ([], []) else .error (text field)
  | line :: rest => .ok (cstr (trimRight line), rest)

/-- The error names the field at which the data ran out; a quiet caller drops it. -/
def binfmtLoad (content : List Byte) : Except Text Binfmt := do
  let (package, rest) ← readLine "package" false (lines newline content)
  let (type, rest) ← readLine "type" false rest
  let (offset, rest) ← readLine "offset" false rest
  let (magic, rest) ← readLine "magic" false rest
  let (mask, rest) ← readLine "mask" false rest
  let (interpreter, rest) ← readLine "interpreter" false rest
  let (detector, rest) ← readLine "detector" true rest
  let (credentials, rest) ← readLine "credentials" true rest
  let (preserve, _) ← readLine "preserve" true rest
  return ⟨some package, type, offset, some magic, mask, some interpreter,
    some detector, some credentials, some preserve⟩

inductive Rejection
  | magicAndExtension
  | neitherMagicNorExtension
  | maskWithExtension
  | offsetWithExtension
deriving DecidableEq, Repr

/-- The options of one format; a key may be present without a value. -/
abbrev Arguments := Table Text (Option Text)

/-- kvhash_lookup cannot tell an absent key from one without a value. -/
def argument (args : Arguments) (key : String) : Option Text :=
  (kvhashLookup args (text key)).join

/-- SET_FIELD: a value with a newline makes the program quit, showing the value. -/
def setField (args : Arguments) (field : String) : Except Text (Option Text) :=
  match argument args field with
  | some value => if newline ∈ value then .error value else .ok (some value)
  | none => .ok none

/-- The explicit type, or the one that the other arguments imply. -/
def resolveType (args : Arguments) (type magic : Option Text) : Except Rejection Text :=
  match type with
  | some type => .ok type
  | none =>
    match magic, kvhashExists args (text "extension") with
    | some _, true => .error .magicAndExtension
    | some _, false => .ok (text "magic")
    | none, true => .ok (text "extension")
    | none, false => .error .neitherMagicNorExtension

def defaultOffset : Option Text → Text
  | none => text "0"
  | some [] => text "0"
  | some offset => offset

/-- The outer error quits the program; the inner one is a NULL record. -/
def binfmtNew (args : Arguments) : Except Text (Except Rejection Binfmt) := do
  let package ← setField args "package"
  let type ← setField args "type"
  let offset ← setField args "offset"
  let magic ← setField args "magic"
  let mask ← setField args "mask"
  let interpreter ← setField args "interpreter"
  let detector ← setField args "detector"
  let credentials ← setField args "credentials"
  let preserve ← setField args "preserve"
  match resolveType args type magic with
  | .error why => return .error why
  | .ok type =>
    if type = text "extension" then
      let extension ← setField args "extension"
      if mask.isSome then return .error .maskWithExtension
      else if offset.isSome then return .error .offsetWithExtension
      else return .ok ⟨package, type, defaultOffset offset, extension, [], interpreter,
        detector, credentials, preserve⟩
    else return .ok ⟨package, type, defaultOffset offset, magic, mask.getD [], interpreter,
        detector, credentials, preserve⟩

/-- WRITE_FIELD: a NULL member is written as an empty line. -/
def writeField (field : Option Text) : List Byte := field.getD [] ++ [newline]

def Binfmt.contents (b : Binfmt) : List Byte := b.fields.flatMap writeField

/-- Comparison with strcmp, left to right; a NULL magic is not to be compared. -/
def binfmtEquals (left right : Binfmt) : Option Bool :=
  if left.type = right.type then
    if left.offset = right.offset then
      match left.magic, right.magic with
      | some magic, some magic' => some (magic = magic' && left.mask = right.mask)
      | _, _ => none
    else some false
  else some false

end BinfmtSupport.Format
