import BinfmtSupport.CNumber
import BinfmtSupport.Stores

/-!
Finding the interpreters for a file: find.c. The bytes to match are read once,
as many as the largest offset plus magic needs, and every magic format is compared
in that one buffer. A format is kept as the code keeps it after expand_hex; that
its mask is empty or as long as its magic, and that its offset text is not empty,
is part of the type.
-/
namespace BinfmtSupport.Find

open CText CNumber Format Stores

def backslash : Byte := 92
def dot : Byte := 46

/-- The byte for two characters after a backslash and an x, if strtol takes both. -/
def escape (high low : Byte) : Option Byte :=
  match strtol 16 [high, low] with
  | (value, []) => some (UInt8.ofNat (value % 256).toNat)
  | _ => none

/-- An escape needs four characters; everything else is copied. -/
def expandHex : List Byte → List Byte
  | a :: x :: high :: low :: rest =>
      if a = backslash && x = 120 then
        match escape high low with
        | some byte => byte :: expandHex rest
        | none => a :: expandHex (x :: high :: low :: rest)
      else a :: expandHex (x :: high :: low :: rest)
  | c :: rest => c :: expandHex rest
  | [] => []

/-- A format as find_interpreters sees it. -/
structure Loaded where
  type : Text
  offset : Text
  magic : List Byte
  mask : List Byte
  interpreter : Text
  detector : Text
  offset_ne : offset ≠ []
  mask_size : mask = [] ∨ mask.length = magic.length
deriving DecidableEq

/-- The offset of a format that names none. -/
theorem zero_ne_nil : text "0" ≠ [] := by decide

namespace Loaded

def isMagic (f : Loaded) : Bool := f.type = text "magic"

def magicSize (f : Loaded) : ℕ := f.magic.length

end Loaded

inductive Failure
  | unableToOpen (name : Text)
  | outOfData (name field : Text)
  | outOfMemory
  | outOfBounds
deriving DecidableEq, Repr

def offsetOrZero (offset : Text) : Text := if offset = [] then text "0" else offset

theorem offsetOrZero_ne (offset : Text) : offsetOrZero offset ≠ [] := by
  unfold offsetOrZero
  split
  · decide
  · assumption

/-- A mask of another length than the magic makes the format be skipped. -/
def expandFormat (binfmt : Binfmt) : Option Loaded :=
  let magic := expandHex (binfmt.magic.getD [])
  let mask := expandHex binfmt.mask
  if h : mask = [] ∨ mask.length = magic.length then
    some ⟨binfmt.type, offsetOrZero binfmt.offset, magic, mask, binfmt.interpreter.getD [],
      binfmt.detector.getD [], offsetOrZero_ne binfmt.offset, h⟩
  else none

/-- load_all_formats of find.c: only names that procdir has, and none may be corrupt. -/
def loadFormats (s : Store) : List Text → Except Failure (List Loaded)
  | [] => .ok []
  | name :: rest =>
      if s.kernel.procExists name then
        match s.file name with
        | none => .error (.unableToOpen name)
        | some content =>
            match binfmtLoad content with
            | .error field => .error (.outOfData name field)
            | .ok binfmt =>
                match expandFormat binfmt with
                | none => loadFormats s rest
                | some loaded => (loadFormats s rest).map (fun more => loaded :: more)
      else loadFormats s rest

def sizeSum (offset : ℤ) (size : ℕ) : ℕ := ((offset + size) % 2 ^ 64).toNat

def neededSize (f : Loaded) : ℕ := sizeSum (atoi f.offset) f.magicSize

def toread (formats : List Loaded) : ℕ :=
  formats.foldl (fun most f => if f.isMagic then max most (neededSize f) else most) 0

/-- The zero-filled buffer after fread. -/
def buffer (size : ℕ) (file : List Byte) : List Byte :=
  file.take size ++ List.replicate (size - file.length) 0

/-- memcpy from buf + offset, which is undefined outside the buffer. -/
def segment (buf : List Byte) (offset : ℤ) (size : ℕ) : Except Failure (List Byte) :=
  if 0 ≤ offset ∧ offset + size ≤ buf.length then
    .ok ((buf.drop offset.toNat).take size)
  else .error .outOfBounds

/-- `*binfmt->mask`: the first byte of the mask, or its terminator, is looked at. -/
def masks (f : Loaded) : Bool :=
  match f.mask with
  | [] => false
  | first :: _ => first ≠ 0

/-- The loop over i < toread && i < magic_size. -/
def maskSegment (size : ℕ) (mask seg : List Byte) : List Byte :=
  List.zipWith (fun a b => a &&& b) (seg.take size) mask ++ seg.drop size

def matchesMagic (size : ℕ) (buf : List Byte) (f : Loaded) : Except Failure Bool := do
  let seg ← segment buf (atoi f.offset) f.magicSize
  let seg := if masks f then maskSegment size f.mask seg else seg
  return seg = f.magic

/-- The text after the last dot of the whole path. -/
def extension (path : Text) : Option Text :=
  if dot ∈ path then some (path.reverse.takeWhile (· ≠ dot)).reverse else none

def matchesFormat (size : ℕ) (buf : List Byte) (path : Text) (f : Loaded) :
    Except Failure Bool :=
  if f.isMagic then matchesMagic size buf f
  else .ok (extension path = some (cstr f.magic))

/-- The formats that pass their own test, in the order of the list. -/
def okFormats (size : ℕ) (buf : List Byte) (path : Text) :
    List Loaded → Except Failure (List Loaded)
  | [] => .ok []
  | f :: rest => do
      let ok ← matchesFormat size buf path f
      let more ← okFormats size buf path rest
      return if ok then f :: more else more

/-- First what a detector approves, then what has none. -/
def findInterpreters (detect : Text → Text → ℕ) (formats : List Loaded) (path : Text)
    (file : List Byte) : Except Failure (List Loaded) :=
  let size := toread formats
  if size < 2 ^ 63 then do
    let ok ← okFormats size (buffer size file) path formats
    return ok.filter (fun f => f.detector ≠ [] && detect f.detector path = 0) ++
      ok.filter (fun f => f.detector = [])
  else .error .outOfMemory

end BinfmtSupport.Find
