import BinfmtSupport.Expansion
import BinfmtSupport.Regstring

/-!
The emulator of the binfmt_misc filesystem that the tests run against:
tests/binfmt_misc.py. What it is written to is either one of its two control files or an
entry; it decodes the magic and the mask of a format of type M when it is registered and
keeps the bytes. Strings are strings of bytes, and write returns the new state in place of
the length of the buffer.
-/
namespace BinfmtSupport.Emulator

open CText CNumber Kvhash Format Regstring Stores Find Expansion

inductive Errno
  | enoent
  | eexist
  | einval
deriving DecidableEq, Repr

/-- The members of self.names, after the name and the type. Of an extension the offset and
the mask are kept as they came. -/
inductive Spec
  | magic (offset : ℤ) (magic mask : List Byte)
  | extension (offset extension mask : Text)
deriving DecidableEq

structure Fields where
  spec : Spec
  interpreter : Text
  flags : List Text
deriving DecidableEq

structure State where
  enabled : Bool
  names : Table Text Fields

/-- `c.isdigit() or c.lower() in 'abcdef'` -/
def isHexDigit (c : Byte) : Bool := isdigit c || tolower c ∈ text "abcdef"

/-- `chr(int(s[i + 2:i + 4], 16))`, for two digits. -/
def hexByte (high low : Byte) : Byte :=
  let digit (c : Byte) : ℕ := if isdigit c then c.toNat - 48 else (tolower c).toNat - 87
  UInt8.ofNat (digit high * 16 + digit low)

/-- A backslash and an x that are not followed by two digits are a ValueError. -/
def parseArg : Text → Option (List Byte)
  | a :: x :: high :: low :: rest =>
      if a = backslash && x = 120 then
        if isHexDigit high && isHexDigit low then
          (parseArg rest).map (fun out => hexByte high low :: out)
        else none
      else (parseArg (x :: high :: low :: rest)).map (fun out => a :: out)
  | a :: x :: rest =>
      if a = backslash && x = 120 then none
      else (parseArg (x :: rest)).map (fun out => a :: out)
  | [c] => some [c]
  | [] => some []

/-- int() of a string: decimal digits behind an optional sign, with white space around. The file
is Python 2, where the buffer of a write is a str; int takes no underscores there. -/
def int (t : Text) : Option ℤ :=
  let (negative, digits) := skipSign (trimRight (t.dropWhile isspace))
  if digits ≠ [] && digits.all isdigit then
    some (if negative then -magnitude 10 digits else magnitude 10 digits)
  else none

/-- `fields[3] and len(fields[2]) != len(fields[3])` is an error. -/
def lengthsAccepted (magic mask : List Byte) : Bool :=
  !(mask ≠ [] && magic.length ≠ mask.length)

/-- The checks of a type M, where a ValueError is an error too, and of a type E. -/
def specOf (type offset magic mask : Text) : Option Spec :=
  if type = text "M" then
    match int offset, parseArg magic, parseArg mask with
    | some offset, some magic, some mask =>
        if lengthsAccepted magic mask then some (.magic offset magic mask) else none
    | _, _, _ => none
  else if slash ∈ magic then none
  else some (.extension offset magic mask)

/-- The branch of write for the register file, in the order of its checks. -/
def register (s : State) (buf : Text) : Except Errno State :=
  if buf.length < 11 || 256 < buf.length then .error .einval
  else
    match decodeLine buf with
    | name :: type :: offset :: magic :: mask :: interpreter :: flags =>
        if kvhashExists s.names name then .error .eexist
        else if name = [] || name = text "." || name = text ".." || slash ∈ name then
          .error .einval
        else if type ≠ text "E" && type ≠ text "M" then .error .einval
        else if magic = [] then .error .einval
        else
          match specOf type offset magic mask with
          | none => .error .einval
          | some spec =>
              if interpreter = [] then .error .einval
              else .ok { s with names := s.names.insert name ⟨spec, interpreter, flags⟩ }
    | _ => .error .einval

/-- `buf.rstrip('\n')` -/
def stripped (buf : Text) : Text := buf.rdropWhile (· = newline)

def write (s : State) (path buf : Text) : Except Errno State :=
  if path = text "/status" then .ok { s with enabled := stripped buf = text "1" }
  else if path = text "/register" then register s buf
  else if path.head? = some slash && kvhashExists s.names path.tail then
    if stripped buf = text "-1" then .ok { s with names := s.names.erase path.tail }
    else .error .einval
  else .error .enoent

section Digits

theorem mem_abcdef (c : Byte) : c ∈ text "abcdef" ↔ 97 ≤ c.toNat ∧ c.toNat ≤ 102 := by
  have htext : text "abcdef" = [97, 98, 99, 100, 101, 102] := by decide
  rw [htext]
  simp only [List.mem_cons, List.not_mem_nil, or_false, ← UInt8.toNat_inj, UInt8.reduceToNat]
  omega

theorem toNat_tolower (c : Byte) : (tolower c).toNat =
    if 65 ≤ c.toNat ∧ c.toNat ≤ 90 then c.toNat + 32 else c.toNat := by
  unfold tolower
  simp only [UInt8.le_iff_toNat_le, Bool.and_eq_true, decide_eq_true_eq, UInt8.reduceToNat]
  split
  · rw [UInt8.toNat_add]
    simp only [UInt8.reduceToNat]
    omega
  · rfl

theorem isxdigit_iff (c : Byte) : isxdigit c = true ↔ (48 ≤ c.toNat ∧ c.toNat ≤ 57) ∨
    (97 ≤ c.toNat ∧ c.toNat ≤ 102) ∨ (65 ≤ c.toNat ∧ c.toNat ≤ 70) := by
  simp only [isxdigit, Bool.or_eq_true, isdigit_iff, Bool.and_eq_true, decide_eq_true_eq,
    UInt8.le_iff_toNat_le, UInt8.reduceToNat, or_assoc]

theorem isHexDigit_eq (c : Byte) : isHexDigit c = isxdigit c := by
  rw [Bool.eq_iff_iff, isxdigit_iff]
  simp only [isHexDigit, Bool.or_eq_true, isdigit_iff, decide_eq_true_eq, mem_abcdef,
    toNat_tolower]
  split <;> omega

/-- The value of a letter is the same in both cases. -/
theorem digit_eq {c : Byte} (h : isxdigit c = true) :
    (if isdigit c then c.toNat - 48 else (tolower c).toNat - 87) = hexDigit c := by
  rw [isxdigit_iff] at h
  unfold hexDigit
  by_cases hdec : isdigit c = true
  · rw [if_pos hdec, if_pos hdec]
  · rw [if_neg hdec, if_neg hdec, toNat_tolower]
    rw [isdigit_iff] at hdec
    simp only [UInt8.le_iff_toNat_le, UInt8.reduceToNat]
    split <;> split <;> omega

theorem hexByte_eq {high low : Byte} (hhigh : isxdigit high = true) (hlow : isxdigit low = true) :
    hexByte high low = UInt8.ofNat (16 * hexDigit high + hexDigit low) := by
  simp only [hexByte, digit_eq hhigh, digit_eq hlow, Nat.mul_comm]

end Digits

section Decoders

/-- What parse_arg reads without an error, expand_hex reads in the same way. -/
theorem expandHex_of_parseArg {t : Text} {out : List Byte} (h : parseArg t = some out) :
    expandHex t = out := by
  fun_induction parseArg t generalizing out with
  | case1 a x high low rest hbegin hdigits ih =>
    obtain ⟨more, hmore, rfl⟩ := Option.map_eq_some_iff.mp h
    simp only [isHexDigit_eq, Bool.and_eq_true] at hdigits
    rw [expandHex, if_pos hbegin, escape_digits hdigits.1 hdigits.2, ih hmore,
      hexByte_eq hdigits.1 hdigits.2]
  | case2 => cases h
  | case3 a x high low rest hbegin ih =>
    obtain ⟨more, hmore, rfl⟩ := Option.map_eq_some_iff.mp h
    rw [expandHex, if_neg hbegin, ih hmore]
  | case4 => cases h
  | case5 a x rest hshort hbegin ih =>
    obtain ⟨more, hmore, rfl⟩ := Option.map_eq_some_iff.mp h
    rw [expandHex, ih hmore]
    rintro y high low more' hrest
    cases hrest
    exact hshort _ _ _ rfl
  | case6 c =>
    cases h
    rfl
  | case7 =>
    cases h
    rfl

/-- The two tests of the lengths are the same: one asks for the size of the mask, the other
for its truth value. -/
theorem lengthsAccepted_iff (magic mask : List Byte) : lengthsAccepted magic mask = true ↔
    mask = [] ∨ mask.length = magic.length := by
  simp only [lengthsAccepted, Bool.not_eq_true', Bool.and_eq_false_iff, decide_eq_false_iff_not,
    not_not, ne_eq]
  exact or_congr_right eq_comm

end Decoders

section Loading

def Considered (s : Store) (name magicText maskText : Text) : Prop :=
  s.kernel.procExists name = true ∧
    ∃ b, s.record name = some b ∧ b.magic = some magicText ∧ b.mask = maskText

/-- Wherever the name stands in the directory, its format is in the list with these bytes. -/
def Keeps (s : Store) (name : Text) (magic mask : List Byte) : Prop :=
  ∀ before after fs gs, loadFormats s before = .ok fs → loadFormats s after = .ok gs →
    ∃ f : Loaded, f.magic = magic ∧ f.mask = mask ∧
      loadFormats s (before ++ name :: after) = .ok (fs ++ f :: gs)

/-- A considered name adds its format, or nothing where the lengths do not fit. -/
theorem loadFormats_cons {s : Store} {name : Text} {b : Binfmt}
    (hproc : s.kernel.procExists name = true) (hrecord : s.record name = some b)
    {rest : List Text} {gs : List Loaded} (hrest : loadFormats s rest = .ok gs) :
    loadFormats s (name :: rest) = .ok ((expandFormat b).toList ++ gs) := by
  cases hfile : s.file name with
  | none => simp [Store.record, hfile] at hrecord
  | some content =>
    cases hload : binfmtLoad content with
    | error field => simp [Store.record, hfile, hload, Except.toOption] at hrecord
    | ok b' =>
      have hb : b' = b := by simpa [Store.record, hfile, hload, Except.toOption] using hrecord
      rw [loadFormats, if_pos hproc]
      simp only [hfile, hload, hb]
      cases expandFormat b with
      | none => simpa using hrest
      | some f =>
        rw [hrest]
        rfl

theorem loadFormats_append {s : Store} {before after : List Text} {fs gs : List Loaded}
    (hbefore : loadFormats s before = .ok fs) (hafter : loadFormats s after = .ok gs) :
    loadFormats s (before ++ after) = .ok (fs ++ gs) := by
  induction before generalizing fs with
  | nil =>
    cases hbefore
    exact hafter
  | cons name rest ih =>
    rw [loadFormats] at hbefore
    rw [List.cons_append, loadFormats]
    by_cases hproc : s.kernel.procExists name = true
    · rw [if_pos hproc] at hbefore ⊢
      cases hfile : s.file name with
      | none => simp [hfile] at hbefore
      | some content =>
        cases hload : binfmtLoad content with
        | error field => simp [hfile, hload] at hbefore
        | ok b =>
          simp only [hfile, hload] at hbefore ⊢
          cases hexpand : expandFormat b with
          | none =>
            simp only [hexpand] at hbefore
            exact ih hbefore
          | some f =>
            simp only [hexpand] at hbefore
            cases hrest : loadFormats s rest with
            | error why =>
              rw [hrest] at hbefore
              cases hbefore
            | ok more =>
              rw [hrest] at hbefore
              cases hbefore
              simp only [ih hrest]
              rfl
    · rw [if_neg hproc] at hbefore ⊢
      exact ih hbefore

/-- A format is kept, as the bytes that its texts stand for, where their lengths fit. -/
theorem keeps_iff {s : Store} {name magicText maskText : Text}
    (h : Considered s name magicText maskText) {magic mask : List Byte}
    (hmagic : expandHex magicText = magic) (hmask : expandHex maskText = mask) :
    Keeps s name magic mask ↔ mask = [] ∨ mask.length = magic.length := by
  obtain ⟨hproc, b, hrecord, hm, rfl⟩ := h
  constructor
  · intro hkeeps
    obtain ⟨f, hfmagic, hfmask, -⟩ := hkeeps [] [] [] [] rfl rfl
    have hsize := f.mask_size
    rwa [hfmagic, hfmask] at hsize
  · intro hlen before after fs gs hbefore hafter
    have hname := loadFormats_cons hproc hrecord hafter
    subst hmagic hmask
    have hexpand : ∃ f, expandFormat b = some f ∧ f.magic = expandHex magicText ∧
        f.mask = expandHex b.mask := by
      simp only [expandFormat, hm, Option.getD_some, hlen, dif_pos]
      exact ⟨_, rfl, rfl, rfl⟩
    obtain ⟨f, hf, hfmagic, hfmask⟩ := hexpand
    rw [hf] at hname
    exact ⟨f, hfmagic, hfmask, loadFormats_append hbefore hname⟩

/-- The register file of the emulator takes a format with its parsed bytes, and only if
their lengths fit. -/
theorem spec_of_register {k k' : State} {buf name offset magicText maskText interpreter : Text}
    {flags : List Text} {magic mask : List Byte}
    (hline : decodeLine buf = name :: text "M" :: offset :: magicText :: maskText ::
      interpreter :: flags)
    (hmagic : parseArg magicText = some magic) (hmask : parseArg maskText = some mask)
    (h : register k buf = .ok k') : lengthsAccepted magic mask = true ∧
      ∃ fields n, k'.names.lookup name = some fields ∧ fields.spec = .magic n magic mask := by
  have hspec : ∀ spec, specOf (text "M") offset magicText maskText = some spec →
      lengthsAccepted magic mask = true ∧ ∃ n, spec = .magic n magic mask := by
    intro spec hspec
    rw [specOf, if_pos rfl, hmagic, hmask] at hspec
    cases hn : int offset with
    | none => simp [hn] at hspec
    | some n =>
      simp only [hn, Option.ite_none_right_eq_some, Option.some.injEq] at hspec
      exact ⟨hspec.1, n, hspec.2.symm⟩
  unfold register at h
  simp only [hline] at h
  cases hchecked : specOf (text "M") offset magicText maskText with
  | none =>
    simp only [hchecked] at h
    split_ifs at h
  | some spec =>
    simp only [hchecked] at h
    split_ifs at h
    cases h
    obtain ⟨hlen, n, rfl⟩ := hspec spec hchecked
    exact ⟨hlen, ⟨.magic n magic mask, interpreter, flags⟩, n, AList.lookup_insert _, rfl⟩

end Loading

/-- What the emulator parses without an error, find.c expands to the same bytes; it keeps
the format where the emulator accepts the lengths, and when the emulator has registered a
line with these texts, its bytes are the ones that find.c matches with. -/
theorem expandHex_eq_parseArg {magicText maskText : Text} {magic mask : List Byte}
    (hmagic : parseArg magicText = some magic) (hmask : parseArg maskText = some mask) :
    expandHex magicText = magic ∧ expandHex maskText = mask ∧
    (∀ s name, Considered s name magicText maskText →
      (Keeps s name magic mask ↔ lengthsAccepted magic mask = true)) ∧
    ∀ k k' buf name offset interpreter flags,
      decodeLine buf = name :: text "M" :: offset :: magicText :: maskText ::
        interpreter :: flags → register k buf = .ok k' →
      (∀ s, Considered s name magicText maskText → Keeps s name magic mask) ∧
        ∃ fields n, k'.names.lookup name = some fields ∧
          fields.spec = .magic n magic mask := by
  have hmagic' := expandHex_of_parseArg hmagic
  have hmask' := expandHex_of_parseArg hmask
  have hkeeps : ∀ s name, Considered s name magicText maskText →
      (Keeps s name magic mask ↔ lengthsAccepted magic mask = true) := by
    intro s name h
    rw [lengthsAccepted_iff]
    exact keeps_iff h hmagic' hmask'
  refine ⟨hmagic', hmask', hkeeps, ?_⟩
  intro k k' buf name offset interpreter flags hline hreg
  obtain ⟨hlen, hfields⟩ := spec_of_register hline hmagic hmask hreg
  exact ⟨fun s h => (hkeeps s name h).mpr hlen, hfields⟩

/-- The texts of an ELF magic. -/
theorem expandHex_eq_parseArg_elf :
    expandHex (text "\\x7fELF") = [127, 69, 76, 70] ∧
    expandHex (text "\\xff\\xff\\xff\\xff") = [255, 255, 255, 255] ∧
    (∀ s name, Considered s name (text "\\x7fELF") (text "\\xff\\xff\\xff\\xff") →
      (Keeps s name [127, 69, 76, 70] [255, 255, 255, 255] ↔
        lengthsAccepted [127, 69, 76, 70] [255, 255, 255, 255] = true)) ∧
    ∀ k k' buf name offset interpreter flags,
      decodeLine buf = name :: text "M" :: offset :: text "\\x7fELF" ::
        text "\\xff\\xff\\xff\\xff" :: interpreter :: flags → register k buf = .ok k' →
      (∀ s, Considered s name (text "\\x7fELF") (text "\\xff\\xff\\xff\\xff") →
        Keeps s name [127, 69, 76, 70] [255, 255, 255, 255]) ∧
        ∃ fields n, k'.names.lookup name = some fields ∧
          fields.spec = .magic n [127, 69, 76, 70] [255, 255, 255, 255] :=
  expandHex_eq_parseArg (by decide) (by decide)

end BinfmtSupport.Emulator
