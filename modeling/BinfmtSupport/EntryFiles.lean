import BinfmtSupport.Emulation
import BinfmtSupport.Reports
import Mathlib.Data.Nat.Digits.Lemmas

/-!
The files of the emulator. The tests look at an entry with `test -e` and `cat`, and compare
what they get with a text of their own. The text of an entry says all that the emulator keeps
of it but the flags, so that a test that compares it has compared the interpreter, the offset
and the decoded magic and mask.
-/
namespace BinfmtSupport.EntryFiles

open CText CNumber Kvhash Regstring Journal Stores CommandLine
open Emulator Emulation Reports

section Files

/-- One digit of `'%02x'`. -/
def hexDigit (n : ℕ) : Byte := UInt8.ofNat (if n < 10 then 48 + n else 87 + n)

def formatArg (s : List Byte) : Text :=
  s.flatMap (fun c => [hexDigit (c.toNat / 16), hexDigit (c.toNat % 16)])

def digits (n : ℕ) : Text :=
  if n = 0 then text "0" else (Nat.digits 10 n).reverse.map (fun d => UInt8.ofNat (48 + d))

/-- `'%d'` -/
def decimal (n : ℤ) : Text := if n < 0 then 45 :: digits n.natAbs else digits n.natAbs

/-- The list that create_entry joins, without the empty line at its end. -/
def entryLines (fields : Fields) : List Text :=
  text "enabled" :: (text "interpreter " ++ fields.interpreter) :: text "flags: " ::
    match fields.spec with
    | .extension _ extension _ => [text "extension ." ++ extension]
    | .magic offset magic mask =>
        [text "offset " ++ decimal offset, text "magic " ++ formatArg magic] ++
          (if mask ≠ [] then [text "mask " ++ formatArg mask] else [])

def entryText (fields : Fields) : Text :=
  [newline].intercalate (entryLines fields ++ [[]])

/-- A ValueError is none. -/
def createEntry (st : State) : Text → Option Text
  | c :: name => if c = slash then (st.names.lookup name).map entryText else none
  | [] => none

structure Attributes where
  mode : ℕ
  nlink : ℕ
  size : ℕ
deriving DecidableEq

/-- S_IFDIR | 0o755, S_IFREG | 0o200 and S_IFREG | 0o644 -/
def getattr (st : State) (path : Text) : Except Errno Attributes :=
  if path = text "/" then .ok ⟨16877, 2, 0⟩
  else if path = text "/register" then .ok ⟨32896, 1, 0⟩
  else if path = text "/status" then .ok ⟨33188, 1, 0⟩
  else
    match createEntry st path with
    | some content => .ok ⟨33188, 1, content.length⟩
    | none => .error .enoent

def read (st : State) (path : Text) (length offset : ℕ) : Except Errno Text :=
  if path = text "/status" || path = text "/register" then .error .einval
  else
    match createEntry st path with
    | some content => .ok ((content.drop offset).take length)
    | none => .error .enoent

def readOn (st : State) (path : Text) (length : ℕ) : ℕ → ℕ → Except Errno Text
  | 0, _ => .ok []
  | fuel + 1, offset => do
      let part ← read st path length offset
      if part = [] then return []
      else return part ++ (← readOn st path length fuel (offset + length))

def cat (st : State) (path : Text) (length : ℕ) : Except Errno Text := do
  readOn st path length (← getattr st path).size 0

end Files

section Numbers

theorem hexByte_hexDigit (c : Byte) :
    hexByte (hexDigit (c.toNat / 16)) (hexDigit (c.toNat % 16)) = c := by
  have h : ∀ n < 256, hexByte (hexDigit (n / 16)) (hexDigit (n % 16)) = UInt8.ofNat n := by
    decide +kernel
  rw [h c.toNat c.toNat_lt, UInt8.ofNat_toNat]

def unformat : Text → Option (List Byte)
  | [] => some []
  | [_] => none
  | high :: low :: rest => (unformat rest).map (fun s => hexByte high low :: s)

theorem unformat_formatArg (s : List Byte) : unformat (formatArg s) = some s := by
  induction s with
  | nil => rfl
  | cons c s ih =>
    rw [formatArg, List.flatMap_cons]
    change (unformat (formatArg s)).map _ = _
    rw [ih, Option.map_some, hexByte_hexDigit]

theorem isdigit_digit {d : ℕ} (h : d < 10) : isdigit (UInt8.ofNat (48 + d)) = true := by
  have hall : ∀ d < 10, isdigit (UInt8.ofNat (48 + d)) = true := by decide
  exact hall d h

theorem digitValue_digit {d : ℕ} (h : d < 10) :
    digitValue 10 (UInt8.ofNat (48 + d)) = some d := by
  have hall : ∀ d < 10, digitValue 10 (UInt8.ofNat (48 + d)) = some d := by decide
  exact hall d h

theorem isdigit_of_mem_digits {n : ℕ} {c : Byte} (h : c ∈ digits n) : isdigit c = true := by
  unfold digits at h
  split at h
  · rw [List.mem_singleton.mp h]
    rfl
  · obtain ⟨d, hd, rfl⟩ := List.mem_map.mp h
    exact isdigit_digit (Nat.digits_lt_base (by decide) (List.mem_reverse.mp hd))

theorem digits_ne_nil (n : ℕ) : digits n ≠ [] := by
  unfold digits
  split
  · decide
  · rename_i hn
    simp [Nat.digits_ne_nil_iff_ne_zero, hn]

theorem magnitude_digits (n : ℕ) : magnitude 10 (digits n) = n := by
  unfold digits
  split
  · rename_i hn
    rw [hn]
    rfl
  · have hfold : ∀ ds : List ℕ, (∀ d ∈ ds, d < 10) →
        magnitude 10 (ds.reverse.map (fun d => UInt8.ofNat (48 + d))) = Nat.ofDigits 10 ds := by
      intro ds hds
      induction ds with
      | nil => rfl
      | cons d ds ih =>
        rw [List.reverse_cons, List.map_append, magnitude, List.foldl_append, ← magnitude,
          ih (fun x hx => hds x (List.mem_cons_of_mem d hx)), List.map_singleton,
          List.foldl_cons, List.foldl_nil, digitValue_digit (hds d List.mem_cons_self),
          Option.getD_some, Nat.ofDigits_cons]
        omega
    rw [hfold _ (fun d hd => Nat.digits_lt_base (by decide) hd), Nat.ofDigits_digits]

theorem isspace_of_isdigit {c : Byte} (h : isdigit c = true) : isspace c = false := by
  have hall : ∀ n < 256, isdigit (UInt8.ofNat n) = true → isspace (UInt8.ofNat n) = false := by
    decide +kernel
  have hc := hall c.toNat c.toNat_lt
  rw [UInt8.ofNat_toNat] at hc
  exact hc h

theorem trimRight_unsigned {t : Text} (hne : t ≠ []) (hdigits : ∀ c ∈ t, isdigit c = true)
    (sign : Text) : trimRight (sign ++ t) = sign ++ t := by
  rw [trimRight_eq_self_iff]
  intro c hc
  rw [List.getLast?_append_of_ne_nil _ hne] at hc
  exact isspace_of_isdigit (hdigits c (List.mem_of_mem_getLast? hc))

theorem int_unsigned {t : Text} (hne : t ≠ []) (hdigits : ∀ c ∈ t, isdigit c = true) :
    int t = some (magnitude 10 t : ℤ) ∧ int (45 :: t) = some (-(magnitude 10 t : ℤ)) := by
  have hall : t.all isdigit = true := List.all_eq_true.mpr hdigits
  cases t with
  | nil => exact absurd rfl hne
  | cons c rest =>
    have hc := hdigits c List.mem_cons_self
    have hplus : trimRight (c :: rest) = c :: rest := trimRight_unsigned hne hdigits []
    have hminus : trimRight (45 :: c :: rest) = 45 :: c :: rest :=
      trimRight_unsigned hne hdigits [45]
    have hsign : skipSign (45 :: c :: rest) = (true, c :: rest) := rfl
    constructor
    · rw [int, List.dropWhile_cons_of_neg (by simp [isspace_of_isdigit hc]), hplus,
        skipSign_of_digit c rest hc]
      simp [hall]
    · rw [int, List.dropWhile_cons_of_neg (by decide), hminus, hsign]
      simp [hall]

theorem int_decimal (n : ℤ) : int (decimal n) = some n := by
  obtain ⟨hplus, hminus⟩ := int_unsigned (digits_ne_nil n.natAbs)
    (fun c hc => isdigit_of_mem_digits hc)
  unfold decimal
  split
  · rw [hminus, magnitude_digits]
    congr 1
    omega
  · rw [hplus, magnitude_digits]
    congr 1
    omega

end Numbers

section Texts

inductive Shape
  | magic (offset : ℤ) (magic mask : List Byte)
  | extension (extension : Text)
deriving DecidableEq

structure Shown where
  interpreter : Text
  shape : Shape
deriving DecidableEq

def shapeOf : Spec → Shape
  | .magic offset magic mask => .magic offset magic mask
  | .extension _ extension _ => .extension extension

def shownOf (fields : Fields) : Shown := ⟨fields.interpreter, shapeOf fields.spec⟩

/-- The values that are printed as they are have no line of their own in them. -/
def OneLine (fields : Fields) : Prop :=
  newline ∉ fields.interpreter ∧ ∀ extension, shapeOf fields.spec = .extension extension →
    newline ∉ extension

def headLabels : List Text := [text "enabled", text "interpreter ", text "flags: "]
def extensionLabels : List Text := [text "extension ."]
def magicLabels : List Text := [text "offset ", text "magic "]
def maskLabels : List Text := [text "mask "]

def readShape (t : Text) : Option Shape :=
  match takeLines newline extensionLabels t, takeLines newline magicLabels t with
  | some ([extension], []), _ => some (.extension extension)
  | _, some ([offset, magic], rest) => do
      let mask ←
        if rest = [] then some []
        else (takeLines newline maskLabels rest).bind (fun x =>
          if x.2 = [] then unformat x.1.flatten else none)
      return .magic (← int offset) (← unformat magic) mask
  | _, _ => none

def readEntry (t : Text) : Option Shown :=
  match takeLines newline headLabels t with
  | some ([_, interpreter, _], rest) =>
      (readShape rest).map (fun shape => ⟨interpreter, shape⟩)
  | _ => none

def shapeText : Spec → Text
  | .extension _ extension _ => printLines newline extensionLabels [extension]
  | .magic offset magic mask =>
      printLines newline magicLabels [decimal offset, formatArg magic] ++
        if mask ≠ [] then printLines newline maskLabels [formatArg mask] else []

theorem entryText_eq (fields : Fields) : entryText fields =
    printLines newline headLabels [[], fields.interpreter, []] ++ shapeText fields.spec := by
  rw [entryText, intercalate_terminated, entryLines]
  cases fields.spec with
  | extension offset extension mask =>
    simp [headLabels, extensionLabels, shapeText, printLines_cons, printLines_nil]
  | magic offset magic mask =>
    by_cases hmask : mask = []
    · simp [headLabels, magicLabels, shapeText, printLines_cons, printLines_nil, hmask]
    · simp [headLabels, magicLabels, maskLabels, shapeText, printLines_cons, printLines_nil, hmask]

theorem notMem_formatArg (s : List Byte) : newline ∉ formatArg s := by
  have hall : ∀ n < 16, hexDigit n ≠ newline := by decide
  intro h
  obtain ⟨c, -, hc⟩ := List.mem_flatMap.mp h
  have hlt := c.toNat_lt
  simp only [List.mem_cons, List.not_mem_nil, or_false] at hc
  rcases hc with hc | hc
  · exact hall _ (by omega) hc.symm
  · exact hall _ (by omega) hc.symm

theorem notMem_decimal (n : ℤ) : newline ∉ decimal n := by
  have hdigits : newline ∉ digits n.natAbs := by
    intro h
    have hdigit := isdigit_of_mem_digits h
    exact absurd hdigit (by decide)
  unfold decimal
  split
  · rw [List.mem_cons, not_or]
    exact ⟨by decide, hdigits⟩
  · exact hdigits

theorem readShape_shapeText {spec : Spec}
    (h : ∀ extension, shapeOf spec = .extension extension → newline ∉ extension) :
    readShape (shapeText spec) = some (shapeOf spec) := by
  cases spec with
  | extension offset extension mask =>
    have hline := readsBack_lines newline extensionLabels [extension]
      ⟨rfl, List.forall_mem_singleton.mpr (h extension rfl)⟩ []
    rw [List.append_nil] at hline
    rw [readShape, shapeText, hline]
    rfl
  | magic offset magic mask =>
    have hfree : ∀ value ∈ [decimal offset, formatArg magic], newline ∉ value :=
      List.forall_mem_cons.mpr ⟨notMem_decimal offset,
        List.forall_mem_singleton.mpr (notMem_formatArg magic)⟩
    have hother : ∀ rest, takeLines newline extensionLabels
        (printLines newline magicLabels [decimal offset, formatArg magic] ++ rest) = none := by
      intro rest
      -- the labels differ in their first byte
      have hlabel : ¬ text "extension ." <+:
          printLines newline magicLabels [decimal offset, formatArg magic] ++ rest := by
        rintro ⟨more, hmore⟩
        have hfirst := congrArg List.head? hmore
        change some 101 = some 111 at hfirst
        exact absurd hfirst (by decide)
      rw [extensionLabels, takeLines, takeLine, if_neg hlabel, Option.bind_none]
    have hlines := readsBack_lines newline magicLabels [decimal offset, formatArg magic]
      ⟨rfl, hfree⟩
    by_cases hmask : mask = []
    · subst hmask
      rw [readShape, shapeText, hother, hlines, if_neg (by simp)]
      simp [int_decimal, unformat_formatArg, shapeOf]
    · have hline := readsBack_lines newline maskLabels [formatArg mask]
        ⟨rfl, List.forall_mem_singleton.mpr (notMem_formatArg mask)⟩ []
      rw [List.append_nil] at hline
      have hne : printLines newline maskLabels [formatArg mask] ≠ [] := by
        rw [maskLabels, printLines_cons]
        simp
      rw [readShape, shapeText, if_pos hmask, hother, hlines]
      simp [hne, hline, int_decimal, unformat_formatArg, shapeOf]

/-- The text of an entry says what the emulator keeps, apart from the flags. -/
theorem readEntry_entryText {fields : Fields} (h : OneLine fields) :
    readEntry (entryText fields) = some (shownOf fields) := by
  have hlines := readsBack_lines newline headLabels [[], fields.interpreter, []]
    ⟨rfl, by simp [h.1]⟩ (shapeText fields.spec)
  rw [readEntry, entryText_eq, hlines]
  simp only [readShape_shapeText h.2, Option.map_some]
  rfl

end Texts

section Runs
variable {st : State} {path content : Text}

/-- Reading on gives the rest of the file, whatever the length of the blocks. -/
theorem readOn_spec (hcontent : createEntry st path = some content)
    (hcontrol : path ≠ text "/status" ∧ path ≠ text "/register") {length : ℕ} (hlength : 0 < length)
    {fuel offset : ℕ} (hfuel : content.length ≤ offset + fuel) :
    readOn st path length fuel offset = .ok (content.drop offset) := by
  induction fuel generalizing offset with
  | zero =>
    have hend : content.drop offset = [] := List.drop_eq_nil_of_le hfuel
    rw [readOn, hend]
  | succ fuel ih =>
    have hread : read st path length offset = .ok ((content.drop offset).take length) := by
      rw [read, if_neg (by simp [hcontrol.1, hcontrol.2]), hcontent]
    have hstep : readOn st path length (fuel + 1) offset =
        if (content.drop offset).take length = [] then .ok []
        else do return (content.drop offset).take length ++
          (← readOn st path length fuel (offset + length)) := by
      rw [readOn, hread]
      rfl
    rw [hstep]
    split
    · rename_i hpart
      have hend : content.drop offset = [] :=
        (List.take_eq_nil_iff.mp hpart).resolve_left (Nat.pos_iff_ne_zero.mp hlength)
      rw [hend]
    · have hrest : readOn st path length fuel (offset + length) =
          .ok (content.drop (offset + length)) := ih (by omega)
      rw [hrest, ← List.drop_drop]
      exact congrArg Except.ok (List.take_append_drop length (content.drop offset))

theorem path_ne {name control : Text} (h : name ≠ control) : slash :: name ≠ slash :: control :=
  fun heq => h (List.cons_inj_right slash |>.mp heq)

/-- A file of the emulator that is neither its directory nor one of its control files. -/
structure Ordinary (name : Text) : Prop where
  directory : isDirectoryName name = false
  control : isControlName name = false

theorem Ordinary.paths {name : Text} (h : Ordinary name) : slash :: name ≠ text "/" ∧
    slash :: name ≠ text "/register" ∧ slash :: name ≠ text "/status" := by
  obtain ⟨hdir, hctl⟩ := h
  simp only [isDirectoryName, isControlName, Bool.or_eq_false_iff, decide_eq_false_iff_not]
    at hdir hctl
  exact ⟨path_ne hdir.1.1, path_ne hctl.1, path_ne hctl.2⟩

theorem createEntry_slash (st : State) (name : Text) :
    createEntry st (slash :: name) = (st.names.lookup name).map entryText := by
  rw [createEntry, if_pos rfl]

theorem cat_spec {name : Text} (hname : Ordinary name) {fields : Fields}
    (hfields : st.names.lookup name = some fields) {length : ℕ} (hlength : 0 < length) :
    cat st (slash :: name) length = .ok (entryText fields) := by
  obtain ⟨hroot, hregister, hstatus⟩ := hname.paths
  have hcontent : createEntry st (slash :: name) = some (entryText fields) := by
    rw [createEntry_slash, hfields, Option.map_some]
  have hattr : getattr st (slash :: name) = .ok ⟨33188, 1, (entryText fields).length⟩ := by
    rw [getattr, if_neg hroot, if_neg hregister, if_neg hstatus, hcontent]
  rw [cat, hattr]
  exact readOn_spec hcontent ⟨hstatus, hregister⟩ hlength (Nat.zero_add _).ge

/-- What stat sees of the emulator is what it would see of the kernel. -/
theorem isOk_getattr {s : Store} (h : Mirrored s st) {name : Text}
    (hdir : isDirectoryName name = false) :
    (getattr st (slash :: name)).isOk = s.kernel.procExists name := by
  obtain ⟨hmirrors, hreg⟩ := h
  by_cases hctl : isControlName name = true
  · have hexists : s.kernel.procExists name = true := by
      simp only [Kernel.hasRegister, Bool.and_eq_true] at hreg
      simp [Kernel.procExists, hctl, hreg.1, hreg.2]
    rw [hexists]
    rw [isControlName, Bool.or_eq_true, decide_eq_true_eq, decide_eq_true_eq] at hctl
    rcases hctl with rfl | rfl <;> rfl
  · rw [Bool.not_eq_true] at hctl
    obtain ⟨hroot, hregister, hstatus⟩ := Ordinary.paths ⟨hdir, hctl⟩
    rw [AllFormats.procExists_eq_hasEntry hreg hdir hctl, ← hmirrors.kvhashExists_eq,
      Kvhash.kvhashExists_eq, getattr, if_neg hroot, if_neg hregister, if_neg hstatus,
      createEntry_slash]
    change _ = (st.names.lookup name).isSome
    cases st.names.lookup name with
    | none => rfl
    | some fields => rfl

def entryNamed (k : Kernel) (name : Text) : Option Entry :=
  k.entries.find? (fun e => e.name = name)

variable {env : Env}

/-- At every point of a run before an unmount: `test -e` answers for every name what it would
answer for the kernel, and `cat` of an entry, in blocks of whatever length, prints the text that
create_entry makes of the entry, which says all that the emulator keeps of it but the flags. -/
theorem emulated_files (hstrict : Stricter env) (opts : List Opt) (s : Store)
    (m : Memory) (st : State) (hreg : s.kernel.hasRegister = true) (hmirrors : Mirrors s.kernel st)
    (done : List Effect) (hdone : done <+: ((CommandLine.main env opts).run s m).effects)
    (hmounted : .umount ∉ done) : ∃ st', emulateAll st done = .ok st' ∧
      (∀ name, isDirectoryName name = false →
        (getattr st' (slash :: name)).isOk = (replay done s).kernel.procExists name) ∧
      ∀ name e, Ordinary name → entryNamed (replay done s).kernel name = some e →
        ∃ fields, fieldsOf e = some fields ∧
          createEntry st' (slash :: name) = some (entryText fields) ∧
          (∀ length, 0 < length → cat st' (slash :: name) length = .ok (entryText fields)) ∧
          (OneLine fields → readEntry (entryText fields) = some (shownOf fields)) := by
  obtain ⟨st', hrun, hmirrored⟩ := mirrored_run hstrict opts m hreg hmirrors hdone hmounted
  refine ⟨st', hrun, fun name hdir => isOk_getattr hmirrored hdir, ?_⟩
  intro name e hname he
  have hreadable := hmirrored.1.readable e (List.mem_of_find?_eq_some he)
  obtain ⟨fields, hfields⟩ := Option.isSome_iff_exists.mp hreadable
  have hlookup : st'.names.lookup name = some fields := by
    rw [hmirrored.1.names, ← entryNamed, he, Option.bind_some, hfields]
  refine ⟨fields, hfields, ?_, fun length hlength => cat_spec hname hlookup hlength,
    readEntry_entryText⟩
  rw [createEntry_slash, hlookup, Option.map_some]

theorem emulated_files_elf : ∃ st', emulateAll ⟨true, ∅⟩ elfEffects = .ok st' ∧
    (∀ name, isDirectoryName name = false → (getattr st' (slash :: name)).isOk =
      (replay elfEffects emptyStore).kernel.procExists name) ∧
    ∀ name e, Ordinary name → entryNamed (replay elfEffects emptyStore).kernel name = some e →
      ∃ fields, fieldsOf e = some fields ∧
        createEntry st' (slash :: name) = some (entryText fields) ∧
        (∀ length, 0 < length → cat st' (slash :: name) length = .ok (entryText fields)) ∧
        (OneLine fields → readEntry (entryText fields) = some (shownOf fields)) :=
  emulated_files (fun _ h => h) elfOptions emptyStore Memory.fresh ⟨true, ∅⟩ rfl
    (mirrors_empty ⟨none, true, true⟩ true) elfEffects List.prefix_rfl (by decide +kernel)

end Runs
end BinfmtSupport.EntryFiles
