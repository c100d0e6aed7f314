import BinfmtSupport.Restart
import BinfmtSupport.Matching
import BinfmtSupport.RunDetectors

/-!
What happens to a file that is executed. The kernel looks for an entry that fits; where the
entry names run-detectors, find_interpreters redoes the test of every entry on its own idea
of the stored formats, asks the detectors and runs what is left. After the init scripts have
restarted the system the two tests agree, so that each file ends up with the interpreters of
exactly those formats whose entries fit and whose detectors approve.
-/
namespace BinfmtSupport.Dispatch

open CText CNumber Kvhash Format Regstring Journal Stores Actions Loading CommandLine
open Find MatchBuffer Masking Matching Emulator Sweeping Restart RunDetectors

section Kernel

/-- What an entry is in the kernel: the bytes that its texts stand for. -/
def specOf (e : Entry) : Option Spec := Emulator.specOf e.type e.offset e.magic e.mask

def InHeader : Spec → Prop
  | .magic offset magic _ => 0 ≤ offset ∧ offset + magic.length ≤ 128
  | .extension _ _ _ => True

/-- linux/fs/binfmt_misc.c:check_file() -/
def checkFile : Spec → Text → List Byte → Bool
  | .magic offset magic mask, _, file =>
      decide (∀ i (h : i < magic.length), (file.getD (offset.toNat + i) 0 ^^^ magic[i]) &&&
        (if mask = [] then 255 else mask.getD i 0) = 0)
  | .extension _ ending _, path, _ => decide (extension path = some ending)

/-- What find.c says of the kernel, and what the emulator checks as well: a line is only
accepted if its fields can be read and the header has room for the magic. -/
structure Documented (accepts : Entry → Bool) (takes : Entry → Text → List Byte → Bool) :
    Prop where
  readable : ∀ e, accepts e = true → ∃ spec, specOf e = some spec ∧ InHeader spec
  checked : ∀ e spec path file, specOf e = some spec → takes e path file = checkFile spec path file

/-- The record is one whose test find.c repeats as the kernel does it: of a magic all bits
lie under the mask, which does not begin with NUL, and an extension has no escapes. -/
def Redone (b : Binfmt) : Prop :=
  ∃ f, expandFormat b = some f ∧
    (f.isMagic = true → f.mask.head? ≠ some 0 ∧ MagicUnderMask f) ∧
    (f.isMagic = false → f.magic = b.magic.getD [])

end Kernel

section Offset

theorem skipSign_append (t blank : List Byte) (hne : t ≠ []) :
    skipSign (t ++ blank) = ((skipSign t).1, (skipSign t).2 ++ blank) := by
  cases t with
  | nil => contradiction
  | cons c rest =>
    rw [List.cons_append]
    unfold skipSign
    split
    · rename_i heq
      cases heq
      rfl
    · rename_i heq
      cases heq
      rfl
    · rename_i hminus hplus
      split
      · rename_i heq
        cases heq
        exact absurd rfl (hminus _)
      · rename_i heq
        cases heq
        exact absurd rfl (hplus _)
      · rfl

theorem isdigit_of_isspace {c : Byte} (h : isspace c = true) : isdigit c = false := by
  simp only [isspace, isdigit, space, Bool.or_eq_true, Bool.and_eq_true, decide_eq_true_eq,
    Bool.and_eq_false_iff, decide_eq_false_iff_not, UInt8.le_iff_toNat_le, beq_iff_eq,
    ← UInt8.toNat_inj, UInt8.reduceToNat] at h ⊢
  omega

/-- strtol stops at the white space behind the digits. -/
theorem takeWhile_digits {digits blank : List Byte} (hdigits : ∀ c ∈ digits, isdigit c = true)
    (hblank : ∀ c ∈ blank, isspace c = true) :
    (digits ++ blank).takeWhile (isBaseDigit 10) = digits := by
  rw [List.takeWhile_append_of_pos (fun c hc => by rw [isBaseDigit_ten]; exact hdigits c hc)]
  cases blank with
  | nil => simp
  | cons c rest =>
    have hstop := isdigit_of_isspace (hblank c List.mem_cons_self)
    rw [List.takeWhile_cons_of_neg (by simp [isBaseDigit_ten, hstop]), List.append_nil]

theorem skipPrefix_ten (t : List Byte) : skipPrefix 10 t = t := by
  unfold skipPrefix
  split
  · simp
  · rfl

/-- What int() of the emulator reads as a number that long holds, strtol reads as the same. -/
theorem strtol_of_int {t : Text} {n : ℤ} (h : Emulator.int t = some n) (hnonneg : 0 ≤ n)
    (hlong : n < 2 ^ 63) : (strtol 10 t).1 = n := by
  obtain ⟨s, hs⟩ : ∃ s, s = t.dropWhile isspace := ⟨_, rfl⟩
  obtain ⟨negative, digits, hsign⟩ :
      ∃ negative digits, skipSign (trimRight s) = (negative, digits) := ⟨_, _, rfl⟩
  simp only [Emulator.int, ← hs, hsign] at h
  split at h
  · rename_i hdigits
    simp only [Bool.and_eq_true, decide_eq_true_eq, ne_eq, List.all_eq_true] at hdigits
    have hvalue := Option.some.inj h
    -- behind the digits there is white space only
    have htrim : trimRight s ++ s.rtakeWhile isspace = s := List.rdropWhile_append_rtakeWhile
    have hne : trimRight s ≠ [] := by
      intro hnil
      rw [hnil] at hsign
      exact hdigits.1 (Prod.ext_iff.mp hsign).2.symm
    have hskip : skipSign s = (negative, digits ++ s.rtakeWhile isspace) := by
      rw [← htrim, skipSign_append _ _ hne, hsign, htrim]
    have htake := takeWhile_digits hdigits.2
      (fun c (hc : c ∈ s.rtakeWhile isspace) => List.mem_rtakeWhile_imp hc)
    simp only [strtol, ← hs, hskip, skipPrefix_ten, htake, if_neg hdigits.1, longMax, longMin]
    split at hvalue <;> simp_all <;> omega
  · cases h

end Offset

section Test

inductive Same : Spec → Loaded → Prop
  | magic {f : Loaded} {n : ℕ} (hm : f.isMagic = true) (h : OffsetIs f n)
      (hsize : n + f.magicSize ≤ 128) (hmask : f.mask.head? ≠ some 0)
      (hbits : MagicUnderMask f) : Same (.magic n f.magic f.mask) f
  | extension {f : Loaded} (offset mask : Text) (hm : f.isMagic = false)
      (hfree : NulFree f.magic) : Same (.extension offset f.magic mask) f

structure Expanded (b : Binfmt) (f : Loaded) : Prop where
  type : f.type = b.type
  offset : f.offset = offsetOrZero b.offset
  magic : f.magic = expandHex (b.magic.getD [])
  mask : f.mask = expandHex b.mask
  interpreter : f.interpreter = b.interpreter.getD []
  detector : f.detector = b.detector.getD []

theorem expanded {b : Binfmt} {f : Loaded} (h : expandFormat b = some f) : Expanded b f := by
  rw [expandFormat] at h
  split at h
  · have hf := Option.some.inj h
    subst hf
    exact ⟨rfl, rfl, rfl, rfl, rfl, rfl⟩
  · cases h

structure EntryOf (b : Binfmt) (e : Entry) : Prop where
  type : e.type = if b.type = text "magic" then text "M" else text "E"
  offset : e.offset = b.offset
  magic : b.magic = some e.magic
  free : NulFree e.magic
  mask : e.mask = b.mask

variable {b : Binfmt} {e : Entry} {f : Loaded} {spec : Spec}

theorem same_of_magic (he : EntryOf b e) (hkind : b.type = text "magic")
    (hspec : specOf e = some spec) (hin : InHeader spec) (hf : Expanded b f)
    (hmask : f.mask.head? ≠ some 0) (hbits : MagicUnderMask f) : Same spec f := by
  have htype := he.type
  rw [if_pos hkind] at htype
  rw [specOf, Emulator.specOf, if_pos htype, he.offset, he.mask] at hspec
  split at hspec
  · rename_i z magic mask hint hmagic hmask'
    rw [Option.ite_none_right_eq_some] at hspec
    cases hspec.2
    obtain ⟨hnonneg, hroom⟩ := hin
    obtain ⟨n, rfl⟩ : ∃ n : ℕ, z = n := ⟨z.toNat, (Int.toNat_of_nonneg hnonneg).symm⟩
    have hfmagic := hf.magic
    have hfmask := hf.mask
    rw [he.magic, Option.getD_some, expandHex_of_parseArg hmagic] at hfmagic
    rw [expandHex_of_parseArg hmask'] at hfmask
    have hoffset := hf.offset
    rw [offsetOrZero, if_neg (by rintro hnil; rw [hnil] at hint; cases hint)] at hoffset
    have hsize : n + f.magicSize ≤ 128 := by
      rw [Loaded.magicSize, hfmagic]
      exact_mod_cast hroom
    have hoff : OffsetIs f n := by
      refine ⟨?_, by omega, by omega⟩
      rw [hoffset]
      exact strtol_of_int hint hnonneg (by omega)
    rw [← hfmagic, ← hfmask]
    exact .magic (by rw [Loaded.isMagic, hf.type, hkind]; rfl) hoff hsize hmask hbits
  · cases hspec

theorem same_of_extension (he : EntryOf b e) (hkind : b.type ≠ text "magic")
    (hspec : specOf e = some spec) (hf : Expanded b f) (hself : f.magic = b.magic.getD []) :
    Same spec f := by
  have htype := he.type
  have hne : text "E" ≠ text "M" := by decide
  rw [if_neg hkind] at htype
  rw [specOf, Emulator.specOf, htype, if_neg hne] at hspec
  rw [he.magic, Option.getD_some] at hself
  split at hspec
  · cases hspec
  · cases hspec
    rw [← hself]
    exact .extension _ _ (by simp [Loaded.isMagic, hf.type, hkind]) (hself ▸ he.free)

/-- The spec of an entry that has the texts of a record, and the format that find.c makes of
the record. -/
theorem same_of_record (he : EntryOf b e) (hspec : specOf e = some spec) (hin : InHeader spec)
    (hf : expandFormat b = some f) (hredone : Redone b) : Same spec f := by
  obtain ⟨f', hf', hbits, hplain⟩ := hredone
  obtain rfl : f' = f := Option.some.inj (hf'.symm.trans hf)
  have hmembers := expanded hf
  by_cases hkind : b.type = text "magic"
  · obtain ⟨hmask, hunder⟩ := hbits (by rw [Loaded.isMagic, hmembers.type, hkind]; rfl)
    exact same_of_magic he hkind hspec hin hmembers hmask hunder
  · exact same_of_extension he hkind hspec hmembers
      (hplain (by simp [Loaded.isMagic, hmembers.type, hkind]))

theorem maskByte_eq (f : Loaded) (i : ℕ) :
    (if f.mask = [] then 255 else f.mask.getD i 0) = maskByte f i := rfl

/-- find.c takes what the kernel takes, whatever else is loaded. -/
theorem takes_iff_checkFile {spec : Spec} {f : Loaded} (h : Same spec f) {formats : List Loaded}
    (hf : f ∈ formats) (path : Text) (file : List Byte) :
    Takes formats f path file ↔ checkFile spec path file = true := by
  cases h with
  | magic hm hoff hsize hmask hbits =>
    rename_i n
    rw [takes_magic_iff hf hm hoff, checkFile, decide_eq_true_eq]
    refine forall_congr' (fun i => forall_congr' (fun hi => ?_))
    rw [maskByte_eq, Int.toNat_natCast, applied_eq_maskByte hmask, xor_and_eq_zero_iff]
    have hunder : f.magic[i] &&& maskByte f i = f.magic[i] := by
      rcases hbits with hnil | hall
      · rw [maskByte, if_pos hnil, and_full]
      · exact hall i hi
    rw [hunder]
  | extension offset mask hm hfree =>
    rw [takes_extension_iff hm, checkFile, decide_eq_true_eq, cstr_eq_self hfree,
      extension_eq_some_iff]

end Test

section Choice
variable {formats : List Loaded}

theorem toread_le {k : ℕ} (h : ∀ f ∈ formats, f.isMagic = true → neededSize f ≤ k) :
    toread formats ≤ k := by
  have hfold : ∀ most, most ≤ k → formats.foldl widen most ≤ k := by
    induction formats with
    | nil => exact fun most hmost => hmost
    | cons f rest ih =>
      intro most hmost
      refine ih (fun g hg => h g (List.mem_cons_of_mem f hg)) _ ?_
      unfold widen
      split
      · rename_i hm
        exact max_le hmost (h f List.mem_cons_self hm)
      · exact hmost
  rw [toread_eq]
  exact hfold 0 (Nat.zero_le k)

/-- A format that is in the kernel needs no more than the header. -/
theorem Same.inHeader {spec : Spec} {f : Loaded} (h : Same spec f) (hm : f.isMagic = true) :
    0 ≤ atoi f.offset ∧ (neededSize f : ℤ) = atoi f.offset + f.magicSize ∧ neededSize f ≤ 128 := by
  cases h with
  | magic _ hoff hsize =>
    rw [neededSize_of_offset hoff, atoi_of_offset hoff]
    refine ⟨by omega, by push_cast; rfl, hsize⟩
  | extension _ _ hno =>
    rw [hno] at hm
    cases hm

/-- The interpreters that are found when every loaded format is in the kernel. -/
theorem findInterpreters_mem (h : ∀ f ∈ formats, ∃ spec, Same spec f)
    (detect : Text → Text → ℕ) (path : Text) (file : List Byte) : ∃ found,
    findInterpreters detect formats path file = .ok found ∧
      ∀ f, f ∈ found ↔ (f ∈ formats ∧ Takes formats f path file) ∧
        (f.detector = [] ∨ detect f.detector path = 0) := by
  have hsafe : BufferSafe formats := by
    refine ⟨fun f hf hm => ?_, fun f hf hm => ?_,
      fun f hf hm => neededSize_le_toread formats f hf hm⟩
    · obtain ⟨spec, hsame⟩ := h f hf
      exact (hsame.inHeader hm).1
    · obtain ⟨spec, hsame⟩ := h f hf
      exact (hsame.inHeader hm).2.1
  have hsize : toread formats ≤ 128 := toread_le (fun f hf hm => by
    obtain ⟨spec, hsame⟩ := h f hf
    exact (hsame.inHeader hm).2.2)
  obtain ⟨ok, hok, hmem⟩ := okFormats_eq_ok (toread formats) (buffer (toread formats) file) path
    formats (fun f hf => matchesFormat_ok formats hsafe f hf path file)
  refine ⟨ok.filter (fun f => f.detector ≠ [] && detect f.detector path = 0) ++
    ok.filter (fun f => f.detector = []), ?_, ?_⟩
  · rw [findInterpreters, if_pos (by omega), hok]
    rfl
  · intro f
    have hok' : f ∈ ok ↔ f ∈ formats ∧ Takes formats f path file := hmem f
    simp only [List.mem_append, List.mem_filter, hok', Bool.and_eq_true, decide_eq_true_eq]
    tauto

end Choice

section Settled

structure Settled (env : Env) (u : Store) : Prop where
  loadable : Loadable u
  register : u.kernel.hasRegister = true
  stored : ∀ name, (u.file name).isSome = true → u.kernel.hasEntry name = true
  written : ∀ e ∈ u.kernel.entries, (u.file e.name).isSome = true → ∃ r, Written env u (r, e)
  accepted : ∀ x, Written env u x → env.accepts x.2 = true
  plain : ∀ name r, LineOf env u name r → NoColon r

def Approved (takes : Entry → Text → List Byte → Bool) (detect : Text → Text → ℕ) (u : Store)
    (path : Text) (file : List Byte) (f : Loaded) : Prop :=
  ∃ e ∈ u.kernel.entries, takes e path file = true ∧
    (u.record e.name).bind expandFormat = some f ∧
    (f.detector = [] ∨ detect f.detector path = 0)

theorem isSome_file_of_record {s : Store} {name : Text} {b : Binfmt} (h : s.record name = some b) :
    (s.file name).isSome = true := by
  rw [Option.isSome_iff_ne_none]
  intro hnone
  rw [record_of_missing hnone] at h
  cases h

theorem texts_of_record {s : Store} {name : Text} {b : Binfmt} (h : s.record name = some b) :
    (∃ magic, b.magic = some magic ∧ NulFree magic) ∧ b.interpreter.isSome = true := by
  cases hfile : s.file name with
  | none =>
    rw [record_of_missing hfile] at h
    cases h
  | some content =>
    rw [record_of_file hfile] at h
    cases hload : binfmtLoad content with
    | error field =>
      rw [hload] at h
      cases h
    | ok b' =>
      rw [hload] at h
      obtain rfl := Option.some.inj h
      obtain ⟨-, _, _, _, magic, _, interpreter, _, -, -, -, -, hmagic, -, hinterpreter⟩ :=
        Records.lines_of_binfmtLoad hload
      exact ⟨⟨_, hmagic, nulFree_cstr _⟩, by rw [hinterpreter]; rfl⟩

variable {env : Env} {u : Store}

/-- The entry of a line: the texts of the record, and its interpreter or run-detectors. -/
theorem entry_of_written {x : Registration × Entry} (h : Written env u x) (hplain : NoColon x.1) :
    ∃ b, u.record x.2.name = some b ∧ EntryOf b x.2 ∧
      (NeedsDetector u ∅ x.2.name b ∧ x.2.interpreter = env.runDetectors ∨
        ¬ NeedsDetector u ∅ x.2.name b ∧ b.interpreter = some x.2.interpreter) := by
  obtain ⟨⟨b, d, hb, hd, hline⟩, hentry⟩ := h
  rw [entryOf_decodeLine x.1 hplain, Option.some.injEq] at hentry
  obtain ⟨⟨magic, hmagic, hfree⟩, hinterpreter⟩ := texts_of_record hb
  obtain ⟨interpreter, hinterpreter⟩ := Option.isSome_iff_exists.mp hinterpreter
  have hprinted : x.2.magic = magic := by
    rw [← hentry, hline, registrationOf, hmagic]
    rfl
  refine ⟨b, hb, ⟨?_, ?_, ?_, ?_, ?_⟩, ?_⟩
  · rw [← hentry, hline, Registration.typeLetter, registrationOf]
    simp only [decide_eq_true_eq]
  · rw [← hentry, hline, registrationOf]
  · rw [hprinted, hmagic]
  · rw [hprinted]
    exact hfree
  · rw [← hentry, hline, registrationOf]
  · cases d with
    | true =>
      refine Or.inl ⟨hd.mp rfl, ?_⟩
      rw [← hentry, hline, registrationOf, chooseInterpreter, if_pos rfl]
      rfl
    | false =>
      refine Or.inr ⟨fun hneeds => Bool.false_ne_true (hd.mpr hneeds), ?_⟩
      rw [← hentry, hline, registrationOf, chooseInterpreter, if_neg Bool.false_ne_true,
        hinterpreter]
      rfl

/-- The loader of find.c skips nothing where everything is enabled. -/
theorem loadFormats_all {names : List Text}
    (hrecord : ∀ name ∈ names, (u.record name).isSome = true)
    (hproc : ∀ name ∈ names, u.kernel.procExists name = true) :
    loadFormats u names =
      .ok (names.filterMap (fun name => (u.record name).bind expandFormat)) := by
  induction names with
  | nil => rfl
  | cons name rest ih =>
    obtain ⟨b, hb⟩ := Option.isSome_iff_exists.mp (hrecord name List.mem_cons_self)
    rw [loadFormats_cons (hproc name List.mem_cons_self) hb
      (ih (fun n hn => hrecord n (List.mem_cons_of_mem name hn))
        (fun n hn => hproc n (List.mem_cons_of_mem name hn))), List.filterMap_cons, hb,
      Option.bind_some]
    cases expandFormat b with
    | none => rfl
    | some f => rfl

variable {takes : Entry → Text → List Byte → Bool} (h : Settled env u)
  (hdoc : Documented env.accepts takes) (hredone : ∀ name b, u.record name = some b → Redone b)

include h hdoc hredone in
/-- A stored format, in the kernel and in find.c. -/
theorem Settled.same {e : Entry} (he : e ∈ u.kernel.entries) {f : Loaded}
    (hf : (u.record e.name).bind expandFormat = some f) :
    ∃ spec, specOf e = some spec ∧ Same spec f := by
  obtain ⟨b, hb, hexpand⟩ := Option.bind_eq_some_iff.mp hf
  obtain ⟨r, hwritten⟩ := h.written e he (isSome_file_of_record hb)
  obtain ⟨b', hb', hentry, -⟩ := entry_of_written hwritten (h.plain _ r hwritten.1)
  obtain rfl : b' = b := Option.some.inj (hb'.symm.trans hb)
  obtain ⟨spec, hspec, hin⟩ := hdoc.readable e (h.accepted (r, e) hwritten)
  exact ⟨spec, hspec, same_of_record hentry hspec hin hexpand (hredone _ _ hb)⟩

include h in
theorem Settled.procExists {name : Text} (hfile : (u.file name).isSome = true) :
    u.kernel.procExists name = true := by
  have hreg := h.register
  rw [Kernel.hasRegister, Bool.and_eq_true] at hreg
  rw [Kernel.procExists, hreg.1, hreg.2, h.stored name hfile]
  simp

include h in
theorem Settled.loadFormats {names : List Text} (hnames : names.Perm u.admindir.keys) :
    Find.loadFormats u names =
      .ok (names.filterMap (fun name => (u.record name).bind expandFormat)) := by
  have hstored : ∀ name ∈ names, (u.file name).isSome = true :=
    fun name hname => (isSome_file_iff u name).mpr (hnames.mem_iff.mp hname)
  exact loadFormats_all (fun name hname => h.loadable.intact name (hstored name hname))
    (fun name hname => h.procExists (hstored name hname))

include h in
/-- What find.c has loaded are the stored formats, and they are those of the kernel. -/
theorem Settled.mem_formats {names : List Text} (hnames : names.Perm u.admindir.keys) (f : Loaded) :
    f ∈ names.filterMap (fun name => (u.record name).bind expandFormat) ↔
      ∃ e ∈ u.kernel.entries, (u.record e.name).bind expandFormat = some f := by
  rw [List.mem_filterMap]
  constructor
  · rintro ⟨name, -, hf⟩
    obtain ⟨b, hb, -⟩ := Option.bind_eq_some_iff.mp hf
    have hentry := h.stored name (isSome_file_of_record hb)
    rw [Kernel.hasEntry, List.any_eq_true] at hentry
    obtain ⟨e, he, hname⟩ := hentry
    rw [decide_eq_true_eq] at hname
    exact ⟨e, he, hname ▸ hf⟩
  · rintro ⟨e, he, hf⟩
    obtain ⟨b, hb, -⟩ := Option.bind_eq_some_iff.mp hf
    refine ⟨e.name, hnames.mem_iff.mpr ?_, hf⟩
    exact (isSome_file_iff u e.name).mp (isSome_file_of_record hb)

include h hdoc hredone in
/-- The interpreters that are found belong to the entries that fit. -/
theorem Settled.found {names : List Text} (hnames : names.Perm u.admindir.keys)
    (detect : Text → Text → ℕ) (path : Text) (file : List Byte) : ∃ formats found,
    Find.loadFormats u names = .ok formats ∧
      findInterpreters detect formats path file = .ok found ∧
      ∀ f, f ∈ found ↔ Approved takes detect u path file f := by
  have hmem := h.mem_formats hnames
  have hload := h.loadFormats hnames
  generalize names.filterMap (fun name => (u.record name).bind expandFormat) = formats at hmem hload
  obtain ⟨found, hfound, hin⟩ := findInterpreters_mem (fun f (hf : f ∈ formats) => by
    obtain ⟨e, he, hexpand⟩ := (hmem f).mp hf
    obtain ⟨spec, -, hsame⟩ := h.same hdoc hredone he hexpand
    exact ⟨spec, hsame⟩) detect path file
  refine ⟨formats, found, hload, hfound, fun f => ?_⟩
  rw [hin f]
  constructor
  · rintro ⟨⟨hf, htakes⟩, hdetect⟩
    obtain ⟨e, he, hexpand⟩ := (hmem f).mp hf
    obtain ⟨spec, hspec, hsame⟩ := h.same hdoc hredone he hexpand
    refine ⟨e, he, ?_, hexpand, hdetect⟩
    rw [hdoc.checked e spec path file hspec, ← takes_iff_checkFile hsame hf]
    exact htakes
  · rintro ⟨e, he, hfits, hexpand, hdetect⟩
    obtain ⟨spec, hspec, hsame⟩ := h.same hdoc hredone he hexpand
    have hf : f ∈ formats := (hmem f).mpr ⟨e, he, hexpand⟩
    refine ⟨⟨hf, ?_⟩, hdetect⟩
    rw [takes_iff_checkFile hsame hf, ← hdoc.checked e spec path file hspec]
    exact hfits

end Settled

section Programs
variable {u : Store}

theorem run_printInterpreters (found : List Loaded) (s : Store) (m : Memory) :
    (printInterpreters found).run s m = ⟨.returned (), { m with
      answers := m.answers ++ found.map (fun f => .found f.interpreter) }, []⟩ := by
  induction found generalizing m with
  | nil => simp [printInterpreters]
  | cons f rest ih =>
    rw [printInterpreters, answer, Prog.run_remember_bind, ih]
    simp

/-- `update-binfmts --find` prints what find_interpreters returns. -/
theorem run_find {env : Env} (hrel : Reliable env) {path : Text} {file : List Byte}
    (hfile : env.files path = some file) {formats found : List Loaded}
    (hload : loadFormats u (env.readdir u.admindir) = .ok formats)
    (hfound : findInterpreters env.detect formats path file = .ok found) : ∃ m,
    (CommandLine.main env [.mode .find [path]]).run u Memory.fresh = ⟨.returned (), m, []⟩ ∧
      m.answers = found.map (fun f => .found f.interpreter) := by
  have hmain : CommandLine.main env [.mode .find [path]] =
      exitStatus (actFind { env with test := false } path) := rfl
  have hok : (Env.ok { env with test := false } 0) = true := ok_of_reliable hrel 0
  have hrun : (actFind { env with test := false } path).run u Memory.fresh =
      ⟨.returned true, { Memory.fresh.tick with
        answers := found.map (fun f => .found f.interpreter) }, []⟩ := by
    rw [actFind, run_succeeds_bind, show Memory.fresh.clock = 0 from rfl, hok, if_pos rfl,
      Prog.run_observe_bind, hload, hfile]
    dsimp only
    rw [hfound]
    dsimp only
    rw [Prog.run_bind_returned (run_printInterpreters found u _)]
    rfl
  refine ⟨{ Memory.fresh.tick with answers := found.map (fun f => .found f.interpreter) }, ?_, rfl⟩
  rw [hmain, exitStatus, Prog.run_bind_returned hrun]
  rfl

/-- run-detectors once the arguments are in place. -/
theorem main_of_find {find : Text → Except Failure (List Loaded)}
    {executes : ℕ → Attempt → Bool} {argv : List Text} {argIndex : ℕ} (h : argIndex < argv.length)
    {found : List Loaded} (hfind : find argv[argIndex] = .ok found) :
    RunDetectors.main find executes argv argIndex =
      tryEach executes argv[argIndex] 0
        (none :: vector (argv[argIndex] :: argv.drop (argIndex + 1))) found := by
  have hready := prepared h
  rw [List.drop_eq_getElem_cons h] at hready
  have hfetch : fetch argv argIndex = .ok argv[argIndex] := by
    rw [fetch, List.getElem?_eq_getElem h]
  rw [RunDetectors.main, if_neg (Nat.not_le.mpr h), ← bind_assoc, hready]
  change (fetch argv argIndex >>= fun target => find target >>= fun interpreters => _) = _
  rw [hfetch]
  change (find argv[argIndex] >>= fun interpreters => _) = _
  rw [hfind]
  rfl

/-- What became of a file that run-detectors was given: nothing but approved formats is tried,
and if none of them takes over, all were tried. -/
structure Handled (approved : Loaded → Prop) (path : Text) (arguments : List Text) (r : Ended) :
    Prop where
  only : ∀ a ∈ r.attempts, ∃ f, approved f ∧ a = attemptOf arguments f
  all : r.ending ≠ .replaced → r.ending = .quit (.unableToFind path) ∧
    ∀ f, approved f → attemptOf arguments f ∈ r.attempts

theorem upToFirst_of_none {α : Type} {passes : ℕ → α → Bool} {n : ℕ} {xs : List α}
    (h : ∀ x ∈ xs.zipIdx n, passes x.2 x.1 = false) : upToFirst passes n xs = xs := by
  have hidx : (xs.zipIdx n).findIdx (fun x => passes x.2 x.1) = xs.length := by
    rw [List.findIdx_eq_length_of_false (fun x hx => h x hx), List.length_zipIdx]
  rw [upToFirst, hidx, List.take_of_length_le (Nat.le_succ _)]

theorem handled_of_tried {executes : ℕ → Attempt → Bool} {path : Text} {arguments : List Text}
    {found : List Loaded} {approved : Loaded → Prop} (hfound : ∀ f, f ∈ found ↔ approved f)
    {r : Ended} (h : Tried executes path 0 (found.map (attemptOf arguments)) r) :
    Handled approved path arguments r where
  only a ha := by
    rw [h.attempts_eq] at ha
    obtain ⟨f, hf, rfl⟩ := List.mem_map.mp (List.mem_of_mem_take ha)
    exact ⟨f, (hfound f).mp hf, rfl⟩
  all hlost := by
    have hfailed : ∀ x ∈ (found.map (attemptOf arguments)).zipIdx 0,
        executes x.2 x.1 = false := by
      intro x hx
      rw [Bool.eq_false_iff]
      exact fun hyes => hlost (h.replaced_iff.mpr ⟨x, hx, hyes⟩)
    refine ⟨h.failed_iff.mpr hfailed, fun f hf => ?_⟩
    rw [h.attempts_eq, upToFirst_of_none hfailed]
    exact List.mem_map.mpr ⟨f, (hfound f).mpr hf, rfl⟩

end Programs

section Restarted
variable {stop start : Env} {takes : Entry → Text → List Byte → Bool} {s : Store}

/-- A system that can be restarted, with a kernel as it is documented and formats that find.c
tests as this kernel does. -/
structure InOrder (start : Env) (takes : Entry → Text → List Byte → Bool) (s : Store) : Prop where
  loadable : Loadable s
  register : s.kernel.hasRegister = true
  welcome : WelcomeAll start s
  plain : ∀ name r, LineOf start s name r → NoColon r
  documented : Documented start.accepts takes
  redone : ∀ name b, s.record name = some b → Redone b

theorem InOrder.noColon (h : InOrder start takes s) {name : Text}
    (hname : (s.file name).isSome = true) : colon ∉ name := by
  classical
  obtain ⟨b, hb⟩ := Option.isSome_iff_exists.mp (h.loadable.intact name hname)
  have hline := h.plain name (registrationOf name b (chooseInterpreter start b
    (decide (NeedsDetector s ∅ name b)))) ⟨b, _, hb, by rw [decide_eq_true_eq], rfl⟩
  exact hline.1

/-- A restart settles a system that is in order. -/
theorem InOrder.settled (h : InOrder start takes s) (hstop : stop.test = false)
    (hstart : start.test = false) (hrel : Reliable stop) (hrel' : Reliable start) :
    (restarted stop start s).admindir = s.admindir ∧ Settled start (restarted stop start s) := by
  obtain ⟨lines, hnames, hwritten, hadm, hentries, hreg, -⟩ := restarted_spec hstop hstart hrel
    hrel' h.loadable h.register h.welcome (fun name hname => h.noColon hname)
  have hfile : ∀ name, (restarted stop start s).file name = s.file name :=
    fun name => by simp only [Store.file, hadm]
  refine ⟨hadm, h.loadable.congr hadm, hreg, ?_, ?_, ?_, ?_⟩
  · intro name hname
    rw [hfile, isSome_file_iff, ← hnames.mem_iff] at hname
    obtain ⟨x, hx, rfl⟩ := List.mem_map.mp hname
    rw [Kernel.hasEntry, hentries, List.any_eq_true]
    exact ⟨x.2, List.mem_append_right _ (List.mem_map_of_mem hx), by simp⟩
  · intro e he hname
    rw [hentries] at he
    rcases List.mem_append.mp he with hstrange | hline
    · rw [hfile] at hname
      have hnone := (List.mem_filter.mp hstrange).2
      rw [Option.isNone_iff_eq_none] at hnone
      rw [hnone] at hname
      cases hname
    · obtain ⟨x, hx, rfl⟩ := List.mem_map.mp hline
      exact ⟨x.1, (written_congr hadm _).mpr (hwritten x hx)⟩
  · intro x hx
    have hx' := (written_congr hadm x).mp hx
    obtain ⟨b, d, hb, -⟩ := hx'.1
    obtain ⟨e, hentry, haccepts⟩ := h.welcome _ (isSome_file_of_record hb) x.1 hx'.1
    rw [hx'.2, Option.some.injEq] at hentry
    rw [hentry]
    exact haccepts
  · exact fun name r hr => h.plain name r ((lineOf_congr hadm name r).mp hr)

/-- The kernel runs the interpreter of the format itself: there is no detector and no other
format with this spec, and --find agrees for every file that fits. -/
structure Direct (takes : Entry → Text → List Byte → Bool) (u : Store) (e : Entry) (b : Binfmt) :
    Prop where
  interpreter : b.interpreter = some e.interpreter
  noDetector : hasDetector b = false
  alone : ∀ name other, name ≠ e.name → u.record name = some other →
    binfmtEquals b other ≠ some true
  agrees : ∀ detect path file, takes e path file = true →
    ∃ f, f.interpreter = e.interpreter ∧ Approved takes detect u path file f

/-- The kernel runs run-detectors, which tries the interpreters of the approved formats. -/
structure Delegated (env : Env) (takes : Entry → Text → List Byte → Bool) (u : Store) (e : Entry) :
    Prop where
  interpreter : e.interpreter = env.runDetectors
  handled : ∀ names detect file executes argv argIndex (hindex : argIndex < argv.length),
    names.Perm u.admindir.keys →
    ∃ r, RunDetectors.main (findFor detect u names (fun _ => some file)) executes argv argIndex =
        .ok r ∧
      Handled (Approved takes detect u argv[argIndex] file) argv[argIndex]
        (argv[argIndex] :: argv.drop (argIndex + 1)) r

theorem detector_of_hasDetector {b : Binfmt} (h : hasDetector b = false) :
    b.detector.getD [] = [] := by
  cases hdetector : b.detector with
  | none => rfl
  | some detector =>
    rw [hasDetector, hdetector] at h
    cases detector with
    | nil => rfl
    | cons c rest => cases h

theorem InOrder.found (h : InOrder start takes s) (hstop : stop.test = false)
    (hstart : start.test = false) (hrel : Reliable stop) (hrel' : Reliable start)
    {names : List Text} (hnames : names.Perm (restarted stop start s).admindir.keys)
    (detect : Text → Text → ℕ) (path : Text) (file : List Byte) : ∃ formats found,
    loadFormats (restarted stop start s) names = .ok formats ∧
      findInterpreters detect formats path file = .ok found ∧
      ∀ f, f ∈ found ↔ Approved takes detect (restarted stop start s) path file f := by
  obtain ⟨hadm, hsettled⟩ := h.settled hstop hstart hrel hrel'
  refine hsettled.found h.documented (fun name b hb => h.redone name b ?_) hnames detect path file
  rw [← hb]
  exact record_congr (by simp only [Store.file, hadm])

end Restarted

section Example

open Isolation

instance (spec : Spec) : Decidable (InHeader spec) := by
  cases spec <;> unfold InHeader <;> infer_instance

def headerAccepts (e : Entry) : Bool :=
  match specOf e with
  | some spec => InHeader spec
  | none => false

def headerTakes (e : Entry) (path : Text) (file : List Byte) : Bool :=
  match specOf e with
  | some spec => checkFile spec path file
  | none => false

theorem documented_header : Documented headerAccepts headerTakes where
  readable e h := by
    unfold headerAccepts at h
    cases hspec : specOf e with
    | none =>
      rw [hspec] at h
      cases h
    | some spec =>
      rw [hspec, decide_eq_true_eq] at h
      exact ⟨spec, rfl, h⟩
  checked e spec path file hspec := by rw [headerTakes, hspec]

def headerEnv : Env :=
  { plainEnv with
    accepts := headerAccepts
    files := fun _ => some (text "ABCD") }

theorem headerEnv_reliable : Reliable headerEnv := plainEnv_reliable

def probedContent : List Byte := text "pkg\nmagic\n0\nAB\n\n/usr/bin/prog\n/usr/bin/probe\n\n\n"

def probedRecord : Binfmt :=
  ⟨some (text "pkg"), text "magic", text "0", some (text "AB"), [], some (text "/usr/bin/prog"),
    some (text "/usr/bin/probe"), some [], some []⟩

def probedStore : Store := storeWith (text "prog") probedContent

theorem load_probedContent : binfmtLoad probedContent = .ok probedRecord := by decide +kernel

theorem record_probedStore {name : Text} {b : Binfmt} (h : probedStore.record name = some b) :
    name = text "prog" ∧ b = probedRecord := by
  by_cases hname : name = text "prog"
  · subst hname
    rw [probedStore, record_of_file (by rw [file_storeWith, if_pos rfl]), load_probedContent] at h
    exact ⟨rfl, (Option.some.inj h).symm⟩
  · rw [probedStore, record_of_missing (by rw [file_storeWith, if_neg hname])] at h
    cases h

theorem line_probedStore {name : Text} {r : Registration}
    (h : LineOf headerEnv probedStore name r) :
    ∃ d, r = registrationOf (text "prog") probedRecord
      (chooseInterpreter headerEnv probedRecord d) := by
  obtain ⟨b, d, hb, -, rfl⟩ := h
  obtain ⟨rfl, rfl⟩ := record_probedStore hb
  exact ⟨d, rfl⟩

theorem inOrder_probed : InOrder headerEnv headerTakes probedStore where
  loadable := loadable_storeWith load_probedContent (by decide) (by decide)
  register := rfl
  welcome name _ r hr := by
    obtain ⟨d, rfl⟩ := line_probedStore hr
    cases d <;> exact ⟨_, entryOf_decodeLine _ (by decide +kernel), by decide +kernel⟩
  plain name r hr := by
    obtain ⟨d, rfl⟩ := line_probedStore hr
    cases d <;> decide +kernel
  documented := documented_header
  redone name b hb := by
    obtain ⟨rfl, rfl⟩ := record_probedStore hb
    exact ⟨⟨text "magic", text "0", text "AB", [], text "/usr/bin/prog", text "/usr/bin/probe",
      zero_ne_nil, Or.inl rfl⟩, by decide +kernel, by decide, fun h => by cases h⟩

def probedEntry : Entry :=
  ⟨text "prog", text "M", text "0", text "AB", [], headerEnv.runDetectors, [[]]⟩

end Example

section Results
variable {stop start : Env} {takes : Entry → Text → List Byte → Bool} {s : Store}

/-- After a restart --find prints the interpreters of exactly those formats whose entries the
kernel finds to fit the file and whose detectors approve. -/
theorem restarted_find {ask : Env} (h : InOrder start takes s) (hstop : stop.test = false)
    (hstart : start.test = false) (hrel : Reliable stop) (hrel' : Reliable start)
    (hrel'' : Reliable ask) (path : Text) (file : List Byte) (hfile : ask.files path = some file) :
    ∃ (found : List Loaded) (m : Memory),
      (CommandLine.main ask [.mode .find [path]]).run (restarted stop start s)
        Memory.fresh = ⟨.returned (), m, []⟩ ∧
      m.answers = found.map (fun f => .found f.interpreter) ∧
      ∀ f, f ∈ found ↔ Approved takes ask.detect (restarted stop start s) path file f := by
  obtain ⟨formats, found, hload, hfound, hmem⟩ := h.found hstop hstart hrel hrel'
    (ask.readdir_perm _) ask.detect path file
  obtain ⟨m, hrun, hanswers⟩ := run_find hrel'' hfile hload hfound
  exact ⟨found, m, hrun, hanswers, hmem⟩

theorem restarted_find_probed :
    ∃ (found : List Loaded) (m : Memory), (CommandLine.main headerEnv [.mode .find [text "a"]]).run
        (restarted headerEnv headerEnv probedStore) Memory.fresh = ⟨.returned (), m, []⟩ ∧
      m.answers = found.map (fun f => .found f.interpreter) ∧
      ∀ f, f ∈ found ↔ Approved headerTakes headerEnv.detect
        (restarted headerEnv headerEnv probedStore) (text "a") (text "ABCD") f :=
  restarted_find inOrder_probed rfl rfl headerEnv_reliable headerEnv_reliable headerEnv_reliable
    (text "a") (text "ABCD") rfl

/-- After a restart the entry of a stored format leads to an interpreter in one of two ways: the
kernel runs the one of the format, which nothing else can claim, or it runs run-detectors, and
then only formats whose entries fit the file and whose detectors approve are tried, all of
them if none can be executed. -/
theorem restarted_dispatch (h : InOrder start takes s) (hstop : stop.test = false)
    (hstart : start.test = false) (hrel : Reliable stop) (hrel' : Reliable start) (e : Entry)
    (he : e ∈ (restarted stop start s).kernel.entries) (hstored : (s.file e.name).isSome = true) :
    ∃ b, (restarted stop start s).record e.name = some b ∧
      (Direct takes (restarted stop start s) e b ∨
        Delegated start takes (restarted stop start s) e) := by
  obtain ⟨hadm, hsettled⟩ := h.settled hstop hstart hrel hrel'
  have hfile : ∀ name, (restarted stop start s).file name = s.file name :=
    fun name => by simp only [Store.file, hadm]
  obtain ⟨r, hwritten⟩ := hsettled.written e he (by rwa [hfile])
  obtain ⟨b, hb, -, hinterpreter⟩ := entry_of_written hwritten (hsettled.plain _ r hwritten.1)
  refine ⟨b, hb, ?_⟩
  rcases hinterpreter with ⟨-, hdetectors⟩ | ⟨hneeds, hown⟩
  · refine Or.inr ⟨hdetectors, ?_⟩
    intro names detect file executes argv argIndex hindex hnames
    obtain ⟨formats, found, hload, hfound, hmem⟩ := h.found hstop hstart hrel hrel'
      hnames detect argv[argIndex] file
    have hfind : findFor detect (restarted stop start s) names (fun _ => some file)
        argv[argIndex] = .ok found := by
      rw [findFor, hload]
      exact hfound
    obtain ⟨r, hrun, htried⟩ := tryEach_tried executes argv[argIndex]
      (argv[argIndex] :: argv.drop (argIndex + 1)) found 0 none
    exact ⟨r, (main_of_find hindex hfind).trans hrun, handled_of_tried hmem htried⟩
  · have hno : hasDetector b = false := Bool.eq_false_iff.mpr (fun hdet => hneeds (Or.inl hdet))
    refine Or.inl ⟨hown, hno, ?_, ?_⟩
    · intro name other hne hother hequal
      exact hneeds (Or.inr ⟨name, hne, other, by rw [visible_empty]; exact hother, hequal⟩)
    · intro detect path file hfits
      obtain ⟨f, hexpand, -⟩ := h.redone _ b ((record_congr (hfile e.name)).symm.trans hb)
      have hmembers := expanded hexpand
      refine ⟨f, by rw [hmembers.interpreter, hown, Option.getD_some], e, he, hfits, ?_, Or.inl ?_⟩
      · rw [hb]
        exact hexpand
      · rw [hmembers.detector]
        exact detector_of_hasDetector hno

/-- The kernel hands its files to run-detectors. -/
theorem restarted_dispatch_probed :
    ∃ b, (restarted headerEnv headerEnv probedStore).record probedEntry.name = some b ∧
      (Direct headerTakes (restarted headerEnv headerEnv probedStore) probedEntry b ∨
        Delegated headerEnv headerTakes (restarted headerEnv headerEnv probedStore) probedEntry) :=
  restarted_dispatch inOrder_probed rfl rfl headerEnv_reliable headerEnv_reliable probedEntry
    (by decide +kernel) (by decide +kernel)

end Results
end BinfmtSupport.Dispatch
