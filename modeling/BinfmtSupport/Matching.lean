import BinfmtSupport.Emulator
import BinfmtSupport.Masking

/-!
What makes a loaded format a candidate. A magic format is compared with as many bytes
of the zero-filled buffer as its magic has, under its mask only if the first byte of the
mask is not NUL, and a file that is too short counts as one that goes on with NULs. An
extension is expanded like a magic and compared with what follows the last dot.
-/
namespace BinfmtSupport.Matching

open CText CNumber Format Stores CommandLine Find MatchBuffer Masking Unescape Expansion

/-- The loop over the loaded formats puts this one into ok_formats. -/
def Takes (formats : List Loaded) (f : Loaded) (path : Text) (file : List Byte) : Prop :=
  matchesFormat (toread formats) (buffer (toread formats) file) path f = .ok true

instance (formats : List Loaded) (f : Loaded) (path : Text) (file : List Byte) :
    Decidable (Takes formats f path file) :=
  inferInstanceAs (Decidable (matchesFormat (toread formats) (buffer (toread formats) file)
    path f = .ok true))

/-- The offset of a format is a number that int holds, and the end of its magic one that
size_t holds. -/
structure OffsetIs (f : Loaded) (n : ℕ) : Prop where
  value : (strtol 10 f.offset).1 = n
  int : n < 2 ^ 31
  size : n + f.magicSize < 2 ^ 64

section Magic
variable {f : Loaded} {n : ℕ}

theorem atoi_of_offset (h : OffsetIs f n) : atoi f.offset = n := by
  have hint := h.int
  rw [atoi, h.value, Int.bmod_def]
  split <;> omega

theorem neededSize_of_offset (h : OffsetIs f n) : neededSize f = n + f.magicSize := by
  have hsize := h.size
  rw [neededSize, atoi_of_offset h, sizeSum]
  omega

/-- Whatever else is loaded, a magic is compared with the bytes at its offset. -/
theorem takes_magic_iff {formats : List Loaded} (hf : f ∈ formats) (hm : f.isMagic = true)
    (h : OffsetIs f n) (path : Text) (file : List Byte) : Takes formats f path file ↔
      ∀ i (hi : i < f.magic.length), file.getD (n + i) 0 &&& applied f i = f.magic[i] := by
  have hatoi := atoi_of_offset h
  have hsize := neededSize_le_toread formats f hf hm
  rw [neededSize_of_offset h] at hsize
  rw [Takes, matchesFormat, if_pos hm,
    matchesMagic_iff (by omega) (by rw [hatoi]; exact hsize)]
  simp only [header, hatoi, Int.toNat_natCast]

end Magic

/-- Every bit of the magic is one that can remain after the AND. -/
def Attainable (f : Loaded) : Prop :=
  ∀ i (hi : i < f.magic.length), f.magic[i] &&& applied f i = f.magic[i]

section Files
variable {f : Loaded} {n : ℕ} {formats : List Loaded}

def fileAt (n : ℕ) (bytes : List Byte) : List Byte := List.replicate n 0 ++ bytes

theorem getD_fileAt (n : ℕ) {bytes : List Byte} {i : ℕ} (hi : i < bytes.length) :
    (fileAt n bytes).getD (n + i) 0 = bytes[i] := by
  simp [fileAt, List.getD_eq_getElem?_getD, hi]

theorem getD_beyond {file : List Byte} {i : ℕ} (h : file.length ≤ i) : file.getD i 0 = 0 := by
  simp [List.getD_eq_getElem?_getD, h]

/-- A format takes no file at all unless it takes the one that holds its magic. -/
theorem attainable_of_takes (hf : f ∈ formats) (hm : f.isMagic = true) (h : OffsetIs f n)
    {path : Text} {file : List Byte} (htakes : Takes formats f path file) : Attainable f := by
  intro i hi
  have hbyte := (takes_magic_iff hf hm h path file).mp htakes i hi
  rw [← hbyte, UInt8.and_assoc, UInt8.and_self]

/-- A mask that is there and begins with NUL is not applied. -/
theorem applied_of_nul (h : f.mask.head? = some 0) (i : ℕ) : applied f i = 255 := by
  have hno : masks f = false := by
    cases hmask : f.mask with
    | nil => simp [hmask] at h
    | cons first rest =>
      rw [hmask, List.head?_cons, Option.some.injEq] at h
      simp [masks, hmask, h]
  rw [applied, hno]
  rfl

/-- Any other mask is. -/
theorem applied_eq_maskByte (h : f.mask.head? ≠ some 0) (i : ℕ) :
    applied f i = maskByte f i := by
  cases hmask : f.mask with
  | nil => simp [applied, maskByte, masks, hmask]
  | cons first rest =>
    rw [hmask, List.head?_cons, ne_eq, Option.some.injEq] at h
    simp [applied, maskByte, masks, hmask, h]

theorem maskByte_of_nul (h : f.mask.head? = some 0) : maskByte f 0 = 0 := by
  cases hmask : f.mask with
  | nil => simp [hmask] at h
  | cons first rest =>
    rw [hmask, List.head?_cons, Option.some.injEq] at h
    simp [maskByte, hmask, h]

theorem length_pos_of_nul (h : f.mask.head? = some 0) : 0 < f.magic.length := by
  have hne : f.mask ≠ [] := by
    intro hnil
    simp [hnil] at h
  rw [← f.mask_size.resolve_left hne]
  exact List.length_pos_iff.mpr hne

end Files

/-- The documented comparison is made exactly where the mask does not begin with NUL. -/
theorem takes_iff_masked (formats : List Loaded) (f : Loaded) (hf : f ∈ formats)
    (hm : f.isMagic = true) (n : ℕ) (h : OffsetIs f n) :
    (∀ path file, Takes formats f path file ↔
      ∀ i (hi : i < f.magic.length), file.getD (n + i) 0 &&& maskByte f i = f.magic[i]) ↔
    f.mask.head? ≠ some 0 := by
  constructor
  · intro hall hnul
    have hfull := applied_of_nul hnul
    have hown := (hall [] (fileAt n f.magic)).mp
      ((takes_magic_iff hf hm h [] _).mpr (fun i hi => by
        rw [getD_fileAt n hi, hfull, and_full]))
    have hzero : maskByte f 0 = 0 := maskByte_of_nul hnul
    have hpos : 0 < f.magic.length := length_pos_of_nul hnul
    have hbegin : f.magic[0] = 0 := by
      have hbyte := hown 0 hpos
      rw [hzero, UInt8.and_zero] at hbyte
      exact hbyte.symm
    -- the other file differs in the byte that the mask leaves out
    have hother := (hall [] (fileAt n (f.magic.set 0 1))).mpr (fun i hi => by
      rw [getD_fileAt n (by simpa using hi), List.getElem_set]
      split
      · rename_i h0
        subst h0
        rw [hzero, hbegin]
        rfl
      · have hbyte := hown i hi
        rwa [getD_fileAt n hi] at hbyte)
    have hbyte := (takes_magic_iff hf hm h [] _).mp hother 0 hpos
    rw [getD_fileAt n (by simpa using hpos), hfull, and_full, hbegin,
      List.getElem_set_self] at hbyte
    exact absurd hbyte (by decide)
  · intro hnul path file
    rw [takes_magic_iff hf hm h]
    simp only [applied_eq_maskByte hnul]

theorem offsetIs_plain : OffsetIs plainFormat 4 :=
  ⟨by decide +kernel, by decide, by decide⟩

/-- A format whose mask leaves out the last bit of the second byte. -/
def maskedFormat : Loaded :=
  ⟨text "magic", text "0", [66, 0], [255, 254], text "/bin/sh", [], zero_ne_nil, Or.inr rfl⟩

/-- It takes a file that differs from the magic in this bit. -/
theorem takes_iff_two : Takes [plainFormat, maskedFormat] maskedFormat (text "file")
    (text "B" ++ [1]) :=
  ((takes_iff_masked [plainFormat, maskedFormat] maskedFormat (by simp) (by decide) 0
    ⟨by decide +kernel, by decide, by decide⟩).mpr (by decide) _ _).mpr (by decide)

def nulMaskOptions : List Opt :=
  [.mode .install [text "varying", text "/bin/sh"], .magic (text "\\x00B"),
    .mask (text "\\x00\\xff")]

def nulMaskFormat : Loaded :=
  ⟨text "magic", text "0", [0, 66], [0, 255], text "/bin/sh", [], zero_ne_nil, Or.inr rfl⟩

/-- A mask that lets the first byte vary is not applied: "AB" has the B at the right place,
and is not taken. -/
theorem nul_mask_not_applied : (recordOf nulMaskOptions).bind expandFormat = some nulMaskFormat ∧
    ((strtol 10 nulMaskFormat.offset).1 = 0 ∧ nulMaskFormat.magicSize = 2) ∧
    (∀ i (hi : i < nulMaskFormat.magic.length),
      (text "AB").getD (0 + i) 0 &&& maskByte nulMaskFormat i = nulMaskFormat.magic[i]) ∧
    ¬ Takes [nulMaskFormat] nulMaskFormat (text "file") (text "AB") := by
  decide +kernel

/-- No file that ends before the magic does is taken exactly where the last byte of the magic
is not NUL, or the AND makes the magic unattainable. -/
theorem short_not_taken_iff (formats : List Loaded) (f : Loaded) (hf : f ∈ formats)
    (hm : f.isMagic = true) (n : ℕ) (h : OffsetIs f n) (hne : f.magic ≠ []) :
    (∀ path (file : List Byte), file.length < n + f.magicSize → ¬ Takes formats f path file) ↔
      f.magic.getLast hne ≠ 0 ∨ ¬ Attainable f := by
  have hpos : 0 < f.magic.length := List.length_pos_iff.mpr hne
  rw [List.getLast_eq_getElem]
  constructor
  · intro hall
    by_contra hnot
    rw [not_or, not_not, not_not] at hnot
    obtain ⟨hlast, hattainable⟩ := hnot
    -- the file that holds the magic but for its last byte
    refine hall [] (fileAt n f.magic.dropLast) ?_ ((takes_magic_iff hf hm h [] _).mpr ?_)
    · simp only [fileAt, List.length_append, List.length_replicate, List.length_dropLast,
        Loaded.magicSize]
      omega
    · intro i hi
      have hbyte : (fileAt n f.magic.dropLast).getD (n + i) 0 = f.magic[i] := by
        by_cases hin : i < f.magic.dropLast.length
        · rw [getD_fileAt n hin, List.getElem_dropLast]
        · rw [List.length_dropLast, not_lt] at hin
          obtain rfl : i = f.magic.length - 1 := by omega
          rw [hlast, getD_beyond]
          simp [fileAt]
      rw [hbyte]
      exact hattainable i hi
  · rintro hor path file hshort htakes
    rcases hor with hlast | hnot
    · have hbyte := (takes_magic_iff hf hm h path file).mp htakes (f.magic.length - 1) (by omega)
      unfold Loaded.magicSize at hshort
      rw [getD_beyond (by omega), UInt8.zero_and] at hbyte
      exact hlast hbyte.symm
    · exact hnot (attainable_of_takes hf hm h htakes)

theorem short_not_taken_plain : (∀ path (file : List Byte),
      file.length < 4 + plainFormat.magicSize → ¬ Takes [plainFormat] plainFormat path file) ↔
    plainFormat.magic.getLast (List.cons_ne_nil _ _) ≠ 0 ∨ ¬ Attainable plainFormat :=
  short_not_taken_iff [plainFormat] plainFormat List.mem_cons_self (by decide) 4 offsetIs_plain
    (List.cons_ne_nil _ _)

def nulEndOptions : List Opt :=
  [.mode .install [text "dos", text "/bin/sh"], .magic (text "MZ\\x00")]

def nulEndFormat : Loaded :=
  ⟨text "magic", text "0", [77, 90, 0], [], text "/bin/sh", [], zero_ne_nil, Or.inl rfl⟩

/-- A file of two bytes is taken for a magic of three, because the padding is its last one. -/
theorem short_file_taken : (recordOf nulEndOptions).bind expandFormat = some nulEndFormat ∧
    ((strtol 10 nulEndFormat.offset).1 = 0 ∧ nulEndFormat.magic ≠ []) ∧
    (text "MZ").length < 0 + nulEndFormat.magicSize ∧
    Takes [nulEndFormat] nulEndFormat (text "file") (text "MZ") ∧
    (findInterpreters (fun _ _ => 1) [nulEndFormat] (text "file") (text "MZ")).toOption =
      some [nulEndFormat] := by
  decide +kernel

section Extensions

theorem extension_of_append (before : Text) {t : Text} (hdot : dot ∉ t) :
    extension (before ++ dot :: t) = some t := by
  have hall : ∀ c ∈ t.reverse, decide (c ≠ dot) = true := by
    intro c hc
    rw [List.mem_reverse] at hc
    exact decide_eq_true (fun heq => hdot (heq ▸ hc))
  have hreverse : (before ++ dot :: t).reverse = t.reverse ++ dot :: before.reverse := by simp
  rw [extension, if_pos (by simp), hreverse, List.takeWhile_append_of_pos hall,
    List.takeWhile_cons_of_neg (by simp), List.append_nil, List.reverse_reverse]

/-- What follows the last dot is the text without a dot that the path ends in. -/
theorem extension_eq_some_iff (path t : Text) :
    extension path = some t ↔ dot ∉ t ∧ dot :: t <:+ path := by
  constructor
  · intro h
    have hdot : dot ∈ path.reverse := by
      by_contra hnot
      rw [extension, if_neg (by simpa using hnot)] at h
      cases h
    obtain ⟨after, before, hsplit, hfree⟩ := List.eq_append_cons_of_mem hdot
    have hpath : path = before.reverse ++ dot :: after.reverse := by
      rw [← List.reverse_reverse path, hsplit]
      simp
    have hfree' : dot ∉ after.reverse := by simpa using hfree
    rw [hpath, extension_of_append _ hfree', Option.some.injEq] at h
    subst h
    exact ⟨hfree', before.reverse, hpath.symm⟩
  · rintro ⟨hdot, before, rfl⟩
    exact extension_of_append before hdot

theorem takes_extension_iff {formats : List Loaded} {f : Loaded} (hm : f.isMagic = false)
    (path : Text) (file : List Byte) : Takes formats f path file ↔
      dot ∉ cstr f.magic ∧ dot :: cstr f.magic <:+ path := by
  rw [Takes, matchesFormat, if_neg (by simp [hm]), Except.ok.injEq, decide_eq_true_eq]
  exact extension_eq_some_iff path (cstr f.magic)

/-- A C string that is as long as the buffer fills it. -/
theorem cstr_eq_of_length_le {buffer : List Byte} {t : Text} (h : cstr buffer = t)
    (hlen : buffer.length ≤ t.length) : buffer = t := by
  subst h
  exact ((List.takeWhile_prefix _).eq_of_length_le hlen).symm

end Extensions

/-- An extension is looked for as it is written exactly where it has no dot, so that all of
it can follow the last one, and nothing that is expanded. -/
theorem takes_ending_iff (b : Binfmt) (e : Text) (htype : b.type = text "extension")
    (hmagic : b.magic = some e) (hmask : b.mask = []) (hfree : NulFree e) (f : Loaded)
    (hf : expandFormat b = some f) (formats : List Loaded) :
    (∀ path file, NulFree path → (Takes formats f path file ↔ dot :: e <:+ path)) ↔
      dot ∉ e ∧ ∀ high low, [backslash, 120, high, low] <:+: e → escape high low = none := by
  obtain ⟨hm, hbytes⟩ : f.isMagic = false ∧ f.magic = expandHex e := by
    simp only [expandFormat, hmagic, hmask, Option.getD_some] at hf
    split at hf
    · cases hf
      have hne : text "extension" ≠ text "magic" := by decide
      exact ⟨by simp [Loaded.isMagic, htype, hne], rfl⟩
    · cases hf
  have hself : expandHex e = e ↔
      ∀ high low, [backslash, 120, high, low] <:+: e → escape high low = none := by
    rw [expandHex_eq_scan]
    exact scan_eq_self_iff (by decide) strtolEscapes e
  have hdotfree : ∀ t : Text, NulFree t → NulFree (dot :: t) := by
    intro t ht h0
    rcases List.mem_cons.mp h0 with h0 | h0
    · exact absurd h0 (by decide)
    · exact ht h0
  simp only [takes_extension_iff hm, hbytes, ← hself]
  constructor
  · intro hall
    have hown := (hall (dot :: e) [] (hdotfree e hfree)).mpr List.suffix_rfl
    have hread := (hall (dot :: cstr (expandHex e)) [] (hdotfree _ (nulFree_cstr _))).mp
      ⟨hown.1, List.suffix_rfl⟩
    have hsame : dot :: cstr (expandHex e) = dot :: e :=
      hown.2.eq_of_length_le hread.length_le
    rw [List.cons.injEq] at hsame
    have hsame := hsame.2
    refine ⟨by rw [← hsame]; exact hown.1, ?_⟩
    exact cstr_eq_of_length_le hsame (length_expandHex_le e)
  · rintro ⟨hdot, hexpand⟩ path file -
    rw [hexpand, cstr_eq_self hfree]
    exact and_iff_right hdot

def javaRecord : Binfmt :=
  ⟨some (text ":"), text "extension", text "0", some (text "jar"), [], some (text "/bin/sh"),
    none, none, none⟩

def javaFormat : Loaded :=
  ⟨text "extension", text "0", text "jar", [], text "/bin/sh", [], zero_ne_nil, Or.inl rfl⟩

theorem takes_ending_jar : (∀ path file, NulFree path →
      (Takes [javaFormat] javaFormat path file ↔ dot :: text "jar" <:+ path)) ↔
    dot ∉ text "jar" ∧ ∀ high low, [backslash, 120, high, low] <:+: text "jar" →
      escape high low = none :=
  takes_ending_iff javaRecord (text "jar") rfl rfl rfl (by decide) javaFormat (by decide +kernel)
    [javaFormat]

def extensionOptions (e : Text) : List Opt :=
  [.mode .install [text "archive", text "/bin/sh"], .extension e]

def extensionFormat (magic : Text) : Loaded :=
  ⟨text "extension", text "0", magic, [], text "/bin/sh", [], zero_ne_nil, Or.inl rfl⟩

/-- A file whose name ends in ".tar.gz" is not taken, and one that ends in ".A" is where the
extension is an escape. -/
theorem endings_not_compared :
    (recordOf (extensionOptions (text "tar.gz"))).bind expandFormat =
      some (extensionFormat (text "tar.gz")) ∧
    dot :: text "tar.gz" <:+ text "a.tar.gz" ∧
    ¬ Takes [extensionFormat (text "tar.gz")] (extensionFormat (text "tar.gz"))
      (text "a.tar.gz") [] ∧
    (recordOf (extensionOptions (text "\\x41"))).bind expandFormat =
      some (extensionFormat (text "A")) ∧
    ¬ dot :: text "\\x41" <:+ text "a.A" ∧
    Takes [extensionFormat (text "A")] (extensionFormat (text "A")) (text "a.A") [] := by
  decide +kernel

end BinfmtSupport.Matching
