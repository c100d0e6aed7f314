import BinfmtSupport.MatchBuffer

/-!
The two matchers of a magic format. The kernel compares under the mask, so that bits
outside it do not count on either side; find_interpreters masks only the bytes of the
file and compares them with the magic as it stands. Both see the file zero-padded.
-/
namespace BinfmtSupport.Masking

open CText CNumber Format Stores CommandLine Find MatchBuffer

/-- The bytes that a format looks at, zero-padded at the end of the file. -/
def header (f : Loaded) (file : List Byte) (i : ℕ) : Byte :=
  file.getD ((atoi f.offset).toNat + i) 0

def maskByte (f : Loaded) (i : ℕ) : Byte := if f.mask = [] then 255 else f.mask.getD i 0

/-- check_file in fs/binfmt_misc.c of the kernel, for a magic. -/
def KernelMatches (f : Loaded) (file : List Byte) : Prop :=
  ∀ i (h : i < f.magic.length), (header f file i ^^^ f.magic[i]) &&& maskByte f i = 0

/-- The format is in ok_formats, and with no detector it is in the result. -/
def Candidate (formats : List Loaded) (f : Loaded) (path : Text) (file : List Byte) : Prop :=
  (∃ ok, okFormats (toread formats) (buffer (toread formats) file) path formats = .ok ok ∧
    f ∈ ok) ∧
  ∀ detect, toread formats < 2 ^ 63 → ∃ interpreters,
    findInterpreters detect formats path file = .ok interpreters ∧
      (f.detector = [] → f ∈ interpreters)

/-- Every bit of the magic that counts for find.c lies under the mask. -/
def MagicUnderMask (f : Loaded) : Prop :=
  f.mask = [] ∨ ∀ i (h : i < f.magic.length), f.magic[i] &&& maskByte f i = f.magic[i]

instance (f : Loaded) : Decidable (MagicUnderMask f) :=
  inferInstanceAs (Decidable (f.mask = [] ∨
    ∀ i (h : i < f.magic.length), f.magic[i] &&& maskByte f i = f.magic[i]))

section Bytes

/-- Comparing under a mask is comparing what the mask leaves of both sides. -/
theorem xor_and_eq_zero_iff (a b m : Byte) : (a ^^^ b) &&& m = 0 ↔ a &&& m = b &&& m := by
  have hdist : (a ^^^ b) &&& m = (a &&& m) ^^^ (b &&& m) := by
    apply UInt8.eq_of_toBitVec_eq
    simp only [UInt8.toBitVec_and, UInt8.toBitVec_xor]
    ext i hi
    simp only [BitVec.getElem_and, BitVec.getElem_xor]
    cases a.toBitVec[i] <;> cases b.toBitVec[i] <;> cases m.toBitVec[i] <;> rfl
  rw [hdist, UInt8.xor_eq_zero_iff]

theorem and_full (a : Byte) : a &&& 255 = a := UInt8.and_neg_one

theorem buffer_getElem (size : ℕ) (file : List Byte) (i : ℕ)
    (h : i < (buffer size file).length) : (buffer size file)[i] = file.getD i 0 := by
  have hsize : i < size := by rwa [length_buffer] at h
  simp only [buffer, List.getElem_append, List.getD_eq_getElem?_getD]
  split
  · rename_i hin
    rw [List.getElem_take, List.getElem?_eq_getElem]
    rfl
  · rename_i hout
    simp only [List.length_take, not_lt] at hout
    have hlen : file.length ≤ i := by omega
    rw [List.getElem_replicate, List.getElem?_eq_none hlen]
    rfl

end Bytes

section Applied

/-- The byte that a byte of the file is ANDed with: without a mask, or with one that begins
with NUL, there is no AND. -/
def applied (f : Loaded) (i : ℕ) : Byte := if masks f then f.mask.getD i 0 else 255

/-- Two strings of bytes of one length are equal when they are so byte by byte. -/
theorem eq_iff_of_getElem {l m : List Byte} (hlen : l.length = m.length) {b : ℕ → Byte}
    (hl : ∀ i (h : i < l.length), l[i] = b i) : l = m ↔ ∀ i (h : i < m.length), b i = m[i] := by
  constructor
  · rintro rfl i hi
    exact (hl i hi).symm
  · intro hall
    apply List.ext_getElem hlen
    intro i hi hi'
    rw [hl i hi, hall i hi']

/-- In a buffer with room for it a magic is compared with the bytes of the file under the
mask that is applied. -/
theorem matchesMagic_iff {f : Loaded} {size : ℕ} (hnonneg : 0 ≤ atoi f.offset)
    (hsize : (atoi f.offset).toNat + f.magicSize ≤ size) (file : List Byte) :
    matchesMagic size (buffer size file) f = .ok true ↔
      ∀ i (h : i < f.magic.length), header f file i &&& applied f i = f.magic[i] := by
  obtain ⟨seg, hseg⟩ : ∃ seg, seg =
      ((buffer size file).drop (atoi f.offset).toNat).take f.magicSize := ⟨_, rfl⟩
  have hcopy : segment (buffer size file) (atoi f.offset) f.magicSize = .ok seg := by
    rw [Find.segment, if_pos, hseg]
    rw [length_buffer]
    omega
  have hlen : seg.length = f.magic.length := by
    simp only [hseg, List.length_take, List.length_drop, length_buffer, Loaded.magicSize] at *
    omega
  have hget : ∀ i (h : i < seg.length), seg[i] = header f file i := by
    intro i hi
    simp only [hseg, List.getElem_take, List.getElem_drop, buffer_getElem, header]
  have hresult : matchesMagic size (buffer size file) f =
      .ok (decide ((if masks f then maskSegment size f.mask seg else seg) = f.magic)) := by
    unfold matchesMagic
    rw [hcopy]
    rfl
  rw [hresult, Except.ok.injEq, decide_eq_true_eq]
  by_cases hyes : masks f = true
  · have hnil : f.mask ≠ [] := by
      intro hnil
      simp [masks, hnil] at hyes
    have hmask : f.mask.length = f.magic.length := f.mask_size.resolve_left hnil
    have htake : seg.length ≤ size := by
      rw [hlen]
      unfold Loaded.magicSize at hsize
      omega
    simp only [hyes, if_true]
    apply eq_iff_of_getElem
    · simp only [maskSegment, List.length_append, List.length_zipWith, List.length_take,
        List.length_drop]
      omega
    · intro i hi
      have hi' : i < f.mask.length := by
        simp only [maskSegment, List.length_append, List.length_zipWith, List.length_take,
          List.length_drop] at hi
        omega
      simp only [maskSegment, List.take_of_length_le htake, List.drop_eq_nil_of_le htake,
        List.append_nil, List.getElem_zipWith, hget, applied, hyes, if_true,
        List.getD_eq_getElem?_getD, List.getElem?_eq_getElem hi', Option.getD_some]
  · simp only [hyes, Bool.false_eq_true, if_false]
    apply eq_iff_of_getElem hlen
    intro i hi
    rw [hget i hi, applied, if_neg hyes, and_full]

end Applied

section Segment

def copied (formats : List Loaded) (f : Loaded) (file : List Byte) : List Byte :=
  ((buffer (toread formats) file).drop (atoi f.offset).toNat).take f.magicSize

theorem copied_getElem (formats : List Loaded) (f : Loaded) (file : List Byte) (i : ℕ)
    (h : i < (copied formats f file).length) : (copied formats f file)[i] = header f file i := by
  simp only [copied, List.getElem_take, List.getElem_drop, buffer_getElem, header]

variable (formats : List Loaded) (hsafe : BufferSafe formats) (f : Loaded) (hf : f ∈ formats)
  (hm : f.isMagic = true)
include hsafe hf hm

theorem length_copied (file : List Byte) : (copied formats f file).length = f.magic.length := by
  have hin := copy_inside formats hsafe f hf hm
  simp only [copied, List.length_take, List.length_drop, length_buffer, Loaded.magicSize] at *
  omega

/-- The segment that is compared with the magic. -/
theorem matchesMagic_eq (file : List Byte) :
    matchesMagic (toread formats) (buffer (toread formats) file) f =
      .ok (decide ((if masks f then List.zipWith (fun a b => a &&& b) (copied formats f file)
        f.mask else copied formats f file) = f.magic)) := by
  have hlen := length_copied formats hsafe f hf hm file
  have hin := copy_inside formats hsafe f hf hm
  have htake : (copied formats f file).length ≤ toread formats := by
    rw [hlen]
    unfold Loaded.magicSize at hin
    omega
  have hmask : maskSegment (toread formats) f.mask (copied formats f file) =
      List.zipWith (fun a b => a &&& b) (copied formats f file) f.mask := by
    unfold maskSegment
    rw [List.take_of_length_le htake, List.drop_eq_nil_of_le htake, List.append_nil]
  unfold matchesMagic
  rw [segment_eq_ok formats hsafe f hf hm]
  change Except.ok _ = _
  rw [← hmask]
  rfl

/-- find.c takes a magic format exactly when the masked header is the magic itself. -/
theorem matchesMagic_true_iff (hmask : f.mask = [] ∨ masks f = true) (file : List Byte) :
    matchesMagic (toread formats) (buffer (toread formats) file) f = .ok true ↔
      ∀ i (h : i < f.magic.length), header f file i &&& maskByte f i = f.magic[i] := by
  have hsame : ∀ i, applied f i = maskByte f i := by
    intro i
    rcases hmask with hnil | hyes
    · simp [applied, maskByte, masks, hnil]
    · have hne : f.mask ≠ [] := by
        intro hnil
        simp [masks, hnil] at hyes
      simp [applied, maskByte, hyes, hne]
  rw [matchesMagic_iff (hsafe.nonneg f hf hm) (copy_inside formats hsafe f hf hm)]
  simp only [hsame]

end Segment

section Candidates

/-- With a safe buffer no comparison leaves it. -/
theorem matchesFormat_ok (formats : List Loaded) (hsafe : BufferSafe formats) (f : Loaded)
    (hf : f ∈ formats) (path : Text) (file : List Byte) : ∃ ok,
    matchesFormat (toread formats) (buffer (toread formats) file) path f = .ok ok := by
  unfold matchesFormat
  by_cases hm : f.isMagic = true
  · rw [if_pos hm, matchesMagic_eq formats hsafe f hf hm]
    exact ⟨_, rfl⟩
  · rw [if_neg hm]
    exact ⟨_, rfl⟩

/-- The loop keeps the formats that pass, if every test is defined. -/
theorem okFormats_eq_ok (size : ℕ) (buf : List Byte) (path : Text) (formats : List Loaded)
    (h : ∀ f ∈ formats, ∃ ok, matchesFormat size buf path f = .ok ok) :
    ∃ ok, okFormats size buf path formats = .ok ok ∧
      ∀ f, f ∈ ok ↔ f ∈ formats ∧ matchesFormat size buf path f = .ok true := by
  induction formats with
  | nil =>
    refine ⟨[], rfl, ?_⟩
    simp
  | cons g rest ih =>
    obtain ⟨passes, hg⟩ := h g List.mem_cons_self
    obtain ⟨more, hmore, hmem⟩ := ih (fun f hf => h f (List.mem_cons_of_mem g hf))
    refine ⟨if passes then g :: more else more, ?_, ?_⟩
    · simp only [okFormats, hg, hmore]
      rfl
    · intro f
      cases passes with
      | true =>
        simp only [if_true, List.mem_cons, hmem]
        constructor
        · rintro (rfl | hin)
          · exact ⟨Or.inl rfl, hg⟩
          · exact ⟨Or.inr hin.1, hin.2⟩
        · rintro ⟨rfl | hin, hok⟩
          · exact Or.inl rfl
          · exact Or.inr ⟨hin, hok⟩
      | false =>
        simp only [Bool.false_eq_true, if_false, List.mem_cons, hmem]
        constructor
        · rintro ⟨hin, hok⟩
          exact ⟨Or.inr hin, hok⟩
        · rintro ⟨rfl | hin, hok⟩
          · rw [hg] at hok
            cases hok
          · exact ⟨hin, hok⟩

/-- Being a candidate is passing the test of find.c. -/
theorem candidate_iff (formats : List Loaded) (hsafe : BufferSafe formats) (f : Loaded)
    (hf : f ∈ formats) (hm : f.isMagic = true) (path : Text) (file : List Byte) :
    Candidate formats f path file ↔
      matchesMagic (toread formats) (buffer (toread formats) file) f = .ok true := by
  obtain ⟨ok, hok, hmem⟩ := okFormats_eq_ok (toread formats) (buffer (toread formats) file) path
    formats (fun g hg => matchesFormat_ok formats hsafe g hg path file)
  have hformat : matchesFormat (toread formats) (buffer (toread formats) file) path f =
      matchesMagic (toread formats) (buffer (toread formats) file) f := if_pos hm
  rw [← hformat]
  constructor
  · rintro ⟨⟨ok', hok', hin⟩, -⟩
    rw [hok] at hok'
    cases hok'
    exact ((hmem f).mp hin).2
  · intro hpass
    have hin : f ∈ ok := (hmem f).mpr ⟨hf, hpass⟩
    refine ⟨⟨ok, hok, hin⟩, ?_⟩
    intro detect hsize
    have hrun : findInterpreters detect formats path file =
        .ok (ok.filter (fun g => g.detector ≠ [] && detect g.detector path = 0) ++
          ok.filter (fun g => g.detector = [])) := by
      simp only [findInterpreters, hsize, if_true, hok]
      rfl
    refine ⟨_, hrun, ?_⟩
    intro hdet
    apply List.mem_append_right
    rw [List.mem_filter]
    exact ⟨hin, by simpa using hdet⟩

end Candidates

def ownFile (f : Loaded) : List Byte := List.replicate (atoi f.offset).toNat 0 ++ f.magic

theorem header_ownFile (f : Loaded) (i : ℕ) (h : i < f.magic.length) :
    header f (ownFile f) i = f.magic[i] := by
  unfold header ownFile
  rw [List.getD_eq_getElem?_getD, List.getElem?_append_right (by simp)]
  simp [h]

theorem kernelMatches_ownFile (f : Loaded) : KernelMatches f (ownFile f) := by
  intro i hi
  rw [header_ownFile f i hi]
  simp

/-- find.c agrees to take every file that the kernel matches exactly when the mask
covers all bits of the magic. -/
theorem kernelMatches_candidate_iff (formats : List Loaded) (hsafe : BufferSafe formats)
    (f : Loaded) (hf : f ∈ formats) (hm : f.isMagic = true)
    (hmask : f.mask = [] ∨ masks f = true) :
    (∀ path file, KernelMatches f file → Candidate formats f path file) ↔
      MagicUnderMask f := by
  constructor
  · intro h
    have hown := h [] (ownFile f) (kernelMatches_ownFile f)
    rw [candidate_iff formats hsafe f hf hm,
      matchesMagic_true_iff formats hsafe f hf hm hmask] at hown
    right
    intro i hi
    have hi' := hown i hi
    rwa [header_ownFile f i hi] at hi'
  · intro hunder path file hkernel
    rw [candidate_iff formats hsafe f hf hm,
      matchesMagic_true_iff formats hsafe f hf hm hmask]
    intro i hi
    have hsame : header f file i &&& maskByte f i = f.magic[i] &&& maskByte f i :=
      (xor_and_eq_zero_iff _ _ _).mp (hkernel i hi)
    rw [hsame]
    rcases hunder with hnil | hall
    · simp only [maskByte, hnil, if_true, and_full]
    · exact hall i hi

def maskedFormat : Loaded :=
  ⟨text "magic", text "0", text "AB", [255, 0], text "/bin/sh", [], by decide, by decide⟩

theorem bufferSafe_masked : BufferSafe [maskedFormat] := by
  rw [bufferSafe_iff [maskedFormat] (by decide)]
  decide +kernel

/-- A mask that lets the second byte vary, and a magic with bits in that byte. -/
theorem kernelMatches_candidate_masked :
    (∀ path file, KernelMatches maskedFormat file →
      Candidate [maskedFormat] maskedFormat path file) ↔ MagicUnderMask maskedFormat :=
  kernelMatches_candidate_iff [maskedFormat] bufferSafe_masked maskedFormat
    List.mem_cons_self (by decide) (by decide)

def maskedOptions : List Opt :=
  [.mode .install [text "varying", text "/bin/sh"], .magic (text "AB"),
    .mask (text "\\xff\\x00")]

/-- The kernel hands over a file that starts with "AX", and find.c has nothing for it. -/
theorem masked_not_candidate :
    (recordOf maskedOptions).bind expandFormat = some maskedFormat ∧
    BufferSafe [maskedFormat] ∧ masks maskedFormat = true ∧
    KernelMatches maskedFormat (text "AX") ∧
    ¬ Candidate [maskedFormat] maskedFormat (text "file") (text "AX") ∧
    (findInterpreters (fun _ _ => 1) [maskedFormat] (text "file") (text "AX")).toOption =
      some [] := by
  refine ⟨by decide +kernel, bufferSafe_masked, by decide, by unfold KernelMatches; decide +kernel,
    ?_, by decide +kernel⟩
  rw [candidate_iff [maskedFormat] bufferSafe_masked maskedFormat List.mem_cons_self (by decide)]
  decide +kernel

end BinfmtSupport.Masking
