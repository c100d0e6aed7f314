import BinfmtSupport.CommandLine

/-!
The buffer of find_interpreters against the offsets that --install lets through.
The check on the command line looks at the characters of an offset and not at its
value, while atoi keeps 32 bits of it. The buffer is large enough for every magic
format exactly when each offset survives the way through long and int.
-/
namespace BinfmtSupport.MatchBuffer

open CText CNumber Format Stores CommandLine Find

/-- No sum wraps around, none is negative and the buffer has room for all. -/
structure BufferSafe (formats : List Loaded) : Prop where
  nonneg : ∀ f ∈ formats, f.isMagic = true → 0 ≤ atoi f.offset
  exact : ∀ f ∈ formats, f.isMagic = true →
    (neededSize f : ℤ) = atoi f.offset + f.magicSize
  fits : ∀ f ∈ formats, f.isMagic = true → neededSize f ≤ toread formats

/-- The offset is a value of long with bit 31 clear, and adding the size of the
magic to its low half stays below the limit of size_t. -/
def OffsetFits (f : Loaded) : Prop :=
  magnitude 10 f.offset < 2 ^ 63 ∧ magnitude 10 f.offset % 2 ^ 32 < 2 ^ 31 ∧
    magnitude 10 f.offset % 2 ^ 32 + f.magicSize < 2 ^ 64

instance (f : Loaded) : Decidable (OffsetFits f) :=
  inferInstanceAs (Decidable (magnitude 10 f.offset < 2 ^ 63 ∧
    magnitude 10 f.offset % 2 ^ 32 < 2 ^ 31 ∧
    magnitude 10 f.offset % 2 ^ 32 + f.magicSize < 2 ^ 64))

section Maximum

def widen (most : ℕ) (f : Loaded) : ℕ := if f.isMagic then max most (neededSize f) else most

theorem toread_eq (formats : List Loaded) : toread formats = formats.foldl widen 0 := rfl

theorem le_foldl_widen (formats : List Loaded) (most : ℕ) : most ≤ formats.foldl widen most := by
  induction formats generalizing most with
  | nil => exact le_refl most
  | cons f rest ih =>
    have hstep : most ≤ widen most f := by
      unfold widen
      split
      · exact le_max_left _ _
      · exact le_refl most
    exact le_trans hstep (ih (widen most f))

/-- The maximum covers every magic format of the list. -/
theorem neededSize_le_toread (formats : List Loaded) (f : Loaded) (hf : f ∈ formats)
    (hm : f.isMagic = true) : neededSize f ≤ toread formats := by
  rw [toread_eq]
  generalize 0 = most
  induction formats generalizing most with
  | nil => simp at hf
  | cons g rest ih =>
    rcases List.mem_cons.mp hf with rfl | hrest
    · have hstep : neededSize f ≤ widen most f := by
        unfold widen
        rw [if_pos hm]
        exact le_max_right _ _
      exact le_trans hstep (le_foldl_widen rest _)
    · exact ih hrest (widen most g)

end Maximum

section Copy

/-- In a safe buffer the copy starts and ends inside. -/
theorem copy_inside (formats : List Loaded) (h : BufferSafe formats) (f : Loaded)
    (hf : f ∈ formats) (hm : f.isMagic = true) :
    (atoi f.offset).toNat + f.magicSize ≤ toread formats := by
  have hn := h.nonneg f hf hm
  have he := h.exact f hf hm
  have hle := h.fits f hf hm
  omega

theorem length_buffer (size : ℕ) (file : List Byte) : (buffer size file).length = size := by
  simp only [buffer, List.length_append, List.length_take, List.length_replicate]
  omega

/-- Inside the buffer memcpy is defined, whatever the file holds. -/
theorem segment_eq_ok (formats : List Loaded) (h : BufferSafe formats) (f : Loaded)
    (hf : f ∈ formats) (hm : f.isMagic = true) (file : List Byte) :
    segment (buffer (toread formats) file) (atoi f.offset) f.magicSize =
      .ok (((buffer (toread formats) file).drop (atoi f.offset).toNat).take f.magicSize) := by
  have hin := copy_inside formats h f hf hm
  have hn := h.nonneg f hf hm
  unfold Find.segment
  rw [if_pos]
  rw [length_buffer]
  exact ⟨hn, by omega⟩

end Copy

section Digits

/-- A non-negative atoi is the low half of the number that the digits denote. -/
theorem atoi_eq_mod (t : Text) (hne : t ≠ []) (h : ∀ c ∈ t, isdigit c = true)
    (hlong : magnitude 10 t < 2 ^ 63) (hint : magnitude 10 t % 2 ^ 32 < 2 ^ 31) :
    atoi t = (magnitude 10 t % 2 ^ 32 : ℕ) := by
  rw [atoi, strtol_digits t hne h, longMax]
  generalize magnitude 10 t = value at hlong hint
  rw [Int.bmod_def]
  split <;> omega

theorem sizeSum_exact_iff (offset : ℤ) (size : ℕ) (h : 0 ≤ offset) :
    (sizeSum offset size : ℤ) = offset + size ↔ offset + size < 2 ^ 64 := by
  unfold sizeSum
  omega

/-- The whole-number check leaves exactly one thing open: the value. -/
theorem offsetFits_iff (f : Loaded) (h : isWholeNumber f.offset = true) :
    OffsetFits f ↔ 0 ≤ atoi f.offset ∧ (neededSize f : ℤ) = atoi f.offset + f.magicSize := by
  have hdigits : ∀ c ∈ f.offset, isdigit c = true := by
    intro c hc
    exact List.all_eq_true.mp h c hc
  have hsign := atoi_nonneg_iff f.offset f.offset_ne hdigits
  constructor
  · rintro ⟨hlong, hint, hsum⟩
    have hvalue := atoi_eq_mod f.offset f.offset_ne hdigits hlong hint
    have hn : 0 ≤ atoi f.offset := hsign.mpr ⟨hlong, hint⟩
    refine ⟨hn, ?_⟩
    apply (sizeSum_exact_iff _ _ hn).mpr
    rw [hvalue]
    exact_mod_cast hsum
  · rintro ⟨hn, hexact⟩
    obtain ⟨hlong, hint⟩ := hsign.mp hn
    have hvalue := atoi_eq_mod f.offset f.offset_ne hdigits hlong hint
    have hsum := (sizeSum_exact_iff _ _ hn).mp hexact
    rw [hvalue] at hsum
    refine ⟨hlong, hint, ?_⟩
    exact_mod_cast hsum

end Digits

theorem bufferSafe_iff (formats : List Loaded)
    (h : ∀ f ∈ formats, f.isMagic = true → isWholeNumber f.offset = true) :
    BufferSafe formats ↔ ∀ f ∈ formats, f.isMagic = true → OffsetFits f := by
  constructor
  · intro hsafe f hf hm
    exact (offsetFits_iff f (h f hf hm)).mpr ⟨hsafe.nonneg f hf hm, hsafe.exact f hf hm⟩
  · intro hfits
    have hboth := fun f hf hm => (offsetFits_iff f (h f hf hm)).mp (hfits f hf hm)
    exact ⟨fun f hf hm => (hboth f hf hm).1, fun f hf hm => (hboth f hf hm).2,
      fun f hf hm => neededSize_le_toread formats f hf hm⟩

/-- Exactly which offsets keep the buffer safe and every copy inside it, among those
that pass the whole-number check. -/
theorem matchBuffer_iff (formats : List Loaded)
    (h : ∀ f ∈ formats, f.isMagic = true → isWholeNumber f.offset = true) :
    (BufferSafe formats ∧ ∀ f ∈ formats, f.isMagic = true → ∀ file, ∃ bytes,
        segment (buffer (toread formats) file) (atoi f.offset) f.magicSize = .ok bytes) ↔
      ∀ f ∈ formats, f.isMagic = true → OffsetFits f := by
  constructor
  · rintro ⟨hsafe, -⟩
    exact (bufferSafe_iff formats h).mp hsafe
  · intro hfits
    have hsafe := (bufferSafe_iff formats h).mpr hfits
    refine ⟨hsafe, ?_⟩
    intro f hf hm file
    exact ⟨_, segment_eq_ok formats hsafe f hf hm file⟩

def plainFormat : Loaded :=
  ⟨text "magic", text "4", text "ABCD", [], text "/bin/sh", [], by decide, by decide⟩

def farFormat : Loaded :=
  ⟨text "magic", text "2147483640", [67, 0], [255, 127], text "/bin/sh", [], by decide, Or.inr rfl⟩

def suffixFormat : Loaded :=
  ⟨text "extension", text "x", text "class", [], text "/usr/bin/jexec", [], by decide, Or.inl rfl⟩

/-- Three formats, one of them close to the limit. -/
theorem matchBuffer_three : BufferSafe [plainFormat, farFormat, suffixFormat] ∧
    ∀ f ∈ [plainFormat, farFormat, suffixFormat], f.isMagic = true → ∀ file, ∃ bytes,
      segment (buffer (toread [plainFormat, farFormat, suffixFormat]) file) (atoi f.offset)
        f.magicSize = .ok bytes :=
  (matchBuffer_iff [plainFormat, farFormat, suffixFormat] (by decide)).mpr (by decide)

def wrappedOptions : List Opt :=
  [.mode .install [text "big", text "/bin/sh"], .magic (text "AB"),
    .offset (text "4294967295")]

def wrappedFormat : Loaded :=
  ⟨text "magic", text "4294967295", text "AB", [], text "/bin/sh", [], by decide, by decide⟩

/-- An offset of 2^32 - 1 passes the check, becomes -1, and the copy starts before a
buffer of one byte. -/
theorem wrapped_offset : (recordOf wrappedOptions).bind expandFormat = some wrappedFormat ∧
    (∀ f ∈ [wrappedFormat], f.isMagic = true → isWholeNumber f.offset = true) ∧
    atoi wrappedFormat.offset = -1 ∧ toread [wrappedFormat] = 1 ∧
    ¬ BufferSafe [wrappedFormat] ∧
    segment (buffer (toread [wrappedFormat]) []) (atoi wrappedFormat.offset)
      wrappedFormat.magicSize = .error .outOfBounds := by
  refine ⟨by decide +kernel, by decide, by decide +kernel, by decide +kernel, ?_,
    by decide +kernel⟩
  intro hsafe
  have hn := hsafe.nonneg wrappedFormat List.mem_cons_self (by decide)
  revert hn
  decide +kernel

end BinfmtSupport.MatchBuffer
