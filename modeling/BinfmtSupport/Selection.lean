import BinfmtSupport.Masking

/-!
Which formats find_interpreters returns, and in which order. One buffer serves every
format and is as long as the neediest of them asks for, but a format that fits into it
sees the same bytes there as in a buffer of its own. So each format is selected by itself,
and the two passes over the candidates only put those with a detector first.
-/
namespace BinfmtSupport.Selection

open CText CNumber Format Stores CommandLine Find MatchBuffer Masking

/-- The offset of a magic format is not negative and its end is a value of size_t. -/
def NoOverflow (f : Loaded) : Prop :=
  f.isMagic = true → 0 ≤ atoi f.offset ∧ atoi f.offset + f.magicSize < 2 ^ 64

instance (f : Loaded) : Decidable (NoOverflow f) :=
  inferInstanceAs (Decidable (f.isMagic = true →
    0 ≤ atoi f.offset ∧ atoi f.offset + f.magicSize < 2 ^ 64))

/-- The format passes its magic or extension test when it is the only one loaded. -/
def passesAlone (f : Loaded) (path : Text) (file : List Byte) : Bool :=
  match matchesFormat (toread [f]) (buffer (toread [f]) file) path f with
  | .ok passes => passes
  | .error _ => false

def selected (detect : Text → Text → ℕ) (path : Text) (file : List Byte) (f : Loaded) : Bool :=
  passesAlone f path file && (f.detector = [] || detect f.detector path = 0)

def selection (detect : Text → Text → ℕ) (path : Text) (file : List Byte)
    (formats : List Loaded) : List Loaded :=
  formats.filter (fun f => selected detect path file f && f.detector ≠ []) ++
    formats.filter (fun f => selected detect path file f && f.detector = [])

section Buffer

theorem bufferSafe_of_noOverflow {formats : List Loaded} (h : ∀ f ∈ formats, NoOverflow f) :
    BufferSafe formats where
  nonneg f hf hm := (h f hf hm).1
  exact f hf hm := (sizeSum_exact_iff _ _ (h f hf hm).1).mpr (h f hf hm).2
  fits f hf hm := neededSize_le_toread formats f hf hm

/-- The bytes that a format is compared with do not depend on what else is loaded. -/
theorem copied_alone {formats : List Loaded} (h : ∀ f ∈ formats, NoOverflow f) {f : Loaded}
    (hf : f ∈ formats) (hm : f.isMagic = true) (file : List Byte) :
    copied formats f file = copied [f] f file := by
  have hsafe := bufferSafe_of_noOverflow h
  have halone : BufferSafe [f] := by
    apply bufferSafe_of_noOverflow
    intro g hg
    rw [List.mem_singleton.mp hg]
    exact h f hf
  have hlen := length_copied formats hsafe f hf hm file
  have hlen' := length_copied [f] halone f List.mem_cons_self hm file
  apply List.ext_getElem (hlen.trans hlen'.symm)
  intro i hi hi'
  rw [copied_getElem formats f file i hi, copied_getElem [f] f file i hi']

/-- In the common buffer a format passes its test exactly when it does so alone. -/
theorem matchesFormat_alone {formats : List Loaded} (h : ∀ f ∈ formats, NoOverflow f)
    {f : Loaded} (hf : f ∈ formats) (path : Text) (file : List Byte) :
    matchesFormat (toread formats) (buffer (toread formats) file) path f =
      .ok (passesAlone f path file) := by
  by_cases hm : f.isMagic = true
  · have halone : ∀ g ∈ [f], NoOverflow g := by
      intro g hg
      rw [List.mem_singleton.mp hg]
      exact h f hf
    have hcommon := matchesMagic_eq formats (bufferSafe_of_noOverflow h) f hf hm file
    have hown := matchesMagic_eq [f] (bufferSafe_of_noOverflow halone) f List.mem_cons_self hm
      file
    rw [copied_alone h hf hm] at hcommon
    simp only [passesAlone, matchesFormat, if_pos hm, hcommon, hown]
  · simp only [passesAlone, matchesFormat, if_neg hm]

end Buffer

section Passes

/-- The first loop keeps what passes, in its order. -/
theorem okFormats_filter (size : ℕ) (buf : List Byte) (path : Text) (passes : Loaded → Bool)
    (formats : List Loaded)
    (h : ∀ f ∈ formats, matchesFormat size buf path f = .ok (passes f)) :
    okFormats size buf path formats = .ok (formats.filter passes) := by
  induction formats with
  | nil => rfl
  | cons f rest ih =>
    have hrest := ih (fun g hg => h g (List.mem_cons_of_mem f hg))
    simp only [okFormats, h f List.mem_cons_self, hrest, List.filter_cons]
    rfl

theorem count_selection (detect : Text → Text → ℕ) (path : Text) (file : List Byte)
    (formats : List Loaded) (f : Loaded) : (selection detect path file formats).count f =
      if selected detect path file f = true then formats.count f else 0 := by
  have hzero : ∀ (p : Loaded → Bool), p f = false → (formats.filter p).count f = 0 := by
    intro p hp
    rw [List.count_eq_zero]
    intro hmem
    simp [hp] at hmem
  rw [selection, List.count_append]
  by_cases hsel : selected detect path file f = true
  · rw [if_pos hsel]
    by_cases hdet : f.detector = []
    · rw [hzero _ (by simp [hdet]), List.count_filter (by simp [hsel, hdet]), Nat.zero_add]
    · rw [hzero (fun g => selected detect path file g && g.detector = []) (by simp [hdet]),
        List.count_filter (by simp [hsel, hdet]), Nat.add_zero]
  · rw [if_neg hsel, hzero _ (by simp [hsel]), hzero _ (by simp [hsel])]

/-- Nothing without a detector comes before anything with one. -/
theorem pairwise_selection (detect : Text → Text → ℕ) (path : Text) (file : List Byte)
    (formats : List Loaded) :
    (selection detect path file formats).Pairwise
      (fun f g => f.detector = [] → g.detector = []) := by
  rw [selection, List.pairwise_append]
  refine ⟨List.Pairwise.imp_of_mem ?_ (List.pairwise_of_forall fun _ _ => trivial),
    List.Pairwise.imp_of_mem ?_ (List.pairwise_of_forall fun _ _ => trivial), ?_⟩
  · intro f g hf _ _ hnil
    simp [hnil] at hf
  · intro f g _ hg _ _
    simp only [List.mem_filter, Bool.and_eq_true, decide_eq_true_eq] at hg
    exact hg.2.2
  · intro f hf g _ hnil
    simp [hnil] at hf

end Passes

/-- Exactly the selected formats are returned, each as often as it is loaded, those with a
detector first and otherwise in the order of the directory; and what else is loaded does
not matter for any of them. Only a buffer of 2^63 bytes cannot be had. -/
theorem findInterpreters_selects (detect : Text → Text → ℕ) (formats : List Loaded)
    (path : Text) (file : List Byte) (h : ∀ f ∈ formats, NoOverflow f) :
    (findInterpreters detect formats path file =
      if toread formats < 2 ^ 63 then .ok (selection detect path file formats)
      else .error .outOfMemory) ∧
    (∀ f, (selection detect path file formats).count f =
      if selected detect path file f = true then formats.count f else 0) ∧
    (selection detect path file formats).Pairwise
      (fun f g => f.detector = [] → g.detector = []) ∧
    ∀ others, (∀ f ∈ others, NoOverflow f) → ∀ found found',
      findInterpreters detect formats path file = .ok found →
      findInterpreters detect others path file = .ok found' →
      ∀ f ∈ formats, f ∈ others → (f ∈ found ↔ f ∈ found') := by
  have hfind : ∀ loaded, (∀ f ∈ loaded, NoOverflow f) →
      findInterpreters detect loaded path file =
        if toread loaded < 2 ^ 63 then .ok (selection detect path file loaded)
        else .error .outOfMemory := by
    intro loaded hload
    rw [findInterpreters]
    split
    · rw [okFormats_filter _ _ path (fun f => passesAlone f path file) loaded
        (fun f hf => matchesFormat_alone hload hf path file)]
      change Except.ok _ = _
      rw [selection, List.filter_filter, List.filter_filter]
      congr 2
      · apply List.filter_congr
        intro f _
        by_cases hdet : f.detector = [] <;> simp [selected, hdet, Bool.and_comm]
      · apply List.filter_congr
        intro f _
        by_cases hdet : f.detector = [] <;> simp [selected, hdet]
    · rfl
  have hmem : ∀ loaded, (∀ f ∈ loaded, NoOverflow f) → ∀ found,
      findInterpreters detect loaded path file = .ok found →
      ∀ f ∈ loaded, (f ∈ found ↔ selected detect path file f = true) := by
    intro loaded hload found hfound f hf
    rw [hfind loaded hload] at hfound
    split at hfound
    · cases hfound
      simp only [selection, List.mem_append, List.mem_filter, Bool.and_eq_true,
        decide_eq_true_eq, hf, true_and]
      tauto
    · cases hfound
  refine ⟨hfind formats h, count_selection detect path file formats,
    pairwise_selection detect path file formats, ?_⟩
  intro others hothers found found' hfound hfound' f hf hf'
  rw [hmem formats h found hfound f hf, hmem others hothers found' hfound' f hf']

def probedFormat : Loaded :=
  ⟨text "magic", text "0", text "MZ", [], text "/usr/bin/mono", text "/usr/lib/cli/probe",
    zero_ne_nil, by decide⟩

/-- A file that both formats take: the one with a detector is loaded last and tried first. -/
theorem findInterpreters_selects_both :
    (∀ f ∈ [plainFormat, probedFormat], NoOverflow f) ∧
    findInterpreters (fun _ _ => 0) [plainFormat, probedFormat] (text "a.exe")
      (text "MZ..ABCD") = .ok [probedFormat, plainFormat] := by
  have hbound : ∀ f ∈ [plainFormat, probedFormat], NoOverflow f := by decide +kernel
  refine ⟨hbound, ?_⟩
  rw [(findInterpreters_selects (fun _ _ => 0) [plainFormat, probedFormat] (text "a.exe")
    (text "MZ..ABCD") hbound).1]
  decide +kernel

end BinfmtSupport.Selection
