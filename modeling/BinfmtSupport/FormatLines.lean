import BinfmtSupport.FormatFile
import BinfmtSupport.WellFormed

/-!
Lines of a format file as the manual has them: a key, white space, and a value, with or
without white space at the end. get_import looks for the first space character of a line
and takes what follows it as it is. So a separator is understood exactly when it is one
space.
-/
namespace BinfmtSupport.FormatLines

open CText Kvhash Format Journal Stores Actions FormatFile WellFormed

/-- A line of the documented shape, before its newline. -/
structure OptionLine where
  key : Text
  separator : Text
  value : Text
  trailing : Text
  key_ne : key ≠ []
  key_plain : ∀ c ∈ key, isspace c = false
  separator_ne : separator ≠ []
  separator_space : ∀ c ∈ separator, isspace c = true ∧ c ≠ newline
  value_ne : value ≠ []
  value_head : ∀ c ∈ value.head?, isspace c = false
  value_last : NoTrailingSpace value
  value_noNewline : newline ∉ value
  trailing_space : ∀ c ∈ trailing, isspace c = true ∧ c ≠ newline

namespace OptionLine
variable (l : OptionLine)

def bytes : List Byte := l.key ++ l.separator ++ l.value ++ l.trailing

def lowerKey : Text := l.key.map tolower

end OptionLine

def Maps (table : Arguments) (ls : List OptionLine) : Prop :=
  ∀ key value, kvhashLookup table key = some value ↔
    ∃ l ∈ ls, key = l.lowerKey ∧ value = some l.value

/-- What get_import understands: one space, and no NUL byte around it. -/
def OneSpace (l : OptionLine) : Prop :=
  l.separator = [space] ∧ NulFree l.key ∧ NulFree l.value

section Characters

theorem tolower_cases (c : Byte) : tolower c = c ∨
    97 ≤ (tolower c).toNat ∧ (tolower c).toNat ≤ 122 ∧ 65 ≤ c.toNat ∧ c.toNat ≤ 90 := by
  unfold tolower
  split
  · rename_i h
    simp only [UInt8.le_iff_toNat_le, Bool.and_eq_true, decide_eq_true_eq,
      UInt8.reduceToNat] at h
    right
    rw [UInt8.toNat_add]
    simp only [UInt8.reduceToNat]
    omega
  · exact Or.inl rfl

theorem isspace_iff (c : Byte) :
    isspace c = true ↔ c.toNat = 32 ∨ (9 ≤ c.toNat ∧ c.toNat ≤ 13) := by
  simp [isspace, space, UInt8.le_iff_toNat_le, ← UInt8.toNat_inj]

theorem isspace_of_tolower {c : Byte} (h : isspace (tolower c) = true) : isspace c = true := by
  rcases tolower_cases c with heq | ⟨hlow, -, -⟩
  · rwa [heq] at h
  · rw [isspace_iff] at h
    omega

theorem tolower_space {c : Byte} (h : isspace c = true) : tolower c = c := by
  rcases tolower_cases c with heq | ⟨-, -, hlow, -⟩
  · exact heq
  · rw [isspace_iff] at h
    omega

theorem tolower_ne_zero {c : Byte} (h : c ≠ 0) : tolower c ≠ 0 := by
  rcases tolower_cases c with heq | ⟨hlow, -⟩
  · rwa [heq]
  · intro h0
    rw [h0] at hlow
    exact absurd hlow (by decide)

theorem ne_zero_of_isspace {c : Byte} (h : isspace c = true) : c ≠ 0 := by
  rintro rfl
  cases h

end Characters

section Line

theorem trimRight_bytes (l : OptionLine) :
    trimRight l.bytes = l.key ++ l.separator ++ l.value := by
  rw [OptionLine.bytes, trimRight_append_space (fun c hc => (l.trailing_space c hc).1),
    trimRight_eq_self_iff, NoTrailingSpace, List.getLast?_append_of_ne_nil _ l.value_ne]
  exact l.value_last

/-- Trimming a line beforehand changes nothing. -/
theorem importLine_trimRight (line : List Byte) :
    importLine (trimRight line) = importLine line := by
  have htwice : trimRight (trimRight line) = trimRight line := List.rdropWhile_idempotent _ _
  rw [importLine, importLine, htwice]

theorem space_notMem_key (l : OptionLine) : space ∉ l.key := by
  intro hmem
  exact absurd (l.key_plain space hmem) (by decide)

/-- A line with one space is split there. -/
theorem importLine_of_oneSpace {l : OptionLine} (h : OneSpace l) :
    importLine l.bytes = (l.lowerKey, some l.value) := by
  obtain ⟨hsep, hkey, hvalue⟩ := h
  have hspace := space_notMem_key l
  have hline : l.key ++ l.separator ++ l.value = fileLine (l.key, l.value) := by
    rw [hsep, fileLine]
    simp
  have hread : importLine (fileLine (l.key, l.value)) = lowered (l.key, l.value) :=
    importLine_fileLine hkey hspace
      (v := ⟨l.value, l.value_ne, l.value_noNewline, hvalue, l.value_last⟩) rfl
  rw [← importLine_trimRight, trimRight_bytes, hline, hread]
  rfl

theorem fst_importLine (line : List Byte) : (importLine line).1 =
    ((cstr (trimRight line)).takeWhile (· ≠ space)).map tolower := by
  simp only [importLine]
  split <;> rfl

/-- No key that get_import finds has a NUL byte. -/
theorem nulFree_fst_importLine (line : List Byte) : NulFree (importLine line).1 := by
  rw [fst_importLine]
  intro h0
  obtain ⟨c, hc, hzero⟩ := List.mem_map.mp h0
  refine tolower_ne_zero (fun heq => ?_) hzero
  exact nulFree_cstr (trimRight line) (heq ▸ (List.takeWhile_sublist _).mem hc)

theorem nulFree_of_lowerKey {l : OptionLine} (h : NulFree l.lowerKey) : NulFree l.key := by
  intro h0
  exact h (List.mem_map.mpr ⟨0, h0, by decide⟩)

/-- What get_import sees of a line: a NUL byte can only cut the value. -/
theorem cstr_bytes {l : OptionLine} (hnul : NulFree l.key) :
    cstr (trimRight l.bytes) = l.key ++ (l.separator ++ cstr l.value) := by
  have hfree : ∀ c ∈ l.key ++ l.separator, decide (c ≠ (0 : Byte)) = true := by
    intro c hc
    refine decide_eq_true (fun h0 => ?_)
    rcases List.mem_append.mp hc with hkey | hsep
    · exact hnul (h0 ▸ hkey)
    · exact ne_zero_of_isspace (l.separator_space c hsep).1 h0
  rw [trimRight_bytes, cstr, List.takeWhile_append_of_pos hfree, List.append_assoc]
  rfl

/-- If some line is read as the key of a line and its value, it is the line itself and its
separator is one space. -/
theorem oneSpace_of_importLine {l m : OptionLine} (hkeys : m.lowerKey = l.lowerKey → m = l)
    (hnul : NulFree m.key) (h : importLine m.bytes = (l.lowerKey, some l.value)) :
    OneSpace l := by
  have hcstr := cstr_bytes hnul
  have hkey : ∀ c ∈ m.key, decide (c ≠ space) = true :=
    fun c hc => decide_eq_true (fun heq => space_notMem_key m (heq ▸ hc))
  obtain ⟨c, more, hsep⟩ := List.exists_cons_of_ne_nil m.separator_ne
  have hc := m.separator_space c (by rw [hsep]; exact List.mem_cons_self)
  have htake : (cstr (trimRight m.bytes)).takeWhile (· ≠ space) =
      m.key ++ (c :: (more ++ cstr m.value)).takeWhile (· ≠ space) := by
    rw [hcstr, List.takeWhile_append_of_pos hkey, hsep]
    rfl
  have hdrop : (cstr (trimRight m.bytes)).dropWhile (· ≠ space) =
      (c :: (more ++ cstr m.value)).dropWhile (· ≠ space) := by
    rw [hcstr, List.dropWhile_append_of_pos hkey, hsep]
    rfl
  have hfirst : ((cstr (trimRight m.bytes)).takeWhile (· ≠ space)).map tolower =
      l.lowerKey := by
    rw [← fst_importLine, h]
  simp only [importLine, htake, hdrop] at h
  by_cases hspace : c = space
  · -- the separator begins with the space that is looked for
    rw [List.takeWhile_cons_of_neg (by simp [hspace]),
      List.dropWhile_cons_of_neg (by simp [hspace]), List.append_nil, Prod.mk.injEq,
      Option.some.injEq] at h
    obtain rfl := hkeys h.1
    have hvalue := h.2
    cases more with
    | nil =>
      refine ⟨by rw [hsep, hspace], hnul, ?_⟩
      rw [List.nil_append] at hvalue
      rw [← hvalue]
      exact nulFree_cstr _
    | cons d more =>
      have hd := m.value_head d (by rw [← hvalue]; rfl)
      rw [(m.separator_space d (by rw [hsep]; simp)).1] at hd
      cases hd
  · -- the key goes on with white space, which no key has
    have hlower : tolower c ∈ l.lowerKey := by
      rw [← hfirst, htake, List.takeWhile_cons_of_pos (by simpa using hspace)]
      exact List.mem_map.mpr ⟨c, by simp, rfl⟩
    rw [tolower_space hc.1] at hlower
    obtain ⟨d, hd, hdc⟩ := List.mem_map.mp hlower
    have hplain := l.key_plain d hd
    rw [isspace_of_tolower (hdc ▸ hc.1)] at hplain
    cases hplain

/-- Every line of the file is read by itself. -/
theorem map_importLine {content : List Byte} {ls : List OptionLine}
    (h : ConsistsOf newline content (ls.map OptionLine.bytes)) :
    (lines newline content).map importLine = ls.map (fun l => importLine l.bytes) := by
  rw [map_lines importLine_newline ?_ h, List.map_map]
  · rfl
  · intro body hbody
    obtain ⟨l, -, rfl⟩ := List.mem_map.mp hbody
    refine ⟨?_, by simp [OptionLine.bytes, l.key_ne]⟩
    simp only [OptionLine.bytes, List.mem_append, not_or]
    refine ⟨⟨⟨fun hm => ?_, fun hm => (l.separator_space newline hm).2 rfl⟩,
      l.value_noNewline⟩, fun hm => (l.trailing_space newline hm).2 rfl⟩
    exact absurd (l.key_plain newline hm) (by decide)

end Line

/-- get_import reads the documented lines as the manual says exactly where every separator
is one space. -/
theorem getImport_iff (env : Env) (path : Text) (content : List Byte) (ls : List OptionLine)
    (hfile : env.files path = some content)
    (hlines : ConsistsOf newline content (ls.map OptionLine.bytes))
    (hkeys : (ls.map OptionLine.lowerKey).Nodup) (s : Store) (m : Memory)
    (hopen : env.ok m.clock = true) :
    ∃ table m', (getImport env path).run s m = ⟨.returned (some table), m', []⟩ ∧
      (Maps table ls ↔ ∀ l ∈ ls, OneSpace l) := by
  refine ⟨importTable content, m.tick, ?_, ?_⟩
  · simp only [getImport, hfile]
    simp [hopen]
  · have hread := map_importLine hlines
    constructor
    · intro hmaps
      -- every line is the value of its key, so some line was read as it
      have hline : ∀ l ∈ ls, ∃ m ∈ ls, importLine m.bytes = (l.lowerKey, some l.value) := by
        intro l hl
        obtain ⟨line, hmem, heq⟩ :=
          mem_lines_of_importTable content ((hmaps _ _).mpr ⟨l, hl, rfl, rfl⟩)
        have hmap : importLine line ∈ ls.map (fun l => importLine l.bytes) :=
          hread ▸ List.mem_map.mpr ⟨line, hmem, rfl⟩
        obtain ⟨m, hm, hml⟩ := List.mem_map.mp hmap
        exact ⟨m, hm, hml.trans heq⟩
      have hnul : ∀ l ∈ ls, NulFree l.key := by
        intro l hl
        obtain ⟨m, -, heq⟩ := hline l hl
        have hfirst := nulFree_fst_importLine m.bytes
        rw [heq] at hfirst
        exact nulFree_of_lowerKey hfirst
      intro l hl
      obtain ⟨m, hm, heq⟩ := hline l hl
      exact oneSpace_of_importLine (fun hsame => List.inj_on_of_nodup_map hkeys hm hl hsame)
        (hnul m hm) heq
    · intro hall
      have hentries : (lines newline content).map importLine =
          ls.map (fun l => (l.lowerKey, some l.value)) := by
        rw [hread]
        exact List.map_congr_left (fun l hl => importLine_of_oneSpace (hall l hl))
      have hnodup : ((ls.map (fun l => (l.lowerKey, some l.value))).map Prod.fst).Nodup := by
        rwa [List.map_map]
      intro key value
      rw [importTable_eq, hentries, kvhashLookup_insertAll_iff hnodup, List.mem_map]
      simp only [Prod.mk.injEq, eq_comm]

section Examples

theorem noSpace_of_all {t : Text} (h : t.all (fun c => !isspace c) = true) :
    ∀ c ∈ t, isspace c = false := by
  simpa only [List.all_eq_true, Bool.not_eq_true'] using h

theorem space_of_all {t : Text} (h : t.all (fun c => isspace c && c != newline) = true) :
    ∀ c ∈ t, isspace c = true ∧ c ≠ newline := by
  simpa only [List.all_eq_true, Bool.and_eq_true, bne_iff_ne] using h

theorem noSpace_head {t : Text} (h : t.head?.all (fun c => !isspace c) = true) :
    ∀ c ∈ t.head?, isspace c = false := by
  intro c hc
  rw [Option.mem_def.mp hc] at h
  simpa using h

def spacedLine : OptionLine :=
  ⟨text "Package", [space], text "jdk 7", text " \t", by decide, noSpace_of_all rfl,
    by decide, space_of_all rfl, by decide, noSpace_head rfl, by decide, by decide,
    space_of_all rfl⟩

def spacedEnv : Env :=
  { plainEnv with files := fun _ => some (text "Package jdk 7 \t\n") }

/-- A capital, a space within the value and white space at the end of the line. -/
theorem getImport_spaced : ∃ table m',
    (getImport spacedEnv (text "jdk")).run emptyStore Memory.fresh =
      ⟨.returned (some table), m', []⟩ ∧
    (Maps table [spacedLine] ↔ ∀ l ∈ [spacedLine], OneSpace l) :=
  getImport_iff spacedEnv (text "jdk") (text "Package jdk 7 \t\n") [spacedLine] rfl
    (Or.inl (by decide)) (by decide) emptyStore Memory.fresh (by decide)

def tabLine : OptionLine :=
  ⟨text "interpreter", text "\t", text "/bin/sh", [], by decide, noSpace_of_all rfl, by decide,
    space_of_all rfl, by decide, noSpace_head rfl, by decide, by decide, space_of_all rfl⟩

def tabFile : List Byte := text "interpreter\t/bin/sh\n"

/-- A tab after the key is as good as a space by the manual, but the key is not found. -/
theorem tab_not_understood : ConsistsOf newline tabFile ([tabLine].map OptionLine.bytes) ∧
    ((getImport { plainEnv with files := fun _ => some tabFile } (text "jdk")).run emptyStore
      Memory.fresh).outcome = .returned (some (importTable tabFile)) ∧
    kvhashLookup (importTable tabFile) (text "interpreter") = none ∧
    ¬ Maps (importTable tabFile) [tabLine] := by
  refine ⟨Or.inl (by decide), rfl, by decide +kernel, ?_⟩
  intro hmaps
  have hfound := (hmaps (text "interpreter") (some (text "/bin/sh"))).mpr
    ⟨tabLine, List.mem_cons_self, by decide, rfl⟩
  revert hfound
  decide +kernel

end Examples
end BinfmtSupport.FormatLines
