import BinfmtSupport.RoundTrip

/-!
Records of files that nobody wrote with this program, or an older one did. A file of six
lines is enough; the record has what its first nine lines say, without the white space at
their ends. So it has nothing left to lose: once it is written, it is read as it is.
-/
namespace BinfmtSupport.Reloading

open CText Format Journal Stores Actions Loading Installing Records RoundTrip

/-- A line without the white space at its end; a missing line says nothing. -/
def fieldAt (content : List Byte) (i : ℕ) : Text := trimRight ((lines newline content).getD i [])

section Fields
variable {content : List Byte}

theorem nulFree_line (hfree : NulFree content) {line : List Byte}
    (h : line ∈ lines newline content) : NulFree line := by
  intro h0
  apply hfree
  rw [← flatten_lines newline content]
  exact List.mem_flatten.mpr ⟨line, h, h0⟩

/-- Only the end of a line has its newline, and there it is trimmed. -/
theorem noNewline_line {line : List Byte} (h : line ∈ lines newline content) :
    NoNewline (trimRight line) := by
  obtain ⟨body, hbody, rfl | rfl⟩ := body_of_mem_lines h
  · exact fun hm => hbody (trimRight_mem hm)
  · rw [trimRight_newline]
    exact fun hm => hbody (trimRight_mem hm)

theorem fieldAt_cases (content : List Byte) (i : ℕ) : fieldAt content i = [] ∨
    ∃ line ∈ lines newline content, fieldAt content i = trimRight line := by
  by_cases hi : i < (lines newline content).length
  · right
    refine ⟨(lines newline content)[i], List.getElem_mem hi, ?_⟩
    simp [fieldAt, List.getD_eq_getElem?_getD, hi]
  · left
    simp [fieldAt, List.getD_eq_getElem?_getD, List.getElem?_eq_none (not_lt.mp hi), trimRight]

theorem nulFree_fieldAt (hfree : NulFree content) (i : ℕ) : NulFree (fieldAt content i) := by
  rcases fieldAt_cases content i with hnil | ⟨line, hline, heq⟩
  · rw [hnil]
    decide
  · rw [heq]
    exact fun h0 => nulFree_line hfree hline (trimRight_mem h0)

theorem noNewline_fieldAt (content : List Byte) (i : ℕ) : NoNewline (fieldAt content i) := by
  rcases fieldAt_cases content i with hnil | ⟨line, hline, heq⟩
  · rw [hnil]
    simp [NoNewline]
  · rw [heq]
    exact noNewline_line hline

/-- Six lines are read, and three more if they are there. -/
theorem fields_of_binfmtLoad (hfree : NulFree content)
    (hsix : 6 ≤ (lines newline content).length) : ∃ b, binfmtLoad content = .ok b ∧
      b.fields = (List.range 9).map (fun i => some (fieldAt content i)) := by
  have hcstr : ∀ i, fieldAt content i = cstr (trimRight ((lines newline content).getD i [])) :=
    fun i => (cstr_eq_self (nulFree_fieldAt hfree i)).symm
  refine ⟨⟨some (fieldAt content 0), fieldAt content 1, fieldAt content 2,
    some (fieldAt content 3), fieldAt content 4, some (fieldAt content 5),
    some (fieldAt content 6), some (fieldAt content 7), some (fieldAt content 8)⟩, ?_, rfl⟩
  simp only [hcstr]
  rcases hl : lines newline content with
    _ | ⟨package, _ | ⟨type, _ | ⟨offset, _ | ⟨magic, _ | ⟨mask, _ | ⟨interpreter, rest⟩⟩⟩⟩⟩⟩
  on_goal 7 =>
    simp only [binfmtLoad, hl]
    rcases rest with _ | ⟨detector, _ | ⟨credentials, _ | ⟨preserve, more⟩⟩⟩ <;> rfl
  all_goals
    rw [hl] at hsix
    simp at hsix

/-- Fewer lines than six are out of data. -/
theorem six_le_of_binfmtLoad {b : Binfmt} (h : binfmtLoad content = .ok b) :
    6 ≤ (lines newline content).length := by
  obtain ⟨-, _, _, _, _, _, _, rest, hlines, -⟩ := lines_of_binfmtLoad h
  rw [hlines]
  simp

/-- A loaded record is read back from its own file. -/
theorem binfmtLoad_contents_of_fields (hfree : NulFree content) {b : Binfmt}
    (hload : binfmtLoad content = .ok b)
    (hfields : b.fields = (List.range 9).map (fun i => some (fieldAt content i))) :
    binfmtLoad b.contents = .ok b := by
  have hall : ∀ field ∈ b.fields, ∃ i, field.getD [] = fieldAt content i := by
    intro field hfield
    rw [hfields] at hfield
    obtain ⟨i, -, rfl⟩ := List.mem_map.mp hfield
    exact ⟨i, rfl⟩
  have hlines : ∀ field ∈ b.fields, NoNewline (field.getD []) := by
    intro field hfield
    obtain ⟨i, hi⟩ := hall field hfield
    exact hi ▸ noNewline_fieldAt content i
  have hnul : ∀ field ∈ b.fields, NulFree (field.getD []) := by
    intro field hfield
    obtain ⟨i, hi⟩ := hall field hfield
    exact hi ▸ nulFree_fieldAt hfree i
  have hspace : ∀ field ∈ b.fields, NoTrailingSpace (field.getD []) := by
    intro field hfield
    obtain ⟨i, hi⟩ := hall field hfield
    exact hi ▸ noTrailingSpace_trimRight _
  rw [binfmtLoad_contents b hlines, (reread_eq_stored_iff b hnul).mpr hspace,
    (lines_of_binfmtLoad hload).1]

end Fields

/-- A file loads if it has six lines, its record is what the first nine say, and after one
rewrite, which works if its three calls do, the record stays the same. -/
theorem reloading (content : List Byte) (hfree : NulFree content) :
    ((binfmtLoad content).toOption.isSome = true ↔ 6 ≤ (lines newline content).length) ∧
    ∀ b, (binfmtLoad content).toOption = some b →
      b.fields = (List.range 9).map (fun i => some (fieldAt content i)) ∧
      ∀ env file s m, (((binfmtWrite env (some b) file).run s m).outcome = .returned true ↔
          ∀ i < 3, env.ok (m.clock + i) = true) ∧
        (((binfmtWrite env (some b) file).run s m).outcome = .returned true →
          (((binfmtWrite env (some b) file).run s m).state s).record file = some b) := by
  have hok : ∀ b, (binfmtLoad content).toOption = some b ↔ binfmtLoad content = .ok b := by
    intro b
    cases binfmtLoad content <;> simp [Except.toOption]
  constructor
  · rw [Option.isSome_iff_exists]
    constructor
    · rintro ⟨b, hb⟩
      exact six_le_of_binfmtLoad ((hok b).mp hb)
    · intro hsix
      obtain ⟨b, hload, -⟩ := fields_of_binfmtLoad hfree hsix
      exact ⟨b, (hok b).mpr hload⟩
  · intro b hb
    have hload := (hok b).mp hb
    obtain ⟨b', hload', hfields⟩ := fields_of_binfmtLoad hfree (six_le_of_binfmtLoad hload)
    rw [hload, Except.ok.injEq] at hload'
    subst hload'
    refine ⟨hfields, fun env file s m => ⟨binfmtWrite_works_iff env b file s m, fun hret => ?_⟩⟩
    rw [record_of_file (file_of_binfmtWrite env b file s m hret),
      binfmtLoad_contents_of_fields hfree hload hfields]
    rfl

def oldFile : List Byte := text "pkg \nmagic\n\nAB\n\n/bin/sh\t"

def oldRecord : Binfmt :=
  ⟨some (text "pkg"), text "magic", [], some (text "AB"), [], some (text "/bin/sh"), some [],
    some [], some []⟩

/-- A file of six lines with an empty offset, the last one without its newline. -/
theorem reloading_old : (binfmtLoad oldFile).toOption = some oldRecord ∧
    oldRecord.fields = (List.range 9).map (fun i => some (fieldAt oldFile i)) ∧
    (((binfmtWrite plainEnv (some oldRecord) (text "old")).run (busyStore [])
      Memory.fresh).state (busyStore [])).record (text "old") = some oldRecord := by
  obtain ⟨-, hrecord⟩ := reloading oldFile (by decide)
  have hold : (binfmtLoad oldFile).toOption = some oldRecord := by decide +kernel
  obtain ⟨hfields, hwrite⟩ := hrecord oldRecord hold
  obtain ⟨hworks, hsame⟩ := hwrite plainEnv (text "old") (busyStore []) Memory.fresh
  exact ⟨hold, hfields, hsame (hworks.mpr (fun _ _ => rfl))⟩

end BinfmtSupport.Reloading
