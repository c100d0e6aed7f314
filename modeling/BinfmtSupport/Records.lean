import BinfmtSupport.Format

/-!
What binfmt_new puts into a record, and what binfmt_load gets out of a file that
binfmt_write made or began to make. The writer keeps every byte of a field, the reader
drops white space at the end of a line, and the validator forbids newlines only.
-/
namespace BinfmtSupport.Records

open CText Kvhash Format

def NoNewline (t : Text) : Prop := newline ∉ t

instance (t : Text) : Decidable (NoNewline t) :=
  inferInstanceAs (Decidable (¬ newline ∈ t))

section New

theorem except_bind_eq_ok {ε α β : Type} (x : Except ε α) (f : α → Except ε β) (b : β) :
    (x >>= f) = .ok b ↔ ∃ a, x = .ok a ∧ f a = .ok b := by
  cases x with
  | error e =>
    constructor
    · intro h
      cases h
    · rintro ⟨a, h, -⟩
      cases h
  | ok a =>
    constructor
    · intro h
      exact ⟨a, rfl, h⟩
    · rintro ⟨a', h, hf⟩
      cases h
      exact hf

/-- SET_FIELD copies the argument and lets no newline through. -/
theorem setField_eq_ok (args : Arguments) (field : String) (v : Option Text) :
    setField args field = .ok v ↔
      v = argument args field ∧ ∀ t, argument args field = some t → NoNewline t := by
  unfold setField NoNewline
  cases argument args field with
  | none =>
    simp only [Except.ok.injEq, reduceCtorEq, false_implies, implies_true, and_true]
    exact eq_comm
  | some value =>
    by_cases h : newline ∈ value
    · simp [h]
    · simp only [h, if_false, Except.ok.injEq, Option.some.injEq, forall_eq', not_false_eq_true,
        and_true]
      exact eq_comm

def magicKey (type : Text) : String := if type = text "extension" then "extension" else "magic"

/-- What binfmt_new guarantees of an accepted record and its arguments. -/
structure Accepted (args : Arguments) (b : Binfmt) : Prop where
  package : b.package = argument args "package"
  type : resolveType args (argument args "type") (argument args "magic") = .ok b.type
  offset : b.offset = defaultOffset (argument args "offset")
  magic : b.magic = argument args (magicKey b.type)
  mask : b.mask = (argument args "mask").getD []
  interpreter : b.interpreter = argument args "interpreter"
  detector : b.detector = argument args "detector"
  credentials : b.credentials = argument args "credentials"
  preserve : b.preserve = argument args "preserve"
  bare : b.type = text "extension" →
    argument args "mask" = none ∧ argument args "offset" = none
  noNewline : ∀ key ∈ ["package", "type", "offset", magicKey b.type, "mask", "interpreter",
    "detector", "credentials", "preserve"], ∀ t, argument args key = some t → NoNewline t

theorem accepted_of_binfmtNew {args : Arguments} {b : Binfmt}
    (h : binfmtNew args = .ok (.ok b)) : Accepted args b := by
  simp only [binfmtNew, except_bind_eq_ok, setField_eq_ok] at h
  obtain ⟨_, ⟨rfl, hpackage⟩, _, ⟨rfl, htype⟩, _, ⟨rfl, hoffset⟩, _, ⟨rfl, hmagic⟩, _,
    ⟨rfl, hmask⟩, _, ⟨rfl, hinterp⟩, _, ⟨rfl, hdet⟩, _, ⟨rfl, hcred⟩, _, ⟨rfl, hpres⟩, h⟩ := h
  split at h
  · cases h
  · rename_i type hresolve
    split at h
    · rename_i hext
      simp only [except_bind_eq_ok, setField_eq_ok] at h
      obtain ⟨_, ⟨rfl, hextension⟩, h⟩ := h
      split at h
      · cases h
      · rename_i hnomask
        split at h
        · cases h
        · rename_i hnooffset
          have hm : argument args "mask" = none := by simpa using hnomask
          have ho : argument args "offset" = none := by simpa using hnooffset
          have hkey : magicKey type = "extension" := if_pos hext
          cases h
          refine ⟨rfl, hresolve, rfl, ?_, ?_, rfl, rfl, rfl, rfl, fun _ => ⟨hm, ho⟩, ?_⟩
          · rw [hkey]
          · rw [hm]
            rfl
          · rw [hkey]
            simp only [List.mem_cons, List.not_mem_nil, or_false, forall_eq_or_imp, forall_eq]
            exact ⟨hpackage, htype, hoffset, hextension, hmask, hinterp, hdet, hcred, hpres⟩
    · rename_i hext
      have hkey : magicKey type = "magic" := if_neg hext
      cases h
      refine ⟨rfl, hresolve, rfl, ?_, rfl, rfl, rfl, rfl, rfl, fun h => absurd h hext, ?_⟩
      · rw [hkey]
      · rw [hkey]
        simp only [List.mem_cons, List.not_mem_nil, or_false, forall_eq_or_imp, forall_eq]
        exact ⟨hpackage, htype, hoffset, hmagic, hmask, hinterp, hdet, hcred, hpres⟩

/-- The type is the one that was given, or one of the two that are implied. -/
theorem Accepted.type_cases {args : Arguments} {b : Binfmt} (h : Accepted args b) :
    argument args "type" = some b.type ∨
      argument args "type" = none ∧ (b.type = text "magic" ∨ b.type = text "extension") := by
  have ht := h.type
  unfold resolveType at ht
  split at ht
  · rename_i type htype
    cases ht
    exact Or.inl htype
  · rename_i htype
    right
    refine ⟨htype, ?_⟩
    split at ht
    · cases ht
    · exact Or.inl (Except.ok.inj ht).symm
    · exact Or.inr (Except.ok.inj ht).symm
    · cases ht

theorem Accepted.type_noNewline {args : Arguments} {b : Binfmt} (h : Accepted args b) :
    NoNewline b.type := by
  rcases h.type_cases with htype | ⟨-, htype | htype⟩
  · exact h.noNewline "type" (by simp) _ htype
  · rw [htype]
    decide
  · rw [htype]
    decide

theorem defaultOffset_cases (offset : Option Text) :
    defaultOffset offset = text "0" ∨ offset = some (defaultOffset offset) := by
  unfold defaultOffset
  split
  · exact Or.inl rfl
  · exact Or.inl rfl
  · exact Or.inr rfl

theorem defaultOffset_ne (offset : Option Text) : defaultOffset offset ≠ [] := by
  unfold defaultOffset
  split
  · decide
  · decide
  · rename_i h
    intro hnil
    exact h (by rw [hnil])

/-- No field of an accepted record has a newline, so that each stays on its line. -/
theorem Accepted.fields_noNewline {args : Arguments} {b : Binfmt} (h : Accepted args b) :
    ∀ field ∈ b.fields, NoNewline (field.getD []) := by
  have hnil : NoNewline [] := by simp [NoNewline]
  have hopt : ∀ key, key ∈ ["package", "type", "offset", magicKey b.type, "mask",
      "interpreter", "detector", "credentials", "preserve"] →
      NoNewline ((argument args key).getD []) := by
    intro key hkey
    cases ha : argument args key with
    | none => exact hnil
    | some t => exact h.noNewline key hkey t ha
  simp only [Binfmt.fields, List.mem_cons, List.not_mem_nil, or_false, forall_eq_or_imp,
    forall_eq, Option.getD_some]
  refine ⟨?_, h.type_noNewline, ?_, ?_, ?_, ?_, ?_, ?_, ?_⟩
  · rw [h.package]
    exact hopt _ (by simp)
  · rw [h.offset]
    rcases defaultOffset_cases (argument args "offset") with h0 | ho
    · rw [h0]
      decide
    · exact h.noNewline "offset" (by simp) _ ho
  · rw [h.magic]
    exact hopt _ (by simp)
  · rw [h.mask]
    exact hopt _ (by simp)
  · rw [h.interpreter]
    exact hopt _ (by simp)
  · rw [h.detector]
    exact hopt _ (by simp)
  · rw [h.credentials]
    exact hopt _ (by simp)
  · rw [h.preserve]
    exact hopt _ (by simp)

end New

section Contents

def readBack (field : Text) : Text := cstr (trimRight field)

theorem cstr_trimRight_newline (field : Text) :
    cstr (trimRight (field ++ [newline])) = readBack field := by
  rw [trimRight_newline, readBack]

/-- A record as it is read back from its own file. -/
def reread (b : Binfmt) : Binfmt where
  package := some (readBack (b.package.getD []))
  type := readBack b.type
  offset := readBack b.offset
  magic := some (readBack (b.magic.getD []))
  mask := readBack b.mask
  interpreter := some (readBack (b.interpreter.getD []))
  detector := some (readBack (b.detector.getD []))
  credentials := some (readBack (b.credentials.getD []))
  preserve := some (readBack (b.preserve.getD []))

/-- A record with every absent field made empty, as a file shows it. -/
def stored (b : Binfmt) : Binfmt where
  package := some (b.package.getD [])
  type := b.type
  offset := b.offset
  magic := some (b.magic.getD [])
  mask := b.mask
  interpreter := some (b.interpreter.getD [])
  detector := some (b.detector.getD [])
  credentials := some (b.credentials.getD [])
  preserve := some (b.preserve.getD [])

/-- Written fields come back as lines, one for each, if none has a newline. -/
theorem lines_writeField_append (fields : List (Option Text)) (rest : List Byte)
    (h : ∀ field ∈ fields, NoNewline (field.getD [])) :
    lines newline (fields.flatMap writeField ++ rest) =
      fields.map writeField ++ lines newline rest := by
  induction fields with
  | nil => rfl
  | cons field more ih =>
    have hmore := ih (fun f hf => h f (List.mem_cons_of_mem field hf))
    have hfirst := lines_terminated newline (field.getD [])
      (more.flatMap writeField ++ rest) (h field List.mem_cons_self)
    simp only [List.flatMap_cons, List.map_cons, writeField, List.append_assoc,
      List.cons_append, List.nil_append] at *
    rw [hfirst, hmore]

theorem lines_flatMap_writeField (fields : List (Option Text))
    (h : ∀ field ∈ fields, NoNewline (field.getD [])) :
    lines newline (fields.flatMap writeField) = fields.map writeField := by
  have hlines := lines_writeField_append fields [] h
  rwa [List.append_nil, lines, List.append_nil] at hlines

theorem binfmtLoad_of_lines {content : List Byte} {package type offset magic mask interpreter
    detector credentials preserve : List Byte} (h : lines newline content =
      [package, type, offset, magic, mask, interpreter, detector, credentials, preserve]) :
    binfmtLoad content = .ok ⟨some (cstr (trimRight package)), cstr (trimRight type),
      cstr (trimRight offset), some (cstr (trimRight magic)), cstr (trimRight mask),
      some (cstr (trimRight interpreter)), some (cstr (trimRight detector)),
      some (cstr (trimRight credentials)), some (cstr (trimRight preserve))⟩ := by
  simp only [binfmtLoad, h]
  rfl

/-- A mandatory line is there, and its text is what the field gets. -/
theorem readLine_eq_ok {field : String} {ls rest : List (List Byte)} {t : Text}
    (h : readLine field false ls = .ok (t, rest)) :
    ∃ line, ls = line :: rest ∧ t = cstr (trimRight line) := by
  cases ls with
  | nil => cases h
  | cons line more =>
    cases h
    exact ⟨line, rfl, rfl⟩

/-- A file that loads has six lines at least, and the record has no absent field. -/
theorem lines_of_binfmtLoad {content : List Byte} {b : Binfmt}
    (h : binfmtLoad content = .ok b) : stored b = b ∧
    ∃ package type offset magic mask interpreter rest, lines newline content =
        package :: type :: offset :: magic :: mask :: interpreter :: rest ∧
      b.package = some (cstr (trimRight package)) ∧ b.type = cstr (trimRight type) ∧
      b.offset = cstr (trimRight offset) ∧ b.magic = some (cstr (trimRight magic)) ∧
      b.mask = cstr (trimRight mask) ∧ b.interpreter = some (cstr (trimRight interpreter)) := by
  simp only [binfmtLoad, except_bind_eq_ok] at h
  obtain ⟨⟨p, r₁⟩, h₁, ⟨t, r₂⟩, h₂, ⟨o, r₃⟩, h₃, ⟨g, r₄⟩, h₄, ⟨k, r₅⟩, h₅, ⟨i, r₆⟩, h₆, ⟨d, r₇⟩,
    h₇, ⟨c, r₈⟩, h₈, ⟨v, r₉⟩, h₉, h⟩ := h
  cases h
  refine ⟨rfl, ?_⟩
  obtain ⟨package, hl₁, rfl⟩ := readLine_eq_ok h₁
  obtain ⟨type, rfl, rfl⟩ := readLine_eq_ok h₂
  obtain ⟨offset, rfl, rfl⟩ := readLine_eq_ok h₃
  obtain ⟨magic, rfl, rfl⟩ := readLine_eq_ok h₄
  obtain ⟨mask, rfl, rfl⟩ := readLine_eq_ok h₅
  obtain ⟨interpreter, rfl, rfl⟩ := readLine_eq_ok h₆
  exact ⟨package, type, offset, magic, mask, interpreter, r₆, hl₁, rfl, rfl, rfl, rfl, rfl, rfl⟩

/-- A file that was written completely always loads, with its fields trimmed. -/
theorem binfmtLoad_contents (b : Binfmt) (h : ∀ field ∈ b.fields, NoNewline (field.getD [])) :
    binfmtLoad b.contents = .ok (reread b) := by
  have hlines := lines_flatMap_writeField b.fields h
  simp only [Binfmt.fields, List.map_cons, List.map_nil, writeField, Option.getD_some] at hlines
  have hload := binfmtLoad_of_lines hlines
  simp only [cstr_trimRight_newline] at hload
  exact hload

/-- The first line of a file that is cut within or after it. -/
theorem lines_take_writeField (field : Option Text) (rest : List Byte) (k : ℕ) (hk : 0 < k)
    (h : NoNewline (field.getD [])) : ∃ line more t,
      lines newline ((writeField field ++ rest).take k) = line :: more ∧
        t <+: field.getD [] ∧ (field.getD [] ≠ [] → t ≠ []) ∧
        cstr (trimRight line) = readBack t := by
  by_cases hlen : k ≤ (field.getD []).length
  · have hcut : (writeField field ++ rest).take k = (field.getD []).take k := by
      rw [writeField, List.append_assoc, List.take_append_of_le_length hlen]
    have hne : (field.getD []).take k ≠ [] := by
      intro hnil
      have hzero := congrArg List.length hnil
      simp only [List.length_take, List.length_nil] at hzero
      omega
    have hfree : newline ∉ (field.getD []).take k := fun hm => h (List.mem_of_mem_take hm)
    refine ⟨(field.getD []).take k, [], (field.getD []).take k, ?_, ?_, fun _ => hne, rfl⟩
    · rw [hcut, lines_unterminated newline _ hfree hne]
    · exact List.take_prefix k _
  · have hwhole : (writeField field).length ≤ k := by
      simp only [writeField, List.length_append, List.length_singleton]
      omega
    refine ⟨writeField field, lines newline (rest.take (k - (writeField field).length)),
      field.getD [], ?_, List.prefix_rfl, id, cstr_trimRight_newline _⟩
    rw [List.take_append, List.take_of_length_le hwhole]
    simp only [writeField, List.append_assoc, List.cons_append, List.nil_append]
    exact lines_terminated newline _ _ h

/-- A file that was cut short and still loads has its first five fields, and at least the
beginning of the sixth. -/
theorem binfmtLoad_take_contents (b r : Binfmt) (k : ℕ)
    (h : ∀ field ∈ b.fields, NoNewline (field.getD []))
    (hload : binfmtLoad (b.contents.take k) = .ok r) :
    (r.package = (reread b).package ∧ r.type = (reread b).type ∧
      r.offset = (reread b).offset ∧ r.magic = (reread b).magic ∧
      r.mask = (reread b).mask) ∧
    ∃ t, t <+: b.interpreter.getD [] ∧ (b.interpreter.getD [] ≠ [] → t ≠ []) ∧
      r.interpreter = some (readBack t) := by
  have hfirst : ∀ field ∈ b.fields.take 5, NoNewline (field.getD []) :=
    fun field hf => h field (List.mem_of_mem_take hf)
  have hsplit : b.contents = (b.fields.take 5).flatMap writeField ++
      (writeField b.interpreter ++ (b.fields.drop 6).flatMap writeField) := by
    rw [← List.flatMap_cons, ← List.flatMap_append]
    rfl
  obtain ⟨-, l₁, l₂, l₃, l₄, l₅, l₆, rest, hlines, h₁, h₂, h₃, h₄, h₅, h₆⟩ :=
    lines_of_binfmtLoad hload
  rw [hsplit, List.take_append] at hlines
  by_cases hk : k ≤ ((b.fields.take 5).flatMap writeField).length
  · have hshort := length_lines_take_le newline ((b.fields.take 5).flatMap writeField) k
    rw [Nat.sub_eq_zero_of_le hk, List.take_zero, List.append_nil] at hlines
    rw [hlines, lines_flatMap_writeField _ hfirst] at hshort
    simp only [Binfmt.fields, List.take_succ_cons, List.take_zero, List.map_cons, List.map_nil,
      List.length_cons, List.length_nil] at hshort
    omega
  · obtain ⟨line, more, t, hsixth, hbegin, hne, hread⟩ := lines_take_writeField b.interpreter
      ((b.fields.drop 6).flatMap writeField)
      (k - ((b.fields.take 5).flatMap writeField).length) (by omega)
      (h b.interpreter (by simp [Binfmt.fields]))
    rw [List.take_of_length_le (by omega), lines_writeField_append _ _ hfirst, hsixth] at hlines
    simp only [Binfmt.fields, List.take_succ_cons, List.take_zero, List.map_cons, List.map_nil,
      List.cons_append, List.nil_append, List.cons.injEq, writeField, Option.getD_some] at hlines
    obtain ⟨rfl, rfl, rfl, rfl, rfl, rfl, -⟩ := hlines
    simp only [cstr_trimRight_newline] at h₁ h₂ h₃ h₄ h₅
    rw [hread] at h₆
    exact ⟨⟨h₁, h₂, h₃, h₄, h₅⟩, t, hbegin, hne, h₆⟩

theorem readBack_eq_self_iff {field : Text} (h : NulFree field) :
    readBack field = field ↔ NoTrailingSpace field := by
  have hfree : NulFree (trimRight field) := fun h0 => h (trimRight_mem h0)
  rw [readBack, cstr_eq_self hfree, trimRight_eq_self_iff]

/-- The reader gives back what was written exactly when no field ends in white space. -/
theorem reread_eq_stored_iff (b : Binfmt) (h : ∀ field ∈ b.fields, NulFree (field.getD [])) :
    reread b = stored b ↔ ∀ field ∈ b.fields, NoTrailingSpace (field.getD []) := by
  simp only [Binfmt.fields, List.mem_cons, List.not_mem_nil, or_false, forall_eq_or_imp,
    forall_eq, Option.getD_some] at h ⊢
  obtain ⟨h₁, h₂, h₃, h₄, h₅, h₆, h₇, h₈, h₉⟩ := h
  simp only [reread, stored, Binfmt.mk.injEq, Option.some.injEq,
    readBack_eq_self_iff h₁, readBack_eq_self_iff h₂, readBack_eq_self_iff h₃,
    readBack_eq_self_iff h₄, readBack_eq_self_iff h₅, readBack_eq_self_iff h₆,
    readBack_eq_self_iff h₇, readBack_eq_self_iff h₈, readBack_eq_self_iff h₉]

end Contents
end BinfmtSupport.Records
