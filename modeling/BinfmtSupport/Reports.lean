import Mathlib.Data.List.TakeWhile

/-!
Reports in lines. A printer writes a value at the front of a text and a reader takes it off
again; what reads back after anything that follows can be written many times in a row. The
lines of a report have a label, a text without terminator, and a terminator.
Nothing here depends on what is reported or on the characters.
-/
namespace BinfmtSupport.Reports

variable {α β γ : Type*}

section Readers
variable {P : β → Prop} {print : β → List α} {read : List α → Option (β × List α)}

/-- The reader takes off what was printed of a value with P, whatever follows. -/
def ReadsBack (P : β → Prop) (print : β → List α) (read : List α → Option (β × List α)) : Prop :=
  ∀ b, P b → ∀ rest, read (print b ++ rest) = some (b, rest)

def readAs (decode : β → Option γ) (read : List α → Option (β × List α)) (t : List α) :
    Option (γ × List α) :=
  (read t).bind (fun x => (decode x.1).map (fun c => (c, x.2)))

theorem readAs_eq {decode : β → Option γ} {t rest : List α} {b : β} {c : γ}
    (h : read t = some (b, rest)) (hb : decode b = some c) :
    readAs decode read t = some (c, rest) := by
  rw [readAs, h, Option.bind_some, hb, Option.map_some]

theorem ReadsBack.readAs {Q : γ → Prop} {encode : γ → β} {decode : β → Option γ}
    (h : ReadsBack P print read) (hQ : ∀ c, Q c → P (encode c) ∧ decode (encode c) = some c) :
    ReadsBack Q (fun c => print (encode c)) (Reports.readAs decode read) := by
  intro c hc rest
  obtain ⟨hP, hdecode⟩ := hQ c hc
  exact readAs_eq (h _ hP rest) hdecode

def readFrom (read : List α → Option (β × List α)) : ℕ → List α → Option (List β)
  | _, [] => some []
  | 0, _ :: _ => none
  | fuel + 1, t => (read t).bind (fun x => (readFrom read fuel x.2).map (fun bs => x.1 :: bs))

def readAll (read : List α → Option (β × List α)) (t : List α) : Option (List β) :=
  readFrom read t.length t

def readTagged {τ : Type*} (tag : List α → Option (τ × List α))
    (body : τ → List α → Option (β × List α)) (t : List α) : Option (β × List α) :=
  (tag t).bind (fun x => body x.1 x.2)

theorem ReadsBack.tagged {τ : Type*} {T : τ → Prop} {printTag : τ → List α}
    {tag : List α → Option (τ × List α)} (h : ReadsBack T printTag tag) {tagOf : β → τ}
    {printBody : β → List α} {body : τ → List α → Option (β × List α)}
    (hP : ∀ b, P b → T (tagOf b) ∧
      ∀ rest, body (tagOf b) (printBody b ++ rest) = some (b, rest)) :
    ReadsBack P (fun b => printTag (tagOf b) ++ printBody b) (readTagged tag body) := by
  intro b hb rest
  obtain ⟨hT, hbody⟩ := hP b hb
  rw [List.append_assoc, readTagged, h _ hT, Option.bind_some, hbody]

/-- Reports that follow each other are taken off one by one. -/
theorem ReadsBack.readFrom (h : ReadsBack P print read) (hne : ∀ b, P b → print b ≠ [])
    {bs : List β} (hbs : ∀ b ∈ bs, P b) {t : List α} {cs : List β}
    (hend : ∀ fuel, t.length ≤ fuel → Reports.readFrom read fuel t = some cs)
    {fuel : ℕ} (hfuel : (bs.flatMap print ++ t).length ≤ fuel) :
    Reports.readFrom read fuel (bs.flatMap print ++ t) = some (bs ++ cs) := by
  induction bs generalizing fuel with
  | nil => exact hend fuel hfuel
  | cons b rest ih =>
    have hb := hbs b List.mem_cons_self
    have hpos := List.length_pos_iff.mpr (hne b hb)
    rw [List.flatMap_cons, List.append_assoc, List.length_append] at hfuel
    cases fuel with
    | zero => omega
    | succ fuel =>
      have hlength : (rest.flatMap print ++ t).length ≤ fuel := by omega
      have hrest := ih (fun c hc => hbs c (List.mem_cons_of_mem b hc)) hlength
      rw [List.flatMap_cons, List.append_assoc]
      cases ht : print b ++ (rest.flatMap print ++ t) with
      | nil => exact absurd (List.append_eq_nil_iff.mp ht).1 (hne b hb)
      | cons c more =>
        rw [Reports.readFrom, ← ht, h b hb, Option.bind_some, hrest, Option.map_some]
        · rfl
        · exact List.cons_ne_nil c more

theorem ReadsBack.readAll (h : ReadsBack P print read) (hne : ∀ b, P b → print b ≠ [])
    {bs : List β} (hbs : ∀ b ∈ bs, P b) : Reports.readAll read (bs.flatMap print) = some bs := by
  have hnil : ∀ fuel, ([] : List α).length ≤ fuel →
      Reports.readFrom read fuel [] = some [] := fun fuel _ => by cases fuel <;> rfl
  have hread := h.readFrom hne hbs hnil le_rfl
  rwa [List.append_nil, List.append_nil] at hread

/-- The last report may be one that is read only where nothing follows. -/
theorem ReadsBack.readAll_last (h : ReadsBack P print read) (hne : ∀ b, P b → print b ≠ [])
    {bs : List β} (hbs : ∀ b ∈ bs, P b) {t : List α} (ht : t ≠ []) {c : β}
    (hc : read t = some (c, [])) :
    Reports.readAll read (bs.flatMap print ++ t) = some (bs ++ [c]) := by
  refine h.readFrom hne hbs (fun fuel hfuel => ?_) le_rfl
  obtain ⟨x, more, rfl⟩ := List.exists_cons_of_ne_nil ht
  cases fuel with
  | zero => cases hfuel
  | succ fuel =>
    rw [Reports.readFrom, hc, Option.bind_some]
    · cases fuel <;> rfl
    · exact List.cons_ne_nil x more

end Readers

section Printing

def line (stop : α) (label value : List α) : List α := label ++ value ++ [stop]

def printLines (stop : α) (labels values : List (List α)) : List α :=
  (List.zipWith (line stop) labels values).flatten

theorem printLines_nil (stop : α) : printLines stop [] [] = [] := rfl

theorem printLines_cons (stop : α) (label value : List α) (labels values : List (List α)) :
    printLines stop (label :: labels) (value :: values) =
      label ++ value ++ stop :: printLines stop labels values := by
  simp [printLines, line]

/-- Lines joined by the terminator, with an empty one at the end, are terminated. -/
theorem intercalate_terminated (stop : α) (lines : List (List α)) :
    [stop].intercalate (lines ++ [[]]) = lines.flatMap (fun l => l ++ [stop]) := by
  induction lines with
  | nil => rfl
  | cons l lines ih =>
    rw [List.flatMap_cons, ← ih]
    cases lines with
    | nil => simp [List.intercalate]
    | cons l' lines => simp [List.intercalate]

end Printing

section Taking
variable [DecidableEq α]

/-- The value of the first line, if it has the label and is terminated. -/
def takeLine (stop : α) (label t : List α) : Option (List α × List α) :=
  if label <+: t then
    match (t.drop label.length).dropWhile (fun c => c ≠ stop) with
    | [] => none
    | _ :: rest => some ((t.drop label.length).takeWhile (fun c => c ≠ stop), rest)
  else none

theorem readsBack_line (stop : α) (label : List α) :
    ReadsBack (fun value => stop ∉ value) (line stop label) (takeLine stop label) := by
  intro value hfree rest
  have hall : ∀ c ∈ value, decide (c ≠ stop) = true := by
    intro c hc
    rw [decide_eq_true_eq]
    intro heq
    exact hfree (heq ▸ hc)
  have htext : line stop label value ++ rest = label ++ (value ++ stop :: rest) := by
    simp [line]
  rw [htext, takeLine, if_pos (List.prefix_append label _), List.drop_left,
    List.dropWhile_append_of_pos hall, List.takeWhile_append_of_pos hall,
    List.dropWhile_cons_of_neg (by simp), List.takeWhile_cons_of_neg (by simp), List.append_nil]

def takeLines (stop : α) : List (List α) → List α → Option (List (List α) × List α)
  | [], t => some ([], t)
  | label :: labels, t =>
      (takeLine stop label t).bind (fun x =>
        (takeLines stop labels x.2).map (fun y => (x.1 :: y.1, y.2)))

theorem readsBack_lines (stop : α) (labels : List (List α)) :
    ReadsBack (fun values => values.length = labels.length ∧ ∀ value ∈ values, stop ∉ value)
      (printLines stop labels) (takeLines stop labels) := by
  intro values hvalues rest
  obtain ⟨hlength, hfree⟩ := hvalues
  induction labels generalizing values with
  | nil =>
    rw [List.length_nil, List.length_eq_zero_iff] at hlength
    rw [hlength]
    rfl
  | cons label labels ih =>
    cases values with
    | nil => cases hlength
    | cons value values =>
      have hrest := ih values (Nat.succ.inj hlength)
        (fun v hv => hfree v (List.mem_cons_of_mem value hv))
      have hline := readsBack_line stop label value (hfree value List.mem_cons_self)
      have hsplit : printLines stop (label :: labels) (value :: values) =
          line stop label value ++ printLines stop labels values := rfl
      rw [hsplit, List.append_assoc, takeLines, hline, Option.bind_some, hrest, Option.map_some]

end Taking
end BinfmtSupport.Reports
