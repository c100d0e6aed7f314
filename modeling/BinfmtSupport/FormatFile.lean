import BinfmtSupport.Records
import BinfmtSupport.CommandLine

/-!
One description of a format, written down in two ways: as lines of a format file, which
--import reads, and as options of --install. The file has no line for the type and trims
its lines; the options come with a type and are copied. Both tables lead binfmt_new to the
same result, in whatever order the lines and the options stand.
-/
namespace BinfmtSupport.FormatFile

open CText Kvhash Format Journal Stores Actions CommandLine Records

/-- A text that stands on a line after its key. White space at its beginning would do no
harm. -/
structure Value where
  bytes : Text
  nonempty : bytes ≠ []
  noNewline : NoNewline bytes
  nulFree : NulFree bytes
  trimmed : NoTrailingSpace bytes

/-- The pattern is the magic or the extension, whichever the type is. -/
structure Description where
  package : Value
  interpreter : Value
  type : SpecType
  pattern : Value
  mask : Option Value
  offset : Option Value
  detector : Option Value
  credentials : Option Value
  preserve : Option Value
  digits : ∀ v ∈ offset, isWholeNumber v.bytes = true

namespace Description
variable (d : Description)

def magic : Option Value :=
  match d.type with
  | .magic => some d.pattern
  | .extension => none

def extension : Option Value :=
  match d.type with
  | .magic => none
  | .extension => some d.pattern

def typeName : Text :=
  match d.type with
  | .magic => text "magic"
  | .extension => text "extension"

def values : List (String × Option Value) :=
  [("package", some d.package), ("magic", d.magic), ("mask", d.mask), ("offset", d.offset),
    ("extension", d.extension), ("interpreter", some d.interpreter), ("detector", d.detector),
    ("credentials", d.credentials), ("preserve", d.preserve)]

def members (type : Option Text) : List (String × Option Text) :=
  ("type", type) :: d.values.map (fun member => (member.1, member.2.map Value.bytes))

def typeOption : Opt :=
  match d.type with
  | .magic => .magic d.pattern.bytes
  | .extension => .extension d.pattern.bytes

def options (name : Text) : List Opt :=
  [some (.package d.package.bytes), some (.mode .install [name, d.interpreter.bytes]),
    some d.typeOption, d.mask.map (fun v => .mask v.bytes),
    d.offset.map (fun v => .offset v.bytes), d.detector.map (fun v => .detector v.bytes),
    d.credentials.map (fun v => .credentials v.bytes),
    d.preserve.map (fun v => .preserve v.bytes)].filterMap id

def parsed (name : Text) : Options :=
  ⟨some .install, some d.type, some name, none, some d.package.bytes,
    d.magic.map Value.bytes, d.mask.map Value.bytes, d.offset.map Value.bytes,
    d.extension.map Value.bytes, some d.interpreter.bytes, d.detector.map Value.bytes,
    d.credentials.map Value.bytes, d.preserve.map Value.bytes, false⟩

def result : Except Rejection Binfmt :=
  if d.type = .extension ∧ d.mask.isSome = true then .error .maskWithExtension
  else if d.type = .extension ∧ d.offset.isSome = true then .error .offsetWithExtension
  else .ok ⟨some d.package.bytes, d.typeName, defaultOffset (d.offset.map Value.bytes),
    some d.pattern.bytes, (d.mask.map Value.bytes).getD [], some d.interpreter.bytes,
    d.detector.map Value.bytes, d.credentials.map Value.bytes, d.preserve.map Value.bytes⟩

end Description

section Members
variable {d : Description}

theorem members_keys (type : Option Text) :
    ((d.members type).map (fun member => text member.1)).Nodup := by
  simp only [Description.members, Description.values, List.map_cons, List.map_nil]
  decide

theorem plain_key {type : Option Text} {member : String × Option Text}
    (h : member ∈ d.members type) :
    (0 : Byte) ∉ text member.1 ∧ space ∉ text member.1 ∧ newline ∉ text member.1 := by
  have hall : ∀ key ∈ (d.members type).map (fun member => text member.1),
      (0 : Byte) ∉ key ∧ space ∉ key ∧ newline ∉ key := by
    simp only [Description.members, Description.values, List.map_cons, List.map_nil]
    decide
  exact hall _ (List.mem_map.mpr ⟨member, h, rfl⟩)

/-- Everything that a format file gives is a value. -/
theorem value_of_member {key : String} {v : Text} (h : (key, some v) ∈ d.members none) :
    ∃ w : Value, w.bytes = v := by
  rcases List.mem_cons.mp h with heq | hmem
  · cases heq
  · obtain ⟨member, -, heq⟩ := List.mem_map.mp hmem
    cases hvalue : member.2 with
    | none =>
      rw [hvalue] at heq
      cases heq
    | some w =>
      rw [hvalue] at heq
      cases heq
      exact ⟨w, rfl⟩

theorem setField_of_argument {args : Arguments} {field : String} {value : Option Text}
    (h : argument args field = value) (hfree : ∀ v ∈ value, NoNewline v) :
    setField args field = .ok value := by
  rw [setField, h]
  cases value with
  | none => rfl
  | some v => simp [show newline ∉ v from hfree v rfl]

/-- A table that shows the members gives the result, whether it has the type or not. -/
theorem binfmtNew_of_members {args : Arguments} {type : Option Text}
    (htype : type = some d.typeName ∨
      type = none ∧ kvhashExists args (text "extension") = d.extension.isSome)
    (h : ∀ key value, (key, value) ∈ d.members type → argument args key = value) :
    binfmtNew args = .ok d.result := by
  have hfield : ∀ (key : String) (value : Option Value), (key, value) ∈ d.values →
      setField args key = .ok (value.map Value.bytes) := by
    intro key value hmem
    refine setField_of_argument (h key _ ?_) ?_
    · exact List.mem_cons_of_mem _ (List.mem_map.mpr ⟨(key, value), hmem, rfl⟩)
    · intro v hv
      obtain ⟨w, -, rfl⟩ := Option.map_eq_some_iff.mp hv
      exact w.noNewline
  have hgiven : setField args "type" = .ok type := by
    refine setField_of_argument (h "type" type List.mem_cons_self) ?_
    intro v hv
    rcases htype with rfl | ⟨rfl, -⟩
    · cases hv
      unfold Description.typeName
      cases d.type <;> decide
    · cases hv
  have hresolved : resolveType args type (d.magic.map Value.bytes) = .ok d.typeName := by
    rcases htype with rfl | ⟨rfl, hext⟩
    · rfl
    · unfold Description.magic Description.typeName
      unfold Description.extension at hext
      cases htype : d.type with
      | magic =>
        rw [htype] at hext
        simp only [resolveType.eq_def, hext]
        rfl
      | extension =>
        rw [htype] at hext
        simp only [resolveType.eq_def, hext]
        rfl
  have hpackage := hfield "package" (some d.package) (by simp [Description.values])
  have hoffset := hfield "offset" d.offset (by simp [Description.values])
  have hmagic := hfield "magic" d.magic (by simp [Description.values])
  have hmask := hfield "mask" d.mask (by simp [Description.values])
  have hinterpreter := hfield "interpreter" (some d.interpreter) (by simp [Description.values])
  have hdetector := hfield "detector" d.detector (by simp [Description.values])
  have hcredentials := hfield "credentials" d.credentials (by simp [Description.values])
  have hpreserve := hfield "preserve" d.preserve (by simp [Description.values])
  have hextension := hfield "extension" d.extension (by simp [Description.values])
  simp only [binfmtNew, hpackage, hgiven, hoffset, hmagic, hmask, hinterpreter, hdetector,
    hcredentials, hpreserve, hextension, bind, Except.bind, hresolved]
  unfold Description.result Description.magic Description.extension Description.typeName
  cases d.type with
  | magic => rfl
  | extension => cases d.mask <;> cases d.offset <;> rfl

end Members

section Lines

def fileLine (entry : Text × Text) : List Byte := entry.1 ++ space :: entry.2

def lowered (entry : Text × Text) : Text × Option Text := (entry.1.map tolower, some entry.2)

def HasLines (content : List Byte) (entries : List (Text × Text)) : Prop :=
  content = entries.flatMap (fun entry => fileLine entry ++ [newline]) ∨
  content ++ [newline] = entries.flatMap (fun entry => fileLine entry ++ [newline])

/-- A format file lists a description: every member that is given has its line, in any
order and with the key in any letter case. -/
def Lists (content : List Byte) (d : Description) : Prop :=
  ∃ entries, HasLines content entries ∧ (entries.map lowered).Perm (given (d.members none))

theorem importLine_newline (line : List Byte) :
    importLine (line ++ [newline]) = importLine line := by
  rw [importLine, importLine, trimRight_newline]

theorem importLine_fileLine {entry : Text × Text} (hnul : NulFree entry.1)
    (hspace : space ∉ entry.1) {v : Value} (hv : v.bytes = entry.2) :
    importLine (fileLine entry) = lowered entry := by
  have htrim : trimRight (fileLine entry) = fileLine entry := by
    rw [trimRight_eq_self_iff, NoTrailingSpace, fileLine,
      List.getLast?_append_of_ne_nil _ (List.cons_ne_nil _ _)]
    have hne : entry.2 ≠ [] := hv ▸ v.nonempty
    rw [List.getLast?_cons_of_ne_nil hne, ← hv]
    exact v.trimmed
  have hfree : NulFree (fileLine entry) := by
    intro hmem
    rcases List.mem_append.mp hmem with hkey | hrest
    · exact hnul hkey
    · rcases List.mem_cons.mp hrest with hzero | hvalue
      · cases hzero
      · exact v.nulFree (hv ▸ hvalue)
  have hkey : ∀ c ∈ entry.1, (decide (c ≠ space)) = true := by
    intro c hc
    have hne : c ≠ space := fun heq => hspace (heq ▸ hc)
    simpa using hne
  have htake : (fileLine entry).takeWhile (fun c => c ≠ space) = entry.1 := by
    rw [fileLine, List.takeWhile_append_of_pos hkey]
    simp
  have hdrop : (fileLine entry).dropWhile (fun c => c ≠ space) = space :: entry.2 := by
    rw [fileLine, List.dropWhile_append_of_pos hkey]
    simp
  simp only [importLine, htrim, cstr_eq_self hfree]
  rw [htake, hdrop]
  rfl

/-- Every line is read on its own. -/
theorem map_importLine_lines {entries : List (Text × Text)}
    (hfree : ∀ entry ∈ entries, newline ∉ fileLine entry) {content : List Byte}
    (h : HasLines content entries) : (lines newline content).map importLine =
      entries.map (fun entry => importLine (fileLine entry)) := by
  have hlines : ConsistsOf newline content (entries.map fileLine) := by
    simpa only [ConsistsOf, HasLines, List.flatMap_map] using h
  rw [map_lines importLine_newline ?_ hlines, List.map_map]
  · rfl
  · intro body hbody
    obtain ⟨entry, he, rfl⟩ := List.mem_map.mp hbody
    exact ⟨hfree entry he, by simp [fileLine]⟩

theorem importTable_eq (content : List Byte) :
    importTable content = kvhashInsertAll ∅ ((lines newline content).map importLine) := by
  rw [kvhashInsertAll, List.foldl_map]
  rfl

/-- The table of a format file shows the description, without a type. -/
theorem argument_importTable {content : List Byte} {d : Description} (h : Lists content d)
    {key : String} {value : Option Text} (hmem : (key, value) ∈ d.members none) :
    kvhashLookup (importTable content) (text key) = value.map some := by
  obtain ⟨entries, hlines, hperm⟩ := h
  have hentry : ∀ entry ∈ entries, NulFree entry.1 ∧ space ∉ entry.1 ∧ newline ∉ entry.1 ∧
      ∃ v : Value, v.bytes = entry.2 := by
    intro entry he
    obtain ⟨member, hm, hkey, value, hvalue, heq⟩ :=
      mem_given (hperm.mem_iff.mp (List.mem_map.mpr ⟨entry, he, rfl⟩))
    obtain ⟨hzero, hspace, hnewline⟩ := plain_key hm
    have hlower : ∀ c ∈ entry.1, tolower c ∈ text member.1 := by
      intro c hc
      rw [hkey]
      exact List.mem_map.mpr ⟨c, hc, rfl⟩
    refine ⟨fun hc => hzero (hlower _ hc), fun hc => hspace (hlower _ hc),
      fun hc => hnewline (hlower _ hc), ?_⟩
    cases heq
    rw [← Prod.mk.eta (p := member), hvalue] at hm
    exact value_of_member hm
  have hfree : ∀ entry ∈ entries, newline ∉ fileLine entry := by
    intro entry he
    obtain ⟨-, -, hkey, v, hv⟩ := hentry entry he
    simp only [fileLine, List.mem_append, List.mem_cons, not_or]
    exact ⟨hkey, by decide, hv ▸ v.noNewline⟩
  have hread : (lines newline content).map importLine = entries.map lowered := by
    rw [map_importLine_lines hfree hlines]
    refine List.map_congr_left ?_
    intro entry he
    obtain ⟨hnul, hspace, -, v, hv⟩ := hentry entry he
    exact importLine_fileLine hnul hspace hv
  rw [importTable_eq, hread]
  exact lookup_given (members_keys none) hperm hmem

end Lines

section Order

/-- The static variables that an option fills. Of each kind one option can be given. -/
inductive Slot
  | mode
  | spec
  | mask
  | offset
  | detector
  | credentials
  | preserve
  | package
  | test
deriving DecidableEq

def slot : Opt → Slot
  | .mode _ _ => .mode
  | .magic _ => .spec
  | .extension _ => .spec
  | .mask _ => .mask
  | .offset _ => .offset
  | .detector _ => .detector
  | .credentials _ => .credentials
  | .preserve _ => .preserve
  | .package _ => .package
  | .test => .test

def Vacant (o : Options) : Slot → Prop
  | .mode => o.mode = none
  | .spec => o.type = none
  | .mask => o.mask = none
  | .offset => o.offset = none
  | .detector => o.detector = none
  | .package => o.package = none
  | _ => True

def WellGiven : Opt → Prop
  | .mode m following => m = .install ∧ following.length = 2
  | .offset arg => isWholeNumber arg = true
  | _ => True

def assign (o : Options) : Opt → Options
  | .mode m following =>
      { o with mode := some m, name := following.head?, interpreter := following.getLast? }
  | .magic arg => { o with type := some .magic, magic := some arg }
  | .extension arg => { o with type := some .extension, extension := some arg }
  | .mask arg => { o with mask := some arg }
  | .offset arg => { o with offset := some arg }
  | .detector arg => { o with detector := some arg }
  | .credentials arg => { o with credentials := some arg }
  | .preserve arg => { o with preserve := some arg }
  | .package arg => { o with package := some arg }
  | .test => { o with test := true }

theorem parseOpt_of_vacant {o : Options} {opt : Opt} (hgiven : WellGiven opt)
    (h : Vacant o (slot opt)) : parseOpt o opt = .ok (assign o opt) := by
  cases opt with
  | mode m following =>
    obtain ⟨rfl, hlen⟩ := hgiven
    obtain ⟨name, path, rfl⟩ := List.length_eq_two.mp hlen
    have hnone : o.mode = none := h
    rw [parseOpt, setMode, hnone]
    rfl
  | magic arg =>
    have hnone : o.type = none := h
    rw [parseOpt, setType, hnone]
    rfl
  | extension arg =>
    have hnone : o.type = none := h
    rw [parseOpt, setType, hnone]
    rfl
  | mask arg =>
    have hnone : o.mask = none := h
    rw [parseOpt, if_neg (by simp [hnone])]
    rfl
  | offset arg =>
    have hnone : o.offset = none := h
    have hdigits : isWholeNumber arg = true := hgiven
    rw [parseOpt, if_neg (by simp [hnone]), if_pos hdigits]
    rfl
  | detector arg =>
    have hnone : o.detector = none := h
    rw [parseOpt, if_neg (by simp [hnone])]
    rfl
  | package arg =>
    have hnone : o.package = none := h
    rw [parseOpt, if_neg (by simp [hnone])]
    rfl
  | credentials arg => rfl
  | preserve arg => rfl
  | test => rfl

theorem vacant_assign {o : Options} {opt : Opt} {k : Slot} (h : Vacant o k)
    (hne : slot opt ≠ k) : Vacant (assign o opt) k := by
  cases opt <;> cases k <;> first | exact h | exact absurd rfl hne

theorem assign_comm (o : Options) {a b : Opt} (hne : slot a ≠ slot b) :
    assign (assign o a) b = assign (assign o b) a := by
  cases a <;> cases b <;> first | rfl | exact absurd rfl hne

/-- Options of different kinds are all taken. -/
theorem parseFrom_of_slots {opts : List Opt} (hslots : (opts.map slot).Nodup)
    (hgiven : ∀ opt ∈ opts, WellGiven opt) {o : Options}
    (hvacant : ∀ opt ∈ opts, Vacant o (slot opt)) :
    parseFrom o opts = parseSuccess (opts.foldl assign o) := by
  induction opts generalizing o with
  | nil => rfl
  | cons opt rest ih =>
    rw [List.map_cons, List.nodup_cons] at hslots
    rw [parseFrom, parseOpt_of_vacant (hgiven opt List.mem_cons_self)
      (hvacant opt List.mem_cons_self)]
    refine ih hslots.2 (fun x hx => hgiven x (List.mem_cons_of_mem opt hx)) ?_
    intro x hx
    refine vacant_assign (hvacant x (List.mem_cons_of_mem opt hx)) ?_
    intro heq
    exact hslots.1 (List.mem_map.mpr ⟨x, hx, heq.symm⟩)

/-- And they may stand in any order. -/
theorem parse_of_perm {opts opts' : List Opt} (hperm : opts'.Perm opts)
    (hslots : (opts.map slot).Nodup) (hgiven : ∀ opt ∈ opts, WellGiven opt) :
    parse opts' = parseSuccess (opts.foldl assign .none) := by
  have hvacant : ∀ opt : Opt, Vacant .none (slot opt) := by
    intro opt
    cases opt <;> trivial
  have hslots' : (opts'.map slot).Nodup := (hperm.map slot).nodup_iff.mpr hslots
  rw [parse, parseFrom_of_slots hslots' (fun opt hopt => hgiven opt (hperm.mem_iff.mp hopt))
    (fun opt _ => hvacant opt)]
  congr 1
  refine hperm.foldl_eq' ?_ _
  intro a ha b hb o
  by_cases hab : a = b
  · rw [hab]
  · refine assign_comm o ?_
    intro heq
    exact hab (List.inj_on_of_nodup_map hslots' ha hb heq)

end Order

section Description
variable {d : Description} {name : Text}

theorem parse_options {opts : List Opt} (hperm : opts.Perm (d.options name))
    (hname : isReserved name = false) : parse opts = .ok (d.parsed name) := by
  have hslots : ((d.options name).map slot).Nodup := by
    unfold Description.options Description.typeOption
    cases d.type <;> cases d.mask <;> cases d.offset <;> cases d.detector <;>
      cases d.credentials <;> cases d.preserve <;> simp [slot]
  have hgiven : ∀ opt ∈ d.options name, WellGiven opt := by
    intro opt hopt
    obtain ⟨o, ho, hsome⟩ := List.mem_filterMap.mp hopt
    have hmap : ∀ (value : Option Value) (f : Value → Opt),
        (∀ v ∈ value, WellGiven (f v)) → value.map f = some opt → WellGiven opt := by
      intro value f hf heq
      obtain ⟨v, hv, rfl⟩ := Option.map_eq_some_iff.mp heq
      exact hf v hv
    simp only [List.mem_cons, List.not_mem_nil, or_false] at ho
    rcases ho with rfl | rfl | rfl | rfl | rfl | rfl | rfl | rfl
    · cases hsome
      trivial
    · cases hsome
      exact ⟨rfl, rfl⟩
    · cases hsome
      unfold Description.typeOption
      cases d.type <;> trivial
    · exact hmap d.mask (fun v => .mask v.bytes) (fun _ _ => trivial) hsome
    · exact hmap d.offset (fun v => .offset v.bytes) d.digits hsome
    · exact hmap d.detector (fun v => .detector v.bytes) (fun _ _ => trivial) hsome
    · exact hmap d.credentials (fun v => .credentials v.bytes) (fun _ _ => trivial) hsome
    · exact hmap d.preserve (fun v => .preserve v.bytes) (fun _ _ => trivial) hsome
  have hfold : (d.options name).foldl assign .none = d.parsed name := by
    unfold Description.options Description.typeOption Description.parsed Description.magic
      Description.extension
    cases d.type <;> cases d.mask <;> cases d.offset <;> cases d.detector <;>
      cases d.credentials <;> cases d.preserve <;> rfl
  rw [parse_of_perm hperm hslots hgiven, hfold, parseSuccess]
  simp [Description.parsed, hname]

/-- The table that main builds shows the description, with its type. -/
theorem argument_parsed {key : String} {value : Option Text}
    (h : (key, value) ∈ d.members (some d.typeName)) :
    argument (formatArgs (d.parsed name)) key = value := by
  refine argument_formatArgs ?_
  have htype : (if (d.parsed name).type = some .magic then text "magic" else text "extension") =
      d.typeName := by
    unfold Description.parsed Description.typeName
    cases d.type <;> rfl
  rw [Options.members, htype]
  simp only [Description.members, Description.values, List.map_cons, List.map_nil,
    List.mem_cons, List.not_mem_nil, or_false] at h ⊢
  rcases h with h | h | h | h | h | h | h | h | h | h <;> simp [h, Description.parsed, packageOf]

/-- A format file and the options of --install that give one description lead to the same
record, or are both rejected. Lines and options may stand in any order, the keys of the
lines may be in any letter case. -/
theorem file_as_options (env : Env) (d : Description) (path : Text) (content : List Byte)
    (hfile : env.files path = some content) (hlists : Lists content d) (s : Store) (m : Memory)
    (hok : env.ok m.clock = true) (name : Text) (hname : isReserved name = false)
    (opts : List Opt) (hopts : opts.Perm (d.options name)) :
    ∃ import_ o m', (getImport env path).run s m = ⟨.returned (some import_), m', []⟩ ∧
      parse opts = .ok o ∧ binfmtNew import_ = .ok d.result ∧
      binfmtNew (formatArgs o) = .ok d.result := by
  refine ⟨importTable content, d.parsed name, m.tick, ?_, parse_options hopts hname, ?_, ?_⟩
  · rw [getImport, hfile]
    simp only [run_succeeds_bind, hok]
    rfl
  · have hnone : kvhashExists (importTable content) (text "extension") = d.extension.isSome := by
      have hmem : ("extension", d.extension.map Value.bytes) ∈ d.members none := by
        simp [Description.members, Description.values]
      rw [kvhashExists_eq, argument_importTable hlists hmem, Option.isSome_map,
        Option.isSome_map]
    refine binfmtNew_of_members (Or.inr ⟨rfl, hnone⟩) ?_
    intro key value hmem
    rw [argument, argument_importTable hlists hmem]
    cases value <;> rfl
  · exact binfmtNew_of_members (Or.inl rfl) (fun key value hmem => argument_parsed hmem)

end Description

section Example

def pngDescription : Description where
  package := ⟨text "pkg", by decide, by decide, by decide, by decide⟩
  interpreter := ⟨text "/usr/bin/display", by decide, by decide, by decide, by decide⟩
  type := .extension
  pattern := ⟨text "png", by decide, by decide, by decide, by decide⟩
  mask := none
  offset := none
  detector := none
  credentials := some ⟨text "yes", by decide, by decide, by decide, by decide⟩
  preserve := none
  digits := by simp

def pngFile : List Byte :=
  text "Interpreter /usr/bin/display\nextension png\nPACKAGE pkg\ncredentials yes"

def pngEnv : Env := { plainEnv with files := fun _ => some pngFile }

theorem lists_pngFile : Lists pngFile pngDescription := by
  refine ⟨[(text "Interpreter", text "/usr/bin/display"), (text "extension", text "png"),
    (text "PACKAGE", text "pkg"), (text "credentials", text "yes")], Or.inr ?_, ?_⟩
  · decide
  · decide

/-- The lines in another order than the options, with capitals, and the last one cut. -/
theorem file_as_options_png : ∃ import_ o m', (getImport pngEnv (text "png")).run
      emptyStore Memory.fresh = ⟨.returned (some import_), m', []⟩ ∧
    parse (pngDescription.options (text "png")) = .ok o ∧
    binfmtNew import_ = .ok pngDescription.result ∧
    binfmtNew (formatArgs o) = .ok pngDescription.result :=
  file_as_options pngEnv pngDescription (text "png") pngFile rfl lists_pngFile emptyStore
    Memory.fresh rfl (text "png") (by decide) _ (List.Perm.refl _)

end Example
end BinfmtSupport.FormatFile
