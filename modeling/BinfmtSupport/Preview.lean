import BinfmtSupport.Listing
import BinfmtSupport.Rehearsal
import BinfmtSupport.Orphans
import BinfmtSupport.Upkeep

/-!
The text that a run with --test prints. Each step takes one or more lines, and starts with a
word of its own, so that the whole text can be read back: it says which records would be
installed, and which lines registered. The path of a file to be removed ends without a newline,
but nothing is ever printed behind it.
-/
namespace BinfmtSupport.Preview

open CText Kvhash Format Regstring Journal Stores Actions CommandLine
open Records Reports Listing Rehearsal Upkeep

section Texts

/-- `"%12s = "` -/
def fieldLabel (field : String) : Text :=
  List.replicate (12 - (text field).length) space ++ text field ++ text " = "

def printLabels : List Text :=
  [fieldLabel "package", fieldLabel "type", fieldLabel "offset", fieldLabel "magic",
    fieldLabel "mask", fieldLabel "interpreter", fieldLabel "detector",
    fieldLabel "credentials", fieldLabel "preserve"]

def values (binfmt : Binfmt) : List Text := binfmt.fields.map (fun field => field.getD [])

/-- A member that is NULL is printed as an empty one. -/
def binfmtPrint (binfmt : Binfmt) : Text := printLines newline printLabels (values binfmt)

/-- The calls of printf, where the database is in admindir. -/
def shown (admindir : Text) : Answer → Text
  | .load => text "load binfmt_misc\n"
  | .unload filesystem =>
      text "unload binfmt_misc (" ++ (if filesystem then text "filesystem" else text "procfs") ++
        text ")\n"
  | .enable name r =>
      text "enable " ++ name ++ text " with the following format string:\n " ++ r.regstring
  | .disable name => text "disable " ++ name ++ [newline]
  | .description => text "install the following binary format description:\n"
  | .install binfmt =>
      text "install the following binary format description:\n" ++ binfmtPrint binfmt
  | .remove name => text "remove " ++ admindir ++ [slash] ++ name
  | .display name enabled package binfmt => (Report.mk name enabled package binfmt).text
  | .found interpreter => interpreter ++ [newline]

def stdout (admindir : Text) (m : Memory) : Text := m.answers.flatMap (shown admindir)

inductive Told
  | load
  | unload (filesystem : Bool)
  | enable (name line : Text)
  | disable (name : Text)
  | description
  | install (values : List Text)
  | remove (name : Text)
deriving DecidableEq

def told : Answer → Option Told
  | .load => some .load
  | .unload filesystem => some (.unload filesystem)
  | .enable name r => some (.enable name r.regstring.dropLast)
  | .disable name => some (.disable name)
  | .description => some .description
  | .install binfmt => some (.install (values binfmt))
  | .remove name => some (.remove name)
  | .display .. => none
  | .found _ => none

namespace Told

def verb : Told → Text
  | load => text "load"
  | unload _ => text "unload"
  | enable .. => text "enable"
  | disable _ => text "disable"
  | description => text "install"
  | install _ => text "install"
  | remove _ => text "remove"

def enableLabels : List Text := [[], [space]]
def enableEnd : Text := text " with the following format string:"
def heading : Text := text "the following binary format description:"
def installLabels : List Text := heading :: printLabels

def style (filesystem : Bool) : Text :=
  if filesystem then text "filesystem)" else text "procfs)"

def body (admindir : Text) : Told → Text
  | load => line newline (text "binfmt_misc") []
  | unload filesystem => line newline (text "binfmt_misc (") (style filesystem)
  | enable name line => printLines newline enableLabels [name ++ enableEnd, line]
  | disable name => line newline [] name
  | description => line newline heading []
  | install values => printLines newline installLabels ([] :: values)
  | remove name => admindir ++ [slash] ++ name

def text (admindir : Text) (t : Told) : Text := line space [] t.verb ++ t.body admindir

def InLines : Told → Prop
  | load => True
  | unload _ => True
  | enable name line => newline ∉ name ∧ newline ∉ line
  | disable name => newline ∉ name
  | description => False
  | install values => values.length = printLabels.length ∧ ∀ value ∈ values, newline ∉ value
  | remove _ => False

def events : Told → List Event
  | load => []
  | unload _ => []
  | enable name line => [.enable name (line ++ [newline])]
  | disable name => [.disable name]
  | description => []
  | install values => [.install (values.flatMap (fun value => value ++ [newline]))]
  | remove name => [.remove name]

end Told

def readLoad (value : Text) : Option Told := if value = [] then some .load else none

def readUnload (value : Text) : Option Told :=
  if value = Told.style true then some (.unload true)
  else if value = Told.style false then some (.unload false)
  else none

def readEnable : List Text → Option Told
  | [first, line] =>
      if Told.enableEnd <:+ first then
        some (.enable (first.take (first.length - Told.enableEnd.length)) line)
      else none
  | _ => none

def readInstall : List Text → Option Told
  | [] :: values => some (.install values)
  | _ => none

def readRemove (admindir t : Text) : Option (Told × Text) :=
  if admindir ++ [slash] <+: t then some (.remove (t.drop (admindir.length + 1)), []) else none

def readBody (admindir verb t : Text) : Option (Told × Text) :=
  if verb = text "load" then readAs readLoad (takeLine newline (text "binfmt_misc")) t
  else if verb = text "unload" then
    readAs readUnload (takeLine newline (text "binfmt_misc (")) t
  else if verb = text "enable" then readAs readEnable (takeLines newline Told.enableLabels) t
  else if verb = text "disable" then
    readAs (fun name => some (Told.disable name)) (takeLine newline []) t
  else if verb = text "install" then
    if t = line newline Told.heading [] then some (.description, [])
    else readAs readInstall (takeLines newline Told.installLabels) t
  else if verb = text "remove" then readRemove admindir t
  else none

def readTold (admindir : Text) (t : Text) : Option (Told × Text) :=
  readTagged (takeLine space []) (readBody admindir) t

def readEvents (admindir t : Text) : Option (List Event) :=
  (readAll (readTold admindir) t).map (fun ts => ts.flatMap Told.events)

theorem readEnable_eq (name line : Text) :
    readEnable [name ++ Told.enableEnd, line] = some (.enable name line) := by
  rw [readEnable, if_pos (List.suffix_append name _), List.length_append, Nat.add_sub_cancel,
    List.take_left']
  rfl

/-- The lines of a record stand behind its heading. -/
theorem body_install_ne (admindir : Text) {values : List Text}
    (hlength : values.length = printLabels.length) (rest : Text) :
    (Told.install values).body admindir ++ rest ≠ line newline Told.heading [] := by
  cases values with
  | nil => cases hlength
  | cons value more =>
    intro h
    have hlengths := congrArg List.length h
    simp [Told.body, Told.installLabels, printLabels, printLines, line] at hlengths

/-- A step that is told in lines is read, whatever is printed behind it. -/
theorem readsBack_told (admindir : Text) :
    ReadsBack Told.InLines (Told.text admindir) (readTold admindir) := by
  refine (readsBack_line space []).tagged (fun t ht => ⟨?_, fun rest => ?_⟩)
  · cases t <;> rw [Told.verb] <;> decide
  · cases t with
    | load =>
      change readBody admindir (text "load") _ = _
      rw [readBody, if_pos rfl]
      exact readAs_eq (readsBack_line newline _ [] List.not_mem_nil rest) rfl
    | unload filesystem =>
      change readBody admindir (text "unload") _ = _
      rw [readBody, if_neg (by decide), if_pos rfl]
      refine readAs_eq (readsBack_line newline _ (Told.style filesystem) ?_ rest) ?_
      · cases filesystem <;> decide
      · cases filesystem <;> decide
    | enable name line =>
      have hfirst : newline ∉ name ++ Told.enableEnd := by
        rw [List.mem_append, not_or]
        exact ⟨ht.1, by decide⟩
      change readBody admindir (text "enable") _ = _
      rw [readBody, if_neg (by decide), if_neg (by decide), if_pos rfl]
      refine readAs_eq (readsBack_lines newline Told.enableLabels
        [name ++ Told.enableEnd, line] ⟨rfl, ?_⟩ rest) (readEnable_eq name line)
      simp only [List.forall_mem_cons, List.not_mem_nil, false_implies, implies_true, and_true]
      exact ⟨hfirst, ht.2⟩
    | disable name =>
      change readBody admindir (text "disable") _ = _
      rw [readBody, if_neg (by decide), if_neg (by decide), if_neg (by decide), if_pos rfl]
      exact readAs_eq (readsBack_line newline [] name ht rest) rfl
    | description => exact ht.elim
    | install values =>
      change readBody admindir (text "install") _ = _
      rw [readBody, if_neg (by decide), if_neg (by decide), if_neg (by decide),
        if_neg (by decide), if_pos rfl, if_neg (body_install_ne admindir ht.1 rest)]
      refine readAs_eq
        (readsBack_lines newline Told.installLabels ([] :: values) ⟨?_, ?_⟩ rest) rfl
      · exact congrArg Nat.succ ht.1
      · rw [List.forall_mem_cons]
        exact ⟨List.not_mem_nil, ht.2⟩
    | remove name => exact ht.elim

theorem readTold_description (admindir : Text) :
    readTold admindir (Told.text admindir .description) = some (.description, []) := by
  have hverb : takeLine space [] (Told.text admindir .description) =
      some (text "install", line newline Told.heading []) :=
    readsBack_line space [] (text "install") (by decide) _
  rw [readTold, readTagged, hverb, Option.bind_some]
  dsimp only
  rw [readBody, if_neg (by decide), if_neg (by decide), if_neg (by decide), if_neg (by decide),
    if_pos rfl, if_pos rfl]

/-- The last step need not be a line. -/
theorem readTold_remove (admindir name : Text) :
    readTold admindir (Told.text admindir (.remove name)) = some (.remove name, []) := by
  have hverb : takeLine space [] (Told.text admindir (.remove name)) =
      some (text "remove", admindir ++ [slash] ++ name) :=
    readsBack_line space [] (text "remove") (by decide) _
  rw [readTold, readTagged, hverb, Option.bind_some]
  dsimp only
  rw [readBody, if_neg (by decide), if_neg (by decide), if_neg (by decide), if_neg (by decide),
    if_neg (by decide), if_pos rfl, readRemove, if_pos (List.prefix_append _ name)]
  have hlength : (admindir ++ [slash]).length = admindir.length + 1 := List.length_append
  rw [← hlength, List.drop_left]

theorem regstring_ends (r : Registration) : r.regstring.dropLast ++ [newline] = r.regstring := by
  rw [Registration.regstring_eq, List.dropLast_concat]

/-- The calls of printf print the words and the lines of the step. -/
theorem shown_eq {a : Answer} {t : Told} (h : told a = some t) (admindir : Text) :
    shown admindir a = t.text admindir := by
  cases a with
  | load =>
    cases h
    rw [shown, Told.text, Told.body]
    decide
  | unload filesystem =>
    cases h
    rw [shown, Told.text, Told.body]
    cases filesystem <;> decide
  | enable name r =>
    cases h
    have hprint : Told.text admindir (.enable name r.regstring.dropLast) =
        text "enable " ++ (name ++ text " with the following format string:\n " ++
          (r.regstring.dropLast ++ [newline])) := by
      simp [Told.text, Told.verb, Told.body, Told.enableLabels, Told.enableEnd, printLines, line,
        text, newline, space]
    rw [hprint, regstring_ends, shown]
    simp
  | disable name =>
    cases h
    simp [shown, Told.text, Told.verb, Told.body, line, text, newline, space]
  | description =>
    cases h
    rw [shown, Told.text, Told.body]
    decide
  | install binfmt =>
    cases h
    have hprint : Told.text admindir (.install (values binfmt)) =
        text "install the following binary format description:\n" ++ binfmtPrint binfmt := by
      simp [Told.text, Told.verb, Told.body, Told.installLabels, Told.heading, printLines, line,
        binfmtPrint, text, newline, space]
    rw [hprint, shown]
  | remove name =>
    cases h
    simp [shown, Told.text, Told.verb, Told.body, line, text, space]
  | display => cases h
  | found => cases h

theorem events_eq {a : Answer} {t : Told} (h : told a = some t) : t.events = shows a := by
  cases a with
  | enable name r =>
    cases h
    rw [Told.events, regstring_ends, shows]
  | install binfmt =>
    cases h
    rw [Told.events, values, List.flatMap_map]
    rfl
  | display => cases h
  | found => cases h
  | load => cases h; rfl
  | unload => cases h; rfl
  | description => cases h; rfl
  | disable => cases h; rfl
  | remove => cases h; rfl

end Texts

section Memories

def OneLined (binfmt : Binfmt) : Prop := ∀ value ∈ values binfmt, newline ∉ value

/-- What a process under --test holds, and what it has printed so far. -/
structure Tidy (m : Memory) : Prop where
  formats : ∀ key b, kvhashLookup m.formats key = some b → newline ∉ key ∧ OneLined b
  answers : ∀ a ∈ m.answers, ∃ t, told a = some t ∧ t.InLines

/-- At the end there may stand a path without a newline, or a heading without a record. -/
def Finished (m : Memory) : Prop :=
  Tidy m ∨ ∃ m₀ a, Tidy m₀ ∧ (a = .description ∨ ∃ name, a = .remove name) ∧
    m.answers = m₀.answers ++ [a]

theorem shown_all {answers : List Answer} (h : ∀ a ∈ answers, ∃ t, told a = some t ∧ t.InLines)
    (admindir : Text) : ∃ ts : List Told, (∀ t ∈ ts, t.InLines) ∧
      answers.flatMap (shown admindir) = ts.flatMap (Told.text admindir) ∧
      answers.flatMap shows = ts.flatMap Told.events := by
  induction answers with
  | nil => exact ⟨[], fun t ht => absurd ht List.not_mem_nil, rfl, rfl⟩
  | cons a rest ih =>
    obtain ⟨t, ht, hlines⟩ := h a List.mem_cons_self
    obtain ⟨ts, hts, hshown, hevents⟩ := ih (fun x hx => h x (List.mem_cons_of_mem a hx))
    refine ⟨t :: ts, List.forall_mem_cons.mpr ⟨hlines, hts⟩, ?_, ?_⟩
    · rw [List.flatMap_cons, List.flatMap_cons, shown_eq ht, hshown]
    · rw [List.flatMap_cons, List.flatMap_cons, events_eq ht, hevents]

/-- The keys of the table, in the order of a walk. -/
theorem names_of_tidy {env : Env} {m : Memory} (hm : Tidy m) :
    ∀ name ∈ env.walk m.formats, newline ∉ name := by
  intro name hname
  have hmem : name ∈ m.formats := (env.walk_perm m.formats).mem_iff.mp hname
  obtain ⟨b, hb⟩ := Option.isSome_iff_exists.mp (AList.lookup_isSome.mpr hmem)
  exact (hm.formats name b hb).1

theorem text_ne_nil (admindir : Text) (t : Told) : t.text admindir ≠ [] := by
  cases t <;> simp [Told.text, line]

theorem readEvents_of_finished {m : Memory} (h : Finished m) (admindir : Text) :
    readEvents admindir (stdout admindir m) = some (demonstrated m) := by
  have hback := readsBack_told admindir
  rcases h with htidy | ⟨m₀, a, htidy, hkind, hanswers⟩
  · obtain ⟨ts, hts, hshown, hevents⟩ := shown_all htidy.answers admindir
    rw [readEvents, stdout, hshown, hback.readAll (fun t _ => text_ne_nil admindir t) hts,
      Option.map_some, demonstrated, hevents]
  · obtain ⟨ts, hts, hshown, hevents⟩ := shown_all htidy.answers admindir
    obtain ⟨last, htold, hread⟩ :
        ∃ last, told a = some last ∧ readTold admindir (last.text admindir) = some (last, []) := by
      rcases hkind with rfl | ⟨name, rfl⟩
      · exact ⟨.description, rfl, readTold_description admindir⟩
      · exact ⟨.remove name, rfl, readTold_remove admindir name⟩
    rw [readEvents, stdout, hanswers, List.flatMap_append, hshown, List.flatMap_singleton,
      shown_eq htold,
      hback.readAll_last (fun t _ => text_ne_nil admindir t) hts (text_ne_nil admindir _) hread,
      Option.map_some, List.flatMap_append, ← hevents, demonstrated, hanswers,
      List.flatMap_append, List.flatMap_singleton, List.flatMap_singleton, events_eq htold]

theorem oneLined_of_binfmtLoad {content : List Byte} {b : Binfmt} (h : binfmtLoad content = .ok b) :
    OneLined b := by
  intro value hvalue
  obtain ⟨field, hfield, rfl⟩ := List.mem_map.mp hvalue
  obtain ⟨t, rfl, ht⟩ := oneLine_of_binfmtLoad h field hfield
  exact ht

theorem oneLined_of_binfmtNew {args : Arguments} {b : Binfmt} (h : binfmtNew args = .ok (.ok b)) :
    OneLined b := by
  intro value hvalue
  obtain ⟨field, hfield, rfl⟩ := List.mem_map.mp hvalue
  exact (accepted_of_binfmtNew h).fields_noNewline field hfield

/-- The line of a record takes one line, whichever interpreter it gets. -/
theorem inLines_enable {env : Env} (hdetectors : newline ∉ env.runDetectors) {name : Text}
    (hname : newline ∉ name) {b : Binfmt} (hb : OneLined b) (detector : Bool) :
    (Told.enable name
      (registrationOf name b (chooseInterpreter env b detector)).regstring.dropLast).InLines := by
  have hprinted : ∀ field ∈ b.fields, newline ∉ printed field := by
    intro field hfield
    cases field with
    | none => decide
    | some value => exact hb value (List.mem_map.mpr ⟨some value, hfield, rfl⟩)
  have hvalue : ∀ value, some value ∈ b.fields → newline ∉ value :=
    fun value hmem => hprinted (some value) hmem
  have hcolon : newline ∉ [colon] := by decide
  have hinterpreter : newline ∉ printed (chooseInterpreter env b detector) := by
    cases detector with
    | true => exact hdetectors
    | false => exact hprinted b.interpreter (by simp [Binfmt.fields])
  generalize hr : registrationOf name b (chooseInterpreter env b detector) = r
  have hletter : newline ∉ r.typeLetter := by
    unfold Registration.typeLetter
    split <;> decide
  refine ⟨hname, ?_⟩
  rw [Registration.regstring, List.dropLast_concat]
  subst hr
  simp only [List.mem_append, not_or, and_assoc]
  exact ⟨hcolon, hname, hcolon, hletter, hcolon, hvalue b.offset (by simp [Binfmt.fields]), hcolon,
    hprinted b.magic (by simp [Binfmt.fields]), hcolon, hvalue b.mask (by simp [Binfmt.fields]),
    hcolon, hinterpreter, hcolon, flags_noNewline _⟩

end Memories

section Steps
variable {env : Env} {s : Store}

theorem tidy_remembered {g : Memory → Memory} (hformats : ∀ m, (g m).formats = m.formats)
    (hanswers : ∀ m, (g m).answers = m.answers) :
    Inward s Tidy Tidy Finished (Prog.remember g : Act PUnit) := by
  refine inward_remember (fun m hm => ⟨?_, ?_⟩)
  · rw [hformats]
    exact hm.formats
  · rw [hanswers]
    exact hm.answers

theorem tidy_warn (w : Warning) : Inward s Tidy Tidy Finished (warn w) :=
  tidy_remembered (fun _ => rfl) (fun _ => rfl)

theorem tidy_warn_pure {α : Type} (w : Warning) (a : α) :
    Inward s Tidy Tidy Finished (warn w >>= fun _ => pure a) :=
  (tidy_warn w).bind (fun _ => inward_pure a)

theorem tidy_quit {α : Type} (w : Warning) : Inward s Tidy Tidy Finished (quit w : Act α) :=
  (tidy_warn w).bind (fun _ => inward_exit 2 (fun _ h => Or.inl h))

theorem tidy_succeeds (env : Env) : Inward s Tidy Tidy Finished (succeeds env) := by
  intro m hm
  rw [run_succeeds]
  exact ⟨rfl, hm.formats, hm.answers⟩

/-- Both ways in which a call can go. -/
theorem Inward.succeeds {α : Type} {yes no : Act α} (hyes : Inward s Tidy Tidy Finished yes)
    (hno : Inward s Tidy Tidy Finished no) :
    Inward s Tidy Tidy Finished (succeeds env >>= fun ok => if ok = true then yes else no) :=
  (tidy_succeeds env).bind (fun ok => by cases ok <;> assumption)

theorem tidy_answer {a : Answer} {t : Told} (ht : told a = some t) (hlines : t.InLines) :
    Inward s Tidy Tidy Finished (answer a) := by
  refine inward_remember (fun m hm => ⟨hm.formats, ?_⟩)
  intro x hx
  rcases List.mem_append.mp hx with hold | hnew
  · exact hm.answers x hold
  · rw [List.mem_singleton.mp hnew]
    exact ⟨t, ht, hlines⟩

theorem tidy_insert {name : Text} {b : Binfmt} (hname : newline ∉ name) (hb : OneLined b) :
    Inward s Tidy Tidy Finished (Prog.remember (fun m : Memory =>
      { m with formats := kvhashInsert m.formats name b }) : Act PUnit) := by
  refine inward_remember (fun m hm => ⟨?_, hm.answers⟩)
  intro key c hc
  change kvhashLookup (kvhashInsert m.formats name b) key = some c at hc
  by_cases hkey : key = name
  · rw [hkey, kvhashLookup_insert, Option.some.injEq] at hc
    refine ⟨hkey ▸ hname, ?_⟩
    rw [← hc]
    cases hold : kvhashLookup m.formats name with
    | none => exact hb
    | some old => exact (hm.formats name old hold).2
  · rw [kvhashLookup_insert_ne hkey] at hc
    exact hm.formats key c hc

end Steps

section Actions
variable {env : Env} {s : Store} (htest : env.test = true)
  (hstored : ∀ name, (s.file name).isSome = true → newline ∉ name)

section Reading
include hstored

theorem tidy_loadFormat (name : Text) (quiet : Bool) :
    Inward s Tidy Tidy Finished (loadFormat env name quiet) := by
  refine inward_observe_bind ?_
  cases hfile : s.file name with
  | none => exact inward_pure ()
  | some content =>
    have hname : newline ∉ name := hstored name (by rw [hfile]; rfl)
    refine Inward.succeeds ?_ (tidy_quit _)
    cases hload : binfmtLoad content with
    | error field =>
      cases quiet with
      | true => exact inward_pure ()
      | false => exact tidy_quit _
    | ok b => exact tidy_insert hname (oneLined_of_binfmtLoad hload)

theorem tidy_loadAllFormats (quiet : Bool) :
    Inward s Tidy Tidy Finished (loadAllFormats env quiet) := by
  have heach : ∀ names, Inward s Tidy Tidy Finished (loadFormats env quiet names) := by
    intro names
    induction names with
    | nil => exact inward_pure ()
    | cons name rest ih => exact (tidy_loadFormat hstored name quiet).bind (fun _ => ih)
  exact Inward.succeeds (inward_observe_bind (heach _)) (tidy_quit _)

theorem tidy_needDetector (name : Text) (b : Binfmt) :
    Inward s Tidy Tidy Finished (needDetector env name b) := by
  have hscan : ∀ formats keys, Inward s Tidy Tidy Finished (scanFormats name b formats keys) := by
    intro formats keys
    induction keys with
    | nil => exact inward_pure false
    | cons key rest ih =>
      rw [scanFormats]
      split
      · exact ih
      · split
        · exact ih
        · split
          · exact inward_crash (fun _ h => Or.inl h)
          · exact inward_pure true
          · exact ih
  rw [needDetector]
  split
  · exact inward_pure true
  · exact (tidy_loadAllFormats hstored true).bind
      (fun _ => inward_recollect_bind (fun m _ => hscan m.formats _))

end Reading

section Enable
variable (hdetectors : newline ∉ env.runDetectors)

include htest in
theorem tidy_loadBinfmtMisc : Inward s Tidy Tidy Finished (loadBinfmtMisc env) := by
  rw [loadBinfmtMisc, if_pos htest]
  exact (tidy_answer (t := .load) rfl trivial).bind (fun _ => inward_pure true)

include htest hstored hdetectors

theorem tidy_enableFormat {name : Text} (hname : newline ∉ name) :
    Inward s Tidy Tidy Finished (enableFormat env name) := by
  refine (tidy_loadFormat hstored name false).bind (fun _ => inward_recollect_bind ?_)
  intro m hm
  cases hlook : kvhashLookup m.formats name with
  | none =>
    rw [if_pos htest]
    exact inward_crash (fun _ h => Or.inl h)
  | some b =>
    refine (tidy_needDetector hstored name b).bind (fun detector => ?_)
    rw [register, if_pos htest]
    have hlines := inLines_enable hdetectors hname (hm.formats name b hlook).2 detector
    exact (tidy_answer rfl hlines).bind (fun _ => inward_pure true)

theorem tidy_actEnableName {name : Text} (hname : newline ∉ name) :
    Inward s Tidy Tidy Finished (actEnableName env name) := by
  refine (tidy_loadBinfmtMisc htest).bind (fun worked => ?_)
  split
  · refine inward_observe_bind ?_
    split
    · exact tidy_warn_pure _ true
    · exact tidy_enableFormat htest hstored hdetectors hname
  · exact inward_pure true

theorem tidy_actEnable {given : Option Text} (hgiven : ∀ name, given = some name → newline ∉ name) :
    Inward s Tidy Tidy Finished (actEnable env given) := by
  have heach : ∀ names : List Text, (∀ name ∈ names, newline ∉ name) →
      Inward s Tidy Tidy Finished (enableEach env names) := by
    intro names hnames
    induction names with
    | nil => exact inward_pure true
    | cons name rest ih =>
      have hrest := ih (fun n hn => hnames n (List.mem_cons_of_mem name hn))
      refine inward_observe_bind ?_
      split
      · exact hrest
      · exact (tidy_actEnableName htest hstored hdetectors (hnames name List.mem_cons_self)).bind
          (fun _ => hrest.bind (fun _ => inward_pure _))
  cases given with
  | some name => exact tidy_actEnableName htest hstored hdetectors (hgiven name rfl)
  | none =>
    refine (tidy_loadBinfmtMisc htest).bind (fun worked => ?_)
    split
    · exact (tidy_loadAllFormats hstored false).bind
        (fun _ => inward_recollect_bind (fun m hm => heach _ (names_of_tidy hm)))
    · exact inward_pure true

end Enable

section Disable
include htest

theorem tidy_actDisableName {name : Text} (hname : newline ∉ name) :
    Inward s Tidy Tidy Finished (actDisableName env name) := by
  refine inward_observe_bind ?_
  split
  · split
    · exact (tidy_answer (t := .disable name) rfl hname).bind (fun _ => inward_pure true)
    · exact inward_pure true
  · exact inward_pure true

theorem tidy_unloadBinfmtMisc : Inward s Tidy Tidy Finished (unloadBinfmtMisc env) := by
  refine inward_observe_bind ?_
  rw [if_pos htest]
  exact (tidy_answer (t := .unload _) rfl trivial).bind (fun _ => inward_pure true)

include hstored in
theorem tidy_actDisable {given : Option Text}
    (hgiven : ∀ name, given = some name → newline ∉ name) :
    Inward s Tidy Tidy Finished (actDisable env given) := by
  have heach : ∀ names : List Text, (∀ name ∈ names, newline ∉ name) →
      Inward s Tidy Tidy Finished (disableEach env names) := by
    intro names hnames
    induction names with
    | nil => exact inward_pure true
    | cons name rest ih =>
      have hrest := ih (fun n hn => hnames n (List.mem_cons_of_mem name hn))
      refine inward_observe_bind ?_
      split
      · exact (tidy_actDisableName htest (hnames name List.mem_cons_self)).bind
          (fun _ => hrest.bind (fun _ => inward_pure _))
      · exact hrest
  cases given with
  | some name => exact tidy_actDisableName htest (hgiven name rfl)
  | none =>
    refine inward_observe_bind ?_
    split
    · refine (tidy_loadAllFormats hstored false).bind (fun _ => inward_recollect_bind ?_)
      intro m hm
      exact (heach _ (names_of_tidy hm)).bind
        (fun worked => (tidy_unloadBinfmtMisc htest).bind (fun _ => inward_pure worked))
    · exact inward_pure true

end Disable

section Install
variable (hdetectors : newline ∉ env.runDetectors)
include htest hstored hdetectors

theorem tidy_installUnlessManual {name : Text} (hname : newline ∉ name) {given : Option Binfmt}
    (hgiven : ∀ b, given = some b → OneLined b) :
    Inward s Tidy Tidy Finished (installUnlessManual env name given) := by
  refine inward_observe_bind ?_
  rw [if_neg (by simp [htest]), installFile.eq_def, if_pos htest]
  cases given with
  | none =>
    intro m hm
    exact ⟨rfl, Or.inr ⟨m, .description, hm, Or.inl rfl, rfl⟩⟩
  | some b =>
    have hb := hgiven b rfl
    refine (tidy_answer (t := .install (values b)) rfl ⟨rfl, hb⟩).bind (fun _ => ?_)
    refine (tidy_insert hname hb).bind (fun _ => ?_)
    refine (tidy_actEnableName htest hstored hdetectors hname).bind (fun worked => ?_)
    split
    · exact inward_pure true
    · exact tidy_warn_pure _ false

theorem tidy_actInstall {name : Text} (hname : newline ∉ name) {given : Option Binfmt}
    (hgiven : ∀ b, given = some b → OneLined b) :
    Inward s Tidy Tidy Finished (actInstall env name given) := by
  have hmanual := tidy_installUnlessManual htest hstored hdetectors hname hgiven
  have hreplace : Inward s Tidy Tidy Finished (replaceFormat env name given) := by
    refine inward_observe_bind ?_
    split
    · refine (tidy_actDisableName htest hname).bind (fun worked => ?_)
      split
      · exact hmanual
      · exact tidy_warn_pure _ false
    · exact hmanual
  refine (tidy_loadFormat hstored name true).bind (fun _ => inward_recollect_bind (fun m _ => ?_))
  split
  · exact hreplace
  · split
    · exact inward_crash (fun _ h => Or.inl h)
    · split
      · split
        · exact hreplace
        · exact tidy_warn_pure _ false
      · exact inward_crash (fun _ h => Or.inl h)

end Install

section Remove
include htest hstored

/-- The path stands behind all else. -/
theorem finished_actRemove {name : Text} (hname : newline ∉ name) (package : Text) :
    Inward s Tidy Finished Finished (actRemove env name package) := by
  have hwarn : ∀ w value,
      Inward s Tidy Finished Finished (warn w >>= fun _ => pure value : Act Bool) :=
    fun w value => (tidy_warn_pure w value).mono (fun _ h => Or.inl h)
  have hfile : Inward s Tidy Finished Finished (removeFile env name) := by
    rw [removeFile, if_pos htest]
    intro m hm
    exact ⟨rfl, Or.inr ⟨m, .remove name, hm, Or.inr ⟨name, rfl⟩, rfl⟩⟩
  have hformat : Inward s Tidy Finished Finished (removeFormat env name) := by
    refine (tidy_actDisableName htest hname).bind (fun worked => ?_)
    split
    · exact hfile
    · exact hwarn _ false
  refine inward_observe_bind ?_
  split
  · refine (tidy_loadFormat hstored name true).bind (fun _ => inward_recollect_bind ?_)
    intro m _
    split
    · exact hformat
    · split
      · exact inward_crash (fun _ h => Or.inl h)
      · split
        · exact hformat
        · exact hwarn _ true
  · exact hwarn _ true

end Remove

section Import
variable (hdetectors : newline ∉ env.runDetectors)

theorem noNewline_importPath (env : Env) {path : Text} (hpath : newline ∉ path) :
    newline ∉ (importPath env path).2 := by
  rw [importPath]
  split
  · intro hmem
    rw [List.mem_reverse] at hmem
    exact hpath (List.mem_reverse.mp ((List.takeWhile_subset _) hmem))
  · exact hpath

theorem tidy_getImport (path : Text) : Inward s Tidy Tidy Finished (getImport env path) := by
  rw [getImport.eq_def]
  split
  · exact tidy_warn_pure _ none
  · exact Inward.succeeds (inward_pure _) (tidy_warn_pure _ none)

include htest hstored hdetectors

theorem tidy_importRecord {id : Text} (hid : newline ∉ id) (path : Text) (import_ : Arguments) :
    Inward s Tidy Tidy Finished (importRecord env path id import_) := by
  have hinstall : ∀ given, (∀ b, given = some b → OneLined b) →
      Inward s Tidy Tidy Finished (actInstall env id given >>= fun _ => pure true) :=
    fun given hgiven => (tidy_actInstall htest hstored hdetectors hid hgiven).bind
      (fun _ => inward_pure true)
  rw [importRecord]
  split
  · cases hnew : binfmtNew import_ with
    | error value =>
      dsimp only
      split
      · exact (tidy_warn _).bind (fun _ => tidy_quit _)
      · exact tidy_quit _
    | ok made =>
      cases made with
      | error why =>
        have hrejected := (tidy_warn (s := s) (.rejected path why)).bind
          (fun _ => hinstall none (fun _ h => by cases h))
        dsimp only
        split
        · exact (tidy_warn _).bind (fun _ => hrejected)
        · exact hrejected
      | ok b =>
        have hnamed : ∀ c, some b = some c → OneLined c := by
          rintro c ⟨⟩
          exact oneLined_of_binfmtNew hnew
        dsimp only
        split
        · exact (tidy_warn _).bind (fun _ => hinstall (some b) hnamed)
        · exact hinstall (some b) hnamed
  · exact tidy_warn_pure _ false

theorem tidy_actImportName {path : Text} (hpath : newline ∉ path) :
    Inward s Tidy Tidy Finished (actImportName env path) := by
  have hid := noNewline_importPath env hpath
  rw [actImportName]
  dsimp only
  split
  · exact tidy_warn_pure _ false
  · refine (tidy_getImport _).bind (fun table => ?_)
    split
    · exact tidy_warn_pure _ false
    · split
      · exact tidy_warn_pure _ false
      · refine (tidy_loadFormat hstored _ true).bind
          (fun _ => inward_recollect_bind (fun m _ => ?_))
        split
        · exact tidy_importRecord htest hstored hdetectors hid _ _
        · split
          · exact inward_crash (fun _ h => Or.inl h)
          · split
            · exact tidy_warn_pure _ true
            · exact tidy_importRecord htest hstored hdetectors hid _ _

theorem tidy_actImport (himports : ∀ path ∈ env.importNames, newline ∉ path)
    {given : Option Text} (hgiven : ∀ path, given = some path → newline ∉ path) :
    Inward s Tidy Tidy Finished (actImport env given) := by
  have heach : ∀ names : List Text, (∀ path ∈ names, newline ∉ path) →
      Inward s Tidy Tidy Finished (importEach env names) := by
    intro names hnames
    induction names with
    | nil => exact inward_pure true
    | cons path rest ih =>
      have hrest := ih (fun n hn => hnames n (List.mem_cons_of_mem path hn))
      rw [importEach]
      split
      · exact (tidy_actImportName htest hstored hdetectors (hnames path List.mem_cons_self)).bind
          (fun _ => hrest.bind (fun _ => inward_pure _))
      · exact hrest
  cases given with
  | some path => exact tidy_actImportName htest hstored hdetectors (hgiven path rfl)
  | none => exact Inward.succeeds (heach _ himports) (tidy_warn_pure _ false)

end Import
end Actions

section Main

/-- The names that may be printed: that of the command line, those of the import directory and
of the database, and the path of run-detectors. -/
structure OneLineNames (env : Env) (s : Store) (o : Options) : Prop where
  given : ∀ name, o.name = some name → newline ∉ name
  imports : ∀ path ∈ env.importNames, newline ∉ path
  stored : ∀ name, (s.file name).isSome = true → newline ∉ name
  detectors : newline ∉ env.runDetectors

theorem finished_runMode {env : Env} {s : Store} {o : Options} (htest : env.test = true)
    (hmode : Orphans.Changing o) (hnames : OneLineNames env s o) :
    Inward s Tidy Finished Finished (runMode env o) := by
  have hname : newline ∉ o.name.getD [] := by
    cases hgiven : o.name with
    | none => exact List.not_mem_nil
    | some name => exact hnames.given name hgiven
  have htidy : ∀ {p : Act Bool},
      Inward s Tidy Tidy Finished p → Inward s Tidy Finished Finished p :=
    fun hp => hp.mono (fun _ h => Or.inl h)
  rw [runMode]
  rcases hmode with hmode | hmode | hmode | hmode | hmode
  · simp only [hmode]
    refine htidy ?_
    have hinstall : ∀ given, (∀ b, given = some b → OneLined b) →
        Inward s Tidy Tidy Finished (actInstall env (o.name.getD []) given) :=
      fun given => tidy_actInstall htest hnames.stored hnames.detectors hname
    rw [installMode.eq_def]
    cases hnew : binfmtNew (formatArgs o) with
    | error value => exact tidy_quit _
    | ok made =>
      cases made with
      | error why => exact (tidy_warn _).bind (fun _ => hinstall none (fun _ h => by cases h))
      | ok b =>
        refine hinstall (some b) ?_
        rintro c ⟨⟩
        exact oneLined_of_binfmtNew hnew
  · simp only [hmode]
    exact finished_actRemove htest hnames.stored hname (packageOf o)
  · simp only [hmode]
    exact htidy (tidy_actImport htest hnames.stored hnames.detectors hnames.imports hnames.given)
  · simp only [hmode]
    exact htidy (tidy_actEnable htest hnames.stored hnames.detectors hnames.given)
  · simp only [hmode]
    exact htidy (tidy_actDisable htest hnames.stored hnames.given)

theorem finished_exitStatus {s : Store} {p : Act Bool} (hp : Inward s Tidy Finished Finished p) :
    Inward s Tidy Finished Finished (exitStatus p) := by
  refine hp.bind (fun worked => ?_)
  split
  · exact inward_pure ()
  · intro m hm
    rw [run_quit]
    refine ⟨rfl, ?_⟩
    rcases hm with htidy | hlast
    · exact Or.inl ⟨htidy.formats, htidy.answers⟩
    · exact Or.inr hlast

def atEnd (env : Env) (opts : List Opt) (s : Store) : Memory :=
  ((CommandLine.main env opts).run s Memory.fresh).memory

theorem oneLineNames_installed :
    OneLineNames plainEnv emptyStore { Orphans.installParsed with test := true } where
  given := by
    rintro _ ⟨⟩
    decide
  imports := fun path hpath => absurd hpath List.not_mem_nil
  stored := fun name hname => by
    rw [Store.file, emptyStore, AList.lookup_empty] at hname
    cases hname
  detectors := by decide

example : stdout (text "/var/lib/binfmts")
    (atEnd plainEnv (Orphans.installOptions ++ [.test]) emptyStore) =
    ["install the following binary format description:\n",
      "     package = pkg\n", "        type = magic\n", "      offset = 0\n",
      "       magic = AB\n", "        mask = \n", " interpreter = /usr/bin/prog\n",
      "    detector = \n", " credentials = \n", "    preserve = \n", "load binfmt_misc\n",
      "enable prog with the following format string:\n",
      " :prog:M:0:AB::/usr/bin/prog:\n"].flatMap text := by decide +kernel

end Main
end BinfmtSupport.Preview
