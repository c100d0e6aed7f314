import BinfmtSupport.Footprint
import BinfmtSupport.Rejection
import BinfmtSupport.RoundTrip
import Mathlib.Logic.Relation

/-!
What can be relied upon in every stored record. The command line checks the offset and
fixes the type, a format file may say anything; binfmt_new adds the defaults and keeps
mask and offset out of extension formats. None of them asks for a magic or an
interpreter. Files that were written only in part are covered, since such a file loads
only if its first five lines are complete.
-/
namespace BinfmtSupport.WellFormed

open CText Kvhash Format Regstring Journal Stores Actions Loading Enabling Installing
open Footprint Records Rejection RoundTrip CommandLine

section Sources
variable (given : Arguments → Prop)

def Made (b : Binfmt) : Prop := ∃ args, given args ∧ binfmtNew args = .ok (.ok b)

def Traceable (content : List Byte) : Prop :=
  content = [] ∨ ∃ b k, Made given b ∧ content = b.contents.take k

def AllTraceable (s : Store) : Prop :=
  ∀ key content, s.file key = some content → Traceable given content

variable {given}

theorem traceable_contents {b : Binfmt} (h : Made given b) : Traceable given b.contents :=
  Or.inr ⟨b, b.contents.length, h, List.take_length.symm⟩

theorem allTraceable_of_file {s u : Store} (hs : AllTraceable given s)
    (h : ∀ key, u.file key = s.file key ∨ u.file key = none ∨
      ∃ content, u.file key = some content ∧ Traceable given content) :
    AllTraceable given u := by
  intro key content hfile
  rcases h key with hsame | hnone | ⟨content', hsome, htrace⟩
  · rw [hsame] at hfile
    exact hs key content hfile
  · rw [hnone] at hfile
    cases hfile
  · rw [hsome] at hfile
    cases hfile
    exact htrace

theorem allTraceable_of_noFiles {s : Store} {es : List Effect} (hs : AllTraceable given s)
    (h : ∀ e ∈ es, e.files = []) : AllTraceable given (replay es s) := by
  apply allTraceable_of_file hs
  intro key
  left
  simp only [Store.file, admindir_replay_of_noFiles es s h]

end Sources

section FormatFile

/-- What is in the table of a format file was on one of its lines. -/
theorem mem_lines_of_importTable (content : List Byte) {key : Text} {value : Option Text}
    (h : kvhashLookup (importTable content) key = some value) :
    ∃ line ∈ lines newline content, importLine line = (key, value) := by
  have hfold : ∀ (ls : List (List Byte)) (t : Arguments),
      kvhashLookup (ls.foldl (fun t line =>
        kvhashInsert t (importLine line).1 (importLine line).2) t) key = some value →
      kvhashLookup t key = some value ∨ ∃ line ∈ ls, importLine line = (key, value) := by
    intro ls
    induction ls with
    | nil => exact fun t h => Or.inl h
    | cons line rest ih =>
      intro t ht
      rw [List.foldl_cons] at ht
      rcases ih _ ht with hin | ⟨l, hl, heq⟩
      · by_cases hk : key = (importLine line).1
        · rw [hk, kvhashLookup_insert, ← hk] at hin
          cases hold : kvhashLookup t key with
          | none =>
            rw [hold, Option.getD_none] at hin
            refine Or.inr ⟨line, List.mem_cons_self, ?_⟩
            rw [hk, ← Option.some.inj hin]
          | some old =>
            rw [hold, Option.getD_some] at hin
            exact Or.inl hin
        · rw [kvhashLookup_insert_ne hk] at hin
          exact Or.inl hin
      · exact Or.inr ⟨l, List.mem_cons_of_mem line hl, heq⟩
  rcases hfold (lines newline content) ∅ h with hempty | hline
  · rw [kvhashLookup_empty] at hempty
    cases hempty
  · exact hline

/-- Without NUL bytes a value is the end of a trimmed line. -/
theorem clean_of_importLine {line : List Byte} {key value : Text} (hnul : NulFree line)
    (h : importLine line = (key, some value)) : NulFree value ∧ NoTrailingSpace value := by
  have hfree : NulFree (trimRight line) := fun h0 => hnul (trimRight_mem h0)
  simp only [importLine, cstr_eq_self hfree] at h
  split at h
  · cases h
  · rename_i c rest hdrop
    cases h
    have hsuffix : value <:+ trimRight line := by
      have hcons : c :: value <:+ trimRight line := hdrop ▸ List.dropWhile_suffix _
      exact (List.suffix_cons c value).trans hcons
    refine ⟨fun h0 => hfree (hsuffix.mem h0), ?_⟩
    intro d hd
    obtain ⟨front, hfront⟩ := hsuffix
    refine noTrailingSpace_trimRight line d ?_
    rw [← hfront, List.getLast?_append]
    simp [Option.mem_def.mp hd]

theorem clean_of_importTable {content : List Byte} (hnul : NulFree content) {key : String}
    {value : Text} (h : argument (importTable content) key = some value) :
    NulFree value ∧ NoTrailingSpace value := by
  unfold argument at h
  rw [Option.join_eq_some_iff] at h
  obtain ⟨line, hline, heq⟩ := mem_lines_of_importTable content h
  refine clean_of_importLine (fun h0 => hnul ?_) heq
  rw [← flatten_lines newline content]
  exact List.mem_flatten_of_mem hline h0

end FormatFile

section Installation
variable {given : Arguments → Prop} (env : Env)

/-- However an installation ends, each file is as before, gone, or a beginning of the
contents of the record. -/
theorem install_keeps (name : Text) (b : Binfmt) (hb : Made given b) :
    Prog.Keeps (AllTraceable given) (actInstall env name (some b)) := by
  cases htest : env.test with
  | true => exact (silent_actInstall_test env htest name (some b)).keeps
  | false =>
    intro s m hs
    rcases actInstall_cases env htest name b s m with
      ⟨o, m', es, hrun, hes, -⟩ | ⟨m', drop, es, hrun, hdrop, -, hun, -⟩ |
      ⟨o, m', m₁, m₂, drop, es, hrun, hdrop, -, -, -, -, -, hen⟩
    · rw [hrun]
      refine allTraceable_of_noFiles hs ?_
      rcases hes with rfl | rfl <;> simp [Effect.files]
    · rw [hrun]
      change AllTraceable given (replay (drop ++ es) s)
      rw [replay_append]
      have hd := allTraceable_of_noFiles hs hdrop.files
      refine allTraceable_of_file hd (fun key => ?_)
      have hun' := hun.congr hdrop.admindir
      by_cases hk : key = tmpName name
      · cases hun' with
        | untouched => exact Or.inl rfl
        | cleared =>
          rw [file_replay_clearing, if_pos hk]
          exact Or.inr (Or.inl rfl)
        | written k =>
          rw [file_replay_writing, if_pos hk]
          exact Or.inr (Or.inr ⟨_, rfl, Or.inr ⟨b, k, hb, rfl⟩⟩)
      · exact Or.inl (hun'.file key hk)
    · rw [hrun]
      change AllTraceable given (replay (drop ++ (moving s name b ++ es)) s)
      rw [← List.append_assoc, replay_append]
      have hfiles := files_of_actEnableName env htest name
        (replay (drop ++ moving s name b) s) m₁
      rw [hen] at hfiles
      refine allTraceable_of_noFiles (allTraceable_of_file hs (fun key => ?_)) hfiles
      rw [file_replay_dropped_moving hdrop b key]
      split
      · exact Or.inr (Or.inr ⟨_, rfl, traceable_contents hb⟩)
      · split
        · exact Or.inr (Or.inl rfl)
        · exact Or.inl rfl

/-- A rejected record leaves at most an empty file. -/
theorem install_null_keeps (name : Text) :
    Prog.Keeps (AllTraceable given) (actInstall env name none) := by
  cases htest : env.test with
  | true => exact (silent_actInstall_test env htest name none).keeps
  | false =>
    intro s m hs
    have hloss := loss_actInstall_null env name htest s m
    refine allTraceable_of_file hs (fun key => ?_)
    rcases file_replay_of_loss _ key s hloss with hsame | hnone | hempty
    · exact Or.inl hsame
    · exact Or.inr (Or.inl hnone)
    · exact Or.inr (Or.inr ⟨[], hempty, Or.inl rfl⟩)

end Installation

section Importing
variable {given : Arguments → Prop} (env : Env)

theorem importRecord_keeps (path id : Text) {import_ : Arguments} (himport : given import_) :
    Prog.Keeps (AllTraceable given) (importRecord env path id import_) := by
  have hnull : ∀ why, Prog.Keeps (AllTraceable given) (do
      warn (.rejected path why)
      let _ ← actInstall env id none
      return true : Act Bool) := by
    intro why
    refine Prog.Keeps.bind (silent_warn _).keeps (fun _ => ?_)
    exact Prog.Keeps.bind (install_null_keeps env id) (fun _ => (Prog.silent_pure _).keeps)
  have hsome : ∀ b, binfmtNew import_ = .ok (.ok b) →
      Prog.Keeps (AllTraceable given) (do
        let _ ← actInstall env id (some b)
        return true : Act Bool) := by
    intro b hnew
    exact Prog.Keeps.bind (install_keeps env id b ⟨import_, himport, hnew⟩)
      (fun _ => (Prog.silent_pure _).keeps)
  rw [importRecord]
  by_cases hpkg : kvhashExists import_ (text "package") = true
  · rw [if_pos hpkg]
    by_cases hany : (!(argument import_ "interpreter").any env.executable) = true
    · simp only [if_pos hany]
      refine Prog.Keeps.bind (silent_warn _).keeps (fun _ => ?_)
      split
      · exact (silent_quit _).keeps
      · exact hnull _
      · rename_i b hnew
        exact hsome b hnew
    · simp only [if_neg hany]
      split
      · exact (silent_quit _).keeps
      · exact hnull _
      · rename_i b hnew
        exact hsome b hnew
  · rw [if_neg hpkg]
    exact Prog.Keeps.bind (silent_warn _).keeps (fun _ => (Prog.silent_pure _).keeps)

theorem importUnlessLocal_keeps (path id : Text) {import_ : Arguments} (himport : given import_) :
    Prog.Keeps (AllTraceable given) (importUnlessLocal env path id import_) := by
  have hrecord := importRecord_keeps env path id himport
  refine Prog.Keeps.bind (silent_loadFormat env id true).keeps (fun _ => ?_)
  refine Prog.Keeps.bind Prog.silent_recollect.keeps (fun m => ?_)
  split
  · exact hrecord
  · split
    · exact Prog.silent_crash.keeps
    · split
      · exact Prog.Keeps.bind (silent_warn _).keeps (fun _ => (Prog.silent_pure _).keeps)
      · exact hrecord

/-- What act_import reads is the table of a format file. -/
theorem getImport_cases (path : Text) (s : Store) (m : Memory) :
    (∃ m', (getImport env path).run s m = ⟨.returned none, m', []⟩) ∨
    (∃ m' content, env.files path = some content ∧
      (getImport env path).run s m = ⟨.returned (some (importTable content)), m', []⟩) := by
  cases hfile : env.files path with
  | none =>
    left
    refine ⟨m.warned (.unableToOpen path), ?_⟩
    simp only [getImport, hfile]
    rfl
  | some content =>
    have hrun : (getImport env path).run s m = if env.ok m.clock = true then
          ⟨.returned (some (importTable content)), m.tick, []⟩
        else ⟨.returned none, m.tick.warned (.unableToOpen path), []⟩ := by
      simp only [getImport, hfile, run_succeeds_bind]
      split <;> rfl
    rw [hrun]
    split
    · exact Or.inr ⟨_, content, rfl, rfl⟩
    · exact Or.inl ⟨_, rfl⟩

theorem actImportName_keeps (name : Text) (hfile : ∀ content,
    env.files (importPath env name).1 = some content → given (importTable content)) :
    Prog.Keeps (AllTraceable given) (actImportName env name) := by
  rcases hpath : importPath env name with ⟨path, id⟩
  rw [hpath] at hfile
  simp only [actImportName, hpath]
  split
  · exact Prog.Keeps.bind (silent_warn _).keeps (fun _ => (Prog.silent_pure _).keeps)
  · intro s m hs
    have hnothing : Prog.Keeps (AllTraceable given) (do
        warn (.nothingToImport id)
        return false : Act Bool) :=
      Prog.Keeps.bind (silent_warn _).keeps (fun _ => (Prog.silent_pure _).keeps)
    rcases getImport_cases env path s m with ⟨m', hrun⟩ | ⟨m', content, hcontent, hrun⟩
    · rw [Prog.run_bind_returned hrun]
      exact hnothing s m' hs
    · rw [Prog.run_bind_returned hrun]
      simp only [replay_nil, Ran.after_nil]
      split
      · exact hnothing s m' hs
      · exact importUnlessLocal_keeps env path id (hfile content hcontent) s m' hs

theorem actImport_keeps (name : Option Text) (hfiles : ∀ path ∈ imported env name, ∀ content,
    env.files (importPath env path).1 = some content → given (importTable content)) :
    Prog.Keeps (AllTraceable given) (actImport env name) := by
  cases name with
  | some name => exact actImportName_keeps env name (hfiles name List.mem_cons_self)
  | none =>
    have heach : ∀ names, (∀ path ∈ names, path ∈ env.importNames) →
        Prog.Keeps (AllTraceable given) (importEach env names) := by
      intro names
      induction names with
      | nil => exact fun _ => (Prog.silent_pure _).keeps
      | cons path rest ih =>
        intro hmem
        have hrest := ih (fun p hp => hmem p (List.mem_cons_of_mem path hp))
        rw [importEach]
        split
        · refine Prog.Keeps.bind (actImportName_keeps env path
            (hfiles path (hmem path List.mem_cons_self))) (fun worked => ?_)
          exact Prog.Keeps.bind hrest (fun others => (Prog.silent_pure _).keeps)
        · exact hrest
    have hok : Prog.Silent (succeeds env) := by
      intro s m
      rw [run_succeeds]
    refine Prog.Keeps.bind hok.keeps (fun ok => ?_)
    split
    · exact heach env.importNames (fun _ hp => hp)
    · exact Prog.Keeps.bind (silent_warn _).keeps (fun _ => (Prog.silent_pure _).keeps)

end Importing

section Shapes

/-- What a stored record has from its arguments, less the white space at the end of each member.
Of the interpreter there may be a beginning only. -/
structure TakenOver (args : Arguments) (r : Binfmt) : Prop where
  spec : ∃ type, (argument args "type" = some type ∨
      argument args "type" = none ∧ (type = text "magic" ∨ type = text "extension")) ∧
    r.type = readBack type ∧ r.magic = some (readBack ((argument args (magicKey type)).getD []))
  offset : r.offset = readBack (defaultOffset (argument args "offset"))
  interpreter : ∃ t, t <+: (argument args "interpreter").getD [] ∧
    ((argument args "interpreter").getD [] ≠ [] → t ≠ []) ∧ r.interpreter = some (readBack t)

/-- What binfmt_new makes sure of. -/
structure Sound (r : Binfmt) : Prop where
  offset_ne : r.offset ≠ []
  bare : r.type = text "extension" → r.mask = [] ∧ r.offset = text "0"

/-- What it makes sure of together with the command line. -/
structure Checked (r : Binfmt) : Prop extends Sound r where
  type : r.type = text "magic" ∨ r.type = text "extension"
  digits : isWholeNumber r.offset = true

structure Run where
  env : Env
  opts : List Opt

namespace Run

def Installs (run : Run) (o : Options) : Prop :=
  parse run.opts = .ok o ∧ o.mode = some .install

def Imports (run : Run) (content : List Byte) : Prop :=
  ∃ o, parse run.opts = .ok o ∧ o.mode = some .import ∧ ∃ path ∈ imported run.env o.name,
    run.env.files (importPath run.env path).1 = some content

def Gives (run : Run) (args : Arguments) : Prop :=
  (∃ o, run.Installs o ∧ args = formatArgs o) ∨
    ∃ content, run.Imports content ∧ args = importTable content

def Stores (run : Run) : Prop :=
  ∃ o, parse run.opts = .ok o ∧ (o.mode = some .install ∨ o.mode = some .import)

def after (run : Run) (s : Store) : Store :=
  ((CommandLine.main run.env run.opts).run s Memory.fresh).state s

end Run

/-- The record is that of the command line or of a format file of the run. Where the file has a
NUL byte, white space before it is trimmed after the checks only. -/
inductive Guaranteed (run : Run) (r : Binfmt) : Prop
  | commandLine (o : Options) (hinstalls : run.Installs o) (htaken : TakenOver (formatArgs o) r)
      (hchecked : Checked r)
  | formatFile (content : List Byte) (himports : run.Imports content)
      (htaken : TakenOver (importTable content) r) (hsound : NulFree content → Sound r)

theorem readBack_of_clean {t : Text} (h : NulFree t ∧ NoTrailingSpace t) : readBack t = t :=
  (readBack_eq_self_iff h.1).mpr h.2

theorem clean_of_digits {t : Text} (h : isWholeNumber t = true) :
    NulFree t ∧ NoTrailingSpace t := by
  have hdigit : ∀ c ∈ t, 48 ≤ c.toNat ∧ c.toNat ≤ 57 := by
    intro c hc
    exact (CNumber.isdigit_iff c).mp (List.all_eq_true.mp h c hc)
  constructor
  · intro h0
    have hrange := hdigit 0 h0
    simp at hrange
  · intro c hc
    have hrange := hdigit c (List.mem_of_getLast? hc)
    have h32 : c ≠ space := by
      rintro rfl
      simp [space] at hrange
    have h13 : ¬ c ≤ 13 := by
      rw [UInt8.le_iff_toNat_le]
      simp only [UInt8.reduceToNat]
      omega
    simp [isspace, h32, h13]

section Reading
variable {args : Arguments} {b r : Binfmt} {k : ℕ} (hacc : Accepted args b)
  (hload : binfmtLoad (b.contents.take k) = .ok r)
include hacc hload

theorem takenOver_of_load : TakenOver args r := by
  obtain ⟨⟨-, hrtype, hroffset, hrmagic, -⟩, t, hbegin, hne, hrinterp⟩ :=
    binfmtLoad_take_contents b r k hacc.fields_noNewline hload
  refine ⟨⟨b.type, hacc.type_cases, hrtype, ?_⟩, ?_, t, ?_, ?_, hrinterp⟩
  · rw [hrmagic, ← hacc.magic]
    rfl
  · rw [hroffset, ← hacc.offset]
    rfl
  · rw [← hacc.interpreter]
    exact hbegin
  · rw [← hacc.interpreter]
    exact hne

/-- A type and an offset without white space to lose are stored as they were checked. -/
theorem sound_of_load (htype : NulFree b.type ∧ NoTrailingSpace b.type)
    (hoffset : NulFree b.offset ∧ NoTrailingSpace b.offset) :
    Sound r ∧ r.type = b.type ∧ r.offset = b.offset := by
  obtain ⟨⟨-, hrtype, hroffset, -, hrmask⟩, -⟩ :=
    binfmtLoad_take_contents b r k hacc.fields_noNewline hload
  have ht : r.type = b.type := hrtype.trans (readBack_of_clean htype)
  have ho : r.offset = b.offset := hroffset.trans (readBack_of_clean hoffset)
  refine ⟨⟨?_, fun hext => ?_⟩, ht, ho⟩
  · rw [ho, hacc.offset]
    exact defaultOffset_ne _
  · obtain ⟨hmask, hzero⟩ := hacc.bare (ht.symm.trans hext)
    constructor
    · rw [hrmask]
      change readBack b.mask = []
      rw [hacc.mask, hmask]
      rfl
    · rw [ho, hacc.offset, hzero]
      rfl

end Reading

theorem checked_of_load {o : Options} {opts : List Opt} (hparse : parse opts = .ok o)
    {b r : Binfmt} {k : ℕ} (hacc : Accepted (formatArgs o) b)
    (hload : binfmtLoad (b.contents.take k) = .ok r) : Checked r := by
  have htype : b.type = text "magic" ∨ b.type = text "extension" := by
    rcases hacc.type_cases with ht | ⟨-, ht⟩
    · rw [argument_formatArgs_type, Option.some.injEq] at ht
      rw [← ht]
      split
      · exact Or.inl rfl
      · exact Or.inr rfl
    · exact ht
  have hdigits : isWholeNumber b.offset = true := by
    rw [hacc.offset]
    rcases defaultOffset_cases (argument (formatArgs o) "offset") with h0 | ho
    · rw [h0]
      decide
    · rw [argument_formatArgs_offset] at ho ⊢
      exact (checked_of_parse hparse).offset _ ho
  have hclean : NulFree b.type ∧ NoTrailingSpace b.type := by
    rcases htype with ht | ht <;> rw [ht] <;> decide
  obtain ⟨hsound, ht, ho⟩ := sound_of_load hacc hload hclean (clean_of_digits hdigits)
  exact ⟨hsound, ht ▸ htype, ho ▸ hdigits⟩

theorem sound_of_import {content : List Byte} (hnul : NulFree content) {b r : Binfmt} {k : ℕ}
    (hacc : Accepted (importTable content) b)
    (hload : binfmtLoad (b.contents.take k) = .ok r) : Sound r := by
  have htype : NulFree b.type ∧ NoTrailingSpace b.type := by
    rcases hacc.type_cases with ht | ⟨-, ht | ht⟩
    · exact clean_of_importTable hnul ht
    · rw [ht]
      decide
    · rw [ht]
      decide
  have hoffset : NulFree b.offset ∧ NoTrailingSpace b.offset := by
    rw [hacc.offset]
    rcases defaultOffset_cases (argument (importTable content) "offset") with h0 | ho
    · rw [h0]
      decide
    · exact clean_of_importTable hnul ho
  exact (sound_of_load hacc hload htype hoffset).1

/-- Reading a traceable file gives a record with everything that is guaranteed. -/
theorem guaranteed_of_traceable {runs : List Run} {content : List Byte} {r : Binfmt}
    (h : Traceable (fun args => ∃ run ∈ runs, run.Gives args) content)
    (hload : binfmtLoad content = .ok r) : ∃ run ∈ runs, Guaranteed run r := by
  rcases h with rfl | ⟨b, k, ⟨args, ⟨run, hrun, hgives⟩, hnew⟩, rfl⟩
  · cases hload
  · have hacc := accepted_of_binfmtNew hnew
    have htaken := takenOver_of_load hacc hload
    rcases hgives with ⟨o, hinstalls, rfl⟩ | ⟨file, himports, rfl⟩
    · exact ⟨run, hrun, .commandLine o hinstalls htaken (checked_of_load hinstalls.1 hacc hload)⟩
    · exact ⟨run, hrun, .formatFile file himports htaken
        (fun hnul => sound_of_import hnul hacc hload)⟩

end Shapes

section Runs

def afterAll (runs : List Run) (s : Store) : Store := runs.foldl (fun t run => run.after t) s

theorem allTraceable_after {given : Arguments → Prop} {run : Run} (hstores : run.Stores)
    (hgives : ∀ args, run.Gives args → given args) {s : Store} (hs : AllTraceable given s) :
    AllTraceable given (run.after s) := by
  obtain ⟨o, hparse, hmode⟩ := hstores
  rw [Run.after, Ran.state, effects_main hparse]
  have hrun : Prog.Keeps (AllTraceable given) (runMode { run.env with test := o.test } o) := by
    rcases hmode with hmode | hmode
    · simp only [runMode, hmode]
      rw [installMode]
      split
      · exact (silent_quit _).keeps
      · exact Prog.Keeps.bind (silent_warn _).keeps (fun _ => install_null_keeps _ _)
      · rename_i b hnew
        exact install_keeps _ _ b
          ⟨formatArgs o, hgives _ (Or.inl ⟨o, ⟨hparse, hmode⟩, rfl⟩), hnew⟩
    · simp only [runMode, hmode]
      refine actImport_keeps { run.env with test := o.test } o.name ?_
      intro path hpath content hcontent
      exact hgives _ (Or.inr ⟨content, ⟨o, hparse, hmode, path, hpath, hcontent⟩, rfl⟩)
  exact hrun s Memory.fresh hs

theorem allTraceable_afterAll {given : Arguments → Prop} (runs : List Run)
    (hruns : ∀ run ∈ runs, run.Stores ∧ ∀ args, run.Gives args → given args) {s : Store}
    (hs : AllTraceable given s) : AllTraceable given (afterAll runs s) := by
  induction runs generalizing s with
  | nil => exact hs
  | cons run rest ih =>
    obtain ⟨hstores, hgives⟩ := hruns run List.mem_cons_self
    exact ih (fun r hr => hruns r (List.mem_cons_of_mem run hr))
      (allTraceable_after hstores hgives hs)

def plainOptions : List Opt :=
  [.mode .install [text "prog", text "/usr/bin/new"], .magic (text "AB")]

def importOptions (name : Text) : List Opt := [.mode .import [name]]

def fileEnv (name : Text) (content : List Byte) : Env :=
  { plainEnv with
    files := fun path => if path = text "/usr/share/binfmts/" ++ name then some content else none }

def importing (name : Text) (content : List Byte) : Run :=
  ⟨fileEnv name content, importOptions name⟩

theorem stores_importing (name : Text) (content : List Byte) : (importing name content).Stores :=
  ⟨_, rfl, Or.inr rfl⟩

theorem stores_install {args : List Text} {opts : List Opt} {env : Env} {o : Options}
    (h : parse (.mode .install args :: opts) = .ok o) (hmode : o.mode = some .install) :
    Run.Stores ⟨env, .mode .install args :: opts⟩ := ⟨o, h, Or.inl hmode⟩

/-- A record that needs no second look: every field is what its reader expects. -/
def IsWellFormed (r : Binfmt) : Prop :=
  (r.type = text "magic" ∨ r.type = text "extension") ∧ r.magic.getD [] ≠ [] ∧
    r.interpreter.getD [] ≠ [] ∧ r.offset ≠ [] ∧ isWholeNumber r.offset = true ∧
    (r.type = text "extension" → r.mask = [] ∧ r.offset = text "0")

def emptyOptions : List Opt :=
  [.mode .install [text "prog", text ""], .magic (text "")]

/-- A type and an offset that are neither checked nor usual. -/
def oddContent : List Byte := text "package pkg\ntype foo\noffset x\n"

/-- The NUL byte keeps get_import from trimming the space before it. -/
def nulContent : List Byte :=
  text "package pkg\ntype extension " ++ [0] ++ text "\nmagic foo\nmask ff\noffset 5\n"

end Runs
end BinfmtSupport.WellFormed
