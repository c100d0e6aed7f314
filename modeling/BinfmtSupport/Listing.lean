import BinfmtSupport.CommandLine
import BinfmtSupport.Reports
import BinfmtSupport.Reloading
import BinfmtSupport.Steady
import BinfmtSupport.Isolation
import BinfmtSupport.Sweeping

/-!
The listing of --display. Each format that is stored takes eight lines of standard output: its
name with its state in the kernel, and seven members of its record. The whole listing can be
read back; it has every stored format once, or the process has said why it ended.
-/
namespace BinfmtSupport.Listing

open CText Kvhash Format Regstring Journal Stores Actions CommandLine
open Loading Records Reloading Reports Steady Isolation Sweeping

section Texts

/-- One format of the listing, as act_display has it. -/
structure Report where
  name : Text
  enabled : Bool
  package : Text
  binfmt : Binfmt

def Report.answer (r : Report) : Answer := .display r.name r.enabled r.package r.binfmt

def displayLabels : List Text :=
  [[], text "     package = ", text "        type = ", text "      offset = ",
    text "       magic = ", text "        mask = ", text " interpreter = ",
    text "    detector = "]

/-- "%s (%s):" -/
def heading (name : Text) (enabled : Bool) : Text :=
  name ++ (if enabled then text " (enabled):" else text " (disabled):")

def Report.text (r : Report) : Text :=
  printLines newline displayLabels [heading r.name r.enabled, r.package, r.binfmt.type,
    r.binfmt.offset, printed r.binfmt.magic, r.binfmt.mask, printed r.binfmt.interpreter,
    printed r.binfmt.detector]

structure Listed where
  name : Text
  enabled : Bool
  package : Text
  type : Text
  offset : Text
  magic : Text
  mask : Text
  interpreter : Text
  detector : Text
deriving DecidableEq

def Report.listed (r : Report) : Listed :=
  ⟨r.name, r.enabled, r.package, r.binfmt.type, r.binfmt.offset, printed r.binfmt.magic,
    r.binfmt.mask, printed r.binfmt.interpreter, printed r.binfmt.detector⟩

def Listed.lines (l : Listed) : List Text :=
  [heading l.name l.enabled, l.package, l.type, l.offset, l.magic, l.mask, l.interpreter,
    l.detector]

def readHeading (t : Text) : Option (Text × Bool) :=
  if text " (enabled):" <:+ t then some (t.take (t.length - 11), true)
  else if text " (disabled):" <:+ t then some (t.take (t.length - 12), false)
  else none

def listedOf : List Text → Option Listed
  | [first, package, type, offset, magic, mask, interpreter, detector] =>
      (readHeading first).map (fun x =>
        ⟨x.1, x.2, package, type, offset, magic, mask, interpreter, detector⟩)
  | _ => none

def readListed (t : Text) : Option (Listed × Text) :=
  readAs listedOf (takeLines newline displayLabels) t

theorem readHeading_heading (name : Text) (enabled : Bool) :
    readHeading (heading name enabled) = some (name, enabled) := by
  cases enabled with
  | true =>
    rw [readHeading, heading, if_pos rfl, if_pos (List.suffix_append name _), List.length_append]
    simp [text]
  | false =>
    -- the last ten characters differ
    have hother : ¬ text " (enabled):" <:+ name ++ text " (disabled):" := by
      intro h
      have hlength : (text " (enabled):").length ≤ (text " (disabled):").length := by decide
      have hend := List.suffix_of_suffix_length_le h (List.suffix_append name _) hlength
      exact absurd hend (by decide)
    rw [readHeading, heading, if_neg Bool.false_ne_true, if_neg hother,
      if_pos (List.suffix_append name _), List.length_append]
    simp [text]

theorem readsBack_listed : ReadsBack (fun l : Listed => ∀ value ∈ l.lines, newline ∉ value)
    (fun l => printLines newline displayLabels l.lines) readListed := by
  refine (readsBack_lines newline displayLabels).readAs (fun l hl => ⟨⟨rfl, hl⟩, ?_⟩)
  rw [Listed.lines, listedOf, readHeading_heading]
  rfl

/-- The text that tests/display compares with. -/
example : (Report.mk (text "test-magic") true (text "<local>")
    ⟨some [colon], text "magic", text "0", some (text "ABCD"), [],
      some (text "/bin/sh"), some [], some [], some []⟩).text =
    text (String.join ["test-magic (enabled):\n", "     package = <local>\n",
      "        type = magic\n", "      offset = 0\n", "       magic = ABCD\n",
      "        mask = \n", " interpreter = /bin/sh\n", "    detector = \n"]) := by
  decide +kernel

end Texts

section Fields

theorem readLine_noNewline {field : String} {optional : Bool} {ls rest : List (List Byte)}
    {t : Text} (h : readLine field optional ls = .ok (t, rest))
    (hls : ∀ line ∈ ls, NoNewline (trimRight line)) :
    NoNewline t ∧ ∀ line ∈ rest, NoNewline (trimRight line) := by
  cases ls with
  | nil =>
    cases optional with
    | true =>
      cases h
      exact ⟨List.not_mem_nil, hls⟩
    | false => cases h
  | cons line more =>
    cases h
    refine ⟨fun hm => hls line List.mem_cons_self (cstr_mem hm), ?_⟩
    exact fun l hl => hls l (List.mem_cons_of_mem line hl)

/-- No member of a record that was loaded is missing, or has more than one line. -/
theorem oneLine_of_binfmtLoad {content : List Byte} {b : Binfmt} (h : binfmtLoad content = .ok b) :
    ∀ field ∈ b.fields, ∃ t, field = some t ∧ newline ∉ t := by
  have hlines : ∀ line ∈ lines newline content, NoNewline (trimRight line) :=
    fun line hline => noNewline_line hline
  simp only [binfmtLoad, except_bind_eq_ok] at h
  obtain ⟨⟨p, r₁⟩, h₁, ⟨t, r₂⟩, h₂, ⟨o, r₃⟩, h₃, ⟨g, r₄⟩, h₄, ⟨k, r₅⟩, h₅, ⟨i, r₆⟩, h₆, ⟨d, r₇⟩,
    h₇, ⟨c, r₈⟩, h₈, ⟨v, r₉⟩, h₉, h⟩ := h
  cases h
  obtain ⟨hp, hr⟩ := readLine_noNewline h₁ hlines
  obtain ⟨ht, hr⟩ := readLine_noNewline h₂ hr
  obtain ⟨ho, hr⟩ := readLine_noNewline h₃ hr
  obtain ⟨hg, hr⟩ := readLine_noNewline h₄ hr
  obtain ⟨hk, hr⟩ := readLine_noNewline h₅ hr
  obtain ⟨hi, hr⟩ := readLine_noNewline h₆ hr
  obtain ⟨hd, hr⟩ := readLine_noNewline h₇ hr
  obtain ⟨hc, hr⟩ := readLine_noNewline h₈ hr
  obtain ⟨hv, -⟩ := readLine_noNewline h₉ hr
  have hall : ∀ x ∈ [p, t, o, g, k, i, d, c, v], newline ∉ x := by
    simp only [List.forall_mem_cons, List.not_mem_nil, false_implies, implies_true, and_true]
    exact ⟨hp, ht, ho, hg, hk, hi, hd, hc, hv⟩
  intro field hfield
  obtain ⟨x, hx, rfl⟩ : ∃ x ∈ [p, t, o, g, k, i, d, c, v], some x = field :=
    List.mem_map.mp hfield
  exact ⟨x, rfl, hall x hx⟩

structure Shows (s : Store) (r : Report) : Prop where
  record : s.record r.name = some r.binfmt
  enabled : r.enabled = s.kernel.procExists r.name
  package : ∃ package, r.binfmt.package = some package ∧ r.package = shownPackage package

theorem binfmtLoad_of_record {s : Store} {name : Text} {b : Binfmt} (h : s.record name = some b) :
    ∃ content, binfmtLoad content = .ok b := by
  cases hfile : s.file name with
  | none =>
    rw [record_of_missing hfile] at h
    cases h
  | some content =>
    rw [record_of_file hfile] at h
    cases hload : binfmtLoad content with
    | error field =>
      rw [hload] at h
      cases h
    | ok b' =>
      rw [hload] at h
      cases h
      exact ⟨content, hload⟩

theorem newline_notMem_shownPackage {package : Text} (h : newline ∉ package) :
    newline ∉ shownPackage package := by
  unfold shownPackage
  split
  · decide
  · exact h

theorem newline_notMem_printed {argument : Option Text}
    (h : ∃ t, argument = some t ∧ newline ∉ t) : newline ∉ printed argument := by
  obtain ⟨t, rfl, ht⟩ := h
  exact ht

/-- A report takes eight lines. -/
theorem Shows.readable {s : Store} {r : Report} (h : Shows s r) (hname : newline ∉ r.name) :
    ∀ value ∈ r.listed.lines, newline ∉ value := by
  obtain ⟨content, hload⟩ := binfmtLoad_of_record h.record
  have hfields := oneLine_of_binfmtLoad hload
  simp only [Binfmt.fields, List.forall_mem_cons] at hfields
  obtain ⟨⟨p, hp, hpfree⟩, ⟨t, ht, htfree⟩, ⟨o, ho, hofree⟩, hmagic, ⟨k, hk, hkfree⟩,
    hinterpreter, hdetector, -⟩ := hfields
  obtain ⟨package, hpackage, hshown⟩ := h.package
  rw [hpackage, Option.some.injEq] at hp
  subst hp
  have hheading : newline ∉ heading r.name r.enabled := by
    rw [heading, List.mem_append, not_or]
    refine ⟨hname, ?_⟩
    split
    · decide
    · decide
  cases ht
  cases ho
  cases hk
  simp only [Listed.lines, Report.listed, List.forall_mem_cons, List.not_mem_nil, false_implies,
    implies_true, and_true]
  exact ⟨hheading, hshown ▸ newline_notMem_shownPackage hpfree, htfree, hofree,
    newline_notMem_printed hmagic, hkfree, newline_notMem_printed hinterpreter,
    newline_notMem_printed hdetector⟩

end Fields

section Runs
variable (env : Env) {s : Store}

/-- A call has failed until then, or a file holds no record. -/
def Unreadable (s : Store) (time : ℕ) : Prop :=
  (∃ earlier < time, env.ok earlier = false) ∨ ∃ name, ¬ Intact s name

/-- The store stays as it is, and a run that ends early has its reason. -/
def Explained {α : Type} (s : Store) (p : Act α) : Prop :=
  ∀ m, (p.run s m).effects = [] ∧
    ∀ status, (p.run s m).outcome = .exited status → Unreadable env s (p.run s m).memory.clock

variable {env}

theorem Explained.bind {α β : Type} {p : Act α} {f : α → Act β} (hp : Explained env s p)
    (hf : ∀ a, Explained env s (f a)) : Explained env s (p >>= f) := by
  intro m
  have hfirst := hp m
  rcases hrun : p.run s m with ⟨out, m₁, es⟩
  rw [hrun] at hfirst
  obtain ⟨hnone, hwhy⟩ := hfirst
  change es = [] at hnone
  subst hnone
  cases out with
  | returned a =>
    rw [Prog.run_bind_returned hrun, replay_nil, Ran.after_nil]
    exact hf a m₁
  | exited status =>
    rw [Prog.run_bind_exited hrun]
    exact ⟨rfl, fun _ _ => hwhy status rfl⟩
  | crashed =>
    rw [Prog.run_bind_crashed hrun]
    exact ⟨rfl, fun _ h => by cases h⟩

theorem explained_pure {α : Type} (a : α) : Explained env s (pure a : Act α) :=
  fun _ => ⟨rfl, fun _ h => by cases h⟩

/-- What can fail is a call that has then been made. -/
theorem explained_succeeds {α : Type} {p : Act α} {w : Warning} (hp : Explained env s p) :
    Explained env s (do if ← succeeds env then p else quit w : Act α) := by
  intro m
  rw [run_succeeds_bind]
  cases hok : env.ok m.clock with
  | true => exact hp m.tick
  | false => exact ⟨rfl, fun _ _ => Or.inl ⟨m.clock, Nat.lt_succ_self _, hok⟩⟩

theorem explained_loadFormat (name : Text) (quiet : Bool) :
    Explained env s (loadFormat env name quiet) := by
  intro m
  rw [loadFormat, Prog.run_observe_bind]
  cases hfile : s.file name with
  | none => exact explained_pure () m
  | some content =>
    refine explained_succeeds (s := s) (fun m => ?_) m
    cases hload : binfmtLoad content with
    | ok format => exact ⟨rfl, fun _ h => by cases h⟩
    | error field =>
      cases quiet with
      | true => exact explained_pure () m
      | false =>
        refine ⟨rfl, fun _ _ => Or.inr ⟨name, fun hintact => ?_⟩⟩
        have hrecord := hintact (by rw [hfile]; rfl)
        rw [record_of_file hfile, hload] at hrecord
        cases hrecord

theorem explained_loadFormats (quiet : Bool) (names : List Text) :
    Explained env s (loadFormats env quiet names) := by
  induction names with
  | nil => exact explained_pure ()
  | cons name rest ih => exact (explained_loadFormat name quiet).bind (fun _ => ih)

theorem explained_loadAllFormats (quiet : Bool) : Explained env s (loadAllFormats env quiet) :=
  explained_succeeds (fun m => explained_loadFormats quiet (env.readdir s.admindir) m)

theorem explained_actDisplayName (name : Text) : Explained env s (actDisplayName env name) := by
  refine (explained_loadFormat name false).bind (fun _ m => ?_)
  rw [Prog.run_recollect_bind]
  cases kvhashLookup m.formats name with
  | none => exact ⟨rfl, fun _ h => by cases h⟩
  | some binfmt =>
    dsimp only
    rw [Prog.run_observe_bind]
    cases binfmt.package with
    | none => exact ⟨rfl, fun _ h => by cases h⟩
    | some package => exact ⟨rfl, fun _ h => by cases h⟩

theorem explained_displayEach (names : List Text) : Explained env s (displayEach env names) := by
  induction names with
  | nil => exact explained_pure ()
  | cons name rest ih => exact (explained_actDisplayName name).bind (fun _ => ih)

theorem explained_actDisplay (env : Env) (s : Store) : Explained env s (actDisplay env none) := by
  refine (explained_loadAllFormats false).bind (fun _ m => ?_)
  rw [Prog.run_recollect_bind]
  exact (explained_displayEach (env.walk m.formats)).bind (fun _ => explained_pure true) m

variable (env)

theorem run_actDisplayName {m : Memory} {name : Text} {b : Binfmt}
    (hloaded : ∀ key, kvhashLookup m.formats key = s.record key)
    (hrecord : s.record name = some b) :
    (∃ m', (actDisplayName env name).run s m = ⟨.exited 2, m', []⟩) ∨
    ∃ m' r, (actDisplayName env name).run s m = ⟨.returned true, m', []⟩ ∧
      m'.answers = m.answers ++ [r.answer] ∧ r.name = name ∧ Shows s r ∧
      ∀ key, kvhashLookup m'.formats key = s.record key := by
  have hleaves := leaves_loadFormat env name false s m
  rcases loadFormat_cases env name false s m with
    ⟨m₁, hrun, hformats, -⟩ | ⟨m₁, hrun, -⟩
  · right
    rw [hrun] at hleaves
    have hlook : ∀ key, kvhashLookup m₁.formats key = s.record key := by
      intro key
      rw [hformats, lookup_remembered, hloaded]
      by_cases hkey : key = name
      · rw [if_pos hkey, hkey, Option.or_self]
      · rw [if_neg hkey, Option.or_none]
    obtain ⟨content, hload⟩ := binfmtLoad_of_record hrecord
    obtain ⟨package, hpackage, -⟩ := oneLine_of_binfmtLoad hload b.package List.mem_cons_self
    refine ⟨{ m₁ with answers := m₁.answers ++ [.display name (s.kernel.procExists name)
      (shownPackage package) b] }, ⟨name, s.kernel.procExists name, shownPackage package, b⟩, ?_,
      congrArg (· ++ _) hleaves, rfl, ⟨hrecord, rfl, package, hpackage, rfl⟩, hlook⟩
    rw [actDisplayName, Prog.run_bind_returned hrun, Prog.run_recollect_bind]
    simp only [hlook, hrecord, replay_nil, Prog.run_observe_bind, hpackage]
    rfl
  · left
    exact ⟨m₁, by rw [actDisplayName, Prog.run_bind_exited hrun]⟩

theorem run_displayEach {names : List Text} (hnames : ∀ name ∈ names, (s.record name).isSome = true)
    {m : Memory} (hloaded : ∀ key, kvhashLookup m.formats key = s.record key) :
    (∃ m', (displayEach env names).run s m = ⟨.exited 2, m', []⟩) ∨
    ∃ (m' : Memory) (rs : List Report), (displayEach env names).run s m = ⟨.returned (), m', []⟩ ∧
      m'.answers = m.answers ++ rs.map Report.answer ∧ rs.map Report.name = names ∧
      ∀ r ∈ rs, Shows s r := by
  induction names generalizing m with
  | nil => exact Or.inr ⟨m, [], rfl, (List.append_nil _).symm, rfl, by simp⟩
  | cons name rest ih =>
    obtain ⟨b, hb⟩ := Option.isSome_iff_exists.mp (hnames name List.mem_cons_self)
    rcases run_actDisplayName env hloaded hb with
      ⟨m₁, hrun⟩ | ⟨m₁, r, hrun, hanswers, hname, hshows, hlook⟩
    · left
      exact ⟨m₁, by rw [displayEach, Prog.run_bind_exited hrun]⟩
    · have hstep : (displayEach env (name :: rest)).run s m = (displayEach env rest).run s m₁ := by
        rw [displayEach, Prog.run_bind_returned hrun]
        rfl
      rcases ih (fun n hn => hnames n (List.mem_cons_of_mem name hn)) hlook with
        ⟨m₂, hrest⟩ | ⟨m₂, rs, hrest, hanswers₂, hnames₂, hshows₂⟩
      · exact Or.inl ⟨m₂, hstep.trans hrest⟩
      · refine Or.inr ⟨m₂, r :: rs, hstep.trans hrest, ?_, ?_, List.forall_mem_cons.mpr
          ⟨hshows, hshows₂⟩⟩
        · rw [hanswers₂, hanswers, List.append_assoc]
          rfl
        · rw [List.map_cons, hname, hnames₂]

/-- A loop over the loaded table goes through the names of the files. -/
theorem walk_perm_intact (hintact : ∀ name, Intact s name) {t : Table Text Binfmt}
    (h : ∀ key, kvhashLookup t key = s.record key) : (env.walk t).Perm s.admindir.keys := by
  refine (env.walk_perm t).trans ?_
  rw [List.perm_ext_iff_of_nodup t.keys_nodup s.admindir.keys_nodup]
  intro name
  rw [← isSome_file_iff]
  change name ∈ t ↔ _
  rw [← AList.lookup_isSome]
  change (kvhashLookup t name).isSome = true ↔ _
  rw [h name]
  refine ⟨fun hsome => ?_, hintact name⟩
  by_contra hnone
  rw [record_of_missing (by simpa using hnone)] at hsome
  cases hsome

theorem run_actDisplay (s : Store) :
    (∃ m, (actDisplay env none).run s Memory.fresh = ⟨.exited 2, m, []⟩ ∧
      Unreadable env s m.clock) ∨
    ∃ (m : Memory) (rs : List Report),
      (actDisplay env none).run s Memory.fresh = ⟨.returned true, m, []⟩ ∧
      m.answers = rs.map Report.answer ∧ (rs.map Report.name).Perm s.admindir.keys ∧
      ∀ r ∈ rs, Shows s r := by
  have hleaves := leaves_loadAllFormats env false s Memory.fresh
  have hwhy : ∀ m es, (actDisplay env none).run s Memory.fresh = ⟨.exited 2, m, es⟩ →
      Unreadable env s m.clock := by
    intro m es hrun
    have hexplained := (explained_actDisplay env s Memory.fresh).2
    rw [hrun] at hexplained
    exact hexplained 2 rfl
  rcases loadAllFormats_cases env false s Memory.fresh with
    ⟨m₁, hload, hlook, hquiet⟩ | ⟨m₁, hload, -⟩
  · have hintact := hquiet.resolve_left Bool.false_ne_true
    have hlook' : ∀ key, kvhashLookup m₁.formats key = s.record key := by
      intro key
      rw [hlook]
      exact visible_empty s key
    have hwalk := walk_perm_intact env hintact hlook'
    have hrecord : ∀ name ∈ env.walk m₁.formats, (s.record name).isSome = true :=
      fun name hname => hintact name ((isSome_file_iff s name).mpr (hwalk.mem_iff.mp hname))
    rcases run_displayEach env hrecord hlook' with
      ⟨m₂, hrun⟩ | ⟨m₂, rs, hrun, hanswers, hmap, hshows⟩
    · have hend : (actDisplay env none).run s Memory.fresh = ⟨.exited 2, m₂, []⟩ := by
        rw [actDisplay, Prog.run_bind_returned hload, Prog.run_recollect_bind, replay_nil,
          Prog.run_bind_exited hrun, Ran.after_mk, List.append_nil]
      exact Or.inl ⟨m₂, hend, hwhy m₂ [] hend⟩
    · refine Or.inr ⟨m₂, rs, ?_, ?_, hmap ▸ hwalk, hshows⟩
      · rw [actDisplay, Prog.run_bind_returned hload, Prog.run_recollect_bind, replay_nil,
          Prog.run_bind_returned hrun]
        rfl
      · rw [hload] at hleaves
        rw [hanswers, show m₁.answers = Memory.fresh.answers from hleaves]
        rfl
  · have hend : (actDisplay env none).run s Memory.fresh = ⟨.exited 2, m₁, []⟩ := by
      rw [actDisplay, Prog.run_bind_exited hload]
    exact Or.inl ⟨m₁, hend, hwhy m₁ [] hend⟩

theorem readAll_reports {rs : List Report} (hshows : ∀ r ∈ rs, Shows s r)
    (hnames : ∀ r ∈ rs, newline ∉ r.name) :
    readAll readListed (rs.flatMap Report.text) = some (rs.map Report.listed) := by
  have hfree : ∀ l ∈ rs.map Report.listed, ∀ value ∈ l.lines, newline ∉ value := by
    intro l hl
    obtain ⟨r, hr, rfl⟩ := List.mem_map.mp hl
    exact (hshows r hr).readable (hnames r hr)
  have hne : ∀ l : Listed, (∀ value ∈ l.lines, newline ∉ value) →
      printLines newline displayLabels l.lines ≠ [] := by
    intro l _
    rw [Listed.lines, displayLabels, printLines_cons]
    simp
  have hread := readsBack_listed.readAll hne hfree
  rwa [List.flatMap_map] at hread

end Runs

end BinfmtSupport.Listing
