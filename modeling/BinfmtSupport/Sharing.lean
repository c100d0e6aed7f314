import BinfmtSupport.AllFormats
import BinfmtSupport.Registry
import BinfmtSupport.Rejection

/-!
Formats that share a spec. act_enable decides between an interpreter and run-detectors
once, from the database as it is when the line is written, and the database changes
afterwards. The kernel is a registry in which run-detectors is the arbiter. The order of
registration carries the argument: a format is compared with everything stored when it is
registered, and a name that becomes stored later has no entry yet, unless the entries are
hidden, and then it is the only stored name among them.
-/
namespace BinfmtSupport.Sharing

open CText Kvhash Format Regstring Journal Stores Actions Loading Enabling Installing
open Records Rejection AllFormats Registry CommandLine

section Specs

/-- What binfmt_equals compares, and what the kernel matches files with. -/
structure Spec where
  type : Text
  offset : Text
  magic : Text
  mask : Text
deriving DecidableEq

def specOf (b : Binfmt) : Spec := ⟨b.type, b.offset, b.magic.getD [], b.mask⟩

def Spec.shown (k : Spec) : Spec :=
  { k with type := if k.type = text "magic" then text "M" else text "E" }

def entrySpec (e : Entry) : Spec := ⟨e.type, e.offset, e.magic, e.mask⟩

def item (e : Entry) : Registered Text Spec Text := ⟨e.name, entrySpec e, e.interpreter⟩

def known (s : Store) (name : Text) : Option Spec := (s.record name).map specOf

/-- A record whose line the kernel splits as it was meant. -/
structure Clean (b : Binfmt) : Prop where
  magic : b.magic.isSome = true
  offset_colon : colon ∉ b.offset
  magic_colon : colon ∉ b.magic.getD []
  mask_colon : colon ∉ b.mask
  interpreter_colon : colon ∉ b.interpreter.getD []

/-- The code's comparison finds any two records with one spec. -/
theorem binfmtEquals_of_specOf {a b : Binfmt} (ha : Clean a) (hb : Clean b)
    (h : specOf b = specOf a) : binfmtEquals a b = some true := by
  obtain ⟨x, hx⟩ := Option.isSome_iff_exists.mp ha.magic
  obtain ⟨y, hy⟩ := Option.isSome_iff_exists.mp hb.magic
  simp only [specOf, Spec.mk.injEq, hx, hy, Option.getD_some] at h
  obtain ⟨htype, hoffset, hmagic, hmask⟩ := h
  simp [binfmtEquals, htype, hoffset, hx, hy, hmagic, hmask]

theorem printed_noColon {t : Option Text} (h : colon ∉ t.getD []) : colon ∉ printed t := by
  cases t with
  | none => decide
  | some t => exact h

/-- What the kernel registers for a clean record, under a name that was free. -/
theorem item_of_accepted (env : Env) {k : Kernel} {name : Text} {b : Binfmt}
    {interpreter : Option Text} {e : Entry} (hb : Clean b) (hname : colon ∉ name)
    (hinterp : colon ∉ interpreter.getD [])
    (hacc : accepted env k (registrationOf name b interpreter) = some e) :
    item e = ⟨name, (specOf b).shown, printed interpreter⟩ ∧ k.procExists name = false := by
  have hplain : NoColon (registrationOf name b interpreter) :=
    ⟨hname, hb.offset_colon, printed_noColon hb.magic_colon, hb.mask_colon,
      printed_noColon hinterp⟩
  rw [accepted, entryOf_decodeLine _ hplain] at hacc
  obtain ⟨magic, hmagic⟩ := Option.isSome_iff_exists.mp hb.magic
  by_cases hfree : (!k.procExists name) = true
  · simp only [registrationOf, hmagic] at hacc
    split at hacc
    · cases hacc
      refine ⟨?_, by simpa using hfree⟩
      simp only [item, entrySpec, Spec.shown, specOf, Registration.typeLetter, hmagic,
        decide_eq_true_eq]
      rfl
    · cases hacc
  · simp [registrationOf, hfree] at hacc

end Specs

section Invariant

/-- What the runs build on, as long as no name becomes stored while entries are hidden. -/
structure Settled (detectors : Text) (s : Store) : Prop where
  guarded : Guarded detectors Spec.shown (known s) (s.kernel.entries.map item)
  plain : ∀ e ∈ s.kernel.entries,
    isDirectoryName e.name = false ∧ isControlName e.name = false
  mountable : s.kernel.entries ≠ [] → Mountable s.kernel.mount
  clean : ∀ key r, s.record key = some r → Clean r ∧ colon ∉ key

/-- Between two runs entries are hidden only if none of their names is stored. -/
structure Sound (detectors : Text) (s : Store) : Prop extends Settled detectors s where
  hidden : s.kernel.hasRegister = false → ∀ e ∈ s.kernel.entries, s.record e.name = none

def Agrees (s : Store) (m : Memory) : Prop :=
  ∀ key b, visible s m.formats key = some b → Clean b ∧ known s key = some (specOf b)

variable {detectors : Text} {s : Store}

theorem known_congr {u : Store} (h : u.admindir = s.admindir) : known u = known s := by
  funext name
  have hfile : u.file name = s.file name := by simp only [Store.file, h]
  rw [known, record_congr hfile]
  rfl

theorem known_eq_some {name : Text} {k : Spec} (h : known s name = some k) :
    ∃ r, s.record name = some r ∧ specOf r = k := Option.map_eq_some_iff.mp h

theorem Settled.agrees_fresh (h : Settled detectors s) : Agrees s Memory.fresh := by
  intro key b hb
  have hrecord : s.record key = some b := by
    simpa [visible, Memory.fresh] using hb
  exact ⟨(h.clean key b hrecord).1, by rw [known, hrecord]; rfl⟩

theorem Agrees.congr {u : Store} {m m' : Memory} (h : Agrees s m)
    (hadm : u.admindir = s.admindir) (hview : SameView s m.formats m'.formats) :
    Agrees u m' := by
  intro key b hb
  rw [visible_congr hadm, hview] at hb
  rw [known_congr hadm]
  exact h key b hb

/-- Taking something away leaves nothing to decide that was not decided. -/
theorem Sound.loss (h : Sound detectors s) {es : List Effect}
    (hloss : ∀ e ∈ es, e.isLoss = true) : Sound detectors (replay es s) := by
  have hentries := entries_replay_of_loss es s hloss
  have hmount := mount_replay_of_loss es s hloss
  refine ⟨⟨?_, ?_, ?_, ?_⟩, ?_⟩
  · refine h.guarded.fewer (hentries.map item) ?_
    intro i _ k hk
    obtain ⟨r, hr, hspec⟩ := known_eq_some hk
    rw [known, record_replay_of_loss hloss hr, ← hspec]
    rfl
  · intro e he
    exact h.plain e (hentries.subset he)
  · intro hne
    rw [hmount]
    refine h.mountable ?_
    rintro hnil
    rw [hnil, List.sublist_nil] at hentries
    exact hne hentries
  · intro key r hr
    exact h.clean key r (record_replay_of_loss hloss hr)
  · intro hreg e he
    rw [hasRegister_congr hmount] at hreg
    have hnone := h.hidden hreg e (hentries.subset he)
    by_contra hsome
    obtain ⟨r, hr⟩ := Option.ne_none_iff_exists'.mp hsome
    rw [record_replay_of_loss hloss hr] at hnone
    cases hnone

/-- Making the module available shows the entries again. -/
theorem Settled.setup (h : Settled detectors s) {es : List Effect}
    (hset : ∀ e ∈ es, e.isSetup = true)
    (hshown : s.kernel.entries ≠ [] → (replay es s).kernel.hasRegister = true) :
    Sound detectors (replay es s) := by
  have hentries := entries_replay_of_setup es s hset
  have hadm := admindir_replay_of_setup es s hset
  have hrecord : ∀ key, (replay es s).record key = s.record key :=
    fun key => record_congr (by simp only [Store.file, hadm])
  refine ⟨⟨?_, ?_, ?_, ?_⟩, ?_⟩
  · rw [hentries, known_congr hadm]
    exact h.guarded
  · rw [hentries]
    exact h.plain
  · rw [hentries]
    exact fun hne => mountable_of_hasRegister (hshown hne)
  · intro key r hr
    rw [hrecord] at hr
    exact h.clean key r hr
  · intro hreg e he
    rw [hentries] at he
    have hvisible := hshown (List.ne_nil_of_mem he)
    rw [hreg] at hvisible
    cases hvisible

/-- Entries may be hidden once no stored name has one. -/
theorem Sound.umount (h : Sound detectors s) (hstyle : filesystemStyle s.kernel.mount = true)
    (hgone : s.kernel.hasRegister = true → ∀ e ∈ s.kernel.entries, s.record e.name = none) :
    Sound detectors (Effect.umount.apply s) := by
  refine ⟨⟨h.guarded, h.plain, ?_, h.clean⟩, ?_⟩
  · intro hne
    exact ⟨(h.mountable hne).1, Or.inr hstyle⟩
  · intro _ e he
    cases hreg : s.kernel.hasRegister with
    | true => exact hgone hreg e he
    | false => exact h.hidden hreg e he

end Invariant

section Enable
variable {env : Env} {detectors : Text} {s : Store}

/-- A new entry is compared with everything stored at this moment. -/
theorem Settled.register (h : Settled detectors s) (hdet : env.runDetectors = detectors)
    (hcolon : colon ∉ detectors) (hreg : s.kernel.hasRegister = true) {m : Memory}
    (hagree : Agrees s m) {name : Text} (hname : colon ∉ name) {b : Binfmt} {d : Bool}
    (hb : visible s m.formats name = some b)
    (hd : d = true ↔ NeedsDetector s m.formats name b) {r : Registration} {e : Entry}
    (hacc : accepted env s.kernel (registrationOf name b (chooseInterpreter env b d)) = some e) :
    Sound detectors ((Effect.register r e).apply s) := by
  obtain ⟨hclean, hknown⟩ := hagree name b hb
  have hinterp : colon ∉ (chooseInterpreter env b d).getD [] := by
    cases d with
    | true =>
      change colon ∉ env.runDetectors
      rw [hdet]
      exact hcolon
    | false => exact hclean.interpreter_colon
  obtain ⟨hitem, hfree⟩ := item_of_accepted env hclean hname hinterp hacc
  have hentry : e.name = name := congrArg Registered.name hitem
  refine ⟨⟨?_, ?_, ?_, h.clean⟩, ?_⟩
  · change Guarded detectors Spec.shown (known s) ((s.kernel.entries ++ [e]).map item)
    rw [List.map_append, List.map_singleton, hitem]
    refine h.guarded.add _ ?_ ?_
    · intro k hk
      rw [hknown] at hk
      cases hk
      rfl
    · -- an older entry whose name is stored with this spec makes the code ask for a detector
      intro i _ hne k hk hk'
      rw [hknown] at hk'
      cases hk'
      obtain ⟨r', hr', -⟩ := known_eq_some hk
      obtain ⟨other, hother⟩ : ∃ other, visible s m.formats i.name = some other := by
        rw [visible, hr']
        cases kvhashLookup m.formats i.name with
        | none => exact ⟨r', rfl⟩
        | some old => exact ⟨old, rfl⟩
      obtain ⟨hclean', hknown'⟩ := hagree i.name other hother
      rw [hk, Option.some.injEq] at hknown'
      have hshared : Shared s m.formats name b :=
        ⟨i.name, hne, other, hother, binfmtEquals_of_specOf hclean hclean' hknown'.symm⟩
      have htrue : d = true := hd.mpr (Or.inr hshared)
      subst htrue
      exact hdet
  · intro e' he'
    rcases List.mem_append.mp he' with hold | hnew
    · exact h.plain e' hold
    · rw [List.mem_singleton.mp hnew, hentry]
      simp only [Kernel.hasRegister, Bool.and_eq_true] at hreg
      simp only [Kernel.procExists, hreg.1, hreg.2, Bool.true_and, Bool.or_eq_false_iff] at hfree
      exact ⟨hfree.1, hfree.2.1⟩
  · intro _
    exact mountable_of_hasRegister hreg
  · intro hhidden
    have hstill : s.kernel.hasRegister = false := hhidden
    rw [hreg] at hstill
    cases hstill

/-- Enabling a name shows all entries and puts at most one behind them. -/
theorem Settled.enable (h : Settled detectors s) (hrel : Reliable env)
    (hdet : env.runDetectors = detectors) (hcolon : colon ∉ detectors)
    (htest : env.test = false) {m : Memory} (hagree : Agrees s m) {name : Text}
    (hname : colon ∉ name) :
    Sound detectors (((actEnableName env name).run s m).state s) ∧
      ∀ r, ((actEnableName env name).run s m).outcome = .returned r →
        Agrees (((actEnableName env name).run s m).state s)
          ((actEnableName env name).run s m).memory := by
  rcases actEnableName_cases env htest name s m with
    ⟨m', es, hrun, hset, hformats, -, hshown⟩ | ⟨o, m', es, hrun, -, hset, hreg, -, hview⟩ |
    ⟨m', es, b, d, r, e, hrun, hset, hreg, -, hview, hb, hd, hr, hacc⟩
  · have hadm := admindir_replay_of_setup es s hset
    rw [hrun]
    refine ⟨h.setup hset (fun hne => hshown hrel (h.mountable hne)), fun _ _ => ?_⟩
    refine hagree.congr hadm ?_
    rw [hformats]
    exact fun _ => rfl
  · have hadm := admindir_replay_of_setup es s hset
    rw [hrun]
    exact ⟨h.setup hset (fun _ => hreg), fun r hret => hagree.congr hadm (hview ⟨r, hret⟩)⟩
  · have hadm := admindir_replay_of_setup es s hset
    have hsetup := h.setup hset (fun _ => hreg)
    have hagree' : Agrees (replay es s) m := hagree.congr hadm (fun _ => rfl)
    have hb' : visible (replay es s) m.formats name = some b := by
      rw [visible_congr hadm]
      exact hb
    have hd' : d = true ↔ NeedsDetector (replay es s) m.formats name b :=
      hd.trans (needsDetector_congr name b (visible_congr hadm m.formats)).symm
    subst hr
    rw [hrun]
    simp only [Ran.state, replay_append, replay_cons, replay_nil, apply_def]
    refine ⟨hsetup.toSettled.register hdet hcolon hreg hagree' hname hb' hd' hacc, ?_⟩
    intro _ _
    exact hagree.congr hadm hview

variable (hrel : Reliable env) (hdet : env.runDetectors = detectors)
  (hcolon : colon ∉ detectors) (htest : env.test = false)
include hrel hdet hcolon htest

theorem enableEach_keeps (names : List Text) (hnames : ∀ name ∈ names, colon ∉ name) :
    Prog.KeepsWith (Sound detectors) Agrees (enableEach env names) := by
  induction names with
  | nil => exact Prog.keepsWith_pure _
  | cons name rest ih =>
    have hrest := ih (fun n hn => hnames n (List.mem_cons_of_mem name hn))
    have hfirst : Prog.KeepsWith (Sound detectors) Agrees (actEnableName env name) :=
      fun s m hs hagree => hs.toSettled.enable hrel hdet hcolon htest hagree
        (hnames name List.mem_cons_self)
    refine Prog.KeepsWith.bind Prog.keepsWith_observe (fun s => ?_)
    split
    · exact hrest
    · refine Prog.KeepsWith.bind hfirst (fun worked => ?_)
      exact Prog.KeepsWith.bind hrest (fun others => Prog.keepsWith_pure _)

theorem actEnable_keeps (name : Option Text) (hname : ∀ n, name = some n → colon ∉ n)
    (hs : Sound detectors s) :
    Sound detectors (((actEnable env name).run s Memory.fresh).state s) := by
  cases name with
  | some name =>
    exact (hs.toSettled.enable hrel hdet hcolon htest hs.agrees_fresh (hname name rfl)).1
  | none =>
    obtain ⟨loaded, m₁, es, hload, hformats, hset, hreg, hmount⟩ :=
      loadBinfmtMisc_cases env htest s Memory.fresh
    have hadm := admindir_replay_of_setup es s hset
    have hshown : s.kernel.entries ≠ [] → (replay es s).kernel.hasRegister = true :=
      fun hne => hreg (hmount hrel (hs.mountable hne))
    have hs₁ := hs.toSettled.setup hset hshown
    have hagree₁ : Agrees (replay es s) m₁ := by
      refine hs.agrees_fresh.congr hadm ?_
      rw [hformats]
      exact fun _ => rfl
    cases loaded with
    | false =>
      rw [actEnable, Prog.run_bind_returned hload]
      simpa only [Ran.state, Ran.effects_after, Bool.false_eq_true, if_false, Prog.run_pure,
        List.append_nil] using hs₁
    | true =>
      rcases loadAllFormats_cases env false (replay es s) m₁ with
        ⟨m₂, hall, hlook, -⟩ | ⟨m₂, hall, -⟩
      · have hagree₂ : Agrees (replay es s) m₂ := hagree₁.congr rfl (sameView_of_lookup hlook)
        have hnames : ∀ n ∈ env.walk m₂.formats, colon ∉ n := by
          intro n hn
          rw [(env.walk_perm m₂.formats).mem_iff] at hn
          obtain ⟨b, hb⟩ := Option.isSome_iff_exists.mp (AList.lookup_isSome.mpr hn)
          have hvisible : visible (replay es s) m₁.formats n = some b := by
            rw [← hlook n]
            exact hb
          obtain ⟨r, hr, -⟩ := known_eq_some (hagree₁ n b hvisible).2
          exact (hs₁.clean n r hr).2
        have heach := enableEach_keeps hrel hdet hcolon htest (env.walk m₂.formats) hnames
          (replay es s) m₂ hs₁ hagree₂
        rw [actEnable, Prog.run_bind_returned hload, if_pos rfl, Prog.run_bind_returned hall,
          Prog.run_recollect_bind]
        simpa only [Ran.state, Ran.effects_after, replay_append, replay_nil,
          List.nil_append] using heach.1
      · rw [actEnable, Prog.run_bind_returned hload, if_pos rfl, Prog.run_bind_exited hall]
        simpa only [Ran.state, Ran.effects_after, List.append_nil] using hs₁

end Enable

section Install
variable {env : Env} {detectors : Text} {s : Store}

/-- A clean record that comes back from its file with the spec that it had. -/
structure Storable (b : Binfmt) : Prop extends Clean b where
  whole : specOf (reread b) = specOf b
  noNewline : ∀ field ∈ b.fields, NoNewline (field.getD [])

/-- Even a file that was cut short has the whole spec if it loads at all. -/
theorem Storable.loaded {b r : Binfmt} {k : ℕ} (h : Storable b)
    (hload : binfmtLoad (b.contents.take k) = .ok r) : Clean r ∧ specOf r = specOf b := by
  obtain ⟨⟨-, htype, hoffset, hmagic, hmask⟩, t, hbegin, -, hinterp⟩ :=
    binfmtLoad_take_contents b r k h.noNewline hload
  have hspec : specOf r = specOf b := by
    rw [← h.whole]
    simp only [specOf, htype, hoffset, hmagic, hmask]
  have hfields := hspec
  simp only [specOf, Spec.mk.injEq] at hfields
  obtain ⟨-, hoffset', hmagic', hmask'⟩ := hfields
  refine ⟨⟨?_, ?_, ?_, ?_, ?_⟩, hspec⟩
  · rw [hmagic]
    rfl
  · rw [hoffset']
    exact h.offset_colon
  · rw [hmagic']
    exact h.magic_colon
  · rw [hmask']
    exact h.mask_colon
  · rw [hinterp, Option.getD_some]
    intro hmem
    have ht : colon ∈ t := trimRight_mem (cstr_mem hmem)
    exact h.interpreter_colon (hbegin.subset ht)

theorem record_moving (s : Store) (name key : Text) {b : Binfmt} (h : Storable b) :
    (replay (moving s name b) s).record key =
      if key = name then some (reread b)
      else if key = tmpName name then none else s.record key := by
  have hfile := file_replay_moving s name key b
  split
  · rename_i hk
    rw [if_pos hk] at hfile
    rw [record_of_file hfile, binfmtLoad_contents b h.noNewline]
    rfl
  · rename_i hk
    rw [if_neg hk] at hfile
    split
    · rename_i htmp
      rw [if_pos htmp] at hfile
      exact record_of_missing hfile
    · rename_i htmp
      rw [if_neg htmp] at hfile
      exact record_congr hfile

/-- A new record goes where no visible entry has its name. -/
theorem Sound.moved (h : Sound detectors s) {b : Binfmt} (hb : Storable b) {name : Text}
    (hname : colon ∉ name) (hfree : s.kernel.procExists name = false)
    (hdir : isDirectoryName name = false) (hctl : isControlName name = false) {m : Memory}
    (hm : m.formats = kvhashInsert ∅ name b) :
    Settled detectors (replay (moving s name b) s) ∧ Agrees (replay (moving s name b) s) m := by
  have hkernel : (replay (moving s name b) s).kernel = s.kernel :=
    kernel_replay_of_files _ s (fun e he => files_of_mem_moving he)
  have hrecord := fun key => record_moving s name key hb
  have hreread := hb.loaded (r := reread b) (k := b.contents.length)
    (by rw [List.take_length]; exact binfmtLoad_contents b hb.noNewline)
  have hclean : ∀ key r, (replay (moving s name b) s).record key = some r →
      Clean r ∧ colon ∉ key := by
    intro key r hr
    rw [hrecord] at hr
    split at hr
    · rename_i hk
      cases hr
      rw [hk]
      exact ⟨hreread.1, hname⟩
    · split at hr
      · cases hr
      · exact h.clean key r hr
  have hother : ∀ key, key ≠ name → ∀ k, known (replay (moving s name b) s) key = some k →
      known s key = some k := by
    intro key hk k hknown
    rw [known, hrecord, if_neg hk] at hknown
    split at hknown
    · cases hknown
    · exact hknown
  refine ⟨⟨?_, ?_, ?_, hclean⟩, ?_⟩
  · rw [hkernel]
    cases hreg : s.kernel.hasRegister with
    | true =>
      -- the entries are in sight, and none of them has the name
      rw [procExists_eq_hasEntry hreg hdir hctl, hasEntry_eq_false_iff] at hfree
      refine h.guarded.fewer (List.Sublist.refl _) ?_
      intro i hi k hk
      obtain ⟨e, he, rfl⟩ := List.mem_map.mp hi
      exact hother e.name (hfree e he) k hk
    | false =>
      -- the entries are hidden, and no other name among them is stored
      refine guarded_of_single name ?_
      intro i hi hne
      obtain ⟨e, he, rfl⟩ := List.mem_map.mp hi
      have hnone := h.hidden hreg e he
      by_contra hsome
      obtain ⟨k, hk⟩ := Option.ne_none_iff_exists'.mp hsome
      obtain ⟨r, hr, -⟩ := known_eq_some (hother e.name hne k hk)
      rw [hnone] at hr
      cases hr
  · rw [hkernel]
    exact h.plain
  · rw [hkernel]
    exact h.mountable
  · intro key x hx
    rw [visible, hm] at hx
    by_cases hk : key = name
    · subst hk
      rw [kvhashLookup_insert, kvhashLookup_empty] at hx
      cases hx
      refine ⟨hb.toClean, ?_⟩
      rw [known, hrecord, if_pos rfl, Option.map_some, hreread.2]
      rfl
    · rw [kvhashLookup_insert_ne hk, kvhashLookup_empty, Option.none_or] at hx
      exact ⟨(hclean key x hx).1, by rw [known, hx]; rfl⟩

/-- A directory that is in the way of the new file is seen, unless there are no entries. -/
theorem Sound.unmoved (h : Sound detectors s) {b : Binfmt} (hb : Storable b) {name : Text}
    (hname : colon ∉ name) (hfree : s.kernel.procExists name = false)
    (hdir : isDirectoryName name = true) {es : List Effect} (hun : Unmoved s name b es) :
    Sound detectors (replay es s) := by
  have hnil : s.kernel.entries = [] := by
    by_contra hne
    have hproc := (h.mountable hne).1
    simp [Kernel.procExists, hproc, hdir] at hfree
  have hkernel : (replay es s).kernel = s.kernel := kernel_replay_of_files es s hun.files
  refine ⟨⟨?_, ?_, ?_, ?_⟩, ?_⟩
  · rw [hkernel, hnil]
    exact List.Pairwise.nil
  · rw [hkernel]
    exact h.plain
  · rw [hkernel]
    exact h.mountable
  · intro key r hr
    by_cases hk : key = tmpName name
    · subst hk
      have htmp : colon ∉ tmpName name := by
        have hsuffix : colon ∉ text ".tmp" := by decide
        simp [tmpName, hname, hsuffix]
      refine ⟨?_, htmp⟩
      cases hun with
      | untouched => exact (h.clean _ r hr).1
      | cleared =>
        rw [record_of_missing (by rw [file_replay_clearing, if_pos rfl])] at hr
        cases hr
      | written k =>
        have hfile : (replay (writing s (tmpName name) (b.contents.take k)) s).file
            (tmpName name) = some (b.contents.take k) := by
          rw [file_replay_writing, if_pos rfl]
        rw [record_of_file hfile] at hr
        cases hload : binfmtLoad (b.contents.take k) with
        | error field =>
          rw [hload] at hr
          cases hr
        | ok r' =>
          rw [hload] at hr
          cases hr
          exact (hb.loaded hload).1
    · rw [record_congr (hun.file key hk)] at hr
      exact h.clean key r hr
  · rw [hkernel, hnil]
    simp

/-- Installing a format under a name that is not stored. -/
theorem actInstall_keeps (hrel : Reliable env) (hdet : env.runDetectors = detectors)
    (hcolon : colon ∉ detectors) (htest : env.test = false) (hs : Sound detectors s)
    {b : Binfmt} (hb : Storable b) {name : Text} (hname : colon ∉ name)
    (hreserved : isReserved name = false) (hnew : s.record name = none) :
    Sound detectors (((actInstall env name (some b)).run s Memory.fresh).state s) := by
  have hctl : isControlName name = false := by
    simp only [isReserved, Bool.or_eq_false_iff] at hreserved
    simp only [isControlName, Bool.or_eq_false_iff]
    exact ⟨hreserved.1.2, hreserved.2⟩
  rcases actInstall_cases env htest name b s Memory.fresh with
    ⟨o, m', es, hrun, hes, -⟩ | ⟨m', drop, es, hrun, hdrop, -, hun, hdir⟩ |
    ⟨o, m', m₁, m₂, drop, es, hrun, hdrop, -, hdir, -, hformats, -, hen⟩
  · rw [hrun]
    exact hs.loss (loss_of_status hes)
  · rw [hrun]
    simp only [Ran.state, replay_append]
    exact (hs.loss hdrop.loss).unmoved hb hname hdrop.gone (hdir hrel)
      (hun.congr hdrop.admindir)
  · have hm₁ : m₁.formats = kvhashInsert ∅ name b := by
      rw [hformats, hnew]
      rfl
    obtain ⟨hsettled, hagree⟩ :=
      (hs.loss hdrop.loss).moved hb hname hdrop.gone hdir hctl hm₁
    rw [moving_congr hdrop.admindir, ← replay_append] at hsettled hagree
    have henable := (hsettled.enable hrel hdet hcolon htest hagree hname).1
    rw [hen] at henable
    rw [hrun]
    simpa only [Ran.state, ← List.append_assoc, replay_append] using henable

end Install

section Runs

/-- The fields from which the line is made hold neither colons nor white space at the
end; a C string has no NUL byte. -/
def PlainFields (b : Binfmt) : Prop :=
  ∀ t ∈ [b.offset, b.magic.getD [], b.mask, b.interpreter.getD []],
    NulFree t ∧ NoTrailingSpace t ∧ colon ∉ t

theorem storable_of_parse {opts : List Opt} {o : Options} (hparse : parse opts = .ok o)
    (hmode : o.mode = some .install) {b : Binfmt}
    (hnew : binfmtNew (formatArgs o) = .ok (.ok b)) (hplain : PlainFields b) : Storable b := by
  have hacc := accepted_of_binfmtNew hnew
  simp only [PlainFields, List.mem_cons, List.not_mem_nil, or_false, forall_eq_or_imp,
    forall_eq] at hplain
  obtain ⟨hoffset, hmagic, hmask, hinterp⟩ := hplain
  have hkeep : readBack b.type = b.type := by
    rw [type_of_options hnew]
    split <;> decide
  refine ⟨⟨magic_of_options hparse hmode hnew, hoffset.2.2, hmagic.2.2, hmask.2.2, hinterp.2.2⟩,
    ?_, hacc.fields_noNewline⟩
  simp only [specOf, reread, Option.getD_some, hkeep,
    (readBack_eq_self_iff hoffset.1).mpr hoffset.2.1,
    (readBack_eq_self_iff hmagic.1).mpr hmagic.2.1,
    (readBack_eq_self_iff hmask.1).mpr hmask.2.1]

/-- The commands that are considered. Names have neither colons nor slashes, and an
installation is of a name that is not stored, with a record of plain fields if any. -/
def Considered (s : Store) (o : Options) : Prop :=
  (∀ name, o.name = some name → colon ∉ name ∧ slash ∉ name) ∧
  ((o.mode = some .install ∧ s.record (o.name.getD []) = none ∧
      ∀ b, binfmtNew (formatArgs o) = .ok (.ok b) → PlainFields b) ∨
    o.mode = some .remove ∨ o.mode = some .enable ∨ o.mode = some .disable)

/-- One run of update-binfmts in which all calls succeed. -/
inductive Step (detectors : Text) : Store → Store → Prop
  | run (env : Env) (opts : List Opt) (o : Options) (s : Store) (hparse : parse opts = .ok o)
      (hrel : Reliable env) (hdet : env.runDetectors = detectors)
      (hcommand : Considered s o) :
      Step detectors s (((CommandLine.main env opts).run s Memory.fresh).state s)

variable {detectors : Text} {s : Store}

theorem actDisable_keeps {env : Env} (hrel : Reliable env) (htest : env.test = false)
    (hs : Sound detectors s) (name : Option Text) :
    Sound detectors (((actDisable env name).run s Memory.fresh).state s) := by
  cases name with
  | some name => exact hs.loss (loss_actDisableName env name s Memory.fresh)
  | none =>
    rcases actDisable_none_cases env htest s Memory.fresh with
      ⟨o, m', hrun⟩ | ⟨r, m', es, fs, hrun, hloss, hgone, hfs⟩
    · rw [hrun]
      exact hs
    · have hs' := hs.loss hloss
      rw [hrun]
      simp only [Ran.state, replay_append]
      rcases hfs with rfl | ⟨rfl, hstyle⟩
      · exact hs'
      · have hmount := mount_replay_of_loss es s hloss
        rw [← hmount] at hstyle
        refine hs'.umount hstyle ?_
        intro hreg e he
        rw [hasRegister_congr hmount] at hreg
        by_contra hsome
        obtain ⟨r', hr'⟩ := Option.ne_none_iff_exists'.mp hsome
        have hvisible : (visible s Memory.fresh.formats e.name).isSome = true := by
          rw [visible, record_replay_of_loss hloss hr', Option.isSome_or, Option.isSome_some,
            Bool.or_true]
        obtain ⟨hdir, hctl⟩ := hs'.plain e he
        have hno := hgone hrel hreg e.name hvisible hdir hctl
        rw [hasEntry_eq_false_iff] at hno
        exact hno e he rfl

/-- Each run keeps what the next one needs. -/
theorem sound_step (hcolon : colon ∉ detectors) {u : Store} (h : Step detectors s u)
    (hs : Sound detectors s) : Sound detectors u := by
  obtain ⟨env, opts, o, s, hparse, hrel, hdet, hnames, hmodes⟩ := h
  rw [Ran.state, effects_main hparse]
  change Sound detectors
    (((runMode { env with test := o.test } o).run s Memory.fresh).state s)
  have hname : colon ∉ o.name.getD [] := by
    cases hn : o.name with
    | none => simp
    | some name => exact (hnames name hn).1
  cases htest : o.test with
  | true =>
    have hsilent : Prog.Silent (runMode { env with test := true } o) := by
      rcases hmodes with ⟨hmode, -⟩ | hmode | hmode | hmode
      · simp only [runMode, hmode, installMode]
        split
        · exact silent_quit _
        · exact (silent_warn _).bind (fun _ => silent_actInstall_test _ rfl _ _)
        · exact silent_actInstall_test _ rfl _ _
      · simp only [runMode, hmode]
        exact silent_actRemove_test _ rfl _ _
      · simp only [runMode, hmode]
        exact silent_actEnable_test _ rfl _
      · simp only [runMode, hmode]
        exact silent_actDisable_test _ rfl _
    exact hsilent.keeps s Memory.fresh hs
  | false =>
    have hrel' : Reliable { env with test := false } := hrel
    have hdet' : ({ env with test := false } : Env).runDetectors = detectors := hdet
    rcases hmodes with ⟨hmode, hnew, hplain⟩ | hmode | hmode | hmode
    · simp only [runMode, hmode, installMode]
      split
      · exact (silent_quit _).keeps s Memory.fresh hs
      · exact hs.loss (loss_actInstall_null _ _ rfl s _)
      · rename_i b hb
        exact actInstall_keeps hrel' hdet' hcolon rfl hs
          (storable_of_parse hparse hmode hb (hplain b hb)) hname
          (installable_of_parse hparse hmode).2 hnew
    · simp only [runMode, hmode]
      exact hs.loss (loss_actRemove _ rfl _ _ s _)
    · simp only [runMode, hmode]
      exact actEnable_keeps hrel' hdet' hcolon rfl o.name (fun n hn => (hnames n hn).1) hs
    · simp only [runMode, hmode]
      exact actDisable_keeps hrel' rfl hs o.name

theorem sound_reachable (hcolon : colon ∉ detectors) {start : Store}
    (hfiles : start.admindir = ∅) (hentries : start.kernel.entries = [])
    (hreach : Relation.ReflTransGen (Step detectors) start s) : Sound detectors s := by
  induction hreach with
  | refl =>
    refine ⟨⟨?_, ?_, ?_, ?_⟩, ?_⟩
    · rw [hentries]
      exact List.Pairwise.nil
    · rw [hentries]
      simp
    · intro hne
      exact absurd hentries hne
    · intro key r hr
      have hnone : start.file key = none := by
        simp only [Store.file, hfiles, AList.lookup_empty]
      rw [record_of_missing hnone] at hr
      cases hr
    · rw [hentries]
      simp
  | tail _ hstep ih => exact sound_step hcolon hstep ih

def SameSpec (a b : Binfmt) : Prop :=
  a.type = b.type ∧ a.offset = b.offset ∧ a.magic = b.magic ∧ a.mask = b.mask

/-- Of two stored and enabled formats with one spec, the one registered later goes to
run-detectors. -/
def LaterDetected (detectors : Text) (s : Store) : Prop :=
  s.kernel.entries.Pairwise (fun earlier later => ∀ a b, earlier.name ≠ later.name →
    s.record earlier.name = some a → s.record later.name = some b → SameSpec a b →
      later.interpreter = detectors)

/-- The entry that a file is given to, if the kernel tries the newest entry first and
takes the file for those specs. -/
def firstMatch (k : Kernel) (takes : Spec → Bool) : Option Entry :=
  k.entries.reverse.find? (fun e => takes (entrySpec e))

/-- A file that matches a spec shared by enabled formats is not given to one of them
without run-detectors. -/
def DetectedFirst (detectors : Text) (s : Store) : Prop :=
  ∀ takes first other a b, firstMatch s.kernel takes = some first →
    s.record first.name = some a → other ∈ s.kernel.entries → other.name ≠ first.name →
      s.record other.name = some b → SameSpec a b → takes (specOf a).shown = true →
        first.interpreter = detectors

theorem specOf_eq_of_sameSpec {a b : Binfmt} (h : SameSpec a b) : specOf a = specOf b := by
  obtain ⟨htype, hoffset, hmagic, hmask⟩ := h
  simp only [specOf, htype, hoffset, hmagic, hmask]

theorem newestFirst_eq_firstMatch (k : Kernel) (takes : Spec → Bool) :
    newestFirst (k.entries.map item) takes = (firstMatch k takes).map item := by
  rw [newestFirst, firstMatch, ← List.map_reverse, List.find?_map]
  rfl

/-- In every reachable state the choice made at registration still separates formats
that share a spec, whatever was installed, removed, enabled and disabled in between. -/
theorem shared_specs_detected (detectors : Text) (hcolon : colon ∉ detectors)
    (start s : Store) (hfiles : start.admindir = ∅) (hentries : start.kernel.entries = [])
    (hreach : Relation.ReflTransGen (Step detectors) start s) :
    LaterDetected detectors s ∧ DetectedFirst detectors s := by
  have hguarded := (sound_reachable hcolon hfiles hentries hreach).guarded
  constructor
  · refine (List.pairwise_map.mp hguarded).imp ?_
    intro earlier later hpair a b hne ha hb hsame
    refine (hpair hne (specOf b) ?_ ?_).2
    · change known s earlier.name = some (specOf b)
      rw [known, ha, Option.map_some, specOf_eq_of_sameSpec hsame]
    · change known s later.name = some (specOf b)
      rw [known, hb, Option.map_some]
  · intro takes first other a b hfirst ha hother hne hb hsame htakes
    have hnewest : newestFirst (s.kernel.entries.map item) takes = some (item first) := by
      rw [newestFirst_eq_firstMatch, hfirst, Option.map_some]
    refine hguarded.handler_newestFirst (i := item other) (k := specOf a) hnewest ?_
      (List.mem_map_of_mem hother) hne ?_ htakes
    · change known s first.name = some (specOf a)
      rw [known, ha, Option.map_some]
    · change known s other.name = some (specOf a)
      rw [known, hb, Option.map_some, specOf_eq_of_sameSpec hsame]

end Runs

section Example

def pairOptions (name interpreter : Text) : List Opt :=
  [.mode .install [name, interpreter], .magic (text "AB")]

def pairParsed (name interpreter : Text) : Options :=
  { Options.none with
    mode := some .install
    type := some .magic
    name := some name
    interpreter := some interpreter
    magic := some (text "AB") }

/-- The stores after an installation, and after a second one with the same spec. -/
def oneStore : Store :=
  ((CommandLine.main plainEnv (pairOptions (text "one") (text "/usr/bin/one"))).run
    emptyStore Memory.fresh).state emptyStore

def pairStore : Store :=
  ((CommandLine.main plainEnv (pairOptions (text "two") (text "/usr/bin/two"))).run
    oneStore Memory.fresh).state oneStore

theorem considered_pair (s : Store) (name interpreter : Text) (hnew : s.record name = none)
    (hname : colon ∉ name ∧ slash ∉ name)
    (hinterp : NulFree interpreter ∧ NoTrailingSpace interpreter ∧ colon ∉ interpreter)
    (hline : newline ∉ interpreter) : Considered s (pairParsed name interpreter) := by
  refine ⟨?_, Or.inl ⟨rfl, hnew, ?_⟩⟩
  · intro n hn
    cases hn
    exact hname
  · intro b hb
    have hrecord : binfmtNew (formatArgs (pairParsed name interpreter)) =
        .ok (.ok ⟨some (text ":"), text "magic", text "0", some (text "AB"), [],
          some interpreter, none, none, none⟩) := by
      have hset : setField (formatArgs (pairParsed name interpreter)) "interpreter" =
          .ok (some interpreter) := if_neg hline
      simp only [binfmtNew, hset]
      rfl
    rw [hrecord] at hb
    cases hb
    simp only [PlainFields, List.mem_cons, List.not_mem_nil, or_false, forall_eq_or_imp,
      forall_eq, Option.getD_some]
    exact ⟨by decide, by decide, by decide, hinterp⟩

theorem shared_specs_detected_pair :
    pairStore.kernel.entries.map (fun e => (e.name, e.interpreter)) =
      [(text "one", text "/usr/bin/one"), (text "two", plainEnv.runDetectors)] ∧
    LaterDetected plainEnv.runDetectors pairStore ∧
      DetectedFirst plainEnv.runDetectors pairStore := by
  have hreliable : Reliable plainEnv := fun _ => rfl
  have hone : Step plainEnv.runDetectors emptyStore oneStore :=
    Step.run plainEnv _ (pairParsed (text "one") (text "/usr/bin/one")) emptyStore rfl
      hreliable rfl (considered_pair _ _ _ (by decide +kernel) (by decide) (by decide)
        (by decide))
  have htwo : Step plainEnv.runDetectors oneStore pairStore :=
    Step.run plainEnv _ (pairParsed (text "two") (text "/usr/bin/two")) oneStore rfl
      hreliable rfl (considered_pair _ _ _ (by decide +kernel) (by decide) (by decide)
        (by decide))
  refine ⟨by decide +kernel, ?_⟩
  exact shared_specs_detected plainEnv.runDetectors (by decide) emptyStore pairStore rfl rfl
    ((Relation.ReflTransGen.single hone).tail htwo)

end Example
end BinfmtSupport.Sharing
