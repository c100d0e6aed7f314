import BinfmtSupport.Guards
import BinfmtSupport.Emulator
import BinfmtSupport.Silence

/-!
The kernel of the model and the emulator of the test suite. The emulator was written for the
few operations that update-binfmts needs: to switch binfmt_misc on, to register a line and to
remove an entry. Whatever the command line and whatever goes wrong, a run does nothing else to
procdir, the emulator accepts all of it, and it then has the entries that the model has.
-/
namespace BinfmtSupport.Emulation

open CText CNumber Kvhash Format Regstring Journal Stores Actions CommandLine Loading Enabling
open Emulator Guards

section Entries

def fieldsOf (e : Entry) : Option Fields :=
  (specOf e.type e.offset e.magic e.mask).map (fun spec => ⟨spec, e.interpreter, e.flags⟩)

def lineLength (e : Entry) : ℕ :=
  ([colon].intercalate (e.name :: e.type :: e.offset :: e.magic :: e.mask :: e.interpreter ::
    e.flags)).length + 2

def emulatorAccepts (e : Entry) : Bool :=
  11 ≤ lineLength e && lineLength e ≤ 256 && !isDirectoryName e.name && slash ∉ e.name &&
    (e.type = text "E" || e.type = text "M") && e.magic ≠ [] && (fieldsOf e).isSome &&
    e.interpreter ≠ []

theorem fields_of_entryOf {fields : List Text} {e : Entry} (h : entryOf fields = some e) :
    fields = e.name :: e.type :: e.offset :: e.magic :: e.mask :: e.interpreter :: e.flags := by
  unfold entryOf at h
  split at h
  · cases h
    rfl
  · cases h

/-- The line of a registration is as long as its entry says. -/
theorem length_regstring {r : Registration} {e : Entry}
    (h : entryOf (decodeLine r.regstring) = some e) : r.regstring.length = lineLength e := by
  have hfields := fields_of_entryOf h
  rw [decodeLine_regstring] at hfields
  have hjoin : [colon].intercalate (([colon].intercalate r.printedFields).splitOn colon) =
      [colon].intercalate r.printedFields := List.intercalate_splitOn colon
  rw [hfields] at hjoin
  rw [Registration.regstring_eq, lineLength, hjoin]
  simp

/-- The branch of write for the register file, for a line with enough fields. -/
theorem register_entry (st : State) {buf : Text} {e : Entry}
    (h : entryOf (decodeLine buf) = some e) :
    Emulator.register st buf =
      if buf.length < 11 || 256 < buf.length then .error .einval
      else if kvhashExists st.names e.name then .error .eexist
      else if isDirectoryName e.name || slash ∈ e.name then .error .einval
      else if e.type ≠ text "E" && e.type ≠ text "M" then .error .einval
      else if e.magic = [] then .error .einval
      else
        match fieldsOf e with
        | none => .error .einval
        | some fields =>
            if e.interpreter = [] then .error .einval
            else .ok { st with names := st.names.insert e.name fields } := by
  rw [Emulator.register, fields_of_entryOf h, fieldsOf]
  dsimp only
  cases specOf e.type e.offset e.magic e.mask <;> rfl

theorem emulatorAccepts_iff (e : Entry) : emulatorAccepts e = true ↔
    (11 ≤ lineLength e ∧ lineLength e ≤ 256) ∧ isDirectoryName e.name = false ∧
      slash ∉ e.name ∧ (e.type = text "E" ∨ e.type = text "M") ∧ e.magic ≠ [] ∧
      (fieldsOf e).isSome = true ∧ e.interpreter ≠ [] := by
  simp only [emulatorAccepts, Bool.and_eq_true, Bool.or_eq_true, decide_eq_true_eq,
    Bool.not_eq_true', and_assoc]

/-- The register file takes a line where the entry passes the checks and its name is free. -/
theorem register_eq {r : Registration} {e : Entry} (st : State)
    (h : entryOf (decodeLine r.regstring) = some e) (haccepts : emulatorAccepts e = true)
    (hfree : kvhashExists st.names e.name = false) : ∃ fields, fieldsOf e = some fields ∧
      Emulator.register st r.regstring =
        .ok { st with names := st.names.insert e.name fields } := by
  obtain ⟨hlength, hdir, hslash, htype, hmagic, hfields, hinterpreter⟩ :=
    (emulatorAccepts_iff e).mp haccepts
  obtain ⟨fields, hfields⟩ := Option.isSome_iff_exists.mp hfields
  rw [← length_regstring h] at hlength
  refine ⟨fields, hfields, ?_⟩
  rw [register_entry st h, hfields, hfree, if_neg (by simp; omega), if_neg Bool.false_ne_true,
    if_neg (by simp [hdir, hslash]), if_neg ?_, if_neg hmagic]
  · exact if_neg hinterpreter
  · rcases htype with htype | htype <;> simp [htype]

/-- A check that was passed. -/
theorem ok_of_ite {c : Prop} [Decidable c] {why : Errno} {rest : Except Errno State} {st : State}
    (h : (if c then .error why else rest) = .ok st) : ¬ c ∧ rest = .ok st := by
  by_cases hc : c
  · rw [if_pos hc] at h
    cases h
  · rw [if_neg hc] at h
    exact ⟨hc, h⟩

/-- What the register file takes has passed the checks. -/
theorem accepts_of_register {r : Registration} {st st' : State}
    (h : Emulator.register st r.regstring = .ok st') : ∃ e,
    entryOf (decodeLine r.regstring) = some e ∧ emulatorAccepts e = true ∧
      kvhashExists st.names e.name = false := by
  cases hentry : entryOf (decodeLine r.regstring) with
  | none =>
    rw [Emulator.register] at h
    split at h
    · cases h
    · split at h
      · rename_i hline
        rw [hline] at hentry
        cases hentry
      · cases h
  | some e =>
    rw [register_entry st hentry, length_regstring hentry] at h
    obtain ⟨hlength, h⟩ := ok_of_ite h
    obtain ⟨hfree, h⟩ := ok_of_ite h
    obtain ⟨hname, h⟩ := ok_of_ite h
    obtain ⟨htype, h⟩ := ok_of_ite h
    obtain ⟨hmagic, h⟩ := ok_of_ite h
    cases hfields : fieldsOf e with
    | none =>
      rw [hfields] at h
      cases h
    | some fields =>
      rw [hfields] at h
      obtain ⟨hinterpreter, -⟩ := ok_of_ite h
      simp only [Bool.or_eq_true, decide_eq_true_eq, not_or, not_lt] at hlength
      simp only [Bool.or_eq_true, decide_eq_true_eq, not_or, Bool.not_eq_true] at hname
      simp only [Bool.and_eq_true, decide_eq_true_eq, ne_eq] at htype
      refine ⟨e, rfl, (emulatorAccepts_iff e).mpr ⟨hlength, hname.1, hname.2, ?_, hmagic,
        by rw [hfields]; rfl, hinterpreter⟩, Bool.eq_false_iff.mpr hfree⟩
      by_contra hnot
      exact htype ⟨fun heq => hnot (Or.inl heq), fun heq => hnot (Or.inr heq)⟩

end Entries

section Kernel

structure Mirrors (k : Kernel) (st : State) : Prop where
  enabled : st.enabled = k.enabled
  readable : ∀ e ∈ k.entries, (fieldsOf e).isSome = true
  names : ∀ name, st.names.lookup name = (k.entries.find? (fun e => e.name = name)).bind fieldsOf

theorem mirrors_empty (mount : Mount) (enabled : Bool) :
    Mirrors ⟨mount, enabled, []⟩ ⟨enabled, ∅⟩ where
  enabled := rfl
  readable _ he := nomatch he
  names _ := rfl

variable {k : Kernel} {st : State}

theorem Mirrors.kvhashExists_eq (h : Mirrors k st) (name : Text) :
    kvhashExists st.names name = k.hasEntry name := by
  rw [Kvhash.kvhashExists_eq]
  change (st.names.lookup name).isSome = _
  rw [h.names]
  cases hfind : k.entries.find? (fun e => e.name = name) with
  | none =>
    rw [List.find?_eq_none] at hfind
    rw [Option.bind_none, Kernel.hasEntry, eq_comm, Option.isSome_none, List.any_eq_false]
    exact hfind
  | some e =>
    have hmem := List.mem_of_find?_eq_some hfind
    rw [Option.bind_some, h.readable e hmem, Kernel.hasEntry, eq_comm, List.any_eq_true]
    have hname := List.find?_some hfind
    exact ⟨e, hmem, hname⟩

theorem Mirrors.switch (h : Mirrors k st) (enabled : Bool) :
    Mirrors { k with enabled := enabled } { st with enabled := enabled } :=
  ⟨rfl, h.readable, h.names⟩

theorem Mirrors.insert (h : Mirrors k st) {e : Entry} {fields : Fields}
    (hfields : fieldsOf e = some fields) (hfree : k.hasEntry e.name = false) :
    Mirrors { k with entries := k.entries ++ [e] }
      { st with names := st.names.insert e.name fields } := by
  refine ⟨h.enabled, ?_, ?_⟩
  · intro x hx
    rcases List.mem_append.mp hx with hold | hnew
    · exact h.readable x hold
    · rw [List.mem_singleton.mp hnew, hfields]
      rfl
  · intro name
    dsimp only
    rw [List.find?_append]
    by_cases hname : name = e.name
    · subst hname
      have hnone : k.entries.find? (fun x => x.name = e.name) = none := by
        rw [List.find?_eq_none]
        exact List.any_eq_false.mp hfree
      rw [AList.lookup_insert, hnone, Option.none_or, List.find?_singleton, if_pos (by simp),
        Option.bind_some, hfields]
    · rw [AList.lookup_insert_ne hname, h.names, List.find?_singleton,
        if_neg (by simpa using Ne.symm hname), Option.or_none]

theorem Mirrors.erase (h : Mirrors k st) (name : Text) :
    Mirrors { k with entries := k.entries.filter (fun e => e.name ≠ name) }
      { st with names := st.names.erase name } := by
  refine ⟨h.enabled, fun e he => h.readable e (List.mem_filter.mp he).1, ?_⟩
  intro key
  dsimp only
  rw [List.find?_filter]
  by_cases hkey : key = name
  · subst hkey
    rw [AList.lookup_erase, List.find?_eq_none.mpr (fun e _ => by simp), Option.bind_none]
  · rw [AList.lookup_erase_ne hkey, h.names]
    congr 2
    funext e
    by_cases hname : e.name = key
    · simp [hname, hkey]
    · simp [hname]

end Kernel

section Writes

/-- What is in place where: the kernel is written to only while its files are there, a line
is one that it takes, and an entry that is removed is one that it has. -/
def Served (env : Env) (s : Store) : Effect → Prop
  | .register r e => s.kernel.hasRegister = true ∧ accepted env s.kernel r = some e
  | .dropEntry name => s.kernel.hasRegister = true ∧ isControlName name = false ∧
      s.kernel.hasEntry name = true
  | .status _ => s.kernel.hasRegister = true
  | .modprobe _ => s.kernel.hasRegister = false
  | .mount => s.kernel.hasRegister = false
  | _ => True

/-- What an effect is for the emulator: echo 1 >status, echo "$regstring" >register or
printf %d -1 >"$entry". -/
def emulate (st : State) : Effect → Except Errno State
  | .register r _ => write st (text "/register") r.regstring
  | .status true => write st (text "/status") (text "1\n")
  | .status false => write st (text "/status") (text "-1")
  | .dropEntry name => write st (slash :: name) (text "-1")
  | _ => .ok st

variable {env : Env} {s : Store} {st : State}

theorem hasEntry_of_free {k : Kernel} {name : Text} (hreg : k.hasRegister = true)
    (hfree : k.procExists name = false) : k.hasEntry name = false := by
  rw [Kernel.hasRegister, Bool.and_eq_true] at hreg
  rw [Kernel.procExists, hreg.1, hreg.2] at hfree
  simp only [Bool.true_and, Bool.or_eq_false_iff] at hfree
  exact hfree.2.2

theorem hasEntry_of_procExists {k : Kernel} {name : Text} (hdir : isDirectoryName name = false)
    (hcontrol : isControlName name = false) (h : k.procExists name = true) :
    k.hasRegister = true ∧ k.hasEntry name = true := by
  rw [Kernel.procExists, hdir, hcontrol] at h
  simp only [Bool.false_or, Bool.and_eq_true] at h
  exact ⟨by rw [Kernel.hasRegister, h.1, h.2.1]; rfl, h.2.2⟩

theorem status_write (st : State) (enabled : Bool) :
    emulate st (.status enabled) = .ok { st with enabled := enabled } := by
  cases enabled <;> rfl

theorem dropEntry_write {name : Text} (hname : isControlName name = false)
    (hexists : kvhashExists st.names name = true) :
    emulate st (.dropEntry name) = .ok { st with names := st.names.erase name } := by
  simp only [isControlName, Bool.or_eq_false_iff, decide_eq_false_iff_not] at hname
  have hstatus : slash :: name ≠ text "/status" := fun heq => hname.2 (List.cons.inj heq).2
  have hregister : slash :: name ≠ text "/register" := fun heq => hname.1 (List.cons.inj heq).2
  have hminus : stripped (text "-1") = text "-1" := by decide
  rw [emulate, write, if_neg hstatus, if_neg hregister, List.head?_cons, List.tail_cons, hexists,
    if_pos (by simp), if_pos hminus]

theorem register_write {r : Registration} {e : Entry}
    (h : entryOf (decodeLine r.regstring) = some e) (haccepts : emulatorAccepts e = true)
    (hfree : kvhashExists st.names e.name = false) : ∃ fields, fieldsOf e = some fields ∧
      emulate st (.register r e) = .ok { st with names := st.names.insert e.name fields } := by
  obtain ⟨fields, hfields, hrun⟩ := register_eq st h haccepts hfree
  refine ⟨fields, hfields, ?_⟩
  have hne : text "/register" ≠ text "/status" := by decide
  rw [emulate, write, if_neg hne, if_pos rfl, hrun]

def Mirrored (s : Store) (st : State) : Prop :=
  Mirrors s.kernel st ∧ s.kernel.hasRegister = true

/-- The kernel accepts no entry that the checks of the emulator refuse. -/
def Stricter (env : Env) : Prop := ∀ e, env.accepts e = true → emulatorAccepts e = true

/-- The emulator takes the lines that the kernel takes. -/
theorem write_of_accepted (hstrict : Stricter env) (hmirrored : Mirrored s st) {r : Registration}
    (h : (accepted env s.kernel r).isSome = true) :
    ∃ st', write st (text "/register") r.regstring = .ok st' := by
  obtain ⟨hmirrors, hreg⟩ := hmirrored
  obtain ⟨e, he⟩ := Option.isSome_iff_exists.mp h
  obtain ⟨hentry, hfree, htakes⟩ := entry_of_accepted env he
  have hno : kvhashExists st.names e.name = false := by
    rw [hmirrors.kvhashExists_eq, hasEntry_of_free hreg hfree]
  obtain ⟨fields, -, hrun⟩ := register_write hentry (hstrict e htakes) hno
  exact ⟨_, hrun⟩

/-- It takes no others where its checks are those of the kernel. Only a control file is to the
kernel a name that is taken, and to the emulator it is not. -/
theorem accepted_of_write (hall : ∀ e, emulatorAccepts e = true → env.accepts e = true)
    (hmirrored : Mirrored s st) {r : Registration}
    (hcontrol : isControlName (r.name.takeWhile (· ≠ colon)) = false) {st' : State}
    (hrun : write st (text "/register") r.regstring = .ok st') :
    (accepted env s.kernel r).isSome = true := by
  obtain ⟨hmirrors, hreg⟩ := hmirrored
  have hne : text "/register" ≠ text "/status" := by decide
  rw [write, if_neg hne, if_pos rfl] at hrun
  obtain ⟨e, hentry, htakes, hfree⟩ := accepts_of_register hrun
  obtain ⟨-, hdir, -⟩ := (emulatorAccepts_iff e).mp htakes
  rw [← name_of_entryOf hentry] at hcontrol
  have hproc : s.kernel.procExists e.name = false := by
    rw [AllFormats.procExists_eq_hasEntry hreg hdir hcontrol, ← hmirrors.kvhashExists_eq, hfree]
  rw [accepted, hentry]
  simp only [hproc, hall e htakes]
  rfl

/-- The emulator makes the step of the kernel. -/
theorem emulate_served (hstrict : Stricter env) {e : Effect}
    (hmounted : e ≠ .umount) (hmirrored : Mirrored s st) (h : Served env s e) :
    ∃ st', emulate st e = .ok st' ∧ Mirrored (e.apply s) st' := by
  obtain ⟨hmirrors, hreg⟩ := hmirrored
  cases e with
  | register r e =>
    obtain ⟨hentry, hfree, htakes⟩ := entry_of_accepted env h.2
    have hno : s.kernel.hasEntry e.name = false := hasEntry_of_free hreg hfree
    have hexists : kvhashExists st.names e.name = false := by
      rw [hmirrors.kvhashExists_eq, hno]
    obtain ⟨fields, hfields, hrun⟩ := register_write hentry (hstrict e htakes) hexists
    exact ⟨_, hrun, hmirrors.insert hfields hno, hreg⟩
  | dropEntry name =>
    refine ⟨_, dropEntry_write h.2.1 ?_, hmirrors.erase name, hreg⟩
    rw [hmirrors.kvhashExists_eq, h.2.2]
  | status enabled => exact ⟨_, status_write st enabled, hmirrors.switch enabled, hreg⟩
  | modprobe result =>
    rw [Served, hreg] at h
    cases h
  | mount =>
    rw [Served, hreg] at h
    cases h
  | umount => exact absurd rfl hmounted
  | unlink file => exact ⟨st, rfl, hmirrors, hreg⟩
  | create file => exact ⟨st, rfl, hmirrors, hreg⟩
  | append file byte =>
    refine ⟨st, rfl, ?_⟩
    unfold Mirrored
    rw [kernel_apply_of_files _ s (by simp [Effect.files])]
    exact ⟨hmirrors, hreg⟩
  | rename source dest =>
    refine ⟨st, rfl, ?_⟩
    unfold Mirrored
    rw [kernel_apply_of_files _ s (by simp [Effect.files])]
    exact ⟨hmirrors, hreg⟩

end Writes

section Actions
variable (env : Env) {s : Store}

theorem guarded_warn_pure {α : Type} (w : Warning) (a : α) :
    GuardedFrom (Served env) s (warn w >>= fun _ => pure a) :=
  guarded_silent_bind (silent_warn w) (fun _ => guarded_pure a)

theorem silent_succeeds : Prog.Silent (succeeds env) := fun s m => by rw [run_succeeds]

theorem silent_nextFault : Prog.Silent (nextFault env) := fun _ _ => rfl

theorem guarded_loadModule : GuardedFrom (Served env) s (loadModule env) := by
  refine guarded_observe_bind ?_
  split
  · rename_i hcond
    rw [Bool.and_eq_true, Bool.not_eq_true', Bool.not_eq_true'] at hcond
    refine guarded_silent_bind (silent_succeeds env) (fun ok => ?_)
    split
    · refine guarded_emit_pure ?_ _
      exact hcond.2
    · exact guarded_warn_pure env _ _
  · exact guarded_pure _

theorem guarded_mountFilesystem : GuardedFrom (Served env) s (mountFilesystem env) := by
  refine guarded_observe_bind ?_
  split
  · rename_i hcond
    rw [Bool.and_eq_true, Bool.not_eq_true'] at hcond
    refine guarded_silent_bind (silent_succeeds env) (fun ok => ?_)
    split
    · refine guarded_emit_pure ?_ _
      exact hcond.2
    · exact guarded_warn_pure env _ _
  · exact guarded_pure _

theorem guarded_switchOn : GuardedFrom (Served env) s (switchOn env) := by
  refine guarded_observe_bind ?_
  split
  · rename_i hreg
    refine guarded_silent_bind (silent_succeeds env) (fun ok => ?_)
    split
    · refine guarded_emit_pure ?_ _
      exact hreg
    · exact guarded_warn_pure env _ _
  · exact guarded_warn_pure env _ _

theorem guarded_loadBinfmtMisc : GuardedFrom (Served env) s (loadBinfmtMisc env) := by
  rw [loadBinfmtMisc]
  split
  · exact guarded_silent_bind (silent_answer _) (fun _ => guarded_pure _)
  · refine (guarded_loadModule env).then (fun loaded t => ?_)
    split
    · refine guarded_observe_bind ?_
      split
      · refine (guarded_mountFilesystem env).then (fun mounted u => ?_)
        split
        · exact guarded_switchOn env
        · exact guarded_pure _
      · exact guarded_warn_pure env _ _
    · exact guarded_pure _

/-- The register file is there after load_binfmt_misc has worked. -/
theorem guarded_register (name : Text) (r : Registration) (hreg : s.kernel.hasRegister = true) :
    GuardedFrom (Served env) s (Actions.register env name r) := by
  have hwrite : GuardedFrom (Served env) s (writeRegister env r) := by
    refine guarded_silent_bind (silent_nextFault env) (fun fault => ?_)
    cases fault with
    | none =>
      refine guarded_observe_bind ?_
      cases hacc : accepted env s.kernel r with
      | none => exact guarded_pure _
      | some e => exact guarded_emit_pure ⟨hreg, hacc⟩ _
    | error written => exact guarded_pure _
    | ignored => exact guarded_pure _
  rw [Actions.register]
  split
  · exact guarded_silent_bind (silent_answer _) (fun _ => guarded_pure _)
  · refine guarded_silent_bind (silent_succeeds env) (fun ok => ?_)
    split
    · refine hwrite.then (fun written t => ?_)
      split
      · exact guarded_pure _
      · exact guarded_warn_pure env _ _
    · exact guarded_warn_pure env _ _

theorem silent_needDetector (name : Text) (b : Binfmt) : Prog.Silent (needDetector env name b) := by
  intro s m
  rcases needDetector_cases env name b s m with ⟨d, m', hrun, -⟩ | ⟨m', hrun, -⟩ | ⟨m', hrun, -⟩ <;>
    rw [hrun]

theorem guarded_enableFormat (name : Text) (hreg : s.kernel.hasRegister = true) :
    GuardedFrom (Served env) s (enableFormat env name) := by
  refine guarded_silent_bind (silent_loadFormat env name false) (fun _ => ?_)
  refine guarded_silent_bind Prog.silent_recollect (fun m => ?_)
  split
  · split
    · exact silent_guarded Prog.silent_crash
    · exact guarded_warn_pure env _ _
  · refine guarded_silent_bind (silent_needDetector env name _) (fun detector => ?_)
    exact guarded_register env name _ hreg

variable (htest : env.test = false)
include htest

theorem guarded_actEnableName (name : Text) :
    GuardedFrom (Served env) s (actEnableName env name) := by
  refine (guarded_loadBinfmtMisc env).bind (fun loaded m m' es hrun => ?_)
  obtain ⟨r, m₁, fs, hload, -, -, hreg, -⟩ := loadBinfmtMisc_cases env htest s m
  rw [hrun, Ran.mk.injEq, Outcome.returned.injEq] at hload
  obtain ⟨rfl, -, rfl⟩ := hload
  cases loaded with
  | false =>
    rw [if_neg Bool.false_ne_true]
    exact guarded_pure _
  | true =>
    rw [if_pos rfl]
    refine guarded_observe_bind ?_
    split
    · exact guarded_warn_pure env _ _
    · exact guarded_enableFormat env name (hreg rfl)

theorem guarded_enableEach (names : List Text) :
    GuardedFrom (Served env) s (enableEach env names) := by
  induction names generalizing s with
  | nil => exact guarded_pure _
  | cons name rest ih =>
    refine guarded_observe_bind ?_
    split
    · exact ih
    · refine (guarded_actEnableName env htest name).then (fun worked t => ?_)
      exact ih.then (fun others u => guarded_pure _)

theorem guarded_actEnable (name : Option Text) :
    GuardedFrom (Served env) s (actEnable env name) := by
  cases name with
  | some name => exact guarded_actEnableName env htest name
  | none =>
    refine (guarded_loadBinfmtMisc env).then (fun loaded t => ?_)
    split
    · refine guarded_silent_bind (silent_loadAllFormats env false) (fun _ => ?_)
      refine guarded_silent_bind Prog.silent_recollect (fun m => ?_)
      exact guarded_enableEach env htest _
    · exact guarded_pure _

omit htest

/-- An entry is only removed where it was seen. -/
theorem guarded_dropEntry (name : Text) (hexists : s.kernel.procExists name = true) :
    GuardedFrom (Served env) s (Actions.dropEntry env name) := by
  refine guarded_silent_bind (silent_succeeds env) (fun ok => ?_)
  split
  · cases hdir : isDirectoryName name with
    | true =>
      rw [if_pos rfl]
      exact guarded_warn_pure env _ _
    | false =>
      have hwrite : GuardedFrom (Served env) s (writeMinusOne env name) := by
        refine guarded_silent_bind (silent_nextFault env) (fun fault => ?_)
        cases fault with
        | none =>
          dsimp only
          split
          · exact guarded_pure _
          · rename_i hregister
            split
            · rename_i hstatus
              refine guarded_emit_pure ?_ _
              rw [Kernel.procExists, hdir, hstatus] at hexists
              simp only [Bool.false_or, Bool.and_eq_true] at hexists
              rw [Served, Kernel.hasRegister, hexists.1, hexists.2.1]
              rfl
            · rename_i hstatus
              have hcontrol : isControlName name = false := by
                simp [isControlName, hregister, hstatus]
              obtain ⟨hreg, hentry⟩ := hasEntry_of_procExists hdir hcontrol hexists
              exact guarded_emit_pure ⟨hreg, hcontrol, hentry⟩ _
        | error written => exact guarded_pure _
        | ignored => exact guarded_pure _
      rw [if_neg Bool.false_ne_true]
      refine hwrite.then (fun written t => ?_)
      split
      · refine guarded_observe_bind ?_
        split
        · exact guarded_warn_pure env _ _
        · exact guarded_pure _
      · exact guarded_warn_pure env _ _
  · exact guarded_warn_pure env _ _

theorem guarded_actDisableName (name : Text) :
    GuardedFrom (Served env) s (actDisableName env name) := by
  refine guarded_observe_bind ?_
  split
  · split
    · rename_i hexists
      split
      · exact guarded_silent_bind (silent_answer _) (fun _ => guarded_pure _)
      · exact guarded_dropEntry env name hexists
    · exact guarded_pure _
  · exact guarded_pure _

theorem guarded_disableEach (names : List Text) :
    GuardedFrom (Served env) s (disableEach env names) := by
  induction names generalizing s with
  | nil => exact guarded_pure _
  | cons name rest ih =>
    refine guarded_observe_bind ?_
    split
    · refine (guarded_actDisableName env name).then (fun worked t => ?_)
      exact ih.then (fun others u => guarded_pure _)
    · exact ih

theorem guarded_unloadBinfmtMisc : GuardedFrom (Served env) s (unloadBinfmtMisc env) := by
  have hunmount : GuardedFrom (Served env) s (unmount env) := by
    refine guarded_silent_bind (silent_succeeds env) (fun ok => ?_)
    split
    · exact guarded_emit_pure trivial _
    · exact guarded_warn_pure env _ _
  refine guarded_observe_bind ?_
  split
  · exact guarded_silent_bind (silent_answer _) (fun _ => guarded_pure _)
  · split
    · split
      · refine guarded_silent_bind (silent_succeeds env) (fun ok => ?_)
        split
        · exact guarded_emit_pure trivial _
        · exact hunmount
      · exact hunmount
    · exact guarded_pure _

theorem guarded_actDisable (name : Option Text) :
    GuardedFrom (Served env) s (actDisable env name) := by
  cases name with
  | some name => exact guarded_actDisableName env name
  | none =>
    refine guarded_observe_bind ?_
    split
    · refine guarded_silent_bind (silent_loadAllFormats env false) (fun _ => ?_)
      refine guarded_silent_bind Prog.silent_recollect (fun m => ?_)
      refine (guarded_disableEach env _).then (fun worked t => ?_)
      exact (guarded_unloadBinfmtMisc env).then (fun _ u => guarded_pure _)
    · exact guarded_pure _

/-- What is written to the database is nothing to the kernel. -/
theorem guarded_binfmtWrite (b : Option Binfmt) (file : Text) :
    GuardedFrom (Served env) s (binfmtWrite env b file) := by
  have hunlink : GuardedFrom (Served env) s (unlinkFile env file) := by
    refine guarded_silent_bind (silent_succeeds env) (fun ok => ?_)
    split
    · refine guarded_observe_bind ?_
      split
      · exact guarded_emit_pure trivial _
      · exact guarded_pure _
    · exact guarded_pure _
  have happend : ∀ bytes t, GuardedFrom (Served env) t (appendBytes file bytes) := by
    intro bytes
    induction bytes with
    | nil => exact fun t => guarded_pure _
    | cons byte rest ih => exact fun t => (guarded_emit trivial).then (fun _ u => ih u)
  have hcontents : ∀ content t, GuardedFrom (Served env) t (writeContents env file content) := by
    intro content t
    refine guarded_silent_bind (silent_nextFault env) (fun fault => ?_)
    cases fault <;> exact (happend _ t).then (fun _ u => guarded_pure _)
  rw [binfmtWrite.eq_def]
  refine hunlink.then (fun gone t => ?_)
  split
  · refine guarded_silent_bind (silent_succeeds env) (fun ok => ?_)
    split
    · refine (guarded_emit trivial).then (fun _ u => ?_)
      cases b with
      | none => exact silent_guarded Prog.silent_crash
      | some b =>
        refine (hcontents _ u).then (fun written v => ?_)
        split
        · exact guarded_pure _
        · exact guarded_warn_pure env _ _
    · exact guarded_warn_pure env _ _
  · exact guarded_warn_pure env _ _

theorem guarded_renameMv (source dest : Text) :
    GuardedFrom (Served env) s (renameMv env source dest) := by
  have htry : ∀ t, GuardedFrom (Served env) t (tryRename env source dest) := by
    intro t
    refine guarded_silent_bind (silent_succeeds env) (fun ok => ?_)
    split
    · split
      · exact guarded_pure _
      · exact guarded_emit_pure trivial _
    · exact guarded_pure _
  refine (htry s).then (fun moved t => ?_)
  split
  · exact guarded_pure _
  · exact htry t

include htest

theorem guarded_enableInstalled (name : Text) (b : Binfmt) :
    GuardedFrom (Served env) s (enableInstalled env name b) := by
  refine guarded_silent_bind (Prog.silent_remember _) (fun _ => ?_)
  refine (guarded_actEnableName env htest name).then (fun worked t => ?_)
  split
  · exact guarded_pure _
  · exact guarded_warn_pure env _ _

theorem guarded_actInstall (name : Text) (b : Option Binfmt) :
    GuardedFrom (Served env) s (actInstall env name b) := by
  have hfile : ∀ t, GuardedFrom (Served env) t (installFile env name b) := by
    intro t
    rw [installFile.eq_def, if_neg (by simp [htest])]
    refine (guarded_binfmtWrite env b _).then (fun written u => ?_)
    split
    · refine (guarded_renameMv env _ _).then (fun moved v => ?_)
      split
      · cases b with
        | none => exact silent_guarded Prog.silent_crash
        | some b => exact guarded_enableInstalled env htest name b
      · exact guarded_warn_pure env _ _
    · exact guarded_pure _
  have hmanual : ∀ t, GuardedFrom (Served env) t (installUnlessManual env name b) := by
    intro t
    refine guarded_observe_bind ?_
    split
    · exact guarded_warn_pure env _ _
    · exact hfile t
  have hreplace : ∀ t, GuardedFrom (Served env) t (replaceFormat env name b) := by
    intro t
    refine guarded_observe_bind ?_
    split
    · refine (guarded_actDisableName env name).then (fun worked u => ?_)
      split
      · exact hmanual u
      · exact guarded_warn_pure env _ _
    · exact hmanual t
  rw [actInstall.eq_def]
  refine guarded_silent_bind (silent_loadFormat env name true) (fun _ => ?_)
  refine guarded_silent_bind Prog.silent_recollect (fun m => ?_)
  split
  · exact hreplace s
  · split
    · exact silent_guarded Prog.silent_crash
    · split
      · split
        · exact hreplace s
        · exact guarded_warn_pure env _ _
      · exact silent_guarded Prog.silent_crash

omit htest

theorem guarded_actRemove (name package : Text) :
    GuardedFrom (Served env) s (actRemove env name package) := by
  have hfile : ∀ t, GuardedFrom (Served env) t (removeFile env name) := by
    intro t
    rw [removeFile]
    split
    · exact guarded_silent_bind (silent_answer _) (fun _ => guarded_pure _)
    · refine guarded_silent_bind (silent_succeeds env) (fun ok => ?_)
      split
      · refine (guarded_emit trivial).then (fun _ u => ?_)
        exact guarded_silent_bind (Prog.silent_remember _) (fun _ => guarded_pure _)
      · exact guarded_warn_pure env _ _
  have hformat : GuardedFrom (Served env) s (removeFormat env name) := by
    refine (guarded_actDisableName env name).then (fun worked t => ?_)
    split
    · exact hfile t
    · exact guarded_warn_pure env _ _
  refine guarded_observe_bind ?_
  split
  · refine guarded_silent_bind (silent_loadFormat env name true) (fun _ => ?_)
    refine guarded_silent_bind Prog.silent_recollect (fun m => ?_)
    split
    · exact hformat
    · split
      · exact silent_guarded Prog.silent_crash
      · split
        · exact hformat
        · exact guarded_warn_pure env _ _
  · exact guarded_warn_pure env _ _

include htest

theorem guarded_importRecord (path id : Text) (import_ : Arguments) :
    GuardedFrom (Served env) s (importRecord env path id import_) := by
  have hdone : ∀ b t, GuardedFrom (Served env) t (actInstall env id b >>= fun _ => pure true) :=
    fun b t => (guarded_actInstall env htest id b).then (fun _ u => guarded_pure _)
  rw [importRecord]
  split
  · cases binfmtNew import_ with
    | error value =>
      dsimp only
      split
      · exact guarded_silent_bind (silent_warn _) (fun _ => silent_guarded (silent_quit _))
      · exact silent_guarded (silent_quit _)
    | ok result =>
      cases result with
      | error why =>
        dsimp only
        split
        · exact guarded_silent_bind (silent_warn _)
            (fun _ => guarded_silent_bind (silent_warn _) (fun _ => hdone none s))
        · exact guarded_silent_bind (silent_warn _) (fun _ => hdone none s)
      | ok b =>
        dsimp only
        split
        · exact guarded_silent_bind (silent_warn _) (fun _ => hdone (some b) s)
        · exact hdone (some b) s
  · exact guarded_warn_pure env _ _

theorem guarded_importUnlessLocal (path id : Text) (import_ : Arguments) :
    GuardedFrom (Served env) s (importUnlessLocal env path id import_) := by
  rw [importUnlessLocal]
  refine guarded_silent_bind (silent_loadFormat env id true) (fun _ => ?_)
  refine guarded_silent_bind Prog.silent_recollect (fun m => ?_)
  split
  · exact guarded_importRecord env htest path id import_
  · split
    · exact silent_guarded Prog.silent_crash
    · split
      · exact guarded_warn_pure env _ _
      · exact guarded_importRecord env htest path id import_

omit htest in
theorem silent_getImport (path : Text) : Prog.Silent (getImport env path) := by
  rw [getImport.eq_def]
  split
  · exact (silent_warn _).bind (fun _ => Prog.silent_pure _)
  · refine (silent_succeeds env).bind (fun ok => ?_)
    split
    · exact Prog.silent_pure _
    · exact (silent_warn _).bind (fun _ => Prog.silent_pure _)

theorem guarded_actImportName (path : Text) :
    GuardedFrom (Served env) s (actImportName env path) := by
  rw [actImportName]
  dsimp only
  split
  · exact guarded_warn_pure env _ _
  · refine guarded_silent_bind (silent_getImport env _) (fun table => ?_)
    split
    · exact guarded_warn_pure env _ _
    · split
      · exact guarded_warn_pure env _ _
      · exact guarded_importUnlessLocal env htest _ _ _

theorem guarded_actImport (path : Option Text) :
    GuardedFrom (Served env) s (actImport env path) := by
  have heach : ∀ names t, GuardedFrom (Served env) t (importEach env names) := by
    intro names
    induction names with
    | nil => exact fun t => guarded_pure _
    | cons name rest ih =>
      intro t
      rw [importEach]
      split
      · refine (guarded_actImportName env htest name).then (fun worked u => ?_)
        exact (ih u).then (fun others v => guarded_pure _)
      · exact ih t
  cases path with
  | some path => exact guarded_actImportName env htest path
  | none =>
    refine guarded_silent_bind (silent_succeeds env) (fun ok => ?_)
    split
    · exact heach _ s
    · exact guarded_warn_pure env _ _

end Actions

section Runs
variable {env : Env} {s : Store}

theorem guarded_runMode (htest : env.test = false) (o : Options) :
    GuardedFrom (Served env) s (runMode env o) := by
  cases hmode : o.mode with
  | none =>
    simp only [runMode, hmode]
    exact guarded_pure _
  | some mode =>
    simp only [runMode, hmode]
    cases mode with
    | install =>
      dsimp only
      rw [installMode]
      split
      · exact silent_guarded (silent_quit _)
      · exact guarded_silent_bind (silent_warn _) (fun _ => guarded_actInstall env htest _ _)
      · exact guarded_actInstall env htest _ _
    | remove => exact guarded_actRemove env _ _
    | «import» => exact guarded_actImport env htest _
    | display => exact silent_guarded (Silence.silent_actDisplay env _)
    | enable => exact guarded_actEnable env htest _
    | disable => exact guarded_actDisable env _
    | find => exact silent_guarded (Silence.silent_actFind env _)

/-- The flag is nothing to the kernel. -/
theorem served_test (env : Env) (test : Bool) : Served { env with test := test } = Served env := by
  funext s e
  cases e <;> simp only [Served, accepted]

theorem guarded_main (opts : List Opt) :
    GuardedFrom (Served env) s (CommandLine.main env opts) := by
  intro m
  cases hparse : parse opts with
  | error why =>
    simp only [CommandLine.main, hparse]
    exact trivial
  | ok o =>
    rw [effects_main hparse]
    cases htest : o.test with
    | true => exact silent_guarded (Silence.silent_runMode_test _ rfl o) m
    | false =>
      have hmode : GuardedFrom (Served { env with test := false }) s
          (runMode { env with test := false } o) := guarded_runMode rfl o
      rw [served_test] at hmode
      exact hmode m

def emulateAll (st : State) (es : List Effect) : Except Errno State := es.foldlM emulate st

theorem mirrored_run (hstrict : Stricter env) (opts : List Opt) {s : Store}
    (m : Memory) {st : State} (hreg : s.kernel.hasRegister = true) (hmirrors : Mirrors s.kernel st)
    {done : List Effect} (hdone : done <+: ((CommandLine.main env opts).run s m).effects)
    (hmounted : .umount ∉ done) : ∃ st', emulateAll st done = .ok st' ∧
      Mirrored (replay done s) st' := by
  have hguarded : Guarded (Served env) done s := (guarded_main opts m).initial hdone
  have hstep : ∀ e ∈ done, ∀ t st, Mirrored t st → Served env t e →
      ∃ st', emulate st e = .ok st' ∧ Mirrored (apply e t) st' :=
    fun e he t st hR => emulate_served hstrict (fun heq => hmounted (heq ▸ he)) hR
  exact hguarded.followed hstep ⟨hmirrors, hreg⟩

/-- Whatever a run is told to do and whatever goes wrong: as long as nothing is unmounted, the
emulator accepts everything that the run writes to procdir. At every point it has the entries
that the kernel of the model has, and takes the lines that this kernel would take. -/
theorem emulated_run (hstrict : Stricter env) (opts : List Opt) (s : Store)
    (m : Memory) (st : State) (hreg : s.kernel.hasRegister = true) (hmirrors : Mirrors s.kernel st)
    (done : List Effect) (hdone : done <+: ((CommandLine.main env opts).run s m).effects)
    (hmounted : .umount ∉ done) : ∃ st', emulateAll st done = .ok st' ∧
      Mirrors (replay done s).kernel st' ∧
      ∀ r : Registration, ((accepted env (replay done s).kernel r).isSome = true →
          ∃ st'', write st' (text "/register") r.regstring = .ok st'') ∧
        ((∀ e, emulatorAccepts e = true → env.accepts e = true) →
          isControlName (r.name.takeWhile (· ≠ colon)) = false →
          (∃ st'', write st' (text "/register") r.regstring = .ok st'') →
          (accepted env (replay done s).kernel r).isSome = true) := by
  obtain ⟨st', hrun, hmirrored⟩ := mirrored_run hstrict opts m hreg hmirrors hdone hmounted
  refine ⟨st', hrun, hmirrored.1, fun r => ⟨write_of_accepted hstrict hmirrored, ?_⟩⟩
  rintro hall hcontrol ⟨st'', hwrite⟩
  exact accepted_of_write hall hmirrored hcontrol hwrite

def emulatedEnv : Env := { plainEnv with accepts := emulatorAccepts }

def elfOptions : List Opt :=
  [.mode .install [text "elf", text "/bin/elf"], .magic (text "\\x7fELF")]

def elfEffects : List Effect :=
  ((CommandLine.main emulatedEnv elfOptions).run emptyStore Memory.fresh).effects

theorem emulated_run_elf : ∃ st', emulateAll ⟨true, ∅⟩ elfEffects = .ok st' ∧
    Mirrors (replay elfEffects emptyStore).kernel st' ∧
    ∀ r : Registration, ((accepted emulatedEnv (replay elfEffects emptyStore).kernel r).isSome =
        true → ∃ st'', write st' (text "/register") r.regstring = .ok st'') ∧
      ((∀ e, emulatorAccepts e = true → emulatedEnv.accepts e = true) →
        isControlName (r.name.takeWhile (· ≠ colon)) = false →
        (∃ st'', write st' (text "/register") r.regstring = .ok st'') →
        (accepted emulatedEnv (replay elfEffects emptyStore).kernel r).isSome = true) :=
  emulated_run (fun _ h => h) elfOptions emptyStore Memory.fresh ⟨true, ∅⟩ rfl
    (mirrors_empty ⟨none, true, true⟩ true) elfEffects List.prefix_rfl (by decide +kernel)

end Runs

end BinfmtSupport.Emulation
