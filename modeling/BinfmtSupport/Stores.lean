import BinfmtSupport.Journal
import BinfmtSupport.Regstring

/-!
The two stores that update-binfmts works on, and the system calls that touch
them. The administrative directory maps file names to contents; the kernel keeps
registered entries, oldest first, behind the control files of procdir.
Every call may fail, as the stream of faults says. A write that goes wrong can
leave any number of bytes, and the kernel may ignore the removal of an entry.
A file is named by what follows "directory/" in its path. Where such a name has a slash it is
a path of its own, which may lead to the file of another name ("./prog" to that of "prog");
the stores do not follow it.
-/
namespace BinfmtSupport.Stores

open CText Kvhash Format Regstring Journal

/-- The names that denote the directory itself or its parent. -/
def isDirectoryName (name : Text) : Bool :=
  name = [] || name = text "." || name = text ".."

def isControlName (name : Text) : Bool := name = text "register" || name = text "status"

/-- What can be seen of the module: /proc/filesystems, the procdir directory,
and whether the control files are visible in it. -/
structure Mount where
  filesystems : Option (List Byte)
  procdir : Bool
  register : Bool
deriving DecidableEq

/-- Entries are kept in the order of their registration. They belong to the module
and survive an unmount, but are only visible while the control files are. -/
structure Kernel where
  mount : Mount
  enabled : Bool
  entries : List Entry
deriving DecidableEq

namespace Kernel

def hasEntry (k : Kernel) (name : Text) : Bool := k.entries.any (fun e => e.name = name)

/-- is_file (path_register) -/
def hasRegister (k : Kernel) : Bool := k.mount.procdir && k.mount.register

/-- exists (procdir_name) -/
def procExists (k : Kernel) (name : Text) : Bool :=
  k.mount.procdir && (isDirectoryName name ||
    (k.mount.register && (isControlName name || k.hasEntry name)))

end Kernel

abbrev Directory := Table Text (List Byte)

/-- The name of a file, as opposed to a path with slashes that leads to one. -/
abbrev PlainName := { name : Text // slash ∉ name }

structure Store where
  admindir : Directory
  kernel : Kernel

/-- is_file (admindir_name), with the contents of the file. -/
def Store.file (s : Store) (name : Text) : Option (List Byte) := s.admindir.lookup name

/-- The record that a later run loads under this name, if the file is intact. -/
def Store.record (s : Store) (name : Text) : Option Binfmt :=
  match s.file name with
  | some content => (binfmtLoad content).toOption
  | none => none

inductive Effect
  | unlink (file : Text)
  | create (file : Text)
  | append (file : Text) (byte : Byte)
  | rename (source dest : Text)
  | modprobe (result : Mount)
  | mount
  | umount
  | status (enabled : Bool)
  | register (registration : Registration) (entry : Entry)
  | dropEntry (name : Text)
deriving DecidableEq

def Effect.apply : Effect → Store → Store
  | .unlink file, s => { s with admindir := s.admindir.erase file }
  | .create file, s => { s with admindir := s.admindir.insert file [] }
  | .append file byte, s =>
      match s.admindir.lookup file with
      | some content => { s with admindir := s.admindir.insert file (content ++ [byte]) }
      | none => s
  | .rename source dest, s =>
      match s.admindir.lookup source with
      | some content => { s with admindir := (s.admindir.erase source).insert dest content }
      | none => s
  | .modprobe result, s => { s with kernel := { s.kernel with mount := result } }
  | .mount, s =>
      { s with kernel := { s.kernel with mount := { s.kernel.mount with register := true } } }
  | .umount, s =>
      { s with kernel := { s.kernel with mount := { s.kernel.mount with register := false } } }
  | .status enabled, s => { s with kernel := { s.kernel with enabled := enabled } }
  | .register _ entry, s =>
      { s with kernel := { s.kernel with entries := s.kernel.entries ++ [entry] } }
  | .dropEntry name, s =>
      { s with kernel := { s.kernel with
          entries := s.kernel.entries.filter (fun e => e.name ≠ name) } }

instance : Effects Effect Store := ⟨Effect.apply⟩

/-- How one call goes wrong: with an error after some bytes were written, or
with a success that the kernel did not act upon. -/
inductive Fault
  | none
  | error (written : ℕ)
  | ignored
deriving DecidableEq

/-- Standard output under --test, and the answers of --display and --find. -/
inductive Answer
  | load
  | unload (filesystem : Bool)
  | enable (name : Text) (registration : Registration)
  | disable (name : Text)
  | description
  | install (binfmt : Binfmt)
  | remove (name : Text)
  | display (name : Text) (enabled : Bool) (package : Text) (binfmt : Binfmt)
  | found (interpreter : Text)
deriving DecidableEq

/-- Diagnostics on standard error, one constructor for each message of the source. -/
inductive Warning
  | unableToOpen (name : Text)
  | unableToOpenForWriting (name : Text)
  | unableToClose (name : Text)
  | unableToEnsureNonexistent (name : Text)
  | couldntLoadModule
  | noProcdir
  | couldntMount
  | couldntUnmount
  | registerMissing
  | outOfData (name field : Text)
  | alreadyEnabled (name : Text)
  | notInDatabase (name : Text)
  | removalIgnored (name : Text)
  | installedBy (package oldPackage : Text)
  | unableToDisable (name : Text)
  | manuallyCreated (name : Text)
  | unableToInstall (source dest : Text)
  | unableToEnable (name : Text)
  | doesNotExist (name : Text)
  | notRemoving (package oldPackage : Text)
  | unableToRemove (name : Text)
  | reserved (name : Text)
  | nothingToImport (name : Text)
  | preservingLocalChanges (name : Text)
  | packageLineMissing (path : Text)
  | noExecutable (path : Text) (interpreter : Option Text)
  | rejected (name : Text) (why : Rejection)
  | newlinesProhibited (value : Text)
  | previousErrors
deriving DecidableEq

/-- What the process holds and what it has printed. -/
structure Memory where
  formats : Table Text Binfmt
  clock : ℕ
  answers : List Answer
  warnings : List Warning

def Memory.fresh : Memory := ⟨∅, 0, [], []⟩

/-- Everything a run is given: its options, the files and programs outside the two
stores (files to import or to find interpreters for, detectors), the behaviour of
the kernel, and the order in which directories and tables are enumerated. -/
structure Env where
  test : Bool
  runDetectors : Text
  importdir : Text
  importNames : List Text
  files : Text → Option (List Byte)
  executable : Text → Bool
  detect : Text → Text → ℕ
  faults : ℕ → Fault
  accepts : Entry → Bool
  modprobed : Mount → Mount
  fuse : Bool
  readdir : Directory → List Text
  readdir_perm : ∀ d, (readdir d).Perm d.keys
  walk : Table Text Binfmt → List Text
  walk_perm : ∀ t, (walk t).Perm t.keys

/-- An ordinary machine: every call succeeds and the kernel takes every line. -/
def plainEnv : Env where
  test := false
  runDetectors := text "/usr/lib/binfmt-support/run-detectors"
  importdir := text "/usr/share/binfmts"
  importNames := []
  files := fun _ => none
  executable := fun _ => true
  detect := fun _ _ => 0
  faults := fun _ => .none
  accepts := fun _ => true
  modprobed := fun mount => { mount with procdir := true, register := true }
  fuse := false
  readdir := fun d => d.keys
  readdir_perm := fun _ => List.Perm.refl _
  walk := fun t => t.keys
  walk_perm := fun _ => List.Perm.refl _

/-- Nothing is installed and the control files are visible. -/
def emptyStore : Store := ⟨∅, ⟨⟨none, true, true⟩, true, []⟩⟩

/-- Two packages have installed a format each. -/
def busyStore (entries : List Entry) : Store :=
  ⟨⟨[⟨text "jar", text "openjdk\nmagic\n0\nPK\n\n/usr/bin/jexec\n\n\n\n"⟩,
    ⟨text "wine", text "wine\nmagic\n0\nMZ\n\n/usr/bin/wine\n\n\n\n"⟩],
    by unfold List.NodupKeys; decide⟩,
    ⟨⟨none, true, true⟩, true, entries⟩⟩

def jarEntry : Entry :=
  ⟨text "jar", text "M", text "0", text "PK", [], text "/usr/bin/jexec", [[]]⟩

def wineEntry : Entry :=
  ⟨text "wine", text "M", text "0", text "MZ", [], text "/usr/bin/wine", [[]]⟩

/-- An entry that no stored format has. -/
def qemuEntry : Entry :=
  ⟨text "qemu", text "M", text "0", text "EL", [], text "/usr/bin/qemu", [[]]⟩

abbrev Act := Prog Store Effect Memory

section Calls
variable (env : Env)

def answer (a : Answer) : Act Unit :=
  Prog.remember (fun m => { m with answers := m.answers ++ [a] })

def warn (w : Warning) : Act Unit :=
  Prog.remember (fun m => { m with warnings := m.warnings ++ [w] })

/-- quit and quit_err: say why and leave with status 2. -/
def quit {α : Type} (w : Warning) : Act α := do
  warn w
  Prog.exit 2

def nextFault : Act Fault :=
  ⟨fun _ m => ⟨.returned (env.faults m.clock), { m with clock := m.clock + 1 }, []⟩⟩

/-- Whether the next call succeeds; a fault that is no error goes unnoticed. -/
def succeeds : Act Bool := do
  match ← nextFault env with
  | .error _ => return false
  | _ => return true

/-- unlink, where a missing file counts as removed. -/
def unlinkFile (file : Text) : Act Bool := do
  if ← succeeds env then
    let s ← Prog.observe
    if (s.file file).isSome then
      Prog.emit (.unlink file)
      return true
    else return true
  else return false

def appendBytes (file : Text) : List Byte → Act Unit
  | [] => return ()
  | byte :: rest => do
      Prog.emit (.append file byte)
      appendBytes file rest

/-- The buffered writes up to fclose: an error leaves a prefix of the contents. -/
def writeContents (file : Text) (content : List Byte) : Act Bool := do
  match ← nextFault env with
  | .error written =>
      appendBytes file (content.take written)
      return false
  | _ =>
      appendBytes file content
      return true

/-- A directory is not replaced by a file. -/
def tryRename (source dest : Text) : Act Bool := do
  if ← succeeds env then
    if isDirectoryName dest then return false
    else
      Prog.emit (.rename source dest)
      return true
  else return false

/-- rename, and mv where that fails. Of mv it is assumed that it either moves the file in one
step or does nothing, as within one file system. -/
def renameMv (source dest : Text) : Act Bool := do
  if ← tryRename env source dest then return true
  else tryRename env source dest

/-- The entry that the kernel creates for a line, if it accepts the line. -/
def accepted (k : Kernel) (r : Registration) : Option Entry :=
  match entryOf (decodeLine r.regstring) with
  | some e => if !k.procExists e.name && env.accepts e then some e else none
  | none => none

def writeRegister (r : Registration) : Act Bool := do
  match ← nextFault env with
  | .none =>
      let s ← Prog.observe
      match accepted env s.kernel r with
      | some e =>
          Prog.emit (.register r e)
          return true
      | none => return false
  | _ => return false

/-- fputs "-1" and fclose: an entry goes, the status file takes anything but "1" as
off, and the register file refuses so short a line. -/
def writeMinusOne (name : Text) : Act Bool := do
  match ← nextFault env with
  | .error _ => return false
  | .ignored => return true
  | .none =>
      if name = text "register" then return false
      else if name = text "status" then
        Prog.emit (.status false)
        return true
      else
        Prog.emit (.dropEntry name)
        return true

end Calls

section Runs
variable (env : Env)

def Env.ok (env : Env) (time : ℕ) : Bool :=
  match env.faults time with
  | .error _ => false
  | _ => true

def Memory.tick (m : Memory) : Memory := { m with clock := m.clock + 1 }

def Memory.warned (m : Memory) (w : Warning) : Memory :=
  { m with warnings := m.warnings ++ [w] }

@[simp] theorem formats_tick (m : Memory) : m.tick.formats = m.formats := rfl

@[simp] theorem run_warn_bind {β : Type} (w : Warning) (f : Unit → Act β) (s : Store)
    (m : Memory) : (warn w >>= f).run s m =
      (f ()).run s (m.warned w) := Prog.run_remember_bind _ f s m

@[simp] theorem run_quit {α : Type} (w : Warning) (s : Store) (m : Memory) :
    (quit w : Act α).run s m = ⟨.exited 2, m.warned w, []⟩ := by
  simp [quit]

theorem run_nextFault (s : Store) (m : Memory) :
    (nextFault env).run s m = ⟨.returned (env.faults m.clock), m.tick, []⟩ := rfl

@[simp] theorem run_nextFault_bind {β : Type} (f : Fault → Act β) (s : Store) (m : Memory) :
    (nextFault env >>= f).run s m = (f (env.faults m.clock)).run s m.tick :=
  Prog.run_bind_returned (run_nextFault env s m) f

@[simp] theorem run_succeeds (s : Store) (m : Memory) :
    (succeeds env).run s m = ⟨.returned (env.ok m.clock), m.tick, []⟩ := by
  simp only [succeeds, run_nextFault_bind, Env.ok]
  cases env.faults m.clock <;> rfl

@[simp] theorem run_succeeds_bind {β : Type} (f : Bool → Act β) (s : Store) (m : Memory) :
    (succeeds env >>= f).run s m = (f (env.ok m.clock)).run s m.tick :=
  Prog.run_bind_returned (run_succeeds env s m) f

@[simp] theorem run_appendBytes (file : Text) (bytes : List Byte) (s : Store) (m : Memory) :
    (appendBytes file bytes).run s m = ⟨.returned (), m, bytes.map (Effect.append file)⟩ := by
  induction bytes generalizing s with
  | nil => rfl
  | cons byte rest ih => simp [appendBytes, ih]

@[simp] theorem run_appendBytes_bind {β : Type} (file : Text) (bytes : List Byte)
    (f : Unit → Act β) (s : Store) (m : Memory) : (appendBytes file bytes >>= f).run s m =
      ((f ()).run (replay (bytes.map (Effect.append file)) s) m).after
        (bytes.map (Effect.append file)) :=
  Prog.run_bind_returned (run_appendBytes file bytes s m) f

end Runs

section Frames

/-- Effects on the administrative directory, and the file names they touch. -/
def Effect.files : Effect → List Text
  | .unlink file => [file]
  | .create file => [file]
  | .append file _ => [file]
  | .rename source dest => [source, dest]
  | _ => []

/-- Effects that make the module available but touch no entry and no file. -/
def Effect.isSetup : Effect → Bool
  | .modprobe _ => true
  | .mount => true
  | .status _ => true
  | _ => false

/-- Effects that only take away: files, what is in them, entries. -/
def Effect.isLoss : Effect → Bool
  | .unlink _ => true
  | .create _ => true
  | .dropEntry _ => true
  | .status _ => true
  | _ => false

@[simp] theorem apply_def (e : Effect) (s : Store) : Effects.apply e s = e.apply s := rfl

theorem file_unlink (file name : Text) (s : Store) :
    ((Effect.unlink file).apply s).file name = if name = file then none else s.file name := by
  change (s.admindir.erase file).lookup name = _
  by_cases h : name = file
  · subst h
    rw [if_pos rfl, AList.lookup_erase]
  · rw [if_neg h, AList.lookup_erase_ne h]
    rfl

theorem file_create (file name : Text) (s : Store) :
    ((Effect.create file).apply s).file name = if name = file then some [] else s.file name := by
  change (s.admindir.insert file []).lookup name = _
  by_cases h : name = file
  · subst h
    rw [if_pos rfl, AList.lookup_insert]
  · rw [if_neg h, AList.lookup_insert_ne h]
    rfl

theorem apply_append (file : Text) (byte : Byte) (s : Store) {content : List Byte}
    (hc : s.file file = some content) : (Effect.append file byte).apply s =
      { s with admindir := s.admindir.insert file (content ++ [byte]) } := by
  unfold Store.file at hc
  simp only [Effect.apply, hc]

theorem apply_append_missing (file : Text) (byte : Byte) (s : Store)
    (hc : s.file file = none) : (Effect.append file byte).apply s = s := by
  unfold Store.file at hc
  simp only [Effect.apply, hc]

theorem apply_rename (source dest : Text) (s : Store) {content : List Byte}
    (hc : s.file source = some content) : (Effect.rename source dest).apply s =
      { s with admindir := (s.admindir.erase source).insert dest content } := by
  unfold Store.file at hc
  simp only [Effect.apply, hc]

theorem apply_rename_missing (source dest : Text) (s : Store)
    (hc : s.file source = none) : (Effect.rename source dest).apply s = s := by
  unfold Store.file at hc
  simp only [Effect.apply, hc]

theorem file_append (file name : Text) (byte : Byte) (s : Store) :
    ((Effect.append file byte).apply s).file name =
      if name = file then (s.file file).map (fun c => c ++ [byte]) else s.file name := by
  cases hc : s.file file with
  | none =>
    rw [apply_append_missing file byte s hc]
    split
    · subst name
      exact hc
    · rfl
  | some content =>
    rw [apply_append file byte s hc]
    change (s.admindir.insert file (content ++ [byte])).lookup name = _
    by_cases h : name = file
    · subst h
      rw [if_pos rfl, AList.lookup_insert]
      rfl
    · rw [if_neg h, AList.lookup_insert_ne h]
      rfl

theorem file_rename {source dest : Text} {content : List Byte} (s : Store)
    (hc : s.file source = some content) (name : Text) :
    ((Effect.rename source dest).apply s).file name =
      if name = dest then some content else if name = source then none else s.file name := by
  rw [apply_rename source dest s hc]
  change ((s.admindir.erase source).insert dest content).lookup name = _
  by_cases h : name = dest
  · subst h
    rw [if_pos rfl, AList.lookup_insert]
  · rw [if_neg h, AList.lookup_insert_ne h]
    by_cases h' : name = source
    · subst h'
      rw [if_pos rfl, AList.lookup_erase]
    · rw [if_neg h', AList.lookup_erase_ne h']
      rfl

/-- An effect leaves alone every file that it does not name. -/
theorem file_apply_of_notMem (e : Effect) (name : Text) (s : Store) (h : name ∉ e.files) :
    (e.apply s).file name = s.file name := by
  cases e with
  | unlink file => rw [file_unlink, if_neg (by simpa [Effect.files] using h)]
  | create file => rw [file_create, if_neg (by simpa [Effect.files] using h)]
  | append file byte => rw [file_append, if_neg (by simpa [Effect.files] using h)]
  | rename source dest =>
    simp only [Effect.files, List.mem_cons, List.not_mem_nil, or_false, not_or] at h
    cases hc : s.file source with
    | none => rw [apply_rename_missing source dest s hc]
    | some content => rw [file_rename s hc, if_neg h.2, if_neg h.1]
  | modprobe => rfl
  | mount => rfl
  | umount => rfl
  | status => rfl
  | register => rfl
  | dropEntry => rfl

/-- A journal leaves alone every file that none of its effects names. -/
theorem file_replay_of_notMem (es : List Effect) (name : Text) (s : Store)
    (h : ∀ e ∈ es, name ∉ e.files) : (replay es s).file name = s.file name :=
  replay_frame (fun t : Store => t.file name) es s
    (fun e he t => file_apply_of_notMem e name t (h e he))

/-- Effects on files leave the kernel alone. -/
theorem kernel_apply_of_files (e : Effect) (s : Store) (h : e.files ≠ []) :
    (e.apply s).kernel = s.kernel := by
  cases e with
  | append file byte =>
    cases hc : s.file file with
    | none => rw [apply_append_missing file byte s hc]
    | some content => rw [apply_append file byte s hc]
  | rename source dest =>
    cases hc : s.file source with
    | none => rw [apply_rename_missing source dest s hc]
    | some content => rw [apply_rename source dest s hc]
  | unlink => rfl
  | create => rfl
  | _ => simp [Effect.files] at h

theorem kernel_replay_of_files (es : List Effect) (s : Store)
    (h : ∀ e ∈ es, e.files ≠ []) : (replay es s).kernel = s.kernel :=
  replay_frame (fun t : Store => t.kernel) es s
    (fun e he t => kernel_apply_of_files e t (h e he))

theorem entries_apply_of_setup (e : Effect) (s : Store) (h : e.isSetup = true) :
    (e.apply s).kernel.entries = s.kernel.entries := by
  cases e <;> simp_all [Effect.isSetup, Effect.apply]

theorem admindir_apply_of_noFiles (e : Effect) (s : Store) (h : e.files = []) :
    (e.apply s).admindir = s.admindir := by
  cases e <;> simp_all [Effect.files, Effect.apply]

theorem admindir_replay_of_noFiles (es : List Effect) (s : Store)
    (h : ∀ e ∈ es, e.files = []) : (replay es s).admindir = s.admindir :=
  replay_frame (fun t : Store => t.admindir) es s
    (fun e he t => admindir_apply_of_noFiles e t (h e he))

theorem entries_replay_of_setup (es : List Effect) (s : Store)
    (h : ∀ e ∈ es, e.isSetup = true) :
    (replay es s).kernel.entries = s.kernel.entries :=
  replay_frame (fun t : Store => t.kernel.entries) es s
    (fun e he t => entries_apply_of_setup e t (h e he))

theorem files_of_isSetup (e : Effect) (h : e.isSetup = true) : e.files = [] := by
  cases e <;> simp_all [Effect.isSetup, Effect.files]

theorem file_apply_of_loss (e : Effect) (name : Text) (s : Store) (h : e.isLoss = true) :
    (e.apply s).file name = s.file name ∨ (e.apply s).file name = none ∨
      (e.apply s).file name = some [] := by
  cases e with
  | unlink file =>
    rw [file_unlink]
    split
    · exact Or.inr (Or.inl rfl)
    · exact Or.inl rfl
  | create file =>
    rw [file_create]
    split
    · exact Or.inr (Or.inr rfl)
    · exact Or.inl rfl
  | dropEntry => exact Or.inl rfl
  | status => exact Or.inl rfl
  | _ => cases h

theorem admindir_replay_of_setup (es : List Effect) (s : Store)
    (h : ∀ e ∈ es, e.isSetup = true) : (replay es s).admindir = s.admindir :=
  admindir_replay_of_noFiles es s (fun e he => files_of_isSetup e (h e he))

/-- After a loss a file is as before, gone or empty. -/
theorem file_replay_of_loss (es : List Effect) (name : Text) (s : Store)
    (h : ∀ e ∈ es, e.isLoss = true) :
    (replay es s).file name = s.file name ∨ (replay es s).file name = none ∨
      (replay es s).file name = some [] := by
  induction es generalizing s with
  | nil => exact Or.inl rfl
  | cons e rest ih =>
    have hfirst := file_apply_of_loss e name s (h e List.mem_cons_self)
    have hrest := ih (e.apply s) (fun x hx => h x (List.mem_cons_of_mem e hx))
    rw [replay_cons, apply_def]
    rcases hrest with hsame | hlost
    · rw [hsame]
      exact hfirst
    · exact Or.inr hlost

theorem entries_replay_of_loss (es : List Effect) (s : Store)
    (h : ∀ e ∈ es, e.isLoss = true) :
    (replay es s).kernel.entries.Sublist s.kernel.entries := by
  induction es generalizing s with
  | nil => exact List.Sublist.refl _
  | cons e rest ih =>
    have hrest := ih (e.apply s) (fun x hx => h x (List.mem_cons_of_mem e hx))
    have hfirst : (e.apply s).kernel.entries.Sublist s.kernel.entries := by
      have hloss := h e List.mem_cons_self
      cases e with
      | dropEntry name => exact List.filter_sublist
      | unlink file => exact List.Sublist.refl _
      | create file => exact List.Sublist.refl _
      | status enabled => exact List.Sublist.refl _
      | _ => cases hloss
    exact hrest.trans hfirst

theorem mount_replay_of_loss (es : List Effect) (s : Store)
    (h : ∀ e ∈ es, e.isLoss = true) : (replay es s).kernel.mount = s.kernel.mount := by
  refine replay_frame (fun t : Store => t.kernel.mount) es s ?_
  intro e he t
  have hloss := h e he
  cases e with
  | dropEntry => rfl
  | unlink => rfl
  | create => rfl
  | status => rfl
  | _ => cases hloss

/-- Appending to an existing file byte by byte. -/
theorem file_replay_appends (file : Text) (bytes content : List Byte) (s : Store)
    (hc : s.file file = some content) :
    (replay (bytes.map (Effect.append file)) s).file file = some (content ++ bytes) := by
  induction bytes generalizing s content with
  | nil => simpa using hc
  | cons byte rest ih =>
    rw [List.map_cons, replay_cons, ih (content ++ [byte])]
    · simp
    · rw [apply_def, file_append, if_pos rfl, hc]
      rfl

end Frames
end BinfmtSupport.Stores
