import BinfmtSupport.Stores

/-!
The actions of update-binfmts, translated from update-binfmts.c and format.c in
the order of the source. Each is a program over the two stores and the process's
memory; a C function that returns 0 or 1 returns a Boolean here.
The walk over the table of formats is fixed when it starts.
-/
namespace BinfmtSupport.Actions

open CText Kvhash Format Regstring Journal Stores

section LoadingLogic
variable (env : Env)

/-- Whether a line of /proc/filesystems ends in the word binfmt_misc. -/
def listsBinfmtMisc (line : List Byte) : Bool :=
  let line := if line.getLast? = some newline then line.dropLast else line
  12 ≤ line.length && isspace (line.getD (line.length - 12) 0) &&
    line.drop (line.length - 11) = text "binfmt_misc"

/-- get_binfmt_style: true is BINFMT_FILESYSTEM, false is BINFMT_PROCFS. -/
def filesystemStyle (mount : Mount) : Bool :=
  match mount.filesystems with
  | none => false
  | some content => (lines newline content).any listsBinfmtMisc

/-- The first part of load_binfmt_misc: modprobe where it is needed. -/
def loadModule : Act Bool := do
  let s ← Prog.observe
  if !filesystemStyle s.kernel.mount && !s.kernel.hasRegister then
    if ← succeeds env then
      Prog.emit (.modprobe (env.modprobed s.kernel.mount))
      return true
    else
      warn .couldntLoadModule
      return false
  else return true

/-- The second part of load_binfmt_misc: mount where it is needed. -/
def mountFilesystem : Act Bool := do
  let s ← Prog.observe
  if filesystemStyle s.kernel.mount && !s.kernel.hasRegister then
    if ← succeeds env then
      Prog.emit .mount
      return true
    else
      warn .couldntMount
      return false
  else return true

/-- The last part of load_binfmt_misc: write "1" to the status file. -/
def switchOn : Act Bool := do
  let s ← Prog.observe
  if s.kernel.hasRegister then
    if ← succeeds env then
      Prog.emit (.status true)
      return true
    else
      warn (.unableToOpenForWriting (text "status"))
      return true
  else
    warn .registerMissing
    return false

def loadBinfmtMisc : Act Bool := do
  if env.test then
    answer .load
    return true
  else if ← loadModule env then
    let s ← Prog.observe
    if s.kernel.mount.procdir then
      if ← mountFilesystem env then switchOn env else return false
    else
      warn .noProcdir
      return false
  else return false

def unmount : Act Bool := do
  if ← succeeds env then
    Prog.emit .umount
    return true
  else
    warn .couldntUnmount
    return false

/-- fusermount -u first where procdir is a FUSE mount, then umount. -/
def unloadBinfmtMisc : Act Bool := do
  let s ← Prog.observe
  if env.test then
    answer (.unload (filesystemStyle s.kernel.mount))
    return true
  else if filesystemStyle s.kernel.mount then
    if env.fuse then
      if ← succeeds env then
        Prog.emit .umount
        return true
      else unmount env
    else unmount env
  else return true

end LoadingLogic

section Reading
variable (env : Env)

/-- The first record that is loaded under a name stays in the table. -/
def loadFormat (name : Text) (quiet : Bool) : Act Unit := do
  let s ← Prog.observe
  match s.file name with
  | none => return ()
  | some content =>
      if ← succeeds env then
        match binfmtLoad content with
        | .error field => if quiet then return () else quit (.outOfData name field)
        | .ok format =>
            Prog.remember (fun m => { m with formats := kvhashInsert m.formats name format })
      else quit (.unableToOpen name)

def loadFormats (quiet : Bool) : List Text → Act Unit
  | [] => return ()
  | name :: rest => do
      loadFormat env name quiet
      loadFormats quiet rest

def loadAllFormats (quiet : Bool) : Act Unit := do
  if ← succeeds env then
    let s ← Prog.observe
    loadFormats env quiet (env.readdir s.admindir)
  else quit (.unableToOpen (text "admindir"))

end Reading

section Enable
variable (env : Env)

/-- `binfmt->detector && *binfmt->detector` -/
def hasDetector (binfmt : Binfmt) : Bool :=
  match binfmt.detector with
  | some (_ :: _) => true
  | _ => false

/-- Does a format of another name use the same spec? The walk stops at the first. -/
def scanFormats (name : Text) (binfmt : Binfmt) (formats : Table Text Binfmt) :
    List Text → Act Bool
  | [] => return false
  | key :: rest =>
      if key = name then scanFormats name binfmt formats rest
      else
        match kvhashLookup formats key with
        | none => scanFormats name binfmt formats rest
        | some other =>
            match binfmtEquals binfmt other with
            | none => Prog.crash
            | some true => return true
            | some false => scanFormats name binfmt formats rest

def needDetector (name : Text) (binfmt : Binfmt) : Act Bool := do
  if hasDetector binfmt then return true
  else
    loadAllFormats env true
    let m ← Prog.recollect
    scanFormats name binfmt m.formats (env.walk m.formats)

def chooseInterpreter (binfmt : Binfmt) (detector : Bool) : Option Text :=
  if detector then some env.runDetectors else binfmt.interpreter

/-- Open the register file and write the line, or show it under --test. -/
def register (name : Text) (registration : Registration) : Act Bool := do
  if env.test then
    answer (.enable name registration)
    return true
  else if ← succeeds env then
    if ← writeRegister env registration then return true
    else
      warn (.unableToClose (text "register"))
      return false
  else
    warn (.unableToOpenForWriting (text "register"))
    return false

def enableFormat (name : Text) : Act Bool := do
  loadFormat env name false
  let m ← Prog.recollect
  match kvhashLookup m.formats name with
  | none =>
      -- under --test the lookup is not guarded and its NULL is used
      if env.test then Prog.crash
      else
        warn (.notInDatabase name)
        return false
  | some binfmt =>
      let detector ← needDetector env name binfmt
      register env name (registrationOf name binfmt (chooseInterpreter env binfmt detector))

def actEnableName (name : Text) : Act Bool := do
  if ← loadBinfmtMisc env then
    let s ← Prog.observe
    if s.kernel.procExists name then
      warn (.alreadyEnabled name)
      return true
    else enableFormat env name
  else return true

def enableEach : List Text → Act Bool
  | [] => return true
  | name :: rest => do
      let s ← Prog.observe
      if s.kernel.procExists name then enableEach rest
      else
        let worked ← actEnableName env name
        let others ← enableEach rest
        return worked && others

def actEnable : Option Text → Act Bool
  | some name => actEnableName env name
  | none => do
      if ← loadBinfmtMisc env then
        loadAllFormats env false
        let m ← Prog.recollect
        enableEach env (env.walk m.formats)
      else return true

end Enable

section Disable
variable (env : Env)

/-- Open the entry, write "-1" and look whether it is gone. -/
def dropEntry (name : Text) : Act Bool := do
  if ← succeeds env then
    if isDirectoryName name then
      warn (.unableToOpenForWriting name)
      return false
    else if ← writeMinusOne env name then
      let s ← Prog.observe
      if s.kernel.procExists name then
        warn (.removalIgnored name)
        return false
      else return true
    else
      warn (.unableToClose name)
      return false
  else
    warn (.unableToOpenForWriting name)
    return false

def actDisableName (name : Text) : Act Bool := do
  let s ← Prog.observe
  if s.kernel.mount.procdir then
    if s.kernel.procExists name then
      if env.test then
        answer (.disable name)
        return true
      else dropEntry env name
    else return true
  else return true

def disableEach : List Text → Act Bool
  | [] => return true
  | name :: rest => do
      let s ← Prog.observe
      if s.kernel.procExists name then
        let worked ← actDisableName env name
        let others ← disableEach rest
        return worked && others
      else disableEach rest

def actDisable : Option Text → Act Bool
  | some name => actDisableName env name
  | none => do
      let s ← Prog.observe
      if s.kernel.mount.procdir then
        loadAllFormats env false
        let m ← Prog.recollect
        let worked ← disableEach env (env.walk m.formats)
        let _ ← unloadBinfmtMisc env
        return worked
      else return true

end Disable

section Install
variable (env : Env)

/-- A NULL record is used as soon as the file is open: it stays empty. -/
def binfmtWrite (binfmt : Option Binfmt) (filename : Text) : Act Bool := do
  if ← unlinkFile env filename then
    if ← succeeds env then
      Prog.emit (.create filename)
      match binfmt with
      | none => Prog.crash
      | some binfmt =>
          if ← writeContents env filename binfmt.contents then return true
          else
            warn (.unableToClose filename)
            return false
    else
      warn (.unableToOpenForWriting filename)
      return false
  else
    warn (.unableToEnsureNonexistent filename)
    return false

def tmpName (name : Text) : Text := name ++ text ".tmp"

/-- How a package is shown; local entries belong to the package ":". -/
def shownPackage (package : Text) : Text := if package = [colon] then text "<local>" else package

def enableInstalled (name : Text) (binfmt : Binfmt) : Act Bool := do
  Prog.remember (fun m => { m with formats := kvhashInsert m.formats name binfmt })
  if ← actEnableName env name then return true
  else
    warn (.unableToEnable name)
    return false

/-- Write the temporary file and move it into place, or only show the record. -/
def installFile (name : Text) (binfmt : Option Binfmt) : Act Bool := do
  if env.test then
    match binfmt with
    | none =>
        -- the heading is printed before binfmt_print looks at the record
        answer .description
        Prog.crash
    | some binfmt =>
        answer (.install binfmt)
        enableInstalled env name binfmt
  else if ← binfmtWrite env binfmt (tmpName name) then
    if ← renameMv env (tmpName name) name then
      match binfmt with
      | none => Prog.crash
      | some binfmt => enableInstalled env name binfmt
    else
      warn (.unableToInstall (tmpName name) name)
      return false
  else return false

/-- An entry that is in the kernel now was not made from this database. -/
def installUnlessManual (name : Text) (binfmt : Option Binfmt) : Act Bool := do
  let s ← Prog.observe
  if s.kernel.procExists name && !env.test then
    warn (.manuallyCreated name)
    return true
  else installFile env name binfmt

def replaceFormat (name : Text) (binfmt : Option Binfmt) : Act Bool := do
  let s ← Prog.observe
  if (s.file name).isSome then
    if ← actDisableName env name then installUnlessManual env name binfmt
    else
      warn (.unableToDisable name)
      return false
  else installUnlessManual env name binfmt

def actInstall (name : Text) (binfmt : Option Binfmt) : Act Bool := do
  loadFormat env name true
  let m ← Prog.recollect
  match kvhashLookup m.formats name with
  | none => replaceFormat env name binfmt
  | some oldBinfmt =>
      match binfmt with
      | none => Prog.crash
      | some new =>
          match new.package, oldBinfmt.package with
          | some package, some oldPackage =>
              if package = oldPackage then replaceFormat env name binfmt
              else
                warn (.installedBy (shownPackage package) (shownPackage oldPackage))
                return false
          | _, _ => Prog.crash

end Install

section Remove
variable (env : Env)

def removeFile (name : Text) : Act Bool := do
  if env.test then
    answer (.remove name)
    return true
  else if ← succeeds env then
    Prog.emit (.unlink name)
    Prog.remember (fun m => { m with formats := kvhashDelete m.formats name })
    return true
  else
    warn (.unableToRemove name)
    return false

def removeFormat (name : Text) : Act Bool := do
  if ← actDisableName env name then removeFile env name
  else
    warn (.unableToDisable name)
    return false

def actRemove (name package : Text) : Act Bool := do
  let s ← Prog.observe
  if (s.file name).isSome then
    loadFormat env name true
    let m ← Prog.recollect
    match kvhashLookup m.formats name with
    | none => removeFormat env name
    | some oldBinfmt =>
        match oldBinfmt.package with
        | none => Prog.crash
        | some oldPackage =>
            if package = oldPackage then removeFormat env name
            else
              warn (.notRemoving (shownPackage package) (shownPackage oldPackage))
              return true
  else
    warn (.doesNotExist name)
    return true

end Remove

section Import
variable (env : Env)

def importLine (line : List Byte) : Text × Option Text :=
  let line := cstr (trimRight line)
  let key := (line.takeWhile (· ≠ space)).map tolower
  match line.dropWhile (· ≠ space) with
  | [] => (key, none)
  | _ :: value => (key, some value)

def importTable (content : List Byte) : Arguments :=
  (lines newline content).foldl
    (fun import_ line => kvhashInsert import_ (importLine line).1 (importLine line).2) ∅

def getImport (path : Text) : Act (Option Arguments) := do
  match env.files path with
  | none =>
      warn (.unableToOpen path)
      return none
  | some content =>
      if ← succeeds env then return some (importTable content)
      else
        warn (.unableToOpen path)
        return none

def importPath (name : Text) : Text × Text :=
  if slash ∈ name then (name, (name.reverse.takeWhile (· ≠ slash)).reverse)
  else (env.importdir ++ [slash] ++ name, name)

def isReserved (name : Text) : Bool :=
  name = text "." || name = text ".." || name = text "register" || name = text "status"

/-- act_import after the checks of the stored record. What act_install returns is
not looked at. -/
def importRecord (path id : Text) (import_ : Arguments) : Act Bool := do
  if kvhashExists import_ (text "package") then
    let interpreter := argument import_ "interpreter"
    if !(interpreter.any env.executable) then warn (.noExecutable path interpreter)
    match binfmtNew import_ with
    | .error value => quit (.newlinesProhibited value)
    | .ok (.error why) =>
        warn (.rejected path why)
        let _ ← actInstall env id none
        return true
    | .ok (.ok binfmt) =>
        let _ ← actInstall env id (some binfmt)
        return true
  else
    warn (.packageLineMissing path)
    return false

/-- act_import once the table is read: a local entry is left alone. -/
def importUnlessLocal (path id : Text) (import_ : Arguments) : Act Bool := do
  loadFormat env id true
  let m ← Prog.recollect
  match kvhashLookup m.formats id with
  | none => importRecord env path id import_
  | some binfmt =>
      match binfmt.package with
      | none => Prog.crash
      | some package =>
          if package = [colon] then
            warn (.preservingLocalChanges id)
            return true
          else importRecord env path id import_

def actImportName (name : Text) : Act Bool := do
  let (path, id) := importPath env name
  if isReserved id then
    warn (.reserved id)
    return false
  else
    match ← getImport env path with
    | none =>
        warn (.nothingToImport id)
        return false
    | some import_ =>
        if import_.entries.isEmpty then
          warn (.nothingToImport id)
          return false
        else importUnlessLocal env path id import_

def importEach : List Text → Act Bool
  | [] => return true
  | name :: rest => do
      if (env.files (env.importdir ++ [slash] ++ name)).isSome then
        let worked ← actImportName env name
        let others ← importEach rest
        return worked && others
      else importEach rest

def actImport : Option Text → Act Bool
  | some name => actImportName env name
  | none => do
      if ← succeeds env then importEach env env.importNames
      else
        warn (.unableToOpen env.importdir)
        return false

end Import

section Display
variable (env : Env)

def actDisplayName (name : Text) : Act Bool := do
  loadFormat env name false
  let m ← Prog.recollect
  match kvhashLookup m.formats name with
  | none =>
      warn (.notInDatabase name)
      return false
  | some binfmt =>
      let s ← Prog.observe
      match binfmt.package with
      | none => Prog.crash
      | some package =>
          answer (.display name (s.kernel.procExists name) (shownPackage package) binfmt)
          return true

def displayEach : List Text → Act Unit
  | [] => return ()
  | name :: rest => do
      let _ ← actDisplayName env name
      displayEach rest

def actDisplay : Option Text → Act Bool
  | some name => actDisplayName env name
  | none => do
      loadAllFormats env false
      let m ← Prog.recollect
      displayEach env (env.walk m.formats)
      return true

end Display
end BinfmtSupport.Actions
