import DocxTemplate.Disk.Basic
import DocxTemplate.Error

/-! # Jobs

    Work that touches files runs in a world: a disk, the directory for temporary files, a
    number for the next unused name, and the log. A job either gives a result or stops at
    an error; what it did to the world until then stays.
-/

namespace DocxTemplate

/-! ## Log -/

/-- How much a line of the log matters. -/
inductive Level where
  | debug
  | info
  | warn
  | error
  deriving DecidableEq, Repr

/-- The name of a level. -/
def Level.name : Level → String
  | debug => "DEBUG"
  | info => "INFO"
  | warn => "WARN"
  | error => "ERROR"

/-- A line of the log. -/
structure LogLine where
  level : Level
  text : String
  deriving DecidableEq, Repr

/-! ## Worlds -/

/-- Everything outside the program that a job may use. -/
structure World where
  disk : Disk := {}
  /-- The directory for temporary files. -/
  temporary : Path := ⟨"/tmp"⟩
  /-- A number that no temporary name has used yet. -/
  serial : Nat := 0
  /-- The log, the oldest line first. -/
  log : List LogLine := []
  deriving DecidableEq, Repr

/-- Work that always gives a result. -/
abbrev Act := StateM World

/-- Work that may stop at an error. -/
abbrev Job := ExceptT Error Act

namespace Act

/-- Looks something up on the disk. -/
def ask {α : Type} (f : Disk → α) : Act α := fun w => (f w.disk, w)

/-- Adds a line to the log. -/
def log (level : Level) (text : String) : Act Unit :=
  fun w => ((), { w with log := w.log ++ [⟨level, text⟩] })

/-- Changes the disk, or leaves it if that fails. -/
def change {ε : Type} (f : Disk → Except ε Disk) : Act (Except ε Unit) := fun w =>
  match f w.disk with
  | .ok disk => (.ok (), { w with disk })
  | .error e => (.error e, w)

/-- Changes the disk, also by what was done before a step failed. -/
def attempt {ε : Type} (f : Disk → Disk × Except ε Unit) : Act (Except ε Unit) := fun w =>
  let (disk, result) := f w.disk
  (result, { w with disk })

/-- The result of a job, or its error. -/
def ofJob {α : Type} (job : Job α) : Act (Except Error α) := job.run

end Act

namespace Job

/-- Work that cannot fail, as a job. -/
def ofAct {α : Type} (act : Act α) : Job α := ExceptT.lift act

/-- Turns a failed result into an error. -/
def guard {ε α : Type} (wrap : ε → Error) (act : Act (Except ε α)) : Job α := do
  match ← ofAct act with
  | .ok a => return a
  | .error e => throw (wrap e)

/-- Looks something up on the disk. -/
def ask {α : Type} (f : Disk → α) : Job α := ofAct (Act.ask f)

/-- Adds a line to the log. -/
def log (level : Level) (text : String) : Job Unit := ofAct (Act.log level text)

/-- The wrapper for faults of the system on a path. -/
def systemError (p : Path) (fault : SystemFault) : Error := .io p (.system fault)

/-- Writes a file. -/
def write (p : Path) (content : Content) : Job Unit :=
  guard (systemError p) (Act.change fun d => d.write p content)

/-- Makes a directory and its missing parents. -/
def createDirectories (p : Path) : Job Unit :=
  guard (systemError p) (Act.attempt fun d => d.createDirectories p)

/-- Runs a job and then, also if it stopped at an error, some further work. -/
def ensuring {α : Type} (job : Job α) (after : Act Unit) : Job α := ExceptT.mk do
  let result ← job.run
  after
  return result

/-- Runs a job and then, only if it stopped at an error, some further work. -/
def onError {α : Type} (job : Job α) (after : Act Unit) : Job α := ExceptT.mk do
  match ← job.run with
  | .ok a => return .ok a
  | .error e => do
    after
    return .error e

end Job

end DocxTemplate
