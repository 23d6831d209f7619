import DocxTemplate.CommandLine.Arguments
import DocxTemplate.CommandLine.Assignment
import DocxTemplate.Config.File
import DocxTemplate.Session.Basic
import DocxTemplate.Template.DataFile

/-! # The command

    One run fills one template, or tells what it asks for. The configuration comes first,
    then the options on the command line, then data and images, and last the template.
    Whatever becomes of a run, its session is ended.
-/

namespace DocxTemplate

/-- Why a run fails. -/
inductive Failure where
  | config (fault : ConfigFault)
  /-- The configuration names an unknown mode. -/
  | options (fault : UnknownMode)
  /-- The command line names an unknown mode. -/
  | mode (fault : UnknownMode)
  | data (fault : DataFault)
  | assignment (option text : String) (fault : Assignment.Fault)
  | inspect (template : Path) (error : Error)
  | render (template : Path) (error : Error)
  | save (output : Path) (error : Error)
  deriving DecidableEq, Repr

namespace Failure

/-- What a run says about its failure. -/
def message : Failure → String
  | config fault => fault.message
  | options _ => "build render options"
  | mode fault => fault.message
  | data fault => fault.message
  | assignment option text _ => s!"{option} {text}"
  | inspect template _ => s!"inspect {template.text}"
  | render template _ => s!"render {template.text}"
  | save output _ => s!"save {output.text}"

/-- What a run says about the cause of its failure. -/
def cause? : Failure → Option String
  | config (.unreadable _ fault) | data (.unreadable _ fault) => some fault.message
  | config .malformed | data (.notJson _) | data .notObject | mode _ => none
  | options fault => some fault.message
  | assignment _ _ fault => some fault.message
  | inspect _ error | render _ error | save _ error => some error.message

end Failure

/-- What becomes of a run. -/
inductive Outcome where
  /-- The command line cannot be understood. -/
  | rejected
  /-- The command line asks for help. -/
  | help
  /-- The command line names no template. -/
  | noTemplate
  | inspected (result : Inspection)
  /-- The document is written. The workspace is told of if the command line keeps it. -/
  | saved (output : Path) (kept? : Option Path)
  | failed (failure : Failure)
  deriving DecidableEq, Repr

namespace Command

/-! ## Paths -/

/-- Where the document is written by default: beside the template, under its name. -/
def defaultOutput (template : Path) : Path :=
  template.withFileName (template.stem?.getD "output" ++ "_rendered.docx")

/-- The directory of the template. -/
def directory (template : Path) : Path :=
  match template.parent? with
  | some parent => if parent.text == "" then ⟨"."⟩ else parent
  | none => ⟨"."⟩

/-! ## Preparation -/

/-- How a run works: the options of its session and how values are put in. -/
structure Manner where
  options : Options
  substitution : Substitution

/-- What the configuration and the command line say about the manner. -/
def mannerOf (d : Disk) (environment : String) (a : Arguments) (template : Path) :
    Except Failure Manner := do
  let (config, directory?) ←
    (Config.resolve d a.config? environment (directory template)).mapError .config
  let options ← (config.options directory?).mapError .options
  let sanitize ← match a.sanitize? with
    | some name => (SanitizeMode.ofSetting "--sanitize" name).mapError .mode
    | none => pure options.sanitize
  let keepWorkspace := options.keepWorkspace || a.keepWorkspace
  return {
    options := { options with sanitize, keepWorkspace }
    substitution := config.substitution }

/-- The manner that only sanitizes: before a substitution that leaves all placeholders. -/
def Manner.sanitizing (m : Manner) : Manner where
  options := { m.options with sanitize := .before }
  substitution := { m.substitution with keepUnknown := true }

/-- What goes into the document. -/
structure Inputs where
  data : Data := {}
  images : List (String × Path) := []

/-- Reads an assignment that belongs to an option. -/
def readAssignment (option text : String) : Except Failure Assignment :=
  (Assignment.read text).mapError (.assignment option text)

/-- What the command line puts into the document. Its own values replace those of the data
    file. -/
def inputsOf (d : Disk) (a : Arguments) : Except Failure Inputs := do
  let fromFile ← match a.data? with
    | some path => (Data.load d path).mapError .data
    | none => pure {}
  let values ← a.values.mapM (readAssignment "--set")
  let images ← a.images.mapM (readAssignment "--image")
  return {
    data := values.foldl (fun data v => data.insert v.key v.value) fromFile
    images := images.map fun i => (i.key, ⟨i.value⟩) }

/-! ## Work -/

/-- Renders a template and saves the document. Gives the session behind that. -/
def fill (s : Session) (inputs : Inputs) (template output : Path) :
    Act (Session × Except Failure Unit) := do
  match ← s.render template inputs.data inputs.images with
  | (s, .error e) => return (s, .error (.render template e))
  | (s, .ok _) =>
    let (s, result) ← s.save output
    return (s, result.mapError (.save output))

/-- Fills a template in a session of its own. -/
def fillOnce (a : Arguments) (m : Manner) (inputs : Inputs) (template output : Path) :
    Act Outcome := do
  let s : Session := { options := m.options, renderer := .ofSubstitution m.substitution }
  let (s, result) ← fill s inputs template output
  let kept? := if a.keepWorkspace then s.workspace?.map (·.root) else none
  s.finish
  match result with
  | .ok _ => return .saved output kept?
  | .error failure => return .failed failure

/-- Does what the arguments ask for. -/
def runArguments (environment : String) (a : Arguments) : Act Outcome := do
  match a.template? with
  | none => return .noTemplate
  | some template =>
    match ← Act.ask fun d => mannerOf d environment a template with
    | .error failure => return .failed failure
    | .ok manner =>
      let output := a.output?.getD (defaultOutput template)
      -- Inspection comes first: it needs neither values nor images, and writes nothing.
      if a.inspect then
        match ← Act.ofJob (Session.inspect { options := manner.options } template) with
        | .ok result => return .inspected result
        | .error e => return .failed (.inspect template e)
      else if a.sanitizeOnly then fillOnce a manner.sanitizing {} template output
      else
        match ← Act.ask fun d => inputsOf d a with
        | .error failure => return .failed failure
        | .ok inputs => fillOnce a manner inputs template output

/-- Runs the command. `environment` is the configuration that the environment names, empty if
    it names none. -/
def run (environment : String) (words : List String) : Act Outcome :=
  match Arguments.read? words with
  | none => return .rejected
  | some .help => return .help
  | some (.run a) => runArguments environment a

end Command

end DocxTemplate
