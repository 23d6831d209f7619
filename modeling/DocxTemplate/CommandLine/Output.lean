import DocxTemplate.CommandLine.Command

/-! # Output

    What a run prints and which code it ends with.
-/

namespace DocxTemplate.Outcome

/-- The code a run ends with. -/
def code : Outcome → UInt32
  | rejected => 2
  | failed _ => 1
  | _ => 0

/-- The description of the command line. -/
def helpText : String :=
  "Fill \x7b\x7bplaceholders\x7d\x7d in .docx templates and attach images\n\n"
    ++ "Usage: docxgen [OPTIONS] [DOCX]\n\n"
    ++ "Arguments:\n"
    ++ "  [DOCX]  Template .docx\n\n"
    ++ "Options:\n"
    ++ "  -o, --output <DOCX>      Output .docx (default: <input_stem>_rendered.docx)\n"
    ++ "      --data <JSON>        JSON object with placeholder values\n"
    ++ "      --set <KEY=VALUE>    Single placeholder value (repeatable; overrides --data)\n"
    ++ "      --image <REF=PATH>   Image to embed (repeatable)\n"
    ++ "      --sanitize <MODE>    When to sanitize document XML: off, before or after "
    ++ "substitution\n"
    ++ "      --keep-workspace     Leave the extracted workspace on disk\n"
    ++ "      --config <CONFIG>    Config file path (default: search for docxgen.toml upwards)\n"
    ++ "      --inspect            Print the placeholders found in the template, then exit\n"
    ++ "      --sanitize-only      Sanitize document XML and repack without substitution\n"
    ++ "  -h, --help               Print help\n"

/-- What is said if there is no template. -/
def usageText : String :=
  "\n\nUSAGE:\n  docxgen <template.docx> -o <out.docx> --data values.json\n\n"
    ++ "TIPS:\n  - Default config search: " ++ ConfigSearch.fileName ++ " (upwards), or set "
    ++ ConfigSearch.variableName ++ ".\n\n"

/-- What is said of a command line that cannot be understood. -/
def rejectionText : String :=
  "error: invalid arguments\n\nUsage: docxgen [OPTIONS] [DOCX]\n\n"
    ++ "For more information, try '--help'.\n"

/-- What is said of a failure. -/
def failureText (failure : Failure) : String :=
  "Error: " ++ failure.message ++ "\n"
    ++ match failure.cause? with
      | some cause => "\nCaused by:\n    " ++ cause ++ "\n"
      | none => ""

/-- A line for each placeholder of a template. -/
def placeholderLines (result : Inspection) : String :=
  String.join (result.placeholders.map fun name =>
    if result.split.contains name then name ++ "\t(split across runs)\n" else name ++ "\n")

/-- What goes to the standard output. -/
def stdout : Outcome → String
  | help | noTemplate => helpText
  | inspected result => placeholderLines result
  | rejected | saved .. | failed _ => ""

/-- What goes to the standard error output. -/
def stderr : Outcome → String
  | help => ""
  | noTemplate => usageText
  | rejected => rejectionText
  | inspected result =>
    String.join (result.warnings.map fun w => "warning: " ++ w.message ++ "\n")
  | saved output kept? =>
    let keptLine := match kept? with
      | some path => "Workspace kept: " ++ path.text ++ "\n"
      | none => ""
    keptLine ++ "Wrote: " ++ output.text ++ "\n"
  | failed failure => failureText failure

end DocxTemplate.Outcome
