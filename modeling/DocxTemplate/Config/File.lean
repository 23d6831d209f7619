import DocxTemplate.Config.Basic
import DocxTemplate.Config.Search
import DocxTemplate.Toml.Reader

/-! # Configuration files

    Reading a configuration from a file.
-/

namespace DocxTemplate

/-- Why a file gives no configuration. -/
inductive ConfigFault where
  | unreadable (path : Path) (fault : FileFault)
  /-- The text is not TOML, or a value has the wrong type. -/
  | malformed
  deriving DecidableEq, Repr

/-- The wording of a fault. -/
def ConfigFault.message : ConfigFault → String
  | unreadable path _ => s!"read config: {path.text}"
  | malformed => "parse config toml"

namespace Config

/-- The configuration that a text spells. -/
def ofText? (text : Bytes) : Option Config := do
  Config.ofToml? (← Toml.read? (← Utf8.decode? text))

/-- Reads a configuration file. -/
def load (d : Disk) (path : Path) : Except ConfigFault Config :=
  match d.readText path with
  | .error fault => .error (.unreadable path fault)
  | .ok text =>
    match ofText? text with
    | none => .error .malformed
    | some config => .ok config

/-- The configuration to use and the directory it comes from. Without a file all is left to
    the defaults. -/
def resolve (d : Disk) (explicit? : Option Path) (environment : String) (directory : Path) :
    Except ConfigFault (Config × Option Path) :=
  match ConfigSearch.find d explicit? environment directory with
  | none => .ok ({}, none)
  | some path => (load d path).map (·, path.parent?)

end Config

end DocxTemplate
