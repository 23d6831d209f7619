import DocxTemplate.Disk.Basic
import DocxTemplate.Json.Reader
import DocxTemplate.Template.Substitution

/-! # Data files

    A data file is a JSON object. Its members are the values of the variables: strings as
    they are, `null` as the empty text, and all other values as compact JSON.
-/

namespace DocxTemplate

/-- Why a file gives no data. -/
inductive DataFault where
  | unreadable (path : Path) (fault : FileFault)
  | notJson (path : Path)
  | notObject
  deriving DecidableEq, Repr

/-- The wording of a fault. -/
def DataFault.message : DataFault → String
  | unreadable path _ => s!"read data: {path.text}"
  | notJson path => s!"parse data json: {path.text}"
  | notObject => "data json must be an object"

/-- What a value puts into a document. -/
def JsonValue.inserted : JsonValue → String
  | string s => s
  | null => ""
  | value => value.text

namespace Data

/-- The data of an object. -/
def ofJson? : JsonValue → Option Data
  | .object members => some (ofList (members.map fun (key, value) => (key, value.inserted)))
  | _ => none

/-- The data of a text in JSON. `path` is where the text comes from. -/
def ofText (path : Path) (text : Bytes) : Except DataFault Data :=
  match (Utf8.decode? text).bind JsonValue.read? with
  | none => .error (.notJson path)
  | some value =>
    match ofJson? value with
    | none => .error .notObject
    | some data => .ok data

/-- Reads a data file. -/
def load (d : Disk) (path : Path) : Except DataFault Data :=
  match d.readText path with
  | .error fault => .error (.unreadable path fault)
  | .ok text => ofText path text

end Data

end DocxTemplate
