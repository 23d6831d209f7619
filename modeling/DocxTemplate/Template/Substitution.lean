import DocxTemplate.Xml.Escape
import DocxTemplate.Template.Placeholder

/-! # Substitution

    Rendering replaces all placeholders at once. Values are put in as they are given or
    escaped, and never searched for placeholders themselves.
-/

namespace DocxTemplate

/-! ## Data -/

/-- The values of a template's variables, with one value for a name. -/
structure Data where
  entries : List (String × String) := []
  deriving DecidableEq, Repr

namespace Data

/-- The value of a name. -/
def get? (data : Data) (name : String) : Option String :=
  data.entries.lookup name

/-- The number of names with a value. -/
def size (data : Data) : Nat := data.entries.length

/-- Gives a name a value. A value it had before is replaced. -/
def insert (data : Data) (name value : String) : Data :=
  if (data.get? name).isSome then
    ⟨data.entries.map fun (k, v) => if k == name then (k, value) else (k, v)⟩
  else ⟨data.entries ++ [(name, value)]⟩

/-- The data of a list in which a later value of a name replaces an earlier one. -/
def ofList (entries : List (String × String)) : Data :=
  entries.foldl (fun data (k, v) => data.insert k v) {}

end Data

/-! ## Rendering -/

/-- How values are put in. -/
structure Substitution where
  /-- Whether values are escaped as character data. -/
  escapeValues : Bool := true
  /-- Whether a placeholder without a value stays. It is deleted otherwise. -/
  keepUnknown : Bool := false
  deriving DecidableEq, Repr

namespace Substitution

/-- What takes the place of a piece. -/
def replacement (s : Substitution) (data : Data) : Piece → Bytes
  | .literal b => [b]
  | .slot p =>
    match data.get? p.name with
    | some value =>
      if s.escapeValues then Xml.escape (Bytes.ofString value) else Bytes.ofString value
    | none => if s.keepUnknown then p.raw else []

/-- The source with every placeholder replaced. -/
def render (s : Substitution) (data : Data) (source : Bytes) : Bytes :=
  (Piece.ofSource source).flatMap (s.replacement data)

end Substitution

namespace Data

/-- Notes the name of a piece, if the data have no value for it and it is not noted yet. -/
def note (data : Data) (noted : List String) (piece : Piece) : List String :=
  match piece.name? with
  | none => noted
  | some name =>
    if (data.get? name).isNone && !noted.contains name then noted ++ [name] else noted

/-- The names a source asks for and the data have no value for, in order of first
    appearance. -/
def missing (data : Data) (source : Bytes) : List String :=
  (Piece.ofSource source).foldl data.note []

end Data

end DocxTemplate
