import DocxTemplate.Workspace

/-! # Searching for a configuration

    A configuration may be named explicitly or by the environment. Otherwise a file with the
    default name is looked for in the current directory and in the directories above it, and
    then in the same way from a second directory on.
-/

namespace DocxTemplate

/-- The first file called `name` in the directory `start` or in one of the `levels`
    directories above it. The directories above are read off the path. -/
def Disk.findUpwards (d : Disk) (name : String) : (levels : Nat) → (start : Path) → Option Path
  | levels, start =>
    let candidate := start.join name
    if d.isFile candidate then some candidate
    else
      match levels, start.parent? with
      | levels + 1, some above => d.findUpwards name levels above
      | _, _ => none
termination_by levels => levels

namespace ConfigSearch

/-- The default name of a configuration. -/
def fileName : String := "docxgen.toml"

/-- The variable of the environment that may name a configuration. -/
def variableName : String := "DOCXGEN_CONFIG"

/-- How many directories above the first one are searched. -/
def levels : Nat := 8

/-- Where a search from a directory on looks. -/
def candidates (directory : Path) : List Path :=
  (directory.ancestors.take (levels + 1)).map (·.join fileName)

/-- The file with the default name that is nearest to the current directory, or else to
    another directory. -/
def nearest (d : Disk) (directory : Path) : Option Path :=
  d.findUpwards fileName levels (Workspace.currentPath d)
    <|> d.findUpwards fileName levels directory

/-- The configuration to use: the one named explicitly, the one that the environment names,
    or the nearest. -/
def find (d : Disk) (explicit? : Option Path) (environment : String) (directory : Path) :
    Option Path :=
  match explicit? with
  | some path => some path
  | none => if environment == "" then nearest d directory else some ⟨environment⟩

end ConfigSearch

end DocxTemplate
