import DocxTemplate.Text.Split

/-! # Paths

    A path is kept as it was written, since messages show it that way. What it means is
    read off its components: repeated slashes, slashes at the end and inner `.` say
    nothing, while a `.` at the start and every `..` count.
-/

namespace DocxTemplate

/-- A path as it is written. -/
structure Path where
  text : String
  deriving DecidableEq, Repr

namespace Path

/-- A part of a path. -/
inductive Component where
  /-- The root directory. -/
  | root
  /-- The directory the path starts from. -/
  | here
  /-- The directory above. -/
  | up
  /-- An entry of a directory. -/
  | name (s : String)
  deriving DecidableEq, Repr

/-- Whether a path starts at the root. -/
def isAbsolute (p : Path) : Bool := p.text.toList.head? == some '/'

/-- What stands between the slashes of a path. -/
def segments (p : Path) : List String := Split.on '/' p.text

/-- Whether a segment says nothing. -/
def isVoid (segment : String) : Bool := segment == "" || segment == "."

/-- The component of a segment behind the first one. -/
def ofSegment? (segment : String) : Option Component :=
  if isVoid segment then none
  else if segment == ".." then some .up
  else some (.name segment)

/-- Whether a path starts with `.`. -/
def startsHere (p : Path) : Bool := p.segments.head? == some "."

/-- The segments behind the root or a `.` at the start. -/
def body (p : Path) : List String :=
  if p.isAbsolute || p.startsHere then p.segments.drop 1 else p.segments

/-- The components of a path. -/
def components (p : Path) : List Component :=
  (if p.isAbsolute then [.root] else if p.startsHere then [.here] else [])
    ++ p.body.filterMap ofSegment?

/-- Whether a path has a slash at its end. -/
def endsInSlash (p : Path) : Bool := p.text.toList.getLast? == some '/'

/-- A path without the slashes at its end. Only the root keeps them. -/
def withoutSlashes (p : Path) : Path :=
  match p.text.toList.reverse.dropWhile (· == '/') with
  | [] => p
  | rest => ⟨String.ofList rest.reverse⟩

/-- The last segment of a path, whatever slashes follow it. -/
def lastSegment? (p : Path) : Option String := p.withoutSlashes.segments.getLast?

/-! ## Building Paths -/

/-- A path continued by another one, which an absolute path replaces. -/
def join (p : Path) (q : String) : Path :=
  if q.toList.head? == some '/' || p.text.isEmpty then ⟨q⟩
  else if p.text.toList.getLast? == some '/' then ⟨p.text ++ q⟩
  else ⟨p.text ++ "/" ++ q⟩

/-- Segments without the void ones at their end. -/
def trimVoid (segments : List String) : List String :=
  (segments.reverse.dropWhile isVoid).reverse

/-- A path without its last component. The root and the empty path have none. -/
def parent? (p : Path) : Option Path :=
  match trimVoid p.body with
  | [] => if p.startsHere then some ⟨""⟩ else none
  | segments =>
    let rest := trimVoid segments.dropLast
    if p.isAbsolute then some ⟨"/" ++ "/".intercalate rest⟩
    else if p.startsHere then some ⟨"/".intercalate ("." :: rest)⟩
    else some ⟨"/".intercalate rest⟩

/-- Goes up at most `n` times. -/
def ancestorsUpTo : (n : Nat) → Path → List Path
  | 0, _ => []
  | n + 1, p =>
    p :: match p.parent? with
      | some q => ancestorsUpTo n q
      | none => []

/-- A path, its parent and so on up. Each has fewer segments than the one before. -/
def ancestors (p : Path) : List Path := ancestorsUpTo (p.segments.length + 1) p

/-! ## File Names -/

/-- The name at the end of a path. -/
def fileName? (p : Path) : Option String :=
  match p.components.getLast? with
  | some (.name s) => some s
  | _ => none

/-- A path with another name at its end. -/
def withFileName (p : Path) (name : String) : Path :=
  match p.fileName?, p.parent? with
  | some _, some parent => parent.join name
  | _, _ => p.join name

/-- A file name before and behind its last dot. A dot at the start does not count. -/
def splitName (name : String) : String × Option String :=
  let extension := (name.toList.reverse.takeWhile (· != '.')).reverse
  let before := name.toList.take (name.length - extension.length - 1)
  if name == ".." || extension.length == name.length || before.isEmpty then (name, none)
  else (String.ofList before, some (String.ofList extension))

/-- The file name without its extension. -/
def stem? (p : Path) : Option String := p.fileName?.map fun n => (splitName n).1

/-- The extension of the file name. -/
def extension? (p : Path) : Option String := p.fileName?.bind fun n => (splitName n).2

end Path

end DocxTemplate
