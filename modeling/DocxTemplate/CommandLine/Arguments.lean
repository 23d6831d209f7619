import DocxTemplate.Disk.Path
import DocxTemplate.Text.Split

/-! # Arguments

    The words of a command line set the options of a run, each at most once but for values
    and images. An option with a value takes it behind an `=` or from the next word, which
    then must not look like an option. Behind `--` all words are plain.

    The first fault or request for help decides.
-/

namespace DocxTemplate

/-- What a command line asks for. -/
structure Arguments where
  template? : Option Path := none
  output? : Option Path := none
  data? : Option Path := none
  /-- Assignments of values, as they are written. -/
  values : List String := []
  /-- Assignments of images, as they are written. -/
  images : List String := []
  /-- The name of a sanitizing mode. -/
  sanitize? : Option String := none
  config? : Option Path := none
  keepWorkspace : Bool := false
  inspect : Bool := false
  sanitizeOnly : Bool := false
  deriving DecidableEq, Repr

namespace Arguments

/-! ## Options -/

/-- An option with a value. -/
inductive Setting where
  | output
  | data
  | value
  | image
  | sanitize
  | config
  deriving DecidableEq, Repr

/-- An option without a value. -/
inductive Switch where
  | keepWorkspace
  | inspect
  | sanitizeOnly
  deriving DecidableEq, Repr

/-- An option. -/
inductive Flag where
  | setting (s : Setting)
  | switch (s : Switch)
  | help
  deriving DecidableEq, Repr

/-- The option with a long name. -/
def longFlag? : String → Option Flag
  | "output" => some (.setting .output)
  | "data" => some (.setting .data)
  | "set" => some (.setting .value)
  | "image" => some (.setting .image)
  | "sanitize" => some (.setting .sanitize)
  | "config" => some (.setting .config)
  | "keep-workspace" => some (.switch .keepWorkspace)
  | "inspect" => some (.switch .inspect)
  | "sanitize-only" => some (.switch .sanitizeOnly)
  | "help" => some .help
  | _ => none

/-- The option with a short name. -/
def shortFlag? : Char → Option Flag
  | 'o' => some (.setting .output)
  | 'h' => some .help
  | _ => none

/-- Gives a path to what has none yet. An empty path is none. -/
def setPath? (old? : Option Path) (text : String) : Option Path :=
  if old?.isSome || text == "" then none else some ⟨text⟩

/-- Gives an option its value. -/
def set? (a : Arguments) (value : String) : Setting → Option Arguments
  | .output => (setPath? a.output? value).map fun p => { a with output? := some p }
  | .data => (setPath? a.data? value).map fun p => { a with data? := some p }
  | .config => (setPath? a.config? value).map fun p => { a with config? := some p }
  | .value => some { a with values := a.values ++ [value] }
  | .image => some { a with images := a.images ++ [value] }
  | .sanitize => if a.sanitize?.isSome then none else some { a with sanitize? := some value }

/-- Turns an option on. -/
def turnOn? (a : Arguments) : Switch → Option Arguments
  | .keepWorkspace => if a.keepWorkspace then none else some { a with keepWorkspace := true }
  | .inspect => if a.inspect then none else some { a with inspect := true }
  | .sanitizeOnly => if a.sanitizeOnly then none else some { a with sanitizeOnly := true }

/-- Names the template. -/
def setTemplate? (a : Arguments) (text : String) : Option Arguments :=
  (setPath? a.template? text).map fun p => { a with template? := some p }

/-! ## Words -/

/-- The form of a word. -/
inductive Word where
  /-- Two hyphens alone. -/
  | divider
  /-- Two hyphens with a name, and what stands behind an `=`. -/
  | long (name : String) (value? : Option String)
  /-- One hyphen with a letter and what follows. -/
  | short (letter : Char) (rest : String)
  | plain (text : String)
  deriving DecidableEq, Repr

/-- The form of a word. -/
def Word.ofString (s : String) : Word :=
  match s.toList with
  | '-' :: '-' :: [] => divider
  | '-' :: '-' :: name =>
    match Split.once? '=' (String.ofList name) with
    | some (name, value) => long name (some value)
    | none => long (String.ofList name) none
  | '-' :: letter :: rest => short letter (String.ofList rest)
  | _ => plain s

/-- The value that stands in one word with a short name: an `=` in front does not count. -/
def attached? (rest : String) : Option String :=
  match rest.toList with
  | [] => none
  | '=' :: value => some (String.ofList value)
  | _ => some rest

/-! ## Reading -/

/-- What a command line comes to. -/
inductive Request where
  | help
  | run (a : Arguments)
  deriving DecidableEq, Repr

/-- Reads words that are plain whatever they look like. -/
def readPlain (a : Arguments) : List String → Option Request
  | [] => some (.run a)
  | word :: rest => (a.setTemplate? word).bind fun a => readPlain a rest

/-- Reads words, given an option that waits for its value. -/
def readWords : (waiting? : Option Setting) → Arguments → List String → Option Request
  | none, a, [] => some (.run a)
  | some _, _, [] => none
  | some setting, a, word :: rest =>
    -- A word that looks like an option is no value.
    match Word.ofString word with
    | .plain value => (a.set? value setting).bind fun a => readWords none a rest
    | _ => none
  | none, a, word :: rest =>
    match Word.ofString word with
    | .divider => readPlain a rest
    | .plain text => (a.setTemplate? text).bind fun a => readWords none a rest
    | .long name value? =>
      match longFlag? name, value? with
      | some (.setting setting), some value =>
        (a.set? value setting).bind fun a => readWords none a rest
      | some (.setting setting), none => readWords (some setting) a rest
      | some (.switch switch), none => (a.turnOn? switch).bind fun a => readWords none a rest
      | some .help, none => some .help
      | _, _ => none
    | .short letter tail =>
      match shortFlag? letter, attached? tail with
      | some (.setting setting), some value =>
        (a.set? value setting).bind fun a => readWords none a rest
      | some (.setting setting), none => readWords (some setting) a rest
      -- No switch has a short name.
      | some (.switch switch), _ => (a.turnOn? switch).bind fun a => readWords none a rest
      | some .help, _ => some .help
      | none, _ => none

/-- What the words of a command line ask for; none if they cannot be understood. -/
def read? (words : List String) : Option Request := readWords none {} words

end Arguments

end DocxTemplate
