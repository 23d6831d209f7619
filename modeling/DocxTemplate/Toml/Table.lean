import DocxTemplate.Toml.Number

/-! # TOML values

    Values, and how the lines of a document build up its tables. A key has one value. Which
    table may still be extended, and by what, depends on how it came to be:

    * an `inline` table, between braces, is complete;
    * an `explicit` table, with a header of its own, takes only the lines below that header;
    * an `implied` table, on the way to the table of a header, may still get a header, and
      dotted keys may lead through it but not end in it;
    * a `dotted` table, on the way of a dotted key, takes further dotted keys.

    Headers may lead through all of them but the inline ones. Where the way leads to
    repeated tables, it goes on in the last of them.
-/

namespace DocxTemplate

/-- How a table came to be. -/
inductive Toml.TableKind where
  | inline
  | explicit
  | implied
  | dotted
  deriving DecidableEq, Repr

/-- A value. -/
inductive Toml where
  | string (s : String)
  | integer (n : Int)
  | fraction (x : Toml.Fraction)
  | boolean (b : Bool)
  | moment (m : Toml.Moment)
  | array (items : List Toml)
  | table (kind : Toml.TableKind) (entries : List (String × Toml))
  /-- The tables that repeat one header. -/
  | tables (elements : List (List (String × Toml)))
  deriving Repr

namespace Toml

/-- The keys of a table and their values. -/
abbrev Entries := List (String × Toml)

namespace Entries

/-- The value of a key. -/
def get? (entries : Entries) (key : String) : Option Toml := entries.lookup key

/-- Gives a key the value that `f` makes of its old one. -/
def update (key : String) (f : Option Toml → Option Toml) : Entries → Option Entries
  | [] => (f none).map fun value => [(key, value)]
  | (k, value) :: rest =>
    if k == key then (f (some value)).map fun value => (k, value) :: rest
    else (update key f rest).map ((k, value) :: ·)

/-- Changes the last of some repeated tables. -/
def updateLast (f : Entries → Option Entries) : List Entries → Option (List Entries)
  | [] => none
  | [last] => (f last).map fun entries => [entries]
  | first :: rest => (updateLast f rest).map (first :: ·)

/-- Gives a dotted key a value. -/
def insert (value : Toml) : (path : List String) → (key : String) → Entries → Option Entries
  | [], key => update key fun
    | none => some value
    | some _ => none
  | step :: path, key => update step fun
    | none => (insert value path key []).map (table .dotted)
    | some (table .dotted entries) => (insert value path key entries).map (table .dotted)
    | some (table .implied entries) =>
      if path.isEmpty then none else (insert value path key entries).map (table .implied)
    | some (tables elements) =>
      if path.isEmpty then none else (updateLast (insert value path key) elements).map tables
    | some _ => none

/-- Changes the entries of the table that the keys of a header lead to. -/
def within (f : Entries → Option Entries) : (path : List String) → Entries → Option Entries
  | [] => f
  | step :: path => update step fun
    | none => (within f path []).map (table .implied)
    | some (table .inline _) => none
    | some (table kind entries) => (within f path entries).map (table kind)
    | some (tables elements) => (updateLast (within f path) elements).map tables
    | some _ => none

/-- Opens the table of a header. -/
def openTable (path : List String) (key : String) : Entries → Option Entries :=
  within (update key fun
    | none => some (table .explicit [])
    | some (table .implied entries) => some (table .explicit entries)
    | some _ => none) path

/-- Opens a further one of the tables that repeat a header. -/
def openRepeated (path : List String) (key : String) : Entries → Option Entries :=
  within (update key fun
    | none => some (tables [[]])
    | some (tables elements) => some (tables (elements ++ [[]]))
    | some _ => none) path

end Entries

end Toml

end DocxTemplate
