/-! # Splitting

    The parts of a text between separators. There is always one part more than there are
    separators, and parts may be empty.
-/

namespace DocxTemplate.Split

/-- The parts of a list between the occurrences of `separator`. -/
def chars (separator : Char) : List Char → List (List Char)
  | [] => [[]]
  | c :: rest =>
    if c == separator then [] :: chars separator rest
    else
      match chars separator rest with
      | [] => [[c]]
      | part :: parts => (c :: part) :: parts

/-- The parts of a string between the occurrences of `separator`. -/
def on (separator : Char) (s : String) : List String :=
  (chars separator s.toList).map String.ofList

/-- What stands before and behind the first `separator`. -/
def once? (separator : Char) (s : String) : Option (String × String) :=
  let before := s.toList.takeWhile (· != separator)
  match s.toList.drop before.length with
  | [] => none
  | _ :: behind => some (String.ofList before, String.ofList behind)

end DocxTemplate.Split
