import DocxTemplate.Text.Blank
import DocxTemplate.Sanitize.Properties
import DocxTemplate.Sanitize.Rules

/-! # Revision attributes

    Removes attributes by name. An attribute is a name, `=` and a quoted value behind
    white space and inside a tag; the same words in character data stay.

    * `attributeScan` removes the attributes of one name together with the white space
      before them.
    * `bareTagScan` removes tags that consist of nothing but such an attribute.
    * Property elements that are empty once something was removed go too.
-/

namespace DocxTemplate.Sanitize

/-- The number of bytes of a quoted value with its two quotes, if a text starts with
    one. -/
def quotedLength? : Bytes → Option Nat
  | q :: rest =>
    if q == 0x22 || q == 0x27 then (Bytes.indexOf? [q] rest).map (· + 2) else none
  | [] => none

/-- Whether the first `n` bytes of a text end inside a tag: a `>` comes after them, and
    no `<` comes before it. -/
def endsInsideTag (n : Nat) (text : Bytes) : Bool :=
  match Bytes.indexOf? ['>'.toUInt8] text, Bytes.indexOf? ['<'.toUInt8] text with
  | some g, some l => g < l && n ≤ g
  | some g, none => n ≤ g
  | none, _ => false

/-- Looks for the next attribute called `name` and removes it. A match that is no attribute
    is passed over. -/
def attributeStep (name : String) (s : Sweep) : Step Sweep Sweep :=
  let token := Bytes.ofString name ++ ['='.toUInt8]
  match Bytes.indexOf? token s.cursor.ahead with
  | none => .done s
  | some i =>
    let here := s.cursor.advance i
    let pass : Step Sweep Sweep := .more (s.advance (i + token.length))
    -- Without white space before it the match is the end of a longer name.
    if here.afterSpace then
      match quotedLength? (here.ahead.drop token.length) with
      | none => pass
      | some n =>
        -- The same words in character data are text.
        if endsInsideTag (token.length + n) here.ahead then
          .more { s with
            cursor := here.deleteSpaceBehind.delete (token.length + n)
            count := s.count + 1 }
        else pass
    else pass

/-- A step leaves less text ahead: at least the name with its `=` is removed or passed. -/
theorem length_attributeStep_lt {name : String} {s t : Sweep} (h : attributeStep name s = .more t) :
    t.cursor.ahead.length < s.cursor.ahead.length := by
  unfold attributeStep at h
  dsimp only at h
  split at h
  · simp at h
  · next i hi =>
    -- The match lies within the text ahead, and is not empty.
    have hi := Bytes.indexOf?_add_length_le hi
    simp only [List.length_append, List.length_singleton] at hi
    split at h
    · split at h
      · simp only [Step.more.injEq] at h
        subst h
        simp
        omega
      · split at h
        · simp only [Step.more.injEq] at h
          subst h
          simp
          omega
        · simp only [Step.more.injEq] at h
          subst h
          simp
          omega
    · simp only [Step.more.injEq] at h
      subst h
      simp
      omega

/-- Removes the attributes called `name`, from left to right. -/
def attributeScan (name : String) : Scan Sweep Sweep where
  next := attributeStep name
  left := fun s => s.cursor.ahead.length
  left_lt := length_attributeStep_lt

/-- The number of bytes up to the end of a tag, if only blanks stand before it. -/
def tagEnd? (text : Bytes) : Option Nat :=
  let blanks := Blank.leading text
  if Bytes.opensWith "/>" (text.drop blanks) then some (blanks + 2)
  else if Bytes.opensWith ">" (text.drop blanks) then some (blanks + 1)
  else none

/-- Looks for the next tag whose name is the attribute `name` with its value, and removes it
    if it holds nothing else. -/
def bareTagStep (name : String) (s : Sweep) : Step Sweep Sweep :=
  let token := '<'.toUInt8 :: Bytes.ofString name ++ ['='.toUInt8]
  match Bytes.indexOf? token s.cursor.ahead with
  | none => .done s
  | some i =>
    let here := s.cursor.advance i
    let pass : Step Sweep Sweep := .more (s.advance (i + token.length))
    match quotedLength? (here.ahead.drop token.length) with
    | none => pass
    | some n =>
      match tagEnd? (here.ahead.drop (token.length + n)) with
      | none => pass
      | some m =>
        .more { s with
          cursor := here.delete (token.length + n + m)
          count := s.count + 1 }

/-- A step leaves less text ahead, as before. -/
theorem length_bareTagStep_lt {name : String} {s t : Sweep} (h : bareTagStep name s = .more t) :
    t.cursor.ahead.length < s.cursor.ahead.length := by
  unfold bareTagStep at h
  dsimp only at h
  split at h
  · simp at h
  · next i hi =>
    have hi := Bytes.indexOf?_add_length_le hi
    simp only [List.cons_append, List.length_cons, List.length_append] at hi
    split at h
    · simp only [Step.more.injEq] at h
      subst h
      simp
      omega
    · split at h
      · simp only [Step.more.injEq] at h
        subst h
        simp
        omega
      · simp only [Step.more.injEq] at h
        subst h
        simp
        omega

/-- Removes the tags that consist of nothing but the attribute `name`, from left to right. -/
def bareTagScan (name : String) : Scan Sweep Sweep where
  next := bareTagStep name
  left := fun s => s.cursor.ahead.length
  left_lt := length_bareTagStep_lt

/-- Removes both forms of one attribute. -/
def sweepAttribute (s : Sweep) (name : String) : Sweep :=
  (bareTagScan name).run ((attributeScan name).run s.rewind).rewind

/-- Removes every attribute named in `names`, and the properties that this empties. -/
def removeAttributes (names : List String) (text : Bytes) : Pass :=
  let pass := (names.foldl sweepAttribute (Sweep.ofText text)).toPass
  if pass.count = 0 then pass
  else
    let rest := removeEmptyProperties pass.text
    { pass with text := rest.text, collapsed := rest.collapsed }

end DocxTemplate.Sanitize
