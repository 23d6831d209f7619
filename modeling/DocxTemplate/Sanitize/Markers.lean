import DocxTemplate.Sanitize.Token
import DocxTemplate.Sanitize.Rules

/-! # Marker elements

    Removes elements by name, one name after the other. An element goes if it is written
    as an empty tag or if its end tag follows its start tag at once. Any other start tag
    of that name stays and is reported.
-/

namespace DocxTemplate.Sanitize

/-- The start of a tag with this name. A name written with its `<` is taken as it is. -/
def tokenOf (name : String) : String :=
  if name.toList.head? == some '<' then name else "<" ++ name

/-- The end tag that belongs to a start token. -/
def endTag (token : String) : Bytes :=
  Bytes.ofString "</" ++ (Bytes.ofString token).drop 1 ++ Bytes.ofString ">"

/-- Looks for the next element that starts with `token`, and removes it if it holds nothing.
    After a removal the search goes on where the element stood. -/
def markerStep (token : String) (s : Sweep) : Step Sweep Sweep :=
  match tokenIndex? (Bytes.ofString token) s.cursor.ahead with
  | none => .done s
  | some i =>
    let here := s.cursor.advance i
    match Bytes.indexOf? ['>'.toUInt8] here.ahead with
    | none => .done (s.warn (.unclosedTag token here.offset))
    | some g =>
      let remove (n : Nat) : Step Sweep Sweep :=
        .more { s with cursor := here.delete (g + 1 + n), count := s.count + 1 }
      if (here.ahead.take g).getLast? == some '/'.toUInt8 then remove 0
      else if (endTag token).isPrefixOf (here.ahead.drop (g + 1)) then
        remove (endTag token).length
      else
        -- The start tag stays, and the search goes on behind it.
        .more ((s.warn (.nonEmptyTag token here.offset)).advance (i + (g + 1)))

/-- A step leaves less text ahead: at least the `>` of the tag is removed or passed. -/
theorem length_markerStep_lt {token : String} {s t : Sweep} (h : markerStep token s = .more t) :
    t.cursor.ahead.length < s.cursor.ahead.length := by
  unfold markerStep at h
  dsimp only at h
  split at h
  · simp at h
  · next i hi =>
    split at h
    · simp at h
    · next g hg =>
      -- The `>` lies within the text ahead of the tag.
      have hg := Bytes.indexOf?_singleton_lt hg
      simp only [Cursor.ahead_advance, List.length_drop] at hg
      split at h
      · simp only [Step.more.injEq] at h
        subst h
        simp
        omega
      · split at h
        · simp only [Step.more.injEq] at h
          subst h
          simp
          omega
        · simp only [Step.more.injEq] at h
          subst h
          simp
          omega

/-- Removes the empty elements that start with `token`, from left to right. -/
def markerScan (token : String) : Scan Sweep Sweep where
  next := markerStep token
  left := fun s => s.cursor.ahead.length
  left_lt := length_markerStep_lt

/-- Removes every empty element named in `tags`. -/
def removeMarkers (tags : List String) (text : Bytes) : Pass :=
  (tags.foldl (fun s tag => (markerScan (tokenOf tag)).run s.rewind) (Sweep.ofText text)).toPass

end DocxTemplate.Sanitize
