import DocxTemplate.Proofs.Sanitize.Stretch
import DocxTemplate.Sanitize.Report

/-! # Noise

    The text of a document part as the passes see it, without the nesting: tags with the
    character data before them, and between them the noise that a word processor leaves.

    * `Marker`: an empty element that sanitizing removes.
    * `Revision`: an attribute that sanitizing removes.
    * `Piece`: character data and a tag that is a `PlainTag` but for revision attributes.
    * `Part`: a piece or a marker; `written` is the text of a list of parts.
-/

namespace DocxTemplate

namespace Sanitize

/-! ## Markers -/

/-- No angle bracket stands in a text. -/
def Unbracketed (text : Bytes) : Prop := '<'.toUInt8 ∉ text ∧ '>'.toUInt8 ∉ text

instance (text : Bytes) : Decidable (Unbracketed text) := inferInstanceAs (Decidable (_ ∧ _))

/-- An element that sanitizing removes wherever it stands. -/
structure Marker where
  name : String
  /-- What stands behind the name in the start tag. -/
  middle : Bytes
  /-- Whether the element is written with an end tag. -/
  paired : Bool
  known : name ∈ defaultTags
  spaced : ∀ b, middle.head? = some b → isSpace b = true
  plain : Unbracketed middle
  /-- A start tag with an end tag is not written as an empty tag. -/
  open_tag : paired = true → middle.getLast? ≠ some '/'.toUInt8

/-- The text of a marker. -/
def Marker.written (m : Marker) : Bytes :=
  '<'.toUInt8 :: (Bytes.ofString m.name ++ m.middle ++
    if m.paired then Bytes.ofString ("></" ++ m.name ++ ">") else Bytes.ofString "/>")

/-! ## Revision attributes -/

/-- An attribute that sanitizing removes. Neither markup nor a further attribute stands in
    its value. -/
structure Revision where
  name : String
  value : Bytes
  known : name ∈ defaultAttributes
  plain : Unbracketed value
  unquoted : 0x22 ∉ value
  no_equals : '='.toUInt8 ∉ value

/-- The text of an attribute with the space before it. -/
def Revision.written (r : Revision) : Bytes :=
  ' '.toUInt8 :: (Bytes.ofString r.name ++ '='.toUInt8 :: 0x22 ::
    (r.value ++ [0x22]))

/-- What the attribute pass looks for. -/
def attributeToken (name : String) : Bytes := Bytes.ofString name ++ ['='.toUInt8]

theorem Unbracketed.append {x y : Bytes} (hx : Unbracketed x) (hy : Unbracketed y) :
    Unbracketed (x ++ y) := by
  unfold Unbracketed
  rw [List.mem_append, List.mem_append, not_or, not_or]
  exact ⟨⟨hx.1, hy.1⟩, hx.2, hy.2⟩

theorem Unbracketed.of_append {x y : Bytes} (h : Unbracketed (x ++ y)) : Unbracketed y := by
  obtain ⟨hlt, hgt⟩ := h
  rw [List.mem_append, not_or] at hlt hgt
  exact ⟨hlt.2, hgt.2⟩

theorem attribute_known {name : String} (h : name ∈ defaultAttributes) :
    Unended (Bytes.ofString name) ∧ Unbracketed (Bytes.ofString name) := by
  revert name
  decide +kernel

theorem Revision.unbracketed (r : Revision) : Unbracketed r.written := by
  obtain ⟨-, hname⟩ := attribute_known r.known
  unfold written Unbracketed
  simp only [List.mem_cons, List.mem_append, List.not_mem_nil, not_or]
  exact ⟨⟨by decide, hname.1, by decide, by decide, r.plain.1, by decide, by simp⟩,
    by decide, hname.2, by decide, by decide, r.plain.2, by decide, by simp⟩

theorem unbracketed_revisions (rs : List Revision) :
    Unbracketed (rs.flatMap Revision.written) := by
  unfold Unbracketed
  simp only [List.mem_flatMap, not_exists, not_and]
  exact ⟨fun r _ => r.unbracketed.1, fun r _ => r.unbracketed.2⟩

/-! ## Pieces -/

/-- A tag in which no pass finds anything: its name, and what stands behind the name. -/
structure PlainTag (name rest : Bytes) : Prop where
  name_ends : Unended name
  name_plain : '<'.toUInt8 ∉ name ∧ '='.toUInt8 ∉ name
  name_kept : name ∉ defaultTags.map Bytes.ofString
  rest_ends : ∀ b, rest.head? = some b → endsName b = true
  rest_plain : Unbracketed rest
  rest_kept : ∀ known ∈ defaultAttributes, Bytes.indexOf? (attributeToken known) rest = none

theorem plainTag_iff {name rest : Bytes} : PlainTag name rest ↔
    Unended name ∧ ('<'.toUInt8 ∉ name ∧ '='.toUInt8 ∉ name) ∧
      name ∉ defaultTags.map Bytes.ofString ∧ rest.head?.all endsName = true ∧
      Unbracketed rest ∧
      ∀ known ∈ defaultAttributes, Bytes.indexOf? (attributeToken known) rest = none := by
  rw [Option.all_eq_true]
  constructor
  · intro h
    exact ⟨h.name_ends, h.name_plain, h.name_kept, h.rest_ends, h.rest_plain, h.rest_kept⟩
  · intro ⟨hends, hplain, hkept, hrest, hrestPlain, hrestKept⟩
    exact ⟨hends, hplain, hkept, hrest, hrestPlain, hrestKept⟩

instance (name rest : Bytes) : Decidable (PlainTag name rest) :=
  decidable_of_iff _ plainTag_iff.symm

/-- Character data and the tag behind it. The tag holds revision attributes, and apart from them
    nothing that a pass looks for. -/
structure Piece where
  data : Bytes
  name : Bytes
  revisions : List Revision
  /-- What stands in the tag behind the revision attributes. -/
  rest : Bytes
  data_plain : Unbracketed data
  plain : PlainTag name rest

/-- The text of a tag and of the character data before it. -/
def Piece.written (p : Piece) : Bytes :=
  p.data ++ '<'.toUInt8 :: (p.name ++ p.revisions.flatMap Revision.written ++ p.rest ++
    ['>'.toUInt8])

namespace Piece

variable (p : Piece)

/-- What stands behind the name of a piece ends it. -/
theorem nameEnds (more : Bytes) :
    NameEnds (p.revisions.flatMap Revision.written ++ (p.rest ++ '>'.toUInt8 :: more)) := by
  cases p.revisions with
  | nil =>
    cases hrest : p.rest with
    | nil => exact ⟨'>'.toUInt8, rfl, by decide⟩
    | cons b rest => exact ⟨b, rfl, p.plain.rest_ends b (by rw [hrest]; rfl)⟩
  | cons r revisions => exact ⟨' '.toUInt8, rfl, by decide⟩

/-- A piece is clear of all that starts with a tag, if its own tag is not what is looked for. -/
theorem clear {P : Bytes → Prop} {more : Bytes} (hP : AtTags P)
    (hstart : ¬ P ('<'.toUInt8 :: (p.name ++
      (p.revisions.flatMap Revision.written ++ (p.rest ++ '>'.toUInt8 :: more))))) :
    Clear P p.written more := by
  refine (clear_data hP p.data_plain.1).append (clear_tag hP ?_ ?_)
  · simp only [List.mem_append, List.mem_singleton, not_or]
    exact ⟨⟨⟨p.plain.name_plain.1, (unbracketed_revisions p.revisions).1⟩,
      p.plain.rest_plain.1⟩, by decide⟩
  · simpa only [List.append_assoc, List.singleton_append] using hstart

end Piece

/-- A marker, or a piece that is none. -/
inductive Part where
  | marker (m : Marker)
  | piece (p : Piece)

namespace Part

/-- The text of a part. -/
def written : Part → Bytes
  | .marker m => m.written
  | .piece p => p.written

/-- Whether a part is a marker with this name. -/
def named (name : String) : Part → Bool
  | .marker m => m.name == name
  | .piece _ => false

end Part

/-- The text of a list of parts. -/
def written (parts : List Part) : Bytes := parts.flatMap Part.written

end Sanitize

end DocxTemplate
