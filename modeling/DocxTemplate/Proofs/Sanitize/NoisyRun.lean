import DocxTemplate.Proofs.Sanitize.AttributePass
import DocxTemplate.Proofs.Sanitize.TextRuns

/-! # Runs with noise

    A paragraph whose text a word processor has split over several runs, with revision
    attributes and markers of its own in each of them.

    * `Property`: an element that says how a run looks.
    * `NoisyRun F`: a run with the properties `F` and any noise.
    * `paragraph`: such runs in a row, and `paragraphParts`: its markers and pieces.
    * `flatMap_bare_paragraphParts`: what is left without markers and revision attributes.
-/

namespace DocxTemplate.Sanitize

/-! ## Properties -/

/-- A property of a run: an empty element with a value. -/
structure Property where
  name : Bytes
  value : Bytes
  name_ends : Unended name
  name_plain : '<'.toUInt8 ∉ name ∧ '='.toUInt8 ∉ name
  name_kept : name ∉ defaultTags.map Bytes.ofString
  /-- A property is neither a run nor a text node. -/
  name_other : name ≠ Bytes.ofString "w:r" ∧ name ≠ Bytes.ofString "w:t"
  plain : Unbracketed value
  no_equals : '='.toUInt8 ∉ value

namespace Property

/-- What stands in the tag behind the name. -/
def assigned (p : Property) : Bytes :=
  Bytes.ofString " w:val" ++ '='.toUInt8 :: 0x22 :: (p.value ++ [0x22, '/'.toUInt8])

/-- The text of a property. -/
def written (p : Property) : Bytes := tag (p.name ++ p.assigned)

variable (p : Property)

/-- The value of a property is assigned to none of the revision attributes. -/
theorem indexOf?_assigned {known : String} (hknown : known ∈ defaultAttributes) :
    Bytes.indexOf? (attributeToken known) p.assigned = none := by
  rw [Bytes.indexOf?_eq_none_iff]
  have hequals : ∀ known ∈ defaultAttributes, '='.toUInt8 ∉ Bytes.ofString known := by
    decide
  have hother : ∀ known ∈ defaultAttributes, ∀ j < 7,
      Bytes.ofString known ≠ (Bytes.ofString " w:val").drop j := by
    decide
  have hlen : (Bytes.ofString " w:val").length = 6 := by decide
  intro j hpre
  by_cases hj : j ≤ 6
  · -- The `=` of the attribute would be the one of the assignment.
    obtain ⟨more, hmore⟩ := hpre
    rw [assigned, List.drop_append_of_le_length (by omega), attributeToken, List.append_assoc]
      at hmore
    have hplain : '='.toUInt8 ∉ (Bytes.ofString " w:val").drop j :=
      fun h => absurd (List.mem_of_mem_drop h) (by decide)
    exact hother known hknown j (by omega)
      (Bytes.append_cons_inj (hequals known hknown) hplain hmore).1
  · -- There is no other one.
    obtain ⟨k, rfl⟩ : ∃ k, j = 6 + (k + 1) := ⟨j - 7, by omega⟩
    rw [assigned, ← List.drop_drop, List.drop_left' hlen, List.drop_succ_cons] at hpre
    refine not_prefix_of_no_equals ?_ k hpre
    simp only [List.mem_cons, List.mem_append, List.not_mem_nil, or_false, not_or]
    exact ⟨by decide, p.no_equals, by decide, by decide⟩

theorem plainTag : PlainTag p.name p.assigned where
  name_ends := p.name_ends
  name_plain := p.name_plain
  name_kept := p.name_kept
  rest_ends := by
    intro b hb
    rw [show p.assigned.head? = some ' '.toUInt8 from rfl, Option.some.injEq] at hb
    rw [← hb]
    decide
  rest_plain := by
    obtain ⟨hlt, hgt⟩ := p.plain
    unfold assigned Unbracketed
    simp only [List.mem_append, List.mem_cons, List.not_mem_nil, or_false, not_or]
    exact ⟨⟨by decide, by decide, by decide, hlt, by decide, by decide⟩,
      by decide, by decide, by decide, hgt, by decide, by decide⟩
  rest_kept := fun _ hknown => p.indexOf?_assigned hknown

theorem unbracketed : Unbracketed (p.name ++ p.assigned) := by
  have hname : Unbracketed p.name := by
    refine ⟨p.name_plain.1, fun hgt => ?_⟩
    exact absurd (p.name_ends _ hgt) (by decide)
  exact hname.append p.plainTag.rest_plain

theorem nameEnds (rest : Bytes) : NameEnds (p.assigned ++ rest) :=
  ⟨' '.toUInt8, rfl, by decide⟩

/-- No token of the run pass starts a property. -/
theorem not_startsToken {token : Bytes} (h : token ∈ runTokens) :
    ¬ StartsToken token p.written := by
  have hstart : p.written = '<'.toUInt8 :: (p.name ++ (p.assigned ++ ['>'.toUInt8])) := by
    rw [written, tag, List.append_assoc]
  have hopen : ∀ name ∈ ["w:r", "w:t"], Bytes.ofString name ≠ p.name →
      ¬ StartsToken ('<'.toUInt8 :: Bytes.ofString name) p.written := by
    intro name hname hne hs
    have hends : ∀ name ∈ ["w:r", "w:t"], Unended (Bytes.ofString name) := by decide +kernel
    rw [hstart, startsToken_cons_iff,
      startsToken_name_iff (hends name hname) p.name_ends (p.nameEnds _)] at hs
    exact hne hs
  have hclose : ∀ tail, ¬ StartsToken ('<'.toUInt8 :: '/'.toUInt8 :: tail) p.written := by
    intro tail hs
    rw [hstart, startsToken_cons_iff] at hs
    have hslash := hs.head?_eq
    cases hname : p.name with
    | nil =>
      rw [hname] at hslash
      exact absurd hslash (by simp [assigned]; decide)
    | cons b name =>
      rw [hname, List.cons_append, List.head?_cons, Option.some.injEq] at hslash
      have hends := p.name_ends b (by rw [hname]; exact List.mem_cons_self)
      rw [hslash] at hends
      exact absurd hends (by decide)
  simp only [runTokens, List.mem_cons, List.not_mem_nil, or_false] at h
  rcases h with rfl | rfl | rfl | rfl
  · exact hopen "w:r" (by simp) p.name_other.1.symm
  · exact hclose (Bytes.ofString "w:r")
  · exact hopen "w:t" (by simp) p.name_other.2.symm
  · exact hclose (Bytes.ofString "w:t")

end Property

/-! ## Runs -/

/-- The text of run properties. There is none if there is nothing in it. -/
def propertiesOf {α : Type} (written : α → Bytes) (content : List α) : Bytes :=
  if content.isEmpty then []
  else tag (Bytes.ofString "w:rPr") ++ (content.flatMap written ++ tag (Bytes.ofString "/w:rPr"))

/-- A run with the properties `F` and one text node. -/
structure NoisyRun (F : List Property) where
  attributes : List Revision
  /-- What stands in the run properties: `F`, and markers anywhere between. -/
  content : List (Marker ⊕ Property)
  /-- Markers between the properties and the text node. -/
  markers : List Marker
  node : TextRun
  /-- Markers behind the run. -/
  behind : List Marker
  properties : content.filterMap Sum.getRight? = F

variable {F : List Property}

/-- The text of a run and of the markers behind it. -/
def NoisyRun.written (r : NoisyRun F) : Bytes :=
  tag (Bytes.ofString "w:r" ++ r.attributes.flatMap Revision.written) ++
    (propertiesOf (Sum.elim Marker.written Property.written) r.content ++
      (r.markers.flatMap Marker.written ++ (textTag r.node.preserve ++ (r.node.text ++
        (tag (Bytes.ofString "/w:t") ++ (tag (Bytes.ofString "/w:r") ++
          r.behind.flatMap Marker.written))))))

/-- The text of a paragraph. -/
def paragraph (runs : List (NoisyRun F)) : Bytes :=
  tag (Bytes.ofString "w:p") ++ (runs.flatMap NoisyRun.written ++ tag (Bytes.ofString "/w:p"))

/-! ## Parts -/

/-- The start tags of a paragraph and of runs and their properties. -/
theorem plainTag_start {name : String} (h : name ∈ ["w:p", "w:r", "w:rPr"]) :
    PlainTag (Bytes.ofString name) [] := by
  revert name
  decide +kernel

/-- Their end tags, and that of a text node. -/
theorem plainTag_end {name : String} (h : name ∈ ["/w:p", "/w:r", "/w:rPr", "/w:t"]) :
    PlainTag [] (Bytes.ofString name) := by
  revert name
  decide +kernel

theorem plainTag_text (preserve : Bool) :
    PlainTag (Bytes.ofString "w:t") (textAttribute preserve) := by
  revert preserve
  decide +kernel

/-- Character data and a plain tag with revision attributes. -/
def PlainTag.piece {name rest : Bytes} (h : PlainTag name rest) (data : Bytes)
    (hdata : Unbracketed data) (revisions : List Revision) : Piece :=
  { data, name, revisions, rest, data_plain := hdata, plain := h }

theorem unbracketed_nil : Unbracketed [] := by decide

/-- A start tag as a part. -/
def startPart (name : String) (h : name ∈ ["w:p", "w:r", "w:rPr"]) (revisions : List Revision) :
    Part := .piece ((plainTag_start h).piece [] unbracketed_nil revisions)

/-- An end tag and the character data before it as a part. -/
def endPart (data : Bytes) (hdata : Unbracketed data) (name : String)
    (h : name ∈ ["/w:p", "/w:r", "/w:rPr", "/w:t"]) : Part :=
  .piece ((plainTag_end h).piece data hdata [])

/-- A marker or a property as a part. -/
def contentPart : Marker ⊕ Property → Part
  | .inl m => .marker m
  | .inr p => .piece (p.plainTag.piece [] unbracketed_nil [])

/-- The parts of run properties. -/
def propertyParts (content : List (Marker ⊕ Property)) : List Part :=
  if content.isEmpty then []
  else startPart "w:rPr" (by simp) [] ::
    (content.map contentPart ++ [endPart [] unbracketed_nil "/w:rPr" (by simp)])

/-- The parts of a run and of the markers behind it. -/
def NoisyRun.parts (r : NoisyRun F) : List Part :=
  startPart "w:r" (by simp) r.attributes :: (propertyParts r.content ++ (r.markers.map .marker ++
    (.piece ((plainTag_text r.node.preserve).piece [] unbracketed_nil []) ::
      endPart r.node.text r.node.plain "/w:t" (by simp) ::
        endPart [] unbracketed_nil "/w:r" (by simp) :: r.behind.map .marker)))

/-- The parts of a paragraph. -/
def paragraphParts (runs : List (NoisyRun F)) : List Part :=
  startPart "w:p" (by simp) [] ::
    (runs.flatMap NoisyRun.parts ++ [endPart [] unbracketed_nil "/w:p" (by simp)])

/-! ## Their text -/

theorem PlainTag.written_piece {name rest : Bytes} (h : PlainTag name rest) (data : Bytes)
    (hdata : Unbracketed data) (revisions : List Revision) :
    (h.piece data hdata revisions).written =
      data ++ tag (name ++ (revisions.flatMap Revision.written ++ rest)) := by
  rw [Piece.written, tag, ← List.append_assoc name]
  rfl

@[simp] theorem written_startPart (name : String) (h) (revisions : List Revision) :
    (startPart name h revisions).written =
      tag (Bytes.ofString name ++ revisions.flatMap Revision.written) := by
  rw [startPart, Part.written, PlainTag.written_piece, List.nil_append, List.append_nil]

@[simp] theorem written_endPart (data : Bytes) (hdata) (name : String) (h) :
    (endPart data hdata name h).written = data ++ tag (Bytes.ofString name) := by
  rw [endPart, Part.written, PlainTag.written_piece]
  rfl

theorem written_contentPart (item : Marker ⊕ Property) :
    (contentPart item).written = Sum.elim Marker.written Property.written item := by
  cases item with
  | inl m => rfl
  | inr p =>
    rw [contentPart, Part.written, PlainTag.written_piece]
    rfl

theorem written_propertyParts (content : List (Marker ⊕ Property)) :
    written (propertyParts content) =
      propertiesOf (Sum.elim Marker.written Property.written) content := by
  unfold propertyParts propertiesOf written
  by_cases h : content.isEmpty = true
  · rw [if_pos h, if_pos h]
    rfl
  · rw [if_neg h, if_neg h]
    simp [List.flatMap_map, written_contentPart]

theorem written_markers (ms : List Marker) :
    written (ms.map .marker) = ms.flatMap Marker.written := by
  rw [written, List.flatMap_map]
  rfl

theorem written_append (parts parts' : List Part) :
    written (parts ++ parts') = written parts ++ written parts' := List.flatMap_append

theorem written_cons (part : Part) (parts : List Part) :
    written (part :: parts) = part.written ++ written parts := List.flatMap_cons

theorem NoisyRun.written_parts (r : NoisyRun F) : Sanitize.written r.parts = r.written := by
  have htext : (Part.piece ((plainTag_text r.node.preserve).piece [] unbracketed_nil [])).written =
      textTag r.node.preserve := PlainTag.written_piece _ _ _ _
  rw [parts, written_cons, written_append, written_append, written_cons, written_cons, written_cons,
    written_startPart, written_propertyParts, written_markers, htext, written_endPart,
    written_endPart, written_markers]
  simp only [NoisyRun.written, List.append_assoc, List.nil_append]

theorem written_paragraphParts (runs : List (NoisyRun F)) :
    written (paragraphParts runs) = paragraph runs := by
  have hruns : written (runs.flatMap NoisyRun.parts) = runs.flatMap NoisyRun.written := by
    rw [written, List.flatMap_assoc]
    exact congrArg (fun f => runs.flatMap f) (funext NoisyRun.written_parts)
  rw [paragraphParts, written_cons, written_append, hruns, written_startPart, paragraph]
  simp [written]

/-! ## What the first two passes leave of them -/

/-- A piece without its revision attributes. -/
def Piece.bare (p : Piece) : Bytes := p.data ++ tag (p.name ++ p.rest)

theorem Piece.written_without_default (p : Piece) :
    (p.without defaultAttributes).written = p.bare := by
  have hnone : p.revisions.filter (fun r => !defaultAttributes.contains r.name) = [] := by
    rw [List.filter_eq_nil_iff]
    intro r _
    simp [r.known]
  unfold without written bare tag
  rw [hnone]
  simp only [List.flatMap_nil, List.append_nil]

/-- What is left of a part. -/
def Part.bare : Part → Bytes
  | .marker _ => []
  | .piece p => p.bare

theorem flatMap_bare_pieces (parts : List Part) :
    (pieces parts).flatMap Piece.bare = parts.flatMap Part.bare := by
  induction parts with
  | nil => rfl
  | cons part parts ih =>
    cases part with
    | marker m => exact ih
    | piece p =>
      rw [List.flatMap_cons, ← ih]
      rfl

@[simp] theorem bare_startPart (name : String) (h) (revisions : List Revision) :
    (startPart name h revisions).bare = tag (Bytes.ofString name) := by
  rw [startPart, Part.bare, Piece.bare]
  simp [PlainTag.piece]

@[simp] theorem bare_endPart (data : Bytes) (hdata) (name : String) (h) :
    (endPart data hdata name h).bare = data ++ tag (Bytes.ofString name) := rfl

theorem flatMap_bare_markers (ms : List Marker) : (ms.map Part.marker).flatMap Part.bare = [] := by
  induction ms with
  | nil => rfl
  | cons m ms ih => exact ih

theorem flatMap_bare_content (content : List (Marker ⊕ Property)) :
    (content.map contentPart).flatMap Part.bare =
      (content.filterMap Sum.getRight?).flatMap Property.written := by
  induction content with
  | nil => rfl
  | cons item content ih =>
    cases item with
    | inl m => exact ih
    | inr p =>
      rw [List.map_cons, List.flatMap_cons, ih]
      rfl

/-- What is left of the properties of a run: nothing may be left in them. -/
def NoisyRun.leftProperties (r : NoisyRun F) : Bytes :=
  if r.content.isEmpty then []
  else tag (Bytes.ofString "w:rPr") ++ (F.flatMap Property.written ++ tag (Bytes.ofString "/w:rPr"))

theorem flatMap_bare_propertyParts (r : NoisyRun F) :
    (propertyParts r.content).flatMap Part.bare = r.leftProperties := by
  unfold propertyParts NoisyRun.leftProperties
  by_cases h : r.content.isEmpty = true
  · rw [if_pos h, if_pos h]
    rfl
  · rw [if_neg h, if_neg h, List.flatMap_cons, List.flatMap_append, flatMap_bare_content,
      r.properties]
    simp

/-- A text run is left of a noisy one. -/
theorem NoisyRun.flatMap_bare_parts (r : NoisyRun F) :
    r.parts.flatMap Part.bare = r.node.written r.leftProperties := by
  have htext : (Part.piece ((plainTag_text r.node.preserve).piece [] unbracketed_nil [])).bare =
      textTag r.node.preserve := rfl
  rw [parts, List.flatMap_cons, List.flatMap_append, List.flatMap_append, List.flatMap_cons,
    List.flatMap_cons, List.flatMap_cons, flatMap_bare_propertyParts, flatMap_bare_markers,
    flatMap_bare_markers, htext, bare_startPart, bare_endPart, bare_endPart]
  simp only [TextRun.written, List.append_assoc, List.nil_append, List.append_nil]

theorem flatMap_bare_paragraphParts (runs : List (NoisyRun F)) :
    (paragraphParts runs).flatMap Part.bare = tag (Bytes.ofString "w:p") ++
      (runs.flatMap (fun r => r.node.written r.leftProperties) ++ tag (Bytes.ofString "/w:p")) := by
  have hruns : (runs.flatMap NoisyRun.parts).flatMap Part.bare =
      runs.flatMap fun r => r.node.written r.leftProperties := by
    rw [List.flatMap_assoc]
    exact congrArg (fun f => runs.flatMap f) (funext NoisyRun.flatMap_bare_parts)
  rw [paragraphParts, List.flatMap_cons, List.flatMap_append, hruns, bare_startPart]
  simp

end DocxTemplate.Sanitize
