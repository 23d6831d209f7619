import DocxTemplate.Proofs.Sanitize.NoisyRun
import DocxTemplate.Proofs.Sanitize.PropertyPass

/-! # Split text

    Sanitizing puts together a text that is split over several runs, whatever noise stands in
    them.

    * `text_sanitize_written`: all passes but the last one on a list of parts.
    * `erases_leftProperties`: properties in which only markers have stood are removed.
    * `text_sanitize_paragraph`: what sanitizing makes of the paragraph.
-/

namespace DocxTemplate.Sanitize

/-! ## All passes but the last -/

/-- The passes for all names leave the bare pieces. -/
theorem foldl_sweepAttribute_default (ps : List Piece) :
    ∃ n, (defaultAttributes.foldl sweepAttribute (Sweep.ofText (ps.flatMap Piece.written))).toPass =
      { text := ps.flatMap Piece.bare, count := n } := by
  obtain ⟨n, hfold⟩ := foldl_sweepAttribute (fun _ h => h) ps
    (Sweep.ofText (ps.flatMap Piece.written)) rfl
  refine ⟨n, ?_⟩
  have hbare : (ps.map fun p : Piece => p.without defaultAttributes).flatMap Piece.written =
      ps.flatMap Piece.bare := by
    rw [List.flatMap_map]
    exact congrArg (fun f => ps.flatMap f) (funext Piece.written_without_default)
  rw [hfold, hbare]
  change Pass.mk _ (0 + n) _ _ = _
  rw [Nat.zero_add]
  rfl

/-- Empty properties are removed if markers or attributes were. Where there is no marker, no
    properties may be left empty. -/
theorem text_sanitize_written (parts : List Part) {cleaned : Bytes}
    (hremoved : (removeEmptyProperties ((pieces parts).flatMap Piece.bare)).text = cleaned)
    (hsame : (pieces parts).length = parts.length → (pieces parts).flatMap Piece.bare = cleaned) :
    (sanitize {} (written parts)).text = (joinRuns cleaned).text := by
  obtain ⟨n, hmarkers, hcount⟩ := removeMarkers_written parts
  obtain ⟨k, hattributes⟩ := foldl_sweepAttribute_default (pieces parts)
  change (joinRuns (propertiesAfterMarkers (removeMarkers defaultTags (written parts))
    (removeAttributes defaultAttributes
      (removeMarkers defaultTags (written parts)).text)).text).text = _
  rw [hmarkers]
  unfold removeAttributes
  dsimp only
  rw [hattributes]
  dsimp only
  by_cases hk : k = 0
  · -- The attribute pass has left the properties to what comes behind it.
    rw [if_pos hk]
    unfold propertiesAfterMarkers
    dsimp only
    by_cases hn : 0 < n
    · rw [if_pos ⟨hn, hk⟩, hremoved]
    · rw [if_neg (fun h => hn h.1), hsame (by omega)]
  · rw [if_neg hk]
    unfold propertiesAfterMarkers
    dsimp only
    rw [if_neg (fun h => hk h.2), hremoved]

/-! ## Properties between the passes -/

section

variable {F : List Property}

/-- The run pass finds nothing in the properties. -/
theorem quiet_properties : Quiet (propertiesOf Property.written F) := by
  intro token htoken
  obtain ⟨htag, hgt⟩ := tag_runTokens htoken
  have hfixed : ∀ name ∈ ["w:rPr", "/w:rPr"], '<'.toUInt8 ∉ Bytes.ofString name ∧
      ∀ token ∈ runTokens, ¬ StartsToken token (tag (Bytes.ofString name)) := by
    decide
  have htags : ∀ name ∈ ["w:rPr", "/w:rPr"],
      Absent (StartsToken token) (tag (Bytes.ofString name)) := fun name h =>
    absent_token_tag htag hgt (hfixed name h).1 ((hfixed name h).2 token htoken)
  have hinside : Absent (StartsToken token) (F.flatMap Property.written) :=
    Absent.flatMap fun p _ => absent_token_tag htag hgt p.unbracketed.1 (p.not_startsToken htoken)
  unfold propertiesOf
  by_cases h : F.isEmpty = true
  · rw [if_pos h]
    exact fun _ => clear_nil
  · rw [if_neg h]
    exact (htags "w:rPr" (by simp)).append (hinside.append (htags "/w:rPr" (by simp)))

/-- A tag that a property pass leaves alone. -/
theorem absent_form_fixed {form name : String} (hform : form ∈ emptyForms)
    (h : name ∈ ["w:p", "w:r", "/w:t", "/w:r", "/w:p", "/w:rPr"]) :
    Absent (Bytes.ofString form <+: ·) (tag (Bytes.ofString name)) := by
  have hplain : ∀ name ∈ ["w:p", "w:r", "/w:t", "/w:r", "/w:p", "/w:rPr"],
      Unbracketed (Bytes.ofString name) ∧ Bytes.ofString name ∉ emptyTags := by
    decide
  exact absent_form_tag hform (hplain name h).1 (hplain name h).2

/-- No empty form stands in properties that are not empty. -/
theorem absent_form_properties {form : String} (hform : form ∈ emptyForms) :
    Absent (Bytes.ofString form <+: ·) (propertiesOf Property.written F) := by
  -- A property has a value, the tags of the forms have none.
  have hequals : ∀ p : Property, '='.toUInt8 ∈ p.name ++ p.assigned := by
    intro p
    simp [Property.assigned]
  have hnone : ∀ inner ∈ Bytes.ofString "/w:rPr" :: emptyTags, '='.toUInt8 ∉ inner := by
    decide
  have hother : ∀ p : Property, p.name ++ p.assigned ∉ emptyTags := fun p h =>
    hnone _ (List.mem_cons_of_mem _ h) (hequals p)
  have hproperty : ∀ p : Property, Absent (Bytes.ofString form <+: ·) p.written := fun p =>
    absent_form_tag hform p.unbracketed (hother p)
  cases F with
  | nil => exact fun _ => clear_nil
  | cons p F =>
    intro rest
    rw [propertiesOf, if_neg (by simp), List.flatMap_cons]
    have hinside : Absent (Bytes.ofString form <+: ·) (p.written ++ F.flatMap Property.written) :=
      (hproperty p).append (Absent.flatMap fun q _ => hproperty q)
    have hend : Absent (Bytes.ofString form <+: ·) (tag (Bytes.ofString "/w:rPr")) :=
      absent_form_fixed hform (by simp)
    refine Clear.append ?_ ((hinside.append hend) rest)
    have hfirst : p.name ++ p.assigned ≠ Bytes.ofString "/w:rPr" := fun h =>
      hnone _ List.mem_cons_self (h ▸ hequals p)
    have hclear : Clear (Bytes.ofString form <+: ·) (tag (Bytes.ofString "w:rPr"))
        (tag (p.name ++ p.assigned) ++
          (F.flatMap Property.written ++ (tag (Bytes.ofString "/w:rPr") ++ rest))) :=
      clear_form_properties hform p.unbracketed hfirst
    simpa only [Property.written, List.append_assoc] using hclear

/-- Erasing empty properties removes those in which only markers have stood. -/
theorem erases_leftProperties (r : NoisyRun F) :
    Erases (Bytes.ofString "<w:rPr></w:rPr>") r.leftProperties
      (propertiesOf Property.written F) := by
  by_cases hF : F.isEmpty = true
  · have hnone : F.flatMap Property.written = [] := by
      rw [List.isEmpty_iff.1 hF]
      rfl
    unfold NoisyRun.leftProperties propertiesOf
    rw [if_pos hF, hnone, List.nil_append]
    by_cases h : r.content.isEmpty = true
    · rw [if_pos h]
      exact fun _ => rfl
    · rw [if_neg h, show tag (Bytes.ofString "w:rPr") ++ tag (Bytes.ofString "/w:rPr") =
        Bytes.ofString "<w:rPr></w:rPr>" by decide]
      exact Erases.whole (by decide)
  · have hcontent : ¬ r.content.isEmpty = true := by
      intro h
      refine hF ?_
      rw [← r.properties, List.isEmpty_iff.1 h]
      rfl
    have hleft : r.leftProperties = propertiesOf Property.written F := by
      unfold NoisyRun.leftProperties propertiesOf
      rw [if_neg hcontent, if_neg hF]
    rw [hleft]
    exact Erases.of_absent (absent_form_properties (by simp [emptyForms]))

/-- Where there are no markers there is nothing to erase. -/
theorem leftProperties_eq (r : NoisyRun F) (h : ∀ m, Sum.inl m ∉ r.content) :
    r.leftProperties = propertiesOf Property.written F := by
  have hempty : r.content.isEmpty = F.isEmpty := by
    have hcontent := r.properties
    cases hc : r.content with
    | nil =>
      rw [hc] at hcontent
      rw [← hcontent]
      rfl
    | cons item content =>
      cases item with
      | inl m => exact absurd (by rw [hc]; exact List.mem_cons_self) (h m)
      | inr p =>
        rw [hc] at hcontent
        rw [← hcontent]
        rfl
  unfold NoisyRun.leftProperties propertiesOf
  rw [hempty]

/-! ## The whole of a paragraph -/

/-- In a text run the property pass looks at the properties only. -/
theorem erases_written {form : String} (hform : form ∈ emptyForms) {P P' : Bytes} (r : TextRun)
    (h : Erases (Bytes.ofString form) P P') :
    Erases (Bytes.ofString form) (r.written P) (r.written P') := by
  have hfixed : ∀ name ∈ ["w:p", "w:r", "/w:t", "/w:r", "/w:p", "/w:rPr"],
      Erases (Bytes.ofString form) (tag (Bytes.ofString name)) (tag (Bytes.ofString name)) :=
    fun name hname => Erases.of_absent (absent_form_fixed hform hname)
  have hnode : Erases (Bytes.ofString form) (textTag r.preserve) (textTag r.preserve) := by
    have hplain : ∀ preserve, Unbracketed (Bytes.ofString "w:t" ++ textAttribute preserve) ∧
        Bytes.ofString "w:t" ++ textAttribute preserve ∉ emptyTags := by
      decide
    exact Erases.of_absent (absent_form_tag hform (hplain r.preserve).1 (hplain r.preserve).2)
  have htext : Erases (Bytes.ofString form) r.text r.text :=
    Erases.of_absent (absent_form_data hform r.plain.1)
  exact (hfixed "w:r" (by simp)).append (h.append (hnode.append (htext.append
    ((hfixed "/w:t" (by simp)).append (hfixed "/w:r" (by simp))))))

/-- So it does in a paragraph of text runs. -/
theorem erases_paragraph {form : String} (hform : form ∈ emptyForms) {α : Type} (runs : List α)
    (node : α → TextRun) {P P' : α → Bytes} (h : ∀ a, Erases (Bytes.ofString form) (P a) (P' a)) :
    Erases (Bytes.ofString form)
      (tag (Bytes.ofString "w:p") ++ (runs.flatMap (fun a => (node a).written (P a)) ++
        tag (Bytes.ofString "/w:p")))
      (tag (Bytes.ofString "w:p") ++ (runs.flatMap (fun a => (node a).written (P' a)) ++
        tag (Bytes.ofString "/w:p"))) := by
  have hfixed : ∀ name ∈ ["w:p", "/w:p"],
      Erases (Bytes.ofString form) (tag (Bytes.ofString name)) (tag (Bytes.ofString name)) := by
    intro name hname
    refine Erases.of_absent (absent_form_fixed hform ?_)
    revert name
    decide
  have hruns := Erases.flatMap fun a (_ : a ∈ runs) => erases_written hform (node a) (h a)
  exact (hfixed "w:p" (by simp)).append (hruns.append (hfixed "/w:p" (by simp)))

/-- If the marker pass has left all parts, no run has a marker in its properties. -/
theorem not_mem_content_of_length_eq {runs : List (NoisyRun F)}
    (h : (pieces (paragraphParts runs)).length = (paragraphParts runs).length) {r : NoisyRun F}
    (hr : r ∈ runs) (m : Marker) : Sum.inl m ∉ r.content := by
  intro hm
  have hcontent : Part.marker m ∈ propertyParts r.content := by
    have hpart : Part.marker m ∈ r.content.map contentPart := List.mem_map_of_mem hm
    unfold propertyParts
    rw [if_neg (by rw [List.isEmpty_iff]; exact List.ne_nil_of_mem hm)]
    exact List.mem_cons_of_mem _ (List.mem_append_left _ hpart)
  have hrun : Part.marker m ∈ r.parts :=
    List.mem_cons_of_mem _ (List.mem_append_left _ hcontent)
  have hmem : Part.marker m ∈ paragraphParts runs :=
    List.mem_cons_of_mem _ (List.mem_append_left _ (List.mem_flatMap.2 ⟨r, hr, hrun⟩))
  have hpiece := List.filterMap_length_eq_length.1 h _ hmem
  exact absurd hpiece (by simp)

/-- Sanitizing puts together a text that is split over runs with the same properties, whatever
    noise stands in and between the runs. The text node starts like the first one. -/
theorem text_sanitize_paragraph (first : NoisyRun F) (others : List (NoisyRun F)) :
    (sanitize {} (paragraph (first :: others))).text =
      tag (Bytes.ofString "w:p") ++ (tag (Bytes.ofString "w:r") ++
        (propertiesOf Property.written F ++ (textTag first.node.preserve ++
          ((first :: others).flatMap (fun r => r.node.text) ++ (tag (Bytes.ofString "/w:t") ++
            (tag (Bytes.ofString "/w:r") ++ tag (Bytes.ofString "/w:p"))))))) := by
  -- What the first three passes leave: text runs with the same properties.
  have hremoved : (removeEmptyProperties ((pieces (paragraphParts (first :: others))).flatMap
      Piece.bare)).text = tag (Bytes.ofString "w:p") ++
        ((first :: others).flatMap (fun r => r.node.written (propertiesOf Property.written F)) ++
          tag (Bytes.ofString "/w:p")) := by
    rw [flatMap_bare_pieces, flatMap_bare_paragraphParts]
    refine text_removeEmptyProperties ?_ fun form hform => ?_
    · exact erases_paragraph (by simp [emptyForms]) _ _ erases_leftProperties
    · exact erases_paragraph hform _ _ fun _ => Erases.of_absent (absent_form_properties hform)
  rw [← written_paragraphParts, text_sanitize_written _ hremoved]
  · have hrow := joinRuns_row (quiet_properties (F := F)) first.node
      (others.map fun r => r.node)
    rw [← List.map_cons (f := fun r : NoisyRun F => r.node), List.flatMap_map, List.flatMap_map]
      at hrow
    exact hrow
  · -- Without markers in them no properties are left empty.
    intro hlength
    have hruns := List.flatMap_congr fun r (hr : r ∈ first :: others) =>
      congrArg (TextRun.written · r.node)
        (leftProperties_eq r (not_mem_content_of_length_eq hlength hr))
    rw [flatMap_bare_pieces, flatMap_bare_paragraphParts, hruns]

/-- A placeholder in two runs, the first with an attribute and a marker in its properties, the
    second behind a marker and with white space to be kept. -/
example : (sanitize {} (Bytes.ofString
    ("<w:p><w:r w:rsidR=\"0A\"><w:rPr><w:lang/></w:rPr><w:t>\x7b\x7bna</w:t></w:r>" ++
      "<w:proofErr/><w:r><w:t xml:space=\"preserve\">me\x7d\x7d</w:t></w:r></w:p>"))).text =
    Bytes.ofString "<w:p><w:r><w:t>\x7b\x7bname\x7d\x7d</w:t></w:r></w:p>" := by
  decide +kernel

end

end DocxTemplate.Sanitize
