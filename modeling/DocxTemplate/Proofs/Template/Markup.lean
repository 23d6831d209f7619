import DocxTemplate.Proofs.Template.Tags
import DocxTemplate.Proofs.Xml.WellFormed

/-! # Rendering and markup

    Rendering with escaped values leaves the markup of a source alone, as far as the values keep out
    of the way of its quotes.

    * `Markup.Placed` and `Markup.Fits`: where placeholders may stand, and which values may;
      `Markup.fits_iff` for the usual tags.
    * `Substitution.read_render`: rendering one piece of markup, and `Substitution.reads_render`:
      rendering what stands inside the elements that are open.
    * `Substitution.check_render`: a well-formed source is rendered to a well-formed text with the
      same tags.
-/

namespace DocxTemplate

open Xml.Event (Open ofMarkup skipMark)

/-! ## Placeholders among markup -/

namespace Xml

/-- The pieces of markup in a text, each with what is written behind its `<`. -/
def markups : Bytes → List (Markup × Bytes)
  | [] => []
  | b :: rest =>
    if b == '<'.toUInt8 then
      match Markup.read rest with
      | .error _ => []
      | .ok (m, n) => (m, rest.take n) :: markups (rest.drop n)
    else markups rest
termination_by source => source.length
decreasing_by all_goals (simp only [List.length_cons, List.length_drop]; omega)

theorem markups_markup {rest : Bytes} {m : Markup} {n : Nat} (h : Markup.read rest = .ok (m, n)) :
    markups ('<'.toUInt8 :: rest) = (m, rest.take n) :: markups (rest.drop n) := by
  rw [markups, if_pos BEq.rfl, h]

theorem markups_append {written : Bytes} (h : '<'.toUInt8 ∉ written) (rest : Bytes) :
    markups (written ++ rest) = markups rest := by
  induction written with
  | nil => rfl
  | cons b written ih =>
    rw [List.mem_cons, not_or] at h
    rw [List.cons_append, markups, if_neg (by simpa using Ne.symm h.1), ih h.2]

end Xml

/-- Whether placeholders stand in a piece of markup only where a value may be put: between the
    quotes of an attribute value, or in a character section. -/
def Xml.Markup.Placed (written : Bytes) : Xml.Markup → Prop
  | .startTag content | .emptyTag content => (Xml.tagParts content).Placed
  | .cdata _ => True
  | .endTag _ | .other => placeholderNames written = []

/-- Whether values keep out of the way of the markup they are put into: they do not hold the quote
    of the attribute value, do not lead a reader of the tag into quotes or out of them, and make no
    end of a character section. -/
def Xml.Markup.Fits (s : Substitution) (data : Data) : Xml.Markup → Prop
  | .startTag content | .emptyTag content =>
    (∀ v ∈ (Xml.tagParts content).values, v.quote ∉ s.render data v.value) ∧
      s.keepsQuotes data none (Piece.ofSource content) = true
  | .cdata content =>
    Bytes.indexOf? (Bytes.ofString "]]>") (s.render data content ++ Bytes.ofString "]]>") =
      some (s.render data content).length
  | .endTag _ | .other => True

instance (written : Bytes) : (m : Xml.Markup) → Decidable (m.Placed written)
  | .startTag content | .emptyTag content =>
    inferInstanceAs (Decidable (Xml.tagParts content).Placed)
  | .cdata _ => inferInstanceAs (Decidable True)
  | .endTag _ | .other => inferInstanceAs (Decidable (_ = _))

instance (s : Substitution) (data : Data) : (m : Xml.Markup) → Decidable (m.Fits s data)
  | .startTag _ | .emptyTag _ => inferInstanceAs (Decidable (_ ∧ _))
  | .cdata _ => inferInstanceAs (Decidable (_ = _))
  | .endTag _ | .other => inferInstanceAs (Decidable True)

/-- For a tag without quotes in its name and its keys, all that counts is that no value holds the
    quote around it. -/
theorem Xml.Markup.fits_iff {s : Substitution} {data : Data} {m : Xml.Markup}
    {written content : Bytes} (hm : m = .startTag content ∨ m = .emptyTag content)
    (placed : m.Placed written)
    (plain : ∀ v ∈ (Xml.tagParts content).values, ∀ b ∈ v.front, b ≠ 0x22 ∧ b ≠ 0x27) :
    m.Fits s data ↔ ∀ v ∈ (Xml.tagParts content).values, v.quote ∉ s.render data v.value := by
  have hkeeps (hvalues : ∀ v ∈ (Xml.tagParts content).values, v.quote ∉ s.render data v.value) :
      s.keepsQuotes data none (Piece.ofSource content) = true := by
    have hplaced : (Xml.tagParts content).Placed := by
      rcases hm with rfl | rfl <;> exact placed
    have hparts := Substitution.keepsQuotes_of_plain (Xml.quote_eq _ _) hplaced plain hvalues
    rwa [← Xml.tagParts, Xml.text_tagParts] at hparts
  rcases hm with rfl | rfl <;>
    exact ⟨fun fits => fits.1, fun hvalues => ⟨hvalues, hkeeps hvalues⟩⟩

/-- Whether all placeholders of a source stand in character data or where a value may be put. -/
def Placed (source : Bytes) : Prop :=
  ∀ x ∈ Xml.markups (skipMark source), x.1.Placed x.2

/-- Whether all values keep out of the way of the markup they are put into. -/
def Fits (s : Substitution) (data : Data) (source : Bytes) : Prop :=
  ∀ x ∈ Xml.markups (skipMark source), x.1.Fits s data

instance (source : Bytes) : Decidable (Placed source) := inferInstanceAs (Decidable (∀ _ ∈ _, _))

instance (s : Substitution) (data : Data) (source : Bytes) : Decidable (Fits s data source) :=
  inferInstanceAs (Decidable (∀ _ ∈ _, _))

/-! ## Rendering markup -/

namespace Substitution

open Xml (Markup shape Reads readThrough)

variable {s : Substitution} {data : Data}

/-- Rendering a tag gives a tag of the same kind with the same name and the same keys. -/
theorem read_render_tag (escaped : s.escapeValues = true) {written content : Bytes} {m : Markup}
    (hm : m = .startTag content ∨ m = .emptyTag content)
    (taken : Markup.read written = .ok (m, written.length)) (placed : m.Placed written)
    (fits : m.Fits s data) {attributes : List (String × String)}
    (read : Xml.tagAttributes content = .ok attributes) :
    ∃ m' attributes', Markup.read (s.render data written) = .ok (m', (s.render data written).length) ∧
      (m = .startTag content ∧ m' = .startTag (s.render data content) ∨
        m = .emptyTag content ∧ m' = .emptyTag (s.render data content)) ∧
      Xml.tagName (s.render data content) = Xml.tagName content ∧
      Xml.tagAttributes (s.render data content) = .ok attributes' ∧
        attributes'.map (·.1) = attributes.map (·.1) := by
  have hplaced : (Xml.tagParts content).Placed := by
    rcases hm with rfl | rfl <;> exact placed
  have hfits : (∀ v ∈ (Xml.tagParts content).values, v.quote ∉ s.render data v.value) ∧
      s.keepsQuotes data none (Piece.ofSource content) = true := by
    rcases hm with rfl | rfl <;> exact fits
  have hrender : s.render data content = ((Xml.tagParts content).map (s.render data)).text := by
    have htext := s.render_text data (Xml.quote_eq _ _) hplaced
    rwa [← Xml.tagParts, Xml.text_tagParts] at htext
  have hend := tagEnd?_render escaped hfits.2
  obtain ⟨hname, attributes', hread, hkeys⟩ :=
    Xml.tagAttributes_map (exists_readText_render escaped data) read hfits.1
  rw [hrender] at hend
  obtain ⟨closing, m', rfl, hclosing, hread', hkind⟩ :=
    Markup.read_map (f := s.render data) hm taken hend
  rw [← hrender] at hname hread hread' hkind
  have hwritten : s.render data (content ++ closing) = s.render data content ++ closing := by
    have hgreater : Placeholder.Stops '>'.toUInt8 := by decide
    have hslash : Placeholder.Stops '/'.toUInt8 := by decide
    rcases hclosing with rfl | rfl
    · rw [s.render_append data hgreater, render_nil]
    · rw [s.render_append data hslash, s.render_cons data hgreater, render_nil]
  rw [hwritten]
  exact ⟨m', attributes', hread', hkind, hname, hread, hkeys⟩

/-- Rendering a character section gives one with the rendered content. -/
theorem read_render_cdata {written content : Bytes}
    (taken : Markup.read written = .ok (.cdata content, written.length))
    (fits : (Markup.cdata content).Fits s data) :
    Markup.read (s.render data written) =
      .ok (.cdata (s.render data content), (s.render data written).length) := by
  obtain ⟨rfl, -⟩ := Markup.read_cdata_iff.1 taken
  have hwritten : s.render data (Bytes.ofString "![CDATA[" ++ (content ++ Bytes.ofString "]]>")) =
      Bytes.ofString "![CDATA[" ++ (s.render data content ++ Bytes.ofString "]]>") := by
    have hopening : Bytes.ofString "![CDATA[" = Bytes.ofString "![CDATA" ++ ['['.toUInt8] := by
      decide
    have hclosing : Bytes.ofString "]]>" = ']'.toUInt8 :: Bytes.ofString "]>" := by decide
    have hnames : placeholderNames (Bytes.ofString "![CDATA") = [] ∧
        placeholderNames (Bytes.ofString "]>") = [] := by decide +kernel
    have hbracket : Placeholder.Stops '['.toUInt8 ∧ Placeholder.Stops ']'.toUInt8 := by decide
    rw [hopening, hclosing, List.append_assoc, List.append_assoc, List.singleton_append,
      List.singleton_append, s.render_append data hbracket.1, s.render_append data hbracket.2,
      s.render_of_placeholderNames data hnames.1, s.render_of_placeholderNames data hnames.2]
  exact Markup.read_cdata_iff.2 ⟨hwritten, fits⟩

/-- Rendering a piece of markup gives markup that has the same effect and the same shape. -/
theorem read_render (escaped : s.escapeValues = true) {opened others : Open} {written : Bytes}
    {m : Markup} {event? : Option Xml.Event} (taken : Markup.read written = .ok (m, written.length))
    (placed : m.Placed written) (fits : m.Fits s data)
    (read : ofMarkup opened m = .ok (event?, others)) :
    ∃ m' event?', Markup.read (s.render data written) = .ok (m', (s.render data written).length) ∧
      ofMarkup opened m' = .ok (event?', others) ∧
        shape event?'.toList = shape event?.toList := by
  cases m with
  | startTag content =>
    obtain ⟨attributes, hread, rfl, rfl⟩ := Xml.ofMarkup_startTag_iff.1 read
    obtain ⟨m', attributes', htaken, hkind, hname, hread', hkeys⟩ :=
      read_render_tag escaped (Or.inl rfl) taken placed fits hread
    obtain ⟨-, rfl⟩ | ⟨heq, -⟩ := hkind
    · refine ⟨_, _, htaken, Xml.ofMarkup_startTag_iff.2 ⟨attributes', hread', rfl, ?_⟩, ?_⟩
      · rw [hname]
      · simp [shape, Xml.Event.shape?, hname, hkeys]
    · cases heq
  | emptyTag content =>
    obtain ⟨attributes, hread, rfl, rfl⟩ := Xml.ofMarkup_emptyTag_iff.1 read
    obtain ⟨m', attributes', htaken, hkind, hname, hread', hkeys⟩ :=
      read_render_tag escaped (Or.inr rfl) taken placed fits hread
    obtain ⟨heq, -⟩ | ⟨-, rfl⟩ := hkind
    · cases heq
    · refine ⟨_, _, htaken, Xml.ofMarkup_emptyTag_iff.2 ⟨attributes', hread', rfl, rfl⟩, ?_⟩
      simp [shape, Xml.Event.shape?, hname, hkeys]
  | endTag name =>
    rw [s.render_of_placeholderNames data placed]
    exact ⟨_, event?, taken, read, rfl⟩
  | cdata content =>
    cases read
    exact ⟨_, _, read_render_cdata taken fits, rfl, rfl⟩
  | other =>
    rw [s.render_of_placeholderNames data placed]
    exact ⟨_, event?, taken, read, rfl⟩

/-- Character data is rendered by itself. -/
theorem render_data {tail : Bytes} (ends : Xml.EndsData tail) (written : Bytes) :
    s.render data (written ++ tail) = s.render data written ++ s.render data tail := by
  cases tail with
  | nil => rw [render_nil, List.append_nil, List.append_nil]
  | cons b tail =>
    have hstops : Placeholder.Stops '<'.toUInt8 := by decide
    rw [ends b rfl, s.render_append data hstops, s.render_cons data hstops]

/-- So is a piece of markup. -/
theorem render_markup {written : Bytes} {m : Markup}
    (taken : Markup.read written = .ok (m, written.length)) (rest : Bytes) :
    s.render data ('<'.toUInt8 :: (written ++ rest)) =
      '<'.toUInt8 :: (s.render data written ++ s.render data rest) := by
  obtain ⟨body, rfl⟩ := Markup.exists_of_read taken
  have hless : Placeholder.Stops '<'.toUInt8 := by decide
  have hgreater : Placeholder.Stops '>'.toUInt8 := by decide
  rw [s.render_cons data hless, List.append_assoc, List.singleton_append,
    s.render_append data hgreater, s.render_append data hgreater, render_nil, List.append_assoc]
  rfl

/-- Rendering what stands inside open elements leaves its tags and what is open behind it. -/
theorem reads_render (escaped : s.escapeValues = true) {opened last : Open} {text : Bytes}
    {events : List Xml.Event} (placed : ∀ x ∈ Xml.markups text, x.1.Placed x.2)
    (fits : ∀ x ∈ Xml.markups text, x.1.Fits s data)
    (h : readThrough opened text = .ok (events, last)) :
    ∃ events', Reads opened (s.render data text) events' last ∧ shape events' = shape events := by
  have hpieces := Xml.ReadThrough.of_readThrough h
  clear h
  induction hpieces with
  | nil =>
    rw [render_nil]
    exact ⟨[], .nil, rfl⟩
  | @markup opened others last written rest m event? events taken read next ih =>
    rw [Xml.markups_markup (Markup.read_append taken rest), List.take_left, List.drop_left,
      List.forall_mem_cons] at placed fits
    obtain ⟨m', event?', hread, ho, hshape⟩ := read_render escaped taken placed.1 fits.1 read
    obtain ⟨events', hreads, hshape'⟩ := ih placed.2 fits.2
    refine ⟨event?'.toList ++ events', ?_, ?_⟩
    · rw [render_markup taken]
      exact .markup hread ho hreads
    · rw [shape, List.filterMap_append, shape, List.filterMap_append]
      exact congrArg₂ (· ++ ·) hshape hshape'
  | @text opened last written rest content events hne plain ends read next ih =>
    rw [Xml.markups_append plain] at placed fits
    obtain ⟨content', hread⟩ := exists_readText_render escaped data written content read
    obtain ⟨events', hreads, hshape⟩ := ih placed fits
    have plain' : '<'.toUInt8 ∉ s.render data written := fun hmem =>
      plain (mem_of_mem_render escaped (Or.inl rfl) hmem)
    rw [render_data ends]
    exact ⟨.text content' :: events', .text plain' hread hreads, hshape⟩

/-- The mark before a source stays before the text. -/
theorem render_byteOrderMark (rest : Bytes) :
    s.render data (Xml.Event.byteOrderMark ++ rest) = Xml.Event.byteOrderMark ++ s.render data rest := by
  simp only [Xml.Event.byteOrderMark, List.cons_append, List.nil_append]
  rw [render, Piece.ofSource_cons (by decide), Piece.ofSource_cons (by decide),
    Piece.ofSource_cons (by decide)]
  rfl

/-! ## Whole sources -/

/-- With escaped values a well-formed source whose placeholders stand in character data or where
    a value may be put is rendered to a well-formed text with the same tags and keys, if the values
    keep out of the way of the markup they are put into. -/
theorem check_render {source : Bytes} (escaped : s.escapeValues = true)
    (formed : Xml.check source = .ok ()) (placed : Placed source) (fits : Fits s data source) :
    Xml.check (s.render data source) = .ok () ∧
      ∃ before after, Xml.events source = .ok before ∧
        Xml.events (s.render data source) = .ok after ∧ shape after = shape before := by
  obtain ⟨events, hreads, hfold⟩ := Xml.check_eq_ok_iff.1 formed
  obtain ⟨before, hbefore, hitems⟩ := hreads.readThrough_eq
  obtain ⟨events', hreads', hshape⟩ := reads_render escaped placed fits hbefore
  -- The text has the mark of the source, or one that a value brings.
  have hskip : ∃ events'', Reads [] (skipMark (s.render data source)) events'' [] ∧
      shape events'' = shape events' := by
    by_cases hmark : Xml.Event.byteOrderMark <+: source
    · obtain ⟨rest, rfl⟩ := hmark
      have hsource : ∀ tail, skipMark (Xml.Event.byteOrderMark ++ tail) = tail := by
        intro tail
        rw [skipMark, if_pos (List.isPrefixOf_iff_prefix.2 (List.prefix_append _ _)), List.drop_left]
      rw [hsource] at hreads'
      rw [render_byteOrderMark, hsource]
      exact ⟨events', hreads', rfl⟩
    · rw [skipMark, if_neg (mt List.isPrefixOf_iff_prefix.1 hmark)] at hreads'
      exact hreads'.skipMark
  obtain ⟨events'', hreads'', hshape''⟩ := hskip
  obtain ⟨after, hafter, hitems'⟩ := hreads''.readThrough_eq
  have hsame : shape after = shape before := by
    rw [Xml.shape_eq_items after, hitems', ← Xml.shape_eq_items, hshape'', hshape]
  refine ⟨Xml.check_eq_ok_iff.2 ⟨events'', hreads'', ?_⟩, before, after, ?_, ?_, hsame⟩
  · rw [← hfold, ← Xml.foldlM_items _ events, ← hitems, Xml.foldlM_items,
      ← Xml.foldlM_shape _ events'', ← Xml.foldlM_shape _ before, hshape'', hshape]
  · rw [Xml.events, Xml.readFrom_eq_readThrough, hbefore]
    rfl
  · rw [Xml.events, Xml.readFrom_eq_readThrough, hafter]
    rfl

/-- A source with placeholders between tags, in an attribute value and in a character section. -/
def sampleSource : Bytes :=
  Bytes.ofString ("<p id=\"\x7b\x7bid\x7d\x7d\">\x7b\x7b name \x7d\x7d &amp; " ++
    "<![CDATA[\x7b\x7bnote\x7d\x7d]]></p>")

/-- Values with markup, references and quotes. -/
def sampleData : Data := ⟨[("id", "it's <1>"), ("name", "Smith & \"<Sons>\""), ("note", "]]>")]⟩

theorem check_render_sample : Xml.check (({} : Substitution).render sampleData sampleSource) = .ok () :=
  (check_render (s := {}) rfl (by decide +kernel) (by decide +kernel) (by decide +kernel)).1

/-- Whether a value of the variable `x` breaks a well-formed source whose placeholders stand where
    a value may be put. -/
def BrokenBy (source : Bytes) (value : String) : Prop :=
  Xml.check source = .ok () ∧ Placed source ∧
    Xml.check (({} : Substitution).render ⟨[("x", value)]⟩ source) ≠ .ok ()

instance (source : Bytes) (value : String) : Decidable (BrokenBy source value) :=
  inferInstanceAs (Decidable (_ ∧ _))

/-- The quote of the attribute value breaks a tag, the other quote one in which a key has a quote,
    too, and the empty text may join the end of a character section. -/
theorem brokenBy_quotes :
    BrokenBy (Bytes.ofString "<a b=\"\x7b\x7bx\x7d\x7d\"/>") "\"" ∧
    BrokenBy (Bytes.ofString "<a b\"=\"\x7b\x7bx\x7d\x7d\" c\"=\"2\"/>") "'" ∧
    BrokenBy (Bytes.ofString "<a><![CDATA[]]\x7b\x7bx\x7d\x7d><b>]]></a>") "" := by
  decide +kernel

end Substitution

end DocxTemplate
