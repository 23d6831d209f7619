import DocxTemplate.Proofs.Session.Rendering

/-! # Inspecting and rendering agree

    An inspection sanitizes the document and lists its placeholders. A rendering sanitizes it,
    too, and replaces them. Both read the same package, so what the inspection lists is what the
    rendering reads.

    * `Session.Fills`: a successful rendering of a package, whatever the session held before.
    * `Session.content_of_fills`: its text depends on the package, the options and the data only.
    * `Session.Agreement`, `Session.agreement_of_inspected`: what a list of placeholders says about
      all renderings.
-/

namespace DocxTemplate

open Job

namespace Session

open Package (openEntries dataAt?)

variable {options : Options} {template : Path} {entries : List Archive.Entry} {data : Data}
  {text : Bytes} {w w' : World} {s s' : Session}

/-! ## Renderings -/

/-- With sanitizing first and no data, all names of the sanitized source are missing. -/
theorem unfilled_before (options : Options) (text : Bytes) :
    unfilled { options with sanitize := .before } {} text =
      placeholderNames (sanitize options.rules (sourceOf options text)).text :=
  Data.missing_empty _

/-- The package `entries` is rendered successfully with the renderer that replaces placeholders.
    Nothing is known of what the session held before, of the path of the template and of the images. -/
inductive Fills (options : Options) (entries : List Archive.Entry) (data : Data) (w : World)
    (s' : Session) (w' : World) : Prop
  | intro {s : Session} {template : Path} {images : List (String × Path)}
      (hoptions : s.options = options) (hrenderer : s.renderer = .ofSubstitution {})
      (hopen : openEntries w.disk template = .ok entries)
      (h : (s.render template data images).outcome w = ((s', .ok ()), w'))

/-- Its text and what it tells of names depend on the document, the options and the data only. -/
theorem content_of_fills (h : Fills options entries data w s' w')
    (htext : dataAt? entries (Split.on '/' Part.document) = some text) :
    s'.content? = some (filled options {} data text).2 ∧
      w'.notices = w.notices ++ notice (unfilled options data text) := by
  obtain ⟨hoptions, hrenderer, hopen, hrender⟩ := h
  obtain ⟨entries', text', hopen', htext', hfilled, hnotices⟩ := filled_of_rendered hrenderer hrender
  rw [hopen, Except.ok.injEq] at hopen'
  subst hopen' hoptions
  rw [htext, Option.some.injEq] at htext'
  subst htext'
  exact ⟨hfilled.content_eq, hnotices⟩

/-! ## Agreement -/

/-- What the inspection `found` of the package `entries` says about the renderings of the package,
    which give the texts `contents`. -/
structure Agreement (options : Options) (template : Path) (entries : List Archive.Entry) (w : World)
    (found : Inspection) (contents : SanitizeMode → Data → Bytes) : Prop where
  /-- The package is the one in the template. -/
  opens : openEntries w.disk template = .ok entries
  /-- A fresh session can render the template in each mode. -/
  renders : ∀ mode data, ∃ s' w', (Session.render
    { options := { options with sanitize := mode }, renderer := .ofSubstitution {} }
    template data []).outcome w = ((s', .ok ()), w')
  /-- All renderings of the package in a mode give the same text for the same data. -/
  content_eq : ∀ {mode data w₁ s' w₂}, Fills { options with sanitize := mode } entries data w₁ s' w₂ →
    s'.content? = some (contents mode data)
  /-- Without data, they tell of the names in the inspection and of no others, in the same order. -/
  notices_eq : ∀ {w₁ s' w₂}, Fills { options with sanitize := .before } entries {} w₁ s' w₂ →
    w₂.notices = w₁.notices ++ notice found.placeholders
  /-- Nothing but the values of these names matters. -/
  congr : ∀ data data', (∀ name ∈ found.placeholders, data.get? name = data'.get? name) →
    contents .before data = contents .before data'
  /-- A value for one of them shows. -/
  insert_ne : ∀ data, ∀ name ∈ found.placeholders, ∀ value, data.get? name = none → value ≠ "" →
    contents .before (data.insert name value) ≠ contents .before data
  /-- A name is split if it is one of them and its value does not matter without sanitizing. -/
  mem_split_iff : ∀ name, name ∈ found.split ↔ name ∈ found.placeholders ∧
    ∀ (data : Data) value value',
      contents .off (data.insert name value) = contents .off (data.insert name value')
  /-- It does not matter either whether it has a value. -/
  insert_eq : ∀ data, ∀ name ∈ found.split, ∀ value,
    contents .off (data.insert name value) = contents .off data

/-- A value for a name that a source does not hold changes nothing. -/
theorem render_insert_of_not_mem {source : Bytes} {name : String} (h : name ∉ placeholderNames source)
    (data : Data) (value : String) : ({} : Substitution).render (data.insert name value) source =
      ({} : Substitution).render data source := by
  apply Substitution.render_congr
  intro other hother
  have hne : other ≠ name := by
    rintro rfl
    exact h hother
  rw [Data.get?_insert, if_neg hne]

/-- A value shows where there was none, or the empty one. -/
theorem render_insert_ne {source : Bytes} {name value : String} (h : name ∈ placeholderNames source)
    (hvalue : value ≠ "") {data data' : Data}
    (hother : ∀ other, other ≠ name → data'.get? other = data.get? other)
    (hempty : ∀ old, data'.get? name = some old → old = "") :
    ({} : Substitution).render (data.insert name value) source ≠
      ({} : Substitution).render data' source := by
  intro heq
  have hother' : ∀ other, other ≠ name →
      data'.get? other = (data.insert name value).get? other := by
    intro other hne
    rw [Data.get?_insert, if_neg hne, hother other hne]
  have hlonger := Substitution.length_render_lt (s := {}) rfl h hother' hempty hvalue
    (by rw [Data.get?_insert, if_pos rfl])
  rw [heq] at hlonger
  exact lt_irrefl _ hlonger

/-- The value of a name does not matter if and only if the source does not hold the name. -/
theorem render_insert_eq_iff {source : Bytes} {name : String} :
    (∀ (data : Data) value value', ({} : Substitution).render (data.insert name value) source =
      ({} : Substitution).render (data.insert name value') source) ↔
        name ∉ placeholderNames source := by
  constructor
  · intro hsame hname
    -- Some value and the empty one can be told apart.
    have hvalue : ("x" : String) ≠ "" := by decide
    refine render_insert_ne hname hvalue ?_ ?_ (hsame {} "x" "")
    · intro other hne
      rw [Data.get?_insert, if_neg hne]
    · intro old hold
      rw [Data.get?_insert, if_pos rfl, Option.some.injEq] at hold
      exact hold.symm
  · intro hname data value value'
    rw [render_insert_of_not_mem hname, render_insert_of_not_mem hname]

/-- Inspecting a template and rendering it agree. -/
theorem agreement_of_inspected {found : Inspection} (h : Ends (s.inspect template) w found w') :
    ∃ entries contents, Agreement s.options template entries w found contents := by
  obtain ⟨ws, text, w₁, w₂, hfile, hpackage, hdocument, rfl⟩ := exists_of_inspected h
  obtain ⟨entries, hopen, -⟩ := (opened_of_ends hfile hpackage).2.inside
  have htext := text_of_package (.refl w.disk) hfile hopen hpackage hdocument
  refine ⟨entries, fun mode data => (filled { s.options with sanitize := mode } {} data text).2, ?_⟩
  have hsplit : ∀ name, name ∈ (inspectSource s.options.rules (sourceOf s.options text)).split ↔
      name ∈ placeholderNames (sanitize s.options.rules (sourceOf s.options text)).text ∧
        name ∉ placeholderNames (sourceOf s.options text) := by
    intro name
    simp [inspectSource]
  constructor
  case opens => exact hopen
  case renders => exact exists_rendered hfile hpackage hdocument
  case content_eq =>
    intro mode data w₁ s' w₂ hfills
    exact (content_of_fills hfills htext).1
  case notices_eq =>
    intro w₁ s' w₂ hfills
    rw [(content_of_fills hfills htext).2, unfilled_before]
    rfl
  case congr =>
    intro data data' hagree
    exact Substitution.render_congr _ hagree
  case insert_ne =>
    intro data name hname value hnone hvalue
    apply render_insert_ne hname hvalue fun _ _ => rfl
    intro old hold
    rw [hnone] at hold
    cases hold
  case mem_split_iff =>
    intro name
    rw [hsplit]
    exact and_congr_right fun _ => render_insert_eq_iff.symm
  case insert_eq =>
    intro data name hname value
    exact render_insert_of_not_mem ((hsplit name).1 hname).2 data value

/-- A disk with a template whose document has a placeholder in one piece and a split one. -/
def splitWorld : World where
  disk := { nodes := [(["t"], .file (.archive
    [.make Part.document .stored (Bytes.ofString "\x7b\x7ba\x7d\x7d\x7b<w:proofErr/>\x7bb\x7d\x7d")]))] }

theorem agreement_of_inspected_split : ∃ found w',
    Ends (Session.inspect {} ⟨"/t"⟩) splitWorld found w' ∧ found.placeholders = ["a", "b"] ∧
      found.split = ["b"] ∧
      ∃ entries contents, Agreement {} ⟨"/t"⟩ entries splitWorld found contents := by
  have hrun : ((Session.inspect {} ⟨"/t"⟩).outcome splitWorld).1 = .ok ⟨["a", "b"], ["b"], []⟩ := by
    decide +kernel
  have hends := ends_of_fst hrun
  exact ⟨_, _, hends, rfl, rfl, agreement_of_inspected hends⟩

end Session

end DocxTemplate
