import DocxTemplate.Proofs.Session.Confined

/-! # What a rendering reads

    A rendering starts by giving up what the session held. What it leaves is read off the package in
    the template, the options, the data and the list of images.

    * `Session.text_of_package`: the document that is filled is the one in the package.
    * `Session.Filled`, `Session.filled_of_rendered`: what a successful rendering leaves.
    * `Session.exists_rendered`: a template that can be read can be rendered.
-/

namespace DocxTemplate

open Job

namespace Session

open Package (openEntries dataAt?)

variable {options : Options} {substitution : Substitution} {template : Path}
  {entries : List Archive.Entry} {data : Data} {images : List (String × Path)} {text : Bytes}
  {w w' : World} {s s' : Session}

/-- Unpacking a template tells nothing of names. -/
theorem notices_of_unpackTemplate {ws : Workspace} (h : Ends (unpackTemplate options template) w ws w') :
    w'.notices = w.notices := by
  obtain ⟨-, w₁, n, hcreated, hunpack⟩ := exists_created_of_ends h
  have hconfined := (keeps_unpack hcreated.names template).of_ends hunpack
  have hcreation : w₁.notices = w.notices := by
    rw [World.notices, hcreated.log_eq, List.filter_append, List.filter_singleton,
      decide_eq_false (not_isNotice_announcement _), cond_false, List.append_nil]
    rfl
  rw [(hconfined hcreated.current_eq).hushed.notices_eq, hcreation]

/-- The document that is read is the one in the package, also if files went after the package was
    looked at. -/
theorem text_of_package {d : Disk} {ws : Workspace} {w₁ w₂ : World} (hloses : d.Loses w.disk)
    (hfile : d.isFile template = true) (hopen : openEntries d template = .ok entries)
    (hpackage : Ends (unpackTemplate options template) w ws w₁)
    (hdocument : Ends (documentText ws) w₁ text w₂) :
    dataAt? entries (Split.on '/' Part.document) = some text := by
  obtain ⟨-, w₀, n, hcreated, hunpack⟩ := exists_created_of_ends hpackage
  have hunpacked := unpacked_of_created hcreated hunpack
  obtain ⟨entries', hopen', -, hinside⟩ := hunpacked.unpacked
  have hsame := openEntries_before (hloses.trans (loses_of_created hcreated)) hfile hopen'
  rw [hopen, Except.ok.injEq] at hsame
  obtain ⟨-, htext⟩ := text_of_ends hdocument
  rw [Workspace.part?, Workspace.place, hunpacked.current_eq, hcreated.current_eq, hinside,
    ← hsame] at htext
  simpa [Function.comp_def, Content.bytes] using htext

/-- What a session holds behind a rendering of a template with the document `text`. -/
structure Filled (options : Options) (substitution : Substitution) (data : Data)
    (images : List (String × Path)) (text : Bytes) (s' : Session) : Prop where
  content_eq : s'.content? = some (filled options substitution data text).2
  warnings_eq : s'.warnings = (filled options substitution data text).1
  images_eq : s'.images = ⟨images.map fun image => ⟨image.1, image.2⟩⟩

/-- What a successful rendering comes to, whatever the session held before. -/
theorem filled_of_rendered (hs : s.renderer = .ofSubstitution substitution)
    (h : (s.render template data images).outcome w = ((s', .ok ()), w')) :
    ∃ entries text, openEntries w.disk template = .ok entries ∧
      dataAt? entries (Split.on '/' Part.document) = some text ∧
      Filled s.options substitution data images text s' ∧
      w'.notices = w.notices ++ notice (unfilled s.options data text) := by
  obtain ⟨table, ws, text, w₁, w₂, w₃, hfile, himages, hpackage, hdocument, hnotes, rfl⟩ :=
    exists_of_rendered hs h
  -- Before the template is unpacked, the old workspace goes and the images are registered.
  have hfinish := sheds_finish s w
  have hregistered := (Images.keeps_ofList images).of_ends himages
  have hsheds := sheds_chains.trans hfinish (sheds_of_logs hregistered)
  obtain ⟨-, w₀, n, hcreated, hunpack⟩ := exists_created_of_ends hpackage
  obtain ⟨entries, hopen, -⟩ := (unpacked_of_created hcreated hunpack).unpacked
  have hopen' := openEntries_before (hsheds.1.trans (loses_of_created hcreated)) hfile hopen
  have htext := text_of_package hsheds.1 hfile hopen' hpackage hdocument
  have htable := (Images.registered_of_ends himages).1
  refine ⟨entries, text, hopen', htext, ⟨rfl, rfl, ?_⟩, ?_⟩
  · show table = _
    rw [← htable]
  · obtain ⟨rfl, -⟩ := text_of_ends hdocument
    rw [hnotes.notices_eq, notices_of_unpackTemplate hpackage, hsheds.2.notices_eq]

/-- A template that one session can unpack and read can be rendered by a fresh session. The mode
    does not matter. -/
theorem exists_rendered {ws : Workspace} {w₁ w₂ : World} (hfile : w.disk.isFile template = true)
    (hpackage : Ends (unpackTemplate options template) w ws w₁)
    (hdocument : Ends (documentText ws) w₁ text w₂) (mode : SanitizeMode) (data : Data) :
    ∃ s' w', (Session.render { options := { options with sanitize := mode }
                               renderer := .ofSubstitution {} } template data []).outcome w =
      ((s', .ok ()), w') := by
  have hrendering := rendering_outcome (s := { options := { options with sanitize := mode } }) rfl
    template data [] w
  have hregistered : ∀ {table w'}, Ends (Images.ofList []) w table w' → w' = w := by
    intro table w' h
    exact (ends_pure_iff.1 h).2
  have hpackage' : (unpackTemplate { options with sanitize := mode } template).outcome w =
      (.ok ws, w₁) := hpackage
  generalize (Session.render _ template data []).outcome w = run at hrendering ⊢
  cases hrendering with
  | missing h =>
    rw [hfile] at h
    cases h
  | badImages _ h => cases h
  | badPackage _ himages h =>
    obtain rfl := hregistered himages
    rw [hpackage'] at h
    cases h
  | badDocument _ himages hpackage₂ h =>
    obtain rfl := hregistered himages
    cases hpackage'.symm.trans hpackage₂
    rw [hdocument] at h
    cases h
  | done => exact ⟨_, _, rfl⟩

end Session

end DocxTemplate
