import DocxTemplate.Proofs.Embedding.Package
import DocxTemplate.Proofs.Session.Opening

/-! # What a saved document holds

    A fresh session renders a template and saves it. The archive that is written is the template
    with the main document filled and the images embedded: every other file is in it as it was,
    and nothing is new besides the images and their table.

    * `Session.MadeFrom`: how a saved archive compares with its template.
    * `Session.Stages`, `Session.stages_of_outcome`: the disk after each stage of the work.
    * `Session.madeFrom_of_outcome`: what is saved is made from the template.
-/

namespace DocxTemplate

open Job
open Archive (files dataOf? Plain)

namespace Session

variable {options : Options} {substitution : Substitution} {template output : Path} {data : Data}
  {images : List (String × Path)} {w₀ w₁ w₂ : World} {entries : List Archive.Entry}

/-! ## Statement -/

/-- A path leads to a place outside the workspace of a session. -/
def Outside (s : Session) (d : Disk) (p : Path) : Prop :=
  ∀ ws, s.workspace? = some ws → ¬ ws.root.target d.current <+: p.target d.current

/-- The parts that images become. -/
def mediaParts (images : List (String × Path)) : List String :=
  images.map fun image => Image.part (Image.mk image.1 image.2).name

/-- A saved archive is made from a template: the document is new, the images and their tables
    may be, and everything else is the same. -/
structure MadeFrom (template saved : List Archive.Entry) (images : List (String × Path))
    (content : Bytes) : Prop where
  /-- No name is used twice. -/
  nodup : (saved.map (·.name)).Nodup
  document : dataOf? saved Part.document = some content
  /-- All files of the template are there with the same data, but for the document, the images
      and the two tables. -/
  same : ∀ name, name ∉ [Part.document, Part.relationships, Part.contentTypes] →
    name ∉ mediaParts images → dataOf? saved name = dataOf? (files template) name
  /-- Nothing is new but the images and their relationships. -/
  known : ∀ name ∈ saved.map (·.name), name ∈ (files template).map (·.name) ∨
    name = Part.relationships ∨ name ∈ mediaParts images
  /-- Without images only the document changes. -/
  plain : images = [] → ∀ name, name ≠ Part.document →
    dataOf? saved name = dataOf? (files template) name

/-! ## Stages -/

/-- The disk after each stage of the work of a session on one template. -/
structure Stages (options : Options) (template output : Path) (ws : Workspace) (table : Images)
    (text content : Bytes) (d₀ d : Disk) where
  opened : Disk
  embedded : Disk
  filled : Disk
  isOpened : Opened template ws d₀ opened
  isText : ws.part? opened Part.document = some text
  isEmbedded : ∃ n w w', w.disk = opened ∧ w'.disk = embedded ∧
    Ends (table.embedAll ws options.images) w n w'
  isFilled : embedded.write ws.document (.plain content) = .ok filled
  isPacked : ∃ n w w', w.disk = filled ∧ w'.disk = d ∧ Ends (Package.pack ws.root output) w n w'

/-- Storing writes the document and packs the workspace. -/
theorem exists_of_ends_store {ws : Workspace} {content : Bytes} {u : Unit} {w w' : World}
    (h : Ends (store options ws content output) w u w') : ∃ filled n w₁ w₂,
      w.disk.write ws.document (.plain content) = .ok filled ∧ w₁.disk = filled ∧
        w₂.disk = w'.disk ∧ Ends (Package.pack ws.root output) w₁ n w₂ := by
  have hrest : ∃ w₁, w₁.disk = w.disk ∧ Ends (do
      Job.write ws.document (.plain content)
      let entries ← Package.pack ws.root output
      Job.log .info s!"saved {output.text} ({entries} entries)") w₁ u w' := by
    rw [store] at h
    dsimp only at h
    split at h
    · split at h
      · exact ⟨w, rfl, h⟩
      · obtain ⟨u, w₁, hlog, h₁⟩ := ends_bind_iff.1 h
        exact ⟨w₁, by rw [ends_log_iff.1 hlog], h₁⟩
    · exact ⟨w, rfl, h⟩
  obtain ⟨w₁, hdisk, h₁⟩ := hrest
  obtain ⟨u₁, w₂, hwrite, h₂⟩ := ends_bind_iff.1 h₁
  obtain ⟨filled, hfilled, rfl⟩ := ends_write_iff.1 hwrite
  obtain ⟨n, w₃, hpack, hlog⟩ := ends_bind_iff.1 h₂
  rw [hdisk] at hfilled
  exact ⟨filled, n, _, w₃, hfilled, rfl, by rw [ends_log_iff.1 hlog], hpack⟩

namespace Stages

open Package (dataAt? dataOf?_entriesOf dataAt?_on NameList NamedBelow entriesOf)

variable {ws : Workspace} {table : Images} {text content : Bytes} {d₀ d : Disk} {k : Location}
  (stages : Stages options template output ws table text content d₀ d)
include stages

/-- The disk behind the embedding, as far as files go. -/
theorem changes_embedded (outside : Embedding.Outside ws d₀.current table.entries) :
    stages.opened.Changes (fun k => table.entries ≠ [] ∧
      Images.Touches table ws options.images stages.opened k) stages.embedded := by
  obtain ⟨n, w, w', hopened, hembedded, h⟩ := stages.isEmbedded
  rw [← stages.isOpened.current_eq, ← hopened] at outside
  rw [← hopened, ← hembedded]
  exact Images.changes_of_ends_embedAll outside h

theorem current_embedded (outside : Embedding.Outside ws d₀.current table.entries) :
    stages.embedded.current = d₀.current :=
  (stages.changes_embedded outside).current_eq.trans stages.isOpened.current_eq

theorem file?_filled (outside : Embedding.Outside ws d₀.current table.entries) (k : Location) :
    stages.filled.file? k = if k = ws.place d₀.current Part.document then some (.plain content)
      else stages.embedded.file? k := by
  have hplace : ws.document.target stages.embedded.current = ws.place d₀.current Part.document := by
    rw [stages.current_embedded outside]
    exact Workspace.target_pathOf isName_document ws d₀.current
  rw [Disk.file?_of_write stages.isFilled, hplace]

/-- The files that are unpacked are those of the template, by name. -/
theorem file?_opened (hopen : Package.openEntries d₀ template = .ok entries) (hplain : Plain entries)
    (name : String) : stages.opened.file? (ws.place d₀.current name) =
      (dataOf? (files entries) name).map Content.plain := by
  obtain ⟨entries', hopen', hinside⟩ := stages.isOpened.inside
  rw [hopen, Except.ok.injEq] at hopen'
  subst hopen'
  rw [Workspace.place, hinside, dataAt?_on hplain (Package.nodup_of_openEntries hopen)]

/-- The main document of the template. -/
theorem dataOf?_document (hopen : Package.openEntries d₀ template = .ok entries)
    (hplain : Plain entries) : dataOf? (files entries) Part.document = some text := by
  have htext := stages.isText
  rw [Workspace.part?, stages.isOpened.current_eq, stages.file?_opened hopen hplain,
    Option.map_map] at htext
  simpa [Function.comp_def, Content.bytes] using htext

/-- What embedding changes, by name. -/
theorem cases_of_touches (htable : table.entries = images.map (fun image => ⟨image.1, image.2⟩))
    {name : String} (h : Images.Touches table ws options.images stages.opened
      (ws.place d₀.current name)) :
    name = Part.relationships ∨
      (name = Part.contentTypes ∧ (ws.part? stages.opened Part.contentTypes).isSome = true) ∨
      name ∈ mediaParts images := by
  rw [Images.Touches, stages.isOpened.current_eq] at h
  rcases h with hrelationships | ⟨-, hsome, htypes⟩ | ⟨image, himage, hmedia⟩
  · exact Or.inl (Workspace.place_inj hrelationships)
  · exact Or.inr (Or.inl ⟨Workspace.place_inj htypes, hsome⟩)
  · refine Or.inr (Or.inr ?_)
    rw [htable] at himage
    obtain ⟨pair, hpair, rfl⟩ := List.mem_map.1 himage
    rw [Workspace.place_inj hmedia]
    exact List.mem_map.2 ⟨pair, hpair, rfl⟩

/-- All files of the workspace have names. -/
theorem namedBelow (outside : Embedding.Outside ws d₀.current table.entries)
    (hopen : Package.openEntries d₀ template = .ok entries) (hplain : Plain entries) :
    NamedBelow stages.filled (ws.root.target d₀.current) := by
  have hon : ∀ name, NameList (Split.on '/' name) := fun name =>
    ⟨Split.on_ne_nil '/' name, fun _ => Split.not_mem_of_mem_on⟩
  have hpart : ∀ {k name}, ws.root.target d₀.current ++ k = ws.place d₀.current name → NameList k := by
    intro k name heq
    rw [Workspace.place, List.append_cancel_left_eq] at heq
    rw [heq]
    exact hon name
  intro k file hfile
  rw [stages.file?_filled outside] at hfile
  split at hfile
  · next hdocument => exact hpart hdocument
  · by_cases htouched : table.entries ≠ [] ∧
        Images.Touches table ws options.images stages.opened (ws.root.target d₀.current ++ k)
    · obtain ⟨-, htouches⟩ := htouched
      rw [Images.Touches, stages.isOpened.current_eq] at htouches
      rcases htouches with heq | ⟨-, -, heq⟩ | ⟨image, -, heq⟩
      · exact hpart heq
      · exact hpart heq
      · exact hpart heq
    · rw [(stages.changes_embedded outside).file?_eq _ htouched] at hfile
      obtain ⟨entries', hopen', hinside⟩ := stages.isOpened.inside
      rw [hopen, Except.ok.injEq] at hopen'
      subst hopen'
      rw [hinside, Option.map_eq_some_iff] at hfile
      obtain ⟨data, hdata, -⟩ := hfile
      obtain ⟨e, he, rfl, -⟩ := Package.exists_of_dataAt? hdata
      rw [hplain.place_eq he]
      exact hon e.name

/-- What is written to the output: the files of the workspace, by name. -/
theorem exists_saved (outside : Embedding.Outside ws d₀.current table.entries)
    (houtput : ¬ ws.root.target d₀.current <+: output.target d₀.current)
    (hopen : Package.openEntries d₀ template = .ok entries) (hplain : Plain entries) :
    ∃ saved, Package.openEntries d output = .ok saved ∧ (saved.map (·.name)).Nodup ∧
      ∀ name, dataOf? saved name =
        (stages.filled.file? (ws.place d₀.current name)).map Content.bytes := by
  have hcurrent : stages.filled.current = d₀.current :=
    (Disk.current_of_write stages.isFilled).trans (stages.current_embedded outside)
  have htidy : stages.filled.Tidy (ws.root.target d₀.current) :=
    Disk.tidy_of_write stages.isFilled
      ((stages.changes_embedded outside).tidy _ stages.isOpened.tidy)
  have hnamed := stages.namedBelow outside hopen hplain
  have hnonroot := stages.isOpened.names.nonroot
  have hnodup : ((entriesOf (stages.filled.filesBelow (ws.root.target d₀.current))).map
      (·.name)).Nodup :=
    Package.nodup_names_entriesOf (fun file hfile => hnamed file.1 file.2
      ((Disk.mem_filesBelow_iff htidy hnonroot).1 hfile)) (Disk.nodup_filesBelow htidy)
  obtain ⟨n, w, w', hfilled, hend, hpack⟩ := stages.isPacked
  have hl : ws.root.target w.disk.current = ws.root.target d₀.current := by rw [hfilled, hcurrent]
  have houtside : ¬ ws.root.target d₀.current <+: output.target w.disk.current := by
    rwa [hfilled, hcurrent]
  have hcontent := Package.content_of_ends_pack hl houtside hpack
  rw [hfilled, hend] at hcontent
  exact ⟨_, Package.openEntries_of_content hcontent hnodup, hnodup,
    dataOf?_entriesOf htidy hnonroot hnamed⟩

/-- The saved archive is made from the template. -/
theorem madeFrom (outside : Embedding.Outside ws d₀.current table.entries)
    (htable : table.entries = images.map (fun image => ⟨image.1, image.2⟩))
    (hopen : Package.openEntries d₀ template = .ok entries) (hplain : Plain entries)
    {saved : List Archive.Entry} (hnodup : (saved.map (·.name)).Nodup)
    (hsaved : ∀ name, dataOf? saved name =
      (stages.filled.file? (ws.place d₀.current name)).map Content.bytes) :
    MadeFrom entries saved images content := by
  have hsame : ∀ name, name ≠ Part.document →
      ¬ (table.entries ≠ [] ∧ Images.Touches table ws options.images stages.opened
        (ws.place d₀.current name)) → dataOf? saved name = dataOf? (files entries) name := by
    intro name hname htouched
    rw [hsaved, stages.file?_filled outside, if_neg fun heq => hname (Workspace.place_inj heq),
      (stages.changes_embedded outside).file?_eq _ htouched, stages.file?_opened hopen hplain,
      Option.map_map]
    simp [Function.comp_def, Content.bytes]
  refine ⟨hnodup, ?_, fun name hparts hmedia => ?_, fun name hname => ?_, fun himages name hname => ?_⟩
  · rw [hsaved, stages.file?_filled outside, if_pos rfl]
    rfl
  · rw [List.mem_cons, List.mem_cons, List.mem_singleton, not_or, not_or] at hparts
    refine hsame name hparts.1 fun htouched => ?_
    rcases stages.cases_of_touches htable htouched.2 with h | h | h
    · exact hparts.2.1 h
    · exact hparts.2.2 h.1
    · exact hmedia h
  · rw [← Archive.dataOf?_ne_none_iff] at hname ⊢
    by_cases hdocument : name = Part.document
    · left
      rw [hdocument, stages.dataOf?_document hopen hplain]
      exact nofun
    by_cases htouched : table.entries ≠ [] ∧ Images.Touches table ws options.images stages.opened
        (ws.place d₀.current name)
    · rcases stages.cases_of_touches htable htouched.2 with h | ⟨rfl, hsome⟩ | h
      · exact Or.inr (Or.inl h)
      · left
        rw [Workspace.part?, stages.isOpened.current_eq, stages.file?_opened hopen hplain] at hsome
        rw [Ne, ← Option.not_isSome_iff_eq_none, not_not]
        simpa using hsome
      · exact Or.inr (Or.inr h)
    · left
      rwa [← hsame name hdocument htouched]
  · refine hsame name hname fun htouched => htouched.1 ?_
    rw [htable, himages, List.map_nil]

end Stages

/-- A fresh session that renders and saves goes through all stages. -/
theorem stages_of_outcome {s₁ s₂ : Session}
    (hrender : (Session.render { options, renderer := .ofSubstitution substitution } template data
      images).outcome w₀ = ((s₁, .ok ()), w₁))
    (hsave : (s₁.save output).outcome w₁ = ((s₂, .ok ()), w₂)) : ∃ ws table text,
      s₁.workspace? = some ws ∧
      s₁.content? = some (filled options substitution data text).2 ∧
      s₂.content? = s₁.content? ∧
      table.entries = images.map (fun image => ⟨image.1, image.2⟩) ∧
      Nonempty (Stages options template output ws table text
        (filled options substitution data text).2 w₀.disk w₂.disk) := by
  have hfresh : ({ options, renderer := .ofSubstitution substitution } : Session).renderer =
      .ofSubstitution substitution := rfl
  obtain ⟨table, ws, text, w₃, w₄, w₅, hfile, himages, hpackage, hdocument, hnotes, hs₁⟩ :=
    exists_of_rendered hfresh hrender
  obtain ⟨ws', content, n, w₆, hworkspace, hcontent, hembedded, hstore, hs₂⟩ :=
    exists_of_saved hsave
  have hregistered := (Images.keeps_ofList images w₀).1.disk_eq
  rw [hs₁] at hworkspace hcontent hembedded hstore
  cases hworkspace
  cases hcontent
  have himages' : (Images.ofList images).outcome w₀ = (.ok table, w₃) := himages
  rw [himages'] at hregistered
  dsimp only at hregistered
  have hopened := (opened_of_ends (hregistered ▸ hfile) hpackage).2
  rw [hregistered] at hopened
  obtain ⟨rfl, htext⟩ := text_of_ends hdocument
  obtain ⟨filled, n', w₇, w₈, hfilled, hdisk, hdisk', hpack⟩ := exists_of_ends_store hstore
  refine ⟨ws, table, text, by rw [hs₁], by rw [hs₁], by rw [hs₂], (Images.registered_of_ends himages).1,
    ⟨_, w₆.disk, filled, hopened, htext, ⟨n, w₁, w₆, hnotes.disk_eq, rfl, hembedded⟩, hfilled,
      ⟨n', w₇, w₈, hdisk, hdisk', hpack⟩⟩⟩

/-- A document that a fresh session renders and saves is made from the template. If nothing is to
    be done to the text of the main document, it is as it was, too. -/
theorem madeFrom_of_outcome {s₁ s₂ : Session}
    (hopen : Package.openEntries w₀.disk template = .ok entries) (hplain : Plain entries)
    (hrender : (Session.render { options, renderer := .ofSubstitution substitution } template data
      images).outcome w₀ = ((s₁, .ok ()), w₁))
    (himages : ∀ image ∈ images, s₁.Outside w₀.disk image.2) (houtput : s₁.Outside w₀.disk output)
    (hsave : (s₁.save output).outcome w₁ = ((s₂, .ok ()), w₂)) :
    ∃ content saved, s₁.content? = some content ∧ s₂.content? = some content ∧
      Package.openEntries w₂.disk output = .ok saved ∧ MadeFrom entries saved images content ∧
      ∀ text, dataOf? (files entries) Part.document = some text → options.sanitize = .off →
        placeholderNames text = [] → Xml.ReferencesOnly text → content = text := by
  obtain ⟨ws, table, text, hworkspace, hcontent, hsame, htable, ⟨stages⟩⟩ :=
    stages_of_outcome hrender hsave
  have outside : Embedding.Outside ws w₀.disk.current table.entries := by
    intro image himage
    rw [htable] at himage
    obtain ⟨pair, hpair, rfl⟩ := List.mem_map.1 himage
    exact himages pair hpair ws hworkspace
  obtain ⟨saved, hsavedOpen, hnodup, hsaved⟩ :=
    stages.exists_saved outside (houtput ws hworkspace) hopen hplain
  refine ⟨_, saved, hcontent, by rw [hsame, hcontent], hsavedOpen,
    stages.madeFrom outside htable hopen hplain hnodup hsaved, ?_⟩
  intro text' htext hoff hnames hreferences
  rw [stages.dataOf?_document hopen hplain, Option.some.injEq] at htext
  subst htext
  rw [filled_untouched hoff substitution data hnames hreferences]

/-- A call that has ended well is known by the session and the world it has left. -/
theorem eq_of_ended (run : (Session × Except Error Unit) × World) (h : run.1.2 = .ok ()) :
    run = ((run.1.1, .ok ()), run.2) := by
  obtain ⟨⟨s, result⟩, w⟩ := run
  cases h
  rfl

/-- A template with one character in its document. -/
def sampleTemplate : List Archive.Entry :=
  [.make Part.document .stored [0x61], .make "b/c" .deflated [0x62]]

/-- A disk with the template only. -/
def sampleWorld : World where
  disk := { nodes := [(["t"], .file (.archive sampleTemplate))] }

/-- Rendering the template. -/
def sampleRendered : (Session × Except Error Unit) × World :=
  (Session.render { options := {}, renderer := .ofSubstitution {} } ⟨"/t"⟩ {} []).outcome sampleWorld

/-- Saving the document. -/
def sampleSaved : (Session × Except Error Unit) × World :=
  (sampleRendered.1.1.save ⟨"/o"⟩).outcome sampleRendered.2

theorem madeFrom_of_outcome_sample :
    Package.openEntries sampleWorld.disk ⟨"/t"⟩ = .ok sampleTemplate ∧ Plain sampleTemplate ∧
    sampleRendered.1.2 = .ok () ∧ sampleSaved.1.2 = .ok () ∧
    ∃ content saved, Package.openEntries sampleSaved.2.disk ⟨"/o"⟩ = .ok saved ∧
      MadeFrom sampleTemplate saved [] content := by
  have hcontent : sampleWorld.disk.content ⟨"/t"⟩ = .ok (.archive sampleTemplate) := rfl
  have hopen := Package.openEntries_of_content hcontent (by decide)
  have hplain : Plain sampleTemplate := by decide
  obtain ⟨hrendered, hroot, hsaved⟩ : sampleRendered.1.2 = .ok () ∧
      sampleRendered.1.1.workspace? = some ⟨⟨"/tmp/docxgen_000000"⟩, false⟩ ∧
      sampleSaved.1.2 = .ok () := by
    decide +kernel
  have houtside : sampleRendered.1.1.Outside sampleWorld.disk ⟨"/o"⟩ := by
    intro ws hws
    rw [hroot, Option.some.injEq] at hws
    subst hws
    decide
  obtain ⟨content, saved, -, -, hopened, hmade, -⟩ := madeFrom_of_outcome hopen hplain
    (eq_of_ended sampleRendered hrendered) (by simp) houtside (eq_of_ended sampleSaved hsaved)
  exact ⟨hopen, hplain, hrendered, hsaved, content, saved, hopened, hmade⟩

end Session

end DocxTemplate
