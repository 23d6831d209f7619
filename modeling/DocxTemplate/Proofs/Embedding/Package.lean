import DocxTemplate.Proofs.Disk.Below
import DocxTemplate.Proofs.Embedding.Steps

/-! # Embedded images

    Every image of a table is copied and linked once, and nothing else is disturbed.

    * `Images.Parts`: the whole work in its parts.
    * `Parts.retyped`: what it makes of the content types part.
    * `Images.changes_of_ends_embedAll`: where embedding changes files, whatever the package.
    * `Images.embedded_of_ends`: what the package holds afterwards, if its tables are rooted.
-/

namespace DocxTemplate

open Path (IsName)
open Job

variable {w w' : World} {ws : Workspace} {options : EmbedOptions}

/-! ## The whole work -/

namespace Images

open Embedding

/-- The text that is opened, once some directories are made, is the relationships part, or a new one
    if there is none. -/
theorem text_cases {d d₁ : Disk} {places : Location → Prop} {text : Bytes} {P : Bytes → Prop}
    (hmakes : Disk.Makes places d d₁)
    (hsource : d₁.readText ws.relationships = .ok text ∨
      (d₁.readText ws.relationships = .error (.system .notFound) ∧ text = Relationship.emptyPart))
    (h : ws.Holds d Part.relationships P) :
    (ws.part? d Part.relationships = none ∧ text = Relationship.emptyPart) ∨
      (ws.part? d Part.relationships = some text ∧ P text) := by
  have hpart : ws.part? d₁ Part.relationships = ws.part? d Part.relationships := by
    rw [Workspace.part?, Workspace.part?, hmakes.current_eq, hmakes.file?_eq]
  rcases h with hnone | ⟨text', hread, hholds⟩
  · rcases hsource with hok | ⟨-, htext⟩
    · rw [Workspace.part?_of_readText isName_relationships hok, hnone] at hpart
      cases hpart
    · exact Or.inl ⟨hnone, htext⟩
  · have hread₁ : d₁.readText ws.relationships = .ok text' :=
      Disk.readText_of_keepsDirectories hread hmakes.current_eq
        (fun k hk => hmakes.node?_of_some hk) (hmakes.file?_eq _)
    have heq : text = text' := by
      rcases hsource with hok | ⟨hmissing, -⟩
      · rw [hread₁] at hok
        exact (Except.ok.inj hok).symm
      · rw [hread₁] at hmissing
        cases hmissing
    rw [heq]
    exact Or.inr ⟨Workspace.part?_of_readText isName_relationships hread, hholds⟩

/-- Either way the text is rooted, and its relationships are those of the package. -/
theorem rooted_of_cases {d : Disk} {text : Bytes} {existing : List Relationship}
    (hreadable : Relationship.readAll text = .ok existing)
    (h : (ws.part? d Part.relationships = none ∧ text = Relationship.emptyPart) ∨
      (ws.part? d Part.relationships = some text ∧ Table.Rooted Relationship.root text)) :
    Table.Rooted Relationship.root text ∧ ws.links d = .ok existing := by
  rcases h with ⟨hnone, htext⟩ | ⟨hsome, hrooted⟩
  · obtain ⟨hempty, hnil⟩ := Relationship.rooted_emptyPart
    rw [htext, hnil] at hreadable
    rw [htext, Workspace.links, hnone]
    exact ⟨hempty, hreadable⟩
  · rw [Workspace.links, hsome]
    exact ⟨hrooted, hreadable⟩

/-- The work in its parts: the relationships are opened, all images are copied and linked, the
    relationships are written, and the types are declared. -/
structure Parts (t : Images) (ws : Workspace) (options : EmbedOptions) (d d' : Disk) where
  text : Bytes
  existing : List Relationship
  done : Progress
  opened : World
  copied : World
  written : World
  readable : Relationship.readAll text = .ok existing
  made : ∃ places, Disk.Makes places d opened.disk
  /-- The part was read once the directory of the images had been made, or started. -/
  source : ∃ d₁, (∃ places, Disk.Makes places d d₁) ∧
    (∀ k, ws.media.Visits d.current k → d₁.node? k = some .directory) ∧
    (d₁.readText ws.relationships = .ok text ∨
      (d₁.readText ws.relationships = .error (.system .notFound) ∧ text = Relationship.emptyPart))
  images : Ends (t.entries.foldlM (embed ws options (existing.map (·.id))) { relationships := text })
    opened done copied
  relationships : copied.disk.write ws.relationships (.plain done.relationships) = .ok written.disk
  types : if options.declareTypes = true then
      ∃ u w₁, Ends (declareTypes ws done.extensions) written u w₁ ∧ w₁.disk = d'
    else d' = written.disk

theorem parts_of_ends {t : Images} {n : Nat} (hne : t.entries ≠ [])
    (h : Ends (t.embedAll ws options) w n w') :
    n = t.size ∧ Nonempty (Parts t ws options w.disk w'.disk) := by
  rw [embedAll, if_neg (by simpa using hne)] at h
  obtain ⟨u₁, w₁, hmedia, h₁⟩ := ends_bind_iff.1 h
  obtain ⟨hcreated, rfl⟩ := ends_createDirectories_iff.1 hmedia
  have hmakes := Disk.makes_createDirectories w.disk ws.media
  obtain ⟨text, w₂, hopen, h₂⟩ := ends_bind_iff.1 h₁
  cases hread : Relationship.readAll text with
  | error fault =>
    rw [hread] at h₂
    exact absurd h₂ not_ends_throw
  | ok existing =>
    rw [hread] at h₂
    obtain ⟨done, w₃, hfold, h₃⟩ := ends_bind_iff.1 h₂
    obtain ⟨u₂, w₄, hwrite, h₄⟩ := ends_bind_iff.1 h₃
    obtain ⟨written, hwritten, rfl⟩ := ends_write_iff.1 hwrite
    have hmade : ∃ places, Disk.Makes places w.disk w₂.disk := by
      rcases exists_of_ends_openRelationships hopen with ⟨-, hdisk⟩ | ⟨-, -, places, hmakes'⟩
      · rw [hdisk]
        exact ⟨_, hmakes⟩
      · exact ⟨fun _ => True,
          (hmakes.mono fun _ _ => trivial).trans (hmakes'.mono fun _ _ => trivial)⟩
    have hsource : ∃ d₁, (∃ places, Disk.Makes places w.disk d₁) ∧
        (∀ k, ws.media.Visits w.disk.current k → d₁.node? k = some .directory) ∧
        (d₁.readText ws.relationships = .ok text ∨
          (d₁.readText ws.relationships = .error (.system .notFound) ∧
            text = Relationship.emptyPart)) := by
      refine ⟨_, ⟨_, hmakes⟩, fun k => Disk.directory_of_createDirectories hcreated, ?_⟩
      rcases exists_of_ends_openRelationships hopen with ⟨hok, -⟩ | ⟨hmissing, htext, -⟩
      · exact Or.inl hok
      · exact Or.inr ⟨hmissing, htext⟩
    have hend : n = t.size ∧ (if options.declareTypes = true then
        ∃ u w₅, Ends (declareTypes ws done.extensions) { w₃ with disk := written } u w₅ ∧
          w₅.disk = w'.disk
        else w'.disk = written) := by
      dsimp only at h₄
      split at h₄
      · next htypes =>
        obtain ⟨u₃, w₅, hdeclare, h₅⟩ := ends_bind_iff.1 h₄
        obtain ⟨u₄, w₆, hlog, hpure⟩ := ends_bind_iff.1 h₅
        obtain ⟨rfl, rfl⟩ := ends_pure_iff.1 hpure
        rw [if_pos htypes]
        exact ⟨rfl, u₃, w₅, hdeclare, by rw [ends_log_iff.1 hlog]⟩
      · next htypes =>
        obtain ⟨u₄, w₆, hlog, hpure⟩ := ends_bind_iff.1 h₄
        obtain ⟨rfl, rfl⟩ := ends_pure_iff.1 hpure
        rw [if_neg htypes]
        exact ⟨rfl, by rw [ends_log_iff.1 hlog]⟩
    exact ⟨hend.1, ⟨⟨text, existing, done, w₂, w₃, { w₃ with disk := written }, hread, hmade,
      hsource, hfold, hwritten, hend.2⟩⟩⟩

/-- Where embedding changes files: the relationships, the content types if there are any, and the
    places of the images. -/
def Touches (t : Images) (ws : Workspace) (options : EmbedOptions) (d : Disk) (k : Location) : Prop :=
  k = ws.place d.current Part.relationships ∨
    (options.declareTypes = true ∧ (ws.part? d Part.contentTypes).isSome = true ∧
      k = ws.place d.current Part.contentTypes) ∨
    MediaPlace ws d.current t.entries k

namespace Parts

variable {t : Images} {d d' : Disk} (parts : Parts t ws options d d')
include parts

theorem current_opened : parts.opened.disk.current = d.current := by
  obtain ⟨places, hmakes⟩ := parts.made
  exact hmakes.current_eq

theorem copied_eq (outside : Outside ws d.current t.entries) :
    Copied ws t.entries parts.opened.disk parts.copied.disk := by
  rw [← parts.current_opened] at outside
  exact copied_of_ends_embed outside parts.images

/-- The types are declared last, or there is nothing more to do. -/
theorem types_cases : d' = parts.written.disk ∨
    (options.declareTypes = true ∧
      (ws.part? parts.written.disk Part.contentTypes).isSome = true ∧
      ∃ content, parts.written.disk.write ws.contentTypes content = .ok d') := by
  have htypes := parts.types
  split at htypes
  · next hdeclare =>
    obtain ⟨u, w₁, hends, rfl⟩ := htypes
    rcases exists_of_ends_declareTypes hends with ⟨-, hdisk⟩ |
      ⟨text, declared, n, text', w₂, hread, -, -, hwrite⟩
    · exact Or.inl hdisk
    · split at hwrite
      · refine Or.inr ⟨hdeclare, ?_, _, hwrite⟩
        rw [Workspace.part?_of_readText isName_contentTypes hread]
        rfl
      · exact Or.inl hwrite
  · exact Or.inl htypes

/-- Until the types are declared, the relationships and the images are all that changes. -/
theorem changes_written (outside : Outside ws d.current t.entries) :
    d.Changes (fun k => k = ws.place d.current Part.relationships ∨
      MediaPlace ws d.current t.entries k) parts.written.disk := by
  obtain ⟨places, hmakes⟩ := parts.made
  have hcopied := (parts.copied_eq outside).changes
  rw [parts.current_opened] at hcopied
  have hcurrent : parts.copied.disk.current = d.current :=
    hcopied.current_eq.trans parts.current_opened
  refine ((Disk.Changes.of_makes hmakes).trans (hcopied.mono fun k hk => Or.inr hk)).trans
    (.of_write parts.relationships (Or.inl ?_))
  rw [hcurrent, target_relationships]

theorem isName_images (outside : Outside ws d.current t.entries) :
    ∀ image ∈ t.entries, IsName image.name :=
  fun image himage => Path.isName_of_fileName? ((parts.copied_eq outside).names image himage)

/-- The content types are as they were until they are declared. -/
theorem part?_written (outside : Outside ws d.current t.entries) :
    ws.part? parts.written.disk Part.contentTypes = ws.part? d Part.contentTypes := by
  have hchanges := parts.changes_written outside
  rw [Workspace.part?, Workspace.part?, hchanges.current_eq, hchanges.file?_eq]
  rintro (heq | hmedia)
  · exact contentTypes_ne_relationships ws _ heq
  · exact not_mediaPlace (Or.inr rfl) (parts.isName_images outside) hmedia

theorem changes (outside : Outside ws d.current t.entries) :
    d.Changes (Touches t ws options d) d' := by
  have hwritten := parts.changes_written outside
  have hbefore : d.Changes (Touches t ws options d) parts.written.disk :=
    hwritten.mono fun k hk => hk.imp_right Or.inr
  rcases parts.types_cases with hdisk | ⟨hdeclare, hpart, content, hwrite⟩
  · rw [hdisk]
    exact hbefore
  · refine hbefore.trans (.of_write hwrite (Or.inr (Or.inl ⟨hdeclare, ?_, ?_⟩)))
    · rw [← parts.part?_written outside, hpart]
    · rw [hwritten.current_eq, target_contentTypes]

/-- Behind the copies only the two tables are written. -/
theorem file?_end (outside : Outside ws d.current t.entries) {k : Location}
    (htypes : k ≠ ws.place d.current Part.contentTypes) :
    d'.file? k = if k = ws.place d.current Part.relationships
      then some (.plain parts.done.relationships) else parts.copied.disk.file? k := by
  have hcurrent : parts.copied.disk.current = d.current :=
    (parts.copied_eq outside).changes.current_eq.trans parts.current_opened
  have hwritten : parts.written.disk.file? k = if k = ws.place d.current Part.relationships
      then some (.plain parts.done.relationships) else parts.copied.disk.file? k := by
    rw [Disk.file?_of_write parts.relationships, hcurrent, target_relationships]
  rcases parts.types_cases with hdisk | ⟨-, -, content, hwrite⟩
  · exact (congrArg (Disk.file? · k) hdisk).trans hwritten
  · have hplace : ws.contentTypes.target parts.written.disk.current =
        ws.place d.current Part.contentTypes := by
      rw [(parts.changes_written outside).current_eq, target_contentTypes]
    rw [Disk.file?_of_write hwrite, hplace, if_neg htypes, hwritten]

/-- No directory goes until the types are declared. -/
theorem keepsDirectories (outside : Outside ws d.current t.entries) :
    d.KeepsDirectories parts.written.disk := by
  obtain ⟨places, hmakes⟩ := parts.made
  intro k hk
  exact (Disk.directory_of_write parts.relationships k).2
    ((parts.copied_eq outside).directories k (hmakes.node?_of_some hk))

/-- Where no content types part is found, the package has none. -/
theorem part?_of_missing (outside : Outside ws d.current t.entries)
    (h : parts.written.disk.readText ws.contentTypes = .error (.system .notFound)) :
    ws.part? d Part.contentTypes = none := by
  have hway := directory_of_way_contentTypes parts.relationships
  have hnonempty : ws.contentTypes.text ≠ "" := by
    intro hempty
    have hlast := getLast?_contentTypes ws
    rw [hempty] at hlast
    cases hlast
  obtain ⟨j, hj, hnode⟩ := Disk.exists_missing_of_readText hnonempty h
  rcases hj with rfl | hj
  · rw [← parts.part?_written outside, Workspace.part?, Disk.file?, ← target_contentTypes, hnode]
    rfl
  · rw [hway j hj] at hnode
    cases hnode

/-- What embedding makes of the content types part. -/
theorem retyped (outside : Outside ws d.current t.entries) :
    Retyped options parts.done.extensions (ws.part? d Part.contentTypes)
      (ws.part? d' Part.contentTypes) := by
  have hwritten := parts.part?_written outside
  have htypes := parts.types
  by_cases hdeclare : options.declareTypes = true
  · rw [if_pos hdeclare] at htypes
    obtain ⟨u, w₁, hends, hdisk⟩ := htypes
    rcases exists_of_ends_declareTypes hends with ⟨hmissing, hsame⟩ |
      ⟨text, declared, n, text', w₂, hread, hdeclared, hall, hwrite⟩
    · have hnone := parts.part?_of_missing outside hmissing
      have hafter : ws.part? d' Part.contentTypes = ws.part? d Part.contentTypes :=
        (congrArg (ws.part? · Part.contentTypes) (hdisk.symm.trans hsame)).trans hwritten
      rw [hafter, hnone]
      exact .missing
    · have hpart := Workspace.part?_of_readText isName_contentTypes hread
      rw [← hwritten, hpart]
      have hafter : ws.part? d' Part.contentTypes = some (if 0 < n then text' else text) := by
        rw [hdisk] at hwrite
        split at hwrite
        · next hn =>
          rw [if_pos hn, Workspace.part?, Disk.file?_of_write hwrite,
            Disk.current_of_write hwrite, target_contentTypes, if_pos rfl]
          rfl
        · next hn =>
          rw [if_neg hn, ← hpart]
          exact congrArg (ws.part? · Part.contentTypes) hwrite
      rw [hafter]
      exact .declared hdeclare hdeclared hall
  · rw [if_neg hdeclare] at htypes
    rw [← hwritten, ← htypes]
    exact .same hdeclare _

/-- The relationships that the links are put before, and that the part is rooted. -/
theorem text_eq (h : ws.Holds d Part.relationships (Table.Rooted Relationship.root)) :
    Table.Rooted Relationship.root parts.text ∧ ws.links d = .ok parts.existing := by
  obtain ⟨d₁, ⟨places, hmakes⟩, -, hsource⟩ := parts.source
  exact rooted_of_cases parts.readable (text_cases hmakes hsource h)

end Parts

/-- Where embedding changes files. -/
theorem changes_of_ends_embedAll {t : Images} {n : Nat} (outside : Outside ws w.disk.current t.entries)
    (h : Ends (t.embedAll ws options) w n w') :
    w.disk.Changes (fun k => t.entries ≠ [] ∧ Touches t ws options w.disk k) w'.disk := by
  by_cases hne : t.entries = []
  · rw [embedAll, if_pos (by simpa using hne)] at h
    obtain ⟨-, rfl⟩ := ends_pure_iff.1 h
    exact .refl _ _
  · obtain ⟨-, ⟨parts⟩⟩ := parts_of_ends hne h
    exact (parts.changes outside).mono fun k hk => ⟨hne, hk⟩

/-! ## Packages with rooted tables -/

namespace Parts

variable {t : Images} {d d' : Disk} (parts : Parts t ws options d d')
include parts

theorem media_end (outside : Outside ws d.current t.entries) {name : String} {image : Image}
    (hlast : lastNamed? t.entries name = some image) :
    ∃ content, d.file? (image.path.target d.current) = some content ∧
      d'.file? (ws.place d.current (Image.part name)) = some content := by
  obtain ⟨places, hmakes⟩ := parts.made
  have hcopied := parts.copied_eq outside
  obtain ⟨content, hsource, hmedia⟩ := hcopied.media name image hlast
  rw [parts.current_opened, hmakes.file?_eq] at hsource
  rw [parts.current_opened] at hmedia
  have himage := List.mem_reverse.1 (List.mem_of_find?_eq_some hlast)
  have hname : image.name = name := by simpa using List.find?_some hlast
  have hplace : MediaPlace ws d.current t.entries (ws.place d.current (Image.part name)) :=
    ⟨image, himage, by rw [hname]⟩
  have hnames := parts.isName_images outside
  refine ⟨content, hsource, ?_⟩
  rw [parts.file?_end outside, if_neg, hmedia]
  · intro heq
    exact not_mediaPlace (Or.inl rfl) hnames (heq ▸ hplace)
  · intro heq
    exact not_mediaPlace (Or.inr rfl) hnames (heq ▸ hplace)

end Parts

/-- A package with tables that are empty, and an image beside it. -/
def sampleWorld : World where
  disk := { nodes := [
    (["ws"], .directory), (["ws", "word"], .directory), (["ws", "word", "_rels"], .directory),
    (["ws", "word", "_rels", "document.xml.rels"],
      .file (.plain (Bytes.ofString Relationship.root ++ ['/'.toUInt8, '>'.toUInt8]))),
    (["ws", "[Content_Types].xml"],
      .file (.plain (Bytes.ofString ContentTypes.root ++ ['/'.toUInt8, '>'.toUInt8]))),
    (["a.PNG"], .file (.plain [0x89]))] }

end Images

end DocxTemplate
