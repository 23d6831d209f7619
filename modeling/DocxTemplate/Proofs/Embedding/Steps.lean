import DocxTemplate.Images
import DocxTemplate.Proofs.Package.Table
import DocxTemplate.Proofs.Workspace

/-! # The steps of embedding

    The three things that the work on one image changes, the files, the relationships part and
    the extensions met, do not depend on each other, so each has an invariant of its own along
    the table. The declarations of types are a second walk, along the extensions.

    * `copied_of_ends_embed`: the files, of which the last one with a name counts.
    * `linked_of_ends_embed`: the relationships, the last link first.
    * `met_of_ends_embed`: the extensions, each once.
    * `declared_of_ends_declareAll`: the declarations, the last one first.
    * `Retyped`, `Retyped.exists_declared`: what becomes of the content types part.
-/

namespace DocxTemplate

open Path (IsName)
open Job

variable {w w' : World} {ws : Workspace} {options : EmbedOptions}

/-! ## Tables of images -/

/-- The name that an image has in a package. -/
def Image.name (image : Image) : String := image.path.fileName?.getD ""

/-- The part that an image becomes. -/
def Image.part (name : String) : String := Part.media ++ "/" ++ name

namespace Images

/-- No reference is used twice. -/
def Distinct (t : Images) : Prop := (t.entries.map (·.reference)).Nodup

/-- The last image with a name. -/
def lastNamed? (images : List Image) (name : String) : Option Image :=
  images.reverse.find? (·.name == name)

theorem lastNamed?_append (images : List Image) (image : Image) (name : String) :
    lastNamed? (images ++ [image]) name =
      if image.name = name then some image else lastNamed? images name := by
  rw [lastNamed?, List.reverse_append, List.reverse_singleton, List.singleton_append,
    List.find?_cons]
  by_cases h : image.name = name
  · rw [if_pos h, beq_iff_eq.2 h]
  · rw [if_neg h, beq_eq_false_iff_ne.2 h, lastNamed?]

/-- Registering an image keeps the references distinct. -/
theorem distinct_of_ends_add {t t' : Images} {reference : String} {path : Path}
    (h : Ends (t.add reference path) w t' w') (ht : t.Distinct) :
    t' = ⟨t.entries ++ [⟨reference, path⟩]⟩ ∧ t'.Distinct := by
  rw [add] at h
  by_cases hused : (t.get? reference).isSome = true
  · rw [if_pos hused] at h
    exact absurd (ends_bind_iff.1 h) (by simp [not_ends_throw])
  rw [if_neg hused] at h
  obtain ⟨isFile, w₁, -, h₁⟩ := ends_bind_iff.1 h
  have hrest : ∃ w₃, Ends (do
      Job.log .debug s!"image {reference} -> {path.text}"
      return (⟨t.entries ++ [Image.mk reference path]⟩ : Images)) w₃ t' w' := by
    dsimp only at h₁
    split at h₁
    · exact absurd (ends_bind_iff.1 h₁) (by simp [not_ends_throw])
    · exact ⟨_, h₁⟩
  obtain ⟨w₃, h₃⟩ := hrest
  obtain ⟨u', w₄, -, hpure⟩ := ends_bind_iff.1 h₃
  obtain ⟨rfl, -⟩ := ends_pure_iff.1 hpure
  refine ⟨rfl, ?_⟩
  rw [Distinct, List.map_append, List.nodup_append]
  refine ⟨ht, List.nodup_singleton _, ?_⟩
  rintro r hr r' hr' rfl
  obtain ⟨image, himage, rfl⟩ := List.mem_map.1 hr
  rw [List.map_singleton, List.mem_singleton] at hr'
  refine hused (List.find?_isSome.2 ⟨image, himage, ?_⟩)
  rw [beq_iff_eq, hr']

end Images

namespace Embedding

theorem on_part {name : String} (h : IsName name) :
    Split.on '/' (Image.part name) = ["word", "media", name] := by
  have hmedia : Split.on '/' Part.media = ["word", "media"] := by decide
  have htext : (Image.part name).toList = Part.media.toList ++ '/' :: name.toList := by
    rw [Image.part, String.toList_append, String.toList_append, List.append_assoc]
    rfl
  rw [Split.on_append htext, hmedia, h.on_eq]
  rfl

theorem on_relationships :
    Split.on '/' Part.relationships = ["word", "_rels", "document.xml.rels"] := by decide

theorem on_contentTypes : Split.on '/' Part.contentTypes = ["[Content_Types].xml"] := by
  decide

theorem on_media : Split.on '/' Part.media = ["word", "media"] := by decide

theorem isName_media : ∀ name ∈ Split.on '/' Part.media, IsName name := by decide

theorem target_media_join {name : String} (h : IsName name) (ws : Workspace) (c : Location) :
    (ws.media.join name).target c = ws.place c (Image.part name) := by
  rw [Path.target_join_name h, Workspace.media, Workspace.target_pathOf isName_media,
    Workspace.place, Workspace.place, on_part h, on_media, List.append_assoc]
  rfl

theorem place_part_inj {name name' : String} (h : IsName name) (h' : IsName name') {c : Location}
    (heq : ws.place c (Image.part name) = ws.place c (Image.part name')) : name = name' := by
  rw [Workspace.place, Workspace.place, List.append_cancel_left_eq, on_part h, on_part h'] at heq
  simpa using heq

/-! ## One image -/

/-- The relationship that links an image. -/
def link (options : EmbedOptions) (image : Image) : Relationship :=
  .image (options.idPrefix ++ image.reference) ("media/" ++ image.name)

theorem disk_of_ends_warnOverwrite {p : Progress} {name : String} {path : Path} {u : Unit}
    (h : Ends (warnOverwrite p name path) w u w') : w'.disk = w.disk := by
  unfold warnOverwrite at h
  split at h
  · split at h
    · rw [ends_log_iff.1 h]
    · rw [(ends_pure_iff.1 h).2]
  · rw [(ends_pure_iff.1 h).2]

/-- What the work on one image comes to. -/
theorem exists_of_ends_embed {existing : List String} {p q : Progress} {image : Image}
    (h : Ends (embed ws options existing p image) w q w') :
    image.path.fileName? = some image.name ∧
      options.idPrefix ++ image.reference ∉ existing ∧
      w.disk.copy image.path (ws.media.join image.name) = .ok w'.disk ∧
      Table.insertAfterRoot Relationship.root (link options image).element p.relationships =
        .ok q.relationships ∧
      q.extensions = p.noteExtension image.path := by
  rw [embed] at h
  cases hname : image.path.fileName? with
  | none =>
    rw [hname] at h
    exact absurd h not_ends_throw
  | some name =>
    have hdef : image.name = name := by rw [Image.name, hname, Option.getD_some]
    rw [hname] at h
    dsimp only at h
    by_cases hused : existing.contains (options.idPrefix ++ image.reference) = true
    · rw [if_pos hused] at h
      exact absurd (ends_bind_iff.1 h) (by simp [not_ends_throw])
    rw [if_neg hused] at h
    obtain ⟨u₁, w₁, hwarn, h₁⟩ := ends_bind_iff.1 h
    obtain ⟨u₂, w₂, hcopy, h₂⟩ := ends_bind_iff.1 h₁
    obtain ⟨disk, hdisk, rfl⟩ := ends_change_iff.1 hcopy
    rw [disk_of_ends_warnOverwrite hwarn] at hdisk
    rw [hdef]
    have hlink : link options image =
        Relationship.image (options.idPrefix ++ image.reference) ("media/" ++ name) := by
      rw [link, hdef]
    cases hinsert : Table.insertAfterRoot Relationship.root (link options image).element
        p.relationships with
    | error fault =>
      rw [← hlink, hinsert] at h₂
      exact absurd h₂ not_ends_throw
    | ok relationships =>
      rw [← hlink, hinsert] at h₂
      obtain ⟨rfl, rfl⟩ := ends_pure_iff.1 h₂
      exact ⟨rfl, by simpa using hused, hdisk, rfl, rfl⟩

/-! ## All images -/

/-- Where images lie in a package. -/
def MediaPlace (ws : Workspace) (c : Location) (images : List Image) (k : Location) : Prop :=
  ∃ image ∈ images, k = ws.place c (Image.part image.name)

/-- The two tables do not lie where images do. -/
theorem not_mediaPlace {part : String} (hpart : part = Part.relationships ∨ part = Part.contentTypes)
    {images : List Image} (hnames : ∀ image ∈ images, IsName image.name) {c : Location} :
    ¬ MediaPlace ws c images (ws.place c part) := by
  rintro ⟨image, himage, heq⟩
  rw [Workspace.place, Workspace.place, List.append_cancel_left_eq,
    on_part (hnames image himage)] at heq
  rcases hpart with rfl | rfl
  · rw [on_relationships] at heq
    simp at heq
  · rw [on_contentTypes] at heq
    simp at heq

theorem contentTypes_ne_relationships (ws : Workspace) (c : Location) :
    ws.place c Part.contentTypes ≠ ws.place c Part.relationships := by
  rw [Workspace.place, Workspace.place, Ne, List.append_cancel_left_eq, on_contentTypes,
    on_relationships]
  simp

/-- The files behind the copies of some images: each name belongs to the last image with it, and
    nothing else has changed. -/
structure Copied (ws : Workspace) (images : List Image) (d d' : Disk) : Prop where
  names : ∀ image ∈ images, image.path.fileName? = some image.name
  directories : d.KeepsDirectories d'
  changes : d.Changes (MediaPlace ws d.current images) d'
  media : ∀ name image, Images.lastNamed? images name = some image →
    ∃ content, d.file? (image.path.target d.current) = some content ∧
      d'.file? (ws.place d.current (Image.part name)) = some content

/-- Images that lie outside the workspace. -/
def Outside (ws : Workspace) (c : Location) (images : List Image) : Prop :=
  ∀ image ∈ images, ¬ ws.root.target c <+: image.path.target c

theorem prefix_of_mediaPlace {ws : Workspace} {c : Location} {images : List Image} {k : Location}
    (h : MediaPlace ws c images k) : ws.root.target c <+: k := by
  obtain ⟨image, -, rfl⟩ := h
  exact List.prefix_append _ _

/-- One more copy. The image is read as it was at the start, since it lies outside. -/
theorem Copied.snoc {images : List Image} {image : Image} {d d₁ d₂ : Disk}
    (h : Copied ws images d d₁) (hname : image.path.fileName? = some image.name)
    (outside : ¬ ws.root.target d.current <+: image.path.target d.current)
    (hcopy : d₁.copy image.path (ws.media.join image.name) = .ok d₂) :
    Copied ws (images ++ [image]) d d₂ := by
  have hisName := Path.isName_of_fileName? hname
  have hcurrent := h.changes.current_eq
  have hplace : (ws.media.join image.name).target d₁.current =
      ws.place d.current (Image.part image.name) := by
    rw [hcurrent, target_media_join hisName]
  have hne : (ws.media.join image.name).target d₁.current ≠ image.path.target d₁.current := by
    rw [hplace, hcurrent]
    intro heq
    exact outside (heq ▸ List.prefix_append _ _)
  obtain ⟨content, hcontent, hwrite⟩ := Disk.write_of_copy hcopy hne
  have hsource : d.file? (image.path.target d.current) = some content := by
    have hread := (Disk.content_eq_ok_iff.1 hcontent).2
    rwa [hcurrent, h.changes.file?_eq _ fun hmem => outside (prefix_of_mediaPlace hmem)] at hread
  have hfile := Disk.file?_of_write hwrite
  rw [hplace] at hfile
  refine ⟨?_, ?_, ?_, fun name last hlast => ?_⟩
  · intro image' himage'
    rcases List.mem_append.1 himage' with hmem | hmem
    · exact h.names image' hmem
    · rw [List.mem_singleton.1 hmem, hname]
  · exact fun k hk => (Disk.directory_of_write hwrite k).2 (h.directories k hk)
  · refine (h.changes.mono ?_).trans (.of_write hwrite ?_)
    · rintro k ⟨image', hmem, hk⟩
      exact ⟨image', List.mem_append_left _ hmem, hk⟩
    · exact ⟨image, List.mem_append_right _ List.mem_cons_self, hplace⟩
  · rw [Images.lastNamed?_append] at hlast
    by_cases hsame : image.name = name
    · rw [if_pos hsame, Option.some.injEq] at hlast
      rw [← hlast, ← hsame, hfile, if_pos rfl]
      exact ⟨content, hsource, rfl⟩
    · rw [if_neg hsame] at hlast
      obtain ⟨content', hcontent', hmedia⟩ := h.media name last hlast
      refine ⟨content', hcontent', ?_⟩
      have hlastMem := List.mem_reverse.1 (List.mem_of_find?_eq_some hlast)
      have hlastName : last.name = name := by simpa using List.find?_some hlast
      have hisName' := Path.isName_of_fileName? (h.names last hlastMem)
      rw [hlastName] at hisName'
      rw [hfile, if_neg fun heq => hsame (place_part_inj hisName' hisName heq).symm, hmedia]

/-- The copies behind the work on all images. -/
theorem copied_of_ends_embed {existing : List String} {p q : Progress} {images : List Image}
    (outside : Outside ws w.disk.current images)
    (h : Ends (images.foldlM (embed ws options existing) p) w q w') :
    Copied ws images w.disk w'.disk := by
  refine foldlM_induction (P := fun done _ w₁ => Copied ws done w.disk w₁.disk) ?_ ?_ h
  · intro done image p₁ w₁ q₁ w₂ hmem hdone hstep
    obtain ⟨hname, -, hcopy, -, -⟩ := exists_of_ends_embed hstep
    exact hdone.snoc hname (outside image hmem) hcopy
  · exact ⟨by simp, fun _ hk => hk, .refl _ _,
      fun name image hlast => by simp [Images.lastNamed?] at hlast⟩

/-- The links of some images, the last one first, stand before the relationships that a part
    had, and none of their identifiers was used there. -/
structure Linked (options : EmbedOptions) (existing : List String) (old : List Relationship)
    (images : List Image) (text : Bytes) : Prop where
  rooted : Table.Rooted Relationship.root text
  links : Relationship.readAll text = .ok ((images.map (link options)).reverse ++ old)
  fresh : ∀ image ∈ images, options.idPrefix ++ image.reference ∉ existing

/-- If the identifiers were distinct, they still are. -/
theorem Linked.nodup_ids {t : Images} {old : List Relationship} {text : Bytes}
    (h : Linked options (old.map (·.id)) old t.entries text) (hdistinct : t.Distinct)
    (hold : (old.map (·.id)).Nodup) :
    (((t.entries.map (link options)).reverse ++ old).map (·.id)).Nodup := by
  have hids : (t.entries.map (link options)).map (·.id) =
      (t.entries.map (·.reference)).map (options.idPrefix ++ ·) := by
    rw [List.map_map, List.map_map]
    rfl
  rw [List.map_append, List.map_reverse, hids, List.nodup_append]
  refine ⟨List.nodup_reverse.2 (hdistinct.map fun a b hab => ?_), hold, ?_⟩
  · exact (String.append_right_inj _).1 hab
  · rintro id hid id' hid' rfl
    obtain ⟨reference, hreference, rfl⟩ := List.mem_map.1 (List.mem_reverse.1 hid)
    obtain ⟨image, himage, rfl⟩ := List.mem_map.1 hreference
    exact h.fresh image himage hid'

/-- The relationships behind the work on all images. -/
theorem linked_of_ends_embed {existing : List String} {p q : Progress} {images : List Image}
    {old : List Relationship} (hrooted : Table.Rooted Relationship.root p.relationships)
    (hold : Relationship.readAll p.relationships = .ok old)
    (h : Ends (images.foldlM (embed ws options existing) p) w q w') :
    Linked options existing old images q.relationships := by
  refine foldlM_induction
    (P := fun done p₁ _ => Linked options existing old done p₁.relationships) ?_ ?_ h
  · intro done image p₁ w₁ q₁ w₂ hmem hdone hstep
    obtain ⟨-, hfresh, -, hinsert, -⟩ := exists_of_ends_embed hstep
    obtain ⟨text, htext, hrooted', hlinks⟩ :=
      Relationship.readAll_insertAfterRoot hdone.rooted hdone.links (link options image)
    rw [htext, Except.ok.injEq] at hinsert
    rw [← hinsert]
    refine ⟨hrooted', ?_, fun image' himage' => ?_⟩
    · rw [hlinks, List.map_append, List.reverse_append]
      rfl
    · rcases List.mem_append.1 himage' with hmem' | hmem'
      · exact hdone.fresh image' hmem'
      · rwa [List.mem_singleton.1 hmem']
  · exact ⟨hrooted, by rw [hold]; rfl, by simp⟩

/-- The extension of an image in lower case. -/
def HasExtension (image : Image) (e : String) : Prop :=
  ∃ extension, image.path.extension? = some extension ∧ e = Case.lower extension

/-- The extensions of some images, each once. -/
structure Met (images : List Image) (extensions : List String) : Prop where
  nodup : extensions.Nodup
  mem_iff : ∀ e, e ∈ extensions ↔ ∃ image ∈ images, HasExtension image e

theorem Met.snoc {images : List Image} {p : Progress} (h : Met images p.extensions)
    (image : Image) : Met (images ++ [image]) (p.noteExtension image.path) := by
  have hsplit : ∀ e, (∃ image' ∈ images ++ [image], HasExtension image' e) ↔
      e ∈ p.extensions ∨ HasExtension image e := by
    intro e
    rw [h.mem_iff e]
    simp only [List.mem_append, List.mem_singleton, or_and_right, exists_or, exists_eq_left]
  cases hextension : image.path.extension? with
  | none =>
    have hnot : ∀ e, ¬ HasExtension image e := by
      rintro e ⟨extension, heq, -⟩
      rw [hextension] at heq
      cases heq
    rw [Progress.noteExtension, hextension]
    exact ⟨h.nodup, fun e => by rw [hsplit, or_iff_left (hnot e)]⟩
  | some extension =>
    have hthis : ∀ e, HasExtension image e ↔ e = Case.lower extension := by
      intro e
      rw [HasExtension, hextension]
      simp
    rw [Progress.noteExtension, hextension]
    dsimp only
    split
    · next hmem =>
      refine ⟨h.nodup, fun e => ?_⟩
      rw [hsplit, hthis, or_iff_left_of_imp]
      rintro rfl
      simpa using hmem
    · next hmem =>
      refine ⟨?_, fun e => ?_⟩
      · rw [List.nodup_append]
        refine ⟨h.nodup, List.nodup_singleton _, ?_⟩
        rintro e he e' he' rfl
        rw [List.mem_singleton.1 he'] at he
        exact hmem (by simpa using he)
      · rw [hsplit, hthis, List.mem_append, List.mem_singleton]

theorem isName_relationships : ∀ name ∈ Split.on '/' Part.relationships, IsName name := by
  decide

theorem isName_contentTypes : ∀ name ∈ Split.on '/' Part.contentTypes, IsName name := by
  decide

theorem target_relationships (ws : Workspace) (c : Location) :
    ws.relationships.target c = ws.place c Part.relationships :=
  Workspace.target_pathOf isName_relationships ws c

theorem target_contentTypes (ws : Workspace) (c : Location) :
    ws.contentTypes.target c = ws.place c Part.contentTypes :=
  Workspace.target_pathOf isName_contentTypes ws c

theorem contentTypes_eq (ws : Workspace) : ws.contentTypes = ws.root.join "[Content_Types].xml" := by
  rw [Workspace.contentTypes, Workspace.pathOf_eq isName_contentTypes, on_contentTypes]
  rfl

/-- The last character of the path of the content types. -/
theorem getLast?_contentTypes (ws : Workspace) :
    ws.contentTypes.text.toList.getLast? = some 'l' := by
  obtain ⟨front, hfront⟩ := Path.exists_text_join ws.root "[Content_Types].xml"
  rw [contentTypes_eq, hfront]
  simp

/-- A relationships part is read, or started where there is none. -/
theorem exists_of_ends_openRelationships {text : Bytes}
    (h : Ends (openRelationships ws) w text w') :
    (w.disk.readText ws.relationships = .ok text ∧ w'.disk = w.disk) ∨
      (w.disk.readText ws.relationships = .error (.system .notFound) ∧
        text = Relationship.emptyPart ∧ ∃ places, Disk.Makes places w.disk w'.disk) := by
  rw [openRelationships] at h
  obtain ⟨read, w₁, hask, h₁⟩ := ends_bind_iff.1 h
  obtain ⟨rfl, rfl⟩ := ends_ask_iff.1 hask
  cases hread : w₁.disk.readText ws.relationships with
  | ok text' =>
    rw [hread] at h₁
    obtain ⟨rfl, rfl⟩ := ends_pure_iff.1 h₁
    exact Or.inl ⟨rfl, rfl⟩
  | error fault =>
    rw [hread] at h₁
    split at h₁
    · next heq => cases heq
    · next heq =>
      refine Or.inr ?_
      cases heq
      obtain ⟨u, w₂, hlog, h₂⟩ := ends_bind_iff.1 h₁
      obtain rfl := ends_log_iff.1 hlog
      cases hparent : ws.relationships.parent? with
      | none =>
        rw [hparent] at h₂
        obtain ⟨htext, rfl⟩ := ends_pure_iff.1 h₂
        exact ⟨rfl, htext, fun _ => False, .refl⟩
      | some parent =>
        rw [hparent] at h₂
        obtain ⟨u', w₃, hcreate, h₃⟩ := ends_bind_iff.1 h₂
        obtain ⟨-, rfl⟩ := ends_createDirectories_iff.1 hcreate
        obtain ⟨htext, rfl⟩ := ends_pure_iff.1 h₃
        exact ⟨rfl, htext, _, Disk.makes_createDirectories _ _⟩
    · exact absurd h₁ not_ends_throw

/-- The extensions that are to be declared. -/
def needed (declared extensions : List String) : List String :=
  extensions.filter fun e => !declared.contains e && (ContentTypes.ofExtension? e).isSome

theorem needed_cons (declared : List String) (e : String) (extensions : List String) :
    needed declared (e :: extensions) = needed declared [e] ++ needed declared extensions := by
  rw [needed, needed, needed, ← List.filter_append, List.singleton_append]

theorem needed_singleton (declared : List String) (e : String) : needed declared [e] =
    if !declared.contains e && (ContentTypes.ofExtension? e).isSome then [e] else [] := by
  rw [needed, List.filter_cons]
  rfl

/-- One extension: nothing is done, or its type is declared. -/
theorem cases_of_ends_declareAll {declared extensions : List String} {e : String} {n : Nat}
    {text : Bytes} {result : Nat × Bytes}
    (h : Ends (declareAll declared (e :: extensions) (n, text)) w result w') :
    (needed declared [e] = [] ∧ ∃ w₁ : World, w₁.disk = w.disk ∧
        Ends (declareAll declared extensions (n, text)) w₁ result w') ∨
      (needed declared [e] = [e] ∧ ∃ type text₁,
        Table.insertAfterRoot ContentTypes.root (ContentTypes.element e type) text = .ok text₁ ∧
        Ends (declareAll declared extensions (n + 1, text₁)) w result w') := by
  rw [declareAll] at h
  rw [needed_singleton]
  by_cases hdeclared : declared.contains e = true
  · rw [if_pos hdeclared] at h
    rw [hdeclared]
    exact Or.inl ⟨rfl, w, rfl, h⟩
  · rw [if_neg hdeclared] at h
    rw [Bool.not_eq_true] at hdeclared
    rw [hdeclared]
    cases htype : ContentTypes.ofExtension? e with
    | none =>
      rw [htype] at h
      obtain ⟨u, w₁, hlog, h₁⟩ := ends_bind_iff.1 h
      exact Or.inl ⟨rfl, w₁, by rw [ends_log_iff.1 hlog], h₁⟩
    | some type =>
      rw [htype] at h
      dsimp only at h
      cases hinsert : Table.insertAfterRoot ContentTypes.root (ContentTypes.element e type) text with
      | error fault =>
        rw [hinsert] at h
        exact absurd h not_ends_throw
      | ok text₁ =>
        rw [hinsert] at h
        exact Or.inr ⟨rfl, type, text₁, hinsert, h⟩

/-- Declaring types changes the text only, and counts the types that are declared. -/
theorem count_of_ends_declareAll {declared extensions : List String} {n n' : Nat}
    {text text' : Bytes} (h : Ends (declareAll declared extensions (n, text)) w (n', text') w') :
    w'.disk = w.disk ∧ n' = n + (needed declared extensions).length := by
  induction extensions generalizing n text w with
  | nil =>
    obtain ⟨heq, rfl⟩ := ends_pure_iff.1 h
    exact ⟨rfl, congrArg Prod.fst heq⟩
  | cons e extensions ih =>
    rw [needed_cons, List.length_append]
    rcases cases_of_ends_declareAll h with ⟨hneeded, w₁, hdisk, h₁⟩ | ⟨hneeded, _, _, -, h₁⟩
    · obtain ⟨hdisk₁, hcount⟩ := ih h₁
      exact ⟨hdisk₁.trans hdisk, by rw [hcount, hneeded, List.length_nil, Nat.zero_add]⟩
    · obtain ⟨hdisk₁, hcount⟩ := ih h₁
      refine ⟨hdisk₁, ?_⟩
      rw [hcount, hneeded, List.length_singleton]
      omega

/-- The content types part is missing, or its types are declared in it. It is written only if
    there is one to declare. -/
theorem exists_of_ends_declareTypes {extensions : List String} {u : Unit}
    (h : Ends (declareTypes ws extensions) w u w') :
    (w.disk.readText ws.contentTypes = .error (.system .notFound) ∧ w'.disk = w.disk) ∨
      ∃ text declared n text' w₁, w.disk.readText ws.contentTypes = .ok text ∧
        ContentTypes.declared text = .ok declared ∧
        Ends (declareAll declared extensions (0, text)) w (n, text') w₁ ∧
        (if 0 < n then w.disk.write ws.contentTypes (.plain text') = .ok w'.disk
          else w'.disk = w.disk) := by
  rw [declareTypes] at h
  obtain ⟨read, w₁, hask, h₁⟩ := ends_bind_iff.1 h
  obtain ⟨rfl, rfl⟩ := ends_ask_iff.1 hask
  cases hread : w₁.disk.readText ws.contentTypes with
  | error fault =>
    rw [hread] at h₁
    split at h₁
    · next heq =>
      cases heq
      rw [ends_log_iff.1 h₁]
      exact Or.inl ⟨rfl, rfl⟩
    · exact absurd h₁ not_ends_throw
    · next heq => cases heq
  | ok text =>
    rw [hread] at h₁
    dsimp only at h₁
    cases hdeclared : ContentTypes.declared text with
    | error fault =>
      rw [hdeclared] at h₁
      exact absurd h₁ not_ends_throw
    | ok declared =>
      rw [hdeclared] at h₁
      obtain ⟨result, w₂, hall, h₂⟩ := ends_bind_iff.1 h₁
      obtain ⟨n, text'⟩ := result
      refine Or.inr ⟨text, declared, n, text', w₂, rfl, hdeclared, hall, ?_⟩
      have hdisk := (count_of_ends_declareAll hall).1
      dsimp only at h₂
      split at h₂
      · next hn =>
        obtain ⟨disk, hwrite, rfl⟩ := ends_write_iff.1 h₂
        rw [if_pos hn, ← hdisk]
        exact hwrite
      · next hn =>
        obtain ⟨-, rfl⟩ := ends_pure_iff.1 h₂
        rw [if_neg hn, hdisk]

/-- Once the relationships are written, the way to the content types is there. -/
theorem directory_of_way_contentTypes {d d' : Disk} {content : Content}
    (h : d.write ws.relationships content = .ok d') :
    ∀ j ∈ ws.contentTypes.way d'.current, d'.node? j = some .directory := by
  intro j hj
  rw [Disk.directory_of_write h]
  refine Disk.node?_of_mem_way (Disk.exists_of_write h).1
    ((Workspace.mem_way_pathOf_iff isName_relationships ws _ _).2 ?_)
  rw [Disk.current_of_write h, Workspace.contentTypes,
    Workspace.mem_way_pathOf_iff isName_contentTypes, on_contentTypes, Disk.passed, Disk.passed,
    List.mem_singleton] at hj
  refine hj.imp_right fun hroot => ?_
  rw [hroot, on_relationships]
  exact List.mem_cons_self

/-- What becomes of a content types part when the types of some extensions are declared. -/
inductive Retyped (options : EmbedOptions) (extensions : List String) :
    Option Bytes → Option Bytes → Prop
  | missing : Retyped options extensions none none
  | same (h : ¬ options.declareTypes = true) (part : Option Bytes) :
      Retyped options extensions part part
  | declared {text text' : Bytes} {declared : List String} {n : Nat} {w w' : World}
      (h : options.declareTypes = true) (hdeclared : ContentTypes.declared text = .ok declared)
      (hall : Ends (declareAll declared extensions (0, text)) w (n, text') w') :
      Retyped options extensions (some text) (some (if 0 < n then text' else text))

end Embedding

end DocxTemplate
