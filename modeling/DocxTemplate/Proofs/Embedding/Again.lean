import DocxTemplate.Proofs.Disk.Below
import DocxTemplate.Proofs.Embedding.Failure

/-! # Embedding again

    What embedding makes of a package depends on the table of images, on the two tables of the
    package and on the files of the images. So an attempt that succeeds comes to the same whatever
    was attempted before.

    * `Embedding.extensions_agree`, `Embedding.relationships_agree`: two walks along one table.
    * `Embedding.not_fails_of_ends`: types that can be declared once can be declared again.
    * `Parts.text_eq_part?`: the relationships that are extended are those of the package.
    * `Images.Blocked`, `Images.alters_of_fails`: what an attempt that fails leaves.
    * `Images.Embeds`, `Embeds.bytes_agree`: what one that succeeds comes to.
-/

namespace DocxTemplate

open Path (IsName)
open Job

variable {w w' v v' : World} {ws : Workspace} {options : EmbedOptions}

/-! ## Ways into a workspace -/

namespace Embedding

/-- Where the directory of the images is there, so is the way to that of the relationships. -/
theorem visits_media {c k : Location} (hk : k ∈ ws.relationships.way c)
    (hother : k ≠ ws.root.target c ++ ["word", "_rels"]) : ws.media.Visits c k := by
  have hmove : Disk.move (ws.root.target c) "word" = ws.root.target c ++ ["word"] :=
    IsName.move_eq (by decide) _
  have hmove' : Disk.move (ws.root.target c ++ ["word"]) "_rels" =
      ws.root.target c ++ ["word", "_rels"] := by
    rw [IsName.move_eq (by decide), List.append_assoc]
    rfl
  refine ⟨?_, Or.inr ((Workspace.mem_way_pathOf_iff isName_media ws c k).2 ?_)⟩
  · have hpath : ws.media = (ws.root.join "word").join "media" := by
      rw [Workspace.media, Workspace.pathOf_eq isName_media, on_media]
      rfl
    obtain ⟨front, hfront⟩ := Path.exists_text_join (ws.root.join "word") "media"
    intro hempty
    rw [hpath] at hempty
    rw [hempty] at hfront
    exact absurd (List.append_eq_nil_iff.1 hfront.symm).2 (by decide)
  · rw [Workspace.relationships, Workspace.mem_way_pathOf_iff isName_relationships,
      on_relationships] at hk
    refine hk.imp_right fun hpassed => ?_
    simp only [Disk.passed, hmove, hmove', List.mem_cons, List.not_mem_nil, or_false] at hpassed
    rw [on_media]
    simp only [Disk.passed, hmove, List.mem_cons, List.not_mem_nil, or_false]
    rcases hpassed with h | h | h
    · exact Or.inl h
    · exact Or.inr h
    · exact absurd h hother

/-! ## Two runs -/

section Agree

variable {existing existing' : List String} {images : List Image} {p p' q q' : Progress}
  (h : Ends (images.foldlM (embed ws options existing) p) w q w')
  (h' : Ends (images.foldlM (embed ws options existing') p') v q' v')
include h h'

/-- The extensions that are met depend on the table only. -/
theorem extensions_agree (hp : p.extensions = p'.extensions) : q.extensions = q'.extensions := by
  refine foldlM_agree (R := fun p p' => p.extensions = p'.extensions) ?_ hp h h'
  intro image p p' q q' w₁ w₂ v₁ v₂ hp hstep hstep'
  obtain ⟨-, -, -, -, hq⟩ := exists_of_ends_embed hstep
  obtain ⟨-, -, -, -, hq'⟩ := exists_of_ends_embed hstep'
  rw [hq, hq', Progress.noteExtension, Progress.noteExtension, hp]

/-- The relationships that are made depend on the table and the text they are put into. -/
theorem relationships_agree (hp : p.relationships = p'.relationships) :
    q.relationships = q'.relationships := by
  refine foldlM_agree (R := fun p p' => p.relationships = p'.relationships) ?_ hp h h'
  intro image p p' q q' w₁ w₂ v₁ v₂ hp hstep hstep'
  obtain ⟨-, -, -, hq, -⟩ := exists_of_ends_embed hstep
  obtain ⟨-, -, -, hq', -⟩ := exists_of_ends_embed hstep'
  rw [hp, hq', Except.ok.injEq] at hq
  exact hq.symm

end Agree

/-- What is declared depends on the text only. -/
theorem fst_outcome_declareAll (declared extensions : List String) (state : Nat × Bytes)
    (w v : World) : ((declareAll declared extensions state).outcome w).1 =
      ((declareAll declared extensions state).outcome v).1 := by
  induction extensions generalizing state w v with
  | nil => rfl
  | cons e rest ih =>
    obtain ⟨n, text⟩ := state
    rw [declareAll]
    split
    · exact ih _ _ _
    · split
      · exact ih _ _ _
      · split
        · rfl
        · exact ih _ _ _

/-- It can become one thing only. -/
theorem Retyped.unique {extensions : List String} {before after after' : Option Bytes}
    (h : Retyped options extensions before after) (h' : Retyped options extensions before after') :
    after = after' := by
  cases h with
  | missing =>
    cases h' with
    | missing => rfl
    | same => rfl
  | same hnot =>
    cases h' with
    | missing => rfl
    | same => rfl
    | declared hdeclare => exact absurd hdeclare hnot
  | @declared text text₁ declared n w w₁ hdeclare hdeclared hall =>
    cases h' with
    | same hnot => exact absurd hdeclare hnot
    | @declared _ text₂ declared' m v v₁ _ hdeclared' hall' =>
      rw [hdeclared, Except.ok.injEq] at hdeclared'
      subst hdeclared'
      have hsame := fst_outcome_declareAll declared extensions (0, text) w v
      rw [hall, hall', Except.ok.injEq, Prod.mk.injEq] at hsame
      rw [hsame.1, hsame.2]

/-- Where types can be declared, they can be declared elsewhere in the same part. -/
theorem not_fails_of_ends {extensions : List String} {u : Unit} {e : Error}
    (hends : Ends (declareTypes ws extensions) w u w')
    (hread : v.disk.readText ws.contentTypes ≠ .error (.system .notFound) →
      w.disk.readText ws.contentTypes = v.disk.readText ws.contentTypes) :
    ¬ Fails (declareTypes ws extensions) v e v' := by
  intro hfails
  have hslash : ws.contentTypes.endsInSlash = false := by
    rw [Path.endsInSlash, getLast?_contentTypes]
    rfl
  rw [declareTypes] at hfails
  rcases fails_bind_iff.1 hfails with hask | ⟨read, v₁, hask, h₁⟩
  · exact not_fails_ask hask
  obtain ⟨rfl, rfl⟩ := ends_ask_iff.1 hask
  by_cases hmissing : v₁.disk.readText ws.contentTypes = .error (.system .notFound)
  · rw [hmissing] at h₁
    exact not_fails_log h₁
  have hread' := hread hmissing
  rcases exists_of_ends_declareTypes hends with ⟨hmissing', -⟩ |
    ⟨text, declared, n, text', w₁, hok, hdeclared, hall, -⟩
  · exact hmissing (hread'.symm.trans hmissing')
  · rw [hread'] at hok
    rw [hok] at h₁
    dsimp only at h₁
    rw [hdeclared] at h₁
    dsimp only at h₁
    have hsame := fst_outcome_declareAll declared extensions (0, text) w v₁
    rw [hall] at hsame
    rcases fails_bind_iff.1 h₁ with hfailed | ⟨⟨m, text''⟩, v₂, hall', hwrite⟩
    · rw [hfailed] at hsame
      cases hsame
    · have hdisk := (count_of_ends_declareAll hall').1
      dsimp only at hwrite
      split at hwrite
      · obtain ⟨fault, hfault, -⟩ := fails_write_iff.1 hwrite
        obtain ⟨d', hd'⟩ := Disk.exists_write_of_readText hok hslash (.plain text'')
        rw [hdisk, hd'] at hfault
        cases hfault
      · exact not_fails_pure hwrite

end Embedding

/-! ## What a successful run starts from -/

namespace Images.Parts

open Embedding

variable {t : Images} {d d' : Disk} (parts : Parts t ws options d d')
include parts

/-- The relationships that are extended are those that the package has, if their directory is there
    when they are. -/
theorem text_eq_part? (hparent : ws.part? d Part.relationships ≠ none →
      d.node? (ws.root.target d.current ++ ["word", "_rels"]) = some .directory) :
    parts.text = (ws.part? d Part.relationships).getD Relationship.emptyPart := by
  obtain ⟨d₁, ⟨places, hmakes⟩, hmedia, hsource⟩ := parts.source
  have hpart : ws.part? d₁ Part.relationships = ws.part? d Part.relationships := by
    rw [Workspace.part?, Workspace.part?, hmakes.current_eq, hmakes.file?_eq]
  rcases hsource with hok | ⟨hmissing, htext⟩
  · rw [← hpart, Workspace.part?_of_readText isName_relationships hok, Option.getD_some]
  · have hnonempty : ws.relationships.text ≠ "" :=
      (Disk.locate_eq_ok_iff.1 (Disk.exists_of_write parts.relationships).1).1.nonempty
    have hnone : ws.part? d Part.relationships = none := by
      by_contra hsome
      obtain ⟨j, hj, hnode⟩ := Disk.exists_missing_of_readText hnonempty hmissing
      rcases hj with rfl | hj
      · rw [← hpart, Workspace.part?, Disk.file?, ← target_relationships, hnode] at hsome
        exact hsome rfl
      · rw [hmakes.current_eq] at hj
        have hdir : d₁.node? j = some .directory := by
          by_cases hrels : j = ws.root.target d.current ++ ["word", "_rels"]
          · rw [hrels]
            exact hmakes.node?_of_some (hparent hsome)
          · exact hmedia j (visits_media hj hrels)
        rw [hnode] at hdir
        cases hdir
    rw [htext, hnone, Option.getD_none]

end Images.Parts

/-! ## Workspaces that stay where they are -/

/-- A workspace whose root names the place `l` from everywhere. -/
structure Workspace.Fixed (ws : Workspace) (l : Location) : Prop where
  isAbsolute : ws.root.isAbsolute = true
  names : ∀ c, Disk.Names ws.root c l

namespace Workspace.Fixed

variable {l : Location} (fixed : ws.Fixed l)
include fixed

theorem place_eq (c : Location) (part : String) : ws.place c part = ws.place [] part := by
  rw [place, place, (fixed.names c).target_eq, (fixed.names []).target_eq]

theorem prefix_place (part : String) : l <+: ws.place [] part := by
  rw [place, (fixed.names []).target_eq]
  exact List.prefix_append _ _

theorem part?_eq (d : Disk) (part : String) :
    ws.part? d part = (d.file? (ws.place [] part)).map Content.bytes := by
  rw [part?, fixed.place_eq]

theorem mediaPlace_iff (c : Location) (images : List Image) (k : Location) :
    Embedding.MediaPlace ws c images k ↔ Embedding.MediaPlace ws [] images k := by
  simp only [Embedding.MediaPlace, fixed.place_eq c]

end Workspace.Fixed

namespace Images

open Embedding

variable {t : Images} {l : Location} {bytes : Image → Bytes} {d d₀ d₁ d₂ : Disk}

/-! ## Tables that cannot be embedded -/

theorem exists_of_ends_prepare {done : Progress} (h : Ends (t.prepare ws options) w done w') :
    ∃ text existing w₁, Ends (t.entries.foldlM (embed ws options existing)
      { relationships := text }) w₁ done w' := by
  rw [prepare] at h
  obtain ⟨u, w₁, -, h₁⟩ := ends_bind_iff.1 h
  obtain ⟨text, w₂, -, h₂⟩ := ends_bind_iff.1 h₁
  split at h₂
  · exact absurd h₂ not_ends_throw
  · exact ⟨text, _, w₂, h₂⟩

/-- The images cannot be embedded any more, unless the content types part changes. -/
def Blocked (t : Images) (ws : Workspace) (options : EmbedOptions) (l : Location) (d : Disk) : Prop :=
  ∀ w n w', Outside ws w.disk.current t.entries →
    Disk.Alters l (· ≠ ws.place [] Part.contentTypes) d w.disk →
    ¬ Ends (t.embedAll ws options) w n w'

theorem Blocked.alters (h : t.Blocked ws options l d)
    (halters : Disk.Alters l (· ≠ ws.place [] Part.contentTypes) d d₁) :
    t.Blocked ws options l d₁ :=
  fun w n w' outside hw => h w n w' outside (halters.trans hw)

/-- If the types cannot be declared, they never can. -/
theorem blocked_of_fails (fixed : ws.Fixed l) (hdeclare : options.declareTypes = true)
    (hne : t.entries ≠ []) {done : Progress} {e : Error} {w₁ w₂ : World}
    (hprepare : Ends (t.prepare ws options) w done w₁)
    (hwrite : w₁.disk.write ws.relationships (.plain done.relationships) = .ok w₂.disk)
    (hfails : Fails (declareTypes ws done.extensions) w₂ e w') :
    t.Blocked ws options l w'.disk := by
  intro v n v' outside halters hends
  obtain ⟨-, ⟨parts⟩⟩ := parts_of_ends hne hends
  have htypes := parts.types
  rw [if_pos hdeclare] at htypes
  obtain ⟨u, v₁, hagain, -⟩ := htypes
  obtain ⟨text, existing, w₀, hfold⟩ := exists_of_ends_prepare hprepare
  rw [← extensions_agree hfold parts.images rfl] at hagain
  have hplace : ws.contentTypes.target w₂.disk.current = ws.place [] Part.contentTypes := by
    rw [target_contentTypes, fixed.place_eq]
  have hdisk := (aboutTypes_of_fails_declareTypes hfails).1
  refine not_fails_of_ends hagain (fun hfound => ?_) hfails
  refine Disk.readText_of_kept
    ((Workspace.isAbsolute_pathOf isName_contentTypes ws).trans fixed.isAbsolute) (directory_of_way_contentTypes hwrite) (directory_of_way_contentTypes parts.relationships)
    ?_ (fun hdir => ?_) hfound
  · have hwritten := (parts.changes_written outside).file?_eq (ws.place [] Part.contentTypes) ?_
    · rw [hplace, hwritten, halters.file?_eq _ (fixed.prefix_place _) fun hne => hne rfl, hdisk]
    · rw [← fixed.place_eq v.disk.current]
      rintro (heq | hmedia)
      · exact contentTypes_ne_relationships ws _ heq
      · exact not_mediaPlace (Or.inr rfl) (parts.isName_images outside) hmedia
  · rw [hplace] at hdir ⊢
    refine parts.keepsDirectories outside _ (halters.directory _ (fixed.prefix_place _) ?_)
    rwa [hdisk]

/-- A failed embedding changes the places of images only, or makes the table one that cannot be
    embedded any more. The content types part stays as it was. -/
theorem alters_of_fails (fixed : ws.Fixed l) {e : Error} (hdirs : w.disk.KeepsDirectories w'.disk)
    (h : Fails (t.embedAll ws options) w e w') :
    Disk.Alters l (· ≠ ws.place [] Part.contentTypes) w.disk w'.disk ∧
      (Disk.Alters l (MediaPlace ws [] (named t.entries)) w.disk w'.disk ∨
        t.Blocked ws options l w'.disk) := by
  have hne : t.entries ≠ [] := by
    intro hnil
    rw [embedAll, if_pos (by simpa using hnil)] at h
    exact not_fails_pure h
  have hmedia : ∀ k, MediaPlace ws w.disk.current (named t.entries) k →
      k ≠ ws.place [] Part.contentTypes := by
    rintro k hk rfl
    rw [← fixed.place_eq w.disk.current] at hk
    exact not_mediaPlace (Or.inr rfl) (isName_named t.entries) hk
  have hcopies : Copies ws t.entries w w' →
      Disk.Alters l (· ≠ ws.place [] Part.contentTypes) w.disk w'.disk ∧
        (Disk.Alters l (MediaPlace ws [] (named t.entries)) w.disk w'.disk ∨
          t.Blocked ws options l w'.disk) := fun hcopies =>
    ⟨.of_changes (hcopies.mono hmedia) hdirs, Or.inl (.of_changes
      (hcopies.mono fun k => (fixed.mediaPlace_iff _ _ k).1) hdirs)⟩
  rw [embedAll_eq hne] at h
  rcases fails_bind_iff.1 h with hprepare | ⟨done, w₁, hprepare, hpublish⟩
  · exact hcopies ((keepsCopies_prepare t).of_fails hprepare).1
  · have hcopied := (keepsCopies_prepare t).of_ends hprepare
    rcases fails_publish_cases hpublish with ⟨-, rfl⟩ | ⟨hdeclare, w₂, hwrite, hfails⟩
    · exact hcopies hcopied
    · have hdisk := (aboutTypes_of_fails_declareTypes hfails).1
      refine ⟨.of_changes ((hcopied.mono hmedia).trans ?_) hdirs,
        Or.inr (blocked_of_fails fixed hdeclare hne hprepare hwrite hfails)⟩
      rw [hdisk]
      refine .of_write hwrite ?_
      rw [target_relationships, fixed.place_eq]
      exact (contentTypes_ne_relationships ws _).symm

/-! ## Tables that are embedded -/

/-- The files of images that exist have certain bytes. -/
def Reads (bytes : Image → Bytes) (images : List Image) (d : Disk) : Prop :=
  ∀ image ∈ images, ∀ content, d.file? (image.path.target d.current) = some content →
    content.bytes = bytes image

/-- The directory of a relationships part is there if the part is. -/
def Homed (ws : Workspace) (d : Disk) : Prop :=
  ws.part? d Part.relationships ≠ none →
    d.node? (ws.root.target d.current ++ ["word", "_rels"]) = some .directory

/-- From a disk with the files of `d₀` below a location, but for copies of images, embedding gives
    the disk `d₁`. -/
inductive Embeds (bytes : Image → Bytes) (t : Images) (ws : Workspace) (options : EmbedOptions)
    (l : Location) (d₀ d₁ : Disk) : Prop
  | intro {w w' : World} {n : Nat}
      (before : Disk.Alters l (MediaPlace ws [] (named t.entries)) d₀ w.disk)
      (outside : Outside ws w.disk.current t.entries) (reads : Reads bytes t.entries w.disk)
      (ends : Ends (t.embedAll ws options) w n w') (after : w'.disk = d₁)

theorem exists_lastNamed? {images : List Image} {image : Image} (h : image ∈ images) :
    ∃ last, lastNamed? images image.name = some last :=
  Option.isSome_iff_exists.1
    (List.find?_isSome.2 ⟨image, List.mem_reverse.2 h, beq_self_eq_true _⟩)

theorem part?_of_alters (fixed : ws.Fixed l) {part : String}
    (hpart : part = Part.relationships ∨ part = Part.contentTypes)
    (h : Disk.Alters l (MediaPlace ws [] (named t.entries)) d₀ d) :
    ws.part? d part = ws.part? d₀ part := by
  rw [fixed.part?_eq, fixed.part?_eq, h.file?_eq _ (fixed.prefix_place _)
    (not_mediaPlace hpart (isName_named t.entries))]

/-- The relationships that are extended are those that the package had at first. -/
theorem Parts.text_of_alters (parts : Parts t ws options d d₁) (fixed : ws.Fixed l)
    (hhomed : Homed ws d₀) (h : Disk.Alters l (MediaPlace ws [] (named t.entries)) d₀ d) :
    parts.text = (ws.part? d₀ Part.relationships).getD Relationship.emptyPart := by
  have htarget : ∀ c, ws.root.target c = l := fun c => (fixed.names c).target_eq
  have hpart := part?_of_alters fixed (Or.inl rfl) h
  rw [← hpart]
  refine parts.text_eq_part? fun hsome => ?_
  rw [hpart] at hsome
  have hdir := hhomed hsome
  rw [htarget] at hdir ⊢
  exact h.directory _ (List.prefix_append _ _) hdir

theorem Parts.relationships_end (parts : Parts t ws options d d₁) (fixed : ws.Fixed l)
    (outside : Outside ws d.current t.entries) :
    d₁.file? (ws.place [] Part.relationships) = some (.plain parts.done.relationships) := by
  rw [← fixed.place_eq d.current,
    parts.file?_end outside (contentTypes_ne_relationships ws _).symm, if_pos rfl]

namespace Embeds

theorem tidy (h : Embeds bytes t ws options l d₀ d₁) (hd : d₀.Tidy l) : d₁.Tidy l := by
  obtain ⟨before, outside, -, hends, rfl⟩ := h
  exact (changes_of_ends_embedAll outside hends).tidy l (before.tidy hd)

/-- A table with images can be embedded in parts. -/
theorem exists_parts (h : Embeds bytes t ws options l d₀ d₁) (hne : t.entries ≠ []) :
    ∃ d, Disk.Alters l (MediaPlace ws [] (named t.entries)) d₀ d ∧
      Outside ws d.current t.entries ∧ Nonempty (Parts t ws options d d₁) := by
  obtain ⟨before, outside, -, hends, rfl⟩ := h
  exact ⟨_, before, outside, (parts_of_ends hne hends).2⟩

/-- Each name has the bytes of the last image with it. -/
theorem media_bytes (h : Embeds bytes t ws options l d₀ d₁) (fixed : ws.Fixed l) {name : String}
    {image : Image} (hlast : lastNamed? t.entries name = some image) :
    (d₁.file? (ws.place [] (Image.part name))).map Content.bytes = some (bytes image) := by
  obtain ⟨before, outside, reads, hends, rfl⟩ := h
  have himage := List.mem_reverse.1 (List.mem_of_find?_eq_some hlast)
  obtain ⟨-, ⟨parts⟩⟩ := parts_of_ends (List.ne_nil_of_mem himage) hends
  obtain ⟨content, hsource, hfile⟩ := parts.media_end outside hlast
  rw [fixed.place_eq] at hfile
  rw [hfile, Option.map_some, reads image himage content hsource]

/-- All but the images and the two tables is as it was. -/
theorem file?_eq (h : Embeds bytes t ws options l d₀ d₁) (fixed : ws.Fixed l) {k : Location}
    (hk : l <+: k) (hrelationships : k ≠ ws.place [] Part.relationships)
    (htypes : k ≠ ws.place [] Part.contentTypes) (hmedia : ¬ MediaPlace ws [] t.entries k) :
    d₁.file? k = d₀.file? k := by
  obtain ⟨before, outside, -, hends, rfl⟩ := h
  have hbefore := before.file?_eq k hk fun hnamed => hmedia <| by
    obtain ⟨image, himage, heq⟩ := hnamed
    exact ⟨image, List.mem_of_mem_filter himage, heq⟩
  rw [← hbefore]
  refine (changes_of_ends_embedAll outside hends).file?_eq k fun htouches => ?_
  obtain ⟨-, htouches⟩ := htouches
  rw [Touches, fixed.place_eq _ Part.relationships, fixed.place_eq _ Part.contentTypes,
    fixed.mediaPlace_iff] at htouches
  rcases htouches with heq | ⟨-, -, heq⟩ | himage
  · exact hrelationships heq
  · exact htypes heq
  · exact hmedia himage

/-- Without images nothing changes. -/
theorem file?_of_nil (h : Embeds bytes t ws options l d₀ d₁) (hnil : t.entries = [])
    {k : Location} (hk : l <+: k) : d₁.file? k = d₀.file? k := by
  obtain ⟨before, outside, -, hends, rfl⟩ := h
  have hchanges := (changes_of_ends_embedAll outside hends).file?_eq k fun h => h.1 hnil
  rw [hchanges]
  refine before.file?_eq k hk ?_
  rintro ⟨image, himage, -⟩
  rw [hnil] at himage
  cases himage

/-- Whatever was attempted before, embedding comes to the same. -/
theorem bytes_agree (fixed : ws.Fixed l) (hhomed : Homed ws d₀)
    (h₁ : Embeds bytes t ws options l d₀ d₁) (h₂ : Embeds bytes t ws options l d₀ d₂)
    {k : Location} (hk : l <+: k) :
    (d₁.file? k).map Content.bytes = (d₂.file? k).map Content.bytes := by
  by_cases hnil : t.entries = []
  · rw [h₁.file?_of_nil hnil hk, h₂.file?_of_nil hnil hk]
  by_cases hmedia : MediaPlace ws [] t.entries k
  · obtain ⟨image, himage, rfl⟩ := hmedia
    obtain ⟨last, hlast⟩ := exists_lastNamed? himage
    rw [h₁.media_bytes fixed hlast, h₂.media_bytes fixed hlast]
  obtain ⟨d, before, outside, ⟨parts⟩⟩ := h₁.exists_parts hnil
  obtain ⟨d', before', outside', ⟨parts'⟩⟩ := h₂.exists_parts hnil
  by_cases hrelationships : k = ws.place [] Part.relationships
  · have htext : parts.text = parts'.text := by
      rw [parts.text_of_alters fixed hhomed before, parts'.text_of_alters fixed hhomed before']
    rw [hrelationships, parts.relationships_end fixed outside,
      parts'.relationships_end fixed outside',
      relationships_agree parts.images parts'.images htext]
  by_cases htypes : k = ws.place [] Part.contentTypes
  · have hretyped := parts.retyped outside
    have hretyped' := parts'.retyped outside'
    rw [part?_of_alters fixed (Or.inr rfl) before,
      extensions_agree parts.images parts'.images rfl] at hretyped
    rw [part?_of_alters fixed (Or.inr rfl) before'] at hretyped'
    rw [htypes, ← fixed.part?_eq, ← fixed.part?_eq]
    exact hretyped.unique hretyped'
  · rw [h₁.file?_eq fixed hk hrelationships htypes hmedia,
      h₂.file?_eq fixed hk hrelationships htypes hmedia]

/-- Each image is linked once, before the relationships that the package had at first. -/
theorem exists_links (h : Embeds bytes t ws options l d₀ d₁) (fixed : ws.Fixed l)
    (hhomed : Homed ws d₀) (hne : t.entries ≠ []) (hdistinct : t.Distinct)
    (hrooted : ∀ text, ws.part? d₀ Part.relationships = some text →
      Table.Rooted Relationship.root text) :
    ∃ old text, ws.links d₀ = .ok old ∧ ws.part? d₁ Part.relationships = some text ∧
      Relationship.readAll text = .ok ((t.entries.map (link options)).reverse ++ old) ∧
      ((old.map (·.id)).Nodup →
        (((t.entries.map (link options)).reverse ++ old).map (·.id)).Nodup) := by
  obtain ⟨d, before, outside, ⟨parts⟩⟩ := h.exists_parts hne
  have htext := parts.text_of_alters fixed hhomed before
  have hold : Table.Rooted Relationship.root parts.text ∧ ws.links d₀ = .ok parts.existing := by
    refine rooted_of_cases parts.readable ?_
    cases hpart : ws.part? d₀ Part.relationships with
    | none =>
      rw [hpart, Option.getD_none] at htext
      exact Or.inl ⟨rfl, htext⟩
    | some text =>
      rw [hpart, Option.getD_some] at htext
      rw [htext]
      exact Or.inr ⟨rfl, hrooted text hpart⟩
  have hlinked := linked_of_ends_embed hold.1 parts.readable parts.images
  refine ⟨_, _, hold.2, ?_, hlinked.links, hlinked.nodup_ids hdistinct⟩
  rw [fixed.part?_eq, parts.relationships_end fixed outside]
  rfl

end Embeds

end Images

end DocxTemplate
