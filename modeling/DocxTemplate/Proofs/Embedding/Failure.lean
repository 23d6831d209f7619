import DocxTemplate.Proofs.Embedding.Package

/-! # What a failed embedding leaves

    The relationships are extended in memory and written when all images are in place, so a
    failure before that leaves both tables alone. The content types part is looked at last: if it
    is the cause, the relationships are written already.

    * `Images.prepare`, `Images.publish`: the work before anything is written to a table, and the
      rest of it.
    * `Embedding.AboutTypes`: the errors of the content types part.
    * `Images.Failed`, `Images.failed_of_fails`: the disk behind a failure.
-/

namespace DocxTemplate

open Path (IsName)
open Job

variable {w w' : World} {ws : Workspace} {options : EmbedOptions} {e : Error}

/-! ## Texts that grow -/

theorem Blank.count_trimEnd {b : UInt8} (hb : IsAscii false b) (text : Bytes) :
    (trimEnd text).count b = text.count b := by
  induction text with
  | nil => rfl
  | cons a rest ih =>
    rw [trimEnd]
    split
    · next hall =>
      have hnot : b ∉ a :: rest := fun hmem => leading_ne_length hmem hb hall
      rw [List.count_nil, List.count_eq_zero.2 hnot]
    · rw [List.count_cons, List.count_cons, ih]

/-- A table that is extended has more tags than before, also if blanks go. -/
theorem Table.count_insertAfterRoot {root : String} {fragment text text' : Bytes}
    (hfragment : '>'.toUInt8 ∈ fragment) (h : insertAfterRoot root fragment text = .ok text') :
    text.count '>'.toUInt8 < text'.count '>'.toUInt8 := by
  have hpos := List.count_pos_iff.2 hfragment
  have hclose : (Bytes.ofString ">").count '>'.toUInt8 = 1 := by decide
  rw [insertAfterRoot] at h
  dsimp only at h
  split at h
  · cases h
  · next start _ =>
    split at h
    · cases h
    · next g hg =>
      obtain ⟨front, rest, hdrop, -, rfl⟩ := Bytes.eq_append_of_indexOf?_singleton hg
      have htext : text = text.take (start + front.length) ++ '>'.toUInt8 ::
          text.drop (start + front.length + 1) := by
        have hrest : text.drop (start + front.length) = '>'.toUInt8 :: rest := by
          rw [← List.drop_drop, hdrop, List.drop_left]
        rw [← List.drop_drop, hrest, List.drop_succ_cons, List.drop_zero, ← hrest,
          List.take_append_drop]
      have hcount := congrArg (List.count '>'.toUInt8) htext
      rw [List.count_append, List.count_cons_self] at hcount
      split at h
      · next hslash =>
        rw [beq_iff_eq, List.getLast?_eq_some_iff] at hslash
        obtain ⟨before, hbefore⟩ := hslash
        have hslash' : (['/'.toUInt8] : Bytes).count '>'.toUInt8 = 0 := by decide
        cases h
        rw [hbefore, List.count_append, hslash'] at hcount
        simp only [List.count_append, hbefore, List.dropLast_concat, hclose,
          Blank.count_trimEnd (show Blank.IsAscii false '>'.toUInt8 by decide)]
        omega
      · cases h
        simp only [List.count_append, hclose]
        omega

/-! ## The work in two parts -/

namespace Images

open Embedding

/-- The images are copied, and their links are ready to be written. -/
def prepare (t : Images) (ws : Workspace) (options : EmbedOptions) : Job Progress := do
  Job.createDirectories ws.media
  let relationships ← openRelationships ws
  match Relationship.readAll relationships with
  | .error fault => throw (malformedRelationships fault.message)
  | .ok existing =>
    t.entries.foldlM (embed ws options (existing.map (·.id))) { relationships }

/-- The tables are written. -/
def publish (t : Images) (ws : Workspace) (options : EmbedOptions) (done : Progress) : Job Nat := do
  Job.write ws.relationships (.plain done.relationships)
  if options.declareTypes then declareTypes ws done.extensions
  Job.log .info s!"added {t.size} image(s) to {Part.relationships}"
  return t.size

theorem embedAll_eq {t : Images} (hne : t.entries ≠ []) (ws : Workspace) (options : EmbedOptions) :
    t.embedAll ws options = t.prepare ws options >>= t.publish ws options := by
  rw [embedAll, if_neg (by simpa using hne), prepare, bind_assoc]
  refine congrArg _ (funext fun _ => ?_)
  rw [bind_assoc]
  refine congrArg _ (funext fun relationships => ?_)
  cases Relationship.readAll relationships with
  | error fault => rfl
  | ok existing => rfl

end Images

/-! ## Errors before anything is written -/

namespace Embedding

/-- An error of the content types part. -/
def AboutTypes (ws : Workspace) (e : Error) : Prop :=
  (∃ reason, e = .malformedPart Part.contentTypes reason) ∨ ∃ fault, e = .io ws.contentTypes fault

/-- The images that have a name, so that they can be copied. -/
def named (images : List Image) : List Image :=
  images.filter fun image => image.path.fileName?.isSome

theorem isName_named (images : List Image) : ∀ image ∈ named images, IsName image.name := by
  intro image himage
  obtain ⟨name, hname⟩ := Option.isSome_iff_exists.1 (List.mem_filter.1 himage).2
  rw [Image.name, hname, Option.getD_some]
  exact Path.isName_of_fileName? hname

/-- No file changes but the copies of some images. -/
def Copies (ws : Workspace) (images : List Image) (w w' : World) : Prop :=
  w.disk.Changes (MediaPlace ws w.disk.current (named images)) w'.disk

theorem copies_chains (ws : Workspace) (images : List Image) : Chains (Copies ws images) where
  refl _ := .refl _ _
  trans := by
    intro w₁ w₂ w₃ h h'
    unfold Copies at h h' ⊢
    rw [h.current_eq] at h'
    exact h.trans h'

theorem not_aboutTypes_io {p : Path} (hp : p ≠ ws.contentTypes) (fault : FileFault) :
    ¬ AboutTypes ws (.io p fault) := by
  rintro (⟨reason, h⟩ | ⟨fault', h⟩)
  · cases h
  · exact hp (Error.io.inj h).1

/-- A path that leads elsewhere is not the one of the content types. -/
theorem ne_contentTypes_of_target {p : Path} {part : String}
    (hp : p.target [] = ws.place [] part) (hpart : part ≠ Part.contentTypes) :
    p ≠ ws.contentTypes := by
  rintro rfl
  rw [target_contentTypes] at hp
  exact hpart (Workspace.place_inj hp).symm

/-- The directory of the relationships has another name than the content types. -/
theorem parent_relationships_ne {parent : Path} (h : ws.relationships.parent? = some parent) :
    parent ≠ ws.contentTypes := by
  have hword : IsName "word" := by decide
  have hrels : IsName "_rels" := by decide
  have hlast : IsName "document.xml.rels" := by decide
  have hpath : ws.relationships =
      ((ws.root.join "word").join "_rels").join "document.xml.rels" := by
    rw [Workspace.relationships, Workspace.pathOf_eq isName_relationships, on_relationships]
    rfl
  have hsegments : ws.relationships.segments =
      (ws.root.join "word").segments ++ ["_rels", "document.xml.rels"] := by
    rw [hpath, Path.segments_join_join hrels hlast, Path.segments_join_join hword hrels]
    simp
  obtain ⟨before, hbefore⟩ := Path.exists_text_parent? hsegments hrels hlast h
  obtain ⟨front, hfront⟩ := Path.exists_text_join ws.root "[Content_Types].xml"
  intro heq
  rw [heq, contentTypes_eq, hfront] at hbefore
  have hchar := congrArg List.getLast? hbefore
  simp at hchar

section Keeps

variable {images : List Image}

theorem keepsCopies_log (level : Level) (text : String) :
    Job.Keeps (Copies ws images) (¬ AboutTypes ws ·) (Job.log level text) :=
  Keeps.ofAct fun _ => .refl _ _

theorem keepsCopies_createDirectories {p : Path} (hp : p ≠ ws.contentTypes) :
    Job.Keeps (Copies ws images) (¬ AboutTypes ws ·) (Job.createDirectories p) := by
  refine Keeps.guard (fun w => ?_) fun fault => not_aboutTypes_io hp _
  rw [Act.outcome_attempt]
  exact .of_makes (Disk.makes_createDirectories w.disk p)

theorem keepsCopies_openRelationships :
    Job.Keeps (Copies ws images) (¬ AboutTypes ws ·) (openRelationships ws) := by
  have hR := copies_chains ws images
  have hne : ws.relationships ≠ ws.contentTypes :=
    ne_contentTypes_of_target (target_relationships ws []) (by decide)
  rw [openRelationships]
  refine Keeps.bind hR (Keeps.ask hR _) fun result => ?_
  split
  · exact Keeps.pure hR _
  · refine Keeps.bind hR (keepsCopies_log _ _) fun _ => ?_
    split
    · next parent hparent =>
      exact Keeps.bind hR (keepsCopies_createDirectories (parent_relationships_ne hparent))
        fun _ => Keeps.pure hR _
    · exact Keeps.pure hR _
  · exact Keeps.throw hR (not_aboutTypes_io hne _)

theorem keepsCopies_copy {image : Image} {name : String} (himage : image ∈ images)
    (hname : image.path.fileName? = some name) :
    Job.Keeps (Copies ws images) (¬ AboutTypes ws ·)
      (Job.guard (copyError image (ws.media.join name))
        (Act.change fun d => d.copy image.path (ws.media.join name))) := by
  have hisName := Path.isName_of_fileName? hname
  have htarget := target_media_join hisName ws
  have hne : ws.media.join name ≠ ws.contentTypes := by
    refine ne_contentTypes_of_target (htarget []) fun heq => ?_
    have hon := on_part hisName
    rw [heq, on_contentTypes] at hon
    simp at hon
  refine Keeps.guard (Act.Keeps.change (copies_chains ws images).refl fun w disk hcopy => ?_)
    fun fault => ?_
  · obtain ⟨content, hwrite⟩ := Disk.exists_write_of_copy hcopy
    refine .of_write hwrite ⟨image, List.mem_filter.2 ⟨himage, by rw [hname]; rfl⟩, ?_⟩
    rw [htarget, Image.name, hname, Option.getD_some]
  · unfold copyError
    split
    · rintro (⟨reason, h⟩ | ⟨fault', h⟩) <;> cases h
    · exact not_aboutTypes_io hne _

theorem keepsCopies_embed {image : Image} (himage : image ∈ images) (existing : List String)
    (p : Progress) :
    Job.Keeps (Copies ws images) (¬ AboutTypes ws ·) (embed ws options existing p image) := by
  have hR := copies_chains ws images
  have hmissing : ∀ path, ¬ AboutTypes ws (.missingImageFile path) := by
    rintro path (⟨reason, h⟩ | ⟨fault, h⟩) <;> cases h
  have hduplicate : ∀ reference, ¬ AboutTypes ws (.duplicateReference reference) := by
    rintro reference (⟨reason, h⟩ | ⟨fault, h⟩) <;> cases h
  have hlinks : ∀ reason, ¬ AboutTypes ws (malformedRelationships reason) := by
    rintro reason (⟨reason', h⟩ | ⟨fault, h⟩)
    · exact absurd (Error.malformedPart.inj h).1 (by decide)
    · cases h
  rw [embed]
  split
  · exact Keeps.throw hR (hmissing _)
  · next name hname =>
    dsimp only
    split
    · exact Keeps.throw_bind hR (hduplicate _) _
    · have hwarn : Job.Keeps (Copies ws images) (¬ AboutTypes ws ·)
          (warnOverwrite p name image.path) := by
        unfold warnOverwrite
        split
        · split
          · exact keepsCopies_log _ _
          · exact Keeps.pure hR _
        · exact Keeps.pure hR _
      refine Keeps.bind hR hwarn fun _ => Keeps.bind hR (keepsCopies_copy himage hname) fun _ => ?_
      split
      · exact Keeps.throw hR (hlinks _)
      · exact Keeps.pure hR _

/-- Until the tables are written, only copies are made, and no error is about the content types. -/
theorem keepsCopies_prepare (t : Images) :
    Job.Keeps (Copies ws t.entries) (¬ AboutTypes ws ·) (t.prepare ws options) := by
  have hR := copies_chains ws t.entries
  have hmedia : ∀ name ∈ Split.on '/' Part.media, IsName name := by decide
  have hne : ws.media ≠ ws.contentTypes :=
    ne_contentTypes_of_target (Workspace.target_pathOf hmedia ws []) (by decide)
  rw [Images.prepare]
  refine Keeps.bind hR (keepsCopies_createDirectories hne) fun _ =>
    Keeps.bind hR keepsCopies_openRelationships fun relationships => ?_
  split
  · refine Keeps.throw hR ?_
    rintro (⟨reason, h⟩ | ⟨fault, h⟩)
    · exact absurd (Error.malformedPart.inj h).1 (by decide)
    · cases h
  · exact Keeps.foldlM hR _ fun p image himage => keepsCopies_embed himage _ p

end Keeps

/-! ## Errors behind that -/

/-- Declaring types fails on account of the content types part only, and changes no file then. -/
theorem aboutTypes_of_fails_declareAll {declared extensions : List String} {state : Nat × Bytes}
    (h : Fails (declareAll declared extensions state) w e w') :
    w'.disk = w.disk ∧ AboutTypes ws e := by
  induction extensions generalizing w state with
  | nil => exact absurd h not_fails_pure
  | cons extension rest ih =>
    obtain ⟨n, text⟩ := state
    rw [declareAll] at h
    split at h
    · exact ih h
    · split at h
      · rcases fails_bind_iff.1 h with hlog | ⟨u, w₁, hlog, hrest⟩
        · exact absurd hlog not_fails_log
        · obtain ⟨hdisk, habout⟩ := ih hrest
          exact ⟨by rw [hdisk, ends_log_iff.1 hlog], habout⟩
      · split at h
        · obtain ⟨rfl, rfl⟩ := fails_throw_iff.1 h
          exact ⟨rfl, Or.inl ⟨_, rfl⟩⟩
        · exact ih h

theorem aboutTypes_of_fails_declareTypes {extensions : List String}
    (h : Fails (declareTypes ws extensions) w e w') : w'.disk = w.disk ∧ AboutTypes ws e := by
  rw [declareTypes] at h
  rcases fails_bind_iff.1 h with hask | ⟨read, w₁, hask, h₁⟩
  · exact absurd hask not_fails_ask
  obtain ⟨rfl, rfl⟩ := ends_ask_iff.1 hask
  split at h₁
  · exact absurd h₁ not_fails_log
  · obtain ⟨rfl, rfl⟩ := fails_throw_iff.1 h₁
    exact ⟨rfl, Or.inr ⟨_, rfl⟩⟩
  · split at h₁
    · obtain ⟨rfl, rfl⟩ := fails_throw_iff.1 h₁
      exact ⟨rfl, Or.inl ⟨_, rfl⟩⟩
    · rcases fails_bind_iff.1 h₁ with hall | ⟨⟨n, text⟩, w₂, hall, hwrite⟩
      · exact aboutTypes_of_fails_declareAll hall
      · have hdisk := (count_of_ends_declareAll hall).1
        dsimp only at hwrite
        split at hwrite
        · obtain ⟨fault, -, rfl, rfl⟩ := fails_write_iff.1 hwrite
          exact ⟨hdisk, Or.inr ⟨_, rfl⟩⟩
        · exact absurd hwrite not_fails_pure

/-- Writing the tables fails at once, or when the types are declared. -/
theorem fails_publish_cases {t : Images} {done : Progress}
    (h : Fails (t.publish ws options done) w e w') :
    (¬ AboutTypes ws e ∧ w' = w) ∨
      (options.declareTypes = true ∧ ∃ w₁ : World,
        w.disk.write ws.relationships (.plain done.relationships) = .ok w₁.disk ∧
        Fails (declareTypes ws done.extensions) w₁ e w') := by
  have hne : ws.relationships ≠ ws.contentTypes :=
    ne_contentTypes_of_target (target_relationships ws []) (by decide)
  have hend : ∀ {w₁}, ¬ Fails (do
      Job.log .info s!"added {t.size} image(s) to {Part.relationships}"
      return t.size) w₁ e w' := by
    intro w₁ hend
    rcases fails_bind_iff.1 hend with hlog | ⟨u, w₂, -, hpure⟩
    · exact not_fails_log hlog
    · exact not_fails_pure hpure
  rw [Images.publish] at h
  rcases fails_bind_iff.1 h with hwrite | ⟨u, w₁, hwrite, h₁⟩
  · obtain ⟨fault, -, rfl, rfl⟩ := fails_write_iff.1 hwrite
    exact Or.inl ⟨not_aboutTypes_io hne _, rfl⟩
  · obtain ⟨disk, hdisk, rfl⟩ := ends_write_iff.1 hwrite
    dsimp only at h₁
    split at h₁
    · next hdeclare =>
      rcases fails_bind_iff.1 h₁ with hfails | ⟨u, w₂, -, hfails⟩
      · exact Or.inr ⟨hdeclare, _, hdisk, hfails⟩
      · exact absurd hfails hend
    · exact absurd h₁ hend

/-- In the second case the relationships are written already. -/
theorem cases_of_fails_publish {t : Images} {done : Progress}
    (h : Fails (t.publish ws options done) w e w') :
    (¬ AboutTypes ws e ∧ w' = w) ∨
      (AboutTypes ws e ∧ options.declareTypes = true ∧
        w.disk.write ws.relationships (.plain done.relationships) = .ok w'.disk) := by
  rcases fails_publish_cases h with hfirst | ⟨hdeclare, w₁, hwrite, hfails⟩
  · exact Or.inl hfirst
  · obtain ⟨hsame, habout⟩ := aboutTypes_of_fails_declareTypes hfails
    exact Or.inr ⟨habout, hdeclare, by rw [hsame]; exact hwrite⟩

end Embedding

/-! ## Failures -/

namespace Images

open Embedding

/-- Each image that is linked makes the relationships grow. -/
theorem count_of_ends_embed {existing : List String} {p q : Progress} {images : List Image}
    (h : Ends (images.foldlM (embed ws options existing) p) w q w') :
    p.relationships.count '>'.toUInt8 + images.length ≤ q.relationships.count '>'.toUInt8 := by
  refine foldlM_induction (P := fun done (p₁ : Progress) _ =>
    p.relationships.count '>'.toUInt8 + done.length ≤ p₁.relationships.count '>'.toUInt8) ?_ ?_ h
  · intro done image p₁ w₁ q₁ w₂ _ hdone hstep
    obtain ⟨-, -, -, hinsert, -⟩ := exists_of_ends_embed hstep
    have hclose : '>'.toUInt8 ∈ (link options image).element := by
      have hend : '>'.toUInt8 ∈ Bytes.ofString "/>" := by decide
      rw [Relationship.element]
      exact List.mem_append_right _ hend
    have hgrows := Table.count_insertAfterRoot hclose hinsert
    rw [List.length_append, List.length_singleton]
    omega
  · simp

/-- The text of the relationships that are ready to be written. -/
structure Prepared (t : Images) (ws : Workspace) (options : EmbedOptions) (d : Disk)
    (done : Progress) : Prop where
  grown : ws.Holds d Part.relationships (fun _ => True) →
    ws.part? d Part.relationships ≠ some done.relationships
  linked : ws.Holds d Part.relationships (Table.Rooted Relationship.root) →
    ∃ old existing, Linked options existing old t.entries done.relationships

theorem prepared_of_ends {t : Images} {done : Progress} (hne : t.entries ≠ [])
    (h : Ends (t.prepare ws options) w done w') : Prepared t ws options w.disk done := by
  rw [prepare] at h
  obtain ⟨u, w₁, hmedia, h₁⟩ := ends_bind_iff.1 h
  obtain ⟨-, rfl⟩ := ends_createDirectories_iff.1 hmedia
  have hmakes := Disk.makes_createDirectories w.disk ws.media
  obtain ⟨text, w₂, hopen, h₂⟩ := ends_bind_iff.1 h₁
  have hsource : (w.disk.createDirectories ws.media).1.readText ws.relationships = .ok text ∨
      ((w.disk.createDirectories ws.media).1.readText ws.relationships =
        .error (.system .notFound) ∧ text = Relationship.emptyPart) := by
    rcases exists_of_ends_openRelationships hopen with ⟨hok, -⟩ | ⟨hmissing, htext, -⟩
    · exact Or.inl hok
    · exact Or.inr ⟨hmissing, htext⟩
  split at h₂
  · exact absurd h₂ not_ends_throw
  · next existing hreadable =>
    refine ⟨fun holds hsame => ?_, fun holds => ?_⟩
    · -- What is written has more tags than what was opened.
      have hcount := count_of_ends_embed h₂
      have hpos := List.length_pos_iff.2 hne
      rcases text_cases hmakes hsource holds with ⟨hnone, -⟩ | ⟨hsome, -⟩
      · rw [hnone] at hsame
        cases hsame
      · rw [hsome, Option.some.injEq] at hsame
        rw [← hsame] at hcount
        dsimp only at hcount
        omega
    · have hrooted : Table.Rooted Relationship.root text := by
        rcases text_cases hmakes hsource holds with ⟨-, htext⟩ | ⟨-, hrooted⟩
        · rw [htext]
          exact Relationship.rooted_emptyPart.1
        · exact hrooted
      exact ⟨existing, _, linked_of_ends_embed hrooted hreadable h₂⟩

/-- The disk behind a failed embedding. -/
structure Failed (t : Images) (ws : Workspace) (options : EmbedOptions) (d d' : Disk) (e : Error) :
    Prop where
  /-- The content types are as they were. -/
  types : ws.part? d' Part.contentTypes = ws.part? d Part.contentTypes
  /-- If they are not the cause, so are the relationships and all other files but the copies. -/
  unchanged : ¬ AboutTypes ws e →
    ws.part? d' Part.relationships = ws.part? d Part.relationships ∧
      d.Changes (MediaPlace ws d.current (named t.entries)) d'
  /-- If they are, they were to be extended, and the relationships have been written. -/
  written : AboutTypes ws e → options.declareTypes = true ∧
    (ws.Holds d Part.relationships (fun _ => True) →
      ws.part? d' Part.relationships ≠ ws.part? d Part.relationships)
  /-- Then the images are linked, and the table cannot be embedded any more. -/
  never : AboutTypes ws e → ws.Holds d Part.relationships (Table.Rooted Relationship.root) →
    ∀ (w₂ : World) text, ws.part? d' Part.relationships = some text →
      w₂.disk.readText ws.relationships = .ok text →
        ∀ n w₃, ¬ Ends (t.embedAll ws options) w₂ n w₃

/-- Images that are linked already cannot be embedded. -/
theorem not_ends_of_linked {t : Images} {old : List Relationship} {existing : List String}
    {text : Bytes} {n : Nat} (hne : t.entries ≠ [])
    (hlinked : Linked options existing old t.entries text)
    (hread : w.disk.readText ws.relationships = .ok text) :
    ¬ Ends (t.embedAll ws options) w n w' := by
  intro h
  obtain ⟨-, ⟨parts⟩⟩ := parts_of_ends hne h
  obtain ⟨hrooted, hlinks⟩ := parts.text_eq (Or.inr ⟨text, hread, hlinked.rooted⟩)
  have hfresh := (linked_of_ends_embed hrooted parts.readable parts.images).fresh
  rw [Workspace.links, Workspace.part?_of_readText isName_relationships hread] at hlinks
  have heq : parts.existing = (t.entries.map (link options)).reverse ++ old := by
    have hboth := hlinks.symm.trans hlinked.links
    exact Except.ok.inj hboth
  obtain ⟨image, rest, hcons⟩ := List.exists_cons_of_ne_nil hne
  have himage : image ∈ t.entries := by rw [hcons]; exact List.mem_cons_self
  refine hfresh image himage (List.mem_map.2 ⟨link options image, ?_, rfl⟩)
  rw [heq]
  exact List.mem_append_left _ (List.mem_reverse.2 (List.mem_map_of_mem himage))

/-- A failed embedding leaves the tables of the package as they were, unless the content types part
    is the cause. -/
theorem failed_of_fails {t : Images} (h : Fails (t.embedAll ws options) w e w') :
    Failed t ws options w.disk w'.disk e := by
  have hne : t.entries ≠ [] := by
    intro hnil
    rw [embedAll, if_pos (by simpa using hnil)] at h
    exact not_fails_pure h
  have htable : ∀ {part}, part = Part.relationships ∨ part = Part.contentTypes → ∀ {w₁ : World},
      Copies ws t.entries w w₁ → ws.part? w₁.disk part = ws.part? w.disk part := by
    intro part hpart w₁ hcopies
    rw [Workspace.part?, Workspace.part?, hcopies.current_eq,
      hcopies.file?_eq _ (not_mediaPlace hpart (isName_named t.entries))]
  have hunchanged : ¬ AboutTypes ws e → Copies ws t.entries w w' →
      Failed t ws options w.disk w'.disk e := fun hnot hcopies =>
    ⟨htable (Or.inr rfl) hcopies, fun _ => ⟨htable (Or.inl rfl) hcopies, hcopies⟩,
      fun habout => absurd habout hnot, fun habout => absurd habout hnot⟩
  rw [embedAll_eq hne] at h
  rcases fails_bind_iff.1 h with hprepare | ⟨done, w₁, hprepare, hpublish⟩
  · obtain ⟨hcopies, hnot⟩ := (keepsCopies_prepare t).of_fails hprepare
    exact hunchanged hnot hcopies
  · have hcopies := (keepsCopies_prepare t).of_ends hprepare
    obtain ⟨hgrown, hlinked⟩ := prepared_of_ends hne hprepare
    rcases cases_of_fails_publish hpublish with ⟨hnot, rfl⟩ | ⟨habout, hdeclare, hwrite⟩
    · exact hunchanged hnot hcopies
    · have hcurrent := (Disk.current_of_write hwrite).trans hcopies.current_eq
      have hfile := Disk.file?_of_write hwrite
      rw [hcopies.current_eq, target_relationships] at hfile
      have hpart : ws.part? w'.disk Part.relationships = some done.relationships := by
        rw [Workspace.part?, hcurrent, hfile, if_pos rfl]
        rfl
      refine ⟨?_, fun hnot => absurd habout hnot, fun _ => ⟨hdeclare, fun holds => ?_⟩,
        fun _ holds w₂ text htext hread n w₃ => ?_⟩
      · rw [← htable (Or.inr rfl) hcopies, Workspace.part?, Workspace.part?, hcurrent, hfile,
          if_neg (contentTypes_ne_relationships ws _), hcopies.current_eq]
      · rw [hpart]
        exact fun heq => hgrown holds heq.symm
      · obtain ⟨old, existing, hlinks⟩ := hlinked holds
        rw [hpart, Option.some.injEq] at htext
        subst htext
        exact not_ends_of_linked hne hlinks hread

/-- A package whose content types have a prefix, and an image beside it. -/
def prefixedWorld : World where
  disk := { nodes := [
    (["ws"], .directory), (["ws", "word"], .directory), (["ws", "word", "_rels"], .directory),
    (["ws", "word", "_rels", "document.xml.rels"],
      .file (.plain (Bytes.ofString Relationship.root ++ ['/'.toUInt8, '>'.toUInt8]))),
    (["ws", "[Content_Types].xml"], .file (.plain (Bytes.ofString "<t:Types/>"))),
    (["a.png"], .file (.plain [0x89]))] }

/-- Embedding the image into this package. -/
def prefixedEmbedding : Except Error Nat × World :=
  (embedAll ⟨[⟨"a", ⟨"/a.png"⟩⟩]⟩ ⟨⟨"/ws"⟩, false⟩ {}).outcome prefixedWorld

theorem failed_of_fails_prefixed :
    prefixedEmbedding.1 = .error (malformedTypes "no <Types> element") ∧
      Failed ⟨[⟨"a", ⟨"/a.png"⟩⟩]⟩ ⟨⟨"/ws"⟩, false⟩ {} prefixedWorld.disk prefixedEmbedding.2.disk
        (malformedTypes "no <Types> element") := by
  have hresult : prefixedEmbedding.1 = .error (malformedTypes "no <Types> element") := by
    decide +kernel
  have hfails : Fails (embedAll ⟨[⟨"a", ⟨"/a.png"⟩⟩]⟩ ⟨⟨"/ws"⟩, false⟩ {}) prefixedWorld
      (malformedTypes "no <Types> element") prefixedEmbedding.2 := Prod.ext hresult rfl
  exact ⟨hresult, failed_of_fails hfails⟩

/-- Not every failure leaves the relationships as they were. -/
theorem not_forall_relationships_kept : ¬ ∀ (t : Images) (ws : Workspace) (options : EmbedOptions)
    (w w' : World) (e : Error), Fails (t.embedAll ws options) w e w' →
      ws.part? w'.disk Part.relationships = ws.part? w.disk Part.relationships := by
  intro h
  have hresult : prefixedEmbedding.1 = .error (malformedTypes "no <Types> element") := by
    decide +kernel
  have hsame := h ⟨[⟨"a", ⟨"/a.png"⟩⟩]⟩ ⟨⟨"/ws"⟩, false⟩ {} prefixedWorld prefixedEmbedding.2 _
    (Prod.ext hresult rfl)
  exact absurd hsame (by decide +kernel)

end Images

end DocxTemplate
