import DocxTemplate.Proofs.Embedding.Again
import DocxTemplate.Proofs.Package.Packed
import DocxTemplate.Proofs.Session.Confined
import DocxTemplate.Proofs.Session.Saving

/-! # Saving again

    A rendered document can be saved any number of times, and each saving may fail. The images are
    embedded by the first one that gets that far, and by no other, so all archives that are written
    are the same.

    * `Session.Spares`, `Session.Attempt`: what may happen besides, and the savings that are tried.
    * `Session.Registered`, `Session.Attempted`: the sessions that come of a rendering.
    * `Session.Course`, `Course.save`, `Course.of_attempted`: the table of images and the workspace
      go together. One lemma for a saving, one for all of them.
    * `Session.Delivered`: what an archive holds of the images.
    * `Session.archive_of_attempted`: every saving that succeeds writes the same.
-/

namespace DocxTemplate

open Job
open Path (IsName)
open Images (Reads Embeds Homed Blocked)
open Embedding (MediaPlace named link)

namespace Session

variable {s s' s₀ s₁ : Session} {w w' w₀ w₁ : World} {ws : Workspace} {bytes : Image → Bytes}
  {template output : Path} {data : Data} {images : List (String × Path)}

/-! ## Histories -/

/-- Nothing in a workspace changes, whatever happens elsewhere. -/
structure Spares (ws : Workspace) (d d' : Disk) : Prop where
  node?_eq : ∀ k, ws.root.target d.current <+: k → d'.node? k = d.node? k
  tidy : d.Tidy (ws.root.target d.current) → d'.Tidy (ws.root.target d.current)

theorem Spares.refl (ws : Workspace) (d : Disk) : Spares ws d d := ⟨fun _ _ => rfl, id⟩

/-- A workspace is spared by what is put elsewhere. -/
theorem Spares.of_put {d : Disk} {k : Location} (hk : ¬ ws.root.target d.current <+: k)
    (hne : k ≠ []) (node : Node) : Spares ws d (d.put k node) := by
  refine ⟨fun j hj => ?_, fun htidy => Disk.tidy_put htidy k node⟩
  rw [Disk.node?_put hne, if_neg]
  rintro rfl
  exact hk hj

/-- A saving whose output lies outside the workspace, and so do the images, the files of which have
    the bytes that they always have. -/
structure Attempt (bytes : Image → Bytes) (ws : Workspace) (s : Session) (w : World)
    (output : Path) : Prop where
  output : ¬ ws.root.target w.disk.current <+: output.target w.disk.current
  images : Embedding.Outside ws w.disk.current s.images.entries
  reads : Reads bytes s.images.entries w.disk

/-- Images are registered, or refused, one after the other. In between anything may change but the
    workspace. -/
inductive Registered (ws : Workspace) (s₀ : Session) (w₀ : World) : Session → World → Prop
  | none : Registered ws s₀ w₀ s₀ w₀
  | register {s : Session} {w w' : World} (before : Registered ws s₀ w₀ s w)
      (between : Spares ws w.disk w'.disk) (reference : String) (path : Path) :
      Registered ws s₀ w₀ ((s.register reference path).outcome w').1.1
        ((s.register reference path).outcome w').2

/-- Savings are tried one after the other, whether or not they succeed. In between anything may
    change but the workspace. -/
inductive Attempted (bytes : Image → Bytes) (ws : Workspace) (s₀ : Session) (w₀ : World) :
    Session → World → Prop
  | none : Attempted bytes ws s₀ w₀ s₀ w₀
  | save {s : Session} {w w' : World} {output : Path} (before : Attempted bytes ws s₀ w₀ s w)
      (between : Spares ws w.disk w'.disk) (attempt : Attempt bytes ws s w' output) :
      Attempted bytes ws s₀ w₀ ((s.save output).outcome w').1.1 ((s.save output).outcome w').2

/-! ## After a rendering -/

/-- What a successful rendering comes to, whatever the renderer does. -/
theorem exists_unpacked_of_rendered
    (h : (s.render template data images).outcome w = ((s', .ok ()), w')) :
    ∃ table ws content warnings w₁ w₂,
      Ends (Images.ofList images) (s.finish.outcome w).2 table w₁ ∧
      Ends (unpackTemplate s.options template) w₁ ws w₂ ∧
      s' = { s.cleared with
        workspace? := some ws
        content? := some content
        images := table
        warnings := warnings } := by
  have hend := render_outcome s template data images w
  rw [h] at hend
  obtain _ | _ | _ | _ | ⟨-, himages, hpackage, -, -⟩ := hend
  exact ⟨_, _, _, _, _, _, himages, hpackage, rfl⟩

/-- The workspace stays where it is, and no reference is used twice. -/
theorem fixed_of_rendered (h : (s.render template data images).outcome w = ((s', .ok ()), w'))
    (hws : s'.workspace? = some ws) :
    ws.Fixed (ws.root.target []) ∧ s'.images.Distinct := by
  obtain ⟨table, ws', content, warnings, w₁, w₂, himages, hpackage, rfl⟩ :=
    exists_unpacked_of_rendered h
  cases hws
  obtain ⟨-, w₃, n, hcreated, -⟩ := exists_created_of_ends hpackage
  have habs := hcreated.site.isAbsolute
  have hnames := hcreated.names
  rw [Path.target_of_isAbsolute habs _ []] at hnames
  exact ⟨⟨habs, hnames.of_isAbsolute habs⟩, (Images.registered_of_ends himages).2⟩

/-- Registering an image changes the table at most. -/
theorem exists_register_eq (s : Session) (reference : String) (path : Path) (w : World) :
    ∃ t, ((s.register reference path).outcome w).1.1 = { s with images := t } ∧
      ((s.register reference path).outcome w).2.disk = w.disk ∧
      (s.images.Distinct → t.Distinct) := by
  have hlogs := (s.images.keeps_add reference path w).1
  rw [register, Act.outcome_bind, Act.outcome_ofJob]
  cases hadd : (s.images.add reference path).outcome w with
  | mk result w₁ =>
    rw [hadd] at hlogs
    cases result with
    | error e => exact ⟨s.images, rfl, hlogs.disk_eq, id⟩
    | ok t => exact ⟨t, rfl, hlogs.disk_eq, fun h => (Images.distinct_of_ends_add hadd h).2⟩

/-! ## The workspace -/

variable {l : Location} {d d' d₁ d₂ : Disk}

/-- A workspace in order: what it holds is listed once, under names, and the relationships are in
    their directory. -/
structure Settled (ws : Workspace) (l : Location) (d : Disk) : Prop where
  tidy : d.Tidy l
  homed : Homed ws d
  slashless : d.Slashless l

theorem settled_of_proper (h : d.Proper) (ws : Workspace) (l : Location) : Settled ws l d := by
  refine ⟨h.tidy l, fun hsome => ?_, h.slashless l⟩
  have hplace : ws.place d.current Part.relationships =
      (ws.root.target d.current ++ ["word", "_rels"]) ++ ["document.xml.rels"] := by
    rw [Workspace.place, Embedding.on_relationships, List.append_assoc]
    rfl
  refine h.tree.directory_of_prefix (k := ws.place d.current Part.relationships) ?_ ?_ ?_
  · intro hnone
    rw [Workspace.part?, Disk.file?, hnone] at hsome
    exact hsome rfl
  · rw [hplace]
    exact List.prefix_append _ _
  · rw [hplace]
    simp

theorem Spares.alters (h : Spares ws d d') (fixed : ws.Fixed l) (places : Location → Prop) :
    Disk.Alters l places d d' := by
  have htarget : ws.root.target d.current = l := (fixed.names _).target_eq
  obtain ⟨hnode, htidy⟩ := h
  rw [htarget] at hnode htidy
  exact ⟨fun k hk _ => Disk.file?_of_node?_eq (hnode k hk), fun k hk hdir => by rw [hnode k hk, hdir],
    htidy⟩

theorem Settled.of_spares (h : Settled ws l d) (fixed : ws.Fixed l) (hspares : Spares ws d d') :
    Settled ws l d' := by
  have halters := hspares.alters fixed fun _ => False
  have hfile : ∀ k, l <+: k → d'.file? k = d.file? k := fun k hk => halters.file?_eq k hk id
  refine ⟨halters.tidy h.tidy, fun hsome => ?_, fun k content hk => ?_⟩
  · rw [fixed.part?_eq, hfile _ (fixed.prefix_place _), ← fixed.part?_eq] at hsome
    have hdir := h.homed hsome
    rw [(fixed.names _).target_eq] at hdir ⊢
    exact halters.directory _ (List.prefix_append _ _) hdir
  · rw [hfile _ (List.prefix_append _ _)] at hk
    exact h.slashless k content hk

/-- Images that are registered change neither the workspace nor the session besides the table. -/
theorem Registered.exists_eq (h : Registered ws s₀ w₀ s₁ w₁) (fixed : ws.Fixed l)
    (hsettled : Settled ws l w₀.disk) (hdistinct : s₀.images.Distinct) :
    ∃ t, s₁ = { s₀ with images := t } ∧ t.Distinct ∧ Settled ws l w₁.disk := by
  induction h with
  | none => exact ⟨s₀.images, rfl, hdistinct, hsettled⟩
  | @register s w w' before between reference path ih =>
    obtain ⟨t, rfl, ht, hsettled⟩ := ih
    obtain ⟨t', hregister, hdisk, ht'⟩ := exists_register_eq { s₀ with images := t } reference path w'
    rw [hregister, hdisk]
    exact ⟨t', rfl, ht' ht, hsettled.of_spares fixed between⟩

/-! ## Storing -/

/-- No file changes but the document and the output. -/
def Stores (ws : Workspace) (output : Path) (w w' : World) : Prop :=
  w.disk.Changes (fun k => k = ws.place w.disk.current Part.document ∨
    k = output.target w.disk.current) w'.disk

theorem stores_chains (ws : Workspace) (output : Path) : Chains (Stores ws output) where
  refl _ := .refl _ _
  trans := by
    intro w₁ w₂ w₃ h h'
    unfold Stores at h h' ⊢
    rw [h.current_eq] at h'
    exact h.trans h'

theorem keepsStores_log (level : Level) (text : String) :
    Job.Keeps (Stores ws output) (fun _ => True) (Job.log level text) :=
  Keeps.ofAct fun _ => .refl _ _

theorem keepsStores_write {wrap : SystemFault → Error} {p : Path} (content : Content)
    (hp : ∀ c, p.target c = ws.place c Part.document ∨ p.target c = output.target c) :
    Job.Keeps (Stores ws output) (fun _ => True)
      (Job.guard wrap (Act.change fun d => d.write p content)) := by
  refine Keeps.guard (Act.Keeps.change (stores_chains ws output).refl fun w disk hwrite => ?_)
    fun _ => trivial
  exact .of_write hwrite (hp w.disk.current)

theorem keepsStores_store (options : Options) (content : Bytes) :
    Job.Keeps (Stores ws output) (fun _ => True) (store options ws content output) := by
  have hR := stores_chains ws output
  have hpack : Job.Keeps (Stores ws output) (fun _ => True) (Package.pack ws.root output) := by
    rw [Package.pack]
    dsimp only
    exact Keeps.bind hR (Keeps.guard (Act.Keeps.ask hR _) fun _ => trivial) fun _ =>
      Keeps.bind hR (keepsStores_write _ fun _ => Or.inr rfl) fun _ =>
      Keeps.bind hR (Keeps.ask hR _) fun _ =>
      Keeps.bind hR (keepsStores_write _ fun _ => Or.inr rfl) fun _ =>
      Keeps.bind hR (keepsStores_log _ _) fun _ => Keeps.pure hR _
  have hrest : Job.Keeps (Stores ws output) (fun _ => True) (do
      Job.write ws.document (.plain content)
      let entries ← Package.pack ws.root output
      Job.log .info s!"saved {output.text} ({entries} entries)") :=
    Keeps.bind hR (keepsStores_write _ fun c =>
        Or.inl (Workspace.target_pathOf isName_document ws c)) fun _ =>
      Keeps.bind hR hpack fun _ => keepsStores_log _ _
  rw [store]
  dsimp only
  split
  · split
    · exact hrest
    · exact Keeps.bind hR (keepsStores_log _ _) fun _ => hrest
  · exact hrest

/-- Storing changes the document in the workspace, whether or not it succeeds. -/
theorem alters_of_store (fixed : ws.Fixed l) (options : Options) (content : Bytes)
    (houtput : ¬ l <+: output.target w.disk.current) :
    Disk.Alters l (· = ws.place [] Part.document) w.disk
      ((store options ws content output).outcome w).2.disk := by
  have hchanges : Stores ws output w _ := (keepsStores_store options content w).1
  have hkeeps : Job.Keeps (Grows ws.root w.disk.current l) Error.Inner
      (store options ws content output) := keeps_store (fixed.names _) options content output
  refine (Disk.Alters.of_changes hchanges (hkeeps w).1.2).mono fun k hk hplace => ?_
  rcases hplace with rfl | rfl
  · exact fixed.place_eq _ _
  · exact absurd hk houtput

/-! ## The course of savings -/

/-- How the table of images and the workspace go together, if the savings started from the session
    `s₁` and the disk `d₁`. -/
inductive Course (bytes : Image → Bytes) (ws : Workspace) (l : Location) (s₁ : Session)
    (d₁ : Disk) : Session → Disk → Prop
  /-- The images are still to be embedded. All that was done is to copy some of them. -/
  | pending {d : Disk}
      (h : Disk.Alters l (MediaPlace ws [] (named s₁.images.entries)) d₁ d) :
      Course bytes ws l s₁ d₁ s₁ d
  /-- They are, but they never will be. -/
  | blocked {d : Disk} (h : s₁.images.Blocked ws s₁.options.images l d) :
      Course bytes ws l s₁ d₁ s₁ d
  /-- They are embedded, and nothing else but the document was written since. -/
  | embedded {d' d : Disk} (h : Embeds bytes s₁.images ws s₁.options.images l d₁ d')
      (since : Disk.Alters l (· = ws.place [] Part.document) d' d) :
      Course bytes ws l s₁ d₁ { s₁ with images := {} } d

namespace Course

/-- What happens elsewhere does not matter. -/
theorem spares (h : Course bytes ws l s₁ d₁ s d) (fixed : ws.Fixed l) (hspares : Spares ws d d') :
    Course bytes ws l s₁ d₁ s d' := by
  cases h with
  | pending h => exact .pending (h.trans (hspares.alters fixed _))
  | blocked h => exact .blocked (h.alters (hspares.alters fixed _))
  | embedded h since => exact .embedded h (since.trans (hspares.alters fixed _))

/-- The workspace and the document of the session stay. -/
theorem workspace?_eq (h : Course bytes ws l s₁ d₁ s d) :
    s.workspace? = s₁.workspace? ∧ s.content? = s₁.content? := by
  cases h <;> exact ⟨rfl, rfl⟩

/-- A saving that fails to embed the images leaves them to be embedded. -/
theorem of_fails (h : Course bytes ws l s₁ d₁ s w.disk) (fixed : ws.Fixed l) {e : Error}
    (hfails : Fails (s.images.embedAll ws s.options.images) w e w') :
    Course bytes ws l s₁ d₁ s w'.disk := by
  have hdirs := ((keeps_embedAll (fixed.names w.disk.current) s.images).of_fails hfails).1.2
  cases h with
  | pending h =>
    rcases (Images.alters_of_fails fixed hdirs hfails).2 with halters | hblocked
    · exact .pending (h.trans halters)
    · exact .blocked hblocked
  | blocked h => exact .blocked (h.alters (Images.alters_of_fails fixed hdirs hfails).1)
  | embedded =>
    -- Embedding no images does nothing.
    have hnothing : Fails (pure 0) w e w' := hfails
    exact absurd hnothing not_fails_pure

/-- A saving that embeds the images has nothing left to embed. -/
theorem of_ends (h : Course bytes ws l s₁ d₁ s w.disk) {n : Nat}
    (outside : Embedding.Outside ws w.disk.current s.images.entries)
    (reads : Reads bytes s.images.entries w.disk)
    (hends : Ends (s.images.embedAll ws s.options.images) w n w') :
    ∃ d', { s with images := {} } = { s₁ with images := {} } ∧
      Embeds bytes s₁.images ws s₁.options.images l d₁ d' ∧
      Disk.Alters l (· = ws.place [] Part.document) d' w'.disk := by
  cases h with
  | pending h => exact ⟨w'.disk, rfl, .intro h outside reads hends rfl, .refl _ _ _⟩
  | blocked h => exact absurd hends (h w n w' outside (.refl _ _ _))
  | embedded h since =>
    obtain ⟨-, rfl⟩ := ends_pure_iff.1 hends
    exact ⟨_, rfl, h, since⟩

/-- Whatever becomes of a saving, the table and the workspace go together. -/
theorem save (h : Course bytes ws l s₁ d₁ s w.disk) (fixed : ws.Fixed l)
    (hworkspace : s₁.workspace? = some ws) (attempt : Attempt bytes ws s w output) :
    Course bytes ws l s₁ d₁ ((s.save output).outcome w).1.1
      ((s.save output).outcome w).2.disk := by
  have hsaving := saving_outcome s output w
  generalize (s.save output).outcome w = run at hsaving ⊢
  have hsame : ∀ {ws'}, s.workspace? = some ws' → ws' = ws := fun hws => by
    rw [h.workspace?_eq.1, hworkspace, Option.some.injEq] at hws
    exact hws.symm
  cases hsaving with
  | notRendered => exact h
  | notEmbedded hws _ hfails =>
    obtain rfl := hsame hws
    exact h.of_fails fixed hfails
  | @stored ws' content n result w₁ w₂ hws _ hends hstore =>
    obtain rfl := hsame hws
    obtain ⟨d', hsession, hembeds, hsince⟩ := h.of_ends attempt.images attempt.reads hends
    have hcurrent := (Images.changes_of_ends_embedAll attempt.images hends).current_eq
    have houtput : ¬ l <+: output.target w₁.disk.current := by
      rw [hcurrent, ← (fixed.names w.disk.current).target_eq]
      exact attempt.output
    have hstored := alters_of_store fixed s.options content houtput
    rw [hstore] at hstored
    rw [hsession]
    exact .embedded hembeds (hsince.trans hstored)

end Course

/-- The same holds behind any number of savings. -/
theorem Course.of_attempted (h : Attempted bytes ws s₁ w₁ s w) (fixed : ws.Fixed l)
    (hworkspace : s₁.workspace? = some ws) : Course bytes ws l s₁ w₁.disk s w.disk := by
  induction h with
  | none => exact .pending (.refl _ _ _)
  | save before between attempt ih => exact (ih.spares fixed between).save fixed hworkspace attempt

/-! ## Archives -/

/-- The entries that are packed from a workspace with the files of `d` once the document is
    written. -/
structure Archived (ws : Workspace) (l : Location) (content : Bytes) (d : Disk)
    (entries : List Archive.Entry) where
  filled : Disk
  tidy : filled.Tidy l
  isDirectory : filled.node? l = some .directory
  file?_eq : ∀ k, l <+: k → filled.file? k =
    if k = ws.place [] Part.document then some (.plain content) else d.file? k
  entries_eq : entries = Package.entriesOf (filled.filesBelow l)

namespace Archived

variable {content : Bytes} {entries entries' : List Archive.Entry}

/-- They depend on the bytes of the files only. -/
theorem entries_agree (h : Archived ws l content d entries) (h' : Archived ws l content d' entries')
    (hl : l ≠ [])
    (hbytes : ∀ k, l <+: k → (d.file? k).map Content.bytes = (d'.file? k).map Content.bytes) :
    entries = entries' := by
  rw [h.entries_eq, h'.entries_eq]
  refine Package.entriesOf_filesBelow_congr h.tidy hl h'.tidy hl fun k => ?_
  have hk : l <+: l ++ k := List.prefix_append _ _
  rw [h.file?_eq _ hk, h'.file?_eq _ hk]
  split
  · rfl
  · exact hbytes _ hk

section Named

variable (h : Archived ws l content d entries) (fixed : ws.Fixed l)
  (hslashless : d.Slashless l)
include h fixed hslashless

theorem namedBelow : Package.NamedBelow h.filled l := by
  intro k file hfile
  have hne : k ≠ [] := by
    rintro rfl
    rw [List.append_nil, Disk.file?, h.isDirectory] at hfile
    cases hfile
  refine ⟨hne, ?_⟩
  rw [h.file?_eq _ (List.prefix_append _ _)] at hfile
  split at hfile
  · next hdocument =>
    rw [Workspace.place, (fixed.names []).target_eq, List.append_cancel_left_eq] at hdocument
    rw [hdocument]
    exact fun _ => Split.not_mem_of_mem_on
  · exact hslashless k file hfile

theorem nodup_names : (entries.map (·.name)).Nodup := by
  have hl : l ≠ [] := (fixed.names []).nonroot
  rw [h.entries_eq]
  exact (Package.packed_entriesOf h.tidy hl (h.namedBelow fixed hslashless)).nodup

/-- The document is under its name, and every other part of the package is under its own. -/
theorem dataOf?_eq (name : String) : Archive.dataOf? entries name =
    if name = Part.document then some content else ws.part? d name := by
  have hl : l ≠ [] := (fixed.names []).nonroot
  have hplace : l ++ Split.on '/' name = ws.place [] name := by
    rw [Workspace.place, (fixed.names []).target_eq]
  rw [h.entries_eq, Package.dataOf?_entriesOf h.tidy hl (h.namedBelow fixed hslashless), hplace,
    h.file?_eq _ (fixed.prefix_place name), fixed.part?_eq]
  by_cases hname : name = Part.document
  · rw [if_pos hname, if_pos (by rw [hname])]
    rfl
  · rw [if_neg hname, if_neg fun heq => hname (Workspace.place_inj heq)]

end Named

end Archived

/-- A saving that succeeds writes the archive of the workspace with its images. -/
theorem Course.exists_archived (h : Course bytes ws l s₁ d₁ s w.disk) (fixed : ws.Fixed l)
    (htidy : d₁.Tidy l) (hworkspace : s₁.workspace? = some ws)
    (attempt : Attempt bytes ws s w output)
    (hsaved : (s.save output).outcome w = ((s', .ok ()), w')) :
    s' = { s₁ with images := {} } ∧ ∃ d' content entries,
      Embeds bytes s₁.images ws s₁.options.images l d₁ d' ∧ s₁.content? = some content ∧
      Nonempty (Archived ws l content d' entries) ∧
      w'.disk.content output = .ok (.archive entries) := by
  obtain ⟨ws', content, n, w₁, hws, hcontent, hends, hstore, rfl⟩ := exists_of_saved hsaved
  obtain ⟨hsame, hsame'⟩ := h.workspace?_eq
  rw [hsame, hworkspace, Option.some.injEq] at hws
  subst hws
  rw [hsame'] at hcontent
  obtain ⟨d', hsession, hembeds, hsince⟩ := h.of_ends attempt.images attempt.reads hends
  obtain ⟨filled, m, w₂, w₃, hwrite, rfl, hdisk, hpack⟩ := exists_of_ends_store hstore
  have hcurrent : w₂.disk.current = w.disk.current := (Disk.current_of_write hwrite).trans
    (Images.changes_of_ends_embedAll attempt.images hends).current_eq
  have houtput : ¬ l <+: output.target w₂.disk.current := by
    rw [hcurrent, ← (fixed.names w.disk.current).target_eq]
    exact attempt.output
  have harchive := Package.content_of_ends_pack (fixed.names _).target_eq houtput hpack
  rw [hdisk] at harchive
  refine ⟨hsession, d', content, _, hembeds, hcontent, ⟨w₂.disk, ?_, ?_, fun k hk => ?_, rfl⟩,
    harchive⟩
  · exact Disk.tidy_of_write hwrite (hsince.tidy (hembeds.tidy htidy))
  · rw [Disk.directory_of_write hwrite]
    refine Disk.node?_of_mem_way (Disk.exists_of_write hwrite).1
      ((Workspace.mem_way_pathOf_iff isName_document ws _ _).2 (Or.inr ?_))
    rw [(fixed.names _).target_eq]
    exact Disk.mem_passed_of_ne_nil (Split.on_ne_nil _ _)
  · have hplace : ws.document.target w₁.disk.current = ws.place [] Part.document := by
      rw [Workspace.document, Workspace.target_pathOf isName_document, fixed.place_eq]
    rw [Disk.file?_of_write hwrite, hplace]
    split
    · rfl
    · next hother => exact hsince.file?_eq k hk hother

/-- What is embedded has names like all other files. -/
theorem Settled.slashless_of_embeds (h : Settled ws l d₁) (fixed : ws.Fixed l)
    {options : EmbedOptions} {t : Images} (hembeds : Embeds bytes t ws options l d₁ d') :
    d'.Slashless l := by
  intro k content hfile
  have hpart : ∀ part, l ++ k = ws.place [] part → ∀ name ∈ k, '/' ∉ name.toList := by
    intro part heq
    rw [Workspace.place, (fixed.names []).target_eq, List.append_cancel_left_eq] at heq
    rw [heq]
    exact fun _ => Split.not_mem_of_mem_on
  by_cases hrelationships : l ++ k = ws.place [] Part.relationships
  · exact hpart _ hrelationships
  by_cases htypes : l ++ k = ws.place [] Part.contentTypes
  · exact hpart _ htypes
  by_cases hmedia : MediaPlace ws [] t.entries (l ++ k)
  · obtain ⟨image, -, heq⟩ := hmedia
    exact hpart _ heq
  · rw [hembeds.file?_eq fixed (List.prefix_append _ _) hrelationships htypes hmedia] at hfile
    exact h.slashless k content hfile

/-! ## What is written -/

/-- What an archive holds of a session that savings started from, on the disk `d`. -/
structure Delivered (bytes : Image → Bytes) (ws : Workspace) (s : Session) (d : Disk)
    (entries : List Archive.Entry) : Prop where
  /-- No name is used twice. -/
  nodup : (entries.map (·.name)).Nodup
  document : Archive.dataOf? entries Part.document = s.content?
  /-- No image is lost: each name has the bytes of the last image with it. -/
  media : ∀ name image, Images.lastNamed? s.images.entries name = some image →
    Archive.dataOf? entries (Image.part name) = some (bytes image)
  /-- No image is linked twice: the links stand before the relationships of the package, once
      each. -/
  links : s.images.entries ≠ [] →
    (∀ text, ws.part? d Part.relationships = some text →
      Table.Rooted Relationship.root text) →
    ∃ old text, ws.links d = .ok old ∧ Archive.dataOf? entries Part.relationships = some text ∧
      Relationship.readAll text =
        .ok ((s.images.entries.map (link s.options.images)).reverse ++ old) ∧
      ((old.map (·.id)).Nodup →
        (((s.images.entries.map (link s.options.images)).reverse ++ old).map (·.id)).Nodup)

/-- The archive of an embedded table delivers its images. -/
theorem Settled.delivered (h : Settled ws l d₁) (fixed : ws.Fixed l)
    (hdistinct : s₁.images.Distinct) {content : Bytes} (hcontent : s₁.content? = some content)
    {entries : List Archive.Entry}
    (hembeds : Embeds bytes s₁.images ws s₁.options.images l d₁ d')
    (harchived : Archived ws l content d' entries) : Delivered bytes ws s₁ d₁ entries := by
  have hslashless := h.slashless_of_embeds fixed hembeds
  have hdata := harchived.dataOf?_eq fixed hslashless
  refine ⟨harchived.nodup_names fixed hslashless, ?_, fun name image hlast => ?_, fun hne hrooted => ?_⟩
  · rw [hdata, if_pos rfl, hcontent]
  · have hother : Image.part name ≠ Part.document := by
      intro heq
      have hchars := congrArg String.toList heq
      simp [Image.part, Part.media, Part.document, String.toList_append] at hchars
    rw [hdata, if_neg hother, fixed.part?_eq, hembeds.media_bytes fixed hlast]
  · obtain ⟨old, text, hold, htext, hlinks, hids⟩ :=
      hembeds.exists_links fixed h.homed hne hdistinct hrooted
    refine ⟨old, text, hold, ?_, hlinks, hids⟩
    rw [hdata, if_neg (by decide), htext]

/-- After a rendering, images may be registered and savings may fail as they like. Whichever saving
    succeeds, it writes what a single one would have written that succeeds at once, and nothing is
    left to embed. The renderer may be any, so it is the disk behind it that is proper. -/
theorem archive_of_attempted {s₂ s₃ : Session} {w₂ w₃ w₄ : World}
    (hrender : (s.render template data images).outcome w = ((s₀, .ok ()), w₀))
    (hproper : w₀.disk.Proper) (hworkspace : s₀.workspace? = some ws)
    (hregistered : Registered ws s₀ w₀ s₁ w₁) (hattempted : Attempted bytes ws s₁ w₁ s₂ w₂)
    (hbetween : Spares ws w₂.disk w₃.disk) (hattempt : Attempt bytes ws s₂ w₃ output)
    (hsaved : (s₂.save output).outcome w₃ = ((s₃, .ok ()), w₄)) :
    s₃ = { s₁ with images := {} } ∧ ∃ entries,
      w₄.disk.content output = .ok (.archive entries) ∧
      Delivered bytes ws s₁ w₁.disk entries ∧
      ∀ {first : Path} {v v' : World} {s' : Session}, Spares ws w₁.disk v.disk →
        Attempt bytes ws s₁ v first → (s₁.save first).outcome v = ((s', .ok ()), v') →
        v'.disk.content first = .ok (.archive entries) := by
  obtain ⟨fixed, hdistinct⟩ := fixed_of_rendered hrender hworkspace
  obtain ⟨t, rfl, hdistinct', hsettled⟩ :=
    hregistered.exists_eq fixed (settled_of_proper hproper ws _) hdistinct
  have hcourse := (Course.of_attempted hattempted fixed hworkspace).spares fixed hbetween
  obtain ⟨hs₃, d', content, entries, hembeds, hcontent, ⟨harchived⟩, harchive⟩ :=
    hcourse.exists_archived fixed hsettled.tidy hworkspace hattempt hsaved
  refine ⟨hs₃, entries, harchive,
    hsettled.delivered fixed hdistinct' hcontent hembeds harchived, ?_⟩
  intro first v v' s' hspares hfirst hsaved'
  -- A single saving is a history with nothing before it.
  have hstart : Course bytes ws _ { s₀ with images := t } w₁.disk { s₀ with images := t } v.disk :=
    (Course.pending (.refl _ _ _)).spares fixed hspares
  obtain ⟨-, d'', content', entries', hembeds', hcontent', ⟨harchived'⟩, harchive'⟩ :=
    hstart.exists_archived fixed hsettled.tidy hworkspace hfirst hsaved'
  rw [hcontent, Option.some.injEq] at hcontent'
  subst hcontent'
  rw [harchive', harchived.entries_agree harchived' (fixed.names []).nonroot fun k hk =>
    hembeds.bytes_agree fixed hsettled.homed hembeds' hk]

/-- A disk with a template and an image. -/
def imageWorld : World where
  disk := { nodes := [
    (["t"], .file (.archive [.make Part.document .stored (Bytes.ofString "<a/>"),
      .make Part.contentTypes .stored (Bytes.ofString "<Types/>")])),
    (["i.png"], .file (.plain [0x89]))] }

/-- Rendering the template with the image. -/
def imageRendered : (Session × Except Error Unit) × World :=
  (Session.render { options := {}, renderer := .ofSubstitution {} } ⟨"/t"⟩ {}
    [("a", ⟨"/i.png"⟩)]).outcome imageWorld

theorem render_image : (Session.render { options := {}, renderer := .ofSubstitution {} } ⟨"/t"⟩ {}
    [("a", ⟨"/i.png"⟩)]).outcome imageWorld = imageRendered := rfl

-- What follows is about savings. The rendering is not to be run again for it.
attribute [irreducible] imageRendered

/-- The workspace that is made. -/
def imageWorkspace : Workspace := ⟨⟨"/tmp/docxgen_000000"⟩, false⟩

/-- There is a directory in the place of the image. -/
def hindered : World := { imageRendered.2 with disk := imageRendered.2.disk.put ["i.png"] .directory }

/-- A saving that does not get to the image. -/
def hinderedSaving : (Session × Except Error Unit) × World :=
  (imageRendered.1.1.save ⟨"/o"⟩).outcome hindered

/-- The image is back. -/
def restored : World :=
  { hinderedSaving.2 with disk := hinderedSaving.2.disk.put ["i.png"] (.file (.plain [0x89])) }

/-- A saving that embeds it, but to a directory that does not exist. -/
def astraySaving : (Session × Except Error Unit) × World :=
  (hinderedSaving.1.1.save ⟨"/no/o"⟩).outcome restored

/-- A saving that succeeds. -/
def lastSaving : (Session × Except Error Unit) × World :=
  (astraySaving.1.1.save ⟨"/o"⟩).outcome astraySaving.2

/-- The only saving of another course. -/
def onlySaving : (Session × Except Error Unit) × World :=
  (imageRendered.1.1.save ⟨"/p"⟩).outcome imageRendered.2

/-- A saving of the image is one that may be tried, also if the image is not there. -/
theorem attempt_image (hcurrent : w.disk.current = [])
    (houtput : ¬ imageWorkspace.root.target [] <+: output.target [])
    (himages : ∀ image ∈ s.images.entries, image = ⟨"a", ⟨"/i.png"⟩⟩)
    (hfile : w.disk.file? ["i.png"] = none ∨ w.disk.file? ["i.png"] = some (.plain [0x89])) :
    Attempt (fun _ => [0x89]) imageWorkspace s w output := by
  refine ⟨by rwa [hcurrent], fun image himage => ?_, fun image himage content hcontent => ?_⟩
  · rw [himages image himage, hcurrent]
    decide
  · have htarget : image.path.target w.disk.current = ["i.png"] := by
      rw [himages image himage, hcurrent]
      rfl
    rw [htarget] at hcontent
    rcases hfile with hnone | hsome
    · rw [hnone] at hcontent
      cases hcontent
    · rw [hsome, Option.some.injEq] at hcontent
      rw [← hcontent]
      rfl

theorem spares_image (hcurrent : d.current = []) (node : Node) :
    Spares imageWorkspace d (d.put ["i.png"] node) := by
  refine Spares.of_put ?_ (List.cons_ne_nil _ _) node
  rw [hcurrent]
  decide

/-- How the savings go. -/
theorem image_runs :
    (imageRendered.1.2 = .ok () ∧ imageRendered.2.disk.Proper ∧
      imageRendered.1.1.workspace? = some imageWorkspace ∧
      imageRendered.1.1.images.entries = [⟨"a", ⟨"/i.png"⟩⟩] ∧
      imageRendered.2.disk.current = [] ∧
      imageRendered.2.disk.file? ["i.png"] = some (.plain [0x89])) ∧
    (hinderedSaving.1.1.images.entries = [⟨"a", ⟨"/i.png"⟩⟩] ∧
      hinderedSaving.2.disk.current = []) ∧
    (astraySaving.1.2 ≠ .ok () ∧ astraySaving.1.1.images.entries = [] ∧
      astraySaving.2.disk.current = [] ∧
      astraySaving.2.disk.file? ["i.png"] = some (.plain [0x89])) ∧
    lastSaving.1.2 = .ok () ∧ onlySaving.1.2 = .ok () := by
  decide +kernel

theorem file?_put_image (d : Disk) (node : Node) :
    (d.put ["i.png"] node).file? ["i.png"] =
      match node with | .file content => some content | .directory => none := by
  rw [Disk.file?, Disk.node?_put (List.cons_ne_nil _ _), if_pos rfl]
  cases node <;> rfl

theorem attempted_image : Attempted (fun _ => [0x89]) imageWorkspace imageRendered.1.1
    imageRendered.2 astraySaving.1.1 astraySaving.2 := by
  obtain ⟨⟨-, -, -, himages, hcurrent, -⟩, ⟨himages', hcurrent'⟩, -, -⟩ := image_runs
  have hfirst : Attempt (fun _ => [0x89]) imageWorkspace imageRendered.1.1 hindered ⟨"/o"⟩ := by
    refine attempt_image ?_ (by decide) ?_ (Or.inl ?_)
    · exact (Disk.current_put _ _ _).trans hcurrent
    · rw [himages]
      exact fun _ => List.mem_singleton.1
    · exact file?_put_image _ .directory
  have hsecond : Attempt (fun _ => [0x89]) imageWorkspace hinderedSaving.1.1 restored ⟨"/no/o"⟩ := by
    refine attempt_image ?_ (by decide) ?_ (Or.inr ?_)
    · exact (Disk.current_put _ _ _).trans hcurrent'
    · rw [himages']
      exact fun _ => List.mem_singleton.1
    · exact file?_put_image _ (.file (.plain [0x89]))
  have hbefore : Attempted (fun _ => [0x89]) imageWorkspace imageRendered.1.1 imageRendered.2
      hinderedSaving.1.1 hinderedSaving.2 :=
    Attempted.none.save (spares_image hcurrent .directory) hfirst
  exact hbefore.save (spares_image hcurrent' _) hsecond

theorem archive_of_attempted_image :
    hinderedSaving.1.1.images.size = 1 ∧ astraySaving.1.2 ≠ .ok () ∧
    astraySaving.1.1.images.size = 0 ∧ lastSaving.1.2 = .ok () ∧ onlySaving.1.2 = .ok () ∧
    ∃ entries, lastSaving.2.disk.content ⟨"/o"⟩ = .ok (.archive entries) ∧
      onlySaving.2.disk.content ⟨"/p"⟩ = .ok (.archive entries) ∧
      Archive.dataOf? entries "word/media/i.png" = some [0x89] := by
  obtain ⟨⟨hrendered, hproper, hroot, himages, hcurrent, hfile⟩, ⟨himages', -⟩,
    ⟨hastray, hembedded, hcurrent', hfile'⟩, hlast, honly⟩ := image_runs
  have hattempt : Attempt (fun _ => [0x89]) imageWorkspace astraySaving.1.1 astraySaving.2
      ⟨"/o"⟩ := by
    refine attempt_image hcurrent' (by decide) ?_ (Or.inr hfile')
    rw [hembedded]
    exact fun _ h => absurd h List.not_mem_nil
  have hattempt' : Attempt (fun _ => [0x89]) imageWorkspace imageRendered.1.1 imageRendered.2
      ⟨"/p"⟩ := by
    refine attempt_image hcurrent (by decide) ?_ (Or.inr hfile)
    rw [himages]
    exact fun _ => List.mem_singleton.1
  have hrender := render_image.trans (eq_of_ended imageRendered hrendered)
  obtain ⟨-, entries, houtput, hdelivered, hsame⟩ := archive_of_attempted hrender
    hproper hroot .none attempted_image (.refl _ _) hattempt (eq_of_ended lastSaving hlast)
  refine ⟨?_, hastray, ?_, hlast, honly, entries, houtput,
    hsame (.refl _ _) hattempt' (eq_of_ended onlySaving honly), ?_⟩
  · rw [Images.size, himages']
    rfl
  · rw [Images.size, hembedded]
    rfl
  · refine hdelivered.media "i.png" ⟨"a", ⟨"/i.png"⟩⟩ ?_
    rw [himages]
    decide

end Session

end DocxTemplate
