import DocxTemplate.Proofs.Embedding.Steps
import DocxTemplate.Proofs.Package.Entries
import DocxTemplate.Proofs.Session.Calls

/-! # What opening a template gives

    Before a document is filled, the images are registered and the template is unpacked into a
    workspace that did not exist before.

    * `Images.registered_of_ends`: the table that a list of images makes.
    * `Session.Opened`, `Session.opened_of_ends`: the disk behind a successful unpacking.
    * `Session.text_of_ends`: the main document is the one in the template.
-/

namespace DocxTemplate

open Job

variable {w w' : World}

/-! ## Images -/

/-- An error of the work itself. A call that cannot start has one of the two others. -/
def Error.Inner (e : Error) : Prop := e ≠ .notRendered ∧ ∀ p, e ≠ .inputNotFound p

theorem inner_systemError (p : Path) (fault : SystemFault) : (systemError p fault).Inner := by
  simp [systemError, Error.Inner]

namespace Images

/-- Registering an image only logs it. -/
theorem keeps_add (t : Images) (reference : String) (path : Path) :
    Job.Keeps Logs Error.Inner (t.add reference path) := by
  rw [add]
  split
  · exact Keeps.throw_bind logs_chains (by simp [Error.Inner]) _
  · refine Keeps.bind logs_chains (Keeps.ask logs_chains _) fun isFile => ?_
    dsimp only
    split
    · exact Keeps.throw_bind logs_chains (by simp [Error.Inner]) _
    · refine Keeps.bind logs_chains (Keeps.ofAct (Act.keeps_log (Or.inr ?_))) fun _ =>
        Keeps.pure logs_chains _
      simp [String.toList_append, toString]

theorem keeps_ofList (images : List (String × Path)) :
    Job.Keeps Logs Error.Inner (ofList images) :=
  Keeps.foldlM logs_chains _ fun t image _ => t.keeps_add image.1 image.2

/-- The table of a list of images. -/
theorem registered_of_ends {images : List (String × Path)} {table : Images}
    (h : Ends (ofList images) w table w') :
    table.entries = images.map (fun image => ⟨image.1, image.2⟩) ∧ table.Distinct := by
  refine foldlM_induction (P := fun done (t : Images) _ =>
    t.entries = done.map (fun image => ⟨image.1, image.2⟩) ∧ t.Distinct) ?_ ?_ h
  · rintro done ⟨reference, path⟩ t w₁ t' w₂ _ ⟨hentries, hdistinct⟩ hadd
    obtain ⟨rfl, hdistinct'⟩ := distinct_of_ends_add hadd hdistinct
    refine ⟨?_, hdistinct'⟩
    dsimp only
    rw [hentries, List.map_append]
    rfl
  · exact ⟨rfl, List.nodup_nil⟩

end Images

namespace Session

open Package

/-! ## Packages -/

variable {options : Options} {template : Path} {ws : Workspace} {entries : List Archive.Entry}

/-- A template that was a file is opened as it was, if files only went since then. -/
theorem openEntries_before {d d' : Disk} (hloses : d.Loses d') (hfile : d.isFile template = true)
    (h : openEntries d' template = .ok entries) : openEntries d template = .ok entries := by
  rw [openEntries] at h ⊢
  cases hcontent : d'.content template with
  | error fault =>
    rw [hcontent] at h
    cases h
  | ok content =>
    obtain ⟨content', hbefore⟩ := Disk.isFile_iff.1 hfile
    have hsame := hloses.file?_before _ _ (Disk.content_eq_ok_iff.1 hcontent).2
    rw [hloses.current_eq, (Disk.content_eq_ok_iff.1 hbefore).2, Option.some.injEq] at hsame
    rw [hcontent] at h
    rw [hbefore, hsame]
    exact h

/-- A template that is unpacked successfully is unpacked into a new workspace. -/
theorem exists_created_of_ends (h : Ends (unpackTemplate options template) w ws w') :
    ws.kept = options.keepWorkspace ∧ ∃ w₁ n,
      Workspace.Created (workspaceDirectory options w.temporary) ws.root w w₁ ∧
      Ends (Package.unpack template ws.root) w₁ n w' := by
  have hopening := opening_outcome options template w
  rw [h] at hopening
  obtain _ | _ | ⟨hcreate, hunpack⟩ := hopening
  exact ⟨rfl, _, _, (Workspace.created_of_ends hcreate).2, hunpack⟩

/-- Its files are those of the template. -/
theorem unpacked_of_created {directory : Path} {w₁ : World} {n : Nat}
    (hcreated : Workspace.Created directory ws.root w w₁)
    (hunpack : Ends (Package.unpack template ws.root) w₁ n w') :
    Unpacked template (ws.root.target w.disk.current) w₁.disk w'.disk := by
  have hnames := hcreated.names
  have hcurrent := hcreated.current_eq
  have hfind := Disk.find_of_isDirectory hcreated.isDirectory
  rw [hcurrent] at hfind
  exact unpacked_of_ends (hcurrent ▸ hnames) hfind hunpack

theorem loses_of_created {directory : Path} {w₁ : World}
    (hcreated : Workspace.Created directory ws.root w w₁) : w.disk.Loses w₁.disk := by
  refine ⟨hcreated.current_eq, fun k content hk => ?_⟩
  rwa [hcreated.file?_eq] at hk

/-- The disk behind the unpacking of a template into a new workspace. -/
structure Opened (template : Path) (ws : Workspace) (d d' : Disk) : Prop where
  current_eq : d'.current = d.current
  names : Disk.Names ws.root d.current (ws.root.target d.current)
  tidy : d'.Tidy (ws.root.target d.current)
  outside : ∀ k, ¬ ws.root.target d.current <+: k → d'.file? k = d.file? k
  inside : ∃ entries, openEntries d template = .ok entries ∧
    ∀ k, d'.file? (ws.root.target d.current ++ k) = (dataAt? entries k).map Content.plain

theorem opened_of_ends (hfile : w.disk.isFile template = true)
    (h : Ends (unpackTemplate options template) w ws w') :
    ws.kept = options.keepWorkspace ∧ Opened template ws w.disk w'.disk := by
  obtain ⟨hkept, w₁, n, hcreated, hunpack⟩ := exists_created_of_ends h
  have hunpacked := unpacked_of_created hcreated hunpack
  refine ⟨hkept, hunpacked.current_eq.trans hcreated.current_eq, hcreated.names, hunpacked.tidy,
    fun k hk => ?_, ?_⟩
  · rw [hunpacked.file?_eq k hk, hcreated.file?_eq]
  · obtain ⟨entries, hopen, -, hinside⟩ := hunpacked.unpacked
    exact ⟨entries, openEntries_before (loses_of_created hcreated) hfile hopen, hinside⟩

/-! ## The main document -/

theorem isName_document : ∀ name ∈ Split.on '/' Part.document, Path.IsName name := by decide

theorem text_of_ends {text : Bytes} (h : Ends (documentText ws) w text w') :
    w' = w ∧ ws.part? w.disk Part.document = some text := by
  rw [Ends, outcome_documentText, Prod.mk.injEq] at h
  obtain ⟨hread, rfl⟩ := h
  refine ⟨rfl, Workspace.part?_of_readText isName_document ?_⟩
  change w.disk.readText ws.document = .ok text
  split at hread
  · next hok =>
    rw [hok, Except.ok.inj hread]
  · cases hread
  · cases hread

end Session

end DocxTemplate
