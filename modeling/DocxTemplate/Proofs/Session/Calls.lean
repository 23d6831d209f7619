import DocxTemplate.Proofs.Session.Filling

/-! # How calls end

    Each operation of a session stops at one of a few places. A relation with one constructor
    for each place says what the session and the world are like then.

    * `Session.Opening`, `Session.opening_outcome`: the three ends of unpacking a template.
    * `Session.RenderEnd`, `Session.render_outcome`: the five ends of `render`.
    * `Session.Rendering`, `Session.rendering_outcome`: the same if placeholders are replaced.
    * `Session.Inspecting`, `Session.inspecting_outcome`: the three ends of `inspect`.
    * `Session.Saving`, `Session.saving_outcome`: the three ends of `save`.
-/

namespace DocxTemplate

namespace Session

open Job

/-- The session with nothing rendered. -/
def cleared (s : Session) : Session := { options := s.options, renderer := s.renderer }

/-- Resetting a session does to the world what ending it does. -/
theorem outcome_reset (s : Session) (w : World) :
    s.reset.outcome w = (s.cleared, (s.finish.outcome w).2) := by
  unfold reset finish
  cases s.workspace? <;> rfl

variable {s : Session} {substitution : Substitution} {template : Path} {data : Data}
  {images : List (String × Path)} {w : World}

/-- The directory in which workspaces are made. -/
def workspaceDirectory (options : Options) (temporary : Path) : Path :=
  options.workspaceRoot?.getD temporary

/-- How the unpacking of a template into a new workspace ends. -/
inductive Opening (options : Options) (template : Path) (w : World) :
    Except Error Workspace × World → Prop
  | notCreated {e : Error} {w' : World}
      (h : (Workspace.create (workspaceDirectory options w.temporary)).outcome w = (.error e, w')) :
      Opening options template w (.error e, w')
  | notUnpacked {ws : Workspace} {e : Error} {w₁ w₂ : World}
      (hcreate : Ends (Workspace.create (workspaceDirectory options w.temporary)) w ws w₁)
      (h : (Package.unpack template ws.root).outcome w₁ = (.error e, w₂)) :
      Opening options template w
        (.error e, (({ ws with kept := options.keepWorkspace } : Workspace).release.outcome w₂).2)
  | done {ws : Workspace} {n : Nat} {w₁ w' : World}
      (hcreate : Ends (Workspace.create (workspaceDirectory options w.temporary)) w ws w₁)
      (hunpack : Ends (Package.unpack template ws.root) w₁ n w') :
      Opening options template w (.ok { ws with kept := options.keepWorkspace }, w')

theorem opening_outcome (options : Options) (template : Path) (w : World) :
    Opening options template w ((unpackTemplate options template).outcome w) := by
  have hrun : (unpackTemplate options template).outcome w =
      (do
        let workspace ← Workspace.create (workspaceDirectory options w.temporary)
        let workspace := { workspace with kept := options.keepWorkspace }
        let _ ← (Package.unpack template workspace.root).onError workspace.release
        return workspace : Job Workspace).outcome w := by
    rw [unpackTemplate, workspaceDirectory]
    cases options.workspaceRoot? with
    | none =>
      dsimp only
      rw [outcome_bind, outcome_ofAct]
      rfl
    | some root =>
      dsimp only
      rw [outcome_bind, outcome_pure]
      rfl
  rw [hrun, outcome_bind]
  cases hcreate : (Workspace.create (workspaceDirectory options w.temporary)).outcome w with
  | mk result w₁ =>
    cases result with
    | error e => exact .notCreated hcreate
    | ok ws =>
      dsimp only
      rw [outcome_bind, outcome_onError]
      cases hunpack : (Package.unpack template ws.root).outcome w₁ with
      | mk result w₂ =>
        cases result with
        | error e => exact .notUnpacked hcreate hunpack
        | ok n => exact .done hcreate hunpack

/-- How a rendering ends, whatever the renderer does. The old workspace is given up first. -/
inductive RenderEnd (s : Session) (template : Path) (data : Data) (images : List (String × Path))
    (w : World) : (Session × Except Error Unit) × World → Prop
  | missing (h : w.disk.isFile template = false) :
      RenderEnd s template data images w ((s, .error (.inputNotFound template)), w)
  | badImages {e : Error} {w' : World} (hfile : w.disk.isFile template = true)
      (h : (Images.ofList images).outcome (s.finish.outcome w).2 = (.error e, w')) :
      RenderEnd s template data images w ((s.cleared, .error e), w')
  | badPackage {table : Images} {e : Error} {w₁ w' : World}
      (hfile : w.disk.isFile template = true)
      (himages : Ends (Images.ofList images) (s.finish.outcome w).2 table w₁)
      (h : (unpackTemplate s.options template).outcome w₁ = (.error e, w')) :
      RenderEnd s template data images w ((s.cleared, .error e), w')
  | notFilled {table : Images} {ws : Workspace} {warnings : List Sanitize.Warning} {e : Error}
      {w₁ w₂ w₃ : World} (hfile : w.disk.isFile template = true)
      (himages : Ends (Images.ofList images) (s.finish.outcome w).2 table w₁)
      (hpackage : Ends (unpackTemplate s.options template) w₁ ws w₂)
      (h : (s.cleared.fillDocument ws data).outcome w₂ = ((warnings, .error e), w₃)) :
      RenderEnd s template data images w
        (({ s.cleared with warnings := warnings }, .error e), (ws.release.outcome w₃).2)
  | done {table : Images} {ws : Workspace} {warnings : List Sanitize.Warning} {content : Bytes}
      {w₁ w₂ w₃ w' : World} (hfile : w.disk.isFile template = true)
      (himages : Ends (Images.ofList images) (s.finish.outcome w).2 table w₁)
      (hpackage : Ends (unpackTemplate s.options template) w₁ ws w₂)
      (hfilled : (s.cleared.fillDocument ws data).outcome w₂ = ((warnings, .ok content), w₃))
      (hlogs : Logs w₃ w') :
      RenderEnd s template data images w
        (({ s.cleared with
            workspace? := some ws
            content? := some content
            images := table
            warnings := warnings }, .ok ()), w')

theorem render_outcome (s : Session) (template : Path) (data : Data)
    (images : List (String × Path)) (w : World) :
    RenderEnd s template data images w ((s.render template data images).outcome w) := by
  rw [render, Act.outcome_bind, Act.outcome_ask]
  dsimp only
  cases hfile : w.disk.isFile template with
  | false => exact .missing hfile
  | true =>
    rw [Bool.not_true, if_neg Bool.false_ne_true, Act.outcome_bind, outcome_reset, Act.outcome_bind,
      Act.outcome_ofJob]
    cases himages : (Images.ofList images).outcome (s.finish.outcome w).2 with
    | mk result w₁ =>
      cases result with
      | error e => exact .badImages hfile himages
      | ok table =>
        dsimp only
        rw [Act.outcome_bind, Act.outcome_ofJob]
        have hoptions : s.cleared.options = s.options := rfl
        rw [hoptions]
        cases hpackage : (unpackTemplate s.options template).outcome w₁ with
        | mk result w₂ =>
          cases result with
          | error e => exact .badPackage hfile himages hpackage
          | ok ws =>
            dsimp only
            rw [Act.outcome_bind]
            cases hfilled : (s.cleared.fillDocument ws data).outcome w₂ with
            | mk filled w₃ =>
              obtain ⟨warnings, result⟩ := filled
              cases result with
              | error e => exact .notFilled hfile himages hpackage hfilled
              | ok content =>
                exact .done hfile himages hpackage hfilled (Act.keeps_log (.info _) w₃)

/-- How a rendering ends that replaces placeholders: it is not filled only if the document cannot be
    read. -/
inductive Rendering (s : Session) (substitution : Substitution) (template : Path) (data : Data)
    (images : List (String × Path)) (w : World) : (Session × Except Error Unit) × World → Prop
  | missing (h : w.disk.isFile template = false) :
      Rendering s substitution template data images w ((s, .error (.inputNotFound template)), w)
  | badImages {e : Error} {w' : World} (hfile : w.disk.isFile template = true)
      (h : (Images.ofList images).outcome (s.finish.outcome w).2 = (.error e, w')) :
      Rendering s substitution template data images w ((s.cleared, .error e), w')
  | badPackage {table : Images} {e : Error} {w₁ w' : World}
      (hfile : w.disk.isFile template = true)
      (himages : Ends (Images.ofList images) (s.finish.outcome w).2 table w₁)
      (h : (unpackTemplate s.options template).outcome w₁ = (.error e, w')) :
      Rendering s substitution template data images w ((s.cleared, .error e), w')
  | badDocument {table : Images} {ws : Workspace} {e : Error} {w₁ w₂ w₃ : World}
      (hfile : w.disk.isFile template = true)
      (himages : Ends (Images.ofList images) (s.finish.outcome w).2 table w₁)
      (hpackage : Ends (unpackTemplate s.options template) w₁ ws w₂)
      (h : (documentText ws).outcome w₂ = (.error e, w₃)) :
      Rendering s substitution template data images w
        ((s.cleared, .error e), (ws.release.outcome w₃).2)
  | done {table : Images} {ws : Workspace} {text : Bytes} {w₁ w₂ w₃ w' : World}
      (hfile : w.disk.isFile template = true)
      (himages : Ends (Images.ofList images) (s.finish.outcome w).2 table w₁)
      (hpackage : Ends (unpackTemplate s.options template) w₁ ws w₂)
      (hdocument : Ends (documentText ws) w₂ text w₃)
      (hnotes : Notes (unfilled s.options data text) w₃ w') :
      Rendering s substitution template data images w
        (({ s.cleared with
            workspace? := some ws
            content? := some (filled s.options substitution data text).2
            images := table
            warnings := (filled s.options substitution data text).1 }, .ok ()), w')

/-- Filling a document by replacing placeholders: it is read, and the rest is determined. -/
theorem fill_cases (hs : s.renderer = .ofSubstitution substitution) (ws : Workspace) (data : Data)
    (w : World) :
    (∃ e w', (documentText ws).outcome w = (.error e, w') ∧
      (s.cleared.fillDocument ws data).outcome w = (([], .error e), w')) ∨
    ∃ text w' w'', Ends (documentText ws) w text w' ∧ Notes (unfilled s.options data text) w' w'' ∧
      (s.cleared.fillDocument ws data).outcome w =
        (((filled s.options substitution data text).1,
          .ok (filled s.options substitution data text).2), w'') := by
  cases hdocument : (documentText ws).outcome w with
  | mk result w₁ =>
    cases result with
    | error e => exact Or.inl ⟨e, w₁, rfl, outcome_fillDocument_of_error hdocument data⟩
    | ok text =>
      have hcleared : s.cleared.renderer = .ofSubstitution substitution := hs
      obtain ⟨w₂, hfilled, hnotes⟩ := exists_outcome_fillDocument hcleared hdocument data
      exact Or.inr ⟨text, w₁, w₂, hdocument, hnotes, hfilled⟩

theorem rendering_outcome (hs : s.renderer = .ofSubstitution substitution) (template : Path)
    (data : Data) (images : List (String × Path)) (w : World) :
    Rendering s substitution template data images w
      ((s.render template data images).outcome w) := by
  have hend := render_outcome s template data images w
  generalize (s.render template data images).outcome w = run at hend ⊢
  cases hend with
  | missing h => exact .missing h
  | badImages hfile h => exact .badImages hfile h
  | badPackage hfile himages h => exact .badPackage hfile himages h
  | @notFilled table ws warnings e w₁ w₂ w₃ hfile himages hpackage h =>
    obtain ⟨e', w', hdocument, hfilled⟩ | ⟨text, w', w'', hdocument, hnotes, hfilled⟩ :=
      fill_cases hs ws data w₂
    · cases h.symm.trans hfilled
      exact .badDocument hfile himages hpackage hdocument
    · cases h.symm.trans hfilled
  | @done table ws warnings content w₁ w₂ w₃ w' hfile himages hpackage hfilled hlogs =>
    obtain ⟨e', w', hdocument, hfilled'⟩ | ⟨text, w', w'', hdocument, hnotes, hfilled'⟩ :=
      fill_cases hs ws data w₂
    · cases hfilled.symm.trans hfilled'
    · cases hfilled.symm.trans hfilled'
      exact .done hfile himages hpackage hdocument (hnotes.trans_logs hlogs)

/-- What a successful rendering comes to. -/
theorem exists_of_rendered {s' : Session} {w' : World}
    (hs : s.renderer = .ofSubstitution substitution)
    (h : (s.render template data images).outcome w = ((s', .ok ()), w')) :
    ∃ table ws text w₁ w₂ w₃, w.disk.isFile template = true ∧
      Ends (Images.ofList images) (s.finish.outcome w).2 table w₁ ∧
      Ends (unpackTemplate s.options template) w₁ ws w₂ ∧
      Ends (documentText ws) w₂ text w₃ ∧ Notes (unfilled s.options data text) w₃ w' ∧
      s' = { s.cleared with
        workspace? := some ws
        content? := some (filled s.options substitution data text).2
        images := table
        warnings := (filled s.options substitution data text).1 } := by
  have hrendering := rendering_outcome hs template data images w
  rw [h] at hrendering
  obtain _ | _ | _ | _ | ⟨hfile, himages, hpackage, hdocument, hnotes⟩ := hrendering
  exact ⟨_, _, _, _, _, _, hfile, himages, hpackage, hdocument, hnotes, rfl⟩

/-- How an inspection ends. -/
inductive Inspecting (s : Session) (template : Path) (w : World) :
    Except Error Inspection × World → Prop
  | missing (h : w.disk.isFile template = false) :
      Inspecting s template w (.error (.inputNotFound template), w)
  | badPackage {e : Error} {w' : World}
      (h : (unpackTemplate s.options template).outcome w = (.error e, w')) :
      Inspecting s template w (.error e, w')
  | done {ws : Workspace} {w₁ : World} {result : Except Error Inspection}
      (hpackage : Ends (unpackTemplate s.options template) w ws w₁) :
      Inspecting s template w
        (result, (ws.release.outcome ((documentText ws).outcome w₁).2).2)

theorem inspecting_outcome (s : Session) (template : Path) (w : World) :
    Inspecting s template w ((s.inspect template).outcome w) := by
  rw [inspect, outcome_bind, ask, outcome_ofAct, Act.outcome_ask]
  dsimp only
  cases hfile : w.disk.isFile template with
  | false => exact .missing hfile
  | true =>
    rw [Bool.not_true, if_neg Bool.false_ne_true, outcome_bind]
    cases hpackage : (unpackTemplate s.options template).outcome w with
    | mk result w₁ =>
      cases result with
      | error e => exact .badPackage hpackage
      | ok ws =>
        dsimp only
        rw [outcome_bind, outcome_ensuring]
        cases ((documentText ws).outcome w₁).1 <;> exact .done hpackage

/-- What a successful inspection comes to. -/
theorem exists_of_inspected {found : Inspection} {w' : World}
    (h : Ends (s.inspect template) w found w') :
    ∃ ws text w₁ w₂, w.disk.isFile template = true ∧
      Ends (unpackTemplate s.options template) w ws w₁ ∧ Ends (documentText ws) w₁ text w₂ ∧
      found = inspectSource s.options.rules (sourceOf s.options text) := by
  obtain ⟨isFile, w₀, hask, hrest⟩ := ends_bind_iff.1 h
  obtain ⟨hfile, rfl⟩ := ends_ask_iff.1 hask
  dsimp only at hrest
  split at hrest
  · obtain ⟨u, w₁, hthrow, -⟩ := ends_bind_iff.1 hrest
    exact absurd hthrow not_ends_throw
  · next hisFile =>
    obtain ⟨ws, w₁, hpackage, hread⟩ := ends_bind_iff.1 hrest
    obtain ⟨text, w₂, hdocument, hend⟩ := ends_bind_iff.1 hread
    obtain ⟨w₃, htext, -⟩ := ends_ensuring_iff.1 hdocument
    rw [Bool.not_eq_true', Bool.not_eq_false] at hisFile
    exact ⟨ws, text, w₁, w₃, hfile ▸ hisFile, hpackage, htext, (ends_pure_iff.1 hend).1⟩

/-- How a saving ends. -/
inductive Saving (s : Session) (output : Path) (w : World) :
    (Session × Except Error Unit) × World → Prop
  | notRendered (h : s.workspace? = none ∨ s.content? = none) :
      Saving s output w ((s, .error .notRendered), w)
  | notEmbedded {ws : Workspace} {content : Bytes} {e : Error} {w' : World}
      (hworkspace : s.workspace? = some ws) (hcontent : s.content? = some content)
      (h : (s.images.embedAll ws s.options.images).outcome w = (.error e, w')) :
      Saving s output w ((s, .error e), w')
  | stored {ws : Workspace} {content : Bytes} {n : Nat} {result : Except Error Unit}
      {w₁ w' : World} (hworkspace : s.workspace? = some ws) (hcontent : s.content? = some content)
      (hembedded : Ends (s.images.embedAll ws s.options.images) w n w₁)
      (h : (store s.options ws content output).outcome w₁ = (result, w')) :
      Saving s output w (({ s with images := {} }, result), w')

theorem saving_outcome (s : Session) (output : Path) (w : World) :
    Saving s output w ((s.save output).outcome w) := by
  rw [save]
  split
  · next ws content hworkspace hcontent =>
    rw [Act.outcome_bind, Act.outcome_ofJob]
    cases hembedded : (s.images.embedAll ws s.options.images).outcome w with
    | mk result w₁ =>
      cases result with
      | error e => exact .notEmbedded hworkspace hcontent hembedded
      | ok n => exact .stored hworkspace hcontent hembedded rfl
  · next hnone =>
    refine .notRendered ?_
    cases hworkspace : s.workspace? with
    | none => exact Or.inl rfl
    | some ws =>
      cases hcontent : s.content? with
      | none => exact Or.inr rfl
      | some content => exact absurd hcontent (hnone ws content hworkspace)

/-- What a successful saving comes to. -/
theorem exists_of_saved {s' : Session} {output : Path} {w' : World}
    (h : (s.save output).outcome w = ((s', .ok ()), w')) :
    ∃ ws content n w₁, s.workspace? = some ws ∧ s.content? = some content ∧
      Ends (s.images.embedAll ws s.options.images) w n w₁ ∧
      Ends (store s.options ws content output) w₁ () w' ∧ s' = { s with images := {} } := by
  have hsaving := saving_outcome s output w
  rw [h] at hsaving
  obtain _ | _ | ⟨hworkspace, hcontent, hembedded, hstore⟩ := hsaving
  exact ⟨_, _, _, _, hworkspace, hcontent, hembedded, hstore, rfl⟩

end Session

end DocxTemplate
