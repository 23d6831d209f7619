import DocxTemplate.Proofs.Session.Housekeeping
import DocxTemplate.Proofs.Session.Rendering

/-! # What holds behind all calls

    A session is called again and again, and each call may fail. Whatever was called before, the
    session holds a document with its workspace or neither of them, and no workspace is left behind.

    * `Session.Call`, `Session.reached`: calls, and the session behind a number of them.
    * `Session.Sound`: the invariant. One lemma for each call says that the call keeps it and how the
      call ends: `Sound.render_cases`, `Sound.register_cases`, `Sound.save_cases`, `Sound.of_inspect`,
      `Sound.of_discard`.
    * `Session.Contract`, `Session.contract_of_calls`: what a caller may rely on.
-/

namespace DocxTemplate

open Job

namespace Session

open Package (openEntries dataAt?)

/-! ## Calls -/

/-- A call of a session. -/
inductive Call where
  | render (template : Path) (data : Data) (images : List (String × Path))
  | register (reference : String) (path : Path)
  | save (output : Path)
  | inspect (template : Path)
  | discard

/-- The session behind a call, whether or not the call failed. -/
def Call.run (s : Session) : Call → Act Session
  | render template data images => do return (← s.render template data images).1
  | register reference path => do return (← s.register reference path).1
  | save output => do return (← s.save output).1
  | inspect template => do
    let _ ← Act.ofJob (s.inspect template)
    return s
  | discard => do return (← s.discard).1

/-- The session and the world behind some calls of a fresh session. -/
def reached (options : Options) (substitution : Substitution) (calls : List Call) (w : World) :
    Session × World :=
  (calls.foldlM Call.run { options, renderer := .ofSubstitution substitution }).outcome w

/-! ## The invariant -/

variable {options : Options} {substitution : Substitution} {template : Path} {data : Data}
  {images : List (String × Path)} {w₀ w w' : World} {s s' : Session} {live : List Path}

/-- The workspaces `live` are in use, and no others made since the world `w₀` are left. -/
abbrev Tidied (options : Options) (w₀ : World) (live : List Path) (w : World) : Prop :=
  Tended w₀ (workspaceDirectory options w₀.temporary) options.keepWorkspace live w

/-- What holds of a session between two calls. -/
structure Sound (options : Options) (substitution : Substitution) (w₀ : World) (s : Session)
    (w : World) : Prop where
  options_eq : s.options = options
  renderer_eq : s.renderer = .ofSubstitution substitution
  content_iff : s.content?.isSome = true ↔ s.workspace?.isSome = true
  distinct : s.images.Distinct
  kept : ∀ ws, s.workspace? = some ws → ws.kept = options.keepWorkspace
  tidied : Tidied options w₀ (s.workspace?.map (·.root)).toList w

theorem inner_of_documentText {ws : Workspace} {e : Error}
    (h : (documentText ws).outcome w = (.error e, w')) : e.Inner ∧ w' = w := by
  rw [outcome_documentText, Prod.mk.injEq] at h
  obtain ⟨herror, rfl⟩ := h
  refine ⟨?_, rfl⟩
  split at herror
  · cases herror
  · cases herror
    simp [Error.Inner]
  · cases herror
    simp [Error.Inner]

namespace Sound

theorem start (options : Options) (substitution : Substitution) (w₀ : World) :
    Sound options substitution w₀ { options, renderer := .ofSubstitution substitution } w₀ :=
  ⟨rfl, rfl, Iff.rfl, List.nodup_nil, nofun, Tended.start w₀ _ _⟩

/-- The root of the current workspace is in use. -/
theorem tidied_of_some {ws : Workspace} (h : Sound options substitution w₀ s w)
    (hws : s.workspace? = some ws) : Tidied options w₀ [ws.root] w := by
  have htidied := h.tidied
  rwa [hws] at htidied

/-- Ending a session takes its workspace out of use. -/
theorem tidied_finish (h : Sound options substitution w₀ s w) :
    Tidied options w₀ [] (s.finish.outcome w).2 := by
  unfold finish
  cases hws : s.workspace? with
  | none =>
    have htidied := h.tidied
    rwa [hws] at htidied
  | some ws =>
    exact (h.tidied_of_some hws).of_release (h.kept ws hws) List.not_mem_nil

/-- A session that holds nothing is sound if no workspace is left. -/
theorem of_cleared (h : Sound options substitution w₀ s w) (htidied : Tidied options w₀ [] w') :
    Sound options substitution w₀ s.cleared w' :=
  ⟨h.options_eq, h.renderer_eq, Iff.rfl, List.nodup_nil, nofun, htidied⟩

/-- Rendering starts with nothing if the template is missing. Otherwise it leaves a sound session
    that holds nothing, or one with a document. -/
theorem render_cases (h : Sound options substitution w₀ s w)
    (hcurrent : ∀ name ∈ w₀.disk.current, Path.IsName name) (template : Path) (data : Data)
    (images : List (String × Path)) :
    (s.render template data images).outcome w = ((s, .error (.inputNotFound template)), w) ∨
    (∃ e w', (s.render template data images).outcome w = ((s.cleared, .error e), w') ∧ e.Inner ∧
      Sound options substitution w₀ s.cleared w') ∨
    ∃ s' w', (s.render template data images).outcome w = ((s', .ok ()), w') ∧
      Sound options substitution w₀ s' w' := by
  have hrendering := rendering_outcome h.renderer_eq template data images w
  have hfinish := h.tidied_finish
  generalize (s.render template data images).outcome w = run at hrendering ⊢
  have hregistered : ∀ {table w₁}, Ends (Images.ofList images) (s.finish.outcome w).2 table w₁ →
      Tidied options w₀ [] w₁ := fun himages =>
    hfinish.of_logs ((Images.keeps_ofList images).of_ends himages)
  cases hrendering with
  | missing => exact Or.inl rfl
  | badImages _ himages =>
    obtain ⟨hlogs, hinner⟩ := (Images.keeps_ofList images).of_fails himages
    exact Or.inr (Or.inl ⟨_, _, rfl, hinner, h.of_cleared (hfinish.of_logs hlogs)⟩)
  | badPackage _ himages hpackage =>
    rw [h.options_eq] at hpackage
    obtain ⟨hinner, htidied⟩ := (hregistered himages).of_not_unpacked hcurrent hpackage
    exact Or.inr (Or.inl ⟨_, _, rfl, hinner, h.of_cleared htidied⟩)
  | badDocument _ himages hpackage hdocument =>
    rw [h.options_eq] at hpackage
    obtain ⟨hkept, hnew, htidied⟩ := (hregistered himages).of_unpackTemplate hcurrent hpackage
    obtain ⟨hinner, rfl⟩ := inner_of_documentText hdocument
    exact Or.inr (Or.inl ⟨_, _, rfl, hinner, h.of_cleared (htidied.of_release hkept hnew)⟩)
  | @done table ws text w₁ w₂ w₃ w₄ _ himages hpackage hdocument hnotes =>
    rw [h.options_eq] at hpackage
    obtain ⟨hkept, -, htidied⟩ := (hregistered himages).of_unpackTemplate hcurrent hpackage
    obtain ⟨rfl, -⟩ := text_of_ends hdocument
    refine Or.inr (Or.inr ⟨_, _, rfl, h.options_eq, h.renderer_eq, by simp, ?_, ?_, ?_⟩)
    · exact (Images.registered_of_ends himages).2
    · intro ws' hws'
      cases hws'
      exact hkept
    · exact htidied.of_notes hnotes

/-- Registering an image changes the table or nothing. -/
theorem register_cases (h : Sound options substitution w₀ s w) (reference : String) (path : Path) :
    (∃ e w', (s.register reference path).outcome w = ((s, .error e), w') ∧
      Sound options substitution w₀ s w') ∨
    ∃ t w', (s.register reference path).outcome w = (({ s with images := t }, .ok ()), w') ∧
      Sound options substitution w₀ { s with images := t } w' := by
  have hkeeps := s.images.keeps_add reference path
  rw [register, Act.outcome_bind, Act.outcome_ofJob]
  cases hadd : (s.images.add reference path).outcome w with
  | mk result w₁ =>
    cases result with
    | error e =>
      have htidied := h.tidied.of_logs (hkeeps.of_fails hadd).1
      exact Or.inl ⟨e, w₁, rfl, h.options_eq, h.renderer_eq, h.content_iff, h.distinct, h.kept,
        htidied⟩
    | ok t =>
      have htidied := h.tidied.of_logs (hkeeps.of_ends hadd)
      have hnew := (Images.distinct_of_ends_add hadd h.distinct).2
      exact Or.inr ⟨t, w₁, rfl, h.options_eq, h.renderer_eq, h.content_iff, hnew, h.kept, htidied⟩

/-- Saving needs a document. With one, it does not fail for want of one. -/
theorem save_cases (h : Sound options substitution w₀ s w) (output : Path) :
    (s.content? = none ∧ (s.save output).outcome w = ((s, .error .notRendered), w)) ∨
    (s.content? ≠ none ∧ ∃ s' result w', (s.save output).outcome w = ((s', result), w') ∧
      result ≠ .error .notRendered ∧ Sound options substitution w₀ s' w') := by
  have hsaving := saving_outcome s output w
  generalize (s.save output).outcome w = run at hsaving ⊢
  cases hsaving with
  | notRendered hnone =>
    have hcontent : s.content? = none := by
      rcases hnone with hworkspace | hcontent
      · have hiff := h.content_iff
        rw [hworkspace] at hiff
        simpa using hiff
      · exact hcontent
    exact Or.inl ⟨hcontent, rfl⟩
  | @notEmbedded ws content e w' hworkspace hcontent hembedded =>
    have htidied := h.tidied_of_some hworkspace
    have hnames := htidied.names ws.root (htidied.made ws.root List.mem_cons_self)
    obtain ⟨hgrows, hinner⟩ := (keeps_embedAll hnames s.images).of_fails hembedded
    refine Or.inr ⟨by simp [hcontent], _, _, _, rfl, ?_, h.options_eq, h.renderer_eq, h.content_iff,
      h.distinct, h.kept, ?_⟩
    · intro heq
      exact hinner.1 (Except.error.inj heq)
    · rw [hworkspace]
      exact htidied.grows hgrows
  | @stored ws content n result w₁ w' hworkspace hcontent hembedded hstore =>
    have htidied := h.tidied_of_some hworkspace
    have hnames := htidied.names ws.root (htidied.made ws.root List.mem_cons_self)
    have hgrown := htidied.grows ((keeps_embedAll hnames s.images).of_ends hembedded)
    have hkeeps : Job.Keeps (Grows ws.root _ _) Error.Inner (store s.options ws content output) :=
      keeps_store hnames s.options content output
    have hstored := hkeeps w₁
    rw [hstore] at hstored
    refine Or.inr ⟨by simp [hcontent], _, _, _, rfl, ?_, h.options_eq, h.renderer_eq, h.content_iff,
      List.nodup_nil, h.kept, ?_⟩
    · intro heq
      exact (hstored.2 _ heq).1 rfl
    · dsimp only
      rw [hworkspace]
      exact hgrown.grows hstored.1

/-- An inspection takes its workspace out of use again. -/
theorem of_inspect (h : Sound options substitution w₀ s w)
    (hcurrent : ∀ name ∈ w₀.disk.current, Path.IsName name) (template : Path) :
    Sound options substitution w₀ s ((s.inspect template).outcome w).2 := by
  have hinspecting := inspecting_outcome s template w
  refine ⟨h.options_eq, h.renderer_eq, h.content_iff, h.distinct, h.kept, ?_⟩
  generalize (s.inspect template).outcome w = run at hinspecting ⊢
  cases hinspecting with
  | missing => exact h.tidied
  | badPackage hpackage =>
    rw [h.options_eq] at hpackage
    exact (h.tidied.of_not_unpacked hcurrent hpackage).2
  | @done ws w₁ result hpackage =>
    rw [h.options_eq] at hpackage
    obtain ⟨hkept, hnew, htidied⟩ := h.tidied.of_unpackTemplate hcurrent hpackage
    rw [outcome_documentText]
    exact htidied.of_release hkept hnew

/-- Discarding takes the current workspace out of use. -/
theorem of_discard (h : Sound options substitution w₀ s w) :
    Sound options substitution w₀ (s.discard.outcome w).1.1 (s.discard.outcome w).2 := by
  unfold discard
  cases hws : s.workspace? with
  | none =>
    refine ⟨h.options_eq, h.renderer_eq, Iff.rfl, h.distinct, nofun, ?_⟩
    have htidied := h.tidied
    rwa [hws] at htidied
  | some ws =>
    refine ⟨h.options_eq, h.renderer_eq, Iff.rfl, h.distinct, nofun, ?_⟩
    have htidied := h.tidied_of_some hws
    have hlogged := htidied.of_logs
      (Act.keeps_log (.info s!"keeping workspace {ws.root.text}") w)
    exact hlogged.of_remove List.not_mem_nil

theorem of_call (h : Sound options substitution w₀ s w)
    (hcurrent : ∀ name ∈ w₀.disk.current, Path.IsName name) (call : Call) :
    Sound options substitution w₀ ((call.run s).outcome w).1 ((call.run s).outcome w).2 := by
  cases call with
  | render template data images =>
    show Sound options substitution w₀ ((s.render template data images).outcome w).1.1
      ((s.render template data images).outcome w).2
    obtain hrun | ⟨e, w', hrun, -, hsound⟩ | ⟨s', w', hrun, hsound⟩ :=
      h.render_cases hcurrent template data images
    · rw [hrun]
      exact h
    · rw [hrun]
      exact hsound
    · rw [hrun]
      exact hsound
  | register reference path =>
    show Sound options substitution w₀ ((s.register reference path).outcome w).1.1
      ((s.register reference path).outcome w).2
    obtain ⟨e, w', hrun, hsound⟩ | ⟨t, w', hrun, hsound⟩ := h.register_cases reference path
    · rw [hrun]
      exact hsound
    · rw [hrun]
      exact hsound
  | save output =>
    show Sound options substitution w₀ ((s.save output).outcome w).1.1 ((s.save output).outcome w).2
    obtain ⟨-, hrun⟩ | ⟨-, s', result, w', hrun, -, hsound⟩ := h.save_cases output
    · rw [hrun]
      exact h
    · rw [hrun]
      exact hsound
  | inspect template => exact h.of_inspect hcurrent template
  | discard => exact h.of_discard

end Sound

/-- The invariant holds behind any calls. -/
theorem sound_of_calls (hcurrent : ∀ name ∈ w₀.disk.current, Path.IsName name) (calls : List Call)
    (h : Sound options substitution w₀ s w) :
    Sound options substitution w₀ ((calls.foldlM Call.run s).outcome w).1
      ((calls.foldlM Call.run s).outcome w).2 := by
  induction calls generalizing s w with
  | nil => exact h
  | cons call calls ih =>
    rw [List.foldlM_cons, Act.outcome_bind]
    exact ih (h.of_call hcurrent call)

/-! ## The contract -/

/-- What a caller may rely on, between any two calls of a session that started in the world `w₀`. -/
structure Contract (options : Options) (substitution : Substitution) (w₀ : World) (s : Session)
    (w : World) : Prop where
  /-- There is a document if and only if there is a workspace. -/
  content_iff : s.content?.isSome = true ↔ s.workspace?.isSome = true
  /-- No two images have the same reference. -/
  distinct : (s.images.entries.map (·.reference)).Nodup
  /-- An image that cannot be registered leaves the session as it was. -/
  register_failed : ∀ {reference path e s' w'},
    (s.register reference path).outcome w = ((s', .error e), w') → s' = s
  /-- Saving fails for want of a document if and only if there is none. -/
  save_iff : ∀ output,
    ((s.save output).outcome w).1.2 = .error .notRendered ↔ s.content? = none
  /-- Then it does nothing. -/
  save_nothing : ∀ output, s.content? = none →
    (s.save output).outcome w = ((s, .error .notRendered), w)
  /-- A template that is missing leaves the session as it was. -/
  render_missing : ∀ {template data images p s' w'},
    (s.render template data images).outcome w = ((s', .error (.inputNotFound p)), w') → s' = s
  /-- A rendering that fails at anything else leaves nothing. -/
  render_failed : ∀ {template data images e s' w'},
    (s.render template data images).outcome w = ((s', .error e), w') →
    (∀ p, e ≠ .inputNotFound p) →
    s'.content? = none ∧ s'.workspace? = none ∧ s'.images = {} ∧ s'.warnings = []
  /-- What a successful rendering leaves is a function of the options, of the document in the
      template, of the data and of the images. -/
  render_done : ∀ {template data images s' w'},
    (s.render template data images).outcome w = ((s', .ok ()), w') →
    ∃ entries text, openEntries w.disk template = .ok entries ∧
      dataAt? entries (Split.on '/' Part.document) = some text ∧
      Filled options substitution data images text s'
  /-- The current workspace is one that the log tells of. -/
  current_made : ∀ ws, s.workspace? = some ws → Made w₀ w ws.root
  /-- It is the only one of these that exists. -/
  exists_iff : options.keepWorkspace = false → ∀ root, Made w₀ w root →
    (w.disk.isDirectory root = true ↔ s.workspace?.map (·.root) = some root)
  /-- None of them exists once the session ends. -/
  finish_gone : options.keepWorkspace = false → ∀ root, Made w₀ (s.finish.outcome w).2 root →
    (s.finish.outcome w).2.disk.isDirectory root = false

/-- Workspaces that are not in use do not exist. -/
theorem isDirectory_of_tidied (h : Tidied options w₀ live w) (hkeep : options.keepWorkspace = false)
    {root : Path} (hmade : Made w₀ w root) : w.disk.isDirectory root = true ↔ root ∈ live := by
  constructor
  · intro hdir
    have hnode := (Disk.isDirectory_iff.1 hdir).2.2
    rw [h.current_eq] at hnode
    exact not_not.1 fun hlive => h.gone hkeep root hmade hlive hnode
  · exact h.exist root

/-- The invariant gives the contract. -/
theorem Sound.contract (h : Sound options substitution w₀ s w)
    (hcurrent : ∀ name ∈ w₀.disk.current, Path.IsName name) :
    Contract options substitution w₀ s w := by
  constructor
  case content_iff => exact h.content_iff
  case distinct => exact h.distinct
  case register_failed =>
    intro reference path e s' w' hrun
    obtain ⟨e', w₁, hcase, -⟩ | ⟨t, w₁, hcase, -⟩ := h.register_cases reference path
    · rw [hcase] at hrun
      cases hrun
      rfl
    · rw [hcase] at hrun
      cases hrun
  case save_iff =>
    intro output
    obtain ⟨hcontent, hcase⟩ | ⟨hcontent, s', result, w', hcase, hresult, -⟩ := h.save_cases output
    · rw [hcase]
      exact iff_of_true rfl hcontent
    · rw [hcase]
      exact iff_of_false hresult hcontent
  case save_nothing =>
    intro output hcontent
    obtain ⟨-, hcase⟩ | ⟨hsome, -⟩ := h.save_cases output
    · exact hcase
    · exact absurd hcontent hsome
  case render_missing =>
    intro template data images p s' w' hrun
    obtain hcase | ⟨e, w₁, hcase, hinner, -⟩ | ⟨s₁, w₁, hcase, -⟩ :=
      h.render_cases hcurrent template data images
    · rw [hcase] at hrun
      cases hrun
      rfl
    · rw [hcase] at hrun
      cases hrun
      exact absurd rfl (hinner.2 p)
    · rw [hcase] at hrun
      cases hrun
  case render_failed =>
    intro template data images e s' w' hrun hother
    obtain hcase | ⟨e', w₁, hcase, -⟩ | ⟨s₁, w₁, hcase, -⟩ :=
      h.render_cases hcurrent template data images
    · rw [hcase] at hrun
      cases hrun
      exact absurd rfl (hother template)
    · rw [hcase] at hrun
      cases hrun
      exact ⟨rfl, rfl, rfl, rfl⟩
    · rw [hcase] at hrun
      cases hrun
  case render_done =>
    intro template data images s' w' hrun
    obtain ⟨entries, text, hopen, htext, hfilled, -⟩ := filled_of_rendered h.renderer_eq hrun
    rw [h.options_eq] at hfilled
    exact ⟨entries, text, hopen, htext, hfilled⟩
  case current_made =>
    intro ws hws
    exact (h.tidied_of_some hws).made ws.root List.mem_cons_self
  case exists_iff =>
    intro hkeep root hmade
    rw [isDirectory_of_tidied h.tidied hkeep hmade, Option.mem_toList]
  case finish_gone =>
    intro hkeep root hmade
    rw [Bool.eq_false_iff]
    exact mt (isDirectory_of_tidied h.tidied_finish hkeep hmade).1 List.not_mem_nil

/-- The contract holds behind any calls. The current directory is given by the names on the way to it,
    as systems give it. -/
theorem contract_of_calls (options : Options) (substitution : Substitution) {w₀ : World}
    (hcurrent : ∀ name ∈ w₀.disk.current, Path.IsName name) (calls : List Call) :
    Contract options substitution w₀ (reached options substitution calls w₀).1
      (reached options substitution calls w₀).2 :=
  (sound_of_calls hcurrent calls (.start options substitution w₀)).contract hcurrent

/-- A disk with a template, in a directory that is not the root. -/
def homeWorld : World where
  disk := {
    nodes := [(["home"], .directory),
      (["home", "t"], .file (.archive [.make Part.document .stored (Bytes.ofString "<a/>")]))]
    current := ["home"] }

/-- A rendering, a saving that cannot write its output, and a missing template. -/
def sampleCalls : List Call := [.render ⟨"t"⟩ {} [], .save ⟨"/home"⟩, .render ⟨"u"⟩ {} []]

theorem contract_of_calls_home :
    (reached {} {} sampleCalls homeWorld).1.content? = some (Bytes.ofString "<a/>") ∧
    Made homeWorld (reached {} {} sampleCalls homeWorld).2 ⟨"/tmp/docxgen_000000"⟩ ∧
    Contract {} {} homeWorld (reached {} {} sampleCalls homeWorld).1
      (reached {} {} sampleCalls homeWorld).2 := by
  have hcurrent : ∀ name ∈ homeWorld.disk.current, Path.IsName name := by decide
  have hrun : (reached {} {} sampleCalls homeWorld).1.content? = some (Bytes.ofString "<a/>") ∧
      Workspace.announcement ⟨"/tmp/docxgen_000000"⟩ ∈ (reached {} {} sampleCalls homeWorld).2.log := by
    decide +kernel
  exact ⟨hrun.1, hrun.2, contract_of_calls {} {} hcurrent sampleCalls⟩

end Session

end DocxTemplate
