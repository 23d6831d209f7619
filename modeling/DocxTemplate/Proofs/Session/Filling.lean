import DocxTemplate.Proofs.Template.Rendering
import DocxTemplate.Proofs.World
import DocxTemplate.Proofs.Xml.Ampersand
import DocxTemplate.Session.Basic

/-! # Filling a document

    With the renderer that replaces placeholders, filling a document never fails and only adds
    lines to the log: the new text and the warnings are functions of the options, the data and
    the text.

    * `Session.filled`: these functions.
    * `Session.filled_untouched`: a text that asks for nothing and needs no mending stays as it is.
    * `Hushed`, `Logs`: lines of the log that neither announce workspaces nor tell of names without a
      value are all that is new in the log, or in the world.
    * `Session.exists_outcome_fillDocument`: what filling comes to.
-/

namespace DocxTemplate

open Job

namespace Session

/-! ## The new text -/

/-- What sanitizing gives if the options ask for it at a point: warnings and the text. -/
def sanitized (point : SanitizeMode) (options : Options) (text : Bytes) :
    List Sanitize.Warning × Bytes :=
  if options.sanitize = point then
    ((DocxTemplate.sanitize options.rules text).warnings,
      (DocxTemplate.sanitize options.rules text).text)
  else ([], text)

/-- What filling a text gives: warnings and the new text. -/
def filled (options : Options) (substitution : Substitution) (data : Data) (text : Bytes) :
    List Sanitize.Warning × Bytes :=
  let before := sanitized .before options (sourceOf options text)
  let after := sanitized .after options (substitution.render data before.2)
  (before.1 ++ after.1, after.2)

/-- A text without placeholders and lone ampersands is not changed if it is not sanitized. -/
theorem filled_untouched {options : Options} (hoff : options.sanitize = .off)
    (substitution : Substitution) (data : Data) {text : Bytes} (hnames : placeholderNames text = [])
    (hreferences : Xml.ReferencesOnly text) :
    filled options substitution data text = ([], text) := by
  have hsource : sourceOf options text = text := by
    unfold sourceOf
    split
    · exact Xml.escapeLoneAmpersands_of_referencesOnly hreferences
    · rfl
  have hplain : ∀ point text, point ≠ .off → sanitized point options text = ([], text) := by
    intro point text hpoint
    rw [sanitized, hoff, if_neg hpoint.symm]
  rw [filled, hsource, hplain .before _ (by decide)]
  dsimp only
  rw [hplain .after _ (by decide), substitution.render_of_placeholderNames data hnames]
  rfl

end Session

/-! ## The log -/

/-- The line of the log that tells of names without a value, if there are any. -/
def notice (names : List String) : List LogLine :=
  if names.isEmpty then []
  else [⟨.debug, "no value for placeholders: " ++ ", ".intercalate names⟩]

/-- Whether a line tells of names without a value. -/
def LogLine.IsNotice (line : LogLine) : Prop :=
  line.level = .debug ∧ "no value for placeholders: ".toList <+: line.text.toList

instance (line : LogLine) : Decidable line.IsNotice :=
  inferInstanceAs (Decidable (_ ∧ _))

/-- What the log tells of names without a value. -/
def World.notices (w : World) : List LogLine := w.log.filter fun line => line.IsNotice

/-- A line of the log that neither announces a workspace nor tells of names without a value. -/
def LogLine.Quiet (line : LogLine) : Prop :=
  line.level ≠ .debug ∨ line.text.toList.head? ≠ some 'c' ∧ line.text.toList.head? ≠ some 'n'

theorem LogLine.Quiet.info (text : String) : Quiet ⟨.info, text⟩ := Or.inl nofun

theorem LogLine.Quiet.warn (text : String) : Quiet ⟨.warn, text⟩ := Or.inl nofun

theorem LogLine.Quiet.not_isNotice {line : LogLine} (h : line.Quiet) : ¬ line.IsNotice := by
  intro hnotice
  obtain ⟨hdebug, tail, htail⟩ := hnotice
  rcases h with hlevel | ⟨-, hfirst⟩
  · exact hlevel hdebug
  · apply hfirst
    rw [← htail]
    rfl

theorem isNotice_of_mem_notice {names : List String} {line : LogLine} (h : line ∈ notice names) :
    line.IsNotice := by
  unfold notice at h
  split at h
  · cases h
  · rw [List.mem_singleton.1 h]
    refine ⟨rfl, ?_⟩
    rw [String.toList_append]
    exact List.prefix_append _ _

/-- From the first world to the second one, quiet lines are all that is new in the log. -/
def Hushed (w w' : World) : Prop :=
  ∃ lines, w'.log = w.log ++ lines ∧ ∀ line ∈ lines, line.Quiet

theorem hushed_chains : Chains Hushed where
  refl w := ⟨[], by rw [List.append_nil], by simp⟩
  trans := by
    rintro w₁ w₂ w₃ ⟨lines, hlog, hquiet⟩ ⟨lines', hlog', hquiet'⟩
    refine ⟨lines ++ lines', by rw [hlog', hlog, List.append_assoc], fun line hline => ?_⟩
    rcases List.mem_append.1 hline with hline | hline
    · exact hquiet line hline
    · exact hquiet' line hline

theorem hushed_of_log_eq {w w' : World} (h : w'.log = w.log) : Hushed w w' :=
  ⟨[], by rw [h, List.append_nil], by simp⟩

theorem Hushed.notices_eq {w w' : World} (h : Hushed w w') : w'.notices = w.notices := by
  obtain ⟨lines, hlog, hquiet⟩ := h
  have hnone : lines.filter (fun line => line.IsNotice) = [] := by
    rw [List.filter_eq_nil_iff]
    intro line hline
    rw [decide_eq_true_eq]
    exact (hquiet line hline).not_isNotice
  rw [World.notices, hlog, List.filter_append, hnone, List.append_nil]
  rfl

/-- From the first world to the second one, quiet lines of the log are all that is new. -/
def Logs (w w' : World) : Prop :=
  ∃ lines, w' = { w with log := w.log ++ lines } ∧ ∀ line ∈ lines, line.Quiet

theorem Logs.hushed {w w' : World} (h : Logs w w') : Hushed w w' := by
  obtain ⟨lines, rfl, hquiet⟩ := h
  exact ⟨lines, rfl, hquiet⟩

theorem Logs.disk_eq {w w' : World} (h : Logs w w') : w'.disk = w.disk := by
  obtain ⟨lines, rfl, -⟩ := h
  rfl

theorem logs_chains : Chains Logs where
  refl w := ⟨[], by rw [List.append_nil], by simp⟩
  trans := by
    rintro w₁ w₂ w₃ ⟨lines, rfl, hquiet⟩ ⟨lines', rfl, hquiet'⟩
    refine ⟨lines ++ lines', by rw [List.append_assoc], fun line hline => ?_⟩
    rcases List.mem_append.1 hline with hline | hline
    · exact hquiet line hline
    · exact hquiet' line hline

/-- From the first world to the second one, quiet lines of the log and the line that tells of names
    without a value are all that is new. -/
def Notes (names : List String) (w w' : World) : Prop :=
  ∃ w₁, Logs w w₁ ∧ Logs { w₁ with log := w₁.log ++ notice names } w'

theorem Notes.trans_logs {names : List String} {w₁ w₂ w₃ : World} (h : Notes names w₁ w₂)
    (h' : Logs w₂ w₃) : Notes names w₁ w₃ := by
  obtain ⟨w, hfirst, hlast⟩ := h
  exact ⟨w, hfirst, logs_chains.trans hlast h'⟩

theorem Notes.disk_eq {names : List String} {w w' : World} (h : Notes names w w') :
    w'.disk = w.disk := by
  obtain ⟨w₁, hfirst, hlast⟩ := h
  rw [hlast.disk_eq, hfirst.disk_eq]

theorem Notes.notices_eq {names : List String} {w w' : World} (h : Notes names w w') :
    w'.notices = w.notices ++ notice names := by
  obtain ⟨w₁, hfirst, hlast⟩ := h
  have hall : (notice names).filter (fun line => line.IsNotice) = notice names := by
    rw [List.filter_eq_self]
    intro line hline
    exact decide_eq_true (isNotice_of_mem_notice hline)
  rw [hlast.hushed.notices_eq, ← hfirst.hushed.notices_eq, World.notices, List.filter_append, hall]
  rfl

/-- A line that is logged is quiet by its level or by its first character. -/
theorem Act.keeps_log {level : Level} {text : String} (h : (⟨level, text⟩ : LogLine).Quiet) :
    Keeps Logs (Act.log level text) :=
  fun w => ⟨[⟨level, text⟩], rfl, by simpa using h⟩

theorem Act.Keeps.forM {R : World → World → Prop} {α : Type} (hR : Chains R) {f : α → Act PUnit}
    {l : List α} (h : ∀ a ∈ l, Keeps R (f a)) : Keeps R (l.forM f) := by
  induction l with
  | nil => exact Keeps.pure hR _
  | cons a l ih =>
    have hstep : (a :: l).forM f = f a >>= fun _ => l.forM f := rfl
    rw [hstep]
    exact Keeps.bind hR (h a List.mem_cons_self) fun _ =>
      ih fun a' ha' => h a' (List.mem_cons_of_mem _ ha')

namespace Session

theorem keeps_sanitizeWithLog (rules : Sanitize.Rules) (text : Bytes) :
    Act.Keeps Logs (sanitizeWithLog rules text) := by
  have hwarning : ∀ warning : Sanitize.Warning,
      Act.Keeps Logs (Act.log .warn s!"{Part.document}: {warning.message}") := fun _ =>
    Act.keeps_log (.warn _)
  refine Act.Keeps.bind logs_chains (Act.keeps_log (Or.inr ?_)) fun _ =>
    Act.Keeps.bind logs_chains (Act.Keeps.forM logs_chains fun warning _ => hwarning warning)
      fun _ => Act.Keeps.pure logs_chains _
  simp [String.toList_append, toString]

theorem exists_outcome_sanitizeAt (point : SanitizeMode) (options : Options) (text : Bytes)
    (w : World) : ∃ w', (sanitizeAt point options text).outcome w =
      (sanitized point options text, w') ∧ Logs w w' := by
  unfold sanitizeAt sanitized
  split
  · exact ⟨_, rfl, keeps_sanitizeWithLog options.rules text w⟩
  · exact ⟨w, rfl, logs_chains.refl w⟩

/-- The renderer that replaces placeholders always gives a text, and tells of the names without
    a value. -/
theorem ends_ofSubstitution (s : Substitution) (source : Bytes) (data : Data) (w : World) :
    Ends ((Renderer.ofSubstitution s).render source data) w (s.render data source)
      { w with log := w.log ++ notice (data.missing source) } := by
  rw [Renderer.ofSubstitution]
  dsimp only
  cases hmissing : (data.missing source).isEmpty with
  | true =>
    rw [notice, hmissing, if_pos rfl, List.append_nil]
    exact ends_pure_iff.2 ⟨rfl, rfl⟩
  | false =>
    rw [notice, hmissing, if_neg Bool.false_ne_true]
    exact ends_bind_iff.2 ⟨(), _, ends_log_iff.2 rfl, ends_pure_iff.2 ⟨rfl, rfl⟩⟩

/-- Reading the main document changes nothing. -/
theorem outcome_documentText (ws : Workspace) (w : World) : (documentText ws).outcome w =
    (match w.disk.readText ws.document with
      | .ok text => .ok text
      | .error (.system .notFound) => .error (.missingPart Part.document)
      | .error fault => .error (.io ws.document fault), w) := by
  rw [documentText, outcome_bind, ask, outcome_ofAct, Act.outcome_ask]
  dsimp only
  cases w.disk.readText ws.document with
  | ok text => rfl
  | error fault =>
    cases fault with
    | system fault => cases fault <;> rfl
    | _ => rfl

/-- Filling stops if the document cannot be read, and has no warnings then. -/
theorem outcome_fillDocument_of_error {s : Session} {ws : Workspace} {e : Error} {w w' : World}
    (h : (documentText ws).outcome w = (.error e, w')) (data : Data) :
    (s.fillDocument ws data).outcome w = (([], .error e), w') := by
  rw [fillDocument, Act.outcome_bind, Act.outcome_ofJob, h]
  rfl

/-- The names that filling a text finds no value for. -/
def unfilled (options : Options) (data : Data) (text : Bytes) : List String :=
  data.missing (sanitized .before options (sourceOf options text)).2

/-- Otherwise it gives the new text, tells of the names without a value, and does no more. -/
theorem exists_outcome_fillDocument {s : Session} {substitution : Substitution}
    (hs : s.renderer = .ofSubstitution substitution) {ws : Workspace} {text : Bytes} {w w' : World}
    (h : Ends (documentText ws) w text w') (data : Data) :
    ∃ w'', (s.fillDocument ws data).outcome w =
        (((filled s.options substitution data text).1,
          .ok (filled s.options substitution data text).2), w'') ∧
      Notes (unfilled s.options data text) w' w'' := by
  have hdocument : (Act.ofJob (documentText ws)).outcome w = (.ok text, w') := h
  obtain ⟨w₁, hbefore, hlogs₁⟩ :=
    exists_outcome_sanitizeAt .before s.options (sourceOf s.options text) w'
  have hrendered : (Act.ofJob ((Renderer.ofSubstitution substitution).render
      (sanitized .before s.options (sourceOf s.options text)).2 data)).outcome w₁ = (.ok _, _) :=
    ends_ofSubstitution substitution (sanitized .before s.options (sourceOf s.options text)).2 data w₁
  obtain ⟨w₃, hafter, hlogs₃⟩ := exists_outcome_sanitizeAt .after s.options
    (substitution.render data (sanitized .before s.options (sourceOf s.options text)).2)
    { w₁ with
      log := w₁.log ++
        notice (data.missing (sanitized .before s.options (sourceOf s.options text)).2) }
  refine ⟨w₃, ?_, ⟨w₁, hlogs₁, hlogs₃⟩⟩
  rw [fillDocument, Act.outcome_bind, hdocument]
  dsimp only
  rw [Act.outcome_bind, hbefore]
  dsimp only
  rw [Act.outcome_bind, hs, hrendered]
  dsimp only
  rw [Act.outcome_bind, hafter]
  rfl

end Session

end DocxTemplate
