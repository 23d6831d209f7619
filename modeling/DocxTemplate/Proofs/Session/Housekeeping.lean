import DocxTemplate.Proofs.Session.Confined

/-! # Which workspaces exist

    Workspaces that are released are removed, unless they are to be kept. So of all workspaces that
    the log tells of, those that exist are the ones in use.

    * `Workspace.Site.not_prefix_of_visits`: making the directory for workspaces makes none of them.
    * `Made`: a workspace that the log tells of.
    * `Tended`: the workspaces in use exist, and no others do. `Tended.stays` and `Tended.goes`: work
      that is confined to one of them leaves this so.
    * `Tended.of_unpackTemplate`, `Tended.of_release`: a workspace comes into use, and goes out of it.
-/

namespace DocxTemplate

open Job

/-! ## The directory for workspaces -/

namespace Workspace

variable {d : Disk} {directory root : Path} {k l : Location}

/-- The path of the current directory leads there. -/
theorem target_currentPath (hcurrent : ∀ name ∈ d.current, Path.IsName name) (c : Location) :
    (currentPath d).target c = d.current := by
  have habs : (currentPath d).isAbsolute = true := by
    rw [Path.isAbsolute, currentPath]
    simp
  have hsegments : (currentPath d).segments = "" :: Split.on '/' ("/".intercalate d.current) := by
    have htext : (currentPath d).text.toList =
        "".toList ++ '/' :: ("/".intercalate d.current).toList := by
      rw [currentPath, String.toList_append]
      rfl
    rw [Path.segments, Split.on_append htext]
    rfl
  rw [Path.target, Path.steps_of_isAbsolute habs, hsegments, Path.start, if_pos habs,
    List.drop_succ_cons, List.drop_zero]
  by_cases hnil : d.current = []
  · rw [hnil]
    rfl
  · rw [Split.on_intercalate hnil fun name hname => (hcurrent name hname).2,
      Path.reach_names hcurrent, List.nil_append]

/-- All that is made for a directory lies on the way to its workspaces. -/
theorem mem_way_of_visits (hcurrent : ∀ name ∈ d.current, Path.IsName name)
    (h : directory.Visits d.current k) : k ∈ (absolute d directory).way d.current ∨
      k = (absolute d directory).target d.current := by
  unfold absolute
  split
  · exact h.2.symm
  · next hrelative =>
    rw [Bool.not_eq_true] at hrelative
    have hhead : directory.text.toList.head? ≠ some '/' := by
      rw [Path.isAbsolute, beq_eq_false_iff_ne] at hrelative
      exact hrelative
    have hstart : directory.start d.current = d.current := by
      rw [Path.start, hrelative]
      rfl
    rw [Path.mem_way_join_iff _ hhead, Path.target_join _ hhead, target_currentPath hcurrent]
    have hway := h.2.symm
    rw [Path.way, Path.target, hstart, Path.steps_of_not_isAbsolute hrelative] at hway
    exact hway.imp_left Or.inr

/-- Making the directory for workspaces makes none of them. -/
theorem Site.not_prefix_of_visits (hsite : Site (Workspace.absolute d directory) root)
    (hcurrent : ∀ name ∈ d.current, Path.IsName name) (hnames : Disk.Names root d.current l)
    (h : directory.Visits d.current k) : ¬ l <+: k :=
  hnames.outside k (hsite.mem_way_iff.2 (mem_way_of_visits hcurrent h))

theorem announcement_inj {root' : Path} (h : announcement root = announcement root') :
    root = root' := by
  have htext := congrArg (fun line : LogLine => line.text.toList) h
  simp only [announcement, toString, String.toList_append, List.append_cancel_left_eq] at htext
  rw [show root = ⟨root.text⟩ from rfl, String.toList_injective htext]

end Workspace

/-- A quiet line tells of no workspace. -/
theorem LogLine.Quiet.ne_announcement {line : LogLine} (h : line.Quiet) (root : Path) :
    line ≠ Workspace.announcement root := by
  rintro rfl
  rcases h with hlevel | ⟨hfirst, -⟩
  · exact hlevel rfl
  · apply hfirst
    simp [Workspace.announcement, toString, String.toList_append]

/-! ## Workspaces in use -/

open Workspace (Site announcement)

variable {w₀ w w' : World} {directory root : Path} {kept : Bool} {live : List Path} {l : Location}

/-- The workspaces that the log tells of since the world `w₀`. -/
def Made (w₀ w : World) (root : Path) : Prop := announcement root ∈ w.log.drop w₀.log.length

theorem made_iff {lines : List LogLine} (hlogged : w₀.log <+: w.log) (h : w'.log = w.log ++ lines)
    (root : Path) : Made w₀ w' root ↔ Made w₀ w root ∨ announcement root ∈ lines := by
  rw [Made, Made, h, List.drop_append_of_le_length hlogged.length_le, List.mem_append]

/-- Since the world `w₀`, workspaces were made for `directory`. Those in use exist. Unless all of them
    are to be kept, the others are gone. -/
structure Tended (w₀ : World) (directory : Path) (kept : Bool) (live : List Path) (w : World) :
    Prop where
  current_eq : w.disk.current = w₀.disk.current
  temporary_eq : w.temporary = w₀.temporary
  logged : w₀.log <+: w.log
  site : ∀ root, Made w₀ w root → Site (Workspace.absolute w₀.disk directory) root
  names : ∀ root, Made w₀ w root →
    Disk.Names root w₀.disk.current (root.target w₀.disk.current)
  made : ∀ root ∈ live, Made w₀ w root
  exist : ∀ root ∈ live, w.disk.isDirectory root = true
  gone : kept = false → ∀ root, Made w₀ w root → root ∉ live →
    w.disk.node? (root.target w₀.disk.current) ≠ some .directory

namespace Tended

theorem start (w₀ : World) (directory : Path) (kept : Bool) : Tended w₀ directory kept [] w₀ := by
  have hnone : ∀ root, ¬ Made w₀ w₀ root := by
    intro root hmade
    rw [Made, List.drop_length] at hmade
    cases hmade
  refine ⟨rfl, rfl, List.prefix_rfl, ?_, ?_, ?_, ?_, ?_⟩
  · exact fun root hmade => absurd hmade (hnone root)
  · exact fun root hmade => absurd hmade (hnone root)
  · exact fun root hlive => absurd hlive List.not_mem_nil
  · exact fun root hlive => absurd hlive List.not_mem_nil
  · exact fun _ root hmade => absurd hmade (hnone root)

/-- Lines of the log that tell of no workspace change nothing. -/
theorem of_log {lines : List LogLine} (h : Tended w₀ directory kept live w)
    (hdisk : w'.disk = w.disk) (htemporary : w'.temporary = w.temporary)
    (hlog : w'.log = w.log ++ lines) (hlines : ∀ root, announcement root ∉ lines) :
    Tended w₀ directory kept live w' := by
  have hmade : ∀ root, Made w₀ w' root ↔ Made w₀ w root := by
    intro root
    rw [made_iff h.logged hlog, or_iff_left (hlines root)]
  refine ⟨?_, htemporary.trans h.temporary_eq, ?_, ?_, ?_, ?_, ?_, ?_⟩
  · rw [hdisk, h.current_eq]
  · rw [hlog]
    exact h.logged.trans (List.prefix_append _ _)
  · exact fun root hroot => h.site root ((hmade root).1 hroot)
  · exact fun root hroot => h.names root ((hmade root).1 hroot)
  · exact fun root hroot => (hmade root).2 (h.made root hroot)
  · rw [hdisk]
    exact h.exist
  · rw [hdisk]
    exact fun hkept root hroot => h.gone hkept root ((hmade root).1 hroot)

theorem of_logs (h : Tended w₀ directory kept live w) (hlogs : Logs w w') :
    Tended w₀ directory kept live w' := by
  obtain ⟨lines, rfl, hquiet⟩ := hlogs
  exact h.of_log rfl rfl rfl fun root hroot => (hquiet _ hroot).ne_announcement root rfl

theorem of_notes {names : List String} (h : Tended w₀ directory kept live w)
    (hnotes : Notes names w w') : Tended w₀ directory kept live w' := by
  obtain ⟨w₁, hfirst, hlast⟩ := hnotes
  have hnotice : ∀ root, announcement root ∉ notice names := fun root hroot =>
    not_isNotice_announcement root (isNotice_of_mem_notice hroot)
  have hnoticed : Tended w₀ directory kept live { w₁ with log := w₁.log ++ notice names } :=
    (h.of_logs hfirst).of_log rfl rfl rfl hnotice
  exact hnoticed.of_logs hlast

/-! ## Work on one workspace -/

/-- The way to a workspace in use exists. -/
theorem directory_of_way (h : Tended w₀ directory kept live w) (hroot : root ∈ live) :
    root.Fits ∧ ∀ k ∈ root.way w₀.disk.current, w.disk.node? k = some .directory := by
  obtain ⟨hfits, hway, -⟩ := Disk.isDirectory_iff.1 (h.exist root hroot)
  rw [h.current_eq] at hway
  exact ⟨hfits, hway⟩

/-- Confined work does not touch the other workspaces. -/
theorem others (h : Tended w₀ directory kept (root :: live) w)
    (hconfined : Confined root w₀.disk.current (root.target w₀.disk.current) w w') {other : Path}
    (hother : Made w₀ w other) (hne : other ≠ root) :
    (w'.disk.node? (other.target w₀.disk.current) = some .directory ↔
      w.disk.node? (other.target w₀.disk.current) = some .directory) ∧
    (w.disk.isDirectory other = true → w'.disk.isDirectory other = true) := by
  have hroot := h.made root List.mem_cons_self
  have around := hconfined h.current_eq
  have hsame := around.directory_iff (h.current_eq ▸ (h.directory_of_way List.mem_cons_self).2)
  have htarget := hsame (other.target w₀.disk.current) fun hbelow =>
    hne ( Site.eq_of_prefix (h.site root hroot) (h.site other hother) hbelow).symm
  refine ⟨htarget, fun hdir => ?_⟩
  -- The way to the other workspace is the way to this one.
  rw [Disk.isDirectory_iff, h.current_eq] at hdir
  rw [Disk.isDirectory_iff, around.current_eq, h.current_eq]
  refine ⟨hdir.1, fun k hk => ?_, htarget.2 hdir.2.2⟩
  have hway := (h.site root hroot).mem_way_iff.2 ((h.site other hother).mem_way_iff.1 hk)
  exact (hsame k ((h.names root hroot).outside k hway)).2 (hdir.2.1 k hk)

theorem made_iff_of_confined (h : Tended w₀ directory kept (root :: live) w)
    (hconfined : Confined root w₀.disk.current l w w') (other : Path) :
    Made w₀ w' other ↔ Made w₀ w other := by
  obtain ⟨lines, hlog, hquiet⟩ := (hconfined h.current_eq).hushed
  rw [made_iff h.logged hlog, or_iff_left]
  exact fun hother => (hquiet _ hother).ne_announcement other rfl

/-- Confined work may take this workspace out of use, and no other one. -/
theorem of_confined (h : Tended w₀ directory kept (root :: live) w)
    (hconfined : Confined root w₀.disk.current (root.target w₀.disk.current) w w') {live' : List Path}
    (hexist : ∀ other ∈ live', other = root ∧ w'.disk.isDirectory root = true ∨
      other ≠ root ∧ other ∈ live)
    (hrest : ∀ other ∈ live, other ≠ root → other ∈ live')
    (hgone : kept = false → root ∉ live' →
      w'.disk.node? (root.target w₀.disk.current) ≠ some .directory) :
    Tended w₀ directory kept live' w' := by
  have around := hconfined h.current_eq
  have hmade := h.made_iff_of_confined hconfined
  obtain ⟨lines, hlog, -⟩ := around.hushed
  refine ⟨around.current_eq.trans h.current_eq, around.temporary_eq.trans h.temporary_eq, ?_, ?_, ?_,
    ?_, ?_, ?_⟩
  · rw [hlog]
    exact h.logged.trans (List.prefix_append _ _)
  · exact fun other hother => h.site other ((hmade other).1 hother)
  · exact fun other hother => h.names other ((hmade other).1 hother)
  · intro other hother
    obtain ⟨rfl, -⟩ | ⟨-, hlive⟩ := hexist other hother
    · exact (hmade other).2 (h.made other List.mem_cons_self)
    · exact (hmade other).2 (h.made other (List.mem_cons_of_mem _ hlive))
  · intro other hother
    obtain ⟨rfl, hdir⟩ | ⟨hne, hlive⟩ := hexist other hother
    · exact hdir
    · have hmem := List.mem_cons_of_mem root hlive
      exact (h.others hconfined (h.made other hmem) hne).2 (h.exist other hmem)
  · intro hkept other hother hlive
    by_cases hne : other = root
    · subst hne
      exact hgone hkept hlive
    · intro hnode
      have hbefore := (h.others hconfined ((hmade other).1 hother) hne).1.1 hnode
      have hnot : other ∉ root :: live := by
        intro hmem
        rcases List.mem_cons.1 hmem with heq | hmem
        · exact hne heq
        · exact hlive (hrest other hmem hne)
      exact h.gone hkept other ((hmade other).1 hother) hnot hbefore

theorem stays (h : Tended w₀ directory kept (root :: live) w)
    (hconfined : Confined root w₀.disk.current (root.target w₀.disk.current) w w')
    (hdir : w'.disk.isDirectory root = true) : Tended w₀ directory kept (root :: live) w' := by
  apply h.of_confined hconfined
  · intro other hother
    by_cases hne : other = root
    · exact Or.inl ⟨hne, hdir⟩
    · exact Or.inr ⟨hne, (List.mem_cons.1 hother).resolve_left hne⟩
  · exact fun other hother _ => List.mem_cons_of_mem _ hother
  · exact fun _ hnot => absurd List.mem_cons_self hnot

theorem goes (h : Tended w₀ directory kept (root :: live) w) (hroot : root ∉ live)
    (hconfined : Confined root w₀.disk.current (root.target w₀.disk.current) w w')
    (hgone : kept = false → w'.disk.isDirectory root = false) : Tended w₀ directory kept live w' := by
  apply h.of_confined hconfined
  · exact fun other hother => Or.inr ⟨fun heq => hroot (heq ▸ hother), hother⟩
  · exact fun other hother _ => hother
  · intro hkept _ hnode
    -- The way is still there, so the workspace would still be a directory.
    have hremoved := hgone hkept
    rw [Bool.eq_false_iff] at hremoved
    apply hremoved
    obtain ⟨hfits, hway⟩ := h.directory_of_way List.mem_cons_self
    have hnames := h.names root (h.made root List.mem_cons_self)
    have around := hconfined h.current_eq
    rw [Disk.isDirectory_iff, around.current_eq, h.current_eq]
    refine ⟨hfits, fun k hk => ?_, hnode⟩
    rw [around.directory_iff (h.current_eq ▸ hway) k (hnames.outside k hk)]
    exact hway k hk

/-- Work behind which all directories are still there leaves the workspace in use. -/
theorem grows (h : Tended w₀ directory kept (root :: live) w)
    (hgrows : Grows root w₀.disk.current (root.target w₀.disk.current) w w') :
    Tended w₀ directory kept (root :: live) w' := by
  apply h.stays hgrows.1
  have hdir := h.exist root List.mem_cons_self
  rw [Disk.isDirectory_iff] at hdir ⊢
  rw [(hgrows.1 h.current_eq).current_eq]
  exact ⟨hdir.1, fun k hk => hgrows.2 k (hdir.2.1 k hk), hgrows.2 _ hdir.2.2⟩

/-- A workspace that is given up after some work in it is gone, or it is kept. -/
theorem of_work_released {ws : Workspace} {w₁ : World}
    (h : Tended w₀ directory kept (ws.root :: live) w) (hkept : ws.kept = kept)
    (hroot : ws.root ∉ live)
    (hwork : Confined ws.root w₀.disk.current (ws.root.target w₀.disk.current) w w₁) :
    Tended w₀ directory kept live (ws.release.outcome w₁).2 := by
  have hnames := h.names ws.root (h.made ws.root List.mem_cons_self)
  have hcurrent := (hwork h.current_eq).current_eq.trans h.current_eq
  apply h.goes hroot ((confined_chains hnames).trans hwork (keeps_release hnames w₁))
  intro hremoved
  exact not_isDirectory_of_release (hkept.trans hremoved) (hcurrent.symm ▸ hnames)

theorem of_release {ws : Workspace} (h : Tended w₀ directory kept (ws.root :: live) w)
    (hkept : ws.kept = kept) (hroot : ws.root ∉ live) :
    Tended w₀ directory kept live (ws.release.outcome w).2 := by
  have hnames := h.names ws.root (h.made ws.root List.mem_cons_self)
  exact h.of_work_released hkept hroot ((confined_chains hnames).refl w)

/-- So it is if it is removed in any case. -/
theorem of_remove (h : Tended w₀ directory kept (root :: live) w) (hroot : root ∉ live) :
    Tended w₀ directory kept live ((Package.remove root).outcome w).2 := by
  have hnames := h.names root (h.made root List.mem_cons_self)
  apply h.goes hroot (keeps_remove hnames w).1
  intro _
  exact not_isDirectory_of_remove (h.current_eq.symm ▸ hnames)

/-! ## New workspaces -/

/-- Directories on the way to a new workspace are none of the workspaces. -/
theorem ne_target_of_visits (h : Tended w₀ directory kept live w)
    (hcurrent : ∀ name ∈ w₀.disk.current, Path.IsName name) (hroot : Made w₀ w root) {k : Location}
    (hvisits : directory.Visits w₀.disk.current k) : root.target w₀.disk.current ≠ k := by
  rintro rfl
  exact (h.site root hroot).not_prefix_of_visits hcurrent (h.names root hroot) hvisits
    List.prefix_rfl

theorem isDirectory_of_keeps {d d' : Disk} {p : Path} (hcurrent : d'.current = d.current)
    (hkeeps : d.KeepsDirectories d') (h : d.isDirectory p = true) : d'.isDirectory p = true := by
  rw [Disk.isDirectory_iff] at h ⊢
  rw [hcurrent]
  exact ⟨h.1, fun k hk => hkeeps k (h.2.1 k hk), hkeeps _ h.2.2⟩

/-- Directories for workspaces may be made at any time. -/
theorem of_makes {d : Disk} {serial : Nat} (h : Tended w₀ directory kept live w)
    (hcurrent : ∀ name ∈ w₀.disk.current, Path.IsName name)
    (hmakes : Disk.Makes (directory.Visits w₀.disk.current) w.disk d) :
    Tended w₀ directory kept live { w with disk := d, serial := serial } := by
  refine ⟨hmakes.current_eq.trans h.current_eq, h.temporary_eq, h.logged, h.site, h.names, h.made, ?_,
    ?_⟩
  · intro root hroot
    exact isDirectory_of_keeps hmakes.current_eq (fun k hk => hmakes.node?_of_some hk)
      (h.exist root hroot)
  · intro hkept root hroot hlive hnode
    rcases hmakes.node?_cases (root.target w₀.disk.current) with heq | ⟨-, -, hvisits⟩
    · dsimp only at hnode
      rw [heq] at hnode
      exact h.gone hkept root hroot hlive hnode
    · exact h.ne_target_of_visits hcurrent hroot hvisits rfl

/-- A workspace that is made comes into use. -/
theorem of_created (h : Tended w₀ directory kept live w)
    (hcurrent : ∀ name ∈ w₀.disk.current, Path.IsName name)
    (hcreated : Workspace.Created directory root w w') :
    root ∉ live ∧ Tended w₀ directory kept (root :: live) w' := by
  have hmade := made_iff h.logged hcreated.log_eq
  have hnode := hcreated.node?_eq
  have hnone := hcreated.node?_eq_none
  have hnames := hcreated.names
  have hsite := hcreated.site
  rw [h.current_eq] at hnode hnone hnames
  rw [Workspace.absolute_eq_of_current h.current_eq] at hsite
  have hkeeps : w.disk.KeepsDirectories w'.disk := by
    intro k hk
    rcases hnode k with heq | ⟨-, hdir, -⟩
    · rw [heq, hk]
    · exact hdir
  have hcases : ∀ other, Made w₀ w' other → Made w₀ w other ∨ other = root := by
    intro other hother
    rw [hmade, List.mem_singleton] at hother
    exact hother.imp_right Workspace.announcement_inj
  refine ⟨fun hlive => ?_, hcreated.current_eq.trans h.current_eq,
    hcreated.temporary_eq.trans h.temporary_eq, ?_, ?_, ?_, ?_, ?_, ?_⟩
  · have hdir := (Disk.isDirectory_iff.1 (h.exist root hlive)).2.2
    rw [h.current_eq, hnone] at hdir
    cases hdir
  · rw [hcreated.log_eq]
    exact h.logged.trans (List.prefix_append _ _)
  · intro other hother
    rcases hcases other hother with hother | rfl
    · exact h.site other hother
    · exact hsite
  · intro other hother
    rcases hcases other hother with hother | rfl
    · exact h.names other hother
    · exact hnames
  · intro other hother
    rw [hmade, List.mem_singleton]
    rcases List.mem_cons.1 hother with rfl | hother
    · exact Or.inr rfl
    · exact Or.inl (h.made other hother)
  · intro other hother
    rcases List.mem_cons.1 hother with rfl | hother
    · exact hcreated.isDirectory
    · exact isDirectory_of_keeps hcreated.current_eq hkeeps (h.exist other hother)
  · intro hkept other hother hlive hdir
    rw [List.mem_cons, not_or] at hlive
    have hbefore := (hcases other hother).resolve_right hlive.1
    rcases hnode (other.target w₀.disk.current) with heq | ⟨-, -, hroot | hvisits⟩
    · rw [heq] at hdir
      exact h.gone hkept other hbefore hlive.2 hdir
    · have hbelow : other.target w₀.disk.current <+: root.target w₀.disk.current :=
        hroot ▸ List.prefix_rfl
      exact hlive.1 ( Site.eq_of_prefix (h.site other hbefore) hsite hbelow)
    · exact h.ne_target_of_visits hcurrent hbefore hvisits rfl

/-- A workspace that cannot be made leaves no trace among the workspaces. -/
theorem of_not_created {e : Error} (h : Tended w₀ directory kept live w)
    (hcurrent : ∀ name ∈ w₀.disk.current, Path.IsName name)
    (hcreate : (Workspace.create directory).outcome w = (.error e, w')) :
    e.Inner ∧ Tended w₀ directory kept live w' := by
  have hmakes := Disk.makes_createDirectories w.disk directory
  rw [h.current_eq] at hmakes
  rw [Workspace.outcome_create] at hcreate
  generalize w.disk.createDirectories directory = made at hmakes hcreate
  obtain ⟨d, result⟩ := made
  have hinner := inner_systemError directory
  cases result with
  | error fault =>
    cases hcreate
    exact ⟨hinner fault, h.of_makes hcurrent hmakes⟩
  | ok u =>
    dsimp only at hcreate
    split at hcreate
    · next fault _ =>
      cases hcreate
      exact ⟨hinner fault, h.of_makes hcurrent hmakes⟩
    · cases hcreate

/-- A template that is unpacked brings its workspace into use. -/
theorem of_unpackTemplate {options : Options} {template : Path} {ws : Workspace}
    (h : Tended w₀ (Session.workspaceDirectory options w₀.temporary) options.keepWorkspace live w)
    (hcurrent : ∀ name ∈ w₀.disk.current, Path.IsName name)
    (hpackage : Ends (Session.unpackTemplate options template) w ws w') :
    ws.kept = options.keepWorkspace ∧ ws.root ∉ live ∧
      Tended w₀ (Session.workspaceDirectory options w₀.temporary) options.keepWorkspace
        (ws.root :: live) w' := by
  obtain ⟨hkept, w₁, n, hcreated, hunpack⟩ := Session.exists_created_of_ends hpackage
  rw [h.temporary_eq] at hcreated
  obtain ⟨hroot, hopened⟩ := h.of_created hcurrent hcreated
  have hnames := hopened.names ws.root (hopened.made ws.root List.mem_cons_self)
  have hconfined := (keeps_unpack hnames template).of_ends hunpack
  refine ⟨hkept, hroot, hopened.stays hconfined ?_⟩
  exact isDirectory_of_ends_unpack (hopened.current_eq.symm ▸ hnames) hcreated.isDirectory hunpack

/-- A template that cannot be unpacked brings none into use. -/
theorem of_not_unpacked {options : Options} {template : Path} {e : Error}
    (h : Tended w₀ (Session.workspaceDirectory options w₀.temporary) options.keepWorkspace live w)
    (hcurrent : ∀ name ∈ w₀.disk.current, Path.IsName name)
    (hpackage : (Session.unpackTemplate options template).outcome w = (.error e, w')) :
    e.Inner ∧ Tended w₀ (Session.workspaceDirectory options w₀.temporary) options.keepWorkspace
      live w' := by
  have hopening := Session.opening_outcome options template w
  rw [hpackage] at hopening
  cases hopening with
  | notCreated hcreate =>
    rw [h.temporary_eq] at hcreate
    exact h.of_not_created hcurrent hcreate
  | @notUnpacked ws _ w₁ w₂ hcreate hunpack =>
    obtain ⟨-, hcreated⟩ := Workspace.created_of_ends hcreate
    rw [h.temporary_eq] at hcreated
    obtain ⟨hroot, hopened⟩ := h.of_created hcurrent hcreated
    have hnames := hopened.names ws.root (hopened.made ws.root List.mem_cons_self)
    obtain ⟨hconfined, hinner⟩ := (keeps_unpack hnames template).of_fails hunpack
    exact ⟨hinner, of_work_released hopened rfl hroot hconfined⟩

end Tended

end DocxTemplate
