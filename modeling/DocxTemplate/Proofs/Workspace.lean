import DocxTemplate.Package.Relationships
import DocxTemplate.Proofs.Package.Unpack
import DocxTemplate.Workspace

/-! # Where workspaces are

    A new workspace is a directory that did not exist before, with a name of its own in the
    directory for workspaces.

    * `Workspace.Site`: a path that a workspace has in a directory.
    * `Site.names`: such a path names its target, so the workspace can be removed whole.
    * `Site.eq_of_prefix`: workspaces of one directory do not lie in each other.
    * `Workspace.Created`, `Workspace.created_of_ends`: the world behind a successful creation.
-/

namespace DocxTemplate

namespace Workspace

open Job
open Path (IsName)

variable {d : Disk} {c l k : Location} {base root : Path} {w w' : World}

/-! ## Names -/

/-- The characters of a workspace's number are digits. -/
theorem isDigit_of_mem_sixDigits {n : Nat} {b : Char} (h : b ∈ (sixDigits n).toList) :
    b.isDigit = true := by
  rw [sixDigits, String.toList_ofList, List.mem_append] at h
  rcases h with h | h
  · rw [List.eq_of_mem_replicate h]
    rfl
  · exact Nat.isDigit_of_mem_toDigits (by decide) (by decide) h

theorem isName_workspaceName (n : Nat) : IsName (namePrefix ++ sixDigits n) := by
  have htext : (namePrefix ++ sixDigits n).toList =
      'd' :: 'o' :: ("cxgen_".toList ++ (sixDigits n).toList) := by
    rw [String.toList_append]
    rfl
  constructor
  · intro hmem
    have hshort : (namePrefix ++ sixDigits n).toList ∈ ["", ".", ".."].map String.toList :=
      List.mem_map_of_mem hmem
    rw [htext] at hshort
    simp at hshort
  · rw [htext]
    simp only [List.mem_cons, List.mem_append, not_or]
    refine ⟨by decide, by decide, by decide, fun hdigit => ?_⟩
    exact absurd (isDigit_of_mem_sixDigits hdigit) (by decide)

/-! ## Sites -/

/-- A path that a workspace has: a name in the directory `base`. -/
structure Site (base root : Path) : Prop where
  absolute : base.isAbsolute = true
  named : ∃ name, IsName name ∧ root = base.join name

namespace Site

theorem isAbsolute (h : Site base root) : root.isAbsolute = true := by
  obtain ⟨name, hname, rfl⟩ := h.named
  rw [Path.isAbsolute_join hname.head?_ne, h.absolute]

/-- It lies in the directory. -/
theorem exists_target (h : Site base root) (c : Location) :
    ∃ name, IsName name ∧ root = base.join name ∧ root.target c = base.target c ++ [name] := by
  obtain ⟨name, hname, rfl⟩ := h.named
  refine ⟨name, hname, rfl, ?_⟩
  rw [Path.target_join base hname.head?_ne, hname.on_eq, Disk.reach_cons, hname.move_eq,
    Disk.reach_nil]

/-- The way to it is the same for all workspaces. -/
theorem mem_way_iff (h : Site base root) : k ∈ root.way c ↔ k ∈ base.way c ∨ k = base.target c := by
  obtain ⟨name, hname, rfl⟩ := h.named
  rw [Path.mem_way_join_iff base hname.head?_ne, hname.on_eq, Disk.passed, Disk.passed,
    List.mem_singleton]

/-- Workspaces do not lie in each other. -/
theorem eq_of_prefix {root' : Path} (h : Site base root) (h' : Site base root')
    (hbelow : root.target c <+: root'.target c) : root = root' := by
  obtain ⟨name, -, rfl, htarget⟩ := h.exists_target c
  obtain ⟨name', -, rfl, htarget'⟩ := h'.exists_target c
  rw [htarget, htarget', List.prefix_append_right_inj] at hbelow
  have := hbelow.eq_of_length rfl
  rw [List.cons.injEq] at this
  rw [this.1]

/-- No slash follows its name, which is its last segment. -/
theorem lastSegment?_eq (h : Site base root) :
    root.withoutSlashes = root ∧ root.lastSegment? ≠ some "." := by
  have habs := h.isAbsolute
  obtain ⟨name, hname, rfl⟩ := h.named
  have hne : name.toList ≠ [] := fun hnil => hname.1 (by simp [String.toList_eq_nil_iff.1 hnil])
  obtain ⟨b, hb⟩ := Option.ne_none_iff_exists'.1 (mt List.getLast?_eq_none_iff.1 hne)
  have hslash : b ≠ '/' := by
    rintro rfl
    exact hname.2 (List.mem_of_getLast? hb)
  have hlast : (base.join name).text.toList.getLast? = some b := by
    obtain ⟨front, hfront⟩ := Path.exists_text_join base name
    rw [hfront, List.getLast?_append, hb]
    rfl
  have hwithout := Path.withoutSlashes_eq_self hlast hslash
  refine ⟨hwithout, ?_⟩
  obtain ⟨front, -, hsteps⟩ := Path.exists_steps_join base hname.head?_ne
  rw [Path.steps_of_isAbsolute habs, hname.on_eq] at hsteps
  have hsegments := congrArg List.getLast? hsteps
  rw [List.getLast?_drop, List.getLast?_concat] at hsegments
  rw [Path.lastSegment?, hwithout]
  split at hsegments
  · cases hsegments
  · rw [hsegments]
    intro heq
    exact hname.1 (by simp [Option.some.inj heq])

/-- A path at which nothing exists yet does not lead through its target. -/
theorem names (h : Site base root) (hlocate : d.locate root = .ok l) (hnone : d.node? l = none) :
    Disk.Names root d.current l := by
  have htarget := Disk.eq_target_of_locate hlocate
  have hne := Disk.ne_nil_of_node? hnone
  refine ⟨htarget.symm, hne, fun j hj hbelow => ?_, h.lastSegment?_eq.2⟩
  have hstart : root.start d.current = [] := by rw [Path.start, if_pos h.isAbsolute]
  have hroot : ¬ l <+: root.start d.current := by
    rw [hstart, List.prefix_nil]
    exact hne
  have hdir := Disk.node?_of_mem_way hlocate (Disk.mem_passed_of_prefix hj hbelow hroot)
  rw [hnone] at hdir
  cases hdir

end Site

/-! ## Creation -/

/-- The path of a directory that does not depend on the current one is absolute. -/
theorem isAbsolute_absolute (d : Disk) (p : Path) : (absolute d p).isAbsolute = true := by
  unfold absolute
  split
  · next h => exact h
  · next h =>
    have hhead : p.text.toList.head? ≠ some '/' := by
      intro hhead
      exact h (by rw [Path.isAbsolute, hhead]; rfl)
    rw [Path.isAbsolute_join hhead, Path.isAbsolute, currentPath]
    simp

/-- It is the same on all disks with the same current directory. -/
theorem absolute_eq_of_current {d' : Disk} (h : d'.current = d.current) (p : Path) :
    absolute d' p = absolute d p := by
  rw [absolute, absolute, currentPath, currentPath, h]

/-- The line of the log that tells of a new workspace. -/
def announcement (root : Path) : LogLine := ⟨.debug, s!"created workspace {root.text}"⟩

/-- The world behind the successful creation of a workspace: nothing existed at its path, and
    everything on the way there does. -/
structure Created (directory root : Path) (w w' : World) : Prop where
  site : Site (absolute w.disk directory) root
  temporary_eq : w'.temporary = w.temporary
  log_eq : w'.log = w.log ++ [announcement root]
  made : ∃ d, Disk.Makes (directory.Visits w.disk.current) w.disk d ∧
    (∀ k, directory.Visits w.disk.current k → d.node? k = some .directory) ∧
    d.locate root = .ok (root.target w.disk.current) ∧
    d.node? (root.target w.disk.current) = none ∧
    w'.disk = d.put (root.target w.disk.current) .directory

/-- The path of a new workspace, given the disk with the directory for it. -/
def newRoot (directory : Path) (d : Disk) (serial : Nat) : Path :=
  (absolute d directory).join
    (namePrefix ++ sixDigits (unusedSerial d (absolute d directory) serial))

theorem site_newRoot (directory : Path) (d : Disk) (serial : Nat) :
    Site (absolute d directory) (newRoot directory d serial) :=
  ⟨isAbsolute_absolute d directory, _, isName_workspaceName _, rfl⟩

/-- What creating a workspace comes to. -/
theorem outcome_create (directory : Path) (w : World) : (create directory).outcome w =
    match w.disk.createDirectories directory with
    | (d, .error fault) => (.error (systemError directory fault), { w with disk := d })
    | (d, .ok _) =>
      match d.createDirectory (newRoot directory d w.serial) with
      | .error fault => (.error (systemError directory fault),
          { w with
            disk := d
            serial := unusedSerial d (absolute d directory) w.serial + 1 })
      | .ok d' => (.ok { root := newRoot directory d w.serial },
          { w with
            disk := d'
            serial := unusedSerial d (absolute d directory) w.serial + 1
            log := w.log ++ [announcement (newRoot directory d w.serial)] }) := by
  have hfresh : ∀ w₁ : World, (Job.ofAct (freshRoot directory)).outcome w₁ =
      (.ok (newRoot directory w₁.disk w₁.serial),
        { w₁ with serial := unusedSerial w₁.disk (absolute w₁.disk directory) w₁.serial + 1 }) :=
    fun w₁ => rfl
  rw [create, outcome_bind, outcome_createDirectories]
  obtain ⟨d, result⟩ := w.disk.createDirectories directory
  cases result with
  | error fault => rfl
  | ok u =>
    dsimp only [Except.mapError]
    rw [outcome_bind, hfresh]
    dsimp only
    rw [outcome_bind, outcome_change]
    dsimp only
    cases d.createDirectory (newRoot directory d w.serial) <;> rfl

theorem created_of_ends {directory : Path} {ws : Workspace}
    (h : Ends (create directory) w ws w') : ws.kept = false ∧ Created directory ws.root w w' := by
  have hmakes := Disk.makes_createDirectories w.disk directory
  have hvisits := fun k => Disk.directory_of_createDirectories (d := w.disk) (p := directory) (k := k)
  rw [Ends, outcome_create] at h
  cases hparents : w.disk.createDirectories directory with
  | mk d result =>
    rw [hparents] at h hmakes hvisits
    cases result with
    | error fault => cases h
    | ok u =>
      dsimp only at h
      cases hmade : d.createDirectory (newRoot directory d w.serial) with
      | error fault =>
        rw [hmade] at h
        cases h
      | ok d' =>
        rw [hmade] at h
        cases h
        have hsite := site_newRoot directory d w.serial
        obtain ⟨hlocate, hnone, rfl⟩ := Disk.exists_of_createDirectory hmade
        rw [hsite.lastSegment?_eq.1] at hlocate
        rw [hmakes.current_eq] at hlocate hnone
        rw [absolute_eq_of_current hmakes.current_eq] at hsite
        refine ⟨rfl, hsite, rfl, rfl, d, hmakes, fun k => hvisits k rfl, hlocate, hnone, ?_⟩
        dsimp only
        rw [hmakes.current_eq]

namespace Created

variable {directory : Path}

theorem current_eq (h : Created directory root w w') : w'.disk.current = w.disk.current := by
  obtain ⟨d, hmakes, -, -, -, hdisk⟩ := h.made
  rw [hdisk, Disk.current_put, hmakes.current_eq]

/-- It is made where there was nothing. -/
theorem node?_eq_none (h : Created directory root w w') :
    w.disk.node? (root.target w.disk.current) = none := by
  obtain ⟨d, hmakes, -, -, hnone, -⟩ := h.made
  rcases hmakes.node?_cases (root.target w.disk.current) with heq | ⟨hbefore, -, -⟩
  · rw [← heq, hnone]
  · exact hbefore

theorem names (h : Created directory root w w') :
    Disk.Names root w.disk.current (root.target w.disk.current) := by
  obtain ⟨d, hmakes, -, hlocate, hnone, -⟩ := h.made
  have hnames := h.site.names hlocate hnone
  rwa [hmakes.current_eq] at hnames

/-- Behind its creation it exists, and so do the directories it was made for. -/
theorem node?_eq (h : Created directory root w w') (k : Location) :
    w'.disk.node? k = w.disk.node? k ∨ (w.disk.node? k = none ∧ w'.disk.node? k = some .directory ∧
      (k = root.target w.disk.current ∨ directory.Visits w.disk.current k)) := by
  obtain ⟨d, hmakes, -, -, hnone, hdisk⟩ := h.made
  rw [hdisk, Disk.node?_put (Disk.ne_nil_of_node? hnone)]
  by_cases hk : k = root.target w.disk.current
  · subst hk
    rw [if_pos rfl]
    exact Or.inr ⟨h.node?_eq_none, rfl, Or.inl rfl⟩
  · rw [if_neg hk]
    rcases hmakes.node?_cases k with heq | ⟨hbefore, hdir, hplace⟩
    · exact Or.inl heq
    · exact Or.inr ⟨hbefore, hdir, Or.inr hplace⟩

theorem isDirectory (h : Created directory root w w') : w'.disk.isDirectory root = true := by
  have hcurrent := h.current_eq
  obtain ⟨d, hmakes, -, hlocate, hnone, hdisk⟩ := h.made
  have hput := Disk.node?_put (Disk.ne_nil_of_node? hnone) d .directory
  obtain ⟨hfits, hway, -⟩ := Disk.locate_eq_ok_iff.1 hlocate
  rw [hmakes.current_eq] at hway
  refine Disk.isDirectory_iff.2 ⟨hfits, ?_, ?_⟩
  · rw [hcurrent]
    intro j hj
    rw [hdisk, hput]
    split
    · rfl
    · exact hway j hj
  · rw [hcurrent, hdisk, hput, if_pos rfl]

theorem file?_eq (h : Created directory root w w') (k : Location) :
    w'.disk.file? k = w.disk.file? k := by
  rcases h.node?_eq k with heq | ⟨hnone, hdir, -⟩
  · exact Disk.file?_of_node?_eq heq
  · rw [Disk.file?, Disk.file?, hnone, hdir]

end Created

/-! ## Parts -/

/-- Where a part of the package lies. -/
def place (ws : Workspace) (c : Location) (part : String) : Location :=
  ws.root.target c ++ Split.on '/' part

/-- Parts lie at different places. -/
theorem place_inj {ws : Workspace} {part part' : String}
    (h : ws.place c part = ws.place c part') : part = part' := by
  rw [place, place, List.append_cancel_left_eq] at h
  rw [← Split.intercalate_on part, h, Split.intercalate_on]

/-- The text of a part, if the package has it. -/
def part? (ws : Workspace) (d : Disk) (part : String) : Option Bytes :=
  (d.file? (ws.place d.current part)).map Content.bytes

section Names

variable {part : String} (hpart : ∀ name ∈ Split.on '/' part, IsName name) (ws : Workspace)
  (c : Location)
include hpart

/-- The path of a part whose name consists of names takes one after the other. -/
theorem pathOf_eq : ws.pathOf part = (Split.on '/' part).foldl Path.join ws.root := by
  have hfilter : (Split.on '/' part).filter (· != "") = Split.on '/' part := by
    rw [List.filter_eq_self]
    intro name hname
    rw [bne_iff_ne]
    rintro rfl
    exact (hpart "" hname).1 List.mem_cons_self
  rw [pathOf, hfilter]

/-- The part lies where its path leads to. -/
theorem target_pathOf : (ws.pathOf part).target c = ws.place c part := by
  rw [pathOf_eq hpart, Path.target_foldl_join hpart, place]

/-- It is reached through the root. -/
theorem mem_way_pathOf_iff (k : Location) : k ∈ (ws.pathOf part).way c ↔
    k ∈ ws.root.way c ∨ k ∈ Disk.passed (ws.root.target c) (Split.on '/' part) := by
  rw [pathOf_eq hpart, Path.mem_way_foldl_join_iff hpart]

theorem isAbsolute_pathOf : (ws.pathOf part).isAbsolute = ws.root.isAbsolute := by
  rw [pathOf_eq hpart, Path.isAbsolute_foldl_join hpart]

end Names

/-- A part is missing, or it can be read and its text has a property. -/
def Holds (ws : Workspace) (d : Disk) (part : String) (P : Bytes → Prop) : Prop :=
  ws.part? d part = none ∨ ∃ text, d.readText (ws.pathOf part) = .ok text ∧ P text

/-- The relationships of the main document. There are none if there is no part for them. -/
def links (ws : Workspace) (d : Disk) : Except Xml.Error (List Relationship) :=
  match ws.part? d Part.relationships with
  | none => .ok []
  | some text => Relationship.readAll text

/-- A part that is read as text is the part that the package has. -/
theorem part?_of_readText {ws : Workspace} {part : String} {text : Bytes}
    (hpart : ∀ name ∈ Split.on '/' part, IsName name)
    (h : d.readText (ws.pathOf part) = .ok text) : ws.part? d part = some text := by
  rw [Disk.readText, Disk.read] at h
  cases hcontent : d.content (ws.pathOf part) with
  | error fault =>
    rw [hcontent] at h
    cases h
  | ok content =>
    rw [hcontent, Except.map] at h
    dsimp only at h
    have hfile := (Disk.content_eq_ok_iff.1 hcontent).2
    rw [target_pathOf hpart] at hfile
    rw [part?, hfile, Option.map_some]
    split at h
    · exact congrArg some (Except.ok.inj h)
    · cases h

end Workspace

end DocxTemplate
