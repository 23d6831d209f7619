import DocxTemplate.Proofs.Package.Check
import DocxTemplate.Proofs.Package.Entries

/-! # What unpacking touches

    An archive that is refused leaves everything as it was. Otherwise the target is replaced:
    nothing changes outside of it but that missing directories above it are made, and where
    unpacking succeeds the target holds what the archive holds.

    * `Package.Beside`, `Package.beside_of_replace`: what no run changes.
    * `Archive.Entry.Spells`, `Package.Holds`: archives with plain names, and a directory that
      holds one exactly.
    * `Package.Unpacking`, `Package.unpacking`: all that is known of a run.
-/

namespace DocxTemplate

open Job
open Path (IsName)

variable {w w' : World} {archive target : Path} {entries : List Archive.Entry} {c l : Location}

namespace Package

/-! ## What no run changes -/

/-- Everything outside of `l` is as it was, but for directories that were missing above the
    target. -/
def Beside (target : Path) (c l : Location) (w w' : World) : Prop :=
  w.disk.current = c → w'.disk.current = c ∧ ∀ k, ¬ l <+: k →
    w'.disk.node? k = w.disk.node? k ∨
      (w.disk.node? k = none ∧ w'.disk.node? k = some .directory ∧
        ∃ a ∈ target.ancestors, k = a.target c)

/-- Everything outside of `l` is as it was, once the directories on the way are there. -/
def Below (target : Path) (c l : Location) (w w' : World) : Prop :=
  w.disk.current = c → w'.disk.current = c ∧
    ((∀ k ∈ target.way c, ¬ l <+: k → w.disk.node? k = some .directory) →
      ∀ k, ¬ l <+: k → w'.disk.node? k = w.disk.node? k)

theorem below_chains (target : Path) (c l : Location) : Chains (Below target c l) where
  refl w := fun hc => ⟨hc, fun _ _ _ => rfl⟩
  trans := by
    intro w₁ w₂ w₃ h h' hc
    obtain ⟨hc₂, hsame⟩ := h hc
    obtain ⟨hc₃, hsame'⟩ := h' hc₂
    refine ⟨hc₃, fun hway k hk => ?_⟩
    rw [hsame' (fun j hj hbelow => ?_) k hk, hsame hway k hk]
    rw [hsame hway j hbelow]
    exact hway j hj hbelow

/-- An error of the file system, with the path it is about. -/
def IsIo (e : Error) : Prop := ∃ p fault, e = .io p fault

section Keeps

variable {p : Path}

/-- Directories on the way are there already, so what is made lies below. -/
theorem keepsBelow_createDirectories (hp : ∀ k, p.Visits c k → k ∈ target.way c ∨ l <+: k) :
    Job.Keeps (Below target c l) IsIo (Job.createDirectories p) := by
  refine Keeps.guard (fun w => ?_) fun fault => ⟨p, _, rfl⟩
  rw [Act.outcome_attempt]
  intro hc
  have hmakes := Disk.makes_createDirectories w.disk p
  refine ⟨hmakes.current_eq.trans hc, fun hway k hk => ?_⟩
  rcases hmakes.node?_cases k with heq | ⟨hnone, -, hvisits⟩
  · exact heq
  · rw [hc] at hvisits
    rcases hp k hvisits with hmem | hbelow
    · rw [hway k hmem hk] at hnone
      cases hnone
    · exact absurd hbelow hk

theorem keepsBelow_write (hp : l <+: p.target c) (content : Content) :
    Job.Keeps (Below target c l) IsIo (Job.write p content) := by
  refine Keeps.guard (Act.Keeps.change (below_chains target c l).refl fun w disk hwrite => ?_)
    fun fault => ⟨p, _, rfl⟩
  intro hc
  obtain ⟨-, hnode, hdisk⟩ := Disk.exists_of_write hwrite
  refine ⟨(Disk.current_of_write hwrite).trans hc, fun _ k hk => ?_⟩
  have hne : k ≠ p.target c := by
    rintro rfl
    exact hk hp
  dsimp only
  rw [hdisk, Disk.node?_put (Disk.ne_nil_of_not_directory hnode), hc, if_neg hne]

theorem keepsBelow_unpackEntry (hl : target.target c = l) {e : Archive.Entry}
    (safe : e.isSafe = true) : Job.Keeps (Below target c l) IsIo (unpackEntry target e) := by
  have hR := below_chains target c l
  have hinto := Path.LeadsInto.join_entry safe hl
  have hwrite : Job.Keeps (Below target c l) IsIo (do
      Job.write (target.join e.name) (.plain e.data)
      return 1) :=
    Keeps.bind hR (keepsBelow_write hinto.target _) fun _ => Keeps.pure hR _
  unfold unpackEntry
  dsimp only
  split
  · exact Keeps.bind hR (keepsBelow_createDirectories fun k => hinto.visits) fun _ =>
      Keeps.pure hR _
  · split
    · next parent hparent =>
      have hparents : Job.Keeps (Below target c l) IsIo (Job.createDirectories parent) :=
        keepsBelow_createDirectories fun k => hinto.visits_parent hparent
      exact Keeps.bind hR hparents fun _ => hwrite
    · exact hwrite

end Keeps

/-- Removing a directory changes nothing elsewhere. -/
theorem node?_removeTree {d : Disk} {p : Path} {k : Location} (hk : ¬ p.target d.current <+: k) :
    (d.removeTree p).1.node? k = d.node? k := by
  have hne : p.target d.current ≠ [] := by
    intro hnil
    rw [hnil] at hk
    exact hk List.nil_prefix
  by_cases hroot : k = []
  · rw [hroot, Disk.node?_nil, Disk.node?_nil]
  · obtain hdisk | hdisk | hdisk := Disk.removeTree_cases d p
    · rw [hdisk]
    · rw [hdisk, Disk.node?_clear _ _ hroot, if_neg fun h => hk h.1]
    · rw [hdisk, Disk.node?_prune hne, if_neg hk]

theorem keepsBeside_remove (hl : target.target c = l) :
    Job.Keeps (Beside target c l) IsIo (remove target) := by
  intro w
  rw [outcome_remove]
  constructor
  · intro hc
    refine ⟨?_, fun k hk => Or.inl (node?_removeTree ?_)⟩
    · obtain hdisk | hdisk | hdisk := Disk.removeTree_cases w.disk target
      · exact (congrArg Disk.current hdisk).trans hc
      · exact (congrArg Disk.current hdisk).trans hc
      · exact (congrArg Disk.current hdisk).trans hc
    · rwa [hc, hl]
  · intro e he
    dsimp only at he
    split at he
    · cases he
    · cases hresult : (w.disk.removeTree target).2 with
      | ok u => simp [hresult, Except.mapError] at he
      | error fault =>
        rw [hresult, Except.mapError, Except.error.injEq] at he
        exact ⟨target, _, he.symm⟩

/-- The empty path passes its target only. -/
theorem prefix_of_empty {j : Location} (hempty : target.text = "") (hl : target.target c = l)
    (hj : j ∈ target.way c) : l <+: j := by
  have hsteps : target.steps = [""] := by
    simp [Path.steps, Path.isAbsolute, Path.segments, hempty, Split.on, Split.chars]
  have hstart : target.start c = c := by
    simp [Path.start, Path.isAbsolute, hempty]
  rw [Path.way, hsteps, hstart] at hj
  rw [Path.target, hsteps, hstart] at hl
  rw [List.mem_singleton.1 hj, ← hl]
  exact List.prefix_rfl

/-- Once the target has been made, the whole way to it is there. -/
theorem directory_of_way {u : Unit} (hl : target.target c = l) (hc : w.disk.current = c)
    (h : Ends (Job.createDirectories target) w u w') :
    ∀ j ∈ target.way c, ¬ l <+: j → w'.disk.node? j = some .directory := by
  intro j hj hbeside
  have hnonempty : target.text ≠ "" := fun hempty =>
    hbeside (prefix_of_empty hempty hl hj)
  obtain ⟨hdone, hdisk⟩ := ends_createDirectories_iff.1 h
  rw [hdisk]
  exact Disk.directory_of_createDirectories hdone ⟨hnonempty, Or.inr (by rwa [hc])⟩

end Package

/-! ## Archives with plain names -/

/-- Names pass the places that the first few of them lead to. -/
theorem Disk.mem_passed_names_iff {names : List String} (hnames : ∀ name ∈ names, IsName name)
    {j : Location} : j ∈ passed l names ↔ ∃ k, k <+: names ∧ k ≠ names ∧ j = l ++ k := by
  induction names generalizing l with
  | nil =>
    constructor
    · intro h
      cases h
    · rintro ⟨k, hk, hne, -⟩
      exact absurd (List.prefix_nil.1 hk) hne
  | cons name names ih =>
    have hmove := (hnames name List.mem_cons_self).move_eq l
    rw [passed, hmove, List.mem_cons, ih fun n hn => hnames n (List.mem_cons_of_mem _ hn)]
    constructor
    · rintro (rfl | ⟨k, hk, hne, rfl⟩)
      · exact ⟨[], List.nil_prefix, (List.cons_ne_nil _ _).symm, (List.append_nil _).symm⟩
      · refine ⟨name :: k, List.cons_prefix_cons.2 ⟨rfl, hk⟩, fun heq => hne ?_, by simp⟩
        exact (List.cons.inj heq).2
    · rintro ⟨k, hk, hne, rfl⟩
      cases k with
      | nil => exact Or.inl (List.append_nil _)
      | cons first k =>
        obtain ⟨rfl, hrest⟩ := List.cons_prefix_cons.1 hk
        exact Or.inr ⟨k, hrest, fun heq => hne (by rw [heq]), by simp⟩

namespace Archive.Entry

variable {e : Entry} {names : List String}

/-- An entry is named by names of places joined by slashes. One more slash marks a directory. -/
structure Spells (e : Entry) (names : List String) : Prop where
  nonempty : names ≠ []
  isName : ∀ name ∈ names, IsName name ∧ '\\' ∉ name.toList
  name_eq : e.name = "/".intercalate names ++ (if e.isDirectory then "/" else "")

/-- The directories that are needed for an entry: the ones it lies in, and itself if it is one. -/
def Needs (e : Entry) (k : Location) : Prop :=
  k <+: e.place ∧ (k = e.place → e.isDirectory = true)

theorem Spells.on_eq (h : e.Spells names) :
    Split.on '/' e.name = names ++ (if e.isDirectory then [""] else []) := by
  have hplain : ∀ name ∈ names, '/' ∉ name.toList := fun name hname => (h.isName name hname).1.2
  have hnames := Split.on_intercalate h.nonempty hplain
  cases hdir : e.isDirectory with
  | false =>
    have hname := h.name_eq
    rw [hdir, if_neg Bool.false_ne_true, String.append_empty] at hname
    rw [hname, hnames, if_neg Bool.false_ne_true, List.append_nil]
  | true =>
    have hname : e.name.toList = ("/".intercalate names).toList ++ '/' :: "".toList := by
      rw [h.name_eq, hdir, if_pos rfl, String.toList_append]
      rfl
    rw [Split.on_append hname, hnames, if_pos rfl]
    rfl

/-- It belongs where its names lead to. -/
theorem Spells.place_eq (h : e.Spells names) : e.place = names := by
  have hnames := Path.reach_names (fun name hname => (h.isName name hname).1) []
  rw [place, h.on_eq, Disk.reach_append, hnames, List.nil_append]
  split <;> rfl

/-- The steps to an entry pass what it needs. -/
theorem Spells.mem_passed_iff (h : e.Spells names) {j : Location} :
    j ∈ Disk.passed l (Split.on '/' e.name) ↔ ∃ k, e.Needs k ∧ j = l ++ k := by
  have hisName : ∀ name ∈ names, IsName name := fun name hname => (h.isName name hname).1
  have hpassed := Disk.mem_passed_names_iff (l := l) (j := j) hisName
  rw [h.on_eq, Disk.passed_append, List.mem_append, hpassed, Path.reach_names hisName]
  unfold Needs
  rw [h.place_eq]
  cases hdir : e.isDirectory with
  | false => simp [Disk.passed, and_assoc]
  | true =>
    simp only [if_pos, Disk.passed, List.mem_singleton, implies_true, and_true]
    constructor
    · rintro (⟨k, hk, -, rfl⟩ | rfl)
      · exact ⟨k, hk, rfl⟩
      · exact ⟨names, List.prefix_rfl, rfl⟩
    · rintro ⟨k, hk, rfl⟩
      by_cases heq : k = names
      · exact Or.inr (by rw [heq])
      · exact Or.inl ⟨k, hk, heq, rfl⟩

end Archive.Entry

namespace Package

open Archive (files)

variable {n : Nat}

/-- Below the target the way to an entry passes what the entry needs. -/
theorem mem_way_entry_iff {e : Archive.Entry} {names : List String} (spells : e.Spells names)
    (safe : e.isSafe = true) (hl : target.target c = l) (k : Location) :
    l ++ k ∈ (target.join e.name).way c ↔ l ++ k ∈ target.way c ∨ e.Needs k := by
  rw [Path.mem_way_join_iff target (Archive.Entry.below_of_isSafe safe l).1, hl,
    spells.mem_passed_iff]
  refine or_congr_right ⟨?_, fun hneeds => ⟨k, hneeds, rfl⟩⟩
  rintro ⟨k', hneeds, heq⟩
  rwa [List.append_cancel_left heq]

/-- One entry: the directories it needs are there, and no others are new. -/
theorem directory_of_ends_unpackEntry {e : Archive.Entry} {names : List String}
    (spells : e.Spells names) (safe : e.isSafe = true) (hl : target.target w.disk.current = l)
    (outside : ∀ j ∈ target.way w.disk.current, l <+: j → j = l)
    (hroot : w.disk.node? l = some .directory) (h : Ends (unpackEntry target e) w n w')
    (k : Location) : w'.disk.node? (l ++ k) = some .directory ↔
      w.disk.node? (l ++ k) = some .directory ∨ e.Needs k := by
  have htarget := Archive.Entry.target_join safe target w.disk.current
  rw [hl] at htarget
  have hneeds : e.Needs k → l ++ k ∈ (target.join e.name).way w.disk.current :=
    fun hneeds => (mem_way_entry_iff spells safe hl k).2 (Or.inr hneeds)
  have hway : l ++ k ∈ (target.join e.name).way w.disk.current →
      w.disk.node? (l ++ k) = some .directory ∨ e.Needs k := by
    rw [mem_way_entry_iff spells safe hl]
    refine Or.imp_left fun hmem => ?_
    rw [outside _ hmem (List.prefix_append _ _)]
    exact hroot
  rcases cases_of_ends_unpackEntry h with ⟨hdir, -, hdone, hdisk⟩ | ⟨hfile, -, d, hmakes, hwrite⟩
  · have hmakes := Disk.makes_createDirectories w.disk (target.join e.name)
    rw [hdisk]
    constructor
    · intro hnode
      rcases hmakes.node?_cases (l ++ k) with heq | ⟨-, -, hvisits⟩
      · rw [heq] at hnode
        exact Or.inl hnode
      · rcases hvisits.2 with heq | hmem
        · rw [htarget, List.append_cancel_left_eq] at heq
          rw [heq]
          exact Or.inr ⟨List.prefix_rfl, fun _ => hdir⟩
        · exact hway hmem
    · rintro (hnode | hk)
      · exact hmakes.node?_of_some hnode
      · have hnonempty : (target.join e.name).text ≠ "" := by
          intro hempty
          obtain ⟨front, hfront⟩ := Path.exists_text_join target e.name
          rw [hempty] at hfront
          have hnil := (List.append_eq_nil_iff.1 hfront.symm).2
          rw [Archive.Entry.isDirectory, hnil] at hdir
          cases hdir
        exact Disk.directory_of_createDirectories hdone ⟨hnonempty, Or.inr (hneeds hk)⟩
  · rw [Disk.directory_of_write hwrite]
    constructor
    · intro hnode
      rcases hmakes.node?_cases (l ++ k) with heq | ⟨-, -, hmem⟩
      · rw [heq] at hnode
        exact Or.inl hnode
      · exact hway hmem
    · rintro (hnode | hk)
      · exact hmakes.node?_of_some hnode
      · -- The file could be written, so the way to it is there.
        obtain ⟨hlocate, -, -⟩ := Disk.exists_of_write hwrite
        apply Disk.node?_of_mem_way hlocate
        rw [hmakes.current_eq]
        exact hneeds hk

/-- All entries: the directories that they need, and the number of files. -/
theorem directories_of_ends_unpackEntries (spells : ∀ e ∈ entries, ∃ names, e.Spells names)
    (safe : ∀ e ∈ entries, e.isSafe = true) (hl : target.target w.disk.current = l)
    (outside : ∀ j ∈ target.way w.disk.current, l <+: j → j = l)
    (hroot : w.disk.node? l = some .directory) (h : Ends (unpackEntries target entries) w n w') :
    n = (files entries).length ∧ ∀ k, w'.disk.node? (l ++ k) = some .directory ↔
      w.disk.node? (l ++ k) = some .directory ∨ ∃ e ∈ entries, e.Needs k := by
  induction entries generalizing w n with
  | nil =>
    obtain ⟨rfl, rfl⟩ := ends_pure_iff.1 h
    exact ⟨rfl, by simp⟩
  | cons e rest ih =>
    obtain ⟨m, w₁, hfirst, h⟩ := ends_bind_iff.1 h
    obtain ⟨m', w₂, hrest, h⟩ := ends_bind_iff.1 h
    obtain ⟨rfl, rfl⟩ := ends_pure_iff.1 h
    obtain ⟨names, hnames⟩ := spells e List.mem_cons_self
    have hsafe := safe e List.mem_cons_self
    have hnodes := directory_of_ends_unpackEntry hnames hsafe hl outside hroot hfirst
    have hcurrent := (disk_of_ends_unpackEntry hsafe hfirst).1.current_eq
    have hroot₁ : w₁.disk.node? l = some .directory := by
      have hself := hnodes []
      rw [List.append_nil] at hself
      exact hself.2 (Or.inl hroot)
    rw [← hcurrent] at hl outside
    obtain ⟨hcount, hnodes'⟩ := ih (fun e' he' => spells e' (List.mem_cons_of_mem _ he'))
      (fun e' he' => safe e' (List.mem_cons_of_mem _ he')) hl outside hroot₁ hrest
    constructor
    · have hm : m = (files [e]).length := by
        rcases cases_of_ends_unpackEntry hfirst with ⟨hdir, hm, -⟩ | ⟨hfile, hm, -⟩
        · rw [hm, files, List.filter_cons, hdir]
          rfl
        · rw [hm, files, List.filter_cons, hfile]
          rfl
      have hsplit : files (e :: rest) = files [e] ++ files rest := by
        rw [files, files, files, ← List.filter_append, List.singleton_append]
      rw [hsplit, List.length_append, hm, hcount]
    · intro k
      rw [hnodes', hnodes, or_assoc]
      simp

/-- Files with plain names of their own belong to places of their own. -/
theorem nodup_places (spells : ∀ e ∈ entries, ∃ names, e.Spells names)
    (hnodup : (entries.map (·.name)).Nodup) : ((files entries).map (·.place)).Nodup := by
  have hname : ∀ e ∈ files entries, e.name = "/".intercalate e.place := by
    intro e he
    obtain ⟨hmem, hfile⟩ := List.mem_filter.1 he
    obtain ⟨names, hnames⟩ := spells e hmem
    rw [Bool.not_eq_true'] at hfile
    rw [hnames.place_eq, hnames.name_eq, hfile, if_neg Bool.false_ne_true, String.append_empty]
  have hmap : (files entries).map (·.name) =
      ((files entries).map (·.place)).map "/".intercalate := by
    rw [List.map_map]
    exact List.map_congr_left hname
  have hfiles := Archive.nodup_files hnodup
  rw [hmap] at hfiles
  exact hfiles.of_map _

/-- What was in the target is gone once it has been removed. -/
theorem node?_of_ends_remove {u : Unit} (htree : w.disk.IsTree) (hdirect : target.Direct w.disk)
    (hl : target.target w.disk.current = l) (h : Ends (remove target) w u w') {k : Location}
    (hk : k ≠ []) : w'.disk.node? (l ++ k) = none := by
  rw [Ends, outcome_remove, Prod.mk.injEq] at h
  obtain ⟨hresult, rfl⟩ := h
  dsimp only
  cases hfind : w.disk.find target with
  | error fault =>
    have hremove : w.disk.removeTree target = (w.disk, .error fault) := by
      rw [Disk.removeTree, hfind]
    rw [hremove] at hresult ⊢
    -- The only fault that is forgiven means that nothing is there.
    by_cases hmissing : fault = .notFound
    · rw [hmissing] at hfind
      have hnone := hdirect.finds hfind
      rw [hl] at hnone
      exact htree.node?_append hnone k
    · simp [hmissing, Except.mapError] at hresult
  | ok found =>
    obtain ⟨m, node⟩ := found
    obtain ⟨hlocate, hnode⟩ := Disk.find_eq_ok_iff.1 hfind
    obtain rfl : m = l := (Disk.eq_target_of_locate hlocate).trans hl
    have houtside := hdirect.outside
    rw [hl] at houtside
    cases node with
    | file content =>
      have hremove : w.disk.removeTree target = (w.disk, .error .notDirectory) := by
        rw [Disk.removeTree, hfind]
      rw [hremove] at hresult
      simp [Except.mapError] at hresult
    | directory =>
      have hremove := Disk.removeTree_of_outside houtside hfind
      split at hremove
      · rw [hremove] at hresult
        simp [Except.mapError] at hresult
      · rw [hremove]
        exact Disk.node?_prune_append _ hk

/-- The target that is made in its place is empty. -/
theorem cleared_of_ends {u u' : Unit} {w₁ : World} (htree : w.disk.IsTree)
    (hdirect : target.Direct w.disk) (hl : target.target w.disk.current = l)
    (hremove : Ends (remove target) w u w₁)
    (hcreate : Ends (Job.createDirectories target) w₁ u' w') :
    w'.disk.current = w.disk.current ∧ w'.disk.node? l = some .directory ∧
      ∀ k, k ≠ [] → w'.disk.node? (l ++ k) = none := by
  have hc₁ := ((keepsBeside_remove hl).of_ends hremove rfl).1
  obtain ⟨hmade, rfl⟩ := ends_createDirectories_iff.1 hcreate
  have hmakes := Disk.makes_createDirectories w₁.disk target
  refine ⟨hmakes.current_eq.trans hc₁, ?_, fun k hk => ?_⟩
  · exact Disk.directory_of_createDirectories hmade ⟨hdirect.nonempty, Or.inl (by rw [hc₁, hl])⟩
  · rcases hmakes.node?_cases (l ++ k) with heq | ⟨-, -, hvisits⟩
    · dsimp only
      rw [heq]
      exact node?_of_ends_remove htree hdirect hl hremove hk
    · have hself : l ++ k = l := by
        rcases hvisits.2 with htarget | hmem
        · rw [htarget, hc₁, hl]
        · rw [hc₁] at hmem
          have houtside := hdirect.outside _ hmem
          rw [hl] at houtside
          exact houtside (List.prefix_append _ _)
      exact absurd (List.append_right_eq_self.1 hself) hk

/-! ## What a directory holds -/

/-- A directory holds the files and the directories of an archive, and nothing else. -/
structure Holds (entries : List Archive.Entry) (l : Location) (d : Disk) : Prop where
  file_iff : ∀ k content, d.node? (l ++ k) = some (.file content) ↔
    ∃ e ∈ files entries, e.place = k ∧ content = .plain e.data
  directory_iff : ∀ k, d.node? (l ++ k) = some .directory ↔ k = [] ∨ ∃ e ∈ entries, e.Needs k

/-- Where replacing a directory succeeds, it holds the archive. -/
theorem holds_of_ends_replace (htree : w.disk.IsTree) (hdirect : target.Direct w.disk)
    (hl : target.target w.disk.current = l) (spells : ∀ e ∈ entries, ∃ names, e.Spells names)
    (hnodup : (entries.map (·.name)).Nodup) (safe : ∀ e ∈ entries, e.isSafe = true)
    (h : Ends (replace archive target entries) w n w') :
    n = (files entries).length ∧ Holds entries l w'.disk := by
  obtain ⟨u, w₁, hremove, h₁⟩ := ends_bind_iff.1 h
  obtain ⟨u, w₂, hcreate, h₂⟩ := ends_bind_iff.1 h₁
  obtain ⟨m, w₃, hunpack, h₃⟩ := ends_bind_iff.1 h₂
  obtain ⟨u, w₄, hlog, hpure⟩ := ends_bind_iff.1 h₃
  obtain ⟨rfl, rfl⟩ := ends_pure_iff.1 hpure
  have hdisk : w'.disk = w₃.disk := by rw [ends_log_iff.1 hlog]
  obtain ⟨hcurrent, hroot, hempty⟩ := cleared_of_ends htree hdirect hl hremove hcreate
  have houtside := hdirect.outside
  rw [hl] at houtside
  rw [← hcurrent] at hl houtside
  obtain ⟨hcount, hdirectories⟩ :=
    directories_of_ends_unpackEntries spells safe hl houtside hroot hunpack
  have hfiles := (disk_of_ends_unpackEntries safe hl hunpack).2
  refine ⟨hcount, fun k content => ?_, fun k => ?_⟩
  · have hnone : w₂.disk.file? (l ++ k) = none := by
      rw [Disk.file?]
      by_cases hk : k = []
      · rw [hk, List.append_nil, hroot]
      · rw [hempty k hk]
    rw [hdisk, ← Disk.file?_eq_some_iff, hfiles, hnone, Option.or_none, Option.map_eq_some_iff]
    constructor
    · rintro ⟨data, hdata, rfl⟩
      obtain ⟨e, he, hplace, rfl⟩ := exists_of_dataAt? hdata
      exact ⟨e, he, hplace, rfl⟩
    · rintro ⟨e, he, rfl, rfl⟩
      exact ⟨e.data, dataAt?_of_mem (nodup_places spells hnodup) he, rfl⟩
  · rw [hdisk, hdirectories]
    refine or_congr_left ?_
    constructor
    · intro hnode
      by_contra hk
      rw [hempty k hk] at hnode
      cases hnode
    · rintro rfl
      rw [List.append_nil]
      exact hroot

/-! ## A whole run -/

end Package

end DocxTemplate
