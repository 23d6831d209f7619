import DocxTemplate.Proofs.Session.Opening

/-! # What happens in a workspace stays there

    Work on a workspace changes directories below its root only, and leaves the root where it
    is, unless it unpacks a template or removes the workspace.

    * `Confined`, `Grows`: the two relations, each of which chains.
    * `keeps_unpack`, `keeps_remove`: unpacking and removing are confined to the workspace.
    * `keeps_embedAll`, `keeps_store`: saving is, and no directory goes.
    * `not_isDirectory_of_release`: a workspace that is released does not exist afterwards.
-/

namespace DocxTemplate

open Job

variable {root p q : Path} {c l k : Location} {w w' : World} {d d' : Disk}

/-! ## Parts of a workspace -/

/-- A part lies in its workspace. -/
theorem Path.LeadsInto.pathOf {ws : Workspace} (hnames : Disk.Names ws.root c l) {part : String}
    (hpart : ∀ name ∈ Split.on '/' part, Path.IsName name) :
    Path.LeadsInto ws.root c l (ws.pathOf part) := by
  have hfold : ∀ (names : List String) (p : Path), (∀ name ∈ names, Path.IsName name) →
      LeadsInto ws.root c l p → LeadsInto ws.root c l (names.foldl Path.join p) := by
    intro names
    induction names with
    | nil => exact fun p _ h => h
    | cons name rest ih =>
      exact fun p hall h => ih _ (fun n hn => hall n (List.mem_cons_of_mem _ hn))
        (h.join (hall name List.mem_cons_self))
  exact hfold _ _ (fun name hname => hpart name (List.mem_of_mem_filter hname)) (.self hnames.target_eq)

/-! ## Confined changes -/

/-- What a run does besides the work on the directory at `l` that `root` names: quiet lines are
    logged. Directories elsewhere are the same, if those on the way exist. -/
structure Around (root : Path) (l : Location) (w w' : World) : Prop where
  current_eq : w'.disk.current = w.disk.current
  temporary_eq : w'.temporary = w.temporary
  hushed : Hushed w w'
  directory_iff : (∀ k ∈ root.way w.disk.current, w.disk.node? k = some .directory) →
    ∀ k, ¬ l <+: k → (w'.disk.node? k = some .directory ↔ w.disk.node? k = some .directory)

/-- Work that starts in the current directory `c` and is confined to the directory at `l`. -/
def Confined (root : Path) (c l : Location) (w w' : World) : Prop :=
  w.disk.current = c → Around root l w w'

/-- Confined work behind which all directories are still there. -/
def Grows (root : Path) (c l : Location) (w w' : World) : Prop :=
  Confined root c l w w' ∧ w.disk.KeepsDirectories w'.disk

theorem confined_chains (hnames : Disk.Names root c l) : Chains (Confined root c l) where
  refl w := fun _ => ⟨rfl, rfl, hushed_chains.refl w, fun _ _ _ => Iff.rfl⟩
  trans := by
    intro w₁ w₂ w₃ h h' hc
    have around := h hc
    have hc₂ : w₂.disk.current = c := around.current_eq.trans hc
    have around' := h' hc₂
    refine ⟨around'.current_eq.trans around.current_eq,
      around'.temporary_eq.trans around.temporary_eq,
      hushed_chains.trans around.hushed around'.hushed, fun hway k hk => ?_⟩
    refine (around'.directory_iff (fun j hj => ?_) k hk).trans (around.directory_iff hway k hk)
    rw [around.current_eq] at hj
    have houtside : ¬ l <+: j := hnames.outside j (hc ▸ hj)
    exact (around.directory_iff hway j houtside).2 (hway j hj)

theorem grows_chains (hnames : Disk.Names root c l) : Chains (Grows root c l) where
  refl w := ⟨(confined_chains hnames).refl w, fun _ hk => hk⟩
  trans h h' := ⟨(confined_chains hnames).trans h.1 h'.1, fun k hk => h'.2 k (h.2 k hk)⟩

theorem grows_of_logs (h : Logs w w') : Grows root c l w w' := by
  obtain ⟨lines, rfl, hquiet⟩ := h
  exact ⟨fun _ => ⟨rfl, rfl, ⟨lines, rfl, hquiet⟩, fun _ _ _ => Iff.rfl⟩, fun _ hk => hk⟩

/-- A change of the disk that changes no directory is confined to any place. -/
theorem grows_of_same (hcurrent : d'.current = w.disk.current)
    (hsame : ∀ k, d'.node? k = some .directory ↔ w.disk.node? k = some .directory) :
    Grows root c l w { w with disk := d' } :=
  ⟨fun _ => ⟨hcurrent, rfl, hushed_of_log_eq rfl, fun _ k _ => hsame k⟩,
    fun k hk => (hsame k).2 hk⟩

section Keeps

variable {α β : Type} {E : Error → Prop} {job : Job α}

/-- What keeps a relation keeps a weaker one. -/
theorem Job.Keeps.mono {R R' : World → World → Prop} (h : Job.Keeps R E job)
    (hR : ∀ w w', R w w' → R' w w') : Job.Keeps R' E job :=
  fun w => ⟨hR _ _ (h w).1, (h w).2⟩

theorem keeps_log {level : Level} {text : String} (h : (⟨level, text⟩ : LogLine).Quiet) :
    Job.Keeps (Grows root c l) Error.Inner (Job.log level text) :=
  Keeps.ofAct fun w => grows_of_logs (Act.keeps_log h w)

theorem keeps_change {ε : Type} {wrap : ε → Error} {f : Disk → Except ε Disk}
    (hwrap : ∀ e, (wrap e).Inner)
    (hf : ∀ d d', f d = .ok d' → d'.current = d.current ∧
      ∀ k, d'.node? k = some .directory ↔ d.node? k = some .directory) :
    Job.Keeps (Grows root c l) Error.Inner (Job.guard wrap (Act.change f)) := by
  refine Keeps.guard (Act.Keeps.change (fun w => ?_) fun w disk hd => ?_) hwrap
  · exact grows_of_logs (logs_chains.refl w)
  · obtain ⟨hcurrent, hsame⟩ := hf _ _ hd
    exact grows_of_same hcurrent hsame

/-- Writing a file changes no directory. -/
theorem keeps_guard_write {wrap : SystemFault → Error} (hwrap : ∀ e, (wrap e).Inner) (p : Path)
    (content : Content) :
    Job.Keeps (Grows root c l) Error.Inner
      (Job.guard wrap (Act.change fun d => d.write p content)) :=
  keeps_change hwrap fun _ _ h => ⟨Disk.current_of_write h, Disk.directory_of_write h⟩

theorem keeps_write (p : Path) (content : Content) :
    Job.Keeps (Grows root c l) Error.Inner (Job.write p content) := by
  have hinner := inner_systemError p
  exact keeps_guard_write hinner p content

/-- Making a directory inside makes nothing elsewhere. -/
theorem keeps_createDirectories
    (hp : ∀ k, p.Visits c k → k ∈ root.way c ∨ l <+: k) :
    Job.Keeps (Grows root c l) Error.Inner (Job.createDirectories p) := by
  refine Keeps.guard (fun w => ?_) (inner_systemError p)
  have hmakes := Disk.makes_createDirectories w.disk p
  rw [Act.outcome_attempt]
  refine ⟨fun hc => ⟨hmakes.current_eq, rfl, hushed_of_log_eq rfl, ?_⟩,
    fun k hk => hmakes.node?_of_some hk⟩
  intro hway k hk
  rw [hc] at hway hmakes
  rcases hmakes.node?_cases k with heq | ⟨hnone, -, hvisits⟩
  · dsimp only
    rw [heq]
  · rcases hp k hvisits with hmem | hbelow
    · rw [hway k hmem] at hnone
      cases hnone
    · exact absurd hbelow hk

end Keeps

/-! ## Saving -/

section Saving

open Embedding

variable {ws : Workspace} {options : EmbedOptions}

theorem keeps_warnOverwrite (hnames : Disk.Names root c l) (progress : Progress) (name : String)
    (path : Path) : Job.Keeps (Grows root c l) Error.Inner (warnOverwrite progress name path) := by
  have hpure := Keeps.pure (E := Error.Inner) (grows_chains hnames) ()
  unfold warnOverwrite
  split
  · split
    · exact keeps_log (.warn _)
    · exact hpure
  · exact hpure

theorem keeps_embed (hnames : Disk.Names root c l) (existing : List String) (progress : Progress)
    (image : Image) :
    Job.Keeps (Grows root c l) Error.Inner (embed ws options existing progress image) := by
  have hR := grows_chains hnames
  have hcopy : ∀ target, Job.Keeps (Grows root c l) Error.Inner
      (Job.guard (copyError image target) (Act.change fun d => d.copy image.path target)) := by
    refine fun target => keeps_change (fun fault => ?_) fun d d' h => ?_
    · unfold copyError
      split <;> simp [Error.Inner]
    · obtain ⟨content, hwrite⟩ := Disk.exists_write_of_copy h
      exact ⟨Disk.current_of_write hwrite, Disk.directory_of_write hwrite⟩
  rw [embed]
  split
  · exact Keeps.throw hR (by simp [Error.Inner])
  · next name _ =>
    dsimp only
    split
    · exact Keeps.throw_bind hR (by simp [Error.Inner]) _
    · refine Keeps.bind hR (keeps_warnOverwrite hnames progress name image.path) fun _ =>
        Keeps.bind hR (hcopy _) fun _ => ?_
      split
      · exact Keeps.throw hR (by simp [malformedRelationships, Error.Inner])
      · exact Keeps.pure hR _

theorem keeps_openRelationships (hnames : Disk.Names ws.root c l) :
    Job.Keeps (Grows ws.root c l) Error.Inner (openRelationships ws) := by
  have hR := grows_chains hnames
  have hinto : Path.LeadsInto ws.root c l ws.relationships :=
    .pathOf hnames isName_relationships
  rw [openRelationships]
  refine Keeps.bind hR (Keeps.ask hR _) fun result => ?_
  split
  · exact Keeps.pure hR _
  · refine Keeps.bind hR (keeps_log (Or.inr ?_)) fun _ => ?_
    · simp [toString, Part.relationships]
    · split
      · next parent hparent =>
        exact Keeps.bind hR (keeps_createDirectories fun k => hinto.visits_parent hparent)
          fun _ => Keeps.pure hR _
      · exact Keeps.pure hR _
  · exact Keeps.throw hR (by simp [Error.Inner])

theorem keeps_declareAll (hnames : Disk.Names root c l) (declared extensions : List String)
    (state : Nat × Bytes) :
    Job.Keeps (Grows root c l) Error.Inner (declareAll declared extensions state) := by
  have hR := grows_chains hnames
  induction extensions generalizing state with
  | nil => exact Keeps.pure hR _
  | cons e rest ih =>
    obtain ⟨n, text⟩ := state
    rw [declareAll]
    split
    · exact ih _
    · split
      · exact Keeps.bind hR (keeps_log (.warn _)) fun _ => ih _
      · split
        · exact Keeps.throw hR (by simp [malformedTypes, Error.Inner])
        · exact ih _

theorem keeps_declareTypes (hnames : Disk.Names root c l) (extensions : List String) :
    Job.Keeps (Grows root c l) Error.Inner (declareTypes ws extensions) := by
  have hR := grows_chains hnames
  rw [declareTypes]
  refine Keeps.bind hR (Keeps.ask hR _) fun result => ?_
  split
  · exact keeps_log (.warn _)
  · exact Keeps.throw hR (by simp [Error.Inner])
  · split
    · exact Keeps.throw hR (by simp [malformedTypes, Error.Inner])
    · refine Keeps.bind hR (keeps_declareAll hnames _ _ _) fun state => ?_
      dsimp only
      split
      · exact keeps_write _ _
      · exact Keeps.pure hR _

/-- Embedding images is confined to the workspace. -/
theorem keeps_embedAll (hnames : Disk.Names ws.root c l) (t : Images) :
    Job.Keeps (Grows ws.root c l) Error.Inner (t.embedAll ws options) := by
  have hR := grows_chains hnames
  have hmedia : ∀ name ∈ Split.on '/' Part.media, Path.IsName name := by decide
  rw [Images.embedAll]
  split
  · exact Keeps.pure hR _
  · refine Keeps.bind hR (keeps_createDirectories fun k =>
      (Path.LeadsInto.pathOf hnames hmedia).visits) fun _ =>
      Keeps.bind hR (keeps_openRelationships hnames) fun relationships => ?_
    split
    · exact Keeps.throw hR (by simp [malformedRelationships, Error.Inner])
    · refine Keeps.bind hR (Keeps.foldlM hR _ fun progress image _ =>
        keeps_embed hnames _ progress image) fun done =>
        Keeps.bind hR (keeps_write _ _) fun _ => ?_
      have hend : Job.Keeps (Grows ws.root c l) Error.Inner (do
          Job.log .info s!"added {t.size} image(s) to {Part.relationships}"
          return t.size) :=
        Keeps.bind hR (keeps_log (.info _)) fun _ => Keeps.pure hR _
      dsimp only
      split
      · exact Keeps.bind hR (keeps_declareTypes hnames _) fun _ => hend
      · exact hend

theorem keeps_pack (hnames : Disk.Names root c l) (source archive : Path) :
    Job.Keeps (Grows root c l) Error.Inner (Package.pack source archive) := by
  have hR := grows_chains hnames
  have hinner : ∀ fault, (Error.archivePack archive (.file fault)).Inner := by
    simp [Error.Inner]
  rw [Package.pack]
  dsimp only
  refine Keeps.bind hR (Keeps.guard (Act.Keeps.ask hR _) hinner) fun files =>
    Keeps.bind hR (keeps_guard_write (fun _ => hinner _) _ _) fun _ =>
    Keeps.bind hR (Keeps.ask hR _) fun found =>
    Keeps.bind hR (keeps_guard_write (fun _ => hinner _) _ _) fun _ =>
    Keeps.bind hR (keeps_log (Or.inr ?_)) fun _ => Keeps.pure hR _
  simp [String.toList_append, toString]

/-- Storing changes no directory at all. -/
theorem keeps_store (hnames : Disk.Names root c l) (options : Options) (content : Bytes)
    (output : Path) :
    Job.Keeps (Grows root c l) Error.Inner (Session.store options ws content output) := by
  have hR := grows_chains hnames
  have hrest : Job.Keeps (Grows root c l) Error.Inner (do
      Job.write ws.document (.plain content)
      let entries ← Package.pack ws.root output
      Job.log .info s!"saved {output.text} ({entries} entries)") :=
    Keeps.bind hR (keeps_write _ _) fun _ =>
      Keeps.bind hR (keeps_pack hnames _ _) fun _ => keeps_log (.info _)
  rw [Session.store]
  dsimp only
  split
  · split
    · exact hrest
    · exact Keeps.bind hR (keeps_log (.warn _)) fun _ => hrest
  · exact hrest

end Saving

/-! ## Unpacking and removing -/

section Unpacking

open Package

theorem keeps_unpackEntry (hnames : Disk.Names root c l) {e : Archive.Entry} (safe : e.isSafe = true) :
    Job.Keeps (Grows root c l) Error.Inner (unpackEntry root e) := by
  have hR := grows_chains hnames
  have hinto := Path.LeadsInto.join_entry safe hnames.target_eq
  have hwrite : Job.Keeps (Grows root c l) Error.Inner (do
      Job.write (root.join e.name) (.plain e.data)
      return 1) :=
    Keeps.bind hR (keeps_write _ _) fun _ => Keeps.pure hR _
  rw [unpackEntry]
  dsimp only
  split
  · exact Keeps.bind hR (keeps_createDirectories fun k => hinto.visits) fun _ => Keeps.pure hR _
  · split
    · next parent hparent =>
      have hparents : Job.Keeps (Grows root c l) Error.Inner (Job.createDirectories parent) :=
        keeps_createDirectories fun k => hinto.visits_parent hparent
      exact Keeps.bind hR hparents fun _ => hwrite
    · exact hwrite

theorem keeps_unpackEntries (hnames : Disk.Names root c l) {entries : List Archive.Entry}
    (safe : ∀ e ∈ entries, e.isSafe = true) :
    Job.Keeps (Grows root c l) Error.Inner (unpackEntries root entries) := by
  have hR := grows_chains hnames
  induction entries with
  | nil => exact Keeps.pure hR _
  | cons e rest ih =>
    exact Keeps.bind hR (keeps_unpackEntry hnames (safe e List.mem_cons_self)) fun _ =>
      Keeps.bind hR (ih fun e' he' => safe e' (List.mem_cons_of_mem _ he')) fun _ =>
        Keeps.pure hR _

theorem keeps_remove (hnames : Disk.Names root c l) :
    Job.Keeps (Confined root c l) Error.Inner (remove root) := by
  intro w
  have herrors : ∀ e, ((remove root).outcome w).1 = .error e → e.Inner := by
    intro e he
    rw [outcome_remove] at he
    dsimp only at he
    split at he
    · cases he
    · cases hresult : (w.disk.removeTree root).2 with
      | ok u => simp [hresult, Except.mapError] at he
      | error fault =>
        rw [hresult, Except.mapError, Except.error.injEq] at he
        rw [← he]
        exact inner_systemError root fault
  refine ⟨fun hc => ?_, herrors⟩
  rw [outcome_remove]
  dsimp only
  have htarget : root.target w.disk.current = l := by rw [hc, hnames.target_eq]
  obtain hdisk | hdisk | hdisk := Disk.removeTree_cases w.disk root
  · exact ⟨by rw [hdisk], rfl, hushed_of_log_eq rfl, fun _ k _ => by rw [hdisk]⟩
  · refine ⟨by rw [hdisk]; rfl, rfl, hushed_of_log_eq rfl, fun _ k hk => ?_⟩
    dsimp only
    rw [hdisk, htarget]
    by_cases hroot : k = []
    · rw [hroot, Disk.node?_nil, Disk.node?_nil]
    · rw [Disk.node?_clear _ _ hroot, if_neg fun h => hk h.1]
  · refine ⟨by rw [hdisk]; rfl, rfl, hushed_of_log_eq rfl, fun _ k hk => ?_⟩
    dsimp only
    rw [hdisk, htarget, Disk.node?_prune hnames.nonroot, if_neg hk]

/-- What is removed does not exist afterwards. -/
theorem not_isDirectory_of_remove (hnames : Disk.Names root w.disk.current l) :
    ((remove root).outcome w).2.disk.isDirectory root = false := by
  rw [Bool.eq_false_iff]
  intro hdir
  by_cases hbefore : w.disk.isDirectory root = true
  · have hfind := Disk.find_of_isDirectory hbefore
    rw [hnames.target_eq] at hfind
    rw [outcome_remove_of_find hnames hfind] at hdir
    have hnode := (Disk.isDirectory_iff.1 hdir).2.2
    have hcurrent : (w.disk.prune l).current = w.disk.current := rfl
    rw [hcurrent, hnames.target_eq, Disk.node?_prune hnames.nonroot,
      if_pos List.prefix_rfl] at hnode
    cases hnode
  · have hsame : (w.disk.removeTree root).1 = w.disk := by
      rw [Disk.removeTree]
      split
      · rfl
      · rfl
      · next found hfind =>
        refine absurd ?_ hbefore
        rw [Disk.isDirectory, hfind]
    rw [outcome_remove, hsame] at hdir
    exact hbefore hdir

/-- Unpacking a template is confined to the workspace. -/
theorem keeps_unpack (hnames : Disk.Names root c l) (archive : Path) :
    Job.Keeps (Confined root c l) Error.Inner (unpack archive root) := by
  have hR := confined_chains hnames
  have hgrows : ∀ {α : Type} {job : Job α}, Job.Keeps (Grows root c l) Error.Inner job →
      Job.Keeps (Confined root c l) Error.Inner job := fun h => h.mono fun _ _ h => h.1
  rw [unpack]
  refine Keeps.bind hR (Keeps.guard (Act.Keeps.ask hR _) fun _ => by simp [Error.Inner]) fun entries =>
    Keeps.bind' hR (Keeps.guard (Act.Keeps.pure hR _) fun _ => by simp [Error.Inner]) ?_
  intro w u w' hcheck
  rw [ends_guard_iff, Act.outcome_pure, Prod.mk.injEq] at hcheck
  have safe := isSafe_of_checkEntries hcheck.1
  refine Keeps.bind hR (keeps_remove hnames) fun _ =>
    Keeps.bind hR (hgrows (keeps_createDirectories fun k => (Path.LeadsInto.self hnames.target_eq).visits))
      fun _ => Keeps.bind hR (hgrows (keeps_unpackEntries hnames safe)) fun written =>
      Keeps.bind hR (hgrows (keeps_log (Or.inr ?_))) fun _ => Keeps.pure hR _
  simp [String.toList_append, toString]

/-- A directory is still there when an archive has been unpacked into it. -/
theorem isDirectory_of_ends_unpack {archive : Path} {n : Nat}
    (hnames : Disk.Names root w.disk.current l) (hdir : w.disk.isDirectory root = true)
    (h : Ends (unpack archive root) w n w') : w'.disk.isDirectory root = true := by
  obtain ⟨entries, w₀, hentries, h₁⟩ := ends_bind_iff.1 h
  obtain ⟨-, rfl⟩ := ends_entries_iff.1 hentries
  obtain ⟨u, w₁, hcheck, h₂⟩ := ends_bind_iff.1 h₁
  rw [ends_guard_iff, Act.outcome_pure, Prod.mk.injEq] at hcheck
  obtain ⟨hchecked, rfl⟩ := hcheck
  obtain ⟨u, w₂, hremove, h₃⟩ := ends_bind_iff.1 h₂
  obtain ⟨u, w₃, hcreate, h₄⟩ := ends_bind_iff.1 h₃
  obtain ⟨hmade, rfl⟩ := ends_createDirectories_iff.1 hcreate
  obtain ⟨m, w₄, hunpack, h₅⟩ := ends_bind_iff.1 h₄
  obtain ⟨u, w₅, hlog, hpure⟩ := ends_bind_iff.1 h₅
  obtain ⟨-, rfl⟩ := ends_pure_iff.1 hpure
  have hdisk : w'.disk = w₄.disk := by rw [ends_log_iff.1 hlog]
  have hremoved := (keeps_remove hnames w₀).1 rfl
  rw [hremove] at hremoved
  have hmakes := Disk.makes_createDirectories w₂.disk root
  -- It is made again, with its way, and no entry takes a directory away.
  have hgrows := (keeps_unpackEntries hnames (isSafe_of_checkEntries hchecked)
    { w₂ with disk := (w₂.disk.createDirectories root).1 }).1
  rw [hunpack] at hgrows
  obtain ⟨hconfined, hkeeps⟩ := hgrows
  have hcurrent₃ := hmakes.current_eq.trans hremoved.current_eq
  have hcurrent₄ := (hconfined hcurrent₃).current_eq.trans hcurrent₃
  dsimp only at hcurrent₄
  have hfits := (Disk.isDirectory_iff.1 hdir).1
  have hvisited : ∀ k, root.Visits w₂.disk.current k → w₄.disk.node? k = some .directory :=
    fun k hk => hkeeps k (Disk.directory_of_createDirectories hmade hk)
  rw [hremoved.current_eq] at hvisited
  rw [hdisk, Disk.isDirectory_iff, hcurrent₄]
  exact ⟨hfits, fun k hk => hvisited k ⟨hfits.nonempty, Or.inr hk⟩,
    hvisited _ ⟨hfits.nonempty, Or.inl rfl⟩⟩

end Unpacking

/-- Telling of a workspace tells of no names. -/
theorem not_isNotice_announcement (root : Path) : ¬ (Workspace.announcement root).IsNotice := by
  intro h
  obtain ⟨tail, htail⟩ := h.2
  have hfirst := congrArg List.head? htail
  simp [Workspace.announcement, toString, String.toList_append] at hfirst

/-! ## Releasing -/

/-- From the first world to the second one, files may go and quiet lines are logged. -/
def Sheds (w w' : World) : Prop := w.disk.Loses w'.disk ∧ Hushed w w'

theorem sheds_chains : Chains Sheds where
  refl w := ⟨.refl w.disk, hushed_chains.refl w⟩
  trans h h' := ⟨h.1.trans h'.1, hushed_chains.trans h.2 h'.2⟩

theorem sheds_of_logs (h : Logs w w') : Sheds w w' := by
  refine ⟨?_, h.hushed⟩
  rw [h.disk_eq]
  exact .refl w.disk

/-- Releasing a workspace makes no file, wherever its root leads to. -/
theorem sheds_release (ws : Workspace) : Act.Keeps Sheds ws.release := by
  have hremove : Act.Keeps Sheds (Act.ofJob (Package.remove ws.root)) := by
    intro w
    rw [Act.outcome_ofJob, Package.outcome_remove]
    exact ⟨Disk.loses_removeTree w.disk ws.root, hushed_of_log_eq rfl⟩
  unfold Workspace.release
  split
  · exact fun w => sheds_of_logs (Act.keeps_log (.info _) w)
  · apply Act.Keeps.bind sheds_chains hremove
    intro result
    split
    · exact Act.Keeps.pure sheds_chains _
    · exact fun w => sheds_of_logs (Act.keeps_log (.warn _) w)

theorem sheds_finish (s : Session) : Act.Keeps Sheds s.finish := by
  unfold Session.finish
  split
  · exact sheds_release _
  · exact Act.Keeps.pure sheds_chains _

theorem keeps_release {ws : Workspace} (hnames : Disk.Names ws.root c l) :
    Act.Keeps (Confined ws.root c l) ws.release := by
  have hR := confined_chains hnames
  unfold Workspace.release
  split
  · exact fun w => (grows_of_logs (Act.keeps_log (.info _) w)).1
  · refine Act.Keeps.bind hR (Act.Keeps.ofJob (keeps_remove hnames)) fun result => ?_
    split
    · exact Act.Keeps.pure hR _
    · exact fun w => (grows_of_logs (Act.keeps_log (.warn _) w)).1

/-- A workspace that is not kept does not exist once it is released. -/
theorem not_isDirectory_of_release {ws : Workspace} (hkept : ws.kept = false)
    (hnames : Disk.Names ws.root w.disk.current l) :
    (ws.release.outcome w).2.disk.isDirectory ws.root = false := by
  have hremoved := not_isDirectory_of_remove hnames
  rw [Workspace.release, hkept, if_neg Bool.false_ne_true, Act.outcome_bind, Act.outcome_ofJob]
  generalize (Package.remove ws.root).outcome w = run at hremoved ⊢
  obtain ⟨result, w₁⟩ := run
  cases result <;> exact hremoved

end DocxTemplate
