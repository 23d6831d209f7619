import DocxTemplate.Package.Archive
import DocxTemplate.Proofs.Disk.Tree
import DocxTemplate.Proofs.World

/-! # What unpacking leaves

    After an archive is unpacked, each place below the target holds the data of the last entry
    that leads there, and there is nothing else.

    * `Archive.Entry.place`: where an entry leads to, counted from the target.
    * `Path.LeadsInto`: a path that goes on from another one without leaving its target.
    * `Package.dataAt?`: the data of the last file entry with a place.
    * `Package.Unpacked`, `Package.unpacked_of_ends`: the disk behind a successful unpacking.
-/

namespace DocxTemplate

/-! ## Places of entries -/

/-- Steps that never go above where they start lead below every place as below the root. -/
theorem Disk.reach_of_staysBelow {steps : List String} (l inner : Location)
    (h : Path.staysBelow inner.length (steps.filterMap Path.ofSegment?) = true) :
    reach (l ++ inner) steps = l ++ reach inner steps ∧
      ∀ j ∈ passed (l ++ inner) steps, l <+: j := by
  induction steps generalizing inner with
  | nil => exact ⟨rfl, by simp [passed]⟩
  | cons step rest ih =>
    have hhere : l <+: l ++ inner := List.prefix_append l inner
    -- A step leads from below `l` to below `l`, as it leads from `inner`.
    have hmove : ∀ inner', move (l ++ inner) step = l ++ inner' → move inner step = inner' →
        Path.staysBelow inner'.length (rest.filterMap Path.ofSegment?) = true →
        reach (l ++ inner) (step :: rest) = l ++ reach inner (step :: rest) ∧
          ∀ j ∈ passed (l ++ inner) (step :: rest), l <+: j := by
      intro inner' houter hinner hrest
      obtain ⟨hreach, hpassed⟩ := ih inner' hrest
      rw [reach_cons, reach_cons, houter, hinner]
      refine ⟨hreach, fun j hj => ?_⟩
      rw [passed, houter] at hj
      rcases List.mem_cons.1 hj with rfl | hj
      · exact hhere
      · exact hpassed j hj
    rw [List.filterMap_cons] at h
    by_cases hvoid : Path.isVoid step = true
    · rw [Path.ofSegment?, if_pos hvoid] at h
      exact hmove inner (by rw [move, if_pos hvoid]) (by rw [move, if_pos hvoid]) h
    · by_cases hup : (step == "..") = true
      · rw [Path.ofSegment?, if_neg hvoid, if_pos hup] at h
        cases hlast : inner with
        | nil => simp [hlast, Path.staysBelow] at h
        | cons a others =>
          have hne : inner ≠ [] := by simp [hlast]
          rw [← hlast]
          apply hmove inner.dropLast
          · rw [move, if_neg hvoid, if_pos hup, List.dropLast_append_of_ne_nil hne]
          · rw [move, if_neg hvoid, if_pos hup]
          · rw [List.length_dropLast]
            rw [hlast] at h ⊢
            exact h
      · rw [Path.ofSegment?, if_neg hvoid, if_neg hup] at h
        apply hmove (inner ++ [step])
        · rw [move, if_neg hvoid, if_neg hup, List.append_assoc]
        · rw [move, if_neg hvoid, if_neg hup]
        · rw [List.length_append]
          exact h

/-- Where an entry leads to, counted from the place it is unpacked to. -/
def Archive.Entry.place (e : Archive.Entry) : Location := Disk.reach [] (Split.on '/' e.name)

/-- A safe entry leads to a place below every target, and not through others. -/
theorem Archive.Entry.below_of_isSafe {e : Archive.Entry} (h : e.isSafe = true) (l : Location) :
    e.name.toList.head? ≠ some '/' ∧ Disk.reach l (Split.on '/' e.name) = l ++ e.place ∧
      ∀ j ∈ Disk.passed l (Split.on '/' e.name), l <+: j := by
  rw [isSafe, Bool.and_eq_true] at h
  have hstays := h.2
  rw [Path.components] at hstays
  by_cases habs : (⟨e.name⟩ : Path).isAbsolute = true
  · rw [if_pos habs] at hstays
    cases hstays
  · rw [if_neg habs] at hstays
    have hsegments : Path.staysBelow 0
        ((⟨e.name⟩ : Path).segments.filterMap Path.ofSegment?) = true := by
      by_cases hhere : (⟨e.name⟩ : Path).startsHere = true
      · rw [if_pos hhere, Path.body, if_pos (by simp [hhere]), List.cons_append,
          Path.staysBelow] at hstays
        rw [Path.startsHere, beq_iff_eq] at hhere
        obtain ⟨others, hothers⟩ := List.head?_eq_some_iff.1 hhere
        rw [hothers] at hstays ⊢
        exact hstays
      · rw [if_neg hhere, Path.body, if_neg (by simp [hhere, habs])] at hstays
        exact hstays
    have hbelow := Disk.reach_of_staysBelow l [] hsegments
    rw [List.append_nil] at hbelow
    refine ⟨fun hhead => habs ?_, hbelow⟩
    rw [Path.isAbsolute, hhead]
    rfl

/-- So its path leads to this place below the target. -/
theorem Archive.Entry.target_join {e : Archive.Entry} (safe : e.isSafe = true) (root : Path)
    (c : Location) : (root.join e.name).target c = root.target c ++ e.place := by
  obtain ⟨hrelative, hreach, -⟩ := below_of_isSafe safe (root.target c)
  rw [Path.target_join root hrelative, hreach]

/-! ## Paths into a directory -/

/-- A path leads to a place at or below `l`, by the way to `root` and on from there. -/
structure Path.LeadsInto (root : Path) (c l : Location) (p : Path) : Prop where
  target : l <+: p.target c
  way : ∀ k ∈ p.way c, k ∈ root.way c ∨ l <+: k

namespace Path.LeadsInto

variable {root p q : Path} {c l k : Location}

theorem self (hl : root.target c = l) : LeadsInto root c l root :=
  ⟨by subst hl; exact List.prefix_rfl, fun _ hk => Or.inl hk⟩

theorem join {name : String} (h : LeadsInto root c l p) (hname : IsName name) :
    LeadsInto root c l (p.join name) := by
  refine ⟨?_, fun k hk => ?_⟩
  · rw [target_join_name hname]
    exact h.target.trans (List.prefix_append _ _)
  · rw [mem_way_join_iff p hname.head?_ne, hname.on_eq, Disk.passed, Disk.passed,
      List.mem_singleton] at hk
    rcases hk with hk | rfl
    · exact h.way k hk
    · exact Or.inr h.target

theorem visits (h : LeadsInto root c l p) (hk : p.Visits c k) : k ∈ root.way c ∨ l <+: k := by
  rcases hk.2 with rfl | hk
  · exact Or.inr h.target
  · exact h.way k hk

theorem visits_parent (h : LeadsInto root c l p) (hq : p.parent? = some q) (hk : q.Visits c k) :
    k ∈ root.way c ∨ l <+: k := by
  obtain ⟨htarget, hway⟩ := way_parent hq c
  rcases hk.2 with rfl | hk
  · exact h.way _ htarget
  · exact h.way k (hway k hk)

/-- A safe entry is unpacked into the target. -/
theorem join_entry {e : Archive.Entry} (safe : e.isSafe = true) (hl : root.target c = l) :
    LeadsInto root c l (root.join e.name) := by
  obtain ⟨hrelative, -, hbelow⟩ := Archive.Entry.below_of_isSafe safe l
  refine ⟨?_, fun k hk => ?_⟩
  · rw [Archive.Entry.target_join safe, hl]
    exact List.prefix_append _ _
  · rw [mem_way_join_iff root hrelative, hl] at hk
    exact hk.imp_right (hbelow k)

end Path.LeadsInto

namespace Package

/-- The data of the last file entry that leads to a place. -/
def dataAt? : List Archive.Entry → Location → Option Bytes
  | [], _ => none
  | e :: rest, k =>
    (dataAt? rest k).or (if !e.isDirectory && e.place == k then some e.data else none)

open Job

variable {w w' : World} {target archive : Path} {entries : List Archive.Entry} {n : Nat}

/-- A directory is made with its way. For a file, only directories on its way are made before it is
    written. -/
theorem cases_of_ends_unpackEntry {e : Archive.Entry} (h : Ends (unpackEntry target e) w n w') :
    (e.isDirectory = true ∧ n = 0 ∧
        (w.disk.createDirectories (target.join e.name)).2 = .ok () ∧
        w'.disk = (w.disk.createDirectories (target.join e.name)).1) ∨
      (e.isDirectory = false ∧ n = 1 ∧ ∃ d,
        Disk.Makes (· ∈ (target.join e.name).way w.disk.current) w.disk d ∧
        d.write (target.join e.name) (.plain e.data) = .ok w'.disk) := by
  rw [unpackEntry] at h
  dsimp only at h
  by_cases hdir : e.isDirectory = true
  · rw [if_pos hdir] at h
    obtain ⟨u, w₁, hcreate, hpure⟩ := ends_bind_iff.1 h
    obtain ⟨hmade, rfl⟩ := ends_createDirectories_iff.1 hcreate
    obtain ⟨rfl, rfl⟩ := ends_pure_iff.1 hpure
    exact Or.inl ⟨hdir, rfl, hmade, rfl⟩
  · rw [if_neg hdir] at h
    have hwrite : ∀ {w₁ : World}, Ends (write (target.join e.name) (.plain e.data) >>= fun _ => pure 1)
        w₁ n w' → n = 1 ∧ w₁.disk.write (target.join e.name) (.plain e.data) = .ok w'.disk := by
      intro w₁ hrest
      obtain ⟨u, w₂, hwrite, hpure⟩ := ends_bind_iff.1 hrest
      obtain ⟨disk, hdisk, rfl⟩ := ends_write_iff.1 hwrite
      obtain ⟨rfl, rfl⟩ := ends_pure_iff.1 hpure
      exact ⟨rfl, hdisk⟩
    have hfile : e.isDirectory = false := by simpa using hdir
    cases hparent : (target.join e.name).parent? with
    | none =>
      rw [hparent] at h
      obtain ⟨hn, hdisk⟩ := hwrite h
      exact Or.inr ⟨hfile, hn, w.disk, .refl, hdisk⟩
    | some parent =>
      rw [hparent] at h
      obtain ⟨u, w₁, hcreate, hrest⟩ := ends_bind_iff.1 h
      obtain ⟨-, rfl⟩ := ends_createDirectories_iff.1 hcreate
      obtain ⟨hn, hdisk⟩ := hwrite hrest
      obtain ⟨htarget, hway⟩ := Path.way_parent hparent w.disk.current
      refine Or.inr ⟨hfile, hn, _, (Disk.makes_createDirectories w.disk parent).mono ?_, hdisk⟩
      rintro k ⟨-, rfl | hk⟩
      · exact htarget
      · exact hway k hk

/-- One entry: a file is at its place afterwards, a directory changes no file. -/
theorem disk_of_ends_unpackEntry {e : Archive.Entry} (safe : e.isSafe = true)
    (h : Ends (unpackEntry target e) w n w') :
    Disk.Changes (target.target w.disk.current <+: ·) w.disk w'.disk ∧
      ∀ k, w'.disk.file? (target.target w.disk.current ++ k) =
        if !e.isDirectory && e.place == k then some (.plain e.data)
        else w.disk.file? (target.target w.disk.current ++ k) := by
  have hplace := Archive.Entry.target_join safe target w.disk.current
  rcases cases_of_ends_unpackEntry h with ⟨hdir, -, -, hdisk⟩ | ⟨hfile, -, d, hmakes, hwrite⟩
  · have hmakes := Disk.makes_createDirectories w.disk (target.join e.name)
    rw [hdisk]
    refine ⟨.of_makes hmakes, fun k => ?_⟩
    rw [hdir, Bool.not_true, Bool.false_and, if_neg Bool.false_ne_true]
    exact hmakes.file?_eq _
  · have hplace₁ : (target.join e.name).target d.current =
        target.target w.disk.current ++ e.place := by
      rw [hmakes.current_eq, hplace]
    refine ⟨.trans (.of_makes hmakes) (.of_write hwrite ?_), fun k => ?_⟩
    · rw [hplace₁]
      exact List.prefix_append _ _
    · have hsame : (target.target w.disk.current ++ k = target.target w.disk.current ++ e.place) ↔
          (!e.isDirectory && e.place == k) = true := by
        rw [List.append_cancel_left_eq, hfile, Bool.not_false, Bool.true_and, beq_iff_eq, eq_comm]
      rw [Disk.file?_of_write hwrite, hplace₁, hmakes.file?_eq, if_congr hsame rfl rfl]

/-- All entries: each place holds what the last file with this place holds. -/
theorem disk_of_ends_unpackEntries {l : Location} (safe : ∀ e ∈ entries, e.isSafe = true)
    (hl : target.target w.disk.current = l) (h : Ends (unpackEntries target entries) w n w') :
    Disk.Changes (l <+: ·) w.disk w'.disk ∧
      ∀ k, w'.disk.file? (l ++ k) =
        ((dataAt? entries k).map Content.plain).or (w.disk.file? (l ++ k)) := by
  induction entries generalizing w n with
  | nil =>
    obtain ⟨-, rfl⟩ := ends_pure_iff.1 h
    exact ⟨.refl _ _, fun k => rfl⟩
  | cons e rest ih =>
    obtain ⟨m, w₁, hfirst, h⟩ := ends_bind_iff.1 h
    obtain ⟨m', w₂, hrest, h⟩ := ends_bind_iff.1 h
    obtain ⟨-, rfl⟩ := ends_pure_iff.1 h
    obtain ⟨hchanges, hfile⟩ := disk_of_ends_unpackEntry (safe e List.mem_cons_self) hfirst
    rw [hl] at hchanges hfile
    obtain ⟨hchanges', hfile'⟩ := ih (fun e' he' => safe e' (List.mem_cons_of_mem _ he'))
      (by rw [hchanges.current_eq, hl]) hrest
    refine ⟨hchanges.trans hchanges', fun k => ?_⟩
    rw [hfile', hfile, dataAt?]
    cases dataAt? rest k with
    | some data => rfl
    | none =>
      rw [Option.map_none, Option.none_or, Option.none_or]
      split <;> rfl

/-- The disk behind a successful unpacking to the place `l`. -/
structure Unpacked (archive : Path) (l : Location) (d d' : Disk) : Prop where
  current_eq : d'.current = d.current
  tidy : d'.Tidy l
  file?_eq : ∀ k, ¬ l <+: k → d'.file? k = d.file? k
  unpacked : ∃ entries, openEntries d archive = .ok entries ∧
    (∀ e ∈ entries, e.isSafe = true) ∧
    ∀ k, d'.file? (l ++ k) = (dataAt? entries k).map Content.plain

theorem isSafe_of_checkEntry {e : Archive.Entry} (h : checkEntry e = .ok ()) :
    e.isSafe = true := by
  unfold checkEntry at h
  cases hopen : openEntry e with
  | error fault => simp [hopen, bind, Except.bind] at h
  | ok _ =>
    cases hsafe : e.isSafe with
    | true => rfl
    | false => simp [hopen, hsafe, bind, Except.bind, throw, throwThe, MonadExceptOf.throw] at h

/-- Entries that pass the check are safe. -/
theorem isSafe_of_checkEntries (h : checkEntries entries = .ok ()) :
    ∀ e ∈ entries, e.isSafe = true := by
  induction entries with
  | nil => exact fun e he => by cases he
  | cons first rest ih =>
    have hsplit : (checkEntry first >>= fun _ => checkEntries rest) = .ok () := h
    cases hfirst : checkEntry first with
    | error fault => simp [hfirst, bind, Except.bind] at hsplit
    | ok u =>
      rw [hfirst] at hsplit
      intro e he
      rcases List.mem_cons.1 he with rfl | he
      · exact isSafe_of_checkEntry hfirst
      · exact ih hsplit e he

theorem ends_entries_iff {w' : World} : Ends (Package.entries archive) w entries w' ↔
    openEntries w.disk archive = .ok entries ∧ w' = w := by
  rw [Package.entries, ends_guard_iff, Act.outcome_ask, Prod.mk.injEq, eq_comm (a := w)]

/-- What removing a directory gives is what the disk says, but a missing one is fine. -/
theorem outcome_remove (p : Path) (w : World) : (remove p).outcome w =
    (if (w.disk.removeTree p).2 = .error .notFound then .ok ()
      else (w.disk.removeTree p).2.mapError (Job.systemError p),
      { w with disk := (w.disk.removeTree p).1 }) := by
  rw [remove, outcome_guard, Act.outcome_bind, Act.outcome_attempt]
  dsimp only
  cases (w.disk.removeTree p).2 with
  | ok u => rfl
  | error fault => cases fault <;> rfl

/-- A target that exists is removed with everything in it. -/
theorem outcome_remove_of_find {l : Location} (hnames : Disk.Names target w.disk.current l)
    (hdir : w.disk.find target = .ok (l, .directory)) :
    (remove target).outcome w = (.ok (), { w with disk := w.disk.prune l }) := by
  rw [outcome_remove, Disk.removeTree_eq hnames hdir]
  rfl

/-- Unpacking to an existing place: what was there is gone, and the entries are there. -/
theorem unpacked_of_ends {l : Location} (hnames : Disk.Names target w.disk.current l)
    (hdir : w.disk.find target = .ok (l, .directory)) (h : Ends (unpack archive target) w n w') :
    Unpacked archive l w.disk w'.disk := by
  obtain ⟨entries, w₀, hentries, h₁⟩ := ends_bind_iff.1 h
  obtain ⟨hopen, rfl⟩ := ends_entries_iff.1 hentries
  obtain ⟨u, w₁, hcheck, h₂⟩ := ends_bind_iff.1 h₁
  rw [ends_guard_iff, Act.outcome_pure, Prod.mk.injEq] at hcheck
  obtain ⟨hchecked, rfl⟩ := hcheck
  have safe := isSafe_of_checkEntries hchecked
  obtain ⟨u, w₂, hremove, h₃⟩ := ends_bind_iff.1 h₂
  rw [Ends, outcome_remove_of_find hnames hdir, Prod.mk.injEq] at hremove
  obtain ⟨-, rfl⟩ := hremove
  obtain ⟨u, w₃, hcreate, h₄⟩ := ends_bind_iff.1 h₃
  obtain ⟨-, rfl⟩ := ends_createDirectories_iff.1 hcreate
  obtain ⟨m, w₄, hunpack, h₅⟩ := ends_bind_iff.1 h₄
  obtain ⟨u, w₅, hlog, hpure⟩ := ends_bind_iff.1 h₅
  obtain ⟨-, rfl⟩ := ends_pure_iff.1 hpure
  have hdisk : w'.disk = w₄.disk := by rw [ends_log_iff.1 hlog]
  rw [hdisk]
  have hmakes := Disk.makes_createDirectories (w₀.disk.prune l) target
  have hplace : target.target ((w₀.disk.prune l).createDirectories target).1.current = l := by
    rw [hmakes.current_eq]
    exact hnames.target_eq
  obtain ⟨hchanges, hfile⟩ := disk_of_ends_unpackEntries safe hplace hunpack
  have hall := ((Disk.Changes.prune hnames.nonroot w₀.disk).trans (.of_makes hmakes)).trans hchanges
  refine ⟨hall.current_eq, ?_, hall.file?_eq, entries, hopen, safe, fun k => ?_⟩
  · exact hchanges.tidy l (hmakes.tidy (Disk.tidy_prune _ _))
  · have hnone : (w₀.disk.prune l).file? (l ++ k) = none := by
      rw [Disk.file?, Disk.node?_prune hnames.nonroot, if_pos (List.prefix_append l k)]
    rw [hfile, hmakes.file?_eq, hnone, Option.or_none]

end Package

end DocxTemplate
