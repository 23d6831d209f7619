import DocxTemplate.Proofs.Package.Pack

/-! # Archives with plain names

    An archive that is read holds each name once. If its files have plain names, that is names
    of places joined by single slashes, then different files belong to different places, and
    the data at a place are those of the file that is named after it.

    * `Archive.nodup_distinct`, `Archive.distinct_of_nodup`: what is read, and that reading
      keeps an archive in which no name is repeated.
    * `Archive.files`, `Archive.Plain`: the files of an archive, and whether their names are plain.
    * `Package.dataAt?_on`: unpacked data, looked up by name.
-/

namespace DocxTemplate

open Path (IsName)

namespace Archive

variable {entries kept : List Entry} {e : Entry}

/-! ## Names that are read once -/

/-- What reading does with one more entry. -/
def keep (kept : List Entry) (e : Entry) : List Entry :=
  if kept.any (·.name == e.name) then kept.map fun k => if k.name == e.name then e else k
  else kept ++ [e]

theorem keep_of_notMem (h : e.name ∉ kept.map (·.name)) : keep kept e = kept ++ [e] := by
  rw [keep, if_neg]
  intro hany
  obtain ⟨k, hk, hname⟩ := List.any_eq_true.1 hany
  exact h (List.mem_map.2 ⟨k, hk, eq_of_beq hname⟩)

/-- An entry takes the place of the one with its name, or comes last. -/
theorem names_keep (kept : List Entry) (e : Entry) : (keep kept e).map (·.name) =
    if e.name ∈ kept.map (·.name) then kept.map (·.name) else kept.map (·.name) ++ [e.name] := by
  by_cases h : e.name ∈ kept.map (·.name)
  · have hany : (kept.any (·.name == e.name)) = true := by
      obtain ⟨k, hk, hname⟩ := List.mem_map.1 h
      exact List.any_eq_true.2 ⟨k, hk, beq_iff_eq.2 hname⟩
    rw [if_pos h, keep, if_pos hany, List.map_map]
    refine List.map_congr_left fun k _ => ?_
    rw [Function.comp_apply]
    split
    · next heq => exact (eq_of_beq heq).symm
    · rfl
  · rw [if_neg h, keep_of_notMem h, List.map_append]
    rfl

theorem nodup_names_keep (h : (kept.map (·.name)).Nodup) (e : Entry) :
    ((keep kept e).map (·.name)).Nodup := by
  rw [names_keep]
  split
  · exact h
  · next hnew =>
    rw [List.nodup_append]
    refine ⟨h, List.nodup_singleton _, ?_⟩
    rintro name hname name' hname' rfl
    rw [List.mem_singleton.1 hname'] at hname
    exact hnew hname

/-- Reading leaves each name once. -/
theorem nodup_distinct (entries : List Entry) : ((distinct entries).map (·.name)).Nodup := by
  suffices h : ∀ kept : List Entry, (kept.map (·.name)).Nodup →
      ((entries.foldl keep kept).map (·.name)).Nodup from h [] List.nodup_nil
  induction entries with
  | nil => exact fun _ h => h
  | cons e rest ih => exact fun kept h => ih _ (nodup_names_keep h e)

/-- Reading changes nothing if no name is repeated. -/
theorem distinct_of_nodup (h : (entries.map (·.name)).Nodup) : distinct entries = entries := by
  suffices hall : ∀ kept : List Entry, ((kept ++ entries).map (·.name)).Nodup →
      entries.foldl keep kept = kept ++ entries from hall [] h
  clear h
  induction entries with
  | nil => exact fun kept _ => (List.append_nil kept).symm
  | cons e rest ih =>
    intro kept h
    have hnew : e.name ∉ kept.map (·.name) := by
      rw [List.map_append, List.map_cons, List.nodup_append] at h
      exact fun hmem => h.2.2 _ hmem _ List.mem_cons_self rfl
    rw [List.foldl_cons, keep_of_notMem hnew, ih _ (by simpa using h), List.append_assoc]
    rfl

/-! ## Files -/

/-- The entries of an archive that stand for files. -/
def files (entries : List Entry) : List Entry := entries.filter fun e => !e.isDirectory

/-- All files have names that are made of names of places, joined by single slashes. -/
def Plain (entries : List Entry) : Prop :=
  ∀ e ∈ files entries, ∀ step ∈ Split.on '/' e.name, IsName step

instance (entries : List Entry) : Decidable (Plain entries) :=
  inferInstanceAs (Decidable (∀ e ∈ files entries, ∀ step ∈ Split.on '/' e.name, IsName step))

theorem nodup_files (h : (entries.map (·.name)).Nodup) : ((files entries).map (·.name)).Nodup :=
  h.sublist (List.filter_sublist.map _)

/-- A file with a plain name belongs to the place that its name spells. -/
theorem Plain.place_eq (h : Plain entries) (he : e ∈ files entries) :
    e.place = Split.on '/' e.name := by
  rw [Entry.place, Path.reach_names (h e he), List.nil_append]

/-- There is an entry with a name that has data. -/
theorem dataOf?_ne_none_iff {name : String} :
    dataOf? entries name ≠ none ↔ name ∈ entries.map (·.name) := by
  rw [dataOf?, Ne, Option.map_eq_none_iff, ← Ne, Option.ne_none_iff_isSome, List.find?_isSome,
    List.mem_map]
  simp

end Archive

namespace Package

open Archive

variable {entries : List Entry} {k : Location}

/-- Data at a place come from a file that belongs there. -/
theorem exists_of_dataAt? {data : Bytes} (h : dataAt? entries k = some data) :
    ∃ e ∈ files entries, e.place = k ∧ e.data = data := by
  induction entries with
  | nil => cases h
  | cons e rest ih =>
    rw [dataAt?] at h
    cases hrest : dataAt? rest k with
    | some data' =>
      rw [hrest] at h
      cases h
      obtain ⟨e', he', hplace, hdata⟩ := ih hrest
      exact ⟨e', List.Sublist.subset ((List.sublist_cons_self e rest).filter _) he', hplace, hdata⟩
    | none =>
      rw [hrest, Option.none_or] at h
      split at h
      · next hfile =>
        rw [Bool.and_eq_true] at hfile
        cases h
        exact ⟨e, List.mem_filter.2 ⟨List.mem_cons_self, hfile.1⟩, eq_of_beq hfile.2, rfl⟩
      · cases h

/-- If files belong to different places, each place has the data of its file. -/
theorem dataAt?_of_mem {e : Entry} (hplaces : ((files entries).map (·.place)).Nodup)
    (he : e ∈ files entries) : dataAt? entries e.place = some e.data := by
  induction entries with
  | nil => cases he
  | cons first rest ih =>
    rw [dataAt?]
    cases hfile : !first.isDirectory with
    | false =>
      have hfiles : files (first :: rest) = files rest := by
        rw [files, List.filter_cons, hfile]
        rfl
      rw [hfiles] at he hplaces
      rw [ih hplaces he]
      rfl
    | true =>
      have hfiles : files (first :: rest) = first :: files rest := by
        rw [files, List.filter_cons, hfile]
        rfl
      rw [hfiles] at he hplaces
      rw [List.map_cons, List.nodup_cons] at hplaces
      rcases List.mem_cons.1 he with rfl | he
      · have hnone : dataAt? rest e.place = none := by
          cases hrest : dataAt? rest e.place with
          | none => rfl
          | some data =>
            obtain ⟨e', he', hplace, -⟩ := exists_of_dataAt? hrest
            exact absurd (List.mem_map.2 ⟨e', he', hplace⟩) hplaces.1
        rw [hnone, Option.none_or, beq_self_eq_true]
        rfl
      · rw [ih hplaces.2 he]
        rfl

/-- Files with plain names are found by name where they belong. -/
theorem dataAt?_on (hplain : Plain entries) (hnodup : (entries.map (·.name)).Nodup)
    (name : String) : dataAt? entries (Split.on '/' name) = dataOf? (files entries) name := by
  have hfiles := nodup_files hnodup
  have hname : ∀ e ∈ files entries, e.place = Split.on '/' name → e.name = name := by
    intro e he hplace
    rw [hplain.place_eq he] at hplace
    rw [← entryName_on e.name, hplace, entryName_on]
  have hplaces : ((files entries).map (·.place)).Nodup := by
    have hmap : (files entries).map (·.place) =
        ((files entries).map (·.name)).map (Split.on '/') := by
      rw [List.map_map]
      exact List.map_congr_left fun e he => hplain.place_eq he
    rw [hmap]
    refine hfiles.map fun name name' heq => ?_
    rw [← entryName_on name, ← entryName_on name', heq]
  refine Option.ext fun data => ?_
  rw [dataOf?_eq_some_iff hfiles]
  constructor
  · intro h
    obtain ⟨e, he, hplace, hdata⟩ := exists_of_dataAt? h
    exact ⟨e, he, hname e he hplace, hdata⟩
  · rintro ⟨e, he, rfl, rfl⟩
    rw [← hplain.place_eq he]
    exact dataAt?_of_mem hplaces he

/-- The entries of an archive that is opened have names of their own. -/
theorem nodup_of_openEntries {d : Disk} {archive : Path} (h : openEntries d archive = .ok entries) :
    (entries.map (·.name)).Nodup := by
  rw [openEntries] at h
  cases hcontent : d.content archive with
  | error fault =>
    rw [hcontent] at h
    cases h
  | ok content =>
    rw [hcontent] at h
    have hentries := Disk.eq_ok_of_mapError h
    cases content with
    | plain data =>
      rw [Content.entries] at hentries
      cases hread : Zip.read data with
      | error fault =>
        rw [hread] at hentries
        cases hentries
      | ok all =>
        rw [hread] at hentries
        cases hentries
        exact nodup_distinct all
    | archive all =>
      cases hentries
      exact nodup_distinct all

/-- An archive is opened as it was written if no name is repeated. -/
theorem openEntries_of_content {d : Disk} {archive : Path}
    (h : d.content archive = .ok (.archive entries)) (hnodup : (entries.map (·.name)).Nodup) :
    openEntries d archive = .ok entries := by
  rw [openEntries, h]
  dsimp only
  rw [Content.entries, distinct_of_nodup hnodup]
  rfl

end Package

end DocxTemplate
