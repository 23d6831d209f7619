import DocxTemplate.Proofs.Disk.Order
import DocxTemplate.Proofs.Package.Pack

/-! # The archive of a tree

    Packing writes the files of a tree in one order, whatever the disk lists first: the content
    types part of the root, then all others by their places, compared name by name. What is below
    the media directory is stored.

    * `Package.entriesOf_congr`: the entries depend on places and bytes only.
    * `Package.methodFor_eq_stored_iff`: which entries are stored.
    * `Package.Packed`, `Package.packed_entriesOf`: what the archive of a tree is like.
-/

namespace DocxTemplate.Package

variable {d d' : Disk} {l l' : Location} {files files' : List (Location × Content)}

theorem names_entriesOf (files : List (Location × Content)) :
    (entriesOf files).map (·.name) = (ordered files).map (·.1) := by
  rw [entriesOf, List.map_map]
  rfl

/-- The entries as they come from places and bytes. -/
theorem entriesOf_eq_map (files : List (Location × Content)) : entriesOf files =
    (((files.map fun file => (file.1, file.2.bytes)).filter
        fun file => entryName file.1 == Part.contentTypes) ++
      ((files.map fun file => (file.1, file.2.bytes)).filter
        fun file => entryName file.1 != Part.contentTypes)).map fun file =>
      .make (entryName file.1) (methodFor (entryName file.1)) file.2 := by
  simp only [entriesOf, ordered, List.map_append, List.filter_map, List.map_map]
  rfl

theorem entriesOf_congr (h : files.map (fun file => (file.1, file.2.bytes)) =
    files'.map fun file => (file.1, file.2.bytes)) : entriesOf files = entriesOf files' := by
  rw [entriesOf_eq_map, entriesOf_eq_map, h]

/-- The archives of trees with the same files are the same. -/
theorem entriesOf_filesBelow_congr (h : d.Tidy l) (hl : l ≠ []) (h' : d'.Tidy l') (hl' : l' ≠ [])
    (hsame : ∀ k, (d.file? (l ++ k)).map Content.bytes = (d'.file? (l' ++ k)).map Content.bytes) :
    entriesOf (d.filesBelow l) = entriesOf (d'.filesBelow l') :=
  entriesOf_congr (Disk.filesBelow_bytes h hl h' hl' hsame)

/-! ## Methods -/

/-- Exactly what lies below the media directory is stored. -/
theorem methodFor_eq_stored_iff (name : String) : methodFor name = .stored ↔
    ∃ rest, rest ≠ [] ∧ Split.on '/' name = ["word", "media"] ++ rest := by
  have hmedia : Split.on '/' Part.media = ["word", "media"] := by decide
  rw [methodFor, ite_eq_left_iff, List.isPrefixOf_iff_prefix]
  simp only [reduceCtorEq, imp_false, not_not]
  constructor
  · rintro ⟨t, ht⟩
    have hname : name.toList = Part.media.toList ++ '/' :: (String.ofList t).toList := by
      rw [← ht, String.toList_append, String.toList_ofList, List.append_assoc]
      simp
    exact ⟨_, Split.on_ne_nil '/' (String.ofList t), by rw [Split.on_append hname, hmedia]⟩
  · rintro ⟨rest, hrest, hon⟩
    have hname : name = Part.media ++ "/" ++ "/".intercalate rest := by
      rw [← Split.intercalate_on name, hon,
        String.intercalate_append_of_ne_nil (List.cons_ne_nil _ _) hrest]
      rfl
    exact ⟨("/".intercalate rest).toList, by rw [hname, ← String.toList_append]⟩

/-! ## Archives -/

/-- What the archive of a tree is like. -/
structure Packed (d : Disk) (l : Location) (entries : List Archive.Entry) : Prop where
  /-- No two entries have the same name. -/
  nodup : (entries.map (·.name)).Nodup
  /-- A name leads to the bytes of the file at the place it spells, and to nothing if none is
      there. -/
  data_eq : ∀ name, Archive.dataOf? entries name =
    (d.file? (l ++ Split.on '/' name)).map Content.bytes
  /-- If the root has a content types part, that is the first entry. -/
  first : d.file? (l ++ [Part.contentTypes]) ≠ none →
    entries.head?.map (·.name) = some Part.contentTypes
  /-- All others stand in the order of their places, name by name. -/
  ascending : ((entries.map (·.name)).filter (· != Part.contentTypes)).Pairwise fun a b =>
    Split.on '/' a < Split.on '/' b
  /-- Exactly the files below the media directory are stored. -/
  stored_iff : ∀ e ∈ entries, e.method = .stored ↔
    ∃ rest, rest ≠ [] ∧ Split.on '/' e.name = ["word", "media"] ++ rest
  /-- The checksums are those of the data. -/
  made : ∀ e ∈ entries, e = .make e.name e.method e.data

theorem packed_entriesOf (htidy : d.Tidy l) (hl : l ≠ []) (hnamed : NamedBelow d l) :
    Packed d l (entriesOf (d.filesBelow l)) := by
  have hnames : ∀ file ∈ d.filesBelow l, NameList file.1 := fun file hfile =>
    hnamed _ _ ((Disk.mem_filesBelow_iff htidy hl).1 hfile)
  refine ⟨nodup_names_entriesOf hnames (Disk.nodup_filesBelow htidy),
    dataOf?_entriesOf htidy hl hnamed, fun hsome => ?_, ?_, fun e he => ?_, fun e he => ?_⟩
  · -- The front part of the order is not empty, and nothing else is in it.
    obtain ⟨content, hfile⟩ := Option.ne_none_iff_exists'.1 hsome
    have hmem : (Part.contentTypes, content) ∈
        ((d.filesBelow l).map fun file => (entryName file.1, file.2)).filter
          (·.1 == Part.contentTypes) :=
      List.mem_filter.2 ⟨List.mem_map.2 ⟨_, (Disk.mem_filesBelow_iff htidy hl).2 hfile, rfl⟩, rfl⟩
    obtain ⟨front, rest, hfront⟩ := List.exists_cons_of_ne_nil (List.ne_nil_of_mem hmem)
    have hname : front.1 = Part.contentTypes := by
      have hin : front ∈ front :: rest := List.mem_cons_self
      rw [← hfront] at hin
      exact eq_of_beq (List.mem_filter.1 hin).2
    have hordered : ordered (d.filesBelow l) = (front :: rest) ++ _ :=
      congrArg (· ++ List.filter _ _) hfront
    rw [← List.head?_map, names_entriesOf, hordered, List.cons_append, List.map_cons,
      List.head?_cons, hname]
  · have hothers : ((entriesOf (d.filesBelow l)).map (·.name)).filter (· != Part.contentTypes) =
        (((d.filesBelow l).map (·.1)).map entryName).filter (· != Part.contentTypes) := by
      rw [names_entriesOf, ordered]
      simp only [List.map_append, List.filter_append, List.filter_map, List.map_map,
        List.filter_filter]
      simp [Function.comp_def, bne]
    rw [hothers]
    refine List.Pairwise.filter _ (List.pairwise_map.2 (List.pairwise_map.2 ?_))
    refine (Disk.pairwise_filesBelow htidy).imp_of_mem fun hfile hfile' hlt => ?_
    rwa [on_entryName (hnames _ hfile), on_entryName (hnames _ hfile')]
  · obtain ⟨k, content, -, rfl⟩ := mem_entriesOf_iff.1 he
    exact methodFor_eq_stored_iff _
  · obtain ⟨k, content, -, rfl⟩ := mem_entriesOf_iff.1 he
    rfl

end DocxTemplate.Package
