import DocxTemplate.Proofs.Package.Unpack

/-! # What packing writes

    The archive holds the files of the packed directory, each under the name that leads to it,
    and nothing else.

    * `Archive.dataOf?`: the data of the entry with a name.
    * `Package.dataOf?_entriesOf`: in the archive that files make, these are the bytes of the
      file at the place that the name leads to.
    * `Package.ends_pack_iff`: what a successful packing does.
    * `Package.content_of_ends_pack`: the file that a successful packing leaves.
-/

namespace DocxTemplate

namespace Archive

/-- The data of the entry with a name. -/
def dataOf? (entries : List Entry) (name : String) : Option Bytes :=
  (entries.find? (·.name == name)).map (·.data)

end Archive

namespace Package

open Job

variable {d : Disk} {l k : Location} {files : List (Location × Content)}

/-! ## Names of entries -/

/-- The names on the way to a file are names: there is one at least, and none holds a slash. -/
def NameList (k : Location) : Prop := k ≠ [] ∧ ∀ part ∈ k, '/' ∉ part.toList

theorem on_entryName (h : NameList k) : Split.on '/' (entryName k) = k :=
  Split.on_intercalate h.1 h.2

theorem entryName_on (name : String) : entryName (Split.on '/' name) = name :=
  Split.intercalate_on name

theorem entryName_inj {k' : Location} (h : NameList k) (h' : NameList k')
    (heq : entryName k = entryName k') : k = k' := by
  rw [← on_entryName h, heq, on_entryName h']

/-- The content types part only moves to the front. -/
theorem ordered_perm (files : List (Location × Content)) :
    (ordered files).Perm (files.map fun (names, content) => (entryName names, content)) := by
  rw [ordered]
  dsimp only
  have hfilter : ∀ named : List (String × Content),
      (named.filter fun e => e.1 != Part.contentTypes) =
        named.filter fun e => !(e.1 == Part.contentTypes) := fun _ => rfl
  rw [hfilter]
  exact List.filter_append_perm _ _

theorem mem_entriesOf_iff {e : Archive.Entry} : e ∈ entriesOf files ↔
    ∃ k content, (k, content) ∈ files ∧
      e = .make (entryName k) (methodFor (entryName k)) content.bytes := by
  rw [entriesOf, List.mem_map]
  constructor
  · rintro ⟨⟨name, content⟩, hmem, rfl⟩
    obtain ⟨⟨k, content'⟩, hfile, heq⟩ := List.mem_map.1 ((ordered_perm files).mem_iff.1 hmem)
    rw [Prod.mk.injEq] at heq
    rw [← heq.1, ← heq.2]
    exact ⟨k, content', hfile, rfl⟩
  · rintro ⟨k, content, hfile, rfl⟩
    exact ⟨_, (ordered_perm files).mem_iff.2 (List.mem_map.2 ⟨_, hfile, rfl⟩), rfl⟩

/-- Entries have names of their own if files have places of their own. -/
theorem nodup_names_entriesOf (hnames : ∀ file ∈ files, NameList file.1)
    (hnodup : (files.map (·.1)).Nodup) : ((entriesOf files).map (·.name)).Nodup := by
  have hmap : (entriesOf files).map (·.name) = (ordered files).map (·.1) := by
    rw [entriesOf, List.map_map]
    rfl
  rw [hmap, ((ordered_perm files).map (·.1)).nodup_iff, List.map_map]
  have hcomp : files.map ((·.1) ∘ fun (names, content) => (entryName names, content)) =
      (files.map (·.1)).map entryName := by
    rw [List.map_map]
    rfl
  rw [hcomp]
  refine List.Nodup.map_on ?_ hnodup
  intro k hk k' hk' heq
  obtain ⟨file, hfile, rfl⟩ := List.mem_map.1 hk
  obtain ⟨file', hfile', rfl⟩ := List.mem_map.1 hk'
  exact entryName_inj (hnames file hfile) (hnames file' hfile') heq

theorem find?_of_nodup {entries : List Archive.Entry} {e : Archive.Entry}
    (hnodup : (entries.map (·.name)).Nodup) (he : e ∈ entries) :
    entries.find? (·.name == e.name) = some e := by
  induction entries with
  | nil => cases he
  | cons first rest ih =>
    rw [List.map_cons, List.nodup_cons] at hnodup
    rcases List.mem_cons.1 he with rfl | he
    · rw [List.find?_cons, beq_self_eq_true]
    · have hne : (first.name == e.name) = false := by
        rw [beq_eq_false_iff_ne]
        exact fun heq => hnodup.1 (List.mem_map.2 ⟨e, he, heq.symm⟩)
      rw [List.find?_cons, hne]
      exact ih hnodup.2 he

/-- In an archive without repeated names, a name leads to the data of the entry that has it. -/
theorem dataOf?_eq_some_iff {entries : List Archive.Entry} {name : String} {data : Bytes}
    (hnodup : (entries.map (·.name)).Nodup) : Archive.dataOf? entries name = some data ↔
      ∃ e ∈ entries, e.name = name ∧ e.data = data := by
  rw [Archive.dataOf?, Option.map_eq_some_iff]
  constructor
  · rintro ⟨e, hfind, rfl⟩
    have hname : (e.name == name) = true :=
      List.find?_some (p := fun e : Archive.Entry => e.name == name) hfind
    exact ⟨e, List.mem_of_find?_eq_some hfind, eq_of_beq hname, rfl⟩
  · rintro ⟨e, he, rfl, rfl⟩
    exact ⟨e, find?_of_nodup hnodup he, rfl⟩

/-- All files of a tree have names. -/
def NamedBelow (d : Disk) (l : Location) : Prop :=
  ∀ k content, d.file? (l ++ k) = some content → NameList k

/-- In the archive of a tree, a name leads to the file at the place it names. -/
theorem dataOf?_entriesOf (htidy : d.Tidy l) (hl : l ≠ []) (hnamed : NamedBelow d l)
    (name : String) : Archive.dataOf? (entriesOf (d.filesBelow l)) name =
      (d.file? (l ++ Split.on '/' name)).map Content.bytes := by
  have hnames : ∀ file ∈ d.filesBelow l, NameList file.1 := fun file hfile =>
    hnamed _ _ ((Disk.mem_filesBelow_iff htidy hl).1 hfile)
  have hnodup := nodup_names_entriesOf hnames (Disk.nodup_filesBelow htidy)
  refine Option.ext fun data => ?_
  rw [dataOf?_eq_some_iff hnodup, Option.map_eq_some_iff]
  constructor
  · rintro ⟨e, he, rfl, rfl⟩
    obtain ⟨k, content, hfile, rfl⟩ := mem_entriesOf_iff.1 he
    refine ⟨content, ?_, rfl⟩
    have hk : Split.on '/' (entryName k) = k := on_entryName (hnames _ hfile)
    rw [Archive.Entry.make, hk]
    exact (Disk.mem_filesBelow_iff htidy hl).1 hfile
  · rintro ⟨content, hfile, rfl⟩
    exact ⟨_, mem_entriesOf_iff.2 ⟨_, content, (Disk.mem_filesBelow_iff htidy hl).2 hfile, rfl⟩,
      entryName_on name, rfl⟩

/-! ## Packing -/

/-- A change outside a tree does not change its listing. -/
theorem filesBelow_put (h : ¬ l <+: k) (node : Node) : (d.put k node).filesBelow l = d.filesBelow l := by
  have hlisted : (d.put k node).listedFiles l = d.listedFiles l := by
    unfold Disk.listedFiles Disk.put
    split
    · dsimp only
      rw [List.filterMap_map]
      refine List.filterMap_congr fun entry _ => ?_
      obtain ⟨j, old⟩ := entry
      by_cases hjk : j = k
      · -- Neither what was there nor what is there now is listed.
        subst hjk
        cases node <;> cases old <;> simp [h]
      · simp [hjk]
    · dsimp only
      rw [List.filterMap_append]
      cases node <;> simp [h]
  exact congrArg (List.mergeSort · fun a b => Disk.namesBefore a.1 b.1) hlisted

/-- A disk behind a writing that does not touch a tree. -/
theorem filesAt_of_write {source output : Path} {content : Content} {d' : Disk}
    (hl : source.target d.current = l) (outside : ¬ l <+: output.target d.current)
    (h : d.write output content = .ok d') {files : List (Location × Content)}
    (hfiles : d.filesAt source = .ok files) :
    files = d.filesBelow l ∧ d'.filesAt source = .ok files := by
  unfold Disk.filesAt at hfiles ⊢
  cases hfind : d.find source with
  | error fault => simp [hfind, Except.map] at hfiles
  | ok found =>
    obtain ⟨m, node⟩ := found
    obtain ⟨hlocate, hnode⟩ := Disk.find_eq_ok_iff.1 hfind
    obtain rfl : l = m := by rw [Disk.eq_target_of_locate hlocate, hl]
    rw [hfind, Except.map, Except.ok.injEq] at hfiles
    obtain ⟨-, hplain, hd'⟩ := Disk.exists_of_write h
    have hne := Disk.ne_nil_of_not_directory hplain
    have hfind' : d'.find source = .ok (l, node) := by
      refine Disk.find_eq_ok_iff.2 ⟨Disk.locate_of_locate hlocate (Disk.current_of_write h)
        fun j hj => ?_, ?_⟩
      · rw [Disk.directory_of_write h]
        exact Disk.node?_of_mem_way hlocate hj
      · rw [hd', Disk.node?_put hne, if_neg, hnode]
        rintro rfl
        exact outside (List.prefix_refl _)
    refine ⟨hfiles.symm, ?_⟩
    rw [hfind', ← hfiles, hd', Except.map]
    dsimp only
    rw [filesBelow_put outside]

/-- A successful packing lists the files, empties its output and writes the archive there. -/
theorem ends_pack_iff {source output : Path} {w w' : World} {n : Nat}
    (hl : source.target w.disk.current = l) (outside : ¬ l <+: output.target w.disk.current) :
    Ends (pack source output) w n w' ↔ w.disk.filesAt source = .ok (w.disk.filesBelow l) ∧
      ∃ d₁ d₂, w.disk.write output (.plain []) = .ok d₁ ∧
        d₁.write output (.archive (entriesOf (w.disk.filesBelow l))) = .ok d₂ ∧
        n = (entriesOf (w.disk.filesBelow l)).length ∧
        w' = { w with disk := d₂, log := w.log ++
          [⟨.debug, s!"packed {n} entries from {source.text} into {output.text}"⟩] } := by
  -- No file of the listing has gone, and none is new.
  have hsame : ∀ d₁, w.disk.write output (.plain []) = .ok d₁ →
      w.disk.filesAt source = .ok (w.disk.filesBelow l) →
        ((d₁.filesAt source).toOption.getD []).filter
          (fun file => (w.disk.filesBelow l).any fun other => other.1 == file.1) =
            w.disk.filesBelow l := by
    intro d₁ hwrite hfiles
    rw [(filesAt_of_write hl outside hwrite hfiles).2]
    exact List.filter_eq_self.2 fun file hfile =>
      List.any_eq_true.2 ⟨file, hfile, beq_self_eq_true _⟩
  constructor
  · intro h
    obtain ⟨files, w₁, hlisting, h₁⟩ := ends_bind_iff.1 h
    rw [ends_guard_iff, Act.outcome_ask, Prod.mk.injEq] at hlisting
    obtain ⟨hfiles, rfl⟩ := hlisting
    have hfiles := Disk.eq_ok_of_mapError hfiles
    obtain ⟨u, w₂, hempty, h₂⟩ := ends_bind_iff.1 h₁
    obtain ⟨d₁, hd₁, rfl⟩ := ends_change_iff.1 hempty
    obtain ⟨rfl, -⟩ := filesAt_of_write hl outside hd₁ hfiles
    obtain ⟨files', w₃, hask, h₃⟩ := ends_bind_iff.1 h₂
    obtain ⟨rfl, rfl⟩ := ends_ask_iff.1 hask
    dsimp only at h₃
    rw [hsame d₁ hd₁ hfiles] at h₃
    obtain ⟨u, w₄, hwrite, h₄⟩ := ends_bind_iff.1 h₃
    obtain ⟨d₂, hd₂, rfl⟩ := ends_change_iff.1 hwrite
    obtain ⟨u, w₅, hlog, hpure⟩ := ends_bind_iff.1 h₄
    obtain ⟨rfl, rfl⟩ := ends_pure_iff.1 hpure
    exact ⟨hfiles, d₁, d₂, hd₁, hd₂, rfl, ends_log_iff.1 hlog⟩
  · rintro ⟨hfiles, d₁, d₂, hd₁, hd₂, rfl, rfl⟩
    refine ends_bind_iff.2 ⟨w.disk.filesBelow l, w, ?_, ?_⟩
    · rw [ends_guard_iff, Act.outcome_ask, hfiles]
      rfl
    · refine ends_bind_iff.2 ⟨(), { w with disk := d₁ }, ends_change_iff.2 ⟨d₁, hd₁, rfl⟩, ?_⟩
      refine ends_bind_iff.2 ⟨_, { w with disk := d₁ }, ends_ask_iff.2 ⟨rfl, rfl⟩, ?_⟩
      dsimp only
      rw [hsame d₁ hd₁ hfiles]
      refine ends_bind_iff.2 ⟨(), { w with disk := d₂ }, ends_change_iff.2 ⟨d₂, hd₂, rfl⟩, ?_⟩
      exact ends_bind_iff.2 ⟨(), _, ends_log_iff.2 rfl, ends_pure_iff.2 ⟨rfl, rfl⟩⟩

/-- What a successful packing leaves at its output: the files of the tree as an archive. -/
theorem content_of_ends_pack {source output : Path} {w w' : World} {n : Nat}
    (hl : source.target w.disk.current = l) (outside : ¬ l <+: output.target w.disk.current)
    (h : Ends (pack source output) w n w') :
    w'.disk.content output = .ok (.archive (entriesOf (w.disk.filesBelow l))) := by
  obtain ⟨-, d₁, d₂, hd₁, hd₂, -, rfl⟩ := (ends_pack_iff hl outside).1 h
  obtain ⟨hlocate, -, -⟩ := Disk.exists_of_write hd₂
  rw [Disk.content_eq_ok_iff, Disk.file?_of_write hd₂, Disk.current_of_write hd₂, if_pos rfl]
  refine ⟨Disk.locate_of_locate hlocate (Disk.current_of_write hd₂) fun j hj => ?_, rfl⟩
  rw [Disk.directory_of_write hd₂]
  exact Disk.node?_of_mem_way hlocate hj

end Package

end DocxTemplate
