import Mathlib.Data.Set.Card
import DocxTemplate.Proofs.Package.Packed
import DocxTemplate.Proofs.Package.Restore

/-! # Packing and unpacking

    What a directory is packed to can be unpacked again, and the files are there as they were. All
    that is lost are directories without files.

    * `Package.Source`: the directories that are packed.
    * `Package.sound_entriesOf`: their archives can be unpacked.
    * `Package.Restores`: one place holds what another one holds.
    * `Package.RoundTrip`, `Package.exists_roundTrip`: all that is known of packing a directory and
      of unpacking it again.
-/

namespace DocxTemplate

open Job
open Path (IsName)

namespace Package

variable {d d' : Disk} {l l' : Location} {w w' : World} {source output archive target : Path}
  {entries : List Archive.Entry} {n : Nat}

/-! ## The packed directory -/

/-- A directory with plain names below it. -/
structure Source (source : Path) (d : Disk) : Prop where
  isDirectory : d.isDirectory source = true
  tree : d.IsTree
  /-- The disk lists what is below once, -/
  tidy : d.Tidy (source.target d.current)
  /-- and none of it has a name with a slash or a backslash. -/
  plain : ∀ entry ∈ d.nodes, source.target d.current <+: entry.1 →
    ∀ name ∈ entry.1.drop (source.target d.current).length, IsName name ∧ '\\' ∉ name.toList

/-- Files with plain names, none of which lies in another one. -/
structure PlainFiles (files : List (Location × Content)) : Prop where
  ne_nil : ∀ file ∈ files, file.1 ≠ []
  isName : ∀ file ∈ files, ∀ name ∈ file.1, IsName name ∧ '\\' ∉ name.toList
  nodup : (files.map (·.1)).Nodup
  apart : ∀ file ∈ files, ∀ file' ∈ files, file.1 <+: file'.1 → file.1 = file'.1

theorem Source.ne_nil (outside : ¬ source.target d.current <+: output.target d.current) :
    source.target d.current ≠ [] := by
  intro hnil
  rw [hnil] at outside
  exact outside List.nil_prefix

theorem Source.plainFiles (h : Source source d) (hne : source.target d.current ≠ []) :
    PlainFiles (d.filesBelow (source.target d.current)) := by
  have hmem : ∀ file ∈ d.filesBelow (source.target d.current),
      d.node? (source.target d.current ++ file.1) = some (.file file.2) := fun file hfile =>
    Disk.file?_eq_some_iff.1 ((Disk.mem_filesBelow_iff h.tidy hne).1 hfile)
  obtain ⟨-, -, hdir⟩ := Disk.isDirectory_iff.1 h.isDirectory
  refine ⟨fun file hfile hnil => ?_, fun file hfile name hname => ?_, Disk.nodup_filesBelow h.tidy,
    fun file hfile file' hfile' hbelow => ?_⟩
  · have hnode := hmem file hfile
    rw [hnil, List.append_nil, hdir] at hnode
    cases hnode
  · have hnode := hmem file hfile
    rw [Disk.node?_of_ne_nil (by simp [hne])] at hnode
    have hplain := h.plain _ (Disk.mem_of_lookup hnode) (List.prefix_append _ _)
    dsimp only at hplain
    rw [List.drop_left] at hplain
    exact hplain name hname
  · by_contra hother
    have hexists : d.node? (source.target d.current ++ file'.1) ≠ none := by
      rw [hmem file' hfile']
      exact Option.some_ne_none _
    have habove := h.tree.directory_of_prefix hexists
      ((List.prefix_append_right_inj _).2 hbelow) (by simpa using hother)
    rw [hmem file hfile] at habove
    cases habove

/-! ## Its archive -/

section Archive

variable {files : List (Location × Content)} {e : Archive.Entry} {k : Location}

/-- An entry with plain names is a file, and is spelled by them. -/
theorem spells_of_plain (hne : k ≠ []) (hplain : ∀ name ∈ k, IsName name ∧ '\\' ∉ name.toList)
    (hname : e.name = entryName k) : e.isDirectory = false ∧ e.Spells k := by
  have hfile : e.isDirectory = false := by
    obtain ⟨front, last, rfl⟩ := List.eq_nil_or_concat k |>.resolve_left hne
    rw [List.concat_eq_append] at hplain hname
    obtain ⟨⟨hlast, hslash⟩, hbackslash⟩ := hplain last (by simp)
    have hnonempty : last.toList ≠ [] := fun hnil =>
      hlast (by rw [String.toList_eq_nil_iff.1 hnil]; simp)
    obtain ⟨b, hb⟩ := Option.ne_none_iff_exists'.1 (mt List.getLast?_eq_none_iff.1 hnonempty)
    have hends : e.name.toList.getLast? = some b := by
      rw [hname, entryName]
      by_cases hfront : front = []
      · rw [hfront, List.nil_append, String.intercalate_singleton, hb]
      · rw [String.intercalate_append_of_ne_nil hfront (List.cons_ne_nil _ _),
          String.intercalate_singleton, String.toList_append, List.getLast?_append, hb,
          Option.some_or]
    have hbmem := List.mem_of_getLast? hb
    rw [Archive.Entry.isDirectory, hends]
    simp only [Bool.or_eq_false_iff, beq_eq_false_iff_ne]
    exact ⟨fun heq => hslash (heq ▸ hbmem), fun heq => hbackslash (heq ▸ hbmem)⟩
  refine ⟨hfile, hne, hplain, ?_⟩
  rw [hfile, if_neg Bool.false_ne_true, String.append_empty, hname]
  rfl

/-- Names do not lead out of a directory. -/
theorem isSafe_of_spells {names : List String} (hfile : e.isDirectory = false)
    (spells : e.Spells names) (hnul : '\x00' ∉ e.name.toList) : e.isSafe = true := by
  have hon := spells.on_eq
  rw [hfile, if_neg Bool.false_ne_true, List.append_nil] at hon
  rw [Archive.Entry.isSafe, Bool.and_eq_true]
  refine ⟨by simpa using hnul, Path.not_climbs_iff.1 ?_⟩
  rintro (habs | ⟨front, hfront, hcount⟩)
  · -- The first name would be empty.
    obtain ⟨t, htext, -⟩ := Path.exists_of_isAbsolute habs
    dsimp only at htext
    have hfirst : Split.on '/' e.name = [""] ++ Split.on '/' t :=
      Split.on_append (s := "") (by simp [htext])
    rw [hon] at hfirst
    exact (spells.isName "" (by simp [hfirst])).1.1 (by simp)
  · have hup : Path.Component.up ∉ (⟨e.name⟩ : Path).components := by
      intro hmem
      rw [Path.components, List.mem_append] at hmem
      rcases hmem with hmem | hmem
      · split_ifs at hmem <;> simp at hmem
      · obtain ⟨segment, hsegment, heq⟩ := List.mem_filterMap.1 hmem
        have hin : segment ∈ names := by
          rw [← hon]
          rw [Path.body] at hsegment
          split at hsegment
          · exact List.mem_of_mem_drop hsegment
          · exact hsegment
        rw [Path.ofSegment?] at heq
        split_ifs at heq with hvoid hup
        · rw [beq_iff_eq] at hup
          exact (spells.isName segment hin).1.1 (by simp [hup])
        · cases heq
    rw [List.count_eq_zero_of_not_mem fun hmem => hup (hfront.subset hmem)] at hcount
    omega

theorem sound_entriesOf (h : PlainFiles files)
    (hnul : ∀ e ∈ entriesOf files, '\x00' ∉ e.name.toList) :
    Sound (entriesOf files) ∧ ∀ e ∈ entriesOf files, ¬ e.Refused := by
  have hfile : ∀ e ∈ entriesOf files, ∃ file ∈ files, e.isDirectory = false ∧ e.Spells file.1 := by
    intro e he
    obtain ⟨k, content, hmem, rfl⟩ := mem_entriesOf_iff.1 he
    exact ⟨_, hmem, spells_of_plain (h.ne_nil _ hmem) (h.isName _ hmem) rfl⟩
  have hsafe : ∀ e ∈ entriesOf files, e.isSafe = true := by
    intro e he
    obtain ⟨file, -, hplain, spells⟩ := hfile e he
    exact isSafe_of_spells hplain spells (hnul e he)
  have hnames : ∀ file ∈ files, NameList file.1 := fun file hmem =>
    ⟨h.ne_nil file hmem, fun name hname => (h.isName file hmem name hname).1.2⟩
  have hnodup := nodup_names_entriesOf hnames h.nodup
  refine ⟨⟨fun e he => ?_, fun e he => ?_, hsafe, ?_⟩, fun e he hrefused => ?_⟩
  · obtain ⟨file, -, hplain, -⟩ := hfile e he
    exact hplain
  · obtain ⟨file, -, -, spells⟩ := hfile e he
    exact ⟨_, spells⟩
  · -- Entries whose places lie in each other would have the same name.
    have hname : ∀ e ∈ entriesOf files, ∀ e' ∈ entriesOf files, e.place <+: e'.place → e = e' := by
      intro e he e' he' hbelow
      obtain ⟨file, hmem, hplain, spells⟩ := hfile e he
      obtain ⟨file', hmem', hplain', spells'⟩ := hfile e' he'
      have hplace : file.1 = file'.1 := by
        rw [spells.place_eq, spells'.place_eq] at hbelow
        exact h.apart file hmem file' hmem' hbelow
      refine List.inj_on_of_nodup_map hnodup he he' ?_
      rw [spells.name_eq, spells'.name_eq, hplain, hplain', hplace]
    refine hnodup.of_map _ |>.pairwise_of_forall_ne fun e he e' he' hne => ⟨fun hbelow => ?_, ?_⟩
    · exact hne (hname e he e' he' hbelow)
    · exact fun hbelow => hne (hname e' he' e he hbelow).symm
  · obtain ⟨k, content, -, rfl⟩ := mem_entriesOf_iff.1 he
    rcases hrefused with hunsafe | ⟨-, hintact | hflaw⟩ | ⟨flaw, hflaw, -⟩
    · rw [hsafe _ he] at hunsafe
      cases hunsafe
    · simp [Archive.Entry.intact, Archive.Entry.make] at hintact
    · cases hflaw
    · cases hflaw

end Archive

/-! ## There and back -/

/-- One place holds the files of another one, and the directories that are needed for them. -/
structure Restores (d : Disk) (l : Location) (d' : Disk) (l' : Location) : Prop where
  file_iff : ∀ k content, d'.node? (l' ++ k) = some (.file content) ↔
    ∃ before, d.node? (l ++ k) = some (.file before) ∧ content = .plain before.bytes
  directory_iff : ∀ k, d'.node? (l' ++ k) = some .directory ↔ k = [] ∨
    (d.node? (l ++ k) = some .directory ∧ ∃ j, k <+: j ∧ d.file? (l ++ j) ≠ none)

/-- What holds the archive of a directory holds what the directory held. -/
theorem Holds.restores (htree : d.IsTree) (htidy : d.Tidy l) (hl : l ≠ [])
    (hplain : PlainFiles (d.filesBelow l)) (h : Holds (entriesOf (d.filesBelow l)) l' d') :
    Restores d l d' l' := by
  -- The entries are the files of the directory, at their places.
  have hfile : ∀ {k content}, (k, content) ∈ d.filesBelow l ↔
      d.node? (l ++ k) = some (.file content) := fun {k content} => by
    rw [Disk.mem_filesBelow_iff htidy hl, Disk.file?_eq_some_iff]
  have hentry : ∀ {k content}, (k, content) ∈ d.filesBelow l →
      (Archive.Entry.make (entryName k) (methodFor (entryName k)) content.bytes).isDirectory =
        false ∧ (Archive.Entry.make (entryName k) (methodFor (entryName k)) content.bytes).place =
          k := fun {k content} hmem => by
    obtain ⟨hfile, spells⟩ := spells_of_plain (e := .make (entryName k)
      (methodFor (entryName k)) content.bytes) (hplain.ne_nil _ hmem) (hplain.isName _ hmem) rfl
    exact ⟨hfile, spells.place_eq⟩
  refine ⟨fun k content => ?_, fun k => ?_⟩
  · rw [h.file_iff]
    constructor
    · rintro ⟨e, he, rfl, rfl⟩
      obtain ⟨k, before, hmem, rfl⟩ := mem_entriesOf_iff.1 (List.mem_filter.1 he).1
      rw [(hentry hmem).2]
      exact ⟨before, hfile.1 hmem, rfl⟩
    · rintro ⟨before, hnode, rfl⟩
      have hmem := hfile.2 hnode
      obtain ⟨hplain, hplace⟩ := hentry hmem
      refine ⟨_, List.mem_filter.2 ⟨mem_entriesOf_iff.2 ⟨k, before, hmem, rfl⟩, ?_⟩, hplace, rfl⟩
      rw [hplain]
      rfl
  · rw [h.directory_iff]
    refine or_congr_right ?_
    constructor
    · rintro ⟨e, he, hbelow, hproper⟩
      obtain ⟨j, before, hmem, rfl⟩ := mem_entriesOf_iff.1 he
      obtain ⟨hplain, hplace⟩ := hentry hmem
      rw [hplace] at hbelow hproper
      have hnode := hfile.1 hmem
      have hne : k ≠ j := by
        rintro rfl
        have hdir := hproper rfl
        rw [hplain] at hdir
        cases hdir
      refine ⟨htree.directory_of_prefix (by rw [hnode]; exact Option.some_ne_none _)
        ((List.prefix_append_right_inj _).2 hbelow) (by simpa using hne), j, hbelow, ?_⟩
      rw [Disk.file?_eq_some_iff.2 hnode]
      exact Option.some_ne_none _
    · rintro ⟨hdir, j, hbelow, hsome⟩
      obtain ⟨before, hbefore⟩ := Option.ne_none_iff_exists'.1 hsome
      have hmem := hfile.2 (Disk.file?_eq_some_iff.1 hbefore)
      obtain ⟨-, hplace⟩ := hentry hmem
      refine ⟨_, mem_entriesOf_iff.2 ⟨j, before, hmem, rfl⟩, by rwa [hplace], fun heq => ?_⟩
      rw [heq, hplace, Disk.file?_eq_some_iff.1 hbefore] at hdir
      cases hdir

/-- All that is known of packing a directory, and of unpacking it again. -/
structure RoundTrip (source output : Path) (w : World) (n : Nat) (entries : List Archive.Entry)
    (w' : World) : Prop where
  /-- Packing gives the number of files, -/
  packs : Ends (pack source output) w n w'
  count : n = {k | w.disk.file? (source.target w.disk.current ++ k) ≠ none}.ncard
  /-- and writes as many entries. -/
  opens : openEntries w'.disk output = .ok entries
  length_eq : n = entries.length
  packed : Packed w.disk (source.target w.disk.current) entries
  /-- They are the files as a walk through the directory meets them. -/
  walked : entries = entriesOf (w.disk.walk w.disk.height (source.target w.disk.current))
  /-- A directory with the same files gives the same archive, whatever its disk lists first. -/
  canonical : ∀ source' output' w₁ n' w₁', Source source' w₁.disk →
    ¬ source'.target w₁.disk.current <+: output'.target w₁.disk.current →
    (∀ k, (w₁.disk.file? (source'.target w₁.disk.current ++ k)).map Content.bytes =
      (w.disk.file? (source.target w.disk.current ++ k)).map Content.bytes) →
    Ends (pack source' output') w₁ n' w₁' → openEntries w₁'.disk output' = .ok entries
  /-- The disk still has no gaps. -/
  tree : w'.disk.IsTree
  /-- Where the archive is unpacked, the directory is restored. -/
  restores : ∀ archive target w₁, openEntries w₁.disk archive = .ok entries →
    Destination target entries w₁.disk → ∃ w₂, Ends (unpack archive target) w₁ n w₂ ∧
      Restores w.disk (source.target w.disk.current) w₂.disk (target.target w₁.disk.current)

/-- The archive that a packed directory leaves. -/
theorem openEntries_of_ends_pack (hsource : Source source w.disk)
    (outside : ¬ source.target w.disk.current <+: output.target w.disk.current)
    (h : Ends (pack source output) w n w') : openEntries w'.disk output =
      .ok (entriesOf (w.disk.filesBelow (source.target w.disk.current))) := by
  have hplain := hsource.plainFiles (Source.ne_nil outside)
  refine openEntries_of_content (content_of_ends_pack rfl outside h) ?_
  exact nodup_names_entriesOf (fun file hmem =>
    ⟨hplain.ne_nil file hmem, fun name hname => (hplain.isName file hmem name hname).1.2⟩)
    hplain.nodup

theorem length_entriesOf (files : List (Location × Content)) :
    (entriesOf files).length = files.length := by
  rw [entriesOf, List.length_map, (ordered_perm files).length_eq, List.length_map]

/-- A tidy listing is as long as there are files. -/
theorem length_filesBelow (htidy : d.Tidy l) (hl : l ≠ []) :
    (d.filesBelow l).length = {k | d.file? (l ++ k) ≠ none}.ncard := by
  have hset : {k | d.file? (l ++ k) ≠ none} = ↑((d.filesBelow l).map (·.1)).toFinset := by
    ext k
    rw [Set.mem_ofPred_eq, List.coe_toFinset, Set.mem_ofPred_eq, List.mem_map]
    constructor
    · intro hsome
      obtain ⟨content, hfile⟩ := Option.ne_none_iff_exists'.1 hsome
      exact ⟨_, (Disk.mem_filesBelow_iff htidy hl).2 hfile, rfl⟩
    · rintro ⟨⟨k, content⟩, hmem, rfl⟩
      rw [(Disk.mem_filesBelow_iff htidy hl).1 hmem]
      exact Option.some_ne_none _
  rw [hset, Set.ncard_coe_finset, List.toFinset_card_of_nodup (Disk.nodup_filesBelow htidy),
    List.length_map]

theorem exists_roundTrip (hsource : Source source w.disk)
    (outside : ¬ source.target w.disk.current <+: output.target w.disk.current)
    (writable : ∃ disk, w.disk.write output (.plain []) = .ok disk) :
    ∃ n entries w', RoundTrip source output w n entries w' := by
  have hne := Source.ne_nil outside
  have hplain := hsource.plainFiles hne
  have hfind := Disk.find_of_isDirectory hsource.isDirectory
  have hfiles : w.disk.filesAt source =
      .ok (w.disk.filesBelow (source.target w.disk.current)) := by
    rw [Disk.filesAt, hfind]
    rfl
  obtain ⟨d₁, hd₁⟩ := writable
  obtain ⟨d₂, hd₂⟩ : ∃ d₂, d₁.write output
      (.archive (entriesOf (w.disk.filesBelow (source.target w.disk.current)))) = .ok d₂ :=
    Disk.exists_write_again hd₁
  have hends := (ends_pack_iff rfl outside).2 ⟨hfiles, d₁, d₂, hd₁, hd₂, rfl, rfl⟩
  have hnamed : NamedBelow w.disk (source.target w.disk.current) := fun k content hfile =>
    have hmem := (Disk.mem_filesBelow_iff hsource.tidy hne).2 hfile
    ⟨hplain.ne_nil _ hmem, fun name hname => (hplain.isName _ hmem name hname).1.2⟩
  refine ⟨_, _, _, hends, ?_, openEntries_of_ends_pack hsource outside hends, rfl,
    packed_entriesOf hsource.tidy hne hnamed, ?_, fun source' output' w₁ n' w₁' hsource' outside'
    hsame h' => ?_, (hsource.tree.write hd₁).write hd₂, fun archive target w₁ hopen hdest => ?_⟩
  · rw [length_entriesOf, length_filesBelow hsource.tidy hne]
  · rw [Disk.walk_eq hsource.tree hsource.tidy hne (Disk.find_eq_ok_iff.1 hfind).2]
  · rw [openEntries_of_ends_pack hsource' outside' h']
    exact congrArg Except.ok
      (entriesOf_filesBelow_congr hsource'.tidy (Source.ne_nil outside') hsource.tidy hne hsame)
  · have hnul : ∀ e ∈ entriesOf (w.disk.filesBelow (source.target w.disk.current)),
        '\x00' ∉ e.name.toList := by
      intro e he hmem
      obtain ⟨front, hfront⟩ := Path.exists_text_join target e.name
      refine (hdest.fits e he).noNul ?_
      rw [hfront]
      exact List.mem_append_right _ hmem
    obtain ⟨sound, hsound⟩ := sound_entriesOf hplain hnul
    obtain ⟨w₂, hunpack, hholds⟩ := exists_ends_unpack hopen hsound sound hdest
    exact ⟨w₂, hunpack, hholds.restores hsource.tree hsource.tidy hne hplain⟩

/-- A directory with files whose names come in another order than their paths, and an empty one. -/
def sampleTree : World where
  disk := { nodes := [
    (["in"], .directory), (["in", "b-d"], .file (.plain [1])), (["in", "e"], .directory),
    (["in", "b"], .directory), (["in", "b", "c"], .file (.plain [2])),
    (["in", Part.contentTypes], .file (.plain []))] }

/-- What packing it leaves. -/
def packedTree : World := ((pack ⟨"/in"⟩ ⟨"/o"⟩).outcome sampleTree).2

theorem source_sampleTree : Source ⟨"/in"⟩ sampleTree.disk :=
  ⟨by decide +kernel, by decide, by unfold Disk.Tidy; decide, by decide⟩

theorem exists_roundTrip_sample : ∃ entries w₂,
    RoundTrip ⟨"/in"⟩ ⟨"/o"⟩ sampleTree 3 entries packedTree ∧
      entries.map (·.name) = [Part.contentTypes, "b/c", "b-d"] ∧
      Ends (unpack ⟨"/o"⟩ ⟨"/out"⟩) packedTree 3 w₂ ∧
      Restores sampleTree.disk ["in"] w₂.disk ["out"] := by
  have outside : ¬ (⟨"/in"⟩ : Path).target sampleTree.disk.current <+:
      (⟨"/o"⟩ : Path).target sampleTree.disk.current := by decide
  obtain ⟨n, entries, w', h⟩ := exists_roundTrip source_sampleTree outside
    ⟨sampleTree.disk.put ["o"] (.file (.plain [])), by decide +kernel⟩
  have hworld : w' = packedTree := by rw [packedTree, h.packs]
  have hfiles : sampleTree.disk.filesBelow ["in"] = [([Part.contentTypes], .plain []),
      (["b", "c"], .plain [2]), (["b-d"], .plain [1])] :=
    Disk.filesBelow_eq source_sampleTree.tidy (by decide) (by decide)
  have hopens := h.opens
  rw [openEntries_of_ends_pack source_sampleTree outside h.packs, Except.ok.injEq] at hopens
  have hentries : entries = entriesOf [([Part.contentTypes], .plain []),
      (["b", "c"], .plain [2]), (["b-d"], .plain [1])] := by
    rw [← hopens, ← hfiles]
    rfl
  have hn := h.length_eq
  subst hworld hentries hn
  have hpassable : (⟨"/out"⟩ : Path).Passable packedTree.disk := by
    refine ⟨by decide, by decide, rfl, ?_⟩
    rintro k (rfl | hk)
    · decide +kernel
    · revert hk
      revert k
      decide +kernel
  obtain ⟨w₂, hunpack, hrestores⟩ := h.restores ⟨"/o"⟩ ⟨"/out"⟩ packedTree h.opens
    (destination_of_noUp h.tree hpassable (by decide) (by decide))
  exact ⟨_, w₂, h, by decide, hunpack, hrestores⟩

/-- A directory with one file, and another one with an empty directory. -/
def besideTree : World where
  disk := { nodes := [(["in"], .directory), (["in", "a"], .file (.plain [])),
    (["out"], .directory), (["out", "x"], .directory)] }

/-- What packing the first one leaves. -/
def packedBeside : World where
  disk := besideTree.disk.put ["o"] (.file (.archive [.make "a" .deflated []]))
  log := [⟨.debug, "packed 1 entries from /in into /o"⟩]

theorem source_besideTree : Source ⟨"/in"⟩ besideTree.disk :=
  ⟨by decide +kernel, by decide, by unfold Disk.Tidy; decide, by decide⟩

theorem ends_pack_besideTree : Ends (pack ⟨"/in"⟩ ⟨"/o"⟩) besideTree 1 packedBeside := by
  have hfiles : besideTree.disk.filesBelow ["in"] = [(["a"], .plain [])] :=
    Disk.filesBelow_eq source_besideTree.tidy (by decide) (by decide)
  refine (ends_pack_iff (l := ["in"]) (by decide) (by decide)).2 ⟨?_,
    besideTree.disk.put ["o"] (.file (.plain [])), packedBeside.disk, by decide +kernel, ?_, ?_, ?_⟩
  · rfl
  · rw [hfiles]
    decide +kernel
  · rw [hfiles]
    rfl
  · decide +kernel

/-- Not every path to a directory can be unpacked to: one that ends in a dot is emptied, and one that
    leads through its own target gets a directory too many. -/
theorem not_forall_roundTrip :
    (¬ ∀ (source output target : Path) (w w' : World) (n : Nat), Source source w.disk →
      ¬ source.target w.disk.current <+: output.target w.disk.current →
        Ends (pack source output) w n w' → w'.disk.isDirectory target = true →
          ∃ w₂, Ends (unpack output target) w' n w₂) ∧
    ¬ ∀ (source output target : Path) (w w' w₂ : World) (n : Nat), Source source w.disk →
      ¬ source.target w.disk.current <+: output.target w.disk.current →
        Ends (pack source output) w n w' → w'.disk.isDirectory target = true →
          Ends (unpack output target) w' n w₂ →
            Restores w.disk (source.target w.disk.current) w₂.disk
              (target.target w'.disk.current) := by
  refine ⟨fun h => ?_, fun h => ?_⟩
  · obtain ⟨w₂, hends⟩ := h ⟨"/in"⟩ ⟨"/o"⟩ ⟨"/out/."⟩ besideTree packedBeside 1 source_besideTree
      (by decide) ends_pack_besideTree (by decide +kernel)
    have hfails : ((unpack ⟨"/o"⟩ ⟨"/out/."⟩).outcome packedBeside).1 =
        .error (.io ⟨"/out/."⟩ (.system .invalidArgument)) := by decide +kernel
    rw [hends] at hfails
    cases hfails
  · have hok : ((unpack ⟨"/o"⟩ ⟨"/out/x/.."⟩).outcome packedBeside).1 = .ok 1 := by decide +kernel
    have hrestores := h ⟨"/in"⟩ ⟨"/o"⟩ ⟨"/out/x/.."⟩ besideTree packedBeside _ 1 source_besideTree
      (by decide) ends_pack_besideTree (by decide +kernel) (ends_of_fst hok)
    have hleft := (hrestores.directory_iff ["x"]).1 (by decide +kernel)
    rcases hleft with hnil | ⟨hdir, -⟩
    · cases hnil
    · revert hdir
      decide +kernel

end Package

end DocxTemplate
