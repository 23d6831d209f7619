import DocxTemplate.Proofs.Disk.Making

/-! # Below a location

    A tree is used for as long as nothing but its own work changes it. What is known of it then is
    known of the places below its root, whatever happens elsewhere.

    * `Disk.Proper`: the disks that systems have.
    * `Disk.Alters`: files have changed at some places below a location, and no directory has gone.
    * `Disk.readText_of_kept`: what can be found is read again as it was.
-/

namespace DocxTemplate

/-! ## Paths that start at the root -/

namespace Path

variable {p : Path} {c : Location}

theorem start_of_isAbsolute (h : p.isAbsolute = true) (c : Location) : p.start c = [] := by
  rw [start, if_pos h]

/-- They lead to the same place from everywhere. -/
theorem target_of_isAbsolute (h : p.isAbsolute = true) (c c' : Location) :
    p.target c = p.target c' := by
  rw [target, target, start_of_isAbsolute h, start_of_isAbsolute h]

theorem way_of_isAbsolute (h : p.isAbsolute = true) (c c' : Location) : p.way c = p.way c' := by
  rw [way, way, start_of_isAbsolute h, start_of_isAbsolute h]

end Path

namespace Disk

variable {d d' d'' : Disk} {l k : Location} {p : Path}

theorem Names.of_isAbsolute {c : Location} (h : Names p c l) (habs : p.isAbsolute = true)
    (c' : Location) : Names p c' l := by
  refine ⟨?_, h.nonroot, ?_, h.named⟩
  · rw [Path.target_of_isAbsolute habs c' c, h.target_eq]
  · rw [Path.way_of_isAbsolute habs c' c]
    exact h.outside

/-! ## Proper disks -/

/-- A disk as systems have it. -/
structure Proper (d : Disk) : Prop where
  /-- Everything lies in a directory, -/
  tree : d.IsTree
  /-- is listed once, -/
  nodup : (d.nodes.map (·.1)).Nodup
  /-- and has names without a slash. -/
  named : ∀ entry ∈ d.nodes, ∀ name ∈ entry.1, '/' ∉ name.toList

instance (d : Disk) : Decidable d.Proper :=
  decidable_of_iff (d.IsTree ∧ (d.nodes.map (·.1)).Nodup ∧
      ∀ entry ∈ d.nodes, ∀ name ∈ entry.1, '/' ∉ name.toList)
    ⟨fun h => ⟨h.1, h.2.1, h.2.2⟩, fun h => ⟨h.tree, h.nodup, h.named⟩⟩

theorem Proper.tidy (h : d.Proper) (l : Location) : d.Tidy l := h.nodup.filter _

/-- The files below a location have names without a slash. -/
def Slashless (d : Disk) (l : Location) : Prop :=
  ∀ k content, d.file? (l ++ k) = some content → ∀ name ∈ k, '/' ∉ name.toList

theorem Proper.slashless (h : d.Proper) (l : Location) : d.Slashless l := by
  intro k content hfile name hname
  have hnode := file?_eq_some_iff.1 hfile
  have hne : l ++ k ≠ [] := by
    intro hnil
    rw [hnil] at hnode
    cases hnode
  rw [node?_of_ne_nil hne] at hnode
  exact h.named _ (mem_of_lookup hnode) name (List.mem_append_right _ hname)

/-! ## Changes below a location -/

/-- Below a location, files may have changed at some of the `places` only, no directory has gone,
    and what was listed once still is. -/
structure Alters (l : Location) (places : Location → Prop) (d d' : Disk) : Prop where
  file?_eq : ∀ k, l <+: k → ¬ places k → d'.file? k = d.file? k
  directory : ∀ k, l <+: k → d.node? k = some .directory → d'.node? k = some .directory
  tidy : d.Tidy l → d'.Tidy l

namespace Alters

variable {places places' : Location → Prop}

theorem refl (l : Location) (places : Location → Prop) (d : Disk) : Alters l places d d :=
  ⟨fun _ _ _ => rfl, fun _ _ => id, id⟩

theorem trans (h : Alters l places d d') (h' : Alters l places d' d'') :
    Alters l places d d'' :=
  ⟨fun k hl hk => (h'.file?_eq k hl hk).trans (h.file?_eq k hl hk),
    fun k hl hk => h'.directory k hl (h.directory k hl hk), fun hd => h'.tidy (h.tidy hd)⟩

theorem mono (h : Alters l places d d') (hplaces : ∀ k, l <+: k → places k → places' k) :
    Alters l places' d d' :=
  ⟨fun k hl hk => h.file?_eq k hl fun hp => hk (hplaces k hl hp), h.directory, h.tidy⟩

theorem of_changes (h : Changes places d d') (hdirs : d.KeepsDirectories d') :
    Alters l places d d' :=
  ⟨fun k _ => h.file?_eq k, fun k _ => hdirs k, h.tidy l⟩

end Alters

/-! ## Reading -/

/-- Where everything on the way is a directory, steps lead to their end unless a name is too
    long. -/
theorem follow_of_directories {steps : List String}
    (h : ∀ j ∈ passed l steps, d.node? j = some .directory) : d.follow l steps =
      if ∀ step ∈ steps, step.utf8ByteSize ≤ longestName then .ok (reach l steps)
      else .error .nameTooLong := by
  induction steps generalizing l with
  | nil => simp [follow]
  | cons step rest ih =>
    rw [follow, h l List.mem_cons_self]
    dsimp only
    by_cases hshort : longestName < step.utf8ByteSize
    · rw [if_pos hshort, if_neg]
      exact fun hall => absurd (hall step List.mem_cons_self) (Nat.not_le.2 hshort)
    · rw [if_neg hshort, ih fun j hj => h j (List.mem_cons_of_mem _ hj)]
      simp [Nat.not_lt.1 hshort]

/-- Paths that start at the root lead to the same places on two disks that have their ways. -/
theorem locate_congr (habs : p.isAbsolute = true)
    (hway : ∀ j ∈ p.way d.current, d.node? j = some .directory)
    (hway' : ∀ j ∈ p.way d'.current, d'.node? j = some .directory) : d'.locate p = d.locate p := by
  rw [locate_eq, locate_eq, follow_of_directories hway, follow_of_directories hway',
    Path.start_of_isAbsolute habs, Path.start_of_isAbsolute habs]

/-- Where a path finds nothing to read, its target is missing or a place on the way. -/
theorem exists_missing_of_readText (hnonempty : p.text ≠ "")
    (h : d.readText p = .error (.system .notFound)) :
    ∃ j, (j = p.target d.current ∨ j ∈ p.way d.current) ∧ d.node? j = none := by
  refine exists_missing_of_find hnonempty ?_
  rw [readText, read, content] at h
  cases hfind : d.find p with
  | error fault =>
    rw [hfind] at h
    cases h
    rfl
  | ok found =>
    obtain ⟨m, node⟩ := found
    rw [hfind] at h
    cases node with
    | directory => cases h
    | file content =>
      simp only [Except.map] at h
      split at h <;> cases h

/-- What can be found is read again as it was, if it is a directory or a file like the one that it
    was. -/
theorem readText_of_kept (habs : p.isAbsolute = true)
    (hway : ∀ j ∈ p.way d.current, d.node? j = some .directory)
    (hway' : ∀ j ∈ p.way d'.current, d'.node? j = some .directory)
    (hfile : d'.file? (p.target d.current) = d.file? (p.target d.current))
    (hdir : d.node? (p.target d.current) = some .directory →
      d'.node? (p.target d.current) = some .directory)
    (hfound : d.readText p ≠ .error (.system .notFound)) : d'.readText p = d.readText p := by
  have hlocate := locate_congr habs hway hway'
  rw [readText, readText, read, read, content, content, find, find, hlocate]
  cases hl : d.locate p with
  | error fault => rfl
  | ok m =>
    obtain rfl := eq_target_of_locate hl
    dsimp only
    have hnode : d'.node? (p.target d.current) = d.node? (p.target d.current) := by
      cases hnode : d.node? (p.target d.current) with
      | none =>
        refine absurd ?_ hfound
        rw [readText, read, content, find, hl]
        dsimp only
        rw [hnode]
        rfl
      | some node =>
        cases node with
        | directory => exact hdir hnode
        | file content => rw [← file?_eq_some_iff, hfile, file?_eq_some_iff, hnode]
    rw [hnode]

/-- A text that can be read can be written over. -/
theorem exists_write_of_readText {text : Bytes} (h : d.readText p = .ok text)
    (hslash : p.endsInSlash = false) (content : Content) : ∃ d', d.write p content = .ok d' := by
  have hread : ∃ content', d.content p = .ok content' := by
    rw [readText, read] at h
    cases hcontent : d.content p with
    | error fault =>
      rw [hcontent] at h
      cases h
    | ok content' => exact ⟨content', rfl⟩
  obtain ⟨content', hcontent⟩ := hread
  obtain ⟨hlocate, hfile⟩ := content_eq_ok_iff.1 hcontent
  obtain ⟨hfits, hway, -⟩ := locate_eq_ok_iff.1 hlocate
  refine ⟨_, write_eq_ok hfits hslash hway ?_⟩
  rw [file?_eq_some_iff.1 hfile]
  simp

end Disk

end DocxTemplate
