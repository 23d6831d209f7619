import Mathlib.Data.List.Nodup
import DocxTemplate.Proofs.Disk.Change

/-! # Trees

    A directory with everything below it is removed at once, and its files are listed.

    * `Disk.Tidy`: the locations of a tree are listed once each. Removing the tree makes it so,
      and every change keeps it.
    * `Disk.Changes`: what is known of a change besides the files that it is made for.
    * `Disk.mem_filesBelow_iff` and `Disk.nodup_filesBelow`: in a tidy tree the listing holds
      each file once.
    * `Disk.removeTree_eq`: what a path does not lead through is removed whole.
    * `Disk.IsTree`: everything lies in a directory.
    * `Path.Direct`, `Path.direct_of_noUp`: paths that name their target.
-/

namespace DocxTemplate

namespace Disk

variable {d d' : Disk} {l k : Location} {p : Path}

/-- The locations of a tree, as often as the disk lists them. -/
def keysBelow (d : Disk) (l : Location) : List Location :=
  (d.nodes.map (·.1)).filter fun k => decide (l <+: k)

/-- Every location of a tree is listed once. -/
def Tidy (d : Disk) (l : Location) : Prop := (d.keysBelow l).Nodup

/-- What is put in the place of nodes is listed at their locations. -/
theorem map_fst_replace (nodes : List (Location × Node)) (k : Location) (node : Node) :
    (nodes.map fun (j, old) => if j == k then (j, node) else (j, old)).map (·.1) =
      nodes.map (·.1) := by
  rw [List.map_map]
  refine List.map_congr_left fun entry _ => ?_
  dsimp only [Function.comp_apply]
  split <;> rfl

theorem tidy_put (h : d.Tidy l) (k : Location) (node : Node) : (d.put k node).Tidy l := by
  unfold Tidy keysBelow at h ⊢
  rw [put]
  by_cases hany : (d.nodes.any (·.1 == k)) = true
  · rw [if_pos hany]
    dsimp only
    rw [map_fst_replace]
    exact h
  · rw [if_neg hany]
    dsimp only
    rw [List.map_append, List.filter_append, List.nodup_append]
    have hnew : k ∉ d.nodes.map (·.1) := by
      intro hmem
      obtain ⟨entry, hentry, heq⟩ := List.mem_map.1 hmem
      exact hany (List.any_eq_true.2 ⟨entry, hentry, by simp [heq]⟩)
    refine ⟨h, (List.nodup_singleton k).sublist List.filter_sublist, ?_⟩
    intro j hj j' hj' heq
    rw [List.map_singleton] at hj'
    have hj'k := List.mem_singleton.1 (List.mem_of_mem_filter hj')
    rw [heq, hj'k] at hj
    exact hnew (List.mem_of_mem_filter hj)

theorem Makes.tidy {places : Location → Prop} (h : Makes places d d') (hd : d.Tidy l) :
    d'.Tidy l := by
  induction h with
  | refl => exact hd
  | step made place missing ih => exact tidy_put ih _ _

theorem tidy_of_write {content : Content} (h : d.write p content = .ok d') (hd : d.Tidy l) :
    d'.Tidy l := by
  obtain ⟨-, -, rfl⟩ := exists_of_write h
  exact tidy_put hd _ _

/-- Nothing is left of a tree that is removed. -/
theorem tidy_prune (d : Disk) (l : Location) : (d.prune l).Tidy l := by
  have hnone : (d.prune l).keysBelow l = [] := by
    rw [keysBelow, List.filter_eq_nil_iff]
    intro k hk
    obtain ⟨entry, hentry, rfl⟩ := List.mem_map.1 hk
    have hkept := (List.mem_filter.1 hentry).2
    rw [Bool.not_eq_true', Bool.eq_false_iff] at hkept
    rw [decide_eq_true_eq]
    exact fun hbelow => hkept (List.isPrefixOf_iff_prefix.2 hbelow)
  rw [Tidy, hnone]
  exact List.nodup_nil

/-! ## Where files change -/

/-- Files may have changed at some of the `places` only, and what was listed once still is. -/
structure Changes (places : Location → Prop) (d d' : Disk) : Prop where
  current_eq : d'.current = d.current
  tidy : ∀ l, d.Tidy l → d'.Tidy l
  file?_eq : ∀ k, ¬ places k → d'.file? k = d.file? k

namespace Changes

variable {places places' : Location → Prop} {d₁ d₂ : Disk}

theorem refl (places : Location → Prop) (d : Disk) : Changes places d d :=
  ⟨rfl, fun _ => id, fun _ _ => rfl⟩

theorem trans (h : Changes places d d₁) (h' : Changes places d₁ d₂) : Changes places d d₂ :=
  ⟨h'.current_eq.trans h.current_eq, fun l hd => h'.tidy l (h.tidy l hd),
    fun k hk => (h'.file?_eq k hk).trans (h.file?_eq k hk)⟩

theorem mono (h : Changes places d d') (hplaces : ∀ k, places k → places' k) :
    Changes places' d d' :=
  ⟨h.current_eq, h.tidy, fun k hk => h.file?_eq k fun hp => hk (hplaces k hp)⟩

/-- Making directories changes no file. -/
theorem of_makes {made : Location → Prop} (h : Makes made d d') : Changes places d d' :=
  ⟨h.current_eq, fun _ => h.tidy, fun k _ => h.file?_eq k⟩

theorem of_write {content : Content} (h : d.write p content = .ok d')
    (hp : places (p.target d.current)) : Changes places d d' := by
  refine ⟨current_of_write h, fun _ => tidy_of_write h, fun k hk => ?_⟩
  rw [file?_of_write h, if_neg]
  rintro rfl
  exact hk hp

theorem prune (hl : l ≠ []) (d : Disk) : Changes (l <+: ·) d (d.prune l) := by
  refine ⟨rfl, fun j hd => ?_, fun k hk => file?_of_node?_eq ?_⟩
  · exact List.Nodup.sublist ((List.filter_sublist.map _).filter _) hd
  · rw [node?_prune hl, if_neg hk]

end Changes

/-! ## Listing -/

theorem lookup_of_mem {nodes : List (Location × Node)} {keep : Location → Bool} {node : Node}
    (hnodup : ((nodes.map (·.1)).filter keep).Nodup) (hkeep : keep k = true)
    (hmem : (k, node) ∈ nodes) : nodes.lookup k = some node := by
  induction nodes with
  | nil => cases hmem
  | cons entry nodes ih =>
    obtain ⟨j, old⟩ := entry
    rw [List.map_cons, List.filter_cons] at hnodup
    by_cases hkj : k = j
    · subst hkj
      rw [if_pos hkeep, List.nodup_cons] at hnodup
      rw [lookup_cons_self]
      rcases List.mem_cons.1 hmem with heq | hmem
      · rw [Prod.mk.injEq] at heq
        rw [heq.2]
      · exact absurd (List.mem_filter.2 ⟨List.mem_map.2 ⟨_, hmem, rfl⟩, hkeep⟩) hnodup.1
    · rw [lookup_cons_of_ne _ _ hkj]
      rcases List.mem_cons.1 hmem with heq | hmem
      · exact absurd (congrArg Prod.fst heq) hkj
      · refine ih ?_ hmem
        split at hnodup
        · exact (List.nodup_cons.1 hnodup).2
        · exact hnodup

theorem mem_of_lookup {nodes : List (Location × Node)} {node : Node}
    (h : nodes.lookup k = some node) : (k, node) ∈ nodes := by
  induction nodes with
  | nil => cases h
  | cons entry nodes ih =>
    obtain ⟨j, old⟩ := entry
    by_cases hkj : k = j
    · subst hkj
      rw [lookup_cons_self, Option.some.injEq] at h
      rw [h]
      exact List.mem_cons_self
    · rw [lookup_cons_of_ne _ _ hkj] at h
      exact List.mem_cons_of_mem _ (ih h)

/-- The files below a location, in the order the disk lists them. -/
def listedFiles (d : Disk) (l : Location) : List (Location × Content) :=
  d.nodes.filterMap fun (k, node) =>
    match node with
    | .file content => if l.isPrefixOf k then some (k.drop l.length, content) else none
    | .directory => none

theorem filesBelow_perm (d : Disk) (l : Location) : (d.filesBelow l).Perm (d.listedFiles l) :=
  List.mergeSort_perm _ _

theorem mem_listedFiles_iff {content : Content} : (k, content) ∈ d.listedFiles l ↔
    (l ++ k, Node.file content) ∈ d.nodes := by
  rw [listedFiles, List.mem_filterMap]
  constructor
  · rintro ⟨⟨j, node⟩, hmem, heq⟩
    cases node with
    | directory => cases heq
    | file c =>
      dsimp only at heq
      split at heq
      · next hbelow =>
        obtain ⟨rest, rfl⟩ := List.isPrefixOf_iff_prefix.1 hbelow
        rw [List.drop_left, Option.some.injEq, Prod.mk.injEq] at heq
        rw [← heq.1, ← heq.2]
        exact hmem
      · cases heq
  · intro hmem
    refine ⟨_, hmem, ?_⟩
    dsimp only
    rw [if_pos (List.isPrefixOf_iff_prefix.2 (List.prefix_append l k)), List.drop_left]

/-- The listing of a tidy tree holds its files. -/
theorem mem_filesBelow_iff (h : d.Tidy l) (hl : l ≠ []) {content : Content} :
    (k, content) ∈ d.filesBelow l ↔ d.file? (l ++ k) = some content := by
  have hne : l ++ k ≠ [] := fun hnil => hl (List.append_eq_nil_iff.1 hnil).1
  rw [(filesBelow_perm d l).mem_iff, mem_listedFiles_iff, file?_eq_some_iff, node?_of_ne_nil hne]
  constructor
  · exact lookup_of_mem h (by simp)
  · exact mem_of_lookup

/-- The names of the files below a location are among those of all nodes there. -/
theorem listedFiles_sublist (d : Disk) (l : Location) :
    ((d.listedFiles l).map (·.1)).Sublist ((d.keysBelow l).map (·.drop l.length)) := by
  unfold listedFiles keysBelow
  induction d.nodes with
  | nil => exact List.Sublist.slnil
  | cons entry nodes ih =>
    obtain ⟨j, node⟩ := entry
    rw [List.map_cons, List.filter_cons]
    by_cases hbelow : l <+: j
    · rw [if_pos (by simpa using hbelow), List.map_cons]
      cases node with
      | directory => exact ih.cons _
      | file content =>
        rw [List.filterMap_cons]
        dsimp only
        rw [if_pos (List.isPrefixOf_iff_prefix.2 hbelow)]
        exact ih.cons_cons _
    · rw [if_neg (by simpa using hbelow)]
      cases node with
      | directory => exact ih
      | file content =>
        rw [List.filterMap_cons]
        dsimp only
        rw [if_neg fun h => hbelow (List.isPrefixOf_iff_prefix.1 h)]
        exact ih

/-- It holds each of them once. -/
theorem nodup_filesBelow (h : d.Tidy l) : ((d.filesBelow l).map (·.1)).Nodup := by
  rw [((filesBelow_perm d l).map (·.1)).nodup_iff]
  refine List.Nodup.sublist (listedFiles_sublist d l) (List.Nodup.map_on ?_ h)
  intro j hj j' hj' heq
  obtain ⟨rest, rfl⟩ := of_decide_eq_true (List.mem_filter.1 hj).2
  obtain ⟨rest', rfl⟩ := of_decide_eq_true (List.mem_filter.1 hj').2
  rw [List.drop_left, List.drop_left] at heq
  rw [heq]

/-! ## Removing -/

/-- Removing a directory leaves the disk as it is, or nothing in the directory. -/
theorem removeTree_cases (d : Disk) (p : Path) : (d.removeTree p).1 = d ∨
    (d.removeTree p).1 = d.clear (p.target d.current) ∨
    (d.removeTree p).1 = d.prune (p.target d.current) := by
  rw [removeTree]
  cases hfind : d.find p with
  | error fault => exact Or.inl rfl
  | ok found =>
    obtain ⟨m, node⟩ := found
    obtain ⟨hlocate, -⟩ := find_eq_ok_iff.1 hfind
    obtain rfl := eq_target_of_locate hlocate
    cases node with
    | file content => exact Or.inl rfl
    | directory =>
      dsimp only
      split
      · exact Or.inr (Or.inl rfl)
      · split
        · exact Or.inr (Or.inl rfl)
        · exact Or.inr (Or.inr rfl)

/-- From one disk to the next, files may go. Those that are left are as they were. -/
structure Loses (d d' : Disk) : Prop where
  current_eq : d'.current = d.current
  file?_before : ∀ k content, d'.file? k = some content → d.file? k = some content

theorem Loses.refl (d : Disk) : d.Loses d := ⟨rfl, fun _ _ h => h⟩

theorem Loses.trans {d'' : Disk} (h : d.Loses d') (h' : d'.Loses d'') : d.Loses d'' :=
  ⟨h'.current_eq.trans h.current_eq,
    fun k content hk => h.file?_before k content (h'.file?_before k content hk)⟩

/-- Nodes that are taken from the list of all nodes are gone. -/
theorem loses_filter (d : Disk) (keep : Location → Bool) :
    d.Loses { d with nodes := d.nodes.filter fun (j, _) => keep j } := by
  refine ⟨rfl, fun k content hk => ?_⟩
  rw [file?_eq_some_iff] at hk ⊢
  by_cases hroot : k = []
  · subst hroot
    cases hk
  · rw [node?_of_ne_nil hroot, lookup_filter_key] at hk
    rw [node?_of_ne_nil hroot]
    split at hk
    · exact hk
    · cases hk

theorem loses_removeTree (d : Disk) (p : Path) : d.Loses (d.removeTree p).1 := by
  obtain h | h | h := removeTree_cases d p
  · rw [h]
    exact .refl d
  · rw [h]
    exact loses_filter d fun j =>
      !(p.target d.current).isPrefixOf j || j == p.target d.current
  · rw [h]
    exact loses_filter d fun j => !(p.target d.current).isPrefixOf j

/-- Whether a path leads to a place by its name, and not through what is there. -/
structure Names (p : Path) (c l : Location) : Prop where
  target_eq : p.target c = l
  nonroot : l ≠ []
  outside : ∀ j ∈ p.way c, ¬ l <+: j
  named : p.lastSegment? ≠ some "."

/-- What a path does not lead through the inside of is emptied, and goes unless the path ends in
    `.`. -/
theorem removeTree_of_outside (outside : ∀ j ∈ p.way d.current, l <+: j → j = l)
    (h : d.find p = .ok (l, .directory)) : d.removeTree p =
      if p.lastSegment? == some "." then (d.clear l, .error .invalidArgument)
      else (d.prune l, .ok ()) := by
  obtain ⟨hlocate, hnode⟩ := find_eq_ok_iff.1 h
  -- Emptying the directory changes nothing on the way there, nor the directory itself.
  have hkept : ∀ j, (l <+: j → j = l) → (d.clear l).node? j = d.node? j := by
    intro j hj
    by_cases hroot : j = []
    · rw [hroot, node?_nil, node?_nil]
    · rw [node?_clear _ _ hroot, if_neg fun hboth => hboth.2 (hj hboth.1)]
  have hemptied : (d.clear l).find p = .ok (l, .directory) := by
    refine find_eq_ok_iff.2 ⟨locate_of_locate hlocate rfl fun j hj => ?_, ?_⟩
    · rw [hkept j (outside j hj)]
      exact node?_of_mem_way hlocate hj
    · rw [hkept l fun _ => rfl]
      exact hnode
  rw [removeTree, h]
  dsimp only
  rw [hemptied]

/-- A directory that a path names is removed with everything in it. -/
theorem removeTree_eq (hnames : Names p d.current l) (h : d.find p = .ok (l, .directory)) :
    d.removeTree p = (d.prune l, .ok ()) := by
  rw [removeTree_of_outside (fun j hj hbelow => absurd hbelow (hnames.outside j hj)) h,
    if_neg (by simpa using hnames.named)]

/-- Nothing is left below a directory that is removed, also below the root. -/
theorem node?_prune_append (d : Disk) (hk : k ≠ []) : (d.prune l).node? (l ++ k) = none := by
  by_cases hroot : l = []
  · rw [hroot, List.nil_append, node?_of_ne_nil hk, prune]
    dsimp only
    rw [lookup_filter_key d.nodes (fun j => !List.isPrefixOf [] j)]
    simp
  · rw [node?_prune hroot, if_pos (List.prefix_append _ _)]

/-! ## Disks without gaps -/

/-- Everything on the disk lies in a directory. -/
def IsTree (d : Disk) : Prop := ∀ entry ∈ d.nodes, d.node? entry.1.dropLast = some .directory

instance (d : Disk) : Decidable (IsTree d) :=
  inferInstanceAs (Decidable (∀ entry ∈ d.nodes, d.node? entry.1.dropLast = some .directory))

/-- Where something exists, the places above are directories. -/
theorem IsTree.directory_of_prefix (h : d.IsTree) {j : Location} (hk : d.node? k ≠ none)
    (habove : j <+: k) (hne : j ≠ k) : d.node? j = some .directory := by
  induction hn : k.length generalizing k with
  | zero =>
    rw [List.eq_nil_of_length_eq_zero hn] at habove hne
    exact absurd (List.prefix_nil.1 habove) hne
  | succ n ih =>
    have hnonroot : k ≠ [] := by
      rintro rfl
      cases hn
    obtain ⟨node, hnode⟩ := Option.ne_none_iff_exists'.1 hk
    rw [node?_of_ne_nil hnonroot] at hnode
    have hparent := h (k, node) (mem_of_lookup hnode)
    have hbelow : j <+: k.dropLast := by
      obtain ⟨rest, hrest⟩ := habove
      have hrestNe : rest ≠ [] := by
        rintro rfl
        exact hne (by rw [← hrest, List.append_nil])
      rw [← hrest, List.dropLast_append_of_ne_nil hrestNe]
      exact List.prefix_append _ _
    by_cases heq : j = k.dropLast
    · rw [heq]
      exact hparent
    · refine ih ?_ hbelow heq ?_
      · dsimp only at hparent
        rw [hparent]
        exact nofun
      · rw [List.length_dropLast, hn]
        rfl

/-- Where nothing exists, nothing exists below. -/
theorem IsTree.node?_append (h : d.IsTree) (hnone : d.node? l = none) (k : Location) :
    d.node? (l ++ k) = none := by
  by_cases hk : k = []
  · rw [hk, List.append_nil, hnone]
  · by_contra hsome
    have hne : l ≠ l ++ k := fun heq => hk (List.append_right_eq_self.1 heq.symm)
    have hdir := h.directory_of_prefix hsome (List.prefix_append l k) hne
    rw [hnone] at hdir
    cases hdir

/-- Where a walk does not find a place, one of the places that it passes is missing. -/
theorem exists_missing_of_follow {steps : List String} (h : d.follow l steps = .error .notFound) :
    ∃ j ∈ passed l steps, d.node? j = none := by
  induction steps generalizing l with
  | nil => cases h
  | cons step rest ih =>
    rw [follow] at h
    cases hnode : d.node? l with
    | none => exact ⟨l, List.mem_cons_self, hnode⟩
    | some node =>
      rw [hnode] at h
      cases node with
      | file content => cases h
      | directory =>
        dsimp only at h
        split at h
        · cases h
        · obtain ⟨j, hj, hmissing⟩ := ih h
          exact ⟨j, List.mem_cons_of_mem _ hj, hmissing⟩

/-- Where a path finds nothing, its target is missing or a place on the way. -/
theorem exists_missing_of_find {p : Path} (hnonempty : p.text ≠ "")
    (h : d.find p = .error .notFound) :
    ∃ j, (j = p.target d.current ∨ j ∈ p.way d.current) ∧ d.node? j = none := by
  unfold find at h
  cases hlocate : d.locate p with
  | ok k =>
    rw [hlocate] at h
    dsimp only at h
    cases hnode : d.node? k with
    | none => exact ⟨k, Or.inl (eq_target_of_locate hlocate), hnode⟩
    | some node =>
      rw [hnode] at h
      cases h
  | error fault =>
    rw [hlocate] at h
    cases h
    rw [locate_eq, if_neg (c := p.text.isEmpty = true) (by simpa using hnonempty)] at hlocate
    split_ifs at hlocate
    · cases hlocate
    · cases hlocate
    · obtain ⟨j, hj, hmissing⟩ := exists_missing_of_follow hlocate
      exact ⟨j, Or.inr hj, hmissing⟩

end Disk

/-- A path names its target: it does not lead through the inside of it, and if it finds nothing
    there is nothing. -/
structure Path.Direct (p : Path) (d : Disk) : Prop where
  nonempty : p.text ≠ ""
  outside : ∀ j ∈ p.way d.current, p.target d.current <+: j → j = p.target d.current
  finds : d.find p = .error .notFound → d.node? (p.target d.current) = none

/-- Steps that do not go up pass only places above the one they lead to. -/
theorem Disk.prefix_of_mem_passed {steps : List String} (hup : ".." ∉ steps) {j : Location}
    (hj : j ∈ passed l steps) : j <+: reach l steps := by
  induction steps generalizing l j with
  | nil => cases hj
  | cons step rest ih =>
    rw [List.mem_cons, not_or] at hup
    have hdown : l <+: move l step := by
      rw [move]
      split
      · exact List.prefix_rfl
      · rw [if_neg (by simpa using Ne.symm hup.1)]
        exact List.prefix_append _ _
    have hrest : move l step <+: reach (move l step) rest := by
      cases rest with
      | nil => exact List.prefix_rfl
      | cons next rest => exact ih hup.2 List.mem_cons_self
    rcases List.mem_cons.1 hj with rfl | hj
    · exact hdown.trans hrest
    · exact ih hup.2 hj

/-- A path that does not go up names its target. -/
theorem Path.direct_of_noUp {p : Path} {d : Disk} (htree : d.IsTree) (hnonempty : p.text ≠ "")
    (hup : ".." ∉ p.steps) : p.Direct d := by
  have hway : ∀ j ∈ p.way d.current, j <+: p.target d.current := fun j hj =>
    Disk.prefix_of_mem_passed hup hj
  refine ⟨hnonempty, fun j hj hbelow => ?_, fun hfind => ?_⟩
  · exact (hway j hj).eq_of_length (Nat.le_antisymm (hway j hj).length_le hbelow.length_le)
  · obtain ⟨j, hj, hmissing⟩ := Disk.exists_missing_of_find hnonempty hfind
    rcases hj with rfl | hj
    · exact hmissing
    · obtain ⟨rest, hrest⟩ := hway j hj
      rw [← hrest]
      exact htree.node?_append hmissing rest

end DocxTemplate
