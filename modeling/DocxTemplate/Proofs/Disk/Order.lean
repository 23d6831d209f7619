import Mathlib.Data.List.Lex
import Mathlib.Data.String.Basic
import DocxTemplate.Proofs.Disk.Tree

/-! # The order of a listing

    The files of a tree are listed by the names that lead to them, compared name by name. A walk
    that enters each directory in the order of its names meets them in this order, so the listing
    says nothing about how the files came to be there.

    * `Disk.namesBefore_iff`: name by name is the order of lists of names.
    * `Disk.pairwise_filesBelow`: the files of a tidy tree are listed in strictly ascending order.
    * `Disk.filesBelow_bytes`: trees with the same files have the same listing.
    * `Disk.walk`, `Disk.walk_eq`: the walk through the tree gives the listing.
-/

namespace DocxTemplate.Disk

variable {d d' : Disk} {l l' j k : Location}

theorem namesBefore_iff : namesBefore j k = true ↔ j ≤ k := by
  induction j generalizing k with
  | nil => simp [namesBefore, ← not_lt]
  | cons a j ih =>
    cases k with
    | nil => simp [namesBefore, ← not_lt]
    | cons b k =>
      rw [← not_lt, List.cons_lt_cons_iff, namesBefore]
      by_cases hab : a = b
      · rw [if_pos (by simpa using hab), ih, hab]
        simp
      · rw [if_neg (by simpa using hab), decide_eq_true_eq]
        simp only [Ne.symm hab, false_and, or_false, not_lt]
        exact ⟨le_of_lt, fun hle => lt_of_le_of_ne hle hab⟩

/-! ## Listings -/

theorem pairwise_le_filesBelow (d : Disk) (l : Location) :
    (d.filesBelow l).Pairwise fun a b => a.1 ≤ b.1 := by
  have hsorted : (d.filesBelow l).Pairwise fun a b => namesBefore a.1 b.1 = true := by
    refine List.pairwise_mergeSort (fun a b c hab hbc => ?_) (fun a b => ?_) (d.listedFiles l)
    · exact namesBefore_iff.2 (le_trans (namesBefore_iff.1 hab) (namesBefore_iff.1 hbc))
    · rw [Bool.or_eq_true, namesBefore_iff, namesBefore_iff]
      exact le_total a.1 b.1
  exact hsorted.imp fun h => namesBefore_iff.1 h

/-- No two files of a tidy tree are listed under the same names. -/
theorem pairwise_filesBelow (h : d.Tidy l) : (d.filesBelow l).Pairwise fun a b => a.1 < b.1 := by
  have hdistinct : (d.filesBelow l).Pairwise fun a b => a.1 ≠ b.1 :=
    List.pairwise_map.1 (nodup_filesBelow h)
  exact (pairwise_le_filesBelow d l).imp₂ (fun _ _ => lt_of_le_of_ne) hdistinct

/-- Lists in strictly ascending order are the same if they have the same members. -/
theorem eq_of_ascending {α : Type} {files files' : List (Location × α)}
    (h : files.Pairwise fun a b => a.1 < b.1) (h' : files'.Pairwise fun a b => a.1 < b.1)
    (hmem : ∀ file, file ∈ files ↔ file ∈ files') : files = files' := by
  have hnodup : ∀ {files : List (Location × α)}, (files.Pairwise fun a b => a.1 < b.1) →
      files.Nodup := fun hasc => hasc.imp fun hlt heq => absurd hlt (by rw [heq]; exact lt_irrefl _)
  have hperm := (List.perm_ext_iff_of_nodup (hnodup h) (hnodup h')).2 hmem
  exact hperm.eq_of_pairwise (fun a b _ _ hab hba => absurd hba (lt_asymm hab)) h h'

/-- The files of a tidy tree in strictly ascending order are its listing. -/
theorem filesBelow_eq {files : List (Location × Content)} (h : d.Tidy l)
    (hperm : files.Perm (d.listedFiles l)) (hasc : files.Pairwise fun a b => a.1 < b.1) :
    d.filesBelow l = files :=
  eq_of_ascending (pairwise_filesBelow h) hasc fun _ =>
    ((filesBelow_perm d l).trans hperm.symm).mem_iff

/-- The listing depends on nothing but which bytes are where. -/
theorem filesBelow_bytes (h : d.Tidy l) (hl : l ≠ []) (h' : d'.Tidy l') (hl' : l' ≠ [])
    (hsame : ∀ k, (d.file? (l ++ k)).map Content.bytes = (d'.file? (l' ++ k)).map Content.bytes) :
    (d.filesBelow l).map (fun file => (file.1, file.2.bytes)) =
      (d'.filesBelow l').map fun file => (file.1, file.2.bytes) := by
  have hmem : ∀ {d : Disk} {l : Location}, d.Tidy l → l ≠ [] → ∀ k data,
      (k, data) ∈ (d.filesBelow l).map (fun file => (file.1, file.2.bytes)) ↔
        (d.file? (l ++ k)).map Content.bytes = some data := by
    intro d l h hl k data
    rw [List.mem_map, Option.map_eq_some_iff]
    constructor
    · rintro ⟨⟨k', content⟩, hfile, heq⟩
      rw [Prod.mk.injEq] at heq
      rw [← heq.1]
      exact ⟨content, (mem_filesBelow_iff h hl).1 hfile, heq.2⟩
    · rintro ⟨content, hfile, rfl⟩
      exact ⟨_, (mem_filesBelow_iff h hl).2 hfile, rfl⟩
  refine eq_of_ascending ?_ ?_ fun file => ?_
  · exact List.pairwise_map.2 (pairwise_filesBelow h)
  · exact List.pairwise_map.2 (pairwise_filesBelow h')
  · rw [hmem h hl file.1 file.2, hmem h' hl' file.1 file.2, hsame]

/-! ## Walking through a tree -/

/-- The names in a directory in ascending order. -/
def sortedNames (d : Disk) (l : Location) : List String :=
  (d.children l).mergeSort fun a b => decide (a ≤ b)

/-- The files that are met below a directory by entering its directories, at most `n` deep, in the
    order of the names. -/
def walk (d : Disk) : (n : Nat) → Location → List (Location × Content)
  | 0, _ => []
  | n + 1, l => (d.sortedNames l).flatMap fun name =>
    match d.node? (l ++ [name]) with
    | some (.file content) => [([name], content)]
    | some .directory => (walk d n (l ++ [name])).map fun (k, content) => (name :: k, content)
    | none => []

/-- The length of the longest location on the disk. -/
def height (d : Disk) : Nat := (d.nodes.map fun entry => entry.1.length).foldr max 0

theorem length_le_height (hk : d.node? k ≠ none) : k.length ≤ d.height := by
  by_cases hroot : k = []
  · rw [hroot]
    exact Nat.zero_le _
  · obtain ⟨node, hnode⟩ := Option.ne_none_iff_exists'.1 hk
    rw [node?_of_ne_nil hroot] at hnode
    have hmem := mem_of_lookup hnode
    clear hnode
    unfold height
    generalize d.nodes = nodes at hmem
    induction nodes with
    | nil => cases hmem
    | cons entry nodes ih =>
      rw [List.map_cons, List.foldr_cons]
      rcases List.mem_cons.1 hmem with rfl | hmem
      · exact Nat.le_max_left _ _
      · exact (ih hmem).trans (Nat.le_max_right _ _)

theorem mem_children_iff {name : String} :
    name ∈ d.children l ↔ d.node? (l ++ [name]) ≠ none := by
  have hne : l ++ [name] ≠ [] := by simp
  rw [children, List.mem_filterMap, node?_of_ne_nil hne]
  constructor
  · rintro ⟨⟨k, node⟩, hmem, hname⟩
    dsimp only at hname
    split at hname
    · next hparent =>
      rw [Bool.and_eq_true, beq_iff_eq] at hparent
      obtain ⟨front, rfl⟩ := List.getLast?_eq_some_iff.1 hname
      rw [List.dropLast_concat] at hparent
      rw [← hparent.1]
      intro hnone
      have hother := List.lookup_eq_none_iff.1 hnone _ hmem
      simp at hother
    · cases hname
  · intro h
    obtain ⟨node, hnode⟩ := Option.ne_none_iff_exists'.1 h
    refine ⟨_, mem_of_lookup hnode, ?_⟩
    simp

theorem tidy_below (h : d.Tidy l) (hk : l <+: k) : d.Tidy k := by
  unfold Tidy keysBelow at h ⊢
  refine h.sublist (List.monotone_filter_right _ fun j hj => ?_)
  rw [decide_eq_true_eq] at hj ⊢
  exact hk.trans hj

/-- A tidy directory has each name once. -/
theorem nodup_children (h : d.Tidy l) : (d.children l).Nodup := by
  have heq : d.children l = (d.keysBelow l).filterMap fun k =>
      if k.dropLast == l && !k.isEmpty then k.getLast? else none := by
    rw [children, keysBelow, List.filterMap_filter, List.filterMap_map]
    refine List.filterMap_congr fun entry _ => ?_
    obtain ⟨k, node⟩ := entry
    rw [Function.comp_apply]
    dsimp only
    by_cases hbelow : l <+: k
    · simp only [hbelow, decide_true, if_true]
    · simp only [hbelow, decide_false, Bool.false_eq_true, if_false]
      rw [if_neg]
      rw [Bool.and_eq_true, beq_iff_eq]
      rintro ⟨rfl, -⟩
      exact hbelow (List.dropLast_prefix k)
  rw [heq]
  refine h.filterMap fun k k' name hk hk' => ?_
  rw [Option.mem_def] at hk hk'
  split_ifs at hk hk' with hparent hparent'
  · rw [Bool.and_eq_true, beq_iff_eq] at hparent hparent'
    obtain ⟨front, rfl⟩ := List.getLast?_eq_some_iff.1 hk
    obtain ⟨front', rfl⟩ := List.getLast?_eq_some_iff.1 hk'
    rw [List.dropLast_concat] at hparent hparent'
    rw [hparent.1, hparent'.1]

theorem mem_sortedNames_iff {name : String} :
    name ∈ d.sortedNames l ↔ d.node? (l ++ [name]) ≠ none := by
  rw [sortedNames, (List.mergeSort_perm _ _).mem_iff, mem_children_iff]

theorem pairwise_sortedNames (h : d.Tidy l) : (d.sortedNames l).Pairwise (· < ·) := by
  have hsorted : (d.sortedNames l).Pairwise fun a b => decide (a ≤ b) = true := by
    refine List.pairwise_mergeSort (fun a b c hab hbc => ?_) (fun a b => ?_) (d.children l)
    · exact decide_eq_true (le_trans (of_decide_eq_true hab) (of_decide_eq_true hbc))
    · rw [Bool.or_eq_true, decide_eq_true_eq, decide_eq_true_eq]
      exact le_total a b
  have hnodup : (d.sortedNames l).Nodup :=
    (List.mergeSort_perm (d.children l) _).nodup_iff.2 (nodup_children h)
  exact hsorted.imp₂ (fun a b hab hne => lt_of_le_of_ne (of_decide_eq_true hab) hne) hnodup

/-- The walk meets the files that are not too deep. -/
theorem mem_walk_iff (htree : d.IsTree) {n : Nat} {content : Content} :
    (k, content) ∈ d.walk n l ↔ k ≠ [] ∧ k.length ≤ n ∧ d.file? (l ++ k) = some content := by
  induction n generalizing l k with
  | zero => cases k <;> simp [walk]
  | succ n ih =>
    rw [walk, List.mem_flatMap]
    constructor
    · rintro ⟨name, -, hmem⟩
      split at hmem
      · next content' hfile =>
        rw [List.mem_singleton, Prod.mk.injEq] at hmem
        rw [hmem.1, hmem.2]
        exact ⟨List.cons_ne_nil _ _, by simp, file?_eq_some_iff.2 hfile⟩
      · obtain ⟨⟨k', content'⟩, hbelow, heq⟩ := List.mem_map.1 hmem
        rw [Prod.mk.injEq] at heq
        obtain ⟨rfl, rfl⟩ := heq
        obtain ⟨-, hlength, hfile⟩ := ih.1 hbelow
        refine ⟨List.cons_ne_nil _ _, Nat.succ_le_succ hlength, ?_⟩
        rwa [List.append_cons]
      · cases hmem
    · rintro ⟨hne, hlength, hfile⟩
      obtain ⟨name, k, rfl⟩ := List.exists_cons_of_ne_nil hne
      have hexists : d.node? (l ++ name :: k) ≠ none := by
        rw [file?_eq_some_iff.1 hfile]
        exact Option.some_ne_none _
      by_cases hk : k = []
      · subst hk
        refine ⟨name, mem_sortedNames_iff.2 hexists, ?_⟩
        rw [file?_eq_some_iff.1 hfile]
        exact List.mem_singleton_self _
      · -- What lies deeper lies in a directory with this name.
        have hdir : d.node? (l ++ [name]) = some .directory :=
          htree.directory_of_prefix hexists (by simp) (by simp [Ne.symm hk])
        refine ⟨name, mem_sortedNames_iff.2 (by rw [hdir]; exact Option.some_ne_none _), ?_⟩
        rw [hdir]
        refine List.mem_map.2 ⟨(k, content), ih.2 ⟨hk, Nat.le_of_succ_le_succ hlength, ?_⟩, rfl⟩
        rwa [List.append_cons] at hfile

/-- The walk meets them in strictly ascending order: a name that comes first does so with all that
    lies below it. -/
theorem pairwise_walk (h : d.Tidy l) (n : Nat) : (d.walk n l).Pairwise fun a b => a.1 < b.1 := by
  induction n generalizing l with
  | zero => exact List.Pairwise.nil
  | succ n ih =>
    have hfirst : ∀ name, ∀ file ∈ (match d.node? (l ++ [name]) with
        | some (.file content) => [([name], content)]
        | some .directory =>
          (d.walk n (l ++ [name])).map fun (k, content) => (name :: k, content)
        | none => [] : List (Location × Content)), ∃ k, file.1 = name :: k := by
      intro name file hfile
      split at hfile
      · rw [List.mem_singleton.1 hfile]
        exact ⟨[], rfl⟩
      · obtain ⟨below, -, rfl⟩ := List.mem_map.1 hfile
        exact ⟨below.1, rfl⟩
      · cases hfile
    rw [walk, List.pairwise_flatMap]
    refine ⟨fun name _ => ?_, (pairwise_sortedNames h).imp fun hlt file hfile file' hfile' => ?_⟩
    · split
      · exact List.pairwise_singleton _ _
      · refine List.pairwise_map.2 ((ih (tidy_below h (List.prefix_append _ _))).imp ?_)
        exact fun hlt => List.cons_lt_cons_iff.2 (Or.inr ⟨rfl, hlt⟩)
      · exact List.Pairwise.nil
    · obtain ⟨k, hk⟩ := hfirst _ file hfile
      obtain ⟨k', hk'⟩ := hfirst _ file' hfile'
      rw [hk, hk']
      exact List.cons_lt_cons_iff.2 (Or.inl hlt)

/-- A walk that is deep enough gives the listing of a tree. -/
theorem walk_eq (htree : d.IsTree) (h : d.Tidy l) (hl : l ≠ [])
    (hdir : d.node? l = some .directory) : d.walk d.height l = d.filesBelow l := by
  refine eq_of_ascending (pairwise_walk h _) (pairwise_filesBelow h) fun file => ?_
  obtain ⟨k, content⟩ := file
  rw [mem_walk_iff htree, mem_filesBelow_iff h hl]
  refine ⟨fun hfile => hfile.2.2, fun hfile => ⟨?_, ?_, hfile⟩⟩
  · rintro rfl
    rw [List.append_nil, file?_eq_some_iff, hdir] at hfile
    cases hfile
  · have hlength := length_le_height (k := l ++ k) (by rw [file?_eq_some_iff.1 hfile]; simp)
    rw [List.length_append] at hlength
    omega

end DocxTemplate.Disk
