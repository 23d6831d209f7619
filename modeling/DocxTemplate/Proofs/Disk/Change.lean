import DocxTemplate.Proofs.Disk.Walk

/-! # Changes of a disk

    What each operation does to the nodes of a disk.

    * `Disk.node?_put`, `Disk.node?_prune`, `Disk.node?_clear`: the three elementary changes.
    * `Disk.file?`: the content of the file at a location. Making directories does not change it.
    * `Disk.Makes`: what making directories does: some that were missing are added.
    * `Disk.Tidy`: every location of a tree is listed once, so `filesBelow` lists each file once.
-/

namespace DocxTemplate

namespace Disk

variable {d d' : Disk} {l k : Location} {p : Path}

/-! ## Elementary changes -/

/-- The content of the file at a location. -/
def file? (d : Disk) (l : Location) : Option Content :=
  match d.node? l with
  | some (.file content) => some content
  | _ => none

theorem file?_eq_some_iff {content : Content} :
    d.file? l = some content ↔ d.node? l = some (.file content) := by
  unfold file?
  split
  · next c hc => simp [hc]
  · next hother =>
    constructor
    · intro h
      cases h
    · intro h
      exact absurd h (hother content)

theorem file?_of_node?_eq {k' : Location} (h : d'.node? k' = d.node? k) : d'.file? k' = d.file? k := by
  unfold file?
  rw [h]

@[simp] theorem node?_nil (d : Disk) : d.node? [] = some .directory := rfl

theorem node?_of_ne_nil (hl : l ≠ []) : d.node? l = d.nodes.lookup l := by
  rw [node?, if_neg (by simpa using hl)]

theorem lookup_cons_self (nodes : List (Location × Node)) (k : Location) (node : Node) :
    ((k, node) :: nodes).lookup k = some node := by
  rw [List.lookup_cons, beq_self_eq_true]

theorem lookup_cons_of_ne {j : Location} (nodes : List (Location × Node)) (node : Node)
    (h : k ≠ j) : ((j, node) :: nodes).lookup k = nodes.lookup k := by
  rw [List.lookup_cons, beq_eq_false_iff_ne.2 h]

theorem lookup_map_replace (nodes : List (Location × Node)) (l k : Location) (node : Node) :
    (nodes.map fun (j, old) => if j == l then (j, node) else (j, old)).lookup k =
      if k = l then (nodes.lookup k).map fun _ => node else nodes.lookup k := by
  induction nodes with
  | nil => split <;> rfl
  | cons entry nodes ih =>
    obtain ⟨j, old⟩ := entry
    rw [List.map_cons]
    by_cases hkj : k = j
    · subst hkj
      rw [lookup_cons_self]
      by_cases hkl : k = l
      · simp only [hkl, beq_self_eq_true, if_true, lookup_cons_self, Option.map_some]
      · simp only [beq_eq_false_iff_ne.2 hkl, Bool.false_eq_true, if_false, lookup_cons_self, hkl]
    · rw [lookup_cons_of_ne _ _ hkj, ← ih]
      dsimp only
      split
      · exact lookup_cons_of_ne _ _ hkj
      · exact lookup_cons_of_ne _ _ hkj

theorem lookup_eq_none_of_any {nodes : List (Location × Node)}
    (h : ¬ (nodes.any (·.1 == l)) = true) : nodes.lookup l = none := by
  rw [List.lookup_eq_none_iff]
  intro entry hentry
  rw [bne_iff_ne]
  rintro rfl
  exact h (List.any_eq_true.2 ⟨entry, hentry, beq_self_eq_true _⟩)

theorem isSome_lookup_of_any {nodes : List (Location × Node)}
    (h : (nodes.any (·.1 == l)) = true) : (nodes.lookup l).isSome = true := by
  obtain ⟨entry, hentry, heq⟩ := List.any_eq_true.1 h
  cases hlookup : nodes.lookup l with
  | some node => rfl
  | none =>
    rw [List.lookup_eq_none_iff] at hlookup
    have hne := hlookup entry hentry
    rw [bne_iff_ne] at hne
    exact absurd (eq_of_beq heq).symm hne

theorem node?_put (hl : l ≠ []) (d : Disk) (node : Node) (k : Location) :
    (d.put l node).node? k = if k = l then some node else d.node? k := by
  by_cases hk : k = []
  · subst hk
    simp [Ne.symm hl]
  · rw [node?_of_ne_nil hk, node?_of_ne_nil hk, put]
    by_cases hany : (d.nodes.any (·.1 == l)) = true
    · rw [if_pos hany]
      dsimp only
      rw [lookup_map_replace]
      split
      · next heq =>
        obtain ⟨old, hold⟩ := Option.isSome_iff_exists.1 (isSome_lookup_of_any hany)
        rw [heq, hold]
        rfl
      · rfl
    · rw [if_neg hany]
      dsimp only
      rw [List.lookup_append]
      by_cases hkl : k = l
      · subst hkl
        rw [lookup_eq_none_of_any hany, if_pos rfl]
        rw [Option.none_or, lookup_cons_self]
      · rw [if_neg hkl, lookup_cons_of_ne _ _ hkl, List.lookup_nil, Option.or_none]

theorem lookup_filter_key (nodes : List (Location × Node)) (keep : Location → Bool) (k : Location) :
    (nodes.filter fun (j, _) => keep j).lookup k = if keep k then nodes.lookup k else none := by
  induction nodes with
  | nil => split <;> rfl
  | cons entry nodes ih =>
    obtain ⟨j, node⟩ := entry
    rw [List.filter_cons]
    by_cases hkj : k = j
    · subst hkj
      by_cases hkeep : keep k = true
      · rw [if_pos hkeep, if_pos hkeep, lookup_cons_self, lookup_cons_self]
      · rw [if_neg hkeep, ih, if_neg hkeep, if_neg hkeep]
    · rw [lookup_cons_of_ne _ _ hkj, ← ih]
      by_cases hkeep : keep j = true
      · rw [if_pos hkeep, lookup_cons_of_ne _ _ hkj]
      · rw [if_neg hkeep]

theorem node?_prune (hl : l ≠ []) (d : Disk) (k : Location) :
    (d.prune l).node? k = if l <+: k then none else d.node? k := by
  by_cases hk : k = []
  · subst hk
    simp [hl]
  · rw [node?_of_ne_nil hk, node?_of_ne_nil hk, prune]
    dsimp only
    rw [lookup_filter_key d.nodes (fun j => !l.isPrefixOf j)]
    by_cases hbelow : l <+: k
    · rw [if_pos hbelow, if_neg]
      simp [List.isPrefixOf_iff_prefix.2 hbelow]
    · rw [if_neg hbelow, if_pos]
      rw [Bool.not_eq_true', Bool.eq_false_iff]
      exact fun h => hbelow (List.isPrefixOf_iff_prefix.1 h)

theorem node?_clear (d : Disk) (l : Location) {k : Location} (hk : k ≠ []) :
    (d.clear l).node? k = if l <+: k ∧ k ≠ l then none else d.node? k := by
  rw [node?_of_ne_nil hk, node?_of_ne_nil hk, clear]
  dsimp only
  rw [lookup_filter_key d.nodes (fun j => !l.isPrefixOf j || j == l)]
  by_cases hbelow : l <+: k ∧ k ≠ l
  · rw [if_pos hbelow, if_neg]
    simp [List.isPrefixOf_iff_prefix.2 hbelow.1, hbelow.2]
  · rw [if_neg hbelow, if_pos]
    rw [not_and_or, not_not] at hbelow
    rw [Bool.or_eq_true, Bool.not_eq_true', Bool.eq_false_iff, beq_iff_eq]
    exact hbelow.imp (fun hne h => hne (List.isPrefixOf_iff_prefix.1 h)) id

/-! ## Making directories -/

/-- Directories are made at some of the `places`, each where there was nothing. -/
inductive Makes (places : Location → Prop) (d : Disk) : Disk → Prop where
  | refl : Makes places d d
  | step {d' : Disk} {k : Location} (made : Makes places d d') (place : places k)
      (missing : d'.node? k = none) : Makes places d (d'.put k .directory)

theorem ne_nil_of_node? (h : d.node? k = none) : k ≠ [] := by
  rintro rfl
  cases h

namespace Makes

variable {places places' : Location → Prop}

theorem mono (h : Makes places d d') (hplaces : ∀ k, places k → places' k) :
    Makes places' d d' := by
  induction h with
  | refl => exact .refl
  | step made place missing ih => exact .step ih (hplaces _ place) missing

theorem trans {d₁ d₂ : Disk} (h : Makes places d d₁) (h' : Makes places d₁ d₂) :
    Makes places d d₂ := by
  induction h' with
  | refl => exact h
  | step _ place missing ih => exact .step ih place missing

theorem current_eq (h : Makes places d d') : d'.current = d.current := by
  induction h with
  | refl => rfl
  | step made place missing ih =>
    rw [← ih, put]
    split <;> rfl

/-- A node is as before, or a directory that was missing. -/
theorem node?_cases (h : Makes places d d') (k : Location) : d'.node? k = d.node? k ∨
    (d.node? k = none ∧ d'.node? k = some .directory ∧ places k) := by
  induction h with
  | refl => exact Or.inl rfl
  | @step d₁ j made place missing ih =>
    rw [node?_put (ne_nil_of_node? missing)]
    by_cases hkj : k = j
    · subst hkj
      rw [if_pos rfl]
      rcases ih with heq | ⟨hnone, -, hplace⟩
      · exact Or.inr ⟨heq ▸ missing, rfl, place⟩
      · exact Or.inr ⟨hnone, rfl, hplace⟩
    · rw [if_neg hkj]
      exact ih

theorem file?_eq (h : Makes places d d') (k : Location) : d'.file? k = d.file? k := by
  rcases h.node?_cases k with heq | ⟨hnone, hdir, -⟩
  · exact file?_of_node?_eq heq
  · rw [file?, file?, hnone, hdir]

/-- What was there stays. -/
theorem node?_of_some (h : Makes places d d') {node : Node} (hk : d.node? k = some node) :
    d'.node? k = some node := by
  rcases h.node?_cases k with heq | ⟨hnone, -, -⟩
  · rw [heq, hk]
  · rw [hk] at hnone
    cases hnone

end Makes

@[simp] theorem current_put (d : Disk) (l : Location) (node : Node) :
    (d.put l node).current = d.current := by
  rw [put]
  split <;> rfl

/-- A directory is made at the target of its path, where there was nothing. -/
theorem exists_of_createDirectory (h : d.createDirectory p = .ok d') :
    d.locate p.withoutSlashes = .ok (p.target d.current) ∧ d.node? (p.target d.current) = none ∧
      d' = d.put (p.target d.current) .directory := by
  unfold createDirectory at h
  cases hl : d.locate p.withoutSlashes with
  | error fault => simp [hl] at h
  | ok l =>
    have hlocation := eq_target_of_locate hl
    rw [Path.target_withoutSlashes] at hlocation
    rw [hl] at h
    dsimp only at h
    cases hnode : d.node? l with
    | some node => simp [hnode] at h
    | none =>
      rw [hnode, Except.ok.injEq] at h
      rw [← hlocation]
      exact ⟨rfl, hnode, h.symm⟩

/-- Directories are made only at the targets of the paths that are tried. -/
theorem makes_createAll (d : Disk) (ps : List Path) :
    Makes (fun k => ∃ p ∈ ps, k = p.target d.current) d (d.createAll ps).1 := by
  induction ps generalizing d with
  | nil => exact .refl
  | cons p parents ih =>
    have hfirst : ∀ {d₁ d₂ : Disk}, Makes (fun k => ∃ q ∈ p :: parents, k = q.target d.current) d d₁ →
        d₁.createDirectory p = .ok d₂ →
        Makes (fun k => ∃ q ∈ p :: parents, k = q.target d.current) d d₂ := by
      intro d₁ d₂ hmakes hmade
      obtain ⟨-, hnone, rfl⟩ := exists_of_createDirectory hmade
      exact .step hmakes ⟨p, List.mem_cons_self, by rw [hmakes.current_eq]⟩ hnone
    have hparents : Makes (fun k => ∃ q ∈ p :: parents, k = q.target d.current) d
        (d.createAll parents).1 :=
      (ih d).mono fun k ⟨q, hq, hk⟩ => ⟨q, List.mem_cons_of_mem _ hq, hk⟩
    rw [createAll]
    split
    · exact .refl
    · dsimp only
      split
      · next d₁ hmade => exact hfirst .refl hmade
      · cases hall : d.createAll parents with
        | mk d₁ result =>
          rw [hall] at hparents
          cases result with
          | error fault => exact hparents
          | ok _ =>
            dsimp only
            split
            · next d₂ hmade => exact hfirst hparents hmade
            · exact hparents
      · exact .refl

/-- Making a directory with its parents makes directories on the way there only. -/
theorem makes_createDirectories (d : Disk) (p : Path) :
    Makes (p.Visits d.current) d (d.createDirectories p).1 := by
  by_cases hempty : p.text = ""
  · have hnothing : (d.createDirectories p).1 = d := by
      rw [createDirectories, Path.ancestors, Path.ancestorsUpTo, createAll]
      simp [hempty]
    rw [hnothing]
    exact .refl
  · refine (makes_createAll d p.ancestors).mono fun k hmakes => ⟨hempty, ?_⟩
    obtain ⟨a, ha, hk⟩ := hmakes
    rw [hk]
    exact Path.mem_way_of_mem_ancestors ha d.current

/-- A path that can be located, slashes at its end aside, and whose target is a directory, has
    directories everywhere on its way. -/
theorem directory_of_visits (h : d.locate p.withoutSlashes = .ok l)
    (hdir : d.node? (p.target d.current) = some .directory) (hk : p.Visits d.current k) :
    d.node? k = some .directory := by
  rcases hk.2 with rfl | hway
  · exact hdir
  · rcases Path.way_withoutSlashes hway with hway | rfl
    · exact node?_of_mem_way h hway
    · exact hdir

theorem directory_of_createDirectory (h : d.createDirectory p = .ok d')
    (hk : p.Visits d.current k) : d'.node? k = some .directory := by
  obtain ⟨hlocate, hnone, rfl⟩ := exists_of_createDirectory h
  have hput := node?_put (ne_nil_of_node? hnone) d .directory
  have hlocate' : (d.put (p.target d.current) .directory).locate p.withoutSlashes =
      .ok (p.target d.current) := by
    refine locate_of_locate hlocate (current_put _ _ _) fun j hj => ?_
    rw [hput]
    split
    · rfl
    · exact node?_of_mem_way hlocate hj
  refine directory_of_visits hlocate' ?_ ?_
  · rw [current_put, hput, if_pos rfl]
  · rwa [current_put]

theorem directory_of_isDirectory (h : d.isDirectory p = true) (hk : p.Visits d.current k) :
    d.node? k = some .directory := by
  unfold isDirectory at h
  split at h
  · next l hfind =>
    obtain ⟨hlocate, hnode⟩ := find_eq_ok_iff.1 hfind
    rcases hk.2 with rfl | hway
    · rw [← eq_target_of_locate hlocate, hnode]
    · exact node?_of_mem_way hlocate hway
  · cases h

/-- If making a directory with its parents succeeds, the whole way there exists. -/
theorem directory_of_createAll {parents : List Path} (h : (d.createAll (p :: parents)).2 = .ok ())
    (hk : p.Visits d.current k) :
    (d.createAll (p :: parents)).1.node? k = some .directory := by
  rw [createAll, if_neg (by simpa using hk.1)] at h ⊢
  dsimp only at h ⊢
  -- A fault is forgiven only if the path leads to a directory.
  have hsettle : ∀ (d₁ : Disk) (fault : SystemFault), d₁.current = d.current →
      (if d₁.isDirectory p = true then .ok () else .error fault : Except SystemFault Unit) =
        .ok () → d₁.node? k = some .directory := by
    intro d₁ fault hcurrent hok
    by_cases hdir : d₁.isDirectory p = true
    · exact directory_of_isDirectory hdir (by rwa [hcurrent])
    · rw [if_neg hdir] at hok
      cases hok
  cases hmade : d.createDirectory p with
  | ok d₁ =>
    rw [hmade] at h
    exact directory_of_createDirectory hmade hk
  | error fault =>
    have hparents := (makes_createAll d parents).current_eq
    rw [hmade] at h
    cases fault with
    | notFound =>
      dsimp only at h ⊢
      cases hall : d.createAll parents with
      | mk d₁ result =>
        rw [hall] at h hparents
        cases result with
        | error fault => cases h
        | ok u =>
          dsimp only at h hparents ⊢
          cases hagain : d₁.createDirectory p with
          | ok d₂ => exact directory_of_createDirectory hagain (by rwa [hparents])
          | error fault =>
            rw [hagain] at h
            exact hsettle d₁ fault hparents h
    | alreadyExists => exact hsettle d _ rfl h
    | notDirectory => exact hsettle d _ rfl h
    | isDirectory => exact hsettle d _ rfl h
    | invalidArgument => exact hsettle d _ rfl h
    | nameTooLong => exact hsettle d _ rfl h
    | nulByte => exact hsettle d _ rfl h

theorem directory_of_createDirectories (h : (d.createDirectories p).2 = .ok ())
    (hk : p.Visits d.current k) : (d.createDirectories p).1.node? k = some .directory := by
  rw [createDirectories, Path.ancestors, Path.ancestorsUpTo] at h ⊢
  exact directory_of_createAll h hk

/-! ## Files -/

/-- A file is written to the target of its path, which is no directory. -/
theorem exists_of_write {content : Content} (h : d.write p content = .ok d') :
    d.locate p = .ok (p.target d.current) ∧ d.node? (p.target d.current) ≠ some .directory ∧
      d' = d.put (p.target d.current) (.file content) := by
  unfold write at h
  by_cases hslash : p.endsInSlash = true
  · rw [if_pos hslash] at h
    cases hl : d.locate p.withoutSlashes with
    | error fault => simp [hl] at h
    | ok l => simp [hl, hslash] at h
  · rw [if_neg hslash] at h
    cases hl : d.locate p with
    | error fault => simp [hl] at h
    | ok l =>
      rw [hl] at h
      dsimp only at h
      rw [if_neg hslash] at h
      rw [← eq_target_of_locate hl]
      split at h
      · cases h
      · next hnode =>
        rw [Except.ok.injEq] at h
        exact ⟨rfl, hnode, h.symm⟩

theorem file?_put (hl : l ≠ []) (d : Disk) (content : Content) (k : Location) :
    (d.put l (.file content)).file? k = if k = l then some content else d.file? k := by
  rw [file?, node?_put hl, file?]
  by_cases hkl : k = l
  · rw [if_pos hkl, if_pos hkl]
  · rw [if_neg hkl, if_neg hkl]

/-- A file lies where it is a directory that is refused, so not at the root. -/
theorem ne_nil_of_not_directory (h : d.node? k ≠ some .directory) : k ≠ [] := by
  rintro rfl
  exact h rfl

/-- Writing a file changes this file only. -/
theorem file?_of_write {content : Content} (h : d.write p content = .ok d') (k : Location) :
    d'.file? k = if k = p.target d.current then some content else d.file? k := by
  obtain ⟨-, hnode, rfl⟩ := exists_of_write h
  exact file?_put (ne_nil_of_not_directory hnode) d content k

theorem current_of_write {content : Content} (h : d.write p content = .ok d') :
    d'.current = d.current := by
  obtain ⟨-, -, rfl⟩ := exists_of_write h
  exact current_put _ _ _

/-- Directories are as before. -/
theorem directory_of_write {content : Content} (h : d.write p content = .ok d') (k : Location) :
    d'.node? k = some .directory ↔ d.node? k = some .directory := by
  obtain ⟨-, hnode, rfl⟩ := exists_of_write h
  rw [node?_put (ne_nil_of_not_directory hnode)]
  by_cases hk : k = p.target d.current
  · rw [if_pos hk, hk]
    exact ⟨fun hfile => by simp at hfile, fun hdir => absurd hdir hnode⟩
  · rw [if_neg hk]

/-- The content of a file is that of the file at the target of its path. -/
theorem content_eq_ok_iff {content : Content} : d.content p = .ok content ↔
    d.locate p = .ok (p.target d.current) ∧ d.file? (p.target d.current) = some content := by
  unfold Disk.content
  cases hfind : d.find p with
  | error fault =>
    have hnot : ¬ (d.locate p = .ok (p.target d.current) ∧
        d.file? (p.target d.current) = some content) := by
      rintro ⟨hlocate, hfile⟩
      have := find_eq_ok_iff.2 ⟨hlocate, file?_eq_some_iff.1 hfile⟩
      rw [hfind] at this
      cases this
    simp [hnot]
  | ok found =>
    obtain ⟨l, node⟩ := found
    obtain ⟨hlocate, hnode⟩ := find_eq_ok_iff.1 hfind
    rw [← eq_target_of_locate hlocate, file?_eq_some_iff, hnode]
    cases node with
    | directory => simp
    | file c => simp [hlocate]

/-- A path leads to a file if it leads to its content. -/
theorem isFile_iff : d.isFile p = true ↔ ∃ content, d.content p = .ok content := by
  unfold isFile content
  cases d.find p with
  | error fault => simp
  | ok found =>
    obtain ⟨l, node⟩ := found
    cases node <;> simp

/-- Every directory is still there. -/
def KeepsDirectories (d d' : Disk) : Prop :=
  ∀ k, d.node? k = some .directory → d'.node? k = some .directory

/-- A text can still be read if its file is as before and no directory is gone. -/
theorem readText_of_keepsDirectories {text : Bytes} (h : d.readText p = .ok text)
    (hcurrent : d'.current = d.current) (hdirs : KeepsDirectories d d')
    (hfile : d'.file? (p.target d.current) = d.file? (p.target d.current)) :
    d'.readText p = .ok text := by
  rw [readText, read] at h ⊢
  cases hcontent : d.content p with
  | error fault =>
    rw [hcontent] at h
    cases h
  | ok content =>
    obtain ⟨hlocate, hsome⟩ := content_eq_ok_iff.1 hcontent
    have hcontent' : d'.content p = .ok content := by
      refine content_eq_ok_iff.2 ⟨?_, by rw [hcurrent, hfile, hsome]⟩
      rw [hcurrent]
      exact locate_of_locate hlocate hcurrent fun j hj => hdirs j (node?_of_mem_way hlocate hj)
    rw [hcontent] at h
    rw [hcontent']
    exact h

theorem eq_ok_of_mapError {ε ε' α : Type} {f : ε → ε'} {x : Except ε α} {a : α}
    (h : x.mapError f = .ok a) : x = .ok a := by
  cases x with
  | error e => simp [Except.mapError] at h
  | ok b =>
    rw [Except.mapError, Except.ok.injEq] at h
    rw [h]

/-- Copying a file is writing it, or an empty one over the file itself. -/
theorem exists_of_copy {source target : Path} (h : d.copy source target = .ok d') :
    ∃ l content isItself, d.find source = .ok (l, .file content) ∧
      (isItself = true → d.locate target = .ok l) ∧
        d.write target (if isItself then .plain [] else content) = .ok d' := by
  unfold copy at h
  cases hfind : d.find source with
  | error fault => simp [hfind] at h
  | ok found =>
    obtain ⟨l, node⟩ := found
    rw [hfind] at h
    cases node with
    | directory => simp at h
    | file content =>
      refine ⟨l, content, _, rfl, fun hself => ?_, eq_ok_of_mapError h⟩
      cases hlocate : d.locate target with
      | error fault => simp [hlocate] at hself
      | ok m =>
        simp only [hlocate, beq_iff_eq] at hself
        rw [hself]

/-- A file that is copied to another place is there afterwards as it is here. -/
theorem write_of_copy {source target : Path} (h : d.copy source target = .ok d')
    (hother : target.target d.current ≠ source.target d.current) :
    ∃ content, d.content source = .ok content ∧ d.write target content = .ok d' := by
  obtain ⟨l, content, isItself, hfind, hself, hwrite⟩ := exists_of_copy h
  have hl := eq_target_of_locate (find_eq_ok_iff.1 hfind).1
  have hfalse : isItself = false := by
    rw [Bool.eq_false_iff]
    intro htrue
    have htarget := eq_target_of_locate (hself htrue)
    exact hother (htarget.symm.trans hl)
  rw [hfalse] at hwrite
  exact ⟨content, by rw [Disk.content, hfind], hwrite⟩

/-- Copying a file is writing one, whatever it then holds. -/
theorem exists_write_of_copy {source target : Path} (h : d.copy source target = .ok d') :
    ∃ content, d.write target content = .ok d' := by
  obtain ⟨-, _, _, -, -, hwrite⟩ := exists_of_copy h
  exact ⟨_, hwrite⟩

end Disk

end DocxTemplate
