import DocxTemplate.Proofs.Disk.Tree

/-! # Making what is missing

    A directory can be made with its parents if no file is in the way. Then files can be written to
    it.

    * `Path.EndsInStep`: paths that do not end in `.`.
    * `Path.exists_parent?`: the parent of such a path passes everything that the path passes.
    * `Path.Passable`: what a path has to be like to be made a directory.
    * `Path.Passable.createDirectories_eq_ok`, `Path.Passable.parent_eq_ok`: it is made, and its
      parent is.
    * `Disk.write_eq_ok`: when a file is written.
-/

namespace DocxTemplate

namespace Path

variable {p q : Path} {c : Location}

/-! ## Steps that say nothing -/

theorem move_of_isVoid {step : String} (h : isVoid step = true) (l : Location) :
    Disk.move l step = l := by
  rw [Disk.move, if_pos h]

/-- Steps that say nothing stay where they are. -/
theorem walk_of_isVoid {steps : List String} (h : ∀ step ∈ steps, isVoid step = true)
    (l : Location) : Disk.reach l steps = l ∧ ∀ j ∈ Disk.passed l steps, j = l := by
  induction steps with
  | nil => exact ⟨rfl, fun j hj => absurd hj List.not_mem_nil⟩
  | cons step steps ih =>
    have hmove := move_of_isVoid (h step List.mem_cons_self) l
    obtain ⟨hreach, hpassed⟩ := ih fun s hs => h s (List.mem_cons_of_mem _ hs)
    rw [Disk.reach_cons, Disk.passed, hmove]
    refine ⟨hreach, fun j hj => ?_⟩
    rcases List.mem_cons.1 hj with rfl | hj
    · rfl
    · exact hpassed j hj

theorem trimVoid_append {steps voids : List String} (h : ∀ step ∈ voids, isVoid step = true) :
    trimVoid (steps ++ voids) = trimVoid steps := by
  rw [trimVoid, List.reverse_append, List.dropWhile_append_of_pos fun step hstep =>
    h step (List.mem_reverse.1 hstep), trimVoid]

/-- Steps are those that are left without the last ones that say nothing, and these. -/
theorem exists_trimVoid_append (steps : List String) :
    ∃ voids, steps = trimVoid steps ++ voids ∧ ∀ step ∈ voids, isVoid step = true := by
  refine ⟨(steps.reverse.takeWhile isVoid).reverse, ?_, fun step hstep => ?_⟩
  · rw [trimVoid, ← List.reverse_append, List.takeWhile_append_dropWhile, List.reverse_reverse]
  · exact List.all_eq_true.1 List.all_takeWhile step (List.mem_reverse.1 hstep)

/-- The last step that is left says something. -/
theorem trimVoid_cases (steps : List String) : trimVoid steps = [] ∨
    ∃ front last, trimVoid steps = front ++ [last] ∧ isVoid last = false := by
  cases hrest : steps.reverse.dropWhile isVoid with
  | nil => exact Or.inl (by rw [trimVoid, hrest, List.reverse_nil])
  | cons last rest =>
    refine Or.inr ⟨rest.reverse, last, by rw [trimVoid, hrest, List.reverse_cons], ?_⟩
    have hhead := List.head?_dropWhile_not isVoid steps.reverse
    rw [hrest, List.head?_cons] at hhead
    simpa using hhead

/-! ## Texts -/

theorem exists_of_isAbsolute (h : p.isAbsolute = true) :
    ∃ t, p.text = "/" ++ t ∧ p.steps = Split.on '/' t := by
  obtain ⟨rest, hrest⟩ := List.head?_eq_some_iff.1 (beq_iff_eq.1 h)
  have hsegments : p.segments = [""] ++ Split.on '/' (String.ofList rest) :=
    Split.on_append (s := "") (by simp [hrest])
  refine ⟨String.ofList rest, ?_, by rw [steps_of_isAbsolute h, hsegments]; rfl⟩
  apply String.ext
  rw [hrest, String.toList_append]
  simp

/-- Every path has a step, if only one that says nothing. -/
theorem steps_ne_nil (p : Path) : p.steps ≠ [] := by
  by_cases habs : p.isAbsolute = true
  · obtain ⟨t, -, hsteps⟩ := exists_of_isAbsolute habs
    rw [hsteps]
    exact Split.on_ne_nil '/' t
  · rw [steps_of_not_isAbsolute (by simpa using habs)]
    exact Split.on_ne_nil '/' p.text

/-- A path is written as its steps, behind a slash if it starts at the root. -/
theorem text_eq (p : Path) :
    p.text = (if p.isAbsolute then "/" else "") ++ "/".intercalate p.steps := by
  by_cases habs : p.isAbsolute = true
  · obtain ⟨t, htext, hsteps⟩ := exists_of_isAbsolute habs
    rw [if_pos habs, hsteps, Split.intercalate_on, htext]
  · rw [if_neg habs, steps_of_not_isAbsolute (by simpa using habs), String.empty_append]
    exact (Split.intercalate_on p.text).symm

instance (p : Path) : Decidable p.Fits :=
  decidable_of_iff ('\x00' ∉ p.text.toList ∧ p.text ≠ "" ∧
      p.text.utf8ByteSize ≤ Disk.longestPath ∧
      ∀ step ∈ p.steps, step.utf8ByteSize ≤ Disk.longestName)
    ⟨fun ⟨h₁, h₂, h₃, h₄⟩ => ⟨h₁, h₂, h₃, h₄⟩, fun h => ⟨h.1, h.2, h.3, h.4⟩⟩

theorem fits_of_prefix (h : p.Fits) (hnonempty : q.text ≠ "")
    (htext : q.text.toList <+: p.text.toList)
    (hsteps : ∀ step ∈ q.steps, step = "" ∨ step ∈ p.steps) : q.Fits := by
  refine ⟨fun hnul => h.noNul (htext.subset hnul), hnonempty, ?_, fun step hstep => ?_⟩
  · obtain ⟨rest, hrest⟩ := htext
    have hp : p.text = q.text ++ String.ofList rest := by
      apply String.ext
      rw [String.toList_append, String.toList_ofList, hrest]
    have hshort := h.short
    rw [hp, String.utf8ByteSize_append] at hshort
    omega
  · rcases hsteps step hstep with rfl | hmem
    · decide
    · exact h.shortNames step hmem

theorem TakesFront.fits {parts more : List String} (h : TakesFront q p parts more) (hp : p.Fits)
    (hnonempty : q.text ≠ "") : q.Fits := by
  have hsteps := h.steps_front
  have hq := text_eq q
  rw [h.isAbsolute_eq] at hq
  rcases on_intercalate_cases h.plain with heq | ⟨rfl, heq⟩
  · rw [heq] at hsteps
    refine fits_of_prefix hp hnonempty ?_ fun step hstep => Or.inr ?_
    · rw [hq, text_eq p, hsteps, h.steps_eq, String.toList_append, String.toList_append]
      refine (List.prefix_append_right_inj _).2 ?_
      by_cases hparts : parts = []
      · rw [hparts]
        exact List.nil_prefix
      · rw [String.intercalate_append_of_ne_nil hparts h.more_ne_nil, String.append_assoc,
          String.toList_append]
        exact List.prefix_append _ _
    · rw [hsteps] at hstep
      rw [h.steps_eq]
      exact List.mem_append_left _ hstep
  · rw [heq] at hsteps
    refine fits_of_prefix hp hnonempty ?_ fun step hstep => Or.inl ?_
    · rw [hq, text_eq p, hsteps, String.toList_append, String.toList_append]
      exact (List.prefix_append_right_inj _).2 List.nil_prefix
    · rw [hsteps] at hstep
      exact List.mem_singleton.1 hstep

theorem fits_withoutSlashes (h : p.Fits) : p.withoutSlashes.Fits := by
  obtain ⟨n, hsteps, -⟩ := exists_steps_withoutSlashes p
  have hmem : ∀ step ∈ p.withoutSlashes.steps, step = "" ∨ step ∈ p.steps := fun step hstep => by
    rw [hsteps]
    exact Or.inr (List.mem_append_left _ hstep)
  have htext : p.withoutSlashes.text ≠ "" ∧
      p.withoutSlashes.text.toList <+: p.text.toList := by
    have hsuffix := List.dropWhile_suffix (· == '/') (l := p.text.toList.reverse)
    rw [withoutSlashes]
    cases hdrop : p.text.toList.reverse.dropWhile (· == '/') with
    | nil => exact ⟨h.nonempty, List.prefix_rfl⟩
    | cons b rest =>
      rw [hdrop] at hsuffix
      refine ⟨fun hempty => ?_, ?_⟩
      · rw [← String.toList_eq_nil_iff, String.toList_ofList, List.reverse_eq_nil_iff] at hempty
        cases hempty
      · rw [String.toList_ofList]
        simpa using List.reverse_prefix.2 hsuffix
  exact fits_of_prefix h htext.1 htext.2 hmem

/-! ## Parents -/

/-- What a path passes without the slashes at its end it passes with them. -/
theorem mem_way_of_withoutSlashes {j : Location} (h : j ∈ p.withoutSlashes.way c) : j ∈ p.way c := by
  obtain ⟨n, hsteps, habs⟩ := exists_steps_withoutSlashes p
  rw [way, hsteps, Disk.passed_append, List.mem_append]
  rw [way, start, habs] at h
  exact Or.inl h

/-- The last step of a path, whatever slashes follow it, is a name or leads up. -/
def EndsInStep (p : Path) : Prop := ∃ last ∈ p.withoutSlashes.steps.getLast?, isVoid last = false

instance (p : Path) : Decidable p.EndsInStep :=
  inferInstanceAs (Decidable (∃ last ∈ p.withoutSlashes.steps.getLast?, isVoid last = false))

theorem EndsInStep.exists_mem (h : p.EndsInStep) : ∃ step ∈ p.steps, isVoid step = false := by
  obtain ⟨last, hlast, hstep⟩ := h
  obtain ⟨n, hsteps, -⟩ := exists_steps_withoutSlashes p
  refine ⟨last, ?_, hstep⟩
  rw [hsteps]
  exact List.mem_append_left _ (List.mem_of_getLast? hlast)

theorem EndsInStep.lastSegment?_ne (h : p.EndsInStep) : p.lastSegment? ≠ some "." := by
  obtain ⟨last, hlast, hstep⟩ := h
  intro hdot
  rw [lastSegment?] at hdot
  rw [steps] at hlast
  have heq : some "." = some last := by
    split at hlast
    · rw [Option.mem_def, List.getLast?_drop] at hlast
      split at hlast
      · cases hlast
      · exact hdot.symm.trans hlast
    · exact hdot.symm.trans hlast
  rw [Option.some.injEq] at heq
  rw [← heq] at hstep
  cases hstep

/-- The dot at the start is a step of a path, but it is not part of its body. -/
def hereSteps (p : Path) : List String := if p.startsHere then ["."] else []

theorem hereSteps_of_isAbsolute (h : p.isAbsolute = true) : p.hereSteps = [] := by
  rw [hereSteps, if_neg]
  intro hhere
  rw [isAbsolute_of_startsHere hhere] at h
  cases h

/-- The body of a path that ends in a step has this step at its end. -/
theorem EndsInStep.exists_body (h : p.EndsInStep) : ∃ front last n, isVoid last = false ∧
    p.body = front ++ [last] ++ List.replicate n "" ∧
    p.withoutSlashes.steps = p.hereSteps ++ front ++ [last] ∧
    p.steps = p.hereSteps ++ front ++ [last] ++ List.replicate n "" := by
  obtain ⟨last, hlast, hstep⟩ := h
  obtain ⟨front, hfront⟩ := List.getLast?_eq_some_iff.1 hlast
  obtain ⟨n, hsteps, -⟩ := exists_steps_withoutSlashes p
  rw [hfront] at hsteps
  by_cases hhere : p.startsHere = true
  · have hsegments := steps_of_not_isAbsolute (isAbsolute_of_startsHere hhere)
    obtain ⟨others, hothers⟩ := List.head?_eq_some_iff.1 (beq_iff_eq.1 hhere)
    rw [hsteps] at hsegments
    obtain ⟨front, rfl⟩ : ∃ front', front = "." :: front' := by
      cases front with
      | nil =>
        rw [hothers, List.nil_append, List.singleton_append, List.cons.injEq] at hsegments
        rw [hsegments.1] at hstep
        cases hstep
      | cons first front =>
        rw [hothers] at hsegments
        exact ⟨front, by rw [(List.cons.inj hsegments).1]⟩
    rw [hereSteps, if_pos hhere]
    refine ⟨front, last, n, hstep, ?_, hfront, hsteps⟩
    rw [body, hhere, Bool.or_true, if_pos rfl, ← hsegments]
    rfl
  · rw [hereSteps, if_neg hhere]
    refine ⟨front, last, n, hstep, ?_, hfront, hsteps⟩
    rw [← hsteps, body, steps]
    simp [hhere]

/-- The parent of a path is read off the steps before the last one. -/
theorem parent?_of_body {front : List String} {last : String} {n : Nat} (hlast : isVoid last = false)
    (hbody : p.body = front ++ [last] ++ List.replicate n "") : p.parent? = some (
      if p.isAbsolute then ⟨"/" ++ "/".intercalate (p.hereSteps ++ trimVoid front)⟩
      else ⟨"/".intercalate (p.hereSteps ++ trimVoid front)⟩) := by
  have hvoids : ∀ step ∈ List.replicate n "", isVoid step = true := fun step hmem => by
    rw [List.eq_of_mem_replicate hmem]
    rfl
  rw [parent?, hbody, trimVoid_append hvoids, trimVoid_concat hlast]
  split
  · next hnil => simp at hnil
  · dsimp only
    rw [List.dropLast_concat]
    by_cases habs : p.isAbsolute = true
    · rw [if_pos habs, if_pos habs, hereSteps_of_isAbsolute habs, List.nil_append]
    · rw [if_neg habs, if_neg habs, hereSteps]
      split <;> rfl

/-- A path goes on from its parent by one step that says something. The parent does not go
    anywhere, or it ends in a step as well. -/
structure StepsFrom (q p : Path) (parts voids : List String) (last : String) : Prop where
  steps_eq : p.withoutSlashes.steps = parts ++ voids ++ [last]
  isVoid_of_mem : ∀ step ∈ voids, isVoid step = true
  ends : (∀ step ∈ parts, isVoid step = true) ∨
    ∃ front a, parts = front ++ [a] ∧ isVoid a = false

/-- What is left of some steps says nothing, or its last step says something. -/
theorem hereSteps_append_cases (p : Path) (front : List String) :
    (∀ step ∈ p.hereSteps ++ trimVoid front, isVoid step = true) ∨
      ∃ before a, p.hereSteps ++ trimVoid front = before ++ [a] ∧ isVoid a = false := by
  rcases trimVoid_cases front with hnil | ⟨before, a, hconcat, ha⟩
  · refine Or.inl fun step hstep => ?_
    rw [hnil, List.append_nil, hereSteps] at hstep
    split at hstep
    · rw [List.mem_singleton.1 hstep]
      rfl
    · cases hstep
  · exact Or.inr ⟨p.hereSteps ++ before, a, by rw [hconcat, List.append_assoc], ha⟩

theorem exists_parent? (h : p.EndsInStep) : ∃ q parts voids last n, p.parent? = some q ∧
    TakesFront q p parts (voids ++ last :: List.replicate n "") ∧
      StepsFrom q p parts voids last := by
  obtain ⟨front, last, n, hlast, hbody, hwithout, hsteps⟩ := h.exists_body
  obtain ⟨voids, hfront, hvoids⟩ := exists_trimVoid_append front
  have hparent := parent?_of_body hlast hbody
  have hmore : voids ++ last :: List.replicate n "" ≠ [] := by simp
  have hparts : p.steps =
      p.hereSteps ++ trimVoid front ++ (voids ++ last :: List.replicate n "") := by
    rw [hsteps]
    conv_lhs => rw [hfront]
    simp
  have hfrom : ∀ q, StepsFrom q p (p.hereSteps ++ trimVoid front) voids last := fun q => by
    refine ⟨?_, hvoids, hereSteps_append_cases p front⟩
    rw [hwithout]
    conv_lhs => rw [hfront]
    simp
  by_cases habs : p.isAbsolute = true
  · rw [if_pos habs] at hparent
    exact ⟨_, _, voids, last, n, hparent, takesFront_absolute habs hparts hmore, hfrom _⟩
  · rw [if_neg habs] at hparent
    rw [Bool.not_eq_true] at habs
    rw [steps_of_not_isAbsolute habs] at hparts
    exact ⟨_, _, voids, last, n, hparent, takesFront_relative habs hparts hmore, hfrom _⟩

/-- A path leads through its parent to a place in it. -/
theorem way_of_parent? (h : p.EndsInStep) (hq : p.parent? = some q) (c : Location) :
    ∀ j ∈ p.withoutSlashes.way c, j ∈ q.way c ∨ j = q.target c := by
  obtain ⟨q', parts, voids, last, n, hparent, hfront, hsteps⟩ := exists_parent? h
  rw [hq, Option.some.injEq] at hparent
  subst hparent
  obtain ⟨-, -, habs⟩ := exists_steps_withoutSlashes p
  have hstart : p.withoutSlashes.start c = q.start c := by
    rw [start, start, habs, hfront.isAbsolute_eq]
  obtain ⟨hreach, hpassed⟩ := walk_of_isVoid hsteps.isVoid_of_mem (Disk.reach (q.start c) parts)
  have htarget : q.target c = Disk.reach (q.start c) parts := by
    rw [target, hfront.steps_front]
    rcases on_intercalate_cases hfront.plain with heq | ⟨rfl, heq⟩
    · rw [heq]
    · rw [heq]
      rfl
  have hway : ∀ j ∈ Disk.passed (q.start c) parts, j ∈ q.way c := by
    intro j hj
    rw [way, hfront.steps_front]
    rcases on_intercalate_cases hfront.plain with heq | ⟨rfl, -⟩
    · rwa [heq]
    · cases hj
  intro j hj
  rw [way, hsteps.steps_eq, hstart, Disk.passed_append, Disk.passed_append, Disk.reach_append,
    hreach] at hj
  rw [htarget]
  rcases List.mem_append.1 hj with hj | hj
  · rcases List.mem_append.1 hj with hj | hj
    · exact Or.inl (hway j hj)
    · exact Or.inr (hpassed j hj)
  · exact Or.inr (List.mem_singleton.1 hj)

/-- The parent of a path goes nowhere, or it ends in a step as well. -/
theorem parent?_cases (h : p.EndsInStep) (hq : p.parent? = some q) :
    (∀ step ∈ q.steps, isVoid step = true) ∨ q.EndsInStep := by
  obtain ⟨q', parts, voids, last, n, hparent, hfront, hsteps⟩ := exists_parent? h
  rw [hq, Option.some.injEq] at hparent
  subst hparent
  rcases hsteps.ends with hvoid | ⟨front, a, rfl, ha⟩
  · refine Or.inl ?_
    rw [hfront.steps_front]
    rcases on_intercalate_cases hfront.plain with heq | ⟨-, heq⟩
    · rwa [heq]
    · rw [heq]
      simp [isVoid]
  · -- No slashes are left behind the last step.
    have hq := hfront.steps_front
    rw [Split.on_intercalate (by simp) hfront.plain] at hq
    obtain ⟨n, hslashes, -⟩ := exists_steps_withoutSlashes q
    have hn : n = 0 := by
      cases n with
      | zero => rfl
      | succ n =>
        rw [hq, List.replicate_succ', ← List.append_assoc] at hslashes
        have hlast := List.append_inj_right' hslashes rfl
        rw [List.cons.injEq] at hlast
        rw [hlast.1] at ha
        cases ha
    rw [hn, List.replicate_zero, List.append_nil, hq] at hslashes
    exact Or.inr ⟨a, by simp [← hslashes], ha⟩

end Path

namespace Disk

variable {d d' : Disk} {l k : Location} {p q : Path}

/-! ## Where no file is in the way -/

theorem node?_of_file?_eq_none (h : d.file? k = none) :
    d.node? k = none ∨ d.node? k = some .directory := by
  cases hnode : d.node? k with
  | none => exact Or.inl rfl
  | some node =>
    cases node with
    | directory => exact Or.inr rfl
    | file content =>
      rw [file?_eq_some_iff.2 hnode] at h
      cases h

/-- Where no file is in the way, a walk gets to its end, or something is missing. -/
theorem follow_cases {steps : List String} (hfree : ∀ j ∈ passed l steps, d.file? j = none)
    (hshort : ∀ step ∈ steps, step.utf8ByteSize ≤ longestName) :
    (∃ k, d.follow l steps = .ok k) ∨ d.follow l steps = .error .notFound := by
  induction steps generalizing l with
  | nil => exact Or.inl ⟨l, rfl⟩
  | cons step rest ih =>
    rw [follow]
    rcases node?_of_file?_eq_none (hfree l List.mem_cons_self) with hnone | hdir
    · rw [hnone]
      exact Or.inr rfl
    · rw [hdir]
      dsimp only
      rw [if_neg (Nat.not_lt.2 (hshort step List.mem_cons_self))]
      exact ih (fun j hj => hfree j (List.mem_cons_of_mem _ hj))
        fun s hs => hshort s (List.mem_cons_of_mem _ hs)

theorem locate_cases (hfits : p.Fits) (hfree : ∀ j ∈ p.way d.current, d.file? j = none) :
    d.locate p = .ok (p.target d.current) ∨ d.locate p = .error .notFound := by
  have hlocate : d.locate p = d.follow (p.start d.current) p.steps := by
    rw [locate_eq, if_neg (by simpa using hfits.noNul), if_neg (by simpa using hfits.nonempty),
      if_neg (Nat.not_lt.2 hfits.short)]
  rcases follow_cases hfree hfits.shortNames with ⟨k, hfollow⟩ | hmissing
  · have hk : d.locate p = .ok k := hlocate.trans hfollow
    rw [hk, eq_target_of_locate hk]
    exact Or.inl rfl
  · exact Or.inr (hlocate.trans hmissing)

/-- Where the way is there, a directory is made or is there already. -/
theorem createDirectory_cases (hfits : p.Fits)
    (hway : ∀ j ∈ p.withoutSlashes.way d.current, d.node? j = some .directory)
    (hfree : d.file? (p.target d.current) = none) : (∃ d', d.createDirectory p = .ok d') ∨
      (d.createDirectory p = .error .alreadyExists ∧ d.isDirectory p = true) := by
  have hlocate : d.locate p.withoutSlashes = .ok (p.target d.current) :=
    locate_eq_ok_iff.2 ⟨Path.fits_withoutSlashes hfits, hway,
      (Path.target_withoutSlashes p d.current).symm⟩
  rw [createDirectory, hlocate]
  dsimp only
  rcases node?_of_file?_eq_none hfree with hnone | hdir
  · rw [hnone]
    exact Or.inl ⟨_, rfl⟩
  · rw [hdir]
    refine Or.inr ⟨rfl, isDirectory_iff.2 ⟨hfits, fun j hj => ?_, hdir⟩⟩
    rcases Path.way_withoutSlashes hj with hj | rfl
    · exact hway j hj
    · exact hdir

theorem createAll_of_way {parents : List Path} (hfits : p.Fits)
    (hway : ∀ j ∈ p.withoutSlashes.way d.current, d.node? j = some .directory)
    (hfree : d.file? (p.target d.current) = none) : (d.createAll (p :: parents)).2 = .ok () := by
  rw [createAll, if_neg (by simpa using hfits.nonempty)]
  dsimp only
  rcases createDirectory_cases hfits hway hfree with ⟨d', hmade⟩ | ⟨hthere, hdir⟩
  · rw [hmade]
  · rw [hthere]
    dsimp only
    rw [if_pos hdir]

/-- It is enough that the way is there once the parents have been made. -/
theorem createAll_of_parents {parents : List Path} (hfits : p.Fits)
    (hfree : ∀ j, j = p.target d.current ∨ j ∈ p.way d.current → d.file? j = none)
    (hparents : (d.createAll parents).2 = .ok ()) (hway : ∀ j ∈ p.withoutSlashes.way d.current,
      (d.createAll parents).1.node? j = some .directory) :
    (d.createAll (p :: parents)).2 = .ok () := by
  have hfree' : ∀ j ∈ p.withoutSlashes.way d.current, d.file? j = none :=
    fun j hj => hfree j (Or.inr (Path.mem_way_of_withoutSlashes hj))
  rcases locate_cases (Path.fits_withoutSlashes hfits) hfree' with hlocate | hmissing
  · exact createAll_of_way hfits (fun j hj => node?_of_mem_way hlocate hj) (hfree _ (Or.inl rfl))
  · have hcreate : d.createDirectory p = .error .notFound := by rw [createDirectory, hmissing]
    have hmakes := makes_createAll d parents
    rw [createAll, if_neg (by simpa using hfits.nonempty), hcreate]
    generalize d.createAll parents = made at hmakes hparents hway
    obtain ⟨d₁, result⟩ := made
    dsimp only at hmakes hparents hway ⊢
    rw [hparents]
    dsimp only
    rw [← hmakes.current_eq] at hway
    have hfree₁ : d₁.file? (p.target d₁.current) = none := by
      rw [hmakes.file?_eq, hmakes.current_eq]
      exact hfree _ (Or.inl rfl)
    rcases createDirectory_cases hfits hway hfree₁ with ⟨d', hmade⟩ | ⟨hthere, hdir⟩
    · rw [hmade]
    · rw [hthere]
      dsimp only
      rw [if_pos hdir]

/-- A file is written where the way is there and no directory is at its end. -/
theorem write_eq_ok {content : Content} (hfits : p.Fits) (hslash : p.endsInSlash = false)
    (hway : ∀ j ∈ p.way d.current, d.node? j = some .directory)
    (hplain : d.node? (p.target d.current) ≠ some .directory) :
    d.write p content = .ok (d.put (p.target d.current) (.file content)) := by
  have hlocate : d.locate p = .ok (p.target d.current) := locate_eq_ok_iff.2 ⟨hfits, hway, rfl⟩
  rw [write, hslash, if_neg Bool.false_ne_true, hlocate]
  dsimp only
  rw [if_neg Bool.false_ne_true]
  split
  · next hdir => exact absurd hdir hplain
  · rfl

end Disk

namespace Path

open Disk

variable {d : Disk} {p q : Path}

/-- A path leads from a directory to a place, and no file is in the way. -/
structure Passable (p : Path) (d : Disk) : Prop where
  fits : p.Fits
  ends : p.EndsInStep
  starts : d.node? (p.start d.current) = some .directory
  free : ∀ k, k = p.target d.current ∨ k ∈ p.way d.current → d.file? k = none

namespace Passable

variable {n : Nat}

theorem steps_of_empty (h : q.text = "") : q.steps = [""] := by
  simp [steps, isAbsolute, segments, h, Split.on, Split.chars]

theorem parent (h : p.Passable d) (hq : p.parent? = some q) (hends : q.EndsInStep) :
    q.Passable d := by
  obtain ⟨parts, more, hfront⟩ := exists_takesFront_of_parent? hq
  obtain ⟨htarget, hway⟩ := way_parent hq d.current
  have hnonempty : q.text ≠ "" := by
    intro hempty
    obtain ⟨step, hmem, hstep⟩ := hends.exists_mem
    rw [steps_of_empty hempty, List.mem_singleton] at hmem
    rw [hmem] at hstep
    cases hstep
  refine ⟨hfront.fits h.fits hnonempty, hends, ?_, fun k hk => h.free k (Or.inr ?_)⟩
  · have hstarts := h.starts
    rwa [start, ← hfront.isAbsolute_eq] at hstarts
  · rcases hk with rfl | hk
    · exact htarget
    · exact hway k hk

/-- The parent is made if it can be made where it ends in a step. -/
theorem createAll_parent (h : p.Passable d) (hq : p.parent? = some q)
    (hmade : q.Passable d → (d.createAll (q.ancestorsUpTo (n + 1))).2 = .ok ()) :
    (d.createAll (q.ancestorsUpTo (n + 1))).2 = .ok () := by
  rcases parent?_cases h.ends hq with hvoid | hends
  · rw [ancestorsUpTo]
    by_cases hempty : q.text = ""
    · rw [createAll, if_pos (by simpa using hempty)]
    · -- The parent stays in the directory where it starts.
      obtain ⟨parts, more, hfront⟩ := exists_takesFront_of_parent? hq
      obtain ⟨hreach, hpassed⟩ := walk_of_isVoid hvoid (q.start d.current)
      have hstart : d.node? (q.start d.current) = some .directory := by
        rw [start, hfront.isAbsolute_eq]
        exact h.starts
      refine createAll_of_way (hfront.fits h.fits hempty) (fun j hj => ?_) ?_
      · rw [hpassed j (mem_way_of_withoutSlashes hj), hstart]
      · rw [target, hreach, file?, hstart]
  · exact hmade (h.parent hq hends)

/-- Once the parent and its parents have been made, the whole way is there. -/
theorem directory_of_parent (h : p.Passable d) (hq : p.parent? = some q)
    (hdone : (d.createAll (q.ancestorsUpTo (n + 1))).2 = .ok ()) :
    ∀ j ∈ p.withoutSlashes.way d.current,
      (d.createAll (q.ancestorsUpTo (n + 1))).1.node? j = some .directory := by
  intro j hj
  have hvisits := way_of_parent? h.ends hq d.current j hj
  rw [ancestorsUpTo] at hdone ⊢
  by_cases hempty : q.text = ""
  · -- The empty path leads to the directory where it starts.
    obtain ⟨parts, more, hfront⟩ := exists_takesFront_of_parent? hq
    have hstart : j = q.start d.current := by
      rw [way, target, steps_of_empty hempty] at hvisits
      rcases hvisits with hmem | rfl
      · exact List.mem_singleton.1 hmem
      · rfl
    rw [createAll, if_pos (by simpa using hempty), hstart, start, hfront.isAbsolute_eq]
    exact h.starts
  · exact directory_of_createAll hdone ⟨hempty, hvisits.symm⟩

/-- Parents have fewer steps, so the topmost one is reached. -/
theorem createAll_eq_ok (h : p.Passable d) (hn : p.steps.length ≤ n) :
    (d.createAll (p.ancestorsUpTo (n + 1))).2 = .ok () := by
  induction n generalizing p with
  | zero =>
    have hnil : p.steps = [] := List.eq_nil_of_length_eq_zero (Nat.le_zero.1 hn)
    obtain ⟨q, parts, voids, last, m, -, hfront, -⟩ := exists_parent? h.ends
    have hsteps := hfront.steps_eq
    rw [hnil] at hsteps
    exact absurd (List.append_eq_nil_iff.1 hsteps.symm).2 hfront.more_ne_nil
  | succ n ih =>
    obtain ⟨q, parts, voids, last, m, hq, hfront, -⟩ := exists_parent? h.ends
    have hparent : (d.createAll (q.ancestorsUpTo (n + 1))).2 = .ok () := by
      refine h.createAll_parent hq fun hpassable => ih hpassable ?_
      have hmore := List.length_pos_iff.2 hfront.more_ne_nil
      rw [hfront.steps_eq, List.length_append] at hn
      rw [hfront.steps_front]
      rcases on_intercalate_cases hfront.plain with heq | ⟨-, heq⟩
      · rw [heq]
        omega
      · obtain ⟨step, hmem, hstep⟩ := hpassable.ends.exists_mem
        rw [hfront.steps_front, heq, List.mem_singleton] at hmem
        rw [hmem] at hstep
        cases hstep
    rw [ancestorsUpTo, hq]
    exact createAll_of_parents h.fits h.free hparent (h.directory_of_parent hq hparent)

theorem createDirectories_eq_ok (h : p.Passable d) : (d.createDirectories p).2 = .ok () := by
  refine h.createAll_eq_ok ?_
  rw [steps]
  split
  · rw [List.length_drop]
    exact Nat.sub_le _ _
  · exact Nat.le_refl _

/-- The parent of a path that goes somewhere can be made, and then the whole way is there. -/
theorem exists_parent (h : p.Passable d) : ∃ q, p.parent? = some q ∧
    (d.createDirectories q).2 = .ok () ∧ ∀ j ∈ p.withoutSlashes.way d.current,
      (d.createDirectories q).1.node? j = some .directory := by
  obtain ⟨q, parts, voids, last, m, hq, -, -⟩ := exists_parent? h.ends
  have hdone : (d.createDirectories q).2 = .ok () :=
    h.createAll_parent hq fun hpassable => hpassable.createDirectories_eq_ok
  exact ⟨q, hq, hdone, h.directory_of_parent hq hdone⟩

end Passable

end Path

/-! ## Disks stay without gaps -/

namespace Disk

variable {d d' : Disk} {l : Location} {p : Path} {steps : List String}

/-- Where steps end is a place that they passed, or in such a place. -/
theorem dropLast_reach_cases (h : steps ≠ []) : ∃ j ∈ passed l steps, reach l steps = j ∨
    reach l steps = j.dropLast ∨ (reach l steps).dropLast = j := by
  obtain ⟨front, last, rfl⟩ := List.eq_nil_or_concat steps |>.resolve_left h
  refine ⟨reach l front, ?_, ?_⟩
  · rw [List.concat_eq_append]
    exact reach_mem_passed l front (List.cons_ne_nil _ _)
  · rw [List.concat_eq_append, reach_append, reach_cons, reach_nil, move]
    split_ifs
    · exact Or.inl rfl
    · exact Or.inr (Or.inl rfl)
    · exact Or.inr (Or.inr (by rw [List.dropLast_concat]))

/-- A file is written to a directory. -/
theorem IsTree.directory_of_write (h : d.IsTree) {content : Content}
    (hwrite : d.write p content = .ok d') :
    d.node? (p.target d.current).dropLast = some .directory := by
  obtain ⟨hlocate, hplain, -⟩ := exists_of_write hwrite
  obtain ⟨j, hj, hcases⟩ := dropLast_reach_cases (l := p.start d.current) p.steps_ne_nil
  have hdir := node?_of_mem_way hlocate hj
  rcases hcases with heq | heq | heq
  · rw [Path.target, heq] at hplain
    exact absurd hdir hplain
  · -- What is above a directory is one as well.
    rw [Path.target, heq] at hplain
    by_cases hself : j.dropLast = j
    · rw [hself] at hplain
      exact absurd hdir hplain
    · refine absurd (h.directory_of_prefix ?_ (List.dropLast_prefix j) hself) hplain
      rw [hdir]
      exact Option.some_ne_none _
  · rw [Path.target, heq, hdir]

theorem IsTree.write (h : d.IsTree) {content : Content} (hwrite : d.write p content = .ok d') :
    d'.IsTree := by
  have hparent := h.directory_of_write hwrite
  have hdirs := Disk.directory_of_write hwrite
  obtain ⟨-, -, hd'⟩ := exists_of_write hwrite
  intro entry hentry
  rw [hdirs]
  rw [hd', put] at hentry
  split at hentry
  · obtain ⟨old, hold, rfl⟩ := List.mem_map.1 hentry
    have hkey : (if old.1 == p.target d.current then (old.1, Node.file content)
        else (old.1, old.2)).1 = old.1 := by split <;> rfl
    rw [hkey]
    exact h old hold
  · rcases List.mem_append.1 hentry with hold | hnew
    · exact h entry hold
    · rw [List.mem_singleton.1 hnew]
      exact hparent

/-- What has been written can be written over. -/
theorem exists_write_again {content content' : Content} (hwrite : d.write p content = .ok d') :
    ∃ d'', d'.write p content' = .ok d'' := by
  have hslash : p.endsInSlash = false := by
    by_contra hslash
    rw [Bool.not_eq_false] at hslash
    rw [Disk.write, hslash] at hwrite
    split at hwrite <;> simp at hwrite
  obtain ⟨hlocate, -, -⟩ := exists_of_write hwrite
  refine ⟨_, write_eq_ok (locate_eq_ok_iff.1 hlocate).1 hslash (fun j hj => ?_) ?_⟩
  · rw [current_of_write hwrite] at hj
    rw [Disk.directory_of_write hwrite]
    exact node?_of_mem_way hlocate hj
  · have hfile : d'.file? (p.target d'.current) = some content := by
      rw [file?_of_write hwrite, current_of_write hwrite, if_pos rfl]
    rw [file?_eq_some_iff.1 hfile]
    simp

end Disk

end DocxTemplate
