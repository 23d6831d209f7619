import DocxTemplate.Disk.Basic
import DocxTemplate.Proofs.Text.Split

/-! # Walks

    A path is walked step by step. Where it leads to, and which places it passes, is known
    beforehand; the disk only decides whether one gets there.

    * `Path.target` and `Path.way`: the place a path leads to, and the places it passes.
    * `Disk.locate_eq_ok_iff`: a path can be located exactly if it `Fits` and all places on
      its way are directories.
    * `Path.target_join` and `Path.mem_way_join_iff`: walking on from where a path led to.
    * `Path.mem_way_of_mem_ancestors`: a path passes its ancestors.
-/

namespace DocxTemplate

namespace Disk

/-- Where steps lead to. -/
def reach (l : Location) (steps : List String) : Location := steps.foldl move l

/-- The places that steps start from. -/
def passed (l : Location) : List String → List Location
  | [] => []
  | step :: rest => l :: passed (move l step) rest

variable {l k : Location} {front rest : List String}

@[simp] theorem reach_nil (l : Location) : reach l [] = l := rfl

@[simp] theorem reach_cons (l : Location) (step : String) (rest : List String) :
    reach l (step :: rest) = reach (move l step) rest := rfl

theorem reach_append (l : Location) (front rest : List String) :
    reach l (front ++ rest) = reach (reach l front) rest := List.foldl_append

theorem passed_append (l : Location) (front rest : List String) :
    passed l (front ++ rest) = passed l front ++ passed (reach l front) rest := by
  induction front generalizing l with
  | nil => rfl
  | cons step front ih => simp [passed, ih]

@[simp] theorem move_empty (l : Location) : move l "" = l := rfl

/-- The place where steps start is passed, unless there are none. -/
theorem mem_passed_of_ne_nil (h : rest ≠ []) : l ∈ passed l rest := by
  cases rest with
  | nil => exact absurd rfl h
  | cons step rest => exact List.mem_cons_self

/-- Steps pass the place that the first few of them lead to. -/
theorem reach_mem_passed (l : Location) (front : List String) (h : rest ≠ []) :
    reach l front ∈ passed l (front ++ rest) := by
  rw [passed_append]
  exact List.mem_append_right _ (mem_passed_of_ne_nil h)

/-- A step leads down by one name, or to a place further up. -/
theorem eq_of_prefix_move {step : String} (h : k <+: move l step) (hl : ¬ k <+: l) :
    k = move l step := by
  unfold move at h ⊢
  split at h
  · exact absurd h hl
  · split at h
    · exact absurd (h.trans (List.dropLast_prefix l)) hl
    · next hvoid hup =>
      rw [if_neg hvoid, if_neg hup]
      rcases List.prefix_concat_iff.1 h with heq | hbelow
      · exact heq
      · exact absurd hbelow hl

/-- Steps reach a place below another one only through it. -/
theorem mem_passed_of_prefix {j : Location} {steps : List String} (hj : j ∈ passed l steps)
    (hbelow : k <+: j) (hl : ¬ k <+: l) : k ∈ passed l steps := by
  induction steps generalizing l with
  | nil => cases hj
  | cons step rest ih =>
    rcases List.mem_cons.1 hj with rfl | hj
    · exact absurd hbelow hl
    · apply List.mem_cons_of_mem
      by_cases hmove : k <+: move l step
      · rw [eq_of_prefix_move hmove hl] at *
        exact mem_passed_of_ne_nil fun hnil => by rw [hnil] at hj; cases hj
      · exact ih hj hmove

end Disk

namespace Path

/-! ## Where a path leads to -/

/-- The steps of a path. The segment before the slash of the root is none. -/
def steps (p : Path) : List String := if p.isAbsolute then p.segments.drop 1 else p.segments

/-- The place where a path starts. -/
def start (p : Path) (current : Location) : Location := if p.isAbsolute then [] else current

/-- The place a path leads to, whether or not it exists. -/
def target (p : Path) (current : Location) : Location := Disk.reach (p.start current) p.steps

/-- The places a path passes before its target. -/
def way (p : Path) (current : Location) : List Location := Disk.passed (p.start current) p.steps

/-- The places that have to be directories for a path to lead to one. An empty path needs none. -/
def Visits (p : Path) (current k : Location) : Prop :=
  p.text ≠ "" ∧ (k = p.target current ∨ k ∈ p.way current)

/-- What a path has to be like to lead anywhere. -/
structure Fits (p : Path) : Prop where
  noNul : '\x00' ∉ p.text.toList
  nonempty : p.text ≠ ""
  short : p.text.utf8ByteSize ≤ Disk.longestPath
  shortNames : ∀ step ∈ p.steps, step.utf8ByteSize ≤ Disk.longestName

end Path

namespace Disk

variable {d : Disk} {l k : Location} {p : Path}

/-- Steps can be followed if all places they pass are directories. -/
theorem follow_eq_ok_iff {steps : List String} : d.follow l steps = .ok k ↔
    (∀ j ∈ passed l steps, d.node? j = some .directory) ∧
      (∀ step ∈ steps, step.utf8ByteSize ≤ longestName) ∧ k = reach l steps := by
  induction steps generalizing l with
  | nil => simp [follow, passed, eq_comm]
  | cons step rest ih =>
    rw [follow]
    cases hnode : d.node? l with
    | none => simp [passed, hnode]
    | some node =>
      cases node with
      | file content => simp [passed, hnode]
      | directory =>
        by_cases hsize : longestName < step.utf8ByteSize
        · have : ¬ step.utf8ByteSize ≤ longestName := by omega
          simp [hsize, this]
        · simp only [hsize, if_false, ih, passed, List.mem_cons, forall_eq_or_imp, hnode,
            true_and, reach_cons, Nat.not_lt.1 hsize]

/-- A path is refused as it is written, or its steps are followed. -/
theorem locate_eq (d : Disk) (p : Path) : d.locate p =
    if p.text.toList.contains '\x00' then .error .nulByte
    else if p.text.isEmpty then .error .notFound
    else if longestPath < p.text.utf8ByteSize then .error .nameTooLong
    else d.follow (p.start d.current) p.steps := by
  have hfollow : (if p.isAbsolute then d.follow [] (p.segments.drop 1)
      else d.follow d.current p.segments) = d.follow (p.start d.current) p.steps := by
    unfold Path.start Path.steps
    split <;> rfl
  rw [locate, hfollow]

/-- A path leads to its target, if it leads anywhere. -/
theorem locate_eq_ok_iff : d.locate p = .ok k ↔
    p.Fits ∧ (∀ j ∈ p.way d.current, d.node? j = some .directory) ∧ k = p.target d.current := by
  rw [locate_eq]
  by_cases hnul : '\x00' ∈ p.text.toList
  · have : ¬ p.Fits := fun h => h.noNul hnul
    simp [hnul, this]
  · by_cases hempty : p.text = ""
    · have : ¬ p.Fits := fun h => h.nonempty hempty
      simp [hempty, this]
    · by_cases hshort : longestPath < p.text.utf8ByteSize
      · have : ¬ p.Fits := fun h => absurd h.short (by omega)
        simp [hnul, hempty, hshort, this]
      · have hfits : p.Fits ↔ ∀ step ∈ p.steps, step.utf8ByteSize ≤ longestName :=
          ⟨fun h => h.shortNames, fun h => ⟨hnul, hempty, by omega, h⟩⟩
        rw [if_neg (by simpa using hnul), if_neg (by simpa using hempty), if_neg hshort,
          follow_eq_ok_iff, hfits]
        unfold Path.way Path.target
        tauto

theorem eq_target_of_locate (h : d.locate p = .ok k) : k = p.target d.current :=
  (locate_eq_ok_iff.1 h).2.2

theorem node?_of_mem_way (h : d.locate p = .ok k) {j : Location} (hj : j ∈ p.way d.current) :
    d.node? j = some .directory :=
  (locate_eq_ok_iff.1 h).2.1 j hj

/-- A path can still be located where the directories on its way are still there. -/
theorem locate_of_locate {d' : Disk} (h : d.locate p = .ok k) (hcurrent : d'.current = d.current)
    (hdirs : ∀ j ∈ p.way d.current, d'.node? j = some .directory) : d'.locate p = .ok k := by
  obtain ⟨hfits, -, hk⟩ := locate_eq_ok_iff.1 h
  exact locate_eq_ok_iff.2 ⟨hfits, by rw [hcurrent]; exact hdirs, by rw [hcurrent]; exact hk⟩

/-- What is found at a path exists at its target. -/
theorem find_eq_ok_iff {node : Node} :
    d.find p = .ok (k, node) ↔ d.locate p = .ok k ∧ d.node? k = some node := by
  unfold find
  cases hl : d.locate p with
  | error fault => simp
  | ok l =>
    dsimp only
    cases hn : d.node? l with
    | none =>
      constructor
      · intro h
        cases h
      · rintro ⟨h, hnode⟩
        cases h
        rw [hn] at hnode
        cases hnode
    | some node' =>
      constructor
      · intro h
        cases h
        exact ⟨rfl, hn⟩
      · rintro ⟨h, hnode⟩
        cases h
        rw [hn] at hnode
        cases hnode
        rfl

/-- A path leads to a directory if everything on its way and its target are directories. -/
theorem isDirectory_iff : d.isDirectory p = true ↔
    p.Fits ∧ (∀ j ∈ p.way d.current, d.node? j = some .directory) ∧
      d.node? (p.target d.current) = some .directory := by
  have hfind : d.isDirectory p = true ↔ ∃ l, d.find p = .ok (l, .directory) := by
    unfold isDirectory
    constructor
    · intro h
      split at h
      · next l hfound => exact ⟨l, hfound⟩
      · cases h
    · rintro ⟨l, hfound⟩
      rw [hfound]
  rw [hfind]
  constructor
  · rintro ⟨l, hfound⟩
    obtain ⟨hlocate, hnode⟩ := find_eq_ok_iff.1 hfound
    obtain ⟨hfits, hway, rfl⟩ := locate_eq_ok_iff.1 hlocate
    exact ⟨hfits, hway, hnode⟩
  · rintro ⟨hfits, hway, hnode⟩
    exact ⟨_, find_eq_ok_iff.2 ⟨locate_eq_ok_iff.2 ⟨hfits, hway, rfl⟩, hnode⟩⟩

theorem find_of_isDirectory (h : d.isDirectory p = true) :
    d.find p = .ok (p.target d.current, .directory) := by
  obtain ⟨hfits, hway, hnode⟩ := isDirectory_iff.1 h
  exact find_eq_ok_iff.2 ⟨locate_eq_ok_iff.2 ⟨hfits, hway, rfl⟩, hnode⟩

end Disk

namespace Path

/-! ## Joining -/

variable {p q : Path} {c : Location}

theorem isAbsolute_join {s : String} (hs : s.toList.head? ≠ some '/') :
    (p.join s).isAbsolute = p.isAbsolute := by
  unfold join
  rw [if_congr (by rfl) rfl rfl]
  by_cases hempty : p.text = ""
  · simp [hempty, isAbsolute, hs]
  · have hp : p.text.toList ≠ [] := by simpa using hempty
    obtain ⟨b, front, hfront⟩ := List.exists_cons_of_ne_nil hp
    rw [if_neg (by simp [hs, hempty])]
    split <;> simp [isAbsolute, hfront]

/-- Whether the first segment counts does not depend on those behind it. -/
theorem steps_of_segments {front rest : List String} (hfront : front ≠ [])
    (h : p.segments = front ++ rest) :
    p.steps = (if p.isAbsolute then front.drop 1 else front) ++ rest := by
  unfold steps
  rw [h]
  split
  · obtain ⟨first, front, rfl⟩ := List.exists_cons_of_ne_nil hfront
    rfl
  · rfl

/-- A path continued by another one ends like it. -/
theorem exists_text_join (p : Path) (s : String) :
    ∃ front, (p.join s).text.toList = front ++ s.toList := by
  unfold join
  split
  · exact ⟨[], rfl⟩
  · split
    · exact ⟨_, String.toList_append⟩
    · exact ⟨_, String.toList_append⟩

/-- The steps of a path continued by another one are those of both. The first path may end in a
    step that says nothing. -/
theorem exists_steps_join (p : Path) {s : String} (hs : s.toList.head? ≠ some '/') :
    ∃ front, (p.steps = front ∨ p.steps = front ++ [""]) ∧
      (p.join s).steps = front ++ Split.on '/' s := by
  have habs := isAbsolute_join (p := p) hs
  by_cases hempty : p.text = ""
  · have hjoin : p.join s = ⟨s⟩ := by simp [join, hempty]
    have hsteps : p.steps = [""] := by
      simp [steps, isAbsolute, segments, hempty, Split.on, Split.chars]
    have hrelative : (⟨s⟩ : Path).isAbsolute = false := by simp [isAbsolute, hs]
    refine ⟨[], Or.inr hsteps, ?_⟩
    rw [hjoin, steps, hrelative]
    rfl
  · have hcond : ¬ (s.toList.head? == some '/' || p.text.isEmpty) = true := by
      simp [hs, hempty]
    by_cases hslash : p.text.toList.getLast? = some '/'
    · -- The slash at the end is the one between the two paths.
      obtain ⟨front, hfront⟩ := List.getLast?_eq_some_iff.1 hslash
      have hp : p.segments = Split.on '/' (String.ofList front) ++ [""] :=
        Split.on_append (t := "") (by simpa using hfront)
      have hjoin : (p.join s).segments =
          Split.on '/' (String.ofList front) ++ Split.on '/' s := by
        rw [join, if_neg hcond, if_pos (by simp [hslash])]
        exact Split.on_append (by simp [hfront])
      have hne := Split.on_ne_nil '/' (String.ofList front)
      exact ⟨_, Or.inr (steps_of_segments hne hp), by rw [steps_of_segments hne hjoin, habs]⟩
    · have hjoin : (p.join s).segments = p.segments ++ Split.on '/' s := by
        rw [join, if_neg hcond, if_neg (by simpa using hslash)]
        exact Split.on_append (by simp)
      refine ⟨p.steps, Or.inl rfl, ?_⟩
      rw [steps_of_segments (Split.on_ne_nil '/' p.text) hjoin, habs]
      rfl

/-- A path continued by another one leads on from where it led to. -/
theorem target_join (p : Path) {s : String} (hs : s.toList.head? ≠ some '/') (c : Location) :
    (p.join s).target c = Disk.reach (p.target c) (Split.on '/' s) := by
  obtain ⟨front, hfront, hjoin⟩ := exists_steps_join p hs
  have hstart : (p.join s).start c = p.start c := by rw [start, start, isAbsolute_join hs]
  rw [target, target, hstart, hjoin, Disk.reach_append]
  rcases hfront with hfront | hfront
  · rw [hfront]
  · rw [hfront, Disk.reach_append, Disk.reach_cons, Disk.move_empty, Disk.reach_nil]

/-- It passes what the first path passes, and what the second one passes from there on. -/
theorem mem_way_join_iff (p : Path) {s : String} (hs : s.toList.head? ≠ some '/') (c k : Location) :
    k ∈ (p.join s).way c ↔ k ∈ p.way c ∨ k ∈ Disk.passed (p.target c) (Split.on '/' s) := by
  obtain ⟨front, hfront, hjoin⟩ := exists_steps_join p hs
  have hstart : (p.join s).start c = p.start c := by rw [start, start, isAbsolute_join hs]
  rw [way, way, target, hstart, hjoin, Disk.passed_append, List.mem_append]
  rcases hfront with hfront | hfront
  · rw [hfront]
  · rw [hfront, Disk.passed_append, Disk.reach_append, Disk.reach_cons, Disk.move_empty,
      Disk.reach_nil, List.mem_append, or_assoc]
    -- The step that says nothing starts where the second path starts.
    have hmem : k ∈ Disk.passed (Disk.reach (p.start c) front) [""] →
        k ∈ Disk.passed (Disk.reach (p.start c) front) (Split.on '/' s) := by
      intro hk
      rw [List.mem_singleton.1 hk]
      exact Disk.mem_passed_of_ne_nil (Split.on_ne_nil '/' s)
    tauto

/-! ## Slashes at the end -/

theorem chars_append_replicate (cs : List Char) (n : Nat) :
    Split.chars '/' (cs ++ List.replicate n '/') =
      Split.chars '/' cs ++ List.replicate n [] := by
  induction n with
  | zero => simp
  | succ n ih =>
    rw [List.replicate_succ', ← List.append_assoc, Split.chars_append, ih, List.append_assoc,
      List.replicate_succ']
    rfl

theorem reach_append_replicate (l : Location) (front : List String) (n : Nat) :
    Disk.reach l (front ++ List.replicate n "") = Disk.reach l front := by
  induction n with
  | zero => rw [List.replicate_zero, List.append_nil]
  | succ n ih =>
    rw [List.replicate_succ', ← List.append_assoc, Disk.reach_append, ih]
    rfl

/-- The steps of a path go on with some that say nothing where slashes stand at its end. -/
theorem exists_steps_withoutSlashes (p : Path) : ∃ n,
    p.steps = p.withoutSlashes.steps ++ List.replicate n "" ∧
      p.withoutSlashes.isAbsolute = p.isAbsolute := by
  have hsplit := List.takeWhile_append_dropWhile (p := (· == '/')) (l := p.text.toList.reverse)
  have hall : ∀ b ∈ p.text.toList.reverse.takeWhile (· == '/'), b = '/' := fun b hb =>
    eq_of_beq (List.all_eq_true.1 List.all_takeWhile b hb)
  rw [withoutSlashes]
  split
  · exact ⟨0, (List.append_nil _).symm, rfl⟩
  · next rest hrest =>
    have hslashes := List.eq_replicate_of_mem hall
    have htext := congrArg List.reverse hsplit
    rw [List.reverse_reverse, List.reverse_append, hslashes, List.reverse_replicate] at htext
    generalize (p.text.toList.reverse.takeWhile (· == '/')).length = n at htext
    generalize p.text.toList.reverse.dropWhile (· == '/') = front at htext hrest
    have hsegments : p.segments =
        (⟨String.ofList front.reverse⟩ : Path).segments ++ List.replicate n "" := by
      rw [segments, segments, Split.on, Split.on, ← htext, chars_append_replicate,
        String.toList_ofList, List.map_append, List.map_replicate]
    have habs : (⟨String.ofList front.reverse⟩ : Path).isAbsolute = p.isAbsolute := by
      rw [isAbsolute, isAbsolute, ← htext, String.toList_ofList]
      cases hcs : front.reverse with
      | nil => exact absurd (List.reverse_eq_nil_iff.1 hcs) hrest
      | cons b rest => rfl
    refine ⟨n, ?_, habs⟩
    rw [steps_of_segments (Split.on_ne_nil '/' _) hsegments, steps, habs]
    rfl

theorem withoutSlashes_eq_self {b : Char} (h : p.text.toList.getLast? = some b) (hb : b ≠ '/') :
    p.withoutSlashes = p := by
  obtain ⟨front, hfront⟩ := List.getLast?_eq_some_iff.1 h
  have hreverse : p.text.toList.reverse = b :: front.reverse := by simp [hfront]
  have hdrop : p.text.toList.reverse.dropWhile (· == '/') = p.text.toList.reverse := by
    rw [hreverse, List.dropWhile_cons_of_neg (by simpa using hb)]
  rw [withoutSlashes, hdrop]
  split
  · rfl
  · rw [List.reverse_reverse, String.ofList_toList]

/-- Slashes at the end of a path do not change where it leads to. -/
theorem target_withoutSlashes (p : Path) (c : Location) : p.withoutSlashes.target c = p.target c := by
  obtain ⟨n, hsteps, habs⟩ := exists_steps_withoutSlashes p
  rw [target, target, start, start, habs, hsteps, reach_append_replicate]

theorem passed_replicate (l : Location) (n : Nat) {k : Location}
    (h : k ∈ Disk.passed l (List.replicate n "")) : k = l := by
  induction n with
  | zero => cases h
  | succ n ih =>
    rw [List.replicate_succ, Disk.passed, Disk.move_empty] at h
    rcases List.mem_cons.1 h with h | h
    · exact h
    · exact ih h

/-- They only make the path pass its own target. -/
theorem way_withoutSlashes {k : Location} (h : k ∈ p.way c) :
    k ∈ p.withoutSlashes.way c ∨ k = p.target c := by
  obtain ⟨n, hsteps, habs⟩ := exists_steps_withoutSlashes p
  have hstart : p.withoutSlashes.start c = p.start c := by rw [start, start, habs]
  rw [way, hsteps, Disk.passed_append, List.mem_append] at h
  rw [way, target, hstart, hsteps, reach_append_replicate]
  exact h.imp id fun h => passed_replicate _ n h

/-! ## Ancestors -/

theorem trimVoid_isPrefixOf (segments : List String) : trimVoid segments <+: segments := by
  have hsuffix := List.dropWhile_suffix isVoid (l := segments.reverse)
  have hbelow := List.reverse_prefix.2 hsuffix
  rwa [List.reverse_reverse] at hbelow

/-- Without its last name, a body is a proper prefix of itself. -/
theorem exists_eq_dropLast_append {segments : List String} (h : trimVoid segments ≠ []) :
    ∃ more, more ≠ [] ∧ segments = trimVoid (trimVoid segments).dropLast ++ more := by
  have hshort := (trimVoid_isPrefixOf (trimVoid segments).dropLast).length_le
  have htrim := (trimVoid_isPrefixOf segments).length_le
  have hpos := List.length_pos_iff.2 h
  obtain ⟨more, hmore⟩ := ((trimVoid_isPrefixOf (trimVoid segments).dropLast).trans
    (List.dropLast_prefix _)).trans (trimVoid_isPrefixOf segments)
  refine ⟨more, fun hnil => ?_, hmore.symm⟩
  rw [List.length_dropLast] at hshort
  rw [hnil, List.append_nil] at hmore
  rw [hmore] at hshort
  omega

/-- The parts of a text made of some parts are these, or one that says nothing. -/
theorem on_intercalate_cases {parts : List String} (hplain : ∀ part ∈ parts, '/' ∉ part.toList) :
    Split.on '/' ("/".intercalate parts) = parts ∨
      (parts = [] ∧ Split.on '/' ("/".intercalate parts) = [""]) := by
  cases parts with
  | nil => exact Or.inr ⟨rfl, rfl⟩
  | cons part parts => exact Or.inl (Split.on_intercalate (List.cons_ne_nil _ _) hplain)

/-- The first few of some steps lead to a place that the steps pass, and pass no other places. -/
theorem passed_of_parts {parts more : List String} (hplain : ∀ part ∈ parts, '/' ∉ part.toList)
    (hmore : more ≠ []) (l : Location) :
    Disk.reach l (Split.on '/' ("/".intercalate parts)) ∈ Disk.passed l (parts ++ more) ∧
      ∀ k ∈ Disk.passed l (Split.on '/' ("/".intercalate parts)),
        k ∈ Disk.passed l (parts ++ more) := by
  have hreach := Disk.reach_mem_passed l parts hmore
  rcases on_intercalate_cases hplain with hparts | ⟨rfl, hparts⟩
  · rw [hparts, Disk.passed_append] at *
    exact ⟨hreach, fun k hk => List.mem_append_left _ hk⟩
  · rw [hparts]
    refine ⟨hreach, fun k hk => ?_⟩
    rw [List.mem_singleton.1 hk]
    exact hreach

theorem steps_of_isAbsolute (h : p.isAbsolute = true) : p.steps = p.segments.drop 1 := by
  rw [steps, if_pos h]

theorem steps_of_not_isAbsolute (h : p.isAbsolute = false) : p.steps = p.segments := by
  rw [steps, h]
  rfl

/-- A path that starts with `.` does not start at the root. -/
theorem isAbsolute_of_startsHere (h : p.startsHere = true) : p.isAbsolute = false := by
  unfold isAbsolute
  cases htext : p.text.toList with
  | nil => rfl
  | cons b rest =>
    rw [List.head?_cons, beq_eq_false_iff_ne, ne_eq, Option.some.injEq]
    rintro rfl
    simp [startsHere, segments, Split.on, htext, Split.chars] at h

/-- A path takes the first few steps of another one, from the same place. -/
structure TakesFront (q p : Path) (parts more : List String) : Prop where
  more_ne_nil : more ≠ []
  plain : ∀ part ∈ parts, '/' ∉ part.toList
  steps_eq : p.steps = parts ++ more
  isAbsolute_eq : q.isAbsolute = p.isAbsolute
  steps_front : q.steps = Split.on '/' ("/".intercalate parts)

/-- The first few segments of a path that starts at the root, with a slash before them. -/
theorem takesFront_absolute {parts more : List String} (habs : p.isAbsolute = true)
    (hsteps : p.steps = parts ++ more) (hmore : more ≠ []) :
    TakesFront ⟨"/" ++ "/".intercalate parts⟩ p parts more := by
  have hq : isAbsolute ⟨"/" ++ "/".intercalate parts⟩ = true := by simp [isAbsolute]
  have hsegments : segments ⟨"/" ++ "/".intercalate parts⟩ =
      [""] ++ Split.on '/' ("/".intercalate parts) := Split.on_append (s := "") (by simp)
  refine ⟨hmore, fun part hpart => ?_, hsteps, by rw [hq, habs], ?_⟩
  · have hmem : part ∈ p.steps := by
      rw [hsteps]
      exact List.mem_append_left _ hpart
    rw [steps_of_isAbsolute habs] at hmem
    exact Split.not_mem_of_mem_on (List.mem_of_mem_drop hmem)
  · rw [steps_of_isAbsolute hq, hsegments]
    rfl

/-- The first few segments of any other path. -/
theorem takesFront_relative {parts more : List String} (hrelative : p.isAbsolute = false)
    (hsegments : p.segments = parts ++ more) (hmore : more ≠ []) :
    TakesFront ⟨"/".intercalate parts⟩ p parts more := by
  have hq : isAbsolute ⟨"/".intercalate parts⟩ = false := by
    cases parts with
    | nil => rfl
    | cons first parts =>
      -- The path itself starts like these segments.
      have htext := Split.intercalate_on p.text
      rw [show Split.on '/' p.text = p.segments from rfl, hsegments,
        String.intercalate_append_of_ne_nil (List.cons_ne_nil _ _) hmore] at htext
      rw [isAbsolute, beq_eq_false_iff_ne] at hrelative ⊢
      intro hhead
      apply hrelative
      rw [← htext]
      simp only [String.toList_append, List.append_assoc, List.head?_append]
      rw [hhead]
      rfl
  refine ⟨hmore, fun part hpart => ?_, ?_, by rw [hq, hrelative], ?_⟩
  · have hmem : part ∈ p.segments := by
      rw [hsegments]
      exact List.mem_append_left _ hpart
    exact Split.not_mem_of_mem_on hmem
  · rw [steps_of_not_isAbsolute hrelative, hsegments]
  · rw [steps_of_not_isAbsolute hq]
    rfl

/-- The parent of a path takes the first few steps of it. -/
theorem exists_takesFront_of_parent? (h : p.parent? = some q) :
    ∃ parts more, TakesFront q p parts more := by
  rw [parent?] at h
  split at h
  · next hnone =>
    by_cases hhere : p.startsHere = true
    · rw [if_pos hhere, Option.some.injEq] at h
      have hne : p.segments ≠ [] := Split.on_ne_nil '/' p.text
      have hfront := takesFront_relative (isAbsolute_of_startsHere hhere)
        (List.nil_append p.segments).symm hne
      rw [← h]
      exact ⟨[], p.segments, hfront⟩
    · rw [if_neg hhere] at h
      cases h
  · next hsome =>
    dsimp only at h
    obtain ⟨more, hmore, hbody⟩ := exists_eq_dropLast_append hsome
    generalize trimVoid (trimVoid p.body).dropLast = rest at h hbody
    by_cases habs : p.isAbsolute = true
    · have hsteps : p.steps = rest ++ more := by
        rw [← hbody, body, habs, steps_of_isAbsolute habs]
        rfl
      rw [if_pos habs, Option.some.injEq] at h
      rw [← h]
      exact ⟨rest, more, takesFront_absolute habs hsteps hmore⟩
    · have hrelative : p.isAbsolute = false := by simpa using habs
      rw [if_neg habs] at h
      by_cases hhere : p.startsHere = true
      · have hsegments : p.segments = ("." :: rest) ++ more := by
          rw [List.cons_append, ← hbody, body, hhere, Bool.or_true, if_pos rfl]
          rw [startsHere, beq_iff_eq] at hhere
          obtain ⟨others, hothers⟩ := List.head?_eq_some_iff.1 hhere
          rw [hothers]
          rfl
        rw [if_pos hhere, Option.some.injEq] at h
        rw [← h]
        exact ⟨_, more, takesFront_relative hrelative hsegments hmore⟩
      · have hsegments : p.segments = rest ++ more := by
          rw [← hbody, body, hrelative]
          simp [hhere]
        rw [if_neg hhere, Option.some.injEq] at h
        rw [← h]
        exact ⟨rest, more, takesFront_relative hrelative hsegments hmore⟩

/-- A path passes its parent, and what its parent passes. -/
theorem way_parent (h : p.parent? = some q) (c : Location) :
    q.target c ∈ p.way c ∧ ∀ k ∈ q.way c, k ∈ p.way c := by
  obtain ⟨parts, more, hfront⟩ := exists_takesFront_of_parent? h
  have hstart : q.start c = p.start c := by rw [start, start, hfront.isAbsolute_eq]
  rw [target, way, way, hstart, hfront.steps_eq, hfront.steps_front]
  exact passed_of_parts hfront.plain hfront.more_ne_nil (p.start c)

/-- A path passes its ancestors, all but itself. -/
theorem mem_way_of_mem_ancestors {a : Path} (h : a ∈ p.ancestors) (c : Location) :
    a.target c = p.target c ∨ a.target c ∈ p.way c := by
  unfold ancestors at h
  generalize p.segments.length + 1 = n at h
  induction n generalizing p with
  | zero => cases h
  | succ n ih =>
    rw [ancestorsUpTo, List.mem_cons] at h
    rcases h with rfl | h
    · exact Or.inl rfl
    · cases hparent : p.parent? with
      | none => simp [hparent] at h
      | some q =>
        rw [hparent] at h
        obtain ⟨htarget, hway⟩ := way_parent hparent c
        rcases ih h with heq | hmem
        · exact Or.inr (heq ▸ htarget)
        · exact Or.inr (hway _ hmem)

/-! ## Names -/

/-- Whether a step leads to an entry of a directory. -/
def IsName (step : String) : Prop := step ∉ ["", ".", ".."] ∧ '/' ∉ step.toList

instance (step : String) : Decidable (IsName step) := inferInstanceAs (Decidable (_ ∧ _))

theorem IsName.on_eq {name : String} (h : IsName name) : Split.on '/' name = [name] :=
  Split.on_of_not_mem h.2

theorem IsName.move_eq {name : String} (h : IsName name) (l : Location) :
    Disk.move l name = l ++ [name] := by
  obtain ⟨hplain, -⟩ := h
  rw [List.mem_cons, List.mem_cons, List.mem_singleton, not_or, not_or] at hplain
  rw [Disk.move, if_neg (by simp [isVoid, hplain.1, hplain.2.1]), if_neg (by simpa using hplain.2.2)]

theorem IsName.head?_ne {name : String} (h : IsName name) : name.toList.head? ≠ some '/' :=
  fun hhead => h.2 (List.mem_of_mem_head? hhead)

theorem reach_names {names : List String} (hnames : ∀ name ∈ names, IsName name) (l : Location) :
    Disk.reach l names = l ++ names := by
  induction names generalizing l with
  | nil => rw [Disk.reach_nil, List.append_nil]
  | cons name names ih =>
    rw [Disk.reach_cons, (hnames name List.mem_cons_self).move_eq,
      ih fun n hn => hnames n (List.mem_cons_of_mem _ hn), List.append_assoc, List.singleton_append]

theorem target_join_name {name : String} (h : IsName name) (p : Path) (c : Location) :
    (p.join name).target c = p.target c ++ [name] := by
  rw [target_join p h.head?_ne, h.on_eq, Disk.reach_cons, h.move_eq, Disk.reach_nil]

theorem target_foldl_join {names : List String} (hnames : ∀ name ∈ names, IsName name) (p : Path)
    (c : Location) : (names.foldl join p).target c = p.target c ++ names := by
  induction names generalizing p with
  | nil => rw [List.foldl_nil, List.append_nil]
  | cons name names ih =>
    rw [List.foldl_cons, ih fun n hn => hnames n (List.mem_cons_of_mem _ hn),
      target_join_name (hnames name List.mem_cons_self), List.append_assoc, List.singleton_append]

theorem mem_way_foldl_join_iff {names : List String} (hnames : ∀ name ∈ names, IsName name)
    (p : Path) (c k : Location) : k ∈ (names.foldl join p).way c ↔
      k ∈ p.way c ∨ k ∈ Disk.passed (p.target c) names := by
  induction names generalizing p with
  | nil => simp [Disk.passed]
  | cons name names ih =>
    have hname := hnames name List.mem_cons_self
    rw [List.foldl_cons, ih fun n hn => hnames n (List.mem_cons_of_mem _ hn),
      mem_way_join_iff p hname.head?_ne, hname.on_eq, target_join_name hname,
      Disk.passed, Disk.passed, Disk.passed, hname.move_eq, List.mem_singleton, List.mem_cons,
      or_assoc]

theorem isAbsolute_foldl_join {names : List String} (hnames : ∀ name ∈ names, IsName name)
    (p : Path) : (names.foldl join p).isAbsolute = p.isAbsolute := by
  induction names generalizing p with
  | nil => rfl
  | cons name names ih =>
    rw [List.foldl_cons, ih fun n hn => hnames n (List.mem_cons_of_mem _ hn),
      isAbsolute_join (hnames name List.mem_cons_self).head?_ne]

/-- The name at the end of a path is one. -/
theorem isName_of_fileName? {name : String} (h : p.fileName? = some name) : IsName name := by
  unfold fileName? at h
  split at h
  · next s hlast =>
    rw [Option.some.injEq] at h
    subst h
    have hmem := List.mem_of_getLast? hlast
    rw [components, List.mem_append] at hmem
    rcases hmem with hmem | hmem
    · split_ifs at hmem <;> simp at hmem
    · obtain ⟨segment, hsegment, heq⟩ := List.mem_filterMap.1 hmem
      have hbody : segment ∈ p.segments := by
        rw [body] at hsegment
        split at hsegment
        · exact List.mem_of_mem_drop hsegment
        · exact hsegment
      rw [ofSegment?] at heq
      split_ifs at heq with hvoid hup
      · cases heq
      rw [Option.some.injEq, Component.name.injEq] at heq
      subst heq
      refine ⟨?_, Split.not_mem_of_mem_on hbody⟩
      simp only [isVoid, Bool.or_eq_true, beq_iff_eq, not_or] at hvoid
      simp only [List.mem_cons, List.not_mem_nil, or_false, not_or]
      exact ⟨hvoid.1, hvoid.2, by simpa using hup⟩
  · cases h

/-! ## Names at the end -/

section Ends

variable {a b : String}

theorem isVoid_eq_false (h : IsName a) : isVoid a = false := by
  obtain ⟨hplain, -⟩ := h
  rw [List.mem_cons, List.mem_cons, not_or, not_or] at hplain
  simp [isVoid, hplain.1, hplain.2.1]

/-- A name more is a segment more. -/
theorem segments_join_join (ha : IsName a) (hb : IsName b) (p : Path) :
    ((p.join a).join b).segments = (p.join a).segments ++ [b] := by
  obtain ⟨front, hfront⟩ := exists_text_join p a
  have hne : a.toList ≠ [] := fun hnil => ha.1 (by simp [String.toList_eq_nil_iff.1 hnil])
  obtain ⟨last, hlast⟩ := Option.ne_none_iff_exists'.1 (mt List.getLast?_eq_none_iff.1 hne)
  have hslash : (p.join a).text.toList.getLast? ≠ some '/' := by
    rw [hfront, List.getLast?_append, hlast, Option.some_or, Ne, Option.some.injEq]
    rintro rfl
    exact ha.2 (List.mem_of_getLast? hlast)
  have hempty : (p.join a).text ≠ "" := by
    intro hnil
    rw [hnil] at hfront
    exact hne (List.append_eq_nil_iff.1 hfront.symm).2
  rw [join, if_neg (by simp [hb.head?_ne, hempty]), if_neg (by simpa using hslash)]
  rw [segments, segments, ← hb.on_eq]
  exact Split.on_append (by simp)

theorem trimVoid_concat (h : isVoid a = false) (front : List String) :
    trimVoid (front ++ [a]) = front ++ [a] := by
  rw [trimVoid, List.reverse_append, List.reverse_singleton, List.singleton_append,
    List.dropWhile_cons_of_neg (by simp [h]), List.reverse_cons, List.reverse_reverse]

/-- Names at the end of a path are names of its body as well. -/
theorem exists_body_of_segments {front : List String} (h : p.segments = front ++ [a, b])
    (ha : IsName a) : ∃ rest, p.body = rest ++ [a] ++ [b] := by
  rw [body, h]
  split
  · next hfirst =>
    cases front with
    | cons first front => exact ⟨front, by simp⟩
    | nil =>
      -- The first segment would be the void one before a slash, or a dot.
      exfalso
      rw [Bool.or_eq_true] at hfirst
      rcases hfirst with habs | hhere
      · have htext := Split.intercalate_on p.text
        rw [show Split.on '/' p.text = p.segments from rfl, h] at htext
        rw [isAbsolute, ← htext] at habs
        have hne : a.toList ≠ [] := fun hnil => ha.1 (by simp [String.toList_eq_nil_iff.1 hnil])
        obtain ⟨c, cs, hcs⟩ := List.exists_cons_of_ne_nil hne
        have hc : c = '/' := by simpa [String.intercalate_cons_cons, hcs] using habs
        exact ha.2 (by rw [hcs, hc]; exact List.mem_cons_self)
      · rw [startsHere, h, List.nil_append, List.head?_cons, beq_iff_eq, Option.some.injEq] at hhere
        exact ha.1 (by simp [hhere])
  · exact ⟨front, by simp⟩

/-- Segments joined by slashes end in the last of them. -/
theorem exists_intercalate_concat (names : List String) (a : String) :
    ∃ before, ("/".intercalate (names ++ [a])).toList = before ++ a.toList := by
  by_cases hnames : names = []
  · exact ⟨[], by rw [hnames]; rfl⟩
  · rw [String.intercalate_append_of_ne_nil hnames (by simp)]
    exact ⟨_, by rw [String.toList_append]; rfl⟩

/-- The parent of a path that ends in two names ends in the first of them. -/
theorem exists_text_parent? {front : List String} (h : p.segments = front ++ [a, b])
    (ha : IsName a) (hb : IsName b) (hq : p.parent? = some q) :
    ∃ before, q.text.toList = before ++ a.toList := by
  obtain ⟨rest, hrest⟩ := exists_body_of_segments h ha
  have hsome : trimVoid p.body = rest ++ [a] ++ [b] := by
    rw [hrest, trimVoid_concat (isVoid_eq_false hb)]
  have hrest' : trimVoid (rest ++ [a] ++ [b]).dropLast = rest ++ [a] := by
    rw [List.dropLast_concat, trimVoid_concat (isVoid_eq_false ha)]
  rw [parent?, hsome] at hq
  split at hq
  · next hnil => simp at hnil
  · next segments heq =>
    dsimp only at hq
    rw [hrest'] at hq
    split_ifs at hq with habs hhere
    · cases hq
      obtain ⟨before, hbefore⟩ := exists_intercalate_concat rest a
      exact ⟨'/' :: before, by rw [String.toList_append, hbefore]; rfl⟩
    · cases hq
      exact exists_intercalate_concat ("." :: rest) a
    · cases hq
      exact exists_intercalate_concat rest a

end Ends

end Path

end DocxTemplate
