import DocxTemplate.Proofs.Sanitize.Deletions

/-! # Empty properties that are left

    The property pass deletes four forms in turn, each of them once from left to right. A deletion
    joins what stands before it and behind it, and a form that comes about at such a seam stays
    if its turn has come already.

    * `eraseCuts`: the deletions of one form, each in the text that those before it have
      left.
    * `Cut.Closes`: a form stands across the seam that a deletion leaves.
    * `Reopens`: one of the deletions closes a form whose turn has come.
    * `Erasing`: erasing one form, step by step; `absent`, `survives` and `closed` say what
      stands in the text in the end.
    * `removeEmptyProperties_settled_iff`: the pass leaves an empty form behind exactly if one
      of its deletions closes one, and only then there is something left for a second pass.
-/

namespace DocxTemplate.Sanitize

/-! ## Seams -/

/-- A form stands across the seam that a cut leaves. -/
def Cut.Closes (c : Cut) (form : Bytes) : Prop :=
  ∃ left right, left ≠ [] ∧ right ≠ [] ∧ form = left ++ right ∧
    left <:+ c.before ∧ right <+: c.after

/-- The cuts that erasing a pattern makes, in their order. What stands in front has been searched
    already. -/
def eraseCuts (pattern front : Bytes) : Bytes → List Cut
  | [] => []
  | b :: rest =>
    if pattern <+: b :: rest then
      ⟨front, pattern, rest.drop (pattern.length - 1)⟩ ::
        eraseCuts pattern front (rest.drop (pattern.length - 1))
    else eraseCuts pattern (front ++ [b]) rest
termination_by text => text.length
decreasing_by all_goals simp only [List.length_cons, List.length_drop]; omega

/-- One of the deletions of `forms`, made in turn, closes a form whose turn has come: its own, one of
    those before it, or one of the `past` ones. -/
def Reopens (past : List String) : (forms : List String) → Bytes → Prop
  | [], _ => False
  | form :: forms, text =>
    (∃ c ∈ eraseCuts (Bytes.ofString form) [] text, ∃ f ∈ past ++ [form],
      c.Closes (Bytes.ofString f)) ∨
    Reopens (past ++ [form]) forms (Bytes.eraseAll (Bytes.ofString form) text).2

variable {pattern other front text after : Bytes}

theorem infix_iff_exists_drop : pattern <:+: text ↔ ∃ j, pattern <+: text.drop j := by
  constructor
  · intro ⟨before, after, h⟩
    refine ⟨before.length, after, ?_⟩
    rw [← h, List.append_assoc, List.drop_left]
  · intro ⟨j, after, h⟩
    refine ⟨text.take j, after, ?_⟩
    rw [List.append_assoc, h, List.take_append_drop]

/-- What begins before a seam stood there already before the cut, or the cut closes it. -/
theorem Cut.closes_or_stands {c : Cut} {j : Nat} (hj : j < c.before.length)
    (h : pattern <+: (c.before ++ c.after).drop j) :
    c.Closes pattern ∨ pattern <+: c.before.drop j := by
  rw [List.drop_append_of_le_length (Nat.le_of_lt hj)] at h
  by_cases hlen : pattern.length ≤ (c.before.drop j).length
  · exact Or.inr (List.prefix_of_prefix_length_le h (List.prefix_append _ _) hlen)
  · obtain ⟨right, hright⟩ : c.before.drop j <+: pattern :=
      List.prefix_of_prefix_length_le (List.prefix_append _ _) h (by omega)
    refine Or.inl ⟨c.before.drop j, right, ?_, ?_, hright.symm, List.drop_suffix _ _, ?_⟩
    · rw [Ne, List.drop_eq_nil_iff]
      omega
    · intro hnil
      rw [hnil, List.append_nil] at hright
      exact hlen (Nat.le_of_eq (congrArg List.length hright.symm))
    · rw [← hright] at h
      exact (List.prefix_append_right_inj _).1 h

/-! ## One pattern -/

/-- Erasing a pattern step by step: from what has been searched and what is ahead to the cuts still
    to be made and the text that is left in the end. -/
inductive Erasing (pattern : Bytes) : (front text : Bytes) → List Cut → Bytes → Prop where
  | nil {front : Bytes} : Erasing pattern front [] [] front
  | hit {front after : Bytes} {cuts : List Cut} {kept : Bytes}
      (next : Erasing pattern front after cuts kept) :
      Erasing pattern front (pattern ++ after) (⟨front, pattern, after⟩ :: cuts) kept
  | skip {front : Bytes} {b : UInt8} {rest : Bytes} {cuts : List Cut} {kept : Bytes}
      (other : ¬ pattern <+: b :: rest)
      (next : Erasing pattern (front ++ [b]) rest cuts kept) :
      Erasing pattern front (b :: rest) cuts kept

/-- What the pass does with one form. -/
theorem erasing_eraseAll (hne : pattern ≠ []) (front text : Bytes) :
    Erasing pattern front text (eraseCuts pattern front text)
      (front ++ (Bytes.eraseAll pattern text).2) := by
  fun_induction eraseCuts pattern front text with
  | case1 front =>
    rw [Bytes.eraseAll, List.append_nil]
    exact .nil
  | case2 front b rest hpre ih =>
    obtain ⟨after, hafter⟩ := hpre
    rw [Bytes.drop_of_pattern hne hafter] at ih ⊢
    rw [← hafter, Bytes.eraseAll_pattern_append hne]
    exact .hit ih
  | case3 front b rest hpre ih =>
    rw [Bytes.eraseAll_of_not_prefix hpre]
    rw [List.append_assoc] at ih
    exact .skip hpre ih

/-- Two patterns that stand in one text do not overlap, unless they are one and stand at one
    place. -/
def Apart (pattern other : Bytes) : Prop :=
  ∀ (text : Bytes) (i j : Nat), pattern <+: text.drop i → other <+: text.drop j →
    (i = j ∧ pattern = other) ∨ i + pattern.length ≤ j ∨ j + other.length ≤ i

namespace Erasing

variable {cuts : List Cut} {kept : Bytes}

/-- If no cut closes the other pattern, it stands nowhere in the end. The erased one may have stood
    ahead, but not in what was searched. -/
theorem absent (h : Erasing pattern front text cuts kept) (hne : other ≠ [])
    (hclosed : ∀ c ∈ cuts, ¬ c.Closes other)
    (hahead : ∀ j, other <+: (front ++ text).drop j → other = pattern ∧ front.length ≤ j) :
    ¬ other <:+: kept := by
  rw [infix_iff_exists_drop]
  induction h with
  | @nil front =>
    intro ⟨j, hj⟩
    rw [List.append_nil] at hahead
    obtain ⟨-, hle⟩ := hahead j hj
    rw [List.drop_eq_nil_of_le hle, List.prefix_nil] at hj
    exact hne hj
  | @hit front after cuts kept next ih =>
    rw [List.forall_mem_cons] at hclosed
    apply ih hclosed.2
    intro j hj
    by_cases hlt : j < front.length
    · rcases Cut.closes_or_stands (c := ⟨front, pattern, after⟩) hlt hj with hcloses | hbefore
      · exact absurd hcloses hclosed.1
      · -- The other pattern would stand in what was searched.
        have hwhole : other <+: (front ++ (pattern ++ after)).drop j := by
          rw [List.drop_append_of_le_length (Nat.le_of_lt hlt)]
          exact hbefore.trans (List.prefix_append _ _)
        exact absurd (hahead j hwhole).2 (by omega)
    · -- Behind the seam the other pattern stood already before.
      have hle : front.length ≤ j := Nat.not_lt.1 hlt
      obtain ⟨i, rfl⟩ : ∃ i, j = front.length + i := ⟨j - front.length, by omega⟩
      have hbehind : other <+: (front ++ (pattern ++ after)).drop
          (front.length + (pattern.length + i)) := by
        rw [← List.drop_drop, List.drop_left] at hj ⊢
        rw [← List.drop_drop, List.drop_left]
        exact hj
      exact ⟨(hahead _ hbehind).1, hle⟩
  | @skip front b rest cuts kept hother next ih =>
    apply ih hclosed
    intro j hj
    rw [List.append_assoc, List.singleton_append] at hj
    obtain ⟨heq, hle⟩ := hahead j hj
    refine ⟨heq, ?_⟩
    rw [List.length_append, List.length_singleton]
    apply Nat.lt_of_le_of_ne hle
    -- The erased pattern does not stand at the byte that is passed.
    intro hat
    rw [← hat, List.drop_left, heq] at hj
    exact hother hj

/-- The other pattern stays where it stands, and so does the erased one where it has been
    searched. -/
theorem survives (h : Erasing pattern front text cuts kept) (hapart : Apart pattern other)
    (hne : other ≠ []) {j : Nat} (hj : other <+: (front ++ text).drop j)
    (hstays : j < front.length ∨ other ≠ pattern) : other <:+: kept := by
  induction h generalizing j with
  | nil =>
    rw [List.append_nil] at hj
    exact infix_iff_exists_drop.2 ⟨j, hj⟩
  | @hit front after cuts kept next ih =>
    have hpattern : pattern <+: (front ++ (pattern ++ after)).drop front.length := by
      rw [List.drop_left]
      exact List.prefix_append _ _
    rcases hapart _ _ _ hpattern hj with ⟨hat, heq⟩ | hbehind | hbefore
    · rcases hstays with hlt | hother
      · exact absurd hat (by omega)
      · exact absurd heq.symm hother
    · -- It stands behind the erased one, and moves up to the seam.
      obtain ⟨i, rfl⟩ : ∃ i, j = front.length + (pattern.length + i) :=
        ⟨j - front.length - pattern.length, by omega⟩
      have hmoved : other <+: (front ++ after).drop (front.length + i) := by
        rw [← List.drop_drop, List.drop_left] at hj ⊢
        rwa [← List.drop_drop, List.drop_left] at hj
      apply ih hmoved
      rcases hstays with hlt | hother
      · omega
      · exact Or.inr hother
    · have hpos := List.length_pos_iff.2 hne
      have hlt : j < front.length := by omega
      have hstill : other <+: (front ++ after).drop j := by
        rw [List.drop_append_of_le_length (Nat.le_of_lt hlt)] at hj ⊢
        apply List.IsPrefix.trans _ (List.prefix_append _ _)
        apply List.prefix_of_prefix_length_le hj (List.prefix_append _ _)
        rw [List.length_drop]
        omega
      exact ih hstill (Or.inl hlt)
  | @skip front b rest cuts kept hother next ih =>
    have hsame : other <+: (front ++ [b] ++ rest).drop j := by
      rwa [List.append_assoc, List.singleton_append]
    apply ih hsame
    rcases hstays with hlt | hne'
    · left
      rw [List.length_append]
      omega
    · exact Or.inr hne'

/-- A pattern that a cut closes is there in the end. -/
theorem closed (h : Erasing pattern front text cuts kept) (hapart : Apart pattern other)
    (hne : other ≠ []) {c : Cut} (hc : c ∈ cuts) (hcloses : c.Closes other) : other <:+: kept := by
  induction h with
  | nil => exact absurd hc List.not_mem_nil
  | @hit front after cuts kept next ih =>
    rcases List.mem_cons.1 hc with rfl | hc
    · obtain ⟨left, right, hleft, -, rfl, ⟨before, hbefore⟩, hright⟩ := hcloses
      have hfront : before ++ left = front := hbefore
      have hseam : left ++ right <+: (front ++ after).drop before.length := by
        rw [← hfront, List.append_assoc, List.drop_left]
        exact (List.prefix_append_right_inj _).2 hright
      apply next.survives hapart hne hseam
      left
      rw [← hfront, List.length_append]
      have := List.length_pos_iff.2 hleft
      omega
    · exact ih hc
  | skip other next ih => exact ih hc

end Erasing

/-! ## The forms -/

theorem prefix_drop {i d : Nat} (h : pattern <+: text.drop i) (hd : d ≤ pattern.length) :
    pattern.drop d <+: text.drop (i + d) := by
  obtain ⟨after, hafter⟩ := h
  rw [← List.drop_drop, ← hafter, List.drop_append_of_le_length hd]
  exact List.prefix_append _ _

/-- Patterns of which none begins inside the other do not overlap. -/
theorem apart_of_not_prefix
    (hinside : ∀ d < pattern.length, 0 < d → ¬ (pattern.drop d <+: other ∨ other <+: pattern.drop d))
    (hinside' : ∀ d < other.length, 0 < d → ¬ (other.drop d <+: pattern ∨ pattern <+: other.drop d))
    (hsame : pattern = other ∨ ¬ (pattern <+: other ∨ other <+: pattern)) :
    Apart pattern other := by
  intro text i j hi hj
  rcases Nat.lt_trichotomy i j with hlt | rfl | hlt
  · by_cases hle : i + pattern.length ≤ j
    · exact Or.inr (Or.inl hle)
    · have hdrop := prefix_drop (d := j - i) hi (by omega)
      rw [Nat.add_sub_cancel' (Nat.le_of_lt hlt)] at hdrop
      exact absurd (List.prefix_or_prefix_of_prefix hdrop hj)
        (hinside (j - i) (by omega) (by omega))
  · rcases hsame with heq | hother
    · exact Or.inl ⟨rfl, heq⟩
    · exact absurd (List.prefix_or_prefix_of_prefix hi hj) hother
  · by_cases hle : j + other.length ≤ i
    · exact Or.inr (Or.inr hle)
    · have hdrop := prefix_drop (d := i - j) hj (by omega)
      rw [Nat.add_sub_cancel' (Nat.le_of_lt hlt)] at hdrop
      exact absurd (List.prefix_or_prefix_of_prefix hdrop hi)
        (hinside' (i - j) (by omega) (by omega))

theorem ofString_form_ne_nil : ∀ form ∈ emptyForms, Bytes.ofString form ≠ [] := by
  decide

theorem ofString_form_inj : ∀ form ∈ emptyForms, ∀ form' ∈ emptyForms,
    Bytes.ofString form = Bytes.ofString form' → form = form' := by
  decide

/-- No form begins inside another one: each has one `<w:`, at its start. -/
theorem apart_forms {form form' : String} (h : form ∈ emptyForms) (h' : form' ∈ emptyForms) :
    Apart (Bytes.ofString form) (Bytes.ofString form') := by
  have hall : ∀ f ∈ emptyForms, ∀ g ∈ emptyForms,
      (∀ d < (Bytes.ofString f).length, 0 < d →
        ¬ ((Bytes.ofString f).drop d <+: Bytes.ofString g ∨
          Bytes.ofString g <+: (Bytes.ofString f).drop d)) ∧
      (Bytes.ofString f = Bytes.ofString g ∨
        ¬ (Bytes.ofString f <+: Bytes.ofString g ∨ Bytes.ofString g <+: Bytes.ofString f)) := by
    decide +kernel
  exact apart_of_not_prefix (hall form h form' h').1 (hall form' h' form h).1
    (hall form h form' h').2

/-- After the turn of a form, one of the forms whose turn has come is there if a deletion has closed
    it, or if it was there before. -/
theorem exists_infix_eraseAll_iff {past : List String} {form : String}
    (hpast : ∀ f ∈ past, f ∈ emptyForms) (hform : form ∈ emptyForms) (hnew : form ∉ past)
    (text : Bytes) :
    (∃ f ∈ past ++ [form],
        Bytes.ofString f <:+: (Bytes.eraseAll (Bytes.ofString form) text).2) ↔
      (∃ c ∈ eraseCuts (Bytes.ofString form) [] text, ∃ f ∈ past ++ [form],
        c.Closes (Bytes.ofString f)) ∨ ∃ f ∈ past, Bytes.ofString f <:+: text := by
  have hforms : ∀ f ∈ past ++ [form], f ∈ emptyForms := by
    intro f hf
    rcases List.mem_append.1 hf with hf | hf
    · exact hpast f hf
    · exact List.mem_singleton.1 hf ▸ hform
  have herasing := erasing_eraseAll (ofString_form_ne_nil form hform) [] text
  rw [List.nil_append] at herasing
  constructor
  · intro ⟨f, hf, hin⟩
    by_contra hnone
    rw [not_or] at hnone
    obtain ⟨hopen, hbefore⟩ := hnone
    have hclosed : ∀ c ∈ eraseCuts (Bytes.ofString form) [] text, ¬ c.Closes (Bytes.ofString f) :=
      fun c hc hcloses => hopen ⟨c, hc, f, hf, hcloses⟩
    apply herasing.absent (ofString_form_ne_nil f (hforms f hf)) hclosed _ hin
    -- A past form was not there, and the form itself only ahead.
    intro j hj
    rcases List.mem_append.1 hf with hf | hf
    · exact absurd ⟨f, hf, infix_iff_exists_drop.2 ⟨j, hj⟩⟩ hbefore
    · rw [List.mem_singleton.1 hf]
      exact ⟨rfl, Nat.zero_le j⟩
  · intro h
    rcases h with ⟨c, hc, f, hf, hcloses⟩ | ⟨f, hf, hin⟩
    · exact ⟨f, hf, herasing.closed (apart_forms hform (hforms f hf))
        (ofString_form_ne_nil f (hforms f hf)) hc hcloses⟩
    · obtain ⟨j, hj⟩ := infix_iff_exists_drop.1 hin
      have hne : Bytes.ofString f ≠ Bytes.ofString form := by
        intro heq
        rw [ofString_form_inj f (hpast f hf) form hform heq] at hf
        exact hnew hf
      exact ⟨f, List.mem_append_left _ hf, herasing.survives (apart_forms hform (hpast f hf))
        (ofString_form_ne_nil f (hpast f hf)) hj (Or.inr hne)⟩

/-- After the turns of all forms, one of them is there if a deletion has closed it after its turn
    had come, or if it is a past one that was there before. -/
theorem exists_infix_foldl_iff (past forms : List String) (hnodup : (past ++ forms).Nodup)
    (hall : ∀ f ∈ past ++ forms, f ∈ emptyForms) (text : Bytes) :
    (∃ f ∈ past ++ forms, Bytes.ofString f <:+:
        forms.foldl (fun text form => (Bytes.eraseAll (Bytes.ofString form) text).2) text) ↔
      Reopens past forms text ∨ ∃ f ∈ past, Bytes.ofString f <:+: text := by
  induction forms generalizing past text with
  | nil => simp [Reopens]
  | cons form forms ih =>
    have hsplit : past ++ form :: forms = (past ++ [form]) ++ forms := List.append_cons _ _ _
    have hnew : form ∉ past := by
      intro hmem
      exact (List.nodup_append.1 hnodup).2.2 form hmem form List.mem_cons_self rfl
    have hpast : ∀ f ∈ past, f ∈ emptyForms := fun f hf => hall f (List.mem_append_left _ hf)
    have hform : form ∈ emptyForms := hall form (List.mem_append_right _ List.mem_cons_self)
    rw [hsplit] at hnodup hall ⊢
    rw [List.foldl_cons, ih (past ++ [form]) hnodup hall, exists_infix_eraseAll_iff hpast hform hnew, Reopens]
    constructor
    · intro h
      rcases h with h | h | h
      · exact Or.inl (Or.inr h)
      · exact Or.inl (Or.inl h)
      · exact Or.inr h
    · intro h
      rcases h with (h | h) | h
      · exact Or.inr (Or.inl h)
      · exact Or.inl h
      · exact Or.inr (Or.inr h)

/-! ## A second pass -/

theorem eraseAll_of_absent (h : ¬ pattern <:+: text) :
    Bytes.eraseAll pattern text = (0, text) := by
  induction text with
  | nil => rw [Bytes.eraseAll]
  | cons b rest ih =>
    have hhere : ¬ pattern <+: b :: rest := fun hpre => h hpre.isInfix
    have hrest : ¬ pattern <:+: rest := fun hin => h (hin.trans (List.suffix_cons b rest).isInfix)
    rw [Bytes.eraseAll, if_neg (mt List.isPrefixOf_iff_prefix.1 hhere), ih hrest]

theorem eraseAll_fst_pos (hne : pattern ≠ []) (h : pattern <:+: text) :
    0 < (Bytes.eraseAll pattern text).1 := by
  induction text with
  | nil => exact absurd (List.infix_nil.1 h) hne
  | cons b rest ih =>
    rw [Bytes.eraseAll]
    split
    · exact Nat.succ_pos _
    · next hpre =>
      rw [List.isPrefixOf_iff_prefix] at hpre
      rcases List.infix_cons_iff.1 h with hhere | hrest
      · exact absurd hhere hpre
      · exact ih hrest

/-- Some forms change nothing exactly if none of them is there. -/
theorem foldl_erase_eq_iff {forms : List String} (hforms : ∀ form ∈ forms, form ∈ emptyForms)
    (pass : Pass) : forms.foldl Pass.erase pass = pass ↔
      ∀ form ∈ forms, ¬ Bytes.ofString form <:+: pass.text := by
  induction forms generalizing pass with
  | nil => simp
  | cons form forms ih =>
    rw [List.forall_mem_cons] at hforms ⊢
    rw [List.foldl_cons]
    by_cases hin : Bytes.ofString form <:+: pass.text
    · -- The form counts, and no further one takes that back.
      have hpos := eraseAll_fst_pos (ofString_form_ne_nil form hforms.1) hin
      obtain ⟨cuts, -, hcount, -⟩ := foldl_erase_cuts hforms.2 (pass.erase form)
      have hmore : (pass.erase form).collapsed =
          pass.collapsed + (Bytes.eraseAll (Bytes.ofString form) pass.text).1 := rfl
      constructor
      · intro heq
        rw [heq] at hcount
        omega
      · intro h
        exact absurd hin h.1
    · have hstay : pass.erase form = pass := by
        rw [Pass.erase, eraseAll_of_absent hin]
        rfl
      rw [hstay, ih hforms.2]
      exact ⟨fun h => ⟨hin, h⟩, fun h => h.2⟩

/-- The pass leaves no form behind exactly if none of its deletions closes one whose turn has come.
    Then a second pass changes nothing and deletes nothing, and otherwise it does. -/
theorem removeEmptyProperties_settled_iff (text : Bytes) :
    ((∀ form ∈ emptyForms, ¬ Bytes.ofString form <:+: (removeEmptyProperties text).text) ↔
      ¬ Reopens [] emptyForms text) ∧
    (removeEmptyProperties (removeEmptyProperties text).text =
        { text := (removeEmptyProperties text).text } ↔ ¬ Reopens [] emptyForms text) := by
  have hiff := exists_infix_foldl_iff [] emptyForms (by decide) (fun _ h => h) text
  rw [List.nil_append] at hiff
  have htext : (removeEmptyProperties text).text =
      emptyForms.foldl (fun text form => (Bytes.eraseAll (Bytes.ofString form) text).2) text :=
    text_foldl_eraseAll emptyForms { text }
  have hsettled : (∀ form ∈ emptyForms,
      ¬ Bytes.ofString form <:+: (removeEmptyProperties text).text) ↔
        ¬ Reopens [] emptyForms text := by
    rw [htext]
    constructor
    · intro h hopen
      obtain ⟨f, hf, hin⟩ := hiff.2 (Or.inl hopen)
      exact h f hf hin
    · intro hopen f hf hin
      rcases hiff.1 ⟨f, hf, hin⟩ with h | ⟨f, hf, -⟩
      · exact hopen h
      · exact List.not_mem_nil hf
  refine ⟨hsettled, ?_⟩
  rw [← hsettled]
  exact foldl_erase_eq_iff (fun _ h => h) { text := (removeEmptyProperties text).text }

/-- The run properties in some paragraph properties go in the last turn but one, and what is left
    of the paragraph properties has had its turn. -/
theorem not_forall_removeEmptyProperties_settled :
    ¬ ∀ text : Bytes,
      (∀ form ∈ emptyForms, ¬ Bytes.ofString form <:+: (removeEmptyProperties text).text) ∧
      removeEmptyProperties (removeEmptyProperties text).text =
        { text := (removeEmptyProperties text).text } := by
  intro h
  have hleft := (h (Bytes.ofString "<w:p><w:pPr><w:rPr/></w:pPr></w:p>")).2
  revert hleft
  decide +kernel

end DocxTemplate.Sanitize
