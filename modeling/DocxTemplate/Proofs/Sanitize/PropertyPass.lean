import DocxTemplate.Proofs.Sanitize.Noise

/-! # The property pass

    Erasing the written forms of empty properties, stretch by stretch:

    * `Erases pattern x y`: erasing the pattern turns the stretch `x` into `y`.
    * `prefix_form_iff`: a form starts a tag only if the tag is the first one of the form.
    * `text_removeEmptyProperties`: what is left if one form only occurs.
-/

namespace DocxTemplate

variable {pattern text x y x' y' rest : Bytes}

namespace Bytes

theorem eraseAll_of_not_prefix {b : UInt8} (h : ¬ pattern <+: b :: text) :
    (eraseAll pattern (b :: text)).2 = b :: (eraseAll pattern text).2 := by
  rw [eraseAll, if_neg (mt List.isPrefixOf_iff_prefix.1 h)]

/-- The step behind the first byte of a pattern leaves what stands behind the whole pattern. -/
theorem drop_of_pattern {b : UInt8} (h : pattern ≠ []) (heq : pattern ++ text = b :: rest) :
    rest.drop (pattern.length - 1) = text := by
  cases pattern with
  | nil => exact absurd rfl h
  | cons a pattern =>
    rw [List.cons_append, List.cons.injEq] at heq
    rw [← heq.2]
    exact List.drop_left

theorem eraseAll_pattern_append (h : pattern ≠ []) :
    (eraseAll pattern (pattern ++ text)).2 = (eraseAll pattern text).2 := by
  cases pattern with
  | nil => exact absurd rfl h
  | cons b pattern =>
    have hpre : b :: pattern <+: b :: (pattern ++ text) := ⟨text, rfl⟩
    have hdrop : (pattern ++ text).drop ((b :: pattern).length - 1) = text :=
      drop_of_pattern h List.cons_append
    rw [List.cons_append, eraseAll, if_pos (List.isPrefixOf_iff_prefix.2 hpre), hdrop]

end Bytes

namespace Sanitize

/-! ## One pattern -/

/-- Erasing the pattern turns a stretch of text into another one, whatever follows. -/
def Erases (pattern x y : Bytes) : Prop :=
  ∀ rest, (Bytes.eraseAll pattern (x ++ rest)).2 = y ++ (Bytes.eraseAll pattern rest).2

namespace Erases

/-- A stretch without the pattern stays. -/
theorem of_absent (h : Absent (pattern <+: ·) x) : Erases pattern x x := by
  intro rest
  have hclear := h rest
  clear h
  induction x with
  | nil => rfl
  | cons b x ih =>
    have hhere : ¬ pattern <+: b :: (x ++ rest) := hclear 0 (Nat.zero_lt_succ _)
    rw [List.cons_append, Bytes.eraseAll_of_not_prefix hhere, ih, List.cons_append]
    intro j hj
    exact hclear (j + 1) (Nat.succ_lt_succ hj)

/-- The pattern itself goes. -/
theorem whole (h : pattern ≠ []) : Erases pattern pattern [] :=
  fun _ => Bytes.eraseAll_pattern_append h

theorem append (h : Erases pattern x y) (h' : Erases pattern x' y') :
    Erases pattern (x ++ x') (y ++ y') := by
  intro rest
  rw [List.append_assoc, h, h', List.append_assoc]

theorem flatMap {α : Type} {f g : α → Bytes} {l : List α}
    (h : ∀ a ∈ l, Erases pattern (f a) (g a)) : Erases pattern (l.flatMap f) (l.flatMap g) := by
  induction l with
  | nil => exact fun _ => rfl
  | cons a l ih =>
    rw [List.flatMap_cons, List.flatMap_cons]
    refine (h a List.mem_cons_self).append (ih fun b hb => ?_)
    exact h b (List.mem_cons_of_mem a hb)

/-- What becomes of a stretch if nothing follows. -/
theorem eraseAll_eq (h : Erases pattern x y) : (Bytes.eraseAll pattern x).2 = y := by
  have hwhole := h []
  rwa [List.append_nil, show (Bytes.eraseAll pattern []).2 = [] by rw [Bytes.eraseAll],
    List.append_nil] at hwhole

end Erases

/-! ## The forms -/

/-- The tags with which an empty form starts. -/
def emptyTags : List Bytes := ["w:rPr", "w:pPr", "w:rPr/", "w:pPr/"].map Bytes.ofString

/-- A form is one tag, or a start tag and an end tag. -/
theorem form_eq {form : String} (h : form ∈ emptyForms) : ∃ inner tail,
    Bytes.ofString form = tag inner ++ tail ∧ inner ∈ emptyTags ∧ '>'.toUInt8 ∉ inner ∧
      (inner = Bytes.ofString "w:rPr" → tail = tag (Bytes.ofString "/w:rPr")) := by
  simp only [emptyForms, List.mem_cons, List.not_mem_nil, or_false] at h
  rcases h with rfl | rfl | rfl | rfl
  · exact ⟨Bytes.ofString "w:rPr", tag (Bytes.ofString "/w:rPr"), by decide⟩
  · exact ⟨Bytes.ofString "w:pPr", tag (Bytes.ofString "/w:pPr"), by decide⟩
  · exact ⟨Bytes.ofString "w:rPr/", [], by decide⟩
  · exact ⟨Bytes.ofString "w:pPr/", [], by decide⟩

theorem tag_append_prefix_iff {a b : Bytes} (ha : '>'.toUInt8 ∉ a) (hb : '>'.toUInt8 ∉ b) :
    tag a ++ x <+: tag b ++ rest ↔ a = b ∧ x <+: rest := by
  constructor
  · intro ⟨more, h⟩
    simp only [tag, List.cons_append, List.append_assoc, List.nil_append, List.cons.injEq,
      true_and] at h
    obtain ⟨hab, hrest⟩ := Bytes.append_cons_inj ha hb h
    exact ⟨hab, more, hrest⟩
  · rintro ⟨rfl, more, rfl⟩
    exact ⟨more, by rw [List.append_assoc]⟩

/-- A form stands nowhere in a tag that starts none. -/
theorem absent_form_tag {form : String} {inner : Bytes} (hform : form ∈ emptyForms)
    (hinner : Unbracketed inner) (hother : inner ∉ emptyTags) :
    Absent (Bytes.ofString form <+: ·) (tag inner) := by
  obtain ⟨first, tail, heq, hfirst, hgt, -⟩ := form_eq hform
  rw [heq]
  refine Absent.tag (atTags_pattern _) hinner.1 fun rest hpre => ?_
  rw [tag_append_prefix_iff hgt hinner.2] at hpre
  exact hother (hpre.1 ▸ hfirst)

theorem absent_form_data {form : String} (hform : form ∈ emptyForms) (hx : '<'.toUInt8 ∉ x) :
    Absent (Bytes.ofString form <+: ·) x := by
  obtain ⟨first, tail, heq, -⟩ := form_eq hform
  rw [heq]
  exact Absent.data (atTags_pattern _) hx

/-- The start tag of run properties starts no form if a further tag stands in them. -/
theorem clear_form_properties {form : String} {inner : Bytes} (hform : form ∈ emptyForms)
    (hinner : Unbracketed inner) (hother : inner ≠ Bytes.ofString "/w:rPr") :
    Clear (Bytes.ofString form <+: ·) (tag (Bytes.ofString "w:rPr")) (tag inner ++ rest) := by
  obtain ⟨first, tail, heq, -, hgt, htail⟩ := form_eq hform
  rw [heq]
  refine clear_tag (atTags_pattern _) (by decide) ?_
  change ¬ tag first ++ tail <+: tag (Bytes.ofString "w:rPr") ++ (tag inner ++ rest)
  rw [tag_append_prefix_iff hgt (by decide)]
  intro ⟨hfirst, hpre⟩
  rw [htail hfirst, ← List.append_nil (tag _),
    tag_append_prefix_iff (by decide) hinner.2] at hpre
  exact hother hpre.1.symm

/-! ## All forms -/

theorem text_foldl_eraseAll (forms : List String) (pass : Pass) :
    (forms.foldl (fun pass form =>
      let (n, kept) := Bytes.eraseAll (Bytes.ofString form) pass.text
      { pass with text := kept, collapsed := pass.collapsed + n }) pass).text =
    forms.foldl (fun text form => (Bytes.eraseAll (Bytes.ofString form) text).2) pass.text := by
  induction forms generalizing pass with
  | nil => rfl
  | cons form forms ih => exact ih _

/-- If erasing empty run properties leaves a text in which none of the forms is erased any
    more, this text is the result of the pass. -/
theorem text_removeEmptyProperties (herases : Erases (Bytes.ofString "<w:rPr></w:rPr>") x y)
    (hstays : ∀ form ∈ emptyForms, Erases (Bytes.ofString form) y y) :
    (removeEmptyProperties x).text = y := by
  have hfirst := herases.eraseAll_eq
  have hsame : ∀ form ∈ emptyForms, (Bytes.eraseAll (Bytes.ofString form) y).2 = y :=
    fun form hform => (hstays form hform).eraseAll_eq
  simp only [emptyForms, List.mem_cons, List.not_mem_nil, or_false, forall_eq_or_imp, forall_eq]
    at hsame
  rw [removeEmptyProperties, text_foldl_eraseAll]
  simp only [emptyForms, List.foldl_cons, List.foldl_nil, hfirst, hsame]

end Sanitize

end DocxTemplate
