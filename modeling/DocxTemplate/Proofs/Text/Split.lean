import Mathlib.Data.List.Basic
import DocxTemplate.Text.Split

/-! # Splitting and joining

    The parts of a text determine it, and hold no separator:

    * `Split.on_append`: the parts of two texts with a separator between them.
    * `Split.on_intercalate` and `Split.intercalate_on`: parts without separators are those of
      the text they make, and every text is made of its parts.
-/

namespace DocxTemplate.Split

variable {separator : Char} {cs part : List Char}

theorem chars_ne_nil (separator : Char) (cs : List Char) : chars separator cs ≠ [] := by
  cases cs with
  | nil => exact List.cons_ne_nil _ _
  | cons c cs =>
    rw [chars]
    split
    · exact List.cons_ne_nil _ _
    · split <;> exact List.cons_ne_nil _ _

theorem chars_append (separator : Char) (cs cs' : List Char) :
    chars separator (cs ++ separator :: cs') = chars separator cs ++ chars separator cs' := by
  induction cs with
  | nil => simp [chars]
  | cons c cs ih =>
    rw [List.cons_append, chars, chars, ih]
    split
    · rfl
    · cases hparts : chars separator cs with
      | nil => exact absurd hparts (chars_ne_nil separator cs)
      | cons part parts => rfl

theorem chars_of_not_mem (h : separator ∉ cs) : chars separator cs = [cs] := by
  induction cs with
  | nil => rfl
  | cons c cs ih =>
    rw [List.mem_cons, not_or] at h
    rw [chars, ih h.2, if_neg (by simpa using Ne.symm h.1)]

theorem not_mem_of_mem_chars (h : part ∈ chars separator cs) : separator ∉ part := by
  induction cs generalizing part with
  | nil =>
    rw [chars, List.mem_singleton] at h
    simp [h]
  | cons c cs ih =>
    rw [chars] at h
    split at h
    · rcases List.mem_cons.1 h with rfl | h
      · exact List.not_mem_nil
      · exact ih h
    · next hc =>
      have hne : separator ≠ c := fun heq => hc (by simp [heq])
      cases hparts : chars separator cs with
      | nil => exact absurd hparts (chars_ne_nil separator cs)
      | cons first parts =>
        rw [hparts] at h ih
        rcases List.mem_cons.1 h with rfl | h
        · rw [List.mem_cons, not_or]
          exact ⟨hne, ih List.mem_cons_self⟩
        · exact ih (List.mem_cons_of_mem _ h)

/-- A text is its parts with the separator between them. -/
theorem intercalate_chars (separator : Char) (cs : List Char) :
    [separator].intercalate (chars separator cs) = cs := by
  induction cs with
  | nil => rfl
  | cons c cs ih =>
    rw [chars]
    cases hparts : chars separator cs with
    | nil => exact absurd hparts (chars_ne_nil separator cs)
    | cons part parts =>
      rw [hparts] at ih
      split
      · next hc =>
        rw [List.intercalate_cons_cons, ih]
        simp [eq_of_beq hc]
      · cases parts with
        | nil =>
          rw [List.intercalate_singleton] at ih ⊢
          rw [ih]
        | cons next parts =>
          rw [List.intercalate_cons_cons] at ih ⊢
          rw [List.cons_append, List.cons_append, ih]

theorem on_ne_nil (separator : Char) (s : String) : on separator s ≠ [] :=
  fun h => chars_ne_nil separator s.toList (List.map_eq_nil_iff.1 h)

/-- The parts of two texts with a separator between them. -/
theorem on_append {text s t : String}
    (h : text.toList = s.toList ++ separator :: t.toList) :
    on separator text = on separator s ++ on separator t := by
  rw [on, on, on, h, chars_append, List.map_append]

theorem on_of_not_mem {s : String} (h : separator ∉ s.toList) : on separator s = [s] := by
  rw [on, chars_of_not_mem h, List.map_singleton, String.ofList_toList]

/-- Parts hold no separator. -/
theorem not_mem_of_mem_on {s part : String} (h : part ∈ on separator s) :
    separator ∉ part.toList := by
  obtain ⟨cs, hcs, rfl⟩ := List.mem_map.1 h
  rw [String.toList_ofList]
  exact not_mem_of_mem_chars hcs

/-- Parts without separators are those of the text they make. -/
theorem on_intercalate {parts : List String} (hne : parts ≠ [])
    (hplain : ∀ part ∈ parts, '/' ∉ part.toList) : on '/' ("/".intercalate parts) = parts := by
  induction parts with
  | nil => exact absurd rfl hne
  | cons part parts ih =>
    have hpart := on_of_not_mem (hplain part List.mem_cons_self)
    cases parts with
    | nil => rw [String.intercalate_singleton, hpart]
    | cons next parts =>
      have hnext := ih (List.cons_ne_nil _ _) fun q hq => hplain q (List.mem_cons_of_mem _ hq)
      have htext : (part ++ "/" ++ "/".intercalate (next :: parts)).toList =
          part.toList ++ '/' :: ("/".intercalate (next :: parts)).toList := by
        simp
      rw [String.intercalate_cons_cons, on_append htext, hpart, hnext, List.singleton_append]

/-- Every text is made of its parts. -/
theorem intercalate_on (s : String) : "/".intercalate (on '/' s) = s := by
  apply String.ext
  rw [String.toList_intercalate, on, List.map_map]
  have hparts : (chars '/' s.toList).map (String.toList ∘ String.ofList) = chars '/' s.toList := by
    simp [Function.comp_def]
  rw [hparts]
  exact intercalate_chars '/' s.toList

end DocxTemplate.Split
