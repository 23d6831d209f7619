import Mathlib.Algebra.Order.BigOperators.Group.List
import Mathlib.Algebra.Order.Group.Nat
import DocxTemplate.Template.Substitution

/-! # What rendering reads

    Rendering looks at nothing of the data but the values of the names that the source asks for,
    and at all of these.

    * `Piece.flatMap_raw_ofSource`: the pieces of a source put together are the source.
    * `Substitution.render_congr`: data that agree on the names give the same text.
    * `Substitution.length_render_lt`: a value in place of none makes the text longer.
    * `Data.missing_eq`: the names that are noted on the way are those without a value.
-/

namespace DocxTemplate

variable {source text : Bytes} {data data' : Data} {name : String}

/-! ## Pieces -/

theorem Name.leading_prefix (text : Bytes) : leading text <+: text := by
  unfold leading
  split
  · split
    · next b rest _ =>
      obtain ⟨tail, htail⟩ := List.takeWhile_prefix isInner (l := rest)
      exact ⟨tail, by rw [List.cons_append, htail]⟩
    · exact List.nil_prefix
  · exact List.nil_prefix

/-- A placeholder that is read stands at the start of the text as it is written. -/
theorem Placeholder.exists_of_read? {p : Placeholder} (h : read? text = some p) :
    ∃ tail, text = p.raw ++ tail := by
  have hcut : ∀ (l : Bytes) n, l = l.take n ++ l.drop (l.take n).length := by
    intro l n
    have hprefix := List.take_prefix n l
    exact (List.prefix_iff_eq_append.1 hprefix).symm
  rw [read?] at h
  split at h
  · next hopening =>
    dsimp only at h
    split at h
    · next hclosing =>
      rw [Bool.and_eq_true] at hclosing
      cases h
      have hinner := List.prefix_iff_eq_append.1 (List.isPrefixOf_iff_prefix.1 hopening)
      have hbefore := hcut (text.drop opening.length) (Blank.leading (text.drop opening.length))
      generalize (text.drop opening.length).take _ = before at hbefore hclosing ⊢
      have hletters := List.prefix_iff_eq_append.1
        (Name.leading_prefix ((text.drop opening.length).drop before.length))
      generalize Name.leading ((text.drop opening.length).drop before.length) = letters
        at hletters hclosing ⊢
      generalize ((text.drop opening.length).drop before.length).drop letters.length = rest
        at hletters hclosing ⊢
      have hafter := hcut rest (Blank.leading rest)
      generalize rest.take (Blank.leading rest) = after at hafter hclosing ⊢
      have htail := List.prefix_iff_eq_append.1 (List.isPrefixOf_iff_prefix.1 hclosing.2)
      refine ⟨(rest.drop after.length).drop closing.length, ?_⟩
      unfold raw
      simp only [List.append_assoc]
      rw [htail, ← hafter, hletters, ← hbefore, hinner]
    · cases h
  · cases h

/-- The pieces of a source put together are the source. -/
theorem Piece.flatMap_raw_ofSource (source : Bytes) : (ofSource source).flatMap raw = source := by
  fun_induction ofSource source with
  | case1 => rfl
  | case2 b rest p hread ih =>
    obtain ⟨tail, htail⟩ := Placeholder.exists_of_read? hread
    have hraw : p.raw = b :: p.raw.tail := by
      cases hp : p.raw with
      | nil => simp [Placeholder.raw, Placeholder.opening, Bytes.ofString] at hp
      | cons b' raw =>
        rw [hp, List.cons_append, List.cons.injEq] at htail
        rw [htail.1, List.tail_cons]
    rw [List.flatMap_cons, ih, raw]
    rw [hraw, List.cons_append, List.cons.injEq] at htail
    have hlength : p.raw.length - 1 = p.raw.tail.length := by rw [List.length_tail]
    rw [hlength, htail.2, List.drop_left, ← List.cons_append, ← hraw]
  | case3 b rest hread ih => rw [List.flatMap_cons, ih, raw, List.singleton_append]

theorem mem_placeholderNames_iff : name ∈ placeholderNames source ↔
    ∃ p, Piece.slot p ∈ Piece.ofSource source ∧ p.name = name := by
  rw [placeholderNames, List.mem_eraseDups, List.mem_filterMap]
  constructor
  · rintro ⟨piece, hpiece, hname⟩
    cases piece with
    | literal b => cases hname
    | slot p => exact ⟨p, hpiece, Option.some.inj hname⟩
  · rintro ⟨p, hp, rfl⟩
    exact ⟨_, hp, rfl⟩

/-! ## Data -/

namespace Data

/-- The entries with the value of one name replaced. -/
theorem lookup_map_replace (entries : List (String × String)) (name value other : String) :
    (entries.map fun (k, v) => if k == name then (k, value) else (k, v)).lookup other =
      if other = name then (entries.lookup name).map fun _ => value else entries.lookup other := by
  induction entries with
  | nil => simp
  | cons entry entries ih =>
    obtain ⟨k, v⟩ := entry
    rw [List.map_cons]
    dsimp only
    by_cases hk : k = name
    · subst hk
      rw [if_pos BEq.rfl, List.lookup_cons, List.lookup_cons, List.lookup_cons, ih]
      by_cases hother : other = k
      · simp [hother]
      · simp [beq_eq_false_iff_ne.2 hother, hother]
    · have hname : (name == k) = false := beq_eq_false_iff_ne.2 (Ne.symm hk)
      rw [if_neg (by simpa using hk), List.lookup_cons, List.lookup_cons, List.lookup_cons, ih, hname]
      by_cases hother : other = name
      · subst hother
        simp [hname]
      · simp [hother]

theorem get?_insert (data : Data) (name value other : String) :
    (data.insert name value).get? other = if other = name then some value else data.get? other := by
  unfold insert
  split
  · next hsome =>
    obtain ⟨old, hold⟩ := Option.isSome_iff_exists.1 hsome
    rw [get?] at hold
    rw [get?, lookup_map_replace, hold]
    rfl
  · next hnone =>
    rw [Bool.not_eq_true, Option.isSome_eq_false_iff, Option.isNone_iff_eq_none] at hnone
    by_cases hother : other = name
    · subst hother
      rw [get?, List.lookup_append, ← get?, hnone]
      simp
    · rw [get?, List.lookup_append, if_neg hother, get?]
      simp [beq_eq_false_iff_ne.2 hother]

/-- The names that are noted on the way are the distinct names without a value. -/
theorem missing_eq (data : Data) (source : Bytes) : data.missing source =
    (((Piece.ofSource source).filterMap Piece.name?).filter fun name =>
      (data.get? name).isNone).eraseDups := by
  have hfold : ∀ (pieces : List Piece) (noted : List String), pieces.foldl data.note noted =
      noted ++ ((pieces.filterMap Piece.name?).filter fun name =>
        (data.get? name).isNone && !noted.contains name).eraseDups := by
    intro pieces
    induction pieces with
    | nil => simp
    | cons piece pieces ih =>
      intro noted
      rw [List.foldl_cons, ih, List.filterMap_cons, note]
      cases hname : piece.name? with
      | none => rfl
      | some name =>
        dsimp only
        split
        · next hnew =>
          rw [List.filter_cons, if_pos hnew, List.eraseDups_cons, List.append_assoc,
            List.singleton_append, List.filter_filter]
          congr 3
          apply List.filter_congr
          intro other _
          simp only [List.contains_eq_mem, List.mem_append, List.mem_singleton]
          by_cases hother : other = name <;> simp [hother, Bool.and_comm]
        · next hold => rw [List.filter_cons, if_neg hold]
  rw [missing, hfold]
  simp

/-- Without any data these are all names. -/
theorem missing_empty (source : Bytes) : ({} : Data).missing source = placeholderNames source := by
  have hnone : ∀ name : String, (({} : Data).get? name).isNone = true := fun _ => rfl
  simp [missing_eq, hnone, placeholderNames]

end Data

/-! ## Texts -/

namespace Xml

theorem length_escapeByte_pos (b : UInt8) : 0 < (escapeByte b).length := by
  unfold escapeByte
  split
  · decide
  · split
    · decide
    · split
      · decide
      · exact Nat.one_pos

/-- Nothing but the empty text is written as nothing. -/
theorem escape_eq_nil_iff : escape text = [] ↔ text = [] := by
  cases text with
  | nil => simp [escape]
  | cons b rest =>
    have hpos := length_escapeByte_pos b
    rw [escape, List.flatMap_cons]
    constructor
    · intro h
      rw [(List.append_eq_nil_iff.1 h).1] at hpos
      cases hpos
    · exact nofun

end Xml

theorem Bytes.ofString_eq_nil_iff {s : String} : ofString s = [] ↔ s = "" := by
  constructor
  · intro h
    rw [ofString, List.flatMap_eq_nil_iff] at h
    refine String.toList_eq_nil_iff.1 (List.eq_nil_iff_forall_not_mem.2 fun c hc => ?_)
    exact String.utf8EncodeChar_ne_nil (h c hc)
  · rintro rfl
    rfl

namespace Substitution

/-- Data that agree on the names of a source give the same text. -/
theorem render_congr (s : Substitution)
    (h : ∀ name ∈ placeholderNames source, data.get? name = data'.get? name) :
    s.render data source = s.render data' source := by
  apply List.flatMap_congr
  intro piece hpiece
  cases piece with
  | literal b => rfl
  | slot p => rw [replacement, replacement, h _ (mem_placeholderNames_iff.2 ⟨p, hpiece, rfl⟩)]

/-- A source without placeholders stays as it is. -/
theorem render_of_placeholderNames (s : Substitution) (data : Data)
    (h : placeholderNames source = []) : s.render data source = source := by
  have hraw : s.render data source = (Piece.ofSource source).flatMap Piece.raw := by
    apply List.flatMap_congr
    intro piece hpiece
    cases piece with
    | literal b => rfl
    | slot p =>
      have hname := mem_placeholderNames_iff.2 ⟨p, hpiece, rfl⟩
      rw [h] at hname
      cases hname
  rw [hraw, Piece.flatMap_raw_ofSource]

/-- A value that is not empty makes the text longer than no value or the empty one, if unknown
    placeholders are deleted. -/
theorem length_render_lt {s : Substitution} (hs : s.keepUnknown = false) {value : String}
    (hname : name ∈ placeholderNames source)
    (hother : ∀ other, other ≠ name → data.get? other = data'.get? other)
    (hbefore : ∀ old, data.get? name = some old → old = "") (hvalue : value ≠ "")
    (hafter : data'.get? name = some value) :
    (s.render data source).length < (s.render data' source).length := by
  have hempty : ∀ p : Placeholder, p.name = name → s.replacement data (.slot p) = [] := by
    rintro p rfl
    rw [replacement]
    cases hold : data.get? p.name with
    | none => simp [hs]
    | some old => simp [hbefore old hold, Bytes.ofString, Xml.escape]
  have hlonger : ∀ p : Placeholder, p.name = name → s.replacement data' (.slot p) ≠ [] := by
    rintro p rfl
    have hne := mt Bytes.ofString_eq_nil_iff.1 hvalue
    rw [replacement, hafter]
    dsimp only
    split
    · exact mt Xml.escape_eq_nil_iff.1 hne
    · exact hne
  obtain ⟨p, hp, hpname⟩ := mem_placeholderNames_iff.1 hname
  rw [render, render, List.length_flatMap, List.length_flatMap]
  refine List.sum_lt_sum _ _ (fun piece _ => ?_) ⟨.slot p, hp, ?_⟩
  · cases piece with
    | literal b => exact le_refl _
    | slot q =>
      by_cases hq : q.name = name
      · rw [hempty q hq]
        exact Nat.zero_le _
      · rw [replacement, replacement, hother _ hq]
  · rw [hempty p hpname]
    exact List.length_pos_iff.2 (hlonger p hpname)

end Substitution

end DocxTemplate
