import DocxTemplate.Proofs.Template.Rendering
import DocxTemplate.Proofs.Text.Utf8

/-! # Cutting a source

    A source may be cut at any byte that no placeholder holds, such as a quote or an angle bracket:
    what stands on one side of it has no part in the placeholders on the other.

    * `Placeholder.Stops`: the bytes that no placeholder holds (`Placeholder.not_mem_raw`).
    * `Piece.ofSource_append`: the pieces of a source that is cut at such a byte.
    * `Substitution.render_append`: rendering each part by itself.
-/

namespace DocxTemplate

/-! ## Placeholders and what stands behind them -/

/-- A byte that no placeholder holds: a visible ASCII character that belongs to no name and is no
    brace. -/
def Placeholder.Stops (b : UInt8) : Prop :=
  Blank.IsAscii false b ∧ Name.isInner b = false ∧ b ∉ Placeholder.opening ++ Placeholder.closing

instance (b : UInt8) : Decidable (Placeholder.Stops b) := inferInstanceAs (Decidable (_ ∧ _))

theorem Placeholder.stops_of_quote {q : UInt8} (h : q = 0x22 ∨ q = 0x27) : Stops q := by
  rcases h with rfl | rfl <;> decide

theorem Bytes.isPrefixOf_append {pattern : Bytes} {b : UInt8} (hb : b ∉ pattern) (x y : Bytes) :
    pattern.isPrefixOf (x ++ b :: y) = pattern.isPrefixOf x := by
  induction pattern generalizing x with
  | nil => rfl
  | cons c pattern ih =>
    rw [List.mem_cons, not_or] at hb
    cases x with
    | nil => simp [List.isPrefixOf, Ne.symm hb.1]
    | cons a x => rw [List.cons_append, List.isPrefixOf, List.isPrefixOf, ih hb.2]

theorem Name.leading_append {b : UInt8} (hb : Name.isInner b = false) (x y : Bytes) :
    leading (x ++ b :: y) = leading x := by
  cases x with
  | nil =>
    have hstart : isStart b = false := by
      rw [isInner, Bool.or_eq_false_iff, Bool.or_eq_false_iff, Bool.or_eq_false_iff] at hb
      exact hb.1.1.1
    simp [leading, hstart]
  | cons a x =>
    have htake : (x ++ b :: y).takeWhile isInner = x.takeWhile isInner := by
      rw [List.takeWhile_append]
      split
      · next hlength =>
        rw [List.takeWhile_cons_of_neg (by simp [hb]), List.append_nil]
        exact (List.takeWhile_prefix isInner).eq_of_length hlength |>.symm
      · rfl
    rw [List.cons_append, leading, leading, htake]

namespace Placeholder

variable {b : UInt8} {p : Placeholder} {text : Bytes}

/-- Whether a text starts with a placeholder is told in front of the first such byte. -/
theorem read?_append (hb : Stops b) (x y : Bytes) : read? (x ++ b :: y) = read? x := by
  obtain ⟨hascii, hinner, hbrace⟩ := hb
  rw [List.mem_append, not_or] at hbrace
  have hcut : ∀ (n : Nat) (l : Bytes), n ≤ l.length → (l ++ b :: y).take n = l.take n ∧
      (l ++ b :: y).drop n = l.drop n ++ b :: y := fun n l hn =>
    ⟨List.take_append_of_le_length hn, List.drop_append_of_le_length hn⟩
  unfold read?
  rw [Bytes.isPrefixOf_append hbrace.1]
  split
  · next hopening =>
    have hlength := (List.isPrefixOf_iff_prefix.1 hopening).length_le
    dsimp only
    rw [(hcut _ x hlength).2]
    generalize x.drop opening.length = inner
    rw [Blank.leading_append hascii, (hcut _ inner (Blank.leading_le_length inner)).1]
    rw [(hcut _ inner (List.length_take_le' _ _)).2]
    generalize inner.drop (inner.take (Blank.leading inner)).length = rest
    rw [Name.leading_append hinner, (hcut _ rest (Name.leading_prefix rest).length_le).2]
    generalize rest.drop (Name.leading rest).length = tail
    rw [Blank.leading_append hascii, (hcut _ tail (Blank.leading_le_length tail)).1]
    rw [(hcut _ tail (List.length_take_le' _ _)).2, Bytes.isPrefixOf_append hbrace.2]
  · rfl

/-- A placeholder holds none of these bytes. -/
theorem not_mem_raw (h : read? text = some p) (hb : Stops b) : b ∉ p.raw := by
  intro hmem
  obtain ⟨tail, htext⟩ := exists_of_read? h
  obtain ⟨x, y, hraw⟩ := List.append_of_mem hmem
  rw [htext, hraw, List.append_assoc, List.cons_append, read?_append hb] at h
  -- The placeholder would stand before the byte that it holds.
  obtain ⟨tail', hx⟩ := exists_of_read? h
  have hlength := congrArg List.length hx
  rw [hraw] at hlength
  simp only [List.length_append, List.length_cons] at hlength
  omega

end Placeholder

/-! ## Pieces -/

namespace Piece

variable {b : UInt8} {p : Placeholder} {source : Bytes}

/-- Such a byte stands for itself, and the source is cut there. -/
theorem ofSource_append (hb : Placeholder.Stops b) (x y : Bytes) :
    ofSource (x ++ b :: y) = ofSource x ++ literal b :: ofSource y := by
  fun_induction ofSource x with
  | case1 =>
    have hnone : Placeholder.read? (b :: y) = none := by
      have happend := Placeholder.read?_append hb [] y
      rw [List.nil_append] at happend
      rw [happend]
      rfl
    rw [List.nil_append, ofSource, hnone]
    rfl
  | case2 a rest p hread ih =>
    obtain ⟨tail, htail⟩ := Placeholder.exists_of_read? hread
    have hlength := congrArg List.length htail
    rw [List.length_cons, List.length_append] at hlength
    have hread' := Placeholder.read?_append hb (a :: rest) y
    rw [hread, List.cons_append] at hread'
    rw [List.cons_append, ofSource, hread']
    dsimp only
    rw [List.drop_append_of_le_length (by omega), ih, List.cons_append]
  | case3 a rest hread ih =>
    have hread' := Placeholder.read?_append hb (a :: rest) y
    rw [hread, List.cons_append] at hread'
    rw [List.cons_append, ofSource, hread']
    dsimp only
    rw [ih, List.cons_append]

/-- So does any byte that opens no placeholder. -/
theorem ofSource_cons (hb : b ≠ 0x7B) (rest : Bytes) :
    ofSource (b :: rest) = literal b :: ofSource rest := by
  have hnone : Placeholder.read? (b :: rest) = none := by
    have hopening : Placeholder.opening = [0x7B, 0x7B] := by decide
    rw [Placeholder.read?, hopening, if_neg]
    simp [List.isPrefixOf, Ne.symm hb]
  rw [ofSource, hnone]

theorem exists_read?_of_mem (h : slot p ∈ ofSource source) : ∃ text, Placeholder.read? text = some p := by
  fun_induction ofSource source with
  | case1 => cases h
  | case2 b rest q hread ih =>
    rcases List.mem_cons.1 h with heq | h
    · cases heq
      exact ⟨b :: rest, hread⟩
    · exact ih h
  | case3 b rest hread ih =>
    rcases List.mem_cons.1 h with heq | h
    · cases heq
    · exact ih h

/-- The bytes of a piece are bytes of the source. -/
theorem mem_of_mem_raw {piece : Piece} (h : piece ∈ ofSource source) (hb : b ∈ piece.raw) :
    b ∈ source := by
  rw [← flatMap_raw_ofSource source]
  exact List.mem_flatMap.2 ⟨piece, h, hb⟩

end Piece

theorem placeholderNames_eq_nil_iff {source : Bytes} :
    placeholderNames source = [] ↔ ∀ p, Piece.slot p ∉ Piece.ofSource source := by
  rw [List.eq_nil_iff_forall_not_mem]
  constructor
  · intro h p hp
    exact h p.name (mem_placeholderNames_iff.2 ⟨p, hp, rfl⟩)
  · intro h name hname
    obtain ⟨p, hp, -⟩ := mem_placeholderNames_iff.1 hname
    exact h p hp

namespace Substitution

variable (s : Substitution) (data : Data)

theorem render_nil : s.render data [] = [] := by
  rw [render, Piece.ofSource, List.flatMap_nil]

/-- Each part of a source that is cut is rendered by itself. -/
theorem render_append {b : UInt8} (hb : Placeholder.Stops b) (x y : Bytes) :
    s.render data (x ++ b :: y) = s.render data x ++ b :: s.render data y := by
  rw [render, Piece.ofSource_append hb, List.flatMap_append, List.flatMap_cons]
  rfl

theorem render_cons {b : UInt8} (hb : Placeholder.Stops b) (y : Bytes) :
    s.render data (b :: y) = b :: s.render data y := by
  have happend := s.render_append data hb [] y
  rwa [List.nil_append, render_nil, List.nil_append] at happend

end Substitution

end DocxTemplate
