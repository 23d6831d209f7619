import DocxTemplate.Proofs.Template.Pieces
import DocxTemplate.Proofs.Text.Names

/-! # Where placeholders stand

    A placeholder is well-formed if there are blanks and nothing else around a name. It occurs in a
    source wherever its text stands, whatever surrounds it: further braces in front of it or behind
    it are no part of it.

    * `Placeholder.read?_eq_some_iff`: what is read at the start of a text is what occurs there.
    * `Occurs.disjoint`: two occurrences have no byte in common.
    * `Piece.mem_places_iff`: the reader finds every occurrence.
-/

namespace DocxTemplate

variable {source text : Bytes} {p q : Placeholder} {i j : Nat}

/-! ## Blanks -/

namespace Blank

/-- A text that consists of blanks and nothing else. -/
theorem allBlank_iff : AllBlank text ↔
    ∃ cs : List Char, text = cs.flatMap String.utf8EncodeChar ∧ ∀ c ∈ cs, isBlank c = true := by
  simp only [AllBlank, Utf8.decodeFrom_eq_ok_iff]

theorem leading_of_allBlank (h : AllBlank text) : leading text = text.length := by
  obtain ⟨cs, rfl, hblank⟩ := allBlank_iff.1 h
  clear h
  induction cs with
  | nil => rw [List.flatMap_nil, leading, List.length_nil]
  | cons c cs ih =>
    have hhead := Utf8.head_utf8EncodeChar c (cs.flatMap String.utf8EncodeChar)
    have hsize := String.length_utf8EncodeChar c
    have hpos := c.utf8Size_pos
    have hrest := ih fun d hd => hblank d (List.mem_cons_of_mem c hd)
    rw [List.flatMap_cons]
    generalize cs.flatMap String.utf8EncodeChar = rest at hhead hrest ⊢
    cases hbytes : String.utf8EncodeChar c with
    | nil =>
      rw [hbytes, List.length_nil] at hsize
      omega
    | cons b bytes =>
      rw [hbytes, List.length_cons] at hsize
      rw [hbytes] at hhead
      have hwidth : width (b :: bytes ++ rest) = bytes.length + 1 := by
        rw [width, hhead]
        dsimp only
        rw [if_pos (hblank c List.mem_cons_self), hsize]
      rw [List.cons_append] at hwidth ⊢
      rw [leading, hwidth]
      dsimp only
      rw [List.drop_left, hrest, List.length_cons, List.length_append]
      omega

/-- A visible ASCII character is none of the blanks. -/
theorem AllBlank.not_mem (h : AllBlank text) {b : UInt8} (hb : IsAscii false b) : b ∉ text := by
  intro hmem
  exact leading_ne_length hmem hb (leading_of_allBlank h)

/-- The blanks in front of a visible ASCII character are all read. -/
theorem AllBlank.leading_append (h : AllBlank text) {b : UInt8} (hb : IsAscii false b)
    (rest : Bytes) : leading (text ++ b :: rest) = text.length := by
  rw [Blank.leading_append hb, leading_of_allBlank h]

end Blank

/-! ## Well-formed placeholders -/

namespace Placeholder

/-- Blanks, a name, and blanks. -/
structure WellFormed (p : Placeholder) : Prop where
  /-- Nothing but blanks stands before the name. -/
  before : Blank.AllBlank p.before
  /-- The name is one. -/
  name : Name.IsName p.letters
  /-- Nothing but blanks stands after the name. -/
  after : Blank.AllBlank p.after

/-- What stands behind the opening of a placeholder. -/
def inside (p : Placeholder) : Bytes :=
  p.before ++ p.letters ++ p.after ++ closing

theorem raw_eq (p : Placeholder) : p.raw = 0x7B :: 0x7B :: p.inside := by
  have hopening : opening = [0x7B, 0x7B] := by decide
  rw [raw, inside, hopening]
  simp only [List.append_assoc, List.cons_append, List.nil_append]

theorem closing_eq : closing = [0x7D, 0x7D] := by decide

theorem isAscii_brace : Blank.IsAscii false 0x7B ∧ Blank.IsAscii false 0x7D := by decide

theorem length_raw (p : Placeholder) : 4 ≤ p.raw.length := by
  rw [raw_eq, inside, closing_eq]
  simp only [List.length_cons, List.length_append]
  omega

/-- There is no opening brace behind the opening of a placeholder. -/
theorem WellFormed.lt_two (h : p.WellFormed) {k : Nat} (hk : p.raw[k]? = some 0x7B) : k < 2 := by
  have hinside : (0x7B : UInt8) ∉ p.inside := by
    rw [inside, closing_eq]
    simp only [List.mem_append, not_or]
    refine ⟨⟨⟨h.before.not_mem isAscii_brace.1, fun hmem => ?_⟩,
      h.after.not_mem isAscii_brace.1⟩, by decide⟩
    exact (Name.isAscii_of_isInner (h.name.isInner_of_mem hmem)).2.1 rfl
  rw [raw_eq] at hk
  match k with
  | 0 => decide
  | 1 => decide
  | k + 2 =>
    rw [List.getElem?_cons_succ, List.getElem?_cons_succ] at hk
    exact absurd (List.mem_of_getElem? hk) hinside

/-- A placeholder that is read is well-formed. -/
theorem wellFormed_of_read? (h : read? text = some p) : p.WellFormed := by
  rw [read?] at h
  split at h
  · dsimp only at h
    split at h
    · next hname =>
      rw [Bool.and_eq_true, Bool.not_eq_true', List.isEmpty_eq_false_iff] at hname
      cases h
      exact ⟨Blank.allBlank_take_leading _, Name.isName_leading hname.1,
        Blank.allBlank_take_leading _⟩
    · cases h
  · cases h

/-- A well-formed placeholder is read wherever its text stands. -/
theorem WellFormed.read?_append (h : p.WellFormed) (tail : Bytes) :
    read? (p.raw ++ tail) = some p := by
  obtain ⟨b, rest, hletters, hstart, -⟩ := id h.name
  -- The name ends at a blank or at a brace.
  obtain ⟨c, behind, hbehind, hc⟩ : ∃ c behind, p.after ++ closing ++ tail = c :: behind ∧
      Name.isInner c = false := by
    cases hafter : p.after with
    | nil => exact ⟨0x7D, 0x7D :: tail, by rw [closing_eq]; rfl, by decide⟩
    | cons c after =>
      refine ⟨c, after ++ closing ++ tail, rfl, ?_⟩
      by_contra hinner
      have hascii := (Name.isAscii_of_isInner (Bool.not_eq_false _ ▸ hinner)).1
      exact h.after.not_mem hascii (by rw [hafter]; exact List.mem_cons_self)
  have hbefore : Blank.leading (p.before ++ (p.letters ++ (p.after ++ closing ++ tail))) =
      p.before.length := by
    rw [hletters, List.cons_append]
    exact h.before.leading_append
      (Name.isAscii_of_isInner (Name.isInner_of_isStart hstart)).1 _
  have hname : Name.leading (p.letters ++ (p.after ++ closing ++ tail)) = p.letters := by
    rw [hbehind, Name.leading_append hc, h.name.leading_eq]
  have hafter : Blank.leading (p.after ++ closing ++ tail) = p.after.length := by
    rw [closing_eq, List.append_assoc]
    exact h.after.leading_append isAscii_brace.2 _
  have hraw : p.raw ++ tail =
      opening ++ (p.before ++ (p.letters ++ (p.after ++ closing ++ tail))) := by
    simp only [raw, List.append_assoc]
  have hnonempty : p.letters.isEmpty = false := by rw [hletters]; rfl
  have hclosing : closing.isPrefixOf (closing ++ tail) = true :=
    List.isPrefixOf_iff_prefix.2 (List.prefix_append _ _)
  rw [hraw, read?, if_pos (List.isPrefixOf_iff_prefix.2 (List.prefix_append _ _))]
  dsimp only
  rw [List.drop_left, hbefore, List.take_left, List.drop_left, hname, List.drop_left, hafter,
    List.append_assoc, List.take_left, List.drop_left, hnonempty, hclosing]
  rfl

/-- What is read at the start of a text is what stands there. -/
theorem read?_eq_some_iff : read? text = some p ↔ p.WellFormed ∧ p.raw <+: text := by
  constructor
  · intro h
    obtain ⟨tail, htail⟩ := exists_of_read? h
    exact ⟨wellFormed_of_read? h, tail, htail.symm⟩
  · rintro ⟨h, tail, rfl⟩
    exact h.read?_append tail

end Placeholder

/-! ## Occurrences -/

/-- A well-formed placeholder stands at a position of a source. -/
structure Occurs (source : Bytes) (i : Nat) (p : Placeholder) : Prop where
  /-- The placeholder is well-formed. -/
  wellFormed : p.WellFormed
  /-- Its text stands there. -/
  stands : p.raw <+: source.drop i

theorem occurs_iff_read? : Occurs source i p ↔ Placeholder.read? (source.drop i) = some p := by
  rw [Placeholder.read?_eq_some_iff]
  exact ⟨fun h => ⟨h.wellFormed, h.stands⟩, fun h => ⟨h.1, h.2⟩⟩

theorem occurs_drop (n : Nat) : Occurs (source.drop n) i p ↔ Occurs source (n + i) p := by
  rw [occurs_iff_read?, occurs_iff_read?, List.drop_drop]

/-- At one position there is one placeholder. -/
theorem Occurs.unique (hp : Occurs source i p) (hq : Occurs source i q) : p = q := by
  rw [occurs_iff_read?] at hp hq
  exact Option.some.inj (hp.symm.trans hq)

/-- The bytes of an occurrence are those of the source. -/
theorem Occurs.getElem? (h : Occurs source i p) {k : Nat} (hk : k < p.raw.length) :
    source[i + k]? = p.raw[k]? := by
  obtain ⟨tail, htail⟩ := h.stands
  rw [← List.getElem?_drop, ← htail, List.getElem?_append_left hk]

/-- The next occurrence starts behind the end of the one before. Otherwise one of the two braces
    that open it would be a brace inside the one before. -/
theorem Occurs.disjoint (hp : Occurs source i p) (hq : Occurs source j q) (hlt : i < j) :
    i + p.raw.length ≤ j := by
  by_contra hinside
  obtain ⟨k, rfl⟩ := Nat.exists_eq_add_of_lt hlt
  have hlength := p.length_raw
  have hlength' := q.length_raw
  have hfirst : p.raw[k + 1]? = some 0x7B := by
    rw [← hp.getElem? (by omega), ← Nat.add_assoc, ← Nat.add_zero (i + k + 1),
      hq.getElem? (by omega), q.raw_eq]
    rfl
  have hone : k = 0 := by
    have := hp.wellFormed.lt_two hfirst
    omega
  subst hone
  have hsecond : p.raw[2]? = some 0x7B := by
    rw [← hp.getElem? (by omega), ← Nat.add_assoc i 1 1, hq.getElem? (by omega), q.raw_eq]
    rfl
  exact absurd (hp.wellFormed.lt_two hsecond) (Nat.lt_irrefl 2)

/-- A placeholder that is read is the first occurrence, and the others are those in what stands
    behind it. -/
theorem occurs_of_read?_some (h : Placeholder.read? source = some q) : Occurs source i p ↔
    (i = 0 ∧ p = q) ∨ ∃ k, i = q.raw.length + k ∧ Occurs (source.drop q.raw.length) k p := by
  have hq : Occurs source 0 q := occurs_iff_read?.2 (by rwa [List.drop_zero])
  constructor
  · intro hp
    rcases Nat.eq_zero_or_pos i with rfl | hpos
    · exact Or.inl ⟨rfl, hp.unique hq⟩
    · have hle := hq.disjoint hp hpos
      rw [Nat.zero_add] at hle
      obtain ⟨k, rfl⟩ := Nat.exists_eq_add_of_le hle
      exact Or.inr ⟨k, rfl, (occurs_drop _).2 hp⟩
  · rintro (⟨rfl, rfl⟩ | ⟨k, rfl, hp⟩)
    · exact hq
    · exact (occurs_drop _).1 hp

/-- Where no placeholder is read, all occurrences stand further on. -/
theorem occurs_of_read?_none {b : UInt8} (h : Placeholder.read? (b :: source) = none) :
    Occurs (b :: source) i p ↔ ∃ k, i = k + 1 ∧ Occurs source k p := by
  have hdrop : ∀ k, Occurs ((b :: source).drop 1) k p ↔ Occurs (b :: source) (1 + k) p := fun k =>
    occurs_drop 1
  constructor
  · intro hp
    cases i with
    | zero =>
      rw [occurs_iff_read?, List.drop_zero, h] at hp
      cases hp
    | succ k => exact ⟨k, rfl, (hdrop k).2 (Nat.add_comm 1 k ▸ hp)⟩
  · rintro ⟨k, rfl, hp⟩
    exact Nat.add_comm 1 k ▸ (hdrop k).1 hp

/-! ## Reading from left to right -/

namespace Piece

/-- The placeholders among the pieces of a text and their positions, if the text starts at
    position `n`. -/
def places : Nat → List Piece → List (Nat × Placeholder)
  | _, [] => []
  | n, literal _ :: pieces => places (n + 1) pieces
  | n, slot p :: pieces => (n, p) :: places (n + p.raw.length) pieces

/-- The reader finds every occurrence, and nothing else. -/
theorem mem_places_iff (n : Nat) : (i, p) ∈ places n (ofSource source) ↔
    ∃ k, i = n + k ∧ Occurs source k p := by
  fun_induction ofSource source generalizing n with
  | case1 =>
    rw [places]
    constructor
    · intro hmem
      exact absurd hmem List.not_mem_nil
    · rintro ⟨k, -, hp⟩
      rw [occurs_iff_read?, List.drop_nil] at hp
      cases hp
  | case2 b rest q hread ih =>
    have hdrop : rest.drop (q.raw.length - 1) = (b :: rest).drop q.raw.length := by
      have hlength := q.length_raw
      rw [← Nat.sub_add_cancel (Nat.le_trans (by decide : 1 ≤ 4) hlength), List.drop_succ_cons,
        Nat.add_sub_cancel]
    rw [hdrop] at ih ⊢
    rw [places, List.mem_cons, ih, Prod.mk.injEq]
    simp only [occurs_of_read?_some hread]
    constructor
    · rintro (⟨rfl, rfl⟩ | ⟨k, rfl, hp⟩)
      · exact ⟨0, rfl, Or.inl ⟨rfl, rfl⟩⟩
      · exact ⟨q.raw.length + k, Nat.add_assoc _ _ _, Or.inr ⟨k, rfl, hp⟩⟩
    · rintro ⟨k, rfl, ⟨rfl, rfl⟩ | ⟨k, rfl, hp⟩⟩
      · exact Or.inl ⟨rfl, rfl⟩
      · exact Or.inr ⟨k, (Nat.add_assoc _ _ _).symm, hp⟩
  | case3 b rest hread ih =>
    rw [places, ih]
    simp only [occurs_of_read?_none hread]
    constructor
    · rintro ⟨k, rfl, hp⟩
      exact ⟨k + 1, by omega, k, rfl, hp⟩
    · rintro ⟨-, rfl, k, rfl, hp⟩
      exact ⟨k, by omega, hp⟩

end Piece

end DocxTemplate
