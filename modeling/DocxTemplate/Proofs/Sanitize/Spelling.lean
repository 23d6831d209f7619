import DocxTemplate.Proofs.Sanitize.Lexemes
import DocxTemplate.Proofs.Xml.Portions

/-! # What a portion spells

    The passes look for tags and attributes by their spelling. What they find is what it seems to
    be if each portion of the text shows it for what it is.

    * `Everywhere`: a property of all places of a portion.
    * `TagOnlyAtStart`: a tag with some name is spelled in no portion but as that portion.
    * `ShowsMarker` and `ShowsAttribute`: the markers and the attributes with some name are what
      they seem to be.
    * `TagOnlyAtStart.delete` and `ShowsAttribute.delete`: this stays so when an attribute is
      deleted, since no name goes across the seam.
-/

namespace DocxTemplate.Sanitize

open Xml.Markup (quoteBehind)

/-! ## Places -/

/-- A property of each place of a portion, by what stands before it and what from there on. -/
def Everywhere (P : Bytes → Bytes → Prop) (portion : Bytes) : Prop :=
  ∀ i < portion.length, P (portion.take i) (portion.drop i)

instance (P : Bytes → Bytes → Prop) [∀ front tail, Decidable (P front tail)] (portion : Bytes) :
    Decidable (Everywhere P portion) :=
  inferInstanceAs (Decidable (∀ i < portion.length, _))

section

variable {P Q : Bytes → Bytes → Prop} {x removed y front tail : Bytes}

theorem everywhere_iff {portion : Bytes} : Everywhere P portion ↔
    ∀ front tail, portion = front ++ tail → tail ≠ [] → P front tail := by
  constructor
  · rintro h front tail rfl hne
    have hplace := h front.length (by
      rw [List.length_append]
      exact Nat.lt_add_of_pos_right (List.length_pos_iff.2 hne))
    rwa [List.take_left, List.drop_left] at hplace
  · intro h i hi
    apply h _ _ (List.take_append_drop i portion).symm
    intro hnil
    rw [List.drop_eq_nil_iff] at hnil
    omega

/-- The places left by a deletion lie before the seam or behind it. -/
theorem Everywhere.delete (h : Everywhere P (x ++ (removed ++ y)))
    (hx : ∀ front part, x = front ++ part → part ≠ [] → P front (part ++ (removed ++ y)) →
      Q front (part ++ y))
    (hy : ∀ part tail, y = part ++ tail → tail ≠ [] → P (x ++ (removed ++ part)) tail →
      Q (x ++ part) tail) : Everywhere Q (x ++ y) := by
  rw [everywhere_iff] at h ⊢
  intro front tail hplace hne
  rcases Xml.place_in_append hplace.symm with ⟨part, rfl, hrest⟩ | ⟨part, hpart, hfront, rfl⟩
  · apply hy part tail hrest hne
    apply h _ _ _ hne
    rw [hrest, List.append_assoc, List.append_assoc]
  · apply hx front part hfront hpart
    apply h _ _ _ (List.append_ne_nil_of_left_ne_nil hpart _)
    rw [hfront, List.append_assoc]

end

/-! ## Seams -/

section

variable {word x y z : Bytes}

/-- No word goes across a byte that ends names. -/
theorem prefix_of_seam (hword : Unended word) (hy : NameEnds y) (h : word <+: x ++ y) :
    word <+: x := by
  obtain ⟨b, hb, hends⟩ := hy
  obtain ⟨rest, hrest⟩ := h
  rcases Xml.place_in_append hrest with ⟨more, rfl, hmore⟩ | ⟨more, -, rfl, -⟩
  · cases more with
    | nil => exact ⟨[], by rw [List.append_nil, List.append_nil]⟩
    | cons c more =>
      -- The word would hold the first byte behind the seam.
      rw [hmore, List.cons_append, List.head?_cons, Option.some.injEq] at hb
      rw [hword b (by simp [hb])] at hends
      exact Bool.noConfusion hends
  · exact List.prefix_append _ _

/-- So whether a word starts a text with such a byte behind it is a matter of the text alone. -/
theorem startsToken_of_seam (hword : Unended word) (hy : NameEnds y) (hz : NameEnds z)
    (h : StartsToken word (x ++ y)) : StartsToken word (x ++ z) := by
  obtain ⟨more, rfl⟩ := prefix_of_seam hword hy h.prefix_of
  rw [List.append_assoc, StartsToken.append_iff] at h ⊢
  cases more with
  | nil => exact hz
  | cons b more => exact h

end

/-! ## Tags -/

theorem unended_tag {name : Bytes} (h : Unended name) : Unended ('<'.toUInt8 :: name) := by
  intro b hb
  rcases List.mem_cons.1 hb with rfl | hb
  · decide
  · exact h b hb

/-- A tag with this name is spelled in a portion only if the portion starts with it. -/
def TagOnlyAtStart (name : String) (portion : Bytes) : Prop :=
  Everywhere (fun front tail => StartsToken ('<'.toUInt8 :: Bytes.ofString name) tail → front = [])
    portion

instance (name : String) (portion : Bytes) : Decidable (TagOnlyAtStart name portion) :=
  inferInstanceAs (Decidable (Everywhere _ _))

/-- A marker with this name is spelled in a portion only if it is the portion, and then the portion
    holds no `>` before its end. -/
def ShowsMarker (name : String) (portion : Bytes) : Prop :=
  TagOnlyAtStart name portion ∧
    (StartsToken ('<'.toUInt8 :: Bytes.ofString name) portion → '>'.toUInt8 ∉ portion.dropLast)

instance (name : String) (portion : Bytes) : Decidable (ShowsMarker name portion) :=
  inferInstanceAs (Decidable (_ ∧ _))

/-- Character data spells no tags. -/
theorem showsMarker_data {name : String} {data : Bytes} (h : '<'.toUInt8 ∉ data) :
    ShowsMarker name data := by
  have hnot : ∀ tail, tail <:+ data → ¬ StartsToken ('<'.toUInt8 :: Bytes.ofString name) tail := by
    intro tail htail hs
    exact h (htail.subset (List.mem_of_mem_head? hs.head?_eq))
  constructor
  · rw [TagOnlyAtStart, everywhere_iff]
    intro front tail hplace hne hs
    exact absurd hs (hnot tail ⟨front, hplace.symm⟩)
  · intro hs
    exact absurd hs (hnot data (List.suffix_refl data))

/-! ## Attributes -/

/-- A text starts with white space and an attribute with this name. -/
def SpellsAttribute (name : String) (text : Bytes) : Prop :=
  text.head?.any isSpace = true ∧ attributeToken name <+: text.drop 1

instance (name : String) (text : Bytes) : Decidable (SpellsAttribute name text) :=
  inferInstanceAs (Decidable (_ ∧ _))

theorem drop_attributeToken (name : String) (b : UInt8) (rest : Bytes) :
    (b :: (attributeToken name ++ rest)).drop (1 + (attributeToken name).length) = rest := by
  rw [Nat.add_comm, List.drop_succ_cons, List.drop_left]

/-- An attribute behind white space is spelled at the last of it. -/
theorem Everywhere.at_spelled {P : Bytes → Bytes → Prop} {name : String} {part blanks rest : Bytes}
    (h : Everywhere P (part ++ (blanks ++ (attributeToken name ++ rest)))) (hne : blanks ≠ [])
    (hblanks : ∀ b ∈ blanks, isSpace b = true) : ∃ before b, blanks = before ++ [b] ∧
      P (part ++ before) (b :: (attributeToken name ++ rest)) ∧
      SpellsAttribute name (b :: (attributeToken name ++ rest)) := by
  obtain ⟨before, b, rfl⟩ := (List.eq_nil_or_concat blanks).resolve_left hne
  refine ⟨before, b, List.concat_eq_append, ?_, hblanks b (by simp), List.prefix_append _ _⟩
  rw [everywhere_iff] at h
  apply h _ _ _ (List.cons_ne_nil _ _)
  simp

/-- Behind the value that a text starts with, if it starts with one, no name goes on. -/
def ValueEnds (text : Bytes) : Prop := ∀ n ∈ quotedLength? text, NameEnds (text.drop n)

instance (text : Bytes) : Decidable (NameEnds text) :=
  decidable_of_iff (text.head?.any endsName = true) (by simp [NameEnds, Option.any_eq_true])

instance (text : Bytes) : Decidable (ValueEnds text) :=
  inferInstanceAs (Decidable (∀ n ∈ quotedLength? text, _))

/-- A piece of markup is a tag, and no white space stands before its name. -/
def IsNamedTag : Bytes → Prop
  | _ :: b :: _ => b ∉ ['!'.toUInt8, '?'.toUInt8] ∧ isSpace b = false
  | _ => False

instance : (portion : Bytes) → Decidable (IsNamedTag portion)
  | _ :: _ :: _ => inferInstanceAs (Decidable (_ ∧ _))
  | [] | [_] => inferInstanceAs (Decidable False)

theorem IsNamedTag.opens {a : UInt8} {tail : Bytes} (h : IsNamedTag (a :: tail)) :
    tail ≠ [] ∧ Xml.Markup.OpensAsTag tail := by
  cases tail with
  | nil => exact absurd h id
  | cons b tail =>
    refine ⟨List.cons_ne_nil b tail, ?_⟩
    intro c hc
    rw [← Option.some.inj hc]
    exact h.1

/-- An attribute with this name is spelled in a portion only where it is one, apart from character
    data without a `>` behind it. -/
structure ShowsAttribute (name : String) (portion : Bytes) : Prop where
  data : portion.head? ≠ some '<'.toUInt8 →
    Everywhere (fun _ tail => SpellsAttribute name tail → '>'.toUInt8 ∉ tail) portion
  /-- The attribute stands in a tag, outside all values, and something separates it from what
      follows. -/
  markup : portion.head? = some '<'.toUInt8 →
    Everywhere (fun front tail => SpellsAttribute name tail → IsNamedTag portion ∧
      quoteBehind none front = none ∧ ValueEnds (tail.drop (1 + (attributeToken name).length)))
      portion
  /-- It does not stand in the place of a tag's name. -/
  unnamed : Everywhere (fun _ tail => ¬ '<'.toUInt8 :: attributeToken name <+: tail) portion

theorem showsAttribute_iff {name : String} {portion : Bytes} : ShowsAttribute name portion ↔
    (portion.head? ≠ some '<'.toUInt8 →
      Everywhere (fun _ tail => SpellsAttribute name tail → '>'.toUInt8 ∉ tail) portion) ∧
    (portion.head? = some '<'.toUInt8 →
      Everywhere (fun front tail => SpellsAttribute name tail → IsNamedTag portion ∧
        quoteBehind none front = none ∧ ValueEnds (tail.drop (1 + (attributeToken name).length)))
        portion) ∧
    Everywhere (fun _ tail => ¬ '<'.toUInt8 :: attributeToken name <+: tail) portion := by
  constructor
  · intro h
    exact ⟨h.data, h.markup, h.unnamed⟩
  · intro ⟨hdata, hmarkup, hunnamed⟩
    exact ⟨hdata, hmarkup, hunnamed⟩

instance (name : String) (portion : Bytes) : Decidable (ShowsAttribute name portion) :=
  decidable_of_iff _ showsAttribute_iff.symm

/-! ## Deletions in a tag -/

section

variable {name : String} {x removed y more : Bytes}

theorem TagOnlyAtStart.delete (hname : Unended (Bytes.ofString name)) (hx : x ≠ [])
    (hremoved : NameEnds removed) (hy : NameEnds y)
    (h : TagOnlyAtStart name (x ++ (removed ++ y))) : TagOnlyAtStart name (x ++ y) := by
  have hword := unended_tag hname
  have hbehind : NameEnds (removed ++ y) := hremoved.append y
  refine Everywhere.delete h ?_ ?_
  · intro front part _ _ hplace hs
    exact hplace (startsToken_of_seam hword hy hbehind hs)
  · intro part tail _ _ hplace hs
    exact absurd (List.append_eq_nil_iff.1 (hplace hs)).1 hx

theorem unended_attributeToken (hname : IsWord (Bytes.ofString name)) :
    Unended (attributeToken name) := by
  intro b hb
  rcases List.mem_append.1 hb with hb | hb
  · exact hname.unended b hb
  · rw [List.mem_singleton.1 hb]
    decide

theorem ne_quote_of_isSpace {b : UInt8} (h : isSpace b = true) : b ≠ 0x22 ∧ b ≠ 0x27 := by
  constructor
  · rintro rfl
    revert h
    decide
  · rintro rfl
    revert h
    decide

/-- White space opens and closes no quotes. -/
theorem quoteBehind_blanks {blanks : Bytes} (hblanks : ∀ b ∈ blanks, isSpace b = true) (x : Bytes) :
    quoteBehind none (x ++ blanks) = quoteBehind none x := by
  have hquotes : ∀ b ∈ blanks, b ≠ 0x22 ∧ b ≠ 0x27 := fun b hb =>
    ne_quote_of_isSpace (hblanks b hb)
  rw [Xml.Markup.quoteBehind_append]
  apply Xml.Markup.quoteBehind_of_not_mem hquotes
  intro q hq
  have hmem := Xml.Markup.quote_of_quoteBehind (fun q hq => by cases hq) q hq
  simpa using hmem

/-- White space and the name of an attribute hold no quotes. -/
theorem quoteBehind_attributeToken (hname : IsWord (Bytes.ofString name)) {blanks : Bytes}
    (hblanks : ∀ b ∈ blanks, isSpace b = true) :
    quoteBehind none (blanks ++ attributeToken name) = none := by
  refine Xml.Markup.quoteBehind_of_not_mem ?_ (fun q hq => by cases hq)
  intro b hb
  rw [List.mem_append, attributeToken, List.mem_append, List.mem_singleton] at hb
  rcases hb with hb | hb | rfl
  · exact ne_quote_of_isSpace (hblanks b hb)
  · exact hname.ne_quote b hb
  · decide

theorem endsName_of_quote {q : UInt8} (hq : q = 0x22 ∨ q = 0x27) : endsName q = false := by
  rcases hq with rfl | rfl
  · decide
  · decide

/-- A quote opens a value, and what follows stands in it. -/
theorem quoteBehind_quote {q : UInt8} (hq : q = 0x22 ∨ q = 0x27) (rest : Bytes) :
    quoteBehind none (q :: rest) = quoteBehind (some q) rest := by
  have hstep : Xml.Markup.quoteStep none q = some q := by
    rcases hq with rfl | rfl
    · rfl
    · rfl
  change quoteBehind (Xml.Markup.quoteStep none q) rest = _
  rw [hstep]

/-- Behind a whole value all quotes are closed. -/
theorem quoteBehind_quoted {value : Bytes} (h : Quoted value) : quoteBehind none value = none := by
  obtain ⟨q, inner, hq, hinner, rfl⟩ := h
  rw [quoteBehind_quote hq, Xml.Markup.quoteBehind_append,
    Xml.Markup.quoteBehind_of_quote_not_mem hinner]
  simp [quoteBehind, Xml.Markup.quoteStep]

/-- Inside a value they are not. -/
theorem quoteBehind_of_quoted_append {front rest : Bytes} (h : Quoted (front ++ rest))
    (hfront : front ≠ []) (hrest : rest ≠ []) : quoteBehind none front ≠ none := by
  obtain ⟨q, inner, hq, hinner, heq⟩ := h
  obtain ⟨b, front, rfl⟩ := List.exists_cons_of_ne_nil hfront
  rw [List.cons_append, List.cons.injEq] at heq
  obtain ⟨rfl, heq⟩ := heq
  -- The last quote is behind the front part.
  rcases Xml.place_in_append heq with ⟨more, rfl, hlast⟩ | ⟨more, -, rfl, -⟩
  · rcases List.append_eq_singleton_iff.1 hlast.symm with ⟨rfl, -⟩ | ⟨-, hnil⟩
    · rw [List.append_nil, quoteBehind_quote hq, Xml.Markup.quoteBehind_of_quote_not_mem hinner]
      exact Option.some_ne_none b
    · exact absurd hnil hrest
  · rw [List.mem_append, not_or] at hinner
    rw [quoteBehind_quote hq, Xml.Markup.quoteBehind_of_quote_not_mem hinner.1]
    exact Option.some_ne_none b

theorem quotedLength?_of_quoted {value : Bytes} (h : Quoted value) (rest : Bytes) :
    quotedLength? (value ++ rest) = some value.length := by
  obtain ⟨q, inner, hq, hinner, rfl⟩ := h
  rw [List.cons_append, List.append_assoc, quotedLength?, if_pos (by simpa using hq),
    List.singleton_append, Bytes.indexOf?_singleton_append hinner]
  simp

/-- A value that ends before a seam ended there before, and none goes across it. -/
theorem valueEnds_of_seam (hmore : quoteBehind none more = none) (hy : NameEnds y)
    (h : ValueEnds (more ++ (removed ++ y))) : ValueEnds (more ++ y) := by
  intro n hn
  obtain ⟨value, rest, heq, rfl, hquoted⟩ := quoted_of_quotedLength? hn
  rcases Xml.place_in_append heq.symm with ⟨part, rfl, hrest⟩ | ⟨part, hpart, rfl, rfl⟩
  · cases part with
    | nil =>
      rw [heq, List.drop_left, ← List.nil_append rest, ← hrest]
      exact hy
    | cons b part =>
      by_cases hnil : more = []
      · -- The value would begin with the end of a name.
        subst hnil
        obtain ⟨q, inner, hq, -, hvalue⟩ := hquoted
        obtain ⟨c, hc, hends⟩ := hy
        rw [List.nil_append, List.cons.injEq] at hvalue
        rw [hrest, hvalue.1, List.cons_append, List.head?_cons, Option.some.injEq] at hc
        rw [← hc, endsName_of_quote hq] at hends
        exact Bool.noConfusion hends
      · exact absurd hmore (quoteBehind_of_quoted_append hquoted hnil (List.cons_ne_nil b part))
  · have hbefore := h _ (by
      rw [List.append_assoc]
      exact quotedLength?_of_quoted hquoted _)
    rw [heq, List.drop_left]
    rw [List.append_assoc, List.drop_left] at hbefore
    obtain ⟨b, part, rfl⟩ := List.exists_cons_of_ne_nil hpart
    exact hbefore

theorem ShowsAttribute.delete (hname : IsWord (Bytes.ofString name))
    (hhead : x.head? = some '<'.toUInt8) (hx : IsNamedTag x) (hquote : quoteBehind none x = none)
    (hquote' : quoteBehind none removed = none) (hy : NameEnds y)
    (h : ShowsAttribute name (x ++ (removed ++ y))) : ShowsAttribute name (x ++ y) := by
  have hword := unended_attributeToken hname
  have hheads : ∀ z, (x ++ z).head? = some '<'.toUInt8 := by
    intro z
    rw [List.head?_append, hhead]
    rfl
  have hnamed : IsNamedTag (x ++ y) := by
    match x, hx with
    | _ :: _ :: _, hx => exact hx
  constructor
  · intro hother
    exact absurd (hheads y) hother
  · intro _
    refine Everywhere.delete (h.markup (hheads _)) ?_ ?_
    · intro front part hfront hpart hplace hspells
      obtain ⟨b, part, rfl⟩ := List.exists_cons_of_ne_nil hpart
      obtain ⟨hb, hprefix⟩ := hspells
      obtain ⟨more, rfl⟩ := prefix_of_seam hword hy hprefix
      -- The attribute was spelled there before.
      obtain ⟨-, hbefore, hvalue⟩ := hplace ⟨hb, by
        rw [List.cons_append, List.drop_one, List.tail_cons, List.append_assoc]
        exact List.prefix_append _ _⟩
      have hmore : quoteBehind none more = none := by
        rw [hfront, ← List.singleton_append, ← List.append_assoc [b],
          Xml.Markup.quoteBehind_append, Xml.Markup.quoteBehind_append, hbefore,
          quoteBehind_attributeToken hname (by simpa using hb)] at hquote
        exact hquote
      refine ⟨hnamed, hbefore, ?_⟩
      rw [List.cons_append, List.append_assoc, drop_attributeToken] at hvalue ⊢
      exact valueEnds_of_seam hmore hy hvalue
    · intro part tail hsplit hne hplace hspells
      obtain ⟨-, hbefore, hvalue⟩ := hplace hspells
      refine ⟨hnamed, ?_, hvalue⟩
      rw [Xml.Markup.quoteBehind_append, Xml.Markup.quoteBehind_append, hquote, hquote'] at hbefore
      rw [Xml.Markup.quoteBehind_append, hquote]
      exact hbefore
  · refine Everywhere.delete h.unnamed ?_ ?_
    · intro front part _ _ hplace hprefix
      have hpart := prefix_of_seam (unended_tag hword) hy hprefix
      exact hplace (hpart.trans (List.prefix_append _ _))
    · intro part tail _ _ hplace
      exact hplace

end

end DocxTemplate.Sanitize
