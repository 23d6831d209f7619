import DocxTemplate.Proofs.Template.Markup
import DocxTemplate.Proofs.Text.Decoding
import DocxTemplate.Proofs.Xml.Ampersand

/-! # Mending a well-formed text

    A reader takes references in character data and in attribute values. Every ampersand there
    starts one in a text that can be read. In all other markup an ampersand is a byte like any
    other, and mending writes `&amp;` for it if it starts no reference.

    * `referencesOnly_of_readText`: text that can be read has no lone ampersand.
    * `Markup.unread`: the parts of a piece of markup in which no references are read.
    * `escapeLoneAmpersands_wellFormed_iff`: when mending leaves a well-formed text as it is.
-/

namespace DocxTemplate.Xml

open Event (Open ofMarkup skipMark)

/-! ## References that can be read -/

/-- A digit is one byte, and a digit there. The letters are digits above ten. -/
theorem exists_byte_of_digit {base : Nat} {c : Char} (h : (digitValue? base c).isSome) :
    ∃ b, String.utf8EncodeChar c = [b] ∧
      (Name.isDigit b = true ∨ 10 < base ∧ Name.isHexDigit b = true) := by
  obtain ⟨value, hvalue⟩ := Option.isSome_iff_exists.1 h
  unfold digitValue? at hvalue
  obtain ⟨hkind, hbase⟩ := Option.filter_eq_some_iff.1 hvalue
  rw [decide_eq_true_eq] at hbase
  have hbyte : ∀ {low high : Nat}, low ≤ c.toNat → c.toNat ≤ high → high < 128 →
      ∃ b : UInt8, String.utf8EncodeChar c = [b] ∧ low ≤ b.toNat ∧ b.toNat ≤ high := by
    intro low high hlow hhigh hsmall
    refine ⟨_, Utf8.utf8EncodeChar_of_lt (by omega), ?_⟩
    rw [Utf8.toNat_ofNat (by omega)]
    exact ⟨hlow, hhigh⟩
  split_ifs at hkind with hdigit hlower hupper
  · obtain ⟨b, hb, hlow, hhigh⟩ := hbyte hdigit.1 hdigit.2 (by decide)
    refine ⟨b, hb, Or.inl ?_⟩
    rw [Name.isDigit, Bool.and_eq_true, decide_eq_true_eq, decide_eq_true_eq]
    exact ⟨UInt8.le_iff_toNat_le.2 hlow, UInt8.le_iff_toNat_le.2 hhigh⟩
  · obtain ⟨b, hb, hlow, hhigh⟩ := hbyte hlower.1 hlower.2 (by decide)
    have hvalue := Option.some.inj hkind
    refine ⟨b, hb, Or.inr ⟨by omega, ?_⟩⟩
    simp only [Name.isHexDigit, Bool.or_eq_true, Bool.and_eq_true, decide_eq_true_eq]
    exact Or.inr ⟨UInt8.le_iff_toNat_le.2 hlow, UInt8.le_iff_toNat_le.2 hhigh⟩
  · obtain ⟨b, hb, hlow, hhigh⟩ := hbyte hupper.1 hupper.2 (by decide)
    have hvalue := Option.some.inj hkind
    refine ⟨b, hb, Or.inr ⟨by omega, ?_⟩⟩
    simp only [Name.isHexDigit, Bool.or_eq_true, Bool.and_eq_true, decide_eq_true_eq]
    exact Or.inl (Or.inr ⟨UInt8.le_iff_toNat_le.2 hlow, UInt8.le_iff_toNat_le.2 hhigh⟩)

/-- Characters that are each one byte of a kind make a text of this kind. -/
theorem utf8EncodeChar_digits {p : UInt8 → Bool} {digits : List Char}
    (h : ∀ d ∈ digits, ∃ b, String.utf8EncodeChar d = [b] ∧ p b = true) (hne : digits ≠ []) :
    digits.flatMap String.utf8EncodeChar ≠ [] ∧
      ∀ b ∈ digits.flatMap String.utf8EncodeChar, p b = true := by
  constructor
  · obtain ⟨d, digits, rfl⟩ := List.exists_cons_of_ne_nil hne
    rw [List.flatMap_cons]
    exact List.append_ne_nil_of_left_ne_nil String.utf8EncodeChar_ne_nil _
  · intro b hb
    obtain ⟨d, hd, hb⟩ := List.mem_flatMap.1 hb
    obtain ⟨b', hbytes, hp⟩ := h d hd
    rw [hbytes, List.mem_singleton] at hb
    rwa [hb]

/-- What can be read between an ampersand and a semicolon is the text of a reference. -/
theorem isReference_of_dereference {p : Nat} {name : List Char} {c : Char}
    (h : dereference p name = .ok c) : IsReference (name.flatMap String.utf8EncodeChar) := by
  rcases dereference_cases h with hmem | ⟨digits, rfl, hne, hdigits⟩ | ⟨digits, rfl, hne, hdigits⟩
  · have hnames : ∀ name ∈ entityNames.map String.toList,
        ((name.flatMap String.utf8EncodeChar).head?.any Name.isStart &&
          (name.flatMap String.utf8EncodeChar).tail.all Name.isInner) = true := by
      decide +kernel
    have hname := hnames name hmem
    rw [Bool.and_eq_true] at hname
    cases hbytes : name.flatMap String.utf8EncodeChar with
    | nil =>
      rw [hbytes] at hname
      cases hname.1
    | cons b rest =>
      rw [hbytes] at hname
      exact .name ⟨b, rest, rfl, hname.1, List.all_eq_true.1 hname.2⟩
  · have hbytes := utf8EncodeChar_digits (p := Name.isDigit) (fun d hd => by
      obtain ⟨b, hb, hdigit | ⟨hbase, -⟩⟩ := exists_byte_of_digit (hdigits d hd)
      · exact ⟨b, hb, hdigit⟩
      · exact absurd hbase (Nat.lt_irrefl 10)) hne
    exact .decimal hbytes.1 hbytes.2
  · have hbytes := utf8EncodeChar_digits (p := Name.isHexDigit) (fun d hd => by
      obtain ⟨b, hb, hdigit | ⟨-, hdigit⟩⟩ := exists_byte_of_digit (hdigits d hd)
      · exact ⟨b, hb, by rw [Name.isHexDigit, hdigit]; rfl⟩
      · exact ⟨b, hb, hdigit⟩) hne
    exact .hexadecimal hbytes.1 hbytes.2

/-- No byte of another character is an ampersand. -/
theorem not_mem_utf8EncodeChar {c : Char} (hc : c ≠ '&') :
    '&'.toUInt8 ∉ String.utf8EncodeChar c := by
  intro hmem
  have hdecode : Utf8.decodeFrom 0 (String.utf8EncodeChar c) = .ok [c] :=
    Utf8.decodeFrom_eq_ok_iff.2 (List.flatMap_singleton _ _).symm
  have hchar := Utf8.mem_of_decodeFrom hdecode hmem (by decide)
  exact hc (List.mem_singleton.1 hchar).symm

/-- No ampersand of characters that are read is lone. -/
theorem Unescapes.referencesOnly {text value : List Char} (h : Unescapes text value) :
    ReferencesOnly (text.flatMap String.utf8EncodeChar) := by
  induction h with
  | nil => exact referencesOnly_nil
  | plain hc _ ih =>
    rw [List.flatMap_cons]
    exact (referencesOnly_of_not_mem (not_mem_utf8EncodeChar hc)).append_iff.2 ih
  | @reference name tail value c hname hc _ ih =>
    have hbody := isReference_of_dereference hc
    have hplain : '&'.toUInt8 ∉ name.flatMap String.utf8EncodeChar ++ [';'.toUInt8] := by
      rw [List.mem_append, not_or]
      exact ⟨fun hmem => absurd (hbody.inReference _ hmem) (by decide), by decide⟩
    have htext : ('&' :: (name ++ ';' :: tail)).flatMap String.utf8EncodeChar =
        '&'.toUInt8 :: ((name.flatMap String.utf8EncodeChar ++ [';'.toUInt8]) ++
          tail.flatMap String.utf8EncodeChar) := by
      simp only [List.flatMap_cons, List.flatMap_append, List.append_assoc]
      rfl
    rw [htext, referencesOnly_cons, (referencesOnly_of_not_mem hplain).append_iff,
      List.append_assoc]
    exact ⟨fun _ => ⟨_, _, rfl, hbody⟩, ih⟩

/-- Text that can be read has no lone ampersand. -/
theorem referencesOnly_of_readText {raw : Bytes} {s : String} (h : readText raw = .ok s) :
    ReferencesOnly raw := by
  obtain ⟨text, value, hdecode, hvalue, -⟩ := readText_eq_ok_iff.1 h
  rw [Utf8.decodeFrom_eq_ok_iff.1 hdecode]
  exact hvalue.referencesOnly

/-! ## Tags -/

/-- The values of attributes that are read can each be read. -/
theorem ReadsAttributes.exists_readText {seen : List (Bytes × Nat)} {position : Nat} {text : Bytes}
    {attributes : List (String × String)} (h : ReadsAttributes seen position text attributes)
    (front : Bytes) : ∀ v ∈ (cutValues front text).values, ∃ s, readText v.value = .ok s := by
  induction h generalizing front with
  | nil => simp [cutValues_nil]
  | blank hb next ih =>
    rw [cutValues_blank hb]
    exact ih _
  | written a first unseen read next ih =>
    rw [cutValues_text a first]
    intro v hv
    rcases List.mem_cons.1 hv with rfl | hv
    · exact ⟨_, read⟩
    · exact ih [] v hv

/-- What stands around the values of a tag. -/
def TagParts.around (parts : TagParts) : List Bytes :=
  parts.values.map TagValue.front ++ [parts.last]

/-- A tag is cut at the quotes of its values. -/
theorem TagParts.referencesOnly_text_iff {parts : TagParts}
    (hquote : ∀ v ∈ parts.values, v.quote = 0x22 ∨ v.quote = 0x27)
    (hvalue : ∀ v ∈ parts.values, ReferencesOnly v.value) :
    ReferencesOnly parts.text ↔ ∀ part ∈ parts.around, ReferencesOnly part := by
  obtain ⟨values, last⟩ := parts
  induction values with
  | nil => simp [text, around]
  | cons v values ih =>
    have hfree : ¬ InReference v.quote ∧ v.quote ≠ '&'.toUInt8 := by
      rcases hquote v List.mem_cons_self with hq | hq <;> rw [hq] <;> decide
    have hrest := ih (fun w hw => hquote w (List.mem_cons_of_mem v hw))
      fun w hw => hvalue w (List.mem_cons_of_mem v hw)
    rw [text_cons, referencesOnly_append hfree.1 hfree.2, referencesOnly_append hfree.1 hfree.2,
      hrest]
    simp [around, hvalue v List.mem_cons_self]

/-! ## Markup -/

/-- The parts of a piece of markup in which no references are read: what stands around the
    attribute values of a tag, and the whole of everything else. `written` is what stands behind
    the `<`. -/
def Markup.unread (written : Bytes) : Markup → List Bytes
  | .startTag content | .emptyTag content => (tagParts content).around
  | .endTag _ | .cdata _ | .other => [written]

theorem referencesOnly_tag_iff {content : Bytes} {attributes : List (String × String)}
    (h : tagAttributes content = .ok attributes) :
    ReferencesOnly content ↔ ∀ part ∈ (tagParts content).around, ReferencesOnly part := by
  rw [tagAttributes, attributesFrom_eq_ok_iff] at h
  have hvalue : ∀ v ∈ (tagParts content).values, ReferencesOnly v.value := by
    intro v hv
    obtain ⟨s, hs⟩ := h.exists_readText _ v hv
    exact referencesOnly_of_readText hs
  have hparts : ReferencesOnly (tagParts content).text ↔
      ∀ part ∈ (tagParts content).around, ReferencesOnly part :=
    TagParts.referencesOnly_text_iff (quote_eq _ _) hvalue
  rwa [text_tagParts] at hparts

/-- A tag ends with a `>`, and an empty one with a `/` before it. -/
theorem referencesOnly_written_iff {written content : Bytes} {m : Markup}
    (hm : m = .startTag content ∨ m = .emptyTag content)
    (taken : Markup.read written = .ok (m, written.length)) :
    ReferencesOnly written ↔ ReferencesOnly content := by
  have hslash : ¬ InReference '/'.toUInt8 ∧ '/'.toUInt8 ≠ '&'.toUInt8 := by decide
  have hnil := referencesOnly_nil
  obtain ⟨body, rfl, -, -, rfl⟩ := Markup.exists_tag_body hm taken
  rw [referencesOnly_gt_iff, and_iff_left hnil]
  by_cases hlast : body.getLast? = some '/'.toUInt8
  · rw [Markup.tagOf, if_pos hlast] at hm
    rcases hm with hm | hm
    · cases hm
    · obtain ⟨front, rfl⟩ := List.getLast?_eq_some_iff.1 hlast
      rw [Markup.emptyTag.injEq, List.dropLast_concat] at hm
      rw [hm, referencesOnly_append hslash.1 hslash.2, and_iff_left hnil]
  · rw [Markup.tagOf, if_neg hlast] at hm
    rcases hm with hm | hm
    · rw [Markup.startTag.inj hm]
    · cases hm

/-- What counts in a piece of markup are its unread parts. -/
theorem Markup.referencesOnly_iff {opened others : Open} {written : Bytes} {m : Markup}
    {event? : Option Event} (taken : Markup.read written = .ok (m, written.length))
    (read : ofMarkup opened m = .ok (event?, others)) :
    ReferencesOnly written ↔ ∀ part ∈ m.unread written, ReferencesOnly part := by
  have hwhole : ReferencesOnly written ↔ ∀ part ∈ [written], ReferencesOnly part := by simp
  cases m with
  | startTag content =>
    obtain ⟨attributes, hread, -⟩ := ofMarkup_startTag_iff.1 read
    rw [referencesOnly_written_iff (Or.inl rfl) taken, referencesOnly_tag_iff hread]
    rfl
  | emptyTag content =>
    obtain ⟨attributes, hread, -⟩ := ofMarkup_emptyTag_iff.1 read
    rw [referencesOnly_written_iff (Or.inr rfl) taken, referencesOnly_tag_iff hread]
    rfl
  | endTag name => exact hwhole
  | cdata content => exact hwhole
  | other => exact hwhole

/-! ## Whole texts -/

/-- What counts in what is read inside open elements are the unread parts of its markup. -/
theorem Reads.referencesOnly_iff {opened last : Open} {text : Bytes} {events : List Event}
    (h : Reads opened text events last) :
    ReferencesOnly text ↔ ∀ x ∈ markups text, ∀ part ∈ x.1.unread x.2, ReferencesOnly part := by
  induction h with
  | nil => simp [markups, referencesOnly_nil]
  | @markup opened others last written rest m event? events taken read _ ih =>
    have hread := Markup.read_append taken rest
    have hwritten := Markup.referencesOnly_iff taken read
    obtain ⟨body, hbody⟩ := Markup.exists_of_read taken
    have hcut : ReferencesOnly (written ++ rest) ↔
        ReferencesOnly written ∧ ReferencesOnly rest := by
      rw [hbody, List.append_assoc, List.singleton_append, referencesOnly_gt_iff,
        referencesOnly_gt_iff, and_iff_left referencesOnly_nil]
    rw [markups_markup hread, List.take_left, List.drop_left, List.forall_mem_cons,
      referencesOnly_cons, and_iff_right (fun hb => absurd hb (by decide)), hcut, hwritten, ih]
  | text plain read _ ih =>
    rw [(referencesOnly_of_readText read).append_iff, markups_append plain, ih]

/-- The mark before a text holds no ampersand. -/
theorem referencesOnly_skipMark (text : Bytes) :
    ReferencesOnly (skipMark text) ↔ ReferencesOnly text := by
  by_cases hmark : Event.byteOrderMark <+: text
  · obtain ⟨rest, rfl⟩ := hmark
    have hplain : '&'.toUInt8 ∉ Event.byteOrderMark := by decide
    rw [skipMark, if_pos (List.isPrefixOf_iff_prefix.2 (List.prefix_append _ _)), List.drop_left,
      (referencesOnly_of_not_mem hplain).append_iff]
  · rw [skipMark, if_neg (mt List.isPrefixOf_iff_prefix.1 hmark)]

/-- Mending leaves a well-formed text as it is exactly if no ampersand is lone in the markup in
    which references are not read. In character data and in attribute values none is. -/
theorem escapeLoneAmpersands_wellFormed_iff {text : Bytes} (h : check text = .ok ()) :
    escapeLoneAmpersands text = text ↔
      ∀ x ∈ markups (skipMark text), ∀ part ∈ x.1.unread x.2, ReferencesOnly part := by
  obtain ⟨events, hreads, -⟩ := check_eq_ok_iff.1 h
  rw [escapeLoneAmpersands_eq_self_iff, ← referencesOnly_skipMark, hreads.referencesOnly_iff]

/-- A well-formed text with references in all kinds of markup. -/
def markedUp : Bytes :=
  Bytes.ofString ("<?xml version=\"1.0\"?><!-- &amp; --><a k=\"&lt;&#x26;\">&#38; " ++
    "<![CDATA[&note;]]></a>")

theorem escapeLoneAmpersands_wellFormed_markedUp :
    check markedUp = .ok () ∧ escapeLoneAmpersands markedUp = markedUp :=
  ⟨by decide +kernel,
    (escapeLoneAmpersands_wellFormed_iff (by decide +kernel)).2 (by decide +kernel)⟩

/-- An ampersand may stand for itself in a character section, a comment or an instruction. -/
theorem not_forall_escapeLoneAmpersands_eq_self :
    ¬ ∀ text, check text = .ok () → escapeLoneAmpersands text = text := by
  intro h
  have hsection := h (Bytes.ofString "<a><![CDATA[&]]></a>") (by decide +kernel)
  revert hsection
  decide +kernel

end DocxTemplate.Xml
