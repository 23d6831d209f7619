import DocxTemplate.Proofs.Xml.Reference
import DocxTemplate.Xml.Escape

/-! # Escaped text is read back

    * `readText_escapeQuoted`: a string that is written as an attribute value is read back.
    * `not_mem_escapeQuoted`: what is written holds neither a quote nor an angle bracket.
    * `readText_escape` and `not_mem_escape`: the same for character data, in which quotes stay.
-/

namespace DocxTemplate.Xml

/-- The characters that are written as references in an attribute value. -/
def needsEscape (c : Char) : Bool := c == '&' || c == '<' || c == '>' || c == '\x22'

/-- A byte that is none of the four stays. -/
theorem escapeQuotedByte_eq {b : UInt8}
    (h : b ≠ 0x22 ∧ b ≠ '&'.toUInt8 ∧ b ≠ '<'.toUInt8 ∧ b ≠ '>'.toUInt8) :
    escapeQuotedByte b = [b] := by
  simp only [escapeQuotedByte, escapeByte, beq_eq_false_iff_ne.2 h.1, beq_eq_false_iff_ne.2 h.2.1,
    beq_eq_false_iff_ne.2 h.2.2.1, beq_eq_false_iff_ne.2 h.2.2.2, Bool.false_eq_true, if_false]

/-- A byte outside ASCII is none of them, and one of ASCII only if it is the character. -/
theorem plain_of_not_needsEscape {b : UInt8}
    (h : b < 0x80 → needsEscape (Char.ofNat b.toNat) = false) :
    b ≠ 0x22 ∧ b ≠ '&'.toUInt8 ∧ b ≠ '<'.toUInt8 ∧ b ≠ '>'.toUInt8 := by
  refine ⟨?_, ?_, ?_, ?_⟩ <;>
    · rintro rfl
      exact absurd (h (by decide)) (by decide)

/-- A character that needs no escape is written as it is. -/
theorem flatMap_escapeQuotedByte {c : Char} (h : needsEscape c = false) :
    (String.utf8EncodeChar c).flatMap escapeQuotedByte = String.utf8EncodeChar c := by
  have hdecode := Utf8.decodeFrom_ofString 0 (String.ofList [c])
  have hbytes : Bytes.ofString (String.ofList [c]) = String.utf8EncodeChar c := by
    rw [Bytes.ofString, String.toList_ofList, List.flatMap_singleton]
  rw [hbytes, String.toList_ofList] at hdecode
  have hsingle : ∀ b ∈ String.utf8EncodeChar c, escapeQuotedByte b = [b] := by
    intro b hb
    refine escapeQuotedByte_eq (plain_of_not_needsEscape fun hascii => ?_)
    rw [List.mem_singleton.1 (Utf8.mem_of_decodeFrom hdecode hb hascii), h]
  rw [List.flatMap_congr hsingle, List.flatMap_singleton']

theorem readText_of_not_needsEscape {c : Char} (h : needsEscape c = false) :
    readText (String.utf8EncodeChar c) = .ok (String.ofList [c]) := by
  have hdecode := Utf8.decodeFrom_ofString 0 (String.ofList [c])
  rw [Bytes.ofString, String.toList_ofList, List.flatMap_singleton] at hdecode
  have hne : c ≠ '&' := by
    rintro rfl
    cases h
  exact readText_eq_ok_iff.2 ⟨[c], [c], hdecode, .plain hne .nil, rfl⟩

/-- A single character is read back. -/
theorem readText_escapeQuoted_char (c : Char) :
    readText ((String.utf8EncodeChar c).flatMap escapeQuotedByte) = .ok (String.ofList [c]) := by
  cases h : needsEscape c with
  | false =>
    rw [flatMap_escapeQuotedByte h]
    exact readText_of_not_needsEscape h
  | true =>
    rw [needsEscape, Bool.or_eq_true, Bool.or_eq_true, Bool.or_eq_true, beq_iff_eq, beq_iff_eq,
      beq_iff_eq, beq_iff_eq] at h
    rcases h with ((rfl | rfl) | rfl) | rfl <;> decide +kernel

/-- A string is read back if each of its characters is. -/
theorem readText_flatMap {f : UInt8 → Bytes}
    (hf : ∀ c, readText ((String.utf8EncodeChar c).flatMap f) = .ok (String.ofList [c])) (s : String) :
    readText ((Bytes.ofString s).flatMap f) = .ok s := by
  have hchars : ∀ cs : List Char,
      readText ((cs.flatMap String.utf8EncodeChar).flatMap f) = .ok (String.ofList cs) := by
    intro cs
    induction cs with
    | nil => exact readText_nil
    | cons c cs ih =>
      have happend := readText_append (hf c) ih
      rw [List.flatMap_cons, List.flatMap_append]
      rwa [← String.ofList_append] at happend
  have hs := hchars s.toList
  rwa [String.ofList_toList] at hs

/-- A string that is written as an attribute value is read back. -/
theorem readText_escapeQuoted (s : String) :
    readText (escapeQuoted (Bytes.ofString s)) = .ok s :=
  readText_flatMap readText_escapeQuoted_char s

/-- So is one that is written as character data: but for the quote, which stays, the two are
    written alike. -/
theorem readText_escape (s : String) : readText (escape (Bytes.ofString s)) = .ok s := by
  refine readText_flatMap (fun c => ?_) s
  by_cases hquote : c = '\x22'
  · subst hquote
    decide +kernel
  · have hsame : ∀ b ∈ String.utf8EncodeChar c, escapeByte b = escapeQuotedByte b := by
      intro b hb
      rw [escapeQuotedByte, if_neg]
      intro heq
      rw [beq_iff_eq] at heq
      subst heq
      have hdecode := Utf8.decodeFrom_ofString 0 (String.ofList [c])
      rw [Bytes.ofString, String.toList_ofList, List.flatMap_singleton] at hdecode
      have hmem := Utf8.mem_of_decodeFrom hdecode hb (by decide)
      exact hquote (List.mem_singleton.1 hmem).symm
    rw [List.flatMap_congr hsame]
    exact readText_escapeQuoted_char c

/-- What is written holds no quote and no angle bracket. -/
theorem not_mem_escapeQuoted (text : Bytes) :
    ∀ b ∈ escapeQuoted text, b ≠ 0x22 ∧ b ≠ '<'.toUInt8 ∧ b ≠ '>'.toUInt8 := by
  have hreferences : ∀ reference ∈ ["&quot;", "&amp;", "&lt;", "&gt;"],
      ∀ b ∈ Bytes.ofString reference, b ≠ 0x22 ∧ b ≠ '<'.toUInt8 ∧ b ≠ '>'.toUInt8 := by
    decide +kernel
  intro b hb
  obtain ⟨a, -, hb⟩ := List.mem_flatMap.1 hb
  by_cases hplain : a ≠ 0x22 ∧ a ≠ '&'.toUInt8 ∧ a ≠ '<'.toUInt8 ∧ a ≠ '>'.toUInt8
  · rw [escapeQuotedByte_eq hplain, List.mem_singleton] at hb
    rw [hb]
    exact ⟨hplain.1, hplain.2.2⟩
  · have hwritten : ∃ reference ∈ ["&quot;", "&amp;", "&lt;", "&gt;"],
        escapeQuotedByte a = Bytes.ofString reference := by
      rw [not_and_or, not_and_or, not_and_or, not_not, not_not, not_not, not_not] at hplain
      rcases hplain with rfl | rfl | rfl | rfl
      · exact ⟨"&quot;", by decide, rfl⟩
      · exact ⟨"&amp;", by decide, rfl⟩
      · exact ⟨"&lt;", by decide, rfl⟩
      · exact ⟨"&gt;", by decide, rfl⟩
    obtain ⟨reference, hreference, heq⟩ := hwritten
    rw [heq] at hb
    exact hreferences reference hreference b hb

/-- Character data is written without angle brackets. -/
theorem not_mem_escape (text : Bytes) : ∀ b ∈ escape text, b ≠ '<'.toUInt8 ∧ b ≠ '>'.toUInt8 := by
  have hreferences : ∀ reference ∈ ["&amp;", "&lt;", "&gt;"],
      ∀ b ∈ Bytes.ofString reference, b ≠ '<'.toUInt8 ∧ b ≠ '>'.toUInt8 := by
    decide +kernel
  intro b hb
  obtain ⟨a, -, hb⟩ := List.mem_flatMap.1 hb
  unfold escapeByte at hb
  split at hb
  · exact hreferences _ (by decide) b hb
  · split at hb
    · exact hreferences _ (by decide) b hb
    · next hless =>
      split at hb
      · exact hreferences _ (by decide) b hb
      · next hgreater =>
        rw [List.mem_singleton.1 hb]
        exact ⟨by simpa using hless, by simpa using hgreater⟩

end DocxTemplate.Xml
