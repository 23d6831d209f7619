/-! # Bytes

    The text of a package part is kept as the bytes it is stored in, so every
    position is a byte position and text that nothing touches stays as it is.
    This module holds what all text work shares:

    * `Bytes.ofString`: the UTF-8 form of a string.
    * `Bytes.indexOf?`: the first place where a pattern stands.
    * `Bytes.eraseAll`: every occurrence of a pattern deleted, and their number.
    * `isSpace`: ASCII white space, which delimits names inside a tag.
-/

namespace DocxTemplate

/-- The text of a part, as stored. -/
abbrev Bytes := List UInt8

/-- ASCII white space: space, tab, line feed, form feed and carriage return. -/
def isSpace (b : UInt8) : Bool :=
  b == 0x20 || b == 0x09 || b == 0x0A || b == 0x0C || b == 0x0D

namespace Bytes

/-- The UTF-8 form of a string. -/
def ofString (s : String) : Bytes :=
  s.toList.flatMap String.utf8EncodeChar

/-- Whether a text starts with the written pattern. -/
def opensWith (pattern : String) (text : Bytes) : Bool :=
  (ofString pattern).isPrefixOf text

/-! ## Searching -/

/-- The first position at which `pattern` stands in a text. -/
def indexOf? (pattern : Bytes) : Bytes → Option Nat
  | [] => if pattern.isEmpty then some 0 else none
  | b :: rest =>
    if pattern.isPrefixOf (b :: rest) then some 0
    else (indexOf? pattern rest).map (· + 1)

/-- A pattern that is found lies wholly inside the text. -/
theorem indexOf?_add_length_le {pattern text : Bytes} {i : Nat}
    (h : indexOf? pattern text = some i) : i + pattern.length ≤ text.length := by
  induction text generalizing i with
  | nil =>
    simp only [indexOf?, List.isEmpty_iff, Option.ite_none_right_eq_some, Option.some.injEq] at h
    obtain ⟨rfl, rfl⟩ := h
    simp
  | cons b rest ih =>
    rw [indexOf?] at h
    split at h
    · next hp =>
      have := (List.isPrefixOf_iff_prefix.1 hp).length_le
      simp at h
      omega
    · cases hr : indexOf? pattern rest with
      | none => simp [hr] at h
      | some j =>
        have := ih hr
        simp [hr] at h
        simp
        omega

/-- A single byte that is found leaves room for itself. -/
theorem indexOf?_singleton_lt {b : UInt8} {text : Bytes} {i : Nat}
    (h : indexOf? [b] text = some i) : i < text.length := by
  have := indexOf?_add_length_le h
  simp at this
  omega

/-! ## Deleting -/

/-- The text without the occurrences of `pattern`, taken from left to right
    without overlap, and how many there were. -/
def eraseAll (pattern : Bytes) : Bytes → Nat × Bytes
  | [] => (0, [])
  | b :: rest =>
    if pattern.isPrefixOf (b :: rest) then
      let (n, kept) := eraseAll pattern (rest.drop (pattern.length - 1))
      (n + 1, kept)
    else
      let (n, kept) := eraseAll pattern rest
      (n, b :: kept)
termination_by text => text.length
decreasing_by all_goals (simp only [List.length_cons, List.length_drop]; omega)

/-- The text without the bytes at its end that satisfy `p`. -/
def trimEnd (p : UInt8 → Bool) (text : Bytes) : Bytes :=
  (text.reverse.dropWhile p).reverse

end Bytes

end DocxTemplate
