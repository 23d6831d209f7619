import Mathlib.Data.List.TakeWhile
import DocxTemplate.Proofs.Text.Decoding
import DocxTemplate.Text.Name

/-! # Names in a text

    * `Name.IsName`: a whole name, said byte by byte.
    * `Name.isName_leading` and `Name.IsName.leading_eq`: what is read as a name is one, and the
      whole of a name is read.
    * `Name.isAscii_of_isInner`: a byte of a name is a visible ASCII character.
-/

namespace DocxTemplate.Name

variable {text letters : Bytes}

/-! ## Bytes -/

theorem isInner_of_isStart {b : UInt8} (h : isStart b = true) : isInner b = true := by
  rw [isInner, h]
  rfl

theorem isInner_of_isDigit {b : UInt8} (h : isDigit b = true) : isInner b = true := by
  rw [isInner, h, Bool.or_true]
  rfl

/-- The letters among the hexadecimal digits may stand in a name, too. -/
theorem isInner_of_isHexDigit {b : UInt8} (h : isHexDigit b = true) : isInner b = true := by
  have hall : ∀ b : UInt8, isHexDigit b = true → isInner b = true :=
    Bytes.of_forall_fin (by decide +kernel)
  exact hall b h

/-- What goes on a name is a visible ASCII character and no brace. -/
theorem isAscii_of_isInner {b : UInt8} (h : isInner b = true) :
    Blank.IsAscii false b ∧ b ≠ 0x7B ∧ b ≠ 0x7D := by
  have hall : ∀ b : UInt8, isInner b = true →
      Blank.IsAscii false b ∧ b ≠ 0x7B ∧ b ≠ 0x7D :=
    Bytes.of_forall_fin (by decide +kernel)
  exact hall b h

/-! ## Whole names -/

/-- A letter or an underscore, then letters, digits, underscores, dots and hyphens. -/
def IsName (letters : Bytes) : Prop :=
  ∃ b rest, letters = b :: rest ∧ isStart b = true ∧ ∀ c ∈ rest, isInner c = true

theorem IsName.isInner_of_mem (h : IsName letters) {b : UInt8} (hb : b ∈ letters) :
    isInner b = true := by
  obtain ⟨a, rest, rfl, hstart, hinner⟩ := h
  rcases List.mem_cons.1 hb with rfl | hb
  · exact isInner_of_isStart hstart
  · exact hinner b hb

theorem IsName.leading_eq (h : IsName letters) : leading letters = letters := by
  obtain ⟨b, rest, rfl, hstart, hinner⟩ := h
  rw [leading, if_pos hstart, List.takeWhile_eq_self_iff.2 hinner]

/-- What is read as a name is one. -/
theorem isName_leading (h : leading text ≠ []) : IsName (leading text) := by
  unfold leading at h ⊢
  split at h
  · next b rest =>
    split at h
    · next hstart =>
      rw [if_pos hstart]
      exact ⟨b, _, rfl, hstart, fun c hc => List.mem_takeWhile_imp hc⟩
    · exact absurd rfl h
  · exact absurd rfl h

end DocxTemplate.Name
