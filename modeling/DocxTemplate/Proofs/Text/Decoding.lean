import DocxTemplate.Proofs.Text.Utf8

/-! # Texts and their characters

    A text can be read as characters in one way only: it is the UTF-8 form of what it is read as.

    * `Utf8.lead?_cases`: the leading bytes and what they ask for.
    * `Utf8.exists_of_head`: a text starts with the bytes of the character that is read off it.
    * `Utf8.decodeFrom_eq_ok_iff`: what a whole text is read as.
    * `Utf8.decodeLossy_ofString`: nothing is lost where there is no fault.
-/

namespace DocxTemplate

/-- What holds of every byte may be tried out. -/
theorem Bytes.of_forall_fin {P : UInt8 → Prop} (h : ∀ n : Fin 256, P (UInt8.ofNat n.val))
    (b : UInt8) : P b := by
  have hb := h ⟨b.toNat, b.toNat_lt⟩
  rwa [UInt8.ofNat_toNat] at hb

namespace Utf8

variable {text : Bytes} {b : UInt8} {l : Lead} {c : Char} {w i : Nat}

/-! ## One Character -/

/-- A byte that leads a character asks for one, two or three more. The ranges of the second
    byte are what keeps out longer forms than needed, surrogates and values that are too large. -/
theorem lead?_cases (h : lead? b = some l) :
    (0xC2 ≤ b.toNat ∧ b.toNat ≤ 0xDF ∧ l.tails = 1 ∧ l.low.toNat = 0x80 ∧ l.high.toNat = 0xBF) ∨
    (0xE0 ≤ b.toNat ∧ b.toNat ≤ 0xEF ∧ l.tails = 2 ∧
      l.low.toNat = (if b.toNat = 0xE0 then 0xA0 else 0x80) ∧
      l.high.toNat = (if b.toNat = 0xED then 0x9F else 0xBF)) ∨
    (0xF0 ≤ b.toNat ∧ b.toNat ≤ 0xF4 ∧ l.tails = 3 ∧
      l.low.toNat = (if b.toNat = 0xF0 then 0x90 else 0x80) ∧
      l.high.toNat = (if b.toNat = 0xF4 then 0x8F else 0xBF)) := by
  by_cases htwo : 0xC2 ≤ b.toNat ∧ b.toNat ≤ 0xDF
  · rw [lead?_two htwo] at h
    cases h
    exact Or.inl ⟨htwo.1, htwo.2, rfl, rfl, rfl⟩
  · by_cases hthree : 0xE0 ≤ b.toNat ∧ b.toNat ≤ 0xEF
    · rw [lead?_three hthree] at h
      cases h
      exact Or.inr (Or.inl ⟨hthree.1, hthree.2, rfl, apply_ite UInt8.toNat _ _ _,
        apply_ite UInt8.toNat _ _ _⟩)
    · by_cases hfour : 0xF0 ≤ b.toNat ∧ b.toNat ≤ 0xF4
      · rw [lead?_four hfour] at h
        cases h
        exact Or.inr (Or.inr ⟨hfour.1, hfour.2, rfl, apply_ite UInt8.toNat _ _ _,
          apply_ite UInt8.toNat _ _ _⟩)
      · -- No other byte leads a character.
        exfalso
        have hnone : ∀ b : UInt8, ¬ (0xC2 ≤ b.toNat ∧ b.toNat ≤ 0xDF) →
            ¬ (0xE0 ≤ b.toNat ∧ b.toNat ≤ 0xEF) → ¬ (0xF0 ≤ b.toNat ∧ b.toNat ≤ 0xF4) →
            lead? b = none :=
          Bytes.of_forall_fin (by decide +kernel)
        rw [hnone b htwo hthree hfour] at h
        cases h

/-- A byte that belongs to a character is in range. -/
theorem exists_of_headTails {n : Nat} {low high : UInt8} {value width : Nat}
    (h : headTails (n + 1) low high value width text = .char c w) :
    ∃ b rest, text = b :: rest ∧ low.toNat ≤ b.toNat ∧ b.toNat ≤ high.toNat ∧
      headTails n 0x80 0xBF (value * 64 + b.toNat % 64) (width + 1) rest = .char c w := by
  cases text with
  | nil => cases h
  | cons b rest =>
    rw [headTails] at h
    split at h
    · next hb =>
      exact ⟨b, rest, rfl, UInt8.le_iff_toNat_le.1 hb.1, UInt8.le_iff_toNat_le.1 hb.2, h⟩
    · cases h

/-- The last byte of a character settles which one it is. -/
theorem exists_of_headTails_one {low high : UInt8} {value width : Nat}
    (h : headTails 1 low high value width text = .char c w) :
    ∃ b rest, text = b :: rest ∧ low.toNat ≤ b.toNat ∧ b.toNat ≤ high.toNat ∧
      c = Char.ofNat (value * 64 + b.toNat % 64) ∧ w = width + 1 := by
  obtain ⟨b, rest, hrest, hlow, hhigh, h⟩ := exists_of_headTails h
  rw [headTails, Head.char.injEq] at h
  exact ⟨b, rest, hrest, hlow, hhigh, h.1.symm, h.2.symm⟩

theorem toNat_char {n : Nat} (h : n < 0xD800 ∨ (0xDFFF < n ∧ n < 0x110000)) :
    (Char.ofNat n).toNat = n := by
  have hvalid : n.isValidChar := h
  rw [Char.ofNat, dif_pos hvalid]
  rfl

theorem eq_ofNat {n : Nat} (h : b.toNat = n) : b = UInt8.ofNat n := by
  rw [← h, UInt8.ofNat_toNat]

theorem exists_of_headTails_two (hlow : 0xC2 ≤ b.toNat) (hhigh : b.toNat ≤ 0xDF)
    (hfirst : l.low.toNat = 0x80) (hlast : l.high.toNat = 0xBF)
    (h : headTails 1 l.low l.high (b.toNat % 32) 1 text = .char c w) :
    ∃ rest, b :: text = String.utf8EncodeChar c ++ rest ∧
      w = (String.utf8EncodeChar c).length := by
  obtain ⟨b₁, rest, rfl, hlow₁, hhigh₁, rfl, rfl⟩ := exists_of_headTails_one h
  have hcases := utf8EncodeChar_cases (Char.ofNat (b.toNat % 32 * 64 + b₁.toNat % 64))
  rw [toNat_char (by omega)] at hcases
  rcases hcases with ⟨hle, -⟩ | ⟨-, -, heq⟩ | ⟨hlt, -⟩ | ⟨hlt, -⟩
  · omega
  · rw [heq, ← eq_ofNat (b := b) (by omega), ← eq_ofNat (b := b₁) (by omega)]
    exact ⟨rest, rfl, rfl⟩
  · omega
  · omega

theorem exists_of_headTails_three (hlow : 0xE0 ≤ b.toNat) (hhigh : b.toNat ≤ 0xEF)
    (hfirst : l.low.toNat = (if b.toNat = 0xE0 then 0xA0 else 0x80))
    (hlast : l.high.toNat = (if b.toNat = 0xED then 0x9F else 0xBF))
    (h : headTails 2 l.low l.high (b.toNat % 16) 1 text = .char c w) :
    ∃ rest, b :: text = String.utf8EncodeChar c ++ rest ∧
      w = (String.utf8EncodeChar c).length := by
  obtain ⟨b₁, rest, rfl, hlow₁, hhigh₁, h⟩ := exists_of_headTails h
  obtain ⟨b₂, rest, rfl, hlow₂, hhigh₂, rfl, rfl⟩ := exists_of_headTails_one h
  change 128 ≤ b₂.toNat at hlow₂
  change b₂.toNat ≤ 191 at hhigh₂
  have hrange : 128 ≤ b₁.toNat ∧ b₁.toNat ≤ 191 := by
    split at hfirst <;> split at hlast <;> omega
  have hsmall : 0x7FF < (b.toNat % 16 * 64 + b₁.toNat % 64) * 64 + b₂.toNat % 64 := by
    split at hfirst <;> omega
  have hsurrogate : (b.toNat % 16 * 64 + b₁.toNat % 64) * 64 + b₂.toNat % 64 < 0xD800 ∨
      0xDFFF < (b.toNat % 16 * 64 + b₁.toNat % 64) * 64 + b₂.toNat % 64 := by
    split at hlast <;> omega
  have hcases := utf8EncodeChar_cases
    (Char.ofNat ((b.toNat % 16 * 64 + b₁.toNat % 64) * 64 + b₂.toNat % 64))
  rw [toNat_char (by omega)] at hcases
  rcases hcases with ⟨hle, -⟩ | ⟨-, hle, -⟩ | ⟨-, -, heq⟩ | ⟨hlt, -⟩
  · omega
  · omega
  · rw [heq, ← eq_ofNat (b := b) (by omega), ← eq_ofNat (b := b₁) (by omega),
      ← eq_ofNat (b := b₂) (by omega)]
    exact ⟨rest, rfl, rfl⟩
  · omega

theorem exists_of_headTails_four (hlow : 0xF0 ≤ b.toNat) (hhigh : b.toNat ≤ 0xF4)
    (hfirst : l.low.toNat = (if b.toNat = 0xF0 then 0x90 else 0x80))
    (hlast : l.high.toNat = (if b.toNat = 0xF4 then 0x8F else 0xBF))
    (h : headTails 3 l.low l.high (b.toNat % 8) 1 text = .char c w) :
    ∃ rest, b :: text = String.utf8EncodeChar c ++ rest ∧
      w = (String.utf8EncodeChar c).length := by
  obtain ⟨b₁, rest, rfl, hlow₁, hhigh₁, h⟩ := exists_of_headTails h
  obtain ⟨b₂, rest, rfl, hlow₂, hhigh₂, h⟩ := exists_of_headTails h
  obtain ⟨b₃, rest, rfl, hlow₃, hhigh₃, rfl, rfl⟩ := exists_of_headTails_one h
  change 128 ≤ b₂.toNat at hlow₂
  change b₂.toNat ≤ 191 at hhigh₂
  change 128 ≤ b₃.toNat at hlow₃
  change b₃.toNat ≤ 191 at hhigh₃
  have hrange : 128 ≤ b₁.toNat ∧ b₁.toNat ≤ 191 := by
    split at hfirst <;> split at hlast <;> omega
  have hsmall : 0xFFFF < ((b.toNat % 8 * 64 + b₁.toNat % 64) * 64 + b₂.toNat % 64) * 64 +
      b₃.toNat % 64 := by
    split at hfirst <;> omega
  have hlarge : ((b.toNat % 8 * 64 + b₁.toNat % 64) * 64 + b₂.toNat % 64) * 64 +
      b₃.toNat % 64 < 0x110000 := by
    split at hlast <;> omega
  have hcases := utf8EncodeChar_cases (Char.ofNat
    (((b.toNat % 8 * 64 + b₁.toNat % 64) * 64 + b₂.toNat % 64) * 64 + b₃.toNat % 64))
  rw [toNat_char (by omega)] at hcases
  rcases hcases with ⟨hle, -⟩ | ⟨-, hle, -⟩ | ⟨-, hle, -⟩ | ⟨-, heq⟩
  · omega
  · omega
  · omega
  · rw [heq, ← eq_ofNat (b := b) (by omega), ← eq_ofNat (b := b₁) (by omega),
      ← eq_ofNat (b := b₂) (by omega), ← eq_ofNat (b := b₃) (by omega)]
    exact ⟨rest, rfl, rfl⟩

/-- A text starts with the bytes of the character that is read off it. -/
theorem exists_of_head (h : head text = .char c w) :
    ∃ rest, text = String.utf8EncodeChar c ++ rest ∧ w = (String.utf8EncodeChar c).length := by
  cases text with
  | nil => cases h
  | cons b rest =>
    by_cases hb : b < 0x80
    · rw [head, if_pos hb, Head.char.injEq] at h
      obtain ⟨rfl, rfl⟩ := h
      have hsmall : b.toNat < 128 := UInt8.lt_iff_toNat_lt.1 hb
      have hcases := utf8EncodeChar_cases (Char.ofNat b.toNat)
      rw [toNat_char (by omega)] at hcases
      rcases hcases with ⟨-, heq⟩ | ⟨hlt, -⟩ | ⟨hlt, -⟩ | ⟨hlt, -⟩
      · rw [heq, UInt8.ofNat_toNat]
        exact ⟨rest, rfl, rfl⟩
      all_goals omega
    · rw [head, if_neg hb] at h
      cases hl : lead? b with
      | none => simp [hl] at h
      | some l =>
        simp only [hl] at h
        rcases lead?_cases hl with ⟨hlow, hhigh, htails, hfirst, hlast⟩ |
          ⟨hlow, hhigh, htails, hfirst, hlast⟩ | ⟨hlow, hhigh, htails, hfirst, hlast⟩
        · rw [htails] at h
          exact exists_of_headTails_two hlow hhigh hfirst hlast h
        · rw [htails] at h
          exact exists_of_headTails_three hlow hhigh hfirst hlast h
        · rw [htails] at h
          exact exists_of_headTails_four hlow hhigh hfirst hlast h

/-- An ASCII character is one byte. -/
theorem utf8EncodeChar_of_lt (h : c.toNat < 128) :
    String.utf8EncodeChar c = [UInt8.ofNat c.toNat] := by
  rcases utf8EncodeChar_cases c with ⟨-, heq⟩ | ⟨hlt, -⟩ | ⟨hlt, -⟩ | ⟨hlt, -⟩
  · exact heq
  all_goals omega

/-! ## Whole Texts -/

/-- A text is read as the characters whose UTF-8 form it is, and as no others. -/
theorem decodeFrom_eq_ok_iff {cs : List Char} :
    decodeFrom i text = .ok cs ↔ text = cs.flatMap String.utf8EncodeChar := by
  constructor
  · intro h
    have hchars := decoded_of_decodeFrom h
    clear h
    induction hchars with
    | nil => rfl
    | @char b rest c w cs first next ih =>
      obtain ⟨-, -, hpos⟩ := head_append first []
      obtain ⟨behind, hbehind, hw⟩ := exists_of_head first
      have hdrop : rest.drop (w - 1) = behind := by
        have hskip : (b :: rest).drop w = rest.drop (w - 1) := by
          rw [← Nat.sub_add_cancel hpos, List.drop_succ_cons, Nat.add_sub_cancel]
        rw [← hskip, hbehind, hw, List.drop_left]
      rw [hbehind, List.flatMap_cons, ← ih, hdrop]
  · rintro rfl
    have h := decodeFrom_ofString i (String.ofList cs)
    rwa [Bytes.ofString, String.toList_ofList] at h

/-- Different characters are written differently. -/
theorem flatMap_utf8EncodeChar_inj {cs ds : List Char}
    (h : cs.flatMap String.utf8EncodeChar = ds.flatMap String.utf8EncodeChar) : cs = ds := by
  have hcs := (decodeFrom_eq_ok_iff (i := 0)).2 h
  rw [(decodeFrom_eq_ok_iff (i := 0)).2 rfl] at hcs
  exact Except.ok.inj hcs

/-- Where there is no fault nothing is replaced. -/
theorem lossyChars_of_decodeFrom {cs : List Char} (h : decodeFrom i text = .ok cs) :
    lossyChars text = cs := by
  have hchars := decoded_of_decodeFrom h
  clear h
  induction hchars with
  | nil => rw [lossyChars]
  | char first next ih =>
    rw [lossyChars, first]
    exact congrArg (_ :: ·) ih

theorem decodeLossy_ofString (s : String) : decodeLossy (Bytes.ofString s) = s := by
  rw [decodeLossy, lossyChars_of_decodeFrom (decodeFrom_ofString 0 s), String.ofList_toList]

end Utf8

end DocxTemplate
