import Mathlib.Data.List.Basic
import DocxTemplate.Text.Blank

/-! # Characters and their bytes

    A text is read character by character, and each character is read off its own bytes.

    * `Utf8.head_append` and `Utf8.head_take`: the bytes behind a character do not matter.
    * `Utf8.Decoded`: how a text is read, character by character.
    * `Utf8.decodeFrom_append`: a text may be read in parts, cut between two characters.
    * `Utf8.head_utf8EncodeChar` and `Utf8.decodeFrom_ofString`: a character, and so a string, is
      read back from its UTF-8 form.
    * `Blank.allBlank_take_leading`: the blanks at the start of a text are blank characters.
    * `Blank.trimEnd_append`: where the blanks at the end of a text begin.
-/

namespace DocxTemplate

namespace Utf8

variable {front : Bytes} {c : Char} {w i : Nat}

/-- The bytes behind a character do not matter for it. -/
theorem headTails_append {n : Nat} {low high : UInt8} {value width : Nat}
    (h : headTails n low high value width front = .char c w) (rest : Bytes) :
    headTails n low high value width (front ++ rest) = .char c w ∧ w ≤ width + front.length ∧
      width ≤ w := by
  induction n generalizing low high value width front with
  | zero =>
    simp only [headTails, Head.char.injEq] at h ⊢
    exact ⟨h, by omega, by omega⟩
  | succ n ih =>
    cases front with
    | nil => simp [headTails] at h
    | cons b front =>
      rw [List.cons_append, headTails]
      rw [headTails] at h
      split at h
      · next hb =>
        obtain ⟨heq, hle, hge⟩ := ih h
        rw [if_pos hb]
        refine ⟨heq, ?_, by omega⟩
        rw [List.length_cons]
        omega
      · simp at h

theorem head_append (h : head front = .char c w) (rest : Bytes) :
    head (front ++ rest) = .char c w ∧ w ≤ front.length ∧ 0 < w := by
  cases front with
  | nil => simp [head] at h
  | cons b front =>
    rw [List.cons_append]
    unfold head at h ⊢
    dsimp only at h ⊢
    by_cases hb : b < 0x80
    · rw [if_pos hb] at h ⊢
      simp only [Head.char.injEq] at h
      rw [List.length_cons, ← h.2]
      exact ⟨by rw [h.1], by omega, by omega⟩
    · rw [if_neg hb] at h ⊢
      cases hl : lead? b with
      | none => simp [hl] at h
      | some l =>
        simp only [hl] at h ⊢
        obtain ⟨heq, hle, hge⟩ := headTails_append h rest
        rw [List.length_cons]
        exact ⟨heq, by omega, by omega⟩

theorem headTails_take {n : Nat} {low high : UInt8} {value width : Nat} {text : Bytes}
    (h : headTails n low high value width text = .char c w) :
    headTails n low high value width (text.take (w - width)) = .char c w ∧ width ≤ w := by
  induction n generalizing low high value width text with
  | zero =>
    simp only [headTails, Head.char.injEq] at h ⊢
    exact ⟨h, by omega⟩
  | succ n ih =>
    cases text with
    | nil => simp [headTails] at h
    | cons b text =>
      rw [headTails] at h
      split at h
      · next hb =>
        obtain ⟨heq, hle⟩ := ih h
        obtain ⟨k, hk⟩ : ∃ k, w - width = k + 1 := ⟨w - width - 1, by omega⟩
        have hk' : w - (width + 1) = k := by omega
        rw [hk'] at heq
        rw [hk, List.take_succ_cons, headTails, if_pos hb]
        exact ⟨heq, by omega⟩
      · simp at h

/-- A character is read off its own bytes. -/
theorem head_take {text : Bytes} (h : head text = .char c w) :
    head (text.take w) = .char c w := by
  obtain ⟨-, -, hpos⟩ := head_append h []
  cases text with
  | nil => simp [head] at h
  | cons b text =>
    obtain ⟨k, rfl⟩ : ∃ k, w = k + 1 := ⟨w - 1, by omega⟩
    rw [List.take_succ_cons]
    unfold head at h ⊢
    dsimp only at h ⊢
    by_cases hb : b < 0x80
    · rw [if_pos hb] at h ⊢
      exact h
    · rw [if_neg hb] at h ⊢
      cases hl : lead? b with
      | none => simp [hl] at h
      | some l =>
        simp only [hl] at h ⊢
        exact (headTails_take h).1

/-- A text is read character by character, whatever its position. -/
inductive Decoded : Bytes → List Char → Prop where
  | nil : Decoded [] []
  | char {b rest c w cs} (first : head (b :: rest) = .char c w)
      (next : Decoded (rest.drop (w - 1)) cs) : Decoded (b :: rest) (c :: cs)

theorem decoded_of_decodeFrom {text : Bytes} {cs : List Char} (h : decodeFrom i text = .ok cs) :
    Decoded text cs := by
  induction hn : text.length using Nat.strongRecOn generalizing text cs i with
  | ind n ih =>
    cases text with
    | nil =>
      rw [decodeFrom] at h
      cases h
      exact .nil
    | cons b rest =>
      rw [List.length_cons] at hn
      rw [decodeFrom] at h
      split at h
      · next c w hc =>
        cases hd : decodeFrom (i + w) (rest.drop (w - 1)) with
        | error fault =>
          rw [hd] at h
          cases h
        | ok others =>
          rw [hd] at h
          cases h
          exact .char hc (ih _ (by rw [List.length_drop]; omega) hd rfl)
      · cases h
      · cases h

/-- A text whose first part is made of whole characters is read part by part, wherever it
    stands. -/
theorem decodeFrom_append {cs : List Char} (h : decodeFrom i front = .ok cs) (j : Nat)
    (rest : Bytes) :
    decodeFrom j (front ++ rest) = (cs ++ ·) <$> decodeFrom (j + front.length) rest := by
  have hchars := decoded_of_decodeFrom h
  clear h
  induction hchars generalizing j with
  | nil => cases hd : decodeFrom j rest <;> simp [hd]
  | @char b front c w cs first next ih =>
    obtain ⟨hhead, hle, hpos⟩ := head_append first rest
    rw [List.length_cons] at hle
    have hplace : j + w + (front.drop (w - 1)).length = j + (b :: front).length := by
      rw [List.length_drop, List.length_cons]
      omega
    rw [List.cons_append] at hhead
    rw [List.cons_append, decodeFrom, hhead]
    dsimp only
    rw [List.drop_append_of_le_length (by omega), ih, hplace]
    cases decodeFrom (j + (b :: front).length) rest <;> simp

/-! ## The bytes of a character -/

/-- The bytes of a character, by how many there are. -/
theorem utf8EncodeChar_cases (c : Char) :
    (c.toNat ≤ 0x7F ∧ String.utf8EncodeChar c = [UInt8.ofNat c.toNat]) ∨
    (0x7F < c.toNat ∧ c.toNat ≤ 0x7FF ∧ String.utf8EncodeChar c =
      [UInt8.ofNat (c.toNat / 64 % 32 + 192), UInt8.ofNat (c.toNat % 64 + 128)]) ∨
    (0x7FF < c.toNat ∧ c.toNat ≤ 0xFFFF ∧ String.utf8EncodeChar c =
      [UInt8.ofNat (c.toNat / 4096 % 16 + 224), UInt8.ofNat (c.toNat / 64 % 64 + 128),
        UInt8.ofNat (c.toNat % 64 + 128)]) ∨
    (0xFFFF < c.toNat ∧ String.utf8EncodeChar c =
      [UInt8.ofNat (c.toNat / 262144 % 8 + 240), UInt8.ofNat (c.toNat / 4096 % 64 + 128),
        UInt8.ofNat (c.toNat / 64 % 64 + 128), UInt8.ofNat (c.toNat % 64 + 128)]) := by
  have hnat : c.val.toNat = c.toNat := rfl
  unfold String.utf8EncodeChar
  dsimp only
  rw [hnat]
  by_cases h₁ : c.toNat ≤ 0x7F
  · exact Or.inl ⟨h₁, if_pos h₁⟩
  · rw [if_neg h₁]
    by_cases h₂ : c.toNat ≤ 0x7FF
    · exact Or.inr (Or.inl ⟨by omega, h₂, if_pos h₂⟩)
    · rw [if_neg h₂]
      by_cases h₃ : c.toNat ≤ 0xFFFF
      · exact Or.inr (Or.inr (Or.inl ⟨by omega, h₃, if_pos h₃⟩))
      · exact Or.inr (Or.inr (Or.inr ⟨by omega, if_neg h₃⟩))

/-- A number is the code of a character below the surrogates or above them. -/
theorem toNat_bounds (c : Char) : c.toNat < 0xD800 ∨ (0xDFFF < c.toNat ∧ c.toNat < 0x110000) := by
  have := c.valid
  exact this

theorem toNat_ofNat {n : Nat} (h : n < 256) : (UInt8.ofNat n).toNat = n := by
  rw [UInt8.toNat_ofNat']
  omega

/-- A tail byte holds six bits. -/
theorem tail_bits (n : Nat) : (UInt8.ofNat (n % 64 + 128)).toNat = n % 64 + 128 :=
  toNat_ofNat (by omega)

/-- A tail byte that is in range adds its six bits. -/
theorem headTails_tail {n m : Nat} {low high : UInt8} {value width : Nat} {rest : Bytes}
    (hlow : low.toNat ≤ m % 64 + 128) (hhigh : m % 64 + 128 ≤ high.toNat) :
    headTails (n + 1) low high value width (UInt8.ofNat (m % 64 + 128) :: rest) =
      headTails n 0x80 0xBF (value * 64 + m % 64) (width + 1) rest := by
  have hbits : (m % 64 + 128) % 64 = m % 64 := by omega
  rw [← tail_bits] at hlow hhigh
  rw [headTails, if_pos ⟨UInt8.le_iff_toNat_le.2 hlow, UInt8.le_iff_toNat_le.2 hhigh⟩, tail_bits,
    hbits]

/-- A number with the six bits of each of `ms` behind its own. -/
def sixBits (value : Nat) (ms : List Nat) : Nat :=
  ms.foldl (fun value m => value * 64 + m % 64) value

/-- The later tail bytes may hold any six bits, and all of them belong to the character. -/
theorem headTails_sixBits {value width : Nat} (ms : List Nat) (rest : Bytes) :
    headTails ms.length 0x80 0xBF value width
        (ms.map (fun m => UInt8.ofNat (m % 64 + 128)) ++ rest) =
      .char (Char.ofNat (sixBits value ms)) (width + ms.length) := by
  induction ms generalizing value width with
  | nil => rw [List.length_nil, headTails, Nat.add_zero, sixBits, List.foldl_nil]
  | cons m ms ih =>
    have hrange : 128 ≤ m % 64 + 128 ∧ m % 64 + 128 ≤ 191 := by omega
    rw [List.length_cons, List.map_cons, List.cons_append, headTails_tail hrange.1 hrange.2, ih,
      sixBits, sixBits, List.foldl_cons, Nat.add_assoc, Nat.add_comm 1]

/-- What the first byte of a character of several bytes asks for. -/
theorem head_lead {b : UInt8} {l : Lead} {rest : Bytes} (hb : 0x80 ≤ b.toNat)
    (hl : lead? b = some l) : head (b :: rest) =
      headTails l.tails l.low l.high (b.toNat % Nat.pow 2 (6 - l.tails)) 1 rest := by
  have hlarge : ¬ b < 0x80 := by
    rw [UInt8.lt_iff_toNat_lt]
    change ¬ _ < 128
    omega
  rw [head, if_neg hlarge, hl]

/-- A character of several bytes is read if the first tail byte is in the range that the leading
    byte asks for. -/
theorem head_sixBits {b : UInt8} {l : Lead} (m : Nat) (ms : List Nat) (hb : 0x80 ≤ b.toNat)
    (hl : lead? b = some l) (htails : l.tails = ms.length + 1)
    (hlow : l.low.toNat ≤ m % 64 + 128) (hhigh : m % 64 + 128 ≤ l.high.toNat) (rest : Bytes) :
    head (b :: (m :: ms).map (fun m => UInt8.ofNat (m % 64 + 128)) ++ rest) =
      .char (Char.ofNat (sixBits (b.toNat % Nat.pow 2 (6 - l.tails)) (m :: ms)))
        (l.tails + 1) := by
  rw [List.cons_append, head_lead hb hl, htails, List.map_cons, List.cons_append,
    headTails_tail hlow hhigh, headTails_sixBits, sixBits, sixBits, List.foldl_cons]
  exact congrArg _ (by omega)

/-- The ranges of the leading bytes as numbers. -/
theorem lead?_two {b : UInt8} (h : 0xC2 ≤ b.toNat ∧ b.toNat ≤ 0xDF) :
    lead? b = some ⟨1, 0x80, 0xBF⟩ := by
  unfold lead?
  simp only [UInt8.le_iff_toNat_le]
  rw [if_pos]
  exact h

theorem lead?_three {b : UInt8} (h : 0xE0 ≤ b.toNat ∧ b.toNat ≤ 0xEF) :
    lead? b = some ⟨2, if b.toNat = 0xE0 then 0xA0 else 0x80,
      if b.toNat = 0xED then 0x9F else 0xBF⟩ := by
  have hrange : ∀ n : Fin 16, lead? (UInt8.ofNat (0xE0 + n.val)) =
      some ⟨2, if 0xE0 + n.val = 0xE0 then 0xA0 else 0x80,
        if 0xE0 + n.val = 0xED then 0x9F else 0xBF⟩ := by
    decide
  have hb := hrange ⟨b.toNat - 0xE0, by omega⟩
  have hsum : 0xE0 + (b.toNat - 0xE0) = b.toNat := by omega
  simp only [hsum] at hb
  rwa [UInt8.ofNat_toNat] at hb

theorem lead?_four {b : UInt8} (h : 0xF0 ≤ b.toNat ∧ b.toNat ≤ 0xF4) :
    lead? b = some ⟨3, if b.toNat = 0xF0 then 0x90 else 0x80,
      if b.toNat = 0xF4 then 0x8F else 0xBF⟩ := by
  have hrange : ∀ n : Fin 5, lead? (UInt8.ofNat (0xF0 + n.val)) =
      some ⟨3, if 0xF0 + n.val = 0xF0 then 0x90 else 0x80,
        if 0xF0 + n.val = 0xF4 then 0x8F else 0xBF⟩ := by
    decide
  have hb := hrange ⟨b.toNat - 0xF0, by omega⟩
  have hsum : 0xF0 + (b.toNat - 0xF0) = b.toNat := by omega
  simp only [hsum] at hb
  rwa [UInt8.ofNat_toNat] at hb

/-- A character of two bytes: the leading one holds all bits above the last six. -/
theorem head_of_two {n : Nat} (hlt : 0x7F < n) (hle : n ≤ 0x7FF) (rest : Bytes) :
    head ([UInt8.ofNat (n / 64 % 32 + 192), UInt8.ofNat (n % 64 + 128)] ++ rest) =
      .char (Char.ofNat n) 2 := by
  have hlead : (UInt8.ofNat (n / 64 % 32 + 192)).toNat = n / 64 + 192 := by
    rw [toNat_ofNat (by omega)]
    omega
  have hfirst : 128 ≤ n % 64 + 128 ∧ n % 64 + 128 ≤ 191 := by omega
  have hvalue : sixBits ((n / 64 + 192) % 32) [n] = n := by
    change _ % 32 * 64 + n % 64 = n
    omega
  have hhead := head_sixBits (b := UInt8.ofNat (n / 64 % 32 + 192)) n [] (by omega)
    (lead?_two (by omega)) rfl hfirst.1 hfirst.2 rest
  rw [hlead] at hhead
  exact hhead.trans (congrArg (fun v => Head.char (Char.ofNat v) 2) hvalue)

/-- A character of three bytes that is no surrogate. -/
theorem head_of_three {n : Nat} (hlt : 0x7FF < n) (hle : n ≤ 0xFFFF)
    (hvalid : n < 0xD800 ∨ 0xDFFF < n) (rest : Bytes) :
    head ([UInt8.ofNat (n / 4096 % 16 + 224), UInt8.ofNat (n / 64 % 64 + 128),
      UInt8.ofNat (n % 64 + 128)] ++ rest) = .char (Char.ofNat n) 3 := by
  have hlead : (UInt8.ofNat (n / 4096 % 16 + 224)).toNat = n / 4096 + 224 := by
    rw [toNat_ofNat (by omega)]
    omega
  -- No longer form than needed is written, and no surrogate.
  have hlow : (if n / 4096 + 224 = 0xE0 then (0xA0 : UInt8) else 0x80).toNat ≤
      n / 64 % 64 + 128 := by
    split
    · change 160 ≤ _
      omega
    · change 128 ≤ _
      omega
  have hhigh : n / 64 % 64 + 128 ≤
      (if n / 4096 + 224 = 0xED then (0x9F : UInt8) else 0xBF).toNat := by
    split
    · change _ ≤ 159
      omega
    · change _ ≤ 191
      omega
  have hvalue : sixBits ((n / 4096 + 224) % 16) [n / 64, n] = n := by
    change (_ % 16 * 64 + n / 64 % 64) * 64 + n % 64 = n
    omega
  rw [← hlead] at hlow hhigh
  have hhead := head_sixBits (n / 64) [n] (by omega) (lead?_three (by omega)) rfl hlow hhigh rest
  rw [hlead] at hhead
  exact hhead.trans (congrArg (fun v => Head.char (Char.ofNat v) 3) hvalue)

/-- A character of four bytes. -/
theorem head_of_four {n : Nat} (hlt : 0xFFFF < n) (hvalid : n < 0x110000) (rest : Bytes) :
    head ([UInt8.ofNat (n / 262144 % 8 + 240), UInt8.ofNat (n / 4096 % 64 + 128),
      UInt8.ofNat (n / 64 % 64 + 128), UInt8.ofNat (n % 64 + 128)] ++ rest) =
        .char (Char.ofNat n) 4 := by
  have hlead : (UInt8.ofNat (n / 262144 % 8 + 240)).toNat = n / 262144 + 240 := by
    rw [toNat_ofNat (by omega)]
    omega
  -- No longer form than needed is written, and no number above the last character.
  have hlow : (if n / 262144 + 240 = 0xF0 then (0x90 : UInt8) else 0x80).toNat ≤
      n / 4096 % 64 + 128 := by
    split
    · change 144 ≤ _
      omega
    · change 128 ≤ _
      omega
  have hhigh : n / 4096 % 64 + 128 ≤
      (if n / 262144 + 240 = 0xF4 then (0x8F : UInt8) else 0xBF).toNat := by
    split
    · change _ ≤ 143
      omega
    · change _ ≤ 191
      omega
  have hvalue : sixBits ((n / 262144 + 240) % 8) [n / 4096, n / 64, n] = n := by
    change ((_ % 8 * 64 + n / 4096 % 64) * 64 + n / 64 % 64) * 64 + n % 64 = n
    omega
  rw [← hlead] at hlow hhigh
  have hhead := head_sixBits (n / 4096) [n / 64, n] (by omega) (lead?_four (by omega)) rfl hlow
    hhigh rest
  rw [hlead] at hhead
  exact hhead.trans (congrArg (fun v => Head.char (Char.ofNat v) 4) hvalue)

/-- The characters of a text are read off their bytes. -/
theorem head_utf8EncodeChar (c : Char) (rest : Bytes) :
    head (String.utf8EncodeChar c ++ rest) = .char c c.utf8Size := by
  have hvalid := toNat_bounds c
  suffices hsame : head (String.utf8EncodeChar c ++ rest) =
      .char (Char.ofNat c.toNat) (String.utf8EncodeChar c).length by
    rw [hsame, Char.ofNat_toNat, String.length_utf8EncodeChar]
  rcases utf8EncodeChar_cases c with ⟨hle, heq⟩ | ⟨hlt, hle, heq⟩ | ⟨hlt, hle, heq⟩ | ⟨hlt, heq⟩
  · have hbyte : (UInt8.ofNat c.toNat).toNat = c.toNat := toNat_ofNat (by omega)
    have hascii : UInt8.ofNat c.toNat < 0x80 := by
      rw [UInt8.lt_iff_toNat_lt, hbyte]
      change _ < 128
      omega
    rw [heq, List.singleton_append, head, if_pos hascii, hbyte, List.length_singleton]
  · rw [heq]
    exact head_of_two hlt hle rest
  · rw [heq]
    exact head_of_three hlt hle (by omega) rest
  · rw [heq]
    exact head_of_four hlt (by omega) rest

/-- A string is read back from its UTF-8 form. -/
theorem decodeFrom_ofString (i : Nat) (s : String) :
    decodeFrom i (Bytes.ofString s) = .ok s.toList := by
  rw [Bytes.ofString]
  induction s.toList generalizing i with
  | nil => rw [List.flatMap_nil, decodeFrom]
  | cons c cs ih =>
    have hhead := head_utf8EncodeChar c (cs.flatMap String.utf8EncodeChar)
    have hlength := String.length_utf8EncodeChar c
    rw [List.flatMap_cons]
    cases hbytes : String.utf8EncodeChar c with
    | nil =>
      rw [hbytes] at hlength
      exact absurd hlength (Nat.ne_of_lt c.utf8Size_pos)
    | cons b rest =>
      rw [hbytes, List.length_cons] at hlength
      rw [hbytes] at hhead
      rw [List.cons_append] at hhead ⊢
      rw [decodeFrom, hhead]
      dsimp only
      rw [← hlength, Nat.add_sub_cancel, List.drop_left, ih]
      rfl

/-! ## ASCII in a text -/

/-- The bytes behind the first one of a character are no ASCII. -/
theorem high_of_headTails {n : Nat} {low high : UInt8} {value width : Nat} {text : Bytes}
    (hlow : 0x80 ≤ low) (h : headTails n low high value width text = .char c w) {b : UInt8}
    (hb : b ∈ text.take (w - width)) : 0x80 ≤ b := by
  induction n generalizing low high value width text with
  | zero =>
    simp only [headTails, Head.char.injEq] at h
    rw [h.2, Nat.sub_self] at hb
    cases hb
  | succ n ih =>
    cases text with
    | nil => simp [headTails] at h
    | cons a text =>
      rw [headTails] at h
      split at h
      · next ha =>
        have hle := (headTails_take h).2
        obtain ⟨k, hk⟩ : ∃ k, w - width = k + 1 := ⟨w - width - 1, by omega⟩
        rw [hk, List.take_succ_cons] at hb
        rcases List.mem_cons.1 hb with rfl | hb
        · exact UInt8.le_trans hlow ha.1
        · refine ih (by decide) h ?_
          rwa [show w - (width + 1) = k by omega]
      · cases h

theorem low_of_lead? {b : UInt8} {l : Lead} (h : lead? b = some l) : 0x80 ≤ l.low := by
  unfold lead? at h
  split_ifs at h <;> cases h <;> decide

/-- An ASCII byte of a text is a character of it. -/
theorem mem_of_decodeFrom {text : Bytes} {cs : List Char} (h : decodeFrom i text = .ok cs)
    {b : UInt8} (hb : b ∈ text) (hascii : b < 0x80) : Char.ofNat b.toNat ∈ cs := by
  have hchars := decoded_of_decodeFrom h
  clear h
  induction hchars with
  | nil => cases hb
  | @char a text c w cs first next ih =>
    -- The byte is the character itself, or stands behind it.
    unfold head at first
    dsimp only at first
    by_cases ha : a < 0x80
    · rw [if_pos ha, Head.char.injEq] at first
      obtain ⟨rfl, rfl⟩ := first
      rcases List.mem_cons.1 hb with rfl | hb
      · exact List.mem_cons_self
      · exact List.mem_cons_of_mem _ (ih hb)
    · rw [if_neg ha] at first
      cases hl : lead? a with
      | none => simp [hl] at first
      | some l =>
        simp only [hl] at first
        rcases List.mem_cons.1 hb with rfl | hb
        · exact absurd hascii ha
        · rw [← List.take_append_drop (w - 1) text, List.mem_append] at hb
          rcases hb with hb | hb
          · have hhigh := high_of_headTails (low_of_lead? hl) first hb
            exact absurd hascii (UInt8.not_lt.2 hhigh)
          · exact List.mem_cons_of_mem _ (ih hb)

/-! ## In front of an ASCII byte -/

/-- The bytes behind the first one of a character all stand before an ASCII byte behind it. -/
theorem headTails_of_append {n : Nat} {low high : UInt8} {value width : Nat} {b : UInt8}
    {rest : Bytes} (hlow : 0x80 ≤ low) (hb : b < 0x80)
    (h : headTails n low high value width (front ++ b :: rest) = .char c w) :
    headTails n low high value width front = .char c w := by
  induction n generalizing low high value width front with
  | zero => exact h
  | succ n ih =>
    cases front with
    | nil =>
      rw [List.nil_append, headTails] at h
      split at h
      · next hrange => exact absurd hb (UInt8.not_lt.2 (UInt8.le_trans hlow hrange.1))
      · cases h
    | cons a front =>
      rw [List.cons_append, headTails] at h
      rw [headTails]
      split at h
      · next ha =>
        rw [if_pos ha]
        exact ih (by decide) h
      · cases h

/-- A character in front of an ASCII byte ends before it. -/
theorem head_of_append {b : UInt8} {rest : Bytes} (hfront : front ≠ []) (hb : b < 0x80)
    (h : head (front ++ b :: rest) = .char c w) : head front = .char c w := by
  cases front with
  | nil => exact absurd rfl hfront
  | cons a front =>
    rw [List.cons_append] at h
    unfold head at h ⊢
    dsimp only at h ⊢
    by_cases ha : a < 0x80
    · rw [if_pos ha] at h ⊢
      exact h
    · rw [if_neg ha] at h ⊢
      cases hl : lead? a with
      | none => simp [hl] at h
      | some l =>
        simp only [hl] at h ⊢
        exact headTails_of_append (low_of_lead? hl) hb h

/-- A text that is read may be cut in front of an ASCII byte. -/
theorem decodeFrom_of_append {b : UInt8} {rest : Bytes} {cs : List Char} (hb : b < 0x80)
    (h : decodeFrom i (front ++ b :: rest) = .ok cs) :
    ∃ before behind, decodeFrom i front = .ok before ∧ cs = before ++ Char.ofNat b.toNat :: behind := by
  have hchars := decoded_of_decodeFrom h
  clear h
  generalize htext : front ++ b :: rest = text at hchars
  induction hchars generalizing front i with
  | nil => simp at htext
  | @char a text c w cs first next ih =>
    cases front with
    | nil =>
      rw [List.nil_append, List.cons.injEq] at htext
      rw [← htext.1, head, if_pos hb, Head.char.injEq] at first
      exact ⟨[], cs, by rw [decodeFrom], by rw [first.1]; rfl⟩
    | cons a' front =>
      rw [List.cons_append, List.cons.injEq] at htext
      obtain ⟨rfl, rfl⟩ := htext
      have hhead := head_of_append (List.cons_ne_nil a' front) hb first
      obtain ⟨-, hle, -⟩ := head_append hhead []
      rw [List.length_cons] at hle
      have hrest : front.drop (w - 1) ++ b :: rest = (front ++ b :: rest).drop (w - 1) :=
        (List.drop_append_of_le_length (by omega)).symm
      obtain ⟨before, behind, hbefore, rfl⟩ := ih (i := i + w) hrest
      refine ⟨c :: before, behind, ?_, rfl⟩
      rw [decodeFrom, hhead]
      dsimp only
      rw [hbefore]
      rfl

end Utf8

namespace Blank

/-- A text that consists of blank characters. -/
def AllBlank (text : Bytes) : Prop :=
  ∃ cs, Utf8.decodeFrom 0 text = .ok cs ∧ ∀ c ∈ cs, isBlank c = true

theorem allBlank_nil : AllBlank [] := ⟨[], by rw [Utf8.decodeFrom], by simp⟩

theorem AllBlank.append {x y : Bytes} (hx : AllBlank x) (hy : AllBlank y) : AllBlank (x ++ y) := by
  obtain ⟨cs, hcs, hall⟩ := hx
  obtain ⟨ds, hds, hall'⟩ := hy
  have hds' : Utf8.decodeFrom (0 + x.length) y = .ok ds := by
    have := Utf8.decodeFrom_append hds (0 + x.length) []
    rw [List.append_nil] at this
    rw [this, Utf8.decodeFrom]
    simp
  refine ⟨cs ++ ds, ?_, fun c hc => ?_⟩
  · rw [Utf8.decodeFrom_append hcs, hds']
    rfl
  · rcases List.mem_append.1 hc with hc | hc
    · exact hall c hc
    · exact hall' c hc

/-- The character a text starts with is blank if it has a width among the blanks. -/
theorem allBlank_take_width (text : Bytes) : AllBlank (text.take (width text)) := by
  unfold width
  cases hhead : Utf8.head text with
  | broken w => simpa using allBlank_nil
  | unfinished => simpa using allBlank_nil
  | char c w =>
    dsimp only
    split
    · next hc =>
      have htake := Utf8.head_take hhead
      cases htext : text.take w with
      | nil => exact allBlank_nil
      | cons b rest =>
        have hlen := congrArg List.length htext
        rw [List.length_take, List.length_cons] at hlen
        refine ⟨[c], ?_, by simpa using hc⟩
        rw [htext] at htake
        rw [Utf8.decodeFrom, htake]
        dsimp only
        rw [List.drop_eq_nil_of_le (by omega), Utf8.decodeFrom]
        rfl
    · simpa using allBlank_nil

theorem width_le_length (text : Bytes) : width text ≤ text.length := by
  unfold width
  cases hhead : Utf8.head text with
  | broken w => exact Nat.zero_le _
  | unfinished => exact Nat.zero_le _
  | char c w =>
    obtain ⟨-, hle, -⟩ := Utf8.head_append hhead []
    dsimp only
    split
    · exact hle
    · exact Nat.zero_le _

theorem leading_le_length (text : Bytes) : leading text ≤ text.length := by
  induction hn : text.length using Nat.strongRecOn generalizing text with
  | ind n ih =>
    cases text with
    | nil =>
      rw [leading]
      exact Nat.zero_le _
    | cons b rest =>
      have hwidth := width_le_length (b :: rest)
      rw [leading]
      split
      · exact Nat.zero_le _
      · next w hw =>
        rw [List.length_cons] at hn hwidth
        have hrest := ih _ (by rw [List.length_drop]; omega) (rest.drop w) rfl
        rw [List.length_drop] at hrest
        omega

/-- The blanks at the start of a text are blank characters. -/
theorem allBlank_take_leading (text : Bytes) : AllBlank (text.take (leading text)) := by
  induction hn : text.length using Nat.strongRecOn generalizing text with
  | ind n ih =>
    cases text with
    | nil =>
      rw [List.take_nil]
      exact allBlank_nil
    | cons b rest =>
      have hwidth := allBlank_take_width (b :: rest)
      rw [leading]
      split
      · exact allBlank_nil
      · next w hw =>
        rw [hw] at hwidth
        rw [List.length_cons] at hn
        rw [List.take_add, List.drop_succ_cons]
        exact hwidth.append (ih _ (by rw [List.length_drop]; omega) _ rfl)

/-! ### Blanks at the end -/

/-- A byte that is a character by itself, and whether this one is blank. -/
def IsAscii (blank : Bool) (b : UInt8) : Prop :=
  b < 0x80 ∧ isBlank (Char.ofNat b.toNat) = blank

instance (blank : Bool) (b : UInt8) : Decidable (IsAscii blank b) :=
  inferInstanceAs (Decidable (_ ∧ _))

theorem leading_of_isAscii {text : Bytes} (h : ∀ b ∈ text, IsAscii true b) :
    leading text = text.length := by
  induction text with
  | nil => rw [leading, List.length_nil]
  | cons b text ih =>
    obtain ⟨hascii, hblank⟩ := h b List.mem_cons_self
    have hwidth : width (b :: text) = 1 := by
      rw [width, Utf8.head, if_pos hascii]
      dsimp only
      rw [if_pos hblank]
    rw [leading, hwidth]
    dsimp only
    rw [List.drop_zero, ih fun c hc => h c (List.mem_cons_of_mem _ hc), List.length_cons]
    omega

/-- The width depends on nothing but the character a text starts with. -/
theorem width_congr {x y : Bytes}
    (h : ∀ c w, Utf8.head x = .char c w ↔ Utf8.head y = .char c w) : width x = width y := by
  unfold width
  split
  · next c w hx => rw [(h c w).1 hx]
  · next hx =>
    split
    · next c w hy => exact absurd ((h c w).2 hy) (hx c w)
    · rfl

/-- The blanks at the start of a text end before an ASCII character that is not blank. -/
theorem leading_append {b : UInt8} (hb : IsAscii false b) (front rest : Bytes) :
    leading (front ++ b :: rest) = leading front := by
  induction hn : front.length using Nat.strongRecOn generalizing front with
  | ind n ih =>
    cases front with
    | nil =>
      have hwidth : width (b :: rest) = 0 := by
        rw [width, Utf8.head, if_pos hb.1]
        dsimp only
        rw [hb.2]
        rfl
      have hnil : leading [] = 0 := by rw [leading]
      rw [List.nil_append, hnil, leading, hwidth]
    | cons a front =>
      have hwidth : width (a :: front ++ b :: rest) = width (a :: front) :=
        width_congr fun c w => ⟨Utf8.head_of_append (List.cons_ne_nil a front) hb.1,
          fun hhead => (Utf8.head_append hhead (b :: rest)).1⟩
      have hle := width_le_length (a :: front)
      rw [List.cons_append] at hwidth ⊢
      rw [leading, leading, hwidth]
      split
      · rfl
      · next w hw =>
        rw [hw, List.length_cons] at hle
        rw [List.length_cons] at hn
        rw [List.drop_append_of_le_length (by omega), ih _ (by rw [List.length_drop]; omega) _ rfl]

/-- A text with a character that is not blank does not consist of blanks. -/
theorem leading_ne_length {text : Bytes} {b : UInt8} (hb : b ∈ text) (h : IsAscii false b) :
    leading text ≠ text.length := by
  intro hall
  obtain ⟨cs, hdecode, hblank⟩ := allBlank_take_leading text
  rw [hall, List.take_length] at hdecode
  have := hblank _ (Utf8.mem_of_decodeFrom hdecode hb h.1)
  rw [h.2] at this
  cases this

/-- The blanks at the end go, and what stands before them stays. -/
theorem trimEnd_append {b : UInt8} {z : Bytes} (x : Bytes) (hb : IsAscii false b)
    (hz : ∀ c ∈ z, IsAscii true c) : trimEnd (x ++ b :: z) = x ++ [b] := by
  have hz' : trimEnd z = [] := by
    cases z with
    | nil => rw [trimEnd]
    | cons c z =>
      have hall := leading_of_isAscii hz
      rw [List.length_cons] at hall
      rw [trimEnd, if_pos hall]
  have hkeep : ∀ (a : UInt8) (rest : Bytes), b ∈ a :: rest →
      trimEnd (a :: rest) = a :: trimEnd rest := by
    intro a rest hmem
    have hne := leading_ne_length hmem hb
    rw [List.length_cons] at hne
    rw [trimEnd, if_neg hne]
  induction x with
  | nil =>
    rw [List.nil_append, hkeep b z List.mem_cons_self, hz']
    rfl
  | cons a x ih => rw [List.cons_append, hkeep a _ (by simp), ih, List.cons_append]

end Blank

end DocxTemplate
