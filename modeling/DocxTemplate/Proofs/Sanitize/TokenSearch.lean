import Mathlib.Order.Bounds.Basic
import DocxTemplate.Proofs.Sanitize.Token
import DocxTemplate.Proofs.Text.Boundary

/-! # The first token from a position on

    The search skips a whole token behind every longer name. It still misses nothing if the
    first *character* of the token occurs nowhere else in it. Its first byte may well do so,
    as the characters of one script are often written with the same leading byte.

    * `StandsAt`: where a token stands in a text, with a delimiter behind it.
    * `OpensOnce.unbordered`: two places of such a token do not overlap, since a place that
      begins inside another one would begin at one of its characters.
    * `tokenIndexFrom?_spec`: what is found from a boundary on.
    * `search_finds_least`: from any position the least place is found, and nothing only if there
      is none, or from beyond the end or inside a character.
-/

namespace DocxTemplate.Sanitize

variable {token text : Bytes} {tag : String} {start place i : Nat}

/-! ## Where a token stands -/

/-- The characters that end a name inside a tag: a slash, the end of the tag and white space. -/
def delimiters : List Char := ['/', '>', ' ', '\t', '\n', '\x0c', '\r']

/-- The token stands at a position of the text, and a delimiter follows it. -/
def StandsAt (token text : Bytes) (place : Nat) : Prop :=
  ∃ front d rest, text = front ++ (token ++ Char.toUInt8 d :: rest) ∧ front.length = place ∧
    d ∈ delimiters

theorem endsName_iff {b : UInt8} : endsName b = true ↔ ∃ d ∈ delimiters, b = d.toUInt8 := by
  simp only [delimiters, endsName, isSpace, List.exists_mem_cons_iff, Bool.or_eq_true, beq_iff_eq,
    List.not_mem_nil, false_and, exists_false, or_false, or_assoc]
  rfl

theorem standsAt_iff : StandsAt token text place ↔ StartsToken token (text.drop place) := by
  constructor
  · rintro ⟨front, d, rest, rfl, rfl, hd⟩
    rw [List.drop_left]
    exact ⟨_, rest, rfl, endsName_iff.2 ⟨d, hd, rfl⟩⟩
  · rintro ⟨b, rest, hdrop, hb⟩
    obtain ⟨d, hd, rfl⟩ := endsName_iff.1 hb
    have hle : place ≤ text.length := by
      by_contra hlt
      rw [List.drop_eq_nil_of_le (by omega)] at hdrop
      simp at hdrop
    refine ⟨text.take place, d, rest, ?_, ?_, hd⟩
    · rw [← hdrop, List.take_append_drop]
    · rw [List.length_take, Nat.min_eq_left hle]

/-! ## Tokens that do not overlap -/

/-- The first character of a tag occurs nowhere else in it, like the `<` of `<w:t`. -/
def OpensOnce (tag : String) : Prop := ∃ c rest, tag.toList = c :: rest ∧ c ∉ rest

theorem OpensOnce.unbordered (h : OpensOnce tag) : Unbordered (Bytes.ofString tag) := by
  obtain ⟨c, rest, htag, hc⟩ := h
  rw [Bytes.ofString, htag]
  -- The first byte may occur again, so a border of bytes is taken back to one of characters.
  refine ⟨fun hnil => ?_, fun k hk hlt hbytes => ?_⟩
  · have hnone : c :: rest = [] := Utf8.flatMap_utf8EncodeChar_inj hnil
    cases hnone
  · obtain ⟨n, hn, hlt, hborder⟩ := Whole.exists_border hk hlt hbytes
    exact not_drop_prefix hc hn hlt hborder

/-! ## From a position on -/

/-- What is found from a position on: the first place of the token there, or that there is
    none. -/
def LocatesFrom (token text : Bytes) (start : Nat) : Option Nat → Prop
  | some place => IsLeast {p | start ≤ p ∧ StandsAt token text p} place
  | none => ¬ ∃ p, start ≤ p ∧ StandsAt token text p

namespace LocatesFrom

variable {found : Option Nat}

theorem eq_some_iff (h : LocatesFrom token text start found) :
    found = some place ↔ IsLeast {p | start ≤ p ∧ StandsAt token text p} place := by
  cases found with
  | none => exact ⟨nofun, fun hleast => absurd ⟨place, hleast.1⟩ h⟩
  | some least =>
    rw [Option.some.injEq]
    exact ⟨fun heq => heq ▸ h, fun hleast => h.unique hleast⟩

theorem eq_none_iff (h : LocatesFrom token text start found) :
    found = none ↔ ¬ ∃ p, start ≤ p ∧ StandsAt token text p := by
  cases found with
  | none => exact ⟨fun _ => h, fun _ => rfl⟩
  | some least => exact ⟨nofun, fun hnot => absurd ⟨least, h.1⟩ hnot⟩

end LocatesFrom

theorem standsAt_add_iff :
    StandsAt token text (i + start) ↔ StartsToken token ((text.drop start).drop i) := by
  rw [standsAt_iff, List.drop_drop, Nat.add_comm]

/-- What is first in the rest of the text is first from the position on. -/
theorem Locates.locatesFrom {found : Option Nat} (h : Locates token (text.drop start) found) :
    LocatesFrom token text start (found.map (· + start)) := by
  cases found with
  | none =>
    rintro ⟨p, hle, hp⟩
    obtain ⟨i, rfl⟩ := Nat.exists_eq_add_of_le' hle
    exact h i (standsAt_add_iff.1 hp)
  | some i =>
    refine ⟨⟨Nat.le_add_left _ _, standsAt_add_iff.2 h.1⟩, ?_⟩
    rintro p ⟨hle, hp⟩
    obtain ⟨j, rfl⟩ := Nat.exists_eq_add_of_le' hle
    exact Nat.add_le_add_right (h.le_of_holds (standsAt_add_iff.1 hp)) start

/-- From a boundary on the search is the one over the rest of the text. -/
theorem tokenIndexFrom?_spec (hu : Unbordered token)
    (hstart : Utf8.isBoundary text start = true) :
    LocatesFrom token text start (tokenIndexFrom? token text start) := by
  rw [tokenIndexFrom?, if_pos hstart]
  exact (tokenIndex?_spec hu _).locatesFrom

/-- **The search finds the first whole token.** From a position on, what is found is the least
    place at which the tag stands with a delimiter behind it. Nothing is found only if there is
    no such place, or if the position is beyond the end or inside a character. -/
theorem search_finds_least (xml tag : String) (start : Nat) (h : OpensOnce tag) :
    (∀ place, tokenIndexFrom? (Bytes.ofString tag) (Bytes.ofString xml) start = some place ↔
      ¬ ((Bytes.ofString xml).length < start ∨ InsideCharacter (Bytes.ofString xml) start) ∧
      IsLeast {p | start ≤ p ∧ StandsAt (Bytes.ofString tag) (Bytes.ofString xml) p} place) ∧
    (tokenIndexFrom? (Bytes.ofString tag) (Bytes.ofString xml) start = none ↔
      (¬ ∃ p, start ≤ p ∧ StandsAt (Bytes.ofString tag) (Bytes.ofString xml) p) ∨
      (Bytes.ofString xml).length < start ∨ InsideCharacter (Bytes.ofString xml) start) := by
  rw [← isBoundary_eq_false_iff (whole_ofString xml)]
  -- Only from a boundary on is there a search, and it fails only where no token stands.
  cases hstart : Utf8.isBoundary (Bytes.ofString xml) start with
  | false => simp [tokenIndexFrom?, hstart]
  | true =>
    have hfound := tokenIndexFrom?_spec h.unbordered hstart
    refine ⟨fun place => ?_, ?_⟩
    · rw [hfound.eq_some_iff]
      simp
    · rw [hfound.eq_none_iff]
      simp

/-- Two longer names, with a character of two bytes between them, and then a token. -/
def spacedNames : String := "<w:tab/>é<w:tbl><w:t>"

/-- From before that character the longer name behind it is passed over. From inside it nothing
    is found. -/
theorem search_finds_least_spacedNames :
    OpensOnce "<w:t" ∧
    IsLeast {p | 8 ≤ p ∧ StandsAt (Bytes.ofString "<w:t") (Bytes.ofString spacedNames) p} 17 ∧
    tokenIndexFrom? (Bytes.ofString "<w:t") (Bytes.ofString spacedNames) 9 = none := by
  have hopens : OpensOnce "<w:t" := ⟨'<', ['w', ':', 't'], rfl, by decide⟩
  have hfound : tokenIndexFrom? (Bytes.ofString "<w:t") (Bytes.ofString spacedNames) 8 =
      some 17 := by decide +kernel
  have hinside : InsideCharacter (Bytes.ofString spacedNames) 9 :=
    ⟨Bytes.ofString "<w:tab/>", 'é', Bytes.ofString "<w:tbl><w:t>", by decide, whole_ofString _,
      by decide, by decide⟩
  exact ⟨hopens, (((search_finds_least spacedNames "<w:t" 8 hopens).1 17).1 hfound).2,
    (search_finds_least spacedNames "<w:t" 9 hopens).2.2 (Or.inr (Or.inr hinside))⟩

/-- A token that can overlap itself may be missed. -/
example : StandsAt (Bytes.ofString "aa") (Bytes.ofString "aaa/") 1 ∧
    tokenIndexFrom? (Bytes.ofString "aa") (Bytes.ofString "aaa/") 0 = none :=
  ⟨⟨['a'.toUInt8], '/', [], by decide, rfl, by decide⟩, by decide +kernel⟩

end DocxTemplate.Sanitize
