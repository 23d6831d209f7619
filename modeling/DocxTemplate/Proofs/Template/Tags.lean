import DocxTemplate.Proofs.Template.Pieces
import DocxTemplate.Proofs.Xml.Tag

/-! # Rendering text and tags

    With escaped values rendering puts text into character data and into attribute values. Text can
    be read afterwards, and a tag ends where it did if the values keep its quotes.

    * `Substitution.exists_readText_render`: text that can be read can be read after rendering.
    * `Substitution.keepsQuotes`: values that do not lead a reader of the tag into quotes or out of
      them; `Substitution.tagEnd?_render`: such values do not move the end of the tag.
    * `TagParts.Placed`: a tag with placeholders in its values only, which is rendered value by
      value (`Substitution.render_text`).
    * `Substitution.keepsQuotes_of_plain`: in the usual tag it is enough that no value holds the quote
      around it.
-/

namespace DocxTemplate

/-- Whether placeholders stand in a tag between the quotes of its values only. -/
def Xml.TagParts.Placed (parts : Xml.TagParts) : Prop :=
  (∀ v ∈ parts.values, placeholderNames v.front = []) ∧ placeholderNames parts.last = []

instance (parts : Xml.TagParts) : Decidable parts.Placed := inferInstanceAs (Decidable (_ ∧ _))

open Xml (readText)

namespace Substitution

variable {s : Substitution} {data : Data}

/-! ## Text -/

/-- No value brings an angle bracket. -/
theorem mem_raw_of_mem_replacement (escaped : s.escapeValues = true) {piece : Piece} {b : UInt8}
    (hb : b = '<'.toUInt8 ∨ b = '>'.toUInt8) (h : b ∈ s.replacement data piece) : b ∈ piece.raw := by
  cases piece with
  | literal c => exact h
  | slot p =>
    rw [replacement] at h
    split at h
    · next value _ =>
      rw [if_pos escaped] at h
      have hfree := Xml.not_mem_escape (Bytes.ofString value) b h
      rcases hb with rfl | rfl
      · exact absurd rfl hfree.1
      · exact absurd rfl hfree.2
    · split at h
      · exact h
      · cases h

/-- Rendering brings no angle bracket into a text. -/
theorem mem_of_mem_render (escaped : s.escapeValues = true) {text : Bytes} {b : UInt8}
    (hb : b = '<'.toUInt8 ∨ b = '>'.toUInt8) (h : b ∈ s.render data text) : b ∈ text := by
  obtain ⟨piece, hpiece, hmem⟩ := List.mem_flatMap.1 h
  exact Piece.mem_of_mem_raw hpiece (mem_raw_of_mem_replacement escaped hb hmem)

/-- A text may be cut before a placeholder and behind it. -/
theorem readText_of_placeholder {p : Placeholder} {front rest : Bytes} {v : String}
    (h : readText (front ++ (p.raw ++ rest)) = .ok v) :
    (∃ v', readText front = .ok v') ∧ (∃ v', readText p.raw = .ok v') ∧
      ∃ v', readText rest = .ok v' := by
  have hopening : ∃ tail, p.raw = 0x7B :: tail := ⟨_, rfl⟩
  have hclosing : ∃ body, p.raw = body ++ [0x7D] := by
    refine ⟨Placeholder.opening ++ p.before ++ p.letters ++ p.after ++ [0x7D], ?_⟩
    rw [List.append_assoc _ [0x7D] [0x7D]]
    rfl
  obtain ⟨tail, htail⟩ := hopening
  obtain ⟨body, hbody⟩ := hclosing
  have hfront : ∃ v', readText front = .ok v' := by
    rw [htail, List.cons_append] at h
    exact Xml.readText_before_brace (by decide) h
  obtain ⟨v₁, h₁⟩ := hfront
  obtain ⟨v₂, h₂, -⟩ := Xml.readText_of_append h₁ h
  have hraw : ∃ v', readText p.raw = .ok v' := by
    rw [hbody, List.append_assoc, List.singleton_append] at h₂
    obtain ⟨v₃, h₃⟩ := Xml.readText_before_brace (by decide) h₂
    have hbrace : readText [0x7D] = .ok "\x7d" := by decide +kernel
    exact ⟨_, by rw [hbody]; exact Xml.readText_append h₃ hbrace⟩
  obtain ⟨v₃, h₃⟩ := hraw
  obtain ⟨v₄, h₄, -⟩ := Xml.readText_of_append h₃ h₂
  exact ⟨⟨v₁, h₁⟩, ⟨v₃, h₃⟩, ⟨v₄, h₄⟩⟩

/-- Whatever takes the place of a placeholder can be read if the placeholder can. -/
theorem exists_readText_replacement (escaped : s.escapeValues = true) (data : Data)
    {p : Placeholder} {v : String} (h : readText p.raw = .ok v) : ∃ v', readText (s.replacement data (.slot p)) = .ok v' := by
  rw [replacement]
  split
  · next value _ =>
    rw [if_pos escaped]
    exact ⟨value, Xml.readText_escape value⟩
  · split
    · exact ⟨v, h⟩
    · exact ⟨"", Xml.readText_nil⟩

/-- Text that can be read can be read after rendering. -/
theorem exists_readText_render (escaped : s.escapeValues = true) (data : Data) (text : Bytes)
    (v : String) (h : readText text = .ok v) : ∃ v', readText (s.render data text) = .ok v' := by
  -- Literal bytes are collected in `front` until a placeholder ends them.
  have hpieces : ∀ (pieces : List Piece) (front : Bytes) (v : String),
      readText (front ++ pieces.flatMap Piece.raw) = .ok v →
        ∃ v', readText (front ++ pieces.flatMap (s.replacement data)) = .ok v' := by
    intro pieces
    induction pieces with
    | nil => exact fun front v h => ⟨v, h⟩
    | cons piece pieces ih =>
      intro front v h
      rw [List.flatMap_cons] at h ⊢
      cases piece with
      | literal b =>
        rw [← List.append_assoc] at h ⊢
        exact ih _ v h
      | slot p =>
        obtain ⟨⟨v₁, h₁⟩, ⟨v₂, h₂⟩, ⟨v₃, h₃⟩⟩ := readText_of_placeholder h
        obtain ⟨v₄, h₄⟩ := exists_readText_replacement escaped data h₂
        obtain ⟨v₅, h₅⟩ := ih [] v₃ h₃
        exact ⟨_, Xml.readText_append h₁ (Xml.readText_append h₄ h₅)⟩
  exact hpieces (Piece.ofSource text) [] v (by rw [List.nil_append, Piece.flatMap_raw_ofSource, h])

/-! ## Tags -/

/-- Whether each piece leaves a reader of a tag inside the same quotes as what takes its place.
    `quote?` is the quote that the reader is inside of before the pieces. -/
def keepsQuotes (s : Substitution) (data : Data) (quote? : Option UInt8) : List Piece → Bool
  | [] => true
  | piece :: rest =>
    let behind := Xml.Markup.quoteBehind quote? piece.raw
    Xml.Markup.quoteBehind quote? (s.replacement data piece) == behind &&
      keepsQuotes s data behind rest

/-- Pieces that keep the quotes do not move the end of a tag. -/
theorem tagEnd?_replacement (escaped : s.escapeValues = true) {pieces : List Piece}
    (hslots : ∀ p, Piece.slot p ∈ pieces → '>'.toUInt8 ∉ p.raw) {quote? : Option UInt8}
    (hkeeps : s.keepsQuotes data quote? pieces = true) {tail : Bytes} {n : Nat}
    (h : Xml.Markup.tagEnd? quote? (pieces.flatMap Piece.raw ++ tail) =
      some ((pieces.flatMap Piece.raw).length + n)) :
    Xml.Markup.tagEnd? quote? (pieces.flatMap (s.replacement data) ++ tail) =
      some ((pieces.flatMap (s.replacement data)).length + n) := by
  induction pieces generalizing quote? with
  | nil => exact h
  | cons piece pieces ih =>
    rw [keepsQuotes, Bool.and_eq_true, beq_iff_eq] at hkeeps
    rw [List.flatMap_cons, List.append_assoc, List.length_append] at h ⊢
    have ih := ih (fun p hp => hslots p (List.mem_cons_of_mem _ hp)) hkeeps.2
    cases piece with
    | literal b =>
      change Xml.Markup.tagEnd? quote? (b :: (pieces.flatMap Piece.raw ++ tail)) = _ at h
      change Xml.Markup.tagEnd? quote? (b :: (pieces.flatMap (s.replacement data) ++ tail)) = _
      rw [Xml.Markup.tagEnd?_cons] at h ⊢
      split at h
      · -- A `>` outside quotes would end the tag too soon.
        simp [Piece.raw] at h
        omega
      · next hgreater =>
        obtain ⟨i, hi, hlen⟩ := Option.map_eq_some_iff.1 h
        have hlen' : i = (pieces.flatMap Piece.raw).length + n := by
          simp only [Piece.raw, List.length_singleton] at hlen
          omega
        rw [if_neg hgreater]
        rw [hlen'] at hi
        have hnext := ih hi
        change Xml.Markup.tagEnd? (Xml.Markup.quoteStep quote? b) _ = _ at hnext
        rw [hnext]
        simp only [replacement, List.length_singleton, Option.map_some, Option.some.injEq]
        omega
    | slot p =>
      have hraw : '>'.toUInt8 ∉ (Piece.slot p).raw := hslots p List.mem_cons_self
      have hvalue : '>'.toUInt8 ∉ s.replacement data (.slot p) := fun hmem =>
        hraw (mem_raw_of_mem_replacement escaped (Or.inr rfl) hmem)
      rw [Xml.Markup.tagEnd?_append_of_not_mem hraw] at h
      rw [Xml.Markup.tagEnd?_append_of_not_mem hvalue, hkeeps.1]
      obtain ⟨i, hi, hlen⟩ := Option.map_eq_some_iff.1 h
      have hlen' : i = (pieces.flatMap Piece.raw).length + n := by
        omega
      rw [hlen'] at hi
      rw [ih hi, Option.map_some, Option.some.injEq]
      omega

/-- Values that keep the quotes of a tag do not move its end. -/
theorem tagEnd?_render (escaped : s.escapeValues = true) {content : Bytes}
    (hkeeps : s.keepsQuotes data none (Piece.ofSource content) = true) (tail : Bytes) (n : Nat)
    (h : Xml.Markup.tagEnd? none (content ++ tail) = some (content.length + n)) :
    Xml.Markup.tagEnd? none (s.render data content ++ tail) =
      some ((s.render data content).length + n) := by
  refine tagEnd?_replacement escaped (fun p hp => ?_) hkeeps ?_
  · obtain ⟨text, hread⟩ := Piece.exists_read?_of_mem hp
    exact Placeholder.not_mem_raw hread (by decide)
  · rw [Piece.flatMap_raw_ofSource, h]

/-- A tag with placeholders in its values only is rendered value by value. -/
theorem render_text (s : Substitution) (data : Data) {parts : Xml.TagParts}
    (hquote : ∀ v ∈ parts.values, v.quote = 0x22 ∨ v.quote = 0x27) (placed : parts.Placed) :
    s.render data parts.text = (parts.map (s.render data)).text := by
  obtain ⟨values, last⟩ := parts
  obtain ⟨hfront, hlast⟩ := placed
  induction values with
  | nil => exact s.render_of_placeholderNames data hlast
  | cons v values ih =>
    have ih := ih (fun v hv => hquote v (List.mem_cons_of_mem _ hv))
      (fun v hv => hfront v (List.mem_cons_of_mem _ hv)) hlast
    have hstops := Placeholder.stops_of_quote (hquote v List.mem_cons_self)
    rw [Xml.TagParts.text_cons, s.render_append data hstops, s.render_append data hstops,
      s.render_of_placeholderNames data (hfront v List.mem_cons_self), ih]
    exact (Xml.TagParts.text_cons { v with value := s.render data v.value } _ _).symm

/-! ## Tags whose quotes are kept -/

theorem keepsQuotes_append (quote? : Option UInt8) (pieces pieces' : List Piece) :
    s.keepsQuotes data quote? (pieces ++ pieces') = (s.keepsQuotes data quote? pieces &&
      s.keepsQuotes data (Xml.Markup.quoteBehind quote? (pieces.flatMap Piece.raw)) pieces') := by
  induction pieces generalizing quote? with
  | nil => rfl
  | cons piece pieces ih =>
    rw [List.cons_append, keepsQuotes, keepsQuotes, ih, List.flatMap_cons,
      Xml.Markup.quoteBehind_append, Bool.and_assoc]

/-- A literal byte takes its own place. -/
theorem keepsQuotes_literal (quote? : Option UInt8) (b : UInt8) (pieces : List Piece) :
    s.keepsQuotes data quote? (.literal b :: pieces) =
      s.keepsQuotes data (Xml.Markup.quoteStep quote? b) pieces := by
  have hsame : (Xml.Markup.quoteBehind quote? (s.replacement data (.literal b)) ==
      Xml.Markup.quoteBehind quote? (Piece.literal b).raw) = true := BEq.rfl
  rw [keepsQuotes, hsame, Bool.true_and]
  rfl

theorem keepsQuotes_of_placeholderNames {source : Bytes} (h : placeholderNames source = [])
    (quote? : Option UInt8) : s.keepsQuotes data quote? (Piece.ofSource source) = true := by
  have hslots := placeholderNames_eq_nil_iff.1 h
  generalize Piece.ofSource source = pieces at hslots
  induction pieces generalizing quote? with
  | nil => rfl
  | cons piece pieces ih =>
    cases piece with
    | literal b =>
      rw [keepsQuotes_literal]
      exact ih _ fun p hp => hslots p (List.mem_cons_of_mem _ hp)
    | slot p => exact absurd List.mem_cons_self (hslots p)

/-- Inside quotes a reader stays there if the value does not hold the quote. -/
theorem keepsQuotes_of_not_mem {q : UInt8} (hq : Placeholder.Stops q) {value : Bytes}
    (h : q ∉ s.render data value) :
    s.keepsQuotes data (some q) (Piece.ofSource value) = true ∧ q ∉ value := by
  have hvalue : ∀ piece ∈ Piece.ofSource value, q ∉ s.replacement data piece :=
    fun piece hpiece hmem => h (List.mem_flatMap.2 ⟨piece, hpiece, hmem⟩)
  have hraw : ∀ piece ∈ Piece.ofSource value, q ∉ piece.raw := by
    intro piece hpiece
    cases piece with
    | literal b => exact hvalue _ hpiece
    | slot p =>
      obtain ⟨text, hread⟩ := Piece.exists_read?_of_mem hpiece
      exact Placeholder.not_mem_raw hread hq
  constructor
  · generalize Piece.ofSource value = pieces at hraw hvalue
    induction pieces with
    | nil => rfl
    | cons piece pieces ih =>
      have ih := ih (fun p hp => hraw p (List.mem_cons_of_mem _ hp))
        (fun p hp => hvalue p (List.mem_cons_of_mem _ hp))
      rw [keepsQuotes, Xml.Markup.quoteBehind_of_quote_not_mem (hraw _ List.mem_cons_self),
        Xml.Markup.quoteBehind_of_quote_not_mem (hvalue _ List.mem_cons_self)]
      rw [ih, Bool.and_true]
      exact BEq.rfl
  · intro hmem
    rw [← Piece.flatMap_raw_ofSource value] at hmem
    obtain ⟨piece, hpiece, hq⟩ := List.mem_flatMap.1 hmem
    exact hraw piece hpiece hq

/-- In a tag without quotes in its name and its keys, values that do not hold the quote around them
    keep the quotes of the tag. -/
theorem keepsQuotes_of_plain {parts : Xml.TagParts}
    (hquote : ∀ v ∈ parts.values, v.quote = 0x22 ∨ v.quote = 0x27) (placed : parts.Placed)
    (plain : ∀ v ∈ parts.values, ∀ b ∈ v.front, b ≠ 0x22 ∧ b ≠ 0x27)
    (hvalues : ∀ v ∈ parts.values, v.quote ∉ s.render data v.value) :
    s.keepsQuotes data none (Piece.ofSource parts.text) = true := by
  obtain ⟨values, last⟩ := parts
  obtain ⟨hfront, hlast⟩ := placed
  induction values with
  | nil => exact keepsQuotes_of_placeholderNames hlast none
  | cons v values ih =>
    have ih := ih (fun v hv => hquote v (List.mem_cons_of_mem _ hv))
      (fun v hv => plain v (List.mem_cons_of_mem _ hv))
      (fun v hv => hvalues v (List.mem_cons_of_mem _ hv))
      (fun v hv => hfront v (List.mem_cons_of_mem _ hv)) hlast
    have hstops := Placeholder.stops_of_quote (hquote v List.mem_cons_self)
    -- The reader enters the quotes before the value and leaves them behind it.
    have henter : Xml.Markup.quoteStep none v.quote = some v.quote := by
      rcases hquote v List.mem_cons_self with heq | heq <;> rw [heq] <;> rfl
    have hleave : Xml.Markup.quoteStep (some v.quote) v.quote = none := by
      simp [Xml.Markup.quoteStep]
    have houtside : Xml.Markup.quoteBehind none v.front = none :=
      Xml.Markup.quoteBehind_of_not_mem (plain v List.mem_cons_self) fun _ h => by cases h
    obtain ⟨hkeeps, hfree⟩ := keepsQuotes_of_not_mem hstops (hvalues v List.mem_cons_self)
    rw [Xml.TagParts.text_cons, Piece.ofSource_append hstops, Piece.ofSource_append hstops]
    rw [keepsQuotes_append, keepsQuotes_of_placeholderNames (hfront v List.mem_cons_self),
      Piece.flatMap_raw_ofSource, houtside, keepsQuotes_literal, henter]
    rw [keepsQuotes_append, hkeeps, Piece.flatMap_raw_ofSource,
      Xml.Markup.quoteBehind_of_quote_not_mem hfree, keepsQuotes_literal, hleave, ih]
    rfl

end Substitution

end DocxTemplate
