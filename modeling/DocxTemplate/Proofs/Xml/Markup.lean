import Mathlib.Data.List.Basic
import Mathlib.Tactic.ByContra
import DocxTemplate.Proofs.Text.Search
import DocxTemplate.Xml.Markup

/-! # Markup and what stands behind it

    Each kind of markup is recognised by its own bytes: what follows them can be exchanged
    without changing what is read.

    * `Markup.quoteBehind`: the quotes that a reader is inside of on its way to the end of a tag, and
      `Markup.tagEnd?_append_of_not_mem`: what it passes on this way.
    * `OwnBytes`: a reader that looks at no byte behind those it takes.
    * `Markup.ownBytes_read`: reading markup is of this kind.
-/

namespace DocxTemplate.Xml

/-- A reader of markup takes at least one byte and looks at no byte behind those it takes. -/
def OwnBytes {ε : Type} (read : Bytes → Except ε (Markup × Nat)) : Prop :=
  ∀ {text m n}, read text = .ok (m, n) →
    0 < n ∧ n ≤ text.length ∧ ∀ rest, read (text.take n ++ rest) = .ok (m, n)

namespace OwnBytes

variable {ε ε' : Type} {first second : Bytes → Except ε (Markup × Nat)}

/-- What a fault is called does not matter. -/
theorem mapError {f : ε → ε'} (h : OwnBytes first) :
    OwnBytes fun text => (first text).mapError f := by
  intro text m n hread
  cases hr : first text with
  | error fault => simp [hr, Except.mapError] at hread
  | ok r =>
    simp only [hr, Except.mapError, Except.ok.injEq] at hread
    subst hread
    obtain ⟨hpos, hlen, hrest⟩ := h hr
    exact ⟨hpos, hlen, fun rest => by simp only [hrest rest, Except.mapError]⟩

theorem fail (fault : ε) : OwnBytes fun _ => .error fault := by
  intro text m n hread
  cases hread

/-- The first byte may tell which of two readers to take, as it is one of those taken. -/
theorem ite (c : Option UInt8 → Bool) (h : OwnBytes first) (h' : OwnBytes second) :
    OwnBytes fun text => if c text.head? then first text else second text := by
  intro text m n hread
  have hhead : 0 < n → n ≤ text.length → ∀ rest, (text.take n ++ rest).head? = text.head? := by
    intro hpos hlen rest
    cases text with
    | nil => exact absurd hlen (Nat.not_le_of_lt hpos)
    | cons b text =>
      obtain ⟨k, rfl⟩ : ∃ k, n = k + 1 := ⟨n - 1, by omega⟩
      rfl
  dsimp only at hread ⊢
  by_cases hc : c text.head? = true
  · rw [if_pos hc] at hread
    obtain ⟨hpos, hlen, hrest⟩ := h hread
    exact ⟨hpos, hlen, fun rest => by rw [hhead hpos hlen, if_pos hc, hrest rest]⟩
  · rw [if_neg hc] at hread
    obtain ⟨hpos, hlen, hrest⟩ := h' hread
    exact ⟨hpos, hlen, fun rest => by rw [hhead hpos hlen, if_neg hc, hrest rest]⟩

end OwnBytes

namespace Markup

/-! ## Quotes in a tag -/

/-- The quote that a reader is inside of behind a byte of a tag. -/
def quoteStep (quote? : Option UInt8) (b : UInt8) : Option UInt8 :=
  match quote? with
  | some q => if b == q then none else some q
  | none => if b == 0x22 || b == 0x27 then some b else none

/-- The quote that it is inside of behind a part of a tag. -/
def quoteBehind (quote? : Option UInt8) (text : Bytes) : Option UInt8 :=
  text.foldl quoteStep quote?

theorem quote_of_quoteStep {quote? : Option UInt8} {b : UInt8}
    (hquote : ∀ q, quote? = some q → q ∈ [0x22, 0x27]) :
    ∀ q, quoteStep quote? b = some q → q ∈ [0x22, 0x27] := by
  intro q hq
  cases quote? with
  | some q' =>
    simp only [quoteStep, Option.ite_none_left_eq_some, Option.some.injEq] at hq
    exact hq.2 ▸ hquote q' rfl
  | none =>
    simp only [quoteStep, Option.ite_none_right_eq_some, Option.some.injEq] at hq
    obtain ⟨hb, rfl⟩ := hq
    simpa using hb

theorem quote_of_quoteBehind {quote? : Option UInt8} {text : Bytes}
    (hquote : ∀ q, quote? = some q → q ∈ [0x22, 0x27]) :
    ∀ q, quoteBehind quote? text = some q → q ∈ [0x22, 0x27] := by
  induction text generalizing quote? with
  | nil => exact hquote
  | cons b text ih => exact ih (quote_of_quoteStep hquote)

theorem quoteBehind_append (quote? : Option UInt8) (x y : Bytes) :
    quoteBehind quote? (x ++ y) = quoteBehind (quoteBehind quote? x) y :=
  List.foldl_append

theorem tagEnd?_cons (quote? : Option UInt8) (b : UInt8) (rest : Bytes) :
    tagEnd? quote? (b :: rest) = if quote? = none ∧ b = '>'.toUInt8 then some 0
      else (tagEnd? (quoteStep quote? b) rest).map (· + 1) := by
  cases quote? with
  | some q => simp [tagEnd?, quoteStep]
  | none =>
    rw [tagEnd?]
    simp only [true_and, beq_iff_eq]
    rfl

/-- A reader passes whatever holds no `>`. -/
theorem tagEnd?_append_of_not_mem {text : Bytes} (h : '>'.toUInt8 ∉ text) (quote? : Option UInt8)
    (rest : Bytes) : tagEnd? quote? (text ++ rest) =
      (tagEnd? (quoteBehind quote? text) rest).map (· + text.length) := by
  induction text generalizing quote? with
  | nil => simp [quoteBehind]
  | cons b text ih =>
    rw [List.mem_cons, not_or] at h
    rw [List.cons_append, tagEnd?_cons, if_neg (fun hb => h.1 hb.2.symm), ih h.2, Option.map_map]
    congr 1

/-- A text without quotes leaves a reader where it was. -/
theorem quoteBehind_of_not_mem {text : Bytes} {quote? : Option UInt8}
    (h : ∀ b ∈ text, b ≠ 0x22 ∧ b ≠ 0x27) (hquote : ∀ q, quote? = some q → q = 0x22 ∨ q = 0x27) :
    quoteBehind quote? text = quote? := by
  induction text with
  | nil => rfl
  | cons b text ih =>
    have hb := h b List.mem_cons_self
    have hstep : quoteStep quote? b = quote? := by
      cases quote? with
      | none => simp [quoteStep, hb.1, hb.2]
      | some q =>
        have hne : b ≠ q := by
          rcases hquote q rfl with rfl | rfl
          · exact hb.1
          · exact hb.2
        simp [quoteStep, hne]
    change quoteBehind (quoteStep quote? b) text = quote?
    rw [hstep]
    exact ih fun c hc => h c (List.mem_cons_of_mem _ hc)

/-- A text without the quote that a reader is inside of leaves it there. -/
theorem quoteBehind_of_quote_not_mem {q : UInt8} {text : Bytes} (h : q ∉ text) :
    quoteBehind (some q) text = some q := by
  induction text with
  | nil => rfl
  | cons b text ih =>
    rw [List.mem_cons, not_or] at h
    have hstep : quoteStep (some q) b = some q := by
      simp [quoteStep, Ne.symm h.1]
    change quoteBehind (quoteStep (some q) b) text = some q
    rw [hstep]
    exact ih h.2

/-! ## Ends -/

/-- The end of a tag is found by the bytes up to it. -/
theorem tagEnd?_take {quote? : Option UInt8} {text : Bytes} {i : Nat}
    (h : tagEnd? quote? text = some i) :
    i < text.length ∧ ∀ rest, tagEnd? quote? (text.take (i + 1) ++ rest) = some i := by
  induction text generalizing quote? i with
  | nil => simp [tagEnd?] at h
  | cons b text ih =>
    rw [tagEnd?_cons] at h
    simp only [List.take_succ_cons, List.cons_append, tagEnd?_cons]
    by_cases hb : quote? = none ∧ b = '>'.toUInt8
    · rw [if_pos hb] at h
      cases h
      exact ⟨Nat.succ_pos _, fun rest => by rw [if_pos hb]⟩
    · rw [if_neg hb] at h
      obtain ⟨j, hj, rfl⟩ := Option.map_eq_some_iff.1 h
      obtain ⟨hlen, hrest⟩ := ih hj
      exact ⟨by rw [List.length_cons]; omega, fun rest => by rw [if_neg hb, hrest rest]; rfl⟩

/-- So is the end of a declaration. -/
theorem declarationEnd?_take {depth : Nat} {text : Bytes} {i : Nat}
    (h : declarationEnd? depth text = some i) :
    i < text.length ∧ ∀ rest, declarationEnd? depth (text.take (i + 1) ++ rest) = some i := by
  induction text generalizing depth i with
  | nil => simp [declarationEnd?] at h
  | cons b text ih =>
    -- What a byte that is not the end leads to, at the depth behind it.
    have hmore : ∀ d, (declarationEnd? d text).map (· + 1) = some i →
        i < (b :: text).length ∧
          ∀ rest, (declarationEnd? d (text.take i ++ rest)).map (· + 1) = some i := by
      intro d hd
      obtain ⟨j, hj, rfl⟩ := Option.map_eq_some_iff.1 hd
      obtain ⟨hlen, hrest⟩ := ih hj
      exact ⟨by rw [List.length_cons]; omega, fun rest => by rw [hrest rest]; rfl⟩
    simp only [List.take_succ_cons, List.cons_append]
    by_cases hopen : (b == '<'.toUInt8) = true
    · simp only [declarationEnd?, if_pos hopen] at h ⊢
      exact hmore _ h
    · by_cases hclose : (b == '>'.toUInt8) = true
      · cases depth with
        | zero =>
          simp only [declarationEnd?, if_neg hopen, if_pos hclose, Option.some.injEq] at h ⊢
          subst h
          exact ⟨by simp, fun _ => rfl⟩
        | succ d =>
          simp only [declarationEnd?, if_neg hopen, if_pos hclose] at h ⊢
          exact hmore _ h
      · simp only [declarationEnd?, if_neg hopen, if_neg hclose] at h ⊢
        exact hmore _ h

/-- A pattern is found by the bytes through its end. -/
theorem indexOf?_take {pattern text : Bytes} {i n : Nat} (h : Bytes.indexOf? pattern text = some i)
    (hn : i + pattern.length ≤ n) (rest : Bytes) :
    Bytes.indexOf? pattern (text.take n ++ rest) = some i := by
  have hlen := Bytes.indexOf?_add_length_le h
  rw [Bytes.indexOf?_eq_some_iff] at h ⊢
  rw [← List.take_append_drop n text] at h
  refine (FirstAt.congr_front (ofFirstBytes_pattern pattern) ?_).1 h
  rw [List.length_take]
  omega

/-- A text starts as its own first bytes do. -/
theorem opensWith_take {pattern : String} {text : Bytes} {n : Nat}
    (h : Bytes.opensWith pattern text = true) (hn : (Bytes.ofString pattern).length ≤ n)
    (rest : Bytes) : Bytes.opensWith pattern (text.take n ++ rest) = true := by
  unfold Bytes.opensWith at h ⊢
  rw [List.isPrefixOf_iff_prefix] at h ⊢
  exact (List.prefix_take_iff.2 ⟨h, hn⟩).trans (List.prefix_append _ _)

/-! ## Kinds -/

theorem ownBytes_readComment : OwnBytes readComment := by
  intro text m n h
  unfold readComment at h ⊢
  cases hi : Bytes.indexOf? (Bytes.ofString "-->") (text.drop 2) with
  | none => simp [hi] at h
  | some i =>
    have hlen := Bytes.indexOf?_add_length_le hi
    have hthree : (Bytes.ofString "-->").length = 3 := by decide
    have htwo : (Bytes.ofString "--").length = 2 := by decide
    rw [List.length_drop] at hlen
    simp only [hi] at h
    split at h
    · next hopen =>
      simp only [Except.ok.injEq, Prod.mk.injEq] at h
      obtain ⟨rfl, rfl⟩ := h
      refine ⟨by omega, by omega, fun rest => ?_⟩
      have hdrop : (text.take (2 + i + 3) ++ rest).drop 2 = (text.drop 2).take (i + 3) ++ rest := by
        rw [List.drop_append_of_le_length (by rw [List.length_take]; omega), List.drop_take]
        rw [show 2 + i + 3 - 2 = i + 3 by omega]
      rw [hdrop, indexOf?_take hi (by omega)]
      dsimp only
      rw [if_pos (opensWith_take hopen (by omega) rest)]
    · simp at h

theorem ownBytes_readCData : OwnBytes readCData := by
  intro text m n h
  unfold readCData at h ⊢
  cases hi : Bytes.indexOf? (Bytes.ofString "]]>") text with
  | none => simp [hi] at h
  | some i =>
    have hlen := Bytes.indexOf?_add_length_le hi
    have hthree : (Bytes.ofString "]]>").length = 3 := by decide
    simp only [hi] at h
    split at h
    · next hopen =>
      simp only [Except.ok.injEq, Prod.mk.injEq] at h
      obtain ⟨rfl, rfl⟩ := h
      -- No `]` stands in the opening, so the end is behind it.
      have hseven : 7 ≤ i := by
        obtain ⟨tail, rfl⟩ := List.isPrefixOf_iff_prefix.1 hopen
        obtain ⟨⟨after, hafter⟩, -⟩ := Bytes.indexOf?_eq_some_iff.1 hi
        by_contra hlt
        have hopening : (Bytes.ofString "[CDATA[").length = 7 := by decide
        have hbyte := congrArg List.head? hafter
        rw [List.head?_drop, List.getElem?_append_left (by omega)] at hbyte
        revert hbyte
        have hnone : ∀ k < 7, (Bytes.ofString "[CDATA[")[k]? ≠ some ']'.toUInt8 := by
          decide
        exact fun hbyte => hnone i (by omega) hbyte.symm
      have hopening : (Bytes.ofString "[CDATA[").length = 7 := by decide
      refine ⟨by omega, by omega, fun rest => ?_⟩
      rw [indexOf?_take hi (by omega)]
      dsimp only
      rw [if_pos (opensWith_take hopen (by omega) rest),
        List.take_append_of_le_length (by rw [List.length_take]; omega), List.take_take,
        Nat.min_eq_left (by omega)]
    · simp at h

theorem ownBytes_readDoctype : OwnBytes readDoctype := by
  intro text m n h
  unfold readDoctype at h ⊢
  cases hi : declarationEnd? 0 text with
  | none => simp [hi] at h
  | some i =>
    obtain ⟨hlen, hrest⟩ := declarationEnd?_take hi
    simp only [hi] at h
    -- All that is read lies before the end.
    have htake : ∀ rest, (text.take (i + 1) ++ rest).take i = text.take i := by
      intro rest
      rw [List.take_append_of_le_length (by rw [List.length_take]; omega), List.take_take,
        Nat.min_eq_left (by omega)]
    split at h
    · next hkeyword =>
      split at h
      · simp at h
      · next hname =>
        simp only [Except.ok.injEq, Prod.mk.injEq] at h
        obtain ⟨rfl, rfl⟩ := h
        refine ⟨by omega, by omega, fun rest => ?_⟩
        simp only [hrest rest, htake rest]
        rw [if_pos hkeyword, if_neg hname]
    · simp at h

theorem ownBytes_readInstruction : OwnBytes readInstruction := by
  intro text m n h
  unfold readInstruction at h ⊢
  split at h
  · next i hi =>
    have hlen := Bytes.indexOf?_add_length_le hi
    have htwo : (Bytes.ofString "?>").length = 2 := by decide
    simp only [Except.ok.injEq, Prod.mk.injEq] at h
    obtain ⟨rfl, rfl⟩ := h
    refine ⟨by omega, by omega, fun rest => ?_⟩
    rw [indexOf?_take hi (by omega)]
  · simp at h

theorem ownBytes_readTag : OwnBytes readTag := by
  intro text m n h
  unfold readTag at h ⊢
  cases hi : tagEnd? none text with
  | none => simp [hi] at h
  | some i =>
    obtain ⟨hlen, hrest⟩ := tagEnd?_take hi
    simp only [hi, Except.ok.injEq, Prod.mk.injEq] at h
    obtain ⟨rfl, rfl⟩ := h
    refine ⟨by omega, by omega, fun rest => ?_⟩
    have htake : (text.take (i + 1) ++ rest).take i = text.take i := by
      rw [List.take_append_of_le_length (by rw [List.length_take]; omega), List.take_take,
        Nat.min_eq_left (by omega)]
    simp only [hrest rest, htake]

/-- The kinds behind `<!` are told apart by the first byte. -/
theorem ownBytes_readBang : OwnBytes readBang := by
  apply OwnBytes.ite (· == some '-'.toUInt8)
  · exact OwnBytes.mapError ownBytes_readComment
  apply OwnBytes.ite (· == some '['.toUInt8)
  · exact OwnBytes.mapError ownBytes_readCData
  apply OwnBytes.ite (·.map Case.upper == some 'D'.toUInt8)
  · exact ownBytes_readDoctype
  · exact OwnBytes.fail _

/-- Markup is recognised by its own bytes. -/
theorem ownBytes_read : OwnBytes read := by
  intro text m n h
  cases text with
  | nil => simp [read] at h
  | cons b text =>
    unfold read at h ⊢
    dsimp only at h
    by_cases hbang : (b == '!'.toUInt8) = true
    · rw [if_pos hbang] at h
      cases hr : readBang text with
      | error fault => simp [hr, Except.map] at h
      | ok r =>
        simp only [hr, Except.map, Except.ok.injEq, Prod.mk.injEq] at h
        obtain ⟨rfl, rfl⟩ := h
        obtain ⟨hpos, hlen, hrest⟩ := ownBytes_readBang hr
        refine ⟨by omega, by rw [List.length_cons]; omega, fun rest => ?_⟩
        rw [List.take_succ_cons, List.cons_append]
        dsimp only
        rw [if_pos hbang, hrest rest]
        rfl
    · have hothers : OwnBytes fun text => if text.head? == some '?'.toUInt8 then
          (readInstruction text).mapError Error.markup else (readTag text).mapError Error.markup := by
        apply OwnBytes.ite (· == some '?'.toUInt8)
        · exact OwnBytes.mapError ownBytes_readInstruction
        · exact OwnBytes.mapError ownBytes_readTag
      rw [if_neg hbang] at h
      obtain ⟨hpos, hlen, hrest⟩ := @hothers (b :: text) m n h
      obtain ⟨k, rfl⟩ : ∃ k, n = k + 1 := ⟨n - 1, by omega⟩
      refine ⟨hpos, hlen, fun rest => ?_⟩
      have hrest := hrest rest
      rw [List.take_succ_cons, List.cons_append] at hrest ⊢
      dsimp only
      rw [if_neg hbang]
      exact hrest

/-- So markup that is a whole text is read in front of any other one. -/
theorem read_append {written : Bytes} {m : Markup} (taken : read written = .ok (m, written.length))
    (rest : Bytes) : read (written ++ rest) = .ok (m, written.length) := by
  have htaken := (ownBytes_read taken).2.2 rest
  rwa [List.take_length] at htaken

/-- What is read off a text is read by itself. -/
theorem exists_append_of_read {text : Bytes} {m : Markup} {n : Nat} (h : read text = .ok (m, n)) :
    ∃ written rest, text = written ++ rest ∧ written.length = n ∧
      read written = .ok (m, written.length) := by
  obtain ⟨-, hn, htaken⟩ := ownBytes_read h
  have hlen : (text.take n).length = n := List.length_take_of_le hn
  have htaken := htaken []
  rw [List.append_nil] at htaken
  refine ⟨text.take n, text.drop n, (List.take_append_drop n text).symm, hlen, ?_⟩
  rw [hlen]
  exact htaken

end Markup

end DocxTemplate.Xml
