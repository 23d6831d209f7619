import DocxTemplate.Proofs.Xml.Attribute
import DocxTemplate.Proofs.Xml.Markup

/-! # Markup as it is written

    What stands between the `<` and the `>` of each kind of markup that may hold text.

    * `Markup.closes_read`: all markup ends with a `>`.
    * `Markup.exists_tag_body` and `Markup.read_tag_body`: how a tag is written.
    * `Markup.read_cdata_iff`: how a character section is written.
-/

namespace DocxTemplate.Xml

namespace Markup

/-! ## Character sections -/

/-- A pattern is found behind a stretch without its first byte. -/
theorem indexOf?_append_of_not_mem {c : UInt8} {pattern front : Bytes} (h : c ∉ front)
    (rest : Bytes) : Bytes.indexOf? (c :: pattern) (front ++ rest) =
      (Bytes.indexOf? (c :: pattern) rest).map (· + front.length) := by
  induction front with
  | nil => simp
  | cons b front ih =>
    rw [List.mem_cons, not_or] at h
    rw [List.cons_append, Bytes.indexOf?, if_neg (by simp [List.isPrefixOf, h.1]), ih h.2,
      Option.map_map]
    congr 1

/-- A character section opens with `[CDATA[`, and its content ends with the first `]]>`. -/
theorem readCData_eq_ok_iff {text : Bytes} {m : Markup} {n : Nat} :
    readCData text = .ok (m, n) ↔ ∃ content rest, m = .cdata content ∧ n = content.length + 10 ∧
      text = Bytes.ofString "[CDATA[" ++ (content ++ (Bytes.ofString "]]>" ++ rest)) ∧
        Bytes.indexOf? (Bytes.ofString "]]>") (content ++ (Bytes.ofString "]]>" ++ rest)) =
          some content.length := by
  have hopening : (Bytes.ofString "[CDATA[").length = 7 := by decide
  have hfree : ']'.toUInt8 ∉ Bytes.ofString "[CDATA[" := by decide
  have hindex (tail : Bytes) :
      Bytes.indexOf? (Bytes.ofString "]]>") (Bytes.ofString "[CDATA[" ++ tail) =
        (Bytes.indexOf? (Bytes.ofString "]]>") tail).map (· + 7) :=
    indexOf?_append_of_not_mem hfree tail
  have hcontent (content tail : Bytes) :
      ((Bytes.ofString "[CDATA[" ++ (content ++ tail)).take (content.length + 7)).drop 7 =
        content := by
    rw [← List.append_assoc,
      List.take_left' (by rw [List.length_append, hopening, Nat.add_comm]),
      List.drop_left' hopening]
  constructor
  · intro h
    unfold readCData at h
    split at h
    · next i hi =>
      split at h
      · next hopen =>
        obtain ⟨tail, rfl⟩ := List.isPrefixOf_iff_prefix.1 hopen
        rw [hindex] at hi
        obtain ⟨j, hj, rfl⟩ := Option.map_eq_some_iff.1 hi
        obtain ⟨content, rest, rfl, rfl⟩ := Bytes.eq_append_of_indexOf? hj
        rw [hcontent] at h
        cases h
        exact ⟨content, rest, rfl, rfl, rfl, hj⟩
      · cases h
    · cases h
  · rintro ⟨content, rest, rfl, rfl, rfl, hend⟩
    have hopen : Bytes.opensWith "[CDATA[" (Bytes.ofString "[CDATA[" ++
        (content ++ (Bytes.ofString "]]>" ++ rest))) = true :=
      List.isPrefixOf_iff_prefix.2 (List.prefix_append _ _)
    rw [readCData, hindex, hend]
    dsimp only [Option.map_some]
    rw [if_pos hopen, hcontent]

/-! ## Where markup ends -/

/-- A reader of markup stops behind a `>`. -/
def Closes {ε : Type} (read : Bytes → Except ε (Markup × Nat)) : Prop :=
  ∀ {text m n}, read text = .ok (m, n) →
    ∃ body rest, text = body ++ '>'.toUInt8 :: rest ∧ n = body.length + 1

theorem Closes.mapError {ε ε' : Type} {read : Bytes → Except ε (Markup × Nat)} {f : ε → ε'}
    (h : Closes read) : Closes fun text => (read text).mapError f := by
  intro text m n hread
  dsimp only at hread
  cases hr : read text with
  | error fault => simp [hr, Except.mapError] at hread
  | ok r =>
    simp only [hr, Except.mapError, Except.ok.injEq] at hread
    subst hread
    exact h hr

theorem exists_of_tagEnd? {quote? : Option UInt8} {text : Bytes} {i : Nat}
    (h : tagEnd? quote? text = some i) :
    ∃ body rest, text = body ++ '>'.toUInt8 :: rest ∧ i = body.length := by
  induction text generalizing quote? i with
  | nil => simp [tagEnd?] at h
  | cons b text ih =>
    rw [tagEnd?_cons] at h
    split at h
    · next hb =>
      cases h
      exact ⟨[], text, by rw [hb.2]; rfl, rfl⟩
    · obtain ⟨j, hj, rfl⟩ := Option.map_eq_some_iff.1 h
      obtain ⟨body, rest, rfl, rfl⟩ := ih hj
      exact ⟨b :: body, rest, rfl, rfl⟩

theorem exists_of_declarationEnd? {depth : Nat} {text : Bytes} {i : Nat}
    (h : declarationEnd? depth text = some i) :
    ∃ body rest, text = body ++ '>'.toUInt8 :: rest ∧ i = body.length := by
  induction text generalizing depth i with
  | nil => simp [declarationEnd?] at h
  | cons b text ih =>
    have hmore : ∀ d, (declarationEnd? d text).map (· + 1) = some i →
        ∃ body rest, b :: text = body ++ '>'.toUInt8 :: rest ∧ i = body.length := by
      intro d hd
      obtain ⟨j, hj, rfl⟩ := Option.map_eq_some_iff.1 hd
      obtain ⟨body, rest, rfl, rfl⟩ := ih hj
      exact ⟨b :: body, rest, rfl, rfl⟩
    unfold declarationEnd? at h
    split at h
    · exact hmore _ h
    · split at h
      · next hb =>
        split at h
        · cases h
          exact ⟨[], text, by rw [beq_iff_eq.1 hb]; rfl, rfl⟩
        · exact hmore _ h
      · exact hmore _ h

/-- A pattern that ends with a `>` is found up to it. -/
theorem exists_of_indexOf? (front : Bytes) {text : Bytes} {i : Nat}
    (h : Bytes.indexOf? (front ++ ['>'.toUInt8]) text = some i) :
    ∃ body rest, text = body ++ '>'.toUInt8 :: rest ∧ i + front.length = body.length := by
  obtain ⟨before, rest, rfl, rfl⟩ := Bytes.eq_append_of_indexOf? h
  exact ⟨before ++ front, rest, by simp, by rw [List.length_append]⟩

theorem closes_readComment : Closes readComment := by
  intro text m n h
  unfold readComment at h
  split at h
  · next i hi =>
    split at h
    · next hopen =>
      simp only [Except.ok.injEq, Prod.mk.injEq] at h
      obtain ⟨-, rfl⟩ := h
      obtain ⟨body, rest, hdrop, hlen⟩ := exists_of_indexOf? (Bytes.ofString "--") hi
      have htwo : (Bytes.ofString "--").length = 2 := by decide
      have hle := (List.isPrefixOf_iff_prefix.1 hopen).length_le
      refine ⟨text.take 2 ++ body, rest, ?_, ?_⟩
      · rw [List.append_assoc, ← hdrop, List.take_append_drop]
      · rw [List.length_append, List.length_take]
        omega
    · cases h
  · cases h

theorem closes_readCData : Closes readCData := by
  intro text m n h
  obtain ⟨content, rest, -, rfl, rfl, -⟩ := readCData_eq_ok_iff.1 h
  have hclosing : Bytes.ofString "]]>" = Bytes.ofString "]]" ++ ['>'.toUInt8] := by decide
  refine ⟨Bytes.ofString "[CDATA[" ++ (content ++ Bytes.ofString "]]"), rest, ?_, ?_⟩
  · rw [hclosing]
    simp only [List.append_assoc, List.singleton_append]
  · have hopening : (Bytes.ofString "[CDATA[").length = 7 := by decide
    have htwo : (Bytes.ofString "]]").length = 2 := by decide
    simp only [List.length_append, hopening, htwo]
    omega

theorem closes_readDoctype : Closes readDoctype := by
  intro text m n h
  unfold readDoctype at h
  split at h
  · next i hi =>
    obtain ⟨body, rest, htext, hlen⟩ := exists_of_declarationEnd? hi
    dsimp only at h
    split at h
    · split at h
      · cases h
      · simp only [Except.ok.injEq, Prod.mk.injEq] at h
        obtain ⟨-, rfl⟩ := h
        exact ⟨body, rest, htext, by omega⟩
    · cases h
  · cases h

theorem closes_readInstruction : Closes readInstruction := by
  intro text m n h
  unfold readInstruction at h
  split at h
  · next i hi =>
    simp only [Except.ok.injEq, Prod.mk.injEq] at h
    obtain ⟨-, rfl⟩ := h
    obtain ⟨body, rest, htext, hlen⟩ := exists_of_indexOf? (Bytes.ofString "?") hi
    have hone : (Bytes.ofString "?").length = 1 := by decide
    exact ⟨body, rest, htext, by omega⟩
  · cases h

theorem closes_readTag : Closes readTag := by
  intro text m n h
  unfold readTag at h
  split at h
  · cases h
  · next i hi =>
    simp only [Except.ok.injEq, Prod.mk.injEq] at h
    obtain ⟨-, rfl⟩ := h
    obtain ⟨body, rest, htext, rfl⟩ := exists_of_tagEnd? hi
    exact ⟨body, rest, htext, rfl⟩

theorem closes_readBang : Closes readBang := by
  intro text m n h
  unfold readBang at h
  dsimp only at h
  split at h
  · exact closes_readComment.mapError h
  · split at h
    · exact closes_readCData.mapError h
    · split at h
      · exact closes_readDoctype h
      · cases h

/-- All markup ends with a `>`. -/
theorem closes_read : Closes read := by
  intro text m n h
  cases text with
  | nil => simp [read] at h
  | cons b text =>
    unfold read at h
    dsimp only at h
    split at h
    · cases hr : readBang text with
      | error fault => simp [hr, Except.map] at h
      | ok r =>
        simp only [hr, Except.map, Except.ok.injEq, Prod.mk.injEq] at h
        obtain ⟨rfl, rfl⟩ := h
        obtain ⟨body, rest, rfl, hn⟩ := closes_readBang hr
        exact ⟨b :: body, rest, rfl, by rw [hn, List.length_cons]⟩
    · split at h
      · exact closes_readInstruction.mapError h
      · exact closes_readTag.mapError h

/-- A piece of markup by itself ends with a `>`. -/
theorem exists_of_read {written : Bytes} {m : Markup} (h : read written = .ok (m, written.length)) :
    ∃ body, written = body ++ ['>'.toUInt8] := by
  obtain ⟨body, rest, htext, hlen⟩ := closes_read h
  have hrest : rest = [] := by
    rw [htext, List.length_append, List.length_cons] at hlen
    exact List.eq_nil_of_length_eq_zero (by omega)
  exact ⟨body, by rw [htext, hrest]⟩

/-! ## Kinds -/

/-- Markup behind `<!` is a character section or carries no content. -/
theorem kind_of_readBang {text : Bytes} {m : Markup} {n : Nat} (h : readBang text = .ok (m, n)) :
    m = .other ∨ readCData text = .ok (m, n) := by
  unfold readBang at h
  dsimp only at h
  split at h
  · unfold readComment at h
    split at h
    · split at h
      · cases h
        exact Or.inl rfl
      · cases h
    · cases h
  · split at h
    · cases hr : readCData text with
      | error fault => simp [hr, Except.mapError] at h
      | ok r =>
        simp only [hr, Except.mapError, Except.ok.injEq] at h
        exact Or.inr (by rw [h])
    · split at h
      · unfold readDoctype at h
        split at h
        · dsimp only at h
          split at h
          · split at h
            · cases h
            · cases h
              exact Or.inl rfl
          · cases h
        · cases h
      · cases h

/-- Markup with content is a character section or a tag. -/
theorem kind_of_read {text : Bytes} {m : Markup} {n : Nat} (h : read text = .ok (m, n)) :
    m = .other ∨
    (∃ rest k, text = '!'.toUInt8 :: rest ∧ readCData rest = .ok (m, k) ∧ n = k + 1) ∨
    (readTag text = .ok (m, n) ∧
      ∀ b, text.head? = some b → b ∉ ['!'.toUInt8, '?'.toUInt8]) := by
  cases text with
  | nil => simp [read] at h
  | cons b text =>
    unfold read at h
    dsimp only at h
    split at h
    · next hbang =>
      cases hr : readBang text with
      | error fault => simp [hr, Except.map] at h
      | ok r =>
        simp only [hr, Except.map, Except.ok.injEq, Prod.mk.injEq] at h
        obtain ⟨rfl, rfl⟩ := h
        rcases kind_of_readBang hr with hother | hcdata
        · exact Or.inl hother
        · exact Or.inr (Or.inl ⟨text, _, by rw [beq_iff_eq.1 hbang], hcdata, rfl⟩)
    · next hbang =>
      split at h
      · left
        unfold readInstruction at h
        split at h
        · cases h
          rfl
        · cases h
      · next hquestion =>
        right
        right
        cases hr : readTag (b :: text) with
        | error fault => simp [hr, Except.mapError] at h
        | ok r =>
          simp only [hr, Except.mapError, Except.ok.injEq] at h
          refine ⟨by rw [h], fun c hc => ?_⟩
          rw [List.head?_cons, Option.some.injEq] at hc
          subst hc
          simpa using And.intro hbang hquestion

/-! ## Tags -/

/-- Nothing stands at the start of a tag that makes it an end tag or other markup. -/
def OpensTag (body : Bytes) : Prop :=
  ∀ b, body.head? = some b → b ∉ ['!'.toUInt8, '?'.toUInt8, '/'.toUInt8]

/-- A tag with content, by what stands between its `<` and its `>`. -/
def tagOf (body : Bytes) : Markup :=
  if body.getLast? = some '/'.toUInt8 then .emptyTag body.dropLast else .startTag body

/-- A tag ends at the first `>` outside quotes, and is an end tag if it opens with a `/`. -/
theorem readTag_eq_ok_iff {text : Bytes} {m : Markup} {n : Nat} :
    readTag text = .ok (m, n) ↔ ∃ body rest, text = body ++ '>'.toUInt8 :: rest ∧
      tagEnd? none text = some body.length ∧ n = body.length + 1 ∧
        m = if body.head? = some '/'.toUInt8 then .endTag (endName (body.drop 1))
          else tagOf body := by
  have hmarkup (body : Bytes) :
      (if body.head? == some '/'.toUInt8 then Markup.endTag (endName (body.drop 1))
        else if body.getLast? == some '/'.toUInt8 then .emptyTag body.dropLast
        else .startTag body) =
      if body.head? = some '/'.toUInt8 then .endTag (endName (body.drop 1)) else tagOf body := by
    simp [tagOf]
  constructor
  · intro h
    unfold readTag at h
    split at h
    · cases h
    · next i hi =>
      obtain ⟨body, rest, rfl, rfl⟩ := exists_of_tagEnd? hi
      rw [List.take_left] at h
      dsimp only at h
      rw [hmarkup] at h
      cases h
      exact ⟨body, rest, rfl, hi, rfl, rfl⟩
  · rintro ⟨body, rest, rfl, hend, rfl, rfl⟩
    rw [readTag, hend]
    dsimp only
    rw [List.take_left, hmarkup]

theorem read_tag_body {body : Bytes} (hopens : OpensTag body)
    (hend : tagEnd? none (body ++ ['>'.toUInt8]) = some body.length) :
    read (body ++ ['>'.toUInt8]) = .ok (tagOf body, (body ++ ['>'.toUInt8]).length) := by
  have hslash : body.head? ≠ some '/'.toUInt8 := fun hslash => hopens _ hslash (by simp)
  have htag : readTag (body ++ ['>'.toUInt8]) = .ok (tagOf body, (body ++ ['>'.toUInt8]).length) :=
    readTag_eq_ok_iff.2 ⟨body, [], rfl, hend, List.length_append, (if_neg hslash).symm⟩
  have hhead : ∃ b rest, body ++ ['>'.toUInt8] = b :: rest ∧ b ≠ '!'.toUInt8 ∧ b ≠ '?'.toUInt8 := by
    cases body with
    | nil => exact ⟨_, _, rfl, by decide, by decide⟩
    | cons b body =>
      have hb := hopens b rfl
      rw [List.mem_cons, List.mem_cons, not_or, not_or] at hb
      exact ⟨b, _, rfl, hb.1, hb.2.1⟩
  obtain ⟨b, rest, heq, hbang, hquestion⟩ := hhead
  rw [heq] at htag ⊢
  rw [read, if_neg (by simpa using hbang), if_neg (by simpa using hquestion), htag]
  rfl

theorem exists_tag_body {written content : Bytes} {m : Markup}
    (hm : m = .startTag content ∨ m = .emptyTag content)
    (h : read written = .ok (m, written.length)) :
    ∃ body, written = body ++ ['>'.toUInt8] ∧ OpensTag body ∧
      tagEnd? none (body ++ ['>'.toUInt8]) = some body.length ∧ m = tagOf body := by
  rcases kind_of_read h with hother | ⟨text, k, -, hcdata, -⟩ | ⟨htag, hhead⟩
  · subst hother
    rcases hm with hm | hm <;> cases hm
  · obtain ⟨content', rest, rfl, -⟩ := readCData_eq_ok_iff.1 hcdata
    rcases hm with hm | hm <;> cases hm
  · obtain ⟨body, rest, rfl, hend, hlen, hkind⟩ := readTag_eq_ok_iff.1 htag
    obtain rfl : rest = [] := by
      rw [List.length_append, List.length_cons] at hlen
      exact List.eq_nil_of_length_eq_zero (by omega)
    by_cases hslash : body.head? = some '/'.toUInt8
    · rw [if_pos hslash] at hkind
      rcases hm with rfl | rfl <;> cases hkind
    · rw [if_neg hslash] at hkind
      refine ⟨body, rfl, fun b hb => ?_, hend, hkind⟩
      have hplain := hhead b (by rw [List.head?_append, hb]; rfl)
      rw [List.mem_cons, List.mem_singleton, not_or] at hplain
      rw [hb, Option.some.injEq] at hslash
      simp [hplain.1, hplain.2, hslash]

/-! ## Whole character sections -/

/-- A character section by itself: its content ends with the first `]]>`. -/
theorem read_cdata_iff {written content : Bytes} :
    read written = .ok (.cdata content, written.length) ↔
      written = Bytes.ofString "![CDATA[" ++ (content ++ Bytes.ofString "]]>") ∧
        Bytes.indexOf? (Bytes.ofString "]]>") (content ++ Bytes.ofString "]]>") =
          some content.length := by
  have hopening : (Bytes.ofString "[CDATA[").length = 7 := by decide
  have hclosing : (Bytes.ofString "]]>").length = 3 := by decide
  constructor
  · intro h
    rcases kind_of_read h with hother | ⟨text, k, rfl, hcdata, hlen⟩ | ⟨htag, -⟩
    · cases hother
    · obtain ⟨content', rest, hcontent, rfl, rfl, hend⟩ := readCData_eq_ok_iff.1 hcdata
      cases hcontent
      obtain rfl : rest = [] := by
        simp only [List.length_cons, List.length_append, hopening, hclosing] at hlen
        exact List.eq_nil_of_length_eq_zero (by omega)
      rw [List.append_nil] at hend ⊢
      exact ⟨rfl, hend⟩
    · obtain ⟨body, rest, -, -, -, hkind⟩ := readTag_eq_ok_iff.1 htag
      rw [tagOf] at hkind
      split_ifs at hkind
  · rintro ⟨rfl, hend⟩
    have hcdata : readCData (Bytes.ofString "[CDATA[" ++ (content ++ Bytes.ofString "]]>")) =
        .ok (.cdata content, content.length + 10) :=
      readCData_eq_ok_iff.2 ⟨content, [], rfl, rfl, by rw [List.append_nil],
        by rwa [List.append_nil]⟩
    have hbang : readBang (Bytes.ofString "[CDATA[" ++ (content ++ Bytes.ofString "]]>")) =
        .ok (.cdata content, content.length + 10) := by
      have hhead : (Bytes.ofString "[CDATA[" ++ (content ++ Bytes.ofString "]]>")).head? =
          some '['.toUInt8 := rfl
      unfold readBang
      dsimp only
      rw [hhead, if_neg (by decide), if_pos (by rfl), hcdata]
      rfl
    have hwritten : Bytes.ofString "![CDATA[" ++ (content ++ Bytes.ofString "]]>") =
        '!'.toUInt8 :: (Bytes.ofString "[CDATA[" ++ (content ++ Bytes.ofString "]]>")) := rfl
    rw [hwritten, read, if_pos (by rfl), hbang]
    simp only [Except.map, List.length_cons, List.length_append, hopening, hclosing,
      Except.ok.injEq, Prod.mk.injEq, true_and]
    omega

end Markup

end DocxTemplate.Xml
