import DocxTemplate.Proofs.Sanitize.Lexemes
import DocxTemplate.Proofs.Sanitize.TokenPlace
import DocxTemplate.Proofs.Sanitize.Warnings

/-! # The passes by positions

    A pass may also be written over positions in the whole text, each of them computed from
    others: the place of a tag, the place behind it, the place of a quote. Such a position is
    only good if it lies in the text and between two characters.

    * `Scan.run?`: a scan whose steps may come to nothing.
    * `markerAt?`, `attributeAt?`, `bareTagAt?`: the steps of the passes with positions, where
      every slice and every cut is checked.
    * `markerAt?_eq`, `attributeAt?_eq`, `bareTagAt?_eq`: from such a place, every check of a
      step succeeds, it does what the step of the pass does, and ends in such a place.
-/

namespace DocxTemplate

/-! ## Scans with checked steps -/

namespace Scan

variable {σ ρ : Type} {scan : Scan σ ρ} {next? : σ → Option (Step σ ρ)} {P : σ → Prop}

/-- Goes on with steps that may come to nothing, as long as they lower the measure of a scan. -/
def run? (scan : Scan σ ρ) (next? : σ → Option (Step σ ρ)) (s : σ) : Option ρ :=
  match next? s with
  | none => none
  | some (.done r) => some r
  | some (.more t) => if scan.left t < scan.left s then scan.run? next? t else none
termination_by scan.left s

/-- Where `P` holds and is kept, steps that agree with those of a scan lead to its result. -/
theorem run?_eq (agree : ∀ s, P s → next? s = some (scan.next s))
    (keep : ∀ s t, P s → scan.next s = .more t → P t) (s : σ) (h : P s) :
    scan.run? next? s = some (scan.run s) := by
  induction s using scan.backward_induction with
  | more s t hnext ih =>
    rw [run?, agree s h, hnext]
    dsimp only
    rw [if_pos (scan.left_lt hnext), ih (keep s t h hnext), run_of_more hnext]
  | done s r hnext =>
    rw [run?, agree s h, hnext, run_of_done hnext]

end Scan

namespace Sanitize

namespace Sweep

/-- A sweep that goes on at a position of its text. -/
def moved (s : Sweep) (place : Nat) : Sweep := { s with cursor := .atPlace s.cursor.text place }

/-- A sweep that has kept this text and goes on at a position of it. -/
def removed (s : Sweep) (kept : Bytes) (place : Nat) : Sweep :=
  { s with cursor := .atPlace kept place, count := s.count + 1 }

theorem moved_eq (s : Sweep) {place n : Nat} (h : place = s.cursor.offset + n) :
    s.moved place = s.advance n := by
  rw [moved, h, Cursor.atPlace_offset_add, advance]

theorem removed_delete (s : Sweep) (c : Cursor) (n : Nat) :
    s.removed (c.delete n).text c.offset =
      { s with cursor := c.delete n, count := s.count + 1 } := by
  rw [removed, show c.offset = (c.delete n).offset from rfl, Cursor.atPlace_offset]

end Sweep

/-! ## Markers -/

/-- The end tag that belongs to a start token, which begins with a `<`. -/
def endTag? (token : String) : Option Bytes :=
  (Bytes.slice? (Bytes.ofString token) 1 (Bytes.ofString token).length).map fun name =>
    Bytes.ofString "</" ++ name ++ Bytes.ofString ">"

/-- Removes the element whose tag stands between `start` and the `>` at `stop`, if it holds
    nothing. -/
def removeMarkerAt? (token : String) (close : Bytes) (s : Sweep) (start stop : Nat) :
    Option (Step Sweep Sweep) := do
  let text := s.cursor.text
  let before ← Bytes.slice? text 0 stop
  if before.getLast? == some '/'.toUInt8 then
    let kept ← Bytes.cut? text start (stop + 1)
    return .more (s.removed kept start)
  let behind ← Bytes.slice? text (stop + 1) text.length
  if close.isPrefixOf behind then
    let kept ← Bytes.cut? text start (stop + 1 + close.length)
    return .more (s.removed kept start)
  return .more ((s.warn (.nonEmptyTag token start)).moved (stop + 1))

/-- Looks for the next element that starts with `token`. -/
def markerAt? (token : String) (close : Bytes) (s : Sweep) : Option (Step Sweep Sweep) :=
  match tokenPlace? (Bytes.ofString token) s.cursor.text s.cursor.offset with
  | none => some (.done s)
  | some start =>
    match Bytes.indexFrom? ['>'.toUInt8] s.cursor.text start with
    | none => some (.done (s.warn (.unclosedTag token start)))
    | some stop => removeMarkerAt? token close s start stop

/-- A token starts with its `<`, and the name behind it is whole. -/
theorem ofString_tokenOf (name : String) :
    ∃ rest, Bytes.ofString (tokenOf name) = '<'.toUInt8 :: rest ∧ Whole rest := by
  obtain ⟨cs, hcs⟩ := toList_tokenOf name
  exact ⟨cs.flatMap String.utf8EncodeChar, by rw [Bytes.ofString, hcs]; rfl,
    whole_iff.2 ⟨cs, rfl⟩⟩

theorem endTag?_tokenOf (name : String) :
    endTag? (tokenOf name) = some (endTag (tokenOf name)) ∧ Whole (endTag (tokenOf name)) := by
  obtain ⟨rest, hrest, hwhole⟩ := ofString_tokenOf name
  have hslice : Bytes.slice? ('<'.toUInt8 :: rest) 1 ('<'.toUInt8 :: rest).length = some rest :=
    Bytes.slice?_eq (x := ['<'.toUInt8]) (z := []) (by simp) (by simpa using hwhole) Whole.nil
      (by simp) (by simp [Nat.add_comm])
  refine ⟨?_, ?_⟩
  · rw [endTag?, hrest, hslice, endTag, hrest]
    rfl
  · rw [endTag, hrest]
    exact ((whole_ofString _).append hwhole).append (whole_ofString _)

/-- What the marker pass does at a tag that it has found. -/
theorem removeMarkerAt?_eq {token : String} {close : Bytes} (hclose : Whole close) {s : Sweep}
    {here : Cursor} {i : Nat} {tag rest : Bytes} (htext : s.cursor.text = here.text)
    (hhere : here.Between) (hoffset : here.offset = s.cursor.offset + i) (hne : tag ≠ [])
    (hahead : here.ahead = tag ++ '>'.toUInt8 :: rest) (hrest : Whole rest) :
    removeMarkerAt? token close s here.offset (here.offset + tag.length) = some (
      if tag.getLast? == some '/'.toUInt8 then
        .more { s with cursor := here.delete (tag.length + 1), count := s.count + 1 }
      else if close.isPrefixOf rest then
        .more { s with
          cursor := here.delete (tag.length + 1 + close.length), count := s.count + 1 }
      else .more ((s.warn (.nonEmptyTag token here.offset)).advance (i + (tag.length + 1)))) := by
  have hgt : Whole ('>'.toUInt8 :: rest) :=
    hrest.cons (by decide)
  have hahead' : here.ahead = (tag ++ ['>'.toUInt8]) ++ rest := by rw [hahead, List.append_cons]
  have hlen : (tag ++ ['>'.toUInt8]).length = tag.length + 1 := by simp
  unfold removeMarkerAt?
  dsimp only
  rw [htext, hhere.slice?_before hahead hgt rfl,
    Cursor.Between.slice?_ahead hahead' hrest (by rw [hlen, Nat.add_assoc])]
  -- The tag is not empty, so the byte before its end belongs to it.
  simp only [Option.bind_eq_bind, Option.bind_some, List.getLast?_append_of_ne_nil _ hne]
  split
  · rw [hhere.cut? hahead' hrest (by rw [hlen, Nat.add_assoc]), hlen, Option.bind_some,
      s.removed_delete]
    rfl
  · split
    · next hprefix =>
      obtain ⟨after, rfl⟩ := List.isPrefixOf_iff_prefix.1 hprefix
      rw [← List.append_assoc] at hahead'
      have hlen' : (tag ++ ['>'.toUInt8] ++ close).length = tag.length + 1 + close.length := by
        rw [List.length_append, hlen]
      rw [hhere.cut? hahead' (hclose.of_append_left hrest) (by rw [hlen']; omega), hlen',
        Option.bind_some, s.removed_delete]
      rfl
    · rw [Sweep.moved_eq _ (show _ = (s.warn _).cursor.offset + (i + (tag.length + 1)) by
        rw [hoffset, Sweep.cursor_warn]; omega)]
      rfl

theorem markerAt?_eq (name : String) {s : Sweep} (h : s.cursor.Between) :
    markerAt? (tokenOf name) (endTag (tokenOf name)) s = some (markerStep (tokenOf name) s) ∧
      (markerStep (tokenOf name) s).Leads fun t => t.cursor.Between := by
  obtain ⟨name', htoken, -⟩ := ofString_tokenOf name
  obtain ⟨-, hclose⟩ := endTag?_tokenOf name
  unfold markerAt? markerStep
  dsimp only
  rw [tokenPlace?_offset h (whole_ofString _) (ofString_tokenOf_ne_nil name)]
  cases hi : tokenIndex? (Bytes.ofString (tokenOf name)) s.cursor.ahead with
  | none => exact ⟨rfl, h⟩
  | some i =>
    have hpre := (startsToken_of_tokenIndex? hi).prefix_of
    obtain ⟨hhere, hoffset⟩ := h.found (whole_ofString _) (ofString_tokenOf_ne_nil name) hpre
    have htext : s.cursor.text = (s.cursor.advance i).text := (Cursor.text_advance _ _).symm
    rw [← Cursor.ahead_advance] at hpre
    rw [Option.map_some]
    dsimp only
    rw [← hoffset, htext, hhere.indexFrom?]
    cases hg : Bytes.indexOf? ['>'.toUInt8] (s.cursor.advance i).ahead with
    | none => exact ⟨rfl, h⟩
    | some g =>
      obtain ⟨tag, rest, hahead, -, rfl, htag, hrest⟩ :=
        hhere.ahead.of_indexOf?_singleton (by decide) hg
      have hne : tag ≠ [] := by
        rintro rfl
        rw [hahead, htoken, List.nil_append, List.cons_prefix_cons] at hpre
        exact absurd hpre.1 (by decide)
      have hahead' : (s.cursor.advance i).ahead = (tag ++ ['>'.toUInt8]) ++ rest := by
        rw [hahead, List.append_cons]
      have hlen : (tag ++ ['>'.toUInt8]).length = tag.length + 1 := by simp
      have hdrop : (s.cursor.advance i).ahead.drop (tag.length + 1) = rest := by
        rw [hahead', ← hlen, List.drop_left]
      rw [Option.map_some]
      dsimp only
      rw [removeMarkerAt?_eq hclose htext hhere hoffset hne hahead hrest, hahead, List.take_left,
        ← hahead, hdrop, Nat.add_zero]
      refine ⟨rfl, ?_⟩
      split
      · have hdelete := hhere.delete hahead' hrest
        rwa [hlen] at hdelete
      · split
        · next hprefix =>
          obtain ⟨after, rfl⟩ := List.isPrefixOf_iff_prefix.1 hprefix
          rw [← List.append_assoc] at hahead'
          have hdelete := hhere.delete hahead' (hclose.of_append_left hrest)
          rwa [List.length_append, hlen] at hdelete
        · have hpassed := hhere.advance hahead' hrest
          rwa [hlen, Cursor.advance_advance] at hpassed

/-! ## Attributes -/

/-- The position of the closing quote of a value that opens at a position. -/
def quotedEnd? (text : Bytes) (place : Nat) : Option Nat :=
  match text[place]? with
  | some q => if q == 0x22 || q == 0x27 then Bytes.indexFrom? [q] text (place + 1) else none
  | none => none

/-- Whether white space stands just before a position. -/
def spaceBefore? (text : Bytes) (place : Nat) : Option Bool :=
  if 0 < place then text[place - 1]?.map isSpace else some false

/-- Where the white space before a position starts, found step by step backwards. -/
def spaceStart? (text : Bytes) : Nat → Option Nat
  | 0 => some 0
  | place + 1 => do
    let b ← text[place]?
    if isSpace b then spaceStart? text place else return place + 1

/-- Looks for the next attribute called `name` and removes it. -/
def attributeAt? (name : String) (s : Sweep) : Option (Step Sweep Sweep) :=
  let text := s.cursor.text
  match Bytes.indexFrom? (attributeToken name) text s.cursor.offset with
  | none => some (.done s)
  | some found => do
    let behind := found + (attributeToken name).length
    if ← spaceBefore? text found then
      match quotedEnd? text behind with
      | none => return .more (s.moved behind)
      | some stop =>
        let inTag := (Bytes.indexFrom? ['>'.toUInt8] text found).any fun g =>
          (Bytes.indexFrom? ['<'.toUInt8] text found).all (g < ·) && stop < g
        if inTag then
          let start ← spaceStart? text found
          let kept ← Bytes.cut? text start (stop + 1)
          return .more (s.removed kept start)
        return .more (s.moved behind)
    return .more (s.moved behind)

variable {c : Cursor}

theorem spaceBefore?_offset (c : Cursor) : spaceBefore? c.text c.offset = some c.afterSpace := by
  obtain ⟨behind, ahead⟩ := c
  cases behind with
  | nil => rfl
  | cons b behind =>
    have hget : (Cursor.text ⟨b :: behind, ahead⟩)[behind.length]? = some b := by
      simp [Cursor.text]
    rw [spaceBefore?, Cursor.offset, List.length_cons, if_pos (Nat.succ_pos _),
      Nat.add_sub_cancel, hget]
    rfl

theorem spaceStart?_offset (c : Cursor) :
    spaceStart? c.text c.offset = some c.deleteSpaceBehind.offset := by
  obtain ⟨behind, ahead⟩ := c
  induction behind generalizing ahead with
  | nil => rfl
  | cons b behind ih =>
    have hget : (Cursor.text ⟨b :: behind, ahead⟩)[behind.length]? = some b := by
      simp [Cursor.text]
    have htext : Cursor.text ⟨b :: behind, ahead⟩ = Cursor.text ⟨behind, b :: ahead⟩ := by
      simp [Cursor.text]
    rw [Cursor.offset, List.length_cons, spaceStart?, hget, Option.bind_eq_bind, Option.bind_some]
    split
    · next hb =>
      rw [htext]
      refine (ih (b :: ahead)).trans ?_
      simp [Cursor.deleteSpaceBehind, Cursor.offset, hb]
    · next hb =>
      simp [Cursor.deleteSpaceBehind, Cursor.offset, hb]

/-- The closing quote ends the value that opens at a cursor. -/
theorem quotedEnd?_offset (h : c.Between) : quotedEnd? c.text c.offset =
    (quotedLength? c.ahead).map fun n => c.offset + n - 1 := by
  have hget := c.getElem?_text_add 0
  rw [Nat.add_zero] at hget
  rw [quotedEnd?, hget]
  cases hahead : c.ahead with
  | nil => rfl
  | cons q rest =>
    rw [List.getElem?_cons_zero, quotedLength?]
    dsimp only
    split
    · next hq =>
      have hascii : q < 0x80 := by
        rw [Bool.or_eq_true, beq_iff_eq, beq_iff_eq] at hq
        rcases hq with rfl | rfl <;> decide
      have hwhole := h.ahead
      rw [hahead] at hwhole
      have hrest : Whole rest := hwhole.tail hascii
      have hplace := h.advance (x := [q]) hahead hrest
      have hfind := hplace.indexFrom? [q]
      rw [Cursor.text_advance, Cursor.offset_advance (by simp [hahead]), Cursor.ahead_advance,
        hahead] at hfind
      refine hfind.trans ?_
      rw [Option.map_map]
      refine congrArg (Option.map · _) (funext fun i => ?_)
      simp
      omega
    · rfl

/-- A quoted value ends between two characters. -/
theorem whole_of_quotedLength? {text : Bytes} {n : Nat} (h : Whole text)
    (hn : quotedLength? text = some n) : ∃ value rest, text = value ++ rest ∧ value.length = n ∧
      0 < n ∧ Whole rest := by
  obtain ⟨value, rest, rfl, rfl, q, inner, hq, -, rfl⟩ := quoted_of_quotedLength? hn
  have hascii : q < 0x80 := by rcases hq with rfl | rfl <;> decide
  refine ⟨_, rest, rfl, rfl, by simp, ?_⟩
  rw [show q :: (inner ++ [q]) ++ rest = (q :: inner) ++ q :: rest by simp] at h
  exact (h.split_cons (Or.inl hascii)).2.tail hascii

/-- The value ends before the `>` of the tag, and no `<` comes before that. -/
theorem endsInsideTag_offset (h : c.Between) {stop n : Nat} (hstop : stop + 1 = c.offset + n) :
    ((Bytes.indexFrom? ['>'.toUInt8] c.text c.offset).any fun g =>
      (Bytes.indexFrom? ['<'.toUInt8] c.text c.offset).all (g < ·) && stop < g) =
        endsInsideTag n c.ahead := by
  rw [h.indexFrom?, h.indexFrom?, endsInsideTag]
  have hle : ∀ g, decide (stop < c.offset + g) = decide (n ≤ g) := fun g => by
    rw [decide_eq_decide]
    omega
  cases Bytes.indexOf? ['>'.toUInt8] c.ahead with
  | none => rfl
  | some g =>
    cases Bytes.indexOf? ['<'.toUInt8] c.ahead with
    | none => simp [hle]
    | some l => simp [hle]

theorem whole_attributeToken (name : String) : Whole (attributeToken name) :=
  (whole_ofString name).append (.single (by decide))

/-- The value behind a token, by its position in the whole text. -/
theorem quotedEnd?_behind {token tail : Bytes} (h : c.Between) (hahead : c.ahead = token ++ tail)
    (htail : Whole tail) : quotedEnd? c.text (c.offset + token.length) =
      (quotedLength? tail).map fun n => c.offset + token.length + n - 1 := by
  have hquoted := quotedEnd?_offset (h.advance hahead htail)
  rwa [Cursor.text_advance, Cursor.offset_advance (by rw [hahead, List.length_append]; omega),
    Cursor.ahead_advance, hahead, List.drop_left] at hquoted

/-- What a search for a pattern has found ahead of a sweep, with `tail` behind it. -/
structure Found (s : Sweep) (pattern tail : Bytes) (i : Nat) : Prop where
  between : (s.cursor.advance i).Between
  offset_eq : (s.cursor.advance i).offset = s.cursor.offset + i
  ahead_eq : (s.cursor.advance i).ahead = pattern ++ tail
  whole : Whole tail
  /-- Going on behind the pattern leads between two characters too. -/
  passed : (s.advance (i + pattern.length)).cursor.Between
  moved_eq : s.moved ((s.cursor.advance i).offset + pattern.length) =
    s.advance (i + pattern.length)

theorem exists_found {pattern : Bytes} {s : Sweep} (h : s.cursor.Between) (hp : Whole pattern)
    (hne : pattern ≠ []) {i : Nat} (hpre : pattern <+: s.cursor.ahead.drop i) :
    ∃ tail, Found s pattern tail i := by
  obtain ⟨tail, htail⟩ := hpre
  obtain ⟨hhere, hoffset⟩ := h.found hp hne ⟨tail, htail⟩
  rw [← Cursor.ahead_advance] at htail
  have hwhole : Whole tail := hp.of_append_left (htail ▸ hhere.ahead)
  refine ⟨tail, hhere, hoffset, htail.symm, hwhole, ?_, ?_⟩
  · rw [Sweep.cursor_advance, ← Cursor.advance_advance]
    exact hhere.advance htail.symm hwhole
  · exact s.moved_eq (by rw [hoffset, Nat.add_assoc])

theorem attributeAt?_eq (name : String) {s : Sweep} (h : s.cursor.Between) :
    attributeAt? name s = some (attributeStep name s) ∧
      (attributeStep name s).Leads fun t => t.cursor.Between := by
  have htoken := whole_attributeToken name
  have hne : attributeToken name ≠ [] := by simp [attributeToken]
  unfold attributeAt? attributeStep
  dsimp only
  rw [← attributeToken, h.indexFrom?]
  generalize attributeToken name = token at htoken hne ⊢
  cases hi : Bytes.indexOf? token s.cursor.ahead with
  | none => exact ⟨rfl, h⟩
  | some i =>
    obtain ⟨tail, hhere, hoffset, hahead, hwhole, hpassed, hmoved⟩ :=
      exists_found h htoken hne (Bytes.indexOf?_eq_some_iff.1 hi).1
    rw [Option.map_some]
    dsimp only
    rw [← Cursor.text_advance s.cursor i, ← hoffset, spaceBefore?_offset, hmoved,
      quotedEnd?_behind hhere hahead hwhole, Option.bind_eq_bind, Option.bind_some, hahead,
      List.drop_left]
    generalize s.cursor.advance i = here at hhere hahead
    cases here.afterSpace with
    | false => exact ⟨rfl, hpassed⟩
    | true =>
      cases hq : quotedLength? tail with
      | none => exact ⟨rfl, hpassed⟩
      | some n =>
        obtain ⟨value, after, rfl, rfl, hpos, hafter⟩ := whole_of_quotedLength? hwhole hq
        rw [← List.append_assoc] at hahead
        have hlen : token.length + value.length = (token ++ value).length := List.length_append.symm
        have hstop : here.offset + token.length + value.length - 1 + 1 =
            here.offset + (token ++ value).length := by omega
        rw [Option.map_some]
        dsimp only
        rw [endsInsideTag_offset hhere hstop, ← List.append_assoc, ← hahead, hlen, if_pos rfl,
          if_pos rfl]
        -- Only a value that ends inside its tag is cut out, with the white space before it.
        by_cases hinside : endsInsideTag (token ++ value).length here.ahead = true
        · rw [if_pos hinside, if_pos hinside, spaceStart?_offset, Option.bind_eq_bind,
            Option.bind_some, hhere.cut?_spaceBehind hahead hafter hstop, Option.bind_eq_bind,
            Option.bind_some, s.removed_delete]
          exact ⟨rfl, hhere.deleteSpaceBehind.1.delete hahead hafter⟩
        · rw [if_neg hinside, if_neg hinside]
          exact ⟨rfl, hpassed⟩

/-! ## Bare tags -/

/-- The position behind the end of a tag, if only blanks stand before it. -/
def tagEndFrom? (text : Bytes) (place : Nat) : Option (Option Nat) := do
  let rest ← Bytes.slice? text place text.length
  let trimmed := rest.drop (Blank.leading rest)
  let ending (n : Nat) := place + (rest.length - trimmed.length) + n
  if Bytes.opensWith "/>" trimmed then return some (ending 2)
  if Bytes.opensWith ">" trimmed then return some (ending 1)
  return none

/-- Looks for the next tag whose name is the attribute `name` with its value, and removes it
    if it holds nothing else. -/
def bareTagAt? (name : String) (s : Sweep) : Option (Step Sweep Sweep) :=
  let text := s.cursor.text
  let token := '<'.toUInt8 :: attributeToken name
  match Bytes.indexFrom? token text s.cursor.offset with
  | none => some (.done s)
  | some found =>
    match quotedEnd? text (found + token.length) with
    | none => some (.more (s.moved (found + token.length)))
    | some stop => do
      match ← tagEndFrom? text (stop + 1) with
      | none => return .more (s.moved (found + token.length))
      | some ending =>
        let kept ← Bytes.cut? text found ending
        return .more (s.removed kept found)

/-- The end of a tag lies between two characters. -/
theorem whole_of_tagEnd? {text : Bytes} {m : Nat} (h : Whole text) (hm : tagEnd? text = some m) :
    ∃ ending rest, text = ending ++ rest ∧ ending.length = m ∧ Whole rest := by
  obtain ⟨blanks, ending, rest, rfl, rfl, ⟨cs, hcs, -⟩, hending⟩ := exists_eq_of_tagEnd? hm
  have hblanks : Whole blanks := whole_iff.2 ⟨cs, Utf8.decodeFrom_eq_ok_iff.1 hcs⟩
  have hwhole : Whole ending := by
    rcases hending with rfl | rfl <;> exact whole_ofString _
  exact ⟨_, rest, (List.append_assoc _ _ _).symm, rfl,
    hwhole.of_append_left (hblanks.of_append_left h)⟩

/-- The blanks before the end of a tag, counted by how much shorter the text is without them. -/
theorem tagEndFrom?_behind {x y : Bytes} (hahead : c.ahead = x ++ y) (hy : Whole y) :
    tagEndFrom? c.text (c.offset + x.length) =
      some ((tagEnd? y).map (c.offset + x.length + ·)) := by
  have hle := Blank.leading_le_length y
  have hshorter : y.length - (y.drop (Blank.leading y)).length = Blank.leading y := by
    rw [List.length_drop]
    omega
  rw [tagEndFrom?, Cursor.Between.slice?_ahead hahead hy rfl, Option.bind_eq_bind,
    Option.bind_some, tagEnd?]
  dsimp only
  rw [hshorter]
  split
  · simp [Nat.add_assoc]
  · split
    · simp [Nat.add_assoc]
    · rfl

theorem bareTagAt?_eq (name : String) {s : Sweep} (h : s.cursor.Between) :
    bareTagAt? name s = some (bareTagStep name s) ∧
      (bareTagStep name s).Leads fun t => t.cursor.Between := by
  have htoken : Whole ('<'.toUInt8 :: attributeToken name) :=
    (whole_attributeToken name).cons (by decide)
  have hne := List.cons_ne_nil '<'.toUInt8 (attributeToken name)
  unfold bareTagAt? bareTagStep
  dsimp only
  rw [List.cons_append, ← attributeToken, h.indexFrom?]
  generalize '<'.toUInt8 :: attributeToken name = token at htoken hne ⊢
  cases hi : Bytes.indexOf? token s.cursor.ahead with
  | none => exact ⟨rfl, h⟩
  | some i =>
    obtain ⟨tail, hhere, hoffset, hahead, hwhole, hpassed, hmoved⟩ :=
      exists_found h htoken hne (Bytes.indexOf?_eq_some_iff.1 hi).1
    rw [Option.map_some]
    dsimp only
    rw [← Cursor.text_advance s.cursor i, ← hoffset, hmoved,
      quotedEnd?_behind hhere hahead hwhole, hahead, List.drop_left]
    generalize s.cursor.advance i = here at hhere hahead
    cases hq : quotedLength? tail with
    | none => exact ⟨rfl, hpassed⟩
    | some n =>
      obtain ⟨value, after, rfl, rfl, hpos, hafter⟩ := whole_of_quotedLength? hwhole hq
      rw [← List.append_assoc] at hahead
      have hlen : token.length + value.length = (token ++ value).length := List.length_append.symm
      have hstop : here.offset + token.length + value.length - 1 + 1 =
          here.offset + (token ++ value).length := by omega
      rw [Option.map_some]
      dsimp only
      rw [hstop, tagEndFrom?_behind hahead hafter, Option.bind_eq_bind, Option.bind_some, hlen,
        ← List.append_assoc, List.drop_left]
      cases hm : tagEnd? after with
      | none => exact ⟨rfl, hpassed⟩
      | some m =>
        obtain ⟨ending, rest, rfl, rfl, hrest⟩ := whole_of_tagEnd? hafter hm
        rw [← List.append_assoc] at hahead
        have hdelete := hhere.delete hahead hrest
        have hcut := hhere.cut? hahead hrest rfl
        rw [List.length_append] at hdelete hcut
        rw [Option.map_some]
        dsimp only
        rw [Nat.add_assoc, hcut, Option.bind_eq_bind, Option.bind_some, s.removed_delete]
        exact ⟨rfl, hdelete⟩

end Sanitize

end DocxTemplate
