import DocxTemplate.Proofs.Xml.WellFormed
import DocxTemplate.Proofs.Xml.Written

/-! # Portions

    A text is read in portions: pieces of markup, and the character data between them. What
    character data a text holds is a matter of its portions alone, whichever elements are open.

    * `characterData`: the character data of a text, all of it in order.
    * `portions`: the portions that a text is read in.
    * `Portioned`: each portion has a property, and together they hold some character data.
      `portioned_of_characterData` takes a text apart this way.
    * `Portioned.characterData_eq`: there is no other character data to be read.
    * `Portioned.markup_inv`, `Portioned.split` and `Portioned.split_at_lt`: what stands at the
      start of a text, and at a place inside it.
    * `Portioned.head?_of_mark`: a text that begins with the mark before a text begins with its
      character.
-/

namespace DocxTemplate.Xml

open Event (Open ofMarkup byteOrderMark)

/-! ## Character data -/

/-- The characters of an event. -/
def Event.characters : Event → List Char
  | .text content => content.toList
  | .start _ _ | .close _ | .empty _ _ => []

/-- The characters of a piece of markup. -/
def Markup.characters : Markup → List Char
  | .cdata content => (Utf8.decodeLossy content).toList
  | .startTag _ | .emptyTag _ | .endTag _ | .other => []

/-- The character data of a text: that of all its text events, one behind the other. -/
def characterData (text : Bytes) : Except Error (List Char) :=
  (·.flatMap Event.characters) <$> events text

/-- Whatever elements are open, a piece of markup holds the same characters. -/
theorem Effect.characters_eq {opened others : Open} {m : Markup} {event? : Option Event}
    (h : Effect opened m event? others) :
    event?.toList.flatMap Event.characters = m.characters := by
  cases h with
  | start => rfl
  | empty => rfl
  | close => rfl
  | cdata => exact List.append_nil _
  | other => rfl

/-- The character data of a text are those of the events that are read through it. -/
theorem characterData_eq_ok_iff {text : Bytes} {chars : List Char} :
    characterData text = .ok chars ↔
      ∃ events last, readThrough [] (Event.skipMark text) = .ok (events, last) ∧
        events.flatMap Event.characters = chars := by
  unfold characterData events
  rw [readFrom_eq_readThrough]
  cases readThrough [] (Event.skipMark text) with
  | error fault => simp [Functor.map, Except.map]
  | ok r =>
    obtain ⟨events, last⟩ := r
    simp [Functor.map, Except.map]

/-- A well-formed text can be read. -/
theorem exists_characterData {text : Bytes} (h : check text = .ok ()) :
    ∃ chars, characterData text = .ok chars := by
  obtain ⟨events, hreads, -⟩ := check_eq_ok_iff.1 h
  obtain ⟨events', hthrough, -⟩ := hreads.readThrough_eq
  exact ⟨_, characterData_eq_ok_iff.2 ⟨events', [], hthrough, rfl⟩⟩

/-! ## Tags -/

namespace Markup

/-- Nothing stands at the start that makes a tag other markup. -/
def OpensAsTag (text : Bytes) : Prop :=
  ∀ b ∈ text.head?, b ∉ ['!'.toUInt8, '?'.toUInt8]

instance (text : Bytes) : Decidable (OpensAsTag text) :=
  inferInstanceAs (Decidable (∀ b ∈ text.head?, _))

theorem OpensAsTag.before_gt {body : Bytes} (h : OpensAsTag body) (rest : Bytes) :
    OpensAsTag (body ++ '>'.toUInt8 :: rest) := by
  intro b hb
  rw [List.head?_append, Option.mem_def, Option.or_eq_some_iff] at hb
  rcases hb with hb | ⟨-, hb⟩
  · exact h b hb
  · cases hb
    decide

/-- Such markup is read as a tag. -/
theorem read_eq_ok_iff_readTag {text : Bytes} {m : Markup} {n : Nat} (h : OpensAsTag text) :
    read text = .ok (m, n) ↔ readTag text = .ok (m, n) := by
  cases text with
  | nil => simp [read, readTag, tagEnd?]
  | cons b text =>
    have hb := h b rfl
    rw [List.mem_cons, List.mem_singleton, not_or] at hb
    rw [read, if_neg (by simpa using hb.1), if_neg (by simpa using hb.2)]
    cases readTag (b :: text) with
    | error fault => simp [Except.mapError]
    | ok r => simp [Except.mapError]

/-- A tag holds no characters. -/
theorem characters_of_readTag {text : Bytes} {m : Markup} {n : Nat}
    (h : readTag text = .ok (m, n)) : m.characters = [] := by
  obtain ⟨body, rest, -, -, -, rfl⟩ := readTag_eq_ok_iff.1 h
  rw [tagOf]
  split_ifs <;> rfl

/-- A tag by itself ends at the first `>` outside quotes. -/
theorem read_tag_iff {body : Bytes} (h : OpensAsTag (body ++ ['>'.toUInt8])) :
    (∃ m, read (body ++ ['>'.toUInt8]) = .ok (m, (body ++ ['>'.toUInt8]).length)) ↔
      tagEnd? none (body ++ ['>'.toUInt8]) = some body.length := by
  constructor
  · intro ⟨m, hread⟩
    obtain ⟨body', rest, -, hend, hlen, -⟩ :=
      readTag_eq_ok_iff.1 ((read_eq_ok_iff_readTag h).1 hread)
    rw [List.length_append, List.length_singleton] at hlen
    rw [hend, Nat.succ.inj hlen]
  · intro hend
    have hlen : (body ++ ['>'.toUInt8]).length = body.length + 1 := List.length_append
    have htag := readTag_eq_ok_iff.2 ⟨body, [], rfl, hend, hlen, rfl⟩
    exact ⟨_, (read_eq_ok_iff_readTag h).2 htag⟩

/-- What stands before the end of a tag is passed. -/
theorem tagEnd?_append_of_le {quote? : Option UInt8} {x y : Bytes} {i : Nat}
    (h : tagEnd? quote? (x ++ y) = some i) (hi : x.length ≤ i) (z : Bytes) :
    tagEnd? quote? (x ++ z) = (tagEnd? (quoteBehind quote? x) z).map (· + x.length) := by
  induction x generalizing quote? i with
  | nil => simp [quoteBehind]
  | cons b x ih =>
    rw [List.cons_append, tagEnd?_cons] at h ⊢
    rw [List.length_cons] at hi
    by_cases hb : quote? = none ∧ b = '>'.toUInt8
    · rw [if_pos hb, Option.some.injEq] at h
      omega
    · rw [if_neg hb] at h ⊢
      obtain ⟨j, hj, rfl⟩ := Option.map_eq_some_iff.1 h
      rw [ih hj (by omega), Option.map_map]
      congr 1

/-- From a tag a span outside quotes may be deleted, if it holds no `>`. -/
theorem read_delete {x y z : Bytes} {m : Markup} (hne : x ≠ []) (hopens : OpensAsTag x)
    (hx : quoteBehind none x = none) (hy : '>'.toUInt8 ∉ y) (hquote : quoteBehind none y = none)
    (h : read (x ++ (y ++ z) ++ ['>'.toUInt8]) =
      .ok (m, (x ++ (y ++ z) ++ ['>'.toUInt8]).length)) :
    ∃ m', read (x ++ z ++ ['>'.toUInt8]) = .ok (m', (x ++ z ++ ['>'.toUInt8]).length) ∧
      m'.characters = m.characters := by
  have hopens' : ∀ w, OpensAsTag (x ++ w ++ ['>'.toUInt8]) := by
    intro w b hb
    rw [List.append_assoc, List.head?_append_of_ne_nil _ hne] at hb
    exact hopens b hb
  have hend := (read_tag_iff (hopens' _)).1 ⟨m, h⟩
  -- The end is found behind `x` and `y`, as if the tag began there.
  rw [List.append_assoc] at hend
  have hpassed := tagEnd?_append_of_le hend (by rw [List.length_append]; omega)
  have hrest : tagEnd? none (z ++ ['>'.toUInt8]) = some z.length := by
    rw [hpassed, hx, List.append_assoc, tagEnd?_append_of_not_mem hy, hquote, Option.map_map,
      Option.map_eq_some_iff] at hend
    obtain ⟨i, hi, hlen⟩ := hend
    simp only [Function.comp_apply, List.length_append] at hlen
    rw [hi, Option.some.injEq]
    omega
  have hend' : tagEnd? none (x ++ z ++ ['>'.toUInt8]) = some (x ++ z).length := by
    rw [List.append_assoc, hpassed, hx, hrest, Option.map_some, List.length_append, Nat.add_comm]
  obtain ⟨m', hread⟩ := (read_tag_iff (hopens' z)).2 hend'
  refine ⟨m', hread, ?_⟩
  rw [characters_of_readTag ((read_eq_ok_iff_readTag (hopens' z)).1 hread),
    characters_of_readTag ((read_eq_ok_iff_readTag (hopens' _)).1 h)]

/-- What stands in a tag that holds no further `>` and in which all quotes are closed. -/
structure IsTagBody (body : Bytes) : Prop where
  opens : OpensAsTag body
  unclosed : '>'.toUInt8 ∉ body
  unquoted : quoteBehind none body = none

theorem isTagBody_iff {body : Bytes} : IsTagBody body ↔
    OpensAsTag body ∧ '>'.toUInt8 ∉ body ∧ quoteBehind none body = none := by
  constructor
  · intro h
    exact ⟨h.opens, h.unclosed, h.unquoted⟩
  · intro ⟨hopens, hunclosed, hunquoted⟩
    exact ⟨hopens, hunclosed, hunquoted⟩

instance (body : Bytes) : Decidable (IsTagBody body) := decidable_of_iff _ isTagBody_iff.symm

/-- It is read up to the `>` behind it. -/
theorem IsTagBody.read {body : Bytes} (h : IsTagBody body) (rest : Bytes) :
    ∃ m, Markup.read (body ++ '>'.toUInt8 :: rest) = .ok (m, body.length + 1) ∧
      m.characters = [] := by
  have hend : tagEnd? none (body ++ '>'.toUInt8 :: rest) = some body.length := by
    rw [tagEnd?_append_of_not_mem h.unclosed, h.unquoted, tagEnd?_cons, if_pos ⟨rfl, rfl⟩,
      Option.map_some, Nat.zero_add]
  have hopens := h.opens.before_gt rest
  have htag := readTag_eq_ok_iff.2 ⟨body, rest, rfl, hend, rfl, rfl⟩
  exact ⟨_, (read_eq_ok_iff_readTag hopens).2 htag, characters_of_readTag htag⟩

end Markup

/-! ## Portions -/

/-- The portions that a text is read in: each piece of markup with its `<`, and the character
    data up to the next `<`. Markup that cannot be read runs to the end of the text. -/
def portions : Bytes → List Bytes
  | [] => []
  | b :: rest =>
    if b == '<'.toUInt8 then
      match Markup.read rest with
      | .ok (_, n) => (b :: rest.take n) :: portions (rest.drop n)
      | .error _ => [b :: rest]
    else
      let more := rest.takeWhile (· != '<'.toUInt8)
      (b :: more) :: portions (rest.drop more.length)
termination_by source => source.length
decreasing_by all_goals (simp only [List.length_cons, List.length_drop]; omega)

theorem portions_markup {rest : Bytes} {m : Markup} {n : Nat}
    (taken : Markup.read rest = .ok (m, n)) :
    portions ('<'.toUInt8 :: rest) = ('<'.toUInt8 :: rest.take n) :: portions (rest.drop n) := by
  rw [portions, if_pos (by rfl), taken]

theorem portions_data {data tail : Bytes} (hne : data ≠ []) (plain : '<'.toUInt8 ∉ data)
    (ends : EndsData tail) : portions (data ++ tail) = data :: portions tail := by
  cases data with
  | nil => exact absurd rfl hne
  | cons b data =>
    rw [List.mem_cons, not_or] at plain
    have hmore : (data ++ tail).takeWhile (· != '<'.toUInt8) = data := by
      apply takeWhile_append_stop
      · intro c hc
        rw [bne_iff_ne]
        intro hlt
        exact plain.2 (hlt ▸ hc)
      · intro c hc
        rw [ends c hc]
        rfl
    rw [List.cons_append, portions, if_neg (by simpa using Ne.symm plain.1), hmore]
    dsimp only
    rw [List.drop_left]

/-- A place in a text of two parts lies behind the first part or before its end. -/
theorem place_in_append {before tail x rest : Bytes} (h : before ++ tail = x ++ rest) :
    (∃ more, before = x ++ more ∧ rest = more ++ tail) ∨
      ∃ more, more ≠ [] ∧ x = before ++ more ∧ tail = more ++ rest := by
  rcases List.append_eq_append_iff.1 h with ⟨more, rfl, htail⟩ | ⟨more, rfl, hrest⟩
  · by_cases hmore : more = []
    · subst hmore
      exact Or.inl ⟨[], by rw [List.append_nil, List.append_nil], htail.symm⟩
    · exact Or.inr ⟨more, hmore, rfl, htail⟩
  · exact Or.inl ⟨more, rfl, hrest⟩

namespace EndsData

variable {x y : Bytes}

theorem of_append (h : EndsData (x ++ y)) : EndsData x := by
  intro b hb
  exact h b (by rw [List.head?_append, hb]; rfl)

theorem append (hx : EndsData x) (hy : EndsData y) : EndsData (x ++ y) := by
  cases x with
  | nil => exact hy
  | cons b x => exact hx

/-- A stretch without a `<` at the start of some character data lies in them. -/
theorem exists_of_append {tail content rest : Bytes} (ends : EndsData rest)
    (hx : '<'.toUInt8 ∉ x) (h : x ++ tail = content ++ rest) :
    ∃ more, content = x ++ more ∧ tail = more ++ rest := by
  rcases List.append_eq_append_iff.1 h with ⟨more, rfl, htail⟩ | ⟨more, rfl, hrest⟩
  · exact ⟨more, rfl, htail⟩
  · cases more with
    | nil => exact ⟨[], by simp, hrest.symm⟩
    | cons b more =>
      have hb := ends b (by rw [hrest]; rfl)
      exact absurd (hb ▸ List.mem_append_right _ List.mem_cons_self) hx

end EndsData

/-- Each portion of a text has a property, and the portions hold these characters. -/
inductive Portioned (P : Bytes → Prop) : Bytes → List Char → Prop where
  | nil : Portioned P [] []
  | markup {written rest m chars} (taken : Markup.read written = .ok (m, written.length))
      (fits : P ('<'.toUInt8 :: written)) (next : Portioned P rest chars) :
      Portioned P ('<'.toUInt8 :: (written ++ rest)) (m.characters ++ chars)
  | data {content rest s chars} (hne : content ≠ []) (plain : '<'.toUInt8 ∉ content)
      (ends : EndsData rest) (read : readText content = .ok s) (fits : P content)
      (next : Portioned P rest chars) : Portioned P (content ++ rest) (s.toList ++ chars)

/-- A text of a front part and a tail begins with a portion that reaches across the place between
    the two. -/
inductive Reaches (P : Bytes → Prop) (part tail : Bytes) : List Char → Prop where
  | markup {written more rest m chars} (whole : part ++ more = '<'.toUInt8 :: written)
      (parts : tail = more ++ rest) (reaches : more ≠ [])
      (taken : Markup.read written = .ok (m, written.length)) (fits : P ('<'.toUInt8 :: written))
      (next : Portioned P rest chars) : Reaches P part tail (m.characters ++ chars)
  | data {more rest s chars} (parts : tail = more ++ rest) (reaches : more ≠ [])
      (plain : '<'.toUInt8 ∉ part ++ more) (ends : EndsData rest)
      (read : readText (part ++ more) = .ok s) (fits : P (part ++ more))
      (next : Portioned P rest chars) : Reaches P part tail (s.toList ++ chars)

section

variable {P Q : Bytes → Prop} {opened last : Open} {text : Bytes} {events : List Event}
  {chars : List Char}

/-- A text that can be read is made of portions. -/
theorem portioned_of_readThrough (h : readThrough opened text = .ok (events, last))
    (fits : ∀ portion ∈ portions text, P portion) :
    Portioned P text (events.flatMap Event.characters) := by
  have hpieces := ReadThrough.of_readThrough h
  clear h
  induction hpieces with
  | nil => exact .nil
  | @markup opened others last written rest m event? events taken read next ih =>
    rw [portions_markup (Markup.read_append taken rest), List.take_left, List.drop_left,
      List.forall_mem_cons] at fits
    rw [List.flatMap_append, (effect_of_ofMarkup read).characters_eq]
    exact .markup taken fits.1 (ih fits.2)
  | text hne plain ends read next ih =>
    rw [portions_data hne plain ends, List.forall_mem_cons] at fits
    exact .data hne plain ends read fits.1 (ih fits.2)

namespace Portioned

theorem mono (h : Portioned P text chars) (hPQ : ∀ portion, P portion → Q portion) :
    Portioned Q text chars := by
  induction h with
  | nil => exact .nil
  | markup taken fits next ih => exact .markup taken (hPQ _ fits) ih
  | data hne plain ends read fits next ih => exact .data hne plain ends read (hPQ _ fits) ih

/-- A reader reads the characters of the portions. -/
theorem characters_eq (h : Portioned P text chars)
    (hread : readThrough opened text = .ok (events, last)) :
    events.flatMap Event.characters = chars := by
  induction h generalizing opened events with
  | nil =>
    simp only [readThrough, Except.ok.injEq, Prod.mk.injEq] at hread
    rw [← hread.1]
    rfl
  | @markup written rest m chars taken fits next ih =>
    obtain ⟨m', n, event?, others, events', hm, ho, hr, rfl⟩ := readThrough_markup_iff.1 hread
    -- The markup is told by its own bytes.
    have htaken := Markup.read_append taken rest
    rw [hm, Except.ok.injEq, Prod.mk.injEq] at htaken
    obtain ⟨rfl, rfl⟩ := htaken
    rw [List.drop_left] at hr
    rw [List.flatMap_append, (effect_of_ofMarkup ho).characters_eq, ih hr]
  | @data content rest s chars hne plain ends read fits next ih =>
    obtain ⟨s', events', hs, hr, rfl⟩ := (readThrough_text_iff hne plain ends).1 hread
    rw [read, Except.ok.injEq] at hs
    rw [List.flatMap_cons, ih hr, Event.characters, hs]

/-- Two texts may be put together where the second one starts with markup. -/
theorem append {rest : Bytes} {chars' : List Char} (h : Portioned P text chars)
    (h' : Portioned P rest chars') (ends : EndsData rest) :
    Portioned P (text ++ rest) (chars ++ chars') := by
  induction h with
  | nil => exact h'
  | markup taken fits next ih =>
    rw [List.cons_append, List.append_assoc, List.append_assoc]
    exact .markup taken fits ih
  | data hne plain ends' read fits next ih =>
    rw [List.append_assoc, List.append_assoc]
    exact .data hne plain (ends'.append ends) read fits ih

/-- Character data before a text is read by itself, also where the text begins with some. -/
theorem append_data {content : Bytes} {s : String} (h : Portioned P text chars)
    (hP : ∀ data, '<'.toUInt8 ∉ data → P data) (hne : content ≠ []) (plain : '<'.toUInt8 ∉ content)
    (read : readText content = .ok s) : Portioned P (content ++ text) (s.toList ++ chars) := by
  cases h with
  | nil => exact .data hne plain (fun _ hb => by cases hb) read (hP _ plain) .nil
  | @markup written rest m chars taken fits next =>
    have ends : EndsData ('<'.toUInt8 :: (written ++ rest)) := by
      intro b hb
      exact (Option.some.inj hb).symm
    exact .data hne plain ends read (hP _ plain) (.markup taken fits next)
  | @data content' rest s' chars hne' plain' ends' read' fits next =>
    -- The two are one portion.
    have hboth : '<'.toUInt8 ∉ content ++ content' := by
      rw [List.mem_append, not_or]
      exact ⟨plain, plain'⟩
    rw [← List.append_assoc, ← List.append_assoc, ← String.toList_append]
    exact .data (List.append_ne_nil_of_left_ne_nil hne _) hboth ends' (readText_append read read')
      (hP _ hboth) next

/-- Where nothing is asked of character data, any two texts may be put together. -/
theorem append_of_data {rest : Bytes} {chars' : List Char} (h : Portioned P text chars)
    (hP : ∀ data, '<'.toUInt8 ∉ data → P data) (h' : Portioned P rest chars') :
    Portioned P (text ++ rest) (chars ++ chars') := by
  induction h with
  | nil => exact h'
  | markup taken fits next ih =>
    rw [List.cons_append, List.append_assoc, List.append_assoc]
    exact .markup taken fits ih
  | data hne plain ends read fits next ih =>
    rw [List.append_assoc, List.append_assoc]
    exact ih.append_data hP hne plain read

/-- A text splits at every place before its end: behind some whole portions stands one that
    reaches across the place. -/
theorem split {before tail : Bytes} (h : Portioned P (before ++ tail) chars) (hne : tail ≠ []) :
    ∃ front part chars₁ chars₂, before = front ++ part ∧ chars = chars₁ ++ chars₂ ∧
      Portioned P front chars₁ ∧ Reaches P part tail chars₂ := by
  generalize htext : before ++ tail = text at h
  induction h generalizing before with
  | nil => exact absurd (List.append_eq_nil_iff.1 htext).2 hne
  | @markup written rest m chars taken fits next ih =>
    have hplace : before ++ tail = ('<'.toUInt8 :: written) ++ rest := htext
    rcases place_in_append hplace with ⟨more, rfl, hrest⟩ | ⟨more, hmore, hwhole, rfl⟩
    · obtain ⟨front, part, chars₁, chars₂, rfl, rfl, hfront, hreaches⟩ := ih hrest.symm
      refine ⟨'<'.toUInt8 :: (written ++ front), part, m.characters ++ chars₁, chars₂, ?_,
        (List.append_assoc ..).symm, .markup taken fits hfront, hreaches⟩
      rw [List.cons_append, List.cons_append, List.append_assoc]
    · exact ⟨[], before, [], m.characters ++ chars, rfl, rfl, .nil,
        .markup hwhole.symm rfl hmore taken fits next⟩
  | @data content rest s chars hcontent plain ends read fits next ih =>
    rcases place_in_append htext with ⟨more, rfl, hrest⟩ | ⟨more, hmore, rfl, rfl⟩
    · obtain ⟨front, part, chars₁, chars₂, rfl, rfl, hfront, hreaches⟩ := ih hrest.symm
      rw [hrest, List.append_assoc] at ends
      exact ⟨content ++ front, part, s.toList ++ chars₁, chars₂, (List.append_assoc ..).symm,
        (List.append_assoc ..).symm, .data hcontent plain ends.of_append read fits hfront, hreaches⟩
    · exact ⟨[], before, [], s.toList ++ chars, rfl, rfl, .nil,
        .data rfl hmore plain ends read fits next⟩

/-- Markup that reaches across a place ends with its `>` behind the place. -/
theorem exists_of_reaches {part more written : Bytes} {m : Markup}
    (whole : part ++ more = '<'.toUInt8 :: written) (hne : more ≠ [])
    (taken : Markup.read written = .ok (m, written.length)) :
    ∃ body, more = body ++ ['>'.toUInt8] := by
  obtain ⟨body, rfl⟩ := Markup.exists_of_read taken
  have hlast := congrArg List.getLast? whole
  rw [← List.cons_append, List.getLast?_append_of_ne_nil _ hne, List.getLast?_concat] at hlast
  obtain ⟨front, hfront⟩ := List.getLast?_eq_some_iff.1 hlast
  exact ⟨front, hfront⟩

theorem of_reaches {part tail : Bytes} (h : Reaches P part tail chars) :
    Portioned P (part ++ tail) chars := by
  cases h with
  | @markup written more rest m chars whole parts reaches taken fits next =>
    rw [parts, ← List.append_assoc, whole, List.cons_append]
    exact .markup taken fits next
  | @data more rest s chars parts reaches plain ends read fits next =>
    rw [parts, ← List.append_assoc]
    exact .data (List.append_ne_nil_of_right_ne_nil _ reaches) plain ends read fits next

/-- A text that begins with the mark before a text begins with the character of the mark. -/
theorem head?_of_mark (h : Portioned P text chars) (hmark : byteOrderMark <+: text) :
    chars.head? = some '\uFEFF' := by
  obtain ⟨tail, htail⟩ := hmark
  cases h with
  | nil => simp [byteOrderMark] at htail
  | markup taken fits next =>
    rw [byteOrderMark, List.cons_append, List.cons.injEq] at htail
    exact absurd htail.1 (by decide)
  | @data content rest s chars hne plain ends read fits next =>
    obtain ⟨more, rfl, -⟩ := ends.exists_of_append (by decide) htail
    have hread : readText byteOrderMark = .ok "\uFEFF" := by decide +kernel
    obtain ⟨s', -, rfl⟩ := readText_of_append hread read
    rw [String.toList_append]
    rfl

/-- So a text with other character data has no such mark to be skipped. -/
theorem skipMark_eq (h : Portioned P text chars) (hmark : chars.head? ≠ some '\uFEFF') :
    Event.skipMark text = text := by
  unfold Event.skipMark
  rw [if_neg]
  rw [List.isPrefixOf_iff_prefix]
  intro hpre
  exact hmark (h.head?_of_mark hpre)

/-- A text that starts with a `<` starts with a piece of markup. -/
theorem markup_inv {tail : Bytes} (h : Portioned P ('<'.toUInt8 :: tail) chars) :
    ∃ written rest m chars', tail = written ++ rest ∧ chars = m.characters ++ chars' ∧
      Markup.read written = .ok (m, written.length) ∧ P ('<'.toUInt8 :: written) ∧
      Portioned P rest chars' := by
  generalize htext : '<'.toUInt8 :: tail = text at h
  cases h with
  | nil => cases htext
  | markup taken fits next =>
    exact ⟨_, _, _, _, (List.cons.inj htext).2, rfl, taken, fits, next⟩
  | @data content rest s chars hne plain ends read fits next =>
    obtain ⟨b, content, rfl⟩ := List.exists_cons_of_ne_nil hne
    rw [List.cons_append, List.cons.injEq] at htext
    exact absurd (htext.1 ▸ List.mem_cons_self) plain

/-- A `<` stands at the start of a piece of markup or inside one. -/
theorem split_at_lt {before tail : Bytes} (h : Portioned P (before ++ '<'.toUInt8 :: tail) chars) :
    ∃ front part body rest chars₁ chars₂, before = front ++ part ∧ chars = chars₁ ++ chars₂ ∧
      Portioned P front chars₁ ∧ Portioned P (part ++ '<'.toUInt8 :: tail) chars₂ ∧
      '<'.toUInt8 :: tail = body ++ '>'.toUInt8 :: rest ∧ P (part ++ (body ++ ['>'.toUInt8])) := by
  obtain ⟨front, part, chars₁, chars₂, hbefore, hchars, hfront, hreaches⟩ :=
    h.split (List.cons_ne_nil _ _)
  have hportion := of_reaches hreaches
  cases hreaches with
  | @data more rest s chars parts reaches plain ends read fits next =>
    obtain ⟨b, more, rfl⟩ := List.exists_cons_of_ne_nil reaches
    rw [List.cons_append, List.cons.injEq] at parts
    exact absurd (by simp [parts.1]) plain
  | @markup written more rest m chars whole parts reaches taken fits next =>
    obtain ⟨body, rfl⟩ := exists_of_reaches whole reaches taken
    refine ⟨front, part, body, rest, chars₁, _, hbefore, hchars, hfront, hportion, ?_, ?_⟩
    · rw [parts, List.append_assoc]
      rfl
    · rw [whole]
      exact fits

/-- Behind a tag that holds no further `>` the next portion begins. -/
theorem behind_tag {body after : Bytes}
    (h : Portioned P ('<'.toUInt8 :: (body ++ '>'.toUInt8 :: after)) chars)
    (hbody : Markup.IsTagBody body) : Portioned P after chars := by
  obtain ⟨m, hread, hchars⟩ := hbody.read after
  obtain ⟨written, rest, m', chars', heq, rfl, taken, -, next⟩ := h.markup_inv
  -- The portion is the tag.
  have htaken := Markup.read_append taken rest
  rw [← heq, hread, Except.ok.injEq, Prod.mk.injEq] at htaken
  obtain ⟨rfl, hlen⟩ := htaken
  have hsplit : (body ++ ['>'.toUInt8]) ++ after = written ++ rest := by
    rw [← heq, List.append_assoc]
    rfl
  obtain ⟨-, rfl⟩ := List.append_inj hsplit (by simpa using hlen)
  rw [hchars]
  exact next

end Portioned

/-- What can be read of a text are the characters of its portions. -/
theorem portioned_of_characterData (h : characterData text = .ok chars)
    (fits : ∀ portion ∈ portions (Event.skipMark text), P portion) :
    Portioned P (Event.skipMark text) chars := by
  obtain ⟨events, last, hread, rfl⟩ := characterData_eq_ok_iff.1 h
  exact portioned_of_readThrough hread fits

theorem Portioned.characterData_eq {chars' : List Char} (h : Portioned P (Event.skipMark text) chars)
    (hread : characterData text = .ok chars') : chars' = chars := by
  obtain ⟨events, last, hthrough, rfl⟩ := characterData_eq_ok_iff.1 hread
  exact h.characters_eq hthrough

end

end DocxTemplate.Xml
