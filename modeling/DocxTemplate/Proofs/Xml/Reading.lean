import Mathlib.Data.List.Basic
import DocxTemplate.Proofs.Xml.Markup
import DocxTemplate.Proofs.Xml.Reference
import DocxTemplate.Xml.Event

/-! # Reading in parts

    A text may be cut between two pieces of markup, or inside character data, and read part
    by part. The only thing one part hands to the next are the open elements.

    * `readThrough`: the events of a text and the elements open behind it. Its events are
      those of `readFrom` (`readFrom_eq_readThrough`), and `ReadThrough` is the way it goes
      piece by piece.
    * `Reads`: the same as a relation, in which character data may come in several pieces.
      `reads_of_readThrough` and `Reads.readThrough_eq` show that the two agree up to these pieces.
    * `Reads.append` and `Reads.split`: two parts are read one after the other.
    * `Reads.left_unique`: what is read and what is open behind it determine what was open
      before it.
-/

namespace DocxTemplate.Xml

open Event (Open ofMarkup closeElement)

/-! ## Items -/

/-- Events with their character data taken apart, so that it does not matter in how many
    pieces it was read. -/
inductive Item where
  | tag (event : Event)
  | char (c : Char)
  deriving DecidableEq, Repr

/-- The items of an event. -/
def Event.items : Event → List Item
  | .text content => content.toList.map .char
  | event => [.tag event]

/-- The items of a list of events. -/
def items (events : List Event) : List Item := events.flatMap Event.items

@[simp] theorem items_nil : items [] = [] := rfl

@[simp] theorem items_cons (event : Event) (events : List Event) :
    items (event :: events) = event.items ++ items events := rfl

@[simp] theorem items_append (events events' : List Event) :
    items (events ++ events') = items events ++ items events' := by
  simp [items]

@[simp] theorem Event.items_text_empty : (Event.text "").items = [] := rfl

theorem Event.items_text_append (s s' : String) :
    (Event.text (s ++ s')).items = (Event.text s).items ++ (Event.text s').items := by
  simp [Event.items]

/-! ## Open elements -/

/-- The events of a text inside the given open elements, and the elements open behind it. -/
def readThrough (opened : Open) : Bytes → Except Error (List Event × Open)
  | [] => .ok ([], opened)
  | b :: rest =>
    if b == '<'.toUInt8 then do
      let (markup, n) ← Markup.read rest
      let (event?, opened) ← ofMarkup opened markup
      let (events, last) ← readThrough opened (rest.drop n)
      return (event?.toList ++ events, last)
    else do
      let more := rest.takeWhile (· != '<'.toUInt8)
      let content ← readText (b :: more)
      let (events, last) ← readThrough opened (rest.drop more.length)
      return (.text content :: events, last)
termination_by source => source.length
decreasing_by all_goals (simp only [List.length_cons, List.length_drop]; omega)

/-- The events of a text are those that are read through it. -/
theorem readFrom_eq_readThrough (opened : Open) (text : Bytes) :
    Event.readFrom opened text = (·.1) <$> readThrough opened text := by
  induction hn : text.length using Nat.strongRecOn generalizing opened text with
  | ind n ih =>
    cases text with
    | nil => rw [Event.readFrom, readThrough]; rfl
    | cons b rest =>
      have hlen : ∀ k, (rest.drop k).length < n := by
        intro k
        rw [← hn, List.length_drop, List.length_cons]
        omega
      rw [Event.readFrom, readThrough]
      by_cases hb : (b == '<'.toUInt8) = true
      · rw [if_pos hb, if_pos hb]
        cases Markup.read rest with
        | error fault => rfl
        | ok r =>
          obtain ⟨m, k⟩ := r
          cases ho : ofMarkup opened m with
          | error fault => simp [bind, Except.bind, ho]
          | ok r =>
            obtain ⟨event?, others⟩ := r
            simp only [bind, Except.bind, ho, ih _ (hlen k) others _ rfl]
            cases readThrough others (rest.drop k) <;> rfl
      · rw [if_neg hb, if_neg hb]
        dsimp only
        cases readText (b :: rest.takeWhile (· != '<'.toUInt8)) with
        | error fault => rfl
        | ok content =>
          simp only [bind, Except.bind, ih _ (hlen _) opened _ rfl]
          cases readThrough opened (rest.drop (rest.takeWhile (· != '<'.toUInt8)).length) <;> rfl

/-! ## The effect of markup -/

/-- What a piece of markup does to the open elements, and the event it leaves. -/
inductive Effect : Open → Markup → Option Event → Open → Prop where
  | start {opened content attributes} :
      Effect opened (.startTag content)
        (some (.start (Utf8.decodeLossy (tagName content)) attributes)) (tagName content :: opened)
  | empty {opened content attributes} :
      Effect opened (.emptyTag content)
        (some (.empty (Utf8.decodeLossy (tagName content)) attributes)) opened
  | close {opened name} :
      Effect (name :: opened) (.endTag name) (some (.close (Utf8.decodeLossy name))) opened
  | cdata {opened content} :
      Effect opened (.cdata content) (some (.text (Utf8.decodeLossy content))) opened
  | other {opened} : Effect opened .other none opened

theorem eq_cons_of_closeElement {opened others : Open} {name : Bytes}
    (h : closeElement name opened = .ok others) : opened = name :: others := by
  cases opened with
  | nil => simp [closeElement] at h
  | cons last opened =>
    rw [closeElement] at h
    by_cases hlast : (name == last) = true
    · rw [if_pos hlast, Except.ok.injEq] at h
      rw [h, eq_of_beq hlast]
    · simp [hlast] at h

section

variable {opened others : Open} {content : Bytes} {event? : Option Event}

theorem ofMarkup_startTag_iff : ofMarkup opened (.startTag content) = .ok (event?, others) ↔
    ∃ attributes, tagAttributes content = .ok attributes ∧
      event? = some (.start (Utf8.decodeLossy (tagName content)) attributes) ∧
        others = tagName content :: opened := by
  rw [ofMarkup]
  cases tagAttributes content with
  | error fault => simp [bind, Except.bind]
  | ok attributes => simp [bind, Except.bind, pure, Except.pure, eq_comm]

theorem ofMarkup_emptyTag_iff : ofMarkup opened (.emptyTag content) = .ok (event?, others) ↔
    ∃ attributes, tagAttributes content = .ok attributes ∧
      event? = some (.empty (Utf8.decodeLossy (tagName content)) attributes) ∧ others = opened := by
  rw [ofMarkup]
  cases tagAttributes content with
  | error fault => simp [bind, Except.bind]
  | ok attributes => simp [bind, Except.bind, pure, Except.pure, eq_comm]

end

theorem effect_of_ofMarkup {opened others : Open} {m : Markup} {event? : Option Event}
    (h : ofMarkup opened m = .ok (event?, others)) : Effect opened m event? others := by
  cases m with
  | startTag content =>
    obtain ⟨attributes, -, rfl, rfl⟩ := ofMarkup_startTag_iff.1 h
    exact .start
  | emptyTag content =>
    obtain ⟨attributes, -, rfl, rfl⟩ := ofMarkup_emptyTag_iff.1 h
    exact .empty
  | endTag name =>
    unfold ofMarkup at h
    cases hc : closeElement name opened with
    | error fault => simp [hc, bind, Except.bind, Except.mapError] at h
    | ok others' =>
      simp only [hc, bind, Except.bind, Except.mapError, pure, Except.pure, Except.ok.injEq,
        Prod.mk.injEq] at h
      obtain ⟨rfl, rfl⟩ := h
      rw [eq_cons_of_closeElement hc]
      exact .close
  | cdata content =>
    simp only [ofMarkup, pure, Except.pure, Except.ok.injEq, Prod.mk.injEq] at h
    obtain ⟨rfl, rfl⟩ := h
    exact .cdata
  | other =>
    simp only [ofMarkup, pure, Except.pure, Except.ok.injEq, Prod.mk.injEq] at h
    obtain ⟨rfl, rfl⟩ := h
    exact .other

/-- Markup with the same elements open behind it had the same elements open before it. -/
theorem Effect.left_unique {opened opened' others : Open} {m : Markup}
    {event? event?' : Option Event} (h : Effect opened m event? others)
    (h' : Effect opened' m event?' others) : opened = opened' := by
  generalize hothers : others = others' at h'
  cases h with
  | start =>
    cases h' with
    | start => exact (List.cons.inj hothers).2
  | close =>
    cases h' with
    | close => rw [hothers]
  | empty =>
    cases h' with
    | empty => exact hothers
  | cdata =>
    cases h' with
    | cdata => exact hothers
  | other =>
    cases h' with
    | other => exact hothers

/-! ## The reading relation -/

/-- `Reads opened text events last`: inside the elements `opened` a text is read as `events`,
    with `last` open behind it. -/
inductive Reads : Open → Bytes → List Event → Open → Prop where
  | nil {opened} : Reads opened [] [] opened
  /-- Markup may open or close an element. -/
  | markup {opened others last written rest m event? events}
      (taken : Markup.read written = .ok (m, written.length))
      (read : ofMarkup opened m = .ok (event?, others)) (next : Reads others rest events last) :
      Reads opened ('<'.toUInt8 :: (written ++ rest)) (event?.toList ++ events) last
  /-- A piece of character data; the next piece may be character data again. -/
  | text {opened last written rest content events} (plain : '<'.toUInt8 ∉ written)
      (read : readText written = .ok content) (next : Reads opened rest events last) :
      Reads opened (written ++ rest) (.text content :: events) last

namespace Reads

variable {opened others last last' : Open} {front rest written : Bytes}
  {events events' : List Event}

/-- Two parts are read one after the other. -/
theorem append (h : Reads opened front events others) (h' : Reads others rest events' last) :
    Reads opened (front ++ rest) (events ++ events') last := by
  induction h with
  | nil => exact h'
  | markup taken read next ih =>
    rw [List.cons_append, List.append_assoc, List.append_assoc]
    exact .markup taken read (ih h')
  | text plain read next ih =>
    rw [List.append_assoc, List.cons_append]
    exact .text plain read (ih h')

/-- Nothing is read of an empty text. -/
theorem nil_inv (h : Reads opened [] events last) : items events = [] ∧ last = opened := by
  generalize htext : ([] : Bytes) = text at h
  induction h with
  | nil => exact ⟨rfl, rfl⟩
  | markup => simp at htext
  | text plain read next ih =>
    obtain ⟨rfl, rfl⟩ := List.append_eq_nil_iff.1 htext.symm
    rw [readText_nil, Except.ok.injEq] at read
    obtain ⟨hitems, hlast⟩ := ih rfl
    exact ⟨by rw [items_cons, ← read, hitems]; rfl, hlast⟩

/-- Character data at the start is read whole, and what follows is read by itself. -/
theorem split_text {content : String} (h : Reads opened (written ++ rest) events last)
    (plain : '<'.toUInt8 ∉ written) (read : readText written = .ok content) :
    ∃ events', Reads opened rest events' last ∧
      items events = (Event.text content).items ++ items events' := by
  generalize htext : written ++ rest = text at h
  induction h generalizing written content with
  | nil =>
    obtain ⟨rfl, rfl⟩ := List.append_eq_nil_iff.1 htext
    rw [readText_nil, Except.ok.injEq] at read
    exact ⟨[], .nil, by rw [← read]; rfl⟩
  | @markup opened others last written' rest' m event? events taken read' next ih =>
    -- The text starts with a `<`, so there is no character data.
    cases written with
    | nil =>
      rw [readText_nil, Except.ok.injEq] at read
      rw [List.nil_append] at htext
      refine ⟨event?.toList ++ events, ?_, by rw [← read]; rfl⟩
      rw [htext]
      exact .markup taken read' next
    | cons b written =>
      rw [List.cons_append, List.cons.injEq] at htext
      rw [htext.1] at plain
      exact absurd List.mem_cons_self plain
  | @text opened last written' rest' content' events plain' read' next ih =>
    rcases List.append_eq_append_iff.1 htext with ⟨more, rfl, rfl⟩ | ⟨more, rfl, rfl⟩
    · -- The first piece reaches beyond the data.
      obtain ⟨content'', read'', rfl⟩ := readText_of_append read read'
      rw [List.mem_append, not_or] at plain'
      refine ⟨_, .text plain'.2 read'' next, ?_⟩
      rw [items_cons, items_cons, Event.items_text_append, List.append_assoc]
    · obtain ⟨content'', read'', rfl⟩ := readText_of_append read' read
      rw [List.mem_append, not_or] at plain
      obtain ⟨events', hreads, hitems⟩ := ih plain.2 read'' rfl
      refine ⟨events', hreads, ?_⟩
      rw [items_cons, hitems, Event.items_text_append, List.append_assoc]

/-- Markup at the start is read whole, and what follows is read by itself. -/
theorem split_markup {m : Markup}
    (h : Reads opened ('<'.toUInt8 :: (written ++ rest)) events last)
    (taken : Markup.read written = .ok (m, written.length)) :
    ∃ event? others events', ofMarkup opened m = .ok (event?, others) ∧
      Reads others rest events' last ∧ items events = items (event?.toList ++ events') := by
  generalize htext : '<'.toUInt8 :: (written ++ rest) = text at h
  induction h with
  | nil => simp at htext
  | @markup opened others last written' rest' m' event? events taken' read next ih =>
    rw [List.cons.injEq] at htext
    -- Both pieces are the markup that the whole text starts with.
    have hread := Markup.read_append taken rest
    rw [htext.2, Markup.read_append taken', Except.ok.injEq, Prod.mk.injEq] at hread
    obtain ⟨rfl, hlen⟩ := hread
    obtain ⟨-, rfl⟩ := List.append_inj htext.2 hlen.symm
    exact ⟨event?, others, events, read, next, rfl⟩
  | @text opened last written' rest' content events plain read next ih =>
    cases written' with
    | nil =>
      rw [readText_nil, Except.ok.injEq] at read
      obtain ⟨event?, others, events', hread, hreads, hitems⟩ := ih htext
      refine ⟨event?, others, events', hread, hreads, ?_⟩
      rw [items_cons, ← read, Event.items_text_empty, List.nil_append, hitems]
    | cons b written' =>
      rw [List.cons_append, List.cons.injEq] at htext
      rw [← htext.1] at plain
      exact absurd List.mem_cons_self plain

/-- What follows a part that can be read is read by itself. -/
theorem split (h : Reads opened front events others)
    (h' : Reads opened (front ++ rest) events' last) :
    ∃ events'', Reads others rest events'' last ∧
      items events' = items events ++ items events'' := by
  induction h generalizing events' with
  | nil => exact ⟨events', h', rfl⟩
  | markup taken read next ih =>
    rw [List.cons_append, List.append_assoc] at h'
    obtain ⟨event?, others', events₁, hread, hreads, hitems⟩ := h'.split_markup taken
    rw [read, Except.ok.injEq, Prod.mk.injEq] at hread
    obtain ⟨rfl, rfl⟩ := hread
    obtain ⟨events₂, hreads₂, hitems₂⟩ := ih hreads
    exact ⟨events₂, hreads₂, by rw [hitems, items_append, items_append, hitems₂, List.append_assoc]⟩
  | text plain read next ih =>
    rw [List.append_assoc] at h'
    obtain ⟨events₁, hreads, hitems⟩ := h'.split_text plain read
    obtain ⟨events₂, hreads₂, hitems₂⟩ := ih hreads
    exact ⟨events₂, hreads₂, by rw [hitems, items_cons, hitems₂, List.append_assoc]⟩

/-- What is read, and what is open behind it, determine what was open before it. -/
theorem left_unique {opened' : Open} {text : Bytes} (h : Reads opened text events last)
    (h' : Reads opened' text events' last) : opened = opened' := by
  induction h generalizing opened' events' with
  | nil => exact h'.nil_inv.2
  | markup taken read next ih =>
    obtain ⟨event?, others, events₁, hread, hreads, -⟩ := h'.split_markup taken
    have hothers := ih hreads
    subst hothers
    exact (effect_of_ofMarkup read).left_unique (effect_of_ofMarkup hread)
  | text plain read next ih =>
    obtain ⟨events₁, hreads, -⟩ := h'.split_text plain read
    exact ih hreads

end Reads

/-! ## Reading and the relation -/

/-- Reading through a text that starts with markup. -/
theorem readThrough_markup_iff {opened last : Open} {rest : Bytes} {events : List Event} :
    readThrough opened ('<'.toUInt8 :: rest) = .ok (events, last) ↔
      ∃ m n event? others events', Markup.read rest = .ok (m, n) ∧
        ofMarkup opened m = .ok (event?, others) ∧
        readThrough others (rest.drop n) = .ok (events', last) ∧
          events = event?.toList ++ events' := by
  rw [readThrough, if_pos (by simp)]
  cases hm : Markup.read rest with
  | error fault => simp [bind, Except.bind]
  | ok r =>
    obtain ⟨m, n⟩ := r
    cases ho : ofMarkup opened m with
    | error fault => simp [ho, bind, Except.bind]
    | ok r =>
      obtain ⟨event?, others⟩ := r
      cases hr : readThrough others (rest.drop n) with
      | error fault => simp [ho, hr, bind, Except.bind]
      | ok r =>
        simp only [ho, hr, bind, Except.bind, pure, Except.pure, Except.ok.injEq, Prod.mk.injEq]
        constructor
        · rintro ⟨rfl, rfl⟩
          exact ⟨m, n, event?, others, r.1, ⟨rfl, rfl⟩, ho, hr, rfl⟩
        · rintro ⟨m', n', event?', others', events', ⟨rfl, rfl⟩, ho', hr', rfl⟩
          rw [ho, Except.ok.injEq, Prod.mk.injEq] at ho'
          obtain ⟨rfl, rfl⟩ := ho'
          rw [hr, Except.ok.injEq] at hr'
          subst hr'
          exact ⟨rfl, rfl⟩

/-- Character data ends before the next `<`, or with the text. -/
def EndsData (tail : Bytes) : Prop := ∀ b, tail.head? = some b → b = '<'.toUInt8

/-- Every text is character data and what ends it. -/
theorem exists_data (text : Bytes) :
    ∃ data tail, text = data ++ tail ∧ '<'.toUInt8 ∉ data ∧ EndsData tail := by
  refine ⟨text.takeWhile (· != '<'.toUInt8), text.dropWhile (· != '<'.toUInt8),
    List.takeWhile_append_dropWhile.symm, fun hmem => ?_, fun b hb => ?_⟩
  · have := List.all_eq_true.1 List.all_takeWhile _ hmem
    simp at this
  · have := List.head?_dropWhile_not (· != '<'.toUInt8) text
    rw [hb] at this
    simpa using this

/-- Reading through a text that starts with character data. -/
theorem readThrough_text_iff {opened last : Open} {data tail : Bytes} {events : List Event}
    (hne : data ≠ []) (plain : '<'.toUInt8 ∉ data) (ends : EndsData tail) :
    readThrough opened (data ++ tail) = .ok (events, last) ↔
      ∃ content events', readText data = .ok content ∧
        readThrough opened tail = .ok (events', last) ∧ events = .text content :: events' := by
  cases data with
  | nil => exact absurd rfl hne
  | cons b data =>
    rw [List.mem_cons, not_or] at plain
    have hmore : (data ++ tail).takeWhile (· != '<'.toUInt8) = data := by
      rw [List.takeWhile_append_of_pos fun c hc => by
        rw [bne_iff_ne]
        rintro rfl
        exact plain.2 hc]
      cases tail with
      | nil => simp
      | cons c tail => rw [List.takeWhile_cons_of_neg (by simp [ends c rfl]), List.append_nil]
    rw [List.cons_append, readThrough, if_neg (by simpa using Ne.symm plain.1), hmore]
    dsimp only
    rw [List.drop_left]
    cases hc : readText (b :: data) with
    | error fault => simp [bind, Except.bind]
    | ok content =>
      cases hr : readThrough opened tail with
      | error fault => simp [bind, Except.bind]
      | ok r =>
        simp only [bind, Except.bind, pure, Except.pure, Except.ok.injEq, Prod.mk.injEq]
        constructor
        · rintro ⟨rfl, rfl⟩
          exact ⟨content, r.1, rfl, rfl, rfl⟩
        · rintro ⟨content', events', rfl, rfl, rfl⟩
          exact ⟨rfl, rfl⟩

/-- How `readThrough` reads a text piece by piece: each piece of character data reaches to the
    next `<`. -/
inductive ReadThrough : Open → Bytes → List Event → Open → Prop where
  | nil {opened} : ReadThrough opened [] [] opened
  | markup {opened others last written rest m event? events}
      (taken : Markup.read written = .ok (m, written.length))
      (read : ofMarkup opened m = .ok (event?, others))
      (next : ReadThrough others rest events last) :
      ReadThrough opened ('<'.toUInt8 :: (written ++ rest)) (event?.toList ++ events) last
  | text {opened last written rest content events} (hne : written ≠ [])
      (plain : '<'.toUInt8 ∉ written) (ends : EndsData rest)
      (read : readText written = .ok content) (next : ReadThrough opened rest events last) :
      ReadThrough opened (written ++ rest) (.text content :: events) last

theorem ReadThrough.of_readThrough {opened last : Open} {text : Bytes} {events : List Event}
    (h : readThrough opened text = .ok (events, last)) : ReadThrough opened text events last := by
  induction hn : text.length using Nat.strongRecOn generalizing opened text events with
  | ind n ih =>
    obtain ⟨data, tail, rfl, plain, ends⟩ := exists_data text
    by_cases hdata : data = []
    · subst hdata
      rw [List.nil_append] at h hn ⊢
      cases tail with
      | nil =>
        simp only [readThrough, Except.ok.injEq, Prod.mk.injEq] at h
        obtain ⟨rfl, rfl⟩ := h
        exact .nil
      | cons b tail =>
        obtain rfl := ends b rfl
        obtain ⟨m, k, event?, others, events', hm, ho, hr, rfl⟩ := readThrough_markup_iff.1 h
        obtain ⟨written, rest, rfl, rfl, taken⟩ := Markup.exists_append_of_read hm
        rw [List.length_cons, List.length_append] at hn
        rw [List.drop_left] at hr
        exact .markup taken ho (ih _ (by omega) hr rfl)
    · obtain ⟨content, events', hc, hr, rfl⟩ := (readThrough_text_iff hdata plain ends).1 h
      have hpos := List.length_pos_iff.2 hdata
      rw [List.length_append] at hn
      exact .text hdata plain ends hc (ih _ (by omega) hr rfl)

/-- What is read through a text is read in the sense of the relation. -/
theorem reads_of_readThrough {opened last : Open} {text : Bytes} {events : List Event}
    (h : readThrough opened text = .ok (events, last)) : Reads opened text events last := by
  have hpieces := ReadThrough.of_readThrough h
  clear h
  induction hpieces with
  | nil => exact .nil
  | markup taken read _ ih => exact .markup taken read ih
  | text _ plain _ read _ ih => exact .text plain read ih

/-- What is read in the sense of the relation is read through, up to the pieces of character
    data. -/
theorem Reads.readThrough_eq {opened last : Open} {text : Bytes} {events : List Event}
    (h : Reads opened text events last) :
    ∃ events', readThrough opened text = .ok (events', last) ∧ items events' = items events := by
  induction h with
  | nil => exact ⟨[], by rw [readThrough], rfl⟩
  | @markup opened others last written rest m event? events taken read next ih =>
    obtain ⟨events', hthrough, hitems⟩ := ih
    refine ⟨event?.toList ++ events', readThrough_markup_iff.2 ⟨m, written.length, event?, others,
      events', Markup.read_append taken rest, read, by rwa [List.drop_left], rfl⟩, ?_⟩
    rw [items_append, items_append, hitems]
  | @text opened last written rest content events plain read next ih =>
    obtain ⟨events', hthrough, hitems⟩ := ih
    by_cases hwritten : written = []
    · subst hwritten
      rw [readText_nil, Except.ok.injEq] at read
      exact ⟨events', hthrough, by rw [hitems, items_cons, ← read]; rfl⟩
    · obtain ⟨data, tail, rfl, plain', ends⟩ := exists_data rest
      have hboth : '<'.toUInt8 ∉ written ++ data := by
        rw [List.mem_append, not_or]
        exact ⟨plain, plain'⟩
      have hne : written ++ data ≠ [] := fun hnil => hwritten (List.append_eq_nil_iff.1 hnil).1
      by_cases hdata : data = []
      · subst hdata
        rw [List.append_nil] at hboth hne
        exact ⟨.text content :: events', (readThrough_text_iff hne hboth ends).2
          ⟨content, events', read, hthrough, rfl⟩, by rw [items_cons, items_cons, hitems]⟩
      · -- The piece that is read reaches to the next `<`.
        obtain ⟨content', events'', hc, hr, rfl⟩ :=
          (readThrough_text_iff hdata plain' ends).1 hthrough
        rw [← List.append_assoc]
        refine ⟨.text (content ++ content') :: events'', (readThrough_text_iff hne hboth ends).2
          ⟨content ++ content', events'', readText_append read hc, hr, rfl⟩, ?_⟩
        rw [items_cons, items_cons, ← hitems, items_cons, Event.items_text_append,
          List.append_assoc]

end DocxTemplate.Xml
