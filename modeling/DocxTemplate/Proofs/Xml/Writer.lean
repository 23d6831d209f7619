import Mathlib.Data.List.Chain
import DocxTemplate.Proofs.Text.Decoding
import DocxTemplate.Proofs.Xml.Grammar
import DocxTemplate.Proofs.Xml.Element

/-! # Writing and reading events

    Events are written as tags and character data, with every value and every text escaped.

    * `writeEvents`: a list of events as it is written.
    * `WritableEvents`: the lists that have a written form of their own.
    * `events_writeEvents`: such a list is read back from its written form.
-/

namespace DocxTemplate.Xml

open Event (Open ofMarkup closeElement skipMark)

/-! ## Writing -/

/-- An event as it is written. -/
def Event.write : Event → Bytes
  | .start name attributes =>
    '<'.toUInt8 :: (Bytes.ofString name ++ (writeAttributes attributes ++ ['>'.toUInt8]))
  | .close name => '<'.toUInt8 :: '/'.toUInt8 :: (Bytes.ofString name ++ ['>'.toUInt8])
  | .empty name attributes => '<'.toUInt8 :: writeElement (Bytes.ofString name) attributes
  | .text content => escape (Bytes.ofString content)

/-- Events as they are written, one after the other. -/
def writeEvents (events : List Event) : Bytes := events.flatMap Event.write

@[simp] theorem writeEvents_nil : writeEvents [] = [] := rfl

@[simp] theorem writeEvents_cons (event : Event) (events : List Event) :
    writeEvents (event :: events) = event.write ++ writeEvents events := rfl

/-! ## What can be written -/

/-- A name of an element or an attribute that is read as it is written. -/
def WritableName (name : String) : Prop :=
  name ≠ "" ∧
  (∀ c ∈ name.toList, c ∉ [' ', '\t', '\n', '\r', '<', '>', '/', '=', '\x22', '\x27']) ∧
  ∀ c, name.toList.head? = some c → c ∉ ['!', '?']

instance (name : String) : Decidable (WritableName name) :=
  decidable_of_iff (name ≠ "" ∧
      name.toList.all (· ∉ [' ', '\t', '\n', '\r', '<', '>', '/', '=', '\x22', '\x27']) ∧
      name.toList.head?.all (· ∉ ['!', '?'])) (by
    simp only [WritableName, List.all_eq_true, Option.all_eq_true, decide_eq_true_eq])

/-- The names in an event can be written, the keys of a tag differ, and texts are not empty. -/
def Event.Writable : Event → Prop
  | .start name attributes | .empty name attributes =>
    WritableName name ∧ (∀ key ∈ attributes.map (·.1), WritableName key) ∧
      (attributes.map (·.1)).Nodup
  | .close name => WritableName name
  | .text content => content ≠ ""

instance : DecidablePred Event.Writable
  | .start _ _ | .empty _ _ => inferInstanceAs (Decidable (_ ∧ _ ∧ _))
  | .close _ => inferInstanceAs (Decidable (WritableName _))
  | .text _ => inferInstanceAs (Decidable (_ ≠ _))

/-- Two events of which at most one is character data. -/
def Event.Apart (first second : Event) : Prop :=
  ∀ s t, ¬ (first = .text s ∧ second = .text t)

/-- Lists of events that are read as they are written. -/
structure WritableEvents (events : List Event) : Prop where
  /-- Each start tag has its end tag. -/
  balanced : ∃ count, Content count events
  /-- A tag stands at the start, so the text cannot begin with the mark of its encoding. -/
  begins : ∃ name attributes, events.head? = some (.start name attributes) ∨
    events.head? = some (.empty name attributes)
  /-- Two texts in a row would be read as one. -/
  apart : events.IsChain Event.Apart
  each : ∀ event ∈ events, event.Writable

/-! ## Names -/

/-- The bytes of a name are those of its characters. -/
theorem WritableName.plain {name : String} (h : WritableName name) :
    ∀ b ∈ Bytes.ofString name, isBlank b = false ∧
      b ∉ ['<'.toUInt8, '>'.toUInt8, '/'.toUInt8, '='.toUInt8, 0x22, 0x27] := by
  intro b hb
  have hall : ∀ b : UInt8, (b < 0x80 → Char.ofNat b.toNat ∉
        [' ', '\t', '\n', '\r', '<', '>', '/', '=', '\x22', '\x27']) →
      isBlank b = false ∧ b ∉ ['<'.toUInt8, '>'.toUInt8, '/'.toUInt8, '='.toUInt8, 0x22, 0x27] :=
    Bytes.of_forall_fin (by decide +kernel)
  exact hall b fun hascii =>
    h.2.1 _ (Utf8.mem_of_decodeFrom (Utf8.decodeFrom_ofString 0 name) hb hascii)

theorem WritableName.tagName {name : String} (h : WritableName name) :
    TagName (Bytes.ofString name) := by
  constructor
  · obtain ⟨c, cs, hcs⟩ : ∃ c cs, name.toList = c :: cs := by
      cases hcs : name.toList with
      | nil => exact absurd (String.toList_eq_nil_iff.1 hcs) h.1
      | cons c cs => exact ⟨c, cs, rfl⟩
    have hfirst := h.2.2 c (by rw [hcs]; rfl)
    have hhead := Utf8.head_utf8EncodeChar c (cs.flatMap String.utf8EncodeChar)
    have hbytes : Bytes.ofString name =
        String.utf8EncodeChar c ++ cs.flatMap String.utf8EncodeChar := by
      rw [Bytes.ofString, hcs, List.flatMap_cons]
    rw [← hbytes] at hhead
    cases hname : Bytes.ofString name with
    | nil =>
      rw [hname] at hhead
      cases hhead
    | cons b rest =>
      refine ⟨b, rest, rfl, fun hb => hfirst ?_⟩
      -- A byte of ASCII at the start is the first character.
      have hc : ∀ ascii : Char, b = ascii.toUInt8 → b < 0x80 → Char.ofNat b.toNat = c := by
        intro ascii hb hlt
        rw [hname, Utf8.head, if_pos hlt, Utf8.Head.char.injEq] at hhead
        exact hhead.1
      simp only [List.mem_cons, List.not_mem_nil, or_false] at hb
      rcases hb with rfl | rfl
      · rw [← hc '!' rfl (by decide)]
        decide
      · rw [← hc '?' rfl (by decide)]
        decide
  · intro b hb
    obtain ⟨hblank, hmem⟩ := h.plain b hb
    refine ⟨hblank, fun hmem' => hmem ?_⟩
    simp only [List.mem_cons, List.not_mem_nil, or_false] at hmem' ⊢
    tauto

theorem plainKeys_of_writable {keys : List String} (h : ∀ key ∈ keys, WritableName key)
    (hnodup : keys.Nodup) : PlainKeys keys := by
  refine ⟨hnodup, fun key hkey => ⟨⟨?_, fun b hb => ?_⟩, Utf8.decodeLossy_ofString key⟩⟩
  · obtain ⟨b, rest, hname, -⟩ := (h key hkey).tagName.opens
    rw [hname]
    exact List.cons_ne_nil b rest
  · obtain ⟨hblank, hmem⟩ := (h key hkey).plain b hb
    refine ⟨fun hmem' => hmem ?_, hblank⟩
    simp only [List.mem_cons, List.not_mem_nil, or_false] at hmem' ⊢
    tauto

/-! ## Written tags -/

/-- A piece of markup is read, and then what follows it. -/
theorem readThrough_markup {opened others last : Open} {written rest : Bytes} {m : Markup}
    {event? : Option Event} {events : List Event}
    (taken : Markup.read written = .ok (m, written.length))
    (read : ofMarkup opened m = .ok (event?, others))
    (next : readThrough others rest = .ok (events, last)) :
    readThrough opened ('<'.toUInt8 :: (written ++ rest)) =
      .ok (event?.toList ++ events, last) :=
  readThrough_markup_iff.2 ⟨m, written.length, event?, others, events,
    Markup.read_append taken rest, read, by rwa [List.drop_left], rfl⟩

theorem getLast?_writeAttributes {attributes : List (String × String)} (h : attributes ≠ []) :
    (writeAttributes attributes).getLast? = some 0x22 := by
  rcases List.eq_nil_or_concat attributes with rfl | ⟨front, ⟨key, value⟩, rfl⟩
  · exact absurd rfl h
  · have hwritten : writeAttributes (front ++ [(key, value)]) =
        (writeAttributes front ++ 0x20 :: (Bytes.ofString key ++ '='.toUInt8 :: 0x22 ::
          escapeQuoted (Bytes.ofString value))) ++ [0x22] := by
      rw [writeAttributes, List.flatMap_append, List.flatMap_singleton]
      dsimp only
      rw [writeAttribute_eq]
      simp [writeAttributes]
    rw [List.concat_eq_append, hwritten, List.getLast?_concat]

section
variable {opened last : Open} {name : String} {attributes : List (String × String)}
  {rest : Bytes} {events : List Event}

theorem readThrough_start (h : (Event.start name attributes).Writable)
    (next : readThrough (Bytes.ofString name :: opened) rest = .ok (events, last)) :
    readThrough opened ((Event.start name attributes).write ++ rest) =
      .ok (.start name attributes :: events, last) := by
  obtain ⟨hname, hkeys, hnodup⟩ := h
  have hplain := plainKeys_of_writable hkeys hnodup
  have hend : Markup.tagEnd? none (writeAttributes attributes ++ ['>'.toUInt8]) =
      some (writeAttributes attributes).length := by
    rw [tagEnd?_writeAttributes fun key hkey => (hplain.2 key hkey).1]
    simp [Markup.tagEnd?]
  have hread := Markup.read_tag hname.tagName hend
  -- The last byte is a quote, or belongs to the name.
  rw [if_neg ?_] at hread
  · have hevent := ofMarkup_startTag hname.tagName (behindName_writeAttributes attributes) opened
    rw [attributesFrom_writeAttributes hplain (fun _ _ => rfl), Utf8.decodeLossy_ofString] at hevent
    exact readThrough_markup hread hevent next
  · by_cases hnil : attributes = []
    · subst hnil
      intro hlast
      rw [writeAttributes, List.flatMap_nil, List.append_nil] at hlast
      have hslash := (hname.plain _ (List.mem_of_getLast? hlast)).2
      exact hslash (by decide)
    · rw [List.getLast?_append, getLast?_writeAttributes hnil, Option.some_or]
      decide

theorem readThrough_empty (h : (Event.empty name attributes).Writable)
    (next : readThrough opened rest = .ok (events, last)) :
    readThrough opened ((Event.empty name attributes).write ++ rest) =
      .ok (.empty name attributes :: events, last) := by
  obtain ⟨hname, hkeys, hnodup⟩ := h
  have hplain := plainKeys_of_writable hkeys hnodup
  have hevent := ofMarkup_writeElement hname.tagName hplain opened
  rw [Utf8.decodeLossy_ofString] at hevent
  exact readThrough_markup (Markup.read_writeElement hname.tagName hplain) hevent next

theorem readThrough_close (h : WritableName name)
    (next : readThrough opened rest = .ok (events, last)) :
    readThrough (Bytes.ofString name :: opened) ((Event.close name).write ++ rest) =
      .ok (.close name :: events, last) := by
  have hread := Markup.read_endTag h.tagName
  have hevent : ofMarkup (Bytes.ofString name :: opened) (.endTag (Bytes.ofString name)) =
      .ok (some (.close name), opened) := by
    rw [ofMarkup, closeElement, if_pos (beq_self_eq_true _)]
    simp only [Except.mapError, bind, Except.bind, pure, Except.pure, Utf8.decodeLossy_ofString]
  exact readThrough_markup hread hevent next

end

/-! ## Whole lists -/

/-- What is written of a list begins with a `<` unless a text is first. -/
theorem endsData_writeEvents {events : List Event}
    (h : ∀ event ∈ events.head?, ∀ content, event ≠ .text content) :
    EndsData (writeEvents events) := by
  intro b hb
  cases events with
  | nil => cases hb
  | cons event events =>
    have hevent := h event rfl
    cases event with
    | text content => exact absurd rfl (hevent content)
    | start name attributes => exact (Option.some.inj hb).symm
    | close name => exact (Option.some.inj hb).symm
    | empty name attributes => exact (Option.some.inj hb).symm

/-- A text is read up to the next tag. -/
theorem readThrough_text {opened last : Open} {content : String} {events : List Event}
    (hne : content ≠ "") (apart : ∀ event ∈ events.head?, Event.Apart (.text content) event)
    (next : readThrough opened (writeEvents events) = .ok (events, last)) :
    readThrough opened (writeEvents (.text content :: events)) =
      .ok (.text content :: events, last) := by
  have hwritten : escape (Bytes.ofString content) ≠ [] := by
    intro hnil
    have hread := readText_escape content
    rw [hnil, readText_nil, Except.ok.injEq] at hread
    exact hne hread.symm
  have hplain : '<'.toUInt8 ∉ escape (Bytes.ofString content) := fun hmem =>
    (not_mem_escape _ _ hmem).1 rfl
  have hends : EndsData (writeEvents events) :=
    endsData_writeEvents fun event hevent t heq => apart event hevent content t ⟨rfl, heq⟩
  exact (readThrough_text_iff hwritten hplain hends).2
    ⟨content, events, readText_escape content, next, rfl⟩

/-- Content is read as it is written, if what follows it is. What is open around it stays open. -/
theorem Content.readThrough_write {count : Nat} {content : List Event} (h : Content count content)
    {opened last : Open} {rest : List Event} (apart : (content ++ rest).IsChain Event.Apart)
    (each : ∀ event ∈ content, event.Writable)
    (next : readThrough opened (writeEvents rest) = .ok (rest, last)) :
    readThrough opened (writeEvents (content ++ rest)) = .ok (content ++ rest, last) := by
  -- What is open is general in the induction: the content of an element is read with it open.
  induction h generalizing opened last rest with
  | nil => exact next
  | text data hnext ih =>
    rw [List.forall_mem_cons] at each
    rw [List.cons_append, List.isChain_cons] at apart
    exact readThrough_text each.1 apart.1 (ih apart.2 each.2 next)
  | empty name attributes hnext ih =>
    rw [List.forall_mem_cons] at each
    rw [List.cons_append, List.isChain_cons] at apart
    exact readThrough_empty each.1 (ih apart.2 each.2 next)
  | @element count inside content behind name attributes inner hnext ihInner ih =>
    rw [List.forall_mem_cons, List.forall_mem_append, List.forall_mem_cons] at each
    obtain ⟨hstart, hinner, hclose, hbehind⟩ := each
    rw [List.cons_append, List.append_assoc, List.cons_append, List.isChain_cons] at apart
    have hclosing := (List.isChain_append.1 apart.2).2.1
    -- The element is still open where its content ends.
    have hend : readThrough (Bytes.ofString name :: opened)
        (writeEvents (.close name :: (behind ++ rest))) =
          .ok (.close name :: (behind ++ rest), last) :=
      readThrough_close hclose (ih hclosing.tail hbehind next)
    have hwhole := readThrough_start hstart (ihInner apart.2 hinner hend)
    rw [List.cons_append, List.append_assoc, List.cons_append]
    exact hwhole

/-- Events are read back from their written form, whatever stands in their texts and values. -/
theorem events_writeEvents {es : List Event} (h : WritableEvents es) :
    events (writeEvents es) = .ok es := by
  obtain ⟨count, hcontent⟩ := h.balanced
  have hread : readThrough [] (writeEvents (es ++ [])) = .ok (es ++ [], []) :=
    hcontent.readThrough_write (by rw [List.append_nil]; exact h.apart) h.each
      (by rw [writeEvents_nil, readThrough])
  rw [List.append_nil] at hread
  have hmark : skipMark (writeEvents es) = writeEvents es := by
    have hfirst : (writeEvents es).head? = some '<'.toUInt8 := by
      obtain ⟨name, attributes, hhead | hhead⟩ := h.begins
      · obtain ⟨others, rfl⟩ := List.head?_eq_some_iff.1 hhead
        rfl
      · obtain ⟨others, rfl⟩ := List.head?_eq_some_iff.1 hhead
        rfl
    obtain ⟨others, hothers⟩ := List.head?_eq_some_iff.1 hfirst
    rw [hothers, skipMark, if_neg]
    intro hprefix
    obtain ⟨behind, hbehind⟩ := List.isPrefixOf_iff_prefix.1 hprefix
    exact absurd (List.cons.inj hbehind).1 (by decide)
  rw [events, hmark, readFrom_eq_readThrough, hread]
  rfl

/-- Two elements beside each other, with quotes, references, line ends, a mark of the encoding and
    the end of a character section in what they hold. -/
def awkwardEvents : List Event :=
  [.start "w:é" [("a!", "1\x22 > \x27&lt;"), ("Ü", "")], .text "\uFEFF]]>&#65;\r\n",
    .empty "b" [("a!", "<!--")], .close "w:é", .text " &", .empty "b?" []]

theorem writable_awkwardEvents : WritableEvents awkwardEvents := by
  refine ⟨⟨2, ?_⟩, ⟨_, _, Or.inl rfl⟩, ?_, by decide +kernel⟩
  · exact .element _ _ (.text _ (.empty _ _ .nil)) (.text _ (.empty _ _ .nil))
  · simp [awkwardEvents, Event.Apart]

theorem events_write_awkwardEvents :
    WritableEvents awkwardEvents ∧ events (writeEvents awkwardEvents) = .ok awkwardEvents :=
  ⟨writable_awkwardEvents, events_writeEvents writable_awkwardEvents⟩

end DocxTemplate.Xml
