import DocxTemplate.Package.ContentTypes
import DocxTemplate.Package.Relationships
import DocxTemplate.Proofs.Sanitize.Token
import DocxTemplate.Proofs.Xml.Element
import DocxTemplate.Proofs.Xml.WellFormed

/-! # Extending a table

    A table is extended as text and read as events. The two agree where the token that the
    search finds is the opening tag of the outermost element and its first `>` ends the tag.

    * `entries_eq_ok_iff`: the entries of a table in terms of the reading relation.
    * `Rooted`: the token that is found opens the outermost element.
    * `Extended`: what an insertion does to the events of a table.
    * `exists_of_insertAfterRoot`: an insertion into a rooted table does that, and the table is
      still rooted. So the entries of a fragment are put before the ones the table had
      (`entries_insertAfterRoot`), and a well-formed table stays well-formed
      (`check_insertAfterRoot`).
    * `Relationship.readAll_insertAfterRoot` and `ContentTypes.declared_insertAfterRoot`: the two
      tables of a package.
-/

namespace DocxTemplate.Table

open Sanitize (Tag StartsToken tokenIndex? endsName)
open Xml (Reads PlainName BehindName Event Item items)
open Xml.Event (skipMark)

/-! ## Entries -/

/-- The attributes of an item that opens an element with this local name. -/
def itemAttributes? (element : String) : Item → Option (List (String × String))
  | .tag event => attributesOf? element event
  | .char _ => none

/-- The entries depend on the items only. -/
theorem filterMap_items (element : String) (events : List Event) :
    (items events).filterMap (itemAttributes? element) =
      events.filterMap (attributesOf? element) := by
  induction events with
  | nil => rfl
  | cons event events ih =>
    rw [Xml.items_cons, List.filterMap_append, ih, List.filterMap_cons]
    cases event with
    | text content =>
      have hchars : (content.toList.map Item.char).filterMap (itemAttributes? element) = [] := by
        rw [List.filterMap_map, List.filterMap_eq_nil_iff]
        exact fun _ _ => rfl
      rw [Event.items, hchars]
      rfl
    | start name attributes =>
      have hitems : (Event.start name attributes).items = [.tag (.start name attributes)] := rfl
      rw [hitems, List.filterMap_cons, itemAttributes?]
      cases attributesOf? element (.start name attributes) <;> rfl
    | empty name attributes =>
      have hitems : (Event.empty name attributes).items = [.tag (.empty name attributes)] := rfl
      rw [hitems, List.filterMap_cons, itemAttributes?]
      cases attributesOf? element (.empty name attributes) <;> rfl
    | close name => rfl

theorem filterMap_congr_items {element : String} {events events' : List Event}
    (h : items events = items events') :
    events.filterMap (attributesOf? element) = events'.filterMap (attributesOf? element) := by
  rw [← filterMap_items, h, filterMap_items]

/-- The entries of a text that can be read. -/
theorem entries_eq_ok_iff {element : String} {source : Bytes}
    {l : List (List (String × String))} : entries element source = .ok l ↔
      ∃ events last, Reads [] (skipMark source) events last ∧
        events.filterMap (attributesOf? element) = l := by
  rw [entries, Xml.events, Xml.readFrom_eq_readThrough]
  constructor
  · intro h
    cases hr : Xml.readThrough [] (skipMark source) with
    | error fault =>
      rw [hr] at h
      cases h
    | ok r =>
      rw [hr] at h
      cases h
      exact ⟨r.1, r.2, Xml.reads_of_readThrough hr, rfl⟩
  · rintro ⟨events, last, hreads, rfl⟩
    obtain ⟨events', hthrough, hitems⟩ := hreads.readThrough_eq
    rw [hthrough]
    exact congrArg Except.ok (filterMap_congr_items hitems)

/-! ## Rooted tables -/

/-- The text of a table whose root is opened behind `front` by a tag with `more` behind its
    name. -/
def withRoot (root : String) (front more behind : Bytes) : Bytes :=
  front ++ (Bytes.ofString root ++ (more ++ '>'.toUInt8 :: behind))

/-- The tag between `front` and `behind` is the first whole token of its text and opens the
    outermost element. -/
structure Outermost (root : String) (front more behind : Bytes) : Prop where
  first : tokenIndex? (Bytes.ofString root) (withRoot root front more behind) = some front.length
  /-- There is at most text before the tag. -/
  outer : ∃ events, Reads [] (skipMark front) events [] ∧
    ∀ event ∈ events, ∃ content, event = Event.text content
  /-- The tag ends at the first `>`, so there is none in the values of its attributes. -/
  plain : '>'.toUInt8 ∉ more
  ends : Xml.Markup.tagEnd? none (more ++ ['>'.toUInt8]) = some more.length
  /-- The name of the tag is that of the root. -/
  named : more = ['/'.toUInt8] ∨ BehindName more

/-- The first token of the root opens the outermost element of the text, and there is no `>` in
    the attributes of that tag. -/
def Rooted (root : String) (text : Bytes) : Prop :=
  ∃ front more behind, text = withRoot root front more behind ∧
    Outermost root front more behind

/-- A root is a `<` and a name. -/
def RootName (root : String) (name : Bytes) : Prop :=
  Bytes.ofString root = '<'.toUInt8 :: name ∧ PlainName name

instance (root : String) (name : Bytes) : Decidable (RootName root name) :=
  inferInstanceAs (Decidable (_ ∧ _))

section
variable {root : String} {name front more behind : Bytes} (hroot : RootName root name)
include hroot

theorem RootName.tag : Tag (Bytes.ofString root) := by
  refine ⟨name, hroot.1, fun hmem => ?_⟩
  exact (hroot.2.2 _ hmem).2 (by decide)

/-- The text with the tag taken apart, as the reader needs it. -/
theorem withRoot_eq : withRoot root front more behind =
    front ++ '<'.toUInt8 :: (name ++ (more ++ ['>'.toUInt8]) ++ behind) := by
  rw [withRoot, hroot.1]
  simp

/-- The byte before the `>` is that of what stands behind the name, if it is a slash. -/
theorem getLast?_slash_iff (x more : Bytes) :
    (x ++ (name ++ more)).getLast? = some '/'.toUInt8 ↔ more.getLast? = some '/'.toUInt8 := by
  rw [List.getLast?_append, List.getLast?_append]
  cases hmore : more.getLast? with
  | some b => rfl
  | none =>
    obtain ⟨b, hb⟩ : ∃ b, name.getLast? = some b :=
      ⟨_, List.getLast?_eq_some_getLast hroot.2.1⟩
    rw [hb, Option.none_or, Option.some_or]
    refine ⟨fun heq => ?_, fun h => nomatch h⟩
    rw [Option.some.injEq] at heq
    rw [heq] at hb
    exact absurd (by decide) (hroot.2.2 _ (List.mem_of_getLast? hb)).2

end

theorem endsName_of_isBlank {b : UInt8} (h : Xml.isBlank b = true) : endsName b = true := by
  simp only [Xml.isBlank, Bool.or_eq_true, beq_iff_eq] at h
  rcases h with ((rfl | rfl) | rfl) | rfl <;> decide

/-- Behind a root the name ends. -/
theorem startsToken_root {root : String} {more : Bytes} (hmore : BehindName more)
    (behind : Bytes) :
    StartsToken (Bytes.ofString root) (Bytes.ofString root ++ (more ++ '>'.toUInt8 :: behind)) := by
  cases more with
  | nil => exact ⟨_, behind, rfl, by decide⟩
  | cons b more => exact ⟨b, _, rfl, endsName_of_isBlank (hmore b rfl)⟩

/-- What stands behind a token can be exchanged as long as the token stays: before it there is
    none that reaches into it. -/
theorem tokenIndex?_congr_behind {token front rest rest' : Bytes} (htag : Tag token)
    (h : tokenIndex? token (front ++ rest) = some front.length) (hrest' : StartsToken token rest') :
    tokenIndex? token (front ++ rest') = some front.length := by
  rw [Sanitize.tokenIndex?_eq_some_iff htag.distinct] at h ⊢
  have hplace : StartsToken token ((front ++ rest').drop front.length) := by
    rwa [List.drop_left]
  refine ⟨hplace, fun j hj hstarts => h.2 j hj ?_⟩
  have hlt := hstarts.add_lt htag htag hplace hj
  rw [List.drop_append_of_le_length (by omega)] at hstarts ⊢
  have hlen : token.length + 1 ≤ (front.drop j).length := by
    rw [List.length_drop]
    omega
  rw [Sanitize.ofFirstBytes_startsToken token _ _ hlen] at hstarts ⊢
  exact hstarts

/-- The mark before a text stays before it. -/
theorem skipMark_append_cons (front rest : Bytes) :
    skipMark (front ++ '<'.toUInt8 :: rest) = skipMark front ++ '<'.toUInt8 :: rest := by
  match front with
  | [] => rfl
  | [a] =>
    simp only [skipMark, Event.byteOrderMark, List.isPrefixOf, List.cons_append, List.nil_append]
    simp
    exact fun _ h => absurd h (by decide)
  | [a, b] =>
    simp only [skipMark, Event.byteOrderMark, List.isPrefixOf, List.cons_append, List.nil_append]
    simp
    exact fun _ _ h => absurd h (by decide)
  | a :: b :: c :: front => exact Xml.skipMark_append (by simp) _

theorem filterMap_texts {events : List Event} (element : String)
    (h : ∀ event ∈ events, ∃ content, event = Event.text content) :
    events.filterMap (attributesOf? element) = [] := by
  rw [List.filterMap_eq_nil_iff]
  intro event hevent
  obtain ⟨content, rfl⟩ := h event hevent
  rfl

/-! ## Extended tables -/

/-- The events of a table with a fragment put behind the opening tag of its root. A root without
    content gets an end tag. -/
inductive Extended (name : String) (added : List Event) : List Event → List Event → Prop where
  | opened {texts attributes events}
      (outer : ∀ event ∈ texts, ∃ content, event = Event.text content) :
      Extended name added (texts ++ .start name attributes :: events)
        (texts ++ .start name attributes :: (added ++ events))
  | expanded {texts attributes events}
      (outer : ∀ event ∈ texts, ∃ content, event = Event.text content) :
      Extended name added (texts ++ .empty name attributes :: events)
        (texts ++ .start name attributes :: (added ++ .close name :: events))

namespace Extended

variable {name : String} {added events events' : List Event}

/-- The entries of the fragment come first. -/
theorem filterMap_eq (h : Extended name added events events') {element : String}
    (helement : localName name ≠ element) :
    events'.filterMap (attributesOf? element) =
      added.filterMap (attributesOf? element) ++ events.filterMap (attributesOf? element) := by
  have hother : (localName name == element) = false := beq_eq_false_iff_ne.2 helement
  cases h with
  | opened outer =>
    simp [List.filterMap_append, filterMap_texts element outer, attributesOf?, hother]
  | expanded outer =>
    simp [List.filterMap_append, List.filterMap_cons, filterMap_texts element outer, attributesOf?,
      hother]

theorem foldlM_texts {texts : List Event} (n : Xml.Nesting)
    (h : ∀ event ∈ texts, ∃ content, event = Event.text content) :
    texts.foldlM Xml.Nesting.step n = .ok n := by
  induction texts with
  | nil => rfl
  | cons event texts ih =>
    obtain ⟨content, rfl⟩ := h event List.mem_cons_self
    exact ih fun event hevent => h event (List.mem_cons_of_mem _ hevent)

/-- A fragment of whole elements leaves the nesting at the end as it was. -/
theorem nesting_eq (h : Extended name added events events')
    (hadded : ∀ n : Xml.Nesting, n.opened ≠ [] → added.foldlM Xml.Nesting.step n = .ok n) :
    events'.foldlM Xml.Nesting.step {} = events.foldlM Xml.Nesting.step {} := by
  have hinside : added.foldlM Xml.Nesting.step ⟨[name], 1⟩ = .ok ⟨[name], 1⟩ := hadded _ (by simp)
  cases h with
  | opened outer =>
    simp only [List.foldlM_append, List.foldlM_cons, foldlM_texts _ outer, Xml.Nesting.step,
      Xml.Nesting.enter, bind, Except.bind, List.isEmpty_nil, if_true, Nat.zero_add]
    rw [hinside]
  | expanded outer =>
    simp only [List.foldlM_append, List.foldlM_cons, foldlM_texts _ outer, Xml.Nesting.step,
      Xml.Nesting.enter, bind, Except.bind, List.isEmpty_nil, if_true, Nat.zero_add]
    rw [hinside]
    simp only [if_true]

end Extended

/-! ## Insertion -/

section
variable {root : String} {name front more behind : Bytes} (hroot : RootName root name)
include hroot

/-- Where a fragment is put. A root without content gets an end tag. -/
theorem insertAfterRoot_eq (h : Outermost root front more behind) (fragment : Bytes) :
    insertAfterRoot root fragment (withRoot root front more behind) =
      .ok (if more.getLast? = some '/'.toUInt8 then
          Blank.trimEnd (front ++ Bytes.ofString root ++ more.dropLast) ++ '>'.toUInt8 ::
            (fragment ++ '<'.toUInt8 :: ('/'.toUInt8 :: (name ++ ['>'.toUInt8]) ++ behind))
        else withRoot root front more (fragment ++ behind)) := by
  have hbytes : Bytes.ofString root = '<'.toUInt8 :: name := hroot.1
  have hfree : '>'.toUInt8 ∉ '<'.toUInt8 :: (name ++ more) := by
    rw [List.mem_cons, List.mem_append, not_or, not_or]
    exact ⟨by decide, fun hmem => (hroot.2.2 _ hmem).2 (by decide), h.plain⟩
  have htext : withRoot root front more behind =
      front ++ ('<'.toUInt8 :: (name ++ more) ++ '>'.toUInt8 :: behind) := by
    rw [withRoot_eq hroot]
    simp
  have hgreater : Bytes.ofString ">" = ['>'.toUInt8] := by decide
  have hend : Bytes.ofString "</" = ['<'.toUInt8, '/'.toUInt8] := by decide
  rw [insertAfterRoot, h.first]
  dsimp only
  rw [htext, List.drop_left, Bytes.indexOf?_singleton_append hfree]
  dsimp only
  have htake : (front ++ ('<'.toUInt8 :: (name ++ more) ++ '>'.toUInt8 :: behind)).take
      (front.length + ('<'.toUInt8 :: (name ++ more)).length) =
        front ++ '<'.toUInt8 :: (name ++ more) := by
    rw [← List.append_assoc]
    exact List.take_left' (by rw [List.length_append])
  have hdrop : (front ++ ('<'.toUInt8 :: (name ++ more) ++ '>'.toUInt8 :: behind)).drop
      (front.length + ('<'.toUInt8 :: (name ++ more)).length + 1) = behind := by
    rw [← List.drop_drop, ← List.drop_drop, List.drop_left, List.drop_left]
    rfl
  rw [htake, hdrop]
  have hlast := getLast?_slash_iff hroot (front ++ ['<'.toUInt8]) more
  rw [List.append_assoc, List.singleton_append] at hlast
  by_cases hslash : more.getLast? = some '/'.toUInt8
  · obtain ⟨more', rfl⟩ := List.getLast?_eq_some_iff.1 hslash
    rw [if_pos (by rw [hlast.2 hslash]; rfl), if_pos hslash, hgreater, hend, hbytes]
    have hdropLast : (front ++ '<'.toUInt8 :: (name ++ (more' ++ ['/'.toUInt8]))).dropLast =
        front ++ '<'.toUInt8 :: name ++ more' := by
      rw [← List.append_assoc name, ← List.cons_append, ← List.append_assoc,
        List.dropLast_concat]
      simp
    rw [hdropLast, List.dropLast_concat]
    simp
  · rw [if_neg (by rw [beq_iff_eq]; exact fun heq => hslash (hlast.1 heq)), if_neg hslash, hgreater,
      withRoot, hbytes]
    simp

/-- What is read of a rooted table: the opening tag and what follows it. -/
theorem exists_of_reads (h : Outermost root front more behind) {events : List Event}
    {last : Event.Open} (hreads : Reads [] (skipMark (withRoot root front more behind)) events last) :
    ∃ texts attributes events', Reads [] (skipMark front) texts [] ∧
      (∀ event ∈ texts, ∃ content, event = Event.text content) ∧
      ((∃ more', more = more' ++ ['/'.toUInt8] ∧ BehindName more' ∧
          Xml.attributesFrom [] name.length more' = .ok attributes ∧ Reads [] behind events' last ∧
            items events = items (texts ++ .empty (Utf8.decodeLossy name) attributes :: events')) ∨
        (more.getLast? ≠ some '/'.toUInt8 ∧ BehindName more ∧
          Xml.attributesFrom [] name.length more = .ok attributes ∧ Reads [name] behind events' last ∧
            items events =
              items (texts ++ .start (Utf8.decodeLossy name) attributes :: events'))) := by
  obtain ⟨texts, hfront, htexts⟩ := h.outer
  rw [withRoot_eq hroot, skipMark_append_cons] at hreads
  obtain ⟨events₁, hreads₁, hitems₁⟩ := hfront.split hreads
  obtain ⟨event?, others, events₂, hevent, hreads₂, hitems₂⟩ :=
    hreads₁.split_markup (Xml.Markup.read_tag hroot.2.tagName h.ends)
  have hitems : items events = items (texts ++ (event?.toList ++ events₂)) := by
    rw [hitems₁, hitems₂, ← Xml.items_append]
  have hlast := getLast?_slash_iff hroot [] more
  rw [List.nil_append] at hlast
  by_cases hslash : more.getLast? = some '/'.toUInt8
  · obtain ⟨more', rfl⟩ := List.getLast?_eq_some_iff.1 hslash
    have hbehind : BehindName more' := by
      rcases h.named with heq | hbehind
      · have hnil : more' = [] := by simpa using heq
        rw [hnil]
        exact Xml.behindName_nil
      · intro b hb
        exact hbehind b (by rw [List.head?_append, hb]; rfl)
    rw [if_pos (hlast.2 hslash), ← List.append_assoc, List.dropLast_concat,
      Xml.ofMarkup_emptyTag hroot.2.tagName hbehind] at hevent
    cases hattributes : Xml.attributesFrom [] name.length more' with
    | error fault =>
      rw [hattributes] at hevent
      cases hevent
    | ok attributes =>
      rw [hattributes] at hevent
      cases hevent
      exact ⟨texts, attributes, events₂, hfront, htexts,
        Or.inl ⟨more', rfl, hbehind, hattributes, hreads₂, hitems⟩⟩
  · have hbehind : BehindName more := by
      rcases h.named with rfl | hbehind
      · exact absurd rfl hslash
      · exact hbehind
    rw [if_neg (mt hlast.1 hslash), Xml.ofMarkup_startTag hroot.2.tagName hbehind] at hevent
    cases hattributes : Xml.attributesFrom [] name.length more with
    | error fault =>
      rw [hattributes] at hevent
      cases hevent
    | ok attributes =>
      rw [hattributes] at hevent
      cases hevent
      exact ⟨texts, attributes, events₂, hfront, htexts,
        Or.inr ⟨hslash, hbehind, rfl, hreads₂, hitems⟩⟩

/-- A table whose root is opened by a tag with attributes is read up to the end of that tag and
    on behind it. -/
theorem reads_withRoot {texts : List Event} (hfront : Reads [] (skipMark front) texts [])
    (h : Outermost root front more behind) (hbehind : BehindName more)
    (hslash : more.getLast? ≠ some '/'.toUInt8) {attributes : List (String × String)}
    (hattributes : Xml.attributesFrom [] name.length more = .ok attributes) {events : List Event}
    {last : Event.Open} (hreads : Reads [name] behind events last) :
    Reads [] (skipMark (withRoot root front more behind))
      (texts ++ .start (Utf8.decodeLossy name) attributes :: events) last := by
  have hlast := getLast?_slash_iff hroot [] more
  rw [List.nil_append] at hlast
  have htag := Xml.Markup.read_tag hroot.2.tagName h.ends
  rw [if_neg (mt hlast.1 hslash)] at htag
  have hevent := Xml.ofMarkup_startTag hroot.2.tagName hbehind []
  rw [hattributes] at hevent
  rw [withRoot_eq hroot, skipMark_append_cons]
  exact hfront.append (.markup htag hevent hreads)

/-- Behind the tag anything may stand, and blanks at its end may go. -/
theorem Outermost.exchange (h : Outermost root front more behind) {more' blanks : Bytes}
    (hmore : more = more' ++ blanks) (hblanks : ∀ b ∈ blanks, b ∉ [0x22, 0x27])
    (hbehind : BehindName more') (behind' : Bytes) : Outermost root front more' behind' where
  first := tokenIndex?_congr_behind hroot.tag h.first (startsToken_root hbehind behind')
  outer := h.outer
  plain := fun hmem => h.plain (by rw [hmore]; exact List.mem_append_left _ hmem)
  ends := by
    refine Xml.Markup.tagEnd?_of_append (y := blanks) hblanks (fun _ hq => nomatch hq) ?_
    rw [← List.append_assoc, ← hmore, h.ends, hmore, List.length_append]
  named := Or.inr hbehind

/-- Of a root without content the blanks behind the last attribute go. -/
theorem trimEnd_root {kept blanks : Bytes} (hblanks : ∀ b ∈ blanks, Xml.isBlank b = true)
    (hquote : ∀ b, kept.getLast? = some b → b = 0x22 ∨ b = 0x27) :
    Blank.trimEnd (front ++ Bytes.ofString root ++ (kept ++ blanks)) =
      front ++ Bytes.ofString root ++ kept := by
  obtain ⟨b, hb⟩ : ∃ b, (front ++ Bytes.ofString root ++ kept).getLast? = some b := by
    refine ⟨_, List.getLast?_eq_some_getLast ?_⟩
    rw [hroot.1]
    simp
  have hascii : Blank.IsAscii false b := by
    rw [List.getLast?_append] at hb
    cases hkept : kept.getLast? with
    | some q =>
      rw [hkept, Option.some_or, Option.some.injEq] at hb
      subst hb
      rcases hquote q hkept with rfl | rfl <;> decide
    | none =>
      obtain ⟨c, hc⟩ : ∃ c, name.getLast? = some c :=
        ⟨_, List.getLast?_eq_some_getLast hroot.2.1⟩
      rw [hkept, Option.none_or, hroot.1, List.getLast?_append, List.getLast?_cons, hc,
        Option.some_or, Option.some.injEq] at hb
      rw [← hb]
      exact (hroot.2.2 c (List.mem_of_getLast? hc)).1
  obtain ⟨x, hx⟩ := List.getLast?_eq_some_iff.1 hb
  have htrim := Blank.trimEnd_append x hascii fun c hc => Xml.isAscii_of_isBlank (hblanks c hc)
  rw [← List.append_assoc, hx, List.append_assoc, List.singleton_append, htrim]

/-- A rooted table that can be read is extended by a fragment of whole elements, and it stays
    rooted. -/
theorem exists_of_insertAfterRoot {text fragment : Bytes} (h : Rooted root text)
    {added : List Event} (hfragment : ∀ opened, Reads opened fragment added opened)
    {events : List Event} {last : Event.Open} (hreads : Reads [] (skipMark text) events last) :
    ∃ text' before events', insertAfterRoot root fragment text = .ok text' ∧ Rooted root text' ∧
      items events = items before ∧ Extended (Utf8.decodeLossy name) added before events' ∧
      Reads [] (skipMark text') events' last := by
  obtain ⟨front, more, behind, rfl, h⟩ := h
  obtain ⟨texts, attributes, events', hfront, htexts, hcases⟩ := exists_of_reads hroot h hreads
  rcases hcases with ⟨more', rfl, hbehind, hattributes, hbehindReads, hitems⟩ |
    ⟨hslash, hbehind, hattributes, hbehindReads, hitems⟩
  · -- The root has no content: blanks behind its attributes go, and it gets an end tag.
    obtain ⟨kept, blanks, rfl, hblanks, hquote, hkept⟩ := Xml.attributesFrom_trim hattributes
    have hkeptBehind : BehindName kept := by
      intro b hb
      exact hbehind b (by rw [List.head?_append, hb]; rfl)
    have hslash : kept.getLast? ≠ some '/'.toUInt8 := by
      intro heq
      rcases hquote _ heq with h' | h' <;> exact absurd h' (by decide)
    have hfree : ∀ b ∈ blanks ++ ['/'.toUInt8], b ∉ [0x22, 0x27] := by
      intro b hb
      rcases List.mem_append.1 hb with hb | hb
      · intro hmem
        rw [List.mem_cons, List.mem_singleton] at hmem
        have hblank := hblanks b hb
        rw [Xml.not_blank_of_quote hmem] at hblank
        cases hblank
      · rw [List.mem_singleton.1 hb]
        decide
    have hexchange := h.exchange hroot (List.append_assoc kept blanks _) hfree hkeptBehind
    let behind' := fragment ++ '<'.toUInt8 :: ('/'.toUInt8 :: (name ++ ['>'.toUInt8]) ++ behind)
    refine ⟨withRoot root front kept behind', _, _, ?_, ⟨_, _, _, rfl, hexchange _⟩, hitems,
      .expanded htexts, ?_⟩
    · rw [insertAfterRoot_eq hroot h, if_pos List.getLast?_concat, List.dropLast_concat,
        trimEnd_root hroot hblanks hquote, withRoot, List.append_assoc, List.append_assoc]
    · have hclose : Event.ofMarkup [name] (.endTag name) =
          .ok (some (.close (Utf8.decodeLossy name)), []) := by
        simp [Event.ofMarkup, Event.closeElement, Except.mapError, bind, Except.bind, pure,
          Except.pure]
      have hend := Reads.markup (Xml.Markup.read_endTag hroot.2.tagName) hclose hbehindReads
      exact reads_withRoot hroot hfront (hexchange behind') hkeptBehind hslash hkept
        ((hfragment _).append hend)
  · have hexchange := h.exchange hroot (List.append_nil more).symm (List.forall_mem_nil _) hbehind
      (fragment ++ behind)
    refine ⟨withRoot root front more (fragment ++ behind), _, _, ?_, ⟨_, _, _, rfl, hexchange⟩,
      hitems, .opened htexts, ?_⟩
    · rw [insertAfterRoot_eq hroot h, if_neg hslash]
    · exact reads_withRoot hroot hfront hexchange hbehind hslash hattributes
        ((hfragment _).append hbehindReads)

/-- The entries of a fragment are put before those of the table, which stays rooted. -/
theorem entries_insertAfterRoot {element : String}
    (helement : localName (Utf8.decodeLossy name) ≠ element) {text fragment : Bytes}
    (h : Rooted root text) {events : List Event}
    (hfragment : ∀ opened, Reads opened fragment events opened)
    {old : List (List (String × String))} (hold : entries element text = .ok old) :
    ∃ text', insertAfterRoot root fragment text = .ok text' ∧ Rooted root text' ∧
      entries element text' = .ok (events.filterMap (attributesOf? element) ++ old) := by
  obtain ⟨allEvents, last, hreads, rfl⟩ := entries_eq_ok_iff.1 hold
  obtain ⟨text', before, events', hinsert, hrooted, hitems, hextended, hreads'⟩ :=
    exists_of_insertAfterRoot hroot h hfragment hreads
  refine ⟨text', hinsert, hrooted, entries_eq_ok_iff.2 ⟨events', last, hreads', ?_⟩⟩
  rw [hextended.filterMap_eq helement, filterMap_congr_items hitems]

/-- A well-formed table stays well-formed. -/
theorem check_insertAfterRoot {text fragment : Bytes} (h : Rooted root text) {events : List Event}
    (hfragment : ∀ opened, Reads opened fragment events opened)
    (hnested : ∀ n : Xml.Nesting, n.opened ≠ [] → events.foldlM Xml.Nesting.step n = .ok n)
    (hcheck : Xml.check text = .ok ()) :
    ∃ text', insertAfterRoot root fragment text = .ok text' ∧ Xml.check text' = .ok () := by
  obtain ⟨allEvents, hreads, hfold⟩ := Xml.check_eq_ok_iff.1 hcheck
  obtain ⟨text', before, events', hinsert, -, hitems, hextended, hreads'⟩ :=
    exists_of_insertAfterRoot hroot h hfragment hreads
  refine ⟨text', hinsert, Xml.check_eq_ok_iff.2 ⟨events', hreads', ?_⟩⟩
  rw [hextended.nesting_eq hnested, ← Xml.foldlM_items, ← hitems, Xml.foldlM_items, hfold]

end

end DocxTemplate.Table

namespace DocxTemplate

open Xml (Reads)

/-! ## Relationships -/

namespace Relationship

theorem rootName : Table.RootName root (Bytes.ofString "Relationships") := by decide +kernel

/-- The attributes of a relationship, as they are written. -/
def attributes (r : Relationship) : List (String × String) :=
  [("Id", r.id), ("Type", r.kind), ("Target", r.target)]

theorem ofAttributes_attributes (r : Relationship) : ofAttributes r.attributes = r := by
  have hid : Table.attribute? r.attributes "Id" = some r.id := rfl
  have hkind : Table.attribute? r.attributes "Type" = some r.kind := rfl
  have htarget : Table.attribute? r.attributes "Target" = some r.target := rfl
  rw [ofAttributes, hid, hkind, htarget]
  rfl

theorem element_eq (r : Relationship) :
    r.element = '<'.toUInt8 :: Xml.writeElement (Bytes.ofString "Relationship") r.attributes := by
  have hfront : Bytes.ofString "<Relationship" = '<'.toUInt8 :: Bytes.ofString "Relationship" := by
    decide
  have hend : Bytes.ofString "/>" = ['/'.toUInt8, '>'.toUInt8] := by decide
  rw [element, hfront, hend, Xml.writeElement]
  simp [Xml.writeAttributes, attributes]

/-- A relationship that is written is read back, inside any elements. -/
theorem reads_element (r : Relationship) (opened : Xml.Event.Open) :
    Reads opened r.element [.empty "Relationship" r.attributes] opened := by
  have hname : Xml.PlainName (Bytes.ofString "Relationship") := by decide +kernel
  have hkeys : Xml.PlainKeys ["Id", "Type", "Target"] := by decide +kernel
  have hdecode : Utf8.decodeLossy (Bytes.ofString "Relationship") = "Relationship" := by
    decide +kernel
  have hreads := Xml.reads_writeElement hname.tagName r.attributes hkeys opened
  rwa [hdecode, ← element_eq] at hreads

theorem readAll_eq_ok_iff {source : Bytes} {l : List Relationship} :
    readAll source = .ok l ↔
      ∃ entries, Table.entries "Relationship" source = .ok entries ∧ entries.map ofAttributes = l := by
  rw [readAll]
  cases Table.entries "Relationship" source with
  | error fault => simp [Except.map]
  | ok entries => simp [Except.map]

/-- A relationship is put before those that a part has. -/
theorem readAll_insertAfterRoot {text : Bytes} (h : Table.Rooted root text)
    {old : List Relationship} (hold : readAll text = .ok old) (r : Relationship) :
    ∃ text', Table.insertAfterRoot root r.element text = .ok text' ∧ Table.Rooted root text' ∧
      readAll text' = .ok (r :: old) := by
  have hroot : Table.localName (Utf8.decodeLossy (Bytes.ofString "Relationships")) ≠
      "Relationship" := by decide +kernel
  obtain ⟨entries, hentries, rfl⟩ := readAll_eq_ok_iff.1 hold
  obtain ⟨text', hinsert, hrooted, hentries'⟩ :=
    Table.entries_insertAfterRoot rootName hroot h r.reads_element hentries
  refine ⟨text', hinsert, hrooted, readAll_eq_ok_iff.2 ⟨_, hentries', ?_⟩⟩
  rw [List.map_append]
  exact congrArg (· :: _) r.ofAttributes_attributes

/-- The part that is started for a document without relationships. -/
theorem rooted_emptyPart : Table.Rooted root emptyPart ∧ readAll emptyPart = .ok [] := by
  have hparts : emptyPart = Table.withRoot root
      (Bytes.ofString "<?xml version=\"1.0\" encoding=\"UTF-8\" standalone=\"yes\"?>\r\n")
      (Bytes.ofString " xmlns=\"http://schemas.openxmlformats.org/package/2006/relationships\"")
      (Bytes.ofString "</Relationships>") := by
    simp only [emptyPart, Table.withRoot, root, Bytes.ofString, String.toList_append,
      String.reduceToList]
    decide
  have houtermost : Table.Outermost root
      (Bytes.ofString "<?xml version=\"1.0\" encoding=\"UTF-8\" standalone=\"yes\"?>\r\n")
      (Bytes.ofString " xmlns=\"http://schemas.openxmlformats.org/package/2006/relationships\"")
      (Bytes.ofString "</Relationships>") := by
    simp only [Bytes.ofString, String.reduceToList]
    refine ⟨?_, ⟨[.text "\r\n"], Xml.reads_of_readThrough ?_, by simp⟩, ?_, ?_, Or.inr ?_⟩
    · simp only [Table.withRoot, root, Bytes.ofString, String.reduceToList]
      decide +kernel
    · decide +kernel
    · decide +kernel
    · decide +kernel
    · unfold Xml.BehindName
      decide +kernel
  refine ⟨⟨_, _, _, hparts, houtermost⟩, ?_⟩
  rw [hparts]
  simp only [readAll, Table.withRoot, root, Bytes.ofString, String.reduceToList]
  decide +kernel

end Relationship

/-! ## Content types -/

namespace ContentTypes

theorem rootName : Table.RootName root (Bytes.ofString "Types") := by decide +kernel

theorem element_eq (extension type : String) :
    element extension type = '<'.toUInt8 ::
      Xml.writeElement (Bytes.ofString "Default")
        [("Extension", extension), ("ContentType", type)] := by
  have hfront : Bytes.ofString "<Default" = '<'.toUInt8 :: Bytes.ofString "Default" := by
    decide
  have hend : Bytes.ofString "/>" = ['/'.toUInt8, '>'.toUInt8] := by decide
  rw [element, hfront, hend, Xml.writeElement]
  simp [Xml.writeAttributes]

/-- A declaration that is written is read back, inside any elements. -/
theorem reads_element (extension type : String) (opened : Xml.Event.Open) :
    Reads opened (element extension type)
      [.empty "Default" [("Extension", extension), ("ContentType", type)]] opened := by
  have hname : Xml.PlainName (Bytes.ofString "Default") := by decide +kernel
  have hkeys : Xml.PlainKeys ["Extension", "ContentType"] := by decide +kernel
  have hdecode : Utf8.decodeLossy (Bytes.ofString "Default") = "Default" := by decide +kernel
  have hreads := Xml.reads_writeElement hname.tagName
    [("Extension", extension), ("ContentType", type)] hkeys opened
  rwa [hdecode, ← element_eq] at hreads

end ContentTypes

end DocxTemplate
