import DocxTemplate.Proofs.Sanitize.Spelling

/-! # Character data

    The passes that delete markers and revision attributes know nothing of portions: they look
    for a spelling, and for the next `>`. The character data of a text stay as they are if its
    portions show the markers and the attributes for what they are.

    * `behind_tags` and `split_at_tag`: tags are whole portions.
    * `delete_marker`, `delete_property` and `delete_attribute`: each kind of deletion leaves the
      character data as they were.
    * `Cut.Keeps` and `portioned_of_cutting`: so do many deletions, and the mark before the text
      stays what it is.
    * `characterData_of_shown`: the character data of a sanitized text are those of the text.
    * `not_forall_characterData`: without the conditions both passes delete from character data.
-/

namespace DocxTemplate.Sanitize

open Xml
open Xml.Event (byteOrderMark skipMark)
open Xml.Markup (quoteBehind IsTagBody OpensAsTag)

/-! ## Tags -/

section

variable {P : Bytes → Prop} {chars : List Char} {name : String} {before tail after : Bytes}

/-- A tag that portions spell only at their start splits a text between two portions. -/
theorem split_at_tag (h : Portioned P (before ++ tail) chars)
    (hname : Unended (Bytes.ofString name)) (hP : ∀ portion, P portion → TagOnlyAtStart name portion)
    (hs : StartsToken ('<'.toUInt8 :: Bytes.ofString name) tail) :
    ∃ chars₁ chars₂, chars = chars₁ ++ chars₂ ∧ Portioned P before chars₁ ∧
      Portioned P tail chars₂ := by
  obtain ⟨tail, rfl⟩ := List.head?_eq_some_iff.1 hs.head?_eq
  obtain ⟨front, part, body, rest, chars₁, chars₂, rfl, rfl, hfront, hportion, heq, fits⟩ :=
    h.split_at_lt
  -- The tag is spelled in the portion that reaches across, so it starts there.
  have hinside : StartsToken ('<'.toUInt8 :: Bytes.ofString name) (body ++ ['>'.toUInt8]) := by
    rw [heq] at hs
    exact startsToken_of_seam (unended_tag hname) ⟨_, rfl, by decide⟩ ⟨_, rfl, by decide⟩ hs
  have hstart := hP _ fits
  rw [TagOnlyAtStart, everywhere_iff] at hstart
  obtain rfl := hstart part _ rfl (List.append_ne_nil_of_right_ne_nil _ (by simp)) hinside
  refine ⟨chars₁, chars₂, rfl, ?_, hportion⟩
  rw [List.append_nil]
  exact hfront

/-- Behind some tags the next portion begins. -/
theorem behind_tags {bodies : List Bytes} (h : Portioned P (bodies.flatMap tag ++ after) chars)
    (hbodies : ∀ body ∈ bodies, IsTagBody body) : Portioned P after chars := by
  induction bodies with
  | nil => exact h
  | cons body bodies ih =>
    rw [List.forall_mem_cons] at hbodies
    rw [List.flatMap_cons, List.append_assoc, tag, List.cons_append, List.append_assoc] at h
    exact ih (h.behind_tag hbodies.1) hbodies.2

/-- Where nothing is asked of character data, tags that portions spell only at their start may be
    deleted. -/
theorem delete_tags {bodies : List Bytes}
    (h : Portioned P (before ++ (bodies.flatMap tag ++ after)) chars)
    (hdata : ∀ data, '<'.toUInt8 ∉ data → P data) (hname : Unended (Bytes.ofString name))
    (hP : ∀ portion, P portion → TagOnlyAtStart name portion)
    (hs : StartsToken ('<'.toUInt8 :: Bytes.ofString name) (bodies.flatMap tag ++ after))
    (hbodies : ∀ chars', Portioned P (bodies.flatMap tag ++ after) chars' →
      ∀ body ∈ bodies, IsTagBody body) : Portioned P (before ++ after) chars := by
  obtain ⟨chars₁, chars₂, rfl, hbefore, htail⟩ := split_at_tag h hname hP hs
  exact hbefore.append_of_data hdata (behind_tags htail (hbodies _ htail))

/-- If the first `>` of the portion that starts with a tag is its end, no quotes are open at the
    first `>` of the tag. -/
theorem quoteBehind_of_first {body : Bytes}
    (h : Portioned P ('<'.toUInt8 :: (body ++ '>'.toUInt8 :: after)) chars)
    (opens : OpensAsTag body) (hbody : '>'.toUInt8 ∉ body)
    (first : ∀ portion, P portion → tag body <+: portion → '>'.toUInt8 ∉ portion.dropLast) :
    quoteBehind none body = none := by
  obtain ⟨written, rest, m, chars', heq, -, taken, fits, -⟩ := h.markup_inv
  obtain ⟨body', rfl⟩ := Markup.exists_of_read taken
  rw [List.append_assoc] at heq
  obtain ⟨between, rfl, hbetween⟩ := exists_eq_append_of_gt hbody heq
  -- A second `>` would stand in the portion before its end.
  obtain rfl : between = [] := by
    cases between with
    | nil => rfl
    | cons b between =>
      obtain ⟨rfl, -⟩ := List.cons.inj hbetween
      have hprefix : tag body <+:
          '<'.toUInt8 :: (body ++ '>'.toUInt8 :: between ++ ['>'.toUInt8]) :=
        ⟨between ++ ['>'.toUInt8], by simp [tag]⟩
      have hfree := first _ fits hprefix
      rw [← List.cons_append, List.dropLast_concat] at hfree
      exact absurd (by simp) hfree
  rw [List.append_nil] at taken
  have hend := (Markup.read_tag_iff (opens.before_gt [])).1 ⟨m, taken⟩
  rw [Markup.tagEnd?_append_of_not_mem hbody] at hend
  cases hquote : quoteBehind none body with
  | none => rfl
  | some q =>
    rw [hquote] at hend
    cases hend

end

/-! ## Markers -/

/-- A portion shows all markers with these names for what they are. -/
def ShowsMarkers (names : List String) (portion : Bytes) : Prop :=
  ∀ name ∈ names, ShowsMarker name portion

instance (names : List String) (portion : Bytes) : Decidable (ShowsMarkers names portion) :=
  inferInstanceAs (Decidable (∀ name ∈ names, _))

theorem isTagBody_close {name : Bytes} (h : IsWord name) : IsTagBody ('/'.toUInt8 :: name) := by
  constructor
  · intro b hb
    rw [← Option.some.inj hb]
    decide
  · rw [List.mem_cons, not_or]
    exact ⟨by decide, h.unbracketed.2⟩
  · refine Markup.quoteBehind_of_not_mem ?_ (fun q hq => by cases hq)
    intro b hb
    rcases List.mem_cons.1 hb with rfl | hb
    · decide
    · exact h.ne_quote b hb

/-- A marker that is deleted is a tag, and perhaps the end tag behind it. The tag starts with the
    name of the marker. -/
theorem exists_bodies_of_marker {names : List String}
    (hnames : ∀ name ∈ names, PlainName name ∧ OpensAsTag (Bytes.ofString name)) {c : Cut}
    (hc : OfMarker names c) : ∃ name ∈ names, ∃ body closing,
      c.removed = (body :: closing).flatMap tag ∧ OpensAsTag body ∧ '>'.toUInt8 ∉ body ∧
      (∀ body ∈ closing, IsTagBody body) ∧
      ∀ rest, StartsToken ('<'.toUInt8 :: Bytes.ofString name) (tag body ++ rest) := by
  obtain ⟨name, known, attributes, hgt, hends, hform⟩ := hc
  obtain ⟨hplain, hopens⟩ := hnames name known
  have hword := hplain.isWord
  have hfirst : OpensAsTag (Bytes.ofString name ++ attributes) := by
    intro b hb
    rw [List.head?_append_of_ne_nil _ hplain.1] at hb
    exact hopens b hb
  have hbody : '>'.toUInt8 ∉ Bytes.ofString name ++ attributes := by
    rw [List.mem_append, not_or]
    exact ⟨hword.unbracketed.2, hgt⟩
  have hstarts : ∀ rest, StartsToken ('<'.toUInt8 :: Bytes.ofString name)
      (tag (Bytes.ofString name ++ attributes) ++ rest) := by
    intro rest
    rw [tag, List.append_assoc, ← List.cons_append, List.append_assoc, StartsToken.append_iff]
    exact hends.append rest
  have hgreater : Bytes.ofString ">" = ['>'.toUInt8] := by decide
  have hclose : Bytes.ofString "></" = ['>'.toUInt8, '<'.toUInt8, '/'.toUInt8] := by decide
  refine ⟨name, known, Bytes.ofString name ++ attributes, ?_⟩
  rcases hform with ⟨-, hremoved⟩ | hremoved
  · refine ⟨[], hremoved.trans ?_, hfirst, hbody, by simp, hstarts⟩
    simp [tag, hgreater]
  · refine ⟨['/'.toUInt8 :: Bytes.ofString name], hremoved.trans ?_, hfirst, hbody, ?_, hstarts⟩
    · simp [tag, hgreater, hclose]
    · intro body hbody'
      rw [List.mem_singleton.1 hbody']
      exact isTagBody_close hword

/-- A marker that is deleted takes no character data with it. -/
theorem delete_marker {names : List String}
    (hnames : ∀ name ∈ names, PlainName name ∧ OpensAsTag (Bytes.ofString name)) {c : Cut}
    (hc : OfMarker names c) {before : Bytes} {chars : List Char}
    (h : Portioned (ShowsMarkers names) (before ++ (c.removed ++ c.after)) chars) :
    Portioned (ShowsMarkers names) (before ++ c.after) chars := by
  obtain ⟨name, known, body, closing, hremoved, hopens, hbody, hclosing, hstarts⟩ :=
    exists_bodies_of_marker hnames hc
  rw [hremoved] at h
  refine delete_tags h (fun data hdata name _ => showsMarker_data hdata)
    (hnames name known).1.isWord.unended (fun portion hportion => (hportion name known).1) ?_ ?_
  · rw [List.flatMap_cons, List.append_assoc]
    exact hstarts _
  · intro chars' htail
    rw [List.forall_mem_cons]
    refine ⟨⟨hopens, hbody, ?_⟩, hclosing⟩
    rw [List.flatMap_cons, List.append_assoc, tag, List.cons_append, List.append_assoc] at htail
    refine quoteBehind_of_first htail hopens hbody ?_
    intro portion hportion hprefix
    obtain ⟨rest, hrest⟩ := hprefix
    apply (hportion name known).2
    rw [← hrest]
    exact hstarts rest

/-! ## Properties -/

/-- The names of the elements that the empty forms are forms of. -/
def propertyNames : List String := ["w:rPr", "w:pPr"]

theorem unended_propertyName {name : String} (h : name ∈ propertyNames) :
    Unended (Bytes.ofString name) := by
  revert name
  decide +kernel

/-- A portion shows the tags of property elements for what they are. -/
def ShowsProperties (portion : Bytes) : Prop := ∀ name ∈ propertyNames, TagOnlyAtStart name portion

instance (portion : Bytes) : Decidable (ShowsProperties portion) :=
  inferInstanceAs (Decidable (∀ name ∈ propertyNames, _))

/-- An empty form is an empty tag, or a start tag and its end tag. -/
theorem exists_bodies_of_emptyForm {form : String} (h : form ∈ emptyForms) :
    ∃ name ∈ propertyNames, ∃ bodies, Bytes.ofString form = List.flatMap tag bodies ∧
      (∀ body ∈ bodies, IsTagBody body) ∧
      StartsToken ('<'.toUInt8 :: Bytes.ofString name) (Bytes.ofString form) := by
  have hforms : ∀ form ∈ emptyForms, ∃ name ∈ propertyNames,
      ∃ bodies ∈ [[Bytes.ofString (name ++ "/")], [Bytes.ofString name, Bytes.ofString ("/" ++ name)]],
        Bytes.ofString form = List.flatMap tag bodies ∧ (∀ body ∈ bodies, IsTagBody body) ∧
        StartsToken ('<'.toUInt8 :: Bytes.ofString name) (Bytes.ofString form) := by
    decide +kernel
  obtain ⟨name, hname, bodies, -, hform⟩ := hforms form h
  exact ⟨name, hname, bodies, hform⟩

/-- Empty properties that are deleted take no character data with them. -/
theorem delete_property {c : Cut} (hc : OfProperty c) {before : Bytes} {chars : List Char}
    (h : Portioned ShowsProperties (before ++ (c.removed ++ c.after)) chars) :
    Portioned ShowsProperties (before ++ c.after) chars := by
  obtain ⟨form, hform, hremoved⟩ := hc
  obtain ⟨name, known, bodies, hbodies, htags, b, rest, hstarts, hends⟩ :=
    exists_bodies_of_emptyForm hform
  have hname := unended_propertyName known
  rw [hremoved, hbodies] at h
  refine delete_tags h (fun data hdata name _ => (showsMarker_data hdata).1) hname
    (fun portion hportion => hportion name known) ?_ (fun _ _ => htags)
  rw [← hbodies, hstarts]
  exact ⟨b, rest ++ c.after, by simp, hends⟩

/-! ## Attributes -/

/-- A portion shows all attributes with these names for what they are, and property elements as
    well. -/
def ShowsAttributes (names : List String) (portion : Bytes) : Prop :=
  (∀ name ∈ names, ShowsAttribute name portion) ∧ ShowsProperties portion

instance (names : List String) (portion : Bytes) : Decidable (ShowsAttributes names portion) :=
  inferInstanceAs (Decidable (_ ∧ _))

/-- A tag that is nothing but an attribute stands in no text whose portions show the attribute. -/
theorem not_portioned_bareTag {name : String} (hname : IsWord (Bytes.ofString name))
    {P : Bytes → Prop} (hP : ∀ portion, P portion → ShowsAttribute name portion)
    {before rest : Bytes} {chars : List Char} :
    ¬ Portioned P (before ++ '<'.toUInt8 :: (attributeToken name ++ rest)) chars := by
  intro h
  obtain ⟨front, part, body, rest', chars₁, chars₂, -, -, -, -, heq, fits⟩ := h.split_at_lt
  have hunnamed := (hP _ fits).unnamed
  rw [everywhere_iff] at hunnamed
  apply hunnamed part _ rfl (List.append_ne_nil_of_right_ne_nil _ (by simp))
  have hprefix : '<'.toUInt8 :: attributeToken name <+: body ++ ('>'.toUInt8 :: rest') :=
    ⟨rest, heq⟩
  have hword := unended_tag (unended_attributeToken hname)
  exact (prefix_of_seam hword ⟨_, rfl, by decide⟩ hprefix).trans (List.prefix_append _ _)

section

variable {names : List String} {name : String} {blanks value : Bytes}

/-- The white space before an attribute, its name and its value. -/
def spelled (blanks : Bytes) (name : String) (value : Bytes) : Bytes :=
  blanks ++ (attributeToken name ++ value)

theorem unbracketed_spelled (hname : IsWord (Bytes.ofString name))
    (hblanks : ∀ b ∈ blanks, isSpace b = true) (plain : Unbracketed value) :
    Unbracketed (spelled blanks name value) := by
  have hequals : Unbracketed ['='.toUInt8] := by decide
  have hspace : Unbracketed blanks := by
    constructor
    · intro hmem
      exact absurd (hblanks _ hmem) (by decide)
    · intro hmem
      exact absurd (hblanks _ hmem) (by decide)
  exact hspace.append ((hname.unbracketed.append hequals).append plain)

theorem quoteBehind_spelled (hname : IsWord (Bytes.ofString name))
    (hblanks : ∀ b ∈ blanks, isSpace b = true) (quoted : Quoted value) :
    quoteBehind none (spelled blanks name value) = none := by
  rw [spelled, ← List.append_assoc, Markup.quoteBehind_append,
    quoteBehind_attributeToken hname hblanks, quoteBehind_quoted quoted]

theorem nameEnds_spelled (hne : blanks ≠ []) (hblanks : ∀ b ∈ blanks, isSpace b = true) :
    NameEnds (spelled blanks name value) := by
  obtain ⟨b, blanks, rfl⟩ := List.exists_cons_of_ne_nil hne
  have hspace := hblanks b List.mem_cons_self
  exact ⟨b, rfl, by simp [endsName, hspace]⟩

/-- Where a tag shows an attribute, the attribute may be deleted from it: it stands behind the
    name of the tag and outside quotes, and what is left shows all the others. -/
theorem ShowsAttributes.delete {part rest : Bytes}
    (h : ShowsAttributes names (part ++ (spelled blanks name value ++ rest)))
    (hnames : ∀ name ∈ names, IsWord (Bytes.ofString name)) (known : name ∈ names)
    (hhead : part.head? = some '<'.toUInt8) (hne : blanks ≠ [])
    (hblanks : ∀ b ∈ blanks, isSpace b = true) (quoted : Quoted value) :
    IsNamedTag part ∧ quoteBehind none part = none ∧ ShowsAttributes names (part ++ rest) := by
  have hplace := (h.1 name known).markup (by rw [List.head?_append, hhead]; rfl)
  simp only [spelled, List.append_assoc] at hplace
  obtain ⟨before, b, hlast, hshown, hspells⟩ := hplace.at_spelled hne hblanks
  obtain ⟨hnamed, hquote, hvalue⟩ := hshown hspells
  have hpart : IsNamedTag part := by
    match part, hhead with
    | [_], _ =>
      -- White space would stand before the name.
      obtain ⟨c, blanks, rfl⟩ := List.exists_cons_of_ne_nil hne
      have hspace := hblanks c List.mem_cons_self
      rw [hnamed.2] at hspace
      exact Bool.noConfusion hspace
    | _ :: _ :: _, _ => exact hnamed
  have hbefore : quoteBehind none part = none := by
    have hall : ∀ c ∈ before, isSpace c = true := fun c hc =>
      hblanks c (hlast ▸ List.mem_append_left _ hc)
    exact (quoteBehind_blanks hall part).symm.trans hquote
  have hrest : NameEnds rest := by
    rw [drop_attributeToken] at hvalue
    have hends := hvalue _ (quotedLength?_of_quoted quoted rest)
    rwa [List.drop_left] at hends
  have hquote' := quoteBehind_spelled (hnames name known) hblanks quoted
  refine ⟨hpart, hbefore, ?_, ?_⟩
  · intro name' hname'
    exact (h.1 name' hname').delete (hnames name' hname') hhead hpart hbefore hquote' hrest
  · intro name' hname'
    have hunended := unended_propertyName hname'
    apply (h.2 name' hname').delete hunended _ (nameEnds_spelled hne hblanks) hrest
    intro hnil
    rw [hnil] at hhead
    cases hhead

/-- Behind what seems to be an attribute in character data stands no `>` in the same data. -/
theorem ShowsAttributes.not_mem_gt {part rest : Bytes}
    (h : ShowsAttributes names (part ++ (spelled blanks name value ++ rest)))
    (known : name ∈ names) (data : '<'.toUInt8 ∉ part ++ (spelled blanks name value ++ rest))
    (hne : blanks ≠ []) (hblanks : ∀ b ∈ blanks, isSpace b = true) : '>'.toUInt8 ∉ rest := by
  have hdata := (h.1 name known).data fun hhead => data (List.mem_of_mem_head? hhead)
  simp only [spelled, List.append_assoc] at hdata
  obtain ⟨-, b, -, hplace, hspells⟩ := hdata.at_spelled hne hblanks
  intro hgt
  exact hplace hspells (by simp [hgt])

/-- An attribute that is deleted from a tag takes no character data with it, and what seems to be
    an attribute in character data is not deleted. -/
theorem delete_inTag (hnames : ∀ name ∈ names, IsWord (Bytes.ofString name)) (known : name ∈ names)
    {before inner rest : Bytes} (hne : blanks ≠ []) (hblanks : ∀ b ∈ blanks, isSpace b = true)
    (quoted : Quoted value) (plain : Unbracketed value) (inside : Unbracketed inner)
    {chars : List Char}
    (h : Portioned (ShowsAttributes names)
      (before ++ (spelled blanks name value ++ (inner ++ '>'.toUInt8 :: rest))) chars) :
    Portioned (ShowsAttributes names) (before ++ (inner ++ '>'.toUInt8 :: rest)) chars := by
  have hword := hnames name known
  obtain ⟨hlt, hgt⟩ := unbracketed_spelled hword hblanks plain
  obtain ⟨front, part, chars₁, chars₂, rfl, rfl, hfront, hreaches⟩ :=
    h.split (by simp [spelled, hne])
  cases hreaches with
  | @data more rest' s chars parts reaches plain' ends read fits next =>
    -- The `>` behind the attribute stands in the character data.
    exfalso
    have hfree : '<'.toUInt8 ∉ spelled blanks name value ++ (inner ++ ['>'.toUInt8]) := by
      simp only [List.mem_append, List.mem_singleton, not_or]
      exact ⟨hlt, inside.1, by decide⟩
    have hwhole : spelled blanks name value ++ (inner ++ ['>'.toUInt8]) ++ rest = more ++ rest' := by
      rw [← parts]
      simp
    obtain ⟨more', rfl, -⟩ := ends.exists_of_append hfree hwhole
    rw [List.append_assoc (spelled blanks name value)] at plain' fits
    exact fits.not_mem_gt known plain' hne hblanks (by simp)
  | @markup written more rest' m chars whole parts reaches taken fits next =>
    obtain ⟨body, rfl⟩ := Portioned.exists_of_reaches whole reaches taken
    -- The attribute holds no `>`, so it ends in the tag.
    obtain ⟨between, rfl, hbetween⟩ : ∃ between, body = spelled blanks name value ++ between ∧
        inner ++ '>'.toUInt8 :: rest = between ++ '>'.toUInt8 :: rest' := by
      apply exists_eq_append_of_gt hgt
      rw [parts, List.append_assoc]
      rfl
    -- It holds no `<` either, so the tag starts before it.
    have hpart : part ≠ [] := by
      rintro rfl
      obtain ⟨b, blanks, rfl⟩ := List.exists_cons_of_ne_nil hne
      exact hlt (by simp [spelled, (List.cons.inj whole).1])
    obtain ⟨b, tail, rfl⟩ := List.exists_cons_of_ne_nil hpart
    rw [List.cons_append, List.cons.injEq, ← List.append_assoc tail] at whole
    obtain ⟨rfl, rfl⟩ := whole
    rw [List.append_assoc tail, List.append_assoc, ← List.cons_append] at fits
    obtain ⟨hnamed, hquote, hleft⟩ := fits.delete hnames known rfl hne hblanks quoted
    obtain ⟨htail, hopens⟩ := hnamed.opens
    obtain ⟨m', htaken, hchars⟩ := Markup.read_delete htail hopens hquote hgt
      (quoteBehind_spelled hword hblanks quoted) taken
    rw [hbetween, ← hchars, List.append_assoc front]
    have hwhole := Portioned.markup htaken (by simpa using hleft) next
    refine hfront.append ?_ ?_
    · simpa using hwhole
    · intro b hb
      exact (Option.some.inj hb).symm

/-- The same for attributes in either place, where portions show that there are none in the second
    one. -/
theorem delete_attribute (hnames : ∀ name ∈ names, IsWord (Bytes.ofString name)) {c : Cut}
    (hc : OfAttribute names c) {before : Bytes} {chars : List Char}
    (h : Portioned (ShowsAttributes names) (before ++ (c.removed ++ c.after)) chars) :
    Portioned (ShowsAttributes names) (before ++ c.after) chars := by
  cases hc with
  | inTag known unspaced blank quoted plain inside =>
    exact delete_inTag hnames known blank.1 blank.2 quoted plain inside h
  | @bareTag name front value blanks ending after known quoted blank ends =>
    have hshows : ∀ portion, ShowsAttributes names portion → ShowsAttribute name portion :=
      fun portion hportion => hportion.1 name known
    simp only [List.cons_append, List.append_assoc] at h
    exact absurd h (not_portioned_bareTag (hnames name known) hshows)

end

/-! ## Many deletions -/

section

variable {P : Bytes → Prop} {text last : Bytes} {chars : List Char}

/-- Wherever the deleted span stands, the character data stay as they were and the portions keep
    their property. The span does not begin like the mark before a text. -/
structure Cut.Keeps (P : Bytes → Prop) (c : Cut) : Prop where
  unmarked : ∃ b rest, c.removed = b :: rest ∧ b ∉ byteOrderMark
  portioned : ∀ {before chars}, Portioned P (before ++ (c.removed ++ c.after)) chars →
    Portioned P (before ++ c.after) chars

/-- The mark before a text stays, and none comes into being. -/
theorem Cut.Keeps.behind_mark {c : Cut} (hc : c.Keeps P) (hmark : chars.head? ≠ some '\uFEFF')
    (h : Portioned P (skipMark c.whole) chars) : Portioned P (skipMark c.rest) chars := by
  have hskip : ∀ x, skipMark (byteOrderMark ++ x) = x := by
    intro x
    rw [skipMark, if_pos (List.isPrefixOf_iff_prefix.2 (List.prefix_append _ _)), List.drop_left]
  rw [Cut.whole, List.append_assoc] at h
  by_cases hpre : byteOrderMark <+: c.before ++ (c.removed ++ c.after)
  · obtain ⟨x, hx⟩ := hpre
    -- The deletion starts behind the mark.
    obtain ⟨more, hbefore, rfl⟩ : ∃ more, c.before = byteOrderMark ++ more ∧
        x = more ++ (c.removed ++ c.after) := by
      rcases place_in_append hx.symm with hbehind | ⟨more, hne, hinside, hmore⟩
      · exact hbehind
      · obtain ⟨b, rest, hremoved, hb⟩ := hc.unmarked
        obtain ⟨d, more, rfl⟩ := List.exists_cons_of_ne_nil hne
        rw [hremoved, List.cons_append, List.cons_append, List.cons.injEq] at hmore
        exact absurd (by rw [hinside, hmore.1]; simp) hb
    rw [← hx, hskip] at h
    rw [Cut.rest, hbefore, List.append_assoc, hskip]
    exact hc.portioned h
  · have hsame : skipMark (c.before ++ (c.removed ++ c.after)) =
        c.before ++ (c.removed ++ c.after) := by
      rw [skipMark, if_neg (by rwa [List.isPrefixOf_iff_prefix])]
    rw [hsame] at h
    have hrest := hc.portioned h
    rw [Cut.rest, hrest.skipMark_eq hmark]
    exact hrest

/-- Deletions that keep the character data one by one keep it all together. -/
theorem portioned_of_cutting {cuts : List Cut} (hcutting : Cutting text cuts last)
    (hcuts : ∀ c ∈ cuts, c.Keeps P) (hmark : chars.head? ≠ some '\uFEFF')
    (h : Portioned P (skipMark text) chars) : Portioned P (skipMark last) chars := by
  induction hcutting with
  | nil => exact h
  | cons next ih =>
    rw [List.forall_mem_cons] at hcuts
    exact ih hcuts.2 (hcuts.1.behind_mark hmark h)

theorem keeps_marker {names : List String}
    (hnames : ∀ name ∈ names, PlainName name ∧ OpensAsTag (Bytes.ofString name)) {c : Cut}
    (hc : OfMarker names c) : c.Keeps (ShowsMarkers names) := by
  refine ⟨?_, fun h => delete_marker hnames hc h⟩
  obtain ⟨name, -, attributes, -, -, ⟨-, hremoved⟩ | hremoved⟩ := hc
  · exact ⟨_, _, hremoved, by decide⟩
  · exact ⟨_, _, hremoved, by decide⟩

theorem keeps_property {c : Cut} (hc : OfProperty c) : c.Keeps ShowsProperties := by
  refine ⟨?_, fun h => delete_property hc h⟩
  obtain ⟨form, hform, hremoved⟩ := hc
  have hfirst : ∀ form ∈ emptyForms, (Bytes.ofString form).head? = some '<'.toUInt8 := by
    decide +kernel
  obtain ⟨rest, hrest⟩ := List.head?_eq_some_iff.1 (hfirst form hform)
  exact ⟨_, rest, hremoved.trans hrest, by decide⟩

theorem keeps_attribute {names : List String}
    (hnames : ∀ name ∈ names, IsWord (Bytes.ofString name)) {c : Cut} (hc : OfAttribute names c) :
    c.Keeps (ShowsAttributes names) := by
  refine ⟨?_, fun h => delete_attribute hnames hc h⟩
  cases hc with
  | @inTag name before blanks value inner rest known unspaced blank quoted plain inside =>
    obtain ⟨b, blanks, rfl⟩ := List.exists_cons_of_ne_nil blank.1
    have hspace := blank.2 b List.mem_cons_self
    refine ⟨b, _, rfl, ?_⟩
    have hmark : ∀ b ∈ byteOrderMark, isSpace b = false := by decide +kernel
    intro hb
    rw [hmark b hb] at hspace
    exact Bool.noConfusion hspace
  | bareTag known quoted blank ends => exact ⟨_, _, rfl, by decide⟩

end

/-! ## The passes -/

/-- If the portions of a well-formed text show the default markers for what they are, and the text
    does not begin with the character of the mark before a text, then removing the markers keeps
    its character data, provided that the result can be read. The same holds of the default
    revision attributes. A `>` may stand in character data and in values, and a character section
    may hold any markup but these. -/
theorem characterData_of_shown {text : Bytes} (sound : check text = .ok ())
    (unmarked : ∀ chars, characterData text = .ok chars → chars.head? ≠ some '\uFEFF') :
    ((∀ portion ∈ portions (skipMark text), ShowsMarkers defaultTags portion) →
      ∀ chars, characterData (removeMarkers defaultTags text).text = .ok chars →
        characterData text = .ok chars) ∧
    ((∀ portion ∈ portions (skipMark text), ShowsAttributes defaultAttributes portion) →
      ∀ chars, characterData (removeAttributes defaultAttributes text).text = .ok chars →
        characterData text = .ok chars) := by
  obtain ⟨whole, hwhole⟩ := exists_characterData sound
  have hmark := unmarked whole hwhole
  constructor
  · intro hshown chars hchars
    have hnames : ∀ name ∈ defaultTags, PlainName name ∧ OpensAsTag (Bytes.ofString name) := by
      decide +kernel
    obtain ⟨cuts, hcutting, -, hcuts⟩ :=
      removeMarkers_cuts (fun name hname => (hnames name hname).1) text
    have hkept := portioned_of_cutting hcutting (fun c hc => keeps_marker hnames (hcuts c hc)) hmark
      (portioned_of_characterData hwhole hshown)
    rw [hwhole, hkept.characterData_eq hchars]
  · intro hshown chars hchars
    have hnames : ∀ name ∈ defaultAttributes, IsWord (Bytes.ofString name) := by decide +kernel
    obtain ⟨attributes, properties, hcutting, -, -, hattributes, hproperties⟩ :=
      removeAttributes_cuts defaultAttributes text
    obtain ⟨middle, hfirst, hsecond⟩ := hcutting.of_append
    have hkept := portioned_of_cutting hfirst
      (fun c hc => keeps_attribute hnames (hattributes c hc)) hmark
      (portioned_of_characterData hwhole hshown)
    have hkept' := portioned_of_cutting hsecond (fun c hc => keeps_property (hproperties c hc))
      hmark (hkept.mono fun portion hportion => hportion.2)
    rw [hwhole, hkept'.characterData_eq hchars]

/-- An element with a `>` in a value and in its text, where an attribute is spelled behind it, and
    with markup in a character section. -/
def shownText : Bytes := Bytes.ofString
  "<t a=\">\" w:rsidR=\"1\"><w:lang/>x > y w:rsidR=\"2\"<![CDATA[<b/>]]></t>"

theorem characterData_of_shown_shownText :
    (removeMarkers defaultTags shownText).count = 1 ∧
    (removeAttributes defaultAttributes shownText).count = 1 ∧
    characterData (removeMarkers defaultTags shownText).text = characterData shownText ∧
    characterData (removeAttributes defaultAttributes shownText).text = characterData shownText := by
  have hread : characterData shownText = .ok "x > y w:rsidR=\"2\"<b/>".toList := by
    decide +kernel
  have hmarkers : characterData (removeMarkers defaultTags shownText).text =
      .ok "x > y w:rsidR=\"2\"<b/>".toList := by
    decide +kernel
  have hattributes : characterData (removeAttributes defaultAttributes shownText).text =
      .ok "x > y w:rsidR=\"2\"<b/>".toList := by
    decide +kernel
  have hkept := @characterData_of_shown shownText (by decide +kernel) (by
    intro chars hchars
    rw [hread, Except.ok.injEq] at hchars
    rw [← hchars]
    decide)
  refine ⟨by decide +kernel, by decide +kernel, ?_, ?_⟩
  · exact hmarkers.trans (hkept.1 (by decide +kernel) _ hmarkers).symm
  · exact hattributes.trans (hkept.2 (by decide +kernel) _ hattributes).symm

/-- A marker in a character section is text, and so is an attribute in front of a `>`. Both are
    deleted. -/
theorem not_forall_characterData :
    (¬ ∀ text, check text = .ok () →
      ∀ chars, characterData (removeMarkers defaultTags text).text = .ok chars →
        characterData text = .ok chars) ∧
    ¬ ∀ text, check text = .ok () →
      ∀ chars, characterData (removeAttributes defaultAttributes text).text = .ok chars →
        characterData text = .ok chars := by
  constructor
  · intro h
    have hchars := h (Bytes.ofString "<a><![CDATA[<w:lang/>]]></a>") (by decide +kernel) []
      (by decide +kernel)
    revert hchars
    decide +kernel
  · intro h
    have hchars := h (Bytes.ofString "<w:t> w:rsidR=\"00AB\" > literal</w:t>") (by decide +kernel)
      " > literal".toList (by decide +kernel)
    revert hchars
    decide +kernel

end DocxTemplate.Sanitize
