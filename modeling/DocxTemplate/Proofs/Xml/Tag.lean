import DocxTemplate.Proofs.Xml.Element

/-! # Tags and their attribute values

    A tag is cut at its attribute values as the reader takes them, and may be put together again
    with other values.

    * `tagParts`: the values of a tag and what stands around them; `text_tagParts`: nothing is lost.
    * `tagAttributes_map`: with other values that can be read a tag keeps its name and its keys.
    * `Markup.read_map`: such a tag is read as a tag of the same kind, if it ends where it is to end.
-/

namespace DocxTemplate.Xml

/-! ## Parts of a tag -/

/-- An attribute value in a tag. -/
structure TagValue where
  /-- Everything since the value before, up to the opening quote. -/
  front : Bytes
  quote : UInt8
  /-- What stands between the quotes. -/
  value : Bytes
  deriving DecidableEq, Repr

/-- The text of a value with its quotes and what stands before it. -/
def TagValue.text (v : TagValue) : Bytes := v.front ++ v.quote :: (v.value ++ [v.quote])

theorem TagValue.getLast?_text (v : TagValue) : v.text.getLast? = some v.quote := by
  have htext : v.text = (v.front ++ v.quote :: v.value) ++ [v.quote] := by simp [text]
  rw [htext, List.getLast?_concat]

/-- What a tag consists of: its attribute values, and what stands behind the last of them. -/
structure TagParts where
  values : List TagValue
  last : Bytes
  deriving DecidableEq, Repr

namespace TagParts

/-- The text of a tag. -/
def text (parts : TagParts) : Bytes := parts.values.flatMap TagValue.text ++ parts.last

theorem text_cons (v : TagValue) (values : List TagValue) (last : Bytes) :
    text ⟨v :: values, last⟩ =
      v.front ++ v.quote :: (v.value ++ v.quote :: text ⟨values, last⟩) := by
  simp [text, TagValue.text]

/-- A tag with other values. -/
def map (f : Bytes → Bytes) (parts : TagParts) : TagParts :=
  { parts with values := parts.values.map fun v => { v with value := f v.value } }

end TagParts

/-- The parts of a tag from some place behind its name on. `front` is what stands before that
    place, since the last value. -/
def cutValues (front : Bytes) : Bytes → TagParts
  | [] => ⟨[], front⟩
  | b :: rest =>
    if isBlank b then cutValues (front ++ [b]) rest
    else
      match RawAttribute.read [] 0 (b :: rest) with
      | .error _ => ⟨[], front ++ b :: rest⟩
      | .ok raw =>
        let quoteAt := raw.length - raw.value.length - 2
        let others := cutValues [] (rest.drop (raw.length - 1))
        ⟨⟨front ++ (b :: rest).take quoteAt, (b :: rest).getD quoteAt 0, raw.value⟩ :: others.values,
          others.last⟩
termination_by text => text.length
decreasing_by all_goals (simp only [List.length_cons, List.length_drop]; omega)

/-- The parts of a tag. -/
def tagParts (content : Bytes) : TagParts :=
  cutValues (tagName content) (content.drop (tagName content).length)

/-- What stands before the value of an attribute. -/
def WrittenAttribute.opening (a : WrittenAttribute) : Bytes :=
  a.key ++ (a.before ++ '='.toUInt8 :: a.behind)

theorem WrittenAttribute.text_eq (a : WrittenAttribute) :
    a.text = a.opening ++ a.quote :: (a.value ++ [a.quote]) := by
  simp [text, opening]

theorem cutValues_nil (front : Bytes) : cutValues front [] = ⟨[], front⟩ := by
  rw [cutValues]

theorem cutValues_blank {b : UInt8} (hb : isBlank b = true) (front rest : Bytes) :
    cutValues front (b :: rest) = cutValues (front ++ [b]) rest := by
  rw [cutValues, if_pos hb]

/-- An attribute is cut at its value. -/
theorem cutValues_text (a : WrittenAttribute) (hfirst : isBlank a.first = false)
    (front rest : Bytes) : cutValues front (a.text ++ rest) =
      ⟨⟨front ++ a.opening, a.quote, a.value⟩ :: (cutValues [] rest).values,
        (cutValues [] rest).last⟩ := by
  have unseen : ([] : List (Bytes × Nat)).lookup a.key = none := rfl
  have hread := RawAttribute.read_text a unseen 0 rest
  have hlength : a.text.length - a.value.length - 2 = a.opening.length := by
    rw [a.text_eq]
    simp only [List.length_append, List.length_cons, List.length_nil]
    omega
  have htake : (a.text ++ rest).take a.opening.length = a.opening := by
    rw [a.text_eq, List.append_assoc, List.take_left]
  have hquote : (a.text ++ rest).getD a.opening.length 0 = a.quote := by
    rw [a.text_eq]
    simp
  have hcons : ∃ tail, a.text = a.first :: tail := ⟨_, rfl⟩
  obtain ⟨tail, htail⟩ := hcons
  have hdrop : (tail ++ rest).drop (a.text.length - 1) = rest := by
    rw [htail, List.length_cons, Nat.add_sub_cancel, List.drop_left]
  have hcut : a.text ++ rest = a.first :: (tail ++ rest) := by rw [htail, List.cons_append]
  rw [hcut] at hread htake hquote ⊢
  rw [cutValues, if_neg (by simp [hfirst]), hread]
  dsimp only
  rw [hlength, htake, hquote, hdrop]

/-- A tag behind its name is blanks and attributes, as far as it can be read. -/
theorem cutValues_induction {P : Bytes → Bytes → Prop} (nil : ∀ front, P front [])
    (blank : ∀ front b rest, isBlank b = true → P (front ++ [b]) rest → P front (b :: rest))
    (broken : ∀ front b rest, isBlank b = false →
      cutValues front (b :: rest) = ⟨[], front ++ b :: rest⟩ → P front (b :: rest))
    (written : ∀ front (a : WrittenAttribute) rest, isBlank a.first = false → P [] rest →
      P front (a.text ++ rest)) (front text : Bytes) : P front text := by
  induction hn : text.length using Nat.strongRecOn generalizing front text with
  | ind n ih =>
    cases text with
    | nil => exact nil front
    | cons b rest =>
      rw [List.length_cons] at hn
      by_cases hb : isBlank b = true
      · exact blank front b rest hb (ih _ (by omega) _ rest rfl)
      · cases hread : RawAttribute.read [] 0 (b :: rest) with
        | error fault =>
          refine broken front b rest (by simpa using hb) ?_
          rw [cutValues, if_neg hb, hread]
        | ok raw =>
          obtain ⟨a, tail, htext, -, -⟩ := RawAttribute.exists_of_read hread
          have hcons : a.text = a.first :: a.text.tail := rfl
          have hfirst : a.first = b := by
            rw [hcons, List.cons_append, List.cons.injEq] at htext
            exact htext.1.symm
          have hlen := congrArg List.length htext
          rw [List.length_cons, List.length_append, hcons, List.length_cons] at hlen
          rw [htext]
          exact written front a tail (by rw [hfirst]; simpa using hb) (ih _ (by omega) _ tail rfl)

/-- The parts of a tag put together are the tag. -/
theorem text_cutValues (front text : Bytes) : (cutValues front text).text = front ++ text := by
  induction front, text using cutValues_induction with
  | nil front => rw [cutValues_nil, List.append_nil]; rfl
  | blank front b rest hb ih => rw [cutValues_blank hb, ih, List.append_assoc]; rfl
  | broken front b rest _ h => rw [h]; rfl
  | written front a rest hfirst ih =>
    rw [TagParts.text, List.nil_append] at ih
    rw [cutValues_text a hfirst, TagParts.text, List.flatMap_cons, List.append_assoc, ih,
      TagValue.text, a.text_eq]
    simp

theorem tagName_append_drop (content : Bytes) :
    tagName content ++ content.drop (tagName content).length = content :=
  List.prefix_iff_eq_append.1 (List.takeWhile_prefix (l := content) fun b => !isBlank b)

theorem text_tagParts (content : Bytes) : (tagParts content).text = content := by
  rw [tagParts, text_cutValues, tagName_append_drop]

/-- Each value is that of an attribute. -/
theorem exists_of_mem_cutValues {front text : Bytes} {v : TagValue}
    (hv : v ∈ (cutValues front text).values) : ∃ (before : Bytes) (a : WrittenAttribute),
      v = ⟨before ++ a.opening, a.quote, a.value⟩ := by
  induction front, text using cutValues_induction with
  | nil front => simp [cutValues_nil] at hv
  | blank front b rest hb ih =>
    rw [cutValues_blank hb] at hv
    exact ih hv
  | broken front b rest _ h => simp [h] at hv
  | written front a rest hfirst ih =>
    rw [cutValues_text a hfirst] at hv
    rcases List.mem_cons.1 hv with rfl | hv
    · exact ⟨front, a, rfl⟩
    · exact ih hv

/-- A value has its key and the `=` before it. -/
theorem front_ne_nil (front text : Bytes) : ∀ v ∈ (cutValues front text).values, v.front ≠ [] := by
  intro v hv
  obtain ⟨before, a, rfl⟩ := exists_of_mem_cutValues hv
  simp [WrittenAttribute.opening]

theorem quote_eq (front text : Bytes) :
    ∀ v ∈ (cutValues front text).values, v.quote = 0x22 ∨ v.quote = 0x27 := by
  intro v hv
  obtain ⟨before, a, rfl⟩ := exists_of_mem_cutValues hv
  exact a.quote_eq

/-! ## Other values -/

section
variable {f : Bytes → Bytes}

namespace TagParts

/-- Other values leave the first byte of a tag and the last. -/
theorem head?_text_map {parts : TagParts} (h : ∀ v ∈ parts.values, v.front ≠ []) :
    (parts.map f).text.head? = parts.text.head? := by
  obtain ⟨values, last⟩ := parts
  cases values with
  | nil => rfl
  | cons v values =>
    have hv := h v List.mem_cons_self
    cases hfront : v.front with
    | nil => exact absurd hfront hv
    | cons b front => simp [text, map, TagValue.text, hfront]

theorem getLast?_text_map (parts : TagParts) :
    (parts.map f).text.getLast? = parts.text.getLast? := by
  have hlast : ∀ values : List TagValue,
      (values.flatMap TagValue.text).getLast? = values.getLast?.map TagValue.quote := by
    intro values
    induction values with
    | nil => rfl
    | cons v values ih =>
      rw [List.flatMap_cons, List.getLast?_append, ih, v.getLast?_text, List.getLast?_cons]
      cases values.getLast? <;> rfl
  rw [text, text, List.getLast?_append, List.getLast?_append, hlast, hlast, map]
  simp [Function.comp_def]

end TagParts

/-- A tag with other values is read as a tag of the same kind, if the search for its end passes
    the old values and the new ones alike. -/
theorem Markup.read_map {written content : Bytes} {m : Markup}
    (hm : m = .startTag content ∨ m = .emptyTag content)
    (h : read written = .ok (m, written.length))
    (hend : ∀ tail n, tagEnd? none (content ++ tail) = some (content.length + n) →
      tagEnd? none (((tagParts content).map f).text ++ tail) =
        some (((tagParts content).map f).text.length + n)) :
    ∃ closing m', written = content ++ closing ∧
      (closing = ['>'.toUInt8] ∨ closing = ['/'.toUInt8, '>'.toUInt8]) ∧
      read (((tagParts content).map f).text ++ closing) =
        .ok (m', (((tagParts content).map f).text ++ closing).length) ∧
      (m = .startTag content ∧ m' = .startTag ((tagParts content).map f).text ∨
        m = .emptyTag content ∧ m' = .emptyTag ((tagParts content).map f).text) := by
  have hhead := TagParts.head?_text_map (f := f) (front_ne_nil (tagName content)
    (content.drop (tagName content).length))
  have hlast := (tagParts content).getLast?_text_map (f := f)
  rw [← tagParts, text_tagParts] at hhead
  rw [text_tagParts] at hlast
  generalize ((tagParts content).map f).text = content' at hend hhead hlast ⊢
  obtain ⟨body, rfl, hopens, hbody, rfl⟩ := exists_tag_body hm h
  by_cases hslash : body.getLast? = some '/'.toUInt8
  · rw [tagOf, if_pos hslash] at hm ⊢
    obtain ⟨front, rfl⟩ := List.getLast?_eq_some_iff.1 hslash
    rw [List.dropLast_concat] at hm ⊢
    obtain rfl : front = content := by
      rcases hm with hm | hm
      · cases hm
      · exact Markup.emptyTag.inj hm
    have hopens' : OpensTag (content' ++ ['/'.toUInt8]) := by
      intro b hb
      rw [List.head?_append, hhead, ← List.head?_append] at hb
      exact hopens b hb
    rw [List.append_assoc, List.length_append] at hbody
    have hend' := hend _ 1 hbody
    have hread := read_tag_body hopens' (by
      rw [List.append_assoc, List.length_append]
      exact hend')
    rw [tagOf, if_pos List.getLast?_concat, List.dropLast_concat, List.append_assoc] at hread
    exact ⟨_, _, List.append_assoc _ _ _, Or.inr rfl, hread, Or.inr ⟨rfl, rfl⟩⟩
  · rw [tagOf, if_neg hslash] at hm ⊢
    obtain rfl : body = content := by
      rcases hm with hm | hm
      · exact Markup.startTag.inj hm
      · cases hm
    have hopens' : OpensTag content' := fun b hb => hopens b (hhead ▸ hb)
    have hread := read_tag_body hopens' (hend ['>'.toUInt8] 0 hbody)
    rw [tagOf, if_neg (by rw [hlast]; exact hslash)] at hread
    exact ⟨_, _, rfl, Or.inl rfl, hread, Or.inl ⟨rfl, rfl⟩⟩

variable (hf : ∀ value s, readText value = .ok s → ∃ s', readText (f value) = .ok s')
include hf

/-- With other values that can be read, attributes keep their keys. -/
theorem ReadsAttributes.map {seen : List (Bytes × Nat)} {position : Nat} {text : Bytes}
    {attributes : List (String × String)} (h : ReadsAttributes seen position text attributes)
    (front : Bytes) (hquote : ∀ v ∈ (cutValues front text).values, v.quote ∉ f v.value)
    {seen' : List (Bytes × Nat)} (hseen : ∀ key, seen.lookup key = none → seen'.lookup key = none)
    (position' : Nat) :
    ∃ text' attributes', ((cutValues front text).map f).text = front ++ text' ∧
      ReadsAttributes seen' position' text' attributes' ∧
        attributes'.map (·.1) = attributes.map (·.1) := by
  induction h generalizing front seen' position' with
  | nil => exact ⟨[], [], by simp [cutValues_nil, TagParts.text, TagParts.map], .nil, rfl⟩
  | @blank seen position b rest attributes hb next ih =>
    rw [cutValues_blank hb] at hquote ⊢
    obtain ⟨text', attributes', htext, hread, hkeys⟩ := ih (front ++ [b]) hquote hseen (position' + 1)
    exact ⟨b :: text', attributes', by rw [htext, List.append_assoc]; rfl, .blank hb hread, hkeys⟩
  | @written seen position rest value others a first unseen read next ih =>
    rw [cutValues_text a first] at hquote ⊢
    -- The same attribute with the other value.
    let a' : WrittenAttribute := { a with
      value := f a.value, value_plain := hquote _ List.mem_cons_self }
    have hseen' : ∀ key, ((a.key, position) :: seen).lookup key = none →
        ((a'.key, position') :: seen').lookup key = none := by
      intro key hkey
      have hsame : a'.key = a.key := rfl
      rw [List.lookup_cons] at hkey ⊢
      rw [hsame]
      cases heq : key == a.key with
      | true => simp [heq] at hkey
      | false =>
        rw [heq] at hkey
        exact hseen key hkey
    obtain ⟨value', hvalue⟩ := hf a.value value read
    obtain ⟨text', others', htext, hread, hkeys⟩ := ih []
      (fun v hv => hquote v (List.mem_cons_of_mem _ hv)) hseen' (position' + a'.text.length)
    refine ⟨a'.text ++ text', _, ?_, .written a' first (hseen _ unseen) hvalue hread, ?_⟩
    · rw [List.nil_append] at htext
      rw [TagParts.text, TagParts.map] at htext ⊢
      dsimp only at htext ⊢
      rw [List.map_cons, List.flatMap_cons, List.append_assoc, htext, TagValue.text, a'.text_eq]
      simp [a', WrittenAttribute.opening, WrittenAttribute.key]
    · rw [List.map_cons, List.map_cons, hkeys]
      rfl

/-- A tag with other values that can be read has the name and the keys that it had. -/
theorem tagAttributes_map {content : Bytes} {attributes : List (String × String)}
    (h : tagAttributes content = .ok attributes)
    (hquote : ∀ v ∈ (tagParts content).values, v.quote ∉ f v.value) :
    tagName ((tagParts content).map f).text = tagName content ∧
      ∃ attributes', tagAttributes ((tagParts content).map f).text = .ok attributes' ∧
        attributes'.map (·.1) = attributes.map (·.1) := by
  rw [tagAttributes, attributesFrom_eq_ok_iff] at h
  rw [tagParts] at hquote ⊢
  have hplain : ∀ b ∈ tagName content, (!isBlank b) = true :=
    fun b hb => List.all_eq_true.1 List.all_takeWhile b hb
  have hbehind : BehindName (content.drop (tagName content).length) := by
    intro b hb
    have hstop := List.head?_dropWhile_not (fun b => !isBlank b) content
    have hdrop : content.dropWhile (fun b => !isBlank b) =
        content.drop (tagName content).length := by
      have hsplit := List.takeWhile_append_dropWhile (p := fun b => !isBlank b) (l := content)
      exact List.append_cancel_left (hsplit.trans (tagName_append_drop content).symm)
    rw [hdrop, hb] at hstop
    simpa using hstop
  generalize tagName content = name at h hquote hplain hbehind ⊢
  generalize content.drop name.length = text at h hquote hbehind ⊢
  -- The blank behind the name stays.
  have hmap : ∃ text' attributes', ((cutValues name text).map f).text = name ++ text' ∧
      BehindName text' ∧ ReadsAttributes [] name.length text' attributes' ∧
        attributes'.map (·.1) = attributes.map (·.1) := by
    cases h with
    | nil => exact ⟨[], [], by simp [cutValues_nil, TagParts.text, TagParts.map], behindName_nil, .nil, rfl⟩
    | @blank _ _ b rest _ hb next =>
      rw [cutValues_blank hb] at hquote ⊢
      obtain ⟨text', attributes', htext, hread, hkeys⟩ :=
        next.map hf (name ++ [b]) hquote (fun _ hkey => hkey) (name.length + 1)
      refine ⟨b :: text', attributes', by rw [htext, List.append_assoc]; rfl, fun c hc => ?_,
        .blank hb hread, hkeys⟩
      rw [List.head?_cons, Option.some.injEq] at hc
      rw [← hc, hb]
    | written a first =>
      have hb := hbehind a.first rfl
      rw [first] at hb
      cases hb
  obtain ⟨text', attributes', htext, hbehind', hread, hkeys⟩ := hmap
  have hname : tagName (name ++ text') = name := by
    refine takeWhile_append_stop hplain fun b hb => ?_
    rw [hbehind' b hb]
    rfl
  rw [htext, hname]
  refine ⟨rfl, attributes', ?_, hkeys⟩
  rw [tagAttributes, hname, List.drop_left]
  exact attributesFrom_eq_ok_iff.2 hread

end

end DocxTemplate.Xml
