import DocxTemplate.Proofs.Text.Utf8
import DocxTemplate.Proofs.Xml.Attribute
import DocxTemplate.Proofs.Xml.Reading
import DocxTemplate.Proofs.Xml.Written

/-! # Tags as they are written

    A tag is its name and what stands behind it, up to the `>`. With a name that holds none of
    the delimiters it is read by this form alone.

    * `Markup.read_tag`: the markup that a tag is.
    * `ofMarkup_startTag` and `ofMarkup_emptyTag`: its event has the attributes behind the name.
    * `reads_writeElement`: an element that is written with its attributes is read back.
-/

namespace DocxTemplate.Xml

open Event (Open ofMarkup)

/-! ## Names -/

/-- A name in ASCII without delimiters and blanks. -/
def PlainName (name : Bytes) : Prop :=
  name ≠ [] ∧ ∀ b ∈ name, Blank.IsAscii false b ∧
    b ∉ ['<'.toUInt8, '>'.toUInt8, '/'.toUInt8, '!'.toUInt8, '?'.toUInt8, 0x22, 0x27]

instance (name : Bytes) : Decidable (PlainName name) := inferInstanceAs (Decidable (_ ∧ _))

/-- What may stand behind a name: nothing, or something that starts with a blank. -/
def BehindName (more : Bytes) : Prop := ∀ b, more.head? = some b → isBlank b = true

theorem behindName_nil : BehindName [] := fun _ h => nomatch h

/-- White space in markup is white space. -/
theorem isAscii_of_isBlank {b : UInt8} (h : isBlank b = true) : Blank.IsAscii true b := by
  simp only [isBlank, Bool.or_eq_true, beq_iff_eq] at h
  rcases h with ((rfl | rfl) | rfl) | rfl <;> decide

theorem not_isBlank_of_isAscii {b : UInt8} (h : Blank.IsAscii false b) : isBlank b = false := by
  cases hb : isBlank b with
  | false => rfl
  | true =>
    have hblank := (isAscii_of_isBlank hb).2
    rw [h.2] at hblank
    cases hblank

/-- A name as the reader takes it: without blanks, slashes, quotes and `>`, and with nothing at its
    start that makes the tag other markup. -/
structure TagName (name : Bytes) : Prop where
  opens : ∃ b rest, name = b :: rest ∧ b ∉ ['!'.toUInt8, '?'.toUInt8]
  plain : ∀ b ∈ name, isBlank b = false ∧ b ∉ ['>'.toUInt8, '/'.toUInt8, 0x22, 0x27]

theorem PlainName.tagName {name : Bytes} (h : PlainName name) : TagName name := by
  obtain ⟨hne, hplain⟩ := h
  constructor
  · cases name with
    | nil => exact absurd rfl hne
    | cons b rest =>
      refine ⟨b, rest, rfl, fun hmem => (hplain b List.mem_cons_self).2 ?_⟩
      simp only [List.mem_cons, List.not_mem_nil, or_false] at hmem ⊢
      tauto
  · intro b hb
    refine ⟨not_isBlank_of_isAscii (hplain b hb).1, fun hmem => (hplain b hb).2 ?_⟩
    simp only [List.mem_cons, List.not_mem_nil, or_false] at hmem ⊢
    tauto

section
variable {name more : Bytes} (hname : TagName name)
include hname

theorem TagName.not_isBlank : ∀ b ∈ name, isBlank b = false := fun b hb => (hname.plain b hb).1

/-- No byte of a name ends the tag or opens a quote. -/
theorem TagName.not_mem_ends : ∀ b ∈ name, b ∉ ['>'.toUInt8, 0x22, 0x27] := by
  intro b hb hmem
  refine (hname.plain b hb).2 ?_
  simp only [List.mem_cons, List.not_mem_nil, or_false] at hmem ⊢
  tauto

/-- The name of a tag ends before the blank behind it. -/
theorem tagName_append (hmore : BehindName more) : tagName (name ++ more) = name := by
  refine takeWhile_append_stop (fun b hb => ?_) fun b hb => ?_
  · rw [hname.not_isBlank b hb]
    rfl
  · rw [hmore b hb]
    rfl

theorem tagAttributes_append (hmore : BehindName more) :
    tagAttributes (name ++ more) = attributesFrom [] name.length more := by
  rw [tagAttributes, tagName_append hname hmore, List.drop_left]

/-! ## Kinds of tags -/

/-- A tag that ends at the given place. The last byte before the `>` tells its kind. -/
theorem Markup.read_tag (hend : tagEnd? none (more ++ ['>'.toUInt8]) = some more.length) :
    Markup.read (name ++ (more ++ ['>'.toUInt8])) =
      .ok (if (name ++ more).getLast? = some '/'.toUInt8 then .emptyTag (name ++ more).dropLast
        else .startTag (name ++ more), (name ++ (more ++ ['>'.toUInt8])).length) := by
  have hopens : OpensTag (name ++ more) := by
    intro b hb hmem
    obtain ⟨c, rest, rfl, hc⟩ := hname.opens
    rw [List.cons_append, List.head?_cons, Option.some.injEq] at hb
    subst hb
    have hslash := (hname.plain c List.mem_cons_self).2
    simp only [List.mem_cons, List.not_mem_nil, or_false] at hmem hc hslash
    tauto
  have hbody : tagEnd? none (name ++ more ++ ['>'.toUInt8]) = some (name ++ more).length := by
    rw [List.append_assoc, tagEnd?_append hname.not_mem_ends, hend, List.length_append, Nat.add_comm]
    rfl
  have hread := read_tag_body hopens hbody
  rwa [List.append_assoc] at hread

/-- An end tag with nothing behind the name. -/
theorem Markup.read_endTag : Markup.read ('/'.toUInt8 :: (name ++ ['>'.toUInt8])) =
    .ok (.endTag name, ('/'.toUInt8 :: (name ++ ['>'.toUInt8])).length) := by
  have hfree : ∀ b ∈ '/'.toUInt8 :: name, b ∉ ['>'.toUInt8, 0x22, 0x27] := by
    intro b hb hmem
    rcases List.mem_cons.1 hb with rfl | hb
    · revert hmem
      decide
    · exact hname.not_mem_ends b hb hmem
  have hend : tagEnd? none ('/'.toUInt8 :: (name ++ ['>'.toUInt8])) = some (name.length + 1) := by
    have happend := tagEnd?_append hfree ['>'.toUInt8]
    rw [List.cons_append] at happend
    rw [happend]
    simp [tagEnd?]
  have hname' : endName name = name := by
    have hall : name.all isBlank = false := by
      obtain ⟨b, rest, rfl, -⟩ := hname.opens
      rw [List.all_cons, hname.not_isBlank b List.mem_cons_self, Bool.false_and]
    have htrim : Bytes.trimEnd isBlank name = name := by
      have hkeep : name.reverse.dropWhile isBlank = name.reverse := by
        cases hrev : name.reverse with
        | nil => rfl
        | cons b rest =>
          have hb : b ∈ name := List.mem_reverse.1 (by rw [hrev]; exact List.mem_cons_self)
          rw [List.dropWhile_cons_of_neg (by rw [hname.not_isBlank b hb]; exact Bool.false_ne_true)]
      rw [Bytes.trimEnd, hkeep, List.reverse_reverse]
    rw [endName, hall, if_neg Bool.false_ne_true, htrim]
  rw [Markup.read, if_neg (by decide), if_neg (by decide), readTag, hend]
  dsimp only
  have htake : ('/'.toUInt8 :: (name ++ ['>'.toUInt8])).take (name.length + 1) =
      '/'.toUInt8 :: name := by
    rw [List.take_succ_cons, List.take_left]
  rw [htake, if_pos (by rfl), List.drop_succ_cons, List.drop_zero, hname']
  simp [Except.mapError]

/-! ## Their events -/

theorem ofMarkup_startTag (hmore : BehindName more) (opened : Open) :
    ofMarkup opened (.startTag (name ++ more)) = (do
      let attributes ← attributesFrom [] name.length more
      return (some (.start (Utf8.decodeLossy name) attributes), name :: opened)) := by
  rw [ofMarkup, tagAttributes_append hname hmore, tagName_append hname hmore]

theorem ofMarkup_emptyTag (hmore : BehindName more) (opened : Open) :
    ofMarkup opened (.emptyTag (name ++ more)) = (do
      let attributes ← attributesFrom [] name.length more
      return (some (.empty (Utf8.decodeLossy name) attributes), opened)) := by
  rw [ofMarkup, tagAttributes_append hname hmore, tagName_append hname hmore]

end

/-! ## Written elements -/

/-- The attributes of a tag as they are written. -/
def writeAttributes (attributes : List (String × String)) : Bytes :=
  attributes.flatMap fun (key, value) => writeAttribute key value

theorem writeAttributes_cons (key value : String) (attributes : List (String × String)) :
    writeAttributes ((key, value) :: attributes) =
      writeAttribute key value ++ writeAttributes attributes :=
  List.flatMap_cons

/-- An element without content as it is written behind its `<`. -/
def writeElement (name : Bytes) (attributes : List (String × String)) : Bytes :=
  name ++ (writeAttributes attributes ++ ['/'.toUInt8] ++ ['>'.toUInt8])

/-- Keys that can be written, and are read as they were written. -/
def PlainKeys (keys : List String) : Prop :=
  keys.Nodup ∧ ∀ key ∈ keys, PlainKey key ∧ Utf8.decodeLossy (Bytes.ofString key) = key

instance (keys : List String) : Decidable (PlainKeys keys) := inferInstanceAs (Decidable (_ ∧ _))

theorem behindName_writeAttributes (attributes : List (String × String)) :
    BehindName (writeAttributes attributes) := by
  intro b hb
  cases attributes with
  | nil => cases hb
  | cons pair attributes =>
    obtain ⟨key, value⟩ := pair
    rw [writeAttributes_cons, writeAttribute_eq, List.cons_append, List.head?_cons,
      Option.some.injEq] at hb
    rw [← hb]
    decide

/-- Written attributes are read back. -/
theorem attributesFrom_writeAttributes {attributes : List (String × String)}
    (hkeys : PlainKeys (attributes.map (·.1))) {seen : List (Bytes × Nat)}
    (unseen : ∀ key ∈ attributes.map (·.1), seen.lookup (Bytes.ofString key) = none)
    (position : Nat) :
    attributesFrom seen position (writeAttributes attributes) = .ok attributes := by
  induction attributes generalizing seen position with
  | nil => rw [writeAttributes, List.flatMap_nil, attributesFrom]
  | cons pair attributes ih =>
    obtain ⟨key, value⟩ := pair
    rw [List.map_cons] at hkeys unseen
    obtain ⟨hnodup, hplain⟩ := hkeys
    rw [List.nodup_cons] at hnodup
    obtain ⟨hkey, hread⟩ := hplain key List.mem_cons_self
    have hrest : PlainKeys (attributes.map (·.1)) :=
      ⟨hnodup.2, fun k hk => hplain k (List.mem_cons_of_mem _ hk)⟩
    have hunseen : ∀ k ∈ attributes.map (·.1),
        List.lookup (Bytes.ofString k) ((Bytes.ofString key, position + 1) :: seen) = none := by
      intro k hk
      -- Two keys with the same bytes are read as the same key.
      have hne : Bytes.ofString k ≠ Bytes.ofString key := by
        intro heq
        have hk' := (hplain k (List.mem_cons_of_mem _ hk)).2
        rw [heq, hread] at hk'
        exact hnodup.1 (by rwa [hk'])
      rw [List.lookup_cons, beq_eq_false_iff_ne.2 hne]
      exact unseen k (List.mem_cons_of_mem _ hk)
    rw [writeAttributes_cons, attributesFrom_writeAttribute hkey value (unseen key List.mem_cons_self),
      ih hrest hunseen]
    simp only [bind, Except.bind, pure, Except.pure, hread]

/-- The tag of a written element ends at its end. -/
theorem tagEnd?_writeAttributes {attributes : List (String × String)}
    (hkeys : ∀ key ∈ attributes.map (·.1), PlainKey key) (rest : Bytes) :
    Markup.tagEnd? none (writeAttributes attributes ++ rest) =
      (Markup.tagEnd? none rest).map (· + (writeAttributes attributes).length) := by
  induction attributes with
  | nil => simp [writeAttributes]
  | cons pair attributes ih =>
    obtain ⟨key, value⟩ := pair
    rw [List.map_cons] at hkeys
    rw [writeAttributes_cons, List.append_assoc, Markup.tagEnd?_writeAttribute (hkeys key List.mem_cons_self),
      ih fun k hk => hkeys k (List.mem_cons_of_mem _ hk), Option.map_map, List.length_append]
    congr 1
    funext n
    simp only [Function.comp_apply]
    omega

section
variable {name : Bytes} (hname : TagName name) {attributes : List (String × String)}
  (hkeys : PlainKeys (attributes.map (·.1)))
include hname hkeys

theorem Markup.read_writeElement : Markup.read (writeElement name attributes) =
    .ok (.emptyTag (name ++ writeAttributes attributes), (writeElement name attributes).length) := by
  have hend : Markup.tagEnd? none
      (writeAttributes attributes ++ ['/'.toUInt8] ++ ['>'.toUInt8]) =
        some (writeAttributes attributes ++ ['/'.toUInt8]).length := by
    rw [List.append_assoc, tagEnd?_writeAttributes fun key hkey => (hkeys.2 key hkey).1,
      List.length_append]
    have hslash : Markup.tagEnd? none (['/'.toUInt8] ++ ['>'.toUInt8]) = some 1 := by decide
    rw [hslash, Option.map_some, Nat.add_comm]
    rfl
  have hread := Markup.read_tag hname hend
  have hcontent : name ++ (writeAttributes attributes ++ ['/'.toUInt8]) =
      name ++ writeAttributes attributes ++ ['/'.toUInt8] := (List.append_assoc _ _ _).symm
  rwa [hcontent, List.getLast?_concat, if_pos rfl, List.dropLast_concat] at hread

theorem ofMarkup_writeElement (opened : Open) :
    ofMarkup opened (.emptyTag (name ++ writeAttributes attributes)) =
      .ok (some (.empty (Utf8.decodeLossy name) attributes), opened) := by
  rw [ofMarkup_emptyTag hname (behindName_writeAttributes attributes) opened,
    attributesFrom_writeAttributes hkeys (fun _ _ => rfl)]
  rfl

end

/-- An element that is written with its attributes is read back, inside any elements. -/
theorem reads_writeElement {name : Bytes} (hname : TagName name)
    (attributes : List (String × String)) (hkeys : PlainKeys (attributes.map (·.1)))
    (opened : Open) :
    Reads opened ('<'.toUInt8 :: writeElement name attributes)
      [.empty (Utf8.decodeLossy name) attributes] opened := by
  have hreads := Reads.markup (Markup.read_writeElement hname hkeys)
    (ofMarkup_writeElement hname hkeys opened) Reads.nil
  rw [List.append_nil] at hreads
  exact hreads

end DocxTemplate.Xml
