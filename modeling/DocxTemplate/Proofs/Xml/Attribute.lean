import DocxTemplate.Proofs.Text.Search
import DocxTemplate.Proofs.Xml.Escape
import DocxTemplate.Proofs.Xml.Markup
import DocxTemplate.Xml.Event

/-! # Attributes as they are written

    * `WrittenAttribute`: the parts of an attribute in a tag.
    * `RawAttribute.read_eq_ok_iff`: what is read is an attribute that is written there.
    * `ReadsAttributes`: attributes that are written one after the other, which are those that
      are read (`attributesFrom_eq_ok_iff`).
    * `attributesFrom_trim`: blanks behind the last attribute do not matter.
    * `attributesFrom_writeAttribute`: an attribute that is written with escapes is read back.
-/

namespace DocxTemplate.Xml

/-- An attribute as it is written: the key, the blanks around the `=`, and the value between
    two quotes. -/
structure WrittenAttribute where
  first : UInt8
  others : Bytes
  before : Bytes
  behind : Bytes
  quote : UInt8
  value : Bytes
  key_plain : ∀ b ∈ others, b ≠ '='.toUInt8 ∧ isBlank b = false
  before_blank : ∀ b ∈ before, isBlank b = true
  behind_blank : ∀ b ∈ behind, isBlank b = true
  quote_eq : quote = 0x22 ∨ quote = 0x27
  value_plain : quote ∉ value

namespace WrittenAttribute

/-- The key of an attribute. -/
def key (a : WrittenAttribute) : Bytes := a.first :: a.others

/-- The text of an attribute. -/
def text (a : WrittenAttribute) : Bytes :=
  a.key ++ (a.before ++ '='.toUInt8 :: (a.behind ++ a.quote :: (a.value ++ [a.quote])))

end WrittenAttribute

theorem takeWhile_append_stop {p : UInt8 → Bool} {x rest : Bytes} (hx : ∀ b ∈ x, p b = true)
    (hrest : ∀ b, rest.head? = some b → p b = false) : (x ++ rest).takeWhile p = x := by
  rw [List.takeWhile_append_of_pos hx]
  cases rest with
  | nil => rw [List.takeWhile_nil, List.append_nil]
  | cons b rest => rw [List.takeWhile_cons_of_neg (by simp [hrest b rfl]), List.append_nil]

theorem blanks_append {x rest : Bytes} (hx : ∀ b ∈ x, isBlank b = true)
    (hrest : ∀ b, rest.head? = some b → isBlank b = false) : blanks (x ++ rest) = x.length := by
  rw [blanks, takeWhile_append_stop hx hrest]

theorem not_blank_of_quote {q : UInt8} (h : q = 0x22 ∨ q = 0x27) : isBlank q = false := by
  rcases h with rfl | rfl <;> decide

/-- The text of an attribute and what follows it, part by part. -/
theorem WrittenAttribute.text_append (a : WrittenAttribute) (rest : Bytes) : a.text ++ rest =
    a.key ++ (a.before ++ '='.toUInt8 :: (a.behind ++ a.quote :: (a.value ++ a.quote :: rest))) := by
  simp [text]

theorem WrittenAttribute.getLast?_text (a : WrittenAttribute) : a.text.getLast? = some a.quote := by
  have htext : a.text =
      (a.key ++ (a.before ++ '='.toUInt8 :: (a.behind ++ a.quote :: a.value))) ++ [a.quote] := by
    simp [text]
  rw [htext, List.getLast?_concat]

/-- The key ends before a blank or the `=`. -/
theorem WrittenAttribute.stop_key (a : WrittenAttribute) (tail : Bytes) (b : UInt8)
    (h : (a.before ++ '='.toUInt8 :: tail).head? = some b) :
    (b != '='.toUInt8 && !isBlank b) = false := by
  cases hbefore : a.before with
  | nil =>
    rw [hbefore, List.nil_append, List.head?_cons, Option.some.injEq] at h
    rw [← h]
    rfl
  | cons c before =>
    rw [hbefore, List.cons_append, List.head?_cons, Option.some.injEq] at h
    have hc := a.before_blank c (by rw [hbefore]; exact List.mem_cons_self)
    rw [← h, hc]
    simp

section Parts

variable (key before behind tail : Bytes) (b : UInt8)

theorem drop_before : (key ++ (before ++ tail)).drop (key.length + before.length) = tail := by
  rw [← List.append_assoc, ← List.length_append, List.drop_left]

theorem drop_equals :
    (key ++ (before ++ b :: tail)).drop (key.length + before.length + 1) = tail := by
  rw [← List.drop_drop, drop_before]
  rfl

theorem drop_behind : (key ++ (before ++ b :: (behind ++ tail))).drop
    (key.length + before.length + 1 + behind.length) = tail := by
  rw [← List.drop_drop, drop_equals, List.drop_left]

end Parts

/-- An attribute is read where it is written. -/
theorem RawAttribute.read_text (a : WrittenAttribute) {seen : List (Bytes × Nat)}
    (unseen : seen.lookup a.key = none) (position : Nat) (rest : Bytes) :
    RawAttribute.read seen position (a.text ++ rest) =
      .ok { key := a.key, value := a.value, length := a.text.length } := by
  have hkey : ∀ tail : Bytes, ((a.key ++ (a.before ++ '='.toUInt8 :: tail)).take 1 ++
      ((a.key ++ (a.before ++ '='.toUInt8 :: tail)).drop 1).takeWhile
        fun b => b != '='.toUInt8 && !isBlank b) = a.key := by
    intro tail
    have hplain : ∀ b ∈ a.others, (b != '='.toUInt8 && !isBlank b) = true := by
      intro b hb
      simp [(a.key_plain b hb).1, (a.key_plain b hb).2]
    have hstop := takeWhile_append_stop hplain (a.stop_key tail)
    exact congrArg (a.first :: ·) hstop
  have hbefore : ∀ tail : Bytes, blanks (a.before ++ '='.toUInt8 :: tail) = a.before.length := by
    intro tail
    refine blanks_append a.before_blank fun b hb => ?_
    rw [List.head?_cons, Option.some.injEq] at hb
    rw [← hb]
    decide
  have hbehind : ∀ tail : Bytes, blanks (a.behind ++ a.quote :: tail) = a.behind.length := by
    intro tail
    refine blanks_append a.behind_blank fun b hb => ?_
    rw [List.head?_cons, Option.some.injEq] at hb
    rw [← hb]
    exact not_blank_of_quote a.quote_eq
  have hvalue : Bytes.indexOf? [a.quote] (a.value ++ a.quote :: rest) = some a.value.length :=
    Bytes.indexOf?_singleton_append a.value_plain
  have hquote : (a.quote == 0x22 || a.quote == 0x27) = true := by
    rcases a.quote_eq with heq | heq <;> rw [heq] <;> rfl
  rw [a.text_append, RawAttribute.read]
  dsimp only
  rw [hkey]
  rw [List.drop_left, hbefore, drop_before, drop_equals, hbehind, drop_behind]
  rw [unseen, if_neg (by simp)]
  dsimp only
  rw [if_pos hquote, hvalue]
  dsimp only
  have hlength : a.key.length + a.before.length + 1 + a.behind.length + 1 + a.value.length + 1 =
      a.text.length := by
    simp only [WrittenAttribute.text, List.length_append, List.length_cons, List.length_nil]
    omega
  rw [List.take_left, hlength]

theorem exists_takeWhile (p : UInt8 → Bool) (text : Bytes) :
    ∃ rest, text = text.takeWhile p ++ rest ∧ ∀ b ∈ text.takeWhile p, p b = true :=
  ⟨text.dropWhile p, List.takeWhile_append_dropWhile.symm,
    fun _ hb => List.all_eq_true.1 List.all_takeWhile _ hb⟩

/-- What is read is an attribute that is written at the start of the text. -/
theorem RawAttribute.exists_of_read {seen : List (Bytes × Nat)} {position : Nat} {text : Bytes}
    {raw : RawAttribute} (h : RawAttribute.read seen position text = .ok raw) :
    ∃ (a : WrittenAttribute) (rest : Bytes), text = a.text ++ rest ∧
      seen.lookup a.key = none ∧ raw = { key := a.key, value := a.value, length := a.text.length } := by
  cases text with
  | nil => simp [RawAttribute.read] at h
  | cons first text =>
    obtain ⟨rest₁, hothers, hplain⟩ :=
      exists_takeWhile (fun b => b != '='.toUInt8 && !isBlank b) text
    obtain ⟨rest₂, hbefore, hblank⟩ := exists_takeWhile isBlank rest₁
    simp only [RawAttribute.read, List.take_succ_cons, List.take_zero, List.drop_one, List.tail_cons,
      List.singleton_append] at h
    generalize text.takeWhile (fun b => b != '='.toUInt8 && !isBlank b) = others at h hothers hplain
    subst hothers
    rw [← List.cons_append, List.drop_left, blanks] at h
    generalize rest₁.takeWhile isBlank = before at h hbefore hblank
    subst hbefore
    rw [drop_before] at h
    split at h
    · cases h
    · next heq =>
      have hhead : rest₂.head? = some '='.toUInt8 := by simpa using heq
      obtain ⟨rest₃, rfl⟩ := List.head?_eq_some_iff.1 hhead
      obtain ⟨rest₄, hbehind, hblank'⟩ := exists_takeWhile isBlank rest₃
      rw [drop_equals, blanks] at h
      generalize rest₃.takeWhile isBlank = behind at h hbehind hblank'
      subst hbehind
      rw [drop_behind] at h
      cases hseen : seen.lookup (first :: others) with
      | some place =>
        rw [hseen] at h
        cases h
      | none =>
        rw [hseen] at h
        cases rest₄ with
        | nil => cases h
        | cons quote rest₅ =>
          dsimp only at h
          split at h
          · next hquote =>
            cases hend : Bytes.indexOf? [quote] rest₅ with
            | none => simp [hend] at h
            | some n =>
              obtain ⟨value, rest, rfl, hvalue, rfl⟩ := Bytes.eq_append_of_indexOf?_singleton hend
              rw [hend, Except.ok.injEq, List.take_left] at h
              have hkey : ∀ b ∈ others, b ≠ '='.toUInt8 ∧ isBlank b = false := by
                intro b hb
                simpa using hplain b hb
              refine ⟨⟨first, others, before, behind, quote, value, hkey, hblank, hblank',
                by simpa using hquote, hvalue⟩, rest, ?_, hseen, ?_⟩
              · rw [WrittenAttribute.text_append]
                rfl
              · rw [← h]
                simp only [WrittenAttribute.key, WrittenAttribute.text, RawAttribute.mk.injEq,
                  List.length_append, List.length_cons, List.length_nil, true_and]
                omega
          · cases h

/-! ## Several attributes -/

theorem attributesFrom_blank {b : UInt8} (hb : isBlank b = true) (seen : List (Bytes × Nat))
    (position : Nat) (rest : Bytes) :
    attributesFrom seen position (b :: rest) = attributesFrom seen (position + 1) rest := by
  rw [attributesFrom, if_pos hb]

/-- An attribute is read, and then those behind it. -/
theorem attributesFrom_text (a : WrittenAttribute) (hfirst : isBlank a.first = false)
    {seen : List (Bytes × Nat)} (unseen : seen.lookup a.key = none) (position : Nat) (rest : Bytes) :
    attributesFrom seen position (a.text ++ rest) = (do
      let value ← readText a.value
      let others ← attributesFrom ((a.key, position) :: seen) (position + a.text.length) rest
      return (Utf8.decodeLossy a.key, value) :: others) := by
  have hcons : ∃ tail, a.text = a.first :: tail := ⟨_, rfl⟩
  obtain ⟨tail, htail⟩ := hcons
  have hread := RawAttribute.read_text a unseen position rest
  have hlength : a.text.length = tail.length + 1 := by rw [htail, List.length_cons]
  rw [htail, List.cons_append] at hread ⊢
  rw [attributesFrom, if_neg (by simp [hfirst]), hread]
  dsimp only
  rw [← htail, hlength, Nat.add_sub_cancel, List.drop_left]

/-- `ReadsAttributes seen position text attributes`: behind the keys `seen` a text is read as
    `attributes`, which are written one after the other with blanks between them. -/
inductive ReadsAttributes :
    List (Bytes × Nat) → Nat → Bytes → List (String × String) → Prop where
  | nil {seen position} : ReadsAttributes seen position [] []
  | blank {seen position b rest attributes} (hb : isBlank b = true)
      (next : ReadsAttributes seen (position + 1) rest attributes) :
      ReadsAttributes seen position (b :: rest) attributes
  | written {seen position rest value others} (a : WrittenAttribute)
      (first : isBlank a.first = false) (unseen : seen.lookup a.key = none)
      (read : readText a.value = .ok value)
      (next : ReadsAttributes ((a.key, position) :: seen) (position + a.text.length) rest others) :
      ReadsAttributes seen position (a.text ++ rest) ((Utf8.decodeLossy a.key, value) :: others)

theorem readsAttributes_of_attributesFrom {seen : List (Bytes × Nat)} {position : Nat}
    {text : Bytes} {attributes : List (String × String)}
    (h : attributesFrom seen position text = .ok attributes) :
    ReadsAttributes seen position text attributes := by
  induction hn : text.length using Nat.strongRecOn generalizing text seen position attributes with
  | ind n ih =>
    cases text with
    | nil =>
      rw [attributesFrom] at h
      cases h
      exact .nil
    | cons b text =>
      rw [List.length_cons] at hn
      by_cases hb : isBlank b = true
      · rw [attributesFrom_blank hb] at h
        exact .blank hb (ih _ (by omega) h rfl)
      · rw [Bool.not_eq_true] at hb
        cases hread : RawAttribute.read seen position (b :: text) with
        | error fault =>
          rw [attributesFrom, if_neg (by simp [hb]), hread] at h
          cases h
        | ok raw =>
          obtain ⟨a, rest, htext, unseen, -⟩ := RawAttribute.exists_of_read hread
          have hfirst : isBlank a.first = false := by
            have := congrArg List.head? htext
            rw [List.head?_cons] at this
            rw [← hb, Option.some.inj this]
          have hlen : rest.length < n := by
            have := congrArg List.length htext
            rw [List.length_cons, List.length_append] at this
            have hpos : 0 < a.text.length := Nat.succ_pos _
            omega
          rw [htext, attributesFrom_text a hfirst unseen] at h
          cases hvalue : readText a.value with
          | error fault =>
            rw [hvalue] at h
            cases h
          | ok value =>
            cases hothers : attributesFrom ((a.key, position) :: seen)
                (position + a.text.length) rest with
            | error fault =>
              rw [hvalue, hothers] at h
              cases h
            | ok others =>
              rw [hvalue, hothers] at h
              cases h
              rw [htext]
              exact .written a hfirst unseen hvalue (ih _ hlen hothers rfl)

/-- The attributes that are read are those that are written. -/
theorem attributesFrom_eq_ok_iff {seen : List (Bytes × Nat)} {position : Nat} {text : Bytes}
    {attributes : List (String × String)} :
    attributesFrom seen position text = .ok attributes ↔
      ReadsAttributes seen position text attributes := by
  refine ⟨readsAttributes_of_attributesFrom, fun h => ?_⟩
  induction h with
  | nil => rw [attributesFrom]
  | blank hb next ih => rw [attributesFrom_blank hb, ih]
  | written a first unseen read next ih =>
    rw [attributesFrom_text a first unseen, read, ih]
    rfl

/-- Blanks behind the last attribute do not matter, and there is nothing else behind it. -/
theorem attributesFrom_trim {seen : List (Bytes × Nat)} {position : Nat} {text : Bytes}
    {attributes : List (String × String)} (h : attributesFrom seen position text = .ok attributes) :
    ∃ front behind, text = front ++ behind ∧ (∀ b ∈ behind, isBlank b = true) ∧
      (∀ b, front.getLast? = some b → b = 0x22 ∨ b = 0x27) ∧
      attributesFrom seen position front = .ok attributes := by
  simp only [attributesFrom_eq_ok_iff] at h ⊢
  induction h with
  | nil => exact ⟨[], [], rfl, by simp, by simp, .nil⟩
  | @blank seen position b rest attributes hb next ih =>
    obtain ⟨front, behind, rfl, hblank, hlast, hfront⟩ := ih
    cases front with
    | nil =>
      refine ⟨[], b :: behind, rfl, ?_, by simp, ?_⟩
      · intro c hc
        rcases List.mem_cons.1 hc with rfl | hc
        · exact hb
        · exact hblank c hc
      · cases hfront
        exact .nil
    | cons c front => exact ⟨b :: c :: front, behind, rfl, hblank, hlast, .blank hb hfront⟩
  | @written seen position rest value others a first unseen read next ih =>
    obtain ⟨front, behind, rfl, hblank, hlast, hfront⟩ := ih
    refine ⟨a.text ++ front, behind, by rw [List.append_assoc], hblank, ?_,
      .written a first unseen read hfront⟩
    intro c hc
    rw [List.getLast?_append] at hc
    cases hfrontLast : front.getLast? with
    | some c' =>
      rw [hfrontLast] at hc
      cases hc
      exact hlast _ hfrontLast
    | none =>
      rw [hfrontLast, a.getLast?_text] at hc
      cases hc
      exact a.quote_eq

/-! ## Written attributes -/

/-- A key that can be written in a tag. -/
def PlainKey (key : String) : Prop :=
  Bytes.ofString key ≠ [] ∧ ∀ b ∈ Bytes.ofString key,
    b ∉ ['='.toUInt8, '>'.toUInt8, 0x22, 0x27] ∧ isBlank b = false

instance (key : String) : Decidable (PlainKey key) := inferInstanceAs (Decidable (_ ∧ _))

theorem writeAttribute_eq (key value : String) : writeAttribute key value =
    0x20 :: (Bytes.ofString key ++ '='.toUInt8 :: 0x22 ::
      (escapeQuoted (Bytes.ofString value) ++ [0x22])) := by
  have hfront : Bytes.ofString (" " ++ key ++ "=\"") =
      0x20 :: (Bytes.ofString key ++ ['='.toUInt8, 0x22]) := by
    simp only [Bytes.ofString, String.toList_append, List.flatMap_append]
    rfl
  rw [writeAttribute, hfront]
  simp only [List.cons_append, List.append_assoc, List.nil_append]
  rfl

theorem exists_writtenAttribute {key : String} (hkey : PlainKey key) (value : String) :
    ∃ a : WrittenAttribute, writeAttribute key value = 0x20 :: a.text ∧
      a.key = Bytes.ofString key ∧ a.value = escapeQuoted (Bytes.ofString value) ∧
      isBlank a.first = false := by
  obtain ⟨hne, hplain⟩ := hkey
  have hwritten := writeAttribute_eq key value
  cases hbytes : Bytes.ofString key with
  | nil => exact absurd hbytes hne
  | cons first others =>
    rw [hbytes] at hplain hwritten
    have hothers : ∀ b ∈ others, b ≠ '='.toUInt8 ∧ isBlank b = false := by
      intro b hb
      obtain ⟨hmem, hblank⟩ := hplain b (List.mem_cons_of_mem _ hb)
      exact ⟨fun heq => hmem (by simp [heq]), hblank⟩
    have hquote : (0x22 : UInt8) ∉ escapeQuoted (Bytes.ofString value) := fun hmem =>
      (not_mem_escapeQuoted _ _ hmem).1 rfl
    exact ⟨⟨first, others, [], [], 0x22, _, hothers, by simp, by simp, Or.inl rfl, hquote⟩,
      hwritten, rfl, rfl, (hplain first List.mem_cons_self).2⟩

/-- An attribute that is written is read back, and then those behind it are read. -/
theorem attributesFrom_writeAttribute {key : String} (hkey : PlainKey key) (value : String)
    {seen : List (Bytes × Nat)} (unseen : seen.lookup (Bytes.ofString key) = none) (position : Nat)
    (rest : Bytes) : attributesFrom seen position (writeAttribute key value ++ rest) = (do
      let others ← attributesFrom ((Bytes.ofString key, position + 1) :: seen)
        (position + (writeAttribute key value).length) rest
      return (Utf8.decodeLossy (Bytes.ofString key), value) :: others) := by
  obtain ⟨a, htext, hkeyEq, hvalue, hfirst⟩ := exists_writtenAttribute hkey value
  have hplace : position + (writeAttribute key value).length = position + 1 + a.text.length := by
    rw [htext, List.length_cons]
    omega
  rw [hplace, htext, List.cons_append, attributesFrom_blank (by decide),
    attributesFrom_text a hfirst (by rw [hkeyEq, unseen]), hkeyEq, hvalue, readText_escapeQuoted]
  rfl

/-! ## Where a tag with attributes ends -/

namespace Markup

/-- Bytes outside quotes are passed, up to the `>`. -/
theorem tagEnd?_append {x : Bytes} (hx : ∀ b ∈ x, b ∉ ['>'.toUInt8, 0x22, 0x27]) (rest : Bytes) :
    tagEnd? none (x ++ rest) = (tagEnd? none rest).map (· + x.length) := by
  have hgreater : '>'.toUInt8 ∉ x := fun hmem => hx _ hmem List.mem_cons_self
  have hquotes : ∀ b ∈ x, b ≠ 0x22 ∧ b ≠ 0x27 := by
    intro b hb
    have hfree := hx b hb
    rw [List.mem_cons, List.mem_cons, List.mem_singleton, not_or, not_or] at hfree
    exact hfree.2
  rw [tagEnd?_append_of_not_mem hgreater, quoteBehind_of_not_mem hquotes fun _ h => by cases h]

/-- So are those in quotes. -/
theorem tagEnd?_value {q : UInt8} {value : Bytes} (hvalue : q ∉ value) (rest : Bytes) :
    tagEnd? (some q) (value ++ q :: rest) = (tagEnd? none rest).map (· + (value.length + 1)) := by
  induction value with
  | nil =>
    rw [List.nil_append, tagEnd?]
    rw [if_pos (beq_self_eq_true q)]
    rfl
  | cons b value ih =>
    rw [List.mem_cons, not_or] at hvalue
    rw [List.cons_append, tagEnd?]
    rw [if_neg (by simpa using Ne.symm hvalue.1), ih hvalue.2, Option.map_map]
    congr 1

/-- A written attribute is passed. -/
theorem tagEnd?_writeAttribute {key : String} (hkey : PlainKey key) (value : String) (rest : Bytes) :
    tagEnd? none (writeAttribute key value ++ rest) =
      (tagEnd? none rest).map (· + (writeAttribute key value).length) := by
  have hquote : (0x22 : UInt8) ∉ escapeQuoted (Bytes.ofString value) := fun hmem =>
    (not_mem_escapeQuoted _ _ hmem).1 rfl
  have hfront : ∀ b ∈ 0x20 :: (Bytes.ofString key ++ ['='.toUInt8]),
      b ∉ ['>'.toUInt8, 0x22, 0x27] := by
    intro b hb
    rw [List.mem_cons, List.mem_append, List.mem_singleton] at hb
    rcases hb with rfl | hb | rfl
    · decide
    · exact fun hmem => (hkey.2 b hb).1 (List.mem_cons_of_mem _ hmem)
    · decide
  have hsplit : writeAttribute key value ++ rest = 0x20 :: (Bytes.ofString key ++ ['='.toUInt8]) ++
      0x22 :: (escapeQuoted (Bytes.ofString value) ++ 0x22 :: rest) := by
    rw [writeAttribute_eq]
    simp
  have hlength : (writeAttribute key value).length =
      (0x20 :: (Bytes.ofString key ++ ['='.toUInt8])).length +
        ((escapeQuoted (Bytes.ofString value)).length + 2) := by
    rw [writeAttribute_eq]
    simp only [List.length_cons, List.length_append, List.length_nil]
    omega
  rw [hsplit, tagEnd?_append hfront, tagEnd?]
  rw [if_neg (by decide), if_pos (by decide), tagEnd?_value hquote, Option.map_map, Option.map_map,
    hlength]
  congr 1
  funext n
  simp only [Function.comp_apply]
  omega

/-- A text that ends inside quotes holds no end of the tag. -/
theorem tagEnd?_of_not_mem {q : UInt8} {text : Bytes} (h : q ∉ text) :
    tagEnd? (some q) text = none := by
  induction text with
  | nil => rw [tagEnd?]
  | cons b text ih =>
    rw [List.mem_cons, not_or] at h
    rw [tagEnd?]
    rw [if_neg (by simpa using Ne.symm h.1), ih h.2]
    rfl

/-- A tag that ends behind bytes without quotes may end before them. -/
theorem tagEnd?_of_append {quote? : Option UInt8} {x y : Bytes}
    (hy : ∀ b ∈ y, b ∉ [0x22, 0x27]) (hquote : ∀ q, quote? = some q → q ∈ [0x22, 0x27])
    (h : tagEnd? quote? (x ++ (y ++ ['>'.toUInt8])) = some (x.length + y.length)) :
    tagEnd? quote? (x ++ ['>'.toUInt8]) = some x.length := by
  induction x generalizing quote? with
  | nil =>
    cases quote? with
    | none => rfl
    | some q =>
      have hmem : q ∉ y ++ ['>'.toUInt8] := by
        have hq := hquote q rfl
        rw [List.mem_append, List.mem_singleton, not_or]
        refine ⟨fun hmem => hy q hmem hq, ?_⟩
        rintro rfl
        revert hq
        decide
      rw [List.nil_append, tagEnd?_of_not_mem hmem] at h
      cases h
  | cons b x ih =>
    rw [List.cons_append, tagEnd?_cons] at h ⊢
    split at h
    · -- The tag would end at once.
      rw [List.length_cons, Option.some.injEq] at h
      omega
    · next hgreater =>
      rw [if_neg hgreater]
      obtain ⟨n, hn, hlen⟩ := Option.map_eq_some_iff.1 h
      rw [List.length_cons] at hlen
      rw [ih (quote_of_quoteStep hquote) (by rw [hn]; congr 1; omega)]
      rfl

end Markup

end DocxTemplate.Xml
