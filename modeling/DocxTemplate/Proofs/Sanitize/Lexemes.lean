import DocxTemplate.Proofs.Sanitize.Deletions
import DocxTemplate.Proofs.Sanitize.MarkerPass

/-! # Documents as lexemes

    A document part as a word processor writes it, without the nesting: tags and texts,
    one behind the other, whether or not the tags match.

    * `Attribute`: a key with its value, written between double quotes behind one space.
    * `Lexeme`: a start tag, an empty tag, an end tag or a text.
    * `serialize`: the text of a list of lexemes.
    * `startsToken_written_iff`: a token stands at a lexeme exactly if this is a start tag
      or an empty tag with the name that the token spells.
    * `clear_written`: it stands at no other place inside.

    A pass reaches the border of the next lexeme in one of two ways. Either it has worked up to
    there, or it might as well have started there: `Scan.run_eq_of_next_eq`.
-/

namespace DocxTemplate

/-- Two states with the same next step lead to the same result. -/
theorem Scan.run_eq_of_next_eq {σ ρ : Type} {scan : Scan σ ρ} {s t : σ}
    (h : scan.next s = scan.next t) : scan.run s = scan.run t := by
  cases ht : scan.next t with
  | more u => rw [run_of_more (h.trans ht), run_of_more ht]
  | done r => rw [run_of_done (h.trans ht), run_of_done ht]

theorem Cursor.advance_advance (c : Cursor) (m n : Nat) :
    (c.advance m).advance n = c.advance (m + n) := by
  simp only [advance, List.drop_drop, List.take_add, List.reverse_append, List.append_assoc]

namespace Sanitize

/-! ## Lexemes -/

/-- No byte of a word has a meaning in a tag: it holds no white space, no angle bracket, no
    slash, no `=` and no quote. -/
def IsWord (word : Bytes) : Prop :=
  ∀ b ∈ word, endsName b = false ∧ b ∉ ['<'.toUInt8, '='.toUInt8, 0x22, 0x27]

instance (word : Bytes) : Decidable (IsWord word) := inferInstanceAs (Decidable (∀ b ∈ word, _))

/-- An attribute of a tag. -/
structure Attribute where
  key : Bytes
  value : Bytes
  deriving DecidableEq, Repr

namespace Attribute

/-- The value with its quotes. -/
def quoted (a : Attribute) : Bytes := 0x22 :: (a.value ++ [0x22])

/-- The text of an attribute, with the space before it. -/
def written (a : Attribute) : Bytes := ' '.toUInt8 :: (a.key ++ '='.toUInt8 :: a.quoted)

/-- The key is a word. The value holds neither markup nor the quote that ends it. -/
structure Plain (a : Attribute) : Prop where
  key : IsWord a.key
  value : Unbracketed a.value
  unquoted : 0x22 ∉ a.value

theorem plain_iff {a : Attribute} :
    a.Plain ↔ IsWord a.key ∧ Unbracketed a.value ∧ 0x22 ∉ a.value := by
  constructor
  · intro h
    exact ⟨h.key, h.value, h.unquoted⟩
  · intro ⟨hkey, hvalue, hunquoted⟩
    exact ⟨hkey, hvalue, hunquoted⟩

instance (a : Attribute) : Decidable a.Plain := decidable_of_iff _ plain_iff.symm

end Attribute

/-- A tag, or the text between two tags. -/
inductive Lexeme where
  | start (name : Bytes) (attributes : List Attribute)
  | empty (name : Bytes) (attributes : List Attribute)
  | close (name : Bytes)
  | text (data : Bytes)
  deriving DecidableEq, Repr

namespace Lexeme

/-- The text of a lexeme. -/
def written : Lexeme → Bytes
  | start name attributes => tag (name ++ attributes.flatMap Attribute.written)
  | empty name attributes => tag (name ++ (attributes.flatMap Attribute.written ++ ['/'.toUInt8]))
  | close name => tag ('/'.toUInt8 :: name)
  | text data => data

/-- What a lexeme may be made of. A text is not empty and holds no markup. -/
def Plain : Lexeme → Prop
  | start name attributes | empty name attributes => IsWord name ∧ ∀ a ∈ attributes, a.Plain
  | close name => IsWord name
  | text data => data ≠ [] ∧ Unbracketed data

instance : (l : Lexeme) → Decidable l.Plain
  | start _ _ | empty _ _ => inferInstanceAs (Decidable (_ ∧ _))
  | close name => inferInstanceAs (Decidable (IsWord name))
  | text _ => inferInstanceAs (Decidable (_ ∧ _))

/-- Whether a lexeme is a start tag or an empty tag with this name. -/
def Opens (key : Bytes) : Lexeme → Prop
  | start name _ | empty name _ => name = key
  | close _ | text _ => False

end Lexeme

/-- The text of a document. -/
def serialize (doc : List Lexeme) : Bytes := doc.flatMap Lexeme.written

@[simp] theorem serialize_nil : serialize [] = [] := rfl

@[simp] theorem serialize_cons (l : Lexeme) (doc : List Lexeme) :
    serialize (l :: doc) = l.written ++ serialize doc := rfl

@[simp] theorem serialize_append (doc doc' : List Lexeme) :
    serialize (doc ++ doc') = serialize doc ++ serialize doc' := List.flatMap_append

/-! ## Words -/

namespace IsWord

variable {word : Bytes}

theorem unended (h : IsWord word) : Unended word := fun b hb => (h b hb).1

/-- A byte that means something in a tag is in no word. -/
theorem not_mem (h : IsWord word) {c : UInt8}
    (hc : endsName c = true ∨ c ∈ ['<'.toUInt8, '='.toUInt8, 0x22, 0x27]) : c ∉ word := by
  intro hmem
  obtain ⟨hends, hother⟩ := h c hmem
  rcases hc with hc | hc
  · rw [hc] at hends
    exact Bool.noConfusion hends
  · exact hother hc

theorem unbracketed (h : IsWord word) : Unbracketed word :=
  ⟨h.not_mem (Or.inr (by decide)), h.not_mem (Or.inl (by decide))⟩

theorem ne_quote (h : IsWord word) : ∀ b ∈ word, b ≠ 0x22 ∧ b ≠ 0x27 := by
  intro b hb
  have hother := (h b hb).2
  simp only [List.mem_cons, not_or] at hother
  exact ⟨hother.2.2.1, hother.2.2.2.1⟩

theorem no_equals (h : IsWord word) : '='.toUInt8 ∉ word := h.not_mem (Or.inr (by decide))

end IsWord

theorem PlainName.isWord {name : String} (h : PlainName name) : IsWord (Bytes.ofString name) := h.2

/-! ## Attributes -/

namespace Attribute

variable {a : Attribute} {attributes : List Attribute}

theorem Plain.unbracketed_quoted (h : a.Plain) : Unbracketed a.quoted := by
  have hquote : Unbracketed [0x22] := by decide
  show Unbracketed ([0x22] ++ (a.value ++ [0x22]))
  exact hquote.append (h.value.append hquote)

theorem Plain.unbracketed_written (h : a.Plain) : Unbracketed a.written := by
  have hspace : Unbracketed [' '.toUInt8] := by decide
  have hequals : Unbracketed ['='.toUInt8] := by decide
  show Unbracketed ([' '.toUInt8] ++ (a.key ++ (['='.toUInt8] ++ a.quoted)))
  exact hspace.append (h.key.unbracketed.append (hequals.append h.unbracketed_quoted))

theorem unbracketed_flatMap_written (h : ∀ a ∈ attributes, a.Plain) :
    Unbracketed (attributes.flatMap written) := by
  induction attributes with
  | nil => decide
  | cons a attributes ih =>
    rw [List.forall_mem_cons] at h
    rw [List.flatMap_cons]
    exact h.1.unbracketed_written.append (ih h.2)

/-- An attribute ends with its quote. -/
theorem getLast?_written : a.written.getLast? = some 0x22 := by
  have hsplit : a.written =
      ' '.toUInt8 :: (a.key ++ '='.toUInt8 :: 0x22 :: a.value) ++ [0x22] := by
    simp only [written, quoted, List.cons_append, List.append_assoc]
  rw [hsplit, List.getLast?_concat]

/-- The name of a tag ends before its attributes and before the end of the tag. -/
theorem nameEnds_flatMap_written (attributes : List Attribute) {rest : Bytes}
    (h : NameEnds rest) : NameEnds (attributes.flatMap written ++ rest) := by
  cases attributes with
  | nil => exact h
  | cons a attributes =>
    -- An attribute begins with a space.
    exact ⟨' '.toUInt8, rfl, by decide⟩

end Attribute

/-! ## Tokens -/

namespace Lexeme

variable {l : Lexeme} {key : Bytes}

/-- A lexeme that is a tag begins with the only `<` that stands in it. -/
theorem Plain.clear {P : Bytes → Prop} {rest : Bytes} (h : l.Plain) (hP : AtTags P)
    (hstart : ¬ P (l.written ++ rest)) : Clear P l.written rest := by
  -- What stands in a tag holds no `<`, and neither does a text.
  have htag : ∀ inner : Bytes, Unbracketed inner → ¬ P (tag inner ++ rest) →
      Clear P (tag inner) rest := by
    intro inner hinner hnot
    apply clear_tag hP
    · rw [List.mem_append, not_or]
      exact ⟨hinner.1, by decide⟩
    · exact hnot
  have hslash : Unbracketed ['/'.toUInt8] := by decide
  cases l with
  | start name attributes =>
    have hattributes := Attribute.unbracketed_flatMap_written h.2
    exact htag _ (h.1.unbracketed.append hattributes) hstart
  | empty name attributes =>
    have hattributes := Attribute.unbracketed_flatMap_written h.2
    exact htag _ (h.1.unbracketed.append (hattributes.append hslash)) hstart
  | close name => exact htag _ (hslash.append h.unbracketed) hstart
  | text data => exact clear_data hP h.2.1

/-- A token stands at a lexeme exactly if this is a start tag or an empty tag with the name that
    the token spells. A token of no name would stand at end tags. -/
theorem Plain.startsToken_written_iff (h : l.Plain) (hkey : IsWord key) (hne : key ≠ [])
    (rest : Bytes) : StartsToken ('<'.toUInt8 :: key) (l.written ++ rest) ↔ l.Opens key := by
  cases l with
  | start name attributes =>
    have hends : NameEnds ('>'.toUInt8 :: rest) := ⟨_, rfl, by decide⟩
    have hiff := startsToken_name_iff hkey.unended h.1.unended
      (Attribute.nameEnds_flatMap_written attributes hends)
    simp only [written, tag, List.cons_append, List.append_assoc, List.nil_append]
    rw [startsToken_cons_iff, hiff]
    exact eq_comm
  | empty name attributes =>
    have hends : NameEnds ('/'.toUInt8 :: '>'.toUInt8 :: rest) := ⟨_, rfl, by decide⟩
    have hiff := startsToken_name_iff hkey.unended h.1.unended
      (Attribute.nameEnds_flatMap_written attributes hends)
    simp only [written, tag, List.cons_append, List.append_assoc, List.nil_append]
    rw [startsToken_cons_iff, hiff]
    exact eq_comm
  | close name =>
    simp only [written, tag, List.cons_append, Opens, iff_false]
    rw [startsToken_cons_iff]
    exact Marker.not_startsToken_slash hkey.unended hne
  | text data =>
    simp only [written, Opens, iff_false]
    intro hs
    obtain ⟨hdata, hlt, -⟩ := h
    have hhead := hs.head?_eq
    rw [List.head?_append_of_ne_nil _ hdata] at hhead
    exact hlt (List.mem_of_mem_head? hhead)

/-- In a lexeme that is no start tag and no empty tag with its name a token stands nowhere. -/
theorem Plain.clear_written (h : l.Plain) (hkey : IsWord key) (hne : key ≠ []) (hl : ¬ l.Opens key)
    (rest : Bytes) : Clear (StartsToken ('<'.toUInt8 :: key)) l.written rest := by
  apply h.clear (atTags_startsToken key)
  rw [h.startsToken_written_iff hkey hne]
  exact hl

end Lexeme

end Sanitize

end DocxTemplate
