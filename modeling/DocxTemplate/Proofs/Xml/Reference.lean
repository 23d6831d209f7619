import DocxTemplate.Proofs.Text.Utf8
import DocxTemplate.Xml.Reference

/-! # Text in two parts

    Character data may be read in parts: where the first part can be read by itself, the
    whole reads as what the two parts read as, one after the other.

    * `Unescapes`: what characters read as, and `Unescapes.append` and `Unescapes.of_append`:
      this for the references among the characters of a text.
    * `readText_append` and `readText_of_append`: the same for a text.
    * `readText_before_brace`: no reference goes on across a brace.
-/

namespace DocxTemplate

namespace Xml

/-- Whether a reference can be read does not depend on where it stands. -/
theorem dereference_ok {p : Nat} {name : List Char} {c : Char} (h : dereference p name = .ok c)
    (q : Nat) : dereference q name = .ok c := by
  unfold dereference at h ⊢
  split at h
  · exact h
  · cases hc : entity? name with
    | none => simp only [hc, reduceCtorEq] at h
    | some c' => simpa only [hc] using h

/-- Whether a character may stand between the `&` and the `;` of a reference. -/
def inReference (c : Char) : Bool := c != '&' && c != ';'

theorem takeWhile_inReference {name : List Char} (hname : ∀ c ∈ name, inReference c = true)
    (tail : List Char) : (name ++ ';' :: tail).takeWhile inReference = name := by
  rw [List.takeWhile_append_of_pos hname, List.takeWhile_cons_of_neg (by decide), List.append_nil]

/-- A reference is read up to the first `;`. -/
theorem unescapeFrom_reference {size position : Nat} {name tail : List Char}
    (hname : ∀ c ∈ name, inReference c = true) :
    unescapeFrom size position ('&' :: (name ++ ';' :: tail)) = (do
      let value ← dereference (position + 1) name
      (value :: ·) <$> unescapeFrom size (position + byteSize name + 2) tail) := by
  have htake := takeWhile_inReference hname tail
  unfold inReference at htake
  rw [unescapeFrom, if_neg (by decide), htake]
  dsimp only
  rw [List.drop_left, if_pos (by simp), ← List.drop_drop, List.drop_left, List.drop_one,
    List.tail_cons]

/-- The name of a reference goes up to the first `;`. -/
theorem reference_split {text : List Char}
    (h : (text.drop (text.takeWhile inReference).length).head? = some ';') :
    ∃ name tail, text = name ++ ';' :: tail ∧ ∀ c ∈ name, inReference c = true := by
  have hsplit : text.takeWhile inReference ++ text.dropWhile inReference = text :=
    List.takeWhile_append_dropWhile
  have hdrop : (text.takeWhile inReference ++ text.dropWhile inReference).drop
      (text.takeWhile inReference).length = text.dropWhile inReference := List.drop_left
  rw [hsplit] at hdrop
  rw [hdrop, List.head?_eq_some_iff] at h
  obtain ⟨tail, htail⟩ := h
  rw [htail] at hsplit
  exact ⟨_, tail, hsplit.symm, fun c hc => List.all_eq_true.1 List.all_takeWhile c hc⟩

/-- Characters read as others: each reference among them stands for one. -/
inductive Unescapes : List Char → List Char → Prop where
  | nil : Unescapes [] []
  | plain {c : Char} {text value : List Char} (hc : c ≠ '&') (h : Unescapes text value) :
      Unescapes (c :: text) (c :: value)
  | reference {name tail value : List Char} {c : Char}
      (hname : ∀ d ∈ name, inReference d = true) (hc : dereference 0 name = .ok c)
      (h : Unescapes tail value) : Unescapes ('&' :: (name ++ ';' :: tail)) (c :: value)

theorem unescapes_of_unescapeFrom {size position : Nat} {text value : List Char}
    (h : unescapeFrom size position text = .ok value) : Unescapes text value := by
  induction hn : text.length using Nat.strongRecOn generalizing text value position with
  | ind n ih =>
    cases text with
    | nil =>
      rw [unescapeFrom] at h
      cases h
      exact .nil
    | cons c text =>
      rw [List.length_cons] at hn
      by_cases hc : c = '&'
      · subst hc
        have hsemi : (text.drop (text.takeWhile inReference).length).head? = some ';' := by
          by_contra hno
          unfold inReference at hno
          rw [unescapeFrom, if_neg (by decide)] at h
          dsimp only at h
          rw [if_neg (by simpa using hno)] at h
          cases h
        obtain ⟨name, tail, rfl, hname⟩ := reference_split hsemi
        rw [List.length_append, List.length_cons] at hn
        rw [unescapeFrom_reference hname] at h
        cases hv : dereference (position + 1) name with
        | error fault =>
          rw [hv] at h
          cases h
        | ok c =>
          cases ht : unescapeFrom size (position + byteSize name + 2) tail with
          | error fault =>
            rw [hv, ht] at h
            cases h
          | ok value' =>
            rw [hv, ht] at h
            cases h
            exact .reference hname (dereference_ok hv 0) (ih _ (by omega) ht rfl)
      · rw [unescapeFrom, if_pos (by simpa using hc)] at h
        cases ht : unescapeFrom size (position + c.utf8Size) text with
        | error fault =>
          rw [ht] at h
          cases h
        | ok value' =>
          rw [ht] at h
          cases h
          exact .plain hc (ih _ (by omega) ht rfl)

theorem unescapeFrom_eq_ok_iff {size position : Nat} {text value : List Char} :
    unescapeFrom size position text = .ok value ↔ Unescapes text value := by
  refine ⟨unescapes_of_unescapeFrom, fun h => ?_⟩
  induction h generalizing position with
  | nil => rw [unescapeFrom]
  | plain hc _ ih =>
    rw [unescapeFrom, if_pos (by simpa using hc), ih]
    rfl
  | reference hname hc _ ih =>
    rw [unescapeFrom_reference hname, dereference_ok hc]
    dsimp only [bind, Except.bind]
    rw [ih]
    rfl

namespace Unescapes

variable {front rest value value' : List Char}

theorem append (h : Unescapes front value) (h' : Unescapes rest value') :
    Unescapes (front ++ rest) (value ++ value') := by
  induction h with
  | nil => exact h'
  | plain hc _ ih => exact .plain hc ih
  | reference hname hc _ ih =>
    rw [List.cons_append, List.append_assoc, List.cons_append]
    exact .reference hname hc ih

theorem plain_inv {c : Char} (h : Unescapes (c :: rest) value) (hc : c ≠ '&') :
    ∃ others, Unescapes rest others ∧ value = c :: others := by
  cases h with
  | plain _ h => exact ⟨_, h, rfl⟩
  | reference => exact absurd rfl hc

/-- A reference is cut at its first `;`. -/
theorem reference_inv {name tail : List Char} (h : Unescapes ('&' :: (name ++ ';' :: tail)) value)
    (hname : ∀ c ∈ name, inReference c = true) :
    ∃ c others, dereference 0 name = .ok c ∧ Unescapes tail others ∧ value = c :: others := by
  generalize htext : name ++ ';' :: tail = text at h
  cases h with
  | plain hc => exact absurd rfl hc
  | @reference name' tail' others c hname' hc h =>
    obtain rfl : name = name' := by
      rw [← takeWhile_inReference hname tail, htext, takeWhile_inReference hname' tail']
    obtain rfl : tail = tail' := (List.cons.inj (List.append_cancel_left htext)).2
    exact ⟨c, others, hc, h, rfl⟩

/-- Where the first part of a text can be read, the rest is read by itself. -/
theorem of_append {v : List Char} (h : Unescapes front value) (h' : Unescapes (front ++ rest) v) :
    ∃ value', Unescapes rest value' ∧ v = value ++ value' := by
  induction h generalizing v with
  | nil => exact ⟨v, h', rfl⟩
  | plain hc _ ih =>
    obtain ⟨others, hothers, rfl⟩ := h'.plain_inv hc
    obtain ⟨value', hrest, rfl⟩ := ih hothers
    exact ⟨value', hrest, rfl⟩
  | reference hname hc _ ih =>
    rw [List.cons_append, List.append_assoc, List.cons_append] at h'
    obtain ⟨c', others, hc', hothers, rfl⟩ := h'.reference_inv hname
    rw [hc, Except.ok.injEq] at hc'
    subst hc'
    obtain ⟨value', hrest, rfl⟩ := ih hothers
    exact ⟨value', hrest, rfl⟩

end Unescapes

/-! ## Texts -/

/-- A text is read if its characters are, and then their references. -/
theorem readText_eq_ok_iff {raw : Bytes} {s : String} : readText raw = .ok s ↔
    ∃ text value, Utf8.decodeFrom 0 raw = .ok text ∧
      Unescapes text value ∧ String.ofList value = s := by
  unfold readText unescape
  cases hd : Utf8.decodeFrom 0 raw with
  | error fault => simp
  | ok text =>
    cases hv : unescapeFrom (byteSize text) 0 text with
    | error fault =>
      have hno : ∀ value, ¬ Unescapes text value := by
        intro value h
        rw [unescapeFrom_eq_ok_iff.2 h] at hv
        cases hv
      simp [hv, hno]
    | ok value =>
      have hvalue : ∀ value', Unescapes text value' ↔ value = value' := by
        intro value'
        rw [← unescapeFrom_eq_ok_iff, hv, Except.ok.injEq]
      simp [hv, hvalue]

theorem readText_nil : readText [] = .ok "" := by
  refine readText_eq_ok_iff.2 ⟨[], [], ?_, .nil, rfl⟩
  rw [Utf8.decodeFrom]

/-- Two parts that can be read make a text that can be read. -/
theorem readText_append {front rest : Bytes} {s s' : String} (h : readText front = .ok s)
    (h' : readText rest = .ok s') : readText (front ++ rest) = .ok (s ++ s') := by
  obtain ⟨text, value, hd, hv, rfl⟩ := readText_eq_ok_iff.1 h
  obtain ⟨text', value', hd', hv', rfl⟩ := readText_eq_ok_iff.1 h'
  refine readText_eq_ok_iff.2 ⟨text ++ text', value ++ value', ?_, hv.append hv', ?_⟩
  · have hsecond := Utf8.decodeFrom_append hd' (0 + front.length) []
    rw [List.append_nil] at hsecond
    rw [Utf8.decodeFrom_append hd 0, hsecond]
    simp [Utf8.decodeFrom]
  · rw [String.ofList_append]

/-- Where a text and its first part can be read, so can the rest. -/
theorem readText_of_append {front rest : Bytes} {s v : String} (h : readText front = .ok s)
    (h' : readText (front ++ rest) = .ok v) : ∃ s', readText rest = .ok s' ∧ v = s ++ s' := by
  obtain ⟨text, value, hd, hv, rfl⟩ := readText_eq_ok_iff.1 h
  obtain ⟨whole, value', hd', hv', rfl⟩ := readText_eq_ok_iff.1 h'
  rw [Utf8.decodeFrom_append hd 0] at hd'
  cases hr : Utf8.decodeFrom (0 + front.length) rest with
  | error fault =>
    rw [hr] at hd'
    cases hd'
  | ok text' =>
    rw [hr] at hd'
    cases hd'
    obtain ⟨value'', hrest, rfl⟩ := hv.of_append hv'
    refine ⟨String.ofList value'', readText_eq_ok_iff.2 ⟨text', value'', ?_, hrest, rfl⟩, ?_⟩
    · have hsecond := Utf8.decodeFrom_append hr 0 []
      rw [List.append_nil] at hsecond
      rw [hsecond]
      simp [Utf8.decodeFrom]
    · rw [String.ofList_append]

/-! ## References that can be read -/

theorem digits_of_digitsFrom {base value n : Nat} {digits : List Char}
    (h : digitsFrom base value digits = .ok n) : ∀ c ∈ digits, (digitValue? base c).isSome := by
  induction digits generalizing value with
  | nil => exact nofun
  | cons d digits ih =>
    rw [digitsFrom] at h
    split at h
    · cases h
    · next k hd =>
      split at h
      · intro c hc
        rcases List.mem_cons.1 hc with rfl | hc
        · rw [hd]
          rfl
        · exact ih h c hc
      · cases h

/-- A number that can be read consists of digits of its base. -/
theorem digits_of_readNumber {base n : Nat} {digits : List Char}
    (h : readNumber base digits = .ok n) :
    digits ≠ [] ∧ ∀ c ∈ digits, (digitValue? base c).isSome := by
  unfold readNumber at h
  split at h
  · cases h
  · split at h
    · cases h
    · exact ⟨List.cons_ne_nil _ _, digits_of_digitsFrom h⟩

/-- The names of the entities. -/
def entityNames : List String := ["lt", "gt", "amp", "apos", "quot"]

theorem mem_entityNames_of_entity? {name : List Char} {c : Char} (h : entity? name = some c) :
    name ∈ entityNames.map String.toList := by
  have hname : String.ofList name ∈ entityNames := by
    unfold entity? at h
    split at h
    all_goals first
      | next heq => rw [heq]; decide
      | cases h
  rw [← String.toList_ofList (l := name)]
  exact List.mem_map_of_mem hname

/-- A reference that can be read is the name of an entity, or a decimal or hexadecimal number. -/
theorem dereference_cases {p : Nat} {name : List Char} {c : Char}
    (h : dereference p name = .ok c) : name ∈ entityNames.map String.toList ∨
      (∃ digits, name = '#' :: digits ∧ digits ≠ [] ∧ ∀ d ∈ digits, (digitValue? 10 d).isSome) ∨
      ∃ digits, name = '#' :: 'x' :: digits ∧ digits ≠ [] ∧
        ∀ d ∈ digits, (digitValue? 16 d).isSome := by
  unfold dereference at h
  split at h
  · next digits =>
    cases hn : numberedChar digits with
    | error fault =>
      rw [hn] at h
      cases h
    | ok n =>
      -- The digits are decimal, or hexadecimal behind an `x`.
      unfold numberedChar at hn
      split at hn
      · next hex =>
        cases hr : readNumber 16 hex with
        | error fault =>
          rw [hr] at hn
          cases hn
        | ok code => exact Or.inr (Or.inr ⟨hex, rfl, digits_of_readNumber hr⟩)
      · cases hr : readNumber 10 digits with
        | error fault =>
          rw [hr] at hn
          cases hn
        | ok code => exact Or.inr (Or.inl ⟨digits, rfl, digits_of_readNumber hr⟩)
  · cases he : entity? name with
    | none =>
      rw [he] at h
      cases h
    | some value => exact Or.inl (mem_entityNames_of_entity? he)

/-! ## Text around braces -/

/-- No brace stands in a reference that can be read. -/
theorem not_mem_of_dereference {c value : Char} (hc : c ∈ ['\x7b', '\x7d']) {p : Nat}
    {name : List Char} (h : dereference p name = .ok value) : c ∉ name := by
  have hdigit : ∀ {base : Nat} {digits : List Char},
      (∀ d ∈ digits, (digitValue? base d).isSome) → c ∉ digits := by
    intro base digits hdigits hmem
    have hsome := hdigits c hmem
    rw [List.mem_cons, List.mem_singleton] at hc
    rcases hc with rfl | rfl <;> cases hsome
  have hname : ∀ name ∈ entityNames.map String.toList, c ∉ name ∧ c ≠ '#' ∧ c ≠ 'x' := by
    rw [List.mem_cons, List.mem_singleton] at hc
    rcases hc with rfl | rfl <;> decide
  have hletter := (hname _ List.mem_cons_self).2
  rcases dereference_cases h with hmem | ⟨digits, rfl, -, hdigits⟩ | ⟨digits, rfl, -, hdigits⟩
  · exact (hname name hmem).1
  · rw [List.mem_cons, not_or]
    exact ⟨hletter.1, hdigit hdigits⟩
  · rw [List.mem_cons, List.mem_cons, not_or, not_or]
    exact ⟨hletter.1, hletter.2, hdigit hdigits⟩

/-- References that can be read lie on one side of a brace. -/
theorem Unescapes.before_brace {c : Char} (hc : c ∈ ['\x7b', '\x7d']) {front rest value : List Char}
    (h : Unescapes (front ++ c :: rest) value) : ∃ value', Unescapes front value' := by
  generalize htext : front ++ c :: rest = text at h
  induction h generalizing front with
  | nil => simp at htext
  | plain hd _ ih =>
    cases front with
    | nil => exact ⟨[], .nil⟩
    | cons d front =>
      obtain ⟨rfl, hrest⟩ := List.cons.inj htext
      obtain ⟨value', hvalue'⟩ := ih hrest
      exact ⟨d :: value', .plain hd hvalue'⟩
  | @reference name tail others v hname hv _ ih =>
    cases front with
    | nil => exact ⟨[], .nil⟩
    | cons d front =>
      obtain ⟨rfl, hrest⟩ := List.cons.inj htext
      have hsemi : c ≠ ';' := by
        rintro rfl
        exact absurd hc (by decide)
      -- The name and its `;` come before the brace.
      rcases List.append_eq_append_iff.1 hrest with ⟨more, hname', hmore⟩ | ⟨more, rfl, hmore⟩
      · cases more with
        | nil => exact absurd (List.cons.inj hmore).1 hsemi
        | cons e more =>
          obtain ⟨rfl, -⟩ := List.cons.inj hmore
          exact absurd (by rw [hname']; simp) (not_mem_of_dereference hc hv)
      · cases more with
        | nil => exact absurd (List.cons.inj hmore).1.symm hsemi
        | cons e more =>
          obtain ⟨rfl, htail⟩ := List.cons.inj hmore
          obtain ⟨value', hvalue'⟩ := ih htail.symm
          exact ⟨v :: value', .reference hname hv hvalue'⟩

/-- A text that can be read may be cut in front of a brace. -/
theorem readText_before_brace {b : UInt8} (hb : b ∈ [0x7B, 0x7D]) {front rest : Bytes} {s : String}
    (h : readText (front ++ b :: rest) = .ok s) : ∃ s', readText front = .ok s' := by
  have hascii : b < 0x80 ∧ Char.ofNat b.toNat ∈ ['\x7b', '\x7d'] := by
    rw [List.mem_cons, List.mem_singleton] at hb
    rcases hb with rfl | rfl <;> decide
  obtain ⟨text, value, hd, hv, -⟩ := readText_eq_ok_iff.1 h
  obtain ⟨before, behind, hbefore, rfl⟩ := Utf8.decodeFrom_of_append hascii.1 hd
  obtain ⟨value', hvalue'⟩ := hv.before_brace hascii.2
  exact ⟨String.ofList value', readText_eq_ok_iff.2 ⟨before, value', hbefore, hvalue', rfl⟩⟩

end Xml

end DocxTemplate
