import DocxTemplate.Proofs.Text.Decoding
import DocxTemplate.Proofs.Text.Search
import DocxTemplate.Text.Scan

/-! # Between characters

    A text is cut at byte positions, and such a cut leaves text on both sides only if it falls
    between two characters.

    * `Whole`: a text that is UTF-8 throughout.
    * `Whole.split`: a whole text splits before every byte that can begin a character.
    * `isBoundary_iff`: the boundaries of a whole text are the places where it splits into two
      whole texts.
    * `InsideCharacter`: where a whole text has no boundary, apart from what is beyond its end.
    * `Bytes.slice?`, `Bytes.cut?`, `Bytes.indexFrom?`: working with positions, where nothing
      comes of a position that is out of order, beyond the end or inside a character.
    * `Cursor.Between`: a cursor between two characters, and what the slices around it are.
-/

namespace DocxTemplate

variable {text x y z pattern : Bytes} {b : UInt8}

/-- A text that is UTF-8 throughout. -/
def Whole (text : Bytes) : Prop := ∃ s : String, text = Bytes.ofString s

/-- A byte that a character begins with, and not one that goes on with it. -/
def Utf8.Begins (b : UInt8) : Prop := b < 0x80 ∨ 0xC0 ≤ b

/-! ## The bytes of a character -/

theorem Utf8.begins_iff : Utf8.Begins b ↔ b.toNat < 128 ∨ 192 ≤ b.toNat :=
  or_congr UInt8.lt_iff_toNat_lt UInt8.le_iff_toNat_le

/-- Of the bytes of a character the first one begins it, and no other could. -/
theorem Utf8.exists_utf8EncodeChar (c : Char) : ∃ b rest, String.utf8EncodeChar c = b :: rest ∧
    Utf8.Begins b ∧ ∀ a ∈ rest, ¬ Utf8.Begins a := by
  have htail : ∀ n, ¬ Utf8.Begins (UInt8.ofNat (n % 64 + 128)) := by
    intro n
    rw [begins_iff, tail_bits]
    omega
  rcases utf8EncodeChar_cases c with ⟨hc, h⟩ | ⟨-, -, h⟩ | ⟨-, -, h⟩ | ⟨-, h⟩
  · refine ⟨_, [], h, ?_, by simp⟩
    rw [begins_iff, toNat_ofNat (by omega)]
    omega
  · refine ⟨_, _, h, ?_, List.forall_mem_singleton.2 (htail _)⟩
    rw [begins_iff, toNat_ofNat (by omega)]
    omega
  · refine ⟨_, _, h, ?_, List.forall_mem_cons.2 ⟨htail _, List.forall_mem_singleton.2 (htail _)⟩⟩
    rw [begins_iff, toNat_ofNat (by omega)]
    omega
  · refine ⟨_, _, h, ?_, List.forall_mem_cons.2 ⟨htail _, List.forall_mem_cons.2
      ⟨htail _, List.forall_mem_singleton.2 (htail _)⟩⟩⟩
    rw [begins_iff, toNat_ofNat (by omega)]
    omega

/-! ## Whole texts -/

theorem whole_ofString (s : String) : Whole (Bytes.ofString s) := ⟨s, rfl⟩

theorem whole_iff : Whole text ↔ ∃ cs : List Char, text = cs.flatMap String.utf8EncodeChar := by
  constructor
  · rintro ⟨s, rfl⟩
    exact ⟨s.toList, rfl⟩
  · rintro ⟨cs, rfl⟩
    exact ⟨String.ofList cs, by rw [Bytes.ofString, String.toList_ofList]⟩

namespace Whole

theorem nil : Whole [] := whole_iff.2 ⟨[], rfl⟩

theorem char (c : Char) : Whole (String.utf8EncodeChar c) :=
  whole_iff.2 ⟨[c], by rw [List.flatMap_singleton]⟩

theorem append (hx : Whole x) (hy : Whole y) : Whole (x ++ y) := by
  obtain ⟨cs, rfl⟩ := whole_iff.1 hx
  obtain ⟨ds, rfl⟩ := whole_iff.1 hy
  exact whole_iff.2 ⟨cs ++ ds, by rw [List.flatMap_append]⟩

/-- A byte of ASCII is a character by itself. -/
theorem single (hb : b < 0x80) : Whole [b] := by
  have hlt := UInt8.lt_iff_toNat_lt.1 hb
  have hchar : (Char.ofNat b.toNat).toNat = b.toNat := Utf8.toNat_char (by
    have : (0x80 : UInt8).toNat = 128 := rfl
    omega)
  refine whole_iff.2 ⟨[Char.ofNat b.toNat], ?_⟩
  rw [List.flatMap_singleton, Utf8.utf8EncodeChar_of_lt (by rw [hchar]; exact hlt), hchar,
    UInt8.ofNat_toNat]

theorem cons (hb : b < 0x80) (hx : Whole x) : Whole (b :: x) := (single hb).append hx

theorem ascii (h : ∀ b ∈ x, b < 0x80) : Whole x := by
  induction x with
  | nil => exact nil
  | cons b x ih =>
    rw [List.forall_mem_cons] at h
    exact cons h.1 (ih h.2)

theorem begins (h : Whole (b :: x)) : Utf8.Begins b := by
  obtain ⟨cs, hcs⟩ := whole_iff.1 h
  cases cs with
  | nil => cases hcs
  | cons c cs =>
    obtain ⟨a, rest, hc, ha, -⟩ := Utf8.exists_utf8EncodeChar c
    rw [List.flatMap_cons, hc] at hcs
    cases hcs
    exact ha

theorem begins_of_head? (h : Whole text) (hb : text.head? = some b) : Utf8.Begins b := by
  cases text with
  | nil => cases hb
  | cons a text =>
    rw [List.head?_cons, Option.some.injEq] at hb
    exact hb ▸ h.begins

/-- A whole text splits before every byte that can begin a character. -/
theorem split (h : Whole (x ++ y)) (hy : ∀ b, y.head? = some b → Utf8.Begins b) :
    Whole x ∧ Whole y := by
  obtain ⟨cs, hcs⟩ := whole_iff.1 h
  induction cs generalizing x with
  | nil =>
    obtain ⟨rfl, rfl⟩ := List.append_eq_nil_iff.1 hcs
    exact ⟨nil, nil⟩
  | cons c cs ih =>
    obtain ⟨a, rest, hc, -, hrest⟩ := Utf8.exists_utf8EncodeChar c
    have hchar : Whole (a :: rest) := hc ▸ Whole.char c
    rw [List.flatMap_cons, hc] at hcs
    cases x with
    | nil => exact ⟨nil, h⟩
    | cons a' x =>
      rw [List.cons_append, List.cons_append, List.cons.injEq] at hcs
      obtain ⟨rfl, hcs⟩ := hcs
      -- The split falls behind the first character, or else inside it.
      rcases List.append_eq_append_iff.1 hcs with ⟨inner, rfl, hy'⟩ | ⟨x', rfl, hx'⟩
      · cases inner with
        | nil =>
          rw [List.nil_append] at hy'
          rw [List.append_nil] at hchar
          exact ⟨hchar, hy' ▸ whole_iff.2 ⟨cs, rfl⟩⟩
        | cons b inner =>
          exact absurd (hy b (by rw [hy']; rfl)) (hrest b (by simp))
      · obtain ⟨hwhole, hwhole'⟩ := ih (x := x') (hx' ▸ whole_iff.2 ⟨cs, rfl⟩) hx'.symm
        exact ⟨hchar.append hwhole, hwhole'⟩

theorem split_cons (h : Whole (x ++ b :: y)) (hb : Utf8.Begins b) : Whole x ∧ Whole (b :: y) :=
  h.split fun a ha => by
    rw [List.head?_cons, Option.some.injEq] at ha
    exact ha ▸ hb

/-- What stands behind whole characters is whole. -/
theorem of_append_left (hx : Whole x) (h : Whole (x ++ y)) : Whole y := by
  obtain ⟨cs, hcs⟩ := whole_iff.1 hx
  obtain ⟨ds, hds⟩ := whole_iff.1 h
  have hread := Utf8.decodeFrom_append (i := 0) (Utf8.decodeFrom_eq_ok_iff.2 hcs) 0 y
  rw [Utf8.decodeFrom_eq_ok_iff.2 hds] at hread
  cases hy : Utf8.decodeFrom (0 + x.length) y with
  | error fault =>
    rw [hy] at hread
    cases hread
  | ok es => exact whole_iff.2 ⟨es, Utf8.decodeFrom_eq_ok_iff.1 hy⟩

theorem tail (hb : b < 0x80) (h : Whole (b :: x)) : Whole x :=
  (single hb).of_append_left h

/-- What stands before whole characters is whole. -/
theorem of_append_right (h : Whole (x ++ y)) (hy : Whole y) : Whole x :=
  (h.split fun _ => hy.begins_of_head?).1

/-- A whole text starts with the bytes of another one only if it starts with its characters. -/
theorem prefix_of_prefix {cs ds : List Char}
    (h : cs.flatMap String.utf8EncodeChar <+: ds.flatMap String.utf8EncodeChar) : cs <+: ds := by
  obtain ⟨rest, hrest⟩ := h
  have hwhole : Whole (cs.flatMap String.utf8EncodeChar ++ rest) :=
    hrest ▸ whole_iff.2 ⟨ds, rfl⟩
  obtain ⟨es, rfl⟩ := whole_iff.1 ((whole_iff.2 ⟨cs, rfl⟩).of_append_left hwhole)
  rw [← List.flatMap_append] at hrest
  exact ⟨es, Utf8.flatMap_utf8EncodeChar_inj hrest⟩

/-- A whole text that starts with an end of itself does so character by character. -/
theorem exists_border {cs : List Char} {k : Nat} (hk : 0 < k)
    (hlt : k < (cs.flatMap String.utf8EncodeChar).length)
    (h : (cs.flatMap String.utf8EncodeChar).drop k <+: cs.flatMap String.utf8EncodeChar) :
    ∃ n, 0 < n ∧ n < cs.length ∧ cs.drop n <+: cs := by
  have hwhole : Whole (cs.flatMap String.utf8EncodeChar) := whole_iff.2 ⟨cs, rfl⟩
  -- The end begins like the whole text, so it begins with a character.
  have hbegins : ∀ b, ((cs.flatMap String.utf8EncodeChar).drop k).head? = some b →
      Utf8.Begins b := by
    intro b hb
    obtain ⟨rest, hrest⟩ := h
    exact hwhole.begins_of_head? (by rw [← hrest, List.head?_append, hb]; rfl)
  obtain ⟨hfront, hend⟩ :=
    ((List.take_append_drop k (cs.flatMap String.utf8EncodeChar)).symm ▸ hwhole).split hbegins
  obtain ⟨front, hfront⟩ := whole_iff.1 hfront
  obtain ⟨ending, hend⟩ := whole_iff.1 hend
  have hcs : cs = front ++ ending := by
    refine Utf8.flatMap_utf8EncodeChar_inj ?_
    rw [List.flatMap_append, ← hfront, ← hend, List.take_append_drop]
  have hfront_ne : front ≠ [] := by
    rintro rfl
    have hlen := congrArg List.length hfront
    rw [List.length_take, List.flatMap_nil, List.length_nil] at hlen
    omega
  have hend_ne : ending ≠ [] := by
    rintro rfl
    have hlen := congrArg List.length hend
    rw [List.length_drop, List.flatMap_nil, List.length_nil] at hlen
    omega
  rw [hend] at h
  refine ⟨front.length, List.length_pos_iff.2 hfront_ne, ?_, ?_⟩
  · rw [hcs, List.length_append]
    exact Nat.lt_add_of_pos_right (List.length_pos_iff.2 hend_ne)
  · have hdrop : cs.drop front.length = ending := by rw [hcs, List.drop_left]
    rw [hdrop]
    exact prefix_of_prefix h

/-- Where whole characters stand in a whole text, what is before and behind them is whole too. -/
theorem split_around (h : Whole (x ++ (y ++ z))) (hy : Whole y) (hne : y ≠ []) :
    Whole x ∧ Whole (y ++ z) ∧ Whole z := by
  cases y with
  | nil => exact absurd rfl hne
  | cons a y =>
    obtain ⟨hbefore, hbehind⟩ := h.split_cons hy.begins
    exact ⟨hbefore, hbehind, hy.of_append_left hbehind⟩

/-- A pattern of whole characters is found between two characters, and ends between two. -/
theorem of_indexOf? (h : Whole text) (hp : Whole pattern) (hne : pattern ≠ []) {i : Nat}
    (hi : Bytes.indexOf? pattern text = some i) :
    ∃ front rest, text = front ++ (pattern ++ rest) ∧ front.length = i ∧ Whole front ∧
      Whole rest := by
  obtain ⟨front, rest, rfl, hlen⟩ := Bytes.eq_append_of_indexOf? hi
  obtain ⟨hfront, -, hrest⟩ := h.split_around hp hne
  exact ⟨front, rest, rfl, hlen, hfront, hrest⟩

/-- The same for a single byte of ASCII. -/
theorem of_indexOf?_singleton (h : Whole text) (hb : b < 0x80) {i : Nat}
    (hi : Bytes.indexOf? [b] text = some i) :
    ∃ front rest, text = front ++ b :: rest ∧ b ∉ front ∧ front.length = i ∧ Whole front ∧
      Whole rest := by
  obtain ⟨front, rest, rfl, hmem, hlen⟩ := Bytes.eq_append_of_indexOf?_singleton hi
  obtain ⟨hfront, hbehind⟩ := h.split_cons (Or.inl hb)
  exact ⟨front, rest, rfl, hmem, hlen, hfront, hbehind.tail hb⟩

end Whole

/-! ## Positions -/

theorem le_of_isBoundary {place : Nat} (h : Utf8.isBoundary text place = true) :
    place ≤ text.length := by
  unfold Utf8.isBoundary at h
  rcases Nat.lt_or_ge text.length place with hlt | hle
  · rw [List.getElem?_eq_none (Nat.le_of_lt hlt)] at h
    simp at h
    omega
  · exact hle

/-- Before whole characters there is a boundary. -/
theorem isBoundary_append (hy : Whole y) : Utf8.isBoundary (x ++ y) x.length = true := by
  unfold Utf8.isBoundary
  cases y with
  | nil => simp
  | cons b y =>
    rw [List.getElem?_append_right (Nat.le_refl _), Nat.sub_self, List.getElem?_cons_zero]
    rcases hy.begins with hb | hb
    · simp [hb]
    · simp [hb]

/-- The boundaries of a whole text are the places where it splits into two whole texts. -/
theorem isBoundary_iff (h : Whole text) {place : Nat} : Utf8.isBoundary text place = true ↔
    place ≤ text.length ∧ Whole (text.take place) ∧ Whole (text.drop place) := by
  constructor
  · intro hplace
    simp only [Utf8.isBoundary, Bool.or_eq_true, beq_iff_eq] at hplace
    rcases hplace with rfl | hplace
    · exact ⟨Nat.le_refl _, by rwa [List.take_length], by rw [List.drop_length]; exact Whole.nil⟩
    · split at hplace
      · next b hb =>
        obtain ⟨hlt, rfl⟩ := List.getElem?_eq_some_iff.1 hb
        refine ⟨Nat.le_of_lt hlt, ?_⟩
        rw [← List.take_append_drop place text] at h
        refine h.split fun a ha => ?_
        rw [List.head?_drop, hb, Option.some.injEq] at ha
        rw [← ha]
        simpa [Utf8.Begins] using hplace
      · cases hplace
  · rintro ⟨hle, -, hdrop⟩
    have hboundary := isBoundary_append (x := text.take place) hdrop
    rwa [List.take_append_drop, List.length_take, Nat.min_eq_left hle] at hboundary

/-- A position inside a character: some of its bytes stand before the position, some behind. -/
def InsideCharacter (text : Bytes) (place : Nat) : Prop :=
  ∃ front c rest, text = front ++ (String.utf8EncodeChar c ++ rest) ∧ Whole front ∧
    front.length < place ∧ place < front.length + (String.utf8EncodeChar c).length

theorem InsideCharacter.append_front {place : Nat} (hx : Whole x) (h : InsideCharacter y place) :
    InsideCharacter (x ++ y) (x.length + place) := by
  obtain ⟨front, c, rest, rfl, hfront, hbefore, hbehind⟩ := h
  refine ⟨x ++ front, c, rest, (List.append_assoc _ _ _).symm, hx.append hfront, ?_, ?_⟩
  all_goals
    rw [List.length_append]
    omega

theorem isBoundary_append_add (x y : Bytes) (place : Nat) :
    Utf8.isBoundary (x ++ y) (x.length + place) = Utf8.isBoundary y place := by
  have hend : (x.length + place == (x ++ y).length) = (place == y.length) := by
    rw [List.length_append, Bool.eq_iff_iff, beq_iff_eq, beq_iff_eq, Nat.add_left_cancel_iff]
  unfold Utf8.isBoundary
  rw [hend, List.getElem?_append_right (Nat.le_add_right _ _), Nat.add_sub_cancel_left]

/-- Of the bytes of a character only the first one stands at a boundary. -/
theorem InsideCharacter.not_isBoundary {place : Nat} (h : InsideCharacter text place) :
    Utf8.isBoundary text place = false := by
  obtain ⟨front, c, rest, rfl, -, hbefore, hbehind⟩ := h
  obtain ⟨b, tail, hc, -, htail⟩ := Utf8.exists_utf8EncodeChar c
  obtain ⟨n, rfl⟩ : ∃ n, place = front.length + (n + 1) := ⟨place - front.length - 1, by omega⟩
  have hn : n < tail.length := by
    rw [hc, List.length_cons] at hbehind
    omega
  have hinner := htail _ (List.getElem_mem hn)
  have hget : (b :: tail ++ rest)[n + 1]? = some tail[n] := by
    rw [List.cons_append, List.getElem?_cons_succ, List.getElem?_append_left hn,
      List.getElem?_eq_getElem hn]
  have hlt := (List.getElem?_eq_some_iff.1 hget).1
  rw [isBoundary_append_add, hc, Utf8.isBoundary, hget, beq_false_of_ne (Nat.ne_of_lt hlt),
    Bool.false_or]
  simpa [Utf8.Begins] using hinner

/-- In a whole text a position that is no boundary is beyond the end or inside a character. -/
theorem isBoundary_eq_false_iff (h : Whole text) {place : Nat} :
    Utf8.isBoundary text place = false ↔
      text.length < place ∨ InsideCharacter text place := by
  constructor
  · intro hplace
    obtain ⟨cs, rfl⟩ := whole_iff.1 h
    -- The characters are passed one by one, up to the one that the position is in.
    induction cs generalizing place with
    | nil =>
      have hpos : place ≠ 0 := by
        rintro rfl
        cases hplace
      exact Or.inl (Nat.pos_of_ne_zero hpos)
    | cons c cs ih =>
      have hchar := Whole.char c
      rw [List.flatMap_cons] at h hplace ⊢
      rcases Nat.lt_or_ge place (String.utf8EncodeChar c).length with hlt | hge
      · have hpos : place ≠ 0 := by
          rintro rfl
          have hstart := isBoundary_append (x := []) h
          rw [List.nil_append, List.length_nil, hplace] at hstart
          cases hstart
        exact Or.inr ⟨[], c, _, rfl, Whole.nil, Nat.pos_of_ne_zero hpos, by simpa using hlt⟩
      · obtain ⟨n, rfl⟩ := Nat.exists_eq_add_of_le hge
        rw [isBoundary_append_add] at hplace
        rcases ih (hchar.of_append_left h) hplace with hbeyond | hinside
        · refine Or.inl ?_
          rw [List.length_append]
          exact Nat.add_lt_add_left hbeyond _
        · exact Or.inr (hinside.append_front hchar)
  · rintro (hbeyond | hinside)
    · exact Bool.eq_false_iff.2 fun hplace =>
        Nat.not_lt_of_le (le_of_isBoundary hplace) hbeyond
    · exact hinside.not_isBoundary

namespace Bytes

/-- The stretch of a text between two positions, if they are in order and lie between
    characters. -/
def slice? (text : Bytes) (start stop : Nat) : Option Bytes :=
  if start ≤ stop ∧ Utf8.isBoundary text start ∧ Utf8.isBoundary text stop then
    some ((text.drop start).take (stop - start))
  else none

/-- A text without the stretch between two such positions. -/
def cut? (text : Bytes) (start stop : Nat) : Option Bytes :=
  if start ≤ stop ∧ Utf8.isBoundary text start ∧ Utf8.isBoundary text stop then
    some (text.take start ++ text.drop stop)
  else none

/-- The first position of a pattern from a position on. There is nothing to find from beyond
    the end or from inside a character. -/
def indexFrom? (pattern text : Bytes) (start : Nat) : Option Nat :=
  if Utf8.isBoundary text start then (indexOf? pattern (text.drop start)).map (· + start)
  else none

variable {start stop : Nat}

/-- Two positions between which whole characters stand. -/
theorem boundaries_append (hyz : Whole (y ++ z)) (hz : Whole z) (hstart : start = x.length)
    (hstop : stop = start + y.length) :
    start ≤ stop ∧ Utf8.isBoundary (x ++ (y ++ z)) start ∧
      Utf8.isBoundary (x ++ (y ++ z)) stop := by
  subst hstart hstop
  refine ⟨Nat.le_add_right _ _, isBoundary_append hyz, ?_⟩
  rw [← List.append_assoc, ← List.length_append]
  exact isBoundary_append hz

theorem slice?_eq (htext : text = x ++ (y ++ z)) (hyz : Whole (y ++ z)) (hz : Whole z)
    (hstart : start = x.length) (hstop : stop = start + y.length) :
    slice? text start stop = some y := by
  rw [slice?, htext, if_pos (boundaries_append hyz hz hstart hstop), hstop,
    Nat.add_sub_cancel_left, hstart, List.drop_left, List.take_left]

/-- A position inside a character is refused. -/
example : slice? (ofString "é") 0 1 = none := by decide

theorem cut?_eq (htext : text = x ++ (y ++ z)) (hyz : Whole (y ++ z)) (hz : Whole z)
    (hstart : start = x.length) (hstop : stop = start + y.length) :
    cut? text start stop = some (x ++ z) := by
  rw [cut?, htext, if_pos (boundaries_append hyz hz hstart hstop), hstop, hstart,
    List.take_left, ← List.drop_drop, List.drop_left, List.drop_left]

theorem indexFrom?_append (hy : Whole y) :
    indexFrom? pattern (x ++ y) x.length = (indexOf? pattern y).map (· + x.length) := by
  rw [indexFrom?, if_pos (isBoundary_append hy), List.drop_left]

end Bytes

/-! ## Cursors between characters -/

namespace Cursor

variable {c : Cursor} {stop : Nat}

/-- The cursor at a position of a text. -/
def atPlace (text : Bytes) (place : Nat) : Cursor := ⟨(text.take place).reverse, text.drop place⟩

theorem text_atPlace (text : Bytes) (place : Nat) : (atPlace text place).text = text := by
  rw [Cursor.text, atPlace, List.reverse_reverse, List.take_append_drop]

theorem offset_atPlace {text : Bytes} {place : Nat} (h : place ≤ text.length) :
    (atPlace text place).offset = place := by
  rw [offset, atPlace, List.length_reverse, List.length_take, Nat.min_eq_left h]

theorem offset_eq (c : Cursor) : c.offset = c.behind.reverse.length := List.length_reverse.symm

theorem atPlace_offset_add (c : Cursor) (n : Nat) :
    atPlace c.text (c.offset + n) = c.advance n := by
  rw [atPlace, text, offset_eq, List.take_length_add_append, List.drop_length_add_append, advance,
    List.reverse_append, List.reverse_reverse]

@[simp] theorem atPlace_offset (c : Cursor) : atPlace c.text c.offset = c := by
  have h := c.atPlace_offset_add 0
  rwa [Nat.add_zero, advance, List.take_zero, List.drop_zero] at h

theorem getElem?_text_add (c : Cursor) (n : Nat) : c.text[c.offset + n]? = c.ahead[n]? := by
  rw [text, offset_eq, List.getElem?_append_right (Nat.le_add_right _ _), Nat.add_sub_cancel_left]

theorem offset_advance {n : Nat} (h : n ≤ c.ahead.length) :
    (c.advance n).offset = c.offset + n := by
  rw [offset, offset, advance, List.length_append, List.length_reverse, List.length_take]
  omega

theorem lt_of_isSpace {b : UInt8} (h : isSpace b = true) : b < 0x80 := by
  simp only [isSpace, Bool.or_eq_true, beq_iff_eq] at h
  rcases h with (((rfl | rfl) | rfl) | rfl) | rfl <;> decide

theorem reverse_behind_eq (c : Cursor) : c.behind.reverse =
    c.deleteSpaceBehind.behind.reverse ++ (c.behind.takeWhile isSpace).reverse := by
  rw [deleteSpaceBehind, ← List.reverse_append, List.takeWhile_append_dropWhile]

/-- A cursor between two characters. -/
structure Between (c : Cursor) : Prop where
  behind : Whole c.behind.reverse
  ahead : Whole c.ahead

namespace Between

theorem ofText {text : Bytes} (h : Whole text) : (ofText text).Between := ⟨Whole.nil, h⟩

theorem whole (h : c.Between) : Whole c.text := h.behind.append h.ahead

/-- Passing over whole characters. -/
theorem advance (h : c.Between) (hahead : c.ahead = x ++ y) (hy : Whole y) :
    (c.advance x.length).Between := by
  refine ⟨?_, ?_⟩
  · rw [Cursor.advance, hahead, List.take_left, List.reverse_append, List.reverse_reverse]
    exact h.behind.append ((hahead ▸ h.ahead).of_append_right hy)
  · rwa [ahead_advance, hahead, List.drop_left]

/-- Deleting whole characters. -/
theorem delete (h : c.Between) (hahead : c.ahead = x ++ y) (hy : Whole y) :
    (c.delete x.length).Between :=
  ⟨h.behind, by rwa [ahead_delete, hahead, List.drop_left]⟩

/-- A pattern of whole characters stands between two characters. -/
theorem found {pattern : Bytes} (h : c.Between) (hp : Whole pattern) (hne : pattern ≠ []) {i : Nat}
    (hpre : pattern <+: c.ahead.drop i) :
    (c.advance i).Between ∧ (c.advance i).offset = c.offset + i := by
  obtain ⟨rest, hrest⟩ := hpre
  have hle : i ≤ c.ahead.length := by
    have hlen := congrArg List.length hrest
    have hpos := List.length_pos_iff.2 hne
    rw [List.length_append, List.length_drop] at hlen
    omega
  have hahead : c.ahead = c.ahead.take i ++ (pattern ++ rest) := by
    rw [hrest, List.take_append_drop]
  have hwhole : Whole (c.ahead.take i ++ (pattern ++ rest)) := hahead ▸ h.ahead
  have hbetween := h.advance hahead (hwhole.split_around hp hne).2.1
  rw [List.length_take, Nat.min_eq_left hle] at hbetween
  exact ⟨hbetween, offset_advance hle⟩

/-! The slices around a cursor, by their positions in the whole text. -/

theorem indexFrom? (h : c.Between) (pattern : Bytes) :
    Bytes.indexFrom? pattern c.text c.offset =
      (Bytes.indexOf? pattern c.ahead).map (c.offset + ·) := by
  rw [Cursor.text, Cursor.offset_eq, Bytes.indexFrom?_append h.ahead]
  simp only [Nat.add_comm]

theorem slice?_before (h : c.Between) (hahead : c.ahead = x ++ y) (hy : Whole y)
    (hstop : stop = c.offset + x.length) :
    Bytes.slice? c.text 0 stop = some (c.behind.reverse ++ x) := by
  have htext : c.text = [] ++ ((c.behind.reverse ++ x) ++ y) := by
    rw [Cursor.text, hahead, List.nil_append, List.append_assoc]
  refine Bytes.slice?_eq htext ?_ hy rfl ?_
  · rw [List.nil_append] at htext
    exact htext ▸ h.whole
  · rw [hstop, offset_eq, List.length_append, Nat.zero_add]

theorem slice?_here (h : c.Between) (hahead : c.ahead = x ++ y) (hy : Whole y)
    (hstop : stop = c.offset + x.length) : Bytes.slice? c.text c.offset stop = some x :=
  Bytes.slice?_eq (by rw [Cursor.text, hahead]) (hahead ▸ h.ahead) hy c.offset_eq hstop

theorem slice?_ahead (hahead : c.ahead = x ++ y) (hy : Whole y)
    (hstop : stop = c.offset + x.length) :
    Bytes.slice? c.text stop c.text.length = some y := by
  have htext : c.text = (c.behind.reverse ++ x) ++ (y ++ []) := by
    rw [Cursor.text, hahead, List.append_nil, List.append_assoc]
  refine Bytes.slice?_eq htext (by rwa [List.append_nil]) Whole.nil ?_ ?_
  · rw [hstop, offset_eq, List.length_append]
  · rw [htext, hstop, offset_eq]
    simp only [List.length_append, List.length_nil]
    omega

theorem cut? (h : c.Between) (hahead : c.ahead = x ++ y) (hy : Whole y)
    (hstop : stop = c.offset + x.length) :
    Bytes.cut? c.text c.offset stop = some (c.delete x.length).text := by
  rw [Bytes.cut?_eq (by rw [Cursor.text, hahead]) (hahead ▸ h.ahead) hy c.offset_eq hstop,
    Cursor.text, behind_delete, ahead_delete, hahead, List.drop_left]

/-- White space is whole characters, and so is what stands before it. -/
theorem deleteSpaceBehind (h : c.Between) : c.deleteSpaceBehind.Between ∧
    Whole ((c.behind.takeWhile isSpace).reverse ++ c.ahead) := by
  have hblank : Whole (c.behind.takeWhile isSpace).reverse := .ascii fun b hb =>
    lt_of_isSpace (List.all_eq_true.1 List.all_takeWhile b (List.mem_reverse.1 hb))
  exact ⟨⟨(c.reverse_behind_eq ▸ h.behind).of_append_right hblank, h.ahead⟩,
    hblank.append h.ahead⟩

theorem cut?_spaceBehind (h : c.Between) (hahead : c.ahead = x ++ y) (hy : Whole y)
    (hstop : stop = c.offset + x.length) :
    Bytes.cut? c.text c.deleteSpaceBehind.offset stop =
      some (c.deleteSpaceBehind.delete x.length).text := by
  have htext : c.text = c.deleteSpaceBehind.behind.reverse ++
      (((c.behind.takeWhile isSpace).reverse ++ x) ++ y) := by
    rw [Cursor.text, reverse_behind_eq, hahead, List.append_assoc, List.append_assoc]
  have hlen := congrArg List.length c.reverse_behind_eq
  rw [List.length_append, ← offset_eq, ← offset_eq] at hlen
  rw [Bytes.cut?_eq htext (by rw [List.append_assoc, ← hahead]; exact h.deleteSpaceBehind.2) hy
    (offset_eq _) (by rw [List.length_append, hstop, hlen, Nat.add_assoc]), Cursor.text,
    behind_delete, ahead_delete, ahead_deleteSpaceBehind, hahead, List.drop_left]

end Between

end Cursor

end DocxTemplate
