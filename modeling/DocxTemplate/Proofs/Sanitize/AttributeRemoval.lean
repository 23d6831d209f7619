import DocxTemplate.Proofs.Sanitize.AttributePass
import DocxTemplate.Proofs.Sanitize.Lexemes

/-! # Revision attributes among lexemes

    The attribute pass searches bytes and looks at the nearest angle brackets to tell tags from
    texts. On the text of a document it removes exactly the attributes with one of its names:

    * `Lexeme.without`, `dropped`: a lexeme without the attributes of some names, and how many
      of them a document has.
    * `Removes`: the search removes what stands ahead of a cursor.
    * `toPass_run_keep`: it may start behind a stretch in which it removes nothing.
    * `toPass_run_attributes`, `toPass_run_lexeme`: what it makes of a tag, and of a lexeme.
    * `removeAttributes_serialize`: what all searches make of a document.
-/

namespace DocxTemplate.Sanitize

/-! ## Documents without some attributes -/

/-- Whether the key of an attribute is one of the names. -/
def Attribute.listed (names : List String) (a : Attribute) : Bool :=
  names.any fun name => a.key == Bytes.ofString name

/-- Nowhere in the value does white space stand before one of the names and `=`. -/
def Attribute.Unspelt (names : List String) (a : Attribute) : Prop :=
  ∀ name ∈ names, ∀ j < a.value.length, a.value[j]?.any isSpace = true →
    ¬ attributeToken name <+: a.value.drop (j + 1)

instance (names : List String) (a : Attribute) : Decidable (a.Unspelt names) :=
  inferInstanceAs (Decidable (∀ name ∈ names, ∀ j < a.value.length, _ → ¬ _))

namespace Lexeme

/-- The attributes in a tag. -/
def attributes : Lexeme → List Attribute
  | start _ attributes | empty _ attributes => attributes
  | close _ | text _ => []

/-- A lexeme without the attributes whose keys are among the names. -/
def without (names : List String) : Lexeme → Lexeme
  | start name attributes => start name (attributes.filter (!·.listed names))
  | empty name attributes => empty name (attributes.filter (!·.listed names))
  | close name => close name
  | text data => text data

end Lexeme

/-- How many attributes of a document have one of the names. -/
def dropped (names : List String) (doc : List Lexeme) : Nat :=
  (doc.flatMap Lexeme.attributes).countP (·.listed names)

@[simp] theorem dropped_nil (names : List String) : dropped names [] = 0 := rfl

@[simp] theorem dropped_cons (names : List String) (l : Lexeme) (doc : List Lexeme) :
    dropped names (l :: doc) = l.attributes.countP (·.listed names) + dropped names doc :=
  List.countP_append

/-! ## The search for one name -/

variable {name : String}

/-- The search removes what stands ahead of a cursor. -/
structure Removes (name : String) (c : Cursor) : Prop where
  stands : attributeToken name <+: c.ahead
  spaced : c.afterSpace = true
  quoted : IsAttribute name c.ahead

/-- A sweep that has gone on to `rest`. Of what it has passed it has kept `kept`, and it has removed
    `n` attributes. -/
def Sweep.past (s : Sweep) (kept rest : Bytes) (n : Nat) : Sweep :=
  { s with cursor := ⟨kept.reverse ++ s.cursor.behind, rest⟩, count := s.count + n }

theorem Sweep.past_nil {s : Sweep} {rest : Bytes} (h : s.cursor.ahead = rest) :
    s.past [] rest 0 = s := by
  rw [← h]
  rfl

theorem Sweep.past_past (s : Sweep) (kept kept' rest rest' : Bytes) (n n' : Nat) :
    (s.past kept rest n).past kept' rest' n' = s.past (kept ++ kept') rest' (n + n') := by
  simp only [past, List.reverse_append, List.append_assoc, Nat.add_assoc]

theorem Sweep.advance_eq_past {s : Sweep} {x rest : Bytes} (h : s.cursor.ahead = x ++ rest) :
    s.advance x.length = s.past x rest 0 := by
  simp only [advance, past, Cursor.advance, h, List.take_left, List.drop_left, Nat.add_zero]

theorem Sweep.advance_advance (s : Sweep) (m n : Nat) :
    (s.advance m).advance n = s.advance (m + n) := by
  simp only [advance, Cursor.advance_advance]

/-- A place at which the token stands is passed over unless the search removes it. -/
theorem attributeStep_other {s : Sweep} {i : Nat}
    (hi : Bytes.indexOf? (attributeToken name) s.cursor.ahead = some i)
    (other : ¬ Removes name (s.cursor.advance i)) :
    attributeStep name s = .more (s.advance (i + (attributeToken name).length)) := by
  have htoken := (Bytes.indexOf?_eq_some_iff.1 hi).1
  rw [← Cursor.ahead_advance] at htoken
  unfold attributeStep
  dsimp only
  rw [← attributeToken, hi]
  dsimp only
  split
  · next hspace =>
    cases hq : quotedLength? ((s.cursor.advance i).ahead.drop (attributeToken name).length) with
    | none => rfl
    | some n =>
      dsimp only
      rw [if_neg fun hinside => other ⟨htoken, hspace, n, hq, hinside⟩]
  · rfl

/-- The token stands at no two places that overlap: it has one `=`, at its end. -/
theorem not_attributeToken_inside (hequals : '='.toUInt8 ∉ Bytes.ofString name) {text : Bytes}
    {i j : Nat} (hi : attributeToken name <+: text.drop i) (hij : i < j)
    (hj : j < i + (attributeToken name).length) : ¬ attributeToken name <+: text.drop j := by
  intro ⟨after, hafter⟩
  obtain ⟨rest, hrest⟩ := hi
  obtain ⟨d, rfl⟩ : ∃ d, j = i + d := ⟨j - i, by omega⟩
  have hlength : (attributeToken name).length = (Bytes.ofString name).length + 1 := by
    simp [attributeToken]
  rw [← List.drop_drop, ← hrest] at hafter
  simp only [attributeToken, List.append_assoc, List.singleton_append] at hafter
  rw [List.drop_append_of_le_length (by omega)] at hafter
  obtain ⟨hname, -⟩ := Bytes.append_cons_inj hequals
    (fun hmem => hequals (List.mem_of_mem_drop hmem)) hafter
  have hsame := congrArg List.length hname
  rw [List.length_drop] at hsame
  omega

theorem attributeScan_next_none {s : Sweep}
    (hi : Bytes.indexOf? (attributeToken name) s.cursor.ahead = none) :
    (attributeScan name).next s = .done s := by
  unfold attributeToken at hi
  simp only [attributeScan, attributeStep, hi]

/-- Two searches that find the same place do the same with it. -/
theorem attributeScan_next_advance {s : Sweep} {i n : Nat}
    (hi : Bytes.indexOf? (attributeToken name) s.cursor.ahead = some i) (hni : n ≤ i) :
    (attributeScan name).next s = (attributeScan name).next (s.advance n) := by
  have hfirst := Bytes.indexOf?_eq_some_iff.1 hi
  have hsome : Bytes.indexOf? (attributeToken name) (s.cursor.advance n).ahead = some (i - n) := by
    rw [Cursor.ahead_advance, Bytes.indexOf?_eq_some_iff]
    constructor
    · rw [List.drop_drop, Nat.add_sub_cancel' hni]
      exact hfirst.1
    · intro j hj
      rw [List.drop_drop]
      exact hfirst.2 (n + j) (by omega)
  have hhere : (s.cursor.advance n).advance (i - n) = s.cursor.advance i := by
    rw [Cursor.advance_advance, Nat.add_sub_cancel' hni]
  have hpast : (s.advance n).advance (i - n + (attributeToken name).length) =
      s.advance (i + (attributeToken name).length) := by
    rw [Sweep.advance_advance, ← Nat.add_assoc, Nat.add_sub_cancel' hni]
  unfold attributeScan attributeStep
  dsimp only
  rw [← attributeToken, hi, Sweep.cursor_advance, hsome]
  dsimp only
  rw [hhere, hpast]
  rfl

/-- The search may start further on if it removes nothing on the way. -/
theorem toPass_run_advance (hequals : '='.toUInt8 ∉ Bytes.ofString name) (s : Sweep) (n : Nat)
    (hother : ∀ j < n, ¬ Removes name (s.cursor.advance j)) :
    ((attributeScan name).run s).toPass = ((attributeScan name).run (s.advance n)).toPass := by
  -- Either search shortens the text ahead until both stand at the same place.
  induction hlength : s.cursor.ahead.length using Nat.strongRecOn generalizing s n with
  | ind k ih =>
    cases hi : Bytes.indexOf? (attributeToken name) s.cursor.ahead with
    | none =>
      have hnone : Bytes.indexOf? (attributeToken name) (s.advance n).cursor.ahead = none := by
        rw [Sweep.cursor_advance, Cursor.ahead_advance, Bytes.indexOf?_eq_none_iff]
        intro j
        rw [List.drop_drop]
        exact Bytes.indexOf?_eq_none_iff.1 hi _
      rw [Scan.run_of_done (attributeScan_next_none hi),
        Scan.run_of_done (attributeScan_next_none hnone)]
      simp only [Sweep.toPass, Sweep.advance, Cursor.text_advance]
    | some i =>
      have hin := Bytes.indexOf?_add_length_le hi
      have hpos : 0 < (attributeToken name).length := by simp [attributeToken]
      by_cases hni : n ≤ i
      · rw [Scan.run_eq_of_next_eq (attributeScan_next_advance hi hni)]
      · have hnext : (attributeScan name).next s = .more _ :=
          attributeStep_other hi (hother i (by omega))
        rw [Scan.run_of_more hnext]
        by_cases hmn : i + (attributeToken name).length ≤ n
        · -- The search goes on inside the stretch.
          have hn : (s.advance (i + (attributeToken name).length)).advance
              (n - (i + (attributeToken name).length)) = s.advance n := by
            rw [Sweep.advance_advance, Nat.add_sub_cancel' hmn]
          rw [← hn]
          refine ih _ ?_ _ _ ?_ rfl
          · rw [Sweep.cursor_advance, Cursor.ahead_advance, List.length_drop]
            omega
          · intro j hj
            rw [Sweep.cursor_advance, Cursor.advance_advance]
            exact hother _ (by omega)
        · -- The place reaches beyond the stretch, and no further one starts inside it.
          have hm : (s.advance n).advance (i + (attributeToken name).length - n) =
              s.advance (i + (attributeToken name).length) := by
            rw [Sweep.advance_advance, Nat.add_sub_cancel' (by omega)]
          rw [← hm]
          refine (ih _ ?_ _ _ ?_ rfl).symm
          · rw [Sweep.cursor_advance, Cursor.ahead_advance, List.length_drop]
            omega
          · intro j hj hremoves
            have hstands := hremoves.stands
            rw [Sweep.cursor_advance, Cursor.advance_advance, Cursor.ahead_advance] at hstands
            have hfirst := Bytes.indexOf?_eq_some_iff.1 hi
            exact not_attributeToken_inside hequals hfirst.1 (by omega) (by omega) hstands

/-- The search may start behind a stretch in which it removes nothing. -/
theorem toPass_run_keep (hequals : '='.toUInt8 ∉ Bytes.ofString name) {s : Sweep} {x rest : Bytes}
    (hahead : s.cursor.ahead = x ++ rest)
    (hother : ∀ j < x.length, ¬ Removes name (s.cursor.advance j)) :
    ((attributeScan name).run s).toPass =
      ((attributeScan name).run (s.past x rest 0)).toPass := by
  rw [toPass_run_advance hequals s x.length hother, Sweep.advance_eq_past hahead]

/-- Above all, it may start behind a stretch in which the token does not stand. -/
theorem toPass_run_clear (hequals : '='.toUInt8 ∉ Bytes.ofString name) {s : Sweep} {x rest : Bytes}
    (hahead : s.cursor.ahead = x ++ rest) (hclear : Clear (attributeToken name <+: ·) x rest) :
    ((attributeScan name).run s).toPass =
      ((attributeScan name).run (s.past x rest 0)).toPass := by
  apply toPass_run_keep hequals hahead
  intro j hj hremoves
  have hstands := hremoves.stands
  rw [Cursor.ahead_advance, hahead] at hstands
  exact hclear j hj hstands

/-! ## Where the token stands -/

theorem not_mem_attributeToken_plain (plain : PlainName name) {b : UInt8}
    (hb : endsName b = true ∨ b = '<'.toUInt8 ∨ b = 0x22) : b ∉ attributeToken name := by
  rw [attributeToken, List.mem_append, List.mem_singleton, not_or]
  rcases hb with hb | rfl | rfl
  · refine ⟨plain.isWord.not_mem (Or.inl hb), ?_⟩
    intro hequals
    rw [hequals] at hb
    exact absurd hb (by decide)
  · exact ⟨plain.isWord.not_mem (Or.inr (by decide)), by decide⟩
  · exact ⟨plain.isWord.not_mem (Or.inr (by decide)), by decide⟩

/-- The token stands nowhere in a stretch of bytes that it does not hold. -/
theorem clear_of_not_mem {x rest : Bytes} (hx : ∀ b ∈ x, b ∉ attributeToken name) :
    Clear (attributeToken name <+: ·) x rest := by
  intro j hj hpre
  obtain ⟨b, tail, htoken⟩ : ∃ b tail, attributeToken name = b :: tail :=
    List.exists_cons_of_ne_nil (by simp [attributeToken])
  obtain ⟨after, hafter⟩ := hpre
  have hhead : ((x ++ rest).drop j).head? = some b := by
    rw [← hafter, htoken]
    rfl
  have hb : b ∈ attributeToken name := by
    rw [htoken]
    exact List.mem_cons_self
  exact hx b (drop_head_mem hj hhead) hb

/-- It goes across no end of a name, so it does not start where no `=` comes before that. -/
theorem not_prefix_attributeToken (plain : PlainName name) {x rest : Bytes} (hx : '='.toUInt8 ∉ x)
    (hrest : NameEnds rest) {j : Nat} (hj : j ≤ x.length) :
    ¬ attributeToken name <+: (x ++ rest).drop j := by
  obtain ⟨c, hc, hends⟩ := hrest
  cases rest with
  | nil => simp at hc
  | cons d rest =>
    rw [List.head?_cons, Option.some.injEq] at hc
    rw [hc]
    exact not_prefix_of_stop (not_prefix_of_no_equals hx)
      (not_mem_attributeToken_plain plain (Or.inl hends)) hj

/-- A pattern that goes across no byte like the next one ends before it. -/
theorem prefix_of_stop {pattern x rest : Bytes} {c : UInt8} (hc : c ∉ pattern)
    (h : pattern <+: x ++ c :: rest) : pattern <+: x := by
  rcases Nat.lt_or_ge x.length pattern.length with hlt | hge
  · have hpre : x ++ [c] <+: pattern := by
      apply List.prefix_of_prefix_length_le _ h
      · rw [List.length_append, List.length_singleton]
        exact hlt
      · exact ⟨rest, by simp⟩
    exact absurd (hpre.subset (by simp)) hc
  · exact List.prefix_of_prefix_length_le h (List.prefix_append x _) hge

/-- Behind a cursor that has gone on stands the last byte that it has passed. -/
theorem afterSpace_advance_succ {c : Cursor} {j : Nat} (hj : j < c.ahead.length) :
    (c.advance (j + 1)).afterSpace = isSpace c.ahead[j] := by
  rw [Cursor.afterSpace, Cursor.advance, List.take_add_one, List.getElem?_eq_getElem hj,
    Option.toList_some, List.reverse_append, List.reverse_singleton, List.append_assoc,
    List.singleton_append, List.head?_cons, Option.any_some]

/-! ## Attributes -/

section

variable {names : List String} {a : Attribute} {s : Sweep} {rest : Bytes}

/-- The key of another attribute is passed over. If it ends with the name, no white space stands
    before the name. -/
theorem not_removes_key (plain : PlainName name) (ha : a.Plain) (hkey : a.key ≠ Bytes.ofString name)
    (hahead : s.cursor.ahead = (a.key ++ ['='.toUInt8]) ++ rest) :
    ∀ j < (a.key ++ ['='.toUInt8]).length, ¬ Removes name (s.cursor.advance j) := by
  intro j hj hremoves
  have hle : j ≤ a.key.length := by
    rw [List.length_append, List.length_singleton] at hj
    omega
  obtain ⟨after, hafter⟩ := hremoves.stands
  simp only [attributeToken, Cursor.ahead_advance, hahead, List.append_assoc,
    List.singleton_append] at hafter
  rw [List.drop_append_of_le_length hle] at hafter
  obtain ⟨hname, -⟩ := Bytes.append_cons_inj plain.isWord.no_equals
    (fun hmem => ha.key.no_equals (List.mem_of_mem_drop hmem)) hafter
  cases j with
  | zero => exact hkey hname.symm
  | succ j =>
    -- The byte before the name belongs to the key.
    have hlt : j < s.cursor.ahead.length := by
      rw [hahead, List.length_append, List.length_append]
      omega
    have hspaced := hremoves.spaced
    rw [afterSpace_advance_succ hlt] at hspaced
    have hmem : s.cursor.ahead[j] ∈ a.key := by
      simp only [hahead, List.append_assoc]
      rw [List.getElem_append_left (by omega)]
      exact List.getElem_mem _
    have hends := ha.key.unended _ hmem
    rw [endsName, Bool.or_eq_false_iff, hspaced] at hends
    exact Bool.noConfusion hends.2

/-- So is a value in which no white space stands before the name and `=`. -/
theorem not_removes_value (plain : PlainName name) (hname : name ∈ names) (hvalue : a.Unspelt names)
    (hahead : s.cursor.ahead = a.quoted ++ rest) :
    ∀ j < a.quoted.length, ¬ Removes name (s.cursor.advance j) := by
  intro j hj hremoves
  have hquote : (0x22 : UInt8) ∉ attributeToken name :=
    not_mem_attributeToken_plain plain (Or.inr (Or.inr rfl))
  have hstands := hremoves.stands
  rw [Cursor.ahead_advance, hahead] at hstands
  cases j with
  | zero =>
    have hclear : Clear (attributeToken name <+: ·) [0x22] (a.value ++ [0x22] ++ rest) :=
      clear_of_not_mem (by simpa using hquote)
    exact hclear 0 (Nat.zero_lt_one) hstands
  | succ j =>
    have hle : j ≤ a.value.length := by
      simp only [Attribute.quoted, List.length_cons, List.length_append, List.length_nil] at hj
      omega
    -- The token ends before the quote behind the value.
    have hinside : attributeToken name <+: a.value.drop j := by
      simp only [Attribute.quoted, List.cons_append, List.drop_succ_cons, List.append_assoc,
        List.nil_append] at hstands
      rw [List.drop_append_of_le_length hle] at hstands
      exact prefix_of_stop hquote hstands
    have hlt : j < s.cursor.ahead.length := by
      simp only [hahead, Attribute.quoted, List.length_cons, List.length_append]
      omega
    have hspaced := hremoves.spaced
    rw [afterSpace_advance_succ hlt] at hspaced
    cases j with
    | zero =>
      simp only [hahead, Attribute.quoted, List.cons_append, List.getElem_cons_zero] at hspaced
      exact absurd hspaced (by decide)
    | succ j =>
      have hget : a.value[j]?.any isSpace = true := by
        rw [List.getElem?_eq_getElem (by omega), Option.any_some, ← hspaced]
        simp only [hahead, Attribute.quoted, List.cons_append, List.getElem_cons_succ,
          List.append_assoc]
        rw [List.getElem_append_left]
      exact hvalue name hname j (by omega) hget hinside

/-- The space before an attribute is passed over. -/
theorem clear_space (plain : PlainName name) :
    Clear (attributeToken name <+: ·) [' '.toUInt8] rest := by
  apply clear_of_not_mem
  rw [List.forall_mem_singleton]
  exact not_mem_attributeToken_plain plain (Or.inl (by decide))

/-- An attribute with another name stays. -/
theorem toPass_run_other (plain : PlainName name) (hname : name ∈ names) (ha : a.Plain)
    (hvalue : a.Unspelt names) (hkey : a.key ≠ Bytes.ofString name)
    (hahead : s.cursor.ahead = a.written ++ rest) :
    ((attributeScan name).run s).toPass =
      ((attributeScan name).run (s.past a.written rest 0)).toPass := by
  have hequals := plain.isWord.no_equals
  have hwritten : a.written = [' '.toUInt8] ++ (a.key ++ ['='.toUInt8] ++ a.quoted) := by
    simp only [Attribute.written, List.append_assoc, List.singleton_append]
  have hsplit : s.cursor.ahead = [' '.toUInt8] ++ (a.key ++ ['='.toUInt8] ++ (a.quoted ++ rest)) := by
    rw [hahead, hwritten]
    simp only [List.append_assoc]
  -- The space, the key with its `=`, the value with its quotes.
  rw [toPass_run_clear hequals hsplit (clear_space plain),
    toPass_run_keep hequals rfl (not_removes_key plain ha hkey rfl),
    toPass_run_keep hequals rfl (not_removes_value plain hname hvalue rfl),
    Sweep.past_past, Sweep.past_past, hwritten]

/-- An attribute with the name goes, with the space before it. What is left of its tag holds no
    angle bracket, so the next one is the end of the tag. -/
theorem toPass_run_listed (plain : PlainName name) (ha : a.Plain)
    (hkey : a.key = Bytes.ofString name) {x more : Bytes} (hx : Unbracketed x)
    (hahead : s.cursor.ahead = a.written ++ (x ++ '>'.toUInt8 :: more))
    (hbehind : s.cursor.afterSpace = false) :
    (attributeScan name).run s =
      (attributeScan name).run (s.past [] (x ++ '>'.toUInt8 :: more) 1) := by
  have hwritten : a.written = [' '.toUInt8] ++ (attributeToken name ++ a.quoted) := by
    simp only [Attribute.written, attributeToken, hkey, List.append_assoc, List.singleton_append]
  have hsplit : s.cursor.ahead = [] ++ ([' '.toUInt8] ++ (attributeToken name ++
      (a.quoted ++ (x ++ '>'.toUInt8 :: more)))) := by
    rw [hahead, hwritten]
    simp only [List.append_assoc, List.nil_append]
  have hfirst : FirstAt (attributeToken name <+: ·) ([] ++ ([' '.toUInt8] ++ (attributeToken name ++
      (a.quoted ++ (x ++ '>'.toUInt8 :: more))))) ([] ++ [' '.toUInt8]).length :=
    (clear_space plain).firstAt (List.prefix_append _ _)
  have hblank : [' '.toUInt8] ≠ [] ∧ ∀ b ∈ [' '.toUInt8], isSpace b = true := by
    rw [List.forall_mem_singleton]
    exact ⟨List.cons_ne_nil _ _, by decide⟩
  have hquoted : quotedLength? (a.quoted ++ (x ++ '>'.toUInt8 :: more)) = some a.quoted.length := by
    rw [Attribute.quoted, List.cons_append, quotedLength?, if_pos (by decide), List.append_assoc,
      List.singleton_append, Bytes.indexOf?_singleton_append ha.unquoted]
    simp
  have hinside : endsInsideTag ((attributeToken name).length + a.quoted.length)
      (attributeToken name ++ (a.quoted ++ (x ++ '>'.toUInt8 :: more))) = true := by
    have htoken : Unbracketed (attributeToken name) :=
      plain.isWord.unbracketed.append (by decide)
    have htag := htoken.append (ha.unbracketed_quoted.append hx)
    have hlength : (attributeToken name).length + a.quoted.length ≤
        (attributeToken name ++ (a.quoted ++ x)).length := by
      simp only [List.length_append]
      omega
    have hend : endsInsideTag _ (_ ++ '>'.toUInt8 :: more) = true :=
      endsInsideTag_of_unbracketed htag hlength
    simpa only [List.append_assoc] using hend
  have hnext : (attributeScan name).next s = .more _ :=
    attributeStep_attribute hsplit hbehind hfirst (by simp) hblank hquoted hinside
  rw [Scan.run_of_more hnext]
  rfl

theorem afterSpace_past (s : Sweep) {kept : Bytes} {b : UInt8} (n : Nat)
    (hlast : kept.getLast? = some b) (hb : isSpace b = false) :
    (s.past kept rest n).cursor.afterSpace = false := by
  rw [Cursor.afterSpace, Sweep.past, List.head?_append, List.head?_reverse, hlast, Option.some_or,
    Option.any_some, hb]

/-- Of the attributes in a tag those with the name go. -/
theorem toPass_run_attributes (plain : PlainName name) (hname : name ∈ names)
    {attributes : List Attribute} (hattributes : ∀ a ∈ attributes, a.Plain)
    (hvalues : ∀ a ∈ attributes, a.Unspelt names) {x more : Bytes} (hx : Unbracketed x)
    (hahead : s.cursor.ahead =
      attributes.flatMap Attribute.written ++ (x ++ '>'.toUInt8 :: more))
    (hbehind : s.cursor.afterSpace = false) :
    ((attributeScan name).run s).toPass = ((attributeScan name).run
      (s.past ((attributes.filter (!·.listed [name])).flatMap Attribute.written)
        (x ++ '>'.toUInt8 :: more) (attributes.countP (·.listed [name])))).toPass := by
  induction attributes generalizing s with
  | nil =>
    rw [List.flatMap_nil, List.nil_append] at hahead
    rw [List.filter_nil, List.flatMap_nil, List.countP_nil, Sweep.past_nil hahead]
  | cons a attributes ih =>
    rw [List.forall_mem_cons] at hattributes hvalues
    rw [List.flatMap_cons, List.append_assoc] at hahead
    have hlisted : a.listed [name] = true ↔ a.key = Bytes.ofString name := by
      simp [Attribute.listed]
    by_cases hkey : a.key = Bytes.ofString name
    · -- The attribute goes, and nothing is kept of it.
      have hinside := (Attribute.unbracketed_flatMap_written hattributes.2).append hx
      rw [← List.append_assoc (attributes.flatMap Attribute.written)] at hahead
      have hgone : (s.past [] (attributes.flatMap Attribute.written ++ x ++ '>'.toUInt8 :: more)
          1).cursor.ahead = attributes.flatMap Attribute.written ++ (x ++ '>'.toUInt8 :: more) :=
        List.append_assoc _ _ _
      rw [toPass_run_listed plain hattributes.1 hkey hinside hahead hbehind,
        ih hattributes.2 hvalues.2 hgone hbehind, Sweep.past_past, List.nil_append,
        List.filter_cons_of_neg (by simp [hlisted.2 hkey]),
        List.countP_cons_of_pos (hlisted.2 hkey), Nat.add_comm 1]
    · have hquote : (s.past a.written (attributes.flatMap Attribute.written ++
          (x ++ '>'.toUInt8 :: more)) 0).cursor.afterSpace = false :=
        afterSpace_past s 0 a.getLast?_written (by decide)
      rw [toPass_run_other plain hname hattributes.1 hvalues.1 hkey hahead,
        ih hattributes.2 hvalues.2 rfl hquote, Sweep.past_past,
        List.filter_cons_of_pos (by simpa using mt hlisted.1 hkey),
        List.countP_cons_of_neg (mt hlisted.1 hkey), List.flatMap_cons, Nat.zero_add]

end

/-! ## Documents -/

section

variable {names : List String} {s : Sweep}

/-- What ends a tag behind its attributes. -/
theorem ending_of_eq (plain : PlainName name) {x : Bytes} (more : Bytes)
    (hx : x = [] ∨ x = ['/'.toUInt8]) :
    Unbracketed x ∧ NameEnds (x ++ '>'.toUInt8 :: more) ∧
      Clear (attributeToken name <+: ·) (x ++ ['>'.toUInt8]) more := by
  have hends : ∀ b ∈ x ++ ['>'.toUInt8], endsName b = true := by
    rcases hx with rfl | rfl
    · decide +kernel
    · decide +kernel
  have hclear : Clear (attributeToken name <+: ·) (x ++ ['>'.toUInt8]) more := by
    apply clear_of_not_mem
    intro b hb
    exact not_mem_attributeToken_plain plain (Or.inl (hends b hb))
  rcases hx with rfl | rfl
  · exact ⟨by decide, ⟨'>'.toUInt8, rfl, by decide⟩, hclear⟩
  · exact ⟨by decide, ⟨'/'.toUInt8, rfl, by decide⟩, hclear⟩

/-- The search goes through a tag: its name, its attributes, its end. -/
theorem toPass_run_tag (plain : PlainName name) (hname : name ∈ names) {word x more : Bytes}
    (hequals : '='.toUInt8 ∉ word) (hspace : ∀ b ∈ word, isSpace b = false)
    (hx : x = [] ∨ x = ['/'.toUInt8]) {attributes : List Attribute}
    (hattributes : ∀ a ∈ attributes, a.Plain) (hvalues : ∀ a ∈ attributes, a.Unspelt names)
    (hahead : s.cursor.ahead =
      tag (word ++ (attributes.flatMap Attribute.written ++ x)) ++ more) :
    ((attributeScan name).run s).toPass = ((attributeScan name).run (s.past
      (tag (word ++ ((attributes.filter (!·.listed [name])).flatMap Attribute.written ++ x))) more
      (attributes.countP (·.listed [name])))).toPass := by
  obtain ⟨hplain, hends, hend⟩ := ending_of_eq plain more hx
  have hsplit : s.cursor.ahead = ('<'.toUInt8 :: word) ++
      (attributes.flatMap Attribute.written ++ (x ++ '>'.toUInt8 :: more)) := by
    rw [hahead, tag]
    simp only [List.cons_append, List.append_assoc, List.nil_append]
  have hclear : Clear (attributeToken name <+: ·) ('<'.toUInt8 :: word)
      (attributes.flatMap Attribute.written ++ (x ++ '>'.toUInt8 :: more)) := by
    have hword : '='.toUInt8 ∉ '<'.toUInt8 :: word := by
      rw [List.mem_cons, not_or]
      exact ⟨by decide, hequals⟩
    intro j hj
    exact not_prefix_attributeToken plain hword
      (Attribute.nameEnds_flatMap_written attributes hends) (Nat.le_of_lt hj)
  have hbehind : (s.past ('<'.toUInt8 :: word) (attributes.flatMap Attribute.written ++
      (x ++ '>'.toUInt8 :: more)) 0).cursor.afterSpace = false := by
    have hlast := List.getLast?_eq_some_getLast (List.cons_ne_nil '<'.toUInt8 word)
    apply afterSpace_past s 0 hlast
    rcases List.mem_cons.1 (List.mem_of_getLast? hlast) with hlt | hmem
    · rw [hlt]
      decide
    · exact hspace _ hmem
  have hahead' : ∀ kept n, (s.past kept (x ++ '>'.toUInt8 :: more) n).cursor.ahead =
      (x ++ ['>'.toUInt8]) ++ more := by
    intro kept n
    simp only [Sweep.past, List.append_assoc, List.singleton_append]
  rw [toPass_run_clear plain.isWord.no_equals hsplit hclear,
    toPass_run_attributes plain hname hattributes hvalues hplain rfl hbehind, Sweep.past_past,
    toPass_run_clear plain.isWord.no_equals (hahead' _ _) hend, Sweep.past_past, tag]
  simp only [List.cons_append, List.append_assoc, Nat.zero_add, Nat.add_zero]

/-- A text, with more lexemes behind it, ends inside no tag. -/
theorem endsInsideTag_serialize {x : Bytes} (hx : Unbracketed x) {rest : List Lexeme}
    (hrest : ∀ l ∈ rest, l.Plain) (n : Nat) : endsInsideTag n (x ++ serialize rest) = false := by
  induction rest generalizing x with
  | nil =>
    rw [serialize_nil, List.append_nil, endsInsideTag,
      Bytes.indexOf?_singleton_eq_none_iff.2 hx.2]
  | cons l rest ih =>
    rw [List.forall_mem_cons] at hrest
    rw [serialize_cons]
    cases l with
    | start name attributes => exact endsInsideTag_data hx
    | empty name attributes => exact endsInsideTag_data hx
    | close name => exact endsInsideTag_data hx
    | text data =>
      -- Two texts in a row are one.
      rw [Lexeme.written, ← List.append_assoc]
      exact ih (hx.append hrest.1.2) hrest.2

/-- In a text nothing is removed. -/
theorem not_removes_data {data : Bytes} (hdata : Unbracketed data) {rest : List Lexeme}
    (hrest : ∀ l ∈ rest, l.Plain) (hahead : s.cursor.ahead = data ++ serialize rest) :
    ∀ j < data.length, ¬ Removes name (s.cursor.advance j) := by
  intro j hj hremoves
  obtain ⟨n, -, hinside⟩ := hremoves.quoted
  have hdrop : Unbracketed (data.drop j) := by
    have hsplit := hdata
    rw [← List.take_append_drop j data] at hsplit
    exact hsplit.of_append
  rw [Cursor.ahead_advance, hahead, List.drop_append_of_le_length (Nat.le_of_lt hj),
    endsInsideTag_serialize hdrop hrest] at hinside
  exact Bool.noConfusion hinside

/-- The search goes through a lexeme and takes the attributes with the name out of it. -/
theorem toPass_run_lexeme (plain : PlainName name) (hname : name ∈ names) {l : Lexeme}
    (hl : l.Plain) (hvalues : ∀ a ∈ l.attributes, a.Unspelt names) {rest : List Lexeme}
    (hrest : ∀ l ∈ rest, l.Plain) (hahead : s.cursor.ahead = l.written ++ serialize rest) :
    ((attributeScan name).run s).toPass = ((attributeScan name).run (s.past
      (l.without [name]).written (serialize rest)
      (l.attributes.countP (·.listed [name])))).toPass := by
  have hspace : ∀ {word : Bytes}, IsWord word → ∀ b ∈ word, isSpace b = false := by
    intro word hword b hb
    have hends := hword.unended b hb
    rw [endsName, Bool.or_eq_false_iff] at hends
    exact hends.2
  cases l with
  | start key attributes =>
    have hstart : s.cursor.ahead = tag (key ++ (attributes.flatMap Attribute.written ++ [])) ++
        serialize rest := by
      rw [List.append_nil]
      exact hahead
    have hrun := toPass_run_tag plain hname hl.1.no_equals (hspace hl.1) (Or.inl rfl) hl.2 hvalues
      hstart
    rw [List.append_nil] at hrun
    exact hrun
  | empty key attributes =>
    exact toPass_run_tag plain hname hl.1.no_equals (hspace hl.1) (Or.inr rfl) hl.2 hvalues hahead
  | close key =>
    -- An end tag is a tag without attributes whose name begins with the slash.
    have hequals : '='.toUInt8 ∉ '/'.toUInt8 :: key := by
      rw [List.mem_cons, not_or]
      exact ⟨by decide, hl.no_equals⟩
    have hspaces : ∀ b ∈ '/'.toUInt8 :: key, isSpace b = false := by
      rw [List.forall_mem_cons]
      exact ⟨by decide, hspace hl⟩
    have hclose : s.cursor.ahead =
        tag ('/'.toUInt8 :: key ++ ([].flatMap Attribute.written ++ [])) ++ serialize rest := by
      rw [List.flatMap_nil, List.append_nil, List.append_nil]
      exact hahead
    have hrun := toPass_run_tag plain hname hequals hspaces (Or.inl rfl)
      (fun _ h => absurd h List.not_mem_nil) hvalues hclose
    rw [List.filter_nil, List.flatMap_nil, List.append_nil, List.append_nil] at hrun
    exact hrun
  | text data =>
    exact toPass_run_keep plain.isWord.no_equals hahead (not_removes_data hl.2 hrest hahead)

/-- The search goes through a document and takes the attributes with the name out of it. -/
theorem toPass_run_serialize (plain : PlainName name) (hname : name ∈ names) {doc : List Lexeme}
    (hdoc : ∀ l ∈ doc, l.Plain) (hvalues : ∀ l ∈ doc, ∀ a ∈ l.attributes, a.Unspelt names)
    (hahead : s.cursor.ahead = serialize doc) :
    ((attributeScan name).run s).toPass =
      (s.past (serialize (doc.map (·.without [name]))) [] (dropped [name] doc)).toPass := by
  induction doc generalizing s with
  | nil =>
    have hnone : Bytes.indexOf? (attributeToken name) s.cursor.ahead = none := by
      rw [hahead, Bytes.indexOf?_eq_none_iff]
      exact not_prefix_of_no_equals List.not_mem_nil
    rw [serialize_nil] at hahead
    rw [Scan.run_of_done (attributeScan_next_none hnone), List.map_nil, serialize_nil, dropped_nil,
      Sweep.past_nil hahead]
  | cons l doc ih =>
    rw [List.forall_mem_cons] at hdoc hvalues
    rw [toPass_run_lexeme plain hname hdoc.1 hvalues.1 hdoc.2 hahead, ih hdoc.2 hvalues.2 rfl,
      Sweep.past_past, List.map_cons, serialize_cons, dropped_cons]

/-- A lexeme does not start with `<`, the name and `=`: a name in a tag ends before any `=`. -/
theorem not_prefix_bareTag (plain : PlainName name) {l : Lexeme} (hl : l.Plain) (rest : Bytes) :
    ¬ ('<'.toUInt8 :: attributeToken name) <+: l.written ++ rest := by
  have htag : ∀ {word more : Bytes}, '='.toUInt8 ∉ word → NameEnds more →
      ¬ ('<'.toUInt8 :: attributeToken name) <+: '<'.toUInt8 :: (word ++ more) := by
    intro word more hequals hends hpre
    rw [List.cons_prefix_cons] at hpre
    exact not_prefix_attributeToken plain hequals hends (Nat.zero_le _) hpre.2
  cases l with
  | start key attributes =>
    have hends : NameEnds (attributes.flatMap Attribute.written ++ '>'.toUInt8 :: rest) :=
      Attribute.nameEnds_flatMap_written attributes ⟨_, rfl, by decide⟩
    simpa only [Lexeme.written, tag, List.cons_append, List.append_assoc, List.nil_append]
      using htag hl.1.no_equals hends
  | empty key attributes =>
    have hends : NameEnds (attributes.flatMap Attribute.written ++
        '/'.toUInt8 :: '>'.toUInt8 :: rest) :=
      Attribute.nameEnds_flatMap_written attributes ⟨_, rfl, by decide⟩
    simpa only [Lexeme.written, tag, List.cons_append, List.append_assoc, List.nil_append]
      using htag hl.1.no_equals hends
  | close key =>
    have hequals : '='.toUInt8 ∉ '/'.toUInt8 :: key := by
      rw [List.mem_cons, not_or]
      exact ⟨by decide, hl.no_equals⟩
    have hends : NameEnds ('>'.toUInt8 :: rest) := ⟨_, rfl, by decide⟩
    simpa only [Lexeme.written, tag, List.cons_append, List.append_assoc, List.nil_append]
      using htag hequals hends
  | text data =>
    have hclear : Clear (('<'.toUInt8 :: attributeToken name) <+: ·) data rest :=
      clear_data (atTags_pattern _) hl.2.1
    exact hclear 0 (List.length_pos_iff.2 hl.1)

/-- So the second search for a name finds nothing in a document. -/
theorem bareTagScan_run_serialize (plain : PlainName name) {doc : List Lexeme}
    (hdoc : ∀ l ∈ doc, l.Plain) (hahead : s.cursor.ahead = serialize doc) :
    (bareTagScan name).run s = s := by
  have habsent : Absent (('<'.toUInt8 :: attributeToken name) <+: ·) (serialize doc) := by
    apply Absent.flatMap
    intro l hl rest
    exact (hdoc l hl).clear (atTags_pattern _) (not_prefix_bareTag plain (hdoc l hl) rest)
  apply bareTagScan_run_clear
  rw [hahead]
  exact habsent []

end

/-! ## All names -/

section

variable {names : List String} {doc : List Lexeme}

theorem Attribute.listed_cons (name : String) (names : List String) (a : Attribute) :
    a.listed (name :: names) = (a.listed [name] || a.listed names) := by
  rw [listed, listed, listed, List.any_cons, List.any_cons, List.any_nil, Bool.or_false]

namespace Lexeme

theorem attributes_without (names : List String) (l : Lexeme) :
    (l.without names).attributes = l.attributes.filter (!·.listed names) := by
  cases l <;> rfl

theorem without_nil (l : Lexeme) : l.without [] = l := by
  have hall : ∀ attributes : List Attribute,
      attributes.filter (fun a => !a.listed []) = attributes :=
    fun attributes => List.filter_eq_self.2 fun _ _ => rfl
  cases l with
  | start key attributes => rw [without, hall]
  | empty key attributes => rw [without, hall]
  | close key => rfl
  | text data => rfl

theorem without_cons (name : String) (names : List String) (l : Lexeme) :
    (l.without [name]).without names = l.without (name :: names) := by
  have hfilter : ∀ attributes : List Attribute,
      (attributes.filter (!·.listed [name])).filter (!·.listed names) =
        attributes.filter (!·.listed (name :: names)) := by
    intro attributes
    rw [List.filter_filter]
    refine List.filter_congr fun a _ => ?_
    rw [a.listed_cons name names, Bool.not_or, Bool.and_comm]
  cases l with
  | start key attributes => rw [without, without, without, hfilter]
  | empty key attributes => rw [without, without, without, hfilter]
  | close key => rfl
  | text data => rfl

theorem Plain.without {l : Lexeme} (h : l.Plain) (names : List String) :
    (l.without names).Plain := by
  cases l with
  | start key attributes => exact ⟨h.1, fun a ha => h.2 a (List.mem_of_mem_filter ha)⟩
  | empty key attributes => exact ⟨h.1, fun a ha => h.2 a (List.mem_of_mem_filter ha)⟩
  | close key => exact h
  | text data => exact h

end Lexeme

theorem dropped_cons_names (name : String) (names : List String) (doc : List Lexeme) :
    dropped (name :: names) doc =
      dropped [name] doc + dropped names (doc.map (·.without [name])) := by
  have hcount : ∀ attributes : List Attribute, attributes.countP (·.listed (name :: names)) =
      attributes.countP (·.listed [name]) +
        (attributes.filter (!·.listed [name])).countP (·.listed names) := by
    intro attributes
    induction attributes with
    | nil => rfl
    | cons a attributes ih =>
      rw [List.countP_cons, List.countP_cons, List.filter_cons, ih, a.listed_cons name names]
      cases a.listed [name] with
      | false =>
        rw [if_pos Bool.not_false, List.countP_cons]
        simp [Nat.add_assoc]
      | true =>
        simp
        omega
  induction doc with
  | nil => rfl
  | cons l doc ih =>
    rw [List.map_cons, dropped_cons, dropped_cons, dropped_cons, ih, hcount, l.attributes_without]
    omega

theorem dropped_no_names (doc : List Lexeme) : dropped [] doc = 0 := by
  induction doc with
  | nil => rfl
  | cons l doc ih =>
    have hnone : l.attributes.countP (·.listed []) = 0 :=
      List.countP_eq_zero.2 fun _ _ => Bool.false_ne_true
    rw [dropped_cons, ih, hnone]

/-- The searches for some names take the attributes with these names out of a document. -/
theorem foldl_sweepAttribute_serialize (plain : ∀ name ∈ names, PlainName name)
    (hdoc : ∀ l ∈ doc, l.Plain) (hvalues : ∀ l ∈ doc, ∀ a ∈ l.attributes, a.Unspelt names)
    (s : Sweep) (hs : s.cursor.text = serialize doc) : (names.foldl sweepAttribute s).toPass =
      { text := serialize (doc.map (·.without names)), count := s.count + dropped names doc,
        warnings := s.warnings } := by
  induction names generalizing doc s with
  | nil =>
    rw [List.foldl_nil, dropped_no_names, funext Lexeme.without_nil, List.map_id', ← hs]
    rfl
  | cons name names ih =>
    rw [List.forall_mem_cons] at plain
    have hrun := toPass_run_serialize plain.1 List.mem_cons_self hdoc hvalues
      (s := s.rewind) hs
    rw [Sweep.toPass, Sweep.toPass, Pass.mk.injEq] at hrun
    obtain ⟨htext, hcount, -, hwarnings⟩ := hrun
    -- What the search for this name leaves is a document again.
    have hdoc' : ∀ l ∈ doc.map (·.without [name]), l.Plain := by
      intro l' hl'
      obtain ⟨l, hl, rfl⟩ := List.mem_map.1 hl'
      exact (hdoc l hl).without [name]
    have hvalues' : ∀ l ∈ doc.map (·.without [name]), ∀ a ∈ l.attributes, a.Unspelt names := by
      intro l' hl' a ha
      obtain ⟨l, hl, rfl⟩ := List.mem_map.1 hl'
      rw [l.attributes_without] at ha
      intro other hother
      exact hvalues l hl a (List.mem_of_mem_filter ha) other (List.mem_cons_of_mem name hother)
    have htext' : ((attributeScan name).run s.rewind).cursor.text =
        serialize (doc.map (·.without [name])) := by
      rw [htext]
      simp [Sweep.past, Sweep.rewind, Cursor.text, Cursor.ofText]
    have hsweep : sweepAttribute s name = ((attributeScan name).run s.rewind).rewind :=
      bareTagScan_run_serialize plain.1 hdoc' htext'
    have hcount' : ((attributeScan name).run s.rewind).rewind.count =
        s.count + dropped [name] doc := hcount
    have hwarnings' : ((attributeScan name).run s.rewind).rewind.warnings = s.warnings := hwarnings
    have hmap : (doc.map (·.without [name])).map (·.without names) =
        doc.map (·.without (name :: names)) := by
      rw [List.map_map]
      exact List.map_congr_left fun l _ => l.without_cons name names
    rw [List.foldl_cons, hsweep, ih plain.2 hdoc' hvalues' (Sweep.rewind _) htext', hmap, hcount',
      hwarnings', dropped_cons_names name names doc, Nat.add_assoc]

/-- What the attribute pass makes of a document: the attributes with one of the names are gone, and
    if there were any, so are the properties that are empty without them. -/
def withoutAttributes (names : List String) (doc : List Lexeme) : Pass :=
  let kept := serialize (doc.map (·.without names))
  if dropped names doc = 0 then { text := kept }
  else
    { text := (removeEmptyProperties kept).text
      count := dropped names doc
      collapsed := (removeEmptyProperties kept).collapsed }

/-- Which attributes go does not depend on the order of the names. -/
theorem withoutAttributes_of_perm {names' : List String} (h : names'.Perm names)
    (doc : List Lexeme) : withoutAttributes names' doc = withoutAttributes names doc := by
  have hlisted : Attribute.listed names' = Attribute.listed names := by
    funext a
    rw [Attribute.listed, Attribute.listed, Bool.eq_iff_iff, List.any_eq_true, List.any_eq_true]
    simp only [h.mem_iff]
  have hwithout : Lexeme.without names' = Lexeme.without names := by
    funext l
    cases l <;> simp only [Lexeme.without, hlisted]
  have hdropped : dropped names' doc = dropped names doc := by
    rw [dropped, dropped, hlisted]
  rw [withoutAttributes, withoutAttributes, hwithout, hdropped]

/-- On the text of a document the attribute pass removes the attributes whose keys are among the
    names, whatever the order of these, and counts them. All texts stay as they are. -/
theorem removeAttributes_serialize (plain : ∀ name ∈ names, PlainName name)
    (hdoc : ∀ l ∈ doc, l.Plain) (hvalues : ∀ l ∈ doc, ∀ a ∈ l.attributes, a.Unspelt names)
    (names' : List String) (h : names'.Perm names) :
    removeAttributes names' (serialize doc) = withoutAttributes names doc := by
  have plain' : ∀ name ∈ names', PlainName name := fun name hname => plain name (h.mem_iff.1 hname)
  have hvalues' : ∀ l ∈ doc, ∀ a ∈ l.attributes, a.Unspelt names' :=
    fun l hl a ha name hname => hvalues l hl a ha name (h.mem_iff.1 hname)
  have hfold := foldl_sweepAttribute_serialize plain' hdoc hvalues'
    (Sweep.ofText (serialize doc)) rfl
  have hcount : (Sweep.ofText (serialize doc)).count + dropped names' doc = dropped names' doc :=
    Nat.zero_add _
  rw [hcount] at hfold
  rw [← withoutAttributes_of_perm h, removeAttributes, hfold, withoutAttributes]
  by_cases hnone : dropped names' doc = 0
  · rw [hnone]
    rfl
  · dsimp only
    rw [if_neg hnone, if_neg hnone]
    rfl

/-- A paragraph in which a text, a value and a longer key spell an attribute, and in which one
    attribute of each name goes. The paragraph properties are empty then. -/
def revisedParagraph : List Lexeme :=
  let row := Bytes.ofString
  [.start (row "w:p") [⟨row "w:rsidR", row "00AB"⟩, ⟨row "w:rsidRPr", row "00CD"⟩],
    .start (row "w:pPr") [⟨row "w:rsidR", row "00EF"⟩], .close (row "w:pPr"),
    .text (row " w:rsidR=\"00AB\" "), .empty (row "w:br") [⟨row "w:x", row "w:rsidR=1"⟩],
    .close (row "w:p")]

theorem removeAttributes_serialize_revised :
    (∀ name ∈ ["w:rsidR", "w:rsidP"], PlainName name) ∧ (∀ l ∈ revisedParagraph, l.Plain) ∧
      (∀ l ∈ revisedParagraph, ∀ a ∈ l.attributes, a.Unspelt ["w:rsidR", "w:rsidP"]) ∧
      ["w:rsidP", "w:rsidR"].Perm ["w:rsidR", "w:rsidP"] ∧
      removeAttributes ["w:rsidP", "w:rsidR"] (serialize revisedParagraph) =
        { text := Bytes.ofString
            "<w:p w:rsidRPr=\"00CD\"> w:rsidR=\"00AB\" <w:br w:x=\"w:rsidR=1\"/></w:p>"
          count := 2, collapsed := 1 } := by
  have hplain : ∀ name ∈ ["w:rsidR", "w:rsidP"], PlainName name := by decide +kernel
  have hdoc : ∀ l ∈ revisedParagraph, l.Plain := by decide +kernel
  have hvalues : ∀ l ∈ revisedParagraph, ∀ a ∈ l.attributes,
      a.Unspelt ["w:rsidR", "w:rsidP"] := by decide +kernel
  have hperm : ["w:rsidP", "w:rsidR"].Perm ["w:rsidR", "w:rsidP"] := .swap _ _ _
  refine ⟨hplain, hdoc, hvalues, hperm, ?_⟩
  rw [removeAttributes_serialize hplain hdoc hvalues _ hperm]
  decide +kernel

end

end DocxTemplate.Sanitize
