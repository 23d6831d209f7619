import Mathlib.Tactic.ByContra
import DocxTemplate.Proofs.Sanitize.MarkerPass

/-! # The attribute pass

    The pass for one name removes the attributes of this name from the tags. The same words in
    character data stay, whatever stands there.

    * `Strips`: which attributes a pass removes and which places it passes over, read from
      left to right.
    * `toPass_of_strips`: the scan does what `Strips` says.
    * `strips_written`: it removes the attributes of its name from a list of pieces.
    * `foldl_sweepAttribute`: the passes for all names remove all of them.
-/

namespace DocxTemplate.Sanitize

/-! ## One name -/

/-- Whether the attribute pass removes what starts with its token, if white space stands
    before it. -/
def IsAttribute (name : String) (text : Bytes) : Prop :=
  ∃ n, quotedLength? (text.drop (attributeToken name).length) = some n ∧
    endsInsideTag ((attributeToken name).length + n) text = true

/-- `Strips name text kept n`: of a text the `n` attributes with this name are removed with the
    white space before them. Other places at which the token stands are passed over. -/
inductive Strips (name : String) : Bytes → Bytes → Nat → Prop where
  | absent {text} (absent : ∀ j, ¬ attributeToken name <+: text.drop j) : Strips name text text 0
  | pass {front rest kept n}
      (first : FirstAt (attributeToken name <+: ·) (front ++ (attributeToken name ++ rest))
        front.length)
      (other : ¬ IsAttribute name (attributeToken name ++ rest)) (next : Strips name rest kept n) :
      Strips name (front ++ (attributeToken name ++ rest))
        (front ++ (attributeToken name ++ kept)) n
  | removed {front blanks value rest kept n}
      (first : FirstAt (attributeToken name <+: ·)
        (front ++ (blanks ++ (attributeToken name ++ (value ++ rest)))) (front ++ blanks).length)
      (unspaced : ∀ b, front.getLast? = some b → isSpace b = false)
      (blank : blanks ≠ [] ∧ ∀ b ∈ blanks, isSpace b = true)
      (quoted : quotedLength? (value ++ rest) = some value.length)
      (inside : endsInsideTag ((attributeToken name).length + value.length)
        (attributeToken name ++ (value ++ rest)) = true)
      (next : Strips name rest kept n) :
      Strips name (front ++ (blanks ++ (attributeToken name ++ (value ++ rest)))) (front ++ kept)
        (n + 1)

variable {name : String}

/-- A token that is no attribute is passed over. -/
theorem attributeStep_pass {s : Sweep} {front rest : Bytes}
    (hahead : s.cursor.ahead = front ++ (attributeToken name ++ rest))
    (first : FirstAt (attributeToken name <+: ·) (front ++ (attributeToken name ++ rest))
      front.length)
    (other : ¬ IsAttribute name (attributeToken name ++ rest)) :
    attributeStep name s = .more (s.advance (front.length + (attributeToken name).length)) := by
  have hindex : Bytes.indexOf? (attributeToken name) s.cursor.ahead = some front.length := by
    rw [hahead]
    exact Bytes.indexOf?_eq_some_iff.2 first
  have hhere : (s.cursor.advance front.length).ahead = attributeToken name ++ rest := by
    rw [Cursor.ahead_advance, hahead, List.drop_left]
  unfold attributeStep
  dsimp only
  rw [← attributeToken, hindex]
  dsimp only
  split
  · rw [hhere]
    cases hq : quotedLength? ((attributeToken name ++ rest).drop (attributeToken name).length) with
    | none => rfl
    | some n =>
      dsimp only
      rw [if_neg fun h => other ⟨n, hq, h⟩]
  · rfl

/-- Behind a stretch that does not end with white space, all blanks are white space to be
    removed. -/
theorem dropWhile_blanks {front blanks behind : Bytes}
    (unspaced : ∀ b, front.getLast? = some b → isSpace b = false)
    (hblanks : ∀ b ∈ blanks, isSpace b = true) (hbehind : behind.head?.any isSpace = false) :
    ((front ++ blanks).reverse ++ behind).dropWhile isSpace = front.reverse ++ behind := by
  rw [List.reverse_append, List.append_assoc, List.dropWhile_append_of_pos
    fun b hb => hblanks b (List.mem_reverse.1 hb)]
  cases hfront : front.reverse ++ behind with
  | nil => rfl
  | cons b tail =>
    have hb : isSpace b = false := by
      cases hrev : front.reverse with
      | nil =>
        rw [hrev, List.nil_append] at hfront
        simpa [hfront] using hbehind
      | cons c cs =>
        rw [hrev, List.cons_append, List.cons.injEq] at hfront
        refine unspaced b ?_
        rw [← List.head?_reverse, hrev, List.head?_cons, hfront.1]
    rw [List.dropWhile_cons_of_neg (by simp [hb])]

/-- An attribute is removed with the white space before it. -/
theorem attributeStep_attribute {s : Sweep} {front blanks value rest : Bytes}
    (hahead : s.cursor.ahead =
      front ++ (blanks ++ (attributeToken name ++ (value ++ rest))))
    (hbehind : s.cursor.afterSpace = false)
    (first : FirstAt (attributeToken name <+: ·)
      (front ++ (blanks ++ (attributeToken name ++ (value ++ rest)))) (front ++ blanks).length)
    (unspaced : ∀ b, front.getLast? = some b → isSpace b = false)
    (blank : blanks ≠ [] ∧ ∀ b ∈ blanks, isSpace b = true)
    (quoted : quotedLength? (value ++ rest) = some value.length)
    (inside : endsInsideTag ((attributeToken name).length + value.length)
      (attributeToken name ++ (value ++ rest)) = true) :
    attributeStep name s = .more { s with
      cursor := ⟨front.reverse ++ s.cursor.behind, rest⟩, count := s.count + 1 } := by
  have hindex : Bytes.indexOf? (attributeToken name) s.cursor.ahead =
      some (front ++ blanks).length := by
    rw [hahead]
    exact Bytes.indexOf?_eq_some_iff.2 first
  have hhere : s.cursor.advance (front ++ blanks).length =
      ⟨(front ++ blanks).reverse ++ s.cursor.behind, attributeToken name ++ (value ++ rest)⟩ := by
    rw [Cursor.advance, hahead, ← List.append_assoc, List.take_left, List.drop_left]
  have hspace : (s.cursor.advance (front ++ blanks).length).afterSpace = true := by
    rw [hhere, Cursor.afterSpace, List.reverse_append]
    cases hrev : blanks.reverse with
    | nil => exact absurd (List.reverse_eq_nil_iff.1 hrev) blank.1
    | cons b tail =>
      have hb : b ∈ blanks := List.mem_reverse.1 (by rw [hrev]; exact List.mem_cons_self)
      exact blank.2 b hb
  unfold attributeStep
  dsimp only
  rw [← attributeToken, hindex]
  dsimp only
  rw [if_pos hspace, hhere]
  dsimp only
  rw [List.drop_left, quoted]
  dsimp only
  rw [if_pos inside]
  simp only [Cursor.delete, Cursor.deleteSpaceBehind, Step.more.injEq]
  rw [dropWhile_blanks unspaced blank.2 hbehind]
  change { s with cursor := ⟨_, (attributeToken name ++ (value ++ rest)).drop
    ((attributeToken name).length + value.length)⟩, count := _ } = _
  rw [← List.drop_drop, List.drop_left, List.drop_left]

theorem getLast?_attributeToken (name : String) :
    (attributeToken name).getLast? = some '='.toUInt8 := by
  rw [attributeToken, List.getLast?_append]
  rfl

/-- The scan removes what is to be removed. -/
theorem toPass_of_strips {text kept : Bytes} {n : Nat} (h : Strips name text kept n) (s : Sweep)
    (hahead : s.cursor.ahead = text) (hbehind : s.cursor.afterSpace = false) :
    ((attributeScan name).run s).toPass =
      { text := s.cursor.behind.reverse ++ kept, count := s.count + n,
        warnings := s.warnings } := by
  induction h generalizing s with
  | @absent text absent =>
    have hindex : Bytes.indexOf? (attributeToken name) s.cursor.ahead = none := by
      rw [hahead]
      exact Bytes.indexOf?_eq_none_iff.2 absent
    have hnext : (attributeScan name).next s = .done s := by
      unfold attributeToken at hindex
      simp only [attributeScan, attributeStep, hindex]
    rw [Scan.run_of_done hnext, Sweep.toPass, Cursor.text, hahead]
    rfl
  | @pass front rest kept n first other next ih =>
    have hnext : (attributeScan name).next s = .more _ := attributeStep_pass hahead first other
    have hsplit : front ++ (attributeToken name ++ rest) = (front ++ attributeToken name) ++ rest :=
      (List.append_assoc _ _ _).symm
    have hcursor : s.cursor.advance (front.length + (attributeToken name).length) =
        ⟨(front ++ attributeToken name).reverse ++ s.cursor.behind, rest⟩ := by
      rw [← List.length_append, Cursor.advance, hahead, hsplit, List.take_left, List.drop_left]
    rw [Scan.run_of_more hnext, ih]
    · rw [Sweep.cursor_advance, hcursor]
      simp [Sweep.advance]
    · rw [Sweep.cursor_advance, hcursor]
    · -- The byte behind the cursor is the `=` of the token.
      rw [Sweep.cursor_advance, hcursor, Cursor.afterSpace, List.head?_append, List.head?_reverse,
        List.getLast?_append, getLast?_attributeToken]
      rfl
  | @removed front blanks value rest kept n first unspaced blank quoted inside next ih =>
    have hnext : (attributeScan name).next s = .more _ :=
      attributeStep_attribute hahead hbehind first unspaced blank quoted inside
    rw [Scan.run_of_more hnext, ih _ rfl]
    · simp [Nat.add_comm, Nat.add_left_comm]
    · rw [Cursor.afterSpace, List.head?_append, List.head?_reverse]
      cases hlast : front.getLast? with
      | none => exact hbehind
      | some b => simp [unspaced b hlast]

namespace Strips

/-- What stands before a text can be passed over if the token does not occur in it and it does
    not end with white space. -/
theorem skip {front rest kept : Bytes} {n : Nat}
    (hclear : Clear (attributeToken name <+: ·) front rest)
    (hlast : ∀ b, front.getLast? = some b → isSpace b = false) (h : Strips name rest kept n) :
    Strips name (front ++ rest) (front ++ kept) n := by
  cases h with
  | absent absent => exact .absent (hclear.none_append absent)
  | @pass front' rest kept n first other next =>
    rw [← List.append_assoc front front', ← List.append_assoc front front' (_ ++ kept)]
    refine .pass ?_ other next
    rw [List.append_assoc, List.length_append]
    exact first.append_front hclear
  | @removed front' blanks value rest kept n first unspaced blank quoted inside next =>
    rw [← List.append_assoc front front', ← List.append_assoc front front' kept]
    refine .removed ?_ ?_ blank quoted inside next
    · rw [List.append_assoc front, List.append_assoc front, List.length_append]
      exact first.append_front hclear
    · intro b hb
      rw [List.getLast?_append] at hb
      cases hlast' : front'.getLast? with
      | none =>
        rw [hlast', Option.none_or] at hb
        exact hlast b hb
      | some c =>
        rw [hlast', Option.some_or] at hb
        exact unspaced b (hlast'.trans hb)

end Strips

/-! ## Where the token stands -/

/-- The bytes that end a stretch in which the token is looked for do not occur in it. -/
theorem not_mem_attributeToken (h : name ∈ defaultAttributes) {b : UInt8}
    (hb : endsName b = true ∨ b = '<'.toUInt8 ∨ b = 0x22) : b ∉ attributeToken name := by
  intro hmem
  have hall : ∀ name ∈ defaultAttributes, ∀ b ∈ attributeToken name,
      endsName b = false ∧ b ≠ '<'.toUInt8 ∧ b ≠ 0x22 := by decide +kernel
  obtain ⟨hends, hlt, hquote⟩ := hall name h b hmem
  rcases hb with hb | hb | hb
  · rw [hb] at hends
    exact absurd hends (by simp)
  · exact hlt hb
  · exact hquote hb

/-- The token does not occur where there is no `=`. -/
theorem not_prefix_of_no_equals {text : Bytes} (h : '='.toUInt8 ∉ text) (j : Nat) :
    ¬ attributeToken name <+: text.drop j := by
  intro hpre
  have hmem : '='.toUInt8 ∈ attributeToken name := by simp [attributeToken]
  exact h (List.mem_of_mem_drop (hpre.subset hmem))

/-- A stretch without the token and the byte that ends it are clear of the token. -/
theorem clear_attributeToken {x more : Bytes} {c : UInt8}
    (hx : ∀ j, ¬ attributeToken name <+: x.drop j) (hc : c ∉ attributeToken name) :
    Clear (attributeToken name <+: ·) (x ++ [c]) more := by
  intro j hj
  rw [List.append_assoc, List.singleton_append]
  rw [List.length_append, List.length_singleton] at hj
  exact not_prefix_of_stop hx hc (by omega)

/-- The token goes across no end of a name. -/
theorem not_attributeToken_across (hname : name ∈ defaultAttributes) {x more : Bytes}
    (hx : '='.toUInt8 ∉ x) (hmore : NameEnds more) {j : Nat} (hj : j ≤ x.length) :
    ¬ attributeToken name <+: (x ++ more).drop j := by
  obtain ⟨c, hc, hends⟩ := hmore
  cases more with
  | nil => exact absurd hc (by simp)
  | cons d more =>
    rw [List.head?_cons, Option.some.injEq] at hc
    subst hc
    exact not_prefix_of_stop (not_prefix_of_no_equals hx)
      (not_mem_attributeToken hname (Or.inl hends)) hj

/-! ## A list of pieces -/

namespace Revision

variable (r : Revision)

/-- The value of an attribute with its quotes. -/
def quoted : Bytes := 0x22 :: (r.value ++ [0x22])

theorem written_eq : r.written = [' '.toUInt8] ++ (attributeToken r.name ++ r.quoted) := by
  simp [written, attributeToken, quoted]

theorem unbracketed_quoted : Unbracketed r.quoted := by
  obtain ⟨hlt, hgt⟩ := r.plain
  unfold quoted Unbracketed
  simp only [List.mem_cons, List.mem_append, List.not_mem_nil, or_false, not_or]
  exact ⟨⟨by decide, hlt, by decide⟩, by decide, hgt, by decide⟩

theorem quotedLength?_quoted (more : Bytes) :
    quotedLength? (r.quoted ++ more) = some r.quoted.length := by
  rw [quoted, List.cons_append, quotedLength?, if_pos (by decide), List.append_assoc,
    List.singleton_append, Bytes.indexOf?_singleton_append r.unquoted]
  simp

/-- Other attributes are clear of the token. -/
theorem clear (hname : name ∈ defaultAttributes) (hne : r.name ≠ name) (more : Bytes) :
    Clear (attributeToken name <+: ·) r.written more := by
  have hquote : (0x22 : UInt8) ∉ attributeToken name :=
    not_mem_attributeToken hname (Or.inr (Or.inr rfl))
  have hother : ∀ a ∈ defaultAttributes, ∀ b ∈ defaultAttributes, a ≠ b →
      Bytes.indexOf? (attributeToken b) ([' '.toUInt8] ++ attributeToken a) = none := by
    decide
  have hfirst := Bytes.indexOf?_eq_none_iff.1 (hother r.name r.known name hname hne)
  have hsplit : r.written =
      ([' '.toUInt8] ++ attributeToken r.name ++ [0x22]) ++ (r.value ++ [0x22]) := by
    rw [written_eq, quoted]
    simp only [List.append_assoc, List.cons_append, List.nil_append]
  rw [hsplit]
  exact (clear_attributeToken hfirst hquote).append
    (clear_attributeToken (not_prefix_of_no_equals r.no_equals) hquote)

theorem getLast?_written : r.written.getLast? = some 0x22 := by
  rw [written_eq, List.getLast?_append, List.getLast?_append, quoted, ← List.cons_append,
    List.getLast?_append]
  rfl

end Revision

/-- A byte that is not in a stretch, nor just behind it, stands further on. -/
theorem length_lt_of_append_eq {x more front rest : Bytes} {b c : UInt8} (hb : b ∉ x) (hne : b ≠ c)
    (h : x ++ c :: more = front ++ b :: rest) : x.length < front.length := by
  rcases List.append_eq_append_iff.1 h with ⟨between, rfl, hmore⟩ | ⟨between, rfl, hmore⟩
  · cases between with
    | nil => exact absurd (List.cons.inj hmore).1.symm hne
    | cons d between =>
      rw [List.length_append, List.length_cons]
      omega
  · cases between with
    | nil => exact absurd (List.cons.inj hmore).1 hne
    | cons d between =>
      rw [(List.cons.inj hmore).1] at hb
      exact absurd (by simp) hb

/-- A tag ends inside itself: its `>` comes before the next `<`. -/
theorem endsInsideTag_of_unbracketed {x more : Bytes} {n : Nat} (hx : Unbracketed x)
    (hn : n ≤ x.length) : endsInsideTag n (x ++ '>'.toUInt8 :: more) = true := by
  unfold endsInsideTag
  rw [Bytes.indexOf?_singleton_append hx.2]
  cases hlt : Bytes.indexOf? ['<'.toUInt8] (x ++ '>'.toUInt8 :: more) with
  | none => simpa using hn
  | some l =>
    obtain ⟨front, rest, heq, -, rfl⟩ := Bytes.eq_append_of_indexOf?_singleton hlt
    have hlater := length_lt_of_append_eq hx.1 (by decide) heq
    simp only [Bool.and_eq_true, decide_eq_true_eq]
    exact ⟨hlater, hn⟩

/-- Character data does not: the next `<` comes before any `>`. -/
theorem endsInsideTag_data {x more : Bytes} {n : Nat} (hx : Unbracketed x) :
    endsInsideTag n (x ++ '<'.toUInt8 :: more) = false := by
  unfold endsInsideTag
  rw [Bytes.indexOf?_singleton_append hx.1]
  cases hgt : Bytes.indexOf? ['>'.toUInt8] (x ++ '<'.toUInt8 :: more) with
  | none => rfl
  | some g =>
    obtain ⟨front, rest, heq, -, rfl⟩ := Bytes.eq_append_of_indexOf?_singleton hgt
    have hlater := length_lt_of_append_eq hx.2 (by decide) heq
    simp only [Bool.and_eq_false_iff, decide_eq_false_iff_not]
    exact Or.inl (by omega)

theorem unbracketed_attributeToken (hname : name ∈ defaultAttributes) :
    Unbracketed (attributeToken name) := by
  revert name
  decide

/-- A piece without the attributes of some names. -/
def Piece.without (p : Piece) (names : List String) : Piece :=
  { p with revisions := p.revisions.filter fun r => !names.contains r.name }

namespace Strips

/-- An attribute with the name goes if a `>` follows before the next `<`. -/
theorem revision (r : Revision) {x more kept : Bytes} {n : Nat} (hx : Unbracketed x)
    (h : Strips r.name (x ++ '>'.toUInt8 :: more) kept n) :
    Strips r.name (r.written ++ (x ++ '>'.toUInt8 :: more)) kept (n + 1) := by
  have hspace : ' '.toUInt8 ∉ attributeToken r.name :=
    not_mem_attributeToken r.known (Or.inl (by decide))
  have hclear : Clear (attributeToken r.name <+: ·) [' '.toUInt8]
      (attributeToken r.name ++ (r.quoted ++ (x ++ '>'.toUInt8 :: more))) := by
    have hnil : ∀ j, ¬ attributeToken r.name <+: ([] : Bytes).drop j :=
      not_prefix_of_no_equals List.not_mem_nil
    exact clear_attributeToken hnil hspace
  -- The first angle bracket behind the attribute is the end of the tag.
  have hinside : endsInsideTag ((attributeToken r.name).length + r.quoted.length)
      (attributeToken r.name ++ (r.quoted ++ (x ++ '>'.toUInt8 :: more))) = true := by
    have htag := (unbracketed_attributeToken r.known).append (r.unbracketed_quoted.append hx)
    have hlen : (attributeToken r.name).length + r.quoted.length ≤
        (attributeToken r.name ++ (r.quoted ++ x)).length := by
      simp only [List.length_append]
      omega
    have hend : endsInsideTag _ (_ ++ '>'.toUInt8 :: more) = true :=
      endsInsideTag_of_unbracketed htag hlen
    simpa only [List.append_assoc] using hend
  have hblank : [' '.toUInt8] ≠ [] ∧ ∀ b ∈ [' '.toUInt8], isSpace b = true := by
    rw [List.forall_mem_singleton]
    exact ⟨List.cons_ne_nil _ _, by decide⟩
  have hremoved : Strips r.name ([] ++ ([' '.toUInt8] ++ (attributeToken r.name ++
      (r.quoted ++ (x ++ '>'.toUInt8 :: more))))) ([] ++ kept) (n + 1) :=
    .removed (hclear.firstAt (List.prefix_append _ _)) (by simp) hblank
      (r.quotedLength?_quoted _) hinside h
  rw [r.written_eq]
  simpa only [List.nil_append, List.append_assoc] using hremoved

/-- In the tag, the attributes with the name go. -/
theorem revisions (hname : name ∈ defaultAttributes) {rest more kept : Bytes} {n : Nat}
    (hrest : Unbracketed rest) (h : Strips name (rest ++ '>'.toUInt8 :: more) kept n)
    (rs : List Revision) :
    ∃ k, Strips name (rs.flatMap Revision.written ++ (rest ++ '>'.toUInt8 :: more))
      ((rs.filter fun r => !([name].contains r.name)).flatMap Revision.written ++ kept) k := by
  induction rs with
  | nil => exact ⟨n, h⟩
  | cons r rs ih =>
    obtain ⟨k, hk⟩ := ih
    rw [List.flatMap_cons, List.append_assoc]
    by_cases hr : r.name = name
    · rw [List.filter_cons_of_neg (by simp [hr])]
      subst hr
      rw [← List.append_assoc (rs.flatMap _)] at hk ⊢
      exact ⟨k + 1, revision r ((unbracketed_revisions rs).append hrest) hk⟩
    · rw [List.filter_cons_of_pos (by simp [hr]), List.flatMap_cons, List.append_assoc]
      refine ⟨k, skip (r.clear hname hr _) ?_ hk⟩
      intro b hb
      rw [r.getLast?_written, Option.some.injEq] at hb
      rw [← hb]
      decide

/-- In character data the token is passed over wherever it stands. -/
theorem data (hname : name ∈ defaultAttributes) {data tag rest kept : Bytes} {n : Nat}
    (hdata : Unbracketed data)
    (hclear : Clear (attributeToken name <+: ·) ('<'.toUInt8 :: tag) rest)
    (hlast : ∀ b, ('<'.toUInt8 :: tag).getLast? = some b → isSpace b = false)
    (h : Strips name rest kept n) :
    Strips name (data ++ ('<'.toUInt8 :: tag ++ rest))
      (data ++ ('<'.toUInt8 :: tag ++ kept)) n := by
  have hlt : '<'.toUInt8 ∉ attributeToken name :=
    not_mem_attributeToken hname (Or.inr (Or.inl rfl))
  -- What follows the first place at which the token stands is character data again.
  induction hlen : data.length using Nat.strongRecOn generalizing data with
  | ind m ih =>
    cases hi : Bytes.indexOf? (attributeToken name) data with
    | none =>
      rw [← List.append_assoc, ← List.append_assoc]
      refine skip (Clear.append ?_ hclear) ?_ h
      · intro j hj
        exact not_prefix_of_stop (Bytes.indexOf?_eq_none_iff.1 hi) hlt (by omega)
      · intro b hb
        rw [List.getLast?_append_cons] at hb
        exact hlast b hb
    | some i =>
      have hin := Bytes.indexOf?_add_length_le hi
      have hfirst := Bytes.indexOf?_eq_some_iff.1 hi
      obtain ⟨front, data', rfl, rfl⟩ := Bytes.eq_append_of_indexOf? hi
      have hrest := hdata.of_append
      have hpos : 0 < (attributeToken name).length := by simp [attributeToken]
      have hlen' : data'.length < m := by
        rw [← hlen, List.length_append, List.length_append]
        omega
      have hnext := ih _ hlen' hrest.of_append rfl
      rw [List.append_assoc, List.append_assoc, List.append_assoc, List.append_assoc]
      refine .pass ?_ ?_ hnext
      · have hshort : FirstAt (attributeToken name <+: ·)
            (front ++ (attributeToken name ++ data') ++ []) front.length := by
          rwa [List.append_nil]
        have hlong := (FirstAt.congr_front (b := '<'.toUInt8 :: tag ++ rest)
          (ofFirstBytes_pattern (attributeToken name)) hin).1 hshort
        simpa only [List.append_assoc] using hlong
      · intro ⟨k, _, hinside⟩
        rw [← List.append_assoc, List.cons_append, endsInsideTag_data hrest] at hinside
        exact absurd hinside (by simp)

end Strips

/-- The pass for a name removes the attributes of this name. -/
theorem strips_written (hname : name ∈ defaultAttributes) (ps : List Piece) :
    ∃ n, Strips name (ps.flatMap Piece.written)
      ((ps.map (·.without [name])).flatMap Piece.written) n := by
  induction ps with
  | nil => exact ⟨0, .absent (not_prefix_of_no_equals (by simp))⟩
  | cons p ps ih =>
    obtain ⟨n, hn⟩ := ih
    -- The tag is put together from its end: what is kept, the attributes, the name.
    have hgt : '>'.toUInt8 ∉ attributeToken name :=
      not_mem_attributeToken hname (Or.inl (by decide))
    have hend : Strips name (p.rest ++ '>'.toUInt8 :: ps.flatMap Piece.written)
        (p.rest ++ '>'.toUInt8 :: (ps.map (·.without [name])).flatMap Piece.written) n := by
      have hskip := Strips.skip (clear_attributeToken
        (Bytes.indexOf?_eq_none_iff.1 (p.plain.rest_kept name hname)) hgt) (by simp; decide) hn
      simpa using hskip
    obtain ⟨k, hk⟩ := hend.revisions hname p.plain.rest_plain p.revisions
    refine ⟨k, ?_⟩
    have hclear : Clear (attributeToken name <+: ·) ('<'.toUInt8 :: p.name)
        (p.revisions.flatMap Revision.written ++
          (p.rest ++ '>'.toUInt8 :: ps.flatMap Piece.written)) := by
      have hequals : '='.toUInt8 ∉ '<'.toUInt8 :: p.name := by
        rw [List.mem_cons, not_or]
        exact ⟨by decide, p.plain.name_plain.2⟩
      intro j hj
      exact not_attributeToken_across hname hequals (p.nameEnds _) (by omega)
    have hlast : ∀ b, ('<'.toUInt8 :: p.name).getLast? = some b → isSpace b = false := by
      intro b hb
      rcases List.mem_cons.1 (List.mem_of_getLast? hb) with rfl | hmem
      · decide
      · have hends := p.plain.name_ends b hmem
        rw [endsName, Bool.or_eq_false_iff] at hends
        exact hends.2
    have hdata := Strips.data hname p.data_plain hclear hlast hk
    simpa [Piece.written, Piece.without] using hdata

/-- Where no tag consists of an attribute, the second pass for its name finds nothing. -/
theorem bareTagScan_run_clear {s : Sweep}
    (hclear : Clear (('<'.toUInt8 :: attributeToken name) <+: ·) s.cursor.ahead []) :
    (bareTagScan name).run s = s := by
  have hindex : Bytes.indexOf? ('<'.toUInt8 :: attributeToken name) s.cursor.ahead = none := by
    rw [Bytes.indexOf?_eq_none_iff]
    intro j
    have hnone := hclear.none_append (by simp) j
    rwa [List.append_nil] at hnone
  have hnext : (bareTagScan name).next s = .done s := by
    unfold attributeToken at hindex
    simp only [bareTagScan, bareTagStep, List.cons_append, hindex]
  exact Scan.run_of_done hnext

/-- No tag of a piece consists of such an attribute. -/
theorem run_bareTagScan (hname : name ∈ defaultAttributes) (ps : List Piece) (s : Sweep)
    (hs : s.cursor.ahead = ps.flatMap Piece.written) : (bareTagScan name).run s = s := by
  apply bareTagScan_run_clear
  rw [hs]
  refine Absent.flatMap (fun p _ more => p.clear (atTags_pattern _) ?_) []
  rw [List.cons_prefix_cons]
  intro ⟨_, hpre⟩
  exact not_attributeToken_across hname p.plain.name_plain.2 (p.nameEnds more)
    (Nat.zero_le _) hpre

/-! ## All names -/

theorem Piece.without_nil (p : Piece) : p.without [] = p := by
  have hall : p.revisions.filter (fun r => !([] : List String).contains r.name) = p.revisions :=
    List.filter_eq_self.2 fun r _ => rfl
  unfold without
  rw [hall]

theorem Piece.without_without (p : Piece) (names : List String) :
    (p.without [name]).without names = p.without (name :: names) := by
  simp only [Piece.without, Piece.mk.injEq, true_and, and_true, List.filter_filter]
  refine List.filter_congr fun r _ => ?_
  simp only [List.contains_cons, List.contains_nil, Bool.or_false, Bool.not_or, Bool.and_comm]

/-- The passes for some names remove the attributes of these names. -/
theorem foldl_sweepAttribute {names : List String}
    (hnames : ∀ name ∈ names, name ∈ defaultAttributes)
    (ps : List Piece) (s : Sweep) (hs : s.cursor.text = ps.flatMap Piece.written) :
    ∃ n, (names.foldl sweepAttribute s).toPass =
      { text := (ps.map fun p : Piece => p.without names).flatMap Piece.written,
        count := s.count + n, warnings := s.warnings } := by
  induction names generalizing ps s with
  | nil =>
    have hsame : (ps.map fun p : Piece => p.without []) = ps := by
      rw [funext Piece.without_nil]
      exact List.map_id' ps
    exact ⟨0, by rw [hsame, ← hs]; rfl⟩
  | cons name names ih =>
    rw [List.forall_mem_cons] at hnames
    obtain ⟨n, hstrips⟩ := strips_written hnames.1 ps
    have hpass := toPass_of_strips hstrips s.rewind hs rfl
    rw [Sweep.toPass, Pass.mk.injEq] at hpass
    obtain ⟨htext, hcount, -, hwarnings⟩ := hpass
    have hrewound : ((attributeScan name).run s.rewind).cursor.text =
        (ps.map fun p : Piece => p.without [name]).flatMap Piece.written := htext
    -- The second pass for the name finds nothing, so the next name goes on from here.
    have hsweep : sweepAttribute s name = ((attributeScan name).run s.rewind).rewind :=
      run_bareTagScan hnames.1 (ps.map fun p : Piece => p.without [name]) _ hrewound
    obtain ⟨n', hfold⟩ := ih hnames.2 (ps.map fun p : Piece => p.without [name])
      ((attributeScan name).run s.rewind).rewind hrewound
    have hmap : (ps.map fun p : Piece => p.without [name]).map (fun p : Piece => p.without names) =
        ps.map fun p : Piece => p.without (name :: names) := by
      rw [List.map_map]
      exact List.map_congr_left fun p _ => p.without_without names
    have hrewind : ((attributeScan name).run s.rewind).rewind.count = s.count + n := hcount
    refine ⟨n + n', ?_⟩
    rw [List.foldl_cons, hsweep, hfold, hmap, hrewind, Nat.add_assoc]
    exact congrArg (Pass.mk _ _ 0) hwarnings

end DocxTemplate.Sanitize
