import DocxTemplate.Proofs.Sanitize.Cuts
import DocxTemplate.Proofs.Sanitize.PropertyPass
import DocxTemplate.Proofs.Text.Utf8

/-! # What sanitizing deletes

    Every pass only takes spans out of the text, each of a shape that is known beforehand:

    * `OfMarker`, `OfAttribute`, `OfProperty`, `OfRunJoin`: the shapes of the spans.
    * `Deletes`: from one sweep to a later one some spans of a shape are cut out, and each
      of them counts.
    * `Accounts`: the spans lead from the text to the sanitized one, kind after kind, and the
      counters of the report are their numbers.
-/

namespace DocxTemplate

/-- What holds of the state behind a step, whether or not it is the last one. -/
def Step.Leads {σ : Type} (P : σ → Prop) : Step σ σ → Prop
  | .more t | .done t => P t

namespace Sanitize

/-! ## Shapes -/

/-- A name as the rules give it: not empty, and without white space and the characters that
    have a meaning in a tag. -/
def PlainName (name : String) : Prop :=
  Bytes.ofString name ≠ [] ∧ ∀ b ∈ Bytes.ofString name,
    endsName b = false ∧ b ∉ ['<'.toUInt8, '='.toUInt8, 0x22, 0x27]

instance (name : String) : Decidable (PlainName name) := inferInstanceAs (Decidable (_ ∧ _))

/-- A value between two quotes of one kind. -/
def Quoted (value : Bytes) : Prop :=
  ∃ q inner, (q = 0x22 ∨ q = 0x27) ∧ q ∉ inner ∧ value = q :: (inner ++ [q])

/-- An element that holds nothing and has one of the names: an empty tag, or a start tag with
    its end tag. -/
def OfMarker (names : List String) (c : Cut) : Prop :=
  ∃ name ∈ names, ∃ attributes : Bytes, '>'.toUInt8 ∉ attributes ∧
    NameEnds (attributes ++ ['>'.toUInt8]) ∧
    (attributes.getLast? = some '/'.toUInt8 ∧
        c.removed = '<'.toUInt8 :: (Bytes.ofString name ++ attributes ++ Bytes.ofString ">") ∨
      c.removed = '<'.toUInt8 :: (Bytes.ofString name ++ attributes ++ Bytes.ofString "></" ++
        Bytes.ofString name ++ Bytes.ofString ">"))

/-- An attribute with one of the names, or a tag that consists of nothing else. -/
inductive OfAttribute (names : List String) : Cut → Prop where
  /-- The attribute stands in a tag, and all the white space before it goes with it. -/
  | inTag {name before blanks value inner rest} (known : name ∈ names)
      (unspaced : ∀ b, before.getLast? = some b → isSpace b = false)
      (blank : blanks ≠ [] ∧ ∀ b ∈ blanks, isSpace b = true)
      (quoted : Quoted value) (plain : Unbracketed value) (inside : Unbracketed inner) :
      OfAttribute names ⟨before, blanks ++ (attributeToken name ++ value),
        inner ++ '>'.toUInt8 :: rest⟩
  /-- The attribute stands in the place of a tag's name. -/
  | bareTag {name before value blanks ending after} (known : name ∈ names)
      (quoted : Quoted value) (blank : Blank.AllBlank blanks)
      (ends : ending = Bytes.ofString ">" ∨ ending = Bytes.ofString "/>") :
      OfAttribute names
        ⟨before, '<'.toUInt8 :: (attributeToken name ++ value ++ blanks ++ ending), after⟩

/-- One of the written forms of empty properties. -/
def OfProperty (c : Cut) : Prop := ∃ form ∈ emptyForms, c.removed = Bytes.ofString form

/-- What stands between the texts of two runs that open alike: the end tags of the first text
    node and of its run, the opening of the second run and the rest of its text tag. The same
    opening stands before the first text. -/
structure OfRunJoin (c : Cut) : Prop where
  removed : ∃ opening attributes, c.removed = textEnd ++ '>'.toUInt8 :: (runEnd ++ '>'.toUInt8 ::
      (opening ++ attributes ++ ['>'.toUInt8])) ∧
    StartsToken runStart opening ∧ textStart <:+ opening ∧
    '>'.toUInt8 ∉ attributes ∧ (∀ b, attributes.head? = some b → b = ' '.toUInt8) ∧
    ∃ front data, c.before = front ++ opening ++ data

/-! ## Chains of cuts -/

namespace Cutting

variable {x y z : Bytes} {cs ds : List Cut}

theorem append (h : Cutting x cs y) (h' : Cutting y ds z) : Cutting x (cs ++ ds) z := by
  induction h with
  | nil => exact h'
  | cons next ih => exact .cons (ih h')

theorem of_append (h : Cutting x (cs ++ ds) z) : ∃ y, Cutting x cs y ∧ Cutting y ds z := by
  induction cs generalizing x with
  | nil => exact ⟨x, .nil, h⟩
  | cons c cs ih =>
    cases h with
    | cons next =>
      obtain ⟨y, hcs, hds⟩ := ih next
      exact ⟨y, .cons hcs, hds⟩

/-- Cuts that take something out make a text shorter. -/
theorem length_le (h : Cutting x cs y) (hcs : ∀ c ∈ cs, c.removed ≠ []) :
    y.length + cs.length ≤ x.length := by
  induction h with
  | nil => exact Nat.le_refl _
  | @cons c cs last next ih =>
    rw [List.forall_mem_cons] at hcs
    have hle := ih hcs.2
    have hpos := List.length_pos_iff.2 hcs.1
    simp only [Cut.rest, Cut.whole, List.length_append, List.length_cons] at hle ⊢
    omega

theorem eq_of_nil (h : Cutting x [] y) : y = x := by
  cases h
  rfl

end Cutting

/-- From one sweep to a later one, spans with a property are cut out of the text, and each of
    them counts. -/
def Deletes (P : Cut → Prop) (s t : Sweep) : Prop :=
  ∃ cuts, Cutting s.cursor.text cuts t.cursor.text ∧ t.count = s.count + cuts.length ∧
    ∀ c ∈ cuts, P c

namespace Deletes

variable {P Q : Cut → Prop} {s t u : Sweep}

/-- Nothing is deleted where the text and the count stay. -/
theorem same (htext : t.cursor.text = s.cursor.text) (hcount : t.count = s.count) :
    Deletes P s t :=
  ⟨[], by rw [htext]; exact .nil, hcount, by simp⟩

theorem single {c : Cut} (hwhole : s.cursor.text = c.whole) (hrest : t.cursor.text = c.rest)
    (hcount : t.count = s.count + 1) (hc : P c) : Deletes P s t := by
  refine ⟨[c], ?_, hcount, by simpa using hc⟩
  rw [hwhole, hrest]
  exact .cons .nil

theorem trans (h : Deletes P s t) (h' : Deletes P t u) : Deletes P s u := by
  obtain ⟨cs, hcs, hcount, hall⟩ := h
  obtain ⟨ds, hds, hcount', hall'⟩ := h'
  refine ⟨cs ++ ds, hcs.append hds, ?_, ?_⟩
  · rw [hcount', hcount, List.length_append, Nat.add_assoc]
  · intro c hc
    rcases List.mem_append.1 hc with hc | hc
    · exact hall c hc
    · exact hall' c hc

/-- A scan deletes what its steps delete. -/
theorem of_scan (scan : Scan Sweep Sweep) (step : ∀ s, (scan.next s).Leads (Deletes P s))
    (s : Sweep) : Deletes P s (scan.run s) := by
  refine Scan.run_induction (P := fun t => Deletes P s t) (Q := fun t => Deletes P s t) ?_ ?_ s
    (same rfl rfl)
  · intro t u h hnext
    have hstep := step t
    rw [hnext] at hstep
    exact h.trans hstep
  · intro t u h hnext
    have hstep := step t
    rw [hnext] at hstep
    exact h.trans hstep

/-- One scan after the other, each from the start of the text, deletes what they all delete. -/
theorem foldl {α : Type} {f : Sweep → α → Sweep} {l : List α}
    (h : ∀ a ∈ l, ∀ s, Deletes P s (f s a)) (s : Sweep) : Deletes P s (l.foldl f s) := by
  induction l generalizing s with
  | nil => exact same rfl rfl
  | cons a l ih =>
    rw [List.forall_mem_cons] at h
    exact (h.1 s).trans (ih h.2 _)

/-- Going back to the start of the text deletes nothing. -/
theorem of_rewind (h : Deletes P s.rewind t) : Deletes P s t := h

/-- Deleting what stands ahead of a place in the text. -/
theorem delete {here : Cursor} {removed after : Bytes} {n : Nat} {ws : List Warning}
    (htext : here.text = s.cursor.text) (hahead : here.ahead = removed ++ after)
    (hn : removed.length = n) (hc : P ⟨here.behind.reverse, removed, after⟩) :
    Deletes P s { cursor := here.delete n, count := s.count + 1, warnings := ws } := by
  refine single (c := ⟨here.behind.reverse, removed, after⟩) ?_ ?_ rfl hc
  · rw [← htext, Cut.whole, List.append_assoc, ← hahead]
    rfl
  · rw [Cut.rest, Cursor.text, Cursor.ahead_delete, Cursor.behind_delete, hahead, ← hn,
      List.drop_left]

end Deletes

/-- The first `>` of a text stands behind every stretch that has none. -/
theorem exists_eq_append_of_gt {x tail front rest : Bytes} (hx : '>'.toUInt8 ∉ x)
    (heq : x ++ tail = front ++ '>'.toUInt8 :: rest) :
    ∃ between, front = x ++ between ∧ tail = between ++ '>'.toUInt8 :: rest := by
  rcases List.append_eq_append_iff.1 heq with ⟨between, rfl, htail⟩ | ⟨between, rfl, htail⟩
  · exact ⟨between, rfl, htail⟩
  · cases between with
    | nil => exact ⟨[], by simp, htail.symm⟩
    | cons b between =>
      rw [List.cons_append, List.cons.injEq] at htail
      exact absurd (by simp [htail.1]) hx

/-! ## Markers -/

theorem tokenOf_plain {name : String} (h : PlainName name) :
    Bytes.ofString (tokenOf name) = '<'.toUInt8 :: Bytes.ofString name := by
  have hhead : (name.toList.head? == some '<') = false := by
    cases hcs : name.toList with
    | nil => rfl
    | cons c cs =>
      rw [List.head?_cons, beq_eq_false_iff_ne]
      rintro ⟨⟩
      have hmem : '<'.toUInt8 ∈ Bytes.ofString name := by
        rw [Bytes.ofString, hcs, List.flatMap_cons]
        exact List.mem_append_left _ (by decide)
      exact (h.2 _ hmem).2 List.mem_cons_self
  rw [tokenOf, hhead, if_neg Bool.false_ne_true, Bytes.ofString, String.toList_append,
    List.flatMap_append]
  rfl

/-- A tag that is found ends behind its name and its attributes. -/
theorem exists_tag_of_tokenIndex? {name : String} (plain : PlainName name) {c : Cursor} {i g : Nat}
    (hi : tokenIndex? (Bytes.ofString (tokenOf name)) c.ahead = some i)
    (hg : Bytes.indexOf? ['>'.toUInt8] (c.advance i).ahead = some g) :
    ∃ attributes rest, (c.advance i).ahead =
        '<'.toUInt8 :: Bytes.ofString name ++ attributes ++ '>'.toUInt8 :: rest ∧
      g = ('<'.toUInt8 :: Bytes.ofString name ++ attributes).length ∧ '>'.toUInt8 ∉ attributes ∧
      NameEnds (attributes ++ ['>'.toUInt8]) := by
  have htoken := tokenOf_plain plain
  have hlt : '<'.toUInt8 ∉ Bytes.ofString name := fun h => (plain.2 _ h).2 List.mem_cons_self
  have hname : '>'.toUInt8 ∉ '<'.toUInt8 :: Bytes.ofString name := by
    rw [List.mem_cons, not_or]
    exact ⟨by decide, fun h => absurd (plain.2 _ h).1 (by decide)⟩
  have hdistinct : Distinct (Bytes.ofString (tokenOf name)) := ⟨_, _, htoken, hlt⟩
  obtain ⟨b, tail, hahead, hb⟩ := ((tokenIndex?_eq_some_iff hdistinct).1 hi).1
  rw [← Cursor.ahead_advance, htoken] at hahead
  obtain ⟨front, rest, heq, hfront, rfl⟩ := Bytes.eq_append_of_indexOf?_singleton hg
  obtain ⟨attributes, rfl, htail⟩ := exists_eq_append_of_gt hname (hahead ▸ heq)
  refine ⟨attributes, rest, heq, rfl, fun h => hfront (List.mem_append_right _ h), ?_⟩
  cases attributes with
  | nil => exact ⟨_, rfl, by decide⟩
  | cons a attributes =>
    rw [List.cons_append, List.cons.injEq] at htail
    exact ⟨a, rfl, htail.1 ▸ hb⟩

/-- The slash of an empty tag does not belong to its name. -/
theorem getLast?_attributes {name : String} (plain : PlainName name) {attributes : Bytes}
    (h : ('<'.toUInt8 :: Bytes.ofString name ++ attributes).getLast? = some '/'.toUInt8) :
    attributes.getLast? = some '/'.toUInt8 := by
  have hunslashed : '/'.toUInt8 ∉ '<'.toUInt8 :: Bytes.ofString name := by
    rw [List.mem_cons, not_or]
    exact ⟨by decide, fun h => absurd (plain.2 _ h).1 (by decide)⟩
  rw [List.getLast?_append, Option.or_eq_some_iff] at h
  rcases h with h | ⟨-, h⟩
  · exact h
  · exact absurd (List.mem_of_getLast? h) hunslashed

/-- A removed element holds nothing, whichever way it is written. -/
theorem markerStep_deletes {names : List String} {name : String} (known : name ∈ names)
    (plain : PlainName name) (s : Sweep) :
    (markerStep (tokenOf name) s).Leads (Deletes (OfMarker names) s) := by
  have hend : endTag (tokenOf name) =
      Bytes.ofString "</" ++ Bytes.ofString name ++ Bytes.ofString ">" := by
    rw [endTag, tokenOf_plain plain, List.drop_one, List.tail_cons]
  have hbracket : Bytes.ofString ">" = ['>'.toUInt8] := by decide
  unfold markerStep
  cases hi : tokenIndex? (Bytes.ofString (tokenOf name)) s.cursor.ahead with
  | none => exact .same rfl rfl
  | some i =>
    have hhere : (s.cursor.advance i).text = s.cursor.text := Cursor.text_advance _ _
    dsimp only
    cases hg : Bytes.indexOf? ['>'.toUInt8] (s.cursor.advance i).ahead with
    | none => exact .same rfl rfl
    | some g =>
      obtain ⟨attributes, rest, heq, rfl, hplain, hends⟩ := exists_tag_of_tokenIndex? plain hi hg
      generalize s.cursor.advance i = here at heq hhere ⊢
      dsimp only
      rw [heq, List.take_left]
      by_cases hlast : (('<'.toUInt8 :: Bytes.ofString name ++ attributes).getLast? ==
          some '/'.toUInt8) = true
      · rw [if_pos hlast]
        have hcut : OfMarker names ⟨here.behind.reverse,
            '<'.toUInt8 :: (Bytes.ofString name ++ attributes ++ Bytes.ofString ">"), rest⟩ :=
          ⟨name, known, attributes, hplain, hends,
            Or.inl ⟨getLast?_attributes plain (eq_of_beq hlast), rfl⟩⟩
        refine .delete hhere ?_ ?_ hcut
        · rw [heq, hbracket]
          simp
        · rw [hbracket]
          simp [Nat.add_assoc]
      · rw [if_neg hlast]
        by_cases hclosed : (endTag (tokenOf name)).isPrefixOf
            (('<'.toUInt8 :: Bytes.ofString name ++ attributes ++ '>'.toUInt8 :: rest).drop
              (('<'.toUInt8 :: Bytes.ofString name ++ attributes).length + 1)) = true
        · rw [if_pos hclosed]
          have hdrop : ('<'.toUInt8 :: Bytes.ofString name ++ attributes ++ '>'.toUInt8 :: rest).drop
              (('<'.toUInt8 :: Bytes.ofString name ++ attributes).length + 1) = rest := by
            rw [← List.drop_drop, List.drop_left]
            rfl
          rw [hdrop, List.isPrefixOf_iff_prefix, hend] at hclosed
          obtain ⟨after, rfl⟩ := hclosed
          have hopen : Bytes.ofString "></" = '>'.toUInt8 :: Bytes.ofString "</" := by
            decide
          have hcut : OfMarker names ⟨here.behind.reverse, '<'.toUInt8 :: (Bytes.ofString name ++
              attributes ++ Bytes.ofString "></" ++ Bytes.ofString name ++ Bytes.ofString ">"),
              after⟩ :=
            ⟨name, known, attributes, hplain, hends, Or.inr rfl⟩
          refine .delete hhere ?_ ?_ hcut
          · rw [heq, hopen]
            simp
          · rw [hend, hopen]
            simp
            omega
        · rw [if_neg hclosed]
          exact .same (Cursor.text_advance _ _) rfl

/-- The marker pass deletes as many markers as it counts. -/
theorem removeMarkers_cuts {tags : List String} (plain : ∀ tag ∈ tags, PlainName tag)
    (text : Bytes) : ∃ cuts, Cutting text cuts (removeMarkers tags text).text ∧
      (removeMarkers tags text).count = cuts.length ∧ ∀ c ∈ cuts, OfMarker tags c := by
  have hsweep : ∀ tag ∈ tags, ∀ s : Sweep,
      Deletes (OfMarker tags) s ((markerScan (tokenOf tag)).run s.rewind) := by
    intro tag htag s
    have hstep := markerStep_deletes htag (plain tag htag)
    exact Deletes.of_rewind (Deletes.of_scan (markerScan (tokenOf tag)) hstep s.rewind)
  obtain ⟨cuts, hcuts, hcount, hall⟩ := Deletes.foldl hsweep (Sweep.ofText text)
  exact ⟨cuts, hcuts, hcount.trans (Nat.zero_add _), hall⟩

/-! ## Attributes -/

theorem quoted_of_quotedLength? {text : Bytes} {n : Nat} (h : quotedLength? text = some n) :
    ∃ value rest, text = value ++ rest ∧ value.length = n ∧ Quoted value := by
  cases text with
  | nil => simp [quotedLength?] at h
  | cons q text =>
    rw [quotedLength?] at h
    split at h
    · next hq =>
      obtain ⟨i, hi, rfl⟩ := Option.map_eq_some_iff.1 h
      obtain ⟨inner, rest, rfl, hinner, rfl⟩ := Bytes.eq_append_of_indexOf?_singleton hi
      refine ⟨q :: (inner ++ [q]), rest, by simp, by simp, q, inner, ?_, hinner, rfl⟩
      simpa using hq
    · simp at h

/-- A stretch that ends inside a tag holds no angle bracket, and neither does what stands between
    it and the end of the tag. -/
theorem unbracketed_of_endsInsideTag {x tail : Bytes} (h : endsInsideTag x.length (x ++ tail) = true) :
    Unbracketed x ∧ ∃ inner rest, tail = inner ++ '>'.toUInt8 :: rest ∧ Unbracketed inner := by
  unfold endsInsideTag at h
  cases hg : Bytes.indexOf? ['>'.toUInt8] (x ++ tail) with
  | none => simp [hg] at h
  | some g =>
    obtain ⟨front, rest, heq, hgt, rfl⟩ := Bytes.eq_append_of_indexOf?_singleton hg
    have hboth : '<'.toUInt8 ∉ front ∧ x.length ≤ front.length := by
      cases hl : Bytes.indexOf? ['<'.toUInt8] (x ++ tail) with
      | none =>
        have hnone := Bytes.indexOf?_singleton_eq_none_iff.1 hl
        rw [heq, List.mem_append, not_or] at hnone
        simp only [hg, hl, decide_eq_true_eq] at h
        exact ⟨hnone.1, h⟩
      | some l =>
        simp only [hg, hl, Bool.and_eq_true, decide_eq_true_eq] at h
        refine ⟨fun hmem => ?_, h.2⟩
        -- Otherwise the first `<` would come before the first `>`.
        obtain ⟨k, hk, hget⟩ := List.mem_iff_getElem.1 hmem
        have hfirst := Bytes.indexOf?_eq_some_iff.1 hl
        have hpre : ['<'.toUInt8] <+: (x ++ tail).drop k := by
          rw [heq, List.drop_append_of_le_length (by omega), List.drop_eq_getElem_cons hk, hget]
          exact ⟨_, rfl⟩
        have := hfirst.le_of_holds hpre
        omega
    obtain ⟨hlt, hle⟩ := hboth
    have hinner : x ++ front.drop x.length = front := by
      have htake := congrArg (List.take x.length) heq
      rw [List.take_left, List.take_append_of_le_length hle] at htake
      rw [← List.take_append_drop x.length front, ← htake, List.drop_left]
    have htail : tail = front.drop x.length ++ '>'.toUInt8 :: rest := by
      refine List.append_cancel_left (?_ : x ++ tail = x ++ _)
      rw [← List.append_assoc, hinner, heq]
    rw [← hinner, List.mem_append, not_or] at hlt hgt
    exact ⟨⟨hlt.1, hgt.1⟩, _, rest, htail, hlt.2, hgt.2⟩

/-- White space behind a cursor is deleted up to a byte that is none. -/
theorem exists_blanks_behind {c : Cursor} (h : c.afterSpace = true) : ∃ before blanks,
    c.behind.reverse = before ++ blanks ∧ c.deleteSpaceBehind.behind.reverse = before ∧
      (∀ b, before.getLast? = some b → isSpace b = false) ∧
      blanks ≠ [] ∧ ∀ b ∈ blanks, isSpace b = true := by
  refine ⟨(c.behind.dropWhile isSpace).reverse, (c.behind.takeWhile isSpace).reverse, ?_, rfl,
    ?_, ?_, ?_⟩
  · rw [← List.reverse_append, List.takeWhile_append_dropWhile]
  · intro b hb
    rw [List.getLast?_reverse] at hb
    have hnot := List.head?_dropWhile_not isSpace c.behind
    rw [hb] at hnot
    simpa using hnot
  · rw [Cursor.afterSpace] at h
    cases hbehind : c.behind with
    | nil => simp [hbehind] at h
    | cons b behind =>
      rw [hbehind, List.head?_cons, Option.any_some] at h
      rw [List.takeWhile_cons_of_pos h]
      simp
  · intro b hb
    exact List.all_eq_true.1 List.all_takeWhile b (List.mem_reverse.1 hb)

/-- An attribute goes with its value and the white space before it. -/
theorem attributeStep_deletes {names : List String} {name : String} (known : name ∈ names)
    (s : Sweep) : (attributeStep name s).Leads (Deletes (OfAttribute names) s) := by
  unfold attributeStep
  dsimp only
  rw [← attributeToken]
  cases hi : Bytes.indexOf? (attributeToken name) s.cursor.ahead with
  | none => exact .same rfl rfl
  | some i =>
    have hpass : Deletes (OfAttribute names) s (s.advance (i + (attributeToken name).length)) :=
      .same (Cursor.text_advance _ _) rfl
    obtain ⟨tail, htail⟩ := (Bytes.indexOf?_eq_some_iff.1 hi).1
    have hhere : (s.cursor.advance i).text = s.cursor.text := Cursor.text_advance _ _
    rw [← Cursor.ahead_advance] at htail
    dsimp only
    generalize s.cursor.advance i = here at htail hhere ⊢
    by_cases hspace : here.afterSpace = true
    · rw [if_pos hspace, ← htail, List.drop_left]
      cases hq : quotedLength? tail with
      | none => exact hpass
      | some n =>
        obtain ⟨value, after, rfl, rfl, hquoted⟩ := quoted_of_quotedLength? hq
        dsimp only
        by_cases hinside : endsInsideTag ((attributeToken name).length + value.length)
            (attributeToken name ++ (value ++ after)) = true
        · rw [if_pos hinside]
          rw [← List.append_assoc, ← List.length_append] at hinside
          obtain ⟨hplain, inner, rest, rfl, hinner⟩ := unbracketed_of_endsInsideTag hinside
          obtain ⟨before, blanks, hbehind, hdeleted, hunspaced, hblank⟩ := exists_blanks_behind hspace
          have hcut : OfAttribute names ⟨before, blanks ++ (attributeToken name ++ value),
              inner ++ '>'.toUInt8 :: rest⟩ :=
            .inTag known hunspaced hblank hquoted hplain.of_append hinner
          refine .single ?_ ?_ rfl hcut
          · rw [← hhere, Cursor.text, hbehind, ← htail]
            simp [Cut.whole]
          · rw [Cursor.text, Cursor.behind_delete, hdeleted, Cursor.ahead_delete,
              Cursor.ahead_deleteSpaceBehind, ← htail, ← List.drop_drop, List.drop_left,
              List.drop_left]
            rfl
        · rw [if_neg hinside]
          exact hpass
    · rw [if_neg hspace]
      exact hpass

/-! ## Bare tags -/

/-- A tag ends behind blanks. -/
theorem exists_eq_of_tagEnd? {text : Bytes} {m : Nat} (h : tagEnd? text = some m) :
    ∃ blanks ending after, text = blanks ++ (ending ++ after) ∧ (blanks ++ ending).length = m ∧
      Blank.AllBlank blanks ∧ (ending = Bytes.ofString ">" ∨ ending = Bytes.ofString "/>") := by
  have hsplit := List.take_append_drop (Blank.leading text) text
  have hblank := Blank.allBlank_take_leading text
  have hle : Blank.leading text ≤ text.length := Blank.leading_le_length text
  have hlen : (text.take (Blank.leading text)).length = Blank.leading text := by
    rw [List.length_take]
    omega
  have htwo : (Bytes.ofString "/>").length = 2 := by decide
  have hone : (Bytes.ofString ">").length = 1 := by decide
  unfold tagEnd? Bytes.opensWith at h
  dsimp only at h
  split at h
  · next hends =>
    obtain ⟨after, hafter⟩ := List.isPrefixOf_iff_prefix.1 hends
    rw [Option.some.injEq] at h
    exact ⟨_, Bytes.ofString "/>", after, by rw [hafter, hsplit],
      by rw [List.length_append, hlen, htwo, h], hblank, Or.inr rfl⟩
  · split at h
    · next hends =>
      obtain ⟨after, hafter⟩ := List.isPrefixOf_iff_prefix.1 hends
      rw [Option.some.injEq] at h
      exact ⟨_, Bytes.ofString ">", after, by rw [hafter, hsplit],
        by rw [List.length_append, hlen, hone, h], hblank, Or.inl rfl⟩
    · simp at h

/-- A tag that holds nothing but an attribute goes as a whole. -/
theorem bareTagStep_deletes {names : List String} {name : String} (known : name ∈ names)
    (s : Sweep) : (bareTagStep name s).Leads (Deletes (OfAttribute names) s) := by
  unfold bareTagStep
  dsimp only
  rw [List.cons_append, ← attributeToken]
  cases hi : Bytes.indexOf? ('<'.toUInt8 :: attributeToken name) s.cursor.ahead with
  | none => exact .same rfl rfl
  | some i =>
    have hpass : Deletes (OfAttribute names) s
        (s.advance (i + ('<'.toUInt8 :: attributeToken name).length)) :=
      .same (Cursor.text_advance _ _) rfl
    obtain ⟨tail, htail⟩ := (Bytes.indexOf?_eq_some_iff.1 hi).1
    have hhere : (s.cursor.advance i).text = s.cursor.text := Cursor.text_advance _ _
    rw [← Cursor.ahead_advance] at htail
    dsimp only
    generalize s.cursor.advance i = here at htail hhere ⊢
    rw [← htail, List.drop_left]
    cases hq : quotedLength? tail with
    | none => exact hpass
    | some n =>
      obtain ⟨value, behind, rfl, rfl, hquoted⟩ := quoted_of_quotedLength? hq
      dsimp only
      rw [← List.drop_drop, List.drop_left, List.drop_left]
      cases hm : tagEnd? behind with
      | none => exact hpass
      | some m =>
        obtain ⟨blanks, ending, after, rfl, rfl, hblank, hends⟩ := exists_eq_of_tagEnd? hm
        have hcut : OfAttribute names ⟨here.behind.reverse,
            '<'.toUInt8 :: (attributeToken name ++ value ++ blanks ++ ending), after⟩ :=
          .bareTag known hquoted hblank hends
        refine .delete hhere ?_ ?_ hcut
        · rw [← htail]
          simp
        · simp
          omega

/-- The attribute pass deletes as many attributes as it counts. -/
theorem foldl_sweepAttribute_cuts (names : List String) (text : Bytes) :
    Deletes (OfAttribute names) (Sweep.ofText text)
      (names.foldl sweepAttribute (Sweep.ofText text)) := by
  refine Deletes.foldl (fun name hname s => ?_) (Sweep.ofText text)
  have hattributes : Deletes (OfAttribute names) s ((attributeScan name).run s.rewind) :=
    .of_rewind (.of_scan (attributeScan name) (attributeStep_deletes hname) s.rewind)
  exact hattributes.trans
    (.of_rewind (.of_scan (bareTagScan name) (bareTagStep_deletes hname) _))

/-! ## Properties -/

/-- Erasing a pattern is cutting it out, one place after the other. -/
theorem eraseAll_cuts {pattern : Bytes} (hne : pattern ≠ []) (text front : Bytes) :
    ∃ cuts, Cutting (front ++ text) cuts (front ++ (Bytes.eraseAll pattern text).2) ∧
      (Bytes.eraseAll pattern text).1 = cuts.length ∧ ∀ c ∈ cuts, c.removed = pattern := by
  induction hn : text.length using Nat.strongRecOn generalizing text front with
  | ind n ih =>
    cases text with
    | nil => exact ⟨[], by rw [Bytes.eraseAll]; exact .nil, by rw [Bytes.eraseAll]; rfl, by simp⟩
    | cons b rest =>
      rw [List.length_cons] at hn
      rw [Bytes.eraseAll]
      split
      · next hpre =>
        obtain ⟨after, hafter⟩ := List.isPrefixOf_iff_prefix.1 hpre
        have hdrop := Bytes.drop_of_pattern hne hafter
        have hlen : after.length < n := by
          rw [← hdrop, List.length_drop]
          omega
        obtain ⟨cuts, hcuts, hcount, hall⟩ := ih _ hlen after front rfl
        refine ⟨⟨front, pattern, after⟩ :: cuts, ?_, ?_, ?_⟩
        · have hwhole : front ++ b :: rest = Cut.whole ⟨front, pattern, after⟩ := by
            rw [← hafter, Cut.whole, List.append_assoc]
          rw [hwhole, hdrop]
          exact .cons hcuts
        · rw [hdrop, List.length_cons, ← hcount]
        · simpa using hall
      · obtain ⟨cuts, hcuts, hcount, hall⟩ := ih _ (by omega) rest (front ++ [b]) rfl
        exact ⟨cuts, by simpa using hcuts, hcount, hall⟩

/-- A pass with one form erased. -/
def Pass.erase (pass : Pass) (form : String) : Pass :=
  { pass with
    text := (Bytes.eraseAll (Bytes.ofString form) pass.text).2
    collapsed := pass.collapsed + (Bytes.eraseAll (Bytes.ofString form) pass.text).1 }

theorem foldl_erase_cuts {forms : List String} (hforms : ∀ form ∈ forms, form ∈ emptyForms)
    (pass : Pass) : ∃ cuts, Cutting pass.text cuts (forms.foldl Pass.erase pass).text ∧
      (forms.foldl Pass.erase pass).collapsed = pass.collapsed + cuts.length ∧
      ∀ c ∈ cuts, OfProperty c := by
  have hne : ∀ form ∈ emptyForms, Bytes.ofString form ≠ [] := by decide
  induction forms generalizing pass with
  | nil => exact ⟨[], .nil, rfl, by simp⟩
  | cons form forms ih =>
    rw [List.forall_mem_cons] at hforms
    obtain ⟨cs, hcs, hcount, hall⟩ := eraseAll_cuts (hne form hforms.1) pass.text []
    obtain ⟨ds, hds, hcount', hall'⟩ := ih hforms.2 (pass.erase form)
    refine ⟨cs ++ ds, hcs.append hds, ?_, ?_⟩
    · rw [List.foldl_cons, hcount', List.length_append, ← hcount, ← Nat.add_assoc]
      rfl
    · intro c hc
      rcases List.mem_append.1 hc with hc | hc
      · exact ⟨form, hforms.1, hall c hc⟩
      · exact hall' c hc

/-- Empty properties are deleted form by form. -/
theorem removeEmptyProperties_cuts (text : Bytes) : ∃ cuts,
    Cutting text cuts (removeEmptyProperties text).text ∧
      (removeEmptyProperties text).collapsed = cuts.length ∧ ∀ c ∈ cuts, OfProperty c := by
  obtain ⟨cuts, hcuts, hcount, hall⟩ := foldl_erase_cuts (fun _ h => h) { text }
  exact ⟨cuts, hcuts, hcount.trans (Nat.zero_add _), hall⟩

/-- The attribute pass deletes attributes and then, if there were any, empty properties. -/
theorem removeAttributes_cuts (names : List String) (text : Bytes) : ∃ attributes properties,
    Cutting text (attributes ++ properties) (removeAttributes names text).text ∧
      (removeAttributes names text).count = attributes.length ∧
      (removeAttributes names text).collapsed = properties.length ∧
      (∀ c ∈ attributes, OfAttribute names c) ∧ ∀ c ∈ properties, OfProperty c := by
  obtain ⟨cuts, hcuts, hcount, hall⟩ := foldl_sweepAttribute_cuts names text
  have hcount : (names.foldl sweepAttribute (Sweep.ofText text)).toPass.count = cuts.length :=
    hcount.trans (Nat.zero_add _)
  unfold removeAttributes
  dsimp only
  by_cases hnone : (names.foldl sweepAttribute (Sweep.ofText text)).toPass.count = 0
  · rw [if_pos hnone]
    exact ⟨cuts, [], by rw [List.append_nil]; exact hcuts, hcount, rfl, hall, by simp⟩
  · rw [if_neg hnone]
    obtain ⟨ds, hds, hcount', hall'⟩ := removeEmptyProperties_cuts
      (names.foldl sweepAttribute (Sweep.ofText text)).toPass.text
    exact ⟨cuts, ds, hcuts.append hds, hcount, hcount', hall, hall'⟩

/-- Where markers but no attributes were removed, empty properties are deleted after all. -/
theorem propertiesAfterMarkers_cuts (tags attributes : Pass) : ∃ cuts,
    Cutting attributes.text cuts (propertiesAfterMarkers tags attributes).text ∧
      (propertiesAfterMarkers tags attributes).collapsed = cuts.length ∧
      ∀ c ∈ cuts, OfProperty c := by
  unfold propertiesAfterMarkers
  split
  · exact removeEmptyProperties_cuts _
  · exact ⟨[], .nil, rfl, by simp⟩

/-! ## Joins -/

/-- Everywhere in the run pass the cursor stands behind a run start, or at the start. -/
theorem standing_of_mem_trace {s t : RunSweep} (hs : Standing s) (ht : t ∈ runScan.trace s) :
    Standing t := by
  induction s using Scan.backward_induction runScan with
  | more s s' hnext ih =>
    rw [Scan.trace_of_more hnext] at ht
    rcases List.mem_cons.1 ht with rfl | ht
    · exact hs
    · exact ih (hs.step (runStep_of_next hnext)) ht
  | done s r hnext =>
    rw [Scan.trace_of_done hnext, List.mem_singleton] at ht
    exact ht ▸ hs

/-- Behind the second `<w:t` of a join its attributes begin with a blank, or the tag ends. -/
theorem head?_attributes {ahead attributes : Bytes} {run : OpenRun} {c : Cut} {e : Nat}
    (hopen : openRun? ahead = some run) (hjoin : JoinsAt ahead run.textAt e)
    (hbefore : c.before = ahead.take e) (hwhole : c.whole = ahead)
    (hremoved : c.removed = run.joint ++ attributes ++ ['>'.toUInt8])
    (hplain : '>'.toUInt8 ∉ attributes) : ∀ b, attributes.head? = some b → b = ' '.toUInt8 := by
  have hbehind : ahead.drop e = c.removed ++ c.after := by
    have hsplit := List.take_append_drop e ahead
    rw [← hbefore] at hsplit
    refine List.append_cancel_left (?_ : c.before ++ _ = c.before ++ _)
    rw [hsplit, ← List.append_assoc]
    exact hwhole.symm
  obtain ⟨b, rest, hnext, hb, -⟩ := hjoin.next
  rw [hbehind, hremoved, jointAt_textAt hopen, List.append_assoc, List.append_assoc] at hnext
  have hnext := List.append_cancel_left hnext
  intro a ha
  cases attributes with
  | nil => simp at ha
  | cons a' attributes =>
    rw [List.head?_cons, Option.some.injEq] at ha
    rw [List.cons_append, List.cons.injEq] at hnext
    rw [List.mem_cons, not_or] at hplain
    simp only [opensOrEnds, Bool.or_eq_true, beq_iff_eq] at hb
    rcases hb with hb | hb
    · rw [← ha, hnext.1, hb]
      rfl
    · exact absurd (hnext.1.trans hb).symm hplain.1

/-- A cut made inside a run joins it with the next one. -/
theorem ofRunJoin_of_cut? {s : RunSweep} {run : OpenRun} {c : Cut} (hs : Standing s)
    (inside : s.current? = some run) (made : run.cut? s.cursor.ahead = some c) :
    OfRunJoin (c.behind s.before) := by
  obtain ⟨hopen, ⟨front, hfront⟩, b, hb, hends⟩ := hs.inside_run inside
  obtain ⟨e, hjoin, hbefore, hwhole, attributes, hremoved, hplain⟩ := joinsAt_of_cut? hopen made
  obtain ⟨-, -, hopening⟩ := openRun?_eq_some_iff.1 hopen
  refine ⟨run.opening, attributes, ?_, ?_, textStart_suffix_opening hopen, hplain,
    head?_attributes hopen hjoin hbefore hwhole hremoved hplain, front,
    (s.cursor.ahead.take e).drop (run.textAt + 4), ?_⟩
  · change c.removed = _
    rw [hremoved]
    simp [OpenRun.joint]
  · rw [hopening]
    refine StartsToken.append_iff.2 ⟨b, ?_, hends⟩
    rw [length_textStart, List.head?_take, if_neg (by omega), hb]
  · rw [← before_of_joinsAt hfront hopen hjoin, ← hbefore]
    rfl

/-- The cuts of the run pass have the shape of a join. -/
theorem ofRunJoin_of_mem_joinCuts {text : Bytes} {c : Cut} (hc : c ∈ joinCuts text) :
    OfRunJoin c := by
  obtain ⟨s, hs, hcut⟩ := List.mem_filterMap.1 hc
  obtain ⟨run, inside, hmade⟩ := Option.bind_eq_some_iff.1 hcut
  obtain ⟨c', made, rfl⟩ := Option.map_eq_some_iff.1 hmade
  exact ofRunJoin_of_cut? (standing_of_mem_trace (standing_start text) hs) inside made

/-- The run pass, if it is asked for, cuts once for each join. -/
theorem joinIfAsked_cuts (rules : Rules) (text : Bytes) : ∃ cuts,
    Cutting text cuts (joinIfAsked rules text).text ∧
      (joinIfAsked rules text).count = cuts.length ∧ ∀ c ∈ cuts, OfRunJoin c := by
  unfold joinIfAsked
  split
  · obtain ⟨hcuts, hcount, -⟩ := cutting_joinCuts text
    exact ⟨joinCuts text, hcuts, hcount, fun c hc => ofRunJoin_of_mem_joinCuts hc⟩
  · exact ⟨[], .nil, rfl, by simp⟩

/-! ## All passes -/

theorem OfMarker.removed_ne_nil {names : List String} {c : Cut} (h : OfMarker names c) :
    c.removed ≠ [] := by
  obtain ⟨name, -, attributes, -, -, ⟨-, hremoved⟩ | hremoved⟩ := h
  · rw [hremoved]
    exact List.cons_ne_nil _ _
  · rw [hremoved]
    exact List.cons_ne_nil _ _

theorem OfAttribute.removed_ne_nil {names : List String} {c : Cut} (h : OfAttribute names c) :
    c.removed ≠ [] := by
  cases h with
  | inTag known unspaced blank quoted plain inside =>
    exact fun hnil => blank.1 (List.append_eq_nil_iff.1 hnil).1
  | bareTag known quoted blank ends => exact List.cons_ne_nil _ _

theorem OfProperty.removed_ne_nil {c : Cut} (h : OfProperty c) : c.removed ≠ [] := by
  have hforms : ∀ form ∈ emptyForms, Bytes.ofString form ≠ [] := by decide
  obtain ⟨form, hform, hremoved⟩ := h
  rw [hremoved]
  exact hforms form hform

theorem OfRunJoin.removed_ne_nil {c : Cut} (h : OfRunJoin c) : c.removed ≠ [] := by
  obtain ⟨opening, attributes, hremoved, -⟩ := h.removed
  rw [hremoved]
  exact fun hnil => absurd (List.append_eq_nil_iff.1 hnil).2 (List.cons_ne_nil _ _)

/-- The cuts that lead from a text to the one of a report, kind after kind. They have the shapes
    that the rules allow, and the report counts them. -/
structure Accounts (rules : Rules) (text : Bytes) (report : Report)
    (markers attributes properties joins : List Cut) : Prop where
  cutting : Cutting text (markers ++ attributes ++ properties ++ joins) report.text
  markers_eq : report.markers = markers.length
  attributes_eq : report.attributes = attributes.length
  properties_eq : report.properties = properties.length
  joins_eq : report.joins = joins.length
  ofMarker : ∀ c ∈ markers, OfMarker rules.tags c
  ofAttribute : ∀ c ∈ attributes, OfAttribute rules.attributes c
  ofProperty : ∀ c ∈ properties, OfProperty c
  ofRunJoin : ∀ c ∈ joins, OfRunJoin c

/-- Each cut takes something out, so a report that counts one has a shorter text. -/
theorem Accounts.changed_iff {rules : Rules} {text : Bytes} {report : Report}
    {markers attributes properties joins : List Cut}
    (h : Accounts rules text report markers attributes properties joins) :
    report.changed = true ↔ report.text ≠ text := by
  have hcuts : ∀ c ∈ markers ++ attributes ++ properties ++ joins, c.removed ≠ [] := by
    intro c hc
    rw [List.mem_append, List.mem_append, List.mem_append] at hc
    rcases hc with ((hc | hc) | hc) | hc
    · exact (h.ofMarker c hc).removed_ne_nil
    · exact (h.ofAttribute c hc).removed_ne_nil
    · exact (h.ofProperty c hc).removed_ne_nil
    · exact (h.ofRunJoin c hc).removed_ne_nil
  have hshorter := h.cutting.length_le hcuts
  have hchanged : report.changed = true ↔
      0 < (markers ++ attributes ++ properties ++ joins).length := by
    rw [Report.changed, decide_eq_true_eq, h.markers_eq, h.attributes_eq, h.properties_eq,
      h.joins_eq]
    simp only [List.length_append, gt_iff_lt]
  rw [hchanged]
  constructor
  · intro hpos heq
    rw [heq] at hshorter
    omega
  · intro hne
    rw [List.length_pos_iff]
    intro hnil
    have hcutting := h.cutting
    rw [hnil] at hcutting
    exact hne hcutting.eq_of_nil

/-- The cuts of all passes, one pass after the other. -/
theorem exists_accounts_sanitize {rules : Rules} (plain : ∀ tag ∈ rules.tags, PlainName tag)
    (text : Bytes) : ∃ markers attributes properties joins,
    Accounts rules text (sanitize rules text) markers attributes properties joins := by
  obtain ⟨markers, hmarkers, hmarkersCount, hmarkersShape⟩ := removeMarkers_cuts plain text
  obtain ⟨attributes, first, hattributes, hattributesCount, hfirstCount, hattributesShape,
    hfirstShape⟩ := removeAttributes_cuts rules.attributes (removeMarkers rules.tags text).text
  obtain ⟨second, hsecond, hsecondCount, hsecondShape⟩ := propertiesAfterMarkers_cuts
    (removeMarkers rules.tags text)
    (removeAttributes rules.attributes (removeMarkers rules.tags text).text)
  obtain ⟨joins, hjoins, hjoinsCount, hjoinsShape⟩ := joinIfAsked_cuts rules
    (propertiesAfterMarkers (removeMarkers rules.tags text)
      (removeAttributes rules.attributes (removeMarkers rules.tags text).text)).text
  have hchain := ((hmarkers.append hattributes).append hsecond).append hjoins
  rw [← List.append_assoc markers, List.append_assoc (markers ++ attributes)] at hchain
  refine ⟨markers, attributes, first ++ second, joins, hchain, hmarkersCount, hattributesCount,
    ?_, hjoinsCount, hmarkersShape, hattributesShape, ?_, hjoinsShape⟩
  · -- Properties are collapsed in the attribute pass or after it.
    rw [List.length_append, ← hfirstCount, ← hsecondCount]
    rfl
  · intro c hc
    rcases List.mem_append.1 hc with hc | hc
    · exact hfirstShape c hc
    · exact hsecondShape c hc

/-- Sanitizing takes spans of its four shapes out of a text, kind after kind, and the counters
    of its report are their numbers. So it has changed the text exactly if it says so. -/
theorem sanitize_deletes_shapes (rules : Rules) (plain : ∀ tag ∈ rules.tags, PlainName tag)
    (text : Bytes) :
    (∃ markers attributes properties joins,
      Accounts rules text (sanitize rules text) markers attributes properties joins) ∧
      ((sanitize rules text).changed = true ↔ (sanitize rules text).text ≠ text) := by
  obtain ⟨markers, attributes, properties, joins, h⟩ := exists_accounts_sanitize plain text
  exact ⟨⟨markers, attributes, properties, joins, h⟩, h.changed_iff⟩

/-- The names that are removed by default are plain. -/
theorem sanitize_deletes_shapes_default :
    let text := Bytes.ofString
      "<w:p><w:proofErr w:type=\"spellStart\"/><w:r w:rsidR=\"00AB12\"><w:t>a</w:t></w:r></w:p>"
    (∀ tag ∈ ({} : Rules).tags, PlainName tag) ∧
    (∃ markers attributes properties joins,
      Accounts {} text (sanitize {} text) markers attributes properties joins) ∧
    ((sanitize {} text).changed = true ↔ (sanitize {} text).text ≠ text) :=
  ⟨by decide +kernel, sanitize_deletes_shapes {} (by decide +kernel) _⟩

end Sanitize

end DocxTemplate
