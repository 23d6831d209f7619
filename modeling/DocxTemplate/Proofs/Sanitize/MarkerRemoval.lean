import DocxTemplate.Proofs.Sanitize.Lexemes

/-! # Markers among lexemes

    The marker pass searches bytes, and deletes under its own cursor. On the text of a document
    it does what one reading of the lexemes from left to right does:

    * `Clearing`: the lexemes such a reading has kept so far, what it has removed and
      reported.
    * `Clearing.clear`: the reading for one name, lexeme by lexeme.
    * `toPass_run_skip`: the byte search may start behind a stretch in which no token stands.
    * `toPass_run_sweep`: from the border of two lexemes on, the byte search for a name
      ends as the reading does.
    * `removeMarkers_serialize`: so do all searches, one name after the other.
-/

namespace DocxTemplate.Sanitize

/-! ## Reading lexemes -/

/-- A reading of a document at work: the lexemes it has kept, how many elements it has removed,
    and what it has reported. -/
structure Clearing where
  kept : List Lexeme
  count : Nat := 0
  warnings : List Warning := []
  deriving DecidableEq, Repr

namespace Clearing

/-- Keeps the next lexeme. -/
def keep (c : Clearing) (l : Lexeme) : Clearing := { c with kept := c.kept ++ [l] }

/-- Removes the next element. -/
def drop (c : Clearing) : Clearing := { c with count := c.count + 1 }

/-- Reports that the next lexeme starts an element that holds something. -/
def report (c : Clearing) (name : String) : Clearing :=
  { c with warnings := c.warnings ++
      [.nonEmptyTag (tokenOf name) (serialize c.kept).length] }

/-- Reads lexemes from left to right. An empty tag with the name goes, and so does a start tag with
    the name if its end tag follows at once. Any other start tag with the name stays and is
    reported once. Every other lexeme stays. -/
def clear (name : String) (c : Clearing) : List Lexeme → Clearing
  | [] => c
  | .empty key attributes :: rest =>
    if key = Bytes.ofString name then c.drop.clear name rest
    else (c.keep (.empty key attributes)).clear name rest
  | .start key attributes :: rest =>
    if key = Bytes.ofString name then
      if rest.head? = some (.close key) then c.drop.clear name rest.tail
      else ((c.report name).keep (.start key attributes)).clear name rest
    else (c.keep (.start key attributes)).clear name rest
  | .close key :: rest => (c.keep (.close key)).clear name rest
  | .text data :: rest => (c.keep (.text data)).clear name rest
termination_by doc => doc.length
decreasing_by all_goals simp only [List.length_cons, List.length_tail]; omega

/-- Reads what the readings before have kept once more, for a further name. -/
def pass (c : Clearing) (name : String) : Clearing := { c with kept := [] }.clear name c.kept

/-- What a reading has done, as the result of a pass over the text. -/
def toPass (c : Clearing) : Pass :=
  { text := serialize c.kept, count := c.count, warnings := c.warnings }

/-- The sweep over the text that stands where a reading stands, with `rest` ahead. -/
def sweep (c : Clearing) (rest : List Lexeme) : Sweep where
  cursor := ⟨(serialize c.kept).reverse, serialize rest⟩
  count := c.count
  warnings := c.warnings

theorem sweep_advance (c : Clearing) (l : Lexeme) (rest : List Lexeme) :
    (c.sweep (l :: rest)).advance l.written.length = (c.keep l).sweep rest := by
  simp only [sweep, keep, Sweep.advance, Cursor.advance, serialize_append, serialize_cons,
    serialize_nil, List.append_nil, List.reverse_append, List.take_left, List.drop_left]

/-- A reading starts again where a sweep goes back to the start. -/
theorem rewind_eq_sweep {c : Clearing} {s : Sweep} (h : s.toPass = c.toPass) :
    s.rewind = ({ c with kept := [] } : Clearing).sweep c.kept := by
  obtain ⟨cursor, count, warnings⟩ := s
  simp only [Sweep.toPass, toPass, Pass.mk.injEq, true_and] at h
  obtain ⟨htext, rfl, rfl⟩ := h
  simp only [Sweep.rewind, sweep, Cursor.ofText, htext, serialize_nil, List.reverse_nil]

end Clearing

/-! ## Searching bytes -/

/-- The byte search may start behind a stretch in which no token stands. -/
theorem toPass_run_skip {token : String} (hd : Distinct (Bytes.ofString token)) {x rest : Bytes}
    (hclear : Clear (StartsToken (Bytes.ofString token)) x rest) (s : Sweep)
    (hahead : s.cursor.ahead = x ++ rest) :
    ((markerScan token).run s).toPass = ((markerScan token).run (s.advance x.length)).toPass := by
  have hbehind : (s.cursor.advance x.length).ahead = rest := by
    rw [Cursor.ahead_advance, hahead, List.drop_left]
  cases hi : tokenIndex? (Bytes.ofString token) rest with
  | none =>
    have hnone : tokenIndex? (Bytes.ofString token) (x ++ rest) = none := by
      rw [tokenIndex?_eq_none_iff hd] at hi ⊢
      exact hclear.none_append hi
    have hs : (markerScan token).next s = .done s := by
      simp only [markerScan, markerStep, hahead, hnone]
    have ht : (markerScan token).next (s.advance x.length) = .done (s.advance x.length) := by
      simp only [markerScan, markerStep, Sweep.cursor_advance, hbehind, hi]
    rw [Scan.run_of_done hs, Scan.run_of_done ht]
    simp only [Sweep.toPass, Sweep.advance, Cursor.text_advance]
  | some i =>
    have hsome : tokenIndex? (Bytes.ofString token) (x ++ rest) = some (x.length + i) := by
      rw [tokenIndex?_eq_some_iff hd] at hi ⊢
      exact hi.append_front hclear
    have hhere : (s.cursor.advance x.length).advance i = s.cursor.advance (x.length + i) :=
      Cursor.advance_advance _ _ _
    cases hg : Bytes.indexOf? ['>'.toUInt8] (s.cursor.advance (x.length + i)).ahead with
    | none =>
      have hs : (markerScan token).next s = .done (s.warn (.unclosedTag token
          (s.cursor.advance (x.length + i)).offset)) := by
        simp only [markerScan, markerStep, hahead, hsome, hg]
      have ht : (markerScan token).next (s.advance x.length) = .done ((s.advance x.length).warn
          (.unclosedTag token (s.cursor.advance (x.length + i)).offset)) := by
        simp only [markerScan, markerStep, Sweep.cursor_advance, hbehind, hi, hhere, hg]
      rw [Scan.run_of_done hs, Scan.run_of_done ht]
      simp only [Sweep.toPass, Sweep.advance, Sweep.warn, Cursor.text_advance]
    | some g =>
      -- Both searches find the same tag, and do the same with it.
      have hsame : (markerScan token).next s = (markerScan token).next (s.advance x.length) := by
        simp only [markerScan, markerStep, Sweep.cursor_advance, hahead, hsome, hbehind, hi, hhere,
          hg]
        simp only [Sweep.advance, Sweep.warn, Cursor.advance_advance, Nat.add_assoc]
      rw [Scan.run_eq_of_next_eq hsame]

/-- A start tag behind which its end tag does not follow at once is reported and passed. -/
theorem markerStep_start {token : String} {s : Sweep} {inner rest : Bytes}
    (hd : Distinct (Bytes.ofString token)) (hahead : s.cursor.ahead = tag inner ++ rest)
    (starts : StartsToken (Bytes.ofString token) (tag inner ++ rest)) (hgt : '>'.toUInt8 ∉ inner)
    (hslash : ('<'.toUInt8 :: inner).getLast? ≠ some '/'.toUInt8)
    (hother : ¬ endTag token <+: rest) :
    markerStep token s = .more
      ((s.warn (.nonEmptyTag token s.cursor.offset)).advance (tag inner).length) := by
  have hindex : tokenIndex? (Bytes.ofString token) s.cursor.ahead = some 0 := by
    rw [hahead, tokenIndex?_eq_some_iff hd]
    exact ⟨starts, fun j hj => absurd hj (Nat.not_lt_zero j)⟩
  have hhere : s.cursor.advance 0 = s.cursor := rfl
  have hgt' : '>'.toUInt8 ∉ '<'.toUInt8 :: inner := by
    rw [List.mem_cons, not_or]
    exact ⟨by decide, hgt⟩
  have htag : tag inner ++ rest = ('<'.toUInt8 :: inner) ++ '>'.toUInt8 :: rest := by
    simp only [tag, List.cons_append, List.append_assoc, List.nil_append]
  have hg : Bytes.indexOf? ['>'.toUInt8] s.cursor.ahead = some ('<'.toUInt8 :: inner).length := by
    rw [hahead, htag]
    exact Bytes.indexOf?_singleton_append hgt'
  have hlength : (tag inner).length = 0 + (('<'.toUInt8 :: inner).length + 1) := by
    simp only [tag, List.length_cons, List.length_append, List.length_nil, Nat.zero_add]
  have hbehind : s.cursor.ahead.drop (('<'.toUInt8 :: inner).length + 1) = rest := by
    rw [hahead, htag, ← List.drop_drop, List.drop_left, List.drop_one, List.tail_cons]
  unfold markerStep
  rw [hindex]
  dsimp only
  rw [hhere, hg]
  dsimp only
  rw [hbehind, if_neg, if_neg, hlength]
  · rwa [List.isPrefixOf_iff_prefix]
  · rw [hahead, htag, List.take_left, beq_iff_eq]
    exact hslash

/-! ## Lexeme by lexeme -/

section

variable {name : String}

theorem endTag_tokenOf (plain : PlainName name) :
    endTag (tokenOf name) = (Lexeme.close (Bytes.ofString name)).written := by
  rw [endTag, tokenOf_plain plain, List.drop_one, List.tail_cons]
  rfl

theorem distinct_tokenOf_plain (plain : PlainName name) :
    Distinct (Bytes.ofString (tokenOf name)) :=
  ⟨_, _, tokenOf_plain plain, plain.isWord.unbracketed.1⟩

/-- A tag whose inside begins with the slash of an end tag has no name. -/
theorem eq_nil_of_slash {word more key : Bytes} (h : IsWord word)
    (heq : '/'.toUInt8 :: key = word ++ more) : more = '/'.toUInt8 :: key := by
  cases word with
  | nil => exact heq.symm
  | cons b word =>
    rw [List.cons_append, List.cons.injEq] at heq
    have hslash : '/'.toUInt8 ∉ b :: word := h.not_mem (Or.inl (by decide))
    rw [heq.1] at hslash
    exact absurd List.mem_cons_self hslash

/-- The text of some lexemes starts with an end tag exactly if this is the first of them. -/
theorem close_prefix_serialize_iff {key : Bytes} (hkey : IsWord key) (hne : key ≠ [])
    {rest : List Lexeme} (hrest : ∀ l ∈ rest, l.Plain) :
    (Lexeme.close key).written <+: serialize rest ↔ rest.head? = some (.close key) := by
  have hslash : Unbracketed ['/'.toUInt8] := by decide
  have hgt : '>'.toUInt8 ∉ '/'.toUInt8 :: key := (hslash.append hkey.unbracketed).2
  cases rest with
  | nil => simp [Lexeme.written, tag]
  | cons l rest =>
    rw [List.forall_mem_cons] at hrest
    obtain ⟨hl, -⟩ := hrest
    have hclose : (Lexeme.close key).written = tag ('/'.toUInt8 :: key) ++ [] :=
      (List.append_nil _).symm
    rw [List.head?_cons, Option.some.injEq, serialize_cons, hclose]
    cases l with
    | start name attributes =>
      have hinner := hl.1.unbracketed.append (Attribute.unbracketed_flatMap_written hl.2)
      rw [Lexeme.written, tag_append_prefix_iff hgt hinner.2]
      simp only [reduceCtorEq, iff_false]
      intro h
      have hflat := eq_nil_of_slash hl.1 h.1
      -- Behind the name stands an attribute with its space, or nothing.
      cases attributes with
      | nil => simp at hflat
      | cons a attributes =>
        rw [List.flatMap_cons, Attribute.written, List.cons_append, List.cons.injEq] at hflat
        exact absurd hflat.1 (by decide)
    | empty name attributes =>
      have hflat := Attribute.unbracketed_flatMap_written hl.2
      have hinner := hl.1.unbracketed.append (hflat.append hslash)
      rw [Lexeme.written, tag_append_prefix_iff hgt hinner.2]
      simp only [reduceCtorEq, iff_false]
      intro h
      have hflat := eq_nil_of_slash hl.1 h.1
      cases attributes with
      | nil => exact hne (List.cons.inj hflat).2.symm
      | cons a attributes =>
        rw [List.flatMap_cons, Attribute.written, List.cons_append, List.cons_append,
          List.cons.injEq] at hflat
        exact absurd hflat.1 (by decide)
    | close name =>
      have hinner : Unbracketed ('/'.toUInt8 :: name) := hslash.append hl.unbracketed
      rw [Lexeme.written, tag_append_prefix_iff hgt hinner.2]
      simp only [List.nil_prefix, and_true, List.cons.injEq, true_and, Lexeme.close.injEq]
      exact eq_comm
    | text data =>
      simp only [reduceCtorEq, iff_false]
      -- A text is not empty, and its first byte is no `<`.
      have hclear : Clear (tag ('/'.toUInt8 :: key) ++ [] <+: ·) data (serialize rest) :=
        clear_data (atTags_pattern _) hl.2.1
      exact hclear 0 (List.length_pos_iff.2 hl.1)

/-- A start tag is not written as an empty tag. -/
theorem getLast?_start {key : Bytes} {attributes : List Attribute} (hkey : IsWord key) :
    ('<'.toUInt8 :: (key ++ attributes.flatMap Attribute.written)).getLast? ≠
      some '/'.toUInt8 := by
  intro hlast
  have hslash : '/'.toUInt8 ∉ '<'.toUInt8 :: key := by
    rw [List.mem_cons, not_or]
    exact ⟨by decide, hkey.not_mem (Or.inl (by decide))⟩
  rcases List.eq_nil_or_concat attributes with rfl | ⟨attributes, a, rfl⟩
  · rw [List.flatMap_nil, List.append_nil] at hlast
    exact hslash (List.mem_of_getLast? hlast)
  · -- The last byte is the closing quote of the last attribute.
    rw [List.concat_eq_append, List.flatMap_append, List.flatMap_singleton, ← List.append_assoc,
      ← List.cons_append,
      List.getLast?_append, Attribute.getLast?_written, Option.some_or, Option.some.injEq] at hlast
    exact absurd hlast (by decide)

/-- The elements that a reading removes hold nothing. -/
theorem isEmptyElement_empty (plain : PlainName name) {attributes : List Attribute}
    (hattributes : ∀ a ∈ attributes, a.Plain) : IsEmptyElement (tokenOf name)
      (Lexeme.empty (Bytes.ofString name) attributes).written := by
  have hflat := Attribute.unbracketed_flatMap_written hattributes
  have hslash : Unbracketed ['/'.toUInt8] := by decide
  have hinner := plain.isWord.unbracketed.append (hflat.append hslash)
  refine ⟨'<'.toUInt8 :: (Bytes.ofString name ++
    (attributes.flatMap Attribute.written ++ ['/'.toUInt8])), ?_, Or.inl ⟨?_, rfl⟩⟩
  · rw [List.mem_cons, not_or]
    exact ⟨by decide, hinner.2⟩
  · rw [← List.append_assoc, ← List.cons_append, List.getLast?_concat]

theorem isEmptyElement_start (plain : PlainName name) {attributes : List Attribute}
    (hattributes : ∀ a ∈ attributes, a.Plain) : IsEmptyElement (tokenOf name)
      ((Lexeme.start (Bytes.ofString name) attributes).written ++
        (Lexeme.close (Bytes.ofString name)).written) := by
  have hinner := plain.isWord.unbracketed.append
    (Attribute.unbracketed_flatMap_written hattributes)
  refine ⟨'<'.toUInt8 :: (Bytes.ofString name ++ attributes.flatMap Attribute.written), ?_,
    Or.inr ⟨getLast?_start plain.isWord, ?_⟩⟩
  · rw [List.mem_cons, not_or]
    exact ⟨by decide, hinner.2⟩
  · rw [endTag_tokenOf plain]
    simp only [Lexeme.written, tag, List.cons_append, List.append_assoc, List.nil_append]

/-- The search may start behind a lexeme that is not to be removed. -/
theorem toPass_run_unmarked (plain : PlainName name) (c : Clearing) {l : Lexeme} (hl : l.Plain)
    (hother : ¬ l.Opens (Bytes.ofString name)) (rest : List Lexeme) :
    ((markerScan (tokenOf name)).run (c.sweep (l :: rest))).toPass =
      ((markerScan (tokenOf name)).run ((c.keep l).sweep rest)).toPass := by
  have hclear := hl.clear_written plain.isWord plain.1 hother (serialize rest)
  rw [← tokenOf_plain plain] at hclear
  rw [toPass_run_skip (distinct_tokenOf_plain plain) hclear (c.sweep (l :: rest)) rfl,
    Clearing.sweep_advance]

/-- An element that holds nothing is removed. -/
theorem run_drop (plain : PlainName name) (c : Clearing) {element : Bytes}
    {doc rest : List Lexeme} (hdoc : serialize doc = element ++ serialize rest)
    (empty : IsEmptyElement (tokenOf name) element)
    (starts : StartsToken ('<'.toUInt8 :: Bytes.ofString name) (element ++ serialize rest)) :
    (markerScan (tokenOf name)).run (c.sweep doc) =
      (markerScan (tokenOf name)).run (c.drop.sweep rest) := by
  have hfirst : FirstAt (StartsToken (Bytes.ofString (tokenOf name)))
      ([] ++ (element ++ serialize rest)) ([] : Bytes).length := by
    rw [tokenOf_plain plain, List.nil_append]
    exact ⟨starts, fun j hj => absurd hj (Nat.not_lt_zero j)⟩
  have hnext : (markerScan (tokenOf name)).next (c.sweep doc) = .more (c.drop.sweep rest) :=
    markerStep_element (distinct_tokenOf_plain plain) hdoc hfirst empty
  rw [Scan.run_of_more hnext]

/-- A start tag stays and is reported if its end tag is not the next lexeme. -/
theorem run_report (plain : PlainName name) (c : Clearing) {attributes : List Attribute}
    (hattributes : ∀ a ∈ attributes, a.Plain) {rest : List Lexeme} (hrest : ∀ l ∈ rest, l.Plain)
    (hother : rest.head? ≠ some (.close (Bytes.ofString name))) :
    (markerScan (tokenOf name)).run (c.sweep (.start (Bytes.ofString name) attributes :: rest)) =
      (markerScan (tokenOf name)).run
        (((c.report name).keep (.start (Bytes.ofString name) attributes)).sweep rest) := by
  have hl : (Lexeme.start (Bytes.ofString name) attributes).Plain := ⟨plain.isWord, hattributes⟩
  have hstarts := (hl.startsToken_written_iff plain.isWord plain.1 (serialize rest)).2 rfl
  rw [← tokenOf_plain plain] at hstarts
  have hinner := plain.isWord.unbracketed.append
    (Attribute.unbracketed_flatMap_written hattributes)
  have hopen : ¬ endTag (tokenOf name) <+: serialize rest := by
    rw [endTag_tokenOf plain, close_prefix_serialize_iff plain.isWord plain.1 hrest]
    exact hother
  have hnext := markerStep_start (distinct_tokenOf_plain plain)
    (s := c.sweep (.start (Bytes.ofString name) attributes :: rest)) rfl hstarts hinner.2
    (getLast?_start plain.isWord) hopen
  have hoffset : (c.sweep (.start (Bytes.ofString name) attributes :: rest)).cursor.offset =
      (serialize c.kept).length := List.length_reverse
  rw [hoffset] at hnext
  have hmore : (markerScan (tokenOf name)).next _ = .more _ := hnext
  rw [Scan.run_of_more hmore, ← Clearing.sweep_advance]
  rfl

/-- From the border of two lexemes on, the search for a name ends as the reading does. -/
theorem toPass_run_sweep (plain : PlainName name) (c : Clearing) (rest : List Lexeme)
    (hrest : ∀ l ∈ rest, l.Plain) :
    ((markerScan (tokenOf name)).run (c.sweep rest)).toPass = (c.clear name rest).toPass := by
  fun_induction Clearing.clear name c rest with
  | case1 c =>
    have hindex : tokenIndex? (Bytes.ofString (tokenOf name)) (c.sweep []).cursor.ahead = none := by
      rw [tokenIndex?_eq_none_iff (distinct_tokenOf_plain plain)]
      intro j hs
      have hlt := hs.length_lt
      simp [Clearing.sweep] at hlt
    have hnext : (markerScan (tokenOf name)).next (c.sweep []) = .done (c.sweep []) := by
      simp only [markerScan, markerStep, hindex]
    rw [Scan.run_of_done hnext]
    simp [Sweep.toPass, Clearing.sweep, Clearing.toPass, Cursor.text]
  | case2 c attributes rest ih =>
    -- An empty tag with the name.
    rw [List.forall_mem_cons] at hrest
    have hstarts := (hrest.1.startsToken_written_iff plain.isWord plain.1 (serialize rest)).2 rfl
    rw [run_drop plain c (serialize_cons _ rest) (isEmptyElement_empty plain hrest.1.2) hstarts]
    exact ih hrest.2
  | case3 c key attributes rest hother ih =>
    rw [List.forall_mem_cons] at hrest
    rw [toPass_run_unmarked plain c hrest.1 hother]
    exact ih hrest.2
  | case4 c attributes rest hclose ih =>
    -- A start tag with the name, and behind it its end tag.
    rw [List.forall_mem_cons] at hrest
    obtain ⟨rest, rfl⟩ := List.head?_eq_some_iff.1 hclose
    have hstarts := (hrest.1.startsToken_written_iff plain.isWord plain.1
      (serialize (.close (Bytes.ofString name) :: rest))).2 rfl
    have hdoc : serialize (.start (Bytes.ofString name) attributes ::
        .close (Bytes.ofString name) :: rest) =
        ((Lexeme.start (Bytes.ofString name) attributes).written ++
          (Lexeme.close (Bytes.ofString name)).written) ++ serialize rest := by
      rw [serialize_cons, serialize_cons, List.append_assoc]
    rw [serialize_cons, ← List.append_assoc] at hstarts
    rw [run_drop plain c hdoc (isEmptyElement_start plain hrest.1.2) hstarts]
    apply ih
    intro l hl
    exact hrest.2 l (List.mem_cons_of_mem _ hl)
  | case5 c attributes rest hother ih =>
    -- A start tag with the name, and something else behind it.
    rw [List.forall_mem_cons] at hrest
    rw [run_report plain c hrest.1.2 hrest.2 hother]
    exact ih hrest.2
  | case6 c key attributes rest hother ih =>
    rw [List.forall_mem_cons] at hrest
    rw [toPass_run_unmarked plain c hrest.1 hother]
    exact ih hrest.2
  | case7 c key rest ih =>
    rw [List.forall_mem_cons] at hrest
    rw [toPass_run_unmarked plain c hrest.1 id]
    exact ih hrest.2
  | case8 c data rest ih =>
    rw [List.forall_mem_cons] at hrest
    rw [toPass_run_unmarked plain c hrest.1 id]
    exact ih hrest.2

end

/-! ## What a reading leaves alone -/

namespace Lexeme

/-- The name in a tag. -/
def name? : Lexeme → Option Bytes
  | start name _ | empty name _ | close name => some name
  | text _ => none

/-- Whether a lexeme is a tag with one of these names. -/
def named (names : List String) (l : Lexeme) : Bool :=
  names.any fun name => l.name? == some (Bytes.ofString name)

end Lexeme

namespace Clearing

/-- From one reading to a later one, with `rest` read in between. -/
structure Reads (names : List String) (c : Clearing) (rest : List Lexeme) (d : Clearing) :
    Prop where
  /-- What is kept stands in the order of the document, and only tags with one of the names
      are missing. -/
  kept : ∃ kept, d.kept = c.kept ++ kept ∧ kept.Sublist rest ∧
    kept.filter (!·.named names) = rest.filter (!·.named names)
  /-- All that is reported are elements with one of the names that hold something. -/
  reported : ∃ ws, d.warnings = c.warnings ++ ws ∧
    ∀ w ∈ ws, ∃ name ∈ names, ∃ n, w = .nonEmptyTag (tokenOf name) n

namespace Reads

variable {names : List String} {c d : Clearing} {l : Lexeme} {rest : List Lexeme}

theorem refl (c : Clearing) : Reads names c [] c where
  kept := ⟨[], (List.append_nil _).symm, List.Sublist.slnil, rfl⟩
  reported := ⟨[], (List.append_nil _).symm, by simp⟩

theorem of_keep (h : Reads names (c.keep l) rest d) : Reads names c (l :: rest) d where
  kept := by
    obtain ⟨kept, heq, hsub, hfilter⟩ := h.kept
    refine ⟨l :: kept, ?_, hsub.cons_cons l, ?_⟩
    · rw [heq, keep, List.append_assoc, List.singleton_append]
    · rw [List.filter_cons, List.filter_cons, hfilter]
  reported := h.reported

/-- A tag with one of the names may be left out. -/
theorem of_named (hl : l.named names = true) (h : Reads names c rest d) :
    Reads names c (l :: rest) d where
  kept := by
    obtain ⟨kept, heq, hsub, hfilter⟩ := h.kept
    refine ⟨kept, heq, hsub.cons l, ?_⟩
    rw [List.filter_cons_of_neg (by simpa using hl), hfilter]
  reported := h.reported

theorem of_drop (h : Reads names c.drop rest d) : Reads names c rest d where
  kept := h.kept
  reported := h.reported

theorem of_report {name : String} (hname : name ∈ names) (h : Reads names (c.report name) rest d) :
    Reads names c rest d where
  kept := h.kept
  reported := by
    obtain ⟨ws, heq, hall⟩ := h.reported
    refine ⟨.nonEmptyTag (tokenOf name) (serialize c.kept).length :: ws, ?_, ?_⟩
    · rw [heq, report, List.append_assoc, List.singleton_append]
    · rw [List.forall_mem_cons]
      exact ⟨⟨name, hname, _, rfl⟩, hall⟩

end Reads

variable {name : String} {names : List String}

theorem reads_clear (hname : name ∈ names) (c : Clearing) (rest : List Lexeme) :
    Reads names c rest (c.clear name rest) := by
  have hnamed : ∀ l : Lexeme, l.name? = some (Bytes.ofString name) → l.named names = true := by
    intro l hl
    exact List.any_eq_true.2 ⟨name, hname, by rw [hl, beq_self_eq_true]⟩
  fun_induction clear name c rest with
  | case1 c => exact .refl c
  | case2 c attributes rest ih => exact ih.of_drop.of_named (hnamed _ rfl)
  | case3 c key attributes rest hother ih => exact ih.of_keep
  | case4 c attributes rest hclose ih =>
    obtain ⟨rest, rfl⟩ := List.head?_eq_some_iff.1 hclose
    exact (ih.of_drop.of_named (hnamed _ rfl)).of_named (hnamed _ rfl)
  | case5 c attributes rest hother ih => exact ih.of_keep.of_report hname
  | case6 c key attributes rest hother ih => exact ih.of_keep
  | case7 c key rest ih => exact ih.of_keep
  | case8 c data rest ih => exact ih.of_keep

/-- A reading for each of some names, one after the other. -/
theorem reads_foldl {some : List String} (hsome : ∀ name ∈ some, name ∈ names) (c : Clearing) :
    (some.foldl pass c).kept.Sublist c.kept ∧
      (some.foldl pass c).kept.filter (!·.named names) = c.kept.filter (!·.named names) ∧
      ∃ ws, (some.foldl pass c).warnings = c.warnings ++ ws ∧
        ∀ w ∈ ws, ∃ name ∈ names, ∃ n, w = .nonEmptyTag (tokenOf name) n := by
  induction some generalizing c with
  | nil => exact ⟨.refl _, rfl, [], (List.append_nil _).symm, by simp⟩
  | cons name some ih =>
    rw [List.forall_mem_cons] at hsome
    obtain ⟨hsub, hfilter, ws, hws, hall⟩ := ih hsome.2 (c.pass name)
    have hreads := reads_clear hsome.1 { c with kept := [] } c.kept
    obtain ⟨kept, hkept, hsub', hfilter'⟩ := hreads.kept
    obtain ⟨ws', hws', hall'⟩ := hreads.reported
    have hpass : (c.pass name).kept = kept := hkept
    rw [List.foldl_cons, hfilter, hws, hpass, hfilter']
    rw [hpass] at hsub
    refine ⟨hsub.trans hsub', rfl, ws' ++ ws, ?_, ?_⟩
    · rw [← List.append_assoc]
      exact congrArg (· ++ ws) hws'
    · intro w hw
      rcases List.mem_append.1 hw with hw | hw
      · exact hall' w hw
      · exact hall w hw

end Clearing

/-! ## All names -/

/-- Each search starts again at the front, where the next reading starts. -/
theorem foldl_markerScan_serialize {names : List String} (plain : ∀ name ∈ names, PlainName name)
    (c : Clearing) (hkept : ∀ l ∈ c.kept, l.Plain) (s : Sweep) (hs : s.toPass = c.toPass) :
    (names.foldl (fun s name => (markerScan (tokenOf name)).run s.rewind) s).toPass =
      (names.foldl Clearing.pass c).toPass := by
  induction names generalizing c s with
  | nil => exact hs
  | cons name names ih =>
    rw [List.forall_mem_cons] at plain
    have hrun := toPass_run_sweep plain.1 { c with kept := [] } c.kept hkept
    rw [← Clearing.rewind_eq_sweep hs] at hrun
    apply ih plain.2 (c.pass name) _ _ hrun
    -- What a reading keeps is made of lexemes that it has read.
    intro l hl
    obtain ⟨kept, heq, hsub, -⟩ :=
      (Clearing.reads_clear (List.mem_singleton_self name) { c with kept := [] } c.kept).kept
    have hmem : l ∈ ([] : List Lexeme) ++ kept := heq ▸ hl
    exact hkept l (hsub.subset hmem)

/-- On the text of a document the marker pass does, name after name, what one reading of its
    lexemes does. Only tags with one of the names are missing from the result, and all that is
    reported are elements that hold something. -/
theorem removeMarkers_serialize {names : List String} (plain : ∀ name ∈ names, PlainName name)
    {doc : List Lexeme} (hdoc : ∀ l ∈ doc, l.Plain) :
    removeMarkers names (serialize doc) = (names.foldl Clearing.pass { kept := doc }).toPass ∧
      (names.foldl Clearing.pass { kept := doc }).kept.Sublist doc ∧
      (names.foldl Clearing.pass { kept := doc }).kept.filter (!·.named names) =
        doc.filter (!·.named names) ∧
      ∀ w ∈ (removeMarkers names (serialize doc)).warnings,
        ∃ name ∈ names, ∃ n, w = .nonEmptyTag (tokenOf name) n := by
  have htext : (Sweep.ofText (serialize doc)).toPass = ({ kept := doc } : Clearing).toPass := rfl
  have hfold := foldl_markerScan_serialize plain { kept := doc } hdoc _ htext
  obtain ⟨hsub, hfilter, ws, hws, hall⟩ :=
    Clearing.reads_foldl (fun _ h => h) ({ kept := doc } : Clearing)
  have hremoved : removeMarkers names (serialize doc) =
      (names.foldl Clearing.pass { kept := doc }).toPass := hfold
  refine ⟨hremoved, hsub, hfilter, ?_⟩
  intro w hw
  rw [hremoved] at hw
  have hmem : w ∈ ([] : List Warning) ++ ws := hws ▸ hw
  exact hall w hmem

/-- A paragraph with a marker of each kind: a start tag whose end tag follows, one behind which a
    text follows, an empty tag, and an empty tag with a longer name. -/
def markedParagraph : List Lexeme :=
  let lang := Bytes.ofString "w:lang"
  [.start (Bytes.ofString "w:p") [], .start lang [⟨Bytes.ofString "w:val", Bytes.ofString "en"⟩],
    .close lang, .start lang [], .text (Bytes.ofString "a"), .close lang,
    .empty (Bytes.ofString "w:langs") [], .empty (Bytes.ofString "w:noProof") [],
    .close (Bytes.ofString "w:p")]

theorem removeMarkers_serialize_marked :
    (∀ name ∈ ["w:lang", "w:noProof"], PlainName name) ∧ (∀ l ∈ markedParagraph, l.Plain) ∧
      removeMarkers ["w:lang", "w:noProof"] (serialize markedParagraph) =
        { text := Bytes.ofString "<w:p><w:lang>a</w:lang><w:langs/></w:p>", count := 2,
          warnings := [.nonEmptyTag "<w:lang" 5] } := by
  have hplain : ∀ name ∈ ["w:lang", "w:noProof"], PlainName name := by decide +kernel
  have hdoc : ∀ l ∈ markedParagraph, l.Plain := by decide +kernel
  obtain ⟨hremoved, -⟩ := removeMarkers_serialize hplain hdoc
  refine ⟨hplain, hdoc, ?_⟩
  rw [hremoved]
  decide +kernel

end DocxTemplate.Sanitize
