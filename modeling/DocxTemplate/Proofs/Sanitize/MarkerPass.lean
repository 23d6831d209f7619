import DocxTemplate.Proofs.Sanitize.Noise

/-! # The marker pass

    The pass for one name removes the markers of this name and leaves all other parts alone.
    After the passes for all names no marker is left.

    * `Clears`: which elements a pass removes, read from left to right.
    * `toPass_of_clears`: the scan does what `Clears` says.
    * `clears_written`: it removes the markers of its name from a list of parts.
    * `removeMarkers_written`: all markers go, and each of them counts.
-/

namespace DocxTemplate.Sanitize

/-! ## One name -/

/-- An element that holds nothing: an empty tag, or a start tag and its end tag. -/
def IsEmptyElement (token : String) (element : Bytes) : Prop :=
  ∃ start, '>'.toUInt8 ∉ start ∧
    (start.getLast? = some '/'.toUInt8 ∧ element = start ++ ['>'.toUInt8] ∨
      start.getLast? ≠ some '/'.toUInt8 ∧ element = start ++ '>'.toUInt8 :: endTag token)

/-- `Clears token text kept n`: of a text the `n` elements that start with the token are
    removed, and all of them hold nothing. -/
inductive Clears (token : String) : Bytes → Bytes → Nat → Prop where
  | absent {text} (absent : ∀ j, ¬ StartsToken (Bytes.ofString token) (text.drop j)) :
      Clears token text text 0
  | element {front element rest kept n}
      (first : FirstAt (StartsToken (Bytes.ofString token)) (front ++ (element ++ rest))
        front.length)
      (empty : IsEmptyElement token element) (next : Clears token rest kept n) :
      Clears token (front ++ (element ++ rest)) (front ++ kept) (n + 1)

/-- The token of a default name is a tag with this name. -/
theorem tokenOf_known {name : String} (h : name ∈ defaultTags) :
    Bytes.ofString (tokenOf name) = '<'.toUInt8 :: Bytes.ofString name ∧
      Unended (Bytes.ofString name) ∧ Bytes.ofString name ≠ [] ∧
      Unbracketed (Bytes.ofString name) ∧
      endTag (tokenOf name) = '<'.toUInt8 :: '/'.toUInt8 :: (Bytes.ofString name ++ ['>'.toUInt8]) ∧
      Bytes.ofString ("></" ++ name ++ ">") = '>'.toUInt8 :: endTag (tokenOf name) := by
  revert name
  decide +kernel

theorem ofString_known_inj {name name' : String} (h : name ∈ defaultTags)
    (h' : name' ∈ defaultTags) (heq : Bytes.ofString name = Bytes.ofString name') :
    name = name' := by
  have hinj : ∀ a ∈ defaultTags, ∀ b ∈ defaultTags,
      Bytes.ofString a = Bytes.ofString b → a = b := by
    decide
  exact hinj _ h _ h' heq

theorem distinct_tokenOf {name : String} (h : name ∈ defaultTags) :
    Distinct (Bytes.ofString (tokenOf name)) := by
  obtain ⟨htoken, -, -, hplain, -⟩ := tokenOf_known h
  rw [htoken]
  exact ⟨_, _, rfl, hplain.1⟩

/-- A step removes the next element if it holds nothing. -/
theorem markerStep_element {token : String} {s : Sweep} {front element rest : Bytes}
    (hd : Distinct (Bytes.ofString token)) (hahead : s.cursor.ahead = front ++ (element ++ rest))
    (first : FirstAt (StartsToken (Bytes.ofString token)) (front ++ (element ++ rest)) front.length)
    (empty : IsEmptyElement token element) :
    markerStep token s = .more { s with
      cursor := ⟨front.reverse ++ s.cursor.behind, rest⟩, count := s.count + 1 } := by
  obtain ⟨start, hgt, hcase⟩ := empty
  have hindex : tokenIndex? (Bytes.ofString token) s.cursor.ahead = some front.length := by
    rw [hahead]
    exact (tokenIndex?_eq_some_iff hd).2 first
  have hhere : s.cursor.advance front.length =
      ⟨front.reverse ++ s.cursor.behind, element ++ rest⟩ := by
    rw [Cursor.advance, hahead, List.take_left, List.drop_left]
  unfold markerStep
  rw [hindex]
  dsimp only
  rw [hhere]
  rcases hcase with ⟨hlast, rfl⟩ | ⟨hlast, rfl⟩
  · have hg : Bytes.indexOf? ['>'.toUInt8] (start ++ ['>'.toUInt8] ++ rest) =
        some start.length := by
      rw [List.append_assoc]
      exact Bytes.indexOf?_singleton_append hgt
    rw [hg]
    dsimp only
    rw [List.append_assoc, List.take_left, if_pos (by simpa using hlast)]
    simp only [Cursor.delete, Nat.add_zero]
    rw [← List.append_assoc, List.drop_left' (by simp)]
  · have hg : Bytes.indexOf? ['>'.toUInt8] (start ++ '>'.toUInt8 :: endTag token ++ rest) =
        some start.length := by
      rw [List.append_assoc]
      exact Bytes.indexOf?_singleton_append hgt
    have hdrop : (start ++ '>'.toUInt8 :: endTag token ++ rest).drop (start.length + 1) =
        endTag token ++ rest := by
      rw [List.append_assoc, List.cons_append, ← List.drop_drop, List.drop_left, List.drop_one,
        List.tail_cons]
    rw [hg]
    dsimp only
    rw [if_neg, hdrop, if_pos]
    · simp only [Cursor.delete]
      rw [← List.drop_drop, hdrop, List.drop_left]
    · exact List.isPrefixOf_iff_prefix.2 (List.prefix_append _ _)
    · rw [List.append_assoc, List.take_left]
      simpa using hlast

/-- The scan removes what is to be cleared. -/
theorem toPass_of_clears {token : String} {text kept : Bytes} {n : Nat}
    (hd : Distinct (Bytes.ofString token)) (h : Clears token text kept n) (s : Sweep)
    (hahead : s.cursor.ahead = text) : ((markerScan token).run s).toPass =
      { text := s.cursor.behind.reverse ++ kept, count := s.count + n,
        warnings := s.warnings } := by
  induction h generalizing s with
  | @absent text absent =>
    have hindex : tokenIndex? (Bytes.ofString token) s.cursor.ahead = none := by
      rw [hahead]
      exact (tokenIndex?_eq_none_iff hd).2 absent
    have hnext : (markerScan token).next s = .done s := by
      simp only [markerScan, markerStep, hindex]
    rw [Scan.run_of_done hnext, Sweep.toPass, Cursor.text, hahead]
    rfl
  | @element front element rest kept n first empty next ih =>
    have hnext : (markerScan token).next s = .more _ :=
      markerStep_element hd hahead first empty
    rw [Scan.run_of_more hnext, ih _ rfl]
    simp [Nat.add_comm, Nat.add_left_comm]

/-- What stands before a text can be passed over if no element to be removed starts in it. -/
theorem Clears.skip {token : String} {front rest kept : Bytes} {n : Nat}
    (hclear : Clear (StartsToken (Bytes.ofString token)) front rest)
    (h : Clears token rest kept n) : Clears token (front ++ rest) (front ++ kept) n := by
  cases h with
  | absent absent => exact .absent (hclear.none_append absent)
  | @element front' element rest kept n first empty next =>
    rw [← List.append_assoc front front', ← List.append_assoc front front' kept]
    refine .element ?_ empty next
    rw [List.append_assoc, List.length_append]
    exact first.append_front hclear

/-! ## A list of parts -/

namespace Marker

variable (m : Marker)

theorem nameEnds_middle {more : Bytes} (hmore : NameEnds more) : NameEnds (m.middle ++ more) := by
  cases hmiddle : m.middle with
  | nil => exact hmore
  | cons b middle =>
    have hspace := m.spaced b (by rw [hmiddle]; rfl)
    exact ⟨b, rfl, by simp [endsName, hspace]⟩

/-- The start tag of a marker with an end tag does not look like an empty tag. -/
theorem getLast?_opening (hpaired : m.paired = true) :
    ('<'.toUInt8 :: (Bytes.ofString m.name ++ m.middle)).getLast? ≠ some '/'.toUInt8 := by
  intro hlast
  obtain ⟨-, hends, -⟩ := tokenOf_known m.known
  rw [← List.cons_append, List.getLast?_append] at hlast
  cases hmiddle : m.middle.getLast? with
  | some b =>
    rw [hmiddle, Option.some_or] at hlast
    exact m.open_tag hpaired (hmiddle.trans hlast)
  | none =>
    rw [hmiddle, Option.none_or] at hlast
    rcases List.mem_cons.1 (List.mem_of_getLast? hlast) with hlt | hmem
    · exact absurd hlt (by decide)
    · exact absurd (hends _ hmem) (by decide)

/-- A marker is an element that holds nothing. -/
theorem isEmptyElement : IsEmptyElement (tokenOf m.name) m.written := by
  obtain ⟨-, -, -, hplain, htag, hend⟩ := tokenOf_known m.known
  have hgt : '>'.toUInt8 ∉ '<'.toUInt8 :: (Bytes.ofString m.name ++ m.middle) := by
    rw [List.mem_cons, List.mem_append, not_or, not_or]
    exact ⟨by decide, hplain.2, m.plain.2⟩
  unfold written
  cases hpaired : m.paired with
  | false =>
    refine ⟨'<'.toUInt8 :: (Bytes.ofString m.name ++ m.middle) ++ ['/'.toUInt8], ?_,
      Or.inl ⟨?_, ?_⟩⟩
    · rw [List.mem_append, not_or]
      exact ⟨hgt, by decide⟩
    · rw [List.getLast?_append]
      rfl
    · rw [if_neg (by simp),
        show Bytes.ofString "/>" = ['/'.toUInt8] ++ ['>'.toUInt8] by decide]
      simp only [List.cons_append, List.append_assoc]
  | true =>
    refine ⟨'<'.toUInt8 :: (Bytes.ofString m.name ++ m.middle), hgt,
      Or.inr ⟨m.getLast?_opening hpaired, ?_⟩⟩
    rw [if_pos rfl, hend, List.cons_append]

/-- What stands behind the name of a marker ends it. -/
theorem nameEnds (more : Bytes) : NameEnds (m.middle ++ ((if m.paired then
    Bytes.ofString ("></" ++ m.name ++ ">") else Bytes.ofString "/>") ++ more)) := by
  obtain ⟨-, -, -, -, -, hend⟩ := tokenOf_known m.known
  refine m.nameEnds_middle ?_
  rw [hend, show Bytes.ofString "/>" = '/'.toUInt8 :: ['>'.toUInt8] by decide]
  cases m.paired with
  | false => exact ⟨'/'.toUInt8, rfl, by decide⟩
  | true => exact ⟨'>'.toUInt8, rfl, by decide⟩

/-- A marker starts a tag with its own name only. -/
theorem startsToken_iff {name : String} (hname : name ∈ defaultTags) (more : Bytes) :
    StartsToken (Bytes.ofString (tokenOf name)) (m.written ++ more) ↔ name = m.name := by
  obtain ⟨htoken, hends, -⟩ := tokenOf_known hname
  obtain ⟨-, hends', -⟩ := tokenOf_known m.known
  rw [htoken, written, List.cons_append, startsToken_cons_iff, List.append_assoc, List.append_assoc,
    startsToken_name_iff hends hends' (m.nameEnds more)]
  exact ⟨ofString_known_inj hname m.known, fun h => by rw [h]⟩

/-- A token of a name starts no end tag. -/
theorem not_startsToken_slash {token more : Bytes} (hends : Unended token) (hne : token ≠ []) :
    ¬ StartsToken token ('/'.toUInt8 :: more) := by
  intro h
  have hnil : Unended [] := fun b hb => absurd hb (by simp)
  exact hne ((startsToken_name_iff hends hnil ⟨'/'.toUInt8, rfl, by decide⟩).1 h)

/-- No other marker starts in a marker. -/
theorem clear {name : String} (hname : name ∈ defaultTags) (hne : name ≠ m.name) (more : Bytes) :
    Clear (StartsToken (Bytes.ofString (tokenOf name))) m.written more := by
  have hstart := mt (m.startsToken_iff hname more).1 hne
  obtain ⟨htoken, hends, hnil, -⟩ := tokenOf_known hname
  obtain ⟨-, -, -, hplain, htag, hend⟩ := tokenOf_known m.known
  rw [htoken] at hstart ⊢
  have hlt : '<'.toUInt8 ∉ Bytes.ofString m.name ++ m.middle := by
    rw [List.mem_append, not_or]
    exact ⟨hplain.1, m.plain.1⟩
  unfold written at hstart ⊢
  cases hpaired : m.paired with
  | false =>
    rw [hpaired] at hstart
    refine clear_tag (atTags_startsToken _) ?_ hstart
    rw [if_neg (by simp), List.mem_append, not_or]
    exact ⟨hlt, by decide⟩
  | true =>
    rw [hpaired, if_pos rfl, hend] at hstart
    rw [if_pos rfl, hend]
    -- The marker is a start tag and an end tag.
    have hsplit : ∀ text : Bytes, '<'.toUInt8 :: (text ++ '>'.toUInt8 :: endTag (tokenOf m.name)) =
        '<'.toUInt8 :: (text ++ ['>'.toUInt8]) ++ endTag (tokenOf m.name) := by
      intro text
      simp
    rw [hsplit] at hstart ⊢
    refine (clear_tag (atTags_startsToken _) ?_ ?_).append ?_
    · rw [List.mem_append, not_or]
      exact ⟨hlt, by decide⟩
    · rw [← List.cons_append, ← List.append_assoc]
      exact hstart
    · rw [htag]
      refine clear_tag (atTags_startsToken _) ?_ ?_
      · simp only [List.mem_cons, List.mem_append, List.not_mem_nil, or_false, not_or]
        exact ⟨by decide, hplain.1, by decide⟩
      rw [startsToken_cons_iff]
      exact not_startsToken_slash hends hnil

end Marker

/-- No marker starts in a piece. -/
theorem Piece.clear_marker {name : String} (hname : name ∈ defaultTags) (p : Piece) (more : Bytes) :
    Clear (StartsToken (Bytes.ofString (tokenOf name))) p.written more := by
  obtain ⟨htoken, hends, -⟩ := tokenOf_known hname
  rw [htoken]
  refine p.clear (atTags_startsToken _) ?_
  rw [startsToken_cons_iff, startsToken_name_iff hends p.plain.name_ends (p.nameEnds more)]
  intro h
  exact p.plain.name_kept (h ▸ List.mem_map_of_mem hname)

/-- The pass for a name removes the markers of this name. -/
theorem clears_written {name : String} (hname : name ∈ defaultTags) (parts : List Part) :
    ∃ n, Clears (tokenOf name) (written parts) (written (parts.filter (!·.named name))) n ∧
      n + (parts.filter (!·.named name)).length = parts.length := by
  induction parts with
  | nil =>
    refine ⟨0, .absent fun j hs => ?_, rfl⟩
    have := hs.length_lt
    simp [written] at this
  | cons part parts ih =>
    obtain ⟨n, hclears, hlength⟩ := ih
    by_cases hnamed : part.named name = true
    · rw [List.filter_cons_of_neg (by simpa using hnamed)]
      cases part with
      | piece p => exact absurd hnamed (by simp [Part.named])
      | marker m =>
        have hm : name = m.name := (eq_of_beq hnamed).symm
        refine ⟨n + 1, ?_, by rw [List.length_cons]; omega⟩
        have hfirst : FirstAt (StartsToken (Bytes.ofString (tokenOf name)))
            ([] ++ (m.written ++ written parts)) ([] : Bytes).length :=
          ⟨(m.startsToken_iff hname _).2 hm, fun j hj => absurd hj (Nat.not_lt_zero j)⟩
        exact .element hfirst (hm ▸ m.isEmptyElement) hclears
    · -- Any other part is passed over: nothing that the pass looks for starts in it.
      rw [List.filter_cons_of_pos (by simpa using hnamed)]
      refine ⟨n, ?_, by rw [List.length_cons, List.length_cons]; omega⟩
      refine Clears.skip ?_ hclears
      cases part with
      | piece p => exact p.clear_marker hname _
      | marker m => exact m.clear hname (fun h => hnamed (by simp [Part.named, h])) _

/-- The passes for some names remove the markers of these names, and count them. -/
theorem foldl_markerScan {names : List String} (hnames : ∀ name ∈ names, name ∈ defaultTags)
    (parts : List Part) (s : Sweep) (hs : s.cursor.text = written parts) :
    ∃ n, (names.foldl (fun s name => (markerScan (tokenOf name)).run s.rewind) s).toPass =
        { text := written (parts.filter fun p => !names.any p.named), count := s.count + n,
          warnings := s.warnings } ∧
      n + (parts.filter fun p => !names.any p.named).length = parts.length := by
  induction names generalizing parts s with
  | nil => exact ⟨0, by simp [Sweep.toPass, hs], by simp⟩
  | cons name names ih =>
    rw [List.forall_mem_cons] at hnames
    obtain ⟨n, hclears, hlength⟩ := clears_written hnames.1 parts
    have hpass := toPass_of_clears (distinct_tokenOf hnames.1) hclears s.rewind hs
    rw [Sweep.toPass, Pass.mk.injEq] at hpass
    obtain ⟨htext, hcount, -, hwarnings⟩ := hpass
    -- The next pass starts again at the front, with the parts that this one has left.
    obtain ⟨n', hfold, hlength'⟩ := ih hnames.2 (parts.filter (!·.named name)) _ htext
    have hfilter : (parts.filter (!·.named name)).filter (fun p => !names.any p.named) =
        parts.filter fun p => !(name :: names).any p.named := by
      rw [List.filter_filter]
      refine List.filter_congr fun p _ => ?_
      rw [List.any_cons, Bool.not_or, Bool.and_comm]
    rw [hfilter] at hfold hlength'
    refine ⟨n + n', ?_, by omega⟩
    rw [List.foldl_cons, hfold, hcount, hwarnings, Nat.add_assoc]
    rfl

/-- The pieces among some parts. -/
def pieces (parts : List Part) : List Piece :=
  parts.filterMap fun
    | .marker _ => none
    | .piece p => some p

theorem filter_unnamed (parts : List Part) :
    (parts.filter fun p => !defaultTags.any p.named) = (pieces parts).map .piece := by
  induction parts with
  | nil => rfl
  | cons part parts ih =>
    cases part with
    | marker m =>
      have hany : defaultTags.any (Part.marker m).named = true :=
        List.any_eq_true.2 ⟨m.name, m.known, beq_self_eq_true _⟩
      rw [List.filter_cons_of_neg (by simp [hany]), ih]
      rfl
    | piece p =>
      have hany : defaultTags.any (Part.piece p).named = false :=
        List.any_eq_false.2 fun _ _ => by simp [Part.named]
      rw [List.filter_cons_of_pos (by simp [hany]), ih]
      rfl

/-- The marker pass leaves the pieces, and counts the markers. -/
theorem removeMarkers_written (parts : List Part) : ∃ n,
    removeMarkers defaultTags (written parts) =
      { text := (pieces parts).flatMap Piece.written, count := n } ∧
      n + (pieces parts).length = parts.length := by
  obtain ⟨n, hfold, hlength⟩ := foldl_markerScan (fun _ h => h) parts
    (Sweep.ofText (written parts)) rfl
  rw [filter_unnamed] at hfold hlength
  refine ⟨n, ?_, by rwa [List.length_map] at hlength⟩
  rw [removeMarkers, hfold, written, List.flatMap_map]
  change Pass.mk _ (0 + n) _ _ = _
  rw [Nat.zero_add]
  rfl

end DocxTemplate.Sanitize
