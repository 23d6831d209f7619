import DocxTemplate.Proofs.Sanitize.RunPositions
import DocxTemplate.Proofs.Xml.Ampersand
import DocxTemplate.Package.Table

/-! # No cut splits a character

    Every pass over a part, and every insertion into a table, can be carried out with positions
    in the text. All the positions at which it slices and cuts lie in the text, in order and
    between two characters, so what comes of it is text again.

    * `removeMarkersAt?`, `removeAttributesAt?`, `joinRunsAt?`: the passes with checked positions.
    * `escapeLoneAmpersandsAt?`, `insertAfterRootAt?`: mending ampersands and extending a table.
    * `cuts_between_characters`: on whole text none of the checks fails, the results are those
      of the passes, and they are whole.
-/

namespace DocxTemplate

variable {text : Bytes}

/-! ## Scans and folds -/

/-- Where `P` holds and every step leads to it, checked steps lead to the result of the scan, for
    which it holds too. -/
theorem Scan.run?_leads {σ : Type} (scan : Scan σ σ) {next? : σ → Option (Step σ σ)} {P : σ → Prop}
    (agree : ∀ s, P s → next? s = some (scan.next s) ∧ (scan.next s).Leads P) (s : σ) (h : P s) :
    scan.run? next? s = some (scan.run s) ∧ P (scan.run s) := by
  have hmore : ∀ s t, P s → scan.next s = .more t → P t := by
    intro s t hs hnext
    have hleads := (agree s hs).2
    rwa [hnext] at hleads
  have hdone : ∀ s r, P s → scan.next s = .done r → P r := by
    intro s r hs hnext
    have hleads := (agree s hs).2
    rwa [hnext] at hleads
  exact ⟨run?_eq (fun s hs => (agree s hs).1) hmore s h, run_induction hmore hdone s h⟩

theorem foldlM_eq_some {σ α : Type} {f : σ → α → Option σ} {g : σ → α → σ} {P : σ → Prop}
    (agree : ∀ s a, P s → f s a = some (g s a) ∧ P (g s a)) (l : List α) (s : σ) (h : P s) :
    l.foldlM f s = some (l.foldl g s) ∧ P (l.foldl g s) := by
  induction l generalizing s with
  | nil => exact ⟨rfl, h⟩
  | cons a l ih =>
    obtain ⟨ha, hP⟩ := agree s a h
    rw [List.foldlM_cons, ha, Option.bind_eq_bind, Option.bind_some, List.foldl_cons]
    exact ih _ hP

namespace Sanitize

/-! ## The passes -/

/-- Removes the elements of one name from the whole text, with positions. -/
def sweepMarkersAt? (s : Sweep) (tag : String) : Option Sweep := do
  let close ← endTag? (tokenOf tag)
  (markerScan (tokenOf tag)).run? (markerAt? (tokenOf tag) close) s.rewind

/-- Removes the attributes of one name from the whole text, with positions. -/
def sweepAttributeAt? (s : Sweep) (name : String) : Option Sweep := do
  let t ← (attributeScan name).run? (attributeAt? name) s.rewind
  (bareTagScan name).run? (bareTagAt? name) t.rewind

/-- Removes every element named in `tags`, with positions. -/
def removeMarkersAt? (tags : List String) (text : Bytes) : Option Pass := do
  let s ← tags.foldlM sweepMarkersAt? (Sweep.ofText text)
  return s.toPass

/-- Removes every attribute named in `names`, with positions. -/
def removeAttributesAt? (names : List String) (text : Bytes) : Option Pass := do
  let s ← names.foldlM sweepAttributeAt? (Sweep.ofText text)
  let pass := s.toPass
  if pass.count = 0 then return pass
  let rest := removeEmptyProperties pass.text
  return { pass with text := rest.text, collapsed := rest.collapsed }

/-- Joins runs, with positions. -/
def joinRunsAt? (text : Bytes) : Option Pass :=
  let step (s : RunSweep) :=
    match s.current? with
    | none => enterAt? s
    | some run => joinAt? s run
  (runScan.run? step { toSweep := Sweep.ofText text }).map (·.toPass)

theorem removeMarkersAt?_eq (tags : List String) (h : Whole text) :
    removeMarkersAt? tags text = some (removeMarkers tags text) ∧
      Whole (removeMarkers tags text).text := by
  have hsweep : ∀ (s : Sweep) tag, s.cursor.Between →
      sweepMarkersAt? s tag = some ((markerScan (tokenOf tag)).run s.rewind) ∧
        ((markerScan (tokenOf tag)).run s.rewind).cursor.Between := by
    intro s tag hs
    rw [sweepMarkersAt?, (endTag?_tokenOf tag).1, Option.bind_eq_bind, Option.bind_some]
    exact Scan.run?_leads (markerScan (tokenOf tag)) (P := fun s : Sweep => s.cursor.Between)
      (fun s hs => markerAt?_eq tag hs) s.rewind (.ofText hs.whole)
  obtain ⟨hfold, hwhole⟩ := foldlM_eq_some hsweep tags (Sweep.ofText text) (.ofText h)
  rw [removeMarkersAt?, hfold]
  exact ⟨rfl, hwhole.whole⟩

/-- Cutting whole characters out of a whole text leaves it whole. -/
theorem Cutting.whole {x y : Bytes} {cuts : List Cut} (h : Cutting x cuts y)
    (hcuts : ∀ c ∈ cuts, c.removed ≠ [] ∧ Whole c.removed) (hx : Whole x) : Whole y := by
  induction h with
  | nil => exact hx
  | @cons c cuts last next ih =>
    rw [List.forall_mem_cons] at hcuts
    obtain ⟨⟨hne, hremoved⟩, hcuts⟩ := hcuts
    refine ih hcuts ?_
    rw [Cut.whole, List.append_assoc] at hx
    obtain ⟨hbefore, -, hrest⟩ := hx.split_around hremoved hne
    exact hbefore.append hrest

theorem whole_removeEmptyProperties (h : Whole text) : Whole (removeEmptyProperties text).text := by
  obtain ⟨cuts, hcutting, -, hshape⟩ := removeEmptyProperties_cuts text
  refine hcutting.whole (fun c hc => ⟨(hshape c hc).removed_ne_nil, ?_⟩) h
  obtain ⟨form, -, hform⟩ := hshape c hc
  exact ⟨form, hform⟩

theorem removeAttributesAt?_eq (names : List String) (h : Whole text) :
    removeAttributesAt? names text = some (removeAttributes names text) ∧
      Whole (removeAttributes names text).text := by
  have hsweep : ∀ (s : Sweep) name, s.cursor.Between →
      sweepAttributeAt? s name = some (sweepAttribute s name) ∧
        (sweepAttribute s name).cursor.Between := by
    intro s name hs
    obtain ⟨hrun, hbetween⟩ := Scan.run?_leads (attributeScan name)
      (P := fun s : Sweep => s.cursor.Between) (fun s hs => attributeAt?_eq name hs) s.rewind
      (.ofText hs.whole)
    rw [sweepAttributeAt?, hrun, Option.bind_eq_bind, Option.bind_some]
    exact Scan.run?_leads (bareTagScan name) (P := fun s : Sweep => s.cursor.Between)
      (fun s hs => bareTagAt?_eq name hs) _ (.ofText hbetween.whole)
  obtain ⟨hfold, hwhole⟩ := foldlM_eq_some hsweep names (Sweep.ofText text) (.ofText h)
  rw [removeAttributesAt?, hfold, removeAttributes, Option.bind_eq_bind, Option.bind_some]
  dsimp only
  split
  · exact ⟨rfl, hwhole.whole⟩
  · exact ⟨rfl, whole_removeEmptyProperties hwhole.whole⟩

theorem joinRunsAt?_eq (h : Whole text) : joinRunsAt? text = some (joinRuns text) ∧
    Whole (joinRuns text).text := by
  -- The positions of a run are found again only while the sweep stands behind its start tag,
  -- so that this is kept along with the place between characters.
  have hstep : ∀ s : RunSweep, Standing s ∧ s.cursor.Between →
      (match s.current? with
        | none => enterAt? s
        | some run => joinAt? s run) = some (runScan.next s) ∧
        (runScan.next s).Leads fun t => t.cursor.Between := by
    intro s ⟨hs, hbetween⟩
    simp only [runScan]
    cases hcurrent : s.current? with
    | none => exact enterAt?_eq hbetween
    | some run => exact joinAt?_eq hs hbetween hcurrent
  have hmore : ∀ s t, Standing s ∧ s.cursor.Between → runScan.next s = .more t →
      Standing t ∧ t.cursor.Between := by
    intro s t hs hnext
    have hleads := (hstep s hs).2
    rw [hnext] at hleads
    exact ⟨hs.1.step (runStep_of_next hnext), hleads⟩
  have hdone : ∀ s t, Standing s ∧ s.cursor.Between → runScan.next s = .done t →
      t.cursor.Between := by
    intro s t hs hnext
    have hleads := (hstep s hs).2
    rwa [hnext] at hleads
  have hstart : Standing { toSweep := Sweep.ofText text } ∧ (Cursor.ofText text).Between :=
    ⟨standing_start text, .ofText h⟩
  refine ⟨?_, (Scan.run_induction hmore hdone _ hstart).whole⟩
  rw [joinRunsAt?, Scan.run?_eq (fun s hs => (hstep s hs).1) hmore _ hstart]
  rfl

end Sanitize

/-! ## Ampersands -/

namespace Xml

/-- Writes `&amp;` for every ampersand that starts no reference, slice by slice. -/
def escapeLoneAmpersandsAt? (text : Bytes) : Option Bytes :=
  match Bytes.indexOf? ['&'.toUInt8] text with
  | none => some text
  | some place => do
    let front ← Bytes.slice? text 0 place
    let tail ← Bytes.slice? text place text.length
    let rest ← Bytes.slice? tail 1 tail.length
    let mended ← if rest.length < text.length then escapeLoneAmpersandsAt? rest else none
    return front ++ Bytes.ofString (if startsReference rest then "&" else "&amp;") ++ mended
termination_by text.length

theorem escapeLoneAmpersandsAt?_eq (h : Whole text) :
    escapeLoneAmpersandsAt? text = some (escapeLoneAmpersands text) ∧
      Whole (escapeLoneAmpersands text) := by
  induction hn : text.length using Nat.strongRecOn generalizing text with
  | ind n ih =>
    rw [escapeLoneAmpersandsAt?]
    cases hi : Bytes.indexOf? ['&'.toUInt8] text with
    | none =>
      have hnone := Bytes.indexOf?_singleton_eq_none_iff.1 hi
      have hsame := escapeLoneAmpersands_of_referencesOnly (referencesOnly_of_not_mem hnone)
      rw [hsame]
      exact ⟨rfl, h⟩
    | some place =>
      obtain ⟨front, rest, rfl, hfront, rfl, hwhole, hrest⟩ :=
        h.of_indexOf?_singleton (by decide) hi
      have htail : Whole ('&'.toUInt8 :: rest) :=
        hrest.cons (by decide)
      have hlen : rest.length < (front ++ '&'.toUInt8 :: rest).length := by
        rw [List.length_append, List.length_cons]
        omega
      obtain ⟨hmended, hwhole'⟩ := ih _ (hn ▸ hlen) hrest rfl
      have hslice : Bytes.slice? (front ++ '&'.toUInt8 :: rest) 0 front.length = some front :=
        Bytes.slice?_eq (x := []) rfl h htail rfl (Nat.zero_add _).symm
      have hbehind : Bytes.slice? (front ++ '&'.toUInt8 :: rest) front.length
          (front ++ '&'.toUInt8 :: rest).length = some ('&'.toUInt8 :: rest) :=
        Bytes.slice?_eq (z := []) (by rw [List.append_nil]) (by rwa [List.append_nil]) Whole.nil
          rfl List.length_append
      have hafter : Bytes.slice? ('&'.toUInt8 :: rest) 1 ('&'.toUInt8 :: rest).length = some rest :=
        Bytes.slice?_eq (x := ['&'.toUInt8]) (z := []) (by simp) (by rwa [List.append_nil])
          Whole.nil rfl (by rw [List.length_cons, Nat.add_comm])
      dsimp only
      rw [hslice, hbehind, Option.bind_eq_bind, Option.bind_some, Option.bind_some, hafter,
        Option.bind_some, if_pos hlen, hmended, Option.bind_some,
        escapeLoneAmpersands_append hfront, escapeLoneAmpersands]
      have hfirst : Whole
          (front ++ Bytes.ofString (if startsReference rest then "&" else "&amp;")) :=
        hwhole.append (whole_ofString _)
      refine ⟨?_, ?_⟩
      · cases startsReference rest <;> rw [List.append_assoc] <;> rfl
      · have hresult := hfirst.append hwhole'
        rw [List.append_assoc] at hresult
        cases hstarts : startsReference rest <;> rw [hstarts] at hresult <;> exact hresult

end Xml

/-! ## Tables -/

/-- A text is what is left of it without the blanks at its end, and these. -/
theorem Blank.exists_trimEnd (text : Bytes) :
    ∃ blanks, text = Blank.trimEnd text ++ blanks ∧ Whole blanks := by
  induction text with
  | nil => exact ⟨[], by rw [Blank.trimEnd]; rfl, Whole.nil⟩
  | cons b text ih =>
    rw [Blank.trimEnd]
    split
    · next hall =>
      obtain ⟨cs, hcs, -⟩ := Blank.allBlank_take_leading (b :: text)
      rw [hall, ← List.length_cons, List.take_length] at hcs
      exact ⟨_, rfl, whole_iff.2 ⟨cs, Utf8.decodeFrom_eq_ok_iff.1 hcs⟩⟩
    · obtain ⟨blanks, hblanks, hwhole⟩ := ih
      exact ⟨blanks, by rw [List.cons_append, ← hblanks], hwhole⟩

theorem Whole.trimEnd (h : Whole text) : Whole (Blank.trimEnd text) := by
  obtain ⟨blanks, hblanks, hwhole⟩ := Blank.exists_trimEnd text
  rw [hblanks] at h
  exact h.of_append_right hwhole

namespace Table

/-- Puts `fragment` behind the opening tag whose `>` stands at `stop`, slice by slice. -/
def openRootAt? (root : String) (fragment text : Bytes) (stop : Nat) : Option Bytes := do
  let rest ← Bytes.slice? text (stop + 1) text.length
  if (← Bytes.slice? text 0 stop).getLast? == some '/'.toUInt8 then
    let opened ← Bytes.slice? text 0 (stop - 1)
    let name ← Bytes.slice? (Bytes.ofString root) 1 (Bytes.ofString root).length
    return Blank.trimEnd opened ++ Bytes.ofString ">" ++ fragment ++ Bytes.ofString "</" ++ name
      ++ Bytes.ofString ">" ++ rest
  let opened ← Bytes.slice? text 0 (stop + 1)
  return opened ++ fragment ++ rest

/-- Puts `fragment` behind the opening tag of the first element whose tag starts with `root`. -/
def insertAfterRootAt? (root : String) (fragment text : Bytes) :
    Option (Except InsertFault Bytes) :=
  match Sanitize.tokenPlace? (Bytes.ofString root) text 0 with
  | none => some (.error (.noRoot root))
  | some start => do
    match Bytes.indexOf? ['>'.toUInt8] (← Bytes.slice? text start text.length) with
    | none => return .error (.unclosedRoot root)
    | some g => return .ok (← openRootAt? root fragment text (start + g))

/-- A tag that ends with a slash is opened by dropping the slash, any other is left as it is. -/
theorem openRootAt?_eq {root : String} {name fragment before rest : Bytes}
    (hroot : Bytes.ofString root = '<'.toUInt8 :: name) (hfragment : Whole fragment)
    (hbefore : Whole before) (hrest : Whole rest) :
    ∃ out, openRootAt? root fragment (before ++ '>'.toUInt8 :: rest) before.length = some out ∧
      Whole out ∧ out =
        if before.getLast? == some '/'.toUInt8 then
          Blank.trimEnd before.dropLast ++ Bytes.ofString ">" ++ fragment ++ Bytes.ofString "</"
            ++ (Bytes.ofString root).drop 1 ++ Bytes.ofString ">" ++ rest
        else before ++ Bytes.ofString ">" ++ fragment ++ rest := by
  have hname : Whole name := by
    have hwhole := whole_ofString root
    rw [hroot] at hwhole
    exact hwhole.tail (by decide)
  have hgt : Whole ('>'.toUInt8 :: rest) :=
    hrest.cons (by decide)
  have hbehind : Bytes.slice? (before ++ '>'.toUInt8 :: rest) (before.length + 1)
      (before ++ '>'.toUInt8 :: rest).length = some rest :=
    Bytes.slice?_eq (x := before ++ ['>'.toUInt8]) (z := []) (by simp) (by rwa [List.append_nil])
      Whole.nil (by simp) (by simp; omega)
  have hfront : Bytes.slice? (before ++ '>'.toUInt8 :: rest) 0 before.length = some before :=
    Bytes.slice?_eq (x := []) rfl (hbefore.append hgt) hgt rfl (Nat.zero_add _).symm
  unfold openRootAt?
  rw [hbehind, Option.bind_eq_bind, Option.bind_some, hfront, Option.bind_some]
  by_cases hslash : (before.getLast? == some '/'.toUInt8) = true
  · rw [if_pos hslash, if_pos hslash]
    obtain ⟨front, rfl⟩ : ∃ front, before = front ++ ['/'.toUInt8] :=
      List.getLast?_eq_some_iff.1 (beq_iff_eq.1 hslash)
    have hslash' : Whole ('/'.toUInt8 :: '>'.toUInt8 :: rest) :=
      hgt.cons (by decide)
    have hopened : Whole front := (hbefore.split_cons (Or.inl (by decide))).1
    have hslice : Bytes.slice? (front ++ ['/'.toUInt8] ++ '>'.toUInt8 :: rest) 0
        ((front ++ ['/'.toUInt8]).length - 1) = some front :=
      Bytes.slice?_eq (x := []) (z := '/'.toUInt8 :: '>'.toUInt8 :: rest) (by simp)
        (hopened.append hslash') hslash' rfl (by simp)
    have hroot' : Bytes.slice? (Bytes.ofString root) 1 (Bytes.ofString root).length = some name :=
      Bytes.slice?_eq (x := ['<'.toUInt8]) (z := []) (by simp [hroot])
        (by rwa [List.append_nil]) Whole.nil rfl (by rw [hroot, List.length_cons, Nat.add_comm])
    rw [hslice, Option.bind_some, hroot', Option.bind_some, List.dropLast_concat, hroot]
    refine ⟨_, rfl, ?_, rfl⟩
    exact (((((hopened.trimEnd.append (whole_ofString _)).append hfragment).append
      (whole_ofString _)).append hname).append (whole_ofString _)).append hrest
  · rw [if_neg hslash, if_neg hslash]
    have hslice : Bytes.slice? (before ++ '>'.toUInt8 :: rest) 0 (before.length + 1) =
        some (before ++ Bytes.ofString ">") :=
      Bytes.slice?_eq (x := []) (z := rest) (by rw [List.nil_append]; exact List.append_cons _ _ _)
        ((hbefore.append (whole_ofString _)).append hrest) hrest rfl (by simp; rfl)
    rw [hslice, Option.bind_some]
    exact ⟨_, rfl, ((hbefore.append (whole_ofString _)).append hfragment).append hrest, rfl⟩

theorem insertAfterRootAt?_eq {root : String} {name fragment : Bytes}
    (hroot : Bytes.ofString root = '<'.toUInt8 :: name) (hfragment : Whole fragment)
    (h : Whole text) :
    insertAfterRootAt? root fragment text = some (insertAfterRoot root fragment text) ∧
      match insertAfterRoot root fragment text with
      | .ok out => Whole out
      | .error _ => True := by
  have hsearch := Sanitize.tokenPlace?_offset (.ofText h) (whole_ofString root)
    (by rw [hroot]; exact List.cons_ne_nil _ _)
  rw [Cursor.text_ofText, show (Cursor.ofText text).offset = 0 from rfl,
    show (Cursor.ofText text).ahead = text from rfl] at hsearch
  unfold insertAfterRootAt? insertAfterRoot
  dsimp only
  rw [hsearch]
  cases hi : Sanitize.tokenIndex? (Bytes.ofString root) text with
  | none => exact ⟨rfl, trivial⟩
  | some start =>
    obtain ⟨hhere, hoffset⟩ := (Cursor.Between.ofText h).found (whole_ofString root)
      (by rw [hroot]; exact List.cons_ne_nil _ _)
      (Sanitize.startsToken_of_tokenIndex? hi).prefix_of
    rw [show (Cursor.ofText text).offset = 0 from rfl, Nat.zero_add] at hoffset
    have htext := Cursor.text_advance (Cursor.ofText text) start
    have hdrop : ((Cursor.ofText text).advance start).ahead = text.drop start := rfl
    rw [Cursor.text_ofText] at htext
    have htail := Cursor.Between.slice?_ahead (x := []) hdrop (hdrop ▸ hhere.ahead) rfl
    rw [htext, hoffset, List.length_nil, Nat.add_zero] at htail
    rw [Option.map_some]
    dsimp only
    rw [Nat.zero_add, htail, Option.bind_eq_bind, Option.bind_some]
    cases hg : Bytes.indexOf? ['>'.toUInt8] (text.drop start) with
    | none => exact ⟨rfl, trivial⟩
    | some g =>
      rw [← hdrop] at hg
      obtain ⟨tag, rest, hahead, -, rfl, htag, hrest⟩ :=
        hhere.ahead.of_indexOf?_singleton (by decide) hg
      -- The text before the end of the tag, and the text behind it.
      have hsplit : text =
          (((Cursor.ofText text).advance start).behind.reverse ++ tag) ++ '>'.toUInt8 :: rest := by
        rw [List.append_assoc, ← hahead]
        exact htext.symm
      have hlen : (((Cursor.ofText text).advance start).behind.reverse ++ tag).length =
          start + tag.length := by
        rw [List.length_append, ← Cursor.offset_eq, hoffset]
      have hbefore := hhere.behind.append htag
      generalize ((Cursor.ofText text).advance start).behind.reverse ++ tag = before
        at hsplit hlen hbefore
      obtain ⟨out, hopened, hwhole, hout⟩ := openRootAt?_eq hroot hfragment hbefore hrest
      dsimp only
      have hbehind : (before ++ '>'.toUInt8 :: rest).drop (before.length + 1) = rest := by
        rw [List.drop_length_add_append]
        rfl
      rw [← hlen, hsplit, hopened, Option.bind_some, List.take_left, hbehind,
        ← apply_ite (Except.ok : Bytes → Except InsertFault Bytes), ← hout]
      exact ⟨rfl, hwhole⟩

end Table

/-! ## All together -/

/-- **No cut splits a character.** On any text, with rules of any characters: where the passes,
    the mending of ampersands and the extension of a table are carried out with positions, every
    slice and every cut lies in the text, in order and between characters. The results are those
    of the passes themselves, and they are UTF-8. A root is a `<` with any name, as
    `Relationship.root` and `ContentTypes.root` are. -/
theorem cuts_between_characters (s : String) :
    let text := Bytes.ofString s
    (∀ tags, Sanitize.removeMarkersAt? tags text = some (Sanitize.removeMarkers tags text) ∧
      Whole (Sanitize.removeMarkers tags text).text) ∧
    (∀ names,
      Sanitize.removeAttributesAt? names text = some (Sanitize.removeAttributes names text) ∧
      Whole (Sanitize.removeAttributes names text).text) ∧
    (Sanitize.joinRunsAt? text = some (Sanitize.joinRuns text) ∧
      Whole (Sanitize.joinRuns text).text) ∧
    (Xml.escapeLoneAmpersandsAt? text = some (Xml.escapeLoneAmpersands text) ∧
      Whole (Xml.escapeLoneAmpersands text)) ∧
    ∀ name fragment : String,
      Table.insertAfterRootAt? ("<" ++ name) (Bytes.ofString fragment) text =
        some (Table.insertAfterRoot ("<" ++ name) (Bytes.ofString fragment) text) ∧
      match Table.insertAfterRoot ("<" ++ name) (Bytes.ofString fragment) text with
      | .ok out => Whole out
      | .error _ => True := by
  have h := whole_ofString s
  refine ⟨fun tags => Sanitize.removeMarkersAt?_eq tags h,
    fun names => Sanitize.removeAttributesAt?_eq names h, Sanitize.joinRunsAt?_eq h,
    Xml.escapeLoneAmpersandsAt?_eq h, fun name fragment => ?_⟩
  have hroot : Bytes.ofString ("<" ++ name) = '<'.toUInt8 :: Bytes.ofString name := by
    rw [Bytes.ofString, String.toList_append, List.flatMap_append]
    rfl
  exact Table.insertAfterRootAt?_eq hroot (whole_ofString fragment) h

end DocxTemplate
