import DocxTemplate.Proofs.Sanitize.Noise
import DocxTemplate.Proofs.Sanitize.RunPass

/-! # A row of text runs

    Runs that hold nothing but the same properties and a text node each:

    * `TextRun`: the text node of such a run.
    * `Quiet`: no run and no text node starts or ends in a text.
    * `cut?_behindName`: a run is joined with the text run that follows.
    * `run_row`: all text runs that follow are joined to the current one.
    * `joinRuns_row`: a paragraph of such runs ends up as a paragraph of one run.
-/

namespace DocxTemplate.Sanitize

/-! ## Text runs -/

/-- The text of a run, and whether its white space is to be kept. -/
structure TextRun where
  preserve : Bool
  text : Bytes
  plain : Unbracketed text

/-- What stands in the start tag of a text node behind its name. -/
def textAttribute (preserve : Bool) : Bytes :=
  if preserve then Bytes.ofString " xml:space=\"preserve\"" else []

/-- The start tag of a text node. -/
def textTag (preserve : Bool) : Bytes := tag (Bytes.ofString "w:t" ++ textAttribute preserve)

/-- A run with the properties `P` and one text node. -/
def TextRun.written (P : Bytes) (r : TextRun) : Bytes :=
  tag (Bytes.ofString "w:r") ++ (P ++ (textTag r.preserve ++ (r.text ++
    (tag (Bytes.ofString "/w:t") ++ tag (Bytes.ofString "/w:r")))))

/-- The tokens that the run pass looks for. -/
def runTokens : List Bytes := [runStart, runEnd, textStart, textEnd]

/-- No run and no text node starts or ends in a text. -/
def Quiet (text : Bytes) : Prop := ∀ token ∈ runTokens, Absent (StartsToken token) text

theorem tag_runTokens {token : Bytes} (h : token ∈ runTokens) :
    Tag token ∧ '>'.toUInt8 ∉ token := by
  simp only [runTokens, List.mem_cons, List.not_mem_nil, or_false] at h
  rcases h with rfl | rfl | rfl | rfl
  · exact ⟨tag_runStart, by decide⟩
  · exact ⟨tag_runEnd, by decide⟩
  · exact ⟨tag_textStart, by decide⟩
  · exact ⟨tag_textEnd, by decide⟩

/-- Only one of the tokens starts the tag of a text node. -/
theorem absent_textTag {token : Bytes} (h : token ∈ runTokens) (hne : token ≠ textStart)
    (preserve : Bool) : Absent (StartsToken token) (textTag preserve) := by
  have hstart : ∀ token ∈ runTokens, token ≠ textStart →
      ∀ preserve, ¬ StartsToken token (textTag preserve) := by
    decide
  have hplain : '<'.toUInt8 ∉ Bytes.ofString "w:t" ++ textAttribute preserve := by
    revert preserve
    decide
  obtain ⟨htag, hgt⟩ := tag_runTokens h
  exact absent_token_tag htag hgt hplain (hstart token h hne preserve)

/-- Behind the name of its tag a text node has an attribute or none. -/
theorem textTag_eq (preserve : Bool) : ∃ attributes,
    textTag preserve = textStart ++ (attributes ++ ['>'.toUInt8]) ∧ '>'.toUInt8 ∉ attributes ∧
      (attributes ++ ['>'.toUInt8]).head?.any opensOrEnds = true := by
  cases preserve with
  | false => exact ⟨[], by decide⟩
  | true => exact ⟨Bytes.ofString " xml:space=\"preserve\"", by decide⟩

/-! ## One join -/

/-- What stands behind the `<w:r` of a text run. -/
def behindName (P : Bytes) (preserve : Bool) (text more : Bytes) : Bytes :=
  '>'.toUInt8 :: P ++ (textTag preserve ++ text ++
    (tag (Bytes.ofString "/w:t") ++ (tag (Bytes.ofString "/w:r") ++ more)))

/-- Where its text ends. -/
def endAt (P : Bytes) (preserve : Bool) (text : Bytes) : Nat :=
  ('>'.toUInt8 :: P).length + (textTag preserve ++ text).length

/-- The run that is open there. -/
def textRun (P : Bytes) : OpenRun :=
  ⟨runStart ++ ('>'.toUInt8 :: P ++ textStart), ('>'.toUInt8 :: P).length⟩

section

variable {P text more : Bytes} {preserve : Bool}

theorem Quiet.absent_cons (hP : Quiet P) {token : Bytes} (h : token ∈ runTokens) :
    Absent (StartsToken token) ('>'.toUInt8 :: P) := by
  have hgt : Absent (StartsToken token) ['>'.toUInt8] :=
    absent_token_data (tag_runTokens h).1 (by decide)
  exact hgt.append (hP token h)

theorem firstAt_text (hP : Quiet P) : FirstAt (StartsToken textStart)
    (behindName P preserve text more) ('>'.toUInt8 :: P).length := by
  refine Clear.firstAt (hP.absent_cons (by decide) _) ?_
  obtain ⟨attributes, htag, -, hends⟩ := textTag_eq preserve
  rw [htag, List.append_assoc, List.append_assoc, StartsToken.append_iff]
  cases attributes with
  | nil => exact ⟨'>'.toUInt8, rfl, by decide⟩
  | cons b attributes => exact ⟨b, rfl, endsName_of_opensOrEnds (by simpa using hends)⟩

theorem openRun?_behindName (hP : Quiet P) :
    openRun? (behindName P preserve text more) = some (textRun P) := by
  refine openRun?_eq_some_iff.2 ⟨?_, firstAt_text hP, ?_⟩
  · rw [show Bytes.ofString "/>" = '/'.toUInt8 :: ['>'.toUInt8] by decide, behindName,
      List.cons_append, List.cons_prefix_cons]
    exact fun h => absurd h.1 (by decide)
  · obtain ⟨attributes, htag, -⟩ := textTag_eq preserve
    rw [behindName, htag, textRun, List.take_add, List.take_left, List.drop_left]
    simp only [List.append_assoc, List.take_left]

/-- In the text node no other token stands before its end. -/
theorem absent_textNode (htext : Unbracketed text) {token : Bytes} (h : token ∈ runTokens)
    (hne : token ≠ textStart) : Absent (StartsToken token) (textTag preserve ++ text) :=
  (absent_textTag h hne preserve).append (absent_token_data (tag_runTokens h).1 htext.1)

/-- Nor does one stand before the text node. -/
theorem not_startsToken_behindName (hP : Quiet P) (htext : Unbracketed text) {token : Bytes}
    (h : token ∈ runTokens) (hne : token ≠ textStart) {j : Nat}
    (hj : j < endAt P preserve text) :
    ¬ StartsToken token ((behindName P preserve text more).drop j) := by
  have hnode : Absent (StartsToken token) (textTag preserve ++ text) :=
    absent_textNode htext h hne
  rw [behindName, ← List.append_assoc]
  exact (hP.absent_cons h).append hnode _ j (by rwa [List.length_append])

/-- The text node ends behind its text. -/
theorem firstAt_end (htext : Unbracketed text) :
    FirstAt (StartsToken textEnd)
      ((behindName P preserve text more).drop ('>'.toUInt8 :: P).length)
      (textTag preserve ++ text).length := by
  rw [behindName, List.drop_left]
  refine Clear.firstAt (absent_textNode htext (by decide) (by decide) _) ?_
  exact (startsToken_tag_iff (by decide)).2 (by decide)

theorem drop_behindName : (behindName P preserve text more).drop (endAt P preserve text) =
    tag (Bytes.ofString "/w:t") ++ (tag (Bytes.ofString "/w:r") ++ more) := by
  rw [behindName, endAt, ← List.drop_drop, List.drop_left, List.drop_left]

theorem jointAt_behindName : jointAt (behindName P preserve text more) ('>'.toUInt8 :: P).length =
    tag (Bytes.ofString "/w:t") ++ (tag (Bytes.ofString "/w:r") ++
      (tag (Bytes.ofString "w:r") ++ (P ++ textStart))) := by
  obtain ⟨attributes, htag, -⟩ := textTag_eq preserve
  have htake : (behindName P preserve text more).take (('>'.toUInt8 :: P).length + 4) =
      '>'.toUInt8 :: P ++ textStart := by
    rw [behindName, htag, List.take_add, List.take_left, List.drop_left]
    simp only [List.append_assoc, List.take_left' length_textStart]
  rw [jointAt_eq, htake,
    show tag (Bytes.ofString "/w:t") = textEnd ++ ['>'.toUInt8] by decide,
    show tag (Bytes.ofString "/w:r") = runEnd ++ ['>'.toUInt8] by decide,
    show tag (Bytes.ofString "w:r") = runStart ++ ['>'.toUInt8] by decide]
  simp only [List.append_assoc, List.cons_append, List.nil_append]

/-- Behind its text stands the joint with the next text run. -/
theorem drop_eq_joint (r : TextRun) {attributes : Bytes}
    (htag : textTag r.preserve = textStart ++ (attributes ++ ['>'.toUInt8])) :
    (behindName P preserve text (r.written P ++ more)).drop (endAt P preserve text) =
      jointAt (behindName P preserve text (r.written P ++ more)) ('>'.toUInt8 :: P).length ++
        (attributes ++ '>'.toUInt8 :: (r.text ++
          (tag (Bytes.ofString "/w:t") ++ (tag (Bytes.ofString "/w:r") ++ more)))) := by
  rw [drop_behindName, jointAt_behindName, TextRun.written, htag]
  simp only [List.append_assoc, List.cons_append, List.nil_append]

/-- A text run and the next one join. -/
theorem joinsAt_behindName (hP : Quiet P) (htext : Unbracketed text) (r : TextRun) :
    JoinsAt (behindName P preserve text (r.written P ++ more)) ('>'.toUInt8 :: P).length
      (endAt P preserve text) where
  entered := (openRun?_eq_some_iff.1 (openRun?_behindName hP)).1
  text := firstAt_text hP
  ending := by
    rw [endAt, Nat.add_sub_cancel_left]
    exact firstAt_end htext
  text_le := Nat.le_add_right _ _
  still_open := fun _ hj =>
    not_startsToken_behindName hP htext (by decide) (by decide) hj
  plain := fun _ _ hj =>
    not_startsToken_behindName hP htext (by decide) (by decide) hj
  next := by
    obtain ⟨attributes, htag, -, hends⟩ := textTag_eq r.preserve
    rw [drop_eq_joint r htag]
    cases attributes with
    | nil => exact ⟨'>'.toUInt8, _, rfl, by decide, by simp⟩
    | cons b attributes => exact ⟨b, _, rfl, by simpa using hends, by simp⟩

/-- A text run joins nowhere else. -/
theorem eq_endAt_of_joinsAt (htext : Unbracketed text) {e : Nat}
    (h : JoinsAt (behindName P preserve text more) ('>'.toUInt8 :: P).length e) :
    e = endAt P preserve text := by
  have hend : e - ('>'.toUInt8 :: P).length = _ := h.ending.unique (firstAt_end htext)
  have hle := h.text_le
  rw [endAt, ← hend, Nat.add_sub_cancel' hle]

/-- The cut leaves a text run with both texts. -/
theorem cut?_behindName (hP : Quiet P) (htext : Unbracketed text) (r : TextRun) :
    ∃ c, (textRun P).cut? (behindName P preserve text (r.written P ++ more)) = some c ∧
      c.rest = behindName P preserve (text ++ r.text) more := by
  have hjoins : JoinsAt (behindName P preserve text (r.written P ++ more)) _ _ :=
    joinsAt_behindName hP htext r
  obtain ⟨run, c, hopen, hcut⟩ := cut?_of_joinsAt hjoins
  obtain rfl : textRun P = run := by
    rwa [openRun?_behindName hP, Option.some.injEq] at hopen
  refine ⟨c, hcut, ?_⟩
  obtain ⟨e, hjoins', hbefore, hwhole, attributes', hremoved, hplain'⟩ := joinsAt_of_cut? hopen hcut
  obtain rfl := eq_endAt_of_joinsAt htext hjoins'
  obtain ⟨attributes, htag, hplain, -⟩ := textTag_eq r.preserve
  have hjoint : jointAt (behindName P preserve text (r.written P ++ more))
      ('>'.toUInt8 :: P).length = (textRun P).joint := jointAt_textAt hopen
  -- The text behind the cut is found behind the end of the second text tag.
  have hsplit : c.before ++ (c.removed ++ c.after) = c.before ++
      (behindName P preserve text (r.written P ++ more)).drop (endAt P preserve text) := by
    rw [← List.append_assoc, hbefore, List.take_append_drop, ← hbefore]
    exact hwhole
  have hbehind := List.append_cancel_left hsplit
  rw [drop_eq_joint r htag, hjoint, hremoved, List.append_assoc, List.append_assoc,
    List.append_cancel_left_eq, List.singleton_append] at hbehind
  obtain ⟨-, hafter⟩ := Bytes.append_cons_inj hplain' hplain hbehind
  rw [Cut.rest, hbefore, hafter, behindName, behindName, endAt, List.take_add, List.take_left,
    List.drop_left, List.take_left]
  simp only [List.append_assoc]

/-- At the end of the paragraph there is nothing to join. -/
theorem cut?_end (hP : Quiet P) (htext : Unbracketed text) : (textRun P).cut?
    (behindName P preserve text (tag (Bytes.ofString "/w:p"))) = none := by
  cases hcut : (textRun P).cut? (behindName P preserve text (tag (Bytes.ofString "/w:p"))) with
  | none => rfl
  | some c =>
    obtain ⟨e, hjoins, -⟩ := joinsAt_of_cut? (openRun?_behindName hP) hcut
    obtain rfl := eq_endAt_of_joinsAt htext hjoins
    -- Behind the two end tags the next run would have to start.
    have hnext := hjoins.tags_behind.2.2.1
    rw [← List.drop_drop, drop_behindName] at hnext
    exact absurd hnext (by decide)

/-- No run starts before the end of the paragraph. -/
theorem not_startsToken_end (hP : Quiet P) (htext : Unbracketed text) (j : Nat) :
    ¬ StartsToken runStart
      ((behindName P preserve text (tag (Bytes.ofString "/w:p"))).drop j) := by
  have htag : ∀ name ∈ ["/w:t", "/w:r", "/w:p"], '<'.toUInt8 ∉ Bytes.ofString name ∧
      ¬ StartsToken runStart (tag (Bytes.ofString name)) := by
    decide
  have hends : ∀ name ∈ ["/w:t", "/w:r", "/w:p"],
      Absent (StartsToken runStart) (tag (Bytes.ofString name)) := fun name h =>
    absent_token_tag tag_runStart (by decide) (htag name h).1 (htag name h).2
  have hrow := (hends "/w:t" (by simp)).append
    ((hends "/w:r" (by simp)).append (hends "/w:p" (by simp)))
  have hnode : Absent (StartsToken runStart) (textTag preserve ++ text) :=
    absent_textNode htext (by decide) (by decide)
  have hall : Absent (StartsToken runStart) (behindName P preserve text _) :=
    (hP.absent_cons (by decide)).append (hnode.append hrow)
  have hnone := (hall []).none_append (not_startsToken_nil runStart) j
  rwa [List.append_nil] at hnone

/-! ## All joins -/

/-- From within a text run on, all text runs up to the end of the paragraph are joined. -/
theorem run_row (hP : Quiet P) (others : List TextRun) (htext : Unbracketed text) (s : RunSweep)
    (inside : s.current? = some (textRun P))
    (hahead : s.cursor.ahead = behindName P preserve text
      (others.flatMap (TextRun.written P) ++ tag (Bytes.ofString "/w:p"))) :
    (runScan.run s).cursor.text = s.before ++ behindName P preserve
      (text ++ others.flatMap TextRun.text) (tag (Bytes.ofString "/w:p")) := by
  induction others generalizing text s with
  | nil =>
    rw [List.flatMap_nil, List.nil_append] at hahead
    have hjoin := s.join_eq (textRun P)
    rw [hahead, cut?_end hP htext] at hjoin
    obtain ⟨t, hleave, hleaves⟩ := hjoin
    obtain ⟨ws, rfl⟩ := hleaves.leaves
    have hnext : runScan.next s = s.join (textRun P) := by simp only [runScan, inside]
    rw [Scan.run_of_more (hnext.trans hleave), List.flatMap_nil, List.append_nil, ← hahead]
    -- The run is left, and there is no further one.
    have hnone : ∀ j, ¬ StartsToken runStart (s.cursor.ahead.drop j) := by
      rw [hahead]
      exact not_startsToken_end hP htext
    rcases RunSweep.enter_cases { s with warnings := ws, current? := none } rfl with
      ⟨-, hdone⟩ | ⟨front, ahead, hfound, -⟩
    · rw [Scan.run_of_done hdone]
      rfl
    · exact absurd hfound.startsToken (hnone _)
  | cons r others ih =>
    rw [List.flatMap_cons, List.append_assoc] at hahead
    -- The join leaves a text run at the same place, with a longer text.
    obtain ⟨c, hcut, hrest⟩ := cut?_behindName hP htext r
    have hjoin := s.join_eq (textRun P)
    rw [hahead, hcut] at hjoin
    have hnext : runScan.next s = s.join (textRun P) := by simp only [runScan, inside]
    have hrow := ih (htext.append r.plain)
      { s with cursor := ⟨s.cursor.behind, c.rest⟩, count := s.count + 1 } inside hrest
    rw [Scan.run_of_more (hnext.trans hjoin), hrow, List.flatMap_cons, List.append_assoc]
    rfl

/-- A paragraph of text runs with the same properties ends up as a paragraph of one run. Its
    text node starts like the first one. -/
theorem joinRuns_row (hP : Quiet P) (first : TextRun) (others : List TextRun) :
    (joinRuns (tag (Bytes.ofString "w:p") ++ ((first :: others).flatMap (TextRun.written P) ++
      tag (Bytes.ofString "/w:p")))).text =
    tag (Bytes.ofString "w:p") ++ (tag (Bytes.ofString "w:r") ++ (P ++ (textTag first.preserve ++
      ((first :: others).flatMap TextRun.text ++ (tag (Bytes.ofString "/w:t") ++
        (tag (Bytes.ofString "/w:r") ++ tag (Bytes.ofString "/w:p"))))))) := by
  have hstart : ∀ text more, tag (Bytes.ofString "w:p") ++ (tag (Bytes.ofString "w:r") ++ (P ++
      (textTag first.preserve ++ (text ++ (tag (Bytes.ofString "/w:t") ++
        (tag (Bytes.ofString "/w:r") ++ more)))))) =
      tag (Bytes.ofString "w:p") ++ runStart ++ behindName P first.preserve text more := by
    intro text more
    rw [show tag (Bytes.ofString "w:r") = runStart ++ ['>'.toUInt8] by decide]
    simp only [behindName, List.append_assoc, List.cons_append, List.nil_append]
  rw [List.flatMap_cons, List.flatMap_cons, TextRun.written]
  simp only [List.append_assoc]
  rw [hstart, ← List.append_assoc first.text, hstart]
  -- The first run is entered, and from there on all others are joined to it.
  have hfound : RunIn (tag (Bytes.ofString "w:p") ++ runStart ++ behindName P first.preserve
      first.text (others.flatMap (TextRun.written P) ++ tag (Bytes.ofString "/w:p")))
      (tag (Bytes.ofString "w:p")) _ := ⟨rfl, '>'.toUInt8, rfl, by decide⟩
  have hclear : Absent (StartsToken runStart) (tag (Bytes.ofString "w:p")) :=
    absent_token_tag tag_runStart (by decide) (by decide) (by decide)
  have henter := RunSweep.enter_eq (s := { toSweep := Sweep.ofText _ }) rfl hfound
    (by rw [List.append_assoc]; exact hclear _) (openRun?_behindName hP)
  have hnext : runScan.next { toSweep := Sweep.ofText _ } = _ := henter
  rw [joinRuns, Scan.run_of_more hnext]
  exact run_row hP others first.plain _ rfl rfl

end

end DocxTemplate.Sanitize
