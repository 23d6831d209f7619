import Mathlib.Algebra.GroupWithZero.Nat
import Mathlib.Data.List.SplitBy
import DocxTemplate.Proofs.Sanitize.Segments

/-! # The run pass as a grouping of runs

    On a text put together from segments the run pass joins groups of neighbours:

    * `Segment.adjoins`: two text runs are joined if they open alike and nothing stands behind
      the text of the first one.
    * `Segment.merged`: each longest row of such neighbours becomes one run.
    * `run_segments`: from outside a run, and from within one, the pass does just that.
    * `joinRuns_textOf`: so its result is the text of the merged segments.
-/

namespace DocxTemplate.Sanitize

/-! ## Rows of neighbours -/

section

variable {α : Type} {r : α → α → Bool} {a b : α} {l g : List α} {gs : List (List α)}

theorem exists_splitBy_cons : ∃ g gs, (b :: l).splitBy r = (b :: g) :: gs := by
  cases hsplit : (b :: l).splitBy r with
  | nil => exact absurd hsplit (by simp)
  | cons first gs =>
    have hflat := List.flatten_splitBy r (b :: l)
    rw [hsplit, List.flatten_cons] at hflat
    cases first with
    | nil => exact absurd (by simp [hsplit]) (List.nil_notMem_splitBy r (b :: l))
    | cons c g =>
      rw [List.cons_append, List.cons.injEq] at hflat
      exact ⟨g, gs, by rw [hflat.1]⟩

/-- A first element that is related to the next one belongs to its row. -/
theorem splitBy_cons_of_rel (hsplit : (b :: l).splitBy r = (b :: g) :: gs) (h : r a b = true) :
    (a :: b :: l).splitBy r = (a :: b :: g) :: gs := by
  obtain ⟨hflat, hnil, hrows, hends⟩ := List.splitBy_eq_iff.1 hsplit
  refine List.splitBy_eq_iff.2 ⟨?_, ?_, ?_, ?_⟩
  · rw [List.flatten_cons, List.cons_append, hflat, List.flatten_cons]
  · rw [List.mem_cons, not_or] at hnil ⊢
    exact ⟨by simp, hnil.2⟩
  · intro row hrow
    rcases List.mem_cons.1 hrow with rfl | hrow
    · exact List.isChain_cons_cons.2 ⟨h, hrows _ List.mem_cons_self⟩
    · exact hrows row (List.mem_cons_of_mem _ hrow)
  · rw [List.isChain_cons] at hends ⊢
    refine ⟨fun next hnext => ?_, hends.2⟩
    obtain ⟨ha, hb, hrel⟩ := hends.1 next hnext
    exact ⟨by simp, hb, by rwa [List.getLast_cons ha]⟩

/-- A first element can be exchanged for one that is related to the same elements. -/
theorem splitBy_cons_congr (hsplit : (b :: l).splitBy r = (b :: g) :: gs) (h : r a = r b) :
    (a :: l).splitBy r = (a :: g) :: gs := by
  obtain ⟨hflat, hnil, hrows, hends⟩ := List.splitBy_eq_iff.1 hsplit
  rw [List.flatten_cons, List.cons_append, List.cons.injEq] at hflat
  refine List.splitBy_eq_iff.2 ⟨?_, ?_, ?_, ?_⟩
  · rw [List.flatten_cons, List.cons_append, ← hflat.2]
  · rw [List.mem_cons, not_or] at hnil ⊢
    exact ⟨by simp, hnil.2⟩
  · intro row hrow
    rcases List.mem_cons.1 hrow with rfl | hrow
    · have hfirst := hrows _ List.mem_cons_self
      rw [List.isChain_cons] at hfirst ⊢
      exact ⟨fun c hc => by rw [h]; exact hfirst.1 c hc, hfirst.2⟩
    · exact hrows row (List.mem_cons_of_mem _ hrow)
  · rw [List.isChain_cons] at hends ⊢
    refine ⟨fun next hnext => ?_, hends.2⟩
    obtain ⟨_, hb, hrel⟩ := hends.1 next hnext
    refine ⟨by simp, hb, ?_⟩
    cases g with
    | nil => rwa [List.getLast_singleton, h]
    | cons c g => rwa [List.getLast_cons (by simp)] at hrel ⊢

end

/-! ## Merging -/

namespace NodeRun

/-- The run that takes in the texts of others: it opens as before and ends like the last. -/
def absorb (r : NodeRun) (others : List NodeRun) : NodeRun :=
  { r with
    text := r.text ++ others.flatMap NodeRun.text
    tail := (others.getLast?.getD r).tail
    plain := by
      rw [List.mem_append, List.mem_flatMap, not_or]
      exact ⟨r.plain, fun ⟨other, _, hother⟩ => other.plain hother⟩
    closed := fun token h => (others.getLast?.getD r).closed token h }

variable (r next : NodeRun) (others : List NodeRun)

@[simp] theorem absorb_nil : r.absorb [] = r := by
  simp [absorb]

theorem absorb_absorb : (r.absorb [next]).absorb others = r.absorb (next :: others) := by
  cases others with
  | nil => simp
  | cons other others => simp [absorb, List.getLast?_cons]

@[simp] theorem opening_absorb : (r.absorb others).opening = r.opening := rfl

theorem ahead_absorb (more : Bytes) : (r.absorb [next]).ahead more =
    r.lead ++ (r.node ++ (next.text ++ next.closing more)) := by
  simp [absorb, ahead, node, closing]

end NodeRun

namespace Segment

/-- Whether a segment is joined to the one before it. -/
def adjoins : Segment → Segment → Bool
  | text r, text next => decide (r.tail = [] ∧ r.opening = next.opening)
  | _, _ => false

/-- The run of a segment that is a run with a text node. -/
def node? : Segment → Option NodeRun
  | text run => some run
  | _ => none

/-- What becomes of a row of neighbours: its first run takes in the others. -/
def merge : List Segment → List Segment
  | text first :: others => [text (first.absorb (others.filterMap node?))]
  | group => group

/-- The longest rows of neighbours that are joined. -/
def groups (segments : List Segment) : List (List Segment) := segments.splitBy adjoins

/-- The segments with each group merged. -/
def merged (segments : List Segment) : List Segment := (groups segments).flatMap merge

/-- The number of runs that are taken in by another. -/
def absorbed (segments : List Segment) : Nat :=
  ((groups segments).map fun group => group.length - 1).sum

variable {segments : List Segment} {segment : Segment} {r next : NodeRun}

theorem adjoins_text_iff :
    adjoins (text r) (text next) = true ↔ r.tail = [] ∧ r.opening = next.opening :=
  decide_eq_true_iff

/-- A segment that the next one is not joined to is a group of its own. -/
theorem groups_cons (h : ∀ next ∈ segments.head?, adjoins segment next = false) :
    groups (segment :: segments) = [segment] :: groups segments := by
  have hsplit := List.splitBy_append (r := adjoins) (l := [segment]) (m := segments)
    (by simpa using h)
  simpa [groups, List.splitBy, List.splitBy.loop] using hsplit

theorem merge_singleton : merge [segment] = [segment] := by
  cases segment with
  | text run => simp [merge]
  | textless run => rfl
  | empty => rfl
  | data other => rfl

theorem merged_cons (h : ∀ next ∈ segments.head?, adjoins segment next = false) :
    merged (segment :: segments) = segment :: merged segments ∧
      absorbed (segment :: segments) = absorbed segments := by
  rw [merged, absorbed, groups_cons h, List.flatMap_cons, merge_singleton]
  exact ⟨rfl, by simp [absorbed]⟩

/-- A run is merged with the next one before both are with the others. -/
theorem merged_text_cons (h : adjoins (text r) (text next) = true) :
    merged (text r :: text next :: segments) = merged (text (r.absorb [next]) :: segments) ∧
      absorbed (text r :: text next :: segments) =
        absorbed (text (r.absorb [next]) :: segments) + 1 := by
  obtain ⟨hnil, hopening⟩ := adjoins_text_iff.1 h
  have hsame : adjoins (text (r.absorb [next])) = adjoins (text next) := by
    funext other
    cases other with
    | text other =>
      simp only [adjoins, NodeRun.opening_absorb, hopening]
      rfl
    | textless other => rfl
    | empty => rfl
    | data other => rfl
  obtain ⟨g, gs, hsplit⟩ := exists_splitBy_cons (b := text next) (l := segments) (r := adjoins)
  have hboth := splitBy_cons_of_rel hsplit h
  have hone := splitBy_cons_congr hsplit hsame
  constructor
  · rw [merged, merged, groups, groups, hboth, hone, List.flatMap_cons, List.flatMap_cons, merge,
      merge, List.filterMap_cons_some (show node? (text next) = some next from rfl),
      NodeRun.absorb_absorb]
  · rw [absorbed, absorbed, groups, groups, hboth, hone]
    simp only [List.map_cons, List.sum_cons, List.length_cons]
    omega

/-- Where no neighbours are joined nothing is merged. -/
theorem merged_eq_self (h : segments.IsChain fun left right => adjoins left right = false) :
    merged segments = segments ∧ absorbed segments = 0 := by
  induction segments with
  | nil => exact ⟨rfl, rfl⟩
  | cons segment segments ih =>
    rw [List.isChain_cons] at h
    obtain ⟨hmerged, habsorbed⟩ := merged_cons h.1
    rw [hmerged, habsorbed, (ih h.2).1]
    exact ⟨rfl, (ih h.2).2⟩

/-- Nor is anything where no text node starts. -/
theorem isChain_of_free (h : Free textStart (textOf segments)) :
    segments.IsChain fun left right => adjoins left right = false := by
  induction segments with
  | nil => exact List.isChain_nil
  | cons segment segments ih =>
    refine List.isChain_cons.2 ⟨fun next _ => ?_, ih fun j => ?_⟩
    · cases segment with
      | text run =>
        rw [textOf_cons, written, run.written_append] at h
        refine absurd (run.firstAt_textStart (textOf segments)).1 ?_
        have hahead : run.ahead (textOf segments) =
            (runStart ++ run.ahead (textOf segments)).drop runStart.length := List.drop_left.symm
        rw [hahead, List.drop_drop]
        exact h _
      | textless run => rfl
      | empty => rfl
      | data other => rfl
    · have hdrop := h (segment.written.length + j)
      rwa [textOf_cons, ← List.drop_drop, List.drop_left] at hdrop

end Segment

/-! ## One join -/

namespace NodeRun

variable (r : NodeRun)

theorem joint_openRun : r.openRun.joint =
    tag (Bytes.ofString "/w:t") ++ (tag (Bytes.ofString "/w:r") ++ r.opening) := by
  rw [show tag (Bytes.ofString "/w:t") = textEnd ++ ['>'.toUInt8] by decide,
    show tag (Bytes.ofString "/w:r") = runEnd ++ ['>'.toUInt8] by decide]
  simp only [OpenRun.joint, openRun, List.append_assoc, List.cons_append, List.nil_append]

theorem drop_ahead (more : Bytes) :
    (r.ahead more).drop (r.lead.length + r.node.length) = r.closing more := by
  rw [ahead, ← List.drop_drop, List.drop_left, List.drop_left]

/-- The end of the run lies behind its text. -/
theorem le_runEnd : r.lead.length + r.node.length ≤
    (r.lead ++ (r.node ++ (tag (Bytes.ofString "/w:t") ++ r.tail))).length := by
  simp only [List.length_append]
  omega

/-- A run with nothing behind its text takes in the next one if that opens alike. -/
theorem cut?_ahead {next : NodeRun} (hnil : r.tail = []) (hopening : r.opening = next.opening)
    (more : Bytes) : ∃ c, r.openRun.cut? (r.ahead (next.written ++ more)) = some c ∧
      c.rest = (r.absorb [next]).ahead more := by
  have hdrop : (r.ahead (next.written ++ more)).drop (r.lead.length + r.node.length) =
      r.openRun.joint ++ (next.attributes ++ '>'.toUInt8 :: (next.text ++ next.closing more)) := by
    rw [drop_ahead, closing, hnil, joint_openRun, hopening]
    simp only [written, closing, List.append_assoc, List.nil_append, List.cons_append]
  have hclose := r.firstAt_runEnd (next.written ++ more)
  have hending := r.firstAt_textEnd (next.written ++ more)
  have hrun : ¬ (tokenIndex? runStart ((r.ahead (next.written ++ more)).drop r.lead.length)).any
      (· < r.node.length) := by
    intro hany
    rw [Option.any_eq_true] at hany
    obtain ⟨i, hi, hlt⟩ := hany
    have hstarts := ((tokenIndex?_eq_some_iff tag_runStart.distinct).1 hi).1
    rw [List.drop_drop] at hstarts
    exact r.not_startsToken_ahead _ (by decide) (by decide)
      (Nat.add_lt_add_left (of_decide_eq_true hlt) _) hstarts
  obtain ⟨b, rest, hb, hends⟩ := next.opensOrEnds_attributes (next.text ++ next.closing more)
  have hjoint : (r.openRun.joint.isPrefixOf (r.openRun.joint ++
      (next.attributes ++ '>'.toUInt8 :: (next.text ++ next.closing more))) &&
      (next.attributes ++ '>'.toUInt8 :: (next.text ++ next.closing more)).head?.any
        opensOrEnds) = true := by
    rw [Bool.and_eq_true, List.isPrefixOf_iff_prefix, hb]
    exact ⟨List.prefix_append _ _, hends⟩
  unfold OpenRun.cut?
  rw [(tokenIndex?_eq_some_iff tag_runEnd.distinct).2 hclose,
    show r.openRun.textAt = r.lead.length from rfl,
    (tokenIndex?_eq_some_iff tag_textEnd.distinct).2 hending]
  dsimp only
  rw [if_neg (not_or.2 ⟨Nat.not_lt.2 r.le_runEnd, hrun⟩), hdrop, List.drop_left, if_pos hjoint,
    Bytes.indexOf?_singleton_append next.bare.2]
  refine ⟨_, rfl, ?_⟩
  dsimp only [Cut.rest]
  rw [ahead_absorb, ← List.drop_drop, List.drop_left, List.drop_succ_cons, List.drop_zero,
    ahead, List.take_add, List.take_left, List.drop_left, List.take_left]
  simp only [List.append_assoc]

end NodeRun

/-- A run that the next segment is not joined to is left without a warning. -/
theorem join_eq_leave {s : RunSweep} {r : NodeRun} {segments : List Segment}
    (happart : Segment.Apart segments)
    (hnot : ∀ next ∈ segments.head?, (Segment.text r).adjoins next = false)
    (hahead : s.cursor.ahead = r.ahead (textOf segments)) : s.join r.openRun = .more s.leave := by
  refine RunSweep.join_of_apart (hahead ▸ r.firstAt_runEnd _) (hahead ▸ r.firstAt_textEnd _)
    r.le_runEnd ?_ ?_
  · intro j hj
    rw [hahead, List.drop_drop]
    exact r.not_startsToken_ahead _ (by decide) (by decide) (Nat.add_lt_add_left hj _)
  · intro b rest hjoint
    rw [hahead, show r.openRun.textAt = r.lead.length from rfl, r.drop_ahead, r.joint_openRun,
      NodeRun.closing, List.append_assoc, List.append_assoc] at hjoint
    have hbehind := List.append_cancel_left hjoint
    by_contra hends
    rw [Bool.not_eq_false] at hends
    -- A tail would have to begin with the end of the run.
    have hnil : r.tail = [] := by
      by_contra htail
      have hclear :
          Clear (StartsToken runEnd) r.tail (tag (Bytes.ofString "/w:r") ++ textOf segments) :=
        (r.closed runEnd (by decide)).clear tag_runEnd (borders_tag _)
      refine hclear 0 (List.length_pos_of_ne_nil htail) ?_
      rw [List.drop_zero, hbehind, startsToken_tag_iff (by decide)]
      decide
    rw [hnil, List.nil_append] at hbehind
    obtain ⟨next, others, rfl, hopening⟩ :=
      Segment.opening_of_prefix happart r (List.append_cancel_left hbehind) hends
    have hadjoins := hnot (.text next) rfl
    rw [Segment.adjoins_text_iff.2 ⟨hnil, hopening.symm⟩] at hadjoins
    exact absurd hadjoins (by simp)

/-! ## Runs without text -/

/-- The pass goes on behind the `<w:r` of a run that it does not enter or leaves at once, or it
    ends there because no text node starts in `more`. -/
def Passes (s : RunSweep) (front ahead more : Bytes) : Prop :=
  runScan.run s = runScan.run (s.behindRun front ahead none) ∨
    runScan.run s = s.behindRun front ahead none ∧ Free textStart more

section

variable {s : RunSweep} {front rest more : Bytes}

/-- The first run of a text is passed if no text node starts in it and the pass leaves it
    without a warning. -/
theorem passes_of_leaves (outside : s.current? = none)
    (found : RunIn s.cursor.ahead front (rest ++ more))
    (first : ∀ j < front.length, ¬ StartsToken runStart (s.cursor.ahead.drop j))
    (leaves : ∀ run, openRun? (rest ++ more) = some run →
      (s.behindRun front (rest ++ more) (some run)).join run =
        .more (s.behindRun front (rest ++ more) none)) :
    Passes s front (rest ++ more) more := by
  have hnext : runScan.next s = s.enter := by simp only [runScan, outside]
  rcases RunSweep.enter_cases_of_found outside found first with
    ⟨-, henter⟩ | ⟨hnone, henter⟩ | ⟨run, hopen, henter⟩
  · exact Or.inl (Scan.run_of_more (hnext.trans henter))
  · refine Or.inr ⟨Scan.run_of_done (hnext.trans henter), fun j => ?_⟩
    have hdrop := hnone (rest.length + j)
    rwa [← List.drop_drop, List.drop_left] at hdrop
  · left
    rw [Scan.run_of_more (hnext.trans henter)]
    exact Scan.run_of_more (leaves run hopen)

/-- A run is passed if it ends before a text node starts. -/
theorem passes_textless {inner : Bytes} (outside : s.current? = none)
    (found : RunIn s.cursor.ahead front (inner ++ tag (Bytes.ofString "/w:r") ++ more))
    (first : ∀ j < front.length, ¬ StartsToken runStart (s.cursor.ahead.drop j))
    (textless : Free textStart inner) :
    Passes s front (inner ++ tag (Bytes.ofString "/w:r") ++ more) more := by
  refine passes_of_leaves outside found first fun run hopen => ?_
  rw [List.append_assoc] at hopen ⊢
  -- The run ends at the end tag or before it, and the text node starts behind it.
  have hend : StartsToken runEnd
      ((inner ++ (tag (Bytes.ofString "/w:r") ++ more)).drop inner.length) := by
    rw [List.drop_left]
    exact (startsToken_tag_iff (by decide)).2 (by decide)
  obtain ⟨close, hclose⟩ : ∃ close, FirstAt (StartsToken runEnd)
      (inner ++ (tag (Bytes.ofString "/w:r") ++ more)) close := by
    cases hclose : tokenIndex? runEnd (inner ++ (tag (Bytes.ofString "/w:r") ++ more)) with
    | none => exact absurd hend ((tokenIndex?_eq_none_iff tag_runEnd.distinct).1 hclose _)
    | some close => exact ⟨close, (tokenIndex?_eq_some_iff tag_runEnd.distinct).1 hclose⟩
  have htext := (openRun?_eq_some_iff.1 hopen).2.1.1
  have hlt : inner.length < run.textAt := by
    rcases Nat.lt_trichotomy run.textAt inner.length with hlt | heq | hgt
    · exact absurd htext (textless.clear tag_textStart (borders_tag _) _ hlt)
    · rw [heq] at htext
      exact (hend.not_both htext (by decide)).elim
    · exact hgt
  exact RunSweep.join_of_closed hclose (Nat.lt_of_le_of_lt (hclose.le_of_holds hend) hlt)

/-- A run written as an empty tag is not entered. -/
theorem passes_empty (outside : s.current? = none)
    (found : RunIn s.cursor.ahead front (Bytes.ofString "/>" ++ more))
    (first : ∀ j < front.length, ¬ StartsToken runStart (s.cursor.ahead.drop j)) :
    Passes s front (Bytes.ofString "/>" ++ more) more := by
  refine passes_of_leaves outside found first fun run hopen => ?_
  exact absurd (List.prefix_append _ _) (openRun?_eq_some_iff.1 hopen).1

end

/-! ## All segments -/

/-- From a sweep on, the pass ends with this text, after so many more joins and without a
    further warning. -/
def Finishes (s : RunSweep) (text : Bytes) (joins : Nat) : Prop :=
  (runScan.run s).toPass = { text, count := s.count + joins, warnings := s.warnings }

/-- From outside a run the pass merges the segments ahead, whatever it has found no run in. -/
def MergesOutside (segments : List Segment) : Prop :=
  ∀ (s : RunSweep) (front : Bytes), s.current? = none →
    s.cursor.ahead = front ++ textOf segments →
    Clear (StartsToken runStart) front (textOf segments) →
    Finishes s (s.before ++ (front ++ textOf (Segment.merged segments)))
      (Segment.absorbed segments)

/-- From within a run the pass merges it with the segments ahead. -/
def MergesInside (segments : List Segment) : Prop :=
  ∀ (s : RunSweep) (front : Bytes) (r : NodeRun), s.current? = some r.openRun →
    s.before = front ++ runStart → s.cursor.ahead = r.ahead (textOf segments) →
    Finishes s (front ++ textOf (Segment.merged (.text r :: segments)))
      (Segment.absorbed (.text r :: segments))

section

variable {segments : List Segment}

/-- Behind the last run nothing is left to do. -/
theorem mergesOutside_nil : MergesOutside [] := by
  intro s front outside hahead hclear
  rw [textOf_nil, List.append_nil] at hahead
  have hnone : ∀ j, ¬ StartsToken runStart (s.cursor.ahead.drop j) := by
    intro j
    have := hclear.none_append (not_startsToken_nil runStart) j
    rwa [textOf_nil, List.append_nil, ← hahead] at this
  have hnext : runScan.next s = s.enter := by simp only [runScan, outside]
  rcases s.enter_cases outside with ⟨-, hdone⟩ | ⟨front', ahead, hfound, -⟩
  · rw [Finishes, Scan.run_of_done (hnext.trans hdone), Sweep.toPass, s.text_eq, hahead]
    simp [Segment.merged, Segment.absorbed, Segment.groups]
  · exact absurd hfound.startsToken (hnone _)

/-- Data is passed over. -/
theorem MergesOutside.data {other : Data} (h : MergesOutside segments)
    (happart : Segment.Apart (.data other :: segments)) :
    MergesOutside (.data other :: segments) := by
  intro s front outside hahead hclear
  have hother : ∀ next ∈ segments.head?, (Segment.data other).adjoins next = false :=
    fun _ _ => rfl
  obtain ⟨hmerged, habsorbed⟩ := Segment.merged_cons hother
  rw [textOf_cons, ← List.append_assoc] at hahead
  have hfront : Clear (StartsToken runStart) (front ++ other.bytes) (textOf segments) :=
    hclear.append (happart.clear (by decide))
  rw [hmerged, habsorbed, textOf_cons, ← List.append_assoc front]
  exact h s _ outside hahead hfront

/-- Before a run that is passed the pass finishes as from behind its `<w:r`. -/
theorem finishes_of_passes {s : RunSweep} {front rest : Bytes}
    (found : RunIn s.cursor.ahead front (rest ++ textOf segments))
    (passes : Passes s front (rest ++ textOf segments) (textOf segments))
    (behind : Finishes (s.behindRun front (rest ++ textOf segments) none)
      (s.before ++ front ++ runStart ++ (rest ++ textOf (Segment.merged segments)))
      (Segment.absorbed segments)) :
    Finishes s (s.before ++ (front ++ (runStart ++ (rest ++ textOf (Segment.merged segments)))))
      (Segment.absorbed segments) := by
  rcases passes with hrun | ⟨hdone, hfree⟩
  · rw [Finishes, ← hrun] at behind
    rw [Finishes, behind]
    simp only [RunSweep.count_behindRun, List.append_assoc]
    rfl
  · -- No text node starts any more, so nothing is merged.
    obtain ⟨hmerged, habsorbed⟩ := Segment.merged_eq_self (Segment.isChain_of_free hfree)
    rw [Finishes, hdone, hmerged, habsorbed, Sweep.toPass, RunSweep.text_behindRun none found,
      s.text_eq, found.1]
    simp only [RunSweep.count_behindRun, List.append_assoc, Nat.add_zero]
    rfl

/-- In what is left of a textless run every further run is passed. -/
theorem MergesOutside.behind (h : MergesOutside segments) (inner : Bytes)
    (textless : Free textStart inner) (s : RunSweep) (outside : s.current? = none)
    (hahead : s.cursor.ahead = inner ++ tag (Bytes.ofString "/w:r") ++ textOf segments) :
    Finishes s (s.before ++ (inner ++ tag (Bytes.ofString "/w:r") ++
      textOf (Segment.merged segments))) (Segment.absorbed segments) := by
  induction hn : inner.length using Nat.strong_induction_on generalizing inner s with
  | _ n ih =>
    subst hn
    have hend : StartsToken runEnd (s.cursor.ahead.drop inner.length) := by
      rw [hahead, List.append_assoc, List.drop_left]
      exact (startsToken_tag_iff (by decide)).2 (by decide)
    by_cases hrun : ∃ i, FirstAt (StartsToken runStart) s.cursor.ahead i ∧ i < inner.length
    · obtain ⟨i, ⟨hstarts, hfirst⟩, hi⟩ := hrun
      have hlt : i + 4 < inner.length := by
        have := hstarts.add_lt tag_runStart tag_runEnd hend hi
        rwa [length_runStart] at this
      have hfound := runIn_of_startsToken hstarts
      have htake : s.cursor.ahead.take i = inner.take i := by
        rw [hahead, List.append_assoc, List.take_append_of_le_length (by omega)]
      have hdrop : s.cursor.ahead.drop (i + 4) =
          inner.drop (i + 4) ++ tag (Bytes.ofString "/w:r") ++ textOf segments := by
        rw [hahead, List.append_assoc, List.drop_append_of_le_length (by omega), List.append_assoc]
      rw [htake, hdrop] at hfound
      have hsplit : inner = inner.take i ++ (runStart ++ inner.drop (i + 4)) := by
        have hwhole := hfound.1
        simp only [hahead, ← List.append_assoc, List.append_cancel_right_eq] at hwhole
        rw [← List.append_assoc]
        exact hwhole
      have hfree : Free textStart (inner.drop (i + 4)) := by
        intro j
        rw [List.drop_drop]
        exact textless _
      have hbehind := ih (inner.drop (i + 4)).length (by rw [List.length_drop]; omega) _ hfree
        (s.behindRun (inner.take i) _ none) rfl rfl rfl
      rw [RunSweep.before_behindRun] at hbehind
      have hpass := finishes_of_passes hfound (passes_textless outside hfound
        (fun j hj => hfirst j (by rw [List.length_take] at hj; omega)) hfree) hbehind
      rw [hsplit]
      simpa only [List.append_assoc] using hpass
    · -- The rest of the run holds no run, and it is passed over as data is.
      have hinner : Clear (StartsToken runStart) inner
          (tag (Bytes.ofString "/w:r") ++ textOf segments) := by
        intro j hj hs
        rw [← List.append_assoc, ← hahead] at hs
        cases hi : tokenIndex? runStart s.cursor.ahead with
        | none => exact (tokenIndex?_eq_none_iff tag_runStart.distinct).1 hi j hs
        | some i =>
          have hfirst := (tokenIndex?_eq_some_iff tag_runStart.distinct).1 hi
          exact hrun ⟨i, hfirst, Nat.lt_of_le_of_lt (hfirst.le_of_holds hs) hj⟩
      have htag : Absent (StartsToken runStart) (tag (Bytes.ofString "/w:r")) :=
        absent_token_tag tag_runStart (by decide) (by decide) (by decide)
      exact h s _ outside hahead (hinner.append (htag _))

theorem MergesOutside.textless {x : TextlessRun} (h : MergesOutside segments) :
    MergesOutside (.textless x :: segments) := by
  intro s front outside hahead hclear
  have hother : ∀ next ∈ segments.head?, (Segment.textless x).adjoins next = false :=
    fun _ _ => rfl
  obtain ⟨hmerged, habsorbed⟩ := Segment.merged_cons hother
  obtain ⟨b, rest, hinner, hb⟩ := x.exists_inner
  have hfound : RunIn s.cursor.ahead front
      (x.inner ++ tag (Bytes.ofString "/w:r") ++ textOf segments) := by
    refine ⟨?_, b, by rw [hinner]; rfl, endsName_of_opensOrEnds hb⟩
    rw [hahead, textOf_cons, Segment.written]
    simp only [List.append_assoc]
  have hbehind := h.behind x.inner x.textless (s.behindRun front _ none) rfl rfl
  rw [RunSweep.before_behindRun] at hbehind
  have hpass := finishes_of_passes hfound
    (passes_textless outside hfound (by rw [hahead]; exact hclear) x.textless) hbehind
  rw [hmerged, habsorbed, textOf_cons, Segment.written]
  simpa only [List.append_assoc] using hpass

theorem MergesOutside.empty (h : MergesOutside segments) : MergesOutside (.empty :: segments) := by
  intro s front outside hahead hclear
  have hother : ∀ next ∈ segments.head?, Segment.empty.adjoins next = false := fun _ _ => rfl
  obtain ⟨hmerged, habsorbed⟩ := Segment.merged_cons hother
  have hwritten : ∀ more,
      Segment.written .empty ++ more = runStart ++ (Bytes.ofString "/>" ++ more) := fun _ => rfl
  have hfound : RunIn s.cursor.ahead front (Bytes.ofString "/>" ++ textOf segments) := by
    refine ⟨?_, '/'.toUInt8, rfl, by decide⟩
    rw [hahead, textOf_cons, hwritten, List.append_assoc]
  have hclose : Absent (StartsToken runStart) (Bytes.ofString "/>") :=
    absent_token_data tag_runStart (by decide)
  have hbehind := h (s.behindRun front _ none) (Bytes.ofString "/>") rfl rfl (hclose _)
  rw [RunSweep.before_behindRun] at hbehind
  rw [hmerged, habsorbed, textOf_cons, hwritten]
  exact finishes_of_passes hfound
    (passes_empty outside hfound (by rw [hahead]; exact hclear)) hbehind

/-- A run with a text node is entered. -/
theorem MergesInside.text {r : NodeRun} (h : MergesInside segments) :
    MergesOutside (.text r :: segments) := by
  intro s front outside hahead hclear
  have hfound : RunIn s.cursor.ahead front (r.ahead (textOf segments)) := by
    refine ⟨?_, r.nameEnds_ahead _⟩
    rw [hahead, textOf_cons, Segment.written, r.written_append, List.append_assoc]
  have henter := RunSweep.enter_eq outside hfound (by rw [hahead]; exact hclear)
    (r.openRun?_ahead _)
  have hnext : runScan.next s = s.enter := by simp only [runScan, outside]
  have hinside := h (s.behindRun front (r.ahead (textOf segments)) (some r.openRun))
    (s.before ++ front) r rfl (s.before_behindRun _ _ _) rfl
  rw [Finishes, Scan.run_of_more (hnext.trans henter), hinside, List.append_assoc]
  rfl

/-- From within a run the next one is taken in, or the run is left. -/
theorem MergesOutside.inside (happart : Segment.Apart segments) (h : MergesOutside segments)
    (joined : ∀ next others, segments = .text next :: others → MergesInside others) :
    MergesInside segments := by
  intro s front r inside hbefore hahead
  have hnext : runScan.next s = s.join r.openRun := by simp only [runScan, inside]
  by_cases hadjoins : ∃ next others, segments = .text next :: others ∧
      (Segment.text r).adjoins (.text next) = true
  · obtain ⟨next, others, rfl, hadjoins⟩ := hadjoins
    obtain ⟨hnil, hopening⟩ := Segment.adjoins_text_iff.1 hadjoins
    obtain ⟨c, hcut, hrest⟩ := r.cut?_ahead hnil hopening (textOf others)
    have hjoin := s.join_eq r.openRun
    rw [hahead, textOf_cons, Segment.written, hcut] at hjoin
    obtain ⟨hmerged, habsorbed⟩ :
        Segment.merged (.text r :: .text next :: others) =
            Segment.merged (.text (r.absorb [next]) :: others) ∧
          Segment.absorbed (.text r :: .text next :: others) =
            Segment.absorbed (.text (r.absorb [next]) :: others) + 1 :=
      Segment.merged_text_cons hadjoins
    have hinside := joined next others rfl
      { s with cursor := ⟨s.cursor.behind, c.rest⟩, count := s.count + 1 } front (r.absorb [next])
      inside hbefore hrest
    rw [Finishes, Scan.run_of_more (hnext.trans hjoin), hinside, hmerged, habsorbed]
    simp only [Nat.add_assoc, Nat.add_comm 1]
  · have hnot : ∀ next ∈ segments.head?, (Segment.text r).adjoins next = false := by
      intro segment hsegment
      obtain ⟨others, rfl⟩ : ∃ others, segments = segment :: others := by
        cases segments with
        | nil => simp at hsegment
        | cons first others => exact ⟨others, by simpa using hsegment⟩
      cases segment with
      | text next =>
        rw [← Bool.not_eq_true]
        exact fun h => hadjoins ⟨next, others, rfl, h⟩
      | textless run => rfl
      | empty => rfl
      | data other => rfl
    obtain ⟨hmerged, habsorbed⟩ := Segment.merged_cons hnot
    have hleave := join_eq_leave happart hnot hahead
    have houtside := h s.leave (r.ahead []) rfl (by rw [r.ahead_append]; exact hahead)
      (r.clear_ahead _)
    rw [Finishes, Scan.run_of_more (hnext.trans hleave), houtside, hmerged, habsorbed, textOf_cons,
      Segment.written, r.written_eq, show s.leave.before = s.before from rfl, hbefore]
    simp only [List.append_assoc]
    rfl

/-- The pass merges any segments ahead. -/
theorem run_segments (segments : List Segment) (happart : Segment.Apart segments) :
    MergesOutside segments ∧ MergesInside segments := by
  induction segments with
  | nil => exact ⟨mergesOutside_nil, mergesOutside_nil.inside happart fun _ _ h => by simp at h⟩
  | cons segment segments ih =>
    obtain ⟨houtside, hinside⟩ := ih happart.tail
    have hfirst : MergesOutside (segment :: segments) := by
      cases segment with
      | text r => exact hinside.text
      | textless x => exact houtside.textless
      | empty => exact houtside.empty
      | data other => exact houtside.data happart
    refine ⟨hfirst, hfirst.inside happart fun next others h => ?_⟩
    rw [(List.cons.inj h).2] at hinside
    exact hinside

end

/-- Joining runs merges each longest row of text runs that open alike, with nothing behind the
    text of any but the last, and changes nothing else. -/
theorem joinRuns_textOf (segments : List Segment) (happart : Segment.Apart segments) :
    joinRuns (textOf segments) =
      { text := textOf (Segment.merged segments), count := Segment.absorbed segments,
        collapsed := 0, warnings := [] } ∧
    ((segments.IsChain fun left right => left.adjoins right = false) →
      joinRuns (textOf segments) = { text := textOf segments }) := by
  have hall : joinRuns (textOf segments) =
      { text := textOf (Segment.merged segments), count := Segment.absorbed segments } := by
    have hrun := (run_segments segments happart).1 { toSweep := Sweep.ofText (textOf segments) } []
      rfl rfl clear_nil
    rw [Finishes] at hrun
    simpa [Sweep.ofText, RunSweep.before, Cursor.ofText, joinRuns] using hrun
  refine ⟨hall, fun hnone => ?_⟩
  obtain ⟨hmerged, habsorbed⟩ := Segment.merged_eq_self hnone
  rw [hall, hmerged, habsorbed]

/-- A run with nothing but a text node, whose tag has these attributes. -/
def bareRun (attributes text : Bytes)
    (spaced : attributes = [] ∨ attributes.head? = some 0x20)
    (bare : '<'.toUInt8 ∉ attributes ∧ '>'.toUInt8 ∉ attributes)
    (unclosed : attributes.getLast? ≠ some '/'.toUInt8) (plain : '<'.toUInt8 ∉ text) : NodeRun where
  lead := ['>'.toUInt8]
  attributes
  text
  tail := []
  opened := by decide
  single := by decide
  spaced
  bare
  unclosed
  plain
  closed := by decide

/-- Two runs that are joined, and a third one behind an empty run. -/
def sampleRow : List Segment :=
  [.text (bareRun [] (Bytes.ofString "a") (by decide) (by decide) (by decide) (by decide)),
    .text (bareRun (Bytes.ofString " xml:space=\"preserve\"") (Bytes.ofString " b") (by decide)
      (by decide) (by decide) (by decide)),
    .empty,
    .text (bareRun [] (Bytes.ofString "c") (by decide) (by decide) (by decide) (by decide))]

theorem joinRuns_sampleRow : Segment.Apart sampleRow ∧ joinRuns (textOf sampleRow) =
    { text := Bytes.ofString "<w:r><w:t>a b</w:t></w:r><w:r/><w:r><w:t>c</w:t></w:r>",
      count := 1 } ∧
    joinRuns (textOf (sampleRow.drop 1)) = { text := textOf (sampleRow.drop 1) } :=
  ⟨by decide +kernel, (joinRuns_textOf sampleRow (by decide +kernel)).1.trans (by decide +kernel),
    (joinRuns_textOf (sampleRow.drop 1) (by decide +kernel)).2 (by decide +kernel)⟩

end DocxTemplate.Sanitize
