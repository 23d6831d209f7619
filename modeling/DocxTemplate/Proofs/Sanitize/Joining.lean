import Mathlib.Data.List.Basic
import Mathlib.Tactic.ByContra
import DocxTemplate.Proofs.Sanitize.Token
import DocxTemplate.Sanitize.Runs

/-! # One join

    What a step of the run pass does, apart from its place in the scan:

    * `Cut`: a span taken out of a text, with what stands before and behind it.
    * `OpenRun.cut?`: the cut that joins the next run to the current one.
    * `RunSweep.join_eq`: a step inside a run makes that cut, or leaves the run.
    * `JoinsAt`: where a cut is made, said with positions instead of the search. It
      depends on the text up to the second text node only (`JoinsAt.congr_front`).
-/

namespace DocxTemplate.Sanitize

/-! ## The four tokens -/

@[simp] theorem length_runStart : runStart.length = 4 := by decide

@[simp] theorem length_runEnd : runEnd.length = 5 := by decide

@[simp] theorem length_textStart : textStart.length = 4 := by decide

@[simp] theorem length_textEnd : textEnd.length = 5 := by decide

theorem tag_runStart : Tag runStart := ⟨_, rfl, by decide⟩

theorem tag_runEnd : Tag runEnd := ⟨_, rfl, by decide⟩

theorem tag_textStart : Tag textStart := ⟨_, rfl, by decide⟩

theorem tag_textEnd : Tag textEnd := ⟨_, rfl, by decide⟩

/-- No text starts with two tokens neither of which begins the other. -/
theorem StartsToken.not_both {first second text : Bytes} (hfirst : StartsToken first text)
    (hsecond : StartsToken second text) (h : ¬ first <+: second ∧ ¬ second <+: first) : False := by
  rcases Nat.le_total first.length second.length with hle | hle
  · exact h.1 (List.prefix_of_prefix_length_le hfirst.prefix_of hsecond.prefix_of hle)
  · exact h.2 (List.prefix_of_prefix_length_le hsecond.prefix_of hfirst.prefix_of hle)

/-! ## Cuts -/

/-- A span taken out of a text. -/
structure Cut where
  before : Bytes
  removed : Bytes
  after : Bytes
  deriving DecidableEq, Repr

namespace Cut

/-- The text with the span in it. -/
def whole (c : Cut) : Bytes := c.before ++ c.removed ++ c.after

/-- The text without the span. -/
def rest (c : Cut) : Bytes := c.before ++ c.after

/-- The same cut in a longer text. -/
def behind (front : Bytes) (c : Cut) : Cut := { c with before := front ++ c.before }

@[simp] theorem whole_behind (front : Bytes) (c : Cut) :
    (c.behind front).whole = front ++ c.whole := by
  simp [behind, whole]

@[simp] theorem rest_behind (front : Bytes) (c : Cut) :
    (c.behind front).rest = front ++ c.rest := by
  simp [behind, rest]

end Cut

/-- The run that a text opens behind its `<w:r`, if it is entered. -/
def openRun? (ahead : Bytes) : Option OpenRun :=
  if Bytes.opensWith "/>" ahead then none
  else (tokenIndex? textStart ahead).map fun t =>
    ⟨runStart ++ ahead.take (t + textStart.length), t⟩

namespace OpenRun

/-- The cut that joins the next run to this one. -/
def cut? (run : OpenRun) (ahead : Bytes) : Option Cut :=
  match tokenIndex? runEnd ahead, tokenIndex? textEnd (ahead.drop run.textAt) with
  | some close, some ending =>
    let cutAt := run.textAt + ending
    let next := (ahead.drop cutAt).drop run.joint.length
    if close < cutAt ∨ (tokenIndex? runStart (ahead.drop run.textAt)).any (· < ending) then none
    else if run.joint.isPrefixOf (ahead.drop cutAt) && next.head?.any opensOrEnds then
      (Bytes.indexOf? ['>'.toUInt8] next).map fun g =>
        ⟨ahead.take cutAt, run.joint ++ next.take (g + 1), next.drop (g + 1)⟩
    else none
  | _, _ => none

end OpenRun

namespace RunSweep

/-- A run is left with what was removed so far, and perhaps with a warning. -/
def Leaves (s t : RunSweep) : Prop :=
  ∃ ws, t = { s with warnings := ws, current? := none }

/-- The warnings with which a run may be left. -/
inductive LeaveWarning (s : RunSweep) (run : OpenRun) : Warning → Prop where
  /-- The run has no end tag. -/
  | run : LeaveWarning s run (.unclosedRun (s.cursor.offset - runStart.length))
  /-- Its text node has no end tag, or a run starts in it. -/
  | text : LeaveWarning s run (.unclosedText (s.cursor.offset + run.textAt))
  /-- The text tag of the next run has no end. The place is the one behind its name. -/
  | tag {cutAt next} (joined : s.cursor.ahead.drop cutAt = run.joint ++ next)
      (ends : next.head?.any opensOrEnds = true) :
      LeaveWarning s run (.unclosedTag "<w:t" (s.cursor.offset + cutAt + run.joint.length))

/-- A run is left as it is, or with one of these warnings. -/
def LeavesWith (s : RunSweep) (run : OpenRun) (t : RunSweep) : Prop :=
  t = s.leave ∨ ∃ w, s.LeaveWarning run w ∧ t = s.leaveWith fun _ => w

theorem LeavesWith.leaves {s t : RunSweep} {run : OpenRun} (h : s.LeavesWith run t) :
    s.Leaves t := by
  rcases h with rfl | ⟨w, -, rfl⟩
  · exact ⟨s.warnings, rfl⟩
  · exact ⟨s.warnings ++ [w], rfl⟩

/-- Inside a run a step makes the cut that joins the next run, or leaves the run. -/
theorem join_eq (s : RunSweep) (run : OpenRun) :
    match run.cut? s.cursor.ahead with
    | some c => s.join run = .more { s with
        cursor := ⟨s.cursor.behind, c.rest⟩, count := s.count + 1 }
    | none => ∃ t, s.join run = .more t ∧ s.LeavesWith run t := by
  have hleave : s.LeavesWith run s.leave := Or.inl rfl
  have hrun : s.LeavesWith run (s.leaveWith fun here => .unclosedRun (here - runStart.length)) :=
    Or.inr ⟨_, .run, rfl⟩
  have htextNode : s.LeavesWith run
      (s.leaveWith fun here => .unclosedText (here + run.textAt)) :=
    Or.inr ⟨_, .text, rfl⟩
  unfold OpenRun.cut? join
  dsimp only
  cases hclose : tokenIndex? runEnd s.cursor.ahead with
  | none => exact ⟨_, rfl, hrun⟩
  | some close =>
    cases htext : tokenIndex? textEnd (s.cursor.ahead.drop run.textAt) with
    | none =>
      dsimp only
      split
      · exact ⟨_, rfl, hleave⟩
      · exact ⟨_, rfl, htextNode⟩
    | some ending =>
      dsimp only
      by_cases h₁ : close < run.textAt
      · rw [if_pos h₁, if_pos (Or.inl (by omega))]
        exact ⟨_, rfl, hleave⟩
      · rw [if_neg h₁]
        by_cases h₂ : close < run.textAt + ending
        · rw [if_pos h₂, if_pos (Or.inl h₂)]
          exact ⟨_, rfl, hleave⟩
        · rw [if_neg h₂]
          by_cases h₃ : (tokenIndex? runStart (s.cursor.ahead.drop run.textAt)).any (· < ending)
          · rw [if_pos h₃, if_pos (Or.inr h₃)]
            exact ⟨_, rfl, htextNode⟩
          · rw [if_neg h₃, if_neg (by simp [h₂, h₃])]
            by_cases h₄ : (run.joint.isPrefixOf (s.cursor.ahead.drop (run.textAt + ending)) &&
                ((s.cursor.ahead.drop (run.textAt + ending)).drop run.joint.length).head?.any
                  opensOrEnds) = true
            · rw [if_pos h₄, if_pos h₄]
              cases Bytes.indexOf? ['>'.toUInt8]
                  ((s.cursor.ahead.drop (run.textAt + ending)).drop run.joint.length) with
              | none =>
                rw [Bool.and_eq_true, List.isPrefixOf_iff_prefix] at h₄
                have hnext := List.prefix_iff_eq_append.1 h₄.1
                exact ⟨_, rfl, Or.inr ⟨_, .tag hnext.symm h₄.2, rfl⟩⟩
              | some g => rfl
            · rw [if_neg h₄, if_neg h₄]
              exact ⟨_, rfl, hleave⟩

/-- A run that ends before the text node that was found is left without a warning. -/
theorem join_of_closed {s : RunSweep} {run : OpenRun} {close : Nat}
    (hclose : FirstAt (StartsToken runEnd) s.cursor.ahead close) (h : close < run.textAt) :
    s.join run = .more s.leave := by
  unfold join
  dsimp only
  rw [(tokenIndex?_eq_some_iff tag_runEnd.distinct).2 hclose]
  dsimp only
  rw [if_pos h]

/-- So is a run whose text node ends before it does, with no run in its text, if behind the
    text something else stands than the joint with a second run. -/
theorem join_of_apart {s : RunSweep} {run : OpenRun} {close ending : Nat}
    (hclose : FirstAt (StartsToken runEnd) s.cursor.ahead close)
    (hending : FirstAt (StartsToken textEnd) (s.cursor.ahead.drop run.textAt) ending)
    (hle : run.textAt + ending ≤ close)
    (hplain : ∀ j < ending, ¬ StartsToken runStart ((s.cursor.ahead.drop run.textAt).drop j))
    (hapart : ∀ b rest, s.cursor.ahead.drop (run.textAt + ending) = run.joint ++ b :: rest →
      opensOrEnds b = false) :
    s.join run = .more s.leave := by
  have hrun : ¬ (tokenIndex? runStart (s.cursor.ahead.drop run.textAt)).any (· < ending) := by
    cases hr : tokenIndex? runStart (s.cursor.ahead.drop run.textAt) with
    | none => simp
    | some r =>
      intro hlt
      rw [Option.any_some, decide_eq_true_eq] at hlt
      exact hplain r hlt ((tokenIndex?_eq_some_iff tag_runStart.distinct).1 hr).1
  have hjoint : ¬ (run.joint.isPrefixOf (s.cursor.ahead.drop (run.textAt + ending)) &&
      ((s.cursor.ahead.drop (run.textAt + ending)).drop run.joint.length).head?.any
        opensOrEnds) = true := by
    rw [Bool.and_eq_true, List.isPrefixOf_iff_prefix]
    rintro ⟨⟨next, hnext⟩, hhead⟩
    rw [← hnext, List.drop_left] at hhead
    cases next with
    | nil => simp at hhead
    | cons b rest =>
      rw [List.head?_cons, Option.any_some, hapart b rest hnext.symm] at hhead
      exact absurd hhead (by simp)
  unfold join
  dsimp only
  rw [(tokenIndex?_eq_some_iff tag_runEnd.distinct).2 hclose,
    (tokenIndex?_eq_some_iff tag_textEnd.distinct).2 hending]
  dsimp only
  rw [if_neg (by omega), if_neg (by omega), if_neg hrun, if_neg hjoint]

end RunSweep

/-! ## Where a join is made -/

/-- What is cut between two runs whose first one has its `<w:t` at position `t`, up to the
    attributes of the second text node. -/
def jointAt (ahead : Bytes) (t : Nat) : Bytes :=
  OpenRun.joint ⟨runStart ++ ahead.take (t + textStart.length), t⟩

/-- Behind a `<w:r` stands a text node at `t` with its end at `e`, and the text of the next
    run is joined to it. -/
structure JoinsAt (ahead : Bytes) (t e : Nat) : Prop where
  /-- The run is not written as an empty tag. -/
  entered : ¬ Bytes.ofString "/>" <+: ahead
  text : FirstAt (StartsToken textStart) ahead t
  ending : FirstAt (StartsToken textEnd) (ahead.drop t) (e - t)
  text_le : t ≤ e
  /-- The run does not end before its text. -/
  still_open : ∀ j < e, ¬ StartsToken runEnd (ahead.drop j)
  /-- No run starts inside the text. -/
  plain : ∀ j, t ≤ j → j < e → ¬ StartsToken runStart (ahead.drop j)
  next : ∃ b rest, ahead.drop e = jointAt ahead t ++ b :: rest ∧ opensOrEnds b = true ∧
    '>'.toUInt8 ∈ b :: rest

theorem jointAt_eq (ahead : Bytes) (t : Nat) : jointAt ahead t =
    textEnd ++ '>'.toUInt8 :: (runEnd ++ '>'.toUInt8 :: (runStart ++ ahead.take (t + 4))) := by
  simp [jointAt, OpenRun.joint]

theorem endsName_of_opensOrEnds {b : UInt8} (h : opensOrEnds b = true) : endsName b = true := by
  simp only [opensOrEnds, Bool.or_eq_true, beq_iff_eq] at h
  rcases h with rfl | rfl
  · decide
  · decide

theorem length_jointAt {ahead : Bytes} {t : Nat} (h : t + 4 ≤ ahead.length) :
    (jointAt ahead t).length = t + 20 := by
  simp [jointAt_eq]
  omega

theorem openRun?_eq_some_iff {ahead : Bytes} {run : OpenRun} : openRun? ahead = some run ↔
    ¬ Bytes.ofString "/>" <+: ahead ∧ FirstAt (StartsToken textStart) ahead run.textAt ∧
      run.opening = runStart ++ ahead.take (run.textAt + textStart.length) := by
  unfold openRun? Bytes.opensWith
  by_cases h : (Bytes.ofString "/>").isPrefixOf ahead = true
  · rw [if_pos h]
    simp [List.isPrefixOf_iff_prefix.1 h]
  · rw [if_neg h, Option.map_eq_some_iff]
    constructor
    · rintro ⟨t, ht, rfl⟩
      exact ⟨mt List.isPrefixOf_iff_prefix.2 h,
        (tokenIndex?_eq_some_iff tag_textStart.distinct).1 ht, rfl⟩
    · intro ⟨_, ht, hopening⟩
      refine ⟨run.textAt, (tokenIndex?_eq_some_iff tag_textStart.distinct).2 ht, ?_⟩
      rw [← hopening]

/-- An opening ends with the start of its text node. -/
theorem textStart_suffix_opening {ahead : Bytes} {run : OpenRun} (hrun : openRun? ahead = some run) :
    textStart <:+ run.opening := by
  obtain ⟨-, htext, hopening⟩ := openRun?_eq_some_iff.1 hrun
  obtain ⟨rest, hrest⟩ := htext.1.prefix_of
  rw [hopening, List.take_add, ← hrest, List.take_left, ← List.append_assoc]
  exact List.suffix_append _ _

theorem jointAt_textAt {ahead : Bytes} {run : OpenRun} (hrun : openRun? ahead = some run) :
    jointAt ahead run.textAt = run.joint := by
  obtain ⟨-, -, hopening⟩ := openRun?_eq_some_iff.1 hrun
  rw [jointAt, ← hopening]

/-- A cut is made where the two runs join. -/
theorem joinsAt_of_cut? {ahead : Bytes} {run : OpenRun} {c : Cut} (hrun : openRun? ahead = some run)
    (hc : run.cut? ahead = some c) : ∃ e, JoinsAt ahead run.textAt e ∧ c.before = ahead.take e ∧
      c.whole = ahead ∧ ∃ attributes, c.removed = run.joint ++ attributes ++ ['>'.toUInt8] ∧
        '>'.toUInt8 ∉ attributes := by
  obtain ⟨hentered, htext, hopening⟩ := openRun?_eq_some_iff.1 hrun
  unfold OpenRun.cut? at hc
  dsimp only at hc
  split at hc
  · next close ending hclose hending =>
    split at hc
    · simp at hc
    · next hplain =>
      rw [not_or] at hplain
      split at hc
      · next hjoint =>
        rw [Bool.and_eq_true, List.isPrefixOf_iff_prefix] at hjoint
        obtain ⟨⟨next, hnext⟩, hhead⟩ := hjoint
        rw [← hnext, List.drop_left] at hc hhead
        obtain ⟨g, hg, rfl⟩ := Option.map_eq_some_iff.1 hc
        obtain ⟨attributes, rest, rfl, hattributes, rfl⟩ :=
          Bytes.eq_append_of_indexOf?_singleton hg
        have hclose := (tokenIndex?_eq_some_iff tag_runEnd.distinct).1 hclose
        have hending := (tokenIndex?_eq_some_iff tag_textEnd.distinct).1 hending
        refine ⟨run.textAt + ending, ?_, rfl, ?_, attributes, ?_, hattributes⟩
        · refine ⟨hentered, htext, by rwa [Nat.add_sub_cancel_left], Nat.le_add_right _ _,
            ?_, ?_, ?_⟩
          · intro j hj
            exact hclose.2 j (by omega)
          · intro j hle hj hs
            have hj' : StartsToken runStart ((ahead.drop run.textAt).drop (j - run.textAt)) := by
              rwa [List.drop_drop, Nat.add_sub_cancel' hle]
            cases hr : tokenIndex? runStart (ahead.drop run.textAt) with
            | none => exact (tokenIndex?_eq_none_iff tag_runStart.distinct).1 hr _ hj'
            | some r =>
              have hr' := ((tokenIndex?_eq_some_iff tag_runStart.distinct).1 hr).le_of_holds hj'
              rw [hr] at hplain
              simp only [Option.any_some, decide_eq_true_eq, Nat.not_lt] at hplain
              omega
          · rw [jointAt_textAt hrun, ← hnext]
            cases attributes with
            | nil => exact ⟨_, _, rfl, by simpa using hhead, by simp⟩
            | cons b attributes => exact ⟨b, _, rfl, by simpa using hhead, by simp⟩
        · have hsplit := List.take_append_drop (run.textAt + ending) ahead
          rw [← hnext] at hsplit
          simpa only [Cut.whole, List.append_assoc, List.take_append_drop] using hsplit
        · have hcons : attributes ++ '>'.toUInt8 :: rest =
              (attributes ++ ['>'.toUInt8]) ++ rest := by
            simp
          rw [hcons, List.take_left' (by simp)]
          simp only [List.append_assoc]
      · simp at hc
  · simp at hc

/-- Where two runs join a cut is made. -/
theorem cut?_of_joinsAt {ahead : Bytes} {t e : Nat} (h : JoinsAt ahead t e) :
    ∃ run c, openRun? ahead = some run ∧ run.cut? ahead = some c := by
  obtain ⟨b, rest, hnext, hb, hgt⟩ := h.next
  let run : OpenRun := ⟨runStart ++ ahead.take (t + textStart.length), t⟩
  have hrun : openRun? ahead = some run :=
    openRun?_eq_some_iff.2 ⟨h.entered, h.text, rfl⟩
  have hjoint : jointAt ahead t = run.joint := rfl
  have hend : tokenIndex? textEnd (ahead.drop t) = some (e - t) :=
    (tokenIndex?_eq_some_iff tag_textEnd.distinct).2 h.ending
  have he : t + (e - t) = e := Nat.add_sub_cancel' h.text_le
  -- The run ends within the joint, so there is a first end tag, and it is not before `e`.
  have hrunEnd : StartsToken runEnd (ahead.drop (e + 6)) := by
    rw [← List.drop_drop, hnext, jointAt_eq]
    exact ⟨'>'.toUInt8, runStart ++ ahead.take (t + 4) ++ b :: rest, by
      simp [List.drop_append], by decide⟩
  obtain ⟨close, hclose, hle⟩ : ∃ close, tokenIndex? runEnd ahead = some close ∧ e ≤ close := by
    cases hr : tokenIndex? runEnd ahead with
    | none => exact absurd hrunEnd ((tokenIndex?_eq_none_iff tag_runEnd.distinct).1 hr _)
    | some close =>
      refine ⟨close, rfl, ?_⟩
      rcases Nat.lt_or_ge close e with hlt | hge
      · exact absurd ((tokenIndex?_eq_some_iff tag_runEnd.distinct).1 hr).1 (h.still_open _ hlt)
      · exact hge
  have hplain : ¬ (tokenIndex? runStart (ahead.drop t)).any (· < e - t) = true := by
    cases hr : tokenIndex? runStart (ahead.drop t) with
    | none => simp
    | some r =>
      have hr' := ((tokenIndex?_eq_some_iff tag_runStart.distinct).1 hr).1
      rw [List.drop_drop] at hr'
      rcases Nat.lt_or_ge r (e - t) with hlt | hge
      · exact absurd hr' (h.plain _ (by omega) (by omega))
      · simpa using hge
  have hg : ∃ g, Bytes.indexOf? ['>'.toUInt8] (b :: rest) = some g := by
    cases hg : Bytes.indexOf? ['>'.toUInt8] (b :: rest) with
    | none => exact absurd hgt (Bytes.indexOf?_singleton_eq_none_iff.1 hg)
    | some g => exact ⟨g, rfl⟩
  obtain ⟨g, hg⟩ := hg
  refine ⟨run, ⟨ahead.take e, run.joint ++ (b :: rest).take (g + 1), (b :: rest).drop (g + 1)⟩,
    hrun, ?_⟩
  unfold OpenRun.cut?
  rw [hclose, hend]
  dsimp only [run]
  rw [he, if_neg (by rw [not_or]; exact ⟨by omega, hplain⟩), hnext, hjoint, List.drop_left]
  rw [if_pos (by simp [run, hb]), hg]
  rfl

/-- The next run is joined to the run that a text opens behind its `<w:r`. -/
def Joinable (ahead : Bytes) : Prop :=
  ∃ run c, openRun? ahead = some run ∧ run.cut? ahead = some c

theorem joinable_iff {ahead : Bytes} : Joinable ahead ↔ ∃ t e, JoinsAt ahead t e := by
  constructor
  · intro ⟨run, c, hrun, hc⟩
    obtain ⟨e, he, -⟩ := joinsAt_of_cut? hrun hc
    exact ⟨run.textAt, e, he⟩
  · intro ⟨t, e, h⟩
    exact cut?_of_joinsAt h

/-! ## What a join looks at -/

namespace JoinsAt

variable {ahead front rest rest' : Bytes} {t e p : Nat}

/-- The text node is open before it ends. -/
theorem text_add_lt (h : JoinsAt ahead t e) : t + 4 < e := by
  have hend : StartsToken textEnd (ahead.drop e) := by
    have := h.ending.1
    rwa [List.drop_drop, Nat.add_sub_cancel' h.text_le] at this
  have hne : t ≠ e := by
    rintro rfl
    exact h.text.1.not_both hend (by decide)
  have := StartsToken.add_lt tag_textStart tag_textEnd h.text.1 hend
    (Nat.lt_of_le_of_ne h.text_le hne)
  simpa using this

/-- The text goes on behind the second `<w:t`. -/
theorem length_lt (h : JoinsAt ahead t e) : e + t + 20 < ahead.length := by
  obtain ⟨b, rest, hnext, -, -⟩ := h.next
  have hlen := congrArg List.length hnext
  have htext := h.text.1.length_lt
  simp only [List.length_drop, length_textStart] at htext
  rw [List.length_drop, List.length_append, length_jointAt (by omega), List.length_cons] at hlen
  omega

/-- Whether runs join is decided by the text through the second `<w:t` and the byte behind
    it, and by a `>` somewhere further on. -/
theorem congr_front (h : JoinsAt (front ++ rest) t e) (hlen : e + t + 20 < front.length)
    (hgt : '>'.toUInt8 ∈ rest') : JoinsAt (front ++ rest') t e := by
  have ht := h.text_add_lt
  -- No token appears or goes within the front.
  have hsame : ∀ token : Bytes, ∀ j, j + token.length < front.length →
      (StartsToken token ((front ++ rest).drop j) ↔
        StartsToken token ((front ++ rest').drop j)) := by
    intro token j hj
    have hdrop : token.length + 1 ≤ (front.drop j).length := by
      rw [List.length_drop]
      omega
    rw [List.drop_append_of_le_length (by omega), List.drop_append_of_le_length (by omega),
      ofFirstBytes_startsToken token _ rest hdrop, ofFirstBytes_startsToken token _ rest' hdrop]
  refine ⟨?_, ?_, ?_, h.text_le, ?_, ?_, ?_⟩
  · have htwo : (Bytes.ofString "/>").length ≤ front.length := by
      rw [show (Bytes.ofString "/>").length = 2 by decide]
      omega
    intro hempty
    exact h.entered ((ofFirstBytes_pattern _ front rest htwo).2
      ((ofFirstBytes_pattern _ front rest' htwo).1 hempty))
  · exact (FirstAt.congr_front (ofFirstBytes_startsToken textStart) (by simp; omega)).1 h.text
  · have hend := h.ending
    rw [List.drop_append_of_le_length (by omega)] at hend ⊢
    refine (FirstAt.congr_front (ofFirstBytes_startsToken textEnd) ?_).1 hend
    rw [List.length_drop, length_textEnd]
    omega
  · intro j hj hs
    exact h.still_open j hj ((hsame runEnd j (by simp; omega)).2 hs)
  · intro j hle hj hs
    exact h.plain j hle hj ((hsame runStart j (by simp; omega)).2 hs)
  · obtain ⟨b, tail, hnext, hb, -⟩ := h.next
    have hjoint : jointAt (front ++ rest') t = jointAt (front ++ rest) t := by
      rw [jointAt_eq, jointAt_eq, List.take_append_of_le_length (by omega),
        List.take_append_of_le_length (by omega)]
    have hjlen : (jointAt (front ++ rest) t).length = t + 20 :=
      length_jointAt (by rw [List.length_append]; omega)
    rw [List.drop_append_of_le_length (by omega)] at hnext ⊢
    -- The joint and the byte behind it lie in the front.
    have hpre : jointAt (front ++ rest) t ++ [b] <+: front.drop e := by
      refine List.prefix_of_prefix_length_le ?_ (List.prefix_append (front.drop e) rest) ?_
      · rw [hnext]
        exact ⟨tail, by simp⟩
      · rw [List.length_append, hjlen, List.length_drop, List.length_singleton]
        omega
    obtain ⟨tail', htail'⟩ := hpre
    exact ⟨b, tail' ++ rest', by rw [hjoint, ← htail']; simp, hb, by simp [hgt]⟩

/-- What stands behind the end of the text, tag by tag. -/
theorem tags_behind (h : JoinsAt ahead t e) :
    StartsToken textEnd (ahead.drop e) ∧ StartsToken runEnd (ahead.drop (e + 6)) ∧
      runStart <+: ahead.drop (e + 12) ∧
      ∃ b rest, ahead.drop (e + 16) = ahead.take (t + 4) ++ b :: rest ∧ endsName b = true := by
  obtain ⟨b, rest, hnext, hb, -⟩ := h.next
  rw [jointAt_eq] at hnext
  refine ⟨?_, ?_, ?_, b, rest, ?_, endsName_of_opensOrEnds hb⟩
  · rw [hnext, List.append_assoc]
    exact StartsToken.append_iff.2 ⟨'>'.toUInt8, rfl, by decide⟩
  · rw [← List.drop_drop, hnext]
    exact StartsToken.append_iff.2 ⟨'>'.toUInt8, rfl, by decide⟩
  · rw [← List.drop_drop, hnext]
    exact ⟨ahead.take (t + 4) ++ b :: rest, rfl⟩
  · rw [← List.drop_drop, hnext]
    rfl

/-- The second opening is a copy of the first one, so it holds the same tokens. -/
theorem opening_copy (h : JoinsAt ahead t e) {token : Bytes} {k : Nat} (hlen : token.length ≤ 4)
    (hk : k < t) (hs : StartsToken token (ahead.drop (e + 16 + k))) :
    StartsToken token (ahead.drop k) := by
  obtain ⟨-, -, -, b, rest, hbehind, -⟩ := h.tags_behind
  have htake : (ahead.take (t + 4)).length = t + 4 := by
    have := h.length_lt
    rw [List.length_take]
    omega
  have hdrop : token.length + 1 ≤ ((ahead.take (t + 4)).drop k).length := by
    rw [List.length_drop, htake]
    omega
  rw [← List.drop_drop, hbehind, List.drop_append_of_le_length (by omega),
    ofFirstBytes_startsToken token _ _ hdrop] at hs
  have hcopy := (ofFirstBytes_startsToken token _ (ahead.drop (t + 4)) hdrop).2 hs
  rwa [← List.drop_append_of_le_length (by omega), List.take_append_drop] at hcopy

/-- The text node of the second opening. -/
theorem text_behind (h : JoinsAt ahead t e) : StartsToken textStart (ahead.drop (e + 16 + t)) := by
  obtain ⟨-, -, -, b, rest, hbehind, hends⟩ := h.tags_behind
  have hlen := h.length_lt
  obtain ⟨tail, htail⟩ := h.text.1.prefix_of
  have htake : (ahead.take (t + 4)).drop t = textStart := by
    rw [List.drop_take, Nat.add_sub_cancel_left, ← htail, List.take_left' (by simp)]
  rw [← List.drop_drop, hbehind, List.drop_append_of_le_length (by rw [List.length_take]; omega),
    htake]
  exact StartsToken.append_iff.2 ⟨b, rfl, hends⟩

/-- The next run starts `12` bytes behind the end of the text, and if its opening holds no
    further run, then none starts up to its text. -/
theorem next_run (h : JoinsAt ahead t e) (hplain : ∀ j < t, ¬ StartsToken runStart (ahead.drop j))
    (hp : StartsToken runStart (ahead.drop p)) (hle : e ≤ p) : p = e + 12 ∨ e + t + 20 < p := by
  obtain ⟨hend, hclose, hopen, -⟩ := h.tags_behind
  rcases Nat.lt_trichotomy p (e + 12) with hlt | heq | hgt
  · exfalso
    -- The two end tags fill the bytes before the next run.
    rcases Nat.lt_trichotomy p (e + 6) with hp6 | rfl | hp6
    · rcases Nat.eq_or_lt_of_le hle with rfl | hlt'
      · exact hp.not_both hend (by decide)
      · have := hend.add_lt tag_textEnd tag_runStart hp hlt'
        rw [length_textEnd] at this
        omega
    · exact hp.not_both hclose (by decide)
    · have := hclose.add_lt tag_runEnd tag_runStart hp hp6
      rw [length_runEnd] at this
      omega
  · exact Or.inl heq
  · right
    have hp16 : e + 16 ≤ p := by
      by_contra hlt
      have hinside := not_startsToken_inside tag_runStart.distinct hopen
        (j := p - (e + 12)) (by omega) (by rw [length_runStart]; omega)
      rw [List.drop_drop, Nat.add_sub_cancel' (by omega)] at hinside
      exact hinside hp
    have hpt : e + 16 + t ≤ p := by
      by_contra hlt
      refine hplain (p - (e + 16)) (by omega) (h.opening_copy (by simp) (by omega) ?_)
      rwa [Nat.add_sub_cancel' hp16]
    rcases Nat.eq_or_lt_of_le hpt with rfl | hlt'
    · exact (hp.not_both h.text_behind (by decide)).elim
    · have := h.text_behind.add_lt tag_textStart tag_runStart hp hlt'
      rw [length_textStart] at this
      omega

/-- The next run has no text node before the one at which it is joined. -/
theorem next_text_le (h : JoinsAt ahead t e) {t' : Nat}
    (ht' : StartsToken textStart (ahead.drop (e + 16 + t'))) : t ≤ t' := by
  by_contra hlt
  exact h.text.2 t' (by omega) (h.opening_copy (by simp) (by omega) ht')

end JoinsAt

end DocxTemplate.Sanitize
