import DocxTemplate.Proofs.Sanitize.Joining

/-! # The run pass, step by step

    A step of the pass is one of four, and the pass stops in one of two ways. All that is
    proved about the pass goes through these cases:

    * `RunStep` and `RunStop`: what a step does, and where the pass stops.
    * `Standing`: the cursor stands behind a `<w:r`, or at the start of the text, and the
      current run is the one that opens there.
    * `runScan_induction`: what holds at the start and is kept by every step holds at
      the end.
-/

namespace DocxTemplate.Sanitize

/-! ## Entering a run -/

/-- A run starts in a text, with `front` before its `<w:r` and `ahead` behind it. -/
def RunIn (text front ahead : Bytes) : Prop :=
  text = front ++ runStart ++ ahead ∧ NameEnds ahead

theorem RunIn.startsToken {text front ahead : Bytes} (h : RunIn text front ahead) :
    StartsToken runStart (text.drop front.length) := by
  obtain ⟨rfl, hends⟩ := h
  rw [List.append_assoc, List.drop_left]
  exact StartsToken.append_iff.2 hends

theorem runIn_of_startsToken {text : Bytes} {i : Nat} (h : StartsToken runStart (text.drop i)) :
    RunIn text (text.take i) (text.drop (i + 4)) := by
  have hends := h.nameEnds
  rw [List.drop_drop, length_runStart] at hends
  obtain ⟨rest, hrest⟩ := h.prefix_of
  refine ⟨?_, hends⟩
  have hdrop : text.drop (i + 4) = rest := by
    rw [← List.drop_drop, ← hrest]
    exact List.drop_left' length_runStart
  rw [hdrop, List.append_assoc, hrest, List.take_append_drop]

namespace RunSweep

/-- A sweep that has passed `front` and the `<w:r` behind it. -/
def behindRun (s : RunSweep) (front ahead : Bytes) (current? : Option OpenRun) : RunSweep :=
  { s with cursor := ⟨(front ++ runStart).reverse ++ s.cursor.behind, ahead⟩, current? }

/-- Outside a run a step goes on behind the next `<w:r`. It ends the pass if there is none,
    or no text node behind it, and enters the run unless it is an empty tag. -/
theorem enter_cases (s : RunSweep) (hs : s.current? = none) :
    ((∀ j, ¬ StartsToken runStart (s.cursor.ahead.drop j)) ∧ s.enter = .done s) ∨
    ∃ front ahead, RunIn s.cursor.ahead front ahead ∧
      (∀ j < front.length, ¬ StartsToken runStart (s.cursor.ahead.drop j)) ∧
      ((openRun? ahead = none ∧ s.enter = .more (s.behindRun front ahead none)) ∨
       ((∀ j, ¬ StartsToken textStart (ahead.drop j)) ∧
          s.enter = .done (s.behindRun front ahead none)) ∨
       ∃ run, openRun? ahead = some run ∧
          s.enter = .more (s.behindRun front ahead (some run))) := by
  unfold enter
  cases hi : tokenIndex? runStart s.cursor.ahead with
  | none => exact Or.inl ⟨(tokenIndex?_eq_none_iff tag_runStart.distinct).1 hi, rfl⟩
  | some i =>
    right
    obtain ⟨hrun, hfirst⟩ := (tokenIndex?_eq_some_iff tag_runStart.distinct).1 hi
    have hin := runIn_of_startsToken hrun
    have hlen : (s.cursor.ahead.take i).length = i := by
      have := tokenIndex?_add_length_lt hi
      rw [List.length_take]
      omega
    have htake : s.cursor.ahead.take (i + 4) = s.cursor.ahead.take i ++ runStart := by
      have hsplit := congrArg (List.take (i + 4)) hin.1
      rwa [List.take_left' (by simp [hlen])] at hsplit
    have hthere : ∀ current?, { s with toSweep := s.advance (i + runStart.length), current? } =
        s.behindRun (s.cursor.ahead.take i) (s.cursor.ahead.drop (i + 4)) current? := by
      intro current?
      simp only [behindRun, Sweep.advance, Cursor.advance, length_runStart, htake]
    have hhere := hthere none
    rw [← hs] at hhere
    refine ⟨_, _, hin, by rwa [hlen], ?_⟩
    dsimp only
    by_cases hempty : Bytes.opensWith "/>" (s.cursor.ahead.drop (i + 4)) = true
    · left
      rw [if_pos (by simpa using hempty), openRun?, if_pos hempty]
      exact ⟨rfl, by rw [hhere, hs]⟩
    · right
      rw [if_neg (by simpa using hempty)]
      cases ht : tokenIndex? textStart (s.cursor.ahead.drop (i + 4)) with
      | none =>
        left
        refine ⟨(tokenIndex?_eq_none_iff tag_textStart.distinct).1 ht, ?_⟩
        simp only [Sweep.cursor_advance, Cursor.ahead_advance, length_runStart, ht]
        rw [← hs, ← hhere, length_runStart]
      | some t =>
        right
        refine ⟨⟨runStart ++ (s.cursor.ahead.drop (i + 4)).take (t + textStart.length), t⟩, ?_, ?_⟩
        · rw [openRun?, if_neg hempty, ht]
          rfl
        · simp only [Sweep.cursor_advance, Cursor.ahead_advance, length_runStart, ht]
          rw [← hthere, length_runStart]

/-- The same for the first run of a text, wherever it was found. -/
theorem enter_cases_of_found {s : RunSweep} {front ahead : Bytes} (hs : s.current? = none)
    (found : RunIn s.cursor.ahead front ahead)
    (first : ∀ j < front.length, ¬ StartsToken runStart (s.cursor.ahead.drop j)) :
    (openRun? ahead = none ∧ s.enter = .more (s.behindRun front ahead none)) ∨
      ((∀ j, ¬ StartsToken textStart (ahead.drop j)) ∧
        s.enter = .done (s.behindRun front ahead none)) ∨
      ∃ run, openRun? ahead = some run ∧
        s.enter = .more (s.behindRun front ahead (some run)) := by
  rcases s.enter_cases hs with ⟨hnone, -⟩ | ⟨front', ahead', found', first', hcase⟩
  · exact absurd found.startsToken (hnone _)
  · -- There is only one first run.
    have hlen : front.length = front'.length :=
      FirstAt.unique ⟨found.startsToken, first⟩ ⟨found'.startsToken, first'⟩
    have htext : front ++ (runStart ++ ahead) = front' ++ (runStart ++ ahead') := by
      rw [← List.append_assoc, ← found.1, found'.1, List.append_assoc]
    obtain ⟨rfl, hbehind⟩ := List.append_inj htext hlen
    obtain rfl := List.append_cancel_left hbehind
    exact hcase

/-- The first run of a text is entered if it opens. -/
theorem enter_eq {s : RunSweep} {front ahead : Bytes} {run : OpenRun} (hs : s.current? = none)
    (found : RunIn s.cursor.ahead front ahead)
    (first : ∀ j < front.length, ¬ StartsToken runStart (s.cursor.ahead.drop j))
    (opened : openRun? ahead = some run) :
    s.enter = .more (s.behindRun front ahead (some run)) := by
  rcases enter_cases_of_found hs found first with ⟨hopen, -⟩ | ⟨hnone, -⟩ | ⟨run', hopen, he⟩
  · rw [opened] at hopen
    exact absurd hopen (by simp)
  · exact absurd (openRun?_eq_some_iff.1 opened).2.1.1 (hnone _)
  · rw [opened, Option.some.injEq] at hopen
    rw [hopen, he]

end RunSweep

/-! ## Steps -/

/-- What one step of the run pass does. -/
inductive RunStep (s : RunSweep) : RunSweep → Prop where
  /-- The next run is passed: it is an empty tag. -/
  | skip {front ahead} (outside : s.current? = none) (found : RunIn s.cursor.ahead front ahead)
      (first : ∀ j < front.length, ¬ StartsToken runStart (s.cursor.ahead.drop j))
      (empty : openRun? ahead = none) : RunStep s (s.behindRun front ahead none)
  /-- The next run is entered. -/
  | enter {front ahead run} (outside : s.current? = none) (found : RunIn s.cursor.ahead front ahead)
      (first : ∀ j < front.length, ¬ StartsToken runStart (s.cursor.ahead.drop j))
      (opened : openRun? ahead = some run) : RunStep s (s.behindRun front ahead (some run))
  /-- The run that follows is joined to the current one. -/
  | cut {run c} (inside : s.current? = some run) (made : run.cut? s.cursor.ahead = some c) :
      RunStep s { s with cursor := ⟨s.cursor.behind, c.rest⟩, count := s.count + 1 }
  /-- The current run is left. -/
  | leave {run t} (inside : s.current? = some run) (none_made : run.cut? s.cursor.ahead = none)
      (leaves : s.Leaves t) : RunStep s t

/-- Where the run pass stops. -/
inductive RunStop (s : RunSweep) : RunSweep → Prop where
  /-- There is no further run. -/
  | noRun (outside : s.current? = none)
      (none_found : ∀ j, ¬ StartsToken runStart (s.cursor.ahead.drop j)) : RunStop s s
  /-- There is no text node behind the next run. -/
  | noText {front ahead} (outside : s.current? = none) (found : RunIn s.cursor.ahead front ahead)
      (first : ∀ j < front.length, ¬ StartsToken runStart (s.cursor.ahead.drop j))
      (none_found : ∀ j, ¬ StartsToken textStart (ahead.drop j)) :
      RunStop s (s.behindRun front ahead none)

theorem runStep_of_next {s t : RunSweep} (h : runScan.next s = .more t) : RunStep s t := by
  simp only [runScan] at h
  cases hs : s.current? with
  | none =>
    rw [hs] at h
    rcases s.enter_cases hs with ⟨-, he⟩ | ⟨front, ahead, hin, hfirst, hcase⟩
    · simp [he] at h
    · rcases hcase with ⟨hopen, he⟩ | ⟨-, he⟩ | ⟨run, hopen, he⟩
      · simp only [he, Step.more.injEq] at h
        exact h ▸ .skip hs hin hfirst hopen
      · simp [he] at h
      · simp only [he, Step.more.injEq] at h
        exact h ▸ .enter hs hin hfirst hopen
  | some run =>
    rw [hs] at h
    have hjoin := s.join_eq run
    cases hc : run.cut? s.cursor.ahead with
    | some c =>
      rw [hc] at hjoin
      simp only [hjoin, Step.more.injEq] at h
      exact h ▸ .cut hs hc
    | none =>
      rw [hc] at hjoin
      obtain ⟨t', he, hleaves⟩ := hjoin
      simp only [he, Step.more.injEq] at h
      exact .leave hs hc (h ▸ hleaves.leaves)

theorem runStop_of_next {s t : RunSweep} (h : runScan.next s = .done t) : RunStop s t := by
  simp only [runScan] at h
  cases hs : s.current? with
  | none =>
    rw [hs] at h
    rcases s.enter_cases hs with ⟨hnone, he⟩ | ⟨front, ahead, hin, hfirst, hcase⟩
    · simp only [he, Step.done.injEq] at h
      exact h ▸ .noRun hs hnone
    · rcases hcase with ⟨-, he⟩ | ⟨hnone, he⟩ | ⟨run, -, he⟩
      · simp [he] at h
      · simp only [he, Step.done.injEq] at h
        exact h ▸ .noText hs hin hfirst hnone
      · simp [he] at h
  | some run =>
    rw [hs] at h
    have hjoin := s.join_eq run
    cases hc : run.cut? s.cursor.ahead with
    | some c =>
      rw [hc] at hjoin
      simp [hjoin] at h
    | none =>
      rw [hc] at hjoin
      obtain ⟨t', he, -⟩ := hjoin
      simp [he] at h

/-! ## Where the pass stands -/

/-- The text behind the cursor, in reading order. -/
def RunSweep.before (s : RunSweep) : Bytes := s.cursor.behind.reverse

namespace RunSweep

variable (s : RunSweep) (front ahead : Bytes) (current? : Option OpenRun)

@[simp] theorem before_behindRun :
    (s.behindRun front ahead current?).before = s.before ++ front ++ runStart := by
  simp [before, behindRun]

@[simp] theorem ahead_behindRun : (s.behindRun front ahead current?).cursor.ahead = ahead := rfl

@[simp] theorem current?_behindRun : (s.behindRun front ahead current?).current? = current? := rfl

@[simp] theorem count_behindRun : (s.behindRun front ahead current?).count = s.count := rfl

theorem text_eq : s.cursor.text = s.before ++ s.cursor.ahead := rfl

variable {s front ahead} in
/-- Passing a run changes nothing in the text. -/
theorem text_behindRun (found : RunIn s.cursor.ahead front ahead) :
    (s.behindRun front ahead current?).cursor.text = s.cursor.text := by
  rw [text_eq, text_eq, before_behindRun, ahead_behindRun, found.1]
  simp only [List.append_assoc]

end RunSweep

/-- The pass stands at the start of the text or behind a run start, and the current run is
    the one that opens there. -/
structure Standing (s : RunSweep) : Prop where
  placed : s.before = [] ∨ (∃ front, s.before = front ++ runStart) ∧ NameEnds s.cursor.ahead
  opened : ∀ run, s.current? = some run → s.before ≠ [] ∧ openRun? s.cursor.ahead = some run

theorem standing_start (text : Bytes) : Standing { toSweep := Sweep.ofText text } :=
  ⟨Or.inl rfl, fun _ h => by simp at h⟩

namespace Standing

variable {s t : RunSweep}

/-- In a run the text so far ends with the `<w:r` of the run. -/
theorem inside_run {run : OpenRun} (h : Standing s) (inside : s.current? = some run) :
    openRun? s.cursor.ahead = some run ∧ (∃ front, s.before = front ++ runStart) ∧
      NameEnds s.cursor.ahead := by
  obtain ⟨hne, hopen⟩ := h.opened run inside
  exact ⟨hopen, h.placed.resolve_left hne⟩

/-- A cut leaves the start of the run as it was. -/
theorem openRun?_rest {ahead : Bytes} {run : OpenRun} {c : Cut} (hrun : openRun? ahead = some run)
    (hc : run.cut? ahead = some c) : openRun? c.rest = some run := by
  obtain ⟨e, hjoin, hbefore, hwhole, -⟩ := joinsAt_of_cut? hrun hc
  obtain ⟨hentered, htext, hopening⟩ := openRun?_eq_some_iff.1 hrun
  have ht := hjoin.text_add_lt
  have hlen : c.before.length = e := by
    have := hjoin.length_lt
    rw [hbefore, List.length_take]
    omega
  have hahead : ahead = c.before ++ (c.removed ++ c.after) := by
    rw [← hwhole, Cut.whole, List.append_assoc]
  rw [hahead] at hentered htext hopening
  refine openRun?_eq_some_iff.2 ⟨?_, ?_, ?_⟩
  · have htwo : (Bytes.ofString "/>").length ≤ c.before.length := by
      rw [show (Bytes.ofString "/>").length = 2 by decide]
      omega
    intro hempty
    exact hentered ((ofFirstBytes_pattern _ c.before _ htwo).2
      ((ofFirstBytes_pattern _ c.before _ htwo).1 hempty))
  · exact (FirstAt.congr_front (ofFirstBytes_startsToken textStart) (by simp; omega)).1 htext
  · rw [hopening, length_textStart, Cut.rest, List.take_append_of_le_length (by omega),
      List.take_append_of_le_length (by omega)]

theorem nameEnds_rest {ahead : Bytes} {run : OpenRun} {c : Cut} (hrun : openRun? ahead = some run)
    (hc : run.cut? ahead = some c) (h : NameEnds ahead) : NameEnds c.rest := by
  obtain ⟨e, hjoin, hbefore, hwhole, -⟩ := joinsAt_of_cut? hrun hc
  have ht := hjoin.text_add_lt
  have hlen := hjoin.length_lt
  obtain ⟨b, hb, hends⟩ := h
  cases ahead with
  | nil => simp at hb
  | cons a ahead =>
    obtain ⟨k, rfl⟩ : ∃ k, e = k + 1 := ⟨e - 1, by omega⟩
    refine ⟨b, ?_, hends⟩
    rw [Cut.rest, hbefore]
    exact hb

theorem step (h : Standing s) (hstep : RunStep s t) : Standing t := by
  cases hstep with
  | skip outside found first empty =>
    exact ⟨Or.inr ⟨⟨_, s.before_behindRun _ _ _⟩, found.2⟩, fun _ h => by simp at h⟩
  | enter outside found first opened =>
    refine ⟨Or.inr ⟨⟨_, s.before_behindRun _ _ _⟩, found.2⟩, fun run hrun => ⟨?_, ?_⟩⟩
    · intro hnil
      have := congrArg List.length hnil
      simp at this
    · rw [RunSweep.current?_behindRun, Option.some.injEq] at hrun
      rw [← hrun]
      exact opened
  | cut inside made =>
    obtain ⟨hopen, hfront, hends⟩ := h.inside_run inside
    refine ⟨Or.inr ⟨hfront, nameEnds_rest hopen made hends⟩,
      fun run hrun => ⟨(h.opened _ inside).1, ?_⟩⟩
    rw [show s.current? = some run from hrun, Option.some.injEq] at inside
    subst inside
    exact openRun?_rest hopen made
  | leave inside none_made leaves =>
    obtain ⟨ws, rfl⟩ := leaves
    exact ⟨h.placed, fun _ h => by simp at h⟩

end Standing

/-- Joins are only ever made. -/
theorem RunStep.count_le {s t : RunSweep} (h : RunStep s t) : s.count ≤ t.count := by
  cases h with
  | skip outside found first empty => exact Nat.le_of_eq (s.count_behindRun _ _ _).symm
  | enter outside found first opened => exact Nat.le_of_eq (s.count_behindRun _ _ _).symm
  | cut inside made => exact Nat.le_succ _
  | leave inside none_made leaves =>
    obtain ⟨ws, rfl⟩ := leaves
    exact Nat.le_refl _

theorem RunStop.count_eq {s t : RunSweep} (h : RunStop s t) : t.count = s.count := by
  cases h with
  | noRun outside none_found => rfl
  | noText outside found first none_found => exact s.count_behindRun _ _ _

/-- What holds at the start of the pass and is kept by each of its steps leads to `Q` at the
    end, if stopping leads there. -/
theorem runScan_induction {P Q : RunSweep → Prop} (text : Bytes)
    (start : P { toSweep := Sweep.ofText text })
    (step : ∀ s t, Standing s → P s → RunStep s t → P t)
    (stop : ∀ s t, Standing s → P s → RunStop s t → Q t) :
    Q (runScan.run { toSweep := Sweep.ofText text }) := by
  refine Scan.run_induction (P := fun s => Standing s ∧ P s) ?_ ?_ _
    ⟨standing_start text, start⟩
  · intro s t ⟨hs, hp⟩ hnext
    have hstep := runStep_of_next hnext
    exact ⟨hs.step hstep, step s t hs hp hstep⟩
  · intro s t ⟨hs, hp⟩ hnext
    exact stop s t hs hp (runStop_of_next hnext)

end DocxTemplate.Sanitize
