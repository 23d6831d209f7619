import Mathlib.Tactic.ByContra
import DocxTemplate.Proofs.Sanitize.RunPass

/-! # Joining twice

    A second run pass over a joined text changes nothing, with one exception. Runs inside
    a run may share its text node. The outer run is compared first; a join made for an
    inner one then brings new text behind the shared node, and what follows may open like
    the outer run, which the pass has left behind.

    * `joinRuns_eq_self_iff`: a text is unchanged exactly if no run in it can be joined.
    * `settled_joinRuns`: in a joined text only runs that share their text can be.
    * `joinRuns_joinRuns_iff`: so the second pass changes nothing exactly if no run that
      shares its text with an inner one is followed by its own opening.
-/

namespace DocxTemplate.Sanitize

/-- Between a `<w:r` and its text node a further run starts. Both runs have the same node. -/
def SharesText (ahead : Bytes) : Prop :=
  ∃ t j, FirstAt (StartsToken textStart) ahead t ∧ j < t ∧ StartsToken runStart (ahead.drop j)

/-- Nothing is left to join to a run, unless it shares its text. -/
def Settled (ahead : Bytes) : Prop := Joinable ahead → SharesText ahead

/-! ## Runs on the two sides of the cursor -/

/-- A run of the text starts behind the cursor or ahead of it, never across. -/
theorem Standing.runIn_cases {s : RunSweep} (h : Standing s) {front ahead : Bytes}
    (hin : RunIn s.cursor.text front ahead) :
    (∃ between, s.before = front ++ runStart ++ between ∧ ahead = between ++ s.cursor.ahead) ∨
    ∃ further, front = s.before ++ further ∧ RunIn s.cursor.ahead further ahead := by
  have hsplit : s.before ++ s.cursor.ahead = front ++ (runStart ++ ahead) := by
    rw [← s.text_eq, hin.1, List.append_assoc]
  -- The cursor itself stands behind a token, and two tokens do not overlap.
  have hside : s.before.length ≤ front.length ∨ front.length + 4 ≤ s.before.length := by
    rcases h.placed with hnil | ⟨⟨place, hplace⟩, hends⟩
    · exact Or.inl (by simp [hnil])
    · have hcursor : RunIn s.cursor.text place s.cursor.ahead := ⟨by rw [s.text_eq, hplace], hends⟩
      have hlen : s.before.length = place.length + 4 := by rw [hplace]; simp
      rcases Nat.lt_trichotomy front.length place.length with hlt | heq | hgt
      · have := hin.startsToken.add_lt tag_runStart tag_runStart hcursor.startsToken hlt
        rw [length_runStart] at this
        omega
      · omega
      · have := hcursor.startsToken.add_lt tag_runStart tag_runStart hin.startsToken hgt
        rw [length_runStart] at this
        omega
  rcases hside with hle | hle
  · right
    obtain ⟨further, rfl⟩ := List.prefix_of_prefix_length_le ⟨_, hsplit⟩
      (List.prefix_append front _) hle
    rw [List.append_assoc, List.append_cancel_left_eq] at hsplit
    exact ⟨further, rfl, by rw [hsplit, List.append_assoc], hin.2⟩
  · left
    have hpre : front ++ runStart <+: s.before := by
      refine List.prefix_of_prefix_length_le ?_ (List.prefix_append s.before s.cursor.ahead)
        (by simpa using hle)
      rw [hsplit, ← List.append_assoc]
      exact List.prefix_append _ _
    obtain ⟨between, hbetween⟩ := hpre
    refine ⟨between, hbetween.symm, ?_⟩
    rw [← hbetween, List.append_assoc, List.append_assoc, List.append_cancel_left_eq,
      List.append_cancel_left_eq] at hsplit
    exact hsplit.symm

/-! ## A join further on settles no run and unsettles none -/

/-- What a join for a later run takes out is behind everything that matters for an earlier
    one, unless the two share their text. -/
theorem joinable_of_rest {between ahead : Bytes} {run : OpenRun} {c : Cut}
    (hrun : openRun? ahead = some run) (hc : run.cut? ahead = some c)
    (hends : NameEnds ahead) (hown : ¬ SharesText (between ++ runStart ++ c.rest))
    (hjoin : Joinable (between ++ runStart ++ c.rest)) :
    Joinable (between ++ runStart ++ ahead) := by
  obtain ⟨e', hlater, hbefore, hwhole, attributes, hremoved, -⟩ := joinsAt_of_cut? hrun hc
  obtain ⟨t, e, hearlier⟩ := joinable_iff.1 hjoin
  have hplain : ∀ j < t, ¬ StartsToken runStart ((between ++ runStart ++ c.rest).drop j) :=
    fun j hj hs => hown ⟨t, j, hearlier.text, hj, hs⟩
  have hlen : c.before.length = e' := by
    have := hlater.length_lt
    rw [hbefore, List.length_take]
    omega
  have ht' := hlater.text_add_lt
  have hdrop : (between ++ runStart ++ c.rest).drop between.length = runStart ++ c.rest := by
    rw [List.append_assoc, List.drop_left]
  have hplace : StartsToken runStart ((between ++ runStart ++ c.rest).drop between.length) := by
    rw [hdrop]
    exact StartsToken.append_iff.2 (Standing.nameEnds_rest hrun hc hends)
  -- The later run starts behind the end of the earlier text.
  have hafter : e ≤ between.length := by
    rcases Nat.lt_or_ge between.length t with hlt | hge
    · exact absurd hplace (hplain _ hlt)
    · rcases Nat.lt_or_ge between.length e with hlt | hge'
      · exact absurd hplace (hearlier.plain _ hge hlt)
      · exact hge'
  have hfar : e + t + 20 < (between ++ runStart ++ c.before).length := by
    rw [List.length_append, List.length_append, length_runStart, hlen]
    rcases hearlier.next_run hplain hplace hafter with heq | hlt
    · -- It is the run that would be joined, so its text node is no earlier than the other's.
      have htext : StartsToken textStart ((between ++ runStart ++ c.rest).drop
          (e + 16 + run.textAt)) := by
        have hnext := (openRun?_eq_some_iff.1 (Standing.openRun?_rest hrun hc)).2.1.1
        rw [show e + 16 + run.textAt = between.length + (4 + run.textAt) by omega,
          ← List.drop_drop, hdrop, ← List.drop_drop, List.drop_left' length_runStart]
        exact hnext
      have := hearlier.next_text_le htext
      omega
    · omega
  have hgt : '>'.toUInt8 ∈ c.removed ++ c.after := by
    rw [hremoved]
    simp
  rw [Cut.rest, ← List.append_assoc] at hearlier
  have hsame := hearlier.congr_front hfar hgt
  rw [List.append_assoc, ← List.append_assoc c.before, ← Cut.whole, hwhole] at hsame
  exact joinable_iff.2 ⟨t, e, hsame⟩

/-- A run that shares its text still does after a join further on. -/
theorem sharesText_rest {between ahead : Bytes} {run : OpenRun} {c : Cut}
    (hrun : openRun? ahead = some run) (hc : run.cut? ahead = some c)
    (h : SharesText (between ++ runStart ++ ahead)) :
    SharesText (between ++ runStart ++ c.rest) := by
  obtain ⟨e', hlater, hbefore, hwhole, -⟩ := joinsAt_of_cut? hrun hc
  obtain ⟨t, j, htext, hj, hs⟩ := h
  have ht' := hlater.text_add_lt
  have hlen : c.before.length = e' := by
    have := hlater.length_lt
    rw [hbefore, List.length_take]
    omega
  -- The first text node comes no later than that of the later run.
  have hle : t ≤ between.length + (4 + run.textAt) := by
    refine htext.le_of_holds ?_
    rw [List.append_assoc, ← List.drop_drop, List.drop_left, ← List.drop_drop,
      List.drop_left' length_runStart]
    exact hlater.text.1
  have hnear : t + 5 ≤ (between ++ runStart ++ c.before).length := by
    rw [List.length_append, List.length_append, length_runStart, hlen]
    omega
  have hahead : between ++ runStart ++ ahead =
      between ++ runStart ++ c.before ++ (c.removed ++ c.after) := by
    rw [List.append_assoc _ c.before, ← List.append_assoc c.before, ← Cut.whole, hwhole]
  rw [hahead] at htext hs
  rw [Cut.rest, ← List.append_assoc]
  refine ⟨t, j, (FirstAt.congr_front (ofFirstBytes_startsToken textStart) ?_).1 htext, hj, ?_⟩
  · rwa [length_textStart]
  · have hdrop : runStart.length + 1 ≤ ((between ++ runStart ++ c.before).drop j).length := by
      rw [List.length_drop, length_runStart]
      omega
    rw [List.drop_append_of_le_length (by omega)] at hs ⊢
    rw [ofFirstBytes_startsToken runStart _ _ hdrop] at hs ⊢
    exact hs

/-! ## The pass settles every run -/

/-- Every run behind the cursor is settled, except the one the pass stands in. -/
def SettledBehind (s : RunSweep) : Prop :=
  ∀ front between, s.before = front ++ runStart ++ between → NameEnds (between ++ s.cursor.ahead) →
    (between = [] → s.current? = none) → Settled (between ++ s.cursor.ahead)

/-- A run that is not entered is settled. -/
theorem settled_of_openRun?_eq_none {ahead : Bytes} (h : openRun? ahead = none) :
    Settled ahead := by
  intro ⟨run, c, hrun, _⟩
  rw [h] at hrun
  exact absurd hrun (by simp)

/-- A run with no text node behind it is not entered. -/
theorem openRun?_eq_none_of_noText {ahead : Bytes}
    (h : ∀ j, ¬ StartsToken textStart (ahead.drop j)) : openRun? ahead = none := by
  cases hrun : openRun? ahead with
  | none => rfl
  | some run => exact absurd (openRun?_eq_some_iff.1 hrun).2.1.1 (h _)

namespace SettledBehind

variable {s : RunSweep} {front ahead : Bytes} {current? : Option OpenRun}

/-- Passing the next run keeps the others settled. -/
theorem behindRun (hs : Standing s) (h : SettledBehind s) (outside : s.current? = none)
    (found : RunIn s.cursor.ahead front ahead)
    (first : ∀ j < front.length, ¬ StartsToken runStart (s.cursor.ahead.drop j))
    (hpassed : current? = none → Settled ahead) :
    SettledBehind (s.behindRun front ahead current?) := by
  intro front' between hbefore hends hcurrent
  rw [RunSweep.before_behindRun] at hbefore
  rw [RunSweep.ahead_behindRun] at hends ⊢
  have hin : RunIn s.cursor.text front' (between ++ ahead) := by
    refine ⟨?_, hends⟩
    rw [s.text_eq, found.1, ← List.append_assoc _ between, ← hbefore]
    simp only [List.append_assoc]
  rcases hs.runIn_cases hin with ⟨between', hbefore', hahead⟩ | ⟨further, rfl, hfurther⟩
  · rw [hahead] at hends ⊢
    exact h front' between' hbefore' hends fun _ => outside
  · -- The run is the one just passed, since none starts before it.
    have hle : front.length ≤ further.length := by
      rcases Nat.lt_or_ge further.length front.length with hlt | hge
      · exact absurd hfurther.startsToken (first _ hlt)
      · exact hge
    have hlen := congrArg List.length hbefore
    simp only [List.length_append, length_runStart] at hlen
    have hnil : between = [] := List.eq_nil_of_length_eq_zero (by omega)
    subst hnil
    exact hpassed (hcurrent rfl)

/-- A join keeps the runs before it settled. -/
theorem cut (hs : Standing s) (h : SettledBehind s) {run : OpenRun} {c : Cut}
    (inside : s.current? = some run) (made : run.cut? s.cursor.ahead = some c) :
    SettledBehind { s with cursor := ⟨s.cursor.behind, c.rest⟩, count := s.count + 1 } := by
  intro front between hbefore hends hcurrent
  obtain ⟨hne, hopen⟩ := hs.opened _ inside
  rcases hs.placed with hnil | ⟨⟨place, hplace⟩, hplaceEnds⟩
  · exact absurd hnil hne
  · change s.before = front ++ runStart ++ between at hbefore
    change NameEnds (between ++ c.rest) at hends
    change Settled (between ++ c.rest)
    have hbetween : between ≠ [] := by
      intro hnil
      have hnone := hcurrent hnil
      change s.current? = none at hnone
      rw [inside] at hnone
      exact absurd hnone (by simp)
    have hends' : NameEnds (between ++ s.cursor.ahead) := by
      obtain ⟨b, hb, hbends⟩ := hends
      cases between with
      | nil => exact absurd rfl hbetween
      | cons a between => exact ⟨b, hb, hbends⟩
    have hold := h front between hbefore hends' fun hnil => absurd hnil hbetween
    -- The current run starts behind the other one, and the two tokens do not overlap.
    have hin : RunIn s.cursor.text front (between ++ s.cursor.ahead) :=
      ⟨by rw [s.text_eq, hbefore, List.append_assoc], hends'⟩
    have hcursor : RunIn s.cursor.text place s.cursor.ahead :=
      ⟨by rw [s.text_eq, hplace], hplaceEnds⟩
    have hlen : place.length + 4 = front.length + 4 + between.length := by
      have := congrArg List.length (hplace.symm.trans hbefore)
      simp only [List.length_append, length_runStart] at this
      omega
    have hpos := List.length_pos_iff.2 hbetween
    have hfar := hin.startsToken.add_lt tag_runStart tag_runStart hcursor.startsToken (by omega)
    rw [length_runStart] at hfar
    obtain ⟨between', hbetween'⟩ : runStart <:+ between := by
      have hplace' : runStart <:+ s.before := ⟨place, hplace.symm⟩
      refine List.suffix_of_suffix_length_le hplace' ⟨front ++ runStart, hbefore.symm⟩ ?_
      rw [length_runStart]
      omega
    rw [← hbetween'] at hold ⊢
    intro hjoin
    by_contra hown
    exact hown (sharesText_rest hopen made
      (hold (joinable_of_rest hopen made hplaceEnds hown hjoin)))

/-- Leaving the current run, to which nothing can be joined any more, settles it. -/
theorem leave (hs : Standing s) (h : SettledBehind s) {run : OpenRun} {t : RunSweep}
    (inside : s.current? = some run) (none_made : run.cut? s.cursor.ahead = none)
    (leaves : s.Leaves t) : SettledBehind t := by
  obtain ⟨ws, rfl⟩ := leaves
  intro front between hbefore hends hcurrent
  by_cases hnil : between = []
  · subst hnil
    intro ⟨run', c, hrun', hc⟩
    rw [List.nil_append] at hrun' hc
    rw [show openRun? s.cursor.ahead = some run from (hs.opened _ inside).2,
      Option.some.injEq] at hrun'
    rw [← hrun', none_made] at hc
    exact absurd hc (by simp)
  · exact h front between hbefore hends fun h => absurd h hnil

end SettledBehind

/-- In a joined text every run is settled. -/
theorem settled_joinRuns (text : Bytes) {front ahead : Bytes}
    (h : RunIn (joinRuns text).text front ahead) : Settled ahead := by
  revert front ahead
  refine runScan_induction (P := SettledBehind)
    (Q := fun s => ∀ {front ahead}, RunIn s.cursor.text front ahead → Settled ahead) text ?_ ?_ ?_
  · intro front between hbefore
    have := congrArg List.length hbefore
    simp only [List.length_append, length_runStart] at this
    simp [RunSweep.before, Sweep.ofText, Cursor.ofText] at this
    omega
  · intro s t hs h hstep
    cases hstep with
    | skip outside found first empty =>
      exact h.behindRun hs outside found first fun _ => settled_of_openRun?_eq_none empty
    | enter outside found first opened =>
      exact h.behindRun hs outside found first fun hnone => absurd hnone (by simp)
    | cut inside made => exact h.cut hs inside made
    | leave inside none_made leaves => exact h.leave hs inside none_made leaves
  · intro s t hs h hstop front ahead hin
    cases hstop with
    | noRun outside none_found =>
      rcases hs.runIn_cases hin with ⟨between, hbefore, rfl⟩ | ⟨further, rfl, hfurther⟩
      · exact h front between hbefore hin.2 fun _ => outside
      · exact absurd hfurther.startsToken (none_found _)
    | @noText front' ahead' outside found first none_found =>
      have hnone := settled_of_openRun?_eq_none (openRun?_eq_none_of_noText none_found)
      have h' : SettledBehind (s.behindRun front' ahead' none) :=
        h.behindRun hs outside found first fun _ => hnone
      have hs' : Standing (s.behindRun front' ahead' none) :=
        ⟨Or.inr ⟨⟨_, s.before_behindRun _ _ _⟩, found.2⟩, fun _ h => by simp at h⟩
      rcases hs'.runIn_cases hin with ⟨between, hbefore, rfl⟩ | ⟨further, rfl, hfurther⟩
      · exact h' front between hbefore hin.2 fun _ => rfl
      · -- What is ahead has no text node, so no run in it has one.
        refine settled_of_openRun?_eq_none (openRun?_eq_none_of_noText fun j hs => ?_)
        refine none_found (further.length + 4 + j) ?_
        rw [RunSweep.ahead_behindRun] at hfurther
        rwa [hfurther.1, ← List.drop_drop, List.drop_left' (by simp)]

/-! ## Texts that the pass leaves alone -/

/-- A run ahead of the cursor is the next one, or it starts behind that. -/
theorem Standing.next_or_later {s : RunSweep} (hs : Standing s) {front ahead front' ahead' : Bytes}
    (found : RunIn s.cursor.ahead front ahead)
    (first : ∀ j < front.length, ¬ StartsToken runStart (s.cursor.ahead.drop j))
    (hin : RunIn s.cursor.text front' ahead') (hle : s.before.length ≤ front'.length) :
    (front' = s.before ++ front ∧ ahead' = ahead) ∨
      s.before.length + front.length + 4 ≤ front'.length := by
  rcases hs.runIn_cases hin with ⟨between, hbefore, -⟩ | ⟨further, rfl, hfurther⟩
  · have := congrArg List.length hbefore
    simp only [List.length_append, length_runStart] at this
    omega
  · rcases Nat.lt_trichotomy further.length front.length with hlt | heq | hgt
    · exact absurd hfurther.startsToken (first _ hlt)
    · left
      have hsplit := found.1.symm.trans hfurther.1
      rw [List.append_assoc, List.append_assoc] at hsplit
      obtain ⟨rfl, hrest⟩ := List.append_inj hsplit heq.symm
      exact ⟨rfl, (List.append_cancel_left hrest).symm⟩
    · right
      have := found.startsToken.add_lt tag_runStart tag_runStart hfurther.startsToken hgt
      rw [length_runStart] at this
      rw [List.length_append]
      omega

/-- Nothing was removed so far, and a run has still to be met, or the pass stands in it. -/
structure Awaits (text front : Bytes) (s : RunSweep) : Prop where
  unchanged : s.cursor.text = text
  placed : s.before.length ≤ front.length ∨ s.current? ≠ none ∧ s.before = front ++ runStart

namespace Awaits

variable {s t : RunSweep} {text front ahead : Bytes} {run : OpenRun} {c : Cut}

theorem before_le (h : Awaits text front s) (outside : s.current? = none) :
    s.before.length ≤ front.length := by
  rcases h.placed with hle | ⟨hne, -⟩
  · exact hle
  · exact absurd outside hne

/-- A run to which the next one can be joined is not passed without a join. -/
theorem step (hin : RunIn text front ahead) (hrun : openRun? ahead = some run)
    (hc : run.cut? ahead = some c) (hs : Standing s) (h : Awaits text front s)
    (hstep : RunStep s t) : 0 < t.count ∨ Awaits text front t := by
  obtain rfl := h.unchanged
  cases hstep with
  | skip outside found first empty =>
    right
    rcases hs.next_or_later found first hin (h.before_le outside) with ⟨-, rfl⟩ | hlater
    · rw [empty] at hrun
      exact absurd hrun (by simp)
    · refine ⟨s.text_behindRun _ found, Or.inl ?_⟩
      rw [RunSweep.before_behindRun, List.length_append, List.length_append, length_runStart]
      exact hlater
  | enter outside found first opened =>
    right
    refine ⟨s.text_behindRun _ found, ?_⟩
    rcases hs.next_or_later found first hin (h.before_le outside) with ⟨rfl, -⟩ | hlater
    · exact Or.inr ⟨by simp, s.before_behindRun _ _ _⟩
    · left
      rw [RunSweep.before_behindRun, List.length_append, List.length_append, length_runStart]
      exact hlater
  | cut inside made => exact Or.inl (Nat.succ_pos _)
  | leave inside none_made leaves =>
    right
    obtain ⟨ws, rfl⟩ := leaves
    rcases h.placed with hle | ⟨-, hbefore⟩
    · exact ⟨rfl, Or.inl hle⟩
    · -- The run is the current one, so the cut would have been made.
      have hahead : s.cursor.ahead = ahead := by
        have hsplit := hin.1
        rw [s.text_eq, hbefore] at hsplit
        exact List.append_cancel_left hsplit
      rw [← hahead, (hs.opened _ inside).2, Option.some.injEq] at hrun
      rw [← hahead, ← hrun, none_made] at hc
      exact absurd hc (by simp)

/-- The pass does not stop before such a run. -/
theorem not_stop (hin : RunIn text front ahead) (hrun : openRun? ahead = some run)
    (hs : Standing s) (h : Awaits text front s) : ¬ RunStop s t := by
  obtain rfl := h.unchanged
  intro hstop
  cases hstop with
  | noRun outside none_found =>
    have hle := h.before_le outside
    rcases hs.runIn_cases hin with ⟨between, hbefore, -⟩ | ⟨further, rfl, hfurther⟩
    · have hlen := congrArg List.length hbefore
      simp only [List.length_append, length_runStart] at hlen
      omega
    · exact absurd hfurther.startsToken (none_found _)
  | @noText front' ahead' outside found first none_found =>
    -- The text node of the run would be ahead.
    have htext := (openRun?_eq_some_iff.1 hrun).2.1.1
    rcases hs.next_or_later found first hin (h.before_le outside) with ⟨-, rfl⟩ | hlater
    · exact absurd htext (none_found _)
    · have hsplit := hin.1
      rw [← s.text_behindRun none found, RunSweep.text_eq, RunSweep.before_behindRun,
        RunSweep.ahead_behindRun] at hsplit
      have hpre : s.before ++ front' ++ runStart <+: front := by
        refine List.prefix_of_prefix_length_le ⟨ahead', hsplit⟩
          ⟨runStart ++ ahead, (List.append_assoc _ _ _).symm⟩ ?_
        rw [List.length_append, List.length_append, length_runStart]
        exact hlater
      obtain ⟨between, rfl⟩ := hpre
      rw [List.append_assoc _ between, List.append_assoc _ (between ++ runStart),
        List.append_cancel_left_eq] at hsplit
      refine absurd ?_ (none_found ((between ++ runStart).length + run.textAt))
      rwa [hsplit, ← List.drop_drop, List.drop_left]

end Awaits

/-- A run that can be joined is joined, or the text was changed before. -/
theorem count_pos_of_joinable {text front ahead : Bytes} (hin : RunIn text front ahead)
    (hjoin : Joinable ahead) : 0 < (joinRuns text).count := by
  obtain ⟨run, c, hrun, hc⟩ := hjoin
  refine runScan_induction (P := fun s => 0 < s.count ∨ Awaits text front s)
    (Q := fun s => 0 < s.count) text ?_ ?_ ?_
  · exact Or.inr ⟨rfl, Or.inl (Nat.zero_le _)⟩
  · intro s t hs hp hstep
    rcases hp with hcount | hawaits
    · exact Or.inl (Nat.lt_of_lt_of_le hcount hstep.count_le)
    · exact hawaits.step hin hrun hc hs hstep
  · intro s t hs hp hstop
    rcases hp with hcount | hawaits
    · rwa [hstop.count_eq]
    · exact absurd hstop (hawaits.not_stop hin hrun hs)

/-- The pass changes nothing exactly if no run of the text can be joined. -/
theorem joinRuns_eq_self_iff (text : Bytes) :
    (joinRuns text).text = text ∧ (joinRuns text).count = 0 ↔
      ∀ front ahead, RunIn text front ahead → ¬ Joinable ahead := by
  constructor
  · intro ⟨_, hcount⟩ front ahead hin hjoin
    have := count_pos_of_joinable hin hjoin
    omega
  · intro h
    refine runScan_induction (P := fun s => s.cursor.text = text ∧ s.count = 0)
      (Q := fun s => s.cursor.text = text ∧ s.count = 0) text ⟨rfl, rfl⟩ ?_ ?_
    · rintro s t hs ⟨rfl, hcount⟩ hstep
      cases hstep with
      | skip outside found => exact ⟨s.text_behindRun _ found, hcount⟩
      | enter outside found => exact ⟨s.text_behindRun _ found, hcount⟩
      | cut inside made =>
        obtain ⟨hne, hopen⟩ := hs.opened _ inside
        rcases hs.placed with hnil | ⟨⟨place, hplace⟩, hends⟩
        · exact absurd hnil hne
        · exact absurd ⟨_, _, hopen, made⟩ (h place _ ⟨by rw [s.text_eq, hplace], hends⟩)
      | leave inside none_made leaves =>
        obtain ⟨ws, rfl⟩ := leaves
        exact ⟨rfl, hcount⟩
    · rintro s t hs ⟨rfl, hcount⟩ hstop
      cases hstop with
      | noRun => exact ⟨rfl, hcount⟩
      | noText outside found => exact ⟨s.text_behindRun _ found, hcount⟩

/-! ## The second pass -/

/-- A second pass changes nothing exactly if in the joined text no run that shares its text
    with an inner one can be joined. All other runs are settled by the first pass. -/
theorem joinRuns_joinRuns_iff (text : Bytes) :
    ((joinRuns (joinRuns text).text).text = (joinRuns text).text ∧
      (joinRuns (joinRuns text).text).count = 0) ↔
      ∀ front ahead, RunIn (joinRuns text).text front ahead → SharesText ahead →
        ¬ Joinable ahead := by
  rw [joinRuns_eq_self_iff]
  constructor
  · intro h front ahead hin _
    exact h front ahead hin
  · intro h front ahead hin hjoin
    exact h front ahead hin (settled_joinRuns text hin hjoin) hjoin

/-- An annotated run whose text node is that of the run inside it, with a second one behind
    it. The join of the two inner runs brings them together. -/
def annotatedRuns : Bytes :=
  Bytes.ofString ("<w:r><w:ruby><w:r><w:t>a</w:t></w:r><w:r><w:t>b</w:t></w:r>" ++
    "<w:r><w:ruby><w:r><w:t>c</w:t></w:r></w:ruby></w:r></w:ruby></w:r>")

theorem not_forall_joinRuns_joinRuns :
    ¬ ∀ text, (joinRuns (joinRuns text).text).text = (joinRuns text).text ∧
      (joinRuns (joinRuns text).text).count = 0 :=
  fun h => absurd (h annotatedRuns) (by decide +kernel)

end DocxTemplate.Sanitize
