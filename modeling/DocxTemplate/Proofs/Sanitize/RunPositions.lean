import DocxTemplate.Proofs.Sanitize.Positions

/-! # The run pass by positions

    The positions of a run are those of its `<w:r`, of its first text node and of the end tags
    behind it, all of them searched from the `<w:r` or from the text node.

    * `enterAt?`, `joinAt?`: the steps of the run pass with positions, where every slice and
      every cut is checked.
    * `enterAt?_eq`, `joinAt?_eq`: between two characters they do what the steps of the pass do.
-/

namespace DocxTemplate.Sanitize

/-! ## The steps -/

/-- Looks for the next run and for the first text node behind its `<w:r`. -/
def enterAt? (s : RunSweep) : Option (Step RunSweep RunSweep) :=
  let text := s.cursor.text
  match tokenPlace? runStart text s.cursor.offset with
  | none => some (.done s)
  | some runOpen => do
    let behind := runOpen + runStart.length
    let there : RunSweep := { s with toSweep := s.toSweep.moved behind }
    if Bytes.opensWith "/>" (← Bytes.slice? text behind text.length) then
      return .more there
    match tokenPlace? textStart text runOpen with
    | none => return .done there
    | some textOpen =>
      let opening ← Bytes.slice? text runOpen (textOpen + textStart.length)
      return .more { there with current? := some ⟨opening, textOpen - behind⟩ }

/-- Cuts the next run's opening out, if it is the same as that of the current run and follows
    on the end of the text node at `textClose` without a gap. -/
def cutNextAt? (s : RunSweep) (run : OpenRun) (textClose : Nat) :
    Option (Step RunSweep RunSweep) := do
  let text := s.cursor.text
  let after := textClose + run.joint.length
  let tail ← Bytes.slice? text textClose text.length
  if run.joint.isPrefixOf tail && text[after]?.any opensOrEnds then
    match Bytes.indexFrom? ['>'.toUInt8] text after with
    | none => return .more (s.leaveWith fun _ => .unclosedTag "<w:t" after)
    | some stop =>
      let kept ← Bytes.cut? text textClose (stop + 1)
      return .more { s with cursor := .atPlace kept s.cursor.offset, count := s.count + 1 }
  return .more s.leave

/-- Tries to join the next run to the one whose `<w:r` stands just behind the sweep. -/
def joinAt? (s : RunSweep) (run : OpenRun) : Option (Step RunSweep RunSweep) :=
  let text := s.cursor.text
  let runOpen := s.cursor.offset - runStart.length
  let textOpen := s.cursor.offset + run.textAt
  match tokenPlace? runEnd text runOpen with
  | none => some (.more (s.leaveWith fun _ => .unclosedRun runOpen))
  | some runClose =>
    if runClose < textOpen then some (.more s.leave)
    else match tokenPlace? textEnd text textOpen with
      | none => some (.more (s.leaveWith fun _ => .unclosedText textOpen))
      | some textClose =>
        if runClose < textClose then some (.more s.leave)
        else if (tokenPlace? runStart text textOpen).any (· < textClose) then
          some (.more (s.leaveWith fun _ => .unclosedText textOpen))
        else cutNextAt? s run textClose

/-! ## Searching from the start of a token -/

theorem whole_runStart : Whole runStart := whole_ofString _

theorem whole_runEnd : Whole runEnd := whole_ofString _

theorem whole_textStart : Whole textStart := whole_ofString _

theorem whole_textEnd : Whole textEnd := whole_ofString _

/-- Another token is not found inside a token, so the search may start behind it as well. -/
theorem tokenIndex?_behind {first token ahead : Bytes} (hfirst : Tag first) (htoken : Tag token)
    (hapart : ¬ first <+: token ∧ ¬ token <+: first) (hends : NameEnds ahead) :
    tokenIndex? token (first ++ ahead) = (tokenIndex? token ahead).map (first.length + ·) := by
  have hopen : StartsToken first (first ++ ahead) := StartsToken.append_iff.2 hends
  have hnone : ∀ j < first.length, ¬ StartsToken token ((first ++ ahead).drop j) := by
    intro j hj hs
    rcases Nat.eq_zero_or_pos j with rfl | hpos
    · exact hopen.not_both hs hapart
    · have := StartsToken.add_lt (i := 0) hfirst htoken hopen hs hpos
      omega
  cases hi : tokenIndex? token ahead with
  | none =>
    rw [tokenIndex?_eq_none_iff htoken.distinct] at hi
    refine (tokenIndex?_eq_none_iff htoken.distinct).2 fun j hs => ?_
    rcases Nat.lt_or_ge j first.length with hj | hj
    · exact hnone j hj hs
    · obtain ⟨k, rfl⟩ : ∃ k, j = first.length + k := ⟨j - first.length, by omega⟩
      rw [← List.drop_drop, List.drop_left] at hs
      exact hi k hs
  | some i =>
    rw [tokenIndex?_eq_some_iff htoken.distinct] at hi
    exact (tokenIndex?_eq_some_iff htoken.distinct).2 (hi.append_front hnone)

/-- The search from the start of a token, by positions in the whole text. -/
theorem tokenPlace?_start {first token : Bytes} {c : Cursor} (h : c.Between)
    (hfirst : Tag first) (hwhole : Whole first) (htoken : Tag token) (hwhole' : Whole token)
    (hapart : ¬ first <+: token ∧ ¬ token <+: first) {front : Bytes}
    (hbehind : c.behind.reverse = front ++ first) (hends : NameEnds c.ahead) :
    tokenPlace? token c.text (c.offset - first.length) =
      (tokenIndex? token c.ahead).map (c.offset + ·) := by
  -- The same text, with the cursor before the token.
  have hstart : Cursor.Between ⟨front.reverse, first ++ c.ahead⟩ := by
    refine ⟨?_, hwhole.append h.ahead⟩
    rw [List.reverse_reverse]
    exact (hbehind ▸ h.behind).of_append_right hwhole
  have htext : c.text = Cursor.text ⟨front.reverse, first ++ c.ahead⟩ := by
    rw [Cursor.text, Cursor.text, hbehind, List.reverse_reverse, List.append_assoc]
  have hlen : c.offset = front.length + first.length := by
    rw [c.offset_eq, hbehind, List.length_append]
  have hoffset : c.offset - first.length = Cursor.offset ⟨front.reverse, first ++ c.ahead⟩ := by
    rw [hlen, Nat.add_sub_cancel, Cursor.offset, List.length_reverse]
  rw [htext, hoffset, tokenPlace?_offset hstart hwhole' htoken.ne_nil,
    tokenIndex?_behind hfirst htoken hapart hends,
    Option.map_map]
  refine congrArg (Option.map · _) (funext fun i => ?_)
  rw [Function.comp_apply, ← hoffset, hlen]
  omega

/-! ## Entering a run -/

theorem enterAt?_eq {s : RunSweep} (h : s.cursor.Between) :
    enterAt? s = some s.enter ∧ s.enter.Leads fun t => t.cursor.Between := by
  unfold enterAt? RunSweep.enter
  dsimp only
  rw [tokenPlace?_offset h whole_runStart (by decide)]
  cases hi : tokenIndex? runStart s.cursor.ahead with
  | none => exact ⟨rfl, h⟩
  | some i =>
    have hstarts := startsToken_of_tokenIndex? hi
    obtain ⟨tail, hhere, hoffset, hahead, htail, hpassed, hmoved⟩ :=
      exists_found h whole_runStart (by decide) hstarts.prefix_of
    rw [← Cursor.ahead_advance, hahead, StartsToken.append_iff] at hstarts
    have hbehind : (s.advance (i + runStart.length)).cursor.ahead = tail := by
      rw [Sweep.cursor_advance, ← Cursor.advance_advance, Cursor.ahead_advance, hahead,
        List.drop_left]
    have hslice := Cursor.Between.slice?_ahead hahead htail rfl
    have hsearch := tokenPlace?_offset hhere whole_textStart (by decide)
    rw [hahead, tokenIndex?_behind tag_runStart tag_textStart (by decide) hstarts] at hsearch
    rw [Option.map_some]
    dsimp only
    rw [← Cursor.text_advance s.cursor i, ← hoffset, hmoved, hslice, hsearch, hbehind,
      Option.bind_eq_bind, Option.bind_some]
    by_cases hempty : Bytes.opensWith "/>" tail = true
    · rw [if_pos hempty, if_pos hempty]
      exact ⟨rfl, hpassed⟩
    · rw [if_neg hempty, if_neg hempty]
      cases ht : tokenIndex? textStart tail with
      | none => exact ⟨rfl, hpassed⟩
      | some t =>
        obtain ⟨behind, -, -, hnode, hwhole, -, -⟩ :=
          exists_found hpassed whole_textStart (by decide)
            (by rw [hbehind]; exact (startsToken_of_tokenIndex? ht).prefix_of)
        rw [Cursor.ahead_advance, hbehind] at hnode
        have hlt := tokenIndex?_add_length_lt ht
        have hrest : tail.drop (t + textStart.length) = behind := by
          rw [← List.drop_drop, hnode, List.drop_left]
        have htake : tail.take (t + textStart.length) ++ behind = tail := by
          rw [← hrest, List.take_append_drop]
        have hopening : (s.cursor.advance i).ahead =
            (runStart ++ tail.take (t + textStart.length)) ++ behind := by
          rw [hahead, List.append_assoc, htake]
        have hlen : (runStart ++ tail.take (t + textStart.length)).length =
            runStart.length + t + textStart.length := by
          rw [List.length_append, List.length_take, Nat.min_eq_left (Nat.le_of_lt hlt),
            Nat.add_assoc]
        rw [Option.map_some, Option.map_some]
        dsimp only
        rw [hhere.slice?_here hopening hwhole (by rw [hlen]; simp only [Nat.add_assoc]),
          Option.bind_some, ← Nat.add_assoc, Nat.add_sub_cancel_left]
        exact ⟨rfl, hpassed⟩

/-! ## Joining -/

/-- Behind a joint stands the end of a name, so what stands there starts between two characters. -/
theorem whole_behind_joint {joint tail : Bytes} (h : Whole tail)
    (hjoint : (joint.isPrefixOf tail && (tail.drop joint.length).head?.any opensOrEnds) = true) :
    tail = joint ++ tail.drop joint.length ∧ Whole (tail.drop joint.length) := by
  rw [Bool.and_eq_true, List.isPrefixOf_iff_prefix] at hjoint
  obtain ⟨⟨next, rfl⟩, hends⟩ := hjoint
  rw [List.drop_left] at hends ⊢
  refine ⟨rfl, (h.split fun b hb => ?_).2⟩
  rw [hb, Option.any_some, opensOrEnds, Bool.or_eq_true, beq_iff_eq, beq_iff_eq] at hends
  rcases hends with rfl | rfl <;> exact Or.inl (by decide)

/-- What stands further ahead can be cut out from under a cursor that stays where it is. -/
theorem cut?_further {c : Cursor} {n stop : Nat} {x rest : Bytes} (h : c.Between)
    (hthere : (c.advance n).Between) (hoffset : (c.advance n).offset = c.offset + n)
    (hahead : c.ahead.drop n = x ++ rest) (hrest : Whole rest)
    (hstop : stop = c.offset + n + x.length) :
    Bytes.cut? c.text (c.offset + n) stop =
        some (Cursor.text ⟨c.behind, c.ahead.take n ++ rest⟩) ∧
      Cursor.Between ⟨c.behind, c.ahead.take n ++ rest⟩ := by
  rw [← Cursor.ahead_advance] at hahead
  have htext : ((c.advance n).delete x.length).text =
      Cursor.text ⟨c.behind, c.ahead.take n ++ rest⟩ := by
    rw [Cursor.text, Cursor.behind_delete, Cursor.ahead_delete, hahead, List.drop_left,
      Cursor.advance, List.reverse_append, List.reverse_reverse, Cursor.text, List.append_assoc]
  rw [← hoffset] at hstop
  have hkept := hthere.cut? hahead hrest hstop
  rw [Cursor.text_advance, hoffset, htext] at hkept
  refine ⟨hkept, h.behind, ?_⟩
  have hfront : Whole (c.ahead.take n ++ (c.advance n).ahead) := by
    rw [Cursor.ahead_advance, List.take_append_drop]
    exact h.ahead
  exact (hfront.of_append_right hthere.ahead).append hrest

theorem cutNextAt?_eq {s : RunSweep} (run : OpenRun) {cutAt : Nat} (h : s.cursor.Between)
    (hcut : (s.cursor.advance cutAt).Between)
    (hoffset : (s.cursor.advance cutAt).offset = s.cursor.offset + cutAt) :
    let tail := s.cursor.ahead.drop cutAt
    let next := tail.drop run.joint.length
    let step : Step RunSweep RunSweep :=
      if run.joint.isPrefixOf tail && next.head?.any opensOrEnds then
        match Bytes.indexOf? ['>'.toUInt8] next with
        | none =>
          .more (s.leaveWith fun here => .unclosedTag "<w:t" (here + cutAt + run.joint.length))
        | some g =>
          .more { s with
            cursor := ⟨s.cursor.behind, s.cursor.ahead.take cutAt ++ next.drop (g + 1)⟩
            count := s.count + 1 }
      else .more s.leave
    cutNextAt? s run (s.cursor.offset + cutAt) = some step ∧
      step.Leads fun t => t.cursor.Between := by
  intro tail next step
  have htail : (s.cursor.advance cutAt).ahead = tail := rfl
  have hslice := Cursor.Between.slice?_ahead (x := []) htail hcut.ahead rfl
  have hget := (s.cursor.advance cutAt).getElem?_text_add run.joint.length
  rw [Cursor.text_advance, hoffset] at hslice hget
  have hhead : tail[run.joint.length]? = next.head? := List.head?_drop.symm
  rw [htail, hhead] at hget
  rw [List.length_nil, Nat.add_zero] at hslice
  unfold cutNextAt?
  dsimp only
  rw [hslice, hget, Option.bind_eq_bind, Option.bind_some]
  by_cases hjoint : (run.joint.isPrefixOf tail && next.head?.any opensOrEnds) = true
  · obtain ⟨hwhole, hnext⟩ : tail = run.joint ++ next ∧ Whole next :=
      whole_behind_joint hcut.ahead hjoint
    have hplace : (s.cursor.advance (cutAt + run.joint.length)).offset =
        s.cursor.offset + cutAt + run.joint.length := by
      rw [← Cursor.advance_advance, Cursor.offset_advance (by
        rw [htail, hwhole, List.length_append]; omega), hoffset]
    have hbehind := (hcut.advance hwhole hnext).indexFrom? ['>'.toUInt8]
    rw [Cursor.advance_advance, Cursor.text_advance, hplace, Cursor.ahead_advance,
      ← List.drop_drop] at hbehind
    rw [if_pos hjoint, show step = _ from if_pos hjoint, hbehind]
    cases hg : Bytes.indexOf? ['>'.toUInt8] next with
    | none => exact ⟨rfl, h⟩
    | some g =>
      obtain ⟨attributes, rest, hsplit, -, rfl, -, hrest⟩ :=
        hnext.of_indexOf?_singleton (by decide) hg
      have hremove : tail = (run.joint ++ (attributes ++ ['>'.toUInt8])) ++ rest := by
        rw [hwhole, hsplit]
        simp
      have hdrop : next.drop (attributes.length + 1) = rest := by
        rw [hsplit, List.drop_length_add_append]
        rfl
      obtain ⟨hkept, hbetween⟩ := cut?_further h hcut hoffset hremove hrest
        (show s.cursor.offset + cutAt + run.joint.length + attributes.length + 1 = _ by
          simp only [List.length_append, List.length_singleton]
          omega)
      rw [Option.map_some]
      dsimp only
      rw [hkept, Option.bind_some, hdrop]
      refine ⟨congrArg some (congrArg Step.more ?_), hbetween⟩
      rw [show s.cursor.offset =
        Cursor.offset ⟨s.cursor.behind, s.cursor.ahead.take cutAt ++ rest⟩ from rfl,
        Cursor.atPlace_offset]
  · rw [if_neg hjoint, show step = .more s.leave from if_neg hjoint]
    exact ⟨rfl, h⟩

theorem joinAt?_eq {s : RunSweep} {run : OpenRun} (hs : Standing s) (h : s.cursor.Between)
    (inside : s.current? = some run) :
    joinAt? s run = some (s.join run) ∧ (s.join run).Leads fun t => t.cursor.Between := by
  obtain ⟨hopen, ⟨front, hfront⟩, hends⟩ := hs.inside_run inside
  obtain ⟨-, htext, hopening⟩ := openRun?_eq_some_iff.1 hopen
  have hclose := tokenPlace?_start h tag_runStart whole_runStart tag_runEnd whole_runEnd
    (by decide) hfront hends
  -- The text node of the run.
  obtain ⟨behind, hnode, hplace, -, -, -, -⟩ :=
    exists_found h whole_textStart (by decide) htext.1.prefix_of
  have hending := tokenPlace?_offset hnode whole_textEnd (by decide)
  have hrun := tokenPlace?_offset hnode whole_runStart (by decide)
  rw [Cursor.text_advance, Cursor.ahead_advance, hplace] at hending hrun
  unfold joinAt? RunSweep.join
  dsimp only
  rw [hclose, hending, hrun]
  cases hc : tokenIndex? runEnd s.cursor.ahead with
  | none => exact ⟨rfl, h⟩
  | some close =>
    rw [Option.map_some]
    dsimp only
    simp only [Nat.add_lt_add_iff_left]
    by_cases hbefore : close < run.textAt
    · rw [if_pos hbefore, if_pos hbefore]
      exact ⟨rfl, h⟩
    · rw [if_neg hbefore, if_neg hbefore]
      cases he : tokenIndex? textEnd (s.cursor.ahead.drop run.textAt) with
      | none => exact ⟨rfl, h⟩
      | some ending =>
        have hends := (startsToken_of_tokenIndex? he).prefix_of
        rw [List.drop_drop] at hends
        obtain ⟨rest, hcut, hoffset, -, -, -, -⟩ :=
          exists_found h whole_textEnd (by decide) hends
        have hinner : ((tokenIndex? runStart (s.cursor.ahead.drop run.textAt)).map
            (s.cursor.offset + run.textAt + ·)).any
              (· < s.cursor.offset + run.textAt + ending) =
            (tokenIndex? runStart (s.cursor.ahead.drop run.textAt)).any (· < ending) := by
          cases tokenIndex? runStart (s.cursor.ahead.drop run.textAt) <;> simp
        rw [Option.map_some]
        dsimp only
        rw [hinner, Nat.add_assoc]
        simp only [Nat.add_lt_add_iff_left]
        split
        · exact ⟨rfl, h⟩
        · split
          · exact ⟨rfl, h⟩
          · exact cutNextAt?_eq run h hcut hoffset

end DocxTemplate.Sanitize
