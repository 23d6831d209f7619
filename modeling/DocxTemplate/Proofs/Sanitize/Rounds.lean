import DocxTemplate.Proofs.Sanitize.TokenPlace
import DocxTemplate.Proofs.Sanitize.Warnings

/-! # How long the loops take

    Each loop of the passes goes round at most once for each byte of the document, and once
    more. A cursor that moves back over what was removed costs nothing: the text ahead of it
    has become shorter all the same.

    * `Scan.mul_rounds_le`: a measure that falls by `k` in each round bounds the rounds.
    * `mul_rounds_tokenScan_le`, `mul_rounds_placeScan_le`, `mul_rounds_attributeScan_le`,
      `mul_rounds_bareTagScan_le`: a loop that looks for a pattern is bounded by how often the
      pattern fits into the text.
    * `two_mul_rounds_runScan_le`: finding runs and joining them, counted together.
    * `rounds_le_length_add_one`: all the loops of the passes over one document.
-/

namespace DocxTemplate

namespace Scan

variable {σ ρ : Type} {scan : Scan σ ρ}

/-- How often a scan goes round: once for each step, and once where it ends. -/
def rounds (scan : Scan σ ρ) (s : σ) : Nat := (scan.trace s).length

theorem rounds_of_more {s t : σ} (h : scan.next s = .more t) :
    scan.rounds s = scan.rounds t + 1 := by
  rw [rounds, trace_of_more h, List.length_cons, rounds]

theorem rounds_of_done {s : σ} {r : ρ} (h : scan.next s = .done r) : scan.rounds s = 1 := by
  rw [rounds, trace_of_done h, List.length_singleton]

/-- While `P` holds, each round but the last lowers a measure by at least `k`. -/
theorem mul_rounds_le_of_kept {P : σ → Prop} (measure : σ → Nat) {k : Nat}
    (falls : ∀ s t, P s → scan.next s = .more t → P t ∧ measure t + k ≤ measure s)
    (s : σ) (h : P s) : k * scan.rounds s ≤ measure s + k := by
  -- Every round is paid for by the fall of the measure, and only the last one has no fall.
  induction s using scan.backward_induction with
  | more s t hnext ih =>
    obtain ⟨ht, hfall⟩ := falls s t h hnext
    have hrest := ih ht
    rw [rounds_of_more hnext, Nat.mul_succ]
    omega
  | done s r hnext =>
    rw [rounds_of_done hnext]
    omega

theorem mul_rounds_le (measure : σ → Nat) {k : Nat}
    (falls : ∀ s t, scan.next s = .more t → measure t + k ≤ measure s) (s : σ) :
    k * scan.rounds s ≤ measure s + k :=
  mul_rounds_le_of_kept (P := fun _ => True) measure (fun s t _ h => ⟨trivial, falls s t h⟩) s
    trivial

/-- A measure that falls by at least `k > 0` allows one round more than its value. -/
theorem rounds_le_of_mul_le {s : σ} {k n : Nat} (hk : 0 < k) (h : k * scan.rounds s ≤ n + k) :
    scan.rounds s ≤ n + 1 := by
  refine Nat.le_of_mul_le_mul_left (Nat.le_trans h ?_) hk
  rw [Nat.mul_succ]
  exact Nat.add_le_add_right (Nat.le_mul_of_pos_left n hk) k

end Scan

namespace Sanitize

/-! ## One loop over one text -/

/-- The search for a token passes the whole token where its name goes on. -/
theorem mul_rounds_tokenScan_le (token : Bytes) (passed : Nat) (text : Bytes) :
    token.length * (tokenScan token).rounds (passed, text) ≤ text.length + token.length := by
  refine Scan.mul_rounds_le (fun s => s.2.length) (fun s t hnext => ?_) (passed, text)
  obtain ⟨passed, text⟩ := s
  simp only [tokenScan] at hnext
  split at hnext
  · simp at hnext
  · next i hi =>
    have hin := Bytes.indexOf?_add_length_le hi
    split at hnext
    · simp at hnext
    · next b rest hrest =>
      split at hnext
      · simp at hnext
      · -- A byte stands behind the token, so all of the token can be passed.
        simp only [Step.more.injEq] at hnext
        subst hnext
        have hbehind := congrArg List.length hrest
        simp only [List.length_drop, List.length_cons] at hbehind ⊢
        omega

/-- Searching by positions takes at most one round more, behind a token at the very end. -/
theorem mul_rounds_placeScan_le (token text : Bytes) (start : Nat) :
    token.length * (placeScan token text).rounds start ≤ text.length + token.length := by
  have hrounds : token.length * (placeScan token text).rounds start ≤
      text.length - start + token.length := by
    refine Scan.mul_rounds_le (fun start => text.length - start) (fun start t hnext => ?_) start
    have hle := le_of_placeStep hnext
    omega
  exact Nat.le_trans hrounds (Nat.add_le_add_right (Nat.sub_le _ _) _)

/-- The loop over the elements of one name passes or removes at least the end of a tag. -/
theorem rounds_markerScan_le (token : String) (s : Sweep) :
    (markerScan token).rounds s ≤ s.cursor.ahead.length + 1 := by
  have hfall : ∀ s t, (markerScan token).next s = .more t →
      t.cursor.ahead.length + 1 ≤ s.cursor.ahead.length := fun _ _ hnext =>
    length_markerStep_lt hnext
  rw [← Nat.one_mul (Scan.rounds _ _)]
  exact Scan.mul_rounds_le (fun s => s.cursor.ahead.length) hfall s

/-- What a step leaves ahead once it has found a pattern and dealt with at least that much. -/
theorem length_drop_add_le {pattern ahead : Bytes} {i : Nat}
    (hi : Bytes.indexOf? pattern ahead = some i) (n : Nat) :
    (ahead.drop (i + (pattern.length + n))).length + pattern.length ≤ ahead.length := by
  have hin := Bytes.indexOf?_add_length_le hi
  rw [List.length_drop]
  omega

/-- The loop over the attributes of one name passes or removes at least the name and its `=`.
    The white space that goes with an attribute stands behind the cursor, so that taking it
    away leaves no more to do. -/
theorem mul_rounds_attributeScan_le (name : String) (s : Sweep) :
    (attributeToken name).length * (attributeScan name).rounds s ≤
      s.cursor.ahead.length + (attributeToken name).length := by
  refine Scan.mul_rounds_le (fun s => s.cursor.ahead.length) (fun s t hnext => ?_) s
  change attributeStep name s = .more t at hnext
  unfold attributeStep at hnext
  dsimp only at hnext
  rw [← attributeToken] at hnext
  cases hi : Bytes.indexOf? (attributeToken name) s.cursor.ahead with
  | none => simp [hi] at hnext
  | some i =>
    have hahead : ∃ n, t.cursor.ahead =
        s.cursor.ahead.drop (i + ((attributeToken name).length + n)) := by
      rw [hi] at hnext
      dsimp only at hnext
      split at hnext
      · split at hnext
        · exact ⟨0, by cases hnext; rfl⟩
        · next n hn =>
          split at hnext
          · exact ⟨n, by cases hnext; simp⟩
          · exact ⟨0, by cases hnext; rfl⟩
      · exact ⟨0, by cases hnext; rfl⟩
    obtain ⟨n, hn⟩ := hahead
    rw [hn]
    exact length_drop_add_le hi n

/-- The loop over the tags that are nothing but the attribute, in the same way. -/
theorem mul_rounds_bareTagScan_le (name : String) (s : Sweep) :
    ('<'.toUInt8 :: attributeToken name).length * (bareTagScan name).rounds s ≤
      s.cursor.ahead.length + ('<'.toUInt8 :: attributeToken name).length := by
  refine Scan.mul_rounds_le (fun s => s.cursor.ahead.length) (fun s t hnext => ?_) s
  change bareTagStep name s = .more t at hnext
  unfold bareTagStep at hnext
  dsimp only at hnext
  rw [List.cons_append, ← attributeToken] at hnext
  cases hi : Bytes.indexOf? ('<'.toUInt8 :: attributeToken name) s.cursor.ahead with
  | none => simp [hi] at hnext
  | some i =>
    have hahead : ∃ n, t.cursor.ahead =
        s.cursor.ahead.drop (i + (('<'.toUInt8 :: attributeToken name).length + n)) := by
      rw [hi] at hnext
      dsimp only at hnext
      split at hnext
      · exact ⟨0, by cases hnext; rfl⟩
      · next n hn =>
        split at hnext
        · exact ⟨0, by cases hnext; rfl⟩
        · next m hm => exact ⟨n + m, by cases hnext; simp [Nat.add_assoc]⟩
    obtain ⟨n, hn⟩ := hahead
    rw [hn]
    exact length_drop_add_le hi n

/-! ## Finding runs and joining them -/

/-- What is left to do for the run pass: the bytes ahead, and two more while it stands in
    a run. Finding a run passes its `<w:r`, which is more than standing in it costs. -/
def RunSweep.toDo (s : RunSweep) : Nat :=
  s.cursor.ahead.length + if s.current?.isSome then 2 else 0

theorem RunStep.toDo_add_two_le {s t : RunSweep} (hs : Standing s) (hstep : RunStep s t) :
    t.toDo + 2 ≤ s.toDo := by
  have hfound : ∀ {front ahead}, RunIn s.cursor.ahead front ahead →
      ahead.length + 4 ≤ s.cursor.ahead.length := by
    intro front ahead found
    rw [found.1]
    simp
    omega
  cases hstep with
  | skip outside found first empty =>
    have hlen := hfound found
    simp only [RunSweep.toDo, outside, RunSweep.ahead_behindRun, RunSweep.current?_behindRun]
    simp
    omega
  | enter outside found first opened =>
    have hlen := hfound found
    simp only [RunSweep.toDo, outside, RunSweep.ahead_behindRun, RunSweep.current?_behindRun]
    simp
    omega
  | @cut run c inside made =>
    -- The joint alone has the two end tags.
    obtain ⟨e, -, -, hwhole, attributes, hremoved, -⟩ :=
      joinsAt_of_cut? (hs.opened _ inside).2 made
    simp only [RunSweep.toDo, ← hwhole, Cut.whole, Cut.rest, hremoved, OpenRun.joint,
      List.length_append, List.length_cons, length_textEnd]
    omega
  | leave inside none_made leaves =>
    obtain ⟨ws, rfl⟩ := leaves
    simp [RunSweep.toDo, inside]

/-- Finding runs and trying to join them, counted together. -/
theorem two_mul_rounds_runScan_le (text : Bytes) :
    2 * runScan.rounds { toSweep := Sweep.ofText text } ≤ text.length + 2 :=
  Scan.mul_rounds_le_of_kept (P := Standing) RunSweep.toDo
    (fun _ _ hs hnext =>
      have hstep := runStep_of_next hnext
      ⟨hs.step hstep, hstep.toDo_add_two_le hs⟩)
    _ (standing_start text)

/-! ## The loops of a whole pass -/

/-- The elements of some names are gone, and the text has not become longer. -/
theorem length_markers_le (tags : List String) (text : Bytes) :
    (tags.foldl (fun s tag => (markerScan (tokenOf tag)).run s.rewind)
      (Sweep.ofText text)).cursor.text.length ≤ text.length := by
  obtain ⟨cuts, htracked⟩ := removeMarkers_tracked tags text
  exact Nat.le_trans (Nat.le_add_right _ _) (htracked.cutting.length_le htracked.removed)

theorem Deletes.length_le {names : List String} {s t : Sweep}
    (h : Deletes (OfAttribute names) s t) :
    t.cursor.text.length ≤ s.cursor.text.length := by
  obtain ⟨cuts, hcutting, -, hshape⟩ := h
  exact Nat.le_trans (Nat.le_add_right _ _)
    (hcutting.length_le fun c hc => (hshape c hc).removed_ne_nil)

/-- A loop that starts over a text no longer than the document makes no more rounds than one
    over the document. -/
theorem rounds_rewind_le {scan : Scan Sweep Sweep} {s : Sweep} {k n : Nat} (hk : 0 < k)
    (h : k * scan.rounds s.rewind ≤ s.rewind.cursor.ahead.length + k)
    (hlen : s.cursor.text.length ≤ n) : scan.rounds s.rewind ≤ n + 1 :=
  Nat.le_trans (Scan.rounds_le_of_mul_le hk h) (Nat.add_le_add_right hlen 1)

/-- **Every loop ends soon.** Over a document of `n` bytes, each of these goes round at most
    `n + 1` times: the search for a token from any place, over the rest of the text or by
    positions in the whole of it; the loop over the elements of a name, whatever names came
    before it; both loops over an attribute, likewise; and the run pass with its inner loop. -/
theorem rounds_le_length_add_one (text : Bytes) :
    (∀ token start, token ≠ [] →
      (tokenScan token).rounds (0, text.drop start) ≤ text.length + 1 ∧
      (placeScan token text).rounds start ≤ text.length + 1) ∧
    (∀ (tags : List String) tag,
      (markerScan (tokenOf tag)).rounds
        (tags.foldl (fun s tag => (markerScan (tokenOf tag)).run s.rewind)
          (Sweep.ofText text)).rewind ≤ text.length + 1) ∧
    (∀ (names : List String) name,
      let s := (names.foldl sweepAttribute (Sweep.ofText text)).rewind
      (attributeScan name).rounds s ≤ text.length + 1 ∧
      (bareTagScan name).rounds ((attributeScan name).run s).rewind ≤ text.length + 1) ∧
    runScan.rounds { toSweep := Sweep.ofText text } ≤ text.length + 1 := by
  refine ⟨fun token start hne => ?search, fun tags tag => ?markers, fun names name => ?attributes,
    ?runs⟩
  case search =>
    have hpos := List.length_pos_iff.2 hne
    refine ⟨?_, Scan.rounds_le_of_mul_le hpos (mul_rounds_placeScan_le token text start)⟩
    refine Nat.le_trans (Scan.rounds_le_of_mul_le hpos (mul_rounds_tokenScan_le token 0 _)) ?_
    rw [List.length_drop]
    omega
  case markers =>
    exact rounds_rewind_le Nat.one_pos (by rw [Nat.one_mul]; exact rounds_markerScan_le _ _)
      (length_markers_le tags text)
  case attributes =>
    -- The second loop starts over what the first has left of the text.
    have hbefore := (foldl_sweepAttribute_cuts names text).length_le
    have hfirst : ∀ s, ((attributeScan name).run s).cursor.text.length ≤ s.cursor.text.length :=
      fun s => (Deletes.of_scan (attributeScan name)
        (attributeStep_deletes (List.mem_singleton_self name)) s).length_le
    have hpos : 0 < (attributeToken name).length := by simp [attributeToken]
    exact ⟨rounds_rewind_le hpos (mul_rounds_attributeScan_le name _) hbefore,
      rounds_rewind_le (Nat.succ_pos _) (mul_rounds_bareTagScan_le name _)
        (Nat.le_trans (hfirst _) hbefore)⟩
  case runs => exact Scan.rounds_le_of_mul_le Nat.two_pos (two_mul_rounds_runScan_le text)

/-- Names that begin like the one that is looked for. -/
def nearNames : Bytes := Bytes.ofString "<w:tab/><w:tbl><w:t>"

theorem rounds_nearNames :
    textStart ≠ [] ∧ (tokenScan textStart).rounds (0, nearNames.drop 0) ≤ nearNames.length + 1 ∧
      (placeScan textStart nearNames).rounds 0 ≤ nearNames.length + 1 :=
  ⟨by decide, (rounds_le_length_add_one nearNames).1 textStart 0 (by decide)⟩

end Sanitize

end DocxTemplate
