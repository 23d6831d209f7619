import DocxTemplate.Proofs.Sanitize.Deletions

/-! # Where warnings point

    A warning gives the place of a token in the text as the pass has left it so far. In the text
    that the pass was given the token stands further on, by all that was cut out in front of it.

    * `origin`: where in the first text a place comes from that several cuts have moved, and
      `origin_eq_self_iff`: which places the cuts have not moved.
    * `Reported`: a token is reported at a place after some cuts.
    * `Tracked`: what every step of a pass keeps: the cuts so far, and for each warning those that
      were made before it.
    * `warnings_reported`: the warnings of the two passes that give any.
-/

namespace DocxTemplate.Sanitize

/-! ## What a warning is about -/

/-- The token that a warning is about. -/
def Warning.token : Warning → Bytes
  | unclosedTag tag _ | nonEmptyTag tag _ => Bytes.ofString tag
  | unclosedRun _ => runStart
  | unclosedText _ => textStart

/-- How far behind its token the run pass reports a warning: behind the whole token, if the second
    of two text tags has no end. -/
def Warning.lag : Warning → Nat
  | unclosedTag _ _ => textStart.length
  | nonEmptyTag _ _ | unclosedRun _ | unclosedText _ => 0

variable {x y text token : Bytes} {c : Cut} {cuts done : List Cut} {place : Nat}

/-! ## Places before and after cuts -/

/-- Where a place comes from that a cut has moved. -/
def Cut.origin (c : Cut) (place : Nat) : Nat :=
  if place < c.before.length then place else place + c.removed.length

/-- The same for several cuts, made one after the other: the last one is undone first. -/
def origin (cuts : List Cut) (place : Nat) : Nat := cuts.foldr Cut.origin place

theorem origin_cons (c : Cut) (cuts : List Cut) (place : Nat) :
    origin (c :: cuts) place = c.origin (origin cuts place) := rfl

/-- What stands at a place behind the cut stood at its origin. -/
theorem Cut.getElem?_origin (c : Cut) (place : Nat) :
    c.whole[c.origin place]? = c.rest[place]? := by
  unfold origin whole rest
  split
  · next hlt =>
    rw [List.append_assoc, List.getElem?_append_left hlt, List.getElem?_append_left hlt]
  · next hge =>
    rw [List.append_assoc, List.getElem?_append_right (by omega),
      List.getElem?_append_right (by omega), List.getElem?_append_right (by omega)]
    congr 1
    omega

theorem Cutting.getElem?_origin (h : Cutting x cuts y) (place : Nat) :
    x[origin cuts place]? = y[place]? := by
  induction h with
  | nil => rfl
  | @cons c cuts last next ih => rw [origin_cons, c.getElem?_origin, ih]

theorem Cut.le_origin (c : Cut) (place : Nat) : place ≤ c.origin place := by
  unfold origin
  split
  · exact Nat.le_refl place
  · exact Nat.le_add_right place _

theorem Cut.origin_eq_self_iff (hc : c.removed ≠ []) :
    c.origin place = place ↔ place < c.before.length := by
  have hpos := List.length_pos_iff.2 hc
  unfold origin
  split
  · next hlt => exact ⟨fun _ => hlt, fun _ => rfl⟩
  · next hge =>
    constructor
    · intro heq
      omega
    · intro hlt
      exact absurd hlt hge

theorem le_origin (cuts : List Cut) (place : Nat) : place ≤ origin cuts place := by
  induction cuts with
  | nil => exact Nat.le_refl place
  | cons c cuts ih => exact Nat.le_trans ih (c.le_origin _)

/-- A place has not moved if it stands in front of everything that was cut out. -/
theorem origin_eq_self_iff (hcuts : ∀ c ∈ cuts, c.removed ≠ []) :
    origin cuts place = place ↔ ∀ c ∈ cuts, place < c.before.length := by
  induction cuts with
  | nil => simp [origin]
  | cons c cuts ih =>
    rw [List.forall_mem_cons] at hcuts
    rw [origin_cons, List.forall_mem_cons, ← ih hcuts.2, ← Cut.origin_eq_self_iff hcuts.1]
    have hle := le_origin cuts place
    have hle' := c.le_origin (origin cuts place)
    constructor
    · intro heq
      have hsame : origin cuts place = place := by omega
      rw [hsame] at heq
      exact ⟨heq, hsame⟩
    · rintro ⟨heq, hsame⟩
      rw [hsame, heq]

/-! ## Tokens that are reported -/

/-- A token is reported at a place of a text after some cuts. -/
structure Reported (text : Bytes) (done : List Cut) (token : Bytes) (place : Nat) : Prop where
  /-- It stands there in what the cuts have left. -/
  stands : ∃ left, Cutting text done left ∧ StartsToken token (left.drop place)
  /-- Its bytes are bytes of the text, which the cuts have moved together. -/
  bytes : ∀ k < token.length, text[origin done (place + k)]? = token[k]?
  /-- They stand in their own places exactly if nothing was cut out in front of the token's end. -/
  unmoved : (∀ k < token.length, origin done (place + k) = place + k) ↔
    ∀ c ∈ done, place + token.length ≤ c.before.length
  /-- In this case the token stands at this place of the text, too. -/
  in_text : (∀ c ∈ done, place + token.length ≤ c.before.length) → token <+: text.drop place

/-- What stands after cuts is reported from where it came. -/
theorem reported_of_stands {left : Bytes} (hcuts : ∀ c ∈ done, c.removed ≠ []) (hne : token ≠ [])
    (cutting : Cutting text done left) (stands : StartsToken token (left.drop place)) :
    Reported text done token place := by
  have hpos := List.length_pos_iff.2 hne
  have hbytes : ∀ k < token.length, text[origin done (place + k)]? = token[k]? := by
    intro k hk
    obtain ⟨rest, hrest⟩ := stands.prefix_of
    rw [cutting.getElem?_origin, ← List.getElem?_drop, ← hrest, List.getElem?_append_left hk]
  have hunmoved : (∀ k < token.length, origin done (place + k) = place + k) ↔
      ∀ c ∈ done, place + token.length ≤ c.before.length := by
    constructor
    · intro h c hc
      have hlast := (origin_eq_self_iff hcuts).1 (h (token.length - 1) (by omega)) c hc
      omega
    · intro h k hk
      exact (origin_eq_self_iff hcuts).2 fun c hc => Nat.lt_of_lt_of_le (by omega) (h c hc)
  refine ⟨⟨left, cutting, stands⟩, hbytes, hunmoved, fun h => ?_⟩
  rw [List.prefix_iff_getElem?]
  intro k hk
  rw [List.getElem?_drop, ← (hunmoved.2 h) k hk, hbytes k hk, List.getElem?_eq_getElem hk]

/-! ## Passes that report -/

/-- What every step of a pass keeps: the cuts so far lead to its text, and each warning is about
    a token that stood there after the first of them, `lag` bytes before the offset it gives. -/
structure Tracked (text : Bytes) (lag : Warning → Nat) (s : Sweep) (cuts : List Cut) : Prop where
  cutting : Cutting text cuts s.cursor.text
  count_eq : s.count = cuts.length
  removed : ∀ c ∈ cuts, c.removed ≠ []
  warned : ∀ w ∈ s.warnings, ∃ done, done <+: cuts ∧
    ∃ place, w.offset = place + lag w ∧ Reported text done w.token place

namespace Tracked

variable {lag : Warning → Nat} {s t : Sweep}

theorem start (text : Bytes) (lag : Warning → Nat) : Tracked text lag (Sweep.ofText text) [] :=
  ⟨.nil, rfl, by simp, by simp [Sweep.ofText]⟩

/-- A step that changes neither the text nor what was counted and reported. -/
theorem same (h : Tracked text lag s cuts) (htext : t.cursor.text = s.cursor.text)
    (hcount : t.count = s.count) (hwarnings : t.warnings = s.warnings) :
    Tracked text lag t cuts :=
  ⟨htext ▸ h.cutting, hcount.trans h.count_eq, h.removed, hwarnings ▸ h.warned⟩

/-- A step that makes a cut. -/
theorem cut (h : Tracked text lag s cuts) (hwhole : s.cursor.text = c.whole)
    (hrest : t.cursor.text = c.rest) (hcount : t.count = s.count + 1)
    (hwarnings : t.warnings = s.warnings) (hne : c.removed ≠ []) :
    Tracked text lag t (cuts ++ [c]) := by
  have hsingle : Cutting s.cursor.text [c] t.cursor.text := by
    rw [hwhole, hrest]
    exact .cons .nil
  refine ⟨h.cutting.append hsingle, ?_, ?_, ?_⟩
  · rw [hcount, h.count_eq, List.length_append, List.length_singleton]
  · intro d hd
    rcases List.mem_append.1 hd with hd | hd
    · exact h.removed d hd
    · rw [List.mem_singleton.1 hd]
      exact hne
  · intro w hw
    obtain ⟨done, hdone, hplace⟩ := h.warned w (hwarnings ▸ hw)
    exact ⟨done, hdone.trans (List.prefix_append _ _), hplace⟩

/-- A step that reports a token of the text. -/
theorem warn (h : Tracked text lag s cuts) {w : Warning} (place : Nat)
    (htext : t.cursor.text = s.cursor.text) (hcount : t.count = s.count)
    (hwarnings : t.warnings = s.warnings ++ [w]) (hne : w.token ≠ [])
    (hplace : w.offset = place + lag w)
    (stands : StartsToken w.token (s.cursor.text.drop place)) : Tracked text lag t cuts := by
  refine ⟨htext ▸ h.cutting, hcount.trans h.count_eq, h.removed, fun v hv => ?_⟩
  rw [hwarnings] at hv
  rcases List.mem_append.1 hv with hv | hv
  · exact h.warned v hv
  · obtain rfl := List.mem_singleton.1 hv
    exact ⟨cuts, List.prefix_refl cuts, place, hplace,
      reported_of_stands h.removed hne h.cutting stands⟩

end Tracked

/-! ## Markers -/

/-- What is found is the token, with the end of a name behind it. The search may miss some of them
    if the token overlaps itself. -/
theorem startsToken_of_tokenIndex? {i : Nat} (h : tokenIndex? token text = some i) :
    StartsToken token (text.drop i) := by
  have hfound : ∀ i, (tokenScan token).run (0, text) = some i →
      StartsToken token (text.drop i) := by
    refine Scan.run_induction (P := fun s => s.2 = text.drop s.1)
      (Q := fun r => ∀ i, r = some i → StartsToken token (text.drop i)) ?_ ?_ (0, text) rfl
    · rintro ⟨passed, ahead⟩ t hahead hnext
      dsimp only [tokenScan] at hahead hnext
      split at hnext
      · cases hnext
      · split at hnext
        · cases hnext
        · split at hnext
          · cases hnext
          · cases hnext
            rw [hahead, List.drop_drop]
    · rintro ⟨passed, ahead⟩ r hahead hnext i rfl
      dsimp only [tokenScan] at hahead hnext
      split at hnext
      · cases hnext
      · next k hk =>
        split at hnext
        · cases hnext
        · next b rest hdrop =>
          split at hnext
          · next hb =>
            cases hnext
            rw [← List.drop_drop, ← hahead]
            exact StartsToken.of_prefix (Bytes.indexOf?_eq_some_iff.1 hk).1 hdrop hb
          · cases hnext
  exact hfound i h

theorem toList_tokenOf (name : String) : ∃ cs, (tokenOf name).toList = '<' :: cs := by
  unfold tokenOf
  split
  · next hhead =>
    rw [beq_iff_eq, List.head?_eq_some_iff] at hhead
    exact hhead
  · exact ⟨name.toList, String.toList_append⟩

theorem ofString_tokenOf_ne_nil (name : String) : Bytes.ofString (tokenOf name) ≠ [] := by
  obtain ⟨cs, hcs⟩ := toList_tokenOf name
  rw [Bytes.ofString, hcs, List.flatMap_cons]
  exact List.append_ne_nil_of_left_ne_nil String.utf8EncodeChar_ne_nil _

/-- A step of the marker pass. -/
theorem markerStep_tracked {lag : Warning → Nat} (hlag : ∀ w, lag w = 0) (name : String)
    {s : Sweep} (h : Tracked text lag s cuts) :
    (markerStep (tokenOf name) s).Leads fun t => ∃ cuts, Tracked text lag t cuts := by
  unfold markerStep
  cases hi : tokenIndex? (Bytes.ofString (tokenOf name)) s.cursor.ahead with
  | none => exact ⟨cuts, h⟩
  | some i =>
    have hhere : (s.cursor.advance i).text = s.cursor.text := Cursor.text_advance _ _
    have hahead : s.cursor.text.drop (s.cursor.advance i).offset = (s.cursor.advance i).ahead := by
      rw [← hhere]
      exact List.drop_left' List.length_reverse
    have hstands : StartsToken (Bytes.ofString (tokenOf name))
        (s.cursor.text.drop (s.cursor.advance i).offset) := by
      rw [hahead]
      exact startsToken_of_tokenIndex? hi
    dsimp only
    cases hg : Bytes.indexOf? ['>'.toUInt8] (s.cursor.advance i).ahead with
    | none =>
      exact ⟨cuts, h.warn _ rfl rfl rfl (ofString_tokenOf_ne_nil name) (by rw [hlag]; rfl) hstands⟩
    | some g =>
      have hgt := Bytes.indexOf?_singleton_lt hg
      generalize s.cursor.advance i = here at hhere hstands hgt ⊢
      -- At least the `>` of the tag is removed.
      have hremove : ∀ n, ∃ cuts', Tracked text lag
          { s with cursor := here.delete (g + 1 + n), count := s.count + 1 } cuts' := by
        intro n
        refine ⟨_, h.cut (c := ⟨here.behind.reverse, here.ahead.take (g + 1 + n),
          here.ahead.drop (g + 1 + n)⟩) ?_ rfl rfl rfl ?_⟩
        · rw [Cut.whole, List.append_assoc, List.take_append_drop, ← hhere]
          rfl
        · intro hnil
          have hlength := congrArg List.length hnil
          rw [List.length_take, List.length_nil] at hlength
          omega
      dsimp only
      split
      · exact hremove 0
      · split
        · exact hremove _
        · exact ⟨cuts, h.warn _ (Cursor.text_advance _ _) rfl rfl (ofString_tokenOf_ne_nil name)
            (by rw [hlag]; rfl) hstands⟩

/-- The marker pass sweeps over the text once for each tag. -/
theorem removeMarkers_tracked (tags : List String) (text : Bytes) : ∃ cuts,
    Tracked text (fun _ => 0) (tags.foldl (fun s tag => (markerScan (tokenOf tag)).run s.rewind)
      (Sweep.ofText text)) cuts := by
  have hscan : ∀ tag (s : Sweep), (∃ cuts, Tracked text (fun _ => 0) s cuts) →
      ∃ cuts, Tracked text (fun _ => 0) ((markerScan (tokenOf tag)).run s.rewind) cuts := by
    rintro tag s ⟨cuts, h⟩
    refine Scan.run_induction (P := fun s => ∃ cuts, Tracked text (fun _ => 0) s cuts)
      (Q := fun s => ∃ cuts, Tracked text (fun _ => 0) s cuts) ?_ ?_ s.rewind
      ⟨cuts, h.same rfl rfl rfl⟩
    · rintro s t ⟨cuts, h⟩ hnext
      have hstep := markerStep_tracked (fun _ => rfl) tag h
      rwa [show markerStep (tokenOf tag) s = .more t from hnext] at hstep
    · rintro s t ⟨cuts, h⟩ hnext
      have hstep := markerStep_tracked (fun _ => rfl) tag h
      rwa [show markerStep (tokenOf tag) s = .done t from hnext] at hstep
  have hfold : ∀ s : Sweep, (∃ cuts, Tracked text (fun _ => 0) s cuts) → ∃ cuts,
      Tracked text (fun _ => 0)
        (tags.foldl (fun s tag => (markerScan (tokenOf tag)).run s.rewind) s) cuts := by
    induction tags with
    | nil => exact fun s h => h
    | cons tag tags ih => exact fun s h => ih _ (hscan tag s h)
  exact hfold _ ⟨[], .start text _⟩

/-! ## Runs -/

/-- What stands behind the cursor of a sweep is behind its offset. -/
theorem drop_offset (s : RunSweep) (n : Nat) :
    s.cursor.text.drop (s.cursor.offset + n) = s.cursor.ahead.drop n := by
  have hbehind : s.cursor.text.drop s.cursor.offset = s.cursor.ahead :=
    List.drop_left' List.length_reverse
  rw [← List.drop_drop, hbehind]

/-- A run is left with a warning about its own start, its text node or the next one. -/
theorem leave_tracked {s t : RunSweep} {run : OpenRun} (hs : Standing s)
    (inside : s.current? = some run) (h : Tracked text Warning.lag s.toSweep cuts)
    (leaves : s.LeavesWith run t) : Tracked text Warning.lag t.toSweep cuts := by
  obtain ⟨hopen, ⟨front, hfront⟩, hends⟩ := hs.inside_run inside
  have hrunStart : runStart ≠ [] := by decide
  have htextStart : textStart ≠ [] := by decide
  rcases leaves with rfl | ⟨w, hw, rfl⟩
  · exact h.same rfl rfl rfl
  · cases hw with
    | run =>
      have hoffset : s.cursor.offset = front.length + runStart.length := by
        rw [← List.length_append, ← hfront]
        exact List.length_reverse.symm
      refine h.warn front.length rfl rfl rfl hrunStart ?_ ?_
      · change s.cursor.offset - runStart.length = front.length + 0
        omega
      · rw [s.text_eq, hfront, List.append_assoc, List.drop_left]
        exact StartsToken.append_iff.2 hends
    | text =>
      refine h.warn (s.cursor.offset + run.textAt) rfl rfl rfl htextStart rfl ?_
      rw [drop_offset]
      exact (openRun?_eq_some_iff.1 hopen).2.1.1
    | @tag cutAt next joined ends =>
      obtain ⟨front, hfront⟩ : ∃ front, run.joint = front ++ textStart := by
        obtain ⟨opening, hopening⟩ := textStart_suffix_opening hopen
        exact ⟨_, by rw [OpenRun.joint, ← hopening, ← List.cons_append, ← List.append_assoc]⟩
      refine h.warn (s.cursor.offset + (cutAt + front.length)) rfl rfl rfl htextStart ?_ ?_
      · change s.cursor.offset + cutAt + run.joint.length = _ + textStart.length
        rw [hfront, List.length_append]
        omega
      · rw [drop_offset, ← List.drop_drop, joined, hfront, List.append_assoc, List.drop_left]
        refine StartsToken.append_iff.2 ?_
        cases next with
        | nil => cases ends
        | cons b next => exact ⟨b, rfl, endsName_of_opensOrEnds ends⟩

/-- A step of the run pass. -/
theorem runStep_tracked {s t : RunSweep} (hs : Standing s)
    (h : Tracked text Warning.lag s.toSweep cuts) (hnext : runScan.next s = .more t) :
    ∃ cuts, Tracked text Warning.lag t.toSweep cuts := by
  have hstep := runStep_of_next hnext
  cases hstep with
  | skip outside found first empty =>
    exact ⟨cuts, h.same (s.text_behindRun none found) rfl rfl⟩
  | enter outside found first opened =>
    exact ⟨cuts, h.same (s.text_behindRun _ found) rfl rfl⟩
  | @cut run c inside made =>
    obtain ⟨hwhole, hshape⟩ := cut_of_step hs inside made
    refine ⟨_, h.cut hwhole.symm ?_ rfl rfl (ofRunJoin_of_cut? hs inside made).removed_ne_nil⟩
    rw [Cut.rest_behind]
    rfl
  | @leave run t inside none_made leaves =>
    have hjoin := s.join_eq run
    rw [none_made] at hjoin
    obtain ⟨t', he, hleaves⟩ := hjoin
    simp only [runScan, inside, he, Step.more.injEq] at hnext
    exact ⟨cuts, leave_tracked hs inside h (hnext ▸ hleaves)⟩

/-- The run pass. -/
theorem joinRuns_tracked (text : Bytes) : ∃ cuts,
    Tracked text Warning.lag (runScan.run { toSweep := Sweep.ofText text }).toSweep cuts := by
  refine Scan.run_induction
    (P := fun s => Standing s ∧ ∃ cuts, Tracked text Warning.lag s.toSweep cuts)
    (Q := fun s : RunSweep => ∃ cuts, Tracked text Warning.lag s.toSweep cuts) ?_ ?_ _
    ⟨standing_start text, [], .start text _⟩
  · rintro s t ⟨hs, cuts, h⟩ hnext
    exact ⟨hs.step (runStep_of_next hnext), runStep_tracked hs h hnext⟩
  · rintro s t ⟨hs, cuts, h⟩ hnext
    cases runStop_of_next hnext with
    | noRun outside none_found => exact ⟨cuts, h⟩
    | noText outside found first none_found =>
      exact ⟨cuts, h.same (s.text_behindRun none found) rfl rfl⟩

/-! ## Both passes -/

/-- A warning of the marker pass gives the place of its token in what the cuts before it have left;
    one of the run pass does so, too, but for a second text tag without an end, where it gives the
    place behind the token. This is the place of the token in the text itself exactly if nothing
    was cut out in front of its end before the warning was given. -/
theorem warnings_reported (text : Bytes) :
    (∀ tags, ∃ cuts, Cutting text cuts (removeMarkers tags text).text ∧
      (removeMarkers tags text).count = cuts.length ∧
      ∀ w ∈ (removeMarkers tags text).warnings, ∃ done, done <+: cuts ∧
        Reported text done w.token w.offset) ∧
    (∃ cuts, Cutting text cuts (joinRuns text).text ∧ (joinRuns text).count = cuts.length ∧
      ∀ w ∈ (joinRuns text).warnings, ∃ done, done <+: cuts ∧
        ∃ place, w.offset = place + w.lag ∧ Reported text done w.token place) := by
  constructor
  · intro tags
    obtain ⟨cuts, h⟩ := removeMarkers_tracked tags text
    refine ⟨cuts, h.cutting, h.count_eq, fun w hw => ?_⟩
    obtain ⟨done, hdone, place, hplace, hreported⟩ := h.warned w hw
    exact ⟨done, hdone, hplace ▸ hreported⟩
  · obtain ⟨cuts, h⟩ := joinRuns_tracked text
    exact ⟨cuts, h.cutting, h.count_eq, h.warned⟩

/-- The token need not stand at the offset in the text itself: something may have been cut out in
    front of it, and the run pass may give the place behind it even if nothing was. -/
theorem not_forall_token_at_offset :
    (¬ ∀ tags text, ∀ w ∈ (removeMarkers tags text).warnings, w.token <+: text.drop w.offset) ∧
    (¬ ∀ text, ∀ w ∈ (joinRuns text).warnings, w.token <+: text.drop w.offset) ∧
    ¬ ∀ text, (joinRuns text).count = 0 →
      ∀ w ∈ (joinRuns text).warnings, w.token <+: text.drop w.offset := by
  refine ⟨fun h => ?_, fun h => ?_, fun h => ?_⟩
  · have hmoved := h ["w:lang"] (Bytes.ofString "<w:lang/>ab<w:lang>") (.nonEmptyTag "<w:lang" 2)
      (by decide +kernel)
    revert hmoved
    decide +kernel
  · have hmoved := h (Bytes.ofString
      "<w:r><w:t>a</w:t></w:r><w:r><w:t>b</w:t></w:r><w:p/><w:r><w:t>c") (.unclosedRun 30)
      (by decide +kernel)
    revert hmoved
    decide +kernel
  · have hbehind := h (Bytes.ofString "<w:r><w:t>a</w:t></w:r><w:r><w:t x") (by decide +kernel)
      (.unclosedTag "<w:t" 32) (by decide +kernel)
    revert hbehind
    decide +kernel

end DocxTemplate.Sanitize
