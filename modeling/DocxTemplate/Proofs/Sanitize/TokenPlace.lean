import DocxTemplate.Proofs.Sanitize.Cuts
import DocxTemplate.Proofs.Text.Boundary

/-! # Searching for a token by positions

    The search for a whole token may also be written over positions in the whole text: from a
    position on the next match is looked for, and behind a match where the name goes on the
    search starts again.

    * `tokenIndex?_of_ends`, `tokenIndex?_of_goes_on`: the search for a token, one match at a time.
    * `placeScan`: the search by positions. From a position beyond the end or inside a character
      there is nothing to find.
    * `tokenPlace?_offset`: from between two characters both searches find the same token.
    * `tokenPlace?_eq`: so they do from every position of a whole text.
-/

namespace DocxTemplate.Sanitize

variable {token text : Bytes} {i : Nat}

/-! ## One match at a time -/

/-- What the search has passed over only counts for the position that it reports. -/
theorem next_tokenScan (token : Bytes) (passed : Nat) (text : Bytes) :
    (tokenScan token).next (passed, text) =
      match (tokenScan token).next (0, text) with
      | .more (n, rest) => .more (passed + n, rest)
      | .done r => .done (r.map (passed + ·)) := by
  simp only [tokenScan]
  split
  · rfl
  · split
    · rfl
    · split
      · rw [Nat.zero_add]
        rfl
      · rw [Nat.zero_add]

theorem run_tokenScan (token : Bytes) (passed : Nat) (text : Bytes) :
    (tokenScan token).run (passed, text) = (tokenIndex? token text).map (passed + ·) := by
  induction hn : text.length using Nat.strongRecOn generalizing passed text with
  | ind n ih =>
    cases hnext : (tokenScan token).next (0, text) with
    | done r =>
      rw [Scan.run_of_done (r := r.map (passed + ·)) (by rw [next_tokenScan, hnext]), tokenIndex?,
        Scan.run_of_done hnext]
    | more t =>
      obtain ⟨m, rest⟩ := t
      have hlt : rest.length < n := hn ▸ (tokenScan token).left_lt hnext
      have hindex : tokenIndex? token text = (tokenIndex? token rest).map (m + ·) := by
        rw [← ih _ hlt m rest rfl]
        exact Scan.run_of_more hnext
      rw [Scan.run_of_more (t := (passed + m, rest)) (by rw [next_tokenScan, hnext]),
        ih _ hlt _ rest rfl, hindex, Option.map_map]
      exact congrArg (Option.map · _) (funext fun i => Nat.add_assoc _ _ _)

/-- Without a match there is no token. -/
theorem tokenIndex?_of_none (hi : Bytes.indexOf? token text = none) :
    tokenIndex? token text = none :=
  Scan.run_of_done (by simp only [tokenScan, hi])

/-- A match where the name ends is the token. -/
theorem tokenIndex?_of_ends (hi : Bytes.indexOf? token text = some i)
    (hends : (text[i + token.length]?.any endsName) = true) : tokenIndex? token text = some i := by
  cases hget : text[i + token.length]? with
  | none => simp [hget] at hends
  | some b =>
    rw [hget, Option.any_some] at hends
    obtain ⟨hlt, rfl⟩ := List.getElem?_eq_some_iff.1 hget
    refine Scan.run_of_done ?_
    simp only [tokenScan, hi, List.drop_eq_getElem_cons hlt]
    rw [if_pos hends, Nat.zero_add]

/-- Behind a match where the name goes on the search starts again. -/
theorem tokenIndex?_of_goes_on (hi : Bytes.indexOf? token text = some i) (hne : token ≠ [])
    (hends : (text[i + token.length]?.any endsName) = false) :
    tokenIndex? token text =
      (tokenIndex? token (text.drop (i + token.length))).map (i + token.length + ·) := by
  have hpos := List.length_pos_iff.2 hne
  cases hget : text[i + token.length]? with
  | none =>
    rw [List.getElem?_eq_none_iff] at hget
    have hnil : text.drop (i + token.length) = [] := List.drop_eq_nil_of_le hget
    have hnone : Bytes.indexOf? token [] = none := by
      rw [Bytes.indexOf?, if_neg (by simpa using hne)]
    rw [hnil, tokenIndex?_of_none hnone]
    exact Scan.run_of_done (by simp only [tokenScan, hi, hnil, Option.map_none])
  | some b =>
    rw [hget, Option.any_some] at hends
    obtain ⟨hlt, rfl⟩ := List.getElem?_eq_some_iff.1 hget
    rw [← run_tokenScan]
    refine Scan.run_of_more ?_
    simp only [tokenScan, hi, List.drop_eq_getElem_cons hlt]
    rw [if_neg (by rw [hends]; decide), Nat.max_eq_right hpos, Nat.zero_add,
      ← List.drop_eq_getElem_cons hlt]

/-! ## By positions -/

theorem le_of_indexFrom? {pattern : Bytes} {start found : Nat}
    (h : Bytes.indexFrom? pattern text start = some found) :
    start ≤ found ∧ found + pattern.length ≤ text.length := by
  unfold Bytes.indexFrom? at h
  split at h
  · next hstart =>
    obtain ⟨i, hi, rfl⟩ := Option.map_eq_some_iff.1 h
    have hle := Bytes.indexOf?_add_length_le hi
    have hstart : start ≤ text.length := le_of_isBoundary hstart
    rw [List.length_drop] at hle
    exact ⟨Nat.le_add_left _ _, by omega⟩
  · cases h

/-- Looks for `token` from a position on, and whether the end of a name is behind it. -/
def placeStep (token text : Bytes) (start : Nat) : Step Nat (Option Nat) :=
  match Bytes.indexFrom? token text start with
  | none => .done none
  | some found =>
    if text[found + token.length]?.any endsName then .done (some found)
    else .more (found + max 1 token.length)

/-- The search goes on behind a token that it has found in the text. -/
theorem le_of_placeStep {start place : Nat} (h : placeStep token text start = .more place) :
    start + max 1 token.length ≤ place ∧ start + token.length ≤ text.length := by
  unfold placeStep at h
  split at h
  · simp at h
  · next found hfound =>
    have hle := le_of_indexFrom? hfound
    split at h
    · simp at h
    · simp only [Step.more.injEq] at h
      omega

theorem lt_of_placeStep {start place : Nat} (h : placeStep token text start = .more place) :
    text.length + 1 - place < text.length + 1 - start := by
  have hle := le_of_placeStep h
  omega

/-- The whole search. A state is a position of the text. -/
def placeScan (token text : Bytes) : Scan Nat (Option Nat) where
  next := placeStep token text
  left := fun start => text.length + 1 - start
  left_lt := lt_of_placeStep

/-- The position of the first whole token from a position on, searched for by positions. -/
def tokenPlace? (token text : Bytes) (start : Nat) : Option Nat :=
  (placeScan token text).run start

theorem tokenPlace?_offset {c : Cursor} (h : c.Between) (htoken : Whole token)
    (hne : token ≠ []) :
    tokenPlace? token c.text c.offset = (tokenIndex? token c.ahead).map (c.offset + ·) := by
  have hpos := List.length_pos_iff.2 hne
  -- The induction is on what is ahead. Both searches pass the same matches, and the next one
  -- starts between two characters because the token is made of whole ones.
  induction hn : c.ahead.length using Nat.strongRecOn generalizing c with
  | ind n ih =>
    have hfind := h.indexFrom? token
    have hget := fun i => c.getElem?_text_add (i + token.length)
    cases hi : Bytes.indexOf? token c.ahead with
    | none =>
      rw [hi] at hfind
      rw [tokenIndex?_of_none hi]
      exact Scan.run_of_done (by simp only [placeScan, placeStep, hfind, Option.map_none])
    | some i =>
      rw [hi] at hfind
      cases hends : c.ahead[i + token.length]?.any endsName with
      | true =>
        rw [tokenIndex?_of_ends hi hends]
        refine Scan.run_of_done ?_
        simp only [placeScan, placeStep, hfind, Option.map_some, Nat.add_assoc, hget, hends,
          if_true]
      | false =>
        -- Behind the match stands another place between two characters.
        obtain ⟨front, rest, hahead, rfl, -, hrest⟩ := h.ahead.of_indexOf? htoken hne hi
        rw [← List.append_assoc] at hahead
        have hbetween := h.advance hahead hrest
        have hlen := congrArg List.length hahead
        rw [List.length_append, List.length_append] at hlen
        rw [List.length_append] at hbetween
        have hbehind := ih _ (by rw [Cursor.ahead_advance, List.length_drop]; omega) hbetween rfl
        rw [Cursor.text_advance, Cursor.offset_advance (by omega), Cursor.ahead_advance] at hbehind
        rw [tokenIndex?_of_goes_on hi hne hends, tokenPlace?,
          Scan.run_of_more (t := c.offset + (front.length + token.length)), ← tokenPlace?, hbehind,
          Option.map_map]
        · exact congrArg (Option.map · _) (funext fun i => Nat.add_assoc _ _ _)
        · simp only [placeScan, placeStep, hfind, Option.map_some, Nat.add_assoc, hget, hends,
            Nat.max_eq_right hpos]
          rfl

/-- The search by positions finds what the search over the rest of the text finds. -/
theorem tokenPlace?_eq (h : Whole text) (htoken : Whole token) (hne : token ≠ []) (start : Nat) :
    tokenPlace? token text start = tokenIndexFrom? token text start := by
  unfold tokenIndexFrom?
  by_cases hstart : Utf8.isBoundary text start = true
  · obtain ⟨hle, hfront, hrest⟩ := (isBoundary_iff h).1 hstart
    have hplace := tokenPlace?_offset (c := .atPlace text start)
      ⟨by rwa [Cursor.atPlace, List.reverse_reverse], hrest⟩ htoken hne
    rw [Cursor.text_atPlace, Cursor.offset_atPlace hle] at hplace
    rw [if_pos hstart, hplace]
    exact congrArg (Option.map · _) (funext fun i => Nat.add_comm _ _)
  · rw [if_neg hstart]
    exact Scan.run_of_done (by simp only [placeScan, placeStep, Bytes.indexFrom?, if_neg hstart])

end DocxTemplate.Sanitize
