import Mathlib.Data.List.Infix
import Mathlib.Tactic.ByContra
import DocxTemplate.Proofs.Text.Search
import DocxTemplate.Sanitize.Token

/-! # Whole tokens

    The search for a token restarts behind each longer name it meets. If the first byte of
    the token occurs nowhere else in it, as with the `<` of a tag, no place is missed that
    way.

    * `StartsToken`: a text starts with the token and the end of a name.
    * `Unbordered`: two places of the token cannot overlap, which is all that the search needs.
    * `NonePassed`: the search has missed nothing in what it has passed over.
    * `tokenIndex?_eq_some_iff`: it finds the first whole token of the text.
-/

namespace DocxTemplate.Sanitize

variable {token text front rest : Bytes} {i j : Nat}

/-- A name that stands before a text ends there. -/
def NameEnds (text : Bytes) : Prop :=
  ∃ b, text.head? = some b ∧ endsName b = true

theorem NameEnds.append (h : NameEnds text) (rest : Bytes) : NameEnds (text ++ rest) := by
  obtain ⟨b, hb, hends⟩ := h
  exact ⟨b, by rw [List.head?_append, hb]; rfl, hends⟩

/-- A text starts with the whole token: behind it stands the end of a name. -/
def StartsToken (token text : Bytes) : Prop :=
  ∃ b rest, text = token ++ b :: rest ∧ endsName b = true

/-- The first byte of the token occurs nowhere else in it. -/
def Distinct (token : Bytes) : Prop :=
  ∃ c rest, token = c :: rest ∧ c ∉ rest

/-- No proper end of the token is also a start of it. -/
structure Unbordered (token : Bytes) : Prop where
  ne_nil : token ≠ []
  not_prefix : ∀ k, 0 < k → k < token.length → ¬ token.drop k <+: token

/-- Inside a place of the token no further one begins. -/
theorem Unbordered.not_prefix_inside (hu : Unbordered token) (h : token <+: text) (hj : 0 < j)
    (hlt : j < token.length) : ¬ token <+: text.drop j := by
  intro hinside
  -- The end of the first place would be the start of the second one.
  have hend : token.drop j <+: text.drop j := h.drop j
  refine hu.not_prefix j hj hlt (List.prefix_of_prefix_length_le hend hinside ?_)
  rw [List.length_drop]
  exact Nat.sub_le _ _

/-- A list does not start with an end of itself if its first member occurs nowhere else in it. -/
theorem not_drop_prefix {α : Type} {c : α} {tail : List α} {k : Nat} (hc : c ∉ tail) (hk : 0 < k)
    (hlt : k < (c :: tail).length) : ¬ (c :: tail).drop k <+: c :: tail := by
  intro hborder
  obtain ⟨m, rfl⟩ : ∃ m, k = m + 1 := ⟨k - 1, by omega⟩
  -- What stands at that position belongs to the tail, so it is not the first member.
  have hm : m < tail.length := Nat.lt_of_succ_lt_succ hlt
  rw [List.drop_succ_cons, List.drop_eq_getElem_cons hm, List.cons_prefix_cons] at hborder
  exact hc (hborder.1 ▸ List.getElem_mem hm)

theorem Distinct.unbordered (h : Distinct token) : Unbordered token := by
  obtain ⟨c, tail, rfl, hc⟩ := h
  exact ⟨List.cons_ne_nil _ _, fun k hk hlt => not_drop_prefix hc hk hlt⟩

/-- A token that starts like a tag: with `<`, which occurs nowhere else in it. -/
def Tag (token : Bytes) : Prop :=
  ∃ rest, token = '<'.toUInt8 :: rest ∧ '<'.toUInt8 ∉ rest

theorem Tag.distinct (h : Tag token) : Distinct token := by
  obtain ⟨rest, rfl, hrest⟩ := h
  exact ⟨_, rest, rfl, hrest⟩

theorem Tag.ne_nil (h : Tag token) : token ≠ [] := by
  obtain ⟨rest, rfl, -⟩ := h
  exact List.cons_ne_nil _ _

theorem ne_of_endsName {b : UInt8} (h : endsName b = true) : b ≠ '<'.toUInt8 := by
  rintro rfl
  revert h
  decide

namespace StartsToken

theorem prefix_of (h : StartsToken token text) : token <+: text := by
  obtain ⟨b, rest, rfl, -⟩ := h
  exact List.prefix_append _ _

theorem length_lt (h : StartsToken token text) : token.length < text.length := by
  obtain ⟨b, rest, rfl, -⟩ := h
  simp

theorem head?_eq {c : UInt8} {tail : Bytes} (h : StartsToken (c :: tail) text) :
    text.head? = some c := by
  obtain ⟨b, rest, rfl, -⟩ := h
  rfl

/-- What stands behind the token begins with the end of a name. -/
theorem nameEnds (h : StartsToken token text) : NameEnds (text.drop token.length) := by
  obtain ⟨b, rest, rfl, hb⟩ := h
  exact ⟨b, by simp, hb⟩

/-- Behind the token any text may stand that ends the name. -/
theorem append_iff : StartsToken token (token ++ rest) ↔ NameEnds rest := by
  refine ⟨fun h => by simpa using h.nameEnds, ?_⟩
  intro ⟨b, hhead, hb⟩
  cases rest with
  | nil => simp at hhead
  | cons a rest =>
    rw [List.head?_cons, Option.some.injEq] at hhead
    exact ⟨a, rest, rfl, hhead ▸ hb⟩

/-- A token stands where it is found with the end of a name behind it. -/
theorem of_prefix {b : UInt8} (h : token <+: text.drop i)
    (hdrop : text.drop (i + token.length) = b :: rest) (hb : endsName b = true) :
    StartsToken token (text.drop i) := by
  obtain ⟨tail, htail⟩ := h
  have hrest : tail = b :: rest := by
    rw [← hdrop, ← List.drop_drop, ← htail, List.drop_left]
  exact ⟨b, rest, by rw [← htail, hrest], hb⟩

end StartsToken

theorem not_startsToken_nil (token : Bytes) (j : Nat) :
    ¬ StartsToken token (([] : Bytes).drop j) := by
  intro h
  have hlt := h.length_lt
  rw [List.drop_nil] at hlt
  exact absurd hlt (Nat.not_lt_zero _)

/-- Whether a text starts with a token is decided by the token and one byte more. -/
theorem ofFirstBytes_startsToken (token : Bytes) :
    OfFirstBytes (token.length + 1) (StartsToken token) := by
  intro front rest hlen
  constructor
  · intro ⟨b, tail, heq, hb⟩
    have hpre : token ++ [b] <+: front := by
      refine List.prefix_of_prefix_length_le ?_ (List.prefix_append front rest)
        (by simpa using hlen)
      rw [heq]
      exact ⟨tail, by simp⟩
    obtain ⟨tail', rfl⟩ := hpre
    exact ⟨b, tail', by simp, hb⟩
  · rintro ⟨b, tail, rfl, hb⟩
    exact ⟨b, tail ++ rest, by simp, hb⟩

/-- Inside a token that starts a text no further token starts. -/
theorem not_startsToken_inside (hd : Distinct token) (h : token <+: text) (hj : 0 < j)
    (hlt : j < token.length) : ¬ StartsToken token (text.drop j) := fun hs =>
  hd.unbordered.not_prefix_inside h hj hlt hs.prefix_of

/-- Two tokens that start in one text do not overlap. -/
theorem StartsToken.add_lt {first second : Bytes} (hfirst : Tag first) (hsecond : Tag second)
    (hi : StartsToken first (text.drop i)) (hj : StartsToken second (text.drop j)) (hij : i < j) :
    i + first.length < j := by
  obtain ⟨tail, rfl, htail⟩ := hfirst
  obtain ⟨tail', rfl, -⟩ := hsecond
  obtain ⟨b, rest, hrest, hb⟩ := hi
  obtain ⟨k, rfl⟩ : ∃ k, j = i + (k + 1) := ⟨j - i - 1, by omega⟩
  rw [← List.drop_drop, hrest, List.cons_append, List.drop_succ_cons] at hj
  by_contra hle
  -- Otherwise the second token starts inside the first one or at the end of its name.
  have hk : k < (tail ++ [b]).length := by
    simp only [List.length_cons, List.length_append, List.length_nil] at hle ⊢
    omega
  have hmem : '<'.toUInt8 ∈ tail ++ [b] := by
    have hhead := hj.head?_eq
    rw [show tail ++ b :: rest = tail ++ [b] ++ rest by simp,
      List.drop_append_of_le_length (by omega), List.drop_eq_getElem_cons hk, List.cons_append,
      List.head?_cons, Option.some.injEq] at hhead
    exact hhead ▸ List.getElem_mem hk
  rw [List.mem_append, List.mem_singleton] at hmem
  rcases hmem with hmem | hmem
  · exact htail hmem
  · exact ne_of_endsName hb hmem.symm

/-! ## The search -/

/-- The first whole token of a text is at this place, or there is none. -/
def Locates (token text : Bytes) : Option Nat → Prop
  | some i => FirstAt (StartsToken token) text i
  | none => ∀ j, ¬ StartsToken token (text.drop j)

/-- Where the search stands: what it has passed over holds no token. -/
structure NonePassed (token text : Bytes) (s : Nat × Bytes) : Prop where
  ahead : s.2 = text.drop s.1
  passed : ∀ j < s.1, ¬ StartsToken token (text.drop j)

namespace NonePassed

variable {s t : Nat × Bytes}

/-- A token of the text stands in what is ahead. -/
theorem holds (h : NonePassed token text s) (hs : StartsToken token (text.drop j)) :
    s.1 ≤ j ∧ StartsToken token (s.2.drop (j - s.1)) := by
  have hle : s.1 ≤ j := by
    rcases Nat.lt_or_ge j s.1 with hlt | hge
    · exact absurd hs (h.passed j hlt)
    · exact hge
  refine ⟨hle, ?_⟩
  rwa [h.ahead, List.drop_drop, Nat.add_sub_cancel' hle]

/-- Up to the end of a match that is no whole token there is none. -/
theorem skip {b : UInt8} (h : NonePassed token text s) (hu : Unbordered token)
    (hfirst : FirstAt (token <+: ·) s.2 i) (hdrop : s.2.drop (i + token.length) = b :: rest)
    (hb : endsName b = false) :
    NonePassed token text (s.1 + (i + max 1 token.length), s.2.drop (i + max 1 token.length)) := by
  have hlen := List.length_pos_iff.2 hu.ne_nil
  refine ⟨by rw [h.ahead, List.drop_drop], fun j hj hs => ?_⟩
  obtain ⟨hle, hs⟩ := h.holds hs
  obtain ⟨k, rfl⟩ : ∃ k, j = s.1 + k := ⟨j - s.1, by omega⟩
  rw [Nat.add_sub_cancel_left] at hs
  -- Before the match there is not even the pattern, at the match the name goes on,
  -- and inside the match there is no room for another one.
  rcases Nat.lt_trichotomy k i with hk | rfl | hk
  · exact hfirst.2 k hk hs.prefix_of
  · obtain ⟨b', hb', hends⟩ := hs.nameEnds
    rw [List.drop_drop, hdrop, List.head?_cons, Option.some.injEq] at hb'
    rw [← hb', hb] at hends
    exact absurd hends (by simp)
  · obtain ⟨m, rfl⟩ : ∃ m, k = i + m := ⟨k - i, by omega⟩
    rw [← List.drop_drop] at hs
    exact hu.not_prefix_inside hfirst.1 (by omega) (by omega) hs.prefix_of

theorem step (h : NonePassed token text s) (hu : Unbordered token)
    (hnext : (tokenScan token).next s = .more t) : NonePassed token text t := by
  simp only [tokenScan] at hnext
  split at hnext
  · simp at hnext
  · next i hi =>
    split at hnext
    · simp at hnext
    · next b rest hdrop =>
      split at hnext
      · simp at hnext
      · next hb =>
        simp only [Step.more.injEq] at hnext
        subst hnext
        exact h.skip hu (Bytes.indexOf?_eq_some_iff.1 hi) hdrop (by simpa using hb)

theorem stop {r : Option Nat} (h : NonePassed token text s)
    (hnext : (tokenScan token).next s = .done r) : Locates token text r := by
  simp only [tokenScan] at hnext
  split at hnext
  · next hi =>
    simp only [Step.done.injEq] at hnext
    subst hnext
    intro j hs
    exact Bytes.indexOf?_eq_none_iff.1 hi _ (h.holds hs).2.prefix_of
  · next i hi =>
    obtain ⟨hpre, hfirst⟩ := Bytes.indexOf?_eq_some_iff.1 hi
    split at hnext
    · next hdrop =>
      simp only [Step.done.injEq] at hnext
      subst hnext
      intro j hs
      -- The text ends with the match, so no name ends behind it.
      have hahead := (h.holds hs).2
      have hle : i ≤ j - s.1 := FirstAt.le_of_holds ⟨hpre, hfirst⟩ hahead.prefix_of
      have hlen := congrArg List.length hdrop
      have hlt := hahead.length_lt
      simp only [List.length_drop, List.length_nil] at hlen hlt
      omega
    · next b rest hdrop =>
      split at hnext
      · next hb =>
        simp only [Step.done.injEq] at hnext
        subst hnext
        refine ⟨?_, fun j hj hs => ?_⟩
        · rw [← List.drop_drop, ← h.ahead]
          exact StartsToken.of_prefix hpre hdrop hb
        · obtain ⟨hle, hahead⟩ := h.holds hs
          exact hfirst (j - s.1) (by omega) hahead.prefix_of
      · simp at hnext

end NonePassed

/-- The search finds the first whole token, or there is none. -/
theorem tokenIndex?_spec (hu : Unbordered token) (text : Bytes) :
    Locates token text (tokenIndex? token text) := by
  refine Scan.run_induction (P := NonePassed token text) (Q := Locates token text) ?_ ?_ (0, text)
    ⟨rfl, fun j hj => absurd hj (Nat.not_lt_zero j)⟩
  · intro s t h hnext
    exact h.step hu hnext
  · intro s r h hnext
    exact h.stop hnext

theorem tokenIndex?_eq_some_iff (hd : Distinct token) :
    tokenIndex? token text = some i ↔ FirstAt (StartsToken token) text i := by
  have h := tokenIndex?_spec hd.unbordered text
  cases hi : tokenIndex? token text with
  | none =>
    rw [hi] at h
    simp only [reduceCtorEq, false_iff]
    exact fun hf => h i hf.1
  | some k =>
    rw [hi] at h
    rw [Option.some.injEq]
    exact ⟨fun e => e ▸ h, fun hf => h.unique hf⟩

theorem tokenIndex?_eq_none_iff (hd : Distinct token) :
    tokenIndex? token text = none ↔ ∀ j, ¬ StartsToken token (text.drop j) := by
  have h := tokenIndex?_spec hd.unbordered text
  cases hi : tokenIndex? token text with
  | none =>
    rw [hi] at h
    exact ⟨fun _ => h, fun _ => rfl⟩
  | some k =>
    rw [hi] at h
    simp only [reduceCtorEq, false_iff, not_forall, not_not]
    exact ⟨k, h.1⟩

end DocxTemplate.Sanitize
