import Mathlib.Data.List.Basic
import DocxTemplate.Text.Bytes

/-! # Searching a text

    What the searches of the scanning passes find, said without the way they search:

    * `FirstAt P text i`: `i` is the first position from which on `P` holds.
    * `Bytes.indexOf?_eq_some_iff`: the search for a pattern finds its first position.
    * `FirstAt.congr_front`: a property of finitely many bytes is found at the same
      position whatever follows behind those bytes.
-/

namespace DocxTemplate

/-! ## First positions -/

/-- `i` is the first position of a text from which on `P` holds. -/
def FirstAt (P : Bytes → Prop) (text : Bytes) (i : Nat) : Prop :=
  P (text.drop i) ∧ ∀ j < i, ¬ P (text.drop j)

/-- `P` is a property of the first `n` bytes of a text. -/
def OfFirstBytes (n : Nat) (P : Bytes → Prop) : Prop :=
  ∀ front rest : Bytes, n ≤ front.length → (P (front ++ rest) ↔ P front)

namespace FirstAt

variable {P : Bytes → Prop} {text front rest : Bytes} {i j n : Nat}

/-- There is at most one first position. -/
theorem unique (hi : FirstAt P text i) (hj : FirstAt P text j) : i = j := by
  rcases Nat.lt_trichotomy i j with h | h | h
  · exact absurd hi.1 (hj.2 i h)
  · exact h
  · exact absurd hj.1 (hi.2 j h)

/-- Nothing lies before a first position at which `P` holds. -/
theorem le_of_holds (hi : FirstAt P text i) (hj : P (text.drop j)) : i ≤ j := by
  rcases Nat.lt_or_ge j i with h | h
  · exact absurd hj (hi.2 j h)
  · exact h

/-- In front of the text a stretch may be put in which `P` holds nowhere. -/
theorem append_front (hfront : ∀ j < front.length, ¬ P ((front ++ text).drop j))
    (hi : FirstAt P text i) : FirstAt P (front ++ text) (front.length + i) := by
  refine ⟨?_, ?_⟩
  · rw [← List.drop_drop, List.drop_left]
    exact hi.1
  · intro j hj
    rcases Nat.lt_or_ge j front.length with h | h
    · exact hfront j h
    · have hdrop : (front ++ text).drop j = text.drop (j - front.length) := by
        rw [List.drop_append, List.drop_eq_nil_of_le h, List.nil_append]
      rw [hdrop]
      exact hi.2 _ (by omega)

/-- What follows behind the bytes that matter can be exchanged. -/
theorem congr_front (hP : OfFirstBytes n P) {a b : Bytes} (hi : i + n ≤ front.length) :
    FirstAt P (front ++ a) i ↔ FirstAt P (front ++ b) i := by
  have hsame : ∀ j ≤ i, (P ((front ++ a).drop j) ↔ P ((front ++ b).drop j)) := by
    intro j hj
    have hlen : n ≤ (front.drop j).length := by
      rw [List.length_drop]
      omega
    rw [List.drop_append_of_le_length (by omega), List.drop_append_of_le_length (by omega),
      hP _ a hlen, hP _ b hlen]
  unfold FirstAt
  rw [hsame i (Nat.le_refl i)]
  refine and_congr_right fun _ => forall_congr' fun j => forall_congr' fun hj => ?_
  rw [hsame j (Nat.le_of_lt hj)]

end FirstAt

/-- Whether a text starts with a pattern is decided by as many bytes as the pattern has. -/
theorem ofFirstBytes_pattern (pattern : Bytes) :
    OfFirstBytes pattern.length (pattern <+: ·) := by
  intro front rest hlen
  constructor
  · intro h
    exact List.prefix_of_prefix_length_le h (List.prefix_append front rest) hlen
  · intro h
    exact h.trans (List.prefix_append front rest)

namespace Bytes

variable {pattern text front rest : Bytes} {b : UInt8} {i : Nat}

/-! ## The search for a pattern -/

/-- The search finds the first position of the pattern, or there is none. -/
theorem indexOf?_spec (pattern text : Bytes) :
    match indexOf? pattern text with
    | some i => FirstAt (pattern <+: ·) text i
    | none => ∀ j, ¬ pattern <+: text.drop j := by
  induction text with
  | nil =>
    rw [indexOf?]
    by_cases hp : pattern = []
    · subst hp
      exact ⟨List.nil_prefix, fun j hj => absurd hj (Nat.not_lt_zero j)⟩
    · simp [hp]
  | cons b rest ih =>
    rw [indexOf?]
    by_cases hp : pattern <+: b :: rest
    · rw [if_pos (List.isPrefixOf_iff_prefix.2 hp)]
      exact ⟨hp, fun j hj => absurd hj (Nat.not_lt_zero j)⟩
    · rw [if_neg (mt List.isPrefixOf_iff_prefix.1 hp)]
      cases hr : indexOf? pattern rest with
      | none =>
        rw [hr] at ih
        intro j
        cases j with
        | zero => exact hp
        | succ j => exact ih j
      | some i =>
        rw [hr] at ih
        refine ⟨ih.1, fun j hj => ?_⟩
        cases j with
        | zero => exact hp
        | succ j => exact ih.2 j (Nat.lt_of_succ_lt_succ hj)

theorem indexOf?_eq_some_iff :
    indexOf? pattern text = some i ↔ FirstAt (pattern <+: ·) text i := by
  have h := indexOf?_spec pattern text
  cases hi : indexOf? pattern text with
  | none =>
    rw [hi] at h
    simp only [reduceCtorEq, false_iff]
    exact fun hf => h i hf.1
  | some k =>
    rw [hi] at h
    rw [Option.some.injEq]
    exact ⟨fun e => e ▸ h, fun hf => h.unique hf⟩

theorem indexOf?_eq_none_iff :
    indexOf? pattern text = none ↔ ∀ j, ¬ pattern <+: text.drop j := by
  have h := indexOf?_spec pattern text
  cases hi : indexOf? pattern text with
  | none => rw [hi] at h; simpa using h
  | some k =>
    rw [hi] at h
    simp only [reduceCtorEq, false_iff, not_forall, not_not]
    exact ⟨k, h.1⟩

/-- A text in which a pattern is found splits there. -/
theorem eq_append_of_indexOf? (h : indexOf? pattern text = some i) :
    ∃ front rest, text = front ++ (pattern ++ rest) ∧ front.length = i := by
  obtain ⟨rest, hrest⟩ := (indexOf?_eq_some_iff.1 h).1
  have hlen := indexOf?_add_length_le h
  refine ⟨text.take i, rest, by rw [hrest, List.take_append_drop], ?_⟩
  rw [List.length_take]
  omega

/-- A single byte is found behind a stretch that does not hold it. -/
theorem indexOf?_singleton_append (h : b ∉ front) :
    indexOf? [b] (front ++ b :: rest) = some front.length := by
  induction front with
  | nil => simp [indexOf?]
  | cons a front ih =>
    rw [List.mem_cons, not_or] at h
    rw [List.cons_append, indexOf?, if_neg (by simpa [List.isPrefixOf] using h.1), ih h.2]
    simp

/-- A text splits at the first place of a byte in one way only. -/
theorem append_cons_inj {front' rest' : Bytes} (h : b ∉ front) (h' : b ∉ front')
    (heq : front ++ b :: rest = front' ++ b :: rest') : front = front' ∧ rest = rest' := by
  have hlen : some front.length = some front'.length := by
    rw [← indexOf?_singleton_append h, heq, indexOf?_singleton_append h']
  obtain ⟨hfront, hcons⟩ := List.append_inj heq (Option.some.inj hlen)
  exact ⟨hfront, (List.cons.inj hcons).2⟩

/-- A text in which a single byte is found splits there. -/
theorem eq_append_of_indexOf?_singleton (h : indexOf? [b] text = some i) :
    ∃ front rest, text = front ++ b :: rest ∧ b ∉ front ∧ front.length = i := by
  have hmem : b ∈ text := by
    obtain ⟨rest, hrest⟩ := (indexOf?_eq_some_iff.1 h).1
    exact List.mem_of_mem_drop (by rw [← hrest]; simp)
  obtain ⟨front, rest, rfl, hfront⟩ := List.eq_append_cons_of_mem hmem
  rw [indexOf?_singleton_append hfront, Option.some.injEq] at h
  exact ⟨front, rest, rfl, hfront, h⟩

/-- A single byte that is not found is not there. -/
theorem indexOf?_singleton_eq_none_iff : indexOf? [b] text = none ↔ b ∉ text := by
  constructor
  · intro h hmem
    obtain ⟨front, rest, rfl, hfront⟩ := List.eq_append_cons_of_mem hmem
    rw [indexOf?_singleton_append hfront] at h
    exact Option.some_ne_none _ h
  · intro hmem
    cases h : indexOf? [b] text with
    | none => rfl
    | some i =>
      obtain ⟨front, rest, rfl, -⟩ := eq_append_of_indexOf?_singleton h
      exact absurd (by simp) hmem

end Bytes

end DocxTemplate
