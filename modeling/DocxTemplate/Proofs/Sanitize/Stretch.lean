import Mathlib.Data.List.Basic
import DocxTemplate.Proofs.Sanitize.Token

/-! # Stretches of text

    A pass searches for the next place to work at. The text before that place is put together
    from stretches in which there is none:

    * `Clear P stretch rest`: with `rest` behind it, `P` holds nowhere in the stretch.
    * `clear_tag`: one tag and the character data behind it are clear if `P` does not hold at
      the `<`.
    * `Absent P x`: `P` holds nowhere in the stretch `x`, whatever follows.
    * `startsToken_name_iff`: a token starts a tag exactly if it is the name of the tag.
    * `not_prefix_of_stop`: a pattern goes across no byte that does not occur in it.
-/

namespace DocxTemplate.Sanitize

/-- `P` holds nowhere in a stretch of text with `rest` behind it. -/
def Clear (P : Bytes → Prop) (stretch rest : Bytes) : Prop :=
  ∀ j < stretch.length, ¬ P ((stretch ++ rest).drop j)

/-- `P` holds only where a tag starts. -/
def AtTags (P : Bytes → Prop) : Prop := ∀ text, P text → text.head? = some '<'.toUInt8

section

variable {P : Bytes → Prop} {x y rest : Bytes}

theorem clear_nil : Clear P [] rest := fun j hj => absurd hj (Nat.not_lt_zero j)

namespace Clear

theorem append (hx : Clear P x (y ++ rest)) (hy : Clear P y rest) : Clear P (x ++ y) rest := by
  intro j hj
  rw [List.append_assoc]
  by_cases hlt : j < x.length
  · exact hx j hlt
  · rw [List.drop_append, List.drop_eq_nil_of_le (by omega), List.nil_append]
    rw [List.length_append] at hj
    exact hy _ (by omega)

/-- Behind a clear stretch stands the first place at which `P` holds. -/
theorem firstAt (hx : Clear P x rest) (hrest : P rest) : FirstAt P (x ++ rest) x.length := by
  have hfirst : FirstAt P (x ++ rest) (x.length + 0) :=
    FirstAt.append_front hx ⟨hrest, fun j hj => absurd hj (Nat.not_lt_zero j)⟩
  exact hfirst

/-- There is no place at all if there is none behind the stretch either. -/
theorem none_append (hx : Clear P x rest) (hrest : ∀ j, ¬ P (rest.drop j)) (j : Nat) :
    ¬ P ((x ++ rest).drop j) := by
  by_cases hlt : j < x.length
  · exact hx j hlt
  · rw [List.drop_append, List.drop_eq_nil_of_le (by omega), List.nil_append]
    exact hrest _

end Clear

/-! ## Tags -/

theorem drop_head_mem {j : Nat} {b : UInt8} (hj : j < x.length)
    (h : ((x ++ rest).drop j).head? = some b) : b ∈ x := by
  rw [List.head?_drop, List.getElem?_append_left hj] at h
  exact List.mem_of_getElem? h

/-- Character data is clear of all that starts with a tag. -/
theorem clear_data (hP : AtTags P) (hx : '<'.toUInt8 ∉ x) : Clear P x rest := by
  intro j hj hp
  exact hx (drop_head_mem hj (hP _ hp))

/-- So is a tag, with what follows before the next one, if `P` does not hold at its start. -/
theorem clear_tag (hP : AtTags P) (hx : '<'.toUInt8 ∉ x)
    (hstart : ¬ P ('<'.toUInt8 :: (x ++ rest))) :
    Clear P ('<'.toUInt8 :: x) rest := by
  intro j hj
  cases j with
  | zero => exact hstart
  | succ j =>
    rw [List.length_cons] at hj
    exact clear_data hP hx j (by omega)

end

/-- A tag with all that stands in it. -/
def tag (inner : Bytes) : Bytes := '<'.toUInt8 :: (inner ++ ['>'.toUInt8])

/-- `P` holds nowhere in a stretch, whatever follows. -/
def Absent (P : Bytes → Prop) (x : Bytes) : Prop := ∀ rest, Clear P x rest

namespace Absent

variable {P : Bytes → Prop} {x y : Bytes}

theorem append (hx : Absent P x) (hy : Absent P y) : Absent P (x ++ y) :=
  fun rest => (hx (y ++ rest)).append (hy rest)

theorem flatMap {α : Type} {f : α → Bytes} {l : List α} (h : ∀ a ∈ l, Absent P (f a)) :
    Absent P (l.flatMap f) := by
  induction l with
  | nil => exact fun _ => clear_nil
  | cons a l ih =>
    rw [List.flatMap_cons]
    refine (h a List.mem_cons_self).append (ih fun b hb => ?_)
    exact h b (List.mem_cons_of_mem a hb)

/-- Character data is clear of all that starts with a tag. -/
theorem data (hP : AtTags P) (hx : '<'.toUInt8 ∉ x) : Absent P x := fun _ => clear_data hP hx

/-- So is a tag at whose start `P` does not hold. -/
theorem tag (hP : AtTags P) (hx : '<'.toUInt8 ∉ x) (hstart : ∀ rest, ¬ P (Sanitize.tag x ++ rest)) :
    Absent P (Sanitize.tag x) := by
  intro rest
  refine clear_tag hP ?_ (hstart rest)
  rw [List.mem_append, not_or]
  exact ⟨hx, by decide⟩

end Absent

/-! ## Names -/

section

variable {token name tail rest : Bytes} {c : UInt8}

theorem atTags_startsToken (token : Bytes) : AtTags (StartsToken ('<'.toUInt8 :: token)) := by
  intro text h
  exact h.head?_eq

theorem atTags_pattern (pattern : Bytes) : AtTags (('<'.toUInt8 :: pattern) <+: ·) := by
  rintro text ⟨tail, rfl⟩
  rfl

theorem startsToken_cons_iff :
    StartsToken (c :: token) (c :: rest) ↔ StartsToken token rest := by
  constructor
  · intro ⟨b, more, heq, hb⟩
    rw [List.cons_append, List.cons.injEq] at heq
    exact ⟨b, more, heq.2, hb⟩
  · rintro ⟨b, more, rfl, hb⟩
    exact ⟨b, more, rfl, hb⟩

/-- No byte of a name ends it. -/
def Unended (name : Bytes) : Prop := ∀ b ∈ name, endsName b = false

instance (name : Bytes) : Decidable (Unended name) := inferInstanceAs (Decidable (∀ b ∈ name, _))

/-- A token starts a tag exactly if it is the name of the tag. -/
theorem startsToken_name_iff (htoken : Unended token) (hname : Unended name)
    (htail : NameEnds tail) :
    StartsToken token (name ++ tail) ↔ token = name := by
  constructor
  · intro ⟨b, more, heq, hb⟩
    rcases List.append_eq_append_iff.1 heq with ⟨between, rfl, htail'⟩ | ⟨between, rfl, hmore⟩
    · cases between with
      | nil => rw [List.append_nil]
      | cons c between =>
        -- The token would go on behind the end of the name.
        obtain ⟨c', hc', hends⟩ := htail
        rw [htail', List.cons_append, List.head?_cons, Option.some.injEq] at hc'
        subst hc'
        rw [htoken c (by simp)] at hends
        exact absurd hends (by simp)
    · cases between with
      | nil => rw [List.append_nil]
      | cons c between =>
        rw [List.cons_append, List.cons.injEq] at hmore
        rw [hmore.1, hname c (by simp)] at hb
        exact absurd hb (by simp)
  · rintro rfl
    exact StartsToken.append_iff.2 htail

/-- A token that starts a tag ends inside it. -/
theorem startsToken_tag_iff {inner : Bytes} (h : '>'.toUInt8 ∉ token) :
    StartsToken token (tag inner ++ rest) ↔ StartsToken token (tag inner) := by
  by_cases hlen : token.length + 1 ≤ (tag inner).length
  · exact ofFirstBytes_startsToken token _ rest hlen
  · -- A longer token would hold the `>` at the end of the tag.
    constructor
    · intro hs
      have hpre : tag inner <+: token := by
        refine List.prefix_of_prefix_length_le (List.prefix_append _ rest) hs.prefix_of ?_
        omega
      exact absurd (hpre.subset (by simp [tag])) h
    · intro hs
      have hlt := hs.length_lt
      omega

instance (token text : Bytes) : Decidable (StartsToken token text) :=
  decidable_of_iff (token <+: text ∧ (text.drop token.length).head?.any endsName = true) <| by
    constructor
    · rintro ⟨⟨rest, rfl⟩, hends⟩
      rw [List.drop_left, Option.any_eq_true] at hends
      exact StartsToken.append_iff.2 hends
    · intro hs
      obtain ⟨b, hb, hends⟩ := hs.nameEnds
      exact ⟨hs.prefix_of, by rw [hb]; exact hends⟩

/-- A token stands nowhere in a tag that it does not start. -/
theorem absent_token_tag {inner : Bytes} (htoken : Tag token) (hgt : '>'.toUInt8 ∉ token)
    (hinner : '<'.toUInt8 ∉ inner) (h : ¬ StartsToken token (tag inner)) :
    Absent (StartsToken token) (tag inner) := by
  obtain ⟨name, rfl, -⟩ := htoken
  refine Absent.tag (atTags_startsToken name) hinner fun rest hs => ?_
  exact h ((startsToken_tag_iff hgt).1 hs)

theorem absent_token_data {x : Bytes} (htoken : Tag token) (hx : '<'.toUInt8 ∉ x) :
    Absent (StartsToken token) x := by
  obtain ⟨name, rfl, -⟩ := htoken
  exact Absent.data (atTags_startsToken name) hx

/-! ## Patterns -/

/-- A pattern that does not occur in a stretch starts nowhere in it if it would have to go
    across a byte that does not occur in the pattern. -/
theorem not_prefix_of_stop {pattern x : Bytes}
    (hx : ∀ j, ¬ pattern <+: x.drop j) (hc : c ∉ pattern) {j : Nat} (hj : j ≤ x.length) :
    ¬ pattern <+: (x ++ c :: rest).drop j := by
  intro hpre
  rw [List.drop_append_of_le_length hj] at hpre
  by_cases hlen : pattern.length ≤ (x.drop j).length
  · exact hx j (List.prefix_of_prefix_length_le hpre (List.prefix_append _ _) hlen)
  · -- The pattern is longer than what is left of the stretch, so it holds the next byte.
    obtain ⟨more, hmore⟩ := hpre
    have hbyte := congrArg (fun l => l[(x.drop j).length]?) hmore
    simp only [List.getElem?_append_right (Nat.le_refl _), Nat.sub_self, List.getElem?_cons_zero]
      at hbyte
    rw [List.getElem?_append_left (by omega)] at hbyte
    exact hc (List.mem_of_getElem? hbyte)

end

end DocxTemplate.Sanitize
