import DocxTemplate.Proofs.Text.Names
import DocxTemplate.Xml.Escape

/-! # Lone ampersands

    An ampersand that starts no reference is lone. Mending a text writes `&amp;` for each of its
    lone ampersands.

    * `CompletesReference`: what stands behind an ampersand that starts a reference, said without
      the search for its end (`startsReference_iff`).
    * `ReferencesOnly`: no ampersand of a text is lone. Such texts stay as they are, and no others
      (`escapeLoneAmpersands_eq_self_iff`).
    * `CompletesReference.mended`: mending leaves references whole.
    * `escapeLoneAmpersands_mends`: what mending does to a text, place by place.
-/

namespace DocxTemplate.Xml

variable {text front rest : Bytes}

/-! ## References -/

/-- What may stand between the ampersand and the semicolon of a reference: a name, or a decimal or
    hexadecimal number. -/
inductive IsReference : Bytes → Prop where
  | name {letters : Bytes} (named : Name.IsName letters) : IsReference letters
  | decimal {digits : Bytes} (ne_nil : digits ≠ [])
      (digit : ∀ b ∈ digits, Name.isDigit b = true) : IsReference ('#'.toUInt8 :: digits)
  | hexadecimal {digits : Bytes} (ne_nil : digits ≠ [])
      (digit : ∀ b ∈ digits, Name.isHexDigit b = true) :
      IsReference ('#'.toUInt8 :: 'x'.toUInt8 :: digits)

/-- A text makes the ampersand before it a reference. -/
def CompletesReference (text : Bytes) : Prop :=
  ∃ body rest, text = body ++ ';'.toUInt8 :: rest ∧ IsReference body

/-- A byte that may stand in a reference behind its ampersand. -/
def InReference (b : UInt8) : Prop :=
  Name.isInner b = true ∨ b = '#'.toUInt8 ∨ b = ';'.toUInt8

instance (b : UInt8) : Decidable (InReference b) := inferInstanceAs (Decidable (_ ∨ _))

theorem IsReference.inReference {body : Bytes} (h : IsReference body) :
    ∀ b ∈ body, InReference b := by
  intro b hb
  cases h with
  | name named => exact Or.inl (named.isInner_of_mem hb)
  | decimal ne_nil digit =>
    rcases List.mem_cons.1 hb with rfl | hb
    · exact Or.inr (Or.inl rfl)
    · exact Or.inl (Name.isInner_of_isDigit (digit b hb))
  | hexadecimal ne_nil digit =>
    rcases List.mem_cons.1 hb with rfl | hb
    · exact Or.inr (Or.inl rfl)
    · rcases List.mem_cons.1 hb with rfl | hb
      · exact Or.inl (by decide)
      · exact Or.inl (Name.isInner_of_isHexDigit (digit b hb))

/-- Bytes of a kind stand before the first semicolon of a text, if it is no byte of this kind. -/
theorem head?_dropWhile_iff {p : UInt8 → Bool} (hp : p ';'.toUInt8 = false) :
    (text.dropWhile p).head? = some ';'.toUInt8 ↔
      ∃ body rest, text = body ++ ';'.toUInt8 :: rest ∧ ∀ b ∈ body, p b = true := by
  constructor
  · intro h
    obtain ⟨rest, hrest⟩ := List.head?_eq_some_iff.1 h
    refine ⟨text.takeWhile p, rest, ?_, fun b hb => List.all_eq_true.1 List.all_takeWhile b hb⟩
    rw [← hrest, List.takeWhile_append_dropWhile]
  · rintro ⟨body, rest, rfl, hbody⟩
    rw [List.dropWhile_append_of_pos hbody, List.dropWhile_cons_of_neg (by simp [hp]),
      List.head?_cons]

theorem closedRun_iff {p : UInt8 → Bool} (hp : p ';'.toUInt8 = false) :
    closedRun p text = true ↔ ∃ body rest, text = body ++ ';'.toUInt8 :: rest ∧ body ≠ [] ∧
      ∀ b ∈ body, p b = true := by
  rw [closedRun, Bool.and_eq_true, beq_iff_eq, head?_dropWhile_iff hp]
  constructor
  · rintro ⟨hfirst, body, rest, rfl, hbody⟩
    refine ⟨body, rest, rfl, ?_, hbody⟩
    rintro rfl
    rw [List.nil_append, List.head?_cons, Option.any_some, hp] at hfirst
    cases hfirst
  · rintro ⟨body, rest, rfl, hne, hbody⟩
    obtain ⟨b, body, rfl⟩ := List.exists_cons_of_ne_nil hne
    exact ⟨hbody b List.mem_cons_self, b :: body, rest, rfl, hbody⟩

/-- The test for a reference goes by its kinds. -/
theorem startsReference_iff : startsReference text = true ↔ CompletesReference text := by
  have hdigits : Name.isDigit ';'.toUInt8 = false := by decide
  have hhex : Name.isHexDigit ';'.toUInt8 = false := by decide
  have hname : Name.isInner ';'.toUInt8 = false := by decide
  cases text with
  | nil =>
    refine ⟨nofun, ?_⟩
    rintro ⟨body, rest, heq, -⟩
    cases body <;> cases heq
  | cons b text =>
    unfold startsReference
    dsimp only
    by_cases hb : b = '#'.toUInt8
    · rw [if_pos (by simpa using hb), Bool.or_eq_true, Bool.and_eq_true, beq_iff_eq,
        closedRun_iff hdigits, closedRun_iff hhex]
      constructor
      · rintro (⟨body, rest, rfl, hne, hbody⟩ | ⟨hx, body, rest, hdrop, hne, hbody⟩)
        · exact ⟨b :: body, rest, rfl, hb ▸ .decimal hne hbody⟩
        · obtain ⟨tail, rfl⟩ := List.head?_eq_some_iff.1 hx
          obtain rfl : tail = body ++ ';'.toUInt8 :: rest := hdrop
          exact ⟨b :: 'x'.toUInt8 :: body, rest, rfl, hb ▸ .hexadecimal hne hbody⟩
      · rintro ⟨body, rest, heq, hbody⟩
        cases hbody with
        | name named =>
          obtain ⟨first, others, rfl, hstart, -⟩ := named
          obtain ⟨rfl, -⟩ := List.cons.inj heq
          rw [hb] at hstart
          exact absurd hstart (by decide)
        | decimal ne_nil digit => exact Or.inl ⟨_, rest, (List.cons.inj heq).2, ne_nil, digit⟩
        | @hexadecimal digits ne_nil digit =>
          obtain ⟨-, rfl⟩ := List.cons.inj heq
          exact Or.inr ⟨rfl, digits, rest, rfl, ne_nil, digit⟩
    · rw [if_neg (by simpa using hb), Bool.and_eq_true, beq_iff_eq,
        head?_dropWhile_iff hname]
      constructor
      · rintro ⟨hstart, body, rest, rfl, hbody⟩
        exact ⟨b :: body, rest, rfl, .name ⟨b, body, rfl, hstart, hbody⟩⟩
      · rintro ⟨body, rest, heq, hbody⟩
        cases hbody with
        | name named =>
          obtain ⟨first, others, rfl, hstart, hinner⟩ := named
          obtain ⟨rfl, htext⟩ := List.cons.inj heq
          exact ⟨hstart, others, rest, htext, hinner⟩
        | decimal ne_nil digit => exact absurd (List.cons.inj heq).1 hb
        | hexadecimal ne_nil digit => exact absurd (List.cons.inj heq).1 hb

instance (text : Bytes) : Decidable (CompletesReference text) :=
  decidable_of_iff _ startsReference_iff

/-- A reference ends before the first byte that may not stand in it. -/
theorem completesReference_append {b : UInt8} (hb : ¬ InReference b) :
    CompletesReference (front ++ b :: rest) ↔ CompletesReference front := by
  constructor
  · rintro ⟨body, tail, heq, hbody⟩
    have hfree : b ∉ body ++ [';'.toUInt8] := by
      rw [List.mem_append, List.mem_singleton, not_or]
      exact ⟨fun hmem => hb (hbody.inReference b hmem), fun hsemi => hb (Or.inr (Or.inr hsemi))⟩
    have hsplit : front ++ b :: rest = (body ++ [';'.toUInt8]) ++ tail := by
      rw [heq, List.append_assoc, List.singleton_append]
    -- The reference and its semicolon come before the byte.
    rcases List.append_eq_append_iff.1 hsplit with ⟨more, hmore, htail⟩ | ⟨more, rfl, -⟩
    · cases more with
      | nil => exact ⟨body, [], by rw [List.append_nil] at hmore; exact hmore.symm, hbody⟩
      | cons c more =>
        obtain ⟨rfl, -⟩ := List.cons.inj htail
        exact absurd (by rw [hmore]; simp) hfree
    · exact ⟨body, more, by rw [List.append_assoc, List.singleton_append], hbody⟩
  · rintro ⟨body, tail, rfl, hbody⟩
    exact ⟨body, tail ++ b :: rest, by rw [List.append_assoc, List.cons_append], hbody⟩

/-! ## Texts without lone ampersands -/

/-- Whether every ampersand of a text starts a reference. -/
def ReferencesOnly (text : Bytes) : Prop :=
  ∀ front rest, text = front ++ '&'.toUInt8 :: rest → startsReference rest = true

theorem referencesOnly_cons {b : UInt8} : ReferencesOnly (b :: rest) ↔
    (b = '&'.toUInt8 → CompletesReference rest) ∧ ReferencesOnly rest := by
  constructor
  · intro h
    refine ⟨fun hb => startsReference_iff.1 (h [] rest (by rw [hb, List.nil_append])), ?_⟩
    intro front back heq
    exact h (b :: front) back (by rw [heq, List.cons_append])
  · rintro ⟨hfirst, hrest⟩ front back heq
    cases front with
    | nil =>
      obtain ⟨hb, rfl⟩ := List.cons.inj heq
      exact startsReference_iff.2 (hfirst hb)
    | cons c front => exact hrest front back (List.cons.inj heq).2

theorem referencesOnly_nil : ReferencesOnly [] := by
  intro front rest heq
  cases front <;> cases heq

/-- Behind a text without lone ampersands it is the rest that matters. -/
theorem ReferencesOnly.append_iff (h : ReferencesOnly front) :
    ReferencesOnly (front ++ rest) ↔ ReferencesOnly rest := by
  induction front with
  | nil => rw [List.nil_append]
  | cons b front ih =>
    obtain ⟨hfirst, hfront⟩ := referencesOnly_cons.1 h
    rw [List.cons_append, referencesOnly_cons, ih hfront]
    refine ⟨fun h => h.2, fun hrest => ⟨fun hb => ?_, hrest⟩⟩
    obtain ⟨body, tail, rfl, hbody⟩ := hfirst hb
    exact ⟨body, tail ++ rest, by rw [List.append_assoc, List.cons_append], hbody⟩

theorem referencesOnly_of_not_mem (h : '&'.toUInt8 ∉ text) : ReferencesOnly text := by
  rintro front rest rfl
  exact absurd (List.mem_append_right front List.mem_cons_self) h

/-- A text may be cut at a byte that stands in no reference. -/
theorem referencesOnly_append {b : UInt8} (hb : ¬ InReference b) (hne : b ≠ '&'.toUInt8) :
    ReferencesOnly (front ++ b :: rest) ↔ ReferencesOnly front ∧ ReferencesOnly rest := by
  induction front with
  | nil =>
    rw [List.nil_append, referencesOnly_cons]
    exact ⟨fun h => ⟨referencesOnly_nil, h.2⟩, fun h => ⟨fun heq => absurd heq hne, h.2⟩⟩
  | cons c front ih =>
    rw [List.cons_append, referencesOnly_cons, referencesOnly_cons, ih,
      completesReference_append hb, and_assoc]

/-- So it may behind every piece of markup. -/
theorem referencesOnly_gt_iff :
    ReferencesOnly (front ++ '>'.toUInt8 :: rest) ↔ ReferencesOnly front ∧ ReferencesOnly rest :=
  referencesOnly_append (by decide) (by decide)

/-! ## Mending -/

theorem escapeLoneAmpersands_lone (h : ¬ CompletesReference rest) :
    escapeLoneAmpersands ('&'.toUInt8 :: rest) =
      '&'.toUInt8 :: (Bytes.ofString "amp;" ++ escapeLoneAmpersands rest) := by
  rw [← startsReference_iff, Bool.not_eq_true] at h
  rw [escapeLoneAmpersands, if_pos (by simp [h])]
  rfl

theorem escapeLoneAmpersands_cons {b : UInt8} (h : b = '&'.toUInt8 → CompletesReference rest) :
    escapeLoneAmpersands (b :: rest) = b :: escapeLoneAmpersands rest := by
  rw [escapeLoneAmpersands, if_neg]
  intro hlone
  rw [Bool.and_eq_true, Bool.not_eq_true', beq_iff_eq] at hlone
  have hstarts := startsReference_iff.2 (h hlone.1)
  rw [hlone.2] at hstarts
  cases hstarts

theorem escapeLoneAmpersands_append (h : '&'.toUInt8 ∉ front) :
    escapeLoneAmpersands (front ++ rest) = front ++ escapeLoneAmpersands rest := by
  induction front with
  | nil => rfl
  | cons b front ih =>
    rw [List.mem_cons, not_or] at h
    rw [List.cons_append, escapeLoneAmpersands_cons fun hb => absurd hb (Ne.symm h.1), ih h.2,
      List.cons_append]

theorem escapeLoneAmpersands_of_referencesOnly (h : ReferencesOnly text) :
    escapeLoneAmpersands text = text := by
  induction text with
  | nil => rfl
  | cons b rest ih =>
    obtain ⟨hfirst, hrest⟩ := referencesOnly_cons.1 h
    rw [escapeLoneAmpersands_cons hfirst, ih hrest]

theorem length_le_escapeLoneAmpersands (text : Bytes) :
    text.length ≤ (escapeLoneAmpersands text).length := by
  induction text with
  | nil => exact Nat.zero_le _
  | cons b rest ih =>
    have hamp : (Bytes.ofString "&amp;").length = 5 := by decide
    rw [escapeLoneAmpersands]
    split
    · rw [List.length_append, List.length_cons, hamp]
      omega
    · rw [List.length_cons, List.length_cons]
      omega

/-- No ampersand stands in a reference behind the first one, so mending leaves it whole. -/
theorem CompletesReference.mended (h : CompletesReference text) :
    CompletesReference (escapeLoneAmpersands text) := by
  obtain ⟨body, rest, rfl, hbody⟩ := h
  have hplain : '&'.toUInt8 ∉ body := fun hmem =>
    absurd (hbody.inReference _ hmem) (by decide)
  rw [escapeLoneAmpersands_append hplain, escapeLoneAmpersands_cons (fun hsemi => by cases hsemi)]
  exact ⟨body, _, rfl, hbody⟩

/-- A text that mending leaves as it is has no lone ampersand: each would make it longer. -/
theorem escapeLoneAmpersands_eq_self_iff :
    escapeLoneAmpersands text = text ↔ ReferencesOnly text := by
  refine ⟨fun h => ?_, escapeLoneAmpersands_of_referencesOnly⟩
  induction text with
  | nil => exact referencesOnly_nil
  | cons b rest ih =>
    by_cases hlone : b = '&'.toUInt8 → CompletesReference rest
    · rw [escapeLoneAmpersands_cons hlone] at h
      exact referencesOnly_cons.2 ⟨hlone, ih (List.cons.inj h).2⟩
    · rw [Classical.not_imp] at hlone
      obtain ⟨rfl, hlone⟩ := hlone
      rw [escapeLoneAmpersands_lone hlone] at h
      have hlength := congrArg List.length h
      have hle := length_le_escapeLoneAmpersands rest
      have hamp : (Bytes.ofString "amp;").length = 4 := by decide
      simp only [List.length_cons, List.length_append, hamp] at hlength
      omega

instance (text : Bytes) : Decidable (ReferencesOnly text) :=
  decidable_of_iff _ escapeLoneAmpersands_eq_self_iff

/-- A mended text has no lone ampersand. -/
theorem referencesOnly_escapeLoneAmpersands (text : Bytes) :
    ReferencesOnly (escapeLoneAmpersands text) := by
  induction text with
  | nil => exact referencesOnly_nil
  | cons b rest ih =>
    by_cases hlone : b = '&'.toUInt8 → CompletesReference rest
    · rw [escapeLoneAmpersands_cons hlone, referencesOnly_cons]
      exact ⟨fun hb => (hlone hb).mended, ih⟩
    · rw [Classical.not_imp] at hlone
      obtain ⟨rfl, hlone⟩ := hlone
      have hamp : Bytes.ofString "amp;" = Bytes.ofString "amp" ++ [';'.toUInt8] := by decide
      have hname : IsReference (Bytes.ofString "amp") :=
        .name ⟨'a'.toUInt8, Bytes.ofString "mp", by decide, by decide,
          List.all_eq_true.1 (by decide)⟩
      rw [escapeLoneAmpersands_lone hlone, referencesOnly_cons]
      refine ⟨fun _ => ?_, (referencesOnly_of_not_mem (by decide)).append_iff.2 ih⟩
      rw [hamp, List.append_assoc, List.singleton_append]
      exact ⟨_, _, rfl, hname⟩

/-! ## Place by place -/

/-- At this position of a text stands an ampersand that starts no reference. -/
def LoneAt (text : Bytes) (i : Nat) : Prop :=
  text[i]? = some '&'.toUInt8 ∧ ¬ CompletesReference (text.drop (i + 1))

instance (text : Bytes) (i : Nat) : Decidable (LoneAt text i) := inferInstanceAs (Decidable (_ ∧ _))

theorem referencesOnly_iff_loneAt : ReferencesOnly text ↔ ∀ i, ¬ LoneAt text i := by
  induction text with
  | nil => simp [referencesOnly_nil, LoneAt]
  | cons b rest ih =>
    rw [referencesOnly_cons, ih]
    constructor
    · rintro ⟨hfirst, hrest⟩ i ⟨hi, hlone⟩
      cases i with
      | zero => exact hlone (hfirst (Option.some.inj hi))
      | succ i => exact hrest i ⟨hi, hlone⟩
    · intro h
      refine ⟨fun hb => ?_, fun i hi => h (i + 1) hi⟩
      rw [← Decidable.not_not (p := CompletesReference rest)]
      exact fun hlone => h 0 ⟨congrArg some hb, hlone⟩

/-- Mending puts `amp;` behind the lone ampersands and changes nothing else. -/
theorem escapeLoneAmpersands_eq_flatMap (text : Bytes) : escapeLoneAmpersands text =
    (List.range text.length).flatMap fun i =>
      text[i]?.toList ++ if LoneAt text i then Bytes.ofString "amp;" else [] := by
  induction text with
  | nil => rfl
  | cons b rest ih =>
    rw [List.length_cons, List.range_succ_eq_map, List.flatMap_cons, List.flatMap_map]
    have hrest : ((List.range rest.length).flatMap fun i => (b :: rest)[i + 1]?.toList ++
        if LoneAt (b :: rest) (i + 1) then Bytes.ofString "amp;" else []) =
        escapeLoneAmpersands rest := ih.symm
    rw [hrest]
    by_cases hlone : b = '&'.toUInt8 → CompletesReference rest
    · have hfirst : ¬ LoneAt (b :: rest) 0 := fun ⟨hb, h⟩ => h (hlone (Option.some.inj hb))
      rw [if_neg hfirst, List.append_nil, escapeLoneAmpersands_cons hlone]
      rfl
    · rw [Classical.not_imp] at hlone
      obtain ⟨rfl, hlone⟩ := hlone
      have hfirst : LoneAt ('&'.toUInt8 :: rest) 0 := ⟨rfl, hlone⟩
      rw [if_pos hfirst, escapeLoneAmpersands_lone hlone]
      rfl

/-- Mending puts `amp;` behind the lone ampersands of a text and changes nothing else. It leaves
    none, so it changes nothing in a text exactly if there are none, and never anything in a text
    that is mended already. -/
theorem escapeLoneAmpersands_mends (text : Bytes) :
    (escapeLoneAmpersands text = (List.range text.length).flatMap fun i =>
      text[i]?.toList ++ if LoneAt text i then Bytes.ofString "amp;" else []) ∧
    (∀ i, ¬ LoneAt (escapeLoneAmpersands text) i) ∧
    (escapeLoneAmpersands text = text ↔ ∀ i, ¬ LoneAt text i) ∧
    escapeLoneAmpersands (escapeLoneAmpersands text) = escapeLoneAmpersands text := by
  have hmended := referencesOnly_escapeLoneAmpersands text
  refine ⟨escapeLoneAmpersands_eq_flatMap text, referencesOnly_iff_loneAt.1 hmended, ?_,
    escapeLoneAmpersands_of_referencesOnly hmended⟩
  rw [escapeLoneAmpersands_eq_self_iff, referencesOnly_iff_loneAt]

example : escapeLoneAmpersands (Bytes.ofString "a & b &amp; &#38; &#x26; &lt; R&D") =
    Bytes.ofString "a &amp; b &amp; &#38; &#x26; &lt; R&amp;D" := by
  decide +kernel

end DocxTemplate.Xml
