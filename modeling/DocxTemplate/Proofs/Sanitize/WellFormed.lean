import DocxTemplate.Proofs.Sanitize.Cuts
import DocxTemplate.Proofs.Xml.WellFormed

/-! # Joining runs of a well-formed text

    A join takes out the end tags of a text node and of its run, the opening of the next run
    and the rest of its text tag. The span is chosen by its bytes. It may hold tags that
    do not match: a text node written as an empty tag, for example, leaves no element open.

    * `Cut.Balanced`: the elements open behind the span are those open before it.
    * `check_rest_iff`: a cut of whole markup keeps a text well-formed exactly if it is
      balanced.
    * `check_joinRuns`: so does the run pass, if all its cuts are balanced.
    * `not_forall_check_joinRuns`: a text node written as an empty tag breaks a well-formed text.
-/

namespace DocxTemplate.Sanitize

open Xml
open Xml.Event (Open skipMark)

namespace Cut

/-- The elements open before the span, its events, and the elements open behind it, if the text
    can be read up to the span and through it. -/
def read? (c : Cut) : Option (Open × List Event × Open) :=
  match readThrough [] (skipMark c.before) with
  | .error _ => none
  | .ok (_, opened) =>
    match readThrough opened c.removed with
    | .error _ => none
    | .ok (events, last) => some (opened, events, last)

/-- The span is made of whole pieces of markup and character data. -/
def Whole (c : Cut) : Prop := c.read?.isSome = true

/-- The span leaves the open elements as they were. -/
def Balanced (c : Cut) : Prop :=
  c.read?.any (fun (opened, _, last) => opened == last) = true

instance (c : Cut) : Decidable c.Whole := inferInstanceAs (Decidable (_ = _))

instance (c : Cut) : Decidable c.Balanced := inferInstanceAs (Decidable (_ = _))

variable {c : Cut} {opened last : Open} {events : List Event}

theorem read?_eq_some_iff : c.read? = some (opened, events, last) ↔
    ∃ events', readThrough [] (skipMark c.before) = .ok (events', opened) ∧
      readThrough opened c.removed = .ok (events, last) := by
  unfold read?
  cases hbefore : readThrough [] (skipMark c.before) with
  | error fault => simp
  | ok r =>
    obtain ⟨events', opened'⟩ := r
    cases hremoved : readThrough opened' c.removed with
    | error fault =>
      simp only [hremoved, reduceCtorEq, Except.ok.injEq, Prod.mk.injEq, false_iff]
      rintro ⟨_, ⟨rfl, rfl⟩, h⟩
      rw [hremoved] at h
      cases h
    | ok r =>
      obtain ⟨events'', last'⟩ := r
      simp only [hremoved, Option.some.injEq, Prod.mk.injEq, Except.ok.injEq]
      constructor
      · rintro ⟨rfl, rfl, rfl⟩
        exact ⟨events', ⟨rfl, rfl⟩, hremoved⟩
      · rintro ⟨_, ⟨rfl, rfl⟩, h⟩
        rw [hremoved, Except.ok.injEq, Prod.mk.injEq] at h
        exact ⟨rfl, h.1, h.2⟩

theorem whole_iff : c.Whole ↔ ∃ opened events last, c.read? = some (opened, events, last) := by
  unfold Whole
  rw [Option.isSome_iff_exists]
  constructor
  · intro ⟨⟨opened, events, last⟩, h⟩
    exact ⟨opened, events, last, h⟩
  · intro ⟨opened, events, last, h⟩
    exact ⟨_, h⟩

theorem Balanced.whole (h : c.Balanced) : c.Whole := by
  unfold Balanced at h
  unfold Whole
  cases hread : c.read? with
  | none =>
    rw [hread] at h
    cases h
  | some r => rfl

theorem balanced_iff : c.Balanced ↔ ∃ opened events, c.read? = some (opened, events, opened) := by
  unfold Balanced
  rw [Option.any_eq_true]
  constructor
  · intro ⟨⟨opened, events, last⟩, h, heq⟩
    obtain rfl := eq_of_beq heq
    exact ⟨opened, events, h⟩
  · intro ⟨opened, events, h⟩
    exact ⟨_, h, by simp⟩

end Cut

/-! ## One cut -/

namespace OfJoin

variable {c : Cut}

/-- A run and its text node stand before the span. -/
theorem three_le (h : OfJoin c) : 3 ≤ c.before.length := by
  obtain ⟨opening, _, _, _, front, data, hbefore, ⟨rest, hrest⟩, -⟩ := h.removed
  have hlen := congrArg List.length hbefore
  rw [← hrest] at hlen
  simp only [List.length_append, length_runStart] at hlen
  omega

/-- The span closes the text node, so it is open before. -/
theorem opened_ne_nil {opened last : Open} {events : List Event} (h : OfJoin c)
    (hread : Reads opened c.removed events last) : opened ≠ [] := by
  obtain ⟨opening, attributes, hremoved, -⟩ := h.removed
  have htag : c.removed = '<'.toUInt8 :: (Bytes.ofString "/w:t>" ++
      (runEnd ++ '>'.toUInt8 :: (opening ++ attributes ++ ['>'.toUInt8]))) := by
    rw [hremoved]
    rfl
  rw [htag] at hread
  obtain ⟨event?, others, events', hmarkup, -, -⟩ :=
    hread.split_markup (m := .endTag (Bytes.ofString "w:t")) (by decide +kernel)
  intro hnil
  subst hnil
  cases effect_of_ofMarkup hmarkup

end OfJoin

/-- What is read of a text on the two sides of a span and in it. -/
structure Parts (c : Cut) (opened last : Open) (front span behind : List Event) : Prop where
  before : Reads [] (skipMark c.before) front opened
  removed : Reads opened c.removed span last
  after : Reads last c.after behind []
  nested : (front ++ (span ++ behind)).foldlM Nesting.step {} = .ok ⟨[], 1⟩

/-- A well-formed text is read in parts where a span of whole markup stands. -/
theorem parts_of_check {c : Cut} {opened last : Open} {span : List Event} (hjoin : OfJoin c)
    (hread : c.read? = some (opened, span, last)) (hcheck : check c.whole = .ok ()) :
    ∃ front behind, Parts c opened last front span behind := by
  obtain ⟨front, hbefore, hremoved⟩ := Cut.read?_eq_some_iff.1 hread
  have hbefore := reads_of_readThrough hbefore
  have hremoved := reads_of_readThrough hremoved
  obtain ⟨events, hreads, hfold⟩ := check_eq_ok_iff.1 hcheck
  rw [Cut.whole, List.append_assoc, skipMark_append hjoin.three_le] at hreads
  obtain ⟨rest, hrest, hitems⟩ := hbefore.split hreads
  obtain ⟨behind, hbehind, hitems'⟩ := hremoved.split hrest
  refine ⟨front, behind, hbefore, hremoved, hbehind, ?_⟩
  rw [← foldlM_items, items_append, items_append, ← hitems', ← hitems, foldlM_items]
  exact hfold

/-- Without a balanced span the text still has one root: it stands before the span, since
    elements are open there. -/
theorem Parts.nested_rest {c : Cut} {opened : Open} {front span behind : List Event}
    (h : Parts c opened opened front span behind) (hopened : opened ≠ []) :
    (front ++ behind).foldlM Nesting.step {} = .ok ⟨[], 1⟩ := by
  obtain ⟨roots₁, hfold₁, -, hrooted₁⟩ := h.before.nesting 0 (by simp [Rooted, names])
  obtain ⟨roots₂, hfold₂, hle₂, hrooted₂⟩ := h.removed.nesting roots₁ hrooted₁
  obtain ⟨roots₃, hfold₃, hle₃, -⟩ := h.after.nesting roots₂ hrooted₂
  have hone : 0 < roots₁ := hrooted₁ (by simpa [names] using hopened)
  have hnested := h.nested
  change front.foldlM Nesting.step {} = _ at hfold₁
  rw [List.foldlM_append, hfold₁] at hnested ⊢
  change (span ++ behind).foldlM Nesting.step ⟨names opened, roots₁⟩ = _ at hnested
  change behind.foldlM Nesting.step ⟨names opened, roots₁⟩ = _
  rw [List.foldlM_append, hfold₂] at hnested
  change behind.foldlM Nesting.step ⟨names opened, roots₂⟩ = _ at hnested
  rw [hfold₃, Except.ok.injEq, Nesting.mk.injEq] at hnested
  have hroots : roots₁ = roots₂ := by omega
  rw [hroots, hfold₃, hnested.1, hnested.2]

/-- A cut of whole markup keeps a text well-formed exactly if it is balanced. -/
theorem check_rest_iff {c : Cut} (hjoin : OfJoin c) (hcheck : check c.whole = .ok ())
    (hwhole : c.Whole) : check c.rest = .ok () ↔ c.Balanced := by
  obtain ⟨opened, span, last, hread⟩ := Cut.whole_iff.1 hwhole
  obtain ⟨front, behind, hparts⟩ := parts_of_check hjoin hread hcheck
  constructor
  · intro hrest
    -- The part behind the span is read the same way with the elements open before it.
    obtain ⟨events, hreads, -⟩ := check_eq_ok_iff.1 hrest
    rw [Cut.rest, skipMark_append hjoin.three_le] at hreads
    obtain ⟨behind', hbehind', -⟩ := hparts.before.split hreads
    have hsame := hbehind'.left_unique hparts.after
    rw [← hsame] at hread
    exact Cut.balanced_iff.2 ⟨opened, span, hread⟩
  · intro hbalanced
    obtain ⟨opened', span', hread'⟩ := Cut.balanced_iff.1 hbalanced
    rw [hread, Option.some.injEq, Prod.mk.injEq, Prod.mk.injEq] at hread'
    obtain ⟨rfl, -, rfl⟩ := hread'
    refine check_eq_ok_iff.2 ⟨front ++ behind, ?_,
      hparts.nested_rest (hjoin.opened_ne_nil hparts.removed)⟩
    rw [Cut.rest, skipMark_append hjoin.three_le]
    exact hparts.before.append hparts.after

/-! ## The whole pass -/

/-- What holds for each cut of a row holds for what they lead to. -/
theorem cutting_check {text last : Bytes} {cuts : List Cut} (hcutting : Cutting text cuts last)
    (hjoin : ∀ c ∈ cuts, OfJoin c) (h : check text = .ok ()) :
    ((∀ c ∈ cuts, c.Balanced) → check last = .ok ()) ∧
    ((∀ c ∈ cuts, c.Balanced) ↔ ∀ c ∈ cuts, c.Whole ∧ check c.rest = .ok ()) := by
  induction hcutting with
  | nil => exact ⟨fun _ => h, by simp⟩
  | @cons c cuts last next ih =>
    have hstep := check_rest_iff (hjoin c List.mem_cons_self) h
    have hjoin' : ∀ c ∈ cuts, OfJoin c := fun c hc => hjoin c (List.mem_cons_of_mem _ hc)
    refine ⟨fun hall => ?_, ?_⟩
    · rw [List.forall_mem_cons] at hall
      exact (ih hjoin' ((hstep hall.1.whole).2 hall.1)).1 hall.2
    · rw [List.forall_mem_cons, List.forall_mem_cons]
      constructor
      · intro ⟨hc, hcuts⟩
        have hrest := (hstep hc.whole).2 hc
        exact ⟨⟨hc.whole, hrest⟩, (ih hjoin' hrest).2.1 hcuts⟩
      · intro ⟨⟨hwhole, hrest⟩, hcuts⟩
        exact ⟨(hstep hwhole).1 hrest, (ih hjoin' hrest).2.2 hcuts⟩

/-- The run pass keeps a text well-formed if all its cuts are balanced; this is the case
    exactly if they take out whole markup and each leaves a well-formed text. -/
theorem check_joinRuns (text : Bytes) (h : check text = .ok ()) :
    ((∀ c ∈ joinCuts text, c.Balanced) → check (joinRuns text).text = .ok ()) ∧
    ((∀ c ∈ joinCuts text, c.Balanced) ↔
      ∀ c ∈ joinCuts text, c.Whole ∧ check c.rest = .ok ()) := by
  obtain ⟨hcutting, -, hjoin⟩ := cutting_joinCuts text
  exact cutting_check hcutting hjoin h

/-- Two runs with one text node each. -/
def twoRuns : Bytes :=
  Bytes.ofString "<w:p><w:r><w:t>a</w:t></w:r><w:r><w:t>b</w:t></w:r></w:p>"

theorem check_joinRuns_twoRuns :
    (joinRuns twoRuns).count = 1 ∧ check (joinRuns twoRuns).text = .ok () :=
  ⟨by decide +kernel, (check_joinRuns twoRuns (by decide +kernel)).1 (by decide +kernel)⟩

/-- The second text node is an empty tag, which the join takes for the start of one. -/
def emptySecondText : Bytes :=
  Bytes.ofString ("<w:p><w:r><w:t>a</w:t></w:r>" ++
    "<w:r><w:t xml:space=\"preserve\"/></w:r></w:p>")

/-- So the run pass may break a well-formed text. -/
theorem not_forall_check_joinRuns :
    ¬ ∀ text, check text = .ok () → check (joinRuns text).text = .ok () :=
  fun h => absurd (h emptySecondText (by decide +kernel)) (by decide +kernel)

end DocxTemplate.Sanitize
