import DocxTemplate.Proofs.Xml.Reading
import DocxTemplate.Xml.WellFormed

/-! # Well-formed texts, part by part

    The nesting of the events follows the open elements of the reader, so a text that can be
    read never fails for its nesting except at its end.

    * `Reads.nesting`: the nesting behind a part, from the elements open before it.
    * `check_eq_ok_iff`: a text is well-formed if it is read to its end with no element open
      and one outermost element.
    * `check_before_after`: of two parts of a well-formed text, what the second one adds.
-/

namespace DocxTemplate.Xml

open Event (Open skipMark)

/-! ## Nesting -/

/-- The nesting behind an item. -/
def Item.step (n : Nesting) : Item → Except Malformed Nesting
  | .tag event => n.step event
  | .char _ => .ok n

theorem foldlM_char (n : Nesting) (cs : List Char) :
    (cs.map Item.char).foldlM Item.step n = .ok n := by
  induction cs with
  | nil => rfl
  | cons c cs ih =>
    rw [List.map_cons, List.foldlM_cons]
    exact ih

/-- The nesting depends on the items only. -/
theorem foldlM_items (n : Nesting) (events : List Event) :
    (items events).foldlM Item.step n = events.foldlM Nesting.step n := by
  induction events generalizing n with
  | nil => rfl
  | cons event events ih =>
    rw [items_cons, List.foldlM_append, List.foldlM_cons]
    cases event with
    | text content =>
      rw [Event.items, foldlM_char]
      exact ih n
    | start name attributes =>
      simp only [Event.items, List.foldlM_cons, List.foldlM_nil, Item.step, bind_pure]
      exact congrArg _ (funext ih)
    | close name =>
      simp only [Event.items, List.foldlM_cons, List.foldlM_nil, Item.step, bind_pure]
      exact congrArg _ (funext ih)
    | empty name attributes =>
      simp only [Event.items, List.foldlM_cons, List.foldlM_nil, Item.step, bind_pure]
      exact congrArg _ (funext ih)

/-- The names of open elements, as their events have them. -/
def names (opened : Open) : List String := opened.map Utf8.decodeLossy

/-- An element is open only inside an outermost one. -/
def Rooted (n : Nesting) : Prop := n.opened ≠ [] → 0 < n.roots

theorem enter_rooted (n : Nesting) (h : Rooted n) :
    n.roots ≤ n.enter.roots ∧ 0 < n.enter.roots := by
  obtain ⟨opened, roots⟩ := n
  cases opened with
  | nil => exact ⟨Nat.le_succ _, Nat.succ_pos _⟩
  | cons last opened => exact ⟨Nat.le_refl _, h (by simp)⟩

/-- What a piece of markup does to the nesting. -/
theorem Effect.nesting {opened others : Open} {m : Markup} {event? : Option Event}
    (h : Effect opened m event? others) (roots : Nat) (hroots : Rooted ⟨names opened, roots⟩) :
    ∃ roots', event?.toList.foldlM Nesting.step ⟨names opened, roots⟩ =
        .ok ⟨names others, roots'⟩ ∧ roots ≤ roots' ∧ Rooted ⟨names others, roots'⟩ := by
  have henter := enter_rooted ⟨names opened, roots⟩ hroots
  cases h with
  | start =>
    exact ⟨_, by simp [Nesting.step, names, Nesting.enter], henter.1, fun _ => henter.2⟩
  | empty =>
    exact ⟨_, by simp [Nesting.step, Nesting.enter], henter.1, fun _ => henter.2⟩
  | close =>
    exact ⟨roots, by simp [Nesting.step, names], Nat.le_refl _, fun _ => hroots (by simp [names])⟩
  | cdata => exact ⟨roots, rfl, Nat.le_refl _, hroots⟩
  | other => exact ⟨roots, rfl, Nat.le_refl _, hroots⟩

/-- The nesting behind a part of a text. -/
theorem Reads.nesting {opened last : Open} {text : Bytes} {events : List Event}
    (h : Reads opened text events last) (roots : Nat) (hroots : Rooted ⟨names opened, roots⟩) :
    ∃ roots', events.foldlM Nesting.step ⟨names opened, roots⟩ = .ok ⟨names last, roots'⟩ ∧
      roots ≤ roots' ∧ Rooted ⟨names last, roots'⟩ := by
  induction h generalizing roots with
  | nil => exact ⟨roots, rfl, Nat.le_refl _, hroots⟩
  | markup taken read next ih =>
    obtain ⟨roots₁, hfold, hle, hroots₁⟩ := (effect_of_ofMarkup read).nesting roots hroots
    obtain ⟨roots₂, hfold₂, hle₂, hroots₂⟩ := ih roots₁ hroots₁
    refine ⟨roots₂, ?_, Nat.le_trans hle hle₂, hroots₂⟩
    rw [List.foldlM_append, hfold]
    exact hfold₂
  | text plain read next ih =>
    obtain ⟨roots', hfold, hle, hroots'⟩ := ih roots hroots
    exact ⟨roots', hfold, hle, hroots'⟩

/-! ## Shapes -/

/-- A tag without the values of its attributes. -/
inductive Shape where
  | start (name : String) (keys : List String)
  | close (name : String)
  | empty (name : String) (keys : List String)
  deriving DecidableEq, Repr

/-- The shape of an event, if it is a tag. -/
def Event.shape? : Event → Option Shape
  | .start name attributes => some (.start name (attributes.map (·.1)))
  | .close name => some (.close name)
  | .empty name attributes => some (.empty name (attributes.map (·.1)))
  | .text _ => none

/-- The tags of a text in order, without their attribute values. -/
def shape (events : List Event) : List Shape := events.filterMap Event.shape?

/-- The shape of an item. -/
def Item.shape? : Item → Option Shape
  | .tag event => event.shape?
  | .char _ => none

/-- Character data may be read in any pieces. -/
theorem shape_eq_items (events : List Event) : shape events = (items events).filterMap Item.shape? := by
  induction events with
  | nil => rfl
  | cons event events ih =>
    rw [items_cons, List.filterMap_append, ← ih]
    cases event with
    | text content =>
      have hnone : (content.toList.map Item.char).filterMap Item.shape? = [] := by
        simp [List.filterMap_eq_nil_iff, Item.shape?]
      rw [Event.items, hnone]
      rfl
    | start name attributes => rfl
    | close name => rfl
    | empty name attributes => rfl

/-- The nesting behind a tag. -/
def Shape.step (n : Nesting) : Shape → Except Malformed Nesting
  | .start name _ => n.step (.start name [])
  | .close name => n.step (.close name)
  | .empty name _ => n.step (.empty name [])

/-- The nesting depends on the tags only. -/
theorem foldlM_shape (n : Nesting) (events : List Event) :
    (shape events).foldlM Shape.step n = events.foldlM Nesting.step n := by
  induction events generalizing n with
  | nil => rfl
  | cons event events ih =>
    cases event with
    | text content => exact ih n
    | start name attributes => exact congrArg _ (funext ih)
    | close name => exact congrArg _ (funext ih)
    | empty name attributes => exact congrArg _ (funext ih)

/-- The mark before a text is read as a character, so it may be left out. -/
theorem Reads.skipMark {opened last : Open} {text : Bytes} {events : List Event}
    (h : Reads opened text events last) :
    ∃ events', Reads opened (Event.skipMark text) events' last ∧ shape events' = shape events := by
  unfold Event.skipMark
  split
  · next hmark =>
    obtain ⟨rest, rfl⟩ := List.isPrefixOf_iff_prefix.1 hmark
    have hread : readText Event.byteOrderMark = .ok "\uFEFF" := by decide +kernel
    obtain ⟨events', hreads, hitems⟩ := h.split_text (by decide) hread
    refine ⟨events', by rwa [List.drop_left], ?_⟩
    rw [← items_cons] at hitems
    rw [shape_eq_items events, hitems, ← shape_eq_items]
    rfl
  · exact ⟨events, h, rfl⟩

/-! ## Whole texts -/

theorem finish_eq_ok_iff {n : Nesting} : n.finish = .ok () ↔ n = ⟨[], 1⟩ := by
  obtain ⟨opened, roots⟩ := n
  cases opened with
  | cons last opened => simp [Nesting.finish]
  | nil =>
    match roots with
    | 0 => simp [Nesting.finish]
    | 1 => simp [Nesting.finish]
    | k + 2 => simp [Nesting.finish]

/-- A text is well-formed if it is read to its end with no element open and one outermost
    element. -/
theorem check_eq_ok_iff {source : Bytes} : check source = .ok () ↔
    ∃ events, Reads [] (skipMark source) events [] ∧
      events.foldlM Nesting.step {} = .ok ⟨[], 1⟩ := by
  unfold check checkNesting events
  rw [readFrom_eq_readThrough]
  constructor
  · intro h
    cases hr : readThrough [] (skipMark source) with
    | error fault => simp [hr, bind, Except.bind, Except.mapError] at h
    | ok r =>
      obtain ⟨events, last⟩ := r
      have hreads := reads_of_readThrough hr
      obtain ⟨roots, hfold, -, -⟩ := hreads.nesting 0 (by simp [Rooted, names])
      change events.foldlM Nesting.step {} = _ at hfold
      simp only [hr, bind, Except.bind, Except.mapError, Functor.map, Except.map, hfold] at h
      have hend := finish_eq_ok_iff.1 h
      have hlast : last = [] := by
        have := congrArg Nesting.opened hend
        exact List.map_eq_nil_iff.1 this
      subst hlast
      exact ⟨events, hreads, by rw [hfold, hend]⟩
  · intro ⟨events, hreads, hfold⟩
    obtain ⟨events', hr, hitems⟩ := hreads.readThrough_eq
    rw [← foldlM_items, ← hitems, foldlM_items] at hfold
    simp only [hr, bind, Except.bind, Except.mapError, Functor.map, Except.map, hfold]
    exact finish_eq_ok_iff.2 rfl

/-- The mark before a text is told by its first three bytes. -/
theorem skipMark_append {front : Bytes} (h : 3 ≤ front.length) (rest : Bytes) :
    skipMark (front ++ rest) = skipMark front ++ rest := by
  have hlen : Event.byteOrderMark.length = 3 := rfl
  unfold skipMark
  have hsame : Event.byteOrderMark.isPrefixOf (front ++ rest) =
      Event.byteOrderMark.isPrefixOf front := by
    rw [Bool.eq_iff_iff, List.isPrefixOf_iff_prefix, List.isPrefixOf_iff_prefix]
    exact ofFirstBytes_pattern Event.byteOrderMark front rest (by omega)
  rw [hsame]
  split
  · rw [List.drop_append_of_le_length (by omega)]
  · rfl

end DocxTemplate.Xml
