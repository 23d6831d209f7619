import DocxTemplate.Proofs.Package.Table

/-! # The writer of relationships and their reader

    Relationships are added as text and read as events. In a part whose root is found as text the
    two agree:

    * `Agrees`: what is added is read back, before all that the part had.
    * `agrees_of_rooted`: so it is where the first `<Relationships` of the text opens the root
      and no attribute of that tag holds a `>`.
    * `not_agrees_missedParts`: where the tag is told by its text only, other parts are missed.
-/

namespace DocxTemplate.Relationship

/-- Any relationship to an image can be added to a part. It stays well-formed, and the new
    relationship is read back before the old ones. -/
def Agrees (source : Bytes) (old : List Relationship) : Prop :=
  ∀ id target, ∃ source',
    Table.insertAfterRoot root (image id target).element source = .ok source' ∧
      Xml.check source' = .ok () ∧ readAll source' = .ok (image id target :: old)

/-- The name of the outermost element. -/
def outermost? (events : List Xml.Event) : Option String :=
  events.findSome? fun
    | .start name _ | .empty name _ => some name
    | .close _ | .text _ => none

/-- The outermost element of a part is one of relationships, in any namespace. -/
def IsTable (source : Bytes) : Prop :=
  ∃ events, Xml.events source = .ok events ∧
    (outermost? events).map Table.localName = some "Relationships"

/-- A relationship is a whole element. -/
theorem nested_element (r : Relationship) (n : Xml.Nesting) (hn : n.opened ≠ []) :
    [Xml.Event.empty "Relationship" r.attributes].foldlM Xml.Nesting.step n = .ok n := by
  obtain ⟨opened, roots⟩ := n
  cases opened with
  | nil => exact absurd rfl hn
  | cons last others => rfl

/-- The writer and the reader of relationships agree on every well-formed part in which the first
    `<Relationships` opens the root with no `>` in its attributes. -/
theorem agrees_of_rooted (source : Bytes) (old : List Relationship)
    (hcheck : Xml.check source = .ok ()) (hold : readAll source = .ok old)
    (hrooted : Table.Rooted root source) : Agrees source old := by
  intro id target
  obtain ⟨source', hinsert, -, hread⟩ := readAll_insertAfterRoot hrooted hold (image id target)
  obtain ⟨checked, hinsert', hcheck'⟩ := Table.check_insertAfterRoot rootName hrooted
    (image id target).reads_element (image id target).nested_element hcheck
  obtain rfl : source' = checked := Except.ok.inj (hinsert.symm.trans hinsert')
  exact ⟨source', hinsert, hcheck', hread⟩

/-- A part with one relationship, in a root that says which namespace it is in. -/
def samplePart : Bytes :=
  Bytes.ofString "<Relationships xmlns=\"r\"><Relationship Id=\"a\" Target=\"b\"/></Relationships>"

theorem rooted_samplePart : Table.Rooted root samplePart := by
  refine ⟨[], Bytes.ofString " xmlns=\"r\"",
    Bytes.ofString "<Relationship Id=\"a\" Target=\"b\"/></Relationships>", ?_, ?_, ?_, ?_, ?_, ?_⟩
  · simp only [samplePart, Table.withRoot, root, Bytes.ofString, String.reduceToList]
    decide +kernel
  · simp only [Table.withRoot, root, Bytes.ofString, String.reduceToList]
    decide +kernel
  · exact ⟨[], .nil, by simp⟩
  · decide +kernel
  · decide +kernel
  · right
    unfold Xml.BehindName
    decide +kernel

theorem agrees_samplePart : Agrees samplePart [⟨"a", "", "b"⟩] :=
  agrees_of_rooted samplePart _ (by decide +kernel) (by decide +kernel) rooted_samplePart

/-- Parts whose root is not found: a `>` stands in one of its attributes, a comment before it
    spells its tag, or its name has a prefix. -/
def missedParts : List Bytes :=
  [Bytes.ofString "<Relationships a=\">\"></Relationships>",
    Bytes.ofString "<!-- <Relationships > --><Relationships/>",
    Bytes.ofString "<r:Relationships/>"]

/-- Whether a relationship is added and read back. -/
def readsBack (source : Bytes) (r : Relationship) (old : List Relationship) : Bool :=
  match Table.insertAfterRoot root r.element source with
  | .ok source' => decide (readAll source' = .ok (r :: old))
  | .error _ => false

theorem Agrees.readsBack {source : Bytes} {old : List Relationship} (h : Agrees source old)
    (id target : String) : readsBack source (image id target) old = true := by
  obtain ⟨source', hinsert, -, hread⟩ := h id target
  rw [Relationship.readsBack, hinsert]
  exact decide_eq_true hread

theorem not_agrees_missedParts : ∀ source ∈ missedParts,
    Xml.check source = .ok () ∧ readAll source = .ok [] ∧ IsTable source ∧ ¬ Agrees source [] := by
  have hparts : ∀ source ∈ missedParts, Xml.check source = .ok () ∧ readAll source = .ok [] ∧
      (Xml.events source).map (fun events => (outermost? events).map Table.localName) =
        .ok (some "Relationships") ∧ readsBack source (image "" "") [] = false := by
    decide +kernel
  intro source hsource
  obtain ⟨hcheck, hread, houter, hback⟩ := hparts source hsource
  refine ⟨hcheck, hread, ?_, fun hagrees => ?_⟩
  · cases hevents : Xml.events source with
    | error fault =>
      rw [hevents] at houter
      cases houter
    | ok events =>
      rw [hevents] at houter
      exact ⟨events, hevents, Except.ok.inj houter⟩
  · rw [hagrees.readsBack "" ""] at hback
    cases hback

/-- The writer and the reader do not agree on every well-formed part. -/
theorem not_forall_agrees : ¬ ∀ source old, Xml.check source = .ok () →
    readAll source = .ok old → IsTable source → Agrees source old := by
  intro h
  have hquoted : Bytes.ofString "<Relationships a=\">\"></Relationships>" ∈ missedParts := by
    simp [missedParts]
  obtain ⟨hcheck, hread, htable, hnot⟩ := not_agrees_missedParts _ hquoted
  exact hnot (h _ _ hcheck hread htable)

end DocxTemplate.Relationship
