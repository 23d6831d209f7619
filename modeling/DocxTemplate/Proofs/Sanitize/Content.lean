import DocxTemplate.Proofs.Sanitize.WellFormed

/-! # The content of joined runs

    A document shows what its runs hold, not how it is split into runs: the content of a text
    leaves out the tags of runs and text nodes and all run properties.

    * `content`: the content of a text, with its character data taken apart.
    * `Cut.content`: what a cut takes out of it.
    * `content_joinRuns_iff`: joining runs keeps the content exactly if no cut takes any out.
    * `not_forall_content_joinRuns`: the opening of a run may hold a tab, which is lost when a
      second run with the same opening is joined.
-/

namespace DocxTemplate.Sanitize

open Xml
open Xml.Event (Open skipMark)

/-! ## Content -/

/-- The name of the element that an item belongs to. -/
def tagName? : Item → Option String
  | .tag (.start name _) | .tag (.close name) | .tag (.empty name _) => some name
  | .tag (.text _) | .char _ => none

/-- The number of run properties that are open behind an item. -/
def propertiesBehind (depth : Nat) : Item → Nat
  | .tag (.start name _) => if name = "w:rPr" then depth + 1 else depth
  | .tag (.close name) => if name = "w:rPr" then depth - 1 else depth
  | _ => depth

/-- Whether an item is content: it stands in no run properties, and is no tag of a run, of a
    text node or of run properties. -/
def isContent (depth : Nat) (item : Item) : Bool :=
  depth == 0 && (tagName? item).all fun name => name ∉ ["w:r", "w:t", "w:rPr"]

/-- The content among items inside `depth` open run properties. -/
def contentFrom (depth : Nat) : List Item → List Item
  | [] => []
  | item :: rest =>
    (if isContent depth item then [item] else []) ++ contentFrom (propertiesBehind depth item) rest

/-- The content of a text. -/
def content (text : Bytes) : Except Xml.Error (List Item) :=
  (contentFrom 0 ∘ items) <$> Xml.events text

/-- The number of run properties among open elements. -/
def openProperties (opened : Open) : Nat := (names opened).count "w:rPr"

/-- The content that a cut takes out, if the span can be read. -/
def Cut.content (c : Cut) : List Item :=
  match c.read? with
  | some (opened, span, _) => contentFrom (openProperties opened) (items span)
  | none => []

/-! ## Content in parts -/

theorem openProperties_cons (name : Bytes) (opened : Open) :
    openProperties (name :: opened) = openProperties opened +
      if Utf8.decodeLossy name = "w:rPr" then 1 else 0 := by
  simp [openProperties, names, List.count_cons]

theorem contentFrom_tag (depth : Nat) (event : Event) (rest : List Item) :
    contentFrom depth (.tag event :: rest) =
      contentFrom depth [.tag event] ++ contentFrom (propertiesBehind depth (.tag event)) rest := by
  simp only [contentFrom, List.append_nil]

theorem contentFrom_chars (depth : Nat) (cs : List Char) (rest : List Item) :
    contentFrom depth (cs.map Item.char ++ rest) =
      contentFrom depth (cs.map Item.char) ++ contentFrom depth rest := by
  induction cs with
  | nil => rfl
  | cons c cs ih =>
    rw [List.map_cons, List.cons_append, contentFrom, contentFrom]
    change _ ++ contentFrom depth _ = (_ ++ contentFrom depth _) ++ _
    rw [ih, List.append_assoc]

/-- What a piece of markup does to the number of open run properties. -/
theorem contentFrom_effect {opened others : Open} {m : Markup} {event? : Option Event}
    (h : Effect opened m event? others) (rest : List Item) :
    contentFrom (openProperties opened) (items event?.toList ++ rest) =
      contentFrom (openProperties opened) (items event?.toList) ++
        contentFrom (openProperties others) rest := by
  cases h with
  | @start opened content attributes =>
    have hdepth : openProperties (tagName content :: opened) =
        propertiesBehind (openProperties opened)
          (.tag (.start (Utf8.decodeLossy (tagName content)) attributes)) := by
      rw [openProperties_cons, propertiesBehind]
      split <;> rfl
    rw [hdepth]
    exact contentFrom_tag _ _ rest
  | @close opened name =>
    have hdepth : openProperties others = propertiesBehind (openProperties (name :: others))
        (.tag (.close (Utf8.decodeLossy name))) := by
      rw [openProperties_cons, propertiesBehind]
      split <;> rfl
    conv_rhs => rw [hdepth]
    exact contentFrom_tag _ _ rest
  | empty => exact contentFrom_tag _ _ rest
  | cdata =>
    simp only [Option.toList_some, items_cons, items_nil, List.append_nil, Event.items]
    exact contentFrom_chars _ _ rest
  | other => rfl

/-- The content of two parts is that of the first and that of the second, inside the elements
    that the first leaves open. -/
theorem contentFrom_append {opened last : Open} {text : Bytes} {events : List Event}
    (h : Reads opened text events last) (rest : List Item) :
    contentFrom (openProperties opened) (items events ++ rest) =
      contentFrom (openProperties opened) (items events) ++
        contentFrom (openProperties last) rest := by
  induction h with
  | nil => rfl
  | @markup opened others last written rest' m event? events taken read next ih =>
    have heffect := effect_of_ofMarkup read
    rw [items_append, List.append_assoc, contentFrom_effect heffect, contentFrom_effect heffect,
      ih, List.append_assoc]
  | text plain read next ih =>
    rw [items_cons, List.append_assoc, Event.items, contentFrom_chars, contentFrom_chars, ih,
      List.append_assoc]

/-- What is read of a text determines its content. -/
theorem content_of_reads {text : Bytes} {events : List Event} {last : Open}
    (h : Reads [] (skipMark text) events last) :
    content text = .ok (contentFrom 0 (items events)) := by
  obtain ⟨events', hthrough, hitems⟩ := h.readThrough_eq
  unfold content Xml.events
  rw [readFrom_eq_readThrough, hthrough, ← hitems]
  rfl

/-! ## Cuts -/

/-- A balanced cut takes its own content out, and nothing else. -/
theorem content_rest {c : Cut} (hjoin : OfJoin c) (hcheck : check c.whole = .ok ())
    (hbalanced : c.Balanced) :
    ∃ front behind, content c.whole = .ok (front ++ c.content ++ behind) ∧
      content c.rest = .ok (front ++ behind) := by
  obtain ⟨opened, span, hread⟩ := Cut.balanced_iff.1 hbalanced
  obtain ⟨front, behind, hparts⟩ := parts_of_check hjoin hread hcheck
  have hcontent : c.content = contentFrom (openProperties opened) (items span) := by
    rw [Cut.content, hread]
  refine ⟨contentFrom 0 (items front), contentFrom (openProperties opened) (items behind), ?_, ?_⟩
  · have hwhole : Reads [] (skipMark c.whole) (front ++ (span ++ behind)) [] := by
      rw [Cut.whole, List.append_assoc, skipMark_append hjoin.three_le]
      exact hparts.before.append (hparts.removed.append hparts.after)
    have hfront := contentFrom_append hparts.before (items span ++ items behind)
    rw [contentFrom_append hparts.removed, ← hcontent] at hfront
    rw [content_of_reads hwhole, items_append, items_append, List.append_assoc]
    exact congrArg Except.ok hfront
  · have hrest : Reads [] (skipMark c.rest) (front ++ behind) [] := by
      rw [Cut.rest, skipMark_append hjoin.three_le]
      exact hparts.before.append hparts.after
    rw [content_of_reads hrest, items_append]
    exact congrArg Except.ok (contentFrom_append hparts.before (items behind))

/-- Balanced cuts take their own contents out one after the other, and nothing else. -/
theorem cutting_content {text last : Bytes} {cuts : List Cut} (hcutting : Cutting text cuts last)
    (hjoin : ∀ c ∈ cuts, OfJoin c) (h : check text = .ok ()) (hbalanced : ∀ c ∈ cuts, c.Balanced) :
    ∃ whole rest, content text = .ok whole ∧ content last = .ok rest ∧ rest.Sublist whole ∧
      whole.length = rest.length + (cuts.flatMap Cut.content).length := by
  induction hcutting with
  | nil =>
    obtain ⟨events, hreads, -⟩ := check_eq_ok_iff.1 h
    have hcontent := content_of_reads hreads
    exact ⟨_, _, hcontent, hcontent, List.Sublist.refl _, rfl⟩
  | @cons c cuts last next ih =>
    rw [List.forall_mem_cons] at hjoin hbalanced
    obtain ⟨front, behind, hwhole, hrest⟩ := content_rest hjoin.1 h hbalanced.1
    have hcheck := (check_rest_iff hjoin.1 h hbalanced.1.whole).2 hbalanced.1
    obtain ⟨whole, rest, hwhole', hlast, hsub, hlength⟩ := ih hjoin.2 hcheck hbalanced.2
    rw [hrest, Except.ok.injEq] at hwhole'
    subst hwhole'
    refine ⟨_, rest, hwhole, hlast, hsub.trans ?_, ?_⟩
    · rw [List.append_assoc]
      exact (List.Sublist.refl front).append (List.sublist_append_right _ _)
    · simp only [List.length_append, List.flatMap_cons] at hlength ⊢
      omega

/-- Where the cuts are balanced, joining runs keeps the content of a well-formed text exactly
    if no cut takes any of it out. -/
theorem content_joinRuns_iff (text : Bytes) (h : check text = .ok ())
    (hbalanced : ∀ c ∈ joinCuts text, c.Balanced) :
    content (joinRuns text).text = content text ↔ ∀ c ∈ joinCuts text, c.content = [] := by
  obtain ⟨hcutting, -, hjoin⟩ := cutting_joinCuts text
  obtain ⟨whole, rest, hwhole, hrest, hsub, hlength⟩ := cutting_content hcutting hjoin h hbalanced
  rw [hwhole, hrest, Except.ok.injEq, ← List.flatMap_eq_nil_iff]
  constructor
  · rintro rfl
    exact List.eq_nil_of_length_eq_zero (by omega)
  · intro hnone
    rw [hnone, List.length_nil, Nat.add_zero] at hlength
    exact hsub.eq_of_length hlength.symm

theorem content_joinRuns_twoRuns :
    (joinRuns twoRuns).count = 1 ∧ content (joinRuns twoRuns).text = content twoRuns :=
  ⟨by decide +kernel, (content_joinRuns_iff twoRuns (by decide +kernel) (by decide +kernel)).2
    (by decide +kernel)⟩

/-- Two runs that start with a tab. -/
def tabbedRuns : Bytes :=
  Bytes.ofString "<w:p><w:r><w:tab/><w:t>a</w:t></w:r><w:r><w:tab/><w:t>b</w:t></w:r></w:p>"

/-- The tab of the second run belongs to its opening and is taken out with it. -/
theorem not_forall_content_joinRuns :
    ¬ ∀ text, check text = .ok () → check (joinRuns text).text = .ok () →
      content (joinRuns text).text = content text :=
  fun h => absurd (h tabbedRuns (by decide +kernel) (by decide +kernel)) (by decide +kernel)

end DocxTemplate.Sanitize
